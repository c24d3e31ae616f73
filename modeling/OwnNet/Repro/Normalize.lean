/-
  OwnNet.Repro.Normalize — `normalize_handles`: every minted handle of a lowered document by a
  stable id, made of what its record says and not of the counter.

  The rewrite replaces strings, wherever they are, that are spelled as a handle of the document is;
  what is spelled as some handle after that is a leftover, and the document is refused.

  A document is an object with an object for each handle record, as the projection writes it.
-/

import OwnNet.Dict.Repeats
import OwnNet.OwnIR.Nodes
import OwnNet.Parsing.Numerals
import OwnNet.Repro.Layer2

namespace OwnNet.Repro

open Dict

/-! ## Spelling -/

/-- The zeros of the runs of ten decimal digits. -/
def decimalZeros : List Nat :=
  [0x30, 0x660, 0x6f0, 0x7c0, 0x966, 0x9e6, 0xa66, 0xae6, 0xb66, 0xbe6, 0xc66, 0xce6, 0xd66,
    0xde6, 0xe50, 0xed0, 0xf20, 0x1040, 0x1090,
    0x17e0, 0x1810, 0x1946, 0x19d0, 0x1a80, 0x1a90, 0x1b50, 0x1bb0, 0x1c40, 0x1c50, 0xa620,
      0xa8d0, 0xa900, 0xa9d0, 0xa9f0, 0xaa50, 0xabf0,
    0xff10, 0x104a0, 0x10d30, 0x11066, 0x110f0, 0x11136, 0x111d0, 0x112f0, 0x11450, 0x114d0,
      0x11650, 0x116c0, 0x11730, 0x118e0, 0x11950,
    0x11c50, 0x11d50, 0x11da0, 0x16a60, 0x16ac0, 0x16b50, 0x1d7ce, 0x1d7d8, 0x1d7e2, 0x1d7ec,
      0x1d7f6, 0x1e140, 0x1e2f0, 0x1e950, 0x1fbf0]

/-- `\d` -/
def decimal (c : Char) : Bool := decimalZeros.any fun z => decide (z ≤ c.toNat ∧ c.toNat < z + 10)

/-- `\d+$`: the end may be in front of a last newline. -/
def digitsToEnd (cs : List Char) : Bool :=
  let digits := if cs.getLast? = some '\n' then cs.dropLast else cs
  digits ≠ [] && digits.all decimal

def Mint.opening (m : Mint) : List Char := m.text.toList ++ ['_']

/-- `_MINTED_HANDLE`: `^(sub|cap|parg|loc)_\d+$`, and the group of a match. -/
def mintOf (s : String) : Option Mint :=
  [Mint.sub, .cap, .parg, .loc].find? fun m => m.opening.isPrefixOf s.toList && digitsToEnd (s.toList.drop m.opening.length)

/-! ## Stable ids -/

def tilde (address : String) (n : Nat) : String := address ++ "~" ++ toString n

/-- `_disambiguate` -/
def disambiguate (seen : List (String × Nat)) (address : String) : String × List (String × Nat) :=
  let n := (seen.lookup address).getD 0
  (if n = 0 then address else tilde address n, upsert address (fun _ => n + 1) seen)

/-- `_identity` -/
def identity (record : List (String × Json)) : String :=
  "|".intercalate (["component", "file", "line", "event", "handler"].map fun k => (member record k).elim "" OwnIR.str)

def fieldsOf : Json → List (String × Json)
  | .obj fields => fields
  | _ => []

/-- The name a record is under. -/
def mintedOf (record : Json) : Option String :=
  match member (fieldsOf record) "handle" with
  | some (.str minted) => some minted
  | _ => none

/-- One record of `stable_handle_ids`: what was seen, and the ids so far. -/
def addStable (state : List (String × Nat) × List (String × String)) (record : Json) :
    List (String × Nat) × List (String × String) :=
  match mintedOf record with
  | some minted =>
    let d := disambiguate state.1 (identity (fieldsOf record))
    (d.2, upsert minted (fun _ => d.1) state.2)
  | none => state

/-- `stable_handle_ids` -/
def stableHandleIds (handles : List Json) : List (String × String) := (handles.foldl addStable ([], [])).2

/-! ## Rewriting -/

mutual

/-- `_rewrite`, with `f` for `rename.get(value, value)`. -/
def rewrite (f : String → String) : Json → Json
  | .str s => .str (f s)
  | .arr items => .arr (rewriteItems f items)
  | .obj fields => .obj (rewriteFields f fields)
  | j => j

def rewriteItems (f : String → String) : List Json → List Json
  | [] => []
  | j :: rest => rewrite f j :: rewriteItems f rest

def rewriteFields (f : String → String) : List (String × Json) → List (String × Json)
  | [] => []
  | (k, j) :: rest => (k, rewrite f j) :: rewriteFields f rest

end

mutual

/-- The strings of a value, keys apart. -/
def texts : Json → List String
  | .str s => [s]
  | .arr items => textsItems items
  | .obj fields => textsFields fields
  | _ => []

def textsItems : List Json → List String
  | [] => []
  | j :: rest => texts j ++ textsItems rest

def textsFields : List (String × Json) → List String
  | [] => []
  | (_, j) :: rest => texts j ++ textsFields rest

end

/-- `_minted_leftovers` -/
def mintedLeftovers (document : List (String × Json)) : List String := (textsFields document).filter fun s => (mintOf s).isSome

def renamed (rename : List (String × String)) (s : String) : String := (rename.lookup s).getD s

/-- A record rewritten, with the kind its handle was minted for. -/
def stamped (rename : List (String × String)) (original : Json) : Json :=
  let record := rewriteFields (renamed rename) (fieldsOf original)
  match mintedOf original with
  | some minted => .obj (upsert "mint" (fun _ => .str ((mintOf minted).elim minted Mint.text)) record)
  | none => .obj record

/-- `normalize_handles`, or the leftovers it refuses a document for. -/
def normalizeHandles (document : List (String × Json)) : Except (List String) (List (String × Json)) :=
  match member document "handles" with
  | some (.arr handles) =>
    let rename := stableHandleIds handles
    let out := document.map fun f => if f.1 = "handles" then (f.1, Json.arr (handles.map (stamped rename))) else
      (f.1, rewrite (renamed rename) f.2)
    match mintedLeftovers out with
    | [] => .ok out
    | leftovers => .error leftovers
  | _ => .ok document

/-! ## Handles are spelled apart -/

theorem Mint.text_inj {m m' : Mint} (h : m.text = m'.text) : m = m' := by
  revert h
  cases m <;> cases m' <;> decide

theorem Handle.text_toList (h : Handle) : h.text.toList = h.mint.text.toList ++ '_' :: Parsing.numeral h.counter := by
  rw [Handle.text, String.toList_append, String.toList_append, List.append_assoc]
  rfl

theorem Handle.text_inj {h h' : Handle} (heq : h.text = h'.text) : h = h' := by
  have hlist := congrArg String.toList heq
  rw [Handle.text_toList, Handle.text_toList] at hlist
  obtain ⟨hmint, -, hcounter⟩ := Parsing.numeral_suffix (by decide) (by decide) hlist
  obtain ⟨mint, counter⟩ := h
  obtain ⟨mint', counter'⟩ := h'
  simp only at hmint hcounter
  rw [Mint.text_inj (String.toList_inj.mp hmint), hcounter]

/-! ## Stable ids are the identities, repeats marked -/

theorem tilde_toList (address : String) (n : Nat) : (tilde address n).toList = address.toList ++ '~' :: Parsing.numeral n := by
  rw [tilde, String.toList_append, String.toList_append, List.append_assoc]
  rfl

theorem tilde_shows : Shows tilde := by
  intro a b m n h
  have hlist := congrArg String.toList h
  rw [tilde_toList, tilde_toList] at hlist
  obtain ⟨hab, -, hmn⟩ := Parsing.numeral_suffix (by decide) (by decide) hlist
  exact ⟨String.toList_inj.mp hab, hmn⟩

theorem disambiguate_label {seen : List (String × Nat)} {before : List String} (h : Counts seen before) (address : String) :
    (disambiguate seen address).1 = label tilde (address, before.count address) := by
  simp only [disambiguate, label, h address]

theorem disambiguate_counts {seen : List (String × Nat)} {before : List String} (h : Counts seen before) (address : String) :
    Counts (disambiguate seen address).2 (address :: before) := h.next address

/-- The ids of records under distinct names: each name with its record's identity, repeats marked. -/
theorem stableHandleIds_eq {handles : List Json} (names : List String)
    (hnames : handles.map mintedOf = names.map some) (hnodup : names.Nodup) :
    stableHandleIds handles = names.zip (marked tilde (handles.map fun r => identity (fieldsOf r))) := by
  have hall : ∀ (handles : List Json) (names before : List String) (seen : List (String × Nat)) (out : List (String × String)),
      handles.map mintedOf = names.map some → names.Nodup → Counts seen before → (∀ n ∈ names, n ∉ out.map Prod.fst) →
      (handles.foldl addStable (seen, out)).2 =
        out ++ names.zip ((numbered before (handles.map fun r => identity (fieldsOf r))).map (label tilde)) := by
    intro handles
    induction handles with
    | nil =>
      intro names before seen out hmap _ _ _
      cases names with
      | nil => simp
      | cons n names => simp at hmap
    | cons r handles ih =>
      intro names before seen out hmap hnodup hcounts hout
      cases names with
      | nil => simp at hmap
      | cons n names =>
        rw [List.map_cons, List.map_cons, List.cons.injEq] at hmap
        rw [List.nodup_cons] at hnodup
        have hstep : addStable (seen, out) r =
            ((disambiguate seen (identity (fieldsOf r))).2, out ++ [(n, (disambiguate seen (identity (fieldsOf r))).1)]) := by
          simp only [addStable, hmap.1]
          rw [upsert_fresh (hout n List.mem_cons_self)]
        have hfresh : ∀ m ∈ names, m ∉ (out ++ [(n, (disambiguate seen (identity (fieldsOf r))).1)]).map Prod.fst := by
          intro m hm hin
          rw [List.map_append, List.mem_append] at hin
          rcases hin with hin | hin
          · exact hout m (List.mem_cons_of_mem _ hm) hin
          · have hmn : m = n := List.mem_singleton.mp hin
            exact hnodup.1 (hmn ▸ hm)
        rw [List.foldl_cons, hstep, ih names _ _ _ hmap.2 hnodup.2 (disambiguate_counts hcounts _) hfresh,
          disambiguate_label hcounts]
        simp [numbered]
  exact hall handles names [] [] [] hnames hnodup counts_nil fun _ _ h => absurd h List.not_mem_nil

/-! ## Documents -/

namespace Tagged

theorem untagItems_eq (name : Ref → String) (items : List Tagged) : untagItems name items = items.map (untag name) := by
  induction items with
  | nil => rfl
  | cons t rest ih => rw [untagItems, ih, List.map_cons]

theorem untagFields_eq (name : Ref → String) (fields : List (String × Tagged)) :
    untagFields name fields = fields.map fun f => (f.1, untag name f.2) := by
  induction fields with
  | nil => rfl
  | cons f rest ih => rw [untagFields, ih, List.map_cons]

end Tagged

theorem rewriteItems_eq (f : String → String) (items : List Json) : rewriteItems f items = items.map (rewrite f) := by
  induction items with
  | nil => rfl
  | cons j rest ih => rw [rewriteItems, ih, List.map_cons]

theorem rewriteFields_eq (f : String → String) (fields : List (String × Json)) :
    rewriteFields f fields = fields.map fun e => (e.1, rewrite f e.2) := by
  induction fields with
  | nil => rfl
  | cons e rest ih => rw [rewriteFields, ih, List.map_cons]

theorem member_cons_ne {fields : List (String × Json)} {k key : String} {v : Json} (h : k ≠ key) :
    member ((k, v) :: fields) key = member fields key := by
  simp [member, h]

/-- A record's identity, whatever its handle is called. -/
def HandleRecord.identity (r : HandleRecord) : String := Repro.identity r.kept

theorem identity_cons (v : Json) (fields : List (String × Json)) : identity (("handle", v) :: fields) = identity fields := by
  have hne : ∀ k ∈ ["component", "file", "line", "event", "handler"], member (("handle", v) :: fields) k = member fields k := by
    intro k hk
    refine member_cons_ne fun he => ?_
    subst he
    revert hk
    decide
  unfold identity
  rw [List.map_congr_left fun k hk => by rw [hne k hk]]

def handleJson (name : Ref → String) (r : HandleRecord) : Json := .obj (("handle", .str (name (.handle r.handle))) :: r.kept)

theorem untag_handleFields (name : Ref → String) (r : HandleRecord) :
    Tagged.untag name (.obj (handleFields r)) = handleJson name r := by
  rw [Tagged.untag, Tagged.untagFields_eq, handleFields, List.map_cons, List.map_map, handleJson]
  simp only [Tagged.untag, Function.comp_def]
  exact congrArg (fun l => Json.obj (_ :: l)) (List.map_id' _)

namespace Layer2

variable (d : Layer2) (name : Ref → String)

def handleNames : List String := d.handles.map fun r => name (.handle r.handle)

/-- The records' stable ids. -/
def stableIds : List String := marked tilde (d.handles.map HandleRecord.identity)

/-- What a string is rewritten to. -/
def called (s : String) : String := renamed ((d.handleNames name).zip d.stableIds) s

theorem handles_eq : member (d.json name) "handles" = some (.arr (d.handles.map (handleJson name))) := by
  simp [Layer2.json, projectLowered, Tagged.untagFields, Tagged.untag, Tagged.untagItems_eq,
    member, Function.comp_def, ← untag_handleFields]

theorem rename_eq (h : (d.handleNames name).Nodup) :
    stableHandleIds (d.handles.map (handleJson name)) = (d.handleNames name).zip d.stableIds := by
  rw [stableHandleIds_eq (d.handleNames name) ?_ h, List.map_map]
  · have hid : (fun r => identity (fieldsOf r)) ∘ handleJson name = HandleRecord.identity := by
      funext r
      exact identity_cons _ _
    rw [hid]
    rfl
  · rw [List.map_map, handleNames, List.map_map]
    exact List.map_congr_left fun r _ => by simp [handleJson, mintedOf, fieldsOf, member]

/-- The document with every string rewritten that is a handle's name, and the mints noted. -/
def rewritten : List (String × Json) :=
  (d.json name).map fun f =>
    if f.1 = "handles" then (f.1, Json.arr (d.handles.map fun r =>
      stamped ((d.handleNames name).zip d.stableIds) (handleJson name r)))
    else (f.1, rewrite (d.called name) f.2)

/-- `normalize_handles` rewrites, and refuses what is left. -/
theorem normalizeHandles_eq (h : (d.handleNames name).Nodup) :
    normalizeHandles (d.json name) = match mintedLeftovers (d.rewritten name) with
      | [] => .ok (d.rewritten name)
      | leftovers => .error leftovers := by
  rw [normalizeHandles, d.handles_eq name]
  simp only [d.rename_eq name h, List.map_map]
  rfl

theorem stableIds_length : d.stableIds.length = d.handles.length := by
  have hnum := congrArg List.length (numbered_fst [] (d.handles.map HandleRecord.identity))
  rw [List.length_map, List.length_map] at hnum
  rw [stableIds, marked, List.length_map, hnum]

/-- Every handle is called by its stable id. -/
theorem called_handles (h : (d.handleNames name).Nodup) : (d.handleNames name).map (d.called name) = d.stableIds := by
  have hall : ∀ (names ids : List String), names.Nodup → names.length = ids.length →
      names.map (renamed (names.zip ids)) = ids := by
    intro names
    induction names with
    | nil =>
      intro ids _ hlen
      exact (List.eq_nil_of_length_eq_zero hlen.symm).symm
    | cons n names ih =>
      intro ids hnodup hlen
      cases ids with
      | nil => cases hlen
      | cons id ids =>
        rw [List.nodup_cons] at hnodup
        have hrest : names.map (renamed ((n, id) :: names.zip ids)) = names.map (renamed (names.zip ids)) := by
          refine List.map_congr_left fun m hm => ?_
          have hne : m ≠ n := fun he => hnodup.1 (he ▸ hm)
          rw [renamed, renamed, List.lookup_cons, beq_eq_false_iff_ne.mpr hne]
        rw [List.zip_cons_cons, List.map_cons, hrest, ih ids hnodup.2 (Nat.succ.inj hlen)]
        simp [renamed]
  exact hall _ _ h (by rw [handleNames, List.length_map, stableIds_length])

end Layer2

end OwnNet.Repro
