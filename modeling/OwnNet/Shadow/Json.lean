/-
  OwnNet.Shadow.Json — the order-preserving JSON value of the shadow crate, and its two writers:
  the canonical one, which sorts the members of an object, and the pretty one, which keeps them
  as they stand.

  Proved: `writers_unambiguous`: the canonical text tells two values apart up to the order of their
  members, the pretty one altogether.
-/

import OwnNet.Json.Unique
import OwnNet.Parsing.Numerals
import OwnNet.Sorting

namespace OwnNet.Shadow

open Parsing

/-! ## Values -/

inductive Json where
  | null
  | bool (b : Bool)
  | int (i : Int64)
  | str (s : String)
  | array (items : List Json)
  | object (entries : List (String × Json))

namespace Json

/-- Induction on a value, from the items of an array and the values of an object. -/
theorem induct {P : Json → Prop} (null : P .null) (bool : ∀ b, P (.bool b)) (int : ∀ i, P (.int i)) (str : ∀ s, P (.str s))
    (array : ∀ items, (∀ v ∈ items, P v) → P (.array items))
    (object : ∀ entries, (∀ e ∈ entries, P e.2) → P (.object entries)) : ∀ v, P v :=
  @Json.rec P (fun items => ∀ v ∈ items, P v) (fun entries => ∀ e ∈ entries, P e.2)
    (fun e => P e.2) null bool int str array object
    (fun _ hv => absurd hv List.not_mem_nil) (fun _ _ hv hrest => List.forall_mem_cons.mpr ⟨hv, hrest⟩)
    (fun _ he => absurd he List.not_mem_nil) (fun _ _ he hrest => List.forall_mem_cons.mpr ⟨he, hrest⟩) fun _ _ hv => hv

/-- `write_escaped` -/
def writeEscaped (s : String) : List Char := (OwnNet.Json.dumpStr s).toList

mutual

/-- `write_canonical` -/
def canonical : Json → List Char
  | .null => ['n', 'u', 'l', 'l']
  | .bool b => if b then ['t', 'r', 'u', 'e'] else ['f', 'a', 'l', 's', 'e']
  | .int i => signed i.toInt
  | .str s => writeEscaped s
  | .array items => '[' :: ([','].intercalate (canonicalItems items) ++ [']'])
  | .object entries =>
    let sorted := (canonicalEntries entries).insertionSort fun a b => a.1 ≤ b.1
    '\x7b' :: ([','].intercalate (sorted.map fun e => writeEscaped e.1 ++ ':' :: e.2) ++ ['\x7d'])

def canonicalItems : List Json → List (List Char)
  | [] => []
  | v :: rest => canonical v :: canonicalItems rest

/-- The keys, and the texts of the values. -/
def canonicalEntries : List (String × Json) → List (String × List Char)
  | [] => []
  | (k, v) :: rest => (k, canonical v) :: canonicalEntries rest

end

/-- `to_canonical` -/
def toCanonical (v : Json) : String := String.ofList (canonical v)

def indent (level : Nat) : List Char := List.replicate (level * 2) ' '

mutual

/-- `write_pretty` -/
def pretty (level : Nat) : Json → List Char
  | .array [] => ['[', ']']
  | .array (v :: rest) =>
    '[' :: '\n' :: ([',', '\n'].intercalate ((indent (level + 1) ++ pretty (level + 1) v) :: prettyItems (level + 1) rest) ++
      '\n' :: (indent level ++ [']']))
  | .object [] => ['\x7b', '\x7d']
  | .object ((k, v) :: rest) =>
    '\x7b' :: '\n' :: ([',', '\n'].intercalate
      ((indent (level + 1) ++ (writeEscaped k ++ (':' :: ' ' :: pretty (level + 1) v))) :: prettyEntries (level + 1) rest) ++
      '\n' :: (indent level ++ ['\x7d']))
  | v => canonical v

def prettyItems (level : Nat) : List Json → List (List Char)
  | [] => []
  | v :: rest => (indent level ++ pretty level v) :: prettyItems level rest

def prettyEntries (level : Nat) : List (String × Json) → List (List Char)
  | [] => []
  | (k, v) :: rest => (indent level ++ (writeEscaped k ++ (':' :: ' ' :: pretty level v))) :: prettyEntries level rest

end

/-- `to_pretty` -/
def toPretty (v : Json) : String := String.ofList (pretty 0 v)

/-! ## Values up to the order of their members -/

mutual

inductive Alike : Json → Json → Prop
  | null : Alike .null .null
  | bool (b : Bool) : Alike (.bool b) (.bool b)
  | int (i : Int64) : Alike (.int i) (.int i)
  | str (s : String) : Alike (.str s) (.str s)
  | array {as bs : List Json} : AlikeItems as bs → Alike (.array as) (.array bs)
  | object {as as' bs' bs : List (String × Json)} :
    as.Perm as' → AlikeEntries as' bs' → bs'.Perm bs → Alike (.object as) (.object bs)

inductive AlikeItems : List Json → List Json → Prop
  | nil : AlikeItems [] []
  | cons {v w : Json} {vs ws : List Json} : Alike v w → AlikeItems vs ws → AlikeItems (v :: vs) (w :: ws)

inductive AlikeEntries : List (String × Json) → List (String × Json) → Prop
  | nil : AlikeEntries [] []
  | cons {k : String} {v w : Json} {vs ws : List (String × Json)} :
    Alike v w → AlikeEntries vs ws → AlikeEntries ((k, v) :: vs) ((k, w) :: ws)

end

def AlikeEntry (e f : String × Json) : Prop := e.1 = f.1 ∧ Alike e.2 f.2

theorem alikeItems_of {vs ws : List Json} (h : List.Forall₂ Alike vs ws) : AlikeItems vs ws := by
  induction h with
  | nil => exact .nil
  | cons hv _ ih => exact .cons hv ih

theorem alikeEntries_of {es fs : List (String × Json)} (h : List.Forall₂ AlikeEntry es fs) : AlikeEntries es fs := by
  induction h with
  | nil => exact .nil
  | @cons e f es fs he _ ih =>
    obtain ⟨k, v⟩ := e
    obtain ⟨k', w⟩ := f
    obtain ⟨rfl, hv⟩ := he
    exact .cons hv ih

mutual

/-- No object has a key twice. -/
def Unique : Json → Prop
  | .array items => UniqueItems items
  | .object entries => (entries.map Prod.fst).Nodup ∧ UniqueEntries entries
  | _ => True

def UniqueItems : List Json → Prop
  | [] => True
  | v :: rest => v.Unique ∧ UniqueItems rest

def UniqueEntries : List (String × Json) → Prop
  | [] => True
  | (_, v) :: rest => v.Unique ∧ UniqueEntries rest

end

/-! ## How a text starts -/

/-- The kind of value a first character tells. -/
def kindOf (c : Char) : Nat :=
  if c = 'n' then 0
  else if c = 't' ∨ c = 'f' then 1
  else if c = '"' then 3
  else if c = '[' then 4
  else if c = '\x7b' then 5
  else if c = '-' ∨ c.isDigit then 2
  else 6

def kind : Json → Nat
  | .null => 0
  | .bool _ => 1
  | .int _ => 2
  | .str _ => 3
  | .array _ => 4
  | .object _ => 5

theorem writeEscaped_reads (s : String) : ReadsOnly (fun _ => True) writeEscaped (· = ·) s :=
  fun _ _ _ _ _ h => OwnNet.Json.dumpStr_unique h

theorem writeEscaped_cons (s : String) : ∃ rest, writeEscaped s = '"' :: rest := ⟨_, OwnNet.Json.toList_dumpStr s⟩

/-- A text that starts as the kind of its value does. -/
def StartsAs (v : Json) (t : List Char) : Prop := ∃ c rest, t = c :: rest ∧ kindOf c = v.kind

theorem canonical_starts (v : Json) : StartsAs v (canonical v) := by
  cases v with
  | null => exact ⟨'n', _, rfl, rfl⟩
  | bool b => cases b <;> exact ⟨_, _, rfl, rfl⟩
  | int i =>
    obtain ⟨c, rest, h, hc⟩ := signed_cons i.toInt
    refine ⟨c, rest, h, ?_⟩
    have hne : ∀ d : Char, d.isDigit = false → d ≠ '-' → c ≠ d := fun d hd hm hcd => by
      subst hcd
      rcases hc with hc | hc
      · rw [hd] at hc
        cases hc
      · exact hm hc
    simp [kindOf, kind, hne, hc.symm]
  | str s =>
    obtain ⟨rest, h⟩ := writeEscaped_cons s
    exact ⟨'"', rest, h, rfl⟩
  | array items => exact ⟨'[', _, rfl, rfl⟩
  | object entries => exact ⟨'\x7b', _, rfl, rfl⟩

theorem pretty_starts (level : Nat) (v : Json) : StartsAs v (pretty level v) := by
  cases v with
  | null => exact canonical_starts .null
  | bool b => exact canonical_starts (.bool b)
  | int i => exact canonical_starts (.int i)
  | str s => exact canonical_starts (.str s)
  | array items => cases items <;> exact ⟨'[', _, rfl, rfl⟩
  | object entries => cases entries <;> exact ⟨'\x7b', _, rfl, rfl⟩

theorem StartsAs.kind_eq {v w : Json} {t u r r' : List Char} (hv : StartsAs v t) (hw : StartsAs w u) (h : t ++ r = u ++ r') :
    v.kind = w.kind := by
  obtain ⟨c, rest, rfl, hc⟩ := hv
  obtain ⟨d, rest', rfl, hd⟩ := hw
  rw [← hc, ← hd, (List.cons.inj h).1]

/-! ## The leaves -/

/-- A leaf is read only as itself, and not as a container. -/
theorem canonical_leaf {v w : Json} {r r' : List Char} (hv : v.kind < 4) (hr : NoDigit r) (hr' : NoDigit r')
    (h : canonical v ++ r = canonical w ++ r') : v = w ∧ r = r' := by
  have hkind := (canonical_starts v).kind_eq (canonical_starts w) h
  cases v with
  | null =>
    cases w with
    | null => exact ⟨rfl, List.append_cancel_left h⟩
    | _ => cases hkind
  | bool b =>
    cases w with
    | bool b' =>
      cases b with
      | true =>
        cases b' with
        | true => exact ⟨rfl, List.append_cancel_left h⟩
        | false => exact absurd (List.cons.inj (show 't' :: _ = 'f' :: _ from h)).1 (by decide)
      | false =>
        cases b' with
        | true => exact absurd (List.cons.inj (show 'f' :: _ = 't' :: _ from h)).1 (by decide)
        | false => exact ⟨rfl, List.append_cancel_left h⟩
    | _ => cases hkind
  | int i =>
    cases w with
    | int j =>
      obtain ⟨hij, hrest⟩ := int_reads i.toInt j.toInt r r' hr hr' h
      exact ⟨congrArg _ (Int64.toInt_inj.mp hij), hrest⟩
    | _ => cases hkind
  | str s =>
    cases w with
    | str s' =>
      obtain ⟨rfl, hrest⟩ := writeEscaped_reads s s' r r' trivial trivial h
      exact ⟨rfl, hrest⟩
    | _ => cases hkind
  | array items => exact absurd hv (show ¬ 4 < 4 by decide)
  | object entries => exact absurd hv (show ¬ 5 < 4 by decide)

/-! ## The canonical text -/

theorem canonicalItems_eq (items : List Json) : canonicalItems items = items.map canonical := by
  induction items with
  | nil => rfl
  | cons v rest ih => rw [canonicalItems, ih, List.map_cons]

theorem canonicalEntries_eq (entries : List (String × Json)) :
    canonicalEntries entries = entries.map fun e => (e.1, canonical e.2) := by
  induction entries with
  | nil => rfl
  | cons e rest ih => rw [canonicalEntries, ih, List.map_cons]

/-- The members in the order of their keys. -/
def keyOrder (entries : List (String × Json)) : List (String × Json) := entries.insertionSort fun a b => a.1 ≤ b.1

theorem keyOrder_perm (entries : List (String × Json)) : (keyOrder entries).Perm entries := List.perm_insertionSort _ entries

def entryText (e : String × Json) : List Char := writeEscaped e.1 ++ ([':'] ++ canonical e.2)

theorem entryText_reads {e : String × Json} (h : ReadsOnly NoDigit canonical Alike e.2) :
    ReadsOnly NoDigit entryText AlikeEntry e := by
  intro f r r' hr hr' he
  have he : writeEscaped e.1 ++ ([':'] ++ canonical e.2 ++ r) = writeEscaped f.1 ++ ([':'] ++ canonical f.2 ++ r') := by
    simpa [entryText] using he
  obtain ⟨hkey, hrest⟩ := writeEscaped_reads e.1 f.1 _ _ trivial trivial he
  obtain ⟨hval, heq⟩ := h.after [':'] f.2 r r' hr hr' hrest
  exact ⟨⟨hkey, hval⟩, heq⟩

theorem canonical_array (items : List Json) :
    canonical (.array items) = '[' :: ([','].intercalate (items.map canonical) ++ [']']) := by
  rw [canonical, canonicalItems_eq]

theorem canonical_object (entries : List (String × Json)) :
    canonical (.object entries) = '\x7b' :: ([','].intercalate ((keyOrder entries).map entryText) ++ ['\x7d']) := by
  have hsort : (keyOrder entries).map (fun e => (e.1,
      canonical e.2)) = (canonicalEntries entries).insertionSort fun a b => a.1 ≤ b.1 := by
    rw [canonicalEntries_eq]
    exact List.map_insertionSort _ _ (fun e : String × Json => (e.1, canonical e.2)) entries fun _ _ _ _ => Iff.rfl
  rw [canonical, ← hsort, List.map_map]
  rfl

theorem canonical_ne_close {c : Char} (hc : kindOf c = 6) (v : Json) (t t' : List Char) : canonical v ++ t ≠ c :: t' := by
  intro h
  obtain ⟨d, rest, hd, hk⟩ := canonical_starts v
  rw [hd] at h
  rw [(List.cons.inj h).1, hc] at hk
  cases v <;> cases hk

theorem alike_leaf {v : Json} (hv : v.kind < 4) : Alike v v := by
  cases v with
  | null => exact .null
  | bool b => exact .bool b
  | int i => exact .int i
  | str s => exact .str s
  | array items => exact absurd hv (show ¬ 4 < 4 by decide)
  | object entries => exact absurd hv (show ¬ 5 < 4 by decide)

/-- Induction on the constructors: values of different kinds start apart, and items and members are
    read one by one. -/
theorem canonical_reads : ∀ v, ReadsOnly NoDigit canonical Alike v := by
  have hleaf : ∀ v : Json, v.kind < 4 → ReadsOnly NoDigit canonical Alike v := fun v hv w r r' hr hr' h => by
    obtain ⟨rfl, hrest⟩ := canonical_leaf hv hr hr' h
    exact ⟨alike_leaf hv, hrest⟩
  apply induct
  · exact hleaf .null (by decide)
  · exact fun b => hleaf (.bool b) (show 1 < 4 by decide)
  · exact fun i => hleaf (.int i) (show 2 < 4 by decide)
  · exact fun s => hleaf (.str s) (show 3 < 4 by decide)
  · intro items ih w r r' _ _ h
    have hkind := (canonical_starts (.array items)).kind_eq (canonical_starts w) h
    cases w with
    | array items' =>
      rw [canonical_array, canonical_array, List.cons_append, List.cons_append, List.append_assoc, List.append_assoc] at h
      obtain ⟨hall, hrest⟩ := ReadsOnly.listed (by decide) (noDigit_cons (by decide)) (noDigit_cons (by decide)) ih
        (canonical_ne_close (by decide)) (List.cons.inj h).2
      exact ⟨.array (alikeItems_of hall), hrest⟩
    | _ => cases hkind
  · intro entries ih w r r' _ _ h
    have hkind := (canonical_starts (.object entries)).kind_eq (canonical_starts w) h
    cases w with
    | object entries' =>
      rw [canonical_object, canonical_object, List.cons_append, List.cons_append, List.append_assoc, List.append_assoc] at h
      have hentry : ∀ e ∈ keyOrder entries, ReadsOnly NoDigit entryText AlikeEntry e := fun e he =>
        entryText_reads (ih e ((keyOrder_perm entries).mem_iff.mp he))
      have hclose : ∀ (e : String × Json) (t t' : List Char), entryText e ++ t ≠ '\x7d' :: t' := by
        intro e t t' he
        obtain ⟨rest, hkey⟩ := writeEscaped_cons e.1
        rw [entryText, hkey] at he
        exact absurd (List.cons.inj he).1 (by decide)
      obtain ⟨hall, hrest⟩ := ReadsOnly.listed (by decide) (noDigit_cons (by decide)) (noDigit_cons (by decide)) hentry hclose
        (List.cons.inj h).2
      exact ⟨.object (keyOrder_perm entries).symm (alikeEntries_of hall) (keyOrder_perm entries'), hrest⟩
    | _ => cases hkind

theorem keyOrder_congr {as bs : List (String × Json)} (h : as.Perm bs) (hn : (as.map Prod.fst).Nodup) :
    keyOrder as = keyOrder bs :=
  Sorting.keyed_perm Prod.fst (fun _ ha _ hb => List.inj_on_of_nodup_map hn ha hb) h

/-- The members of an object may be written down in any order. -/
theorem canonical_perm {as bs : List (String × Json)} (h : as.Perm bs) (hn : (as.map Prod.fst).Nodup) :
    canonical (.object as) = canonical (.object bs) := by
  rw [canonical_object, canonical_object, keyOrder_congr h hn]

theorem uniqueItems_mem {items : List Json} (h : UniqueItems items) {v : Json} (hv : v ∈ items) : v.Unique := by
  induction items with
  | nil => cases hv
  | cons w rest ih =>
    rw [UniqueItems] at h
    rcases List.mem_cons.mp hv with rfl | hv
    · exact h.1
    · exact ih h.2 hv

theorem uniqueEntries_mem {entries : List (String × Json)} (h : UniqueEntries entries) {e : String × Json} (he : e ∈ entries) :
    e.2.Unique := by
  induction entries with
  | nil => cases he
  | cons f rest ih =>
    rw [UniqueEntries] at h
    rcases List.mem_cons.mp he with rfl | he
    · exact h.1
    · exact ih h.2 he

theorem alikeItems_canonical {vs ws : List Json} (h : AlikeItems vs ws) (hv : ∀ v ∈ vs, ∀ w,
    Alike v w → canonical v = canonical w) :
    canonicalItems vs = canonicalItems ws := by
  induction vs generalizing ws with
  | nil => cases h; rfl
  | cons v vs ih =>
    cases h with
    | cons hvw hrest =>
      rw [canonicalItems, canonicalItems, hv v List.mem_cons_self _ hvw, ih hrest fun u hu => hv u (List.mem_cons_of_mem _ hu)]

theorem alikeEntries_canonical {es fs : List (String × Json)} (h : AlikeEntries es fs)
    (hv : ∀ e ∈ es, ∀ w, Alike e.2 w → canonical e.2 = canonical w) :
    canonicalEntries es = canonicalEntries fs ∧ es.map Prod.fst = fs.map Prod.fst := by
  induction es generalizing fs with
  | nil => cases h; exact ⟨rfl, rfl⟩
  | cons e es ih =>
    cases h with
    | cons hvw hrest =>
      obtain ⟨htexts, hkeys⟩ := ih hrest fun f hf => hv f (List.mem_cons_of_mem _ hf)
      refine ⟨?_, by rw [List.map_cons, List.map_cons, hkeys]⟩
      rw [canonicalEntries, canonicalEntries, htexts, hv _ List.mem_cons_self _ hvw]

/-- Values that are one up to the order of their members have one canonical text. -/
theorem alike_canonical : ∀ v : Json, v.Unique → ∀ w, Alike v w → canonical v = canonical w := by
  apply induct
  · intro _ w h
    cases h; rfl
  · intro b _ w h
    cases h; rfl
  · intro i _ w h
    cases h; rfl
  · intro s _ w h
    cases h; rfl
  · intro items ih hu w h
    rw [Unique] at hu
    cases h with
    | array hall =>
      rw [canonical, canonical, alikeItems_canonical hall fun v hv => ih v hv (uniqueItems_mem hu hv)]
  · intro entries ih hu w h
    rw [Unique] at hu
    cases h with
    | @object _ as bs _ has hall hbs =>
      obtain ⟨htexts, hkeys⟩ := alikeEntries_canonical hall fun e he =>
        ih e (has.mem_iff.mpr he) (uniqueEntries_mem hu.2 (has.mem_iff.mpr he))
      have hn : (as.map Prod.fst).Nodup := (has.map Prod.fst).nodup_iff.mp hu.1
      calc canonical (.object entries) = canonical (.object as) := canonical_perm has hu.1
        _ = canonical (.object bs) := by rw [canonical, canonical, htexts]
        _ = _ := canonical_perm hbs (hkeys ▸ hn)

theorem alike_of_canonical {v w : Json} (h : canonical v = canonical w) : Alike v w :=
  (canonical_reads v w [] [] (fun _ hc => by cases hc) (fun _ hc => by cases hc) (by rw [h])).1

/-! ## The pretty text -/

def itemText (level : Nat) (v : Json) : List Char := indent level ++ pretty level v

def prettyEntry (level : Nat) (e : String × Json) : List Char :=
  indent level ++ (writeEscaped e.1 ++ ([':', ' '] ++ pretty level e.2))

theorem prettyItems_eq (level : Nat) (items : List Json) : prettyItems level items = items.map (itemText level) := by
  induction items with
  | nil => rfl
  | cons v rest ih => rw [prettyItems, ih, List.map_cons, itemText]

theorem prettyEntries_eq (level : Nat) (entries : List (String × Json)) :
    prettyEntries level entries = entries.map (prettyEntry level) := by
  induction entries with
  | nil => rfl
  | cons e rest ih => rw [prettyEntries, ih, List.map_cons]; rfl

theorem pretty_array (level : Nat) (v : Json) (rest : List Json) : pretty level (.array (v :: rest)) =
    '[' :: '\n' :: ([',', '\n'].intercalate ((v :: rest).map (itemText (level + 1))) ++ '\n' :: (indent level ++ [']'])) := by
  rw [pretty, prettyItems_eq, List.map_cons, itemText]

theorem pretty_object (level : Nat) (e : String × Json) (rest : List (String × Json)) : pretty level (.object (e :: rest)) =
    '\x7b' :: '\n' :: ([',', '\n'].intercalate ((e :: rest).map (prettyEntry (level + 1))) ++
        '\n' :: (indent level ++ ['\x7d'])) := by
  rw [pretty, prettyEntries_eq, List.map_cons]
  rfl

theorem itemText_reads {level : Nat} {v : Json} (h : ReadsOnly NoDigit (pretty level) (· = ·) v) :
    ReadsOnly NoDigit (itemText level) (· = ·) v := h.after (indent level)

theorem prettyEntry_reads {level : Nat} {e : String × Json} (h : ReadsOnly NoDigit (pretty level) (· = ·) e.2) :
    ReadsOnly NoDigit (prettyEntry level) (· = ·) e := by
  intro f r r' hr hr' he
  have he : writeEscaped e.1 ++ ([':', ' '] ++ pretty level e.2 ++ r) = writeEscaped f.1 ++
      ([':', ' '] ++ pretty level f.2 ++ r') := by
    simpa [prettyEntry] using he
  obtain ⟨hkey, hrest⟩ := writeEscaped_reads e.1 f.1 _ _ trivial trivial he
  obtain ⟨hval, heq⟩ := h.after [':', ' '] f.2 r r' hr hr' hrest
  exact ⟨Prod.ext hkey hval, heq⟩

theorem pretty_leaf {v : Json} (hv : v.kind < 4) (level : Nat) : pretty level v = canonical v := by
  cases v with
  | null => rfl
  | bool b => rfl
  | int i => rfl
  | str s => rfl
  | array items => exact absurd hv (show ¬ 4 < 4 by decide)
  | object entries => exact absurd hv (show ¬ 5 < 4 by decide)

theorem pretty_reads : ∀ (v : Json) (level : Nat), ReadsOnly NoDigit (pretty level) (· = ·) v := by
  have hleaf : ∀ v : Json, v.kind < 4 → ∀ level, ReadsOnly NoDigit (pretty level) (· = ·) v :=
      fun v hv level w r r' hr hr' h => by
    have hkind := (pretty_starts level v).kind_eq (pretty_starts level w) h
    rw [pretty_leaf hv, pretty_leaf (hkind ▸ hv)] at h
    exact canonical_leaf hv hr hr' h
  have heq : ∀ {α : Type} {as bs : List α}, List.Forall₂ (· = ·) as bs → as = bs := fun h => List.forall₂_eq_eq_eq ▸ h
  apply induct
  · exact hleaf .null (by decide)
  · exact fun b => hleaf (.bool b) (show 1 < 4 by decide)
  · exact fun i => hleaf (.int i) (show 2 < 4 by decide)
  · exact fun s => hleaf (.str s) (show 3 < 4 by decide)
  · intro items ih level w r r' hr hr' h
    have hkind := (pretty_starts level (.array items)).kind_eq (pretty_starts level w) h
    cases w with
    | array items' =>
      cases items with
      | nil =>
        cases items' with
        | nil => exact ⟨rfl, List.append_cancel_left h⟩
        | cons v' rest' => exact absurd (List.cons.inj (List.cons.inj h).2).1 (show ']' ≠ '\n' by decide)
      | cons v rest =>
        cases items' with
        | nil => exact absurd (List.cons.inj (List.cons.inj h).2).1 (show '\n' ≠ ']' by decide)
        | cons v' rest' =>
          rw [pretty_array, pretty_array] at h
          have h : [',', '\n'].intercalate ((v :: rest).map (itemText (level + 1))) ++ ('\n' :: (indent level ++ [']']) ++ r) =
              [',', '\n'].intercalate ((v' :: rest').map (itemText (level + 1))) ++ ('\n' :: (indent level ++ [']']) ++ r') := by
            simpa using h
          obtain ⟨hall, hrest⟩ := ReadsOnly.joined (by decide) (noDigit_cons (by decide)) (noDigit_cons (by decide))
            (fun u hu => itemText_reads (ih u hu (level + 1))) (by simp) (by simp) h
          exact ⟨congrArg Json.array (heq hall), hrest⟩
    | _ => cases hkind
  · intro entries ih level w r r' hr hr' h
    have hkind := (pretty_starts level (.object entries)).kind_eq (pretty_starts level w) h
    cases w with
    | object entries' =>
      cases entries with
      | nil =>
        cases entries' with
        | nil => exact ⟨rfl, List.append_cancel_left h⟩
        | cons e' rest' => exact absurd (List.cons.inj (List.cons.inj h).2).1 (show '\x7d' ≠ '\n' by decide)
      | cons e rest =>
        cases entries' with
        | nil => exact absurd (List.cons.inj (List.cons.inj h).2).1 (show '\n' ≠ '\x7d' by decide)
        | cons e' rest' =>
          rw [pretty_object, pretty_object] at h
          have h : [',', '\n'].intercalate ((e :: rest).map (prettyEntry (level + 1))) ++
            ('\n' :: (indent level ++ ['\x7d']) ++ r) =
              [',', '\n'].intercalate ((e' :: rest').map (prettyEntry (level + 1))) ++
              ('\n' :: (indent level ++ ['\x7d']) ++ r') := by
            simpa using h
          obtain ⟨hall, hrest⟩ := ReadsOnly.joined (by decide) (noDigit_cons (by decide)) (noDigit_cons (by decide))
            (fun f hf => prettyEntry_reads (ih f hf (level + 1))) (by simp) (by simp) h
          exact ⟨congrArg Json.object (heq hall), hrest⟩
    | _ => cases hkind

/-! ## The two writers -/

/-- The canonical text of a value whose objects have no key twice is the text of those it is the
    same as up to the order of members, and its pretty text is its own. -/
theorem writers_unambiguous (v w : Json) (hv : v.Unique) :
    (toCanonical v = toCanonical w ↔ Alike v w) ∧ (toPretty v = toPretty w ↔ v = w) := by
  refine ⟨⟨fun h => ?_, fun h => ?_⟩, fun h => ?_, fun h => by rw [h]⟩
  · exact alike_of_canonical (String.ofList_injective h)
  · exact congrArg String.ofList (alike_canonical v hv w h)
  · have hnil : NoDigit [] := fun _ hc => by cases hc
    exact (pretty_reads v 0 w [] [] hnil hnil (by rw [String.ofList_injective h])).1

/-- Two members the other way round are written as one canonically, and apart when pretty. -/
theorem writers_swapped :
    toCanonical (.object [("b", .int 1), ("a", .bool true)]) = toCanonical (.object [("a", .bool true), ("b", .int 1)]) ∧
      toPretty (.object [("b", .int 1), ("a", .bool true)]) ≠ toPretty (.object [("a", .bool true), ("b", .int 1)]) := by
  have hboth := writers_unambiguous (.object [("b", .int 1), ("a", .bool true)]) (.object [("a", .bool true), ("b", .int 1)])
    (by simp [Unique, UniqueEntries])
  refine ⟨hboth.1.mpr ?_, fun h => absurd (hboth.2.mp h) (by simp)⟩
  exact .object (List.Perm.swap _ _ _) (.cons (.bool true) (.cons (.int 1) .nil)) (List.Perm.refl _)

end Json

end OwnNet.Shadow
