/-
  OwnNet.Repro.Steps — a layer's document as steps, each under an id made of what it is about.

  An id is a path: the list the step is in and, in brackets, its own address there, repeats marked
  with a `~` and their number. A function's body hangs off the function's id.

  Proved: where stable ids and step ids are distinct (`ids_distinct_iff`): no address is another
  one's mark, and no function's name is the rest of a step's path in another function's body.
-/

import OwnNet.Repro.Normalize
import Mathlib.Data.List.TakeWhile

namespace OwnNet.Repro

open Dict

/-! ## Steps -/

def bracket (name address : String) : String := name ++ "[" ++ address ++ "]"

def stepsFrom (name : String) : List (String × Nat) → List (String × Json) → List Step
  | _, [] => []
  | seen, (address, value) :: rest =>
    let d := disambiguate seen address
    ⟨bracket name d.1, value⟩ :: stepsFrom name d.2 rest

/-- `_steps` -/
def steps (name : String) (values : List (String × Json)) : List Step := stepsFrom name [] values

/-- `document.get(key, [])` -/
def entries (document : List (String × Json)) (key : String) : List Json :=
  match member document key with
  | some (.arr items) => items
  | _ => []

/-- `str(entry.get(key))` -/
def textAt (entry : Json) (key : String) : String := OwnIR.str ((member (fieldsOf entry) key).getD .null)

def enumerate : Nat → List Json → List (String × Json)
  | _, [] => []
  | i, s :: rest => (toString i, s) :: enumerate (i + 1) rest

/-- The functions of `_lowered_steps`: one disambiguator across all of them. -/
def functionSteps : List (String × Nat) → List Json → List Step
  | _, [] => []
  | seen, fn :: rest =>
    let d := disambiguate seen (textAt fn "name")
    let path := bracket "functions" d.1
    ⟨path, .obj ((fieldsOf fn).filter fun f => f.1 ≠ "body")⟩ ::
      (steps (path ++ ".body") (enumerate 0 (entries (fieldsOf fn) "body")) ++ functionSteps d.2 rest)

/-- `_lowered_steps`, of a document that is normalized. -/
def normalizedSteps (doc : List (String × Json)) : List Step :=
  ⟨"lowered_version", (member doc "lowered_version").getD .null⟩ :: ⟨"module", (member doc "module").getD .null⟩ ::
    (["resources", "externs", "lifetimes"].flatMap (fun key => steps key ((entries doc key).map fun e => (textAt e "name", e))) ++
      functionSteps [] (entries doc "functions") ++ steps "handles" ((entries doc "handles").map fun h => (textAt h "handle", h)))

/-- `_lowered_steps` -/
def loweredSteps (document : List (String × Json)) : Except (List String) (List Step) :=
  (normalizeHandles document).map normalizedSteps

/-- `_summaries_steps` -/
def summariesSteps (document : List (String × Json)) : List Step :=
  ["module", "ownir_version", "degraded"].map (fun key => ⟨key, (member document key).getD .null⟩) ++
    steps "summaries" ((entries document "summaries").map fun s => (textAt s "method", s)) ++
    steps "unresolved" ((entries document "unresolved").map fun u => (OwnIR.str u, u))

/-- `_verdicts_steps` -/
def verdictsSteps (document : List (String × Json)) : List Step :=
  ⟨"verdicts_version", (member document "verdicts_version").getD .null⟩ ::
    steps "findings" ((entries document "findings").map fun f =>
      (textAt f "file" ++ ":" ++ textAt f "line" ++ ":" ++ textAt f "column" ++ ":" ++ textAt f "code", f))

/-! ## The ids of one list -/

theorem stepsFrom_ids (name : String) {seen : List (String × Nat)} {before : List String} (h : Counts seen before)
    (values : List (String × Json)) :
    (stepsFrom name seen values).map Step.id = ((numbered before (values.map Prod.fst)).map (label tilde)).map
    (bracket name) := by
  induction values generalizing seen before with
  | nil => rfl
  | cons v rest ih =>
    obtain ⟨address, value⟩ := v
    rw [stepsFrom, List.map_cons, ih (disambiguate_counts h address), disambiguate_label h]
    rfl

theorem steps_ids (name : String) (values : List (String × Json)) :
    (steps name values).map Step.id = (marked tilde (values.map Prod.fst)).map (bracket name) :=
  stepsFrom_ids name counts_nil values

theorem bracket_toList (name address : String) :
    (bracket name address).toList = name.toList ++ '[' :: (address.toList ++ [']']) := by
  simp [bracket]

theorem bracket_injective (name : String) : Function.Injective (bracket name) := by
  intro a b h
  have hlist := congrArg String.toList h
  rw [bracket_toList, bracket_toList, List.append_cancel_left_eq, List.cons.injEq] at hlist
  exact String.toList_inj.mp (List.append_cancel_right hlist.2)

theorem steps_nodup (name : String) (values : List (String × Json)) :
    ((steps name values).map Step.id).Nodup ↔ Clear tilde (values.map Prod.fst) := by
  rw [steps_ids, List.nodup_map_iff (bracket_injective name), nodup_marked tilde_shows]

theorem enumerate_fst (i : Nat) (items : List Json) :
    (enumerate i items).map Prod.fst = (List.range' i items.length).map toString := by
  induction items generalizing i with
  | nil => rfl
  | cons s rest ih => rw [enumerate, List.map_cons, ih, List.length_cons, List.range'_succ, List.map_cons]

theorem numerals_nodup (i n : Nat) : ((List.range' i n).map (toString : Nat → String)).Nodup := by
  refine (List.nodup_map_iff fun a b h => ?_).mpr List.nodup_range'
  exact Parsing.numeral_inj (congrArg String.toList h)

theorem body_ids (path : String) (items : List Json) :
    (steps path (enumerate 0 items)).map Step.id = (List.range items.length).map fun i => bracket path (toString i) := by
  rw [steps_ids, enumerate_fst, marked_of_nodup (numerals_nodup 0 _), List.map_map, List.range_eq_range']
  rfl

/-! ## The ids of functions and their bodies -/

/-- A function's id, or that of a statement of its body. -/
def placeId : String × Option Nat → String
  | (address, none) => bracket "functions" address
  | (address, some i) => bracket (bracket "functions" address ++ ".body") (toString i)

/-- Functions by address and number of statements. -/
def places (fns : List (String × Nat)) : List (String × Option Nat) :=
  fns.flatMap fun f => (f.1, none) :: (List.range f.2).map fun i => (f.1, some i)

/-- What a step of a body has behind `functions[`, but for the last bracket. -/
def withinBody (address : String) (i : Nat) : String := address ++ "].body[" ++ toString i

theorem withinBody_toList (address : String) (i : Nat) :
    (withinBody address i).toList = (address.toList ++ "].body".toList) ++ '[' :: Parsing.numeral i := by
  simp [withinBody, Parsing.numeral]

theorem placeId_some (address : String) (i : Nat) : placeId (address, some i) = bracket "functions" (withinBody address i) := by
  rw [← String.toList_inj, placeId, bracket_toList, bracket_toList, String.toList_append, bracket_toList,
    withinBody_toList, Parsing.numeral]
  simp

theorem withinBody_inj {a b : String} {i j : Nat} (h : withinBody a i = withinBody b j) : a = b ∧ i = j := by
  have hlist := congrArg String.toList h
  rw [withinBody_toList, withinBody_toList] at hlist
  obtain ⟨hab, -, hij⟩ := Parsing.numeral_suffix (by decide) (by decide) hlist
  exact ⟨String.toList_inj.mp (List.append_cancel_right hab), hij⟩

theorem withinBody_ne_tilde (a b : String) (i n : Nat) : withinBody a i ≠ tilde b n := by
  intro h
  have hlist := congrArg String.toList h
  rw [withinBody_toList, tilde_toList] at hlist
  exact absurd (Parsing.numeral_suffix (by decide) (by decide) hlist).2.1 (by decide)

theorem mem_places {fns : List (String × Nat)} {p : String × Option Nat} :
    p ∈ places fns ↔ ∃ f ∈ fns, p = (f.1, none) ∨ ∃ i < f.2, p = (f.1, some i) := by
  simp [places, eq_comm]

theorem places_nodup {fns : List (String × Nat)} (h : (fns.map Prod.fst).Nodup) : (places fns).Nodup := by
  rw [List.Nodup, List.pairwise_map] at h
  refine List.nodup_flatMap.mpr ⟨fun f _ => ?_, h.imp fun {f g} hfg p hf hg => ?_⟩
  · refine List.nodup_cons.mpr ⟨by simp, (List.nodup_map_iff fun i j hij => ?_).mpr List.nodup_range⟩
    simpa using hij
  · have hfst : ∀ {f : String × Nat}, p ∈ (f.1, none) :: (List.range f.2).map (fun i => (f.1, some i)) → p.1 = f.1 := by
      intro f hp
      rcases List.mem_cons.mp hp with rfl | hp
      · rfl
      · obtain ⟨i, -, rfl⟩ := List.mem_map.mp hp
        rfl
    exact hfg ((hfst hf).symm.trans (hfst hg))

theorem addresses_sublist (fns : List (String × Nat)) :
    ((fns.map Prod.fst).map fun a => (a, (none : Option Nat))).Sublist (places fns) := by
  induction fns with
  | nil => exact List.Sublist.refl _
  | cons f rest ih => exact List.Sublist.cons_cons _ (ih.trans (List.sublist_append_right _ _))

theorem places_ids_nodup (fns : List (String × Nat)) : ((places fns).map placeId).Nodup ↔
    (fns.map Prod.fst).Nodup ∧ ∀ f ∈ fns, ∀ i < f.2, withinBody f.1 i ∉ fns.map Prod.fst := by
  refine ⟨fun h => ⟨?_, fun f hf i hi hin => ?_⟩, fun ⟨haddr, hbody⟩ => ?_⟩
  · have hsub := h.of_map.sublist (addresses_sublist fns)
    exact hsub.of_map
  · obtain ⟨g, hg, heq⟩ := List.mem_map.mp hin
    have hfplace : (f.1, some i) ∈ places fns := mem_places.mpr ⟨f, hf, .inr ⟨i, hi, rfl⟩⟩
    have hgplace : (g.1, none) ∈ places fns := mem_places.mpr ⟨g, hg, .inl rfl⟩
    have hid : placeId (f.1, some i) = placeId (g.1, none) := by rw [placeId_some, placeId, heq]
    exact absurd (Prod.mk.inj (List.inj_on_of_nodup_map h hfplace hgplace hid)).2 (by simp)
  · refine (List.nodup_map_iff_inj_on (places_nodup haddr)).mpr fun p hp q hq heq => ?_
    obtain ⟨f, hf, hfp⟩ := mem_places.mp hp
    obtain ⟨g, hg, hgq⟩ := mem_places.mp hq
    have hfin := List.mem_map_of_mem (f := Prod.fst) hf
    have hgin := List.mem_map_of_mem (f := Prod.fst) hg
    rcases hfp with rfl | ⟨i, hi, rfl⟩
    · rcases hgq with rfl | ⟨j, hj, rfl⟩
      · rw [bracket_injective _ heq]
      · rw [placeId_some] at heq
        exact absurd (bracket_injective _ heq ▸ hfin) (hbody g hg j hj)
    · rcases hgq with rfl | ⟨j, hj, rfl⟩
      · rw [placeId_some] at heq
        exact absurd ((bracket_injective _ heq).symm ▸ hgin) (hbody f hf i hi)
      · rw [placeId_some, placeId_some] at heq
        obtain ⟨ha, hij⟩ := withinBody_inj (bracket_injective _ heq)
        rw [ha, hij]

theorem functionSteps_ids {seen : List (String × Nat)} {before : List String} (h : Counts seen before) (fns : List Json) :
    (functionSteps seen fns).map Step.id =
      (places (((numbered before (fns.map fun fn => textAt fn "name")).map (label tilde)).zip
        (fns.map fun fn => (entries (fieldsOf fn) "body").length))).map placeId := by
  induction fns generalizing seen before with
  | nil => rfl
  | cons fn rest ih =>
    have hbody := body_ids (bracket "functions" (label tilde (textAt fn "name", before.count (textAt fn "name"))) ++ ".body")
      (entries (fieldsOf fn) "body")
    rw [functionSteps, List.map_cons, List.map_append, ih (disambiguate_counts h _), disambiguate_label h, hbody]
    simp [places, numbered, placeId, Function.comp_def]

/-! ## Lists side by side -/

/-- The list an id is in. -/
def headOf (id : String) : List Char := id.toList.takeWhile (· ≠ '[')

theorem unbracketed {name : String} (h : '[' ∉ name.toList) : ∀ c ∈ name.toList, decide (c ≠ '[') = true := fun c hc => by
  rw [decide_eq_true_iff]
  exact fun he => h (he ▸ hc)

theorem headOf_plain {name : String} (h : '[' ∉ name.toList) : headOf name = name.toList :=
  List.takeWhile_eq_self_iff.mpr (unbracketed h)

theorem headOf_bracket {name : String} (h : '[' ∉ name.toList) (address : String) :
    headOf (bracket name address) = name.toList := by
  rw [headOf, bracket_toList, List.takeWhile_append_of_pos (unbracketed h)]
  simp

theorem headOf_place (p : String × Option Nat) : headOf (placeId p) = "functions".toList := by
  obtain ⟨address, i⟩ := p
  cases i with
  | none => exact headOf_bracket (by decide) address
  | some i =>
    rw [placeId_some]
    exact headOf_bracket (by decide) _

theorem steps_head {name : String} (h : '[' ∉ name.toList) (values : List (String × Json)) :
    ∀ id ∈ (steps name values).map Step.id, headOf id = name.toList := by
  intro id hid
  rw [steps_ids, List.mem_map] at hid
  obtain ⟨address, -, rfl⟩ := hid
  exact headOf_bracket h address

/-- A part of a document: a step of its own, a list's entries, or the functions with their bodies. -/
inductive Segment
  | single (name : String)
  | listed (name : String) (values : List (String × Json))
  | functions (fns : List Json)

namespace Segment

def name : Segment → String
  | single name => name
  | listed name _ => name
  | functions _ => "functions"

def ids : Segment → List String
  | single name => [name]
  | listed name values => (steps name values).map Step.id
  | functions fns => (functionSteps [] fns).map Step.id

theorem head {p : Segment} (h : '[' ∉ p.name.toList) : ∀ id ∈ p.ids, headOf id = p.name.toList := by
  cases p with
  | single name =>
    intro id hid
    rw [List.mem_singleton.mp hid]
    exact headOf_plain h
  | listed name values => exact steps_head h values
  | functions fns =>
    intro id hid
    rw [ids, functionSteps_ids counts_nil, List.mem_map] at hid
    obtain ⟨place, -, rfl⟩ := hid
    exact headOf_place place

end Segment

/-- Ids of different parts differ. -/
theorem segments_nodup {ps : List Segment} (hnames : (ps.map Segment.name).Nodup) (hplain : ∀ p ∈ ps, '[' ∉ p.name.toList) :
    (ps.flatMap Segment.ids).Nodup ↔ ∀ p ∈ ps, p.ids.Nodup := by
  rw [List.nodup_flatMap]
  refine and_iff_left ?_
  rw [List.Nodup, List.pairwise_map] at hnames
  refine hnames.imp_of_mem fun {p q} hp hq hne id hid hid' => hne (String.toList_inj.mp ?_)
  exact ((p.head (hplain p hp)) id hid).symm.trans (q.head (hplain q hq) id hid')

/-! ## The lowered layer -/

theorem stmtEntries_length (body : List Stmt) : (stmtEntries body).length = body.length := by
  induction body with
  | nil => rfl
  | cons s rest ih => rw [stmtEntries, List.length_cons, ih, List.length_cons]

section Lowered

variable (d : Layer2) (name : Ref → String)

/-- What is under a key of the document, that is not the handles. -/
theorem rewritten_entries (key : String) (items : List Tagged) (hkey : key ≠ "handles")
    (h : (projectLowered d).find? (fun f => f.1 = key) = some (key, .arr items)) :
    entries (d.rewritten name) key = items.map fun t => rewrite (d.called name) (t.untag name) := by
  have huntag : ∀ fields : List (String × Tagged), (Tagged.untagFields name fields).find? (fun f => f.1 = key) =
      (fields.find? fun f => f.1 = key).map fun f => (f.1, f.2.untag name) := by
    intro fields
    rw [Tagged.untagFields_eq, List.find?_map]
    rfl
  have hmember : member (d.rewritten name) key = some (rewrite (d.called name) (.arr (items.map (Tagged.untag name)))) := by
    rw [member, Layer2.rewritten, Layer2.json, List.find?_map]
    have hkeep : (fun f : String × Json => decide (f.1 = key)) ∘ (fun f : String × Json =>
        if f.1 = "handles" then (f.1, Json.arr (d.handles.map fun r =>
          stamped ((d.handleNames name).zip d.stableIds) (handleJson name r)))
        else (f.1, rewrite (d.called name) f.2)) = fun f => decide (f.1 = key) := by
      funext f
      by_cases hf : f.1 = "handles"
      · simp [hf]
      · simp [hf]
    rw [hkeep, huntag, h]
    simp [hkey, Tagged.untag, Tagged.untagItems_eq]
  rw [entries, hmember, rewrite, rewriteItems_eq, List.map_map]
  rfl

/-- The names of a list's entries, where each has its name first. -/
theorem names_called {α : Type} (key : String) (items : List α) (entry : α → Tagged) (nameOf : α → String)
    (hkey : key ≠ "handles")
    (h : (projectLowered d).find? (fun f => f.1 = key) = some (key, .arr (items.map entry)))
    (hentry : ∀ a, ∃ fields, entry a = .obj (("name", .text (nameOf a)) :: fields)) :
    (entries (d.rewritten name) key).map (fun e => textAt e "name") = items.map fun a => d.called name (nameOf a) := by
  rw [rewritten_entries d name key _ hkey h, List.map_map, List.map_map]
  refine List.map_congr_left fun a _ => ?_
  obtain ⟨fields, he⟩ := hentry a
  simp [he, Tagged.untag, Tagged.untagFields, Tagged.text, rewrite, rewriteFields, textAt, fieldsOf, member, OwnIR.str]

theorem resource_names : (entries (d.rewritten name) "resources").map
    (fun e => textAt e "name") = d.resources.map fun r => d.called name r.name :=
  names_called d name "resources" d.resources resourceEntry ResourceDecl.name (by decide)
    (by simp [projectLowered]) fun _ => ⟨_, rfl⟩

theorem extern_names : (entries (d.rewritten name) "externs").map
    (fun e => textAt e "name") = d.externs.map fun e => d.called name e.name :=
  names_called d name "externs" d.externs externEntry ExternDecl.name (by decide) (by simp [projectLowered]) fun _ => ⟨_, rfl⟩

theorem lifetime_names : (entries (d.rewritten name) "lifetimes").map
    (fun e => textAt e "name") = d.lifetimes.map fun lt => d.called name lt.name :=
  names_called d name "lifetimes" d.lifetimes lifetimeEntry LifetimeDecl.name (by decide)
    (by simp [projectLowered]) fun _ => ⟨_, rfl⟩

theorem function_names : (entries (d.rewritten name) "functions").map
    (fun e => textAt e "name") = d.functions.map fun fn => d.called name fn.name :=
  names_called d name "functions" d.functions functionEntry FnDecl.name (by decide) (by simp [projectLowered]) fun _ => ⟨_, rfl⟩

theorem function_bodies : ((entries (d.rewritten name) "functions").map fun fn => (entries (fieldsOf fn) "body").length) =
    d.functions.map fun fn => fn.body.length := by
  rw [rewritten_entries d name "functions" (d.functions.map functionEntry) (by decide) (by simp [projectLowered]),
    List.map_map, List.map_map]
  refine List.map_congr_left fun fn _ => ?_
  simp [functionEntry, Tagged.untag, Tagged.untagFields, Tagged.untagItems_eq, rewrite, rewriteFields,
    rewriteItems_eq, entries, fieldsOf, member,
    stmtEntries_length]

theorem handle_name (rename : List (String × String)) (r : HandleRecord) :
    textAt (stamped rename (handleJson name r)) "handle" = renamed rename (name (.handle r.handle)) := by
  simp [stamped, handleJson, mintedOf, fieldsOf, member, rewriteFields, rewrite, upsert, textAt, OwnIR.str]

theorem handle_names : (entries (d.rewritten name) "handles").map
    (fun e => textAt e "handle") = (d.handleNames name).map (d.called name) := by
  have hhandles : entries (d.rewritten name) "handles" =
      d.handles.map fun r => stamped ((d.handleNames name).zip d.stableIds) (handleJson name r) := by
    simp [Layer2.rewritten, Layer2.json, projectLowered, Tagged.untagFields, entries, member]
  rw [hhandles, List.map_map, Layer2.handleNames, List.map_map]
  exact List.map_congr_left fun r _ => handle_name name _ r

end Lowered

/-- Where the step ids of a lowered document are distinct: what is called by one name is told
    apart by marks that are no names themselves, and no function is called what a step of a body
    is. The stable ids are marked a second time as addresses. -/
structure Layer2.Apart (d : Layer2) : Prop where
  resources : Clear tilde (d.resources.map fun r => d.called Ref.text r.name)
  externs : Clear tilde (d.externs.map fun e => d.called Ref.text e.name)
  lifetimes : Clear tilde (d.lifetimes.map fun lt => d.called Ref.text lt.name)
  functions : Clear tilde (d.functions.map fun fn => d.called Ref.text fn.name)
  bodies : ∀ f ∈ (numbered [] (d.functions.map fun fn => d.called Ref.text fn.name)).zip
    (d.functions.map fun fn => fn.body.length), ∀ i < f.2,
    withinBody (label tilde f.1) i ∉ d.functions.map fun fn => d.called Ref.text fn.name
  handles : ∀ a n, 0 < n → n < (d.handles.map HandleRecord.identity).count a → tilde a n ∈ d.handles.map HandleRecord.identity →
    (d.handles.map HandleRecord.identity).count (tilde a n) ≤ 1 ∧ tilde (tilde a n) 1 ∉ d.handles.map HandleRecord.identity

theorem functions_nodup (names : List String) (bodies : List Nat) (hlen : names.length = bodies.length) :
    ((places ((marked tilde names).zip bodies)).map placeId).Nodup ↔
      Clear tilde names ∧ ∀ f ∈ (numbered [] names).zip bodies, ∀ i < f.2, withinBody (label tilde f.1) i ∉ names := by
  have hnum : (numbered [] names).length = bodies.length := by
    rw [← hlen, ← List.length_map (f := Prod.fst), numbered_fst]
  have hfst : ((marked tilde names).zip bodies).map Prod.fst = marked tilde names := by
    rw [List.map_fst_zip]
    rw [marked, List.length_map, hnum]
  have hzip : (marked tilde names).zip bodies = ((numbered [] names).zip bodies).map fun f => (label tilde f.1, f.2) := by
    rw [marked, List.zip_map_left]
    rfl
  have hin : ∀ a i, withinBody a i ∈ marked tilde names ↔ withinBody a i ∈ names := by
    intro a i
    rw [mem_marked]
    refine or_iff_left ?_
    rintro ⟨b, n, -, -, heq⟩
    exact withinBody_ne_tilde a b i n heq.symm
  rw [places_ids_nodup, hfst, nodup_marked tilde_shows, hzip, List.forall_mem_map]
  simp only [hin]

theorem lowered_nodup (d : Layer2) (hnodup : (d.handleNames Ref.text).Nodup) :
    ((normalizedSteps (d.rewritten Ref.text)).map Step.id).Nodup ↔ d.Apart := by
  set doc := d.rewritten Ref.text with hdoc
  let segs : List Segment :=
    [.single "lowered_version", .single "module",
      .listed "resources" ((entries doc "resources").map fun e => (textAt e "name", e)),
      .listed "externs" ((entries doc "externs").map fun e => (textAt e "name", e)),
      .listed "lifetimes" ((entries doc "lifetimes").map fun e => (textAt e "name", e)), .functions (entries doc "functions"),
      .listed "handles" ((entries doc "handles").map fun h => (textAt h "handle", h))]
  have hids : (normalizedSteps doc).map Step.id = segs.flatMap Segment.ids := by
    simp [normalizedSteps, segs, Segment.ids]
  have hfunctions := functionSteps_ids counts_nil (entries doc "functions")
  rw [hids, segments_nodup (by simp [segs, Segment.name]) (by simp [segs, Segment.name])]
  simp only [segs, Segment.ids, List.forall_mem_cons, List.not_mem_nil, IsEmpty.forall_iff,
    implies_true, and_true, List.nodup_singleton,
    true_and, steps_nodup, List.map_map, Function.comp_def]
  rw [hdoc, resource_names, extern_names, lifetime_names, hfunctions, hdoc, function_names, function_bodies, handle_names,
    d.called_handles Ref.text hnodup]
  have hfns := functions_nodup (d.functions.map fun fn => d.called Ref.text fn.name)
    (d.functions.map fun fn => fn.body.length) (by simp)
  have hstable : Clear tilde d.stableIds ↔ _ := (nodup_marked tilde_shows d.stableIds).symm.trans
    (nodup_marked_twice tilde_shows (d.handles.map HandleRecord.identity))
  rw [marked] at hfns
  rw [hfns, hstable]
  exact ⟨fun ⟨hr, he, hl, ⟨hf, hb⟩, hh⟩ => ⟨hr, he, hl, hf, hb, hh⟩,
    fun h => ⟨h.resources, h.externs, h.lifetimes, ⟨h.functions, h.bodies⟩, h.handles⟩⟩

/-! ## The other layers -/

theorem summaries_nodup (d : SummariesDoc) :
    ((summariesSteps d.json).map Step.id).Nodup ↔ Clear tilde (d.summaries.map Prod.fst) ∧ Clear tilde d.unresolved := by
  have hmethods : (entries d.json "summaries").map (fun s => textAt s "method") = d.summaries.map Prod.fst := by
    simp [SummariesDoc.json, entries, member, textAt, fieldsOf, OwnIR.str, Function.comp_def]
  have hunresolved : (entries d.json "unresolved").map OwnIR.str = d.unresolved := by
    simp [SummariesDoc.json, entries, member, OwnIR.str, Function.comp_def]
  let segs : List Segment :=
    [.single "module", .single "ownir_version", .single "degraded",
      .listed "summaries" ((entries d.json "summaries").map fun s => (textAt s "method", s)),
      .listed "unresolved" ((entries d.json "unresolved").map fun u => (OwnIR.str u, u))]
  have hids : (summariesSteps d.json).map Step.id = segs.flatMap Segment.ids := by
    simp [summariesSteps, segs, Segment.ids]
  rw [hids, segments_nodup (by simp [segs, Segment.name]) (by simp [segs, Segment.name])]
  simp only [segs, Segment.ids, List.forall_mem_cons, List.not_mem_nil, IsEmpty.forall_iff,
    implies_true, and_true, List.nodup_singleton,
    true_and, steps_nodup, List.map_map, Function.comp_def]
  rw [hmethods, hunresolved]

/-- `file:line:column:code` -/
def FindingRecord.address (f : FindingRecord) : String :=
  f.file ++ ":" ++ toString f.line ++ ":" ++ f.column.elim "None" (fun c => toString c) ++ ":" ++ f.code

theorem verdicts_nodup (d : VerdictsDoc) :
    ((verdictsSteps d.json).map Step.id).Nodup ↔ Clear tilde (d.findings.map FindingRecord.address) := by
  have haddress : (entries d.json "findings").map (fun f => textAt f "file" ++ ":" ++ textAt f "line" ++
    ":" ++ textAt f "column" ++ ":" ++
      textAt f "code") = d.findings.map FindingRecord.address := by
    simp only [VerdictsDoc.json, entries, member, List.find?_cons, String.reduceEq, decide_false,
      decide_true, Option.map_some, List.map_map]
    refine List.map_congr_left fun f _ => ?_
    cases hcol : f.column <;>
      simp [FindingRecord.json, FindingRecord.address, textAt, fieldsOf, member, OwnIR.str, OwnIR.repr, hcol]
  let segs : List Segment :=
    [.single "verdicts_version",
      .listed "findings" ((entries d.json "findings").map fun f =>
        (textAt f "file" ++ ":" ++ textAt f "line" ++ ":" ++ textAt f "column" ++ ":" ++ textAt f "code", f))]
  have hids : (verdictsSteps d.json).map Step.id = segs.flatMap Segment.ids := by
    simp [verdictsSteps, segs, Segment.ids]
  rw [hids, segments_nodup (by simp [segs, Segment.name]) (by simp [segs, Segment.name])]
  simp only [segs, Segment.ids, List.forall_mem_cons, List.not_mem_nil, IsEmpty.forall_iff,
    implies_true, and_true, List.nodup_singleton,
    true_and, steps_nodup, List.map_map, Function.comp_def]
  rw [haddress]

/-! ## Distinct ids -/

theorem handleNames_nodup {d : Layer2} (h : (d.handles.map HandleRecord.handle).Nodup) : (d.handleNames Ref.text).Nodup := by
  have hmap : d.handleNames Ref.text = (d.handles.map HandleRecord.handle).map Handle.text := by
    rw [List.map_map]
    rfl
  rw [hmap]
  exact (List.nodup_map_iff fun _ _ => Handle.text_inj).mpr h

theorem loweredSteps_ok {d : Layer2} (h : (d.handleNames Ref.text).Nodup) {ss : List Step}
    (hok : loweredSteps (d.json Ref.text) = .ok ss) :
    ss = normalizedSteps (d.rewritten Ref.text) := by
  rw [loweredSteps, d.normalizeHandles_eq Ref.text h] at hok
  cases hleft : mintedLeftovers (d.rewritten Ref.text) with
  | nil =>
    rw [hleft] at hok
    exact (Except.ok.inj hok).symm
  | cons s rest =>
    rw [hleft] at hok
    cases hok

/-- Stable ids are distinct, and so are a layer's step ids, where no mark on a repeat is the name of
    another. -/
theorem ids_distinct_iff (d : Layer2) (s : SummariesDoc) (v : VerdictsDoc) (h : (d.handles.map HandleRecord.handle).Nodup) :
    (((stableHandleIds (d.handles.map (handleJson Ref.text))).map Prod.snd).Nodup ↔
      Clear tilde (d.handles.map HandleRecord.identity)) ∧
      (∀ ss, loweredSteps (d.json Ref.text) = .ok ss → ((ss.map Step.id).Nodup ↔ d.Apart)) ∧
      (((summariesSteps s.json).map Step.id).Nodup ↔ Clear tilde (s.summaries.map Prod.fst) ∧ Clear tilde s.unresolved) ∧
      (((verdictsSteps v.json).map Step.id).Nodup ↔ Clear tilde (v.findings.map FindingRecord.address)) := by
  have hnodup := handleNames_nodup h
  refine ⟨?_, fun ss hok => ?_, summaries_nodup s, verdicts_nodup v⟩
  · rw [d.rename_eq Ref.text hnodup, List.map_snd_zip (by rw [d.stableIds_length, Layer2.handleNames, List.length_map])]
    exact nodup_marked tilde_shows _
  · rw [loweredSteps_ok hnodup hok]
    exact lowered_nodup d hnodup

/-- Two handlers subscribed twice. -/
theorem ids_distinct_twice :
    let on (counter : Nat) (handler : String) :
      HandleRecord := ⟨⟨.sub, counter⟩, [("component", .str "C"), ("handler", .str handler)]⟩
    let d : Layer2 :=
      { module_ := "M", resources := [], externs := [], lifetimes := [], functions := [],
        handles := [on 0 "h", on 1 "g", on 2 "h", on 3 "g"] }
    Clear tilde (d.handles.map HandleRecord.identity) := by
  intro on d
  have h := ids_distinct_iff d ⟨"M", 1, [], [], none⟩ ⟨1, []⟩ (by decide)
  exact h.1.mp (by decide)

/-- A handler called as the mark on another's second subscription is. -/
theorem mark_is_a_name :
    ¬ ∀ d : Layer2, (d.handles.map HandleRecord.handle).Nodup →
      ((stableHandleIds (d.handles.map (handleJson Ref.text))).map Prod.snd).Nodup ∧
        ∀ ss, loweredSteps (d.json Ref.text) = .ok ss → (ss.map Step.id).Nodup := by
  intro h
  let on (counter : Nat) (handler : String) :
    HandleRecord := ⟨⟨.sub, counter⟩, [("component", .str "C"), ("handler", .str handler)]⟩
  let d : Layer2 :=
    { module_ := "M", resources := [], externs := [], lifetimes := [], functions := [],
      handles := [on 0 "h", on 1 "h", on 2 "h~1"] }
  have hids := (h d (by decide)).1
  revert hids
  decide

end OwnNet.Repro
