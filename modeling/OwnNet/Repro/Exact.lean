/-
  OwnNet.Repro.Exact — what the reduction of two traces says, and what it says of the two
  the other way round.

  Every layer has its own observations, in layer order. Where both engines produced a layer
  under one projection, each address has the observation its two values call for, in the
  order of the left trace and then of the right one's own steps; only where there is none
  may one of the order itself stand.

  Proved: `reduce_exact`. Swapped traces give the same observations with left and right
  exchanged; inside a changed step what is named first is found in the left value's order, so
  there left and right need not be exchanged unless the two values have the same keys.
-/

import OwnNet.Dict.Keyed
import OwnNet.Repro.Reduce

namespace OwnNet.Repro

/-! ## Values -/

theorem sameFloat_comm (a b : String) : sameFloat a b = sameFloat b a := by
  unfold sameFloat
  rw [Bool.eq_iff_iff]
  simp only [decide_eq_true_eq]
  constructor
  · rintro (⟨rfl, h⟩ | ⟨ha, hb⟩)
    · exact Or.inl ⟨rfl, h⟩
    · exact Or.inr ⟨hb, ha⟩
  · rintro (⟨rfl, h⟩ | ⟨ha, hb⟩)
    · exact Or.inl ⟨rfl, h⟩
    · exact Or.inr ⟨hb, ha⟩

theorem same_comm : ∀ a b, same a b = same b a := by
  apply Json.induct (P := fun a => ∀ b, same a b = same b a) (Q := fun as => ∀ bs, sameItems as bs = sameItems bs as)
    (R := fun as => ∀ bs, sameFields as bs = sameFields bs as)
  · exact fun b => by cases b <;> rfl
  · intro x b
    cases b with
    | bool y => simp only [same, eq_comm]
    | _ => rfl
  · intro x b
    cases b with
    | int y => simp only [same, eq_comm]
    | _ => rfl
  · intro x b
    cases b with
    | float y => exact sameFloat_comm x y
    | _ => rfl
  · intro x b
    cases b with
    | str y => simp only [same, eq_comm]
    | _ => rfl
  · intro items ih b
    cases b with
    | arr bs => exact ih bs
    | _ => rfl
  · intro fields ih b
    cases b with
    | obj bs => exact ih bs
    | _ => rfl
  · exact fun bs => by cases bs <;> rfl
  · intro j js hj hjs bs
    cases bs with
    | nil => rfl
    | cons b bs => simp only [sameItems, hj b, hjs bs]
  · exact fun bs => by cases bs <;> rfl
  · intro k j rest hj hrest bs
    cases bs with
    | nil => rfl
    | cons b bs => simp only [sameFields, hj b.2, hrest bs, eq_comm]

/-! ## Steps by address -/

section Steps

variable {steps : List Step}

theorem valueAt_some (hn : (steps.map Step.id).Nodup) {id : String} {v : Json} :
    valueAt steps id = some v ↔ ⟨id, v⟩ ∈ steps := by
  unfold valueAt
  constructor
  · intro h
    obtain ⟨s, hs, rfl⟩ := Option.map_eq_some_iff.mp h
    obtain ⟨hmem, rfl⟩ := Dict.of_find_key hs
    exact List.mem_reverse.mp hmem
  · intro h
    have hn' : (steps.reverse.map Step.id).Nodup := (steps.reverse_perm.map Step.id).nodup_iff.mpr hn
    exact congrArg (Option.map Step.value) (Dict.find_key_of_mem hn' (List.mem_reverse.mpr h))

theorem valueAt_none {id : String} : valueAt steps id = none ↔ id ∉ steps.map Step.id := by
  unfold valueAt
  rw [Option.map_eq_none_iff, Dict.find_key_none, List.map_reverse, List.mem_reverse]

/-- Of steps that give an observation each at their own address, those at one address. -/
theorem filter_step (hn : (steps.map Step.id).Nodup) {f : Step → Option Observation}
    (hf : ∀ s o, f s = some o → o.step = some s.id) (id : String) :
    (steps.filterMap f).filter (fun o => o.step = some id) =
      match valueAt steps id with
      | none => []
      | some v => (f ⟨id, v⟩).toList := by
  cases hv : valueAt steps id with
  | none =>
    refine List.filter_eq_nil_iff.mpr fun o ho hstep => ?_
    obtain ⟨s, hs, hso⟩ := List.mem_filterMap.mp ho
    have hid : s.id = id := by
      have := hf s o hso
      simp only [decide_eq_true_eq] at hstep
      exact Option.some.inj (this.symm.trans hstep)
    exact valueAt_none.mp hv (List.mem_map.mpr ⟨s, hs, hid⟩)
  | some v =>
    simp only
    have hmem := (valueAt_some hn).mp hv
    obtain ⟨before, after, rfl⟩ := List.append_of_mem hmem
    have hout : ∀ l : List Step, (∀ s ∈ l, s.id ≠ id) → (l.filterMap f).filter (fun o => o.step = some id) = [] := by
      intro l hl
      refine List.filter_eq_nil_iff.mpr fun o ho hstep => ?_
      obtain ⟨s, hs, hso⟩ := List.mem_filterMap.mp ho
      simp only [decide_eq_true_eq] at hstep
      exact hl s hs (Option.some.inj ((hf s o hso).symm.trans hstep))
    rw [List.map_append, List.map_cons, List.nodup_append] at hn
    obtain ⟨-, hafter, hdisj⟩ := hn
    rw [List.filterMap_append, List.filter_append, hout before, List.nil_append, List.filterMap_cons]
    · have hrest := hout after fun s hs hid => (List.nodup_cons.mp hafter).1 (List.mem_map.mpr ⟨s, hs, hid⟩)
      cases ho : f ⟨id, v⟩ with
      | none => exact hrest
      | some o =>
        rw [List.filter_cons_of_pos (by simpa using hf _ o ho), hrest]
        rfl
    · intro s hs hid
      exact hdisj s.id (List.mem_map.mpr ⟨s, hs, rfl⟩) id List.mem_cons_self hid

end Steps

/-! ## One layer -/

/-- What the two values at an address call for. -/
def stepDifference (name id : String) : Option Json → Option Json → List Observation
  | some a, none => [leftOnly name id a]
  | some a, some b => if same a b then [] else [changed name id a b]
  | none, some b => [rightOnly name id b]
  | none, none => []

/-- The values of a layer at its addresses, each address once. -/
def Layer.Distinct (l : Layer) : Prop := l.ids.Nodup

section Content

variable {name : String} {left right : Layer}

theorem leftObservation_step {steps : List Step} (s : Step) (o : Observation) (h : leftObservation name steps s = some o) :
    o.layer = name ∧ o.step = some s.id := by
  unfold leftObservation at h
  split at h
  · cases h
    exact ⟨rfl, rfl⟩
  · split at h
    · cases h
    · cases h
      exact ⟨rfl, rfl⟩

theorem rightObservation_step {steps : List Step} (s : Step) (o : Observation) (h : rightObservation name steps s = some o) :
    o.layer = name ∧ o.step = some s.id := by
  unfold rightObservation at h
  split at h
  · cases h
    exact ⟨rfl, rfl⟩
  · cases h

/-- Each address has the observation its two values call for, once. -/
theorem content_step (hl : left.Distinct) (hr : right.Distinct) (id : String) :
    (contentOf name left right).filter (fun o => o.step = some id) =
      stepDifference name id (valueAt left.steps id) (valueAt right.steps id) := by
  unfold contentOf
  rw [List.filter_append, filter_step hl (fun s o h => (leftObservation_step s o h).2),
    filter_step hr (fun s o h => (rightObservation_step s o h).2)]
  unfold leftObservation rightObservation stepDifference
  cases hlv : valueAt left.steps id with
  | none =>
    cases hrv : valueAt right.steps id with
    | none => rfl
    | some b => simp [hlv]
  | some a =>
    cases hrv : valueAt right.steps id with
    | none => simp [hrv]
    | some b =>
      simp only [hlv, hrv]
      split <;> simp

theorem mem_content_step {o : Observation} (ho : o ∈ contentOf name left right) : o.layer = name ∧ ∃ id, o.step = some id := by
  unfold contentOf at ho
  rcases List.mem_append.mp ho with ho | ho
  · obtain ⟨s, -, hs⟩ := List.mem_filterMap.mp ho
    exact ⟨(leftObservation_step s o hs).1, s.id, (leftObservation_step s o hs).2⟩
  · obtain ⟨s, -, hs⟩ := List.mem_filterMap.mp ho
    exact ⟨(rightObservation_step s o hs).1, s.id, (rightObservation_step s o hs).2⟩

theorem content_nil_iff (hl : left.Distinct) (hr : right.Distinct) : contentOf name left right = [] ↔
    ∀ id, stepDifference name id (valueAt left.steps id) (valueAt right.steps id) = [] := by
  constructor
  · intro h id
    rw [← content_step hl hr, h]
    rfl
  · intro h
    refine List.eq_nil_iff_forall_not_mem.mpr fun o ho => ?_
    obtain ⟨-, id, hid⟩ := mem_content_step ho
    have hmem : o ∈ (contentOf name left right).filter (fun o => o.step = some id) :=
      List.mem_filter.mpr ⟨ho, by simpa using hid⟩
    rw [content_step hl hr, h id] at hmem
    cases hmem

/-- Whether a step of the left layer is absent from the right one, or has another value there. -/
def differs (right : List Step) (s : Step) : Bool :=
  match valueAt right s.id with
  | none => true
  | some v => !same s.value v

theorem leftObservation_isSome (right : List Step) (s : Step) :
    (leftObservation name right s).isSome = differs right s := by
  unfold leftObservation differs
  cases valueAt right s.id with
  | none => rfl
  | some v => cases hs : same s.value v <;> simp [hs]

theorem rightObservation_isSome (left : List Step) (s : Step) :
    (rightObservation name left s).isSome = decide (s.id ∉ left.map Step.id) := by
  unfold rightObservation
  cases hv : valueAt left s.id with
  | none => exact (decide_eq_true (valueAt_none.mp hv)).symm
  | some v =>
    refine (decide_eq_false fun hout => ?_).symm
    rw [valueAt_none.mpr hout] at hv
    cases hv

/-- The addresses of the steps that give an observation, in order. -/
theorem filterMap_step {f : Step → Option Observation} {p : Step → Bool} (hf : ∀ s o, f s = some o → o.step = some s.id)
    (hp : ∀ s, (f s).isSome = p s) (l : List Step) :
    (l.filterMap f).filterMap Observation.step = (l.filter p).map Step.id := by
  induction l with
  | nil => rfl
  | cons s rest ih =>
    have hs := hp s
    rw [List.filterMap_cons]
    cases ho : f s with
    | none =>
      rw [ho] at hs
      rw [List.filter_cons_of_neg (by rw [← hs]; exact Bool.false_ne_true)]
      exact ih
    | some o =>
      rw [ho] at hs
      rw [List.filter_cons_of_pos hs.symm, List.filterMap_cons, hf s o ho, ih]
      rfl

/-- The addresses observed: those of the left layer in its order, then the right one's own. -/
theorem content_order : (contentOf name left right).filterMap Observation.step =
    (left.steps.filter (differs right.steps)).map Step.id ++ right.ids.filter (fun id => id ∉ left.ids) := by
  unfold contentOf
  rw [List.filterMap_append, filterMap_step (fun s o h => (leftObservation_step s o h).2) (leftObservation_isSome right.steps),
    filterMap_step (fun s o h => (rightObservation_step s o h).2) (rightObservation_isSome left.steps)]
  unfold Layer.ids
  rw [List.filter_map]
  rfl

/-- The same steps in the same order, each with the same value. -/
def SameSteps (left right : List Step) : Prop := List.Forall₂ (fun s t => s.id = t.id ∧ same s.value t.value = true) left right

omit name left right in
theorem SameSteps.ids {a b : List Step} (h : SameSteps a b) : a.map Step.id = b.map Step.id := by
  unfold SameSteps at h
  induction h with
  | nil => rfl
  | cons hst _ ih => rw [List.map_cons, List.map_cons, hst.1, ih]

theorem SameSteps.mem {a b : List Step} (h : SameSteps a b) {s : Step} (hs : s ∈ a) :
    ∃ t ∈ b, s.id = t.id ∧ same s.value t.value = true := by
  unfold SameSteps at h
  induction h with
  | nil => cases hs
  | @cons s' t _ _ hst _ ih =>
    rcases List.mem_cons.mp hs with rfl | hs
    · exact ⟨t, List.mem_cons_self, hst⟩
    · obtain ⟨u, hu, hprop⟩ := ih hs
      exact ⟨u, List.mem_cons_of_mem _ hu, hprop⟩

theorem eq_of_mem_zip_self {l : List String} {p : String × String} (h : p ∈ l.zip l) : p.1 = p.2 := by
  induction l with
  | nil => cases h
  | cons a rest ih =>
    rcases List.mem_cons.mp h with rfl | h
    · rfl
    · exact ih h

theorem sameSteps_iff (hl : left.Distinct) (hr : right.Distinct) :
    contentOf name left right = [] ∧ left.ids = right.ids ↔ SameSteps left.steps right.steps := by
  rw [content_nil_iff hl hr]
  constructor
  · rintro ⟨hcontent, hids⟩
    refine List.forall₂_iff_zip.mpr ⟨?_, fun {s t} hst => ?_⟩
    · have := congrArg List.length hids
      simpa [Layer.ids] using this
    · have hid : s.id = t.id := by
        have hzip : (s.id, t.id) ∈ left.ids.zip right.ids := by
          unfold Layer.ids
          rw [List.zip_map]
          exact List.mem_map.mpr ⟨(s, t), hst, rfl⟩
        rw [hids] at hzip
        exact eq_of_mem_zip_self hzip
      have hs : valueAt left.steps s.id = some s.value := (valueAt_some hl).mpr (List.of_mem_zip hst).1
      have ht : valueAt right.steps s.id = some t.value := by
        rw [hid]
        exact (valueAt_some hr).mpr (List.of_mem_zip hst).2
      have hnone := hcontent s.id
      rw [hs, ht] at hnone
      refine ⟨hid, ?_⟩
      by_contra hdiff
      simp [stepDifference, hdiff] at hnone
  · intro h
    refine ⟨fun id => ?_, h.ids⟩
    cases hlv : valueAt left.steps id with
    | none =>
      have hrv : valueAt right.steps id = none := by
        rw [valueAt_none] at hlv ⊢
        exact h.ids ▸ hlv
      rw [hrv]
      rfl
    | some a =>
      obtain ⟨t, ht, hid, hsame⟩ := h.mem ((valueAt_some hl).mp hlv)
      have hrv : valueAt right.steps id = some t.value := (valueAt_some hr).mpr (by rw [show id = t.id from hid]; exact ht)
      rw [hrv]
      exact if_pos hsame

theorem reduceLayer_nil_iff (hl : left.Distinct) (hr : right.Distinct) : reduceLayer name left right = [] ↔
    left.status = right.status ∧
      (left.status = .produced → left.projection = right.projection ∧ SameSteps left.steps right.steps) := by
  unfold reduceLayer
  split
  next hs => exact ⟨fun h => (by cases h), fun h => absurd h.1 hs⟩
  next hs =>
    rw [not_not] at hs
    split
    next href => exact ⟨fun _ => ⟨hs, fun hp => by rw [hp] at href; cases href⟩, fun _ => rfl⟩
    next href =>
      have hprod : left.status = .produced := by
        cases hst : left.status with
        | produced => rfl
        | refused => exact absurd hst href
      split
      next hp => exact ⟨fun h => (by cases h), fun h => absurd (h.2 hprod).1 hp⟩
      next hp =>
        rw [not_not] at hp
        rw [← @sameSteps_iff name left right hl hr]
        split
        next hempty =>
          have hc := List.isEmpty_iff.mp hempty
          split
          next hids => exact ⟨fun h => (by cases h), fun h => absurd (h.2 hprod).2.2 hids⟩
          next hids =>
            rw [not_not] at hids
            exact ⟨fun _ => ⟨hs, fun _ => ⟨hp, hc, hids⟩⟩, fun _ => rfl⟩
        next hempty =>
          have hc : contentOf name left right ≠ [] := fun h => hempty (List.isEmpty_iff.mpr h)
          exact ⟨fun h => absurd h hc, fun h => absurd (h.2 hprod).2.1 hc⟩

theorem reduceLayer_layer : ∀ o ∈ reduceLayer name left right, o.layer = name := by
  intro o ho
  unfold reduceLayer at ho
  split at ho
  next => rw [List.mem_singleton.mp ho]; rfl
  next =>
    split at ho
    next => cases ho
    next =>
      split at ho
      next => rw [List.mem_singleton.mp ho]; rfl
      next =>
        split at ho
        next =>
          split at ho
          · rw [List.mem_singleton.mp ho]; rfl
          · cases ho
        next => exact (mem_content_step ho).1

end Content

/-! ## All layers -/

/-- Every layer's addresses once. -/
def Trace.Distinct (t : Trace) : Prop := ∀ l ∈ t.layers, l.Distinct

/-- A layer both engines produced, under one projection. -/
structure Comparable (left right : Trace) (name : String) (a b : Layer) : Prop where
  inOrder : name ∈ layerOrder
  left_layer : layerOf left name = some a
  right_layer : layerOf right name = some b
  left_produced : a.status = .produced
  right_produced : b.status = .produced
  projection : a.projection = b.projection

/-- Every layer is there on both sides, and the same. -/
def Agree (left right : Trace) : Prop :=
  ∀ name ∈ layerOrder, ∃ a b, layerOf left name = some a ∧ layerOf right name = some b ∧ a.status = b.status ∧
    (a.status = .produced → a.projection = b.projection ∧ SameSteps a.steps b.steps)

section Whole

variable {left right : Trace}

theorem layerOf_mem {t : Trace} {name : String} {l : Layer} (h : layerOf t name = some l) : l ∈ t.layers :=
  List.mem_of_find?_eq_some h

theorem walkLayer_layer (name : String) : ∀ o ∈ walkLayer left right name, o.layer = name := by
  intro o ho
  unfold walkLayer at ho
  split at ho
  · exact reduceLayer_layer o ho
  · rw [List.mem_singleton.mp ho]
    rfl

/-- The observations of one layer are those made in it. -/
theorem filter_layer {name : String} (hn : name ∈ layerOrder) :
    (observations left right).filter (fun o => o.layer = name) = walkLayer left right name := by
  have hone : ∀ m, (walkLayer left right m).filter
      (fun o => o.layer = name) = if m = name then walkLayer left right m else [] := by
    intro m
    split
    next h => exact List.filter_eq_self.mpr fun o ho => by simpa [h] using walkLayer_layer m o ho
    next h => exact List.filter_eq_nil_iff.mpr fun o ho hl => h ((walkLayer_layer m o ho).symm.trans (by simpa using hl))
  have hall : ∀ names : List String, names.Nodup → name ∈ names →
      (names.flatMap (walkLayer left right)).filter (fun o => o.layer = name) = walkLayer left right name := by
    intro names hnodup hmem
    induction names with
    | nil => cases hmem
    | cons m rest ih =>
      obtain ⟨hm, hrest⟩ := List.nodup_cons.mp hnodup
      rw [List.flatMap_cons, List.filter_append, hone m]
      by_cases he : m = name
      · have hnil : (rest.flatMap (walkLayer left right)).filter (fun o => o.layer = name) = [] := by
          refine List.filter_eq_nil_iff.mpr fun o ho hl => ?_
          obtain ⟨k, hk, hok⟩ := List.mem_flatMap.mp ho
          have hkn : k = name := (walkLayer_layer k o hok).symm.trans (by simpa using hl)
          exact hm (he.trans hkn.symm ▸ hk)
        rw [if_pos he, hnil, List.append_nil, he]
      · rw [if_neg he, List.nil_append]
        exact ih hrest ((List.mem_cons.mp hmem).resolve_left fun h => he h.symm)
  exact hall layerOrder (by decide) hn

theorem observations_nil_iff (hl : left.Distinct) (hr : right.Distinct) : observations left right = [] ↔ Agree left right := by
  unfold observations Agree
  rw [List.flatMap_eq_nil_iff]
  refine forall₂_congr fun name _ => ?_
  unfold walkLayer
  cases ha : layerOf left name with
  | none => exact ⟨fun h => (by cases h), fun ⟨a, b, h, _⟩ => by cases h⟩
  | some a =>
    cases hb : layerOf right name with
    | none => exact ⟨fun h => (by cases h), fun ⟨a', b', _, h, _⟩ => by cases h⟩
    | some b =>
      simp only
      rw [reduceLayer_nil_iff (hl a (layerOf_mem ha)) (hr b (layerOf_mem hb))]
      constructor
      · exact fun h => ⟨a, b, rfl, rfl, h⟩
      · rintro ⟨a', b', ha', hb', h⟩
        cases ha'
        cases hb'
        exact h

/-- Where a layer is comparable, what it comes to. -/
theorem Comparable.walk {name : String} {a b : Layer} (h : Comparable left right name a b) :
    walkLayer left right name =
      if (contentOf name a b).isEmpty then if a.ids ≠ b.ids then [orderingOnly name a b] else [] else contentOf name a b := by
  unfold walkLayer
  rw [h.left_layer, h.right_layer]
  simp only
  unfold reduceLayer
  rw [if_neg (not_not.mpr (h.left_produced.trans h.right_produced.symm)), if_neg (by rw [h.left_produced]; decide),
    if_neg (not_not.mpr h.projection)]

theorem Comparable.step {name : String} {a b : Layer} (h : Comparable left right name a b) (ha : a.Distinct) (hb : b.Distinct)
    (id : String) : (walkLayer left right name).filter (fun o => o.step = some id) =
      stepDifference name id (valueAt a.steps id) (valueAt b.steps id) := by
  rw [h.walk]
  split
  next hempty =>
    have hnil := List.isEmpty_iff.mp hempty
    rw [← content_step ha hb, hnil]
    split
    · rfl
    · rfl
  next => exact content_step ha hb id

theorem Comparable.others {name : String} {a b : Layer} (h : Comparable left right name a b) :
    (walkLayer left right name).filter (fun o => o.step = none) =
      if contentOf name a b = [] ∧ a.ids ≠ b.ids then [orderingOnly name a b] else [] := by
  rw [h.walk]
  split
  next hempty =>
    have hnil := List.isEmpty_iff.mp hempty
    split
    next hids => rw [if_pos ⟨hnil, hids⟩]; rfl
    next hids => rw [if_neg fun hno => hids hno.2]; rfl
  next hempty =>
    have hne : contentOf name a b ≠ [] := fun hno => hempty (List.isEmpty_iff.mpr hno)
    rw [if_neg fun hno => hne hno.1]
    refine List.filter_eq_nil_iff.mpr fun o ho hnone => ?_
    obtain ⟨-, id, hid⟩ := mem_content_step ho
    simp only [decide_eq_true_eq] at hnone
    rw [hid] at hnone
    cases hnone

theorem Comparable.order {name : String} {a b : Layer} (h : Comparable left right name a b) :
    (walkLayer left right name).filterMap Observation.step =
      (a.steps.filter (differs b.steps)).map Step.id ++ b.ids.filter (fun id => id ∉ a.ids) := by
  rw [h.walk]
  split
  next hempty =>
    rw [← @content_order name a b, List.isEmpty_iff.mp hempty]
    split
    · rfl
    · rfl
  next => exact content_order

end Whole

/-! ## The other way round -/

mutual

/-- Whether the walk to the first difference meets no two objects of different keys. -/
def aligned : Json → Json → Bool
  | .obj a, .obj b => decide (a.map Prod.fst = b.map Prod.fst ∧ (a.map Prod.fst).Nodup) && alignedFields a b
  | .arr a, .arr b => alignedItems a b
  | _, _ => true

def alignedFields : List (String × Json) → List (String × Json) → Bool
  | (_, a) :: as, (_, b) :: bs => if same a b then alignedFields as bs else aligned a b
  | _, _ => true

def alignedItems : List Json → List Json → Bool
  | a :: as, b :: bs => if same a b then alignedItems as bs else aligned a b
  | _, _ => true

end

/-- A path and the two values there, the other way round. -/
def swapped (d : String × Json × Json) : String × Json × Json := (d.1, d.2.2, d.2.1)

theorem member_append {before rest : List (String × Json)} {key : String} {j : Json} (h : key ∉ before.map Prod.fst) :
    member (before ++ (key, j) :: rest) key = some j := by
  unfold member
  rw [List.find?_append, Dict.find_key_none.mpr h, Option.none_or, List.find?_cons_of_pos (by simp)]
  rfl

/-- Two objects with the same keys: the walk of one object's rest reads the other's rest. -/
theorem fieldDifference_swap {as bs : List (String × Json)} (hkeys : as.map Prod.fst = bs.map Prod.fst)
    {beforeA beforeB : List (String × Json)}
    (hbefore : beforeA.map Prod.fst = beforeB.map Prod.fst) (hn : ((beforeA ++ as).map Prod.fst).Nodup) (path : String)
    (ih : ∀ p ∈ as, ∀ b path, aligned p.2 b = true → minimalDifference b p.2 path = swapped (minimalDifference p.2 b path))
    (hal : alignedFields as bs = true) :
    fieldDifference bs (beforeA ++ as) path = (fieldDifference as (beforeB ++ bs) path).map swapped := by
  induction as generalizing bs beforeA beforeB with
  | nil =>
    cases bs with
    | nil => rfl
    | cons b bs => cases hkeys
  | cons a as ihas =>
    cases bs with
    | nil => cases hkeys
    | cons b bs =>
      obtain ⟨k, x⟩ := a
      obtain ⟨k', y⟩ := b
      rw [List.map_cons, List.map_cons, List.cons.injEq] at hkeys
      obtain ⟨hk, hkeys⟩ := hkeys
      cases hk
      have hn' := hn
      rw [List.map_append, List.nodup_append] at hn'
      obtain ⟨-, -, hdisj⟩ := hn'
      have hka : k ∉ beforeA.map Prod.fst := fun hin => hdisj k hin k List.mem_cons_self rfl
      have hkb : k ∉ beforeB.map Prod.fst := hbefore ▸ hka
      rw [fieldDifference, fieldDifference, member_append hka, member_append hkb]
      simp only
      rw [same_comm y x]
      unfold alignedFields at hal
      split
      next hs =>
        rw [if_pos hs] at hal
        have happ : ∀ (l : List (String × Json)) e r, l ++ e :: r = (l ++ [e]) ++ r := fun l e r => by
          rw [List.append_assoc, List.singleton_append]
        rw [happ beforeA, happ beforeB]
        refine ihas hkeys ?_ ?_ (fun p hp => ih p (List.mem_cons_of_mem _ hp)) hal
        · rw [List.map_append, List.map_append, hbefore]
          rfl
        · rw [← happ]
          exact hn
      next hs =>
        rw [if_neg hs] at hal
        rw [Option.map_some, ih (k, x) List.mem_cons_self y _ hal]

theorem itemDifference_swap {as bs : List Json} (i : Nat) (path : String)
    (ih : ∀ p ∈ as, ∀ b path, aligned p b = true → minimalDifference b p path = swapped (minimalDifference p b path))
    (hal : alignedItems as bs = true) : itemDifference bs as i path = (itemDifference as bs i path).map swapped := by
  induction as generalizing bs i with
  | nil => cases bs <;> rfl
  | cons a as ihas =>
    cases bs with
    | nil => rfl
    | cons b bs =>
      rw [itemDifference, itemDifference, same_comm b a]
      unfold alignedItems at hal
      split
      next hs =>
        rw [if_pos hs] at hal
        exact ihas (i + 1) (fun p hp => ih p (List.mem_cons_of_mem _ hp)) hal
      next hs =>
        rw [if_neg hs] at hal
        rw [Option.map_some, ih a List.mem_cons_self b _ hal]

theorem member_isSome {fields : List (String × Json)} {key : String} (h : key ∈ fields.map Prod.fst) :
    (member fields key).isNone = false := by
  obtain ⟨f, hf⟩ := Dict.exists_find_key h
  unfold member
  rw [hf]
  rfl

/-- Where the walk meets the same keys on both sides, it ends in the same place the other way round. -/
theorem minimalDifference_swap : ∀ a b path, aligned a b = true →
    minimalDifference b a path = swapped (minimalDifference a b path) := by
  apply Json.induct
    (P := fun a => ∀ b path, aligned a b = true → minimalDifference b a path = swapped (minimalDifference a b path))
    (Q := fun as => ∀ p ∈ as, ∀ b path, aligned p b = true → minimalDifference b p path = swapped (minimalDifference p b path))
    (R := fun as => ∀ p ∈ as, ∀ b path, aligned p.2 b = true →
      minimalDifference b p.2 path = swapped (minimalDifference p.2 b path))
  · exact fun b path _ => by cases b <;> rfl
  · exact fun x b path _ => by cases b <;> rfl
  · exact fun x b path _ => by cases b <;> rfl
  · exact fun x b path _ => by cases b <;> rfl
  · exact fun x b path _ => by cases b <;> rfl
  · intro as ih b path hal
    cases b with
    | arr bs =>
      rw [minimalDifference, minimalDifference, itemDifference_swap 0 path ih hal]
      cases itemDifference as bs 0 path with
      | some d => rfl
      | none =>
        simp only [Option.map_none]
        by_cases hlen : as.length = bs.length
        · rw [if_neg (not_not.mpr hlen), if_neg (not_not.mpr hlen.symm)]
          rfl
        · rw [if_pos hlen, if_pos (Ne.symm hlen)]
          rfl
    | _ => rfl
  · intro as ih b path hal
    cases b with
    | obj bs =>
      rw [aligned, Bool.and_eq_true, decide_eq_true_eq] at hal
      obtain ⟨⟨hkeys, hn⟩, hal⟩ := hal
      have hfields := fieldDifference_swap hkeys
        (rfl : ([] : List (String × Json)).map Prod.fst = ([] : List (String × Json)).map Prod.fst) hn path ih hal
      rw [List.nil_append, List.nil_append] at hfields
      rw [minimalDifference, minimalDifference, hfields]
      cases fieldDifference as bs path with
      | some d => rfl
      | none =>
        have hb : (bs.find? fun f => (member as f.1).isNone) = none := List.find?_eq_none.mpr fun f hf => by
          rw [member_isSome (hkeys ▸ List.mem_map.mpr ⟨f, hf, rfl⟩)]
          exact Bool.false_ne_true
        have ha : (as.find? fun f => (member bs f.1).isNone) = none := List.find?_eq_none.mpr fun f hf => by
          rw [member_isSome (hkeys ▸ List.mem_map.mpr ⟨f, hf, rfl⟩)]
          exact Bool.false_ne_true
        simp only [Option.map_none, ha, hb]
        rw [if_neg (not_not.mpr hkeys), if_neg (not_not.mpr hkeys.symm)]
        rfl
    | _ => rfl
  · exact fun p hp => absurd hp List.not_mem_nil
  · intro j js hj hjs p hp
    rcases List.mem_cons.mp hp with rfl | hp
    · exact hj
    · exact hjs p hp
  · exact fun p hp => absurd hp List.not_mem_nil
  · intro k j rest hj hrest p hp
    rcases List.mem_cons.mp hp with rfl | hp
    · exact hj
    · exact hrest p hp

/-- A kind of observation with left and right exchanged. -/
def Kind.flip : Kind → Kind
  | .leftOnly => .rightOnly
  | .rightOnly => .leftOnly
  | k => k

/-- What an observation is about and how it is judged. -/
def Observation.key (o : Observation) : String × Kind × Acceptance × Option String := (o.layer, o.kind, o.acceptance, o.step)

def flipKey (k : String × Kind × Acceptance × Option String) : String × Kind × Acceptance × Option String :=
  (k.1, k.2.1.flip, k.2.2)

/-- The value a trace has where an observation was made. -/
def valueIn (t : Trace) (o : Observation) : Option Json := (layerOf t o.layer).bind fun l => o.step.bind (valueAt l.steps)

/-- Whether the two values a changed step has lead to the same place from both sides. -/
def AlignedAt (left right : Trace) (o : Observation) : Prop :=
  ∀ a b, valueIn left o = some a → valueIn right o = some b → aligned a b = true

/-- The observation of the swapped traces that answers to one. -/
structure Answers (left right : Trace) (o o' : Observation) : Prop where
  key : o'.key = flipKey o.key
  exchanged : o.kind ≠ .changed ∨ AlignedAt left right o → o'.left = o.right ∧ o'.right = o.left

theorem changed_swap {name id : String} {a b : Json} (hal : aligned a b = true) :
    (changed name id b a).left = (changed name id a b).right ∧ (changed name id b a).right = (changed name id a b).left := by
  unfold changed observation
  rw [minimalDifference_swap a b "" hal]
  exact ⟨rfl, rfl⟩

theorem stepDifference_swap {name id : String} {va vb : Option Json} {o : Observation} (ho : o ∈ stepDifference name id va vb) :
    ∃ o' ∈ stepDifference name id vb va, o'.key = flipKey o.key ∧
      (o.kind ≠ .changed ∨ (∀ a b, va = some a → vb = some b → aligned a b = true) → o'.left = o.right ∧ o'.right = o.left) := by
  cases va with
  | none =>
    cases vb with
    | none => cases ho
    | some b =>
      rw [List.mem_singleton.mp ho]
      exact ⟨leftOnly name id b, List.mem_singleton_self _, rfl, fun _ => ⟨rfl, rfl⟩⟩
  | some a =>
    cases vb with
    | none =>
      rw [List.mem_singleton.mp ho]
      exact ⟨rightOnly name id a, List.mem_singleton_self _, rfl, fun _ => ⟨rfl, rfl⟩⟩
    | some b =>
      simp only [stepDifference, same_comm b a] at ho ⊢
      split at ho
      next => cases ho
      next hs =>
        rw [List.mem_singleton.mp ho, if_neg hs]
        refine ⟨changed name id b a, List.mem_singleton_self _, rfl, fun h => changed_swap ?_⟩
        exact (h.resolve_left fun hno => hno rfl) a b rfl rfl

section Swap

variable {left right : Trace}

theorem content_swap {name : String} {a b : Layer} (hla : layerOf left name = some a) (hrb : layerOf right name = some b)
    (ha : a.Distinct) (hb : b.Distinct) {o : Observation} (ho : o ∈ contentOf name a b) :
    ∃ o' ∈ contentOf name b a, Answers left right o o' := by
  obtain ⟨hlayer, id, hid⟩ := mem_content_step ho
  have hmem : o ∈ (contentOf name a b).filter (fun o => o.step = some id) := List.mem_filter.mpr ⟨ho, by simpa using hid⟩
  rw [content_step ha hb] at hmem
  obtain ⟨o', ho', hkey, hex⟩ := stepDifference_swap hmem
  rw [← content_step hb ha] at ho'
  refine ⟨o', (List.mem_filter.mp ho').1, hkey, fun h => hex (h.imp_right fun hal v w hv hw => hal v w ?_ ?_)⟩
  · unfold valueIn
    rw [hlayer, hid, hla]
    exact hv
  · unfold valueIn
    rw [hlayer, hid, hrb]
    exact hw

theorem content_nil_comm {name : String} {a b : Layer} (ha : a.Distinct) (hb : b.Distinct) (h : contentOf name a b = []) :
    contentOf name b a = [] := by
  refine (content_nil_iff hb ha).mpr fun id => List.eq_nil_iff_forall_not_mem.mpr fun o ho => ?_
  obtain ⟨o', ho', -⟩ := stepDifference_swap ho
  rw [(content_nil_iff ha hb).mp h id] at ho'
  cases ho'

theorem statusDiffers_swap {name : String} {a b : Layer} (h : a.status ≠ b.status) :
    (statusDiffers name b a).key = flipKey (statusDiffers name a b).key := by
  have hor : (boundaryOf b).or (boundaryOf a) = (boundaryOf a).or (boundaryOf b) := by
    have hnone : ∀ l : Layer, l.status = .produced → boundaryOf l = none := fun l hl => if_neg (by rw [hl]; decide)
    cases ha : a.status with
    | produced => rw [hnone a ha, Option.none_or, Option.or_none]
    | refused =>
      cases hb : b.status with
      | produced => rw [hnone b hb, Option.none_or, Option.or_none]
      | refused => exact absurd (ha.trans hb.symm) h
  unfold statusDiffers
  rw [hor]
  rfl

/-- What a layer says has its answer in what it says the other way round. -/
theorem reduceLayer_swap {name : String} {a b : Layer} (hla : layerOf left name = some a) (hrb : layerOf right name = some b)
    (ha : a.Distinct) (hb : b.Distinct) {o : Observation} (ho : o ∈ reduceLayer name a b) :
    ∃ o' ∈ reduceLayer name b a, Answers left right o o' := by
  unfold reduceLayer at ho
  split at ho
  next hs =>
    rw [List.mem_singleton.mp ho]
    refine ⟨statusDiffers name b a, ?_, statusDiffers_swap hs, fun _ => ⟨rfl, rfl⟩⟩
    unfold reduceLayer
    rw [if_pos (Ne.symm hs)]
    exact List.mem_singleton_self _
  next hs =>
    rw [not_not] at hs
    split at ho
    next => cases ho
    next href =>
      have hback : reduceLayer name b a =
          if b.projection ≠ a.projection then [projectionDiffers name b a]
          else if (contentOf name b a).isEmpty then if b.ids ≠ a.ids then [orderingOnly name b a] else []
          else contentOf name b a := by
        unfold reduceLayer
        rw [if_neg (not_not.mpr hs.symm), if_neg (hs ▸ href)]
      rw [hback]
      split at ho
      next hp =>
        rw [List.mem_singleton.mp ho, if_pos (Ne.symm hp)]
        exact ⟨projectionDiffers name b a, List.mem_singleton_self _, rfl, fun _ => ⟨rfl, rfl⟩⟩
      next hp =>
        rw [not_not] at hp
        rw [if_neg (not_not.mpr hp.symm)]
        split at ho
        next hempty =>
          rw [content_nil_comm ha hb (List.isEmpty_iff.mp hempty)]
          split at ho
          next hids =>
            rw [List.mem_singleton.mp ho, if_pos List.isEmpty_nil, if_pos (Ne.symm hids)]
            exact ⟨orderingOnly name b a, List.mem_singleton_self _, rfl, fun _ => ⟨rfl, rfl⟩⟩
          next => cases ho
        next hempty =>
          obtain ⟨o', ho', hans⟩ := content_swap hla hrb ha hb ho
          rw [if_neg fun h => hempty ?_]
          · exact ⟨o', ho', hans⟩
          · rw [content_nil_comm hb ha (List.isEmpty_iff.mp h)]
            rfl

theorem observations_swap (hl : left.Distinct) (hr : right.Distinct) {o : Observation} (ho : o ∈ observations left right) :
    ∃ o' ∈ observations right left, Answers left right o o' := by
  obtain ⟨name, hname, ho⟩ := List.mem_flatMap.mp ho
  suffices h : ∃ o' ∈ walkLayer right left name, Answers left right o o' by
    obtain ⟨o', ho', hans⟩ := h
    exact ⟨o', List.mem_flatMap.mpr ⟨name, hname, ho'⟩, hans⟩
  unfold walkLayer at ho ⊢
  cases ha : layerOf left name with
  | none =>
    rw [ha] at ho
    cases hb : layerOf right name with
    | none =>
      rw [hb] at ho
      rw [List.mem_singleton.mp ho]
      exact ⟨_, List.mem_singleton_self _, rfl, fun _ => ⟨rfl, rfl⟩⟩
    | some b =>
      rw [hb] at ho
      rw [List.mem_singleton.mp ho]
      exact ⟨_, List.mem_singleton_self _, rfl, fun _ => ⟨rfl, rfl⟩⟩
  | some a =>
    rw [ha] at ho
    cases hb : layerOf right name with
    | none =>
      rw [hb] at ho
      rw [List.mem_singleton.mp ho]
      exact ⟨_, List.mem_singleton_self _, rfl, fun _ => ⟨rfl, rfl⟩⟩
    | some b =>
      rw [hb] at ho
      exact reduceLayer_swap ha hb (hl a (layerOf_mem ha)) (hr b (layerOf_mem hb)) ho

theorem flip_flip (k : String × Kind × Acceptance × Option String) : flipKey (flipKey k) = k := by
  obtain ⟨layer, kind, rest⟩ := k
  cases kind <;> rfl

theorem keys_swap (hl : left.Distinct) (hr : right.Distinct) (k : String × Kind × Acceptance × Option String) :
    k ∈ (observations right left).map Observation.key ↔ flipKey k ∈ (observations left right).map Observation.key := by
  constructor
  · intro h
    obtain ⟨o, ho, rfl⟩ := List.mem_map.mp h
    obtain ⟨o', ho', hans⟩ := observations_swap hr hl ho
    exact List.mem_map.mpr ⟨o', ho', hans.key⟩
  · intro h
    obtain ⟨o, ho, hkey⟩ := List.mem_map.mp h
    obtain ⟨o', ho', hans⟩ := observations_swap hl hr ho
    exact List.mem_map.mpr ⟨o', ho', by rw [hans.key, hkey, flip_flip]⟩

/-- The outcome is read off the keys alone. -/
theorem outcome_swap (hl : left.Distinct) (hr : right.Distinct) :
    outcomeOf (observations right left) = outcomeOf (observations left right) := by
  have hempty : ∀ {a b : Trace}, a.Distinct → b.Distinct → observations a b = [] → observations b a = [] := by
    intro a b ha hb h
    refine List.eq_nil_iff_forall_not_mem.mpr fun o ho => ?_
    obtain ⟨o', ho', -⟩ := observations_swap hb ha ho
    rw [h] at ho'
    cases ho'
  have hopen : ∀ {a b : Trace}, a.Distinct → b.Distinct → (observations a b).any (fun o => o.acceptance = .unexplained) = true →
      (observations b a).any (fun o => o.acceptance = .unexplained) = true := by
    intro a b ha hb h
    obtain ⟨o, ho, hacc⟩ := List.any_eq_true.mp h
    obtain ⟨o', ho', hans⟩ := observations_swap ha hb ho
    have : o'.acceptance = o.acceptance := congrArg (fun k => k.2.2.1) hans.key
    exact List.any_eq_true.mpr ⟨o', ho', by rw [this]; exact hacc⟩
  have hnil : (observations right left).isEmpty = (observations left right).isEmpty := by
    rw [Bool.eq_iff_iff, List.isEmpty_iff, List.isEmpty_iff]
    exact ⟨hempty hr hl, hempty hl hr⟩
  have hany : (observations right left).any (fun o => o.acceptance = .unexplained) =
      (observations left right).any (fun o => o.acceptance = .unexplained) := by
    rw [Bool.eq_iff_iff]
    exact ⟨hopen hr hl, hopen hl hr⟩
  unfold outcomeOf
  rw [hnil, hany]

end Swap

/-! ## What a reduction says -/

/-- A reduction says every difference of two traces, each once, in its place. -/
structure Exact (left right : Trace) (R : Reduction) : Prop where
  identical_iff : R.outcome = .identical ↔ Agree left right
  steps : ∀ name a b, Comparable left right name a b → ∀ id,
    R.observations.filter (fun o => o.layer = name ∧ o.step = some id) =
      stepDifference name id (valueAt a.steps id) (valueAt b.steps id)
  others : ∀ name a b, Comparable left right name a b → R.observations.filter (fun o => o.layer = name ∧ o.step = none) =
    if contentOf name a b = [] ∧ a.ids ≠ b.ids then [orderingOnly name a b] else []
  first : R.first = R.observations.head?
  layers : R.observations = layerOrder.flatMap fun name => R.observations.filter fun o => o.layer = name
  order : ∀ name a b, Comparable left right name a b →
    (R.observations.filter fun o => o.layer = name).filterMap Observation.step =
      (a.steps.filter (differs b.steps)).map Step.id ++ b.ids.filter (fun id => id ∉ a.ids)

/-- Two reductions of the same two traces, one the other way round. -/
structure Mirrored (left right : Trace) (R S : Reduction) : Prop where
  answered : ∀ o ∈ R.observations, ∃ o' ∈ S.observations, Answers left right o o'
  keys : ∀ k, k ∈ S.observations.map Observation.key ↔ flipKey k ∈ R.observations.map Observation.key
  outcome : S.outcome = R.outcome

theorem observations_exact {case_ : Json} {left right : Trace} {rest : List Trace} (hl : left.Distinct) (hr : right.Distinct) :
    Exact left right (reduceTraces case_ (left :: right :: rest)) where
  identical_iff := by
    rw [← observations_nil_iff hl hr]
    show outcomeOf (observations left right) = .identical ↔ _
    unfold outcomeOf
    cases observations left right with
    | nil => exact ⟨fun _ => rfl, fun _ => rfl⟩
    | cons o os =>
      refine ⟨fun h => ?_, fun h => by cases h⟩
      rw [if_neg (by simp)] at h
      split at h <;> cases h
  steps name a b h id := by
    show (observations left right).filter _ = _
    rw [← h.step (hl a (layerOf_mem h.left_layer)) (hr b (layerOf_mem h.right_layer)) id, ← filter_layer h.inOrder,
      List.filter_filter]
    refine List.filter_congr fun o _ => ?_
    rw [Bool.decide_and, Bool.and_comm]
  others name a b h := by
    show (observations left right).filter _ = _
    rw [← h.others, ← filter_layer h.inOrder, List.filter_filter]
    refine List.filter_congr fun o _ => ?_
    rw [Bool.decide_and, Bool.and_comm]
  first := rfl
  layers := by
    show observations left right = layerOrder.flatMap fun name => (observations left right).filter fun o => o.layer = name
    have hwalk : ∀ name ∈ layerOrder, (observations left right).filter (fun o => o.layer = name) = walkLayer left right name :=
      fun name hname => filter_layer hname
    rw [List.flatMap_congr hwalk]
    rfl
  order name a b h := by
    show ((observations left right).filter _).filterMap _ = _
    rw [filter_layer h.inOrder, h.order]

/-- The reduction of two traces is exact, and the reduction of the same two the other way
    round answers it. -/
theorem reduce_exact (case_ : Json) (left right : Trace) (rest : List Trace) (hl : left.Distinct) (hr : right.Distinct) :
    Exact left right (reduceTraces case_ (left :: right :: rest)) ∧
      Mirrored left right (reduceTraces case_ (left :: right :: rest)) (reduceTraces case_ (right :: left :: rest)) :=
  ⟨observations_exact hl hr, fun _ ho => observations_swap hl hr ho, keys_swap hl hr, outcome_swap hl hr⟩

/-- A trace with one verdict, the other layers empty. -/
def oneVerdict (engine id : String) (value : Json) : Trace :=
  { engine := .str engine
    layers := [
      { layer := "lowered", status := .produced, projection := .full, order := .significant },
      { layer := "summaries", status := .produced, projection := .full, order := .canonical },
      { layer := "verdicts", status := .produced, projection := .full, order := .significant, steps := [⟨id, value⟩] }] }

theorem oneVerdict_distinct (engine id : String) (value : Json) : (oneVerdict engine id value).Distinct := by
  intro l hl
  simp only [oneVerdict, List.mem_cons, List.not_mem_nil, or_false] at hl
  rcases hl with rfl | rfl | rfl
  · exact List.nodup_nil
  · exact List.nodup_nil
  · exact List.nodup_singleton _

theorem reduce_exact_verdicts :
    Exact (oneVerdict "python" "a" (.int 1)) (oneVerdict "rust" "a" (.int 2))
      (reduceTraces .null [oneVerdict "python" "a" (.int 1), oneVerdict "rust" "a" (.int 2)]) ∧
    Mirrored (oneVerdict "python" "a" (.int 1)) (oneVerdict "rust" "a" (.int 2))
      (reduceTraces .null [oneVerdict "python" "a" (.int 1), oneVerdict "rust" "a" (.int 2)])
      (reduceTraces .null [oneVerdict "rust" "a" (.int 2), oneVerdict "python" "a" (.int 1)]) :=
  reduce_exact .null (oneVerdict "python" "a" (.int 1)) (oneVerdict "rust" "a" (.int 2)) [] (oneVerdict_distinct _ _ _)
    (oneVerdict_distinct _ _ _)

/-- Two values that miss a key each: what is named is the first key of whichever is left, so the
    other way round another key is named and no observation has left and right exchanged. -/
theorem swap_names_other : ¬ ∀ left right : Trace, left.Distinct → right.Distinct →
    ∀ o ∈ (reduceTraces .null [left, right]).observations, ∃ o' ∈ (reduceTraces .null [right, left]).observations,
      o'.key = flipKey o.key ∧ same o'.left o.right = true ∧ same o'.right o.left = true := by
  intro h
  have hall := h (oneVerdict "python" "a" (.obj [("message", .int 1), ("line", .int 2)]))
    (oneVerdict "rust" "a" (.obj [("line", .int 3), ("message", .int 0)])) (oneVerdict_distinct _ _ _) (oneVerdict_distinct _ _ _)
  have hone : ((reduceTraces .null [oneVerdict "python" "a" (.obj [("message", .int 1), ("line", .int 2)]),
      oneVerdict "rust" "a" (.obj [("line", .int 3), ("message", .int 0)])]).observations.all fun o =>
    (reduceTraces .null [oneVerdict "rust" "a" (.obj [("line", .int 3), ("message", .int 0)]),
      oneVerdict "python" "a" (.obj [("message", .int 1), ("line", .int 2)])]).observations.all fun o' =>
      !(same o'.left o.right && same o'.right o.left)) = true := by decide
  have hsome : (reduceTraces .null [oneVerdict "python" "a" (.obj [("message", .int 1), ("line", .int 2)]),
      oneVerdict "rust" "a" (.obj [("line", .int 3), ("message", .int 0)])]).observations ≠ [] := by
    intro hnil
    have hlen : (reduceTraces .null [oneVerdict "python" "a" (.obj [("message", .int 1), ("line", .int 2)]),
      oneVerdict "rust" "a" (.obj [("line", .int 3), ("message", .int 0)])]).observations.length = 1 := by decide
    rw [hnil] at hlen
    cases hlen
  obtain ⟨o, os, hos⟩ := List.exists_cons_of_ne_nil hsome
  have ho := hos ▸ List.mem_cons_self (a := o) (l := os)
  obtain ⟨o', ho', -, hleft, hright⟩ := hall o ho
  have := List.all_eq_true.mp (List.all_eq_true.mp hone o ho) o' ho'
  rw [hleft, hright] at this
  cases this

end OwnNet.Repro
