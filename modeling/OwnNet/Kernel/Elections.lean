/-
  OwnNet.Kernel.Elections — which guard a coordinate is split over, in terms of the calls.

  A guard governs a coordinate that has the literal itself, or whose call binds it to a guard that
  governs the callee. Two guards clash, and a clash is inherited through every call, whatever the
  call binds. So the election is no join over the chains of calls: a guard that no call passes on
  may still end the split of a caller far above.

  Proved: `elect_exact`: the election of every system ends, and splits a coordinate over the guard
  that governs it where nothing it calls clashes, over none otherwise.
-/

import OwnNet.Kernel.Schedules

namespace OwnNet.Kernel

open Dataflow

/-- `shape_of` -/
def shapeOf : Election → Shape
  | .one g => .split g
  | .none => .uncond
  | .conflict => .uncond

namespace Election

theorem one_le {g : Nat} {e : Election} : .one g ≤ e ↔ e = .one g ∨ e = .conflict := by
  show join (.one g) e = e ↔ _
  cases e with
  | none => simp [join]
  | one h =>
    by_cases hgh : g = h
    · simp [join, hgh]
    · simp [join, hgh, Ne.symm hgh]
  | conflict => simp [join]

theorem conflict_le {e : Election} : .conflict ≤ e ↔ e = .conflict := by
  show join .conflict e = e ↔ _
  cases e <;> simp [join]

theorem le_conflict (e : Election) : e ≤ .conflict := by
  show join e .conflict = .conflict
  cases e <;> rfl

end Election

namespace ElectionSystem

variable {maxCoords maxEdges : Nat} (sys : ElectionSystem maxCoords maxEdges)

/-! ## Guards along calls -/

/-- A live coordinate imports from another. -/
structure Imports (i j : Fin maxCoords) (binding : GuardBinding) : Prop where
  live : i.val < sys.n
  edge : ⟨j.val, binding⟩ ∈ (sys.coords i).imports

def Calls : Fin maxCoords → Fin maxCoords → Prop := Relation.ReflTransGen fun i j => ∃ binding, sys.Imports i j binding

/-- `g` is a literal of the coordinate, or bound to a guard that governs a callee. -/
inductive Governs : Fin maxCoords → Nat → Prop
  | literal {i : Fin maxCoords} {g : Nat} : i.val < sys.n → (sys.coords i).seed = .one g → Governs i g
  | bound {i j : Fin maxCoords} {g h : Nat} {binding : GuardBinding} : sys.Imports i j binding → Governs j h →
      import_ (.one h) binding = .one g → Governs i g

/-- Its literals clash, or two guards govern it. -/
def Clashes (i : Fin maxCoords) : Prop :=
  (i.val < sys.n ∧ (sys.coords i).seed = .conflict) ∨ ∃ g h, g ≠ h ∧ sys.Governs i g ∧ sys.Governs i h

def Upset (i : Fin maxCoords) : Prop := ∃ j, sys.Calls i j ∧ sys.Clashes j

variable {sys}

theorem Upset.of_call {i j : Fin maxCoords} {binding : GuardBinding} (h : sys.Imports i j binding)
    (hj : sys.Upset j) : sys.Upset i := by
  obtain ⟨k, hk, hclash⟩ := hj
  exact ⟨k, .head ⟨binding, h⟩ hk, hclash⟩

/-! ## One step -/

theorem foldl_le {b c : Election} {es : List ElectionEdge} {f : ElectionEdge → Election} :
    es.foldl (fun acc e => acc.join (f e)) b ≤ c ↔ b ≤ c ∧ ∀ e ∈ es, f e ≤ c := by
  induction es generalizing b with
  | nil => simp
  | cons e es ih =>
    have hjoin : b.join (f e) ≤ c ↔ b ≤ c ∧ f e ≤ c := sup_le_iff (a := b) (b := f e)
    rw [List.foldl_cons, ih, hjoin, List.forall_mem_cons, and_assoc]

theorem step_le {i : Fin maxCoords} (hi : i.val < sys.n) {x : Fin maxCoords → Election} {c : Election} :
    sys.step i x ≤ c ↔ (sys.coords i).seed ≤ c ∧
      ∀ j binding, sys.Imports i j binding → import_ (x j) binding ≤ c := by
  unfold step
  rw [if_neg (by omega), foldl_le]
  refine and_congr_right fun _ => ⟨fun h j binding himp => ?_, fun h e he => ?_⟩
  · have hlook := h _ himp.edge
    unfold look at hlook
    rwa [dif_pos j.isLt] at hlook
  · unfold look
    split
    next hlt => exact h ⟨e.callee, hlt⟩ e.binding ⟨hi, he⟩
    next => exact bot_le

/-! ## From below -/

section

variable {x : Fin maxCoords → Election} (hx : IsFixpoint sys.n sys.step x)

include hx

theorem import_le {i j : Fin maxCoords} {binding : GuardBinding} (h : sys.Imports i j binding) : import_ (x j) binding ≤ x i := by
  rw [← hx i h.live]
  exact ((step_le h.live).mp le_rfl).2 j binding h

theorem governs_le {i : Fin maxCoords} {g : Nat} (h : sys.Governs i g) : .one g ≤ x i := by
  induction h with
  | @literal i g hi hseed =>
    rw [← hseed, ← hx i hi]
    exact ((step_le hi).mp le_rfl).1
  | @bound i j g h binding himp _ hbind ih =>
    rw [← hbind]
    exact le_trans (import_monotone binding ih) (import_le hx himp)

theorem clash_conflict {i : Fin maxCoords} (h : sys.Clashes i) : x i = .conflict := by
  rcases h with ⟨hi, hseed⟩ | ⟨g, h, hgh, hg, hh⟩
  · refine Election.conflict_le.mp ?_
    rw [← hseed, ← hx i hi]
    exact ((step_le hi).mp le_rfl).1
  · rcases Election.one_le.mp (governs_le hx hg) with hg | hg
    · rcases Election.one_le.mp (governs_le hx hh) with hh | hh
      · rw [hg] at hh
        injection hh with hgh'
        exact absurd hgh' hgh
      · exact hh
    · exact hg

theorem upset_conflict {i : Fin maxCoords} (h : sys.Upset i) : x i = .conflict := by
  obtain ⟨j, hcalls, hclash⟩ := h
  induction hcalls using Relation.ReflTransGen.head_induction_on with
  | refl => exact clash_conflict hx hclash
  | head h _ ih =>
    obtain ⟨binding, himp⟩ := h
    have hle := import_le hx himp
    rw [ih] at hle
    exact Election.conflict_le.mp hle

end

/-! ## From above -/

/-- One guard is imported as one, or dropped. -/
theorem import_one (h : Nat) (binding : GuardBinding) : import_ (.one h) binding ≠ .conflict := by
  have hne : ∀ (c caller : Nat), (if c = h then Election.one caller else .none) ≠ .conflict := by
    intro c caller
    split <;> exact fun h => nomatch h
  cases binding with
  | id c caller => exact hne c caller
  | neg c caller => exact hne c caller
  | const => exact fun h => nomatch h
  | opaque_ => exact fun h => nomatch h

variable (sys)

open Classical in
/-- What the calls say. -/
noncomputable def governed (i : Fin maxCoords) : Election :=
  if sys.Upset i then .conflict
  else if h : ∃ g, sys.Governs i g then .one h.choose
  else .none

variable {sys}

theorem governs_le_governed {i : Fin maxCoords} {g : Nat} (h : sys.Governs i g) : .one g ≤ sys.governed i := by
  unfold governed
  by_cases hu : sys.Upset i
  · rw [if_pos hu]
    exact Election.le_conflict _
  · have hex : ∃ g, sys.Governs i g := ⟨g, h⟩
    rw [if_neg hu, dif_pos hex]
    by_cases hsame : g = hex.choose
    · rw [← hsame]
    · exact absurd ⟨i, .refl, Or.inr ⟨g, hex.choose, hsame, h, hex.choose_spec⟩⟩ hu

theorem governed_one {i : Fin maxCoords} {g : Nat} (h : sys.governed i = .one g) : sys.Governs i g := by
  unfold governed at h
  split at h
  next => cases h
  next =>
    split at h
    next hex =>
      injection h with hg
      exact hg ▸ hex.choose_spec
    next => cases h

theorem governed_conflict {i : Fin maxCoords} (h : sys.governed i = .conflict) : sys.Upset i := by
  unfold governed at h
  split at h
  next hu => exact hu
  next => split at h <;> cases h

/-- What the calls say keeps the equations. -/
theorem step_governed {i : Fin maxCoords} (hi : i.val < sys.n) : sys.step i sys.governed ≤ sys.governed i := by
  refine (step_le hi).mpr ⟨?_, fun j binding himp => ?_⟩
  · cases hseed : (sys.coords i).seed with
    | none => exact bot_le
    | one g => exact governs_le_governed (.literal hi hseed)
    | conflict =>
      unfold governed
      rw [if_pos ⟨i, .refl, Or.inl ⟨hi, hseed⟩⟩]
  · cases hj : sys.governed j with
    | none => exact bot_le
    | one h =>
      cases hbind : import_ (.one h) binding with
      | none => exact bot_le
      | one g => exact governs_le_governed (.bound himp (governed_one hj) hbind)
      | conflict => exact absurd hbind (import_one h binding)
    | conflict =>
      unfold governed
      rw [if_pos ((governed_conflict hj).of_call himp)]
      exact Election.le_conflict _

end ElectionSystem

open ElectionSystem in
/-- Of every system: the election ends, in a conflict where something that is called clashes, and
    otherwise in the guard that governs the coordinate, if any; it is split over that guard alone. -/
theorem elect_exact {maxCoords maxEdges : Nat} (sys : ElectionSystem maxCoords maxEdges) :
    ∃ x, elect sys = some x ∧ ∀ i : Fin maxCoords, i.val < sys.n →
      (x i = .conflict ↔ sys.Upset i) ∧
      (∀ g, x i = .one g ↔ sys.Governs i g ∧ ¬sys.Upset i) ∧
      ∀ g, shapeOf (x i) = .split g ↔ (∀ h, sys.Governs i h ↔ h = g) ∧ ¬sys.Upset i := by
  obtain ⟨x, hx, hfix, -, -⟩ := lfp_agree Election.rank_strictMono Election.rank_le (n := sys.n) sys.step_monotone
  have hbelow : ∀ i, x i ≤ sys.governed i := by
    obtain ⟨-, m, hm⟩ := Jacobi.passes_eq hx
    rw [hm]
    refine Jacobi.iterate_below (fun y z hyz i => ?_) (fun i => ?_) m
    · split
      next => exact sys.step_monotone i hyz
      next => exact le_rfl
    · split
      next hi => exact step_governed hi
      next => exact bot_le
  have hconflict : ∀ i, x i = .conflict ↔ sys.Upset i := by
    refine fun i => ⟨fun h => governed_conflict ?_, upset_conflict hfix⟩
    have hle := hbelow i
    rw [h] at hle
    exact Election.conflict_le.mp hle
  have hone : ∀ i g, x i = .one g ↔ sys.Governs i g ∧ ¬sys.Upset i := by
    intro i g
    constructor
    · intro h
      have hu : ¬sys.Upset i := by
        rw [← hconflict, h]
        exact fun h => nomatch h
      have hle := hbelow i
      rw [h] at hle
      rcases Election.one_le.mp hle with hg | hg
      · exact ⟨governed_one hg, hu⟩
      · exact absurd (governed_conflict hg) hu
    · intro h
      rcases Election.one_le.mp (governs_le hfix h.1) with hg | hg
      · exact hg
      · exact absurd ((hconflict i).mp hg) h.2
  refine ⟨x, hx, fun i _ => ⟨hconflict i, hone i, fun g => ?_⟩⟩
  have hshape : shapeOf (x i) = .split g ↔ x i = .one g := by
    cases x i <;> simp [shapeOf]
  rw [hshape, hone]
  refine and_congr_left fun hu => ⟨fun hg h => ⟨fun hh => ?_, fun hh => hh ▸ hg⟩, fun h => (h g).mpr rfl⟩
  by_contra hne
  exact hu ⟨i, .refl, Or.inr ⟨h, g, hne, hh, hg⟩⟩

/-! ## A clash that no call passes on -/

namespace Example

/-- A method calls one with two guards, and binds neither. -/
def unbound : ElectionSystem 2 1 where
  n := 2
  coords := fun i => if i.val = 0 then ⟨.none, fun _ => some ⟨1, .const⟩⟩ else ⟨.conflict, fun _ => none⟩

example : (elect unbound).map (fun x => x 0) = some .conflict := by decide

end Example

end OwnNet.Kernel
