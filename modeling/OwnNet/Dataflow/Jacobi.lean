/-
  OwnNet.Dataflow.Jacobi — all unknowns of a system at once, from the bottom, until a pass
  changes nothing; and what comes of it where every equation is a join: of a seed of its own
  and of the values of the unknowns it reads.

  Proved: `passes_some`: with values of bounded rank the passes end within one more than the
  ranks there are to climb; `Joins.isLUB`: the solution at an unknown is the join of the
  seeds at the ends of all chains of reads from it.
-/

import Mathlib.Algebra.BigOperators.Group.Finset.Basic
import Mathlib.Algebra.Group.Action.Defs
import Mathlib.Algebra.Order.BigOperators.Group.Finset
import Mathlib.Data.Fintype.Card
import Mathlib.Data.Fintype.Pi
import Mathlib.Logic.Function.Iterate
import Mathlib.Logic.Relation
import Mathlib.Order.Bounds.Basic

namespace OwnNet.Dataflow.Jacobi

variable {ι β : Type}

/-- Passes until one changes nothing. -/
def passes [Fintype ι] [DecidableEq β] (next : (ι → β) → ι → β) : Nat → (ι → β) → Option (ι → β)
  | 0, _ => none
  | n + 1, x => if next x = x then some x else passes next n (next x)

section Passes

variable [Fintype ι] {next : (ι → β) → ι → β}

theorem passes_eq [DecidableEq β] {n : Nat} {x y : ι → β} (h : passes next n x = some y) : next y = y ∧ ∃ m, y = next^[m] x := by
  induction n generalizing x with
  | zero => cases h
  | succ n ih =>
    unfold passes at h
    split at h
    next hx =>
      cases h
      exact ⟨hx, 0, rfl⟩
    next =>
      obtain ⟨hy, m, hm⟩ := ih h
      exact ⟨hy, m + 1, hm⟩

variable (rank : β → Nat) (height : Nat)

theorem rank_sum_le (hheight : ∀ b, rank b ≤ height) (x : ι → β) : ∑ i, rank (x i) ≤ Fintype.card ι * height := by
  have h : ∑ i, rank (x i) ≤ ∑ _i : ι, height := Finset.sum_le_sum fun i _ => hheight (x i)
  rwa [Finset.sum_const, Finset.card_univ, smul_eq_mul] at h

variable [PartialOrder β]

theorem rank_sum_lt (hrank : StrictMono rank) {x y : ι → β} (hxy : x < y) : ∑ i, rank (x i) < ∑ i, rank (y i) := by
  obtain ⟨hle, i, hi⟩ := Pi.lt_def.mp hxy
  exact Finset.sum_lt_sum (fun j _ => hrank.monotone (hle j)) ⟨i, Finset.mem_univ i, hrank hi⟩

/-- Every pass that changes anything climbs; there is only so much to climb. -/
theorem passes_some [DecidableEq β] (hrank : StrictMono rank) (hheight : ∀ b, rank b ≤ height)
    (hm : Monotone next) {n : Nat} {x : ι → β}
    (hx : x ≤ next x) (hn : Fintype.card ι * height < n + ∑ i, rank (x i)) : ∃ y, passes next n x = some y := by
  induction n generalizing x with
  | zero =>
    have := rank_sum_le rank height hheight x
    omega
  | succ n ih =>
    unfold passes
    split
    next => exact ⟨x, rfl⟩
    next hne =>
      have hlt := rank_sum_lt rank hrank (lt_of_le_of_ne hx (Ne.symm hne))
      exact ih (hm hx) (by omega)

omit [Fintype ι] in
/-- The passes from the bottom stay below whatever is above its own image. -/
theorem iterate_below [OrderBot β] (hm : Monotone next) {z : ι → β} (hz : next z ≤ z) (m : Nat) : next^[m] (fun _ => ⊥) ≤ z := by
  induction m with
  | zero => exact fun _ => bot_le
  | succ m ih =>
    rw [Function.iterate_succ_apply']
    exact le_trans (hm ih) hz

end Passes

/-! ## Equations that are joins -/

/-- From an unknown along what it reads. -/
def Chain (reads : ι → List ι) : ι → ι → Prop := Relation.ReflTransGen fun v w => w ∈ reads v

/-- Every equation is the join of a seed and the values it reads. -/
def Joins [Preorder β] (next : (ι → β) → ι → β) (seed : ι → β) (reads : ι → List ι) : Prop :=
  ∀ x v, IsLUB (insert (seed v) {t | ∃ w ∈ reads v, t = x w}) (next x v)

namespace Joins

variable [Preorder β] {next : (ι → β) → ι → β} {seed : ι → β} {reads : ι → List ι}

theorem monotone (h : Joins next seed reads) : Monotone next := by
  intro x y hxy v
  refine (h x v).2 fun t ht => ?_
  rcases ht with rfl | ⟨w, hw, rfl⟩
  · exact (h y v).1 (Set.mem_insert _ _)
  · exact le_trans (hxy w) ((h y v).1 (Set.mem_insert_of_mem _ ⟨w, hw, rfl⟩))

theorem seed_le (h : Joins next seed reads) {y : ι → β} (hy : next y = y) {v w : ι} (hc : Chain reads v w) :
    seed w ≤ y v := by
  induction hc using Relation.ReflTransGen.head_induction_on with
  | refl => exact congrFun hy w ▸ (h y w).1 (Set.mem_insert _ _)
  | @head v u hu _ ih =>
    have hread : y u ≤ next y v := (h y v).1 (Set.mem_insert_of_mem _ ⟨u, hu, rfl⟩)
    exact le_trans ih (congrFun hy v ▸ hread)

theorem iterate_le [OrderBot β] (h : Joins next seed reads) (m : Nat) {v : ι} {b : β}
    (hb : ∀ w, Chain reads v w → seed w ≤ b) : next^[m] (fun _ => ⊥) v ≤ b := by
  induction m generalizing v with
  | zero => exact bot_le
  | succ m ih =>
    rw [Function.iterate_succ_apply']
    refine (h _ v).2 fun t ht => ?_
    rcases ht with rfl | ⟨w, hw, rfl⟩
    · exact hb v Relation.ReflTransGen.refl
    · exact ih fun u hu => hb u (Relation.ReflTransGen.head hw hu)

/-- The value at an unknown is the join over all chains from it. -/
theorem isLUB [OrderBot β] (h : Joins next seed reads) {y : ι → β} (hy : next y = y) {m : Nat}
    (hm : y = next^[m] fun _ => ⊥) (v : ι) : IsLUB {t | ∃ w, Chain reads v w ∧ t = seed w} (y v) := by
  constructor
  · rintro t ⟨w, hw, rfl⟩
    exact h.seed_le hy hw
  · intro b hb
    rw [hm]
    exact h.iterate_le m fun w hw => hb ⟨w, hw, rfl⟩

end Joins

end OwnNet.Dataflow.Jacobi
