/-
  OwnNet.Dataflow.Collecting — an abstract value that says exactly what there is to say of a set
  of states, and loops over it.

  `E S a`: of the set `S` the value `a` says all. Where a body's step on values is exact on sets,
  joining it in until nothing changes says all of what any number of rounds of the body leads to,
  although the sets behind the last two rounds may still differ.

  Proved: `settle_closure`; `settle_some`: the rounds come to an end where each of them uses up
  some of a rank.
-/

import Mathlib.Data.Set.Lattice
import Mathlib.Logic.Relation

namespace OwnNet.Dataflow

variable {σ α : Type}

/-- Where one round leads from a set of states. -/
def image (R : σ → σ → Prop) (S : Set σ) : Set σ := {t | ∃ s ∈ S, R s t}

/-- Where any number of rounds leads. -/
def closure (R : σ → σ → Prop) (S : Set σ) : Set σ := {t | ∃ s ∈ S, Relation.ReflTransGen R s t}

/-- What was there after so many rounds or fewer. -/
def grown (R : σ → σ → Prop) (S : Set σ) : Nat → Set σ
  | 0 => S
  | n + 1 => grown R S n ∪ image R (grown R S n)

theorem subset_grown (R : σ → σ → Prop) (S : Set σ) (n : Nat) : S ⊆ grown R S n := by
  induction n with
  | zero => exact fun _ hs => hs
  | succ n ih => exact fun _ hs => .inl (ih hs)

theorem grown_subset {R : σ → σ → Prop} {S : Set σ} (n : Nat) : grown R S n ⊆ closure R S := by
  induction n with
  | zero => exact fun s hs => ⟨s, hs, .refl⟩
  | succ n ih =>
    rintro t (ht | ⟨s, hs, hst⟩)
    · exact ih ht
    · obtain ⟨s₀, hs₀, hpath⟩ := ih hs
      exact ⟨s₀, hs₀, hpath.tail hst⟩

theorem closure_eq (R : σ → σ → Prop) (S : Set σ) : closure R S = ⋃ n, grown R S n := by
  refine Set.Subset.antisymm ?_ (Set.iUnion_subset grown_subset)
  rintro t ⟨s, hs, hpath⟩
  induction hpath with
  | refl => exact Set.mem_iUnion.mpr ⟨0, hs⟩
  | @tail u v _ huv ih =>
    obtain ⟨n, hn⟩ := Set.mem_iUnion.mp ih
    exact Set.mem_iUnion.mpr ⟨n + 1, .inr ⟨u, hn, huv⟩⟩

/-- A round made first changes nothing about where any number leads. -/
theorem closure_round (R : σ → σ → Prop) (S : Set σ) : closure R (S ∪ image R S) = closure R S := by
  refine Set.Subset.antisymm ?_ fun t ⟨s, hs, hpath⟩ => ⟨s, .inl hs, hpath⟩
  rintro t ⟨s, hs | ⟨s₀, hs₀, hstep⟩, hpath⟩
  · exact ⟨s, hs, hpath⟩
  · exact ⟨s₀, hs₀, hpath.head hstep⟩

theorem subset_closure (R : σ → σ → Prop) (S : Set σ) : S ⊆ closure R S := fun s hs => ⟨s, hs, .refl⟩

/-- Values say all of unions, and of limits along which they do not change. -/
structure Collects (E : Set σ → α → Prop) (join : α → α → α) : Prop where
  join : ∀ {S T : Set σ} {a b : α}, E S a → E T b → E (S ∪ T) (join a b)
  limit : ∀ {S : Nat → Set σ} {a : α}, (∀ n, S n ⊆ S (n + 1)) → (∀ n, E (S n) a) → E (⋃ n, S n) a

/-- Rounds are joined in until one changes nothing. -/
def settle [DecidableEq α] (join : α → α → α) (f : α → Option α) : Nat → α → Option α
  | 0, _ => none
  | n + 1, a =>
    match f a with
    | none => none
    | some b => if join a b = a then some a else settle join f n (join a b)

section Settle

variable [DecidableEq α] {E : Set σ → α → Prop} {join : α → α → α} {f : α → Option α} {R : σ → σ → Prop}

theorem settle_closure (hE : Collects E join)
    (hf : ∀ {S : Set σ} {a b : α}, S.Nonempty → E S a → f a = some b → E (image R S) b) {n : Nat} {S : Set σ} {a c : α}
    (hne : S.Nonempty) (h : E S a) (hs : settle join f n a = some c) : E (closure R S) c := by
  induction n generalizing S a with
  | zero => cases hs
  | succ n ih =>
    rw [settle] at hs
    cases hb : f a with
    | none =>
      rw [hb] at hs
      cases hs
    | some b =>
      simp only [hb] at hs
      by_cases hfix : join a b = a
      · rw [if_pos hfix] at hs
        cases hs
        rw [closure_eq]
        refine hE.limit (fun _ _ hs => .inl hs) fun k => ?_
        induction k with
        | zero => exact h
        | succ k ihk =>
          have hround := hE.join ihk (hf (hne.mono (subset_grown R S k)) ihk hb)
          rwa [hfix] at hround
      · rw [if_neg hfix] at hs
        rw [← closure_round]
        exact ih (hne.mono Set.subset_union_left) (hE.join h (hf hne h hb)) hs

theorem settle_some (Inv : α → Prop) (rank : α → Nat)
    (hf : ∀ a, Inv a → ∃ b, f a = some b ∧ (join a b ≠ a → Inv (join a b) ∧ rank (join a b) < rank a))
    {n : Nat} {a : α} (h : Inv a)
    (hn : rank a < n) : ∃ c, settle join f n a = some c ∧ Inv c := by
  induction n generalizing a with
  | zero => omega
  | succ n ih =>
    obtain ⟨b, hb, hround⟩ := hf a h
    rw [settle, hb]
    simp only
    by_cases hfix : join a b = a
    · exact ⟨a, if_pos hfix, h⟩
    · rw [if_neg hfix]
      obtain ⟨hinv, hlt⟩ := hround hfix
      exact ih hinv (by omega)

end Settle

end OwnNet.Dataflow
