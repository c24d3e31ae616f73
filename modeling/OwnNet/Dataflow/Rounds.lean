/-
  OwnNet.Dataflow.Rounds — a system of equations over listed unknowns, swept in order until
  a sweep changes nothing. A new value is used by the unknowns swept after it.

  Proved, for monotone equations over values of bounded rank: the rounds end
  (`rounds_least`), in the least solution among the assignments the equations do not raise;
  and so they do, within the same number, in any order and with repetitions
  (`rounds_scheduled`).
-/

import Mathlib.Order.BoundedOrder.Basic
import Mathlib.Order.Lattice
import Mathlib.Logic.Function.Basic
import Mathlib.Algebra.BigOperators.Group.List.Basic
import Mathlib.Algebra.Order.BigOperators.Group.List
import Mathlib.Algebra.Order.Ring.Nat

namespace OwnNet.Dataflow

set_option linter.unusedSectionVars false

variable {κ β : Type} [DecidableEq κ] [DecidableEq β]

/-- One unknown: its new value, and whether anything has changed in this round. -/
def reevaluate (eqn : κ → (κ → β) → β) (s : (κ → β) × Bool) (k : κ) : (κ → β) × Bool :=
  if eqn k s.1 = s.1 k then s else (Function.update s.1 k (eqn k s.1), true)

def sweep (eqn : κ → (κ → β) → β) (ks : List κ) (cur : κ → β) : (κ → β) × Bool :=
  ks.foldl (reevaluate eqn) (cur, false)

def rounds (eqn : κ → (κ → β) → β) (ks : List κ) : Nat → (κ → β) → Option (κ → β)
  | 0, _ => none
  | n + 1, cur =>
    match sweep eqn ks cur with
    | (cur, false) => some cur
    | (cur, true) => rounds eqn ks n cur

variable [PartialOrder β] {eqn : κ → (κ → β) → β} {ks : List κ}

/-- Raised to what the equations say, and below every assignment they do not raise. -/
structure Rising (eqn : κ → (κ → β) → β) (ks : List κ) (start cur : κ → β) : Prop where
  grow : ∀ k ∈ ks, cur k ≤ eqn k cur
  below : ∀ x, start ≤ x → (∀ k ∈ ks, eqn k x ≤ x k) → cur ≤ x
  start_le : start ≤ cur
  off : ∀ k, k ∉ ks → cur k = start k

theorem Rising.reevaluate (hm : ∀ k ∈ ks, Monotone (eqn k)) {start : κ → β} {s : (κ → β) × Bool}
    (h : Rising eqn ks start s.1) {k : κ} (hk : k ∈ ks) :
    Rising eqn ks start (reevaluate eqn s k).1 ∧ s.1 ≤ (Dataflow.reevaluate eqn s k).1 := by
  unfold Dataflow.reevaluate
  split
  · exact ⟨h, le_refl _⟩
  · have hle : s.1 ≤ Function.update s.1 k (eqn k s.1) := by
      intro j
      by_cases e : j = k
      · subst e; rw [Function.update_self]; exact h.grow _ hk
      · rw [Function.update_of_ne e]
    refine ⟨⟨?_, ?_, le_trans h.start_le hle, ?_⟩, hle⟩
    · intro j hj
      have := hm j hj hle
      dsimp only
      by_cases e : j = k
      · subst e; rw [Function.update_self]; exact this
      · rw [Function.update_of_ne e]; exact le_trans (h.grow j hj) this
    · intro x hs hx j
      have hcur := h.below x hs hx
      dsimp only
      by_cases e : j = k
      · subst e; rw [Function.update_self]; exact le_trans (hm _ hk hcur) (hx _ hk)
      · rw [Function.update_of_ne e]; exact hcur j
    · intro j hj
      have : j ≠ k := fun e => hj (e ▸ hk)
      show Function.update s.1 k (eqn k s.1) j = start j
      rw [Function.update_of_ne this]
      exact h.off j hj

/-! ## Progress -/

section Rank

variable (rank : β → Nat) (height : Nat)

/-- The rank the unknowns may still gain. -/
def room (ks : List κ) (cur : κ → β) : Nat := (ks.map fun k => height - rank (cur k)).sum

variable {rank height} (hr : StrictMono rank) (hh : ∀ b, rank b ≤ height)

include hr

theorem room_le {cur cur' : κ → β} (h : cur ≤ cur') (ks : List κ) : room rank height ks cur' ≤ room rank height ks cur := by
  unfold room
  apply List.sum_le_sum
  intro k _
  have := hr.monotone (h k)
  omega

include hh

theorem room_lt {cur cur' : κ → β} (h : cur ≤ cur') {k : κ} (hk : k ∈ ks) (hne : cur k ≠ cur' k) :
    room rank height ks cur' < room rank height ks cur := by
  unfold room
  refine List.sum_lt_sum _ _ (fun j _ => ?_) ⟨k, hk, ?_⟩
  · have := hr.monotone (h j)
    omega
  · have h1 : rank (cur k) < rank (cur' k) := hr (lt_of_le_of_ne (h k) hne)
    have h2 := hh (cur' k)
    omega

theorem foldl_rising (hm : ∀ k ∈ ks, Monotone (eqn k)) {start : κ → β} :
    ∀ (js : List κ), (∀ k ∈ js, k ∈ ks) → ∀ (s : (κ → β) × Bool), Rising eqn ks start s.1 →
      Rising eqn ks start (js.foldl (reevaluate eqn) s).1 ∧ s.1 ≤ (js.foldl (reevaluate eqn) s).1 ∧
        ((js.foldl (reevaluate eqn) s).2 = false → s.2 = false ∧ (js.foldl (reevaluate eqn) s).1 = s.1 ∧
          ∀ k ∈ js, eqn k s.1 = s.1 k) ∧
        ((js.foldl (reevaluate eqn) s).2 = true →
          s.2 = true ∨ room rank height ks (js.foldl (reevaluate eqn) s).1 < room rank height ks s.1) := by
  intro js
  induction js with
  | nil => exact fun _ s h => ⟨h, le_refl _, fun h2 => ⟨h2, rfl, fun k hk => absurd hk List.not_mem_nil⟩, Or.inl⟩
  | cons j js ih =>
    intro hjs s h
    have hj := hjs j List.mem_cons_self
    obtain ⟨h1, hle⟩ := h.reevaluate hm hj
    obtain ⟨h2, hle2, hfalse, htrue⟩ := ih (fun k hk => hjs k (List.mem_cons_of_mem _ hk)) _ h1
    refine ⟨h2, le_trans hle hle2, ?_, ?_⟩
    · intro hf
      obtain ⟨hs, he, hall⟩ := hfalse hf
      have hsame : reevaluate eqn s j = s ∧ eqn j s.1 = s.1 j := by
        unfold reevaluate at hs ⊢
        split at hs
        next e => exact ⟨by rw [if_pos e], e⟩
        next => cases hs
      rw [hsame.1] at hs he hall
      refine ⟨hs, by rw [List.foldl_cons, hsame.1]; exact he, fun k hk => ?_⟩
      rcases List.mem_cons.mp hk with rfl | hk
      · exact hsame.2
      · exact hall k hk
    · intro ht
      have hroom : _ ≤ room rank height ks _ := room_le hr hle2 ks
      rcases htrue ht with hs | hlt
      · unfold reevaluate at hs
        split at hs
        next => exact Or.inl hs
        next hne =>
          right
          refine lt_of_le_of_lt hroom (room_lt hr hh hle hj ?_)
          unfold reevaluate
          rw [if_neg hne]
          simpa using Ne.symm hne
      · exact Or.inr (lt_of_lt_of_le hlt (room_le hr hle ks))

/-- By a schedule of the same unknowns, in any order and with repetitions. -/
theorem rounds_rising (hm : ∀ k ∈ ks, Monotone (eqn k)) {start : κ → β} {js : List κ} (hjs : ∀ k ∈ js, k ∈ ks)
    (hks : ∀ k ∈ ks, k ∈ js) :
    ∀ (n : Nat) (cur : κ → β), Rising eqn ks start cur → room rank height ks cur < n →
      ∃ r, rounds eqn js n cur = some r ∧ Rising eqn ks start r ∧ ∀ k ∈ ks, eqn k r = r k := by
  intro n
  induction n with
  | zero => intro cur _ hn; omega
  | succ n ih =>
    intro cur h hn
    obtain ⟨h1, -, hfalse, htrue⟩ := foldl_rising hr hh hm js hjs (cur, false) h
    unfold rounds
    cases hs : sweep eqn js cur with
    | mk cur' changed =>
      rw [show js.foldl (reevaluate eqn) (cur, false) = (cur', changed) from hs] at h1 hfalse htrue
      cases changed with
      | false =>
        obtain ⟨-, he, hall⟩ := hfalse rfl
        simp only at he hall h1
        subst he
        exact ⟨_, rfl, h1, fun k hk => hall k (hks k hk)⟩
      | true =>
        rcases htrue rfl with hc | hlt
        · cases hc
        · exact ih cur' h1 (by simp only at hlt; omega)

theorem rounds_scheduled (hm : ∀ k ∈ ks, Monotone (eqn k)) {start : κ → β} (hstart : ∀ k ∈ ks, start k ≤ eqn k start)
    {js : List κ} (hjs : ∀ k ∈ js, k ∈ ks) (hks : ∀ k ∈ ks, k ∈ js) {n : Nat} (hn : ks.length * height < n) :
    ∃ r, rounds eqn js n start = some r ∧ Rising eqn ks start r ∧ ∀ k ∈ ks, eqn k r = r k := by
  refine rounds_rising hr hh hm hjs hks n start ⟨hstart, fun x hs _ => hs, le_refl _, fun _ _ => rfl⟩ ?_
  refine lt_of_le_of_lt ?_ hn
  unfold room
  calc (ks.map fun k => height - rank (start k)).sum ≤ (ks.map fun _ => height).sum :=
        List.sum_le_sum fun k _ => Nat.sub_le _ _
    _ = ks.length * height := by rw [List.map_const', List.sum_replicate, Nat.nsmul_eq_mul]

/-- The rounds from below the equations end, in their least solution. -/
theorem rounds_least (hm : ∀ k ∈ ks, Monotone (eqn k)) {start : κ → β} (hstart : ∀ k ∈ ks, start k ≤ eqn k start)
    {n : Nat} (hn : ks.length * height < n) :
    ∃ r, rounds eqn ks n start = some r ∧ Rising eqn ks start r ∧ ∀ k ∈ ks, eqn k r = r k :=
  rounds_scheduled hr hh hm hstart (fun _ hk => hk) (fun _ hk => hk) hn

end Rank

end OwnNet.Dataflow
