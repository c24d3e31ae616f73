/-
  OwnNet.Graph.Attempts — structured code whose steps may fail: beside the words after which
  control falls out at its bottom and those after which it has left, those after which a step
  has failed. A step that fails has done nothing. What a `finally` holds is done however the
  code it guards is left, and does not fail itself.

  Two accounts of one code agree letter by letter where each way of one is matched by a way of
  the other (`Ways.Alike`).

  Proved: forgetting the failures goes through each way of putting code together; code whose
  openings are each followed by a guarded part that ends in the closing has every opening
  closed, last opened first, however it is left (`All.bracket` and the rules before it).
-/

import OwnNet.Graph.Ways
import Mathlib.Data.List.Forall2
import Mathlib.Data.List.Count

namespace OwnNet.Graph

open Computability

variable {α β ν : Type}

/-! ## Steps that may fail -/

@[ext]
structure Attempts (α : Type) extends Ways α where
  fails : Language α

namespace Attempts

/-- Code none of whose steps fails. -/
def sure (r : Ways α) : Attempts α := ⟨r, 0⟩

/-- One step: what it does, or nothing. -/
def attempt (w : List α) : Attempts α := ⟨.word w, {[]}⟩

def seq (r s : Attempts α) : Attempts α := ⟨r.toWays.seq s.toWays, r.fails + r.falls * s.fails⟩

def choice (r s : Attempts α) : Attempts α := ⟨r.toWays.choice s.toWays, r.fails + s.fails⟩

def loop (r : Attempts α) : Attempts α := ⟨r.toWays.loop, r.falls∗ * r.fails⟩

/-- `w` is done wherever `r` is left. -/
def guard (r : Attempts α) (w : List α) : Attempts α :=
  ⟨⟨r.falls * {w}, r.leaves * {w}⟩, r.fails * {w}⟩

@[simp] theorem sure_ways (r : Ways α) : (sure r).toWays = r := rfl

@[simp] theorem attempt_ways (w : List α) : (attempt w).toWays = .word w := rfl

@[simp] theorem seq_ways (r s : Attempts α) : (r.seq s).toWays = r.toWays.seq s.toWays := rfl

@[simp] theorem choice_ways (r s : Attempts α) : (r.choice s).toWays = r.toWays.choice s.toWays := rfl

@[simp] theorem loop_ways (r : Attempts α) : r.loop.toWays = r.toWays.loop := rfl

/-- A guard around code that is not left is what it holds, at the end. -/
theorem guard_ways {r : Attempts α} (h : r.leaves = 0) (w : List α) : (r.guard w).toWays = r.toWays.seq (.word w) := by
  ext1 <;> simp [guard, Ways.seq, Ways.word, h]

/-! ## What holds however the code is left -/

/-- Every word, however the code is left after it. -/
def All (P : List α → Prop) (r : Attempts α) : Prop := ∀ w, w ∈ r.falls ∨ w ∈ r.leaves ∨ w ∈ r.fails → P w

section

variable {P : List α → Prop} {r s : Attempts α}

theorem All.sure {R : Ways α} (h : ∀ w, w ∈ R.falls ∨ w ∈ R.leaves → P w) : All P (sure R) := by
  intro w hw
  rcases hw with hw | hw | hw
  · exact h w (Or.inl hw)
  · exact h w (Or.inr hw)
  · exact absurd hw (Language.notMem_zero w)

theorem All.attempt (hnil : P []) {w : List α} (h : P w) : All P (attempt w) := by
  intro v hv
  rcases hv with hv | hv | hv
  · rw [mem_word.mp hv]
    exact h
  · exact absurd hv (Language.notMem_zero v)
  · rw [mem_word.mp hv]
    exact hnil

theorem All.seq (happ : ∀ u v, P u → P v → P (u ++ v)) (hr : All P r) (hs : All P s) : All P (r.seq s) := by
  have hboth : ∀ {M : Language α} {w}, (∀ v ∈ M, P v) → w ∈ r.falls * M → P w := by
    intro M w hM hw
    obtain ⟨u, hu, v, hv, rfl⟩ := Language.mem_mul.mp hw
    exact happ u v (hr u (Or.inl hu)) (hM v hv)
  intro w hw
  rcases hw with hw | hw | hw
  · exact hboth (fun v hv => hs v (Or.inl hv)) hw
  · rcases (Language.mem_add _ _ _).mp hw with hw | hw
    · exact hr w (Or.inr (Or.inl hw))
    · exact hboth (fun v hv => hs v (Or.inr (Or.inl hv))) hw
  · rcases (Language.mem_add _ _ _).mp hw with hw | hw
    · exact hr w (Or.inr (Or.inr hw))
    · exact hboth (fun v hv => hs v (Or.inr (Or.inr hv))) hw

theorem All.guard (happ : ∀ u v, P u → P v → P (u ++ v)) (hr : All P r) {w : List α} (hw : P w) : All P (r.guard w) := by
  have hboth : ∀ {L : Language α} {v}, (∀ u ∈ L, P u) → v ∈ L * {w} → P v := by
    intro L v hL hv
    obtain ⟨u, hu, x, hx, rfl⟩ := Language.mem_mul.mp hv
    rw [mem_word.mp hx]
    exact happ u w (hL u hu) hw
  intro v hv
  rcases hv with hv | hv | hv
  · exact hboth (fun u hu => hr u (Or.inl hu)) hv
  · exact hboth (fun u hu => hr u (Or.inr (Or.inl hu))) hv
  · exact hboth (fun u hu => hr u (Or.inr (Or.inr hu))) hv

theorem All.choice (hr : All P r) (hs : All P s) : All P (r.choice s) := by
  intro w hw
  rcases hw with hw | hw | hw <;> rcases (Language.mem_add _ _ _).mp hw with hw | hw
  · exact hr w (Or.inl hw)
  · exact hs w (Or.inl hw)
  · exact hr w (Or.inr (Or.inl hw))
  · exact hs w (Or.inr (Or.inl hw))
  · exact hr w (Or.inr (Or.inr hw))
  · exact hs w (Or.inr (Or.inr hw))

theorem All.loop (hnil : P []) (happ : ∀ u v, P u → P v → P (u ++ v)) (hr : All P r) : All P r.loop := by
  have hrounds : ∀ w ∈ r.falls∗, P w := by
    intro w hw
    obtain ⟨ws, rfl, hws⟩ := Language.mem_kstar.mp hw
    clear hw
    induction ws with
    | nil => exact hnil
    | cons w ws ih =>
      rw [List.flatten_cons]
      exact happ _ _ (hr w (Or.inl (hws w List.mem_cons_self))) (ih fun y hy => hws y (List.mem_cons_of_mem _ hy))
  intro w hw
  rcases hw with hw | hw | hw
  · exact hrounds w hw
  · obtain ⟨u, hu, v, hv, rfl⟩ := Language.mem_mul.mp hw
    exact happ u v (hrounds u hu) (hr v (Or.inr (Or.inl hv)))
  · obtain ⟨u, hu, v, hv, rfl⟩ := Language.mem_mul.mp hw
    exact happ u v (hrounds u hu) (hr v (Or.inr (Or.inr hv)))

end

end Attempts

/-! ## Openings and closings -/

/-- `(n, true)` opens `n` and `(n, false)` closes it: what was opened last is closed first. -/
inductive Nested : List (ν × Bool) → Prop
  | nil : Nested []
  | append {u v : List (ν × Bool)} : Nested u → Nested v → Nested (u ++ v)
  | wrap {u : List (ν × Bool)} (n : ν) : Nested u → Nested ((n, true) :: u ++ [(n, false)])

/-- Each name is closed as often as it is opened. -/
theorem Nested.count [DecidableEq ν] {u : List (ν × Bool)} (h : Nested u) (n : ν) : u.count (n, true) = u.count (n, false) := by
  induction h with
  | nil => rfl
  | append _ _ hu hv => rw [List.count_append, List.count_append, hu, hv]
  | wrap m _ hu =>
    rw [List.cons_append, List.count_cons, List.count_cons, List.count_append, List.count_append, hu]
    by_cases hm : m = n <;> simp [hm]

theorem prefix_append_cases {u v w : List α} (h : w <+: u ++ v) : w <+: u ∨ ∃ x, w = u ++ x ∧ x <+: v := by
  rcases List.prefix_or_prefix_of_prefix h (List.prefix_append u v) with h' | ⟨x, rfl⟩
  · exact Or.inl h'
  · exact Or.inr ⟨x, rfl, (List.prefix_append_right_inj u).mp h⟩

/-- Nothing is closed more often than it was opened before. -/
theorem Nested.before [DecidableEq ν] {u : List (ν × Bool)} (h : Nested u) (n : ν) {v : List (ν × Bool)} (hv : v <+: u) :
    v.count (n, false) ≤ v.count (n, true) := by
  induction h generalizing v with
  | nil =>
    rw [List.prefix_nil.mp hv]
    exact Nat.le_refl 0
  | @append u u' hu _ ihu ihu' =>
    rcases prefix_append_cases hv with hv | ⟨w, rfl, hw⟩
    · exact ihu hv
    · have h₁ := hu.count n
      have h₂ := ihu' hw
      rw [List.count_append, List.count_append]
      omega
  | @wrap u m hu ihu =>
    rw [List.cons_append, List.prefix_cons_iff] at hv
    rcases hv with rfl | ⟨w, rfl, hw⟩
    · exact Nat.le_refl 0
    · have hm := hu.count n
      rcases prefix_append_cases hw with hw | ⟨x, rfl, hx⟩
      · have h := ihu hw
        rw [List.count_cons, List.count_cons]
        by_cases hmn : m = n <;> simp [hmn] <;> omega
      · rw [List.count_cons, List.count_cons, List.count_append, List.count_append]
        have hx' : x.count (n, false) ≤ if m = n then 1 else 0 := by
          refine (List.Sublist.count_le _ hx.sublist).trans ?_
          by_cases hmn : m = n <;> simp [hmn]
        by_cases hmn : m = n <;> simp [hmn] at hx' ⊢ <;> omega

section

variable (side : α → Option (ν × Bool))

/-- The openings and closings of a word are nested. -/
def Bracketed (w : List α) : Prop := Nested (w.filterMap side)

variable {side}

theorem Bracketed.nil : Bracketed side [] := Nested.nil

theorem Bracketed.append (u v : List α) (hu : Bracketed side u) (hv : Bracketed side v) : Bracketed side (u ++ v) := by
  unfold Bracketed
  rw [List.filterMap_append]
  exact Nested.append hu hv

/-- A step that neither opens nor closes. -/
theorem Bracketed.other {w : List α} (h : ∀ a ∈ w, side a = none) : Bracketed side w := by
  unfold Bracketed
  rw [List.filterMap_eq_nil_iff.mpr h]
  exact Nested.nil

/-- Opened by a step that may fail, and closed however the rest is left. -/
theorem Attempts.All.bracket {r : Attempts α} {o c : α} {n : ν} (ho : side o = some (n, true)) (hc : side c = some (n, false))
    (h : All (Bracketed side) r) : All (Bracketed side) ((Attempts.attempt [o]).seq (r.guard [c])) := by
  have hwrap : ∀ {L : Language α} {w}, (∀ u ∈ L, Bracketed side u) → w ∈ ({[o]} : Language α) * (L * {[c]}) →
      Bracketed side w := by
    intro L w hL hw
    obtain ⟨x, hx, y, hy, rfl⟩ := Language.mem_mul.mp hw
    obtain ⟨u, hu, z, hz, rfl⟩ := Language.mem_mul.mp hy
    rw [mem_word.mp hx, mem_word.mp hz]
    have hn := Nested.wrap n (hL u hu)
    simpa [Bracketed, ho, hc] using hn
  intro w hw
  rcases hw with hw | hw | hw
  · exact hwrap (fun u hu => h u (Or.inl hu)) hw
  · rcases (Language.mem_add _ _ _).mp hw with hw | hw
    · exact absurd hw (Language.notMem_zero w)
    · exact hwrap (fun u hu => h u (Or.inr (Or.inl hu))) hw
  · rcases (Language.mem_add _ _ _).mp hw with hw | hw
    · rw [mem_word.mp hw]
      exact Bracketed.nil
    · exact hwrap (fun u hu => h u (Or.inr (Or.inr hu))) hw

end

/-! ## Two accounts of one code -/

/-- Each word of one is, letter by letter, one of the other. -/
def AlikeWords (rel : α → β → Prop) (L : Language α) (M : Language β) : Prop :=
  (∀ u ∈ L, ∃ v ∈ M, List.Forall₂ rel u v) ∧ ∀ v ∈ M, ∃ u ∈ L, List.Forall₂ rel u v

section

variable {rel : α → β → Prop} {L L' : Language α} {M M' : Language β}

theorem AlikeWords.zero : AlikeWords rel 0 0 :=
  ⟨fun u hu => absurd hu (Language.notMem_zero u), fun v hv => absurd hv (Language.notMem_zero v)⟩

theorem AlikeWords.word {u : List α} {v : List β} (h : List.Forall₂ rel u v) : AlikeWords rel {u} {v} :=
  ⟨fun _ hx => ⟨v, rfl, mem_word.mp hx ▸ h⟩, fun _ hx => ⟨u, rfl, mem_word.mp hx ▸ h⟩⟩

theorem AlikeWords.add (h : AlikeWords rel L M) (h' : AlikeWords rel L' M') : AlikeWords rel (L + L') (M + M') := by
  constructor
  · intro u hu
    rcases (Language.mem_add _ _ _).mp hu with hu | hu
    · obtain ⟨v, hv, huv⟩ := h.1 u hu
      exact ⟨v, Or.inl hv, huv⟩
    · obtain ⟨v, hv, huv⟩ := h'.1 u hu
      exact ⟨v, Or.inr hv, huv⟩
  · intro v hv
    rcases (Language.mem_add _ _ _).mp hv with hv | hv
    · obtain ⟨u, hu, huv⟩ := h.2 v hv
      exact ⟨u, Or.inl hu, huv⟩
    · obtain ⟨u, hu, huv⟩ := h'.2 v hv
      exact ⟨u, Or.inr hu, huv⟩

theorem AlikeWords.mul (h : AlikeWords rel L M) (h' : AlikeWords rel L' M') : AlikeWords rel (L * L') (M * M') := by
  constructor
  · intro w hw
    obtain ⟨u, hu, u', hu', rfl⟩ := Language.mem_mul.mp hw
    obtain ⟨v, hv, huv⟩ := h.1 u hu
    obtain ⟨v', hv', huv'⟩ := h'.1 u' hu'
    exact ⟨v ++ v', Language.mem_mul.mpr ⟨v, hv, v', hv', rfl⟩, List.rel_append huv huv'⟩
  · intro w hw
    obtain ⟨v, hv, v', hv', rfl⟩ := Language.mem_mul.mp hw
    obtain ⟨u, hu, huv⟩ := h.2 v hv
    obtain ⟨u', hu', huv'⟩ := h'.2 v' hv'
    exact ⟨u ++ u', Language.mem_mul.mpr ⟨u, hu, u', hu', rfl⟩, List.rel_append huv huv'⟩

/-- One round more. -/
theorem kstar_cons {K : Language α} {u w : List α} (hu : u ∈ K) (hw : w ∈ K∗) : u ++ w ∈ K∗ := by
  obtain ⟨ws, rfl, hws⟩ := Language.mem_kstar.mp hw
  refine Language.mem_kstar.mpr ⟨u :: ws, rfl, fun y hy => ?_⟩
  rcases List.mem_cons.mp hy with rfl | hy
  · exact hu
  · exact hws y hy

theorem AlikeWords.kstar (h : AlikeWords rel L M) : AlikeWords rel L∗ M∗ := by
  constructor
  · intro w hw
    obtain ⟨us, rfl, hus⟩ := Language.mem_kstar.mp hw
    clear hw
    induction us with
    | nil => exact ⟨[], Language.nil_mem_kstar _, List.Forall₂.nil⟩
    | cons u us ih =>
      obtain ⟨v, hv, huv⟩ := h.1 u (hus u List.mem_cons_self)
      obtain ⟨vs, hvs, huvs⟩ := ih fun y hy => hus y (List.mem_cons_of_mem _ hy)
      exact ⟨v ++ vs, kstar_cons hv hvs, List.rel_append huv huvs⟩
  · intro w hw
    obtain ⟨vs, rfl, hvs⟩ := Language.mem_kstar.mp hw
    clear hw
    induction vs with
    | nil => exact ⟨[], Language.nil_mem_kstar _, List.Forall₂.nil⟩
    | cons v vs ih =>
      obtain ⟨u, hu, huv⟩ := h.2 v (hvs v List.mem_cons_self)
      obtain ⟨us, hus, huvs⟩ := ih fun y hy => hvs y (List.mem_cons_of_mem _ hy)
      exact ⟨u ++ us, kstar_cons hu hus, List.rel_append huv huvs⟩

end

namespace Ways

/-- Falling out and leaving are matched, each by the same. -/
structure Alike (rel : α → β → Prop) (R : Ways α) (S : Ways β) : Prop where
  falls : AlikeWords rel R.falls S.falls
  leaves : AlikeWords rel R.leaves S.leaves

namespace Alike

variable {rel : α → β → Prop} {R R' : Ways α} {S S' : Ways β}

theorem word {u : List α} {v : List β} (h : List.Forall₂ rel u v) : Alike rel (.word u) (.word v) := ⟨.word h, .zero⟩

theorem leave {u : List α} {v : List β} (h : List.Forall₂ rel u v) : Alike rel (.leave u) (.leave v) := ⟨.zero, .word h⟩

theorem seq (h : Alike rel R S) (h' : Alike rel R' S') : Alike rel (R.seq R') (S.seq S') :=
  ⟨h.falls.mul h'.falls, h.leaves.add (h.falls.mul h'.leaves)⟩

theorem choice (h : Alike rel R S) (h' : Alike rel R' S') : Alike rel (R.choice R') (S.choice S') :=
  ⟨h.falls.add h'.falls, h.leaves.add h'.leaves⟩

theorem loop (h : Alike rel R S) : Alike rel R.loop S.loop :=
  ⟨h.falls.kstar, h.falls.kstar.mul h.leaves⟩

/-- Every way to the end, matched. -/
theorem all (h : Alike rel R S) : AlikeWords rel R.all S.all := h.falls.add h.leaves

end Alike

end Ways

end OwnNet.Graph
