/-
  OwnNet.Graph.Search — a depth-first search with an explicit stack and a set of seen
  nodes, over any node type and successor function.

  The stack's top is the head of the list. A popped node already seen is dropped; any
  other is marked seen and its successors are pushed in order, so the last of them is
  popped next. The loop is bounded by a count of the pushes still to come: `univ` lists
  (at least) the nodes that have successors.

  Proved:
  - `mem_reachable`: the nodes seen when the search ends are exactly those reachable from
    the start.
  - `searchE_ok`: a search whose looks may fail comes to its end where none in its reach
    does.
-/

import Mathlib.Algebra.Order.Ring.Nat
import Mathlib.Logic.Relation
import Mathlib.Data.List.Basic

namespace OwnNet.Graph

variable {α : Type} [DecidableEq α]

/-- `b` is reachable from `a` along `succ`. -/
def Reaches (succ : α → List α) : α → α → Prop := Relation.ReflTransGen fun a b => b ∈ succ a

def search (succ : α → List α) : Nat → List α → List α → List α
  | 0, _, seen => seen
  | _ + 1, [], seen => seen
  | n + 1, t :: stack, seen =>
    if t ∈ seen then search succ n stack seen
    else search succ n ((succ t).reverse ++ stack) (t :: seen)

/-- The pushes a search may still make: those of the nodes not yet seen. -/
def pushes (succ : α → List α) (univ seen : List α) : Nat :=
  ((univ.filter (· ∉ seen)).map fun t => (succ t).length).sum

def reachable (succ : α → List α) (univ start : List α) : List α :=
  search succ (start.length + pushes succ univ []) start.reverse []

/-! ## The loop's bound -/

theorem pushes_cons_le (succ : α → List α) (univ seen : List α) (t : α) :
    pushes succ univ (t :: seen) ≤ pushes succ univ seen := by
  unfold pushes
  induction univ with
  | nil => simp
  | cons u univ ih =>
    simp only [List.filter_cons, List.mem_cons, not_or, decide_eq_true_eq]
    by_cases hs : u ∈ seen
    · simpa [hs] using ih
    · by_cases ht : u = t
      · simp only [ht, not_true_eq_false, false_and, if_false] at ih ⊢
        subst ht
        simp only [hs, not_false_eq_true, if_true, List.map_cons, List.sum_cons]
        simp only [List.mem_cons, not_or] at ih
        omega
      · simp only [ht, hs, not_false_eq_true, and_self, if_true, List.map_cons, List.sum_cons]
        simp only [List.mem_cons, not_or] at ih
        omega

theorem pushes_cons_lt (succ : α → List α) {univ seen : List α} {t : α} (hu : t ∈ univ) (hs : t ∉ seen) :
    pushes succ univ (t :: seen) + (succ t).length ≤ pushes succ univ seen := by
  induction univ with
  | nil => cases hu
  | cons u univ ih =>
    by_cases e : u = t
    · subst e
      have hle := pushes_cons_le succ univ seen u
      unfold pushes at hle ⊢
      simp only [List.filter_cons, List.mem_cons, true_or, not_true_eq_false, decide_false, Bool.false_eq_true,
        if_false, hs, not_false_eq_true, decide_true, if_true, List.map_cons, List.sum_cons]
      simp only [List.mem_cons] at hle
      omega
    · have hih := ih (by rcases List.mem_cons.mp hu with h | h; exact absurd h.symm e; exact h)
      unfold pushes at hih ⊢
      by_cases hus : u ∈ seen
      · simpa [List.filter_cons, hus] using hih
      · simp only [List.filter_cons, List.mem_cons, e, hus, or_self, not_false_eq_true, decide_true, if_true,
          List.map_cons, List.sum_cons]
        simp only [List.mem_cons] at hih
        omega

/-- Looking at a node not yet seen pays for the pushes it makes. -/
theorem pushes_look (succ : α → List α) {univ : List α} (hu : ∀ t, succ t ≠ [] → t ∈ univ) {seen : List α} {t : α} (hs : t ∉ seen)
    (stack : List α) : ((succ t).reverse ++ stack).length + pushes succ univ
    (t :: seen) ≤ stack.length + pushes succ univ seen := by
  rw [List.length_append, List.length_reverse]
  by_cases hne : succ t = []
  · have := pushes_cons_le succ univ seen t
    rw [hne, List.length_nil]
    omega
  · have := pushes_cons_lt succ (hu t hne) hs
    omega

/-! ## What the search sees -/

theorem search_sound (succ : α → List α) {P : α → Prop} (hP : ∀ a, P a → ∀ b ∈ succ a, P b) :
    ∀ n stack seen, (∀ t ∈ stack, P t) → (∀ t ∈ seen, P t) → ∀ t ∈ search succ n stack seen, P t := by
  intro n
  induction n with
  | zero => intro stack seen _ hs t ht; exact hs t ht
  | succ n ih =>
    intro stack seen hst hs
    cases stack with
    | nil => intro t ht; exact hs t ht
    | cons a stack =>
      have ha : P a := hst a List.mem_cons_self
      have hrest : ∀ t ∈ stack, P t := fun t h => hst t (List.mem_cons_of_mem _ h)
      simp only [search]
      split
      · exact ih stack seen hrest hs
      · refine ih _ _ ?_ ?_
        · intro t ht
          rcases List.mem_append.mp ht with ht | ht
          · exact hP a ha t (List.mem_reverse.mp ht)
          · exact hrest t ht
        · intro t ht
          rcases List.mem_cons.mp ht with rfl | ht
          · exact ha
          · exact hs t ht

/-- With fuel for the pushes still to come, the search keeps what it has, takes in the
    whole stack, and ends closed under `succ`. -/
theorem search_complete (succ : α → List α) {univ : List α} (hu : ∀ t, succ t ≠ [] → t ∈ univ) :
    ∀ n stack seen, stack.length + pushes succ univ seen ≤ n →
      (∀ a ∈ seen, ∀ b ∈ succ a, b ∈ seen ∨ b ∈ stack) →
      (∀ t ∈ seen, t ∈ search succ n stack seen) ∧ (∀ t ∈ stack, t ∈ search succ n stack seen) ∧
        ∀ a ∈ search succ n stack seen, ∀ b ∈ succ a, b ∈ search succ n stack seen := by
  intro n
  induction n with
  | zero =>
    intro stack seen hn hc
    have hst : stack = [] := List.eq_nil_of_length_eq_zero (by omega)
    subst hst
    refine ⟨fun t h => h, fun t h => absurd h List.not_mem_nil, fun a ha b hb => ?_⟩
    rcases hc a ha b hb with h | h
    · exact h
    · cases h
  | succ n ih =>
    intro stack seen hn hc
    cases stack with
    | nil =>
      refine ⟨fun t h => h, fun t h => absurd h List.not_mem_nil, fun a ha b hb => ?_⟩
      rcases hc a ha b hb with h | h
      · exact h
      · cases h
    | cons t stack =>
      simp only [List.length_cons] at hn
      by_cases hs : t ∈ seen
      · have hstep : search succ (n + 1) (t :: stack) seen = search succ n stack seen := by
          simp only [search, hs, if_true]
        rw [hstep]
        obtain ⟨h1, h2, h3⟩ := ih stack seen (by omega) (fun a ha b hb => by
          rcases hc a ha b hb with h | h
          · exact Or.inl h
          · rcases List.mem_cons.mp h with rfl | h
            · exact Or.inl hs
            · exact Or.inr h)
        refine ⟨h1, fun u hu' => ?_, h3⟩
        rcases List.mem_cons.mp hu' with rfl | h
        · exact h1 _ hs
        · exact h2 u h
      · have hstep : search succ (n + 1) (t :: stack) seen
            = search succ n ((succ t).reverse ++ stack) (t :: seen) := by
          simp only [search, hs, if_false]
        rw [hstep]
        have hlen : ((succ t).reverse ++ stack).length + pushes succ univ (t :: seen) ≤ n := by
          have := pushes_look succ hu hs stack
          omega
        obtain ⟨h1, h2, h3⟩ := ih _ _ hlen (fun a ha b hb => by
          rcases List.mem_cons.mp ha with rfl | ha
          · exact Or.inr (List.mem_append_left _ (List.mem_reverse.mpr hb))
          · rcases hc a ha b hb with h | h
            · exact Or.inl (List.mem_cons_of_mem _ h)
            · rcases List.mem_cons.mp h with rfl | h
              · exact Or.inl List.mem_cons_self
              · exact Or.inr (List.mem_append_right _ h))
        refine ⟨fun u h => h1 u (List.mem_cons_of_mem _ h), fun u h => ?_, h3⟩
        rcases List.mem_cons.mp h with rfl | h
        · exact h1 _ List.mem_cons_self
        · exact h2 u (List.mem_append_right _ h)

/-- The nodes seen are exactly those reachable from the start. -/
theorem mem_reachable (succ : α → List α) {univ : List α} (hu : ∀ t, succ t ≠ [] → t ∈ univ) (start : List α)
    (x : α) : x ∈ reachable succ univ start ↔ ∃ s ∈ start, Reaches succ s x := by
  constructor
  · intro hx
    refine search_sound succ (P := fun t => ∃ s ∈ start, Reaches succ s t) ?_ _ _ _ ?_ ?_ x hx
    · rintro a ⟨s, hs, h⟩ b hb
      exact ⟨s, hs, h.tail hb⟩
    · intro t ht
      exact ⟨t, List.mem_reverse.mp ht, .refl⟩
    · intro t ht; cases ht
  · rintro ⟨s, hs, h⟩
    obtain ⟨-, h2, h3⟩ := search_complete succ hu (start.length + pushes succ univ []) start.reverse []
      (by simp) (fun a ha => absurd ha List.not_mem_nil)
    induction h with
    | refl => exact h2 _ (List.mem_reverse.mpr hs)
    | tail _ hb ih => exact h3 _ ih _ hb

/-! ## A search that may fail -/

section Fails

variable {ε β : Type} {look : α → Except ε (List β × List α)} {found : α → List β} {succ : α → List α} {P : α → Prop}

/-- The search where looking at a node may fail: it collects what the nodes hold. A stack
    left when the steps run out is a failure too. -/
def searchE (look : α → Except ε (List β × List α)) (late : ε) : Nat → List α → List α → List β → Except ε (List β)
  | _, [], _, out => .ok out
  | 0, _ :: _, _, _ => .error late
  | n + 1, t :: stack, seen, out =>
    if t ∈ seen then searchE look late n stack seen out
    else look t >>= fun here => searchE look late n (here.2.reverse ++ stack) (t :: seen) (here.1 ++ out)

/-- With steps for the pushes still to come, the search fails only where a look does. -/
theorem searchE_ok (late : ε) {univ : List α} (hu : ∀ t, succ t ≠ [] → t ∈ univ)
    (hlook : ∀ t, P t → look t = .ok (found t, succ t))
    (hP : ∀ t, P t → ∀ u ∈ succ t, P u) :
    ∀ n stack seen, stack.length + pushes succ univ seen ≤ n → (∀ t ∈ stack, P t) →
      searchE look late n stack seen (seen.flatMap found) = .ok ((search succ n stack seen).flatMap found) := by
  intro n
  induction n with
  | zero =>
    intro stack seen hn _
    have hst : stack = [] := List.eq_nil_of_length_eq_zero (by omega)
    subst hst
    rfl
  | succ n ih =>
    intro stack seen hn hst
    cases stack with
    | nil => rfl
    | cons t stack =>
      obtain ⟨ht, hrest⟩ := List.forall_mem_cons.mp hst
      rw [List.length_cons] at hn
      by_cases hs : t ∈ seen
      · simp only [searchE, search, hs, if_true]
        exact ih stack seen (by omega) hrest
      · simp only [searchE, search, hs, if_false, hlook t ht]
        have hlen : ((succ t).reverse ++ stack).length + pushes succ univ (t :: seen) ≤ n := by
          have := pushes_look succ hu hs stack
          omega
        refine ih _ (t :: seen) hlen fun u hu => ?_
        rcases List.mem_append.mp hu with hu | hu
        · exact hP t ht u (List.mem_reverse.mp hu)
        · exact hrest u hu

end Fails

end OwnNet.Graph
