/-
  OwnNet.Graph.Tarjan — Tarjan's components with an explicit work stack, over any node
  type. A work entry is a node and the position of its next edge; an entry popped at
  position 0 is entered (given its index, put on the component stack). A node whose
  edges are all scanned is finished: if its low link is its own index, the nodes above
  it on the component stack are popped with it as one component; its low link then
  reaches its parent.

  Both stacks have their top at the head of the list.

  Proved, for a graph whose edges stay within the listed nodes:
  - `run_topo`: every edge of an emitted component leads into that component or an
    earlier one (callees first).
  - `run_covers` / `run_nodup`: every listed node is emitted, exactly once.
  The loop's invariant is `Inv`; `low_bound` is what carries it: the low link of the
  nearest entry below a stacked node bounds every stacked target of its scanned edges.
-/

import Mathlib.Data.List.Basic
import Mathlib.Data.List.Pairwise
import Mathlib.Logic.Function.Basic
import Mathlib.Algebra.Order.BigOperators.Group.List
import Mathlib.Algebra.Order.Ring.Nat

namespace OwnNet.Graph.Tarjan

set_option linter.unusedSectionVars false

variable {α : Type} [DecidableEq α]

structure St (α : Type) where
  index : α → Option Nat
  low : α → Nat
  stack : List α
  work : List (α × Nat)
  counter : Nat
  out : List (List α)

def init : St α := ⟨fun _ => none, fun _ => 0, [], [], 0, []⟩

variable (edges : α → List α)

def enter (v : α) (s : St α) : St α :=
  { s with index := Function.update s.index v (some s.counter), low := Function.update s.low v s.counter,
           counter := s.counter + 1, stack := v :: s.stack }

/-- Pop the component rooted at `v` when `v`'s low link is its own index. -/
def popComp (v : α) (s : St α) : St α :=
  if s.index v = some (s.low v) then
    { s with stack := (s.stack.dropWhile (· ≠ v)).tail, out := s.out ++ [s.stack.takeWhile (· ≠ v) ++ [v]] }
  else s

def lowerParent (v : α) (s : St α) : St α :=
  match s.work with
  | [] => s
  | (p, _) :: _ => { s with low := Function.update s.low p (min (s.low p) (s.low v)) }

/-- One scan of the entered top entry: its next edge, or its end. -/
def advance (v : α) (pos : Nat) (rest : List (α × Nat)) (s : St α) : St α :=
  match (edges v)[pos]? with
  | some w =>
    let s := { s with work := (v, pos + 1) :: rest }
    match s.index w with
    | none => { s with work := (w, 0) :: s.work }
    | some i => if w ∈ s.stack then { s with low := Function.update s.low v (min (s.low v) i) } else s
  | none => lowerParent v { popComp v s with work := rest }

def step (s : St α) : St α :=
  match s.work with
  | [] => s
  | (v, pos) :: rest => advance edges v pos rest (if pos = 0 then enter v s else s)

def loop : Nat → St α → St α
  | 0, s => s
  | n + 1, s => if s.work.isEmpty then s else loop n (step edges s)

/-- The scans a run makes: one for each edge of each node and one for its end. -/
def scans (keys : List α) : Nat := (keys.map fun k => (edges k).length + 1).sum

def visit (fuel : Nat) (s : St α) (root : α) : St α :=
  if (s.index root).isSome then s else loop edges fuel { s with work := [(root, 0)] }

def run (keys : List α) : List (List α) := (keys.foldl (visit edges (scans edges keys)) init).out

/-! ## The invariant -/

def idx (s : St α) (x : α) : Nat := (s.index x).getD 0

/-- Edge `i` of `x` is scanned. -/
def Scanned (s : St α) (x : α) (i : Nat) : Prop := ∀ p, (x, p) ∈ s.work → i < p

/-- `g` is the nearest work entry at or below `x`. -/
structure Owner (s : St α) (g x : α) : Prop where
  mem : ∃ p, (g, p) ∈ s.work
  le : idx s g ≤ idx s x
  max : ∀ e ∈ s.work, idx s e.1 ≤ idx s x → idx s e.1 ≤ idx s g

/-- Components are emitted after every component their edges lead to. -/
def Topo (out : List (List α)) : Prop :=
  ∀ pre c post, out = pre ++ c :: post → ∀ x ∈ c, ∀ w ∈ edges x, w ∈ c ∨ w ∈ pre.flatten

/-- What holds of every state the search leaves between roots. -/
structure Books (s : St α) : Prop where
  idx_lt : ∀ x i, s.index x = some i → i < s.counter
  idx_inj : ∀ x y i, s.index x = some i → s.index y = some i → x = y
  seen : ∀ x, s.index x ≠ none ↔ x ∈ s.stack ∨ x ∈ s.out.flatten
  apart : ∀ x ∈ s.out.flatten, x ∉ s.stack
  nodup : s.out.flatten.Nodup
  topo : Topo edges s.out

/-- The loop's invariant, at states whose top entry is entered. -/
structure Inv (base : Nat) (s : St α) : Prop extends Books edges s where
  stk_ge : ∀ x ∈ s.stack, base ≤ idx s x
  stk_sorted : s.stack.Pairwise fun a b => idx s b < idx s a
  work_stk : ∀ e ∈ s.work, e.1 ∈ s.stack
  work_sorted : s.work.Pairwise fun a b => idx s b.1 < idx s a.1
  work_last : ∀ e, s.work.getLast? = some e → idx s e.1 = base
  work_pos : ∀ e ∈ s.work.tail, e.2 ≠ 0
  low_le : ∀ e ∈ s.work, base ≤ s.low e.1 ∧ s.low e.1 ≤ idx s e.1
  scan_seen : ∀ x i w, s.index x ≠ none → (edges x)[i]? = some w → Scanned s x i → s.index w ≠ none
  low_bound : ∀ x ∈ s.stack, ∀ i w, (edges x)[i]? = some w → Scanned s x i → w ∈ s.stack →
    ∀ g, Owner s g x → s.low g ≤ idx s w

variable {edges}

theorem Books.stk_seen {s : St α} (h : Books edges s) {x : α} (hx : x ∈ s.stack) : s.index x ≠ none :=
  (h.seen x).mpr (Or.inl hx)

theorem Books.index_eq {s : St α} (h : Books edges s) {x : α} (hx : x ∈ s.stack) : s.index x = some (idx s x) := by
  have := h.stk_seen hx
  unfold idx
  cases hi : s.index x with
  | none => exact absurd hi this
  | some i => rfl

theorem Books.idx_lt' {s : St α} (h : Books edges s) {x : α} (hx : x ∈ s.stack) : idx s x < s.counter :=
  h.idx_lt x _ (h.index_eq hx)

/-! ## Entering a node -/

@[simp] theorem enter_work (v : α) (s : St α) : (enter v s).work = s.work := rfl
@[simp] theorem enter_stack (v : α) (s : St α) : (enter v s).stack = v :: s.stack := rfl
@[simp] theorem enter_out (v : α) (s : St α) : (enter v s).out = s.out := rfl
@[simp] theorem enter_counter (v : α) (s : St α) : (enter v s).counter = s.counter + 1 := rfl

@[simp] theorem enter_index_self (v : α) (s : St α) : (enter v s).index v = some s.counter := by simp [enter]

theorem enter_index_ne {v x : α} (s : St α) (h : x ≠ v) : (enter v s).index x = s.index x := by
  simp [enter, Function.update_of_ne h]

theorem enter_low_ne {v x : α} (s : St α) (h : x ≠ v) : (enter v s).low x = s.low x := by
  simp [enter, Function.update_of_ne h]

@[simp] theorem enter_low_self (v : α) (s : St α) : (enter v s).low v = s.counter := by simp [enter]

@[simp] theorem enter_idx_self (v : α) (s : St α) : idx (enter v s) v = s.counter := by simp [idx]

theorem enter_idx_ne {v x : α} (s : St α) (h : x ≠ v) : idx (enter v s) x = idx s x := by
  simp [idx, enter_index_ne s h]

theorem enter_books {s : St α} {v : α} (h : Books edges s) (hv : s.index v = none) : Books edges (enter v s) := by
  have hvs : v ∉ s.stack := fun hm => h.stk_seen hm hv
  have hvo : v ∉ s.out.flatten := fun hm => (h.seen v).mpr (Or.inr hm) hv
  refine ⟨?_, ?_, ?_, ?_, h.nodup, h.topo⟩
  · intro x i hx
    by_cases e : x = v
    · subst e; simp at hx; simp only [enter_counter]; omega
    · rw [enter_index_ne s e] at hx
      have := h.idx_lt x i hx
      simp only [enter_counter]; omega
  · intro x y i hx hy
    by_cases ex : x = v
    · by_cases ey : y = v
      · rw [ex, ey]
      · subst ex
        rw [enter_index_ne s ey] at hy
        simp at hx
        have := h.idx_lt y i hy
        omega
    · rw [enter_index_ne s ex] at hx
      by_cases ey : y = v
      · subst ey
        simp at hy
        have := h.idx_lt x i hx
        omega
      · rw [enter_index_ne s ey] at hy
        exact h.idx_inj x y i hx hy
  · intro x
    by_cases e : x = v
    · subst e; simp
    · rw [enter_index_ne s e]
      simp only [enter_stack, List.mem_cons, e, false_or, enter_out]
      exact h.seen x
  · intro x hx
    simp only [enter_out] at hx
    simp only [enter_stack, List.mem_cons, not_or]
    exact ⟨fun e => hvo (e ▸ hx), h.apart x hx⟩

/-- A root's first entry, on an empty stack. -/
theorem root_inv {s : St α} {v : α} (h : Books edges s) (hs : s.stack = []) (hv : s.index v = none)
    (hc : ∀ (x : α) (i : Nat) (w : α), s.index x ≠ none → (edges x)[i]? = some w → s.index w ≠ none) :
    Inv edges s.counter (enter v { s with work := [(v, 0)] }) := by
  have hb : Books edges { s with work := [(v, 0)] } := ⟨h.idx_lt, h.idx_inj, h.seen, h.apart, h.nodup, h.topo⟩
  refine ⟨enter_books hb hv, ?_, ?_, ?_, ?_, ?_, by simp, ?_, ?_, ?_⟩
  · intro x hx
    simp only [enter_stack, hs, List.mem_singleton] at hx
    subst hx; simp
  · simp [hs]
  · intro e he
    simp only [enter_work, List.mem_singleton] at he
    subst he; simp
  · simp
  · intro e he
    simp at he
    subst he; simp
  · intro e he
    simp only [enter_work, List.mem_singleton] at he
    subst he; simp
  · intro x i w hx hi hsc
    by_cases e : x = v
    · subst e
      have := hsc 0 (by simp)
      omega
    · rw [enter_index_ne _ e] at hx
      have := hc x i w hx hi
      by_cases ew : w = v
      · subst ew; simp
      · rw [enter_index_ne _ ew]; exact this
  · intro x hx i w hi hsc
    simp only [enter_stack, hs, List.mem_singleton] at hx
    subst hx
    have := hsc 0 (by simp)
    omega

/-! ## Scanning an edge -/

section Scan

variable {base : Nat} {s : St α} {v : α} {pos : Nat} {rest : List (α × Nat)}

theorem Inv.top_stk (h : Inv edges base s) (hw : s.work = (v, pos) :: rest) : v ∈ s.stack :=
  h.work_stk (v, pos) (by rw [hw]; exact List.mem_cons_self)

theorem Inv.below_lt (h : Inv edges base s) (hw : s.work = (v, pos) :: rest) : ∀ e ∈ rest, idx s e.1 < idx s v := by
  have := h.work_sorted
  rw [hw] at this
  exact fun e he => (List.pairwise_cons.mp this).1 e he

theorem Inv.not_below (h : Inv edges base s) (hw : s.work = (v, pos) :: rest) {p : Nat} : (v, p) ∉ rest := by
  intro hm
  have := h.below_lt hw _ hm
  simp at this

/-- The top entry owns itself and all above it. -/
theorem Inv.top_owner (h : Inv edges base s) (hw : s.work = (v, pos) :: rest) {g x : α} (ho : Owner s g x)
    (hx : idx s v ≤ idx s x) : g = v := by
  obtain ⟨p, hp⟩ := ho.mem
  have hg := h.work_stk _ hp
  have hle := ho.max (v, pos) (by rw [hw]; exact List.mem_cons_self) hx
  rw [hw] at hp
  rcases List.mem_cons.mp hp with e | hp
  · exact (Prod.mk.inj e).1
  · have := h.below_lt hw _ hp
    simp only at this hle; omega

/-- Bumping the top entry's position scans one more edge. -/
theorem scanned_bump (hw : s.work = (v, pos) :: rest) {x : α} {i : Nat}
    (hs : Scanned { s with work := (v, pos + 1) :: rest } x i) : Scanned s x i ∨ (x = v ∧ i = pos) := by
  by_cases e : x = v ∧ i = pos
  · exact Or.inr e
  · left
    intro p hp
    rw [hw] at hp
    rcases List.mem_cons.mp hp with he | hp
    · obtain ⟨rfl, rfl⟩ := Prod.mk.inj he
      have := hs (p + 1) List.mem_cons_self
      have : i ≠ p := fun e' => e ⟨rfl, e'⟩
      omega
    · exact hs p (List.mem_cons_of_mem _ hp)

theorem owner_bump (hw : s.work = (v, pos) :: rest) {g x : α}
    (ho : Owner { s with work := (v, pos + 1) :: rest } g x) : Owner s g x := by
  obtain ⟨⟨p, hp⟩, hle, hmax⟩ := ho
  refine ⟨?_, hle, ?_⟩
  · rcases List.mem_cons.mp hp with e | hp
    · obtain ⟨rfl, -⟩ := Prod.mk.inj e
      exact ⟨pos, by rw [hw]; exact List.mem_cons_self⟩
    · exact ⟨p, by rw [hw]; exact List.mem_cons_of_mem _ hp⟩
  · intro e he hxe
    rw [hw] at he
    rcases List.mem_cons.mp he with rfl | he
    · exact hmax (v, pos + 1) List.mem_cons_self hxe
    · exact hmax e (List.mem_cons_of_mem _ he) hxe

/-- The scanned edge's target is seen already: the entry moves on, its low link taking
    in the target's index when the target is stacked. -/
theorem scan_old_inv (h : Inv edges base s) (hw : s.work = (v, pos) :: rest) {w : α} (he : (edges v)[pos]? = some w)
    (hs : s.index w ≠ none) {l : Nat} (hl : l ≤ s.low v) (hlb : base ≤ l) (hlw : w ∈ s.stack → l ≤ idx s w) :
    Inv edges base { s with work := (v, pos + 1) :: rest, low := Function.update s.low v l } := by
  have hlow : ∀ x, Function.update s.low v l x ≤ s.low x := by
    intro x
    by_cases e : x = v
    · subst e; simpa using hl
    · simp [Function.update_of_ne e]
  refine ⟨⟨h.idx_lt, h.idx_inj, h.seen, h.apart, h.nodup, h.topo⟩, h.stk_ge, h.stk_sorted,
    ?_, ?_, ?_, ?_, ?_, ?_, ?_⟩
  · intro e hm
    rcases List.mem_cons.mp hm with rfl | hm
    · exact h.top_stk hw
    · exact h.work_stk e (by rw [hw]; exact List.mem_cons_of_mem _ hm)
  · have := h.work_sorted
    rw [hw] at this
    exact List.pairwise_cons.mpr ⟨(List.pairwise_cons.mp this).1, (List.pairwise_cons.mp this).2⟩
  · intro e hm
    cases rest with
    | nil =>
      simp at hm; subst hm
      exact h.work_last (v, pos) (by rw [hw]; rfl)
    | cons r rest =>
      refine h.work_last e ?_
      rw [hw]
      simpa [List.getLast?_cons] using hm
  · intro e hm
    exact h.work_pos e (by rw [hw]; exact hm)
  · intro e hm
    rcases List.mem_cons.mp hm with rfl | hm
    · refine ⟨by simpa using hlb, ?_⟩
      have := (h.low_le (v, pos) (by rw [hw]; exact List.mem_cons_self)).2
      simp only [Function.update_self]
      exact Nat.le_trans hl this
    · have := h.low_le e (by rw [hw]; exact List.mem_cons_of_mem _ hm)
      have hne : e.1 ≠ v := fun e' => h.not_below hw (p := e.2) (e' ▸ hm)
      simp only [Function.update_of_ne hne]
      exact this
  · intro x i w' hx hi hsc
    rcases scanned_bump hw hsc with hsc | ⟨rfl, rfl⟩
    · exact h.scan_seen x i w' hx hi hsc
    · rw [he] at hi; cases hi; exact hs
  · intro x hx i w' hi hsc hws g ho
    have ho' : Owner s g x := owner_bump hw ⟨ho.mem, ho.le, ho.max⟩
    rcases scanned_bump hw hsc with hsc | ⟨rfl, rfl⟩
    · exact Nat.le_trans (hlow g) (h.low_bound x hx i w' hi hsc hws g ho')
    · rw [he] at hi; cases hi
      have := h.top_owner hw ho' (Nat.le_refl _)
      subst this
      simp only [Function.update_self]
      exact hlw hws

/-- The scanned edge leads to a new node: it is pushed and, at its own turn, entered. -/
theorem scan_new_inv (h : Inv edges base s) (hw : s.work = (v, pos) :: rest) {w : α} (he : (edges v)[pos]? = some w)
    (hs : s.index w = none) :
    Inv edges base (enter w { s with work := (w, 0) :: (v, pos + 1) :: rest }) := by
  have hb : Books edges { s with work := (w, 0) :: (v, pos + 1) :: rest } :=
    ⟨h.idx_lt, h.idx_inj, h.seen, h.apart, h.nodup, h.topo⟩
  have hne : ∀ x ∈ s.stack, x ≠ w := fun x hx e => h.stk_seen hx (e ▸ hs)
  have hidx : ∀ x ∈ s.stack, idx (enter w { s with work := (w, 0) :: (v, pos + 1) :: rest }) x = idx s x :=
    fun x hx => enter_idx_ne _ (hne x hx)
  have hold : ∀ e ∈ (v, pos + 1) :: rest, e.1 ∈ s.stack := by
    intro e hm
    rcases List.mem_cons.mp hm with rfl | hm
    · exact h.top_stk hw
    · exact h.work_stk e (by rw [hw]; exact List.mem_cons_of_mem _ hm)
  have hbase : base ≤ s.counter := by
    have h1 := h.stk_ge v (h.top_stk hw)
    have h2 := h.idx_lt' (h.top_stk hw)
    omega
  have hscan : ∀ {x : α} {i : Nat}, x ≠ w →
      Scanned (enter w { s with work := (w, 0) :: (v, pos + 1) :: rest }) x i →
      Scanned { s with work := (v, pos + 1) :: rest } x i :=
    fun _ hsc p hp => hsc p (List.mem_cons_of_mem _ hp)
  refine ⟨enter_books hb hs, ?_, ?_, ?_, ?_, ?_, ?_, ?_, ?_, ?_⟩
  · intro x hx
    rcases List.mem_cons.mp hx with rfl | hx
    · simpa using hbase
    · rw [hidx x hx]; exact h.stk_ge x hx
  · refine List.pairwise_cons.mpr ⟨?_, ?_⟩
    · intro x hx
      rw [hidx x hx, enter_idx_self]
      exact h.idx_lt' hx
    · refine h.stk_sorted.imp_of_mem ?_
      intro a b ha hb' hab
      rw [hidx a ha, hidx b hb']; exact hab
  · intro e hm
    rcases List.mem_cons.mp hm with rfl | hm
    · exact List.mem_cons_self
    · exact List.mem_cons_of_mem _ (hold e hm)
  · have hwork := h.work_sorted
    rw [hw] at hwork
    refine List.pairwise_cons.mpr ⟨?_, List.pairwise_cons.mpr ⟨?_, ?_⟩⟩
    · intro e hm
      rw [hidx _ (hold e hm), enter_idx_self]
      exact h.idx_lt' (hold e hm)
    · intro e hm
      rw [hidx _ (hold e (List.mem_cons_of_mem _ hm)), hidx _ (h.top_stk hw)]
      exact (List.pairwise_cons.mp hwork).1 e hm
    · refine (List.pairwise_cons.mp hwork).2.imp_of_mem ?_
      intro a b ha hb' hab
      rw [hidx _ (hold a (List.mem_cons_of_mem _ ha)), hidx _ (hold b (List.mem_cons_of_mem _ hb'))]
      exact hab
  · intro e hm
    have hm' : ((v, pos + 1) :: rest).getLast? = some e := by
      simpa [List.getLast?_cons] using hm
    rw [hidx _ (hold e (List.mem_of_getLast? hm'))]
    cases rest with
    | nil =>
      simp at hm'; subst hm'
      exact h.work_last (v, pos) (by rw [hw]; rfl)
    | cons r rest =>
      refine h.work_last e ?_
      rw [hw]
      simpa [List.getLast?_cons] using hm'
  · intro e hm
    rcases List.mem_cons.mp hm with rfl | hm
    · simp
    · exact h.work_pos e (by rw [hw]; exact hm)
  · intro e hm
    rcases List.mem_cons.mp hm with rfl | hm
    · simpa using hbase
    · rw [hidx _ (hold e hm), enter_low_ne _ (hne _ (hold e hm))]
      rcases List.mem_cons.mp hm with rfl | hm
      · exact h.low_le (v, pos) (by rw [hw]; exact List.mem_cons_self)
      · exact h.low_le e (by rw [hw]; exact List.mem_cons_of_mem _ hm)
  · intro x i w' hx hi hsc
    by_cases ew : w' = w
    · subst ew; simp
    · rw [enter_index_ne _ ew]
      by_cases ex : x = w
      · subst ex
        have := hsc 0 (by simp)
        omega
      · rw [enter_index_ne _ ex] at hx
        rcases scanned_bump hw (hscan ex hsc) with hsc | ⟨rfl, rfl⟩
        · exact h.scan_seen x i w' hx hi hsc
        · rw [he] at hi; cases hi; exact absurd rfl ew
  · intro x hx i w' hi hsc hws g ho
    rcases List.mem_cons.mp hx with rfl | hx
    · have := hsc 0 (by simp)
      omega
    have hgw : g ≠ w := by
      rintro rfl
      have := ho.le
      rw [hidx x hx, enter_idx_self] at this
      exact absurd (h.idx_lt' hx) (Nat.not_lt.mpr this)
    have ho' : Owner s g x := by
      refine @owner_bump _ _ _ v pos rest hw _ _ ⟨?_, ?_, ?_⟩
      · obtain ⟨p, hp⟩ := ho.mem
        rcases List.mem_cons.mp hp with e | hp
        · exact absurd (Prod.mk.inj e).1 hgw
        · exact ⟨p, hp⟩
      · have := ho.le
        obtain ⟨p, hp⟩ := ho.mem
        rcases List.mem_cons.mp hp with e | hp
        · exact absurd (Prod.mk.inj e).1 hgw
        · rwa [hidx x hx, hidx g (hold _ hp)] at this
      · intro e hm hle
        obtain ⟨p, hp⟩ := ho.mem
        rcases List.mem_cons.mp hp with e' | hp
        · exact absurd (Prod.mk.inj e').1 hgw
        · have := ho.max e (List.mem_cons_of_mem _ hm) (by rw [hidx x hx, hidx _ (hold e hm)]; exact hle)
          rwa [hidx g (hold _ hp), hidx _ (hold e hm)] at this
    have hgs : g ∈ s.stack := by
      obtain ⟨p, hp⟩ := ho'.mem
      exact h.work_stk _ hp
    rw [enter_low_ne _ hgw]
    rcases scanned_bump hw (hscan (hne x hx) hsc) with hsc | ⟨rfl, rfl⟩
    · have hw' : w' ≠ w := fun e => by
        have := h.scan_seen x i w' (h.stk_seen hx) hi hsc
        exact this (e ▸ hs)
      have hws' : w' ∈ s.stack := by
        rcases List.mem_cons.mp hws with e | hws
        · exact absurd e hw'
        · exact hws
      rw [hidx w' hws']
      exact h.low_bound x hx i w' hi hsc hws' g ho'
    · rw [he] at hi; cases hi
      have := h.top_owner hw ho' (Nat.le_refl _)
      subst this
      rw [enter_idx_self]
      have h1 := (h.low_le _ (by rw [hw]; exact List.mem_cons_self)).2
      have h2 := h.idx_lt' hgs
      simp only at h1 ⊢; omega

/-! ## Finishing a node -/

/-- At the top entry's end, all edges of the nodes at or above it are scanned. -/
theorem Inv.all_scanned (h : Inv edges base s) (hw : s.work = (v, pos) :: rest) (hend : (edges v)[pos]? = none)
    {x : α} (hx : idx s v ≤ idx s x) {i : Nat} {w : α} (hi : (edges x)[i]? = some w) : Scanned s x i := by
  intro p hp
  rw [hw] at hp
  rcases List.mem_cons.mp hp with e | hp
  · obtain ⟨rfl, rfl⟩ := Prod.mk.inj e
    have h1 := List.getElem?_eq_none_iff.mp hend
    have h2 := (List.getElem?_eq_some_iff.mp hi).1
    omega
  · have := h.below_lt hw _ hp
    simp only at this; omega

theorem Inv.owns_above (h : Inv edges base s) (hw : s.work = (v, pos) :: rest) {x : α} (hx : idx s v ≤ idx s x) :
    Owner s v x := by
  refine ⟨⟨pos, by rw [hw]; exact List.mem_cons_self⟩, hx, fun e he _ => ?_⟩
  rw [hw] at he
  rcases List.mem_cons.mp he with rfl | he
  · exact Nat.le_refl _
  · exact Nat.le_of_lt (h.below_lt hw e he)

/-- At the top entry's end, the nodes at or above it lead, on the stack, no lower than
    its low link, and off the stack to emitted nodes. -/
theorem Inv.closed_above (h : Inv edges base s) (hw : s.work = (v, pos) :: rest) (hend : (edges v)[pos]? = none)
    {x w : α} (hxs : x ∈ s.stack) (hx : idx s v ≤ idx s x) (hxw : w ∈ edges x) :
    w ∈ s.out.flatten ∨ (w ∈ s.stack ∧ s.low v ≤ idx s w) := by
  obtain ⟨i, hi⟩ := List.mem_iff_getElem?.mp hxw
  have hsc := h.all_scanned hw hend hx hi
  rcases (h.seen w).mp (h.scan_seen x i w (h.stk_seen hxs) hi hsc) with hws | hwo
  · exact Or.inr ⟨hws, h.low_bound x hxs i w hi hsc hws v (h.owns_above hw hx)⟩
  · exact Or.inl hwo

/-- A popped entry's edges count as scanned, and nothing else changes. -/
theorem scanned_pop (hw : s.work = (v, pos) :: rest) (hend : (edges v)[pos]? = none) {s' : St α}
    (hw' : s'.work = rest) {x : α} {i : Nat} {w : α} (hi : (edges x)[i]? = some w) (hs : Scanned s' x i) :
    Scanned s x i := by
  intro p hp
  rw [hw] at hp
  rcases List.mem_cons.mp hp with e | hp
  · obtain ⟨rfl, rfl⟩ := Prod.mk.inj e
    have h1 := List.getElem?_eq_none_iff.mp hend
    have h2 := (List.getElem?_eq_some_iff.mp hi).1
    omega
  · exact hs p (by rw [hw']; exact hp)

/-- The stack split at the top entry: the nodes above it are those of greater index. -/
theorem Inv.split (h : Inv edges base s) (hw : s.work = (v, pos) :: rest) :
    ∃ a b, s.stack = a ++ v :: b ∧ v ∉ a ∧ (∀ x ∈ a, idx s v < idx s x) ∧ ∀ x ∈ b, idx s x < idx s v := by
  obtain ⟨a, b, hab, hva⟩ := List.eq_append_cons_of_mem (h.top_stk hw)
  have hp := h.stk_sorted
  rw [hab, List.pairwise_append] at hp
  exact ⟨a, b, hab, hva, fun x hx => hp.2.2 x hx v List.mem_cons_self, (List.pairwise_cons.mp hp.2.1).1⟩

theorem popComp_eq {a b : List α} (hab : s.stack = a ++ v :: b) (hva : v ∉ a) (hr : s.index v = some (s.low v)) :
    popComp v s = { s with stack := b, out := s.out ++ [a ++ [v]] } := by
  have ha : ∀ x ∈ a, (fun x => decide (x ≠ v)) x = true := by
    intro x hx
    simp only [decide_eq_true_eq]
    rintro rfl
    exact hva hx
  simp only [popComp, hr, if_true, hab, List.dropWhile_append_of_pos ha, List.takeWhile_append_of_pos ha]
  simp

/-- Popping the top entry's component keeps the books. -/
theorem pop_books (h : Inv edges base s) (hw : s.work = (v, pos) :: rest) (hend : (edges v)[pos]? = none)
    (hr : s.index v = some (s.low v)) {a b : List α} (hab : s.stack = a ++ v :: b)
    (ha : ∀ x ∈ a, idx s v < idx s x) (hb : ∀ x ∈ b, idx s x < idx s v) :
    Books edges { s with stack := b, out := s.out ++ [a ++ [v]], work := rest } := by
  have hlow : s.low v = idx s v := by simp [idx, hr]
  have hmem : ∀ x, x ∈ s.stack ↔ x ∈ a ++ [v] ∨ x ∈ b := by
    intro x; rw [hab]; simp [or_assoc]
  have hge : ∀ x ∈ a ++ [v], idx s v ≤ idx s x := by
    intro x hx
    rcases List.mem_append.mp hx with hx | hx
    · exact Nat.le_of_lt (ha x hx)
    · exact Nat.le_of_eq (by rw [List.mem_singleton.mp hx])
  have hnd : s.stack.Nodup := h.stk_sorted.imp (fun {x y} hlt e => by rw [e] at hlt; exact Nat.lt_irrefl _ hlt)
  refine ⟨h.idx_lt, h.idx_inj, ?_, ?_, ?_, ?_⟩
  · intro x
    rw [h.seen x, hmem x]
    simp only [List.flatten_append, List.flatten_cons, List.flatten_nil, List.append_nil, List.mem_append]
    constructor
    · rintro ((h' | h') | h')
      · exact Or.inr (Or.inr h')
      · exact Or.inl h'
      · exact Or.inr (Or.inl h')
    · rintro (h' | h' | h')
      · exact Or.inl (Or.inr h')
      · exact Or.inr h'
      · exact Or.inl (Or.inl h')
  · intro x hx hxb
    simp only [List.flatten_append, List.flatten_cons, List.flatten_nil, List.append_nil] at hx
    rcases List.mem_append.mp hx with hx | hx
    · exact h.apart x hx ((hmem x).mpr (Or.inr hxb))
    · have h1 := hge x hx
      have h2 := hb x hxb
      omega
  · simp only [List.flatten_append, List.flatten_cons, List.flatten_nil, List.append_nil]
    rw [List.nodup_append]
    refine ⟨h.nodup, ?_, ?_⟩
    · refine hnd.sublist ?_
      rw [hab]
      simp
    · intro x hx y hy e
      subst e
      exact h.apart x hx ((hmem x).mpr (Or.inl hy))
  · intro pre c post heq x hx w hxw
    have hcase : (∃ post', s.out = pre ++ c :: post') ∨ (pre = s.out ∧ c = a ++ [v]) := by
      rcases List.append_eq_append_iff.mp heq with ⟨l, hl, hl'⟩ | ⟨l, hl, hl'⟩
      · cases l with
        | nil =>
          right
          simp at hl hl'
          exact ⟨hl, hl'.1.symm⟩
        | cons d l => simp at hl'
      · cases l with
        | nil =>
          right
          simp at hl hl'
          exact ⟨hl.symm, hl'.1⟩
        | cons d l =>
          left
          simp at hl'
          exact ⟨l, by rw [hl, hl'.1]⟩
    rcases hcase with ⟨post', hp⟩ | ⟨rfl, rfl⟩
    · exact h.topo pre c post' hp x hx w hxw
    · have hxs : x ∈ s.stack := (hmem x).mpr (Or.inl hx)
      rcases h.closed_above hw hend hxs (hge x hx) hxw with hwo | ⟨hws, hle⟩
      · exact Or.inr hwo
      · rcases (hmem w).mp hws with hwa | hwb
        · exact Or.inl hwa
        · have := hb w hwb
          omega

theorem lowered_le (low : α → Nat) (p v x : α) : Function.update low p (min (low p) (low v)) x ≤ low x := by
  by_cases e : x = p
  · subst e; simp
  · simp [Function.update_of_ne e]

/-- The parent's low link, once it has taken in `v`'s, is as good as it was. -/
theorem Inv.lowered {p : α} {q : Nat} {rest' : List (α × Nat)} (h : Inv edges base s) (hw : s.work = (v, pos) :: (p, q) :: rest')
    {e : α × Nat} (he : e ∈ (p, q) :: rest') :
    base ≤ Function.update s.low p (min (s.low p) (s.low v)) e.1 ∧ Function.update s.low p
        (min (s.low p) (s.low v)) e.1 ≤ idx s e.1 := by
  have hws : ∀ e ∈ (p, q) :: rest', e ∈ s.work := fun e he => by rw [hw]; exact List.mem_cons_of_mem _ he
  have hlp := h.low_le (p, q) (hws _ List.mem_cons_self)
  have hlv := h.low_le (v, pos) (by rw [hw]; exact List.mem_cons_self)
  have hle := h.low_le e (hws e he)
  refine ⟨?_, Nat.le_trans (lowered_le s.low p v e.1) hle.2⟩
  by_cases e' : e.1 = p
  · rw [e', Function.update_self]
    exact Nat.le_min.mpr ⟨hlp.1, hlv.1⟩
  · rw [Function.update_of_ne e']
    exact hle.1

theorem last_below {p : α} {q : Nat} {rest' : List (α × Nat)} (hw : s.work = (v, pos) :: (p, q) :: rest')
    {e : α × Nat} (he : ((p, q) :: rest').getLast? = some e) : s.work.getLast? = some e := by
  rw [hw]
  simpa [List.getLast?_cons] using he

/-- A finished component leaves the loop's invariant to the parent's entry. -/
theorem finish_pop_inv (h : Inv edges base s) (hend : (edges v)[pos]? = none) (hr : s.index v = some (s.low v))
    {p : α} {q : Nat} {rest' : List (α × Nat)} (hw : s.work = (v, pos) :: (p, q) :: rest') :
    Inv edges base (lowerParent v { popComp v s with work := (p, q) :: rest' }) := by
  obtain ⟨a, b, hab, hva, ha, hb⟩ := h.split hw
  rw [popComp_eq hab hva hr]
  have hbk := pop_books h hw hend hr hab ha hb
  have hbs : ∀ x ∈ b, x ∈ s.stack := fun x hx => by rw [hab]; simp [hx]
  have hws : ∀ e ∈ (p, q) :: rest', e ∈ s.work := fun e he => by rw [hw]; exact List.mem_cons_of_mem _ he
  have hpv : idx s p < idx s v := h.below_lt hw (p, q) List.mem_cons_self
  have hlp := h.low_le (p, q) (hws _ List.mem_cons_self)
  have hlv := h.low_le (v, pos) (by rw [hw]; exact List.mem_cons_self)
  have hwork := h.work_sorted
  rw [hw] at hwork
  have hne : ∀ x ∈ b, x ≠ v := fun x hx e => by
    have := hb x hx
    rw [e] at this
    exact Nat.lt_irrefl _ this
  refine ⟨⟨hbk.idx_lt, hbk.idx_inj, hbk.seen, hbk.apart, hbk.nodup, hbk.topo⟩, ?_, ?_, ?_, ?_, ?_, ?_, ?_, ?_, ?_⟩
  · exact fun x hx => h.stk_ge x (hbs x hx)
  · have := h.stk_sorted
    rw [hab, List.pairwise_append] at this
    exact (List.pairwise_cons.mp this.2.1).2
  · intro e he
    have hes := h.work_stk e (hws e he)
    rw [hab] at hes
    have hlt : idx s e.1 < idx s v := h.below_lt hw e he
    rcases List.mem_append.mp hes with hes | hes
    · have := ha _ hes
      omega
    · rcases List.mem_cons.mp hes with e' | hes
      · rw [e'] at hlt; exact absurd hlt (Nat.lt_irrefl _)
      · exact hes
  · exact (List.pairwise_cons.mp hwork).2
  · exact fun e he => h.work_last e (last_below hw he)
  · intro e he
    exact h.work_pos e (by rw [hw]; exact List.mem_cons_of_mem _ he)
  · exact fun e he => h.lowered hw he
  · intro x i w hx hi hsc
    exact h.scan_seen x i w hx hi (scanned_pop hw hend rfl hi hsc)
  · intro x hx i w hi hsc hwb g ho
    have hsc' : Scanned s x i := scanned_pop hw hend rfl hi hsc
    have ho' : Owner s g x := by
      refine ⟨?_, ho.le, fun e he hle => ?_⟩
      · obtain ⟨r, hr'⟩ := ho.mem
        exact ⟨r, hws _ hr'⟩
      · rw [hw] at he
        rcases List.mem_cons.mp he with rfl | he
        · have := hb x hx
          simp only at hle; omega
        · exact ho.max e he hle
    exact Nat.le_trans (lowered_le s.low p v g) (h.low_bound x (hbs x hx) i w hi hsc' (hbs w hwb) g ho')

/-- A finished node that roots no component has a parent entry, which takes over its
    part of the stack and its low link. -/
theorem finish_keep_inv (h : Inv edges base s) (hw : s.work = (v, pos) :: rest) (hend : (edges v)[pos]? = none)
    (hr : s.index v ≠ some (s.low v)) :
    ∃ p q rest', rest = (p, q) :: rest' ∧ Inv edges base (lowerParent v { popComp v s with work := rest }) := by
  have hlv := h.low_le (v, pos) (by rw [hw]; exact List.mem_cons_self)
  cases rest with
  | nil =>
    have := h.work_last (v, pos) (by rw [hw]; rfl)
    simp only at this hlv
    exact absurd (by rw [h.index_eq (h.top_stk hw)]; congr 1; omega) hr
  | cons r rest' =>
  obtain ⟨p, q⟩ := r
  refine ⟨p, q, rest', rfl, ?_⟩
  have hpc : popComp v s = s := by simp [popComp, hr]
  rw [hpc]
  have hws : ∀ e ∈ (p, q) :: rest', e ∈ s.work := fun e he => by rw [hw]; exact List.mem_cons_of_mem _ he
  have hlp := h.low_le (p, q) (hws _ List.mem_cons_self)
  have hwork := h.work_sorted
  rw [hw] at hwork
  have hwork' := (List.pairwise_cons.mp hwork).2
  refine ⟨⟨h.idx_lt, h.idx_inj, h.seen, h.apart, h.nodup, h.topo⟩, h.stk_ge, h.stk_sorted, ?_, hwork', ?_, ?_, ?_, ?_, ?_⟩
  · exact fun e he => h.work_stk e (hws e he)
  · exact fun e he => h.work_last e (last_below hw he)
  · intro e he
    exact h.work_pos e (by rw [hw]; exact List.mem_cons_of_mem _ he)
  · exact fun e he => h.lowered hw he
  · intro x i w hx hi hsc
    exact h.scan_seen x i w hx hi (scanned_pop hw hend rfl hi hsc)
  · intro x hx i w hi hsc hws' g ho
    have hsc' : Scanned s x i := scanned_pop hw hend rfl hi hsc
    by_cases hxv : idx s v ≤ idx s x
    · -- `x` was `v`'s: its owner is now the parent, whose low link took in `v`'s
      have hpx : idx s p ≤ idx s x :=
        Nat.le_trans (Nat.le_of_lt (h.below_lt hw (p, q) List.mem_cons_self)) hxv
      have hgp : g = p := by
        obtain ⟨r, hr'⟩ := ho.mem
        have hle := ho.max (p, q) List.mem_cons_self hpx
        rcases List.mem_cons.mp hr' with e | hr'
        · exact (Prod.mk.inj e).1
        · have := (List.pairwise_cons.mp hwork').1 _ hr'
          exact absurd hle (Nat.not_le.mpr this)
      subst hgp
      have hb := h.low_bound x hx i w hi hsc' hws' v (h.owns_above hw hxv)
      show Function.update s.low g (min (s.low g) (s.low v)) g ≤ idx s w
      rw [Function.update_self]; omega
    · have ho' : Owner s g x := by
        refine ⟨?_, ho.le, fun e he hle => ?_⟩
        · obtain ⟨r, hr'⟩ := ho.mem
          exact ⟨r, hws _ hr'⟩
        · rw [hw] at he
          rcases List.mem_cons.mp he with rfl | he
          · exact absurd hle hxv
          · exact ho.max e he hle
      exact Nat.le_trans (lowered_le s.low p v g) (h.low_bound x hx i w hi hsc' hws' g ho')

/-- Between roots: nothing stacked, and every edge of a seen node leads to a seen one. -/
structure Settled (edges : α → List α) (s : St α) : Prop extends Books edges s where
  stk : s.stack = []
  closed : ∀ (x : α) (i : Nat) (w : α), s.index x ≠ none → (edges x)[i]? = some w → s.index w ≠ none

/-- The root's finish pops all that is stacked. -/
theorem finish_root_settled (h : Inv edges base s) (hw : s.work = [(v, pos)]) (hend : (edges v)[pos]? = none) :
    Settled edges (lowerParent v { popComp v s with work := [] }) := by
  have hr : s.index v = some (s.low v) := by
    by_contra hr
    obtain ⟨p, q, rest', he, -⟩ := finish_keep_inv h hw hend hr
    cases he
  obtain ⟨a, b, hab, hva, ha, hb⟩ := h.split hw
  rw [popComp_eq hab hva hr]
  have hbk := pop_books h hw hend hr hab ha hb
  have hb0 : b = [] := by
    cases b with
    | nil => rfl
    | cons x b =>
      have h1 := hb x List.mem_cons_self
      have h2 := h.stk_ge x (by rw [hab]; simp)
      have h3 := h.work_last (v, pos) (by rw [hw]; rfl)
      simp only at h3; omega
  subst hb0
  refine ⟨⟨hbk.idx_lt, hbk.idx_inj, hbk.seen, hbk.apart, hbk.nodup, hbk.topo⟩, rfl, ?_⟩
  intro x i w hx hi
  have hnone : Scanned { s with work := [] } x i := fun p hp => absurd hp List.not_mem_nil
  exact h.scan_seen x i w hx hi (scanned_pop hw hend rfl hi hnone)

end Scan

/-! ## The loop -/

/-- The loop's states: done, or with a top entry that is entered or about to be. -/
def Head (edges : α → List α) (base : Nat) (s : St α) : Prop :=
  (s.work = [] ∧ Settled edges s) ∨
    ∃ v pos rest, s.work = (v, pos) :: rest ∧ Inv edges base (if pos = 0 then enter v s else s)

theorem advance_head {base : Nat} {s : St α} {v : α} {pos : Nat} {rest : List (α × Nat)} (h : Inv edges base s)
    (hw : s.work = (v, pos) :: rest) : Head edges base (advance edges v pos rest s) := by
  unfold advance
  split
  · rename_i w he
    dsimp only
    split
    · rename_i hs
      exact Or.inr ⟨w, 0, _, rfl, by simpa using scan_new_inv h hw he hs⟩
    · rename_i i hs
      have hne : s.index w ≠ none := by
        show ({ s with work := (v, pos + 1) :: rest } : St α).index w ≠ none
        rw [hs]; simp
      have hlv := h.low_le (v, pos) (by rw [hw]; exact List.mem_cons_self)
      have hi : idx s w = i := by
        have : s.index w = some i := hs
        simp [idx, this]
      split
      · rename_i hws
        refine Or.inr ⟨v, pos + 1, rest, rfl, ?_⟩
        simp only [Nat.add_eq_zero_iff, Nat.one_ne_zero, and_false, if_false]
        have hge := h.stk_ge w hws
        exact scan_old_inv h hw he hne (l := min (s.low v) i) (by omega) (by simp only at hlv; omega)
          (fun _ => by omega)
      · rename_i hws
        refine Or.inr ⟨v, pos + 1, rest, rfl, ?_⟩
        simp only [Nat.add_eq_zero_iff, Nat.one_ne_zero, and_false, if_false]
        have := scan_old_inv h hw he hne (l := s.low v) (Nat.le_refl _) hlv.1 (fun hc => absurd hc hws)
        simpa using this
  · rename_i hend
    cases rest with
    | nil => exact Or.inl ⟨by simp [lowerParent], finish_root_settled h hw hend⟩
    | cons r rest' =>
      obtain ⟨p, q⟩ := r
      have hq : q ≠ 0 := h.work_pos (p, q) (by rw [hw]; exact List.mem_cons_self)
      refine Or.inr ⟨p, q, rest', rfl, ?_⟩
      rw [if_neg hq]
      by_cases hr : s.index v = some (s.low v)
      · exact finish_pop_inv h hend hr hw
      · obtain ⟨-, -, -, -, hinv⟩ := finish_keep_inv h hw hend hr
        exact hinv

theorem step_head {base : Nat} {s : St α} (h : Head edges base s) : Head edges base (step edges s) := by
  rcases h with ⟨hw, hs⟩ | ⟨v, pos, rest, hw, hinv⟩
  · have : step edges s = s := by simp [step, hw]
    rw [this]; exact Or.inl ⟨hw, hs⟩
  · have : step edges s = advance edges v pos rest (if pos = 0 then enter v s else s) := by simp only [step, hw]
    rw [this]
    refine advance_head hinv ?_
    split <;> simpa using hw

/-! ## Termination -/

variable (edges) in
/-- What one step does to the index and the work stack. -/
theorem step_shape {s : St α} {v : α} {pos : Nat} {rest : List (α × Nat)} (hw : s.work = (v, pos) :: rest) :
    (step edges s).index = (if pos = 0 then enter v s else s).index ∧
      ((pos < (edges v).length ∧ (step edges s).work = (v, pos + 1) :: rest) ∨
        (∃ w, (edges v)[pos]? = some w ∧ (if pos = 0 then enter v s else s).index w = none ∧
          (step edges s).work = (w, 0) :: (v, pos + 1) :: rest) ∨
        ((edges v)[pos]? = none ∧ (step edges s).work = rest)) := by
  simp only [step, hw]
  generalize (if pos = 0 then enter v s else s) = t
  unfold advance
  split
  · rename_i w he
    dsimp only
    split
    · rename_i hs
      exact ⟨rfl, Or.inr (Or.inl ⟨w, he, hs, rfl⟩)⟩
    · have hlt := (List.getElem?_eq_some_iff.mp he).1
      split
      · exact ⟨rfl, Or.inl ⟨hlt, rfl⟩⟩
      · exact ⟨rfl, Or.inl ⟨hlt, rfl⟩⟩
  · rename_i hend
    have hlp : ∀ t : St α, (lowerParent v t).index = t.index ∧ (lowerParent v t).work = t.work := by
      intro t
      unfold lowerParent
      split <;> exact ⟨rfl, rfl⟩
    have hpc : (popComp v t).index = t.index := by unfold popComp; split <;> rfl
    refine ⟨(hlp _).1.trans hpc, Or.inr (Or.inr ⟨hend, (hlp _).2⟩)⟩

/-- The scans a node still owes: all of them until it is entered, then those from its
    entry's position on. -/
def owed (edges : α → List α) (s : St α) (x : α) : Nat :=
  if s.index x = none then (edges x).length + 1
  else match s.work.find? (fun e => e.1 = x) with
    | none => 0
    | some e => (edges x).length + 1 - e.2

def total (edges : α → List α) (keys : List α) (s : St α) : Nat := (keys.map (owed edges s)).sum

theorem owed_le (s : St α) (x : α) : owed edges s x ≤ (edges x).length + 1 := by
  unfold owed
  split
  · exact Nat.le_refl _
  · split
    · exact Nat.zero_le _
    · omega

theorem total_le (keys : List α) (s : St α) : total edges keys s ≤ scans edges keys :=
  List.sum_le_sum fun x _ => owed_le s x

/-- Work entries and seen nodes are listed nodes, and no entry is past its end. -/
structure Within (edges : α → List α) (keys : List α) (s : St α) : Prop where
  work_mem : ∀ e ∈ s.work, e.1 ∈ keys
  work_le : ∀ e ∈ s.work, e.2 ≤ (edges e.1).length
  seen_mem : ∀ x, s.index x ≠ none → x ∈ keys

theorem step_seen {s : St α} {v : α} {pos : Nat} {rest : List (α × Nat)} (hw : s.work = (v, pos) :: rest) (x : α) :
    (step edges s).index x ≠ none ↔ s.index x ≠ none ∨ (pos = 0 ∧ x = v) := by
  rw [(step_shape edges hw).1]
  by_cases hp : pos = 0
  · rw [if_pos hp]
    by_cases e : x = v
    · simp [e, hp]
    · simp [enter_index_ne s e, e]
  · simp [hp]

theorem step_within {keys : List α} (hk : ∀ x ∈ keys, ∀ w ∈ edges x, w ∈ keys) {s : St α}
    (h : Within edges keys s) : Within edges keys (step edges s) := by
  cases hw : s.work with
  | nil =>
    have : step edges s = s := by simp [step, hw]
    rw [this]; exact h
  | cons e rest =>
    obtain ⟨v, pos⟩ := e
    have hv : v ∈ keys := h.work_mem (v, pos) (by rw [hw]; exact List.mem_cons_self)
    have hrest : ∀ e ∈ rest, e.1 ∈ keys ∧ e.2 ≤ (edges e.1).length := fun e he =>
      ⟨h.work_mem e (by rw [hw]; exact List.mem_cons_of_mem _ he),
        h.work_le e (by rw [hw]; exact List.mem_cons_of_mem _ he)⟩
    have hwork : ∀ e ∈ (step edges s).work, e.1 ∈ keys ∧ e.2 ≤ (edges e.1).length := by
      intro e he
      rcases (step_shape edges hw).2 with ⟨hlt, h'⟩ | ⟨w, hsw, -, h'⟩ | ⟨-, h'⟩
      · rw [h'] at he
        rcases List.mem_cons.mp he with rfl | he
        · exact ⟨hv, hlt⟩
        · exact hrest e he
      · rw [h'] at he
        rcases List.mem_cons.mp he with rfl | he
        · exact ⟨hk v hv w (List.mem_of_getElem? hsw), Nat.zero_le _⟩
        · rcases List.mem_cons.mp he with rfl | he
          · exact ⟨hv, (List.getElem?_eq_some_iff.mp hsw).1⟩
          · exact hrest e he
      · rw [h'] at he
        exact hrest e he
    refine ⟨fun e he => (hwork e he).1, fun e he => (hwork e he).2, ?_⟩
    intro x hx
    rcases (step_seen hw x).mp hx with hx | ⟨-, rfl⟩
    · exact h.seen_mem x hx
    · exact hv

/-- Each step pays one scan of the top entry's node. -/
theorem step_total {base : Nat} {keys : List α} {s : St α} (h : Head edges base s) (hb : Within edges keys s)
    (hne : s.work ≠ []) : total edges keys (step edges s) < total edges keys s := by
  rcases h with ⟨hw, -⟩ | ⟨v, pos, rest, hw, hinv⟩
  · exact absurd hw hne
  have hwt : (if pos = 0 then enter v s else s).work = (v, pos) :: rest := by split <;> simpa using hw
  have hseen : (if pos = 0 then enter v s else s).index v ≠ none := hinv.stk_seen (hinv.top_stk hwt)
  have hindex := (step_shape edges hw).1
  have hv : v ∈ keys := hb.work_mem (v, pos) (by rw [hw]; exact List.mem_cons_self)
  have hpos : pos ≤ (edges v).length := hb.work_le (v, pos) (by rw [hw]; exact List.mem_cons_self)
  have hnot : rest.find? (fun e => e.1 = v) = none := by
    rw [List.find?_eq_none]
    intro e he
    simp only [decide_eq_true_eq]
    rintro rfl
    exact hinv.not_below hwt he
  have hold : owed edges s v = (edges v).length + 1 - pos := by
    unfold owed
    rw [hw]
    simp only [List.find?_cons, decide_true]
    split
    · rename_i hi
      by_cases hp : pos = 0
      · rw [hp]; rfl
      · rw [if_neg hp] at hseen
        exact absurd hi hseen
    · rfl
  refine List.sum_lt_sum _ _ ?_ ⟨v, hv, ?_⟩
  · intro x _
    by_cases e : x = v
    · subst e
      rw [hold]
      unfold owed
      rw [hindex, if_neg hseen]
      rcases (step_shape edges hw).2 with ⟨hlt, h'⟩ | ⟨w, hsw, hsn, h'⟩ | ⟨-, h'⟩
      · simp only [h', List.find?_cons, decide_true]; omega
      · have hwx : w ≠ x := fun e => hseen (e ▸ hsn)
        simp only [h', List.find?_cons, decide_true, hwx, decide_false]; omega
      · simp only [h', hnot]; omega
    · have hix : (step edges s).index x = s.index x := by
        rw [hindex]
        split
        · exact enter_index_ne s e
        · rfl
      unfold owed
      rw [hix]
      split
      · exact Nat.le_refl _
      · rename_i hi
        have hf : (step edges s).work.find? (fun e => e.1 = x) = s.work.find? (fun e => e.1 = x) := by
          rw [hw]
          rcases (step_shape edges hw).2 with ⟨-, h'⟩ | ⟨w, -, hsn, h'⟩ | ⟨-, h'⟩
          · simp only [h', List.find?_cons, Ne.symm e, decide_false]
          · have hwx : w ≠ x := by
              rintro rfl
              rw [← hindex, hix] at hsn
              exact hi hsn
            simp only [h', List.find?_cons, Ne.symm e, hwx, decide_false]
          · simp only [h', List.find?_cons, Ne.symm e, decide_false]
        rw [hf]
  · rw [hold]
    unfold owed
    rw [hindex, if_neg hseen]
    rcases (step_shape edges hw).2 with ⟨hlt, h'⟩ | ⟨w, hsw, hsn, h'⟩ | ⟨-, h'⟩
    · simp only [h', List.find?_cons, decide_true]; omega
    · have hwx : w ≠ v := fun e => hseen (e ▸ hsn)
      simp only [h', List.find?_cons, decide_true, hwx, decide_false]; omega
    · simp only [h', hnot]; omega

/-! ## Whole runs -/

theorem Head.settled {base : Nat} {s : St α} (h : Head edges base s) (hw : s.work = []) : Settled edges s := by
  rcases h with ⟨-, hs⟩ | ⟨v, pos, rest, hw', -⟩
  · exact hs
  · rw [hw] at hw'; cases hw'

/-- With a scan of fuel for every one owed, the loop runs to an empty work stack. -/
theorem loop_settled {base : Nat} {keys : List α} (hk : ∀ x ∈ keys, ∀ w ∈ edges x, w ∈ keys) :
    ∀ (n : Nat) (s : St α), Head edges base s → Within edges keys s → total edges keys s ≤ n →
      Settled edges (loop edges n s) ∧ Within edges keys (loop edges n s) ∧
        ∀ x, (s.index x ≠ none ∨ ∃ rest, s.work = (x, 0) :: rest) → (loop edges n s).index x ≠ none := by
  have hdone : ∀ s : St α, s.work = [] → ∀ x, (s.index x ≠ none ∨ ∃ rest, s.work = (x, 0) :: rest) →
      s.index x ≠ none := by
    rintro s hw x (hx | ⟨rest, hr⟩)
    · exact hx
    · rw [hw] at hr; cases hr
  intro n
  induction n with
  | zero =>
    intro s h hb hn
    have hw : s.work = [] := by
      by_contra hne
      have := step_total h hb hne
      omega
    exact ⟨h.settled hw, hb, hdone s hw⟩
  | succ n ih =>
    intro s h hb hn
    unfold loop
    by_cases hw : s.work = []
    · rw [if_pos (by simp [hw])]
      exact ⟨h.settled hw, hb, hdone s hw⟩
    · rw [if_neg (by simpa using hw)]
      have hlt := step_total h hb hw
      obtain ⟨h1, h2, h3⟩ := ih (step edges s) (step_head h) (step_within hk hb) (by omega)
      refine ⟨h1, h2, fun x hx => h3 x (Or.inl ?_)⟩
      obtain ⟨⟨v, pos⟩, rest, hvw⟩ := List.exists_cons_of_ne_nil hw
      rw [step_seen hvw]
      rcases hx with hx | ⟨rest', hr⟩
      · exact Or.inl hx
      · rw [hvw] at hr
        cases hr
        exact Or.inr ⟨rfl, rfl⟩

/-- A walk starts at a root that has not been seen. -/
theorem Settled.head {s : St α} {root : α} (h : Settled edges s) (hi : s.index root = none) :
    Head edges s.counter { s with work := [(root, 0)] } :=
  Or.inr ⟨root, 0, [], rfl, by simpa using root_inv h.toBooks h.stk hi h.closed⟩

theorem Within.root {keys : List α} {s : St α} (hb : Within edges keys s) {root : α} (hr : root ∈ keys) :
    Within edges keys { s with work := [(root, 0)] } where
  work_mem := fun e he => by rw [List.mem_singleton.mp he]; exact hr
  work_le := fun e he => by rw [List.mem_singleton.mp he]; exact Nat.zero_le _
  seen_mem := hb.seen_mem

theorem within_init {keys : List α} : Within edges keys (init : St α) where
  work_mem := fun _ he => absurd he List.not_mem_nil
  work_le := fun _ he => absurd he List.not_mem_nil
  seen_mem := fun _ hx => absurd rfl hx

theorem visit_settled {keys : List α} (hk : ∀ x ∈ keys, ∀ w ∈ edges x, w ∈ keys) {s : St α} {root : α}
    (hr : root ∈ keys) (h : Settled edges s) (hb : Within edges keys s) :
    Settled edges (visit edges (scans edges keys) s root) ∧ Within edges keys (visit edges (scans edges keys) s root) ∧
      ∀ x, (s.index x ≠ none ∨ x = root) → (visit edges (scans edges keys) s root).index x ≠ none := by
  unfold visit
  split
  · rename_i hi
    refine ⟨h, hb, ?_⟩
    rintro x (hx | rfl)
    · exact hx
    · exact Option.isSome_iff_ne_none.mp hi
  · rename_i hi
    have hi : s.index root = none := by simpa using hi
    obtain ⟨h1, h2, h3⟩ := loop_settled hk (scans edges keys) _ (h.head hi) (hb.root hr) (total_le keys _)
    refine ⟨h1, h2, fun x hx => h3 x ?_⟩
    rcases hx with hx | rfl
    · exact Or.inl hx
    · exact Or.inr ⟨[], rfl⟩

theorem init_settled : Settled edges (init : St α) := by
  refine ⟨⟨?_, ?_, ?_, ?_, by simp [init], ?_⟩, rfl, ?_⟩
  · intro x i hi; cases hi
  · intro x y i hi; cases hi
  · intro x; simp [init]
  · intro x hx; simp [init] at hx
  · intro pre c post h
    simp [init] at h
  · intro x i w hx; exact absurd rfl hx

theorem visits_settled {keys : List α} (hk : ∀ x ∈ keys, ∀ w ∈ edges x, w ∈ keys) :
    ∀ (roots : List α) (s : St α), (∀ r ∈ roots, r ∈ keys) → Settled edges s → Within edges keys s →
      Settled edges (roots.foldl (visit edges (scans edges keys)) s) ∧
        Within edges keys (roots.foldl (visit edges (scans edges keys)) s) ∧
        ∀ x, (s.index x ≠ none ∨ x ∈ roots) → (roots.foldl (visit edges (scans edges keys)) s).index x ≠ none := by
  intro roots
  induction roots with
  | nil => exact fun s _ h hb => ⟨h, hb, fun x hx => by simpa using hx⟩
  | cons r roots ih =>
    intro s hr h hb
    obtain ⟨h1, h2, h3⟩ := visit_settled hk (hr r List.mem_cons_self) h hb
    obtain ⟨h4, h5, h6⟩ := ih _ (fun x hx => hr x (List.mem_cons_of_mem _ hx)) h1 h2
    refine ⟨h4, h5, fun x hx => h6 x ?_⟩
    rcases hx with hx | hx
    · exact Or.inl (h3 x (Or.inl hx))
    · rcases List.mem_cons.mp hx with rfl | hx
      · exact Or.inl (h3 x (Or.inr rfl))
      · exact Or.inr hx

theorem run_settled {keys : List α} (hk : ∀ x ∈ keys, ∀ w ∈ edges x, w ∈ keys) :
    Settled edges (keys.foldl (visit edges (scans edges keys)) init) ∧
      Within edges keys (keys.foldl (visit edges (scans edges keys)) init) ∧
      ∀ x ∈ keys, (keys.foldl (visit edges (scans edges keys)) init).index x ≠ none := by
  obtain ⟨h1, h2, h3⟩ := visits_settled hk keys init (fun r hr => hr) init_settled within_init
  exact ⟨h1, h2, fun x hx => h3 x (Or.inr hx)⟩

/-- Callees first: every edge of an emitted component leads into it or an earlier one. -/
theorem run_topo {keys : List α} (hk : ∀ x ∈ keys, ∀ w ∈ edges x, w ∈ keys) : Topo edges (run edges keys) :=
  (run_settled hk).1.topo

theorem run_covers {keys : List α} (hk : ∀ x ∈ keys, ∀ w ∈ edges x, w ∈ keys) (x : α) :
    x ∈ (run edges keys).flatten ↔ x ∈ keys := by
  obtain ⟨hs, hb, hall⟩ := run_settled hk
  have hseen := hs.seen x
  rw [hs.stk] at hseen
  simp only [List.not_mem_nil, false_or] at hseen
  constructor
  · exact fun hx => hb.seen_mem x (hseen.mpr hx)
  · exact fun hx => hseen.mp (hall x hx)

theorem run_nodup {keys : List α} (hk : ∀ x ∈ keys, ∀ w ∈ edges x, w ∈ keys) : (run edges keys).flatten.Nodup :=
  (run_settled hk).1.nodup

end OwnNet.Graph.Tarjan
