/-
  OwnNet.Graph.Breadth — a breadth-first search that keeps, of each node it claims, only the
  node it was claimed from; `top` stands above the nodes it starts from. It may be started on
  what an earlier search has claimed, and it stops early where all it looks for has been
  looked at.

  `Going` is what holds between two pops, for a depth `d` of the claimed nodes: the queue is in
  the order of depth, over two levels at most, and up to the depth of its head everything in
  reach has been claimed. `base` is what was claimed before the search.

  Proved: `walk_going`: the search comes to its end and is still `Going` there;
  `Going.shortest`: a node hangs at the end of a shortest way to it; `climb_hangs`: climbing
  from a claimed node comes to the node it hangs from.
-/

import Mathlib.Data.Finset.Card
import OwnNet.Dict
import OwnNet.Graph.Search

namespace OwnNet.Graph

section

variable {α : Type}

/-- `n` edges lead from one of `S` to the node. -/
inductive Steps (succ : α → List α) (S : α → Prop) : Nat → α → Prop
  | here {x : α} : S x → Steps succ S 0 x
  | step {n : Nat} {x y : α} : Steps succ S n x → y ∈ succ x → Steps succ S (n + 1) y

theorem steps_iff_reaches {succ : α → List α} {S : α → Prop} {x : α} : (∃ n, Steps succ S n x) ↔ ∃ s, S s ∧ Reaches succ s x := by
  constructor
  · intro h
    obtain ⟨n, h⟩ := h
    induction h with
    | here hs => exact ⟨_, hs, .refl⟩
    | step _ hy ih =>
      obtain ⟨s, hs, hr⟩ := ih
      exact ⟨s, hs, hr.tail hy⟩
  · intro h
    obtain ⟨s, hs, hr⟩ := h
    induction hr with
    | refl => exact ⟨0, .here hs⟩
    | tail _ hy ih =>
      obtain ⟨n, hn⟩ := ih
      exact ⟨n + 1, .step hn hy⟩

theorem countP_succ_le {p q : α → Bool} {l : List α} {a : α} (h : ∀ x, p x = true → q x = true) (ha : a ∈ l) (hp : p a = false)
    (hq : q a = true) : l.countP p + 1 ≤ l.countP q := by
  induction l with
  | nil => cases ha
  | cons x l ih =>
    rw [List.countP_cons, List.countP_cons]
    have hmono := List.countP_mono_left (l := l) fun x _ => h x
    rcases List.mem_cons.mp ha with rfl | ha
    · rw [hp, hq]
      simp only [Bool.false_eq_true, if_false, if_true]
      omega
    · have hle := ih ha
      by_cases hx : p x = true
      · rw [if_pos hx, if_pos (h x hx)]
        omega
      · rw [if_neg hx]
        split <;> omega

end

/-! ## The search -/

variable {α : Type} [LinearOrder α]

structure Walk (α : Type) [LinearOrder α] where
  parent : Dict α α := Dict.empty
  queue : List α := []
  /-- How many of the targets have been looked at. -/
  reached : Nat := 0

def Walk.Has (w : Walk α) (a : α) : Prop := (w.parent.get? a).isSome = true

instance (w : Walk α) : DecidablePred w.Has := fun _ => inferInstanceAs (Decidable (_ = true))

/-- The node is claimed from `p`, if nothing has claimed it. -/
def Walk.claim (p : α) (w : Walk α) (c : α) : Walk α :=
  if w.Has c then w else { w with parent := w.parent.set c p, queue := w.queue ++ [c] }

section

variable (succ : α → List α) (target : α → Bool) (total : Nat)

def Walk.look (w : Walk α) (a : α) (rest : List α) : Walk α :=
  (succ a).foldl (Walk.claim a) { w with queue := rest, reached := w.reached + if target a then 1 else 0 }

def walk : Nat → Walk α → Option (Walk α)
  | 0, _ => none
  | n + 1, w =>
    match w.queue with
    | [] => some w
    | a :: rest => if w.reached < total then walk n (w.look succ target a rest) else some w

end

/-- The node that `a` hangs from, by its claimers. -/
def climb (parent : Dict α α) (top : α) : Nat → α → Option α
  | 0, _ => none
  | n + 1, a =>
    match parent.get? a with
    | some p => if p = top then some a else climb parent top n p
    | none => some a

/-! ## What is claimed -/

/-- What a round of claims adds. -/
structure Claimed (p : α) (cs : List α) (w w' : Walk α) (new : List α) : Prop where
  fresh : ∀ c ∈ new, ¬w.Has c ∧ c ∈ cs
  nodup : new.Nodup
  all : ∀ c ∈ cs, w'.Has c
  parent : ∀ c, w'.parent.get? c = if c ∈ new then some p else w.parent.get? c
  queue : w'.queue = w.queue ++ new
  reached : w'.reached = w.reached

theorem Walk.has_set {w : Walk α} {c p x : α} {q : List α} {r : Nat} :
    Walk.Has ⟨w.parent.set c p, q, r⟩ x ↔ x = c ∨ w.Has x := by
  unfold Walk.Has
  rw [Dict.get?_set]
  split <;> simp_all

namespace Claimed

variable {p : α} {cs : List α} {w w' : Walk α} {new : List α}

theorem has (h : Claimed p cs w w' new) {x : α} : w'.Has x ↔ x ∈ new ∨ w.Has x := by
  unfold Walk.Has
  rw [h.parent]
  by_cases hx : x ∈ new <;> simp [hx]

theorem old (h : Claimed p cs w w' new) {x : α} (hx : w.Has x) : x ∉ new ∧ w'.parent.get? x = w.parent.get? x := by
  have hnot : x ∉ new := fun hin => (h.fresh x hin).1 hx
  exact ⟨hnot, by rw [h.parent, if_neg hnot]⟩

end Claimed

theorem claims_claimed (p : α) (cs : List α) (w : Walk α) : ∃ new, Claimed p cs w (cs.foldl (Walk.claim p) w) new := by
  induction cs generalizing w with
  | nil => exact ⟨[], fun c hc => absurd hc List.not_mem_nil, List.nodup_nil, fun c hc => absurd hc List.not_mem_nil,
      fun c => by simp, by simp, rfl⟩
  | cons c cs ih =>
    rw [List.foldl_cons]
    by_cases hc : w.Has c
    · rw [show w.claim p c = w from if_pos hc]
      obtain ⟨new, h⟩ := ih w
      refine ⟨new, fun x hx => ⟨(h.fresh x hx).1, List.mem_cons_of_mem _ (h.fresh x hx).2⟩,
        h.nodup, ?_, h.parent, h.queue, h.reached⟩
      intro x hx
      rcases List.mem_cons.mp hx with rfl | hx
      · exact h.has.mpr (Or.inr hc)
      · exact h.all x hx
    · rw [show w.claim p c = _ from if_neg hc]
      obtain ⟨new, h⟩ := ih { w with parent := w.parent.set c p, queue := w.queue ++ [c] }
      have hnot : c ∉ new := fun hin => (h.fresh c hin).1 (Walk.has_set.mpr (Or.inl rfl))
      refine ⟨c :: new, ?_, List.nodup_cons.mpr ⟨hnot, h.nodup⟩, ?_, ?_, ?_, h.reached⟩
      · intro x hx
        rcases List.mem_cons.mp hx with rfl | hx
        · exact ⟨hc, List.mem_cons_self⟩
        · obtain ⟨hno, hin⟩ := h.fresh x hx
          exact ⟨fun hw => hno (Walk.has_set.mpr (Or.inr hw)), List.mem_cons_of_mem _ hin⟩
      · intro x hx
        rcases List.mem_cons.mp hx with rfl | hx
        · exact h.has.mpr (Or.inr (Walk.has_set.mpr (Or.inl rfl)))
        · exact h.all x hx
      · intro x
        rw [h.parent, Dict.get?_set]
        by_cases hx : x = c
        · rw [hx, if_neg hnot, if_pos rfl, if_pos List.mem_cons_self]
        · rw [if_neg hx]
          by_cases hn : x ∈ new
          · rw [if_pos hn, if_pos (List.mem_cons_of_mem _ hn)]
          · rw [if_neg hn, if_neg (by simp [hx, hn])]
      · rw [h.queue, List.append_assoc]
        rfl

/-! ## Between two pops -/

section

variable (succ : α → List α) (top : α) (S base : α → Prop)

structure Going (d : α → Nat) (w : Walk α) : Prop where
  root : ∀ a, w.parent.get? a = some top → ¬base a → S a ∧ d a = 0
  under : ∀ a p, w.parent.get? a = some p → p ≠ top → ¬base a → w.Has p ∧ ¬base p ∧ a ∈ succ p ∧ d a = d p + 1
  ne : ∀ a, w.Has a → a ≠ top
  seeds : ∀ s, S s → ¬base s → w.Has s ∧ d s = 0
  queued : ∀ a ∈ w.queue, w.Has a ∧ ¬base a
  nodup : w.queue.Nodup
  sorted : w.queue.Pairwise fun a b => d a ≤ d b
  near : ∀ h ∈ w.queue.head?, ∀ a, w.Has a → ¬base a → d a ≤ d h + 1
  done : ∀ a, w.Has a → ¬base a → a ∉ w.queue → ∀ c ∈ succ a, w.Has c ∧ (¬base c → d c ≤ d a + 1)
  short : ∀ h ∈ w.queue.head?, ∀ k ≤ d h, ∀ x, Steps succ S k x → ¬base x → w.Has x ∧ d x ≤ k

end

/-- The walk before and after looking at the head `a` of its queue, which claims `new`. -/
structure Looked (succ : α → List α) (w w' : Walk α) (a : α) (rest new : List α) : Prop where
  head : w.queue = a :: rest
  queue : w'.queue = rest ++ new
  has : ∀ x, w'.Has x ↔ x ∈ new ∨ w.Has x
  parent : ∀ c, w'.parent.get? c = if c ∈ new then some a else w.parent.get? c
  fresh : ∀ c ∈ new, ¬w.Has c ∧ c ∈ succ a
  nodup : new.Nodup
  all : ∀ c ∈ succ a, w'.Has c

theorem look_looked (succ : α → List α) (w : Walk α) (target : α → Bool) {a : α} {rest : List α}
    (hq : w.queue = a :: rest) : ∃ new, Looked succ w (w.look succ target a rest) a rest new := by
  obtain ⟨new, h⟩ := claims_claimed a (succ a) { w with queue := rest, reached := w.reached + if target a then 1 else 0 }
  exact ⟨new, hq, h.queue, fun x => h.has, h.parent, h.fresh, h.nodup, h.all⟩

/-- What is claimed now is one deeper than the node looked at. -/
def claimDepth (d : α → Nat) (a : α) (new : List α) (x : α) : Nat := if x ∈ new then d a + 1 else d x

namespace Looked

variable {succ : α → List α} {top : α} {S base : α → Prop} {d : α → Nat} {w w' : Walk α} {a : α} {rest new : List α}

theorem old (l : Looked succ w w' a rest new) {x : α} (hx : w.Has x) : x ∉ new := fun hin => (l.fresh x hin).1 hx

theorem claimDepth_old (l : Looked succ w w' a rest new) {x : α} (hx : w.Has x) : claimDepth d a new x = d x :=
  if_neg (l.old hx)

theorem sorted (l : Looked succ w w' a rest new) (h : Going succ top S base d w) :
    (∀ b ∈ rest, d a ≤ d b) ∧ rest.Pairwise fun a b => d a ≤ d b := by
  have hs := h.sorted
  rw [l.head] at hs
  exact List.pairwise_cons.mp hs

theorem rest_nodup (l : Looked succ w w' a rest new) (h : Going succ top S base d w) : a ∉ rest ∧ rest.Nodup := by
  have hn := h.nodup
  rw [l.head] at hn
  exact List.nodup_cons.mp hn

theorem here (l : Looked succ w w' a rest new) (h : Going succ top S base d w) : w.Has a ∧ ¬base a :=
  h.queued a (by rw [l.head]; exact List.mem_cons_self)

theorem waiting (l : Looked succ w w' a rest new) (h : Going succ top S base d w) {b : α} (hb : b ∈ rest) :
    w.Has b ∧ ¬base b := h.queued b (by rw [l.head]; exact List.mem_cons_of_mem _ hb)

theorem near (l : Looked succ w w' a rest new) (h : Going succ top S base d w) {x : α} (hx : w.Has x)
    (hb : ¬base x) : d x ≤ d a + 1 := h.near a (by rw [l.head]; rfl) x hx hb

theorem short (l : Looked succ w w' a rest new) (h : Going succ top S base d w) {k : Nat} (hk : k ≤ d a) {x : α}
    (hx : Steps succ S k x) (hb : ¬base x) : w.Has x ∧ d x ≤ k := h.short a (by rw [l.head]; rfl) k hk x hx hb

theorem claimDepth_le (l : Looked succ w w' a rest new) (h : Going succ top S base d w) {x : α} (hx : w'.Has x)
    (hb : ¬base x) : claimDepth d a new x ≤ d a + 1 := by
  rcases (l.has x).mp hx with hin | hx
  · rw [claimDepth, if_pos hin]
  · rw [l.claimDepth_old hx]
    exact l.near h hx hb

/-- A node looked at has its successors claimed, at most one deeper. -/
theorem done (l : Looked succ w w' a rest new) (h : Going succ top S base d w) {x : α} (hx : w'.Has x)
    (hb : ¬base x) (hout : x ∉ w'.queue) {c : α} (hc : c ∈ succ x) :
    w'.Has c ∧ (¬base c → claimDepth d a new c ≤ claimDepth d a new x + 1) := by
  rw [l.queue, List.mem_append, not_or] at hout
  have hxold : w.Has x := ((l.has x).mp hx).resolve_left hout.2
  rw [l.claimDepth_old hxold]
  by_cases hxa : x = a
  · subst hxa
    exact ⟨l.all c hc, l.claimDepth_le h (l.all c hc)⟩
  · have hxq : x ∉ w.queue := by
      rw [l.head, List.mem_cons, not_or]
      exact ⟨hxa, hout.1⟩
    obtain ⟨hcold, hcd⟩ := h.done x hxold hb hxq c hc
    refine ⟨(l.has c).mpr (Or.inr hcold), ?_⟩
    rw [l.claimDepth_old hcold]
    exact hcd

/-- The head of the queue is on the level of the node looked at, or on the next. -/
theorem level (l : Looked succ w w' a rest new) (h : Going succ top S base d w) {b : α} (hb : b ∈ w'.queue.head?) :
    d a ≤ claimDepth d a new b ∧ (claimDepth d a new b = d a + 1 → ∀ r ∈ rest, d r = d a + 1) := by
  rw [l.queue] at hb
  cases hrestc : rest with
  | nil =>
    rw [hrestc, List.nil_append] at hb
    rw [claimDepth, if_pos (List.mem_of_mem_head? hb)]
    exact ⟨Nat.le_succ _, fun _ r hr => absurd hr List.not_mem_nil⟩
  | cons r more =>
    rw [hrestc] at hb
    cases hb
    have hr : b ∈ rest := by
      rw [hrestc]
      exact List.mem_cons_self
    rw [l.claimDepth_old (l.waiting h hr).1]
    refine ⟨(l.sorted h).1 b hr, fun hb r' hr' => ?_⟩
    have hle : d b ≤ d r' := by
      have hp := (l.sorted h).2
      rw [hrestc] at hp
      rcases List.mem_cons.mp hr' with rfl | hr'
      · exact Nat.le_refl _
      · exact (List.pairwise_cons.mp hp).1 r' hr'
    rw [← hrestc] at hr'
    have := l.near h (l.waiting h hr').1 (l.waiting h hr').2
    omega

theorem queue_sorted (l : Looked succ w w' a rest new) (h : Going succ top S base d w) :
    w'.queue.Pairwise fun a' b => claimDepth d a new a' ≤ claimDepth d a new b := by
  rw [l.queue]
  refine List.pairwise_append.mpr ⟨?_, ?_, ?_⟩
  · refine (l.sorted h).2.imp_of_mem fun {x y} hx hy hxy => ?_
    rw [l.claimDepth_old (l.waiting h hx).1, l.claimDepth_old (l.waiting h hy).1]
    exact hxy
  · refine List.pairwise_of_forall_mem_list fun x hx y hy => ?_
    rw [claimDepth, claimDepth, if_pos hx, if_pos hy]
  · intro x hx y hy
    rw [l.claimDepth_old (l.waiting h hx).1, claimDepth, if_pos hy]
    exact l.near h (l.waiting h hx).1 (l.waiting h hx).2

/-- Nothing on the way to the head's level is missed: what is on the next one is a successor of one on this. -/
theorem still_short (l : Looked succ w w' a rest new) (h : Going succ top S base d w)
    (hbase : ∀ a, base a → w.Has a ∧ ∀ c ∈ succ a, base c) {b : α} (hb : b ∈ w'.queue.head?)
    (hba : claimDepth d a new b ≤ d a + 1) {k : Nat} (hk : k ≤ claimDepth d a new b) {x : α} (hx : Steps succ S k x)
    (hxb : ¬base x) : w'.Has x ∧ claimDepth d a new x ≤ k := by
  by_cases hka : k ≤ d a
  · obtain ⟨hxw, hxd⟩ := l.short h hka hx hxb
    exact ⟨(l.has x).mpr (Or.inr hxw), by rw [l.claimDepth_old hxw]; exact hxd⟩
  · have hkd : k = d a + 1 := by omega
    subst hkd
    cases hx with
    | @step n y x hy hxy =>
      have hyb : ¬base y := fun hyb => hxb ((hbase y hyb).2 x hxy)
      obtain ⟨hyw, hyd⟩ := l.short h (Nat.le_refl _) hy hyb
      have hyout : y ∉ w'.queue := by
        rw [l.queue, List.mem_append, not_or]
        refine ⟨fun hin => ?_, l.old hyw⟩
        have := (l.level h hb).2 (by omega) y hin
        omega
      obtain ⟨hxw, hxd⟩ := l.done h ((l.has y).mpr (Or.inr hyw)) hyb hyout hxy
      rw [l.claimDepth_old hyw] at hxd
      have := hxd hxb
      exact ⟨hxw, by omega⟩

end Looked

namespace Going

variable {succ : α → List α} {top : α} {S base : α → Prop} {d : α → Nat} {w : Walk α}

/-- Looking at the head of the queue. -/
theorem look (h : Going succ top S base d w) (hbase : ∀ a, base a → w.Has a ∧ ∀ c ∈ succ a, base c)
    (hne : ∀ a, ∀ c ∈ succ a, c ≠ top)
    (target : α → Bool) {a : α} {rest : List α} (hq : w.queue = a :: rest) :
    ∃ d', (∀ x, w.Has x → d' x = d x) ∧ Going succ top S base d' (w.look succ target a rest) := by
  obtain ⟨new, l⟩ := look_looked succ w target hq
  generalize w.look succ target a rest = w' at l ⊢
  obtain ⟨ha, hab⟩ := l.here h
  have hqueued : ∀ b ∈ w'.queue, w'.Has b ∧ ¬base b := by
    intro b hb
    rw [l.queue] at hb
    rcases List.mem_append.mp hb with hb | hb
    · exact ⟨(l.has b).mpr (Or.inr (l.waiting h hb).1), (l.waiting h hb).2⟩
    · exact ⟨(l.has b).mpr (Or.inl hb), fun hbase' => (l.fresh b hb).1 (hbase b hbase').1⟩
  refine ⟨claimDepth d a new, fun x hx => l.claimDepth_old hx, ?_, ?_, ?_, ?_, hqueued, ?_, l.queue_sorted h, ?_,
    fun x hx hb hout c hc => l.done h hx hb hout hc, ?_⟩
  · intro x hx hb
    rw [l.parent] at hx
    split at hx
    next hin =>
      cases hx
      exact absurd rfl (h.ne _ ha)
    next hnot =>
      rw [claimDepth, if_neg hnot]
      exact h.root x hx hb
  · intro x p hx hp hb
    rw [l.parent] at hx
    split at hx
    next hin =>
      cases hx
      refine ⟨(l.has a).mpr (Or.inr ha), hab, (l.fresh x hin).2, ?_⟩
      rw [l.claimDepth_old ha, claimDepth, if_pos hin]
    next hnot =>
      obtain ⟨hpw, hpb, hps, hpd⟩ := h.under x p hx hp hb
      refine ⟨(l.has p).mpr (Or.inr hpw), hpb, hps, ?_⟩
      rw [l.claimDepth_old hpw, claimDepth, if_neg hnot]
      exact hpd
  · intro x hx
    rcases (l.has x).mp hx with hin | hx
    · exact hne a x (l.fresh x hin).2
    · exact h.ne x hx
  · intro s hs hb
    obtain ⟨hw, hd⟩ := h.seeds s hs hb
    exact ⟨(l.has s).mpr (Or.inr hw), by rw [l.claimDepth_old hw, hd]⟩
  · rw [l.queue]
    refine List.nodup_append.mpr ⟨(l.rest_nodup h).2, l.nodup, ?_⟩
    rintro x hx y hy rfl
    exact l.old (l.waiting h hx).1 hy
  · intro b hb x hx hxb
    have := l.claimDepth_le h hx hxb
    have := (l.level h hb).1
    omega
  · intro b hb k hk x hx hxb
    obtain ⟨hbhas, hbbase⟩ := hqueued b (List.mem_of_mem_head? hb)
    exact l.still_short h hbase hb (l.claimDepth_le h hbhas hbbase) hk hx hxb

end Going

/-! ## To the end -/

section

variable {succ : α → List α} {top : α} {S base : α → Prop} {d : α → Nat} {w w' : Walk α}

/-- What was claimed stays claimed, from the same node. -/
def Walk.Extends (w w' : Walk α) : Prop := ∀ a, w.Has a → w'.parent.get? a = w.parent.get? a

theorem Walk.Extends.has (h : w.Extends w') {a : α} (ha : w.Has a) : w'.Has a := by
  unfold Walk.Has
  rw [h a ha]
  exact ha

theorem Walk.Extends.trans {w'' : Walk α} (h : w.Extends w') (h' : w'.Extends w'') : w.Extends w'' :=
  fun a ha => (h' a (h.has ha)).trans (h a ha)

theorem Claimed.extends {p : α} {cs new : List α} (h : Claimed p cs w w' new) : w.Extends w' := fun _ ha => (h.old ha).2

/-- Looked at: claimed, and not in the queue any more. -/
def Walk.Looked (w : Walk α) (a : α) : Prop := w.Has a ∧ a ∉ w.queue

instance (w : Walk α) : DecidablePred w.Looked := fun _ => inferInstanceAs (Decidable (_ ∧ _))

/-- No more targets have been counted than looked at. -/
def Walk.Counted (targets : List α) (w : Walk α) : Prop := w.reached ≤ targets.countP fun t => decide (w.Looked t)

theorem Walk.Counted.all {targets : List α} (h : w.Counted targets) (hall : targets.length ≤ w.reached) :
    ∀ t ∈ targets, w.Has t := by
  have heq : targets.countP (fun t => decide (w.Looked t)) = targets.length :=
    Nat.le_antisymm List.countP_le_length (Nat.le_trans hall h)
  intro t ht
  exact (of_decide_eq_true (List.countP_eq_length.mp heq t ht)).1

theorem Going.counted (h : Going succ top S base d w) {targets : List α} (hc : w.Counted targets) {a : α} {rest new : List α}
    (hq : w.queue = a :: rest)
    (hnew : Claimed a (succ a) { w with queue := rest, reached := w.reached + if a ∈ targets then 1 else 0 } w' new) :
    w'.Counted targets := by
  obtain ⟨ha, -⟩ := h.queued a (by rw [hq]; exact List.mem_cons_self)
  have hnotin : a ∉ rest := by
    have hn := h.nodup
    rw [hq] at hn
    exact (List.nodup_cons.mp hn).1
  have hqueue : w'.queue = rest ++ new := hnew.queue
  have hlooked : ∀ t, w'.Looked t ↔ w.Has t ∧ t ∉ rest := by
    intro t
    unfold Walk.Looked
    rw [hqueue, List.mem_append, not_or, hnew.has]
    constructor
    · intro ht
      exact ⟨ht.1.resolve_left ht.2.2, ht.2.1⟩
    · intro ht
      exact ⟨Or.inr ht.1, ht.2, (hnew.old ht.1).1⟩
  have hmore : ∀ t, decide (w.Looked t) = true → decide (w'.Looked t) = true := by
    intro t ht
    obtain ⟨hhas, hout⟩ := of_decide_eq_true ht
    rw [hq, List.mem_cons, not_or] at hout
    exact decide_eq_true ((hlooked t).mpr ⟨hhas, hout.2⟩)
  unfold Walk.Counted at hc ⊢
  rw [hnew.reached]
  by_cases hat : a ∈ targets
  · have hle := countP_succ_le hmore hat (decide_eq_false fun hl => hl.2 (by rw [hq]; exact List.mem_cons_self))
      (decide_eq_true ((hlooked a).mpr ⟨ha, hnotin⟩))
    simp only [if_pos hat]
    omega
  · have hle := List.countP_mono_left (l := targets) fun t _ => hmore t
    simp only [if_neg hat]
    omega

/-- The looks still to come: at what is queued, and at what has not been claimed. -/
def Walk.left (univ : Finset α) (w : Walk α) : Nat := w.queue.length + (univ.filter fun a => ¬w.Has a).card

theorem Going.left_le (h : Going succ top S base d w) {univ : Finset α} (hu : ∀ a ∈ w.queue, a ∈ univ) :
    w.left univ ≤ univ.card := by
  have hsub : w.queue.toFinset ∪ (univ.filter fun a => ¬w.Has a) ⊆ univ := by
    intro a ha
    rcases Finset.mem_union.mp ha with ha | ha
    · exact hu a (List.mem_toFinset.mp ha)
    · exact (Finset.mem_filter.mp ha).1
  have hdisj : Disjoint w.queue.toFinset (univ.filter fun a => ¬w.Has a) :=
    Finset.disjoint_left.mpr fun a ha hno => (Finset.mem_filter.mp hno).2 (h.queued a (List.mem_toFinset.mp ha)).1
  have hcard := Finset.card_le_card hsub
  rw [Finset.card_union_of_disjoint hdisj, List.toFinset_card_of_nodup h.nodup] at hcard
  exact hcard

theorem Claimed.left {univ : Finset α} {a p : α} {cs rest new : List α} {r : Nat} (hq : w.queue = a :: rest)
    (hu : ∀ c ∈ cs, c ∈ univ) (h : Claimed p cs { w with queue := rest, reached := r } w' new) :
    w'.left univ + 1 = w.left univ := by
  have hsub : new.toFinset ⊆ univ.filter fun a => ¬w.Has a := by
    intro c hc
    obtain ⟨hno, hin⟩ := h.fresh c (List.mem_toFinset.mp hc)
    exact Finset.mem_filter.mpr ⟨hu c hin, hno⟩
  have hleft : (univ.filter fun a => ¬w'.Has a) = (univ.filter fun a => ¬w.Has a) \ new.toFinset := by
    ext x
    simp only [Finset.mem_filter, Finset.mem_sdiff, List.mem_toFinset, h.has]
    tauto
  have hqueue : w'.queue = rest ++ new := h.queue
  have hcard := Finset.card_sdiff_add_card_eq_card hsub
  rw [List.toFinset_card_of_nodup h.nodup] at hcard
  unfold Walk.left
  rw [hleft, hqueue, hq, List.length_append, List.length_cons]
  omega

theorem walk_stop {target : α → Bool} {total : Nat} (h : total ≤ w.reached) (n : Nat) :
    walk succ target total (n + 1) w = some w := by
  rw [walk]
  split
  next => rfl
  next => rw [if_neg (by omega)]

/-- The search comes to its end; there it is still `Going`, and has run out or looked at all the targets. -/
theorem walk_going (h : Going succ top S base d w) (hbase : ∀ a, base a → w.Has a ∧ ∀ c ∈ succ a, base c)
    (hne : ∀ a, ∀ c ∈ succ a, c ≠ top) {univ : Finset α} (hu : ∀ a, ∀ c ∈ succ a, c ∈ univ) {targets : List α}
    (hc : w.Counted targets) {n : Nat} (hn : w.left univ < n) :
    ∃ w' d', walk succ (fun a => decide (a ∈ targets)) targets.length n w = some w' ∧ Going succ top S base d' w' ∧
      w.Extends w' ∧ w'.Counted targets ∧ (w'.queue = [] ∨ targets.length ≤ w'.reached) := by
  induction n generalizing w d with
  | zero => exact absurd hn (Nat.not_lt_zero _)
  | succ n ih =>
    rw [walk]
    cases hq : w.queue with
    | nil => exact ⟨w, d, rfl, h, fun _ _ => rfl, hc, Or.inl hq⟩
    | cons a rest =>
      dsimp only
      by_cases hall : w.reached < targets.length
      · rw [if_pos hall]
        obtain ⟨new, hnew⟩ := claims_claimed a (succ a)
          { w with queue := rest, reached := w.reached + if a ∈ targets then 1 else 0 }
        have hlook : w.look succ (fun a => decide (a ∈ targets)) a rest =
            (succ a).foldl (Walk.claim a) { w with queue := rest, reached := w.reached + if a ∈ targets then 1 else 0 } := by
          simp only [Walk.look, decide_eq_true_eq]
        obtain ⟨d₁, -, hgo⟩ := h.look hbase hne (fun a => decide (a ∈ targets)) hq
        rw [hlook] at hgo ⊢
        have hext : w.Extends _ := hnew.extends
        have hleft := hnew.left hq (hu a)
        obtain ⟨w', d', hw, hgo', hext', hc', hend⟩ := ih hgo (fun b hb => ⟨hext.has (hbase b hb).1, (hbase b hb).2⟩)
          (h.counted hc hq hnew) (by omega)
        exact ⟨w', d', hw, hgo', hext.trans hext', hc', hend⟩
      · rw [if_neg hall]
        exact ⟨w, d, rfl, h, fun _ _ => rfl, hc, Or.inr (by omega)⟩

/-! ## The beginning -/

theorem Walk.Counted.claims {targets : List α} (h : w.Counted targets) {p : α} {cs new : List α} (hnew : Claimed p cs w w' new) :
    w'.Counted targets := by
  unfold Walk.Counted at h ⊢
  rw [hnew.reached]
  refine h.trans (List.countP_mono_left fun t _ ht => ?_)
  obtain ⟨hhas, hout⟩ := of_decide_eq_true ht
  refine decide_eq_true ⟨hnew.has.mpr (Or.inr hhas), ?_⟩
  rw [hnew.queue, List.mem_append, not_or]
  exact ⟨hout, (hnew.old hhas).1⟩

/-- The roots are claimed, on top of what was claimed before. -/
theorem Going.start (hq : w.queue = []) (htop : ∀ a, w.Has a → a ≠ top) {roots : List α} (hroots : ∀ r ∈ roots, r ≠ top)
    {new : List α} (hnew : Claimed top roots w w' new) : Going succ top (· ∈ roots) w.Has (fun _ => 0) w' := by
  have hqueue : w'.queue = new := by
    rw [hnew.queue, hq]
    rfl
  have hin : ∀ a, w'.Has a → ¬w.Has a → a ∈ new := fun a ha hno => (hnew.has.mp ha).resolve_right hno
  have hpar : ∀ a p, w'.parent.get? a = some p → ¬w.Has a → a ∈ roots ∧ p = top := by
    intro a p ha hno
    have hn := hin a (by unfold Walk.Has; rw [ha]; rfl) hno
    rw [hnew.parent, if_pos hn] at ha
    exact ⟨(hnew.fresh a hn).2, (Option.some.inj ha).symm⟩
  exact
    { root := fun a ha hno => ⟨(hpar a top ha hno).1, rfl⟩
      under := fun a p ha hp hno => absurd (hpar a p ha hno).2 hp
      ne := fun a ha => (hnew.has.mp ha).elim (fun hn => hroots a (hnew.fresh a hn).2) (htop a)
      seeds := fun s hs _ => ⟨hnew.all s hs, rfl⟩
      queued := fun a ha => by
        rw [hqueue] at ha
        exact ⟨hnew.has.mpr (Or.inl ha), (hnew.fresh a ha).1⟩
      nodup := by
        rw [hqueue]
        exact hnew.nodup
      sorted := List.pairwise_of_forall fun _ _ => Nat.le_refl 0
      near := fun _ _ _ _ _ => Nat.zero_le _
      done := fun a ha hno hout => absurd (hqueue ▸ hin a ha hno) hout
      short := by
        intro h _ k hk x hx hno
        obtain rfl : k = 0 := Nat.le_zero.mp hk
        cases hx with
        | here hs => exact ⟨hnew.all x hs, Nat.le_refl 0⟩ }

/-! ## What hangs from what -/

/-- `a` hangs from `r` over the nodes of the list, itself first. -/
inductive Hangs (parent : Dict α α) (top : α) : α → List α → α → Prop
  | root {r : α} : parent.get? r = some top → Hangs parent top r [r] r
  | under {a p r : α} {path : List α} : parent.get? a = some p → p ≠ top → Hangs parent top p path r →
      Hangs parent top a (a :: path) r

namespace Hangs

variable {parent parent' : Dict α α} {a r r' : α} {path path' : List α}

theorem unique (h : Hangs parent top a path r) (h' : Hangs parent top a path' r') : path = path' ∧ r = r' := by
  induction h generalizing path' with
  | root hr =>
    cases h' with
    | root => exact ⟨rfl, rfl⟩
    | under hp hne => exact absurd (Option.some.inj (hp.symm.trans hr)) hne
  | under hp hne _ ih =>
    cases h' with
    | root hr => exact absurd (Option.some.inj (hp.symm.trans hr)) hne
    | under hp' _ h' =>
      obtain rfl := Option.some.inj (hp.symm.trans hp')
      obtain ⟨rfl, rfl⟩ := ih h'
      exact ⟨rfl, rfl⟩

theorem claimed (h : Hangs parent top a path r) : ∀ x ∈ path, (parent.get? x).isSome = true := by
  induction h with
  | root hr =>
    intro x hx
    rw [List.mem_singleton.mp hx, hr]
    rfl
  | under hp _ _ ih =>
    intro x hx
    rcases List.mem_cons.mp hx with rfl | hx
    · rw [hp]
      rfl
    · exact ih x hx

theorem start_mem (h : Hangs parent top a path r) : a ∈ path := by
  cases h with
  | root => exact List.mem_cons_self
  | under => exact List.mem_cons_self

theorem linked_cons (h : Hangs parent top a path r) {R : α → α → Prop} {x : α} :
    (x :: path).IsChain R ↔ R x a ∧ path.IsChain R := by
  cases h with
  | root => exact List.isChain_cons_cons
  | under => exact List.isChain_cons_cons

theorem end_mem (h : Hangs parent top a path r) : r ∈ path := by
  induction h with
  | root => exact List.mem_cons_self
  | under _ _ _ ih => exact List.mem_cons_of_mem _ ih

theorem congr (h : Hangs parent top a path r) (he : ∀ x ∈ path, parent'.get? x = parent.get? x) : Hangs parent' top a path r := by
  induction h with
  | root hr => exact .root ((he _ List.mem_cons_self).trans hr)
  | under hp hne _ ih => exact .under ((he _ List.mem_cons_self).trans hp) hne (ih fun x hx => he x (List.mem_cons_of_mem _ hx))

/-- Each node of the list hangs from the same node, over the rest of it. -/
theorem within (h : Hangs parent top a path r) {x : α} (hx : x ∈ path) :
    ∃ suffix, suffix <:+ path ∧ Hangs parent top x suffix r := by
  induction h with
  | root hr =>
    rw [List.mem_singleton.mp hx]
    exact ⟨_, List.suffix_refl _, .root hr⟩
  | under hp hne h ih =>
    rcases List.mem_cons.mp hx with rfl | hx
    · exact ⟨_, List.suffix_refl _, .under hp hne h⟩
    · obtain ⟨suffix, hs, hh⟩ := ih hx
      exact ⟨suffix, hs.trans (List.suffix_cons _ _), hh⟩

theorem nodup (h : Hangs parent top a path r) : path.Nodup := by
  induction h with
  | root => exact List.nodup_singleton _
  | @under a p r path hp hne h ih =>
    refine List.nodup_cons.mpr ⟨fun hin => ?_, ih⟩
    obtain ⟨suffix, hs, hh⟩ := h.within hin
    obtain ⟨rfl, -⟩ := (Hangs.under hp hne h).unique hh
    have := hs.length_le
    rw [List.length_cons] at this
    omega

theorem climb (h : Hangs parent top a path r) {n : Nat} (hn : path.length ≤ n) : climb parent top n a = some r := by
  induction h generalizing n with
  | root hr =>
    cases n with
    | zero => exact absurd hn (by simp)
    | succ n => rw [Graph.climb, hr]; exact if_pos rfl
  | under hp hne _ ih =>
    cases n with
    | zero => exact absurd hn (by simp)
    | succ n =>
      rw [Graph.climb, hp]
      dsimp only
      rw [if_neg hne]
      exact ih (by simpa using hn)

end Hangs

namespace Going

theorem hangs (h : Going succ top S base d w) {a : α} (ha : w.Has a) (hb : ¬base a) : ∃ path r, Hangs w.parent top a path r ∧
    S r ∧ path.length = d a + 1 ∧ path.IsChain (fun a p => a ∈ succ p) ∧ ∀ x ∈ path, ¬base x := by
  induction hd : d a using Nat.strong_induction_on generalizing a with
  | _ n ih =>
    subst hd
    obtain ⟨p, hp⟩ := Option.isSome_iff_exists.mp ha
    by_cases htop : p = top
    · subst htop
      obtain ⟨hs, hd⟩ := h.root a hp hb
      exact ⟨[a], a, .root hp, hs, by rw [hd]; rfl, List.IsChain.singleton a, fun x hx => List.mem_singleton.mp hx ▸ hb⟩
    · obtain ⟨hpw, hpb, hap, hdp⟩ := h.under a p hp htop hb
      obtain ⟨path, r, hpath, hs, hlen, hchain, hall⟩ := ih (d p) (by omega) hpw hpb rfl
      refine ⟨a :: path, r, .under hp htop hpath, hs, by rw [List.length_cons, hlen, hdp], hpath.linked_cons.mpr ⟨hap, hchain⟩,
        fun x hx => ?_⟩
      · rcases List.mem_cons.mp hx with rfl | hx
        · exact hb
        · exact hall x hx

/-- What has run out has claimed everything in reach, over the least number of edges. -/
theorem everything (h : Going succ top S base d w) (hbase : ∀ a, base a → ∀ c ∈ succ a, base c)
    (hq : w.queue = []) {k : Nat} {x : α}
    (hx : Steps succ S k x) (hb : ¬base x) : w.Has x ∧ d x ≤ k := by
  induction hx with
  | here hs =>
    obtain ⟨hw, hd⟩ := h.seeds _ hs hb
    exact ⟨hw, Nat.le_of_eq hd⟩
  | @step k y x _ hxy ih =>
    have hyb : ¬base y := fun hyb => hb (hbase y hyb x hxy)
    obtain ⟨hyw, hyd⟩ := ih hyb
    obtain ⟨hxw, hxd⟩ := h.done y hyw hyb (by rw [hq]; exact List.not_mem_nil) x hxy
    have := hxd hb
    exact ⟨hxw, by omega⟩

/-- A claimed node hangs at the end of a shortest way to it, whenever the search was left. -/
theorem shortest (h : Going succ top S base d w) (hbase : ∀ a, base a → ∀ c ∈ succ a, base c) {k : Nat} {x : α}
    (hx : Steps succ S k x) (hw : w.Has x) (hb : ¬base x) : d x ≤ k := by
  cases hq : w.queue with
  | nil => exact (h.everything hbase hq hx hb).2
  | cons a rest =>
    by_contra hlt
    have hnear := h.near a (by rw [hq]; rfl) x hw hb
    have := (h.short a (by rw [hq]; rfl) k (by omega) x hx hb).2
    omega

end Going

end

end OwnNet.Graph
