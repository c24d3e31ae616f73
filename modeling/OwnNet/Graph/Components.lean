/-
  OwnNet.Graph.Components — the components `Tarjan.run` emits are the strongly connected
  ones.

  Beside `Tarjan.Inv` the loop keeps `Linked`: a work entry reaches the entries above it,
  every stacked node reaches its owner and is reached from it, and a low link is the index
  of a stacked node its entry reaches. A node finished above its low link then reaches its
  parent through that node's owner, and one finished at its low link owns all it pops.

  `runEager` is the same search with a node entered when it is pushed, not when its first
  edge is scanned.

  Proved: `run_strong`, and with `run_topo` the exact statement `mem_component`; and that
  `runEager` is `run` (`runEager_eq`).
-/

import OwnNet.Graph.Search
import OwnNet.Graph.Tarjan

namespace OwnNet.Graph.Tarjan

set_option linter.unusedSectionVars false

variable {α : Type} [DecidableEq α] {edges : α → List α}

/-- Each emitted component is strongly connected. -/
def Strong (edges : α → List α) (out : List (List α)) : Prop := ∀ c ∈ out, ∀ x ∈ c, ∀ y ∈ c, Reaches edges x y

structure Linked (edges : α → List α) (s : St α) : Prop where
  chain : s.work.Pairwise fun a b => Reaches edges b.1 a.1
  owned : ∀ x ∈ s.stack, ∃ g, Owner s g x ∧ Reaches edges g x ∧ Reaches edges x g
  low : ∀ e ∈ s.work, ∃ y ∈ s.stack, idx s y = s.low e.1 ∧ Reaches edges e.1 y
  strong : Strong edges s.out

/-! ## Entering -/

theorem root_linked {s : St α} {v : α} (hs : s.stack = []) (ho : Strong edges s.out) :
    Linked edges (enter v { s with work := [(v, 0)] }) := by
  refine ⟨by simp, ?_, ?_, ho⟩
  · intro x hx
    simp only [enter_stack, hs, List.mem_singleton] at hx
    subst hx
    refine ⟨x, ⟨⟨0, by simp⟩, Nat.le_refl _, ?_⟩, .refl, .refl⟩
    intro e he _
    simp only [enter_work, List.mem_singleton] at he
    subst he
    exact Nat.le_refl _
  · intro e he
    simp only [enter_work, List.mem_singleton] at he
    subst he
    exact ⟨v, by simp, by simp, .refl⟩

section Step

variable {base : Nat} {s : St α} {v : α} {pos : Nat} {rest : List (α × Nat)}

theorem scan_new_linked (h : Inv edges base s) (hl : Linked edges s) (hw : s.work = (v, pos) :: rest) {w : α}
    (he : (edges v)[pos]? = some w) (hn : s.index w = none) :
    Linked edges (enter w { s with work := (w, 0) :: (v, pos + 1) :: rest }) := by
  have hws : w ∉ s.stack := fun hm => h.stk_seen hm hn
  have hedge : w ∈ edges v := List.mem_iff_getElem?.mpr ⟨pos, he⟩
  have hne : ∀ x ∈ s.stack, x ≠ w := fun x hx e => hws (e ▸ hx)
  have hstk : ∀ e ∈ s.work, e.1 ≠ w := fun e he => hne _ (h.work_stk e he)
  have hidx : ∀ x, x ≠ w → idx (enter w { s with work := (w, 0) :: (v, pos + 1) :: rest }) x = idx s x :=
    fun x hx => enter_idx_ne _ hx
  have hold : ∀ {e : α × Nat}, e ∈ (v, pos + 1) :: rest → ∃ q, (e.1, q) ∈ s.work := by
    intro e hm
    rcases List.mem_cons.mp hm with rfl | hm
    · exact ⟨pos, by rw [hw]; exact List.mem_cons_self⟩
    · exact ⟨e.2, by rw [hw]; exact List.mem_cons_of_mem _ hm⟩
  have hchain := hl.chain
  rw [hw, List.pairwise_cons] at hchain
  refine ⟨?_, ?_, ?_, hl.strong⟩
  · show ((w, 0) :: (v, pos + 1) :: rest).Pairwise _
    refine List.pairwise_cons.mpr ⟨?_, List.pairwise_cons.mpr ⟨hchain.1, hchain.2⟩⟩
    intro e hm
    rcases List.mem_cons.mp hm with rfl | hm
    · exact .single hedge
    · exact (hchain.1 e hm).tail hedge
  · intro x hx
    rcases List.mem_cons.mp hx with rfl | hx
    · refine ⟨x, ⟨⟨0, List.mem_cons_self⟩, Nat.le_refl _, ?_⟩, .refl, .refl⟩
      intro e _ hle
      exact hle
    · obtain ⟨g, ⟨⟨p, hp⟩, hle, hmax⟩, hgx, hxg⟩ := hl.owned x hx
      refine ⟨g, ⟨?_, ?_, ?_⟩, hgx, hxg⟩
      · rw [hw] at hp
        rcases List.mem_cons.mp hp with e | hp
        · obtain ⟨rfl, rfl⟩ := Prod.mk.inj e
          exact ⟨_, List.mem_cons_of_mem _ List.mem_cons_self⟩
        · exact ⟨p, List.mem_cons_of_mem _ (List.mem_cons_of_mem _ hp)⟩
      · rw [hidx x (hne x hx), hidx g (hstk _ hp)]
        exact hle
      · intro e hm hlx
        rw [hidx x (hne x hx)] at hlx
        rw [hidx g (hstk _ hp)]
        rcases List.mem_cons.mp hm with rfl | hm
        · have := h.idx_lt' hx
          simp only [enter_idx_self] at hlx
          omega
        · obtain ⟨q, hq⟩ := hold hm
          rw [hidx e.1 (hstk (e.1, q) hq)] at hlx ⊢
          exact hmax (e.1, q) hq hlx
  · intro e hm
    rcases List.mem_cons.mp hm with rfl | hm
    · exact ⟨w, List.mem_cons_self, by simp, .refl⟩
    · obtain ⟨q, hq⟩ := hold hm
      obtain ⟨y, hy, hyl, hr⟩ := hl.low _ hq
      refine ⟨y, List.mem_cons_of_mem _ hy, ?_, hr⟩
      rw [hidx y (hne y hy), enter_low_ne _ (hstk _ hq)]
      exact hyl

/-- A scanned edge to an indexed node: only the position and the low link of the top entry change. -/
theorem scan_old_linked (h : Inv edges base s) (hl : Linked edges s) (hw : s.work = (v, pos) :: rest) {l : Nat}
    (hlow : ∃ y ∈ s.stack, idx s y = l ∧ Reaches edges v y) :
    Linked edges { s with work := (v, pos + 1) :: rest, low := Function.update s.low v l } := by
  have hchain := hl.chain
  rw [hw, List.pairwise_cons] at hchain
  have hnodes : ∀ e ∈ (v, pos + 1) :: rest, ∃ q, (e.1, q) ∈ s.work := by
    intro e hm
    rcases List.mem_cons.mp hm with rfl | hm
    · exact ⟨pos, by rw [hw]; exact List.mem_cons_self⟩
    · exact ⟨e.2, by rw [hw]; exact List.mem_cons_of_mem _ hm⟩
  refine ⟨List.pairwise_cons.mpr hchain, ?_, ?_, hl.strong⟩
  · intro x hx
    obtain ⟨g, ⟨⟨p, hp⟩, hle, hmax⟩, hgx, hxg⟩ := hl.owned x hx
    refine ⟨g, ⟨?_, hle, ?_⟩, hgx, hxg⟩
    · rw [hw] at hp
      rcases List.mem_cons.mp hp with e | hp
      · obtain ⟨rfl, rfl⟩ := Prod.mk.inj e
        exact ⟨_, List.mem_cons_self⟩
      · exact ⟨p, List.mem_cons_of_mem _ hp⟩
    · intro e hm hlx
      obtain ⟨q, hq⟩ := hnodes e hm
      exact hmax (e.1, q) hq hlx
  · intro e hm
    rcases List.mem_cons.mp hm with rfl | hm
    · obtain ⟨y, hy, hyl, hr⟩ := hlow
      refine ⟨y, hy, ?_, hr⟩
      show idx s y = Function.update s.low v l v
      rw [Function.update_self, hyl]
    · have hev : e.1 ≠ v := fun he => h.not_below hw (p := e.2) (by rw [← he]; exact hm)
      obtain ⟨y, hy, hyl, hr⟩ := hl.low e (by rw [hw]; exact List.mem_cons_of_mem _ hm)
      refine ⟨y, hy, ?_, hr⟩
      show idx s y = Function.update s.low v l e.1
      rw [Function.update_of_ne hev, hyl]

/-- The nearest entry of a node below the top is its nearest entry once the top is popped. -/
theorem owner_below (hw : s.work = (v, pos) :: rest) (s' : St α) (hw' : s'.work = rest) (hi : s'.index = s.index)
    {g x : α} (ho : Owner s g x) (hg : g ≠ v) : Owner s' g x := by
  have hidx : ∀ y, idx s' y = idx s y := fun y => by simp only [idx, hi]
  obtain ⟨⟨p, hp⟩, hle, hmax⟩ := ho
  refine ⟨⟨p, ?_⟩, by rw [hidx, hidx]; exact hle, fun e he hlx => ?_⟩
  · rw [hw] at hp
    rw [hw']
    rcases List.mem_cons.mp hp with e | hp
    · exact absurd (Prod.mk.inj e).1 hg
    · exact hp
  · rw [hidx, hidx] at hlx ⊢
    exact hmax e (by rw [hw]; exact List.mem_cons_of_mem _ (hw' ▸ he)) hlx

/-- A finished node above its low link: it reaches its parent, which takes over what it owned. -/
theorem finish_keep_linked (h : Inv edges base s) (hl : Linked edges s) {p : α} {q : Nat}
    (hw : s.work = (v, pos) :: (p, q) :: rest) (hr : s.index v ≠ some (s.low v)) :
    Linked edges { s with work := (p, q) :: rest, low := Function.update s.low p (min (s.low p) (s.low v)) } := by
  have hchain := hl.chain
  rw [hw, List.pairwise_cons] at hchain
  have hvs := h.top_stk hw
  have hpv : Reaches edges p v := hchain.1 (p, q) List.mem_cons_self
  have hlow := h.low_le (v, pos) (by rw [hw]; exact List.mem_cons_self)
  have hlt : s.low v < idx s v := by
    have hne : idx s v ≠ s.low v := fun e => hr (by rw [h.index_eq hvs, e])
    have := hlow.2
    simp only at this
    omega
  obtain ⟨y, hy, hyl, hvy⟩ := hl.low (v, pos) (by rw [hw]; exact List.mem_cons_self)
  simp only at hyl hvy
  have hvp : Reaches edges v p := by
    obtain ⟨g, ho, -, hyg⟩ := hl.owned y hy
    have hgv : g ≠ v := by
      rintro rfl
      have := ho.le
      omega
    obtain ⟨pg, hpg⟩ := ho.mem
    rw [hw] at hpg
    rcases List.mem_cons.mp hpg with e | hpg
    · exact absurd (Prod.mk.inj e).1 hgv
    · have hgp : Reaches edges g p := by
        rcases List.mem_cons.mp hpg with e | hpg
        · rw [(Prod.mk.inj e).1]; exact .refl
        · exact (List.pairwise_cons.mp hchain.2).1 _ hpg
      exact (hvy.trans hyg).trans hgp
  refine ⟨hchain.2, ?_, ?_, hl.strong⟩
  · intro x hx
    obtain ⟨g, ho, hgx, hxg⟩ := hl.owned x hx
    by_cases hgv : g = v
    · subst hgv
      refine ⟨p, ⟨⟨q, List.mem_cons_self⟩, ?_, ?_⟩, hpv.trans hgx, hxg.trans hvp⟩
      · have := h.below_lt hw (p, q) List.mem_cons_self
        have := ho.le
        simp only at *
        show idx s p ≤ idx s x
        omega
      · intro e he _
        show idx s e.1 ≤ idx s p
        rcases List.mem_cons.mp he with rfl | he
        · exact Nat.le_refl _
        · have hs := h.work_sorted
          rw [hw] at hs
          exact Nat.le_of_lt ((List.pairwise_cons.mp (List.pairwise_cons.mp hs).2).1 e he)
    · refine ⟨g, ?_, hgx, hxg⟩
      exact owner_below hw
        { s with work := (p, q) :: rest, low := Function.update s.low p (min (s.low p) (s.low v)) } rfl rfl ho hgv
  · intro e he
    by_cases hep : e.1 = p
    · rw [hep]
      show ∃ y ∈ s.stack, idx s y = Function.update s.low p (min (s.low p) (s.low v)) p ∧ _
      rw [Function.update_self]
      obtain ⟨z, hz, hzl, hpz⟩ := hl.low (p, q) (by rw [hw]; exact List.mem_cons_of_mem _ List.mem_cons_self)
      simp only at hzl hpz
      rcases Nat.le_total (s.low p) (s.low v) with hle | hle
      · exact ⟨z, hz, by rw [Nat.min_eq_left hle]; exact hzl, hpz⟩
      · exact ⟨y, hy, by rw [Nat.min_eq_right hle]; exact hyl, hpv.trans hvy⟩
    · show ∃ y ∈ s.stack, idx s y = Function.update s.low p (min (s.low p) (s.low v)) e.1 ∧ _
      rw [Function.update_of_ne hep]
      exact hl.low e (by rw [hw]; exact List.mem_cons_of_mem _ he)

/-- What a finished root of a component pops reaches it and is reached from it. -/
theorem popped_strong (h : Inv edges base s) (hl : Linked edges s) (hw : s.work = (v, pos) :: rest) {a b : List α}
    (hab : s.stack = a ++ v :: b) (ha : ∀ x ∈ a, idx s v < idx s x) : Strong edges (s.out ++ [a ++ [v]]) := by
  have hboth : ∀ x ∈ a ++ [v], Reaches edges v x ∧ Reaches edges x v := by
    intro x hx
    have hge : idx s v ≤ idx s x := by
      rcases List.mem_append.mp hx with hx | hx
      · exact Nat.le_of_lt (ha x hx)
      · rw [List.mem_singleton.mp hx]
    have hxs : x ∈ s.stack := by
      rw [hab]
      rcases List.mem_append.mp hx with hx | hx
      · exact List.mem_append_left _ hx
      · rw [List.mem_singleton.mp hx]; simp
    obtain ⟨g, ho, hgx, hxg⟩ := hl.owned x hxs
    rw [h.top_owner hw ho hge] at hgx hxg
    exact ⟨hgx, hxg⟩
  intro c hc x hx y hy
  rcases List.mem_append.mp hc with hc | hc
  · exact hl.strong c hc x hx y hy
  · rw [List.mem_singleton] at hc
    subst hc
    exact (hboth x hx).2.trans (hboth y hy).1

/-- A finished root of a component leaves the entries and nodes below it as they were. -/
theorem finish_pop_linked (h : Inv edges base s) (hl : Linked edges s) {p : α} {q : Nat}
    (hw : s.work = (v, pos) :: (p, q) :: rest) (hr : s.index v = some (s.low v)) :
    Linked edges (lowerParent v { popComp v s with work := (p, q) :: rest }) := by
  obtain ⟨a, b, hab, hva, ha, hb⟩ := h.split hw
  rw [popComp_eq hab hva hr]
  have hlow : s.low v = idx s v := by simp [idx, hr]
  have hchain := hl.chain
  rw [hw, List.pairwise_cons] at hchain
  have hmin : min (s.low p) (s.low v) = s.low p := by
    have h1 := h.low_le (p, q) (by rw [hw]; exact List.mem_cons_of_mem _ List.mem_cons_self)
    have h2 := h.below_lt hw (p, q) List.mem_cons_self
    simp only at h1 h2
    omega
  have hstate : lowerParent v { s with stack := b, out := s.out ++ [a ++ [v]], work := (p, q) :: rest }
      = { s with stack := b, out := s.out ++ [a ++ [v]], work := (p, q) :: rest } := by
    simp only [lowerParent, hmin, Function.update_eq_self]
  have hbs : ∀ x ∈ b, x ∈ s.stack := fun x hx => by rw [hab]; simp [hx]
  rw [hstate]
  refine ⟨hchain.2, ?_, ?_, popped_strong h hl hw hab ha⟩
  · intro x hx
    obtain ⟨g, ho, hgx, hxg⟩ := hl.owned x (hbs x hx)
    have hgv : g ≠ v := by
      rintro rfl
      have h1 := ho.le
      have h2 := hb x hx
      omega
    refine ⟨g, ?_, hgx, hxg⟩
    exact owner_below hw { s with stack := b, out := s.out ++ [a ++ [v]], work := (p, q) :: rest } rfl rfl ho hgv
  · intro e he
    obtain ⟨y, hy, hyl, hr⟩ := hl.low e (by rw [hw]; exact List.mem_cons_of_mem _ he)
    refine ⟨y, ?_, hyl, hr⟩
    have hlt : idx s y < idx s v := by
      have h1 := (h.low_le e (by rw [hw]; exact List.mem_cons_of_mem _ he)).2
      have h2 := h.below_lt hw e he
      omega
    rw [hab] at hy
    rcases List.mem_append.mp hy with hy | hy
    · have := ha y hy
      omega
    · rcases List.mem_cons.mp hy with rfl | hy
      · omega
      · exact hy

end Step

/-! ## Runs -/

/-- `Linked`, at the loop's states. -/
def HeadLinked (edges : α → List α) (s : St α) : Prop :=
  (s.work = [] ∧ Strong edges s.out) ∨
    ∃ v pos rest, s.work = (v, pos) :: rest ∧ Linked edges (if pos = 0 then enter v s else s)

theorem HeadLinked.strong {s : St α} (h : HeadLinked edges s) : Strong edges s.out := by
  rcases h with ⟨-, h⟩ | ⟨v, pos, rest, -, h⟩
  · exact h
  · have := h.strong
    split at this <;> exact this

theorem advance_linked {base : Nat} {s : St α} {v : α} {pos : Nat} {rest : List (α × Nat)} (h : Inv edges base s)
    (hl : Linked edges s) (hw : s.work = (v, pos) :: rest) : HeadLinked edges (advance edges v pos rest s) := by
  unfold advance
  split
  · rename_i w he
    have hedge : w ∈ edges v := List.mem_iff_getElem?.mpr ⟨pos, he⟩
    obtain ⟨y, hy, hyl, hvy⟩ := hl.low (v, pos) (by rw [hw]; exact List.mem_cons_self)
    dsimp only
    split
    · rename_i hs
      exact Or.inr ⟨w, 0, _, rfl, by simpa using scan_new_linked h hl hw he hs⟩
    · rename_i i hs
      have hi : idx s w = i := by
        have : s.index w = some i := hs
        simp [idx, this]
      split
      · rename_i hws
        refine Or.inr ⟨v, pos + 1, rest, rfl, ?_⟩
        simp only [Nat.add_eq_zero_iff, Nat.one_ne_zero, and_false, if_false]
        refine scan_old_linked h hl hw ?_
        rcases Nat.le_total (s.low v) i with hle | hle
        · exact ⟨y, hy, by rw [Nat.min_eq_left hle]; exact hyl, hvy⟩
        · exact ⟨w, hws, by rw [Nat.min_eq_right hle]; exact hi, .single hedge⟩
      · refine Or.inr ⟨v, pos + 1, rest, rfl, ?_⟩
        simp only [Nat.add_eq_zero_iff, Nat.one_ne_zero, and_false, if_false]
        have := scan_old_linked h hl hw ⟨y, hy, hyl, hvy⟩
        simpa using this
  · rename_i hend
    cases rest with
    | nil =>
      refine Or.inl ⟨by simp [lowerParent], ?_⟩
      show Strong edges (popComp v s).out
      by_cases hr : s.index v = some (s.low v)
      · obtain ⟨a, b, hab, hva, ha, hb⟩ := h.split hw
        rw [popComp_eq hab hva hr]
        exact popped_strong h hl hw hab ha
      · rw [popComp, if_neg hr]
        exact hl.strong
    | cons r rest' =>
      obtain ⟨p, q⟩ := r
      have hq : q ≠ 0 := h.work_pos (p, q) (by rw [hw]; exact List.mem_cons_self)
      refine Or.inr ⟨p, q, rest', rfl, ?_⟩
      rw [if_neg hq]
      by_cases hr : s.index v = some (s.low v)
      · exact finish_pop_linked h hl hw hr
      · have := finish_keep_linked h hl hw hr
        simpa only [popComp, if_neg hr, lowerParent] using this

theorem step_linked {base : Nat} {s : St α} (h : Head edges base s) (hl : HeadLinked edges s) :
    HeadLinked edges (step edges s) := by
  rcases h with ⟨hw, -⟩ | ⟨v, pos, rest, hw, hinv⟩
  · have : step edges s = s := by simp [step, hw]
    rw [this]; exact hl
  · rcases hl with ⟨hw', -⟩ | ⟨v', pos', rest', hw', hl⟩
    · rw [hw'] at hw; cases hw
    · rw [hw] at hw'
      cases hw'
      have : step edges s = advance edges v pos rest (if pos = 0 then enter v s else s) := by simp only [step, hw]
      rw [this]
      refine advance_linked hinv hl ?_
      split <;> simpa using hw

theorem loop_strong {base : Nat} : ∀ (n : Nat) (s : St α), Head edges base s → HeadLinked edges s →
    Strong edges (loop edges n s).out := by
  intro n
  induction n with
  | zero => exact fun s _ hl => hl.strong
  | succ n ih =>
    intro s h hl
    unfold loop
    split
    · exact hl.strong
    · exact ih _ (step_head h) (step_linked h hl)

theorem visit_strong {s : St α} (fuel : Nat) (root : α) (h : Settled edges s) (hs : Strong edges s.out) :
    Strong edges (visit edges fuel s root).out := by
  unfold visit
  split
  · exact hs
  · rename_i hi
    have hi : s.index root = none := by simpa using hi
    exact loop_strong fuel _ (h.head hi) (Or.inr ⟨root, 0, [], rfl, by simpa using root_linked h.stk hs⟩)

variable {keys : List α} (hk : ∀ x ∈ keys, ∀ w ∈ edges x, w ∈ keys)

include hk

theorem visits_strong : ∀ (roots : List α) (s : St α), (∀ r ∈ roots, r ∈ keys) → Settled edges s → Within edges keys s →
    Strong edges s.out → Strong edges (roots.foldl (visit edges (scans edges keys)) s).out := by
  intro roots
  induction roots with
  | nil => exact fun s _ _ _ hs => hs
  | cons r roots ih =>
    intro s hr h hb hs
    obtain ⟨h1, h2, -⟩ := visit_settled hk (hr r List.mem_cons_self) h hb
    exact ih _ (fun x hx => hr x (List.mem_cons_of_mem _ hx)) h1 h2 (visit_strong _ r h hs)

/-- The nodes of an emitted component reach one another. -/
theorem run_strong : Strong edges (run edges keys) := by
  exact visits_strong hk keys init (fun r hr => hr) init_settled within_init fun c hc => absurd hc List.not_mem_nil

/-- What a component reaches lies in it or before it. -/
theorem reaches_before {pre : List (List α)} {c : List α} {post : List (List α)}
    (ht : run edges keys = pre ++ c :: post) {x y : α} (hx : x ∈ c ∨ x ∈ pre.flatten) (h : Reaches edges x y) :
    y ∈ c ∨ y ∈ pre.flatten := by
  induction h with
  | refl => exact hx
  | tail _ hbc ih =>
    rcases ih with hb | hb
    · exact run_topo hk pre c post ht _ hb _ hbc
    · obtain ⟨d, hd, hbd⟩ := List.mem_flatten.mp hb
      obtain ⟨pre', post', rfl⟩ := List.append_of_mem hd
      have ht' : run edges keys = pre' ++ d :: (post' ++ c :: post) := by rw [ht]; simp
      rcases run_topo hk pre' d _ ht' _ hbd _ hbc with hc | hc
      · exact Or.inr (List.mem_flatten.mpr ⟨d, by simp, hc⟩)
      · right
        rw [List.flatten_append]
        exact List.mem_append_left _ hc

/-- A component holds exactly the nodes strongly connected to any of its own. -/
theorem mem_component {c : List α} (hc : c ∈ run edges keys) {x : α} (hx : x ∈ c) (y : α) :
    y ∈ c ↔ Reaches edges x y ∧ Reaches edges y x := by
  constructor
  · exact fun hy => ⟨run_strong hk c hc x hx y hy, run_strong hk c hc y hy x hx⟩
  · rintro ⟨hxy, hyx⟩
    obtain ⟨pre, post, ht⟩ := List.append_of_mem hc
    rcases reaches_before hk ht (Or.inl hx) hxy with hy | hy
    · exact hy
    · obtain ⟨d, hd, hyd⟩ := List.mem_flatten.mp hy
      obtain ⟨pre', post', rfl⟩ := List.append_of_mem hd
      have ht' : run edges keys = pre' ++ d :: (post' ++ c :: post) := by rw [ht]; simp
      have hxpre : x ∈ (pre' ++ d :: post').flatten := by
        rcases reaches_before hk ht' (Or.inl hyd) hyx with h | h
        · exact List.mem_flatten.mpr ⟨d, by simp, h⟩
        · rw [List.flatten_append]
          exact List.mem_append_left _ h
      have hnd := run_nodup hk
      rw [ht, List.flatten_append, List.nodup_append] at hnd
      exact absurd rfl (hnd.2.2 x hxpre x (by simp [hx]))

omit hk

/-! ## Entered when pushed -/

section Eager

variable (edges)

def advanceEager (v : α) (pos : Nat) (rest : List (α × Nat)) (s : St α) : St α :=
  match (edges v)[pos]? with
  | some w =>
    let s := { s with work := (v, pos + 1) :: rest }
    match s.index w with
    | none => enter w { s with work := (w, 0) :: s.work }
    | some i => if w ∈ s.stack then { s with low := Function.update s.low v (min (s.low v) i) } else s
  | none => lowerParent v { popComp v s with work := rest }

def stepEager (s : St α) : St α :=
  match s.work with
  | [] => s
  | (v, pos) :: rest => advanceEager edges v pos rest s

def loopEager : Nat → St α → St α
  | 0, s => s
  | n + 1, s => if s.work.isEmpty then s else loopEager n (stepEager edges s)

def visitEager (fuel : Nat) (s : St α) (root : α) : St α :=
  if (s.index root).isSome then s else loopEager edges fuel (enter root { s with work := [(root, 0)] })

def runEager (keys : List α) : List (List α) := (keys.foldl (visitEager edges (scans edges keys)) init).out

variable {edges}

/-- The state once the top entry is entered. -/
def entered (s : St α) : St α :=
  match s.work with
  | (v, 0) :: _ => enter v s
  | _ => s

theorem entered_work (s : St α) : (entered s).work = s.work := by
  unfold entered
  split <;> rfl

theorem entered_cons {s : St α} {v : α} {pos : Nat} {rest : List (α × Nat)} (hw : s.work = (v, pos) :: rest) :
    entered s = if pos = 0 then enter v s else s := by
  unfold entered
  rw [hw]
  cases pos <;> rfl

/-- Only the top entry is at its first edge. -/
def Under (s : St α) : Prop := ∀ e ∈ s.work.tail, e.2 ≠ 0

theorem under_step {s : St α} (h : Under s) :
    Under (step edges s) ∧ entered (step edges s) = stepEager edges (entered s) := by
  unfold Under at h
  cases hw : s.work with
  | nil =>
    have hs : step edges s = s := by simp [step, hw]
    have he : entered s = s := by simp [entered, hw]
    exact ⟨by rw [hs]; unfold Under; rw [hw]; simp, by rw [hs, he]; simp [stepEager, hw]⟩
  | cons e rest =>
    obtain ⟨v, pos⟩ := e
    have hs : step edges s = advance edges v pos rest (entered s) := by
      rw [entered_cons hw]
      simp only [step, hw]
    have he : stepEager edges (entered s) = advanceEager edges v pos rest (entered s) := by
      unfold stepEager
      rw [entered_work, hw]
    have hrest : ∀ e ∈ rest, e.2 ≠ 0 := by rw [hw] at h; exact h
    rw [hs, he]
    generalize entered s = t
    unfold advance advanceEager
    cases hev : (edges v)[pos]? with
    | some w =>
      dsimp only
      cases hi : t.index w with
      | none =>
        refine ⟨?_, rfl⟩
        intro e hm
        rcases List.mem_cons.mp hm with rfl | hm
        · exact Nat.succ_ne_zero _
        · exact hrest e hm
      | some i =>
        dsimp only
        split
        · exact ⟨fun e hm => hrest e hm, rfl⟩
        · exact ⟨fun e hm => hrest e hm, rfl⟩
    | none =>
      have hsame : ∀ u : St α, u.work = rest → entered (lowerParent v u) = lowerParent v u := by
        intro u hu
        have hlw : (lowerParent v u).work = rest := by
          unfold lowerParent
          split <;> exact hu
        unfold entered
        rw [hlw]
        cases rest with
        | nil => rfl
        | cons r rest =>
          obtain ⟨p, q⟩ := r
          cases q with
          | zero => exact absurd rfl (hrest (p, 0) List.mem_cons_self)
          | succ q => rfl
      refine ⟨?_, hsame _ rfl⟩
      intro e hm
      have hlw : (lowerParent v { popComp v t with work := rest }).work = rest := by
        unfold lowerParent
        split <;> rfl
      rw [hlw] at hm
      exact hrest e (List.mem_of_mem_tail hm)

theorem entered_done {s : St α} (hw : s.work = []) : entered s = s := by
  simp [entered, hw]

theorem loopEager_eq : ∀ (n : Nat) (s : St α), Under s →
    loopEager edges n (entered s) = entered (loop edges n s) := by
  intro n
  induction n with
  | zero => exact fun s _ => rfl
  | succ n ih =>
    intro s h
    unfold loopEager loop
    rw [entered_work]
    split
    · rfl
    · obtain ⟨h1, h2⟩ := @under_step _ _ edges s h
      rw [← h2]
      exact ih _ h1

/-- With a scan of fuel for every one owed, nothing is left to scan. -/
theorem loop_empty {base : Nat} {keys : List α} (hk : ∀ x ∈ keys, ∀ w ∈ edges x, w ∈ keys) :
    ∀ (n : Nat) (s : St α), Head edges base s → Within edges keys s → total edges keys s ≤ n →
      (loop edges n s).work = [] := by
  intro n
  induction n with
  | zero =>
    intro s h hb hn
    by_contra hne
    have := step_total h hb hne
    omega
  | succ n ih =>
    intro s h hb hn
    unfold loop
    by_cases hw : s.work = []
    · rw [if_pos (by simp [hw])]
      exact hw
    · rw [if_neg (by simpa using hw)]
      have := step_total h hb hw
      exact ih _ (step_head h) (step_within hk hb) (by omega)

theorem visitEager_eq {keys : List α} (hk : ∀ x ∈ keys, ∀ w ∈ edges x, w ∈ keys) {s : St α} {root : α}
    (hr : root ∈ keys) (h : Settled edges s) (hb : Within edges keys s) :
    visitEager edges (scans edges keys) s root = visit edges (scans edges keys) s root := by
  unfold visitEager visit
  split
  · rfl
  · rename_i hi
    have hi : s.index root = none := by simpa using hi
    have hund : Under { s with work := [(root, 0)] } := fun e he => absurd he List.not_mem_nil
    have hloop := @loopEager_eq _ _ edges (scans edges keys) _ hund
    rw [entered_done (loop_empty hk _ _ (h.head hi) (hb.root hr) (total_le keys _))] at hloop
    exact hloop

theorem runEager_eq {keys : List α} (hk : ∀ x ∈ keys, ∀ w ∈ edges x, w ∈ keys) :
    runEager edges keys = run edges keys := by
  have hall : ∀ (roots : List α) (s : St α), (∀ r ∈ roots, r ∈ keys) → Settled edges s → Within edges keys s →
      roots.foldl (visitEager edges (scans edges keys)) s = roots.foldl (visit edges (scans edges keys)) s := by
    intro roots
    induction roots with
    | nil => exact fun s _ _ _ => rfl
    | cons r roots ih =>
      intro s hr h hb
      have hr0 := hr r List.mem_cons_self
      obtain ⟨h1, h2, -⟩ := visit_settled hk hr0 h hb
      rw [List.foldl_cons, List.foldl_cons, visitEager_eq hk hr0 h hb]
      exact ih _ (fun x hx => hr x (List.mem_cons_of_mem _ hx)) h1 h2
  unfold runEager run
  rw [hall keys init (fun r hr => hr) init_settled within_init]

end Eager

end OwnNet.Graph.Tarjan
