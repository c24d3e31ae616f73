/-
  OwnNet.Dataflow.Worklist — a forward worklist over a graph, for any state type, transfer
  and (partial) join.

  A node's in-state is the join of what its predecessors last gave; the entry's is fixed.
  A node whose out-state changes puts its successors back on the list. A node visited before
  any predecessor gets the empty state: `Ordered` graphs, whose nodes all but the entry have
  a smaller predecessor, never meet that case.

  Proved: `solve_equations`: at the end every in-state is the join of the predecessors'
  out-states; `solve_edge`: so what comes over an edge is below it; `solve_induction`: what
  the entry has and edges and joins keep holds of every in-state.
-/

import OwnNet.Dict
import Mathlib.Data.List.Sort
import Mathlib.Order.Nat

namespace OwnNet.Dataflow

structure Problem (σ ε : Type) where
  nodes : List Nat
  entry : Nat
  preds : Nat → List Nat
  succ : Nat → List Nat
  init : σ
  empty : σ
  join : σ → σ → Except ε σ
  transfer : Nat → σ → σ

structure Run (σ : Type) where
  work : List Nat
  ins : Dict Nat σ
  outs : Dict Nat σ

variable {σ ε : Type}

namespace Problem

def joinAll (P : Problem σ ε) : σ → List σ → Except ε σ
  | s, [] => .ok s
  | s, t :: rest =>
    match P.join s t with
    | .ok u => joinAll P u rest
    | .error e => .error e

/-- The out-states of a node's predecessors, of those that have one. -/
def incoming (P : Problem σ ε) (outs : Dict Nat σ) (b : Nat) : List σ :=
  ((P.preds b).filter (· ∈ P.nodes)).filterMap outs.get?

def inState (P : Problem σ ε) (outs : Dict Nat σ) (b : Nat) : Except ε σ :=
  if b = P.entry then .ok P.init
  else
    match P.incoming outs b with
    | [] => .ok P.empty
    | s :: rest => P.joinAll s rest

def enqueue (P : Problem σ ε) : List Nat → List Nat → List Nat
  | [], work => work
  | s :: rest, work => enqueue P rest (if s ∈ P.nodes ∧ s ∉ work then work ++ [s] else work)

def visit [DecidableEq σ] (P : Problem σ ε) (b : Nat) (work : List Nat) (ins outs : Dict Nat σ) : Except ε (Run σ) :=
  match P.inState outs b with
  | .error e => .error e
  | .ok s =>
    let out := P.transfer b s
    if outs.get? b = some out then .ok ⟨work, ins.set b s, outs⟩
    else .ok ⟨P.enqueue (P.succ b) work, ins.set b s, outs.set b out⟩

/-- At most `n` visits; `none` when the list has not emptied by then. -/
def iterate [DecidableEq σ] (P : Problem σ ε) : Nat → Run σ → Except ε (Option (Run σ))
  | _, ⟨[], ins, outs⟩ => .ok (some ⟨[], ins, outs⟩)
  | 0, ⟨_ :: _, _, _⟩ => .ok none
  | n + 1, ⟨b :: work, ins, outs⟩ =>
    match P.visit b work ins outs with
    | .error e => .error e
    | .ok r => iterate P n r

def start (P : Problem σ ε) : Run σ := ⟨P.nodes, Dict.empty, Dict.empty⟩

def solve [DecidableEq σ] (P : Problem σ ε) (n : Nat) : Except ε (Option (Run σ)) := P.iterate n P.start

/-- The edges seen from both ends, all between nodes. -/
structure WellFormed (P : Problem σ ε) : Prop where
  edge : ∀ p ∈ P.nodes, ∀ b, p ∈ P.preds b ↔ b ∈ P.succ p
  closed : ∀ p ∈ P.nodes, ∀ b ∈ P.succ p, b ∈ P.nodes

/-- Visited in increasing order, every node but the entry has a predecessor already visited. -/
structure Ordered (P : Problem σ ε) : Prop where
  sorted : P.nodes.Pairwise (· < ·)
  back : ∀ b ∈ P.nodes, b ≠ P.entry → ∃ p ∈ P.nodes, p < b ∧ p ∈ P.preds b

/-! ## Joining -/

theorem joinAll_induction (P : Problem σ ε) {Q : σ → Prop} (hjoin : ∀ s t u, Q s → Q t → P.join s t = .ok u → Q u)
    {s u : σ} {rest : List σ} (hs : Q s) (hrest : ∀ t ∈ rest, Q t) (h : P.joinAll s rest = .ok u) : Q u := by
  induction rest generalizing s with
  | nil =>
    cases h
    exact hs
  | cons t rest ih =>
    rw [joinAll] at h
    split at h
    next v hv =>
      have hv' : Q v := hjoin s t v hs (hrest t List.mem_cons_self) hv
      exact ih hv' (fun x hx => hrest x (List.mem_cons_of_mem _ hx)) h
    next => cases h

theorem le_joinAll (P : Problem σ ε) {R : σ → Prop} (hleft : ∀ s t u, R s → P.join s t = .ok u → R u)
    (hright : ∀ s t u, R t → P.join s t = .ok u → R u) {s u : σ} {rest : List σ} (hR : R s ∨ ∃ t ∈ rest, R t)
    (h : P.joinAll s rest = .ok u) : R u := by
  induction rest generalizing s with
  | nil =>
    cases h
    rcases hR with hs | ⟨t, ht, _⟩
    · exact hs
    · exact absurd ht List.not_mem_nil
  | cons t rest ih =>
    rw [joinAll] at h
    split at h
    next v hv =>
      refine ih ?_ h
      rcases hR with hs | ⟨x, hx, hxR⟩
      · exact Or.inl (hleft s t v hs hv)
      · rcases List.mem_cons.mp hx with rfl | hx
        · exact Or.inl (hright s x v hxR hv)
        · exact Or.inr ⟨x, hx, hxR⟩
    next => cases h

theorem mem_incoming {P : Problem σ ε} {outs : Dict Nat σ} {b : Nat} {s : σ} :
    s ∈ P.incoming outs b ↔ ∃ p ∈ P.preds b, p ∈ P.nodes ∧ outs.get? p = some s := by
  simp [incoming, List.mem_filterMap, and_assoc]

theorem inState_congr {P : Problem σ ε} {outs outs' : Dict Nat σ} {b : Nat}
    (h : ∀ p ∈ P.preds b, p ∈ P.nodes → outs'.get? p = outs.get? p) : P.inState outs' b = P.inState outs b := by
  have : P.incoming outs' b = P.incoming outs b := by
    unfold incoming
    apply List.filterMap_congr
    intro p hp
    rw [List.mem_filter] at hp
    exact h p hp.1 (by simpa using hp.2)
  rw [inState, inState, this]

theorem mem_enqueue {P : Problem σ ε} {ss work : List Nat} {x : Nat} :
    x ∈ P.enqueue ss work ↔ x ∈ work ∨ (x ∈ ss ∧ x ∈ P.nodes) := by
  induction ss generalizing work with
  | nil => simp [enqueue]
  | cons s rest ih =>
    rw [enqueue, ih]
    by_cases hs : s ∈ P.nodes ∧ s ∉ work
    · rw [if_pos hs, List.mem_append, List.mem_singleton, List.mem_cons]
      constructor
      · intro h
        rcases h with (h | rfl) | h
        · exact Or.inl h
        · exact Or.inr ⟨Or.inl rfl, hs.1⟩
        · exact Or.inr ⟨Or.inr h.1, h.2⟩
      · intro h
        rcases h with h | ⟨rfl | h, hn⟩
        · exact Or.inl (Or.inl h)
        · exact Or.inl (Or.inr rfl)
        · exact Or.inr ⟨h, hn⟩
    · rw [if_neg hs, List.mem_cons]
      constructor
      · intro h
        rcases h with h | h
        · exact Or.inl h
        · exact Or.inr ⟨Or.inr h.1, h.2⟩
      · intro h
        rcases h with h | ⟨rfl | h, hn⟩
        · exact Or.inl h
        · exact Or.inl (by by_contra hw; exact hs ⟨hn, hw⟩)
        · exact Or.inr ⟨h, hn⟩

theorem enqueue_eq_append (P : Problem σ ε) (ss work : List Nat) :
    ∃ more, P.enqueue ss work = work ++ more ∧ ∀ x ∈ more, x ∈ P.nodes := by
  induction ss generalizing work with
  | nil => exact ⟨[], by simp [enqueue], fun x hx => absurd hx List.not_mem_nil⟩
  | cons s rest ih =>
    rw [enqueue]
    by_cases hs : s ∈ P.nodes ∧ s ∉ work
    · rw [if_pos hs]
      obtain ⟨more, hmore, hn⟩ := ih (work ++ [s])
      refine ⟨s :: more, by rw [hmore]; simp, ?_⟩
      intro x hx
      rcases List.mem_cons.mp hx with rfl | hx
      · exact hs.1
      · exact hn x hx
    · rw [if_neg hs]
      exact ih work

/-! ## One visit and a whole run -/

variable [DecidableEq σ]

/-- What a visit does: the in-state is recomputed, and a changed out-state queues the successors. -/
theorem visit_ok {P : Problem σ ε} {b : Nat} {work : List Nat} {ins outs : Dict Nat σ} {r : Run σ}
    (h : P.visit b work ins outs = .ok r) :
    ∃ s, P.inState outs b = .ok s ∧ r.ins = ins.set b s ∧
      ((outs.get? b = some (P.transfer b s) ∧ r.work = work ∧ r.outs = outs) ∨
        (r.work = P.enqueue (P.succ b) work ∧ r.outs = outs.set b (P.transfer b s))) := by
  rw [visit] at h
  split at h
  next => cases h
  next s hs =>
    refine ⟨s, hs, ?_⟩
    dsimp only at h
    split at h
    next heq =>
      cases h
      exact ⟨rfl, Or.inl ⟨heq, rfl, rfl⟩⟩
    next =>
      cases h
      exact ⟨rfl, Or.inr ⟨rfl, rfl⟩⟩

/-- What every visit keeps holds at the end of a run, with nothing left to do. -/
theorem iterate_invariant {P : Problem σ ε} {Inv : Run σ → Prop}
    (hvisit : ∀ b work ins outs r, Inv ⟨b :: work, ins, outs⟩ → P.visit b work ins outs = .ok r → Inv r) {n : Nat}
    {r r' : Run σ} (hr : Inv r) (h : P.iterate n r = .ok (some r')) : Inv r' ∧ r'.work = [] := by
  induction n generalizing r with
  | zero =>
    obtain ⟨work, ins, outs⟩ := r
    cases work with
    | nil =>
      cases h
      exact ⟨hr, rfl⟩
    | cons b work => cases h
  | succ n ih =>
    obtain ⟨work, ins, outs⟩ := r
    cases work with
    | nil =>
      cases h
      exact ⟨hr, rfl⟩
    | cons b work =>
      rw [iterate] at h
      split at h
      next => cases h
      next r₁ hr₁ => exact ih (hvisit b work ins outs r₁ hr hr₁) h

/-! ## The equations at the end -/

/-- The node's in-state and out-state are those its predecessors' out-states give. -/
def Settled (P : Problem σ ε) (ins outs : Dict Nat σ) (b : Nat) : Prop :=
  ∃ s, ins.get? b = some s ∧ P.inState outs b = .ok s ∧ outs.get? b = some (P.transfer b s)

theorem visit_settled {P : Problem σ ε} (hP : P.WellFormed) {b : Nat} {work : List Nat} {ins outs : Dict Nat σ}
    {r : Run σ} (hb : b ∈ P.nodes) (hInv : ∀ c ∈ P.nodes, c ∉ b :: work → P.Settled ins outs c)
    (h : P.visit b work ins outs = .ok r) : ∀ c ∈ P.nodes, c ∉ r.work → P.Settled r.ins r.outs c := by
  intro c hc hcw
  obtain ⟨s, hs, hins, hcase⟩ := visit_ok h
  rw [hins]
  rcases hcase with ⟨hout, hwork, houts⟩ | ⟨hwork, houts⟩
  · rw [houts]
    by_cases hcb : c = b
    · subst hcb
      exact ⟨s, Dict.get?_set_self _ _ _, hs, hout⟩
    · rw [hwork] at hcw
      obtain ⟨t, ht, hin, hto⟩ := hInv c hc (by simp [hcb, hcw])
      exact ⟨t, by rw [Dict.get?_set_of_ne _ _ hcb, ht], hin, hto⟩
  · rw [hwork, mem_enqueue, not_or, not_and'] at hcw
    have hpred : b ∉ P.preds c := fun hp => hcw.2 hc ((hP.edge b hb c).mp hp)
    have hsame : P.inState r.outs c = P.inState outs c := by
      rw [houts]
      apply inState_congr
      intro p hp _
      exact Dict.get?_set_of_ne _ _ fun hpb => hpred (hpb ▸ hp)
    by_cases hcb : c = b
    · subst hcb
      exact ⟨s, Dict.get?_set_self _ _ _, by rw [hsame, hs], by rw [houts, Dict.get?_set_self]⟩
    · obtain ⟨t, ht, hin, hto⟩ := hInv c hc (by simp [hcb, hcw.1])
      exact ⟨t, by rw [Dict.get?_set_of_ne _ _ hcb, ht], by rw [hsame, hin],
        by rw [houts, Dict.get?_set_of_ne _ _ hcb, hto]⟩

theorem visit_work {P : Problem σ ε} {b : Nat} {work : List Nat} {ins outs : Dict Nat σ} {r : Run σ}
    (hwork : ∀ x ∈ b :: work, x ∈ P.nodes) (h : P.visit b work ins outs = .ok r) : ∀ x ∈ r.work, x ∈ P.nodes := by
  intro x hx
  obtain ⟨s, _, _, ⟨_, hw, _⟩ | ⟨hw, _⟩⟩ := visit_ok h
  · exact hwork x (List.mem_cons_of_mem _ (hw ▸ hx))
  · rw [hw, mem_enqueue] at hx
    rcases hx with hx | ⟨_, hx⟩
    · exact hwork x (List.mem_cons_of_mem _ hx)
    · exact hx

/-- At the end the states solve the equations. -/
theorem solve_equations {P : Problem σ ε} (hP : P.WellFormed) {n : Nat} {r : Run σ} (h : P.solve n = .ok (some r)) :
    ∀ b ∈ P.nodes, P.Settled r.ins r.outs b := by
  let Inv : Run σ → Prop := fun r =>
    (∀ x ∈ r.work, x ∈ P.nodes) ∧ ∀ c ∈ P.nodes, c ∉ r.work → P.Settled r.ins r.outs c
  have hvisit : ∀ b work ins outs r, Inv ⟨b :: work, ins, outs⟩ → P.visit b work ins outs = .ok r → Inv r := by
    intro b work ins outs r hInv hr
    exact ⟨visit_work hInv.1 hr, visit_settled hP (hInv.1 b List.mem_cons_self) hInv.2 hr⟩
  have hstart : Inv P.start := ⟨fun x hx => hx, fun c hc hw => absurd hc hw⟩
  obtain ⟨hend, hwork⟩ := iterate_invariant hvisit hstart h
  intro b hb
  exact hend.2 b hb (by rw [hwork]; exact List.not_mem_nil)

/-- What comes over an edge stays below the in-state it goes into. -/
theorem solve_edge {P : Problem σ ε} (hP : P.WellFormed) {n : Nat} {r : Run σ} (h : P.solve n = .ok (some r))
    {R : σ → Prop} (hleft : ∀ s t u, R s → P.join s t = .ok u → R u)
    (hright : ∀ s t u, R t → P.join s t = .ok u → R u) {p b : Nat} {s t : σ} (hp : p ∈ P.nodes) (hb : b ∈ P.succ p)
    (hentry : b ≠ P.entry) (hs : r.ins.get? p = some s) (ht : r.ins.get? b = some t) (hR : R (P.transfer p s)) :
    R t := by
  obtain ⟨s', hs', _, hout⟩ := solve_equations hP h p hp
  rw [hs] at hs'
  cases hs'
  obtain ⟨t', ht', hin, _⟩ := solve_equations hP h b (hP.closed p hp b hb)
  rw [ht] at ht'
  cases ht'
  have hmem : P.transfer p s ∈ P.incoming r.outs b := mem_incoming.mpr ⟨p, (hP.edge p hp b).mpr hb, hp, hout⟩
  rw [inState, if_neg hentry] at hin
  split at hin
  next hnil =>
    rw [hnil] at hmem
    exact absurd hmem List.not_mem_nil
  next u rest hcons =>
    rw [hcons] at hmem
    apply le_joinAll P hleft hright _ hin
    rcases List.mem_cons.mp hmem with heq | hmem
    · exact Or.inl (heq ▸ hR)
    · exact Or.inr ⟨_, hmem, hR⟩

/-! ## Induction over the run -/

/-- The visits still due begin with the untouched tail of the first pass. -/
structure FirstPass (P : Problem σ ε) (r : Run σ) (rest more : List Nat) : Prop where
  work : r.work = rest ++ more
  sorted : rest.Pairwise (· < ·)
  nodes : ∀ x ∈ rest ++ more, x ∈ P.nodes
  visited : ∀ b ∈ P.nodes, b ∉ rest → (r.outs.get? b).isSome

omit [DecidableEq σ] in
theorem FirstPass.smaller {P : Problem σ ε} {r : Run σ} {rest more : List Nat} (h : P.FirstPass r rest more)
    {b p : Nat} (hb : r.work.head? = some b) (hp : p ∈ P.nodes) (hlt : p < b) : (r.outs.get? p).isSome := by
  apply h.visited p hp
  intro hmem
  cases rest with
  | nil => exact absurd hmem List.not_mem_nil
  | cons c rest =>
    have hsorted := List.pairwise_cons.mp h.sorted
    have hcb : c = b := by
      rw [h.work] at hb
      simpa using hb
    rcases List.mem_cons.mp hmem with rfl | hmem
    · omega
    · have := hsorted.1 p hmem
      omega

theorem FirstPass.visit {P : Problem σ ε} {b : Nat} {work : List Nat} {ins outs : Dict Nat σ} {r : Run σ}
    {rest more : List Nat} (h : P.FirstPass ⟨b :: work, ins, outs⟩ rest more) (hr : P.visit b work ins outs = .ok r) :
    ∃ rest' more', P.FirstPass r rest' more' := by
  obtain ⟨s, _, _, hcase⟩ := visit_ok hr
  have hext : ∃ ext, r.work = work ++ ext ∧ ∀ x ∈ ext, x ∈ P.nodes := by
    rcases hcase with ⟨_, hw, _⟩ | ⟨hw, _⟩
    · exact ⟨[], by simp [hw], fun x hx => absurd hx List.not_mem_nil⟩
    · rw [hw]
      exact enqueue_eq_append P _ _
  have hkeep : ∀ c, c = b ∨ (outs.get? c).isSome → (r.outs.get? c).isSome := by
    intro c hc
    rcases hcase with ⟨ho, _, houts⟩ | ⟨_, houts⟩
    · rw [houts]
      rcases hc with rfl | hc
      · simp [ho]
      · exact hc
    · rw [houts, Dict.get?_set]
      rcases hc with rfl | hc
      · simp
      · split
        · rfl
        · exact hc
  obtain ⟨ext, hwork, hextNodes⟩ := hext
  have hsplit : b :: work = rest ++ more := h.work
  cases rest with
  | nil =>
    have hmore : more = b :: work := hsplit.symm
    refine ⟨[], work ++ ext, ⟨by simp [hwork], List.Pairwise.nil, ?_, ?_⟩⟩
    · intro x hx
      rcases List.mem_append.mp hx with hx | hx
      · exact absurd hx List.not_mem_nil
      · rcases List.mem_append.mp hx with hx | hx
        · exact h.nodes x (by simp [hmore, hx])
        · exact hextNodes x hx
    · intro c hc _
      exact hkeep c (Or.inr (h.visited c hc List.not_mem_nil))
  | cons c rest =>
    rw [List.cons_append, List.cons.injEq] at hsplit
    obtain ⟨rfl, hw⟩ := hsplit
    refine ⟨rest, more ++ ext, ⟨by rw [hwork, hw, List.append_assoc], (List.pairwise_cons.mp h.sorted).2, ?_, ?_⟩⟩
    · intro x hx
      rw [← List.append_assoc] at hx
      rcases List.mem_append.mp hx with hx | hx
      · exact h.nodes x (List.mem_cons_of_mem _ hx)
      · exact hextNodes x hx
    · intro c hc hcr
      by_cases hcb : c = b
      · exact hkeep c (Or.inl hcb)
      · exact hkeep c (Or.inr (h.visited c hc (by simp [hcb, hcr])))

/-- What the entry's state has, and edges and joins keep, every in-state has. -/
theorem solve_induction {P : Problem σ ε} (hP : P.WellFormed) (hord : P.Ordered) {Q : Nat → σ → Prop}
    (hinit : Q P.entry P.init)
    (hedge : ∀ p b s, p ∈ P.nodes → b ∈ P.succ p → Q p s → Q b (P.transfer p s))
    (hjoin : ∀ b s t u, Q b s → Q b t → P.join s t = .ok u → Q b u)
    {n : Nat} {r : Run σ} (h : P.solve n = .ok (some r)) {b : Nat} {s : σ} (hs : r.ins.get? b = some s) : Q b s := by
  let Inv : Run σ → Prop := fun r =>
    (∃ rest more, P.FirstPass r rest more) ∧ (∀ c t, r.ins.get? c = some t → Q c t) ∧
      ∀ c o, r.outs.get? c = some o → ∃ t, Q c t ∧ o = P.transfer c t
  have hvisit : ∀ b work ins outs r, Inv ⟨b :: work, ins, outs⟩ → P.visit b work ins outs = .ok r → Inv r := by
    intro b work ins outs r hInv hr
    obtain ⟨⟨rest, more, hpass⟩, hins, houts⟩ := hInv
    have hb : b ∈ P.nodes := hpass.nodes b (by rw [← hpass.work]; exact List.mem_cons_self)
    obtain ⟨t, ht, hrins, hcase⟩ := visit_ok hr
    have hQ : Q b t := by
      rw [inState] at ht
      split at ht
      next hentry =>
        cases ht
        rw [hentry]
        exact hinit
      next hentry =>
        have hin : ∀ x ∈ P.incoming outs b, Q b x := by
          intro x hx
          obtain ⟨p, hp, hpn, hout⟩ := mem_incoming.mp hx
          obtain ⟨y, hy, rfl⟩ := houts p x hout
          exact hedge p b y hpn ((hP.edge p hpn b).mp hp) hy
        split at ht
        next hnil =>
          obtain ⟨p, hpn, hlt, hp⟩ := hord.back b hb hentry
          obtain ⟨o, ho⟩ := Option.isSome_iff_exists.mp (hpass.smaller rfl hpn hlt)
          have : o ∈ P.incoming outs b := mem_incoming.mpr ⟨p, hp, hpn, ho⟩
          rw [hnil] at this
          exact absurd this List.not_mem_nil
        next x xs hcons =>
          rw [hcons] at hin
          exact joinAll_induction P (hjoin b) (hin x List.mem_cons_self)
            (fun y hy => hin y (List.mem_cons_of_mem _ hy)) ht
    refine ⟨hpass.visit hr, ?_, ?_⟩
    · intro c u hu
      rw [hrins, Dict.get?_set] at hu
      split at hu
      next hc =>
        cases hu
        exact hc ▸ hQ
      next => exact hins c u hu
    · intro c o ho
      rcases hcase with ⟨_, _, heq⟩ | ⟨_, heq⟩
      · rw [heq] at ho
        exact houts c o ho
      · rw [heq, Dict.get?_set] at ho
        split at ho
        next hc =>
          cases ho
          subst hc
          exact ⟨t, hQ, rfl⟩
        next => exact houts c o ho
  have hstart : Inv P.start := by
    refine ⟨⟨P.nodes, [], ⟨by simp [start], hord.sorted, fun x hx => by simpa using hx, fun c hc hn => absurd hc hn⟩⟩, ?_, ?_⟩
    · intro c t ht
      cases ht
    · intro c o ho
      cases ho
  exact (iterate_invariant hvisit hstart h).1.2.1 b s hs

end Problem

end OwnNet.Dataflow
