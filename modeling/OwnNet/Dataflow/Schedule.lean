/-
  OwnNet.Dataflow.Schedule — the worklist with the next node left to a schedule.

  A visit is that of `Worklist`; `pop` takes some node off the list. A node may be visited
  before any of its predecessors: it gets the empty state then.

  Proved: `solveBy_equations`: at the end every in-state is the join of the predecessors'
  out-states, whatever the order was; `solveBy_induction`: what the entry's state and the
  empty state have, and edges and joins keep, every in-state has; `solveBy_total`: where
  such states can be joined no join of a run fails.
-/

import OwnNet.Dataflow.Termination

namespace OwnNet.Dataflow

/-- `pop` takes one node off the list and leaves the others. -/
structure Pops (pop : List Nat → Option (Nat × List Nat)) : Prop where
  none_ : ∀ work, pop work = none → work = []
  mem : ∀ work b rest, pop work = some (b, rest) → b ∈ work
  rest : ∀ work b rest, pop work = some (b, rest) → ∀ x ∈ rest, x ∈ work
  left : ∀ work b rest, pop work = some (b, rest) → ∀ x ∈ work, x = b ∨ x ∈ rest

variable {σ ε : Type} [DecidableEq σ]

namespace Problem

/-- At most `n` visits; `none` when the list has not emptied by then. -/
def iterateBy (P : Problem σ ε) (pop : List Nat → Option (Nat × List Nat)) : Nat → Run σ → Except ε (Option (Run σ))
  | n, r =>
    match pop r.work with
    | none => .ok (some r)
    | some (b, work) =>
      match n with
      | 0 => .ok none
      | n + 1 =>
        match P.visit b work r.ins r.outs with
        | .error e => .error e
        | .ok r => iterateBy P pop n r

def solveBy (P : Problem σ ε) (pop : List Nat → Option (Nat × List Nat)) (n : Nat) : Except ε (Option (Run σ)) :=
  P.iterateBy pop n P.start

variable {P : Problem σ ε} {pop : List Nat → Option (Nat × List Nat)}

/-- What every visit keeps holds at the end of a run, with nothing left to do. -/
theorem iterateBy_invariant (hpop : Pops pop) {Inv : Run σ → Prop}
    (hvisit : ∀ r b work r', Inv r → pop r.work = some (b, work) → P.visit b work r.ins r.outs = .ok r' → Inv r') {n : Nat}
    {r r' : Run σ} (hr : Inv r) (h : P.iterateBy pop n r = .ok (some r')) : Inv r' ∧ r'.work = [] := by
  induction n generalizing r with
  | zero =>
    unfold iterateBy at h
    split at h
    next hnone =>
      cases h
      exact ⟨hr, hpop.none_ _ hnone⟩
    next => cases h
  | succ n ih =>
    unfold iterateBy at h
    split at h
    next hnone =>
      cases h
      exact ⟨hr, hpop.none_ _ hnone⟩
    next b work hp =>
      simp only at h
      split at h
      next => cases h
      next r₁ hr₁ => exact ih (hvisit r b work r₁ hr hp hr₁) h

/-- At the end the states solve the equations, and no other node has one. -/
theorem solveBy_equations (hP : P.WellFormed) (hpop : Pops pop) {n : Nat} {r : Run σ} (h : P.solveBy pop n = .ok (some r)) :
    (∀ b ∈ P.nodes, P.Settled r.ins r.outs b) ∧ ∀ b s, r.ins.get? b = some s → b ∈ P.nodes := by
  let Inv : Run σ → Prop := fun r =>
    (∀ x ∈ r.work, x ∈ P.nodes) ∧ (∀ c ∈ P.nodes, c ∉ r.work → P.Settled r.ins r.outs c) ∧
      ∀ b s, r.ins.get? b = some s → b ∈ P.nodes
  have hvisit : ∀ r b work r', Inv r → pop r.work = some (b, work) → P.visit b work r.ins r.outs = .ok r' → Inv r' := by
    intro r b work r' hInv hp hr
    have hb : b ∈ P.nodes := hInv.1 b (hpop.mem _ _ _ hp)
    refine ⟨?_, ?_, ?_⟩
    · refine visit_work (fun x hx => ?_) hr
      rcases List.mem_cons.mp hx with rfl | hx
      · exact hb
      · exact hInv.1 x (hpop.rest _ _ _ hp x hx)
    · refine visit_settled hP hb (fun c hc hnot => hInv.2.1 c hc fun hmem => hnot ?_) hr
      exact List.mem_cons.mpr (hpop.left _ _ _ hp c hmem)
    · intro c s hs
      obtain ⟨t, -, hins, -⟩ := visit_ok hr
      rw [hins, Dict.get?_set] at hs
      split at hs
      next hc => exact hc ▸ hb
      next => exact hInv.2.2 c s hs
  have hstart : Inv P.start := ⟨fun x hx => hx, fun c hc hw => absurd hc hw, fun b s hs => by cases hs⟩
  obtain ⟨hend, hwork⟩ := iterateBy_invariant hpop hvisit hstart h
  exact ⟨fun b hb => hend.2.1 b hb (by rw [hwork]; exact List.not_mem_nil), hend.2.2⟩

omit [DecidableEq σ] in
/-- What a visit finds has what the states that come in have. -/
theorem inState_has {Q : Nat → σ → Prop} (hP : P.WellFormed) (hinit : Q P.entry P.init) (hempty : ∀ b, Q b P.empty)
    (hedge : ∀ p b s, p ∈ P.nodes → b ∈ P.succ p → Q p s → Q b (P.transfer p s))
    (hjoin : ∀ b s t u, Q b s → Q b t → P.join s t = .ok u → Q b u) {outs : Dict Nat σ} (hg : P.Given Q outs) {b : Nat} {s : σ}
    (h : P.inState outs b = .ok s) : Q b s := by
  unfold inState at h
  split at h
  next hentry =>
    cases h
    exact hentry ▸ hinit
  next =>
    have hin : ∀ x ∈ P.incoming outs b, Q b x := hg.incoming hP hedge
    split at h
    next =>
      cases h
      exact hempty b
    next x xs hcons =>
      rw [hcons] at hin
      exact joinAll_induction P (hjoin b) (hin x List.mem_cons_self) (fun y hy => hin y (List.mem_cons_of_mem _ hy)) h

theorem solveBy_induction (hP : P.WellFormed) (hpop : Pops pop) {Q : Nat → σ → Prop} (hinit : Q P.entry P.init)
    (hempty : ∀ b, Q b P.empty) (hedge : ∀ p b s, p ∈ P.nodes → b ∈ P.succ p → Q p s → Q b (P.transfer p s))
    (hjoin : ∀ b s t u, Q b s → Q b t → P.join s t = .ok u → Q b u) {n : Nat} {r : Run σ}
    (h : P.solveBy pop n = .ok (some r)) {b : Nat} {s : σ} (hs : r.ins.get? b = some s) : Q b s := by
  let Inv : Run σ → Prop := fun r => (∀ c t, r.ins.get? c = some t → Q c t) ∧ P.Given Q r.outs
  have hvisit : ∀ r b work r', Inv r → pop r.work = some (b, work) → P.visit b work r.ins r.outs = .ok r' → Inv r' := by
    intro r b work r' hInv _ hr
    obtain ⟨t, ht, hrins, hcase⟩ := visit_ok hr
    have hQ : Q b t := inState_has hP hinit hempty hedge hjoin hInv.2 ht
    refine ⟨?_, ?_⟩
    · intro c u hu
      rw [hrins, Dict.get?_set] at hu
      split at hu
      next hc =>
        cases hu
        exact hc ▸ hQ
      next => exact hInv.1 c u hu
    · rcases hcase with ⟨_, _, heq⟩ | ⟨_, heq⟩
      · rw [heq]
        exact hInv.2
      · rw [heq]
        exact hInv.2.set hQ
  have hstart : Inv P.start := ⟨(by intro c t ht; cases ht), (by intro c o ho; cases ho)⟩
  exact (iterateBy_invariant hpop hvisit hstart h).1.1 b s hs

variable (pop) in
/-- No run stops at a join, where the states that can meet join. -/
theorem solveBy_total (hP : P.WellFormed) {Q : Nat → σ → Prop} (h : P.Total Q) (hempty : ∀ b, Q b P.empty) (n : Nat) :
    ∃ r, P.solveBy pop n = .ok r := by
  have hin : ∀ outs, P.Given Q outs → ∀ b, ∃ s, P.inState outs b = .ok s ∧ Q b s := by
    intro outs hg b
    unfold inState
    split
    next hentry => exact ⟨P.init, rfl, hentry ▸ h.init⟩
    next =>
      have hall : ∀ x ∈ P.incoming outs b, Q b x := hg.incoming hP h.edge
      split
      next => exact ⟨P.empty, rfl, hempty b⟩
      next x xs hcons =>
        rw [hcons] at hall
        exact joinAll_total (h.join b) (hall x List.mem_cons_self) fun y hy => hall y (List.mem_cons_of_mem _ hy)
  have hrun : ∀ n r, P.Given Q r.outs → ∃ r', P.iterateBy pop n r = .ok r' := by
    intro n
    induction n with
    | zero =>
      intro r _
      unfold iterateBy
      split
      · exact ⟨_, rfl⟩
      · exact ⟨_, rfl⟩
    | succ n ih =>
      intro r hg
      unfold iterateBy
      split
      next => exact ⟨_, rfl⟩
      next b work hp =>
        obtain ⟨s, hs, hQ⟩ := hin r.outs hg b
        simp only [visit_eq work r.ins hs]
        refine ih _ ?_
        split
        · exact hg
        · exact hg.set hQ
  exact hrun n P.start fun p o ho => by cases ho

end Problem

end OwnNet.Dataflow
