/-
  OwnNet.Dataflow.Joins — what a worklist finds, seen through an abstraction of its states.

  A `Framework` has the abstract states and what the nodes do to them; where that keeps joins, the
  abstraction of what a run finds at a node is the join over all paths to it. Two problems with
  states of their own that are abstracted to one framework so find the same, in whatever order each
  of them visits the nodes.

  Proved: `Abstracts.isLUB`: an in-state of a run stands for the join over the paths; `Abstracts.total`:
  no join of a run fails.
-/

import Mathlib.Order.Bounds.Basic
import OwnNet.Dataflow.Schedule

namespace OwnNet.Dataflow

/-- Abstract states over a graph. -/
structure Framework (D : Type) where
  entry : Nat
  succ : Nat → List Nat
  init : D
  transfer : Nat → D → D

/-- What one path gives. -/
inductive Along {D : Type} (A : Framework D) : Nat → D → Prop
  | entry : Along A A.entry A.init
  | edge {b c : Nat} {d : D} : Along A b d → c ∈ A.succ b → Along A c (A.transfer b d)

section

variable {D : Type} [PartialOrder D] [OrderBot D] {A : Framework D}

theorem isLUB_bot_pair (d : D) : IsLUB {⊥, d} d := by
  refine ⟨fun x hx => ?_, fun v hv => hv (Or.inr rfl)⟩
  rcases hx with rfl | rfl
  · exact bot_le
  · exact le_refl _

/-- What joins of what paths give. -/
inductive Gathered (A : Framework D) : Nat → D → Prop
  | along {b : Nat} {d : D} : Along A b d → Gathered A b d
  | bot (b : Nat) : Gathered A b ⊥
  | join {b : Nat} {d d' e : D} : Gathered A b d → Gathered A b d' → IsLUB {d, d'} e → Gathered A b e

structure Distributes (A : Framework D) : Prop where
  bot : ∀ b, A.transfer b ⊥ = ⊥
  join : ∀ b d d' e, Gathered A b d → Gathered A b d' → IsLUB {d, d'} e →
    IsLUB {A.transfer b d, A.transfer b d'} (A.transfer b e)
  noBack : ∀ b, A.entry ∉ A.succ b

theorem Gathered.edge (h : Distributes A) {b c : Nat} {d : D} (hd : Gathered A b d) (hc : c ∈ A.succ b) :
    Gathered A c (A.transfer b d) := by
  induction hd with
  | along hd => exact .along (.edge hd hc)
  | bot =>
    rw [h.bot]
    exact .bot c
  | join hd hd' he ih ih' => exact .join ih ih' (h.join _ _ _ _ hd hd' he)

/-- Nothing but what the paths give is in a join of it. -/
theorem Gathered.least {b : Nat} {d v : D} (hd : Gathered A b d) (hv : ∀ d', Along A b d' → d' ≤ v) : d ≤ v := by
  induction hd with
  | along hd => exact hv _ hd
  | bot => exact bot_le
  | join _ _ he ih ih' =>
    refine he.2 fun x hx => ?_
    rcases hx with rfl | rfl
    · exact ih
    · exact ih'

theorem Distributes.mono (h : Distributes A) {b : Nat} {d e : D} (hd : Gathered A b d) (he : Gathered A b e) (hle : d ≤ e) :
    A.transfer b d ≤ A.transfer b e := by
  have hlub : IsLUB {d, e} e := by
    refine ⟨fun x hx => ?_, fun v hv => hv (Or.inr rfl)⟩
    rcases hx with rfl | rfl
    · exact hle
    · exact le_refl _
  exact (h.join b d e e hd he hlub).1 (Or.inl rfl)

end

/-! ## Problems -/

section

variable {σ ε D : Type} [PartialOrder D] [OrderBot D]

/-- The problem's states stand for those of the framework. -/
structure Abstracts (P : Problem σ ε) (A : Framework D) (abs : σ → D) : Prop where
  entry : P.entry = A.entry
  succ : P.succ = A.succ
  init : abs P.init = A.init
  transfer : ∀ b s, Gathered A b (abs s) → abs (P.transfer b s) = A.transfer b (abs s)
  join : ∀ b s t, Gathered A b (abs s) → Gathered A b (abs t) → ∃ u, P.join s t = .ok u ∧ IsLUB {abs s, abs t} (abs u)

namespace Abstracts

variable {P : Problem σ ε} {A : Framework D} {abs : σ → D}

theorem join_ok (h : Abstracts P A abs) {b : Nat} {s t u : σ} (hs : Gathered A b (abs s)) (ht : Gathered A b (abs t))
    (hu : P.join s t = .ok u) : IsLUB {abs s, abs t} (abs u) := by
  obtain ⟨u', hu', hlub⟩ := h.join b s t hs ht
  rw [hu] at hu'
  cases hu'
  exact hlub

theorem gathered_init (h : Abstracts P A abs) : Gathered A P.entry (abs P.init) := by
  rw [h.entry, h.init]
  exact .along .entry

theorem gathered_edge (h : Abstracts P A abs) (hA : Distributes A) {p c : Nat} {s : σ} (hc : c ∈ P.succ p)
    (hs : Gathered A p (abs s)) : Gathered A c (abs (P.transfer p s)) := by
  rw [h.transfer p s hs]
  rw [h.succ] at hc
  exact hs.edge hA hc

theorem gathered_join (h : Abstracts P A abs) {b : Nat} {s t u : σ} (hs : Gathered A b (abs s)) (ht : Gathered A b (abs t))
    (hu : P.join s t = .ok u) : Gathered A b (abs u) := .join hs ht (h.join_ok hs ht hu)

theorem total (h : Abstracts P A abs) (hA : Distributes A) : P.Total fun b s => Gathered A b (abs s) where
  init := h.gathered_init
  edge p c s _ hc hs := h.gathered_edge hA hc hs
  join b s t hs ht := by
    obtain ⟨u, hu, hlub⟩ := h.join b s t hs ht
    exact ⟨u, hu, .join hs ht hlub⟩

/-- A join of several states is above each. -/
theorem joinAll_above (h : Abstracts P A abs) {b : Nat} {s u : σ} {rest : List σ} (hs : Gathered A b (abs s))
    (hrest : ∀ t ∈ rest, Gathered A b (abs t)) (hu : P.joinAll s rest = .ok u) : ∀ t ∈ s :: rest, abs t ≤ abs u := by
  induction rest generalizing s with
  | nil =>
    cases hu
    intro t ht
    rw [List.mem_singleton.mp ht]
  | cons r rest ih =>
    rw [Problem.joinAll] at hu
    split at hu
    next v hv =>
      have hr := hrest r List.mem_cons_self
      have hlub := h.join_ok hs hr hv
      have habove := ih (h.gathered_join hs hr hv) (fun t ht => hrest t (List.mem_cons_of_mem _ ht)) hu
      have hvu := habove v List.mem_cons_self
      intro t ht
      rcases List.mem_cons.mp ht with rfl | ht
      · exact le_trans (hlub.1 (Or.inl rfl)) hvu
      · rcases List.mem_cons.mp ht with rfl | ht
        · exact le_trans (hlub.1 (Or.inr rfl)) hvu
        · exact habove t (List.mem_cons_of_mem _ ht)
    next => cases hu

/-- The states that solve the equations stand for the joins over the paths. -/
theorem isLUB (h : Abstracts P A abs) (hA : Distributes A) (hP : P.WellFormed) (hentry : P.entry ∈ P.nodes)
    {ins outs : Dict Nat σ}
    (hsettled : ∀ b ∈ P.nodes, P.Settled ins outs b) (hins : ∀ b s, ins.get? b = some s → Gathered A b (abs s)) {b : Nat} {s : σ}
    (hs : ins.get? b = some s) : IsLUB {d | Along A b d} (abs s) := by
  have habove : ∀ c d, Along A c d → c ∈ P.nodes ∧ ∀ t, ins.get? c = some t → d ≤ abs t := by
    intro c d hd
    induction hd with
    | entry =>
      rw [← h.entry]
      refine ⟨hentry, fun t ht => ?_⟩
      obtain ⟨t', ht', hin, -⟩ := hsettled P.entry hentry
      rw [ht] at ht'
      cases ht'
      unfold Problem.inState at hin
      rw [if_pos rfl] at hin
      cases hin
      rw [h.init]
    | @edge p c d hd hc ih =>
      obtain ⟨hp, hle⟩ := ih
      have hcs : c ∈ P.succ p := by
        rw [h.succ]
        exact hc
      refine ⟨hP.closed p hp c hcs, fun t ht => ?_⟩
      obtain ⟨s, hs, -, hout⟩ := hsettled p hp
      obtain ⟨t', ht', hin, -⟩ := hsettled c (hP.closed p hp c hcs)
      rw [ht] at ht'
      cases ht'
      have hne : c ≠ P.entry := by
        rintro rfl
        rw [h.entry] at hc
        exact hA.noBack p hc
      have hall : ∀ x ∈ P.incoming outs c, Gathered A c (abs x) := by
        intro x hx
        obtain ⟨q, hq, hqn, hqo⟩ := Problem.mem_incoming.mp hx
        obtain ⟨r, hr, -, hro⟩ := hsettled q hqn
        rw [hqo] at hro
        cases hro
        exact h.gathered_edge hA ((hP.edge q hqn c).mp hq) (hins q r hr)
      have hmem : P.transfer p s ∈ P.incoming outs c := Problem.mem_incoming.mpr ⟨p, (hP.edge p hp c).mpr hcs, hp, hout⟩
      have hup : abs (P.transfer p s) ≤ abs t := by
        unfold Problem.inState at hin
        rw [if_neg hne] at hin
        split at hin
        next hnil =>
          rw [hnil] at hmem
          cases hmem
        next x rest hcons =>
          rw [hcons] at hall hmem
          exact h.joinAll_above (hall x List.mem_cons_self) (fun y hy => hall y (List.mem_cons_of_mem _ hy)) hin _ hmem
      rw [h.transfer p s (hins p s hs)] at hup
      exact le_trans (hA.mono (.along hd) (hins p s hs) (hle s hs)) hup
  exact ⟨fun d hd => (habove b d hd).2 s hs, fun v hv => (hins b s hs).least hv⟩

variable [DecidableEq σ]

theorem solve (h : Abstracts P A abs) (hA : Distributes A) (hP : P.WellFormed) (hord : P.Ordered)
    (hentry : P.entry ∈ P.nodes) {n : Nat}
    {r : Run σ} (hr : P.solve n = .ok (some r)) {b : Nat} {s : σ} (hs : r.ins.get? b = some s) :
    IsLUB {d | Along A b d} (abs s) := by
  refine h.isLUB hA hP hentry (Problem.solve_equations hP hr) (fun c t ht => ?_) hs
  exact Problem.solve_induction (Q := fun b s => Gathered A b (abs s)) hP hord h.gathered_init
    (fun _ _ _ _ hc hs => h.gathered_edge hA hc hs) (fun _ _ _ _ hs ht hu => h.gathered_join hs ht hu) hr ht

theorem solveBy (h : Abstracts P A abs) (hA : Distributes A) (hP : P.WellFormed) (hentry : P.entry ∈ P.nodes)
    (hempty : abs P.empty = ⊥) {pop : List Nat → Option (Nat × List Nat)} (hpop : Pops pop) {n : Nat} {r : Run σ}
    (hr : P.solveBy pop n = .ok (some r)) {b : Nat} {s : σ} (hs : r.ins.get? b = some s) : IsLUB {d | Along A b d} (abs s) := by
  refine h.isLUB hA hP hentry (Problem.solveBy_equations hP hpop hr).1 (fun c t ht => ?_) hs
  exact Problem.solveBy_induction (Q := fun b s => Gathered A b (abs s)) hP hpop h.gathered_init
    (fun b => hempty ▸ Gathered.bot b) (fun _ _ _ _ hc hs => h.gathered_edge hA hc hs)
    (fun _ _ _ _ hs ht hu => h.gathered_join hs ht hu) hr ht

end Abstracts

end

end OwnNet.Dataflow
