/-
  OwnNet.Dataflow.Termination — when the worklist empties.

  `Total`: no join of a run fails, if the states that can come over the edges into a node
  can be joined. `Climbing`: a partial order of states with joins for least upper bounds,
  and transfers that are monotone on the states a node is visited with (`Inv`). A visit may
  count on the out-states of all smaller nodes: the first pass is in increasing order, and
  what it has set stays set. Then an out-state only ever grows, within a finite set.

  Proved: `Total.solve`, `Climbing.solve`; `runs_on`: a run that comes back to where it was
  never ends.
-/

import OwnNet.Dataflow.Worklist
import Mathlib.Data.Set.Card
import Mathlib.Algebra.Order.BigOperators.Group.List
import Mathlib.Data.List.Perm.Subperm

namespace OwnNet.Dataflow

deriving instance DecidableEq for Run

variable {σ ε : Type}

namespace Problem

/-! ## Joins that cannot fail -/

/-- `Q b` holds of the states that come into node `b`, over any edge. -/
structure Total (P : Problem σ ε) (Q : Nat → σ → Prop) : Prop where
  init : Q P.entry P.init
  edge : ∀ p b s, p ∈ P.nodes → b ∈ P.succ p → Q p s → Q b (P.transfer p s)
  join : ∀ b s t, Q b s → Q b t → ∃ u, P.join s t = .ok u ∧ Q b u

theorem joinAll_total {P : Problem σ ε} {Q : σ → Prop} (hjoin : ∀ s t, Q s → Q t → ∃ u, P.join s t = .ok u ∧ Q u) {s : σ}
    {rest : List σ} (hs : Q s) (hrest : ∀ t ∈ rest, Q t) : ∃ u, P.joinAll s rest = .ok u ∧ Q u := by
  induction rest generalizing s with
  | nil => exact ⟨s, rfl, hs⟩
  | cons t rest ih =>
    obtain ⟨v, hv, hQ⟩ := hjoin s t hs (hrest t List.mem_cons_self)
    obtain ⟨u, hu, hQu⟩ := ih hQ fun x hx => hrest x (List.mem_cons_of_mem _ hx)
    exact ⟨u, by rw [joinAll, hv, ← hu], hQu⟩

/-- Every out-state is the transfer of an in-state with the property. -/
def Given (P : Problem σ ε) (Q : Nat → σ → Prop) (outs : Dict Nat σ) : Prop :=
  ∀ p o, outs.get? p = some o → ∃ s, Q p s ∧ o = P.transfer p s

/-- The states that come in have what edges keep. -/
theorem Given.incoming {P : Problem σ ε} {Q : Nat → σ → Prop} {outs : Dict Nat σ} (hg : P.Given Q outs) (hP : P.WellFormed)
    (hedge : ∀ p b s, p ∈ P.nodes → b ∈ P.succ p → Q p s → Q b (P.transfer p s)) {b : Nat} :
    ∀ x ∈ P.incoming outs b, Q b x := by
  intro x hx
  obtain ⟨p, hp, hpn, hout⟩ := mem_incoming.mp hx
  obtain ⟨s, hs, rfl⟩ := hg p x hout
  exact hedge p b s hpn ((hP.edge p hpn b).mp hp) hs

theorem Total.inState {P : Problem σ ε} {Q : Nat → σ → Prop} (hP : P.WellFormed) (hord : P.Ordered) (h : P.Total Q)
    {outs : Dict Nat σ} (hg : P.Given Q outs) {b : Nat} (hb : b ∈ P.nodes)
    (hsmall : ∀ p ∈ P.nodes, p < b → (outs.get? p).isSome) : ∃ s, P.inState outs b = .ok s ∧ Q b s := by
  unfold Problem.inState
  split
  next hentry => exact ⟨P.init, rfl, hentry ▸ h.init⟩
  next hentry =>
    have hin : ∀ x ∈ P.incoming outs b, Q b x := hg.incoming hP h.edge
    split
    next hnil =>
      obtain ⟨p, hpn, hlt, hp⟩ := hord.back b hb hentry
      obtain ⟨o, ho⟩ := Option.isSome_iff_exists.mp (hsmall p hpn hlt)
      have hmem : o ∈ P.incoming outs b := mem_incoming.mpr ⟨p, hp, hpn, ho⟩
      rw [hnil] at hmem
      exact absurd hmem List.not_mem_nil
    next x xs hcons =>
      rw [hcons] at hin
      exact joinAll_total (h.join b) (hin x List.mem_cons_self) fun y hy => hin y (List.mem_cons_of_mem _ hy)

/-- What the join keeps of either side comes into a node with one incoming state that has it. -/
theorem inState_keeps {P : Problem σ ε} {R : σ → Prop} (hleft : ∀ s t u, R s → P.join s t = .ok u → R u)
    (hright : ∀ s t u, R t → P.join s t = .ok u → R u) {outs : Dict Nat σ} {b : Nat} {s o : σ}
    (h : P.inState outs b = .ok s) (hne : b ≠ P.entry) (ho : o ∈ P.incoming outs b) (hR : R o) : R s := by
  unfold inState at h
  rw [if_neg hne] at h
  split at h
  next hnil =>
    rw [hnil] at ho
    cases ho
  next x xs hcons =>
    rw [hcons] at ho
    refine le_joinAll P hleft hright ?_ h
    rcases List.mem_cons.mp ho with rfl | ho
    · exact Or.inl hR
    · exact Or.inr ⟨o, ho, hR⟩

section Runs

variable [DecidableEq σ]

theorem visit_eq {P : Problem σ ε} {b : Nat} (work : List Nat) (ins : Dict Nat σ) {outs : Dict Nat σ} {s : σ}
    (h : P.inState outs b = .ok s) :
    P.visit b work ins outs = .ok (if outs.get? b = some (P.transfer b s) then ⟨work, ins.set b s, outs⟩
      else ⟨P.enqueue (P.succ b) work, ins.set b s, outs.set b (P.transfer b s)⟩) := by
  unfold visit
  rw [h]
  simp only
  split <;> rfl

omit [DecidableEq σ] in
theorem Given.set {P : Problem σ ε} {Q : Nat → σ → Prop} {outs : Dict Nat σ} (h : P.Given Q outs) {b : Nat} {s : σ}
    (hs : Q b s) : P.Given Q (outs.set b (P.transfer b s)) := by
  intro p o ho
  rw [Dict.get?_set] at ho
  split at ho
  next hp =>
    cases ho
    exact ⟨s, hp ▸ hs, by rw [hp]⟩
  next => exact h p o ho

/-- No run stops at a join. -/
theorem Total.solve {P : Problem σ ε} {Q : Nat → σ → Prop} (hP : P.WellFormed) (hord : P.Ordered) (h : P.Total Q) (n : Nat) :
    ∃ r, P.solve n = .ok r := by
  have hrun : ∀ n r, (∃ rest more, P.FirstPass r rest more) → P.Given Q r.outs → ∃ r', P.iterate n r = .ok r' := by
    intro n
    induction n with
    | zero =>
      rintro ⟨work, ins, outs⟩ _ _
      cases work with
      | nil => exact ⟨_, rfl⟩
      | cons b work => exact ⟨_, rfl⟩
    | succ n ih =>
      rintro ⟨work, ins, outs⟩ ⟨rest, more, hpass⟩ hg
      cases work with
      | nil => exact ⟨_, rfl⟩
      | cons b work =>
        have hb : b ∈ P.nodes := hpass.nodes b (by rw [← hpass.work]; exact List.mem_cons_self)
        obtain ⟨s, hs, hQ⟩ := h.inState hP hord hg hb fun p hp hlt => hpass.smaller rfl hp hlt
        have hv := visit_eq work ins hs
        rw [iterate, hv]
        refine ih _ (hpass.visit hv) ?_
        split
        · exact hg
        · exact hg.set hQ
  exact hrun n P.start ⟨P.nodes, [], ⟨by simp [start], hord.sorted, fun x hx => by simpa using hx,
    fun c hc hn => absurd hc hn⟩⟩ fun p o ho => by cases ho

end Runs

/-! ## Climbing -/

structure Climbing (P : Problem σ ε) (le : σ → σ → Prop) (Inv : Nat → σ → Prop) : Prop where
  refl : ∀ s, le s s
  trans : ∀ s t u, le s t → le t u → le s u
  antisymm : ∀ s t, le s t → le t s → s = t
  left : ∀ s t u, P.join s t = .ok u → le s u
  right : ∀ s t u, P.join s t = .ok u → le t u
  least : ∀ s t u v, P.join s t = .ok u → le s v → le t v → le u v
  mono : ∀ b ∈ P.nodes, ∀ s t, Inv b s → Inv b t → le s t → le (P.transfer b s) (P.transfer b t)
  finite : ∀ b ∈ P.nodes, {o | ∃ s, Inv b s ∧ o = P.transfer b s}.Finite
  visit : ∀ b ∈ P.nodes, ∀ outs, P.Given Inv outs → (∀ p ∈ P.nodes, p < b → (outs.get? p).isSome) →
    ∃ s, P.inState outs b = .ok s ∧ Inv b s

namespace Climbing

variable {P : Problem σ ε} {le : σ → σ → Prop} {Inv : Nat → σ → Prop}

theorem above_joinAll (h : P.Climbing le Inv) {s u : σ} {rest : List σ} (hu : P.joinAll s rest = .ok u) :
    le s u ∧ ∀ t ∈ rest, le t u := by
  induction rest generalizing s with
  | nil =>
    cases hu
    exact ⟨h.refl _, fun t ht => absurd ht List.not_mem_nil⟩
  | cons t rest ih =>
    rw [joinAll] at hu
    split at hu
    next v hv =>
      obtain ⟨h1, h2⟩ := ih hu
      refine ⟨h.trans _ _ _ (h.left _ _ _ hv) h1, fun x hx => ?_⟩
      rcases List.mem_cons.mp hx with rfl | hx
      · exact h.trans _ _ _ (h.right _ _ _ hv) h1
      · exact h2 x hx
    next => cases hu

theorem joinAll_least (h : P.Climbing le Inv) {s u v : σ} {rest : List σ} (hu : P.joinAll s rest = .ok u) (hs : le s v)
    (hrest : ∀ t ∈ rest, le t v) : le u v := by
  induction rest generalizing s with
  | nil =>
    cases hu
    exact hs
  | cons t rest ih =>
    rw [joinAll] at hu
    split at hu
    next w hw =>
      exact ih hu (h.least _ _ _ _ hw hs (hrest t List.mem_cons_self)) fun x hx => hrest x (List.mem_cons_of_mem _ hx)
    next => cases hu

/-- The in-state `s` is below whatever all the incoming states are below. -/
def Under (P : Problem σ ε) (le : σ → σ → Prop) (outs : Dict Nat σ) (b : Nat) (s : σ) : Prop :=
  if b = P.entry then s = P.init else ∀ v, (∀ o ∈ P.incoming outs b, le o v) → le s v

/-- A visit's in-state is the least upper bound of the incoming states. -/
theorem inState_lub (h : P.Climbing le Inv) {outs : Dict Nat σ} {b : Nat} {s : σ} (hs : P.inState outs b = .ok s)
    (hsome : b ≠ P.entry → P.incoming outs b ≠ []) :
    Under P le outs b s ∧ (b ≠ P.entry → ∀ o ∈ P.incoming outs b, le o s) := by
  unfold inState at hs
  unfold Under
  split at hs
  next hentry =>
    cases hs
    rw [if_pos hentry]
    exact ⟨rfl, fun hne => absurd hentry hne⟩
  next hentry =>
    rw [if_neg hentry]
    split at hs
    next hnil => exact absurd hnil (hsome hentry)
    next x xs hcons =>
      rw [hcons]
      obtain ⟨h1, h2⟩ := h.above_joinAll hs
      constructor
      · intro v hv
        exact h.joinAll_least hs (hv x List.mem_cons_self) fun t ht => hv t (List.mem_cons_of_mem _ ht)
      · intro _ o ho
        rcases List.mem_cons.mp ho with rfl | ho
        · exact h1
        · exact h2 o ho

/-- Growing out-states keep an in-state under them. -/
theorem under_grow (h : P.Climbing le Inv) {outs : Dict Nat σ} {b c : Nat} {s o' : σ} (hu : Under P le outs c s)
    (hgrow : ∀ o, outs.get? b = some o → le o o') : Under P le (outs.set b o') c s := by
  unfold Under at hu ⊢
  split at hu
  next hc => rw [if_pos hc]; exact hu
  next hc =>
    rw [if_neg hc]
    intro v hv
    refine hu v fun o ho => ?_
    obtain ⟨p, hp, hpn, hout⟩ := mem_incoming.mp ho
    by_cases hpb : p = b
    · subst hpb
      have hnew : o' ∈ P.incoming (outs.set p o') c := mem_incoming.mpr ⟨p, hp, hpn, Dict.get?_set_self _ _ _⟩
      exact h.trans _ _ _ (hgrow o hout) (hv o' hnew)
    · exact hv o (mem_incoming.mpr ⟨p, hp, hpn, by rw [Dict.get?_set_of_ne _ _ hpb, hout]⟩)

/-! ## The measure -/

/-- How many of a node's possible out-states are strictly above `o`. -/
noncomputable def above (P : Problem σ ε) (le : σ → σ → Prop) (Inv : Nat → σ → Prop) (b : Nat) (o : σ) : Nat :=
  {x | (∃ s, Inv b s ∧ x = P.transfer b s) ∧ le o x ∧ o ≠ x}.ncard

noncomputable def remaining (P : Problem σ ε) (le : σ → σ → Prop) (Inv : Nat → σ → Prop) (outs : Dict Nat σ) (b : Nat) : Nat :=
  match outs.get? b with
  | none => {x | ∃ s, Inv b s ∧ x = P.transfer b s}.ncard + 1
  | some o => above P le Inv b o

noncomputable def measure (P : Problem σ ε) (le : σ → σ → Prop) (Inv : Nat → σ → Prop) (r : Run σ) : Nat :=
  (P.nodes.map (remaining P le Inv r.outs)).sum * (P.nodes.length + 1) + r.work.length

theorem left_lt (h : P.Climbing le Inv) {outs : Dict Nat σ} {b : Nat} {s : σ} (hb : b ∈ P.nodes) (hs : Inv b s)
    (hgrow : ∀ o, outs.get? b = some o → le o (P.transfer b s)) (hne : outs.get? b ≠ some (P.transfer b s)) :
    remaining P le Inv (outs.set b (P.transfer b s)) b < remaining P le Inv outs b := by
  have hfin := h.finite b hb
  unfold remaining
  rw [Dict.get?_set_self]
  cases ho : outs.get? b with
  | none => exact Nat.lt_succ_of_le (Set.ncard_le_ncard (fun x hx => hx.1) hfin)
  | some o =>
    have hle := hgrow o ho
    have hdiff : o ≠ P.transfer b s := fun he => hne (by rw [ho, he])
    refine Set.ncard_lt_ncard ?_ (hfin.subset fun x hx => hx.1)
    constructor
    · rintro x ⟨hx, hlx, hnx⟩
      refine ⟨hx, h.trans _ _ _ hle hlx, ?_⟩
      rintro rfl
      exact hdiff (h.antisymm _ _ hle hlx)
    · intro hsub
      exact (hsub (a := P.transfer b s) ⟨⟨s, hs, rfl⟩, hle, hdiff⟩).2.2 rfl

theorem sum_lt (h : P.Climbing le Inv) {outs : Dict Nat σ} {b : Nat} {s : σ} (hb : b ∈ P.nodes) (hs : Inv b s)
    (hgrow : ∀ o, outs.get? b = some o → le o (P.transfer b s)) (hne : outs.get? b ≠ some (P.transfer b s)) :
    (P.nodes.map (remaining P le Inv (outs.set b (P.transfer b s)))).sum < (P.nodes.map (remaining P le Inv outs)).sum := by
  have hlt := h.left_lt hb hs hgrow hne
  refine List.sum_lt_sum _ _ (fun c _ => ?_) ⟨b, hb, hlt⟩
  by_cases hc : c = b
  · subst hc
    exact Nat.le_of_lt hlt
  · unfold remaining
    rw [Dict.get?_set_of_ne _ _ hc]

theorem nodup_enqueue (P : Problem σ ε) (ss : List Nat) {work : List Nat} (h : work.Nodup) : (P.enqueue ss work).Nodup := by
  induction ss generalizing work with
  | nil => exact h
  | cons s ss ih =>
    rw [enqueue]
    refine ih ?_
    split
    next hs =>
      rw [List.nodup_append]
      refine ⟨h, List.nodup_singleton s, ?_⟩
      intro x hx y hy he
      rw [List.mem_singleton.mp hy] at he
      exact hs.2 (he ▸ hx)
    next => exact h

/-- A run on the way: what has been set is the transfer of an in-state under the out-states. -/
structure Climbs (P : Problem σ ε) (le : σ → σ → Prop) (Inv : Nat → σ → Prop) (r : Run σ) : Prop where
  pass : ∃ rest more, P.FirstPass r rest more
  nodup : r.work.Nodup
  outs : ∀ p o, r.outs.get? p = some o → ∃ s, Inv p s ∧ o = P.transfer p s ∧ Under P le r.outs p s

variable [DecidableEq σ]

/-- One visit: it succeeds, and there is less left to do. -/
theorem visit_climbs (hord : P.Ordered) (h : P.Climbing le Inv) {b : Nat} {work : List Nat}
    {ins outs : Dict Nat σ} (hr : Climbs P le Inv ⟨b :: work, ins, outs⟩) :
    ∃ r, P.visit b work ins outs = .ok r ∧ Climbs P le Inv r ∧ measure P le Inv r < measure P le Inv ⟨b :: work, ins, outs⟩ := by
  obtain ⟨⟨rest, more, hpass⟩, hnodup, houts⟩ := hr
  have hb : b ∈ P.nodes := hpass.nodes b (by rw [← hpass.work]; exact List.mem_cons_self)
  have hsmall : ∀ p ∈ P.nodes, p < b → (outs.get? p).isSome := fun p hp hlt => hpass.smaller rfl hp hlt
  obtain ⟨s, hs, hInv⟩ := h.visit b hb outs (fun p o ho => by
    obtain ⟨t, ht, he, -⟩ := houts p o ho
    exact ⟨t, ht, he⟩) hsmall
  have hsome : b ≠ P.entry → P.incoming outs b ≠ [] := by
    intro hentry hnil
    obtain ⟨p, hpn, hlt, hp⟩ := hord.back b hb hentry
    obtain ⟨o, ho⟩ := Option.isSome_iff_exists.mp (hsmall p hpn hlt)
    have hmem : o ∈ P.incoming outs b := mem_incoming.mpr ⟨p, hp, hpn, ho⟩
    rw [hnil] at hmem
    exact absurd hmem List.not_mem_nil
  obtain ⟨hunder, hover⟩ := h.inState_lub hs hsome
  -- the last out-state came from an in-state under this one
  have hgrow : ∀ o, outs.get? b = some o → le o (P.transfer b s) := by
    intro o ho
    obtain ⟨t, ht, rfl, hut⟩ := houts b o ho
    refine h.mono b hb t s ht hInv ?_
    unfold Under at hut hunder
    split at hut
    next hentry =>
      rw [if_pos hentry] at hunder
      rw [hut, hunder]
      exact h.refl _
    next hentry => exact hut s (hover hentry)
  have hwork : work.Nodup := (List.nodup_cons.mp hnodup).2
  have hv := visit_eq work ins hs
  refine ⟨_, hv, ?_, ?_⟩
  · refine ⟨hpass.visit hv, ?_, ?_⟩
    · split
      · exact hwork
      · exact nodup_enqueue P _ hwork
    · split
      · exact houts
      · intro p o ho
        have hkeep : ∀ c t, Under P le outs c t → Under P le (outs.set b (P.transfer b s)) c t := fun c t hu =>
          h.under_grow hu hgrow
        simp only at ho ⊢
        rw [Dict.get?_set] at ho
        split at ho
        next hpb =>
          cases ho
          exact ⟨s, hpb ▸ hInv, by rw [hpb], hpb ▸ hkeep b s hunder⟩
        next =>
          obtain ⟨t, ht, he, hu⟩ := houts p o ho
          exact ⟨t, ht, he, hkeep p t hu⟩
  · unfold measure
    split
    next => simp only [List.length_cons]; omega
    next hne =>
      have hlt := h.sum_lt hb hInv hgrow hne
      have hlen : (P.enqueue (P.succ b) work).length ≤ P.nodes.length := by
        refine (List.subperm_of_subset (nodup_enqueue P _ hwork) fun x hx => ?_).length_le
        rcases mem_enqueue.mp hx with hx | ⟨-, hx⟩
        · exact hpass.nodes x (by rw [← hpass.work]; exact List.mem_cons_of_mem _ hx)
        · exact hx
      have hmul := Nat.mul_le_mul_right (P.nodes.length + 1) (Nat.succ_le_of_lt hlt)
      rw [Nat.succ_mul] at hmul
      simp only [List.length_cons]
      omega

/-- A climbing run ends. -/
theorem solve (hord : P.Ordered) (h : P.Climbing le Inv) : ∃ n r, P.solve n = .ok (some r) := by
  have hrun : ∀ m r, measure P le Inv r ≤ m → Climbs P le Inv r → ∃ r', P.iterate m r = .ok (some r') := by
    intro m
    induction m with
    | zero =>
      rintro ⟨work, ins, outs⟩ hm hr
      cases work with
      | nil => exact ⟨_, rfl⟩
      | cons b work =>
        unfold measure at hm
        simp only [List.length_cons] at hm
        omega
    | succ m ih =>
      rintro ⟨work, ins, outs⟩ hm hr
      cases work with
      | nil => exact ⟨_, rfl⟩
      | cons b work =>
        obtain ⟨r, hv, hc, hlt⟩ := visit_climbs hord h hr
        obtain ⟨r', hr'⟩ := ih r (by omega) hc
        exact ⟨r', by rw [iterate, hv, ← hr']⟩
  have hnodup : P.nodes.Nodup := hord.sorted.imp fun hlt => Nat.ne_of_lt hlt
  obtain ⟨r, hr⟩ := hrun (measure P le Inv P.start) P.start (Nat.le_refl _)
    ⟨⟨P.nodes, [], ⟨by simp [start], hord.sorted, fun x hx => by simpa using hx, fun c hc hn => absurd hc hn⟩⟩, hnodup,
      fun p o ho => by cases ho⟩
  exact ⟨_, r, hr⟩

end Climbing

/-! ## Runs that do not end -/

section Circles

variable [DecidableEq σ] {P : Problem σ ε}

/-- One visit; none when nothing is due or a join fails. -/
def advance (P : Problem σ ε) : Run σ → Option (Run σ)
  | ⟨[], _, _⟩ => none
  | ⟨b :: work, ins, outs⟩ =>
    match P.visit b work ins outs with
    | .ok r => some r
    | .error _ => none

def advances (P : Problem σ ε) : Nat → Run σ → Option (Run σ)
  | 0, r => some r
  | n + 1, r => (P.advance r).bind (advances P n)

theorem advances_add (m n : Nat) (r : Run σ) : P.advances (m + n) r = (P.advances m r).bind (P.advances n) := by
  induction m generalizing r with
  | zero =>
    rw [Nat.zero_add]
    rfl
  | succ m ih =>
    rw [Nat.succ_add]
    show (P.advance r).bind (P.advances (m + n)) = ((P.advance r).bind (P.advances m)).bind (P.advances n)
    cases P.advance r with
    | none => rfl
    | some r' => exact ih r'

/-- A run that can go on has not ended. -/
theorem iterate_of_advances {n : Nat} {r : Run σ} (h : (P.advances (n + 1) r).isSome) : P.iterate n r = .ok none := by
  induction n generalizing r with
  | zero =>
    obtain ⟨work, ins, outs⟩ := r
    cases work with
    | nil => cases h
    | cons b work => rfl
  | succ n ih =>
    obtain ⟨work, ins, outs⟩ := r
    cases work with
    | nil => cases h
    | cons b work =>
      rw [iterate]
      cases hv : P.visit b work ins outs with
      | error e =>
        rw [advances, advance, hv] at h
        cases h
      | ok r' =>
        rw [advances, advance, hv] at h
        exact ih h

/-- A run that comes back to where it was never ends. -/
theorem runs_on {m k : Nat} (hs : (P.advances m P.start).isSome)
    (h : (P.advances m P.start).bind (P.advances (k + 1)) = P.advances m P.start) (n : Nat) : P.solve n = .ok none := by
  have hround : ∀ q, P.advances (m + q * (k + 1)) P.start = P.advances m P.start := by
    intro q
    induction q with
    | zero => simp
    | succ q ih => rw [Nat.succ_mul, ← Nat.add_assoc, advances_add, ih, h]
  apply iterate_of_advances
  -- far enough round the circle
  obtain ⟨d, hd⟩ : ∃ d, m + (n + 1) * (k + 1) = (n + 1) + d := by
    have hle : (n + 1) * 1 ≤ (n + 1) * (k + 1) := Nat.mul_le_mul_left _ (by omega)
    exact ⟨m + (n + 1) * (k + 1) - (n + 1), by omega⟩
  have hfar := hround (n + 1)
  rw [hd, advances_add] at hfar
  cases hx : P.advances (n + 1) P.start with
  | some x => rfl
  | none =>
    rw [hx] at hfar
    rw [← hfar] at hs
    cases hs

end Circles

end Problem

end OwnNet.Dataflow
