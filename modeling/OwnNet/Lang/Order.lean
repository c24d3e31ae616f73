/-
  OwnNet.Lang.Order — states compared: a smaller one has less. Fewer states of a resource,
  fewer handles, and sites that more paths agree on.

  A join that goes through is the least upper bound (`join_left`, `join_right`,
  `join_least`). Every instruction keeps the order, a move where its source may be owned in
  both states or in neither (`step_below`): it overwrites the site of a source that may be,
  and leaves the site of one that may not.

  An instruction is a list of edits, and the site of a move (`step_edits`): what every edit
  keeps an instruction keeps. Edits keep joins too (`Merges.edits`).

  The states over finitely many resources and lines are finitely many (`finite_small`).
-/

import OwnNet.Lang.Holding
import OwnNet.Dict.Pointwise
import Mathlib.Data.Fintype.Powerset

namespace OwnNet.Lang

/-! ## The order -/

/-- More paths agree on a smaller site. -/
def SiteLe (x y : Int × Bool) : Prop := y.1 ≤ x.1 ∧ (y.2 = true → x = y)

theorem SiteLe.refl (x : Int × Bool) : SiteLe x x := ⟨Int.le_refl _, fun _ => rfl⟩

theorem SiteLe.trans (x y z : Int × Bool) (hxy : SiteLe x y) (hyz : SiteLe y z) : SiteLe x z := by
  refine ⟨Int.le_trans hyz.1 hxy.1, fun hz => ?_⟩
  have hyz' := hyz.2 hz
  rw [← hyz'] at hz ⊢
  exact hxy.2 hz

theorem SiteLe.antisymm (x y : Int × Bool) (hxy : SiteLe x y) (hyx : SiteLe y x) : x = y := by
  cases hy : y.2 with
  | true => exact hxy.2 hy
  | false =>
    cases hx : x.2 with
    | true => exact (hyx.2 hx).symm
    | false => exact Prod.ext (Int.le_antisymm hyx.1 hxy.1) (hx.trans hy.symm)

/-- What a join makes of two sites. -/
def siteJoin (a b : Int × Bool) : Int × Bool := if a.1 = b.1 then (a.1, a.2 && b.2) else (min a.1 b.1, false)

theorem siteJoin_left (a b : Int × Bool) : SiteLe a (siteJoin a b) := by
  unfold siteJoin SiteLe
  split
  next h => exact ⟨Int.le_refl _, fun hb => Prod.ext rfl (by simp at hb; simp [hb])⟩
  next h => exact ⟨Int.min_le_left _ _, fun hb => by cases hb⟩

theorem siteJoin_right (a b : Int × Bool) : SiteLe b (siteJoin a b) := by
  unfold siteJoin SiteLe
  split
  next h => exact ⟨Int.le_of_eq h, fun hb => Prod.ext h.symm (by simp at hb; simp [hb])⟩
  next h => exact ⟨Int.min_le_right _ _, fun hb => by cases hb⟩

theorem siteJoin_least (a b c : Int × Bool) (ha : SiteLe a c) (hb : SiteLe b c) : SiteLe (siteJoin a b) c := by
  have hle : c.1 ≤ (siteJoin a b).1 := by
    have h1 := ha.1
    have h2 := hb.1
    unfold siteJoin
    split <;> simp only <;> omega
  refine ⟨hle, fun hc => ?_⟩
  rw [ha.2 hc, hb.2 hc]
  simp [siteJoin]

structure Below (s t : State) : Prop where
  loans : s.loans = t.loans
  handles : Dict.Le Eq s.handleRid t.handleRid
  var : Dict.Le (· ⊆ ·) s.var t.var
  moved : Dict.Le SiteLe s.movedAt t.movedAt
  acquired : Dict.Le SiteLe s.acquiredAt t.acquiredAt

namespace Below

theorem refl (s : State) : Below s s :=
  ⟨rfl, .refl (fun _ => rfl) _, .refl (fun _ => Finset.Subset.refl _) _, .refl SiteLe.refl _, .refl SiteLe.refl _⟩

theorem trans (s t u : State) (h : Below s t) (h' : Below t u) : Below s u where
  loans := h.loans.trans h'.loans
  handles := h.handles.trans (fun _ _ _ => Eq.trans) h'.handles
  var := h.var.trans (fun _ _ _ => Finset.Subset.trans) h'.var
  moved := h.moved.trans SiteLe.trans h'.moved
  acquired := h.acquired.trans SiteLe.trans h'.acquired

theorem antisymm (s t : State) (h : Below s t) (h' : Below t s) : s = t := by
  have hloans := h.loans
  have hhandles := h.handles.antisymm (fun _ _ he _ => he) h'.handles
  have hvar := h.var.antisymm (fun _ _ => Finset.Subset.antisymm) h'.var
  have hmoved := h.moved.antisymm SiteLe.antisymm h'.moved
  have hacquired := h.acquired.antisymm SiteLe.antisymm h'.acquired
  cases s
  cases t
  simp only at hloans hhandles hvar hmoved hacquired
  subst hloans hhandles hvar hmoved hacquired
  rfl

end Below

/-- What a join that goes through is made of. -/
structure Merges (s t u : State) : Prop where
  same : s.loans = t.loans
  loans : u.loans = s.loans
  agree : ∀ n r r', s.handleRid.get? n = some r → t.handleRid.get? n = some r' → r = r'
  handles : u.handleRid = Dict.merge (fun r _ => r) s.handleRid t.handleRid
  var : u.var = Dict.merge (· ∪ ·) s.var t.var
  moved : u.movedAt = Dict.merge siteJoin s.movedAt t.movedAt
  acquired : u.acquiredAt = Dict.merge siteJoin s.acquiredAt t.acquiredAt

theorem join_merges {s t u : State} (h : join s t = .ok u) : Merges s t u := by
  unfold join at h
  split at h
  · cases h
  next hloans =>
    split at h
    · cases h
    next handles hh =>
      cases h
      unfold joinHandleRid at hh
      split at hh
      next hall =>
        cases hh
        refine ⟨not_not.mp hloans, rfl, ?_, rfl, rfl, rfl, rfl⟩
        intro n r r' hr hr'
        have hn := List.all_eq_true.mp hall (n, r') (Dict.mem_entries.mpr hr')
        simpa [Dict.getD, hr] using hn
      next => cases hh

theorem join_left {s t u : State} (h : join s t = .ok u) : Below s u := by
  have m := join_merges h
  refine ⟨m.loans.symm, ?_, ?_, ?_, ?_⟩
  · rw [m.handles]
    exact Dict.le_merge_left (fun _ => rfl) fun _ _ _ _ _ => rfl
  · rw [m.var]
    exact Dict.le_merge_left (fun _ => Finset.Subset.refl _) fun _ _ _ _ _ => Finset.subset_union_left
  · rw [m.moved]
    exact Dict.le_merge_left SiteLe.refl fun _ v w _ _ => siteJoin_left v w
  · rw [m.acquired]
    exact Dict.le_merge_left SiteLe.refl fun _ v w _ _ => siteJoin_left v w

theorem join_right {s t u : State} (h : join s t = .ok u) : Below t u := by
  have m := join_merges h
  refine ⟨m.same.symm.trans m.loans.symm, ?_, ?_, ?_, ?_⟩
  · rw [m.handles]
    exact Dict.le_merge_right (fun _ => rfl) fun n r r' hr hr' => (m.agree n r r' hr hr').symm
  · rw [m.var]
    exact Dict.le_merge_right (fun _ => Finset.Subset.refl _) fun _ _ _ _ _ => Finset.subset_union_right
  · rw [m.moved]
    exact Dict.le_merge_right SiteLe.refl fun _ v w _ _ => siteJoin_right v w
  · rw [m.acquired]
    exact Dict.le_merge_right SiteLe.refl fun _ v w _ _ => siteJoin_right v w

theorem join_least {s t u v : State} (h : join s t = .ok u) (hs : Below s v) (ht : Below t v) : Below u v := by
  have m := join_merges h
  refine ⟨m.loans.trans hs.loans, ?_, ?_, ?_, ?_⟩
  · rw [m.handles]
    exact Dict.merge_le (fun _ _ _ he _ => he) hs.handles ht.handles
  · rw [m.var]
    exact Dict.merge_le (fun _ _ _ => Finset.union_subset) hs.var ht.var
  · rw [m.moved]
    exact Dict.merge_le siteJoin_least hs.moved ht.moved
  · rw [m.acquired]
    exact Dict.merge_le siteJoin_least hs.acquired ht.acquired

theorem Merges.ok {s t u : State} (m : Merges s t u) : join s t = .ok u := by
  have hall : t.handleRid.entries.all fun e => s.handleRid.getD e.1 e.2 = e.2 := by
    rw [List.all_eq_true]
    intro e he
    unfold Dict.getD
    cases hg : s.handleRid.get? e.1 with
    | none => simp
    | some r => simp [m.agree e.1 r e.2 hg (Dict.mem_entries.mp he)]
  have hok : join s t = .ok {
      var := Dict.merge (· ∪ ·) s.var t.var
      loans := s.loans
      handleRid := Dict.merge (fun r _ => r) s.handleRid t.handleRid
      movedAt := joinSites s.movedAt t.movedAt
      acquiredAt := joinSites s.acquiredAt t.acquiredAt } := by
    unfold join joinHandleRid
    rw [if_neg (not_not.mpr m.same), if_pos hall]
  have hl := m.loans
  have hh := m.handles
  have hv := m.var
  have hm := m.moved
  have ha := m.acquired
  rw [hok]
  cases u
  simp only at hl hh hv hm ha
  subst hl hh hv hm ha
  rfl

/-! ## Instructions as edits -/

inductive Edit where
  | acquire (sym : Symbol) (line : Int)
  | mark (rid : Nat) (s : VarState)
  | bind (handle rid : Nat)
  | lend (binding : Nat) (loan : Loan)
  | giveBack (binding : Nat)

def Edit.apply (st : State) : Edit → State
  | .acquire sym line => st.acquire sym line
  | .mark rid s => st.mark rid s
  | .bind handle rid => { st with handleRid := st.handleRid.set handle rid }
  | .lend binding loan => { st with loans := st.loans.set binding loan }
  | .giveBack binding => { st with loans := st.loans.erase binding }

namespace Instr

/-- The edits an instruction makes, a handle standing for resource `rid`; the site of a move apart. -/
def edits (rid : Nat → Nat) : Instr → List Edit
  | acquire sym _ line | acquireBuffer sym _ line => [.acquire sym line]
  | moveInto dst src line => [.mark (rid src.id) .moved, .acquire dst line]
  | aliasJoin handle src _ => [.bind handle.id (rid src.id)]
  | release sym _ => [.mark (rid sym.id) .released]
  | invoke _ args _ => (consumed args).map fun sym => .mark (rid sym.id) .escaped
  | borrowStart owner binding isMut _ =>
    [.lend binding.id ⟨binding.id, rid owner.id, binding.id, if isMut then .mut else .shared⟩]
  | borrowEnd _ binding _ _ => [.giveBack binding.id]
  | return_ (some sym) _ => [.mark (rid sym.id) .escaped]
  | _ => []

/-- The site a move puts down. -/
def record (ins : Instr) (st : State) : State :=
  match ins with
  | moveInto _ src line => recordMove st src line
  | _ => st

end Instr

theorem foldl_marks {rid : Nat → Nat} (syms : List Symbol) (st : State) :
    (syms.map fun sym => Edit.mark (rid sym.id) .escaped).foldl Edit.apply st =
      { st with var := setAll (syms.map fun sym => (rid sym.id, .escaped)) st.var } := by
  induction syms generalizing st with
  | nil => rfl
  | cons sym rest ih =>
    rw [List.map_cons, List.foldl_cons, ih]
    rfl

theorem step_edits (syms : Nat → Option Symbol) {G : Layout} {ins : Instr} {st : State} (hk : ins.Kinds)
    (hd : Denotes G ins st) : (step syms ins st).1 = (ins.edits G.rid).foldl Edit.apply (ins.record st) := by
  cases ins with
  | moveInto dst src line =>
    have hsrc := hd src List.mem_cons_self hk.2
    show (((recordMove st src line).mark (st.ridOf src) .moved).acquire dst line) = _
    rw [hsrc]
    rfl
  | aliasJoin handle src line =>
    have hsrc := hd src List.mem_cons_self hk.2
    show ({ st with handleRid := st.handleRid.set handle.id (st.ridOf src) } : State) = _
    rw [hsrc]
    rfl
  | release sym line =>
    have hsym := hd sym List.mem_cons_self hk
    show st.mark (st.ridOf sym) .released = _
    rw [hsym]
    rfl
  | invoke callee args line =>
    show (applyArgs callee line args st).1 = _
    rw [applyArgs_marks G.rid callee line args fun s hs ho => by
      obtain ⟨a, ha, he⟩ := List.mem_map.mp hs
      exact hd s (List.mem_filterMap.mpr ⟨a, ha, he⟩) ho]
    exact (foldl_marks (consumed args) st).symm
  | borrowStart owner binding isMut line =>
    have hown := hd owner List.mem_cons_self hk.1
    show ({ st with loans := st.loans.set binding.id ⟨binding.id, st.ridOf owner, binding.id, _⟩ } : State) = _
    rw [hown]
    rfl
  | return_ sym line =>
    cases sym with
    | none => rfl
    | some sym =>
      have hsym := hd sym (by simp [Instr.touches]) (hk sym rfl)
      show st.mark (st.ridOf sym) .escaped = _
      rw [hsym]
      rfl
  | _ => rfl

/-! ## Instructions keep the order -/

theorem Below.edit {s t : State} (h : Below s t) (e : Edit) : Below (e.apply s) (e.apply t) := by
  cases e with
  | acquire sym line =>
    exact ⟨h.loans, h.handles.set sym.id rfl, h.var.set sym.id (Finset.Subset.refl _), h.moved,
      h.acquired.set sym.id (SiteLe.refl _)⟩
  | mark rid v => exact ⟨h.loans, h.handles, h.var.set rid (Finset.Subset.refl _), h.moved, h.acquired⟩
  | bind handle rid => exact ⟨h.loans, h.handles.set handle rfl, h.var, h.moved, h.acquired⟩
  | lend binding loan => exact ⟨congrArg (·.set binding loan) h.loans, h.handles, h.var, h.moved, h.acquired⟩
  | giveBack binding => exact ⟨congrArg (·.erase binding) h.loans, h.handles, h.var, h.moved, h.acquired⟩

theorem Below.edits {s t : State} (h : Below s t) (es : List Edit) : Below (es.foldl Edit.apply s) (es.foldl Edit.apply t) := by
  induction es generalizing s t with
  | nil => exact h
  | cons e rest ih => exact ih (h.edit e)

/-- The source of a move may be owned. -/
def Instr.movable (ins : Instr) (st : State) : Prop :=
  match ins with
  | .moveInto _ src _ => .owned ∈ st.states src
  | _ => False

theorem step_below {syms : Nat → Option Symbol} {G : Layout} {ins : Instr} {s t : State} (h : Below s t) (hk : ins.Kinds)
    (hs : Denotes G ins s) (ht : Denotes G ins t) (hmove : ins.movable s ↔ ins.movable t) :
    Below (step syms ins s).1 (step syms ins t).1 := by
  rw [step_edits syms hk hs, step_edits syms hk ht]
  refine Below.edits ?_ _
  cases ins with
  | moveInto dst src line =>
    have hrid := (hs src List.mem_cons_self hk.2).trans (ht src List.mem_cons_self hk.2).symm
    change .owned ∈ s.states src ↔ .owned ∈ t.states src at hmove
    show Below (recordMove s src line) (recordMove t src line)
    unfold recordMove
    by_cases hown : .owned ∈ s.states src
    · rw [if_pos hown, if_pos (hmove.mp hown), hrid]
      exact ⟨h.loans, h.handles, h.var, h.moved.set _ (SiteLe.refl _), h.acquired⟩
    · rw [if_neg hown, if_neg fun ho => hown (hmove.mpr ho)]
      exact h
  | _ => exact h

/-! ## Instructions keep joins -/

theorem siteJoin_self (x : Int × Bool) : siteJoin x x = x := by simp [siteJoin]

theorem Merges.edit {s t u : State} (m : Merges s t u) (e : Edit) : Merges (e.apply s) (e.apply t) (e.apply u) := by
  cases e with
  | acquire sym line =>
    refine ⟨m.same, m.loans, ?_, ?_, ?_, m.moved, ?_⟩
    · intro n r r' hr hr'
      change (s.handleRid.set sym.id sym.id).get? n = some r at hr
      change (t.handleRid.set sym.id sym.id).get? n = some r' at hr'
      rw [Dict.get?_set] at hr hr'
      split at hr
      next hn =>
        rw [if_pos hn] at hr'
        exact Option.some.inj (hr.symm.trans hr')
      next hn =>
        rw [if_neg hn] at hr'
        exact m.agree n r r' hr hr'
    · show u.handleRid.set sym.id sym.id = _
      rw [m.handles]
      exact (Dict.merge_set _ _ _ _ _ _).symm
    · show u.var.set sym.id {.owned} = Dict.merge _ (s.var.set sym.id {.owned}) (t.var.set sym.id {.owned})
      rw [m.var, Dict.merge_set, Finset.union_idempotent]
    · show u.acquiredAt.set sym.id (line, true) = Dict.merge _ (s.acquiredAt.set _ _) (t.acquiredAt.set _ _)
      rw [m.acquired, Dict.merge_set, siteJoin_self]
  | mark rid v =>
    refine ⟨m.same, m.loans, m.agree, m.handles, ?_, m.moved, m.acquired⟩
    show u.var.set rid {v} = Dict.merge _ (s.var.set rid {v}) (t.var.set rid {v})
    rw [m.var, Dict.merge_set, Finset.union_idempotent]
  | bind handle rid =>
    refine ⟨m.same, m.loans, ?_, ?_, m.var, m.moved, m.acquired⟩
    · intro n r r' hr hr'
      change (s.handleRid.set handle rid).get? n = some r at hr
      change (t.handleRid.set handle rid).get? n = some r' at hr'
      rw [Dict.get?_set] at hr hr'
      split at hr
      next hn =>
        rw [if_pos hn] at hr'
        exact Option.some.inj (hr.symm.trans hr')
      next hn =>
        rw [if_neg hn] at hr'
        exact m.agree n r r' hr hr'
    · show u.handleRid.set handle rid = _
      rw [m.handles]
      exact (Dict.merge_set _ _ _ _ _ _).symm
  | lend binding loan =>
    exact ⟨congrArg (·.set binding loan) m.same, congrArg (·.set binding loan) m.loans, m.agree, m.handles, m.var, m.moved,
      m.acquired⟩
  | giveBack binding =>
    exact ⟨congrArg (·.erase binding) m.same, congrArg (·.erase binding) m.loans, m.agree, m.handles, m.var, m.moved,
      m.acquired⟩

theorem Merges.edits {s t u : State} (m : Merges s t u) (es : List Edit) :
    Merges (es.foldl Edit.apply s) (es.foldl Edit.apply t) (es.foldl Edit.apply u) := by
  induction es generalizing s t u with
  | nil => exact m
  | cons e rest ih => exact ih (m.edit e)

/-! ## Finitely many states -/

structure Small (I : Set Nat) (L : Set Int) (st : State) : Prop where
  handles : st.handleRid.Into I I
  var : st.var.Into I Set.univ
  moved : st.movedAt.Into I (L ×ˢ Set.univ)
  acquired : st.acquiredAt.Into I (L ×ˢ Set.univ)

instance : Fintype VarState := ⟨{.owned, .moved, .released, .escaped}, fun v => by cases v <;> decide⟩

theorem finite_small {I : Set Nat} {L : Set Int} (hI : I.Finite) (hL : L.Finite) (loans : Dict Nat Loan) :
    {st : State | Small I L st ∧ st.loans = loans}.Finite := by
  have hsites := Dict.finite_dicts hI (hL.prod (Set.finite_univ (α := Bool)))
  refine Set.Finite.of_injOn (f := fun st : State => (st.handleRid, st.var, st.movedAt, st.acquiredAt)) ?_ ?_
    ((Dict.finite_dicts hI hI).prod ((Dict.finite_dicts hI (Set.finite_univ (α := Finset VarState))).prod (hsites.prod hsites)))
  · exact fun st hst => ⟨hst.1.handles, hst.1.var, hst.1.moved, hst.1.acquired⟩
  · intro s hs t ht he
    obtain ⟨hh, hv, hm, ha⟩ : s.handleRid = t.handleRid ∧ s.var = t.var ∧ s.movedAt = t.movedAt ∧
        s.acquiredAt = t.acquiredAt := by simpa using he
    have hloans := hs.2.trans ht.2.symm
    cases s
    cases t
    simp only at hh hv hm ha hloans
    subst hh hv hm ha hloans
    rfl

/-- An edit of the resources in `I`, at a line in `L`. -/
def Edit.Of (I : Set Nat) (L : Set Int) : Edit → Prop
  | .acquire sym line => sym.id ∈ I ∧ line ∈ L
  | .mark rid _ => rid ∈ I
  | .bind handle rid => handle ∈ I ∧ rid ∈ I
  | .lend _ _ | .giveBack _ => True

theorem Small.edit {I : Set Nat} {L : Set Int} {st : State} (h : Small I L st) {e : Edit} (he : e.Of I L) :
    Small I L (e.apply st) := by
  cases e with
  | acquire sym line =>
    exact ⟨h.handles.set he.1 he.1, h.var.set he.1 (Set.mem_univ _), h.moved, h.acquired.set he.1 ⟨he.2, Set.mem_univ _⟩⟩
  | mark rid v => exact ⟨h.handles, h.var.set he (Set.mem_univ _), h.moved, h.acquired⟩
  | bind handle rid => exact ⟨h.handles.set he.1 he.2, h.var, h.moved, h.acquired⟩
  | lend binding loan => exact ⟨h.handles, h.var, h.moved, h.acquired⟩
  | giveBack binding => exact ⟨h.handles, h.var, h.moved, h.acquired⟩

theorem Small.edits {I : Set Nat} {L : Set Int} {st : State} (h : Small I L st) {es : List Edit} (hes : ∀ e ∈ es, e.Of I L) :
    Small I L (es.foldl Edit.apply st) := by
  induction es generalizing st with
  | nil => exact h
  | cons e rest ih => exact ih (h.edit (hes e List.mem_cons_self)) fun x hx => hes x (List.mem_cons_of_mem _ hx)

theorem edits_of {rid : Nat → Nat} {I : Set Nat} {L : Set Int} {ins : Instr} (hI : ∀ s ∈ ins.symbols, s.id ∈ I ∧ rid s.id ∈ I)
    (hL : ins.line ∈ L) : ∀ e ∈ ins.edits rid, e.Of I L := by
  intro e he
  cases ins with
  | acquire sym resource line =>
    rw [List.mem_singleton.mp he]
    exact ⟨(hI sym List.mem_cons_self).1, hL⟩
  | acquireBuffer sym info line =>
    rw [List.mem_singleton.mp he]
    exact ⟨(hI sym List.mem_cons_self).1, hL⟩
  | moveInto dst src line =>
    rcases List.mem_cons.mp he with rfl | he
    · exact (hI src (List.mem_cons_of_mem _ List.mem_cons_self)).2
    · rw [List.mem_singleton.mp he]
      exact ⟨(hI dst List.mem_cons_self).1, hL⟩
  | aliasJoin handle src line =>
    rw [List.mem_singleton.mp he]
    exact ⟨(hI handle (List.mem_cons_of_mem _ List.mem_cons_self)).1, (hI src List.mem_cons_self).2⟩
  | release sym line =>
    rw [List.mem_singleton.mp he]
    exact (hI sym List.mem_cons_self).2
  | invoke callee args line =>
    obtain ⟨s, hs, rfl⟩ := List.mem_map.mp he
    exact (hI s (List.mem_filterMap.mpr ⟨_, (mem_consumed hs).1, rfl⟩)).2
  | borrowStart owner binding isMut line =>
    rw [List.mem_singleton.mp he]
    trivial
  | borrowEnd owner binding isMut line =>
    rw [List.mem_singleton.mp he]
    trivial
  | return_ sym line =>
    cases sym with
    | none => cases he
    | some sym =>
      rw [List.mem_singleton.mp he]
      exact (hI sym (by simp [Instr.symbols])).2
  | _ => cases he

theorem Small.step {G : Layout} {I : Set Nat} {L : Set Int} {ins : Instr} {st : State} (h : Small I L st)
    (syms : Nat → Option Symbol) (hk : ins.Kinds) (hd : Denotes G ins st) (hI : ∀ s ∈ ins.symbols, s.id ∈ I ∧ G.rid s.id ∈ I)
    (hL : ins.line ∈ L) : Small I L (step syms ins st).1 := by
  rw [step_edits syms hk hd]
  refine Small.edits ?_ (edits_of hI hL)
  cases ins with
  | moveInto dst src line =>
    show Small I L (recordMove st src line)
    unfold recordMove
    split
    · rw [hd src List.mem_cons_self hk.2]
      have hsrc : G.rid src.id ∈ I := (hI src (List.mem_cons_of_mem _ List.mem_cons_self)).2
      exact ⟨h.handles, h.var, h.moved.set hsrc ⟨hL, Set.mem_univ _⟩, h.acquired⟩
    · exact h
  | _ => exact h

theorem Small.run {syms : Nat → Option Symbol} {G : Layout} {I : Set Nat} {L : Set Int} {K : List Symbol} {N : Note}
    {l : List Instr} {st : State} (hs : Small I L st) (h : Holds G K N st) (hK : Whole G K) (hl : Lying G K l)
    (hI : ∀ ins ∈ l, ∀ s ∈ ins.symbols, s.id ∈ I ∧ G.rid s.id ∈ I) (hL : ∀ ins ∈ l, ins.line ∈ L) :
    Small I L (transfer syms l st).1 := by
  induction l generalizing K N st with
  | nil => exact hs
  | cons ins rest ih =>
    have hstep := hs.step syms hl.1.kinds (h.ridOf hl.1) (hI ins List.mem_cons_self) (hL ins List.mem_cons_self)
    exact ih hstep (h.step syms hK hl.1).1 (hK.known hl.1) hl.2 (fun x hx => hI x (List.mem_cons_of_mem _ hx))
      fun x hx => hL x (List.mem_cons_of_mem _ hx)

theorem siteJoin_line {L : Set Int} {a b : Int × Bool} (ha : a ∈ L ×ˢ (Set.univ : Set Bool))
    (hb : b ∈ L ×ˢ (Set.univ : Set Bool)) : siteJoin a b ∈ L ×ˢ (Set.univ : Set Bool) := by
  refine ⟨?_, Set.mem_univ _⟩
  unfold siteJoin
  split
  · exact ha.1
  · rcases Int.le_total a.1 b.1 with hle | hle
    · simpa [min_eq_left hle] using ha.1
    · simpa [min_eq_right hle] using hb.1

theorem Small.join {I : Set Nat} {L : Set Int} {s t u : State} (hs : Small I L s) (ht : Small I L t)
    (h : Lang.join s t = .ok u) : Small I L u := by
  have m := join_merges h
  refine ⟨?_, ?_, ?_, ?_⟩
  · rw [m.handles]
    exact hs.handles.merge ht.handles fun v hv _ _ => hv
  · rw [m.var]
    exact hs.var.merge ht.var fun _ _ _ _ => Set.mem_univ _
  · rw [m.moved]
    exact hs.moved.merge ht.moved fun _ hv _ hw => siteJoin_line hv hw
  · rw [m.acquired]
    exact hs.acquired.merge ht.acquired fun _ hv _ hw => siteJoin_line hv hw

end OwnNet.Lang
