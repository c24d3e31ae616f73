/-
  OwnNet.OwnAnalysis.Mirror — the crate's state beside that of the analysis it is a port of: the bits
  of a byte are a set, and a loan has the binding it is found by.

  Proved: `Mirrors.step`: on states that mirror each other an instruction reports the same verdicts,
  and leaves states that mirror each other; `Mirrors.join`: so does a join.
-/

import OwnNet.OwnAnalysis.Engine
import OwnNet.Dict.Mapped

namespace OwnNet.OwnAnalysis.Engine

open Lang (Symbol Instr Effect CFG Code LoanKind Stuck VarState Diagnostic joinHandleRid)

/-! ## Bits -/

def bit : VarState → UInt8
  | .owned => OWNED
  | .moved => MOVED
  | .released => RELEASED
  | .escaped => ESCAPED

def sets (s : UInt8) : Finset VarState := Finset.univ.filter fun v => s &&& bit v ≠ 0

@[simp] theorem mem_sets {s : UInt8} {v : VarState} : v ∈ sets s ↔ s &&& bit v ≠ 0 := by simp [sets]

theorem sets_bit (v : VarState) : sets (bit v) = {v} := by cases v <;> decide

theorem or_and_ne {a b c : UInt8} : (a ||| b) &&& c ≠ 0 ↔ a &&& c ≠ 0 ∨ b &&& c ≠ 0 := by
  have hdistrib : (a ||| b) &&& c = a &&& c ||| b &&& c := UInt8.toBitVec_inj.mp BitVec.and_or_distrib_right
  rw [hdistrib, Ne, UInt8.or_eq_zero_iff, not_and_or]

theorem sets_or (a b : UInt8) : sets (a ||| b) = sets a ∪ sets b := by
  ext v
  rw [Finset.mem_union, mem_sets, mem_sets, mem_sets, or_and_ne]

/-! ## States -/

structure Mirrors (s : State) (st : Lang.State) : Prop where
  var : st.var = s.var.mapValues fun _ v => sets v
  loans : st.loans = s.loans.mapValues fun k l => ⟨k, l.owner, k, l.kind⟩
  handles : st.handleRid = s.handleRid

/-- What the port compares of a finding. -/
def verdict (d : Diagnostic) : Verdict := ⟨d.code, d.line, d.subject⟩

theorem countLoan_foldl (rid : Nat) (l : List (Nat × Loan)) (found : Nat × Bool) :
    (0 < (l.foldl (countLoan rid) found).1 ↔ 0 < found.1 ∨ ∃ e ∈ l, e.2.owner = rid ∧ e.2.kind = .shared) ∧
      ((l.foldl (countLoan rid) found).2 = true ↔ found.2 = true ∨ ∃ e ∈ l, e.2.owner = rid ∧ e.2.kind = .mut) := by
  induction l generalizing found with
  | nil => simp
  | cons e l ih =>
    rw [List.foldl_cons, (ih _).1, (ih _).2]
    simp only [List.exists_mem_cons_iff]
    unfold countLoan
    by_cases hrid : e.2.owner = rid
    · rw [if_pos hrid]
      obtain hkind | hkind : e.2.kind = .shared ∨ e.2.kind = .mut := by cases e.2.kind <;> simp
      · simp [hrid, hkind]
      · simp [hrid, hkind]
    · rw [if_neg hrid]
      simp [hrid]

namespace Mirrors

variable {s : State} {st : Lang.State} (h : Mirrors s st) (sym : Symbol)

include h

theorem ridOf : st.ridOf sym = s.ridOf sym := by
  unfold Lang.State.ridOf State.ridOf
  rw [h.handles]

theorem states : st.states sym = sets (s.states (s.ridOf sym)) := by
  unfold Lang.State.states State.states Dict.getD
  rw [h.ridOf, h.var, Dict.get?_mapValues]
  cases s.var.get? (s.ridOf sym) with
  | none => exact (sets_bit .owned).symm
  | some v => rfl

theorem loansOn :
    ((Lang.loansOn st sym).1 ≠ 0 ↔ 0 < (loansOn s sym).1) ∧ ((Lang.loansOn st sym).2 = (loansOn s sym).2) := by
  have hfold := countLoan_foldl (s.ridOf sym) s.loans.entries (0, false)
  unfold Lang.loansOn Engine.loansOn
  rw [h.ridOf, h.loans]
  constructor
  · rw [hfold.1, ← Nat.pos_iff_ne_zero, List.countP_pos_iff]
    simp [Dict.mapValues, and_assoc]
  · rw [Bool.eq_iff_iff, hfold.2, List.any_eq_true]
    simp [Dict.mapValues, and_assoc]

theorem lent : Lang.borrowed st sym = lent s sym := by
  unfold Lang.borrowed Engine.lent
  rw [(h.loansOn sym).2]
  simp only [(h.loansOn sym).1]

theorem bindingLive : Lang.bindingLive st sym = bindingLive s sym := by
  have hany : (st.loans.entries.any fun e => e.2.binding = sym.id) = (s.loans.get? sym.id).isSome := by
    rw [Bool.eq_iff_iff, List.any_eq_true, h.loans, Option.isSome_iff_exists]
    constructor
    · intro hex
      obtain ⟨e, he, hid⟩ := hex
      obtain ⟨e', he', rfl⟩ := List.mem_map.mp he
      refine ⟨e'.2, ?_⟩
      rw [← show e'.1 = sym.id by simpa using hid]
      exact Dict.mem_entries.mp he'
    · intro hex
      obtain ⟨l, hl⟩ := hex
      exact ⟨_, List.mem_map.mpr ⟨_, Dict.mem_entries.mpr hl, rfl⟩, by simp⟩
  unfold Lang.bindingLive Engine.bindingLive
  rw [hany]

/-! ### Verdicts -/

theorem stateProblem (verb : String) (line : Int) :
    (Lang.stateProblem st sym verb line).map verdict = stateProblem s sym line := by
  unfold Lang.stateProblem Engine.stateProblem
  rw [h.states]
  have hnot : s.states (s.ridOf sym) &&& (RELEASED ||| ESCAPED) ≠ 0 ↔
      s.states (s.ridOf sym) &&& RELEASED ≠ 0 ∨ s.states (s.ridOf sym) &&& ESCAPED ≠ 0 := by
    rw [UInt8.and_comm, or_and_ne, UInt8.and_comm RELEASED, UInt8.and_comm ESCAPED]
  simp only [mem_sets, bit, not_not, hnot]
  by_cases ho : s.states (s.ridOf sym) &&& OWNED = 0
  · rw [if_pos ho, if_pos ho]
    by_cases hm : s.states (s.ridOf sym) &&& MOVED ≠ 0
    · rw [if_pos hm, if_pos hm]
      rfl
    · rw [if_neg hm, if_neg hm]
      split <;> rfl
  · rw [if_neg ho, if_neg ho]
    split
    · rfl
    · split <;> rfl

/-- A check that asks about the state first, and then something else. -/
theorem checked (verb : String) (line : Int) {rest : List Diagnostic} {rest' : List Verdict} (hrest : rest.map verdict = rest') :
    (match Lang.stateProblem st sym verb line with
      | some d => [d]
      | none => rest).map verdict =
      match Engine.stateProblem s sym line with
      | some v => [v]
      | none => rest' := by
  rw [← h.stateProblem sym verb line]
  cases Lang.stateProblem st sym verb line with
  | none => exact hrest
  | some d => rfl

theorem consumeLike (verb : String) (line : Int) :
    (Lang.consumeLike st sym verb line).map verdict = consumeLike s sym line := by
  refine h.checked sym verb line ?_
  rw [h.lent]
  split <;> rfl

theorem checkMutBorrowable (line : Int) :
    (Lang.checkMutBorrowable st sym line).map verdict = checkMutBorrowable s sym line := by
  refine h.checked sym _ line ?_
  rw [(h.loansOn sym).2]
  simp only [(h.loansOn sym).1]
  split
  · rfl
  · split <;> rfl

theorem checkSharedBorrowable (line : Int) :
    (Lang.checkSharedBorrowable st sym line).map verdict = checkSharedBorrowable s sym line := by
  refine h.checked sym _ line ?_
  rw [(h.loansOn sym).2]
  split <;> rfl

theorem releaseProblem (line : Int) : (Lang.releaseProblem st sym line).map verdict = releaseProblem s sym line := by
  unfold Lang.releaseProblem Engine.releaseProblem
  rw [h.states]
  simp only [mem_sets, bit]
  by_cases hr : s.states (s.ridOf sym) &&& RELEASED ≠ 0
  · rw [if_pos hr, if_pos hr]
    split <;> rfl
  · have hne : sets (s.states (s.ridOf sym)) ≠ {.released} := by
      intro heq
      have hmem : VarState.released ∈ sets (s.states (s.ridOf sym)) := by
        rw [heq]
        exact Finset.mem_singleton_self _
      exact hr (mem_sets.mp hmem)
    rw [if_neg hne, if_neg hr, if_neg hr]
    refine h.checked sym _ line ?_
    rw [h.lent]
    split <;> rfl

theorem useProblem (line : Int) : (Lang.useProblem st sym line).map verdict = useProblem s sym line := by
  unfold Lang.useProblem Engine.useProblem
  cases sym.kind with
  | owned =>
    refine h.checked sym _ line ?_
    rw [(h.loansOn sym).2]
    split <;> rfl
  | borrow =>
    simp only
    rw [h.bindingLive]
    split <;> rfl
  | plain => rfl

theorem returnProblem (line : Int) : (Lang.returnProblem st sym line).map verdict = returnProblem s sym line := by
  unfold Lang.returnProblem Engine.returnProblem
  rw [h.states, h.lent]
  simp only [mem_sets, bit, not_not]
  by_cases ho : s.states (s.ridOf sym) &&& OWNED = 0
  · rw [if_pos ho, if_pos ho]
    split <;> rfl
  · rw [if_neg ho, if_neg ho]
    split
    · rfl
    · cases sym.buffer with
      | none => rfl
      | some buf =>
        simp only
        split <;> rfl

theorem leakCheck (syms : Nat → Option Symbol) (line : Int) (context : String) (exclude : Option Symbol) :
    (Lang.leakCheck syms st line context exclude).map verdict = leakCheck syms s line (exclude.map s.ridOf) := by
  have hexclude : exclude.map st.ridOf = exclude.map s.ridOf := by
    cases exclude with
    | none => rfl
    | some sym => exact congrArg some (h.ridOf sym)
  unfold Lang.leakCheck Lang.leaks Engine.leakCheck
  rw [hexclude, h.var]
  show ((((s.var.entries.map fun e => (e.1, sets e.2)).filter _).map _).map _).map _ = _
  induction s.var.entries with
  | nil => rfl
  | cons e rest ih =>
    rw [List.map_cons, List.filter_cons, List.flatMap_cons, ← ih]
    simp only [mem_sets, bit, decide_eq_true_eq]
    by_cases hx : some e.1 = exclude.map s.ridOf
    · simp [hx]
    · by_cases ho : e.2 &&& OWNED ≠ 0
      · have hboth : e.2 &&& OWNED ≠ 0 ∧ exclude.map s.ridOf ≠ some e.1 := ⟨ho, fun hxe => hx hxe.symm⟩
        rw [if_pos hboth, if_neg hx, if_pos ho]
        rfl
      · rw [if_neg fun hboth => ho hboth.1, if_neg hx, if_neg ho]
        rfl

/-! ### States -/

theorem setVar (rid : Nat) (v : VarState) : Mirrors (s.setVar rid (bit v)) (st.mark rid v) where
  var := by
    show st.var.set rid {v} = Dict.mapValues _ (s.var.set rid (bit v))
    rw [Dict.mapValues_set, h.var, sets_bit]
  loans := h.loans
  handles := h.handles

theorem acquire (line : Int) : Mirrors (acquire s sym line) (st.acquire sym line) where
  var := by
    show st.var.set sym.id {.owned} = Dict.mapValues _ (s.var.set sym.id OWNED)
    rw [Dict.mapValues_set, h.var]
    exact congrArg _ (sets_bit .owned).symm
  loans := h.loans
  handles := by
    show st.handleRid.set sym.id sym.id = s.handleRid.set sym.id sym.id
    rw [h.handles]

theorem applyEffect (callee : String) (line : Int) (eff : Effect) :
    Mirrors (Engine.applyEffect line sym eff s).1 (Lang.applyEffect callee line sym eff st).1 ∧
      (Lang.applyEffect callee line sym eff st).2.map verdict = (Engine.applyEffect line sym eff s).2 := by
  unfold Lang.applyEffect Engine.applyEffect
  cases sym.kind with
  | owned =>
    cases eff with
    | consume =>
      refine ⟨?_, ?_⟩
      · simp only
        rw [h.ridOf]
        exact h.setVar _ .escaped
      · simp only [List.map_append, h.consumeLike]
        congr 1
        unfold Lang.consumedBuffer
        cases sym.buffer with
        | none => rfl
        | some buf =>
          simp only
          split <;> rfl
    | borrowMut => exact ⟨h, h.checkMutBorrowable sym line⟩
    | borrow => exact ⟨h, h.checkSharedBorrowable sym line⟩
    | plain => exact ⟨h, rfl⟩
  | borrow =>
    cases eff with
    | borrow =>
      refine ⟨h, ?_⟩
      simp only
      rw [h.bindingLive]
      split <;> rfl
    | borrowMut =>
      refine ⟨h, ?_⟩
      simp only
      split <;> rfl
    | consume => exact ⟨h, rfl⟩
    | plain => exact ⟨h, rfl⟩
  | plain => cases eff <;> exact ⟨h, rfl⟩

end Mirrors

theorem Mirrors.applyArgs {s : State} {st : Lang.State} (h : Mirrors s st) (callee : String) (line : Int)
    (args : List (Option Symbol × Effect)) :
    Mirrors (applyArgs line args s).1 (Lang.applyArgs callee line args st).1 ∧
      (Lang.applyArgs callee line args st).2.map verdict = (Engine.applyArgs line args s).2 := by
  induction args generalizing s st with
  | nil => exact ⟨h, rfl⟩
  | cons a rest ih =>
    obtain ⟨o, eff⟩ := a
    cases o with
    | none => exact ih h
    | some sym =>
      obtain ⟨hstate, hsaid⟩ := h.applyEffect sym callee line eff
      obtain ⟨hstate', hsaid'⟩ := ih hstate
      refine ⟨hstate', ?_⟩
      rw [Lang.applyArgs, Engine.applyArgs]
      simp only [List.map_append, hsaid, hsaid']

section

variable (syms : Nat → Option Symbol)

theorem Mirrors.step {s : State} {st : Lang.State} (h : Mirrors s st) (ins : Instr) :
    Mirrors (step syms ins s).1 (Lang.step syms ins st).1 ∧
        (Lang.step syms ins st).2.map verdict = (Engine.step syms ins s).2 := by
  cases ins with
  | acquire sym resource line => exact ⟨h.acquire sym line, rfl⟩
  | acquireBuffer sym info line => exact ⟨h.acquire sym line, rfl⟩
  | moveInto dst src line =>
    refine ⟨?_, h.consumeLike src "move" line⟩
    unfold Lang.step Engine.step
    simp only
    rw [h.ridOf]
    refine Mirrors.acquire (Mirrors.setVar ?_ _ .moved) dst line
    -- the sites are no part of what is compared
    have hmoved : ∀ sites, Mirrors (if s.states (s.ridOf src) &&& OWNED ≠ 0 then { s with movedAt := sites } else s) st := by
      intro sites
      split
      · exact ⟨h.var, h.loans, h.handles⟩
      · exact h
    have hrecord := hmoved (s.movedAt.set (s.ridOf src) (line, true))
    unfold Lang.recordMove
    by_cases ho : VarState.owned ∈ st.states src
    · rw [if_pos ho]
      exact ⟨hrecord.var, hrecord.loans, hrecord.handles⟩
    · rw [if_neg ho]
      exact hrecord
  | aliasJoin handle src line =>
    refine ⟨⟨h.var, h.loans, ?_⟩, rfl⟩
    show st.handleRid.set handle.id (st.ridOf src) = s.handleRid.set handle.id (s.ridOf src)
    rw [h.handles, h.ridOf]
  | release sym line =>
    refine ⟨?_, h.releaseProblem sym line⟩
    show Mirrors _ (st.mark (st.ridOf sym) .released)
    rw [h.ridOf]
    exact h.setVar _ .released
  | use sym line => exact ⟨h, h.useProblem sym line⟩
  | overspan sym line => exact ⟨h, rfl⟩
  | invoke callee args line => exact h.applyArgs callee line args
  | borrowStart owner binding isMut line =>
    refine ⟨⟨h.var, ?_, h.handles⟩, ?_⟩
    · show st.loans.set binding.id _ = Dict.mapValues _ (s.loans.set binding.id _)
      rw [Dict.mapValues_set, h.loans, h.ridOf]
    · cases isMut with
      | true => exact h.checkMutBorrowable owner line
      | false => exact h.checkSharedBorrowable owner line
  | borrowEnd owner binding isMut line =>
    refine ⟨⟨h.var, ?_, h.handles⟩, rfl⟩
    show st.loans.erase binding.id = Dict.mapValues _ (s.loans.erase binding.id)
    rw [Dict.mapValues_erase, h.loans]
  | return_ sym line =>
    cases sym with
    | none => exact ⟨h, h.leakCheck syms line _ none⟩
    | some sym =>
      refine ⟨?_, ?_⟩
      · show Mirrors _ (st.mark (st.ridOf sym) .escaped)
        rw [h.ridOf]
        exact h.setVar _ .escaped
      · unfold Lang.step Engine.step
        simp only [List.map_append, h.leakCheck, h.returnProblem, Option.map_some]

theorem Mirrors.transfer {s : State} {st : Lang.State} (h : Mirrors s st) (l : List Instr) :
    Mirrors (transferBlock syms l s).1 (Lang.transfer syms l st).1 ∧
      (Lang.transfer syms l st).2.map verdict = (transferBlock syms l s).2 := by
  induction l generalizing s st with
  | nil => exact ⟨h, rfl⟩
  | cons ins rest ih =>
    obtain ⟨hstate, hsaid⟩ := h.step syms ins
    obtain ⟨hstate', hsaid'⟩ := ih hstate
    refine ⟨hstate', ?_⟩
    rw [Lang.transfer, transferBlock]
    simp only [List.map_append, hsaid, hsaid']

end

theorem Mirrors.initial (cfg : CFG) : Mirrors (initialState cfg) cfg.initialState := by
  unfold initialState CFG.initialState
  have hfold : ∀ (l : List Symbol) (s : State) (st : Lang.State), Mirrors s st →
      Mirrors (l.foldl (fun st p => (st.mint p).setVar p.id OWNED) s)
        (l.foldl (fun st p => { st with handleRid := st.handleRid.set p.id p.id, var := st.var.set p.id {.owned} }) st) := by
    intro l
    induction l with
    | nil => exact fun s st h => h
    | cons p rest ih =>
      intro s st h
      refine ih _ _ ⟨?_, h.loans, ?_⟩
      · show st.var.set p.id {.owned} = Dict.mapValues _ (s.var.set p.id OWNED)
        rw [Dict.mapValues_set, h.var]
        exact congrArg _ (sets_bit .owned).symm
      · show st.handleRid.set p.id p.id = s.handleRid.set p.id p.id
        rw [h.handles]
  exact hfold _ _ _ ⟨rfl, rfl, rfl⟩

/-! ## Joins -/

theorem Mirrors.join {s t : State} {st tt ut : Lang.State} (hs : Mirrors s st) (ht : Mirrors t tt)
    (hu : Lang.join st tt = .ok ut) :
    ∃ u, joinData s t = .ok u ∧ Mirrors u ut := by
  have m := Lang.join_merges hu
  have hloans : s.loans = t.loans := by
    refine Dict.ext_get? fun k => ?_
    have hk := congrArg (·.get? k) (hs.loans.symm.trans (m.same.trans ht.loans))
    simp only [Dict.get?_mapValues] at hk
    refine Option.map_injective (fun l l' hl => ?_) hk
    injection hl with _ howner _ hkind
    cases l
    cases l'
    simp only at howner hkind
    rw [howner, hkind]
  have hhandles : joinHandleRid s.handleRid t.handleRid = .ok ut.handleRid := by
    unfold Lang.join at hu
    rw [if_neg (not_not.mpr m.same), hs.handles, ht.handles] at hu
    split at hu
    next => cases hu
    next handles hh =>
      cases hu
      exact hh
  unfold joinData
  rw [if_neg (not_not.mpr hloans), hhandles]
  refine ⟨_, rfl, ?_, m.loans.trans hs.loans, rfl⟩
  rw [m.var, hs.var, ht.var]
  exact (Dict.mapValues_merge _ (fun _ => sets_or) _ _).symm

end OwnNet.OwnAnalysis.Engine
