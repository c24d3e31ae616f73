/-
  OwnNet.Lang.Exclusivity — a call that is handed one resource at two positions, one of them
  to consume it or to borrow it exclusively.

  The arguments are gone through one by one. A loan for the call is never recorded, so what
  one argument borrows no later one sees; what one consumes, every later one sees.

  Proved: `quiet_iff`: a call is quiet just where each argument is accepted on its own, in the
  state before the call, and nothing is passed on after it was consumed;
  `exclusive_iff`: a call reports every such conflict, and reports it in every order of its
  arguments, just where an argument is refused on its own, a resource is consumed twice, or
  there is no conflict.
-/

import OwnNet.Lang.Analysis
import Mathlib.Data.List.Pairwise

namespace OwnNet.Lang

abbrev Argument := Option Symbol × Effect

/-- Some two positions, in their order. -/
def Two (R : Argument → Argument → Prop) (args : List Argument) : Prop :=
  ∃ (i j : Nat) (a b : Argument), i < j ∧ args[i]? = some a ∧ args[j]? = some b ∧ R a b

def Effect.exclusive (eff : Effect) : Prop := eff = .borrowMut ∨ eff = .consume

/-- One resource at two positions, at least one of which wants it to itself. -/
def Conflicting (st : State) (a b : Argument) : Prop :=
  ∃ s t, a.1 = some s ∧ b.1 = some t ∧ st.ridOf s = st.ridOf t ∧ (a.2.exclusive ∨ b.2.exclusive)

/-- One resource consumed at both positions. -/
def ConsumedTwice (st : State) (a b : Argument) : Prop :=
  ∃ s t, a = (some s, .consume) ∧ b = (some t, .consume) ∧ s.kind = .owned ∧ t.kind = .owned ∧ st.ridOf s = st.ridOf t

/-- What an argument is refused for on its own: an owner that is not surely still owned or is
    lent out, a buffer that would leave, a borrow that is over, shared where an exclusive one is
    asked for, or consumed, and a value of the wrong kind. -/
def RefusedAs (st : State) (sym : Symbol) : Kind → Effect → Prop
  | .owned, .consume => st.states sym ≠ {.owned} ∨ borrowed st sym = true ∨ sym.buffer.isSome = true
  | .owned, .borrowMut => st.states sym ≠ {.owned} ∨ borrowed st sym = true
  | .owned, .borrow => st.states sym ≠ {.owned} ∨ (loansOn st sym).2 = true
  | .owned, .plain => True
  | .borrow, .borrow => bindingLive st sym = false
  | .borrow, .borrowMut => sym.borrowIsMut = some false
  | .borrow, .consume => True
  | .borrow, .plain => True
  | .plain, .plain => False
  | .plain, _ => True

def Refused (st : State) : Argument → Prop
  | (none, _) => False
  | (some sym, eff) => RefusedAs st sym sym.kind eff

/-- Consumed at one position, passed on at a later one. -/
def Spent (st : State) (a b : Argument) : Prop :=
  ∃ s t, a = (some s, .consume) ∧ b.1 = some t ∧ s.kind = .owned ∧ t.kind = .owned ∧ st.ridOf s = st.ridOf t

/-- The analysis of a call reports something. -/
def CallReports (callee : String) (line : Int) (st : State) (args : List Argument) : Prop :=
  (applyArgs callee line args st).2 ≠ []

/-! ## Positions -/

theorem two_iff {R : Argument → Argument → Prop} {args : List Argument} : Two R args ↔ ¬args.Pairwise fun a b => ¬R a b := by
  unfold Two
  rw [List.pairwise_iff_getElem]
  push Not
  constructor
  · rintro ⟨i, j, a, b, hij, ha, hb, hR⟩
    obtain ⟨hi, rfl⟩ := List.getElem?_eq_some_iff.mp ha
    obtain ⟨hj, rfl⟩ := List.getElem?_eq_some_iff.mp hb
    exact ⟨i, j, hi, hj, hij, hR⟩
  · rintro ⟨i, j, hi, hj, hij, hR⟩
    exact ⟨i, j, _, _, hij, List.getElem?_eq_getElem hi, List.getElem?_eq_getElem hj, hR⟩

/-- Where the order within a pair does not matter, neither does that of the list. -/
theorem two_perm {R : Argument → Argument → Prop} (hsymm : ∀ a b, R a b → R b a) {args args' : List Argument}
    (hp : args.Perm args') :
    Two R args' ↔ Two R args := by
  rw [two_iff, two_iff, hp.pairwise_iff fun h hba => h (hsymm _ _ hba)]

theorem Conflicting.symm {st : State} {a b : Argument} (h : Conflicting st a b) : Conflicting st b a := by
  obtain ⟨s, t, hs, ht, hrid, hex⟩ := h
  exact ⟨t, s, ht, hs, hrid.symm, hex.symm⟩

theorem ConsumedTwice.symm {st : State} {a b : Argument} (h : ConsumedTwice st a b) : ConsumedTwice st b a := by
  obtain ⟨s, t, hs, ht, hks, hkt, hrid⟩ := h
  exact ⟨t, s, ht, hs, hkt, hks, hrid.symm⟩

theorem Spent.conflicting {st : State} {a b : Argument} (h : Spent st a b) : Conflicting st a b := by
  obtain ⟨s, t, rfl, ht, -, -, hrid⟩ := h
  exact ⟨s, t, rfl, ht, hrid, Or.inl (Or.inr rfl)⟩

theorem ConsumedTwice.spent {st : State} {a b : Argument} (h : ConsumedTwice st a b) : Spent st a b := by
  obtain ⟨s, t, rfl, rfl, hks, hkt, hrid⟩ := h
  exact ⟨s, t, rfl, rfl, hks, hkt, hrid⟩

/-! ## One argument -/

theorem stateProblem_none {st : State} {sym : Symbol} {verb : String} {line : Int} :
    stateProblem st sym verb line = none ↔ st.states sym = {.owned} := by
  have hall : ∀ S : Finset VarState, S = {.owned} ↔ .owned ∈ S ∧ .moved ∉ S ∧ .released ∉ S ∧ .escaped ∉ S := by
    intro S
    constructor
    · rintro rfl
      decide
    · rintro ⟨ho, hm, hr, he⟩
      refine Finset.ext fun v => ?_
      cases v <;> simp_all
  rw [hall]
  unfold stateProblem
  dsimp only
  by_cases ho : VarState.owned ∈ st.states sym
  · rw [if_neg (not_not.mpr ho)]
    by_cases hre : VarState.released ∈ st.states sym ∨ VarState.escaped ∈ st.states sym
    · rw [if_pos hre]
      simp only [reduceCtorEq, false_iff]
      tauto
    · rw [if_neg hre]
      by_cases hm : VarState.moved ∈ st.states sym
      · rw [if_pos hm]
        simp [hm]
      · rw [if_neg hm]
        simp only [true_iff]
        tauto
  · rw [if_pos ho]
    simp only [ho, false_and, iff_false]
    split
    · simp
    · split <;> simp

theorem applyEffect_quiet {callee : String} {line : Int} {sym : Symbol} {eff : Effect} {st : State} :
    (applyEffect callee line sym eff st).2 = [] ↔ ¬Refused st (some sym, eff) := by
  have hborrowed : borrowed st sym = true ↔ (loansOn st sym).1 ≠ 0 ∨ (loansOn st sym).2 = true := by simp [borrowed]
  have hproblem : ∀ verb, stateProblem st sym verb line = none ∧ st.states sym = {.owned} ∨
      (∃ d, stateProblem st sym verb line = some d) ∧ st.states sym ≠ {.owned} := by
    intro verb
    by_cases hs : stateProblem st sym verb line = none
    · exact Or.inl ⟨hs, stateProblem_none.mp hs⟩
    · exact Or.inr ⟨Option.ne_none_iff_exists'.mp hs, fun h => hs (stateProblem_none.mpr h)⟩
  show _ ↔ ¬RefusedAs st sym sym.kind eff
  unfold applyEffect
  cases hk : sym.kind <;> cases eff <;> dsimp only [RefusedAs]
  case owned.consume =>
    unfold consumeLike consumedBuffer
    rcases hproblem "consume" with ⟨hd, hs⟩ | ⟨⟨d, hd⟩, hs⟩
    · rw [hd, hs]
      cases sym.buffer with
      | none => cases borrowed st sym <;> simp
      | some info => by_cases hback : info.stackBacked = true <;> simp [hback]
    · rw [hd]
      simp [hs]
  case owned.borrowMut =>
    unfold checkMutBorrowable
    rcases hproblem "mutably borrow" with ⟨hd, hs⟩ | ⟨⟨d, hd⟩, hs⟩
    · rw [hd, hs, hborrowed]
      by_cases h1 : (loansOn st sym).1 = 0 <;> cases h2 : (loansOn st sym).2 <;> simp [h1]
    · rw [hd]
      simp [hs]
  case owned.borrow =>
    unfold checkSharedBorrowable
    rcases hproblem "borrow" with ⟨hd, hs⟩ | ⟨⟨d, hd⟩, hs⟩
    · rw [hd, hs]
      cases (loansOn st sym).2 <;> simp
    · rw [hd]
      simp [hs]
  case borrow.borrow => cases bindingLive st sym <;> simp
  case borrow.borrowMut => by_cases hb : sym.borrowIsMut = some false <;> simp [hb]
  all_goals simp

/-- A consumed resource is one no later argument may have. -/
theorem refused_mark {st : State} {r : Nat} {a : Argument} :
    Refused (st.mark r .escaped) a ↔ Refused st a ∨ ∃ t, a.1 = some t ∧ t.kind = .owned ∧ st.ridOf t = r := by
  obtain ⟨_ | t, eff⟩ := a
  · simp [Refused]
  · have hborrowed : borrowed (st.mark r .escaped) t = borrowed st t := rfl
    have hloans : loansOn (st.mark r .escaped) t = loansOn st t := rfl
    have hlive : bindingLive (st.mark r .escaped) t = bindingLive st t := rfl
    have hstates : (st.mark r .escaped).states t = {.owned} ↔ st.states t = {.owned} ∧ st.ridOf t ≠ r := by
      show (st.var.set r {VarState.escaped}).getD (st.ridOf t) {.owned} = {.owned} ↔ _
      unfold State.states Dict.getD
      by_cases hr : st.ridOf t = r
      · rw [hr, Dict.get?_set_self]
        simp
      · rw [Dict.get?_set_of_ne _ _ hr]
        simp [hr]
    show RefusedAs _ t t.kind eff ↔ RefusedAs st t t.kind eff ∨ _
    cases hk : t.kind <;> cases eff <;> simp only [RefusedAs, hborrowed, hloans, hlive, ne_eq, hstates, hk, Option.some.injEq,
      exists_eq_left', true_and, reduceCtorEq, false_and, or_false] <;> tauto

/-! ## The whole call -/

/-- What an argument leaves behind for the next: only a consumed owner is marked. -/
theorem applyEffect_after {callee : String} {line : Int} {sym : Symbol} {eff : Effect} {st : State} :
    (applyEffect callee line sym eff st).1 =
      if sym.kind = .owned ∧ eff = .consume then st.mark (st.ridOf sym) .escaped else st := by
  unfold applyEffect
  cases hk : sym.kind <;> cases eff <;> simp

/-- A call is quiet just where no argument is refused on its own and none is passed on after it
    was consumed. -/
theorem quiet_iff {callee : String} {line : Int} {args : List Argument} {st : State} :
    (applyArgs callee line args st).2 = [] ↔ (∀ a ∈ args, ¬Refused st a) ∧ args.Pairwise fun a b => ¬Spent st a b := by
  induction args generalizing st with
  | nil => simp [applyArgs]
  | cons a args ih =>
    rw [List.forall_mem_cons, List.pairwise_cons]
    obtain ⟨_ | sym, eff⟩ := a
    · have hnone : ∀ b, ¬Spent st (none, eff) b := by
        rintro b ⟨s, t, heq, -⟩
        cases heq
      simp [applyArgs, ih, Refused, hnone]
    · have hseq : (applyArgs callee line ((some sym, eff) :: args) st).2 = [] ↔
          ¬Refused st (some sym, eff) ∧ (applyArgs callee line args (applyEffect callee line sym eff st).1).2 = [] := by
        have hhead : (applyEffect callee line sym eff st).2 = [] ↔ ¬Refused st (some sym, eff) := applyEffect_quiet
        rw [← hhead]
        exact List.append_eq_nil_iff
      rw [hseq, applyEffect_after, ih]
      by_cases hc : sym.kind = .owned ∧ eff = .consume
      · obtain ⟨hk, rfl⟩ := hc
        have hspent : ∀ a b, Spent (st.mark (st.ridOf sym) .escaped) a b ↔ Spent st a b := fun _ _ => Iff.rfl
        have hmark : ∀ b, (∃ t, b.1 = some t ∧ t.kind = .owned ∧ st.ridOf t = st.ridOf sym) ↔
            Spent st (some sym, .consume) b := by
          intro b
          constructor
          · rintro ⟨t, ht, hkt, hrid⟩
            exact ⟨sym, t, rfl, ht, hk, hkt, hrid.symm⟩
          · rintro ⟨s, t, heq, ht, -, hkt, hrid⟩
            cases heq
            exact ⟨t, ht, hkt, hrid.symm⟩
        rw [if_pos ⟨hk, rfl⟩]
        simp only [hspent, refused_mark, hmark, not_or]
        constructor
        · rintro ⟨hself, hrest, hpair⟩
          exact ⟨⟨hself, fun b hb => (hrest b hb).1⟩, fun b hb => (hrest b hb).2, hpair⟩
        · rintro ⟨⟨hself, hrest⟩, hnew, hpair⟩
          exact ⟨hself, fun b hb => ⟨hrest b hb, hnew b hb⟩, hpair⟩
      · have hnone : ∀ b, ¬Spent st (some sym, eff) b := by
          rintro b ⟨s, t, heq, -, hk, -⟩
          cases heq
          exact hc ⟨hk, rfl⟩
        rw [if_neg hc]
        simp only [hnone, not_false_eq_true, implies_true, true_and]
        tauto

/-- Whatever is not consumed first, then what is: each consumed owner is passed on before. -/
theorem quiet_order {callee : String} {line : Int} {args : List Argument} {st : State} (hr : ∀ a ∈ args, ¬Refused st a)
    (ht : ¬Two (ConsumedTwice st) args) : ∃ args', args.Perm args' ∧ ¬CallReports callee line st args' := by
  have hsplit := List.filter_append_perm (fun a : Argument => decide (a.2 ≠ .consume)) args
  refine ⟨_, hsplit.symm, fun hreports => hreports (quiet_iff.mpr ⟨fun a ha => hr a (hsplit.mem_iff.mp ha), ?_⟩)⟩
  rw [two_iff, not_not] at ht
  have hfirst : ∀ a ∈ args.filter fun a : Argument => decide (a.2 ≠ .consume), ∀ b, ¬Spent st a b := by
    rintro a ha b ⟨s, t, rfl, -⟩
    simp at ha
  refine List.pairwise_append.mpr ⟨?_, ?_, fun a ha b _ => hfirst a ha b⟩
  · exact List.Pairwise.imp_of_mem (fun ha _ _ => hfirst _ ha _) (List.pairwise_of_forall fun _ _ => trivial :
      List.Pairwise (fun _ _ => True) _)
  · refine List.Pairwise.imp_of_mem (fun {a b} ha hb htwice hspent => htwice ?_) (ht.filter _)
    obtain ⟨s, t, rfl, hb1, hks, hkt, hrid⟩ := hspent
    obtain ⟨t', eff⟩ := b
    have hb2 : eff = .consume := by simpa using (List.mem_filter.mp hb).2
    exact ⟨s, t, rfl, by rw [hb2, show t' = some t from hb1], hks, hkt, hrid⟩

/-- A call reports every conflict between its arguments, in every order of them, just where an
    argument is refused on its own, a resource is consumed twice, or nothing conflicts. -/
theorem exclusive_iff (callee : String) (line : Int) (st : State) (args : List Argument) :
    ((Two (Conflicting st) args → CallReports callee line st args) ∧
        ∀ args', args.Perm args' → (CallReports callee line st args' ↔ CallReports callee line st args)) ↔
      (∃ a ∈ args, Refused st a) ∨ Two (ConsumedTwice st) args ∨ ¬Two (Conflicting st) args := by
  have hrefused : ∀ args', args.Perm args' → (∃ a ∈ args, Refused st a) → CallReports callee line st args' := by
    rintro args' hp ⟨a, ha, hr⟩ hquiet
    exact (quiet_iff.mp hquiet).1 a (hp.mem_iff.mp ha) hr
  have htwice : ∀ args', args.Perm args' → Two (ConsumedTwice st) args → CallReports callee line st args' := by
    intro args' hp ht hquiet
    rw [← two_perm (fun _ _ h => h.symm) hp, two_iff] at ht
    exact ht ((quiet_iff.mp hquiet).2.imp fun hspent h => hspent h.spent)
  constructor
  · rintro ⟨hreports, horder⟩
    by_contra hnone
    simp only [not_or, not_exists, not_and, not_not] at hnone
    obtain ⟨hr, ht, hc⟩ := hnone
    have hquietest : ∃ args', args.Perm args' ∧ ¬CallReports callee line st args' := quiet_order hr ht
    obtain ⟨args', hp, hquiet⟩ := hquietest
    exact hquiet ((horder args' hp).mpr (hreports hc))
  · intro h
    by_cases hr : ∃ a ∈ args, Refused st a
    · exact ⟨fun _ => hrefused args (.refl _) hr, fun args' hp => iff_of_true (hrefused args' hp hr) (hrefused args (.refl _) hr)⟩
    by_cases ht : Two (ConsumedTwice st) args
    · exact ⟨fun _ => htwice args (.refl _) ht, fun args' hp => iff_of_true (htwice args' hp ht) (htwice args (.refl _) ht)⟩
    have hc := (h.resolve_left hr).resolve_left ht
    have hquiet : ∀ args', args.Perm args' → ¬CallReports callee line st args' := by
      intro args' hp hreports
      rw [← two_perm (fun _ _ h => h.symm) hp, two_iff, not_not] at hc
      refine hreports (quiet_iff.mpr ⟨fun a ha hra => hr ⟨a, hp.mem_iff.mpr ha, hra⟩, ?_⟩)
      exact hc.imp fun hconf hspent => hconf hspent.conflicting
    exact ⟨fun hconf => absurd hconf hc, fun args' hp => iff_of_false (hquiet args' hp) (hquiet args (.refl _))⟩

namespace Example

/-- `extern fn f(borrow_mut R, borrow_mut R);` -/
def lender : Env := { resourceNames := ["R"], signatures := [("f", [.borrowMut, .borrowMut])] }

/-- `let x = acquire R(); f(x, x); release x;` -/
def twice : FnDecl :=
  { name := "twice", params := [], ret := none, line := 1
    body := [.let_ "x" (.acquire "R" [] 2) 2, .call "f" [.varRef "x" 3, .varRef "x" 3] 3, .release "x" 4] }

def lent : Symbol := { id := 0, name := "x", kind := .owned, defLine := 2, typeName := some "R", origin := some "x#2" }

end Example

open Example in
set_option maxRecDepth 8000 in
/-- One resource is lent exclusively twice, in one call, and nothing is reported. -/
theorem lent_twice_unreported :
    (buildCfg lender twice).2 = [] ∧
    (buildCfg lender twice).1.instrs 0 = [.acquire lent "R" 2, .invoke "f" [(some lent, .borrowMut), (some lent, .borrowMut)] 3,
      .release lent 4] ∧
    ((buildCfg lender twice).1.analyze 20).toOption = some [] ∧
    ¬∀ (callee : String) (line : Int) (st : State) (args : List Argument),
      Two (Conflicting st) args → CallReports callee line st args := by
  refine ⟨by decide, by decide, by decide, fun h => ?_⟩
  refine h "f" 3 (({} : State).acquire lent 2) [(some lent, .borrowMut), (some lent, .borrowMut)] ?_ (by decide)
  exact ⟨0, 1, _, _, by decide, rfl, rfl, lent, lent, rfl, rfl, rfl, Or.inl (Or.inl rfl)⟩

end OwnNet.Lang
