/-
  OwnNet.Lang.Exactness — what is reported about a resource is what the paths say.

  An operand is checked in the state before it: for an argument of a call, after the
  arguments before it. A release asks first whether the resource may be released already.

  Proved: `dataflow_exact`: the converged states are those of the paths; a definite code is
  reported where no path has the resource owned, a maybe code where some do and some do not;
  a leak is reported where some path leaves the function with the resource owned.
-/

import OwnNet.Lang.Paths

namespace OwnNet.Lang

/-- What a code says of a resource: released again, gone on every path, gone on some. -/
inductive Family where
  | twice | definite | maybe
  deriving DecidableEq, Repr

def Code.family : Code → Option Family
  | own003 => some .twice
  | own002 | own005 => some .definite
  | own009 | own010 => some .maybe
  | _ => none

def families (ds : List Diagnostic) : List Family := ds.filterMap (·.code.family)

namespace Instr

def isRelease : Instr → Bool
  | release _ _ => true
  | _ => false

/-- The owner checked as operand `j`; only a call has more than one. -/
def checked (j : Nat) : Instr → Option Symbol
  | use sym _ => if sym.kind = .owned then some sym else none
  | borrowStart owner _ _ _ => some owner
  | moveInto _ src _ => some src
  | release sym _ => some sym
  | invoke _ args _ =>
    match args[j]? with
    | some (some sym, eff) => if sym.kind = .owned ∧ eff ≠ .plain then some sym else none
    | _ => none
  | _ => none

/-- The state operand `j` is checked in. -/
def before (j : Nat) : Instr → State → State
  | invoke callee args line, st => (applyArgs callee line (args.take j) st).1
  | _, st => st

/-- What is reported about operand `j`. -/
def reports (syms : Nat → Option Symbol) (j : Nat) : Instr → State → List Diagnostic
  | invoke callee args line, st =>
    match args[j]? with
    | some (some sym, eff) => (applyEffect callee line sym eff (applyArgs callee line (args.take j) st).1).2
    | _ => []
  | ins, st => (step syms ins st).2

end Instr

/-! ## The codes of a check -/

def State.verdict (st : State) (sym : Symbol) : Option Family :=
  if .owned ∉ st.states sym then some .definite
  else if st.states sym = {.owned} then none
  else some .maybe

theorem not_owned_only {S : Finset VarState} {v : VarState} (hv : v ∈ S) (hne : v ≠ .owned) : S ≠ {.owned} := by
  intro h
  rw [h] at hv
  exact hne (Finset.mem_singleton.mp hv)

theorem stateProblem_family (st : State) (sym : Symbol) (verb : String) (line : Int) :
    (stateProblem st sym verb line).map (·.code.family) = (st.verdict sym).map some := by
  unfold stateProblem State.verdict
  by_cases ho : VarState.owned ∈ st.states sym
  · simp only [ho, not_true, if_false]
    by_cases hre : VarState.released ∈ st.states sym ∨ VarState.escaped ∈ st.states sym
    · have hne : st.states sym ≠ {.owned} := by
        rcases hre with h | h
        · exact not_owned_only h (by decide)
        · exact not_owned_only h (by decide)
      rw [if_pos hre, if_neg hne]
      rfl
    · rw [if_neg hre]
      by_cases hm : VarState.moved ∈ st.states sym
      · rw [if_pos hm, if_neg (not_owned_only hm (by decide))]
        rfl
      · have hall : st.states sym = {.owned} := by
          ext v
          rw [Finset.mem_singleton]
          cases v with
          | owned => simp [ho]
          | moved => simp [hm]
          | released => simpa using fun h => hre (Or.inl h)
          | escaped => simpa using fun h => hre (Or.inr h)
        rw [if_neg hm, if_pos hall]
        rfl
  · rw [if_pos ho, if_pos ho]
    split
    · rfl
    · split <;> rfl

/-- A check that asks about the state first, and then about loans or storage. -/
theorem families_check {rest : List Diagnostic} (hrest : families rest = []) {o : Option Diagnostic}
    {v : Option Family} : o.map (·.code.family) = v.map some →
      families (match o with
        | some d => [d]
        | none => rest) = v.toList := by
  intro h
  cases o with
  | none =>
    cases v with
    | none => exact hrest
    | some f => cases h
  | some d =>
    cases v with
    | none => cases h
    | some f =>
      have hf : d.code.family = some f := Option.some.inj h
      simp [families, hf]

theorem consumeLike_families (st : State) (sym : Symbol) (verb : String) (line : Int) :
    families (consumeLike st sym verb line) = (st.verdict sym).toList :=
  families_check (by split <;> rfl) (stateProblem_family st sym verb line)

theorem checkMutBorrowable_families (st : State) (sym : Symbol) (line : Int) :
    families (checkMutBorrowable st sym line) = (st.verdict sym).toList :=
  families_check (by split <;> [rfl; (split <;> rfl)]) (stateProblem_family st sym "mutably borrow" line)

theorem checkSharedBorrowable_families (st : State) (sym : Symbol) (line : Int) :
    families (checkSharedBorrowable st sym line) = (st.verdict sym).toList :=
  families_check (by split <;> rfl) (stateProblem_family st sym "borrow" line)

theorem useProblem_families (st : State) {sym : Symbol} (hk : sym.kind = .owned) (line : Int) :
    families (useProblem st sym line) = (st.verdict sym).toList := by
  unfold useProblem
  rw [hk]
  exact families_check (by split <;> rfl) (stateProblem_family st sym "use" line)

theorem consumedBuffer_families (sym : Symbol) (callee : String) (line : Int) :
    families (consumedBuffer sym callee line) = [] := by
  unfold consumedBuffer
  split
  · rfl
  · split <;> rfl

/-- A release of what may be released already is reported as that, and as nothing else. -/
theorem releaseProblem_families (st : State) (sym : Symbol) (line : Int) :
    families (releaseProblem st sym line) =
      if .released ∈ st.states sym then [.twice] else (st.verdict sym).toList := by
  unfold releaseProblem
  by_cases hall : st.states sym = {.released}
  · simp only [hall, Finset.mem_singleton, if_true]
    rfl
  · rw [if_neg hall]
    by_cases hr : VarState.released ∈ st.states sym
    · rw [if_pos hr, if_pos hr]
      rfl
    · rw [if_neg hr, if_neg hr]
      exact families_check (by split <;> rfl) (stateProblem_family st sym "release" line)

theorem families_append (ds es : List Diagnostic) : families (ds ++ es) = families ds ++ families es :=
  List.filterMap_append

/-- What is reported about an operand, by family. -/
theorem reports_families (syms : Nat → Option Symbol) {ins : Instr} {j : Nat} {sym : Symbol}
    (hc : ins.checked j = some sym) (st : State) :
    families (ins.reports syms j st) =
      if ins.isRelease ∧ .released ∈ (ins.before j st).states sym then [.twice]
      else ((ins.before j st).verdict sym).toList := by
  cases ins with
  | use s line =>
    simp only [Instr.checked] at hc
    split at hc
    next hk =>
      cases hc
      simp only [Instr.isRelease, Bool.false_eq_true, false_and, if_false]
      exact useProblem_families st hk line
    next => cases hc
  | borrowStart owner binding isMut line =>
    cases hc
    simp only [Instr.isRelease, Bool.false_eq_true, false_and, if_false]
    cases isMut with
    | true => exact checkMutBorrowable_families st sym line
    | false => exact checkSharedBorrowable_families st sym line
  | moveInto dst src line =>
    cases hc
    simp only [Instr.isRelease, Bool.false_eq_true, false_and, if_false]
    exact consumeLike_families st sym "move" line
  | release s line =>
    cases hc
    simp only [Instr.isRelease, true_and]
    exact releaseProblem_families st sym line
  | invoke callee args line =>
    simp only [Instr.checked] at hc
    split at hc
    next s eff harg =>
      split at hc
      next hk =>
        cases hc
        simp only [Instr.isRelease, Bool.false_eq_true, false_and, if_false, Instr.reports, harg, Instr.before]
        unfold applyEffect
        rw [hk.1]
        cases eff with
        | consume =>
          show families (consumeLike _ _ _ _ ++ consumedBuffer _ _ _) = _
          rw [families_append, consumedBuffer_families, List.append_nil]
          exact consumeLike_families _ sym "consume" line
        | borrowMut => exact checkMutBorrowable_families _ sym line
        | borrow => exact checkSharedBorrowable_families _ sym line
        | plain => exact absurd rfl hk.2
      next => cases hc
    next => cases hc
  | _ => cases hc

/-! ## An operand on the paths -/

section

variable {G : Layout} {cfg : CFG} {n : Nat} {ins : Dict Nat State}

theorem checked_mem {K : List Symbol} {a : Instr} {j : Nat} {sym : Symbol} (hs : Sits G K a)
    (hc : a.checked j = some sym) : sym ∈ K ∧ sym.kind = .owned := by
  cases a with
  | use s line =>
    simp only [Instr.checked] at hc
    split at hc
    next hk =>
      cases hc
      exact ⟨hs.mem_of_owned List.mem_cons_self hk, hk⟩
    next => cases hc
  | borrowStart owner binding isMut line =>
    cases hc
    exact ⟨hs.mem_of_owned List.mem_cons_self hs.kinds.1, hs.kinds.1⟩
  | moveInto dst src line =>
    cases hc
    exact ⟨hs.mem_of_owned List.mem_cons_self hs.kinds.2, hs.kinds.2⟩
  | release s line =>
    cases hc
    exact ⟨hs.mem_of_owned List.mem_cons_self hs.kinds, hs.kinds⟩
  | invoke callee args line =>
    simp only [Instr.checked] at hc
    split at hc
    next s eff harg =>
      split at hc
      next hk =>
        cases hc
        have hmem : (some sym, eff) ∈ args := List.mem_of_getElem? harg
        exact ⟨hs.mem_of_owned (List.mem_filterMap.mpr ⟨_, hmem, rfl⟩) hk.1, hk.1⟩
      next => cases hc
    next => cases hc
  | _ => cases hc

/-- The operands before one put marks, the same ones in every state. -/
theorem before_effect {K : List Symbol} {a : Instr} (hs : Sits G K a) (j : Nat) :
    ∃ ms, ∀ st, Tracks G K st → Tracks G K (a.before j st) ∧ (a.before j st).var = setAll ms st.var := by
  cases a with
  | invoke callee args line =>
    refine ⟨(consumed (args.take j)).map fun s => (G.rid s.id, .escaped), ?_⟩
    intro st ht
    have happly := applyArgs_marks G.rid callee line (args.take j) fun s hmem hk => by
      obtain ⟨x, hx, heq⟩ := List.mem_map.mp hmem
      exact ht.ridOf (hs.mem_of_owned (List.mem_filterMap.mpr ⟨x, List.mem_of_mem_take hx, heq⟩) hk) hk
    simp only [Instr.before, happly]
    exact ⟨ht.mark rfl rfl rfl, trivial⟩
  | _ => exact ⟨[], fun st ht => ⟨ht, rfl⟩⟩

/-- The converged states of an operand are those the paths give it, one each. -/
theorem LaidOut.operand_exact (hL : LaidOut G cfg) (hfix : cfg.fixpoint n = .ok ins) {b i j : Nat} {blk : Block}
    {a : Instr} {sym : Symbol} (hb : cfg.blocks[b]? = some blk) (hi : blk.instrs[i]? = some a)
    (hc : a.checked j = some sym) :
    (∀ t, Path cfg b i t → ∃ v, (a.before j (cfg.after t)).states sym = {v}) ∧
      ∀ v, v ∈ (a.before j (cfg.stateAt ins b i)).states sym ↔
        ∃ t, Path cfg b i t ∧ (a.before j (cfg.after t)).states sym = {v} := by
  have hs := (hL.block b blk hb).sitting.at hi
  have hle : i ≤ blk.instrs.length := le_of_lt (List.getElem?_eq_some_iff.mp hi).1
  obtain ⟨hmem, hk⟩ := checked_mem hs hc
  obtain ⟨ms, hms⟩ := before_effect hs j
  obtain ⟨htr, hvar⟩ := hms _ (hL.stateAt_effect hfix hb i).2
  have hpath : ∀ t, Path cfg b i t →
      some ((a.before j (cfg.after t)).states sym) = (setAll ms (cfg.after t).var).get? (G.rid sym.id) ∧
        ∃ v, (cfg.after t).var.get? (G.rid sym.id) = some {v} := by
    intro t ht
    obtain ⟨blk', hon⟩ := ht.onPath hL
    have heq : blk' = blk := Option.some.inj (hon.here.symm.trans hb)
    subst heq
    obtain ⟨htr', hvar'⟩ := hms _ hon.tracks
    obtain ⟨S, hS⟩ := hon.tracks.held sym hmem hk
    obtain ⟨v, rfl⟩ := hon.single hS
    exact ⟨by rw [← hvar', htr'.states hmem hk], v, hS⟩
  have hconv : some ((a.before j (cfg.stateAt ins b i)).states sym) =
      (setAll ms (cfg.stateAt ins b i).var).get? (G.rid sym.id) := by rw [← hvar, htr.states hmem hk]
  cases hlast : lastMark (G.rid sym.id) ms with
  | some w =>
    have hone : ∀ t, Path cfg b i t → (a.before j (cfg.after t)).states sym = {w} := by
      intro t ht
      have h := (hpath t ht).1
      rw [get?_setAll, hlast] at h
      exact Option.some.inj h
    rw [get?_setAll, hlast] at hconv
    rw [Option.some.inj hconv]
    refine ⟨fun t ht => ⟨w, hone t ht⟩, ?_⟩
    intro v
    constructor
    · intro hv
      obtain ⟨t, ht⟩ := hL.reached hb
      refine ⟨_, ht.run hb i hle, ?_⟩
      rw [hone _ (ht.run hb i hle), Finset.mem_singleton.mp hv]
    · intro h
      obtain ⟨t, ht, hv⟩ := h
      rw [hone t ht] at hv
      rw [hv]
      exact Finset.mem_singleton_self v
  | none =>
    have hone : ∀ t, Path cfg b i t → (cfg.after t).var.get? (G.rid sym.id) = some ((a.before j (cfg.after t)).states sym) := by
      intro t ht
      have h := (hpath t ht).1
      rw [get?_setAll, hlast] at h
      exact h.symm
    refine ⟨?_, ?_⟩
    · intro t ht
      obtain ⟨v, hv⟩ := (hpath t ht).2
      exact ⟨v, Option.some.inj ((hone t ht).symm.trans hv)⟩
    · intro v
      have hhere : (cfg.stateAt ins b i).var.get? (G.rid sym.id) =
          some ((a.before j (cfg.stateAt ins b i)).states sym) := by
        rw [get?_setAll, hlast] at hconv
        exact hconv.symm
      have hexact := hL.stateAt_exact hfix hb hle (G.rid sym.id) v
      rw [Dict.getD, hhere] at hexact
      refine hexact.trans ⟨?_, ?_⟩
      · intro h
        obtain ⟨t, ht, hv⟩ := h
        exact ⟨t, ht, Option.some.inj ((hone t ht).symm.trans hv)⟩
      · intro h
        obtain ⟨t, ht, hv⟩ := h
        exact ⟨t, ht, by rw [hone t ht, hv]⟩

/-! ## The reporting pass, place by place -/

theorem mem_transfer (syms : Nat → Option Symbol) {l : List Instr} {st : State} {d : Diagnostic} :
    d ∈ (transfer syms l st).2 ↔ ∃ i a, l[i]? = some a ∧ d ∈ (step syms a (transfer syms (l.take i) st).1).2 := by
  induction l generalizing st with
  | nil => simp [transfer]
  | cons x rest ih =>
    rw [transfer, List.mem_append, ih]
    constructor
    · intro h
      rcases h with h | ⟨i, a, hi, hd⟩
      · exact ⟨0, x, rfl, h⟩
      · exact ⟨i + 1, a, hi, hd⟩
    · intro h
      obtain ⟨i, a, hi, hd⟩ := h
      cases i with
      | zero =>
        cases hi
        exact Or.inl hd
      | succ i => exact Or.inr ⟨i, a, hi, hd⟩

theorem stateAt_end {b : Nat} {blk : Block} (hb : cfg.blocks[b]? = some blk) :
    cfg.stateAt ins b blk.instrs.length = (cfg.outState ins b).1 := by
  rw [CFG.stateAt, CFG.outState, CFG.instrs_of_get hb, List.take_length]

theorem Forward.mem_findings (hF : Forward cfg) {d : Diagnostic} : d ∈ cfg.findings ins ↔
    (∃ b blk i a, cfg.blocks[b]? = some blk ∧ blk.instrs[i]? = some a ∧
      d ∈ (step cfg.symById a (cfg.stateAt ins b i)).2) ∨
    ∃ b blk, cfg.blocks[b]? = some blk ∧ cfg.fallsOff b ∧
      d ∈ leakCheck cfg.symById (cfg.stateAt ins b blk.instrs.length) (cfg.lastLine b) "at end of function" none := by
  rw [CFG.findings, List.mem_append, List.mem_flatMap, List.mem_flatMap]
  constructor
  · intro h
    rcases h with ⟨b, hb, hd⟩ | ⟨b, hb, hd⟩
    · have hblk := List.getElem?_eq_getElem (hF.mem_nodes.mp hb)
      rw [CFG.outState, CFG.instrs_of_get hblk, mem_transfer] at hd
      obtain ⟨i, a, hi, hd⟩ := hd
      refine Or.inl ⟨b, _, i, a, hblk, hi, ?_⟩
      rwa [CFG.stateAt, CFG.instrs_of_get hblk]
    · obtain ⟨hn, hf⟩ := List.mem_filter.mp hb
      have hblk := List.getElem?_eq_getElem (hF.mem_nodes.mp hn)
      exact Or.inr ⟨b, _, hblk, hf, by rw [stateAt_end hblk]; exact hd⟩
  · intro h
    rcases h with ⟨b, blk, i, a, hb, hi, hd⟩ | ⟨b, blk, hb, hf, hd⟩
    · refine Or.inl ⟨b, hF.mem_nodes.mpr (List.getElem?_eq_some_iff.mp hb).1, ?_⟩
      rw [CFG.outState, CFG.instrs_of_get hb, mem_transfer]
      refine ⟨i, a, hi, ?_⟩
      rwa [CFG.stateAt, CFG.instrs_of_get hb] at hd
    · refine Or.inr ⟨b, List.mem_filter.mpr ⟨hF.mem_nodes.mpr (List.getElem?_eq_some_iff.mp hb).1, hf⟩, ?_⟩
      rw [← stateAt_end hb]
      exact hd

theorem mem_applyArgs (callee : String) (line : Int) {args : List (Option Symbol × Effect)} {st : State} {j : Nat}
    {sym : Symbol} {eff : Effect} (hj : args[j]? = some (some sym, eff)) {d : Diagnostic}
    (hd : d ∈ (applyEffect callee line sym eff (applyArgs callee line (args.take j) st).1).2) :
    d ∈ (applyArgs callee line args st).2 := by
  induction args generalizing st j with
  | nil => simp at hj
  | cons x rest ih =>
    obtain ⟨s, e⟩ := x
    cases j with
    | zero =>
      cases hj
      exact List.mem_append_left _ hd
    | succ j =>
      cases s with
      | none => exact ih hj hd
      | some s => exact List.mem_append_right _ (ih hj hd)

theorem reports_step (syms : Nat → Option Symbol) {a : Instr} {j : Nat} {st : State} {d : Diagnostic}
    (hd : d ∈ a.reports syms j st) : d ∈ (step syms a st).2 := by
  cases a with
  | invoke callee args line =>
    simp only [Instr.reports] at hd
    split at hd
    next sym eff hj => exact mem_applyArgs callee line hj hd
    next => cases hd
  | _ => exact hd

/-! ## Leaks -/

theorem stateProblem_not_leak {st : State} {sym : Symbol} {verb : String} {line : Int} {d : Diagnostic}
    (h : stateProblem st sym verb line = some d) : d.code ≠ .own001 := by
  intro hc
  have hf := stateProblem_family st sym verb line
  rw [h] at hf
  have hd : some d.code.family = (st.verdict sym).map some := hf
  rw [hc] at hd
  cases hv : st.verdict sym with
  | none =>
    rw [hv] at hd
    cases hd
  | some f =>
    rw [hv] at hd
    cases hd

/-- No check of an operand reports a leak. -/
theorem check_not_leak {rest : List Diagnostic} (hrest : ∀ d ∈ rest, d.code ≠ .own001) {st : State} {sym : Symbol}
    {verb : String} {line : Int} : ∀ d ∈ (match stateProblem st sym verb line with
      | some d => [d]
      | none => rest), d.code ≠ .own001 := by
  intro d hd
  split at hd
  next d' hd' =>
    rw [List.mem_singleton.mp hd]
    exact stateProblem_not_leak hd'
  next => exact hrest d hd

theorem consumeLike_not_leak {st : State} {sym : Symbol} {verb : String} {line : Int} :
    ∀ d ∈ consumeLike st sym verb line, d.code ≠ .own001 :=
  check_not_leak (by split <;> simp)

theorem checkMutBorrowable_not_leak {st : State} {sym : Symbol} {line : Int} :
    ∀ d ∈ checkMutBorrowable st sym line, d.code ≠ .own001 :=
  check_not_leak (by split <;> [simp; (split <;> simp)])

theorem checkSharedBorrowable_not_leak {st : State} {sym : Symbol} {line : Int} :
    ∀ d ∈ checkSharedBorrowable st sym line, d.code ≠ .own001 :=
  check_not_leak (by split <;> simp)

theorem useProblem_not_leak {st : State} {sym : Symbol} {line : Int} :
    ∀ d ∈ useProblem st sym line, d.code ≠ .own001 := by
  unfold useProblem
  split
  · exact check_not_leak (by split <;> simp)
  · split <;> simp
  · simp

theorem consumedBuffer_not_leak {sym : Symbol} {callee : String} {line : Int} :
    ∀ d ∈ consumedBuffer sym callee line, d.code ≠ .own001 := by
  unfold consumedBuffer
  split
  · simp
  · split <;> simp

theorem releaseProblem_not_leak {st : State} {sym : Symbol} {line : Int} :
    ∀ d ∈ releaseProblem st sym line, d.code ≠ .own001 := by
  unfold releaseProblem
  simp only
  split
  · simp [about]
  · split
    · simp [about]
    · exact check_not_leak (by split <;> simp [about])

theorem returnProblem_not_leak {st : State} {sym : Symbol} {line : Int} :
    ∀ d ∈ returnProblem st sym line, d.code ≠ .own001 := by
  unfold returnProblem
  simp only
  split
  · split <;> simp [about]
  · split
    · simp [about]
    · split
      · simp
      · split <;> simp

theorem applyArgs_not_leak {callee : String} {line : Int} {args : List (Option Symbol × Effect)} {st : State} :
    ∀ d ∈ (applyArgs callee line args st).2, d.code ≠ .own001 := by
  induction args generalizing st with
  | nil => simp [applyArgs]
  | cons x rest ih =>
    obtain ⟨s, e⟩ := x
    cases s with
    | none => exact ih
    | some s =>
      intro d hd
      rcases List.mem_append.mp hd with hd | hd
      · unfold applyEffect at hd
        split at hd
        · rcases List.mem_append.mp hd with hd | hd
          · exact consumeLike_not_leak d hd
          · exact consumedBuffer_not_leak d hd
        · exact checkMutBorrowable_not_leak d hd
        · exact checkSharedBorrowable_not_leak d hd
        · simp_all
        · dsimp only at hd
          split at hd <;> simp_all
        · dsimp only at hd
          split at hd <;> simp_all
        · simp_all
        · simp_all
        · simp_all
        · simp_all
      · exact ih d hd

/-- Only a `return` reports leaks, and then as its leak check. -/
theorem step_leak (syms : Nat → Option Symbol) {a : Instr} {st : State} {d : Diagnostic} (hc : d.code = .own001) :
    d ∈ (step syms a st).2 ↔ ∃ sym line, a = .return_ sym line ∧ d ∈ leakCheck syms st line "before return" sym := by
  constructor
  · intro hd
    cases a with
    | acquire sym resource line => cases hd
    | acquireBuffer sym info line => cases hd
    | moveInto dst src line => exact absurd hc (consumeLike_not_leak d hd)
    | aliasJoin handle src line => cases hd
    | release sym line => exact absurd hc (releaseProblem_not_leak d hd)
    | use sym line => exact absurd hc (useProblem_not_leak d hd)
    | overspan sym line =>
      rw [List.mem_singleton.mp hd] at hc
      cases hc
    | invoke callee args line => exact absurd hc (applyArgs_not_leak d hd)
    | borrowStart owner binding isMut line =>
      cases isMut with
      | true => exact absurd hc (checkMutBorrowable_not_leak d hd)
      | false => exact absurd hc (checkSharedBorrowable_not_leak d hd)
    | borrowEnd owner binding isMut line => cases hd
    | return_ sym line =>
      cases sym with
      | none => exact ⟨none, line, rfl, hd⟩
      | some sym =>
        rcases List.mem_append.mp hd with hd | hd
        · exact ⟨some sym, line, rfl, hd⟩
        · exact absurd hc (returnProblem_not_leak d hd)
  · intro h
    obtain ⟨sym, line, rfl, hd⟩ := h
    cases sym with
    | none => exact hd
    | some sym => exact List.mem_append_left _ hd

theorem mem_leaks {st : State} {exclude : Option Symbol} {r : Nat} :
    r ∈ leaks st exclude ↔ .owned ∈ st.var.getD r ∅ ∧ exclude.map st.ridOf ≠ some r := by
  simp only [leaks, List.mem_map, List.mem_filter, decide_eq_true_eq]
  constructor
  · intro h
    obtain ⟨⟨k, S⟩, ⟨hmem, ho, hex⟩, rfl⟩ := h
    rw [Dict.getD, Dict.mem_entries.mp hmem]
    exact ⟨ho, hex⟩
  · intro h
    obtain ⟨ho, hex⟩ := h
    rw [Dict.getD] at ho
    cases hS : st.var.get? r with
    | none =>
      rw [hS] at ho
      exact absurd ho (Finset.notMem_empty _)
    | some S =>
      rw [hS] at ho
      exact ⟨(r, S), ⟨Dict.mem_entries.mpr hS, ho, hex⟩, rfl⟩

/-- What a `return` hands out is not there after it, and nothing else changes. -/
theorem owned_after_return (syms : Nat → Option Symbol) (st : State) (sym : Option Symbol) (line : Int) (r : Nat) :
    .owned ∈ (step syms (.return_ sym line) st).1.var.getD r ∅ ↔ r ∈ leaks st sym := by
  rw [mem_leaks]
  cases sym with
  | none => simp [step]
  | some s =>
    simp only [step, mark_var, Dict.getD, Dict.get?_set, Option.map_some, ne_eq, Option.some.injEq]
    by_cases hr : r = st.ridOf s
    · simp [hr]
    · simp [hr, Ne.symm hr]

/-- The leak reported for resource `r` where block `b` leaves the function. -/
def CFG.leakAt (cfg : CFG) (ins : Dict Nat State) (b r : Nat) : Diagnostic :=
  match (cfg.instrs b).getLast? with
  | some (.return_ _ line) =>
    leak cfg.symById (cfg.stateAt ins b ((cfg.instrs b).length - 1)) line "before return" r
  | _ => leak cfg.symById (cfg.stateAt ins b (cfg.instrs b).length) (cfg.lastLine b) "at end of function" r

theorem leak_exact (hL : LaidOut G cfg) (hfix : cfg.fixpoint n = .ok ins) (d : Diagnostic) :
    (d ∈ cfg.findings ins ∧ d.code = .own001) ↔
      ∃ b blk r, cfg.blocks[b]? = some blk ∧ blk.succ = [] ∧ d = cfg.leakAt ins b r ∧
        ∃ t, Path cfg b blk.instrs.length t ∧ (cfg.after t).var.get? r = some {.owned} := by
  constructor
  · intro h
    obtain ⟨hd, hc⟩ := h
    rcases hL.forward.mem_findings.mp hd with ⟨b, blk, i, a, hb, hi, hd⟩ | ⟨b, blk, hb, hf, hd⟩
    · obtain ⟨sym, line, rfl, hleak⟩ := (step_leak cfg.symById hc).mp hd
      obtain ⟨hlast, hsucc⟩ := (hL.block b blk hb).returns i _ hi rfl
      obtain ⟨r, hr, rfl⟩ := List.mem_map.mp hleak
      have hget : blk.instrs.getLast? = some (.return_ sym line) := by
        rw [List.getLast?_eq_getElem?, ← hlast]
        exact hi
      refine ⟨b, blk, r, hb, hsucc, ?_, ?_⟩
      · have hpred : blk.instrs.length - 1 = i := by omega
        simp only [CFG.leakAt, CFG.instrs_of_get hb, hget, hpred]
      · rw [← hL.stateAt_exact hfix hb (le_refl _) r, ← hlast, CFG.stateAt_succ hb hi, owned_after_return]
        exact hr
    · obtain ⟨r, hr, rfl⟩ := List.mem_map.mp hd
      simp only [CFG.fallsOff, CFG.succ_of_get hb, CFG.instrs_of_get hb, decide_eq_true_eq] at hf
      refine ⟨b, blk, r, hb, hf.1, ?_, ?_⟩
      · rw [CFG.leakAt, CFG.instrs_of_get hb]
        split
        next sym line hget =>
          rw [hget] at hf
          exact absurd rfl hf.2
        next => rfl
      · rw [← hL.stateAt_exact hfix hb (le_refl _) r]
        exact (mem_leaks.mp hr).1
  · intro h
    obtain ⟨b, blk, r, hb, hsucc, rfl, hpath⟩ := h
    have howned := (hL.stateAt_exact hfix hb (le_refl _) r .owned).mpr hpath
    rw [CFG.leakAt, CFG.instrs_of_get hb]
    split
    next sym line hget =>
      have hi : blk.instrs[blk.instrs.length - 1]? = some (.return_ sym line) := by
        rw [← List.getLast?_eq_getElem?]
        exact hget
      have hlast := ((hL.block b blk hb).returns _ _ hi rfl).1
      rw [← hlast, CFG.stateAt_succ hb hi, owned_after_return] at howned
      refine ⟨hL.forward.mem_findings.mpr (Or.inl ⟨b, blk, _, _, hb, hi, ?_⟩), rfl⟩
      exact (step_leak cfg.symById rfl).mpr ⟨sym, line, rfl, List.mem_map.mpr ⟨r, howned, rfl⟩⟩
    next hno =>
      have hf : cfg.fallsOff b := by
        simp only [CFG.fallsOff, CFG.succ_of_get hb, CFG.instrs_of_get hb, decide_eq_true_eq]
        refine ⟨hsucc, ?_⟩
        cases hget : blk.instrs.getLast? with
        | none => exact fun h => by cases h
        | some x =>
          cases x with
          | return_ sym line => exact absurd hget (hno sym line)
          | _ => exact fun h => by cases h
      refine ⟨hL.forward.mem_findings.mpr (Or.inr ⟨b, blk, hb, hf, ?_⟩), rfl⟩
      exact List.mem_map.mpr ⟨r, mem_leaks.mpr ⟨howned, by simp⟩, rfl⟩

/-! ## Exactness -/

/-- What is reported about operand `j` of instruction `i` of block `b`, and why. -/
structure OperandExact (cfg : CFG) (ins : Dict Nat State) (b i j : Nat) (a : Instr) (sym : Symbol) : Prop where
  reached : ∃ t, Path cfg b i t
  reported : ∀ d ∈ a.reports cfg.symById j (cfg.stateAt ins b i), d ∈ cfg.findings ins
  twice : .twice ∈ families (a.reports cfg.symById j (cfg.stateAt ins b i)) ↔
    a.isRelease ∧ ∃ t, Path cfg b i t ∧ .released ∈ (a.before j (cfg.after t)).states sym
  definite : .definite ∈ families (a.reports cfg.symById j (cfg.stateAt ins b i)) ↔
    ¬(a.isRelease ∧ ∃ t, Path cfg b i t ∧ .released ∈ (a.before j (cfg.after t)).states sym) ∧
      ∀ t, Path cfg b i t → .owned ∉ (a.before j (cfg.after t)).states sym
  maybe : .maybe ∈ families (a.reports cfg.symById j (cfg.stateAt ins b i)) ↔
    ¬(a.isRelease ∧ ∃ t, Path cfg b i t ∧ .released ∈ (a.before j (cfg.after t)).states sym) ∧
      (∃ t, Path cfg b i t ∧ .owned ∈ (a.before j (cfg.after t)).states sym) ∧
      ∃ t, Path cfg b i t ∧ .owned ∉ (a.before j (cfg.after t)).states sym

theorem operand_exact (hL : LaidOut G cfg) (hfix : cfg.fixpoint n = .ok ins) {b i j : Nat} {blk : Block}
    {a : Instr} {sym : Symbol} (hb : cfg.blocks[b]? = some blk) (hi : blk.instrs[i]? = some a)
    (hc : a.checked j = some sym) : OperandExact cfg ins b i j a sym := by
  obtain ⟨hone, hall⟩ := hL.operand_exact hfix hb hi hc
  have hfam := reports_families cfg.symById hc (cfg.stateAt ins b i)
  have hreached : ∃ t, Path cfg b i t := by
    obtain ⟨t, ht⟩ := hL.reached hb
    exact ⟨_, ht.run hb i (le_of_lt (List.getElem?_eq_some_iff.mp hi).1)⟩
  -- a state is possible where the analysis stopped iff it is on some path
  have hmem : ∀ v, v ∈ (a.before j (cfg.stateAt ins b i)).states sym ↔
      ∃ t, Path cfg b i t ∧ v ∈ (a.before j (cfg.after t)).states sym := by
    intro v
    refine (hall v).trans ⟨?_, ?_⟩
    · intro h
      obtain ⟨t, ht, hv⟩ := h
      exact ⟨t, ht, by rw [hv]; exact Finset.mem_singleton_self v⟩
    · intro h
      obtain ⟨t, ht, hv⟩ := h
      obtain ⟨w, hw⟩ := hone t ht
      rw [hw] at hv
      exact ⟨t, ht, by rw [hw, Finset.mem_singleton.mp hv]⟩
  have hown : (a.before j (cfg.stateAt ins b i)).states sym = {.owned} ↔
      ∀ t, Path cfg b i t → .owned ∈ (a.before j (cfg.after t)).states sym := by
    constructor
    · intro h t ht
      obtain ⟨w, hw⟩ := hone t ht
      have hin := (hall w).mpr ⟨t, ht, hw⟩
      rw [h, Finset.mem_singleton] at hin
      rw [hw, hin]
      exact Finset.mem_singleton_self _
    · intro h
      ext v
      rw [hall v, Finset.mem_singleton]
      constructor
      · intro hv
        obtain ⟨t, ht, hv⟩ := hv
        have := h t ht
        rw [hv, Finset.mem_singleton] at this
        exact this.symm
      · intro hv
        obtain ⟨t, ht⟩ := hreached
        obtain ⟨w, hw⟩ := hone t ht
        have := h t ht
        rw [hw, Finset.mem_singleton] at this
        exact ⟨t, ht, by rw [hw, ← this, hv]⟩
  refine ⟨hreached, ?_, ?_, ?_, ?_⟩
  · exact fun d hd => hL.forward.mem_findings.mpr (Or.inl ⟨b, blk, i, a, hb, hi, reports_step cfg.symById hd⟩)
  · rw [hfam, ← hmem]
    by_cases htw : a.isRelease ∧ VarState.released ∈ (a.before j (cfg.stateAt ins b i)).states sym
    · simp [htw]
    · rw [if_neg htw]
      simp only [htw, iff_false]
      unfold State.verdict
      split
      · simp
      · split <;> simp
  · rw [hfam, ← hmem]
    have hno : (∀ t, Path cfg b i t → .owned ∉ (a.before j (cfg.after t)).states sym) ↔
        .owned ∉ (a.before j (cfg.stateAt ins b i)).states sym := by
      rw [hmem]
      exact ⟨fun h hex => hex.elim fun t ht => h t ht.1 ht.2, fun h t ht hv => h ⟨t, ht, hv⟩⟩
    rw [hno]
    by_cases htw : a.isRelease ∧ VarState.released ∈ (a.before j (cfg.stateAt ins b i)).states sym
    · simp [htw]
    · rw [if_neg htw]
      simp only [htw, not_false_iff, true_and]
      unfold State.verdict
      split
      next ho => simp [ho]
      next ho =>
        split
        · simpa using ho
        · simpa using ho
  · rw [hfam, ← hmem, ← hmem]
    have hsome : (∃ t, Path cfg b i t ∧ .owned ∉ (a.before j (cfg.after t)).states sym) ↔
        (a.before j (cfg.stateAt ins b i)).states sym ≠ {.owned} := by
      rw [Ne, hown]
      exact ⟨fun h hall => h.elim fun t ht => ht.2 (hall t ht.1), fun h => by
        by_contra hne
        exact h fun t ht => not_not.mp fun hv => hne ⟨t, ht, hv⟩⟩
    rw [hsome]
    by_cases htw : a.isRelease ∧ VarState.released ∈ (a.before j (cfg.stateAt ins b i)).states sym
    · simp [htw]
    · rw [if_neg htw]
      simp only [htw, not_false_iff, true_and]
      unfold State.verdict
      split
      next ho => simp [ho]
      next ho =>
        split
        next heq => simp [heq]
        next hne => simpa [hne] using ho

end

/-- The states of an accepted function's fixpoint, and what is reported from them, are those of its paths. -/
theorem dataflow_exact (env : Env) (fn : FnDecl) (hok : (buildCfg env fn).2 = []) {n : Nat} {ins : Dict Nat State}
    (hfix : (buildCfg env fn).1.fixpoint n = .ok ins) :
    let cfg := (buildCfg env fn).1
    (∀ b i t, Path cfg b i t → ∀ r S, (cfg.after t).var.get? r = some S → ∃ v, S = {v}) ∧
      (∀ b blk, cfg.blocks[b]? = some blk → ∃ st, ins.get? b = some st ∧
        ∀ r v, v ∈ st.var.getD r ∅ ↔ ∃ t, Path cfg b 0 t ∧ (cfg.after t).var.get? r = some {v}) ∧
      (∀ b blk i a j sym, cfg.blocks[b]? = some blk → blk.instrs[i]? = some a → a.checked j = some sym →
        OperandExact cfg ins b i j a sym) ∧
      ∀ d, (d ∈ cfg.findings ins ∧ d.code = .own001) ↔
        ∃ b blk r, cfg.blocks[b]? = some blk ∧ blk.succ = [] ∧ d = cfg.leakAt ins b r ∧
          ∃ t, Path cfg b blk.instrs.length t ∧ (cfg.after t).var.get? r = some {.owned} := by
  intro cfg
  obtain ⟨G, hL⟩ := buildCfg_laidOut env fn hok
  refine ⟨?_, ?_, ?_, ?_⟩
  · intro b i t ht r S hS
    obtain ⟨blk, hon⟩ := ht.onPath hL
    exact hon.single hS
  · intro b blk hb
    obtain ⟨st, hst⟩ := hL.forward.inState hfix hb
    refine ⟨st, hst, ?_⟩
    intro r v
    have hexact := hL.stateAt_exact hfix hb (Nat.zero_le _) r v
    rwa [CFG.stateAt_zero hst] at hexact
  · exact fun b blk i a j sym hb hi hc => operand_exact hL hfix hb hi hc
  · exact leak_exact hL hfix

/-! ## Released twice -/

namespace Example

def env : Env := { resourceNames := ["R"] }

/-- `let x = acquire R(); if (c) { release x; } release x;` -/
def againMaybe : FnDecl :=
  { name := "again", params := [], ret := none, line := 1
    body := [.let_ "x" (.acquire "R" [] 2) 2, .if_ "c" [.release "x" 3] [] 3, .release "x" 4] }

/-- `let x = acquire R(); release x; release x;` -/
def again : FnDecl :=
  { name := "again", params := [], ret := none, line := 1
    body := [.let_ "x" (.acquire "R" [] 2) 2, .release "x" 3, .release "x" 4] }

/-- Where the fixpoint of a graph ends, within twenty visits. -/
def converged (cfg : CFG) : Dict Nat State :=
  match cfg.fixpoint 20 with
  | .ok ins => ins
  | .error _ => Dict.empty

def converges (cfg : CFG) : Bool :=
  match cfg.fixpoint 20 with
  | .ok _ => true
  | .error _ => false

theorem converged_ok {cfg : CFG} (h : converges cfg) : cfg.fixpoint 20 = .ok (converged cfg) := by
  unfold converges at h
  unfold converged
  split at h
  next ins hins => rw [hins]
  next => cases h

set_option maxRecDepth 4000 in
theorem again_ok : (buildCfg env again).2 = [] ∧ converges (buildCfg env again).1 := by decide

set_option maxRecDepth 4000 in
theorem againMaybe_ok : (buildCfg env againMaybe).2 = [] ∧ converges (buildCfg env againMaybe).1 := by decide

def x : Symbol :=
  { id := 0, name := "x", kind := .owned, defLine := 2, typeName := some "R", origin := some "x#2" }

def againEntry : Block := ⟨[.acquire x "R" 2, .release x 3, .release x 4], [], "entry"⟩

theorem again_entry : (buildCfg env again).1.blocks[0]? = some againEntry := by decide

theorem again_last : againEntry.instrs[2]? = some (.release x 4) := rfl

end Example

open Example in
set_option maxRecDepth 4000 in
/-- The last release of `againMaybe` is reported as a release of what is released already: some path has. -/
theorem dataflow_exact_againMaybe :
    ∃ t, Path (buildCfg env againMaybe).1 3 0 t ∧ .released ∈ ((buildCfg env againMaybe).1.after t).states x :=
  (((dataflow_exact env againMaybe againMaybe_ok.1 (converged_ok againMaybe_ok.2)).2.2.1 3 _ 0 _ 0 x rfl rfl rfl).twice.mp
    (by decide)).2

open Example in
set_option maxRecDepth 4000 in
/-- On no path is the resource of `again` owned at its second release, and no definite code says so. -/
theorem released_twice_not_definite :
    ¬∀ (env : Env) (fn : FnDecl) (n : Nat) (ins : Dict Nat State), (buildCfg env fn).2 = [] →
      (buildCfg env fn).1.fixpoint n = .ok ins → ∀ b blk i a j sym, (buildCfg env fn).1.blocks[b]? = some blk →
        blk.instrs[i]? = some a → a.checked j = some sym →
        (.definite ∈ families (a.reports (buildCfg env fn).1.symById j ((buildCfg env fn).1.stateAt ins b i)) ↔
          (∃ t, Path (buildCfg env fn).1 b i t) ∧
            ∀ t, Path (buildCfg env fn).1 b i t → .owned ∉ (a.before j ((buildCfg env fn).1.after t)).states sym) := by
  intro h
  obtain ⟨G, hL⟩ := buildCfg_laidOut env again again_ok.1
  have hfix := converged_ok again_ok.2
  have hclaim := h env again 20 _ again_ok.1 hfix 0 againEntry 2 _ 0 x again_entry again_last rfl
  have hsite := operand_exact hL hfix again_entry again_last (show (Instr.release x 4).checked 0 = some x from rfl)
  have hno : ∀ t, Path (buildCfg env again).1 0 2 t →
      .owned ∉ ((Instr.release x 4).before 0 ((buildCfg env again).1.after t)).states x := by
    intro t ht ho
    obtain ⟨hone, hall⟩ := hL.operand_exact hfix again_entry again_last (show (Instr.release x 4).checked 0 = some x from rfl)
    obtain ⟨v, hv⟩ := hone t ht
    have hin := (hall v).mpr ⟨t, ht, hv⟩
    rw [hv, Finset.mem_singleton] at ho
    rw [← ho] at hin
    exact absurd hin (by decide)
  have hdef := hclaim.mpr ⟨hsite.reached, hno⟩
  exact absurd hdef (by decide)

end OwnNet.Lang
