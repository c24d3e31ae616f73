/-
  OwnNet.Lang.Effects — what an instruction does to a state, said once.

  On the resources it is a list of marks: a mark forgets what was there before, and every
  other resource keeps its states. On the loans it is one loan taken or given back.
  `Tracks` is what a state knows of the symbols started before: which resource a handle
  denotes, that it has a state, which loans are live.

  Proved: `transfer_effect`: running instructions that fit their layout puts their marks,
  changes the loans as they say, and keeps `Tracks`.
-/

import OwnNet.Lang.Exits
import OwnNet.Lang.Analysis

namespace OwnNet.Lang

/-! ## Marks -/

def setAll : List (Nat × VarState) → Dict Nat (Finset VarState) → Dict Nat (Finset VarState)
  | [], d => d
  | m :: rest, d => setAll rest (d.set m.1 {m.2})

/-- The mark that counts is the last. -/
def lastMark (r : Nat) : List (Nat × VarState) → Option VarState
  | [] => none
  | m :: rest =>
    match lastMark r rest with
    | some v => some v
    | none => if m.1 = r then some m.2 else none

theorem setAll_append (ms ns : List (Nat × VarState)) (d : Dict Nat (Finset VarState)) :
    setAll (ms ++ ns) d = setAll ns (setAll ms d) := by
  induction ms generalizing d with
  | nil => rfl
  | cons m rest ih => exact ih _

theorem get?_setAll (ms : List (Nat × VarState)) (d : Dict Nat (Finset VarState)) (r : Nat) :
    (setAll ms d).get? r = match lastMark r ms with
      | some v => some {v}
      | none => d.get? r := by
  induction ms generalizing d with
  | nil => rfl
  | cons m rest ih =>
    rw [setAll, ih, lastMark]
    cases lastMark r rest with
    | some v => rfl
    | none =>
      by_cases hm : m.1 = r
      · simp [hm]
      · simp [hm, Dict.get?_set, Ne.symm hm]

theorem lastMark_eq_none {r : Nat} {ms : List (Nat × VarState)} (h : ∀ m ∈ ms, m.1 ≠ r) : lastMark r ms = none := by
  induction ms with
  | nil => rfl
  | cons m rest ih =>
    rw [lastMark, ih fun x hx => h x (List.mem_cons_of_mem _ hx), if_neg (h m List.mem_cons_self)]

theorem mem_of_lastMark {r : Nat} {v : VarState} {ms : List (Nat × VarState)} (h : lastMark r ms = some v) :
    (r, v) ∈ ms := by
  induction ms with
  | nil => cases h
  | cons m rest ih =>
    rw [lastMark] at h
    split at h
    next w hw =>
      cases h
      exact List.mem_cons_of_mem _ (ih hw)
    next =>
      split at h
      next hm =>
        cases h
        rw [← hm]
        exact List.mem_cons_self
      next => cases h

theorem lastMark_of_mem {r : Nat} {v : VarState} {ms : List (Nat × VarState)} (h : (r, v) ∈ ms) :
    ∃ w, lastMark r ms = some w := by
  induction ms with
  | nil => cases h
  | cons m rest ih =>
    rw [lastMark]
    cases hr : lastMark r rest with
    | some w => exact ⟨w, rfl⟩
    | none =>
      rcases List.mem_cons.mp h with rfl | h
      · exact ⟨v, if_pos rfl⟩
      · obtain ⟨w, hw⟩ := ih h
        rw [hr] at hw
        cases hw

theorem lastMark_append (r : Nat) (ms ns : List (Nat × VarState)) :
    lastMark r (ms ++ ns) = match lastMark r ns with
      | some v => some v
      | none => lastMark r ms := by
  induction ms with
  | nil => cases h : lastMark r ns <;> simp [lastMark, h]
  | cons m rest ih =>
    rw [List.cons_append, lastMark, ih]
    cases h : lastMark r ns <;> simp [lastMark]

/-- A resource no mark is put on keeps its states. -/
theorem get?_setAll_of_ne {ms : List (Nat × VarState)} {d : Dict Nat (Finset VarState)} {r : Nat}
    (h : ∀ m ∈ ms, m.1 ≠ r) : (setAll ms d).get? r = d.get? r := by
  rw [get?_setAll, lastMark_eq_none h]

/-- What had a state still has one. -/
theorem get?_setAll_isSome {ms : List (Nat × VarState)} {d : Dict Nat (Finset VarState)} {r : Nat} {S : Finset VarState}
    (h : d.get? r = some S) : ∃ S', (setAll ms d).get? r = some S' := by
  rw [get?_setAll]
  cases lastMark r ms with
  | some v => exact ⟨{v}, rfl⟩
  | none => exact ⟨S, h⟩

/-- The arguments a call consumes, in order. -/
def consumed : List (Option Symbol × Effect) → List Symbol
  | [] => []
  | (none, _) :: rest => consumed rest
  | (some sym, eff) :: rest => if sym.kind = .owned ∧ eff = .consume then sym :: consumed rest else consumed rest

theorem mem_consumed {args : List (Option Symbol × Effect)} {s : Symbol} (h : s ∈ consumed args) :
    (some s, Effect.consume) ∈ args ∧ s.kind = .owned := by
  induction args with
  | nil => cases h
  | cons a rest ih =>
    obtain ⟨sym, eff⟩ := a
    cases sym with
    | none => exact ⟨List.mem_cons_of_mem _ (ih h).1, (ih h).2⟩
    | some sym =>
      rw [consumed] at h
      split at h
      next hc =>
        rcases List.mem_cons.mp h with rfl | h
        · exact ⟨by rw [hc.2]; exact List.mem_cons_self, hc.1⟩
        · exact ⟨List.mem_cons_of_mem _ (ih h).1, (ih h).2⟩
      next => exact ⟨List.mem_cons_of_mem _ (ih h).1, (ih h).2⟩

namespace Instr

/-- The marks an instruction puts, a handle standing for resource `rid`. -/
def marks (rid : Nat → Nat) : Instr → List (Nat × VarState)
  | acquire sym _ _ | acquireBuffer sym _ _ => [(sym.id, .owned)]
  | moveInto dst src _ => [(rid src.id, .moved), (dst.id, .owned)]
  | release sym _ => [(rid sym.id, .released)]
  | invoke _ args _ => (consumed args).map fun sym => (rid sym.id, .escaped)
  | return_ (some sym) _ => [(rid sym.id, .escaped)]
  | _ => []

/-- The loans after an instruction. -/
def lend (rid : Nat → Nat) : Instr → Dict Nat Loan → Dict Nat Loan
  | borrowStart owner binding isMut _, loans =>
    loans.set binding.id ⟨binding.id, rid owner.id, binding.id, if isMut then .mut else .shared⟩
  | borrowEnd _ binding _ _, loans => loans.erase binding.id
  | _, loans => loans

end Instr

/-! ## What is known of the symbols started before -/

/-- Each by an identity of its own; owners, and the bindings of borrow blocks. -/
structure Knows (G : Layout) (K : List Symbol) : Prop where
  inj : ∀ k ∈ K, ∀ k' ∈ K, k.id = k'.id → k = k'
  born : ∀ k ∈ K, G.born k.id
  kinds : ∀ k ∈ K, k.kind = .owned ∨ (k.kind = .borrow ∧ k.isParamBorrow = false)

/-- The state agrees with the layout on all of `K`. -/
structure Tracks (G : Layout) (K : List Symbol) (st : State) : Prop where
  handle : ∀ k ∈ K, k.kind = .owned → st.handleRid.get? k.id = some (G.rid k.id)
  held : ∀ k ∈ K, k.kind = .owned → ∃ S, st.var.get? (G.rid k.id) = some S
  lent : ∀ k ∈ K, k.kind = .borrow → ∃ l, st.loans.get? k.id = some l ∧ l.binding = k.id

/-- An instruction where `K` is known: what it acts on is known, what it starts is new. -/
structure Sits (G : Layout) (K : List Symbol) (ins : Instr) : Prop where
  fits : ins.Fits G K
  kinds : ins.Kinds
  owned : ∀ s ∈ ins.touches, s.kind = .owned → G.born s.id
  lent : ∀ s ∈ ins.touches, s.kind = .borrow → s.isParamBorrow = false → G.born s.id

theorem Sits.mem_of_owned {G : Layout} {K : List Symbol} {ins : Instr} (h : Sits G K ins) {s : Symbol}
    (hs : s ∈ ins.touches) (hk : s.kind = .owned) : s ∈ K := h.fits.touched s hs (h.owned s hs hk)

theorem Sits.mem_of_lent {G : Layout} {K : List Symbol} {ins : Instr} (h : Sits G K ins) {s : Symbol}
    (hs : s ∈ ins.touches) (hk : s.kind = .borrow) (hp : s.isParamBorrow = false) : s ∈ K :=
  h.fits.touched s hs (h.lent s hs hk hp)

namespace Instr

/-- At most one symbol is started, an owner or a binding. -/
theorem starts_cases {ins : Instr} (hk : ins.Kinds) : ins.starts = [] ∨ ∃ s, ins.starts = [s] ∧
    (s.kind = .owned ∨ (s.kind = .borrow ∧ s.isParamBorrow = false)) := by
  cases ins with
  | acquire sym _ _ => exact Or.inr ⟨sym, rfl, Or.inl hk⟩
  | acquireBuffer sym _ _ => exact Or.inr ⟨sym, rfl, Or.inl hk⟩
  | moveInto dst _ _ => exact Or.inr ⟨dst, rfl, Or.inl hk.1⟩
  | aliasJoin handle _ _ => exact Or.inr ⟨handle, rfl, Or.inl hk.1⟩
  | borrowStart _ binding _ _ => exact Or.inr ⟨binding, rfl, Or.inr hk.2⟩
  | _ => exact Or.inl rfl

/-- What is started denotes itself, or what the instruction acts on. -/
theorem start_rid {ins : Instr} {rid : Nat → Nat} (hk : ins.Kinds) (hr : ins.Rids rid) {s : Symbol} (hs : s ∈ ins.starts)
    (ho : s.kind = .owned) :
    (rid s.id = s.id ∧ (s.id, VarState.owned) ∈ ins.marks rid) ∨ ∃ t ∈ ins.touches, t.kind = .owned ∧ rid s.id = rid t.id := by
  cases ins with
  | acquire sym resource line =>
    rw [show s = sym from List.mem_singleton.mp hs]
    exact Or.inl ⟨hr, List.mem_cons_self⟩
  | acquireBuffer sym info line =>
    rw [show s = sym from List.mem_singleton.mp hs]
    exact Or.inl ⟨hr, List.mem_cons_self⟩
  | moveInto dst src line =>
    rw [show s = dst from List.mem_singleton.mp hs]
    exact Or.inl ⟨hr, List.mem_cons_of_mem _ List.mem_cons_self⟩
  | aliasJoin handle src line =>
    rw [show s = handle from List.mem_singleton.mp hs]
    exact Or.inr ⟨src, List.mem_cons_self, hk.2, hr⟩
  | borrowStart owner binding isMut line =>
    rw [show s = binding from List.mem_singleton.mp hs, hk.2.1] at ho
    cases ho
  | _ => cases hs

/-- Loans change where one starts and where one ends. -/
theorem lend_get {ins : Instr} {rid : Nat → Nat} {loans : Dict Nat Loan} {n : Nat} (hne : ∀ s ∈ ins.starts, s.id ≠ n)
    (hend : n ∉ ins.ends) : (ins.lend rid loans).get? n = loans.get? n := by
  cases ins with
  | borrowStart owner binding isMut line => exact Dict.get?_set_of_ne _ _ (hne binding List.mem_cons_self).symm
  | borrowEnd owner binding isMut line =>
    have hn : n ≠ binding.id := fun he => hend (List.mem_singleton.mpr he)
    rw [lend, Dict.get?_erase, if_neg hn]
  | _ => rfl

theorem lend_start {ins : Instr} {rid : Nat → Nat} {loans : Dict Nat Loan} (hk : ins.Kinds) {s : Symbol} (hs : s ∈ ins.starts)
    (hb : s.kind = .borrow) : ∃ l, (ins.lend rid loans).get? s.id = some l ∧ l.binding = s.id := by
  cases ins with
  | borrowStart owner binding isMut line =>
    rw [show s = binding from List.mem_singleton.mp hs, lend, Dict.get?_set_self]
    exact ⟨_, rfl, rfl⟩
  | acquire sym resource line =>
    rw [show s = sym from List.mem_singleton.mp hs, show sym.kind = .owned from hk] at hb
    cases hb
  | acquireBuffer sym info line =>
    rw [show s = sym from List.mem_singleton.mp hs, show sym.kind = .owned from hk] at hb
    cases hb
  | moveInto dst src line =>
    rw [show s = dst from List.mem_singleton.mp hs, hk.1] at hb
    cases hb
  | aliasJoin handle src line =>
    rw [show s = handle from List.mem_singleton.mp hs, hk.1] at hb
    cases hb
  | _ => cases hs

end Instr

theorem Knows.known {G : Layout} {K : List Symbol} {ins : Instr} (h : Knows G K) (hs : Sits G K ins) :
    Knows G (ins.known K) := by
  have hcases := Instr.starts_cases hs.kinds
  have hsame : ∀ s ∈ ins.starts, ∀ s' ∈ ins.starts, s = s' := by
    intro s hm s' hm'
    rcases hcases with hnil | ⟨t, ht, _⟩
    · rw [hnil] at hm
      cases hm
    · rw [ht] at hm hm'
      rw [List.mem_singleton.mp hm, List.mem_singleton.mp hm']
  refine ⟨?_, ?_, ?_⟩
  · intro k hk k' hk' heq
    rcases Instr.mem_known.mp hk with ⟨hk, _⟩ | hk <;> rcases Instr.mem_known.mp hk' with ⟨hk', _⟩ | hk'
    · exact h.inj k hk k' hk' heq
    · exact absurd heq (hs.fits.fresh k' hk' k hk)
    · exact absurd heq.symm (hs.fits.fresh k hk k' hk')
    · exact hsame k hk k' hk'
  · intro k hk
    rcases Instr.mem_known.mp hk with ⟨hk, _⟩ | hk
    · exact h.born k hk
    · exact hs.fits.born k hk
  · intro k hk
    rcases Instr.mem_known.mp hk with ⟨hk, _⟩ | hk
    · exact h.kinds k hk
    · rcases hcases with hnil | ⟨t, ht, hkind⟩
      · rw [hnil] at hk
        cases hk
      · rw [ht] at hk
        rw [List.mem_singleton.mp hk]
        exact hkind

theorem Knows.subset {G : Layout} {K K' : List Symbol} (h : Knows G K) (hsub : ∀ k ∈ K', k ∈ K) : Knows G K' where
  inj k hk k' hk' := h.inj k (hsub k hk) k' (hsub k' hk')
  born k hk := h.born k (hsub k hk)
  kinds k hk := h.kinds k (hsub k hk)

namespace Tracks

variable {G : Layout} {K : List Symbol} {st st' : State}

theorem subset {K' : List Symbol} (h : Tracks G K st) (hsub : ∀ k ∈ K', k ∈ K) : Tracks G K' st where
  handle k hk := h.handle k (hsub k hk)
  held k hk := h.held k (hsub k hk)
  lent k hk := h.lent k (hsub k hk)

theorem ridOf (h : Tracks G K st) {s : Symbol} (hs : s ∈ K) (hk : s.kind = .owned) : st.ridOf s = G.rid s.id := by
  simp [State.ridOf, Dict.getD, h.handle s hs hk]

theorem states (h : Tracks G K st) {s : Symbol} (hs : s ∈ K) (hk : s.kind = .owned) :
    st.var.get? (G.rid s.id) = some (st.states s) := by
  obtain ⟨S, hS⟩ := h.held s hs hk
  rw [State.states, h.ridOf hs hk, Dict.getD, hS]
  rfl

/-- Marks and moves of evidence change neither handles nor loans. -/
theorem mark (h : Tracks G K st) {ms : List (Nat × VarState)} (hv : st'.var = setAll ms st.var)
    (hh : st'.handleRid = st.handleRid) (hl : st'.loans = st.loans) : Tracks G K st' where
  handle k hk ho := hh ▸ h.handle k hk ho
  held k hk ho := by
    obtain ⟨S, hS⟩ := h.held k hk ho
    rw [hv]
    exact get?_setAll_isSome hS
  lent k hk hb := hl ▸ h.lent k hk hb

theorem marked (h : Tracks G K st) (r : Nat) (v : VarState) : Tracks G K (st.mark r v) :=
  h.mark (show _ = setAll [(r, v)] st.var from rfl) rfl rfl

end Tracks

/-! ## Arguments -/

theorem applyEffect_marks {callee : String} {line : Int} {sym : Symbol} {eff : Effect} {st : State} :
    (applyEffect callee line sym eff st).1 =
      if sym.kind = .owned ∧ eff = .consume then st.mark (st.ridOf sym) .escaped else st := by
  unfold applyEffect
  split <;> simp_all

@[simp] theorem mark_handleRid (st : State) (r : Nat) (s : VarState) : (st.mark r s).handleRid = st.handleRid := rfl

@[simp] theorem mark_loans (st : State) (r : Nat) (s : VarState) : (st.mark r s).loans = st.loans := rfl

@[simp] theorem mark_var (st : State) (r : Nat) (s : VarState) : (st.mark r s).var = st.var.set r {s} := rfl

@[simp] theorem mark_ridOf (st : State) (r : Nat) (s : VarState) (sym : Symbol) : (st.mark r s).ridOf sym = st.ridOf sym :=
  rfl

theorem applyArgs_marks (rid : Nat → Nat) (callee : String) (line : Int) (args : List (Option Symbol × Effect)) {st : State}
    (h : ∀ s, some s ∈ args.map Prod.fst → s.kind = .owned → st.ridOf s = rid s.id) :
    (applyArgs callee line args st).1 =
      { st with var := setAll ((consumed args).map fun s => (rid s.id, .escaped)) st.var } := by
  induction args generalizing st with
  | nil => rfl
  | cons a rest ih =>
    obtain ⟨sym, eff⟩ := a
    have hrest : ∀ s, some s ∈ rest.map Prod.fst → s.kind = .owned → st.ridOf s = rid s.id :=
      fun s hs => h s (List.mem_cons_of_mem _ hs)
    cases sym with
    | none => exact ih hrest
    | some sym =>
      simp only [applyArgs, applyEffect_marks, consumed]
      by_cases hc : sym.kind = .owned ∧ eff = .consume
      · simp only [if_pos hc, List.map_cons, setAll]
        rw [ih fun s hs hk => (mark_ridOf st _ _ s).trans (hrest s hs hk), h sym List.mem_cons_self hc.1]
        rfl
      · simp only [if_neg hc]
        exact ih hrest

/-! ## One instruction -/

section

variable (syms : Nat → Option Symbol) {G : Layout} {K : List Symbol}

@[simp] theorem recordMove_var (st : State) (src : Symbol) (line : Int) : (recordMove st src line).var = st.var := by
  unfold recordMove
  split <;> rfl

@[simp] theorem recordMove_handleRid (st : State) (src : Symbol) (line : Int) :
    (recordMove st src line).handleRid = st.handleRid := by
  unfold recordMove
  split <;> rfl

@[simp] theorem recordMove_loans (st : State) (src : Symbol) (line : Int) :
    (recordMove st src line).loans = st.loans := by
  unfold recordMove
  split <;> rfl

/-- The operands denote the resources their layout says. -/
def Denotes (G : Layout) (ins : Instr) (st : State) : Prop := ∀ s ∈ ins.touches, s.kind = .owned → st.ridOf s = G.rid s.id

/-- The handles an instruction binds: the owners it starts. -/
structure Steps (G : Layout) (ins : Instr) (st st' : State) : Prop where
  var : st'.var = setAll (ins.marks G.rid) st.var
  loans : st'.loans = ins.lend G.rid st.loans
  bound : ∀ s ∈ ins.starts, s.kind = .owned → st'.handleRid.get? s.id = some (G.rid s.id)
  same : ∀ n, (∀ s ∈ ins.starts, s.kind = .owned → s.id ≠ n) → st'.handleRid.get? n = st.handleRid.get? n

theorem step_steps {ins : Instr} {st : State} (hk : ins.Kinds) (hr : ins.Rids G.rid) (hd : Denotes G ins st) :
    Steps G ins st (step syms ins st).1 := by
  cases ins with
  | acquire sym resource line =>
    have hself : G.rid sym.id = sym.id := hr
    refine ⟨rfl, rfl, fun s hs _ => ?_, fun n hn => Dict.get?_set_of_ne _ _ fun he => hn sym List.mem_cons_self hk he.symm⟩
    rw [show s = sym from List.mem_singleton.mp hs, hself]
    exact Dict.get?_set_self _ _ _
  | acquireBuffer sym info line =>
    have hself : G.rid sym.id = sym.id := hr
    refine ⟨rfl, rfl, fun s hs _ => ?_, fun n hn => Dict.get?_set_of_ne _ _ fun he => hn sym List.mem_cons_self hk he.symm⟩
    rw [show s = sym from List.mem_singleton.mp hs, hself]
    exact Dict.get?_set_self _ _ _
  | moveInto dst src line =>
    have hself : G.rid dst.id = dst.id := hr
    have hsrc := hd src List.mem_cons_self hk.2
    refine ⟨by simp [step, State.acquire, Instr.marks, setAll, hsrc], by simp [step, State.acquire, Instr.lend], ?_, ?_⟩
    · intro s hs _
      rw [show s = dst from List.mem_singleton.mp hs, hself]
      exact Dict.get?_set_self _ _ _
    · intro n hn
      have hne : n ≠ dst.id := fun he => hn dst List.mem_cons_self hk.1 he.symm
      simp [step, State.acquire, Dict.get?_set_of_ne _ _ hne]
  | aliasJoin handle src line =>
    have halias : G.rid handle.id = G.rid src.id := hr
    have hsrc := hd src List.mem_cons_self hk.2
    refine ⟨rfl, rfl, fun s hs _ => ?_, fun n hn => Dict.get?_set_of_ne _ _ fun he => hn handle List.mem_cons_self hk.1 he.symm⟩
    rw [show s = handle from List.mem_singleton.mp hs, halias]
    show (st.handleRid.set handle.id (st.ridOf src)).get? handle.id = _
    rw [hsrc]
    exact Dict.get?_set_self _ _ _
  | release sym line =>
    have hsym := hd sym List.mem_cons_self hk
    exact ⟨by simp [step, Instr.marks, setAll, hsym], rfl, (by intro s hs; cases hs), fun n _ => rfl⟩
  | use sym line => exact ⟨rfl, rfl, (by intro s hs; cases hs), fun n _ => rfl⟩
  | overspan sym line => exact ⟨rfl, rfl, (by intro s hs; cases hs), fun n _ => rfl⟩
  | invoke callee args line =>
    have happly := applyArgs_marks G.rid callee line args fun s hs hkind => by
      obtain ⟨a, ha, he⟩ := List.mem_map.mp hs
      exact hd s (List.mem_filterMap.mpr ⟨a, ha, he⟩) hkind
    simp only [step, happly]
    exact ⟨rfl, rfl, (by intro s hs; cases hs), fun n _ => rfl⟩
  | borrowStart owner binding isMut line =>
    have hown := hd owner List.mem_cons_self hk.1
    refine ⟨rfl, by simp [step, Instr.lend, hown], fun s hs ho => ?_, fun n _ => rfl⟩
    rw [show s = binding from List.mem_singleton.mp hs, hk.2.1] at ho
    cases ho
  | borrowEnd owner binding isMut line => exact ⟨rfl, rfl, (by intro s hs; cases hs), fun n _ => rfl⟩
  | return_ sym line =>
    cases sym with
    | none => exact ⟨rfl, rfl, (by intro s hs; cases hs), fun n _ => rfl⟩
    | some sym =>
      have hsym := hd sym (by simp [Instr.touches]) (hk sym rfl)
      exact ⟨by simp [step, Instr.marks, setAll, hsym], rfl, (by intro s hs; cases hs), fun n _ => rfl⟩

/-- What an instruction does to a state that tracks all it acts on. -/
structure Effected (G : Layout) (K : List Symbol) (ins : Instr) (st st' : State) : Prop where
  var : st'.var = setAll (ins.marks G.rid) st.var
  loans : st'.loans = ins.lend G.rid st.loans
  tracks : Tracks G (ins.known K) st'

theorem known_same {ins : Instr} (hs : ins.starts = []) (he : ins.ends = []) : ins.known K = K := by
  simp [Instr.known, hs, he]

theorem known_start {ins : Instr} {s : Symbol} (hs : ins.starts = [s]) (he : ins.ends = []) : ins.known K = K ++ [s] := by
  simp [Instr.known, hs, he]

theorem step_effect {ins : Instr} {st : State} (hs : Sits G K ins) (ht : Tracks G K st) :
    Effected G K ins st (step syms ins st).1 := by
  have hstep := step_steps syms hs.kinds hs.fits.rids fun s hmem hk => ht.ridOf (hs.mem_of_owned hmem hk) hk
  have hfresh : ∀ k ∈ K, ∀ s ∈ ins.starts, s.id ≠ k.id := fun k hk s hmem he => hs.fits.fresh s hmem k hk he.symm
  refine ⟨hstep.var, hstep.loans, ?_, ?_, ?_⟩
  · intro k hk ho
    rcases Instr.mem_known.mp hk with ⟨hk, -⟩ | hk
    · rw [hstep.same k.id fun s hmem _ => hfresh k hk s hmem]
      exact ht.handle k hk ho
    · exact hstep.bound k hk ho
  · intro k hk ho
    rw [hstep.var]
    rcases Instr.mem_known.mp hk with ⟨hk, -⟩ | hk
    · obtain ⟨S, hS⟩ := ht.held k hk ho
      exact get?_setAll_isSome hS
    · rcases Instr.start_rid hs.kinds hs.fits.rids hk ho with ⟨hself, hmark⟩ | ⟨t, hmem, hto, hrid⟩
      · obtain ⟨w, hw⟩ := lastMark_of_mem hmark
        rw [hself, get?_setAll, hw]
        exact ⟨{w}, rfl⟩
      · obtain ⟨S, hS⟩ := ht.held t (hs.mem_of_owned hmem hto) hto
        rw [hrid]
        exact get?_setAll_isSome hS
  · intro k hk hb
    rw [hstep.loans]
    rcases Instr.mem_known.mp hk with ⟨hk, hend⟩ | hk
    · rw [Instr.lend_get (hfresh k hk) hend]
      exact ht.lent k hk hb
    · exact Instr.lend_start hs.kinds hk hb

/-! ## A run of instructions -/

/-- Each instruction sits where the ones before it leave off. -/
def Sitting (G : Layout) : List Symbol → List Instr → Prop
  | _, [] => True
  | K, ins :: rest => Sits G K ins ∧ Sitting G (ins.known K) rest

theorem BlockLaid.sitting {n b : Nat} {blk : Block} (h : BlockLaid G n b blk) : Sitting G (G.starting b) blk.instrs := by
  have hall : ∀ (l : List Instr) (K : List Symbol), Fitting G K l → (∀ ins ∈ l, ins ∈ blk.instrs) → Sitting G K l := by
    intro l
    induction l with
    | nil => exact fun _ _ _ => trivial
    | cons ins rest ih =>
      intro K hf hmem
      have hins := hmem ins List.mem_cons_self
      exact ⟨⟨hf.1, h.kinds ins hins, h.owned ins hins, h.lent ins hins⟩,
        ih _ hf.2 fun x hx => hmem x (List.mem_cons_of_mem _ hx)⟩
  exact hall blk.instrs _ h.fits fun ins hins => hins

theorem sitting_append {K : List Symbol} {l m : List Instr} :
    Sitting G K (l ++ m) ↔ Sitting G K l ∧ Sitting G (knownAfter K l) m := by
  induction l generalizing K with
  | nil => simp [Sitting, knownAfter]
  | cons ins rest ih => simp [Sitting, knownAfter, ih, and_assoc]

theorem take_succ_of_get {l : List Instr} {i : Nat} {ins : Instr} (hi : l[i]? = some ins) :
    l.take (i + 1) = l.take i ++ [ins] := by
  rw [List.take_add_one, hi]
  rfl

theorem Sitting.take {K : List Symbol} {l : List Instr} (h : Sitting G K l) (i : Nat) : Sitting G K (l.take i) := by
  rw [← List.take_append_drop i l] at h
  exact (sitting_append.mp h).1

theorem Sitting.at {K : List Symbol} {l : List Instr} (h : Sitting G K l) {i : Nat} {ins : Instr}
    (hi : l[i]? = some ins) : Sits G (knownAfter K (l.take i)) ins := by
  have h' := h.take (i + 1)
  rw [take_succ_of_get hi, sitting_append] at h'
  exact h'.2.1

theorem Knows.after {K : List Symbol} {l : List Instr} (hK : Knows G K) (h : Sitting G K l) : Knows G (knownAfter K l) := by
  induction l generalizing K with
  | nil => exact hK
  | cons ins rest ih => exact ih (hK.known h.1) h.2

def marksOf (rid : Nat → Nat) (l : List Instr) : List (Nat × VarState) := l.flatMap (·.marks rid)

def lendAll (rid : Nat → Nat) : List Instr → Dict Nat Loan → Dict Nat Loan
  | [], loans => loans
  | ins :: rest, loans => lendAll rid rest (ins.lend rid loans)

theorem transfer_append (l m : List Instr) (st : State) :
    transfer syms (l ++ m) st =
      ((transfer syms m (transfer syms l st).1).1, (transfer syms l st).2 ++ (transfer syms m (transfer syms l st).1).2) := by
  induction l generalizing st with
  | nil => rfl
  | cons ins rest ih => simp [transfer, ih, List.append_assoc]

theorem transfer_effect {l : List Instr} {K : List Symbol} {st : State} (hs : Sitting G K l) (ht : Tracks G K st) :
    (transfer syms l st).1.var = setAll (marksOf G.rid l) st.var ∧
      (transfer syms l st).1.loans = lendAll G.rid l st.loans ∧ Tracks G (knownAfter K l) (transfer syms l st).1 := by
  induction l generalizing K st with
  | nil => exact ⟨rfl, rfl, ht⟩
  | cons ins rest ih =>
    have he := step_effect syms hs.1 ht
    obtain ⟨hv, hl, htr⟩ := ih hs.2 he.tracks
    refine ⟨?_, ?_, htr⟩
    · rw [transfer, hv, he.var, ← setAll_append]
      rfl
    · rw [transfer, hl, he.loans]
      rfl

end

end OwnNet.Lang
