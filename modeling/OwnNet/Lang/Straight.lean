/-
  OwnNet.Lang.Straight — a function that acquires, releases what it acquired, and subscribes,
  one statement after the other: its one block, and what the analysis says of it.

  Proved: `checkFunction_straight`: under names told apart, what is reported is one leak for each
  resource that is not released, in the order they are acquired, and nothing else.
-/

import OwnNet.Lang.Check
import OwnNet.Lang.Quiet

namespace OwnNet.Dict

variable {κ α : Type} [LinearOrder κ]

theorem alterList_above {k : κ} {g : Option α → Option α} {l : List (κ × α)} (h : ∀ e ∈ l, e.1 < k) :
    alterList k g l = l ++ putFirst k (g none) [] := by
  induction l with
  | nil => rfl
  | cons e rest ih =>
    have he := h e List.mem_cons_self
    rw [alterList, if_neg (not_lt_of_gt he), if_neg (ne_of_gt he), ih fun x hx => h x (List.mem_cons_of_mem _ hx),
      List.cons_append]

/-- A key above all others is put last. -/
theorem entries_set_above {d : Dict κ α} {k : κ} (v : α) (h : ∀ e ∈ d.entries, e.1 < k) :
    (d.set k v).entries = d.entries ++ [(k, v)] :=
  alterList_above h

theorem set_set (d : Dict κ α) (k : κ) (v w : α) : (d.set k v).set k w = d.set k w :=
  ext_get? fun j => by
    simp only [get?_set]
    split
    · rfl
    · rfl

end OwnNet.Dict

namespace OwnNet.Lang

/-! ## Straight bodies -/

/-- A subscription, or a resource with its release or without. -/
inductive Deed where
  | watch (source : String) (line : Int)
  | hold (name resource : String) (line : Int) (released : Bool)

namespace Deed

def stmts : Deed → List Stmt
  | watch source line => [.subscribe source line]
  | hold name resource line released =>
    .let_ name (.acquire resource [] line) line :: if released then [.release name line] else []

def name? : Deed → Option String
  | watch _ _ => none
  | hold name _ _ _ => some name

def Known (env : Env) : Deed → Prop
  | watch _ _ => True
  | hold _ resource _ _ => resource ∈ env.resourceNames

end Deed

section

variable (env : Env)

/-- The symbol a resource is held under. -/
def held (name resource : String) (line : Int) (id : Nat) : Symbol :=
  { id := id, name := name, kind := .owned, defLine := line, typeName := some resource
    resourceKind := entry env.resourceKinds resource, origin := some s!"{name}#{line}" }

/-- The instructions of a body whose first resource is given the number `k`. -/
def straightInstrs : Nat → List Deed → List Instr
  | _, [] => []
  | k, .watch _ _ :: rest => straightInstrs k rest
  | k, .hold name resource line released :: rest =>
    .acquire (held env name resource line k) resource line ::
      ((if released then [.release (held env name resource line k) line] else []) ++ straightInstrs (k + 1) rest)

/-- What is held to the end. -/
def owing : Nat → List Deed → List Symbol
  | _, [] => []
  | k, .watch _ _ :: rest => owing k rest
  | k, .hold name resource line released :: rest =>
    (if released then [] else [held env name resource line k]) ++ owing (k + 1) rest

end

/-! ## The lowering -/

theorem lowerSeq_straight (env : Env) (fn : FnDecl) (ds : List Deed) : ∀ {B : Builder} {is : List Instr} {label : String},
    B.blocks = [{ instrs := is, label := label }] → (∀ d ∈ ds, d.Known env) → (ds.filterMap Deed.name?).Nodup →
    (∀ n ∈ ds.filterMap Deed.name?, B.visible n = none) →
    ∃ B', lowerSeq env fn (ds.flatMap Deed.stmts) 0 B = (B', some 0) ∧ B'.diags = B.diags ∧
      B'.blocks = [{ instrs := is ++ straightInstrs env B.nextSym ds, label := label }] := by
  induction ds with
  | nil =>
    intro B is label hb _ _ _
    exact ⟨B, rfl, rfl, by rw [hb, straightInstrs, List.append_nil]⟩
  | cons d rest ih =>
    intro B is label hb hknown hnodup hfresh
    have hrest := fun d hd => hknown d (List.mem_cons_of_mem _ hd)
    cases d with
    | watch source line =>
      obtain ⟨B', hB', hdiags, hblocks⟩ := ih hb hrest hnodup hfresh
      exact ⟨B', hB', hdiags, hblocks⟩
    | hold name resource line released =>
      have hmem : resource ∈ env.resourceNames := hknown _ List.mem_cons_self
      have hcons : (name :: rest.filterMap Deed.name?).Nodup := hnodup
      obtain ⟨hnot, hrestd⟩ := List.nodup_cons.mp hcons
      have hnone : B.visible name = none := hfresh name List.mem_cons_self
      -- the acquire declares a name no scope has, and adds one instruction
      let sym := held env name resource line B.nextSym
      let B₁ : Builder := (B.declare (held env name resource line)).1.emit 0 (.acquire sym resource line)
      have hlet : lowerStmt env fn (.let_ name (.acquire resource [] line) line) 0 B = (B₁, some 0) := by
        simp only [lowerStmt, lowerLet, if_pos hmem]
        rfl
      have hdiags₁ : B₁.diags = B.diags := by
        show (B.declare (held env name resource line)).1.diags = B.diags
        simp only [Builder.declare]
        rw [if_neg]
        rw [show (held env name resource line B.nextSym).name = name from rfl, hnone]
        exact Bool.false_ne_true
      have hblocks₁ : B₁.blocks = [{ instrs := is ++ [.acquire sym resource line], label := label }] := by
        show (B.declare (held env name resource line)).1.blocks.modify 0 _ = _
        rw [Builder.declare_blocks, hb]
        rfl
      have hnext₁ : B₁.nextSym = B.nextSym + 1 := Builder.declare_nextSym _ _
      have hvisible₁ : ∀ n, B₁.visible n = if name = n then some sym else B.visible n := fun n => Builder.visible_declare B _ n
      have hfresh₁ : ∀ n ∈ rest.filterMap Deed.name?, B₁.visible n = none := by
        intro n hn
        rw [hvisible₁, if_neg (show ¬name = n from fun heq => hnot (heq ▸ hn))]
        exact hfresh n (List.mem_cons_of_mem _ hn)
      cases released with
      | false =>
        obtain ⟨B', hB', hdiags, hblocks⟩ := ih hblocks₁ hrest hrestd hfresh₁
        refine ⟨B', ?_, hdiags.trans hdiags₁, ?_⟩
        · show lowerSeq env fn (_ :: rest.flatMap Deed.stmts) 0 B = _
          rw [lowerSeq, hlet]
          exact hB'
        · rw [hblocks, hnext₁, List.append_assoc]
          rfl
      | true =>
        let B₂ : Builder := B₁.emit 0 (.release sym line)
        have hrelease : lowerStmt env fn (.release name line) 0 B₁ = (B₂, some 0) := by
          have hv : B₁.visible name = some sym := by rw [hvisible₁, if_pos rfl]
          simp only [lowerStmt, lowerOwned, Builder.lookup, hv]
          rw [if_neg fun h => h rfl]
        have hblocks₂ : B₂.blocks = [{ instrs := is ++ [.acquire sym resource line, .release sym line], label := label }] := by
          show B₁.blocks.modify 0 _ = _
          rw [hblocks₁]
          simp
        obtain ⟨B', hB', hdiags, hblocks⟩ := ih hblocks₂ hrest hrestd hfresh₁
        refine ⟨B', ?_, hdiags.trans hdiags₁, ?_⟩
        · show lowerSeq env fn (_ :: _ :: rest.flatMap Deed.stmts) 0 B = _
          rw [lowerSeq, hlet]
          dsimp only
          rw [lowerSeq, hrelease]
          exact hB'
        · rw [hblocks, show B₂.nextSym = B.nextSym + 1 from hnext₁, List.append_assoc]
          rfl

/-- A parameter that is neither an owner nor a borrow. -/
def Param.Plain (env : Env) (p : Param) : Prop := p.type.borrowed = false ∧ p.type.name ∉ env.resourceNames

theorem declareParams_plain {env : Env} {ps : List Param} : ∀ {B : Builder}, (∀ p ∈ ps, p.Plain env) → (ps.map Param.name).Nodup →
    (∀ n ∈ ps.map Param.name, B.visible n = none) →
    (declareParams env ps B).1.diags = B.diags ∧ (declareParams env ps B).1.blocks = B.blocks ∧
      (declareParams env ps B).1.nextSym = B.nextSym + ps.length ∧
      (∀ n ∉ ps.map Param.name, (declareParams env ps B).1.visible n = B.visible n) ∧
      ∀ s ∈ (declareParams env ps B).2, s.kind = .plain ∧ s.id < B.nextSym + ps.length := by
  induction ps with
  | nil => exact fun _ _ _ => ⟨rfl, rfl, rfl, fun _ _ => rfl, fun s hs => absurd hs List.not_mem_nil⟩
  | cons p rest ih =>
    intro B hplain hnodup hfresh
    obtain ⟨hb, hres⟩ := hplain p List.mem_cons_self
    obtain ⟨hnot, hnodup⟩ := List.nodup_cons.mp hnodup
    have hdiags : (declareParam env p B).1.diags = B.diags := by
      have hnone : B.visible p.name = none := hfresh p.name List.mem_cons_self
      simp only [declareParam, Builder.declare]
      rw [if_neg]
      rw [hnone]
      exact Bool.false_ne_true
    have hblocks : (declareParam env p B).1.blocks = B.blocks := Builder.declare_blocks _ _
    have hnext : (declareParam env p B).1.nextSym = B.nextSym + 1 := Builder.declare_nextSym _ _
    have hvisible : ∀ n, p.name ≠ n → (declareParam env p B).1.visible n = B.visible n := by
      intro n hn
      unfold declareParam
      dsimp only
      rw [Builder.visible_declare]
      exact if_neg hn
    have hkind : (declareParam env p B).2.kind = .plain := by
      simp only [declareParam, Builder.declare_snd, hb, if_neg hres, Bool.false_eq_true, if_false]
    obtain ⟨hd, hbl, hnx, hv, hps⟩ := ih (B := (declareParam env p B).1) (fun q hq => hplain q (List.mem_cons_of_mem _ hq)) hnodup
      fun n hn => by
        rw [hvisible n fun heq => hnot (heq ▸ hn)]
        exact hfresh n (List.mem_cons_of_mem _ hn)
    refine ⟨hd.trans hdiags, hbl.trans hblocks, ?_, ?_, ?_⟩
    · show (declareParams env rest _).1.nextSym = _
      rw [hnx, hnext, List.length_cons]
      omega
    · intro n hn
      show (declareParams env rest _).1.visible n = _
      rw [List.map_cons, List.mem_cons, not_or] at hn
      rw [hv n hn.2, hvisible n fun heq => hn.1 heq.symm]
    · intro s hs
      rw [List.length_cons]
      rcases List.mem_cons.mp hs with rfl | hs
      · exact ⟨hkind, by show B.nextSym < _; omega⟩
      · obtain ⟨hk, hlt⟩ := hps s hs
        exact ⟨hk, by omega⟩

/-! ## The run -/

section

variable (env : Env) (syms : Nat → Option Symbol)

/-- No loan, and nothing of `k` or a later number yet. -/
structure State.Under (st : State) (k : Nat) : Prop where
  loans : st.loans = Dict.empty
  keys : ∀ e ∈ st.var.entries, e.1 < k

theorem leaks_append {st st' : State} {more : List (Nat × Finset VarState)} (h : st'.var.entries = st.var.entries ++ more) :
    leaks st' none = leaks st none ++ (more.filter fun e => .owned ∈ e.2).map Prod.fst := by
  have hall : ∀ l : List (Nat × Finset VarState),
      (l.filter fun e => decide (.owned ∈ e.2 ∧ (none : Option Nat) ≠ some e.1)) = l.filter fun e => decide (.owned ∈ e.2) :=
    fun l => List.filter_congr fun e _ => by simp
  unfold leaks
  rw [h]
  simp only [Option.map_none, hall, List.filter_append, List.map_append]

/-- An acquire and the release after it report nothing, and leave one resource more, released. -/
theorem step_hold {st : State} {k : Nat} (h : st.Under k) (sym : Symbol) (hid : sym.id = k) (resource : String) (line : Int) :
    (step syms (.acquire sym resource line) st).2 = [] ∧
      (step syms (.release sym line) (step syms (.acquire sym resource line) st).1).2 = [] ∧
      (step syms (.release sym line) (step syms (.acquire sym resource line) st).1).1.var.entries =
        st.var.entries ++ [(k, {.released})] := by
  have hrid : (st.acquire sym line).ridOf sym = k := by
    rw [← hid]
    simp [State.ridOf, State.acquire, Dict.getD]
  have hstates : (st.acquire sym line).states sym = {.owned} := by
    rw [State.states, hrid, ← hid]
    simp [State.acquire, Dict.getD]
  have hborrowed : borrowed (st.acquire sym line) sym = false := by
    have hl : (st.acquire sym line).loans = Dict.empty := h.loans
    simp [borrowed, loansOn, hl, Dict.empty]
  refine ⟨rfl, ?_, ?_⟩
  · show releaseProblem (st.acquire sym line) sym line = []
    simp [releaseProblem, stateProblem, hstates, hborrowed]
  · show ((st.acquire sym line).mark ((st.acquire sym line).ridOf sym) .released).var.entries = _
    rw [hrid]
    show ((st.var.set sym.id {.owned}).set k {.released}).entries = _
    rw [hid, Dict.set_set]
    exact Dict.entries_set_above _ h.keys

/-- Nothing is reported on the way; what leaks at the end is what leaked before and what is held to the end. -/
theorem transfer_straight (ds : List Deed) : ∀ {k : Nat} {st : State}, st.Under k →
    (transfer syms (straightInstrs env k ds) st).2 = [] ∧
      leaks (transfer syms (straightInstrs env k ds) st).1 none = leaks st none ++ (owing env k ds).map Symbol.id ∧
      (∀ j < k, (transfer syms (straightInstrs env k ds) st).1.acquiredAt.get? j = st.acquiredAt.get? j) ∧
      ∀ s ∈ owing env k ds, (transfer syms (straightInstrs env k ds) st).1.acquiredAt.get? s.id = some (s.defLine, true) := by
  induction ds with
  | nil => exact fun _ => ⟨rfl, by simp [straightInstrs, transfer, owing], fun _ _ => rfl, fun s hs => absurd hs List.not_mem_nil⟩
  | cons d rest ih =>
    intro k st h
    cases d with
    | watch source line => exact ih h
    | hold name resource line released =>
      let sym := held env name resource line k
      let acts : List Instr := .acquire sym resource line :: if released then [.release sym line] else []
      -- the state after this one
      obtain ⟨hquiet, hentries, hat, hloans⟩ : (transfer syms acts st).2 = [] ∧
          (transfer syms acts st).1.var.entries = st.var.entries ++ [(k, if released then {.released} else {.owned})] ∧
          (transfer syms acts st).1.acquiredAt = st.acquiredAt.set k (line, true) ∧
          (transfer syms acts st).1.loans = Dict.empty := by
        obtain ⟨ha, hr, hvar⟩ := step_hold syms h sym rfl resource line
        cases released with
        | false => exact ⟨rfl, Dict.entries_set_above _ h.keys, rfl, h.loans⟩
        | true =>
          refine ⟨?_, hvar, rfl, h.loans⟩
          show (step syms (.acquire sym resource line) st).2 ++ ((step syms (.release sym line) _).2 ++ []) = []
          rw [ha, hr]
          rfl
      have hunder : (transfer syms acts st).1.Under (k + 1) := by
        refine ⟨hloans, fun e he => ?_⟩
        rw [hentries] at he
        rcases List.mem_append.mp he with he | he
        · exact Nat.lt_succ_of_lt (h.keys e he)
        · rw [List.mem_singleton.mp he]
          exact Nat.lt_succ_self k
      obtain ⟨hq, hl, hbelow, hheld⟩ := ih hunder
      have hsplit : straightInstrs env k (.hold name resource line released :: rest) = acts ++
        straightInstrs env (k + 1) rest := rfl
      rw [hsplit, transfer_append]
      refine ⟨by rw [hquiet, hq]; rfl, ?_, ?_, ?_⟩
      · rw [hl, leaks_append hentries, List.append_assoc]
        congr 1
        cases released with
        | false => simp [owing, held]
        | true => simp [owing]
      · intro j hj
        rw [hbelow j (Nat.lt_succ_of_lt hj), hat, Dict.get?_set_of_ne _ _ (ne_of_lt hj)]
      · intro s hs
        rw [owing] at hs
        rcases List.mem_append.mp hs with hs | hs
        · cases released with
          | true => exact absurd hs List.not_mem_nil
          | false =>
            rw [if_neg Bool.false_ne_true, List.mem_singleton] at hs
            rw [hs]
            show (transfer syms (straightInstrs env (k + 1) rest) _).1.acquiredAt.get? k = _
            rw [hbelow k (Nat.lt_succ_self k), hat, Dict.get?_set_self]
            rfl
        · exact hheld s hs

end

/-! ## The function -/

section

variable {env : Env}

theorem straightInstrs_ids (env : Env) (ds : List Deed) : ∀ {k : Nat},
    (∀ x ∈ (straightInstrs env k ds).flatMap Instr.symbols, k ≤ x.id) ∧
    ∀ s ∈ owing env k ds, s ∈ (straightInstrs env k ds).flatMap Instr.symbols ∧
      ∀ x ∈ (straightInstrs env k ds).flatMap Instr.symbols, x.id = s.id → x = s := by
  induction ds with
  | nil => exact ⟨fun x hx => absurd hx List.not_mem_nil, fun s hs => absurd hs List.not_mem_nil⟩
  | cons d rest ih =>
    intro k
    cases d with
    | watch source line => exact ih
    | hold name resource line released =>
      obtain ⟨hge, hone⟩ := ih (k := k + 1)
      let sym := held env name resource line k
      have hmem : ∀ x, x ∈ (straightInstrs env k (.hold name resource line released :: rest)).flatMap Instr.symbols ↔
          x = sym ∨ x ∈ (straightInstrs env (k + 1) rest).flatMap Instr.symbols := by
        intro x
        cases released with
        | false => simp [straightInstrs, Instr.symbols, sym]
        | true => simp [straightInstrs, Instr.symbols, sym]
      refine ⟨fun x hx => ?_, fun s hs => ?_⟩
      · rcases (hmem x).mp hx with rfl | hx
        · exact le_rfl
        · exact Nat.le_of_succ_le (hge x hx)
      · rw [owing] at hs
        rcases List.mem_append.mp hs with hs | hs
        · have hs : s = sym := by
            cases released with
            | true => exact absurd hs List.not_mem_nil
            | false => exact List.mem_singleton.mp hs
          refine ⟨(hmem s).mpr (Or.inl hs), fun x hx hid => ?_⟩
          rcases (hmem x).mp hx with hx | hx
          · rw [hx, hs]
          · have := hge x hx
            rw [hid, hs] at this
            exact absurd this (Nat.not_succ_le_self k)
        · obtain ⟨hin, hall⟩ := hone s hs
          refine ⟨(hmem s).mpr (Or.inr hin), fun x hx hid => ?_⟩
          rcases (hmem x).mp hx with hx | hx
          · have := hge s hin
            rw [← hid, hx] at this
            exact absurd this (Nat.not_succ_le_self k)
          · exact hall x hx hid

theorem straightInstrs_acts {ds : List Deed} : ∀ {k : Nat}, ∀ ins ∈ straightInstrs env k ds, ins.isReturn = false := by
  induction ds with
  | nil => exact fun ins h => absurd h List.not_mem_nil
  | cons d rest ih =>
    intro k ins h
    cases d with
    | watch source line => exact ih ins h
    | hold name resource line released =>
      rw [straightInstrs] at h
      rcases List.mem_cons.mp h with rfl | h
      · rfl
      · rcases List.mem_append.mp h with h | h
        · cases released with
          | true =>
            cases List.mem_singleton.mp h
            rfl
          | false => exact absurd h List.not_mem_nil
        · exact ih ins h

/-- The one block of a graph that is never left but at its end. -/
theorem analyze_single {cfg : CFG} {is : List Instr} {label : String} (hb : cfg.blocks = [{ instrs := is, label := label }])
    (hentry : cfg.entry = 0) (n : Nat) :
    cfg.analyze (n + 1) = .ok ((transfer cfg.symById is cfg.initialState).2 ++
      if is.getLast?.any Instr.isReturn then []
      else leakCheck cfg.symById (transfer cfg.symById is cfg.initialState).1 (cfg.lastLine 0) "at end of function" none) := by
  have hsucc : cfg.succ 0 = [] := by simp [CFG.succ, hb]
  have hinstrs : cfg.instrs 0 = is := by simp [CFG.instrs, hb]
  have hids : cfg.ids = [0] := by simp [CFG.ids, hb]
  have hnodes : cfg.nodes = [0] := by
    have hmem : (0 : Nat) ∈ Graph.reachable cfg.succ cfg.ids [cfg.entry] := by
      rw [Graph.mem_reachable _ fun t ht => ?_]
      · exact ⟨0, by rw [hentry]; exact List.mem_singleton_self 0, Relation.ReflTransGen.refl⟩
      · by_cases h0 : t = 0
        · rw [h0, hsucc] at ht
          exact absurd rfl ht
        · have : cfg.succ t = [] := by simp [CFG.succ, hb, h0]
          exact absurd this ht
    rw [hids] at hmem
    rw [CFG.nodes, hids]
    simp [hmem]
  have hfix : cfg.fixpoint (n + 1) = .ok (Dict.empty.set 0 cfg.initialState) := by
    have hstart : cfg.problem.start = ⟨[0], Dict.empty, Dict.empty⟩ := by
      show (⟨cfg.nodes, Dict.empty, Dict.empty⟩ : Dataflow.Run State) = _
      rw [hnodes]
    have hin : cfg.problem.inState Dict.empty 0 = .ok cfg.initialState := by
      rw [Dataflow.Problem.inState]
      exact if_pos hentry.symm
    have hvisit : ∃ outs, cfg.problem.visit 0 [] Dict.empty Dict.empty = .ok ⟨[], Dict.empty.set 0 cfg.initialState, outs⟩ := by
      rw [Dataflow.Problem.visit, hin]
      dsimp only
      rw [if_neg (by simp), show cfg.problem.succ 0 = [] from hsucc, Dataflow.Problem.enqueue]
      exact ⟨_, rfl⟩
    obtain ⟨outs, hvisit⟩ := hvisit
    have hnil : cfg.problem.iterate n ⟨[], Dict.empty.set 0 cfg.initialState, outs⟩ =
        .ok (some ⟨[], Dict.empty.set 0 cfg.initialState, outs⟩) := by
      cases n with
      | zero => rfl
      | succ n => rfl
    rw [CFG.fixpoint, Dataflow.Problem.solve, hstart, Dataflow.Problem.iterate, hvisit]
    dsimp only
    rw [hnil]
  have hout : cfg.outState (Dict.empty.set 0 cfg.initialState) 0 = transfer cfg.symById is cfg.initialState := by
    rw [CFG.outState, hinstrs]
    simp [Dict.getD]
  rw [CFG.analyze, hfix]
  show Except.ok (cfg.findings _) = _
  rw [CFG.findings, hnodes]
  simp only [List.flatMap_cons, List.flatMap_nil, List.append_nil, hout]
  by_cases hret : is.getLast?.any Instr.isReturn
  · have hoff : cfg.fallsOff 0 = false := by simp [CFG.fallsOff, hinstrs, hret]
    simp [hoff, hret]
  · have hoff : cfg.fallsOff 0 = true := by simp [CFG.fallsOff, hinstrs, hsucc, hret]
    simp [hoff, hret, hout]

/-- The finding of a resource held to the end of a function whose last line is `line`. -/
def leftOpen (line : Int) (s : Symbol) : Diagnostic :=
  let context := "at end of function"
  let who := s!"'{s.name}' "
  let suffix := ""
  ⟨.own001, s!"'{s.name}' is owned but not released {context} (leaks on at least one path)", line, s.origin, s.resourceKind,
    [⟨s.defLine, s!"{who}acquired here{suffix}", "acquired"⟩]⟩

def endLine (env : Env) (k : Nat) (ds : List Deed) : Int := ((straightInstrs env k ds).getLast?.map Instr.line).getD 0

theorem initialState_plain {cfg : CFG} (h : ∀ s ∈ cfg.params, s.kind = .plain) : cfg.initialState = {} := by
  have hnone : cfg.params.filter (·.kind = .owned) = [] := by
    rw [List.filter_eq_nil_iff]
    intro s hs
    rw [h s hs]
    decide
  rw [CFG.initialState, hnone]
  rfl

theorem lastLine_straight {cfg : CFG} {k : Nat} {ds : List Deed} {label : String}
    (hb : cfg.blocks = [{ instrs := straightInstrs env k ds, label := label }]) : cfg.lastLine 0 = endLine env k ds := by
  have hinstrs : cfg.instrs 0 = straightInstrs env k ds := by simp [CFG.instrs, hb]
  rw [CFG.lastLine, hinstrs, endLine]
  cases hlast : (straightInstrs env k ds).getLast? with
  | some ins => rfl
  | none =>
    have hnil : straightInstrs env k ds = [] := List.getLast?_eq_none_iff.mp hlast
    simp [CFG.firstLine, hb, hnil]

/-- A resource held to the end is the one symbol of its number. -/
theorem symById_straight {cfg : CFG} {k : Nat} {ds : List Deed} {label : String}
    (hb : cfg.blocks = [{ instrs := straightInstrs env k ds, label := label }]) (hparams : ∀ s ∈ cfg.params, s.id < k) :
    ∀ s ∈ owing env k ds, cfg.symById s.id = some s := by
  intro s hs
  obtain ⟨hge, hone⟩ := straightInstrs_ids env ds (k := k)
  obtain ⟨hin, hall⟩ := hone s hs
  have hsymbols : (cfg.blocks.flatMap fun blk =>
      blk.instrs.flatMap Instr.symbols) = (straightInstrs env k ds).flatMap Instr.symbols := by
    rw [hb]
    exact List.append_nil _
  rw [CFG.symById, hsymbols]
  cases hfind : (cfg.params ++ (straightInstrs env k ds).flatMap Instr.symbols).find? fun sym => sym.id = s.id with
  | none =>
    have := List.find?_eq_none.mp hfind s (List.mem_append_right _ hin)
    simp at this
  | some x =>
    have hid : x.id = s.id := by simpa using List.find?_some hfind
    rcases List.mem_append.mp (List.mem_of_find?_eq_some hfind) with hx | hx
    · have hlt := hparams x hx
      have hle := hge s hin
      rw [hid] at hlt
      exact absurd hlt (Nat.not_lt_of_le hle)
    · rw [hall x hx hid]

/-- What is reported of a straight function are its resources that are not released, and nothing else. -/
theorem checkFunction_straight {name : String} {params : List Param} {ds : List Deed} {line : Int}
    (hplain : ∀ p ∈ params, p.Plain env) (hknown : ∀ d ∈ ds, d.Known env)
    (hnodup : (params.map Param.name ++ ds.filterMap Deed.name?).Nodup) (n : Nat) :
    checkFunction (n + 1) env ⟨name, params, none, ds.flatMap Deed.stmts, line⟩ =
      .ok ((owing env params.length ds).map (leftOpen (endLine env params.length ds))) := by
  obtain ⟨hps, hds, hapart⟩ := List.nodup_append.mp hnodup
  let fn : FnDecl := ⟨name, params, none, ds.flatMap Deed.stmts, line⟩
  obtain ⟨hd, hb, hn, hv, hsyms⟩ := declareParams_plain (B := { scopes := [[]] }) hplain hps fun _ _ => rfl
  have hentry : ((declareParams env params { scopes := [[]] }).1.newBlock
      "entry").blocks = [{ instrs := [], label := "entry" }] := by
    show (declareParams env params _).1.blocks ++ _ = _
    rw [hb]
    rfl
  obtain ⟨B', hB', hdiags, hblocks⟩ := lowerSeq_straight env fn ds hentry hknown hds
    fun m hm => by
      show (declareParams env params { scopes := [[]] }).1.visible m = none
      rw [hv m fun hmem => hapart m hmem m hm rfl]
      rfl
  have hnext : ((declareParams env params { scopes := [[]] }).1.newBlock "entry").nextSym = params.length := by
    show (declareParams env params _).1.nextSym = _
    rw [hn]
    exact Nat.zero_add _
  rw [hnext] at hblocks
  have hbuild : build env fn = (B'.popScope, (declareParams env params { scopes := [[]] }).2) := by
    have hbody : lowerSeq env fn fn.body 0
      ((declareParams env fn.params { scopes := [[]] }).1.newBlock "entry") = (B', some 0) := hB'
    rw [build, hbody]
  have hquiet : (buildCfg env fn).2 = [] := by
    show (build env fn).1.diags = []
    rw [hbuild]
    exact hdiags.trans hd
  let cfg := (buildCfg env fn).1
  have hcfgb : cfg.blocks = [{ instrs := straightInstrs env params.length ds, label := "entry" }] := by
    show (build env fn).1.blocks = _
    rw [hbuild]
    exact hblocks
  have hparams : ∀ s ∈ cfg.params, s.kind = .plain ∧ s.id < params.length := by
    intro s hs
    have hs : s ∈ (build env fn).2 := hs
    rw [hbuild] at hs
    obtain ⟨hkind, hlt⟩ := hsyms s hs
    exact ⟨hkind, Nat.zero_add params.length ▸ hlt⟩
  have hinit : cfg.initialState = {} := initialState_plain fun s hs => (hparams s hs).1
  have hunder : cfg.initialState.Under params.length := by
    rw [hinit]
    exact ⟨rfl, fun e he => absurd he List.not_mem_nil⟩
  obtain ⟨hq, hl, -, hat⟩ := transfer_straight env cfg.symById ds hunder
  have hret : (straightInstrs env params.length ds).getLast?.any Instr.isReturn = false := by
    cases hlast : (straightInstrs env params.length ds).getLast? with
    | none => rfl
    | some ins => exact straightInstrs_acts ins (List.mem_of_getLast? hlast)
  have hsym := symById_straight hcfgb fun s hs => (hparams s hs).2
  have hleak : leakCheck cfg.symById (transfer cfg.symById (straightInstrs env params.length ds)
    cfg.initialState).1 (cfg.lastLine 0)
      "at end of function" none = (owing env params.length ds).map (leftOpen (endLine env params.length ds)) := by
    have hnone : leaks cfg.initialState none = [] := by
      rw [hinit]
      rfl
    rw [leakCheck, hl, hnone, List.nil_append, List.map_map, lastLine_straight hcfgb]
    refine List.map_congr_left fun s hs => ?_
    simp only [Function.comp_apply, leak, acquiredEvidence, hsym s hs, hat s hs, leftOpen, Option.bind_some, if_true]
  show (cfg.analyze (n + 1)).map ((buildCfg env fn).2 ++ ·) = _
  rw [hquiet, analyze_single hcfgb rfl n, hq, hret, hleak]
  rfl

end

end OwnNet.Lang
