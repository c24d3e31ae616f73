/-
  OwnNet.OwnAnalysis.Parity — the two ownership analyses compared: the crate's, on the solver whose
  schedule is left open, and the one it is a port of, on its worklist.

  Without the sites of moves and acquisitions, which only label evidence, an instruction keeps joins
  whatever it is. So what either analysis finds at a block is, but for the sites, the join over the
  paths to it. The sites may differ from schedule to schedule, and decide when a worklist is done.

  Proved: `analyze_error`: the crate stops at nothing but the bound on the visits; `analyze_schedules`:
  every schedule gives the same verdicts; `analyze_findings`: they are those of the other analysis.
-/

import OwnNet.Dataflow.Joins
import OwnNet.OwnAnalysis.Mirror
import OwnNet.Lang.Convergence

namespace OwnNet.OwnAnalysis.Engine

open Dataflow
open Lang (Symbol Instr CFG Block Layout Note Holds Surveyed Merges Edit Env FnDecl Stuck buildCfg)

/-! ## States without their sites -/

def bare (st : Lang.State) : Lang.State := { st with movedAt := Dict.empty, acquiredAt := Dict.empty }

/-- The crate's state as one of the other analysis. -/
def core (s : State) : Lang.State :=
  { var := s.var.mapValues fun _ v => sets v
    loans := s.loans.mapValues fun k l => ⟨k, l.owner, k, l.kind⟩
    handleRid := s.handleRid }

theorem mirrors_core (s : State) : Mirrors s (core s) := ⟨rfl, rfl, rfl⟩

theorem Mirrors.bare_eq {s : State} {st : Lang.State} (h : Mirrors s st) : bare st = core s := by
  unfold bare core
  rw [h.var, h.loans, h.handles]

theorem bare_eq_iff {s t : Lang.State} :
    bare s = bare t ↔ s.var = t.var ∧ s.loans = t.loans ∧ s.handleRid = t.handleRid := by
  unfold bare
  rw [Lang.State.mk.injEq]
  simp only [and_true]

theorem mirrors_of_bare {s : State} {st : Lang.State} (h : bare st = core s) : Mirrors s st := by
  obtain ⟨hvar, hloans, hhandles⟩ := bare_eq_iff.mp (h.trans (mirrors_core s).bare_eq.symm)
  exact ⟨hvar, hloans, hhandles⟩

theorem bare_edit {s t : Lang.State} (h : bare s = bare t) (e : Edit) : bare (e.apply s) = bare (e.apply t) := by
  obtain ⟨hvar, hloans, hhandles⟩ := bare_eq_iff.mp h
  rw [bare_eq_iff]
  cases e with
  | acquire sym line => exact ⟨congrArg (·.set sym.id {.owned}) hvar, hloans, congrArg (·.set sym.id sym.id) hhandles⟩
  | mark rid v => exact ⟨congrArg (·.set rid {v}) hvar, hloans, hhandles⟩
  | bind handle rid => exact ⟨hvar, hloans, congrArg (·.set handle rid) hhandles⟩
  | lend binding loan => exact ⟨hvar, congrArg (·.set binding loan) hloans, hhandles⟩
  | giveBack binding => exact ⟨hvar, congrArg (·.erase binding) hloans, hhandles⟩

theorem bare_edits {s t : Lang.State} (h : bare s = bare t) (es : List Edit) :
    bare (es.foldl Edit.apply s) = bare (es.foldl Edit.apply t) := by
  induction es generalizing s t with
  | nil => exact h
  | cons e rest ih => exact ih (bare_edit h e)

theorem bare_record (ins : Instr) (st : Lang.State) : bare (ins.record st) = bare st := by
  cases ins with
  | moveInto dst src line =>
    show bare (Lang.recordMove st src line) = bare st
    unfold Lang.recordMove
    split <;> rfl
  | _ => rfl

section

variable {G : Layout} {F : Nat → Note} {cfg : CFG} {K : List Symbol} {N : Note} {st : Lang.State}

theorem holds_bare : Holds G K N (bare st) ↔ Holds G K N st :=
  ⟨fun h => ⟨h.bound, h.handle, h.loans, h.held, h.born⟩, fun h => ⟨h.bound, h.handle, h.loans, h.held, h.born⟩⟩

theorem merges_bare {s t u : Lang.State} (m : Merges s t u) : Merges (bare s) (bare t) (bare u) :=
  ⟨m.same, m.loans, m.agree, m.handles, m.var, rfl, rfl⟩

section

variable (syms : Nat → Option Symbol) {s t u : Lang.State}

theorem bare_step {ins : Instr} (h : Holds G K N s) (hl : Lang.Lies G K ins) :
    bare (Lang.step syms ins s).1 = bare ((ins.edits G.rid).foldl Edit.apply (bare s)) := by
  rw [Lang.step_edits syms hl.kinds (h.ridOf hl)]
  exact bare_edits (show bare (ins.record s) = bare (bare s) from bare_record ins s) _

theorem bare_transfer {l : List Instr} (h : bare s = bare t) (hs : Holds G K N s) (ht : Holds G K N t) (hK : Lang.Whole G K)
    (hl : Lang.Lying G K l) : bare (Lang.transfer syms l s).1 = bare (Lang.transfer syms l t).1 := by
  induction l generalizing K N s t with
  | nil => exact h
  | cons ins rest ih =>
    refine ih ?_ (hs.step syms hK hl.1).1 (ht.step syms hK hl.1).1 (hK.known hl.1) hl.2
    rw [bare_step syms hs hl.1, bare_step syms ht hl.1, h]

/-- An instruction keeps joins but for the sites. -/
theorem merges_step {ins : Instr} (m : Merges (bare s) (bare t) (bare u)) (hs : Holds G K N s) (ht : Holds G K N t)
    (hu : Holds G K N u) (hl : Lang.Lies G K ins) :
    Merges (bare (Lang.step syms ins s).1) (bare (Lang.step syms ins t).1) (bare (Lang.step syms ins u).1) := by
  rw [bare_step syms hs hl, bare_step syms ht hl, bare_step syms hu hl]
  exact merges_bare (m.edits _)

theorem merges_transfer {l : List Instr} (m : Merges (bare s) (bare t) (bare u)) (hs : Holds G K N s) (ht : Holds G K N t)
    (hu : Holds G K N u) (hK : Lang.Whole G K) (hl : Lang.Lying G K l) :
    Merges (bare (Lang.transfer syms l s).1) (bare (Lang.transfer syms l t).1) (bare (Lang.transfer syms l u).1) := by
  induction l generalizing K N s t u with
  | nil => exact m
  | cons ins rest ih =>
    exact ih (merges_step syms m hs ht hu hl.1) (hs.step syms hK hl.1).1 (ht.step syms hK hl.1).1 (hu.step syms hK hl.1).1
      (hK.known hl.1) hl.2

end

/-! ## What the paths say -/

instance : PartialOrder Lang.State where
  le := Lang.Below
  le_refl := Lang.Below.refl
  le_trans := Lang.Below.trans
  le_antisymm := Lang.Below.antisymm

theorem join_isLUB {s t u : Lang.State} (h : Lang.join s t = .ok u) :
    IsLUB {(s : WithBot Lang.State), (t : WithBot Lang.State)} u := by
  refine ⟨fun x hx => ?_, fun v hv => ?_⟩
  · rcases hx with rfl | rfl
    · exact WithBot.coe_le_coe.mpr (Lang.join_left h)
    · exact WithBot.coe_le_coe.mpr (Lang.join_right h)
  · obtain ⟨w, rfl, hw⟩ := WithBot.coe_le_iff.mp (hv (Or.inl rfl))
    exact WithBot.coe_le_coe.mpr (Lang.join_least h hw (WithBot.coe_le_coe.mp (hv (Or.inr rfl))))

/-- The bare states of the paths. -/
def paths (cfg : CFG) : Framework (WithBot Lang.State) where
  entry := cfg.entry
  succ := cfg.succ
  init := bare cfg.initialState
  transfer := fun b d => d.map fun st => bare (Lang.transfer cfg.symById (cfg.instrs b) st).1

/-- A block's instructions on a bare state. -/
theorem transfer_bare (hS : Surveyed G F cfg) {b : Nat} (h : Holds G (G.starting b) (F b) st) :
    bare (Lang.transfer cfg.symById (cfg.instrs b) (bare st)).1 = bare (Lang.transfer cfg.symById (cfg.instrs b) st).1 := by
  cases hb : cfg.blocks[b]? with
  | none =>
    have hnil : cfg.instrs b = [] := by simp [CFG.instrs, hb]
    rw [hnil]
    rfl
  | some blk =>
    rw [Lang.CFG.instrs_of_get hb]
    exact bare_transfer cfg.symById rfl (holds_bare.mpr h) h (hS.whole b (List.getElem?_eq_some_iff.mp hb).1) (hS.lying b blk hb)

/-- The notes hold of the state, if there is one. -/
def Noted (G : Layout) (F : Nat → Note) (b : Nat) (d : WithBot Lang.State) : Prop :=
  ∀ st : Lang.State, d = st → Holds G (G.starting b) (F b) st

theorem Noted.joined {b : Nat} {d d' e : WithBot Lang.State} (hd : Noted G F b d) (hd' : Noted G F b d') (he : IsLUB {d, d'} e) :
    (d = ⊥ ∧ e = d') ∨ (d' = ⊥ ∧ e = d) ∨
      ∃ s t u : Lang.State, d = s ∧ d' = t ∧ e = u ∧ Lang.join s t = .ok u ∧ Holds G (G.starting b) (F b) u := by
  induction d using WithBot.recBotCoe with
  | bot => exact Or.inl ⟨rfl, he.unique (isLUB_bot_pair d')⟩
  | coe s =>
    induction d' using WithBot.recBotCoe with
    | bot =>
      rw [Set.pair_comm] at he
      exact Or.inr (Or.inl ⟨rfl, he.unique (isLUB_bot_pair _)⟩)
    | coe t =>
      obtain ⟨u, hu, hh⟩ := Lang.join_total (hd s rfl) (hd' t rfl)
      exact Or.inr (Or.inr ⟨s, t, u, rfl, rfl, he.unique (join_isLUB hu), hu, hh⟩)

theorem along_noted (hS : Surveyed G F cfg) {b : Nat} {d : WithBot Lang.State} (h : Along (paths cfg) b d) : Noted G F b d := by
  induction h with
  | entry =>
    rintro st hst
    obtain rfl := WithBot.coe_injective hst
    show Holds G (G.starting cfg.entry) (F cfg.entry) _
    rw [hS.forward.entry]
    exact holds_bare.mpr (Holds.initial hS)
  | @edge b c d _ hc ih =>
    rintro st hst
    induction d using WithBot.recBotCoe with
    | bot => cases hst
    | coe s =>
      obtain rfl := WithBot.coe_injective hst
      obtain ⟨blk, hb, hcs⟩ := CFG.mem_succ.mp hc
      have hend := (hS.run hb (ih s rfl) blk.instrs.length).1
      rw [List.take_length] at hend
      rw [holds_bare, Lang.CFG.instrs_of_get hb]
      exact hend.edge hS hb hcs

theorem gathered_noted (hS : Surveyed G F cfg) {b : Nat} {d : WithBot Lang.State} (h : Gathered (paths cfg) b d) :
    Noted G F b d := by
  induction h with
  | along h => exact along_noted hS h
  | bot => exact fun st hst => by cases hst
  | join _ _ he ih ih' =>
    rcases ih.joined ih' he with ⟨-, rfl⟩ | ⟨-, rfl⟩ | ⟨s, t, u, -, -, rfl, -, hh⟩
    · exact ih'
    · exact ih
    · intro st hst
      obtain rfl := WithBot.coe_injective hst
      exact hh

theorem distributes (hS : Surveyed G F cfg) : Distributes (paths cfg) where
  bot b := rfl
  noBack b hb := by
    obtain ⟨blk, hblk, hc⟩ := CFG.mem_succ.mp hb
    have hpos := hS.positive b blk hblk _ hc
    have hentry : (paths cfg).entry = 0 := hS.forward.entry
    omega
  join b d d' e hd hd' he := by
    rcases (gathered_noted hS hd).joined (gathered_noted hS hd') he with ⟨rfl, rfl⟩ | ⟨rfl,
      rfl⟩ | ⟨s, t, u, rfl, rfl, rfl, hu, hh⟩
    · exact isLUB_bot_pair _
    · rw [Set.pair_comm]
      exact isLUB_bot_pair _
    · have hs := gathered_noted hS hd s rfl
      have ht := gathered_noted hS hd' t rfl
      refine join_isLUB (Merges.ok ?_)
      cases hb : cfg.blocks[b]? with
      | none =>
        have hnil : cfg.instrs b = [] := by simp [CFG.instrs, hb]
        rw [hnil]
        exact merges_bare (Lang.join_merges hu)
      | some blk =>
        rw [Lang.CFG.instrs_of_get hb]
        exact merges_transfer cfg.symById (merges_bare (Lang.join_merges hu)) hs ht hh
          (hS.whole b (List.getElem?_eq_some_iff.mp hb).1) (hS.lying b blk hb)

/-- Some path leads to every block. -/
theorem along_exists (hS : Surveyed G F cfg) (b : Nat) (hb : b < cfg.blocks.length) :
    ∃ st : Lang.State, Along (paths cfg) b st := by
  induction b using Nat.strong_induction_on with
  | _ b ih =>
    by_cases hb0 : b = cfg.entry
    · rw [hb0]
      exact ⟨_, .entry⟩
    · have hpos : 0 < b := by
        have := hS.forward.entry
        omega
      obtain ⟨p, hp, blk, hblk, hc⟩ := hS.forward.back b hpos hb
      obtain ⟨st, hst⟩ := ih p hp (by omega)
      exact ⟨_, .edge hst (CFG.mem_succ.mpr ⟨blk, hblk, hc⟩)⟩

/-! ## The two analyses -/

theorem lang_abstracts (hS : Surveyed G F cfg) :
    Abstracts cfg.problem (paths cfg) fun st => (bare st : WithBot Lang.State) where
  entry := rfl
  succ := rfl
  init := rfl
  transfer b st h := by
    have hh := holds_bare.mp (gathered_noted hS h (bare st) rfl)
    exact congrArg _ (transfer_bare hS hh).symm
  join b s t hs ht := by
    have hhs := holds_bare.mp (gathered_noted hS hs (bare s) rfl)
    have hht := holds_bare.mp (gathered_noted hS ht (bare t) rfl)
    obtain ⟨u, hu, -⟩ := Lang.join_total hhs hht
    exact ⟨u, hu, join_isLUB (merges_bare (Lang.join_merges hu)).ok⟩

def StateFact.core : StateFact → WithBot Lang.State
  | .bottom => ⊥
  | .reachable s => Engine.core s

theorem abstracts (hS : Surveyed G F cfg) : Abstracts (problem (graph cfg) (ownership cfg)) (paths cfg) StateFact.core where
  entry := rfl
  succ := rfl
  init := congrArg _ (Mirrors.initial cfg).bare_eq.symm
  transfer b fact _ := by
    cases fact with
    | bottom => rfl
    | reachable s => exact congrArg _ ((mirrors_core s).transfer cfg.symById (cfg.instrs b)).1.bare_eq.symm
  join b x y hx hy := by
    cases y with
    | bottom =>
      refine ⟨x, by cases x <;> rfl, ?_⟩
      show IsLUB {_, ⊥} _
      rw [Set.pair_comm]
      exact isLUB_bot_pair _
    | reachable t =>
      cases x with
      | bottom => exact ⟨.reachable t, rfl, isLUB_bot_pair _⟩
      | reachable s =>
        obtain ⟨ut, hut, -⟩ := Lang.join_total (gathered_noted hS hx (core s) rfl) (gathered_noted hS hy (core t) rfl)
        obtain ⟨u, hu, hmirror⟩ := (mirrors_core s).join (mirrors_core t) hut
        refine ⟨.reachable u, ?_, ?_⟩
        · show (joinData s t).map StateFact.reachable = _
          rw [hu]
          rfl
        · show IsLUB {(core s : WithBot Lang.State), (core t : WithBot Lang.State)} (core u : WithBot Lang.State)
          rw [← hmirror.bare_eq]
          exact join_isLUB (merges_bare (Lang.join_merges hut)).ok

/-! ## Verdicts -/

/-- Facts that are those of the other analysis, for the blocks of a list. -/
def Matches (facts : Dict Nat StateFact) (ins : Dict Nat Lang.State) (blocks : List Nat) : Prop :=
  ∀ b ∈ blocks, ∃ s, facts.get? b = some (.reachable s) ∧ Mirrors s (ins.getD b {})

theorem transfers_ok {facts : Dict Nat StateFact} {ins : Dict Nat Lang.State} {blocks : List Nat} (h : Matches facts ins blocks) :
    ∃ outs, transfers cfg facts blocks = .ok (outs, (blocks.flatMap fun b => (cfg.outState ins b).2).map verdict) ∧
      (outs.filter fun out => cfg.fallsOff out.1).flatMap (fun out => leakCheck cfg.symById out.2 (cfg.lastLine out.1) none) =
        ((blocks.filter fun b => cfg.fallsOff b).flatMap fun b =>
          Lang.leakCheck cfg.symById (cfg.outState ins b).1 (cfg.lastLine b) "at end of function" none).map verdict := by
  induction blocks with
  | nil => exact ⟨[], rfl, rfl⟩
  | cons b rest ih =>
    obtain ⟨s, hs, hmirror⟩ := h b List.mem_cons_self
    obtain ⟨outs, houts, hleaks⟩ := ih fun c hc => h c (List.mem_cons_of_mem _ hc)
    have hconverged : convergedState facts b = .ok s := by
      unfold convergedState
      rw [hs]
    obtain ⟨hout, hsaid⟩ := hmirror.transfer cfg.symById (cfg.instrs b)
    refine ⟨(b, (transferBlock cfg.symById (cfg.instrs b) s).1) :: outs, ?_, ?_⟩
    · rw [transfers, hconverged]
      simp only [houts, List.flatMap_cons, List.map_append, ← hsaid]
      rfl
    · rw [List.filter_cons, List.filter_cons]
      by_cases hf : cfg.fallsOff b
      · rw [if_pos hf, if_pos hf, List.flatMap_cons, List.flatMap_cons, List.map_append, hleaks]
        exact congrArg (· ++ _) (hout.leakCheck cfg.symById (cfg.lastLine b) "at end of function" none).symm
      · rw [if_neg hf, if_neg hf, hleaks]

theorem report_findings {facts : Dict Nat StateFact} {ins : Dict Nat Lang.State} (h : Matches facts ins cfg.nodes) :
    report cfg facts = .ok ((cfg.findings ins).map verdict) := by
  obtain ⟨outs, houts, hleaks⟩ := transfers_ok h
  have hnodes : (graph cfg).reachableFrom = cfg.nodes := rfl
  unfold report
  rw [hnodes, houts]
  simp only [hleaks, CFG.findings, List.map_append]

/-- Facts that stand for the joins over the paths. -/
structure Converged (cfg : CFG) (facts : Dict Nat StateFact) : Prop where
  isLUB : ∀ b ∈ cfg.nodes, ∃ s, facts.get? b = some (.reachable s) ∧
    IsLUB {d | Along (paths cfg) b d} (core s : WithBot Lang.State)

theorem solveWith_converged (hS : Surveyed G F cfg) {schedule : Schedule} {facts : Dict Nat StateFact}
    (h : solveWith (graph cfg) (ownership cfg) schedule = .ok facts) : Converged cfg facts where
  isLUB b hb := by
    unfold solveWith at h
    split at h
    next => cases h
    next => cases h
    next r hr =>
      cases h
      have hP : (problem (graph cfg) (ownership cfg)).WellFormed := ⟨hS.forward.wellFormed.edge, hS.forward.wellFormed.closed⟩
      have hentry : cfg.entry ∈ cfg.nodes := by
        rw [hS.forward.mem_nodes, hS.forward.entry]
        exact hS.some_
      obtain ⟨fact, hfact, -⟩ := (Problem.solveBy_equations hP (pops (graph cfg) schedule) hr).1 b hb
      have hlub := (abstracts hS).solveBy (distributes hS) hP hentry rfl (pops (graph cfg) schedule) hr hfact
      cases fact with
      | reachable s => exact ⟨s, hfact, hlub⟩
      | bottom =>
        obtain ⟨st, hst⟩ := along_exists hS b (hS.forward.mem_nodes.mp hb)
        exact absurd (hlub.1 hst) (WithBot.not_coe_le_bot st)

/-- The facts' states, those of the other analysis. -/
def cores (facts : Dict Nat StateFact) : Dict Nat Lang.State :=
  facts.mapValues fun _ fact =>
    match fact with
    | .bottom => {}
    | .reachable s => core s

theorem Converged.matches {facts facts' : Dict Nat StateFact} (h : Converged cfg facts) (h' : Converged cfg facts') :
    Matches facts' (cores facts) cfg.nodes := by
  intro b hb
  obtain ⟨s, hs, hlub⟩ := h.isLUB b hb
  obtain ⟨s', hs', hlub'⟩ := h'.isLUB b hb
  refine ⟨s', hs', ?_⟩
  have hcore := WithBot.coe_injective (hlub.unique hlub')
  unfold cores Dict.getD
  rw [Dict.get?_mapValues, hs]
  show Mirrors s' (core s)
  rw [hcore]
  exact mirrors_core s'

theorem Converged.matches_fixpoint (hS : Surveyed G F cfg) {facts : Dict Nat StateFact} (h : Converged cfg facts) {n : Nat}
    {ins : Dict Nat Lang.State} (hfix : cfg.fixpoint n = .ok ins) : Matches facts ins cfg.nodes := by
  intro b hb
  obtain ⟨s, hs, hlub⟩ := h.isLUB b hb
  unfold CFG.fixpoint at hfix
  split at hfix
  next => cases hfix
  next => cases hfix
  next r hr =>
    cases hfix
    have hentry : cfg.entry ∈ cfg.nodes := by
      rw [hS.forward.mem_nodes, hS.forward.entry]
      exact hS.some_
    obtain ⟨st, hst, -⟩ := Problem.solve_equations hS.forward.wellFormed hr b hb
    have hlub' := (lang_abstracts hS).solve (distributes hS) hS.forward.wellFormed hS.forward.ordered hentry hr hst
    refine ⟨s, hs, ?_⟩
    unfold Dict.getD
    rw [hst]
    exact mirrors_of_bare (WithBot.coe_injective (hlub'.unique hlub))

end

/-! ## Runs -/

section

variable (env : Env) (fn : FnDecl)

theorem report_converged {facts : Dict Nat StateFact} (h : Converged (buildCfg env fn).1 facts) :
    report (buildCfg env fn).1 facts = .ok (((buildCfg env fn).1.findings (cores facts)).map verdict) :=
  report_findings (h.matches h)

/-- Nothing but the bound on the visits stops the crate. -/
theorem analyze_error {schedule : Schedule} {e : Halt} (h : analyze (buildCfg env fn).1 schedule = .error e) :
    e = .solver .visits := by
  obtain ⟨G, F, hS⟩ := Lang.build_surveyed env fn
  have hP : (problem (graph (buildCfg env fn).1) (ownership (buildCfg env fn).1)).WellFormed :=
    ⟨hS.forward.wellFormed.edge, hS.forward.wellFormed.closed⟩
  unfold analyze at h
  split at h
  next e' hsolve =>
    cases h
    unfold solveWith at hsolve
    obtain ⟨r, hr⟩ := Problem.solveBy_total (pop (graph (buildCfg env fn).1) schedule) hP
      ((abstracts hS).total (distributes hS)) (fun b => Gathered.bot b) (visitCap (graph (buildCfg env fn).1))
    rw [hr] at hsolve
    cases r with
    | none =>
      cases hsolve
      rfl
    | some r => cases hsolve
  next facts hsolve =>
    rw [report_converged env fn (solveWith_converged hS hsolve)] at h
    cases h

variable {schedule : Schedule} {verdicts : List Verdict}

/-- What the crate reports are the findings at the states it converged on. -/
theorem analyze_converged (h : analyze (buildCfg env fn).1 schedule = .ok verdicts) :
    ∃ facts, Converged (buildCfg env fn).1 facts ∧ verdicts = ((buildCfg env fn).1.findings (cores facts)).map verdict := by
  obtain ⟨G, F, hS⟩ := Lang.build_surveyed env fn
  unfold analyze at h
  split at h
  next => cases h
  next facts hsolve =>
    have hfacts := solveWith_converged hS hsolve
    rw [report_converged env fn hfacts] at h
    cases h
    exact ⟨facts, hfacts, rfl⟩

theorem analyze_schedules (h : analyze (buildCfg env fn).1 schedule = .ok verdicts) {schedule' : Schedule}
    {verdicts' : List Verdict}
    (h' : analyze (buildCfg env fn).1 schedule' = .ok verdicts') : verdicts' = verdicts := by
  obtain ⟨facts, hfacts, rfl⟩ := analyze_converged env fn h
  obtain ⟨facts', hfacts', rfl⟩ := analyze_converged env fn h'
  have hsame := (report_converged env fn hfacts').symm.trans (report_findings (hfacts.matches hfacts'))
  injection hsame

theorem analyze_findings (h : analyze (buildCfg env fn).1 schedule = .ok verdicts) {n : Nat} {ds : List Lang.Diagnostic}
    (hds : (buildCfg env fn).1.analyze n = .ok ds) : verdicts = ds.map verdict := by
  obtain ⟨G, F, hS⟩ := Lang.build_surveyed env fn
  obtain ⟨facts, hfacts, rfl⟩ := analyze_converged env fn h
  unfold CFG.analyze at hds
  cases hfix : (buildCfg env fn).1.fixpoint n with
  | error e =>
    rw [hfix] at hds
    cases hds
  | ok ins =>
    rw [hfix] at hds
    cases hds
    have hsame := (report_converged env fn hfacts).symm.trans (report_findings (hfacts.matches_fixpoint hS hfix))
    injection hsame

end

example : analyze (buildCfg Lang.Example.env Example.movedMaybe).1 .lifo = .ok [⟨.own010, 7, some "a#2"⟩] := by decide

end OwnNet.OwnAnalysis.Engine
