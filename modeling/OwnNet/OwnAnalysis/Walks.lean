/-
  OwnNet.OwnAnalysis.Walks — what the checker may say of one graph. Its states are joined by way of
  sets of ids of objects, so a leak check comes across the resources in an order nothing fixes; the
  crate keeps them by number.

  Proved: `Agree`: verdicts that differ in the order of the leaks of one line and in nothing else;
  `engines_agree`: the crate stops at nothing but the bound on the visits; every schedule gives the
  same verdicts, and in this sense they are those the checker gives, whichever way its sets are walked.
-/

import Mathlib.Data.List.Forall2
import Mathlib.Data.Prod.Lex
import OwnNet.Lang.Check
import OwnNet.OwnAnalysis.Parity
import OwnNet.Sorting

namespace OwnNet.OwnAnalysis.Engine

open Lang (Symbol Instr CFG Env FnDecl Diagnostic Stuck buildCfg)

/-! ## Lists that agree -/

/-- What verdicts are sorted by. -/
def Verdict.key (v : Verdict) : Int ×ₗ String := toLex (v.line, v.code.text)

/-- The same verdicts, those of one line and code in any order if they are leaks. -/
structure Agree (vs ws : List Verdict) : Prop where
  perm : vs.Perm ws
  keys : vs.map Verdict.key = ws.map Verdict.key
  rest : (vs.filter fun v => v.code ≠ .own001) = ws.filter fun v => v.code ≠ .own001

namespace Agree

variable {vs ws vs' ws' : List Verdict}

theorem refl (vs : List Verdict) : Agree vs vs := ⟨List.Perm.refl vs, rfl, rfl⟩

theorem append (h : Agree vs ws) (h' : Agree vs' ws') : Agree (vs ++ vs') (ws ++ ws') where
  perm := h.perm.append h'.perm
  keys := by rw [List.map_append, List.map_append, h.keys, h'.keys]
  rest := by rw [List.filter_append, List.filter_append, h.rest, h'.rest]

/-- Leaks of one line. -/
theorem of_perm (line : Int) (h : vs.Perm ws) (hvs : ∀ v ∈ vs, v.code = .own001 ∧ v.line = line) : Agree vs ws where
  perm := h
  keys := by
    have hkey : ∀ l : List Verdict, (∀ v ∈ l, v ∈ vs) → ∀ k ∈ l.map Verdict.key, k = toLex (line, Lang.Code.own001.text) := by
      intro l hl k hk
      obtain ⟨v, hv, rfl⟩ := List.mem_map.mp hk
      obtain ⟨hcode, hline⟩ := hvs v (hl v hv)
      rw [Verdict.key, hcode, hline]
    rw [List.eq_replicate_of_mem (hkey vs fun _ hv => hv), List.eq_replicate_of_mem (hkey ws fun _ hv => h.mem_iff.mpr hv),
      (h.map Verdict.key).length_eq]
  rest := by
    have hnone : ∀ l : List Verdict, (∀ v ∈ l, v ∈ vs) → (l.filter fun v => v.code ≠ .own001) = [] := fun l hl =>
      List.filter_eq_nil_iff.mpr fun v hv hne => of_decide_eq_true hne (hvs v (hl v hv)).1
    rw [hnone vs fun _ hv => hv, hnone ws fun _ hv => h.mem_iff.mpr hv]

/-- A stable sort keeps what it is handed apart. -/
theorem sort (h : Agree vs ws) :
    Agree (vs.insertionSort fun a b => a.key ≤ b.key) (ws.insertionSort fun a b => a.key ≤ b.key) where
  perm := (List.perm_insertionSort _ vs).trans (h.perm.trans (List.perm_insertionSort _ ws).symm)
  keys := by
    rw [List.map_insertionSort _ (· ≤ ·) Verdict.key vs fun _ _ _ _ => Iff.rfl,
      List.map_insertionSort _ (· ≤ ·) Verdict.key ws fun _ _ _ _ => Iff.rfl, h.keys]
  rest := by rw [Sorting.filter_sort Verdict.key, Sorting.filter_sort Verdict.key, h.rest]

end Agree

/-! ## What may be said -/

/-- What one instruction has the checker report in a state, its leak checks in any order. -/
def StepReports (syms : Nat → Option Symbol) (ins : Instr) (st : Lang.State) (ds : List Diagnostic) : Prop :=
  match ins with
  | .return_ none line => (Lang.leakCheck syms st line "before return" none).Perm ds
  | .return_ (some sym) line =>
    ∃ leaks, (Lang.leakCheck syms st line "before return" (some sym)).Perm leaks ∧ ds = leaks ++ Lang.returnProblem st sym line
  | ins => ds = (Lang.step syms ins st).2

inductive TransferReports (syms : Nat → Option Symbol) : List Instr → Lang.State → List Diagnostic → Prop
  | nil {st : Lang.State} : TransferReports syms [] st []
  | cons {ins : Instr} {rest : List Instr} {st : Lang.State} {ds more : List Diagnostic} :
    StepReports syms ins st ds → TransferReports syms rest (Lang.step syms ins st).1 more →
      TransferReports syms (ins :: rest) st (ds ++ more)

/-- What the reporting pass may say: of each block in turn, and then of each that control falls off. -/
def FindingsReport (cfg : CFG) (ins : Dict Nat Lang.State) (ds : List Diagnostic) : Prop :=
  ∃ blocks ends, List.Forall₂ (fun b ds => TransferReports cfg.symById (cfg.instrs b) (ins.getD b {}) ds) cfg.nodes blocks ∧
    List.Forall₂ (fun b ds => (Lang.leakCheck cfg.symById (cfg.outState ins b).1 (cfg.lastLine b)
      "at end of function" none).Perm ds)
      (cfg.nodes.filter fun b => cfg.fallsOff b) ends ∧ ds = blocks.flatten ++ ends.flatten

/-- What `analyze` may return, in at most `n` visits of a block. -/
def Analyzed (cfg : CFG) (n : Nat) (ds : List Diagnostic) : Prop := ∃ ins, cfg.fixpoint n = .ok ins ∧ FindingsReport cfg ins ds

section

variable {syms : Nat → Option Symbol} {cfg : CFG} {ds : List Diagnostic}

theorem step_reports (ins : Instr) (st : Lang.State) : StepReports syms ins st (Lang.step syms ins st).2 := by
  cases ins with
  | return_ sym line =>
    cases sym with
    | none => exact List.Perm.refl _
    | some sym => exact ⟨_, List.Perm.refl _, rfl⟩
  | _ => exact rfl

theorem transfer_reports (is : List Instr) (st : Lang.State) : TransferReports syms is st (Lang.transfer syms is st).2 := by
  induction is generalizing st with
  | nil => exact .nil
  | cons ins rest ih => exact .cons (step_reports ins st) (ih _)

/-- The findings by number are among what the checker may say. -/
theorem analyzed_findings {n : Nat} (h : cfg.analyze n = .ok ds) : Analyzed cfg n ds := by
  unfold CFG.analyze at h
  cases hfix : cfg.fixpoint n with
  | error e =>
    rw [hfix] at h
    cases h
  | ok ins =>
    rw [hfix] at h
    cases h
    refine ⟨ins, hfix, cfg.nodes.map fun b => (cfg.outState ins b).2,
      (cfg.nodes.filter fun b => cfg.fallsOff b).map fun b =>
        Lang.leakCheck cfg.symById (cfg.outState ins b).1 (cfg.lastLine b) "at end of function" none, ?_, ?_, ?_⟩
    · rw [List.forall₂_map_right_iff, List.forall₂_same]
      exact fun b _ => transfer_reports _ _
    · rw [List.forall₂_map_right_iff, List.forall₂_same]
      exact fun b _ => List.Perm.refl _
    · rw [CFG.findings, List.flatMap_def, List.flatMap_def]

/-! ## Order -/

theorem agree_leaks {st : Lang.State} {line : Int} {context : String} {exclude : Option Symbol}
    (h : (Lang.leakCheck syms st line context exclude).Perm ds) :
    Agree ((Lang.leakCheck syms st line context exclude).map verdict) (ds.map verdict) := by
  refine Agree.of_perm line (h.map verdict) fun v hv => ?_
  obtain ⟨d, hd, rfl⟩ := List.mem_map.mp hv
  obtain ⟨rid, -, rfl⟩ := List.mem_map.mp hd
  exact ⟨rfl, rfl⟩

theorem agree_step {ins : Instr} {st : Lang.State} (h : StepReports syms ins st ds) :
    Agree ((Lang.step syms ins st).2.map verdict) (ds.map verdict) := by
  cases ins with
  | return_ sym line =>
    cases sym with
    | none => exact agree_leaks h
    | some sym =>
      obtain ⟨leaks, hleaks, rfl⟩ := h
      rw [List.map_append]
      change Agree ((_ ++ Lang.returnProblem st sym line).map verdict) _
      rw [List.map_append]
      exact (agree_leaks hleaks).append (Agree.refl _)
  | _ =>
    rw [show ds = _ from h]
    exact Agree.refl _

theorem agree_transfer {is : List Instr} {st : Lang.State} (h : TransferReports syms is st ds) :
    Agree ((Lang.transfer syms is st).2.map verdict) (ds.map verdict) := by
  induction h with
  | nil => exact Agree.refl _
  | cons hstep _ ih =>
    rw [List.map_append]
    change Agree ((_ ++ _ : List Diagnostic).map verdict) _
    rw [List.map_append]
    exact (agree_step hstep).append ih

theorem agree_each {f : Nat → List Diagnostic} {said : Nat → List Diagnostic → Prop}
    (hsaid : ∀ b ds, said b ds → Agree ((f b).map verdict) (ds.map verdict)) {blocks : List Nat} {dss : List (List Diagnostic)}
    (h : List.Forall₂ said blocks dss) : Agree ((blocks.flatMap f).map verdict) (dss.flatten.map verdict) := by
  induction h with
  | nil => exact Agree.refl _
  | cons hb _ ih =>
    rw [List.flatMap_cons, List.flatten_cons, List.map_append, List.map_append]
    exact (hsaid _ _ hb).append ih

theorem agree_findings {ins : Dict Nat Lang.State} (h : FindingsReport cfg ins ds) :
    Agree ((cfg.findings ins).map verdict) (ds.map verdict) := by
  obtain ⟨blocks, ends, hblocks, hends, rfl⟩ := h
  rw [CFG.findings, List.map_append, List.map_append]
  exact (agree_each (fun _ _ h => agree_transfer h) hblocks).append (agree_each (fun _ _ h => agree_leaks h) hends)

/-- Whatever the checker may say agrees with the findings by number. -/
theorem agree_analyzed {n : Nat} (h : Analyzed cfg n ds) :
    ∃ found, cfg.analyze n = .ok found ∧ Agree (found.map verdict) (ds.map verdict) := by
  obtain ⟨ins, hfix, hds⟩ := h
  exact ⟨cfg.findings ins, by rw [CFG.analyze, hfix]; rfl, agree_findings hds⟩

end

/-- **The two analyses of a graph**: the crate stops at nothing but the bound on the visits, every
    schedule gives the same verdicts, and they are those of the checker but for the order of the
    leaks of one line. -/
theorem engines_agree (env : Env) (fn : FnDecl) :
    (∀ schedule e, analyze (buildCfg env fn).1 schedule = .error e → e = .solver .visits) ∧
      ∀ schedule verdicts, analyze (buildCfg env fn).1 schedule = .ok verdicts →
        (∀ schedule' verdicts', analyze (buildCfg env fn).1 schedule' = .ok verdicts' → verdicts' = verdicts) ∧
          ∀ n ds, Analyzed (buildCfg env fn).1 n ds → Agree verdicts (ds.map verdict) := by
  refine ⟨fun _ _ h => analyze_error env fn h, fun _ _ h => ⟨fun _ _ h' => analyze_schedules env fn h h', fun n ds hds => ?_⟩⟩
  obtain ⟨found, hfound, hagree⟩ := agree_analyzed hds
  rw [analyze_findings env fn h hfound]
  exact hagree

end OwnNet.OwnAnalysis.Engine
