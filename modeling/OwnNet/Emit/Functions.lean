/-
  OwnNet.Emit.Functions — what is emitted of a function, against its graph.

  Tidy code (`tidySeq`) has each name it cleans up in a `finally` in no other hands: a buffer
  released both in a branch of its scope and at its end is cleaned up twice, though the checker
  accepts it (`not_tidy`).

  Proved: `emitted_alike`: the runs of tidy code are, act by act, the paths of the graph;
  `emitted_exact`: of an accepted function, each handles every instance exactly once;
  `hoisted_bracketed`: a hoisted scope is closed as often as it was opened, whatever throws.
-/

import OwnNet.Emit.Hoisted
import OwnNet.Lang.Execution

namespace OwnNet.Emit

open Lang Graph Checks

/-! ## Parameters -/

section

variable {mod : Module} {σ : Names} {B : Builder}

theorem res_isSome {name : String} : (res mod name).isSome = true ↔ name ∈ mod.resourceNames := by
  unfold res Module.resourceNames
  rw [Dict.lookup_latest_isSome, List.mem_map]

theorem declareParams_quiet {env : Env} {p : Param} {ps : List Param} (hq : (declareParams env (p :: ps) B).1.Quiet) :
    (declareParam env p B).1.Quiet := by
  have hkeeps : ∀ (ps : List Param) (B : Builder), (declareParams env ps B).1.Quiet → B.Quiet := by
    intro ps
    induction ps with
    | nil => exact fun B h => h
    | cons p rest ih => exact fun B h => (ih _ h).declare.1
  exact hkeeps ps _ hq

/-- The parameters: an owned one is of its resource. -/
theorem declareParams_reads {fn : String} {ps : List ParamDecl} (h : Reads fn [] σ B) (hempty : σ.bufferCleanup = Dict.empty)
    (hq : (declareParams mod.env (ps.map ParamDecl.toParam) B).1.Quiet) :
    Reads fn [] (ps.foldl (fun σ p => if !p.type.borrowed && (res mod p.type.name).isSome then σ.own p.name p.type.name else σ) σ)
      (declareParams mod.env (ps.map ParamDecl.toParam) B).1 := by
  induction ps generalizing σ B with
  | nil => exact h
  | cons p rest ih =>
    have hone : (declareParam mod.env p.toParam B).1.Quiet := declareParams_quiet hq
    refine ih ?_ ?_ hq
    · dsimp only
      split
      next howned =>
        obtain ⟨hb, hres⟩ := Bool.and_eq_true_iff.mp howned
        refine (h.declare hone (fun _ hn => hn) (fun _ hn => Or.inr hn) (fun n hn =>
          Names.agrees_own σ p.name p.type.name hn) ?_).1
        refine ⟨fun _ _ _ => ?_, fun _ info hi => by cases hi⟩
        rw [Names.resource_own, if_pos rfl]
        refine ⟨rfl, ?_⟩
        show σ.bufferCleanup.get? _ = none
        rw [hempty]
        rfl
      next hnot =>
        refine (h.declare hone (fun _ hn => hn) (fun _ hn => Or.inr hn) (fun n _ => .refl σ n) (.of_not_owned ?_ rfl)).1
        show (if p.type.borrowed = true then Kind.borrow else if p.type.name ∈ mod.resourceNames then .owned else .plain) ≠ .owned
        by_cases hb : p.type.borrowed = true
        · rw [if_pos hb]
          decide
        · rw [if_neg hb, if_neg]
          · decide
          · intro hmem
            exact hnot (Bool.and_eq_true_iff.mpr ⟨by simpa using hb, res_isSome.mpr hmem⟩)
    · dsimp only
      split
      · exact hempty
      · exact hempty

end

/-! ## A function -/

section

variable {mod : Module} {fn : FnItem} {code : List Code} {σ : Names}

/-- The body's code follows what it is lowered to. -/
theorem bodyCode_follows {B : Builder} {cur : Nat} (hB : B.Scoped) (hcur : cur < B.blocks.length) (hu : B.Unlinked cur)
    (h : Reads fn.name [] (paramNames mod fn) B) (hcode : bodyCode mod fn = .ok (code, σ)) (ht : tidySeq [] code = true)
    (hq : (lowerSeq mod.env fn.decl fn.body cur B).1.Quiet) :
    Follows mod fn.name [] (paramNames mod fn) B cur code σ (lowerSeq mod.env fn.decl fn.body cur B).1
      (lowerSeq mod.env fn.decl fn.body cur B).2 := by
  unfold bodyCode at hcode
  split at hcode
  next hs =>
    have hget : Gets fn.body := fun l₁ st l₂ hl hstop => codeHoist_last hcode ht hl hstop
    have hnests : Nests fn.decl.body := nests_of_quiet hget hB hq hs
    exact codeHoist_follows hnests cur hB hcur hu h hcode ht hq
  next => exact codeBlock_follows mod fn.decl fn.body cur hB hcur hu h hcode ht hq

/-- The runs of what is emitted are the paths of the function's graph, act by act. -/
theorem emitted_runs (hok : (buildCfg mod.env fn.decl).2 = []) (hcode : bodyCode mod fn = .ok (code, σ))
    (ht : tidySeq [] code = true) : AlikeWords (Right mod fn.name) (departures (buildCfg mod.env fn.decl).1)
    (waysSeq code).all := by
  obtain ⟨G, hstart, hl⟩ := body_started mod.env fn.decl
  let P := declareParams mod.env fn.decl.params { scopes := [[]] }
  let B₀ := P.1.newBlock "entry"
  let L := lowerSeq mod.env fn.decl fn.body 0 B₀
  change Started G B₀ P.2 at hstart
  change Lowered G B₀ 0 L.1 L.2 at hl
  obtain ⟨hcfg, hquiet⟩ := build_body mod.env fn.decl
  have hq : L.1.Quiet := hquiet hok
  have hqP : P.1.Quiet := hl.quiet hq
  have hcur : 0 < B₀.blocks.length := Builder.lt_of_get hstart.here
  have hu : B₀.Unlinked 0 := unlinked_new hstart.here
  have hnothing : Reads fn.name [] {} ({ scopes := [[]] } : Builder) :=
    { known := fun n s hs => by cases hs
      guarded := fun n hn => absurd hn List.not_mem_nil }
  have hreads : Reads fn.name [] (paramNames mod fn) B₀ := (declareParams_reads hnothing rfl hqP).of_scopes rfl
  have hfollows := bodyCode_follows hstart.tidy.scope hcur hu hreads hcode ht hq
  obtain ⟨R, hR, halike⟩ := hfollows.alike
  have hdeparts : departures (buildCfg mod.env fn.decl).1 = R.all := by
    ext t
    exact hR.departs_iff hstart.blocks (fun c hc => ⟨(hfollows.spans.frame.out c hc).2, hfollows.spans.exit c hc⟩) hcfg rfl t
  rw [hdeparts]
  exact halike.all

/-- Of a module nothing is reported about: what is emitted of a function are the lines of its code, and the runs of tidy code
    are the paths of the graph the module was checked by. -/
theorem emitted_alike {n : Nat} (hmod : checkModule n mod = .ok []) (hfn : fn ∈ mod.functions) {lines : List String}
    (hlines : bodyLines mod fn = .ok (lines, σ)) : ∃ code, bodyCode mod fn = .ok (code, σ) ∧ lines = renderSeq code indent ∧
      (tidySeq [] code = true → AlikeWords (Right mod fn.name) (departures (buildCfg mod.env fn.decl).1) (waysSeq code).all) := by
  obtain ⟨-, -, hfunctions⟩ := checkModule_nil.mp hmod
  rw [bodyLines_renders] at hlines
  cases hcode : bodyCode mod fn with
  | error e =>
    rw [hcode] at hlines
    cases hlines
  | ok r =>
    rw [hcode] at hlines
    obtain ⟨rfl, rfl⟩ := Prod.mk.inj (Except.ok.inj hlines)
    exact ⟨r.1, rfl, rfl, emitted_runs (hfunctions fn hfn).1 hcode⟩

/-- Of a module nothing is reported about, tidy code handles each instance exactly once on every run to its end. -/
theorem emitted_exact {n : Nat} (hmod : checkModule n mod = .ok []) (hfn : fn ∈ mod.functions)
    (hcode : bodyCode mod fn = .ok (code, σ))
    (ht : tidySeq [] code = true) (hkept : (buildCfg mod.env fn.decl).1.ReturnsKept) :
    ∀ v ∈ (waysSeq code).all, ∃ t ∈ departures (buildCfg mod.env fn.decl).1, List.Forall₂ (Right mod fn.name) t v ∧
      ((buildCfg mod.env fn.decl).1.exec t).fault = false ∧ ∀ i < ((buildCfg mod.env fn.decl).1.exec t).next,
        ((buildCfg mod.env fn.decl).1.exec t).gone.count i = 1 := by
  obtain ⟨-, -, hfunctions⟩ := checkModule_nil.mp hmod
  obtain ⟨hok, hacc⟩ := hfunctions fn hfn
  obtain ⟨G, hL⟩ := buildCfg_laidOut mod.env fn.decl hok
  have hexact : (buildCfg mod.env fn.decl).1.Exact := by
    unfold CFG.analyze at hacc
    cases hfix : (buildCfg mod.env fn.decl).1.fixpoint n with
    | error e =>
      rw [hfix] at hacc
      cases hacc
    | ok ins =>
      rw [hfix] at hacc
      exact (exact_iff hL hfix (Except.ok.inj hacc)).mpr hkept
  intro v hv
  obtain ⟨t, ht, htv⟩ := (emitted_runs hok hcode ht).2 v hv
  refine ⟨t, ht, htv, ?_⟩
  cases ht with
  | @returns b i t blk r line hb hi hpath =>
    obtain ⟨hlast, hsucc⟩ := (hL.block b blk hb).returns i _ hi rfl
    exact ⟨hexact.1 b (i + 1) t hpath, hexact.2 b blk t hb hsucc (hlast ▸ hpath)⟩
  | @falls b t blk hb hf hpath =>
    simp only [CFG.fallsOff, CFG.succ_of_get hb, decide_eq_true_eq] at hf
    exact ⟨hexact.1 b _ t hpath, hexact.2 b blk t hb hf.1 hpath⟩

/-- The scopes of a hoisted body: those it opens itself, of names released once, are closed in the opposite order as often
    as they were opened, though any step but a cleanup may throw. -/
theorem hoisted_bracketed {N : String → Bool} (hok : (buildCfg mod.env fn.decl).2 = []) (hs : isSimple fn.body = true)
    (hget : Gets fn.body) (hone : Once N fn.body) (hhere : OpenedHere N fn.body) (hcode : bodyCode mod fn = .ok (code, σ)) :
    Attempts.All (fun w => Bracketed (side N) w ∧
      (∀ n, (w.filterMap (side N)).count (n, true) = (w.filterMap (side N)).count (n, false)) ∧
      ∀ n v, v <+: w.filterMap (side N) → v.count (n, false) ≤ v.count (n, true)) (attemptsSeq code) := by
  obtain ⟨G, hstart, hl⟩ := body_started mod.env fn.decl
  have hq := (build_body mod.env fn.decl).2 hok
  rw [bodyCode, if_pos hs] at hcode
  have hmade := (nests_of_quiet hget hstart.tidy.scope hq hs).made mod fn.name hone hhere hcode
  intro w hw
  have hnested := attemptsSeq_bracketed code hmade w hw
  exact ⟨hnested, fun n => Nested.count hnested n, fun n v hv => Nested.before hnested n hv⟩

end

/-! ## Runs of what is emitted -/

section

variable (name : String) (pre fin : List String) {body : List Code} {w : List Act}

theorem scope_falls (h : w ∈ (attemptsSeq body).falls) :
    .opens name pre :: w ++ [.closes name fin] ∈ (attemptsSeq [.scope name pre fin body]).falls :=
  Language.mem_mul.mpr ⟨_, Language.mem_mul.mpr ⟨[_], rfl, _, Language.mem_mul.mpr ⟨w, h, [_], rfl, rfl⟩, rfl⟩, [], rfl,
    List.append_nil _⟩

/-- Where what is in a scope throws, the scope is closed. -/
theorem scope_fails (h : w ∈ (attemptsSeq body).fails) :
    .opens name pre :: w ++ [.closes name fin] ∈ (attemptsSeq [.scope name pre fin body]).fails :=
  Or.inl (Or.inr (Language.mem_mul.mpr ⟨[_], rfl, _, Language.mem_mul.mpr ⟨w, h, [_], rfl, rfl⟩, rfl⟩))

end

namespace Example

/-- `resource R { … } fn once() { let x = acquire R(); release x; }` -/
def once : FnItem :=
  { name := "once", params := [], ret := none, line := 1, body := [.let_ "x" (.acquire "R" [] 2) 2, .release "x" 3] }

def modOnce : Module := { name := "m", resources := [{ name := "R", members := [], line := 1 }], functions := [once] }

def onceCode : List Code := [.scope "x" [acquireLine modOnce "x" "R" []] [releaseStmt modOnce "x" "R"] []]

set_option maxRecDepth 4000 in
theorem modOnce_accepted : checkModule 20 modOnce = .ok [] := by decide

theorem once_code : bodyCode modOnce once = .ok (onceCode, ({} : Names).own "x" "R") := by
  have hsimple : isSimple once.body = true := by decide
  rw [bodyCode, if_pos hsimple]
  simp [once, onceCode, codeHoist, scopeLowering, segment, findRelease, isRelease, opened, paramNames, bind, Except.bind, pure,
    Except.pure]

theorem modOnce_lines : bodyLines modOnce once = .ok (renderSeq onceCode indent, ({} : Names).own "x" "R") := by
  rw [bodyLines_renders, once_code]
  rfl

/-- `fn early(c) { let b = Buffer.pooled(16); if (c) { release b; return; } release b; }` -/
def early : FnItem :=
  { name := "early", params := [], ret := none, line := 1
    body := [.let_ "b" (.buffer "pooled" (some (.intLit 16 2)) [] 2 "Buffer" 3 []) 2,
      .if_ "c" [.release "b" 3, .return_ none 3] [] 3, .release "b" 4] }

def modEarly : Module := { name := "m", functions := [early] }

def earlyLines : List String × List String := bufferLines "early" "b" (resolve .pooled (some (.intLit 16 2)) [] [] 2 []).1

def earlyExit : List Code :=
  [.cond (ifLine "c") [.step [.closes "b" [releaseStmt modEarly "b" ""]] [releaseStmt modEarly "b" ""], .leave none] [] false]

def earlyCode : List Code := [.scope "b" earlyLines.1 earlyLines.2 earlyExit]

theorem early_code : bodyCode modEarly early = .ok (earlyCode, ({} : Names).forget "b") := by
  have hsimple : ¬isSimple early.body = true := by decide
  have hend : scopeEnd [.if_ "c" [.release "b" 3, .return_ none 3] [] 3, .release "b" 4] "b" = some 1 := by decide
  have hlines : bufferLowering modEarly "early" "b" "pooled" (some (.intLit 16 2)) [] 2 [] (paramNames modEarly early) =
      .ok (earlyLines, ({} : Names).forget "b") := rfl
  have hbranch : codeBlock modEarly "early" [.release "b" 3, .return_ none 3] (({} : Names).forget "b") =
      .ok ([.step [.closes "b" [releaseStmt modEarly "b" ""]] [releaseStmt modEarly "b" ""], .leave none],
          ({} : Names).forget "b") := by
    rw [codeBlock_plain modEarly "early" rfl, codeStmt, ok_bind, codeBlock_plain modEarly "early" rfl,
      codeStmt, ok_bind, codeBlock_nil]
    rfl
  have hexit : codeBlock modEarly "early" [.if_ "c" [.release "b" 3, .return_ none 3] [] 3] (({} : Names).forget "b") =
      .ok (earlyExit, ({} : Names).forget "b") := by
    rw [codeBlock_plain modEarly "early" rfl, codeStmt, hbranch, ok_bind, codeBlock_nil, ok_bind]
    simp only [pure, Except.pure, ok_bind, codeBlock_nil]
    rfl
  rw [bodyCode, if_neg hsimple, early, codeBlock]
  rw [hend]
  change (bufferLowering modEarly "early" "b" "pooled" (some (.intLit 16 2)) [] 2 [] (paramNames modEarly early) >>= _) = _
  rw [hlines]
  simp only [ok_bind, List.take_succ_cons, List.take_zero, hexit, List.drop_succ_cons, List.drop_zero, codeBlock_nil]
  rfl

/-- `fn pair() { let x = acquire R(); let y = acquire R(); release y; release x; }` -/
def pair : FnItem :=
  { name := "pair", params := [], ret := none, line := 1
    body := [.let_ "x" (.acquire "R" [] 2) 2, .let_ "y" (.acquire "R" [] 3) 3, .release "y" 4, .release "x" 5] }

def modPair : Module := { name := "m", resources := [{ name := "R", members := [], line := 1 }], functions := [pair] }

def pairNames (n : String) : Bool := n == "x" || n == "y"

def inner : List Code := [.scope "y" [acquireLine modPair "y" "R" []] [releaseStmt modPair "y" "R"] []]

def pairCode : List Code := [.scope "x" [acquireLine modPair "x" "R" []] [releaseStmt modPair "x" "R"] inner]

theorem pairNames_iff {n : String} : pairNames n = true ↔ n = "x" ∨ n = "y" := by
  simp [pairNames]

theorem pair_code : bodyCode modPair pair = .ok (pairCode, (({} : Names).own "x" "R").own "y" "R") := by
  have hsimple : isSimple pair.body = true := by decide
  have hx : segment "x" [.let_ "y" (.acquire "R" [] 3) 3, .release "y" 4, .release "x" 5] =
      ([.let_ "y" (.acquire "R" [] 3) 3, .release "y" 4], []) := rfl
  have hy : segment "y" [.release "y" 4] = ([], []) := rfl
  rw [bodyCode, if_pos hsimple]
  simp [pair, pairCode, inner, codeHoist, scopeLowering, hx, hy, opened, paramNames, bind, Except.bind, pure, Except.pure]

theorem pair_stays : ¬stopsBody pair.body = true := by decide

theorem pair_opens : ∀ st ∈ pair.body, opened st = none → ∀ s ∈ iterStmt st, opened s = none := by
  simp [pair, opened, iterStmt]

end Example

open Example in
theorem emitted_alike_once : ∃ code, bodyCode modOnce once = .ok (code, ({} : Names).own "x" "R") ∧
    renderSeq onceCode indent = renderSeq code indent ∧ (tidySeq [] code = true →
      AlikeWords (Right modOnce "once") (departures (buildCfg modOnce.env once.decl).1) (waysSeq code).all) :=
  emitted_alike modOnce_accepted List.mem_cons_self modOnce_lines

open Example in
theorem once_kept : (buildCfg modOnce.env once.decl).1.ReturnsKept := by
  have hnone : ∀ blk ∈ (buildCfg modOnce.env once.decl).1.blocks, ∀ a ∈ blk.instrs, a.isReturn = false := by decide
  intro b blk i x line t hb hi
  have hreturn := hnone blk (List.mem_of_getElem? hb) _ (List.mem_of_getElem? hi)
  cases hreturn

open Example in
theorem emitted_exact_once : tidySeq [] onceCode = true ∧
    ∀ v ∈ (waysSeq onceCode).all, ∃ t ∈ departures (buildCfg modOnce.env once.decl).1,
      List.Forall₂ (Right modOnce "once") t v ∧ ((buildCfg modOnce.env once.decl).1.exec t).fault = false ∧
        ∀ i < ((buildCfg modOnce.env once.decl).1.exec t).next, ((buildCfg modOnce.env once.decl).1.exec t).gone.count i = 1 :=
  ⟨rfl, emitted_exact modOnce_accepted List.mem_cons_self once_code rfl once_kept⟩

open Example in
/-- Where the inner acquire throws, the outer scope alone is closed; where nothing does, the inner one is closed first. -/
theorem hoisted_bracketed_pair :
    Attempts.All (fun w => Bracketed (side pairNames) w ∧
      (∀ n, (w.filterMap (side pairNames)).count (n, true) = (w.filterMap (side pairNames)).count (n, false)) ∧
        ∀ n v, v <+: w.filterMap (side pairNames) → v.count (n, false) ≤ v.count (n, true)) (attemptsSeq pairCode) ∧
      (∃ w ∈ (attemptsSeq pairCode).fails, w.filterMap (side pairNames) = [("x", true), ("x", false)]) ∧
      ∃ w ∈ (attemptsSeq pairCode).falls, w.filterMap (side pairNames) = [("x", true), ("y", true),
          ("y", false), ("x", false)] := by
  refine ⟨hoisted_bracketed (by decide) (by decide) (fun l₁ st l₂ hl hs => ?_) (fun n hn => ?_) ?_ pair_code, ?_, ?_⟩
  · exact absurd (stopsBody_iff.mpr ⟨st, hl ▸ by simp, hs⟩) pair_stays
  · rcases pairNames_iff.mp hn with rfl | rfl
    · decide
    · decide
  · intro st hst ho s hs n hn
    rw [pair_opens st hst ho s hs] at hn
    cases hn
  · exact ⟨_, scope_fails _ _ _ (Or.inl (Or.inl rfl)), rfl⟩
  · exact ⟨_, scope_falls _ _ _ (scope_falls _ _ _ rfl), rfl⟩

open Example in
/-- Accepted, and cleaned up twice where it returns early: the release of the branch is emitted
    inside the scope, whose `finally` is gone through as well. -/
theorem not_tidy : checkModule 20 modEarly = .ok [] ∧ bodyCode modEarly early = .ok (earlyCode, ({} : Names).forget "b") ∧
    tidySeq [] earlyCode = false ∧
      ∃ pre fin mid, [.opens "b" pre, .closes "b" mid, .returns none, .closes "b" fin] ∈ (waysSeq earlyCode).all := by
  refine ⟨by decide, early_code, rfl, earlyLines.1, earlyLines.2, [releaseStmt modEarly "b" ""], ?_⟩
  have hexit : [.closes "b" [releaseStmt modEarly "b" ""], .returns none] ∈ (waysSeq earlyExit).leaves := by
    rw [earlyExit, waysSeq_one, ways_cond]
    refine Or.inl (Or.inr (Language.mem_mul.mpr ⟨[_], rfl, [_], Or.inl rfl, rfl⟩))
  rw [earlyCode, waysSeq_one]
  exact Or.inr (Or.inr (Language.mem_mul.mpr ⟨[_], rfl, _, Language.mem_mul.mpr ⟨_, hexit, [_], rfl, rfl⟩, rfl⟩))

end OwnNet.Emit
