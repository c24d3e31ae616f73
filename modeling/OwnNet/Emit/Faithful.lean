/-
  OwnNet.Emit.Faithful — the generator keeps the meaning of what it is given: where lowering reports
  nothing, and the code is tidy, its runs are those of the function's graph.

  Proved: `codeBlock_follows`, statement by statement; `emitted_alike`, of a function.
-/

import OwnNet.Emit.Nesting
import OwnNet.Emit.Right

namespace OwnNet.Emit

open Lang Graph Checks

/-! ## What quiet lowering has found -/

section

variable {env : Env} {fn : FnDecl} {B : Builder} {cur : Nat}

theorem lowerStmt_quiet {st : Stmt} (hB : B.Scoped) (hq : (lowerStmt env fn st cur B).1.Quiet) : B.Quiet := by
  obtain ⟨G, hl⟩ := lowerStmt_lowered env fn st cur hB
  exact hl.quiet hq

theorem lowerSeq_quiet {body : List Stmt} (hB : B.Scoped) (hq : (lowerSeq env fn body cur B).1.Quiet) : B.Quiet := by
  obtain ⟨G, hl⟩ := lowerSeq_lowered env fn body cur hB
  exact hl.quiet hq

theorem lowerOwned_quiet {var : String} {line : Int} {cannot : String} {mk : Symbol → Instr}
    (hq : (lowerOwned var line cannot mk cur B).Quiet) :
    ∃ s, B.visible var = some s ∧ s.kind = .owned ∧ lowerOwned var line cannot mk cur B = B.emit cur (mk s) := by
  unfold lowerOwned at hq ⊢
  dsimp only at hq ⊢
  have hfound : (B.lookup var line).1.Quiet := by
    split at hq
    · exact hq
    · split at hq
      · exact hq.of_report.elim
      · exact hq
  obtain ⟨s, hv, hlook⟩ := hfound.lookup
  simp only [hlook] at hq ⊢
  by_cases hk : s.kind ≠ .owned
  · rw [if_pos hk] at hq
    exact hq.of_report.elim
  · rw [if_neg hk]
    exact ⟨s, hv, not_not.mp hk, rfl⟩

/-- The symbol of a buffer. -/
def bufferSymbol (name : String) (line : Int) (info : BufferInfo) (bline col : Int) (id : Nat) : Symbol :=
  { id := id, name := name, kind := .owned, defLine := line, buffer := some info, origin := some s!"{name}#{bline}:{col}" }

theorem lowerBuffer_quiet {name : String} {line : Int} {mode : String} {size : Option Expr} {options : List (String × Expr)}
    {bline : Int} {ns : String} {col : Int} {dups : List String}
    (hq : (lowerBuffer env name line mode size options bline ns col dups cur B).Quiet) :
    ∃ m info, BufferMode.parse mode = some m ∧
      info = (resolve m size options dups bline env.policies).1 ∧ (B.declare (bufferSymbol name line info bline col)).1.Quiet ∧
      lowerBuffer env name line mode size options bline ns col dups cur B =
        (B.declare (bufferSymbol name line info bline col)).1.emit cur
          (.acquireBuffer (bufferSymbol name line info bline col B.nextSym) info line) := by
  unfold lowerBuffer at hq ⊢
  dsimp only at hq ⊢
  by_cases hns : ns ≠ "Buffer"
  · rw [if_pos hns] at hq
    exact hq.declare.1.of_report.elim
  · rw [if_neg hns] at hq ⊢
    cases hm : BufferMode.parse mode with
    | none =>
      rw [hm] at hq
      exact hq.declare.1.of_report.elim
    | some m =>
      rw [hm] at hq
      dsimp only at hq ⊢
      have hopen : Reports B { checkSize name size bline B with
          diags := (checkSize name size bline B).diags ++ (resolve m size options dups bline env.policies).2 } :=
        (checkSize_reports name size bline B).trans ⟨_, rfl⟩
      have hdecl : (Builder.declare { checkSize name size bline B with
          diags := (checkSize name size bline B).diags ++ (resolve m size options dups bline env.policies).2 }
          (bufferSymbol name line (resolve m size options dups bline env.policies).1 bline col)).1.Quiet := hq
      have hsame := hdecl.declare.1.of_reports hopen
      rw [hsame] at hq ⊢
      exact ⟨m, _, rfl, rfl, hq, rfl⟩

/-- Every name among the arguments is in scope. -/
theorem resolveArgs_quiet {args : List (Expr × Effect)} (hnamed : ∀ n s, B.visible n = some s → s.name = n)
    (hq : (resolveArgs args B).1.Quiet) : (resolveArgs args B).1 = B ∧
      List.Forall₂ (fun a text => ∀ s ∈ a.1, text = s.name) (resolveArgs args B).2 (args.map fun a => arg a.1) := by
  induction args with
  | nil => exact ⟨rfl, .nil⟩
  | cons a rest ih =>
    obtain ⟨e, eff⟩ := a
    cases e with
    | varRef name line =>
      have hr : Reports (B.lookup name line).1 (resolveArgs rest (B.lookup name line).1).1 := (resolveArgs_spec rest _).1
      have hq' : (resolveArgs rest (B.lookup name line).1).1.Quiet := hq
      have hfound : (B.lookup name line).1.Quiet := by
        rw [← hq'.of_reports hr]
        exact hq'
      obtain ⟨s, hv, hlook⟩ := hfound.lookup
      rw [hlook] at hq'
      obtain ⟨hsame, hall⟩ := ih hq'
      simp only [resolveArgs, hlook]
      refine ⟨hsame, .cons (fun t ht => ?_) hall⟩
      cases ht
      exact (hnamed name s hv).symm
    | _ =>
      obtain ⟨hsame, hall⟩ := ih hq
      exact ⟨hsame, .cons (fun t ht => by cases ht) hall⟩

theorem returned_named {var : Option String} {line : Int} (hnamed : ∀ n s, B.visible n = some s → s.name = n) :
    ∀ s ∈ (returned env fn var line B).2, var = some s.name := by
  have hfound : ∀ v s, (B.lookup v line).2 = some s → s.name = v := by
    intro v s hs
    unfold Builder.lookup at hs
    split at hs
    next t hv =>
      cases hs
      exact hnamed v s hv
    next => cases hs
  have hnone : ∀ s ∈ (none : Option Symbol), var = some s.name := fun s hs => by cases hs
  unfold returned
  split
  · exact hnone
  · exact hnone
  next v _ =>
    dsimp only
    split
    · exact fun s hs => by cases hs
    · exact fun s hs => by cases hs
  next v ret _ =>
    dsimp only
    split
    · exact fun s hs => by cases hs
    next sym hsym =>
      have hsome : ∀ s ∈ some sym, some v = some s.name := fun s hs => by
        cases hs
        rw [hfound v sym hsym]
      have hno : ∀ s ∈ (none : Option Symbol), some v = some s.name := fun s hs => by cases hs
      split
      · exact hno
      · split
        · split
          · exact hno
          · exact hsome
        · split
          · exact hno
          · exact hsome

end

/-! ## The checker's policies and the generator's -/

theorem policyBase_policies (mod : Module) (opts : List (String × Expr)) (line : Int) :
    policyBase opts (policies mod) line = policyBase opts mod.policyTable line := by
  have hentry : ∀ name, (entry (policies mod) name).map Policy.settings = (entry mod.policyTable name).map Policy.settings := by
    intro name
    unfold policies Module.policyTable entry
    rw [Dict.latest_map, List.find?_map]
    simp only [Option.map_map, Function.comp_def]
  unfold policyBase
  split
  · rfl
  · split
    · rfl
    next name _ =>
      have h := hentry name
      cases hp : entry (policies mod) name with
      | none =>
        rw [hp, Option.map_none, eq_comm, Option.map_eq_none_iff] at h
        rw [h]
      | some p =>
        rw [hp, Option.map_some, eq_comm, Option.map_eq_some_iff] at h
        obtain ⟨p', hp', hs⟩ := h
        simp only [hp', hs]

/-- Both resolve a buffer to the same. -/
theorem resolve_policies (mod : Module) (m : BufferMode) (size : Option Expr) (opts : List (String × Expr)) (dups : List String)
    (line : Int) : resolve m size opts dups line (policies mod) = resolve m size opts dups line mod.policyTable := by
  unfold resolve
  rw [policyBase_policies]

/-! ## Statements -/

section

variable {mod : Module} {fn : String} {E : List String} {σ σ' : Names} {B B₀ : Builder} {cur : Nat}

/-- A declaration that nothing starts. -/
theorem Follows.bare {mk : Nat → Symbol} (hcur : cur < B.blocks.length) (hu : B.Unlinked cur) (h : Reads fn E σ B)
    (hq : (B.declare mk).1.Quiet) (ha : ∀ n, n ≠ (mk B.nextSym).name → σ.Agrees σ' n) (hnew : Knows fn E σ' (mk B.nextSym))
    (lines : List String) : Follows mod fn E σ B cur [.step [] lines] σ' (B.declare mk).1 (some cur) := by
  obtain ⟨hreads, hkeeps⟩ := h.declare hq (fun _ hn => hn) (fun _ hn => Or.inr hn) ha hnew
  exact .step hcur hu lines (.nothing (Builder.declare_blocks B mk))
    (fun ins hins => absurd hins List.not_mem_nil) .nil hreads hkeeps

/-- A declaration that an instruction starts. -/
theorem Follows.define {mk : Nat → Symbol} (hcur : cur < B.blocks.length) (hu : B.Unlinked cur) (h : Reads fn E σ B)
    (hq : (B.declare mk).1.Quiet) (ha : ∀ n, n ≠ (mk B.nextSym).name → σ.Agrees σ' n) (hnew : Knows fn E σ' (mk B.nextSym))
    {ins : Instr} {act : Act} (hret : ins.isReturn = false) (hr : Right mod fn ins act) (lines : List String) :
    Follows mod fn E σ B cur [.step [act] lines] σ' ((B.declare mk).1.emit cur ins) (some cur) := by
  obtain ⟨hreads, hkeeps⟩ := h.declare hq (fun _ hn => hn) (fun _ hn => Or.inr hn) ha hnew
  refine .step hcur hu lines (.emit (Builder.declare_blocks B mk) ins) (fun x hx => ?_) (.cons hr .nil) (hreads.of_scopes rfl)
    (hkeeps.trans (.of_scopes rfl))
  rw [List.mem_singleton.mp hx]
  exact hret

/-- An instruction that declares nothing. -/
theorem Follows.act (hcur : cur < B.blocks.length) (hu : B.Unlinked cur) (h : Reads fn E σ B) {ins : Instr} {act : Act}
    (hret : ins.isReturn = false) (hr : Right mod fn ins act) (lines : List String) :
    Follows mod fn E σ B cur [.step [act] lines] σ (B.emit cur ins) (some cur) := by
  refine .step hcur hu lines (.emit rfl ins) (fun x hx => ?_) (.cons hr .nil) (h.of_scopes rfl) (.of_scopes rfl)
  rw [List.mem_singleton.mp hx]
  exact hret

/-- A symbol that takes over what another is: its storage, its type, and the pending cleanup. -/
theorem Knows.over {s src : Symbol} {name var : String} (h : Knows fn E σ src) (hsrc : src.name = var) (hk : src.kind = .owned)
    (hE : var ∉ E) (hname : s.name = name) (hne : var ≠ name) (hbuffer : s.buffer = src.buffer)
    (htype : s.typeName = src.typeName) (horigin : s.origin = src.origin) :
    Knows fn E (((σ.forget name).carry name var).own name (σ.resource var)) s := by
  have hcleanup : (((σ.forget name).carry name var).own name (σ.resource var)).bufferCleanup.get?
      name = σ.bufferCleanup.get? var := by
    show ((σ.forget name).carry name var).bufferCleanup.get? name = _
    rw [Names.cleanup_carry, if_pos rfl, Names.cleanup_forget, if_neg hne, Names.cleanup_forget, if_pos rfl, Option.or_none]
  refine ⟨fun _ _ hb => ?_, fun _ info hb => ?_⟩
  · obtain ⟨ht, hno⟩ := h.typed (by rwa [hsrc]) hk (hbuffer ▸ hb)
    rw [hsrc] at ht hno
    rw [hname, hcleanup, Names.resource_own, if_pos rfl, htype, ht]
    exact ⟨rfl, hno⟩
  · obtain ⟨first, line, col, ho, hlines⟩ := h.buffered (by rwa [hsrc]) info (hbuffer ▸ hb)
    rw [hsrc] at hlines
    rw [hname, hcleanup, horigin]
    exact ⟨first, line, col, ho, hlines⟩

theorem agrees_over {name var r : String} :
    ∀ n, n ≠ name → σ.Agrees (((σ.forget name).carry name var).own name r) n := fun _ hn =>
  ((Names.agrees_forget σ name hn).trans (Names.agrees_carry (σ.forget name) name var hn)).trans
    (Names.agrees_own ((σ.forget name).carry name var) name r hn)

theorem lowerLet_follows (hcur : cur < B.blocks.length) (hu : B.Unlinked cur) (h : Reads fn E σ B)
    {name : String} {rhs : Expr} {line : Int}
    {r : String × Names} (hr : letInline mod name rhs σ = .ok r) (ht : (Code.step (letActs name rhs r.1) [r.1]).tidy E = true)
    (hq : (lowerLet mod.env name rhs line cur B).Quiet) :
    Follows mod fn E σ B cur [.step (letActs name rhs r.1) [r.1]] r.2 (lowerLet mod.env name rhs line cur B) (some cur) := by
  have hforget : ∀ n, n ≠ name → σ.Agrees (σ.forget name) n := fun n hn => Names.agrees_forget σ name hn
  cases rhs with
  | acquire resource args rline =>
    cases hr
    simp only [lowerLet] at hq ⊢
    have hsame := hq.of_emit.declare.1.of_reports (resource_reports mod.env resource rline B)
    rw [hsame] at hq ⊢
    change Follows mod fn E σ B cur [.step [.opens name [acquireLine mod name resource args]]
      [acquireLine mod name resource args]] _ _ _
    refine .define hcur hu h hq.of_emit (fun n hn => (hforget n hn).trans (Names.agrees_own _ name resource hn))
      ⟨fun _ _ _ => ?_, fun _ info hb => ?_⟩ rfl ?_ _
    · rw [Names.resource_own, if_pos rfl]
      exact ⟨rfl, (Names.cleanup_forget σ name name).trans (if_pos rfl)⟩
    · cases hb
    · exact .acquire
  | buffer => cases hr
  | move var rline =>
    cases hr
    simp only [lowerLet] at hq ⊢
    have hfound : (B.lookup var rline).1.Quiet := by
      split at hq
      · exact hq.declare.1
      · split at hq
        · exact hq.declare.1.of_report.elim
        · exact hq.of_emit.declare.1
    obtain ⟨src, hv, hlook⟩ := hfound.lookup
    simp only [hlook] at hq ⊢
    by_cases hk : src.kind ≠ .owned
    · rw [if_pos hk] at hq
      exact hq.declare.1.of_report.elim
    · rw [if_neg hk] at hq ⊢
      obtain ⟨hname, hknown⟩ := h.known var src hv
      have hfresh : B.visible name = none := hq.of_emit.declare.2
      have hne : var ≠ name := by
        rintro rfl
        rw [hfresh] at hv
        cases hv
      have hE : var ∉ E := by simpa [Code.tidy, letActs, Act.hands] using ht
      have hacts : letActs name (.move var rline) s!"var {name} = {var}; // ownership moved from {var}" = [.moves
          name src.name] := by
        rw [hname]
        rfl
      rw [hacts]
      refine .define hcur hu h hq.of_emit agrees_over (hknown.over hname (not_not.mp hk) hE rfl hne rfl rfl rfl) rfl ?_ _
      exact .moveInto
  | varRef var rline =>
    cases hr
    simp only [lowerLet] at hq ⊢
    have hsame := hq.declare.1.of_reports (B := B) (by
      have hl := Reports.lookup B var rline
      split
      · exact hl
      · split
        · exact hl.trans (Reports.one _ _ _ _)
        · exact hl)
    rw [hsame] at hq ⊢
    exact .bare hcur hu h hq hforget (.of_not_owned (fun hk => by cases hk) rfl) _
  | intLit value iline =>
    cases hr
    exact .bare hcur hu h hq hforget (.of_not_owned (fun hk => by cases hk) rfl) _

theorem lowerAliasJoin_follows (hcur : cur < B.blocks.length) (hu : B.Unlinked cur) (h : Reads fn E σ B)
    {name src : String} {line : Int}
    (hE : src ∉ E) (hq : (lowerAliasJoin name src line cur B).Quiet) :
    Follows mod fn E σ B cur [.step [.joins name src] [aliasLine name src]] (aliasJoin name src σ)
      (lowerAliasJoin name src line cur B)
      (some cur) := by
  simp only [lowerAliasJoin] at hq ⊢
  have hfound : (B.lookup src line).1.Quiet := by
    split at hq
    · exact hq.declare.1
    · split at hq
      · exact hq.declare.1.of_report.elim
      · exact hq.of_emit.declare.1
  obtain ⟨s, hv, hlook⟩ := hfound.lookup
  simp only [hlook] at hq ⊢
  by_cases hk : s.kind ≠ .owned
  · rw [if_pos hk] at hq
    exact hq.declare.1.of_report.elim
  · rw [if_neg hk] at hq ⊢
    obtain ⟨hname, hknown⟩ := h.known src s hv
    have hfresh : B.visible name = none := hq.of_emit.declare.2
    have hne : src ≠ name := by
      rintro rfl
      rw [hfresh] at hv
      cases hv
    have hact : Act.joins name src = .joins name s.name := by rw [hname]
    rw [hact]
    refine .define hcur hu h hq.of_emit agrees_over (hknown.over hname (not_not.mp hk) hE rfl hne rfl rfl rfl) rfl ?_ _
    exact .aliasJoin

theorem lowerUse_follows (hcur : cur < B.blocks.length) (hu : B.Unlinked cur) (h : Reads fn E σ B) {var : String} {line : Int}
    (hq : (lowerUse var line cur B).Quiet) :
    Follows mod fn E σ B cur [.step [.uses var] [useLine var]] σ (lowerUse var line cur B) (some cur) := by
  simp only [lowerUse] at hq ⊢
  have hfound : (B.lookup var line).1.Quiet := by
    split at hq
    · exact hq
    · exact hq
  obtain ⟨s, hv, hlook⟩ := hfound.lookup
  simp only [hlook]
  have hr : Right mod fn (.use s line) (.uses var) := (h.known var s hv).1 ▸ .use
  exact .act hcur hu h rfl hr _

theorem lowerCall_follows (hcur : cur < B.blocks.length) (hu : B.Unlinked cur) (h : Reads fn E σ B)
    {callee : String} {args : List Expr}
    {line : Int} (hq : (lowerCall mod.env callee args line cur B).Quiet) :
    Follows mod fn E σ B cur [.step [.calls callee (args.map arg)] [callLine callee args]] σ
      (lowerCall mod.env callee args line cur B)
      (some cur) := by
  have hlooked : ∀ {c : Lang.Code} {m : String}, (lookupArgs args (B.report c m line)).Quiet → False := fun hq =>
    (hq.of_reports (lookupArgs_reports args _) ▸ hq).of_report
  unfold lowerCall at hq ⊢
  cases hsig : entry mod.env.signatures callee with
  | none =>
    rw [hsig] at hq
    exact (hlooked hq).elim
  | some effects =>
    simp only [hsig] at hq
    by_cases hlen : args.length ≠ effects.length
    · rw [if_pos hlen] at hq
      exact (hlooked hq).elim
    · dsimp only
      rw [if_neg hlen] at hq ⊢
      have hqargs : (resolveArgs (args.zip effects) B).1.Quiet := hq
      obtain ⟨hsame, hall⟩ := resolveArgs_quiet (fun n s hs => (h.known n s hs).1) hqargs
      have hargs : ((args.zip effects).map fun a => arg a.1) = args.map arg := by
        rw [show (fun a : Expr × Effect => arg a.1) = arg ∘ Prod.fst from rfl, ← List.map_map,
          List.map_fst_zip (by omega)]
      rw [hargs] at hall
      rw [hsame]
      exact .act hcur hu h rfl (.invoke hall) _

end

/-! ## Bodies -/

section

variable {mod : Module} {fn : String}

/-- A statement is never without code. -/
theorem codeBlock_empty {stmts : List Stmt} {σ σ' : Names} (h : codeBlock mod fn stmts σ = .ok ([], σ')) :
    stmts = [] ∧ σ' = σ := by
  match stmts with
  | [] =>
    rw [codeBlock_nil] at h
    cases h
    exact ⟨rfl, rfl⟩
  | st :: rest =>
    cases hb : isBuffer st with
    | false =>
      rw [codeBlock_plain mod fn hb] at h
      obtain ⟨s, -, h⟩ := bind_ok.mp h
      obtain ⟨more, -, h⟩ := bind_ok.mp h
      cases h
    | true =>
      match st with
      | .let_ name (.buffer mode size options bline ns col dups) line =>
        rw [codeBlock] at h
        cases hend : scopeEnd rest name with
        | some j =>
          simp only [hend] at h
          obtain ⟨b, -, h⟩ := bind_ok.mp h
          obtain ⟨body, -, h⟩ := bind_ok.mp h
          obtain ⟨more, -, h⟩ := bind_ok.mp h
          cases h
        | none =>
          simp only [hend] at h
          split at h
          · obtain ⟨b, -, h⟩ := bind_ok.mp h
            obtain ⟨more, -, h⟩ := bind_ok.mp h
            cases h
          · cases h

theorem release_of_isRelease {name : String} {st : Stmt} (h : isRelease name st = true) : ∃ line, st = .release name line := by
  cases st with
  | release var line => exact ⟨line, by rw [of_decide_eq_true h]⟩
  | _ => cases h

/-- The generator opens a buffer as it has been lowered. -/
theorem bufferLowering_ok {name mode : String} {size : Option Expr} {options : List (String × Expr)}
    {line : Int} {dups : List String}
    {σ : Names} {m : BufferMode} (hm : BufferMode.parse mode = some m) :
    bufferLowering mod fn name mode size options line dups σ =
      .ok (bufferLines fn name (resolve m size options dups line mod.env.policies).1, σ.forget name) := by
  unfold bufferLowering
  rw [hm]
  dsimp only
  rw [resolve_policies]
  rfl

end

section

variable {mod : Module} {fn : FnDecl} {E : List String} {σ σ₀ σ₁ : Names} {B B₀ : Builder} {cur : Nat}

/-- A buffer is opened with the lines of the symbol it is lowered to. -/
theorem lowerBuffer_opened {name mode : String} {size : Option Expr} {options : List (String × Expr)} {bline : Int}
    {ns : String} {col : Int}
    {dups : List String} {line : Int} (hcur : cur < B.blocks.length) (hu : B.Unlinked cur) (h : Reads fn.name E σ B)
    (hq : (lowerBuffer mod.env name line mode size options bline ns col dups cur B).Quiet) :
    ∃ info sym, bufferLowering mod fn.name name mode size options bline dups σ = .ok
      (bufferLines fn.name name info, σ.forget name) ∧
      Opened mod fn.name E σ B cur (.acquireBuffer sym info line) (σ.forget name)
        (lowerBuffer mod.env name line mode size options bline ns col dups cur B)
        name sym (bufferLines fn.name name info).1 (bufferLines fn.name name info).2 ∧
      Follows mod fn.name E σ B cur [.step [.opens name (bufferLines fn.name name info).1] (bufferLines fn.name name info).1]
        { (σ.forget name) with bufferCleanup := (σ.forget name).bufferCleanup.set name (bufferLines fn.name name info).2 }
        (lowerBuffer mod.env name line mode size options bline ns col dups cur B) (some cur) := by
  obtain ⟨m, info, hm, hinfo, hqdecl, hlow⟩ := lowerBuffer_quiet hq
  have hopens : Right mod fn.name (.acquireBuffer (bufferSymbol name line info bline col B.nextSym) info line)
      (.opens name (bufferLines fn.name name info).1) := .acquireBuffer
  have hforget : ∀ n, n ≠ name → σ.Agrees (σ.forget name) n := fun n hn => Names.agrees_forget σ name hn
  have hguarded : Reads fn.name (name :: E) (σ.forget name) (B.declare (bufferSymbol name line info bline col)).1 ∧
      Keeps B σ (B.declare (bufferSymbol name line info bline col)).1 (σ.forget name) :=
    h.declare hqdecl (List.subset_cons_self _ _) (fun n hn => List.mem_cons.mp hn) hforget (.of_guarded List.mem_cons_self)
  rw [hlow]
  refine ⟨info, bufferSymbol name line info bline col B.nextSym, by rw [bufferLowering_ok hm, hinfo], ?_, ?_⟩
  · refine ⟨.emit (Builder.declare_blocks _ _) _, hopens, fun _ => .release (.buffer rfl rfl), ?_, hguarded.1.of_scopes rfl,
      hguarded.2.trans (.of_scopes rfl)⟩
    exact (Builder.visible_declare _ _ _).trans (if_pos rfl)
  · have hset : ∀ n, n ≠ name → (σ.forget name).Agrees
        { (σ.forget name) with bufferCleanup := (σ.forget name).bufferCleanup.set name (bufferLines fn.name name info).2 } n :=
      fun n hn => ⟨rfl, Dict.get?_set_of_ne _ _ hn⟩
    refine .define hcur hu h hqdecl (fun n hn => (hforget n hn).trans (hset n hn)) ⟨fun _ _ hno => (by cases hno),
      fun _ i hi => ?_⟩ rfl hopens _
    cases hi
    exact ⟨name, bline, col, rfl, Dict.get?_set_self _ _ _⟩

/-- So is a resource. -/
theorem lowerAcquire_opened {name resource : String} {args : List Expr} {rline line : Int} (h : Reads fn.name E σ B)
    (hq : (lowerLet mod.env name (.acquire resource args rline) line cur B).Quiet) : ∃ sym,
      Opened mod fn.name E σ B cur (.acquire sym resource line) (σ.own name resource)
        (lowerLet mod.env name (.acquire resource args rline) line cur B)
        name sym [acquireLine mod name resource args] [releaseStmt mod name resource] := by
  simp only [lowerLet] at hq ⊢
  have hsame := hq.of_emit.declare.1.of_reports (resource_reports mod.env resource rline B)
  rw [hsame] at hq ⊢
  let mk : Nat → Symbol := fun id =>
    { id := id, name := name, kind := .owned, defLine := line, typeName := some resource,
      resourceKind := entry mod.env.resourceKinds resource, origin := some s!"{name}#{rline}" }
  have hguarded : Reads fn.name (name :: E) (σ.own name resource) (B.declare mk).1 ∧
      Keeps B σ (B.declare mk).1 (σ.own name resource) :=
    h.declare hq.of_emit (List.subset_cons_self _ _) (fun n hn => List.mem_cons.mp hn)
      (fun n hn => Names.agrees_own σ name resource hn)
      (.of_guarded List.mem_cons_self)
  refine ⟨mk B.nextSym, .emit (Builder.declare_blocks _ _) _, .acquire, fun _ => .release (.resource rfl rfl),
    ?_, hguarded.1.of_scopes rfl,
    hguarded.2.trans (.of_scopes rfl)⟩
  exact (Builder.visible_declare B mk name).trans (if_pos rfl)

/-- A scope, from its opening to the release that ends it. -/
theorem scope_follows {name : String} {pre fin : List String} {sym : Symbol} {ins : Instr} {body tail : List Stmt}
    {rline : Int} {code : List Code}
    (hB₀ : B₀.Scoped) (hcur : cur < B.blocks.length) (hu : B.Unlinked cur)
    (ho : Opened mod fn.name E σ B cur ins σ₀ B₀ name sym pre fin) (hstay : returnsSeq code = false)
    (hbody : (lowerSeq mod.env fn body cur B₀).1.Quiet → Follows mod fn.name (name :: E) σ₀ B₀ cur code σ₁
      (lowerSeq mod.env fn body cur B₀).1 (lowerSeq mod.env fn body cur B₀).2)
    (hq : (lowerSeq mod.env fn (body ++ .release name rline :: tail) cur B₀).1.Quiet) : ∃ c B₂, B₂.Scoped ∧
      Follows mod fn.name E σ B cur [.scope name pre fin code] σ₁ B₂ (some c) ∧
      lowerSeq mod.env fn (body ++ .release name rline :: tail) cur B₀ = lowerSeq mod.env fn tail c B₂ := by
  have hB₁ := (lowerSeq_lowers mod.env fn body cur hB₀).scoped hB₀
  rw [lowerSeq_append] at hq ⊢
  cases hout : (lowerSeq mod.env fn body cur B₀).2 with
  | none =>
    -- a body without a `return` goes on
    rw [hout] at hq hbody
    have hret := returnsSeq_of_stops code ((hbody hq).stops rfl)
    rw [hstay] at hret
    cases hret
  | some c =>
    rw [hout] at hq hbody
    simp only [lowerSeq, lowerStmt] at hq ⊢
    have hB₂ := (lowerStmt_lowers mod.env fn (.release name rline) c hB₁).scoped hB₁
    obtain ⟨s, hv, hk, hlow⟩ := lowerOwned_quiet (lowerSeq_quiet hB₂ hq)
    have hqrel : (lowerStmt mod.env fn (.release name rline) c (lowerSeq mod.env fn body cur B₀).1).1.Quiet :=
      lowerSeq_quiet hB₂ hq
    have hin := hbody (lowerStmt_quiet hB₁ hqrel)
    rw [(hin.keeps name sym ho.visible).1] at hv
    cases hv
    refine ⟨c, _, hB₂, ?_, rfl⟩
    simp only [lowerStmt, hlow]
    exact .scope hcur hu ho hin hstay

end

section

variable (mod : Module) (fn : FnDecl)

mutual

theorem codeStmt_follows (st : Stmt) (cur : Nat) {B : Builder} {E : List String} {σ σ' : Names} {c : Code} (hB : B.Scoped)
    (hcur : cur < B.blocks.length) (hu : B.Unlinked cur) (h : Reads fn.name E σ B)
    (hcode : codeStmt mod fn.name st σ = .ok (c, σ'))
    (ht : c.tidy E = true) (hq : (lowerStmt mod.env fn st cur B).1.Quiet) :
    Follows mod fn.name E σ B cur [c] σ' (lowerStmt mod.env fn st cur B).1 (lowerStmt mod.env fn st cur B).2 := by
  cases st with
  | let_ name rhs line =>
    rw [codeStmt] at hcode
    obtain ⟨r, hr, hcode⟩ := bind_ok.mp hcode
    cases hcode
    exact lowerLet_follows hcur hu h hr ht hq
  | release var line =>
    rw [codeStmt] at hcode
    cases hcode
    obtain ⟨s, hv, hk, hlow⟩ := lowerOwned_quiet hq
    have hE : var ∉ E := by simpa [Code.tidy, Act.hands] using ht
    obtain ⟨rfl, hknown⟩ := h.known var s hv
    simp only [lowerStmt, hlow]
    exact .act hcur hu h rfl (.release (hknown.cleans hk hE)) _
  | use var line =>
    rw [codeStmt] at hcode
    cases hcode
    exact lowerUse_follows hcur hu h hq
  | overspan var line =>
    rw [codeStmt] at hcode
    cases hcode
    obtain ⟨s, hv, hk, hlow⟩ := lowerOwned_quiet hq
    obtain ⟨rfl, -⟩ := h.known var s hv
    simp only [lowerStmt, hlow]
    exact .act hcur hu h rfl .overspan _
  | call callee args line =>
    rw [codeStmt] at hcode
    cases hcode
    exact lowerCall_follows hcur hu h hq
  | aliasJoin name src line =>
    rw [codeStmt] at hcode
    cases hcode
    exact lowerAliasJoin_follows hcur hu h (by simpa [Code.tidy, Act.hands] using ht) hq
  | borrowBlock owner binding kind body line =>
    rw [codeStmt] at hcode
    obtain ⟨b, hb, hcode⟩ := bind_ok.mp hcode
    cases hcode
    have hs := lowerStmt_spans mod.env fn (.borrowBlock owner binding kind body line) hB hcur hu
    have hfound : (B.lookup owner line).1.Quiet := by
      rcases B.lookup_cases owner line with ⟨o, ho, -⟩ | ⟨d, ho⟩
      · rw [ho]
        exact lowerStmt_quiet hB hq
      · simp only [lowerStmt, ho] at hq
        rw [ho]
        exact hq
    simp only [lowerStmt] at hq hs ⊢
    obtain ⟨o, hv, hlook⟩ := hfound.lookup
    obtain ⟨rfl, -⟩ := h.known owner o hv
    simp only [hlook] at hq hs ⊢
    by_cases hk : o.kind ≠ .owned
    · rw [if_pos hk] at hq
      exact hq.of_report.elim
    · rw [if_neg hk] at hq hs ⊢
      rw [Builder.Quiet, Builder.closeBorrow_diags] at hq
      let mk : Nat → Symbol := fun id =>
        { id := id, name := binding, kind := .borrow, defLine := line, borrowIsMut := some (kind = .mut) }
      let open_ := (B.pushScope.declare mk).1.emit cur (.borrowStart o (mk B.nextSym) (kind = .mut) line)
      have hopen : open_.Scoped := (@Builder.Scoped.declare _ mk hB.push rfl).of_eq rfl (le_refl _)
      have hqopen : (B.pushScope.declare mk).1.Quiet := Builder.Quiet.of_emit (lowerSeq_quiet hopen hq)
      have hcur' : cur < open_.blocks.length := by
        rw [Builder.emit_length, Builder.declare_blocks]
        exact hcur
      have hu' : open_.Unlinked cur := (Appends.emit (Builder.declare_blocks B.pushScope mk) _).unlinked hu
      have hreads : Reads fn.name E σ open_ :=
        (h.push.declare hqopen (fun _ hn => hn) (fun _ hn => Or.inr hn) (fun n _ =>
          .refl σ n) (.of_not_owned (fun hk => by cases hk) rfl)).1.of_scopes rfl
      have hpop : (lowerSeq mod.env fn body cur open_).1.scopes.tail = B.scopes := by
        obtain ⟨G, hl⟩ := lowerSeq_lowered mod.env fn body cur hopen
        have hscopes : open_.scopes = [((mk B.nextSym).name, mk B.nextSym)] :: B.scopes := by
          rw [Builder.emit_scopes, Builder.declare_scopes]
          rfl
        exact hl.pop hscopes
      exact .borrow mk hcur hu h hqopen hpop hs (codeBlock_follows body cur hopen hcur' hu' hreads hb ht hq) _ _
  | if_ cond thenBody elseBody line =>
    rw [codeStmt] at hcode
    obtain ⟨t, htcode, hcode⟩ := bind_ok.mp hcode
    obtain ⟨e, hecode, hcode⟩ := bind_ok.mp hcode
    cases hcode
    obtain ⟨htt, hte⟩ := Bool.and_eq_true_iff.mp ht
    have hs := lowerStmt_spans mod.env fn (.if_ cond thenBody elseBody line) hB hcur hu
    have hB₁ : (B.fork cur).pushScope.Scoped := (show (B.fork cur).Scoped from hB.of_eq rfl (le_refl _)).push
    obtain ⟨G₁, hl₁⟩ := lowerSeq_lowered mod.env fn thenBody B.blocks.length hB₁
    have hpop₁ : (lowerSeq mod.env fn thenBody B.blocks.length (B.fork cur).pushScope).1.popScope.scopes = B.scopes := hl₁.pop rfl
    have hB₂ := ((lowerSeq_lowers mod.env fn thenBody B.blocks.length hB₁).pop hB rfl (le_refl _)).push
    simp only [lowerStmt] at hq hs ⊢
    rw [Builder.Quiet, Builder.merge_diags] at hq
    have hq₁ := lowerSeq_quiet hB₂ hq
    obtain ⟨l₁, hget₁⟩ := Builder.fork_get_new hcur (Or.inl rfl)
    have s₁ := lowerSeq_spans mod.env fn thenBody hB₁ (Builder.lt_of_get hget₁) (unlinked_new hget₁)
    obtain ⟨l₂, hget₂⟩ := s₁.else_ hcur
    have h₁ := codeBlock_follows thenBody _ hB₁ s₁.here s₁.unlinked (h.push.of_scopes rfl) htcode htt hq₁
    have hreads₂ : Reads fn.name E t.2 (lowerSeq mod.env fn thenBody B.blocks.length (B.fork cur).pushScope).1.popScope := by
      refine h.after (fun n => Builder.visible_congr hpop₁ n) fun n s hn => (h₁.keeps n s ?_).2
      rw [Builder.visible_pushScope, Builder.visible_congr (B.fork_scopes cur), hn]
    obtain ⟨G₂, hl₂⟩ := lowerSeq_lowered mod.env fn elseBody (B.blocks.length + 1) hB₂
    exact .branch hcur hu h hpop₁ ((hl₂.pop rfl).trans hpop₁) hs h₁
      (codeBlock_follows elseBody _ hB₂ (Builder.lt_of_get hget₂) (unlinked_new hget₂) hreads₂.push hecode hte hq) _ _
  | while_ cond body line =>
    rw [codeStmt] at hcode
    obtain ⟨b, hb, hcode⟩ := bind_ok.mp hcode
    cases hcode
    have hs := lowerStmt_spans mod.env fn (.while_ cond body line) hB hcur hu
    have hB₁ : (B.openLoop cur).pushScope.Scoped := (show (B.openLoop cur).Scoped from hB.of_eq rfl (le_refl _)).push
    obtain ⟨G, hl⟩ := lowerSeq_lowered mod.env fn body (B.blocks.length + 1) hB₁
    simp only [lowerStmt] at hq hs ⊢
    rw [Builder.Quiet, Builder.linkIf_diags] at hq
    obtain ⟨l, hget⟩ := Builder.openLoop_get_new hcur (Or.inl rfl)
    exact .loop hcur hu h (hl.pop rfl) hs
      (codeBlock_follows body _ hB₁ (Builder.lt_of_get hget) (unlinked_new hget) (h.push.of_scopes rfl) hb ht hq) _
  | return_ var line =>
    rw [codeStmt] at hcode
    cases hcode
    have hs := lowerStmt_spans mod.env fn (.return_ var line) hB hcur hu
    simp only [lowerStmt] at hq hs ⊢
    have hq' : (returned mod.env fn var line B).1.Quiet := hq
    have hsame := hq'.of_reports (returned_spec mod.env fn var line B).1
    rw [hsame] at hs ⊢
    exact .leave hcur hu (.ret rfl hu _) (returned_named fun n s hn => (h.known n s hn).1) hs h rfl
  | subscribe source line =>
    rw [codeStmt] at hcode
    cases hcode
    exact .step hcur hu _ (.nothing rfl) (fun ins hins => absurd hins List.not_mem_nil) .nil h (.of_scopes rfl)
termination_by sizeOf st

theorem codeBlock_follows (stmts : List Stmt) (cur : Nat) {B : Builder} {E : List String} {σ σ' : Names}
    {code : List Code} (hB : B.Scoped)
    (hcur : cur < B.blocks.length) (hu : B.Unlinked cur) (h : Reads fn.name E σ B)
    (hcode : codeBlock mod fn.name stmts σ = .ok (code, σ')) (ht : tidySeq E code = true)
    (hq : (lowerSeq mod.env fn stmts cur B).1.Quiet) :
    Follows mod fn.name E σ B cur code σ' (lowerSeq mod.env fn stmts cur B).1 (lowerSeq mod.env fn stmts cur B).2 := by
  match stmts with
  | [] =>
    rw [codeBlock_nil] at hcode
    cases hcode
    exact .nil hcur hu h
  | st :: rest =>
    have hB₁ := (lowerStmt_lowers mod.env fn st cur hB).scoped hB
    cases hb : isBuffer st with
    | false =>
      rw [codeBlock_plain mod fn.name hb] at hcode
      obtain ⟨s, hs, hcode⟩ := bind_ok.mp hcode
      obtain ⟨more, hmore, hcode⟩ := bind_ok.mp hcode
      cases hcode
      simp only [tidySeq, Bool.and_eq_true, Bool.or_eq_true, Bool.not_eq_true', List.isEmpty_iff] at ht
      obtain ⟨htc, htrest, hstop⟩ := ht
      simp only [lowerSeq] at hq ⊢
      cases hout : (lowerStmt mod.env fn st cur B).2 with
      | none =>
        simp only [hout] at hq ⊢
        have hst := codeStmt_follows st cur hB hcur hu h hs htc hq
        rw [hout] at hst
        -- nothing stands after it
        have hstops : s.1.stops = true := by simpa [stopsSeq] using hst.stops rfl
        have hempty : more.1 = [] := hstop.resolve_left (by simp [hstops])
        have hmore' : codeBlock mod fn.name rest s.2 = .ok ([], more.2) := by rw [hmore, ← hempty]
        rw [hempty, (codeBlock_empty hmore').2]
        exact hst
      | some c =>
        simp only [hout] at hq ⊢
        have hst := codeStmt_follows st cur hB hcur hu h hs htc (lowerSeq_quiet hB₁ hq)
        rw [hout] at hst
        exact .seq hst (codeBlock_follows rest c hB₁ (hst.spans.frame.out c rfl).2 (hst.spans.exit c rfl) hst.reads hmore
          (by rwa [guardedSeq_one]) hq)
    | true =>
      match st with
      | .let_ name (.buffer mode size options bline ns col dups) line =>
        simp only [lowerSeq, lowerStmt] at hq hB₁ ⊢
        obtain ⟨info, sym, hlines, hopened, hinline⟩ := lowerBuffer_opened hcur hu h (lowerSeq_quiet hB₁ hq)
        rw [codeBlock] at hcode
        cases hend : scopeEnd rest name with
        | some j =>
          simp only [hend, hlines, ok_bind] at hcode
          obtain ⟨body, hbody, hcode⟩ := bind_ok.mp hcode
          obtain ⟨more, hmore, hcode⟩ := bind_ok.mp hcode
          cases hcode
          simp only [tidySeq, Code.tidy, Bool.and_eq_true, Bool.not_eq_true'] at ht
          obtain ⟨⟨htbody, hstay⟩, htmore, -⟩ := ht
          obtain ⟨hfind, -⟩ := Option.filter_eq_some_iff.mp hend
          obtain ⟨rel, hrel, hsplit, -⟩ := findRelease_split hfind
          obtain ⟨rline, rfl⟩ := release_of_isRelease hrel
          have hlen := hopened.appends.length
          have hq' := hq
          rw [hsplit] at hq'
          obtain ⟨c, B₂, hB₂, hscope, hlowered⟩ := scope_follows hB₁ hcur hu hopened hstay
            (fun hqbody => codeBlock_follows (rest.take j) cur hB₁ (hlen ▸ hcur)
              (hopened.appends.unlinked hu) hopened.reads hbody htbody hqbody) hq'
          rw [hlowered] at hq'
          have htail := codeBlock_follows (rest.drop (j + 1)) c hB₂ (hscope.spans.frame.out c rfl).2 (hscope.spans.exit c rfl)
            hscope.reads hmore
            (by rwa [guardedSeq_one]) hq'
          rw [← hlowered, ← hsplit] at htail
          exact .seq hscope htail
        | none =>
          simp only [hend, hlines, ok_bind] at hcode
          split at hcode
          · obtain ⟨more, hmore, hcode⟩ := bind_ok.mp hcode
            cases hcode
            simp only [tidySeq, Bool.and_eq_true] at ht
            obtain ⟨-, htmore, -⟩ := ht
            exact .seq hinline (codeBlock_follows rest cur hB₁ (hinline.spans.frame.out cur rfl).2 (hinline.spans.exit cur rfl)
              hinline.reads hmore
              htmore hq)
          · cases hcode
termination_by sizeOf stmts
decreasing_by
  all_goals simp_wf
  · omega
  · omega
  · have := sizeOf_take_le rest j
    omega
  · have := sizeOf_drop_le rest (j + 1)
    omega

end

end

end OwnNet.Emit
