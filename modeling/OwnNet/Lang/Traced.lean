/-
  OwnNet.Lang.Traced — which findings are traced to a resource: those of the analysis may be, those
  of lowering never are, and no code is both a traced finding's and one of lowering's.

  Proved: `buildCfg_untraced`, `analyze_traced`.
-/

import OwnNet.Lang.Check

namespace OwnNet.Lang

/-- The codes of the findings about a resource, which say where it came from. -/
def Code.traced : Code → Bool
  | .own001 | .own002 | .own003 | .own005 | .own006 | .own007 | .own008 | .own009 | .own010 | .own011 | .own012 | .own013
  | .own015 | .own016 | .own017 | .own025 => true
  | _ => false

/-- What the analysis reports. -/
def Diagnostic.Traced (d : Diagnostic) : Prop := d.code.traced = true ∨ d.subject = none

/-- What lowering reports. -/
def Diagnostic.Untraced (d : Diagnostic) : Prop := d.code.traced = false ∧ d.subject = none

def codes : List Code :=
  [.own001, .own002, .own003, .own004, .own005, .own006, .own007, .own008, .own009, .own010, .own011, .own012, .own013, .own014,
    .own015, .own016, .own017, .own018, .own019, .own021, .own023, .own024, .own025, .own030, .own031, .own032, .own033, .own034,
    .own035, .own036, .own040, .own041]

theorem find_text (c : Code) : (codes.find? fun d => d.text = c.text) = some c := by cases c <;> decide

theorem Code.text_inj {c d : Code} (h : c.text = d.text) : c = d := by
  have hc := find_text c
  rw [h, find_text d] at hc
  exact (Option.some.inj hc).symm

/-! ## The analysis -/

section

variable {syms : Nat → Option Symbol} {st : State} {sym : Symbol} {verb callee : String} {line : Int} {d : Diagnostic}

theorem stateProblem_traced (h : stateProblem st sym verb line = some d) : d.Traced := by
  unfold stateProblem at h
  dsimp only at h
  split at h
  · split at h
    · cases h
      exact .inl rfl
    · split at h
      · cases h
        exact .inl rfl
      · cases h
        exact .inl rfl
  · split at h
    · cases h
      exact .inl rfl
    · split at h
      · cases h
        exact .inl rfl
      · cases h

/-- What is wrong with the state, or else what one more check finds. -/
theorem checked_traced {rest : List Diagnostic} (hrest : ∀ x ∈ rest, x.Traced)
    (h : d ∈ match stateProblem st sym verb line with | some x => [x] | none => rest) : d.Traced := by
  split at h
  next x hx =>
    cases List.mem_singleton.mp h
    exact stateProblem_traced hx
  next => exact hrest d h

theorem one_traced {c : Prop} [Decidable c] {x : Diagnostic} {rest : List Diagnostic} (hx : x.Traced)
    (hrest : ∀ y ∈ rest, y.Traced) :
    ∀ y ∈ if c then [x] else rest, y.Traced := by
  intro y hy
  split at hy
  · cases List.mem_singleton.mp hy
    exact hx
  · exact hrest y hy

theorem nil_traced : ∀ y ∈ ([] : List Diagnostic), y.Traced := fun _ hy => absurd hy List.not_mem_nil

theorem consumeLike_traced (h : d ∈ consumeLike st sym verb line) : d.Traced :=
  checked_traced (one_traced (.inl rfl) nil_traced) h

theorem checkMutBorrowable_traced (h : d ∈ checkMutBorrowable st sym line) : d.Traced :=
  checked_traced (one_traced (.inl rfl) (one_traced (.inl rfl) nil_traced)) h

theorem checkSharedBorrowable_traced (h : d ∈ checkSharedBorrowable st sym line) : d.Traced :=
  checked_traced (one_traced (.inl rfl) nil_traced) h

theorem consumedBuffer_traced (h : d ∈ consumedBuffer sym callee line) : d.Traced := by
  unfold consumedBuffer at h
  split at h
  · exact nil_traced d h
  · refine one_traced (.inl rfl) (fun y hy => ?_) d h
    cases List.mem_singleton.mp hy
    exact .inl rfl

theorem applyEffect_traced {eff : Effect} (h : d ∈ (applyEffect callee line sym eff st).2) : d.Traced := by
  unfold applyEffect at h
  split at h
  · exact (List.mem_append.mp h).elim consumeLike_traced consumedBuffer_traced
  · exact checkMutBorrowable_traced h
  · exact checkSharedBorrowable_traced h
  · cases List.mem_singleton.mp h
    exact .inr rfl
  · split at h
    · exact nil_traced d h
    · cases List.mem_singleton.mp h
      exact .inr rfl
  · exact one_traced (.inr rfl) nil_traced d h
  · cases List.mem_singleton.mp h
    exact .inr rfl
  · cases List.mem_singleton.mp h
    exact .inr rfl
  · exact nil_traced d h
  · cases List.mem_singleton.mp h
    exact .inr rfl

theorem applyArgs_traced {args : List (Option Symbol × Effect)} :
    ∀ {st : State}, d ∈ (applyArgs callee line args st).2 → d.Traced := by
  induction args with
  | nil => exact fun h => nil_traced d h
  | cons a rest ih =>
    intro st h
    obtain ⟨_ | sym, eff⟩ := a
    · exact ih h
    · exact (List.mem_append.mp h).elim applyEffect_traced ih

theorem leakCheck_traced {context : String} {exclude : Option Symbol}
    (h : d ∈ leakCheck syms st line context exclude) : d.Traced := by
  obtain ⟨rid, -, rfl⟩ := List.mem_map.mp h
  exact .inl rfl

theorem releaseProblem_traced (h : d ∈ releaseProblem st sym line) : d.Traced :=
  one_traced (.inl rfl) (one_traced (.inl rfl) fun _ hy => checked_traced (one_traced (.inl rfl) nil_traced) hy) d h

theorem useProblem_traced (h : d ∈ useProblem st sym line) : d.Traced := by
  unfold useProblem at h
  split at h
  · exact checked_traced (one_traced (.inl rfl) nil_traced) h
  · split at h
    · exact nil_traced d h
    · cases List.mem_singleton.mp h
      exact .inr rfl
  · exact nil_traced d h

theorem returnProblem_traced (h : d ∈ returnProblem st sym line) : d.Traced := by
  unfold returnProblem at h
  dsimp only at h
  split at h
  · refine one_traced (.inl rfl) (fun y hy => ?_) d h
    cases List.mem_singleton.mp hy
    exact .inl rfl
  · refine one_traced (.inl rfl) (fun y hy => ?_) d h
    split at hy
    · exact nil_traced y hy
    · refine one_traced (.inl rfl) (fun z hz => ?_) y hy
      cases List.mem_singleton.mp hz
      exact .inl rfl

theorem step_traced (ins : Instr) (h : d ∈ (step syms ins st).2) : d.Traced := by
  cases ins with
  | acquire _ _ _ | acquireBuffer _ _ _ | aliasJoin _ _ _ | borrowEnd _ _ _ _ => exact nil_traced d h
  | moveInto dst src line => exact consumeLike_traced h
  | release sym line => exact releaseProblem_traced h
  | use sym line => exact useProblem_traced h
  | overspan sym line =>
    cases List.mem_singleton.mp h
    exact .inl rfl
  | invoke callee args line => exact applyArgs_traced h
  | borrowStart owner binding isMut line =>
    cases isMut with
    | true => exact checkMutBorrowable_traced h
    | false => exact checkSharedBorrowable_traced h
  | return_ sym line =>
    cases sym with
    | none => exact leakCheck_traced h
    | some sym => exact (List.mem_append.mp h).elim leakCheck_traced returnProblem_traced

theorem transfer_traced (is : List Instr) : ∀ {st : State}, d ∈ (transfer syms is st).2 → d.Traced := by
  induction is with
  | nil => exact fun h => nil_traced d h
  | cons ins rest ih => exact fun h => (List.mem_append.mp h).elim (step_traced ins) ih

/-- What the analysis reports is of a traced code, or about no resource. -/
theorem analyze_traced {cfg : CFG} {n : Nat} {ds : List Diagnostic} (hds : cfg.analyze n = .ok ds) (h : d ∈ ds) : d.Traced := by
  unfold CFG.analyze at hds
  cases hfix : cfg.fixpoint n with
  | error e =>
    rw [hfix] at hds
    cases hds
  | ok ins =>
    rw [hfix] at hds
    cases hds
    rcases List.mem_append.mp h with h | h
    · obtain ⟨b, -, hb⟩ := List.mem_flatMap.mp h
      exact transfer_traced _ hb
    · obtain ⟨b, -, hb⟩ := List.mem_flatMap.mp h
      exact leakCheck_traced hb

end


/-! ## Lowering -/

/-- Nothing that is reported is traced. -/
def AllUntraced (ds : List Diagnostic) : Prop := ∀ d ∈ ds, d.Untraced

namespace AllUntraced

variable {ds es : List Diagnostic}

theorem nil : AllUntraced [] := fun _ h => absurd h List.not_mem_nil

theorem one {d : Diagnostic} (h : d.Untraced) : AllUntraced [d] := fun x hx => by
  rw [List.mem_singleton.mp hx]
  exact h

theorem append (h : AllUntraced ds) (h' : AllUntraced es) : AllUntraced (ds ++ es) := fun d hd =>
  (List.mem_append.mp hd).elim (h d) (h' d)

theorem ite {c : Prop} [Decidable c] (h : AllUntraced ds) (h' : AllUntraced es) : AllUntraced (if c then ds else es) := by
  split
  · exact h
  · exact h'

theorem said (c : Prop) [Decidable c] {code : Code} (hcode : code.traced = false) (m : String) (l : Int) :
    AllUntraced (if c then [⟨code, m, l, none, none, []⟩] else []) :=
  ite (one ⟨hcode, rfl⟩) nil

theorem map {α : Type} {l : List α} {f : α → Diagnostic} (h : ∀ a, (f a).Untraced) : AllUntraced (l.map f) := fun d hd => by
  obtain ⟨a, -, rfl⟩ := List.mem_map.mp hd
  exact h a

end AllUntraced

section

variable (opts : List (String × Expr)) (base : List (String × PolicyValue)) (line : Int)

theorem optInt_untraced (name : String) (default : Int) : AllUntraced (optInt opts base line name default).2 := by
  unfold optInt
  split
  · split
    · exact .nil
    · exact .one ⟨rfl, rfl⟩
  · split
    · exact .nil
    · exact .one ⟨rfl, rfl⟩
  · exact .nil

theorem firstInt_untraced (label : String) (default : Int) (keys : List (Bool × String)) :
    AllUntraced (firstInt opts base line label default keys).2 := by
  induction keys with
  | nil => exact .nil
  | cons k rest ih =>
    obtain ⟨_ | _, key⟩ := k
    · rw [firstInt]
      split
      · exact ih
      · split
        · exact .nil
        · exact .one ⟨rfl, rfl⟩
    · rw [firstInt]
      split
      · exact ih
      · split
        · exact .nil
        · exact .one ⟨rfl, rfl⟩

theorem boolFlag_untraced (option setting : String) (default : Bool) :
    AllUntraced (boolFlag opts base line option setting default).2 := by
  unfold boolFlag
  split
  · split
    · exact .nil
    · split
      · exact .nil
      · exact .one ⟨rfl, rfl⟩
  · split
    · exact .nil
    · exact .one ⟨rfl, rfl⟩
  · exact .nil

theorem traceFlag_untraced (default : Bool) : AllUntraced (traceFlag opts base line default).2 := by
  unfold traceFlag
  split
  · split
    · split
      · exact .nil
      · split
        · exact .nil
        · exact .one ⟨rfl, rfl⟩
    · exact .one ⟨rfl, rfl⟩
  · split
    · exact .nil
    · split
      · exact .nil
      · split
        · exact .nil
        · exact .one ⟨rfl, rfl⟩
    · exact .one ⟨rfl, rfl⟩
  · exact .nil

theorem bounded_untraced (mode : BufferMode) (bound : Int) {ds : List Diagnostic} (h : AllUntraced ds) :
    AllUntraced (stackStorage.bounded line mode bound ds).2 := by
  unfold stackStorage.bounded
  split
  · exact h.append (.one ⟨rfl, rfl⟩)
  · exact h

theorem stackStorage_untraced (mode : BufferMode) (size : Option Int) :
    AllUntraced (stackStorage opts base line mode size).2 := by
  unfold stackStorage
  split
  · exact .nil
  · split
    · exact .one ⟨rfl, rfl⟩
    · split
      · exact .one ⟨rfl, rfl⟩
      · exact bounded_untraced line mode _ .nil
      · exact bounded_untraced line mode _ (optInt_untraced opts base line _ _)

theorem scratchStorage_untraced (size : Option Int) : AllUntraced (scratchStorage opts base line size).2 := by
  have hinline := firstInt_untraced opts base line "inline" defaultInlineBytes
    [(true, "inline"), (true, "inline_bytes"), (false, "inline_bytes")]
  unfold scratchStorage
  dsimp only
  split
  · split
    · exact hinline.append (.said _ rfl _ _)
    · exact (hinline.append (.said _ rfl _ _)).append (.said _ rfl _ _)
  · split
    · exact hinline.append (.said _ rfl _ _)
    · exact (hinline.append (.said _ rfl _ _)).append (.said _ rfl _ _)

theorem storage_untraced (mode : BufferMode) (size : Option Int) : AllUntraced (storage opts base line mode size).2 := by
  cases mode with
  | stack | inline => exact stackStorage_untraced opts base line _ size
  | scratch => exact scratchStorage_untraced opts base line size
  | pooled | native => exact .nil

end

theorem policyBase_untraced (opts : List (String × Expr)) (policies : List (String × Policy)) (line : Int) :
    AllUntraced (policyBase opts policies line).2 := by
  unfold policyBase
  split
  · exact .nil
  · split
    · exact .one ⟨rfl, rfl⟩
    · split
      · exact .nil
      · exact .one ⟨rfl, rfl⟩

theorem resolve_untraced (mode : BufferMode) (size : Option Expr) (opts : List (String × Expr)) (dups : List String) (line : Int)
    (policies : List (String × Policy)) : AllUntraced (resolve mode size opts dups line policies).2 := by
  unfold resolve
  refine .append (.append (.append (.append (.append (.append (.append (.append (.append ?_ ?_) ?_) ?_) ?_) ?_) ?_) ?_) ?_) ?_
  · exact .map fun _ => ⟨rfl, rfl⟩
  · exact .map fun _ => ⟨rfl, rfl⟩
  · exact policyBase_untraced opts policies line
  · exact storage_untraced opts _ line mode _
  · exact .said _ rfl _ _
  · exact boolFlag_untraced opts _ line _ _ _
  · exact boolFlag_untraced opts _ line _ _ _
  · exact traceFlag_untraced opts _ line _
  · exact boolFlag_untraced opts _ line _ _ _
  · exact .said _ rfl _ _

def Builder.Untraced (B : Builder) : Prop := AllUntraced B.diags

namespace Builder.Untraced

variable {B : Builder}

theorem report (h : B.Untraced) {c : Code} (hc : c.traced = false) (m : String) (l : Int) : (B.report c m l).Untraced :=
  AllUntraced.append h (.one ⟨hc, rfl⟩)

theorem declare (h : B.Untraced) (mk : Nat → Symbol) : (B.declare mk).1.Untraced := by
  unfold Builder.declare
  dsimp only
  split
  · exact h.report rfl _ _
  · exact h

theorem lookup (h : B.Untraced) (name : String) (line : Int) : (B.lookup name line).1.Untraced := by
  unfold Builder.lookup
  split
  · exact h
  · exact h.report rfl _ _

theorem emit (h : B.Untraced) (b : Nat) (ins : Instr) : (B.emit b ins).Untraced := h

theorem newBlock (h : B.Untraced) (label : String) : (B.newBlock label).Untraced := h

theorem linkIf (h : B.Untraced) (b : Option Nat) (succ : List Nat) : (B.linkIf b succ).Untraced := by
  cases b with
  | none => exact h
  | some b => exact h

theorem merge (h : B.Untraced) (t e : Option Nat) : (B.merge t e).1.Untraced := by
  unfold Builder.merge
  split
  · exact h
  · exact ((h.newBlock _).linkIf _ _).linkIf _ _

theorem closeBorrow (h : B.Untraced) (owner binding : Symbol) (isMut : Bool) (line : Int) (after : Option Nat) :
    (B.closeBorrow owner binding isMut line after).Untraced := by
  cases after with
  | none => exact h
  | some after => exact h

end Builder.Untraced

section

variable {env : Env} {fn : FnDecl} {B : Builder} {cur : Nat}

theorem checkSize_untraced (h : B.Untraced) (name : String) (size : Option Expr) (line : Int) :
    (checkSize name size line B).Untraced := by
  unfold checkSize
  split
  · exact h.report rfl _ _
  next sname sline =>
    have hl := h.lookup sname sline
    dsimp only
    split
    · exact hl
    · split
      · exact hl.report rfl _ _
      · split
        · exact hl.report rfl _ _
        · exact hl
  · exact h

theorem lowerBuffer_untraced (h : B.Untraced) {name : String} {line : Int} {mode : String} {size : Option Expr}
    {options : List (String × Expr)} {bline : Int} {ns : String} {col : Int} {dups : List String} :
    (lowerBuffer env name line mode size options bline ns col dups cur B).Untraced := by
  unfold lowerBuffer
  dsimp only
  split
  · exact (h.report rfl _ _).declare _
  · split
    · exact (h.report rfl _ _).declare _
    · refine Builder.Untraced.emit (Builder.Untraced.declare ?_ _) _ _
      exact AllUntraced.append (checkSize_untraced h name size bline) (resolve_untraced _ _ _ _ _ _)

theorem lowerLet_untraced (h : B.Untraced) (name : String) (rhs : Expr) (line : Int) :
    (lowerLet env name rhs line cur B).Untraced := by
  cases rhs with
  | acquire resource args rline =>
    refine Builder.Untraced.emit (Builder.Untraced.declare ?_ _) _ _
    split
    · exact h
    · exact h.report rfl _ _
  | buffer mode size options bline ns col dups => exact lowerBuffer_untraced h
  | move var rline =>
    have hl := h.lookup var rline
    simp only [lowerLet]
    split
    · exact hl.declare _
    · split
      · exact (hl.report rfl _ _).declare _
      · exact (hl.declare _).emit _ _
  | varRef var rline =>
    have hl := h.lookup var rline
    refine Builder.Untraced.declare ?_ _
    split
    · exact hl
    · split
      · exact hl.report rfl _ _
      · exact hl
  | intLit value iline => exact h.declare _

theorem lowerAliasJoin_untraced (h : B.Untraced) (name src : String) (line : Int) :
    (lowerAliasJoin name src line cur B).Untraced := by
  have hl := h.lookup src line
  unfold lowerAliasJoin
  dsimp only
  split
  · exact hl.declare _
  · split
    · exact (hl.report rfl _ _).declare _
    · exact (hl.declare _).emit _ _

theorem lookupArgs_untraced (args : List Expr) : ∀ {B : Builder}, B.Untraced → (lookupArgs args B).Untraced := by
  induction args with
  | nil => exact fun h => h
  | cons a rest ih =>
    intro B h
    cases a with
    | varRef name line => exact ih (h.lookup name line)
    | _ => exact ih h

theorem resolveArgs_untraced (args : List (Expr × Effect)) : ∀ {B : Builder}, B.Untraced → (resolveArgs args B).1.Untraced := by
  induction args with
  | nil => exact fun h => h
  | cons a rest ih =>
    intro B h
    obtain ⟨e, eff⟩ := a
    cases e with
    | varRef name line => exact ih (h.lookup name line)
    | _ => exact ih h

theorem lowerCall_untraced (h : B.Untraced) (callee : String) (args : List Expr) (line : Int) :
    (lowerCall env callee args line cur B).Untraced := by
  unfold lowerCall
  split
  · exact lookupArgs_untraced args (h.report rfl _ _)
  · split
    · exact lookupArgs_untraced args (h.report rfl _ _)
    · exact resolveArgs_untraced _ h

theorem returned_untraced (h : B.Untraced) (var : Option String) (line : Int) : (returned env fn var line B).1.Untraced := by
  unfold returned
  split
  · exact h
  · exact h.report rfl _ _
  next var _ =>
    have hl := h.lookup var line
    dsimp only
    split
    · exact hl
    · exact hl.report rfl _ _
  next var _ _ =>
    have hl := h.lookup var line
    dsimp only
    split
    · exact hl
    · split
      · exact hl.report rfl _ _
      · split
        · split
          · exact hl.report rfl _ _
          · exact hl.report rfl _ _
        · split
          · exact hl
          · exact hl

theorem lowerOwned_untraced (h : B.Untraced) (var : String) (line : Int) (cannot : String) (mk : Symbol → Instr) :
    (lowerOwned var line cannot mk cur B).Untraced := by
  have hl := h.lookup var line
  unfold lowerOwned
  dsimp only
  split
  · exact hl
  · split
    · exact hl.report rfl _ _
    · exact hl

theorem lowerUse_untraced (h : B.Untraced) (var : String) (line : Int) : (lowerUse var line cur B).Untraced := by
  have hl := h.lookup var line
  unfold lowerUse
  dsimp only
  split
  · exact hl
  · exact hl

end

section

variable (env : Env) (fn : FnDecl)

mutual

theorem lowerStmt_untraced : ∀ (st : Stmt) {cur : Nat} {B : Builder}, B.Untraced → (lowerStmt env fn st cur B).1.Untraced
  | .let_ name rhs line, _, _, h => lowerLet_untraced h name rhs line
  | .release var line, _, _, h => lowerOwned_untraced h var line _ _
  | .use var line, _, _, h => lowerUse_untraced h var line
  | .overspan var line, _, _, h => lowerOwned_untraced h var line _ _
  | .call callee args line, _, _, h => lowerCall_untraced h callee args line
  | .aliasJoin name src line, _, _, h => lowerAliasJoin_untraced h name src line
  | .borrowBlock owner binding kind body line, cur, B, h => by
    have hl := h.lookup owner line
    have hpush : (B.lookup owner line).1.pushScope.Untraced := hl
    simp only [lowerStmt]
    split
    · exact hl
    · split
      · exact hl.report rfl _ _
      · exact Builder.Untraced.closeBorrow (lowerSeq_untraced body ((hpush.declare _).emit _ _)) _ _ _ _ _
  | .if_ c thenBody elseBody line, cur, B, h => by
    have hfork : (B.fork cur).pushScope.Untraced := h
    have hthen : (lowerSeq env fn thenBody B.blocks.length (B.fork cur).pushScope).1.popScope.pushScope.Untraced :=
      lowerSeq_untraced thenBody hfork
    have helse : (lowerSeq env fn elseBody (B.blocks.length + 1)
        (lowerSeq env fn thenBody B.blocks.length (B.fork cur).pushScope).1.popScope.pushScope).1.popScope.Untraced :=
      lowerSeq_untraced elseBody hthen
    rw [lowerStmt]
    exact helse.merge _ _
  | .while_ c body line, cur, B, h => by
    have hopen : (B.openLoop cur).pushScope.Untraced := h
    have hbody : (lowerSeq env fn body (B.blocks.length + 1) (B.openLoop cur).pushScope).1.popScope.Untraced :=
      lowerSeq_untraced body hopen
    rw [lowerStmt]
    exact hbody.linkIf _ _
  | .return_ var line, _, _, h => returned_untraced h var line
  | .subscribe _ _, _, _, h => h

theorem lowerSeq_untraced : ∀ (body : List Stmt) {cur : Nat} {B : Builder}, B.Untraced → (lowerSeq env fn body cur B).1.Untraced
  | [], _, _, h => h
  | st :: rest, cur, B, h => by
    have hst : (lowerStmt env fn st cur B).1.Untraced := lowerStmt_untraced st h
    rw [lowerSeq]
    split
    · exact hst
    · exact lowerSeq_untraced rest hst

end

theorem declareParams_untraced (ps : List Param) : ∀ {B : Builder}, B.Untraced → (declareParams env ps B).1.Untraced := by
  induction ps with
  | nil => exact fun h => h
  | cons p rest ih => exact fun h => ih (h.declare _)

end

/-- What lowering reports is of no traced code, and about no resource. -/
theorem buildCfg_untraced (env : Env) (fn : FnDecl) : AllUntraced (buildCfg env fn).2 := by
  have hparams : (declareParams env fn.params { scopes := [[]] }).1.Untraced :=
    declareParams_untraced env fn.params AllUntraced.nil
  have hentry : ((declareParams env fn.params { scopes := [[]] }).1.newBlock "entry").Untraced := hparams
  have hbody : (lowerSeq env fn fn.body 0 ((declareParams env fn.params { scopes := [[]] }).1.newBlock "entry")).1.Untraced :=
    lowerSeq_untraced env fn fn.body hentry
  show AllUntraced (build env fn).1.diags
  unfold build
  dsimp only
  split
  · exact hbody.report rfl _ _
  · exact hbody

end OwnNet.Lang
