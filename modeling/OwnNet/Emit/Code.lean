/-
  OwnNet.Emit.Code — what the generator emits, as code: steps, branches, loops, borrow blocks,
  and scopes, which are left through their `finally`.

  A step bears what it does to the names of the source, a scope what it opens and what it closes.

  Proved: `emitBlock_renders`, `emitHoist_renders`: the lines of the generator are the code's.
-/

import OwnNet.Emit.Lines
import OwnNet.Checks

namespace OwnNet.Emit

open Lang Checks

/-- What a step does to the names of the source, and the lines that open or close one. -/
inductive Act where
  | opens (name : String) (lines : List String)
  | closes (name : String) (lines : List String)
  | moves (dst src : String)
  | joins (name src : String)
  | uses (name : String)
  | views (name : String)
  | calls (callee : String) (args : List String)
  | lends (owner binding : String)
  | regains (owner binding : String)
  | returns (var : Option String)
  deriving DecidableEq, Repr

inductive Code where
  | step (acts : List Act) (lines : List String)
  | leave (var : Option String)
  | borrow (owner binding note line : String) (body : List Code)
  /-- `hasElse`: an `else` is printed. -/
  | cond (line : String) (thenBody elseBody : List Code) (hasElse : Bool)
  | loop (line : String) (body : List Code)
  | scope (name : String) (pre fin : List String) (body : List Code)

mutual

def Code.render : Code → String → List String
  | .step _ lines, ind => lines.map (ind ++ ·)
  | .leave var, ind => [ind ++ returnLine var]
  | .borrow _ _ note line body, ind =>
    [ind ++ "\x7b" ++ note, ind ++ indent ++ line] ++ renderSeq body (ind ++ indent) ++ [ind ++ "\x7d"]
  | .cond line thenBody elseBody hasElse, ind =>
    [ind ++ line, ind ++ "\x7b"] ++ renderSeq thenBody (ind ++ indent) ++ [ind ++ "\x7d"] ++
      if hasElse then [ind ++ "else", ind ++ "\x7b"] ++ renderSeq elseBody (ind ++ indent) ++ [ind ++ "\x7d"] else []
  | .loop line body, ind => [ind ++ line, ind ++ "\x7b"] ++ renderSeq body (ind ++ indent) ++ [ind ++ "\x7d"]
  | .scope _ pre fin body, ind =>
    pre.map (ind ++ ·) ++ if fin = [] then renderSeq body ind else tryFinally ind (renderSeq body (ind ++ indent)) fin

def renderSeq : List Code → String → List String
  | [], _ => []
  | c :: rest, ind => c.render ind ++ renderSeq rest ind

end

/-! ## The generator, as code -/

def letActs (name : String) (rhs : Expr) (line : String) : List Act :=
  match rhs with
  | .acquire _ _ _ => [.opens name [line]]
  | .move var _ => [.moves name var]
  | _ => []

section

variable (mod : Module) (fn : String)

mutual

def codeStmt (st : Stmt) (σ : Names) : Except EmitError (Code × Names) :=
  match st with
  | .let_ name rhs _ => do
    let r ← letInline mod name rhs σ
    return (.step (letActs name rhs r.1) [r.1], r.2)
  | .release var _ => .ok (.step [.closes var (releaseLines mod var σ)] (releaseLines mod var σ), σ)
  | .use var _ => .ok (.step [.uses var] [useLine var], σ)
  | .overspan var _ => .ok (.step [.views var] [overspanLine var], σ)
  | .call callee args _ => .ok (.step [.calls callee (args.map arg)] [callLine callee args], σ)
  | .aliasJoin name src _ => .ok (.step [.joins name src] [aliasLine name src], aliasJoin name src σ)
  | .borrowBlock owner binding kind body _ => do
    let b ← codeBlock body σ
    return (.borrow owner binding (borrowNote kind owner binding) (borrowLine mod owner binding σ) b.1, b.2)
  | .if_ cond thenBody elseBody _ => do
    let t ← codeBlock thenBody σ
    let e ← codeBlock elseBody t.2
    return (.cond (ifLine cond) t.1 e.1 (!elseBody.isEmpty), e.2)
  | .while_ cond body _ => do
    let b ← codeBlock body σ
    return (.loop (whileLine cond) b.1, b.2)
  | .return_ var _ => .ok (.leave var, σ)
  | .subscribe source _ => .ok (.step [] [subscribeLine source], σ)
termination_by sizeOf st

def codeBlock (stmts : List Stmt) (σ : Names) : Except EmitError (List Code × Names) :=
  match stmts with
  | [] => .ok ([], σ)
  | .let_ name (.buffer mode size options bline _ _ dups) _ :: rest =>
    match scopeEnd rest name with
    | some j => do
      let b ← bufferLowering mod fn name mode size options bline dups σ
      let body ← codeBlock (rest.take j) b.2
      let more ← codeBlock (rest.drop (j + 1)) body.2
      return (.scope name b.1.1 b.1.2 body.1 :: more.1, more.2)
    | none =>
      if bufferReleased rest name then do
        let b ← bufferLowering mod fn name mode size options bline dups σ
        let more ← codeBlock rest { b.2 with bufferCleanup := b.2.bufferCleanup.set name b.1.2 }
        return (.step [.opens name b.1.1] b.1.1 :: more.1, more.2)
      else .error (neverReleased name)
  | st :: rest => do
    let s ← codeStmt st σ
    let more ← codeBlock rest s.2
    return (s.1 :: more.1, more.2)
termination_by sizeOf stmts
decreasing_by
  all_goals simp_wf
  · have := sizeOf_take_le rest j
    omega
  · have := sizeOf_drop_le rest (j + 1)
    omega
  · omega

end

def codeHoist (stmts : List Stmt) (σ : Names) : Except EmitError (List Code × Names) :=
  match stmts with
  | [] => .ok ([], σ)
  | st :: after => do
    let s ← scopeLowering mod fn st σ
    match s.1 with
    | some (pre, fin) => do
      let name := (opened st).getD ""
      let body ← codeHoist (segment name after).1 s.2
      let tail ← codeHoist (segment name after).2 body.2
      return (.scope name pre fin body.1 :: tail.1, tail.2)
    | none => do
      let s ← codeStmt mod fn st s.2
      let more ← codeHoist after s.2
      return (s.1 :: more.1, more.2)
termination_by stmts.length
decreasing_by
  · have := (segment_length ((opened st).getD "") after).1
    simp
    omega
  · have := (segment_length ((opened st).getD "") after).2
    simp
    omega
  · simp

end

def bodyCode (mod : Module) (fn : FnItem) : Except EmitError (List Code × Names) :=
  if isSimple fn.body then codeHoist mod fn.name fn.body (paramNames mod fn)
  else codeBlock mod fn.name fn.body (paramNames mod fn)

/-! ## Indentation -/

/-- Some number of indents. -/
def Level (ind : String) : Prop := ind ++ indent = indent ++ ind

theorem level_indent : Level indent := rfl

theorem Level.deeper {ind : String} (h : Level ind) : Level (ind ++ indent) := by
  unfold Level at h ⊢
  rw [h, String.append_assoc, h]

theorem dedent_indent (line : String) : dedent (indent ++ line) = line := by
  have hlist : (indent ++ line).toList = indent.toList ++ line.toList := String.toList_append
  unfold dedent
  rw [hlist, if_pos (List.prefix_append _ _)]
  have hdrop : (indent.toList ++ line.toList).drop 4 = line.toList := by
    rw [List.drop_append_of_le_length (by decide)]
    rfl
  rw [hdrop, String.ofList_toList]

mutual

/-- Code further in is the same lines, indented. -/
theorem render_shift (a : String) (c : Code) (ind : String) : c.render (a ++ ind) = (c.render ind).map (a ++ ·) := by
  cases c with
  | step acts lines => simp [Code.render, String.append_assoc]
  | leave var => simp [Code.render, String.append_assoc]
  | borrow owner binding note line body =>
    have h := renderSeq_shift a body (ind ++ indent)
    simp [Code.render, h, String.append_assoc]
  | cond line thenBody elseBody hasElse =>
    have ht := renderSeq_shift a thenBody (ind ++ indent)
    have he := renderSeq_shift a elseBody (ind ++ indent)
    cases hasElse <;> simp [Code.render, ht, he, String.append_assoc]
  | loop line body =>
    have h := renderSeq_shift a body (ind ++ indent)
    simp [Code.render, h, String.append_assoc]
  | scope name pre fin body =>
    have h := renderSeq_shift a body (ind ++ indent)
    have h₀ := renderSeq_shift a body ind
    by_cases hfin : fin = []
    · simp [Code.render, hfin, h₀, String.append_assoc, Function.comp_def]
    · simp [Code.render, hfin, tryFinally, h, String.append_assoc, Function.comp_def]

theorem renderSeq_shift (a : String) (code : List Code) (ind : String) :
    renderSeq code (a ++ ind) = (renderSeq code ind).map (a ++ ·) := by
  cases code with
  | nil => rfl
  | cons c rest => rw [renderSeq, renderSeq, render_shift a c ind, renderSeq_shift a rest ind, List.map_append]

end

theorem dedent_renderSeq {ind : String} (h : Level ind) (code : List Code) :
    (renderSeq code (ind ++ indent)).map dedent = renderSeq code ind := by
  rw [show ind ++ indent = indent ++ ind from h, renderSeq_shift, List.map_map]
  have hid : dedent ∘ (indent ++ ·) = id := funext dedent_indent
  rw [hid, List.map_id]

/-! ## The lines are the code's -/

def isBuffer : Stmt → Bool
  | .let_ _ (.buffer _ _ _ _ _ _ _) _ => true
  | _ => false

section

variable (mod : Module) (fn : String)

theorem emitBlock_plain {st : Stmt} (h : isBuffer st = false) (rest : List Stmt) (ind : String) (σ : Names) :
    emitBlock mod fn (st :: rest) ind σ = stmtInline mod fn st ind σ >>= fun s =>
      emitBlock mod fn rest ind s.2 >>= fun more => .ok (s.1 ++ more.1, more.2) := by
  rw [emitBlock]
  · rfl
  · rintro name mode size options bline ns col dups line rfl
    cases h

theorem codeBlock_nil (σ : Names) : codeBlock mod fn [] σ = .ok ([], σ) := by rw [codeBlock]

theorem codeBlock_plain {st : Stmt} (h : isBuffer st = false) (rest : List Stmt) (σ : Names) :
    codeBlock mod fn (st :: rest) σ = codeStmt mod fn st σ >>= fun s =>
      codeBlock mod fn rest s.2 >>= fun more => .ok (s.1 :: more.1, more.2) := by
  rw [codeBlock]
  · rfl
  · rintro name mode size options bline ns col dups line rfl
    cases h

mutual

theorem stmtInline_renders (st : Stmt) {ind : String} (hind : Level ind) (σ : Names) :
    stmtInline mod fn st ind σ = (codeStmt mod fn st σ).map fun r => (r.1.render ind, r.2) := by
  cases st with
  | let_ name rhs line =>
    rw [stmtInline, codeStmt]
    cases letInline mod name rhs σ <;> rfl
  | borrowBlock owner binding kind body line =>
    rw [stmtInline, codeStmt, emitBlock_renders body hind.deeper σ]
    cases codeBlock mod fn body σ <;> rfl
  | if_ cond thenBody elseBody line =>
    rw [stmtInline, codeStmt, emitBlock_renders thenBody hind.deeper σ]
    cases codeBlock mod fn thenBody σ with
    | error e => rfl
    | ok t =>
      cases elseBody with
      | nil =>
        simp only [Except.map, ok_bind, codeBlock_nil]
        simp [pure, Except.pure, Code.render]
      | cons st rest =>
        have h := emitBlock_renders (st :: rest) hind.deeper t.2
        cases he : codeBlock mod fn (st :: rest) t.2 with
        | error e =>
          rw [he] at h
          simp [Except.map, ok_bind, h, he]
        | ok e =>
          rw [he] at h
          simp [Except.map, ok_bind, h, he, Code.render]
  | while_ cond body line =>
    rw [stmtInline, codeStmt, emitBlock_renders body hind.deeper σ]
    cases codeBlock mod fn body σ <;> rfl
  | release var line => rw [stmtInline, codeStmt]; rfl
  | use var line => rw [stmtInline, codeStmt]; rfl
  | overspan var line => rw [stmtInline, codeStmt]; rfl
  | call callee args line => rw [stmtInline, codeStmt]; rfl
  | aliasJoin name src line => rw [stmtInline, codeStmt]; rfl
  | return_ var line => rw [stmtInline, codeStmt]; rfl
  | subscribe source line => rw [stmtInline, codeStmt]; rfl
termination_by sizeOf st

theorem emitBlock_renders (stmts : List Stmt) {ind : String} (hind : Level ind) (σ : Names) :
    emitBlock mod fn stmts ind σ = (codeBlock mod fn stmts σ).map fun r => (renderSeq r.1 ind, r.2) := by
  match stmts with
  | [] => rw [emitBlock, codeBlock]; rfl
  | st :: rest =>
    cases hb : isBuffer st with
    | false =>
      rw [emitBlock_plain mod fn hb, codeBlock_plain mod fn hb, stmtInline_renders st hind σ]
      cases codeStmt mod fn st σ with
      | error e => rfl
      | ok s =>
        have h := emitBlock_renders rest hind s.2
        simp only [Except.map, ok_bind, h]
        cases codeBlock mod fn rest s.2 <;> rfl
    | true =>
      match st with
      | .let_ name (.buffer mode size options bline ns col dups) line =>
        rw [emitBlock, codeBlock]
        cases hend : scopeEnd rest name with
        | some j =>
          simp only
          cases bufferLowering mod fn name mode size options bline dups σ with
          | error e => rfl
          | ok b =>
            have hbody := emitBlock_renders (rest.take j) hind.deeper b.2
            simp only [ok_bind, hbody]
            cases codeBlock mod fn (rest.take j) b.2 with
            | error e => rfl
            | ok body =>
              have hmore := emitBlock_renders (rest.drop (j + 1)) hind body.2
              simp only [Except.map, ok_bind, hmore]
              cases codeBlock mod fn (rest.drop (j + 1)) body.2 with
              | error e => rfl
              | ok more =>
                simp [renderSeq, Code.render, dedent_renderSeq hind]
        | none =>
          simp only
          cases hrel : bufferReleased rest name with
          | false => rfl
          | true =>
            cases bufferLowering mod fn name mode size options bline dups σ with
            | error e => rfl
            | ok b =>
              have hmore := emitBlock_renders rest hind { b.2 with bufferCleanup := b.2.bufferCleanup.set name b.1.2 }
              simp only [ok_bind, hmore]
              cases codeBlock mod fn rest { b.2 with bufferCleanup := b.2.bufferCleanup.set name b.1.2 } <;> rfl
termination_by sizeOf stmts
decreasing_by
  all_goals simp_wf
  · omega
  · have := sizeOf_take_le rest j
    omega
  · have := sizeOf_drop_le rest (j + 1)
    omega

end

/-- Any other statement opens no scope. -/
theorem scopeLowering_plain {st : Stmt} (h : opened st = none) (σ : Names) : scopeLowering mod fn st σ = .ok (none, σ) := by
  cases st with
  | let_ name rhs line =>
    cases rhs with
    | acquire => cases h
    | buffer => cases h
    | _ => rfl
  | _ => rfl

theorem emitHoist_renders (stmts : List Stmt) {ind : String} (hind : Level ind) (σ : Names) :
    emitHoist mod fn stmts ind σ = (codeHoist mod fn stmts σ).map fun r => (renderSeq r.1 ind, r.2) := by
  match stmts with
  | [] => rw [emitHoist, codeHoist]; rfl
  | st :: after =>
    rw [emitHoist, codeHoist]
    cases scopeLowering mod fn st σ with
    | error e => rfl
    | ok s =>
      obtain ⟨o, σ₁⟩ := s
      simp only [ok_bind]
      cases o with
      | none =>
        simp only [stmtInline_renders mod fn st hind σ₁]
        cases codeStmt mod fn st σ₁ with
        | error e => rfl
        | ok c =>
          have hmore := emitHoist_renders after hind c.2
          simp only [Except.map, ok_bind, hmore]
          cases codeHoist mod fn after c.2 <;> rfl
      | some lines =>
        obtain ⟨pre, fin⟩ := lines
        have hinner : Level (if fin = [] then ind else ind ++ indent) := by
          split
          · exact hind
          · exact hind.deeper
        have hbody := emitHoist_renders (segment ((opened st).getD "") after).1 hinner σ₁
        simp only [hbody]
        cases codeHoist mod fn (segment ((opened st).getD "") after).1 σ₁ with
        | error e => rfl
        | ok body =>
          have htail := emitHoist_renders (segment ((opened st).getD "") after).2 hind body.2
          simp only [Except.map, ok_bind, htail]
          cases codeHoist mod fn (segment ((opened st).getD "") after).2 body.2 with
          | error e => rfl
          | ok tail => by_cases hfin : fin = [] <;> simp [hfin, ok_bind, renderSeq, Code.render, pure, Except.pure]
termination_by stmts.length
decreasing_by
  all_goals simp_wf
  · have := (segment_length ((opened st).getD "") after).1
    omega
  · have := (segment_length ((opened st).getD "") after).2
    omega

end

/-- The lines of a function's body are those of its code. -/
theorem bodyLines_renders (mod : Module) (fn : FnItem) :
    bodyLines mod fn = (bodyCode mod fn).map fun r => (renderSeq r.1 indent, r.2) := by
  unfold bodyLines bodyCode
  split
  · exact emitHoist_renders mod fn.name fn.body level_indent _
  · exact emitBlock_renders mod fn.name fn.body level_indent _

end OwnNet.Emit
