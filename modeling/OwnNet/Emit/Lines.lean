/-
  OwnNet.Emit.Lines — the C# generator, line by line.

  A function without branches, moves and owned returns is hoisted: each acquire or buffer of its
  top level is put before a `try`, what follows up to its release inside, the release into the
  `finally`. Any other is emitted inline, a release where the source has it, but for a buffer
  whose release stands straight in the same list: that one is scoped.

  The generator keeps two tables by name: of which resource an owner is, and the lines that clean
  up a buffer that is emitted inline. Its tables of bindings and of resolved buffers are written
  and never read.
-/

import OwnNet.Dict
import OwnNet.Dict.Grouped
import OwnNet.Lang.Module
import Mathlib.Data.String.Basic

namespace OwnNet.Emit

open Lang

inductive EmitError where
  | codegenError (message : String)
  | valueError (message : String)
  deriving DecidableEq, Repr

/-- What the generator knows of the names emitted so far. -/
structure Names where
  ownedResource : Dict String String := Dict.empty
  bufferCleanup : Dict String (List String) := Dict.empty

namespace Names

def resource (σ : Names) (name : String) : String := (σ.ownedResource.get? name).getD ""

def own (σ : Names) (name resource : String) : Names := { σ with ownedResource := σ.ownedResource.set name resource }

/-- `buffer_cleanup.pop(name, None)`. -/
def forget (σ : Names) (name : String) : Names := { σ with bufferCleanup := σ.bufferCleanup.erase name }

/-- The pending cleanup of `src` is `name`'s as well. -/
def carry (σ : Names) (name src : String) : Names :=
  match σ.bufferCleanup.get? src with
  | some lines => { σ with bufferCleanup := σ.bufferCleanup.set name lines }
  | none => σ

end Names

def csharpType (t : TypeRef) : String :=
  if t.name = "Buffer" ∧ t.borrowed then
    if t.mutable then "Span<byte>" else "ReadOnlySpan<byte>"
  else if t.borrowed then (if t.mutable then "ref " else "ref readonly ") ++ t.name
  else t.name

/-! ## Shape -/

mutual

def containsBranchOrTransferIn : Stmt → Bool
  | .if_ _ _ _ _ | .while_ _ _ _ => true
  | .return_ var _ => var.isSome
  | .let_ _ (.move _ _) _ => true
  | .borrowBlock _ _ _ body _ => containsBranchOrTransfer body
  | _ => false

def containsBranchOrTransfer : List Stmt → Bool
  | [] => false
  | st :: rest => containsBranchOrTransferIn st || containsBranchOrTransfer rest

end

mutual

def iterStmt : Stmt → List Stmt
  | .if_ cond thenBody elseBody line => .if_ cond thenBody elseBody line :: (iterStmts thenBody ++ iterStmts elseBody)
  | .while_ cond body line => .while_ cond body line :: iterStmts body
  | .borrowBlock owner binding kind body line => .borrowBlock owner binding kind body line :: iterStmts body
  | st => [st]

/-- Every statement of the tree. -/
def iterStmts : List Stmt → List Stmt
  | [] => []
  | st :: rest => iterStmt st ++ iterStmts rest

end

/-- One round over the statements: the names moved into from an alias. -/
def aliasRound (stmts : List Stmt) (aliases : List String) : List String :=
  (iterStmts stmts).foldl (fun aliases st =>
    match st with
    | .let_ name (.move var _) _ => if var ∈ aliases ∧ name ∉ aliases then aliases ++ [name] else aliases
    | _ => aliases) aliases

/-- Rounds until one adds nothing; each but the last adds the name of a statement. -/
def aliasRounds (stmts : List Stmt) : Nat → List String → List String
  | 0, aliases => aliases
  | n + 1, aliases => if aliasRound stmts aliases = aliases then aliases else aliasRounds stmts n (aliasRound stmts aliases)

def moveAliases (stmts : List Stmt) (name : String) : List String := aliasRounds stmts ((iterStmts stmts).length + 1) [name]

def bufferReleased (stmts : List Stmt) (name : String) : Bool :=
  (iterStmts stmts).any fun
    | .release var _ => decide (var ∈ moveAliases stmts name)
    | _ => false

mutual

def fnHasBufferIn : Stmt → Bool
  | .let_ _ (.buffer _ _ _ _ _ _ _) _ => true
  | .if_ _ thenBody elseBody _ => fnHasBuffer thenBody || fnHasBuffer elseBody
  | .while_ _ body _ => fnHasBuffer body
  | .borrowBlock _ _ _ body _ => fnHasBuffer body
  | _ => false

def fnHasBuffer : List Stmt → Bool
  | [] => false
  | st :: rest => fnHasBufferIn st || fnHasBuffer rest

end

mutual

def bufferModesIn : Stmt → List String
  | .let_ _ (.buffer mode _ _ _ _ _ _) _ => [mode]
  | .if_ _ thenBody elseBody _ => bufferModesOf thenBody ++ bufferModesOf elseBody
  | .while_ _ body _ => bufferModesOf body
  | .borrowBlock _ _ _ body _ => bufferModesOf body
  | _ => []

def bufferModesOf : List Stmt → List String
  | [] => []
  | st :: rest => bufferModesIn st ++ bufferModesOf rest

end

def fnHasNative (stmts : List Stmt) : Bool := decide ("native" ∈ bufferModesOf stmts)

/-- A plain local of this level; declared in a `try`, it would be out of scope after the `finally`. -/
def bodyHasPlainLet (stmts : List Stmt) : Bool :=
  stmts.any fun
    | .let_ _ (.intLit _ _) _ | .let_ _ (.varRef _ _) _ => true
    | _ => false

/-- The name a statement opens a scope for. -/
def opened : Stmt → Option String
  | .let_ name (.acquire _ _ _) _ | .let_ name (.buffer _ _ _ _ _ _ _) _ => some name
  | _ => none

def isRelease (name : String) : Stmt → Bool
  | .release var _ => decide (var = name)
  | _ => false

/-- The first release of a name. -/
def findRelease (stmts : List Stmt) (name : String) : Option Nat := stmts.findIdx? (isRelease name)

def scopeBodyHasPlainLet : List Stmt → Bool
  | [] => false
  | st :: rest =>
    match opened st with
    | none => scopeBodyHasPlainLet rest
    | some name =>
      bodyHasPlainLet (match findRelease rest name with
        | some rel => rest.take rel
        | none => rest) || scopeBodyHasPlainLet rest

def scopesReleaseTopLevel (stmts : List Stmt) : Bool :=
  stmts.all fun st =>
    match opened st with
    | none => true
    | some name => stmts.any (isRelease name)

/-- Where the scopes of a list begin and end, counted from `i`. -/
def intervals : List Stmt → Nat → List (Nat × Nat)
  | [], _ => []
  | st :: rest, i =>
    match (opened st).bind (findRelease rest) with
    | some k => (i, i + 1 + k) :: intervals rest (i + 1)
    | none => intervals rest (i + 1)

/-- No scope ends inside another that began inside it. -/
def laminarScopes (stmts : List Stmt) : Bool :=
  (intervals stmts 0).all fun a => (intervals stmts 0).all fun b => !(decide (a.1 < b.1 ∧ b.1 < a.2 ∧ a.2 < b.2))

def isSimple (body : List Stmt) : Bool :=
  !containsBranchOrTransfer body && scopesReleaseTopLevel body && !scopeBodyHasPlainLet body && laminarScopes body

/-! ## Templates -/

def member (r : ResourceDecl) (role : Role) : String :=
  match r.members.find? fun m => m.role = role with
  | some m => m.name
  | none => if role = .acquire then "Create" else "Dispose"

/-- A template that is there, and not empty. -/
def given (template : Option String) : Option String := template.filter (· ≠ "")

def arg : Expr → String
  | .intLit value _ => toString value
  | .varRef name _ => name
  | _ => "/* expr */"

def argsCsv (args : List Expr) : String := ", ".intercalate (args.map arg)

section

variable (mod : Module)

/-- Of two declarations of a resource the later counts. -/
def res (name : String) : Option ResourceDecl := (Dict.latest ResourceDecl.name mod.resources).lookup name

/-- The policies by name, without the settings given twice. -/
def policies : List (String × Policy) := Dict.latest Policy.name (mod.policies.map fun p => { p with dups := [] })

def localType (resource : String) : String := ((res mod resource).bind fun r => given r.emitType).getD "var"

def acquireExpr (resource args : String) : String :=
  match (res mod resource).bind fun r => given r.emitAcquire with
  | some template => template.replace "\x7bargs\x7d" args
  | none =>
    let method := match res mod resource with
      | some r => member r .acquire
      | none => "Create"
    s!"{resource}.{method}({args})"

def releaseStmt (var resource : String) : String :=
  match (res mod resource).bind fun r => given r.emitRelease with
  | some template => template.replace "\x7b0\x7d" var ++ ";"
  | none =>
    let method := match res mod resource with
      | some r => member r .release
      | none => "Dispose"
    s!"{var}.{method}();"

def borrowExpr (owner resource : String) : String :=
  match (res mod resource).bind fun r => given r.emitBorrow with
  | some template => template.replace "\x7b0\x7d" owner
  | none => owner

def acquireLine (name resource : String) (args : List Expr) : String :=
  let type := localType mod resource
  let value := acquireExpr mod resource (argsCsv args)
  s!"{type} {name} = {value};"

/-! ## Buffers -/

def sizeExpr (info : BufferInfo) : String :=
  match info.sizeConst, info.sizeVar with
  | some n, _ => toString n
  | none, some v => if v = "" then "0" else v
  | none, none => "0"

/-- The lines, where the flag is set. -/
def onlyIf (flag : Bool) (lines : List String) : List String := if flag then lines else []

/-- What is done before a buffer is used and once it is not used any more, in the function `fn`. -/
def bufferLines (fn name : String) (info : BufferInfo) : List String × List String :=
  let size := sizeExpr info
  let limit := info.inlineBytes
  let dynamic := info.sizeConst.isNone
  -- the counters are about requests for scratch buffers
  let counted : Bool := info.counters && decide (info.mode = .scratch)
  let cleared := onlyIf info.clearOnRelease ([s!"{name}.Clear();"] ++ onlyIf counted ["OwnCounters.ForcedClear();"])
  let requested := onlyIf counted [s!"OwnCounters.Requested({size});", "OwnCounters.StackHit();"]
  let tooLarge := s!"    throw new ArgumentOutOfRangeException(nameof({size}));"
  let stackTrace := onlyIf info.trace [s!"OwnTrace.StackSelected(\"{fn}\", \"{name}\", {size}, {limit});"]
  let backing := s!"Span<byte> {name}_backing = stackalloc byte[{limit}];"
  let returned := s!"    ArrayPool<byte>.Shared.Return({name}_rented);"
  if info.mode = .stack ∨ info.mode = .inline ∨ (info.mode = .scratch ∧ ¬info.fallbackPool) then
    (onlyIf dynamic [s!"if ((uint){size} > {limit})", tooLarge] ++ stackTrace ++ requested ++
      (if info.sizeConst = some limit then [s!"Span<byte> {name} = stackalloc byte[{limit}];"]
       else [backing, s!"Span<byte> {name} = {name}_backing[..{size}];"]),
     onlyIf counted ["OwnCounters.Release();"] ++ cleared)
  else if info.mode = .scratch then
    (onlyIf dynamic [s!"if ({size} < 0)", tooLarge] ++
      [s!"byte[]? {name}_rented = null;", backing, s!"Span<byte> {name};"] ++
      onlyIf counted [s!"OwnCounters.Requested({size});"] ++
      [s!"if ({size} <= {limit})", "\x7b"] ++
      onlyIf info.trace [s!"    OwnTrace.ScratchSelected(\"{fn}\", \"{name}\", {size}, {limit}, \"stackalloc\");"] ++
      onlyIf counted ["    OwnCounters.StackHit();"] ++
      [s!"    {name} = {name}_backing[..{size}];", "\x7d", "else", "\x7b"] ++
      onlyIf info.trace [s!"    OwnTrace.ScratchSelected(\"{fn}\", \"{name}\", {size}, {limit}, \"ArrayPool\");"] ++
      onlyIf counted [s!"    OwnCounters.PoolFallback({size});"] ++
      [s!"    {name}_rented = ArrayPool<byte>.Shared.Rent({size});",
       s!"    {name} = {name}_rented.AsSpan(0, {size});", "\x7d"],
     onlyIf counted ["OwnCounters.Release();"] ++ cleared ++ [s!"if ({name}_rented is not null)"] ++
      (if counted then ["\x7b", returned, s!"    OwnCounters.PoolReturned({size});", "\x7d"] else [returned]))
  else if info.mode = .pooled then
    (onlyIf info.trace [s!"OwnTrace.PooledSelected(\"{fn}\", \"{name}\", {size});"] ++
      [s!"byte[] {name}_array = ArrayPool<byte>.Shared.Rent({size});", s!"Span<byte> {name} = {name}_array.AsSpan(0, {size});"],
     cleared ++ [s!"ArrayPool<byte>.Shared.Return({name}_array);"])
  else
    (onlyIf dynamic [s!"if ({size} < 0)", tooLarge] ++
      onlyIf info.trace [s!"OwnTrace.NativeSelected(\"{fn}\", \"{name}\", {size});"] ++
      [s!"byte* {name}_ptr = (byte*)System.Runtime.InteropServices.NativeMemory.Alloc((nuint){size});",
       s!"Span<byte> {name} = new Span<byte>({name}_ptr, {size});"],
     cleared ++ [s!"System.Runtime.InteropServices.NativeMemory.Free({name}_ptr);"])

variable (fn : String)

/-- A buffer's lines; a fresh declaration of its name shadows the cleanup of an earlier one. -/
def bufferLowering (name mode : String) (size : Option Expr) (options : List (String × Expr)) (line : Int) (dups : List String)
    (σ : Names) : Except EmitError ((List String × List String) × Names) :=
  match BufferMode.parse mode with
  | none => .error (.valueError s!"'{mode}' is not a valid BufferMode")
  | some m => .ok (bufferLines fn name (resolve m size options dups line (policies mod)).1, σ.forget name)

/-! ## Statements -/

def indent : String := "    "

/-- `line[4:]`, where it is indented. -/
def dedent (line : String) : String :=
  if indent.toList <+: line.toList then String.ofList (line.toList.drop 4) else line

/-- A let that is not a buffer's. -/
def letInline (name : String) (rhs : Expr) (σ : Names) : Except EmitError (String × Names) :=
  -- a declaration of the name shadows the cleanup of an earlier buffer
  let σ := σ.forget name
  match rhs with
  | .acquire rt args _ => .ok (acquireLine mod name rt args, σ.own name rt)
  | .move var _ =>
    .ok (s!"var {name} = {var}; // ownership moved from {var}", (σ.carry name var).own name (σ.resource var))
  | .intLit value _ => .ok (s!"var {name} = {value};", σ)
  | .varRef var _ => .ok (s!"var {name} = {var};", σ)
  | .buffer _ _ _ _ _ _ _ => .error (.codegenError s!"buffer let '{name}' reached the plain inline emitter")

/-- Where a buffer is emitted inline its real cleanup, else the release of its resource. -/
def releaseLines (var : String) (σ : Names) : List String :=
  match σ.bufferCleanup.get? var with
  | some lines => lines
  | none => [releaseStmt mod var (σ.resource var)]

def aliasJoin (name src : String) (σ : Names) : Names :=
  ((σ.forget name).carry name src).own name (σ.resource src)

def useLine (var : String) : String := s!"Use({var});"

def overspanLine (var : String) : String := s!"{var}.AsSpan();  // full-length view over the pooled tail (over-read)"

def callLine (callee : String) (args : List Expr) : String :=
  let csv := argsCsv args
  s!"{callee}({csv});"

def aliasLine (name src : String) : String := s!"var {name} = {src}; // owning alias of {src} (shared obligation)"

def subscribeLine (source : String) : String := s!"{source}.Subscribe(this); // captures self at {source}'s lifetime"

/-- The head of a borrow block: what is lent, and the binding's declaration. -/
def borrowNote (kind : BorrowKind) (owner binding : String) : String :=
  let what := if kind = .mut then "mutable" else "shared"
  s!" // {what} borrow of {owner} as {binding}"

def borrowLine (owner binding : String) (σ : Names) : String :=
  let value := borrowExpr mod owner (σ.resource owner)
  s!"var {binding} = {value};"

def condText (text : String) : String := if text = "" then "cond" else text

def ifLine (cond : String) : String :=
  let text := condText cond
  s!"if ({text})"

def whileLine (cond : String) : String :=
  let text := condText cond
  s!"while ({text})"

def returnLine : Option String → String
  | some var => if var = "" then "return;" else s!"return {var};"
  | none => "return;"

def neverReleased (name : String) : EmitError :=
  .codegenError s!"buffer '{name}' is never released and does not escape cleanly; the checker should have rejected this"

/-- The release that ends a buffer's scope: straight in the list, with no buffer and no plain local before it. -/
def scopeEnd (rest : List Stmt) (name : String) : Option Nat :=
  (findRelease rest name).filter fun j => !fnHasBuffer (rest.take j) && !bodyHasPlainLet (rest.take j)

theorem sizeOf_take_le (l : List Stmt) (n : Nat) : sizeOf (l.take n) ≤ sizeOf l := by
  induction l generalizing n with
  | nil => simp
  | cons st rest ih =>
    cases n with
    | zero =>
      rw [List.take_zero, List.cons.sizeOf_spec, List.nil.sizeOf_spec]
      omega
    | succ n =>
      have h := ih n
      simp only [List.take_succ_cons, List.cons.sizeOf_spec]
      omega

theorem sizeOf_drop_le (l : List Stmt) (n : Nat) : sizeOf (l.drop n) ≤ sizeOf l := by
  induction l generalizing n with
  | nil => simp
  | cons st rest ih =>
    cases n with
    | zero => simp
    | succ n =>
      have h := ih n
      simp only [List.drop_succ_cons, List.cons.sizeOf_spec]
      omega

def tryFinally (ind : String) (body fin : List String) : List String :=
  [ind ++ "try", ind ++ "\x7b"] ++ body ++ [ind ++ "\x7d", ind ++ "finally", ind ++ "\x7b"] ++ fin.map (ind ++ indent ++ ·) ++
    [ind ++ "\x7d"]

mutual

def stmtInline (st : Stmt) (ind : String) (σ : Names) : Except EmitError (List String × Names) :=
  match st with
  | .let_ name rhs _ => do
    let r ← letInline mod name rhs σ
    return ([ind ++ r.1], r.2)
  | .release var _ => .ok ((releaseLines mod var σ).map (ind ++ ·), σ)
  | .use var _ => .ok ([ind ++ useLine var], σ)
  | .overspan var _ => .ok ([ind ++ overspanLine var], σ)
  | .call callee args _ => .ok ([ind ++ callLine callee args], σ)
  | .aliasJoin name src _ => .ok ([ind ++ aliasLine name src], aliasJoin name src σ)
  | .borrowBlock owner binding kind body _ => do
    let b ← emitBlock body (ind ++ indent) σ
    return ([ind ++ "\x7b" ++ borrowNote kind owner binding, ind ++ indent ++ borrowLine mod owner binding σ] ++ b.1 ++
      [ind ++ "\x7d"], b.2)
  | .if_ cond thenBody elseBody _ => do
    let t ← emitBlock thenBody (ind ++ indent) σ
    let head := [ind ++ ifLine cond, ind ++ "\x7b"] ++ t.1 ++ [ind ++ "\x7d"]
    if elseBody.isEmpty then return (head, t.2)
    else do
      let e ← emitBlock elseBody (ind ++ indent) t.2
      return (head ++ [ind ++ "else", ind ++ "\x7b"] ++ e.1 ++ [ind ++ "\x7d"], e.2)
  | .while_ cond body _ => do
    let b ← emitBlock body (ind ++ indent) σ
    return ([ind ++ whileLine cond, ind ++ "\x7b"] ++ b.1 ++ [ind ++ "\x7d"], b.2)
  | .return_ var _ => .ok ([ind ++ returnLine var], σ)
  | .subscribe source _ => .ok ([ind ++ subscribeLine source], σ)
termination_by sizeOf st

def emitBlock (stmts : List Stmt) (ind : String) (σ : Names) : Except EmitError (List String × Names) :=
  match stmts with
  | [] => .ok ([], σ)
  | .let_ name (.buffer mode size options bline _ _ dups) _ :: rest =>
    match scopeEnd rest name with
    | some j => do
      let b ← bufferLowering mod fn name mode size options bline dups σ
      let body ← emitBlock (rest.take j) (ind ++ indent) b.2
      let more ← emitBlock (rest.drop (j + 1)) ind body.2
      -- with nothing to clean up the body runs straight
      let guarded := if b.1.2 = [] then body.1.map dedent else tryFinally ind body.1 b.1.2
      return (b.1.1.map (ind ++ ·) ++ guarded ++ more.1, more.2)
    | none =>
      if bufferReleased rest name then do
        let b ← bufferLowering mod fn name mode size options bline dups σ
        -- its cleanup is emitted at each release
        let more ← emitBlock rest ind { b.2 with bufferCleanup := b.2.bufferCleanup.set name b.1.2 }
        return (b.1.1.map (ind ++ ·) ++ more.1, more.2)
      else .error (neverReleased name)
  | st :: rest => do
    let s ← stmtInline st ind σ
    let more ← emitBlock rest ind s.2
    return (s.1 ++ more.1, more.2)
termination_by sizeOf stmts
decreasing_by
  all_goals simp_wf
  · have := sizeOf_take_le rest j
    omega
  · have := sizeOf_drop_le rest (j + 1)
    omega
  · omega

end

/-- What a statement that opens a scope puts before and after what is in it. -/
def scopeLowering (st : Stmt) (σ : Names) : Except EmitError (Option (List String × List String) × Names) :=
  match st with
  | .let_ name (.acquire rt args _) _ =>
    .ok (some ([acquireLine mod name rt args], [releaseStmt mod name rt]), σ.own name rt)
  | .let_ name (.buffer mode size options bline _ _ dups) _ => do
    let b ← bufferLowering mod fn name mode size options bline dups σ
    return (some b.1, b.2)
  | _ => .ok (none, σ)

/-- The statements of a scope, and those after the release that ends it. -/
def segment (name : String) (after : List Stmt) : List Stmt × List Stmt :=
  match findRelease after name with
  | some rel => (after.take rel, after.drop (rel + 1))
  | none => (after, [])

theorem segment_length (name : String) (after : List Stmt) :
    (segment name after).1.length ≤ after.length ∧ (segment name after).2.length ≤ after.length := by
  unfold segment
  split
  next rel h => exact ⟨by rw [List.length_take]; omega, by rw [List.length_drop]; omega⟩
  next => exact ⟨Nat.le_refl _, Nat.zero_le _⟩

def emitHoist (stmts : List Stmt) (base : String) (σ : Names) : Except EmitError (List String × Names) :=
  match stmts with
  | [] => .ok ([], σ)
  | st :: after => do
    let s ← scopeLowering mod fn st σ
    match s.1 with
    | some (pre, fin) => do
      let name := (opened st).getD ""
      let inner := if fin = [] then base else base ++ indent
      let body ← emitHoist (segment name after).1 inner s.2
      let tail ← emitHoist (segment name after).2 base body.2
      let guarded := if fin = [] then body.1 else tryFinally base body.1 fin
      return (pre.map (base ++ ·) ++ guarded ++ tail.1, tail.2)
    | none => do
      -- the release of an owned parameter is emitted where it is
      let s ← stmtInline mod fn st base s.2
      let more ← emitHoist after base s.2
      return (s.1 ++ more.1, more.2)
termination_by stmts.length
decreasing_by
  · have := (segment_length ((opened st).getD "") after).1
    simp
    omega
  · have := (segment_length ((opened st).getD "") after).2
    simp
    omega
  · simp

end

/-! ## Functions and modules -/

section

variable (mod : Module) (fn : FnItem)

/-- The owned parameters are of their resources. -/
def paramNames : Names :=
  fn.params.foldl (fun σ p => if !p.type.borrowed && (res mod p.type.name).isSome then σ.own p.name p.type.name else σ) {}

def bodyLines : Except EmitError (List String × Names) :=
  if isSimple fn.body then emitHoist mod fn.name fn.body indent (paramNames mod fn)
  else emitBlock mod fn.name fn.body indent (paramNames mod fn)

def head : String :=
  let ret := match fn.ret with
    | some t => csharpType t
    | none => "void"
  let params := ", ".intercalate (fn.params.map fun p => csharpType p.type ++ " " ++ p.name)
  let unsafe_ := if fnHasNative fn.body then "unsafe " else ""
  s!"public static {unsafe_}{ret} {fn.name}({params})"

/-- `_FnGen.emit`, as the lines of its text. -/
def emit : Except EmitError (List String) := do
  let body ← bodyLines mod fn
  return [head fn, "\x7b"] ++ body.1 ++ ["\x7d"]

end

end OwnNet.Emit
