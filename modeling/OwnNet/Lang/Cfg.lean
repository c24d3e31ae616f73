/-
  OwnNet.Lang.Cfg — names to symbols and statements to basic blocks, in one pass.

  A symbol is one declaration: two declarations of a name are two symbols, told apart by
  `id`, the number of symbols declared before. A block is its position in the list; a block
  whose lowering has not ended has no successors yet.
-/

import OwnNet.Lang.Buffers

namespace OwnNet.Lang

/-- A linear resource, a loan of one, or a value whose lifetime is not tracked. -/
inductive Kind where
  | owned | borrow | plain
  deriving DecidableEq, Repr

namespace Kind

def text : Kind → String
  | owned => "owned"
  | borrow => "borrow"
  | plain => "plain"

end Kind

structure Symbol where
  id : Nat
  name : String
  kind : Kind
  defLine : Int
  isParamBorrow : Bool := false
  borrowIsMut : Option Bool := none
  buffer : Option BufferInfo := none
  typeName : Option String := none
  resourceKind : Option String := none
  origin : Option String := none
  deriving DecidableEq, Repr

inductive Instr where
  | acquire (sym : Symbol) (resource : String) (line : Int)
  | acquireBuffer (sym : Symbol) (info : BufferInfo) (line : Int)
  | moveInto (dst src : Symbol) (line : Int)
  | release (sym : Symbol) (line : Int)
  | use (sym : Symbol) (line : Int)
  | overspan (sym : Symbol) (line : Int)
  | invoke (callee : String) (args : List (Option Symbol × Effect)) (line : Int)
  | borrowStart (owner binding : Symbol) (isMut : Bool) (line : Int)
  | borrowEnd (owner binding : Symbol) (isMut : Bool) (line : Int)
  | aliasJoin (handle src : Symbol) (line : Int)
  | return_ (sym : Option Symbol) (line : Int)
  deriving DecidableEq, Repr

def Instr.isReturn : Instr → Bool
  | .return_ _ _ => true
  | _ => false

structure Block where
  instrs : List Instr := []
  succ : List Nat := []
  label : String := ""
  deriving DecidableEq, Repr

structure CFG where
  fnName : String
  blocks : List Block
  entry : Nat
  params : List Symbol
  hasReturnType : Bool

/-- What a function is resolved against: the module's resources, signatures, policies. -/
structure Env where
  resourceNames : List String
  signatures : List (String × List Effect) := []
  policies : List (String × Policy) := []
  resourceKinds : List (String × String) := []

abbrev Scope := List (String × Symbol)

structure Builder where
  diags : List Diagnostic := []
  blocks : List Block := []
  scopes : List Scope := []
  nextSym : Nat := 0

namespace Builder

def report (B : Builder) (code : Code) (message : String) (line : Int) : Builder :=
  { B with diags := B.diags ++ [⟨code, message, line, none, none, []⟩] }

def pushScope (B : Builder) : Builder := { B with scopes := [] :: B.scopes }

def popScope (B : Builder) : Builder := { B with scopes := B.scopes.tail }

def visible (B : Builder) (name : String) : Option Symbol := B.scopes.findSome? fun sc => entry sc name

/-- Declare a symbol in the innermost scope; no scope may already have its name. -/
def declare (B : Builder) (mk : Nat → Symbol) : Builder × Symbol :=
  let sym := mk B.nextSym
  let B := if (B.visible sym.name).isSome then
      B.report .own031 s!"'{sym.name}' is already defined in an enclosing scope" sym.defLine
    else B
  ({ B with
      scopes := ((sym.name, sym) :: B.scopes.headD []) :: B.scopes.tail
      nextSym := B.nextSym + 1 }, sym)

def lookup (B : Builder) (name : String) (line : Int) : Builder × Option Symbol :=
  match B.visible name with
  | some sym => (B, some sym)
  | none => (B.report .own030 s!"undefined name '{name}'" line, none)

def newBlock (B : Builder) (label : String) : Builder := { B with blocks := B.blocks ++ [{ label := label }] }

def emit (B : Builder) (b : Nat) (ins : Instr) : Builder :=
  { B with blocks := B.blocks.modify b fun blk : Block => { blk with instrs := blk.instrs ++ [ins] } }

def link (B : Builder) (b : Nat) (succ : List Nat) : Builder :=
  { B with blocks := B.blocks.modify b fun blk : Block => { blk with succ := succ } }

/-- `link`, for a block that may not be there. -/
def linkIf (B : Builder) (b : Option Nat) (succ : List Nat) : Builder :=
  match b with
  | some b => B.link b succ
  | none => B

/-- The two arms of an `if` in block `cur`. -/
def fork (B : Builder) (cur : Nat) : Builder :=
  ((B.newBlock "then").newBlock "else").link cur [B.blocks.length, B.blocks.length + 1]

/-- The block both arms go on in, where one of them does. -/
def merge (B : Builder) (thenExit elseExit : Option Nat) : Builder × Option Nat :=
  if thenExit = none ∧ elseExit = none then (B, none)
  else
    let m := B.blocks.length
    (((B.newBlock "merge").linkIf thenExit [m]).linkIf elseExit [m], some m)

/-- The test of a `while` in block `cur`, its body and what follows it. -/
def openLoop (B : Builder) (cur : Nat) : Builder :=
  let header := B.blocks.length
  ((((B.newBlock "while.header").link cur [header]).newBlock "while.body").newBlock "while.after").link header
    [header + 1, header + 2]

/-- The end of a borrow block: the binding goes out of scope, and its loan ends where control goes on. -/
def closeBorrow (B : Builder) (owner binding : Symbol) (isMut : Bool) (line : Int) (after : Option Nat) : Builder :=
  match after with
  | none => B.popScope
  | some after => B.popScope.emit after (.borrowEnd owner binding isMut line)

end Builder

/-! ## Statements that stay in their block -/

section Lower

variable (env : Env) (fn : FnDecl)

/-- The size must be an integer: a literal, or a plain `int`. -/
def checkSize (name : String) (size : Option Expr) (line : Int) (B : Builder) : Builder :=
  match size with
  | none => B.report .own018 s!"buffer '{name}' requires a size" line
  | some (.varRef sname sline) =>
    let r := B.lookup sname sline
    match r.2 with
    | none => r.1
    | some ssym =>
      if ssym.kind ≠ .plain then
        r.1.report .own018 s!"buffer size '{sname}' must be an integer, not {ssym.kind.text}" sline
      else if ssym.typeName ≠ some "int" then
        let what := match ssym.typeName with
          | some t => s!"it is '{t}'"
          | none => "its type cannot be determined"
        r.1.report .own018 s!"buffer size '{sname}' must be an integer ({what})" sline
      else r.1
  | some _ => B

def lowerBuffer (name : String) (line : Int) (mode : String) (size : Option Expr) (options : List (String × Expr))
    (bline : Int) (ns : String) (col : Int) (dups : List String) (cur : Nat) (B : Builder) : Builder :=
  let bare := fun id => ({ id := id, name := name, kind := .owned, defLine := line } : Symbol)
  if ns ≠ "Buffer" then
    ((B.report .own030 s!"unknown buffer namespace '{ns}'; buffer intents are written 'Buffer.<mode>(...)'" bline).declare
      bare).1
  else
    match BufferMode.parse mode with
    | none =>
      ((B.report .own030 s!"unknown buffer mode '{mode}'; expected one of {BufferMode.names}" bline).declare bare).1
    | some mode =>
      let B := checkSize name size bline B
      let info := resolve mode size options dups bline env.policies
      let d := { B with diags := B.diags ++ info.2 }.declare fun id =>
        { id := id, name := name, kind := .owned, defLine := line, buffer := some info.1,
          origin := some s!"{name}#{bline}:{col}" }
      d.1.emit cur (.acquireBuffer d.2 info.1 line)

def lowerLet (name : String) (rhs : Expr) (line : Int) (cur : Nat) (B : Builder) : Builder :=
  match rhs with
  | .acquire resource _ rline =>
    let B := if resource ∈ env.resourceNames then B else B.report .own030 s!"undefined resource '{resource}'" rline
    let d := B.declare fun id =>
      { id := id, name := name, kind := .owned, defLine := line, typeName := some resource,
        resourceKind := entry env.resourceKinds resource, origin := some s!"{name}#{rline}" }
    d.1.emit cur (.acquire d.2 resource line)
  | .buffer mode size options bline ns col dups => lowerBuffer env name line mode size options bline ns col dups cur B
  | .move var rline =>
    let r := B.lookup var rline
    match r.2 with
    | none => (r.1.declare fun id => { id := id, name := name, kind := .owned, defLine := line }).1
    | some src =>
      if src.kind ≠ .owned then
        ((r.1.report .own034 s!"cannot move '{var}': it is not an owned resource" rline).declare fun id =>
          { id := id, name := name, kind := .owned, defLine := line }).1
      else
        -- a moved value keeps its storage policy, its identity in reports, its type and its kind
        let d := r.1.declare fun id =>
          { id := id, name := name, kind := .owned, defLine := line, buffer := src.buffer, origin := src.origin,
            typeName := src.typeName, resourceKind := src.resourceKind }
        d.1.emit cur (.moveInto d.2 src line)
  | .varRef var rline =>
    let r := B.lookup var rline
    let B : Builder := match r.2 with
      | none => r.1
      | some src =>
        if src.kind = Kind.owned then
          r.1.report .own032
            s!"cannot copy owned resource '{src.name}' into '{name}'; use 'move {src.name}' to transfer ownership" line
        else r.1
    let type := r.2.bind fun src => if src.kind = .plain then src.typeName else none
    (B.declare fun id => { id := id, name := name, kind := .plain, defLine := line, typeName := type }).1
  | .intLit _ _ =>
    (B.declare fun id => { id := id, name := name, kind := .plain, defLine := line, typeName := some "int" }).1

/-- `name` joins `src`'s obligation as a second owning handle; `src` stays owning. -/
def lowerAliasJoin (name src : String) (line : Int) (cur : Nat) (B : Builder) : Builder :=
  let bare := fun id => ({ id := id, name := name, kind := .owned, defLine := line } : Symbol)
  let r := B.lookup src line
  match r.2 with
  | none => (r.1.declare bare).1
  | some s =>
    if s.kind ≠ .owned then
      ((r.1.report .own034 s!"cannot alias '{src}': it is not an owned resource ({s.kind.text})" line).declare bare).1
    else
      let d := r.1.declare fun id =>
        { bare id with origin := s.origin, typeName := s.typeName, resourceKind := s.resourceKind, buffer := s.buffer }
      d.1.emit cur (.aliasJoin d.2 s line)

/-- Look up every name among the arguments, for the undefined ones. -/
def lookupArgs : List Expr → Builder → Builder
  | [], B => B
  | .varRef name line :: rest, B => lookupArgs rest (B.lookup name line).1
  | _ :: rest, B => lookupArgs rest B

/-- Pair each argument with its parameter's effect; only a name has a symbol. -/
def resolveArgs : List (Expr × Effect) → Builder → Builder × List (Option Symbol × Effect)
  | [], B => (B, [])
  | (.varRef name line, eff) :: rest, B =>
    let r := B.lookup name line
    let more := resolveArgs rest r.1
    (more.1, (r.2, eff) :: more.2)
  | (_, eff) :: rest, B =>
    let more := resolveArgs rest B
    (more.1, (none, eff) :: more.2)

def lowerCall (callee : String) (args : List Expr) (line : Int) (cur : Nat) (B : Builder) : Builder :=
  match entry env.signatures callee with
  | none =>
    lookupArgs args <| B.report .own040
      s!"call to undeclared function '{callee}'; declare it with 'extern fn' (or define it) so its ownership effects are known"
      line
  | some effects =>
    if args.length ≠ effects.length then
      lookupArgs args <| B.report .own041
        s!"'{callee}' expects {effects.length} argument(s) but got {args.length}" line
    else
      let r := resolveArgs (args.zip effects) B
      r.1.emit cur (.invoke callee r.2 line)

/-- What a `return` hands out, and what is wrong with it; `none` where nothing escapes. -/
def returned (var : Option String) (line : Int) (B : Builder) : Builder × Option Symbol :=
  match var, fn.ret with
  | none, none => (B, none)
  | none, some ret =>
    (B.report .own035 s!"'{fn.name}' returns '{ret.name}' but this 'return' provides no value" line, none)
  | some var, none =>
    let r := B.lookup var line
    match r.2 with
    | none => (r.1, none)
    | some _ => (r.1.report .own035 s!"'{fn.name}' has no return type but returns '{var}'" line, none)
  | some var, some ret =>
    let r := B.lookup var line
    match r.2 with
    | none => (r.1, none)
    | some sym =>
      if sym.kind = .borrow then
        (r.1.report .own004
          s!"'{var}' is a borrow and cannot be returned (it would outlive the resource it borrows)" line, none)
      else if ¬ret.borrowed ∧ ret.name ∈ env.resourceNames ∧ sym.buffer = none
          ∧ (sym.kind ≠ .owned ∨ sym.typeName ≠ some ret.name) then
        -- a wrong-typed owned resource still leaves the function
        if sym.kind ≠ .owned then
          (r.1.report .own035 s!"'{fn.name}' returns '{ret.name}' but '{var}' is not an owned resource" line, none)
        else
          let type := sym.typeName.getD "None"
          (r.1.report .own035 s!"'{fn.name}' returns '{ret.name}' but '{var}' is an owned '{type}'" line, some sym)
      else if sym.kind = .plain then (r.1, none)
      else (r.1, some sym)

/-- `release` and the full-length view, which need an owner. -/
def lowerOwned (var : String) (line : Int) (cannot : String) (mk : Symbol → Instr) (cur : Nat) (B : Builder) : Builder :=
  let r := B.lookup var line
  match r.2 with
  | none => r.1
  | some sym =>
    if sym.kind ≠ .owned then
      r.1.report .own034 s!"cannot {cannot} '{var}': it is not an owned resource ({sym.kind.text})" line
    else r.1.emit cur (mk sym)

def lowerUse (var : String) (line : Int) (cur : Nat) (B : Builder) : Builder :=
  let r := B.lookup var line
  match r.2 with
  | none => r.1
  | some sym => r.1.emit cur (.use sym line)

/-! ## Statements and bodies

  `lowerStmt st cur B` lowers `st` from block `cur`; the result's block is where control
  goes on, `none` when it does not. -/

mutual

def lowerStmt : Stmt → Nat → Builder → Builder × Option Nat
  | .let_ name rhs line, cur, B => (lowerLet env name rhs line cur B, some cur)
  | .release var line, cur, B => (lowerOwned var line "release" (.release · line) cur B, some cur)
  | .use var line, cur, B => (lowerUse var line cur B, some cur)
  | .overspan var line, cur, B =>
    (lowerOwned var line "take a full-length view of" (.overspan · line) cur B, some cur)
  | .call callee args line, cur, B => (lowerCall env callee args line cur B, some cur)
  | .aliasJoin name src line, cur, B => (lowerAliasJoin name src line cur B, some cur)
  | .borrowBlock owner binding kind body line, cur, B =>
    let r := B.lookup owner line
    match r.2 with
    | none => (r.1, some cur)
    | some o =>
      if o.kind ≠ .owned then
        (r.1.report .own034 s!"cannot borrow '{owner}': it is not an owned resource" line, some cur)
      else
        let isMut : Bool := kind = .mut
        let d := r.1.pushScope.declare fun id =>
          { id := id, name := binding, kind := .borrow, defLine := line, borrowIsMut := some isMut }
        let s := lowerSeq body cur (d.1.emit cur (.borrowStart o d.2 isMut line))
        (s.1.closeBorrow o d.2 isMut line s.2, s.2)
  | .if_ _ thenBody elseBody _, cur, B =>
    let t := lowerSeq thenBody B.blocks.length (B.fork cur).pushScope
    let e := lowerSeq elseBody (B.blocks.length + 1) t.1.popScope.pushScope
    e.1.popScope.merge t.2 e.2
  | .while_ _ body _, cur, B =>
    let header := B.blocks.length
    let s := lowerSeq body (header + 1) (B.openLoop cur).pushScope
    -- the back-edge: from the end of the body to the test
    (s.1.popScope.linkIf s.2 [header], some (header + 2))
  | .return_ var line, cur, B =>
    let r := returned env fn var line B
    ((r.1.emit cur (.return_ r.2 line)).link cur [], none)
  | .subscribe _ _, cur, B => (B, some cur)

def lowerSeq : List Stmt → Nat → Builder → Builder × Option Nat
  | [], cur, B => (B, some cur)
  | st :: rest, cur, B =>
    let r := lowerStmt st cur B
    match r.2 with
    | none => (r.1, none)
    | some cur => lowerSeq rest cur r.1

end

def declareParam (p : Param) (B : Builder) : Builder × Symbol :=
  let kind := if p.type.borrowed then Kind.borrow else if p.type.name ∈ env.resourceNames then .owned else .plain
  B.declare fun id =>
    { id := id, name := p.name, kind := kind, defLine := p.line, isParamBorrow := p.type.borrowed,
      borrowIsMut := if p.type.borrowed then some p.type.mutable else none, typeName := some p.type.name,
      resourceKind := entry env.resourceKinds p.type.name, origin := some s!"{p.name}#{p.line}" }

def declareParams : List Param → Builder → Builder × List Symbol
  | [], B => (B, [])
  | p :: rest, B =>
    let d := declareParam env p B
    let more := declareParams rest d.1
    (more.1, d.2 :: more.2)

def build : Builder × List Symbol :=
  let ps := declareParams env fn.params { scopes := [[]] }
  let s := lowerSeq env fn fn.body 0 (ps.1.newBlock "entry")
  let B := match fn.ret, s.2 with
    | some ret, some _ =>
      s.1.report .own033
        s!"function '{fn.name}' has return type '{ret.name}' but can reach the end without returning" fn.line
    | _, _ => s.1
  (B.popScope, ps.2)

def buildCfg : CFG × List Diagnostic :=
  let r := build env fn
  ({ fnName := fn.name, blocks := r.1.blocks, entry := 0, params := r.2, hasReturnType := fn.ret.isSome }, r.1.diags)

end Lower

end OwnNet.Lang
