/-
  OwnNet.Lang.Parser — OwnLang's recursive-descent parser, function by function.

  `asBuilt` is the source. The other `Rules` differ from it only in what a buffer intent's arguments
  may be: `documented` is the grammar at the head of the source, `leadingSize` that grammar with the
  keyword `policy` for an option's name, which the source takes on purpose.

  Not modeled: the interpreter's limit on nested calls, and how an error's message is put together
  from its parts.
-/

import OwnNet.Lang.Module
import OwnNet.Lang.Lexer
import OwnNet.Parsing.Descent
import Mathlib.Data.List.Sort

namespace OwnNet.Lang

open Parsing (Alphabet)
open Parsing.Parser

instance : Alphabet Token Tok where
  kind := Token.kind
  name := Tok.name
  stop := .eof
  number := .int

abbrev Parser (α : Type) : Type := Parsing.Parser Token α

structure Rules where
  /-- What may name a buffer's option. -/
  names : List Tok
  /-- A size must stand before the options. -/
  leading : Bool
  words : ∀ k ∈ names, k = .ident ∨ k = .policy := by decide

namespace Rules

def asBuilt : Rules := { names := [.ident, .policy], leading := false }

def documented : Rules := { names := [.ident], leading := true }

def leadingSize : Rules := { names := [.ident, .policy], leading := true }

end Rules

/-! ## What is read along the way -/

/-- `d[key] = value` of a dictionary in the order its keys came. -/
def setKey {α : Type} (key : String) (value : α) : List (String × α) → List (String × α)
  | [] => [(key, value)]
  | e :: rest => if e.1 = key then (key, value) :: rest else e :: setKey key value rest

/-- `tuple(sorted({k for k in seen if seen.count(k) > 1}))`. -/
def dupsOf (seen : List String) : List String := (seen.filter fun k => 1 < seen.count k).dedup.insertionSort (· ≤ ·)

structure BufferArgs where
  size : Option Expr := none
  options : List (String × Expr) := []
  seen : List String := []
  first : Bool := true

namespace BufferArgs

def named (s : BufferArgs) (key : String) (value : Expr) : BufferArgs :=
  { s with options := setKey key value s.options, seen := s.seen ++ [key] }

def sized (s : BufferArgs) (size : Expr) : BufferArgs := { s with size := some size, first := false }

/-- A size may still be given. -/
def admits (r : Rules) (s : BufferArgs) : Bool := s.first && (!r.leading || s.seen.isEmpty)

end BufferArgs

structure Settings where
  entries : List (String × PolicyValue) := []
  seen : List String := []

def Settings.set (s : Settings) (key : String) (value : PolicyValue) : Settings :=
  ⟨setKey key value s.entries, s.seen ++ [key]⟩

def emitToks : List Tok := [.emitType, .emitAcquire, .emitRelease, .emitBorrow]

def ResourceDecl.setEmit (d : ResourceDecl) (field : Tok) (template : String) : ResourceDecl :=
  match field with
  | .emitType => { d with emitType := some template }
  | .emitAcquire => { d with emitAcquire := some template }
  | .emitRelease => { d with emitRelease := some template }
  | .emitBorrow => { d with emitBorrow := some template }
  | _ => d

def ResourceDecl.addMember (d : ResourceDecl) (role : Role) (m : Token) : ResourceDecl :=
  { d with members := d.members ++ [⟨role, m.text, m.line⟩] }

def effectTok : Tok → Option Effect
  | .borrow => some .borrow
  | .borrowMut => some .borrowMut
  | .consume => some .consume
  | _ => none

def policyWord (word : String) : PolicyValue :=
  if word = "true" then .bool true else if word = "false" then .bool false else .str word

/-! ## Parsing -/

def outOfScope (t : Token) : String :=
  "'" ++ t.text ++ "' is out of scope for the MVP — for/loop-style iteration and async are deliberately unsupported " ++
    "('while' is supported; see README, 'Where it cheats')"

def rejectGuard : Parser Unit := do
  if ← isAt .rejected then
    let t ← cur
    unexpected (outOfScope t) t
  else return ()

/-- An identifier with this text: a word that is a keyword here only. -/
def word (text message : String) : Parser Token := do
  let t ← eat .ident
  if t.text = text then return t else unexpected message t

def isWord (text : String) : Parser Bool := do
  let t ← cur
  return t.kind = .ident && t.text = text

/-- An identifier where the keyword `k` announces one. -/
def identAfter (k : Tok) : Parser (Option String) := optional k (do return some (← eat .ident).text) none

def parseLifetime : Parser LifetimeDecl := do
  let kw ← eat .lifetime
  let name ← eat .ident
  let longer ← identAfter .lt
  let _ ← eat .semi
  return ⟨name.text, longer, kw.line⟩

section Numbers

variable (u : Ucd)

def parseAtom : Parser Expr := do
  if ← isAt .int then
    let n ← number fun t : Token => u.int t.text
    return .intLit n.2 n.1.line
  else
    let t ← eat .ident
    return .varRef t.text t.line

def policyValue : Parser PolicyValue := do
  if ← isAt .int then
    let n ← number fun t : Token => u.int t.text
    return .int n.2
  else
    let word ← eat .ident
    return policyWord word.text

def policySetting (s : Settings) : Parser Settings := do
  let key ← eat .ident
  let _ ← eat .eq
  let value ← policyValue u
  let _ ← eat .semi
  return s.set key.text value

def parsePolicy : Parser Policy := do
  let kw ← eat .policy
  let name ← eat .ident
  let _ ← eat .lbrace
  let s ← loop (fun k => k != .rbrace) (policySetting u) {}
  let _ ← eat .rbrace
  return ⟨name.text, s.entries, kw.line, dupsOf s.seen⟩

def parseArgs : Parser (List Expr) := listed .rparen .comma (fun args => do return args ++ [← parseAtom u]) []

end Numbers

def resourceMember (d : ResourceDecl) : Parser ResourceDecl := do
  if ← isAt .acquire then
    let _ ← eat .acquire
    return d.addMember .acquire (← eat .ident)
  else if ← isAt .release then
    let _ ← eat .release
    return d.addMember .release (← eat .ident)
  else if ← isAtAny emitToks then
    let field ← advance
    return d.setEmit field.kind (← eat .string).text
  else if ← isWord "kind" then
    let _ ← advance
    return { d with kind := some (← eat .string).text }
  else unexpected "expected 'acquire', 'release', 'kind' or an emit_* template" (← cur)

def parseResource : Parser ResourceDecl := do
  let kw ← eat .resource
  let name ← eat .ident
  let _ ← eat .lbrace
  let d ← loop (fun k => k != .rbrace) resourceMember { name := name.text, members := [], line := kw.line }
  let _ ← eat .rbrace
  return d

def parseType : Parser TypeRef := do
  if ← isAt .amp then
    let amp ← eat .amp
    let mutable ← accept .mut_
    let nm ← eat .ident
    return ⟨nm.text, true, mutable, amp.line⟩
  else
    let nm ← eat .ident
    return ⟨nm.text, false, false, nm.line⟩

def parseRet : Parser (Option TypeRef) := optional .arrow (do return some (← parseType)) none

def parseEparam : Parser EffectParam := do
  if ← isAtAny [.borrow, .borrowMut, .consume] then
    let kw ← advance
    let ty ← eat .ident
    return ⟨(effectTok kw.kind).getD .plain, ty.text, kw.line⟩
  else
    let ty ← eat .ident
    return ⟨.plain, ty.text, ty.line⟩

def parseExtern : Parser ExternDecl := do
  let kw ← eat .extern_
  let _ ← eat .fn
  let name ← eat .ident
  let _ ← eat .lparen
  let params ← listed .rparen .comma (fun ps => do return ps ++ [← parseEparam]) []
  let _ ← eat .rparen
  let ret ← parseRet
  let _ ← eat .semi
  return ⟨name.text, params, ret, kw.line⟩

def parseParam : Parser ParamDecl := do
  let nm ← eat .ident
  let _ ← eat .colon
  let ty ← parseType
  let lifetime ← identAfter .lifetime
  return { name := nm.text, type := ty, line := nm.line, lifetime := lifetime }

/-! ## Statements -/

section Statements

variable (u : Ucd) (r : Rules)

def bufferArg (s : BufferArgs) : Parser BufferArgs := do
  if ← isAtThen r.names .eq then
    let key ← advance
    let _ ← eat .eq
    return s.named key.text (← parseAtom u)
  else
    let atom ← parseAtom u
    if s.admits r then return s.sized atom
    else unexpected "only the leading size may be positional in a buffer intent; later arguments must be named" (← cur)

def parseBufferIntent : Parser Expr := do
  let ns ← eat .ident
  let _ ← eat .dot
  let mode ← eat .ident
  let _ ← eat .lparen
  let s ← listed .rparen .comma (bufferArg u r) {}
  let _ ← eat .rparen
  return .buffer mode.text s.size s.options ns.line ns.text ns.col (dupsOf s.seen)

def parseRhs : Parser Expr := do
  if ← isAt .acquire then
    let kw ← eat .acquire
    let res ← eat .ident
    let _ ← eat .lparen
    let args ← parseArgs u
    let _ ← eat .rparen
    return .acquire res.text args kw.line
  else if ← isAt .move then
    let kw ← eat .move
    let v ← eat .ident
    return .move v.text kw.line
  else if ← isAtThen [.ident] .dot then parseBufferIntent u r
  else parseAtom u

def parseLet : Parser Stmt := do
  let kw ← eat .let_
  let nm ← eat .ident
  let _ ← eat .eq
  let rhs ← parseRhs u r
  let _ ← eat .semi
  return .let_ nm.text rhs kw.line

/-- `parse_release`, `parse_use` and `parse_overspan`: a keyword, a variable and a semicolon. -/
def parseNamed (k : Tok) (mk : String → Int → Stmt) : Parser Stmt := do
  let kw ← eat k
  let v ← eat .ident
  let _ ← eat .semi
  return mk v.text kw.line

def parseRelease : Parser Stmt := parseNamed .release .release

def parseUse : Parser Stmt := parseNamed .use .use

def parseOverspan : Parser Stmt := parseNamed .overspan .overspan

def parseCall : Parser Stmt := do
  let nm ← eat .ident
  let _ ← eat .lparen
  let args ← parseArgs u
  let _ ← eat .rparen
  let _ ← eat .semi
  return .call nm.text args nm.line

def maybeIdent : Parser (Option String) := do
  if ← isAt .ident then return some (← eat .ident).text else return none

def parseReturn : Parser Stmt := do
  let kw ← eat .return_
  let var ← maybeIdent
  let _ ← eat .semi
  return .return_ var kw.line

def parseSubscribe : Parser Stmt := do
  let kw ← eat .subscribe
  let _ ← word "self" "expected 'self' after 'subscribe'"
  let _ ← word "to" "expected 'to' in 'subscribe self to <source>'"
  let source ← eat .ident
  let _ ← eat .semi
  return .subscribe source.text kw.line

/-- What is left of a condition, and the parenthesis that closes it; `depth` are open. -/
def condFrom (message : String) : Nat → List String → Parser (List String)
  | _, _, [] => .error .index
  | depth, parts, t :: rest =>
    if t.kind = .eof then .error (.unexpected message t)
    else if t.kind = .lparen then condFrom message (depth + 1) (parts ++ [t.text]) rest
    else if t.kind = .rparen then
      if depth = 1 then .ok (parts, rest) else condFrom message (depth - 1) (parts ++ [t.text]) rest
    else condFrom message depth (parts ++ [t.text]) rest

/-- The condition of an `if` or a `while`. -/
def parseCond (message : String) : Parser String := do
  let _ ← eat .lparen
  return " ".intercalate (← condFrom message 1 [])

section Nested

variable (stmt : Parser Stmt)

def parseBlock : Parser (List Stmt) := do
  let _ ← eat .lbrace
  let stmts ← loop (fun k => k != .rbrace) (fun ss => do
    rejectGuard
    return ss ++ [← stmt]) []
  let _ ← eat .rbrace
  return stmts

def borrowKind : Parser (Token × BorrowKind) := do
  if ← isAt .borrowMut then return (← eat .borrowMut, .mut) else return (← eat .borrow, .shared)

def parseBorrow : Parser Stmt := do
  let kw ← borrowKind
  let owner ← eat .ident
  let _ ← eat .as_
  let binding ← eat .ident
  let body ← parseBlock stmt
  return .borrowBlock owner.text binding.text kw.2 body kw.1.line

def parseIf : Parser Stmt := do
  let kw ← eat .if_
  let cond ← parseCond "unterminated if-condition"
  let thenBody ← parseBlock stmt
  let elseBody ← optional .else_ (parseBlock stmt) []
  return .if_ cond thenBody elseBody kw.line

def parseWhile : Parser Stmt := do
  let kw ← eat .while_
  let cond ← parseCond "unterminated while-condition"
  let body ← parseBlock stmt
  return .while_ cond body kw.line

end Nested

/-- `fuel` bounds how deep blocks nest. -/
def parseStmt : Nat → Parser Stmt
  | 0 => fail .fuel
  | fuel + 1 => do
    rejectGuard
    if ← isAt .let_ then parseLet u r
    else if ← isAt .release then parseRelease
    else if ← isAt .use then parseUse
    else if ← isAt .overspan then parseOverspan
    else if ← isAtAny [.borrow, .borrowMut] then parseBorrow (parseStmt fuel)
    else if ← isAt .if_ then parseIf (parseStmt fuel)
    else if ← isAt .while_ then parseWhile (parseStmt fuel)
    else if ← isAt .return_ then parseReturn
    else if ← isAt .subscribe then parseSubscribe
    else if ← isAtThen [.ident] .lparen then parseCall u
    else unexpected "expected a statement" (← cur)

/-! ## Modules -/

def parseFn (fuel : Nat) : Parser FnItem := do
  let kw ← eat .fn
  let name ← eat .ident
  let _ ← eat .lparen
  let params ← listed .rparen .comma (fun ps => do return ps ++ [← parseParam]) []
  let _ ← eat .rparen
  let ret ← parseRet
  let lifetime ← identAfter .lifetime
  let body ← parseBlock (parseStmt u r fuel)
  return ⟨name.text, params, ret, body, kw.line, lifetime⟩

def moduleItem (fuel : Nat) (m : Module) : Parser Module := do
  rejectGuard
  if ← isAt .resource then return { m with resources := m.resources ++ [← parseResource] }
  else if ← isAt .extern_ then return { m with externs := m.externs ++ [← parseExtern] }
  else if ← isAt .fn then return { m with functions := m.functions ++ [← parseFn u r fuel] }
  else if ← isAt .policy then return { m with policies := m.policies ++ [← parsePolicy u] }
  else if ← isAt .lifetime then return { m with lifetimes := m.lifetimes ++ [← parseLifetime] }
  else unexpected "expected 'resource', 'extern', 'fn', 'policy' or 'lifetime'" (← cur)

def moduleFrom (fuel : Nat) : Parser Module := do
  let _ ← eat .module_
  let name ← eat .ident
  loop (fun k => k != .eof) (moduleItem u r fuel) { name := name.text }

def Raised.ofFail : Parsing.Fail Token → Raised
  | .unexpected message t => .parse message t
  | .value t => .value t
  | .index => .index
  | .fuel => .fuel

/-- `Parser(toks).parse_module()`. -/
def parseModule (toks : List Token) : Except Raised Module :=
  match moduleFrom u r toks.length toks with
  | .ok (m, _) => .ok m
  | .error e => .error (.ofFail e)

end Statements

def parse (u : Ucd) (src : String) : Except Raised Module :=
  match lex u src with
  | .error e => .error e
  | .ok toks => parseModule u .asBuilt toks

end OwnNet.Lang
