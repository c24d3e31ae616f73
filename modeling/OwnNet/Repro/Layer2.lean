/-
  OwnNet.Repro.Layer2 — the lowered layer's document: the lowered module and its handles, as one
  JSON object.

  A document is written with its parts told apart: the text of the program under analysis, the
  words of the format and the names that were minted. `untag` forgets the difference, which is all
  a reader of the document has.
-/

import Mathlib.Data.String.Basic
import OwnNet.Json
import OwnNet.Repro.Reduce

namespace OwnNet.Repro

/-! ## Minted names -/

/-- What a handle is minted for. -/
inductive Mint where
  | sub | cap | parg | loc
  deriving DecidableEq, Repr

def Mint.text : Mint → String
  | sub => "sub"
  | cap => "cap"
  | parg => "parg"
  | loc => "loc"

structure Handle where
  mint : Mint
  counter : Nat
  deriving DecidableEq, Repr

def Handle.text (h : Handle) : String := h.mint.text ++ "_" ++ toString h.counter

/-- What a statement refers to: a handle, or the binding of an exclusive loan. -/
inductive Ref where
  | handle (h : Handle)
  | loan (counter : Nat)
  deriving DecidableEq, Repr

def Ref.text : Ref → String
  | handle h => h.text
  | loan n => "brw_" ++ toString n

/-! ## Documents with their parts told apart -/

/-- The statement kinds. -/
inductive Word where
  | move | borrowMut | acquire | release | use | overspan | return_ | aliasJoin | call | subscribe | if_ | while_
  deriving DecidableEq, Repr

def Word.text : Word → String
  | move => "move"
  | borrowMut => "borrow_mut"
  | acquire => "acquire"
  | release => "release"
  | use => "use"
  | overspan => "overspan"
  | return_ => "return"
  | aliasJoin => "alias_join"
  | call => "call"
  | subscribe => "subscribe"
  | if_ => "if"
  | while_ => "while"

inductive Tagged where
  | user (value : Json)
  | word (w : Word)
  | ref (r : Ref)
  | arr (items : List Tagged)
  | obj (fields : List (String × Tagged))

namespace Tagged

mutual

/-- The document, with `name` for what was minted. -/
def untag (name : Ref → String) : Tagged → Json
  | user value => value
  | word w => .str w.text
  | ref r => .str (name r)
  | arr items => .arr (untagItems name items)
  | obj fields => .obj (untagFields name fields)

def untagItems (name : Ref → String) : List Tagged → List Json
  | [] => []
  | t :: rest => untag name t :: untagItems name rest

def untagFields (name : Ref → String) : List (String × Tagged) → List (String × Json)
  | [] => []
  | (k, t) :: rest => (k, untag name t) :: untagFields name rest

end

def text (s : String) : Tagged := user (.str s)

def number (n : Int) : Tagged := user (.int n)

def flag (b : Bool) : Tagged := user (.bool b)

/-- `null` is the one meaningful absence. -/
def optional {α : Type} (f : α → Tagged) : Option α → Tagged
  | some a => f a
  | none => user .null

end Tagged

/-! ## The lowered module -/

structure TypeRef where
  name : String
  borrowed : Bool
  mutable_ : Bool

structure Param where
  name : Ref
  type : Option TypeRef
  line : Int
  lifetime : Option String

inductive Stmt where
  | move (name src : Ref) (line : Int)
  | borrowMut (owner binding : Ref) (body : List Stmt) (line : Int)
  | acquire (name : Ref) (resource : String) (line : Int)
  | release (var : Ref) (line : Int)
  | use (var : Ref) (line : Int)
  | overspan (var : Ref) (line : Int)
  | return_ (var : Option Ref) (line : Int)
  | aliasJoin (name src : Ref) (line : Int)
  | call (callee : String) (args : List Ref) (line : Int)
  | subscribe (source : Ref) (line : Int)
  | if_ (condText : String) (thenBody elseBody : List Stmt) (line : Int)
  | while_ (condText : String) (body : List Stmt) (line : Int)

structure FnDecl where
  name : String
  lifetime : Option String
  params : List Param
  ret : Option TypeRef
  body : List Stmt

structure ResourceDecl where
  name : String
  kind : Option String
  members : List (String × String)

structure ExternDecl where
  name : String
  params : List (String × String)

structure LifetimeDecl where
  name : String
  longer : Option String

/-- A handle and what the bridge noted of it. -/
structure HandleRecord where
  handle : Handle
  noted : List (String × Json)

structure Layer2 where
  module_ : String
  resources : List ResourceDecl
  externs : List ExternDecl
  lifetimes : List LifetimeDecl
  functions : List FnDecl
  handles : List HandleRecord

/-! ## The projection -/

section Projection

open Tagged

/-- `_type` -/
def typeEntry (t : TypeRef) : Tagged := obj [("name", text t.name), ("borrowed", flag t.borrowed), ("mutable", flag t.mutable_)]

mutual

/-- `_stmt` -/
def stmtEntry : Stmt → Tagged
  | .move name src line => obj [("stmt", word .move), ("handle", ref name), ("src", ref src), ("line", number line)]
  | .borrowMut owner binding body line =>
    obj [("stmt", word .borrowMut), ("owner", ref owner), ("binding", ref binding),
      ("body", arr (stmtEntries body)), ("line", number line)]
  | .acquire name resource line =>
    obj [("stmt", word .acquire), ("handle", ref name), ("resource", text resource), ("line", number line)]
  | .release var line => obj [("stmt", word .release), ("handle", ref var), ("line", number line)]
  | .use var line => obj [("stmt", word .use), ("handle", ref var), ("line", number line)]
  | .overspan var line => obj [("stmt", word .overspan), ("handle", ref var), ("line", number line)]
  | .return_ var line => obj [("stmt", word .return_), ("handle", optional ref var), ("line", number line)]
  | .aliasJoin name src line => obj [("stmt", word .aliasJoin), ("handle", ref name), ("src", ref src), ("line", number line)]
  | .call callee args line =>
    obj [("stmt", word .call), ("callee", text callee), ("args", arr (args.map ref)), ("line", number line)]
  | .subscribe source line => obj [("stmt", word .subscribe), ("source", ref source), ("line", number line)]
  | .if_ cond thenBody elseBody line =>
    obj [("stmt", word .if_), ("cond", text cond), ("then", arr (stmtEntries thenBody)),
      ("else", arr (stmtEntries elseBody)), ("line", number line)]
  | .while_ cond body line =>
    obj [("stmt", word .while_), ("cond", text cond), ("body", arr (stmtEntries body)), ("line", number line)]

def stmtEntries : List Stmt → List Tagged
  | [] => []
  | s :: rest => stmtEntry s :: stmtEntries rest

end

/-- `_param` -/
def paramEntry (p : Param) : Tagged :=
  obj [("handle", ref p.name), ("type", optional typeEntry p.type), ("line", number p.line),
    ("lifetime", optional text p.lifetime)]

/-- `_function` -/
def functionEntry (fn : FnDecl) : Tagged :=
  obj [("name", text fn.name), ("lifetime", optional text fn.lifetime), ("params", arr (fn.params.map paramEntry)),
    ("ret", optional typeEntry fn.ret), ("body", arr (stmtEntries fn.body))]

/-- `_resource` -/
def resourceEntry (r : ResourceDecl) : Tagged :=
  obj [("name", text r.name), ("kind", optional text r.kind),
    ("members", arr (r.members.map fun m => obj [("role", text m.1), ("name", text m.2)]))]

/-- `_extern` -/
def externEntry (e : ExternDecl) : Tagged :=
  obj [("name", text e.name), ("params", arr (e.params.map fun p => obj [("effect", text p.1), ("type", text p.2)]))]

/-- `_lifetime` -/
def lifetimeEntry (lt : LifetimeDecl) : Tagged := obj [("name", text lt.name), ("longer", optional text lt.longer)]

/-- `_HANDLE_KEYS` -/
def handleKeys : List String :=
  ["component", "file", "line", "event", "handler", "resource", "released", "source", "source_type",
    "di_source_life", "type", "ever_released",
    "pool"]

/-- What of a record is in the document, in the order of the keys. -/
def HandleRecord.kept (r : HandleRecord) : List (String × Json) :=
  handleKeys.filterMap fun k => (member r.noted k).map fun v => (k, v)

/-- `_handle` -/
def handleFields (r : HandleRecord) : List (String × Tagged) :=
  ("handle", ref (.handle r.handle)) :: r.kept.map fun f => (f.1, user f.2)

/-- `project_lowered` of a module that lowers. -/
def projectLowered (d : Layer2) : List (String × Tagged) :=
  [("lowered_version", number 2), ("module", text d.module_), ("resources", arr (d.resources.map resourceEntry)),
    ("externs", arr (d.externs.map externEntry)), ("lifetimes", arr (d.lifetimes.map lifetimeEntry)),
    ("functions", arr (d.functions.map functionEntry)), ("handles", arr (d.handles.map fun r => obj (handleFields r)))]

/-- The document, with `name` for what was minted. -/
def Layer2.json (d : Layer2) (name : Ref → String) : List (String × Json) := untagFields name (projectLowered d)

end Projection

/-! ## The other layers -/

/-- `dump_summaries`: a summary by its method, and the log of what was not resolved. -/
structure SummariesDoc where
  module_ : String
  ownirVersion : Int
  summaries : List (String × List (String × Json))
  unresolved : List String
  degraded : Option String

def SummariesDoc.json (d : SummariesDoc) : List (String × Json) :=
  [("module", .str d.module_), ("ownir_version", .int d.ownirVersion),
    ("summaries", .arr (d.summaries.map fun s => .obj (("method", .str s.1) :: s.2))), ("unresolved",
      .arr (d.unresolved.map .str)),
    ("degraded", d.degraded.elim .null .str)]

/-- A finding by what its address is made of, and its other fields. -/
structure FindingRecord where
  file : String
  line : Int
  code : String
  column : Option Int
  rest : List (String × Json)

def FindingRecord.json (f : FindingRecord) : Json :=
  .obj (("file", .str f.file) :: ("line", .int f.line) :: ("code", .str f.code) :: ("column", f.column.elim .null .int) :: f.rest)

/-- `project_verdicts` of facts that are not refused. -/
structure VerdictsDoc where
  version : Int
  findings : List FindingRecord

def VerdictsDoc.json (d : VerdictsDoc) : List (String × Json) :=
  [("verdicts_version", .int d.version), ("findings", .arr (d.findings.map FindingRecord.json))]

end OwnNet.Repro
