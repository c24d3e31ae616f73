/-
  OwnNet.OwnIR.Nodes — the ops of a flow body, as the bridge reads them.

  An op is a JSON object; its sub-bodies are read where it has them as arrays, whatever its
  kind, and are empty otherwise. Every other field stays JSON: what a reader makes of a
  field of the wrong type is part of what it does. A name is read through `str`.
-/

import OwnNet.Json
import Mathlib.Data.String.Basic

namespace OwnNet.OwnIR

abbrev Fields := List (String × Json)

/-! ## Text -/

/-- A character of a string shown between `quote`s. The non-printable ones above U+00FF, which
    `repr` escapes too, are left as they are. -/
def reprChar (quote c : Char) : List Char :=
  if c = '\\' ∨ c = quote then ['\\', c]
  else if c = '\n' then ['\\', 'n']
  else if c = '\r' then ['\\', 'r']
  else if c = '\t' then ['\\', 't']
  else if c.toNat < 32 ∨ (127 ≤ c.toNat ∧ c.toNat ≤ 160) ∨ c.toNat = 173 then
    ['\\', 'x', Nat.digitChar (c.toNat / 16), Nat.digitChar (c.toNat % 16)]
  else [c]

/-- `repr` of a string: in single quotes, unless it has some and no double ones. -/
def reprStr (s : String) : String :=
  let quote := if s.toList.contains '\'' ∧ ¬s.toList.contains '"' then '"' else '\''
  String.ofList (quote :: s.toList.flatMap (reprChar quote) ++ [quote])

mutual

def repr : Json → String
  | .null => "None"
  | .bool b => if b then "True" else "False"
  | .int n => toString n
  | .float text => text
  | .str s => reprStr s
  | .arr items => "[" ++ ", ".intercalate (reprItems items) ++ "]"
  | .obj fields => "\x7b" ++ ", ".intercalate (reprFields fields) ++ "\x7d"

def reprItems : List Json → List String
  | [] => []
  | j :: rest => repr j :: reprItems rest

def reprFields : List (String × Json) → List String
  | [] => []
  | (k, j) :: rest => (reprStr k ++ ": " ++ repr j) :: reprFields rest

end

def str : Json → String
  | .str s => s
  | j => repr j

/-- `fields.get(field, dflt)`. -/
def getD (fields : Fields) (field : String) (dflt : Json) : Json :=
  match fields.find? (fun f => f.1 = field) with
  | some f => f.2
  | none => dflt

def asLine : Json → Int
  | .int n => if 0 ≤ n ∧ n ≤ 2147483647 then n else 0
  | _ => 0

def asCol : Json → Option Int
  | .int n => if 1 ≤ n ∧ n ≤ 2147483647 then some n else none
  | _ => none

/-- Whether a value counts as false: `value or default` then is the default. -/
def falsy : Json → Bool
  | .null => true
  | .bool b => !b
  | .int n => n = 0
  | .float text => text = "0.0" ∨ text = "-0.0"
  | .str s => s = ""
  | .arr items => items.isEmpty
  | .obj fields => fields.isEmpty

def typeName : Json → String
  | .null => "NoneType"
  | .bool _ => "bool"
  | .int _ => "int"
  | .float _ => "float"
  | .str _ => "str"
  | .arr _ => "list"
  | .obj _ => "dict"

/-- What `for a in value or []` runs over: the characters of a string, the keys of an object; a
    number stops it. -/
def iterate (j : Json) : Except String (List Json) :=
  if falsy j then .ok []
  else
    match j with
    | .arr items => .ok items
    | .str s => .ok (s.toList.map fun c => .str (String.ofList [c]))
    | .obj fields => .ok (fields.map fun f => .str f.1)
    | j => .error ("TypeError: '" ++ typeName j ++ "' object is not iterable")

/-! ## Ops -/

/-- `_FLOW_OPS`, and what is not among them. -/
inductive OpKind where
  | acquire | release | use | overspan | return_ | aliasJoin | call | if_ | while_ | move | borrowMut | provenCall
  | other
  deriving DecidableEq, Repr

def OpKind.parse : String → OpKind
  | "acquire" => .acquire
  | "release" => .release
  | "use" => .use
  | "overspan" => .overspan
  | "return" => .return_
  | "alias_join" => .aliasJoin
  | "call" => .call
  | "if" => .if_
  | "while" => .while_
  | "move" => .move
  | "borrow_mut" => .borrowMut
  | "proven_call" => .provenCall
  | _ => .other

/-- An entry of a flow body: an object with its sub-bodies, or something else, which every reader skips. -/
inductive Node where
  | junk
  | op (fields : Fields) (thenOps elseOps bodyOps : List Node)

namespace Node

/-- Induction on an op and on a list of ops at once. -/
theorem induct {P : Node → Prop} {Q : List Node → Prop} (junk : P .junk)
    (op : ∀ fields thenOps elseOps bodyOps, Q thenOps → Q elseOps → Q bodyOps → P (.op fields thenOps elseOps bodyOps))
    (nil : Q []) (cons : ∀ n ns, P n → Q ns → Q (n :: ns)) : (∀ n, P n) ∧ ∀ ns, Q ns :=
  ⟨fun n => Node.rec (motive_1 := P) (motive_2 := Q) junk op nil cons n,
    fun ns => Node.rec_1 (motive_1 := P) (motive_2 := Q) junk op nil cons ns⟩

/-- The sub-body under `key`. -/
def sub (subs : List (String × List Node)) (key : String) : List Node :=
  match subs.find? (fun s => s.1 = key) with
  | some s => s.2
  | none => []

mutual

def read : Json → Node
  | .obj fields =>
    let subs := readFields fields
    .op fields (sub subs "then") (sub subs "else") (sub subs "body")
  | _ => .junk

def readItems : List Json → List Node
  | [] => []
  | j :: rest => read j :: readItems rest

def readFields : List (String × Json) → List (String × List Node)
  | [] => []
  | (key, j) :: rest => (key, readSub j) :: readFields rest

/-- The ops of an array, none of anything else. -/
def readSub : Json → List Node
  | .arr items => readItems items
  | _ => []

end

end Node

/-- What an op is, from its `op` field. -/
def opKind (fields : Fields) : OpKind :=
  match Json.get fields "op" with
  | .str s => OpKind.parse s
  | _ => .other

def lineOf (fields : Fields) : Int := asLine (Json.get fields "line")

def calleeOf (fields : Fields) : String := str (getD fields "callee" (.str ""))

/-- The arguments of a call, where they are an array; without the field there are none. -/
def argsOf (fields : Fields) : Option (List Json) := (getD fields "args" (.arr [])).asArr

/-- `_call_sig`: of the wrong type it reads as absent. -/
def sigOf (fields : Fields) : Option String := (Json.get fields "sig").asStr

mutual

/-- An op, or what a branch or a loop has inside, in document order. -/
def flatNode : Node → List Fields
  | .junk => []
  | .op fields thenOps elseOps bodyOps =>
    match opKind fields with
    | .if_ => flat thenOps ++ flat elseOps
    | .while_ => flat bodyOps
    | _ => [fields]

/-- The ops a walk meets that goes into branches and loops. -/
def flat : List Node → List Fields
  | [] => []
  | n :: rest => flatNode n ++ flat rest

end

/-! ## Functions -/

/-- An entry of `functions`. -/
structure Fn where
  fields : Fields
  body : List Node

namespace Fn

def read : Json → Option Fn
  | .obj fields => some ⟨fields, Node.readSub (Json.get fields "body")⟩
  | _ => none

/-- Entries that are not objects are skipped by every reader. -/
def readAll (j : Json) : List Fn := ((j.asArr).getD []).filterMap read

def name (fn : Fn) : String := str (getD fn.fields "name" (.str ""))

def file (fn : Fn) : String := str (getD fn.fields "file" (.str "?"))

def sig (fn : Fn) : Option String := sigOf fn.fields

/-- The parameters that are objects, each with its position among all. -/
def params (fn : Fn) : List (Nat × Fields) :=
  (((Json.get fn.fields "params").asArr).getD []).zipIdx.filterMap fun p => p.1.asObj.map fun fields => (p.2, fields)

end Fn

end OwnNet.OwnIR
