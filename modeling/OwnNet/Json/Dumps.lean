/-
  OwnNet.Json.Dumps — the canonical text of a JSON document: keys in order, no blanks,
  nothing escaped that need not be.
-/

import Mathlib.Data.List.Sort
import Mathlib.Data.String.Basic
import OwnNet.Json.Fields

namespace OwnNet.Json

def dumpChar (c : Char) : List Char :=
  if c = '"' then ['\\', '"']
  else if c = '\\' then ['\\', '\\']
  else if c = '\n' then ['\\', 'n']
  else if c = '\r' then ['\\', 'r']
  else if c = '\t' then ['\\', 't']
  else if c.toNat = 8 then ['\\', 'b']
  else if c.toNat = 12 then ['\\', 'f']
  else if c.toNat < 32 then ['\\', 'u', '0', '0', Nat.digitChar (c.toNat / 16), Nat.digitChar (c.toNat % 16)]
  else [c]

def dumpStr (s : String) : String := String.ofList ('"' :: s.toList.flatMap dumpChar ++ ['"'])

mutual

/-- `json.dumps(…, sort_keys=True, separators=(",", ":"), ensure_ascii=False)` -/
def dumps : Json → String
  | .null => "null"
  | .bool b => if b then "true" else "false"
  | .int n => toString n
  | .float text => text
  | .str s => dumpStr s
  | .arr items => "[" ++ ",".intercalate (dumpItems items) ++ "]"
  | .obj fields =>
    let members := (dumpFields fields).insertionSort fun a b => a.1 ≤ b.1
    "\x7b" ++ ",".intercalate (members.map fun m => dumpStr m.1 ++ ":" ++ m.2) ++ "\x7d"

def dumpItems : List Json → List String
  | [] => []
  | j :: rest => dumps j :: dumpItems rest

def dumpFields : List (String × Json) → List (String × String)
  | [] => []
  | (k, j) :: rest => (k, dumps j) :: dumpFields rest

end

end OwnNet.Json
