/-
  OwnNet.Json — a JSON document as its reader holds it: objects are dictionaries (their
  keys distinct once read), integers and floats apart.
-/

import Mathlib.Algebra.Order.Ring.Int
import Mathlib.Data.List.Basic

namespace OwnNet

inductive Json where
  | null
  | bool (b : Bool)
  | int (n : Int)
  | float (text : String)
  | str (s : String)
  | arr (items : List Json)
  | obj (fields : List (String × Json))

namespace Json

/-- `doc.get(field)`: a missing field reads as null. -/
def get (fields : List (String × Json)) (field : String) : Json :=
  match fields.find? (fun f => f.1 = field) with
  | some f => f.2
  | none => .null

def asObj : Json → Option (List (String × Json))
  | obj fields => some fields
  | _ => none

def asArr : Json → Option (List Json)
  | arr items => some items
  | _ => none

def asStr : Json → Option String
  | str s => some s
  | _ => none

def asBool : Json → Option Bool
  | bool b => some b
  | _ => none

/-- `_is_int`: an integer both readers hold exactly. -/
def asInt : Json → Option Int
  | int n => if -(2 ^ 63) ≤ n ∧ n ≤ 2 ^ 64 - 1 then some n else none
  | _ => none

/-- `_strings`: an array of strings only. -/
def asStrings (j : Json) : Option (List String) := j.asArr.bind fun items => items.mapM asStr

/-- Induction on a document, its arrays and its objects at once. -/
theorem induct {P : Json → Prop} {Q : List Json → Prop} {R : List (String × Json) → Prop} (null : P .null)
    (bool : ∀ b, P (.bool b)) (int : ∀ n, P (.int n)) (float : ∀ t, P (.float t)) (str : ∀ s, P (.str s))
    (arr : ∀ items, Q items → P (.arr items)) (obj : ∀ fields, R fields → P (.obj fields)) (nil : Q [])
    (cons : ∀ j js, P j → Q js → Q (j :: js)) (fieldsNil : R [])
    (fieldsCons : ∀ k j rest, P j → R rest → R ((k, j) :: rest)) : ∀ j, P j :=
  fun j => Json.rec (motive_1 := P) (motive_2 := Q) (motive_3 := R)
    (motive_4 := fun f => P f.2) null bool int float str arr obj nil
    cons fieldsNil (fun f rest hf hrest => fieldsCons f.1 f.2 rest hf hrest) (fun _ _ hj => hj) j

end Json

end OwnNet
