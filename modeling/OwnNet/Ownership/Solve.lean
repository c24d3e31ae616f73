/-
  OwnNet.Ownership.Solve — method ownership summaries: skeletons, the transfer of a
  parameter over its paths, and `solve`: the strongly connected components of the call
  graph callees first, each swept from no evidence until a sweep changes nothing, what is
  left without evidence then kept (`no`); and the chase of a forwarded return.

  `sk` is the dict of skeletons by key, in insertion order. A dict of transfers is a
  partial function on its keys. A loop that has not ended when its fuel runs out gives
  nothing.
-/

import Mathlib.Data.List.Dedup
import Mathlib.Data.List.Sort
import Mathlib.Data.String.Basic
import OwnNet.Dataflow.Rounds
import OwnNet.Graph.Components

namespace OwnNet.Ownership

open Dataflow Graph

/-! ## Transfers -/

inductive Transfer
  | no | must | may | unknown
  deriving DecidableEq, Repr

def join (a b : Transfer) : Transfer :=
  if a = b then a else if a = .unknown ∨ b = .unknown then .unknown else .may

/-- `join` with no evidence yet (⊥) as its identity. -/
def joinOpt : Option Transfer → Option Transfer → Option Transfer
  | none, b => b
  | some a, none => some a
  | some a, some b => some (join a b)

/-! ## Skeletons -/

inductive ActionKind
  | dispose | adopt | ret | borrow | forward
  | other (kind : String)
  deriving DecidableEq, Repr

structure PathAction where
  kind : ActionKind
  callee : String := ""
  arg : Int := -1
  deriving DecidableEq, Repr

structure ParamSkeleton where
  index : Int
  name : String := ""
  disposable : Bool := true
  paths : List PathAction := []
  escapes : Bool := false
  deriving DecidableEq, Repr

inductive ReturnKind
  | fresh | aliasOf | aliased | forward | none
  | other (kind : String)
  deriving DecidableEq, Repr

structure ReturnSkeleton where
  kind : ReturnKind := .none
  arg : Int := -1
  callee : String := ""
  deriving DecidableEq, Repr

structure MethodSkeleton where
  key : String
  params : List ParamSkeleton := []
  ret : ReturnSkeleton := {}
  file : String := "?"
  line : Int := 0
  deriving DecidableEq, Repr

structure ParamSummary where
  index : Int
  name : String
  disposable : Bool
  transfer : Transfer
  escapes : Bool
  deriving DecidableEq, Repr

/-- What a summary says is returned. -/
inductive Returned
  | fresh
  | aliasOf (arg : Int)
  | aliased | none | unknown
  deriving DecidableEq, Repr

structure MethodSummary where
  key : String
  params : List ParamSummary
  returns : Returned
  file : String := "?"
  line : Int := 0
  source : String := "inferred"
  deriving DecidableEq, Repr

abbrev ParamKey := String × Int

section Solve

variable (sk : List MethodSkeleton)

def byKey (key : String) : Option MethodSkeleton := sk.find? fun s => s.key = key

def keys : List String := sk.map MethodSkeleton.key

def MethodSkeleton.param? (s : MethodSkeleton) (index : Int) : Option ParamSkeleton :=
  s.params.find? fun p => p.index = index

/-! ## The call graph -/

/-- The callees a skeleton's summary reads, first-party or not. -/
def MethodSkeleton.forwards (s : MethodSkeleton) : List String :=
  (s.params.flatMap fun p => (p.paths.filter fun a => a.kind = .forward).map PathAction.callee)
    ++ if s.ret.kind = .forward then [s.ret.callee] else []

/-- `sorted(adj[key])`. -/
def callGraph (key : String) : List String :=
  match byKey sk key with
  | none => []
  | some s => ((s.forwards.filter fun c => (byKey sk c).isSome).dedup).insertionSort (· ≤ ·)

/-- `_sccs`: the iterator kept with a work entry is the position of its next edge. -/
def sccs : List (List String) := Tarjan.runEager (callGraph sk) (keys sk)

/-! ## Parameter transfers -/

section Equations

variable (paramVal : ParamKey → Option Transfer) (members : List ParamKey) (cur : ParamKey → Option Transfer)

def lookup (callee : String) (arg : Int) : Option Transfer :=
  match byKey sk callee with
  | none => some .unknown
  | some s =>
    match s.param? arg with
    | none => some .unknown
    | some p =>
      if !p.disposable then some .no
      else
        match paramVal (callee, arg) with
        | some t => some t
        | none => if (callee, arg) ∈ members then cur (callee, arg) else some .unknown

def contrib (a : PathAction) : Option Transfer :=
  match a.kind with
  | .dispose | .adopt | .ret => some .must
  | .borrow => some .no
  | .forward => lookup sk paramVal members cur a.callee a.arg
  | .other _ => some .unknown

def transferOver (paths : List PathAction) : Option Transfer :=
  paths.foldl (fun acc a => joinOpt acc (contrib sk paramVal members cur a)) none

/-- The outer `none`s are never met at a member. -/
def transferOf (k : ParamKey) : Option Transfer :=
  match (byKey sk k.1).bind (·.param? k.2) with
  | none => none
  | some p => if p.paths.isEmpty then some .no else transferOver sk paramVal members cur p.paths

end Equations

/-- The disposable parameters of a component's methods. -/
def membersOf (comp : List String) : List ParamKey :=
  comp.flatMap fun k =>
    match byKey sk k with
    | none => []
    | some s => (s.params.filter ParamSkeleton.disposable).map fun p => (k, p.index)

/-- A component's transfers before those without evidence are resolved. -/
def iterateComp (fuel : Nat) (paramVal : ParamKey → Option Transfer) (comp : List String) :
    Option (ParamKey → Option Transfer) :=
  let members := membersOf sk comp
  rounds (fun k cur => transferOf sk paramVal members cur k) members fuel fun _ => none

/-- `no` for a member still without evidence. -/
def finalize (members : List ParamKey) (cur paramVal : ParamKey → Option Transfer) : ParamKey → Option Transfer :=
  members.foldl (fun pv k => Function.update pv k (some ((cur k).getD .no))) paramVal

def settleComp (fuel : Nat) (paramVal : ParamKey → Option Transfer) (comp : List String) :
    Option (ParamKey → Option Transfer) :=
  if (membersOf sk comp).isEmpty then some paramVal
  else (iterateComp sk fuel paramVal comp).map fun cur => finalize (membersOf sk comp) cur paramVal

def settleComps (fuel : Nat) : List (List String) → (ParamKey → Option Transfer) → Option (ParamKey → Option Transfer)
  | [], paramVal => some paramVal
  | comp :: comps, paramVal => (settleComp sk fuel paramVal comp).bind (settleComps fuel comps)

/-! ## Returns -/

def terminal (r : ReturnSkeleton) : Returned :=
  match r.kind with
  | .fresh => .fresh
  | .aliasOf => .aliasOf r.arg
  | .aliased => .aliased
  | .none => .none
  | _ => .unknown

/-- An alias of a callee's parameter cannot be carried over a call. -/
def degrade : Returned → Returned
  | .aliasOf _ => .unknown
  | r => r

/-- The value found at the end of a chain, written at the nodes above it, deepest first. -/
def climb (val : Returned) : List String → (String → Option Returned) → String → Option Returned
  | [], retVal => retVal
  | k :: path, retVal => climb (degrade val) path (Function.update retVal k (some (degrade val)))

/-- `path` has the deepest node first. -/
def chase (fuel : Nat) (retVal : String → Option Returned) (path : List String) (key : String) :
    Option (String → Option Returned) :=
  match fuel with
  | 0 => none
  | n + 1 =>
    match retVal key with
    | some val => some (climb val path retVal)
    | none =>
      match byKey sk key with
      | none => none
      | some s =>
        let stop := fun val : Returned => some (climb val path (Function.update retVal key (some val)))
        if s.ret.kind ≠ .forward then stop (terminal s.ret)
        else if (byKey sk s.ret.callee).isNone then stop .unknown
        else if s.ret.callee = key ∨ s.ret.callee ∈ path then stop .unknown
        else chase n retVal (key :: path) s.ret.callee

def resolveReturn (fuel : Nat) (retVal : String → Option Returned) (start : String) :
    Option (String → Option Returned) :=
  if (retVal start).isSome then some retVal else chase sk fuel retVal [] start

/-! ## Summaries -/

def summarizeParam (paramVal : ParamKey → Option Transfer) (key : String) (p : ParamSkeleton) : ParamSummary :=
  ⟨p.index, p.name, p.disposable, if p.disposable then (paramVal (key, p.index)).getD .no else .no, p.escapes⟩

def summarize (fuel : Nat) (paramVal : ParamKey → Option Transfer) :
    List MethodSkeleton → (String → Option Returned) → Option (List MethodSummary)
  | [], _ => some []
  | s :: rest, retVal =>
    match resolveReturn sk fuel retVal s.key with
    | none => none
    | some retVal =>
      (summarize fuel paramVal rest retVal).map fun out =>
        { key := s.key, params := s.params.map (summarizeParam paramVal s.key),
          returns := (retVal s.key).getD .unknown, file := s.file, line := s.line } :: out

/-- The forwards over an extern boundary: every path of a disposable parameter and every
    forwarded return is looked up at least once, and the log is a set. -/
def unresolved : List String :=
  ((sk.flatMap fun s =>
      ((s.params.filter ParamSkeleton.disposable).flatMap fun p =>
        match s.param? p.index with
        | none => []
        | some p =>
          (p.paths.filter fun a => a.kind = .forward && (byKey sk a.callee).isNone).map fun a =>
            a.callee ++ "#" ++ toString a.arg ++ " (extern, no summary)")
      ++ if s.ret.kind = .forward ∧ (byKey sk s.ret.callee).isNone then
          ["return " ++ s.ret.callee ++ " (extern, no summary)"]
        else []).dedup).insertionSort (· ≤ ·)

end Solve

/-- The key of the first skeleton whose key an earlier one has. -/
def firstDuplicate : List String → List MethodSkeleton → Option String
  | _, [] => none
  | seen, s :: rest => if s.key ∈ seen then some s.key else firstDuplicate (s.key :: seen) rest

structure Solution where
  summaries : List MethodSummary
  log : List String

/-- The error is the `ValueError` of a duplicate key. -/
def solveWithLog (fuel : Nat) (skeletons : List MethodSkeleton) : Option (Except String Solution) :=
  match firstDuplicate [] skeletons with
  | some key => some (.error ("duplicate MethodSkeleton key: " ++ key))
  | none =>
    (settleComps skeletons fuel (sccs skeletons) fun _ => none).bind fun paramVal =>
      (summarize skeletons fuel paramVal skeletons fun _ => none).map fun out =>
        .ok { summaries := out, log := unresolved skeletons }

def solve (fuel : Nat) (skeletons : List MethodSkeleton) : Option (Except String (List MethodSummary)) :=
  (solveWithLog fuel skeletons).map fun r => r.map Solution.summaries

end OwnNet.Ownership
