/-
  OwnNet.OwnIR.Contracts — what the lowering of a body asks before it starts: the effect of
  each parameter, the calls whose contract the summaries could not verify and where they end
  a local's tracking, and the branch locals to declare at the top.
-/

import OwnNet.Dict
import OwnNet.OwnIR.Skeletons

namespace OwnNet.OwnIR

open Ownership

/-- What `to_module` raises. -/
inductive Raise where
  | ownIRError (text : String)
  | typeError (text : String)
  deriving DecidableEq, Repr

/-! ## Parameters -/

/-- The summary of a parameter position. -/
def paramAt (m : MethodSummary) (index : Int) : Option ParamSummary := m.params.find? fun p => p.index = index

/-- `_infer_param_effect`: a parameter's contract, from the body and from what a forward resolved to. -/
def inferParamEffect (pname : String) (body : List Node) (forward : Option Transfer) : Option String :=
  let signals := paramSignals pname (flat body)
  if signals.released then if definiteRelease pname body then some "consume" else none
  else if signals.passed then
    match forward with
    | some .must => some "consume"
    | some .no => some "borrow"
    | _ => none
  else if signals.used then some "borrow"
  else none

/-- The effect of a parameter of the function of a name: what it says, else what its body and summary say. -/
def paramEffect (mos : Mos) (fname : String) (fn : Fn) (index : Nat) (param : Fields) : Option String :=
  match Json.get param "effect" with
  | .str eff => some eff
  | _ =>
    let forward := ((mosLookup mos fname fn.sig).bind fun m => paramAt m index).map ParamSummary.transfer
    inferParamEffect (str (getD param "name" (.str "?"))) fn.body forward

/-- `_region_param_effects`, of the last function of a name: nothing where a parameter is plain. -/
def regionParamEffects (fns : List Fn) (mos : Mos) (callee : String) : List (Option String) :=
  match (inferenceView fns).reverse.find? fun fn => fn.name = callee with
  | none => []
  | some fn =>
    fn.params.map fun p => (paramEffect mos fn.name fn p.1 p.2).bind fun eff =>
      if eff = "plain" then none else some eff

/-! ## Unverified calls -/

structure Unverified where
  arg : String
  callee : String
  transfer : Transfer
  line : Int

def unsettled (t : Transfer) : Bool := t = .may ∨ t = .unknown

/-- The arguments a call hands to positions whose transfer is not known. -/
def unverifiedArgs (mos : Mos) (fields : Fields) : List Unverified :=
  match mosLookup mos (calleeOf fields) (sigOf fields) with
  | none => []
  | some m =>
    ((argsOf fields).getD []).zipIdx.filterMap fun a =>
      (paramAt m a.2).bind fun p =>
        if unsettled p.transfer then some ⟨str a.1, calleeOf fields, p.transfer, lineOf fields⟩ else none

/-- `_unverified_transfer_calls` -/
def unverifiedCalls (mos : Mos) (ops : List Fields) : List Unverified :=
  ops.flatMap fun fields => if opKind fields = .call then unverifiedArgs mos fields else []

/-- The local an op mints. -/
def mintOf (fields : Fields) : Option String :=
  match opKind fields with
  | .acquire | .aliasJoin => (Json.get fields "var").asStr
  | .call => (Json.get fields "result").asStr.bind fun r => if r = "" then none else some r
  | _ => none

/-- The first position of each name, of those an op at position `at` hands over. -/
def addSites (position : Nat) (minted : List String) (sites : List (String × Nat)) : List String → List (String × Nat)
  | [] => sites
  | a :: rest =>
    addSites position minted (if a ∈ minted ∧ a ∉ sites.map Prod.fst then sites ++ [(a, position)] else sites) rest

/-- `_kill_sites_for_unverified`: for a local minted before, the position at the top of the body
    of the call that ends its tracking. -/
def killSites (mos : Mos) : List Node → Nat → List String → List (String × Nat) → List (String × Nat)
  | [], _, _, sites => sites
  | n :: rest, position, minted, sites =>
    let sites :=
      match n with
      | .op fields _ _ _ =>
        if opKind fields = .call then addSites position minted sites ((unverifiedArgs mos fields).map Unverified.arg) else sites
      | .junk => sites
    killSites mos rest (position + 1) (minted ++ (flatNode n).filterMap mintOf) sites

/-! ## Branch locals -/

/-- An op of a body with how deep in branches and loops it is, and whether in a loop. -/
structure Placed where
  fields : Fields
  depth : Nat
  inLoop : Bool

mutual

def placedNode : Node → Nat → Bool → List Placed
  | .junk, _, _ => []
  | .op fields thenOps elseOps bodyOps, depth, inLoop =>
    match opKind fields with
    | .if_ => placed thenOps (depth + 1) inLoop ++ placed elseOps (depth + 1) inLoop
    | .while_ => placed bodyOps (depth + 1) true
    | _ => [⟨fields, depth, inLoop⟩]

def placed : List Node → Nat → Bool → List Placed
  | [], _, _ => []
  | n :: rest, depth, inLoop => placedNode n depth inLoop ++ placed rest depth inLoop

end

/-- The local a branch op acquires: by itself, or as the fresh result of a call. -/
def acquiredBy (mos : Mos) (firstParty : List String) (fields : Fields) : Option String :=
  match opKind fields with
  | .acquire => some (str (getD fields "var" (.str "?")))
  | .call =>
    match Json.get fields "result", Json.get fields "callee" with
    | .str res, .str callee =>
      if res ≠ "" ∧ callee ≠ "" ∧ calleeReturnsFresh mos firstParty callee (sigOf fields) then some res else none
    | _, _ => none
  | _ => none

/-- The locals an op refers to. -/
def refsOf (fields : Fields) : Except String (List String) :=
  match opKind fields with
  | .use | .release | .overspan | .return_ => .ok ((Json.get fields "var").asStr.toList)
  | .call => (iterate (Json.get fields "args")).map fun args => args.map str
  | _ => .ok []

/-- Every reference, with its depth. -/
def refsAt : List Placed → Except String (List (String × Nat))
  | [] => .ok []
  | p :: rest =>
    match refsOf p.fields with
    | .error e => .error e
    | .ok refs => (refsAt rest).map fun out => refs.map (fun r => (r, p.depth)) ++ out

/-- Whether a path is safe so far, and whether it has acquired the local. -/
structure HoistWalk where
  safe : Bool
  acquired : Bool

/-- Whether an op acquires the local. -/
def acquires (mos : Mos) (firstParty : List String) (name : String) (fields : Fields) : Bool :=
  (opKind fields = .acquire ∧ str (getD fields "var" (.str "")) = name) ∨
    (opKind fields = .call ∧ str (getD fields "result" (.str "")) = name ∧
      calleeReturnsFresh mos firstParty (calleeOf fields) (sigOf fields))

section Hoist

variable (mos : Mos) (firstParty : List String) (name : String)

mutual

def hoistWalkNode : Node → Bool → HoistWalk
  | .junk, acquired => ⟨true, acquired⟩
  | .op fields thenOps elseOps bodyOps, acquired =>
    if acquires mos firstParty name fields then ⟨true, true⟩
    else
      match opKind fields with
      | .return_ => ⟨acquired || str (getD fields "var" (.str "")) = name, acquired⟩
      | .if_ =>
        let t := hoistWalk thenOps acquired
        let e := hoistWalk elseOps acquired
        if t.safe && e.safe then ⟨true, acquired || (t.acquired && e.acquired)⟩ else ⟨false, acquired⟩
      | .while_ => ⟨(hoistWalk bodyOps acquired).safe, acquired⟩
      | _ => ⟨true, acquired⟩

def hoistWalk : List Node → Bool → HoistWalk
  | [], acquired => ⟨true, acquired⟩
  | n :: rest, acquired =>
    let r := hoistWalkNode n acquired
    if r.safe then hoistWalk rest r.acquired else r

end

end Hoist

/-- `_branch_hoist_safe`: no path leaves before it has acquired the local. -/
def branchHoistSafe (mos : Mos) (firstParty : List String) (body : List Node) (name : String) : Bool :=
  (hoistWalk mos firstParty name body false).safe

/-- Where a branch local is first acquired, and whether it is ever a pool's. -/
structure Hoisted where
  name : String
  line : Int
  column : Option Int
  pool : Bool

/-- `_hoisted_branch_locals`, sorted by name. -/
def hoistedBranchLocals (mos : Mos) (firstParty : List String) (body : List Node) : Except Raise (List Hoisted) :=
  let ops := placed body 0 false
  match refsAt ops with
  | .error e => .error (.typeError e)
  | .ok refs =>
    let acqs := ops.filterMap fun p => (acquiredBy mos firstParty p.fields).map fun name => (name, p)
    let names := ((acqs.map Prod.fst).dedup).insertionSort (· ≤ ·)
    .ok <| names.filterMap fun name =>
      let own := acqs.filter fun a => a.1 = name
      if own.all (fun a => 1 ≤ a.2.depth ∧ !a.2.inLoop) ∧ (name, 0) ∈ refs ∧
          branchHoistSafe mos firstParty body name then
        own.head?.map fun a =>
          { name := name, line := lineOf a.2.fields, column := asCol (Json.get a.2.fields "column")
            pool := own.any fun a => opKind a.2.fields = .acquire ∧ (Json.get a.2.fields "kind").asStr = some "pool" }
      else none

end OwnNet.OwnIR
