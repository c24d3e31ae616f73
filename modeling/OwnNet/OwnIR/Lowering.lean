/-
  OwnNet.OwnIR.Lowering — `_lower_flow`: a flow body to core statements.

  `localmap` takes the C# name of a local, flat over the whole body, to the handle that
  stands for it now; a handle is never used twice. What an op leaves of it the next op
  finds, through branches and loops alike, in document order.
-/

import OwnNet.Lang.Ast
import OwnNet.OwnIR.Contracts

namespace OwnNet.OwnIR

open Ownership Lang

/-- The place and the wording a finding about a handle takes. -/
structure FlowLocal where
  file : String
  line : Int
  column : Option Int
  event : String
  component : String
  everReleased : Bool
  pool : Bool := false
  deriving DecidableEq, Repr

structure Flow where
  handles : List (String × FlowLocal)
  loc : Nat
  localmap : Dict String String
  deriving DecidableEq

/-- What a body is lowered under. -/
structure FlowContext where
  file : String
  fnName : String
  released : List String
  mos : Mos
  hoisted : List String
  firstParty : List String
  overloaded : List String
  untracked : List String
  killSites : List (String × Nat)
  paramEffects : String → List (Option String)

namespace Flow

/-- A new handle for a local. -/
def mint (ctx : FlowContext) (stem name : String) (line : Int) (column : Option Int) (pool : Bool) (s : Flow) :
    String × Flow :=
  let handle := stem ++ toString s.loc
  (handle,
    { handles := s.handles ++ [(handle, ⟨ctx.file, line, column, name, ctx.fnName, name ∈ ctx.released, pool⟩)]
      loc := s.loc + 1, localmap := s.localmap.set name handle })

def unmap (s : Flow) (name : String) : Flow := { s with localmap := s.localmap.erase name }

/-- `localmap.get(name, name)` -/
def refer (s : Flow) (name : String) : String := (s.localmap.get? name).getD name

end Flow

section

variable (ctx : FlowContext)

def at_ (line : Int) : String := "(" ++ ctx.file ++ ":" ++ toString line ++ ")"

def acquireStmt (handle : String) (line : Int) : Stmt := .let_ handle (.acquire "Disposable" [] line) line

/-! ## Calls -/

/-- The sink externs, and what one does with its argument. -/
def sinkExterns : List (String × Effect) := [("$consume", .consume), ("$borrow", .borrow), ("$borrow_mut", .borrowMut)]

/-- `_CHANNEL_FOR_TRANSFER` -/
def channelForTransfer : Transfer → Option String
  | .must => some "$consume"
  | .no => some "$borrow"
  | .may | .unknown => none

/-- The channel an argument position goes through. -/
def channelAt (m : MethodSummary) (j : Nat) : Option String :=
  (paramAt m j).bind fun p => channelForTransfer p.transfer

/-- Whether a call's contract is applied argument by argument. -/
def routed (fields : Fields) (m : MethodSummary) : Bool :=
  canonicalCalleeName (calleeOf fields) ∈ ctx.overloaded ∨ m.params.any fun p => unsettled p.transfer

def channelStmts (m : MethodSummary) (line : Int) (args : List Json) (s : Flow) : List Stmt :=
  args.zipIdx.filterMap fun a =>
    match channelAt m a.2 with
    | some channel => if str a.1 ∈ ctx.untracked then none else some (.call channel [.varRef (s.refer (str a.1)) line] line)
    | none => none

/-- The first tracked local at a position without an ownership effect. -/
def plainPosition (callee : String) (args : List Json) (s : Flow) : Option (Json × Nat) :=
  args.zipIdx.find? fun a => (s.localmap.get? (str a.1)).isSome ∧ ((ctx.paramEffects callee)[a.2]?).join = none

/-- The statements that apply the callee's contract to the arguments. -/
def contractStmts (inRegion : Bool) (fields : Fields) (s : Flow) : Except Raise (List Stmt) :=
  let callee := calleeOf fields
  let line := lineOf fields
  match argsOf fields with
  | none => .ok []
  | some args =>
    match (mosLookup ctx.mos callee (sigOf fields)).filter (routed ctx fields) with
    | some m => .ok (channelStmts ctx m line args s)
    | none =>
      if callee ≠ "" ∧ ((ctx.mos.get? callee).isSome ∨ callee ∈ sinkExterns.map Prod.fst) then
        match if inRegion ∧ (ctx.mos.get? callee).isSome then plainPosition ctx callee args s else none with
        | some a =>
          .error <| .ownIRError <|
            "OwnIR call to " ++ reprStr callee ++ " inside a borrow_mut region passes tracked local " ++
              reprStr (str a.1) ++ " at position " ++ toString a.2 ++ ", which carries no ownership effect " ++
              at_ ctx line ++ " — refused: inside an exclusive region every position that receives the entity " ++
              "or a token must state what it does with it"
        | none => .ok [.call callee (args.map fun a => .varRef (s.refer (str a)) line) line]
      else if inRegion then
        match args.find? fun a => (s.localmap.get? (str a)).isSome with
        | some a =>
          .error <| .ownIRError <|
            "OwnIR call to " ++ reprStr callee ++ " inside a borrow_mut region passes tracked local " ++
              reprStr (str a) ++ ", but the callee has no ownership contract " ++ at_ ctx line ++
              " — refused: an exclusive region must not hand its entity or tokens to unanalysed code"
        | none => .ok []
      else .ok []

/-- The locals whose tracking ends at a call: consumed there, and unmapped. -/
def killArgs (position : Option Nat) (line : Int) : List Json → Flow → List Stmt × Flow
  | [], s => ([], s)
  | a :: rest, s =>
    let name := str a
    match position.filter (fun p => (name, p) ∈ ctx.killSites), s.localmap.get? name with
    | some _, some handle =>
      let more := killArgs position line rest (s.unmap name)
      (.call "$consume" [.varRef handle line] line :: more.1, more.2)
    | _, _ => killArgs position line rest s

/-- The result of a call: it overwrites the local, and is owned if the callee is a factory. -/
def bindResult (fields : Fields) (s : Flow) : List Stmt × Flow :=
  match Json.get fields "result" with
  | .str result =>
    if result = "" ∨ result ∈ ctx.hoisted then ([], s)
    else
      let s := s.unmap result
      if result ∉ ctx.untracked ∧ calleeReturnsFresh ctx.mos ctx.firstParty (calleeOf fields) (sigOf fields) then
        let line := lineOf fields
        let m := s.mint ctx "loc_" result line (asCol (Json.get fields "column")) false
        ([acquireStmt m.1 line], m.2)
      else ([], s)
  | _ => ([], s)

def lowerCall (inRegion : Bool) (position : Option Nat) (fields : Fields) (s : Flow) : Except Raise (List Stmt × Flow) :=
  (contractStmts ctx inRegion fields s).map fun contract =>
    let killed := killArgs ctx position (lineOf fields) ((argsOf fields).getD []) s
    let bound := bindResult ctx fields killed.2
    (contract ++ killed.1 ++ bound.1, bound.2)

/-! ## Other leaves -/

def lowerAcquire (fields : Fields) (s : Flow) : List Stmt × Flow :=
  let name := str (getD fields "var" (.str "?"))
  if name ∈ ctx.hoisted ∨ name ∈ ctx.untracked then ([], s)
  else
    let line := lineOf fields
    let m := s.mint ctx "loc_" name line (asCol (Json.get fields "column")) ((Json.get fields "kind").asStr = some "pool")
    ([acquireStmt m.1 line], m.2)

/-- `alias_join` and `move`: `var` takes over, or shares, what `src` has. -/
def lowerRebind (mk : String → String → Int → Stmt) (fields : Fields) (s : Flow) : List Stmt × Flow :=
  let name := str (getD fields "var" (.str "?"))
  let line := lineOf fields
  let src := s.localmap.get? (str (getD fields "src" (.str "")))
  if name ∈ ctx.hoisted then ([], s)
  else
    let s := s.unmap name
    match src with
    | some src =>
      if name ∈ ctx.untracked then ([], s)
      else
        let m := s.mint ctx "loc_" name line (asCol (Json.get fields "column")) false
        ([mk m.1 src line], m.2)
    | none => ([], s)

/-- An op on a local that is dropped where the local has no handle. -/
def onHandle (mk : String → Int → Stmt) (fields : Fields) (s : Flow) : List Stmt × Flow :=
  match s.localmap.get? (varOf fields) with
  | some handle => ([mk handle (lineOf fields)], s)
  | none => ([], s)

def lowerReturn (fields : Fields) (s : Flow) : List Stmt × Flow :=
  let handle := if isNull (Json.get fields "var") then none else s.localmap.get? (varOf fields)
  ([.return_ handle (lineOf fields)], s)

/-- An op outside the vocabulary; a list or an object cannot even be looked up in it. -/
def unknownOp (fields : Fields) : Raise :=
  match Json.get fields "op" with
  | .arr _ => .typeError "unhashable type: 'list'"
  | .obj _ => .typeError "unhashable type: 'dict'"
  | op =>
    .ownIRError ("unknown OwnIR flow op " ++ repr op ++ " " ++ at_ ctx (lineOf fields) ++
      " — extractor/core vocabulary skew; a new op must bump OWNIR_VERSION (see spec/OwnIR.md)")

/-! ## Bodies -/

/-- The binding of a region dies with its block. -/
def closeRegion (binding : String) (shadowed : Option String) (s : Flow) : Flow :=
  match shadowed with
  | none => s.unmap binding
  | some handle => { s with localmap := s.localmap.set binding handle }

/-- A region's owner and binding, where they are what a region needs. -/
def regionNames (fields : Fields) : Option (String × String) :=
  match Json.get fields "owner", Json.get fields "binding", Json.get fields "body" with
  | .str owner, .str binding, .arr _ => if owner ≠ "" ∧ binding ≠ "" then some (owner, binding) else none
  | _, _, _ => none

/-- The owner's handle, the binding and its handle, the state inside. -/
def openRegion (fields : Fields) (s : Flow) : Except Raise (String × String × String × Flow) :=
  match regionNames fields with
  | none =>
    .error <| .ownIRError <|
      "OwnIR flow op 'borrow_mut' needs a non-empty string 'owner', a non-empty string 'binding' and an array 'body' " ++
        at_ ctx (lineOf fields)
  | some (owner, binding) =>
    match s.localmap.get? owner with
    | none =>
      .error <| .ownIRError <|
        "OwnIR 'borrow_mut' owner " ++ reprStr owner ++ " is not a tracked local " ++ at_ ctx (lineOf fields) ++
          " — refused: an exclusive region needs an owner the core tracks"
    | some handle =>
      let symbol := "brw_" ++ toString s.loc
      .ok (handle, binding, symbol, { s with loc := s.loc + 1, localmap := s.localmap.set binding symbol })

mutual

/-- `position` is the op's place at the top of the body, `none` inside a compound op. -/
def lowerNode (inRegion : Bool) (position : Option Nat) : Node → Flow → Except Raise (List Stmt × Flow)
  | .junk, s => .ok ([], s)
  | .op fields thenOps elseOps bodyOps, s =>
    match opKind fields with
    | .acquire => .ok (lowerAcquire ctx fields s)
    | .aliasJoin => .ok (lowerRebind ctx .aliasJoin fields s)
    | .use => .ok (onHandle .use fields s)
    | .overspan => .ok (onHandle .overspan fields s)
    | .release => .ok (onHandle .release fields s)
    | .return_ => .ok (lowerReturn fields s)
    | .if_ =>
      match lowerFlow inRegion none thenOps s with
      | .error e => .error e
      | .ok (thenB, s) =>
        match lowerFlow inRegion none elseOps s with
        | .error e => .error e
        | .ok (elseB, s) => .ok ([.if_ "?" thenB elseB (lineOf fields)], s)
    | .while_ =>
      match lowerFlow inRegion none bodyOps s with
      | .error e => .error e
      | .ok (bodyB, s) => .ok ([.while_ "?" bodyB (lineOf fields)], s)
    | .move => .ok (lowerRebind ctx (fun handle src line => .let_ handle (.move src line) line) fields s)
    | .borrowMut =>
      match openRegion ctx fields s with
      | .error e => .error e
      | .ok (owner, binding, symbol, inner) =>
        match lowerFlow true none bodyOps inner with
        | .error e => .error e
        | .ok (bodyB, out) =>
          .ok ([.borrowBlock owner symbol .mut bodyB (lineOf fields)], closeRegion binding (s.localmap.get? binding) out)
    | .call => lowerCall ctx inRegion position fields s
    | .provenCall => .ok ([], s)
    | .other => .error (unknownOp ctx fields)

/-- `_lower_flow` -/
def lowerFlow (inRegion : Bool) (position : Option Nat) : List Node → Flow → Except Raise (List Stmt × Flow)
  | [], s => .ok ([], s)
  | n :: rest, s =>
    match lowerNode inRegion position n s with
    | .error e => .error e
    | .ok (stmts, s) =>
      match lowerFlow inRegion (position.map (· + 1)) rest s with
      | .error e => .error e
      | .ok (more, s) => .ok (stmts ++ more, s)

end

end

end OwnNet.OwnIR
