/-
  OwnNet.OwnIR.Skeletons — what the summary solver is told of each function: the inference
  view of its body (every exclusive region spliced in place of its block), what the body
  does with each parameter, what it returns, and the merge of the functions of one key.

  A body whose `args` cannot be run over stops the whole derivation.

  Proved: `inline_of_plain`: a body without a region is its own view.
-/

import Mathlib.Data.Prod.Lex
import OwnNet.OwnIR.Names

namespace OwnNet.OwnIR

open Ownership

/-! ## The inference view -/

mutual

def hasRegionNode : Node → Bool
  | .junk => false
  | .op fields thenOps elseOps bodyOps =>
    match opKind fields with
    | .borrowMut => true
    | .if_ => hasRegion thenOps || hasRegion elseOps
    | .while_ => hasRegion bodyOps
    | _ => false

/-- Whether a body has a `borrow_mut` at any depth. -/
def hasRegion : List Node → Bool
  | [] => false
  | n :: rest => hasRegionNode n || hasRegion rest

end

mutual

def inlineNode : Node → List Node
  | .junk => [.junk]
  | .op fields thenOps elseOps bodyOps =>
    match opKind fields with
    | .borrowMut => inlineRegions bodyOps
    | .if_ => [.op fields (inlineRegions thenOps) (inlineRegions elseOps) bodyOps]
    | .while_ => [.op fields thenOps elseOps (inlineRegions bodyOps)]
    | _ => [.op fields thenOps elseOps bodyOps]

def inlineRegions : List Node → List Node
  | [] => []
  | n :: rest => inlineNode n ++ inlineRegions rest

end

def inferenceView (fns : List Fn) : List Fn := fns.map fun fn => { fn with body := inlineRegions fn.body }

/-! ## Parameters -/

/-- Whether a parameter is released, handed to a call, or used anywhere in a body. -/
structure ParamSignals where
  released : Bool
  passed : Bool
  used : Bool

/-- The name a `var` field has. -/
def varOf (fields : Fields) : String := str (Json.get fields "var")

def passes (pname : String) (fields : Fields) : Bool :=
  opKind fields = .call ∧ ∃ a ∈ (argsOf fields).getD [], str a = pname

def paramSignals (pname : String) (ops : List Fields) : ParamSignals where
  released := ops.any fun fields => opKind fields = .release ∧ varOf fields = pname
  passed := ops.any (passes pname)
  used := ops.any fun fields => opKind fields = .use ∧ varOf fields = pname

/-- On how many of the paths to a place a parameter is released. -/
inductive Released where
  | none_ | some_ | all
  deriving DecidableEq, Repr

/-- What leaves the bottom of some ops, whether anything does, and whether every `return` among
    them was met with the parameter released. -/
structure ReleaseWalk where
  released : Released
  fallsThrough : Bool
  exitsOk : Bool

mutual

def walkReleaseNode (pname : String) : Node → Released → ReleaseWalk
  | .junk, rel => ⟨rel, true, true⟩
  | .op fields thenOps elseOps bodyOps, rel =>
    match opKind fields with
    | .release => ⟨if varOf fields = pname then .all else rel, true, true⟩
    | .return_ => ⟨rel, false, rel = .all⟩
    | .if_ =>
      let t := walkRelease pname thenOps rel
      let e := walkRelease pname elseOps rel
      let ok := t.exitsOk && e.exitsOk
      if t.fallsThrough && e.fallsThrough then ⟨if t.released = e.released then t.released else .some_, true, ok⟩
      else if t.fallsThrough || e.fallsThrough then ⟨if t.fallsThrough then t.released else e.released, true, ok⟩
      else ⟨rel, false, ok⟩
    | .while_ =>
      -- the loop may not run: what it releases is not released on all paths
      let b := walkRelease pname bodyOps rel
      ⟨if b.fallsThrough && b.released ≠ rel then .some_ else rel, true, b.exitsOk⟩
    | _ => ⟨rel, true, true⟩

def walkRelease (pname : String) : List Node → Released → ReleaseWalk
  | [], rel => ⟨rel, true, true⟩
  | n :: rest, rel =>
    let r := walkReleaseNode pname n rel
    if r.fallsThrough then
      let s := walkRelease pname rest r.released
      { s with exitsOk := r.exitsOk && s.exitsOk }
    else r

end

/-- Whether every path that returns has released the parameter. -/
def definiteRelease (pname : String) (body : List Node) : Bool :=
  let r := walkRelease pname body .none_
  r.exitsOk && (!r.fallsThrough || r.released = .all)

/-- The calls a parameter is handed to: callee, signature, position. -/
def forwardTargets (pname : String) (ops : List Fields) : List (String × Option String × Nat) :=
  ops.flatMap fun fields =>
    if opKind fields = .call ∧ calleeOf fields ≠ "" then
      ((argsOf fields).getD []).zipIdx.filterMap fun a =>
        if str a.1 = pname then some (calleeOf fields, sigOf fields, a.2) else none
    else []

/-- The ops of a body itself, those of its branches and loops left out. -/
def topOps (body : List Node) : List Fields :=
  body.filterMap fun n =>
    match n with
    | .junk => none
    | .op fields _ _ _ => some fields

def containsReturn (n : Node) : Bool := (flatNode n).any fun fields => opKind fields = .return_

/-- Whether a `return` leaves the body before the first call at its top that is handed the parameter. -/
def earlyReturnBeforeForward (pname : String) : List Node → Except String Bool
  | [] => .ok false
  | n :: rest =>
    match n with
    | .junk => earlyReturnBeforeForward pname rest
    | .op fields _ _ _ =>
      if opKind fields = .call then
        match iterate (Json.get fields "args") with
        | .error e => .error e
        | .ok args =>
          if args.any fun a => str a = pname then .ok false else earlyReturnBeforeForward pname rest
      else if containsReturn n then .ok true
      else earlyReturnBeforeForward pname rest

/-- A forward to a sink is a transfer already known; an exclusive loan is claimed by none. -/
def forwardPathAction (callKey : String → Option String → String) (t : String × Option String × Nat) : PathAction :=
  if t.1 = "$consume" then { kind := .dispose }
  else if t.1 = "$borrow" then { kind := .borrow }
  else { kind := .forward, callee := callKey t.1 t.2.1, arg := t.2.2 }

/-- What the body does with a parameter: its explicit effect, else what is inferred. -/
def paramPaths (callKey : String → Option String → String) (body : List Node) (param : Fields) :
    Except String (List PathAction) :=
  let pname := str (getD param "name" (.str "?"))
  match Json.get param "effect" with
  | .str "consume" => .ok [{ kind := .dispose }]
  | .str "borrow" => .ok [{ kind := .borrow }]
  | .str "borrow_mut" => .ok [{ kind := .borrow }]
  | .str _ => .ok []
  | _ =>
    let signals := paramSignals pname (flat body)
    if signals.released then
      if definiteRelease pname body then .ok [{ kind := .dispose }] else .ok [{ kind := .dispose }, { kind := .borrow }]
    else if signals.passed then
      let targets := forwardTargets pname (flat body)
      let paths := targets.map (forwardPathAction callKey)
      if targets.length = 1 ∧ (forwardTargets pname (topOps body)).length = 1 then
        (earlyReturnBeforeForward pname body).map fun early => if early then paths ++ [{ kind := .borrow }] else paths
      else .ok (paths ++ [{ kind := .borrow }])
    else if signals.used then .ok [{ kind := .borrow }]
    else .ok []

/-! ## Returns -/

/-- `_collect_vars`: what a field of the ops of one kind is where it is a string. -/
def collectVars (kind : OpKind) (field : String) (ops : List Fields) : List String :=
  ops.filterMap fun fields => if opKind fields = kind then (Json.get fields field).asStr else none

def isNull : Json → Bool
  | .null => true
  | _ => false

def hasBareReturn (ops : List Fields) : Bool := ops.any fun fields => opKind fields = .return_ ∧ isNull (Json.get fields "var")

def returnsValue (ops : List Fields) : Bool := ops.any fun fields => opKind fields = .return_ ∧ ¬isNull (Json.get fields "var")

/-- The callee and signature of a call that binds a result. -/
def boundBy (v : String) (fields : Fields) : Option (String × Option String) :=
  match opKind fields, Json.get fields "result", Json.get fields "callee" with
  | .call, .str res, .str callee => if res = v ∧ callee ≠ "" then some (callee, sigOf fields) else none
  | _, _, _ => none

/-- One more call that binds a local: two callees make it ambiguous, two signatures of one leave none. -/
def mergeCallee (prev : Option (Option (String × Option String))) (entry : String × Option String) :
    Option (Option (String × Option String)) :=
  match prev with
  | none => some (some entry)
  | some none => some none
  | some (some p) =>
    if p.1 ≠ entry.1 then some none else if p.2 ≠ entry.2 then some (some (entry.1, none)) else some (some p)

/-- `_call_result_callees`, of one local. -/
def callResultCallee (ops : List Fields) (v : String) : Option (Option (String × Option String)) :=
  (ops.filterMap (boundBy v)).foldl mergeCallee none

def inferReturnSkeleton (callKey : String → Option String → String) (firstParty paramNames : List String)
    (ops : List Fields) : ReturnSkeleton :=
  let returned := (collectVars .return_ "var" ops).dedup
  let acquired := collectVars .acquire "var" ops
  if returned.isEmpty ∨ hasBareReturn ops then {}
  else if ∀ v ∈ returned, v ∈ acquired ∧ v ∉ paramNames ∧ callResultCallee ops v = none then { kind := .fresh }
  else
    match returned with
    | [v] =>
      match callResultCallee ops v with
      | some (some (callee, sig)) =>
        if v ∈ paramNames ∨ v ∈ acquired then {}
        else if canonicalCalleeName callee ∉ firstParty ∧ isBclFreshFactory callee then { kind := .fresh }
        else { kind := .forward, callee := callKey callee sig }
      | _ => {}
    | _ => {}

/-! ## One key, several functions -/

def mergeReturns (rets : List ReturnSkeleton) : ReturnSkeleton :=
  if ∀ r ∈ rets, r.kind = .fresh then { kind := .fresh }
  else if ∀ r ∈ rets, r.kind = .none then { kind := .none }
  else if ∀ r ∈ rets, r.kind = .aliased then { kind := .aliased }
  else { kind := .other "unknown" }

/-- A function that does nothing with a parameter keeps it. -/
def pathsOr (p : ParamSkeleton) : List PathAction := if p.paths.isEmpty then [{ kind := .borrow }] else p.paths

/-- The parameter at an index, of all the functions of a key. -/
def mergeParam (group : List MethodSkeleton) (index : Int) : ParamSkeleton :=
  let ps := group.flatMap fun sk => sk.params.filter fun p => p.index = index
  { index := index, name := ((ps.map ParamSkeleton.name).min?).getD "", disposable := true, paths := ps.flatMap pathsOr }

/-- One conservative skeleton for all the functions of a key. -/
def mergeMany (key : String) (group : List MethodSkeleton) : MethodSkeleton :=
  let place := ((group.map fun sk => toLex (sk.file, sk.line)).min?).getD (toLex ("?", 0))
  { key := key
    params := (((group.flatMap fun sk => sk.params.map ParamSkeleton.index).dedup).insertionSort (· ≤ ·)).map
      (mergeParam group)
    ret := mergeReturns (group.map MethodSkeleton.ret), file := (ofLex place).1, line := (ofLex place).2 }

def mergeSkeletons (key : String) (group : List MethodSkeleton) : MethodSkeleton :=
  match group with
  | [sk] => { sk with key := key }
  | _ => mergeMany key group

/-- The members of a list at their first places. -/
def firsts (l : List String) : List String := l.reverse.dedup.reverse

/-- The skeletons listed under a key. -/
def groupOf (entries : List (String × MethodSkeleton)) (key : String) : List MethodSkeleton :=
  (entries.filter fun e => e.1 = key).map Prod.snd

/-- The merged skeletons of the pairs of a key and a skeleton, the keys in order of appearance. -/
def mergeByKey (entries : List (String × MethodSkeleton)) : List MethodSkeleton :=
  (firsts (entries.map Prod.fst)).map fun key => mergeSkeletons key (groupOf entries key)

/-! ## Skeletons -/

/-- What the derivation reads of the whole document: every name, and the keys of the overloads. -/
structure Names where
  all : List String
  sigKeys : List String

namespace Names

def firstParty (names : Names) : List String := (names.all.filter fun k => k ≠ "").map canonicalCalleeName

/-- The summary an edge resolves against. -/
def callKey (names : Names) (callee : String) (sig : Option String) : String :=
  match sig.bind fun sig =>
      [sigKey callee sig, sigKey (canonicalCalleeName callee) sig].find? fun cand => cand ∈ names.sigKeys with
  | some key => key
  | none => if callee ∉ names.all ∧ canonicalCalleeName callee ∈ names.all then canonicalCalleeName callee else callee

end Names

/-- The key of a function among the overloads of its name. -/
def Fn.overloadKey (all : List String) (fn : Fn) : Option String :=
  if fn.name ≠ "" ∧ 1 < all.count fn.name then fn.sig.map (sigKey fn.name) else none

def namesOf (fns : List Fn) : Names where
  all := fns.map Fn.name
  sigKeys := fns.filterMap (Fn.overloadKey (fns.map Fn.name))

def paramSkeletons (callKey : String → Option String → String) (body : List Node) :
    List (Nat × Fields) → Except String (List ParamSkeleton)
  | [] => .ok []
  | (i, param) :: rest =>
    match paramPaths callKey body param with
    | .error e => .error e
    | .ok paths =>
      (paramSkeletons callKey body rest).map fun out =>
        { index := i, name := str (getD param "name" (.str "?")), disposable := true, paths := paths } :: out

def skeletonOf (names : Names) (fn : Fn) : Except String MethodSkeleton :=
  (paramSkeletons names.callKey fn.body fn.params).map fun params =>
    { key := fn.name, params := params,
      ret := inferReturnSkeleton names.callKey names.firstParty
        (fn.params.map fun p => str (getD p.2 "name" (.str ""))) (flat fn.body),
      file := fn.file }

/-- The skeletons of the named functions, each with its function. -/
def skeletonsOf (names : Names) : List Fn → Except String (List (Fn × MethodSkeleton))
  | [] => .ok []
  | fn :: rest =>
    if fn.name = "" then skeletonsOf names rest
    else
      match skeletonOf names fn with
      | .error e => .error e
      | .ok sk => (skeletonsOf names rest).map fun out => (fn, sk) :: out

/-- One skeleton for each name, then one for each overload. -/
def buildSkeletons (fns : List Fn) : Except String (List MethodSkeleton) :=
  let names := namesOf fns
  (skeletonsOf names fns).map fun sks =>
    mergeByKey (sks.map fun s => (s.1.name, s.2)) ++
      mergeByKey (sks.filterMap fun s => (s.1.overloadKey names.all).map fun key => (key, s.2))

/-! ## Regions and views -/

theorem inline_of_plain : (∀ n, hasRegionNode n = false → inlineNode n = [n]) ∧
    ∀ ns, hasRegion ns = false → inlineRegions ns = ns := by
  apply Node.induct
  · exact fun _ => rfl
  · intro fields t e b ht he hb h
    unfold hasRegionNode at h
    unfold inlineNode
    split at h
    · cases h
    · rw [Bool.or_eq_false_iff] at h
      rw [ht h.1, he h.2]
    · rw [hb h]
    · rfl
  · exact fun _ => rfl
  · intro n ns hn hns h
    rw [hasRegion, Bool.or_eq_false_iff] at h
    rw [inlineRegions, hn h.1, hns h.2]
    rfl

end OwnNet.OwnIR
