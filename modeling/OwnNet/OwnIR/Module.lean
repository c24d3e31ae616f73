/-
  OwnNet.OwnIR.Module — `to_module`: a facts document to a core module, with what each of
  its handles stands for.

  First every `proven_call` of the document is admitted. Then each component becomes a
  function of its own, a subscription an acquire (with its release) or a capture; then each
  entry of `functions` is lowered, under the summaries of them all. Handles are numbered
  through the whole document. A failed derivation of the summaries leaves none, with a note.

  Proved: `passed_backed_iff`: of a document that is not refused, every `proven_call` has its
  proof exactly if those do that stand more than 256 lists deep, where the scan does not go.
-/

import OwnNet.HeapEffects.Harmless
import OwnNet.Lang.Cfg
import OwnNet.OwnIR.Admission
import OwnNet.OwnIR.Lowering
import OwnNet.OwnIR.Summaries

namespace OwnNet.OwnIR

open Ownership Lang

/-! ## What a module has -/

/-- What a handle stands for: a component's subscription, or a local of a flow body. -/
inductive Handle where
  | subscription (fields : Fields) (component file : Json) (diSourceLife : Option String)
  | flow (l : FlowLocal)

/-- A function, the name its signature is found by, and its lifetime with those of its parameters. -/
structure Decl where
  key : Option String
  fn : FnDecl
  lifetime : Option String := none
  paramLifetimes : List (String × String) := []

structure Module where
  name : String
  /-- Each with its kind tag. -/
  resources : List (String × String)
  externs : List (String × Effect)
  functions : List Decl
  /-- Each with the one it is shorter than. -/
  lifetimes : List (String × Option String)

/-- A hand-off that could not be verified (OWN051). -/
structure Advisory where
  file : String
  component : String
  call : Unverified

structure Lowered where
  module : Module
  handles : List (String × Handle)
  notes : List String
  advisories : List Advisory

/-- `_prelude_resources`, each with its kind tag. -/
def preludeResources : List (String × String) :=
  [("Subscription", "subscription token"), ("Timer", "timer"), ("Disposable", "disposable field"),
    ("PooledBuffer", "pooled buffer")]

/-- The effect a call has on an argument, from the type of the parameter. -/
def effectOf (resources : List String) (t : TypeRef) : Effect :=
  if t.borrowed ∧ t.mutable then .borrowMut
  else if t.borrowed then .borrow
  else if t.name ∈ resources then .consume
  else .plain

/-- `collect_signatures`: of two declarations of a name the later one is found. -/
def Module.signatures (m : Module) : List (String × List Effect) :=
  (m.functions.filterMap fun d =>
    d.key.map fun key => (key, d.fn.params.map fun p => effectOf (m.resources.map Prod.fst) p.type)).reverse ++
    (m.externs.map fun e => (e.1, [e.2])).reverse

def Module.env (m : Module) : Env where
  resourceNames := m.resources.map Prod.fst
  signatures := m.signatures
  resourceKinds := m.resources

/-! ## Components -/

/-- A list or an object cannot be looked up. -/
def hashable : Json → Except Raise Unit
  | .arr _ => .error (.typeError "unhashable type: 'list'")
  | .obj _ => .error (.typeError "unhashable type: 'dict'")
  | _ => .ok ()

/-- `_RESOURCES`: the resource a kind acquires, and the tag of its findings. -/
def resourceKinds : List (String × String × String) :=
  [("subscription", "Subscription", "subscription token"), ("subscribe", "Subscription", "subscription token"),
    ("timer", "Timer", "timer"), ("disposable", "Disposable", "disposable field"),
    ("local-disposable", "Disposable", "disposable"), ("pool", "PooledBuffer", "pooled buffer")]

def routeResource (rkind : Json) : Except Raise (String × String) :=
  match hashable rkind with
  | .error e => .error e
  | .ok _ =>
    match rkind.asStr.bind fun kind => resourceKinds.find? fun r => r.1 = kind with
    | some r => .ok r.2
    | none =>
      .error <| .ownIRError <|
        "unknown resource kind " ++ repr rkind ++
          " — a new kind is a vocabulary change that must bump OWNIR_VERSION (see spec/OwnIR.md §2)"

/-- `_CAPTURE_SOURCE_REGIONS`: the sources known to outlive any subscriber. -/
def captureSourceRegions : List (String × String) := [("static", "Process")]

/-- `_DI_REGION`, by the lifetime of a registration. -/
def diRegions : List (String × String) := [("singleton", "Process"), ("scoped", "scoped"), ("transient", "transient")]

/-- `_CAPTURE_LIFETIMES`: each region with the one it is shorter than. -/
def captureLifetimes : List (String × Option String) :=
  [("Process", none), ("scoped", some "Process"), ("transient", some "scoped"), ("Subscriber", some "Process")]

/-- The lifetime each registered service has, the last registration of a name counting. -/
def diLifeMap : List Json → Dict String String → Except Raise (Dict String String)
  | [], d => .ok d
  | .obj s :: rest, d =>
    match Json.get s "name" with
    | .str name =>
      match hashable (Json.get s "lifetime") with
      | .error e => .error e
      | .ok _ =>
        match (Json.get s "lifetime").asStr.filter fun life => life ∈ diRegions.map Prod.fst with
        | some life => diLifeMap rest (d.set name life)
        | none => diLifeMap rest d
    | _ => diLifeMap rest d
  | _ :: rest, d => diLifeMap rest d

/-- The region of a registered lifetime. -/
def diRegion (life : String) : Option String := entry diRegions life

/-- `_subscriber_region` -/
def subscriberRegion (cname : Json) (diLife : Dict String String) : Except Raise String :=
  (hashable cname).map fun _ => ((cname.asStr.bind diLife.get?).bind diRegion).getD "Subscriber"

/-- What a subscription comes to: nothing, a capture by a source of a region, or a resource. -/
inductive Shape where
  | skip
  | capture (region : String) (diSourceLife : Option String)
  | owned (resource : String)
  deriving DecidableEq

def shapeOf (diLife : Dict String String) (fields : Fields) : Except Raise Shape :=
  let rkind := getD fields "resource" (.str "subscription")
  let kind := rkind.asStr
  let source := (Json.get fields "source").asStr
  let released := !falsy (Json.get fields "released")
  if kind = some "unresolved-subscription" then .ok .skip
  else if kind = some "subscribe" ∧ source = some "self" then .ok .skip
  else if kind = some "capture" then
    match if released then none else source.bind (entry captureSourceRegions) with
    | some region => .ok (.capture region none)
    | none => .ok .skip
  else if kind = some "subscription" ∧ source = some "injected" ∧
      (Json.get fields "source_provenance").asStr = some "returned_fresh" then .ok .skip
  else
    match if kind = some "subscription" ∧ source = some "injected" ∧ ¬released then
        (Json.get fields "source_type").asStr.bind diLife.get? else none with
    | some life => .ok (.capture ((diRegion life).getD life) (some life))
    | none => (routeResource rkind).map fun r => .owned r.1

/-- What the subscriptions of a component give: handles, captures with their regions, statements. -/
structure Subs where
  handles : List (String × Handle) := []
  captures : List (String × String) := []
  body : List Stmt := []
  gid : Nat

/-- A subscription before those that follow it. -/
def Subs.before (handle : String × Handle) (captures : List (String × String)) (body : List Stmt) (rest : Subs) : Subs :=
  { rest with handles := handle :: rest.handles, captures := captures ++ rest.captures, body := body ++ rest.body }

def lowerSubs (diLife : Dict String String) (cname file : Json) : List Json → Nat → Except Raise Subs
  | [], gid => .ok { gid := gid }
  | .obj fields :: rest, gid =>
    let line := asLine (Json.get fields "line")
    match shapeOf diLife fields with
    | .error e => .error e
    | .ok .skip => lowerSubs diLife cname file rest gid
    | .ok (.capture region life) =>
      let handle := "cap_" ++ toString gid
      (lowerSubs diLife cname file rest (gid + 1)).map
        (Subs.before (handle, .subscription fields cname file life) [(handle, region)] [.subscribe handle line])
    | .ok (.owned resource) =>
      let handle := "sub_" ++ toString gid
      let release := if falsy (Json.get fields "released") then [] else [.release handle line]
      (lowerSubs diLife cname file rest (gid + 1)).map
        (Subs.before (handle, .subscription fields cname file none) []
          (.let_ handle (.acquire resource [] line) line :: release))
  | _ :: _, _ => .error (.ownIRError "each subscription must be a JSON object")

/-- The function of a component: its parameters are what captures it. -/
def componentDecl (cname : Json) (region : String) (subs : Subs) : Decl where
  key := cname.asStr
  fn :=
    { name := str cname, params := subs.captures.map fun c => ⟨c.1, ⟨"EventSource", false, false, 0⟩, 0⟩, ret := none
      body := subs.body, line := 0 }
  lifetime := if subs.captures.isEmpty then none else some region
  paramLifetimes := subs.captures

def lowerComponents (diLife : Dict String String) : List Json → Nat → Except Raise (List Decl × List (String × Handle))
  | [], _ => .ok ([], [])
  | .obj comp :: rest, gid =>
    let cname := getD comp "name" (.str ("Component" ++ toString gid))
    match subscriberRegion cname diLife with
    | .error e => .error e
    | .ok region =>
      match getD comp "subscriptions" (.arr []) with
      | .arr subs =>
        match lowerSubs diLife cname (getD comp "file" (.str "?")) subs gid with
        | .error e => .error e
        | .ok subs =>
          (lowerComponents diLife rest subs.gid).map fun more =>
            (componentDecl cname region subs :: more.1, subs.handles ++ more.2)
      | _ => .error (.ownIRError "component 'subscriptions' must be a JSON array")
  | _ :: _, _ => .error (.ownIRError "each OwnIR component must be a JSON object")

/-- The components of a document, with what its services are registered as. -/
def componentsOf (facts : Fields) : Except Raise (List Decl × List (String × Handle)) :=
  match diLifeMap (((Json.get facts "services").asArr).getD []) Dict.empty with
  | .error e => .error e
  | .ok diLife =>
    match getD facts "components" (.arr []) with
    | .arr components => lowerComponents diLife components 0
    | _ => .error (.ownIRError "OwnIR 'components' must be a JSON array")

/-! ## Functions -/

/-- `_PARAM_EFFECT_TYPE`; anything else is a plain value. -/
def paramType : Option String → TypeRef
  | some "consume" => ⟨"Disposable", false, false, 0⟩
  | some "borrow" => ⟨"Disposable", true, false, 0⟩
  | some "borrow_mut" => ⟨"Disposable", true, true, 0⟩
  | _ => ⟨"int", false, false, 0⟩

/-- What the lowering of every function reads of the whole document. -/
structure Shared where
  mos : Mos
  firstParty : List String
  overloaded : List String
  paramEffects : String → List (Option String)

def sharedOf (fns : List Fn) (mos : Mos) : Shared :=
  let names := ((fns.map Fn.name).filter fun name => name ≠ "").map canonicalCalleeName
  { mos := mos, firstParty := names, overloaded := names.filter fun name => 1 < names.count name
    paramEffects := if fns.any (fun fn => hasRegion fn.body) then regionParamEffects fns mos else fun _ => [] }

section

variable (g : Shared)

/-- `_lower_fn_params`: a handle for each, and the type that says what a call does with it. -/
def lowerFnParams (ctx : FlowContext) (view : Fn) : List (Nat × Fields) → Flow → List Param × Flow
  | [], s => ([], s)
  | (index, param) :: rest, s =>
    let line := asLine (Json.get param "line")
    let m := s.mint ctx "parg_" (str (getD param "name" (.str "?"))) line (asCol (Json.get param "column")) false
    let more := lowerFnParams ctx view rest m.2
    (⟨m.1, paramType (paramEffect g.mos ctx.fnName view index param), line⟩ :: more.1, more.2)

/-- The locals to declare at the top of a body. -/
def hoistedLets (ctx : FlowContext) : List Hoisted → Flow → List Stmt × Flow
  | [], s => ([], s)
  | h :: rest, s =>
    let m := s.mint ctx "loc_" h.name h.line h.column h.pool
    let more := hoistedLets ctx rest m.2
    (acquireStmt m.1 h.line :: more.1, more.2)

/-- What a function opens a region for and still hands to a position nothing is known of. -/
def unverifiedInRegion (fname file : String) (u : Unverified) : Raise :=
  .ownIRError <|
    "OwnIR function '" ++ fname ++ "' opens a borrow_mut region but hands '" ++ u.arg ++ "' to '" ++ u.callee ++
      "' at an unverified position (inferred contract: " ++ transferText u.transfer ++ ") (" ++ file ++ ":" ++
      toString u.line ++ ") — refused: a function with an exclusive region must not rely on the optimistic " ++
      "ownership default"

/-- Whether a local carries an obligation: acquired, or a factory's result. -/
def ownedHere (ops : List Fields) (v : String) : Bool :=
  decide (v ∈ collectVars .acquire "var" ops) ||
    match callResultCallee ops v with
    | some (some c) => calleeReturnsFresh g.mos g.firstParty c.1 c.2
    | _ => false

/-- The context a body is lowered under, but for what is hoisted. -/
def flowContext (fname file : String) (nodes : List Node) (hoisted : List String) : FlowContext :=
  let sites := killSites g.mos nodes 0 [] []
  { file := file, fnName := fname, released := collectVars .release "var" (flat nodes), mos := g.mos, hoisted := hoisted
    firstParty := g.firstParty, overloaded := g.overloaded
    untracked := ((unverifiedCalls g.mos (flat nodes)).map Unverified.arg).filter fun a => a ∉ sites.map Prod.fst
    killSites := sites, paramEffects := g.paramEffects }

/-- What a body is lowered under and from: its parameters and what is declared at its top. -/
structure Opened where
  ctx : FlowContext
  params : List Param
  lets : List Stmt
  flow : Flow

/-- A function up to its body. -/
def openFn (fn : Fn) (handles : List (String × FlowLocal)) (loc : Nat) : Except Raise Opened :=
  let fname := str (getD fn.fields "name" (.str ("Fn" ++ toString loc)))
  let nodes := inlineRegions fn.body
  let ps := lowerFnParams g (flowContext g fname fn.file nodes []) { fn with body := nodes } fn.params
    ⟨handles, loc, Dict.empty⟩
  match if hasRegion fn.body then (unverifiedCalls g.mos (flat nodes)).head? else none with
  | some u => .error (unverifiedInRegion fname fn.file u)
  | none =>
    match hoistedBranchLocals g.mos g.firstParty nodes with
    | .error e => .error e
    | .ok hoist =>
      let hoist := hoist.filter fun h => h.name ∉ (flowContext g fname fn.file nodes []).untracked
      let ctx := flowContext g fname fn.file nodes (hoist.map Hoisted.name)
      let lets := hoistedLets ctx hoist ps.2
      .ok ⟨ctx, ps.1, lets.1, lets.2⟩

/-- A function, what could not be verified of it, and the state after it. -/
structure LoweredFn where
  decl : Decl
  advisories : List Advisory
  flow : Flow

def lowerFn (fn : Fn) (handles : List (String × FlowLocal)) (loc : Nat) : Except Raise LoweredFn :=
  match openFn g fn handles loc with
  | .error e => .error e
  | .ok o =>
    match lowerFlow o.ctx false (some 0) fn.body o.flow with
    | .error e => .error e
    | .ok (body, s) =>
      let ops := flat (inlineRegions fn.body)
      let ret := if returnsValue ops then some ⟨"Disposable", false, false, 0⟩ else none
      .ok
        { decl := { key := some o.ctx.fnName, fn := ⟨o.ctx.fnName, o.params, ret, o.lets ++ body, 0⟩ }
          advisories := ((unverifiedCalls g.mos ops).filter fun u => ownedHere g ops u.arg).map (⟨fn.file, o.ctx.fnName, ·⟩)
          flow := s }

def lowerFns : List Fn → List (String × FlowLocal) → Nat →
    Except Raise (List Decl × List Advisory × List (String × FlowLocal))
  | [], handles, _ => .ok ([], [], handles)
  | fn :: rest, handles, loc =>
    match lowerFn g fn handles loc with
    | .error e => .error e
    | .ok r =>
      (lowerFns rest r.flow.handles r.flow.loc).map fun more => (r.decl :: more.1, r.advisories ++ more.2.1, more.2.2)

end

/-! ## The module -/

/-- The summaries of a document, none where they cannot be derived; and the note that says so. -/
def mosOf (fns : List Fn) : Mos × List String :=
  match deriveMos fns with
  | .ok sol => (sol.summaries, [])
  | .error e => ([], [e])

/-- Everything but the admission of the `proven_call`s. -/
def lowerFacts (facts : Fields) : Except Raise Lowered :=
  match componentsOf facts with
  | .error e => .error e
  | .ok (components, subs) =>
    let fns := Fn.readAll (Json.get facts "functions")
    let mos := mosOf fns
    (lowerFns (sharedOf fns mos.1) fns [] 0).map fun r =>
      { module :=
          { name := str (getD facts "module" (.str "Extracted")), resources := preludeResources, externs := sinkExterns
            functions := components ++ r.1
            lifetimes := if components.all (fun d => d.paramLifetimes.isEmpty) then [] else captureLifetimes }
        handles := subs ++ r.2.2.map fun h => (h.1, .flow h.2)
        notes := mos.2, advisories := r.2.1 }

/-- `to_module`; nothing where the heap-effect solver has not ended within the fuel. -/
def toModule (fuel : Nat) (facts : Fields) : Option (Except Raise Lowered) :=
  (admitProvenCalls fuel facts).map fun admitted =>
    match admitted with
    | .error e => .error e
    | .ok _ => lowerFacts facts

/-! ## What is lowered has been admitted -/

/-- The functions of a document. -/
abbrev functionsOf (facts : Fields) : List Fn := Fn.readAll (Json.get facts "functions")

theorem admitted_of_result {fuel : Nat} {facts : Fields} {r : Except Raise Lowered} (h : toModule fuel facts = some r)
    (hr : ∀ text, r ≠ .error (.ownIRError text)) : admitProvenCalls fuel facts = some (.ok ()) := by
  unfold toModule at h
  cases ha : admitProvenCalls fuel facts with
  | none =>
    rw [ha] at h
    cases h
  | some admitted =>
    cases admitted with
    | ok => rfl
    | error e =>
      obtain ⟨text, rfl⟩ := admit_error ha
      rw [ha] at h
      exact absurd (Option.some.inj h).symm (hr text)

/-- Of a document that is not refused every `proven_call` is backed exactly if those are that
    stand too deep for the scan. -/
theorem passed_backed_iff {fuel : Nat} {facts : Fields} {r : Except Raise Lowered} (h : toModule fuel facts = some r)
    (hr : ∀ text, r ≠ .error (.ownIRError text)) :
    (∀ e ∈ allProvenCalls (functionsOf facts), e.2.Backed facts fuel) ↔
      ∀ e ∈ allProvenCalls (functionsOf facts), 256 < e.1 → e.2.Backed facts fuel := by
  constructor
  · exact fun hall e he _ => hall e he
  · intro hdeep e he
    by_cases hd : 256 < e.1
    · exact hdeep e he hd
    · have hscan : e.2 ∈ scan (functionsOf facts) := scan_iff.mpr ⟨e.1, by omega, he⟩
      exact admit_ok (admitted_of_result h hr) e.2 hscan

/-- Whether a document is lowered. -/
def lowers (fuel : Nat) (facts : Fields) : Bool :=
  match toModule fuel facts with
  | some (.ok _) => true
  | _ => false

theorem lowers_iff {fuel : Nat} {facts : Fields} : lowers fuel facts = true ↔ ∃ L, toModule fuel facts = some (.ok L) := by
  unfold lowers
  split
  next L h => exact ⟨fun _ => ⟨L, h⟩, fun _ => rfl⟩
  next hno => exact ⟨fun h => (by cases h), fun ⟨L, h⟩ => absurd h (hno L)⟩

namespace Example

def provenCall : Json := .obj [("op", .str "proven_call"), ("site", .str "#site"), ("callee", .str "again")]

/-- A call inside a number of loops. -/
def buried : Nat → Json
  | 0 => provenCall
  | n + 1 => .obj [("op", .str "while"), ("body", .arr [buried n])]

def buriedFacts (n : Nat) : Fields := [("functions", .arr [.obj [("body", .arr [buried n])]])]

/-- A region with one proved call. -/
def quietFacts : Fields :=
  [("functions", .arr [.obj [("body", .arr [
      .obj [("op", .str "acquire"), ("var", .str "x")],
      .obj [("op", .str "borrow_mut"), ("owner", .str "x"), ("binding", .str "b"), ("body", .arr [provenCall])],
      .obj [("op", .str "release"), ("var", .str "x")]])]]),
    ("heap_effects", HeapEffects.Example.quiet)]

end Example

open Example in
set_option maxRecDepth 8000 in
theorem passed_backed_quiet : (allProvenCalls (functionsOf quietFacts)).length = 1 ∧
    ∀ e ∈ allProvenCalls (functionsOf quietFacts), e.2.Backed quietFacts 10 := by
  refine ⟨by decide, ?_⟩
  obtain ⟨L, hL⟩ := lowers_iff.mp (show lowers 10 quietFacts = true by decide)
  have hshallow : (allProvenCalls (functionsOf quietFacts)).all (fun e => e.1 ≤ 256) = true := by decide
  refine (passed_backed_iff hL fun text h => by cases h).mpr fun e he hd => ?_
  have hle : e.1 ≤ 256 := by simpa using List.all_eq_true.mp hshallow e he
  omega

open Example in
set_option maxRecDepth 8000 in
/-- 257 loops around a call that no heap effects speak of. -/
theorem passed_backed_buried : (∃ L, toModule 0 (buriedFacts 257) = some (.ok L)) ∧
    ∃ e ∈ allProvenCalls (functionsOf (buriedFacts 257)), ∀ fuel, ¬e.2.Backed (buriedFacts 257) fuel := by
  refine ⟨lowers_iff.mp (by decide +kernel), ?_⟩
  have hout : (allProvenCalls (functionsOf (buriedFacts 257))).any (fun e => !e.2.inRegion) = true := by decide +kernel
  obtain ⟨e, he, hregion⟩ := List.any_eq_true.mp hout
  refine ⟨e, he, fun fuel hb => ?_⟩
  rw [hb.1] at hregion
  cases hregion

end OwnNet.OwnIR
