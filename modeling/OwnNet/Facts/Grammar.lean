/-
  OwnNet.Facts.Grammar — the documents the two strict doors read: every section and its records,
  field by field, and what a protocol and a tree of events are read as.

  A field that may be absent is `Opt`; a null is a value like another, so where it is let
  through it is named (`OrNull`). Nothing here says in which order a door looks.
-/

import Mathlib.Data.Finset.Basic
import OwnNet.Checks
import OwnNet.Json.Fields
import OwnNet.OwnIR.Nodes

namespace OwnNet.Facts

abbrev Fields := List (String × Json)

/-! ## Fields -/

/-- A field that is absent, or as said. -/
def Opt (p : Json → Prop) (f : Fields) (key : String) : Prop := ∀ v, Json.lookup f key = some v → p v

def OrNull (p : Json → Prop) (v : Json) : Prop := v = .null ∨ p v

def IsText (v : Json) : Prop := ∃ s, v = .str s

def IsBool (v : Json) : Prop := ∃ b, v = .bool b

def lineMax : Int := 2147483647

/-- A source line; zero is none. -/
def IsLine (v : Json) : Prop := ∃ n, v = .int n ∧ 0 ≤ n ∧ n ≤ lineMax

/-- A source column, from one. -/
def IsColumn (v : Json) : Prop := ∃ n, v = .int n ∧ 1 ≤ n ∧ n ≤ lineMax

def IsVersion (v : Json) : Prop := v = .int 2

def Among (vocabulary : List String) (v : Json) : Prop := ∃ s ∈ vocabulary, v = .str s

def ArrayOf (p : Json → Prop) (v : Json) : Prop := ∃ items, v = .arr items ∧ ∀ i ∈ items, p i

def ObjectOf (p : Fields → Prop) (v : Json) : Prop := ∃ f, v = .obj f ∧ p f

/-- An array of objects. -/
def RecordsOf (p : Fields → Prop) : Json → Prop := ArrayOf (ObjectOf p)

/-- A name other facts join on. -/
def NameIs (f : Fields) (key s : String) : Prop := s ≠ "" ∧ Json.lookup f key = some (.str s)

def Named (f : Fields) (key : String) : Prop := ∃ s, NameIs f key s

theorem getD_eq (f : Fields) (key : String) (d : Json) : OwnIR.getD f key d = (Json.lookup f key).getD d := by
  unfold OwnIR.getD Json.lookup
  cases f.find? fun m => m.1 = key <;> rfl

/-- A default that is as said makes no difference. -/
theorem opt_getD {p : Json → Prop} {f : Fields} {key : String} {d : Json} (hd : p d) : p (OwnIR.getD f key d) ↔ Opt p f key := by
  unfold Opt
  rw [getD_eq]
  cases Json.lookup f key with
  | none => exact ⟨fun _ _ h => (by cases h), fun _ => hd⟩
  | some v => exact ⟨fun h _ hv => by cases hv; exact h, fun h => h v rfl⟩

theorem opt_get {p : Json → Prop} {f : Fields} {key : String} : OrNull p (Json.get f key) ↔ Opt (OrNull p) f key := by
  rw [Json.get_eq, ← getD_eq]
  exact opt_getD (.inl rfl)

/-! ## The vocabularies -/

def resourceKinds : List String :=
  ["capture", "disposable", "local-disposable", "pool", "subscribe", "subscription", "timer", "unresolved-subscription"]

def lifetimes : List String := ["scoped", "singleton", "transient"]

def paramEffects : List String := ["borrow", "borrow_mut", "consume", "plain"]

def matcherKinds : List String := ["assign", "call"]

def eventKinds : List String := ["assign", "call", "if", "return", "throw", "while"]

def orphanFamilies : List String := ["A_owned_result", "B_protocol_lifecycle"]

/-- How many bodies enclose the deepest op or event. -/
def maxNestingDepth : Nat := 32

/-! ## Components, services, effects -/

structure SubscriptionOk (f : Fields) : Prop where
  resource : Opt (Among resourceKinds) f "resource"
  line : Opt IsLine f "line"
  column : Opt (OrNull IsColumn) f "column"
  type : Opt (OrNull IsText) f "type"
  sourceType : Opt (OrNull IsText) f "source_type"
  sourceProvenance : Opt (OrNull IsText) f "source_provenance"
  ignoreReason : Opt (OrNull IsText) f "ignore_reason"

def ComponentOk (f : Fields) : Prop := Opt (RecordsOf SubscriptionOk) f "subscriptions"

/-- A call site of a service. -/
structure SiteOk (f : Fields) : Prop where
  type : Opt IsText f "type"
  file : Opt IsText f "file"
  line : Opt IsLine f "line"

structure ServiceOk (f : Fields) : Prop where
  lifetime : Among lifetimes (Json.get f "lifetime")
  name : Named f "name"
  deps : Opt (ArrayOf IsText) f "deps"
  weakDeps : Opt (ArrayOf IsText) f "weak_deps"
  rootResolves : Opt (ArrayOf IsText) f "root_resolves"
  file : Opt IsText f "file"
  line : Opt IsLine f "line"
  ctorFile : Opt IsText f "ctor_file"
  ctorLine : Opt IsLine f "ctor_line"
  ctorType : Opt IsText f "ctor_type"
  rootResolveSites : Opt (RecordsOf SiteOk) f "root_resolve_sites"
  scopeCached : Opt (ArrayOf IsText) f "scope_cached"
  scopeCacheSites : Opt (RecordsOf SiteOk) f "scope_cache_sites"

structure BindingOk (f : Fields) : Prop where
  name : Opt IsText f "name"
  init : Opt IsText f "init"
  refs : Opt (ArrayOf IsText) f "refs"
  line : Opt IsLine f "line"

structure EffectOk (f : Fields) : Prop where
  deps : Opt (ArrayOf IsText) f "deps"
  io : Opt IsBool f "io"
  line : Opt IsLine f "line"
  bindings : Opt (RecordsOf BindingOk) f "bindings"

/-! ## Functions -/

/-- A flow body that this many more bodies may nest in: what is no list, and what is no object in one, is skipped. -/
def FlowOk : Nat → Json → Prop
  | 0, v => v.asArr = none
  | n + 1, v => ∀ items, v = .arr items → ∀ op ∈ items, ∀ f, op = .obj f →
      Opt IsLine f "line" ∧ Opt (OrNull IsColumn) f "column" ∧ FlowOk n (Json.get f "then") ∧ FlowOk n (Json.get f "else") ∧
        FlowOk n (Json.get f "body")

structure ParamOk (f : Fields) : Prop where
  name : Named f "name"
  line : Opt IsLine f "line"
  column : Opt (OrNull IsColumn) f "column"
  effect : Opt (OrNull (Among paramEffects)) f "effect"

structure FunctionOk (f : Fields) : Prop where
  sig : Opt (OrNull IsText) f "sig"
  body : FlowOk (maxNestingDepth + 1) (Json.get f "body")
  params : Opt (RecordsOf ParamOk) f "params"

/-! ## Protocols -/

inductive MatcherKind where
  | assign | call
  deriving DecidableEq, Repr

/-- A pattern of one event. -/
structure Matcher where
  kind : MatcherKind
  target : String
  value : Option Bool
  args : Finset String
  deriving DecidableEq

structure Protocol where
  name : String
  opens : Matcher
  closes : Matcher
  barriers : List Matcher
  allow : List Matcher
  exitBarriers : Bool
  methods : List String
  description : String

/-- A boolean, or none: absent and null are one. -/
def FlagIs (f : Fields) (key : String) : Option Bool → Prop
  | none => Json.get f key = .null
  | some b => Json.get f key = .bool b

def OptTextIs (f : Fields) (key : String) : Option String → Prop
  | none => Json.get f key = .null
  | some s => Json.get f key = .str s

inductive MatcherReads (requireValue : Bool) (f : Fields) : Matcher → Prop
  | assign {target : String} {value : Option Bool} : Json.get f "kind" = .str "assign" → NameIs f "target" target →
      FlagIs f "value" value → (requireValue = true → value.isSome) → MatcherReads requireValue f ⟨.assign, target, value, ∅⟩
  | call {callee : String} {args : List String} : Json.get f "kind" = .str "call" → NameIs f "callee" callee →
      OwnIR.getD f "args" (.arr []) = .arr (args.map .str) → MatcherReads requireValue f ⟨.call, callee, none, args.toFinset⟩

def IsMatcher (requireValue : Bool) (raw : Json) (m : Matcher) : Prop := ∃ f, raw = .obj f ∧ MatcherReads requireValue f m

/-- A list of matchers, that may be absent. -/
def MatchersAre (f : Fields) (key : String) (ms : List Matcher) : Prop :=
  ∃ items, OwnIR.getD f key (.arr []) = .arr items ∧ List.Forall₂ (IsMatcher false) items ms

/-- The methods a protocol is for. -/
def ScopeIs (f : Fields) (methods : List String) : Prop :=
  ∃ scope, OwnIR.getD f "scope" (.obj []) = .obj scope ∧ OwnIR.getD scope "methods" (.arr []) = .arr (methods.map .str) ∧
    ∀ m ∈ methods, m ≠ ""

structure ProtocolReads (f : Fields) (p : Protocol) : Prop where
  name : NameIs f "name" p.name
  opens : ∃ raw, Json.lookup f "opens" = some raw ∧ IsMatcher true raw p.opens
  closes : ∃ raw, Json.lookup f "closes" = some raw ∧ IsMatcher true raw p.closes
  barriers : MatchersAre f "barriers" p.barriers
  allow : MatchersAre f "allow" p.allow
  exitBarriers : OwnIR.getD f "exit_barriers" (.bool true) = .bool p.exitBarriers
  fires : p.barriers ≠ [] ∨ p.exitBarriers = true
  live : p.opens ∉ p.barriers
  scope : ScopeIs f p.methods
  description : OwnIR.getD f "description" (.str "") = .str p.description

def IsProtocol (raw : Json) (p : Protocol) : Prop := ∃ f, raw = .obj f ∧ ProtocolReads f p

/-! ## Events -/

inductive Event where
  | assign (target : String) (value : Option Bool) (line : Int)
  | call (callee : String) (arg : Option String) (line : Int)
  | ret (line : Int)
  | throw (line : Int)
  | ite (line : Int) (thenEvents elseEvents : List Event)
  | loop (line : Int) (body : List Event)

structure MethodEvents where
  name : String
  file : String
  events : List Event

def LineIs (f : Fields) (line : Int) : Prop :=
  OwnIR.getD f "line" (.int 0) = .int line ∧ 0 ≤ line ∧ line ≤ lineMax

/-- An event, its bodies read by `sub`. -/
inductive EventReads (sub : Json → List Event → Prop) (f : Fields) : Event → Prop
  | assign {target : String} {value : Option Bool} {line : Int} : Json.get f "ev" = .str "assign" → LineIs f line →
      NameIs f "target" target → FlagIs f "value" value → EventReads sub f (.assign target value line)
  | call {callee : String} {arg : Option String} {line : Int} : Json.get f "ev" = .str "call" → LineIs f line →
      NameIs f "callee" callee → OptTextIs f "arg" arg → EventReads sub f (.call callee arg line)
  | ret {line : Int} : Json.get f "ev" = .str "return" → LineIs f line → EventReads sub f (.ret line)
  | throw {line : Int} : Json.get f "ev" = .str "throw" → LineIs f line → EventReads sub f (.throw line)
  | ite {line : Int} {thenEvents elseEvents : List Event} : Json.get f "ev" = .str "if" → LineIs f line →
      sub (OwnIR.getD f "then" (.arr [])) thenEvents → sub (OwnIR.getD f "else" (.arr [])) elseEvents →
      EventReads sub f (.ite line thenEvents elseEvents)
  | loop {line : Int} {body : List Event} : Json.get f "ev" = .str "while" → LineIs f line →
      sub (OwnIR.getD f "body" (.arr [])) body → EventReads sub f (.loop line body)

/-- A list of events that this many more bodies may nest in. -/
def EventsRead : Nat → Json → List Event → Prop
  | 0, _, _ => False
  | n + 1, raw, events =>
    ∃ items, raw = .arr items ∧ List.Forall₂ (fun item event => ∃ f,
      item = .obj f ∧ EventReads (EventsRead n) f event) items events

structure MethodReads (f : Fields) (m : MethodEvents) : Prop where
  name : NameIs f "name" m.name
  file : OwnIR.getD f "file" (.str "?") = .str m.file
  events : EventsRead (maxNestingDepth + 1) (OwnIR.getD f "events" (.arr [])) m.events

def IsMethod (raw : Json) (m : MethodEvents) : Prop := ∃ f, raw = .obj f ∧ MethodReads f m

/-! ## The document -/

structure OrphanOk (f : Fields) : Prop where
  awaited : Named f "local"
  callee : Named f "callee"
  file : IsText (Json.get f "file")
  line : IsLine (Json.get f "line")
  column : Opt (OrNull IsColumn) f "column"
  method : Opt (OrNull IsText) f "method"
  family : Opt (OrNull (Among orphanFamilies)) f "family"
  resultType : Opt (OrNull IsText) f "result_type"

/-- Protocols whose names are distinct. -/
def ProtocolsOk (v : Json) : Prop :=
  ∃ items protocols, v = .arr items ∧ List.Forall₂ IsProtocol items protocols ∧ (protocols.map Protocol.name).Nodup

structure DocumentOk (top : Fields) : Prop where
  version : Opt IsVersion top "ownir_version"
  components : Opt (RecordsOf ComponentOk) top "components"
  services : Opt (RecordsOf ServiceOk) top "services"
  effects : Opt (RecordsOf EffectOk) top "effects"
  functions : Opt (RecordsOf FunctionOk) top "functions"
  protocols : Opt ProtocolsOk top "protocols"
  protocolFunctions : Opt (ArrayOf fun raw => ∃ m, IsMethod raw m) top "protocol_functions"
  orphanedAwaitables : Opt (RecordsOf OrphanOk) top "orphaned_awaitables"

end OwnNet.Facts
