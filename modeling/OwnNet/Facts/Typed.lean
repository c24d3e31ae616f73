/-
  OwnNet.Facts.Typed — the typed document of the port: what is read of a raw document once the
  strict door has let it through, and what is written of it.

  A member the schema names is read into a field, every other is kept in `extra` as it is. What is
  read of an absent member is `none`; of a null, that is up to the field: `rejectNull` does not
  read it, `nullable` keeps it, and an optional raw value takes it for absent.

  Proved: `accepted_alike`: the two strict doors accept the same documents, and every one of them is
  read.
-/

import OwnNet.Facts.Strict
import OwnNet.Json.Same

namespace OwnNet.Facts.Typed

open Checks Strict

/-- A value that was read: the keys of every object are distinct. -/
abbrev Value := {v : Json // v.distinct = true}

/-! ## Fields -/

section Readers

variable {α : Type}

/-- A member that may be absent; a null is read like any other value. -/
def rejectNull (read : Json → Option α) : Option Json → Option (Option α)
  | none => some none
  | some v => (read v).map some

/-- A member that may be absent, or null. -/
def nullable (read : Json → Option α) : Option Json → Option (Option (Option α))
  | none => some none
  | some .null => some (some none)
  | some v => (read v).map fun a => some (some a)

/-- An optional raw value. -/
def optionValue : Option Json → Option Json
  | none | some .null => none
  | some v => some v

/-- `Vec<T>` -/
def vec (read : Json → Option α) : List Json → Option (List α)
  | [] => some []
  | j :: rest => (read j).bind fun a => (vec read rest).map (a :: ·)

def vecOf (read : Json → Option α) (v : Json) : Option (List α) := v.asArr.bind (vec read)

def texts (v : Json) : Option (List String) := v.asArr.bind Json.strings

def writeTexts (ss : List String) : Json := .arr (ss.map .str)

def writeNullable (write : α → Json) (o : Option (Option α)) : Option Json := o.map fun a => a.elim .null write

def writeVec (write : α → Json) (as : List α) : Json := .arr (as.map write)

end Readers

/-! ## Records -/

inductive Lifetime where
  | singleton | scoped | transient
  deriving DecidableEq, Repr

def Lifetime.read : Json → Option Lifetime
  | .str "singleton" => some .singleton
  | .str "scoped" => some .scoped
  | .str "transient" => some .transient
  | _ => none

def Lifetime.toValue : Lifetime → Json
  | .singleton => .str "singleton"
  | .scoped => .str "scoped"
  | .transient => .str "transient"

inductive ParamEffect where
  | consume | borrow | borrowMut | plain
  deriving DecidableEq, Repr

def ParamEffect.read : Json → Option ParamEffect
  | .str "consume" => some .consume
  | .str "borrow" => some .borrow
  | .str "borrow_mut" => some .borrowMut
  | .str "plain" => some .plain
  | _ => none

def ParamEffect.toValue : ParamEffect → Json
  | .consume => .str "consume"
  | .borrow => .str "borrow"
  | .borrowMut => .str "borrow_mut"
  | .plain => .str "plain"

/-- A record, read from the members of an object. -/
def ofObject {α : Type} (read : Fields → Option α) (v : Json) : Option α := v.asObj.bind read

structure Site where
  typeName : Option String
  file : Option String
  line : Option Int
  extra : Fields

def Site.names : List String := ["type", "file", "line"]

def Site.ofFields (f : Fields) : Option Site :=
  (rejectNull Json.asStr (Json.lookup f "type")).bind fun typeName =>
  (rejectNull Json.asStr (Json.lookup f "file")).bind fun file =>
  (rejectNull representableInt (Json.lookup f "line")).bind fun line =>
  some ⟨typeName, file, line, Json.rest Site.names f⟩

def Site.members (s : Site) : List (String × Option Json) :=
  [("type", s.typeName.map .str), ("file", s.file.map .str), ("line", s.line.map .int)]

def Site.toValue (s : Site) : Json := Json.record s.members s.extra

structure Subscription where
  resource : Option String
  typeName : Option (Option String)
  sourceType : Option (Option String)
  sourceProvenance : Option (Option String)
  ignoreReason : Option (Option String)
  column : Option Json
  extra : Fields

def Subscription.names : List String := ["resource", "type", "source_type", "source_provenance", "ignore_reason", "column"]

def Subscription.ofFields (f : Fields) : Option Subscription :=
  (rejectNull Json.asStr (Json.lookup f "resource")).bind fun resource =>
  (nullable Json.asStr (Json.lookup f "type")).bind fun typeName =>
  (nullable Json.asStr (Json.lookup f "source_type")).bind fun sourceType =>
  (nullable Json.asStr (Json.lookup f "source_provenance")).bind fun sourceProvenance =>
  (nullable Json.asStr (Json.lookup f "ignore_reason")).bind fun ignoreReason =>
  some ⟨resource, typeName, sourceType, sourceProvenance, ignoreReason, optionValue (Json.lookup f "column"),
    Json.rest Subscription.names f⟩

def Subscription.members (s : Subscription) : List (String × Option Json) :=
  [("resource", s.resource.map .str), ("type", writeNullable .str s.typeName), ("source_type", writeNullable .str s.sourceType),
    ("source_provenance", writeNullable .str s.sourceProvenance), ("ignore_reason",
      writeNullable .str s.ignoreReason), ("column", s.column)]

def Subscription.toValue (s : Subscription) : Json := Json.record s.members s.extra

structure Component where
  subscriptions : Option (List Subscription)
  extra : Fields

def Component.names : List String := ["subscriptions"]

def Component.ofFields (f : Fields) : Option Component :=
  (rejectNull (vecOf (ofObject Subscription.ofFields)) (Json.lookup f "subscriptions")).bind fun subscriptions =>
  some ⟨subscriptions, Json.rest Component.names f⟩

def Component.members (c : Component) : List (String × Option Json) :=
  [("subscriptions", c.subscriptions.map (writeVec Subscription.toValue))]

def Component.toValue (c : Component) : Json := Json.record c.members c.extra

structure Service where
  lifetime : Lifetime
  name : String
  deps : Option (List String)
  weakDeps : Option (List String)
  rootResolves : Option (List String)
  file : Option String
  line : Option Int
  ctorFile : Option String
  ctorLine : Option Int
  ctorType : Option String
  rootResolveSites : Option (List Site)
  scopeCached : Option (List String)
  scopeCacheSites : Option (List Site)
  extra : Fields

def Service.names : List String :=
  ["lifetime", "name", "deps", "weak_deps", "root_resolves", "file", "line", "ctor_file", "ctor_line",
    "ctor_type", "root_resolve_sites", "scope_cached", "scope_cache_sites"]

def Service.ofFields (f : Fields) : Option Service :=
  ((Json.lookup f "lifetime").bind Lifetime.read).bind fun lifetime =>
  ((Json.lookup f "name").bind Json.asStr).bind fun name =>
  (rejectNull texts (Json.lookup f "deps")).bind fun deps =>
  (rejectNull texts (Json.lookup f "weak_deps")).bind fun weakDeps =>
  (rejectNull texts (Json.lookup f "root_resolves")).bind fun rootResolves =>
  (rejectNull Json.asStr (Json.lookup f "file")).bind fun file =>
  (rejectNull representableInt (Json.lookup f "line")).bind fun line =>
  (rejectNull Json.asStr (Json.lookup f "ctor_file")).bind fun ctorFile =>
  (rejectNull representableInt (Json.lookup f "ctor_line")).bind fun ctorLine =>
  (rejectNull Json.asStr (Json.lookup f "ctor_type")).bind fun ctorType =>
  (rejectNull (vecOf (ofObject Site.ofFields)) (Json.lookup f "root_resolve_sites")).bind fun rootResolveSites =>
  (rejectNull texts (Json.lookup f "scope_cached")).bind fun scopeCached =>
  (rejectNull (vecOf (ofObject Site.ofFields)) (Json.lookup f "scope_cache_sites")).bind fun scopeCacheSites =>
  some ⟨lifetime, name, deps, weakDeps, rootResolves, file, line, ctorFile, ctorLine, ctorType,
    rootResolveSites, scopeCached, scopeCacheSites,
    Json.rest Service.names f⟩

def Service.members (s : Service) : List (String × Option Json) :=
  [("lifetime", some s.lifetime.toValue), ("name", some (.str s.name)), ("deps", s.deps.map writeTexts),
    ("weak_deps", s.weakDeps.map writeTexts), ("root_resolves", s.rootResolves.map writeTexts), ("file", s.file.map .str),
    ("line", s.line.map .int), ("ctor_file", s.ctorFile.map .str), ("ctor_line",
      s.ctorLine.map .int), ("ctor_type", s.ctorType.map .str),
    ("root_resolve_sites", s.rootResolveSites.map (writeVec Site.toValue)), ("scope_cached", s.scopeCached.map writeTexts),
    ("scope_cache_sites", s.scopeCacheSites.map (writeVec Site.toValue))]

def Service.toValue (s : Service) : Json := Json.record s.members s.extra

structure Binding where
  name : Option String
  init : Option String
  refs : Option (List String)
  line : Option Int
  extra : Fields

def Binding.names : List String := ["name", "init", "refs", "line"]

def Binding.ofFields (f : Fields) : Option Binding :=
  (rejectNull Json.asStr (Json.lookup f "name")).bind fun name =>
  (rejectNull Json.asStr (Json.lookup f "init")).bind fun init =>
  (rejectNull texts (Json.lookup f "refs")).bind fun refs =>
  (rejectNull representableInt (Json.lookup f "line")).bind fun line =>
  some ⟨name, init, refs, line, Json.rest Binding.names f⟩

def Binding.members (b : Binding) : List (String × Option Json) :=
  [("name", b.name.map .str), ("init", b.init.map .str), ("refs", b.refs.map writeTexts), ("line", b.line.map .int)]

def Binding.toValue (b : Binding) : Json := Json.record b.members b.extra

structure Effect where
  deps : Option (List String)
  io : Option Bool
  line : Option Int
  bindings : Option (List Binding)
  extra : Fields

def Effect.names : List String := ["deps", "io", "line", "bindings"]

def Effect.ofFields (f : Fields) : Option Effect :=
  (rejectNull texts (Json.lookup f "deps")).bind fun deps =>
  (rejectNull Json.asBool (Json.lookup f "io")).bind fun io =>
  (rejectNull representableInt (Json.lookup f "line")).bind fun line =>
  (rejectNull (vecOf (ofObject Binding.ofFields)) (Json.lookup f "bindings")).bind fun bindings =>
  some ⟨deps, io, line, bindings, Json.rest Effect.names f⟩

def Effect.members (e : Effect) : List (String × Option Json) :=
  [("deps", e.deps.map writeTexts), ("io", e.io.map .bool), ("line", e.line.map .int),
    ("bindings", e.bindings.map (writeVec Binding.toValue))]

def Effect.toValue (e : Effect) : Json := Json.record e.members e.extra

structure Param where
  name : String
  line : Option Int
  effect : Option (Option ParamEffect)
  extra : Fields

def Param.names : List String := ["name", "line", "effect"]

def Param.ofFields (f : Fields) : Option Param :=
  ((Json.lookup f "name").bind Json.asStr).bind fun name =>
  (rejectNull representableInt (Json.lookup f "line")).bind fun line =>
  (nullable ParamEffect.read (Json.lookup f "effect")).bind fun effect =>
  some ⟨name, line, effect, Json.rest Param.names f⟩

def Param.members (p : Param) : List (String × Option Json) :=
  [("name", some (.str p.name)), ("line", p.line.map .int), ("effect", writeNullable ParamEffect.toValue p.effect)]

def Param.toValue (p : Param) : Json := Json.record p.members p.extra

structure Function where
  sig : Option (Option String)
  params : Option (List Param)
  extra : Fields

def Function.names : List String := ["sig", "params"]

def Function.ofFields (f : Fields) : Option Function :=
  (nullable Json.asStr (Json.lookup f "sig")).bind fun sig =>
  (rejectNull (vecOf (ofObject Param.ofFields)) (Json.lookup f "params")).bind fun params =>
  some ⟨sig, params, Json.rest Function.names f⟩

def Function.members (f : Function) : List (String × Option Json) :=
  [("sig", writeNullable .str f.sig), ("params", f.params.map (writeVec Param.toValue))]

def Function.toValue (f : Function) : Json := Json.record f.members f.extra

/-- `OwnIr`: the protocol sections are held raw. -/
structure OwnIr where
  ownirVersion : Option Int
  components : Option (List Component)
  services : Option (List Service)
  effects : Option (List Effect)
  functions : Option (List Function)
  protocols : Option (List Json)
  protocolFunctions : Option (List Json)
  extra : Fields

def OwnIr.names : List String :=
  ["ownir_version", "components", "services", "effects", "functions", "protocols", "protocol_functions"]

def OwnIr.ofFields (f : Fields) : Option OwnIr :=
  (rejectNull representableInt (Json.lookup f "ownir_version")).bind fun ownirVersion =>
  (rejectNull (vecOf (ofObject Component.ofFields)) (Json.lookup f "components")).bind fun components =>
  (rejectNull (vecOf (ofObject Service.ofFields)) (Json.lookup f "services")).bind fun services =>
  (rejectNull (vecOf (ofObject Effect.ofFields)) (Json.lookup f "effects")).bind fun effects =>
  (rejectNull (vecOf (ofObject Function.ofFields)) (Json.lookup f "functions")).bind fun functions =>
  (rejectNull Json.asArr (Json.lookup f "protocols")).bind fun protocols =>
  (rejectNull Json.asArr (Json.lookup f "protocol_functions")).bind fun protocolFunctions =>
  some ⟨ownirVersion, components, services, effects, functions, protocols, protocolFunctions,
    Json.rest OwnIr.names f⟩

def OwnIr.members (d : OwnIr) : List (String × Option Json) :=
  [("ownir_version", d.ownirVersion.map .int), ("components", d.components.map (writeVec Component.toValue)),
    ("services", d.services.map (writeVec Service.toValue)), ("effects", d.effects.map (writeVec Effect.toValue)),
    ("functions", d.functions.map (writeVec Function.toValue)), ("protocols", d.protocols.map .arr),
    ("protocol_functions", d.protocolFunctions.map .arr)]

/-! ## The two doors of the typed document -/

def maxValueDepth : Nat := 128

/-- `OwnIr::from_json`, of a text that was read as this value: the parser has no more containers open at once. -/
def OwnIr.fromJson (raw : Value) : Checked OwnIr :=
  ensure (raw.val.nesting < maxValueDepth) ⟨.json, "not valid JSON: recursion limit exceeded"⟩ >>= fun _ =>
  require raw.val.asObj (shape "OwnIR root must be a JSON object") >>= fun obj =>
  validateDocument obj >>= fun _ =>
  require (OwnIr.ofFields obj)
    (shape "strict validator hole: the strict validator accepted a document serde then refused, so a rule is missing from it")

def checkDepth (what : String) (value : Json) : Checked Unit :=
  ensure (value.levels ≤ maxValueDepth) (shape (what ++ ": nested more than 128 levels deep"))

def checkMapDepth (what : String) (map : Fields) : Checked Unit := each (fun _ member => checkDepth what member.2) map

/-- Every record of a list that may be absent. -/
def eachOf {α : Type} (check : α → Checked Unit) (items : Option (List α)) : Checked Unit :=
  each (fun _ i => check i) (items.getD [])

/-- `check_raw_depth` -/
def OwnIr.checkRawDepth (d : OwnIr) : Checked Unit :=
  checkMapDepth "OwnIR root" d.extra >>= fun _ =>
  eachOf (checkDepth "protocol") d.protocols >>= fun _ =>
  eachOf (checkDepth "protocol function") d.protocolFunctions >>= fun _ =>
  eachOf (fun component =>
    checkMapDepth "component" component.extra >>= fun _ =>
    eachOf (fun sub =>
      checkMapDepth "subscription" sub.extra >>= fun _ =>
      match sub.column with
      | some column => checkDepth "subscription 'column'" column
      | none => .ok ()) component.subscriptions) d.components >>= fun _ =>
  eachOf (fun service =>
    checkMapDepth "service" service.extra >>= fun _ =>
    each (fun _ site => checkMapDepth "service call site" site.extra)
      (service.rootResolveSites.getD [] ++ service.scopeCacheSites.getD [])) d.services >>= fun _ =>
  eachOf (fun effect =>
    checkMapDepth "effect" effect.extra >>= fun _ => eachOf
        (fun b => checkMapDepth "binding" b.extra) effect.bindings) d.effects >>= fun _ =>
  eachOf (fun function =>
    checkMapDepth "function" function.extra >>= fun _ => eachOf
      (fun p => checkMapDepth "parameter" p.extra) function.params) d.functions

/-- `OwnIr::to_value` -/
def OwnIr.toValue (d : OwnIr) : Checked Json := d.checkRawDepth >>= fun _ => .ok (Json.record d.members d.extra)

/-! ## What is read -/

section Reads

variable {α β : Type} {read : Json → Option α} {p : Json → Prop} {f : Fields} {key : String}

theorem bind_reads {o : Option α} {g : α → Option β} (ho : ∃ a, o = some a) (hg : ∀ a, ∃ b, g a = some b) :
    ∃ b, o.bind g = some b := by
  obtain ⟨a, rfl⟩ := ho
  exact hg a

theorem rejectNull_reads (h : Opt p f key) (hp : ∀ v, p v → ∃ a, read v = some a) :
    ∃ a, rejectNull read (Json.lookup f key) = some a := by
  unfold Opt at h
  cases hv : Json.lookup f key with
  | none => exact ⟨none, rfl⟩
  | some v =>
    obtain ⟨a, ha⟩ := hp v (h v hv)
    exact ⟨some a, by rw [rejectNull, ha]; rfl⟩

theorem nullable_reads (h : Opt (OrNull p) f key) (hp : ∀ v, p v → ∃ a, read v = some a) :
    ∃ a, nullable read (Json.lookup f key) = some a := by
  unfold Opt at h
  cases hv : Json.lookup f key with
  | none => exact ⟨none, rfl⟩
  | some v =>
    rcases h v hv with rfl | h
    · exact ⟨some none, rfl⟩
    · obtain ⟨a, ha⟩ := hp v h
      by_cases hnull : v = .null
      · subst hnull
        exact ⟨some none, rfl⟩
      · exact ⟨some (some a), by rw [nullable.eq_3 _ _ hnull, ha]; rfl⟩

theorem text_reads : ∀ v, IsText v → ∃ s, v.asStr = some s := fun _ ⟨s, h⟩ => ⟨s, by rw [h]; rfl⟩

theorem bool_reads : ∀ v, IsBool v → ∃ b, v.asBool = some b := fun _ ⟨b, h⟩ => ⟨b, by rw [h]; rfl⟩

theorem line_reads : ∀ v, IsLine v → ∃ n, representableInt v = some n := by
  rintro v ⟨n, rfl, hpos, hmax⟩
  unfold lineMax at hmax
  exact ⟨n, representableInt_iff.mpr ⟨rfl, by unfold int64Min; omega, by unfold int64Max; omega⟩⟩

theorem vec_reads {items : List Json} (h : ∀ i ∈ items, ∃ a, read i = some a) : ∃ as, vec read items = some as := by
  induction items with
  | nil => exact ⟨[], rfl⟩
  | cons j rest ih =>
    obtain ⟨a, ha⟩ := h j List.mem_cons_self
    obtain ⟨as, has⟩ := ih fun i hi => h i (List.mem_cons_of_mem _ hi)
    exact ⟨a :: as, by rw [vec, ha, has]; rfl⟩

theorem texts_reads : ∀ v, ArrayOf IsText v → ∃ ss, texts v = some ss := by
  rintro v ⟨items, rfl, hall⟩
  obtain ⟨ss, hss⟩ := exists_reads (R := fun i s => i = Json.str s) hall
  refine ⟨ss, Json.strings_eq.mpr ?_⟩
  induction hss with
  | nil => rfl
  | cons h _ ih => rw [h, ih fun i hi => hall i (List.mem_cons_of_mem _ hi)]; rfl

theorem records_read {q : Fields → Prop} {g : Fields → Option α} (hq : ∀ f, q f → ∃ a, g f = some a) :
    ∀ v, RecordsOf q v → ∃ as, vecOf (ofObject g) v = some as := by
  rintro v ⟨items, rfl, hall⟩
  refine vec_reads fun i hi => ?_
  obtain ⟨f, rfl, hf⟩ := hall i hi
  exact hq f hf

end Reads

theorem site_reads (f : Fields) (h : SiteOk f) : ∃ s, Site.ofFields f = some s :=
  bind_reads (rejectNull_reads h.type text_reads) fun _ =>
  bind_reads (rejectNull_reads h.file text_reads) fun _ =>
  bind_reads (rejectNull_reads h.line line_reads) fun _ => ⟨_, rfl⟩

theorem subscription_reads (f : Fields) (h : SubscriptionOk f) : ∃ s, Subscription.ofFields f = some s :=
  bind_reads (rejectNull_reads h.resource fun v ⟨s, _, hs⟩ => text_reads v ⟨s, hs⟩) fun _ =>
  bind_reads (nullable_reads h.type text_reads) fun _ =>
  bind_reads (nullable_reads h.sourceType text_reads) fun _ =>
  bind_reads (nullable_reads h.sourceProvenance text_reads) fun _ =>
  bind_reads (nullable_reads h.ignoreReason text_reads) fun _ => ⟨_, rfl⟩

theorem component_reads (f : Fields) (h : ComponentOk f) : ∃ c, Component.ofFields f = some c :=
  bind_reads (rejectNull_reads h (records_read subscription_reads)) fun _ => ⟨_, rfl⟩

theorem lifetime_reads : ∀ v, Among lifetimes v → ∃ l, Lifetime.read v = some l := by
  rintro v ⟨s, hs, rfl⟩
  simp only [lifetimes, List.mem_cons, List.not_mem_nil, or_false] at hs
  rcases hs with rfl | rfl | rfl <;> exact ⟨_, rfl⟩

theorem paramEffect_reads : ∀ v, Among paramEffects v → ∃ e, ParamEffect.read v = some e := by
  rintro v ⟨s, hs, rfl⟩
  simp only [paramEffects, List.mem_cons, List.not_mem_nil, or_false] at hs
  rcases hs with rfl | rfl | rfl | rfl <;> exact ⟨_, rfl⟩

theorem required_reads {α : Type} {read : Json → Option α} {f : Fields} {key : String} {v : Json}
    (hv : Json.lookup f key = some v)
    (h : ∃ a, read v = some a) : ∃ a, (Json.lookup f key).bind read = some a := by
  rw [hv]
  exact h

theorem named_reads {f : Fields} {key : String} (h : Named f key) : ∃ s, (Json.lookup f key).bind Json.asStr = some s := by
  obtain ⟨s, -, hs⟩ := h
  exact required_reads hs ⟨s, rfl⟩

theorem service_reads (f : Fields) (h : ServiceOk f) : ∃ s, Service.ofFields f = some s := by
  have hlifetime : ∃ l, (Json.lookup f "lifetime").bind Lifetime.read = some l := by
    have := h.lifetime
    rw [Json.get_eq] at this
    cases hv : Json.lookup f "lifetime" with
    | none =>
      rw [hv] at this
      obtain ⟨_, _, hnull⟩ := this
      cases hnull
    | some v =>
      rw [hv] at this
      exact lifetime_reads v this
  exact
    bind_reads hlifetime fun _ =>
    bind_reads (named_reads h.name) fun _ =>
    bind_reads (rejectNull_reads h.deps texts_reads) fun _ =>
    bind_reads (rejectNull_reads h.weakDeps texts_reads) fun _ =>
    bind_reads (rejectNull_reads h.rootResolves texts_reads) fun _ =>
    bind_reads (rejectNull_reads h.file text_reads) fun _ =>
    bind_reads (rejectNull_reads h.line line_reads) fun _ =>
    bind_reads (rejectNull_reads h.ctorFile text_reads) fun _ =>
    bind_reads (rejectNull_reads h.ctorLine line_reads) fun _ =>
    bind_reads (rejectNull_reads h.ctorType text_reads) fun _ =>
    bind_reads (rejectNull_reads h.rootResolveSites (records_read site_reads)) fun _ =>
    bind_reads (rejectNull_reads h.scopeCached texts_reads) fun _ =>
    bind_reads (rejectNull_reads h.scopeCacheSites (records_read site_reads)) fun _ => ⟨_, rfl⟩

theorem binding_reads (f : Fields) (h : BindingOk f) : ∃ b, Binding.ofFields f = some b :=
  bind_reads (rejectNull_reads h.name text_reads) fun _ =>
  bind_reads (rejectNull_reads h.init text_reads) fun _ =>
  bind_reads (rejectNull_reads h.refs texts_reads) fun _ =>
  bind_reads (rejectNull_reads h.line line_reads) fun _ => ⟨_, rfl⟩

theorem effect_reads (f : Fields) (h : EffectOk f) : ∃ e, Effect.ofFields f = some e :=
  bind_reads (rejectNull_reads h.deps texts_reads) fun _ =>
  bind_reads (rejectNull_reads h.io bool_reads) fun _ =>
  bind_reads (rejectNull_reads h.line line_reads) fun _ =>
  bind_reads (rejectNull_reads h.bindings (records_read binding_reads)) fun _ => ⟨_, rfl⟩

theorem param_reads (f : Fields) (h : ParamOk f) : ∃ p, Param.ofFields f = some p :=
  bind_reads (named_reads h.name) fun _ =>
  bind_reads (rejectNull_reads h.line line_reads) fun _ =>
  bind_reads (nullable_reads h.effect paramEffect_reads) fun _ => ⟨_, rfl⟩

theorem function_reads (f : Fields) (h : FunctionOk f) : ∃ g, Function.ofFields f = some g :=
  bind_reads (nullable_reads h.sig text_reads) fun _ =>
  bind_reads (rejectNull_reads h.params (records_read param_reads)) fun _ => ⟨_, rfl⟩

/-- A document that keeps the grammar is read. -/
theorem document_reads (top : Fields) (h : DocumentOk top) : ∃ d, OwnIr.ofFields top = some d :=
  bind_reads (rejectNull_reads h.version fun v hv => ⟨2, by rw [hv]; rfl⟩) fun _ =>
  bind_reads (rejectNull_reads h.components (records_read component_reads)) fun _ =>
  bind_reads (rejectNull_reads h.services (records_read service_reads)) fun _ =>
  bind_reads (rejectNull_reads h.effects (records_read effect_reads)) fun _ =>
  bind_reads (rejectNull_reads h.functions (records_read function_reads)) fun _ =>
  bind_reads (rejectNull_reads h.protocols fun _ ⟨items, _, hv, _⟩ => ⟨items, by rw [hv]; rfl⟩) fun _ =>
  bind_reads (rejectNull_reads h.protocolFunctions fun _ ⟨items, hv, _⟩ => ⟨items, by rw [hv]; rfl⟩) fun _ => ⟨_, rfl⟩

/-- The two strict doors accept the same documents, and every one of them is read. -/
theorem accepted_alike (top : Fields) :
    ((∃ facts, load false (.obj top) = .ok facts) ↔ validateDocument top = .ok ()) ∧
      (validateDocument top = .ok () → ∃ d, OwnIr.ofFields top = some d) :=
  ⟨doors_agree, fun h => document_reads top (validateDocument_ok.mp h)⟩

/-- A service the two doors accept. -/
theorem accepted_alike_clock :
    validateDocument [("services", .arr [.obj [("lifetime", .str "scoped"), ("name", .str "App.Clock")]])] = .ok () ∧
      ∃ d, OwnIr.ofFields [("services", .arr [.obj [("lifetime", .str "scoped"), ("name", .str "App.Clock")]])] = some d :=
  have h : validateDocument [("services", .arr [.obj [("lifetime", .str "scoped"), ("name", .str "App.Clock")]])] = .ok () := by
    decide
  ⟨h, (accepted_alike _).2 h⟩

end OwnNet.Facts.Typed
