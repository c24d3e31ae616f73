/-
  OwnNet.Facts.Total — what `load` raises besides an `OwnIRError`.

  Four tags are looked up in a set before anything asks whether they are strings: the lifetime of
  a service, the effect of a parameter, the kind of a matcher and the tag of an event.

  Proved: `load_total_iff`: a load ends with the document or an `OwnIRError` exactly where it
  meets none of them that cannot be hashed (`Stuck`).
-/

import OwnNet.Facts.Load

namespace OwnNet.Facts

open Checks

/-! ## The tags -/

def IsTypeError : LoadError → Prop
  | .refused _ => False
  | .typeError _ => True

/-- What cannot be hashed. -/
def Unhashable : Json → Prop
  | .arr _ | .obj _ => True
  | _ => False

/-- A record that is `c`, all before it in its list `p`. -/
def FirstRecord (p c : Fields → Prop) (f : Fields) (field : String) : Prop :=
  ∃ rs : List Fields, OwnIR.getD f field (.arr []) = .arr (rs.map .obj) ∧ First p c rs

/-- The lifetime of a service is looked at before all its other fields. -/
def ServiceStuck (s : Fields) : Prop := Unhashable (Json.get s "lifetime")

structure ParamStuck (p : Fields) : Prop where
  name : Named p "name"
  line : Opt IsLine p "line"
  column : Opt (OrNull IsColumn) p "column"
  effect : Unhashable (Json.get p "effect")

structure FunctionStuck (f : Fields) : Prop where
  sig : Opt (OrNull IsText) f "sig"
  body : FlowOk (maxNestingDepth + 1) (Json.get f "body")
  params : FirstRecord ParamOk ParamStuck f "params"

def MatcherStuck (raw : Json) : Prop := ∃ f, raw = .obj f ∧ Unhashable (Json.get f "kind")

def MatchersStuck (f : Fields) (key : String) : Prop :=
  ∃ items, OwnIR.getD f key (.arr []) = .arr items ∧ First (fun raw => ∃ m, IsMatcher false raw m) MatcherStuck items

/-- The matchers of a protocol, in the order they are parsed. -/
def ProtocolStuck (raw : Json) : Prop :=
  ∃ f, raw = .obj f ∧ Named f "name" ∧ (Json.lookup f "opens").isSome = true ∧ (Json.lookup f "closes").isSome = true ∧
    (MatcherStuck (Json.get f "opens") ∨ (∃ m, IsMatcher true (Json.get f "opens") m) ∧
      (MatcherStuck (Json.get f "closes") ∨ (∃ m, IsMatcher true (Json.get f "closes") m) ∧
        (MatchersStuck f "barriers" ∨ (∃ ms, MatchersAre f "barriers" ms) ∧ MatchersStuck f "allow")))

/-- The tag of an event, or one in its bodies. -/
def EventStuck (sub : Json → List Event → Prop) (stuck : Json → Prop) (e : Json) : Prop :=
  ∃ f, e = .obj f ∧ (Unhashable (Json.get f "ev") ∨ (∃ line, LineIs f line) ∧
    (Json.get f "ev" = .str "if" ∧ (stuck (OwnIR.getD f "then" (.arr [])) ∨ (∃ es, sub (OwnIR.getD f "then" (.arr [])) es) ∧
        stuck (OwnIR.getD f "else" (.arr []))) ∨
      Json.get f "ev" = .str "while" ∧ stuck (OwnIR.getD f "body" (.arr []))))

def EventsStuck : Nat → Json → Prop
  | 0, _ => False
  | n + 1, raw => ∃ items, raw = .arr items ∧
    First (fun e => ∃ event f, e = .obj f ∧ EventReads (EventsRead n) f event) (EventStuck (EventsRead n) (EventsStuck n)) items

def MethodStuck (raw : Json) : Prop :=
  ∃ f, raw = .obj f ∧ Named f "name" ∧ Opt IsText f "file" ∧
    EventsStuck (maxNestingDepth + 1) (OwnIR.getD f "events" (.arr []))

/-- A protocol, those before it well formed and of distinct names. -/
def ProtocolsStuck (top : Fields) : Prop :=
  ∃ items, OwnIR.getD top "protocols" (.arr []) = .arr items ∧ ∃ pre raw post, items = pre ++ raw :: post ∧
    ProtocolsOk (.arr pre) ∧ ProtocolStuck raw

def MethodsStuck (top : Fields) : Prop :=
  ∃ items, OwnIR.getD top "protocol_functions" (.arr []) = .arr items ∧ First (fun raw => ∃ m, IsMethod raw m) MethodStuck items

/-- A list or an object is met at a lifetime, a parameter's effect, the kind of a matcher or the tag of an event, and
    everything that is looked at before it is well formed. -/
structure Stuck (top : Fields) : Prop where
  version : Opt IsVersion top "ownir_version"
  components : Opt (RecordsOf ComponentOk) top "components"
  tag : FirstRecord ServiceOk ServiceStuck top "services" ∨
    Opt (RecordsOf ServiceOk) top "services" ∧ Opt (RecordsOf EffectOk) top "effects" ∧
      (FirstRecord FunctionOk FunctionStuck top "functions" ∨ Opt (RecordsOf FunctionOk) top "functions" ∧
        (ProtocolsStuck top ∨ Opt ProtocolsOk top "protocols" ∧ MethodsStuck top))

/-! ## The checks -/

def Crashes {α : Type} (x : Except LoadError α) : Prop := Stops IsTypeError x

section Crashes

variable {α β : Type}

theorem crashes_bind {x : Except LoadError α} {f : α → Except LoadError β} :
    Crashes (x >>= f) ↔ Crashes x ∨ ∃ a, x = .ok a ∧ Crashes (f a) := stops_bind

theorem not_crashes_ok {a : α} : ¬Crashes (Except.ok a : Except LoadError α) := not_stops_ok

theorem not_crashes_refuse {p : Prop} [Decidable p] {message : String} : ¬Crashes (refuse p message) :=
  fun h => (stops_ensure.mp h).2

theorem not_crashes_require {o : Option α} {message : String} : ¬Crashes (require o (.refused message)) :=
  fun h => (stops_require.mp h).2

/-- A step that raises nothing else. -/
theorem crashes_after {x : Except LoadError α} {f : α → Except LoadError β} (h : ¬Crashes x) :
    Crashes (x >>= f) ↔ ∃ a, x = .ok a ∧ Crashes (f a) := crashes_bind.trans ⟨fun hx => hx.resolve_left h, .inr⟩

theorem not_crashes_bind {x : Except LoadError α} {f : α → Except LoadError β} (hx : ¬Crashes x) (hf : ∀ a, ¬Crashes (f a)) :
    ¬Crashes (x >>= f) := fun h => let ⟨a, _, ha⟩ := (crashes_after hx).mp h; hf a ha

theorem crashes_checkIn {v : Json} {vocabulary : List String} {message : String} :
    Crashes (checkIn v vocabulary message) ↔ Unhashable v := by
  unfold checkIn
  rw [crashes_bind]
  have hno : ¬∃ known, isIn v vocabulary = .ok known ∧ Crashes (refuse (known = true) message) :=
    fun ⟨_, _, h⟩ => not_crashes_refuse h
  rw [or_iff_left hno]
  cases v with
  | arr items => exact iff_of_true ⟨_, rfl, trivial⟩ trivial
  | obj f => exact iff_of_true ⟨_, rfl, trivial⟩ trivial
  | _ => exact iff_of_false not_crashes_ok id

theorem not_crashes_lineDomain {n : Int} {who field : String} : ¬Crashes (checkLineDomain n who field) :=
  not_crashes_bind not_crashes_refuse fun _ => not_crashes_refuse

theorem not_crashes_line {f : Fields} {field who : String} {message : Json → String} : ¬Crashes (checkLine f field who message) :=
  not_crashes_bind not_crashes_require fun _ => not_crashes_lineDomain

theorem not_crashes_column {v : Json} {who : String} : ¬Crashes (checkColumn v who) := by
  have h : ∀ v : Json, ¬Crashes (require (v.asInteger.filter fun n => 1 ≤ n)
      (.refused (who ++ " 'column' must be a 1-based integer or absent, got " ++ OwnIR.repr v)) >>= fun n =>
      checkRepresentable n who "column" >>= fun _ => refuse (n ≤ lineMax)
      (who ++ " 'column' must be a source column in [1, 2147483647], got " ++ toString n ++ " (spec/OwnIR.md §4.2)")) := fun v =>
    not_crashes_bind not_crashes_require fun _ => not_crashes_bind not_crashes_refuse fun _ => not_crashes_refuse
  cases v with
  | null => exact not_crashes_ok
  | _ => exact h _

theorem not_crashes_name {f : Fields} {field : String} {message : Json → String} :
    ¬Crashes (checkName f field message) := not_crashes_refuse

theorem not_crashes_optText {f : Fields} {field who ending : String} : ¬Crashes (checkOptText f field who ending) :=
  not_crashes_refuse

theorem not_crashes_recordsOf {f : Fields} {field message : String} : ¬Crashes (recordsOf f field message) := not_crashes_require

theorem not_crashes_each {f : Nat → α → Except LoadError Unit} {items : List α} (h : ∀ i, ∀ a ∈ items, ¬Crashes (f i a)) :
    ¬Crashes (each f items) := not_stops_each h

theorem not_crashes_records {f : Fields} {field message : String} {g : Fields → Except LoadError Unit} (h : ∀ r, ¬Crashes (g r)) :
    ¬Crashes (recordsOf f field message >>= fun rs => each (fun _ r => g r) rs) :=
  not_crashes_bind not_crashes_require fun _ => not_crashes_each fun _ r _ => h r

theorem crashes_records {f : Fields} {field message : String} {g : Fields → Except LoadError Unit} {p c : Fields → Prop}
    (hp : ∀ r, g r = .ok () ↔ p r) (hc : ∀ r, Crashes (g r) ↔ c r) :
    Crashes (recordsOf f field message >>= fun rs => each (fun _ r => g r) rs) ↔ FirstRecord p c f field := by
  rw [crashes_after not_crashes_recordsOf]
  refine exists_congr fun rs => ?_
  rw [recordsOf_ok]
  exact and_congr_right fun _ => stops_each (fun _ r _ => hp r) fun _ r _ => hc r

end Crashes

theorem not_crashes_component {c : Fields} : ¬Crashes (loadComponent c) := by
  refine not_crashes_records fun s => ?_
  refine not_crashes_bind not_crashes_require fun _ => not_crashes_bind not_crashes_refuse fun _ =>
    not_crashes_bind not_crashes_line fun _ => ?_
  refine not_crashes_bind not_crashes_column fun _ => not_crashes_bind not_crashes_refuse fun _ =>
    not_crashes_bind not_crashes_refuse fun _ => ?_
  exact not_crashes_bind not_crashes_refuse fun _ => not_crashes_refuse

theorem not_crashes_sites {s : Fields} {field who : String} : ¬Crashes (loadSites s field who) :=
  not_crashes_bind not_crashes_require fun _ => not_crashes_each fun _ _ _ => not_crashes_lineDomain

theorem crashes_service {s : Fields} : Crashes (loadService s) ↔ ServiceStuck s := by
  unfold loadService
  rw [crashes_bind, crashes_checkIn]
  refine or_iff_left fun ⟨_, _, h⟩ => ?_
  revert h
  refine not_crashes_bind not_crashes_refuse fun _ => not_crashes_bind not_crashes_refuse fun _ =>
    not_crashes_bind not_crashes_refuse fun _ => ?_
  refine not_crashes_bind not_crashes_refuse fun _ => not_crashes_bind not_crashes_refuse fun _ =>
    not_crashes_bind not_crashes_line fun _ => ?_
  refine not_crashes_bind not_crashes_refuse fun _ => not_crashes_bind not_crashes_line fun _ =>
    not_crashes_bind not_crashes_refuse fun _ => ?_
  exact not_crashes_bind not_crashes_sites fun _ => not_crashes_bind not_crashes_refuse fun _ => not_crashes_sites

theorem not_crashes_effect {eff : Fields} : ¬Crashes (loadEffect eff) := by
  refine not_crashes_bind not_crashes_refuse fun _ => not_crashes_bind not_crashes_refuse fun _ =>
    not_crashes_bind not_crashes_line fun _ => ?_
  refine not_crashes_records fun b => ?_
  refine not_crashes_bind not_crashes_refuse fun _ => not_crashes_bind not_crashes_refuse fun _ =>
    not_crashes_bind not_crashes_refuse fun _ => ?_
  exact not_crashes_line

theorem not_crashes_flow {who : String} {n : Nat} {v : Json} : ¬Crashes (checkFlowCoordinates who n v) := by
  induction n generalizing v with
  | zero => exact not_crashes_refuse
  | succ n ih =>
    cases v with
    | arr nodes =>
      refine not_crashes_each fun _ node _ => ?_
      cases node with
      | obj f =>
        refine not_crashes_bind not_crashes_line fun _ => not_crashes_bind not_crashes_column fun _ => ?_
        exact not_crashes_bind ih fun _ => not_crashes_bind ih fun _ => ih
      | _ => exact not_crashes_ok
    | _ => exact not_crashes_ok

theorem crashes_param {p : Fields} : Crashes (loadParam p) ↔ ParamStuck p := by
  unfold loadParam
  rw [crashes_after not_crashes_name]
  constructor
  · rintro ⟨_, hname, h⟩
    obtain ⟨_, hline, h⟩ := (crashes_after not_crashes_line).mp h
    obtain ⟨_, hcolumn, h⟩ := (crashes_after not_crashes_column).mp h
    refine ⟨checkName_ok.mp hname, checkLine_ok.mp hline, checkColumn_ok.mp hcolumn, ?_⟩
    generalize Json.get p "effect" = v at h ⊢
    cases v with
    | null => exact absurd h not_crashes_ok
    | _ => exact crashes_checkIn.mp h
  · rintro ⟨hname, hline, hcolumn, h⟩
    refine ⟨(), checkName_ok.mpr hname, (crashes_after not_crashes_line).mpr ⟨(), checkLine_ok.mpr hline, ?_⟩⟩
    refine (crashes_after not_crashes_column).mpr ⟨(), checkColumn_ok.mpr hcolumn, ?_⟩
    generalize Json.get p "effect" = v at h ⊢
    cases v with
    | null => exact absurd h id
    | _ => exact crashes_checkIn.mpr h

theorem crashes_function {f : Fields} : Crashes (loadFunction f) ↔ FunctionStuck f := by
  unfold loadFunction
  rw [crashes_after not_crashes_optText]
  constructor
  · rintro ⟨_, hsig, h⟩
    obtain ⟨_, hbody, h⟩ := (crashes_after not_crashes_flow).mp h
    exact ⟨checkOptText_ok.mp hsig, checkFlowCoordinates_ok.mp hbody,
      (crashes_records (fun _ => loadParam_ok) fun _ => crashes_param).mp h⟩
  · rintro ⟨hsig, hbody, h⟩
    refine ⟨(), checkOptText_ok.mpr hsig, (crashes_after not_crashes_flow).mpr ⟨(), checkFlowCoordinates_ok.mpr hbody, ?_⟩⟩
    exact (crashes_records (fun _ => loadParam_ok) fun _ => crashes_param).mpr h

theorem not_crashes_str {raw : Fields} {key ctx : String} : ¬Crashes (requireStr raw key ctx) := not_crashes_require

theorem not_crashes_flag {raw : Fields} {key : String} {message : Json → String} : ¬Crashes (flagOf raw key message) := by
  unfold flagOf
  cases Json.get raw key with
  | null => exact not_crashes_ok
  | bool b => exact not_crashes_ok
  | _ => exact fun h => stops_error.mp h

theorem not_crashes_arg {raw : Fields} {ctx : String} : ¬Crashes (argOf raw ctx) := by
  unfold argOf
  cases Json.get raw "arg" with
  | null => exact not_crashes_ok
  | str s => exact not_crashes_ok
  | _ => exact fun h => stops_error.mp h

theorem not_crashes_optLine {raw : Fields} {ctx : String} : ¬Crashes (optLine raw ctx) :=
  not_crashes_bind not_crashes_require fun _ => not_crashes_bind not_crashes_refuse fun _ => not_crashes_bind not_crashes_refuse
    fun _ => not_crashes_ok

theorem crashes_matcher {requireValue : Bool} {ctx : String} {raw : Json} :
    Crashes (parseMatcher requireValue ctx raw) ↔ MatcherStuck raw := by
  unfold parseMatcher MatcherStuck
  rw [crashes_after not_crashes_require]
  refine exists_congr fun f => ?_
  rw [require_ok, Json.asObj_iff, crashes_bind, crashes_checkIn]
  refine and_congr_right fun _ => or_iff_left fun ⟨_, _, h⟩ => ?_
  split at h
  next =>
    revert h
    refine not_crashes_bind not_crashes_str fun _ => not_crashes_bind not_crashes_flag fun _ => ?_
    exact not_crashes_bind not_crashes_refuse fun _ => not_crashes_ok
  next =>
    revert h
    exact not_crashes_bind not_crashes_str fun _ => not_crashes_bind not_crashes_require fun _ => not_crashes_ok

theorem crashes_matchers {raw : Fields} {key ctx what : String} :
    Crashes (parseMatchers raw key ctx what) ↔ MatchersStuck raw key := by
  unfold parseMatchers MatchersStuck
  rw [crashes_after not_crashes_require]
  refine exists_congr fun items => ?_
  rw [require_ok, Json.asArr_iff]
  exact and_congr_right fun _ => stops_mapEach (R := IsMatcher false) (fun _ _ _ _ => parseMatcher_ok) fun _ _ _ =>
    crashes_matcher

theorem crashes_protocol {raw : Json} : Crashes (parseProtocol raw) ↔ ProtocolStuck raw := by
  unfold parseProtocol ProtocolStuck
  rw [crashes_after not_crashes_require]
  refine exists_congr fun f => ?_
  rw [require_ok, Json.asObj_iff, crashes_after not_crashes_str]
  refine and_congr_right fun _ => ?_
  constructor
  · rintro ⟨name, hname, h⟩
    obtain ⟨_, hboth, h⟩ := (crashes_after not_crashes_refuse).mp h
    obtain ⟨hopens, hcloses⟩ := refuse_ok.mp hboth
    refine ⟨⟨name, requireStr_ok.mp hname⟩, hopens, hcloses, ?_⟩
    refine (crashes_bind.mp h).imp crashes_matcher.mp fun ⟨m, hm, h⟩ => ⟨⟨m, parseMatcher_ok.mp hm⟩, ?_⟩
    refine (crashes_bind.mp h).imp crashes_matcher.mp fun ⟨m, hm, h⟩ => ⟨⟨m, parseMatcher_ok.mp hm⟩, ?_⟩
    refine (crashes_bind.mp h).imp crashes_matchers.mp fun ⟨ms, hms, h⟩ => ⟨⟨ms, parseMatchers_ok.mp hms⟩, ?_⟩
    refine crashes_matchers.mp ((crashes_bind.mp h).resolve_right fun ⟨_, _, h⟩ => ?_)
    revert h
    refine not_crashes_bind not_crashes_require fun _ => not_crashes_bind not_crashes_refuse fun _ =>
      not_crashes_bind not_crashes_refuse fun _ => ?_
    refine not_crashes_bind not_crashes_require fun _ => not_crashes_bind not_crashes_require fun _ => ?_
    exact not_crashes_bind not_crashes_require fun _ => not_crashes_ok
  · rintro ⟨⟨name, hname⟩, hopens, hcloses, h⟩
    refine ⟨name, requireStr_ok.mpr hname, (crashes_after not_crashes_refuse).mpr ⟨(), refuse_ok.mpr ⟨hopens, hcloses⟩, ?_⟩⟩
    refine crashes_bind.mpr (h.imp crashes_matcher.mpr fun ⟨⟨m, hm⟩, h⟩ => ⟨m, parseMatcher_ok.mpr hm, ?_⟩)
    refine crashes_bind.mpr (h.imp crashes_matcher.mpr fun ⟨⟨m, hm⟩, h⟩ => ⟨m, parseMatcher_ok.mpr hm, ?_⟩)
    refine crashes_bind.mpr (h.imp crashes_matchers.mpr fun ⟨⟨ms, hms⟩, h⟩ => ⟨ms, parseMatchers_ok.mpr hms, ?_⟩)
    exact crashes_bind.mpr (.inl (crashes_matchers.mpr h))

theorem crashes_event {sub : Json → Except LoadError (List Event)} {R : Json → List Event → Prop} {stuck : Json → Prop}
    (hsub : ∀ raw events, sub raw = .ok events ↔ R raw events) (hstuck : ∀ raw, Crashes (sub raw) ↔ stuck raw)
    {ctx : String} {e : Json} :
    Crashes (parseEvent sub ctx e) ↔ EventStuck R stuck e := by
  unfold parseEvent EventStuck
  rw [crashes_after not_crashes_require]
  refine exists_congr fun f => ?_
  rw [require_ok, Json.asObj_iff]
  refine and_congr_right fun _ => ?_
  rw [crashes_bind, crashes_checkIn]
  refine or_congr_right ?_
  constructor
  · rintro ⟨_, hknown, h⟩
    obtain ⟨line, hline, h⟩ := (crashes_after not_crashes_optLine).mp h
    refine ⟨⟨line, optLine_ok.mp hline⟩, ?_⟩
    rcases among_event (checkIn_ok.mp hknown) with hev | hev | hev | hev | hev | hev <;> rw [hev] at h ⊢
    · refine absurd h (not_crashes_bind not_crashes_str fun _ => not_crashes_bind not_crashes_flag fun _ => not_crashes_ok)
    · refine absurd h (not_crashes_bind not_crashes_str fun _ => not_crashes_bind not_crashes_arg fun _ => not_crashes_ok)
    · refine .inl ⟨rfl, (crashes_bind.mp h).imp (hstuck _).mp fun ⟨es, hes, h⟩ => ⟨⟨es, (hsub _ _).mp hes⟩, ?_⟩⟩
      exact (hstuck _).mp ((crashes_bind.mp h).resolve_right fun ⟨_, _, h⟩ => not_crashes_ok h)
    · exact absurd h not_crashes_ok
    · exact absurd h not_crashes_ok
    · exact .inr ⟨rfl, (hstuck _).mp ((crashes_bind.mp h).resolve_right fun ⟨_, _, h⟩ => not_crashes_ok h)⟩
  · rintro ⟨⟨line, hline⟩, ⟨hev, h⟩ | ⟨hev, h⟩⟩
    · refine ⟨(), checkIn_ok.mpr ⟨_, by decide, hev⟩, (crashes_after not_crashes_optLine).mpr ⟨line, optLine_ok.mpr hline, ?_⟩⟩
      rw [hev]
      refine crashes_bind.mpr (h.imp (hstuck _).mpr fun ⟨⟨es, hes⟩, h⟩ => ⟨es, (hsub _ _).mpr hes, ?_⟩)
      exact crashes_bind.mpr (.inl ((hstuck _).mpr h))
    · refine ⟨(), checkIn_ok.mpr ⟨_, by decide, hev⟩, (crashes_after not_crashes_optLine).mpr ⟨line, optLine_ok.mpr hline, ?_⟩⟩
      rw [hev]
      exact crashes_bind.mpr (.inl ((hstuck _).mpr h))

theorem crashes_events {ctx : String} {n : Nat} {raw : Json} : Crashes (parseEvents ctx n raw) ↔ EventsStuck n raw := by
  induction n generalizing raw with
  | zero => exact iff_of_false (fun h => stops_error.mp h) id
  | succ n ih =>
    rw [parseEvents, EventsStuck, crashes_after not_crashes_require]
    refine exists_congr fun items => ?_
    rw [require_ok, Json.asArr_iff]
    refine and_congr_right fun _ => ?_
    refine stops_mapEach (R := fun (e : Json) (event : Event) => ∃ f, e = .obj f ∧ EventReads (EventsRead n) f event) ?_ ?_
    · exact fun _ _ _ _ => parseEvent_ok fun _ _ => parseEvents_ok
    · exact fun _ _ _ => crashes_event (fun _ _ => parseEvents_ok) fun _ => ih

theorem crashes_method {raw : Json} : Crashes (parseMethod raw >>= fun _ => Except.ok ()) ↔ MethodStuck raw := by
  rw [crashes_bind, or_iff_left fun ⟨_, _, h⟩ => not_crashes_ok h]
  unfold parseMethod MethodStuck
  rw [crashes_after not_crashes_require]
  refine exists_congr fun f => ?_
  rw [require_ok, Json.asObj_iff, ← opt_getD (p := IsText) (d := .str "?") ⟨"?", rfl⟩]
  refine and_congr_right fun _ => ?_
  constructor
  · intro h
    obtain ⟨name, hname, h⟩ := (crashes_after not_crashes_str).mp h
    obtain ⟨file, hfile, h⟩ := (crashes_after not_crashes_require).mp h
    refine ⟨⟨name, requireStr_ok.mp hname⟩, ⟨file, Json.asStr_iff.mp (require_ok.mp hfile)⟩, ?_⟩
    exact crashes_events.mp ((crashes_bind.mp h).resolve_right fun ⟨_, _, h⟩ => not_crashes_ok h)
  · rintro ⟨⟨name, hname⟩, ⟨file, hfile⟩, h⟩
    refine (crashes_after not_crashes_str).mpr ⟨name, requireStr_ok.mpr hname, ?_⟩
    refine (crashes_after not_crashes_require).mpr ⟨file, require_ok.mpr (Json.asStr_iff.mpr hfile), ?_⟩
    exact crashes_bind.mpr (.inl (crashes_events.mpr h))

theorem crashes_names {items : List Json} {seen : List String} : Crashes (loadProtocols.loadNames seen items) ↔
    ∃ pre raw post, items = pre ++ raw :: post ∧ loadProtocols.loadNames seen pre = .ok () ∧ ProtocolStuck raw := by
  induction items generalizing seen with
  | nil => exact iff_of_false not_crashes_ok fun ⟨pre, _, _, h, _⟩ => by cases pre <;> cases h
  | cons raw rest ih =>
    rw [loadProtocols.loadNames, crashes_bind, crashes_protocol]
    constructor
    · rintro (h | ⟨p, hp, h⟩)
      · exact ⟨[], raw, rest, rfl, rfl, h⟩
      · obtain ⟨_, hseen, h⟩ := (crashes_after not_crashes_refuse).mp h
        obtain ⟨pre, raw', post, rfl, hpre, h⟩ := ih.mp h
        exact ⟨raw :: pre, raw', post, rfl, bind_ok.mpr ⟨p, hp, bind_ok.mpr ⟨(), hseen, hpre⟩⟩, h⟩
    · rintro ⟨pre, raw', post, heq, hpre, h⟩
      cases pre with
      | nil =>
        cases heq
        exact .inl h
      | cons raw'' pre =>
        cases heq
        obtain ⟨p, hp, hpre⟩ := bind_ok.mp hpre
        obtain ⟨_, hseen, hpre⟩ := bind_ok.mp hpre
        exact .inr ⟨p, hp, (crashes_after not_crashes_refuse).mpr ⟨(), hseen, ih.mpr ⟨pre, raw', post, rfl, hpre, h⟩⟩⟩

theorem crashes_protocols {top : Fields} : Crashes (loadProtocols top) ↔ ProtocolsStuck top := by
  unfold loadProtocols ProtocolsStuck
  rw [crashes_after not_crashes_require]
  refine exists_congr fun items => ?_
  rw [require_ok, Json.asArr_iff, crashes_names]
  refine and_congr_right fun _ => exists_congr fun pre => exists_congr fun raw => exists_congr fun post =>
    and_congr_right fun _ => ?_
  refine and_congr_left fun _ => ?_
  rw [loadNames_ok]
  constructor
  · rintro ⟨ps, hall, hn, -⟩
    exact ⟨pre, ps, rfl, hall, hn⟩
  · rintro ⟨_, ps, hpre, hall, hn⟩
    cases hpre
    exact ⟨ps, hall, hn, fun _ _ => List.not_mem_nil⟩

theorem crashes_methods {top : Fields} : Crashes (loadProtocolFunctions top) ↔ MethodsStuck top := by
  unfold loadProtocolFunctions MethodsStuck
  rw [crashes_after not_crashes_require]
  refine exists_congr fun items => ?_
  rw [require_ok, Json.asArr_iff]
  exact and_congr_right fun _ => stops_each (fun _ _ _ => parseMethod_unit) fun _ _ _ => crashes_method

theorem not_crashes_version {minusZero : Bool} {top : Fields} : ¬Crashes (loadVersion minusZero top) :=
  not_crashes_bind not_crashes_refuse fun _ => not_crashes_bind not_crashes_require fun _ => not_crashes_refuse

theorem not_crashes_orphan {o : Fields} : ¬Crashes (loadOrphan o) := by
  refine not_crashes_bind not_crashes_refuse fun _ => not_crashes_bind not_crashes_refuse fun _ =>
    not_crashes_bind not_crashes_refuse fun _ => ?_
  refine not_crashes_bind not_crashes_require fun _ => not_crashes_bind not_crashes_lineDomain fun _ => ?_
  refine not_crashes_bind not_crashes_column fun _ => not_crashes_bind not_crashes_refuse fun _ => ?_
  exact not_crashes_bind not_crashes_refuse fun _ => not_crashes_refuse

theorem crashes_load {minusZero : Bool} {result : Json} :
    Crashes (load minusZero result) ↔ minusZero = false ∧ ∃ top, result = .obj top ∧ Stuck top := by
  have hcomponents : ∀ top, ¬Crashes (loadSection top "components" loadComponent) :=
    fun _ => not_crashes_records fun _ => not_crashes_component
  have heffects : ∀ top, ¬Crashes (loadSection top "effects" loadEffect) :=
    fun _ => not_crashes_records fun _ => not_crashes_effect
  have horphans : ∀ top, ¬Crashes (loadSection top "orphaned_awaitables" loadOrphan) :=
    fun _ => not_crashes_records fun _ => not_crashes_orphan
  have hservices : ∀ top, Crashes (loadSection top "services" loadService) ↔ FirstRecord ServiceOk ServiceStuck top "services" :=
    fun _ => crashes_records (fun _ => loadService_ok) fun _ => crashes_service
  have hfunctions : ∀ top, Crashes (loadSection top "functions" loadFunction) ↔
      FirstRecord FunctionOk FunctionStuck top "functions" :=
    fun _ => crashes_records (fun _ => loadFunction_ok) fun _ => crashes_function
  unfold load
  rw [crashes_after not_crashes_require]
  simp only [require_ok, Json.asObj_iff]
  constructor
  · rintro ⟨top, htop, h⟩
    obtain ⟨_, hversion, h⟩ := (crashes_after not_crashes_version).mp h
    obtain ⟨hzero, hversion⟩ := loadVersion_ok.mp hversion
    obtain ⟨_, hcomps, h⟩ := (crashes_after (hcomponents top)).mp h
    refine ⟨hzero, top, htop, hversion, (records_ok fun _ => loadComponent_ok).mp hcomps, ?_⟩
    refine (crashes_bind.mp h).imp (hservices top).mp fun ⟨_, hsvcs, h⟩ => ?_
    obtain ⟨_, heffs, h⟩ := (crashes_after (heffects top)).mp h
    refine ⟨(records_ok fun _ => loadService_ok).mp hsvcs, (records_ok fun _ => loadEffect_ok).mp heffs, ?_⟩
    refine (crashes_bind.mp h).imp (hfunctions top).mp fun ⟨_, hfns, h⟩ => ⟨(records_ok fun _ => loadFunction_ok).mp hfns, ?_⟩
    refine (crashes_bind.mp h).imp crashes_protocols.mp fun ⟨_, hprotos, h⟩ => ⟨loadProtocols_ok.mp hprotos, ?_⟩
    refine crashes_methods.mp ((crashes_bind.mp h).resolve_right fun ⟨_, _, h⟩ => ?_)
    exact not_crashes_bind (horphans top) (fun _ => not_crashes_ok) h
  · rintro ⟨hzero, top, htop, hversion, hcomps, h⟩
    refine ⟨top, htop, (crashes_after not_crashes_version).mpr ⟨(), loadVersion_ok.mpr ⟨hzero, hversion⟩, ?_⟩⟩
    refine (crashes_after (hcomponents top)).mpr ⟨(), (records_ok fun _ => loadComponent_ok).mpr hcomps, ?_⟩
    refine crashes_bind.mpr (h.imp (hservices top).mpr fun ⟨hsvcs, heffs, h⟩ => ⟨(),
      (records_ok fun _ => loadService_ok).mpr hsvcs, ?_⟩)
    refine (crashes_after (heffects top)).mpr ⟨(), (records_ok fun _ => loadEffect_ok).mpr heffs, ?_⟩
    refine crashes_bind.mpr (h.imp (hfunctions top).mpr fun ⟨hfns, h⟩ => ⟨(), (records_ok fun _ => loadFunction_ok).mpr hfns, ?_⟩)
    refine crashes_bind.mpr (h.imp crashes_protocols.mpr fun ⟨hprotos, h⟩ => ⟨(), loadProtocols_ok.mpr hprotos, ?_⟩)
    exact crashes_bind.mpr (.inl (crashes_methods.mpr h))

/-- A load returns the document or raises an `OwnIRError`, exactly where it meets no tag that cannot be hashed. -/
theorem load_total_iff (minusZero : Bool) (result : Json) :
    (load minusZero result = .ok result ∨ ∃ message, load minusZero result = .error (.refused message)) ↔
      ¬(minusZero = false ∧ ∃ top, result = .obj top ∧ Stuck top) := by
  rw [← crashes_load]
  cases h : load minusZero result with
  | ok facts =>
    rw [(load_ok.mp h).1]
    exact iff_of_true (.inl rfl) not_crashes_ok
  | error e =>
    cases e with
    | refused message => exact iff_of_true (.inr ⟨message, rfl⟩) fun h => stops_error.mp h
    | typeError message =>
      refine iff_of_false (fun h => ?_) fun h => h ⟨_, rfl, trivial⟩
      rcases h with h | ⟨_, h⟩ <;> cases h

/-- A service whose lifetime is a list. -/
theorem unhashable_lifetime : ¬∀ (minusZero : Bool) (result : Json),
    load minusZero result = .ok result ∨ ∃ message, load minusZero result = .error (.refused message) := by
  intro h
  have hload : load false (.obj [("services", .arr [.obj [("lifetime", .arr []), ("name", .str "App.Clock")]])]) =
      .error (.typeError "unhashable type: 'list'") := rfl
  rcases h false _ with h | ⟨_, h⟩
  · cases hload.symm.trans h
  · cases hload.symm.trans h

end OwnNet.Facts
