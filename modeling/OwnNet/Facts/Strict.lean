/-
  OwnNet.Facts.Strict — `validate_document`: the strict door of the port, over the raw value, with
  the protocol grammar of its own.

  The port reads a field where the reference reads a default, and tests a string where the
  reference tests a membership: nothing here can stop but with an error of the door.

  Proved: `validateDocument_ok`: a document is accepted exactly where it keeps the grammar;
  `doors_agree`: the two doors accept the same documents.
-/

import OwnNet.Facts.Load
import OwnNet.Json.Dumps

namespace OwnNet.Facts

open Checks

/-- `OwnIrErrorKind` -/
inductive OwnIrErrorKind where
  | json | version | shape | vocabulary | identity | location | wellFormedness
  deriving DecidableEq, Repr

structure OwnIrError where
  kind : OwnIrErrorKind
  message : String
  deriving DecidableEq, Repr

abbrev Checked (α : Type) := Except OwnIrError α

namespace Strict

def shape (message : String) : OwnIrError := ⟨.shape, message⟩

def identity (message : String) : OwnIrError := ⟨.identity, message⟩

def vocabulary (message : String) : OwnIrError := ⟨.vocabulary, message⟩

def location (message : String) : OwnIrError := ⟨.location, message⟩

def wellFormed (message : String) : OwnIrError := ⟨.wellFormedness, message⟩

/-- A string between quotes, the two marks in it escaped. -/
def debugStr (s : String) : String :=
  String.ofList ('"' :: (s.toList.flatMap fun c => if c = '"' ∨ c = '\\' then ['\\', c] else [c]) ++ ['"'])

def debugStrs (ss : List String) : String := "[" ++ ", ".intercalate (ss.map debugStr) ++ "]"

/-! ## Fields -/

/-- `is_representable_int`, with the integer. -/
def representableInt : Json → Option Int
  | .int n => if int64Min ≤ n ∧ n ≤ int64Max then some n else none
  | _ => none

def lineDomain (value : Int) (what key : String) : Checked Unit :=
  ensure (0 ≤ value ∧ value ≤ lineMax)
    (location (what ++ " '" ++ key ++ "' must be a source line in [0, 2147483647], got " ++
      toString value ++ " (spec/OwnIR.md §4.2)"))

/-- A field that may be absent. -/
def optional (obj : Fields) (key : String) (check : Json → Checked Unit) : Checked Unit :=
  match Json.lookup obj key with
  | none => .ok ()
  | some v => check v

def objects (obj : Fields) (key message : String) : Checked (List Fields) :=
  match Json.lookup obj key with
  | none => .ok []
  | some v => require (v.asArr.bind Json.objects) (shape message)

def list (obj : Fields) (key message : String) : Checked (List Json) :=
  match Json.lookup obj key with
  | none => .ok []
  | some v => require v.asArr (shape message)

def nameSlot (obj : Fields) (key what : String) : Checked String :=
  require ((Json.lookup obj key).bind fun v => v.asStr.filter fun s => s ≠ "")
    (identity (what ++ ": '" ++ key ++ "' must be a non-empty string"))

def optionalString (obj : Fields) (key what : String) : Checked Unit :=
  optional obj key fun v => ensure (v.isNull ∨ v.asStr.isSome)
    (shape (what ++ " '" ++ key ++ "' must be a string, got " ++ v.dumps))

def defaultedString (obj : Fields) (key what : String) : Checked Unit :=
  optional obj key fun v => ensure v.asStr.isSome (shape (what ++ " '" ++ key ++ "' must be a string, got " ++ v.dumps))

def defaultedIntValue (obj : Fields) (key what : String) : Checked Int :=
  match Json.lookup obj key with
  | none => .ok 0
  | some v => require (representableInt v) (shape (what ++ " '" ++ key ++ "' must be an integer, got " ++ v.dumps))

def defaultedLine (obj : Fields) (key what : String) : Checked Unit :=
  defaultedIntValue obj key what >>= fun value => lineDomain value what key

def stringArray (obj : Fields) (key what : String) : Checked Unit :=
  optional obj key fun v => ensure (isTexts v) (shape (what ++ " '" ++ key ++ "' must be an array of strings"))

def column (value : Option Json) (what : String) : Checked Unit :=
  match value with
  | none | some .null => .ok ()
  | some v =>
    require (representableInt v) (shape (what ++
        " 'column' must be an integer within the representable range, got " ++ v.dumps)) >>= fun n =>
    ensure (1 ≤ n) (location (what ++ " 'column' must be a 1-based integer or absent, got " ++ v.dumps)) >>= fun _ =>
    ensure (n ≤ lineMax)
      (location (what ++ " 'column' must be a source column in [1, 2147483647], got " ++ v.dumps ++ " (spec/OwnIR.md §4.2)"))

/-- `flow_coordinates`, this many more bodies deep. -/
def flowCoordinates (what : String) : Nat → Option Json → Checked Unit
  | 0, v => ensure (v.bind Json.asArr = none) (shape (what ++ " nested deeper than 32 levels"))
  | n + 1, some (.arr items) =>
    each (fun _ node =>
      match node with
      | .obj op =>
        let label := match Json.lookup op "op" with
          | none => what ++ " op"
          | some name => what ++ " op " ++ name.dumps
        defaultedLine op "line" label >>= fun _ =>
        column (Json.lookup op "column") label >>= fun _ =>
        flowCoordinates what n (Json.lookup op "then") >>= fun _ =>
        flowCoordinates what n (Json.lookup op "else") >>= fun _ =>
        flowCoordinates what n (Json.lookup op "body")
      | _ => .ok ()) items
  | _ + 1, _ => .ok ()

def isSite (v : Json) : Bool :=
  v.asObj.any fun site => (Json.lookup site "type").all (fun t => t.asStr.isSome) &&
    (Json.lookup site "file").all (fun t => t.asStr.isSome) &&
    (Json.lookup site "line").all fun l => (representableInt l).isSome

/-- `trim_end_matches('s')` -/
def singular (key : String) : String := String.ofList (key.toList.reverse.dropWhile (· = 's')).reverse

def sites (obj : Fields) (key what : String) : Checked Unit :=
  optional obj key fun v =>
    ensure (v.asArr.any fun items => items.all isSite)
      (shape (what ++ " '" ++ key ++ "' must be an array of \x7btype:str, file:str, line:int\x7d objects")) >>= fun _ =>
    each (fun _ site =>
      match site with
      | .obj s => defaultedLine s "line" (what ++ " " ++ singular key)
      | _ => .ok ()) (v.asArr.getD [])

/-! ## The sections -/

def versionMismatch (ver : String) : String :=
  "OwnIR facts are schema v" ++ ver ++ ", but this core understands v2. Build the Roslyn extractor and " ++
    "the Python core from the same " ++
    "commit — the OwnIR fact vocabulary changed between the version that produced this file and the one reading it."

/-- `version`: an integer too wide for the port is spelled as the reference has it. -/
def version (obj : Fields) : Checked Unit :=
  optional obj "ownir_version" fun v =>
    match representableInt v with
    | none =>
      match v with
      | .int n => .error ⟨.version, versionMismatch (toString n)⟩
      | v => .error ⟨.version, "OwnIR 'ownir_version' must be an integer, got " ++ OwnIR.repr v⟩
    | some ver => ensure (ver = 2) ⟨.version, versionMismatch (toString ver)⟩

def subscription (sub : Fields) : Checked Unit :=
  optional sub "resource" (fun v => ensure v.asStr.isSome
      (shape ("subscription 'resource' must be a string, got " ++ v.dumps))) >>= fun _ =>
  optional sub "resource" (fun v =>
    match v with
    | .str kind => ensure (kind ∈ resourceKinds)
        (vocabulary ("unknown resource kind " ++ debugStr kind ++
          " — a new kind is a vocabulary change that must bump OWNIR_VERSION"))
    | _ => .ok ()) >>= fun _ =>
  defaultedLine sub "line" "subscription" >>= fun _ =>
  column (Json.lookup sub "column") "subscription" >>= fun _ =>
  optionalString sub "type" "subscription" >>= fun _ =>
  optionalString sub "source_type" "subscription" >>= fun _ =>
  optionalString sub "source_provenance" "subscription" >>= fun _ =>
  optionalString sub "ignore_reason" "subscription"

def component (c : Fields) : Checked Unit :=
  objects c "subscriptions" "each component's 'subscriptions' must be objects" >>= fun subs =>
    each (fun _ s => subscription s) subs

/-- A value among these strings. -/
def known (v : Option Json) (words : List String) : Bool := (v.bind Json.asStr).any fun s => s ∈ words

def service (svc : Fields) : Checked Unit :=
  ensure (known (Json.lookup svc "lifetime") lifetimes)
    (vocabulary ("service 'lifetime' must be one of " ++ debugStrs lifetimes ++ ", got " ++
    ((Json.lookup svc "lifetime").getD .null).dumps)) >>= fun _ =>
  nameSlot svc "name" "service" >>= fun _ =>
  stringArray svc "deps" "service" >>= fun _ =>
  stringArray svc "weak_deps" "service" >>= fun _ =>
  stringArray svc "root_resolves" "service" >>= fun _ =>
  defaultedString svc "file" "service" >>= fun _ =>
  defaultedLine svc "line" "service" >>= fun _ =>
  defaultedString svc "ctor_file" "service" >>= fun _ =>
  defaultedLine svc "ctor_line" "service" >>= fun _ =>
  defaultedString svc "ctor_type" "service" >>= fun _ =>
  sites svc "root_resolve_sites" "service" >>= fun _ =>
  stringArray svc "scope_cached" "service" >>= fun _ =>
  sites svc "scope_cache_sites" "service"

def binding (b : Fields) : Checked Unit :=
  defaultedString b "name" "binding" >>= fun _ =>
  defaultedString b "init" "binding" >>= fun _ =>
  stringArray b "refs" "binding" >>= fun _ =>
  defaultedLine b "line" "binding"

def effect (eff : Fields) : Checked Unit :=
  stringArray eff "deps" "effect" >>= fun _ =>
  optional eff "io" (fun v => ensure v.asBool.isSome (shape ("effect 'io' must be a boolean, got " ++ v.dumps))) >>= fun _ =>
  defaultedLine eff "line" "effect" >>= fun _ =>
  objects eff "bindings" "effect 'bindings' must be a JSON array of objects" >>= fun binds => each (fun _ b => binding b) binds

/-- A null, or one of these strings. -/
def optionalAmong (obj : Fields) (key what : String) (words : List String) : Checked Unit :=
  optional obj key fun v => ensure (v.isNull ∨ v.asStr.any fun s => s ∈ words)
    (vocabulary (what ++ " '" ++ key ++ "' must be one of " ++ debugStrs words ++ ", got " ++ v.dumps))

def param (p : Fields) : Checked Unit :=
  nameSlot p "name" "parameter" >>= fun _ =>
  defaultedLine p "line" "parameter" >>= fun _ =>
  column (Json.lookup p "column") "parameter" >>= fun _ =>
  optionalAmong p "effect" "parameter" paramEffects

def function (f : Fields) : Checked Unit :=
  optionalString f "sig" "function" >>= fun _ =>
  flowCoordinates "function body" (maxNestingDepth + 1) (Json.lookup f "body") >>= fun _ =>
  objects f "params" "a function's 'params' must be a JSON array of objects" >>= fun params => each (fun _ p => param p) params

/-! ## The protocol grammar -/

/-- A boolean or none. -/
def flag (obj : Fields) (key : String) (message : Json → String) : Checked (Option Bool) :=
  match Json.lookup obj key with
  | none | some .null => .ok none
  | some (.bool b) => .ok (some b)
  | some other => .error (shape (message other))

def matcher (requireValue : Bool) (what : String) (raw : Json) : Checked Matcher :=
  require raw.asObj (shape (what ++ " must be an object, got " ++ raw.dumps)) >>= fun obj =>
  require (((Json.lookup obj "kind").bind Json.asStr).filter fun k => k ∈ matcherKinds)
    (vocabulary (what ++ ": unknown matcher kind " ++ ((Json.lookup obj "kind").getD .null).dumps ++ " — the vocabulary is " ++
      debugStrs matcherKinds)) >>= fun kind =>
  if kind = "assign" then
    nameSlot obj "target" what >>= fun target =>
    flag obj "value" (fun v => what ++ ": assign 'value' must be a boolean, got " ++ v.dumps) >>= fun value =>
    ensure (requireValue = true → value.isSome)
      (shape (what ++ ": an opens/closes assign matcher must state the written boolean 'value' — " ++
      "'any write' cannot open or close an obligation")) >>= fun _ =>
    .ok ⟨.assign, target, value, ∅⟩
  else
    nameSlot obj "callee" what >>= fun callee =>
    require (((Json.lookup obj "args").getD (.arr [])).asArr.bind Json.strings)
      (shape (what ++ ": call 'args' must be an array of strings")) >>=
      fun args => .ok ⟨.call, callee, none, args.toFinset⟩

def matchers (obj : Fields) (key what : String) : Checked (List Matcher) :=
  match Json.lookup obj key with
  | none => .ok []
  | some v =>
    require v.asArr (shape (what ++ ": '" ++ key ++ "' must be an array, got " ++ v.dumps)) >>= fun items =>
    mapEach (fun _ m => matcher false (what ++ " " ++ key) m) items

/-- The names in a protocol's scope. -/
def scopeMethods (scope : Option Fields) (what : String) : Checked (List String) :=
  match scope.bind fun s => Json.lookup s "methods" with
  | none => .ok []
  | some v =>
    require v.asArr (shape (what ++ ": 'scope.methods' must be an array of non-empty strings, got " ++ v.dumps)) >>= fun items =>
    mapEach (fun _ m => require (m.asStr.filter fun s => s ≠ "")
      (identity (what ++ ": 'scope.methods' entries must be non-empty strings"))) items

def parseProtocol (raw : Json) : Checked Protocol :=
  require raw.asObj (shape ("a protocol must be an object, got " ++ raw.dumps)) >>= fun obj =>
  nameSlot obj "name" "protocol" >>= fun name =>
  let what := "protocol '" ++ name ++ "'"
  ensure ((Json.lookup obj "opens").isSome ∧ (Json.lookup obj "closes").isSome)
    (shape (what ++ ": 'opens' and 'closes' are both required")) >>= fun _ =>
  matcher true (what ++ " 'opens'") (Json.get obj "opens") >>= fun opens =>
  matcher true (what ++ " 'closes'") (Json.get obj "closes") >>= fun closes =>
  matchers obj "barriers" what >>= fun barriers =>
  matchers obj "allow" what >>= fun allow =>
  require ((Json.lookup obj "exit_barriers").getD (.bool true)).asBool
    (shape (what ++ ": 'exit_barriers' must be a boolean, got " ++
    (Json.get obj "exit_barriers").dumps)) >>= fun exitBarriers =>
  ensure (barriers ≠ [] ∨ exitBarriers = true)
    (wellFormed (what ++ ": no barriers and exit_barriers is false — the protocol can never " ++
    "fire (a rule that structurally never fires is decoration)")) >>= fun _ =>
  ensure (opens ∉ barriers) (wellFormed (what ++
    ": a barrier equals the 'opens' matcher — the open wins and the barrier can never fire " ++
    "(re-entrancy checks are not supported yet)")) >>= fun _ =>
  require ((Json.lookup obj "scope").elim (some none) fun v => v.asObj.map some)
    (shape (what ++ ": 'scope' must be an object, got " ++ (Json.get obj "scope").dumps)) >>= fun scope =>
  scopeMethods scope what >>= fun methods =>
  require ((Json.lookup obj "description").getD (.str "")).asStr
    (shape (what ++ ": 'description' must be a string, got " ++ (Json.get obj "description").dumps)) >>= fun description =>
  .ok ⟨name, opens, closes, barriers, allow, exitBarriers, methods, description⟩

/-- Which door a record is parsed for. -/
inductive Door where
  | strict | tolerant

def eventLine (value : Int) (what : String) : Door → Checked Int
  | .strict => lineDomain value what "line" >>= fun _ => .ok value
  | .tolerant => .ok (if 0 ≤ value ∧ value ≤ lineMax then value else 0)

/-- An event, its bodies read by `sub`. -/
def event (sub : Option Json → Checked (List Event)) (what : String) (door : Door) (e : Json) : Checked Event :=
  require e.asObj (shape (what ++ ": each event must be an object, got " ++ e.dumps)) >>= fun obj =>
  require (((Json.lookup obj "ev").bind Json.asStr).filter fun k => k ∈ eventKinds)
    (vocabulary (what ++ ": unknown protocol event " ++ ((Json.lookup obj "ev").getD .null).dumps ++ " — the vocabulary is " ++
      debugStrs eventKinds)) >>= fun kind =>
  defaultedIntValue obj "line" what >>= fun value =>
  eventLine value what door >>= fun line =>
  match kind with
  | "assign" =>
    nameSlot obj "target" (what ++ " assign") >>= fun target =>
    flag obj "value" (fun v => what ++ ": assign 'value' must be a boolean or absent (absent = opaque write), got " ++
      v.dumps) >>=
      fun value => .ok (.assign target value line)
  | "call" =>
    nameSlot obj "callee" (what ++ " call") >>= fun callee =>
    optionalString obj "arg" what >>= fun _ => .ok (.call callee ((Json.lookup obj "arg").bind Json.asStr) line)
  | "if" =>
    sub (Json.lookup obj "then") >>= fun thenEvents =>
    sub (Json.lookup obj "else") >>= fun elseEvents => .ok (.ite line thenEvents elseEvents)
  | "while" => sub (Json.lookup obj "body") >>= fun body => .ok (.loop line body)
  | "return" => .ok (.ret line)
  | _ => .ok (.throw line)

/-- `events`, this many more bodies deep. -/
def events (what : String) (door : Door) : Nat → Option Json → Checked (List Event)
  | 0, _ => .error (shape (what ++ ": events nested deeper than 32 levels"))
  | n + 1, raw =>
    require (raw.getD (.arr [])).asArr (shape (what ++ ": events must be an array, got " ++
        (raw.getD .null).dumps)) >>= fun items =>
    mapEach (fun _ e => event (events what door n) what door e) items

def parseMethod (door : Door) (raw : Json) : Checked MethodEvents :=
  require raw.asObj (shape ("a protocol function must be an object, got " ++ raw.dumps)) >>= fun obj =>
  nameSlot obj "name" "protocol function" >>= fun name =>
  let what := "protocol function '" ++ name ++ "'"
  require ((Json.lookup obj "file").getD (.str "?")).asStr
    (shape (what ++ ": 'file' must be a string, got " ++ (Json.get obj "file").dumps)) >>= fun file =>
  events what door (maxNestingDepth + 1) (Json.lookup obj "events") >>= fun evs => .ok ⟨name, file, evs⟩

/-! ## The document -/

/-- `protocols`: no name twice. -/
def protocolNames (seen : List String) : List Json → Checked Unit
  | [] => .ok ()
  | raw :: rest =>
    parseProtocol raw >>= fun p =>
    ensure (p.name ∉ seen) (identity ("duplicate protocol name '" ++ p.name ++
      "' — protocol names are the identity findings map back by and must be unique")) >>= fun _ =>
    protocolNames (p.name :: seen) rest

def protocols (obj : Fields) : Checked Unit :=
  list obj "protocols" "OwnIR 'protocols' must be a JSON array of objects" >>= protocolNames []

def protocolFunctions (obj : Fields) : Checked Unit :=
  list obj "protocol_functions" "OwnIR 'protocol_functions' must be a JSON array of objects" >>= fun pfns =>
  each (fun _ raw => parseMethod .strict raw >>= fun _ => .ok ()) pfns

/-- A value that is to be there. -/
def required {α : Type} (obj : Fields) (key : String) (read : Json → Option α) (message : String → String) : Checked α :=
  require ((Json.lookup obj key).bind read) (shape (message ((Json.lookup obj key).elim "absent" Json.dumps)))

def orphanedAwaitable (it : Fields) : Checked Unit :=
  nameSlot it "local" "orphaned awaitable" >>= fun _ =>
  nameSlot it "callee" "orphaned awaitable" >>= fun _ =>
  required it "file" Json.asStr (fun got => "orphaned awaitable 'file' must be a string, got " ++ got) >>= fun _ =>
  required it "line" representableInt (fun got => "orphaned awaitable 'line' must be an integer, got " ++ got) >>= fun n =>
  lineDomain n "orphaned awaitable" "line" >>= fun _ =>
  column (Json.lookup it "column") "orphaned awaitable" >>= fun _ =>
  optionalString it "method" "orphaned awaitable" >>= fun _ =>
  optionalAmong it "family" "orphaned awaitable" orphanFamilies >>= fun _ =>
  optionalString it "result_type" "orphaned awaitable"

def section_ (obj : Fields) (key : String) (record : Fields → Checked Unit) : Checked Unit :=
  objects obj key ("OwnIR '" ++ key ++ "' must be a JSON array of objects") >>= fun items => each (fun _ i => record i) items

/-- `validate_document` -/
def validateDocument (obj : Fields) : Checked Unit :=
  version obj >>= fun _ =>
  section_ obj "components" component >>= fun _ =>
  section_ obj "services" service >>= fun _ =>
  section_ obj "effects" effect >>= fun _ =>
  section_ obj "functions" function >>= fun _ =>
  protocols obj >>= fun _ =>
  protocolFunctions obj >>= fun _ =>
  section_ obj "orphaned_awaitables" orphanedAwaitable

/-! ## What a check lets through -/

theorem optional_ok {obj : Fields} {key : String} {check : Json → Checked Unit} {p : Json → Prop}
    (h : ∀ v, check v = .ok () ↔ p v) :
    optional obj key check = .ok () ↔ Opt p obj key := by
  unfold optional Opt
  cases Json.lookup obj key with
  | none => exact iff_of_true rfl fun _ h => (by cases h)
  | some v => exact (h v).trans ⟨fun hp _ hv => by cases hv; exact hp, fun hp => hp v rfl⟩

theorem representableInt_iff {v : Json} {n : Int} : representableInt v = some n ↔ v = .int n ∧ int64Min ≤ n ∧ n ≤ int64Max := by
  unfold representableInt
  cases v with
  | int m =>
    simp only [Option.ite_none_right_eq_some, Option.some.injEq, Json.int.injEq]
    exact ⟨fun ⟨h, hm⟩ => ⟨hm, hm ▸ h⟩, fun ⟨hm, h⟩ => ⟨hm ▸ h, hm⟩⟩
  | _ => exact ⟨fun h => (by cases h), fun h => (by cases h.1)⟩

theorem objects_ok {obj : Fields} {key message : String} {fs : List Fields} :
    objects obj key message = .ok fs ↔ OwnIR.getD obj key (.arr []) = .arr (fs.map .obj) := by
  unfold objects
  rw [getD_eq]
  cases Json.lookup obj key with
  | none => cases fs <;> simp
  | some v =>
    rw [require_ok, Option.bind_eq_some_iff, Option.getD_some]
    simp only [Json.asArr_iff, Json.objects_eq]
    exact ⟨fun ⟨_, h, hitems⟩ => hitems ▸ h, fun h => ⟨_, h, rfl⟩⟩

theorem records_ok {obj : Fields} {key message : String} {g : Fields → Checked Unit} {p : Fields → Prop}
    (h : ∀ r, g r = .ok () ↔ p r) :
    (objects obj key message >>= fun rs => each (fun _ r => g r) rs) = .ok () ↔ Opt (RecordsOf p) obj key := by
  rw [bind_ok, ← opt_getD (p := RecordsOf p) (d := .arr []) ⟨[], rfl, fun _ h => absurd h List.not_mem_nil⟩, recordsOf_iff]
  refine exists_congr fun fs => ?_
  rw [objects_ok, each_ok (p := p) fun _ r _ => h r]

theorem list_ok {obj : Fields} {key message : String} {items : List Json} :
    list obj key message = .ok items ↔ OwnIR.getD obj key (.arr []) = .arr items := by
  unfold list
  rw [getD_eq]
  cases Json.lookup obj key with
  | none => cases items <;> simp
  | some v => rw [require_ok, Json.asArr_iff, Option.getD_some]

theorem nameSlot_ok {obj : Fields} {key what s : String} : nameSlot obj key what = .ok s ↔ NameIs obj key s := by
  unfold nameSlot NameIs
  rw [require_ok, Option.bind_eq_some_iff]
  simp only [Option.filter_eq_some_iff, Json.asStr_iff, decide_eq_true_eq]
  exact ⟨fun ⟨_, hv, hs, hne⟩ => ⟨hne, hs ▸ hv⟩, fun ⟨hne, hv⟩ => ⟨_, hv, rfl, hne⟩⟩

theorem optionalString_ok {obj : Fields} {key what : String} {u : Unit} :
    optionalString obj key what = .ok u ↔ Opt (OrNull IsText) obj key := by
  refine optional_ok fun v => ?_
  rw [ensure_ok, isText_iff, isNull_iff]
  rfl

theorem defaultedString_ok {obj : Fields} {key what : String} : defaultedString obj key what = .ok () ↔ Opt IsText obj key :=
  optional_ok fun _ => ensure_ok.trans isText_iff

theorem stringArray_ok {obj : Fields} {key what : String} : stringArray obj key what = .ok () ↔ Opt (ArrayOf IsText) obj key :=
  optional_ok fun _ => ensure_ok.trans isTexts_iff

theorem defaultedIntValue_ok {obj : Fields} {key what : String} {n : Int} :
    defaultedIntValue obj key what = .ok n ↔ OwnIR.getD obj key (.int 0) = .int n ∧ int64Min ≤ n ∧ n ≤ int64Max := by
  unfold defaultedIntValue
  rw [getD_eq]
  cases Json.lookup obj key with
  | none =>
    rw [Option.getD_none, Except.ok.injEq, Json.int.injEq]
    exact ⟨fun h => ⟨h, by unfold int64Min; omega, by unfold int64Max; omega⟩, And.left⟩
  | some v => rw [require_ok, representableInt_iff, Option.getD_some]

theorem lineDomain_ok {n : Int} {what key : String} {u : Unit} : lineDomain n what key = .ok u ↔ 0 ≤ n ∧ n ≤ lineMax := ensure_ok

theorem defaultedLine_ok {obj : Fields} {key what : String} {u : Unit} :
    defaultedLine obj key what = .ok u ↔ Opt IsLine obj key := by
  unfold defaultedLine
  rw [← opt_getD (p := IsLine) (d := .int 0) ⟨0, rfl, Int.le_refl 0, by decide⟩, bind_ok]
  simp only [defaultedIntValue_ok, lineDomain_ok]
  unfold IsLine int64Min int64Max lineMax
  refine exists_congr fun n => ⟨fun ⟨⟨hn, _⟩, hrange⟩ => ⟨hn, hrange⟩, fun ⟨hn, hrange⟩ => ⟨⟨hn, ?_⟩, hrange⟩⟩
  omega

theorem column_ok {obj : Fields} {what : String} {u : Unit} :
    column (Json.lookup obj "column") what = .ok u ↔ Opt (OrNull IsColumn) obj "column" := by
  unfold column Opt OrNull IsColumn
  cases Json.lookup obj "column" with
  | none => exact iff_of_true rfl fun _ h => (by cases h)
  | some v =>
    have hv : ∀ P : Json → Prop, (∀ v', some v = some v' → P v') ↔ P v := fun P =>
      ⟨fun h => h v rfl, fun h _ heq => by cases heq; exact h⟩
    rw [hv fun v => v = .null ∨ ∃ n, v = .int n ∧ 1 ≤ n ∧ n ≤ lineMax]
    cases v with
    | null => exact iff_of_true rfl (.inl rfl)
    | int n =>
      simp only [bind_ok, require_ok, ensure_ok, representableInt_iff, Json.int.injEq, reduceCtorEq, false_or]
      constructor
      · rintro ⟨m, ⟨rfl, -⟩, _, hpos, hmax⟩
        exact ⟨n, rfl, hpos, hmax⟩
      · rintro ⟨m, rfl, hpos, hmax⟩
        unfold lineMax at hmax
        exact ⟨n, ⟨rfl, by unfold int64Min; omega, by unfold int64Max; omega⟩, (), hpos, hmax⟩
    | _ => exact ⟨fun h => (by cases h), fun h => h.elim (fun h => (by cases h)) fun h => (by obtain ⟨_, h, _⟩ := h; cases h)⟩

theorem flowCoordinates_ok {what : String} {n : Nat} {f : Fields} {key : String} :
    flowCoordinates what n (Json.lookup f key) = .ok () ↔ FlowOk n (Json.get f key) := by
  induction n generalizing f key with
  | zero =>
    rw [flowCoordinates, ensure_ok, FlowOk, Json.get_eq]
    cases Json.lookup f key <;> rfl
  | succ n ih =>
    rw [Json.get_eq]
    cases Json.lookup f key with
    | none => exact iff_of_true rfl fun _ hv => (by cases hv)
    | some v =>
      rw [Option.getD_some]
      cases v with
      | arr nodes =>
        rw [flowCoordinates, FlowOk, each_ok (p := fun op => ∀ f, op = .obj f → Opt IsLine f "line" ∧
          Opt (OrNull IsColumn) f "column" ∧
          FlowOk n (Json.get f "then") ∧ FlowOk n (Json.get f "else") ∧ FlowOk n (Json.get f "body")) fun _ op _ => ?_]
        · exact ⟨fun h _ hv => by cases hv; exact h, fun h => h nodes rfl⟩
        · cases op with
          | obj f =>
            simp only [seq_ok, defaultedLine_ok, column_ok, ih]
            exact ⟨fun h _ hf => by cases hf; exact h, fun h => h f rfl⟩
          | _ => exact iff_of_true rfl fun _ hf => (by cases hf)
      | _ => exact iff_of_true rfl fun _ hv => (by cases hv)

theorem optAll_iff {p : Json → Prop} {q : Json → Bool} {f : Fields} {key : String} (h : ∀ v, q v = true ↔ p v) :
    (Json.lookup f key).all q = true ↔ Opt p f key := by
  unfold Opt
  cases Json.lookup f key with
  | none => exact iff_of_true rfl fun _ h => (by cases h)
  | some v => exact (h v).trans ⟨fun hp _ hv => by cases hv; exact hp, fun hp => hp v rfl⟩

theorem isSite_iff {v : Json} : isSite v = true ↔ ∃ x, v = .obj x ∧ Opt IsText x "type" ∧ Opt IsText x "file" ∧
    Opt (fun l => (representableInt l).isSome = true) x "line" := by
  unfold isSite
  simp only [Option.any_eq_true, Json.asObj_iff, Bool.and_eq_true, and_assoc, optAll_iff fun _ => isText_iff,
    optAll_iff (p := fun l => (representableInt l).isSome = true) fun _ => Iff.rfl]

theorem sites_ok {obj : Fields} {key what : String} : sites obj key what = .ok () ↔ Opt (RecordsOf SiteOk) obj key := by
  refine optional_ok fun v => ?_
  rw [seq_ok, ensure_ok, Option.any_eq_true]
  simp only [Json.asArr_iff, List.all_eq_true]
  have hline : ∀ x : Fields, Opt IsLine x "line" → Opt (fun l => (representableInt l).isSome = true) x "line" := by
    intro x hx l hl
    obtain ⟨n, rfl, hpos, hmax⟩ := hx l hl
    unfold lineMax at hmax
    exact Option.isSome_iff_exists.mpr ⟨n, representableInt_iff.mpr ⟨rfl, by unfold int64Min; omega, by unfold int64Max; omega⟩⟩
  constructor
  · rintro ⟨⟨items, rfl, hall⟩, heach⟩
    have hlines := (each_ok (p := fun site => ∀ s, site = .obj s → Opt IsLine s "line") fun _ site _ => ?_).mp heach
    · refine ⟨items, rfl, fun i hi => ?_⟩
      obtain ⟨x, rfl, htype, hfile, -⟩ := isSite_iff.mp (hall i hi)
      exact ⟨x, rfl, htype, hfile, hlines _ hi x rfl⟩
    · cases site with
      | obj s => exact defaultedLine_ok.trans ⟨fun h _ hs => by cases hs; exact h, fun h => h s rfl⟩
      | _ => exact iff_of_true rfl fun _ hs => (by cases hs)
  · rintro ⟨items, rfl, hall⟩
    refine ⟨⟨items, rfl, fun i hi => ?_⟩,
      (each_ok (p := fun _ => True) fun _ i hi => iff_of_true ?_ trivial).mpr fun _ _ => trivial⟩
    · obtain ⟨x, rfl, hx⟩ := hall i hi
      exact isSite_iff.mpr ⟨x, rfl, hx.type, hx.file, hline x hx.line⟩
    · obtain ⟨x, rfl, hx⟩ := hall i hi
      exact defaultedLine_ok.mpr hx.line

theorem version_ok {obj : Fields} : version obj = .ok () ↔ Opt IsVersion obj "ownir_version" := by
  refine optional_ok fun v => ?_
  unfold IsVersion
  cases hv : representableInt v with
  | none =>
    refine iff_of_false ?_ ?_
    · cases v <;> exact fun h => (by cases h)
    · rintro rfl
      cases hv
  | some n =>
    obtain ⟨rfl, -⟩ := representableInt_iff.mp hv
    exact ensure_ok.trans ⟨fun h => h ▸ rfl, fun h => by cases h; rfl⟩

theorem optAmong_iff {words : List String} {f : Fields} {key : String} :
    Opt IsText f key ∧ Opt (fun v => ∀ word, v = .str word → word ∈ words) f key ↔ Opt (Among words) f key := by
  constructor
  · rintro ⟨htext, hin⟩ v hv
    obtain ⟨word, rfl⟩ := htext v hv
    exact ⟨word, hin _ hv word rfl, rfl⟩
  · intro h
    refine ⟨fun v hv => ?_, fun v hv word hword => ?_⟩
    · obtain ⟨word, -, rfl⟩ := h v hv
      exact ⟨word, rfl⟩
    · obtain ⟨word', hin, rfl⟩ := h v hv
      cases hword
      exact hin

theorem subscription_ok {sub : Fields} : subscription sub = .ok () ↔ SubscriptionOk sub := by
  unfold subscription
  rw [seq_ok, optional_ok fun _ => ensure_ok.trans isText_iff, seq_ok,
    optional_ok (p := fun v => ∀ kind, v = .str kind → kind ∈ resourceKinds) fun v => ?_, ← and_assoc, optAmong_iff]
  · simp only [seq_ok, defaultedLine_ok, column_ok, optionalString_ok]
    constructor
    · rintro ⟨hkind, hline, hcolumn, htype, hsource, hprovenance, hreason⟩
      exact ⟨hkind, hline, hcolumn, htype, hsource, hprovenance, hreason⟩
    · rintro ⟨hkind, hline, hcolumn, htype, hsource, hprovenance, hreason⟩
      exact ⟨hkind, hline, hcolumn, htype, hsource, hprovenance, hreason⟩
  · cases v with
    | str kind => exact ensure_ok.trans ⟨fun h _ hk => by cases hk; exact h, fun h => h kind rfl⟩
    | _ => exact iff_of_true rfl fun _ hk => (by cases hk)

theorem component_ok {c : Fields} : component c = .ok () ↔ ComponentOk c := records_ok fun _ => subscription_ok

theorem known_iff {f : Fields} {key : String} {words : List String} :
    known (Json.lookup f key) words = true ↔ Among words (Json.get f key) := by
  unfold known
  rw [Json.get_eq]
  cases Json.lookup f key with
  | none => exact ⟨fun h => (by cases h), fun ⟨_, _, h⟩ => (by cases h)⟩
  | some v => exact among_iff

theorem named_iff {obj : Fields} {key what : String} {f : String → Checked Unit} {P : Prop} (h : ∀ s, f s = .ok () ↔ P) :
    (nameSlot obj key what >>= f) = .ok () ↔ Named obj key ∧ P := by
  rw [bind_ok]
  simp only [nameSlot_ok, h]
  exact ⟨fun ⟨s, hs, hp⟩ => ⟨⟨s, hs⟩, hp⟩, fun ⟨⟨s, hs⟩, hp⟩ => ⟨s, hs, hp⟩⟩

theorem service_ok {svc : Fields} : service svc = .ok () ↔ ServiceOk svc := by
  unfold service
  rw [seq_ok, ensure_ok, known_iff, named_iff fun _ => Iff.rfl]
  simp only [seq_ok, stringArray_ok, defaultedString_ok, defaultedLine_ok, sites_ok]
  constructor
  · rintro ⟨h1, h2, h3, h4, h5, h6, h7, h8, h9, h10, h11, h12, h13⟩
    exact ⟨h1, h2, h3, h4, h5, h6, h7, h8, h9, h10, h11, h12, h13⟩
  · rintro ⟨h1, h2, h3, h4, h5, h6, h7, h8, h9, h10, h11, h12, h13⟩
    exact ⟨h1, h2, h3, h4, h5, h6, h7, h8, h9, h10, h11, h12, h13⟩

theorem binding_ok {b : Fields} : binding b = .ok () ↔ BindingOk b := by
  unfold binding
  simp only [seq_ok, defaultedString_ok, stringArray_ok, defaultedLine_ok]
  exact ⟨fun ⟨hname, hinit, hrefs, hline⟩ => ⟨hname, hinit, hrefs, hline⟩,
    fun ⟨hname, hinit, hrefs, hline⟩ => ⟨hname, hinit, hrefs, hline⟩⟩

theorem effect_ok {eff : Fields} : effect eff = .ok () ↔ EffectOk eff := by
  unfold effect
  rw [seq_ok, stringArray_ok, seq_ok, optional_ok fun _ => ensure_ok.trans isBool_iff, seq_ok, defaultedLine_ok,
    records_ok fun _ => binding_ok]
  exact ⟨fun ⟨hdeps, hio, hline, hbindings⟩ => ⟨hdeps, hio, hline, hbindings⟩,
    fun ⟨hdeps, hio, hline, hbindings⟩ => ⟨hdeps, hio, hline, hbindings⟩⟩

theorem optionalAmong_ok {obj : Fields} {key what : String} {words : List String} {u : Unit} :
    optionalAmong obj key what words = .ok u ↔ Opt (OrNull (Among words)) obj key := by
  refine optional_ok fun v => ?_
  rw [ensure_ok, isNull_iff, among_iff]
  rfl

theorem param_ok {p : Fields} : param p = .ok () ↔ ParamOk p := by
  unfold param
  rw [named_iff fun _ => Iff.rfl, seq_ok, defaultedLine_ok, seq_ok, column_ok, optionalAmong_ok]
  exact ⟨fun ⟨hname, hline, hcolumn, heffect⟩ => ⟨hname, hline, hcolumn, heffect⟩,
    fun ⟨hname, hline, hcolumn, heffect⟩ => ⟨hname, hline, hcolumn, heffect⟩⟩

theorem function_ok {f : Fields} : function f = .ok () ↔ FunctionOk f := by
  unfold function
  rw [seq_ok, optionalString_ok, seq_ok, flowCoordinates_ok, records_ok fun _ => param_ok]
  exact ⟨fun ⟨hsig, hbody, hparams⟩ => ⟨hsig, hbody, hparams⟩, fun ⟨hsig, hbody, hparams⟩ => ⟨hsig, hbody, hparams⟩⟩

/-! ## The protocol grammar, read -/

theorem flag_ok {obj : Fields} {key : String} {message : Json → String} {value : Option Bool} :
    flag obj key message = .ok value ↔ FlagIs obj key value := by
  unfold flag FlagIs
  rw [Json.get_eq]
  cases Json.lookup obj key with
  | none => cases value <;> simp
  | some v => cases v <;> cases value <;> simp

theorem kind_iff {f : Fields} {key k : String} {words : List String} :
    ((Json.lookup f key).bind Json.asStr).filter (fun k => k ∈ words) = some k ↔ k ∈ words ∧ Json.get f key = .str k := by
  rw [Option.filter_eq_some_iff, Json.get_eq, decide_eq_true_eq, and_comm]
  refine and_congr_right fun _ => ?_
  cases Json.lookup f key with
  | none => exact ⟨fun h => (by cases h), fun h => (by cases h)⟩
  | some v => exact Json.asStr_iff

theorem matcher_ok {requireValue : Bool} {what : String} {raw : Json} {m : Matcher} :
    matcher requireValue what raw = .ok m ↔ IsMatcher requireValue raw m := by
  unfold matcher IsMatcher
  rw [bind_ok]
  refine exists_congr fun obj => ?_
  rw [require_ok, Json.asObj_iff, bind_ok]
  refine and_congr_right fun _ => ?_
  simp only [require_ok, kind_iff, ← getD_eq]
  constructor
  · rintro ⟨kind, ⟨hin, hkind⟩, h⟩
    rcases among_matcher ⟨kind, hin, hkind⟩ with hword | hword <;> cases hkind.symm.trans hword
    · rw [if_pos rfl] at h
      simp only [bind_ok, nameSlot_ok, flag_ok, ensure_ok, Except.ok.injEq] at h
      obtain ⟨target, htarget, value, hvalue, _, hrequired, rfl⟩ := h
      exact .assign hkind htarget hvalue hrequired
    · rw [if_neg (by decide)] at h
      simp only [bind_ok, nameSlot_ok, require_ok, stringsOf_ok, Except.ok.injEq] at h
      obtain ⟨callee, hcallee, args, hargs, rfl⟩ := h
      exact .call hkind hcallee hargs
  · intro h
    cases h with
    | assign hkind htarget hvalue hrequired =>
      refine ⟨"assign", ⟨by decide, hkind⟩, ?_⟩
      rw [if_pos rfl]
      simp only [bind_ok, nameSlot_ok, flag_ok, ensure_ok]
      exact ⟨_, htarget, _, hvalue, (), hrequired, rfl⟩
    | call hkind hcallee hargs =>
      refine ⟨"call", ⟨by decide, hkind⟩, ?_⟩
      rw [if_neg (by decide)]
      simp only [bind_ok, nameSlot_ok, require_ok, stringsOf_ok]
      exact ⟨_, hcallee, _, hargs, rfl⟩

theorem matchers_ok {obj : Fields} {key what : String} {ms : List Matcher} :
    matchers obj key what = .ok ms ↔ MatchersAre obj key ms := by
  unfold matchers MatchersAre
  rw [getD_eq]
  cases Json.lookup obj key with
  | none =>
    constructor
    · rintro ⟨⟩
      exact ⟨[], rfl, .nil⟩
    · rintro ⟨items, hitems, hall⟩
      cases hitems
      cases hall
      rfl
  | some v =>
    rw [bind_ok, Option.getD_some]
    refine exists_congr fun items => ?_
    rw [require_ok, Json.asArr_iff, mapEach_ok (R := IsMatcher false) fun _ _ _ _ => matcher_ok]

/-- A list read string by string, none of them empty. -/
theorem texts_iff {items : List Json} {ss : List String} :
    List.Forall₂ (fun v s => v = Json.str s ∧ s ≠ "") items ss ↔ items = ss.map .str ∧ ∀ s ∈ ss, s ≠ "" := by
  induction ss generalizing items with
  | nil =>
    rw [List.forall₂_nil_right_iff]
    exact ⟨fun h => ⟨h, fun _ h => absurd h List.not_mem_nil⟩, And.left⟩
  | cons s rest ih =>
    rw [List.forall₂_cons_right_iff]
    constructor
    · rintro ⟨v, items, ⟨rfl, hs⟩, hrest, rfl⟩
      obtain ⟨rfl, hall⟩ := ih.mp hrest
      exact ⟨rfl, List.forall_mem_cons.mpr ⟨hs, hall⟩⟩
    · rintro ⟨rfl, hall⟩
      obtain ⟨hs, hall⟩ := List.forall_mem_cons.mp hall
      exact ⟨_, _, ⟨rfl, hs⟩, ih.mpr ⟨rfl, hall⟩, rfl⟩

theorem scopeMethods_ok {scope : Fields} {what : String} {methods : List String} :
    scopeMethods (some scope) what = .ok methods ↔
      OwnIR.getD scope "methods" (.arr []) = .arr (methods.map .str) ∧ ∀ m ∈ methods, m ≠ "" := by
  unfold scopeMethods
  rw [getD_eq, Option.bind_some]
  cases Json.lookup scope "methods" with
  | none =>
    constructor
    · rintro ⟨⟩
      exact ⟨rfl, fun _ h => absurd h List.not_mem_nil⟩
    · rintro ⟨h, -⟩
      cases methods with
      | nil => rfl
      | cons m rest => cases h
  | some v =>
    simp only [Option.getD_some]
    rw [bind_ok]
    simp only [require_ok, Json.asArr_iff]
    rw [show (∃ a, v = Json.arr a ∧ _) ↔ ∃ items, v = .arr items ∧ items = methods.map .str ∧ ∀ m ∈ methods, m ≠ "" from
      exists_congr fun items => and_congr_right fun _ =>
        (mapEach_ok (R := fun v s => v = Json.str s ∧ s ≠ "") fun _ v _ s => ?_).trans texts_iff]
    · exact ⟨fun ⟨_, h, hitems, hall⟩ => ⟨hitems ▸ h, hall⟩, fun ⟨h, hall⟩ => ⟨_, h, rfl, hall⟩⟩
    · rw [require_ok, Option.filter_eq_some_iff, Json.asStr_iff, decide_eq_true_eq]

/-- A scope that may be absent: the methods are read the same. -/
theorem scope_iff {obj : Fields} (what : String) {methods : List String} :
    (∃ scope, (Json.lookup obj "scope").elim (some none) (fun v => v.asObj.map some) = some scope ∧
      scopeMethods scope what = .ok methods) ↔
      ScopeIs obj methods := by
  unfold ScopeIs
  rw [getD_eq]
  cases Json.lookup obj "scope" with
  | none =>
    constructor
    · rintro ⟨scope, hscope, h⟩
      cases hscope
      cases (h : Except.ok [] = Except.ok methods)
      exact ⟨[], rfl, rfl, fun _ h => absurd h List.not_mem_nil⟩
    · rintro ⟨scope, hscope, hmethods, -⟩
      cases hscope
      cases methods with
      | nil => exact ⟨none, rfl, rfl⟩
      | cons m rest => cases hmethods
  | some v =>
    simp only [Option.elim_some, Option.map_eq_some_iff, Option.getD_some, Json.asObj_iff]
    constructor
    · rintro ⟨_, ⟨scope, rfl, rfl⟩, h⟩
      exact ⟨scope, rfl, scopeMethods_ok.mp h⟩
    · rintro ⟨scope, rfl, h⟩
      exact ⟨_, ⟨scope, rfl, rfl⟩, scopeMethods_ok.mpr h⟩

theorem parseProtocol_ok {raw : Json} {p : Protocol} : parseProtocol raw = .ok p ↔ IsProtocol raw p := by
  unfold parseProtocol IsProtocol
  rw [bind_ok]
  refine exists_congr fun obj => ?_
  rw [require_ok, Json.asObj_iff]
  refine and_congr_right fun _ => ?_
  simp only [bind_ok, nameSlot_ok, ensure_ok, matcher_ok, matchers_ok, require_ok, Json.asBool_iff,
    Json.asStr_iff, ← getD_eq, Except.ok.injEq]
  constructor
  · rintro ⟨name, hname, _, ⟨hopens, hcloses⟩, opens, ho, closes, hc, barriers, hbarriers, allow,
      hallow, exit, hexit, _, hfires, _, hlive,
      scope, hscope, methods, hmethods, description, hdescription, rfl⟩
    exact ⟨hname, isSome_get.mp ⟨hopens, ho⟩, isSome_get.mp ⟨hcloses, hc⟩, hbarriers, hallow, hexit, hfires, hlive,
      (scope_iff _).mp ⟨scope, hscope, hmethods⟩, hdescription⟩
  · intro h
    obtain ⟨hopens, ho⟩ := isSome_get.mpr h.opens
    obtain ⟨hcloses, hc⟩ := isSome_get.mpr h.closes
    obtain ⟨scope, hscope, hmethods⟩ := (scope_iff ("protocol '" ++ p.name ++ "'")).mpr h.scope
    exact ⟨p.name, h.name, (), ⟨hopens, hcloses⟩, p.opens, ho, p.closes, hc, p.barriers, h.barriers,
      p.allow, h.allow, p.exitBarriers,
      h.exitBarriers, (), h.fires, (), h.live, scope, hscope, p.methods, hmethods, p.description, h.description, rfl⟩

theorem line_iff {obj : Fields} (what : String) {line : Int} :
    (∃ value, defaultedIntValue obj "line" what = .ok value ∧ eventLine value what .strict = .ok line) ↔ LineIs obj line := by
  unfold eventLine LineIs
  simp only [defaultedIntValue_ok, seq_ok, lineDomain_ok, Except.ok.injEq]
  unfold int64Min int64Max lineMax
  constructor
  · rintro ⟨n, ⟨hn, -⟩, hrange, rfl⟩
    exact ⟨hn, hrange⟩
  · rintro ⟨hn, hrange⟩
    exact ⟨line, ⟨hn, by omega⟩, hrange, rfl⟩

theorem arg_iff {obj : Fields} (what : String) {arg : Option String} :
    optionalString obj "arg" what = .ok () ∧ (Json.lookup obj "arg").bind Json.asStr = arg ↔ OptTextIs obj "arg" arg := by
  rw [optionalString_ok]
  unfold Opt OrNull IsText OptTextIs
  rw [Json.get_eq]
  cases Json.lookup obj "arg" with
  | none => cases arg <;> simp
  | some v => cases v <;> cases arg <;> simp [Json.asStr]

theorem event_ok {sub : Option Json → Checked (List Event)} {R : Json → List Event → Prop}
    (hsub : ∀ (f : Fields) (key : String) (es : List Event), sub (Json.lookup f key) = .ok es ↔ R (OwnIR.getD f key (.arr [])) es)
    {what : String} {e : Json} {ev : Event} : event sub what .strict e = .ok ev ↔ ∃ f, e = .obj f ∧ EventReads R f ev := by
  unfold event
  rw [bind_ok]
  refine exists_congr fun f => ?_
  rw [require_ok, Json.asObj_iff, bind_ok]
  refine and_congr_right fun _ => ?_
  simp only [require_ok, kind_iff]
  constructor
  · rintro ⟨kind, ⟨hin, hkind⟩, h⟩
    obtain ⟨value, hvalue, h⟩ := bind_ok.mp h
    obtain ⟨line, hline, h⟩ := bind_ok.mp h
    have hline := (line_iff what).mp ⟨value, hvalue, hline⟩
    rcases among_event ⟨kind, hin, hkind⟩ with hword | hword | hword | hword | hword | hword <;> cases hkind.symm.trans hword
    · obtain ⟨target, htarget, h⟩ := bind_ok.mp h
      obtain ⟨value, hvalue, h⟩ := bind_ok.mp h
      cases h
      exact .assign hkind hline (nameSlot_ok.mp htarget) (flag_ok.mp hvalue)
    · obtain ⟨callee, hcallee, h⟩ := bind_ok.mp h
      obtain ⟨_, harg, h⟩ := bind_ok.mp h
      cases h
      exact .call hkind hline (nameSlot_ok.mp hcallee) ((arg_iff what).mp ⟨harg, rfl⟩)
    · obtain ⟨thenEvents, hthen, h⟩ := bind_ok.mp h
      obtain ⟨elseEvents, helse, h⟩ := bind_ok.mp h
      cases h
      exact .ite hkind hline ((hsub _ _ _).mp hthen) ((hsub _ _ _).mp helse)
    · cases h
      exact .ret hkind hline
    · cases h
      exact .throw hkind hline
    · obtain ⟨body, hbody, h⟩ := bind_ok.mp h
      cases h
      exact .loop hkind hline ((hsub _ _ _).mp hbody)
  · intro h
    cases h with
    | assign hev hline htarget hvalue =>
      obtain ⟨value, hv, hline⟩ := (line_iff what).mpr hline
      refine ⟨_, ⟨by decide, hev⟩, bind_ok.mpr ⟨value, hv, bind_ok.mpr ⟨_, hline, ?_⟩⟩⟩
      exact bind_ok.mpr ⟨_, nameSlot_ok.mpr htarget, bind_ok.mpr ⟨_, flag_ok.mpr hvalue, rfl⟩⟩
    | call hev hline hcallee harg =>
      obtain ⟨value, hv, hline⟩ := (line_iff what).mpr hline
      obtain ⟨hoptional, rfl⟩ := (arg_iff what).mpr harg
      refine ⟨_, ⟨by decide, hev⟩, bind_ok.mpr ⟨value, hv, bind_ok.mpr ⟨_, hline, ?_⟩⟩⟩
      exact bind_ok.mpr ⟨_, nameSlot_ok.mpr hcallee, bind_ok.mpr ⟨(), hoptional, rfl⟩⟩
    | ret hev hline =>
      obtain ⟨value, hv, hline⟩ := (line_iff what).mpr hline
      exact ⟨_, ⟨by decide, hev⟩, bind_ok.mpr ⟨value, hv, bind_ok.mpr ⟨_, hline, rfl⟩⟩⟩
    | throw hev hline =>
      obtain ⟨value, hv, hline⟩ := (line_iff what).mpr hline
      exact ⟨_, ⟨by decide, hev⟩, bind_ok.mpr ⟨value, hv, bind_ok.mpr ⟨_, hline, rfl⟩⟩⟩
    | ite hev hline hthen helse =>
      obtain ⟨value, hv, hline⟩ := (line_iff what).mpr hline
      refine ⟨_, ⟨by decide, hev⟩, bind_ok.mpr ⟨value, hv, bind_ok.mpr ⟨_, hline, ?_⟩⟩⟩
      exact bind_ok.mpr ⟨_, (hsub _ _ _).mpr hthen, bind_ok.mpr ⟨_, (hsub _ _ _).mpr helse, rfl⟩⟩
    | loop hev hline hbody =>
      obtain ⟨value, hv, hline⟩ := (line_iff what).mpr hline
      refine ⟨_, ⟨by decide, hev⟩, bind_ok.mpr ⟨value, hv, bind_ok.mpr ⟨_, hline, ?_⟩⟩⟩
      exact bind_ok.mpr ⟨_, (hsub _ _ _).mpr hbody, rfl⟩

theorem events_ok {what : String} {n : Nat} {f : Fields} {key : String} {es : List Event} :
    events what .strict n (Json.lookup f key) = .ok es ↔ EventsRead n (OwnIR.getD f key (.arr [])) es := by
  induction n generalizing f key es with
  | zero => exact ⟨fun h => (by cases h), False.elim⟩
  | succ n ih =>
    rw [events, EventsRead, bind_ok, ← getD_eq]
    refine exists_congr fun items => ?_
    rw [require_ok, Json.asArr_iff, mapEach_ok (R := fun (e : Json) (ev : Event) => ∃ f,
      e = .obj f ∧ EventReads (EventsRead n) f ev)
      fun _ _ _ _ => event_ok fun _ _ _ => ih]

theorem parseMethod_ok {raw : Json} {m : MethodEvents} : parseMethod .strict raw = .ok m ↔ IsMethod raw m := by
  unfold parseMethod IsMethod
  rw [bind_ok]
  refine exists_congr fun obj => ?_
  rw [require_ok, Json.asObj_iff]
  refine and_congr_right fun _ => ?_
  simp only [bind_ok, nameSlot_ok, require_ok, Json.asStr_iff, events_ok, ← getD_eq, Except.ok.injEq]
  constructor
  · rintro ⟨name, hname, file, hfile, es, hes, rfl⟩
    exact ⟨hname, hfile, hes⟩
  · exact fun h => ⟨m.name, h.name, m.file, h.file, m.events, h.events, rfl⟩

/-! ## The document, read -/

/-- The two doors look for a name twice in the same way. -/
theorem protocolNames_ok {items : List Json} {seen : List String} :
    protocolNames seen items = .ok () ↔ loadProtocols.loadNames seen items = .ok () := by
  induction items generalizing seen with
  | nil => exact iff_of_true rfl rfl
  | cons raw rest ih =>
    rw [protocolNames, loadProtocols.loadNames, bind_ok, bind_ok]
    simp only [parseProtocol_ok, Facts.parseProtocol_ok, seq_ok, ensure_ok, refuse_ok, ih]

theorem protocols_ok {obj : Fields} : protocols obj = .ok () ↔ Opt ProtocolsOk obj "protocols" := by
  rw [← loadProtocols_ok]
  unfold protocols loadProtocols
  rw [bind_ok, bind_ok]
  refine exists_congr fun items => ?_
  rw [list_ok, require_ok, Json.asArr_iff, protocolNames_ok]

theorem protocolFunctions_ok {obj : Fields} :
    protocolFunctions obj = .ok () ↔ Opt (ArrayOf fun raw => ∃ m, IsMethod raw m) obj "protocol_functions" := by
  have hmethod : ∀ raw, (parseMethod .strict raw >>= fun _ => Except.ok ()) = .ok () ↔ ∃ m, IsMethod raw m := fun raw => by
    rw [bind_ok]
    exact exists_congr fun _ => ⟨fun h => parseMethod_ok.mp h.1, fun h => ⟨parseMethod_ok.mpr h, rfl⟩⟩
  unfold protocolFunctions
  rw [← opt_getD (p := ArrayOf fun raw => ∃ m, IsMethod raw m) (d := .arr []) ⟨[], rfl,
    fun _ h => absurd h List.not_mem_nil⟩, bind_ok]
  refine exists_congr fun items => ?_
  rw [list_ok, each_ok (p := fun raw => ∃ m, IsMethod raw m) fun _ raw _ => hmethod raw]

theorem required_ok {α : Type} {obj : Fields} {key : String} (read : Json → Option α) {message : String → String} {a : α}
    (h : read .null = none) : required obj key read message = .ok a ↔ read (Json.get obj key) = some a := by
  unfold required
  rw [require_ok, Json.get_eq]
  cases Json.lookup obj key with
  | none => rw [Option.getD_none, h]; rfl
  | some v => rfl

theorem orphanedAwaitable_ok {it : Fields} : orphanedAwaitable it = .ok () ↔ OrphanOk it := by
  unfold orphanedAwaitable
  rw [named_iff fun _ => Iff.rfl, named_iff fun _ => Iff.rfl]
  simp only [bind_ok, required_ok Json.asStr rfl, required_ok representableInt rfl, Json.asStr_iff, representableInt_iff,
    lineDomain_ok, column_ok, optionalString_ok, optionalAmong_ok]
  constructor
  · rintro ⟨hlocal, hcallee, file, hfile, n, ⟨hn, -⟩, _, hrange, _, hcolumn, _, hmethod, _, hfamily, hresult⟩
    exact ⟨hlocal, hcallee, ⟨file, hfile⟩, ⟨n, hn, hrange⟩, hcolumn, hmethod, hfamily, hresult⟩
  · rintro ⟨hlocal, hcallee, ⟨file, hfile⟩, ⟨n, hn, hrange⟩, hcolumn, hmethod, hfamily, hresult⟩
    have hn64 : int64Min ≤ n ∧ n ≤ int64Max := by
      unfold lineMax at hrange
      unfold int64Min int64Max
      omega
    exact ⟨hlocal, hcallee, file, hfile, n, ⟨hn, hn64⟩, (), hrange, (), hcolumn, (), hmethod, (), hfamily, hresult⟩

/-- A document is accepted exactly where it keeps the grammar. -/
theorem validateDocument_ok {obj : Fields} : validateDocument obj = .ok () ↔ DocumentOk obj := by
  unfold validateDocument section_
  simp only [seq_ok, version_ok, records_ok fun _ => component_ok, records_ok fun _ => service_ok, records_ok fun _ => effect_ok,
    records_ok fun _ => function_ok, protocols_ok, protocolFunctions_ok, records_ok fun _ => orphanedAwaitable_ok]
  constructor
  · rintro ⟨hversion, hcomponents, hservices, heffects, hfunctions, hprotocols, hmethods, horphans⟩
    exact ⟨hversion, hcomponents, hservices, heffects, hfunctions, hprotocols, hmethods, horphans⟩
  · exact fun h => ⟨h.version, h.components, h.services, h.effects, h.functions, h.protocols,
      h.protocolFunctions, h.orphanedAwaitables⟩

/-- The two doors accept the same documents. -/
theorem doors_agree {top : Fields} : (∃ facts, load false (.obj top) = .ok facts) ↔ validateDocument top = .ok () := by
  rw [validateDocument_ok]
  simp only [load_ok]
  constructor
  · rintro ⟨_, rfl, -, f, hf, hok⟩
    cases hf
    exact hok
  · exact fun hok => ⟨_, rfl, trivial, top, rfl, hok⟩

end Strict

end OwnNet.Facts
