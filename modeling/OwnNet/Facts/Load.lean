/-
  OwnNet.Facts.Load — `load`: the strict door of the reference, over the document that was read,
  with the grammar of `obligations.py` it hands the protocols to.

  A membership test hashes what it is asked about: a list or an object at a closed vocabulary
  stops the load with a `TypeError` instead of an `OwnIRError`.

  Proved: `load_ok`: a document is accepted exactly where it keeps the grammar.
-/

import OwnNet.Facts.Grammar

namespace OwnNet.Facts

open Checks

/-- `OwnIRError` (a `ProtocolFactsError` is raised again as one, with its text), or what escapes. -/
inductive LoadError where
  | refused (message : String)
  | typeError (message : String)

/-! ## Fields -/

def refuse (p : Prop) [Decidable p] (message : String) : Except LoadError Unit := ensure p (.refused message)

/-- `v in vocabulary`, of a set of strings. -/
def isIn (v : Json) (vocabulary : List String) : Except LoadError Bool :=
  match v with
  | .arr _ => .error (.typeError "unhashable type: 'list'")
  | .obj _ => .error (.typeError "unhashable type: 'dict'")
  | v => .ok (v.asStr.any fun s => s ∈ vocabulary)

/-- `if v not in vocabulary: raise` -/
def checkIn (v : Json) (vocabulary : List String) (message : String) : Except LoadError Unit :=
  isIn v vocabulary >>= fun known => refuse known message

/-- `sorted(vocabulary)`, shown. -/
def shown (vocabulary : List String) : String := OwnIR.repr (.arr (vocabulary.map .str))

def int64Min : Int := -(2 ^ 63)

def int64Max : Int := 2 ^ 63 - 1

/-- `_check_representable` -/
def checkRepresentable (v : Int) (who field : String) : Except LoadError Unit :=
  refuse (int64Min ≤ v ∧ v ≤ int64Max)
    (who ++ " '" ++ field ++ "' must fit a signed 64-bit integer, got " ++ toString v ++ " (spec/OwnIR.md §4.2)")

/-- `_check_line_domain` -/
def checkLineDomain (v : Int) (who field : String) : Except LoadError Unit :=
  checkRepresentable v who field >>= fun _ =>
  refuse (0 ≤ v ∧ v ≤ lineMax)
    (who ++ " '" ++ field ++ "' must be a source line in [0, 2147483647], got " ++ toString v ++ " (spec/OwnIR.md §4.2)")

/-- `_check_column` -/
def checkColumn (v : Json) (who : String) : Except LoadError Unit :=
  match v with
  | .null => .ok ()
  | v =>
    require (v.asInteger.filter fun n => 1 ≤ n)
        (.refused (who ++ " 'column' must be a 1-based integer or absent, got " ++ OwnIR.repr v)) >>= fun n =>
    checkRepresentable n who "column" >>= fun _ =>
    refuse (n ≤ lineMax)
      (who ++ " 'column' must be a source column in [1, 2147483647], got " ++ toString n ++ " (spec/OwnIR.md §4.2)")

/-- A line, by its field and what is said where it is no integer. -/
def checkLine (f : Fields) (field who : String) (message : Json → String) : Except LoadError Unit :=
  let v := OwnIR.getD f field (.int 0)
  require v.asInteger (.refused (message v)) >>= fun n => checkLineDomain n who field

def checkText (v : Json) (message : String) : Except LoadError Unit := refuse v.asStr.isSome message

/-- `v is not None and not isinstance(v, str)` -/
def checkOptText (f : Fields) (field who ending : String) : Except LoadError Unit :=
  let v := Json.get f field
  refuse (v.isNull ∨ v.asStr.isSome) (who ++ " '" ++ field ++ "' must be a string" ++ ending ++ ", got " ++ OwnIR.repr v)

def isTexts (v : Json) : Bool := v.asArr.any fun items => items.all fun i => i.asStr.isSome

def checkTexts (f : Fields) (field message : String) : Except LoadError Unit :=
  refuse (isTexts (OwnIR.getD f field (.arr []))) message

/-- A list that is all dicts. -/
def recordsOf (f : Fields) (field message : String) : Except LoadError (List Fields) :=
  require ((OwnIR.getD f field (.arr [])).asArr.bind Json.objects) (.refused message)

def checkName (f : Fields) (field : String) (message : Json → String) : Except LoadError Unit :=
  let v := Json.get f field
  refuse (v.asStr.any fun s => s ≠ "") (message v)

/-! ## Components -/

def loadSubscription (s : Fields) : Except LoadError Unit :=
  let r := OwnIR.getD s "resource" (.str "subscription")
  require r.asStr (.refused ("subscription 'resource' must be a string, got " ++ OwnIR.repr r)) >>= fun kind =>
  refuse (kind ∈ resourceKinds) ("unknown resource kind " ++ OwnIR.repr r ++
    " — a new kind is a vocabulary change that must bump OWNIR_VERSION (see spec/OwnIR.md §2)") >>= fun _ =>
  checkLine s "line" "subscription" (fun v => "subscription 'line' must be an integer, got " ++ OwnIR.repr v) >>= fun _ =>
  checkColumn (Json.get s "column") "subscription" >>= fun _ =>
  checkOptText s "type" "subscription" "" >>= fun _ =>
  checkOptText s "source_type" "subscription" "" >>= fun _ =>
  checkOptText s "source_provenance" "subscription" "" >>= fun _ =>
  checkOptText s "ignore_reason" "subscription" ""

def loadComponent (c : Fields) : Except LoadError Unit :=
  recordsOf c "subscriptions" "each component's 'subscriptions' must be objects" >>= fun subs =>
  each (fun _ s => loadSubscription s) subs

/-! ## Services -/

def isSite (v : Json) : Bool :=
  v.asObj.any fun x => (OwnIR.getD x "type" (.str "")).asStr.isSome && (OwnIR.getD x "file" (.str "?")).asStr.isSome &&
    (OwnIR.getD x "line" (.int 0)).asInteger.isSome

def siteLine (site : Json) : Int := (OwnIR.getD (site.asObj.getD []) "line" (.int 0)).asInteger.getD 0

/-- Sites, their shape first and then their lines. -/
def loadSites (s : Fields) (field who : String) : Except LoadError Unit :=
  require ((OwnIR.getD s field (.arr [])).asArr.filter fun items => items.all isSite)
    (.refused ("service '" ++ field ++ "' must be an array of \x7btype:str, file:str, line:int\x7d objects")) >>= fun sites =>
  each (fun _ site => checkLineDomain (siteLine site) who "line") sites

def loadService (s : Fields) : Except LoadError Unit :=
  let lt := Json.get s "lifetime"
  checkIn lt lifetimes ("service 'lifetime' must be one of " ++ shown lifetimes ++ ", got " ++ OwnIR.repr lt) >>= fun _ =>
  checkName s "name" (fun _ => "service 'name' must be a non-empty string") >>= fun _ =>
  checkTexts s "deps" "service 'deps' must be an array of strings" >>= fun _ =>
  checkTexts s "weak_deps" "service 'weak_deps' must be an array of strings" >>= fun _ =>
  checkTexts s "root_resolves" "service 'root_resolves' must be an array of strings" >>= fun _ =>
  checkText (OwnIR.getD s "file" (.str "?")) "service 'file' must be a string" >>= fun _ =>
  checkLine s "line" "service" (fun _ => "service 'line' must be an integer") >>= fun _ =>
  checkText (OwnIR.getD s "ctor_file" (.str "?")) "service 'ctor_file' must be a string" >>= fun _ =>
  checkLine s "ctor_line" "service" (fun _ => "service 'ctor_line' must be an integer") >>= fun _ =>
  checkText (OwnIR.getD s "ctor_type" (.str "")) "service 'ctor_type' must be a string" >>= fun _ =>
  loadSites s "root_resolve_sites" "service root_resolve_site" >>= fun _ =>
  checkTexts s "scope_cached" "service 'scope_cached' must be an array of strings" >>= fun _ =>
  loadSites s "scope_cache_sites" "service scope_cache_site"

/-! ## Effects -/

def loadBinding (b : Fields) : Except LoadError Unit :=
  checkText (OwnIR.getD b "name" (.str "")) "binding 'name' must be a string" >>= fun _ =>
  checkText (OwnIR.getD b "init" (.str "unknown")) "binding 'init' must be a string" >>= fun _ =>
  checkTexts b "refs" "binding 'refs' must be an array of strings" >>= fun _ =>
  checkLine b "line" "binding" fun _ => "binding 'line' must be an integer"

def loadEffect (eff : Fields) : Except LoadError Unit :=
  checkTexts eff "deps" "effect 'deps' must be an array of strings" >>= fun _ =>
  let io := OwnIR.getD eff "io" (.bool false)
  refuse io.asBool.isSome ("effect 'io' must be a boolean, got " ++ OwnIR.repr io) >>= fun _ =>
  checkLine eff "line" "effect" (fun _ => "effect 'line' must be an integer") >>= fun _ =>
  recordsOf eff "bindings" "effect 'bindings' must be a JSON array of objects" >>= fun binds =>
  each (fun _ b => loadBinding b) binds

/-! ## Functions -/

/-- `_check_flow_coordinates`, this many more bodies deep. -/
def checkFlowCoordinates (who : String) : Nat → Json → Except LoadError Unit
  | 0, v => refuse (v.asArr = none) (who ++ " nested deeper than 32 levels (spec/OwnIR.md §4.2)")
  | n + 1, .arr nodes =>
    each (fun _ node =>
      match node with
      | .obj f =>
        let what := who ++ " op " ++ OwnIR.repr (Json.get f "op")
        checkLine f "line" what (fun v => what ++ " 'line' must be an integer, got " ++ OwnIR.repr v) >>= fun _ =>
        checkColumn (Json.get f "column") what >>= fun _ =>
        checkFlowCoordinates who n (Json.get f "then") >>= fun _ =>
        checkFlowCoordinates who n (Json.get f "else") >>= fun _ =>
        checkFlowCoordinates who n (Json.get f "body")
      | _ => .ok ()) nodes
  | _ + 1, _ => .ok ()

def loadParam (p : Fields) : Except LoadError Unit :=
  checkName p "name" (fun v => "parameter 'name' must be a non-empty string, got " ++ OwnIR.repr v) >>= fun _ =>
  checkLine p "line" "parameter" (fun v => "parameter 'line' must be an integer, got " ++ OwnIR.repr v) >>= fun _ =>
  checkColumn (Json.get p "column") "parameter" >>= fun _ =>
  match Json.get p "effect" with
  | .null => .ok ()
  | peff =>
    checkIn peff paramEffects ("parameter 'effect' must be one of " ++ shown paramEffects ++ ", got " ++ OwnIR.repr peff)

def loadFunction (f : Fields) : Except LoadError Unit :=
  checkOptText f "sig" "function" "" >>= fun _ =>
  checkFlowCoordinates "function body" (maxNestingDepth + 1) (Json.get f "body") >>= fun _ =>
  recordsOf f "params" "a function's 'params' must be a JSON array of objects" >>= fun ps =>
  each (fun _ p => loadParam p) ps

/-! ## Protocols -/

/-- `_require_str` -/
def requireStr (raw : Fields) (key ctx : String) : Except LoadError String :=
  let v := Json.get raw key
  require (v.asStr.filter fun s => s ≠ "")
    (.refused (ctx ++ ": '" ++ key ++ "' must be a non-empty string, got " ++ OwnIR.repr v))

/-- A boolean or none. -/
def flagOf (raw : Fields) (key : String) (message : Json → String) : Except LoadError (Option Bool) :=
  match Json.get raw key with
  | .null => .ok none
  | .bool b => .ok (some b)
  | v => .error (.refused (message v))

/-- `parse_matcher` -/
def parseMatcher (requireValue : Bool) (ctx : String) (raw : Json) : Except LoadError Matcher :=
  require raw.asObj (.refused (ctx ++ " must be an object, got " ++ OwnIR.repr raw)) >>= fun f =>
  let kind := Json.get f "kind"
  checkIn kind matcherKinds (ctx ++ ": unknown matcher kind " ++ OwnIR.repr kind ++ " — the vocabulary is " ++
    shown matcherKinds ++
    " (spec/OwnIR.md §8)") >>= fun _ =>
  if kind.asStr = some "assign" then
    requireStr f "target" ctx >>= fun target =>
    flagOf f "value" (fun v => ctx ++ ": assign 'value' must be a boolean, got " ++ OwnIR.repr v) >>= fun value =>
    refuse (requireValue = true → value.isSome)
      (ctx ++ ": an opens/closes assign matcher must state the written boolean 'value' — " ++
      "'any write' cannot open or close an obligation") >>= fun _ =>
    .ok ⟨.assign, target, value, ∅⟩
  else
    requireStr f "callee" ctx >>= fun callee =>
    require ((OwnIR.getD f "args" (.arr [])).asArr.bind Json.strings)
        (.refused (ctx ++ ": call 'args' must be an array of strings")) >>= fun args =>
    .ok ⟨.call, callee, none, args.toFinset⟩

def parseMatchers (raw : Fields) (key ctx what : String) : Except LoadError (List Matcher) :=
  require (OwnIR.getD raw key (.arr [])).asArr (.refused (ctx ++ ": '" ++ key ++ "' must be an array")) >>= fun items =>
  mapEach (fun _ m => parseMatcher false (ctx ++ " " ++ what) m) items

/-- `parse_protocol` -/
def parseProtocol (raw : Json) : Except LoadError Protocol :=
  require raw.asObj (.refused ("a protocol must be an object, got " ++ OwnIR.repr raw)) >>= fun f =>
  requireStr f "name" "protocol" >>= fun name =>
  let ctx := "protocol '" ++ name ++ "'"
  refuse ((Json.lookup f "opens").isSome ∧ (Json.lookup f "closes").isSome)
      (ctx ++ ": 'opens' and 'closes' are both required") >>= fun _ =>
  parseMatcher true (ctx ++ " 'opens'") (Json.get f "opens") >>= fun opens =>
  parseMatcher true (ctx ++ " 'closes'") (Json.get f "closes") >>= fun closes =>
  parseMatchers f "barriers" ctx "barrier" >>= fun barriers =>
  parseMatchers f "allow" ctx "allow" >>= fun allow =>
  require (OwnIR.getD f "exit_barriers" (.bool true)).asBool
      (.refused (ctx ++ ": 'exit_barriers' must be a boolean")) >>= fun exitBarriers =>
  refuse (barriers ≠ [] ∨ exitBarriers = true)
    (ctx ++ ": no barriers and exit_barriers is false — the protocol can never fire " ++
    "(a rule that structurally never fires is decoration)") >>= fun _ =>
  refuse (opens ∉ barriers) (ctx ++ ": a barrier equals the 'opens' matcher — the open wins and the barrier can never fire " ++
    "(re-entrancy checks are not supported yet)") >>= fun _ =>
  require (OwnIR.getD f "scope" (.obj [])).asObj (.refused (ctx ++ ": 'scope' must be an object")) >>= fun scope =>
  require ((OwnIR.getD scope "methods" (.arr [])).asArr.bind Json.strings |>.filter fun ms => ms.all fun m => m ≠ "")
    (.refused (ctx ++ ": 'scope.methods' must be an array of non-empty strings")) >>= fun methods =>
  require (OwnIR.getD f "description" (.str "")).asStr (.refused (ctx ++ ": 'description' must be a string")) >>= fun desc =>
  .ok ⟨name, opens, closes, barriers, allow, exitBarriers, methods, desc⟩

/-- `_opt_line`, at the strict door. -/
def optLine (raw : Fields) (ctx : String) : Except LoadError Int :=
  let v := OwnIR.getD raw "line" (.int 0)
  require v.asInteger (.refused (ctx ++ ": 'line' must be an integer, got " ++ OwnIR.repr v)) >>= fun n =>
  refuse (int64Min ≤ n ∧ n ≤ int64Max)
    (ctx ++ ": 'line' must fit a signed 64-bit integer, got " ++ toString n ++ " (spec/OwnIR.md §4.2)") >>= fun _ =>
  refuse (0 ≤ n ∧ n ≤ lineMax)
    (ctx ++ ": 'line' must be a source line in [0, 2147483647], got " ++ toString n ++ " (spec/OwnIR.md §4.2)") >>= fun _ => .ok n

def argOf (raw : Fields) (ctx : String) : Except LoadError (Option String) :=
  match Json.get raw "arg" with
  | .null => .ok none
  | .str s => .ok (some s)
  | v => .error (.refused (ctx ++ ": call 'arg' must be a string or absent, got " ++ OwnIR.repr v))

/-- An event, its bodies parsed by `sub`. -/
def parseEvent (sub : Json → Except LoadError (List Event)) (ctx : String) (e : Json) : Except LoadError Event :=
  require e.asObj (.refused (ctx ++ ": each event must be an object, got " ++ OwnIR.repr e)) >>= fun f =>
  let ev := Json.get f "ev"
  checkIn ev eventKinds (ctx ++ ": unknown protocol event " ++ OwnIR.repr ev ++ " — the vocabulary is " ++ shown eventKinds ++
    " (spec/OwnIR.md §8)") >>= fun _ =>
  optLine f ctx >>= fun line =>
  match ev with
  | .str "assign" =>
    requireStr f "target" (ctx ++ " assign") >>= fun target =>
    flagOf f "value" (fun v => ctx ++ ": assign 'value' must be a boolean or absent (absent = opaque write), got " ++
      OwnIR.repr v) >>=
      fun value => .ok (.assign target value line)
  | .str "call" =>
    requireStr f "callee" (ctx ++ " call") >>= fun callee =>
    argOf f ctx >>= fun arg => .ok (.call callee arg line)
  | .str "return" => .ok (.ret line)
  | .str "throw" => .ok (.throw line)
  | .str "if" =>
    sub (OwnIR.getD f "then" (.arr [])) >>= fun thenEvents =>
    sub (OwnIR.getD f "else" (.arr [])) >>= fun elseEvents => .ok (.ite line thenEvents elseEvents)
  | _ => sub (OwnIR.getD f "body" (.arr [])) >>= fun body => .ok (.loop line body)

/-- `parse_events`, this many more bodies deep. -/
def parseEvents (ctx : String) : Nat → Json → Except LoadError (List Event)
  | 0, _ => .error (.refused (ctx ++ ": events nested deeper than 32 levels (spec/OwnIR.md §4.2)"))
  | n + 1, raw =>
    require raw.asArr (.refused (ctx ++ ": events must be an array, got " ++ OwnIR.repr raw)) >>= fun items =>
    mapEach (fun _ e => parseEvent (parseEvents ctx n) ctx e) items

/-- `parse_method` -/
def parseMethod (raw : Json) : Except LoadError MethodEvents :=
  require raw.asObj (.refused ("a protocol function must be an object, got " ++ OwnIR.repr raw)) >>= fun f =>
  requireStr f "name" "protocol function" >>= fun name =>
  let ctx := "protocol function '" ++ name ++ "'"
  require (OwnIR.getD f "file" (.str "?")).asStr (.refused (ctx ++ ": 'file' must be a string")) >>= fun file =>
  parseEvents ctx (maxNestingDepth + 1) (OwnIR.getD f "events" (.arr [])) >>= fun events => .ok ⟨name, file, events⟩

/-! ## The document -/

def loadVersion (minusZero : Bool) (top : Fields) : Except LoadError Unit :=
  let ver := OwnIR.getD top "ownir_version" (.int 2)
  refuse (minusZero = false) ("OwnIR 'ownir_version' must be an integer, got -0: the literal -0 " ++
    "is refused at the OwnIR input boundary " ++
    "because the two supported parsers do not agree on what it means (this reference " ++
    "reads it as the integer 0, serde_json as the float " ++
    "-0.0). Write 0.") >>= fun _ =>
  require ver.asInteger (.refused ("OwnIR 'ownir_version' must be an integer, got " ++ OwnIR.repr ver)) >>= fun n =>
  refuse (n = 2) ("OwnIR facts are schema v" ++ toString n ++
    ", but this core understands v2. Build the Roslyn extractor and the Python " ++
    "core from the same commit — the OwnIR fact vocabulary changed between the version that produced this file " ++
    "and the one reading it.")

def loadOrphan (o : Fields) : Except LoadError Unit :=
  let named (slot : String) := checkName o slot fun v =>
    "orphaned awaitable '" ++ slot ++ "' must be a non-empty string, got " ++ OwnIR.repr v
  named "local" >>= fun _ =>
  named "callee" >>= fun _ =>
  let fv := Json.get o "file"
  checkText fv ("orphaned awaitable 'file' must be a string, got " ++ OwnIR.repr fv) >>= fun _ =>
  let oln := Json.get o "line"
  require oln.asInteger (.refused ("orphaned awaitable 'line' must be an integer, got " ++ OwnIR.repr oln)) >>= fun n =>
  checkLineDomain n "orphaned awaitable" "line" >>= fun _ =>
  checkColumn (Json.get o "column") "orphaned awaitable" >>= fun _ =>
  checkOptText o "method" "orphaned awaitable" " or null" >>= fun _ =>
  let fam := Json.get o "family"
  refuse (fam.isNull ∨ fam.asStr.any fun s => s ∈ orphanFamilies)
    ("orphaned awaitable 'family' must be one of " ++ shown orphanFamilies ++ ", got " ++ OwnIR.repr fam) >>= fun _ =>
  checkOptText o "result_type" "orphaned awaitable" " or null"

def loadSection (top : Fields) (field : String) (record : Fields → Except LoadError Unit) : Except LoadError Unit :=
  recordsOf top field ("OwnIR '" ++ field ++ "' must be a JSON array of objects") >>= fun items =>
    each (fun _ i => record i) items

/-- The protocols, no name twice. -/
def loadProtocols (top : Fields) : Except LoadError Unit :=
  require (OwnIR.getD top "protocols" (.arr [])).asArr
      (.refused "OwnIR 'protocols' must be a JSON array of objects") >>= fun protos =>
  loadNames [] protos
where
  loadNames (seen : List String) : List Json → Except LoadError Unit
    | [] => .ok ()
    | praw :: rest =>
      parseProtocol praw >>= fun parsed =>
      refuse (parsed.name ∉ seen) ("duplicate protocol name '" ++ parsed.name ++
        "' — protocol names are the identity findings map back by and must be unique") >>= fun _ =>
      loadNames (parsed.name :: seen) rest

def loadProtocolFunctions (top : Fields) : Except LoadError Unit :=
  require (OwnIR.getD top "protocol_functions" (.arr [])).asArr
    (.refused "OwnIR 'protocol_functions' must be a JSON array of objects") >>= fun pfns =>
  each (fun _ fraw => parseMethod fraw >>= fun _ => .ok ()) pfns

/-- `load`, from the document on; `minusZero` says that the literal of its version is `-0`. -/
def load (minusZero : Bool) (result : Json) : Except LoadError Json :=
  require result.asObj (.refused "OwnIR root must be a JSON object") >>= fun top =>
  loadVersion minusZero top >>= fun _ =>
  loadSection top "components" loadComponent >>= fun _ =>
  loadSection top "services" loadService >>= fun _ =>
  loadSection top "effects" loadEffect >>= fun _ =>
  loadSection top "functions" loadFunction >>= fun _ =>
  loadProtocols top >>= fun _ =>
  loadProtocolFunctions top >>= fun _ =>
  loadSection top "orphaned_awaitables" loadOrphan >>= fun _ => .ok result

/-! ## What a check lets through -/

theorem refuse_ok {p : Prop} [Decidable p] {message : String} {u : Unit} : refuse p message = .ok u ↔ p := ensure_ok

theorem isText_iff {v : Json} : v.asStr.isSome = true ↔ IsText v := by
  rw [Option.isSome_iff_exists]
  exact exists_congr fun _ => Json.asStr_iff

theorem among_iff {v : Json} {vocabulary : List String} : (v.asStr.any fun s => s ∈ vocabulary) = true ↔ Among vocabulary v := by
  rw [Option.any_eq_true]
  unfold Among
  simp only [Json.asStr_iff, decide_eq_true_eq]
  exact ⟨fun ⟨s, h, hs⟩ => ⟨s, hs, h⟩, fun ⟨s, hs, h⟩ => ⟨s, h, hs⟩⟩

theorem isNull_iff {v : Json} : v.isNull = true ↔ v = .null := by
  cases v <;> simp [Json.isNull]

theorem checkIn_ok {v : Json} {vocabulary : List String} {message : String} {u : Unit} :
    checkIn v vocabulary message = .ok u ↔ Among vocabulary v := by
  unfold checkIn
  rw [bind_ok]
  constructor
  · rintro ⟨known, hknown, h⟩
    have hin := refuse_ok.mp h
    cases v with
    | arr _ => cases hknown
    | obj _ => cases hknown
    | _ => cases hknown; exact among_iff.mp hin
  · rintro ⟨s, hs, rfl⟩
    exact ⟨_, rfl, refuse_ok.mpr (among_iff.mpr ⟨s, hs, rfl⟩)⟩

theorem checkLineDomain_ok {n : Int} {who field : String} {u : Unit} :
    checkLineDomain n who field = .ok u ↔ 0 ≤ n ∧ n ≤ lineMax := by
  unfold checkLineDomain checkRepresentable
  rw [seq_ok, refuse_ok, refuse_ok]
  unfold int64Min int64Max lineMax
  omega

theorem checkLine_ok {f : Fields} {field who : String} {message : Json → String} {u : Unit} :
    checkLine f field who message = .ok u ↔ Opt IsLine f field := by
  unfold checkLine
  rw [← opt_getD (d := .int 0) ⟨0, rfl, Int.le_refl 0, by decide⟩, bind_ok]
  unfold IsLine
  simp only [require_ok, Json.asInteger_iff, checkLineDomain_ok]

theorem checkColumn_ok {f : Fields} {who : String} {u : Unit} :
    checkColumn (Json.get f "column") who = .ok u ↔ Opt (OrNull IsColumn) f "column" := by
  rw [← opt_get]
  generalize Json.get f "column" = v
  unfold checkColumn OrNull IsColumn checkRepresentable int64Min int64Max lineMax
  cases v with
  | null => exact ⟨fun _ => .inl rfl, fun _ => rfl⟩
  | int n =>
    simp only [bind_ok, require_ok, refuse_ok, Option.filter_eq_some_iff, Json.asInteger, Option.some.injEq,
      decide_eq_true_eq, Json.int.injEq,
      reduceCtorEq, false_or]
    constructor
    · rintro ⟨m, ⟨rfl, hpos⟩, _, -, hmax⟩
      exact ⟨n, rfl, hpos, hmax⟩
    · rintro ⟨m, rfl, hpos, hmax⟩
      exact ⟨n, ⟨rfl, hpos⟩, (), ⟨by omega, by omega⟩, hmax⟩
  | _ =>
    refine iff_of_false (fun h => by cases h) ?_
    rintro (h | ⟨_, h, _⟩) <;> cases h

theorem checkText_ok {f : Fields} {field d message : String} {u : Unit} :
    checkText (OwnIR.getD f field (.str d)) message = .ok u ↔ Opt IsText f field := by
  unfold checkText
  rw [refuse_ok, isText_iff]
  exact opt_getD ⟨d, rfl⟩

theorem checkOptText_ok {f : Fields} {field who ending : String} {u : Unit} :
    checkOptText f field who ending = .ok u ↔ Opt (OrNull IsText) f field := by
  unfold checkOptText
  rw [refuse_ok, isText_iff, isNull_iff, ← opt_get]
  rfl

theorem isTexts_iff {v : Json} : isTexts v = true ↔ ArrayOf IsText v := by
  unfold isTexts ArrayOf
  simp only [Option.any_eq_true, Json.asArr_iff, List.all_eq_true, isText_iff]

theorem checkTexts_ok {f : Fields} {field message : String} {u : Unit} :
    checkTexts f field message = .ok u ↔ Opt (ArrayOf IsText) f field := by
  unfold checkTexts
  rw [refuse_ok, isTexts_iff]
  exact opt_getD ⟨[], rfl, fun _ h => absurd h List.not_mem_nil⟩

theorem checkName_ok {f : Fields} {field : String} {message : Json → String} {u : Unit} :
    checkName f field message = .ok u ↔ Named f field := by
  unfold checkName Named NameIs
  rw [refuse_ok, Json.get_eq, Option.any_eq_true]
  simp only [Json.asStr_iff, decide_eq_true_eq]
  cases Json.lookup f field with
  | none => exact ⟨fun ⟨_, h, _⟩ => (by cases h), fun ⟨_, _, h⟩ => (by cases h)⟩
  | some v => exact ⟨fun ⟨s, h, hs⟩ => ⟨s, hs, congrArg some h⟩, fun ⟨s, hs, h⟩ => ⟨s, Option.some.inj h, hs⟩⟩

theorem recordsOf_ok {f : Fields} {field message : String} {fs : List Fields} :
    recordsOf f field message = .ok fs ↔ OwnIR.getD f field (.arr []) = .arr (fs.map .obj) := by
  unfold recordsOf
  rw [require_ok, Option.bind_eq_some_iff]
  simp only [Json.asArr_iff, Json.objects_eq]
  exact ⟨fun ⟨_, h, hitems⟩ => hitems ▸ h, fun h => ⟨_, h, rfl⟩⟩

theorem recordsOf_iff {p : Fields → Prop} {v : Json} : RecordsOf p v ↔ ∃ fs :
    List Fields, v = .arr (fs.map .obj) ∧ ∀ f ∈ fs, p f := by
  constructor
  · rintro ⟨items, rfl, hall⟩
    induction items with
    | nil => exact ⟨[], rfl, fun _ h => absurd h List.not_mem_nil⟩
    | cons i rest ih =>
      obtain ⟨f, rfl, hf⟩ := hall i List.mem_cons_self
      obtain ⟨fs, hfs, hrest⟩ := ih fun i hi => hall i (List.mem_cons_of_mem _ hi)
      cases hfs
      exact ⟨f :: fs, rfl, List.forall_mem_cons.mpr ⟨hf, hrest⟩⟩
  · rintro ⟨fs, rfl, hall⟩
    refine ⟨_, rfl, fun i hi => ?_⟩
    obtain ⟨f, hf, rfl⟩ := List.mem_map.mp hi
    exact ⟨f, rfl, hall f hf⟩

/-- A list of records, each of which is checked. -/
theorem records_ok {f : Fields} {field message : String} {g : Fields → Except LoadError Unit} {p : Fields → Prop}
    (h : ∀ r, g r = .ok () ↔ p r) :
    (recordsOf f field message >>= fun rs => each (fun _ r => g r) rs) = .ok () ↔ Opt (RecordsOf p) f field := by
  rw [bind_ok, ← opt_getD (d := .arr []) ⟨[], rfl, fun _ h => absurd h List.not_mem_nil⟩, recordsOf_iff]
  refine exists_congr fun fs => ?_
  rw [recordsOf_ok, each_ok (p := p) fun _ r _ => h r]

theorem loadSubscription_ok {s : Fields} : loadSubscription s = .ok () ↔ SubscriptionOk s := by
  unfold loadSubscription
  simp only [bind_ok, refuse_ok, require_ok, Json.asStr_iff, checkLine_ok, checkColumn_ok, checkOptText_ok]
  have hresource : Among resourceKinds (OwnIR.getD s "resource" (.str "subscription")) ↔ Opt (Among resourceKinds) s "resource" :=
    opt_getD ⟨"subscription", by decide, rfl⟩
  constructor
  · rintro ⟨kind, hkind, _, hin, _, hline, _, hcolumn, _, htype, _, hsource, _, hprovenance, hreason⟩
    exact ⟨hresource.mp ⟨kind, hin, hkind⟩, hline, hcolumn, htype, hsource, hprovenance, hreason⟩
  · rintro ⟨hkind, hline, hcolumn, htype, hsource, hprovenance, hreason⟩
    obtain ⟨kind, hin, hkind⟩ := hresource.mpr hkind
    exact ⟨kind, hkind, (), hin, (), hline, (), hcolumn, (), htype, (), hsource, (), hprovenance, hreason⟩

theorem loadComponent_ok {c : Fields} : loadComponent c = .ok () ↔ ComponentOk c := records_ok fun _ => loadSubscription_ok

theorem isSite_iff {v : Json} : isSite v = true ↔ ∃ x, v = .obj x ∧ Opt IsText x "type" ∧ Opt IsText x "file" ∧
    ∃ n, OwnIR.getD x "line" (.int 0) = .int n := by
  have htype : ∀ x : Fields, IsText (OwnIR.getD x "type" (.str "")) ↔ Opt IsText x "type" := fun _ => opt_getD ⟨"", rfl⟩
  have hfile : ∀ x : Fields, IsText (OwnIR.getD x "file" (.str "?")) ↔ Opt IsText x "file" := fun _ => opt_getD ⟨"?", rfl⟩
  unfold isSite
  simp only [Option.any_eq_true, Json.asObj_iff, Bool.and_eq_true, isText_iff, and_assoc, htype, hfile]
  simp only [Option.isSome_iff_exists, Json.asInteger_iff]

theorem isLine_site {x : Fields} {n : Int} (h : OwnIR.getD x "line" (.int 0) = .int n) :
    0 ≤ siteLine (.obj x) ∧ siteLine (.obj x) ≤ lineMax ↔ Opt IsLine x "line" := by
  have hline : siteLine (.obj x) = n := by
    show (OwnIR.getD x "line" (.int 0)).asInteger.getD 0 = n
    rw [h]
    rfl
  rw [hline, ← opt_getD (p := IsLine) (d := .int 0) ⟨0, rfl, Int.le_refl 0, by decide⟩, h]
  exact ⟨fun hrange => ⟨n, rfl, hrange⟩, fun ⟨_, hn, hrange⟩ => by cases hn; exact hrange⟩

theorem loadSites_ok {s : Fields} {field who : String} : loadSites s field who = .ok () ↔ Opt (RecordsOf SiteOk) s field := by
  unfold loadSites
  rw [← opt_getD (p := RecordsOf SiteOk) (d := .arr []) ⟨[], rfl, fun _ h => absurd h List.not_mem_nil⟩, bind_ok]
  have heach : ∀ sites, each (fun _ site => checkLineDomain (siteLine site) who "line") sites = .ok () ↔
      ∀ site ∈ sites, 0 ≤ siteLine site ∧ siteLine site ≤ lineMax := fun _ => each_ok fun _ _ _ => checkLineDomain_ok
  simp only [require_ok, Option.filter_eq_some_iff, Json.asArr_iff, List.all_eq_true, heach]
  constructor
  · rintro ⟨sites, ⟨hsites, hall⟩, hlines⟩
    refine ⟨sites, hsites, fun i hi => ?_⟩
    obtain ⟨x, rfl, htype, hfile, n, hn⟩ := isSite_iff.mp (hall i hi)
    exact ⟨x, rfl, htype, hfile, (isLine_site hn).mp (hlines _ hi)⟩
  · rintro ⟨sites, hsites, hall⟩
    have hsite : ∀ i ∈ sites, isSite i = true ∧ 0 ≤ siteLine i ∧ siteLine i ≤ lineMax := by
      intro i hi
      obtain ⟨x, rfl, hx⟩ := hall i hi
      obtain ⟨n, hn, -⟩ := (opt_getD (p := IsLine) (d := .int 0) ⟨0, rfl, Int.le_refl 0, by decide⟩).mpr hx.line
      exact ⟨isSite_iff.mpr ⟨x, rfl, hx.type, hx.file, n, hn⟩, (isLine_site hn).mpr hx.line⟩
    exact ⟨sites, ⟨hsites, fun i hi => (hsite i hi).1⟩, fun i hi => (hsite i hi).2⟩

theorem loadService_ok {s : Fields} : loadService s = .ok () ↔ ServiceOk s := by
  unfold loadService
  simp only [seq_ok, checkIn_ok, checkName_ok, checkTexts_ok, checkText_ok, checkLine_ok, loadSites_ok]
  constructor
  · rintro ⟨h1, h2, h3, h4, h5, h6, h7, h8, h9, h10, h11, h12, h13⟩
    exact ⟨h1, h2, h3, h4, h5, h6, h7, h8, h9, h10, h11, h12, h13⟩
  · rintro ⟨h1, h2, h3, h4, h5, h6, h7, h8, h9, h10, h11, h12, h13⟩
    exact ⟨h1, h2, h3, h4, h5, h6, h7, h8, h9, h10, h11, h12, h13⟩

theorem loadBinding_ok {b : Fields} : loadBinding b = .ok () ↔ BindingOk b := by
  unfold loadBinding
  simp only [seq_ok, checkText_ok, checkTexts_ok, checkLine_ok]
  exact ⟨fun ⟨hname, hinit, hrefs, hline⟩ => ⟨hname, hinit, hrefs, hline⟩,
    fun ⟨hname, hinit, hrefs, hline⟩ => ⟨hname, hinit, hrefs, hline⟩⟩

theorem isBool_iff {v : Json} : v.asBool.isSome = true ↔ IsBool v := by
  rw [Option.isSome_iff_exists]
  exact exists_congr fun _ => Json.asBool_iff

theorem loadEffect_ok {eff : Fields} : loadEffect eff = .ok () ↔ EffectOk eff := by
  unfold loadEffect
  have hio : IsBool (OwnIR.getD eff "io" (.bool false)) ↔ Opt IsBool eff "io" := opt_getD ⟨false, rfl⟩
  rw [seq_ok, checkTexts_ok, seq_ok, refuse_ok, isBool_iff, hio, seq_ok, checkLine_ok, records_ok fun _ => loadBinding_ok]
  exact ⟨fun ⟨hdeps, hio, hline, hbindings⟩ => ⟨hdeps, hio, hline, hbindings⟩,
    fun ⟨hdeps, hio, hline, hbindings⟩ => ⟨hdeps, hio, hline, hbindings⟩⟩

theorem checkFlowCoordinates_ok {who : String} {n : Nat} {v : Json} : checkFlowCoordinates who n v = .ok () ↔ FlowOk n v := by
  induction n generalizing v with
  | zero => exact refuse_ok
  | succ n ih =>
    cases v with
    | arr nodes =>
      rw [checkFlowCoordinates, FlowOk, each_ok (p := fun op => ∀ f, op = .obj f → Opt IsLine f "line" ∧
        Opt (OrNull IsColumn) f "column" ∧
        FlowOk n (Json.get f "then") ∧ FlowOk n (Json.get f "else") ∧ FlowOk n (Json.get f "body")) fun _ op _ => ?_]
      · exact ⟨fun h _ hv => by cases hv; exact h, fun h => h nodes rfl⟩
      · cases op with
        | obj f =>
          simp only [seq_ok, checkLine_ok, checkColumn_ok, ih]
          exact ⟨fun h _ hf => by cases hf; exact h, fun h => h f rfl⟩
        | _ => exact iff_of_true rfl fun _ hf => (by cases hf)
    | _ => exact iff_of_true rfl fun _ hv => (by cases hv)

theorem loadParam_ok {p : Fields} : loadParam p = .ok () ↔ ParamOk p := by
  have heffect : ∀ message : Json → String, (match Json.get p "effect" with
      | .null => .ok ()
      | peff => checkIn peff paramEffects (message peff)) = Except.ok () ↔ Opt (OrNull (Among paramEffects)) p "effect" := by
    intro message
    rw [← opt_get]
    generalize Json.get p "effect" = v
    unfold OrNull
    cases v with
    | null => exact iff_of_true rfl (.inl rfl)
    | _ => simp only [checkIn_ok, reduceCtorEq, false_or]
  unfold loadParam
  rw [seq_ok, checkName_ok, seq_ok, checkLine_ok, seq_ok, checkColumn_ok]
  constructor
  · rintro ⟨hname, hline, hcolumn, h⟩
    exact ⟨hname, hline, hcolumn, (heffect _).mp h⟩
  · rintro ⟨hname, hline, hcolumn, h⟩
    exact ⟨hname, hline, hcolumn, (heffect _).mpr h⟩

theorem loadFunction_ok {f : Fields} : loadFunction f = .ok () ↔ FunctionOk f := by
  unfold loadFunction
  rw [seq_ok, checkOptText_ok, seq_ok, checkFlowCoordinates_ok, records_ok fun _ => loadParam_ok]
  exact ⟨fun ⟨hsig, hbody, hparams⟩ => ⟨hsig, hbody, hparams⟩, fun ⟨hsig, hbody, hparams⟩ => ⟨hsig, hbody, hparams⟩⟩

theorem requireStr_ok {raw : Fields} {key ctx s : String} : requireStr raw key ctx = .ok s ↔ NameIs raw key s := by
  unfold requireStr NameIs
  rw [require_ok, Option.filter_eq_some_iff, Json.get_eq, Json.asStr_iff, decide_eq_true_eq, and_comm]
  refine and_congr_right fun _ => ?_
  cases Json.lookup raw key with
  | none => exact ⟨fun h => (by cases h), fun h => (by cases h)⟩
  | some v => exact ⟨congrArg some, Option.some.inj⟩

theorem flagOf_ok {raw : Fields} {key : String} {message : Json → String} {value : Option Bool} :
    flagOf raw key message = .ok value ↔ FlagIs raw key value := by
  unfold flagOf FlagIs
  cases Json.get raw key <;> cases value <;> simp

theorem argOf_ok {raw : Fields} {ctx : String} {arg : Option String} : argOf raw ctx = .ok arg ↔ OptTextIs raw "arg" arg := by
  unfold argOf OptTextIs
  cases Json.get raw "arg" <;> cases arg <;> simp

theorem optLine_ok {raw : Fields} {ctx : String} {line : Int} : optLine raw ctx = .ok line ↔ LineIs raw line := by
  unfold optLine LineIs int64Min int64Max lineMax
  simp only [bind_ok, require_ok, Json.asInteger_iff, refuse_ok, Except.ok.injEq]
  constructor
  · rintro ⟨n, hn, _, -, _, hrange, rfl⟩
    exact ⟨hn, hrange⟩
  · rintro ⟨hn, hrange⟩
    exact ⟨line, hn, (), ⟨by omega, by omega⟩, (), hrange, rfl⟩

/-- The vocabulary of two: what is not the one is the other. -/
theorem among_matcher {v : Json} (h : Among matcherKinds v) : v = .str "assign" ∨ v = .str "call" := by
  obtain ⟨s, hs, rfl⟩ := h
  simp only [matcherKinds, List.mem_cons, List.not_mem_nil, or_false] at hs
  exact hs.imp (congrArg Json.str) (congrArg Json.str)

theorem stringsOf_ok {f : Fields} {key : String} {ss : List String} :
    (OwnIR.getD f key (.arr [])).asArr.bind Json.strings = some ss ↔ OwnIR.getD f key (.arr []) = .arr (ss.map .str) := by
  rw [Option.bind_eq_some_iff]
  simp only [Json.asArr_iff, Json.strings_eq]
  exact ⟨fun ⟨_, h, hitems⟩ => hitems ▸ h, fun h => ⟨_, h, rfl⟩⟩

theorem parseMatcher_ok {requireValue : Bool} {ctx : String} {raw : Json} {m : Matcher} :
    parseMatcher requireValue ctx raw = .ok m ↔ IsMatcher requireValue raw m := by
  unfold parseMatcher IsMatcher
  rw [bind_ok]
  refine exists_congr fun f => ?_
  rw [require_ok, Json.asObj_iff]
  refine and_congr_right fun _ => ?_
  rw [seq_ok, checkIn_ok]
  constructor
  · rintro ⟨hkind, h⟩
    rcases among_matcher hkind with hkind | hkind
    · rw [if_pos (Json.asStr_iff.mpr hkind)] at h
      simp only [bind_ok, requireStr_ok, flagOf_ok, refuse_ok, Except.ok.injEq] at h
      obtain ⟨target, htarget, value, hvalue, _, hrequired, rfl⟩ := h
      exact .assign hkind htarget hvalue hrequired
    · have hno : ¬(Json.get f "kind").asStr = some "assign" := by
        rw [hkind]
        decide
      rw [if_neg hno] at h
      simp only [bind_ok, requireStr_ok, require_ok, stringsOf_ok, Except.ok.injEq] at h
      obtain ⟨callee, hcallee, args, hargs, rfl⟩ := h
      exact .call hkind hcallee hargs
  · intro h
    cases h with
    | assign hkind htarget hvalue hrequired =>
      refine ⟨⟨"assign", by decide, hkind⟩, ?_⟩
      rw [if_pos (Json.asStr_iff.mpr hkind)]
      simp only [bind_ok, requireStr_ok, flagOf_ok, refuse_ok]
      exact ⟨_, htarget, _, hvalue, (), hrequired, rfl⟩
    | call hkind hcallee hargs =>
      have hno : ¬(Json.get f "kind").asStr = some "assign" := by
        rw [hkind]
        decide
      refine ⟨⟨"call", by decide, hkind⟩, ?_⟩
      rw [if_neg hno]
      simp only [bind_ok, requireStr_ok, require_ok, stringsOf_ok]
      exact ⟨_, hcallee, _, hargs, rfl⟩

theorem parseMatchers_ok {raw : Fields} {key ctx what : String} {ms : List Matcher} :
    parseMatchers raw key ctx what = .ok ms ↔ MatchersAre raw key ms := by
  unfold parseMatchers MatchersAre
  rw [bind_ok]
  refine exists_congr fun items => ?_
  rw [require_ok, Json.asArr_iff, mapEach_ok (R := IsMatcher false) fun _ _ _ _ => parseMatcher_ok]

theorem isSome_get {f : Fields} {key : String} {P : Json → Prop} :
    (Json.lookup f key).isSome = true ∧ P (Json.get f key) ↔ ∃ raw, Json.lookup f key = some raw ∧ P raw := by
  rw [Json.get_eq]
  cases Json.lookup f key with
  | none => exact ⟨fun h => (by cases h.1), fun ⟨_, h, _⟩ => (by cases h)⟩
  | some v => exact ⟨fun h => ⟨v, rfl, h.2⟩, fun ⟨_, h, hp⟩ => by cases h; exact ⟨rfl, hp⟩⟩

theorem parseProtocol_ok {raw : Json} {p : Protocol} : parseProtocol raw = .ok p ↔ IsProtocol raw p := by
  unfold parseProtocol IsProtocol
  rw [bind_ok]
  refine exists_congr fun f => ?_
  rw [require_ok, Json.asObj_iff]
  refine and_congr_right fun _ => ?_
  have hmethods : ∀ (scope : Fields) (ms : List String),
      ((OwnIR.getD scope "methods" (.arr [])).asArr.bind Json.strings).filter (fun ms => ms.all fun m => m ≠ "") = some ms ↔
        OwnIR.getD scope "methods" (.arr []) = .arr (ms.map .str) ∧ ∀ m ∈ ms, m ≠ "" := by
    intro scope ms
    rw [Option.filter_eq_some_iff, stringsOf_ok]
    simp only [List.all_eq_true, decide_eq_true_eq]
  simp only [bind_ok, requireStr_ok, refuse_ok, parseMatcher_ok, parseMatchers_ok, require_ok,
    Json.asBool_iff, Json.asObj_iff, Json.asStr_iff, hmethods,
    Except.ok.injEq]
  constructor
  · rintro ⟨name, hname, _, ⟨hopens, hcloses⟩, opens, ho, closes, hc, barriers, hbarriers, allow,
      hallow, exit, hexit, _, hfires, _, hlive,
      scope, hscope, methods, hms, desc, hdesc, rfl⟩
    exact ⟨hname, isSome_get.mp ⟨hopens, ho⟩, isSome_get.mp ⟨hcloses, hc⟩, hbarriers, hallow, hexit, hfires, hlive,
      ⟨scope, hscope, hms.1, hms.2⟩, hdesc⟩
  · intro h
    obtain ⟨hopens, ho⟩ := isSome_get.mpr h.opens
    obtain ⟨hcloses, hc⟩ := isSome_get.mpr h.closes
    obtain ⟨scope, hscope, hms⟩ := h.scope
    exact ⟨p.name, h.name, (), ⟨hopens, hcloses⟩, p.opens, ho, p.closes, hc, p.barriers, h.barriers,
      p.allow, h.allow, p.exitBarriers,
      h.exitBarriers, (), h.fires, (), h.live, scope, hscope, p.methods, hms, p.description, h.description, rfl⟩

theorem among_event {v : Json} (h : Among eventKinds v) :
    v = .str "assign" ∨ v = .str "call" ∨ v = .str "if" ∨ v = .str "return" ∨ v = .str "throw" ∨ v = .str "while" := by
  obtain ⟨s, hs, rfl⟩ := h
  simp only [eventKinds, List.mem_cons, List.not_mem_nil, or_false] at hs
  simpa only [Json.str.injEq] using hs

/-- What an event is parsed as, of bodies that are parsed as `R` says. -/
theorem parseEvent_ok {sub : Json → Except LoadError (List Event)} {R : Json → List Event → Prop}
    (hsub : ∀ raw events, sub raw = .ok events ↔ R raw events) {ctx : String} {e : Json} {event : Event} :
    parseEvent sub ctx e = .ok event ↔ ∃ f, e = .obj f ∧ EventReads R f event := by
  unfold parseEvent
  rw [bind_ok]
  refine exists_congr fun f => ?_
  rw [require_ok, Json.asObj_iff]
  refine and_congr_right fun _ => ?_
  rw [seq_ok, checkIn_ok, bind_ok]
  constructor
  · rintro ⟨hev, line, hline, h⟩
    have hline := optLine_ok.mp hline
    rcases among_event hev with hev | hev | hev | hev | hev | hev <;> rw [hev] at h
    · simp only [bind_ok, requireStr_ok, flagOf_ok, Except.ok.injEq] at h
      obtain ⟨target, htarget, value, hvalue, rfl⟩ := h
      exact .assign hev hline htarget hvalue
    · simp only [bind_ok, requireStr_ok, argOf_ok, Except.ok.injEq] at h
      obtain ⟨callee, hcallee, arg, harg, rfl⟩ := h
      exact .call hev hline hcallee harg
    · obtain ⟨thenEvents, hthen, h⟩ := bind_ok.mp h
      obtain ⟨elseEvents, helse, h⟩ := bind_ok.mp h
      cases h
      exact .ite hev hline ((hsub _ _).mp hthen) ((hsub _ _).mp helse)
    · cases h
      exact .ret hev hline
    · cases h
      exact .throw hev hline
    · obtain ⟨body, hbody, h⟩ := bind_ok.mp h
      cases h
      exact .loop hev hline ((hsub _ _).mp hbody)
  · intro h
    cases h with
    | assign hev hline htarget hvalue =>
      refine ⟨⟨_, by decide, hev⟩, _, optLine_ok.mpr hline, ?_⟩
      rw [hev]
      exact bind_ok.mpr ⟨_, requireStr_ok.mpr htarget, bind_ok.mpr ⟨_, flagOf_ok.mpr hvalue, rfl⟩⟩
    | call hev hline hcallee harg =>
      refine ⟨⟨_, by decide, hev⟩, _, optLine_ok.mpr hline, ?_⟩
      rw [hev]
      exact bind_ok.mpr ⟨_, requireStr_ok.mpr hcallee, bind_ok.mpr ⟨_, argOf_ok.mpr harg, rfl⟩⟩
    | ret hev hline =>
      refine ⟨⟨_, by decide, hev⟩, _, optLine_ok.mpr hline, ?_⟩
      rw [hev]
      rfl
    | throw hev hline =>
      refine ⟨⟨_, by decide, hev⟩, _, optLine_ok.mpr hline, ?_⟩
      rw [hev]
      rfl
    | ite hev hline hthen helse =>
      refine ⟨⟨_, by decide, hev⟩, _, optLine_ok.mpr hline, ?_⟩
      rw [hev]
      exact bind_ok.mpr ⟨_, (hsub _ _).mpr hthen, bind_ok.mpr ⟨_, (hsub _ _).mpr helse, rfl⟩⟩
    | loop hev hline hbody =>
      refine ⟨⟨_, by decide, hev⟩, _, optLine_ok.mpr hline, ?_⟩
      rw [hev]
      exact bind_ok.mpr ⟨_, (hsub _ _).mpr hbody, rfl⟩

theorem parseEvents_ok {ctx : String} {n : Nat} {raw : Json} {events : List Event} :
    parseEvents ctx n raw = .ok events ↔ EventsRead n raw events := by
  induction n generalizing raw events with
  | zero => exact ⟨fun h => (by cases h), False.elim⟩
  | succ n ih =>
    rw [parseEvents, EventsRead, bind_ok]
    refine exists_congr fun items => ?_
    rw [require_ok, Json.asArr_iff, mapEach_ok fun _ _ _ _ => parseEvent_ok fun _ _ => ih]

theorem parseMethod_ok {raw : Json} {m : MethodEvents} : parseMethod raw = .ok m ↔ IsMethod raw m := by
  unfold parseMethod IsMethod
  rw [bind_ok]
  refine exists_congr fun f => ?_
  rw [require_ok, Json.asObj_iff]
  refine and_congr_right fun _ => ?_
  simp only [bind_ok, requireStr_ok, require_ok, Json.asStr_iff, parseEvents_ok, Except.ok.injEq]
  constructor
  · rintro ⟨name, hname, file, hfile, events, hevents, rfl⟩
    exact ⟨hname, hfile, hevents⟩
  · exact fun h => ⟨m.name, h.name, m.file, h.file, m.events, h.events, rfl⟩

theorem loadVersion_ok {minusZero : Bool} {top : Fields} :
    loadVersion minusZero top = .ok () ↔ minusZero = false ∧ Opt IsVersion top "ownir_version" := by
  unfold loadVersion
  rw [seq_ok, refuse_ok, bind_ok, ← opt_getD (p := IsVersion) (d := .int 2) rfl]
  simp only [require_ok, Json.asInteger_iff, refuse_ok]
  refine and_congr_right fun _ => ⟨fun ⟨n, hn, h⟩ => ?_, fun h => ⟨2, h, rfl⟩⟩
  subst h
  exact hn

theorem loadOrphan_ok {o : Fields} : loadOrphan o = .ok () ↔ OrphanOk o := by
  unfold loadOrphan checkText
  have hfamily : ((Json.get o "family").isNull = true ∨ ((Json.get o "family").asStr.any fun s => s ∈ orphanFamilies) = true) ↔
      Opt (OrNull (Among orphanFamilies)) o "family" := by
    rw [← opt_get, isNull_iff, among_iff]
    rfl
  simp only [checkName_ok, bind_ok, refuse_ok, isText_iff, require_ok, Json.asInteger_iff, checkLineDomain_ok, checkColumn_ok,
    checkOptText_ok, hfamily]
  constructor
  · rintro ⟨_, hlocal, _, hcallee, _, hfile, n, hn, _, hrange, _, hcolumn, _, hmethod, _, hfam, hresult⟩
    exact ⟨hlocal, hcallee, hfile, ⟨n, hn, hrange⟩, hcolumn, hmethod, hfam, hresult⟩
  · rintro ⟨hlocal, hcallee, hfile, ⟨n, hn, hrange⟩, hcolumn, hmethod, hfam, hresult⟩
    exact ⟨(), hlocal, (), hcallee, (), hfile, n, hn, (), hrange, (), hcolumn, (), hmethod, (), hfam, hresult⟩

theorem loadNames_ok {items : List Json} {seen : List String} : loadProtocols.loadNames seen items = .ok () ↔
    ∃ protocols, List.Forall₂ IsProtocol items protocols ∧ (protocols.map Protocol.name).Nodup ∧
      ∀ p ∈ protocols, p.name ∉ seen := by
  induction items generalizing seen with
  | nil =>
    exact iff_of_true rfl ⟨[], .nil, List.nodup_nil, fun _ h => absurd h List.not_mem_nil⟩
  | cons raw rest ih =>
    rw [loadProtocols.loadNames, bind_ok]
    simp only [parseProtocol_ok, seq_ok, refuse_ok, ih]
    constructor
    · rintro ⟨p, hp, hseen, ps, hps, hn, hdisj⟩
      refine ⟨p :: ps, .cons hp hps, List.nodup_cons.mpr ⟨fun hin => ?_, hn⟩,
        List.forall_mem_cons.mpr ⟨hseen, fun p' hp' hin => ?_⟩⟩
      · obtain ⟨p', hp', heq⟩ := List.mem_map.mp hin
        exact hdisj p' hp' (heq ▸ List.mem_cons_self)
      · exact hdisj p' hp' (List.mem_cons_of_mem _ hin)
    · rintro ⟨_, hall, hn, hdisj⟩
      cases hall with
      | @cons _ p _ ps hp hps =>
        obtain ⟨hout, hn⟩ := List.nodup_cons.mp hn
        obtain ⟨hseen, hdisj⟩ := List.forall_mem_cons.mp hdisj
        refine ⟨p, hp, hseen, ps, hps, hn, fun p' hp' hin => ?_⟩
        rcases List.mem_cons.mp hin with heq | hin
        · exact hout (List.mem_map.mpr ⟨p', hp', heq⟩)
        · exact hdisj p' hp' hin

theorem loadProtocols_ok {top : Fields} : loadProtocols top = .ok () ↔ Opt ProtocolsOk top "protocols" := by
  unfold loadProtocols
  rw [← opt_getD (p := ProtocolsOk) (d := .arr []) ⟨[], [], rfl, .nil, List.nodup_nil⟩, bind_ok]
  refine exists_congr fun items => ?_
  rw [require_ok, Json.asArr_iff, loadNames_ok]
  constructor
  · rintro ⟨hitems, protocols, hall, hn, -⟩
    exact ⟨protocols, hitems, hall, hn⟩
  · rintro ⟨protocols, hitems, hall, hn⟩
    exact ⟨hitems, protocols, hall, hn, fun _ _ => List.not_mem_nil⟩

theorem parseMethod_unit {raw : Json} : (parseMethod raw >>= fun _ => Except.ok ()) = .ok () ↔ ∃ m, IsMethod raw m := by
  rw [bind_ok]
  exact exists_congr fun _ => ⟨fun h => parseMethod_ok.mp h.1, fun h => ⟨parseMethod_ok.mpr h, rfl⟩⟩

theorem loadProtocolFunctions_ok {top : Fields} :
    loadProtocolFunctions top = .ok () ↔ Opt (ArrayOf fun raw => ∃ m, IsMethod raw m) top "protocol_functions" := by
  unfold loadProtocolFunctions
  rw [← opt_getD (p := ArrayOf fun raw => ∃ m, IsMethod raw m) (d := .arr []) ⟨[], rfl,
    fun _ h => absurd h List.not_mem_nil⟩, bind_ok]
  refine exists_congr fun items => ?_
  rw [require_ok, Json.asArr_iff, each_ok (p := fun raw => ∃ m, IsMethod raw m) fun _ _ _ => parseMethod_unit]

/-- A document is accepted exactly where it keeps the grammar. -/
theorem load_ok {minusZero : Bool} {result facts : Json} :
    load minusZero result = .ok facts ↔ facts = result ∧ minusZero = false ∧ ∃ top, result = .obj top ∧ DocumentOk top := by
  unfold load loadSection
  rw [bind_ok]
  simp only [require_ok, Json.asObj_iff, seq_ok, loadVersion_ok, records_ok fun _ => loadComponent_ok,
    records_ok fun _ => loadService_ok,
    records_ok fun _ => loadEffect_ok, records_ok fun _ => loadFunction_ok, loadProtocols_ok, loadProtocolFunctions_ok,
    records_ok fun _ => loadOrphan_ok, Except.ok.injEq]
  constructor
  · rintro ⟨top, htop, ⟨hzero, hversion⟩, hcomponents, hservices, heffects, hfunctions, hprotocols, hmethods, horphans, heq⟩
    exact ⟨heq.symm, hzero, top, htop, hversion, hcomponents, hservices, heffects, hfunctions, hprotocols, hmethods, horphans⟩
  · rintro ⟨heq, hzero, top, htop, h⟩
    exact ⟨top, htop, ⟨hzero, h.version⟩, h.components, h.services, h.effects, h.functions, h.protocols, h.protocolFunctions,
      h.orphanedAwaitables, heq.symm⟩

end OwnNet.Facts
