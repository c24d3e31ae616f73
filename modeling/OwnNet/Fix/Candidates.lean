/-
  OwnNet.Fix.Candidates — `collect_candidates` and `validate_candidates_bundle`: the candidates
  of one class, written out as a document, and the contract every later step reads it by.

  Outside the model are the hash and the file system: `Sha` is any hash with the digests of
  one, `Root` what a source root answers.

  Proved: `collect_spec`: what a collected candidate is; `validateCandidatesBundle_json`: when
  the document of an envelope keeps the contract (`Envelope.Valid`).
-/

import OwnNet.Checks
import OwnNet.Json.Dumps
import OwnNet.OwnIR.Nodes

namespace OwnNet.Fix

open Checks

/-! ## Texts -/

/-- `text.split(sep)`, of a text read past the `skip` characters of a separator. -/
def splitFrom (sep : List Char) (skip : Nat) (cur : List Char) : List Char → List (List Char)
  | [] => [cur]
  | c :: rest =>
    if 0 < skip then splitFrom sep (skip - 1) cur rest
    else if sep.isPrefixOf (c :: rest) then cur :: splitFrom sep (sep.length - 1) [] rest
    else splitFrom sep 0 (cur ++ [c]) rest

def split (sep text : String) : List (List Char) := splitFrom sep.toList 0 [] text.toList

def isHex (c : Char) : Bool := "0123456789abcdef".toList.contains c

/-- Sixty-four digits in base sixteen. -/
def isDigest (cs : List Char) : Bool := cs.length = 64 ∧ cs.all isHex

def isSha256 (v : String) : Bool := "sha256:".toList.isPrefixOf v.toList && isDigest (v.toList.drop 7)

def isFindingId (v : String) : Bool :=
  match split ":sha256:" v with
  | [rule, digest] => "OWN".toList.isPrefixOf rule && isDigest digest
  | _ => false

/-- Forward slashes, no root, no drive. -/
def isRelative (v : String) : Bool :=
  v ≠ "" ∧ v.toList.head? ≠ some '/' ∧ ¬v.toList.contains '\\' ∧ v.toList[1]? ≠ some ':'

/-- Only real segments. -/
def isSegmented (v : String) : Bool := (split "/" v).all fun seg => ¬["".toList, ".".toList, "..".toList].contains seg

abbrev CollectError := String

def requireSha256 (v ctx : String) : Except CollectError Unit :=
  ensure (isSha256 v) (ctx ++ ": " ++ OwnIR.reprStr v ++ " is not a 'sha256:<64hex>' value")

def requireFindingId (v ctx : String) : Except CollectError Unit :=
  ensure (isFindingId v) (ctx ++ ": malformed finding_id " ++ OwnIR.reprStr v)

def requireCanonicalRelpath (v ctx : String) : Except CollectError Unit :=
  ensure (isRelative v && isSegmented v) (ctx ++ ": " ++ OwnIR.reprStr v ++ " is not a canonical root-relative path")

/-! ## Fields -/

abbrev Fields := List (String × Json)

/-- `_field`: a field that is to be there, of this kind. -/
def field {α : Type} (kind : String) (read : Json → Option α) (obj : Fields) (key ctx : String) : Except CollectError α :=
  match Json.lookup obj key with
  | none => .error (ctx ++ ": missing field " ++ OwnIR.reprStr key)
  | some v => require (read v) (ctx ++ ": field " ++ OwnIR.reprStr key ++ " must be " ++ kind ++ ", got " ++ v.typeName)

def strField : Fields → String → String → Except CollectError String := field "str" Json.asStr

def intField : Fields → String → String → Except CollectError Int := field "int" Json.asInteger

def boolField : Fields → String → String → Except CollectError Bool := field "bool" Json.asBool

def listField : Fields → String → String → Except CollectError (List Json) := field "list" Json.asArr

def dictField : Fields → String → String → Except CollectError Fields := field "dict" Json.asObj

theorem field_ok {α : Type} {kind : String} {read : Json → Option α} {obj : Fields} {key ctx : String} {a : α} :
    field kind read obj key ctx = .ok a ↔ (Json.lookup obj key).bind read = some a := by
  unfold field
  cases Json.lookup obj key with
  | none => exact ⟨fun h => (by cases h), fun h => (by cases h)⟩
  | some v => exact require_ok

def spanInts : List String := ["start", "length", "start_line", "start_column", "end_line", "end_column"]

def validateSpan (span : Json) (ctx : String) : Except CollectError Unit :=
  match span with
  | .obj s => each (fun _ k => intField s k (ctx ++ ".span") >>= fun _ => .ok ()) spanInts
  | _ => .error (ctx ++ ": span must be an object")

def teardownStates : List String := ["none", "exact", "ambiguous"]

def validateTeardown (td : Json) (ctx : String) : Except CollectError Unit :=
  match td with
  | .obj t =>
    strField t "status" (ctx ++ ".teardown") >>= fun status =>
    ensure (status ∈ teardownStates) (ctx ++ ".teardown: unknown status " ++ OwnIR.reprStr status) >>= fun _ =>
    listField t "candidates" (ctx ++ ".teardown") >>= fun cands =>
    each (fun i cand =>
      let cctx := ctx ++ ".teardown.candidates[" ++ toString i ++ "]"
      match cand with
      | .obj c =>
        strField c "source" cctx >>= fun _ =>
        strField c "handler" cctx >>= fun _ =>
        strField c "match" cctx >>= fun _ =>
        validateSpan (Json.get c "span") cctx
      | _ => .error (cctx ++ ": must be an object")) cands
  | _ => .error (ctx ++ ": teardown must be an object")

/-! ## The collection -/

/-- A hash, by the sixty-four digits of what it gives. -/
structure Sha where
  hex : String → String
  digest : ∀ text, isDigest (hex text).toList = true

/-- What a source root answers: where a path leads, in canonical form and on the disk, and the
    digest of a file, where it can be read. -/
structure Root where
  resolve : String → Except CollectError (String × String)
  shaFile : String → Option String

/-- `_bundle`: one candidate. -/
structure CandidateRecord where
  findingId : String
  diagnosticCode : String
  containingType : String
  file : String
  enclosingMember : String
  event : String
  eventIdentity : String
  eventContract : String
  source : String
  sourceIdentity : String
  sourceIdentityKind : String
  handler : String
  handlerIdentity : String
  handlerIdentityKind : String
  occurrenceOrdinal : Int
  acquireSpan : Json
  teardown : Json
  allowedActions : List String

def CandidateRecord.json (c : CandidateRecord) : Json :=
  .obj [("finding_id", .str c.findingId), ("diagnostic_code", .str c.diagnosticCode), ("containing_type", .str c.containingType),
    ("file", .str c.file), ("enclosing_member", .str c.enclosingMember), ("event", .str c.event),
    ("event_identity", .str c.eventIdentity), ("event_contract", .str c.eventContract), ("source", .str c.source),
    ("source_identity", .str c.sourceIdentity), ("source_identity_kind", .str c.sourceIdentityKind), ("handler", .str c.handler),
    ("handler_identity", .str c.handlerIdentity), ("handler_identity_kind", .str c.handlerIdentityKind),
    ("occurrence_ordinal", .int c.occurrenceOrdinal), ("acquire_span", c.acquireSpan), ("teardown", c.teardown),
    ("allowed_actions", .arr (c.allowedActions.map .str))]

/-- `candidates.json`, for the one class and its one file. -/
structure Envelope where
  targetSubscribe : String
  classFqn : String
  classFile : String
  selectedFindings : Option (List String)
  sourceSha : String
  candidates : List CandidateRecord

def constraintsJson : Json :=
  .obj [("max_types_changed", .int 1), ("max_files_changed", .int 1), ("allow_helper_changes", .bool false),
    ("allow_config_changes", .bool false), ("allow_suppressions", .bool false)]

def selectedJson : Option (List String) → Json
  | some ids => .arr (ids.map .str)
  | none => .null

def Envelope.targetJson (e : Envelope) : Json := .obj [("subscribe", .str e.targetSubscribe)]

def Envelope.selectionJson (e : Envelope) : Json :=
  .obj [("allowed_types", .arr [.obj [("full_name", .str e.classFqn), ("file", .str e.classFile)]]),
    ("selected_findings", selectedJson e.selectedFindings), ("constraints", constraintsJson)]

def Envelope.sourcesJson (e : Envelope) : Json := .arr [.obj [("path", .str e.classFile), ("sha256", .str e.sourceSha)]]

def Envelope.json (e : Envelope) : Json :=
  .obj [("version", .int 1), ("operation", .str "fix-subscriptions"), ("target_api", e.targetJson),
    ("selection", e.selectionJson),
    ("source_files", e.sourcesJson), ("candidates", .arr (e.candidates.map CandidateRecord.json))]

/-- The text after the last dot. -/
def simpleName (name : String) : String := String.ofList (name.toList.reverse.takeWhile (· ≠ '.')).reverse

/-- The text before the last dot, where there is one. -/
def sourceDisplay (event : String) : String :=
  if event.toList.contains '.' then String.ofList ((event.toList.reverse.dropWhile (· ≠ '.')).drop 1).reverse else "this"

def fixStrFields : List String :=
  ["enclosing_member", "event_identity", "event_contract", "source_identity", "source_identity_kind", "handler_identity",
    "handler_identity_kind"]

def validateFix (fx : Json) (ctx : String) : Except CollectError Fields :=
  match fx with
  | .obj f =>
    each (fun _ k => strField f k ctx >>= fun _ => .ok ()) fixStrFields >>= fun _ =>
    intField f "occurrence_ordinal" ctx >>= fun _ =>
    validateSpan (Json.get f "span") ctx >>= fun _ =>
    validateTeardown (Json.get f "teardown") ctx >>= fun _ => .ok f
  | _ => .error (ctx ++ ": fix must be an object")

section

variable (sha : Sha)

def nul : String := String.ofList [Char.ofNat 0]

/-- `finding_id`: an identity without lines. -/
def findingId (containingType enclosingMember eventIdentity sourceIdentity handlerIdentity : String) (ordinal : Int) : String :=
  "OWN001:sha256:" ++ sha.hex (nul.intercalate
    ["own-fix-subscription-v1", containingType, enclosingMember, eventIdentity, sourceIdentity,
      handlerIdentity, toString ordinal])

def textOf (fields : Fields) (key : String) : String := (Json.get fields key).asStr.getD ""

def intOf (fields : Fields) (key : String) : Int := (Json.get fields key).asInteger.getD 0

/-- `_bundle`, of a subscription and its fix, both read before. -/
def bundleOf (sub fx : Fields) (classFqn fileRel : String) : CandidateRecord where
  findingId := findingId sha classFqn (textOf fx "enclosing_member") (textOf fx "event_identity") (textOf fx "source_identity")
    (textOf fx "handler_identity") (intOf fx "occurrence_ordinal")
  diagnosticCode := if textOf sub "resource" = "capture" then "OWN014" else "OWN001"
  containingType := classFqn
  file := fileRel
  enclosingMember := textOf fx "enclosing_member"
  event := simpleName (textOf fx "event_identity")
  eventIdentity := textOf fx "event_identity"
  eventContract := textOf fx "event_contract"
  source := sourceDisplay (textOf sub "event")
  sourceIdentity := textOf fx "source_identity"
  sourceIdentityKind := textOf fx "source_identity_kind"
  handler := textOf sub "handler"
  handlerIdentity := textOf fx "handler_identity"
  handlerIdentityKind := textOf fx "handler_identity_kind"
  occurrenceOrdinal := intOf fx "occurrence_ordinal"
  acquireSpan := Json.get fx "span"
  teardown := Json.get fx "teardown"
  allowedActions :=
    if textOf fx "event_contract" = "inotify_property_changed" then ["convert_acquire", "manual_review"] else ["manual_review"]

/-- A subscription: a candidate where it has a fix and is not released. -/
def collectOne (classFqn classFile : String) (index : Nat) (sub : Json) : Except CollectError (Option CandidateRecord) :=
  let sctx := classFqn ++ ".subscriptions[" ++ toString index ++ "]"
  match sub with
  | .obj s =>
    match Json.get s "fix" with
    | .null => .ok none
    | fix =>
      boolField s "released" sctx >>= fun released =>
      if released then .ok none
      else
        strField s "event" sctx >>= fun _ =>
        strField s "handler" sctx >>= fun _ =>
        strField s "resource" sctx >>= fun _ =>
        validateFix fix sctx >>= fun fx => .ok (some (bundleOf sha s fx classFqn classFile))
  | _ => .error (sctx ++ ": must be an object")

/-- `_resolve_class` -/
def resolveClass (components : List Json) (classFqn : String) : Except CollectError Fields :=
  let named := components.filterMap fun c => c.asObj.filter fun f => (Json.get f "qualified_name").asStr = some classFqn
  let cctx := "component " ++ classFqn
  match named with
  | [] =>
    .error ("class " ++ OwnIR.reprStr classFqn ++
      " not found — scan with --fix-candidates and pass an exact fully-qualified name")
  | [comp] =>
    strField comp "file" cctx >>= fun _ =>
    listField comp "subscriptions" cctx >>= fun _ =>
    each (fun _ flag => boolField comp flag.1 cctx >>= fun set =>
      ensure (¬set) ("class " ++ OwnIR.reprStr classFqn ++ " is " ++ flag.2 ++ "; refused by MVP policy"))
      [("is_partial", "partial"), ("is_nested", "nested"), ("is_generated", "generated")] >>= fun _ => .ok comp
  | many =>
    .error ("class " ++ OwnIR.reprStr classFqn ++ " resolves to " ++ toString many.length ++
      " declarations (partial); refusing an ambiguous type")

/-- `_validate_version` -/
def validateVersion (facts : Fields) : Except CollectError (List Json) :=
  ensure ((Json.get facts "fix_candidates_version").asInteger = some 1)
    ("facts fix_candidates_version must be integer 1 (got " ++ OwnIR.repr (Json.get facts "fix_candidates_version") ++
      ") — produce facts with a compatible --fix-candidates extractor") >>= fun _ =>
  require (Json.get facts "components").asArr "facts.components must be a list"

def startOf (c : CandidateRecord) : Int :=
  match c.acquireSpan with
  | .obj s => intOf s "start"
  | _ => 0

/-- The order of the candidates: the file is one, so the start and then the id. -/
def comesBefore (a b : CandidateRecord) : Prop := startOf a < startOf b ∨ (startOf a = startOf b ∧ a.findingId ≤ b.findingId)

instance : DecidableRel comesBefore := fun a b =>
  inferInstanceAs (Decidable (startOf a < startOf b ∨ (startOf a = startOf b ∧ a.findingId ≤ b.findingId)))

/-- The candidates asked for; an id nobody has is an error. -/
def selectFindings (classFqn : String) (findingIds : Option (List String)) (all : List CandidateRecord) :
    Except CollectError (List CandidateRecord) :=
  match findingIds with
  | none => .ok all
  | some ids =>
    let missing := ids.filter fun fid => fid ∉ all.map CandidateRecord.findingId
    ensure (missing = []) ("finding id(s) not found in class " ++ classFqn ++ ": " ++ ", ".intercalate missing) >>= fun _ =>
    .ok (all.filter fun c => c.findingId ∈ ids)

/-- `collect_candidates` -/
def collectCandidates (root : Root) (facts : Fields) (targetSubscribe classFqn : String) (findingIds : Option (List String)) :
    Except CollectError Envelope :=
  validateVersion facts >>= fun components =>
  resolveClass components classFqn >>= fun comp =>
  root.resolve (textOf comp "file") >>= fun place =>
  mapEach (collectOne sha classFqn place.1) ((Json.get comp "subscriptions").asArr.getD []) >>= fun found =>
  selectFindings classFqn findingIds (found.filterMap id) >>= fun chosen =>
  require (root.shaFile place.2) ("cannot read source file " ++ OwnIR.reprStr place.2) >>= fun digest =>
  .ok { targetSubscribe := targetSubscribe, classFqn := classFqn, classFile := place.1, selectedFindings := findingIds
        sourceSha := digest, candidates := chosen.insertionSort comesBefore }

end

/-! ## The contract -/

def texts : List Json → Option (List String)
  | [] => some []
  | .str s :: rest => (texts rest).map (s :: ·)
  | _ => none

theorem texts_map (ids : List String) : texts (ids.map .str) = some ids := by
  induction ids with
  | nil => rfl
  | cons s rest ih => rw [List.map_cons, texts, ih]; rfl

/-- Two lists as sets. -/
def SameSet (a b : List String) : Prop := (∀ x ∈ a, x ∈ b) ∧ ∀ x ∈ b, x ∈ a

instance (a b : List String) : Decidable (SameSet a b) := inferInstanceAs (Decidable ((∀ x ∈ a, x ∈ b) ∧ ∀ x ∈ b, x ∈ a))

def s1Actions : List String := ["convert_acquire", "manual_review"]

def contracts : List String := ["inotify_property_changed", "name_only", "other", "unresolved"]

/-- A value equal to one. -/
def isOne (j : Json) : Bool := Json.eqv j (.int 1)

def isText (j : Json) (texts : List String) : Bool := j.asStr.any fun s => s ∈ texts

/-- The id of a candidate. -/
def candidateId (i : Nat) (c : Json) : Except CollectError String :=
  let cctx := "candidates.candidates[" ++ toString i ++ "]"
  match c with
  | .obj f =>
    strField f "finding_id" cctx >>= fun fid => requireFindingId fid cctx >>= fun _ => .ok fid
  | _ => .error (cctx ++ ": must be an object")

def displayFields : List String :=
  ["event", "source", "handler", "event_identity", "source_identity", "source_identity_kind", "handler_identity",
    "handler_identity_kind"]

/-- The rest of a candidate. -/
def candidateRest (typeName sourcePath : String) (i : Nat) (c : Json) : Except CollectError Unit :=
  let cctx := "candidates.candidates[" ++ toString i ++ "]"
  let f := c.asObj.getD []
  strField f "containing_type" cctx >>= fun owner =>
  ensure (owner = typeName) (cctx ++ ": containing_type must be " ++ OwnIR.reprStr typeName) >>= fun _ =>
  strField f "file" cctx >>= fun file =>
  ensure (file = sourcePath) (cctx ++ ": file must be " ++ OwnIR.reprStr sourcePath) >>= fun _ =>
  each (fun _ k => strField f k cctx >>= fun _ => .ok ()) displayFields >>= fun _ =>
  strField f "event_contract" cctx >>= fun contract =>
  ensure (contract ∈ contracts) (cctx ++ ": unknown event_contract " ++ OwnIR.reprStr contract) >>= fun _ =>
  validateSpan (Json.get f "acquire_span") cctx >>= fun _ =>
  validateTeardown (Json.get f "teardown") cctx >>= fun _ =>
  listField f "allowed_actions" cctx >>= fun actions =>
  ensure (actions ≠ [] ∧ ∀ a ∈ actions, isText a s1Actions)
    (cctx ++ ": allowed_actions must be a non-empty subset of " ++ OwnIR.repr (.arr (s1Actions.map .str))) >>= fun _ =>
  ensure ((∃ a ∈ actions, isText a ["convert_acquire"]) → contract = "inotify_property_changed")
    (cctx ++ ": convert_acquire is only permitted for inotify_property_changed")

/-- `selected_findings`: null, or exactly the ids of the candidates. -/
def checkSelected (selected : Json) (ids : List String) : Except CollectError Unit :=
  match selected with
  | .null => .ok ()
  | _ =>
    require (selected.asArr.bind texts) "selected_findings must be null or a list of strings" >>= fun names =>
    ensure names.Nodup "selected_findings has duplicate ids" >>= fun _ =>
    ensure (SameSet names ids) "selected_findings must equal the candidate id set"

/-- `validate_candidates_bundle` -/
def validateCandidatesBundle (bundle : Json) : Except CollectError Unit :=
  match bundle with
  | .obj b =>
    ensure (isOne (Json.get b "version") ∧
        (Json.get b "version").asBool = none) "candidates: version must be integer 1" >>= fun _ =>
    ensure ((Json.get b "operation").asStr = some "fix-subscriptions")
        "candidates: operation must be 'fix-subscriptions'" >>= fun _ =>
    dictField b "target_api" "candidates" >>= fun target =>
    strField target "subscribe" "candidates.target_api" >>= fun _ =>
    dictField b "selection" "candidates" >>= fun sel =>
    listField sel "allowed_types" "candidates.selection" >>= fun allowedTypes =>
    ensure (allowedTypes.length = 1) "candidates.selection.allowed_types must have exactly one entry" >>= fun _ =>
    require (allowedTypes.head?.bind Json.asObj) "candidates.selection.allowed_types[0]: must be an object" >>= fun theType =>
    strField theType "full_name" "candidates.selection.allowed_types[0]" >>= fun typeName =>
    strField theType "file" "candidates.selection.allowed_types[0]" >>= fun typeFile =>
    requireCanonicalRelpath typeFile "candidates.selection.allowed_types[0].file" >>= fun _ =>
    dictField sel "constraints" "candidates.selection" >>= fun cons =>
    ensure (isOne (Json.get cons "max_types_changed") ∧ isOne (Json.get cons "max_files_changed"))
      "candidates.selection.constraints: max_types_changed/max_files_changed must be 1" >>= fun _ =>
    each (fun _ k => ensure ((Json.get cons k).asBool = some false) ("candidates.selection.constraints." ++
      k ++ " must be false"))
      ["allow_helper_changes", "allow_config_changes", "allow_suppressions"] >>= fun _ =>
    listField b "source_files" "candidates" >>= fun sourceFiles =>
    ensure (sourceFiles.length = 1) "candidates.source_files must have exactly one entry" >>= fun _ =>
    require (sourceFiles.head?.bind Json.asObj) "candidates.source_files[0]: must be an object" >>= fun sf =>
    strField sf "path" "candidates.source_files[0]" >>= fun sourcePath =>
    requireCanonicalRelpath sourcePath "candidates.source_files[0]" >>= fun _ =>
    strField sf "sha256" "candidates.source_files[0]" >>= fun digest =>
    requireSha256 digest "candidates.source_files[0]" >>= fun _ =>
    ensure (typeFile = sourcePath) "candidates: the allowed_type file and the source_files path must match" >>= fun _ =>
    listField b "candidates" "candidates" >>= fun cands =>
    distinct candidateId
      (fun i fid => "candidates.candidates[" ++ toString i ++ "]: duplicate finding_id " ++ OwnIR.reprStr fid)
      (fun i c _ => candidateRest typeName sourcePath i c) cands >>= fun found =>
    checkSelected (Json.get sel "selected_findings") (found.map Prod.fst)
  | _ => .error "candidates: bundle must be an object"

/-! ## What keeps the contract -/

/-- The six integers of a span. -/
def SpanOk (j : Json) : Prop := ∃ s, j = .obj s ∧ ∀ k ∈ spanInts, ∃ n, Json.lookup s k = some (.int n)

/-- A text at a field. -/
def HasText (f : Fields) (key : String) : Prop := ∃ s, Json.lookup f key = some (.str s)

/-- A teardown, with its candidates. -/
structure TeardownOk (t : Fields) (cands : List Json) : Prop where
  status : ∃ s ∈ teardownStates, Json.lookup t "status" = some (.str s)
  candidates : Json.lookup t "candidates" = some (.arr cands)
  each : ∀ c ∈ cands, ∃ f, c = .obj f ∧ HasText f "source" ∧ HasText f "handler" ∧ HasText f "match" ∧ SpanOk (Json.get f "span")

/-- A key's value as a reader has it, for a reader that takes one kind of value. -/
theorem lookup_read {β : Type} {read : Json → Option β} {make : β → Json} (hread : ∀ {v b},
    read v = some b ↔ v = make b) {f : Fields}
    {key : String} {b : β} : (Json.lookup f key).bind read = some b ↔ Json.lookup f key = some (make b) := by
  rw [Option.bind_eq_some_iff]
  simp only [hread, exists_eq_right]

theorem strField_ok {f : Fields} {key ctx s : String} : strField f key ctx = .ok s ↔ Json.lookup f key = some (.str s) :=
  field_ok.trans (lookup_read Json.asStr_iff)

theorem intField_ok {f : Fields} {key ctx : String} {n : Int} : intField f key ctx = .ok n ↔ Json.lookup f key = some (.int n) :=
  field_ok.trans (lookup_read Json.asInteger_iff)

theorem listField_ok {f : Fields} {key ctx : String} {items : List Json} :
    listField f key ctx = .ok items ↔ Json.lookup f key = some (.arr items) := field_ok.trans (lookup_read Json.asArr_iff)

theorem validateSpan_ok {span : Json} {ctx : String} : validateSpan span ctx = .ok () ↔ SpanOk span := by
  unfold validateSpan SpanOk
  cases span with
  | obj s =>
    rw [each_ok (p := fun k => ∃ n, Json.lookup s k = some (.int n)) fun _ k _ => ?_]
    · exact ⟨fun h => ⟨s, rfl, h⟩, fun ⟨s', hs, h⟩ => by cases hs; exact h⟩
    · rw [bind_ok]
      exact ⟨fun ⟨n, h, _⟩ => ⟨n, intField_ok.mp h⟩, fun ⟨n, h⟩ => ⟨n, intField_ok.mpr h, rfl⟩⟩
  | _ => exact ⟨fun h => (by cases h), fun ⟨_, h, _⟩ => (by cases h)⟩

theorem validateTeardown_ok {td : Json} {ctx : String} (h : validateTeardown td ctx = .ok ()) :
    ∃ t cands, td = .obj t ∧ TeardownOk t cands := by
  unfold validateTeardown at h
  cases td with
  | obj t =>
    obtain ⟨status, hstatus, h⟩ := bind_ok.mp h
    obtain ⟨hin, h⟩ := ensure_bind_ok.mp h
    obtain ⟨cands, hcands, h⟩ := bind_ok.mp h
    refine ⟨t, cands, rfl, ⟨status, hin, strField_ok.mp hstatus⟩, listField_ok.mp hcands, fun c hc => ?_⟩
    have hall := (each_ok (p := fun c => ∃ f, c = .obj f ∧ HasText f "source" ∧ HasText f "handler" ∧ HasText f "match" ∧
      SpanOk (Json.get f "span")) fun i c _ => ?_).mp h c hc
    · exact hall
    · cases c with
      | obj f =>
        simp only [bind_ok, strField_ok, validateSpan_ok, HasText]
        constructor
        · rintro ⟨s, hs, u, hu, m, hm, hspan⟩
          exact ⟨f, rfl, ⟨s, hs⟩, ⟨u, hu⟩, ⟨m, hm⟩, hspan⟩
        · rintro ⟨f', hf, ⟨s, hs⟩, ⟨u, hu⟩, ⟨m, hm⟩, hspan⟩
          cases hf
          exact ⟨s, hs, u, hu, m, hm, hspan⟩
      | _ => exact ⟨fun h => (by cases h), fun ⟨_, h, _⟩ => (by cases h)⟩
  | _ => cases h

/-- What the contract says of a candidate of an envelope. -/
structure CandidateRecord.Valid (e : Envelope) (c : CandidateRecord) : Prop where
  id : isFindingId c.findingId = true
  owner : c.containingType = e.classFqn
  file : c.file = e.classFile
  contract : c.eventContract ∈ contracts
  span : SpanOk c.acquireSpan
  teardown : ∃ t cands, c.teardown = .obj t ∧ TeardownOk t cands

/-- What it says of the envelope. -/
structure Envelope.Valid (e : Envelope) : Prop where
  path : isRelative e.classFile = true ∧ isSegmented e.classFile = true
  digest : isSha256 e.sourceSha = true
  ids : (e.candidates.map CandidateRecord.findingId).Nodup
  each : ∀ c ∈ e.candidates, c.Valid e
  selected : ∀ names, e.selectedFindings = some names →
    names.Nodup ∧ SameSet names (e.candidates.map CandidateRecord.findingId)

theorem candidateId_json {i : Nat} {c : CandidateRecord} {fid : String} :
    candidateId i c.json = .ok fid ↔ isFindingId c.findingId = true ∧ fid = c.findingId := by
  have hfid : ∀ ctx s, strField (c.json.asObj.getD []) "finding_id" ctx = .ok s ↔ s = c.findingId := fun ctx s => by
    rw [strField_ok]
    simp only [CandidateRecord.json, Json.asObj, Option.getD_some, Json.lookup, List.find?,
      Option.map_some, decide_true, Option.some.injEq,
      Json.str.injEq]
    exact eq_comm
  show (strField _ "finding_id" _ >>= fun fid => requireFindingId fid _ >>= fun _ => .ok fid) = .ok fid ↔ _
  unfold requireFindingId
  simp only [bind_ok, ensure_ok, Except.ok.injEq]
  constructor
  · rintro ⟨s, hs, _, hvalid, rfl⟩
    have hs := (hfid _ _).mp hs
    exact ⟨hs ▸ hvalid, hs⟩
  · rintro ⟨hvalid, rfl⟩
    exact ⟨_, (hfid _ _).mpr rfl, (), hvalid, rfl⟩

theorem candidateRest_json {typeName sourcePath : String} {i : Nat} {c : CandidateRecord} {e : Envelope}
    (ht : typeName = e.classFqn) (hs : sourcePath = e.classFile) (hid : isFindingId c.findingId = true)
    (h : candidateRest typeName sourcePath i c.json = .ok ()) : c.Valid e := by
  unfold candidateRest at h
  obtain ⟨owner, howner, h⟩ := bind_ok.mp h
  obtain ⟨hown, h⟩ := ensure_bind_ok.mp h
  obtain ⟨file, hfile, h⟩ := bind_ok.mp h
  obtain ⟨hpath, h⟩ := ensure_bind_ok.mp h
  obtain ⟨_, -, h⟩ := bind_ok.mp h
  obtain ⟨contract, hcontract, h⟩ := bind_ok.mp h
  obtain ⟨hknown, h⟩ := ensure_bind_ok.mp h
  obtain ⟨_, hspan, h⟩ := bind_ok.mp h
  obtain ⟨_, hteardown, h⟩ := bind_ok.mp h
  have howner : some (Json.str c.containingType) = some (.str owner) := strField_ok.mp howner
  have hfile : some (Json.str c.file) = some (.str file) := strField_ok.mp hfile
  have hcontract : some (Json.str c.eventContract) = some (.str contract) := strField_ok.mp hcontract
  cases howner
  cases hfile
  cases hcontract
  exact ⟨hid, hown.trans ht, hpath.trans hs, hknown, validateSpan_ok.mp hspan, validateTeardown_ok hteardown⟩

theorem found_ids {cands : List CandidateRecord} {found : List (String × Unit)}
    {b : Nat → Json → String → Except CollectError Unit}
    (h : List.Forall₂ (fun a kb => ∃ i, candidateId i a = .ok kb.1 ∧
      b i a kb.1 = .ok kb.2) (cands.map CandidateRecord.json) found) :
    found.map Prod.fst = cands.map CandidateRecord.findingId := by
  induction cands generalizing found with
  | nil => cases h; rfl
  | cons c rest ih =>
    cases h with
    | cons hc hrest =>
      obtain ⟨i, hid, -⟩ := hc
      rw [List.map_cons, List.map_cons, ih hrest, (candidateId_json.mp hid).2]

/-- The document of an envelope keeps the contract only where the envelope does. -/
theorem validateCandidatesBundle_json {e : Envelope} (h : validateCandidatesBundle e.json = .ok ()) : e.Valid := by
  unfold validateCandidatesBundle Envelope.json at h
  obtain ⟨-, h⟩ := ensure_bind_ok.mp h
  obtain ⟨-, h⟩ := ensure_bind_ok.mp h
  obtain ⟨target, -, h⟩ := bind_ok.mp h
  obtain ⟨_, -, h⟩ := bind_ok.mp h
  obtain ⟨sel, hsel, h⟩ := bind_ok.mp h
  cases (hsel : .ok [("allowed_types", .arr [.obj [("full_name", .str e.classFqn), ("file", .str e.classFile)]]),
    ("selected_findings", selectedJson e.selectedFindings), ("constraints", constraintsJson)] = Except.ok sel)
  obtain ⟨types, htypes, h⟩ := bind_ok.mp h
  cases (htypes : .ok [.obj [("full_name", .str e.classFqn), ("file", .str e.classFile)]] = Except.ok types)
  obtain ⟨-, h⟩ := ensure_bind_ok.mp h
  obtain ⟨theType, htype, h⟩ := bind_ok.mp h
  cases (htype : .ok [("full_name", .str e.classFqn), ("file", .str e.classFile)] = Except.ok theType)
  obtain ⟨typeName, hname, h⟩ := bind_ok.mp h
  cases (hname : .ok e.classFqn = Except.ok typeName)
  obtain ⟨typeFile, hfile, h⟩ := bind_ok.mp h
  cases (hfile : .ok e.classFile = Except.ok typeFile)
  obtain ⟨_, -, h⟩ := bind_ok.mp h
  obtain ⟨cons, -, h⟩ := bind_ok.mp h
  obtain ⟨-, h⟩ := ensure_bind_ok.mp h
  obtain ⟨_, -, h⟩ := bind_ok.mp h
  obtain ⟨sources, hsources, h⟩ := bind_ok.mp h
  cases (hsources : .ok [.obj [("path", .str e.classFile), ("sha256", .str e.sourceSha)]] = Except.ok sources)
  obtain ⟨-, h⟩ := ensure_bind_ok.mp h
  obtain ⟨sf, hsf, h⟩ := bind_ok.mp h
  cases (hsf : .ok [("path", .str e.classFile), ("sha256", .str e.sourceSha)] = Except.ok sf)
  obtain ⟨path, hpath, h⟩ := bind_ok.mp h
  cases (hpath : .ok e.classFile = Except.ok path)
  obtain ⟨_, hrel, h⟩ := bind_ok.mp h
  obtain ⟨digest, hdigest, h⟩ := bind_ok.mp h
  cases (hdigest : .ok e.sourceSha = Except.ok digest)
  obtain ⟨_, hsha, h⟩ := bind_ok.mp h
  obtain ⟨-, h⟩ := ensure_bind_ok.mp h
  obtain ⟨cands, hcands, h⟩ := bind_ok.mp h
  cases (hcands : .ok (e.candidates.map CandidateRecord.json) = Except.ok cands)
  obtain ⟨found, hfound, hselected⟩ := bind_ok.mp h
  obtain ⟨hall, hn⟩ := distinct_reads hfound
  have hids : found.map Prod.fst = e.candidates.map CandidateRecord.findingId :=
    found_ids (b := fun i c _ => candidateRest e.classFqn e.classFile i c) hall
  refine ⟨?_, (ensure_ok.mp hsha), hids ▸ hn, fun c hc => ?_, fun names hnames => ?_⟩
  · exact Bool.and_eq_true _ _ ▸ ensure_ok.mp hrel
  · obtain ⟨kb, -, i, hid, hrest⟩ := exists_read hall (List.mem_map.mpr ⟨c, hc, rfl⟩)
    exact candidateRest_json rfl rfl (candidateId_json.mp hid).1 hrest
  · have hsel : checkSelected (selectedJson e.selectedFindings) (found.map Prod.fst) = .ok () := hselected
    rw [hnames, hids] at hsel
    obtain ⟨names', hnames', hsel⟩ := bind_ok.mp hsel
    have hsame : names = names' := Option.some.inj ((texts_map names).symm.trans (require_ok.mp hnames'))
    obtain ⟨hnodup, hset⟩ := ensure_bind_ok.mp hsel
    exact hsame ▸ ⟨hnodup, ensure_ok.mp hset⟩

/-! ## What is collected -/

/-- A collected candidate may be converted exactly under the proven contract. -/
theorem collect_spec {sha : Sha} {root : Root} {facts : Fields} {target classFqn : String}
    {ids : Option (List String)} {e : Envelope}
    (h : collectCandidates sha root facts target classFqn ids = .ok e) : ∀ c ∈ e.candidates, c.allowedActions =
      if c.eventContract = "inotify_property_changed" then ["convert_acquire", "manual_review"] else ["manual_review"] := by
  unfold collectCandidates at h
  simp only [bind_ok, Except.ok.injEq] at h
  obtain ⟨components, -, comp, -, place, -, found, hfound, chosen, hchosen, digest, -, rfl⟩ := h
  intro c hin
  have hc : c ∈ chosen := (List.mem_insertionSort _).mp hin
  clear hin
  have hmem : c ∈ found.filterMap id := by
    unfold selectFindings at hchosen
    cases ids with
    | none =>
      cases hchosen
      exact hc
    | some ids =>
      obtain ⟨-, hchosen⟩ := ensure_bind_ok.mp hchosen
      cases hchosen
      exact (List.mem_filter.mp hc).1
  obtain ⟨o, ho, hoc⟩ := List.mem_filterMap.mp hmem
  obtain ⟨sub, -, i, hsub⟩ := exists_source hfound ho
  rw [show o = some c from hoc] at hsub
  unfold collectOne at hsub
  cases sub with
  | obj s =>
    simp only at hsub
    split at hsub
    next => cases hsub
    next =>
      obtain ⟨released, -, hsub⟩ := bind_ok.mp hsub
      split at hsub
      next => cases hsub
      next =>
        simp only [bind_ok, Except.ok.injEq, Option.some.injEq] at hsub
        obtain ⟨_, -, _, -, _, -, fx, -, rfl⟩ := hsub
        rfl
  | _ => cases hsub

end OwnNet.Fix
