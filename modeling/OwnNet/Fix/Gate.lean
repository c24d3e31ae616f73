/-
  OwnNet.Fix.Gate — `validate_gate_authority`: the plan and its candidates once more, in front of
  the self-gate, every object with exactly the keys it was frozen with.

  The bundle and the plan of a collection pass the collector's contract, `validate_plan` and
  `validate_apply_inputs`; the frozen shape asks for more than any of them.

  Proved: `gates_agree_iff`: when the plan of a collection passes both gates.
-/

import OwnNet.Fix.Apply

namespace OwnNet.Fix

open Checks

/-- What a refusal says; every one here is of the category `AUTHORITY_BINDING`. -/
abbrev AuthorityError := String

/-! ## Fields -/

def sortedKeys (keys : List String) : String := reprKeys (keys.insertionSort (· ≤ ·))

/-- `_exact` -/
def exactKeys (obj : Fields) (ctx : String) (keys : List String) : Except AuthorityError Unit :=
  ensure (Json.hasKeys obj keys) (ctx ++ ": key set " ++ sortedKeys (obj.map Prod.fst) ++ " != " ++ sortedKeys keys)

/-- `_obj` -/
def gateObj (v : Json) (ctx : String) : Except AuthorityError Fields := require v.asObj (ctx ++ ": must be an object")

/-- `_need`, and what the value is to be. -/
def gateField {α : Type} (kind : String) (read : Json → Option α) (obj : Fields) (name ctx : String) : Except AuthorityError α :=
  require (Json.lookup obj name) (ctx ++ ": missing '" ++ name ++ "'") >>= fun v =>
  require (read v) (ctx ++ "." ++ name ++ ": must be " ++ kind)

/-- `_s` -/
def gateStr : Fields → String → String → Except AuthorityError String := gateField "a string" Json.asStr

/-- `_int` -/
def gateInt : Fields → String → String → Except AuthorityError Int :=
  gateField "a non-negative int" fun v => v.asInteger.filter fun n => 0 ≤ n

/-- `_list` -/
def gateList : Fields → String → String → Except AuthorityError (List Json) := gateField "an array" Json.asArr

/-- `_sha` -/
def gateSha (obj : Fields) (name ctx : String) : Except AuthorityError String :=
  gateStr obj name ctx >>= fun v => requireSha256 v (ctx ++ "." ++ name) >>= fun _ => .ok v

/-- `_span` -/
def gateSpan (obj : Fields) (name ctx : String) : Except AuthorityError (List Int) :=
  require (Json.lookup obj name) (ctx ++ ": missing '" ++ name ++ "'") >>= fun v =>
  gateObj v (ctx ++ "." ++ name) >>= fun sp =>
  exactKeys sp (ctx ++ "." ++ name) spanInts >>= fun _ =>
  mapEach (fun _ k => gateInt sp k (ctx ++ "." ++ name)) spanInts

/-! ## The candidates -/

/-- `_validate_teardown` -/
def gateTeardown (td : Json) (ctx : String) : Except AuthorityError Unit :=
  let where_ := ctx ++ ".teardown"
  gateObj td where_ >>= fun t =>
  exactKeys t where_ ["status", "candidates"] >>= fun _ =>
  gateStr t "status" where_ >>= fun status =>
  ensure (status ∈ teardownStates) (where_ ++ ": unknown status") >>= fun _ =>
  gateList t "candidates" where_ >>= fun cands =>
  each (fun i c =>
    let tctx := where_ ++ ".candidates[" ++ toString i ++ "]"
    gateObj c tctx >>= fun tc =>
    exactKeys tc tctx ["source", "handler", "match", "span"] >>= fun _ =>
    gateStr tc "source" tctx >>= fun _ =>
    gateStr tc "handler" tctx >>= fun _ =>
    gateStr tc "match" tctx >>= fun _ =>
    gateSpan tc "span" tctx >>= fun _ => .ok ()) cands

def constraintKeys : List String :=
  ["max_types_changed", "max_files_changed", "allow_helper_changes", "allow_config_changes", "allow_suppressions"]

/-- `_check_constraints` -/
def checkConstraints (cons : Fields) (ctx : String) : Except AuthorityError Unit :=
  exactKeys cons ctx constraintKeys >>= fun _ =>
  gateInt cons "max_types_changed" ctx >>= fun types =>
  gateInt cons "max_files_changed" ctx >>= fun files =>
  ensure (types = 1 ∧ files = 1) (ctx ++ ": changes exactly one type in one file") >>= fun _ =>
  each (fun _ k => ensure ((Json.get cons k).asBool = some false) (ctx ++ "." ++ k ++ " must be false"))
    ["allow_helper_changes", "allow_config_changes", "allow_suppressions"]

def candidateKeys : List String :=
  ["finding_id", "diagnostic_code", "containing_type", "file", "enclosing_member", "event", "event_identity", "event_contract",
    "source", "source_identity", "source_identity_kind", "handler", "handler_identity", "handler_identity_kind",
    "occurrence_ordinal", "acquire_span", "teardown", "allowed_actions"]

def gateStrings : List String :=
  ["diagnostic_code", "enclosing_member", "event", "event_identity", "source", "source_identity",
    "source_identity_kind", "handler",
    "handler_identity", "handler_identity_kind"]

/-- The id of a candidate. -/
def gateId (i : Nat) (c : Json) : Except AuthorityError String :=
  let ctx := "candidates[" ++ toString i ++ "]"
  gateObj c ctx >>= fun f =>
  exactKeys f ctx candidateKeys >>= fun _ =>
  gateStr f "finding_id" ctx >>= fun fid => requireFindingId fid ctx >>= fun _ => .ok fid

/-- What the plan is checked against, of a candidate: its actions and its span. -/
structure Allowed where
  actions : List String
  span : List Int

/-- The rest of a candidate. -/
def gateRest (typeName srcPath : String) (i : Nat) (c : Json) (_ : String) : Except AuthorityError Allowed :=
  let ctx := "candidates[" ++ toString i ++ "]"
  let f := c.asObj.getD []
  each (fun _ k => gateStr f k ctx >>= fun _ => .ok ()) gateStrings >>= fun _ =>
  gateInt f "occurrence_ordinal" ctx >>= fun _ =>
  gateTeardown (Json.get f "teardown") ctx >>= fun _ =>
  gateStr f "containing_type" ctx >>= fun owner =>
  ensure (owner = typeName) (ctx ++ ": outside the selected type " ++ typeName) >>= fun _ =>
  gateStr f "file" ctx >>= fun file =>
  ensure (file = srcPath) (ctx ++ ": outside the selected file " ++ srcPath) >>= fun _ =>
  gateStr f "event_contract" ctx >>= fun contract =>
  ensure (contract ∈ contracts) (ctx ++ ": unknown event_contract '" ++ contract ++ "'") >>= fun _ =>
  gateSpan f "acquire_span" ctx >>= fun span =>
  gateList f "allowed_actions" ctx >>= fun actions =>
  ensure (actions ≠ []) (ctx ++ ": allowed_actions must be non-empty") >>= fun _ =>
  distinct (fun _ a => require (a.asStr.filter fun s => s ∈ s1Actions) (ctx ++ ": unknown action in allowed_actions"))
    (fun _ _ => ctx ++ ": duplicate action in allowed_actions") (fun _ _ _ => .ok ()) actions >>= fun seen =>
  ensure ("convert_acquire" ∈ seen.map Prod.fst → contract = "inotify_property_changed")
    (ctx ++ ": convert_acquire not permitted for '" ++ contract ++ "'") >>= fun _ =>
  .ok { actions := seen.map Prod.fst, span := span }

/-- What the plan is checked against. -/
structure GateFacts where
  targetSubscribe : String
  typeName : String
  typeFile : String
  srcPath : String
  preSha256 : String
  candidates : List (String × Allowed)
  selected : Json

def gateSelected (selected : Json) (ids : List String) : Except AuthorityError Unit :=
  match selected with
  | .null => .ok ()
  | _ =>
    require (selected.asArr.bind texts) "selection.selected_findings must be null or a string array" >>= fun names =>
    ensure (names.Nodup ∧ SameSet names ids) "selection.selected_findings does not name the candidates"

/-- The one type of a selection. -/
def gateType (sel : Fields) (who : String) : Except AuthorityError Fields :=
  let ctx := who ++ ".selection"
  exactKeys sel ctx ["allowed_types", "selected_findings", "constraints"] >>= fun _ =>
  gateList sel "allowed_types" ctx >>= fun types =>
  ensure (types.length = 1) (ctx ++ ".allowed_types needs exactly one entry") >>= fun _ =>
  gateObj (types.head?.getD .null) (ctx ++ ".allowed_types[0]") >>= fun theType =>
  exactKeys theType (ctx ++ ".allowed_types[0]") ["full_name", "file"] >>= fun _ => .ok theType

/-- The one source file. -/
def gateSource (obj : Fields) (who : String) : Except AuthorityError Fields :=
  gateList obj "source_files" who >>= fun files =>
  ensure (files.length = 1) (who ++ ".source_files needs exactly one entry") >>= fun _ =>
  gateObj (files.head?.getD .null) (who ++ ".source_files[0]") >>= fun src =>
  exactKeys src (who ++ ".source_files[0]") ["path", "sha256"] >>= fun _ => .ok src

/-- `_validate_candidates` -/
def gateCandidates (b : Fields) : Except AuthorityError GateFacts :=
  exactKeys b "candidates" ["version", "operation", "target_api", "selection", "source_files", "candidates"] >>= fun _ =>
  ensure (isOne (Json.get b "version") ∧ (Json.get b "version").asBool = none) "candidates.version must be 1" >>= fun _ =>
  ensure ((Json.get b "operation").asStr = some "fix-subscriptions")
      "candidates.operation must be 'fix-subscriptions'" >>= fun _ =>
  gateObj (Json.get b "target_api") "candidates.target_api" >>= fun target =>
  exactKeys target "candidates.target_api" ["subscribe"] >>= fun _ =>
  gateStr target "subscribe" "candidates.target_api" >>= fun subscribe =>
  gateObj (Json.get b "selection") "candidates.selection" >>= fun sel =>
  gateType sel "candidates" >>= fun theType =>
  gateStr theType "full_name" "candidates.selection.allowed_types[0]" >>= fun typeName =>
  gateStr theType "file" "candidates.selection.allowed_types[0]" >>= fun typeFile =>
  requireCanonicalRelpath typeFile "candidates.selection.allowed_types[0].file" >>= fun _ =>
  gateObj (Json.get sel "constraints") "candidates.selection.constraints" >>= fun cons =>
  checkConstraints cons "candidates.selection.constraints" >>= fun _ =>
  gateSource b "candidates" >>= fun src =>
  gateStr src "path" "candidates.source_files[0]" >>= fun srcPath =>
  requireCanonicalRelpath srcPath "candidates.source_files[0].path" >>= fun _ =>
  gateSha src "sha256" "candidates.source_files[0]" >>= fun preSha =>
  ensure (typeFile = srcPath) ("selected type file '" ++ typeFile ++ "' != source '" ++ srcPath ++ "'") >>= fun _ =>
  gateList b "candidates" "candidates" >>= fun cands =>
  ensure (cands ≠ []) "candidates: the bundle is empty" >>= fun _ =>
  distinct gateId (fun i fid => "candidates[" ++ toString i ++ "]: duplicate finding_id " ++ fid)
    (gateRest typeName srcPath) cands >>=
    fun found =>
  gateSelected (Json.get sel "selected_findings") (found.map Prod.fst) >>= fun _ =>
  .ok { targetSubscribe := subscribe, typeName := typeName, typeFile := typeFile, srcPath := srcPath, preSha256 := preSha
        candidates := found, selected := Json.get sel "selected_findings" }

/-! ## The plan -/

/-- A decision, for the candidate at its place; whether it converts. -/
def gateDecision (facts : GateFacts) (i : Nat) (d : Json) : Except AuthorityError (String × Bool) :=
  let ctx := "plan.decisions[" ++ toString i ++ "]"
  gateObj d ctx >>= fun f =>
  exactKeys f ctx decisionKeys >>= fun _ =>
  gateStr f "finding_id" ctx >>= fun fid =>
  require (facts.candidates[i]?.filter fun c => c.1 = fid)
    (ctx ++ ": " ++ fid ++ " out of candidate order (want " ++ (facts.candidates[i]?.map Prod.fst).getD "" ++ ")") >>= fun c =>
  gateStr f "action" ctx >>= fun action =>
  ensure (action ∈ s1Actions) (ctx ++ ": out-of-scope action '" ++ action ++ "'") >>= fun _ =>
  ensure (action ∈ c.2.actions) (ctx ++ ": action '" ++ action ++ "' not allowed for " ++ fid) >>= fun _ =>
  gateStr f "file" ctx >>= fun file =>
  ensure (file = facts.srcPath) (ctx ++ ": file != the selected source file") >>= fun _ =>
  gateSpan f "acquire_span" ctx >>= fun span =>
  ensure (span = c.2.span) (ctx ++ ": acquire_span != the candidate") >>= fun _ =>
  .ok (fid, action = "convert_acquire")

structure GateAuthority where
  rel : String
  targetSubscribe : String
  preSha256 : String
  inputBundleSha256 : String
  applied : List String
  manual : List String
  selectedFindings : Json

/-- `validate_gate_authority` -/
def validateGateAuthority (sha : Sha) (plan candidates : Json) : Except AuthorityError GateAuthority :=
  gateObj plan "plan" >>= fun p =>
  gateObj candidates "candidates" >>= fun b =>
  gateCandidates b >>= fun facts =>
  exactKeys p "plan" planKeys >>= fun _ =>
  ensure (isOne (Json.get p "version") ∧ (Json.get p "version").asBool = none) "plan.version must be 1" >>= fun _ =>
  ensure ((Json.get p "operation").asStr = some "fix-subscriptions") "plan.operation must be 'fix-subscriptions'" >>= fun _ =>
  gateSha p "input_bundle_sha256" "plan" >>= fun digest =>
  ensure (digest = bundleSha256 sha candidates) "plan.input_bundle_sha256 does not bind these candidates" >>= fun _ =>
  gateObj (Json.get p "target_api") "plan.target_api" >>= fun target =>
  exactKeys target "plan.target_api" ["subscribe"] >>= fun _ =>
  gateStr target "subscribe" "plan.target_api" >>= fun subscribe =>
  ensure (subscribe = facts.targetSubscribe) "plan.target_api.subscribe != the candidates bundle" >>= fun _ =>
  gateObj (Json.get p "selection") "plan.selection" >>= fun sel =>
  gateType sel "plan" >>= fun theType =>
  gateStr theType "full_name" "plan.selection.allowed_types[0]" >>= fun name =>
  ensure (name = facts.typeName) "plan.selection.allowed_types != the candidates bundle" >>= fun _ =>
  gateStr theType "file" "plan.selection.allowed_types[0]" >>= fun file =>
  ensure (file = facts.typeFile) "plan.selection.allowed_types != the candidates bundle" >>= fun _ =>
  gateObj (Json.get sel "constraints") "plan.selection.constraints" >>= fun cons =>
  checkConstraints cons "plan.selection.constraints" >>= fun _ =>
  ensure (Json.eqv (Json.get sel "selected_findings") facts.selected)
      "plan.selection.selected_findings != the candidates bundle" >>= fun _ =>
  gateSource p "plan" >>= fun src =>
  gateStr src "path" "plan.source_files[0]" >>= fun path =>
  ensure (path = facts.srcPath) "plan.source_files[0].path != the candidates bundle" >>= fun _ =>
  gateStr src "sha256" "plan.source_files[0]" >>= fun shaText =>
  ensure (shaText = facts.preSha256) "plan.source_files[0].sha256 != the candidates bundle" >>= fun _ =>
  gateList p "decisions" "plan" >>= fun decisions =>
  ensure (decisions.length = facts.candidates.length)
    ("plan.decisions covers " ++ toString decisions.length ++ " of " ++ toString facts.candidates.length) >>= fun _ =>
  mapEach (gateDecision facts) decisions >>= fun decided =>
  .ok { rel := facts.srcPath, targetSubscribe := facts.targetSubscribe, preSha256 := facts.preSha256, inputBundleSha256 := digest
        applied := (decided.filter Prod.snd).map Prod.fst, manual := (decided.filter fun d => !d.2).map Prod.fst
        selectedFindings := facts.selected }

/-! ## What is frozen -/

theorem gateField_ok {α : Type} {kind : String} {read : Json → Option α} {obj : Fields} {name ctx : String} {a : α} :
    gateField kind read obj name ctx = .ok a ↔ (Json.lookup obj name).bind read = some a := by
  unfold gateField
  cases hl : Json.lookup obj name with
  | none => exact ⟨fun h => (by cases h), fun h => (by cases h)⟩
  | some v => exact require_ok

theorem gateStr_ok {obj : Fields} {name ctx s : String} : gateStr obj name ctx = .ok s ↔ Json.lookup obj name = some (.str s) :=
  gateField_ok.trans (lookup_read Json.asStr_iff)

theorem gateList_ok {obj : Fields} {name ctx : String} {items : List Json} :
    gateList obj name ctx = .ok items ↔ Json.lookup obj name = some (.arr items) :=
      gateField_ok.trans (lookup_read Json.asArr_iff)

theorem gateInt_ok {obj : Fields} {name ctx : String} {n : Int} :
    gateInt obj name ctx = .ok n ↔ 0 ≤ n ∧ Json.lookup obj name = some (.int n) := by
  unfold gateInt
  rw [gateField_ok]
  cases Json.lookup obj name with
  | none => exact ⟨fun h => (by cases h), fun h => (by cases h.2)⟩
  | some v =>
    rw [Option.bind_some]
    cases v with
    | int m =>
      simp only [Json.asInteger, Option.filter_eq_some_iff, Option.some.injEq, Json.int.injEq, decide_eq_true_eq]
      exact and_comm
    | _ => exact ⟨fun h => (by cases h), fun h => (by cases h.2)⟩

theorem gateObj_ok {v : Json} {ctx : String} {f : Fields} : gateObj v ctx = .ok f ↔ v = .obj f := by
  unfold gateObj
  rw [require_ok]
  cases v with
  | obj g => exact ⟨fun h => by cases h; rfl, fun h => by cases h; rfl⟩
  | _ => exact ⟨fun h => (by cases h), fun h => (by cases h)⟩

theorem exactKeys_ok {obj : Fields} {ctx : String} {keys : List String} {u : Unit} :
    exactKeys obj ctx keys = .ok u ↔ Json.hasKeys obj keys := ensure_ok

theorem gateStr_unit {obj : Fields} {name ctx : String} :
    (gateStr obj name ctx >>= fun _ => Except.ok ()) = .ok () ↔ HasText obj name := by
  rw [bind_ok]
  exact ⟨fun ⟨s, h, _⟩ => ⟨s, gateStr_ok.mp h⟩, fun ⟨s, h⟩ => ⟨s, gateStr_ok.mpr h, rfl⟩⟩

/-- The integers of a span, in their order. -/
def spanValues (j : Json) : List Int := spanInts.map (intOf (j.asObj.getD []))

theorem gateSpan_ok {obj : Fields} {name ctx : String} {out : List Int} :
    gateSpan obj name ctx = .ok out ↔ SpanFrozen (Json.get obj name) ∧ out = spanValues (Json.get obj name) := by
  unfold gateSpan
  rw [Json.get_eq]
  cases Json.lookup obj name with
  | none =>
    refine iff_of_false (fun h => by cases h) ?_
    rintro ⟨⟨_, h, _⟩, _⟩
    cases h
  | some v =>
    rw [Option.getD_some]
    cases v with
    | obj sp =>
      show (exactKeys sp _ spanInts >>= fun _ => mapEach _ spanInts) = .ok out ↔ _
      unfold exactKeys
      rw [ensure_bind_ok, mapEach_ok (R := fun k n => 0 ≤ n ∧ Json.lookup sp k = some (.int n)) fun _ k _ n => gateInt_ok,
        reads_iff (g := intOf sp) fun k _ n hn => by simp [intOf, Json.get_eq, hn.2, Json.asInteger]]
      constructor
      · rintro ⟨hkeys, hall, rfl⟩
        exact ⟨⟨sp, rfl, hkeys, fun k hk => ⟨_, hall k hk⟩⟩, rfl⟩
      · rintro ⟨⟨sp', hsp, hkeys, hall⟩, rfl⟩
        cases hsp
        refine ⟨hkeys, fun k hk => ?_, rfl⟩
        obtain ⟨n, hn, hlookup⟩ := hall k hk
        have : intOf sp k = n := by simp [intOf, Json.get_eq, hlookup, Json.asInteger]
        exact this ▸ ⟨hn, hlookup⟩
    | _ =>
      refine iff_of_false (fun h => by cases h) ?_
      rintro ⟨⟨_, h, _⟩, _⟩
      cases h

/-- A candidate of a teardown, of its four keys. -/
def TearFrozen (j : Json) : Prop :=
  ∃ f, j = .obj f ∧ Json.hasKeys f ["source", "handler", "match", "span"] ∧ HasText f "source" ∧ HasText f "handler" ∧
    HasText f "match" ∧ SpanFrozen (Json.get f "span")

/-- A teardown of its two keys, its candidates of theirs. -/
def TeardownFrozen (j : Json) : Prop :=
  ∃ t status cands, j = .obj t ∧ Json.hasKeys t ["status", "candidates"] ∧ Json.lookup t "status" = some (.str status) ∧
    status ∈ teardownStates ∧ Json.lookup t "candidates" = some (.arr cands) ∧ ∀ c ∈ cands, TearFrozen c

theorem gateTeardown_ok {td : Json} {ctx : String} : gateTeardown td ctx = .ok () ↔ TeardownFrozen td := by
  have heach : ∀ (who : Nat → String) (cands : List Json), each (fun i c =>
      gateObj c (who i) >>= fun tc => exactKeys tc (who i) ["source", "handler", "match", "span"] >>= fun _ =>
      gateStr tc "source" (who i) >>= fun _ => gateStr tc "handler" (who i) >>= fun _ => gateStr tc "match" (who i) >>= fun _ =>
      gateSpan tc "span" (who i) >>= fun _ => .ok ()) cands = .ok () ↔ ∀ c ∈ cands, TearFrozen c := by
    intro who cands
    refine each_ok fun i c _ => ?_
    unfold TearFrozen HasText
    simp only [bind_ok, exactKeys_ok, gateObj_ok, gateStr_ok, gateSpan_ok]
    constructor
    · rintro ⟨f, rfl, _, hkeys, s, hs, t, ht, u, hu, out, ⟨hspan, -⟩, -⟩
      exact ⟨f, rfl, hkeys, ⟨s, hs⟩, ⟨t, ht⟩, ⟨u, hu⟩, hspan⟩
    · rintro ⟨f, rfl, hkeys, ⟨s, hs⟩, ⟨t, ht⟩, ⟨u, hu⟩, hspan⟩
      exact ⟨f, rfl, (), hkeys, s, hs, t, ht, u, hu, _, ⟨hspan, rfl⟩, trivial⟩
  unfold gateTeardown TeardownFrozen
  simp only [bind_ok, exactKeys_ok, ensure_ok, gateObj_ok, gateStr_ok, gateList_ok]
  constructor
  · rintro ⟨t, rfl, _, hkeys, status, hstatus, _, hin, cands, hcands, hall⟩
    exact ⟨t, status, cands, rfl, hkeys, hstatus, hin, hcands, (heach _ _).mp hall⟩
  · rintro ⟨t, status, cands, rfl, hkeys, hstatus, hin, hcands, hall⟩
    exact ⟨t, rfl, (), hkeys, status, hstatus, (), hin, cands, hcands, (heach _ _).mpr hall⟩

/-- What the gate asks of a candidate besides the contract. -/
structure CandidateRecord.Frozen (c : CandidateRecord) : Prop where
  ordinal : 0 ≤ c.occurrenceOrdinal
  span : SpanFrozen c.acquireSpan
  teardown : TeardownFrozen c.teardown

/-! ## The gate on an envelope -/

/-- The actions a collection gives a candidate. -/
def CandidateRecord.Collected (c : CandidateRecord) : Prop :=
  c.allowedActions = if c.eventContract = "inotify_property_changed" then ["convert_acquire",
    "manual_review"] else ["manual_review"]

theorem CandidateRecord.Collected.actions {c : CandidateRecord} (h : c.Collected) :
    c.allowedActions ≠ [] ∧ c.allowedActions.Nodup ∧ (∀ a ∈ c.allowedActions, a ∈ s1Actions) ∧
      ("convert_acquire" ∈ c.allowedActions → c.eventContract = "inotify_property_changed") := by
  unfold Collected at h
  rw [h]
  split
  next hcontract => exact ⟨by decide, by decide, by decide, fun _ => hcontract⟩
  next => exact ⟨by decide, by decide, by decide, fun hin => absurd hin (by decide)⟩

theorem gateActions_ok {ids : List String} (hn : ids.Nodup) (hs : ∀ a ∈ ids, a ∈ s1Actions) {unknown twice : AuthorityError}
    {out : List (String × Unit)} :
    distinct (fun _ a => require (Option.filter (fun s => s ∈ s1Actions) (Json.asStr a)) unknown) (fun _ _ => twice)
      (fun _ _ _ => .ok ()) (ids.map Json.str) = .ok out ↔ out = ids.map fun a => (a, ()) := by
  rw [distinct_map, distinct_ok (R := fun a kb => kb = (a, ())) fun _ a ha k b => ?_,
    reads_iff (g := fun a => (a, ())) fun _ _ _ h => h]
  · constructor
    · exact fun h => h.1.2
    · rintro rfl
      refine ⟨⟨fun _ _ => rfl, rfl⟩, ?_⟩
      rw [List.map_map]
      exact (List.map_id ids).symm ▸ hn
  · rw [require_ok, Option.filter_eq_some_iff]
    constructor
    · rintro ⟨⟨hk, -⟩, -⟩
      cases hk
      rfl
    · rintro hkb
      cases hkb
      exact ⟨⟨rfl, decide_eq_true (hs a ha)⟩, rfl⟩

/-- What the gate knows of a candidate. -/
def CandidateRecord.allowed (c : CandidateRecord) : Allowed where
  actions := c.allowedActions
  span := spanValues c.acquireSpan

theorem gateId_json {i : Nat} {c : CandidateRecord} {fid : String} :
    gateId i c.json = .ok fid ↔ isFindingId c.findingId = true ∧ fid = c.findingId := by
  unfold gateId requireFindingId
  simp only [bind_ok, exactKeys_ok, ensure_ok, gateObj_ok, gateStr_ok, Except.ok.injEq]
  constructor
  · rintro ⟨f, hf, _, -, s, hs, _, hvalid, rfl⟩
    cases hf
    cases (hs : some (Json.str c.findingId) = some (.str s))
    exact ⟨hvalid, rfl⟩
  · rintro ⟨hvalid, rfl⟩
    exact ⟨c.fields, rfl, (), List.Perm.refl _, c.findingId, rfl, (), hvalid, rfl⟩

theorem gateStrings_json (c : CandidateRecord) : ∀ k ∈ gateStrings, HasText c.fields k := by
  intro k hk
  simp only [gateStrings, List.mem_cons, List.not_mem_nil, or_false] at hk
  rcases hk with rfl | rfl | rfl | rfl | rfl | rfl | rfl | rfl | rfl | rfl <;> exact ⟨_, rfl⟩

section Gate

variable {sha : Sha} {e : Envelope} {act : String → String}

theorem gateRest_json {c : CandidateRecord} (hc : c.Valid e) (hs : c.Collected) {i : Nat} {fid : String} {out : Allowed} :
    gateRest e.classFqn e.classFile i c.json fid = .ok out ↔ c.Frozen ∧ out = c.allowed := by
  obtain ⟨hne, hn, hknown, hproven⟩ := hs.actions
  unfold gateRest
  constructor
  · intro h
    obtain ⟨_, -, h⟩ := bind_ok.mp h
    obtain ⟨n, hordinal, h⟩ := bind_ok.mp h
    obtain ⟨_, htear, h⟩ := bind_ok.mp h
    obtain ⟨_, -, h⟩ := bind_ok.mp h
    obtain ⟨-, h⟩ := ensure_bind_ok.mp h
    obtain ⟨_, -, h⟩ := bind_ok.mp h
    obtain ⟨-, h⟩ := ensure_bind_ok.mp h
    obtain ⟨_, -, h⟩ := bind_ok.mp h
    obtain ⟨-, h⟩ := ensure_bind_ok.mp h
    obtain ⟨span, hspan, h⟩ := bind_ok.mp h
    obtain ⟨actions, hactions, h⟩ := bind_ok.mp h
    obtain ⟨-, h⟩ := ensure_bind_ok.mp h
    obtain ⟨seen, hseen, h⟩ := bind_ok.mp h
    obtain ⟨-, h⟩ := ensure_bind_ok.mp h
    obtain ⟨hpos, hordinal⟩ := gateInt_ok.mp hordinal
    cases (hordinal : some (Json.int c.occurrenceOrdinal) = some (.int n))
    obtain ⟨hfrozen, rfl⟩ := gateSpan_ok.mp hspan
    cases (gateList_ok.mp hactions : some (Json.arr (c.allowedActions.map .str)) = some (.arr actions))
    have hseen := (gateActions_ok hn hknown).mp hseen
    subst hseen
    cases h
    refine ⟨⟨hpos, hfrozen, gateTeardown_ok.mp htear⟩, ?_⟩
    show Allowed.mk _ _ = Allowed.mk _ _
    rw [List.map_map]
    exact congrArg (Allowed.mk · _) (List.map_id c.allowedActions)
  · rintro ⟨⟨hpos, hspan, htear⟩, rfl⟩
    refine bind_ok.mpr ⟨(), (each_ok (p := HasText c.fields) fun _ k _ => gateStr_unit).mpr (gateStrings_json c), ?_⟩
    refine bind_ok.mpr ⟨c.occurrenceOrdinal, gateInt_ok.mpr ⟨hpos, rfl⟩, bind_ok.mpr ⟨(), gateTeardown_ok.mpr htear, ?_⟩⟩
    refine bind_ok.mpr ⟨c.containingType, rfl,
      ensure_bind_ok.mpr ⟨hc.owner, bind_ok.mpr ⟨c.file, rfl, ensure_bind_ok.mpr ⟨hc.file, ?_⟩⟩⟩⟩
    refine bind_ok.mpr ⟨c.eventContract, rfl, ensure_bind_ok.mpr ⟨hc.contract, bind_ok.mpr ⟨_, gateSpan_ok.mpr ⟨hspan, rfl⟩, ?_⟩⟩⟩
    refine bind_ok.mpr ⟨c.allowedActions.map .str, rfl,
      ensure_bind_ok.mpr ⟨?_, bind_ok.mpr ⟨_, (gateActions_ok hn hknown).mpr rfl, ?_⟩⟩⟩
    · exact fun h => hne (List.map_eq_nil_iff.mp h)
    · have hids : (c.allowedActions.map fun a => (a, ())).map Prod.fst = c.allowedActions := by
        rw [List.map_map]
        exact List.map_id c.allowedActions
      rw [hids]
      exact ensure_bind_ok.mpr ⟨hproven, rfl⟩

/-- What the plan of an envelope is checked against. -/
def Envelope.gateFacts (e : Envelope) : GateFacts where
  targetSubscribe := e.targetSubscribe
  typeName := e.classFqn
  typeFile := e.classFile
  srcPath := e.classFile
  preSha256 := e.sourceSha
  candidates := e.candidates.map fun c => (c.findingId, c.allowed)
  selected := selectedJson e.selectedFindings

theorem gateFound_ok (hv : e.Valid) (hs : ∀ c ∈ e.candidates, c.Collected) {twice : Nat → String → AuthorityError}
    {out : List (String × Allowed)} :
    distinct gateId twice (gateRest e.classFqn e.classFile) (e.candidates.map CandidateRecord.json) = .ok out ↔
      (∀ c ∈ e.candidates, c.Frozen) ∧ out = e.candidates.map fun c => (c.findingId, c.allowed) := by
  rw [distinct_map, distinct_ok (R := fun c kb => c.Frozen ∧ kb = (c.findingId, c.allowed)) fun i c hc k b => ?_,
    reads_iff (g := fun c => (c.findingId, c.allowed)) fun _ _ _ h => h.2]
  · constructor
    · rintro ⟨⟨hall, rfl⟩, -⟩
      exact ⟨fun c hc => (hall c hc).1, rfl⟩
    · rintro ⟨hall, rfl⟩
      refine ⟨⟨fun c hc => ⟨hall c hc, rfl⟩, rfl⟩, ?_⟩
      rw [List.map_map]
      exact hv.ids
  · have hvalid := hv.each c hc
    rw [gateId_json, gateRest_json hvalid (hs c hc), Prod.mk.injEq]
    constructor
    · rintro ⟨⟨-, hk⟩, hfrozen, hb⟩
      exact ⟨hfrozen, hk, hb⟩
    · rintro ⟨hfrozen, hk, hb⟩
      exact ⟨⟨hvalid.id, hk⟩, hfrozen, hb⟩

theorem gateSelected_ok (hv : e.Valid) :
    gateSelected (selectedJson e.selectedFindings) (e.candidates.map CandidateRecord.findingId) = .ok () := by
  cases hsel : e.selectedFindings with
  | none => rfl
  | some names => exact bind_ok.mpr ⟨names, require_ok.mpr (texts_map names), ensure_ok.mpr (hv.selected names hsel)⟩

theorem checkConstraints_ok {ctx : String} : checkConstraints (constraintsJson.asObj.getD []) ctx = .ok () := by
  unfold checkConstraints
  refine bind_ok.mpr ⟨(), exactKeys_ok.mpr (List.Perm.refl _), bind_ok.mpr ⟨1, rfl, bind_ok.mpr ⟨1, rfl, ?_⟩⟩⟩
  exact ensure_bind_ok.mpr ⟨⟨rfl, rfl⟩, rfl⟩

/-- The one type of an envelope. -/
def Envelope.typeFields (e : Envelope) : Fields := [("full_name", .str e.classFqn), ("file", .str e.classFile)]

def Envelope.sourceFields (e : Envelope) : Fields := [("path", .str e.classFile), ("sha256", .str e.sourceSha)]

theorem gateType_ok {who : String} : gateType (e.selectionJson.asObj.getD []) who = .ok e.typeFields := by
  unfold gateType
  refine bind_ok.mpr ⟨(), exactKeys_ok.mpr (List.Perm.refl _),
    bind_ok.mpr ⟨[.obj e.typeFields], rfl, ensure_bind_ok.mpr ⟨rfl, ?_⟩⟩⟩
  exact bind_ok.mpr ⟨e.typeFields, rfl, bind_ok.mpr ⟨(), exactKeys_ok.mpr (List.Perm.refl _), rfl⟩⟩

theorem gateSource_ok {obj : Fields} {who : String} (h : Json.lookup obj "source_files" = some e.sourcesJson) :
    gateSource obj who = .ok e.sourceFields := by
  unfold gateSource
  refine bind_ok.mpr ⟨[.obj e.sourceFields], gateList_ok.mpr h, ensure_bind_ok.mpr ⟨rfl, bind_ok.mpr ⟨e.sourceFields, rfl, ?_⟩⟩⟩
  exact bind_ok.mpr ⟨(), exactKeys_ok.mpr (List.Perm.refl _), rfl⟩

theorem gateCandidates_json (hv : e.Valid) (hs : ∀ c ∈ e.candidates, c.Collected) {facts : GateFacts} :
    gateCandidates (e.json.asObj.getD []) = .ok facts ↔
      e.candidates ≠ [] ∧ (∀ c ∈ e.candidates, c.Frozen) ∧ facts = e.gateFacts := by
  have hids : (e.candidates.map fun c => (c.findingId, c.allowed)).map Prod.fst = e.candidates.map CandidateRecord.findingId := by
    rw [List.map_map]
    rfl
  unfold gateCandidates
  constructor
  · intro h
    obtain ⟨_, -, h⟩ := bind_ok.mp h
    obtain ⟨-, h⟩ := ensure_bind_ok.mp h
    obtain ⟨-, h⟩ := ensure_bind_ok.mp h
    obtain ⟨target, htarget, h⟩ := bind_ok.mp h
    cases gateObj_ok.mp htarget
    obtain ⟨_, -, h⟩ := bind_ok.mp h
    obtain ⟨subscribe, hsubscribe, h⟩ := bind_ok.mp h
    cases (gateStr_ok.mp hsubscribe : some (Json.str e.targetSubscribe) = some (.str subscribe))
    obtain ⟨sel, hsel, h⟩ := bind_ok.mp h
    cases gateObj_ok.mp hsel
    obtain ⟨theType, htype, h⟩ := bind_ok.mp h
    cases gateType_ok.symm.trans htype
    obtain ⟨name, hname, h⟩ := bind_ok.mp h
    cases (gateStr_ok.mp hname : some (Json.str e.classFqn) = some (.str name))
    obtain ⟨file, hfile, h⟩ := bind_ok.mp h
    cases (gateStr_ok.mp hfile : some (Json.str e.classFile) = some (.str file))
    obtain ⟨_, -, h⟩ := bind_ok.mp h
    obtain ⟨cons, -, h⟩ := bind_ok.mp h
    obtain ⟨_, -, h⟩ := bind_ok.mp h
    obtain ⟨src, hsrc, h⟩ := bind_ok.mp h
    cases (gateSource_ok rfl).symm.trans hsrc
    obtain ⟨path, hpath, h⟩ := bind_ok.mp h
    cases (gateStr_ok.mp hpath : some (Json.str e.classFile) = some (.str path))
    obtain ⟨_, -, h⟩ := bind_ok.mp h
    obtain ⟨digest, hdigest, h⟩ := bind_ok.mp h
    obtain ⟨text, htext, hdigest⟩ := bind_ok.mp hdigest
    cases (gateStr_ok.mp htext : some (Json.str e.sourceSha) = some (.str text))
    obtain ⟨_, -, hdigest⟩ := bind_ok.mp hdigest
    cases hdigest
    obtain ⟨-, h⟩ := ensure_bind_ok.mp h
    obtain ⟨cands, hcands, h⟩ := bind_ok.mp h
    cases (gateList_ok.mp hcands : some (Json.arr (e.candidates.map CandidateRecord.json)) = some (.arr cands))
    obtain ⟨hne, h⟩ := ensure_bind_ok.mp h
    obtain ⟨found, hfound, h⟩ := bind_ok.mp h
    obtain ⟨hfrozen, rfl⟩ := (gateFound_ok hv hs).mp hfound
    obtain ⟨_, -, h⟩ := bind_ok.mp h
    cases h
    exact ⟨fun hnil => hne (List.map_eq_nil_iff.mpr hnil), hfrozen, rfl⟩
  · rintro ⟨hne, hfrozen, rfl⟩
    have hpath : ∀ ctx, requireCanonicalRelpath e.classFile ctx = .ok () := fun _ => ensure_ok.mpr (by
      rw [Bool.and_eq_true]
      exact hv.path)
    refine bind_ok.mpr ⟨(), exactKeys_ok.mpr (List.Perm.refl _), ensure_bind_ok.mpr ⟨⟨rfl, rfl⟩, ensure_bind_ok.mpr ⟨rfl, ?_⟩⟩⟩
    refine bind_ok.mpr ⟨_, gateObj_ok.mpr rfl, bind_ok.mpr ⟨(), exactKeys_ok.mpr (List.Perm.refl _),
      bind_ok.mpr ⟨_, gateStr_ok.mpr rfl, ?_⟩⟩⟩
    refine bind_ok.mpr ⟨_, gateObj_ok.mpr rfl, bind_ok.mpr ⟨_, gateType_ok, bind_ok.mpr ⟨_, gateStr_ok.mpr rfl, ?_⟩⟩⟩
    refine bind_ok.mpr ⟨_, gateStr_ok.mpr rfl, bind_ok.mpr ⟨(), hpath _, bind_ok.mpr ⟨_, gateObj_ok.mpr rfl, ?_⟩⟩⟩
    refine bind_ok.mpr ⟨(), checkConstraints_ok, bind_ok.mpr ⟨_, gateSource_ok rfl, bind_ok.mpr ⟨_, gateStr_ok.mpr rfl, ?_⟩⟩⟩
    refine bind_ok.mpr ⟨(), hpath _, bind_ok.mpr ⟨e.sourceSha, ?_,
      ensure_bind_ok.mpr ⟨rfl, bind_ok.mpr ⟨_, gateList_ok.mpr rfl, ?_⟩⟩⟩⟩
    · exact bind_ok.mpr ⟨e.sourceSha, rfl, bind_ok.mpr ⟨(), ensure_ok.mpr hv.digest, rfl⟩⟩
    · refine ensure_bind_ok.mpr ⟨fun hnil => hne (List.map_eq_nil_iff.mp hnil), ?_⟩
      refine bind_ok.mpr ⟨_, (gateFound_ok hv hs).mpr ⟨hfrozen, rfl⟩, bind_ok.mpr ⟨(), ?_, rfl⟩⟩
      rw [hids]
      exact gateSelected_ok hv

theorem gateDecision_json (hv : e.Valid) (ha : Actions e act) {i : Nat} {c : CandidateRecord} (hi : e.candidates[i]? = some c)
    (hc : c.Frozen) : gateDecision e.gateFacts i (c.decision (act c.findingId)) = .ok (c.findingId,
      decide (act c.findingId = "convert_acquire")) := by
  have hmem : c ∈ e.candidates := List.mem_of_getElem? hi
  have hfact : e.gateFacts.candidates[i]? = some (c.findingId, c.allowed) := by
    show (e.candidates.map fun c => (c.findingId, c.allowed))[i]? = _
    rw [List.getElem?_map, hi]
    rfl
  unfold gateDecision
  rw [hfact]
  refine bind_ok.mpr ⟨_, gateObj_ok.mpr rfl, bind_ok.mpr ⟨(), exactKeys_ok.mpr (List.Perm.refl _),
    bind_ok.mpr ⟨_, gateStr_ok.mpr rfl, ?_⟩⟩⟩
  refine bind_ok.mpr ⟨(c.findingId, c.allowed), ?_, bind_ok.mpr ⟨_, gateStr_ok.mpr rfl, ensure_bind_ok.mpr ⟨ha.known c hmem, ?_⟩⟩⟩
  · rw [require_ok, Option.filter_eq_some_iff]
    exact ⟨rfl, decide_eq_true rfl⟩
  · refine ensure_bind_ok.mpr ⟨ha.own c hmem, bind_ok.mpr ⟨_, gateStr_ok.mpr rfl, ensure_bind_ok.mpr ⟨(hv.each c hmem).file, ?_⟩⟩⟩
    exact bind_ok.mpr ⟨_, gateSpan_ok.mpr ⟨hc.span, rfl⟩, ensure_bind_ok.mpr ⟨rfl, rfl⟩⟩

theorem gate_iff (hv : e.Valid) (hs : ∀ c ∈ e.candidates, c.Collected) (ha : Actions e act) :
    (∃ auth, validateGateAuthority sha (e.plan sha act) e.json = .ok auth) ↔ e.candidates ≠ [] ∧
    ∀ c ∈ e.candidates, c.Frozen := by
  unfold validateGateAuthority
  constructor
  · rintro ⟨auth, h⟩
    obtain ⟨p, hp, h⟩ := bind_ok.mp h
    obtain ⟨b, hb, h⟩ := bind_ok.mp h
    cases gateObj_ok.mp hb
    obtain ⟨facts, hfacts, -⟩ := bind_ok.mp h
    obtain ⟨hne, hfrozen, -⟩ := (gateCandidates_json hv hs).mp hfacts
    exact ⟨hne, hfrozen⟩
  · rintro ⟨hne, hfrozen⟩
    refine passes_bind.mpr ⟨_, gateObj_ok.mpr rfl, passes_bind.mpr ⟨_, gateObj_ok.mpr rfl, ?_⟩⟩
    refine passes_bind.mpr ⟨_, (gateCandidates_json hv hs).mpr ⟨hne, hfrozen, rfl⟩, ?_⟩
    refine passes_bind.mpr ⟨(), exactKeys_ok.mpr (List.Perm.refl _), passes_ensure.mpr ⟨⟨rfl, rfl⟩, passes_ensure.mpr ⟨rfl, ?_⟩⟩⟩
    refine passes_bind.mpr ⟨bundleSha256 sha e.json, ?_, passes_ensure.mpr ⟨rfl, passes_bind.mpr ⟨_, gateObj_ok.mpr rfl, ?_⟩⟩⟩
    · exact bind_ok.mpr ⟨_, rfl, bind_ok.mpr ⟨(), ensure_ok.mpr (bundleSha256_ok sha _), rfl⟩⟩
    refine passes_bind.mpr ⟨(), exactKeys_ok.mpr (List.Perm.refl _),
      passes_bind.mpr ⟨_, gateStr_ok.mpr rfl, passes_ensure.mpr ⟨rfl, ?_⟩⟩⟩
    refine passes_bind.mpr ⟨_, gateObj_ok.mpr rfl, passes_bind.mpr ⟨_, gateType_ok, passes_bind.mpr ⟨_, gateStr_ok.mpr rfl, ?_⟩⟩⟩
    refine passes_ensure.mpr ⟨rfl, passes_bind.mpr ⟨_, gateStr_ok.mpr rfl, passes_ensure.mpr ⟨rfl, ?_⟩⟩⟩
    refine passes_bind.mpr ⟨_, gateObj_ok.mpr rfl, passes_bind.mpr ⟨(), checkConstraints_ok, passes_ensure.mpr ⟨?_, ?_⟩⟩⟩
    · have hselected : Json.plain (selectedJson e.selectedFindings) = true := by
        cases e.selectedFindings with
        | none => rfl
        | some ids => exact plainItems_texts ids
      exact Json.eqv_self _ hselected
    refine passes_bind.mpr ⟨_, gateSource_ok rfl, passes_bind.mpr ⟨_, gateStr_ok.mpr rfl, passes_ensure.mpr ⟨rfl, ?_⟩⟩⟩
    refine passes_bind.mpr ⟨_, gateStr_ok.mpr rfl, passes_ensure.mpr ⟨rfl, passes_bind.mpr ⟨_, gateList_ok.mpr rfl, ?_⟩⟩⟩
    refine passes_ensure.mpr ⟨?_, passes_bind.mpr ⟨e.candidates.map fun c => (c.findingId,
      decide (act c.findingId = "convert_acquire")), ?_, _, rfl⟩⟩
    · show (e.candidates.map _).length = (e.candidates.map _).length
      rw [List.length_map, List.length_map]
    · refine mapEach_of_get (by rw [List.length_map, List.length_map]) fun j hj => ?_
      have hj : j < e.candidates.length := by simpa using hj
      simp only [List.getElem_map, List.get_eq_getElem]
      exact gateDecision_json hv ha (List.getElem?_eq_getElem hj) (hfrozen _ (List.getElem_mem hj))

end Gate

/-! ## The two gates -/

/-- Where the plan converts. -/
def conversions (plan : Json) : List (Int × Int) :=
  let decisions := ((Json.get (plan.asObj.getD []) "decisions").asArr.getD []).map fun d => d.asObj.getD []
  (decisions.filter fun d => textOf d "action" = "convert_acquire").map fun d => rangeOf (Json.get d "acquire_span")

theorem conversions_plan (sha : Sha) (e : Envelope) (act : String → String) :
    conversions (e.plan sha act) = (converted e act).map fun c => rangeOf c.acquireSpan := by
  show (((e.candidates.map fun c => c.decision (act c.findingId)).map fun d => d.asObj.getD []).filter _).map _ = _
  rw [List.map_map, List.filter_map, List.map_map]
  rfl

namespace Example

/-- The digests of the three texts that are hashed here, told apart by their lengths. -/
def digestOf (text : String) : String :=
  if text.length < 200 then "7b121ddaa75c04a48c528b0d0fafb2822fd0e88855416767d301a94fd13b62f2"
  else if text.length < 600 then "e6a064fa7a80256d5ec95ae0d1c895daffb7a266b9bab1f345c03d97c1746667"
  else "0b11b9161a25f9850d535474c427840bde2476866cc6f8fe19829fdcd7c75fde"

def hashed : Sha where
  hex := digestOf
  digest text := by
    unfold digestOf
    split
    next => decide +kernel
    next => split <;> decide +kernel

def sourceSha : String := "sha256:7895df3660b3dd4f8645852cb2b6052355354689913a5ae80a405ec8d5fa0b7d"

/-- A root with one file. -/
def oneFile : Root where
  resolve path := if path = "View.cs" then .ok ("View.cs", "/src/View.cs") else .error
    (path ++ ": not a regular file under the root")
  shaFile place := if place = "/src/View.cs" then some sourceSha else none

def subscription : Json :=
  .obj [("event", .str "model.PropertyChanged"), ("handler", .str "OnChanged"), ("resource", .str "subscription"),
    ("released", .bool false), ("fix", .obj [("enclosing_member", .str "View()"), ("event_identity", .str "P.PropertyChanged"),
      ("event_contract", .str "inotify_property_changed"), ("source_identity",
        .str "model"), ("source_identity_kind", .str "field"),
      ("handler_identity", .str "OnChanged"), ("handler_identity_kind", .str "method"), ("occurrence_ordinal", .int 0),
      ("span", .obj [("start", .int 10), ("length", .int 5), ("start_line", .int 1), ("start_column", .int 11),
        ("end_line", .int 1),
        ("end_column", .int 16)]),
      ("teardown", .obj [("status", .str "none"), ("candidates", .arr [])])])]

/-- A view with these subscriptions. -/
def viewFacts (subs : List Json) : Fields :=
  [("fix_candidates_version", .int 1), ("components", .arr [.obj [("qualified_name", .str "App.View"), ("file", .str "View.cs"),
    ("is_partial", .bool false), ("is_nested", .bool false), ("is_generated", .bool false), ("subscriptions", .arr subs)]])]

/-- What is collected of a view. -/
def viewEnvelope (cands : List CandidateRecord) : Envelope where
  targetSubscribe := "Weak.Subscribe"
  classFqn := "App.View"
  classFile := "View.cs"
  selectedFindings := none
  sourceSha := sourceSha
  candidates := cands

def fixFields : Fields := (Json.get (subscription.asObj.getD []) "fix").asObj.getD []

def found : CandidateRecord := bundleOf hashed (subscription.asObj.getD []) fixFields "App.View" "View.cs"

theorem found_frozen : found.Frozen := by
  have hspan : gateSpan fixFields "span" "fix" = .ok [10, 5, 1, 11, 1, 16] := rfl
  have htear : gateTeardown (Json.get fixFields "teardown") "fix" = .ok () := rfl
  exact ⟨Int.le_refl 0, (gateSpan_ok.mp hspan).1, gateTeardown_ok.mp htear⟩

def viewPlan (decisions : List Json) : Json := .obj [("version", .int 1), ("decisions", .arr decisions)]

end Example

/-- The plan of a collection passes the gate of the rewriter and the self-gate exactly where there is a candidate, all
    are of the frozen shape, no two conversions overlap and the root still has the source. -/
theorem gates_agree_iff {sha : Sha} {root root' : Root} {facts : Fields} {target classFqn : String} {ids : Option (List String)}
    {e : Envelope} {plan v : Json} (hc : collectCandidates sha root facts target classFqn ids = .ok e)
    (hp : validatePlan sha e.json plan = .ok v) :
    ((∃ ctx, validateApplyInputs sha root' v e.json = .ok ctx) ∧ ∃ auth, validateGateAuthority sha v e.json = .ok auth) ↔
      e.candidates ≠ [] ∧ (∀ c ∈ e.candidates, c.Frozen) ∧ apart (conversions v) ∧ Fresh root' e := by
  obtain ⟨hv, act, hact, rfl⟩ := validatePlan_spec hp
  have hs : ∀ c ∈ e.candidates, c.Collected := collect_spec hc
  have ha : Actions e act := ⟨fun c hc => (hact c hc).1, fun c hc => (hact c hc).2, fun c hc hconvert =>
    (hs c hc).actions.2.2.2 (hconvert ▸ (hact c hc).2)⟩
  have hb : validateCandidatesBundle e.json = .ok () := by
    unfold validatePlan at hp
    obtain ⟨_, hbundle, -⟩ := bind_ok.mp hp
    exact recast_ok.mp hbundle
  rw [gate_iff hv hs ha, conversions_plan]
  constructor
  · rintro ⟨happly, hne, hfrozen⟩
    exact ⟨hne, hfrozen, (apply_iff hv hb ha fun c hc => (hfrozen c hc).span).mp happly⟩
  · rintro ⟨hne, hfrozen, hrest⟩
    exact ⟨(apply_iff hv hb ha fun c hc => (hfrozen c hc).span).mpr hrest, hne, hfrozen⟩

open Example in
/-- A view with one subscription, converted. -/
theorem gates_agree_one : ∃ v, validatePlan hashed (viewEnvelope [found]).json
      (viewPlan [.obj [("finding_id", .str found.findingId), ("action", .str "convert_acquire")]]) = .ok v ∧
    (∃ ctx, validateApplyInputs hashed oneFile v (viewEnvelope [found]).json = .ok ctx) ∧
      ∃ auth, validateGateAuthority hashed v (viewEnvelope [found]).json = .ok auth := by
  have hc : collectCandidates hashed oneFile (viewFacts [subscription]) "Weak.Subscribe" "App.View" none = .ok
      (viewEnvelope [found]) :=
    rfl
  have hok : (match validatePlan hashed (viewEnvelope [found]).json
      (viewPlan [.obj [("finding_id", .str found.findingId), ("action", .str "convert_acquire")]]) with
    | .ok v => decide (apart (conversions v))
    | .error _ => false) = true := by decide +kernel
  split at hok
  next v hp =>
    refine ⟨v, hp, (gates_agree_iff hc hp).mpr ⟨List.cons_ne_nil _ _, fun c hin => ?_, of_decide_eq_true hok, _, rfl, rfl⟩⟩
    rw [List.mem_singleton.mp hin]
    exact found_frozen
  next => cases hok

open Example in
/-- A view without subscriptions: its plan decides nothing and is validated, and the self-gate refuses it. -/
theorem empty_bundle_refused : ¬ ∀ (sha : Sha) (root : Root) (facts : Fields) (target classFqn : String)
    (ids : Option (List String))
    (e : Envelope) (plan v : Json), collectCandidates sha root facts target classFqn ids = .ok e →
    validatePlan sha e.json plan = .ok v →
    (∃ ctx, validateApplyInputs sha root v e.json = .ok ctx) ∧ ∃ auth, validateGateAuthority sha v e.json = .ok auth := by
  intro h
  have hc : collectCandidates hashed oneFile (viewFacts []) "Weak.Subscribe" "App.View" none = .ok (viewEnvelope []) := rfl
  have hok : (match validatePlan hashed (viewEnvelope []).json (viewPlan []) with
    | .ok v => !(validateGateAuthority hashed v (viewEnvelope []).json).isOk
    | .error _ => false) = true := by decide +kernel
  split at hok
  next v hp =>
    obtain ⟨auth, hauth⟩ := (h _ _ _ _ _ _ _ _ v hc hp).2
    rw [hauth] at hok
    cases hok
  next => cases hok

end OwnNet.Fix
