/-
  OwnNet.Fix.BindDelta — `bind_delta`: the published delta, read from the bytes it was published
  as, taken for the upstream authority of one plan and its candidates.

  Outside the model are the reader of JSON and the hash: `loads` is any reader and `sha` any hash.
  A reader may find code points in a text that no encoding has; such a document has no bytes of
  its own.

  Proved: `bind_delta_iff`: what binds is exactly what carries the frozen keys, seventeen passes and
  the hashes, target and ids of the inputs; and where the refusal is not the controlled one.
-/

import OwnNet.Fix.Certify
import OwnNet.Fix.Gate
import OwnNet.Fix.Patch
import OwnNet.Json.Held

namespace OwnNet.Fix

open Checks

/-! ## Documents as they are read -/

/-- A text is its code points, among which a surrogate may stand alone; a float is the text written for it. -/
inductive Doc where
  | null
  | bool (b : Bool)
  | int (n : Int)
  | float (text : String)
  | str (points : List CodePoint)
  | arr (items : List Doc)
  | obj (fields : List (List CodePoint × Doc))

def charOf (c : CodePoint) : Option Char := if c.val.isValidChar then some (Char.ofNat c.val) else none

def pointOf (c : Char) : CodePoint := Fin.ofNat 0x110000 c.toNat

def pointsOf (text : String) : List CodePoint := text.toList.map pointOf

/-- The text that can be encoded. -/
def plainText (points : List CodePoint) : Option String := (points.mapM charOf).map String.ofList

mutual

/-- The document, where every text of it can be encoded. -/
def Doc.encodable : Doc → Option Json
  | .null => some .null
  | .bool b => some (.bool b)
  | .int n => some (.int n)
  | .float text => some (.float text)
  | .str points => (plainText points).map .str
  | .arr items => (encodableItems items).map .arr
  | .obj fields => (encodableFields fields).map .obj

def encodableItems : List Doc → Option (List Json)
  | [] => some []
  | d :: rest => d.encodable.bind fun j => (encodableItems rest).map (j :: ·)

def encodableFields : List (List CodePoint × Doc) → Option Fields
  | [] => some []
  | (k, d) :: rest =>
    (plainText k).bind fun key => d.encodable.bind fun j => (encodableFields rest).map ((key, j) :: ·)

end

mutual

/-- A document without such a text. -/
def docOf : Json → Doc
  | .null => .null
  | .bool b => .bool b
  | .int n => .int n
  | .float text => .float text
  | .str s => .str (pointsOf s)
  | .arr items => .arr (docItems items)
  | .obj fields => .obj (docFields fields)

def docItems : List Json → List Doc
  | [] => []
  | j :: rest => docOf j :: docItems rest

def docFields : Fields → List (List CodePoint × Doc)
  | [] => []
  | (k, j) :: rest => (pointsOf k, docOf j) :: docFields rest

end

theorem charOf_point (c : Char) : charOf (pointOf c) = some c := by
  have hvalid : c.toNat.isValidChar := c.valid
  have hval : (pointOf c).val = c.toNat := by
    refine Nat.mod_eq_of_lt ?_
    simp only [Nat.isValidChar] at hvalid
    omega
  unfold charOf
  rw [hval]
  simp [hvalid, Char.ofNat_toNat]

theorem plainText_points (text : String) : plainText (pointsOf text) = some text := by
  have hall : ∀ cs : List Char, (cs.map pointOf).mapM charOf = some cs := by
    intro cs
    induction cs with
    | nil => rfl
    | cons c rest ih =>
      rw [List.map_cons, List.mapM_cons, charOf_point, ih]
      rfl
  unfold plainText pointsOf
  rw [hall, Option.map_some, String.ofList_toList]

theorem encodable_docOf : ∀ j, (docOf j).encodable = some j := by
  apply Json.induct (P := fun j => (docOf j).encodable = some j) (Q := fun items => encodableItems (docItems items) = some items)
    (R := fun fields => encodableFields (docFields fields) = some fields)
  · rfl
  · exact fun _ => rfl
  · exact fun _ => rfl
  · exact fun _ => rfl
  · intro s
    rw [docOf, Doc.encodable, plainText_points, Option.map_some]
  · intro items ih
    rw [docOf, Doc.encodable, ih, Option.map_some]
  · intro fields ih
    rw [docOf, Doc.encodable, ih, Option.map_some]
  · rfl
  · intro j js hj hjs
    rw [docItems, encodableItems, hj, hjs]
    rfl
  · rfl
  · intro k j rest hj hrest
    rw [docFields, encodableFields, plainText_points, hj, hrest]
    rfl

/-- What `json.loads` makes of bytes; a document that is nested too deep it gives up with no `ValueError`. -/
inductive Loaded where
  | document (doc : Doc)
  | valueError (text : String)
  | recursionError

/-- `_canonical_bytes`, of a document that can be encoded. -/
def canonicalBytes (j : Json) : Bytes := utf8 (pointsOf j.dumps) ++ [lf]

/-! ## Frozen shapes -/

inductive BindError where
  | targetError (category message : String)
  | typeError (message : String)
  | unicodeEncodeError
  | recursionError
  deriving DecidableEq

def deltaBinding : String := "DELTA_BINDING"

def wrong (message : String) : BindError := .targetError deltaBinding ("delta-result.json " ++ message)

/-- `_DELTA_TOP_KEYS` -/
def deltaTopKeys : List String :=
  ["schema", "operation", "status", "analysis_scope", "input_hashes", "gate_binding", "toolchain_fingerprint",
    "reference_closure",
    "target_api", "expected", "baseline", "postimage", "delta", "semantic_idempotence", "checks"]

/-- `_DELTA_IH_KEYS` -/
def deltaIhKeys : List String :=
  ["input_bundle_sha256", "validated_plan_sha256", "candidates_sha256", "apply_manifest_sha256", "patch_sha256", "pre_sha256",
    "post_sha256"]

/-- `_DELTA_RID_KEYS` -/
def deltaRidKeys : List String :=
  ["framework_name", "tfm", "requested_framework_version", "selected_framework_version", "runtime_manifest_sha256"]

/-- `_DELTA_SCOPE_KEYS` -/
def deltaScopeKeys : List String :=
  ["source_file", "selected_class", "closure_kind", "reference_dir_count", "target_file_identity"]

def scopeTexts : List String := ["source_file", "selected_class", "closure_kind", "target_file_identity"]

/-- `_DELTA_TAPI_KEYS` -/
def deltaTapiKeys : List String := ["subscribe"]

/-- `_DELTA_EXP_KEYS` -/
def deltaExpKeys : List String := ["convert_acquire_ids", "manual_review_ids"]

/-- `_DELTA_RC_KEYS` -/
def deltaRcKeys : List String := ["ordinal", "source_dir_ordinal", "relative_path", "sha256"]

/-- `_STEP10_CHECKS` -/
def step10Checks : List String :=
  ["input_layout", "authority_binding", "gate_binding", "toolchain_binding", "core_analyzer_binding", "analysis_scope",
    "baseline_authority", "baseline_analysis", "postimage_analysis", "analysis_identity", "delta_subscription", "delta_core",
    "new_own001", "new_own050", "semantic_idempotence", "isolation", "publication"]

def isString (j : Json) : Bool := j.asStr.isSome

/-- `_is_int`, and not below zero. -/
def isCount (j : Json) : Bool := j.asInteger.any fun n => 0 ≤ n

def isTextList (j : Json) : Bool := (j.asArr.bind texts).isSome

/-- An object with exactly these keys, of whose values `p` holds. -/
def shaped (j : Json) (keys : List String) (p : Fields → Bool) : Bool :=
  match j with
  | .obj f => decide (Json.hasKeys f keys) && p f
  | _ => false

/-- `tfp.get("resolved_runtime_identity") if isinstance(tfp, dict) else None` -/
def runtimeIdentity (fingerprint : Json) : Json :=
  match fingerprint with
  | .obj tfp => Json.get tfp "resolved_runtime_identity"
  | _ => .null

def closureEntry (i : Nat) (entry : Json) : Except BindError Unit :=
  ensure (shaped entry deltaRcKeys fun e => isCount (Json.get e "ordinal") && isCount (Json.get e "source_dir_ordinal") &&
      isString (Json.get e "relative_path") && isSha (Json.get e "sha256"))
    (wrong "reference_closure entry is malformed") >>= fun _ =>
  ensure ((Json.get (entry.asObj.getD []) "ordinal").asInteger = some (i : Int))
    (wrong "reference_closure ordinal is out of order")

/-- `_bind_delta_shapes` -/
def bindDeltaShapes (d : Fields) : Except BindError Unit :=
  ensure (shaped (Json.get d "input_hashes") deltaIhKeys fun ih => deltaIhKeys.all fun k => isSha (Json.get ih k))
    (wrong "input_hashes shape is wrong") >>= fun _ =>
  ensure (shaped (Json.get d "analysis_scope") deltaScopeKeys fun scope =>
      (scopeTexts.all fun k => isString (Json.get scope k)) && isCount (Json.get scope "reference_dir_count"))
    (wrong "analysis_scope shape is wrong") >>= fun _ =>
  ensure (shaped (runtimeIdentity (Json.get d "toolchain_fingerprint")) deltaRidKeys fun rid =>
      (deltaRidKeys.all fun k => isString (Json.get rid k)) && isSha (Json.get rid "runtime_manifest_sha256"))
    (wrong "resolved_runtime_identity shape is wrong") >>= fun _ =>
  ensure (shaped (Json.get d "target_api") deltaTapiKeys fun tapi => isString (Json.get tapi "subscribe"))
    (wrong "target_api shape is wrong") >>= fun _ =>
  ensure (shaped (Json.get d "expected") deltaExpKeys fun exp => deltaExpKeys.all fun k => isTextList (Json.get exp k))
    (wrong "expected shape is wrong") >>= fun _ =>
  require (Json.get d "reference_closure").asArr (wrong "reference_closure shape is wrong") >>= fun rc =>
  each closureEntry rc

/-! ## Binding -/

section

variable (loads : Bytes → Loaded) (sha : Bytes → String)

/-- `_sha_bytes` -/
def shaBytes (data : Bytes) : String := "sha256:" ++ sha data

/-- The bytes' document, which has no other bytes than these. -/
def readCanonical (bytes : Bytes) : Except BindError Json :=
  match loads bytes with
  | .valueError text => .error (wrong ("is not valid JSON (" ++ text ++ ")"))
  | .recursionError => .error .recursionError
  | .document doc =>
    require doc.encodable .unicodeEncodeError >>= fun j =>
    ensure (canonicalBytes j = bytes) (wrong "is not canonical bytes") >>= fun _ => .ok j

/-- The seventeen checks: their values are made a set of, and that set is to be a pass and no more. -/
def bindChecks (checks : Json) : Except BindError Unit :=
  let message := wrong "checks are not the seventeen all-pass set"
  require checks.asObj message >>= fun c =>
  ensure (Json.hasKeys c step10Checks) message >>= fun _ =>
  each (fun _ check => ensure (check.2.hashable) (.typeError ("unhashable type: '" ++ Json.typeName check.2 ++
      "'"))) c >>= fun _ =>
  ensure (∀ check ∈ c, check.2.asStr = some "pass") message

/-- `bind_delta` -/
def bindDelta (bytes : Bytes) (auth : GateAuthority) (planBytes candidatesBytes : Bytes) : Except BindError Fields :=
  ensure (terminated bytes) (wrong "is missing its trailing newline") >>= fun _ =>
  readCanonical loads bytes >>= fun j =>
  require (j.asObj.filter fun d => Json.hasKeys d deltaTopKeys) (wrong "has unknown or missing top-level keys") >>= fun d =>
  bindDeltaShapes d >>= fun _ =>
  ensure ((Json.get d "schema").asInteger = some 1 ∧ (Json.get d "operation").asStr = some "verify-subscription-analyzer-delta" ∧
      (Json.get d "status").asStr = some "pass")
    (wrong "schema/operation/status is wrong") >>= fun _ =>
  bindChecks (Json.get d "checks") >>= fun _ =>
  let ih := (Json.get d "input_hashes").asObj.getD []
  ensure ((Json.get ih "input_bundle_sha256").asStr = some auth.inputBundleSha256 ∧
      (Json.get ih "validated_plan_sha256").asStr = some (shaBytes sha planBytes) ∧
      (Json.get ih "candidates_sha256").asStr = some (shaBytes sha candidatesBytes))
    (wrong "is not bound to these plan/candidates") >>= fun _ =>
  ensure ((Json.get ((Json.get d "target_api").asObj.getD []) "subscribe").asStr = some auth.targetSubscribe)
    (wrong "target_api does not bind the plan") >>= fun _ =>
  let exp := (Json.get d "expected").asObj.getD []
  ensure (isTexts (Json.get exp "convert_acquire_ids") (auth.applied.insertionSort (· ≤ ·)) ∧
      isTexts (Json.get exp "manual_review_ids") (auth.manual.insertionSort (· ≤ ·)))
    (wrong "expected ids do not bind the plan") >>= fun _ => .ok d

end

/-! ## What is frozen -/

/-- An entry of the reference closure, at its position. -/
structure FrozenEntry (i : Nat) (e : Fields) : Prop where
  keys : Json.hasKeys e deltaRcKeys
  ordinal : Json.get e "ordinal" = .int i
  sourceDir : isCount (Json.get e "source_dir_ordinal") = true
  path : isString (Json.get e "relative_path") = true
  digest : isSha (Json.get e "sha256") = true

structure FrozenShapes (d : Fields) : Prop where
  inputHashes : ∃ ih, Json.get d "input_hashes" = .obj ih ∧ Json.hasKeys ih deltaIhKeys ∧
    ∀ k ∈ deltaIhKeys, isSha (Json.get ih k) = true
  scope : ∃ scope, Json.get d "analysis_scope" = .obj scope ∧ Json.hasKeys scope deltaScopeKeys ∧
    (∀ k ∈ scopeTexts, isString (Json.get scope k) = true) ∧ isCount (Json.get scope "reference_dir_count") = true
  runtime : ∃ tfp rid, Json.get d "toolchain_fingerprint" = .obj tfp ∧ Json.get tfp "resolved_runtime_identity" = .obj rid ∧
    Json.hasKeys rid deltaRidKeys ∧ (∀ k ∈ deltaRidKeys, isString (Json.get rid k) = true) ∧
    isSha (Json.get rid "runtime_manifest_sha256") = true
  target : ∃ tapi, Json.get d "target_api" = .obj tapi ∧ Json.hasKeys tapi deltaTapiKeys ∧
    isString (Json.get tapi "subscribe") = true
  expected : ∃ exp, Json.get d "expected" = .obj exp ∧ Json.hasKeys exp deltaExpKeys ∧
    ∀ k ∈ deltaExpKeys, isTextList (Json.get exp k) = true
  closure : ∃ rc, Json.get d "reference_closure" = .arr rc ∧ ∀ i, ∀ h : i < rc.length, ∃ e, rc[i] = .obj e ∧ FrozenEntry i e

theorem shaped_iff {j : Json} {keys : List String} {p : Fields → Bool} :
    shaped j keys p = true ↔ ∃ f, j = .obj f ∧ Json.hasKeys f keys ∧ p f = true := by
  cases j <;> simp [shaped]

theorem runtimeIdentity_obj {fingerprint : Json} {rid : Fields} :
    runtimeIdentity fingerprint = .obj rid ↔ ∃ tfp, fingerprint = .obj tfp ∧
        Json.get tfp "resolved_runtime_identity" = .obj rid := by
  cases fingerprint <;> simp [runtimeIdentity]

theorem closureEntry_ok {i : Nat} {entry : Json} : closureEntry i entry = .ok () ↔ ∃ e, entry = .obj e ∧ FrozenEntry i e := by
  unfold closureEntry
  rw [ensure_bind_ok, ensure_ok, shaped_iff]
  simp only [Bool.and_eq_true]
  constructor
  · rintro ⟨⟨e, rfl, hkeys, ⟨⟨-, hdir⟩, hpath⟩, hsha⟩, hordinal⟩
    refine ⟨e, rfl, hkeys, ?_, hdir, hpath, hsha⟩
    exact Json.asInteger_iff.mp hordinal
  · rintro ⟨e, rfl, h⟩
    refine ⟨⟨e, rfl, h.keys, ⟨⟨?_, h.sourceDir⟩, h.path⟩, h.digest⟩, ?_⟩
    · simp [h.ordinal, isCount, Json.asInteger]
    · simp [h.ordinal, Json.asObj, Json.asInteger]

theorem closureEntries_ok {rc : List Json} {u : Unit} :
    each closureEntry rc = .ok u ↔ ∀ i, ∀ h : i < rc.length, ∃ e, rc[i] = .obj e ∧ FrozenEntry i e := by
  unfold each
  rw [eachFrom_ok]
  simp only [Nat.zero_add, closureEntry_ok]

theorem bindDeltaShapes_ok {d : Fields} {u : Unit} : bindDeltaShapes d = .ok u ↔ FrozenShapes d := by
  unfold bindDeltaShapes
  rw [ensure_bind_ok, ensure_bind_ok, ensure_bind_ok, ensure_bind_ok, ensure_bind_ok]
  simp only [bind_ok, require_ok, shaped_iff, runtimeIdentity_obj, Bool.and_eq_true, List.all_eq_true,
    closureEntries_ok, Json.asArr_iff]
  constructor
  · rintro ⟨hih, hscope, ⟨rid, ⟨tfp, htfp, hrid⟩, hkeys, htexts, hsha⟩, htarget, hexp, rc, hrc, hentries⟩
    exact ⟨hih, hscope, ⟨tfp, rid, htfp, hrid, hkeys, htexts, hsha⟩, htarget, hexp, rc, hrc, hentries⟩
  · rintro ⟨hih, hscope, ⟨tfp, rid, htfp, hrid, hkeys, htexts, hsha⟩, htarget, hexp, rc, hrc, hentries⟩
    exact ⟨hih, hscope, ⟨rid, ⟨tfp, htfp, hrid⟩, hkeys, htexts, hsha⟩, htarget, hexp, rc, hrc, hentries⟩

/-- What the document says it is. -/
structure Headed (d : Fields) : Prop where
  schema : Json.get d "schema" = .int 1
  operation : Json.get d "operation" = .str "verify-subscription-analyzer-delta"
  status : Json.get d "status" = .str "pass"

/-- Seventeen passes. -/
def AllPass (checks : Json) : Prop := ∃ c, checks = .obj c ∧ Json.hasKeys c step10Checks ∧ ∀ check ∈ c, check.2 = .str "pass"

section

variable {loads : Bytes → Loaded} {sha : Bytes → String} {bytes : Bytes}

theorem readCanonical_ok {j : Json} :
    readCanonical loads bytes = .ok j ↔ ∃ doc, loads bytes = .document doc ∧ doc.encodable = some j ∧
        canonicalBytes j = bytes := by
  unfold readCanonical
  cases hload : loads bytes with
  | valueError text => simp
  | recursionError => simp
  | document doc =>
    simp only [bind_ok, require_ok, ensure_ok, Except.ok.injEq]
    constructor
    · rintro ⟨_, hdoc, _, hbytes, rfl⟩
      exact ⟨doc, rfl, hdoc, hbytes⟩
    · rintro ⟨_, hsame, hdoc, hbytes⟩
      cases hsame
      exact ⟨j, hdoc, (), hbytes, rfl⟩

theorem bindChecks_ok {checks : Json} {u : Unit} : bindChecks checks = .ok u ↔ AllPass checks := by
  have heach : ∀ c : Fields, each (fun _ check => ensure (check.2.hashable)
      (BindError.typeError ("unhashable type: '" ++ Json.typeName check.2 ++ "'"))) c = .ok () ↔ ∀ check ∈ c,
        check.2.hashable = true :=
    fun _ => each_ok fun _ _ _ => ensure_ok
  unfold bindChecks AllPass
  simp only [bind_ok, require_ok, Json.asObj_iff, ensure_ok, heach, Json.asStr_iff]
  constructor
  · rintro ⟨c, rfl, _, hkeys, _, -, hpass⟩
    exact ⟨c, rfl, hkeys, hpass⟩
  · rintro ⟨c, rfl, hkeys, hpass⟩
    refine ⟨c, rfl, (), hkeys, (), fun check hin => ?_, hpass⟩
    rw [hpass check hin]
    rfl

end

/-! ## What binds -/

section

variable (loads : Bytes → Loaded) (sha : Bytes → String) (bytes : Bytes) (auth : GateAuthority)
    (planBytes candidatesBytes : Bytes)

/-- The delta of exactly these inputs. -/
structure Bound (d : Fields) : Prop where
  newline : terminated bytes = true
  read : ∃ doc, loads bytes = .document doc ∧ doc.encodable = some (.obj d)
  canonical : canonicalBytes (.obj d) = bytes
  keys : Json.hasKeys d deltaTopKeys
  shapes : FrozenShapes d
  head : Headed d
  checks : AllPass (Json.get d "checks")
  bundle : ∃ ih, Json.get d "input_hashes" = .obj ih ∧ Json.get ih "input_bundle_sha256" = .str auth.inputBundleSha256 ∧
    Json.get ih "validated_plan_sha256" = .str (shaBytes sha planBytes) ∧
    Json.get ih "candidates_sha256" = .str (shaBytes sha candidatesBytes)
  target : ∃ tapi, Json.get d "target_api" = .obj tapi ∧ Json.get tapi "subscribe" = .str auth.targetSubscribe
  expected : ∃ exp, Json.get d "expected" = .obj exp ∧
    Json.get exp "convert_acquire_ids" = .arr ((auth.applied.insertionSort (· ≤ ·)).map .str) ∧
    Json.get exp "manual_review_ids" = .arr ((auth.manual.insertionSort (· ≤ ·)).map .str)

variable {loads sha bytes auth planBytes candidatesBytes}

theorem texts_eq_strings (items : List Json) : texts items = Json.strings items := by
  induction items with
  | nil => rfl
  | cons j rest ih => cases j <;> simp [texts, Json.strings, ih]

theorem isTexts_iff {j : Json} {ids : List String} : isTexts j ids = true ↔ j = .arr (ids.map .str) := by
  cases j with
  | arr items => simp [isTexts, texts_eq_strings, Json.strings_eq]
  | _ => simp [isTexts]

theorem bindDelta_ok {d : Fields} :
    bindDelta loads sha bytes auth planBytes candidatesBytes = .ok d ↔
        Bound loads sha bytes auth planBytes candidatesBytes d := by
  unfold bindDelta
  rw [ensure_bind_ok]
  simp only [bind_ok, readCanonical_ok, require_ok, Option.filter_eq_some_iff, Json.asObj_iff, bindDeltaShapes_ok, ensure_ok,
    bindChecks_ok, Json.asInteger_iff, Json.asStr_iff, isTexts_iff, decide_eq_true_eq, Except.ok.injEq]
  constructor
  · rintro ⟨hnewline, j, ⟨doc, hload, hdoc, hbytes⟩, d, ⟨rfl, hkeys⟩, _, hshapes, _, ⟨hschema, hop, hstatus⟩,
      _, hchecks, _, hbundle, _,
      htarget, _, hexpected, rfl⟩
    obtain ⟨ih, hih, -⟩ := hshapes.inputHashes
    obtain ⟨tapi, htapi, -⟩ := hshapes.target
    obtain ⟨exp, hexp, -⟩ := hshapes.expected
    rw [hih] at hbundle
    rw [htapi] at htarget
    rw [hexp] at hexpected
    exact ⟨hnewline, ⟨doc, hload, hdoc⟩, hbytes, hkeys, hshapes, ⟨hschema, hop, hstatus⟩, hchecks, ⟨ih, hih, hbundle⟩,
      ⟨tapi, htapi, htarget⟩, exp, hexp, hexpected⟩
  · rintro ⟨hnewline, ⟨doc, hload, hdoc⟩, hbytes, hkeys, hshapes, ⟨hschema, hop, hstatus⟩, hchecks, ⟨ih, hih, hbundle⟩,
      ⟨tapi, htapi, htarget⟩, exp, hexp, hexpected⟩
    refine ⟨hnewline, .obj d, ⟨doc, hload, hdoc, hbytes⟩, d, ⟨rfl, hkeys⟩, (), hshapes, (),
      ⟨hschema, hop, hstatus⟩, (), hchecks, (), ?_, (),
      ?_, (), ?_, rfl⟩
    · rw [hih]
      exact hbundle
    · rw [htapi]
      exact htarget
    · rw [hexp]
      exact hexpected

end

/-! ## Where it escapes -/

/-- The controlled refusal. -/
def Controlled : BindError → Prop
  | .targetError category _ => category = deltaBinding
  | _ => False

theorem controlled_wrong (message : String) : Controlled (wrong message) := rfl

/-- The bytes on which the refusal is another one. -/
inductive Escapes (loads : Bytes → Loaded) (bytes : Bytes) : Prop
  | nested (newline : terminated bytes = true) (read : loads bytes = .recursionError)
  /-- A text of the document has a surrogate that stands alone. -/
  | surrogate (newline : terminated bytes = true) (doc : Doc) (read : loads bytes = .document doc) (alone : doc.encodable = none)
  /-- The value of a check is a list or an object. -/
  | unhashable (newline : terminated bytes = true) (doc : Doc) (d c : Fields) (read : loads bytes = .document doc)
      (plain : doc.encodable = some (.obj d)) (canonical : canonicalBytes (.obj d) = bytes) (keys : Json.hasKeys d deltaTopKeys)
      (shapes : FrozenShapes d) (head : Headed d) (checks : Json.get d "checks" = .obj c) (names : Json.hasKeys c step10Checks)
      (some_ : ∃ check ∈ c, check.2.hashable = false)

section

variable {loads : Bytes → Loaded} {sha : Bytes → String} {bytes : Bytes}

def Escaping {α : Type} (x : Except BindError α) : Prop := Stops (fun e => ¬ Controlled e) x

theorem escaping_bind {α β : Type} {x : Except BindError α} {f : α → Except BindError β} :
    Escaping (x >>= f) ↔ Escaping x ∨ ∃ a, x = .ok a ∧ Escaping (f a) := stops_bind

theorem not_escaping_ok {α : Type} {a : α} : ¬ Escaping (Except.ok a : Except BindError α) := not_stops_ok

theorem not_escaping_ensure {p : Prop} [Decidable p] {message : String} :
    ¬ Escaping (ensure p (wrong message)) := fun h => (stops_ensure.mp h).2 (controlled_wrong message)

theorem not_escaping_require {α : Type} {o : Option α} {message : String} :
    ¬ Escaping (require o (wrong message)) := fun h => (stops_require.mp h).2 (controlled_wrong message)

theorem readCanonical_escaping : Escaping (readCanonical loads bytes) ↔
    loads bytes = .recursionError ∨ ∃ doc, loads bytes = .document doc ∧ doc.encodable = none := by
  unfold readCanonical
  cases loads bytes with
  | valueError text =>
    refine iff_of_false (fun h => stops_error.mp h (controlled_wrong _)) ?_
    simp
  | recursionError => exact iff_of_true (stops_error.mpr not_false) (.inl rfl)
  | document doc =>
    simp only [escaping_bind, not_escaping_ensure, not_escaping_ok, and_false, exists_false, or_false]
    rw [Escaping, stops_require]
    simp [Controlled]

theorem bindChecks_escaping {checks : Json} : Escaping (bindChecks checks) ↔
    ∃ c, checks = .obj c ∧ Json.hasKeys c step10Checks ∧ ∃ check ∈ c, check.2.hashable = false := by
  have heach : ∀ c : Fields, Escaping (each (fun _ check => ensure (check.2.hashable)
      (BindError.typeError ("unhashable type: '" ++ Json.typeName check.2 ++ "'"))) c) ↔ ∃ check ∈ c,
        check.2.hashable = false := by
    intro c
    rw [← first_not]
    refine stops_each (fun _ check _ => ?_) fun _ check _ => ?_
    · rw [ensure_ok, Bool.not_eq_false]
    · rw [stops_ensure, Bool.not_eq_true]
      exact and_iff_left not_false
  unfold bindChecks
  simp only [escaping_bind, not_escaping_require, not_escaping_ensure, heach, require_ok, ensure_ok,
    Json.asObj_iff, false_or, and_false,
    exists_false, or_false, exists_const]

theorem closureEntry_controlled {i : Nat} {entry : Json} : ¬ Escaping (closureEntry i entry) := by
  unfold closureEntry
  simp only [escaping_bind, not_escaping_ensure, and_false, exists_false, or_false, not_false_eq_true]

theorem bindDeltaShapes_controlled {d : Fields} : ¬ Escaping (bindDeltaShapes d) := by
  have heach : ∀ rc : List Json, ¬ Escaping (each closureEntry rc) := fun _ => not_stops_each fun _ _ _ => closureEntry_controlled
  unfold bindDeltaShapes
  simp only [escaping_bind, not_escaping_ensure, not_escaping_require, heach, and_false, exists_false,
    or_false, not_false_eq_true]

end

theorem bindDelta_escaping (loads : Bytes → Loaded) (sha : Bytes → String) (bytes : Bytes) (auth : GateAuthority)
    (planBytes candidatesBytes : Bytes) :
    Escaping (bindDelta loads sha bytes auth planBytes candidatesBytes) ↔ Escapes loads bytes := by
  unfold bindDelta
  simp only [escaping_bind, not_escaping_ensure, not_escaping_require, not_escaping_ok, readCanonical_escaping,
    bindDeltaShapes_controlled,
    bindChecks_escaping, false_or, and_false, exists_false, or_false]
  constructor
  · rintro ⟨_, hnewline, h⟩
    rw [ensure_ok] at hnewline
    rcases h with (hnested | ⟨doc, hload, halone⟩) | ⟨j, hread, d, htop, _, hshapes, _, hhead, c, hchecks, hnames, hsome⟩
    · exact .nested hnewline hnested
    · exact .surrogate hnewline doc hload halone
    · obtain ⟨doc, hload, hdoc, hbytes⟩ := readCanonical_ok.mp hread
      simp only [require_ok, Option.filter_eq_some_iff, Json.asObj_iff, decide_eq_true_eq] at htop
      obtain ⟨rfl, hkeys⟩ := htop
      simp only [ensure_ok, Json.asInteger_iff, Json.asStr_iff] at hhead
      obtain ⟨hschema, hop, hstatus⟩ := hhead
      exact .unhashable hnewline doc d c hload hdoc hbytes hkeys (bindDeltaShapes_ok.mp hshapes) ⟨hschema,
        hop, hstatus⟩ hchecks hnames hsome
  · intro h
    cases h with
    | nested hnewline hnested => exact ⟨(), ensure_ok.mpr hnewline, .inl (.inl hnested)⟩
    | surrogate hnewline doc hload halone => exact ⟨(), ensure_ok.mpr hnewline, .inl (.inr ⟨doc, hload, halone⟩)⟩
    | unhashable hnewline doc d c hload hdoc hbytes hkeys hshapes hhead hchecks hnames hsome =>
      refine ⟨(), ensure_ok.mpr hnewline, .inr ⟨.obj d, readCanonical_ok.mpr ⟨doc, hload, hdoc, hbytes⟩,
        d, ?_, (), bindDeltaShapes_ok.mpr hshapes,
        (), ?_, c, hchecks, hnames, hsome⟩⟩
      · rw [require_ok, Option.filter_eq_some_iff, Json.asObj_iff]
        exact ⟨rfl, decide_eq_true hkeys⟩
      · rw [ensure_ok, Json.asInteger_iff, Json.asStr_iff, Json.asStr_iff]
        exact ⟨hhead.schema, hhead.operation, hhead.status⟩

/-- What binds is the delta of exactly these inputs; and every refusal is the controlled one where
    the bytes have a document that can be encoded, no check of which is a list or an object when it
    comes to them. -/
theorem bind_delta_iff (loads : Bytes → Loaded) (sha : Bytes → String) (bytes : Bytes) (auth : GateAuthority)
    (planBytes candidatesBytes : Bytes) :
    (∀ d, bindDelta loads sha bytes auth planBytes candidatesBytes = .ok d ↔
      Bound loads sha bytes auth planBytes candidatesBytes d) ∧
    ((∀ e, bindDelta loads sha bytes auth planBytes candidatesBytes = .error e → Controlled e) ↔ ¬ Escapes loads bytes) := by
  refine ⟨fun _ => bindDelta_ok, ?_⟩
  rw [← bindDelta_escaping loads sha bytes auth planBytes candidatesBytes, Escaping, Stops]
  push Not
  rfl


/-! ## Two ways out -/

/-- One reading, and nothing else that is JSON. -/
def readsOnly (bytes : Bytes) (doc : Doc) (data : Bytes) : Loaded :=
  if data = bytes then .document doc else .valueError "Expecting value"

/-- The text `"\ud800"`, escaped as it stands. -/
def aloneBytes : Bytes := lit "\"\\ud800\"\n"

def aloneDoc : Doc := .str [0xD800]

def noDigest : Json := .str ("sha256:" ++ String.ofList (List.replicate 64 '0'))

def listedChecks : Fields :=
  (step10Checks.insertionSort (· ≤ ·)).map fun name => (name, if name = "publication" then .arr [] else .str "pass")

/-- A delta as it is published, but for what the publication check is. -/
def listedDelta : Fields :=
  [("analysis_scope", .obj [("closure_kind", .str "refs"), ("reference_dir_count", .int 0), ("selected_class", .str "App.View"),
      ("source_file", .str "View.cs"), ("target_file_identity", .str "View.cs")]),
    ("baseline", .obj []),
    ("checks", .obj listedChecks),
    ("delta", .obj []),
    ("expected", .obj [("convert_acquire_ids", .arr []), ("manual_review_ids", .arr [])]),
    ("gate_binding", .obj []),
    ("input_hashes", .obj ((deltaIhKeys.insertionSort (· ≤ ·)).map fun name => (name, noDigest))),
    ("operation", .str "verify-subscription-analyzer-delta"),
    ("postimage", .obj []),
    ("reference_closure", .arr []),
    ("schema", .int 1),
    ("semantic_idempotence", .obj []),
    ("status", .str "pass"),
    ("target_api", .obj [("subscribe", .str "WeakEvents.Subscribe")]),
    ("toolchain_fingerprint", .obj [("resolved_runtime_identity", .obj ((deltaRidKeys.insertionSort (· ≤ ·)).map fun name =>
      (name, if name = "runtime_manifest_sha256" then noDigest else .str "")))])]

def someAuthority : GateAuthority where
  rel := "View.cs"
  targetSubscribe := "WeakEvents.Subscribe"
  preSha256 := "sha256:"
  inputBundleSha256 := "sha256:"
  applied := []
  manual := []
  selectedFindings := .arr []

/-- A text that cannot be encoded, and a list among the checks: neither is refused as a delta that does not bind. -/
theorem refused_out_of_category :
    (∃ e, bindDelta (readsOnly aloneBytes aloneDoc) (fun _ => "") aloneBytes someAuthority [] [] = .error e ∧ ¬ Controlled e) ∧
    ∃ e, bindDelta (readsOnly (canonicalBytes (.obj listedDelta)) (docOf (.obj listedDelta))) (fun _ => "")
      (canonicalBytes (.obj listedDelta)) someAuthority [] [] = .error e ∧ ¬ Controlled e := by
  constructor
  · exact (bindDelta_escaping _ _ _ _ _ _).mpr (.surrogate (by decide) aloneDoc (if_pos rfl) (by decide))
  · refine (bindDelta_escaping _ _ _ _ _ _).mpr (.unhashable ?_ (docOf (.obj listedDelta)) listedDelta listedChecks (if_pos rfl)
      (encodable_docOf _) rfl ?_ ?_ ⟨rfl, rfl, rfl⟩ rfl ?_ ?_)
    · simp [terminated, canonicalBytes]
    · decide
    · exact (bindDeltaShapes_ok (u := ())).mp (by decide)
    · decide +kernel
    · decide +kernel

end OwnNet.Fix
