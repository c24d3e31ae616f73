/-
  OwnNet.Fix.Plan — `validate_plan`: an untrusted plan against the candidates it is for, and
  the plan that is executed instead of it.

  Only the actions are taken from the plan; everything else is read off the candidates. Strings
  are of Unicode scalar values: what the source does with a lone surrogate is not said here.

  Proved: `validatePlan_spec`: of an envelope the executed plan is its candidates in their
  order, each with one of its own actions.
-/

import Mathlib.Data.List.Dedup
import OwnNet.Fix.Candidates

namespace OwnNet.Fix

open Checks

abbrev PlanError := String

/-- `bundle_sha256`, of a document whose strings can be encoded: a lone surrogate, which no string
    here has, has no bytes to hash, and the source raises. -/
def bundleSha256 (sha : Sha) (bundle : Json) : String := "sha256:" ++ sha.hex bundle.dumps

/-- The candidates of a document, by their ids. -/
def candidatesOf (bundle : Json) : List (String × Fields) :=
  ((Json.get (bundle.asObj.getD []) "candidates").asArr.getD []).map fun c =>
    (textOf (c.asObj.getD []) "finding_id", c.asObj.getD [])

def candidateById (bundle : Json) (fid : String) : Option Fields := ((candidatesOf bundle).find? fun c => c.1 = fid).map Prod.snd

/-- Whether a candidate's own actions have this one. -/
def allows (c : Fields) (action : String) : Bool :=
  ((Json.get c "allowed_actions").asArr.getD []).any fun a => a.asStr = some action

/-- The keys of an object besides the known ones. -/
def extraKeys (obj : Fields) (known : List String) : List String :=
  ((obj.map Prod.fst).filter fun k => k ∉ known).dedup.insertionSort (· ≤ ·)

theorem extraKeys_nil {obj : Fields} {known : List String} : extraKeys obj known = [] ↔ ∀ k ∈ obj.map Prod.fst, k ∈ known := by
  unfold extraKeys
  constructor
  · intro h k hk
    by_contra hout
    have hmem : k ∈ ((obj.map Prod.fst).filter fun k => k ∉ known).dedup.insertionSort (· ≤ ·) := by
      rw [List.mem_insertionSort, List.mem_dedup, List.mem_filter]
      exact ⟨hk, decide_eq_true hout⟩
    rw [h] at hmem
    cases hmem
  · intro h
    have hnil : (obj.map Prod.fst).filter (fun k => k ∉ known) = [] :=
      List.filter_eq_nil_iff.mpr fun k hk => by simpa using h k hk
    rw [hnil]
    rfl

def reprKeys (keys : List String) : String := OwnIR.repr (.arr (keys.map .str))

/-- The finding a decision is about. -/
def decisionId (bundle : Json) (i : Nat) (d : Json) : Except PlanError String :=
  let dctx := "decisions[" ++ toString i ++ "]"
  match d with
  | .obj f =>
    let extra := extraKeys f ["finding_id", "action"]
    ensure (extra = []) (dctx ++ ": unknown field(s) " ++ reprKeys extra ++ " (only finding_id + action allowed)") >>= fun _ =>
    require (Json.get f "finding_id").asStr (dctx ++ ": finding_id and action must be strings") >>= fun fid =>
    ensure (Json.get f "action").asStr.isSome (dctx ++ ": finding_id and action must be strings") >>= fun _ =>
    ensure (candidateById bundle fid).isSome (dctx ++ ": unknown finding_id " ++ OwnIR.reprStr fid) >>= fun _ => .ok fid
  | _ => .error (dctx ++ ": must be an object")

/-- What it decides: one of the actions of the candidate. -/
def decisionAction (bundle : Json) (i : Nat) (d : Json) (fid : String) : Except PlanError String :=
  let dctx := "decisions[" ++ toString i ++ "]"
  let action := textOf (d.asObj.getD []) "action"
  ensure (action ∈ s1Actions) (dctx ++ ": out-of-scope action " ++ OwnIR.reprStr action) >>= fun _ =>
  ensure ((candidateById bundle fid).any fun c => allows c action)
    (dctx ++ ": action " ++ OwnIR.reprStr action ++ " is not allowed for " ++ OwnIR.reprStr fid) >>= fun _ => .ok action

def actionOf (decided : List (String × String)) (fid : String) : String :=
  ((decided.find? fun d => d.1 = fid).map Prod.snd).getD ""

/-- A decision of the executed plan. -/
def materializedOf (decided : List (String × String)) (fid : String) (c : Fields) : Json :=
  .obj [("finding_id", .str fid), ("action", .str (actionOf decided fid)), ("file", Json.get c "file"),
    ("acquire_span", Json.get c "acquire_span")]

/-- The target, the selection and the sources of a document, rebuilt from their known keys. -/
def targetOf (bundle : Json) : Json :=
  .obj [("subscribe", Json.get ((Json.get (bundle.asObj.getD []) "target_api").asObj.getD []) "subscribe")]

def selectionOf (bundle : Json) : Json :=
  let sel := (Json.get (bundle.asObj.getD []) "selection").asObj.getD []
  let theType := (((Json.get sel "allowed_types").asArr.getD []).head?.bind Json.asObj).getD []
  .obj [("allowed_types", .arr [.obj [("full_name", Json.get theType "full_name"), ("file", Json.get theType "file")]]),
    ("selected_findings", Json.get sel "selected_findings"), ("constraints", constraintsJson)]

def sourcesOf (bundle : Json) : Json :=
  let theSource := (((Json.get (bundle.asObj.getD []) "source_files").asArr.getD []).head?.bind Json.asObj).getD []
  .arr [.obj [("path", Json.get theSource "path"), ("sha256", Json.get theSource "sha256")]]

def planJson (digest : String) (target selection sources : Json) (decisions : List Json) : Json :=
  .obj [("version", .int 1), ("operation", .str "fix-subscriptions"), ("input_bundle_sha256", .str digest),
    ("target_api", target),
    ("selection", selection), ("source_files", sources), ("decisions", .arr decisions)]

/-- `validate_plan` -/
def validatePlan (sha : Sha) (bundle plan : Json) : Except PlanError Json :=
  recast (fun text => "invalid candidates bundle: " ++ text) (validateCandidatesBundle bundle) >>= fun _ =>
  match plan with
  | .obj p =>
    let extra := extraKeys p ["version", "decisions"]
    ensure (extra = []) ("fix-plan has unknown field(s): " ++ reprKeys extra) >>= fun _ =>
    ensure (isOne (Json.get p "version") ∧ (Json.get p "version").asBool = none) "fix-plan version must be integer 1" >>= fun _ =>
    require (Json.get p "decisions").asArr "fix-plan decisions must be a list" >>= fun decisions =>
    distinct (decisionId bundle) (fun i fid => "decisions[" ++ toString i ++ "]: duplicate finding_id " ++ OwnIR.reprStr fid)
      (decisionAction bundle) decisions >>= fun decided =>
    let missing := ((candidatesOf bundle).map Prod.fst).filter fun fid => fid ∉ decided.map Prod.fst
    ensure (missing = []) ("fix-plan is missing a decision for: " ++ reprKeys (missing.dedup.insertionSort (· ≤ ·))) >>= fun _ =>
    .ok (planJson (bundleSha256 sha bundle) (targetOf bundle) (selectionOf bundle) (sourcesOf bundle)
      ((candidatesOf bundle).map fun c => materializedOf decided c.1 c.2))
  | _ => .error "fix-plan must be an object"

/-! ## The plan of an envelope -/

/-- The fields of a candidate's document. -/
def CandidateRecord.fields (c : CandidateRecord) : Fields := c.json.asObj.getD []

theorem candidatesOf_json (e : Envelope) : candidatesOf e.json = e.candidates.map fun c => (c.findingId, c.fields) := by
  show (e.candidates.map CandidateRecord.json).map _ = _
  rw [List.map_map]
  rfl

theorem candidateById_json {e : Envelope} (hn : (e.candidates.map CandidateRecord.findingId).Nodup) {c : CandidateRecord}
    (hc : c ∈ e.candidates) : candidateById e.json c.findingId = some c.fields := by
  unfold candidateById
  rw [candidatesOf_json]
  refine Dict.find_fst_of_mem ?_ (List.mem_map.mpr ⟨c, hc, rfl⟩)
  rw [List.map_map]
  exact hn

theorem allows_fields {c : CandidateRecord} {action : String} : allows c.fields action = true ↔ action ∈ c.allowedActions := by
  show ((c.allowedActions.map Json.str).any fun a => decide (a.asStr = some action)) = true ↔ _
  rw [List.any_map, List.any_eq_true]
  constructor
  · rintro ⟨a, ha, h⟩
    have : a = action := by simpa [Json.asStr] using h
    exact this ▸ ha
  · exact fun h => ⟨action, h, by simp [Json.asStr]⟩

/-- A decision on an envelope's candidate, with the action taken. -/
def CandidateRecord.decision (c : CandidateRecord) (action : String) : Json :=
  .obj [("finding_id", .str c.findingId), ("action", .str action), ("file", .str c.file), ("acquire_span", c.acquireSpan)]

/-- The executed plan of an envelope, for these actions. -/
def Envelope.plan (sha : Sha) (e : Envelope) (act : String → String) : Json :=
  planJson (bundleSha256 sha e.json) e.targetJson e.selectionJson e.sourcesJson
    (e.candidates.map fun c => c.decision (act c.findingId))

theorem validatePlan_spec {sha : Sha} {e : Envelope} {plan v : Json} (h : validatePlan sha e.json plan = .ok v) :
    e.Valid ∧ ∃ act : String → String, (∀ c ∈ e.candidates, act c.findingId ∈ s1Actions ∧ act c.findingId ∈ c.allowedActions) ∧
      v = e.plan sha act := by
  unfold validatePlan at h
  obtain ⟨_, hbundle, h⟩ := bind_ok.mp h
  have hvalid := validateCandidatesBundle_json (recast_ok.mp hbundle)
  refine ⟨hvalid, ?_⟩
  cases plan with
  | obj p =>
    obtain ⟨-, h⟩ := ensure_bind_ok.mp h
    obtain ⟨-, h⟩ := ensure_bind_ok.mp h
    obtain ⟨decisions, -, h⟩ := bind_ok.mp h
    obtain ⟨decided, hdecided, h⟩ := bind_ok.mp h
    obtain ⟨hmissing, h⟩ := ensure_bind_ok.mp h
    cases h
    refine ⟨actionOf decided, fun c hc => ?_, ?_⟩
    · rw [List.filter_eq_nil_iff] at hmissing
      have hin : c.findingId ∈ decided.map Prod.fst := by
        by_contra hout
        refine hmissing c.findingId ?_ (decide_eq_true hout)
        rw [candidatesOf_json, List.map_map]
        exact List.mem_map.mpr ⟨c, hc, rfl⟩
      obtain ⟨hall, -⟩ := distinct_reads hdecided
      obtain ⟨d, hf⟩ := Dict.exists_find_key hin
      obtain ⟨hd, hid⟩ := Dict.of_find_key hf
      obtain ⟨j, -, i, -, haction⟩ := exists_item hall hd
      obtain ⟨hs1, haction⟩ := ensure_bind_ok.mp haction
      obtain ⟨hallowed, haction⟩ := ensure_bind_ok.mp haction
      have haction : textOf (j.asObj.getD []) "action" = d.2 := Except.ok.inj haction
      rw [hid, candidateById_json hvalid.ids hc, haction] at hallowed
      rw [haction] at hs1
      unfold actionOf
      rw [hf]
      exact ⟨hs1, allows_fields.mp hallowed⟩
    · unfold Envelope.plan
      rw [candidatesOf_json, List.map_map]
      rfl
  | _ => cases h

end OwnNet.Fix
