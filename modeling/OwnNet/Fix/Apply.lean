/-
  OwnNet.Fix.Apply — `validate_apply_inputs`: the gate before a source file is rewritten, over
  the executed plan, its candidates and the source root.

  Proved: `apply_iff`: of an envelope with well-formed spans and its own plan, the gate lets
  pass exactly where no two conversions overlap and the root still has the file it was
  collected from.
-/

import OwnNet.Fix.Plan

namespace OwnNet.Fix

open Checks

abbrev ApplyRefusal := String

def planKeys : List String :=
  ["version", "operation", "input_bundle_sha256", "target_api", "selection", "source_files", "decisions"]

def decisionKeys : List String := ["finding_id", "action", "file", "acquire_span"]

/-- What a check of the collector says, said of the plan. -/
def ofPlan {α : Type} (x : Except CollectError α) : Except ApplyRefusal α := recast (fun text => "validated-plan: " ++ text) x

def planDecision (i : Nat) (d : Json) : Except ApplyRefusal Unit :=
  let dctx := "validated-plan.decisions[" ++ toString i ++ "]"
  match d with
  | .obj f =>
    let extra := extraKeys f decisionKeys
    ensure (extra = []) (dctx ++ ": unknown field(s) " ++ reprKeys extra) >>= fun _ =>
    ofPlan (strField f "finding_id" dctx) >>= fun fid =>
    ofPlan (requireFindingId fid dctx) >>= fun _ =>
    ofPlan (strField f "action" dctx) >>= fun action =>
    ensure (action ∈ s1Actions) (dctx ++ ": out-of-scope action " ++ OwnIR.reprStr action) >>= fun _ =>
    ofPlan (strField f "file" dctx) >>= fun file =>
    ofPlan (requireCanonicalRelpath file dctx) >>= fun _ =>
    ofPlan (validateSpan (Json.get f "acquire_span") dctx)
  | _ => .error (dctx ++ ": must be an object")

/-- `validate_validated_plan` -/
def validateValidatedPlan (plan : Json) : Except ApplyRefusal Unit :=
  match plan with
  | .obj p =>
    let unknown := extraKeys p planKeys
    ensure (unknown = []) ("validated-plan has unknown field(s): " ++ reprKeys unknown) >>= fun _ =>
    ensure (isOne (Json.get p "version") ∧
        (Json.get p "version").asBool = none) "validated-plan version must be integer 1" >>= fun _ =>
    ensure ((Json.get p "operation").asStr = some "fix-subscriptions")
      "validated-plan operation must be 'fix-subscriptions'" >>= fun _ =>
    ofPlan (strField p "input_bundle_sha256" "validated-plan") >>= fun digest =>
    ofPlan (requireSha256 digest "validated-plan.input_bundle_sha256") >>= fun _ =>
    ofPlan (dictField p "target_api" "validated-plan") >>= fun target =>
    ofPlan (strField target "subscribe" "validated-plan.target_api") >>= fun _ =>
    ofPlan (dictField p "selection" "validated-plan") >>= fun sel =>
    ofPlan (listField sel "allowed_types" "validated-plan.selection") >>= fun types =>
    ensure (types.length = 1) "validated-plan.selection.allowed_types must have exactly one entry" >>= fun _ =>
    ofPlan (listField p "source_files" "validated-plan") >>= fun sources =>
    ensure (sources.length = 1) "validated-plan.source_files must have exactly one entry" >>= fun _ =>
    require (sources.head?.bind Json.asObj) "validated-plan.source_files[0] must be an object" >>= fun sf =>
    ofPlan (strField sf "path" "validated-plan.source_files[0]") >>= fun path =>
    ofPlan (requireCanonicalRelpath path "validated-plan.source_files[0]") >>= fun _ =>
    ofPlan (strField sf "sha256" "validated-plan.source_files[0]") >>= fun sha =>
    ofPlan (requireSha256 sha "validated-plan.source_files[0]") >>= fun _ =>
    ofPlan (listField p "decisions" "validated-plan") >>= fun decisions =>
    each planDecision decisions
  | _ => .error "validated-plan must be an object"

/-! ## The decisions against the candidates -/

/-- The candidate a decision is about. -/
def appliedId (candidates : Json) (_ : Nat) (d : Json) : Except ApplyRefusal String :=
  let fid := textOf (d.asObj.getD []) "finding_id"
  ensure (candidateById candidates fid).isSome ("decision " ++ OwnIR.reprStr fid ++ " is not a candidate") >>= fun _ => .ok fid

/-- Whether it is converted; the decision is to agree with the candidate. -/
def appliedAction (candidates : Json) (_ : Nat) (d : Json) (fid : String) : Except ApplyRefusal Bool :=
  let f := d.asObj.getD []
  let c := (candidateById candidates fid).getD []
  ensure (Json.eqv (Json.get f "file") (Json.get c "file")) (fid ++ ": decision file != candidate file") >>= fun _ =>
  ensure (Json.eqv (Json.get f "acquire_span") (Json.get c "acquire_span"))
    (fid ++ ": decision acquire_span != candidate acquire_span") >>= fun _ =>
  ensure (allows c (textOf f "action")) (fid ++ ": action " ++ OwnIR.reprStr (textOf f "action") ++
      " not allowed by candidate") >>= fun _ =>
  ensure (textOf f "action" = "convert_acquire" → textOf c "event_contract" = "inotify_property_changed")
    (fid ++ ": convert_acquire requires an inotify_property_changed contract") >>= fun _ =>
  .ok (textOf f "action" = "convert_acquire")

/-- Where an edit starts and ends. -/
def rangeOf (span : Json) : Int × Int :=
  let s := span.asObj.getD []
  (intOf s "start", intOf s "start" + intOf s "length")

def rangeLe (a b : Int × Int) : Prop := a.1 < b.1 ∨ (a.1 = b.1 ∧ a.2 ≤ b.2)

instance : DecidableRel rangeLe := fun a b => inferInstanceAs (Decidable (a.1 < b.1 ∨ (a.1 = b.1 ∧ a.2 ≤ b.2)))

/-- `sorted(...)` of the edits, no two neighbours overlapping. -/
def apart (ranges : List (Int × Int)) : Prop := (ranges.insertionSort rangeLe).IsChain fun a b => ¬b.1 < a.2

instance (ranges : List (Int × Int)) : Decidable (apart ranges) :=
  inferInstanceAs (Decidable ((ranges.insertionSort rangeLe).IsChain fun a b => ¬b.1 < a.2))

/-- What the rewriter is given of a conversion. -/
def targetFields : List String :=
  ["finding_id", "file", "acquire_span", "containing_type", "event", "event_identity", "source", "source_identity",
    "source_identity_kind", "handler", "handler_identity", "handler_identity_kind"]

structure ApplyContext where
  sourceFile : String
  targetSubscribe : Json
  convertAcquire : List Fields
  manualReview : List String

/-- `validate_apply_inputs` -/
def validateApplyInputs (sha : Sha) (root : Root) (plan candidates : Json) : Except ApplyRefusal ApplyContext :=
  validateValidatedPlan plan >>= fun _ =>
  recast (fun text => "invalid candidates bundle: " ++ text) (validateCandidatesBundle candidates) >>= fun _ =>
  let p := plan.asObj.getD []
  ensure (bundleSha256 sha candidates = textOf p "input_bundle_sha256")
    "candidates sha256 does not match validated-plan.input_bundle_sha256" >>= fun _ =>
  ensure (Json.eqv (Json.get p "target_api") (targetOf candidates))
    "validated-plan.target_api is not the canonical projection of candidates" >>= fun _ =>
  ensure (Json.eqv (Json.get p "selection") (selectionOf candidates))
    "validated-plan.selection is not the canonical projection of candidates" >>= fun _ =>
  ensure (Json.eqv (Json.get p "source_files") (sourcesOf candidates))
    "validated-plan.source_files is not the canonical projection" >>= fun _ =>
  distinct (appliedId candidates) (fun _ fid => "duplicate decision " ++ OwnIR.reprStr fid) (appliedAction candidates)
    ((Json.get p "decisions").asArr.getD []) >>= fun decided =>
  let missing := ((candidatesOf candidates).map Prod.fst).filter fun fid => fid ∉ decided.map Prod.fst
  ensure (missing = []) ("missing decisions for: " ++ reprKeys (missing.dedup.insertionSort (· ≤ ·))) >>= fun _ =>
  let converted := (decided.filter Prod.snd).map fun d => (candidateById candidates d.1).getD []
  ensure (apart (converted.map fun c => rangeOf (Json.get c "acquire_span"))) "overlapping convert_acquire spans" >>= fun _ =>
  let source := (((Json.get (candidates.asObj.getD []) "source_files").asArr.getD []).head?.bind Json.asObj).getD []
  recast (fun text => "source path: " ++ text) (root.resolve (textOf source "path")) >>= fun place =>
  require (root.shaFile place.2) "cannot read source file" >>= fun actual =>
  ensure (actual = textOf source "sha256") ("STALE SOURCE / PREIMAGE MISMATCH for " ++ place.1) >>= fun _ =>
  .ok { sourceFile := place.1, targetSubscribe := Json.get ((Json.get p "target_api").asObj.getD []) "subscribe"
        convertAcquire := converted.map fun c => targetFields.map fun k => (k, Json.get c k)
        manualReview := (decided.filter fun d => !d.2).map Prod.fst }

/-! ## The gate on an envelope's own plan -/

/-- The six keys of a span, their integers not negative. -/
def SpanFrozen (j : Json) : Prop :=
  ∃ s, j = .obj s ∧ Json.hasKeys s spanInts ∧ ∀ k ∈ spanInts, ∃ n, 0 ≤ n ∧ Json.lookup s k = some (.int n)

theorem SpanFrozen.plain {j : Json} (h : SpanFrozen j) : Json.plain j = true := by
  obtain ⟨s, rfl, hkeys, hints⟩ := h
  have hn : (s.map Prod.fst).Nodup := hkeys.nodup_iff.mpr (by decide)
  have hall : ∀ sub : Fields, (∀ f ∈ sub, f ∈ s) → Json.plainFields sub = true := by
    intro sub
    induction sub with
    | nil => exact fun _ => rfl
    | cons f rest ih =>
      intro hsub
      obtain ⟨k, v⟩ := f
      have hmem := hsub (k, v) List.mem_cons_self
      obtain ⟨n, -, hlookup⟩ := hints k (hkeys.mem_iff.mp (List.mem_map.mpr ⟨_, hmem, rfl⟩))
      have hv : v = .int n := Option.some.inj ((Json.lookup_of_mem hn hmem).symm.trans hlookup)
      rw [Json.plainFields, Bool.and_eq_true]
      exact ⟨by rw [hv]; rfl, ih fun f hf => hsub f (List.mem_cons_of_mem _ hf)⟩
  rw [Json.plain, Bool.and_eq_true]
  exact ⟨decide_eq_true hn, hall s fun _ hf => hf⟩

theorem plainItems_texts (ids : List String) : Json.plainItems (ids.map .str) = true := by
  induction ids with
  | nil => rfl
  | cons s rest ih =>
    rw [List.map_cons, Json.plainItems, ih]
    rfl

theorem plain_target (e : Envelope) : Json.plain e.targetJson = true := by
  simp [Envelope.targetJson, Json.plain, Json.plainFields]

theorem plain_selection (e : Envelope) : Json.plain e.selectionJson = true := by
  have hselected : Json.plain (selectedJson e.selectedFindings) = true := by
    cases e.selectedFindings with
    | none => rfl
    | some ids => exact plainItems_texts ids
  simp [Envelope.selectionJson, constraintsJson, Json.plain, Json.plainFields, Json.plainItems, hselected]

theorem plain_sources (e : Envelope) : Json.plain e.sourcesJson = true := by
  simp [Envelope.sourcesJson, Json.plain, Json.plainFields, Json.plainItems]

theorem bundleSha256_ok (sha : Sha) (bundle : Json) : isSha256 (bundleSha256 sha bundle) = true := by
  have hlist : (bundleSha256 sha bundle).toList = "sha256:".toList ++ (sha.hex bundle.dumps).toList := String.toList_append
  unfold isSha256
  rw [hlist, Bool.and_eq_true]
  refine ⟨List.isPrefixOf_iff_prefix.mpr (List.prefix_append _ _), ?_⟩
  have hdrop : ("sha256:".toList ++ (sha.hex bundle.dumps).toList).drop 7 = (sha.hex bundle.dumps).toList := rfl
  rw [hdrop]
  exact sha.digest _

/-- Actions an envelope's candidates may take. -/
structure Actions (e : Envelope) (act : String → String) : Prop where
  known : ∀ c ∈ e.candidates, act c.findingId ∈ s1Actions
  own : ∀ c ∈ e.candidates, act c.findingId ∈ c.allowedActions
  proven : ∀ c ∈ e.candidates, act c.findingId = "convert_acquire" → c.eventContract = "inotify_property_changed"

section Gate

variable {sha : Sha} {e : Envelope} {act : String → String}

theorem planDecision_ok (hv : e.Valid) {c : CandidateRecord} (hc : c.Valid e) {action : String}
    (ha : action ∈ s1Actions) (i : Nat) :
    planDecision i (c.decision action) = .ok () := by
  unfold planDecision CandidateRecord.decision
  refine ensure_bind_ok.mpr ⟨extraKeys_nil.mpr fun k hk => hk, ?_⟩
  refine bind_ok.mpr ⟨c.findingId, rfl, bind_ok.mpr ⟨(), recast_ok.mpr (ensure_ok.mpr hc.id), bind_ok.mpr ⟨action, rfl, ?_⟩⟩⟩
  refine ensure_bind_ok.mpr ⟨ha, bind_ok.mpr ⟨c.file, rfl, bind_ok.mpr ⟨(), recast_ok.mpr (ensure_ok.mpr ?_), ?_⟩⟩⟩
  · rw [hc.file, Bool.and_eq_true]
    exact hv.path
  · exact recast_ok.mpr (validateSpan_ok.mpr hc.span)

theorem validateValidatedPlan_ok (hv : e.Valid) (ha : Actions e act) : validateValidatedPlan (e.plan sha act) = .ok () := by
  unfold validateValidatedPlan Envelope.plan planJson
  refine ensure_bind_ok.mpr ⟨extraKeys_nil.mpr fun k hk => hk, ensure_bind_ok.mpr ⟨⟨rfl, rfl⟩, ensure_bind_ok.mpr ⟨rfl, ?_⟩⟩⟩
  refine bind_ok.mpr ⟨bundleSha256 sha e.json, rfl, bind_ok.mpr ⟨(), recast_ok.mpr (ensure_ok.mpr (bundleSha256_ok sha _)), ?_⟩⟩
  refine bind_ok.mpr ⟨_, rfl, bind_ok.mpr ⟨e.targetSubscribe, rfl, bind_ok.mpr ⟨_, rfl, bind_ok.mpr ⟨_, rfl, ?_⟩⟩⟩⟩
  refine ensure_bind_ok.mpr ⟨rfl, bind_ok.mpr ⟨_, rfl, ensure_bind_ok.mpr ⟨rfl, bind_ok.mpr ⟨_, rfl, ?_⟩⟩⟩⟩
  refine bind_ok.mpr ⟨e.classFile, rfl, bind_ok.mpr ⟨(), recast_ok.mpr (ensure_ok.mpr ?_), bind_ok.mpr ⟨e.sourceSha, rfl, ?_⟩⟩⟩
  · rw [Bool.and_eq_true]
    exact hv.path
  refine bind_ok.mpr ⟨(), recast_ok.mpr (ensure_ok.mpr hv.digest), bind_ok.mpr ⟨_, rfl, ?_⟩⟩
  refine (each_ok (p := fun _ => True) fun i d hd => ?_).mpr fun _ _ => trivial
  obtain ⟨c, hc, rfl⟩ := List.mem_map.mp hd
  exact iff_of_true (planDecision_ok hv (hv.each c hc) (ha.known c hc) i) trivial

/-- What is decided of an envelope's candidates. -/
def decidedOf (e : Envelope) (act : String → String) : List (String × Bool) :=
  e.candidates.map fun c => (c.findingId, decide (act c.findingId = "convert_acquire"))

theorem applied_ok (hv : e.Valid) (ha : Actions e act) (hs : ∀ c ∈ e.candidates, SpanFrozen c.acquireSpan) {i : Nat}
    {c : CandidateRecord} (hc : c ∈ e.candidates) : appliedId e.json i (c.decision (act c.findingId)) = .ok c.findingId ∧
      appliedAction e.json i (c.decision (act c.findingId)) c.findingId = .ok (decide (act c.findingId = "convert_acquire")) := by
  have hby := candidateById_json hv.ids hc
  constructor
  · refine ensure_bind_ok.mpr ⟨?_, rfl⟩
    show (candidateById e.json c.findingId).isSome = true
    rw [hby]
    rfl
  · unfold appliedAction
    rw [hby]
    refine ensure_bind_ok.mpr ⟨?_, ensure_bind_ok.mpr ⟨?_, ensure_bind_ok.mpr ⟨?_, ensure_bind_ok.mpr ⟨?_, rfl⟩⟩⟩⟩
    · exact Json.eqv_self (.str c.file) rfl
    · exact Json.eqv_self c.acquireSpan (hs c hc).plain
    · exact allows_fields.mpr (ha.own c hc)
    · exact ha.proven c hc

theorem decided_ok (hv : e.Valid) (ha : Actions e act) (hs : ∀ c ∈ e.candidates, SpanFrozen c.acquireSpan)
    {twice : Nat → String → ApplyRefusal} {out : List (String × Bool)} :
    distinct (appliedId e.json) twice (appliedAction e.json) (e.candidates.map fun c => c.decision (act c.findingId)) = .ok out ↔
      out = decidedOf e act := by
  let read (c : CandidateRecord) := (c.findingId, decide (act c.findingId = "convert_acquire"))
  rw [distinct_map, distinct_ok (R := fun c kb => kb = read c) fun i c hc k b => ?_, reads_iff (g := read) fun _ _ _ h => h]
  · constructor
    · exact fun h => h.1.2
    · rintro rfl
      refine ⟨⟨fun _ _ => rfl, rfl⟩, ?_⟩
      unfold decidedOf
      rw [List.map_map]
      exact hv.ids
  · obtain ⟨hid, haction⟩ := applied_ok hv ha hs (i := i) hc
    constructor
    · rintro ⟨hk, hb⟩
      cases hid.symm.trans hk
      cases haction.symm.trans hb
      rfl
    · rintro hkb
      cases hkb
      exact ⟨hid, haction⟩

/-- The root still has the file, with the digest it was collected with. -/
def Fresh (root : Root) (e : Envelope) : Prop :=
  ∃ place, root.resolve e.classFile = .ok place ∧ root.shaFile place.2 = some e.sourceSha

/-- The candidates that are converted. -/
def converted (e : Envelope) (act : String → String) : List CandidateRecord :=
  e.candidates.filter fun c => act c.findingId = "convert_acquire"

theorem apply_iff {root : Root} (hv : e.Valid) (hb : validateCandidatesBundle e.json = .ok ()) (ha : Actions e act)
    (hs : ∀ c ∈ e.candidates, SpanFrozen c.acquireSpan) :
    (∃ ctx, validateApplyInputs sha root (e.plan sha act) e.json = .ok ctx) ↔
      apart ((converted e act).map fun c => rangeOf c.acquireSpan) ∧ Fresh root e := by
  have hranges : ((decidedOf e act).filter Prod.snd).map
    (fun d => rangeOf (Json.get ((candidateById e.json d.1).getD []) "acquire_span")) =
      (converted e act).map fun c => rangeOf c.acquireSpan := by
    unfold decidedOf converted
    rw [List.filter_map, List.map_map]
    refine List.map_congr_left fun c hc => ?_
    rw [Function.comp_apply, candidateById_json hv.ids (List.mem_filter.mp hc).1]
    rfl
  have hmissing : ((candidatesOf e.json).map Prod.fst).filter (fun fid => fid ∉ (decidedOf e act).map Prod.fst) = [] := by
    rw [List.filter_eq_nil_iff, candidatesOf_json, List.map_map]
    intro fid hfid
    obtain ⟨c, hc, rfl⟩ := List.mem_map.mp hfid
    rw [decide_eq_true_eq, not_not]
    exact List.mem_map.mpr ⟨_, List.mem_map.mpr ⟨c, hc, rfl⟩, rfl⟩
  constructor
  · rintro ⟨ctx, h⟩
    unfold validateApplyInputs at h
    obtain ⟨_, -, h⟩ := bind_ok.mp h
    obtain ⟨_, -, h⟩ := bind_ok.mp h
    obtain ⟨-, h⟩ := ensure_bind_ok.mp h
    obtain ⟨-, h⟩ := ensure_bind_ok.mp h
    obtain ⟨-, h⟩ := ensure_bind_ok.mp h
    obtain ⟨-, h⟩ := ensure_bind_ok.mp h
    obtain ⟨decided, hdecided, h⟩ := bind_ok.mp h
    have hdecided := (decided_ok hv ha hs).mp hdecided
    subst hdecided
    obtain ⟨-, h⟩ := ensure_bind_ok.mp h
    obtain ⟨hapart, h⟩ := ensure_bind_ok.mp h
    obtain ⟨place, hplace, h⟩ := bind_ok.mp h
    obtain ⟨actual, hactual, h⟩ := bind_ok.mp h
    obtain ⟨hsame, -⟩ := ensure_bind_ok.mp h
    rw [List.map_map] at hapart
    refine ⟨hranges ▸ hapart, place, recast_ok.mp hplace, ?_⟩
    rw [require_ok.mp hactual, hsame]
    rfl
  · rintro ⟨hapart, place, hplace, hactual⟩
    unfold validateApplyInputs
    refine passes_bind.mpr ⟨(), validateValidatedPlan_ok hv ha, passes_bind.mpr ⟨(), recast_ok.mpr hb, ?_⟩⟩
    refine passes_ensure.mpr ⟨rfl, passes_ensure.mpr ⟨Json.eqv_self _ (plain_target e), ?_⟩⟩
    refine passes_ensure.mpr ⟨Json.eqv_self _ (plain_selection e), passes_ensure.mpr ⟨Json.eqv_self _ (plain_sources e), ?_⟩⟩
    refine passes_bind.mpr ⟨_, (decided_ok hv ha hs).mpr rfl, passes_ensure.mpr ⟨?_, passes_ensure.mpr ⟨?_, ?_⟩⟩⟩
    · exact hmissing
    · rw [List.map_map]
      exact hranges ▸ hapart
    · refine passes_bind.mpr ⟨place, recast_ok.mpr hplace, passes_bind.mpr ⟨e.sourceSha, require_ok.mpr hactual, ?_⟩⟩
      exact passes_ensure.mpr ⟨rfl, _, rfl⟩

end Gate

end OwnNet.Fix
