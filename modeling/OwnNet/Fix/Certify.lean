/-
  OwnNet.Fix.Certify — `_validate_delta_representable`: what the certificate recounts of a
  published delta, from the document and the accepted candidates alone.

  Proved: `certificate_agrees_iff`: of a classification that was made the certificate accepts
  what was published exactly where no fact outside the accepted ids has the key of an
  accepted one; and whatever it accepts satisfies the equations of a classification.
-/

import OwnNet.Fix.Delta
import OwnNet.Sorting

namespace OwnNet.Fix

open Checks

/-! ## Readers -/

/-- The members of `delta-result.json` that are validated here. -/
structure DeltaDoc where
  baseline : Json
  postimage : Json
  delta : Json
  semanticIdempotence : Json
  toolchainFingerprint : Json

/-- What was decided: the ids to convert and those left to a review. -/
structure Authority where
  applied : List String
  manual : List String

/-- What a bridge key is made of. -/
structure Candidate where
  findingId : String
  file : String
  containingType : String
  event : String
  source : String
  handler : String

/-- Whether a value is the array of these texts. -/
def isTexts (j : Json) (ids : List String) : Bool :=
  match j with
  | .arr items => texts items = some ids
  | _ => false

/-- An object with these keys only. -/
def closed (j : Json) (keys : List String) (r : Refusal) : Except Refusal Fields :=
  match j with
  | .obj fields => ensure (Json.hasKeys fields keys) r >>= fun _ => .ok fields
  | _ => .error r

/-- `_str_id_list` -/
def strIdList (value : Json) (cat : Category) (at_ : String) : Except Refusal (List String) :=
  require (value.asArr.bind texts) ⟨cat, at_ ++ " must be a list of strings"⟩ >>= fun ids =>
  ensure (ids = ids.insertionSort (· ≤ ·) ∧ ids.Nodup) ⟨cat, at_ ++ " must be sorted and unique"⟩ >>= fun _ => .ok ids

/-- `_obs_list` -/
def obsList {α : Type} [DecidableEq α] (items : Json) (cat : Category) (at_ : String)
    (keyfn : Json → Category → String → Except Refusal α) (ckey : α → String) : Except Refusal (List α) :=
  require items.asArr ⟨cat, at_ ++ " must be a list"⟩ >>= fun items =>
  mapEach (fun i obs => recast (fun r => ⟨cat, r.message⟩) (keyfn obs cat (at_ ++ "[" ++ toString i ++ "]"))) items >>= fun out =>
  ensure (out = out.insertionSort fun a b => ckey a ≤ ckey b) ⟨cat,
      at_ ++ " is not in canonical (deterministic) order"⟩ >>= fun _ =>
  .ok out

/-- An image as the certificate has it. -/
structure ReadImage where
  subs : List String
  all : List CoreObs
  own050 : List Own050

def deltaImageKeys : List String := ["subscription_own001_ids", "all_own001", "own050"]

def readImage (block : Json) (cat : Category) (name : String) : Except Refusal ReadImage :=
  closed block deltaImageKeys ⟨cat, "delta " ++ name ++ " is not the closed image schema"⟩ >>= fun b =>
  strIdList (Json.get b "subscription_own001_ids") cat ("delta " ++ name ++ ".subscription_own001_ids") >>= fun subs =>
  obsList (Json.get b "all_own001") cat ("delta " ++ name ++ ".all_own001") coreKey CoreObs.ckey >>= fun all =>
  obsList (Json.get b "own050") cat ("delta " ++ name ++ ".own050") own050Key Own050.ckey >>= fun own050 =>
  .ok ⟨subs, all, own050⟩

def deltaDeltaKeys : List String :=
  ["removed_subscription_own001_ids", "preserved_subscription_own001_ids", "new_subscription_own001_ids",
    "unexpectedly_removed_subscription_own001_ids", "removed_all_own001", "new_all_own001", "new_own050"]

/-- The delta block, with the observations it says were removed. -/
def readDelta (block : Json) (convert manual : List String) (cat : Category) : Except Refusal (List CoreObs) :=
  closed block deltaDeltaKeys ⟨cat, "delta.delta is not the closed seven-key schema"⟩ >>= fun d =>
  obsList (Json.get d "removed_all_own001") cat "delta.removed_all_own001" coreKey CoreObs.ckey >>= fun removed =>
  ensure (isTexts (Json.get d "removed_subscription_own001_ids") convert ∧
      isTexts (Json.get d "preserved_subscription_own001_ids") manual ∧ isTexts (Json.get d "new_subscription_own001_ids") [] ∧
      isTexts (Json.get d "unexpectedly_removed_subscription_own001_ids") [] ∧ isTexts (Json.get d "new_all_own001") [] ∧
      isTexts (Json.get d "new_own050") [])
    ⟨cat, "delta.delta does not satisfy the frozen subscription equations"⟩ >>= fun _ =>
  .ok removed

/-! ## The toolchain -/

section

variable (sha : String → String)

def isSha (v : Json) : Bool :=
  match v with
  | .str s => isSha256 s
  | _ => false

/-- The path of an entry of a deployment manifest. -/
def manifestPath (cat : Category) (name : String) (i : Nat) (entry : Json) : Except Refusal String :=
  let wrong : Refusal := ⟨cat, name ++ "_files[" ++ toString i ++ "] is not a \x7bpath, sha256\x7d entry"⟩
  closed entry ["path", "sha256"] wrong >>= fun e =>
  require (Json.get e "path").asStr wrong >>= fun path =>
  ensure (isSha (Json.get e "sha256")) wrong >>= fun _ =>
  recast (fun text => ⟨cat, text⟩) (requireCanonicalRelpath path (name ++ "_files[" ++ toString i ++ "].path")) >>= fun _ =>
  .ok path

/-- `_check_self_manifest` -/
def checkSelfManifest (files digest : Json) (cat : Category) (name : String) : Except Refusal Unit :=
  require files.asArr ⟨cat, name ++ "_files must be a list"⟩ >>= fun entries =>
  mapEach (manifestPath cat name) entries >>= fun paths =>
  ensure (paths = paths.insertionSort (· ≤ ·)) ⟨cat, name ++ "_files is not sorted by path"⟩ >>= fun _ =>
  ensure paths.Nodup ⟨cat, name ++ "_files has a duplicate path"⟩ >>= fun _ =>
  ensure (isSha digest ∧ digest.asStr = some (sha files.dumps))
    ⟨cat, name ++ " deployment manifest digest is not self-consistent"⟩

def deltaTfpKeys : List String :=
  ["extractor_deployment_manifest_sha256", "extractor_files", "dotnet_host_sha256", "dotnet_version", "resolved_runtime_identity",
    "core_analyzer"]

def coreAnalyzerKeys : List String :=
  ["ownlang_manifest_sha256", "ownlang_files", "core_runner_sha256", "python_executable_sha256", "python_implementation",
    "python_version", "python_cache_tag"]

/-- The toolchain fingerprint, which no equation reads. -/
def checkToolchain (fingerprint : Json) (cat : Category) : Except Refusal Unit :=
  closed fingerprint deltaTfpKeys ⟨cat, "delta.toolchain_fingerprint is not the closed six-key schema"⟩ >>= fun tfp =>
  ensure (isSha (Json.get tfp "dotnet_host_sha256") ∧ (Json.get tfp "dotnet_version").asStr.isSome)
    ⟨cat, "delta.toolchain_fingerprint scalar fields are malformed"⟩ >>= fun _ =>
  checkSelfManifest sha (Json.get tfp "extractor_files")
      (Json.get tfp "extractor_deployment_manifest_sha256") cat "extractor" >>= fun _ =>
  closed (Json.get tfp "core_analyzer") coreAnalyzerKeys ⟨cat,
      "delta.core_analyzer is not the closed seven-key schema"⟩ >>= fun ca =>
  ensure (isSha (Json.get ca "core_runner_sha256") ∧ isSha (Json.get ca "python_executable_sha256") ∧
      ∀ k ∈ ["python_implementation", "python_version", "python_cache_tag"], (Json.get ca k).asStr.isSome)
    ⟨cat, "delta.core_analyzer scalar fields are malformed"⟩ >>= fun _ =>
  checkSelfManifest sha (Json.get ca "ownlang_files") (Json.get ca "ownlang_manifest_sha256") cat "ownlang"

end

/-! ## What may have been removed -/

/-- `_bridge_key_of` -/
def bridgeKeyOf (c : Candidate) : BridgeKey :=
  ⟨c.file, simpleName c.containingType, if c.source = "this" then c.event else c.source ++ "." ++ c.event, c.handler⟩

/-- `{candidate["finding_id"]: key}`: of two candidates with one id the later counts. -/
def candidateKey (candidates : List Candidate) (fid : String) : Option BridgeKey :=
  (candidates.reverse.find? fun c => c.findingId = fid).map bridgeKeyOf

def acceptedIn (candidates : List Candidate) (baseline : List CoreObs) (convert : List String) (cat : Category) (fid : String) :
    Except Refusal Accepted :=
  require (candidateKey candidates fid) ⟨cat, "accepted candidate " ++ fid ++ " has no bridge key"⟩ >>= fun key =>
  .ok ⟨key, if fid ∈ convert then .convert else .manual, groupOf baseline key⟩

def validateAccepted (baseline : List CoreObs) (cat : Category) (count : Nat) (key : BridgeKey) : Except Refusal Unit :=
  let group := groupOf baseline key
  ensure (group ≠ []) ⟨cat, "accepted candidate bridge key " ++ key.repr ++ " has no baseline OWN001"⟩ >>= fun _ =>
  ensure ((group.map CoreObs.ckey).dedup.length = 1)
    ⟨cat, "bridge key " ++ key.repr ++ " maps to multiple distinct observations"⟩ >>= fun _ =>
  ensure (group.length = count) ⟨cat, "eligible/observation cardinality mismatch for " ++ key.repr⟩

/-- `_authorized_removed`: the group of an accepted key is counted over the accepted candidates. -/
def authorizedRemoved (convert manual : List String) (candidates : List Candidate) (baseline : List CoreObs) (cat : Category) :
    Except Refusal (List String) :=
  mapEach (fun _ fid => acceptedIn candidates baseline convert cat fid) (convert ++ manual) >>= fun accepted =>
  let keys := (accepted.map Accepted.key).eraseDups
  each (fun _ key => ensure (¬Mixed accepted key) ⟨cat, "bridge key " ++ key.repr ++
      " mixes convert and manual candidates"⟩) keys >>= fun _ =>
  each (fun _ key => validateAccepted baseline cat (accepted.countP fun a => a.key = key) key) keys >>= fun _ =>
  .ok (convert.filterMap (drawnAt (candidateKey candidates) baseline))

/-! ## The equations -/

def subscriptionEquations (convert manual base post : List String) (cat : Category) : Except Refusal Unit :=
  let accepted := convert ++ manual
  ensure (∀ fid ∈ accepted, fid ∈ base) ⟨cat, "an accepted candidate is not a baseline subscription"⟩ >>= fun _ =>
  ensure (∀ fid ∈ post, fid ∈ base) ⟨cat, "a new postimage subscription OWN001 appeared"⟩ >>= fun _ =>
  ensure (SameSet ((base.filter fun fid => fid ∉ post).filter (· ∈ accepted)) convert)
    ⟨cat, "removed candidate-scoped subscriptions != the converted set"⟩ >>= fun _ =>
  ensure (SameSet ((base.filter fun fid => fid ∈ post).filter (· ∈ accepted)) manual)
    ⟨cat, "preserved candidate-scoped subscriptions != the manual set"⟩ >>= fun _ =>
  ensure (∀ fid ∈ base, fid ∉ accepted → fid ∈ post) ⟨cat, "an undeclared subscription disappeared"⟩

def observationEquations (convert manual : List String) (candidates : List Candidate) (base post : ReadImage)
    (removed : List CoreObs)
    (cat : Category) : Except Refusal Unit :=
  let baseAll := base.all.map CoreObs.ckey
  let postAll := post.all.map CoreObs.ckey
  ensure (counterSub postAll baseAll = []) ⟨cat, "a new core OWN001 observation appeared in the postimage"⟩ >>= fun _ =>
  ensure ((removed.map CoreObs.ckey).Perm (counterSub baseAll postAll))
    ⟨cat, "removed_all_own001 != the baseline-minus-postimage multiset"⟩ >>= fun _ =>
  authorizedRemoved convert manual candidates base.all cat >>= fun rc =>
  ensure ((removed.map CoreObs.ckey).Perm rc) ⟨cat, "removed_all_own001 != the bridge-authorized R_C"⟩ >>= fun _ =>
  ensure (counterSub (post.own050.map Own050.ckey) (base.own050.map Own050.ckey) = [])
    ⟨cat, "a newly-introduced OWN050 advisory appeared"⟩

def checkIdempotence (block : Json) (cat : Category) : Except Refusal Unit :=
  let wrong : Refusal := ⟨cat, "delta.semantic_idempotence is not the closed pass shape"⟩
  closed block ["converted_ids_still_actionable", "pass"] wrong >>= fun si =>
  ensure ((Json.get si "pass").asBool = some true ∧ isTexts (Json.get si "converted_ids_still_actionable") []) wrong

/-- `_validate_delta_representable` -/
def validateDeltaRepresentable (sha : String → String) (doc : DeltaDoc) (auth : Authority) (candidates : List Candidate)
    (cat : Category) : Except Refusal Unit :=
  let convert := auth.applied.insertionSort (· ≤ ·)
  let manual := auth.manual.insertionSort (· ≤ ·)
  readImage doc.baseline cat "baseline" >>= fun base =>
  readImage doc.postimage cat "postimage" >>= fun post =>
  readDelta doc.delta convert manual cat >>= fun removed =>
  subscriptionEquations convert manual base.subs post.subs cat >>= fun _ =>
  observationEquations convert manual candidates base post removed cat >>= fun _ =>
  checkIdempotence doc.semanticIdempotence cat >>= fun _ =>
  ensure (∀ fid ∈ convert, fid ∉ post.subs) ⟨cat, "a converted id is still an actionable postimage subscription"⟩ >>= fun _ =>
  checkToolchain sha doc.toolchainFingerprint cat

/-! ## What is published is read back -/

/-- The published fragments, and a fingerprint of the tools they were made with. -/
def publish (c : Classified) (toolchainFingerprint : Json) : DeltaDoc where
  baseline := c.baseline.json
  postimage := c.postimage.json
  delta := c.deltaJson
  semanticIdempotence := idempotenceJson
  toolchainFingerprint := toolchainFingerprint

theorem isTexts_json (ids : List String) : isTexts (textsJson ids) ids = true := by
  unfold isTexts textsJson
  exact decide_eq_true (texts_map ids)

theorem closed_ok {fields : Fields} {keys : List String} {r : Refusal} (h : Json.hasKeys fields keys) :
    closed (.obj fields) keys r = .ok fields := bind_ok.mpr ⟨(), ensure_ok.mpr h, rfl⟩

theorem sortedIds_sorted (ids : List String) : (sortedIds ids).insertionSort (· ≤ ·) = sortedIds ids :=
  (List.pairwise_insertionSort (· ≤ ·) ids.dedup).insertionSort_eq

theorem sortedIds_nodup (ids : List String) : (sortedIds ids).Nodup :=
  (List.perm_insertionSort _ _).nodup_iff.mpr (List.nodup_dedup ids)

theorem mem_sortedIds {ids : List String} {fid : String} : fid ∈ sortedIds ids ↔ fid ∈ ids := by
  unfold sortedIds
  rw [List.mem_insertionSort, List.mem_dedup]

/-- One set, sorted. -/
theorem sortedIds_eq {a b : List String} (hb : b.Nodup) (h : ∀ fid, fid ∈ a ↔ fid ∈ b) :
    sortedIds a = b.insertionSort (· ≤ ·) := by
  refine Sorting.sort_nodup (List.nodup_dedup a) hb fun fid => ?_
  rw [List.mem_dedup]
  exact h fid

theorem strIdList_json (ids : List String) (cat : Category) (at_ : String) :
    strIdList (textsJson (sortedIds ids)) cat at_ = .ok (sortedIds ids) := by
  refine bind_ok.mpr ⟨sortedIds ids, require_ok.mpr (texts_map _), bind_ok.mpr ⟨(), ensure_ok.mpr ⟨?_, sortedIds_nodup ids⟩, rfl⟩⟩
  exact (sortedIds_sorted ids).symm

/-- A list in the order of a text of its items. -/
def InOrder {α : Type} (key : α → String) (l : List α) : Prop := (l.map key).Pairwise (· ≤ ·)

theorem InOrder.resort {α : Type} {key : α → String} {l : List α} (h : InOrder key l) :
    (l.insertionSort fun a b => key a ≤ key b) = l := (List.pairwise_map.mp h).insertionSort_eq

theorem map_sort {α : Type} (key : α → String) (l : List α) :
    (l.insertionSort fun a b => key a ≤ key b).map key = (l.map key).insertionSort (· ≤ ·) :=
  List.map_insertionSort _ _ key l fun _ _ _ _ => Iff.rfl

theorem inOrder_sort {α : Type} (key : α → String) (l : List α) : InOrder key (l.insertionSort fun a b => key a ≤ key b) := by
  unfold InOrder
  rw [map_sort]
  exact List.pairwise_insertionSort _ _

theorem obsList_json {α : Type} [DecidableEq α] {json : α → Json} {keyfn : Json → Category → String → Except Refusal α}
    {ckey : α → String} (hread : ∀ o cat at_, keyfn (json o) cat at_ = .ok o) {l : List α} (hl : InOrder ckey l) (cat : Category)
    (at_ : String) : obsList (.arr (l.map json)) cat at_ keyfn ckey = .ok l := by
  refine bind_ok.mpr ⟨l.map json, rfl, bind_ok.mpr ⟨l, mapEach_of_map fun i o _ => recast_ok.mpr (hread o _ _), ?_⟩⟩
  exact bind_ok.mpr ⟨(), ensure_ok.mpr hl.resort.symm, rfl⟩

theorem readImage_evidence (i : Image) (ids : List String) (cat : Category) (name : String) :
    readImage (evidence i ids).json cat name = .ok ⟨sortedIds ids, sortedObs i.allOwn001, sortedOwn050 i.own050⟩ := by
  have hclosed : ∀ r, closed (evidence i ids).json deltaImageKeys r = .ok [
      ("subscription_own001_ids", textsJson (sortedIds ids)), ("all_own001", .arr ((sortedObs i.allOwn001).map CoreObs.json)),
      ("own050", .arr ((sortedOwn050 i.own050).map Own050.json))] :=
    fun _ => closed_ok (List.Perm.refl deltaImageKeys)
  unfold readImage
  rw [hclosed]
  refine bind_ok.mpr ⟨_, rfl, bind_ok.mpr ⟨_, strIdList_json ids cat _, bind_ok.mpr ⟨_, obsList_json coreKey_json ?_ cat _, ?_⟩⟩⟩
  · exact inOrder_sort CoreObs.ckey i.allOwn001
  · refine bind_ok.mpr ⟨_, obsList_json own050Key_json ?_ cat _, rfl⟩
    exact inOrder_sort Own050.ckey i.own050

/-- What a multiset of identities is written out as has these identities. -/
theorem shapes_keys {keys : List String} {pool : List CoreObs} (h : ∀ k ∈ keys, k ∈ pool.map CoreObs.ckey) :
    (shapes keys pool).map CoreObs.ckey = keys.insertionSort (· ≤ ·) := by
  have hall : ∀ l : List String, (∀ k ∈ l, k ∈ pool.map CoreObs.ckey) →
      (l.filterMap fun k => pool.reverse.find? fun o => o.ckey = k).map CoreObs.ckey = l := by
    intro l
    induction l with
    | nil => exact fun _ => rfl
    | cons k rest ih =>
      intro hl
      have hk : k ∈ pool.reverse.map CoreObs.ckey := by
        rw [List.map_reverse, List.mem_reverse]
        exact hl k List.mem_cons_self
      obtain ⟨o, hf⟩ := Dict.exists_find_key hk
      rw [List.filterMap_cons, hf]
      simp only
      rw [List.map_cons, (Dict.of_find_key hf).2, ih fun k hk => hl k (List.mem_cons_of_mem _ hk)]
  exact hall _ fun k hk => h k ((List.mem_insertionSort _).mp hk)

/-! ## The recount -/

/-- The groups of the accepted keys, each as large as the accepted candidates of the key are many. -/
structure Recounted (keys : String → Option BridgeKey) (core : List CoreObs) (convert manual rc : List String) : Prop
    extends Authorized keys core convert manual rc where
  nonempty : ∀ fid ∈ convert ++ manual, ∀ k, keys fid = some k → groupOf core k ≠ []
  alike : ∀ fid ∈ convert ++ manual, ∀ k, keys fid = some k → ∀ o ∈ groupOf core k, ∀ o' ∈ groupOf core k, o.ckey = o'.ckey
  count : ∀ fid ∈ convert ++ manual, ∀ k, keys fid = some k →
    (groupOf core k).length = (convert ++ manual).countP fun fid => keys fid = some k

/-- A recount reads the keys of the accepted ids only. -/
theorem Recounted.congr {keys keys' : String → Option BridgeKey} {core : List CoreObs} {convert manual rc : List String}
    (hk : ∀ fid ∈ convert ++ manual, keys fid = keys' fid) (h : Recounted keys core convert manual rc) :
    Recounted keys' core convert manual rc := by
  have hdrawn : convert.filterMap (drawnAt keys core) = convert.filterMap (drawnAt keys' core) :=
    List.filterMap_congr fun fid hfid => by
      unfold drawnAt
      rw [hk fid (List.mem_append.mpr (Or.inl hfid))]
  refine ⟨⟨fun fid hfid => hk fid hfid ▸ h.keyed fid hfid, fun f hf g hg hout => ?_, hdrawn ▸ h.drawn⟩,
    fun fid hfid k hkey => h.nonempty fid hfid k ((hk fid hfid).trans hkey),
    fun fid hfid k hkey => h.alike fid hfid k ((hk fid hfid).trans hkey), fun fid hfid k hkey => ?_⟩
  · rw [← hk f (List.mem_append.mpr (Or.inl hf)), ← hk g (List.mem_append.mpr (Or.inr hg))]
    exact h.unmixed f hf g hg hout
  · rw [h.count fid hfid k ((hk fid hfid).trans hkey)]
    exact List.countP_congr fun f hf => by rw [hk f hf]

/-- A group of so many observations, all alike. -/
def GroupOf (core : List CoreObs) (n : Nat) (k : BridgeKey) : Prop :=
  groupOf core k ≠ [] ∧ (∀ o ∈ groupOf core k, ∀ o' ∈ groupOf core k, o.ckey = o'.ckey) ∧ (groupOf core k).length = n

theorem validateAccepted_ok {core : List CoreObs} {cat : Category} {n : Nat} {k : BridgeKey} :
    validateAccepted core cat n k = .ok () ↔ GroupOf core n k := by
  unfold validateAccepted GroupOf
  rw [ensure_bind_ok, ensure_bind_ok, ensure_ok, ← and_assoc, ← and_assoc, and_congr_left_iff]
  intro _
  have hmap : (groupOf core k).map CoreObs.ckey ≠ [] ↔ groupOf core k ≠ [] := not_congr List.map_eq_nil_iff
  rw [← hmap, alike_iff]
  refine and_congr_right fun _ => ⟨fun h o ho o' ho' =>
    h _ (List.mem_map.mpr ⟨o, ho, rfl⟩) _ (List.mem_map.mpr ⟨o', ho', rfl⟩), ?_⟩
  intro h x hx y hy
  obtain ⟨o, ho, rfl⟩ := List.mem_map.mp hx
  obtain ⟨o', ho', rfl⟩ := List.mem_map.mp hy
  exact h o ho o' ho'

theorem acceptedIn_ok {candidates : List Candidate} {core : List CoreObs} {convert : List String} {cat : Category} {fid : String}
    {a : Accepted} : acceptedIn candidates core convert cat fid = .ok a ↔
    Resolves (candidateKey candidates) core convert fid a := by
  unfold acceptedIn Resolves
  rw [bind_ok]
  simp only [require_ok, Except.ok.injEq]
  exact exists_congr fun k => and_congr_right fun _ => eq_comm

theorem authorizedRemoved_ok {convert manual rc : List String} {candidates : List Candidate}
    {core : List CoreObs} {cat : Category} :
    authorizedRemoved convert manual candidates core cat = .ok rc ↔
        Recounted (candidateKey candidates) core convert manual rc := by
  unfold authorizedRemoved
  rw [bind_ok]
  constructor
  · rintro ⟨as, has, h⟩
    obtain ⟨_, hmixed, h⟩ := bind_ok.mp h
    obtain ⟨_, hgroups, hrc⟩ := bind_ok.mp h
    cases hrc
    have hall := (mapEach_ok (R := Resolves (candidateKey candidates) core convert) fun _ _ _ _ => acceptedIn_ok).mp has
    have hkey : ∀ fid ∈ convert ++ manual, ∀ k, candidateKey candidates fid = some k →
        GroupOf core ((convert ++ manual).countP fun fid => candidateKey candidates fid = some k) k := by
      intro fid hfid k hk
      obtain ⟨a, ha, k', hk', rfl⟩ := exists_read hall hfid
      rw [hk, Option.some.injEq] at hk'
      subst hk'
      have hok := (each_ok (p := fun key => GroupOf core (as.countP fun a => a.key = key) key)
        fun _ _ _ => validateAccepted_ok).mp hgroups k (List.mem_eraseDups.mpr (List.mem_map.mpr ⟨_, ha, rfl⟩))
      rw [resolved_count hall] at hok
      exact hok
    refine ⟨⟨fun fid hfid => ?_, (resolved_unmixed hall).mp ?_, rfl⟩, fun fid hfid k hk => (hkey fid hfid k hk).1,
      fun fid hfid k hk => (hkey fid hfid k hk).2.1, fun fid hfid k hk => (hkey fid hfid k hk).2.2⟩
    · obtain ⟨a, -, k, hk, -⟩ := exists_read hall hfid
      exact ⟨k, hk⟩
    · exact (each_ok (p := fun key => ¬Mixed as key) fun _ _ _ => ensure_ok).mp hmixed
  · intro h
    obtain ⟨as, hall⟩ := exists_reads (R := Resolves (candidateKey candidates) core convert) fun fid hfid => by
      obtain ⟨k, hk⟩ := h.keyed fid hfid
      exact ⟨_, k, hk, rfl⟩
    refine ⟨as, (mapEach_ok (R := Resolves (candidateKey candidates) core convert) fun _ _ _ _ =>
      acceptedIn_ok).mpr hall, bind_ok.mpr ⟨(), ?_, bind_ok.mpr ⟨(), ?_, ?_⟩⟩⟩
    · exact (each_ok (p := fun key => ¬Mixed as key) fun _ _ _ => ensure_ok).mpr ((resolved_unmixed hall).mpr h.unmixed)
    · refine (each_ok (p := fun key => GroupOf core (as.countP fun a => a.key = key) key)
        fun _ _ _ => validateAccepted_ok).mpr fun k hk => ?_
      obtain ⟨a, ha, rfl⟩ := List.mem_map.mp (List.mem_eraseDups.mp hk)
      obtain ⟨fid, hfid, k, hkey, rfl⟩ := exists_item hall ha
      rw [resolved_count hall]
      exact ⟨h.nonempty fid hfid k hkey, h.alike fid hfid k hkey, h.count fid hfid k hkey⟩
    · rw [h.drawn]

/-- Of the accepted ids the converted ones are gone and the reviewed ones are not; of the others none
    is gone, and none is new. -/
theorem subscriptionEquations_ok {convert manual base post : List String} {cat : Category} :
    subscriptionEquations convert manual base post cat = .ok () ↔
      (∀ fid ∈ convert ++ manual, fid ∈ base) ∧ (∀ fid ∈ post, fid ∈ base) ∧
        (∀ fid ∈ convert ++ manual, fid ∉ post ↔ fid ∈ convert) ∧ (∀ fid ∈ convert ++ manual, fid ∈ post ↔ fid ∈ manual) ∧
        ∀ fid ∈ base, fid ∉ convert ++ manual → fid ∈ post := by
  unfold subscriptionEquations
  simp only [ensure_bind_ok, ensure_ok]
  refine and_congr_right fun hbase => and_congr_right fun _ => and_congr ?_ (and_congr_left' ?_)
  · unfold SameSet
    simp only [List.mem_filter, decide_eq_true_eq]
    constructor
    · exact fun h fid hmem => ⟨fun hout => h.1 fid ⟨⟨hbase fid hmem, hout⟩, hmem⟩, fun hin => (h.2 fid hin).1.2⟩
    · intro h
      refine ⟨fun fid hin => (h fid hin.2).mp hin.1.2, fun fid hin => ?_⟩
      have hmem : fid ∈ convert ++ manual := List.mem_append.mpr (Or.inl hin)
      exact ⟨⟨hbase fid hmem, (h fid hmem).mpr hin⟩, hmem⟩
  · unfold SameSet
    simp only [List.mem_filter, decide_eq_true_eq]
    constructor
    · exact fun h fid hmem => ⟨fun hin => h.1 fid ⟨⟨hbase fid hmem, hin⟩, hmem⟩, fun hin => (h.2 fid hin).1.2⟩
    · intro h
      refine ⟨fun fid hin => (h fid hin.2).mp hin.1.2, fun fid hin => ?_⟩
      have hmem : fid ∈ convert ++ manual := List.mem_append.mpr (Or.inr hin)
      exact ⟨⟨hbase fid hmem, (h fid hmem).mpr hin⟩, hmem⟩

/-! ## Counting the accepted -/

theorem countP_eq_iff {a b : List String} {p : String → Bool} (ha : a.Nodup) (hb : b.Nodup) (hab : ∀ x ∈ a, x ∈ b) :
    b.countP p = a.countP p ↔ ∀ x ∈ b, p x = true → x ∈ a := by
  rw [List.countP_eq_length_filter, List.countP_eq_length_filter]
  have hsub : (a.filter p).Subperm (b.filter p) := List.subperm_of_subset (ha.filter _) fun x hx =>
    List.mem_filter.mpr ⟨hab x (List.mem_filter.mp hx).1, (List.mem_filter.mp hx).2⟩
  constructor
  · intro hlen x hx hp
    have hperm := hsub.perm_of_length_le (le_of_eq hlen)
    exact (List.mem_filter.mp (hperm.mem_iff.mpr (List.mem_filter.mpr ⟨hx, hp⟩))).1
  · intro h
    refine List.Perm.length_eq ((List.perm_ext_iff_of_nodup (hb.filter _) (ha.filter _)).mpr fun x => ?_)
    rw [List.mem_filter, List.mem_filter]
    exact ⟨fun hx => ⟨h x hx.1 hx.2, hx.2⟩, fun hx => ⟨hab x hx.1, hx.2⟩⟩

/-- The facts of a key are the ids with that key. -/
theorem countOf_eq {i : Image} (hn : i.ids.Nodup) (k : BridgeKey) :
    i.countOf k = i.ids.countP fun fid => keyOf i.eligible fid = some k := by
  unfold Image.countOf Image.ids
  rw [List.countP_map]
  refine List.countP_congr fun e he => ?_
  have := keyOf_eq hn he
  simp only [Function.comp_apply, this, Option.some.injEq]

/-- No fact outside the accepted ids has the key of an accepted one. -/
def Complete (i : Image) (accepted : List String) : Prop :=
  ∀ fid ∈ accepted, ∀ e ∈ i.eligible, keyOf i.eligible fid = some e.bridgeKey → e.findingId ∈ accepted

theorem complete_iff {i : Image} {accepted : List String} (hn : i.ids.Nodup) (ha : accepted.Nodup)
    (hab : ∀ fid ∈ accepted, fid ∈ i.ids) :
    Complete i accepted ↔ ∀ fid ∈ accepted, ∀ k, keyOf i.eligible fid = some k →
      i.countOf k = accepted.countP fun fid => keyOf i.eligible fid = some k := by
  unfold Complete
  refine forall₂_congr fun fid _ => ⟨fun h k hk => ?_, fun h e he hk => ?_⟩
  · rw [countOf_eq hn, countP_eq_iff ha hn hab]
    intro x hx hxk
    obtain ⟨e, he, rfl⟩ := List.mem_map.mp hx
    simp only [keyOf_eq hn he, decide_eq_true_eq] at hxk
    exact h e he (hk.trans hxk.symm)
  · have hcount := h e.bridgeKey hk
    rw [countOf_eq hn, countP_eq_iff ha hn hab] at hcount
    exact hcount e.findingId (List.mem_map.mpr ⟨e, he, rfl⟩) (decide_eq_true (keyOf_eq hn he))

/-! ## A classification under the certificate -/

section Published

variable {expected : Expected} {baseline postimage : Image} {c : Classified}

theorem group_sorted (core : List CoreObs) (k : BridgeKey) : (groupOf (sortedObs core) k).Perm (groupOf core k) :=
  (List.perm_insertionSort _ core).filter _

/-- The key of a fact has its group. -/
theorem group_of_key (hb : Bridged baseline) {fid : String} {k : BridgeKey} (h : keyOf baseline.eligible fid = some k) :
    Group baseline k := by
  obtain ⟨e, he, -, rfl⟩ := keyOf_mem h
  exact hb e he

/-- In a group any observation is as good as the first. -/
theorem drawnAt_perm (hb : Bridged baseline) {core : List CoreObs} (hcore : core.Perm baseline.allOwn001) (fid : String) :
    drawnAt (keyOf baseline.eligible) core fid = drawnAt (keyOf baseline.eligible) baseline.allOwn001 fid := by
  unfold drawnAt
  cases hk : keyOf baseline.eligible fid with
  | none => rfl
  | some k =>
    have hg := group_of_key hb hk
    have hperm : (groupOf core k).Perm (groupOf baseline.allOwn001 k) := hcore.filter _
    simp only [Option.bind_some]
    cases hs : groupOf core k with
    | nil =>
      rw [hs] at hperm
      exact absurd hperm.nil_eq.symm hg.nonempty
    | cons o os =>
      obtain ⟨o', os', ho'⟩ := List.exists_cons_of_ne_nil hg.nonempty
      have ho : o ∈ groupOf baseline.allOwn001 k := hperm.mem_iff.mp (hs ▸ List.mem_cons_self)
      have hsame := hg.alike o ho o' (ho' ▸ List.mem_cons_self)
      rw [ho']
      exact congrArg some hsame

theorem drawnAt_sorted (hb : Bridged baseline) (fid : String) :
    drawnAt (keyOf baseline.eligible) (sortedObs baseline.allOwn001) fid = drawnAt
        (keyOf baseline.eligible) baseline.allOwn001 fid :=
  drawnAt_perm hb (List.perm_insertionSort _ _) fid

theorem sorted_accepted (l m : List String) : (l.insertionSort (· ≤ ·) ++ m.insertionSort (· ≤ ·)).Perm (l ++ m) :=
  (List.perm_insertionSort _ l).append (List.perm_insertionSort _ m)

/-- The recount succeeds exactly where the accepted candidates are all there are of their keys. -/
theorem recounted_iff (h : Classifies expected baseline postimage c) {rc : List String} :
    Recounted (keyOf baseline.eligible) (sortedObs baseline.allOwn001) (expected.convert.insertionSort (· ≤ ·))
        (expected.manual.insertionSort (· ≤ ·)) rc ↔
      Complete baseline (expected.convert ++ expected.manual) ∧
        rc = (expected.convert.insertionSort (· ≤ ·)).filterMap (drawnAt (keyOf baseline.eligible) baseline.allOwn001) := by
  obtain ⟨rc', hauth, -⟩ := h.authorized
  have hperm := sorted_accepted expected.convert expected.manual
  have hnodup : (expected.convert ++ expected.manual).Nodup :=
    List.nodup_append.mpr ⟨h.convert_nodup, h.manual_nodup, fun x hx y hy hxy => h.disjoint x hx (hxy ▸ hy)⟩
  have hdrawn : drawnAt (keyOf baseline.eligible) (sortedObs baseline.allOwn001) =
      drawnAt (keyOf baseline.eligible) baseline.allOwn001 := funext (drawnAt_sorted h.base_bridged)
  rw [complete_iff h.base_nodup hnodup h.accepted_base]
  constructor
  · intro hr
    refine ⟨fun fid hfid k hk => ?_, hdrawn ▸ hr.drawn⟩
    have hcount := hr.count fid (hperm.mem_iff.mpr hfid) k hk
    rw [(group_sorted _ k).length_eq, (group_of_key h.base_bridged hk).count, hperm.countP_eq] at hcount
    exact hcount
  · rintro ⟨hall, rfl⟩
    refine ⟨⟨fun fid hfid => hauth.keyed fid (hperm.mem_iff.mp hfid), fun f hf g hg hout => ?_, by rw [hdrawn]⟩, ?_, ?_, ?_⟩
    · rw [List.mem_insertionSort] at hf hg hout
      exact hauth.unmixed f hf g hg hout
    · intro fid _ k hk hnil
      have := group_sorted baseline.allOwn001 k
      rw [hnil] at this
      exact (group_of_key h.base_bridged hk).nonempty this.nil_eq.symm
    · intro fid _ k hk o ho o' ho'
      have hg := group_sorted baseline.allOwn001 k
      exact (group_of_key h.base_bridged hk).alike o (hg.mem_iff.mp ho) o' (hg.mem_iff.mp ho')
    · intro fid hfid k hk
      rw [(group_sorted _ k).length_eq, (group_of_key h.base_bridged hk).count, hperm.countP_eq]
      exact hall fid (hperm.mem_iff.mp hfid) k hk

theorem counterSub_perm {a a' b b' : List String} (ha : a.Perm a') (hb : b.Perm b') : (counterSub a b).Perm (counterSub a' b') :=
  ha.diff hb

theorem counterSub_nil {a a' b b' : List String} (ha : a.Perm a') (hb : b.Perm b') (h : counterSub a b = []) :
    counterSub a' b' = [] :=
  (h ▸ counterSub_perm ha hb).nil_eq.symm

theorem sortedObs_keys (l : List CoreObs) : ((sortedObs l).map CoreObs.ckey).Perm (l.map CoreObs.ckey) :=
  (List.perm_insertionSort _ l).map _

theorem sortedOwn050_keys (l : List Own050) : ((sortedOwn050 l).map Own050.ckey).Perm (l.map Own050.ckey) :=
  (List.perm_insertionSort _ l).map _

/-- What was removed, by its identities. -/
theorem removed_keys (h : Classifies expected baseline postimage c) :
    (c.removedAll.map CoreObs.ckey).Perm
      (counterSub (baseline.allOwn001.map CoreObs.ckey) (postimage.allOwn001.map CoreObs.ckey)) ∧
      InOrder CoreObs.ckey c.removedAll := by
  have hkeys : c.removedAll.map CoreObs.ckey =
      (counterSub (baseline.allOwn001.map CoreObs.ckey) (postimage.allOwn001.map CoreObs.ckey)).insertionSort (· ≤ ·) := by
    rw [h.published]
    exact shapes_keys fun k hk => List.diff_subset _ _ hk
  refine ⟨hkeys ▸ List.perm_insertionSort _ _, ?_⟩
  unfold InOrder
  rw [hkeys]
  exact List.pairwise_insertionSort _ _

theorem readDelta_published (h : Classifies expected baseline postimage c) (cat : Category) :
    readDelta c.deltaJson (expected.convert.insertionSort (· ≤ ·))
        (expected.manual.insertionSort (· ≤ ·)) cat = .ok c.removedAll := by
  have hconvert : c.removed = expected.convert.insertionSort (· ≤ ·) := by
    rw [h.published]
    refine sortedIds_eq h.convert_nodup fun fid => ?_
    rw [List.mem_filter, List.mem_filter, decide_eq_true_eq, decide_eq_true_eq]
    refine ⟨fun hin => (h.removed fid hin.2).mp hin.1.2, fun hin => ?_⟩
    have hacc : fid ∈ expected.convert ++ expected.manual := List.mem_append.mpr (Or.inl hin)
    exact ⟨⟨h.accepted_base fid hacc, (h.removed fid hacc).mpr hin⟩, hacc⟩
  have hmanual : c.preserved = expected.manual.insertionSort (· ≤ ·) := by
    rw [h.published]
    refine sortedIds_eq h.manual_nodup fun fid => ?_
    rw [List.mem_filter, List.mem_filter, decide_eq_true_eq, decide_eq_true_eq]
    refine ⟨fun hin => (List.mem_append.mp hin.2).resolve_left fun hc => ?_, fun hin => ?_⟩
    · exact (h.removed fid hin.2).mpr hc hin.1.2
    · have hacc : fid ∈ expected.convert ++ expected.manual := List.mem_append.mpr (Or.inr hin)
      refine ⟨⟨h.accepted_base fid hacc, ?_⟩, hacc⟩
      by_contra hout
      exact h.disjoint fid ((h.removed fid hacc).mp hout) hin
  unfold readDelta
  have hclosed : ∀ r, closed c.deltaJson deltaDeltaKeys r = .ok [("removed_subscription_own001_ids", textsJson c.removed),
      ("preserved_subscription_own001_ids", textsJson c.preserved), ("new_subscription_own001_ids", .arr []),
      ("unexpectedly_removed_subscription_own001_ids", .arr []), ("removed_all_own001", .arr (c.removedAll.map CoreObs.json)),
      ("new_all_own001", .arr []), ("new_own050", .arr [])] :=
    fun _ => closed_ok (List.Perm.refl deltaDeltaKeys)
  rw [hclosed]
  refine bind_ok.mpr ⟨_, rfl, bind_ok.mpr ⟨_, obsList_json coreKey_json (removed_keys h).2 cat _,
    bind_ok.mpr ⟨(), ensure_ok.mpr ?_, rfl⟩⟩⟩
  exact ⟨hconvert ▸ isTexts_json c.removed, hmanual ▸ isTexts_json c.preserved, rfl, rfl, rfl, rfl⟩

theorem subscriptionEquations_published (h : Classifies expected baseline postimage c) (cat : Category) :
    subscriptionEquations (expected.convert.insertionSort (· ≤ ·)) (expected.manual.insertionSort (· ≤ ·))
      (sortedIds baseline.ids)
      (sortedIds postimage.ids) cat = .ok () := by
  have hacc : ∀ fid, fid ∈ expected.convert.insertionSort (· ≤ ·) ++ expected.manual.insertionSort (· ≤ ·) ↔
      fid ∈ expected.convert ++ expected.manual := fun fid => (sorted_accepted _ _).mem_iff
  rw [subscriptionEquations_ok]
  simp only [hacc, mem_sortedIds, List.mem_insertionSort]
  refine ⟨h.accepted_base, h.post_base, fun fid hmem => ⟨fun hout => (h.removed fid hmem).mp hout, fun hin => ?_⟩,
    fun fid hmem => ⟨fun hin => ?_, fun hin => ?_⟩, h.undeclared⟩
  · exact (h.removed fid hmem).mpr hin
  · exact (List.mem_append.mp hmem).resolve_left fun hc => (h.removed fid hmem).mpr hc hin
  · by_contra hout
    exact h.disjoint fid ((h.removed fid hmem).mp hout) hin

theorem observationEquations_published (h : Classifies expected baseline postimage c) {candidates : List Candidate}
    (hkeys : ∀ fid ∈ expected.convert ++ expected.manual,
      candidateKey candidates fid = keyOf baseline.eligible fid) (cat : Category) :
    observationEquations (expected.convert.insertionSort (· ≤ ·)) (expected.manual.insertionSort (· ≤ ·)) candidates
        ⟨sortedIds baseline.ids, sortedObs baseline.allOwn001, sortedOwn050 baseline.own050⟩
        ⟨sortedIds postimage.ids, sortedObs postimage.allOwn001, sortedOwn050 postimage.own050⟩ c.removedAll cat = .ok () ↔
      Complete baseline (expected.convert ++ expected.manual) := by
  have hfun : ∀ rc, Recounted (candidateKey candidates) (sortedObs baseline.allOwn001) (expected.convert.insertionSort (· ≤ ·))
      (expected.manual.insertionSort (· ≤ ·)) rc ↔ Recounted (keyOf baseline.eligible) (sortedObs baseline.allOwn001)
      (expected.convert.insertionSort (· ≤ ·)) (expected.manual.insertionSort (· ≤ ·)) rc := by
    have hacc : ∀ fid ∈ expected.convert.insertionSort (· ≤ ·) ++ expected.manual.insertionSort (· ≤ ·),
        candidateKey candidates fid = keyOf baseline.eligible fid :=
      fun fid hfid => hkeys fid ((sorted_accepted _ _).mem_iff.mp hfid)
    exact fun rc => ⟨Recounted.congr hacc, Recounted.congr fun fid hfid => (hacc fid hfid).symm⟩
  have hbase := sortedObs_keys baseline.allOwn001
  have hpost := sortedObs_keys postimage.allOwn001
  unfold observationEquations
  simp only [bind_ok, ensure_ok, authorizedRemoved_ok, hfun, recounted_iff h]
  constructor
  · rintro ⟨-, -, -, -, rc, ⟨hcomplete, -⟩, -⟩
    exact hcomplete
  · intro hcomplete
    obtain ⟨rc, hauth, hperm⟩ := h.authorized
    refine ⟨(), counterSub_nil hpost.symm hbase.symm h.rest, (), (removed_keys h).1.trans (counterSub_perm hbase hpost).symm, _,
      ⟨hcomplete, rfl⟩, (), ?_, ?_⟩
    · refine (removed_keys h).1.trans (hperm.trans ?_)
      rw [hauth.drawn]
      exact (List.perm_insertionSort _ expected.convert).symm.filterMap _
    · exact counterSub_nil (sortedOwn050_keys postimage.own050).symm (sortedOwn050_keys baseline.own050).symm h.own050

/-- Of a classification that was made, the certificate accepts what was published exactly where the
    accepted ids are all there are of their keys. -/
theorem published_accepted_iff (h : Classifies expected baseline postimage c) {candidates : List Candidate}
    (hkeys : ∀ fid ∈ expected.convert ++ expected.manual, candidateKey candidates fid = keyOf baseline.eligible fid)
    {sha : String → String} {fingerprint : Json} {cat : Category}
    (htools : checkToolchain sha fingerprint cat = .ok ()) :
    validateDeltaRepresentable sha (publish c fingerprint) ⟨expected.convert, expected.manual⟩ candidates cat = .ok () ↔
      Complete baseline (expected.convert ++ expected.manual) := by
  have hbase : readImage c.baseline.json cat "baseline" =
      .ok ⟨sortedIds baseline.ids, sortedObs baseline.allOwn001, sortedOwn050 baseline.own050⟩ := by
    rw [h.published]
    exact readImage_evidence baseline baseline.ids cat _
  have hpost : readImage c.postimage.json cat "postimage" =
      .ok ⟨sortedIds postimage.ids, sortedObs postimage.allOwn001, sortedOwn050 postimage.own050⟩ := by
    rw [h.published]
    exact readImage_evidence postimage postimage.ids cat _
  have hidem : checkIdempotence idempotenceJson cat = .ok () :=
    bind_ok.mpr ⟨_, closed_ok (List.Perm.refl _), ensure_ok.mpr ⟨rfl, rfl⟩⟩
  have hstill : ∀ fid ∈ expected.convert.insertionSort (· ≤ ·), fid ∉ sortedIds postimage.ids := by
    intro fid hfid
    rw [List.mem_insertionSort] at hfid
    rw [mem_sortedIds]
    exact (h.removed fid (List.mem_append.mpr (Or.inl hfid))).mpr hfid
  rw [← observationEquations_published h hkeys cat]
  unfold validateDeltaRepresentable publish
  simp only [hbase, hpost, readDelta_published h cat, hidem, htools]
  constructor
  · intro hok
    obtain ⟨_, hb, hok⟩ := bind_ok.mp hok
    obtain ⟨_, hp, hok⟩ := bind_ok.mp hok
    obtain ⟨_, hr, hok⟩ := bind_ok.mp hok
    cases hb
    cases hp
    cases hr
    obtain ⟨_, -, hok⟩ := bind_ok.mp hok
    obtain ⟨_, hobs, -⟩ := bind_ok.mp hok
    exact hobs
  · intro hobs
    refine bind_ok.mpr ⟨_, rfl, bind_ok.mpr ⟨_, rfl, bind_ok.mpr ⟨_, rfl, bind_ok.mpr ⟨(), ?_, bind_ok.mpr ⟨(), hobs, ?_⟩⟩⟩⟩⟩
    · exact subscriptionEquations_published h cat
    · exact bind_ok.mpr ⟨_, rfl, bind_ok.mpr ⟨(), ensure_ok.mpr hstill, rfl⟩⟩

end Published

/-! ## What the certificate accepts -/

/-- The equations of a classification, of a document that is read as these images and removals. -/
structure Equations (doc : DeltaDoc) (auth : Authority) (candidates : List Candidate) (cat : Category) (base post : ReadImage)
    (removed : List CoreObs) : Prop where
  base_read : readImage doc.baseline cat "baseline" = .ok base
  post_read : readImage doc.postimage cat "postimage" = .ok post
  removed_read : readDelta doc.delta (auth.applied.insertionSort (· ≤ ·)) (auth.manual.insertionSort (· ≤ ·)) cat = .ok removed
  disjoint : ∀ fid ∈ auth.applied, fid ∉ auth.manual
  accepted_base : ∀ fid ∈ auth.applied ++ auth.manual, fid ∈ base.subs
  subs : ∀ fid, fid ∈ post.subs ↔ fid ∈ base.subs ∧ fid ∉ auth.applied
  rest : counterSub (post.all.map CoreObs.ckey) (base.all.map CoreObs.ckey) = []
  removed_all : (removed.map CoreObs.ckey).Perm (counterSub (base.all.map CoreObs.ckey) (post.all.map CoreObs.ckey))
  one_each : ∃ drawn, List.Forall₂ (fun fid o => o ∈ base.all ∧ candidateKey candidates fid = some o.key) auth.applied drawn ∧
    (removed.map CoreObs.ckey).Perm (drawn.map CoreObs.ckey)
  own050 : counterSub (post.own050.map Own050.ckey) (base.own050.map Own050.ckey) = []

/-- What a recount draws: an observation of the key of every conversion. -/
theorem drawn_of_recount {keys : String → Option BridgeKey} {core : List CoreObs} {convert manual rc : List String}
    (ids : List String) (h : Recounted keys core convert manual rc) (hids : ∀ fid ∈ ids, fid ∈ convert ++ manual) :
    ∃ drawn, List.Forall₂ (fun fid o => o ∈ core ∧ keys fid = some o.key) ids drawn ∧
      ids.filterMap (drawnAt keys core) = drawn.map CoreObs.ckey := by
  induction ids with
  | nil => exact ⟨[], List.Forall₂.nil, rfl⟩
  | cons fid rest ih =>
    obtain ⟨drawn, hdrawn, heq⟩ := ih fun f hf => hids f (List.mem_cons_of_mem _ hf)
    have hmem := hids fid List.mem_cons_self
    obtain ⟨k, hk⟩ := h.keyed fid hmem
    obtain ⟨o, os, ho⟩ := List.exists_cons_of_ne_nil (h.nonempty fid hmem k hk)
    have hin : o ∈ groupOf core k := ho ▸ List.mem_cons_self
    have hkey : o.key = k := by simpa using (List.mem_filter.mp hin).2
    have hat : drawnAt keys core fid = some o.ckey := by
      unfold drawnAt
      rw [hk, Option.bind_some, ho]
      rfl
    refine ⟨o :: drawn, List.Forall₂.cons ⟨(List.mem_filter.mp hin).1, hkey ▸ hk⟩ hdrawn, ?_⟩
    rw [List.filterMap_cons, hat, heq]
    rfl

/-- Whatever the certificate accepts satisfies the equations. -/
theorem accepted_equations {sha : String → String} {doc : DeltaDoc} {auth : Authority}
    {candidates : List Candidate} {cat : Category}
    (h : validateDeltaRepresentable sha doc auth candidates cat = .ok ()) :
    ∃ base post removed, Equations doc auth candidates cat base post removed := by
  unfold validateDeltaRepresentable at h
  obtain ⟨base, hbase, h⟩ := bind_ok.mp h
  obtain ⟨post, hpost, h⟩ := bind_ok.mp h
  obtain ⟨removed, hremoved, h⟩ := bind_ok.mp h
  obtain ⟨_, hsubs, h⟩ := bind_ok.mp h
  obtain ⟨_, hobs, h⟩ := bind_ok.mp h
  obtain ⟨_, -, h⟩ := bind_ok.mp h
  obtain ⟨hstill, -⟩ := ensure_bind_ok.mp h
  have hacc : ∀ fid, fid ∈ auth.applied.insertionSort (· ≤ ·) ++ auth.manual.insertionSort (· ≤ ·) ↔
      fid ∈ auth.applied ++ auth.manual := fun fid => (sorted_accepted _ _).mem_iff
  rw [subscriptionEquations_ok] at hsubs
  simp only [hacc, List.mem_insertionSort] at hsubs
  obtain ⟨hin, hnew, hrem, hpre, hund⟩ := hsubs
  unfold observationEquations at hobs
  simp only [bind_ok, ensure_ok, authorizedRemoved_ok] at hobs
  obtain ⟨_, hrest, _, hminus, rc, hrecount, _, hrc, h050⟩ := hobs
  have hgone : ∀ fid ∈ auth.applied, fid ∉ post.subs := fun fid hfid => hstill fid ((List.mem_insertionSort _).mpr hfid)
  refine ⟨base, post, removed, hbase, hpost, hremoved, fun fid hfid hm => ?_, hin, fun fid => ⟨fun hp => ?_, fun hb => ?_⟩, hrest,
    hminus, ?_, h050⟩
  · exact hgone fid hfid ((hpre fid (List.mem_append.mpr (Or.inr hm))).mpr hm)
  · exact ⟨hnew fid hp, fun ha => hgone fid ha hp⟩
  · by_contra hout
    by_cases hmem : fid ∈ auth.applied ++ auth.manual
    · exact hb.2 ((hrem fid hmem).mp hout)
    · exact hout (hund fid hb.1 hmem)
  · obtain ⟨drawn, hdrawn, heq⟩ := drawn_of_recount auth.applied hrecount fun fid hfid =>
      (hacc fid).mpr (List.mem_append.mpr (Or.inl hfid))
    refine ⟨drawn, hdrawn, hrc.trans ?_⟩
    rw [hrecount.drawn, ← heq]
    exact (List.perm_insertionSort _ auth.applied).filterMap _

/-! ## Two subscriptions of one key -/

namespace Example

/-- The fact a candidate comes from. -/
def factOf (c : Candidate) : Eligible := ⟨c.findingId, "OWN001", bridgeKeyOf c⟩

def first : Candidate := ⟨"OWN001:sha256:1", "View.cs", "App.View", "Changed", "model", "OnChanged"⟩

def second : Candidate := ⟨"OWN001:sha256:2", "View.cs", "App.View", "Changed", "model", "OnChanged"⟩

def leak : CoreObs := ⟨"View.cs", "View", "model.Changed", "OnChanged", "event", false, none, none, by decide⟩

/-- Both subscriptions leak. -/
def before : Image := ⟨[leak, leak], [], [first, second].map factOf⟩

/-- The first is fixed. -/
def after : Image := ⟨[leak], [], [second].map factOf⟩

/-- A subscription of another event. -/
def other : Candidate := ⟨"OWN001:sha256:3", "View.cs", "App.View", "Closed", "model", "OnClosed"⟩

def otherLeak : CoreObs := ⟨"View.cs", "View", "model.Closed", "OnClosed", "event", false, none, none, by decide⟩

def beside : Image := ⟨[leak, otherLeak], [], [first, other].map factOf⟩

/-- The first is fixed, the other is not. -/
def left : Image := ⟨[otherLeak], [], [other].map factOf⟩

/-- The digest of the empty manifest, all that is hashed here. -/
def shaEmpty (text : String) : String :=
  if text = "[]" then "sha256:4f53cda18c2baa0c0354bb5f9a3ecbe5ed12ab4d8e11ba873c2f11161202b945" else ""

def fingerprint : Json :=
  .obj [("extractor_deployment_manifest_sha256", .str (shaEmpty "[]")), ("extractor_files", .arr []),
    ("dotnet_host_sha256", .str (shaEmpty "[]")), ("dotnet_version", .str "8.0.100"), ("resolved_runtime_identity", .obj []),
    ("core_analyzer", .obj [("ownlang_manifest_sha256", .str (shaEmpty "[]")), ("ownlang_files", .arr []),
      ("core_runner_sha256", .str (shaEmpty "[]")), ("python_executable_sha256", .str (shaEmpty "[]")),
      ("python_implementation", .str "cpython"), ("python_version", .str "3.12.0"), ("python_cache_tag", .str "cpython-312")])]

theorem fingerprint_ok : checkToolchain shaEmpty fingerprint .deltaBinding = .ok () := by
  have h : decide (checkToolchain shaEmpty fingerprint .deltaBinding = .ok ()) = true := by decide +kernel
  exact of_decide_eq_true h

theorem classified {expected : Expected} {baseline postimage : Image}
    (h : (classifyDelta expected baseline postimage).isOk = true) :
    ∃ c, classifyDelta expected baseline postimage = .ok c := by
  cases hc : classifyDelta expected baseline postimage with
  | error e => rw [hc] at h; cases h
  | ok c => exact ⟨c, rfl⟩

end Example

/-- The certificate accepts what a classification published exactly where no fact outside the
    accepted ids has the key of an accepted one; and it accepts nothing that violates the equations. -/
theorem certificate_agrees_iff (sha : String → String) (cat : Category) :
    (∀ expected baseline postimage c candidates fingerprint, classifyDelta expected baseline postimage = .ok c →
      (∀ fid ∈ expected.convert ++ expected.manual, candidateKey candidates fid = keyOf baseline.eligible fid) →
      checkToolchain sha fingerprint cat = .ok () →
      (validateDeltaRepresentable sha (publish c fingerprint) ⟨expected.convert, expected.manual⟩ candidates cat = .ok () ↔
        Complete baseline (expected.convert ++ expected.manual))) ∧
    ∀ doc auth candidates, validateDeltaRepresentable sha doc auth candidates cat = .ok () →
      ∃ base post removed, Equations doc auth candidates cat base post removed :=
  ⟨fun _ _ _ _ _ _ hc hkeys htools => published_accepted_iff (classify_ok hc) hkeys htools, fun _ _ _ => accepted_equations⟩

open Example in
/-- The candidates are of the selected subscriptions, the other fact is of another key. -/
theorem certificate_agrees_alone : ∃ c, classifyDelta ⟨["OWN001:sha256:1"], []⟩ beside left = .ok c ∧
    (validateDeltaRepresentable shaEmpty (publish c fingerprint) ⟨["OWN001:sha256:1"], []⟩ [first] .deltaBinding = .ok () ↔
      Complete beside ["OWN001:sha256:1"]) ∧
      ∃ base post removed, Equations (publish c fingerprint) ⟨["OWN001:sha256:1"], []⟩
          [first] .deltaBinding base post removed := by
  have hok : (classifyDelta ⟨["OWN001:sha256:1"], []⟩ beside left).isOk = true := by decide +kernel
  obtain ⟨c, hc⟩ := classified hok
  have hkeys : ∀ fid ∈ ["OWN001:sha256:1"], candidateKey [first] fid = keyOf beside.eligible fid := by decide
  have hiff := (certificate_agrees_iff shaEmpty .deltaBinding).1 _ _ _ c [first] _ hc hkeys fingerprint_ok
  refine ⟨c, hc, hiff, (certificate_agrees_iff shaEmpty .deltaBinding).2 _ _ _ (hiff.mpr fun fid hfid e he hk => ?_)⟩
  have hids : ∀ fid ∈ ["OWN001:sha256:1"], ∀ e ∈ beside.eligible, keyOf beside.eligible fid = some e.bridgeKey →
      e.findingId ∈ ["OWN001:sha256:1"] := by decide
  exact hids fid hfid e he hk

open Example in
/-- Only the first subscription is selected, and is the only candidate: the delta is classified, and the
    certificate refuses it for the observation of the second. -/
theorem sibling_refused : ¬ ∀ (expected : Expected) (baseline postimage : Image) (c : Classified) (candidates : List Candidate),
    classifyDelta expected baseline postimage = .ok c →
    (∀ fid ∈ expected.convert ++ expected.manual, candidateKey candidates fid = keyOf baseline.eligible fid) →
    validateDeltaRepresentable shaEmpty (publish c fingerprint) ⟨expected.convert,
        expected.manual⟩ candidates .deltaBinding = .ok () := by
  intro h
  have hok : (classifyDelta ⟨["OWN001:sha256:1"], []⟩ before after).isOk = true := by decide +kernel
  obtain ⟨c, hc⟩ := classified hok
  have hkeys : ∀ fid ∈ ["OWN001:sha256:1"], candidateKey [first] fid = keyOf before.eligible fid := by decide
  have hcomplete := (published_accepted_iff (classify_ok hc) hkeys fingerprint_ok).mp (h _ _ _ c [first] hc hkeys)
  have hmissed : ¬ ∀ fid ∈ ["OWN001:sha256:1"], ∀ e ∈ before.eligible, keyOf before.eligible fid = some e.bridgeKey →
      e.findingId ∈ ["OWN001:sha256:1"] := by decide
  exact hmissed hcomplete

end OwnNet.Fix
