/-
  OwnNet.Fix.Delta — `classify_delta`: what two runs of the analyzer, over a file as it was and
  as it was fixed, may say differently.

  An image is what one run said. Its fix-eligible facts and its observations are bound by a
  key (file, component, event, handler), which several facts may share; under a shared key
  the observations cannot be told apart, and there are as many of them as facts.

  Proved: `coreKey_json`, `own050Key_json`: what is published of an observation is read back;
  `classify_ok`: all that holds where a classification is made (`Classifies`).
-/

import OwnNet.Fix.Candidates
import Mathlib.Data.List.Dedup

namespace OwnNet.Fix

open Checks

/-! ## Refusals -/

inductive Category where
  | baselineAnalysis | postimageAnalysis | analysisIdentity | deltaMismatch | newOwn001 | newOwn050 | idempotence | deltaBinding
  deriving DecidableEq, Repr

structure Refusal where
  category : Category
  message : String
  deriving DecidableEq, Repr

def reprIds (ids : List String) : String := OwnIR.repr (.arr (ids.map .str))

/-- `sorted` of a set of texts. -/
def sortedIds (ids : List String) : List String := ids.dedup.insertionSort (· ≤ ·)

/-! ## Observations -/

/-- `SUBSCRIPTION_JOIN_KEY` -/
structure BridgeKey where
  file : String
  component : String
  event : String
  handler : String
  deriving DecidableEq, Repr

def BridgeKey.repr (k : BridgeKey) : String :=
  "(" ++ ", ".intercalate ([k.file, k.component, k.event, k.handler].map OwnIR.reprStr) ++ ")"

/-- `_require_rel`: why a path is none to name a file by. -/
def relRefusal (path : String) : Option String :=
  if path = "" ∨ path.toList.head? = some '/' ∨ path.toList.contains ':' ∨ path.toList.contains '\\' then
    some "is not a canonical relative path"
  else if ¬isSegmented path then some "has an empty or dotted segment"
  else none

/-- An OWN001 of the core analyzer. -/
structure CoreObs where
  file : String
  component : String
  event : String
  handler : String
  kind : String
  advisory : Bool
  severity : Option String
  ignoreReason : Option String
  rel : relRefusal file = none
  deriving DecidableEq

/-- An OWN050 of it. -/
structure Own050 where
  file : String
  component : String
  event : String
  handler : String
  rel : relRefusal file = none
  deriving DecidableEq

def orNull : Option String → Json
  | some s => .str s
  | none => .null

def CoreObs.json (o : CoreObs) : Json :=
  .obj [("file", .str o.file), ("code", .str "OWN001"), ("component", .str o.component), ("event", .str o.event),
    ("handler", .str o.handler), ("kind", .str o.kind), ("advisory", .bool o.advisory), ("severity", orNull o.severity),
    ("ignore_reason", orNull o.ignoreReason)]

def Own050.json (o : Own050) : Json :=
  .obj [("file", .str o.file), ("component", .str o.component), ("event", .str o.event), ("handler", .str o.handler)]

/-- `_ckey`: the identity of an observation in a multiset of them. -/
def CoreObs.ckey (o : CoreObs) : String := o.json.dumps

def Own050.ckey (o : Own050) : String := o.json.dumps

/-- `_proj` -/
def CoreObs.key (o : CoreObs) : BridgeKey := ⟨o.file, o.component, o.event, o.handler⟩

/-! ## Reading them -/

/-- `_require_key` -/
def requireKey (d : Json) (keys : List String) (cat : Category) (at_ : String) : Except Refusal Fields :=
  match d with
  | .obj fields =>
    ensure (Json.hasKeys fields keys)
      ⟨cat, at_ ++ ": keys " ++ reprIds (sortedIds (fields.map Prod.fst)) ++ " != " ++
        reprIds (sortedIds keys)⟩ >>= fun _ => .ok fields
  | _ => .error ⟨cat, at_ ++ ": must be an object"⟩

def textAt (fields : Fields) (key : String) (cat : Category) (at_ : String) : Except Refusal String :=
  require (Json.get fields key).asStr ⟨cat, at_ ++ "." ++ key ++ " must be a string"⟩

def boolAt (fields : Fields) (key : String) (cat : Category) (at_ : String) : Except Refusal Bool :=
  require (Json.get fields key).asBool ⟨cat, at_ ++ "." ++ key ++ " must be a boolean"⟩

def textOrNull : Json → Option (Option String)
  | .null => some none
  | .str s => some (some s)
  | _ => none

def textOrNullAt (fields : Fields) (key : String) (cat : Category) (at_ : String) : Except Refusal (Option String) :=
  require (textOrNull (Json.get fields key)) ⟨cat, at_ ++ "." ++ key ++ " must be a string or null"⟩

/-- A path of an observation, with the proof that it is canonical. -/
def requireRel (path : String) (cat : Category) (at_ : String) : Except Refusal (PLift (relRefusal path = none)) :=
  if h : relRefusal path = none then .ok ⟨h⟩
  else .error ⟨cat, at_ ++ ": " ++ OwnIR.reprStr path ++ " " ++ (relRefusal path).getD ""⟩

def coreKeyFields : List String :=
  ["file", "code", "component", "event", "handler", "kind", "advisory", "severity", "ignore_reason"]

def own050KeyFields : List String := ["file", "component", "event", "handler"]

/-- `_core_key` -/
def coreKey (obs : Json) (cat : Category) (at_ : String) : Except Refusal CoreObs :=
  requireKey obs coreKeyFields cat at_ >>= fun o =>
  ensure ((Json.get o "code").asStr = some "OWN001") ⟨cat, at_ ++ ".code must be 'OWN001'"⟩ >>= fun _ =>
  textAt o "file" cat at_ >>= fun file =>
  textAt o "component" cat at_ >>= fun component =>
  textAt o "event" cat at_ >>= fun event =>
  textAt o "handler" cat at_ >>= fun handler =>
  textAt o "kind" cat at_ >>= fun kind =>
  boolAt o "advisory" cat at_ >>= fun advisory =>
  textOrNullAt o "severity" cat at_ >>= fun severity =>
  textOrNullAt o "ignore_reason" cat at_ >>= fun ignoreReason =>
  requireRel file cat (at_ ++ ".file") >>= fun rel =>
  .ok ⟨file, component, event, handler, kind, advisory, severity, ignoreReason, rel.down⟩

/-- `_own050_key` -/
def own050Key (obs : Json) (cat : Category) (at_ : String) : Except Refusal Own050 :=
  requireKey obs own050KeyFields cat at_ >>= fun o =>
  textAt o "file" cat at_ >>= fun file =>
  textAt o "component" cat at_ >>= fun component =>
  textAt o "event" cat at_ >>= fun event =>
  textAt o "handler" cat at_ >>= fun handler =>
  requireRel file cat (at_ ++ ".file") >>= fun rel =>
  .ok ⟨file, component, event, handler, rel.down⟩

theorem textOrNull_orNull {o : Option String} : textOrNull (orNull o) = some o := by
  cases o with
  | none => rfl
  | some s => rfl

theorem requireRel_ok {path : String} {cat : Category} {at_ : String} (h : relRefusal path = none) :
    requireRel path cat at_ = .ok ⟨h⟩ := dif_pos h

/-- What is published is read back. -/
theorem coreKey_json (o : CoreObs) (cat : Category) (at_ : String) : coreKey o.json cat at_ = .ok o := by
  have hkeys : requireKey o.json coreKeyFields cat at_ = .ok [("file", .str o.file), ("code", .str "OWN001"),
      ("component", .str o.component), ("event", .str o.event), ("handler", .str o.handler), ("kind", .str o.kind),
      ("advisory", .bool o.advisory), ("severity", orNull o.severity), ("ignore_reason", orNull o.ignoreReason)] := by
    unfold CoreObs.json requireKey
    exact bind_ok.mpr ⟨(), ensure_ok.mpr (List.Perm.refl coreKeyFields), rfl⟩
  unfold coreKey
  rw [hkeys]
  simp only [bind_ok, textAt, boolAt, textOrNullAt, require_ok, Json.get, Json.asStr, Json.asBool]
  refine ⟨_, rfl, (), rfl, _, rfl, _, rfl, _, rfl, _, rfl, _, rfl, _, rfl, _, textOrNull_orNull, _, textOrNull_orNull, _,
    requireRel_ok o.rel, rfl⟩

theorem own050Key_json (o : Own050) (cat : Category) (at_ : String) : own050Key o.json cat at_ = .ok o := by
  have hkeys : requireKey o.json own050KeyFields cat at_ = .ok [("file", .str o.file), ("component", .str o.component),
      ("event", .str o.event), ("handler", .str o.handler)] := by
    unfold Own050.json requireKey
    exact bind_ok.mpr ⟨(), ensure_ok.mpr (List.Perm.refl own050KeyFields), rfl⟩
  unfold own050Key
  rw [hkeys]
  simp only [bind_ok, textAt, require_ok, Json.get, Json.asStr]
  refine ⟨_, rfl, _, rfl, _, rfl, _, rfl, _, rfl, _, requireRel_ok o.rel, rfl⟩

/-! ## Images -/

/-- A fix-eligible fact. -/
structure Eligible where
  findingId : String
  diagnosticCode : String
  bridgeKey : BridgeKey

structure Image where
  allOwn001 : List CoreObs
  own050 : List Own050
  fixEligible : List Eligible

/-- The facts that count. -/
def Image.eligible (i : Image) : List Eligible := i.fixEligible.filter fun e => e.diagnosticCode = "OWN001"

def Image.ids (i : Image) : List String := i.eligible.map Eligible.findingId

/-- The observations of a key. -/
def groupOf (core : List CoreObs) (k : BridgeKey) : List CoreObs := core.filter fun o => o.key = k

/-- `{fact["finding_id"]: key}`: of two facts with one id the later counts. -/
def keyOf (facts : List Eligible) (fid : String) : Option BridgeKey :=
  (facts.reverse.find? fun e => e.findingId = fid).map Eligible.bridgeKey

/-! ## The bridge -/

def subscriptionIds (i : Image) (cat : Category) : Except Refusal (List String) :=
  ensure i.ids.Nodup ⟨cat, "duplicate fix-eligible OWN001 subscription finding_id"⟩ >>= fun _ => .ok i.ids

/-- How many facts of an image have a key. -/
def Image.countOf (i : Image) (k : BridgeKey) : Nat := i.eligible.countP fun e => e.bridgeKey = k

def validateGroup (i : Image) (k : BridgeKey) : Except Refusal (BridgeKey × List CoreObs) :=
  let obs := groupOf i.allOwn001 k
  ensure (obs ≠ []) ⟨.analysisIdentity, "eligible OWN001 subscription " ++ k.repr ++ " has no core observation"⟩ >>= fun _ =>
  ensure ((obs.map CoreObs.ckey).dedup.length = 1)
    ⟨.analysisIdentity, "eligible OWN001 " ++ k.repr ++ " maps to multiple distinct observations"⟩ >>= fun _ =>
  ensure (obs.length = i.countOf k)
    ⟨.analysisIdentity, "eligible/core cardinality mismatch for " ++ k.repr ++ ": " ++ toString (i.countOf k) ++ " facts vs " ++
      toString obs.length ++ " observations"⟩ >>= fun _ =>
  .ok (k, obs)

/-- `validate_image_bridge`: the group of every key some fact has. -/
def validateImageBridge (i : Image) : Except Refusal (List (BridgeKey × List CoreObs)) :=
  mapEach (fun _ k => validateGroup i k) (i.eligible.map Eligible.bridgeKey).eraseDups

inductive Action where
  | convert | manual
  deriving DecidableEq, Repr

/-- An accepted id, with its key, what is done there and the observations of the key. -/
structure Accepted where
  key : BridgeKey
  action : Action
  group : List CoreObs

def acceptedOf (facts : List Eligible) (groups : List (BridgeKey × List CoreObs)) (convert : List String) (fid : String) :
    Except Refusal Accepted :=
  require (keyOf facts fid) ⟨.analysisIdentity, "accepted candidate " ++ fid ++
      " has no baseline subscription fact"⟩ >>= fun key =>
  require ((groups.find? fun g => g.1 = key).map Prod.snd)
    ⟨.analysisIdentity, "accepted candidate " ++ fid ++ " maps to an unvalidated baseline group"⟩ >>= fun group =>
  .ok ⟨key, if fid ∈ convert then .convert else .manual, group⟩

/-- One observation of the group of every conversion, never more of a group than it has. -/
def draw (consumed : List BridgeKey) : List Accepted → Except Refusal (List String)
  | [] => .ok []
  | a :: rest =>
    match a.group with
    | [] => .error ⟨.analysisIdentity, "more converted candidates than observations for key " ++ a.key.repr⟩
    | o :: _ =>
      ensure (consumed.count a.key + 1 ≤ a.group.length)
        ⟨.analysisIdentity, "more converted candidates than observations for key " ++ a.key.repr⟩ >>= fun _ =>
      draw (a.key :: consumed) rest >>= fun keys => .ok (o.ckey :: keys)

/-- Whether both actions are asked for under a key. -/
def Mixed (l : List Accepted) (key : BridgeKey) : Prop :=
  (∃ a ∈ l, a.key = key ∧ a.action = .convert) ∧ ∃ a ∈ l, a.key = key ∧ a.action = .manual

instance (l : List Accepted) (key : BridgeKey) : Decidable (Mixed l key) :=
  inferInstanceAs (Decidable ((∃ a ∈ l, a.key = key ∧ a.action = .convert) ∧ ∃ a ∈ l, a.key = key ∧ a.action = .manual))

/-- `_bridge_r_c` -/
def bridgeRC (convert manual : List String) (facts : List Eligible) (groups : List (BridgeKey × List CoreObs)) :
    Except Refusal (List String) :=
  mapEach (fun _ fid => acceptedOf facts groups convert fid) convert >>= fun converted =>
  mapEach (fun _ fid => acceptedOf facts groups convert fid) manual >>= fun kept =>
  each (fun _ key =>
    ensure (¬Mixed (converted ++ kept) key) ⟨.analysisIdentity, "bridge key " ++ key.repr ++
      " mixes convert and manual candidates"⟩)
    ((converted ++ kept).map Accepted.key).eraseDups >>= fun _ =>
  draw [] converted

/-! ## The classification -/

structure Expected where
  convert : List String
  manual : List String

structure ImageEvidence where
  subscriptionIds : List String
  allOwn001 : List CoreObs
  own050 : List Own050

/-- What a classification publishes; the lists that are empty by then are left out. -/
structure Classified where
  baseline : ImageEvidence
  postimage : ImageEvidence
  removed : List String
  preserved : List String
  removedAll : List CoreObs

def textsJson (ids : List String) : Json := .arr (ids.map .str)

def ImageEvidence.json (e : ImageEvidence) : Json :=
  .obj [("subscription_own001_ids", textsJson e.subscriptionIds), ("all_own001", .arr (e.allOwn001.map CoreObs.json)),
    ("own050", .arr (e.own050.map Own050.json))]

def Classified.deltaJson (c : Classified) : Json :=
  .obj [("removed_subscription_own001_ids", textsJson c.removed), ("preserved_subscription_own001_ids", textsJson c.preserved),
    ("new_subscription_own001_ids", .arr []), ("unexpectedly_removed_subscription_own001_ids", .arr []),
    ("removed_all_own001", .arr (c.removedAll.map CoreObs.json)), ("new_all_own001", .arr []), ("new_own050", .arr [])]

def idempotenceJson : Json := .obj [("converted_ids_still_actionable", .arr []), ("pass", .bool true)]

/-- `_sorted_multiset` -/
def sortedObs (l : List CoreObs) : List CoreObs := l.insertionSort fun a b => a.ckey ≤ b.ckey

def sortedOwn050 (l : List Own050) : List Own050 := l.insertionSort fun a b => a.ckey ≤ b.ckey

/-- `_multiset_to_list`: of two observations with one identity the later is the shape. -/
def shapes (keys : List String) (pool : List CoreObs) : List CoreObs :=
  (keys.insertionSort (· ≤ ·)).filterMap fun k => pool.reverse.find? fun o => o.ckey = k

def evidence (i : Image) (ids : List String) : ImageEvidence := ⟨sortedIds ids, sortedObs i.allOwn001, sortedOwn050 i.own050⟩

/-- `Counter(a) - Counter(b)` -/
def counterSub (a b : List String) : List String := a.diff b

/-- `classify_delta` -/
def classifyDelta (expected : Expected) (baseline postimage : Image) : Except Refusal Classified :=
  let convert := expected.convert
  let manual := expected.manual
  let accepted := convert ++ manual
  ensure (convert.Nodup ∧ manual.Nodup) ⟨.deltaMismatch, "expected id list has a duplicate"⟩ >>= fun _ =>
  ensure (∀ fid ∈ convert, fid ∉ manual) ⟨.deltaMismatch, "convert and manual id sets are not disjoint"⟩ >>= fun _ =>
  subscriptionIds baseline .baselineAnalysis >>= fun base =>
  subscriptionIds postimage .postimageAnalysis >>= fun post =>
  validateImageBridge baseline >>= fun groups =>
  validateImageBridge postimage >>= fun _ =>
  bridgeRC convert manual baseline.eligible groups >>= fun rc =>
  ensure (∀ fid ∈ accepted, fid ∈ base)
    ⟨.deltaMismatch, "accepted ids not all baseline subscriptions: " ++
        reprIds (sortedIds (accepted.filter (· ∉ base)))⟩ >>= fun _ =>
  ensure (∀ fid ∈ post, fid ∈ base)
    ⟨.newOwn001, "new fix-eligible subscriptions: " ++ reprIds (sortedIds (post.filter (· ∉ base)))⟩ >>= fun _ =>
  let removed := base.filter fun fid => fid ∉ post
  let preserved := base.filter fun fid => fid ∈ post
  ensure (SameSet (removed.filter (· ∈ accepted)) convert)
    ⟨.deltaMismatch, "removed candidate-scoped subscriptions != the converted set"⟩ >>= fun _ =>
  ensure (SameSet (preserved.filter (· ∈ accepted)) manual)
    ⟨.deltaMismatch, "preserved candidate-scoped subscriptions != the manual-review set"⟩ >>= fun _ =>
  ensure (∀ fid ∈ base, fid ∉ accepted → fid ∈ post)
    ⟨.deltaMismatch, "undeclared disappearance: " ++
      reprIds (sortedIds (base.filter fun fid => fid ∉ accepted ∧ fid ∉ post))⟩ >>= fun _ =>
  let baseAll := baseline.allOwn001.map CoreObs.ckey
  let postAll := postimage.allOwn001.map CoreObs.ckey
  ensure (counterSub postAll baseAll = []) ⟨.newOwn001, "a new core OWN001 observation appeared"⟩ >>= fun _ =>
  ensure ((counterSub baseAll postAll).Perm rc)
    ⟨.deltaMismatch, "removed core OWN001 observations != those authorized for conversion"⟩ >>= fun _ =>
  ensure (counterSub (postimage.own050.map Own050.ckey) (baseline.own050.map Own050.ckey) = [])
    ⟨.newOwn050, "a newly-introduced OWN050 advisory appeared"⟩ >>= fun _ =>
  ensure (∀ fid ∈ convert, fid ∉ post)
    ⟨.idempotence, "converted ids still actionable: " ++ reprIds (sortedIds (convert.filter (· ∈ post)))⟩ >>= fun _ =>
  .ok { baseline := evidence baseline base, postimage := evidence postimage post
        removed := sortedIds (removed.filter (· ∈ accepted))
        preserved := sortedIds (preserved.filter (· ∈ accepted))
        removedAll := shapes (counterSub baseAll postAll) baseline.allOwn001 }

/-! ## What a classification comes to -/

/-- The observations of a key: as many as facts, and all alike. -/
structure Group (i : Image) (k : BridgeKey) : Prop where
  nonempty : groupOf i.allOwn001 k ≠ []
  alike : ∀ o ∈ groupOf i.allOwn001 k, ∀ o' ∈ groupOf i.allOwn001 k, o.ckey = o'.ckey
  count : (groupOf i.allOwn001 k).length = i.countOf k

theorem alike_iff {l : List String} : l ≠ [] ∧ l.dedup.length = 1 ↔ l ≠ [] ∧ ∀ x ∈ l, ∀ y ∈ l, x = y := by
  refine and_congr_right fun hne => ⟨fun h x hx y hy => ?_, fun h => ?_⟩
  · obtain ⟨a, ha⟩ := List.length_eq_one_iff.mp h
    have hmem : ∀ z ∈ l, z = a := fun z hz => by simpa [ha] using List.mem_dedup.mpr hz
    rw [hmem x hx, hmem y hy]
  · obtain ⟨a, rest, rfl⟩ := List.exists_cons_of_ne_nil hne
    refine List.length_eq_one_iff.mpr ⟨a, ?_⟩
    have hperm : (a :: rest).dedup.Perm [a] := (List.perm_ext_iff_of_nodup (List.nodup_dedup _) (List.nodup_singleton a)).mpr
      fun x => by
        rw [List.mem_dedup, List.mem_singleton]
        exact ⟨fun hx => h x hx a List.mem_cons_self, fun hx => hx ▸ List.mem_cons_self⟩
    exact List.perm_singleton.mp hperm

theorem validateGroup_ok {i : Image} {k : BridgeKey} {g : BridgeKey × List CoreObs} :
    validateGroup i k = .ok g ↔ Group i k ∧ g = (k, groupOf i.allOwn001 k) := by
  unfold validateGroup
  simp only [ensure_bind_ok, Except.ok.injEq]
  constructor
  · rintro ⟨hne, hone, hcount, rfl⟩
    have hmap : (groupOf i.allOwn001 k).map CoreObs.ckey ≠ [] := fun h => hne (List.map_eq_nil_iff.mp h)
    have halike := (alike_iff.mp ⟨hmap, hone⟩).2
    exact ⟨⟨hne, fun o ho o' ho' => halike _ (List.mem_map.mpr ⟨o, ho, rfl⟩) _ (List.mem_map.mpr ⟨o', ho', rfl⟩), hcount⟩, rfl⟩
  · rintro ⟨hg, rfl⟩
    have hmap : (groupOf i.allOwn001 k).map CoreObs.ckey ≠ [] := fun h => hg.nonempty (List.map_eq_nil_iff.mp h)
    refine ⟨hg.nonempty, (alike_iff.mpr ⟨hmap, fun x hx y hy => ?_⟩).2, hg.count, rfl⟩
    obtain ⟨o, ho, rfl⟩ := List.mem_map.mp hx
    obtain ⟨o', ho', rfl⟩ := List.mem_map.mp hy
    exact hg.alike o ho o' ho'

/-- Every key some fact has, has its group. -/
def Bridged (i : Image) : Prop := ∀ e ∈ i.eligible, Group i e.bridgeKey

theorem validateImageBridge_ok {i : Image} {groups : List (BridgeKey × List CoreObs)} :
    validateImageBridge i = .ok groups ↔
      Bridged i ∧ groups = (i.eligible.map Eligible.bridgeKey).eraseDups.map fun k => (k, groupOf i.allOwn001 k) := by
  unfold validateImageBridge
  rw [mapEach_ok (R := fun k g => Group i k ∧ g = (k, groupOf i.allOwn001 k)) fun _ _ _ _ => validateGroup_ok]
  have hall : ∀ keys : List BridgeKey, List.Forall₂ (fun k g => Group i k ∧ g = (k, groupOf i.allOwn001 k)) keys groups ↔
      (∀ k ∈ keys, Group i k) ∧ groups = keys.map fun k => (k, groupOf i.allOwn001 k) := by
    intro keys
    induction keys generalizing groups with
    | nil => rw [List.forall₂_nil_left_iff]; simp
    | cons k rest ih =>
      rw [List.forall₂_cons_left_iff]
      constructor
      · rintro ⟨g, gs, ⟨hg, rfl⟩, hrest, rfl⟩
        obtain ⟨hgs, hgs'⟩ := ih.mp hrest
        refine ⟨fun k' hk' => ?_, by rw [List.map_cons, ← hgs']⟩
        rcases List.mem_cons.mp hk' with rfl | hk'
        · exact hg
        · exact hgs k' hk'
      · rintro ⟨hgs, rfl⟩
        exact ⟨_, _, ⟨hgs k List.mem_cons_self, rfl⟩, ih.mpr ⟨fun k' hk' => hgs k' (List.mem_cons_of_mem _ hk'), rfl⟩, rfl⟩
  rw [hall]
  refine and_congr_left fun _ => ⟨fun h e he => h _ ?_, fun h k hk => ?_⟩
  · exact List.mem_eraseDups.mpr (List.mem_map.mpr ⟨e, he, rfl⟩)
  · obtain ⟨e, he, rfl⟩ := List.mem_map.mp (List.mem_eraseDups.mp hk)
    exact h e he

theorem keyOf_mem {facts : List Eligible} {fid : String} {k : BridgeKey} (h : keyOf facts fid = some k) :
    ∃ e ∈ facts, e.findingId = fid ∧ e.bridgeKey = k := by
  unfold keyOf at h
  obtain ⟨e, he, rfl⟩ := Option.map_eq_some_iff.mp h
  obtain ⟨hmem, hid⟩ := Dict.of_find_key he
  exact ⟨e, List.mem_reverse.mp hmem, hid, rfl⟩

theorem keyOf_eq {facts : List Eligible} (hn : (facts.map Eligible.findingId).Nodup) {e : Eligible} (he : e ∈ facts) :
    keyOf facts e.findingId = some e.bridgeKey := by
  have hn' : (facts.reverse.map Eligible.findingId).Nodup := (facts.reverse_perm.map Eligible.findingId).nodup_iff.mpr hn
  exact congrArg (Option.map Eligible.bridgeKey) (Dict.find_key_of_mem hn' (List.mem_reverse.mpr he))

/-- The identity of what a conversion of an id takes away. -/
def drawnAt (keys : String → Option BridgeKey) (core : List CoreObs) (fid : String) : Option String :=
  (keys fid).bind fun k => (groupOf core k).head?.map CoreObs.ckey

/-- What an accepted id comes to, where it has a key. -/
def Resolves (keys : String → Option BridgeKey) (core : List CoreObs) (convert : List String)
    (fid : String) (a : Accepted) : Prop :=
  ∃ k, keys fid = some k ∧ a = ⟨k, if fid ∈ convert then .convert else .manual, groupOf core k⟩

section Resolved

variable {keys : String → Option BridgeKey} {core : List CoreObs} {convert ids : List String} {as : List Accepted}

theorem resolved_drawn (h : List.Forall₂ (Resolves keys core convert) ids as) :
    as.filterMap (fun a => a.group.head?.map CoreObs.ckey) = ids.filterMap (drawnAt keys core) := by
  induction h with
  | nil => rfl
  | @cons fid a ids as ha _ ih =>
    obtain ⟨k, hk, rfl⟩ := ha
    have hdrawn : drawnAt keys core fid = (groupOf core k).head?.map CoreObs.ckey := by
      unfold drawnAt
      rw [hk]
      rfl
    rw [List.filterMap_cons, List.filterMap_cons, hdrawn, ih]

theorem resolved_count (h : List.Forall₂ (Resolves keys core convert) ids as) (k : BridgeKey) :
    as.countP (fun a => a.key = k) = ids.countP fun fid => keys fid = some k := by
  induction h with
  | nil => rfl
  | @cons fid a ids as ha _ ih =>
    obtain ⟨k', hk', rfl⟩ := ha
    rw [List.countP_cons, List.countP_cons, ih, hk']
    simp only [Option.some.injEq]

/-- No key is both converted and reviewed. -/
theorem resolved_unmixed {convert manual : List String} {as : List Accepted}
    (h : List.Forall₂ (Resolves keys core convert) (convert ++ manual) as) :
    (∀ key ∈ (as.map Accepted.key).eraseDups, ¬Mixed as key) ↔
      ∀ f ∈ convert, ∀ g ∈ manual, g ∉ convert → keys f ≠ keys g := by
  constructor
  · intro hall f hf g hg hgout hsame
    obtain ⟨a, ha, k, hkf, rfl⟩ := exists_read h (List.mem_append.mpr (Or.inl hf))
    obtain ⟨b, hb, k', hkg, rfl⟩ := exists_read h (List.mem_append.mpr (Or.inr hg))
    rw [hkf, hkg, Option.some.injEq] at hsame
    subst hsame
    refine hall k (List.mem_eraseDups.mpr (List.mem_map.mpr ⟨_, ha, rfl⟩)) ⟨⟨_, ha, rfl, if_pos hf⟩, ⟨_, hb, rfl, if_neg hgout⟩⟩
  · rintro hall key - ⟨⟨a, ha, rfl, haction⟩, b, hb, hkey, hbction⟩
    obtain ⟨f, hf, k, hkf, rfl⟩ := exists_item h ha
    obtain ⟨g, hg, k', hkg, rfl⟩ := exists_item h hb
    have hfin : f ∈ convert := by
      by_contra hout
      simp [hout] at haction
    have hgout : g ∉ convert := by
      intro hin
      simp [hin] at hbction
    have hgm : g ∈ manual := (List.mem_append.mp hg).resolve_left hgout
    refine hall f hfin g hgm hgout ?_
    rw [hkf, hkg]
    exact congrArg some (Eq.symm hkey)

end Resolved

theorem acceptedOf_ok {i : Image} {groups : List (BridgeKey × List CoreObs)} (hg : validateImageBridge i = .ok groups)
    {convert : List String} {fid : String} {a : Accepted} : acceptedOf i.eligible groups convert fid = .ok a ↔
      Resolves (keyOf i.eligible) i.allOwn001 convert fid a := by
  obtain ⟨-, rfl⟩ := validateImageBridge_ok.mp hg
  unfold acceptedOf Resolves
  rw [bind_ok]
  simp only [require_ok, bind_ok, Except.ok.injEq]
  refine exists_congr fun k => and_congr_right fun hk => ?_
  have hfind : (((i.eligible.map Eligible.bridgeKey).eraseDups.map fun k => (k, groupOf i.allOwn001 k)).find?
      fun g => g.1 = k).map Prod.snd = some (groupOf i.allOwn001 k) := by
    obtain ⟨e, he, -, rfl⟩ := keyOf_mem hk
    have hin : e.bridgeKey ∈ ((i.eligible.map Eligible.bridgeKey).eraseDups.map fun k => (k,
        groupOf i.allOwn001 k)).map Prod.fst := by
      rw [List.map_map]
      exact List.mem_map.mpr ⟨e.bridgeKey, List.mem_eraseDups.mpr (List.mem_map.mpr ⟨e, he, rfl⟩), rfl⟩
    obtain ⟨g, hf⟩ := Dict.exists_find_key hin
    obtain ⟨hg, hkey⟩ := Dict.of_find_key hf
    obtain ⟨k', -, rfl⟩ := List.mem_map.mp hg
    rw [hf, show k' = e.bridgeKey from hkey]
    rfl
  rw [hfind]
  constructor
  · rintro ⟨_, hgroup, rfl⟩
    cases hgroup
    rfl
  · rintro rfl
    exact ⟨_, rfl, rfl⟩

theorem draw_keys {l : List Accepted} {consumed : List BridgeKey} {keys : List String} (h : draw consumed l = .ok keys) :
    keys = l.filterMap fun a => a.group.head?.map CoreObs.ckey := by
  induction l generalizing consumed keys with
  | nil => cases h; rfl
  | cons a rest ih =>
    rw [draw] at h
    cases hg : a.group with
    | nil =>
      rw [hg] at h
      cases h
    | cons o os =>
      simp only [hg, bind_ok, Except.ok.injEq] at h
      obtain ⟨-, -, keys', hrest, rfl⟩ := h
      rw [List.filterMap_cons, hg, ih hrest]
      rfl

/-- Every accepted id has a key; no key has both a conversion and a review; each conversion takes
    one observation of its key. -/
structure Authorized (keys : String → Option BridgeKey) (core : List CoreObs) (convert manual rc : List String) : Prop where
  keyed : ∀ fid ∈ convert ++ manual, ∃ k, keys fid = some k
  unmixed : ∀ f ∈ convert, ∀ g ∈ manual, g ∉ convert → keys f ≠ keys g
  drawn : rc = convert.filterMap (drawnAt keys core)

theorem bridgeRC_ok {i : Image} {groups : List (BridgeKey × List CoreObs)} (hg : validateImageBridge i = .ok groups)
    {convert manual rc : List String} (h : bridgeRC convert manual i.eligible groups = .ok rc) :
    Authorized (keyOf i.eligible) i.allOwn001 convert manual rc := by
  unfold bridgeRC at h
  obtain ⟨converted, hconverted, h⟩ := bind_ok.mp h
  obtain ⟨kept, hkept, h⟩ := bind_ok.mp h
  obtain ⟨_, hmixed, hdraw⟩ := bind_ok.mp h
  have hc : List.Forall₂ (Resolves (keyOf i.eligible) i.allOwn001 convert) convert converted :=
    (mapEach_ok (R := Resolves (keyOf i.eligible) i.allOwn001 convert) fun _ _ _ _ => acceptedOf_ok hg).mp hconverted
  have hk : List.Forall₂ (Resolves (keyOf i.eligible) i.allOwn001 convert) manual kept :=
    (mapEach_ok (R := Resolves (keyOf i.eligible) i.allOwn001 convert) fun _ _ _ _ => acceptedOf_ok hg).mp hkept
  have hboth := List.rel_append hc hk
  refine ⟨fun fid hfid => ?_, (resolved_unmixed hboth).mp ?_, ?_⟩
  · obtain ⟨a, -, k, hk, -⟩ := exists_read hboth hfid
    exact ⟨k, hk⟩
  · exact (each_ok (p := fun key => ¬Mixed (converted ++ kept) key) fun _ _ _ => ensure_ok).mp hmixed
  · rw [draw_keys hdraw, resolved_drawn hc]

/-- What holds where a classification is made. -/
structure Classifies (expected : Expected) (baseline postimage : Image) (c : Classified) : Prop where
  convert_nodup : expected.convert.Nodup
  manual_nodup : expected.manual.Nodup
  disjoint : ∀ fid ∈ expected.convert, fid ∉ expected.manual
  base_nodup : baseline.ids.Nodup
  post_nodup : postimage.ids.Nodup
  base_bridged : Bridged baseline
  post_bridged : Bridged postimage
  accepted_base : ∀ fid ∈ expected.convert ++ expected.manual, fid ∈ baseline.ids
  post_base : ∀ fid ∈ postimage.ids, fid ∈ baseline.ids
  removed : ∀ fid ∈ expected.convert ++ expected.manual, fid ∉ postimage.ids ↔ fid ∈ expected.convert
  undeclared : ∀ fid ∈ baseline.ids, fid ∉ expected.convert ++ expected.manual → fid ∈ postimage.ids
  rest : counterSub (postimage.allOwn001.map CoreObs.ckey) (baseline.allOwn001.map CoreObs.ckey) = []
  authorized : ∃ rc, Authorized (keyOf baseline.eligible) baseline.allOwn001 expected.convert expected.manual rc ∧
    (counterSub (baseline.allOwn001.map CoreObs.ckey) (postimage.allOwn001.map CoreObs.ckey)).Perm rc
  own050 : counterSub (postimage.own050.map Own050.ckey) (baseline.own050.map Own050.ckey) = []
  published : c = {
    baseline := evidence baseline baseline.ids, postimage := evidence postimage postimage.ids
    removed := sortedIds ((baseline.ids.filter fun fid => fid ∉ postimage.ids).filter (· ∈ expected.convert ++ expected.manual))
    preserved := sortedIds ((baseline.ids.filter (· ∈ postimage.ids)).filter (· ∈ expected.convert ++ expected.manual))
    removedAll := shapes (counterSub (baseline.allOwn001.map CoreObs.ckey) (postimage.allOwn001.map CoreObs.ckey))
      baseline.allOwn001 }

theorem subscriptionIds_ok {i : Image} {cat : Category} {ids : List String} :
    subscriptionIds i cat = .ok ids ↔ i.ids.Nodup ∧ ids = i.ids := by
  unfold subscriptionIds
  rw [ensure_bind_ok, Except.ok.injEq]
  exact and_congr_right fun _ => eq_comm

theorem classify_ok {expected : Expected} {baseline postimage : Image} {c : Classified}
    (h : classifyDelta expected baseline postimage = .ok c) : Classifies expected baseline postimage c := by
  unfold classifyDelta at h
  simp only [bind_ok, ensure_ok, subscriptionIds_ok, Except.ok.injEq] at h
  obtain ⟨_, ⟨hc, hm⟩, _, hdisj, _, ⟨hb, rfl⟩, _, ⟨hp, rfl⟩, groups, hgroups, groups', hgroups',
    rc, hrc, _, hacc, _, hnew, _, hrem, _,
    hpre, _, hund, _, hrest, _, hperm, _, h050, _, hstill, rfl⟩ := h
  refine ⟨hc, hm, hdisj, hb, hp, (validateImageBridge_ok.mp hgroups).1, (validateImageBridge_ok.mp hgroups').1, hacc, hnew,
    fun fid hfid => ⟨fun hout => ?_, fun hin => hstill fid hin⟩, hund, hrest, ⟨rc, bridgeRC_ok hgroups hrc, hperm⟩, h050, rfl⟩
  refine hrem.1 fid (List.mem_filter.mpr ⟨List.mem_filter.mpr ⟨hacc fid hfid, ?_⟩, ?_⟩)
  · exact decide_eq_true hout
  · exact decide_eq_true hfid

end OwnNet.Fix
