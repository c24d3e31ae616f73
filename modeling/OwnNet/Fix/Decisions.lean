/-
  OwnNet.Fix.Decisions — what an untrusted plan can choose.

  A plan that is accepted gives each candidate one of its own actions. The plan executed in
  its place is a function of the candidates and of those actions: neither the order of the
  decisions nor anything else the plan's author wrote has a part in it.

  Proved: `plan_only_chooses`: which plans are accepted, of any bundle whose strings can be
  encoded, with the plan executed; two accepted plans that choose alike are executed alike.
-/

import Mathlib.Data.List.Dedup
import OwnNet.Fix.Plan

namespace OwnNet.Fix

open Checks

/-! ## Choices -/

/-- `d` is an object of a finding's id and an action, and of nothing else. -/
def Decides (d : Json) (fid action : String) : Prop :=
  ∃ f, d = .obj f ∧ (∀ k ∈ f.map Prod.fst, k = "finding_id" ∨ k = "action") ∧ Json.get f "finding_id" = .str fid ∧
    Json.get f "action" = .str action

/-- The plan's decisions are one for each candidate, each with an action allowed for it. -/
def Bijects (bundle plan : Json) (act : String → String) : Prop :=
  ∃ p decisions, plan = .obj p ∧ Json.get p "decisions" = .arr decisions ∧
    (∃ ids, ids.Perm ((candidatesOf bundle).map Prod.fst) ∧ List.Forall₂ (fun d fid => Decides d fid (act fid)) decisions ids) ∧
    ∀ c ∈ candidatesOf bundle, allows c.2 (act c.1) = true

/-- The plan is of version 1, and says nothing besides its decisions. -/
def Enveloped (plan : Json) : Prop :=
  ∃ p, plan = .obj p ∧ (∀ k ∈ p.map Prod.fst, k = "version" ∨ k = "decisions") ∧ isOne (Json.get p "version") = true ∧
    (Json.get p "version").asBool = none

/-- A decision of the plan executed. -/
def chosen (fid action : String) (c : Fields) : Json :=
  .obj [("finding_id", .str fid), ("action", .str action), ("file", Json.get c "file"),
    ("acquire_span", Json.get c "acquire_span")]

/-- The plan executed for these actions. -/
def executed (sha : Sha) (bundle : Json) (act : String → String) : Json :=
  planJson (bundleSha256 sha bundle) (targetOf bundle) (selectionOf bundle) (sourcesOf bundle)
    ((candidatesOf bundle).map fun c => chosen c.1 (act c.1) c.2)

/-- The plan decides this action for this finding. -/
def Picks (plan : Json) (fid action : String) : Prop :=
  ∃ p decisions, plan = .obj p ∧ Json.get p "decisions" = .arr decisions ∧ ∃ d ∈ decisions, Decides d fid action

/-! ## The bundle's candidates -/

theorem candidateId_text {i : Nat} {c : Json} {fid : String} (h : candidateId i c = .ok fid) :
    fid = textOf (c.asObj.getD []) "finding_id" := by
  cases c with
  | obj f =>
    obtain ⟨s, hs, h⟩ := bind_ok.mp h
    obtain ⟨_, -, h⟩ := bind_ok.mp h
    cases h
    show fid = (Json.get f "finding_id").asStr.getD ""
    rw [Json.get_eq, strField_ok.mp hs]
    rfl
  | _ => cases h

theorem found_texts {cands : List Json} {found : List (String × Unit)} {b : Nat → Json → String → Except CollectError Unit}
    (h : List.Forall₂ (fun a kb => ∃ i, candidateId i a = .ok kb.1 ∧ b i a kb.1 = .ok kb.2) cands found) :
    found.map Prod.fst = cands.map fun c => textOf (c.asObj.getD []) "finding_id" := by
  induction h with
  | nil => rfl
  | cons hc _ ih =>
    obtain ⟨i, hid, -⟩ := hc
    rw [List.map_cons, List.map_cons, ih, candidateId_text hid]

theorem candidateRest_actions {typeName sourcePath : String} {i : Nat} {c : Json} {u : Unit} {action : String}
    (h : candidateRest typeName sourcePath i c = .ok u) (ha : allows (c.asObj.getD []) action = true) : action ∈ s1Actions := by
  unfold candidateRest at h
  obtain ⟨owner, -, h⟩ := bind_ok.mp h
  obtain ⟨-, h⟩ := ensure_bind_ok.mp h
  obtain ⟨file, -, h⟩ := bind_ok.mp h
  obtain ⟨-, h⟩ := ensure_bind_ok.mp h
  obtain ⟨_, -, h⟩ := bind_ok.mp h
  obtain ⟨contract, -, h⟩ := bind_ok.mp h
  obtain ⟨-, h⟩ := ensure_bind_ok.mp h
  obtain ⟨_, -, h⟩ := bind_ok.mp h
  obtain ⟨_, -, h⟩ := bind_ok.mp h
  obtain ⟨actions, hactions, h⟩ := bind_ok.mp h
  obtain ⟨⟨-, hscope⟩, -⟩ := ensure_bind_ok.mp h
  have hget : Json.get (c.asObj.getD []) "allowed_actions" = .arr actions := by
    rw [Json.get_eq, listField_ok.mp hactions, Option.getD_some]
  unfold allows at ha
  rw [hget] at ha
  obtain ⟨a, ham, hstr⟩ := List.any_eq_true.mp ha
  have hstr : a.asStr = some action := by simpa using hstr
  have htext := hscope a ham
  rw [isText, hstr] at htext
  simpa using htext

/-- What holds of the candidates of a bundle that keeps the contract: no id twice, no action out of scope. -/
theorem candidates_valid {bundle : Json} (h : validateCandidatesBundle bundle = .ok ()) :
    ((candidatesOf bundle).map Prod.fst).Nodup ∧
      ∀ c ∈ candidatesOf bundle, ∀ action, allows c.2 action = true → action ∈ s1Actions := by
  unfold validateCandidatesBundle at h
  cases bundle with
  | obj b =>
    obtain ⟨-, h⟩ := ensure_bind_ok.mp h
    obtain ⟨-, h⟩ := ensure_bind_ok.mp h
    obtain ⟨target, -, h⟩ := bind_ok.mp h
    obtain ⟨_, -, h⟩ := bind_ok.mp h
    obtain ⟨sel, -, h⟩ := bind_ok.mp h
    obtain ⟨types, -, h⟩ := bind_ok.mp h
    obtain ⟨-, h⟩ := ensure_bind_ok.mp h
    obtain ⟨theType, -, h⟩ := bind_ok.mp h
    obtain ⟨typeName, -, h⟩ := bind_ok.mp h
    obtain ⟨typeFile, -, h⟩ := bind_ok.mp h
    obtain ⟨_, -, h⟩ := bind_ok.mp h
    obtain ⟨cons, -, h⟩ := bind_ok.mp h
    obtain ⟨-, h⟩ := ensure_bind_ok.mp h
    obtain ⟨_, -, h⟩ := bind_ok.mp h
    obtain ⟨sources, -, h⟩ := bind_ok.mp h
    obtain ⟨-, h⟩ := ensure_bind_ok.mp h
    obtain ⟨sf, -, h⟩ := bind_ok.mp h
    obtain ⟨path, -, h⟩ := bind_ok.mp h
    obtain ⟨_, -, h⟩ := bind_ok.mp h
    obtain ⟨digest, -, h⟩ := bind_ok.mp h
    obtain ⟨_, -, h⟩ := bind_ok.mp h
    obtain ⟨-, h⟩ := ensure_bind_ok.mp h
    obtain ⟨cands, hcands, h⟩ := bind_ok.mp h
    obtain ⟨found, hfound, -⟩ := bind_ok.mp h
    obtain ⟨hall, hn⟩ := distinct_reads hfound
    have hof : candidatesOf (.obj b) = cands.map fun c => (textOf (c.asObj.getD []) "finding_id", c.asObj.getD []) := by
      have hget : Json.get b "candidates" = .arr cands := by
        rw [Json.get_eq, listField_ok.mp hcands, Option.getD_some]
      show ((Json.get b "candidates").asArr.getD []).map _ = _
      rw [hget]
      rfl
    have hids : found.map Prod.fst = (candidatesOf (.obj b)).map Prod.fst := by
      rw [hof, List.map_map]
      exact found_texts (b := fun i c _ => candidateRest typeName path i c) hall
    refine ⟨hids ▸ hn, fun c hc action hallow => ?_⟩
    rw [hof] at hc
    obtain ⟨j, hj, rfl⟩ := List.mem_map.mp hc
    obtain ⟨kb, -, i, -, hrest⟩ := exists_read hall hj
    exact candidateRest_actions hrest hallow
  | _ => cases h

theorem candidateById_mem {bundle : Json} (hn : ((candidatesOf bundle).map Prod.fst).Nodup) {fid : String} {c : Fields} :
    candidateById bundle fid = some c ↔ (fid, c) ∈ candidatesOf bundle := by
  unfold candidateById
  constructor
  · intro h
    exact Dict.of_find_fst h
  · intro h
    exact Dict.find_fst_of_mem hn h

/-! ## The decisions -/

theorem Decides.inj {d : Json} {fid fid' action action' : String} (h : Decides d fid action) (h' : Decides d fid' action') :
    fid = fid' ∧ action = action' := by
  obtain ⟨f, rfl, -, hid, ha⟩ := h
  obtain ⟨f', hf, -, hid', ha'⟩ := h'
  cases hf
  exact ⟨Json.str.inj (hid.symm.trans hid'), Json.str.inj (ha.symm.trans ha')⟩

/-- A decision that is taken: of a candidate, with one of its actions. -/
theorem decision_ok {bundle : Json} (hn : ((candidatesOf bundle).map Prod.fst).Nodup)
    (hs1 : ∀ c ∈ candidatesOf bundle, ∀ action, allows c.2 action = true → action ∈ s1Actions) (i : Nat) (d : Json)
    (fid action : String) : decisionId bundle i d = .ok fid ∧ decisionAction bundle i d fid = .ok action ↔
      Decides d fid action ∧ ∃ c, (fid, c) ∈ candidatesOf bundle ∧ allows c action = true := by
  cases d with
  | obj f =>
    simp only [decisionId, decisionAction, bind_ok, ensure_ok, require_ok, extraKeys_nil, Except.ok.injEq, Json.asStr_iff]
    constructor
    · rintro ⟨⟨_, hkeys, s, hs, _, hstr, _, hsome, rfl⟩, _, -, _, hany, haction⟩
      obtain ⟨a, ha⟩ := Option.isSome_iff_exists.mp hstr
      have hact : a = action := by
        rw [← haction]
        show a = (Json.get f "action").asStr.getD ""
        rw [ha]
        rfl
      subst hact
      refine ⟨⟨f, rfl, fun k hk => by simpa using hkeys k hk, hs, Json.asStr_iff.mp ha⟩, ?_⟩
      rw [haction, Option.any_eq_true] at hany
      obtain ⟨c, hc, hallow⟩ := hany
      exact ⟨c, (candidateById_mem hn).mp hc, hallow⟩
    · rintro ⟨⟨f', hf, hkeys, hid, ha⟩, c, hc, hallow⟩
      cases hf
      have htext : textOf ((Json.obj f).asObj.getD []) "action" = action := by
        show (Json.get f "action").asStr.getD "" = action
        rw [ha]
        rfl
      have hby := (candidateById_mem hn).mpr hc
      refine ⟨⟨(), fun k hk => by simpa using hkeys k hk, fid, hid, (), by rw [ha]; rfl, (), by rw [hby]; rfl, rfl⟩,
        (), ?_, (), ?_, htext⟩
      · rw [htext]
        exact hs1 _ hc action hallow
      · rw [htext, hby]
        exact hallow
  | _ =>
    constructor
    · rintro ⟨h, -⟩; cases h
    · rintro ⟨⟨f, hf, -⟩, -⟩; cases hf

theorem actionOf_mem {decided : List (String × String)} (hn : (decided.map Prod.fst).Nodup) {d : String × String}
    (hd : d ∈ decided) : actionOf decided d.1 = d.2 := by
  unfold actionOf
  rw [Dict.find_fst_of_mem hn hd]
  rfl

theorem forall₂_mem {α β : Type} {R : α → β → Prop} {l : List α} {u : List β} (h : List.Forall₂ R l u) :
    List.Forall₂ (fun a b => R a b ∧ b ∈ u) l u :=
  ((List.forall₂_and_left _ _).mpr ⟨fun _ hb => hb, h.flip⟩).flip.imp fun _ _ hab => ⟨hab.2, hab.1⟩

/-- What is accepted, and what is executed for it. -/
theorem validatePlan_ok {sha : Sha} {bundle plan v : Json} : validatePlan sha bundle plan = .ok v ↔
    validateCandidatesBundle bundle = .ok () ∧ ∃ act, Enveloped plan ∧ Bijects bundle plan act ∧ v = executed sha bundle act := by
  unfold validatePlan
  rw [bind_ok]
  simp only [recast_ok]
  constructor
  · rintro ⟨u, hbundle, h⟩
    obtain ⟨hn, hs1⟩ := candidates_valid hbundle
    refine ⟨hbundle, ?_⟩
    cases plan with
    | obj p =>
      obtain ⟨hkeys, h⟩ := ensure_bind_ok.mp h
      obtain ⟨⟨hversion, hbool⟩, h⟩ := ensure_bind_ok.mp h
      obtain ⟨decisions, hdecisions, h⟩ := bind_ok.mp h
      obtain ⟨decided, hdecided, h⟩ := bind_ok.mp h
      obtain ⟨hmissing, h⟩ := ensure_bind_ok.mp h
      cases h
      obtain ⟨hall, hdn⟩ := (distinct_ok (fun i d _ fid action => decision_ok hn hs1 i d fid action)
        (R := fun d e => Decides d e.1 e.2 ∧ ∃ c, (e.1, c) ∈ candidatesOf bundle ∧ allows c e.2 = true)).mp hdecided
      have hmem : ∀ e ∈ decided, ∃ c, (e.1, c) ∈ candidatesOf bundle ∧ allows c e.2 = true := by
        intro e he
        obtain ⟨d, -, -, hc⟩ := exists_item hall he
        exact hc
      have hevery : ∀ c ∈ candidatesOf bundle, c.1 ∈ decided.map Prod.fst := by
        intro c hc
        by_contra hout
        rw [List.filter_eq_nil_iff] at hmissing
        exact hmissing c.1 (List.mem_map_of_mem hc) (decide_eq_true hout)
      refine ⟨actionOf decided, ⟨p, rfl, fun k hk => by simpa using extraKeys_nil.mp hkeys k hk, hversion, hbool⟩,
        ⟨p, decisions, rfl, ?_, ⟨decided.map Prod.fst, ?_, ?_⟩, ?_⟩, rfl⟩
      · have := require_ok.mp hdecisions
        revert this
        cases Json.get p "decisions" <;> simp [Json.asArr]
      · refine (List.perm_ext_iff_of_nodup hdn hn).mpr fun fid => ⟨fun h => ?_, fun h => ?_⟩
        · obtain ⟨e, he, rfl⟩ := List.mem_map.mp h
          obtain ⟨c, hc, -⟩ := hmem e he
          exact List.mem_map_of_mem hc
        · obtain ⟨c, hc, rfl⟩ := List.mem_map.mp h
          exact hevery c hc
      · rw [List.forall₂_map_right_iff]
        refine (forall₂_mem hall).imp fun d e h => ?_
        rw [actionOf_mem hdn h.2]
        exact h.1.1
      · intro c hc
        obtain ⟨e, he, hid⟩ := List.mem_map.mp (hevery c hc)
        obtain ⟨c', hc', hallow⟩ := hmem e he
        rw [← hid, actionOf_mem hdn he]
        rw [List.inj_on_of_nodup_map hn hc hc' hid.symm]
        exact hallow
    | _ => cases h
  · rintro ⟨hbundle, act, ⟨p, rfl, hkeys, hversion, hbool⟩, ⟨p', decisions, hp, hget, ⟨ids, hperm, hall⟩, hallow⟩, rfl⟩
    cases hp
    obtain ⟨hn, hs1⟩ := candidates_valid hbundle
    have hids : ids.Nodup := hperm.nodup_iff.mpr hn
    have hdn : ((ids.map fun fid => (fid, act fid)).map Prod.fst).Nodup := by
      rw [List.map_map]
      simpa [Function.comp_def] using hids
    refine ⟨(), hbundle, ensure_bind_ok.mpr ⟨extraKeys_nil.mpr fun k hk => by simpa using hkeys k hk, ensure_bind_ok.mpr
      ⟨⟨hversion, hbool⟩, bind_ok.mpr ⟨decisions, by rw [hget]; rfl, bind_ok.mpr ⟨ids.map fun fid => (fid, act fid), ?_,
        ensure_bind_ok.mpr ⟨?_, ?_⟩⟩⟩⟩⟩⟩
    · refine (distinct_ok (fun i d _ fid action => decision_ok hn hs1 i d fid action)
        (R := fun d e => Decides d e.1 e.2 ∧ ∃ c, (e.1, c) ∈ candidatesOf bundle ∧ allows c e.2 = true)).mpr ⟨?_, hdn⟩
      rw [List.forall₂_map_right_iff]
      refine (forall₂_mem hall).imp fun d fid h => ⟨h.1, ?_⟩
      obtain ⟨c, hc, rfl⟩ := List.mem_map.mp (hperm.mem_iff.mp h.2)
      exact ⟨c.2, hc, hallow c hc⟩
    · rw [List.filter_eq_nil_iff]
      intro fid hfid
      have : fid ∈ ids := hperm.mem_iff.mpr hfid
      simpa [Function.comp_def] using this
    · unfold executed
      congr 2
      refine List.map_congr_left fun c hc => ?_
      have hmem : (c.1, act c.1) ∈ ids.map fun fid => (fid, act fid) :=
        List.mem_map_of_mem (hperm.mem_iff.mpr (List.mem_map_of_mem hc))
      unfold chosen materializedOf
      rw [actionOf_mem hdn hmem]

theorem Bijects.picks {bundle plan : Json} {act : String → String} (h : Bijects bundle plan act) {c : String × Fields}
    (hc : c ∈ candidatesOf bundle) {action : String} : Picks plan c.1 action ↔ action = act c.1 := by
  obtain ⟨p, decisions, rfl, hget, ⟨ids, hperm, hall⟩, -⟩ := h
  constructor
  · rintro ⟨p', decisions', hp, hget', d, hd, hdec⟩
    cases hp
    rw [hget] at hget'
    cases hget'
    obtain ⟨fid, -, hfid⟩ := exists_read hall hd
    obtain ⟨rfl, rfl⟩ := hdec.inj hfid
    rfl
  · rintro rfl
    obtain ⟨d, hd, hdec⟩ := exists_item hall (hperm.mem_iff.mpr (List.mem_map_of_mem hc))
    exact ⟨p, decisions, rfl, hget, d, hd, hdec⟩

/-- A plan is accepted exactly if its decisions match the candidates one to one, each with one of the candidate's actions, and
    it says nothing else; what is executed depends on the bundle and on those actions only. -/
theorem plan_only_chooses (sha : Sha) (bundle : Json) :
    (∀ plan v, validatePlan sha bundle plan = .ok v ↔
      validateCandidatesBundle bundle = .ok () ∧ ∃ act, Enveloped plan ∧ Bijects bundle plan act ∧ v = executed sha bundle act) ∧
    ∀ plan plan' v v', validatePlan sha bundle plan = .ok v → validatePlan sha bundle plan' = .ok v' →
      (∀ fid action, Picks plan fid action ↔ Picks plan' fid action) → v = v' := by
  refine ⟨fun plan v => validatePlan_ok, fun plan plan' v v' h h' hsame => ?_⟩
  obtain ⟨-, act, -, hb, rfl⟩ := validatePlan_ok.mp h
  obtain ⟨-, act', -, hb', rfl⟩ := validatePlan_ok.mp h'
  unfold executed
  congr 1
  refine List.map_congr_left fun c hc => ?_
  rw [(hb'.picks hc).mp ((hsame _ _).mp ((hb.picks hc).mpr rfl))]

namespace Example

/-- One digest for all that is hashed here. -/
def oneDigest : Sha where
  hex _ := "7895df3660b3dd4f8645852cb2b6052355354689913a5ae80a405ec8d5fa0b7d"
  digest _ := by decide

/-- A bundle of a class with nothing to fix. -/
def nothingToFix : Json :=
  .obj [("version", .int 1), ("operation", .str "fix-subscriptions"), ("target_api", .obj [("subscribe", .str "Weak.Subscribe")]),
    ("selection", .obj [("allowed_types", .arr [.obj [("full_name", .str "App.View"), ("file", .str "View.cs")]]),
      ("selected_findings", .null), ("constraints", constraintsJson)]),
    ("source_files", .arr [.obj [("path", .str "View.cs"),
      ("sha256", .str "sha256:7895df3660b3dd4f8645852cb2b6052355354689913a5ae80a405ec8d5fa0b7d")]]),
    ("candidates", .arr [])]

def ofVersionTwo : Json := .obj [("version", .int 2), ("decisions", .arr [])]

theorem nothingToFix_valid : validateCandidatesBundle nothingToFix = .ok () := by decide

end Example

/-- A plan of another version is refused, though its decisions match the candidates. -/
theorem version_refused : ¬ ∀ (sha : Sha) (bundle plan : Json), validateCandidatesBundle bundle = .ok () →
    ((∃ v, validatePlan sha bundle plan = .ok v) ↔ ∃ act, Bijects bundle plan act) := by
  intro h
  have hb : Bijects Example.nothingToFix Example.ofVersionTwo (fun _ => "") :=
    ⟨_, [], rfl, rfl, ⟨[], .nil, .nil⟩, fun c hc => absurd hc List.not_mem_nil⟩
  obtain ⟨v, hv⟩ := (h Example.oneDigest Example.nothingToFix Example.ofVersionTwo Example.nothingToFix_valid).mpr ⟨_, hb⟩
  obtain ⟨-, _, ⟨p, hp, -, hone, -⟩, -⟩ := validatePlan_ok.mp hv
  cases hp
  exact absurd hone (by decide)

end OwnNet.Fix
