/-
  OwnNet.Fix.OrderFree — what a classification says of the two runs, and that it says the same
  in whatever order the runs list what they found.

  Proved: `classify_iff`: a classification is made exactly where `Classifies` holds; `own001_taken`:
  the postimage has the observations of the baseline, less one for each conversion, drawn under the
  key of the converted fact; `classifies_reordered`: no list's order is read; `classification_order_free`:
  both.
-/

import OwnNet.Fix.Certify
import OwnNet.Json.Unique
import Mathlib.Data.List.Count
import Mathlib.Data.List.Perm.Subperm

namespace OwnNet.Fix

open Checks

/-! ## The identity of an observation -/

theorem orNull_inj {o o' : Option String} (h : orNull o = orNull o') : o = o' := by
  have := congrArg textOrNull h
  rw [textOrNull_orNull, textOrNull_orNull] at this
  exact Option.some.inj this

theorem leafy_orNull (o : Option String) : Json.leafy (orNull o) = true := by
  cases o <;> rfl

theorem CoreObs.leaves (o : CoreObs) : ∀ fields, o.json = .obj fields →
    fields.map Prod.fst = coreKeyFields ∧ ∀ f ∈ fields, Json.leafy f.2 = true := by
  rintro fields ⟨⟩
  refine ⟨rfl, fun f hf => ?_⟩
  simp only [List.mem_cons, List.not_mem_nil, or_false] at hf
  rcases hf with rfl | rfl | rfl | rfl | rfl | rfl | rfl | rfl | rfl <;> first | rfl | exact leafy_orNull _

theorem Own050.leaves (o : Own050) : ∀ fields, o.json = .obj fields →
    fields.map Prod.fst = own050KeyFields ∧ ∀ f ∈ fields, Json.leafy f.2 = true := by
  rintro fields ⟨⟩
  refine ⟨rfl, fun f hf => ?_⟩
  simp only [List.mem_cons, List.not_mem_nil, or_false] at hf
  rcases hf with rfl | rfl | rfl | rfl <;> rfl

theorem CoreObs.ckey_inj : Function.Injective CoreObs.ckey := by
  intro o o' h
  have hleaves := o.leaves _ rfl
  have hleaves' := o'.leaves _ rfl
  have hfields := Json.dumps_flat (hleaves.1.trans hleaves'.1.symm) (hleaves.1 ▸ by decide) hleaves.2 hleaves'.2 h
  cases o
  cases o'
  simp only [List.cons.injEq, Prod.mk.injEq, Json.str.injEq, Json.bool.injEq, true_and, and_true] at hfields
  obtain ⟨rfl, rfl, rfl, rfl, rfl, rfl, hseverity, hreason⟩ := hfields
  cases orNull_inj hseverity
  cases orNull_inj hreason
  rfl

theorem Own050.ckey_inj : Function.Injective Own050.ckey := by
  intro o o' h
  have hleaves := o.leaves _ rfl
  have hleaves' := o'.leaves _ rfl
  have hfields := Json.dumps_flat (hleaves.1.trans hleaves'.1.symm) (hleaves.1 ▸ by decide) hleaves.2 hleaves'.2 h
  cases o
  cases o'
  simp only [List.cons.injEq, Prod.mk.injEq, Json.str.injEq, true_and, and_true] at hfields
  obtain ⟨rfl, rfl, rfl, rfl⟩ := hfields
  rfl

/-! ## When a classification is made -/

/-- Drawing never runs out where no key has more conversions than observations. -/
theorem draw_room {l : List Accepted} {consumed : List BridgeKey} (hne : ∀ a ∈ l, a.group ≠ [])
    (hroom : ∀ a ∈ l, consumed.count a.key + l.countP (fun b => b.key = a.key) ≤ a.group.length) :
    draw consumed l = .ok (l.filterMap fun a => a.group.head?.map CoreObs.ckey) := by
  induction l generalizing consumed with
  | nil => rfl
  | cons a rest ih =>
    obtain ⟨o, os, ho⟩ := List.exists_cons_of_ne_nil (hne a List.mem_cons_self)
    have hfirst : consumed.count a.key + 1 ≤ a.group.length := by
      have := hroom a List.mem_cons_self
      rw [List.countP_cons_of_pos (by simp)] at this
      omega
    have hrest : draw (a.key :: consumed) rest = .ok (rest.filterMap fun a => a.group.head?.map CoreObs.ckey) := by
      refine ih (fun b hb => hne b (List.mem_cons_of_mem _ hb)) fun b hb => ?_
      have := hroom b (List.mem_cons_of_mem _ hb)
      rw [List.countP_cons] at this
      rw [List.count_cons]
      by_cases hk : a.key = b.key
      · simp only [hk, decide_true, if_true, BEq.rfl] at this ⊢
        omega
      · simp only [hk, decide_false, Bool.false_eq_true, if_false, beq_iff_eq] at this ⊢
        omega
    rw [draw, ho]
    simp only
    rw [← ho, hrest, List.filterMap_cons, ho]
    exact bind_ok.mpr ⟨(), ensure_ok.mpr (ho ▸ hfirst), rfl⟩

/-- An accepted id with a key is one of the subscriptions. -/
theorem mem_ids_of_key {i : Image} {fid : String} {k : BridgeKey} (h : keyOf i.eligible fid = some k) : fid ∈ i.ids := by
  obtain ⟨e, he, rfl, -⟩ := keyOf_mem h
  exact List.mem_map.mpr ⟨e, he, rfl⟩

theorem bridgeRC_authorized {i : Image} {groups : List (BridgeKey × List CoreObs)} (hg : validateImageBridge i = .ok groups)
    (hn : i.ids.Nodup) {convert manual rc : List String} (hc : convert.Nodup)
    (h : Authorized (keyOf i.eligible) i.allOwn001 convert manual rc) : bridgeRC convert manual i.eligible groups = .ok rc := by
  have hbridged := (validateImageBridge_ok.mp hg).1
  have hreads : ∀ ids, (∀ fid ∈ ids, fid ∈ convert ++ manual) →
      ∃ as, List.Forall₂ (Resolves (keyOf i.eligible) i.allOwn001 convert) ids as := fun ids hids =>
    exists_reads fun fid hfid => by
      obtain ⟨k, hk⟩ := h.keyed fid (hids fid hfid)
      exact ⟨_, k, hk, rfl⟩
  obtain ⟨converted, hconverted⟩ := hreads convert fun fid hfid => List.mem_append.mpr (.inl hfid)
  obtain ⟨kept, hkept⟩ := hreads manual fun fid hfid => List.mem_append.mpr (.inr hfid)
  have hread : ∀ {ids as}, List.Forall₂ (Resolves (keyOf i.eligible) i.allOwn001 convert) ids as →
      mapEach (fun _ fid => acceptedOf i.eligible groups convert fid) ids = .ok as := fun hall =>
    (mapEach_ok (R := Resolves (keyOf i.eligible) i.allOwn001 convert) fun _ _ _ _ => acceptedOf_ok hg).mpr hall
  have hdraw : draw [] converted = .ok rc := by
    rw [h.drawn, ← resolved_drawn hconverted]
    refine draw_room (fun a ha => ?_) fun a ha => ?_
    · obtain ⟨fid, -, k, hk, rfl⟩ := exists_item hconverted ha
      exact (group_of_key hbridged hk).nonempty
    · obtain ⟨fid, hfid, k, hk, rfl⟩ := exists_item hconverted ha
      have hsub : convert.Subperm i.ids := List.subperm_of_subset hc fun f hf => by
        obtain ⟨k', hk'⟩ := h.keyed f (List.mem_append.mpr (.inl hf))
        exact mem_ids_of_key hk'
      have hcount := hsub.countP_le fun fid => keyOf i.eligible fid = some k
      rw [← resolved_count hconverted, ← countOf_eq hn, ← (group_of_key hbridged hk).count] at hcount
      simpa using hcount
  unfold bridgeRC
  refine bind_ok.mpr ⟨converted, hread hconverted, bind_ok.mpr ⟨kept, hread hkept, bind_ok.mpr ⟨(), ?_, hdraw⟩⟩⟩
  exact (each_ok (p := fun key => ¬Mixed (converted ++ kept) key) fun _ _ _ => ensure_ok).mpr
    ((resolved_unmixed (List.rel_append hconverted hkept)).mpr h.unmixed)

section Classified

variable {expected expected' : Expected} {baseline baseline' postimage postimage' : Image} {c : Classified}

theorem classify_iff : classifyDelta expected baseline postimage = .ok c ↔ Classifies expected baseline postimage c := by
  refine ⟨classify_ok, fun h => ?_⟩
  obtain ⟨rc, hauth, hperm⟩ := h.authorized
  have hgroups := validateImageBridge_ok.mpr ⟨h.base_bridged, rfl⟩
  have hgroups' := validateImageBridge_ok.mpr ⟨h.post_bridged, rfl⟩
  unfold classifyDelta
  simp only [bind_ok, ensure_ok, subscriptionIds_ok, Except.ok.injEq]
  refine ⟨(), ⟨h.convert_nodup, h.manual_nodup⟩, (), h.disjoint, _, ⟨h.base_nodup, rfl⟩, _,
    ⟨h.post_nodup, rfl⟩, _, hgroups, _, hgroups',
    rc, bridgeRC_authorized hgroups h.base_nodup h.convert_nodup hauth, (), h.accepted_base, (), h.post_base, (), ?_, (), ?_, (),
    h.undeclared, (), h.rest, (), hperm, (), h.own050, (), fun fid hfid => ?_, h.published.symm⟩
  · refine ⟨fun fid hin => ?_, fun fid hin => ?_⟩
    · simp only [List.mem_filter, decide_eq_true_eq] at hin
      exact (h.removed fid hin.2).mp hin.1.2
    · have hmem : fid ∈ expected.convert ++ expected.manual := List.mem_append.mpr (.inl hin)
      simp only [List.mem_filter, decide_eq_true_eq]
      exact ⟨⟨h.accepted_base fid hmem, (h.removed fid hmem).mpr hin⟩, hmem⟩
  · refine ⟨fun fid hin => ?_, fun fid hin => ?_⟩
    · simp only [List.mem_filter, decide_eq_true_eq] at hin
      refine (List.mem_append.mp hin.2).resolve_left fun hconvert => ?_
      exact (h.removed fid hin.2).mpr hconvert hin.1.2
    · have hmem : fid ∈ expected.convert ++ expected.manual := List.mem_append.mpr (.inr hin)
      simp only [List.mem_filter, decide_eq_true_eq]
      refine ⟨⟨h.accepted_base fid hmem, ?_⟩, hmem⟩
      by_contra hout
      exact h.disjoint fid ((h.removed fid hmem).mp hout) hin
  · exact (h.removed fid (List.mem_append.mpr (.inl hfid))).mpr hfid

/-! ## What it says -/

theorem post_subscriptions (h : Classifies expected baseline postimage c) :
    postimage.ids.Perm (baseline.ids.filter (· ∉ expected.convert)) := by
  refine (List.perm_ext_iff_of_nodup h.post_nodup (h.base_nodup.filter _)).mpr fun fid => ?_
  simp only [List.mem_filter, decide_eq_true_eq]
  constructor
  · intro hin
    refine ⟨h.post_base fid hin, fun hconvert => ?_⟩
    exact (h.removed fid (List.mem_append.mpr (.inl hconvert))).mpr hconvert hin
  · rintro ⟨hbase, hout⟩
    by_cases hmem : fid ∈ expected.convert ++ expected.manual
    · by_contra hgone
      exact hout ((h.removed fid hmem).mp hgone)
    · exact h.undeclared fid hbase hmem

theorem counterSub_nil_iff {a b : List String} : counterSub a b = [] ↔ ∀ k, a.count k ≤ b.count k := by
  unfold counterSub
  rw [List.eq_nil_iff_forall_not_mem]
  refine forall_congr' fun k => ?_
  rw [← List.count_pos_iff, List.count_diff]
  omega

/-- Where nothing is left over one way, what is left over the other way is the difference. -/
theorem perm_of_counterSub {a b : List String} (h : counterSub a b = []) : b.Perm (a ++ counterSub b a) := by
  refine List.perm_iff_count.mpr fun k => ?_
  have := counterSub_nil_iff.mp h k
  rw [List.count_append, counterSub, List.count_diff]
  omega

/-- `o` is an observation under the key of the fact `fid`. -/
def Observes (i : Image) (fid : String) (o : CoreObs) : Prop := ∃ e ∈ i.eligible, e.findingId = fid ∧ e.bridgeKey = o.key

theorem own001_taken (h : Classifies expected baseline postimage c) :
    ∃ taken, List.Forall₂ (Observes baseline) expected.convert taken ∧ baseline.allOwn001.Perm
        (postimage.allOwn001 ++ taken) := by
  obtain ⟨rc, hauth, hperm⟩ := h.authorized
  obtain ⟨taken, htaken⟩ : ∃ taken, List.Forall₂ (fun fid o => Observes baseline fid o ∧
      drawnAt (keyOf baseline.eligible) baseline.allOwn001 fid = some o.ckey) expected.convert taken := by
    refine exists_reads fun fid hfid => ?_
    obtain ⟨k, hk⟩ := hauth.keyed fid (List.mem_append.mpr (.inl hfid))
    obtain ⟨e, he, hid, rfl⟩ := keyOf_mem hk
    obtain ⟨o, os, ho⟩ := List.exists_cons_of_ne_nil (h.base_bridged e he).nonempty
    have hkey : o.key = e.bridgeKey := by
      have hmem : o ∈ groupOf baseline.allOwn001 e.bridgeKey := ho ▸ List.mem_cons_self
      simpa using (List.mem_filter.mp hmem).2
    refine ⟨o, ⟨e, he, hid, hkey.symm⟩, ?_⟩
    unfold drawnAt
    rw [hk, Option.bind_some, ho]
    rfl
  have hrc : rc = taken.map CoreObs.ckey := by
    have hread : ∀ {ids os}, List.Forall₂ (fun fid o => Observes baseline fid o ∧
        drawnAt (keyOf baseline.eligible) baseline.allOwn001 fid = some o.ckey) ids os →
        ids.filterMap (drawnAt (keyOf baseline.eligible) baseline.allOwn001) = os.map CoreObs.ckey := by
      intro ids os hall
      induction hall with
      | nil => rfl
      | cons ho _ ih => rw [List.filterMap_cons, ho.2, List.map_cons, ih]
    rw [hauth.drawn, hread htaken]
  refine ⟨taken, htaken.imp fun _ _ ho => ho.1, (List.map_perm_map_iff CoreObs.ckey_inj).mp ?_⟩
  rw [List.map_append, ← hrc]
  exact (perm_of_counterSub h.rest).trans (hperm.append_left _)

theorem own050_old (h : Classifies expected baseline postimage c) : postimage.own050.Subperm baseline.own050 := by
  have hcount := counterSub_nil_iff.mp h.own050
  refine List.subperm_ext_iff.mpr fun o _ => ?_
  have := hcount o.ckey
  rwa [List.count_map_of_injective _ _ Own050.ckey_inj, List.count_map_of_injective _ _ Own050.ckey_inj] at this

/-! ## In any order -/

/-- One image, listed in another order. -/
structure Image.Reorders (i i' : Image) : Prop where
  allOwn001 : i.allOwn001.Perm i'.allOwn001
  own050 : i.own050.Perm i'.own050
  fixEligible : i.fixEligible.Perm i'.fixEligible

structure Expected.Reorders (e e' : Expected) : Prop where
  convert : e.convert.Perm e'.convert
  manual : e.manual.Perm e'.manual

theorem Image.Reorders.symm {i i' : Image} (h : i.Reorders i') : i'.Reorders i :=
  ⟨h.allOwn001.symm, h.own050.symm, h.fixEligible.symm⟩

theorem Expected.Reorders.symm {e e' : Expected} (h : e.Reorders e') : e'.Reorders e := ⟨h.convert.symm, h.manual.symm⟩

theorem Image.Reorders.eligible {i i' : Image} (h : i.Reorders i') : i.eligible.Perm i'.eligible := h.fixEligible.filter _

theorem Image.Reorders.ids {i i' : Image} (h : i.Reorders i') : i.ids.Perm i'.ids := h.eligible.map _

theorem Image.Reorders.bridged {i i' : Image} (h : i.Reorders i') (hb : Bridged i) : Bridged i' := by
  intro e he
  have hg := hb e (h.eligible.mem_iff.mpr he)
  have hgroup : (groupOf i.allOwn001 e.bridgeKey).Perm (groupOf i'.allOwn001 e.bridgeKey) := h.allOwn001.filter _
  refine ⟨fun hnil => hg.nonempty ?_, fun o ho o' ho' => ?_, ?_⟩
  · rw [hnil] at hgroup
    exact hgroup.eq_nil
  · exact hg.alike o (hgroup.mem_iff.mpr ho) o' (hgroup.mem_iff.mpr ho')
  · rw [← hgroup.length_eq, hg.count]
    exact h.eligible.countP_eq _

theorem Image.Reorders.keyOf {i i' : Image} (h : i.Reorders i') (hn : i.ids.Nodup) (fid : String) :
    keyOf i'.eligible fid = keyOf i.eligible fid := by
  have hn' : i'.ids.Nodup := h.ids.nodup_iff.mp hn
  cases hk : Fix.keyOf i.eligible fid with
  | some k =>
    obtain ⟨e, he, rfl, rfl⟩ := keyOf_mem hk
    exact keyOf_eq hn' (h.eligible.mem_iff.mp he)
  | none =>
    cases hk' : Fix.keyOf i'.eligible fid with
    | none => rfl
    | some k =>
      obtain ⟨e, he, rfl, -⟩ := keyOf_mem hk'
      rw [keyOf_eq hn (h.eligible.mem_iff.mpr he)] at hk
      cases hk

theorem sortedIds_perm {a b : List String} (h : a.Perm b) : sortedIds a = sortedIds b := Sorting.sort_perm h.dedup

/-- A shape is the only observation of its identity. -/
theorem shapes_perm {keys keys' : List String} {pool pool' : List CoreObs} (hk : keys.Perm keys') (hp : pool.Perm pool') :
    shapes keys pool = shapes keys' pool' := by
  have hsort : keys.insertionSort (· ≤ ·) = keys'.insertionSort (· ≤ ·) := Sorting.sort_perm hk
  have hfind : ∀ k, (pool.reverse.find? fun o => o.ckey = k) = pool'.reverse.find? fun o => o.ckey = k :=
    fun k => (Dict.find_key_perm (fun _ _ _ _ hkey => CoreObs.ckey_inj hkey)
      (pool.reverse_perm.trans (hp.trans pool'.reverse_perm.symm)) k).symm
  unfold shapes
  rw [hsort, funext hfind]

theorem evidence_reorders {i i' : Image} (h : i.Reorders i') : evidence i i.ids = evidence i' i'.ids := by
  unfold evidence
  rw [sortedIds_perm h.ids]
  congr 1
  · exact Sorting.keyed_perm CoreObs.ckey (fun _ _ _ _ hkey => CoreObs.ckey_inj hkey) h.allOwn001
  · exact Sorting.keyed_perm Own050.ckey (fun _ _ _ _ hkey => Own050.ckey_inj hkey) h.own050

theorem authorized_reorders (he : expected.Reorders expected') (hb : baseline.Reorders baseline') (hn : baseline.ids.Nodup)
    (hbridged : Bridged baseline) {rc : List String}
    (h : Authorized (keyOf baseline.eligible) baseline.allOwn001 expected.convert expected.manual rc) :
    ∃ rc', rc.Perm rc' ∧ Authorized (keyOf baseline'.eligible) baseline'.allOwn001 expected'.convert expected'.manual rc' := by
  have hkeys : keyOf baseline'.eligible = keyOf baseline.eligible := funext (hb.keyOf hn)
  have hdrawn : drawnAt (keyOf baseline.eligible) baseline'.allOwn001 = drawnAt (keyOf baseline.eligible) baseline.allOwn001 :=
    funext (drawnAt_perm hbridged hb.allOwn001.symm)
  refine ⟨expected'.convert.filterMap (drawnAt (keyOf baseline.eligible) baseline.allOwn001), ?_, ⟨fun fid hfid => ?_, ?_, ?_⟩⟩
  · rw [h.drawn]
    exact he.convert.filterMap _
  · rw [hkeys]
    exact h.keyed fid ((he.convert.append he.manual).mem_iff.mpr hfid)
  · intro f hf g hg hout
    rw [hkeys]
    exact h.unmixed f (he.convert.mem_iff.mpr hf) g (he.manual.mem_iff.mpr hg) fun hin => hout (he.convert.mem_iff.mp hin)
  · rw [hkeys, hdrawn]

theorem classifies_reordered (he : expected.Reorders expected') (hb : baseline.Reorders baseline')
    (hp : postimage.Reorders postimage')
    (h : Classifies expected baseline postimage c) : Classifies expected' baseline' postimage' c := by
  have haccepted := he.convert.append he.manual
  have hbase := hb.allOwn001.map CoreObs.ckey
  have hpost := hp.allOwn001.map CoreObs.ckey
  obtain ⟨rc, hauth, hperm⟩ := h.authorized
  obtain ⟨rc', hrc, hauth'⟩ := authorized_reorders he hb h.base_nodup h.base_bridged hauth
  refine { convert_nodup := he.convert.nodup_iff.mp h.convert_nodup, manual_nodup := he.manual.nodup_iff.mp h.manual_nodup
           disjoint := fun fid hfid hin => h.disjoint fid (he.convert.mem_iff.mpr hfid) (he.manual.mem_iff.mpr hin)
           base_nodup := hb.ids.nodup_iff.mp h.base_nodup, post_nodup := hp.ids.nodup_iff.mp h.post_nodup
           base_bridged := hb.bridged h.base_bridged, post_bridged := hp.bridged h.post_bridged
           accepted_base := fun fid hfid => hb.ids.mem_iff.mp (h.accepted_base fid (haccepted.mem_iff.mpr hfid))
           post_base := fun fid hfid => hb.ids.mem_iff.mp (h.post_base fid (hp.ids.mem_iff.mpr hfid))
           removed := fun fid hfid => ?_
           undeclared := fun fid hfid hout => hp.ids.mem_iff.mp (h.undeclared fid (hb.ids.mem_iff.mpr hfid) fun hin =>
             hout (haccepted.mem_iff.mp hin))
           rest := counterSub_nil hpost hbase h.rest
           authorized := ⟨rc', hauth', ((counterSub_perm hbase hpost).symm.trans hperm).trans hrc⟩
           own050 := counterSub_nil (hp.own050.map _) (hb.own050.map _) h.own050
           published := ?_ }
  · rw [← hp.ids.mem_iff, ← he.convert.mem_iff]
    exact h.removed fid (haccepted.mem_iff.mpr hfid)
  · have hin : ∀ fid, (fid ∈ postimage.ids ↔ fid ∈ postimage'.ids) := fun _ => hp.ids.mem_iff
    have hacc : ∀ fid, (fid ∈ expected.convert ++ expected.manual ↔ fid ∈ expected'.convert ++ expected'.manual) :=
      fun _ => haccepted.mem_iff
    rw [h.published, evidence_reorders hb, evidence_reorders hp, shapes_perm (counterSub_perm hbase hpost) hb.allOwn001]
    simp only [hin, hacc]
    rw [sortedIds_perm ((hb.ids.filter _).filter _), sortedIds_perm ((hb.ids.filter fun fid => fid ∈ postimage'.ids).filter _)]

/-- The postimage is the baseline without what was converted. -/
structure Sound (expected : Expected) (baseline postimage : Image) : Prop where
  subscriptions : postimage.ids.Perm (baseline.ids.filter (· ∉ expected.convert))
  own001 : ∃ taken, List.Forall₂ (Observes baseline) expected.convert taken ∧
    baseline.allOwn001.Perm (postimage.allOwn001 ++ taken)
  own050 : postimage.own050.Subperm baseline.own050

/-- **Classifications are sound and read no order.** -/
theorem classification_order_free (expected : Expected) (baseline postimage : Image) :
    (∀ c, classifyDelta expected baseline postimage = .ok c → Sound expected baseline postimage) ∧
      ∀ expected' baseline' postimage', expected.Reorders expected' → baseline.Reorders baseline' →
        postimage.Reorders postimage' →
        ∀ c, classifyDelta expected baseline postimage = .ok c ↔ classifyDelta expected' baseline' postimage' = .ok c := by
  refine ⟨fun c hc => ?_, fun expected' baseline' postimage' he hb hp c => ?_⟩
  · have h := classify_iff.mp hc
    exact ⟨post_subscriptions h, own001_taken h, own050_old h⟩
  · rw [classify_iff, classify_iff]
    exact ⟨classifies_reordered he hb hp, classifies_reordered he.symm hb.symm hp.symm⟩

end Classified

end OwnNet.Fix
