/-
  OwnNet.Facts.RoundTrip — a document that was read, written again.

  Every field is written as it was read, but the column of a subscription: a null is let through
  by the door and taken for absent by the field, so it is not written.

  Proved: `roundTrip_iff`: an accepted document comes back as the same value exactly where no
  subscription gives a null for its column; there, `null_column_lost`, it does not.
-/

import OwnNet.Facts.Typed

namespace OwnNet.Facts.Typed

open Checks Strict

/-! ## Fields -/

section Fields

variable {α : Type} {read : Json → Option α} {write : α → Json} {o : Option Json}

/-- What is read is written as it was. -/
def Exact (read : Json → Option α) (write : α → Json) : Prop := ∀ v a, read v = some a → write a = v

theorem rejectNull_exact (he : Exact read write) {a : Option α} (h : rejectNull read o = some a) : a.map write = o := by
  cases o with
  | none => cases h; rfl
  | some v =>
    obtain ⟨x, hx, rfl⟩ := Option.map_eq_some_iff.mp h
    exact congrArg some (he v x hx)

theorem nullable_exact (he : Exact read write) {a : Option (Option α)} (h : nullable read o = some a) :
    writeNullable write a = o := by
  cases o with
  | none => cases h; rfl
  | some v =>
    by_cases hnull : v = .null
    · subst hnull
      cases h
      rfl
    · rw [nullable.eq_3 _ _ hnull] at h
      obtain ⟨x, hx, rfl⟩ := Option.map_eq_some_iff.mp h
      exact congrArg some (he v x hx)

theorem required_exact (he : Exact read write) {a : α} (h : ∃ v, o = some v ∧ read v = some a) : some (write a) = o := by
  obtain ⟨v, rfl, hv⟩ := h
  exact congrArg some (he v a hv)

theorem text_exact : Exact Json.asStr .str := fun _ _ h => (Json.asStr_iff.mp h).symm

theorem bool_exact : Exact Json.asBool .bool := fun _ _ h => (Json.asBool_iff.mp h).symm

theorem arr_exact : Exact Json.asArr .arr := fun _ _ h => (Json.asArr_iff.mp h).symm

theorem int_exact : Exact representableInt .int := fun _ _ h => (representableInt_iff.mp h).1.symm

theorem texts_exact : Exact texts writeTexts := by
  intro v ss h
  obtain ⟨items, hv, hitems⟩ := Option.bind_eq_some_iff.mp h
  rw [Json.asArr_iff.mp hv, Json.strings_eq.mp hitems]
  rfl

theorem lifetime_exact : Exact Lifetime.read Lifetime.toValue := by
  intro v l h
  unfold Lifetime.read at h
  split at h <;> cases h <;> rfl

theorem paramEffect_exact : Exact ParamEffect.read ParamEffect.toValue := by
  intro v e h
  unfold ParamEffect.read at h
  split at h <;> cases h <;> rfl

theorem vec_forall₂ {items : List Json} {as : List α} (h : vec read items = some as) :
    List.Forall₂ (fun i a => read i = some a) items as := by
  induction items generalizing as with
  | nil => cases h; exact .nil
  | cons j rest ih =>
    obtain ⟨a, ha, h⟩ := Option.bind_eq_some_iff.mp h
    obtain ⟨as, has, rfl⟩ := Option.map_eq_some_iff.mp h
    exact .cons ha (ih has)

/-- Every object of a list. -/
def EachRecord (q : Fields → Prop) (v : Json) : Prop := ∀ items, v = .arr items → ∀ f, .obj f ∈ items → q f

/-- A list of records is the same where each of them is. -/
theorem records_same {g : Fields → Option α} {q : Fields → Prop}
    (hg : ∀ f, Json.distinct (.obj f) = true → ∀ a, g f = some a → (Json.same (write a) (.obj f) = true ↔ q f))
    (hd : ∀ v, o = some v → v.distinct = true) {a : Option (List α)} (h : rejectNull (vecOf (ofObject g)) o = some a) :
    Json.sameOpt (a.map (writeVec write)) o = true ↔ ∀ v, o = some v → EachRecord q v := by
  cases o with
  | none => cases h; exact iff_of_true rfl fun _ h => (by cases h)
  | some v =>
    obtain ⟨as, has, rfl⟩ := Option.map_eq_some_iff.mp h
    obtain ⟨items, hv, hitems⟩ := Option.bind_eq_some_iff.mp has
    cases Json.asArr_iff.mp hv
    have hdistinct := Json.distinct_arr.mp (hd _ rfl)
    have hsame : Json.sameItems (as.map write) items = true ↔ ∀ i ∈ items, ∀ f, i = .obj f → q f := by
      refine Json.sameItems_reads (vec_forall₂ hitems) fun i hi a ha => ?_
      obtain ⟨f, hf, ha⟩ := Option.bind_eq_some_iff.mp ha
      cases Json.asObj_iff.mp hf
      exact (hg f (hdistinct _ hi) a ha).trans ⟨fun h _ hf => by cases hf; exact h, fun h => h f rfl⟩
    refine (show Json.sameItems (as.map write) items = true ↔ _ from hsame).trans ?_
    constructor
    · intro h v hv items' hitems' f hf
      cases hv
      cases hitems'
      exact h _ hf f rfl
    · intro h i hi f hf
      exact h _ rfl items rfl f (hf ▸ hi)

/-- Records that are always written as they were read. -/
theorem records_kept {g : Fields → Option α}
    (hg : ∀ f, Json.distinct (.obj f) = true → ∀ a, g f = some a → Json.same (write a) (.obj f) = true)
    (hd : ∀ v, o = some v → v.distinct = true) {a : Option (List α)} (h : rejectNull (vecOf (ofObject g)) o = some a) :
    Json.sameOpt (a.map (writeVec write)) o = true :=
  (records_same (q := fun _ => True) (fun f hf a ha => iff_true_intro (hg f hf a ha)) hd h).mpr fun _ _ _ _ _ _ => trivial

end Fields

/-! ## Records -/

/-- The column of a subscription is absent, or a value. -/
def ColumnKept (f : Fields) : Prop := Json.lookup f "column" ≠ some .null

/-- No subscription of the document gives a null for its column. -/
def ColumnsKept (top : Fields) : Prop := Opt (EachRecord fun c => Opt (EachRecord ColumnKept) c "subscriptions") top "components"

/-- What a service is read from. -/
structure ServiceReads (f : Fields) (s : Service) : Prop where
  lifetime : ∃ v, Json.lookup f "lifetime" = some v ∧ Lifetime.read v = some s.lifetime
  name : ∃ v, Json.lookup f "name" = some v ∧ v.asStr = some s.name
  deps : rejectNull texts (Json.lookup f "deps") = some s.deps
  weakDeps : rejectNull texts (Json.lookup f "weak_deps") = some s.weakDeps
  rootResolves : rejectNull texts (Json.lookup f "root_resolves") = some s.rootResolves
  file : rejectNull Json.asStr (Json.lookup f "file") = some s.file
  line : rejectNull representableInt (Json.lookup f "line") = some s.line
  ctorFile : rejectNull Json.asStr (Json.lookup f "ctor_file") = some s.ctorFile
  ctorLine : rejectNull representableInt (Json.lookup f "ctor_line") = some s.ctorLine
  ctorType : rejectNull Json.asStr (Json.lookup f "ctor_type") = some s.ctorType
  rootResolveSites : rejectNull (vecOf (ofObject Site.ofFields)) (Json.lookup f "root_resolve_sites") = some s.rootResolveSites
  scopeCached : rejectNull texts (Json.lookup f "scope_cached") = some s.scopeCached
  scopeCacheSites : rejectNull (vecOf (ofObject Site.ofFields)) (Json.lookup f "scope_cache_sites") = some s.scopeCacheSites
  extra : s.extra = Json.rest Service.names f

theorem service_read {f : Fields} {s : Service} (h : Service.ofFields f = some s) : ServiceReads f s := by
  obtain ⟨lifetime, hlifetime, h⟩ := Option.bind_eq_some_iff.mp h
  obtain ⟨name, hname, h⟩ := Option.bind_eq_some_iff.mp h
  obtain ⟨deps, hdeps, h⟩ := Option.bind_eq_some_iff.mp h
  obtain ⟨weakDeps, hweakDeps, h⟩ := Option.bind_eq_some_iff.mp h
  obtain ⟨rootResolves, hrootResolves, h⟩ := Option.bind_eq_some_iff.mp h
  obtain ⟨file, hfile, h⟩ := Option.bind_eq_some_iff.mp h
  obtain ⟨line, hline, h⟩ := Option.bind_eq_some_iff.mp h
  obtain ⟨ctorFile, hctorFile, h⟩ := Option.bind_eq_some_iff.mp h
  obtain ⟨ctorLine, hctorLine, h⟩ := Option.bind_eq_some_iff.mp h
  obtain ⟨ctorType, hctorType, h⟩ := Option.bind_eq_some_iff.mp h
  obtain ⟨rootSites, hrootSites, h⟩ := Option.bind_eq_some_iff.mp h
  obtain ⟨scopeCached, hscopeCached, h⟩ := Option.bind_eq_some_iff.mp h
  obtain ⟨cacheSites, hcacheSites, h⟩ := Option.bind_eq_some_iff.mp h
  cases h
  exact ⟨Option.bind_eq_some_iff.mp hlifetime, Option.bind_eq_some_iff.mp hname, hdeps, hweakDeps,
    hrootResolves, hfile, hline, hctorFile,
    hctorLine, hctorType, hrootSites, hscopeCached, hcacheSites, rfl⟩

section Records

variable (f : Fields) (hf : Json.distinct (.obj f) = true)

include hf

theorem distinct_member (key : String) : ∀ v, Json.lookup f key = some v → v.distinct = true :=
  fun _ hv => Json.distinct_of_lookup hf hv

theorem kept {key : String} {a : Option Json} (h : a = Json.lookup f key) : Json.sameOpt a (Json.lookup f key) = true := by
  rw [h]
  exact Json.sameOpt_self (distinct_member f hf key)

theorem site_same (s : Site) (h : Site.ofFields f = some s) : Json.same s.toValue (.obj f) = true := by
  simp only [Site.ofFields, Option.bind_eq_some_iff, Option.some.injEq] at h
  obtain ⟨typeName, htype, file, hfile, line, hline, rfl⟩ := h
  refine (Json.same_record Site.names rfl (by decide) hf).mpr ?_
  simp only [Site.members, List.forall_mem_cons, List.not_mem_nil, false_imp_iff, implies_true, and_true]
  exact ⟨kept f hf (rejectNull_exact text_exact htype), kept f hf (rejectNull_exact text_exact hfile),
    kept f hf (rejectNull_exact int_exact hline)⟩

/-- A null for the column is the one value that is not written as it was read. -/
theorem column_same {key : String} : Json.sameOpt (optionValue (Json.lookup f key)) (Json.lookup f key) = true ↔
    Json.lookup f key ≠ some .null := by
  have hd := distinct_member f hf key
  cases hv : Json.lookup f key with
  | none => exact iff_of_true rfl fun h => (by cases h)
  | some v =>
    by_cases hnull : v = .null
    · subst hnull
      exact iff_of_false (fun h => by cases h) fun h => h rfl
    · rw [optionValue.eq_3 _ hnull]
      exact iff_of_true (Json.same_self v (hd v hv)) fun h => hnull (Option.some.inj h)

theorem subscription_same (s : Subscription) (h : Subscription.ofFields f = some s) :
    Json.same s.toValue (.obj f) = true ↔ ColumnKept f := by
  simp only [Subscription.ofFields, Option.bind_eq_some_iff, Option.some.injEq] at h
  obtain ⟨resource, hresource, typeName, htype, sourceType, hsource, provenance, hprovenance, reason, hreason, rfl⟩ := h
  refine (Json.same_record Subscription.names rfl (by decide) hf).trans ?_
  simp only [Subscription.members, List.forall_mem_cons, List.not_mem_nil, false_imp_iff, implies_true,
    and_true, column_same f hf]
  constructor
  · exact fun h => h.2.2.2.2.2
  · intro hcolumn
    exact ⟨kept f hf (rejectNull_exact text_exact hresource), kept f hf (nullable_exact text_exact htype),
      kept f hf (nullable_exact text_exact hsource), kept f hf (nullable_exact text_exact hprovenance),
      kept f hf (nullable_exact text_exact hreason), hcolumn⟩

theorem component_same (c : Component) (h : Component.ofFields f = some c) :
    Json.same c.toValue (.obj f) = true ↔ Opt (EachRecord ColumnKept) f "subscriptions" := by
  simp only [Component.ofFields, Option.bind_eq_some_iff, Option.some.injEq] at h
  obtain ⟨subscriptions, hsubscriptions, rfl⟩ := h
  refine (Json.same_record Component.names rfl (by decide) hf).trans ?_
  simp only [Component.members, List.forall_mem_cons, List.not_mem_nil, false_imp_iff, implies_true, and_true]
  exact records_same subscription_same (distinct_member f hf _) hsubscriptions

theorem service_same (s : Service) (h : Service.ofFields f = some s) : Json.same s.toValue (.obj f) = true := by
  have hs := service_read h
  unfold Service.toValue
  rw [hs.extra]
  refine (Json.same_record Service.names rfl (by decide) hf).mpr ?_
  simp only [Service.members, List.forall_mem_cons, List.not_mem_nil, false_imp_iff, implies_true, and_true]
  have hd := distinct_member f hf
  exact ⟨kept f hf (required_exact lifetime_exact hs.lifetime), kept f hf (required_exact text_exact hs.name),
    kept f hf (rejectNull_exact texts_exact hs.deps), kept f hf (rejectNull_exact texts_exact hs.weakDeps),
    kept f hf (rejectNull_exact texts_exact hs.rootResolves), kept f hf (rejectNull_exact text_exact hs.file),
    kept f hf (rejectNull_exact int_exact hs.line), kept f hf (rejectNull_exact text_exact hs.ctorFile),
    kept f hf (rejectNull_exact int_exact hs.ctorLine), kept f hf (rejectNull_exact text_exact hs.ctorType),
    records_kept site_same (hd _) hs.rootResolveSites, kept f hf (rejectNull_exact texts_exact hs.scopeCached),
    records_kept site_same (hd _) hs.scopeCacheSites⟩

theorem binding_same (b : Binding) (h : Binding.ofFields f = some b) : Json.same b.toValue (.obj f) = true := by
  simp only [Binding.ofFields, Option.bind_eq_some_iff, Option.some.injEq] at h
  obtain ⟨name, hname, init, hinit, refs, hrefs, line, hline, rfl⟩ := h
  refine (Json.same_record Binding.names rfl (by decide) hf).mpr ?_
  simp only [Binding.members, List.forall_mem_cons, List.not_mem_nil, false_imp_iff, implies_true, and_true]
  exact ⟨kept f hf (rejectNull_exact text_exact hname), kept f hf (rejectNull_exact text_exact hinit),
    kept f hf (rejectNull_exact texts_exact hrefs), kept f hf (rejectNull_exact int_exact hline)⟩

theorem effect_same (e : Effect) (h : Effect.ofFields f = some e) : Json.same e.toValue (.obj f) = true := by
  simp only [Effect.ofFields, Option.bind_eq_some_iff, Option.some.injEq] at h
  obtain ⟨deps, hdeps, io, hio, line, hline, bindings, hbindings, rfl⟩ := h
  refine (Json.same_record Effect.names rfl (by decide) hf).mpr ?_
  simp only [Effect.members, List.forall_mem_cons, List.not_mem_nil, false_imp_iff, implies_true, and_true]
  exact ⟨kept f hf (rejectNull_exact texts_exact hdeps), kept f hf (rejectNull_exact bool_exact hio),
    kept f hf (rejectNull_exact int_exact hline), records_kept binding_same (distinct_member f hf _) hbindings⟩

theorem param_same (p : Param) (h : Param.ofFields f = some p) : Json.same p.toValue (.obj f) = true := by
  simp only [Param.ofFields, Option.bind_eq_some_iff, Option.some.injEq] at h
  obtain ⟨name, hname, line, hline, effect, heffect, rfl⟩ := h
  refine (Json.same_record Param.names rfl (by decide) hf).mpr ?_
  simp only [Param.members, List.forall_mem_cons, List.not_mem_nil, false_imp_iff, implies_true, and_true]
  exact ⟨kept f hf (required_exact text_exact hname), kept f hf (rejectNull_exact int_exact hline),
    kept f hf (nullable_exact paramEffect_exact heffect)⟩

theorem function_same (g : Function) (h : Function.ofFields f = some g) : Json.same g.toValue (.obj f) = true := by
  simp only [Function.ofFields, Option.bind_eq_some_iff, Option.some.injEq] at h
  obtain ⟨sig, hsig, params, hparams, rfl⟩ := h
  refine (Json.same_record Function.names rfl (by decide) hf).mpr ?_
  simp only [Function.members, List.forall_mem_cons, List.not_mem_nil, false_imp_iff, implies_true, and_true]
  exact ⟨kept f hf (nullable_exact text_exact hsig), records_kept param_same (distinct_member f hf _) hparams⟩

theorem document_same (d : OwnIr) (h : OwnIr.ofFields f = some d) :
    Json.same (Json.record d.members d.extra) (.obj f) = true ↔ ColumnsKept f := by
  simp only [OwnIr.ofFields, Option.bind_eq_some_iff, Option.some.injEq] at h
  obtain ⟨version, hversion, components, hcomponents, services, hservices, effects, heffects,
    functions, hfunctions, protocols, hprotocols,
    methods, hmethods, rfl⟩ := h
  refine (Json.same_record OwnIr.names rfl (by decide) hf).trans ?_
  have hd := distinct_member f hf
  simp only [OwnIr.members, List.forall_mem_cons, List.not_mem_nil, false_imp_iff, implies_true, and_true,
    records_same component_same (hd _) hcomponents]
  constructor
  · exact fun h => h.2.1
  · intro hcolumns
    exact ⟨kept f hf (rejectNull_exact int_exact hversion), hcolumns, records_kept service_same (hd _) hservices,
      records_kept effect_same (hd _) heffects, records_kept function_same (hd _) hfunctions, kept f hf
        (rejectNull_exact arr_exact hprotocols),
      kept f hf (rejectNull_exact arr_exact hmethods)⟩

end Records

/-! ## Depth -/

section Depth

variable {f : Fields} (hdepth : Json.levels (.obj f) ≤ maxValueDepth)

theorem eachOf_ok {α : Type} {check : α → Checked Unit} {items : Option (List α)} (h : ∀ i ∈ items.getD [], check i = .ok ()) :
    eachOf check items = .ok () :=
  (each_ok (p := fun i => check i = .ok ()) fun _ _ _ => Iff.rfl).mpr h

include hdepth

theorem rest_depth {what : String} {names : List String} : checkMapDepth what (Json.rest names f) = .ok () := by
  refine (each_ok (p := fun m : String × Json => checkDepth what m.2 = .ok ()) fun _ _ _ =>
    Iff.rfl).mpr fun m hm => ensure_ok.mpr ?_
  have := Json.levels_member (Json.mem_rest.mp hm).1
  omega

/-- A record of a list of the object is no deeper than the object. -/
theorem records_depth {α : Type} {g : Fields → Option α} {key : String} {as : Option (List α)}
    (h : rejectNull (vecOf (ofObject g)) (Json.lookup f key) = some as) :
    ∀ a ∈ as.getD [], ∃ r, g r = some a ∧ Json.levels (.obj r) ≤ maxValueDepth := by
  intro a ha
  cases hv : Json.lookup f key with
  | none =>
    rw [hv] at h
    cases h
    cases ha
  | some v =>
    rw [hv] at h
    obtain ⟨as, has, rfl⟩ := Option.map_eq_some_iff.mp h
    obtain ⟨items, hitems, hread⟩ := Option.bind_eq_some_iff.mp has
    cases Json.asArr_iff.mp hitems
    obtain ⟨i, hi, ha⟩ := exists_item (vec_forall₂ hread) ha
    obtain ⟨r, hr, ha⟩ := Option.bind_eq_some_iff.mp ha
    cases Json.asObj_iff.mp hr
    refine ⟨r, ha, ?_⟩
    have hmember := Json.levels_lookup hv
    have hitem := Json.levels_item hi
    omega

theorem raw_depth {what key : String} {items : Option (List Json)} (h : rejectNull Json.asArr (Json.lookup f key) = some items) :
    eachOf (checkDepth what) items = .ok () := by
  refine eachOf_ok fun i hi => ensure_ok.mpr ?_
  cases hv : Json.lookup f key with
  | none =>
    rw [hv] at h
    cases h
    cases hi
  | some v =>
    rw [hv] at h
    obtain ⟨items, hitems, rfl⟩ := Option.map_eq_some_iff.mp h
    cases Json.asArr_iff.mp hitems
    have hmember := Json.levels_lookup hv
    have hitem : i.levels < (Json.arr items).levels := Json.levels_item hi
    omega

theorem site_depth {s : Site} {what : String} (h : Site.ofFields f = some s) : checkMapDepth what s.extra = .ok () := by
  simp only [Site.ofFields, Option.bind_eq_some_iff, Option.some.injEq] at h
  obtain ⟨typeName, -, file, -, line, -, rfl⟩ := h
  exact rest_depth hdepth

theorem binding_depth {b : Binding} {what : String} (h : Binding.ofFields f = some b) : checkMapDepth what b.extra = .ok () := by
  simp only [Binding.ofFields, Option.bind_eq_some_iff, Option.some.injEq] at h
  obtain ⟨name, -, init, -, refs, -, line, -, rfl⟩ := h
  exact rest_depth hdepth

theorem param_depth {p : Param} {what : String} (h : Param.ofFields f = some p) : checkMapDepth what p.extra = .ok () := by
  simp only [Param.ofFields, Option.bind_eq_some_iff, Option.some.injEq] at h
  obtain ⟨name, -, line, -, effect, -, rfl⟩ := h
  exact rest_depth hdepth

theorem column_depth {key what : String} :
    ∀ column, optionValue (Json.lookup f key) = some column → checkDepth what column = .ok () := by
  intro column h
  refine ensure_ok.mpr ?_
  cases hv : Json.lookup f key with
  | none => rw [hv] at h; cases h
  | some v =>
    have hmember := Json.levels_lookup hv
    rw [hv] at h
    cases v <;> cases h <;> omega

/-- What was read of a document as deep as a document may be is written. -/
theorem document_depth {d : OwnIr} (h : OwnIr.ofFields f = some d) : d.checkRawDepth = .ok () := by
  simp only [OwnIr.ofFields, Option.bind_eq_some_iff, Option.some.injEq] at h
  obtain ⟨version, -, components, hcomponents, services, hservices, effects, heffects, functions,
    hfunctions, protocols, hprotocols,
    methods, hmethods, rfl⟩ := h
  refine seq_ok.mpr ⟨rest_depth hdepth, seq_ok.mpr ⟨raw_depth hdepth hprotocols, seq_ok.mpr ⟨raw_depth hdepth hmethods,
    seq_ok.mpr ⟨eachOf_ok fun c hc => ?_, seq_ok.mpr ⟨eachOf_ok fun s hs => ?_,
      seq_ok.mpr ⟨eachOf_ok fun e he => ?_, eachOf_ok fun g hg => ?_⟩⟩⟩⟩⟩⟩
  · obtain ⟨r, hr, hdepth⟩ := records_depth hdepth hcomponents c hc
    simp only [Component.ofFields, Option.bind_eq_some_iff, Option.some.injEq] at hr
    obtain ⟨subscriptions, hsubscriptions, rfl⟩ := hr
    refine seq_ok.mpr ⟨rest_depth hdepth, eachOf_ok fun s hs => ?_⟩
    obtain ⟨r, hr, hdepth⟩ := records_depth hdepth hsubscriptions s hs
    simp only [Subscription.ofFields, Option.bind_eq_some_iff, Option.some.injEq] at hr
    obtain ⟨resource, -, typeName, -, sourceType, -, provenance, -, reason, -, rfl⟩ := hr
    refine seq_ok.mpr ⟨rest_depth hdepth, ?_⟩
    cases hcolumn : optionValue (Json.lookup r "column") with
    | none => rfl
    | some column => exact column_depth hdepth column hcolumn
  · obtain ⟨r, hr, hdepth⟩ := records_depth hdepth hservices s hs
    have hread := service_read hr
    rw [hread.extra]
    refine seq_ok.mpr ⟨rest_depth hdepth, (each_ok (p := fun site : Site => checkMapDepth "service call site" site.extra = .ok ())
      fun _ _ _ => Iff.rfl).mpr fun site hsite => ?_⟩
    rcases List.mem_append.mp hsite with hsite | hsite
    · obtain ⟨r, hr, hdepth⟩ := records_depth hdepth hread.rootResolveSites site hsite
      exact site_depth hdepth hr
    · obtain ⟨r, hr, hdepth⟩ := records_depth hdepth hread.scopeCacheSites site hsite
      exact site_depth hdepth hr
  · obtain ⟨r, hr, hdepth⟩ := records_depth hdepth heffects e he
    simp only [Effect.ofFields, Option.bind_eq_some_iff, Option.some.injEq] at hr
    obtain ⟨deps, -, io, -, line, -, bindings, hbindings, rfl⟩ := hr
    refine seq_ok.mpr ⟨rest_depth hdepth, eachOf_ok fun b hb => ?_⟩
    obtain ⟨r, hr, hdepth⟩ := records_depth hdepth hbindings b hb
    exact binding_depth hdepth hr
  · obtain ⟨r, hr, hdepth⟩ := records_depth hdepth hfunctions g hg
    simp only [Function.ofFields, Option.bind_eq_some_iff, Option.some.injEq] at hr
    obtain ⟨sig, -, params, hparams, rfl⟩ := hr
    refine seq_ok.mpr ⟨rest_depth hdepth, eachOf_ok fun p hp => ?_⟩
    obtain ⟨r, hr, hdepth⟩ := records_depth hdepth hparams p hp
    exact param_depth hdepth hr

end Depth

/-! ## The round trip -/

/-- An accepted document comes back as the same value exactly where no subscription gives a null for its column. -/
theorem roundTrip_iff {v : Value} {d : OwnIr} (h : OwnIr.fromJson v = .ok d) :
    (∃ w, d.toValue = .ok w ∧ Json.same w v.val = true) ↔ ∀ top, v.val = .obj top → ColumnsKept top := by
  obtain ⟨hdepth, h⟩ := ensure_bind_ok.mp h
  obtain ⟨top, htop, h⟩ := bind_ok.mp h
  obtain ⟨v, hd⟩ := v
  cases Json.asObj_iff.mp (require_ok.mp htop)
  have hread := require_ok.mp (seq_ok.mp h).2
  have hlevels : (Json.obj top).levels ≤ maxValueDepth := by
    have hdepth : (Json.obj top).nesting < maxValueDepth := hdepth
    have := Json.levels_le (.obj top)
    omega
  have hsame := document_same top hd d hread
  constructor
  · rintro ⟨w, hw, hback⟩ top' htop'
    cases htop'
    obtain ⟨-, hw⟩ := seq_ok.mp hw
    cases hw
    exact hsame.mp hback
  · exact fun hkept => ⟨_, seq_ok.mpr ⟨document_depth hlevels hread, rfl⟩, hsame.mpr (hkept top rfl)⟩

/-- A subscription that says nothing but an unknown member and a column. -/
def clicked (column : Json) : Json :=
  .obj [("components", .arr [.obj [("subscriptions", .arr [.obj [("event", .str "Click"), ("column", column)]])]])]

theorem roundTrip_iff_clicked :
    ∃ d, OwnIr.fromJson ⟨clicked (.int 3), by decide⟩ = .ok d ∧
      ((∃ w, d.toValue = .ok w ∧ Json.same w (clicked (.int 3)) = true) ↔ ∀ top, clicked (.int 3) = .obj top → ColumnsKept top) :=
  ⟨_, rfl, roundTrip_iff (v := ⟨clicked (.int 3), by decide⟩) rfl⟩

theorem null_column_lost :
    ∃ d w, OwnIr.fromJson ⟨clicked .null, by decide⟩ = .ok d ∧ d.toValue = .ok w ∧ Json.same w (clicked .null) = false :=
  ⟨_, _, rfl, rfl, by decide⟩

end OwnNet.Facts.Typed
