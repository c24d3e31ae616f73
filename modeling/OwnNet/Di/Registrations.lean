/-
  OwnNet.Di.Registrations — what one more registration does to the captures already found.

  DI001 and DI003 look every name up in one map, in which the last registration of a name
  stays: also the name of the singleton they start from. DI002, DI004 and DI005 start from
  the singleton's own lists.

  Proved: `captures_kept_iff`: the captures found survive a registration appended exactly if
  each is still wanted and reached once the registered dependencies of that name are replaced.
-/

import OwnNet.Di.Captives
import OwnNet.Dict.Index

namespace OwnNet.Di

open Graph

/-! ## The map of the registrations -/

theorem byName_append (services : List Service) (t : Service) :
    byName (services ++ [t]) = (byName services).set t.name t :=
  @Dict.index_append _ _ _ _ Service.name id services t

/-- What is looked up is a registration of that name. -/
theorem byName_mem {services : List Service} {n : String} {s : Service} (h : (byName services).get? n = some s) :
    s ∈ services ∧ s.name = n := by
  have h : (Dict.index Service.name id services).get? n = some s := h
  obtain ⟨t, ht, hn, rfl⟩ := Dict.index_mem h
  exact ⟨ht, hn⟩

theorem is_mem {services : List Service} {p : Service → Bool} {n : String} (h : (byName services).is p n = true) :
    n ∈ services.map (·.name) := by
  unfold Registry.is at h
  split at h
  next s hs =>
    obtain ⟨hm, hn⟩ := byName_mem hs
    exact List.mem_map.mpr ⟨s, hm, hn⟩
  next => cases h

section Append

variable (services : List Service) (t : Service) {n : String}

theorem deps_append : (byName (services ++ [t])).deps t.name = t.deps := by
  simp [Registry.deps, byName_append]

theorem deps_append_of_ne (h : n ≠ t.name) : (byName (services ++ [t])).deps n = (byName services).deps n := by
  simp [Registry.deps, byName_append, Dict.get?_set, h]

theorem is_append (p : Service → Bool) : (byName (services ++ [t])).is p t.name = p t := by
  simp [Registry.is, byName_append]

theorem is_append_of_ne (p : Service → Bool) (h : n ≠ t.name) :
    (byName (services ++ [t])).is p n = (byName services).is p n := by
  simp [Registry.is, byName_append, Dict.get?_set, h]

end Append

/-! ## What is captured -/

/-- `goal` wants `c`, and the dependencies registered for `a` lead to it. -/
def Captured (goal : Service → Bool) (services : List Service) (a c : String) : Prop :=
  (byName services).is goal c = true ∧
    Leads (byName services).deps ((byName services).is Service.isTransient) ((byName services).deps a) c

theorem eachOf_mem {β γ : Type} {f : β → Option (List γ)} {l : List β} (h : ∀ b ∈ l, ∃ xs, f b = some xs) :
    ∃ out, eachOf f l = some out ∧ ∀ y, y ∈ out ↔ ∃ b ∈ l, ∃ xs, f b = some xs ∧ y ∈ xs := by
  induction l with
  | nil => exact ⟨[], rfl, by simp⟩
  | cons b l ih =>
    obtain ⟨xs, hxs⟩ := h b List.mem_cons_self
    obtain ⟨out, hout, hmem⟩ := ih fun c hc => h c (List.mem_cons_of_mem _ hc)
    refine ⟨xs ++ out, by simp only [eachOf, hxs, hout], fun y => ?_⟩
    simp [hmem, hxs]

/-- DI001 and DI003, which differ in what they want. -/
def edgeRule (goal : Service → Bool) (fuel : Nat) (services : List Service) : Option (List CaptiveDependency) :=
  let reg := byName services
  (eachOf (fun s =>
    (edgeSearch reg.deps (reg.is goal) (reg.is Service.isTransient) fuel
      ⟨[(s.name, [s.name])], [], [], []⟩).map fun found => found.map s.captive)
    (singletons services)).map (sortBy CaptiveDependency.key)

/-- The reports are those of the captured services, under every singleton registration of the captor's name. -/
theorem edgeRule_mem (goal : Service → Bool) (services : List Service) :
    ∃ n, ∀ fuel ≥ n, ∃ fs, edgeRule goal fuel services = some fs ∧
      (∀ f ∈ fs, ∃ s ∈ singletons services, ∃ e, f = s.captive e ∧ Captured goal services s.name e.1) ∧
      (∀ s ∈ singletons services, ∀ c, Captured goal services s.name c → ∃ p, s.captive (c, p) ∈ fs) := by
  obtain ⟨n, hb⟩ := exists_bound
    (fun s : Service => (⟨[(s.name, [s.name])], [], [], []⟩ : Tour String).left (services.map (·.name)))
    (singletons services)
  refine ⟨n, fun fuel hf => ?_⟩
  have hex : ∀ s ∈ singletons services, ∃ found,
      edgeSearch (byName services).deps ((byName services).is goal) ((byName services).is Service.isTransient) fuel
        ⟨[(s.name, [s.name])], [], [], []⟩ = some found ∧
      Exact ((byName services).is goal) (Trail (byName services).deps ((byName services).is Service.isTransient)
        ((byName services).deps s.name) s.name) found :=
    fun s hs => edgeSearch_exact (fun u hu => is_mem hu) s.name (Nat.lt_of_lt_of_le (hb s hs) hf)
  obtain ⟨out, hout, hmem⟩ := eachOf_mem
    (f := fun s => (edgeSearch (byName services).deps ((byName services).is goal)
      ((byName services).is Service.isTransient) fuel ⟨[(s.name, [s.name])], [], [], []⟩).map
        fun found => found.map s.captive)
    (l := singletons services) fun s hs => by
      obtain ⟨found, hrun, -⟩ := hex s hs
      exact ⟨_, by rw [hrun]; rfl⟩
  refine ⟨sortBy CaptiveDependency.key out, by simp only [edgeRule, hout, Option.map_some], ?_, ?_⟩
  · intro f hf
    obtain ⟨s, hs, xs, hxs, hx⟩ := (hmem f).mp ((mem_sortBy _).mp hf)
    obtain ⟨found, hrun, he⟩ := hex s hs
    rw [hrun, Option.map_some] at hxs
    cases hxs
    obtain ⟨e, hfe, rfl⟩ := List.mem_map.mp hx
    obtain ⟨hhit, htr⟩ := he.sound e hfe
    exact ⟨s, hs, e, rfl, hhit, (leads_iff_trail s.name).mpr ⟨_, htr⟩⟩
  · intro s hs c hc
    obtain ⟨found, hrun, he⟩ := hex s hs
    obtain ⟨p, hp⟩ := (leads_iff_trail s.name).mp hc.2
    obtain ⟨e, hfe, rfl⟩ := List.mem_map.mp (he.complete p c hp hc.1)
    refine ⟨e.2, (mem_sortBy _).mpr ((hmem _).mpr ⟨s, hs, _, ?_, List.mem_map_of_mem hfe⟩)⟩
    rw [hrun]
    rfl

/-! ## One more registration -/

/-- A finding without the chain it was found by. -/
def CaptiveDependency.capture (f : CaptiveDependency) : CaptiveDependency := { f with path := [] }

/-- With `t` appended the rule still makes every finding it made. -/
def Keeps (rule : Nat → List Service → Option (List CaptiveDependency)) (services : List Service) (t : Service) : Prop :=
  ∃ n, ∀ fuel ≥ n, ∃ fs fs', rule fuel services = some fs ∧ rule fuel (services ++ [t]) = some fs' ∧
    ∀ f ∈ fs, ∃ f' ∈ fs', f'.capture = f.capture

theorem keeps_iff_captured (goal : Service → Bool) (services : List Service) (t : Service) :
    Keeps (edgeRule goal) services t ↔
      ∀ s ∈ singletons services, ∀ c, Captured goal services s.name c → Captured goal (services ++ [t]) s.name c := by
  obtain ⟨n, h⟩ := edgeRule_mem goal services
  obtain ⟨n', h'⟩ := edgeRule_mem goal (services ++ [t])
  constructor
  · rintro ⟨m, hm⟩ s hs c hc
    obtain ⟨fs, hfs, -, hto⟩ := h (m + n + n') (by omega)
    obtain ⟨fs', hfs', hfrom, -⟩ := h' (m + n + n') (by omega)
    obtain ⟨gs, gs', hgs, hgs', hkeep⟩ := hm (m + n + n') (by omega)
    cases hfs.symm.trans hgs
    cases hfs'.symm.trans hgs'
    obtain ⟨p, hp⟩ := hto s hs c hc
    obtain ⟨f', hf', he⟩ := hkeep _ hp
    obtain ⟨s', -, e, rfl, hc'⟩ := hfrom f' hf'
    have hname : s'.name = s.name := congrArg CaptiveDependency.singleton he
    have hcap : e.1 = c := congrArg CaptiveDependency.captured he
    rwa [hname, hcap] at hc'
  · intro hall
    refine ⟨n + n', fun fuel hf => ?_⟩
    obtain ⟨fs, hfs, hfrom, -⟩ := h fuel (by omega)
    obtain ⟨fs', hfs', -, hto⟩ := h' fuel (by omega)
    refine ⟨fs, fs', hfs, hfs', fun f hfm => ?_⟩
    obtain ⟨s, hs, e, rfl, hc⟩ := hfrom f hfm
    have hs' : s ∈ singletons (services ++ [t]) := by
      rw [mem_singletons] at hs ⊢
      exact ⟨List.mem_append_left _ hs.1, hs.2⟩
    obtain ⟨p, hp⟩ := hto s hs' e.1 (hall s hs e.1 hc)
    exact ⟨_, hp, rfl⟩

/-- Reached over `first` through registered transients, none of them `x`. -/
def Around (services : List Service) (x : String) (first : List String) (c : String) : Prop :=
  Leads (byName services).deps (around ((byName services).is Service.isTransient) x) first c

/-- Replacing the registration of `t`'s name leaves every capture: what is captured under that name is still wanted,
    and every capture is reached without the dependencies replaced, or over `t`'s. -/
def Unmasked (goal : Service → Bool) (services : List Service) (t : Service) : Prop :=
  ∀ s ∈ services, s.lifetime = .singleton → ∀ c, Captured goal services s.name c →
    (c = t.name → goal t = true) ∧
    if s.name = t.name then Around services t.name t.deps c
    else Around services t.name ((byName services).deps s.name) c ∨
      (t.lifetime = .transient ∧ Around services t.name ((byName services).deps s.name) t.name ∧
        Around services t.name t.deps c)

theorem captured_append_goal {goal : Service → Bool} {services : List Service} {t : Service} {c : String}
    (h : (byName services).is goal c = true) :
    (byName (services ++ [t])).is goal c = true ↔ (c = t.name → goal t = true) := by
  by_cases e : c = t.name
  · subst e
    simp [is_append]
  · simp [is_append_of_ne services t goal e, h, e]

theorem captured_append_leads (services : List Service) (t : Service) (a c : String) :
    Leads (byName (services ++ [t])).deps ((byName (services ++ [t])).is Service.isTransient)
        ((byName (services ++ [t])).deps a) c ↔
      if a = t.name then Around services t.name t.deps c
      else Around services t.name ((byName services).deps a) c ∨
        (t.lifetime = .transient ∧ Around services t.name ((byName services).deps a) t.name ∧
          Around services t.name t.deps c) := by
  have ht : (byName (services ++ [t])).is Service.isTransient t.name = true ↔ t.lifetime = .transient := by
    rw [is_append]
    simp [Service.isTransient]
  rw [leads_replace (x := t.name) (fun u hu => deps_append_of_ne services t hu)
    (fun u hu => is_append_of_ne services t _ hu), deps_append, ht]
  by_cases e : a = t.name
  · subst e
    rw [if_pos rfl, deps_append]
    exact or_iff_left_of_imp fun h => h.2.2
  · rw [if_neg e, deps_append_of_ne services t e]
    exact Iff.rfl

theorem keeps_iff (goal : Service → Bool) (services : List Service) (t : Service) :
    Keeps (edgeRule goal) services t ↔ Unmasked goal services t := by
  rw [keeps_iff_captured]
  constructor
  · intro h s hs hl c hc
    obtain ⟨hg, hr⟩ := h s (mem_singletons.mpr ⟨hs, hl⟩) c hc
    exact ⟨(captured_append_goal hc.1).mp hg, (captured_append_leads services t s.name c).mp hr⟩
  · intro h s hs c hc
    obtain ⟨hs, hl⟩ := mem_singletons.mp hs
    obtain ⟨hg, hr⟩ := h s hs hl c hc
    exact ⟨(captured_append_goal hc.1).mpr hg, (captured_append_leads services t s.name c).mpr hr⟩

/-- DI001 and DI003 keep their findings when `t` is appended exactly if it masks none of their captures. -/
theorem captures_kept_iff (services : List Service) (t : Service) :
    (Keeps findCaptiveDependencies services t ↔ Unmasked Service.isScoped services t) ∧
      (Keeps findCapturedTransientDisposables services t ↔ Unmasked Service.isTransientDisposable services t) :=
  ⟨keeps_iff Service.isScoped services t, keeps_iff Service.isTransientDisposable services t⟩

namespace Example

def captor : List Service := [{ name := "Cache", lifetime := .singleton, deps := ["Db"] }, { name := "Db", lifetime := .scoped }]

def again : Service := { name := "Cache", lifetime := .singleton }

end Example

/-- A second singleton of the captor's name, with no dependencies, hides the capture of the first. -/
theorem registration_masks_capture :
    ¬ ∀ (services : List Service) (t : Service), (∃ s ∈ services, s.lifetime = .singleton ∧ s.name = t.name) →
      Keeps findCaptiveDependencies services t ∧ Keeps findCapturedTransientDisposables services t := by
  intro h
  obtain ⟨hk, -⟩ := h Example.captor Example.again ⟨_, List.mem_cons_self, rfl, rfl⟩
  have hcap : Captured Service.isScoped Example.captor "Cache" "Db" := ⟨by decide, .entry (by decide)⟩
  have := (keeps_iff_captured Service.isScoped _ _).mp hk _ (mem_singletons.mpr ⟨List.mem_cons_self, rfl⟩) "Db" hcap
  have hd : (byName (Example.captor ++ [Example.again])).deps "Cache" = [] := by decide
  obtain ⟨-, hl⟩ := this
  rw [show (Service.name { name := "Cache", lifetime := .singleton, deps := ["Db"] : Service }) = "Cache" from rfl, hd] at hl
  exact not_leads_nil hl

end OwnNet.Di
