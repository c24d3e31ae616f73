/-
  OwnNet.Di.Captives — the DI lifetime checker: registrations, and the five searches for
  what a singleton captures.

  Each rule searches from every singleton, through registered transients, over the strong
  dependency edges; the rules differ in the edges they start with and in what they look for:
  - DI001: constructor edges; a scoped service;
  - DI002: weak edges; a scoped service;
  - DI003: constructor edges; a transient disposable;
  - DI004: the types resolved by hand; a transient disposable;
  - DI005: each cached entry on its own; the first scoped service met.
  The searches return nothing when their fuel runs out.

  Proved: `lifetimes_exact`: with enough fuel each rule returns; what it reports is a
  singleton and the end of a chain of the rule's kind, with that chain; and every such end
  is reported, once (DI005: every cached entry that has one, once).
-/

import Mathlib.Data.Prod.Lex
import Mathlib.Data.String.Basic
import Mathlib.Data.List.Perm.Basic
import Mathlib.Data.List.Nodup
import OwnNet.Dict.Index
import OwnNet.Graph.Trails

namespace OwnNet.Di

open Graph

/-! ## Registrations -/

inductive Lifetime
  | singleton | scoped | transient
  deriving DecidableEq

structure Service where
  name : String
  lifetime : Lifetime
  deps : List String := []
  disposable : Bool := false
  file : String := "?"
  line : Int := 0
  weakDeps : List String := []
  rootResolves : List String := []
  ctorFile : String := "?"
  ctorLine : Int := 0
  ctorType : String := ""
  rootResolveSites : List (String × String × Int) := []
  scopeCached : List String := []
  scopeCacheSites : List (String × String × Int) := []

abbrev Registry := Dict String Service

/-- `by_name`; of two registrations of one name the later stays. -/
def byName (services : List Service) : Registry := services.foldl (fun d s => d.set s.name s) Dict.empty

def Registry.deps (reg : Registry) (n : String) : List String :=
  match reg.get? n with
  | some s => s.deps
  | none => []

/-- `n` is registered, with `p`. -/
def Registry.is (reg : Registry) (p : Service → Bool) (n : String) : Bool :=
  match reg.get? n with
  | some s => p s
  | none => false

def Service.isScoped (s : Service) : Bool := s.lifetime = .scoped

def Service.isTransient (s : Service) : Bool := s.lifetime = .transient

def Service.isTransientDisposable (s : Service) : Bool := s.isTransient && s.disposable

def singletons (services : List Service) : List Service := services.filter fun s => s.lifetime = .singleton

/-- `sites`: where each type was resolved or cached, the last entry of a type winning. -/
def siteOf (sites : List (String × String × Int)) (t : String) : String × Int :=
  (sites.foldl (fun (d : Dict String (String × Int)) e => d.set e.1 e.2) Dict.empty).getD t ("?", 0)

/-! ## Findings -/

/-- The findings of DI001, DI002 and DI003, which differ in their message only. -/
structure CaptiveDependency where
  singleton : String
  captured : String
  path : List String
  file : String
  line : Int
  consumedFile : String
  consumedLine : Int
  consumedType : String

structure ExplicitRootResolution where
  singleton : String
  resolved : String
  path : List String
  file : String
  line : Int
  resolvedFile : String
  resolvedLine : Int

structure ScopeCachedCaptive where
  singleton : String
  captured : String
  path : List String
  file : String
  line : Int
  cachedFile : String
  cachedLine : Int

def Service.captive (s : Service) (e : String × List String) : CaptiveDependency :=
  ⟨s.name, e.1, e.2, s.file, s.line, s.ctorFile, s.ctorLine, s.ctorType⟩

/-- The call site is that of the entry type, the second node of the path. -/
def Service.resolution (s : Service) (e : String × List String) : ExplicitRootResolution :=
  let site := match e.2 with
    | _ :: entry :: _ => siteOf s.rootResolveSites entry
    | _ => ("?", 0)
  ⟨s.name, e.1, e.2, s.file, s.line, site.1, site.2⟩

def Service.cached (s : Service) (entry : String) (e : String × List String) : ScopeCachedCaptive :=
  let site := siteOf s.scopeCacheSites entry
  ⟨s.name, e.1, e.2, s.file, s.line, site.1, site.2⟩

/-- `f` of each element, the results joined; nothing once one fails. -/
def eachOf {β γ : Type} (f : β → Option (List γ)) : List β → Option (List γ)
  | [] => some []
  | b :: bs =>
    match f b, eachOf f bs with
    | some xs, some ys => some (xs ++ ys)
    | _, _ => none

abbrev SortKey := String ×ₗ Int ×ₗ String ×ₗ String

def sortKey (file : String) (line : Int) (singleton captured : String) : SortKey :=
  toLex (file, toLex (line, toLex (singleton, captured)))

def sortBy {γ : Type} (key : γ → SortKey) (fs : List γ) : List γ := fs.mergeSort fun a b => decide (key a ≤ key b)

def CaptiveDependency.key (f : CaptiveDependency) : SortKey := sortKey f.file f.line f.singleton f.captured
def ExplicitRootResolution.key (f : ExplicitRootResolution) : SortKey := sortKey f.file f.line f.singleton f.resolved
def ScopeCachedCaptive.key (f : ScopeCachedCaptive) : SortKey := sortKey f.file f.line f.singleton f.captured

/-! ## The five rules -/

/-- DI001. -/
def findCaptiveDependencies (fuel : Nat) (services : List Service) : Option (List CaptiveDependency) :=
  let reg := byName services
  (eachOf (fun s =>
    (edgeSearch reg.deps (reg.is Service.isScoped) (reg.is Service.isTransient) fuel
      ⟨[(s.name, [s.name])], [], [], []⟩).map fun found => found.map s.captive)
    (singletons services)).map (sortBy CaptiveDependency.key)

/-- DI002. -/
def findWeakCaptiveDependencies (fuel : Nat) (services : List Service) : Option (List CaptiveDependency) :=
  let reg := byName services
  (eachOf (fun s =>
    (popSearch reg.deps (reg.is Service.isScoped) (reg.is Service.isTransient) fuel
      ⟨onward [s.name] s.weakDeps, [], [], []⟩).map fun found => found.map s.captive)
    (singletons services)).map (sortBy CaptiveDependency.key)

/-- DI003. -/
def findCapturedTransientDisposables (fuel : Nat) (services : List Service) : Option (List CaptiveDependency) :=
  let reg := byName services
  (eachOf (fun s =>
    (edgeSearch reg.deps (reg.is Service.isTransientDisposable) (reg.is Service.isTransient) fuel
      ⟨[(s.name, [s.name])], [], [], []⟩).map fun found => found.map s.captive)
    (singletons services)).map (sortBy CaptiveDependency.key)

/-- DI004. -/
def findExplicitRootResolutions (fuel : Nat) (services : List Service) : Option (List ExplicitRootResolution) :=
  let reg := byName services
  (eachOf (fun s =>
    (popSearch reg.deps (reg.is Service.isTransientDisposable) (reg.is Service.isTransient) fuel
      ⟨onward [s.name] s.rootResolves, [], [], []⟩).map fun found => found.map s.resolution)
    (singletons services)).map (sortBy ExplicitRootResolution.key)

/-- The cached entries of `s`, those in `reported` passed over. -/
def cachedEntries (search : String → Option (Option (String × List String))) (s : Service) :
    List String → List String → Option (List ScopeCachedCaptive)
  | _, [] => some []
  | reported, entry :: entries =>
    if entry ∈ reported then cachedEntries search s reported entries
    else
      match search entry with
      | none => none
      | some none => cachedEntries search s reported entries
      | some (some e) => (cachedEntries search s (entry :: reported) entries).map (s.cached entry e :: ·)

/-- DI005. -/
def findScopeCachedCaptives (fuel : Nat) (services : List Service) : Option (List ScopeCachedCaptive) :=
  let reg := byName services
  (eachOf (fun s =>
    cachedEntries (fun entry =>
      firstHit reg.deps (reg.is Service.isScoped) (reg.is Service.isTransient) fuel (onward [s.name] [entry]) [])
      s [] s.scopeCached)
    (singletons services)).map (sortBy ScopeCachedCaptive.key)

/-! ## What the rules are for -/

/-- A chain of real dependency edges from `a` to its end: one of `entries`, then out of registered transients. -/
inductive Chain (services : List Service) (entries : List String) (a : String) : List String → String → Prop
  | entry {c : String} : c ∈ entries → Chain services entries a [a, c] c
  | step {p : List String} {b c : String} {u : Service} : Chain services entries a p b → u ∈ services → u.name = b →
      u.lifetime = .transient → c ∈ u.deps → Chain services entries a (p ++ [c]) c

/-- `c` is a registered service that `goal` wants. -/
def Registered (services : List Service) (goal : Service → Prop) (c : String) : Prop :=
  ∃ t ∈ services, t.name = c ∧ goal t

/-- The reports of a rule: for each singleton the ends of its chains that `goal` wants, each once, with a chain. -/
structure Captures {F : Type} (services : List Service) (entries : Service → List String) (goal : Service → Prop)
    (pair : F → String × String) (path : F → List String) (fs : List F) : Prop where
  sound : ∀ f ∈ fs, ∃ s ∈ services, s.lifetime = .singleton ∧ (pair f).1 = s.name ∧
    Registered services goal (pair f).2 ∧ Chain services (entries s) s.name (path f) (pair f).2
  complete : ∀ s ∈ services, s.lifetime = .singleton → ∀ p c, Chain services (entries s) s.name p c →
    Registered services goal c → ∃ f ∈ fs, pair f = (s.name, c)
  once : (fs.map pair).Nodup

/-- The reports of DI005: each cached entry with a chain to a scoped service, once, with such a chain. -/
structure CachesCapture (services : List Service) (fs : List ScopeCachedCaptive) : Prop where
  sound : ∀ f ∈ fs, ∃ s ∈ services, s.lifetime = .singleton ∧ f.singleton = s.name ∧
    Registered services (fun t => t.lifetime = .scoped) f.captured ∧
    ∃ entry ∈ s.scopeCached, f.path[1]? = some entry ∧ Chain services [entry] s.name f.path f.captured
  complete : ∀ s ∈ services, s.lifetime = .singleton → ∀ entry ∈ s.scopeCached, ∀ p c,
    Chain services [entry] s.name p c → Registered services (fun t => t.lifetime = .scoped) c →
    ∃ f ∈ fs, f.singleton = s.name ∧ f.path[1]? = some entry
  once : (fs.map fun f => (f.singleton, f.path[1]?)).Nodup

/-! ## Lookups -/

variable {services : List Service}

theorem byName_some (hn : (services.map (·.name)).Nodup) {n : String} {s : Service} :
    (byName services).get? n = some s ↔ s ∈ services ∧ s.name = n := by
  show (Dict.index (fun s : Service => s.name) id services).get? n = some s ↔ _
  constructor
  · intro h
    obtain ⟨t, ht, hname, rfl⟩ := Dict.index_mem h
    exact ⟨ht, hname⟩
  · rintro ⟨hs, rfl⟩
    exact Dict.index_some hn hs

theorem byName_deps (hn : (services.map (·.name)).Nodup) {n c : String} :
    c ∈ (byName services).deps n ↔ ∃ s ∈ services, s.name = n ∧ c ∈ s.deps := by
  unfold Registry.deps
  cases h : (byName services).get? n with
  | none =>
    constructor
    · intro hc; cases hc
    · rintro ⟨s, hs, hsn, -⟩
      rw [(byName_some hn).mpr ⟨hs, hsn⟩] at h; cases h
  | some s =>
    obtain ⟨hs, hsn⟩ := (byName_some hn).mp h
    constructor
    · exact fun hc => ⟨s, hs, hsn, hc⟩
    · rintro ⟨t, ht, htn, hc⟩
      rw [(byName_some hn).mpr ⟨ht, htn⟩] at h
      cases h
      exact hc

theorem byName_is (hn : (services.map (·.name)).Nodup) {p : Service → Bool} {n : String} :
    (byName services).is p n = true ↔ Registered services (p · = true) n := by
  unfold Registry.is Registered
  cases h : (byName services).get? n with
  | none =>
    constructor
    · intro hc; cases hc
    · rintro ⟨s, hs, hsn, -⟩
      rw [(byName_some hn).mpr ⟨hs, hsn⟩] at h; cases h
  | some s =>
    obtain ⟨hs, hsn⟩ := (byName_some hn).mp h
    constructor
    · exact fun hp => ⟨s, hs, hsn, hp⟩
    · rintro ⟨t, ht, htn, hp⟩
      rw [(byName_some hn).mpr ⟨ht, htn⟩] at h
      cases h
      exact hp

/-- The searches' trails are the chains of the registrations. -/
theorem trail_iff_chain (hn : (services.map (·.name)).Nodup) {entries : List String} {a : String} {p : List String}
    {c : String} : Trail (byName services).deps ((byName services).is Service.isTransient) entries a p c ↔
      Chain services entries a p c := by
  constructor
  · intro h
    induction h with
    | entry hc => exact .entry hc
    | step _ hb hc ih =>
      obtain ⟨u, hu, hun, ht⟩ := (byName_is hn).mp hb
      obtain ⟨v, hv, hvn, hd⟩ := (byName_deps hn).mp hc
      have : u = v := Option.some.inj (((byName_some hn).mpr ⟨hu, hun⟩).symm.trans ((byName_some hn).mpr ⟨hv, hvn⟩))
      subst this
      exact .step ih hu hun (by simpa [Service.isTransient] using ht) hd
  · intro h
    induction h with
    | entry hc => exact .entry hc
    | step _ hu hun ht hc ih =>
      exact .step ih ((byName_is hn).mpr ⟨_, hu, hun, by simp [Service.isTransient, ht]⟩)
        ((byName_deps hn).mpr ⟨_, hu, hun, hc⟩)

theorem mem_singletons {s : Service} : s ∈ singletons services ↔ s ∈ services ∧ s.lifetime = .singleton := by
  simp [singletons]

theorem nodup_singletons (hn : (services.map (·.name)).Nodup) : ((singletons services).map (·.name)).Nodup :=
  List.Nodup.sublist (List.Sublist.map _ List.filter_sublist) hn

/-- The nodes a search may expand are registered. -/
theorem follow_mem (hn : (services.map (·.name)).Nodup) {u : String}
    (h : (byName services).is Service.isTransient u = true) : u ∈ services.map (·.name) := by
  obtain ⟨s, hs, rfl, -⟩ := (byName_is hn).mp h
  exact List.mem_map.mpr ⟨s, hs, rfl⟩

/-! ## Joining the singletons' reports -/

theorem mem_sortBy {γ : Type} (key : γ → SortKey) {fs : List γ} {f : γ} : f ∈ sortBy key fs ↔ f ∈ fs :=
  (List.mergeSort_perm fs _).mem_iff

theorem nodup_map_sortBy {γ κ : Type} (key : γ → SortKey) (g : γ → κ) {fs : List γ} :
    ((sortBy key fs).map g).Nodup ↔ (fs.map g).Nodup :=
  ((List.mergeSort_perm fs _).map g).nodup_iff

/-- `eachOf` over elements whose results satisfy `P`, the keys of each result tagged by its element. -/
theorem eachOf_ok {β γ κ τ : Type} {f : β → Option (List γ)} {P : β → List γ → Prop} {key : γ → κ} {tag : β → τ}
    {owner : κ → τ} {l : List β} (h : ∀ b ∈ l, ∃ xs, f b = some xs ∧ P b xs) (hl : (l.map tag).Nodup)
    (hk : ∀ b ∈ l, ∀ xs, P b xs → (xs.map key).Nodup ∧ ∀ y ∈ xs, owner (key y) = tag b) :
    ∃ out, eachOf f l = some out ∧ (∀ y ∈ out, ∃ b ∈ l, ∃ xs, P b xs ∧ y ∈ xs) ∧
      (∀ b ∈ l, ∃ xs, P b xs ∧ ∀ y ∈ xs, y ∈ out) ∧ (out.map key).Nodup := by
  induction l with
  | nil => exact ⟨[], rfl, fun y hy => absurd hy List.not_mem_nil, fun b hb => absurd hb List.not_mem_nil, List.nodup_nil⟩
  | cons b l ih =>
    rw [List.map_cons, List.nodup_cons] at hl
    obtain ⟨xs, hxs, hp⟩ := h b List.mem_cons_self
    obtain ⟨ys, hys, hfrom, hto, hnd⟩ := ih (fun c hc => h c (List.mem_cons_of_mem _ hc)) hl.2
      (fun c hc => hk c (List.mem_cons_of_mem _ hc))
    refine ⟨xs ++ ys, by simp only [eachOf, hxs, hys], ?_, ?_, ?_⟩
    · intro y hy
      rcases List.mem_append.mp hy with hy | hy
      · exact ⟨b, List.mem_cons_self, xs, hp, hy⟩
      · obtain ⟨c, hc, zs, hz⟩ := hfrom y hy
        exact ⟨c, List.mem_cons_of_mem _ hc, zs, hz⟩
    · intro c hc
      rcases List.mem_cons.mp hc with rfl | hc
      · exact ⟨xs, hp, fun y hy => List.mem_append_left _ hy⟩
      · obtain ⟨zs, hz, hall⟩ := hto c hc
        exact ⟨zs, hz, fun y hy => List.mem_append_right _ (hall y hy)⟩
    · obtain ⟨hxnd, hxo⟩ := hk b List.mem_cons_self xs hp
      rw [List.map_append, List.nodup_append]
      refine ⟨hxnd, hnd, ?_⟩
      intro k hkx k' hky e
      subst e
      obtain ⟨x, hx, rfl⟩ := List.mem_map.mp hkx
      obtain ⟨y, hy, hyk⟩ := List.mem_map.mp hky
      obtain ⟨c, hc, zs, hz, hyz⟩ := hfrom y hy
      have hc' := (hk c (List.mem_cons_of_mem _ hc) zs hz).2 y hyz
      rw [hyk, hxo x hx] at hc'
      exact hl.1 (List.mem_map.mpr ⟨c, hc, hc'.symm⟩)

/-! ## Each rule -/

/-- A rule that reports, for each singleton, the exact ends of its trails. -/
theorem captures_of_exact {F : Type} (hn : (services.map (·.name)).Nodup)
    {search : Service → Option (List (String × List String))}
    {entries : Service → List String} {goal : Service → Bool} {make : Service → String × List String → F}
    {pair : F → String × String} {path : F → List String} (key : F → SortKey)
    (hpair : ∀ s e, pair (make s e) = (s.name, e.1)) (hpath : ∀ s e, path (make s e) = e.2)
    (hs : ∀ s ∈ singletons services, ∃ found, search s = some found ∧
      Exact ((byName services).is goal)
        (Trail (byName services).deps ((byName services).is Service.isTransient) (entries s) s.name) found) :
    ∃ fs, (eachOf (fun s => (search s).map fun found => found.map (make s)) (singletons services)).map (sortBy key)
        = some fs ∧ Captures services entries (goal · = true) pair path fs := by
  obtain ⟨out, hrun, hfrom, hto, hnd⟩ := @eachOf_ok _ _ _ _
    (fun s => (search s).map fun found => found.map (make s))
    (fun s xs => ∃ found, xs = found.map (make s) ∧ Exact ((byName services).is goal)
      (Trail (byName services).deps ((byName services).is Service.isTransient) (entries s) s.name) found)
    pair (·.name) Prod.fst (singletons services)
    (fun s hm => by
      obtain ⟨found, hf, hex⟩ := hs s hm
      exact ⟨_, by rw [hf]; rfl, found, rfl, hex⟩)
    (nodup_singletons hn)
    (fun s _ xs => by
      rintro ⟨found, rfl, hex⟩
      refine ⟨?_, ?_⟩
      · have : (found.map (make s)).map pair = (found.map Prod.fst).map fun c => (s.name, c) := by
          simp only [List.map_map, Function.comp_def, hpair]
        rw [this]
        exact hex.once.map fun a b h => (Prod.mk.inj h).2
      · intro y hy
        obtain ⟨e, -, rfl⟩ := List.mem_map.mp hy
        rw [hpair])
  refine ⟨sortBy key out, by rw [hrun]; rfl, ?_, ?_, (nodup_map_sortBy key pair).mpr hnd⟩
  · intro f hf
    obtain ⟨s, hsm, xs, ⟨found, rfl, hex⟩, hfx⟩ := hfrom f ((mem_sortBy key).mp hf)
    obtain ⟨e, he, rfl⟩ := List.mem_map.mp hfx
    obtain ⟨hhit, htr⟩ := hex.sound e he
    refine ⟨s, (mem_singletons.mp hsm).1, (mem_singletons.mp hsm).2, by rw [hpair], ?_, ?_⟩
    · rw [hpair]; exact (byName_is hn).mp hhit
    · rw [hpair, hpath]; exact (trail_iff_chain hn).mp htr
  · intro s hsm hl p c hch hreg
    obtain ⟨xs, ⟨found, rfl, hex⟩, hall⟩ := hto s (mem_singletons.mpr ⟨hsm, hl⟩)
    have hc := hex.complete p c ((trail_iff_chain hn).mpr hch) ((byName_is hn).mpr hreg)
    obtain ⟨e, he, rfl⟩ := List.mem_map.mp hc
    exact ⟨make s e, (mem_sortBy key).mpr (hall _ (List.mem_map_of_mem he)), hpair s e⟩

theorem exists_bound {β : Type} (g : β → Nat) (l : List β) : ∃ n, ∀ b ∈ l, g b < n := by
  induction l with
  | nil => exact ⟨0, fun b hb => absurd hb List.not_mem_nil⟩
  | cons b l ih =>
    obtain ⟨n, hn⟩ := ih
    refine ⟨max (g b + 1) n, fun c hc => ?_⟩
    rcases List.mem_cons.mp hc with rfl | hc
    · omega
    · have := hn c hc; omega

theorem captures_congr {F : Type} {entries entries' : Service → List String} {goal goal' : Service → Prop}
    {pair : F → String × String} {path : F → List String} {fs : List F}
    (h : Captures services entries goal pair path fs) (he : ∀ s ∈ services, entries s = entries' s)
    (hg : ∀ t, goal t ↔ goal' t) : Captures services entries' goal' pair path fs := by
  have hreg : ∀ c, Registered services goal c ↔ Registered services goal' c := fun c => by
    unfold Registered; simp only [hg]
  refine ⟨fun f hf => ?_, fun s hs hl p c hch hr => ?_, h.once⟩
  · obtain ⟨s, hs, hl, hn, hr, hch⟩ := h.sound f hf
    exact ⟨s, hs, hl, hn, (hreg _).mp hr, he s hs ▸ hch⟩
  · exact h.complete s hs hl p c (he s hs ▸ hch) ((hreg c).mpr hr)

theorem deps_singleton (hn : (services.map (·.name)).Nodup) {s : Service} (hs : s ∈ services) :
    (byName services).deps s.name = s.deps := by
  unfold Registry.deps
  rw [(byName_some hn).mpr ⟨hs, rfl⟩]

theorem isScoped_iff (t : Service) : t.isScoped = true ↔ t.lifetime = .scoped := by simp [Service.isScoped]

theorem isTransientDisposable_iff (t : Service) :
    t.isTransientDisposable = true ↔ t.lifetime = .transient ∧ t.disposable = true := by
  simp [Service.isTransientDisposable, Service.isTransient]

/-- The searches over edges, of DI001 and DI003. -/
theorem edgeRule_ok (hn : (services.map (·.name)).Nodup) (goal : Service → Bool) :
    ∃ n, ∀ fuel ≥ n, ∀ s ∈ singletons services, ∃ found,
      edgeSearch (byName services).deps ((byName services).is goal) ((byName services).is Service.isTransient) fuel
        ⟨[(s.name, [s.name])], [], [], []⟩ = some found ∧
      Exact ((byName services).is goal)
        (Trail (byName services).deps ((byName services).is Service.isTransient) ((byName services).deps s.name) s.name)
        found := by
  obtain ⟨n, hb⟩ := exists_bound
    (fun s : Service => (⟨[(s.name, [s.name])], [], [], []⟩ : Tour String).left (services.map (·.name)))
    (singletons services)
  refine ⟨n, fun fuel hf s hs => ?_⟩
  exact edgeSearch_exact (fun u hu => follow_mem hn hu) s.name (Nat.lt_of_lt_of_le (hb s hs) hf)

/-- The searches of popped nodes, of DI002 and DI004. -/
theorem popRule_ok (hn : (services.map (·.name)).Nodup) (goal : Service → Bool) (entries : Service → List String) :
    ∃ n, ∀ fuel ≥ n, ∀ s ∈ singletons services, ∃ found,
      popSearch (byName services).deps ((byName services).is goal) ((byName services).is Service.isTransient) fuel
        ⟨onward [s.name] (entries s), [], [], []⟩ = some found ∧
      Exact ((byName services).is goal)
        (Trail (byName services).deps ((byName services).is Service.isTransient) (entries s) s.name) found := by
  obtain ⟨n, hb⟩ := exists_bound
    (fun s : Service => owing (byName services).deps (services.map (·.name)) (onward [s.name] (entries s)) [])
    (singletons services)
  refine ⟨n, fun fuel hf s hs => ?_⟩
  exact popSearch_exact (fun u hu => follow_mem hn hu) (entries s) s.name (Nat.lt_of_lt_of_le (hb s hs) hf)

/-! ## DI005 -/

theorem trail_second {α : Type} {succ : α → List α} {follow : α → Bool} {entry a : α} {p : List α} {c : α}
    (h : Trail succ follow [entry] a p c) : p[1]? = some entry := by
  have hshape : ∃ q, p = a :: entry :: q := by
    induction h with
    | entry hc => exact ⟨[], by rw [List.mem_singleton.mp hc]⟩
    | step _ _ _ ih =>
      obtain ⟨q, rfl⟩ := ih
      exact ⟨_, rfl⟩
  obtain ⟨q, rfl⟩ := hshape
  rfl

/-- One singleton's cached entries: each with an outcome is reported at most once, with it. -/
theorem cachedEntries_ok {search : String → Option (Option (String × List String))} {s : Service} {hit : String → Bool}
    {trail : String → List String → String → Prop}
    (hsecond : ∀ entry p c, trail entry p c → p[1]? = some entry) :
    ∀ (entries reported : List String), (∀ entry ∈ entries, ∃ r, search entry = some r ∧ Outcome hit (trail entry) r) →
      ∃ fs, cachedEntries search s reported entries = some fs ∧
        (∀ f ∈ fs, ∃ entry ∈ entries, entry ∉ reported ∧ ∃ e, f = s.cached entry e ∧ hit e.1 = true ∧
          trail entry e.2 e.1) ∧
        (∀ entry ∈ entries, entry ∉ reported → ∀ p c, trail entry p c → hit c = true →
          ∃ f ∈ fs, f.path[1]? = some entry) ∧
        (fs.map fun f => f.path[1]?).Nodup := by
  intro entries
  induction entries with
  | nil =>
    intro reported _
    exact ⟨[], rfl, fun f hf => absurd hf List.not_mem_nil, fun e he => absurd he List.not_mem_nil, List.nodup_nil⟩
  | cons entry entries ih =>
    intro reported hsearch
    have hrest : ∀ e ∈ entries, ∃ r, search e = some r ∧ Outcome hit (trail e) r :=
      fun e he => hsearch e (List.mem_cons_of_mem _ he)
    unfold cachedEntries
    by_cases hr : entry ∈ reported
    · rw [if_pos hr]
      obtain ⟨fs, hrun, hfrom, hto, hnd⟩ := ih reported hrest
      refine ⟨fs, hrun, ?_, ?_, hnd⟩
      · intro f hf
        obtain ⟨x, hx, h⟩ := hfrom f hf
        exact ⟨x, List.mem_cons_of_mem _ hx, h⟩
      · intro x hx hxr
        rcases List.mem_cons.mp hx with rfl | hx
        · exact absurd hr hxr
        · exact hto x hx hxr
    · rw [if_neg hr]
      obtain ⟨r, hr', hout⟩ := hsearch entry List.mem_cons_self
      rw [hr']
      cases r with
      | none =>
        obtain ⟨fs, hrun, hfrom, hto, hnd⟩ := ih reported hrest
        refine ⟨fs, hrun, ?_, ?_, hnd⟩
        · intro f hf
          obtain ⟨x, hx, h⟩ := hfrom f hf
          exact ⟨x, List.mem_cons_of_mem _ hx, h⟩
        · intro x hx hxr p c hp hc
          rcases List.mem_cons.mp hx with rfl | hx
          · rw [hout p c hp] at hc; cases hc
          · exact hto x hx hxr p c hp hc
      | some e =>
        obtain ⟨hhit, htr⟩ := hout
        obtain ⟨fs, hrun, hfrom, hto, hnd⟩ := ih (entry :: reported) hrest
        have hpath : (s.cached entry e).path[1]? = some entry := hsecond _ _ _ htr
        refine ⟨s.cached entry e :: fs, by rw [hrun]; rfl, ?_, ?_, ?_⟩
        · intro f hf
          rcases List.mem_cons.mp hf with rfl | hf
          · exact ⟨entry, List.mem_cons_self, hr, e, rfl, hhit, htr⟩
          · obtain ⟨x, hx, hxr, h⟩ := hfrom f hf
            exact ⟨x, List.mem_cons_of_mem _ hx, fun h => hxr (List.mem_cons_of_mem _ h), h⟩
        · intro x hx hxr p c hp hc
          by_cases he : x = entry
          · subst he
            exact ⟨_, List.mem_cons_self, hpath⟩
          · rcases List.mem_cons.mp hx with rfl | hx
            · exact absurd rfl he
            · have hxr' : x ∉ entry :: reported := by
                intro h
                rcases List.mem_cons.mp h with h | h
                · exact he h
                · exact hxr h
              obtain ⟨f, hf, hfp⟩ := hto x hx hxr' p c hp hc
              exact ⟨f, List.mem_cons_of_mem _ hf, hfp⟩
        · rw [List.map_cons, List.nodup_cons]
          refine ⟨fun hm => ?_, hnd⟩
          obtain ⟨f, hf, hfp⟩ := List.mem_map.mp hm
          obtain ⟨x, -, hxr, e', rfl, -, htr'⟩ := hfrom f hf
          have hx : (s.cached x e').path[1]? = some x := hsecond _ _ _ htr'
          have hfp : (s.cached x e').path[1]? = (s.cached entry e).path[1]? := hfp
          rw [hx, hpath] at hfp
          exact hxr (List.mem_cons.mpr (Or.inl (Option.some.inj hfp)))

theorem scopeCached_ok (hn : (services.map (·.name)).Nodup) :
    ∃ n, ∀ fuel ≥ n, ∃ fs, findScopeCachedCaptives fuel services = some fs ∧ CachesCapture services fs := by
  have hb : ∃ n, ∀ s ∈ singletons services, ∀ entry,
      owing (byName services).deps (services.map (·.name)) (onward [s.name] [entry]) [] < n := by
    refine ⟨1 + pushes (byName services).deps (services.map (·.name)) [] + 1, fun s _ entry => ?_⟩
    unfold owing onward
    simp only [List.length_reverse, List.length_map, List.length_singleton]
    omega
  obtain ⟨n, hb⟩ := hb
  refine ⟨n, fun fuel hf => ?_⟩
  let trail := fun (s : Service) (entry : String) =>
    Trail (byName services).deps ((byName services).is Service.isTransient) [entry] s.name
  obtain ⟨out, hrun, hfrom, hto, hnd⟩ := @eachOf_ok _ _ _ _
    (fun s => cachedEntries (fun entry => firstHit (byName services).deps ((byName services).is Service.isScoped)
      ((byName services).is Service.isTransient) fuel (onward [s.name] [entry]) []) s [] s.scopeCached)
    (fun s fs =>
      (∀ f ∈ fs, ∃ entry ∈ s.scopeCached, entry ∉ ([] : List String) ∧ ∃ e, f = s.cached entry e ∧
        (byName services).is Service.isScoped e.1 = true ∧ trail s entry e.2 e.1) ∧
      (∀ entry ∈ s.scopeCached, entry ∉ ([] : List String) → ∀ p c, trail s entry p c →
        (byName services).is Service.isScoped c = true → ∃ f ∈ fs, f.path[1]? = some entry) ∧
      (fs.map fun f => f.path[1]?).Nodup)
    (fun f : ScopeCachedCaptive => (f.singleton, f.path[1]?)) (·.name) Prod.fst (singletons services)
    (fun s hs => cachedEntries_ok (fun entry p c h => trail_second h) s.scopeCached [] fun entry _ =>
      firstHit_exact (fun u hu => follow_mem hn hu) [entry] s.name (Nat.lt_of_lt_of_le (hb s hs entry) hf))
    (nodup_singletons hn)
    (fun s _ fs h => by
      obtain ⟨hfrom, -, hnd⟩ := h
      have hname : ∀ f ∈ fs, f.singleton = s.name := by
        intro f hf
        obtain ⟨entry, -, -, e, rfl, -⟩ := hfrom f hf
        rfl
      refine ⟨?_, fun f hf => hname f hf⟩
      have : fs.map (fun f => (f.singleton, f.path[1]?)) = (fs.map fun f => f.path[1]?).map fun x => (s.name, x) := by
        rw [List.map_map]
        exact List.map_congr_left fun f hf => by simp [hname f hf]
      rw [this]
      exact hnd.map fun a b h => (Prod.mk.inj h).2)
  refine ⟨sortBy ScopeCachedCaptive.key out, by unfold findScopeCachedCaptives; simp only [hrun, Option.map_some], ?_, ?_, ?_⟩
  · intro f hfm
    obtain ⟨s, hsm, fs, ⟨hfr, -, -⟩, hff⟩ := hfrom f ((mem_sortBy _).mp hfm)
    obtain ⟨entry, hentry, -, e, rfl, hhit, htr⟩ := hfr f hff
    obtain ⟨t, ht, htn, hts⟩ := (byName_is hn).mp hhit
    exact ⟨s, (mem_singletons.mp hsm).1, (mem_singletons.mp hsm).2, rfl, ⟨t, ht, htn, (isScoped_iff t).mp hts⟩,
      entry, hentry, trail_second htr, (trail_iff_chain hn).mp htr⟩
  · intro s hs hl entry hentry p c hch hreg
    obtain ⟨t, ht, htn, hts⟩ := hreg
    obtain ⟨fs, ⟨hfr, hcov, -⟩, hall⟩ := hto s (mem_singletons.mpr ⟨hs, hl⟩)
    obtain ⟨f, hff, hfp⟩ := hcov entry hentry List.not_mem_nil p c ((trail_iff_chain hn).mpr hch)
      ((byName_is hn).mpr ⟨t, ht, htn, (isScoped_iff t).mpr hts⟩)
    obtain ⟨_, -, -, e, rfl, -⟩ := hfr f hff
    exact ⟨_, (mem_sortBy _).mpr (hall _ hff), rfl, hfp⟩
  · exact (nodup_map_sortBy _ _).mpr hnd

/-! ## All five -/

def CaptiveDependency.pair (f : CaptiveDependency) : String × String := (f.singleton, f.captured)
def ExplicitRootResolution.pair (f : ExplicitRootResolution) : String × String := (f.singleton, f.resolved)

theorem captive_pair (s : Service) (e : String × List String) : (s.captive e).pair = (s.name, e.1) := rfl

theorem captive_path (s : Service) (e : String × List String) : (s.captive e).path = e.2 := rfl

theorem resolution_pair (s : Service) (e : String × List String) : (s.resolution e).pair = (s.name, e.1) := rfl

theorem resolution_path (s : Service) (e : String × List String) : (s.resolution e).path = e.2 := rfl

theorem captive_ok (hn : (services.map (·.name)).Nodup) : ∃ n, ∀ fuel ≥ n, ∃ fs,
    findCaptiveDependencies fuel services = some fs ∧
      Captures services (·.deps) (fun t => t.lifetime = .scoped) CaptiveDependency.pair (·.path) fs := by
  obtain ⟨n, h⟩ := edgeRule_ok hn Service.isScoped
  refine ⟨n, fun fuel hf => ?_⟩
  obtain ⟨fs, hrun, hc⟩ := captures_of_exact hn CaptiveDependency.key captive_pair captive_path (h fuel hf)
  exact ⟨fs, hrun, captures_congr hc (fun s hs => deps_singleton hn hs) isScoped_iff⟩

theorem weakCaptive_ok (hn : (services.map (·.name)).Nodup) : ∃ n, ∀ fuel ≥ n, ∃ fs,
    findWeakCaptiveDependencies fuel services = some fs ∧
      Captures services (·.weakDeps) (fun t => t.lifetime = .scoped) CaptiveDependency.pair (·.path) fs := by
  obtain ⟨n, h⟩ := popRule_ok hn Service.isScoped (·.weakDeps)
  refine ⟨n, fun fuel hf => ?_⟩
  obtain ⟨fs, hrun, hc⟩ := captures_of_exact hn CaptiveDependency.key captive_pair captive_path (h fuel hf)
  exact ⟨fs, hrun, captures_congr hc (fun s _ => rfl) isScoped_iff⟩

theorem capturedTransient_ok (hn : (services.map (·.name)).Nodup) : ∃ n, ∀ fuel ≥ n, ∃ fs,
    findCapturedTransientDisposables fuel services = some fs ∧
      Captures services (·.deps) (fun t => t.lifetime = .transient ∧ t.disposable = true) CaptiveDependency.pair
        (·.path) fs := by
  obtain ⟨n, h⟩ := edgeRule_ok hn Service.isTransientDisposable
  refine ⟨n, fun fuel hf => ?_⟩
  obtain ⟨fs, hrun, hc⟩ := captures_of_exact hn CaptiveDependency.key captive_pair captive_path (h fuel hf)
  exact ⟨fs, hrun, captures_congr hc (fun s hs => deps_singleton hn hs) isTransientDisposable_iff⟩

theorem rootResolution_ok (hn : (services.map (·.name)).Nodup) : ∃ n, ∀ fuel ≥ n, ∃ fs,
    findExplicitRootResolutions fuel services = some fs ∧
      Captures services (·.rootResolves) (fun t => t.lifetime = .transient ∧ t.disposable = true)
        ExplicitRootResolution.pair (·.path) fs := by
  obtain ⟨n, h⟩ := popRule_ok hn Service.isTransientDisposable (·.rootResolves)
  refine ⟨n, fun fuel hf => ?_⟩
  obtain ⟨fs, hrun, hc⟩ := captures_of_exact hn ExplicitRootResolution.key resolution_pair resolution_path (h fuel hf)
  exact ⟨fs, hrun, captures_congr hc (fun s _ => rfl) isTransientDisposable_iff⟩

/-- Every rule returns, and reports exactly the ends of the chains of its kind. -/
theorem lifetimes_exact (services : List Service) (hn : (services.map (·.name)).Nodup) :
    ∃ n, ∀ fuel ≥ n,
      (∃ fs, findCaptiveDependencies fuel services = some fs ∧
        Captures services (·.deps) (fun t => t.lifetime = .scoped) CaptiveDependency.pair (·.path) fs) ∧
      (∃ fs, findWeakCaptiveDependencies fuel services = some fs ∧
        Captures services (·.weakDeps) (fun t => t.lifetime = .scoped) CaptiveDependency.pair (·.path) fs) ∧
      (∃ fs, findCapturedTransientDisposables fuel services = some fs ∧
        Captures services (·.deps) (fun t => t.lifetime = .transient ∧ t.disposable = true) CaptiveDependency.pair
          (·.path) fs) ∧
      (∃ fs, findExplicitRootResolutions fuel services = some fs ∧
        Captures services (·.rootResolves) (fun t => t.lifetime = .transient ∧ t.disposable = true)
          ExplicitRootResolution.pair (·.path) fs) ∧
      (∃ fs, findScopeCachedCaptives fuel services = some fs ∧ CachesCapture services fs) := by
  obtain ⟨n1, h1⟩ := captive_ok hn
  obtain ⟨n2, h2⟩ := weakCaptive_ok hn
  obtain ⟨n3, h3⟩ := capturedTransient_ok hn
  obtain ⟨n4, h4⟩ := rootResolution_ok hn
  obtain ⟨n5, h5⟩ := scopeCached_ok hn
  refine ⟨n1 + n2 + n3 + n4 + n5, fun fuel hf => ⟨h1 fuel ?_, h2 fuel ?_, h3 fuel ?_, h4 fuel ?_, h5 fuel ?_⟩⟩
  all_goals omega

namespace Example

/-- A singleton, a transient cycle under it, and the scoped service the cycle drags in. -/
def shop : List Service :=
  [{ name := "Cache", lifetime := .singleton, deps := ["Repo"], weakDeps := ["Repo"], rootResolves := ["Repo"],
     scopeCached := ["Repo", "Db"] },
   { name := "Repo", lifetime := .transient, deps := ["Audit", "Db"], disposable := true },
   { name := "Audit", lifetime := .transient, deps := ["Repo"] },
   { name := "Db", lifetime := .scoped }]

end Example

theorem lifetimes_exact_shop : ∃ n, ∀ fuel ≥ n, ∃ fs, findCaptiveDependencies fuel Example.shop = some fs ∧
    Captures Example.shop (·.deps) (fun t => t.lifetime = .scoped) CaptiveDependency.pair (·.path) fs := by
  obtain ⟨n, h⟩ := lifetimes_exact Example.shop (by decide)
  exact ⟨n, fun fuel hf => (h fuel hf).1⟩

end OwnNet.Di
