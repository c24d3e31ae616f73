/-
  OwnNet.Audit.OrderFree — what the audit's scoring takes from the order of the findings.

  The findings of one file are laid out by line, so a finding that is near a cluster is near the
  last one: the clusters of a file are its lines cut where the gap is over the tolerance. A
  cluster's first member is one of those on its lowest line, and its gravest is the first of the
  equally grave: which ones is the order's.

  Proved: the clusters are the connected components of nearness within a file key
  (`memberships_clustered`), whatever the order; a cluster's module is its own where its lowest
  line has one, its category's name where its gravest members have one, and then the roll-up is
  too (`score_order_free`).
-/

import Mathlib.Data.List.Chain
import OwnNet.Audit.Score
import OwnNet.Graph.Clusters
import OwnNet.Sorting

namespace OwnNet.Audit

open OwnNet.Graph

/-! ## One file -/

section OneFile

variable {tol : Int}

/-- Sorted findings cut into clusters where the gap is over the tolerance. -/
structure Laid (tol : Int) (done : List AuditFinding) (cs : List Members) : Prop where
  covers : (cs.map Members.all).flatten = done
  chain : ∀ c ∈ cs, c.all.IsChain fun f g => within tol f g = true
  apart : cs.Pairwise fun c d => ∀ x ∈ c.all, ∀ y ∈ d.all, tol < y.line - x.line

theorem within_symm (f g : AuditFinding) : within tol f g = within tol g f := by
  unfold within
  rw [abs_sub_comm]

theorem within_of_le {f g : AuditFinding} (h : g.line ≤ f.line) : within tol f g = true ↔ f.line - g.line ≤ tol := by
  rw [within, decide_eq_true_iff, abs_of_nonneg (by omega)]

theorem Members.all_push (c : Members) (f : AuditFinding) : (c.push f).all = c.all ++ [f] := rfl

/-- A finding passes over the clusters that are not near it. -/
theorem place_append {before after : List Members} {f : AuditFinding} (h : ∀ c ∈ before, ∀ g ∈ c.all, within tol f g = false) :
    place tol (before ++ after) f = before ++ place tol after f := by
  induction before with
  | nil => rfl
  | cons c before ih =>
    have hno : c.all.any (fun g => within tol f g) = false := by
      simpa using h c List.mem_cons_self
    rw [List.cons_append, place, if_neg (by simp [hno]), ih fun d hd => h d (List.mem_cons_of_mem _ hd), List.cons_append]

namespace Laid

variable {done : List AuditFinding} {cs before : List Members} {c : Members} {f : AuditFinding}

theorem mem (h : Laid tol done cs) (hc : c ∈ cs) {x : AuditFinding} (hx : x ∈ c.all) : x ∈ done :=
  h.covers ▸ List.mem_flatten.mpr ⟨c.all, List.mem_map_of_mem hc, hx⟩

theorem covers_last (h : Laid tol done (before ++ [c])) : (before.map Members.all).flatten ++ c.all = done := by
  simpa using h.covers

theorem le_last (h : Laid tol done (before ++ [c])) (hf : ∀ g ∈ done, g.line ≤ f.line) : ∀ g ∈ c.all, g.line ≤ f.line :=
  fun g hg => hf g (h.mem (List.mem_append_right _ List.mem_cons_self) hg)

/-- A later line is over the tolerance from every cluster but the last. -/
theorem far (h : Laid tol done (before ++ [c])) (hf : ∀ g ∈ done, g.line ≤ f.line) :
    ∀ d ∈ before, ∀ x ∈ d.all, tol < f.line - x.line := by
  intro d hd x hx
  have hgap := (List.pairwise_append.mp h.apart).2.2 d hd c List.mem_cons_self x hx c.first List.mem_cons_self
  have hfirst := h.le_last hf c.first List.mem_cons_self
  omega

theorem skips (h : Laid tol done (before ++ [c])) (hf : ∀ g ∈ done, g.line ≤ f.line) :
    Audit.place tol (before ++ [c]) f = before ++ Audit.place tol [c] f := by
  refine place_append fun d hd x hx => ?_
  have hgap := h.far hf d hd x hx
  rw [Bool.eq_false_iff, ne_eq, within_of_le (hf x (h.mem (List.mem_append_left _ hd) hx))]
  omega

/-- What is near a member of the last cluster is near its last member. -/
theorem near_end (h : Laid tol done (before ++ [c])) (hsorted : done.Pairwise fun g g' => g.line ≤ g'.line)
    (hf : ∀ g ∈ done, g.line ≤ f.line)
    {g : AuditFinding} (hg : g ∈ c.all) (hnear : within tol f g = true) : ∀ x ∈ c.all.getLast?, within tol x f = true := by
  intro x hx
  obtain ⟨init, hinit⟩ := List.getLast?_eq_some_iff.mp hx
  have hc : c.all.Pairwise fun g g' => g.line ≤ g'.line := by
    rw [← h.covers_last] at hsorted
    exact (List.pairwise_append.mp hsorted).2.1
  have hle := h.le_last hf
  have hgx : g.line ≤ x.line := by
    rw [hinit] at hc hg
    rcases List.mem_append.mp hg with hg | hg
    · exact (List.pairwise_append.mp hc).2.2 g hg x List.mem_cons_self
    · exact (List.mem_singleton.mp hg) ▸ le_refl _
  have hgap := (within_of_le (hle g hg)).mp hnear
  rw [within_symm, within_of_le (hle x (List.mem_of_getLast? hx))]
  omega

theorem push (h : Laid tol done (before ++ [c])) (hsorted : done.Pairwise fun g g' => g.line ≤ g'.line)
    (hf : ∀ g ∈ done, g.line ≤ f.line)
    {g : AuditFinding} (hg : g ∈ c.all) (hnear : within tol f g = true) : Laid tol (done ++ [f]) (before ++ [c.push f]) where
  covers := by
    rw [← h.covers_last]
    simp [Members.all_push]
  chain := by
    intro d hd
    rcases List.mem_append.mp hd with hd | hd
    · exact h.chain d (List.mem_append_left _ hd)
    · rw [List.mem_singleton.mp hd, Members.all_push, List.isChain_append]
      refine ⟨h.chain c (List.mem_append_right _ List.mem_cons_self), List.isChain_singleton f, fun x hx y hy => ?_⟩
      simp only [List.head?_cons, Option.mem_some_iff] at hy
      exact hy ▸ h.near_end hsorted hf hg hnear x hx
  apart := by
    have hpair := List.pairwise_append.mp h.apart
    refine List.pairwise_append.mpr ⟨hpair.1, List.pairwise_singleton _ _, fun d hd e he x hx y hy => ?_⟩
    rw [List.mem_singleton.mp he, Members.all_push] at hy
    rcases List.mem_append.mp hy with hy | hy
    · exact hpair.2.2 d hd c List.mem_cons_self x hx y hy
    · exact (List.mem_singleton.mp hy) ▸ h.far hf d hd x hx

theorem own (h : Laid tol done (before ++ [c])) (hf : ∀ g ∈ done, g.line ≤ f.line) (hfar : ∀ g ∈ c.all, within tol f g ≠ true) :
    Laid tol (done ++ [f]) (before ++ [c] ++ [⟨f, []⟩]) where
  covers := by
    rw [← h.covers_last]
    simp [Members.all]
  chain := by
    intro d hd
    rcases List.mem_append.mp hd with hd | hd
    · exact h.chain d hd
    · rw [List.mem_singleton.mp hd]
      exact List.isChain_singleton f
  apart := by
    refine List.pairwise_append.mpr ⟨h.apart, List.pairwise_singleton _ _, fun d hd e he x hx y hy => ?_⟩
    rw [List.mem_singleton.mp he] at hy
    have hyf : y = f := List.mem_singleton.mp hy
    rw [hyf]
    rcases List.mem_append.mp hd with hd | hd
    · exact h.far hf d hd x hx
    · rw [List.mem_singleton.mp hd] at hx
      have hno := hfar x hx
      rw [ne_eq, within_of_le (h.le_last hf x hx)] at hno
      omega

/-- One finding more. -/
theorem place (h : Laid tol done cs) (hsorted : done.Pairwise fun g g' => g.line ≤ g'.line) (hf : ∀ g ∈ done, g.line ≤ f.line) :
    Laid tol (done ++ [f]) (Audit.place tol cs f) := by
  rcases List.eq_nil_or_concat' cs with rfl | ⟨before, c, rfl⟩
  · have hdone : done = [] := h.covers.symm
    subst hdone
    exact ⟨rfl, by simp [Audit.place, Members.all], by simp [Audit.place]⟩
  · rw [h.skips hf, Audit.place]
    by_cases hnear : c.all.any (fun g => within tol f g) = true
    · rw [if_pos hnear]
      obtain ⟨g, hg, hgf⟩ := List.any_eq_true.mp hnear
      exact h.push hsorted hf hg hgf
    · rw [if_neg hnear]
      have hown := h.own hf fun g hg hw => hnear (List.any_eq_true.mpr ⟨g, hg, hw⟩)
      simpa [Audit.place] using hown

end Laid

theorem byLine_sorted (group : List AuditFinding) : (byLine group).Pairwise fun f g => f.line ≤ g.line :=
  List.pairwise_insertionSort _ _

theorem clusterOneFile_laid (tol : Int) (group : List AuditFinding) : Laid tol (byLine group) (clusterOneFile tol group) := by
  have hall : ∀ rest done cs, Laid tol done cs → (done ++ rest).Pairwise (fun f g : AuditFinding => f.line ≤ g.line) →
      Laid tol (done ++ rest) (rest.foldl (place tol) cs) := by
    intro rest
    induction rest with
    | nil => exact fun done cs h _ => by simpa using h
    | cons f rest ih =>
      intro done cs h hsorted
      have hpair := List.pairwise_append.mp hsorted
      rw [List.append_cons] at hsorted ⊢
      exact ih _ _ (h.place hpair.1 fun g hg => hpair.2.2 g hg f List.mem_cons_self) hsorted
  exact hall (byLine group) [] [] ⟨rfl, by simp, by simp⟩ (byLine_sorted group)

end OneFile

/-! ## All files -/

/-- In one file, by its key, and within the tolerance. -/
def Near (lower : String → String) (tol : Int) (f g : AuditFinding) : Prop :=
  f.fkey lower = g.fkey lower ∧ |f.line - g.line| ≤ tol

section AllFiles

variable {lower : String → String} {tol : Int}

theorem Near.symm {f g : AuditFinding} (h : Near lower tol f g) : Near lower tol g f :=
  ⟨h.1.symm, abs_sub_comm f.line g.line ▸ h.2⟩

/-- Under a negative tolerance nothing is near anything, itself included. -/
theorem near_refl_or (lower : String → String) (tol : Int) : (∀ f, Near lower tol f f) ∨ ∀ f g, ¬ Near lower tol f g := by
  by_cases h : 0 ≤ tol
  · exact .inl fun f => ⟨rfl, by simpa using h⟩
  · refine .inr fun f g hfg => ?_
    have hpos := abs_nonneg (f.line - g.line)
    have hle := hfg.2
    omega

theorem clusterOneFile_clustered {group : List AuditFinding} {k : String} (hkey : ∀ f ∈ group, f.fkey lower = k) :
    Clustered (Near lower tol) group ((clusterOneFile tol group).map Members.all) := by
  have h := clusterOneFile_laid tol group
  have hperm : (byLine group).Perm group := List.perm_insertionSort _ _
  have hin : ∀ c ∈ clusterOneFile tol group, ∀ f ∈ c.all, f.fkey lower = k :=
    fun c hc f hf => hkey f (hperm.mem_iff.mp (h.mem hc hf))
  refine ⟨?_, h.covers ▸ hperm, ?_, ?_⟩
  · intro l hl
    obtain ⟨c, -, rfl⟩ := List.mem_map.mp hl
    exact List.cons_ne_nil _ _
  · intro l hl
    obtain ⟨c, hc, rfl⟩ := List.mem_map.mp hl
    refine connected_of_chain (fun _ _ => Near.symm) ((h.chain c hc).imp_of_mem_imp fun f g hf hg hfg => ?_)
    exact ⟨(hin c hc f hf).trans (hin c hc g hg).symm, by simpa [within] using hfg⟩
  · rw [List.pairwise_map]
    refine h.apart.imp fun {c d} hcd x hx y hy hxy => ?_
    have hgap := hcd x hx y hy
    have hle := hxy.2
    rw [abs_sub_comm] at hle
    have := le_abs_self (y.line - x.line)
    omega

/-- The clusters are the connected components of nearness. -/
theorem memberships_clustered (lower : String → String) (tol : Int) (findings : List AuditFinding) :
    Clustered (Near lower tol) (findings.filter AuditFinding.scored) ((memberships lower tol findings).map Members.all) := by
  let groups := Dict.groups (AuditFinding.fkey lower) (findings.filter AuditFinding.scored)
  have heq : (memberships lower tol findings).map Members.all =
      (groups.map fun g => (clusterOneFile tol g.2).map Members.all).flatten := by
    rw [memberships, List.map_flatMap, List.flatMap_def]
  rw [heq]
  have hperm : (groups.map Prod.snd).flatten.Perm (findings.filter AuditFinding.scored) := Dict.groups_perm _
  refine Clustered.perm (Clustered.flatten ?_ ?_) hperm
  · rw [List.forall₂_map_left_iff, List.forall₂_map_right_iff]
    exact List.forall₂_same.mpr fun g hg => clusterOneFile_clustered fun f hf => Dict.mem_groups hg f hf
  · rw [List.pairwise_map]
    have hnodup : groups.Pairwise fun g g' => g.1 ≠ g'.1 := List.pairwise_map.mp (Dict.groups_nodup _)
    refine hnodup.imp_of_mem fun {g g'} hg hg' hne x hx y hy hxy => ?_
    exact hne ((Dict.mem_groups hg x hx).symm.trans (hxy.1.trans (Dict.mem_groups hg' y hy)))

theorem memberships_sorted {findings : List AuditFinding} {c : Members} (hc : c ∈ memberships lower tol findings) :
    c.all.Pairwise fun f g => f.line ≤ g.line := by
  obtain ⟨g, -, hc⟩ := List.mem_flatMap.mp hc
  have h := clusterOneFile_laid tol g.2
  have hsorted := byLine_sorted g.2
  rw [← h.covers] at hsorted
  exact (List.pairwise_flatten.mp hsorted).1 c.all (List.mem_map_of_mem hc)

/-- Findings in another order make the same clusters. -/
theorem memberships_perm (lower : String → String) (tol : Int) {findings findings' : List AuditFinding}
    (h : findings.Perm findings') :
    SameClusters ((memberships lower tol findings).map Members.all) ((memberships lower tol findings').map Members.all) :=
  Clustered.unique (fun _ _ => Near.symm) (near_refl_or lower tol) (memberships_clustered lower tol findings)
    (memberships_clustered lower tol findings')
    (h.filter _)

end AllFiles

/-! ## One cluster in two orders -/

/-- The members on the lowest line are in one directory. -/
def OneModule (c : Members) : Prop := ∀ f ∈ c.all, f.line = c.first.line → f.module_ = c.first.module_

/-- The members on the lowest line are at one path. -/
def OnePath (c : Members) : Prop := ∀ f ∈ c.all, f.line = c.first.line → f.path = c.first.path

instance (c : Members) : Decidable (OneModule c) :=
  inferInstanceAs (Decidable (∀ f ∈ c.all, f.line = c.first.line → f.module_ = c.first.module_))

instance (c : Members) : Decidable (OnePath c) :=
  inferInstanceAs (Decidable (∀ f ∈ c.all, f.line = c.first.line → f.path = c.first.path))

section Taxonomy

variable (tax : Taxonomy)

/-- The gravest members call their category by one name. -/
def OneName (c : Members) : Prop :=
  ∀ f ∈ c.all, gravity tax f = gravity tax (gravest tax c) → f.categoryName = (gravest tax c).categoryName

instance (c : Members) : Decidable (OneName tax c) :=
  inferInstanceAs (Decidable (∀ f ∈ c.all, gravity tax f = gravity tax (gravest tax c) →
    f.categoryName = (gravest tax c).categoryName))

/-- What no order decides. -/
def Cluster.graded (c : Cluster) : Int × String × String × List String := (c.category, c.severity, c.confidence, c.tools)

variable {tax} {c d : Members}

theorem gravest_spec (c : Members) : gravest tax c ∈ c.all ∧ ∀ f ∈ c.all, gravity tax f ≤ gravity tax (gravest tax c) := by
  have hall : ∀ (rest : List AuditFinding) (best : AuditFinding),
      let m := rest.foldl (fun best f => if gravity tax best < gravity tax f then f else best) best
      m ∈ best :: rest ∧ ∀ f ∈ best :: rest, gravity tax f ≤ gravity tax m := by
    intro rest
    induction rest with
    | nil => simp
    | cons f rest ih =>
      intro best
      simp only [List.foldl_cons]
      by_cases h : gravity tax best < gravity tax f
      · rw [if_pos h]
        obtain ⟨hmem, hmax⟩ := ih f
        refine ⟨List.mem_cons_of_mem _ hmem, fun g hg => ?_⟩
        rcases List.mem_cons.mp hg with rfl | hg
        · exact h.le.trans (hmax f List.mem_cons_self)
        · exact hmax g hg
      · rw [if_neg h]
        obtain ⟨hmem, hmax⟩ := ih best
        refine ⟨?_, fun g hg => ?_⟩
        · rcases List.mem_cons.mp hmem with hb | hr
          · rw [hb]
            exact List.mem_cons_self
          · exact List.mem_cons_of_mem _ (List.mem_cons_of_mem _ hr)
        · rcases List.mem_cons.mp hg with rfl | hg
          · exact hmax _ List.mem_cons_self
          · rcases List.mem_cons.mp hg with rfl | hg
            · exact (not_lt.mp h).trans (hmax best List.mem_cons_self)
            · exact hmax g (List.mem_cons_of_mem _ hg)
  exact hall c.rest c.first

theorem gravity_perm (tax : Taxonomy) (h : c.all.Perm d.all) : gravity tax (gravest tax c) = gravity tax (gravest tax d) :=
  le_antisymm ((gravest_spec d).2 _ (h.mem_iff.mp (gravest_spec c).1)) ((gravest_spec c).2 _ (h.mem_iff.mpr (gravest_spec d).1))

theorem category_perm (tax : Taxonomy) (h : c.all.Perm d.all) : (gravest tax c).category = (gravest tax d).category := by
  have hg := congrArg (fun g => (ofLex g).2) (gravity_perm tax h)
  simp only [gravity, ofLex_toLex] at hg
  omega

theorem tools_perm (h : c.all.Perm d.all) : ((c.all.map AuditFinding.tool).dedup).Perm ((d.all.map AuditFinding.tool).dedup) :=
  (h.map _).dedup

theorem severity_perm (h : c.all.Perm d.all) : (assess tax c).severity = (assess tax d).severity :=
  congrArg tax.severityFor (category_perm tax h)

theorem confidence_perm (h : c.all.Perm d.all) : (assess tax c).confidence = (assess tax d).confidence := by
  simp only [assess, confidenceOf, (tools_perm h).length_eq]

theorem graded_perm (h : c.all.Perm d.all) : (assess tax c).graded = (assess tax d).graded := by
  have hcat : (assess tax c).category = (assess tax d).category := category_perm tax h
  have htools : (assess tax c).tools = (assess tax d).tools := Sorting.sort_perm (tools_perm h)
  simp only [Cluster.graded, hcat, severity_perm h, confidence_perm h, htools]

theorem line_perm (hc : c.all.Pairwise fun f g => f.line ≤ g.line) (hd : d.all.Pairwise fun f g => f.line ≤ g.line)
    (h : c.all.Perm d.all) :
    c.first.line = d.first.line := by
  have hlow : ∀ {c d : Members}, c.all.Pairwise (fun f g => f.line ≤ g.line) → c.all.Perm d.all →
      c.first.line ≤ d.first.line := by
    intro c d hc h
    rcases List.mem_cons.mp (h.mem_iff.mpr (List.mem_cons_self (a := d.first))) with he | hr
    · rw [he]
    · exact (List.pairwise_cons.mp hc).1 _ hr
  exact le_antisymm (hlow hc h) (hlow hd h.symm)

theorem first_mem (h : c.all.Perm d.all) : d.first ∈ c.all := h.mem_iff.mpr List.mem_cons_self

theorem name_perm (hname : OneName tax c) (h : c.all.Perm d.all) : (assess tax c).categoryName = (assess tax d).categoryName :=
  (hname _ (h.mem_iff.mpr (gravest_spec d).1) (gravity_perm tax h).symm).symm

end Taxonomy

/-! ## The roll-up -/

namespace Cluster

/-- A cluster with nothing of its findings but the place of the first. -/
def bare (c : Cluster) : Cluster := { c with findings := ⟨{ tool := "", path := c.path, line := c.line, rule := "" }, []⟩ }

@[simp] theorem bare_rank (c : Cluster) : c.bare.rank = c.rank := rfl

theorem bare_eq {c d : Cluster} (h : c.graded = d.graded) (hn : c.categoryName = d.categoryName)
    (hp : c.path = d.path) (hl : c.line = d.line) :
    c.bare = d.bare := by
  simp only [graded, Prod.mk.injEq] at h
  simp only [bare, hp, hl, h.1, hn, h.2.1, h.2.2.1]

end Cluster

theorem heat_bare (cs : List Cluster) : heat (cs.map Cluster.bare) = heat cs := by
  unfold heat
  rw [List.foldl_map]
  rfl

theorem heatmapOf_bare {cs ds : List Cluster} (h : cs.map Cluster.bare = ds.map Cluster.bare) : heatmapOf cs = heatmapOf ds := by
  unfold heatmapOf
  rw [← heat_bare cs, h, heat_bare ds]

section Score

variable {lower : String → String} {tax : Taxonomy} {tol : Int} {findings findings' : List AuditFinding}

theorem rankedClusters_perm (tax : Taxonomy) (lower : String → String) (tol : Int) (findings : List AuditFinding) :
    (rankedClusters tax lower tol findings).Perm ((memberships lower tol findings).map (assess tax)) :=
  List.perm_insertionSort _ _

/-- What is the same of a cluster in two orders is the same of the scores. -/
theorem clusters_perm {β : Type} (h : findings.Perm findings') {f : Cluster → β}
    (hf : ∀ c ∈ memberships lower tol findings, ∀ d ∈ memberships lower tol findings',
      c.all.Perm d.all → f (assess tax c) = f (assess tax d)) :
    ((score tax lower tol findings).clusters.map f).Perm ((score tax lower tol findings').clusters.map f) := by
  have hmap := (memberships_perm lower tol h).map hf
  have hleft := (rankedClusters_perm tax lower tol findings).map f
  have hright := (rankedClusters_perm tax lower tol findings').map f
  rw [List.map_map] at hleft hright
  exact hleft.trans (hmap.trans hright.symm)

theorem totals_perm (h : findings.Perm findings') :
    (score tax lower tol findings).totals = (score tax lower tol findings').totals := by
  have hconf : ((score tax lower tol findings).clusters.map Cluster.confidence).Perm
      ((score tax lower tol findings').clusters.map Cluster.confidence) :=
    clusters_perm h fun _ _ _ _ hcd => confidence_perm hcd
  have hlen := hconf.length_eq
  rw [List.length_map, List.length_map] at hlen
  have hcount : ∀ p : String → Bool, (score tax lower tol findings).clusters.countP (fun c => p c.confidence) =
      (score tax lower tol findings').clusters.countP fun c => p c.confidence := fun p => by
    have hp := hconf.countP_eq p
    rwa [List.countP_map, List.countP_map] at hp
  simp only [score, Totals.mk.injEq]
  exact ⟨hlen, hcount fun s => s = "high", hcount fun s => s = "candidate"⟩

theorem bySeverity_perm (h : findings.Perm findings') :
    (score tax lower tol findings).bySeverity.Perm (score tax lower tol findings').bySeverity :=
  Dict.counter_perm (clusters_perm h fun _ _ _ _ hcd => severity_perm hcd)

/-- No two clusters have one place, so no two have one rank. -/
theorem ranks_nodup (htol : 0 ≤ tol) : ((rankedClusters tax lower tol findings).map Cluster.rank).Nodup := by
  refine (((rankedClusters_perm tax lower tol findings).map Cluster.rank).nodup_iff).mpr ?_
  rw [List.map_map, List.Nodup, List.pairwise_map]
  have hapart := (memberships_clustered lower tol findings).apart
  rw [List.pairwise_map] at hapart
  refine hapart.imp fun {c d} hcd heq => hcd c.first List.mem_cons_self d.first List.mem_cons_self ?_
  have hplace := congrArg (fun r => ofLex (ofLex (ofLex r).2).2) heq
  simp only [Function.comp_apply, Cluster.rank, ofLex_toLex, Prod.mk.injEq] at hplace
  have hpath : c.first.path = d.first.path := hplace.1
  have hline : c.first.line = d.first.line := hplace.2
  exact ⟨by rw [AuditFinding.fkey, AuditFinding.fkey, hpath], by rw [hline, sub_self, abs_zero]; exact htol⟩

theorem bare_perm (h : findings.Perm findings') (hpath : ∀ c ∈ memberships lower tol findings, OnePath c)
    (hname : ∀ c ∈ memberships lower tol findings, OneName tax c) :
    ((rankedClusters tax lower tol findings).map Cluster.bare).Perm
    ((rankedClusters tax lower tol findings').map Cluster.bare) := by
  refine clusters_perm h fun c hc d hd hcd => ?_
  have hline := line_perm (memberships_sorted hc) (memberships_sorted hd) hcd
  exact Cluster.bare_eq (graded_perm hcd) (name_perm (hname c hc) hcd) (hpath c hc d.first (first_mem hcd) hline.symm).symm hline

theorem heatmap_perm (h : findings.Perm findings') (htol : 0 ≤ tol) (hpath : ∀ c ∈ memberships lower tol findings, OnePath c)
    (hname : ∀ c ∈ memberships lower tol findings, OneName tax c) :
    (score tax lower tol findings).heatmap = (score tax lower tol findings').heatmap := by
  have hsorted : ∀ fs, ((rankedClusters tax lower tol fs).map Cluster.bare).Pairwise fun c d => c.rank ≤ d.rank := fun fs => by
    rw [List.pairwise_map]
    exact List.pairwise_insertionSort (fun c d : Cluster => c.rank ≤ d.rank) _
  have hperm := bare_perm h hpath hname
  have hinj : (((rankedClusters tax lower tol findings).map Cluster.bare).map Cluster.rank).Nodup := by
    rw [List.map_map]
    exact ranks_nodup htol
  exact heatmapOf_bare (Sorting.eq_of_keyed Cluster.rank (fun c hc d hd =>
    List.inj_on_of_nodup_map hinj hc hd) hperm (hsorted findings) (hsorted findings'))

/-- The clusters are the components of nearness, and what the order of the findings decides is a
    cluster's place and name where those on its lowest line, or its gravest, do not agree on it. -/
theorem score_order_free (tax : Taxonomy) (lower : String → String) (tol : Int)
    {findings findings' : List AuditFinding} (h : findings.Perm findings') :
    let s := score tax lower tol findings
    let s' := score tax lower tol findings'
    Clustered (Near lower tol) (findings.filter AuditFinding.scored) (s.clusters.map fun c => c.findings.all) ∧
      (s.clusters.map Cluster.graded).Perm (s'.clusters.map Cluster.graded) ∧ s.totals = s'.totals ∧
      s.bySeverity.Perm s'.bySeverity ∧
      ((∀ c ∈ memberships lower tol findings, OneModule c) →
        (s.clusters.map fun c => (c.graded, c.module_)).Perm (s'.clusters.map fun c => (c.graded, c.module_))) ∧
      ((∀ c ∈ memberships lower tol findings, OneName tax c) →
        (s.clusters.map fun c => (c.graded, c.categoryName)).Perm (s'.clusters.map fun c => (c.graded, c.categoryName)) ∧
          s.byCategory.Perm s'.byCategory) ∧
      ((∀ c ∈ memberships lower tol findings, OneModule c) → (∀ c ∈ memberships lower tol findings, OneName tax c) →
        (s.clusters.map fun c => (c.graded, c.categoryName, c.module_)).Perm
          (s'.clusters.map fun c => (c.graded, c.categoryName, c.module_))) ∧
      (0 ≤ tol → (∀ c ∈ memberships lower tol findings, OnePath c) → (∀ c ∈ memberships lower tol findings, OneName tax c) →
        s.heatmap = s'.heatmap) := by
  have hmodule : (∀ c ∈ memberships lower tol findings, OneModule c) →
    ∀ c ∈ memberships lower tol findings, ∀ d ∈ memberships lower tol findings',
      c.all.Perm d.all → (assess tax c).module_ = (assess tax d).module_ := fun hone c hc d hd hcd =>
    (hone c hc d.first (first_mem hcd) (line_perm (memberships_sorted hc) (memberships_sorted hd) hcd).symm).symm
  refine ⟨?_, clusters_perm h fun _ _ _ _ hcd => graded_perm hcd, totals_perm h, bySeverity_perm h,
    fun hone => ?_, fun hname => ⟨?_, ?_⟩,
    fun hone hname => ?_, heatmap_perm h⟩
  · have hperm := (rankedClusters_perm tax lower tol findings).map fun c => c.findings.all
    rw [List.map_map] at hperm
    exact (memberships_clustered lower tol findings).reorder (fun _ _ => Near.symm) hperm.symm
  · exact clusters_perm h fun c hc d hd hcd => Prod.ext (graded_perm hcd) (hmodule hone c hc d hd hcd)
  · exact clusters_perm h fun c hc d hd hcd => Prod.ext (graded_perm hcd) (name_perm (hname c hc) hcd)
  · exact Dict.counter_perm (clusters_perm h fun c hc d hd hcd => name_perm (hname c hc) hcd)
  · exact clusters_perm h fun c hc d hd hcd => Prod.ext (graded_perm hcd)
      (Prod.ext (name_perm (hname c hc) hcd) (hmodule hone c hc d hd hcd))

/-- `str.lower` of the ASCII letters. -/
def asciiLower (s : String) : String := String.ofList (s.toList.map Char.toLower)

/-- A leak seen by two tools and a smell three lines under it, in either order. -/
theorem score_order_free_pair :
    let tax : Taxonomy := ⟨[(1, "P0"), (2, "P2")]⟩
    let leak : AuditFinding :=
      { tool := "own", path := "src/A.cs", line := 3, rule := "OWN014", category := 1, categoryName := "leak" }
    let seen : AuditFinding := { leak with tool := "codeql" }
    let smell : AuditFinding :=
      { tool := "sonar", path := "src/A.cs", line := 6, rule := "S1", category := 2, categoryName := "smell" }
    let s := score tax asciiLower 3 [leak, seen, smell]
    let s' := score tax asciiLower 3 [smell, seen, leak]
    s.totals = s'.totals ∧ s.bySeverity.Perm s'.bySeverity ∧ s.byCategory.Perm s'.byCategory ∧
      (s.clusters.map fun c => (c.graded, c.categoryName, c.module_)).Perm
      (s'.clusters.map fun c => (c.graded, c.categoryName, c.module_)) ∧
      s.heatmap = s'.heatmap := by
  intro tax leak seen smell s s'
  have hperm : [leak, seen, smell].Perm [smell, seen, leak] := by decide
  have hpath : ∀ c ∈ memberships asciiLower 3 [leak, seen, smell], OnePath c := by decide
  have hmodule : ∀ c ∈ memberships asciiLower 3 [leak, seen, smell], OneModule c := by decide
  have hname : ∀ c ∈ memberships asciiLower 3 [leak, seen, smell], OneName tax c := by decide
  obtain ⟨-, -, htotals, hsev, -, hcat, hboth, hheat⟩ := score_order_free tax asciiLower 3 hperm
  exact ⟨htotals, hsev, (hcat hname).2, hboth hmodule hname, hheat (by decide) hpath hname⟩

/-- One file name in two directories: the module is the first finding's, and so is the row of the
    heatmap. -/
theorem first_decides_module :
    ¬ ∀ (tax : Taxonomy) (lower : String → String) (tol : Int) (findings findings' : List AuditFinding), findings.Perm findings' →
      ((score tax lower tol findings).clusters.map fun c => (c.graded, c.categoryName, c.module_)).Perm
          ((score tax lower tol findings').clusters.map fun c => (c.graded, c.categoryName, c.module_)) ∧
        (score tax lower tol findings).heatmap = (score tax lower tol findings').heatmap := by
  intro h
  let a : AuditFinding := { tool := "own", path := "a/X.cs", line := 1, rule := "OWN001" }
  let b : AuditFinding := { tool := "own", path := "b/X.cs", line := 1, rule := "OWN001" }
  have hab := (h ⟨[]⟩ asciiLower 3 [a, b] [b, a] (List.Perm.swap b a [])).1
  revert hab
  decide

end Score

end OwnNet.Audit
