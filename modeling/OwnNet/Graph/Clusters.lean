/-
  OwnNet.Graph.Clusters — the elements of a list, repeats and all, in clusters: the connected
  components of a relation among its positions.

  Proved: `Clustered.unique`: a list has one clustering, up to the order of the clusters and of
  their members, and so has the list in any other order.
-/

import Mathlib.Data.List.Perm.Basic
import Mathlib.Data.Multiset.Basic
import Mathlib.Logic.Relation

namespace OwnNet.Graph

variable {α : Type}

/-- Every position is reached from every other over neighbours within the list. -/
def Connected (R : α → α → Prop) (c : List α) : Prop :=
  ∀ i j : Fin c.length, Relation.ReflTransGen (fun a b => R (c.get a) (c.get b)) i j

structure Clustered (R : α → α → Prop) (all : List α) (cs : List (List α)) : Prop where
  nonempty : ∀ c ∈ cs, c ≠ []
  covers : cs.flatten.Perm all
  connected : ∀ c ∈ cs, Connected R c
  apart : cs.Pairwise fun c d => ∀ x ∈ c, ∀ y ∈ d, ¬ R x y

/-- The same clusters, in any order and each in any order. -/
def SameClusters (cs ds : List (List α)) : Prop := ∃ es, es.Perm ds ∧ List.Forall₂ List.Perm cs es

/-! ## Connectedness -/

/-- A chain of neighbours is connected. -/
theorem connected_of_chain {R : α → α → Prop} (hsymm : ∀ x y, R x y → R y x) {c : List α} (h : c.IsChain R) : Connected R c := by
  have hstep : ∀ (n : Nat) (hn : n < c.length), Relation.ReflTransGen (fun a b => R (c.get a) (c.get b)) ⟨0,
      by omega⟩ ⟨n, hn⟩ := by
    intro n hn
    induction n with
    | zero => exact .refl
    | succ n ih => exact (ih (by omega)).tail (List.isChain_iff_getElem.mp h n hn)
  have hback : ∀ {i j : Fin c.length}, Relation.ReflTransGen (fun a b => R (c.get a) (c.get b)) i j →
      Relation.ReflTransGen (fun a b => R (c.get a) (c.get b)) j i := by
    intro i j hij
    induction hij with
    | refl => exact .refl
    | tail _ hbc ih => exact .head (hsymm _ _ hbc) ih
  exact fun i j => (hback (hstep i.1 i.2)).trans (hstep j.1 j.2)

/-- Two elements joined through others of the list. -/
def Joined (R : α → α → Prop) (all : List α) : α → α → Prop := Relation.ReflTransGen fun x y => x ∈ all ∧ y ∈ all ∧ R x y

theorem Joined.congr {R : α → α → Prop} {all all' : List α} (h : all.Perm all') {x y : α} :
    Joined R all x y ↔ Joined R all' x y := by
  unfold Joined
  simp only [h.mem_iff]

theorem Connected.joined {R : α → α → Prop} {all c : List α} (h : Connected R c) (hsub : ∀ x ∈ c, x ∈ all)
    {x y : α} (hx : x ∈ c) (hy : y ∈ c) :
    Joined R all x y := by
  obtain ⟨i, rfl⟩ := List.get_of_mem hx
  obtain ⟨j, rfl⟩ := List.get_of_mem hy
  have hlift : ∀ {i j : Fin c.length}, Relation.ReflTransGen (fun a b => R (c.get a) (c.get b)) i j →
      Joined R all (c.get i) (c.get j) := by
    intro i j hij
    induction hij with
    | refl => exact .refl
    | tail _ hbc ih => exact ih.tail ⟨hsub _ (List.get_mem _ _), hsub _ (List.get_mem _ _), hbc⟩
  exact hlift (h i j)

namespace Clustered

variable {R : α → α → Prop} {all all' : List α} {cs ds : List (List α)}

theorem mem (h : Clustered R all cs) {x : α} : x ∈ all ↔ ∃ c ∈ cs, x ∈ c := by
  rw [← h.covers.mem_iff, List.mem_flatten]

theorem apart_of_ne (hsymm : ∀ x y, R x y → R y x) (h : Clustered R all cs) {c d : List α} (hc : c ∈ cs)
    (hd : d ∈ cs) (hcd : c ≠ d)
    {x y : α} (hx : x ∈ c) (hy : y ∈ d) : ¬ R x y := by
  obtain ⟨before, after, rfl⟩ := List.append_of_mem hc
  have hpair := h.apart
  rw [List.pairwise_append, List.pairwise_cons] at hpair
  obtain ⟨-, ⟨hafter, -⟩, hbefore⟩ := hpair
  rcases List.mem_append.mp hd with hd | hd
  · exact fun hxy => hbefore d hd c List.mem_cons_self y hy x hx (hsymm x y hxy)
  · rcases List.mem_cons.mp hd with rfl | hd
    · exact absurd rfl hcd
    · exact hafter d hd x hx y hy

/-- What is joined to a member is a member. -/
theorem closed (hsymm : ∀ x y, R x y → R y x) (h : Clustered R all cs) {c : List α} (hc : c ∈ cs) {x y : α} (hx : x ∈ c)
    (hxy : Joined R all x y) : y ∈ c := by
  induction hxy with
  | refl => exact hx
  | tail _ huy ih =>
    obtain ⟨d, hd, hy⟩ := h.mem.mp huy.2.1
    by_cases hcd : c = d
    · exact hcd ▸ hy
    · exact absurd huy.2.2 (h.apart_of_ne hsymm hc hd hcd ih hy)

/-- A cluster holds what is joined to any of its members, as often as the list does. -/
theorem perm_filter (hsymm : ∀ x y, R x y → R y x) (hrefl : ∀ x, R x x) (h : Clustered R all cs)
    {c : List α} (hc : c ∈ cs) {x : α} (hx : x ∈ c)
    {p : α → Bool} (hp : ∀ y, p y = true ↔ Joined R all x y) : c.Perm (all.filter p) := by
  have hsub : ∀ y ∈ c, y ∈ all := fun y hy => h.mem.mpr ⟨c, hc, hy⟩
  have hin : ∀ y ∈ c, p y = true := fun y hy => (hp y).mpr ((h.connected c hc).joined hsub hx hy)
  refine List.Perm.trans ?_ (h.covers.filter p)
  obtain ⟨before, after, rfl⟩ := List.append_of_mem hc
  have hout : ∀ d, (∃ l₁ l₂, before ++ c :: after = l₁ ++ d :: l₂ ∧ (c ∈ l₁ ∨ c ∈ l₂)) → d.filter p = [] := by
    rintro d ⟨l₁, l₂, hsplit, hside⟩
    refine List.filter_eq_nil_iff.mpr fun y hy hpy => ?_
    have hyc : y ∈ c := h.closed hsymm hc hx ((hp y).mp hpy)
    have hpair := h.apart
    rw [hsplit, List.pairwise_append, List.pairwise_cons] at hpair
    rcases hside with hl | hl
    · exact hpair.2.2 c hl d List.mem_cons_self y hyc y hy (hrefl y)
    · exact hpair.2.1.1 c hl y hy y hyc (hrefl y)
  have hnone : ∀ ds : List (List α), (∀ d ∈ ds, d.filter p = []) → ds.flatten.filter p = [] := by
    intro ds hds
    rw [List.filter_flatten, List.flatten_eq_nil_iff]
    intro l hl
    obtain ⟨d, hd, rfl⟩ := List.mem_map.mp hl
    exact hds d hd
  have hbefore : before.flatten.filter p = [] := by
    refine hnone before fun d hd => ?_
    obtain ⟨l₁, l₂, rfl⟩ := List.append_of_mem hd
    exact hout d ⟨l₁, l₂ ++ c :: after, by simp, .inr (by simp)⟩
  have hafter : after.flatten.filter p = [] := by
    refine hnone after fun d hd => ?_
    obtain ⟨l₁, l₂, rfl⟩ := List.append_of_mem hd
    exact hout d ⟨before ++ c :: l₁, l₂, by simp, .inl (by simp)⟩
  rw [List.flatten_append, List.flatten_cons, List.filter_append, List.filter_append, hbefore,
    hafter, List.filter_eq_self.mpr hin,
    List.nil_append, List.append_nil]

/-- Under a relation that holds of nothing, every cluster is one element. -/
theorem singletons (hno : ∀ x y, ¬ R x y) (h : Clustered R all cs) : cs = cs.flatten.map fun x => [x] := by
  have hone : ∀ c ∈ cs, ∃ x, c = [x] := by
    intro c hc
    obtain ⟨x, rest, rfl⟩ := List.exists_cons_of_ne_nil (h.nonempty c hc)
    cases rest with
    | nil => exact ⟨x, rfl⟩
    | cons y rest =>
      have hreach := h.connected _ hc ⟨0, by simp⟩ ⟨1, by simp⟩
      rcases Relation.ReflTransGen.cases_head hreach with heq | ⟨k, hk, -⟩
      · exact absurd (congrArg Fin.val heq) (by simp)
      · exact absurd hk (hno _ _)
  clear h
  induction cs with
  | nil => rfl
  | cons c cs ih =>
    obtain ⟨x, rfl⟩ := hone c List.mem_cons_self
    rw [List.flatten_cons, List.singleton_append, List.map_cons, ← ih fun d hd => hone d (List.mem_cons_of_mem _ hd)]

end Clustered

/-! ## Uniqueness -/

theorem sameClusters_of_multisets {cs ds : List (List α)}
    (h : (cs.map Multiset.ofList).Perm (ds.map Multiset.ofList)) : SameClusters cs ds := by
  have hds : List.Forall₂ (fun (m : Multiset α) (d : List α) => m = Multiset.ofList d) (ds.map Multiset.ofList) ds := by
    rw [List.forall₂_map_left_iff]
    exact List.forall₂_same.mpr fun _ _ => rfl
  obtain ⟨es, hes, hperm⟩ := List.perm_comp_forall₂ h hds
  rw [List.forall₂_map_left_iff] at hes
  exact ⟨es, hperm, hes.imp fun c d hcd => Multiset.coe_eq_coe.mp hcd⟩

namespace Clustered

variable {R : α → α → Prop} {all all' : List α} {cs ds : List (List α)}

theorem multiset_nodup (hrefl : ∀ x, R x x) (h : Clustered R all cs) : (cs.map Multiset.ofList).Nodup := by
  rw [List.Nodup, List.pairwise_map]
  refine h.apart.imp_of_mem fun {c d} hc _ hcd heq => ?_
  obtain ⟨x, rest, rfl⟩ := List.exists_cons_of_ne_nil (h.nonempty c hc)
  exact hcd x List.mem_cons_self x ((Multiset.coe_eq_coe.mp heq).mem_iff.mp List.mem_cons_self) (hrefl x)

open Classical in
/-- The clusters as multisets: for each element, what is joined to it. -/
theorem mem_multisets (hsymm : ∀ x y, R x y → R y x) (hrefl : ∀ x, R x x) (h : Clustered R all cs) {m : Multiset α} :
    m ∈ cs.map Multiset.ofList ↔ ∃ x ∈ all, m = Multiset.ofList (all.filter fun y => decide (Joined R all x y)) := by
  rw [List.mem_map]
  refine ⟨fun ⟨c, hc, hm⟩ => ?_, fun ⟨x, hx, hm⟩ => ?_⟩
  · obtain ⟨x, rest, hxc⟩ := List.exists_cons_of_ne_nil (h.nonempty c hc)
    have hx : x ∈ c := hxc ▸ List.mem_cons_self
    exact ⟨x, h.mem.mpr ⟨c, hc, hx⟩, hm ▸ Multiset.coe_eq_coe.mpr (h.perm_filter hsymm hrefl hc hx fun y => decide_eq_true_iff)⟩
  · obtain ⟨c, hc, hxc⟩ := h.mem.mp hx
    exact ⟨c, hc, hm ▸ Multiset.coe_eq_coe.mpr (h.perm_filter hsymm hrefl hc hxc fun y => decide_eq_true_iff)⟩

/-- A list is clustered in one way, whatever its order. -/
theorem unique (hsymm : ∀ x y, R x y → R y x) (hrefl : (∀ x, R x x) ∨ ∀ x y, ¬ R x y) (h : Clustered R all cs)
    (h' : Clustered R all' ds)
    (hall : all.Perm all') : SameClusters cs ds := by
  refine sameClusters_of_multisets ?_
  rcases hrefl with hrefl | hno
  · rw [List.perm_ext_iff_of_nodup (h.multiset_nodup hrefl) (h'.multiset_nodup hrefl)]
    intro m
    classical
    rw [h.mem_multisets hsymm hrefl, h'.mem_multisets hsymm hrefl]
    have hfilter : ∀ x, Multiset.ofList (all.filter fun y => decide (Joined R all x y)) =
        Multiset.ofList (all'.filter fun y => decide (Joined R all' x y)) := fun x => by
      have hp : (fun y => decide (Joined R all x y)) = fun y => decide (Joined R all' x y) := by
        funext y
        exact decide_eq_decide.mpr (Joined.congr hall)
      rw [hp]
      exact Multiset.coe_eq_coe.mpr (hall.filter _)
    exact ⟨fun ⟨x, hx, hm⟩ => ⟨x, hall.mem_iff.mp hx, hm.trans (hfilter x)⟩,
      fun ⟨x, hx, hm⟩ => ⟨x, hall.mem_iff.mpr hx, hm.trans (hfilter x).symm⟩⟩
  · rw [h.singletons hno, h'.singletons hno, List.map_map, List.map_map]
    exact ((h.covers.trans hall).trans h'.covers.symm).map _

end Clustered

/-! ## Putting clusterings together -/

namespace Clustered

variable {R : α → α → Prop} {all all' : List α} {cs ds : List (List α)}

theorem perm (h : Clustered R all cs) (hall : all.Perm all') : Clustered R all' cs :=
  { h with covers := h.covers.trans hall }

theorem reorder (hsymm : ∀ x y, R x y → R y x) (h : Clustered R all cs) (hcs : cs.Perm ds) : Clustered R all ds where
  nonempty := fun c hc => h.nonempty c (hcs.mem_iff.mpr hc)
  covers := hcs.symm.flatten.trans h.covers
  connected := fun c hc => h.connected c (hcs.mem_iff.mpr hc)
  apart := (hcs.pairwise_iff fun {_ _} hcd x hx y hy hxy => hcd y hy x hx (hsymm x y hxy)).mp h.apart

theorem nil : Clustered R [] [] :=
  ⟨fun _ h => absurd h List.not_mem_nil, List.Perm.refl _, fun _ h => absurd h List.not_mem_nil, List.Pairwise.nil⟩

theorem append (h : Clustered R all cs) (h' : Clustered R all' ds) (hap : ∀ x ∈ all, ∀ y ∈ all', ¬ R x y) :
    Clustered R (all ++ all') (cs ++ ds) where
  nonempty := fun c hc => (List.mem_append.mp hc).elim (h.nonempty c) (h'.nonempty c)
  covers := by
    rw [List.flatten_append]
    exact h.covers.append h'.covers
  connected := fun c hc => (List.mem_append.mp hc).elim (h.connected c) (h'.connected c)
  apart := List.pairwise_append.mpr ⟨h.apart, h'.apart,
    fun c hc d hd x hx y hy => hap x (h.mem.mpr ⟨c, hc, hx⟩) y (h'.mem.mpr ⟨d, hd, hy⟩)⟩

/-- Lists with nothing between them are clustered one by one. -/
theorem flatten {gs : List (List α)} {css : List (List (List α))} (h : List.Forall₂ (Clustered R) gs css)
    (hap : gs.Pairwise fun g g' => ∀ x ∈ g, ∀ y ∈ g', ¬ R x y) : Clustered R gs.flatten css.flatten := by
  induction h with
  | nil => exact nil
  | cons hg hrest ih =>
    rw [List.pairwise_cons] at hap
    rw [List.flatten_cons, List.flatten_cons]
    refine hg.append (ih hap.2) fun x hx y hy => ?_
    obtain ⟨g, hg, hyg⟩ := List.mem_flatten.mp hy
    exact hap.1 g hg x hx y hyg

end Clustered

namespace SameClusters

variable {β γ : Type} {a : γ → List α} {ms ns : List γ}

/-- What does not depend on the order within a cluster is the same of both, as a list in some order. -/
theorem map (h : SameClusters (ms.map a) (ns.map a)) {f : γ → β} (hf : ∀ c ∈ ms, ∀ d ∈ ns, (a c).Perm (a d) → f c = f d) :
    (ms.map f).Perm (ns.map f) := by
  obtain ⟨es, hes, hall⟩ := h
  have hns : List.Forall₂ (fun l d => l = a d) (ns.map a) ns := by
    rw [List.forall₂_map_left_iff]
    exact List.forall₂_same.mpr fun _ _ => rfl
  obtain ⟨ds, hds, hperm⟩ := List.perm_comp_forall₂ hes hns
  have hmap : ms.map f = ds.map f := by
    replace hf : ∀ c ∈ ms, ∀ d ∈ ds, (a c).Perm (a d) → f c = f d := fun c hc d hd => hf c hc d (hperm.mem_iff.mp hd)
    clear hes hns hperm
    rw [List.forall₂_map_left_iff] at hall
    induction hall generalizing ds with
    | nil =>
      cases hds
      rfl
    | @cons c e ms es hce _ ih =>
      cases hds with
      | @cons _ d _ ds hed hrest =>
        rw [List.map_cons, List.map_cons, hf c List.mem_cons_self d List.mem_cons_self (hed ▸ hce),
          ih ds hrest fun c' hc' d' hd' => hf c' (List.mem_cons_of_mem _ hc') d' (List.mem_cons_of_mem _ hd')]
  exact hmap ▸ hperm.map f

end SameClusters

end OwnNet.Graph
