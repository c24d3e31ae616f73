/-
  OwnNet.Sorting — lists sorted by a key.

  Where the key tells a list's items apart, the order they came in has no say in the sorted
  list.

  Proved: `keyed_perm`: two orders of one list are sorted alike by such a key; `sort_perm`,
  `sort_nodup` and `sort_dedup`: by the items themselves, so are two orders, two lists
  without repeats of one set, and any two once their repeats are dropped; `stable_eq`: by any
  key, so are two lists that have the same of each key, in the same order; `filter_sort`: and a
  part of a list is sorted as it stands in the whole.
-/

import Mathlib.Data.List.Dedup
import Mathlib.Data.List.Sort

namespace OwnNet.Sorting

section Keyed

variable {α κ : Type} [LinearOrder κ] (key : α → κ) {l l' : List α}

theorem eq_of_keyed (hkey : ∀ a ∈ l, ∀ b ∈ l, key a = key b → a = b) (h : l.Perm l')
    (hl : l.Pairwise fun a b => key a ≤ key b) (hl' : l'.Pairwise fun a b => key a ≤ key b) : l = l' :=
  h.eq_of_pairwise (fun a b ha hb hab hba => hkey a ha b (h.mem_iff.mpr hb) (le_antisymm hab hba)) hl hl'

theorem keyed_perm [DecidableRel fun a b => key a ≤ key b] (hkey : ∀ a ∈ l, ∀ b ∈ l, key a = key b → a = b) (h : l.Perm l') :
    (l.insertionSort fun a b => key a ≤ key b) = l'.insertionSort fun a b => key a ≤ key b := by
  refine eq_of_keyed key (fun a ha b hb => ?_) ?_ (List.pairwise_insertionSort (fun a b => key a ≤ key b) l)
    (List.pairwise_insertionSort (fun a b => key a ≤ key b) l')
  · exact hkey a ((List.mem_insertionSort _).mp ha) b ((List.mem_insertionSort _).mp hb)
  · exact (List.perm_insertionSort _ l).trans (h.trans (List.perm_insertionSort _ l').symm)

end Keyed

section Plain

variable {α : Type} [LinearOrder α] {l l' : List α}

theorem sort_perm (h : l.Perm l') : l.insertionSort (· ≤ ·) = l'.insertionSort (· ≤ ·) :=
  keyed_perm id (fun _ _ _ _ hab => hab) h

theorem sort_nodup (hn : l.Nodup) (hn' : l'.Nodup) (h : ∀ x, x ∈ l ↔ x ∈ l') :
    l.insertionSort (· ≤ ·) = l'.insertionSort (· ≤ ·) :=
  sort_perm ((List.perm_ext_iff_of_nodup hn hn').mpr h)

theorem sort_dedup (h : ∀ x, x ∈ l ↔ x ∈ l') : l.dedup.insertionSort (· ≤ ·) = l'.dedup.insertionSort (· ≤ ·) :=
  sort_nodup (List.nodup_dedup l) (List.nodup_dedup l') fun x => by rw [List.mem_dedup, List.mem_dedup, h]

end Plain

section Stable

variable {α κ : Type} [LinearOrder κ] (key : α → κ) {l l' : List α}

theorem mem_filter_key {x : α} : (x ∈ l.filter fun a => key a = key x) ↔ x ∈ l := by simp

/-- Sorting keeps the order of what it does not tell apart. -/
theorem filter_insertionSort [DecidableRel fun a b => key a ≤ key b] (l : List α) (k : κ) :
    ((l.insertionSort fun a b => key a ≤ key b).filter fun a => key a = k) = l.filter fun a => key a = k := by
  have heq : ∀ a ∈ l.filter fun a => key a = k, key a = k := fun a ha => of_decide_eq_true (List.mem_filter.mp ha).2
  have hsub : (l.filter fun a => key a = k).Sublist (l.insertionSort fun a b => key a ≤ key b) :=
    List.sublist_insertionSort (r := fun a b => key a ≤ key b)
      (List.pairwise_of_forall_mem_list fun a ha b hb => le_of_eq ((heq a ha).trans (heq b hb).symm)) List.filter_sublist
  have hfiltered := hsub.filter fun a => key a = k
  rw [List.filter_filter] at hfiltered
  simp only [Bool.and_self] at hfiltered
  exact (hfiltered.eq_of_length ((List.perm_insertionSort _ l).filter _).length_eq.symm).symm

/-- A sorted list is what it has of each key, in their order. -/
theorem eq_of_filter (hl : l.Pairwise fun a b => key a ≤ key b) (hl' : l'.Pairwise fun a b => key a ≤ key b)
    (h : ∀ k, (l.filter fun a => key a = k) = l'.filter fun a => key a = k) : l = l' := by
  induction l generalizing l' with
  | nil =>
    refine (List.eq_nil_iff_forall_not_mem.mpr fun a ha => ?_).symm
    have hmem := (mem_filter_key key).mpr ha
    rw [← h] at hmem
    exact absurd hmem List.not_mem_nil
  | cons a rest ih =>
    have hsame : ∀ x, x ∈ a :: rest ↔ x ∈ l' := fun x => by
      rw [← mem_filter_key key, h, mem_filter_key key]
    cases l' with
    | nil => exact absurd ((hsame a).mp List.mem_cons_self) List.not_mem_nil
    | cons b rest' =>
      obtain ⟨ha, hrest⟩ := List.pairwise_cons.mp hl
      obtain ⟨hb, hrest'⟩ := List.pairwise_cons.mp hl'
      have hle : key a ≤ key b := by
        rcases List.mem_cons.mp ((hsame b).mpr List.mem_cons_self) with rfl | hmem
        · exact le_rfl
        · exact ha b hmem
      have hge : key b ≤ key a := by
        rcases List.mem_cons.mp ((hsame a).mp List.mem_cons_self) with rfl | hmem
        · exact le_rfl
        · exact hb a hmem
      have hkey : key a = key b := le_antisymm hle hge
      have hhead := h (key a)
      rw [List.filter_cons_of_pos (by simp), List.filter_cons_of_pos (by simp [hkey])] at hhead
      obtain rfl : a = b := (List.cons.inj hhead).1
      refine congrArg (a :: ·) (ih hrest hrest' fun k => ?_)
      by_cases hk : key a = k
      · subst hk
        exact (List.cons.inj hhead).2
      · have := h k
        rw [List.filter_cons_of_neg (by simp [hk]), List.filter_cons_of_neg (by simp [hk])] at this
        exact this

/-- Two lists that agree on each key are sorted alike. -/
theorem stable_eq [DecidableRel fun a b => key a ≤ key b]
    (h : ∀ k, (l.filter fun a => key a = k) = l'.filter fun a => key a = k) :
    (l.insertionSort fun a b => key a ≤ key b) = l'.insertionSort fun a b => key a ≤ key b := by
  refine eq_of_filter key (List.pairwise_insertionSort (fun a b => key a ≤ key b) l)
    (List.pairwise_insertionSort (fun a b => key a ≤ key b) l') fun k => ?_
  rw [filter_insertionSort, filter_insertionSort, h]

/-- A part of a list sorted is that part of the sorted list. -/
theorem filter_sort [DecidableRel fun a b => key a ≤ key b] (p : α → Bool) (l : List α) :
    (l.insertionSort fun a b => key a ≤ key b).filter p = (l.filter p).insertionSort fun a b => key a ≤ key b := by
  refine eq_of_filter key ((List.pairwise_insertionSort (fun a b => key a ≤ key b) l).filter p)
    (List.pairwise_insertionSort (fun a b => key a ≤ key b) (l.filter p)) fun k => ?_
  rw [List.filter_comm, filter_insertionSort, filter_insertionSort, List.filter_comm]

end Stable

end OwnNet.Sorting
