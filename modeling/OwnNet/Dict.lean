/-
  OwnNet.Dict — finite dictionaries: entries in strictly increasing key order, so that two
  dictionaries with the same lookups are the same dictionary.

  Proved: `Dict.ext_get?`, and what each operation does to the lookups (`get?_set`,
  `get?_erase`, `get?_merge`).
-/

import Mathlib.Order.Defs.LinearOrder
import Mathlib.Order.Lattice
import Mathlib.Data.List.Basic

namespace OwnNet

structure Dict (κ α : Type) [LinearOrder κ] where
  entries : List (κ × α)
  sorted : entries.Pairwise fun x y => x.1 < y.1

namespace Dict

variable {κ α β : Type} [LinearOrder κ]

instance [DecidableEq α] : DecidableEq (Dict κ α) := fun a b =>
  decidable_of_iff (a.entries = b.entries) ⟨fun h => by cases a; cases b; cases h; rfl, fun h => by rw [h]⟩

def empty : Dict κ α := ⟨[], List.Pairwise.nil⟩

/-- The first value stored under `k`. -/
def find (k : κ) : List (κ × α) → Option α
  | [] => none
  | e :: rest => if k = e.1 then some e.2 else find k rest

def get? (d : Dict κ α) (k : κ) : Option α := find k d.entries

def putFirst (k : κ) (v : Option α) (rest : List (κ × α)) : List (κ × α) :=
  match v with
  | some v => (k, v) :: rest
  | none => rest

/-- Replace what is stored under `k` by `g` of it. -/
def alterList (k : κ) (g : Option α → Option α) : List (κ × α) → List (κ × α)
  | [] => putFirst k (g none) []
  | e :: rest =>
    if k < e.1 then putFirst k (g none) (e :: rest)
    else if k = e.1 then putFirst k (g (some e.2)) rest
    else e :: alterList k g rest

/-! ## Lookups in a sorted list -/

theorem find_eq_none {k : κ} {l : List (κ × α)} (h : ∀ e ∈ l, k ≠ e.1) : find k l = none := by
  induction l with
  | nil => rfl
  | cons e rest ih =>
    rw [find, if_neg (h e List.mem_cons_self)]
    exact ih fun x hx => h x (List.mem_cons_of_mem _ hx)

theorem find_of_lt {k : κ} {l : List (κ × α)} (h : ∀ e ∈ l, k < e.1) : find k l = none :=
  find_eq_none fun e he => ne_of_lt (h e he)

theorem mem_of_find {k : κ} {v : α} {l : List (κ × α)} (h : find k l = some v) : (k, v) ∈ l := by
  induction l with
  | nil => cases h
  | cons e rest ih =>
    rw [find] at h
    split at h
    next hk =>
      cases h
      subst hk
      exact List.mem_cons_self
    next => exact List.mem_cons_of_mem _ (ih h)

theorem find_of_mem {k : κ} {v : α} {l : List (κ × α)} (hl : l.Pairwise fun x y => x.1 < y.1) (h : (k, v) ∈ l) :
    find k l = some v := by
  induction l with
  | nil => exact absurd h List.not_mem_nil
  | cons e rest ih =>
    rw [List.pairwise_cons] at hl
    rcases List.mem_cons.mp h with rfl | hm
    · simp [find]
    · have : k ≠ e.1 := ne_of_gt (hl.1 _ hm)
      rw [find, if_neg this]
      exact ih hl.2 hm

theorem find_putFirst (k j : κ) (v : Option α) {rest : List (κ × α)} (h : find k rest = none) :
    find j (putFirst k v rest) = if j = k then v else find j rest := by
  cases v with
  | none =>
    by_cases hj : j = k
    · simp [putFirst, hj, h]
    · simp [putFirst, hj]
  | some v =>
    by_cases hj : j = k
    · simp [putFirst, find, hj]
    · simp [putFirst, find, hj]

theorem find_alterList (k j : κ) (g : Option α → Option α) {l : List (κ × α)}
    (hl : l.Pairwise fun x y => x.1 < y.1) :
    find j (alterList k g l) = if j = k then g (find k l) else find j l := by
  induction l with
  | nil => exact find_putFirst k j (g none) rfl
  | cons e rest ih =>
    rw [List.pairwise_cons] at hl
    rw [alterList]
    split
    next hlt =>
      have hnone : find k (e :: rest) = none := by
        apply find_of_lt
        intro x hx
        rcases List.mem_cons.mp hx with rfl | hx
        · exact hlt
        · exact lt_trans hlt (hl.1 x hx)
      rw [find_putFirst k j (g none) hnone, hnone]
    next hlt =>
      split
      next heq =>
        have hnone : find k rest = none := find_of_lt fun x hx => heq ▸ hl.1 x hx
        rw [find_putFirst k j _ hnone]
        by_cases hj : j = k
        · simp [hj, find, heq]
        · have : j ≠ e.1 := heq ▸ hj
          simp [hj, find, this]
      next hne =>
        by_cases hj : j = e.1
        · have : j ≠ k := fun h => hne (h ▸ hj)
          simp [find, hj, Ne.symm hne]
        · simp only [find, if_neg hj, if_neg hne]
          exact ih hl.2

omit [LinearOrder κ] in
theorem mem_putFirst {k : κ} {v : Option α} {rest : List (κ × α)} {x : κ × α} (h : x ∈ putFirst k v rest) :
    x.1 = k ∨ x ∈ rest := by
  cases v with
  | none => exact Or.inr h
  | some v =>
    rcases List.mem_cons.mp h with rfl | h
    · exact Or.inl rfl
    · exact Or.inr h

theorem mem_alterList {k : κ} {g : Option α → Option α} {l : List (κ × α)} {x : κ × α} (h : x ∈ alterList k g l) :
    x.1 = k ∨ x ∈ l := by
  induction l with
  | nil => exact mem_putFirst h
  | cons e rest ih =>
    rw [alterList] at h
    split at h
    next => exact mem_putFirst h
    next =>
      split at h
      next => exact (mem_putFirst h).imp_right (List.mem_cons_of_mem _)
      next =>
        rcases List.mem_cons.mp h with rfl | h
        · exact Or.inr List.mem_cons_self
        · exact (ih h).imp_right (List.mem_cons_of_mem _)

theorem sorted_putFirst {k : κ} {v : Option α} {rest : List (κ × α)} (hr : rest.Pairwise fun x y => x.1 < y.1)
    (hk : ∀ e ∈ rest, k < e.1) : (putFirst k v rest).Pairwise fun x y => x.1 < y.1 := by
  cases v with
  | none => exact hr
  | some v => exact List.pairwise_cons.mpr ⟨hk, hr⟩

theorem sorted_alterList (k : κ) (g : Option α → Option α) {l : List (κ × α)}
    (hl : l.Pairwise fun x y => x.1 < y.1) : (alterList k g l).Pairwise fun x y => x.1 < y.1 := by
  induction l with
  | nil => exact sorted_putFirst List.Pairwise.nil fun e he => absurd he List.not_mem_nil
  | cons e rest ih =>
    have hc := List.pairwise_cons.mp hl
    rw [alterList]
    split
    next hlt =>
      apply sorted_putFirst hl
      intro x hx
      rcases List.mem_cons.mp hx with rfl | hx
      · exact hlt
      · exact lt_trans hlt (hc.1 x hx)
    next hlt =>
      split
      next heq => exact sorted_putFirst hc.2 fun x hx => heq ▸ hc.1 x hx
      next hne =>
        refine List.pairwise_cons.mpr ⟨fun x hx => ?_, ih hc.2⟩
        rcases mem_alterList hx with hx | hx
        · rw [hx]
          exact lt_of_le_of_ne (not_lt.mp hlt) (Ne.symm hne)
        · exact hc.1 x hx

/-! ## Operations -/

def alter (d : Dict κ α) (k : κ) (g : Option α → Option α) : Dict κ α :=
  ⟨alterList k g d.entries, sorted_alterList k g d.sorted⟩

def set (d : Dict κ α) (k : κ) (v : α) : Dict κ α := d.alter k fun _ => some v

def erase (d : Dict κ α) (k : κ) : Dict κ α := d.alter k fun _ => none

def getD (d : Dict κ α) (k : κ) (v : α) : α := (d.get? k).getD v

/-- `b`'s entry `e` merged into `d`: combined with what `d` has there. -/
def absorb (f : α → α → α) (d : Dict κ α) (e : κ × α) : Dict κ α :=
  d.alter e.1 fun
    | none => some e.2
    | some v => some (f v e.2)

/-- `b` merged into `a`, entries under a common key combined by `f`. -/
def merge (f : α → α → α) (a b : Dict κ α) : Dict κ α := b.entries.foldl (absorb f) a

theorem get?_alter (d : Dict κ α) (k j : κ) (g : Option α → Option α) :
    (d.alter k g).get? j = if j = k then g (d.get? k) else d.get? j :=
  find_alterList k j g d.sorted

@[simp] theorem get?_empty (k : κ) : (empty : Dict κ α).get? k = none := rfl

theorem get?_set (d : Dict κ α) (k j : κ) (v : α) : (d.set k v).get? j = if j = k then some v else d.get? j :=
  get?_alter d k j _

@[simp] theorem get?_set_self (d : Dict κ α) (k : κ) (v : α) : (d.set k v).get? k = some v := by
  simp [get?_set]

theorem get?_set_of_ne (d : Dict κ α) {k j : κ} (v : α) (h : j ≠ k) : (d.set k v).get? j = d.get? j := by
  simp [get?_set, h]

theorem get?_erase (d : Dict κ α) (k j : κ) : (d.erase k).get? j = if j = k then none else d.get? j :=
  get?_alter d k j _

theorem mem_entries {d : Dict κ α} {k : κ} {v : α} : (k, v) ∈ d.entries ↔ d.get? k = some v :=
  ⟨find_of_mem d.sorted, mem_of_find⟩

theorem get?_foldl_absorb (f : α → α → α) (j : κ) {l : List (κ × α)} (hl : l.Pairwise fun x y => x.1 < y.1)
    (d : Dict κ α) : (l.foldl (absorb f) d).get? j = Option.merge f (d.get? j) (find j l) := by
  induction l generalizing d with
  | nil => simp [find]
  | cons e rest ih =>
    rw [List.pairwise_cons] at hl
    rw [List.foldl_cons, ih hl.2]
    by_cases hj : j = e.1
    · have hnone : find j rest = none := find_of_lt fun x hx => hj ▸ hl.1 x hx
      have hhere : find j (e :: rest) = some e.2 := by simp [find, hj]
      rw [hnone, hhere, absorb, get?_alter, if_pos hj, ← hj]
      cases d.get? j with
      | none => rfl
      | some v => rfl
    · have hskip : find j (e :: rest) = find j rest := by simp [find, hj]
      rw [hskip, absorb, get?_alter, if_neg hj]

theorem get?_merge (f : α → α → α) (a b : Dict κ α) (k : κ) :
    (merge f a b).get? k = Option.merge f (a.get? k) (b.get? k) :=
  get?_foldl_absorb f k b.sorted a

/-! ## Equality -/

theorem find_ext {l m : List (κ × α)} (hl : l.Pairwise fun x y => x.1 < y.1)
    (hm : m.Pairwise fun x y => x.1 < y.1) (h : ∀ k, find k l = find k m) : l = m := by
  induction l generalizing m with
  | nil =>
    cases m with
    | nil => rfl
    | cons e rest =>
      have := h e.1
      simp [find] at this
  | cons e rest ih =>
    cases m with
    | nil =>
      have := h e.1
      simp [find] at this
    | cons e' rest' =>
      rw [List.pairwise_cons] at hl hm
      have hkey : e.1 = e'.1 := by
        rcases lt_trichotomy e.1 e'.1 with hlt | heq | hgt
        · have he := h e.1
          have : find e.1 (e' :: rest') = none := by
            apply find_of_lt
            intro x hx
            rcases List.mem_cons.mp hx with rfl | hx
            · exact hlt
            · exact lt_trans hlt (hm.1 x hx)
          rw [this] at he
          simp [find] at he
        · exact heq
        · have he := h e'.1
          have : find e'.1 (e :: rest) = none := by
            apply find_of_lt
            intro x hx
            rcases List.mem_cons.mp hx with rfl | hx
            · exact hgt
            · exact lt_trans hgt (hl.1 x hx)
          rw [this] at he
          simp [find] at he
      have hval : e.2 = e'.2 := by
        have he := h e.1
        rw [find, if_pos rfl, find, if_pos hkey] at he
        exact Option.some.inj he
      have hrest : rest = rest' := by
        apply ih hl.2 hm.2
        intro k
        by_cases hk : k = e.1
        · rw [find_of_lt fun x hx => hk ▸ hl.1 x hx, find_of_lt fun x hx => hk ▸ hkey ▸ hm.1 x hx]
        · have he := h k
          rw [find, if_neg hk, find, if_neg (hkey ▸ hk)] at he
          exact he
      rw [hrest, show e = e' from Prod.ext hkey hval]

theorem ext_get? {a b : Dict κ α} (h : ∀ k, a.get? k = b.get? k) : a = b := by
  have := find_ext a.sorted b.sorted h
  cases a
  cases b
  cases this
  rfl

end Dict

end OwnNet
