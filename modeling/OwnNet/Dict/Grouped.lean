/-
  OwnNet.Dict.Grouped — dictionaries that keep the order their keys came in, built by one update
  per element of a list: groups of elements, counts.

  Proved: `upsert` touches the entry of its own key (`mem_upsert`); a list grouped by a key is its
  groups (`groups_perm`, `mem_groups`); of the elements under one key the last stays where only that
  one is kept (`mem_latest`); a count is a count (`mem_counter`), so the counts of a list
  do not depend on its order (`counter_perm`).
-/

import Mathlib.Data.List.Perm.Basic
import Mathlib.Data.List.Count
import Mathlib.Data.List.Induction
import Mathlib.Data.List.Nodup

namespace OwnNet.Dict

variable {κ α β : Type} [DecidableEq κ]

/-- The entry of `k` made anew from what it was, at the end where there was none. -/
def upsert (k : κ) (g : Option β → β) : List (κ × β) → List (κ × β)
  | [] => [(k, g none)]
  | (k', v) :: rest => if k' = k then (k', g (some v)) :: rest else (k', v) :: upsert k g rest

theorem keys_upsert (k : κ) (g : Option β → β) (d : List (κ × β)) :
    (upsert k g d).map Prod.fst = if k ∈ d.map Prod.fst then d.map Prod.fst else d.map Prod.fst ++ [k] := by
  induction d with
  | nil => rfl
  | cons e rest ih =>
    obtain ⟨k', v⟩ := e
    rw [upsert]
    by_cases h : k' = k
    · subst h
      simp
    · have hk : k ≠ k' := fun he => h he.symm
      rw [if_neg h, List.map_cons, ih]
      by_cases hin : k ∈ rest.map Prod.fst
      · rw [if_pos hin, if_pos (by rw [List.map_cons]; exact List.mem_cons_of_mem _ hin), List.map_cons]
      · rw [if_neg hin, if_neg (by rw [List.map_cons]; exact fun hm => (List.mem_cons.mp hm).elim hk hin)]
        rfl

theorem nodup_upsert {k : κ} {g : Option β → β} {d : List (κ × β)} (h : (d.map Prod.fst).Nodup) :
    ((upsert k g d).map Prod.fst).Nodup := by
  rw [keys_upsert]
  split
  next => exact h
  next hk => exact List.nodup_append.mpr ⟨h, List.nodup_singleton k, fun a ha b hb he => hk (List.mem_singleton.mp hb ▸ he ▸ ha)⟩

theorem mem_upsert {k k' : κ} {g : Option β → β} {d : List (κ × β)} {v : β} (h : (d.map Prod.fst).Nodup) :
    (k', v) ∈ upsert k g d ↔ (k' ≠ k ∧ (k', v) ∈ d) ∨ (k' = k ∧ v = g (d.lookup k)) := by
  induction d with
  | nil => simp [upsert, Prod.ext_iff]
  | cons e rest ih =>
    obtain ⟨k₀, v₀⟩ := e
    rw [List.map_cons, List.nodup_cons] at h
    have hrest := ih h.2
    rw [upsert]
    by_cases hk : k₀ = k
    · subst hk
      have hno : ∀ w, (k₀, w) ∉ rest := fun w hw => h.1 (List.mem_map.mpr ⟨_, hw, rfl⟩)
      rw [if_pos rfl, List.mem_cons, List.mem_cons, List.lookup_cons_self]
      by_cases hk' : k' = k₀
      · subst hk'
        simp [hno]
      · simp [hk', Prod.ext_iff]
    · have hlook : ((k₀, v₀) :: rest).lookup k = rest.lookup k := by
        rw [List.lookup_cons, beq_eq_false_iff_ne.mpr fun he => hk he.symm]
      rw [if_neg hk, List.mem_cons, List.mem_cons, hrest, hlook]
      by_cases hk' : k' = k
      · subst hk'
        have hne : (k', v) ≠ (k₀, v₀) := fun he => hk (Prod.mk.inj he).1.symm
        simp [hne]
      · simp [hk']

theorem lookup_eq_some {d : List (κ × β)} (h : (d.map Prod.fst).Nodup) {k : κ} {v : β} : d.lookup k = some v ↔ (k, v) ∈ d := by
  induction d with
  | nil => simp
  | cons e rest ih =>
    obtain ⟨k', w⟩ := e
    rw [List.map_cons, List.nodup_cons] at h
    rw [List.lookup_cons]
    by_cases hk : k = k'
    · subst hk
      have hno : (k, v) ∉ rest := fun hin => h.1 (List.mem_map.mpr ⟨_, hin, rfl⟩)
      simp [hno, eq_comm]
    · rw [beq_eq_false_iff_ne.mpr hk, List.mem_cons]
      simp only
      rw [ih h.2]
      simp [hk]

theorem lookup_upsert (k k' : κ) (g : Option β → β) (d : List (κ × β)) :
    (upsert k g d).lookup k' = if k' = k then some (g (d.lookup k)) else d.lookup k' := by
  induction d with
  | nil =>
    rw [upsert]
    by_cases h : k' = k
    · simp [h]
    · simp [h, List.lookup_cons, beq_eq_false_iff_ne.mpr h]
  | cons e rest ih =>
    obtain ⟨k₀, v⟩ := e
    rw [upsert]
    by_cases h₀ : k₀ = k
    · subst h₀
      by_cases h : k' = k₀
      · simp [h]
      · simp [h, List.lookup_cons, beq_eq_false_iff_ne.mpr h]
    · have hk : k ≠ k₀ := fun he => h₀ he.symm
      rw [if_neg h₀, List.lookup_cons, List.lookup_cons, List.lookup_cons, ih, beq_eq_false_iff_ne.mpr hk]
      by_cases h : k' = k₀
      · subst h
        simp [h₀]
      · rw [beq_eq_false_iff_ne.mpr h]

/-- A new key comes at the end. -/
theorem upsert_fresh {k : κ} {g : Option β → β} {d : List (κ × β)} (h : k ∉ d.map Prod.fst) :
    upsert k g d = d ++ [(k, g none)] := by
  induction d with
  | nil => rfl
  | cons e rest ih =>
    obtain ⟨k', v⟩ := e
    rw [List.map_cons, List.mem_cons, not_or] at h
    rw [upsert, if_neg fun he => h.1 he.symm, ih h.2, List.cons_append]

/-- An update of a dictionary whose values are made from another's. -/
theorem upsert_map {γ : Type} (g : β → γ) (k : κ) (v : β) (d : List (κ × β)) :
    (upsert k (fun _ => v) d).map (fun e => (e.1, g e.2)) = upsert k (fun _ => g v) (d.map fun e => (e.1, g e.2)) := by
  induction d with
  | nil => rfl
  | cons e rest ih =>
    obtain ⟨k', w⟩ := e
    rw [upsert, List.map_cons, upsert]
    by_cases h : k' = k
    · simp [h]
    · simp [h, ih]

/-! ## Groups -/

section Groups

variable (key : α → κ)

/-- The elements by key, in the order they come. -/
def groups (l : List α) : List (κ × List α) := l.foldl (fun d x => upsert (key x) (fun o => o.getD [] ++ [x]) d) []

variable {key}

theorem upsert_flatten (k : κ) (x : α) (d : List (κ × List α)) :
    ((upsert k (fun o => o.getD [] ++ [x]) d).map Prod.snd).flatten.Perm ((d.map Prod.snd).flatten ++ [x]) := by
  induction d with
  | nil => exact List.Perm.refl _
  | cons e rest ih =>
    obtain ⟨k', v⟩ := e
    rw [upsert]
    by_cases h : k' = k
    · rw [if_pos h]
      simp only [List.map_cons, List.flatten_cons, Option.getD_some, List.append_assoc]
      exact (List.perm_append_comm).append_left v
    · rw [if_neg h]
      simp only [List.map_cons, List.flatten_cons, List.append_assoc]
      exact ih.append_left v

omit [DecidableEq κ] in
/-- What every update of a run of updates keeps. -/
theorem fold_keeps {P : List (κ × β) → Prop} {step : List (κ × β) → α → List (κ × β)}
    (hstep : ∀ d x, P d → P (step d x)) (l : List α)
    {d : List (κ × β)} (h : P d) : P (l.foldl step d) := by
  induction l generalizing d with
  | nil => exact h
  | cons x l ih => exact ih (hstep d x h)

theorem groups_nodup (l : List α) : ((groups key l).map Prod.fst).Nodup :=
  fold_keeps (P := fun d => (d.map Prod.fst).Nodup) (fun _ _ h => nodup_upsert h) l List.nodup_nil

/-- The elements of a group have its key. -/
theorem mem_groups {l : List α} {k : κ} {g : List α} (h : (k, g) ∈ groups key l) : ∀ x ∈ g, key x = k := by
  have hall : ((groups key l).map Prod.fst).Nodup ∧ ∀ e ∈ groups key l, ∀ x ∈ e.2, key x = e.1 := by
    refine fold_keeps (P := fun d => (d.map Prod.fst).Nodup ∧ ∀ e ∈ d, ∀ x ∈ e.2, key x = e.1)
      (fun d x hd => ⟨nodup_upsert hd.1, ?_⟩) l
      ⟨List.nodup_nil, fun e he => absurd he List.not_mem_nil⟩
    rintro ⟨k, g⟩ he y hy
    rcases (mem_upsert hd.1).mp he with ⟨-, he⟩ | ⟨hk, hg⟩
    · exact hd.2 _ he y hy
    · simp only at hk hg hy ⊢
      rw [hg] at hy
      rcases List.mem_append.mp hy with hy | hy
      · cases hlook : d.lookup (key x) with
        | none => simp [hlook] at hy
        | some g' =>
          rw [hlook] at hy
          exact hk ▸ hd.2 _ ((lookup_eq_some hd.1).mp hlook) y hy
      · rw [List.mem_singleton.mp hy, hk]
  exact hall.2 _ h

theorem groups_perm (l : List α) : ((groups key l).map Prod.snd).flatten.Perm l := by
  have hall : ∀ (l : List α) (d : List (κ × List α)),
      ((l.foldl (fun d x => upsert (key x) (fun o => o.getD [] ++ [x]) d) d).map Prod.snd).flatten.Perm
      ((d.map Prod.snd).flatten ++ l) := by
    intro l
    induction l with
    | nil => exact fun d => by simp
    | cons x l ih =>
      intro d
      refine (ih _).trans ?_
      rw [List.append_cons]
      exact (upsert_flatten (key x) x d).append_right l
  exact hall l []

end Groups

/-! ## The latest -/

section Latest

variable (key : α → κ)

/-- The last element under each key, in the order the keys come. -/
def latest (l : List α) : List (κ × α) := l.foldl (fun d x => upsert (key x) (fun _ => x) d) []

variable {key}

theorem latest_append (l : List α) (x : α) : latest key (l ++ [x]) = upsert (key x) (fun _ => x) (latest key l) := by
  simp [latest]

/-- The latest of elements made from others. -/
theorem latest_map {γ : Type} (g : γ → α) (l : List γ) :
    latest key (l.map g) = (latest (fun c => key (g c)) l).map fun e => (e.1, g e.2) := by
  induction l using List.reverseRecOn with
  | nil => rfl
  | append_singleton l c ih => rw [List.map_append, List.map_singleton, latest_append, latest_append, upsert_map, ih]

theorem latest_nodup (l : List α) : ((latest key l).map Prod.fst).Nodup :=
  fold_keeps (P := fun d => (d.map Prod.fst).Nodup) (fun _ _ h => nodup_upsert h) l List.nodup_nil

theorem mem_latest {l : List α} {k : κ} {x : α} :
    (k, x) ∈ latest key l ↔ key x = k ∧ ∃ before after, l = before ++ x :: after ∧ ∀ y ∈ after, key y ≠ k := by
  induction l using List.reverseRecOn with
  | nil => simp [latest]
  | append_singleton l y ih =>
    rw [latest_append, mem_upsert (latest_nodup l), ih]
    constructor
    · rintro (⟨hne, hx, before, after, rfl, hafter⟩ | ⟨rfl, rfl⟩)
      · refine ⟨hx, before, after ++ [y], by simp, fun z hz => ?_⟩
        rcases List.mem_append.mp hz with hz | hz
        · exact hafter z hz
        · rw [List.mem_singleton.mp hz]
          exact fun he => hne he.symm
      · exact ⟨rfl, l, [], rfl, by simp⟩
    · rintro ⟨hx, before, after, heq, hafter⟩
      rcases List.eq_nil_or_concat after with rfl | ⟨init, z, rfl⟩
      · obtain ⟨rfl, hyx⟩ := List.append_inj' heq rfl
        cases hyx
        exact .inr ⟨hx.symm, rfl⟩
      · rw [List.concat_eq_append] at heq hafter
        have hsplit : l ++ [y] = (before ++ x :: init) ++ [z] := by rw [heq]; simp
        obtain ⟨rfl, hyz⟩ := List.append_inj' hsplit rfl
        cases hyz
        exact .inl ⟨fun he => hafter y (by simp) he.symm, hx, before, init, rfl, fun w hw => hafter w (List.mem_append_left _ hw)⟩

theorem lookup_latest_isSome {l : List α} {k : κ} : ((latest key l).lookup k).isSome = true ↔ ∃ x ∈ l, key x = k := by
  induction l using List.reverseRecOn with
  | nil => simp [latest]
  | append_singleton l y ih =>
    rw [latest_append, lookup_upsert]
    by_cases hk : k = key y
    · simp [hk]
    · simp [hk, ih, Ne.symm hk]

end Latest

/-! ## Counts -/

/-- `Counter(l)` -/
def counter (l : List κ) : List (κ × Nat) := l.foldl (fun d x => upsert x (fun o => o.getD 0 + 1) d) []

theorem counter_nodup (l : List κ) : ((counter l).map Prod.fst).Nodup :=
  fold_keeps (P := fun d => (d.map Prod.fst).Nodup) (fun _ _ h => nodup_upsert h) l List.nodup_nil

theorem counter_append (l : List κ) (x : κ) : counter (l ++ [x]) = upsert x (fun o => o.getD 0 + 1) (counter l) := by
  unfold counter
  rw [List.foldl_append]
  rfl

theorem mem_counter {l : List κ} {k : κ} {n : Nat} : (k, n) ∈ counter l ↔ n = l.count k ∧ 0 < n := by
  induction l using List.reverseRecOn generalizing n with
  | nil => simp [counter]
  | append_singleton l x ih =>
    rw [counter_append, mem_upsert (counter_nodup l), ih, List.count_append]
    by_cases hk : k = x
    · subst hk
      have hlook : ((counter l).lookup k).getD 0 = l.count k := by
        cases hl : (counter l).lookup k with
        | some m => exact (ih.mp ((lookup_eq_some (counter_nodup l)).mp hl)).1
        | none =>
          by_contra hne
          have hin := (ih (n := l.count k)).mpr ⟨rfl, by simp at hne; omega⟩
          rw [(lookup_eq_some (counter_nodup l)).mpr hin] at hl
          cases hl
      rw [hlook]
      simp
      omega
    · have hx : [x].count k = 0 := List.count_eq_zero.mpr fun hin => hk (List.mem_singleton.mp hin)
      simp [hk, hx]

theorem counter_perm {l l' : List κ} (h : l.Perm l') : (counter l).Perm (counter l') := by
  refine (List.perm_ext_iff_of_nodup (counter_nodup l).of_map (counter_nodup l').of_map).mpr fun e => ?_
  obtain ⟨k, n⟩ := e
  rw [mem_counter, mem_counter, h.count_eq]

end OwnNet.Dict
