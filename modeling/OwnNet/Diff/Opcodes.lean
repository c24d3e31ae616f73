/-
  OwnNet.Diff.Opcodes — edit scripts between two lists of lines, grouped into hunks.

  `groupedOpcodes n` isolates the changes of a script: an unchanged range of more than
  `2 n` lines ends a group, `n` lines of it staying with the group before and `n` with the
  group after. A group becomes a hunk; `applyHunks` is the unified format's reading of a
  list of hunks, where an empty old range names the line before it.

  Proved, for a script that partitions both lists, copies equal ranges and has no two
  adjacent ones: the groups cover all changes (`grouped_covers`), and their hunks, applied
  to the one list, give the other (`apply_covered`).
-/

import Mathlib.Data.List.Basic
import Mathlib.Data.List.Chain

namespace OwnNet.Diff

variable {α : Type}

inductive Tag
  | equal | replace | delete | insert
  deriving DecidableEq

/-- `a[i1:i2]` becomes `b[j1:j2]`. -/
structure Opcode where
  tag : Tag
  i1 : Nat
  i2 : Nat
  j1 : Nat
  j2 : Nat

def slice (l : List α) (i j : Nat) : List α := (l.take j).drop i

/-! ## Grouping -/

def trimHead (n : Nat) : List Opcode → List Opcode
  | [] => []
  | c :: cs => (if c.tag = .equal then { c with i1 := max c.i1 (c.i2 - n), j1 := max c.j1 (c.j2 - n) } else c) :: cs

def trimLast (n : Nat) : List Opcode → List Opcode
  | [] => []
  | [c] => [if c.tag = .equal then { c with i2 := min c.i2 (c.i1 + n), j2 := min c.j2 (c.j1 + n) } else c]
  | c :: cs => c :: trimLast n cs

def onlyEqual : List Opcode → Bool
  | [] => true
  | [c] => c.tag = .equal
  | _ => false

def groupLoop (n : Nat) : List Opcode → List Opcode → List (List Opcode)
  | group, [] => if onlyEqual group then [] else [group]
  | group, c :: cs =>
    if c.tag = .equal ∧ n + n < c.i2 - c.i1 then
      (group ++ [{ c with i2 := min c.i2 (c.i1 + n), j2 := min c.j2 (c.j1 + n) }])
        :: groupLoop n [{ c with i1 := max c.i1 (c.i2 - n), j1 := max c.j1 (c.j2 - n) }] cs
    else groupLoop n (group ++ [c]) cs

/-- `get_grouped_opcodes`. -/
def groupedOpcodes (n : Nat) (codes : List Opcode) : List (List Opcode) :=
  let codes := if codes.isEmpty then [⟨.equal, 0, 1, 0, 1⟩] else codes
  groupLoop n [] (trimLast n (trimHead n codes))

/-! ## Hunks -/

/-- Which lists a body line belongs to. -/
inductive Side
  | both | old | new
  deriving DecidableEq

structure Hunk (α : Type) where
  oldStart : Nat
  oldLen : Nat
  newStart : Nat
  newLen : Nat
  body : List (Side × α)

def olds (body : List (Side × α)) : List α := (body.filter fun e => e.1 ≠ .new).map Prod.snd

def news (body : List (Side × α)) : List α := (body.filter fun e => e.1 ≠ .old).map Prod.snd

def entries (a b : List α) (c : Opcode) : List (Side × α) :=
  match c.tag with
  | .equal => (slice a c.i1 c.i2).map (.both, ·)
  | .replace => (slice a c.i1 c.i2).map (.old, ·) ++ (slice b c.j1 c.j2).map (.new, ·)
  | .delete => (slice a c.i1 c.i2).map (.old, ·)
  | .insert => (slice b c.j1 c.j2).map (.new, ·)

/-- The number a header gives a range: that of its first line, or of the line before an empty one. -/
def rangeStart (start count : Nat) : Nat := if count = 0 then start else start + 1

/-- A group's ranges run from the start of its first opcode to the end of its last. -/
def hunkOf (a b : List α) (group : List Opcode) : Hunk α :=
  let i := (group.head?.map Opcode.i1).getD 0
  let j := (group.head?.map Opcode.j1).getD 0
  let oldLen := (group.getLast?.map Opcode.i2).getD 0 - i
  let newLen := (group.getLast?.map Opcode.j2).getD 0 - j
  ⟨rangeStart i oldLen, oldLen, rangeStart j newLen, newLen, group.flatMap (entries a b)⟩

/-- Where a header's old range begins, counted from 0. -/
def Hunk.pos (h : Hunk α) : Nat := if h.oldLen = 0 then h.oldStart else h.oldStart - 1

/-- The hunks applied to `a` from line `pos` on: nothing if one does not fit. -/
def applyHunks [DecidableEq α] (a : List α) (pos : Nat) : List (Hunk α) → Option (List α)
  | [] => some (a.drop pos)
  | h :: hs =>
    if pos ≤ h.pos ∧ slice a h.pos (h.pos + h.oldLen) = olds h.body then
      (applyHunks a (h.pos + h.oldLen) hs).map fun rest => slice a pos h.pos ++ news h.body ++ rest
    else none

/-! ## Scripts -/

structure Opcode.Fits (a b : List α) (c : Opcode) : Prop where
  i_le : c.i1 ≤ c.i2
  j_le : c.j1 ≤ c.j2
  i_bound : c.i2 ≤ a.length
  j_bound : c.j2 ≤ b.length
  equal : c.tag = .equal → c.j2 - c.j1 = c.i2 - c.i1 ∧ slice a c.i1 c.i2 = slice b c.j1 c.j2
  replace : c.tag = .replace → c.i1 < c.i2 ∧ c.j1 < c.j2
  delete : c.tag = .delete → c.i1 < c.i2 ∧ c.j1 = c.j2
  insert : c.tag = .insert → c.i1 = c.i2 ∧ c.j1 < c.j2

/-- A run of opcodes from `(i, j)` to `(i', j')`, each taking up where the one before ended. -/
inductive Script (a b : List α) : Nat → Nat → List Opcode → Nat → Nat → Prop
  | nil {i j : Nat} : Script a b i j [] i j
  | cons {c : Opcode} {cs : List Opcode} {i' j' : Nat} : c.Fits a b → Script a b c.i2 c.j2 cs i' j' →
      Script a b c.i1 c.j1 (c :: cs) i' j'

def Apart (c d : Opcode) : Prop := ¬(c.tag = .equal ∧ d.tag = .equal)

/-- What a script for `a` and `b` is: a partition of both, with no two adjacent equal ranges. -/
structure IsScript (a b : List α) (codes : List Opcode) : Prop where
  run : Script a b 0 0 codes a.length b.length
  apart : codes.IsChain Apart

def Changes (group : List Opcode) : Prop := ∃ c ∈ group, c.tag ≠ .equal

/-- The groups, from `(i, j)` on: unchanged ranges between them (not empty, after a group), and
    after the last. -/
inductive Covers (a b : List α) : Bool → List (List Opcode) → Nat → Nat → Prop
  | done {strict : Bool} {i j : Nat} : a.drop i = b.drop j → Covers a b strict [] i j
  | group {strict : Bool} {g : List Opcode} {gs : List (List Opcode)} {i j k i' j' : Nat} :
      (strict = true → 0 < k) → i + k ≤ a.length → j + k ≤ b.length →
      slice a i (i + k) = slice b j (j + k) → Script a b (i + k) (j + k) g i' j' → Changes g →
      Covers a b true gs i' j' → Covers a b strict (g :: gs) i j

/-! ## Slices -/

section Slices

variable {l : List α} {i j k : Nat}

theorem slice_drop (h : i ≤ j) : slice l i j ++ l.drop j = l.drop i := by
  have hj : l.drop j = (l.drop i).drop (j - i) := by rw [List.drop_drop, Nat.add_sub_cancel' h]
  unfold slice
  rw [List.drop_take, hj]
  exact List.take_append_drop _ _

theorem slice_append (hij : i ≤ j) (hjk : j ≤ k) : slice l i j ++ slice l j k = slice l i k := by
  unfold slice
  have h : l.take j = (l.take k).take j := by rw [List.take_take, Nat.min_eq_left hjk]
  rw [h]
  exact slice_drop hij

theorem slice_length (h : j ≤ l.length) : (slice l i j).length = j - i := by
  unfold slice
  rw [List.length_drop, List.length_take, Nat.min_eq_left h]

theorem slice_slice {x y : Nat} (h : i + y ≤ j) : slice (slice l i j) x y = slice l (i + x) (i + y) := by
  unfold slice
  rw [List.take_drop, List.drop_drop, List.take_take, Nat.min_eq_left h]

theorem slice_zero (h : l.length ≤ j) : slice l 0 j = l := by
  unfold slice
  rw [List.drop_zero, List.take_of_length_le h]

end Slices

/-! ## Runs of opcodes -/

section Scripts

variable {a b : List α}

theorem Script.append {cs ds : List Opcode} {i j i' j' i'' j'' : Nat} (h : Script a b i j cs i' j')
    (h' : Script a b i' j' ds i'' j'') : Script a b i j (cs ++ ds) i'' j'' := by
  induction h with
  | nil => exact h'
  | cons hc _ ih => exact .cons hc (ih h')

theorem Script.mono {cs : List Opcode} {i j i' j' : Nat} (h : Script a b i j cs i' j') : i ≤ i' ∧ j ≤ j' := by
  induction h with
  | nil => exact ⟨Nat.le_refl _, Nat.le_refl _⟩
  | cons hc _ ih => exact ⟨Nat.le_trans hc.i_le ih.1, Nat.le_trans hc.j_le ih.2⟩

theorem Script.start {c : Opcode} {cs : List Opcode} {i j i' j' : Nat} (h : Script a b i j (c :: cs) i' j') :
    c.i1 = i ∧ c.j1 = j ∧ c.Fits a b ∧ Script a b c.i2 c.j2 cs i' j' := by
  cases h with
  | cons hc ht => exact ⟨rfl, rfl, hc, ht⟩

theorem Script.stop {i j i' j' : Nat} (h : Script a b i j [] i' j') : i' = i ∧ j' = j := by
  generalize hcs : ([] : List Opcode) = cs at h
  cases h with
  | nil => exact ⟨rfl, rfl⟩
  | cons => cases hcs

theorem Script.bound {cs : List Opcode} {i j i' j' : Nat} (h : Script a b i j cs i' j') (hne : cs ≠ []) :
    i' ≤ a.length ∧ j' ≤ b.length ∧ (cs.getLast?.map Opcode.i2).getD 0 = i' ∧
      (cs.getLast?.map Opcode.j2).getD 0 = j' := by
  induction h with
  | nil => exact absurd rfl hne
  | @cons c cs i' j' hc ht ih =>
    cases cs with
    | nil =>
      obtain ⟨rfl, rfl⟩ := ht.stop
      exact ⟨hc.i_bound, hc.j_bound, rfl, rfl⟩
    | cons d ds =>
      obtain ⟨h1, h2, h3, h4⟩ := ih (List.cons_ne_nil _ _)
      exact ⟨h1, h2, by simpa using h3, by simpa using h4⟩

theorem olds_append (x y : List (Side × α)) : olds (x ++ y) = olds x ++ olds y := by
  simp [olds, List.filter_append, List.map_append]

theorem news_append (x y : List (Side × α)) : news (x ++ y) = news x ++ news y := by
  simp [news, List.filter_append, List.map_append]

theorem olds_map (s : Side) (l : List α) : olds (l.map (s, ·)) = if s = .new then [] else l := by
  unfold olds
  by_cases h : s = .new
  · simp [h, List.filter_map, Function.comp_def]
  · simp [h, List.filter_map, Function.comp_def]

theorem news_map (s : Side) (l : List α) : news (l.map (s, ·)) = if s = .old then [] else l := by
  unfold news
  by_cases h : s = .old
  · simp [h, List.filter_map, Function.comp_def]
  · simp [h, List.filter_map, Function.comp_def]

theorem slice_self (l : List α) (i : Nat) : slice l i i = [] := by
  unfold slice
  exact List.drop_eq_nil_of_le (by rw [List.length_take]; omega)

/-- A fitting opcode's lines are its range of each list. -/
theorem Opcode.Fits.sides {c : Opcode} (h : c.Fits a b) :
    olds (entries a b c) = slice a c.i1 c.i2 ∧ news (entries a b c) = slice b c.j1 c.j2 := by
  unfold entries
  cases ht : c.tag with
  | equal => exact ⟨by rw [olds_map]; rfl, by rw [news_map, if_neg (by decide)]; exact (h.equal ht).2⟩
  | replace =>
    constructor
    · rw [olds_append, olds_map, olds_map]; simp
    · rw [news_append, news_map, news_map]; simp
  | delete =>
    constructor
    · rw [olds_map]; simp
    · rw [news_map, (h.delete ht).2, slice_self]; simp
  | insert =>
    constructor
    · rw [olds_map, (h.insert ht).1, slice_self]; simp
    · rw [news_map]; simp

theorem Script.sides {cs : List Opcode} {i j i' j' : Nat} (h : Script a b i j cs i' j') :
    olds (cs.flatMap (entries a b)) = slice a i i' ∧ news (cs.flatMap (entries a b)) = slice b j j' := by
  induction h with
  | nil => exact ⟨by rw [slice_self]; rfl, by rw [slice_self]; rfl⟩
  | @cons c cs i' j' hc ht ih =>
    obtain ⟨h1, h2⟩ := hc.sides
    obtain ⟨h3, h4⟩ := ht.mono
    rw [List.flatMap_cons, olds_append, news_append, h1, h2, ih.1, ih.2, slice_append hc.i_le h3,
      slice_append hc.j_le h4]
    exact ⟨rfl, rfl⟩

/-! ## Grouping covers the changes -/

theorem Covers.gap {strict : Bool} {gs : List (List Opcode)} {i j k : Nat} (h : Covers a b false gs (i + k) (j + k))
    (hk : strict = true → 0 < k) (he : slice a i (i + k) = slice b j (j + k)) : Covers a b strict gs i j := by
  cases h with
  | done hd => exact .done (by rw [← slice_drop (Nat.le_add_right i k), ← slice_drop (Nat.le_add_right j k), he, hd])
  | @group _ g gs _ _ k' i' j' _ hi' hj' he' hs hch hr =>
    refine .group (k := k + k') (fun h => ?_) (by omega) (by omega) ?_ ?_ hch hr
    · have := hk h; omega
    · rw [← slice_append (Nat.le_add_right i k) (by omega : i + k ≤ i + (k + k')),
        ← slice_append (Nat.le_add_right j k) (by omega : j + k ≤ j + (k + k')), he]
      rw [show i + (k + k') = i + k + k' by omega, show j + (k + k') = j + k + k' by omega, he']
    · rw [show i + (k + k') = i + k + k' by omega, show j + (k + k') = j + k + k' by omega]
      exact hs

/-- Equal ranges stay equal within. -/
theorem equal_within {i1 i2 j1 j2 x y : Nat} (he : slice a i1 i2 = slice b j1 j2) (hl : j2 - j1 = i2 - i1)
    (hi : i1 + y ≤ i2) (hj : j1 ≤ j2) : slice a (i1 + x) (i1 + y) = slice b (j1 + x) (j1 + y) := by
  rw [← slice_slice hi, ← slice_slice (by omega : j1 + y ≤ j2), he]

/-- A piece of an equal opcode, `x` lines in and `y` lines on. -/
theorem Opcode.Fits.piece {c : Opcode} (h : c.Fits a b) (ht : c.tag = .equal) {x y : Nat} (hxy : x ≤ y)
    (hy : c.i1 + y ≤ c.i2) :
    (⟨c.tag, c.i1 + x, c.i1 + y, c.j1 + x, c.j1 + y⟩ : Opcode).Fits a b := by
  obtain ⟨h2, h3⟩ := h.equal ht
  have hb := h.i_bound
  have hb' := h.j_bound
  have hj := h.j_le
  refine ⟨by simp only; omega, by simp only; omega, by simp only; omega, by simp only; omega, fun _ => ?_, ?_, ?_, ?_⟩
  · exact ⟨by simp only; omega, equal_within h3 h2 hy hj⟩
  · intro hr; simp only [ht] at hr; cases hr
  · intro hr; simp only [ht] at hr; cases hr
  · intro hr; simp only [ht] at hr; cases hr

theorem changes_append_left {g h : List Opcode} (hg : Changes g) : Changes (g ++ h) := by
  obtain ⟨c, hc, ht⟩ := hg
  exact ⟨c, List.mem_append_left _ hc, ht⟩

/-- A group open at a range of no changes holds a change already. -/
theorem changes_of_apart {g cs : List Opcode} {c : Opcode} (hch : (g ++ c :: cs).IsChain Apart)
    (hg : Changes g ∨ ∃ d, g = [d] ∧ d.tag = .equal) (ht : c.tag = .equal) : Changes g := by
  rcases hg with hg | ⟨d, rfl, hd⟩
  · exact hg
  · rw [List.singleton_append, List.isChain_cons_cons] at hch
    exact absurd ⟨hd, ht⟩ hch.1

theorem groupLoop_covers (n : Nat) {i' j' : Nat} (hend : a.drop i' = b.drop j') :
    ∀ (cs g : List Opcode) (s t i j : Nat), g ≠ [] → Script a b s t g i j → Script a b i j cs i' j' →
      (g ++ cs).IsChain Apart → (Changes g ∨ ∃ d, g = [d] ∧ d.tag = .equal) →
      Covers a b false (groupLoop n g cs) s t := by
  intro cs
  induction cs with
  | nil =>
    intro g s t i j hne hg hcs _ hch
    obtain ⟨rfl, rfl⟩ := hcs.stop
    unfold groupLoop
    rcases hch with hch | ⟨d, rfl, hd⟩
    · have hng : onlyEqual g = false := by
        obtain ⟨c, hc, ht⟩ := hch
        match g, hne with
        | [d], _ =>
          rw [List.mem_singleton] at hc
          subst hc
          simp [onlyEqual, ht]
        | _ :: _ :: _, _ => rfl
      rw [hng]
      exact .group (k := 0) (fun h => by cases h) (Nat.le_trans hg.mono.1 (hg.bound hne).1)
        (Nat.le_trans hg.mono.2 (hg.bound hne).2.1) (by rw [Nat.add_zero, Nat.add_zero, slice_self, slice_self]) hg hch
        (.done hend)
    · have : onlyEqual [d] = true := by simp [onlyEqual, hd]
      rw [this]
      obtain ⟨rfl, rfl, hf, ht⟩ := hg.start
      obtain ⟨rfl, rfl⟩ := ht.stop
      exact .done (by rw [← slice_drop hf.i_le, ← slice_drop hf.j_le, (hf.equal hd).2, hend])
  | cons c cs ih =>
    intro g s t i j hne hg hcs hchain hch
    obtain ⟨rfl, rfl, hf, hrest⟩ := hcs.start
    have htail : (c :: cs).IsChain Apart := (List.isChain_append.mp hchain).2.1
    unfold groupLoop
    split
    next hsplit =>
      obtain ⟨ht, hlong⟩ := hsplit
      have hchange := changes_of_apart hchain hch ht
      obtain ⟨h2, h3⟩ := hf.equal ht
      have hj := hf.j_le
      have hib := hf.i_bound
      have hjb := hf.j_bound
      rw [show min c.i2 (c.i1 + n) = c.i1 + n by omega, show min c.j2 (c.j1 + n) = c.j1 + n by omega,
        show max c.i1 (c.i2 - n) = c.i2 - n by omega, show max c.j1 (c.j2 - n) = c.j2 - n by omega]
      -- the `n` lines kept before, the gap, and the `n` lines kept after
      have hbefore := hf.piece ht (Nat.zero_le n) (by omega)
      have hafter := hf.piece ht (x := c.i2 - c.i1 - n) (y := c.i2 - c.i1) (by omega) (by omega)
      rw [Nat.add_zero, Nat.add_zero] at hbefore
      rw [show c.i1 + (c.i2 - c.i1 - n) = c.i2 - n by omega, show c.j1 + (c.i2 - c.i1 - n) = c.j2 - n by omega,
        show c.i1 + (c.i2 - c.i1) = c.i2 by omega, show c.j1 + (c.i2 - c.i1) = c.j2 by omega] at hafter
      have hnext := ih [⟨c.tag, c.i2 - n, c.i2, c.j2 - n, c.j2⟩] (c.i2 - n) (c.j2 - n) c.i2 c.j2 (by simp)
        (.cons hafter .nil) hrest (by
          cases cs with
          | nil => simp
          | cons d ds =>
            rw [List.isChain_cons_cons] at htail
            exact List.isChain_cons_cons.mpr ⟨fun h => htail.1 h, htail.2⟩)
        (Or.inr ⟨_, rfl, ht⟩)
      refine .group (k := 0) (fun h => by cases h) (by have := hg.mono.1; omega) (by have := hg.mono.2; omega)
        (by rw [Nat.add_zero, Nat.add_zero, slice_self, slice_self]) (hg.append (.cons hbefore .nil))
        (changes_append_left hchange) ?_
      refine Covers.gap (k := c.i2 - n - (c.i1 + n)) ?_ (fun _ => by omega) ?_
      · simp only
        rw [show c.i1 + n + (c.i2 - n - (c.i1 + n)) = c.i2 - n by omega,
          show c.j1 + n + (c.i2 - n - (c.i1 + n)) = c.j2 - n by omega]
        exact hnext
      · simp only
        have := equal_within (x := n) (y := c.i2 - n - c.i1) h3 h2 (by omega) hj
        rw [show c.i1 + n + (c.i2 - n - (c.i1 + n)) = c.i1 + (c.i2 - n - c.i1) by omega,
          show c.j1 + n + (c.i2 - n - (c.i1 + n)) = c.j1 + (c.i2 - n - c.i1) by omega]
        exact this
    next hshort =>
      refine ih (g ++ [c]) s t c.i2 c.j2 (by simp) (hg.append (.cons hf .nil)) hrest (by simpa using hchain) ?_
      by_cases ht : c.tag = .equal
      · exact Or.inl (changes_append_left (changes_of_apart hchain hch ht))
      · exact Or.inl ⟨c, by simp, ht⟩

theorem isChain_tags {cs ds : List Opcode} (h : cs.map Opcode.tag = ds.map Opcode.tag) (hc : cs.IsChain Apart) :
    ds.IsChain Apart := by
  have hR : ∀ l : List Opcode, l.IsChain Apart ↔
      (l.map Opcode.tag).IsChain fun x y => ¬(x = Tag.equal ∧ y = Tag.equal) := fun l => by
    rw [List.isChain_map]
    exact Iff.rfl
  rw [hR] at hc ⊢
  rw [← h]
  exact hc

/-- The last range, trimmed: what it loses is unchanged. -/
theorem trimLast_script (n : Nat) {cs : List Opcode} {i j : Nat} (h : Script a b i j cs a.length b.length)
    (hne : cs ≠ []) : ∃ i' j', Script a b i j (trimLast n cs) i' j' ∧ a.drop i' = b.drop j' ∧
      (trimLast n cs).map Opcode.tag = cs.map Opcode.tag := by
  induction cs generalizing i j with
  | nil => exact absurd rfl hne
  | cons c cs ih =>
    obtain ⟨rfl, rfl, hf, ht⟩ := h.start
    cases cs with
    | nil =>
      obtain ⟨hi, hj⟩ := ht.stop
      unfold trimLast
      split
      next he =>
        obtain ⟨h2, h3⟩ := hf.equal he
        have hle := hf.i_le
        have hle' := hf.j_le
        by_cases hn : c.i1 + n ≤ c.i2
        · have hp := hf.piece he (Nat.zero_le n) hn
          rw [Nat.add_zero, Nat.add_zero] at hp
          rw [Nat.min_eq_right hn, Nat.min_eq_right (by omega : c.j1 + n ≤ c.j2)]
          refine ⟨c.i1 + n, c.j1 + n, .cons hp .nil, ?_, rfl⟩
          have hw := equal_within (x := n) (y := c.i2 - c.i1) h3 h2 (by omega) hle'
          rw [show c.i1 + (c.i2 - c.i1) = c.i2 by omega, show c.j1 + (c.i2 - c.i1) = c.j2 by omega, ← hi, ← hj] at hw
          rw [← slice_drop (by omega : c.i1 + n ≤ a.length), ← slice_drop (by omega : c.j1 + n ≤ b.length), hw,
            List.drop_length, List.drop_length]
        · rw [Nat.min_eq_left (by omega : c.i2 ≤ c.i1 + n), Nat.min_eq_left (by omega : c.j2 ≤ c.j1 + n)]
          exact ⟨c.i2, c.j2, .cons hf .nil, by rw [← hi, ← hj, List.drop_length, List.drop_length], rfl⟩
      next => exact ⟨c.i2, c.j2, .cons hf .nil, by rw [← hi, ← hj, List.drop_length, List.drop_length], rfl⟩
    | cons d ds =>
      obtain ⟨i', j', hs, hd, htag⟩ := ih ht (List.cons_ne_nil _ _)
      refine ⟨i', j', .cons hf hs, hd, ?_⟩
      show c.tag :: (trimLast n (d :: ds)).map Opcode.tag = c.tag :: (d :: ds).map Opcode.tag
      rw [htag]

/-- The first range, trimmed to at most `n` lines: what it loses is unchanged. -/
theorem trim_first (n : Nat) {c : Opcode} (hf : c.Fits a b) (he : c.tag = .equal) :
    ∃ k, c.i1 + k ≤ c.i2 ∧ c.j1 + k ≤ c.j2 ∧ max c.i1 (c.i2 - n) = c.i1 + k ∧ max c.j1 (c.j2 - n) = c.j1 + k ∧
      c.i2 - (c.i1 + k) ≤ n := by
  obtain ⟨h2, -⟩ := hf.equal he
  have hi := hf.i_le
  have hj := hf.j_le
  exact ⟨c.i2 - n - c.i1, by omega, by omega, by omega, by omega, by omega⟩

/-- The groups of a script between two different lists cover its changes. -/
theorem grouped_covers (n : Nat) {codes : List Opcode} (h : IsScript a b codes) (hab : a ≠ b) :
    Covers a b false (groupedOpcodes n codes) 0 0 := by
  have hrun := h.run
  unfold groupedOpcodes
  cases codes with
  | nil =>
    obtain ⟨hi, hj⟩ := hrun.stop
    exact absurd ((List.eq_nil_of_length_eq_zero hi).trans (List.eq_nil_of_length_eq_zero hj).symm) hab
  | cons c cs =>
    obtain ⟨h0, h0', hf, ht⟩ := hrun.start
    rw [show (c :: cs).isEmpty = false from rfl]
    simp only [Bool.false_eq_true, if_false]
    cases cs with
    | nil =>
      obtain ⟨hi, hj⟩ := ht.stop
      have hne : c.tag ≠ .equal := by
        intro he
        have h3 := (hf.equal he).2
        rw [h0, h0', ← hi, ← hj, slice_zero (Nat.le_refl _), slice_zero (Nat.le_refl _)] at h3
        exact hab h3
      simp only [trimHead, hne, if_false, trimLast]
      unfold groupLoop
      rw [if_neg fun hs => hne hs.1, List.nil_append]
      refine groupLoop_covers n ?_ [] [c] 0 0 c.i2 c.j2 (by simp) ?_ .nil (by simp) (Or.inl ⟨c, by simp, hne⟩)
      · rw [← hi, ← hj, List.drop_length, List.drop_length]
      · have hcons := Script.cons hf (@Script.nil _ a b c.i2 c.j2)
        rw [h0, h0'] at hcons
        exact hcons
    | cons d ds =>
      obtain ⟨i', j', hs, hd, htag⟩ := trimLast_script n ht (List.cons_ne_nil d ds)
      have hchain : (c :: trimLast n (d :: ds)).IsChain Apart :=
        isChain_tags (by rw [List.map_cons, List.map_cons (l := trimLast n (d :: ds)), htag]) h.apart
      by_cases he : c.tag = .equal
      · obtain ⟨k, hk1, hk2, hm1, hm2, hsmall⟩ := trim_first n hf he
        have hp := hf.piece he (x := k) (y := c.i2 - c.i1) (by omega) (by have := hf.i_le; omega)
        obtain ⟨h2, h3⟩ := hf.equal he
        have hi := hf.i_le
        have hj := hf.j_le
        rw [show c.i1 + (c.i2 - c.i1) = c.i2 by omega, show c.j1 + (c.i2 - c.i1) = c.j2 by omega] at hp
        have hgap : slice a 0 (0 + k) = slice b 0 (0 + k) := by
          have hw := equal_within (x := 0) (y := k) h3 h2 hk1 hj
          rw [h0, h0', Nat.add_zero] at hw
          exact hw
        simp only [trimHead, he, if_true, trimLast]
        rw [hm1, hm2]
        unfold groupLoop
        rw [if_neg fun hs => by have := hs.2; simp only at this; omega, List.nil_append]
        refine Covers.gap (k := k) ?_ (fun h => by cases h) hgap
        rw [← he]
        have hcov := groupLoop_covers n hd (trimLast n (d :: ds)) [⟨c.tag, c.i1 + k, c.i2, c.j1 + k, c.j2⟩] (c.i1 + k)
          (c.j1 + k) c.i2 c.j2 (by simp) (.cons hp .nil) hs (isChain_tags (by simp) hchain) (Or.inr ⟨_, rfl, he⟩)
        rw [h0, h0'] at hcov ⊢
        exact hcov
      · simp only [trimHead, he, if_false, trimLast]
        unfold groupLoop
        rw [if_neg fun hs => he hs.1, List.nil_append]
        refine groupLoop_covers n hd (trimLast n (d :: ds)) [c] 0 0 c.i2 c.j2 (by simp) ?_ hs hchain
          (Or.inl ⟨c, by simp, he⟩)
        have hcons := Script.cons hf (@Script.nil _ a b c.i2 c.j2)
        rw [h0, h0'] at hcons
        exact hcons

/-! ## Applying the hunks -/

theorem Script.hunk {g : List Opcode} {i j i' j' : Nat} (h : Script a b i j g i' j') (hne : g ≠ []) :
    hunkOf a b g = ⟨rangeStart i (i' - i), i' - i, rangeStart j (j' - j), j' - j, g.flatMap (entries a b)⟩ := by
  obtain ⟨-, -, hi, hj⟩ := h.bound hne
  cases g with
  | nil => exact absurd rfl hne
  | cons c cs =>
    obtain ⟨h1, h2, -, -⟩ := h.start
    unfold hunkOf
    simp only [hi, hj, List.head?_cons, Option.map_some, Option.getD_some, h1, h2]

theorem hunk_pos {i j n m : Nat} {body : List (Side × α)} : Hunk.pos ⟨rangeStart i n, n, rangeStart j m, m, body⟩ = i := by
  unfold Hunk.pos rangeStart
  split <;> simp_all

theorem Changes.ne_nil {g : List Opcode} (h : Changes g) : g ≠ [] := by
  rintro rfl
  obtain ⟨c, hc, -⟩ := h
  cases hc

/-- The hunks of covering groups turn the one list into the other. -/
theorem apply_covered [DecidableEq α] {strict : Bool} {gs : List (List Opcode)} {i j : Nat}
    (h : Covers a b strict gs i j) : applyHunks a i (gs.map (hunkOf a b)) = some (b.drop j) := by
  induction h with
  | done hd => rw [List.map_nil, applyHunks, hd]
  | @group strict g gs i j k i' j' _ _ _ he hs hch _ ih =>
    rw [List.map_cons, hs.hunk hch.ne_nil, applyHunks, hunk_pos]
    obtain ⟨ho, hn⟩ := hs.sides
    obtain ⟨hi, hj⟩ := hs.mono
    have hend : i + k + (i' - (i + k)) = i' := by omega
    simp only [ho, hn, hend]
    rw [if_pos ⟨Nat.le_add_right _ _, trivial⟩, ih, Option.map_some, he, List.append_assoc, slice_drop hj,
      slice_drop (Nat.le_add_right j k)]

end Scripts

end OwnNet.Diff
