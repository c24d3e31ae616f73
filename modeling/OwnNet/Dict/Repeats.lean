/-
  OwnNet.Dict.Repeats — a list's repeats told apart by a mark with their number.

  Proved: `nodup_marked`: the marks make a list's elements distinct exactly where no mark is
  itself an element (`Clear`); `nodup_marked_twice`: and so marked twice.
-/

import Mathlib.Data.List.Nodup
import OwnNet.Dict.Grouped

namespace OwnNet.Dict

variable {α : Type} [DecidableEq α]

/-! ## Numbers -/

/-- Each element with the number of its like before it. -/
def numbered (before : List α) : List α → List (α × Nat)
  | [] => []
  | x :: rest => (x, before.count x) :: numbered (x :: before) rest

theorem mem_numbered {before l : List α} {a : α} {n : Nat} :
    (a, n) ∈ numbered before l ↔ before.count a ≤ n ∧ n < before.count a + l.count a := by
  induction l generalizing before with
  | nil => simp [numbered]
  | cons x rest ih =>
    rw [numbered, List.mem_cons, ih, Prod.mk.injEq]
    by_cases h : a = x
    · subst h
      simp only [List.count_cons_self, true_and]
      omega
    · have hx : x ≠ a := fun he => h he.symm
      simp [h, List.count_cons_of_ne hx]

theorem numbered_nodup (before l : List α) : (numbered before l).Nodup := by
  induction l generalizing before with
  | nil => exact List.nodup_nil
  | cons x rest ih =>
    refine List.nodup_cons.mpr ⟨fun h => ?_, ih _⟩
    have hlt := (mem_numbered.mp h).1
    rw [List.count_cons_self] at hlt
    omega

theorem numbered_fst (before l : List α) : (numbered before l).map Prod.fst = l := by
  induction l generalizing before with
  | nil => rfl
  | cons x rest ih => rw [numbered, List.map_cons, ih]

theorem numbered_of_nodup {before l : List α} (h : l.Nodup) (hno : ∀ a ∈ l, a ∉ before) :
    numbered before l = l.map fun a => (a, 0) := by
  induction l generalizing before with
  | nil => rfl
  | cons x rest ih =>
    rw [List.nodup_cons] at h
    have hx : before.count x = 0 := List.count_eq_zero.mpr (hno x List.mem_cons_self)
    rw [numbered, hx, List.map_cons, ih h.2 fun a ha hin => ?_]
    rcases List.mem_cons.mp hin with rfl | hin
    · exact h.1 ha
    · exact hno a (List.mem_cons_of_mem _ ha) hin

/-! ## Marks -/

section Marks

variable (mark : α → Nat → α)

/-- The first of its like as it is, those after it marked. -/
def label (e : α × Nat) : α := if e.2 = 0 then e.1 else mark e.1 e.2

def marked (l : List α) : List α := (numbered [] l).map (label mark)

/-- A mark shows what it is on and its number. -/
def Shows : Prop := ∀ a b m n, mark a m = mark b n → a = b ∧ m = n

/-- No mark that is put on a repeat is an element. -/
def Clear (l : List α) : Prop := ∀ a n, 0 < n → n < l.count a → mark a n ∉ l

variable {mark}

omit [DecidableEq α] in
@[simp] theorem label_zero (a : α) : label mark (a, 0) = a := rfl

omit [DecidableEq α] in
theorem label_pos {a : α} {n : Nat} (h : 0 < n) : label mark (a, n) = mark a n := by
  rw [label, if_neg (by omega)]

theorem mem_numbered_zero {l : List α} {a : α} : (a, 0) ∈ numbered [] l ↔ a ∈ l := by
  rw [mem_numbered, List.count_nil, Nat.zero_add, List.count_pos_iff]
  simp

theorem mem_numbered_nil {l : List α} {a : α} {n : Nat} : (a, n) ∈ numbered [] l ↔ n < l.count a := by
  rw [mem_numbered]
  simp

theorem mem_marked {l : List α} {x : α} : x ∈ marked mark l ↔ x ∈ l ∨ ∃ a n, 0 < n ∧ n < l.count a ∧ mark a n = x := by
  unfold marked
  rw [List.mem_map]
  refine ⟨fun ⟨⟨a, n⟩, hin, hx⟩ => ?_, fun h => ?_⟩
  · by_cases hn : n = 0
    · subst hn
      exact .inl (hx ▸ mem_numbered_zero.mp hin)
    · rw [label_pos (by omega)] at hx
      exact .inr ⟨a, n, by omega, mem_numbered_nil.mp hin, hx⟩
  · rcases h with h | ⟨a, n, hn, hlt, rfl⟩
    · exact ⟨(x, 0), mem_numbered_zero.mpr h, rfl⟩
    · exact ⟨(a, n), mem_numbered_nil.mpr hlt, label_pos hn⟩

theorem marked_of_nodup {l : List α} (h : l.Nodup) : marked mark l = l := by
  rw [marked, numbered_of_nodup h fun _ _ => List.not_mem_nil, List.map_map]
  exact List.map_id' l

omit [DecidableEq α] in
/-- Two elements with one label are one, or one of them is a mark. -/
theorem label_eq (hmark : Shows mark) {a b : α} {m n : Nat} (h : label mark (a, m) = label mark (b, n)) :
    (a, m) = (b, n) ∨ (0 < m ∧ n = 0 ∧ mark a m = b) ∨ (m = 0 ∧ 0 < n ∧ mark b n = a) := by
  by_cases hm : m = 0
  · by_cases hn : n = 0
    · subst hm hn
      exact .inl (by rw [show a = b from h])
    · rw [hm, label_zero, label_pos (by omega)] at h
      exact .inr (.inr ⟨hm, by omega, h.symm⟩)
  · by_cases hn : n = 0
    · rw [hn, label_zero, label_pos (by omega)] at h
      exact .inr (.inl ⟨by omega, hn, h⟩)
    · rw [label_pos (by omega), label_pos (by omega)] at h
      obtain ⟨rfl, rfl⟩ := hmark _ _ _ _ h
      exact .inl rfl

/-- The marks tell a list's elements apart where none of them is one. -/
theorem nodup_marked (hmark : Shows mark) (l : List α) : (marked mark l).Nodup ↔ Clear mark l := by
  rw [marked, List.nodup_map_iff_inj_on (numbered_nodup [] l)]
  refine ⟨fun h a n hn hlt hin => ?_, fun h => ?_⟩
  · have heq := h (a, n) (mem_numbered_nil.mpr hlt) (mark a n, 0) (mem_numbered_zero.mpr hin) (label_pos hn)
    exact absurd (Prod.mk.inj heq).2 (by omega)
  · intro ⟨a, m⟩ ha ⟨b, n⟩ hb heq
    rcases label_eq hmark heq with he | ⟨hm, hn, rfl⟩ | ⟨hm, hn, rfl⟩
    · exact he
    · subst hn
      exact absurd (mem_numbered_zero.mp hb) (h a m hm (mem_numbered_nil.mp ha))
    · subst hm
      exact absurd (mem_numbered_zero.mp ha) (h b n hn (mem_numbered_nil.mp hb))

/-! Marked twice. -/

theorem count_marked (l : List α) (x : α) :
    (marked mark l).count x = ((numbered [] l).filter fun e => label mark e = x).length := by
  unfold marked
  rw [List.count, List.countP_map, List.countP_eq_length_filter]
  rfl

/-- What has a label is an element or one mark. -/
theorem count_marked_le (hmark : Shows mark) (l : List α) (x : α) : (marked mark l).count x ≤ 2 := by
  rw [count_marked]
  have hnodup := (numbered_nodup [] l).filter fun e => label mark e = x
  have hlabel : ∀ e ∈ (numbered [] l).filter fun e => label mark e = x, label mark e = x :=
    fun e he => by simpa using (List.mem_filter.mp he).2
  match hk : (numbered [] l).filter fun e => label mark e = x with
  | [] => simp
  | [_] => simp
  | [_, _] => simp
  | (a, i) :: (b, j) :: (c, k) :: rest =>
    rw [hk] at hnodup hlabel
    simp only [List.nodup_cons, List.mem_cons, not_or] at hnodup
    obtain ⟨⟨hab, hac, -⟩, ⟨hbc, -⟩, -⟩ := hnodup
    have ha := hlabel (a, i) (by simp)
    have hb := hlabel (b, j) (by simp)
    have hc := hlabel (c, k) (by simp)
    -- of three, two are elements as they are, or two are marked
    rcases label_eq hmark (ha.trans hb.symm) with he | ⟨hi, hj, hm⟩ | ⟨hi, hj, hm⟩
    · exact absurd he hab
    · rcases label_eq hmark (ha.trans hc.symm) with he | ⟨-, hk', hm'⟩ | ⟨hi', -, -⟩
      · exact absurd he hac
      · exact absurd (by rw [← hm, ← hm', hj, hk']) hbc
      · omega
    · rcases label_eq hmark (hb.trans hc.symm) with he | ⟨-, hk', hm'⟩ | ⟨hj', -, -⟩
      · exact absurd he hbc
      · exact absurd (by rw [← hm, ← hm', hi, hk']) hac
      · omega

theorem two_labels (hmark : Shows mark) {l : List α} {x : α} (h : 1 < (marked mark l).count x) :
    x ∈ l ∧ ∃ a n, 0 < n ∧ n < l.count a ∧ mark a n = x := by
  rw [count_marked] at h
  have hnodup := (numbered_nodup [] l).filter fun e => label mark e = x
  have hin : ∀ e ∈ (numbered [] l).filter fun e => label mark e = x, e ∈ numbered [] l ∧ label mark e = x := fun e he => by
    simpa using List.mem_filter.mp he
  match hk : (numbered [] l).filter fun e => label mark e = x with
  | [] => simp [hk] at h
  | [_] => simp [hk] at h
  | (a, m) :: (b, n) :: rest =>
    rw [hk] at hnodup hin
    have hne : (a, m) ≠ (b, n) := fun he => (List.nodup_cons.mp hnodup).1 (he ▸ List.mem_cons_self)
    obtain ⟨ha, hax⟩ := hin (a, m) (by simp)
    obtain ⟨hb, hbx⟩ := hin (b, n) (by simp)
    rcases label_eq hmark (hax.trans hbx.symm) with he | ⟨hm, hn, hmb⟩ | ⟨hm, hn, hma⟩
    · exact absurd he hne
    · subst hn
      rw [label_zero] at hbx
      exact ⟨hbx ▸ mem_numbered_zero.mp hb, a, m, hm, mem_numbered_nil.mp ha, hmb.trans hbx⟩
    · subst hm
      rw [label_zero] at hax
      exact ⟨hax ▸ mem_numbered_zero.mp ha, b, n, hn, mem_numbered_nil.mp hb, hma.trans hax⟩

theorem one_lt_count_marked {l : List α} {a : α} {n : Nat} (hn : 0 < n) (hlt : n < l.count a) (hin : mark a n ∈ l) :
    1 < (marked mark l).count (mark a n) := by
  rw [count_marked]
  have hfirst : (mark a n, 0) ∈ (numbered [] l).filter fun e => label mark e = mark a n := by
    simp [mem_numbered_zero.mpr hin]
  have hmarked : (a, n) ∈ (numbered [] l).filter fun e => label mark e = mark a n := by
    simp [mem_numbered_nil.mpr hlt, label_pos hn]
  by_contra hle
  match hk : (numbered [] l).filter fun e => label mark e = mark a n with
  | [] => simp [hk] at hfirst
  | [e] =>
    rw [hk] at hfirst hmarked
    have heq := (List.mem_singleton.mp hfirst).trans (List.mem_singleton.mp hmarked).symm
    exact absurd (Prod.mk.inj heq).2 (by omega)
  | _ :: _ :: _ => simp [hk] at hle

/-- Marked twice, the elements are distinct where a mark that is an element is there once and its
    own first mark is not. -/
theorem nodup_marked_twice (hmark : Shows mark) (l : List α) : (marked mark (marked mark l)).Nodup ↔
    ∀ a n, 0 < n → n < l.count a → mark a n ∈ l → l.count (mark a n) ≤ 1 ∧ mark (mark a n) 1 ∉ l := by
  rw [nodup_marked hmark]
  refine ⟨fun h a n hn hlt hin => ?_, fun h x n hn hlt => ?_⟩
  · have hno := h (mark a n) 1 (by omega) (one_lt_count_marked hn hlt hin)
    rw [mem_marked, not_or] at hno
    refine ⟨?_, hno.1⟩
    by_contra hcount
    exact hno.2 ⟨mark a n, 1, by omega, by omega, rfl⟩
  · have hle := count_marked_le hmark l x
    obtain rfl : n = 1 := by omega
    obtain ⟨hin, a, m, hm, hma, rfl⟩ := two_labels hmark hlt
    obtain ⟨hcount, hno⟩ := h a m hm hma hin
    rw [mem_marked, not_or]
    refine ⟨hno, fun ⟨b, k, _, hkb, heq⟩ => ?_⟩
    obtain ⟨rfl, rfl⟩ := hmark _ _ _ _ heq
    omega

end Marks

/-! ## Marking one by one -/

/-- A dictionary that has how often each element was there before. -/
def Counts (seen : List (α × Nat)) (before : List α) : Prop := ∀ a, (seen.lookup a).getD 0 = before.count a

theorem counts_nil : Counts ([] : List (α × Nat)) [] := fun _ => rfl

theorem Counts.next {seen : List (α × Nat)} {before : List α} (h : Counts seen before) (a : α) :
    Counts (upsert a (fun _ => (seen.lookup a).getD 0 + 1) seen) (a :: before) := by
  intro b
  rw [lookup_upsert]
  by_cases hb : b = a
  · subst hb
    simp [h b]
  · rw [if_neg hb, h b, List.count_cons_of_ne fun he => hb he.symm]

end OwnNet.Dict
