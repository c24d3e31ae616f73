/-
  OwnNet.Fix.RoundTrip — the strict reader accepts every canonical patch, and its hunks
  turn the preimage into the postimage.

  The writer's bytes are its records, each ended by LF (`canonicalPatch_records`); a
  group's records are read back as the group's hunk (`readHunk_group`). A marker can only
  stand in the last group: the groups cover the changes with unchanged lines in between
  (`Diff.Covers`), so an earlier group's lines are followed by another line and end in LF.

  Proved: `patch_round_trip`.
-/

import OwnNet.Fix.Patch

namespace OwnNet.Fix

open Diff

/-! ## Records -/

/-- Records written out, each ended by LF. -/
def unrecords (recs : List Bytes) : Bytes := recs.flatMap (· ++ [lf])

theorem unrecords_append (x y : List Bytes) : unrecords (x ++ y) = unrecords x ++ unrecords y := by
  simp [unrecords]

theorem recordsFrom_plain (line rest cur : Bytes) (h : lf ∉ line) :
    recordsFrom cur (line ++ lf :: rest) = (recordsFrom [] rest).map ((cur ++ line) :: ·) := by
  induction line generalizing cur with
  | nil => rw [List.nil_append, List.append_nil]; simp [recordsFrom]
  | cons c line ih =>
    rw [List.mem_cons, not_or] at h
    show (if c = lf then (recordsFrom [] (line ++ lf :: rest)).map (cur :: ·)
      else recordsFrom (cur ++ [c]) (line ++ lf :: rest)) = _
    rw [if_neg (Ne.symm h.1), ih _ h.2, List.append_assoc, List.singleton_append]

theorem records_unrecords (recs : List Bytes) (h : ∀ r ∈ recs, lf ∉ r) : records (unrecords recs) = .ok recs := by
  induction recs with
  | nil => rfl
  | cons r recs ih =>
    have hr : records (unrecords recs) = .ok recs := ih fun x hx => h x (List.mem_cons_of_mem _ hx)
    show recordsFrom [] ((r :: recs).flatMap (· ++ [lf])) = _
    rw [List.flatMap_cons, List.append_assoc, List.singleton_append, recordsFrom_plain _ _ _ (h r List.mem_cons_self),
      List.nil_append]
    show (records (unrecords recs)).map _ = _
    rw [hr]
    rfl

/-! ## Lines -/

/-- A line without its terminator. -/
def content (line : Bytes) : Bytes := if terminated line then line.dropLast else line

/-- A line ends at its first LF, or has none and is not empty. -/
def IsLine (line : Bytes) : Prop := lf ∉ content line ∧ line ≠ []

theorem terminated_iff {line : Bytes} : terminated line = true ↔ line = content line ++ [lf] := by
  unfold content terminated
  constructor
  · intro h
    rw [if_pos h]
    obtain ⟨init, rfl⟩ := List.getLast?_eq_some_iff.mp (by simpa using h)
    simp
  · intro h
    rw [h]
    simp

theorem content_append (line : Bytes) : content (line ++ [lf]) = line := by
  unfold content terminated
  simp

/-- Only the last line may be without a terminator. -/
def OnlyLast (lines : List Bytes) : Prop := ∀ xs x ys, lines = xs ++ x :: ys → ys ≠ [] → terminated x = true

theorem splitLinesFrom_flatten (data cur : Bytes) : (splitLinesFrom cur data).flatten = cur ++ data := by
  induction data generalizing cur with
  | nil =>
    unfold splitLinesFrom
    split
    next h => simp [h]
    next => simp
  | cons c data ih =>
    unfold splitLinesFrom
    split
    · rw [List.flatten_cons, ih]; simp
    · rw [ih]; simp

theorem splitLines_flatten (data : Bytes) : (splitLines data).flatten = data := splitLinesFrom_flatten data []

theorem splitLinesFrom_lines (data cur : Bytes) (h : lf ∉ cur) : ∀ l ∈ splitLinesFrom cur data, IsLine l := by
  induction data generalizing cur with
  | nil =>
    intro l hl
    unfold splitLinesFrom at hl
    split at hl
    next => cases hl
    next hne =>
      rw [List.mem_singleton] at hl
      subst hl
      refine ⟨?_, hne⟩
      unfold content
      split
      next ht =>
        intro hm
        exact h (List.dropLast_subset _ hm)
      next => exact h
  | cons c data ih =>
    intro l hl
    unfold splitLinesFrom at hl
    split at hl
    next hc =>
      rcases List.mem_cons.mp hl with rfl | hl
      · rw [hc]
        exact ⟨by rw [content_append]; exact h, by simp⟩
      · exact ih [] List.not_mem_nil l hl
    next hc =>
      refine ih (cur ++ [c]) ?_ l hl
      rw [List.mem_append, List.mem_singleton, not_or]
      exact ⟨h, Ne.symm hc⟩

theorem splitLinesFrom_onlyLast (data cur : Bytes) : OnlyLast (splitLinesFrom cur data) := by
  induction data generalizing cur with
  | nil =>
    intro xs x ys h hne
    unfold splitLinesFrom at h
    split at h
    · simp at h
    · cases xs with
      | nil =>
        rw [List.nil_append] at h
        exact absurd (List.cons.inj h).2.symm hne
      | cons y xs => simp at h
  | cons c data ih =>
    unfold splitLinesFrom
    split
    next hc =>
      intro xs x ys h hne
      cases xs with
      | nil =>
        rw [List.nil_append] at h
        rw [← (List.cons.inj h).1, hc]
        unfold terminated
        simp
      | cons y xs => exact ih [] xs x ys (List.cons.inj h).2 hne
    next => exact ih _

theorem splitLines_onlyLast (data : Bytes) : OnlyLast (splitLines data) := splitLinesFrom_onlyLast data []

theorem splitLinesFrom_length (data cur : Bytes) (h : lf ∉ cur) :
    (splitLinesFrom cur data).length = countLines (cur ++ data) := by
  induction data generalizing cur with
  | nil =>
    unfold splitLinesFrom countLines
    rw [List.append_nil, List.count_eq_zero_of_not_mem h]
    have ht : terminated cur = false := by
      cases hc : terminated cur with
      | false => rfl
      | true =>
        rw [terminated_iff] at hc
        rw [hc] at h
        simp at h
    split
    next he => simp [he]
    next he => simp [he, ht]
  | cons c data ih =>
    unfold splitLinesFrom
    split
    next hc =>
      rw [List.length_cons, ih [] List.not_mem_nil, List.nil_append, hc]
      unfold countLines
      rw [List.count_append, List.count_eq_zero_of_not_mem h, List.count_cons_self]
      have hlast : terminated (cur ++ lf :: data) = if data = [] then true else terminated data := by
        unfold terminated
        split
        next he => simp [he]
        next he =>
          rw [List.getLast?_append]
          cases data with
          | nil => exact absurd rfl he
          | cons d ds => simp
      rw [hlast]
      by_cases he : data = []
      · simp [he]
      · simp only [he, if_false]
        cases terminated data <;> simp [he]
    next hc =>
      have hnew : lf ∉ cur ++ [c] := by
        rw [List.mem_append, List.mem_singleton, not_or]
        exact ⟨h, Ne.symm hc⟩
      rw [ih _ hnew, List.append_assoc, List.singleton_append]

theorem splitLines_length (data : Bytes) : (splitLines data).length = countLines data :=
  splitLinesFrom_length data [] List.not_mem_nil

/-! ## Numbers -/

theorem digit_toNat {d : Nat} (h : d < 10) : (digit d).toNat = 48 + d ∧ isDigit (digit d) = true := by
  match d, h with
  | 0, _ | 1, _ | 2, _ | 3, _ | 4, _ | 5, _ | 6, _ | 7, _ | 8, _ | 9, _ => decide

theorem foldl_digits (ds : List Nat) (h : ∀ d ∈ ds, d < 10) :
    (ds.reverse.map digit).foldl (fun n c => 10 * n + (c.toNat - 48)) 0 = Nat.ofDigits 10 ds := by
  induction ds with
  | nil => rfl
  | cons d ds ih =>
    rw [List.reverse_cons, List.map_append, List.foldl_append, ih fun x hx => h x (List.mem_cons_of_mem _ hx),
      Nat.ofDigits_cons]
    have := (digit_toNat (h d List.mem_cons_self)).1
    simp only [List.map_singleton, List.foldl_cons, List.foldl_nil, this]
    omega

theorem decimal_digits (n : Nat) : decimal n ≠ [] ∧ ∀ c ∈ decimal n, isDigit c = true := by
  unfold decimal
  split
  · exact ⟨by simp, fun c hc => by rw [List.mem_singleton.mp hc]; rfl⟩
  · rename_i hn
    refine ⟨by simpa [Nat.digits_eq_nil_iff_eq_zero] using hn, fun c hc => ?_⟩
    obtain ⟨d, hd, rfl⟩ := List.mem_map.mp hc
    exact (digit_toNat (Nat.digits_lt_base (by decide) (List.mem_reverse.mp hd))).2

theorem posint_decimal (n : Nat) : posint (decimal n) = .ok n := by
  obtain ⟨hne, hall⟩ := decimal_digits n
  unfold posint
  rw [if_neg]
  · congr 1
    unfold decimal
    split
    next h => subst h; decide
    next => rw [foldl_digits _ fun d hd => Nat.digits_lt_base (by decide) hd, Nat.ofDigits_digits]
  · rw [not_or]
    refine ⟨hne, ?_⟩
    simpa using hall

/-! ## Ranges -/

theorem splitByte_plain {sep : UInt8} {x : Bytes} (h : sep ∉ x) : splitByte sep x = [x] := by
  induction x with
  | nil => rfl
  | cons c x ih =>
    rw [List.mem_cons, not_or] at h
    unfold splitByte
    rw [if_neg (Ne.symm h.1), ih h.2]

theorem splitByte_sep {sep : UInt8} {x y : Bytes} (h : sep ∉ x) :
    splitByte sep (x ++ sep :: y) = x :: splitByte sep y := by
  induction x with
  | nil => simp [splitByte]
  | cons c x ih =>
    rw [List.mem_cons, not_or] at h
    rw [List.cons_append, splitByte, if_neg (Ne.symm h.1), ih h.2]

theorem not_mem_decimal {c : UInt8} (hc : isDigit c = false) (n : Nat) : c ∉ decimal n := fun h => by
  rw [(decimal_digits n).2 c h] at hc
  cases hc

/-- What a written range is read as: its header number and its length. -/
theorem range_hunkRange (start count : Nat) : range (hunkRange start count) = .ok (rangeStart start count, count) := by
  have hcomma : ∀ n, (44 : UInt8) ∉ decimal n := not_mem_decimal (by decide)
  have hlit : lit "," = [44] := by decide
  have hlit0 : lit ",0" = 44 :: decimal 0 := by decide
  unfold hunkRange
  by_cases h1 : count = 1
  · rw [if_pos h1, range, splitByte_plain (hcomma _)]
    simp only [posint_decimal, rangeStart, h1]
    rfl
  · rw [if_neg h1]
    by_cases h0 : count = 0
    · rw [if_pos h0, range, hlit0, splitByte_sep (hcomma _), splitByte_plain (hcomma _)]
      simp only [posint_decimal, rangeStart, h0, if_true]
    · rw [if_neg h0, hlit, List.append_assoc, List.singleton_append, range, splitByte_sep (hcomma _),
        splitByte_plain (hcomma _)]
      simp only [posint_decimal, rangeStart, h0, if_false]

theorem not_mem_hunkRange {c : UInt8} (hc : isDigit c = false) (h : c ≠ 44) (start count : Nat) :
    c ∉ hunkRange start count := by
  have hd : ∀ n, c ∉ decimal n := not_mem_decimal hc
  have hlit : c ∉ lit "," := by
    show c ∉ [44]
    simpa using h
  have hlit0 : c ∉ lit ",0" := by
    show c ∉ [44] ++ decimal 0
    simpa [h] using hd 0
  unfold hunkRange
  split
  · exact hd _
  · split
    · simp [hd, hlit0]
    · simp [hd, hlit]

/-! ## The hunk header -/

theorem splitPlus_sep {x y : Bytes} (h : (32 : UInt8) ∉ x) : splitPlus (x ++ 32 :: 43 :: y) = some (x, y) := by
  induction x with
  | nil => rfl
  | cons c x ih =>
    rw [List.mem_cons, not_or] at h
    rw [List.cons_append, splitPlus, if_neg (fun hc => h.1 hc.1.symm), ih h.2]
    rfl

/-- A header's text between its two ends. -/
theorem inner_header (x : Bytes) :
    ((lit "@@ -" ++ x ++ lit " @@").drop 4).take ((lit "@@ -" ++ x ++ lit " @@").length - 7) = x := by
  have h4 : (lit "@@ -").length = 4 := by decide
  have h3 : (lit " @@").length = 3 := by decide
  rw [List.append_assoc, ← h4, List.drop_left, List.length_append, List.length_append, h4, h3]
  rw [show 4 + (x.length + 3) - 7 = x.length by omega, List.take_left]

theorem isHeader_header (x : Bytes) : isHeader (lit "@@ -" ++ x ++ lit " @@") = true := by
  unfold isHeader
  rw [Bool.and_eq_true, List.isPrefixOf_iff_prefix, List.isSuffixOf_iff_suffix]
  exact ⟨⟨x ++ lit " @@", by rw [List.append_assoc]⟩, ⟨lit "@@ -" ++ x, rfl⟩⟩

section Groups

variable {a b : List Bytes} {g : List Opcode} {i j i' j' : Nat}

theorem hunkHeader_script (h : Script a b i j g i' j') (hne : g ≠ []) :
    hunkHeader g = lit "@@ -" ++ (hunkRange i (i' - i) ++ 32 :: 43 :: hunkRange j (j' - j)) ++ lit " @@" := by
  obtain ⟨-, -, hi, hj⟩ := h.bound hne
  have hplus : lit " +" = [32, 43] := by decide
  cases g with
  | nil => exact absurd rfl hne
  | cons c cs =>
    obtain ⟨h1, h2, -, -⟩ := h.start
    unfold hunkHeader
    simp only [hi, hj, List.head?_cons, Option.map_some, Option.getD_some, h1, h2, hplus, List.append_assoc,
      List.cons_append, List.nil_append]

theorem isHeader_hunkHeader (h : Script a b i j g i' j') (hne : g ≠ []) : isHeader (hunkHeader g) = true := by
  rw [hunkHeader_script h hne]
  exact isHeader_header _

/-- A group's header names its ranges, if they begin past the hunk before. -/
theorem readHeader_hunkHeader {prev : Nat} (h : Script a b i j g i' j') (hne : g ≠ [])
    (hprev : prev ≤ rangeStart i (i' - i)) :
    readHeader a.length prev false (hunkHeader g) =
      .ok ((rangeStart i (i' - i), i' - i), (rangeStart j (j' - j), j' - j)) := by
  have hle := h.mono.1
  have hbound := (h.bound hne).1
  have hspace : (32 : UInt8) ∉ hunkRange i (i' - i) := not_mem_hunkRange (by decide) (by decide) _ _
  have hpast : ¬(0 < i' - i ∧ (rangeStart i (i' - i) < 1 ∨ a.length < rangeStart i (i' - i) + (i' - i) - 1)) := by
    rintro ⟨hpos, hout⟩
    unfold rangeStart at hout
    rw [if_neg (by omega)] at hout
    omega
  have hins : ¬(i' - i = 0 ∧ a.length < rangeStart i (i' - i)) := by
    rintro ⟨h0, hout⟩
    unfold rangeStart at hout
    rw [if_pos h0] at hout
    omega
  unfold readHeader
  rw [isHeader_hunkHeader h hne, hunkHeader_script h hne, inner_header, splitPlus_sep hspace]
  simp only [range_hunkRange, Bool.not_true, Bool.false_eq_true, if_false]
  rw [if_neg hpast, if_neg hins, if_neg (Nat.not_lt.mpr hprev)]

end Groups

/-! ## The body of a hunk -/

/-- The records of a body line. -/
def entryRecords (e : Side × Bytes) : List Bytes :=
  if terminated e.2 then [headOf e.1 :: content e.2] else [headOf e.1 :: e.2, marker]

theorem emit_records (e : Side × Bytes) : emit (headOf e.1) e.2 = unrecords (entryRecords e) := by
  unfold emit entryRecords unrecords
  by_cases h : terminated e.2 = true
  · rw [if_pos h, if_pos h]
    have := terminated_iff.mp h
    simpa using this
  · rw [if_neg h, if_neg h]
    simp

theorem headOf_not_header (side : Side) (line : Bytes) : isHeader (headOf side :: line) = false := by
  unfold isHeader
  have : (lit "@@ -").isPrefixOf (headOf side :: line) = false := by
    show List.isPrefixOf (64 :: lit "@ -") (headOf side :: line) = false
    cases side <;> rfl
  rw [this, Bool.false_and]

theorem entryRecords_not_header (e : Side × Bytes) : ∀ r ∈ entryRecords e, isHeader r = false := by
  have hm : isHeader marker = false := by decide
  unfold entryRecords
  split
  · simpa using headOf_not_header _ _
  · simpa using ⟨headOf_not_header _ _, hm⟩

theorem entryRecords_plain {e : Side × Bytes} (h : IsLine e.2) : ∀ r ∈ entryRecords e, lf ∉ r := by
  have hhead : lf ≠ headOf e.1 := by cases e.1 <;> decide
  have hm : lf ∉ marker := by decide
  have hc := h.1
  unfold content at hc
  unfold entryRecords content
  split
  next ht =>
    rw [if_pos ht] at hc
    simpa [hhead] using hc
  next ht =>
    rw [if_neg ht] at hc
    simpa [hhead, hm] using hc

theorem headOf_not_marker (side : Side) (line : Bytes) : headOf side :: line ≠ marker := by
  intro h
  have hm : marker.head? = some 92 := by decide
  rw [← h, List.head?_cons, Option.some.injEq] at hm
  cases side <;> exact absurd hm (by decide)

theorem sideOf_headOf (side : Side) : sideOf (headOf side) = some side := by cases side <;> decide

theorem olds_cons (e : Side × Bytes) (es : List (Side × Bytes)) :
    olds (e :: es) = if e.1 = .new then olds es else e.2 :: olds es := by
  unfold olds
  by_cases h : e.1 = .new <;> simp [h]

theorem news_cons (e : Side × Bytes) (es : List (Side × Bytes)) :
    news (e :: es) = if e.1 = .old then news es else e.2 :: news es := by
  unfold news
  by_cases h : e.1 = .old <;> simp [h]

theorem OnlyLast.tail {x : Bytes} {xs : List Bytes} (h : OnlyLast (x :: xs)) : OnlyLast xs := fun ys y zs he =>
  h (x :: ys) y zs (by rw [he]; rfl)

theorem OnlyLast.closed {x : Bytes} {xs : List Bytes} (h : OnlyLast (x :: xs)) (hx : terminated x = false) : xs = [] := by
  by_contra hne
  rw [h [] x xs rfl hne] at hx
  cases hx

theorem OnlyLast.infix_of {xs ys : List Bytes} (h : OnlyLast ys) (hi : xs <:+: ys) : OnlyLast xs := by
  obtain ⟨p, q, rfl⟩ := hi
  intro us x vs hx hne
  refine h (p ++ us) x (vs ++ q) (by rw [hx]; simp) ?_
  intro he
  exact hne (List.append_eq_nil_iff.mp he).1

/-- A side that is closed has no lines left; no side's line is without LF unless it is its last. -/
structure Readable (st : BodyState) (es : List (Side × Bytes)) : Prop where
  old : OnlyLast (olds es)
  new : OnlyLast (news es)
  oldClosed : st.oldClosed = true → olds es = []
  newClosed : st.newClosed = true → news es = []

theorem Readable.is_open {st : BodyState} {e : Side × Bytes} {es : List (Side × Bytes)} (h : Readable st (e :: es)) :
    ¬(e.1 ≠ .new ∧ st.oldClosed = true) ∧ ¬(e.1 ≠ .old ∧ st.newClosed = true) := by
  constructor
  · rintro ⟨hs, hc⟩
    have := h.oldClosed hc
    rw [olds_cons, if_neg hs] at this
    cases this
  · rintro ⟨hs, hc⟩
    have := h.newClosed hc
    rw [news_cons, if_neg hs] at this
    cases this

/-- What reading a body line does. -/
structure Reads (st : BodyState) (e : Side × Bytes) (st' : BodyState) : Prop where
  lines : st'.lines = st.lines ++ [e]
  ctx : st'.ctx = st.ctx + if e.1 = .both then 1 else 0
  minus : st'.minus = st.minus + if e.1 = .old then 1 else 0
  plus : st'.plus = st.plus + if e.1 = .new then 1 else 0
  marked : st'.sawMarker = true → st.sawMarker = true ∨ terminated e.2 = false

theorem readLine_head {st : BodyState} {e : Side × Bytes} {es : List (Side × Bytes)} (h : Readable st (e :: es))
    (line : Bytes) :
    readLine st (headOf e.1 :: line) = .ok
      { st with ctx := st.ctx + if e.1 = .both then 1 else 0, minus := st.minus + if e.1 = .old then 1 else 0,
                plus := st.plus + if e.1 = .new then 1 else 0, lastHead := some e.1,
                lines := st.lines ++ [(e.1, line ++ [lf])] } := by
  obtain ⟨hold, hnew⟩ := h.is_open
  unfold readLine
  rw [if_neg (headOf_not_marker _ _), List.head?_cons, Option.bind_some, sideOf_headOf]
  simp only [List.tail_cons]
  rw [if_neg hold, if_neg hnew]

theorem Readable.next {st st' : BodyState} {e : Side × Bytes} {es : List (Side × Bytes)} (h : Readable st (e :: es))
    (ho : st'.oldClosed = true → st.oldClosed = true ∨ terminated e.2 = false ∧ e.1 ≠ .new)
    (hn : st'.newClosed = true → st.newClosed = true ∨ terminated e.2 = false ∧ e.1 ≠ .old) : Readable st' es := by
  obtain ⟨h1, h2, h3, h4⟩ := h
  rw [olds_cons] at h1 h3
  rw [news_cons] at h2 h4
  refine ⟨?_, ?_, fun hc => ?_, fun hc => ?_⟩
  · split at h1
    · exact h1
    · exact h1.tail
  · split at h2
    · exact h2
    · exact h2.tail
  · rcases ho hc with hc | ⟨ht, hs⟩
    · have := h3 hc
      split at this
      · exact this
      · cases this
    · rw [if_neg hs] at h1
      exact h1.closed ht
  · rcases hn hc with hc | ⟨ht, hs⟩
    · have := h4 hc
      split at this
      · exact this
      · cases this
    · rw [if_neg hs] at h2
      exact h2.closed ht

/-- One line, and the marker after it if it has no LF. -/
theorem readBody_entry {st : BodyState} {e : Side × Bytes} {es : List (Side × Bytes)} (h : Readable st (e :: es))
    (rest : List Bytes) :
    ∃ st', readBody st (entryRecords e ++ rest) = readBody st' rest ∧ Reads st e st' ∧ Readable st' es := by
  unfold entryRecords
  by_cases ht : terminated e.2 = true
  · rw [if_pos ht, List.singleton_append, readBody, readLine_head h]
    refine ⟨_, rfl, ⟨?_, rfl, rfl, rfl, Or.inl⟩, h.next Or.inl Or.inl⟩
    show st.lines ++ [(e.1, content e.2 ++ [lf])] = _
    rw [← terminated_iff.mp ht]
  · have hf : terminated e.2 = false := by simpa using ht
    rw [if_neg ht, List.cons_append, List.singleton_append, readBody, readLine_head h]
    simp only
    obtain ⟨hold, hnew⟩ := h.is_open
    rw [readBody, readLine, if_pos rfl, readMarker]
    simp only
    rw [if_neg fun hc => hc.elim hold hnew]
    refine ⟨_, rfl, ⟨?_, rfl, rfl, rfl, fun _ => Or.inr hf⟩, h.next (fun hc => ?_) (fun hc => ?_)⟩
    · show unterminate (st.lines ++ [(e.1, e.2 ++ [lf])]) = _
      unfold unterminate
      simp
    · simpa [hf] using hc
    · simpa [hf] using hc

theorem olds_length (es : List (Side × Bytes)) :
    (olds es).length = es.countP (·.1 = .both) + es.countP (·.1 = .old) := by
  induction es with
  | nil => rfl
  | cons e es ih =>
    rw [olds_cons, List.countP_cons, List.countP_cons]
    cases he : e.1 <;> simp [ih] <;> omega

theorem news_length (es : List (Side × Bytes)) :
    (news es).length = es.countP (·.1 = .both) + es.countP (·.1 = .new) := by
  induction es with
  | nil => rfl
  | cons e es ih =>
    rw [news_cons, List.countP_cons, List.countP_cons]
    cases he : e.1 <;> simp [ih] <;> omega

theorem readBody_entries (es : List (Side × Bytes)) (st : BodyState) (h : Readable st es) :
    ∃ st', readBody st (es.flatMap entryRecords) = .ok st' ∧ st'.lines = st.lines ++ es ∧
      st'.ctx = st.ctx + es.countP (·.1 = .both) ∧ st'.minus = st.minus + es.countP (·.1 = .old) ∧
      st'.plus = st.plus + es.countP (·.1 = .new) ∧
      (st'.sawMarker = true → st.sawMarker = true ∨ ∃ e ∈ es, terminated e.2 = false) := by
  induction es generalizing st with
  | nil => exact ⟨st, rfl, by simp, by simp, by simp, by simp, Or.inl⟩
  | cons e es ih =>
    obtain ⟨st1, h1, hr, hnext⟩ := readBody_entry h (es.flatMap entryRecords)
    obtain ⟨st', h2, hl, hc, hm, hp, hs⟩ := ih st1 hnext
    refine ⟨st', ?_, ?_, ?_, ?_, ?_, fun hsaw => ?_⟩
    · rw [List.flatMap_cons, h1, h2]
    · rw [hl, hr.lines, List.append_assoc, List.singleton_append]
    · rw [hc, hr.ctx, List.countP_cons]; simp only [decide_eq_true_eq]; omega
    · rw [hm, hr.minus, List.countP_cons]; simp only [decide_eq_true_eq]; omega
    · rw [hp, hr.plus, List.countP_cons]; simp only [decide_eq_true_eq]; omega
    · rcases hs hsaw with hsaw | ⟨x, hx, ht⟩
      · exact (hr.marked hsaw).imp id fun ht => ⟨e, List.mem_cons_self, ht⟩
      · exact Or.inr ⟨x, List.mem_cons_of_mem _ hx, ht⟩

/-! ## Groups -/

section Groups

variable {a b : List Bytes} {g : List Opcode} {i j i' j' : Nat}

def groupRecords (a b : List Bytes) (g : List Opcode) : List Bytes :=
  hunkHeader g :: (g.flatMap (entries a b)).flatMap entryRecords

theorem emitGroup_records (a b : List Bytes) (g : List Opcode) : emitGroup a b g = unrecords (groupRecords a b g) := by
  have hbody : ∀ es : List (Side × Bytes),
      (es.flatMap fun e => emit (headOf e.1) e.2) = unrecords (es.flatMap entryRecords) := fun es => by
    induction es with
    | nil => rfl
    | cons e es ih => rw [List.flatMap_cons, List.flatMap_cons, unrecords_append, ih, emit_records]
  unfold emitGroup groupRecords
  rw [hbody]
  rfl

theorem mem_sides {e : Side × Bytes} {es : List (Side × Bytes)} (h : e ∈ es) : e.2 ∈ olds es ∨ e.2 ∈ news es := by
  by_cases hs : e.1 = .new
  · exact Or.inr (List.mem_map.mpr ⟨e, List.mem_filter.mpr ⟨h, by simp [hs]⟩, rfl⟩)
  · exact Or.inl (List.mem_map.mpr ⟨e, List.mem_filter.mpr ⟨h, by simp [hs]⟩, rfl⟩)

theorem slice_within (l : List Bytes) (i j : Nat) : slice l i j <:+: l :=
  (List.drop_suffix _ _).isInfix.trans (List.take_prefix _ _).isInfix

theorem slice_terminated {l : List Bytes} (h : OnlyLast l) {i j : Nat} (hj : j < l.length) {x : Bytes}
    (hx : x ∈ slice l i j) : terminated x = true := by
  obtain ⟨xs, ys, he⟩ := List.append_of_mem (List.mem_of_mem_drop hx)
  refine h xs x (ys ++ l.drop j) ?_ ?_
  · rw [← List.cons_append, ← List.append_assoc, ← he, List.take_append_drop]
  · intro hn
    have := congrArg List.length (List.append_eq_nil_iff.mp hn).2
    rw [List.length_drop, List.length_nil] at this
    omega

/-- A line of a group is one of either list, before its end. -/
theorem Script.lines (h : Script a b i j g i' j') {e : Side × Bytes} (he : e ∈ g.flatMap (entries a b)) :
    e.2 ∈ slice a i i' ∨ e.2 ∈ slice b j j' := by
  obtain ⟨ho, hn⟩ := h.sides
  rw [← ho, ← hn]
  exact mem_sides he

theorem Script.changed (h : Script a b i j g i' j') (hch : Changes g) :
    0 < (g.flatMap (entries a b)).countP (·.1 = .old) + (g.flatMap (entries a b)).countP (·.1 = .new) := by
  obtain ⟨c, hc, ht⟩ := hch
  have hf : c.Fits a b := by
    induction h with
    | nil => cases hc
    | cons hd _ ih =>
      rcases List.mem_cons.mp hc with rfl | hc
      · exact hd
      · exact ih hc
  -- the changing opcode has a line of one side alone
  have hline : ∃ e ∈ entries a b c, e.1 = .old ∨ e.1 = .new := by
    have hold : c.i1 < c.i2 → ∃ x, x ∈ slice a c.i1 c.i2 := fun hlt => by
      refine List.exists_mem_of_length_pos ?_
      rw [slice_length hf.i_bound]
      omega
    have hnew : c.j1 < c.j2 → ∃ x, x ∈ slice b c.j1 c.j2 := fun hlt => by
      refine List.exists_mem_of_length_pos ?_
      rw [slice_length hf.j_bound]
      omega
    unfold entries
    cases htag : c.tag with
    | equal => exact absurd htag ht
    | replace =>
      obtain ⟨x, hx⟩ := hold (hf.replace htag).1
      exact ⟨(.old, x), List.mem_append_left _ (List.mem_map_of_mem hx), Or.inl rfl⟩
    | delete =>
      obtain ⟨x, hx⟩ := hold (hf.delete htag).1
      exact ⟨(.old, x), List.mem_map_of_mem hx, Or.inl rfl⟩
    | insert =>
      obtain ⟨x, hx⟩ := hnew (hf.insert htag).2
      exact ⟨(.new, x), List.mem_map_of_mem hx, Or.inr rfl⟩
  obtain ⟨e, he, hside⟩ := hline
  have hmem : e ∈ g.flatMap (entries a b) := List.mem_flatMap.mpr ⟨c, hc, he⟩
  rcases hside with hside | hside
  · have : 0 < (g.flatMap (entries a b)).countP (·.1 = .old) := List.countP_pos_iff.mpr ⟨e, hmem, by simpa using hside⟩
    omega
  · have : 0 < (g.flatMap (entries a b)).countP (·.1 = .new) := List.countP_pos_iff.mpr ⟨e, hmem, by simpa using hside⟩
    omega

/-- A group's records are read as its hunk; a marker is seen only if a line of it has no LF. -/
theorem readHunk_group (ha : OnlyLast a) (hb : OnlyLast b) (h : Script a b i j g i' j') (hch : Changes g) :
    ∃ saw, readHunk false ((rangeStart i (i' - i), i' - i), (rangeStart j (j' - j), j' - j))
        ((g.flatMap (entries a b)).flatMap entryRecords) = .ok (hunkOf a b g, saw) ∧
      (saw = true → ∃ e ∈ g.flatMap (entries a b), terminated e.2 = false) := by
  obtain ⟨ho, hn⟩ := h.sides
  obtain ⟨hbi, hbj, -, -⟩ := h.bound hch.ne_nil
  have hread : Readable { sawMarker := false } (g.flatMap (entries a b)) := by
    refine ⟨?_, ?_, (by intro hc; cases hc), (by intro hc; cases hc)⟩
    · rw [ho]; exact ha.infix_of (slice_within _ _ _)
    · rw [hn]; exact hb.infix_of (slice_within _ _ _)
  obtain ⟨st, hst, hl, hc, hm, hp, hs⟩ := readBody_entries _ _ hread
  have hold := olds_length (g.flatMap (entries a b))
  have hnew := news_length (g.flatMap (entries a b))
  rw [ho, slice_length hbi] at hold
  rw [hn, slice_length hbj] at hnew
  have hchange := Script.changed h hch
  refine ⟨st.sawMarker, ?_, fun hsaw => (hs hsaw).resolve_left (by simp)⟩
  unfold readHunk
  rw [hst]
  simp only at hc hm hp ⊢
  rw [if_neg (by rw [hc, hm, hp, hold, hnew]; omega), if_neg (by rw [hm, hp]; omega), hl, h.hunk hch.ne_nil]
  rfl

end Groups

/-- The header line of the next group ends the body of this one. -/
theorem groups_start {a b : List Bytes} {strict : Bool} {gs : List (List Opcode)} {i j : Nat}
    (h : Covers a b strict gs i j) :
    (gs.flatMap (groupRecords a b)).takeWhile (fun r => !isHeader r) = [] ∧
      (gs.flatMap (groupRecords a b)).dropWhile (fun r => !isHeader r) = gs.flatMap (groupRecords a b) := by
  cases h with
  | done => exact ⟨rfl, rfl⟩
  | group _ _ _ _ hs hch _ =>
    have := isHeader_hunkHeader hs hch.ne_nil
    rw [List.flatMap_cons, groupRecords, List.cons_append, List.takeWhile_cons, List.dropWhile_cons, this]
    exact ⟨rfl, rfl⟩

/-- After a group that another one follows, no marker has been seen. -/
theorem Covers.unmarked {a b : List Bytes} (ha : OnlyLast a) (hb : OnlyLast b) {g : List Opcode} {gs : List (List Opcode)}
    {i j i' j' : Nat} (h : Covers a b true gs i' j') (hne : gs ≠ []) (hs : Script a b i j g i' j')
    {e : Side × Bytes} (he : e ∈ g.flatMap (entries a b)) : terminated e.2 = true := by
  cases h with
  | done => exact absurd rfl hne
  | group hk hi hj _ _ _ _ =>
    have := hk rfl
    rcases Script.lines hs he with hx | hx
    · exact slice_terminated ha (by omega) hx
    · exact slice_terminated hb (by omega) hx

/-- The records of covering groups are read as their hunks, from any place the hunk before left free. -/
theorem readHunks_covered {a b : List Bytes} (ha : OnlyLast a) (hb : OnlyLast b) {strict : Bool} {gs : List (List Opcode)}
    {i j : Nat} (h : Covers a b strict gs i j) :
    ∀ prev saw, (if strict then prev ≤ i + 1 else prev = 0) → (saw = true → gs = []) →
      readHunks a.length prev saw (gs.flatMap (groupRecords a b)) = .ok (gs.map (hunkOf a b)) := by
  induction h with
  | done => intro prev saw _ _; rw [List.flatMap_nil, readHunks]; rfl
  | @group strict g gs i j k i' j' hk hi hj he hs hch hrest ih =>
    intro prev saw hprev hsaw
    have hfalse : saw = false := by
      cases saw with
      | false => rfl
      | true => cases hsaw rfl
    subst hfalse
    have hstart : prev ≤ rangeStart (i + k) (i' - (i + k)) := by
      unfold rangeStart
      cases strict with
      | false =>
        have : prev = 0 := hprev
        omega
      | true =>
        have := hk rfl
        have : prev ≤ i + 1 := hprev
        split <;> omega
    have hbody : ∀ r ∈ (g.flatMap (entries a b)).flatMap entryRecords, (!isHeader r) = true := fun r hr => by
      obtain ⟨e, -, hr⟩ := List.mem_flatMap.mp hr
      rw [entryRecords_not_header e r hr]
      rfl
    obtain ⟨hnone, hall⟩ := groups_start hrest
    obtain ⟨saw, hhunk, hmark⟩ := readHunk_group ha hb hs hch
    rw [List.flatMap_cons, groupRecords, List.cons_append, readHunks, readHeader_hunkHeader hs hch.ne_nil hstart]
    simp only
    rw [List.takeWhile_append_of_pos hbody, List.dropWhile_append_of_pos hbody, hnone, hall, List.append_nil, hhunk]
    simp only
    rw [ih]
    · rfl
    · have := hs.mono.1
      show rangeStart (i + k) (i' - (i + k)) + (i' - (i + k)) ≤ i' + 1
      unfold rangeStart
      split <;> omega
    · intro hs'
      obtain ⟨e, hmem, ht⟩ := hmark hs'
      by_contra hne
      rw [Covers.unmarked ha hb hrest hne hs hmem] at ht
      cases ht

/-! ## The file header -/

theorem requirePatchable_codes {rel : List CodePoint} {index : Nat} (h : requirePatchableFrom index rel = .ok ()) :
    ∀ c ∈ rel, 0x20 ≤ c.val := by
  induction rel generalizing index with
  | nil => intro c hc; cases hc
  | cons d rel ih =>
    unfold requirePatchableFrom at h
    split at h
    next => cases h
    next hctl =>
      split at h
      · cases h
      · intro c hc
        rcases List.mem_cons.mp hc with rfl | hc
        · omega
        · exact ih h c hc

theorem toUInt8_ne_lf {n : Nat} (h : 0x20 ≤ n % 256) : lf ≠ n.toUInt8 := fun he => by
  have := congrArg UInt8.toNat he
  simp only [lf, Nat.toUInt8_eq, UInt8.toNat_ofNat'] at this
  change 10 = n % 256 at this
  omega

theorem utf8Char_plain {c : CodePoint} (h : 0x20 ≤ c.val) : lf ∉ utf8Char c := by
  have hc := c.isLt
  unfold utf8Char
  split
  · simp only [List.mem_singleton]
    exact toUInt8_ne_lf (by omega)
  · split
    · simp only [List.mem_cons, List.not_mem_nil, or_false, not_or]
      exact ⟨toUInt8_ne_lf (by omega), toUInt8_ne_lf (by omega)⟩
    · split
      · simp only [List.mem_cons, List.not_mem_nil, or_false, not_or]
        exact ⟨toUInt8_ne_lf (by omega), toUInt8_ne_lf (by omega), toUInt8_ne_lf (by omega)⟩
      · simp only [List.mem_cons, List.not_mem_nil, or_false, not_or]
        exact ⟨toUInt8_ne_lf (by omega), toUInt8_ne_lf (by omega), toUInt8_ne_lf (by omega), toUInt8_ne_lf (by omega)⟩

theorem fileHeader_plain {rel : List CodePoint} (h : requirePatchablePath rel = .ok ()) :
    ∀ r ∈ fileHeader (utf8 rel), lf ∉ r := by
  have hrel : lf ∉ utf8 rel := fun hm => by
    obtain ⟨c, hc, hm⟩ := List.mem_flatMap.mp hm
    exact utf8Char_plain (requirePatchable_codes h c hc) hm
  have h1 : lf ∉ lit "diff --git a/" := by decide
  have h2 : lf ∉ lit " b/" := by decide
  have h3 : lf ∉ lit "--- a/" := by decide
  have h4 : lf ∉ lit "+++ b/" := by decide
  unfold fileHeader
  simp [hrel, h1, h2, h3, h4]

theorem hunkHeader_plain (g : List Opcode) : lf ∉ hunkHeader g := by
  have h1 : lf ∉ lit "@@ -" := by decide
  have h2 : lf ∉ lit " +" := by decide
  have h3 : lf ∉ lit " @@" := by decide
  have hr : ∀ start count, lf ∉ hunkRange start count := not_mem_hunkRange (by decide) (by decide)
  unfold hunkHeader
  simp [h1, h2, h3, hr]

theorem groupRecords_plain {a b : List Bytes} (ha : ∀ l ∈ a, IsLine l) (hb : ∀ l ∈ b, IsLine l) {g : List Opcode}
    {i j i' j' : Nat} (h : Script a b i j g i' j') : ∀ r ∈ groupRecords a b g, lf ∉ r := by
  intro r hr
  rcases List.mem_cons.mp hr with rfl | hr
  · exact hunkHeader_plain g
  · obtain ⟨e, he, hr⟩ := List.mem_flatMap.mp hr
    refine entryRecords_plain ?_ r hr
    rcases Script.lines h he with hx | hx
    · exact ha _ ((slice_within _ _ _).subset hx)
    · exact hb _ ((slice_within _ _ _).subset hx)

theorem groups_plain {a b : List Bytes} (ha : ∀ l ∈ a, IsLine l) (hb : ∀ l ∈ b, IsLine l) {strict : Bool}
    {gs : List (List Opcode)} {i j : Nat} (h : Covers a b strict gs i j) :
    ∀ r ∈ gs.flatMap (groupRecords a b), lf ∉ r := by
  induction h with
  | done => intro r hr; cases hr
  | group _ _ _ _ hs _ _ ih =>
    intro r hr
    rw [List.flatMap_cons] at hr
    rcases List.mem_append.mp hr with hr | hr
    · exact groupRecords_plain ha hb hs r hr
    · exact ih r hr

theorem canonicalPatch_records (opcodes : List Bytes → List Bytes → List Opcode) {rel : List CodePoint}
    {pre post : Bytes} (hrel : requirePatchablePath rel = .ok ()) (hne : pre ≠ post) (context : Nat) :
    canonicalPatch opcodes rel pre post context = .ok (unrecords (fileHeader (utf8 rel) ++
      (groupedOpcodes context (opcodes (splitLines pre) (splitLines post))).flatMap
        (groupRecords (splitLines pre) (splitLines post)))) := by
  have hgroups : ∀ (a b : List Bytes) (gs : List (List Opcode)),
      gs.flatMap (emitGroup a b) = unrecords (gs.flatMap (groupRecords a b)) := fun a b gs => by
    induction gs with
    | nil => rfl
    | cons g gs ih => rw [List.flatMap_cons, List.flatMap_cons, unrecords_append, ih, emitGroup_records]
  unfold canonicalPatch
  rw [hrel]
  simp only
  rw [if_neg hne, hgroups, unrecords_append]
  rfl

/-! ## The round trip -/

theorem readPatch_records {rel : List CodePoint} {pre : Bytes} {recs : List Bytes} {hunks : List (Hunk Bytes)}
    (hplain : ∀ r ∈ fileHeader (utf8 rel) ++ recs, lf ∉ r) (hrecs : recs ≠ [])
    (hread : readHunks (countLines pre) 0 false recs = .ok hunks) (hsome : hunks ≠ []) :
    readPatch (unrecords (fileHeader (utf8 rel) ++ recs)) rel pre = .ok hunks := by
  have hlen : (fileHeader (utf8 rel)).length = 3 := rfl
  have hpos := List.length_pos_iff.mpr hrecs
  unfold readPatch
  rw [if_neg, records_unrecords _ hplain]
  · simp only
    rw [if_neg (by rw [List.length_append, hlen]; omega)]
    have hget : ∀ n < 3, (fileHeader (utf8 rel) ++ recs)[n]? = (fileHeader (utf8 rel))[n]? := fun n hn =>
      List.getElem?_append_left (by rw [hlen]; exact hn)
    rw [hget 0 (by omega), hget 1 (by omega), hget 2 (by omega)]
    simp only [ne_eq, not_true, if_false]
    rw [show (fileHeader (utf8 rel) ++ recs).drop 3 = recs from rfl, hread]
    simp only [hsome, if_false]
  · simp [unrecords, fileHeader]

/-- Every canonical patch passes the strict reader, and the hunks it reads make the postimage of the
    preimage, whatever `get_opcodes` gives that is a script of the two files' lines. -/
theorem patch_round_trip (opcodes : List Bytes → List Bytes → List Opcode) (rel : List CodePoint) (pre post : Bytes)
    (hrel : requirePatchablePath rel = .ok ()) (hne : pre ≠ post)
    (hop : IsScript (splitLines pre) (splitLines post) (opcodes (splitLines pre) (splitLines post))) :
    ∃ patch hunks, canonicalPatch opcodes rel pre post = .ok patch ∧ parseStep8Patch patch rel pre = .ok () ∧
      readPatch patch rel pre = .ok hunks ∧ applyPatch hunks pre = some post := by
  have hlines : splitLines pre ≠ splitLines post := fun h => by
    have := congrArg List.flatten h
    rw [splitLines_flatten, splitLines_flatten] at this
    exact hne this
  have hcov := grouped_covers 3 hop hlines
  have hread := readHunks_covered (splitLines_onlyLast pre) (splitLines_onlyLast post) hcov 0 false rfl
    (by intro h; cases h)
  rw [splitLines_length] at hread
  have hgroups : groupedOpcodes 3 (opcodes (splitLines pre) (splitLines post)) ≠ [] := by
    intro he
    rw [he] at hcov
    cases hcov with
    | done hd => exact hlines hd
  have hrecs : (groupedOpcodes 3 (opcodes (splitLines pre) (splitLines post))).flatMap
      (groupRecords (splitLines pre) (splitLines post)) ≠ [] := by
    intro he
    rw [he, readHunks] at hread
    have := (Except.ok.inj hread).symm
    exact hgroups (List.map_eq_nil_iff.mp this)
  have hplain : ∀ r ∈ fileHeader (utf8 rel) ++ (groupedOpcodes 3 (opcodes (splitLines pre) (splitLines post))).flatMap
      (groupRecords (splitLines pre) (splitLines post)), lf ∉ r := by
    intro r hr
    rcases List.mem_append.mp hr with hr | hr
    · exact fileHeader_plain hrel r hr
    · exact groups_plain (splitLinesFrom_lines pre [] List.not_mem_nil)
        (splitLinesFrom_lines post [] List.not_mem_nil) hcov r hr
  have hpatch := readPatch_records hplain hrecs hread (by simpa using hgroups)
  refine ⟨_, _, canonicalPatch_records opcodes hrel hne 3, ?_, hpatch, ?_⟩
  · unfold parseStep8Patch
    rw [hpatch]
    rfl
  · unfold applyPatch
    rw [apply_covered hcov, List.drop_zero, Option.map_some, splitLines_flatten]

/-- The script of `a`, `b` to `a`, `c`. -/
def lastLineScript (_ _ : List Bytes) : List Opcode := [⟨.equal, 0, 1, 0, 1⟩, ⟨.replace, 1, 2, 1, 2⟩]

theorem patch_round_trip_last_line :
    ∃ patch hunks, canonicalPatch lastLineScript [97] (lit "a\r\nb\n") (lit "a\r\nc") = .ok patch ∧
      parseStep8Patch patch [97] (lit "a\r\nb\n") = .ok () ∧ readPatch patch [97] (lit "a\r\nb\n") = .ok hunks ∧
      applyPatch hunks (lit "a\r\nb\n") = some (lit "a\r\nc") := by
  have hfits : ∀ c ∈ lastLineScript [] [], c.Fits (splitLines (lit "a\r\nb\n")) (splitLines (lit "a\r\nc")) := by
    intro c hc
    rcases List.mem_cons.mp hc with rfl | hc
    · exact ⟨by decide, by decide, by decide, by decide, by decide, by decide, by decide, by decide⟩
    · rw [List.mem_singleton.mp hc]
      exact ⟨by decide, by decide, by decide, by decide, by decide, by decide, by decide, by decide⟩
  refine patch_round_trip lastLineScript [97] (lit "a\r\nb\n") (lit "a\r\nc") (by decide) (by decide) ⟨?_, ?_⟩
  · have h1 := hfits ⟨.equal, 0, 1, 0, 1⟩ List.mem_cons_self
    have h2 := hfits ⟨.replace, 1, 2, 1, 2⟩ (List.mem_cons_of_mem _ List.mem_cons_self)
    exact .cons h1 (.cons h2 .nil)
  · exact List.isChain_cons_cons.mpr ⟨by simp [Apart], by simp⟩

end OwnNet.Fix
