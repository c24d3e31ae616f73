/-
  OwnNet.Ownts.Scanners — `_strip_comments` and then `_mask_strings` over a script's text.

  The loops over an index are read here as one pass with the loop it is in. A block comment's loop
  starts at the slash of its `/*` and ends at the first `*` with a slash behind it, so the star of
  the `/*` can be that star: a `/*/` is all of a comment. Where the text ends first, the two blanks
  for the `*/` are put out all the same.

  Proved: `scanners_blank_iff`: the two scanners show what the rule of comments and literals shows
  exactly where they stay in step with it (`inStep`).
-/

import OwnNet.Ownts.Lexical

namespace OwnNet.Ownts

/-! ## The scanners -/

/-- The loop `_strip_comments` is in. `closing` is the slash of a `*/`. -/
inductive Loop
  | text (l : Lit)
  | line
  | block
  | closing

@[simp] def stripFrom : Loop → List Char → List Char
  | .block, [] => [' ', ' ']
  | _, [] => []
  | .text .out, c :: rest =>
    if c ∈ quotes then c :: stripFrom (.text (.within c)) rest
    else if c = '/' ∧ rest.head? = some '/' then ' ' :: stripFrom .line rest
    else if c = '/' ∧ rest.head? = some '*' then ' ' :: stripFrom .block rest
    else c :: stripFrom (.text .out) rest
  | .text (.within q), c :: rest => c :: stripFrom (.text ((Lit.within q).next c rest)) rest
  | .text (.escaped q), c :: rest => c :: stripFrom (.text (.within q)) rest
  | .line, c :: rest => if c = '\n' then c :: stripFrom (.text .out) rest else ' ' :: stripFrom .line rest
  | .block, c :: rest =>
    if c = '*' ∧ rest.head? = some '/' then ' ' :: stripFrom .closing rest else blank c :: stripFrom .block rest
  | .closing, _ :: rest => ' ' :: stripFrom (.text .out) rest

/-- `_strip_comments` -/
def stripComments (text : List Char) : List Char := stripFrom (.text .out) text

@[simp] def maskFrom : Lit → List Char → List Char
  | _, [] => []
  | .out, c :: rest => c :: maskFrom (Lit.out.next c rest) rest
  | .within q, c :: rest => (if c = q then c else blank c) :: maskFrom ((Lit.within q).next c rest) rest
  | .escaped q, c :: rest => blank c :: maskFrom (.within q) rest

/-- `_mask_strings` -/
def maskStrings (text : List Char) : List Char := maskFrom .out text

/-! ## In step with the rule -/

/-- Where scanner and rule are: together, or apart after a `/*/`. -/
inductive Stage
  | text (l : Lit)
  | line
  | opened
  | block
  | closing
  /-- At the slash of a `/*/`, the end of the comment to the scanner only. -/
  | early
  /-- The scanner out of a comment the rule is in. -/
  | ahead
  /-- The scanner in a line comment, the rule in a block comment. -/
  | aheadLine
  | lineClosing
  /-- The scanner in a line comment, the rule out of comments. -/
  | lineOver
  | lineOpened

namespace Stage

@[simp] def loop : Stage → Loop
  | text l => .text l
  | line | aheadLine | lineClosing | lineOver | lineOpened => .line
  | opened | block => .block
  | closing | early => .closing
  | ahead => .text .out

@[simp] def lit : Stage → Lit
  | text l => l
  | _ => .out

@[simp] def mode : Stage → Mode
  | text l => .text l
  | line => .line
  | opened | lineOpened => .opened
  | block | early | ahead | aheadLine => .block
  | closing | lineClosing => .closing
  | lineOver => .text .out

/-- What such a place is a place of. -/
def At (t : List Char) : Stage → Prop
  | closing | early | lineClosing => t.head? = some '/'
  | opened | lineOpened => t.head? = some '*'
  | _ => True

end Stage

/-- Every block comment ends before the text does, and one that opens with `/*/` has up to its end
    only what both sides show blank, until a `/*` or a line comment has them together again. -/
def inStep : Stage → List Char → Bool
  | .opened, [] | .block, [] => false
  | _, [] => true
  | .text .out, c :: rest =>
    if c = '/' ∧ rest.head? = some '/' then inStep .line rest
    else if c = '/' ∧ rest.head? = some '*' then inStep .opened rest
    else inStep (.text (Lit.out.next c rest)) rest
  | .text (.within q), c :: rest => inStep (.text ((Lit.within q).next c rest)) rest
  | .text (.escaped q), _ :: rest => inStep (.text (.within q)) rest
  | .line, c :: rest => if c = '\n' then inStep (.text .out) rest else inStep .line rest
  | .opened, _ :: rest => if rest.head? = some '/' then inStep .early rest else inStep .block rest
  | .block, c :: rest => if c = '*' ∧ rest.head? = some '/' then inStep .closing rest else inStep .block rest
  | .closing, _ :: rest => inStep (.text .out) rest
  | .early, _ :: rest => inStep .ahead rest
  | .ahead, c :: rest =>
    if c = '/' ∧ rest.head? = some '/' then inStep .aheadLine rest
    else if c = '/' ∧ rest.head? = some '*' then inStep .block rest
    else (c = ' ' || c = '\n') && inStep .ahead rest
  | .aheadLine, c :: rest =>
    if c = '\n' then inStep .ahead rest
    else if c = '*' ∧ rest.head? = some '/' then inStep .lineClosing rest
    else inStep .aheadLine rest
  | .lineClosing, _ :: rest => inStep .lineOver rest
  | .lineOver, c :: rest =>
    if c = '\n' then inStep (.text .out) rest
    else if c = '/' ∧ rest.head? = some '/' then inStep .line rest
    else if c = '/' ∧ rest.head? = some '*' then inStep .lineOpened rest
    else c = ' ' && inStep .lineOver rest
  | .lineOpened, _ :: rest => inStep .aheadLine rest

/-! ## One character -/

theorem strip_text_nil {l : Lit} {text : List Char} : stripFrom (.text l) text = [] ↔ text = [] := by
  cases text with
  | nil => cases l <;> simp
  | cons c rest =>
    cases l with
    | out =>
      rw [stripFrom]
      split_ifs <;> simp
    | _ => simp

/-- A literal in the stripped text ends where it does in the text. -/
theorem next_strip (l l' : Lit) (c : Char) (rest : List Char) : l.next c (stripFrom (.text l') rest) = l.next c rest := by
  cases l with
  | within q => simp [strip_text_nil]
  | _ => rfl

@[simp] theorem mask_blank (text : List Char) : maskFrom .out (' ' :: text) = ' ' :: maskFrom .out text := by
  simp

@[simp] theorem mask_newline (text : List Char) : maskFrom .out ('\n' :: text) = '\n' :: maskFrom .out text := by
  simp

theorem mask_blanked (c : Char) (text : List Char) : maskFrom .out (blank c :: text) = blank c :: maskFrom .out text := by
  by_cases h : c = '\n'
  · simp [blank, h]
  · simp [blank, h]

/-- What the two scanners show, from a loop of the first on. -/
def scanned (s : Stage) (text : List Char) : List Char := maskFrom s.lit (stripFrom s.loop text)

theorem scanned_text (c : Char) (rest : List Char) (hline : ¬ (c = '/' ∧ rest.head? = some '/'))
    (hblock : ¬ (c = '/' ∧ rest.head? = some '*')) :
    scanned (.text .out) (c :: rest) = c :: scanned (.text (Lit.out.next c rest)) rest := by
  by_cases hc : c ∈ quotes
  · simp [scanned, hc]
  · simp [scanned, hc, hline, hblock]

theorem scanned_line (rest : List Char) (h : rest.head? = some '/') :
    scanned (.text .out) ('/' :: rest) = ' ' :: scanned .line rest := by
  simp [scanned, h]

theorem scanned_block (rest : List Char) (h : rest.head? = some '*') :
    scanned (.text .out) ('/' :: rest) = ' ' :: scanned .block rest := by
  simp [scanned, h]

theorem scanned_within (q c : Char) (rest : List Char) :
    scanned (.text (.within q)) (c :: rest) = (if c = q then c else blank c) :: scanned
        (.text ((Lit.within q).next c rest)) rest := by
  simp only [scanned, Stage.lit, Stage.loop, stripFrom, maskFrom, next_strip]

theorem scanned_escaped (q c : Char) (rest : List Char) :
    scanned (.text (.escaped q)) (c :: rest) = blank c :: scanned (.text (.within q)) rest := rfl

theorem scanned_inLine (c : Char) (rest : List Char) :
    scanned .line (c :: rest) = if c = '\n' then c :: scanned (.text .out) rest else ' ' :: scanned .line rest := by
  by_cases h : c = '\n'
  · simp [scanned, h]
  · simp [scanned, h]

theorem scanned_inBlock (c : Char) (rest : List Char) :
    scanned .block (c :: rest) = if c = '*' ∧
        rest.head? = some '/' then ' ' :: scanned .closing rest else blank c :: scanned .block rest := by
  by_cases h : c = '*' ∧ rest.head? = some '/'
  · simp [scanned, h]
  · simp only [scanned, Stage.lit, Stage.loop, stripFrom, if_neg h, mask_blanked]

theorem scanned_closing (c : Char) (rest : List Char) : scanned .closing (c :: rest) = ' ' :: scanned (.text .out) rest := by
  simp [scanned]

/-! ## In step -/

theorem blank_eq_self {c : Char} : blank c = c ↔ c = ' ' ∨ c = '\n' := by
  by_cases h : c = '\n'
  · simp [blank, h]
  · simp [blank, h, eq_comm]

theorem shown_inBlock {c : Char} {rest : List Char} (h : ¬ (c = '*' ∧ rest.head? = some '/')) :
    shownFrom .block (c :: rest) = blank c :: shownFrom .block rest := by
  rw [shownFrom, if_neg h]

/-- Nothing is shown of a block comment but blanks and newlines. -/
theorem shown_blank (c : Char) (rest : List Char) :
    ∃ a shown, shownFrom .block (c :: rest) = a :: shown ∧ (a = ' ' ∨ a = '\n') := by
  by_cases h : c = '*' ∧ rest.head? = some '/'
  · exact ⟨' ', _, by rw [shownFrom, if_pos h], .inl rfl⟩
  · refine ⟨blank c, _, shown_inBlock h, ?_⟩
    by_cases hc : c = '\n'
    · exact .inr (by simp [blank, hc])
    · exact .inl (by simp [blank, hc])

/-- One character shown by both. -/
theorem matched {a : Char} {rest : List Char} {s : Stage} (h : scanned s rest = shownFrom s.mode rest ↔ inStep s rest = true) :
    a :: scanned s rest = a :: shownFrom s.mode rest ↔ inStep s rest = true := by
  rw [List.cons.injEq, h]
  exact and_iff_right rfl

/-- The scanners show from a place on what the rule does where they are in step from there. -/
theorem inStep_iff (text : List Char) (s : Stage) (h : s.At text) :
    scanned s text = shownFrom s.mode text ↔ inStep s text = true := by
  induction text generalizing s with
  | nil =>
    cases s with
    | text l => cases l <;> simp [scanned, inStep]
    | opened => cases h
    | closing => cases h
    | early => cases h
    | lineClosing => cases h
    | lineOpened => cases h
    | _ => simp [scanned, inStep]
  | cons c rest ih =>
    cases s with
    | text l =>
      cases l with
      | out =>
        rw [inStep, Stage.mode, shownFrom]
        by_cases hline : c = '/' ∧ rest.head? = some '/'
        · rw [if_pos hline, if_pos hline, hline.1, scanned_line rest hline.2]
          exact matched (ih .line trivial)
        · rw [if_neg hline, if_neg hline]
          by_cases hblock : c = '/' ∧ rest.head? = some '*'
          · rw [if_pos hblock, if_pos hblock, hblock.1, scanned_block rest hblock.2]
            exact matched (ih .opened hblock.2)
          · rw [if_neg hblock, if_neg hblock, scanned_text c rest hline hblock]
            exact matched (ih (.text (Lit.out.next c rest)) trivial)
      | within q =>
        rw [inStep, Stage.mode, shownFrom, scanned_within]
        exact matched (ih (.text ((Lit.within q).next c rest)) trivial)
      | escaped q =>
        rw [inStep, Stage.mode, shownFrom, scanned_escaped]
        exact matched (ih (.text (.within q)) trivial)
    | line =>
      rw [inStep, Stage.mode, shownFrom, scanned_inLine]
      by_cases hc : c = '\n'
      · rw [if_pos hc, if_pos hc, if_pos hc]
        exact matched (ih (.text .out) trivial)
      · rw [if_neg hc, if_neg hc, if_neg hc]
        exact matched (ih .line trivial)
    | opened =>
      have hscan : scanned .opened (c :: rest) = scanned .block (c :: rest) := rfl
      have hstar : c = '*' := by simpa [Stage.At] using h
      rw [inStep, Stage.mode, shownFrom, hscan, scanned_inBlock, hstar, blank_star]
      by_cases hslash : rest.head? = some '/'
      · rw [if_pos ⟨rfl, hslash⟩, if_pos hslash]
        exact matched (ih .early hslash)
      · rw [if_neg fun hend => hslash hend.2, if_neg hslash]
        exact matched (ih .block trivial)
    | block =>
      rw [inStep, Stage.mode, shownFrom, scanned_inBlock]
      by_cases hend : c = '*' ∧ rest.head? = some '/'
      · rw [if_pos hend, if_pos hend, if_pos hend]
        exact matched (ih .closing hend.2)
      · rw [if_neg hend, if_neg hend, if_neg hend]
        exact matched (ih .block trivial)
    | closing =>
      rw [inStep, Stage.mode, shownFrom, scanned_closing]
      exact matched (ih (.text .out) trivial)
    | early =>
      have hscan : scanned .early (c :: rest) = scanned .closing (c :: rest) := rfl
      have hslash : c = '/' := by simpa [Stage.At] using h
      rw [inStep, Stage.mode, shown_inBlock (by simp [hslash]), hscan, scanned_closing, hslash, blank_slash]
      exact matched (ih .ahead trivial)
    | ahead =>
      have hscan : scanned .ahead (c :: rest) = scanned (.text .out) (c :: rest) := rfl
      rw [inStep, Stage.mode, hscan]
      by_cases hline : c = '/' ∧ rest.head? = some '/'
      · rw [if_pos hline, hline.1, scanned_line rest hline.2, shown_inBlock (by simp), blank_slash]
        exact matched (ih .aheadLine trivial)
      · rw [if_neg hline]
        by_cases hblock : c = '/' ∧ rest.head? = some '*'
        · rw [if_pos hblock, hblock.1, scanned_block rest hblock.2, shown_inBlock (by simp), blank_slash]
          exact matched (ih .block trivial)
        · rw [if_neg hblock, scanned_text c rest hline hblock]
          by_cases hc : c = ' ' ∨ c = '\n'
          · have hnext : Lit.out.next c rest = .out := by
              rcases hc with rfl | rfl <;> simp
            have hstar : c ≠ '*' := by
              rcases hc with rfl | rfl <;> simp
            have hboth : (decide (c = ' ') || decide (c = '\n')) = true := by simpa using hc
            rw [shown_inBlock fun hend => hstar hend.1, hnext, blank_eq_self.mpr hc, hboth, Bool.true_and]
            exact matched (ih .ahead trivial)
          · obtain ⟨a, shown, hshown, ha⟩ := shown_blank c rest
            have hne : c ≠ a := fun he => hc (he ▸ ha)
            have hnone : (decide (c = ' ') || decide (c = '\n')) = false := by simpa using hc
            rw [hshown, hnone, Bool.false_and]
            simp [hne]
    | aheadLine =>
      have hscan : scanned .aheadLine (c :: rest) = scanned .line (c :: rest) := rfl
      rw [inStep, Stage.mode, hscan, scanned_inLine]
      by_cases hc : c = '\n'
      · rw [if_pos hc, if_pos hc, shown_inBlock (by simp [hc]), blank_eq_self.mpr (.inr hc)]
        exact matched (ih .ahead trivial)
      · rw [if_neg hc, if_neg hc]
        by_cases hend : c = '*' ∧ rest.head? = some '/'
        · rw [if_pos hend, shownFrom, if_pos hend]
          exact matched (ih .lineClosing hend.2)
        · rw [if_neg hend, shown_inBlock hend, blank, if_neg hc]
          exact matched (ih .aheadLine trivial)
    | lineClosing =>
      have hscan : scanned .lineClosing (c :: rest) = scanned .line (c :: rest) := rfl
      have hslash : c = '/' := by simpa [Stage.At] using h
      rw [inStep, Stage.mode, shownFrom, hscan, scanned_inLine, if_neg (by simp [hslash])]
      exact matched (ih .lineOver trivial)
    | lineOver =>
      have hscan : scanned .lineOver (c :: rest) = scanned .line (c :: rest) := rfl
      rw [inStep, Stage.mode, hscan, scanned_inLine]
      by_cases hc : c = '\n'
      · rw [if_pos hc, if_pos hc, hc, ← shown_newline, shownFrom, if_pos rfl]
        exact matched (ih (.text .out) trivial)
      · rw [if_neg hc, if_neg hc, shownFrom]
        by_cases hline : c = '/' ∧ rest.head? = some '/'
        · rw [if_pos hline, if_pos hline]
          exact matched (ih .line trivial)
        · rw [if_neg hline, if_neg hline]
          by_cases hblock : c = '/' ∧ rest.head? = some '*'
          · rw [if_pos hblock, if_pos hblock]
            exact matched (ih .lineOpened hblock.2)
          · rw [if_neg hblock, if_neg hblock]
            by_cases hspace : c = ' '
            · have hnext : Lit.out.next c rest = .out := by simp [hspace]
              rw [hnext, hspace, decide_eq_true rfl, Bool.true_and]
              exact matched (ih .lineOver trivial)
            · have hne : ' ' ≠ c := fun he => hspace he.symm
              simp [hspace, hne]
    | lineOpened =>
      have hscan : scanned .lineOpened (c :: rest) = scanned .line (c :: rest) := rfl
      have hstar : c = '*' := by simpa [Stage.At] using h
      rw [inStep, Stage.mode, shownFrom, hscan, scanned_inLine, hstar, blank_star, if_neg (by simp)]
      exact matched (ih .aheadLine trivial)

/-! ## The two scanners -/

/-- The text in literals and comments is blank after the two scanners, and all else as it was,
    exactly where they stay in step with the rule. -/
theorem scanners_blank_iff (text : List Char) :
    (∃ ts, Lexed ts ∧ textOf ts = text) ∧
      ∀ ts, Lexed ts → textOf ts = text → (maskStrings (stripComments text) = shownOf ts ↔ inStep (.text .out) text = true) := by
  refine ⟨exists_lexed text, fun ts hts htext => ?_⟩
  rw [shownOf_eq hts, htext]
  exact inStep_iff text (.text .out) trivial

/-- What follows a `/*/` in its comment stays. -/
theorem early_end_shows : ¬ ∀ ts, Lexed ts → maskStrings (stripComments (textOf ts)) = shownOf ts := by
  intro h
  have hfits : ¬ ['*', '/'] <:+: ['/', 'x'] ++ ['*'] := by decide
  have heq := h [.block ['/', 'x'] true] ⟨hfits, trivial⟩
  revert heq
  decide

end OwnNet.Ownts
