/-
  OwnNet.Ownts.Lexical — literals and comments in a script's text.

  A text is characters of code, literals, line comments and block comments, each as long as the
  rule lets it be. `shownOf` is the text with the inside of literals and all of comments blank.

  Proved: every text is made of such tokens (`exists_lexed`), and what is shown of it is what one
  reading from left to right shows (`shownOf_eq`), so it is the same however it is made of them.
-/

import Mathlib.Data.List.Infix

namespace OwnNet.Ownts

/-- What a literal is delimited by. -/
def quotes : List Char := "\"'`".toList

/-- Newlines are kept. -/
def blank (c : Char) : Char := if c = '\n' then '\n' else ' '

@[simp] theorem blank_slash : blank '/' = ' ' := by decide
@[simp] theorem blank_star : blank '*' = ' ' := by decide
@[simp] theorem blank_blank : blank ' ' = ' ' := by decide
@[simp] theorem slash_quotes : '/' ∉ quotes := by decide
@[simp] theorem star_quotes : '*' ∉ quotes := by decide
@[simp] theorem newline_quotes : '\n' ∉ quotes := by decide
@[simp] theorem blank_quotes : ' ' ∉ quotes := by decide
@[simp] theorem backslash_quotes : '\\' ∉ quotes := by decide

/-! ## Tokens -/

inductive Token
  | plain (c : Char)
  | literal (q : Char) (content : List Char) (closed : Bool)
  | line (body : List Char)
  | block (body : List Char) (closed : Bool)

namespace Token

def text : Token → List Char
  | plain c => [c]
  | literal q content closed => q :: content ++ if closed then [q] else []
  | line body => '/' :: '/' :: body
  | block body closed => '/' :: '*' :: body ++ if closed then ['*', '/'] else []

def shown : Token → List Char
  | plain c => [c]
  | literal q content closed => q :: content.map blank ++ if closed then [q] else []
  | line body => (line body).text.map blank
  | block body closed => (block body closed).text.map blank

end Token

/-- Literal content: no delimiter of its own that a backslash is not before, and none before the
    delimiter that closes it. `esc`: there is a backslash before. -/
def Inside (q : Char) (closed : Bool) : Bool → List Char → Prop
  | esc, [] => closed = true → esc = false
  | true, _ :: rest => Inside q closed false rest
  | false, c :: rest => if c = '\\' then Inside q closed true rest else c ≠ q ∧ Inside q closed false rest

/-- The token that comes first in a text, with `after` behind it. -/
def Token.Fits (after : List Char) : Token → Prop
  | .plain c => c ∉ quotes ∧ (c = '/' → after.head? ≠ some '/' ∧ after.head? ≠ some '*')
  | .literal q content closed => q ∈ quotes ∧ Inside q closed false content ∧ (closed = false → after = [])
  | .line body => '\n' ∉ body ∧ (after = [] ∨ after.head? = some '\n')
  | .block body true => ¬ ['*', '/'] <:+: body ++ ['*']
  | .block body false => ¬ ['*', '/'] <:+: body ∧ after = []

def textOf (ts : List Token) : List Char := ts.flatMap Token.text

def shownOf (ts : List Token) : List Char := ts.flatMap Token.shown

def Lexed : List Token → Prop
  | [] => True
  | t :: ts => t.Fits (textOf ts) ∧ Lexed ts

/-! ## From left to right -/

/-- Where a reading is, as to literals. -/
inductive Lit
  | out
  | within (q : Char)
  | escaped (q : Char)
  deriving DecidableEq

@[simp] def Lit.next : Lit → Char → List Char → Lit
  | .out, c, _ => if c ∈ quotes then .within c else .out
  | .within q, c, rest => if c = q then .out else if c = '\\' ∧ rest ≠ [] then .escaped q else .within q
  | .escaped q, _, _ => .within q

/-- Where a reading is. `opened` is the star of a `/*`, `closing` the slash of a `*/`. -/
inductive Mode
  | text (l : Lit)
  | line
  | opened
  | block
  | closing

@[simp] def shownFrom : Mode → List Char → List Char
  | _, [] => []
  | .text .out, c :: rest =>
    if c = '/' ∧ rest.head? = some '/' then ' ' :: shownFrom .line rest
    else if c = '/' ∧ rest.head? = some '*' then ' ' :: shownFrom .opened rest
    else c :: shownFrom (.text (Lit.out.next c rest)) rest
  | .text (.within q), c :: rest => (if c = q then c else blank c) :: shownFrom (.text ((Lit.within q).next c rest)) rest
  | .text (.escaped q), c :: rest => blank c :: shownFrom (.text (.within q)) rest
  | .line, c :: rest => if c = '\n' then c :: shownFrom (.text .out) rest else ' ' :: shownFrom .line rest
  | .opened, c :: rest => blank c :: shownFrom .block rest
  | .block, c :: rest =>
    if c = '*' ∧ rest.head? = some '/' then ' ' :: shownFrom .closing rest else blank c :: shownFrom .block rest
  | .closing, _ :: rest => ' ' :: shownFrom (.text .out) rest

@[simp] theorem shownFrom_nil (m : Mode) : shownFrom m [] = [] := by
  cases m with
  | text l => cases l <;> rfl
  | _ => rfl

theorem shownFrom_backslash (q : Char) (hq : q ∈ quotes) (rest : List Char) :
    shownFrom (.text ((Lit.within q).next '\\' rest)) rest = shownFrom (.text (.escaped q)) rest := by
  have hne : '\\' ≠ q := fun h => backslash_quotes (h ▸ hq)
  by_cases hrest : rest = []
  · simp [hrest]
  · simp [hne, hrest]

def delimiter (closed : Bool) (q : Char) : List Char := if closed then [q] else []

theorem shown_literal {q : Char} {closed esc : Bool} {content after : List Char} (hq : q ∈ quotes)
    (h : Inside q closed esc content)
    (hafter : closed = false → after = []) :
    shownFrom (.text (if esc then .escaped q else .within q)) (content ++ (delimiter closed q ++ after)) =
      content.map blank ++ (delimiter closed q ++ shownFrom (.text .out) after) := by
  induction content generalizing esc with
  | nil =>
    cases closed with
    | false => simp [delimiter, hafter rfl]
    | true => simp [h rfl, delimiter]
  | cons c rest ih =>
    cases esc with
    | true => simpa using ih h
    | false =>
      rw [Inside] at h
      by_cases hc : c = '\\'
      · subst hc
        have hne : '\\' ≠ q := fun h => backslash_quotes (h ▸ hq)
        rw [if_pos rfl] at h
        have hrest := ih h
        simp only [Bool.false_eq_true, if_false, List.cons_append, shownFrom, if_neg hne, List.map_cons,
          List.cons.injEq, true_and]
        rw [shownFrom_backslash q hq]
        simpa using hrest
      · rw [if_neg hc] at h
        have hrest := ih h.2
        simpa [h.1, hc] using hrest

theorem shown_newline (rest : List Char) : shownFrom .line ('\n' :: rest) = shownFrom (.text .out) ('\n' :: rest) := by
  simp

theorem shown_line {body after : List Char} (h : '\n' ∉ body) (hafter : after = [] ∨ after.head? = some '\n') :
    shownFrom .line (body ++ after) = body.map blank ++ shownFrom (.text .out) after := by
  induction body with
  | nil =>
    rcases hafter with rfl | hafter
    · simp
    · obtain ⟨rest, rfl⟩ : ∃ rest, after = '\n' :: rest := by
        cases after with
        | nil => cases hafter
        | cons c rest => exact ⟨rest, by simpa using hafter⟩
      exact shown_newline rest
  | cons c rest ih =>
    rw [List.mem_cons, not_or] at h
    have hc : c ≠ '\n' := fun he => h.1 he.symm
    simp [hc, blank, ih h.2]

theorem shown_block {body : List Char} (after : List Char) (h : ¬ ['*', '/'] <:+: body ++ ['*']) :
    shownFrom .block (body ++ '*' :: '/' :: after) = body.map blank ++ ' ' :: ' ' :: shownFrom (.text .out) after := by
  induction body with
  | nil => simp
  | cons c rest ih =>
    rw [List.cons_append, List.infix_cons_iff, not_or] at h
    have hno : ¬ (c = '*' ∧ (rest ++ '*' :: '/' :: after).head? = some '/') := by
      intro hstar
      cases rest with
      | nil => simp at hstar
      | cons d rest =>
        obtain ⟨rfl, hd⟩ : c = '*' ∧ d = '/' := by simpa using hstar
        exact h.1 (by simp [hd])
    rw [List.cons_append, shownFrom, if_neg hno, ih h.2]
    rfl

theorem shown_open {body : List Char} (h : ¬ ['*', '/'] <:+: body) : shownFrom .block body = body.map blank := by
  induction body with
  | nil => rfl
  | cons c rest ih =>
    rw [List.infix_cons_iff, not_or] at h
    have hno : ¬ (c = '*' ∧ rest.head? = some '/') := by
      intro hstar
      cases rest with
      | nil => simp at hstar
      | cons d rest =>
        obtain ⟨rfl, hd⟩ : c = '*' ∧ d = '/' := by simpa using hstar
        exact h.1 (by simp [hd])
    rw [shownFrom, if_neg hno, ih h.2]
    rfl

theorem shown_token {t : Token} {after : List Char} (h : t.Fits after) :
    shownFrom (.text .out) (t.text ++ after) = t.shown ++ shownFrom (.text .out) after := by
  cases t with
  | plain c =>
    have hline : ¬ (c = '/' ∧ after.head? = some '/') := fun hc => (h.2 hc.1).1 hc.2
    have hblock : ¬ (c = '/' ∧ after.head? = some '*') := fun hc => (h.2 hc.1).2 hc.2
    simp [Token.text, Token.shown, hline, hblock, h.1]
  | literal q content closed =>
    have hq : q ≠ '/' := fun he => slash_quotes (he ▸ h.1)
    have hlit := shown_literal h.1 h.2.1 h.2.2
    simpa [Token.text, Token.shown, hq, h.1, delimiter] using hlit
  | line body =>
    have hbody : '\n' ∉ '/' :: body := by simpa using h.1
    have hline := shown_line hbody h.2
    simpa [Token.text, Token.shown] using hline
  | block body closed =>
    cases closed with
    | true =>
      have hblock := shown_block after h
      simpa [Token.text, Token.shown] using hblock
    | false =>
      obtain ⟨hbody, rfl⟩ := h
      simpa [Token.text, Token.shown] using shown_open hbody

/-- What is shown of a text is what a reading from left to right shows. -/
theorem shownOf_eq {ts : List Token} (h : Lexed ts) : shownOf ts = shownFrom (.text .out) (textOf ts) := by
  induction ts with
  | nil => rfl
  | cons t ts ih =>
    have htok := shown_token h.1
    rw [← ih h.2] at htok
    exact htok.symm

/-! ## Every text -/

theorem split_literal (q : Char) (esc : Bool) (rest : List Char) :
    ∃ content closed after, rest = content ++ (delimiter closed q ++ after) ∧ Inside q closed esc content ∧
        (closed = false → after = []) := by
  induction rest generalizing esc with
  | nil => exact ⟨[], false, [], rfl, fun h => (by cases h), fun _ => rfl⟩
  | cons c rest ih =>
    cases esc with
    | true =>
      obtain ⟨content, closed, after, rfl, hin, hafter⟩ := ih false
      exact ⟨c :: content, closed, after, rfl, hin, hafter⟩
    | false =>
      by_cases hc : c = '\\'
      · obtain ⟨content, closed, after, rfl, hin, hafter⟩ := ih true
        exact ⟨c :: content, closed, after, rfl, by rw [Inside, if_pos hc]; exact hin, hafter⟩
      · by_cases hq : c = q
        · exact ⟨[], true, rest, by rw [hq]; rfl, fun _ => rfl, fun h => (by cases h)⟩
        · obtain ⟨content, closed, after, rfl, hin, hafter⟩ := ih false
          exact ⟨c :: content, closed, after, rfl, by rw [Inside, if_neg hc]; exact ⟨hq, hin⟩, hafter⟩

theorem split_line (rest : List Char) : ∃ body after, rest = body ++ after ∧ '\n' ∉ body ∧
    (after = [] ∨ after.head? = some '\n') := by
  induction rest with
  | nil => exact ⟨[], [], rfl, by simp, .inl rfl⟩
  | cons c rest ih =>
    by_cases hc : c = '\n'
    · exact ⟨[], c :: rest, rfl, by simp, .inr (by rw [hc]; rfl)⟩
    · obtain ⟨body, after, rfl, hbody, hafter⟩ := ih
      exact ⟨c :: body, after, rfl, by simp [hbody, eq_comm, hc], hafter⟩

/-- A block comment from its content on. -/
theorem split_block (rest : List Char) :
    (∃ body after, rest = body ++ '*' :: '/' :: after ∧ ¬ ['*', '/'] <:+: body ++ ['*']) ∨ ¬ ['*', '/'] <:+: rest := by
  induction rest with
  | nil => exact .inr (by simp)
  | cons c rest ih =>
    by_cases hc : ['*', '/'] <+: c :: rest
    · obtain ⟨after, hafter⟩ := hc
      exact .inl ⟨[], after, by simpa using hafter.symm, by simp [List.infix_cons_iff]⟩
    · rcases ih with ⟨body, after, rfl, hbody⟩ | hrest
      · refine .inl ⟨c :: body, after, rfl, ?_⟩
        rw [List.cons_append, List.infix_cons_iff, not_or]
        refine ⟨fun hpre => hc ?_, hbody⟩
        have hlong : c :: (body ++ ['*']) <+: c :: (body ++ '*' :: '/' :: after) := ⟨'/' :: after, by simp⟩
        exact hpre.trans hlong
      · exact .inr (by rw [List.infix_cons_iff, not_or]; exact ⟨hc, hrest⟩)

/-- The first token of a text. -/
theorem exists_token (c : Char) (rest : List Char) :
    ∃ t after, c :: rest = Token.text t ++ after ∧ t.Fits after ∧ after.length ≤ rest.length := by
  by_cases hq : c ∈ quotes
  · obtain ⟨content, closed, after, rfl, hin, hafter⟩ := split_literal c false rest
    exact ⟨.literal c content closed, after, by simp [Token.text, delimiter], ⟨hq, hin, hafter⟩, by simp; omega⟩
  · by_cases hline : c = '/' ∧ rest.head? = some '/'
    · obtain ⟨rfl, hhead⟩ := hline
      obtain ⟨rest, rfl⟩ : ∃ r, rest = '/' :: r := by
        cases rest with
        | nil => cases hhead
        | cons d rest => exact ⟨rest, by simpa using hhead⟩
      obtain ⟨body, after, rfl, hbody, hafter⟩ := split_line rest
      exact ⟨.line body, after, rfl, ⟨hbody, hafter⟩, by simp; omega⟩
    · by_cases hblock : c = '/' ∧ rest.head? = some '*'
      · obtain ⟨rfl, hhead⟩ := hblock
        obtain ⟨rest, rfl⟩ : ∃ r, rest = '*' :: r := by
          cases rest with
          | nil => cases hhead
          | cons d rest => exact ⟨rest, by simpa using hhead⟩
        rcases split_block rest with ⟨body, after, rfl, hbody⟩ | hbody
        · exact ⟨.block body true, after, by simp [Token.text], hbody, by simp; omega⟩
        · exact ⟨.block rest false, [], by simp [Token.text], ⟨hbody, rfl⟩, by simp⟩
      · exact ⟨.plain c, rest, rfl, ⟨hq, fun hc => ⟨fun hh => hline ⟨hc, hh⟩, fun hh => hblock ⟨hc, hh⟩⟩⟩, le_refl _⟩

theorem exists_lexed (text : List Char) : ∃ ts, Lexed ts ∧ textOf ts = text := by
  induction hn : text.length using Nat.strong_induction_on generalizing text with
  | _ n ih =>
    cases text with
    | nil => exact ⟨[], trivial, rfl⟩
    | cons c rest =>
      obtain ⟨t, after, heq, hfits, hle⟩ := exists_token c rest
      obtain ⟨ts, hts, hafter⟩ := ih after.length (by simp at hn; omega) after rfl
      exact ⟨t :: ts, ⟨hafter ▸ hfits, hts⟩, by rw [heq, ← hafter]; rfl⟩

end OwnNet.Ownts
