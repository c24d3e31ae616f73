/-
  OwnNet.Lang.Lexer — OwnLang's tokens.

  Which characters are letters and digits is Unicode's to say: `Ucd` is that part of its database.
  The lexer takes a run of `isdigit` characters for a number; whether `int` reads it is another matter.

  Proved: `int_eq_none_iff`; `lex_own`: the lexer fails with its own error only; `lex_ended`: what it makes ends in the one
  `EOF` it has.
-/

import OwnNet.Lang.Ast

namespace OwnNet.Lang

/-- A character's `Numeric_Type`, and its value where that is `Decimal`. -/
inductive NumericType where
  | none
  | decimal (value : Nat)
  | digit
  | numeric
  deriving DecidableEq, Repr

structure Ucd where
  isAlpha : Char → Bool
  numericType : Char → NumericType

namespace Ucd

variable (u : Ucd)

def isDigit (c : Char) : Bool :=
  match u.numericType c with
  | .decimal _ => true
  | .digit => true
  | _ => false

def isAlnum (c : Char) : Bool := u.isAlpha c || u.numericType c ≠ .none

def decimal (c : Char) : Option Nat :=
  match u.numericType c with
  | .decimal value => some value
  | _ => none

def maxStrDigits : Nat := 4300

/-- `int(text)` for a text of `isdigit` characters. -/
def int (text : String) : Option Int :=
  if text.toList = [] ∨ maxStrDigits < text.toList.length then none
  else (text.toList.mapM u.decimal).map fun ds => Int.ofNat (ds.foldl (fun n d => 10 * n + d) 0)

/-- The texts `int` refuses: none, those with a digit that is no decimal, and those that are too long. -/
theorem int_eq_none_iff {text : String} :
    u.int text = none ↔ text.toList = [] ∨ maxStrDigits < text.toList.length ∨ ∃ c ∈ text.toList, u.decimal c = none := by
  have hmap : ∀ cs : List Char, cs.mapM u.decimal = none ↔ ∃ c ∈ cs, u.decimal c = none := by
    intro cs
    induction cs with
    | nil => simp
    | cons c cs ih =>
      cases hc : u.decimal c with
      | none => simp [List.mapM_cons, hc]
      | some d => cases hcs : cs.mapM u.decimal <;> simp_all [List.mapM_cons]
  unfold int
  by_cases h : text.toList = [] ∨ maxStrDigits < text.toList.length
  · rw [if_pos h]
    exact ⟨fun _ => h.elim .inl fun h => .inr (.inl h), fun _ => rfl⟩
  · rw [if_neg h, Option.map_eq_none_iff, hmap]
    exact ⟨fun hc => .inr (.inr hc), fun hc => hc.elim (fun h' => absurd (.inl h') h) fun hc =>
      hc.elim (fun h' => absurd (.inr h') h) id⟩

/-- The database up to U+00FF. -/
def latin1 : Ucd where
  isAlpha c := c.isAlpha || c = 'ª' || c = 'µ' || c = 'º' || ('À' ≤ c && c ≤ 'ÿ' && c ≠ '×' && c ≠ '÷')
  numericType c :=
    if '0' ≤ c && c ≤ '9' then .decimal (c.toNat - '0'.toNat)
    else if c = '²' || c = '³' || c = '¹' then .digit
    else if c = '¼' || c = '½' || c = '¾' then .numeric
    else .none

end Ucd

inductive Tok where
  | ident | int | string
  | module_ | resource | acquire | release | extern_ | fn | let_ | move | borrow | borrowMut | consume | as_ | use | overspan
  | if_ | else_ | while_ | return_ | mut_ | policy
  | emitType | emitAcquire | emitRelease | emitBorrow
  | lifetime | subscribe
  | rejected
  | lparen | rparen | lbrace | rbrace | comma | colon | semi | amp | eq | dot | arrow | lt
  | eof
  deriving DecidableEq, Repr

namespace Tok

def name : Tok → String
  | ident => "IDENT"
  | int => "INT"
  | string => "STRING"
  | module_ => "MODULE"
  | resource => "RESOURCE"
  | acquire => "ACQUIRE"
  | release => "RELEASE"
  | extern_ => "EXTERN"
  | fn => "FN"
  | let_ => "LET"
  | move => "MOVE"
  | borrow => "BORROW"
  | borrowMut => "BORROW_MUT"
  | consume => "CONSUME"
  | as_ => "AS"
  | use => "USE"
  | overspan => "OVERSPAN"
  | if_ => "IF"
  | else_ => "ELSE"
  | while_ => "WHILE"
  | return_ => "RETURN"
  | mut_ => "MUT"
  | policy => "POLICY"
  | emitType => "EMIT_TYPE"
  | emitAcquire => "EMIT_ACQUIRE"
  | emitRelease => "EMIT_RELEASE"
  | emitBorrow => "EMIT_BORROW"
  | lifetime => "LIFETIME"
  | subscribe => "SUBSCRIBE"
  | rejected => "REJECTED"
  | lparen => "LPAREN"
  | rparen => "RPAREN"
  | lbrace => "LBRACE"
  | rbrace => "RBRACE"
  | comma => "COMMA"
  | colon => "COLON"
  | semi => "SEMI"
  | amp => "AMP"
  | eq => "EQ"
  | dot => "DOT"
  | arrow => "ARROW"
  | lt => "LT"
  | eof => "EOF"

def keywords : List (String × Tok) :=
  [("module", module_), ("resource", resource), ("acquire", acquire), ("release", release), ("extern", extern_), ("fn", fn),
    ("let", let_), ("move", move), ("borrow", borrow), ("borrow_mut", borrowMut), ("consume", consume), ("as", as_), ("use", use),
    ("overspan", overspan), ("if", if_), ("else", else_), ("while", while_), ("return", return_), ("mut", mut_),
    ("policy", policy), ("emit_type", emitType), ("emit_acquire", emitAcquire), ("emit_release", emitRelease),
    ("emit_borrow", emitBorrow), ("lifetime", lifetime), ("subscribe", subscribe)]

def rejectedKeywords : List String := ["for", "loop", "async", "await", "yield", "spawn"]

def ofWord (word : String) : Tok :=
  if word ∈ rejectedKeywords then rejected else (keywords.lookup word).getD ident

def simple : Char → Option Tok
  | '(' => some lparen
  | ')' => some rparen
  | '{' => some lbrace
  | '}' => some rbrace
  | ',' => some comma
  | ':' => some colon
  | ';' => some semi
  | '&' => some amp
  | '=' => some eq
  | '.' => some dot
  | '<' => some lt
  | _ => none

end Tok

structure Token where
  kind : Tok
  text : String
  line : Int
  col : Int
  deriving DecidableEq, Repr

inductive LexFault where
  | unterminated
  | unexpected (c : Char)
  deriving DecidableEq, Repr

/-- What `parse` ends with instead of a module. The first two are the front end's own errors; `value` is
    `int`'s, `index` that of a list read past its end, and `fuel` only the model's. -/
inductive Raised where
  | lex (fault : LexFault) (line col : Int)
  | parse (message : String) (t : Token)
  | value (t : Token)
  | index
  | fuel
  deriving DecidableEq, Repr

/-- Where the next character stands. -/
structure Place where
  line : Int := 1
  col : Int := 1
  deriving DecidableEq, Repr

def Place.advance (p : Place) (c : Char) : Place := if c = '\n' then ⟨p.line + 1, 1⟩ else ⟨p.line, p.col + 1⟩

def Place.over (p : Place) (cs : List Char) : Place := cs.foldl Place.advance p

def unescape : Char → Char
  | 'n' => '\n'
  | 't' => '\t'
  | c => c

/-- The characters of a string literal and what is behind its closing quote; `none` where that is missing. -/
def lexString : List Char → Place → Option (List Char × List Char × Place)
  | [], _ => none
  | c :: rest, p =>
    if c = '"' then some ([], rest, p.advance c)
    else
      match rest with
      | [] => none
      | next :: rest' =>
        if c = '\\' then
          (lexString rest' ((p.advance c).advance next)).map fun r => (unescape next :: r.1, r.2)
        else (lexString (next :: rest') (p.advance c)).map fun r => (c :: r.1, r.2)

/-- One round of `lex`'s loop: the token made, if any, what is left and where. -/
def lexOne (u : Ucd) (c : Char) (rest : List Char) (p : Place) : Except Raised (Option Token × List Char × Place) :=
  if c ∈ [' ', '\t', '\r', '\n'] then .ok (none, rest, p.advance c)
  else if c = '/' ∧ rest.head? = some '/' then
    let comment := (c :: rest).takeWhile (· ≠ '\n')
    .ok (none, (c :: rest).dropWhile (· ≠ '\n'), p.over comment)
  else if c = '"' then
    match lexString rest (p.advance c) with
    | none => .error (.lex .unterminated p.line p.col)
    | some (chars, rest', p') => .ok (some ⟨.string, String.ofList chars, p.line, p.col⟩, rest', p')
  else if u.isAlpha c || c = '_' then
    let word := (c :: rest).takeWhile fun d => u.isAlnum d || d = '_'
    .ok (some ⟨.ofWord (String.ofList word), String.ofList word, p.line, p.col⟩,
      (c :: rest).dropWhile (fun d => u.isAlnum d || d = '_'), p.over word)
  else if u.isDigit c then
    let num := (c :: rest).takeWhile u.isDigit
    .ok (some ⟨.int, String.ofList num, p.line, p.col⟩, (c :: rest).dropWhile u.isDigit, p.over num)
  else if c = '-' ∧ rest.head? = some '>' then
    .ok (some ⟨.arrow, "->", p.line, p.col⟩, rest.tail, p.over ['-', '>'])
  else
    match Tok.simple c with
    | some kind => .ok (some ⟨kind, c.toString, p.line, p.col⟩, rest, p.advance c)
    | none => .error (.lex (.unexpected c) p.line p.col)

def lexFrom (u : Ucd) : Nat → List Char → Place → Except Raised (List Token)
  | _, [], p => .ok [⟨.eof, "", p.line, p.col⟩]
  | 0, _ :: _, _ => .error .fuel
  | n + 1, c :: rest, p =>
    match lexOne u c rest p with
    | .error e => .error e
    | .ok (token, rest', p') =>
      match lexFrom u n rest' p' with
      | .error e => .error e
      | .ok toks => .ok (token.toList ++ toks)

def lex (u : Ucd) (src : String) : Except Raised (List Token) := lexFrom u src.toList.length src.toList {}

/-! ## What comes out -/

theorem lexString_length {cs chars rest : List Char} {p p' : Place} (h : lexString cs p = some (chars, rest, p')) :
    rest.length < cs.length := by
  fun_induction lexString cs p generalizing chars with
  | case1 => cases h
  | case2 p rest' =>
    cases h
    exact Nat.lt_succ_self _
  | case3 => cases h
  | case4 p next rest' hq ih =>
    obtain ⟨⟨chars', rest₁, p₁⟩, hr, heq⟩ := Option.map_eq_some_iff.mp h
    cases heq
    have := ih hr
    simp only [List.length_cons]
    omega
  | case5 p c hq next rest' hb ih =>
    obtain ⟨⟨chars', rest₁, p₁⟩, hr, heq⟩ := Option.map_eq_some_iff.mp h
    cases heq
    have := ih hr
    simp only [List.length_cons] at this ⊢
    omega

theorem ofWord_ne_eof (word : String) : Tok.ofWord word ≠ .eof := by
  have hall : ∀ e ∈ Tok.keywords, e.2 ≠ .eof := by decide
  unfold Tok.ofWord
  split
  · decide
  cases h : Tok.keywords.lookup word with
  | none => decide
  | some k =>
    obtain ⟨l₁, l₂, hl, -⟩ := List.lookup_eq_some_iff.mp h
    exact hall (word, k) (by rw [hl]; simp)

theorem simple_ne_eof {c : Char} {k : Tok} (h : Tok.simple c = some k) : k ≠ .eof := by
  unfold Tok.simple at h
  split at h <;> cases h <;> decide

/-- A round takes a character at least, and makes no `EOF`. -/
theorem lexOne_ok {u : Ucd} {c : Char} {rest rest' : List Char} {p p' : Place} {o : Option Token}
    (h : lexOne u c rest p = .ok (o, rest', p')) : rest'.length ≤ rest.length ∧ ∀ t ∈ o, t.kind ≠ .eof := by
  have hdrop : ∀ f : Char → Bool, f c = true → ((c :: rest).dropWhile f).length ≤ rest.length := fun f hf => by
    rw [List.dropWhile_cons_of_pos hf]
    exact (List.dropWhile_sublist f).length_le
  unfold lexOne at h
  split at h
  · cases h
    simp
  split at h
  next hc =>
    cases h
    exact ⟨hdrop _ (by simp [hc.1]), by simp⟩
  split at h
  · split at h
    · cases h
    next hs =>
      cases h
      exact ⟨Nat.le_of_lt (lexString_length hs), by simp⟩
  split at h
  next hc =>
    cases h
    refine ⟨hdrop _ ?_, by simp [ofWord_ne_eof]⟩
    rcases Bool.or_eq_true_iff.mp hc with hc | hc
    · simp [Ucd.isAlnum, hc]
    · simp [hc]
  split at h
  next hc =>
    cases h
    exact ⟨hdrop _ hc, by simp⟩
  split at h
  · cases h
    simp
  split at h
  next hk =>
    cases h
    simp [simple_ne_eof hk]
  · cases h

theorem lexOne_error {u : Ucd} {c : Char} {rest : List Char} {p : Place} {e : Raised} (h : lexOne u c rest p = .error e) :
    ∃ fault line col, e = .lex fault line col := by
  unfold lexOne at h
  repeat' split at h
  all_goals cases h
  all_goals exact ⟨_, _, _, rfl⟩

theorem lexFrom_own {u : Ucd} {n : Nat} {cs : List Char} {p : Place} {e : Raised} (h : lexFrom u n cs p = .error e)
    (hn : cs.length ≤ n) : ∃ fault line col, e = .lex fault line col := by
  induction n generalizing cs p with
  | zero =>
    obtain rfl : cs = [] := List.length_eq_zero_iff.mp (by omega)
    cases h
  | succ n ih =>
    cases cs with
    | nil => cases h
    | cons c rest =>
      rw [lexFrom] at h
      cases hone : lexOne u c rest p with
      | error e' =>
        rw [hone] at h
        cases h
        exact lexOne_error hone
      | ok r =>
        simp only [hone] at h
        split at h
        next hrest =>
          cases h
          have := (lexOne_ok hone).1
          simp only [List.length_cons] at hn
          exact ih hrest (by omega)
        · cases h

theorem lexFrom_ended {u : Ucd} {n : Nat} {cs : List Char} {p : Place} {toks : List Token} (h : lexFrom u n cs p = .ok toks) :
    ∃ body eof, toks = body ++ [eof] ∧ eof.kind = .eof ∧ ∀ t ∈ body, t.kind ≠ .eof := by
  induction n generalizing cs p toks with
  | zero =>
    cases cs with
    | nil =>
      cases h
      exact ⟨[], _, rfl, rfl, by simp⟩
    | cons => cases h
  | succ n ih =>
    cases cs with
    | nil =>
      cases h
      exact ⟨[], _, rfl, rfl, by simp⟩
    | cons c rest =>
      rw [lexFrom] at h
      cases hone : lexOne u c rest p with
      | error e =>
        rw [hone] at h
        cases h
      | ok r =>
        simp only [hone] at h
        split at h
        · cases h
        next toks' hrest =>
          cases h
          obtain ⟨body, eof, rfl, heof, hbody⟩ := ih hrest
          refine ⟨r.1.toList ++ body, eof, (List.append_assoc _ _ _).symm, heof, fun t ht => ?_⟩
          rcases List.mem_append.mp ht with ht | ht
          · exact (lexOne_ok hone).2 t (Option.mem_toList.mp ht)
          · exact hbody t ht

/-- The lexer comes to an end, and fails with its own error only. -/
theorem lex_own {u : Ucd} {src : String} {e : Raised} (h : lex u src = .error e) : ∃ fault line col, e = .lex fault line col :=
  lexFrom_own h (Nat.le_refl _)

theorem lex_ended {u : Ucd} {src : String} {toks : List Token} (h : lex u src = .ok toks) :
    ∃ body eof, toks = body ++ [eof] ∧ eof.kind = .eof ∧ ∀ t ∈ body, t.kind ≠ .eof :=
  lexFrom_ended h

end OwnNet.Lang
