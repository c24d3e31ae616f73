/-
  OwnNet.Parsing.Descent — recursive descent: readers that look at the tokens ahead of them, and
  when one of them reads a grammar.

  A reader fails on a token it does not expect, on a number that is not one, past the last token
  (`index`), or without fuel. `Reads value n p g F`: on `n` tokens or fewer `p` takes a word of `g`
  where a token of `F` follows, and stops at a refused number where `g` asks for one; what it takes is a
  word of `g`, it refuses a number nowhere else, and neither runs past the last token nor out of fuel.

  Proved: it does so by parts, one rule for each way a reader is put together.
-/

import OwnNet.Parsing.Grammar

namespace OwnNet.Parsing

inductive Fail (τ : Type) where
  | unexpected (message : String) (t : τ)
  | value (t : τ)
  | index
  | fuel
  deriving DecidableEq, Repr

def Parser (τ α : Type) : Type := List τ → Except (Fail τ) (α × List τ)

namespace Parser

variable {τ κ ν α β σ : Type}

instance : Monad (Parser τ) where
  pure a ts := .ok (a, ts)
  bind p q ts :=
    match p ts with
    | .ok (a, rest) => q a rest
    | .error e => .error e

def fail (e : Fail τ) : Parser τ α := fun _ => .error e

def unexpected (message : String) (t : τ) : Parser τ α := fail (.unexpected message t)

def cur : Parser τ τ
  | [] => .error .index
  | t :: rest => .ok (t, t :: rest)

/-- The token behind the current one; the current one where it is the last. -/
def peek : Parser τ τ
  | [] => .error .index
  | [t] => .ok (t, [t])
  | t :: t' :: rest => .ok (t', t :: t' :: rest)

/-- Go on to the next token. -/
def advance : Parser τ τ
  | [] => .error .index
  | t :: rest => .ok (t, rest)

section Alphabet

variable [Alphabet τ κ] [DecidableEq κ]

def isAt (k : κ) : Parser τ Bool := do return Alphabet.kind (← cur) = k

def eat (k : κ) : Parser τ τ := do
  let t ← cur
  if Alphabet.kind t = k then advance else unexpected ("expected " ++ Alphabet.name τ k) t

/-- Whether a `k` stood here, which is then taken. -/
def accept (k : κ) : Parser τ Bool := do
  if ← isAt k then
    let _ ← advance
    return true
  else return false

def optional (k : κ) (p : Parser τ α) (d : α) : Parser τ α := do
  if ← accept k then p else return d

def number (value : τ → Option ν) : Parser τ (τ × ν) := do
  let t ← eat (Alphabet.number τ)
  match value t with
  | some n => return (t, n)
  | none => fail (.value t)

def loopFrom (go : κ → Bool) (step : σ → Parser τ σ) : Nat → σ → Parser τ σ
  | 0, _ => fail .fuel
  | n + 1, s => do
    if go (Alphabet.kind (← cur)) then
      let s' ← step s
      loopFrom go step n s'
    else return s

/-- Steps, as long as the current token is one to go on at. -/
def loop (go : κ → Bool) (step : σ → Parser τ σ) (s : σ) : Parser τ σ := fun ts => loopFrom go step (ts.length + 1) s ts

def isAtAny (ks : List κ) : Parser τ Bool := do return Alphabet.kind (← cur) ∈ ks

/-- Whether a token of these kinds stands here, and one of kind `k` behind it. -/
def isAtThen (ks : List κ) (k : κ) : Parser τ Bool := do
  if ← isAtAny ks then return Alphabet.kind (← peek) = k else return false

/-- Steps, as long as each is followed by a `k`; none where `close` stands here. -/
def listed (close k : κ) (step : σ → Parser τ σ) (s : σ) : Parser τ σ := do
  if ← isAt close then return s
  else
    let s' ← step s
    loop (fun k' => k' = k) (fun s => do let _ ← eat k; step s) s'

end Alphabet

/-! ## Reading a grammar -/

/-- What reading a word comes to, with `rest` behind it. -/
def outcome (rest : List τ) : Option α → Except (Fail τ) (α × List τ)
  | some a => .ok (a, rest)
  | none =>
    match rest with
    | [] => .error .index
    | t :: _ => .error (.value t)

section Reads

variable [Alphabet τ κ]

def Ended (ts : List τ) : Prop := ∃ t ∈ ts, Alphabet.kind t = Alphabet.stop τ

/-- Neither past the last token nor out of fuel, and what is left still ends. -/
def Settled : Except (Fail τ) (α × List τ) → Prop
  | .ok (_, rest) => Ended rest
  | .error (.unexpected _ _) => True
  | .error (.value _) => True
  | .error .index => False
  | .error .fuel => False

structure Reads (value : τ → Option ν) (n : Nat) (p : Parser τ α) (g : Grammar τ α) (F : κ → Prop) : Prop where
  complete : ∀ {u : List τ} {o : Option α} {rest : List τ}, g u o → (u ++ rest).length ≤ n → Grammar.Follows value F o rest →
    p (u ++ rest) = outcome rest o
  sound : ∀ {ts : List τ} {a : α} {rest : List τ}, p ts = .ok (a, rest) → ∃ u, ts = u ++ rest ∧ g u (some a)
  refused : ∀ {ts : List τ} {t : τ}, p ts = .error (.value t) →
    ∃ u rest, ts = u ++ t :: rest ∧ Grammar.Refused value t ∧ g u none
  safe : ∀ {ts : List τ}, Ended ts → ts.length ≤ n → Settled (p ts)

variable {value : τ → Option ν} {n : Nat} {p q : Parser τ α} {g h : Grammar τ α} {F G : κ → Prop}

theorem bind_apply {p : Parser τ α} {q : α → Parser τ β} {ts : List τ} :
    (p >>= q) ts = match p ts with
      | .ok (a, rest) => q a rest
      | .error e => .error e := rfl

theorem bind_ok {p : Parser τ α} {q : α → Parser τ β} {ts : List τ} {b : β} {rest : List τ} (hb : (p >>= q) ts = .ok (b, rest)) :
    ∃ a mid, p ts = .ok (a, mid) ∧ q a mid = .ok (b, rest) := by
  rw [bind_apply] at hb
  cases hp : p ts with
  | error e =>
    rw [hp] at hb
    cases hb
  | ok r =>
    rw [hp] at hb
    exact ⟨r.1, r.2, rfl, hb⟩

theorem bind_error {p : Parser τ α} {q : α → Parser τ β} {ts : List τ} {e : Fail τ} (hb : (p >>= q) ts = .error e) :
    p ts = .error e ∨ ∃ a mid, p ts = .ok (a, mid) ∧ q a mid = .error e := by
  rw [bind_apply] at hb
  cases hp : p ts with
  | error e' =>
    rw [hp] at hb
    cases hb
    exact .inl rfl
  | ok r =>
    rw [hp] at hb
    exact .inr ⟨r.1, r.2, rfl, hb⟩

theorem Reads.mono (hp : Reads value n p g F) {m : Nat} (hm : m ≤ n) (hF : ∀ k, G k → F k) : Reads value m p g G where
  complete {u o rest} hu hn hr := by
    refine hp.complete hu (by omega) ?_
    cases o with
    | none => exact hr
    | some a => exact Grammar.Before.mono hr hF
  sound := hp.sound
  refused := hp.refused
  safe hts hn := hp.safe hts (by omega)

theorem Ended.ne_nil {ts : List τ} (h : Ended ts) : ts ≠ [] := by
  obtain ⟨t, ht, -⟩ := h
  exact List.ne_nil_of_mem ht

theorem Ended.tail {t : τ} {ts : List τ} (h : Ended (t :: ts)) (ht : Alphabet.kind t ≠ Alphabet.stop τ) : Ended ts := by
  obtain ⟨t', ht', hk⟩ := h
  rcases List.mem_cons.mp ht' with rfl | hmem
  · exact absurd hk ht
  · exact ⟨t', hmem, hk⟩

theorem reads_pure (a : α) : Reads value n (pure a) (pure a) F where
  complete hu _ _ := by
    obtain ⟨rfl, rfl⟩ := Grammar.pure_iff.mp hu
    rfl
  sound h := by
    cases h
    exact ⟨[], rfl, .mk⟩
  refused h := by cases h
  safe hts _ := hts

theorem reads_unexpected (message : τ → String) :
    Reads value n (cur >>= fun t => unexpected (message t) t) (⊥ : Grammar τ α) F where
  complete hu := hu.elim
  sound {ts a rest} h := by cases ts <;> cases h
  refused {ts t} h := by cases ts <;> cases h
  safe {ts} hts _ := by
    cases ts with
    | nil => exact absurd rfl hts.ne_nil
    | cons t rest => exact trivial

theorem reads_when (message : τ → String) (c : Bool) (a : α) :
    Reads value n (if c = true then pure a else cur >>= fun t => unexpected (message t) t) (Grammar.when c a) F := by
  cases c with
  | true => exact reads_pure a
  | false => exact reads_unexpected message

/-- What follows the first part is what the second begins with. -/
theorem Reads.bind {q : α → Parser τ β} {h : α → Grammar τ β} (hp : Reads value n p g F) (hq : ∀ a, Reads value n (q a) (h a) G)
    (hF : ∀ a, Grammar.Heads value (h a) G F) : Reads value n (p >>= q) (g >>= h) G where
  complete {w o rest} hw hn hr := by
    rcases Grammar.bind_iff.mp hw with ⟨u, v, a, rfl, hu, hv⟩ | ⟨hu, rfl⟩
    · rw [List.append_assoc] at hn ⊢
      rw [bind_apply, hp.complete hu hn (hF a v o rest hv hr)]
      exact (hq a).complete hv (by simp only [List.length_append] at hn ⊢; omega) hr
    · rw [bind_apply, hp.complete hu hn hr]
      obtain ⟨t, rest', rfl, -⟩ := hr
      rfl
  sound {ts b rest} hb := by
    obtain ⟨a, mid, ha, hb'⟩ := bind_ok hb
    obtain ⟨u, rfl, hu⟩ := hp.sound ha
    obtain ⟨v, rfl, hv⟩ := (hq a).sound hb'
    exact ⟨u ++ v, (List.append_assoc u v rest).symm, .both hu hv⟩
  refused {ts t} hb := by
    rcases bind_error hb with ha | ⟨a, mid, ha, hb'⟩
    · obtain ⟨u, rest, hts, ht, hu⟩ := hp.refused ha
      exact ⟨u, rest, hts, ht, .first hu⟩
    · obtain ⟨u, rfl, hu⟩ := hp.sound ha
      obtain ⟨v, rest, rfl, ht, hv⟩ := (hq a).refused hb'
      exact ⟨u ++ v, rest, (List.append_assoc u v _).symm, ht, .both hu hv⟩
  safe {ts} hts hn := by
    have ha := hp.safe hts hn
    rw [bind_apply]
    cases hr : p ts with
    | error e =>
      rw [hr] at ha
      cases e <;> exact ha
    | ok r =>
      rw [hr] at ha
      obtain ⟨u, rfl, -⟩ := hp.sound hr
      exact (hq r.1).safe ha (by simp only [List.length_append] at hn; omega)

theorem Reads.map (hp : Reads value n p g F) (f : α → β) :
    Reads value n (p >>= fun a => pure (f a)) (g >>= fun a => pure (f a)) F :=
  hp.bind (fun _ => reads_pure _) fun _ => Grammar.heads_pure fun _ hk => hk

/-! ### One token -/

/-- Takes one token, if it is of the sort asked for. -/
structure Takes (P : τ → Prop) (p : Parser τ τ) : Prop where
  hit : ∀ {t rest}, P t → p (t :: rest) = .ok (t, rest)
  miss : ∀ {t} rest, ¬ P t → ∃ message t', p (t :: rest) = .error (.unexpected message t')
  empty : p [] = .error .index
  inside : ∀ {t}, P t → Alphabet.kind t ≠ Alphabet.stop τ

theorem Takes.bind_succ {P : τ → Prop} {p : Parser τ τ} {q : τ → Parser τ β} {h : τ → Grammar τ β} (hp : Takes P p)
    (hq : ∀ t, P t → Reads value n (q t) (h t) G) : Reads value (n + 1) (p >>= q) (Grammar.sat P >>= h) G where
  complete {w o rest} hw hn hr := by
    obtain ⟨t, v, rfl, ht, hv⟩ := Grammar.sat_bind_iff.mp hw
    rw [List.cons_append, bind_apply, hp.hit ht]
    exact (hq t ht).complete hv (by simpa using hn) hr
  sound {ts b rest} hb := by
    obtain ⟨t, mid, ha, hb'⟩ := bind_ok hb
    cases ts with
    | nil => rw [hp.empty] at ha; cases ha
    | cons t' ts =>
      by_cases ht : P t'
      · rw [hp.hit ht] at ha
        cases ha
        obtain ⟨v, rfl, hv⟩ := (hq t ht).sound hb'
        exact ⟨t :: v, rfl, Grammar.sat_bind_iff.mpr ⟨t, v, rfl, ht, hv⟩⟩
      · obtain ⟨message, t'', hmiss⟩ := hp.miss ts ht
        rw [hmiss] at ha
        cases ha
  refused {ts t} hb := by
    cases ts with
    | nil =>
      rw [bind_apply, hp.empty] at hb
      cases hb
    | cons t' ts =>
      rw [bind_apply] at hb
      by_cases ht : P t'
      · rw [hp.hit ht] at hb
        obtain ⟨v, rest, rfl, hbad, hv⟩ := (hq t' ht).refused hb
        exact ⟨t' :: v, rest, rfl, hbad, Grammar.sat_bind_iff.mpr ⟨t', v, rfl, ht, hv⟩⟩
      · obtain ⟨message, t'', hmiss⟩ := hp.miss ts ht
        rw [hmiss] at hb
        cases hb
  safe {ts} hts hn := by
    cases ts with
    | nil => exact absurd rfl hts.ne_nil
    | cons t ts =>
      rw [bind_apply]
      by_cases ht : P t
      · rw [hp.hit ht]
        exact (hq t ht).safe (hts.tail (hp.inside ht)) (by simpa using hn)
      · obtain ⟨message, t'', hmiss⟩ := hp.miss ts ht
        rw [hmiss]
        exact trivial

theorem Takes.bind {P : τ → Prop} {p : Parser τ τ} {q : τ → Parser τ β} {h : τ → Grammar τ β} (hp : Takes P p)
    (hq : ∀ t, P t → Reads value n (q t) (h t) G) : Reads value n (p >>= q) (Grammar.sat P >>= h) G :=
  (hp.bind_succ hq).mono (Nat.le_succ n) fun _ hk => hk

/-! ### Looking ahead -/

/-- Answers without taking anything. -/
structure Looks (T : List τ → Bool) (test : Parser τ Bool) : Prop where
  ahead : ∀ {t rest}, test (t :: rest) = .ok (T (t :: rest), t :: rest)
  empty : test [] = .error .index

/-- Which of two grammars is read is told by the tokens ahead. -/
theorem Looks.choose {T : List τ → Bool} {test : Parser τ Bool} (ht : Looks T test) (hp : Reads value n p g F)
    (hq : Reads value n q h F) (hg : ∀ u o rest, g u o → Grammar.Follows value F o rest → u ++ rest ≠ [] ∧ T (u ++ rest) = true)
    (hh : ∀ u o rest, h u o → Grammar.Follows value F o rest → u ++ rest ≠ [] ∧ T (u ++ rest) = false) :
    Reads value n (test >>= fun b => if b = true then p else q) (g ⊔ h) F := by
  have hrun : ∀ {ts : List τ}, ts ≠ [] →
      (test >>= fun b => if b = true then p else q) ts = if T ts = true then p ts else q ts := by
    intro ts hts
    cases ts with
    | nil => exact absurd rfl hts
    | cons t rest =>
      rw [bind_apply, ht.ahead]
      by_cases hT : T (t :: rest) = true
      · simp only [hT, if_true]
      · simp only [hT, Bool.false_eq_true, if_false]
  have hempty : (test >>= fun b => if b = true then p else q) [] = .error .index := by rw [bind_apply, ht.empty]
  constructor
  · intro u o rest hu hn hr
    rcases hu with hu | hu
    · obtain ⟨hne, hT⟩ := hg u o rest hu hr
      rw [hrun hne, if_pos hT]
      exact hp.complete hu hn hr
    · obtain ⟨hne, hT⟩ := hh u o rest hu hr
      rw [hrun hne, if_neg (by simp [hT])]
      exact hq.complete hu hn hr
  · intro ts a rest ha
    by_cases hts : ts = []
    · rw [hts, hempty] at ha
      cases ha
    rw [hrun hts] at ha
    split at ha
    · obtain ⟨u, hu, hg⟩ := hp.sound ha
      exact ⟨u, hu, .inl hg⟩
    · obtain ⟨u, hu, hh⟩ := hq.sound ha
      exact ⟨u, hu, .inr hh⟩
  · intro ts t hb
    by_cases hts : ts = []
    · rw [hts, hempty] at hb
      cases hb
    rw [hrun hts] at hb
    split at hb
    · obtain ⟨u, rest, hu, hbad, hg⟩ := hp.refused hb
      exact ⟨u, rest, hu, hbad, .inl hg⟩
    · obtain ⟨u, rest, hu, hbad, hh⟩ := hq.refused hb
      exact ⟨u, rest, hu, hbad, .inr hh⟩
  · intro ts hts hn
    rw [hrun hts.ne_nil]
    split
    · exact hp.safe hts hn
    · exact hq.safe hts hn

/-- A token of some sort, and an error without one. -/
def only (P : τ → Prop) [DecidablePred P] : Parser τ τ := do
  let t ← cur
  if P t then advance else unexpected "" t

theorem takes_only {P : τ → Prop} [DecidablePred P] (hP : ∀ t, P t → Alphabet.kind t ≠ Alphabet.stop τ) : Takes P (only P) where
  hit ht := by simp [only, bind_apply, cur, advance, ht]
  miss _ ht := ⟨_, _, by simp only [only, bind_apply, cur, if_neg ht]; rfl⟩
  empty := rfl
  inside ht := hP _ ht

/-- Going on is taking a token of the sort that was looked for. -/
theorem Looks.take {T : List τ → Bool} {test : Parser τ Bool} {P : τ → Prop} [DecidablePred P]
    {q : τ → Parser τ α} {r : Parser τ α}
    {g : τ → Grammar τ α} (ht : Looks T test) (hT : ∀ t rest, T (t :: rest) = true → P t)
    (hP : ∀ t, P t → Alphabet.kind t ≠ Alphabet.stop τ) (hq : ∀ t, P t → Reads value n (q t) (g t) F) (hr : Reads value n r h F)
    (hg : ∀ u o rest, (Grammar.sat P >>= g) u o → Grammar.Follows value F o rest → T (u ++ rest) = true)
    (hh : ∀ u o rest, h u o → Grammar.Follows value F o rest → u ++ rest ≠ [] ∧ T (u ++ rest) = false) :
    Reads value n (test >>= fun b => if b = true then advance >>= q else r) ((Grammar.sat P >>= g) ⊔ h) F := by
  have heq : (test >>= fun b => if b = true then advance >>= q else r) = test >>= fun b =>
      if b = true then only P >>= q else r := by
    funext ts
    cases ts with
    | nil => rw [bind_apply, bind_apply, ht.empty]
    | cons t rest =>
      rw [bind_apply, bind_apply, ht.ahead]
      by_cases hb : T (t :: rest) = true
      · simp only [hb, if_true]
        rw [bind_apply, bind_apply, (takes_only hP).hit (hT t rest hb), advance]
      · simp only [hb, Bool.false_eq_true, if_false]
  rw [heq]
  refine ht.choose ((takes_only hP).bind hq) hr (fun u o rest hu hr => ⟨?_, hg u o rest hu hr⟩) hh
  obtain ⟨t, v, rfl, -⟩ := Grammar.sat_bind_iff.mp hu
  exact List.cons_ne_nil t _

/-! ### Loops -/

section Loop

variable {S : κ → Prop} {go : κ → Bool} {step : σ → Parser τ σ} {g : σ → Grammar τ σ}

theorem loopFrom_ok {m : Nat} {s s' : σ} {ts rest : List τ} (hstep : ∀ s, Reads value n (step s) (g s) F)
    (h : loopFrom go step m s ts = .ok (s', rest)) : ∃ u, ts = u ++ rest ∧ Grammar.Star g s u (some s') := by
  induction m generalizing s ts with
  | zero => cases h
  | succ m ih =>
    obtain ⟨t, mid, ht, h⟩ := bind_ok h
    cases ts with
    | nil => cases ht
    | cons t' ts =>
      cases ht
      split at h
      · obtain ⟨s₁, mid, hs, hrest⟩ := bind_ok h
        obtain ⟨u, hts, hu⟩ := (hstep s).sound hs
        obtain ⟨v, rfl, hv⟩ := ih hrest
        exact ⟨u ++ v, by rw [hts, List.append_assoc], .more hu hv⟩
      · cases h
        exact ⟨[], rfl, .done⟩

/-- A loop ends at a token that it does not go on at. -/
theorem loop_stops {s s' : σ} {ts rest : List τ} (h : loop go step s ts = .ok (s', rest)) :
    ∃ t rest', rest = t :: rest' ∧ go (Alphabet.kind t) = false := by
  suffices hfrom : ∀ m s ts, loopFrom go step m s ts = .ok (s', rest) → ∃ t rest', rest = t :: rest' ∧
    go (Alphabet.kind t) = false from
    hfrom _ _ _ h
  intro m
  induction m with
  | zero => nofun
  | succ m ih =>
    intro s ts h
    obtain ⟨t, mid, ht, h⟩ := bind_ok h
    cases ts with
    | nil => cases ht
    | cons t' ts =>
      cases ht
      split at h
      · obtain ⟨s₁, mid, -, hrest⟩ := bind_ok h
        exact ih s₁ mid hrest
      · next hgo =>
        cases h
        exact ⟨t, ts, rfl, by simpa using hgo⟩

theorem loopFrom_refused {m : Nat} {s : σ} {ts : List τ} {t : τ} (hstep : ∀ s, Reads value n (step s) (g s) F)
    (h : loopFrom go step m s ts = .error (.value t)) :
    ∃ u rest, ts = u ++ t :: rest ∧ Grammar.Refused value t ∧ Grammar.Star g s u none := by
  induction m generalizing s ts with
  | zero => cases h
  | succ m ih =>
    rcases bind_error h with ht | ⟨t', mid, ht, h⟩
    · cases ts <;> cases ht
    · cases ts with
      | nil => cases ht
      | cons t'' ts =>
        cases ht
        split at h
        · rcases bind_error h with hs | ⟨s₁, mid, hs, hrest⟩
          · obtain ⟨u, rest, hts, hbad, hu⟩ := (hstep s).refused hs
            exact ⟨u, rest, hts, hbad, .asked hu⟩
          · obtain ⟨u, hts, hu⟩ := (hstep s).sound hs
            obtain ⟨v, rest, rfl, hbad, hv⟩ := ih hrest
            exact ⟨u ++ v, rest, by rw [hts, List.append_assoc], hbad, .more hu hv⟩
        · cases h

theorem loopFrom_settled {m : Nat} {s : σ} {ts : List τ} (hstep : ∀ s, Reads value n (step s) (g s) F)
    (hg : ∀ s, Grammar.Starts (g s) S) (hts : Ended ts) (hn : ts.length ≤ n) (hm : ts.length < m) :
    Settled (loopFrom go step m s ts) := by
  induction m generalizing s ts with
  | zero => omega
  | succ m ih =>
    cases ts with
    | nil => exact absurd rfl hts.ne_nil
    | cons t ts =>
      rw [loopFrom, bind_apply, cur]
      simp only
      split
      · have hs := (hstep s).safe hts hn
        rw [bind_apply]
        cases hr : step s (t :: ts) with
        | error e =>
          rw [hr] at hs
          cases e <;> exact hs
        | ok r =>
          rw [hr] at hs
          obtain ⟨u, hu, hsu⟩ := (hstep s).sound hr
          obtain ⟨t', u', rfl, -⟩ := hg s u _ hsu
          have hlen : r.2.length ≤ ts.length := by
            have h := congrArg List.length hu
            simp only [List.length_cons, List.length_append] at h
            omega
          simp only [List.length_cons] at hn hm
          exact ih hs (by omega) (by omega)
      · exact hts

/-- Each round begins where the loop goes on, and what may follow it is one more or the end. -/
theorem reads_loop {s : σ} (hstep : ∀ s, Reads value n (step s) (g s) F) (hg : ∀ s, Grammar.Starts (g s) S)
    (hF : ∀ k, S k → go k = true ∧ F k) (hG : ∀ k, G k → go k = false ∧ F k) :
    Reads value n (loop go step s) (Grammar.star g s) G where
  complete {u o rest} hu hn hr := by
    suffices h : ∀ m, (u ++ rest).length < m → loopFrom go step m s (u ++ rest) = outcome rest o from h _ (by omega)
    induction hu with
    | @done s =>
      intro m hm
      obtain ⟨t, rest', rfl, ht⟩ := hr
      cases m with
      | zero => omega
      | succ m => simp [loopFrom, bind_apply, cur, (hG _ ht).1, outcome, pure]
    | @more s s' u v o hs hv ih =>
      intro m hm
      cases m with
      | zero => omega
      | succ m =>
        have hfollow : Grammar.Before F (v ++ rest) :=
          Grammar.heads_star (fun s => (hg s).mono fun k hk => (hF k hk).2) (fun k hk => (hG k hk).2) v o rest hv hr
        obtain ⟨t, u', rfl, hS⟩ := hg s u _ hs
        have ht := (hF _ hS).1
        have hrun : step s (t :: u' ++ (v ++ rest)) = .ok (s', v ++ rest) :=
          (hstep s).complete hs (by rwa [List.append_assoc] at hn) hfollow
        simp only [List.cons_append, List.append_assoc] at hrun hn hm ⊢
        simp only [List.length_cons, List.length_append] at hn hm
        rw [loopFrom, bind_apply, cur]
        simp only [ht, if_true]
        rw [bind_apply, hrun]
        exact ih (by simp only [List.length_append]; omega) hr m (by simp only [List.length_append]; omega)
    | @asked s u hs =>
      intro m hm
      cases m with
      | zero => omega
      | succ m =>
        obtain ⟨t, u', rfl, hS⟩ := hg s u _ hs
        have ht := (hF _ hS).1
        have hrun := (hstep s).complete hs hn hr
        rw [List.cons_append] at hrun ⊢
        rw [loopFrom, bind_apply, cur]
        simp only [ht, if_true]
        rw [bind_apply, hrun]
        obtain ⟨t', rest', rfl, -⟩ := hr
        rfl
  sound h := loopFrom_ok hstep h
  refused h := loopFrom_refused hstep h
  safe hts hn := loopFrom_settled hstep hg hts hn (Nat.lt_succ_self _)

end Loop

/-! ### Kinds -/

section Kinds

variable [DecidableEq κ]

theorem takes_eat {k : κ} (hk : k ≠ Alphabet.stop τ) : Takes (fun t : τ => Alphabet.kind t = k) (eat k) where
  hit ht := by simp [eat, bind_apply, cur, advance, ht]
  miss _ ht := ⟨_, _, by simp only [eat, bind_apply, cur, if_neg ht]; rfl⟩
  empty := rfl
  inside ht := ht ▸ hk

theorem reads_eat {k : κ} {q : τ → Parser τ β} {h : τ → Grammar τ β} (hk : k ≠ Alphabet.stop τ)
    (hq : ∀ t, Reads value n (q t) (h t) G) : Reads value n (eat k >>= q) (Grammar.token k >>= h) G :=
  (takes_eat hk).bind fun t _ => hq t

theorem reads_eat_succ {k : κ} {q : τ → Parser τ β} {h : τ → Grammar τ β} (hk : k ≠ Alphabet.stop τ)
    (hq : ∀ t, Reads value n (q t) (h t) G) : Reads value (n + 1) (eat k >>= q) (Grammar.token k >>= h) G :=
  (takes_eat hk).bind_succ fun t _ => hq t

theorem number_read {t : τ} {m : ν} {rest : List τ} (hk : Alphabet.kind t = Alphabet.number τ) (hv : value t = some m) :
    number value (t :: rest) = .ok ((t, m), rest) := by
  simp [number, eat, bind_apply, cur, advance, hk, hv]
  rfl

theorem number_refused {t : τ} {rest : List τ} (ht : Grammar.Refused value t) :
    number value (t :: rest) = .error (.value t) := by
  simp [number, eat, bind_apply, cur, advance, ht.1, ht.2]
  rfl

theorem number_unexpected (value : τ → Option ν) {t : τ} (rest : List τ) (hk : Alphabet.kind t ≠ Alphabet.number τ) :
    ∃ message, number value (t :: rest) = .error (.unexpected message t) :=
  ⟨_, by simp only [number, eat, bind_apply, cur, if_neg hk]; rfl⟩

theorem reads_number (hk : Alphabet.number τ ≠ Alphabet.stop τ) :
    Reads value n (number value) (Grammar.number value) F where
  complete hu _ hr := by
    cases hu with
    | read hkind hval => exact number_read hkind hval
    | asked =>
      obtain ⟨t, rest', rfl, ht⟩ := hr
      exact number_refused ht
  sound {ts a rest} ha := by
    cases ts with
    | nil => cases ha
    | cons t ts =>
      by_cases hkind : Alphabet.kind t = Alphabet.number τ
      · cases hval : value t with
        | none =>
          rw [number_refused ⟨hkind, hval⟩] at ha
          cases ha
        | some m =>
          rw [number_read hkind hval] at ha
          cases ha
          exact ⟨[t], rfl, .read hkind hval⟩
      · obtain ⟨message, hmiss⟩ := number_unexpected value ts hkind
        rw [hmiss] at ha
        cases ha
  refused {ts t} hb := by
    cases ts with
    | nil => cases hb
    | cons t' ts =>
      by_cases hkind : Alphabet.kind t' = Alphabet.number τ
      · cases hval : value t' with
        | none =>
          rw [number_refused ⟨hkind, hval⟩] at hb
          cases hb
          exact ⟨[], ts, rfl, ⟨hkind, hval⟩, .asked⟩
        | some m =>
          rw [number_read hkind hval] at hb
          cases hb
      · obtain ⟨message, hmiss⟩ := number_unexpected value ts hkind
        rw [hmiss] at hb
        cases hb
  safe {ts} hts _ := by
    cases ts with
    | nil => exact absurd rfl hts.ne_nil
    | cons t ts =>
      by_cases hkind : Alphabet.kind t = Alphabet.number τ
      · cases hval : value t with
        | none =>
          rw [number_refused ⟨hkind, hval⟩]
          exact trivial
        | some m =>
          rw [number_read hkind hval]
          exact hts.tail (hkind ▸ hk)
      · obtain ⟨message, hmiss⟩ := number_unexpected value ts hkind
        rw [hmiss]
        exact trivial

theorem looks_isAt (k : κ) : Looks (fun ts : List τ => ts.head?.elim false fun t => decide (Alphabet.kind t = k)) (isAt k) :=
  ⟨rfl, rfl⟩

theorem looks_isAtAny (ks : List κ) :
    Looks (fun ts : List τ => ts.head?.elim false fun t => decide (Alphabet.kind t ∈ ks)) (isAtAny ks) :=
  ⟨rfl, rfl⟩

theorem isAtAny_cons (ks : List κ) (t : τ) (rest : List τ) :
    isAtAny ks (t :: rest) = .ok (decide (Alphabet.kind t ∈ ks), t :: rest) := rfl

theorem isAtThen_cons {ks : List κ} {k : κ} {t t' : τ} {rest : List τ} (hpeek : peek (t :: rest) = .ok (t', t :: rest)) :
    isAtThen ks k (t :: rest) = .ok (decide (Alphabet.kind t ∈ ks) && decide (Alphabet.kind t' = k), t :: rest) := by
  rw [isAtThen, bind_apply, isAtAny_cons]
  by_cases ht : Alphabet.kind t ∈ ks
  · simp only [ht, decide_true, if_true, Bool.true_and]
    rw [bind_apply, hpeek]
    rfl
  · simp only [ht, decide_false, Bool.false_eq_true, if_false, Bool.false_and]
    rfl

/-- The last token stands behind itself. -/
def aheadThen (ks : List κ) (k : κ) : List τ → Bool
  | [] => false
  | [t] => decide (Alphabet.kind t ∈ ks) && decide (Alphabet.kind t = k)
  | t :: t' :: _ => decide (Alphabet.kind t ∈ ks) && decide (Alphabet.kind t' = k)

theorem looks_isAtThen (ks : List κ) (k : κ) : Looks (aheadThen ks k : List τ → Bool) (isAtThen ks k) where
  ahead {t rest} := by
    cases rest with
    | nil => exact isAtThen_cons rfl
    | cons t' rest => exact isAtThen_cons rfl
  empty := rfl

theorem Reads.ite {k : κ} (hp : Reads value n p g F) (hq : Reads value n q h F) (hg : Grammar.Heads value g F (· = k))
    (hh : Grammar.Heads value h F (· ≠ k)) : Reads value n (isAt k >>= fun b => if b = true then p else q) (g ⊔ h) F := by
  refine (looks_isAt k).choose hp hq (fun u o rest hu hr => ?_) fun u o rest hu hr => ?_
  · obtain ⟨t, rest', hts, ht⟩ := hg u o rest hu hr
    simp [hts, ht]
  · obtain ⟨t, rest', hts, ht⟩ := hh u o rest hu hr
    simp [hts, ht]

/-- Reads a grammar whose words all begin with one of these kinds. -/
structure ReadsAt (value : τ → Option ν) (n : Nat) (p : Parser τ α) (g : Grammar τ α) (F : κ → Prop) (ks : List κ) : Prop where
  reads : Reads value n p g F
  starts : Grammar.Starts g (· ∈ ks)

/-- A chain of alternatives, each told by kinds that begin no later one. -/
theorem ReadsAt.cons {k : κ} {ks : List κ} (hp : Reads value n p g F) (hg : Grammar.Starts g (· = k))
    (hq : ReadsAt value n q h F ks) (hk : k ∉ ks) :
    ReadsAt value n (isAt k >>= fun b => if b = true then p else q) (g ⊔ h) F (k :: ks) where
  reads := by
    have hne : Grammar.Starts h (· ≠ k) := hq.starts.mono fun k' hk' hkk => hk (by rwa [← hkk])
    exact hp.ite hq.reads hg.heads hne.heads
  starts := (hg.mono fun _ hk' => hk' ▸ List.mem_cons_self).sup (hq.starts.mono fun _ hk' => List.mem_cons_of_mem k hk')

theorem ReadsAt.any {ks ks' : List κ} (hp : Reads value n p g F) (hg : Grammar.Starts g (· ∈ ks))
    (hq : ReadsAt value n q h F ks') (hk : ∀ k ∈ ks, k ∉ ks') :
    ReadsAt value n (isAtAny ks >>= fun b => if b = true then p else q) (g ⊔ h) F (ks ++ ks') where
  reads := by
    refine (looks_isAtAny ks).choose hp hq.reads (fun u o rest hu _ => ?_) fun u o rest hu _ => ?_
    · obtain ⟨t, u', rfl, ht⟩ := hg u o hu
      simp [ht]
    · obtain ⟨t, u', rfl, ht⟩ := hq.starts u o hu
      have : Alphabet.kind t ∉ ks := fun hmem => hk _ hmem ht
      simp [this]
  starts := (hg.mono fun _ hk' => List.mem_append_left ks' hk').sup (hq.starts.mono fun _ hk' => List.mem_append_right ks hk')

/-- `advance` where the kinds were looked at. -/
theorem ReadsAt.anyTake {ks ks' : List κ} {p : τ → Parser τ α} {g : τ → Grammar τ α} (hstop : Alphabet.stop τ ∉ ks)
    (hp : ∀ t, Reads value n (p t) (g t) F) (hq : ReadsAt value n q h F ks') (hk : ∀ k ∈ ks, k ∉ ks') :
    ReadsAt value n (isAtAny ks >>= fun b => if b = true then advance >>= p else q)
      ((Grammar.sat (fun t => Alphabet.kind t ∈ ks) >>= g) ⊔ h) F (ks ++ ks') where
  reads := by
    refine (looks_isAtAny ks).take (fun t rest ht => of_decide_eq_true ht) (fun t ht hs => hstop (hs ▸ ht))
      (fun t _ => hp t) hq.reads
      (fun u o rest hu _ => ?_) fun u o rest hu _ => ?_
    · obtain ⟨t, v, rfl, ht, -⟩ := Grammar.sat_bind_iff.mp hu
      simp [ht]
    · obtain ⟨t, u', rfl, ht⟩ := hq.starts u o hu
      have : Alphabet.kind t ∉ ks := fun hmem => hk _ hmem ht
      simp [this]
  starts := (Grammar.starts_sat fun _ ht => List.mem_append_left ks' ht).sup
    (hq.starts.mono fun _ hk' => List.mem_append_right ks hk')

/-- Some kinds of token are turned away before `p` is tried. -/
theorem Reads.guarded {k : κ} {e : Parser τ α} (hp : Reads value n p g F) (he : Reads value n e ⊥ F)
    (hg : Grammar.Heads value g F (· ≠ k)) : Reads value n (isAt k >>= fun b => if b = true then e else p) g F := by
  have h := he.ite hp (fun u o rest hu => hu.elim) hg
  rwa [bot_sup_eq] at h

theorem isAt_cons (k : κ) (t : τ) (rest : List τ) : isAt k (t :: rest) = .ok (decide (Alphabet.kind t = k), t :: rest) := rfl

theorem eat_cons {k : κ} {t : τ} (rest : List τ) (ht : Alphabet.kind t = k) : eat k (t :: rest) = .ok (t, rest) := by
  simp [eat, bind_apply, cur, advance, ht]

theorem accept_cons (k : κ) (t : τ) (rest : List τ) :
    accept k (t :: rest) = if Alphabet.kind t = k then .ok (true, rest) else .ok (false, t :: rest) := by
  rw [accept, bind_apply, isAt_cons]
  by_cases ht : Alphabet.kind t = k
  · simp only [ht, decide_true, if_true]
    rfl
  · simp only [ht, decide_false, Bool.false_eq_true, if_false]
    rfl

theorem accept_eq (k : κ) : (accept k : Parser τ Bool) = isAt k >>= fun b => if b = true then eat k >>= fun _ =>
    pure true else pure false := by
  funext ts
  cases ts with
  | nil => rfl
  | cons t rest =>
    rw [accept_cons, bind_apply, isAt_cons]
    by_cases ht : Alphabet.kind t = k
    · simp only [ht, if_true, decide_true]
      rw [bind_apply, eat_cons rest ht]
      rfl
    · simp only [ht, if_false, decide_false, Bool.false_eq_true]
      rfl

theorem reads_accept {k : κ} (hk : k ≠ Alphabet.stop τ) (hF : ∀ k', F k' → k' ≠ k) :
    Reads value n (accept k) (Grammar.optional k (pure true) false) F := by
  rw [accept_eq]
  exact (reads_eat hk fun _ => reads_pure true).ite (reads_pure false) Grammar.heads_this
    (Grammar.heads_pure hF)

theorem optional_eq (k : κ) (p : Parser τ α) (d : α) :
    optional k p d = isAt k >>= fun b => if b = true then eat k >>= fun _ => p else pure d := by
  funext ts
  cases ts with
  | nil => rfl
  | cons t rest =>
    rw [optional, bind_apply, accept_cons, bind_apply, isAt_cons]
    by_cases ht : Alphabet.kind t = k
    · simp only [ht, if_true, decide_true]
      rw [bind_apply, eat_cons rest ht]
    · simp only [ht, if_false, decide_false, Bool.false_eq_true]

theorem reads_optional {k : κ} {d : α} (hk : k ≠ Alphabet.stop τ) (hp : Reads value n p g F) (hF : ∀ k', F k' → k' ≠ k) :
    Reads value n (optional k p d) (Grammar.optional k g d) F := by
  rw [optional_eq]
  exact (reads_eat hk fun _ => hp).ite (reads_pure d) Grammar.heads_this (Grammar.heads_pure hF)

theorem reads_listed {close k : κ} {step : σ → Parser τ σ} {g : σ → Grammar τ σ} {s : σ} (hk : k ≠ Alphabet.stop τ)
    (hne : close ≠ k)
    (hstep : ∀ s, Reads value n (step s) (g s) F) (hg : ∀ s, Grammar.Heads value (g s) F (· ≠ close))
    (hclose : F close) (hF : F k) :
    Reads value n (listed close k step s) (Grammar.listed k g s) (· = close) := by
  have hloop : ∀ s, Reads value n (loop (fun k' => k' = k) (fun s => eat k >>= fun _ => step s) s)
      (Grammar.star (fun s => Grammar.token k >>= fun _ => g s) s) (· = close) :=
    fun s => reads_loop (fun s => reads_eat hk fun _ => hstep s) (fun _ => Grammar.starts_this)
      (fun k' hk' => ⟨decide_eq_true hk', hk' ▸ hF⟩)
      fun k' hk' => ⟨decide_eq_false (hk' ▸ hne), hk' ▸ hclose⟩
  have hmore : ∀ s, Grammar.Heads value (Grammar.star (fun s => Grammar.token k >>= fun _ => g s) s) (· = close) F :=
    fun s => Grammar.heads_star (fun _ => Grammar.starts_token hF) fun k' hk' => hk' ▸ hclose
  exact (reads_pure s).ite ((hstep s).bind hloop hmore) (Grammar.heads_pure fun _ hk' => hk') ((hg s).bind hmore)

end Kinds

end Reads

end Parser

end OwnNet.Parsing
