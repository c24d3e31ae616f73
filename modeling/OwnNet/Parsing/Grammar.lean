/-
  OwnNet.Parsing.Grammar — grammars over tokens, as what their words are read as.

  `g u (some a)`: the word `u` is read as `a`. `g u none`: `u` ends where a number must stand.
  Grammars are put together by `>>=`, `⊔` and `star`; a recursive one is the least that solves its
  equation.

  Proved: all of them are monotone, so what accepts less within a grammar accepts less as a whole.
-/

import Mathlib.Order.FixedPoints

namespace OwnNet.Parsing

/-- What a reader looks at in a token. `stop` ends every list of tokens. -/
class Alphabet (τ : Type) (κ : outParam Type) where
  kind : τ → κ
  name : κ → String
  stop : κ
  number : κ

def Grammar (τ α : Type) : Type := List τ → Option α → Prop

namespace Grammar

variable {τ κ ν α β σ : Type}

instance : CompleteLattice (Grammar τ α) := inferInstanceAs (CompleteLattice (List τ → Option α → Prop))

-- Its order, its joins and its bottom by name, so that each is found in one way.

instance : SemilatticeSup (Grammar τ α) := CompleteLattice.toLattice.toSemilatticeSup

instance : PartialOrder (Grammar τ α) := SemilatticeSup.toPartialOrder

instance : LE (Grammar τ α) := Preorder.toLE

instance : Max (Grammar τ α) := SemilatticeSup.toMax

instance : OrderBot (Grammar τ α) := CompleteLattice.toBoundedOrder.toOrderBot

instance : Bot (Grammar τ α) := OrderBot.toBot

def derives (g : Grammar τ α) (u : List τ) (a : α) : Prop := g u (some a)

def asks (g : Grammar τ α) (u : List τ) : Prop := g u none

theorem not_bot {u : List τ} {o : Option α} : ¬ (⊥ : Grammar τ α) u o := fun h => h

/-! ## Sequence -/

inductive Empty (a : α) : List τ → Option α → Prop
  | mk : Empty a [] (some a)

/-- A word of `g`, then one of what `h` makes of its value. -/
inductive Then (g : Grammar τ α) (h : α → Grammar τ β) : List τ → Option β → Prop
  | both {u v : List τ} {a : α} {o : Option β} : g u (some a) → h a v o → Then g h (u ++ v) o
  | first {u : List τ} : g u none → Then g h u none

instance : Monad (Grammar τ) where
  pure := Empty
  bind := Then

/-- The empty word, under a condition. -/
def when (c : Bool) (a : α) : Grammar τ α := if c = true then pure a else ⊥

theorem pure_iff {a : α} {u : List τ} {o : Option α} : (pure a : Grammar τ α) u o ↔ u = [] ∧ o = some a :=
  ⟨fun h => by cases h; exact ⟨rfl, rfl⟩, fun ⟨hu, ho⟩ => by subst hu ho; exact .mk⟩

theorem when_iff {c : Bool} {a : α} {u : List τ} {o : Option α} :
    (when c a : Grammar τ α) u o ↔ c = true ∧ u = [] ∧ o = some a := by
  cases c with
  | true => simpa [when] using pure_iff
  | false => simpa [when] using not_bot

theorem when_mono {c c' : Bool} (h : c = true → c' = true) (a : α) : (when c a : Grammar τ α) ≤ when c' a := by
  intro u o hu
  obtain ⟨hc, hu⟩ := when_iff.mp hu
  exact when_iff.mpr ⟨h hc, hu⟩

theorem bind_iff {g : Grammar τ α} {h : α → Grammar τ β} {w : List τ} {o : Option β} :
    (g >>= h) w o ↔ (∃ u v a, w = u ++ v ∧ g u (some a) ∧ h a v o) ∨ (g w none ∧ o = none) := by
  refine ⟨fun hw => ?_, fun hw => ?_⟩
  · cases hw with
    | both hg hh => exact .inl ⟨_, _, _, rfl, hg, hh⟩
    | first hg => exact .inr ⟨hg, rfl⟩
  · rcases hw with ⟨u, v, a, rfl, hg, hh⟩ | ⟨hg, rfl⟩
    · exact Then.both hg hh
    · exact Then.first hg

theorem bind_mono {g g' : Grammar τ α} {h h' : α → Grammar τ β} (hg : g ≤ g') (hh : ∀ a, h a ≤ h' a) :
    g >>= h ≤ g' >>= h' := by
  intro w o hw
  cases hw with
  | both h₁ h₂ => exact Then.both (hg _ _ h₁) (hh _ _ _ h₂)
  | first h₁ => exact Then.first (hg _ _ h₁)

/-! ## Tokens -/

inductive One (P : τ → Prop) : List τ → Option τ → Prop
  | mk {t : τ} : P t → One P [t] (some t)

/-- A token of some sort. -/
def sat (P : τ → Prop) : Grammar τ τ := One P

theorem sat_iff {P : τ → Prop} {u : List τ} {o : Option τ} : sat P u o ↔ ∃ t, P t ∧ u = [t] ∧ o = some t :=
  ⟨fun h => by cases h with | mk ht => exact ⟨_, ht, rfl, rfl⟩, fun ⟨_, ht, hu, ho⟩ => by subst hu ho; exact .mk ht⟩

theorem sat_bind_iff {P : τ → Prop} {h : τ → Grammar τ β} {w : List τ} {o : Option β} :
    (sat P >>= h) w o ↔ ∃ t v, w = t :: v ∧ P t ∧ h t v o := by
  rw [bind_iff]
  refine ⟨fun hw => ?_, fun ⟨t, v, hw, ht, hv⟩ => .inl ⟨[t], v, t, hw, .mk ht, hv⟩⟩
  rcases hw with ⟨u, v, a, rfl, hu, hv⟩ | ⟨hu, -⟩
  · cases hu with
    | mk ht => exact ⟨_, _, rfl, ht, hv⟩
  · cases hu

section Alphabet

variable [Alphabet τ κ]

def token (k : κ) : Grammar τ τ := sat fun t => Alphabet.kind t = k

/-- A number, with the token it is written as. -/
inductive Number (value : τ → Option ν) : List τ → Option (τ × ν) → Prop
  | asked : Number value [] none
  | read {t : τ} {n : ν} : Alphabet.kind t = Alphabet.number τ → value t = some n → Number value [t] (some (t, n))

def number (value : τ → Option ν) : Grammar τ (τ × ν) := Number value

/-- A `k` and a word of `g`, or nothing, which is read as `d`. -/
def optional (k : κ) (g : Grammar τ α) (d : α) : Grammar τ α := (token k >>= fun _ => g) ⊔ pure d

theorem optional_mono {k : κ} {g g' : Grammar τ α} {d : α} (hg : g ≤ g') : optional k g d ≤ optional k g' d :=
  sup_le_sup (bind_mono le_rfl fun _ => hg) le_rfl

end Alphabet

/-! ## Repetition -/

/-- Any number of words of `g`, each read on from where the ones before it led. -/
inductive Star (g : σ → Grammar τ σ) : σ → List τ → Option σ → Prop
  | done {s : σ} : Star g s [] (some s)
  | more {s s' : σ} {u v : List τ} {o : Option σ} : g s u (some s') → Star g s' v o → Star g s (u ++ v) o
  | asked {s : σ} {u : List τ} : g s u none → Star g s u none

def star (g : σ → Grammar τ σ) (s : σ) : Grammar τ σ := Star g s

theorem star_mono {g g' : σ → Grammar τ σ} (h : ∀ s, g s ≤ g' s) (s : σ) : star g s ≤ star g' s := by
  intro u o hu
  induction hu with
  | done => exact .done
  | more hg _ ih => exact .more (h _ _ _ hg) ih
  | asked hg => exact .asked (h _ _ _ hg)

/-- `g*`, as the list of what its words are read as. -/
def many (g : Grammar τ α) : Grammar τ (List α) := star (fun as => do return as ++ [← g]) []

theorem many_mono {g g' : Grammar τ α} (h : g ≤ g') : many g ≤ many g' :=
  star_mono (fun _ => bind_mono h fun _ => le_rfl) []

section Alphabet

variable [Alphabet τ κ]

/-- `(g (k g)*)?`. -/
def listed (k : κ) (g : σ → Grammar τ σ) (s : σ) : Grammar τ σ :=
  pure s ⊔ (g s >>= fun s => star (fun s => token k >>= fun _ => g s) s)

theorem listed_mono {k : κ} {g g' : σ → Grammar τ σ} (h : ∀ s, g s ≤ g' s) (s : σ) : listed k g s ≤ listed k g' s :=
  sup_le_sup le_rfl (bind_mono (h s) fun s => star_mono (fun s => bind_mono le_rfl fun _ => h s) s)

/-! ## What a word begins with -/

/-- The first token is of one of these kinds. -/
def Before (F : κ → Prop) (ts : List τ) : Prop := ∃ t rest, ts = t :: rest ∧ F (Alphabet.kind t)

theorem Before.mono {F F' : κ → Prop} {ts : List τ} (h : Before F ts) (hF : ∀ k, F k → F' k) : Before F' ts := by
  obtain ⟨t, rest, rfl, ht⟩ := h
  exact ⟨t, rest, rfl, hF _ ht⟩

/-- Every word begins with one of these kinds, also where it ends at a number. -/
def Starts (g : Grammar τ α) (F : κ → Prop) : Prop := ∀ u o, g u o → Before F u

theorem Starts.mono {g : Grammar τ α} {F F' : κ → Prop} (h : Starts g F) (hF : ∀ k, F k → F' k) : Starts g F' :=
  fun u o hu => (h u o hu).mono hF

theorem starts_bot {F : κ → Prop} : Starts (⊥ : Grammar τ α) F := fun _ _ h => h.elim

theorem starts_sat {P : τ → Prop} {h : τ → Grammar τ β} {F : κ → Prop} (hP : ∀ t, P t → F (Alphabet.kind t)) :
    Starts (sat P >>= h) F := by
  intro u o hu
  obtain ⟨t, v, rfl, ht, -⟩ := sat_bind_iff.mp hu
  exact ⟨t, v, rfl, hP t ht⟩

theorem starts_token {k : κ} {h : τ → Grammar τ β} {F : κ → Prop} (hk : F k) : Starts (token k >>= h) F :=
  starts_sat fun _ ht => ht ▸ hk

theorem starts_this {k : κ} {h : τ → Grammar τ β} : Starts (token k >>= h) (· = k) := starts_token rfl

theorem Starts.sup {g h : Grammar τ α} {F : κ → Prop} (hg : Starts g F) (hh : Starts h F) : Starts (g ⊔ h) F :=
  fun u o hu => hu.elim (hg u o) (hh u o)

theorem Starts.bind {g : Grammar τ α} {h : α → Grammar τ β} {F : κ → Prop} (hg : Starts g F) : Starts (g >>= h) F := by
  intro w o hw
  rcases bind_iff.mp hw with ⟨u, v, a, rfl, hu, -⟩ | ⟨hu, -⟩
  · obtain ⟨t, rest, rfl, ht⟩ := hg u _ hu
    exact ⟨t, rest ++ v, rfl, ht⟩
  · exact hg w _ hu

/-- A number that is written but not one. -/
def Refused (value : τ → Option ν) (t : τ) : Prop := Alphabet.kind t = Alphabet.number τ ∧ value t = none

/-- What may stand behind a word: a token of these kinds, or where it ends at a number one that is refused. -/
def Follows (value : τ → Option ν) (F : κ → Prop) : Option α → List τ → Prop
  | some _, rest => Before F rest
  | none, rest => ∃ t rest', rest = t :: rest' ∧ Refused value t

/-- A word, with what may stand behind it, begins with one of these kinds. -/
def Heads (value : τ → Option ν) (g : Grammar τ α) (G F : κ → Prop) : Prop :=
  ∀ u o rest, g u o → Follows value G o rest → Before F (u ++ rest)

variable {value : τ → Option ν} {F G : κ → Prop}

theorem Starts.heads {g : Grammar τ α} (h : Starts g F) : Heads value g G F := by
  intro u o rest hu _
  obtain ⟨t, u', rfl, ht⟩ := h u o hu
  exact ⟨t, u' ++ rest, rfl, ht⟩

theorem heads_token {k : κ} {h : τ → Grammar τ β} (hk : F k) : Heads value (token k >>= h) G F := (starts_token hk).heads

theorem heads_this {k : κ} {h : τ → Grammar τ β} : Heads value (token k >>= h) G (· = k) := starts_this.heads

theorem heads_pure {a : α} (h : ∀ k, G k → F k) : Heads value (pure a : Grammar τ α) G F := by
  intro u o rest hu hr
  obtain ⟨rfl, rfl⟩ := pure_iff.mp hu
  exact Before.mono hr h

theorem heads_when {c : Bool} {a : α} (h : ∀ k, G k → F k) : Heads value (when c a : Grammar τ α) G F := by
  intro u o rest hu hr
  obtain ⟨-, rfl, rfl⟩ := when_iff.mp hu
  exact Before.mono hr h

theorem heads_number {h : τ × ν → Grammar τ β} (hF : F (Alphabet.number τ)) : Heads value (number value >>= h) G F := by
  intro w o rest hw hr
  rcases bind_iff.mp hw with ⟨u, v, a, rfl, hu, -⟩ | ⟨hu, rfl⟩
  · cases hu with
    | read hk _ => exact ⟨_, _, rfl, hk ▸ hF⟩
  · cases hu with
    | asked =>
      obtain ⟨t, rest', rfl, ht, -⟩ := hr
      exact ⟨t, rest', rfl, ht ▸ hF⟩

theorem Heads.sup {g h : Grammar τ α} (hg : Heads value g G F) (hh : Heads value h G F) : Heads value (g ⊔ h) G F :=
  fun u o rest hu hr => hu.elim (fun hu => hg u o rest hu hr) (fun hu => hh u o rest hu hr)

theorem Heads.bind {g : Grammar τ α} {h : α → Grammar τ β} {F' : κ → Prop} (hg : Heads value g F F')
    (hh : ∀ a, Heads value (h a) G F) : Heads value (g >>= h) G F' := by
  intro w o rest hw hr
  rcases bind_iff.mp hw with ⟨u, v, a, rfl, hu, hv⟩ | ⟨hu, rfl⟩
  · rw [List.append_assoc]
    exact hg u (some a) (v ++ rest) hu (hh a v o rest hv hr)
  · exact hg w none rest hu hr

theorem Heads.optional {k : κ} {g : Grammar τ α} {d : α} {h : α → Grammar τ β} (hk : F k) (hh : Heads value (h d) G F) :
    Heads value (optional k g d >>= h) G F := by
  intro w o rest hw hr
  rcases bind_iff.mp hw with ⟨u, v, a, rfl, hu | hu, hv⟩ | ⟨hu | hu, -⟩
  · obtain ⟨t, u', rfl, ht⟩ := starts_token hk u _ hu
    exact ⟨t, u' ++ v ++ rest, rfl, ht⟩
  · obtain ⟨rfl, ha⟩ := pure_iff.mp hu
    cases ha
    exact hh v o rest hv hr
  · obtain ⟨t, u', rfl, ht⟩ := starts_token hk w _ hu
    exact ⟨t, u' ++ rest, rfl, ht⟩
  · cases (pure_iff.mp hu).2

/-- The words of a repetition begin as those of its step do, or there are none. -/
theorem heads_star {g : σ → Grammar τ σ} {s : σ} (hg : ∀ s, Starts (g s) F) (hG : ∀ k, G k → F k) :
    Heads value (star g s) G F := by
  intro u o rest hu hr
  cases hu with
  | done => exact Before.mono hr hG
  | @more _ _ u v _ hs _ =>
    obtain ⟨t, u', rfl, ht⟩ := hg _ _ _ hs
    exact ⟨t, u' ++ v ++ rest, rfl, ht⟩
  | asked hs => exact (hg _).heads u none rest hs hr

end Alphabet

end Grammar

end OwnNet.Parsing
