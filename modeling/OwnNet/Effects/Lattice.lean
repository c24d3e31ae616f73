/-
  OwnNet.Effects.Lattice — the stability of render-scope bindings: what a binding's
  initialiser is, the memo of the names already judged, and the search that judges a name
  over the references of the derived bindings, a name it is inside of counting as unknown.

  A call of the search is described by `Run`, one rule for each way through the code; the
  facts about calls are inductions over it.

  Proved: `resolve_total`: the search returns; `resolve_run`: as `Run` says. What a call
  leaves: `run_keeps`, `run_adds`, `run_closed`, `run_sound`, `run_surfaces`.
-/

import Mathlib.Data.String.Basic
import OwnNet.Dict.Index

namespace OwnNet.Effects

/-! ## Bindings -/

inductive Stability
  | stable | unknown | unstable
  deriving DecidableEq

def Stability.rank : Stability → Nat
  | .stable => 0
  | .unknown => 1
  | .unstable => 2

/-- The worse of two, `a` if they are alike. -/
def Stability.join (a b : Stability) : Stability := if b.rank ≤ a.rank then a else b

structure Binding where
  name : String
  init : String
  refs : List String := []
  line : Int := 0

def fresh : List String := ["object", "array", "new"]
def memoised : List String := ["memo", "callback", "ref"]
def referential : List String := ["prop", "state", "primitive", "import", "fn", "param"]
def derived : List String := ["ident", "spread", "ternary", "derive"]

inductive Kind
  | fresh | held | derived | call
  deriving DecidableEq

/-- What the initialiser is; one of no known kind is an opaque call. -/
def Binding.kind (b : Binding) : Kind :=
  if b.init ∈ Effects.fresh then .fresh
  else if b.init ∈ memoised ∨ b.init ∈ referential then .held
  else if b.init ∈ Effects.derived then .derived
  else .call

/-! ## Names without a binding -/

section Ident

-- Python's `\w`
variable (isWord : Char → Bool)

def identStart (c : Char) : Bool := c.isAlpha || c = '_' || c = '$'

/-- The rest of a member chain; the pattern's `$` also matches before a last newline. -/
def identRest : List Char → Bool
  | [] => true
  | ['\n'] => true
  | '.' :: c :: cs => identStart c && identRest cs
  | c :: cs => (isWord c || c = '$') && identRest cs

/-- `_IDENT`. -/
def isIdent (name : String) : Bool :=
  match name.toList with
  | [] => false
  | c :: cs => identStart c && identRest isWord cs

end Ident

/-! ## The search -/

/-- What is known of a name: its stability, the binding it comes from and the references in between. -/
structure Verdict where
  stab : Stability
  origin : String
  path : List String

abbrev Memo := Dict String Verdict

def byName (bindings : List Binding) : Dict String Binding := Dict.index Binding.name id bindings

def Verdict.own (s : Stability) (name : String) : Verdict := ⟨s, name, [name]⟩

/-- `v` if it is strictly worse, seen from `name`. -/
def Verdict.worse (name : String) (worst v : Verdict) : Verdict :=
  if worst.stab.rank < v.stab.rank then ⟨v.stab, v.origin, name :: v.path⟩ else worst

def worstOf (resolve : Memo → String → Option (Verdict × Memo)) (name : String) :
    Verdict → List String → Memo → Option (Verdict × Memo)
  | worst, [], memo => some (worst, memo)
  | worst, r :: refs, memo =>
    match resolve memo r with
    | none => none
    | some (v, memo) => worstOf resolve name (worst.worse name v) refs memo

def classify (resolve : Memo → String → Option (Verdict × Memo)) (b : Binding) (memo : Memo) :
    Option (Verdict × Memo) :=
  match b.kind with
  | .fresh => some (.own .unstable b.name, memo)
  | .held => some (.own .stable b.name, memo)
  | .derived => if b.refs = [] then some (.own .unknown b.name, memo)
      else worstOf resolve b.name (.own .stable b.name) b.refs memo
  | .call => some (.own .unknown b.name, memo)

def unbound (isWord : Char → Bool) (name : String) : Verdict := .own (if isIdent isWord name then .stable else .unknown) name

variable (isWord : Char → Bool)

/-- `_resolve`; nothing when the fuel, the calls it may nest, runs out. -/
def resolve (reg : Dict String Binding) : Nat → List String → Memo → String → Option (Verdict × Memo)
  | 0, _, _, _ => none
  | fuel + 1, onStack, memo, name =>
    match memo.get? name with
    | some v => some (v, memo)
    | none =>
      match reg.get? name with
      | none => some (unbound isWord name, memo)
      | some b =>
        if name ∈ onStack then some (.own .unknown name, memo)
        else (classify (resolve reg fuel (name :: onStack)) b memo).map fun r => (r.1, r.2.set name r.1)

/-- A query of the lattice of `bindings`, from what earlier ones left in the memo. -/
def stability (bindings : List Binding) (memo : Memo) (name : String) : Option (Stability × Memo) :=
  (resolve isWord (byName bindings) (bindings.length + 1) [] memo name).map fun r => (r.1.stab, r.2)

/-! ## What it is about -/

variable (bindings : List Binding)

/-- References of derived bindings from a name to a binding of fresh identity, with the names passed. -/
inductive Chain : String → List String → Binding → Prop
  | fresh {b : Binding} : b ∈ bindings → b.kind = .fresh → Chain b.name [b.name] b
  | step {b : Binding} {r : String} {path : List String} {origin : Binding} : b ∈ bindings → b.kind = .derived →
      r ∈ b.refs → Chain r path origin → Chain b.name (b.name :: path) origin

def Storms (name : String) : Prop := ∃ path origin, Chain bindings name path origin

/-- Stable by what all its references are. -/
inductive Steady : String → Prop
  | plain {name : String} : (∀ b ∈ bindings, b.name ≠ name) → isIdent isWord name = true → Steady name
  | held {b : Binding} : b ∈ bindings → b.kind = .held → Steady b.name
  | derived {b : Binding} : b ∈ bindings → b.kind = .derived → b.refs ≠ [] → (∀ r ∈ b.refs, Steady r) → Steady b.name

/-- References of derived bindings from a name to another, none of the names passed in `avoid`. -/
inductive Reaches (avoid : List String) : String → String → Prop
  | here {name : String} : name ∉ avoid → Reaches avoid name name
  | step {b : Binding} {r name : String} : b ∈ bindings → b.kind = .derived → b.name ∉ avoid → r ∈ b.refs →
      Reaches avoid r name → Reaches avoid b.name name

/-! ## The calls -/

/-- A name to be judged, or the references of `name` still to be joined. -/
inductive Call
  | one (name : String)
  | refs (name : String) (worst : Verdict) (rest : List String)

def Call.targets : Call → List String
  | .one name => [name]
  | .refs _ _ rest => rest

inductive Run : List String → Memo → Call → Verdict → Memo → Prop
  | hit {S : List String} {memo : Memo} {n : String} {v : Verdict} : memo.get? n = some v → Run S memo (.one n) v memo
  | unbound {S : List String} {memo : Memo} {n : String} : memo.get? n = none → (∀ b ∈ bindings, b.name ≠ n) →
      Run S memo (.one n) (unbound isWord n) memo
  | cycle {S : List String} {memo : Memo} {n : String} : memo.get? n = none → n ∈ S → Run S memo (.one n) (.own .unknown n) memo
  | leaf {S : List String} {memo : Memo} {b : Binding} {s : Stability} : memo.get? b.name = none → b ∈ bindings → b.name ∉ S →
      (b.kind = .fresh ∧ s = .unstable) ∨ (b.kind = .held ∧ s = .stable) ∨
        ((b.kind = .call ∨ (b.kind = .derived ∧ b.refs = [])) ∧ s = .unknown) →
      Run S memo (.one b.name) (.own s b.name) (memo.set b.name (.own s b.name))
  | derived {S : List String} {memo memo' : Memo} {b : Binding} {v : Verdict} : memo.get? b.name = none → b ∈ bindings →
      b.name ∉ S → b.kind = .derived → b.refs ≠ [] →
      Run (b.name :: S) memo (.refs b.name (.own .stable b.name) b.refs) v memo' →
      Run S memo (.one b.name) v (memo'.set b.name v)
  | done {S : List String} {memo : Memo} {n : String} {w : Verdict} : Run S memo (.refs n w []) w memo
  | next {S : List String} {memo memo₁ memo₂ : Memo} {n r : String} {rest : List String} {w v out : Verdict} :
      Run S memo (.one r) v memo₁ → Run S memo₁ (.refs n (w.worse n v) rest) out memo₂ →
      Run S memo (.refs n w (r :: rest)) out memo₂

variable {isWord bindings}

theorem worstOf_run {S : List String} {resolve : Memo → String → Option (Verdict × Memo)} {n : String}
    (h : ∀ memo r v memo', resolve memo r = some (v, memo') → Run isWord bindings S memo (.one r) v memo') :
    ∀ (refs : List String) (w : Verdict) (memo : Memo) (v : Verdict) (memo' : Memo),
      worstOf resolve n w refs memo = some (v, memo') → Run isWord bindings S memo (.refs n w refs) v memo' := by
  intro refs
  induction refs with
  | nil =>
    intro w memo v memo' hrun
    cases hrun
    exact .done
  | cons r rest ih =>
    intro w memo v memo' hrun
    unfold worstOf at hrun
    cases hr : resolve memo r with
    | none =>
      rw [hr] at hrun
      cases hrun
    | some out =>
      rw [hr] at hrun
      exact .next (h memo r _ _ hr) (ih _ _ _ _ hrun)

theorem resolve_run : ∀ (fuel : Nat) (S : List String) (memo : Memo) (n : String) (v : Verdict) (memo' : Memo),
    resolve isWord (byName bindings) fuel S memo n = some (v, memo') → Run isWord bindings S memo (.one n) v memo' := by
  intro fuel
  induction fuel with
  | zero =>
    intro S memo n v memo' h
    cases h
  | succ fuel ih =>
    intro S memo n v memo' h
    unfold resolve at h
    cases hm : memo.get? n with
    | some w =>
      rw [hm] at h
      cases h
      exact .hit hm
    | none =>
      rw [hm] at h
      dsimp only at h
      cases hb : (byName bindings).get? n with
      | none =>
        rw [hb] at h
        cases h
        refine .unbound hm fun b hbm e => ?_
        have hsome := @Dict.index_isSome _ _ _ _ Binding.name id _ _ hbm
        rw [e] at hsome
        rw [show Dict.index Binding.name id bindings = byName bindings from rfl, hb] at hsome
        cases hsome
      | some b =>
        rw [hb] at h
        dsimp only at h
        obtain ⟨b, hbm, rfl, rfl⟩ := Dict.index_mem hb
        rw [show (id b : Binding) = b from rfl] at h
        by_cases hS : b.name ∈ S
        · rw [if_pos hS] at h
          cases h
          exact .cycle hm hS
        · rw [if_neg hS] at h
          unfold classify at h
          split at h
          next hk =>
            cases h
            exact .leaf hm hbm hS (Or.inl ⟨hk, rfl⟩)
          next hk =>
            cases h
            exact .leaf hm hbm hS (Or.inr (Or.inl ⟨hk, rfl⟩))
          next hk =>
            by_cases hr : b.refs = []
            · rw [if_pos hr] at h
              cases h
              exact .leaf hm hbm hS (Or.inr (Or.inr ⟨Or.inr ⟨hk, hr⟩, rfl⟩))
            · rw [if_neg hr] at h
              obtain ⟨r, hrun, he⟩ := Option.map_eq_some_iff.mp h
              cases he
              exact .derived hm hbm hS hk hr (worstOf_run (fun m r v m' => ih _ m r v m') _ _ _ _ _ hrun)
          next hk =>
            cases h
            exact .leaf hm hbm hS (Or.inr (Or.inr ⟨Or.inl hk, rfl⟩))

/-! ## It returns -/

theorem worstOf_total {resolve : Memo → String → Option (Verdict × Memo)} {n : String}
    (h : ∀ memo r, (resolve memo r).isSome) : ∀ (refs : List String) (w : Verdict) (memo : Memo),
      (worstOf resolve n w refs memo).isSome := by
  intro refs
  induction refs with
  | nil => exact fun w memo => rfl
  | cons r rest ih =>
    intro w memo
    unfold worstOf
    obtain ⟨out, hr⟩ := Option.isSome_iff_exists.mp (h memo r)
    rw [hr]
    exact ih _ _

/-- The names a call may still enter. -/
def unopened (bindings : List Binding) (S : List String) : Nat := (bindings.filter fun b => b.name ∉ S).length

theorem unopened_lt {b : Binding} (hb : b ∈ bindings) {S : List String} (hS : b.name ∉ S) :
    unopened bindings (b.name :: S) < unopened bindings S := by
  have hsub : (bindings.filter fun c => c.name ∉ b.name :: S) = (bindings.filter fun c =>
      c.name ∉ S).filter fun c => c.name ≠ b.name := by
    rw [List.filter_filter]
    exact List.filter_congr fun c _ => by simp [not_or]
  unfold unopened
  rw [hsub]
  exact List.length_filter_lt_length_iff_exists.mpr ⟨b, List.mem_filter.mpr ⟨hb, by simpa using hS⟩, by simp⟩

/-- One more call than there are names to enter is enough. -/
theorem resolve_isSome : ∀ (fuel : Nat) (S : List String) (memo : Memo) (n : String), unopened bindings S < fuel →
    (resolve isWord (byName bindings) fuel S memo n).isSome := by
  intro fuel
  induction fuel with
  | zero => intro S memo n h; omega
  | succ fuel ih =>
    intro S memo n h
    unfold resolve
    split
    · rfl
    · split
      · rfl
      next b hb =>
        obtain ⟨c, hc, rfl, rfl⟩ := Dict.index_mem hb
        split
        · rfl
        next hS =>
          have hlt := unopened_lt hc hS
          rw [Option.isSome_map]
          unfold classify
          split
          · rfl
          · rfl
          · split
            · rfl
            · exact worstOf_total (fun memo r => ih _ memo r (by omega)) _ _ _
          · rfl

theorem resolve_total (memo : Memo) (n : String) :
    ∃ v memo', resolve isWord (byName bindings) (bindings.length + 1) [] memo n = some (v, memo') := by
  have h := @resolve_isSome isWord bindings (bindings.length + 1) [] memo n
    (Nat.lt_succ_of_le (List.length_filter_le _ _))
  obtain ⟨⟨v, memo'⟩, hr⟩ := Option.isSome_iff_exists.mp h
  exact ⟨v, memo', hr⟩

/-! ## What a call leaves -/

theorem run_keeps {S : List String} {memo memo' : Memo} {c : Call} {v : Verdict} (h : Run isWord bindings S memo c v memo') :
    ∀ x w, memo.get? x = some w → memo'.get? x = some w := by
  induction h with
  | hit | unbound | cycle | done => exact fun x w hx => hx
  | leaf hm =>
    intro x w hx
    rw [Dict.get?_set_of_ne]
    · exact hx
    · rintro rfl
      rw [hm] at hx
      cases hx
  | derived hm _ _ _ _ _ ih =>
    intro x w hx
    rw [Dict.get?_set_of_ne]
    · exact ih x w hx
    · rintro rfl
      rw [hm] at hx
      cases hx
  | next _ _ ih₁ ih₂ => exact fun x w hx => ih₂ x w (ih₁ x w hx)

theorem Reaches.weaken {avoid avoid' : List String} (hsub : ∀ x ∈ avoid', x ∈ avoid) {a b : String}
    (h : Reaches bindings avoid a b) : Reaches bindings avoid' a b := by
  induction h with
  | here hn => exact .here fun hm => hn (hsub _ hm)
  | step hb hk hn hr _ ih => exact .step hb hk (fun hm => hn (hsub _ hm)) hr ih

theorem Reaches.not_mem {avoid : List String} {a b : String} (h : Reaches bindings avoid a b) : b ∉ avoid := by
  induction h with
  | here hn => exact hn
  | step _ _ _ _ _ ih => exact ih

/-- What a call adds is bound, and reached from its targets outside the names it is inside of. -/
theorem run_adds {S : List String} {memo memo' : Memo} {c : Call} {v : Verdict} (h : Run isWord bindings S memo c v memo') :
    ∀ x w, memo'.get? x = some w →
      memo.get? x = some w ∨ (memo.get? x = none ∧ ∃ a ∈ c.targets, Reaches bindings S a x) := by
  induction h with
  | hit | unbound | cycle | done => exact fun x w hx => Or.inl hx
  | @leaf S memo b s hm hb hS =>
    intro x w hx
    rw [Dict.get?_set] at hx
    by_cases e : x = b.name
    · subst e
      exact Or.inr ⟨hm, _, List.mem_cons_self, .here hS⟩
    · rw [if_neg e] at hx
      exact Or.inl hx
  | @derived S memo memo' b v hm hb hS hk hr _ ih =>
    intro x w hx
    rw [Dict.get?_set] at hx
    by_cases e : x = b.name
    · subst e
      exact Or.inr ⟨hm, _, List.mem_cons_self, .here hS⟩
    · rw [if_neg e] at hx
      rcases ih x w hx with hx | ⟨hn, a, ha, hax⟩
      · exact Or.inl hx
      · exact Or.inr ⟨hn, _, List.mem_cons_self, .step hb hk hS ha (hax.weaken fun y hy => List.mem_cons_of_mem _ hy)⟩
  | @next S memo memo₁ memo₂ n r rest w v out h₁ _ ih₁ ih₂ =>
    intro x w hx
    rcases ih₂ x w hx with hx | ⟨hn, a, ha, hax⟩
    · rcases ih₁ x w hx with hx | ⟨hn, a, ha, hax⟩
      · exact Or.inl hx
      · rw [List.mem_singleton.mp ha] at hax
        exact Or.inr ⟨hn, r, List.mem_cons_self, hax⟩
    · refine Or.inr ⟨?_, a, List.mem_cons_of_mem _ ha, hax⟩
      cases hx₀ : memo.get? x with
      | none => rfl
      | some u =>
        rw [run_keeps h₁ x u hx₀] at hn
        cases hn

/-- The names a call is inside of have no entry. -/
def Apart (S : List String) (memo : Memo) : Prop := ∀ x ∈ S, memo.get? x = none

theorem run_apart {S : List String} {memo memo' : Memo} {c : Call} {v : Verdict} (h : Run isWord bindings S memo c v memo')
    (ha : Apart S memo) : Apart S memo' := by
  intro x hx
  cases hm : memo'.get? x with
  | none => rfl
  | some w =>
    rcases run_adds h x w hm with hw | ⟨-, a, -, hr⟩
    · rw [ha x hx] at hw
      cases hw
    · exact absurd hx hr.not_mem

theorem Apart.cons {S : List String} {memo : Memo} {n : String} (h : Apart S memo) (hn : memo.get? n = none) :
    Apart (n :: S) memo := by
  intro x hx
  rcases List.mem_cons.mp hx with rfl | hx
  · exact hn
  · exact h x hx

/-- Judged, without a binding, or being judged. -/
def Known (bindings : List Binding) (S : List String) (memo : Memo) (n : String) : Prop :=
  (memo.get? n).isSome ∨ (∀ b ∈ bindings, b.name ≠ n) ∨ n ∈ S

/-- The references of what is judged are known. -/
def Closed (bindings : List Binding) (S : List String) (memo : Memo) : Prop :=
  ∀ b ∈ bindings, b.kind = .derived → (memo.get? b.name).isSome → ∀ r ∈ b.refs, Known bindings S memo r

theorem Known.mono {S S' : List String} {memo memo' : Memo} {n : String} (h : Known bindings S memo n)
    (hm : ∀ x, (memo.get? x).isSome → (memo'.get? x).isSome) (hS : ∀ x ∈ S, x ∈ S' ∨ (memo'.get? x).isSome) :
    Known bindings S' memo' n := by
  rcases h with h | h | h
  · exact Or.inl (hm n h)
  · exact Or.inr (Or.inl h)
  · rcases hS n h with h | h
    · exact Or.inr (Or.inr h)
    · exact Or.inl h

theorem run_grows {S : List String} {memo memo' : Memo} {c : Call} {v : Verdict} (h : Run isWord bindings S memo c v memo')
    (x : String) (hx : (memo.get? x).isSome) : (memo'.get? x).isSome := by
  obtain ⟨w, hw⟩ := Option.isSome_iff_exists.mp hx
  rw [run_keeps h x w hw]
  rfl

theorem get?_set_isSome {memo : Memo} {n x : String} {v : Verdict} :
    ((memo.set n v).get? x).isSome ↔ x = n ∨ (memo.get? x).isSome := by
  rw [Dict.get?_set]
  by_cases e : x = n <;> simp [e]

/-- A call leaves the memo closed, and its targets known. -/
theorem run_closed (hn : (bindings.map Binding.name).Nodup) {S : List String} {memo memo' : Memo} {c : Call} {v : Verdict}
    (h : Run isWord bindings S memo c v memo') (hc : Closed bindings S memo) :
    Closed bindings S memo' ∧ ∀ a ∈ c.targets, Known bindings S memo' a := by
  induction h with
  | hit hm =>
    refine ⟨hc, fun a ha => ?_⟩
    rw [List.mem_singleton.mp ha]
    exact Or.inl (by rw [hm]; rfl)
  | unbound _ hb =>
    refine ⟨hc, fun a ha => ?_⟩
    rw [List.mem_singleton.mp ha]
    exact Or.inr (Or.inl hb)
  | cycle _ hS =>
    refine ⟨hc, fun a ha => ?_⟩
    rw [List.mem_singleton.mp ha]
    exact Or.inr (Or.inr hS)
  | @leaf S memo b s hm hb hS hs =>
    refine ⟨fun d hd hk hx r hr => ?_, fun a ha => ?_⟩
    · rcases get?_set_isSome.mp hx with e | hx
      · -- the leaf itself refers to nothing
        have : d = b := List.inj_on_of_nodup_map hn hd hb e
        subst this
        rcases hs with ⟨hf, -⟩ | ⟨hf, -⟩ | ⟨hf | ⟨-, hf⟩, -⟩
        · rw [hf] at hk; cases hk
        · rw [hf] at hk; cases hk
        · rw [hf] at hk; cases hk
        · rw [hf] at hr; cases hr
      · exact (hc d hd hk hx r hr).mono (fun x hx => get?_set_isSome.mpr (Or.inr hx)) fun x hx => Or.inl hx
    · rw [List.mem_singleton.mp ha]
      exact Or.inl (get?_set_isSome.mpr (Or.inl rfl))
  | @derived S memo memo' b v hm hb hS hk _ _ ih =>
    obtain ⟨hc', hrefs⟩ := ih fun d hd hk hx r hr => (hc d hd hk hx r hr).mono (fun x hx => hx) fun x hx =>
      Or.inl (List.mem_cons_of_mem _ hx)
    have hmono : ∀ r, Known bindings (b.name :: S) memo' r → Known bindings S (memo'.set b.name v) r := fun r h =>
      h.mono (fun x hx => get?_set_isSome.mpr (Or.inr hx)) fun x hx => by
        rcases List.mem_cons.mp hx with rfl | hx
        · exact Or.inr (get?_set_isSome.mpr (Or.inl rfl))
        · exact Or.inl hx
    refine ⟨fun d hd hkd hx r hr => ?_, fun a ha => ?_⟩
    · rcases get?_set_isSome.mp hx with e | hx
      · have : d = b := List.inj_on_of_nodup_map hn hd hb e
        subst this
        exact hmono r (hrefs r hr)
      · exact hmono r (hc' d hd hkd hx r hr)
    · rw [List.mem_singleton.mp ha]
      exact Or.inl (get?_set_isSome.mpr (Or.inl rfl))
  | done => exact ⟨hc, fun a ha => absurd ha List.not_mem_nil⟩
  | next _ h₂ ih₁ ih₂ =>
    obtain ⟨hc₁, hr⟩ := ih₁ hc
    obtain ⟨hc₂, hrest⟩ := ih₂ hc₁
    refine ⟨hc₂, fun a ha => ?_⟩
    rcases List.mem_cons.mp ha with rfl | ha
    · exact (hr _ List.mem_cons_self).mono (run_grows h₂) fun x hx => Or.inl hx
    · exact hrest a ha

/-! ## What verdicts say -/

/-- An unstable verdict comes with a chain to its origin, a stable one is of a steady name. -/
structure Tells (isWord : Char → Bool) (bindings : List Binding) (n : String) (v : Verdict) : Prop where
  chain : v.stab = .unstable → ∃ o, Chain bindings n v.path o ∧ v.origin = o.name
  steady : v.stab = .stable → Steady isWord bindings n

/-- The memo's entries tell, and those of fresh bindings are unstable. -/
structure Sound (isWord : Char → Bool) (bindings : List Binding) (memo : Memo) : Prop where
  tells : ∀ x w, memo.get? x = some w → Tells isWord bindings x w
  fresh : ∀ b ∈ bindings, b.kind = .fresh → ∀ w, memo.get? b.name = some w → w.stab = .unstable

theorem sound_empty : Sound isWord bindings Dict.empty :=
  ⟨fun x w h => (by cases h), fun b _ _ w h => (by cases h)⟩

theorem Sound.set {memo : Memo} {b : Binding} {v : Verdict} (hn : (bindings.map Binding.name).Nodup)
    (h : Sound isWord bindings memo) (hb : b ∈ bindings) (hv : Tells isWord bindings b.name v)
    (hf : b.kind = .fresh → v.stab = .unstable) : Sound isWord bindings (memo.set b.name v) := by
  refine ⟨fun x w hx => ?_, fun d hd hk w hx => ?_⟩
  · rw [Dict.get?_set] at hx
    by_cases e : x = b.name
    · rw [if_pos e] at hx
      cases hx
      exact e ▸ hv
    · rw [if_neg e] at hx
      exact h.tells x w hx
  · rw [Dict.get?_set] at hx
    by_cases e : d.name = b.name
    · rw [if_pos e] at hx
      cases hx
      exact hf (List.inj_on_of_nodup_map hn hd hb e ▸ hk)
    · rw [if_neg e] at hx
      exact h.fresh d hd hk w hx

theorem worse_stable {n : String} {w v : Verdict} (h : (w.worse n v).stab = .stable) : w.stab = .stable ∧ v.stab = .stable := by
  unfold Verdict.worse at h
  cases hw : w.stab <;> cases hv : v.stab <;> simp_all [Stability.rank]

/-- The worse of two is unstable by the first, or as the second, seen from `n`. -/
theorem worse_unstable {n : String} {w v : Verdict} (h : (w.worse n v).stab = .unstable) :
    (w.worse n v = w ∧ w.stab = .unstable) ∨ (v.stab = .unstable ∧ w.worse n v = ⟨v.stab, v.origin, n :: v.path⟩) := by
  unfold Verdict.worse at h ⊢
  by_cases e : w.stab.rank < v.stab.rank
  · rw [if_pos e] at h ⊢
    exact Or.inr ⟨h, rfl⟩
  · rw [if_neg e] at h ⊢
    exact Or.inl ⟨rfl, h⟩

theorem worse_of_left {n : String} {w v : Verdict} (h : w.stab = .unstable) : (w.worse n v).stab = .unstable := by
  unfold Verdict.worse
  cases v.stab <;> simp [h, Stability.rank]

theorem worse_of_right {n : String} {w v : Verdict} (h : v.stab = .unstable) : (w.worse n v).stab = .unstable := by
  unfold Verdict.worse
  cases hw : w.stab <;> simp [h, hw, Stability.rank]

/-- What the call says, of the memo left and of the verdict. -/
def Call.Told (isWord : Char → Bool) (bindings : List Binding) (v : Verdict) : Call → Prop
  | .one n => Tells isWord bindings n v
  | .refs n w rest => ∀ b ∈ bindings, b.name = n → b.kind = .derived → (∀ r ∈ rest, r ∈ b.refs) →
      ((w.stab = .unstable → ∃ o, Chain bindings n w.path o ∧ w.origin = o.name) →
        v.stab = .unstable → ∃ o, Chain bindings n v.path o ∧ v.origin = o.name) ∧
      (v.stab = .stable → ∀ r ∈ rest, Steady isWord bindings r)

theorem unbound_tells {n : String} (hb : ∀ b ∈ bindings, b.name ≠ n) : Tells isWord bindings n (unbound isWord n) := by
  unfold unbound Verdict.own
  refine ⟨fun h => ?_, fun h => ?_⟩
  · dsimp only at h
    split at h <;> cases h
  · dsimp only at h
    split at h
    next hi => exact .plain hb hi
    next => cases h

theorem refs_stable {S : List String} {memo memo' : Memo} {c : Call} {v : Verdict} (h : Run isWord bindings S memo c v memo')
    (hv : v.stab = .stable) : ∀ n w rest, c = .refs n w rest → w.stab = .stable := by
  induction h with
  | hit | unbound | cycle | leaf | derived => intro n w rest e; cases e
  | done =>
    intro n w rest e
    cases e
    exact hv
  | next _ _ _ ih₂ =>
    intro n w rest e
    cases e
    exact (worse_stable (ih₂ hv _ _ _ rfl)).1

/-- A call from a sound memo leaves a sound one, and its verdict tells. -/
theorem run_sound (hn : (bindings.map Binding.name).Nodup) {S : List String} {memo memo' : Memo} {c : Call} {v : Verdict}
    (h : Run isWord bindings S memo c v memo') (hs : Sound isWord bindings memo) :
    Sound isWord bindings memo' ∧ c.Told isWord bindings v := by
  induction h with
  | hit hm => exact ⟨hs, hs.tells _ _ hm⟩
  | unbound _ hb => exact ⟨hs, unbound_tells hb⟩
  | cycle _ _ => exact ⟨hs, (fun h => nomatch h), (fun h => nomatch h)⟩
  | @leaf S memo b s hm hb hS hl =>
    have htells : Tells isWord bindings b.name (.own s b.name) := by
      refine ⟨fun h => ?_, fun h => ?_⟩
      · have h : s = .unstable := h
        rcases hl with ⟨hk, -⟩ | ⟨-, e⟩ | ⟨-, e⟩
        · exact ⟨b, .fresh hb hk, rfl⟩
        · rw [e] at h; cases h
        · rw [e] at h; cases h
      · have h : s = .stable := h
        rcases hl with ⟨-, e⟩ | ⟨hk, -⟩ | ⟨-, e⟩
        · rw [e] at h; cases h
        · exact .held hb hk
        · rw [e] at h; cases h
    refine ⟨hs.set hn hb htells fun hf => ?_, htells⟩
    rcases hl with ⟨-, e⟩ | ⟨hk, -⟩ | ⟨hk | ⟨hk, -⟩, -⟩
    · exact e
    · rw [hk] at hf; cases hf
    · rw [hk] at hf; cases hf
    · rw [hk] at hf; cases hf
  | @derived S memo memo' b v hm hb hS hk hr _ ih =>
    obtain ⟨hs', htold⟩ := ih hs
    obtain ⟨hchain, hsteady⟩ := htold b hb rfl hk fun r hr => hr
    have htells : Tells isWord bindings b.name v :=
      ⟨hchain fun h => (by cases h), fun h => .derived hb hk hr (hsteady h)⟩
    exact ⟨hs'.set hn hb htells fun hf => by (rw [hk] at hf; cases hf), htells⟩
  | done => exact ⟨hs, fun b _ _ _ _ => ⟨fun h => h, fun _ r hr => absurd hr List.not_mem_nil⟩⟩
  | @next S memo memo₁ memo₂ n r rest w v out _ h₂ ih₁ ih₂ =>
    obtain ⟨hs₁, htell⟩ := ih₁ hs
    obtain ⟨hs₂, htold⟩ := ih₂ hs₁
    refine ⟨hs₂, fun b hb hbn hk hsub => ?_⟩
    obtain ⟨hchain, hsteady⟩ := htold b hb hbn hk fun r hr => hsub r (List.mem_cons_of_mem _ hr)
    refine ⟨fun hw => hchain fun h => ?_, fun hout x hx => ?_⟩
    · rcases worse_unstable h with ⟨e, hwu⟩ | ⟨hv, e⟩
      · rw [e]
        exact hw hwu
      · obtain ⟨o, ho, hoo⟩ := htell.chain hv
        rw [e]
        exact ⟨o, hbn ▸ .step hb hk (hsub r List.mem_cons_self) ho, hoo⟩
    · rcases List.mem_cons.mp hx with rfl | hx
      · exact htell.steady (worse_stable (refs_stable h₂ hout _ _ _ rfl)).2
      · exact hsteady hout x hx

/-- What a call adds unstable shows in its verdict. -/
theorem run_surfaces {S : List String} {memo memo' : Memo} {c : Call} {v : Verdict} (h : Run isWord bindings S memo c v memo') :
    (∀ x w, memo'.get? x = some w → w.stab = .unstable → memo.get? x = some w ∨ v.stab = .unstable) ∧
      ∀ n w rest, c = .refs n w rest → w.stab = .unstable → v.stab = .unstable := by
  induction h with
  | hit | unbound | cycle => exact ⟨fun x w hx _ => Or.inl hx, fun n w rest e => by cases e⟩
  | @leaf S memo b s =>
    refine ⟨fun x w hx hw => ?_, fun n w rest e => by cases e⟩
    rw [Dict.get?_set] at hx
    split at hx
    · cases hx
      exact Or.inr hw
    · exact Or.inl hx
  | derived _ _ _ _ _ _ ih =>
    refine ⟨fun x w hx hw => ?_, fun n w rest e => by cases e⟩
    rw [Dict.get?_set] at hx
    split at hx
    · cases hx
      exact Or.inr hw
    · exact ih.1 x w hx hw
  | done =>
    refine ⟨fun x w hx _ => Or.inl hx, fun n w rest e hw => ?_⟩
    cases e
    exact hw
  | next _ _ ih₁ ih₂ =>
    refine ⟨fun x w hx hw => ?_, fun n w rest e hw => ?_⟩
    · rcases ih₂.1 x w hx hw with hx | hv
      · rcases ih₁.1 x w hx hw with hx | hv
        · exact Or.inl hx
        · exact Or.inr (ih₂.2 _ _ _ rfl (worse_of_right hv))
      · exact Or.inr hv
    · cases e
      exact ih₂.2 _ _ _ rfl (worse_of_left hw)

end OwnNet.Effects
