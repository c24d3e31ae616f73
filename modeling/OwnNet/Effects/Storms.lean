/-
  OwnNet.Effects.Storms — effect storms: the effects that do IO and depend on a binding whose
  identity is fresh on every render.

  The dependencies are judged in order on one lattice, up to the first unstable one. All
  judged before it are not unstable, so nothing they left in the memo stands for an
  instability cut short.

  Proved: `storms_exact`: each IO effect with a dependency that leads to a fresh binding is
  reported once, by its first such dependency with a chain from it; no other is.
-/

import Mathlib.Data.Prod.Lex
import Mathlib.Data.List.ReduceOption
import OwnNet.Dict.Keyed
import OwnNet.Effects.Lattice

namespace OwnNet.Effects

structure Effect where
  component : String
  deps : List String
  io : Bool
  bindings : List Binding
  file : String := "?"
  line : Int := 0

structure EffectStorm where
  component : String
  dep : String
  origin : String
  originKind : String
  file : String
  line : Int
  declLine : Int
  path : List String

/-- The finding of `dep`, from what the lattice holds of it. -/
def Effect.storm (e : Effect) (memo : Memo) (dep : String) : EffectStorm :=
  let origin := ((memo.get? dep).map Verdict.origin).getD dep
  { component := e.component
    dep := dep
    origin := origin
    originKind := ((e.bindings.find? fun b => b.name = origin).map Binding.init).getD "object"
    file := e.file
    line := e.line
    declLine := (Dict.index Binding.name Binding.line e.bindings).getD origin e.line
    path := ((memo.get? dep).map Verdict.path).getD [dep] }

variable (isWord : Char → Bool)

def firstStorm (e : Effect) : List String → Memo → Option (Option EffectStorm)
  | [], _ => some none
  | dep :: deps, memo =>
    match stability isWord e.bindings memo dep with
    | none => none
    | some (s, memo) => if s = .unstable then some (some (e.storm memo dep)) else firstStorm e deps memo

def effectStorms : List Effect → Option (List EffectStorm)
  | [] => some []
  | e :: effects =>
    if e.io then
      match firstStorm isWord e e.deps Dict.empty, effectStorms effects with
      | some found, some storms => some (found.toList ++ storms)
      | _, _ => none
    else effectStorms effects

def EffectStorm.key (f : EffectStorm) : String ×ₗ Int ×ₗ String := toLex (f.file, toLex (f.line, f.dep))

def findEffectStorms (effects : List Effect) : Option (List EffectStorm) :=
  (effectStorms isWord effects).map fun storms => storms.mergeSort fun a b => decide (a.key ≤ b.key)

/-! ## Judging the dependencies -/

variable {isWord} {bindings : List Binding}

/-- What the dependencies that do not storm leave in the memo. -/
structure Calm (isWord : Char → Bool) (bindings : List Binding) (memo : Memo) : Prop where
  sound : Sound isWord bindings memo
  closed : Closed bindings [] memo
  calm : ∀ x w, memo.get? x = some w → w.stab ≠ .unstable

theorem calm_empty : Calm isWord bindings Dict.empty :=
  ⟨sound_empty, fun _ _ _ h => (by cases h), fun x w h => (by cases h)⟩

/-- A chain from a judged name runs through judged names, to its end. -/
theorem chain_judged {memo : Memo} (hc : Closed bindings [] memo) {n : String} {path : List String} {o : Binding}
    (h : Chain bindings n path o) (hk : Known bindings [] memo n) :
    (memo.get? o.name).isSome ∧ o ∈ bindings ∧ o.kind = .fresh := by
  have judged : ∀ b ∈ bindings, Known bindings [] memo b.name → (memo.get? b.name).isSome := by
    intro b hb h
    rcases h with h | h | h
    · exact h
    · exact absurd rfl (h b hb)
    · cases h
  induction h with
  | fresh hb hf => exact ⟨judged _ hb hk, hb, hf⟩
  | step hb hd hr _ ih => exact ih (hc _ hb hd (judged _ hb hk) _ hr)

/-- From a calm memo a query is exact; one that is not unstable leaves it calm. -/
theorem stability_calm (hn : (bindings.map Binding.name).Nodup) {memo : Memo} (hm : Calm isWord bindings memo) (dep : String) :
    ∃ s memo', stability isWord bindings memo dep = some (s, memo') ∧ (s = .unstable ↔ Storms bindings dep) ∧
      (s = .unstable → ∃ v o, memo'.get? dep = some v ∧ Chain bindings dep v.path o ∧ v.origin = o.name) ∧
      (s ≠ .unstable → Calm isWord bindings memo') := by
  obtain ⟨v, memo', hres⟩ := @resolve_total isWord bindings memo dep
  have hrun := resolve_run _ _ _ _ _ _ hres
  obtain ⟨hsound, htell⟩ := run_sound hn hrun hm.sound
  obtain ⟨hclosed, hknown⟩ := run_closed hn hrun hm.closed
  have hknown : Known bindings [] memo' dep := hknown dep List.mem_cons_self
  have hnew : ∀ x w, memo'.get? x = some w → w.stab = .unstable → v.stab = .unstable := by
    intro x w hx hw
    rcases (run_surfaces hrun).1 x w hx hw with hx | hv
    · exact absurd hw (hm.calm x w hx)
    · exact hv
  refine ⟨v.stab, memo', by rw [stability, hres]; rfl, ⟨fun hv => ?_, fun hst => ?_⟩, fun hv => ?_, fun hv => ?_⟩
  · obtain ⟨o, ho, -⟩ := htell.chain hv
    exact ⟨_, o, ho⟩
  · obtain ⟨path, o, ho⟩ := hst
    obtain ⟨hso, hob, hof⟩ := chain_judged hclosed ho hknown
    obtain ⟨w, hw⟩ := Option.isSome_iff_exists.mp hso
    exact hnew _ w hw (hsound.fresh o hob hof w hw)
  · obtain ⟨o, ho, hoo⟩ := htell.chain hv
    refine ⟨v, o, ?_, ho, hoo⟩
    cases hrun with
    | hit h => exact h
    | unbound _ hb =>
      exfalso
      cases ho with
      | fresh h => exact hb _ h rfl
      | step h => exact hb _ h rfl
    | cycle _ h => cases h
    | leaf => exact Dict.get?_set_self _ _ _
    | derived => exact Dict.get?_set_self _ _ _
  · exact ⟨hsound, hclosed, fun x w hx hw => hv (hnew x w hx hw)⟩

/-! ## Each effect -/

/-- `f` is what is to be reported of `e`: its first dependency that storms, with a chain from it. -/
def Reports (e : Effect) (f : EffectStorm) : Prop :=
  ∃ earlier dep later path o, e.deps = earlier ++ dep :: later ∧ (∀ d ∈ earlier, ¬ Storms e.bindings d) ∧
    Chain e.bindings dep path o ∧ f = ⟨e.component, dep, o.name, o.init, e.file, e.line, o.line, path⟩

/-- What is found of `e`: a storm if it does IO and a dependency storms, nothing otherwise. -/
def Judged (e : Effect) : Option EffectStorm → Prop
  | some f => e.io = true ∧ Reports e f
  | none => e.io = true → ∀ d ∈ e.deps, ¬ Storms e.bindings d

theorem chain_origin {n : String} {path : List String} {o : Binding} (h : Chain bindings n path o) : o ∈ bindings := by
  induction h with
  | fresh hb => exact hb
  | step _ _ _ _ ih => exact ih

theorem storm_eq (e : Effect) (hn : (e.bindings.map Binding.name).Nodup) {memo : Memo} {dep : String} {v : Verdict} {o : Binding}
    (hv : memo.get? dep = some v) (ho : o ∈ e.bindings) (hoo : v.origin = o.name) :
    e.storm memo dep = ⟨e.component, dep, o.name, o.init, e.file, e.line, o.line, v.path⟩ := by
  have hfind : e.bindings.find? (fun b => b.name = o.name) = some o := Dict.find_key_of_mem hn ho
  have hline : (Dict.index Binding.name Binding.line e.bindings).getD o.name e.line = o.line := by
    unfold Dict.getD
    rw [Dict.index_some hn ho]
    rfl
  simp only [Effect.storm, hv, Option.map_some, Option.getD_some, hoo, hfind, hline]

theorem firstStorm_exact (e : Effect) (hn : (e.bindings.map Binding.name).Nodup) :
    ∀ (deps earlier : List String) (memo : Memo), e.deps = earlier ++ deps → (∀ d ∈ earlier, ¬ Storms e.bindings d) →
      Calm isWord e.bindings memo → ∃ found, firstStorm isWord e deps memo = some found ∧ match found with
        | some f => Reports e f
        | none => ∀ d ∈ e.deps, ¬ Storms e.bindings d := by
  intro deps
  induction deps with
  | nil =>
    intro earlier memo he hcalm _
    exact ⟨none, rfl, by rw [he, List.append_nil]; exact hcalm⟩
  | cons dep deps ih =>
    intro earlier memo he hearlier hm
    obtain ⟨s, memo', hs, hst, hchain, hcalm⟩ := stability_calm hn hm dep
    unfold firstStorm
    rw [hs]
    dsimp only
    by_cases hu : s = .unstable
    · rw [if_pos hu]
      obtain ⟨v, o, hv, ho, hoo⟩ := hchain hu
      exact ⟨_, rfl, earlier, dep, deps, v.path, o, he, hearlier, ho, storm_eq e hn hv (chain_origin ho) hoo⟩
    · rw [if_neg hu]
      refine ih (earlier ++ [dep]) memo' (by rw [he]; simp) (fun d hd => ?_) (hcalm hu)
      rcases List.mem_append.mp hd with hd | hd
      · exact hearlier d hd
      · rw [List.mem_singleton.mp hd]
        exact fun h => hu (hst.mpr h)

theorem effectStorms_exact {effects : List Effect} (hn : ∀ e ∈ effects, (e.bindings.map Binding.name).Nodup) :
    ∃ verdicts, effectStorms isWord effects = some verdicts.reduceOption ∧ List.Forall₂ Judged effects verdicts := by
  induction effects with
  | nil => exact ⟨[], rfl, .nil⟩
  | cons e effects ih =>
    obtain ⟨verdicts, hrest, hall⟩ := ih fun d hd => hn d (List.mem_cons_of_mem _ hd)
    unfold effectStorms
    by_cases hio : e.io = true
    · obtain ⟨found, hf, hj⟩ := @firstStorm_exact isWord e (hn e List.mem_cons_self) e.deps [] Dict.empty rfl
        (fun d hd => absurd hd List.not_mem_nil) calm_empty
      refine ⟨found :: verdicts, ?_, .cons ?_ hall⟩
      · rw [if_pos hio, hf, hrest]
        cases found <;> simp
      · cases found with
        | none => exact fun _ => hj
        | some f => exact ⟨hio, hj⟩
    · refine ⟨none :: verdicts, ?_, .cons (fun h => absurd h hio) hall⟩
      rw [if_neg hio, hrest]
      simp

/-- The storms, in the order of their place: those of the effects, one for each that storms. -/
theorem storms_exact (isWord : Char → Bool) (effects : List Effect)
    (hn : ∀ e ∈ effects, (e.bindings.map Binding.name).Nodup) :
    ∃ verdicts, List.Forall₂ Judged effects verdicts ∧ findEffectStorms isWord effects =
      some (verdicts.reduceOption.mergeSort fun a b => decide (a.key ≤ b.key)) := by
  obtain ⟨verdicts, hrun, hall⟩ := @effectStorms_exact isWord _ hn
  exact ⟨verdicts, hall, by rw [findEffectStorms, hrun]; rfl⟩

namespace Example

def wordChar (c : Char) : Bool := c.isAlphanum || c = '_'

/-- A cycle of two bindings, one of which also takes a literal. -/
def page : Effect :=
  { component := "Page"
    deps := ["id", "a"]
    io := true
    bindings := [{ name := "a", init := "ident", refs := ["b", "o"] }, { name := "b", init := "ident", refs := ["a"] },
      { name := "o", init := "object", line := 3 }] }

end Example

theorem storms_exact_page : ∃ verdicts, List.Forall₂ Judged [Example.page] verdicts ∧
    findEffectStorms Example.wordChar [Example.page] =
      some (verdicts.reduceOption.mergeSort fun a b => decide (a.key ≤ b.key)) :=
  storms_exact Example.wordChar [Example.page] fun e he => by
    rw [List.mem_singleton.mp he]
    decide

end OwnNet.Effects
