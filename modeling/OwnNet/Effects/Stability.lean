/-
  OwnNet.Effects.Stability — when the values of the lattice do not depend on what was asked
  before.

  A name judged while the search is inside of another counts that other as unknown, and
  what comes of it stays in the memo. A derived binding that leads to a fresh one is then
  kept as unknown exactly if each of its references that do so was being judged: which of
  them are is decided by the references in declared order (`Descends`).

  Proved: `wellDefined_iff`: the values are the same after every history, and satisfy the
  derivation equation, exactly if no such binding is met so.
-/

import Mathlib.Logic.Relation
import OwnNet.Effects.Storms

namespace OwnNet.Effects

variable (isWord : Char → Bool) (bindings : List Binding)

/-! ## Histories -/

/-- The memo after queries for each of some names. -/
def queries : List String → Memo → Option Memo
  | [], memo => some memo
  | n :: ns, memo =>
    match stability isWord bindings memo n with
    | none => none
    | some (_, memo) => queries ns memo

/-- The value of `name` on a lattice asked for `history` before. -/
def stabilityAfter (history : List String) (name : String) : Option Stability :=
  match queries isWord bindings history Dict.empty with
  | none => none
  | some memo => (stability isWord bindings memo name).map Prod.fst

/-- Every history gives the same values, and those of the derived bindings are the worst of their references'. -/
def WellDefined : Prop :=
  ∃ val : String → Stability,
    (∀ history name, stabilityAfter isWord bindings history name = some (val name)) ∧
    ∀ b ∈ bindings, b.kind = .derived → b.refs ≠ [] → val b.name = (b.refs.map val).foldl Stability.join .stable

/-! ## Descents -/

/-- `Descends target S n`: going down references in declared order, from some binding, to reach `target`, `n` is
    come to inside of `S` (innermost first): no reference declared before one that was taken leads to `target` around
    the bindings gone through. -/
inductive Descends (target : String) : List String → String → Prop
  | start {n : String} : Descends target [] n
  | into {S : List String} {b : Binding} {done rest : List String} {r : String} : Descends target S b.name → b ∈ bindings →
      b.kind = .derived → b.refs = done ++ r :: rest → (∀ d ∈ done, ¬ Reaches bindings (b.name :: S) d target) →
      r ∉ b.name :: S → Descends target (b.name :: S) r

/-- A derived binding that storms, come to inside of every reference of its own that does. -/
def Clash : Prop :=
  ∃ S, ∃ b ∈ bindings, Descends bindings b.name S b.name ∧ b.kind = .derived ∧ Storms bindings b.name ∧
    ∀ r ∈ b.refs, Storms bindings r → r ∈ b.name :: S

variable {isWord bindings}

theorem closed_reach {S : List String} {memo : Memo} (hc : Closed bindings S memo) {a : String} {t : Binding}
    (ht : t ∈ bindings) (h : Reaches bindings S a t.name) (hk : Known bindings S memo a) : (memo.get? t.name).isSome := by
  generalize hx : t.name = x at h
  induction h with
  | here hn =>
    rcases hk with hk | hk | hk
    · exact hk
    · exact absurd hx (hk t ht)
    · exact absurd hk hn
  | step hb hd hn hr _ ih =>
    rcases hk with hk | hk | hk
    · exact ih (hc _ hb hd hk _ hr) hx
    · exact absurd rfl (hk _ hb)
    · exact absurd hk hn

/-! ## Steady names -/

/-- `a` is bound to a derivation that refers to `c`. -/
def Refers (bindings : List Binding) (a c : String) : Prop := ∃ b ∈ bindings, b.name = a ∧ b.kind = .derived ∧ c ∈ b.refs

section

variable (hn : (bindings.map Binding.name).Nodup)

include hn

theorem steady_derived {b : Binding} (hb : b ∈ bindings) (hk : b.kind = .derived) (hne : b.refs ≠ []) :
    Steady isWord bindings b.name ↔ ∀ r ∈ b.refs, Steady isWord bindings r := by
  refine ⟨fun h => ?_, fun h => .derived hb hk hne h⟩
  generalize hx : b.name = x at h
  cases h with
  | plain hno => exact absurd hx (hno b hb)
  | held hd hh =>
    rw [List.inj_on_of_nodup_map hn hb hd hx, hh] at hk
    cases hk
  | derived hd _ _ hall => exact List.inj_on_of_nodup_map hn hb hd hx ▸ hall

/-- References never lead from a steady name back to it. -/
theorem steady_acyclic {n : String} (h : Steady isWord bindings n) : ¬ Relation.TransGen (Refers bindings) n n := by
  induction h with
  | plain hno =>
    intro h
    obtain ⟨c, ⟨b, hb, hbn, -⟩, -⟩ := Relation.TransGen.head'_iff.mp h
    exact hno b hb hbn
  | held hb hk =>
    intro h
    obtain ⟨c, ⟨d, hd, hdn, hdk, -⟩, -⟩ := Relation.TransGen.head'_iff.mp h
    rw [List.inj_on_of_nodup_map hn hd hb hdn, hk] at hdk
    cases hdk
  | derived hb hk _ _ ih =>
    intro h
    obtain ⟨c, ⟨d, hd, hdn, hdk, hc⟩, hback⟩ := Relation.TransGen.head'_iff.mp h
    have := List.inj_on_of_nodup_map hn hd hb hdn
    subst this
    exact ih c hc (Relation.TransGen.tail' hback ⟨d, hd, rfl, hdk, hc⟩)

theorem steady_not_storms {n : String} (h : Steady isWord bindings n) : ¬ Storms bindings n := by
  rintro ⟨path, o, hc⟩
  induction hc with
  | fresh hb hf =>
    generalize hx : Binding.name _ = x at h
    cases h with
    | plain hno => exact hno _ hb hx
    | held hd hk => rw [List.inj_on_of_nodup_map hn hb hd hx, hk] at hf; cases hf
    | derived hd hk => rw [List.inj_on_of_nodup_map hn hb hd hx, hk] at hf; cases hf
  | step hb hk hr _ ih => exact ih ((steady_derived hn hb hk (List.ne_nil_of_mem hr)).mp h _ hr)

theorem storms_derived {b : Binding} (hb : b ∈ bindings) (hk : b.kind = .derived) :
    Storms bindings b.name ↔ ∃ r ∈ b.refs, Storms bindings r := by
  constructor
  · rintro ⟨path, o, h⟩
    generalize hx : b.name = x at h
    cases h with
    | fresh hd hf => rw [List.inj_on_of_nodup_map hn hb hd hx, hf] at hk; cases hk
    | step hd _ hr hc => exact ⟨_, List.inj_on_of_nodup_map hn hb hd hx ▸ hr, _, _, hc⟩
  · rintro ⟨r, hr, path, o, h⟩
    exact ⟨_, o, .step hb hk hr h⟩

omit hn in
theorem steady_unbound {n : String} (hb : ∀ b ∈ bindings, b.name ≠ n) (h : Steady isWord bindings n) :
    isIdent isWord n = true := by
  cases h with
  | plain _ hi => exact hi
  | held hd => exact absurd rfl (hb _ hd)
  | derived hd => exact absurd rfl (hb _ hd)

/-- What a call says of steady names: they come out stable. -/
def Call.Held (isWord : Char → Bool) (bindings : List Binding) (v : Verdict) : Call → Prop
  | .one n => Steady isWord bindings n → v.stab = .stable
  | .refs _ w rest => w.stab = .stable → (∀ r ∈ rest, Steady isWord bindings r) → v.stab = .stable

omit hn in
theorem worse_of_stable {n : String} {w v : Verdict} (hw : w.stab = .stable) (hv : v.stab = .stable) :
    (w.worse n v).stab = .stable := by
  simp [Verdict.worse, hw, hv]

/-- Inside of names that lead to it, a steady name is judged stable: it is not one of them. -/
theorem run_held {S : List String} {memo memo' : Memo} {c : Call} {v : Verdict} (h : Run isWord bindings S memo c v memo')
    (hm : ∀ x w, memo.get? x = some w → Steady isWord bindings x → w.stab = .stable)
    (hS : ∀ s ∈ S, ∀ a ∈ c.targets, Relation.TransGen (Refers bindings) s a) :
    (∀ x w, memo'.get? x = some w → Steady isWord bindings x → w.stab = .stable) ∧ c.Held isWord bindings v := by
  induction h with
  | hit hx => exact ⟨hm, hm _ _ hx⟩
  | unbound _ hb =>
    refine ⟨hm, fun hs => ?_⟩
    simp [unbound, Verdict.own, steady_unbound hb hs]
  | cycle _ hmem => exact ⟨hm, fun hs => absurd (hS _ hmem _ List.mem_cons_self) (steady_acyclic hn hs)⟩
  | @leaf S memo b s hnone hb hnS hl =>
    have hstable : Steady isWord bindings b.name → s = .stable := by
      intro hs
      rcases hl with ⟨hk, -⟩ | ⟨-, e⟩ | ⟨hk, -⟩
      · exact absurd ⟨_, b, .fresh hb hk⟩ (steady_not_storms hn hs)
      · exact e
      · generalize hx : b.name = x at hs
        cases hs with
        | plain hno => exact absurd hx (hno b hb)
        | held hd hh =>
          rw [List.inj_on_of_nodup_map hn hb hd hx, hh] at hk
          rcases hk with hk | ⟨hk, -⟩ <;> cases hk
        | derived hd hh hne =>
          rw [List.inj_on_of_nodup_map hn hb hd hx, hh] at hk
          rcases hk with hk | ⟨-, hk⟩
          · cases hk
          · exact absurd hk hne
    refine ⟨fun x w hx hs => ?_, hstable⟩
    rw [Dict.get?_set] at hx
    split at hx
    next e =>
      cases hx
      exact hstable (e ▸ hs)
    next => exact hm x w hx hs
  | @derived S memo memo' b v hnone hb hnS hk hne _ ih =>
    obtain ⟨hm', hheld⟩ := ih hm fun s hs a ha => by
      have hba : Refers bindings b.name a := ⟨b, hb, rfl, hk, ha⟩
      rcases List.mem_cons.mp hs with rfl | hs
      · exact .single hba
      · exact (hS s hs _ List.mem_cons_self).tail hba
    have hstable : Steady isWord bindings b.name → v.stab = .stable := fun hs =>
      hheld rfl ((steady_derived hn hb hk hne).mp hs)
    refine ⟨fun x w hx hs => ?_, hstable⟩
    rw [Dict.get?_set] at hx
    split at hx
    next e =>
      cases hx
      exact hstable (e ▸ hs)
    next => exact hm' x w hx hs
  | done => exact ⟨hm, fun hw _ => hw⟩
  | next _ _ ih₁ ih₂ =>
    obtain ⟨hm₁, hv⟩ := ih₁ hm fun s hs a ha => hS s hs a (by rw [List.mem_singleton.mp ha]; exact List.mem_cons_self)
    obtain ⟨hm₂, hout⟩ := ih₂ hm₁ fun s hs a ha => hS s hs a (List.mem_cons_of_mem _ ha)
    exact ⟨hm₂, fun hw hall => hout (worse_of_stable hw (hv (hall _ List.mem_cons_self)))
      fun r hr => hall r (List.mem_cons_of_mem _ hr)⟩

/-! ## Without a clash -/

omit hn in
/-- The way a call was come to, for whatever it may still meet. -/
def Call.Way (bindings : List Binding) (S : List String) (memo : Memo) : Call → Prop
  | .one n => n ∉ S → ∀ t ∈ bindings, memo.get? t.name = none → t.name ∉ S → Descends bindings t.name S n
  | .refs n _ rest => ∃ b ∈ bindings, ∃ S₀ done, b.name = n ∧ b.kind = .derived ∧ S = n :: S₀ ∧ b.refs = done ++ rest ∧
      (∀ d ∈ done, Known bindings S memo d) ∧
      ∀ t ∈ bindings, memo.get? t.name = none → t.name ∉ S₀ → Descends bindings t.name S₀ n

omit hn in
/-- What a call says of storming names: they come out unstable, unless it is inside of them. -/
def Call.Seen (bindings : List Binding) (S : List String) (v : Verdict) : Call → Prop
  | .one n => n ∉ S → Storms bindings n → v.stab = .unstable
  | .refs _ w rest => (w.stab = .unstable ∨ ∃ r ∈ rest, Storms bindings r ∧ r ∉ S) → v.stab = .unstable

/-- Where there is no clash, what a call leaves in the memo is unstable if it storms. -/
theorem run_seen (hno : ¬ Clash bindings) {S : List String} {memo memo' : Memo} {c : Call} {v : Verdict}
    (h : Run isWord bindings S memo c v memo') (hc : Closed bindings S memo) (ha : Apart S memo)
    (hm : ∀ x w, memo.get? x = some w → Storms bindings x → w.stab = .unstable) (hway : c.Way bindings S memo) :
    (∀ x w, memo'.get? x = some w → Storms bindings x → w.stab = .unstable) ∧ c.Seen bindings S v := by
  induction h with
  | hit hx => exact ⟨hm, fun _ => hm _ _ hx⟩
  | unbound _ hb =>
    refine ⟨hm, fun _ hs => ?_⟩
    obtain ⟨path, o, hs⟩ := hs
    cases hs with
    | fresh hd => exact absurd rfl (hb _ hd)
    | step hd => exact absurd rfl (hb _ hd)
  | cycle _ hmem => exact ⟨hm, fun hS => absurd hmem hS⟩
  | @leaf S memo b s hnone hb hnS hl =>
    have hunstable : Storms bindings b.name → s = .unstable := by
      rintro ⟨path, o, hs⟩
      have hcase : b.kind = .fresh ∨ (b.kind = .derived ∧ b.refs ≠ []) := by
        generalize hx : b.name = x at hs
        cases hs with
        | fresh hd hk => exact Or.inl (List.inj_on_of_nodup_map hn hb hd hx ▸ hk)
        | step hd hk hr => exact Or.inr (List.inj_on_of_nodup_map hn hb hd hx ▸ ⟨hk, List.ne_nil_of_mem hr⟩)
      rcases hl with ⟨-, e⟩ | ⟨hk, -⟩ | ⟨hk | ⟨hk, he⟩, -⟩
      · exact e
      · rcases hcase with h | ⟨h, -⟩ <;> rw [hk] at h <;> cases h
      · rcases hcase with h | ⟨h, -⟩ <;> rw [hk] at h <;> cases h
      · rcases hcase with h | ⟨-, h⟩
        · rw [hk] at h; cases h
        · exact absurd he h
    refine ⟨fun x w hx hs => ?_, fun _ => hunstable⟩
    rw [Dict.get?_set] at hx
    split at hx
    next e =>
      cases hx
      exact hunstable (e ▸ hs)
    next => exact hm x w hx hs
  | @derived S memo memo' b v hnone hb hnS hk hne _ ih =>
    have hdesc := hway hnS
    obtain ⟨hm', hseen⟩ := ih
      (fun d hd hkd hx r hr => (hc d hd hkd hx r hr).mono (fun _ h => h) fun _ h => Or.inl (List.mem_cons_of_mem _ h))
      (ha.cons hnone) hm
      ⟨b, hb, S, [], rfl, hk, rfl, rfl, fun d hd => absurd hd List.not_mem_nil, hdesc⟩
    have hunstable : Storms bindings b.name → v.stab = .unstable := by
      intro hs
      -- some reference that storms is not being judged
      by_cases hall : ∀ r ∈ b.refs, Storms bindings r → r ∈ b.name :: S
      · exact absurd ⟨S, b, hb, hdesc b hb hnone hnS, hk, hs, hall⟩ hno
      · simp only [not_forall] at hall
        obtain ⟨r, hr, hrs, hrS⟩ := hall
        exact hseen (Or.inr ⟨r, hr, hrs, hrS⟩)
    refine ⟨fun x w hx hs => ?_, fun _ => hunstable⟩
    rw [Dict.get?_set] at hx
    split at hx
    next e =>
      cases hx
      exact hunstable (e ▸ hs)
    next => exact hm' x w hx hs
  | done =>
    refine ⟨hm, fun h => ?_⟩
    rcases h with h | ⟨r, hr, -⟩
    · exact h
    · cases hr
  | @next S memo memo₁ memo₂ n r rest w v out h₁ h₂ ih₁ ih₂ =>
    obtain ⟨b, hb, S₀, done, rfl, hk, rfl, hrefs, hdone, hdesc⟩ := hway
    have hgrow : ∀ t, memo₁.get? t = none → memo.get? t = none := by
      intro t ht
      cases hx : memo.get? t with
      | none => rfl
      | some u => rw [run_keeps h₁ t u hx] at ht; cases ht
    obtain ⟨hm₁, hv⟩ := ih₁ hc ha hm fun hrS t ht htn htS =>
      .into (hdesc t ht htn fun h => htS (List.mem_cons_of_mem _ h)) hb hk hrefs
        (fun d hd hreach => by
          have hx := closed_reach hc ht hreach (hdone d hd)
          rw [htn] at hx
          cases hx) hrS
    obtain ⟨hc₁, hknown⟩ := run_closed hn h₁ hc
    obtain ⟨hm₂, hout⟩ := ih₂ hc₁ (run_apart h₁ ha) hm₁
      ⟨b, hb, S₀, done ++ [r], rfl, hk, rfl, by rw [hrefs]; simp, fun d hd => by
        rcases List.mem_append.mp hd with hd | hd
        · exact (hdone d hd).mono (run_grows h₁) fun _ h => Or.inl h
        · exact hknown d hd, fun t ht htn => hdesc t ht (hgrow _ htn)⟩
    refine ⟨hm₂, fun h => hout ?_⟩
    rcases h with h | ⟨x, hx, hxs, hxS⟩
    · exact Or.inl (worse_of_left h)
    · rcases List.mem_cons.mp hx with rfl | hx
      · exact Or.inl (worse_of_right (hv hxS hxs))
      · exact Or.inr ⟨x, hx, hxs, hxS⟩

/-! ## The values -/

omit hn in
open Classical in
/-- The worst a name can be shown to be. -/
noncomputable def level (isWord : Char → Bool) (bindings : List Binding) (n : String) : Stability :=
  if Storms bindings n then .unstable else if Steady isWord bindings n then .stable else .unknown

omit hn in
theorem foldl_join (l : List Stability) (s : Stability) :
    (l.foldl Stability.join s = .unstable ↔ s = .unstable ∨ .unstable ∈ l) ∧
      (l.foldl Stability.join s = .stable ↔ s = .stable ∧ ∀ x ∈ l, x = .stable) := by
  induction l generalizing s with
  | nil => simp
  | cons x l ih =>
    rw [List.foldl_cons, (ih _).1, (ih _).2]
    cases s <;> cases x <;> simp [Stability.join, Stability.rank]

theorem level_derived {b : Binding} (hb : b ∈ bindings) (hk : b.kind = .derived) (hne : b.refs ≠ []) :
    level isWord bindings b.name = (b.refs.map (level isWord bindings)).foldl Stability.join .stable := by
  obtain ⟨hu, hs⟩ := foldl_join (b.refs.map (level isWord bindings)) .stable
  have hunstable : ∀ n, level isWord bindings n = .unstable ↔ Storms bindings n := by
    intro n
    unfold level
    split
    next h => simp [h]
    next h => split <;> simp [h]
  have hstable : ∀ n, level isWord bindings n = .stable ↔ Steady isWord bindings n := by
    intro n
    unfold level
    split
    next h => exact ⟨fun e => (by cases e), fun hs => absurd h (steady_not_storms hn hs)⟩
    next h => split <;> simp_all
  have h1 : level isWord bindings b.name = .unstable ↔
      (b.refs.map (level isWord bindings)).foldl Stability.join .stable = .unstable := by
    rw [hu, hunstable, storms_derived hn hb hk]
    simp [hunstable]
  have h2 : level isWord bindings b.name = .stable ↔
      (b.refs.map (level isWord bindings)).foldl Stability.join .stable = .stable := by
    rw [hs, hstable, steady_derived hn hb hk hne]
    simp [hstable]
  generalize level isWord bindings b.name = x at h1 h2
  generalize (b.refs.map (level isWord bindings)).foldl Stability.join .stable = y at h1 h2
  cases x <;> cases y <;> simp_all

/-- What is known of the memo between queries. -/
structure Settled (isWord : Char → Bool) (bindings : List Binding) (memo : Memo) : Prop where
  sound : Sound isWord bindings memo
  closed : Closed bindings [] memo
  held : ∀ x w, memo.get? x = some w → Steady isWord bindings x → w.stab = .stable
  seen : ∀ x w, memo.get? x = some w → Storms bindings x → w.stab = .unstable

omit hn in
theorem settled_empty : Settled isWord bindings Dict.empty :=
  ⟨sound_empty, fun _ _ _ h => (by cases h), fun x w h => (by cases h), fun x w h => (by cases h)⟩

theorem stability_settled (hno : ¬ Clash bindings) {memo : Memo} (hm : Settled isWord bindings memo) (n : String) :
    ∃ memo', stability isWord bindings memo n = some (level isWord bindings n, memo') ∧ Settled isWord bindings memo' := by
  obtain ⟨v, memo', hres⟩ := @resolve_total isWord bindings memo n
  have hrun := resolve_run _ _ _ _ _ _ hres
  obtain ⟨hsound, htell⟩ := run_sound hn hrun hm.sound
  obtain ⟨hclosed, -⟩ := run_closed hn hrun hm.closed
  obtain ⟨hheld, hstable⟩ := run_held hn hrun hm.held fun s hs => absurd hs List.not_mem_nil
  obtain ⟨hseen, hunstable⟩ := run_seen hn hno hrun hm.closed (fun x hx => absurd hx List.not_mem_nil) hm.seen
    fun _ t _ _ _ => .start
  refine ⟨memo', ?_, hsound, hclosed, hheld, hseen⟩
  have hv : v.stab = level isWord bindings n := by
    unfold level
    split
    next h => exact hunstable List.not_mem_nil h
    next h =>
      split
      next hs => exact hstable hs
      next hs =>
        cases hv : v.stab with
        | stable => exact absurd (htell.steady hv) hs
        | unknown => rfl
        | unstable =>
          obtain ⟨o, ho, -⟩ := htell.chain hv
          exact absurd ⟨_, o, ho⟩ h
  rw [stability, hres, Option.map_some, hv]

theorem queries_settled (hno : ¬ Clash bindings) (history : List String) {memo : Memo} (hm : Settled isWord bindings memo) :
    ∃ memo', queries isWord bindings history memo = some memo' ∧ Settled isWord bindings memo' := by
  induction history generalizing memo with
  | nil => exact ⟨memo, rfl, hm⟩
  | cons n ns ih =>
    obtain ⟨memo', hs, hm'⟩ := stability_settled hn hno hm n
    unfold queries
    rw [hs]
    exact ih hm'

/-! ## With a clash -/

omit hn in
/-- `Falls target S n T`: the descent from `n` inside of `S` on to `target`, come to inside of `T`. -/
inductive Falls (bindings : List Binding) (target : String) : List String → String → List String → Prop
  | here {S : List String} : Falls bindings target S target S
  | into {S T : List String} {b : Binding} {done rest : List String} {r : String} : b ∈ bindings → b.kind = .derived →
      b.refs = done ++ r :: rest → (∀ d ∈ done, ¬ Reaches bindings (b.name :: S) d target) → r ∉ b.name :: S →
      Falls bindings target (b.name :: S) r T → Falls bindings target S b.name T

omit hn in
theorem descends_falls {target : String} {S T : List String} {n : String} (h : Descends bindings target S n)
    (hf : Falls bindings target S n T) : ∃ x, Falls bindings target [] x T := by
  induction h with
  | start => exact ⟨_, hf⟩
  | into _ hb hk hrefs hdone hr ih => exact ih (.into hb hk hrefs hdone hr hf)

omit hn in
theorem falls_reaches {target : String} {S T : List String} {n : String} (h : Falls bindings target S n T) (hS : n ∉ S) :
    Reaches bindings S n target := by
  induction h with
  | here => exact .here hS
  | into hb hk hrefs _ hr _ ih =>
    exact .step hb hk hS (by rw [hrefs]; simp) ((ih hr).weaken fun x hx => List.mem_cons_of_mem _ hx)

omit hn in
theorem run_refs_append {S : List String} {memo memo' : Memo} {n : String} {xs ys : List String} {w v : Verdict}
    (h : Run isWord bindings S memo (.refs n w (xs ++ ys)) v memo') :
    ∃ u memo₁, Run isWord bindings S memo (.refs n w xs) u memo₁ ∧ Run isWord bindings S memo₁ (.refs n u ys) v memo' := by
  induction xs generalizing memo w with
  | nil => exact ⟨w, memo, .done, h⟩
  | cons x xs ih =>
    cases h with
    | next h₁ h₂ =>
      obtain ⟨u, memo₁, hxs, hys⟩ := ih h₂
      exact ⟨u, memo₁, .next h₁ hxs, hys⟩

omit hn in
/-- A name the search is inside of is not judged again. -/
theorem run_open {S : List String} {memo memo' : Memo} {n : String} {v : Verdict}
    (h : Run isWord bindings S memo (.one n) v memo') (ha : Apart S memo) (hS : n ∈ S) : v.stab ≠ .unstable := by
  cases h with
  | hit hx => rw [ha n hS] at hx; cases hx
  | unbound =>
    unfold unbound Verdict.own
    dsimp only
    split <;> simp
  | cycle => simp [Verdict.own]
  | leaf _ _ hno => exact absurd hS hno
  | derived _ _ hno => exact absurd hS hno

/-- References that storm only where they are being judged leave a verdict that is not unstable. -/
theorem run_dull {S : List String} {n : String} {rest : List String} : ∀ {memo memo' : Memo} {w v : Verdict},
    Run isWord bindings S memo (.refs n w rest) v memo' → Sound isWord bindings memo → Apart S memo → w.stab ≠ .unstable →
      (∀ r ∈ rest, Storms bindings r → r ∈ S) → v.stab ≠ .unstable := by
  induction rest with
  | nil =>
    intro memo memo' w v h _ _ hw _
    cases h
    exact hw
  | cons r rest ih =>
    intro memo memo' w v h hs ha hw hall
    cases h with
    | @next _ _ memo₁ _ _ _ _ _ u _ h₁ h₂ =>
      obtain ⟨hs₁, htell⟩ := run_sound hn h₁ hs
      refine ih h₂ hs₁ (run_apart h₁ ha) (fun hworse => ?_) fun x hx => hall x (List.mem_cons_of_mem _ hx)
      rcases worse_unstable hworse with ⟨-, hwu⟩ | ⟨hv, -⟩
      · exact hw hwu
      · obtain ⟨o, ho, -⟩ := htell.chain hv
        exact run_open h₁ ha (hall r List.mem_cons_self ⟨_, o, ho⟩) hv

/-- The search follows the descent, and keeps what it comes to there as not unstable. -/
theorem run_masks {t : Binding} (ht : t ∈ bindings) (hkt : t.kind = .derived) {S T : List String} {n : String}
    (hf : Falls bindings t.name S n T) (hall : ∀ r ∈ t.refs, Storms bindings r → r ∈ t.name :: T) :
    ∀ {memo memo' : Memo} {v : Verdict}, Run isWord bindings S memo (.one n) v memo' → Sound isWord bindings memo →
      Closed bindings S memo → Apart S memo → memo.get? t.name = none → n ∉ S →
      ∃ w, memo'.get? t.name = some w ∧ w.stab ≠ .unstable := by
  induction hf with
  | here =>
    intro memo memo' v hrun hs _ ha hnone hS
    generalize hx : t.name = x at hrun
    cases hrun with
    | hit h => rw [← hx, hnone] at h; cases h
    | unbound _ hb => exact absurd hx (hb t ht)
    | cycle _ hmem => exact absurd (hx ▸ hmem) hS
    | @leaf _ _ b s _ hb _ hl =>
      have := List.inj_on_of_nodup_map hn ht hb hx
      subst this
      refine ⟨_, Dict.get?_set_self _ _ _, ?_⟩
      rcases hl with ⟨hk, -⟩ | ⟨-, e⟩ | ⟨-, e⟩
      · rw [hk] at hkt; cases hkt
      · simp [Verdict.own, e]
      · simp [Verdict.own, e]
    | @derived _ _ _ b _ _ hb hnS _ _ hrefs =>
      have := List.inj_on_of_nodup_map hn ht hb hx
      subst this
      exact ⟨v, Dict.get?_set_self _ _ _, run_dull hn hrefs hs (ha.cons hnone) (by simp [Verdict.own]) hall⟩
  | @into S T b done rest r hb hk hrefs hdone hr hrest ih =>
    intro memo memo' v hrun hs hc ha hnone hS
    have hreach : Reaches bindings (b.name :: S) r t.name := falls_reaches hrest hr
    have hbt : b.name ≠ t.name := fun e => hreach.not_mem (e ▸ List.mem_cons_self)
    generalize hx : b.name = x at hrun
    cases hrun with
    | hit h =>
      have hmem : r ∈ b.refs := by rw [hrefs]; simp
      have := closed_reach hc ht (.step hb hk hS hmem (hreach.weaken fun y hy => List.mem_cons_of_mem _ hy))
        (Or.inl (by rw [hx, h]; rfl))
      rw [hnone] at this
      cases this
    | unbound _ hno => exact absurd hx (hno b hb)
    | cycle _ hmem => exact absurd (hx ▸ hmem) hS
    | @leaf _ _ d s _ hd _ hl =>
      have := List.inj_on_of_nodup_map hn hb hd hx
      subst this
      rcases hl with ⟨h, -⟩ | ⟨h, -⟩ | ⟨h | ⟨-, h⟩, -⟩
      · rw [hk] at h; cases h
      · rw [hk] at h; cases h
      · rw [hk] at h; cases h
      · rw [hrefs] at h; simp at h
    | @derived _ _ memo'' d _ hnd hd hnS _ _ hin =>
      have := List.inj_on_of_nodup_map hn hb hd hx
      subst this
      have hc' : Closed bindings (b.name :: S) memo := fun e he hke hxe r hr =>
        (hc e he hke hxe r hr).mono (fun _ h => h) fun _ h => Or.inl (List.mem_cons_of_mem _ h)
      rw [hrefs] at hin
      obtain ⟨u, memo₁, hpre, hpost⟩ := run_refs_append hin
      have hnone₁ : memo₁.get? t.name = none := by
        cases hm : memo₁.get? t.name with
        | none => rfl
        | some w =>
          rcases run_adds hpre _ _ hm with h | ⟨-, d, hd, hreach⟩
          · rw [hnone] at h; cases h
          · exact absurd hreach (hdone d hd)
      cases hpost with
      | next hone hrest' =>
        obtain ⟨w, hw, hwu⟩ := ih hall hone (run_sound hn hpre hs).1 (run_closed hn hpre hc').1
          (run_apart hpre (ha.cons hnd)) hnone₁ hr
        refine ⟨w, ?_, hwu⟩
        rw [Dict.get?_set_of_ne _ _ hbt.symm]
        exact run_keeps hrest' _ _ hw

/-! ## The claim of the lattice -/

/-- The values do not depend on the history, and satisfy the derivation equation, exactly if no binding clashes. -/
theorem wellDefined_iff (isWord : Char → Bool) : WellDefined isWord bindings ↔ ¬ Clash bindings := by
  constructor
  · rintro ⟨val, hval, -⟩ ⟨T, t, ht, hdesc, hk, hst, hall⟩
    obtain ⟨x, hfalls⟩ := descends_falls hdesc .here
    -- asked for where the descent starts, the lattice keeps `t` as not unstable
    obtain ⟨v, memo, hres⟩ := @resolve_total isWord bindings Dict.empty x
    obtain ⟨w, hw, hwu⟩ := run_masks hn ht hk hfalls hall (resolve_run _ _ _ _ _ _ hres) sound_empty
      (fun _ _ _ h => by cases h) (fun y hy => absurd hy List.not_mem_nil) rfl List.not_mem_nil
    have hlate : stabilityAfter isWord bindings [x] t.name = some w.stab := by
      have hq : queries isWord bindings [x] Dict.empty = some memo := by
        unfold queries stability
        rw [hres]
        rfl
      unfold stabilityAfter
      rw [hq]
      unfold stability resolve
      dsimp only
      rw [hw]
      rfl
    have hfirst : stabilityAfter isWord bindings [] t.name = some .unstable := by
      obtain ⟨s, memo', hs, hiff, -⟩ := stability_calm hn (@calm_empty isWord bindings) t.name
      rw [hiff.mpr hst] at hs
      unfold stabilityAfter queries
      dsimp only
      rw [hs]
      rfl
    rw [hval] at hlate hfirst
    exact hwu ((Option.some.inj hlate).symm.trans (Option.some.inj hfirst))
  · intro hno
    refine ⟨level isWord bindings, fun history name => ?_, fun b hb hk hne => level_derived hn hb hk hne⟩
    obtain ⟨memo, hq, hm⟩ := queries_settled hn hno history (@settled_empty isWord bindings)
    obtain ⟨memo', hs, -⟩ := stability_settled hn hno hm name
    unfold stabilityAfter
    rw [hq]
    dsimp only
    rw [hs]
    rfl

end

theorem wellDefined_iff_page : WellDefined Example.wordChar Example.page.bindings ↔ ¬ Clash Example.page.bindings :=
  wellDefined_iff (by decide) Example.wordChar

/-- Asked for `a` first, the lattice keeps `b`, which derives from `a`, as unknown; asked for `b` first, it is unstable. -/
theorem history_changes_stability : ¬ ∀ (isWord : Char → Bool) (bindings : List Binding),
    (bindings.map Binding.name).Nodup → WellDefined isWord bindings := by
  intro h
  obtain ⟨val, hval, -⟩ := h Example.wordChar Example.page.bindings (by decide)
  have hfirst : stabilityAfter Example.wordChar Example.page.bindings [] "b" = some .unstable := by decide
  have hlater : stabilityAfter Example.wordChar Example.page.bindings ["a"] "b" = some .unknown := by decide
  rw [hval] at hfirst hlater
  cases (Option.some.inj hfirst).symm.trans (Option.some.inj hlater)

end OwnNet.Effects
