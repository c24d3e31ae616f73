/-
  OwnNet.Ownership.Orders — what the solver's whole answer owes to the order in which the
  skeletons, and the paths of a parameter, are listed.

  A return is the end of its chain of forwards, degraded on the way, and unknown where the
  chain has no end: whatever the memo holds when it is chased. `solved` is the solver with
  the fuel it needs.

  Proved: `summarize_ends`: every summary's return is that end; `solved_perm`: two orders of
  the skeletons have the same summaries, up to order, and the same log; `solved_alike`: two
  orders of the paths of their parameters have the same answer.
-/

import Mathlib.Data.List.Flatten
import OwnNet.Ownership.Canonical
import OwnNet.Sorting

namespace OwnNet.Ownership

open Dataflow Graph

/-! ## The end of a chain -/

section Ends

variable {get : String → Option MethodSkeleton}

/-- A chain of forwards that ends, `n` forwards on, and what it returns. -/
inductive Chain (get : String → Option MethodSkeleton) : Nat → String → Returned → Prop
  | stop {key : String} {s : MethodSkeleton} : get key = some s → s.ret.kind ≠ .forward → Chain get 0 key (terminal s.ret)
  | lost {key : String} {s : MethodSkeleton} : get key = some s → s.ret.kind = .forward → get s.ret.callee = none →
      Chain get 0 key .unknown
  | hop {n : Nat} {key : String} {s : MethodSkeleton} {r : Returned} : get key = some s → s.ret.kind = .forward →
      Chain get n s.ret.callee r → Chain get (n + 1) key (degrade r)

theorem Chain.known {n : Nat} {key : String} {r : Returned} (h : Chain get n key r) : ∃ s, get key = some s := by
  cases h with
  | stop hs _ => exact ⟨_, hs⟩
  | lost hs _ _ => exact ⟨_, hs⟩
  | hop hs _ _ => exact ⟨_, hs⟩

theorem Chain.unique {n m : Nat} {key : String} {r r' : Returned} (h : Chain get n key r) (h' : Chain get m key r') :
    n = m ∧ r = r' := by
  induction h generalizing m r' with
  | stop hs hk =>
    cases h' with
    | stop hs' _ =>
      rw [hs] at hs'
      cases hs'
      exact ⟨rfl, rfl⟩
    | lost hs' hk' _ =>
      rw [hs] at hs'
      cases hs'
      exact absurd hk' hk
    | hop hs' hk' _ =>
      rw [hs] at hs'
      cases hs'
      exact absurd hk' hk
  | lost hs hk hnone =>
    cases h' with
    | stop hs' hk' =>
      rw [hs] at hs'
      cases hs'
      exact absurd hk hk'
    | lost _ _ _ => exact ⟨rfl, rfl⟩
    | hop hs' _ hc =>
      rw [hs] at hs'
      cases hs'
      obtain ⟨t, ht⟩ := hc.known
      rw [hnone] at ht
      cases ht
  | hop hs hk hc ih =>
    cases h' with
    | stop hs' hk' =>
      rw [hs] at hs'
      cases hs'
      exact absurd hk hk'
    | lost hs' _ hnone =>
      rw [hs] at hs'
      cases hs'
      obtain ⟨t, ht⟩ := hc.known
      rw [hnone] at ht
      cases ht
    | hop hs' _ hc' =>
      rw [hs] at hs'
      cases hs'
      obtain ⟨hn, hr⟩ := ih hc'
      exact ⟨by rw [hn], by rw [hr]⟩

/-- What a method returns: the end of its chain, or unknown. -/
def Ends (get : String → Option MethodSkeleton) (key : String) (r : Returned) : Prop :=
  (∃ n, Chain get n key r) ∨ (r = .unknown ∧ ∀ n r', ¬Chain get n key r')

theorem Ends.unique {key : String} {r r' : Returned} (h : Ends get key r) (h' : Ends get key r') : r = r' := by
  rcases h with ⟨n, h⟩ | ⟨rfl, h⟩
  · rcases h' with ⟨m, h'⟩ | ⟨-, h'⟩
    · exact (h.unique h').2
    · exact absurd h (h' n r)
  · rcases h' with ⟨m, h'⟩ | ⟨rfl, -⟩
    · exact absurd h' (h m r')
    · rfl

theorem Ends.exists (get : String → Option MethodSkeleton) (key : String) : ∃ r, Ends get key r := by
  by_cases h : ∃ n r, Chain get n key r
  · obtain ⟨n, r, h⟩ := h
    exact ⟨r, Or.inl ⟨n, h⟩⟩
  · exact ⟨.unknown, Or.inr ⟨rfl, fun n r hc => h ⟨n, r, hc⟩⟩⟩

noncomputable def endOf (get : String → Option MethodSkeleton) (key : String) : Returned := (Ends.exists get key).choose

theorem Ends.eq_endOf {key : String} {r : Returned} (h : Ends get key r) : r = endOf get key :=
  h.unique (Ends.exists get key).choose_spec

theorem Ends.hop {key : String} {s : MethodSkeleton} {r : Returned} (hs : get key = some s) (hk : s.ret.kind = .forward)
    (hc : (get s.ret.callee).isSome) (h : Ends get s.ret.callee r) : Ends get key (degrade r) := by
  rcases h with ⟨n, h⟩ | ⟨rfl, h⟩
  · exact Or.inl ⟨n + 1, .hop hs hk h⟩
  · refine Or.inr ⟨rfl, fun n r' h' => ?_⟩
    cases h' with
    | stop hs' hk' =>
      rw [hs] at hs'
      cases hs'
      exact hk' hk
    | lost hs' _ hnone =>
      rw [hs] at hs'
      cases hs'
      rw [hnone] at hc
      cases hc
    | hop hs' _ hc' =>
      rw [hs] at hs'
      cases hs'
      exact h _ _ hc'

/-- The methods of a path, deepest first: each forwards to the one before it, the deepest to `key`. -/
def Linked (get : String → Option MethodSkeleton) : List String → String → Prop
  | [], _ => True
  | k :: path, key =>
    (∃ s, get k = some s ∧ s.ret.kind = .forward ∧ s.ret.callee = key ∧ (get key).isSome) ∧ Linked get path k

/-- A chain from a method on the path goes down to `key`. -/
theorem Linked.down {path : List String} {key k : String} (hl : Linked get path key) (hk : k ∈ key :: path) {n : Nat}
    {r : Returned} (hc : Chain get n k r) : ∃ m r', m ≤ n ∧ Chain get m key r' := by
  induction path generalizing key with
  | nil =>
    rw [List.mem_singleton] at hk
    subst hk
    exact ⟨n, r, le_refl n, hc⟩
  | cons j path ih =>
    rcases List.mem_cons.mp hk with rfl | hk
    · exact ⟨n, r, le_refl n, hc⟩
    · obtain ⟨⟨s, hs, hkind, hcallee, hsome⟩, hrest⟩ := hl
      obtain ⟨m, r', hm, hc'⟩ := ih hrest hk
      cases hc' with
      | stop hs' hk' =>
        rw [hs] at hs'
        cases hs'
        exact absurd hkind hk'
      | lost hs' _ hnone =>
        rw [hs] at hs'
        cases hs'
        rw [hcallee] at hnone
        rw [hnone] at hsome
        cases hsome
      | @hop m' _ _ r'' hs' _ hc'' =>
        rw [hs] at hs'
        cases hs'
        rw [hcallee] at hc''
        exact ⟨m', r'', by omega, hc''⟩

theorem Linked.known {path : List String} {key : String} (hl : Linked get path key) : ∀ k ∈ path, (get k).isSome := by
  induction path generalizing key with
  | nil => exact fun k hk => absurd hk List.not_mem_nil
  | cons j path ih =>
    obtain ⟨⟨s, hs, -⟩, hrest⟩ := hl
    intro k hk
    rcases List.mem_cons.mp hk with rfl | hk
    · rw [hs]
      rfl
    · exact ih hrest k hk

/-- A method that forwards back to the path it was reached by has no end. -/
theorem Linked.cycle {path : List String} {key : String} {s : MethodSkeleton} (hl : Linked get path key)
    (hs : get key = some s) (hk : s.ret.kind = .forward) (hc : s.ret.callee = key ∨ s.ret.callee ∈ path) (n : Nat)
    (r : Returned) : ¬Chain get n key r := by
  intro h
  have hmem : s.ret.callee ∈ key :: path := List.mem_cons.mpr hc
  have hdown : ∃ m r', m < n ∧ Chain get m s.ret.callee r' := by
    cases h with
    | stop hs' hk' =>
      rw [hs] at hs'
      cases hs'
      exact absurd hk hk'
    | lost hs' _ hnone =>
      rw [hs] at hs'
      cases hs'
      have : (get s.ret.callee).isSome := by
        rcases hc with hc | hc
        · rw [hc, hs]
          rfl
        · exact hl.known _ hc
      rw [hnone] at this
      cases this
    | hop hs' _ hc' =>
      rw [hs] at hs'
      cases hs'
      exact ⟨_, _, Nat.lt_succ_self _, hc'⟩
  obtain ⟨m, r', hm, hc'⟩ := hdown
  obtain ⟨m', r'', hm', hc''⟩ := hl.down hmem hc'
  have := (h.unique hc'').1
  omega

end Ends

/-! ## The chase -/

section Chase

variable {sk : List MethodSkeleton}

/-- What the memo of returns holds is right. -/
def Memo (sk : List MethodSkeleton) (retVal : String → Option Returned) : Prop :=
  ∀ k r, retVal k = some r → Ends (byKey sk) k r

theorem Memo.update {retVal : String → Option Returned} (h : Memo sk retVal) {key : String} {r : Returned}
    (hr : Ends (byKey sk) key r) : Memo sk (Function.update retVal key (some r)) := by
  intro k v hv
  by_cases hk : k = key
  · subst hk
    rw [Function.update_self] at hv
    cases hv
    exact hr
  · rw [Function.update_of_ne hk] at hv
    exact h k v hv

/-- Writing an end up its path: right, for every method of the path, and nothing is lost. -/
theorem climb_memo {path : List String} {key : String} {r : Returned} {retVal : String → Option Returned}
    (hl : Linked (byKey sk) path key) (hr : Ends (byKey sk) key r) (h : Memo sk retVal) :
    Memo sk (climb r path retVal) ∧ ∀ k, k ∈ path ∨ (retVal k).isSome → (climb r path retVal k).isSome := by
  induction path generalizing key r retVal with
  | nil =>
    refine ⟨h, fun k hk => ?_⟩
    rcases hk with hk | hk
    · cases hk
    · exact hk
  | cons j path ih =>
    obtain ⟨⟨s, hs, hkind, hcallee, hsome⟩, hrest⟩ := hl
    have hj : Ends (byKey sk) j (degrade r) := by
      subst hcallee
      exact Ends.hop hs hkind hsome hr
    obtain ⟨hmemo, hkeep⟩ := ih hrest hj (h.update hj)
    refine ⟨hmemo, fun k hk => hkeep k ?_⟩
    by_cases hkj : k = j
    · right
      rw [hkj, Function.update_self]
      rfl
    · rw [Function.update_of_ne hkj]
      rcases hk with hk | hk
      · exact Or.inl ((List.mem_cons.mp hk).resolve_left hkj)
      · exact Or.inr hk

theorem chase_memo {fuel : Nat} {retVal : String → Option Returned} {path : List String} {key : String}
    {r : String → Option Returned} (h : Memo sk retVal) (hl : Linked (byKey sk) path key)
    (hr : chase sk fuel retVal path key = some r) :
    Memo sk r ∧ ∀ k, k ∈ key :: path ∨ (retVal k).isSome → (r k).isSome := by
  induction fuel generalizing path key with
  | zero => cases hr
  | succ n ih =>
    unfold chase at hr
    -- an end found at `key`, written there and up the path
    have hstop : ∀ v, Ends (byKey sk) key v → climb v path (Function.update retVal key (some v)) = r →
        Memo sk r ∧ ∀ k, k ∈ key :: path ∨ (retVal k).isSome → (r k).isSome := by
      intro v hv he
      subst he
      obtain ⟨hmemo, hkeep⟩ := climb_memo hl hv (h.update hv)
      refine ⟨hmemo, fun k hk => hkeep k ?_⟩
      by_cases hkk : k = key
      · right
        rw [hkk, Function.update_self]
        rfl
      · rw [Function.update_of_ne hkk]
        rcases hk with hk | hk
        · exact Or.inl ((List.mem_cons.mp hk).resolve_left hkk)
        · exact Or.inr hk
    cases hv : retVal key with
    | some v =>
      rw [hv] at hr
      cases hr
      obtain ⟨hmemo, hkeep⟩ := climb_memo hl (h key v hv) h
      refine ⟨hmemo, fun k hk => hkeep k ?_⟩
      rcases hk with hk | hk
      · rcases List.mem_cons.mp hk with rfl | hk
        · right
          rw [hv]
          rfl
        · exact Or.inl hk
      · exact Or.inr hk
    | none =>
      rw [hv] at hr
      cases hs : byKey sk key with
      | none =>
        rw [hs] at hr
        cases hr
      | some s =>
        rw [hs] at hr
        dsimp only at hr
        split at hr
        next hk =>
          cases hr
          exact hstop _ (Or.inl ⟨0, .stop hs hk⟩) rfl
        next hk =>
          rw [not_not] at hk
          split at hr
          next hnone =>
            cases hr
            exact hstop _ (Or.inl ⟨0, .lost hs hk (by simpa using hnone)⟩) rfl
          next hsome =>
            split at hr
            next hc =>
              cases hr
              exact hstop _ (Or.inr ⟨rfl, hl.cycle hs hk hc⟩) rfl
            next hc =>
              have hsome' : (byKey sk s.ret.callee).isSome := by
                cases hb : byKey sk s.ret.callee with
                | none =>
                  rw [hb] at hsome
                  exact absurd rfl hsome
                | some t => rfl
              have hl' : Linked (byKey sk) (key :: path) s.ret.callee := ⟨⟨s, hs, hk, rfl, hsome'⟩, hl⟩
              obtain ⟨hmemo, hkeep⟩ := ih hl' hr
              refine ⟨hmemo, fun k hk => hkeep k ?_⟩
              rcases hk with hk | hk
              · exact Or.inl (List.mem_cons_of_mem _ hk)
              · exact Or.inr hk

/-- The summary of a method, its transfers and returns given. -/
def summaryOf (paramVal : ParamKey → Option Transfer) (returns : String → Returned) (s : MethodSkeleton) : MethodSummary :=
  { key := s.key, params := s.params.map (summarizeParam paramVal s.key), returns := returns s.key, file := s.file,
    line := s.line }

theorem resolveReturn_memo {fuel : Nat} {retVal : String → Option Returned} {key : String} {r : String → Option Returned}
    (h : Memo sk retVal) (hr : resolveReturn sk fuel retVal key = some r) : Memo sk r ∧ ∃ v, r key = some v := by
  unfold resolveReturn at hr
  split at hr
  next hsome =>
    cases hr
    exact ⟨h, Option.isSome_iff_exists.mp hsome⟩
  next =>
    have hl : Linked (byKey sk) [] key := trivial
    obtain ⟨hmemo, hkeep⟩ := chase_memo h hl hr
    exact ⟨hmemo, Option.isSome_iff_exists.mp (hkeep key (Or.inl List.mem_cons_self))⟩

/-- Every summary returns the end of its method's chain. -/
theorem summarize_ends {fuel : Nat} {paramVal : ParamKey → Option Transfer} {l : List MethodSkeleton}
    {retVal : String → Option Returned} {out : List MethodSummary} (h : Memo sk retVal)
    (hout : summarize sk fuel paramVal l retVal = some out) : out = l.map (summaryOf paramVal (endOf (byKey sk))) := by
  induction l generalizing retVal out with
  | nil =>
    cases hout
    rfl
  | cons s l ih =>
    unfold summarize at hout
    split at hout
    next => cases hout
    next r hr =>
      obtain ⟨hmemo, v, hv⟩ := resolveReturn_memo h hr
      cases hrest : summarize sk fuel paramVal l r with
      | none =>
        rw [hrest] at hout
        cases hout
      | some rest =>
        rw [hrest] at hout
        cases hout
        rw [List.map_cons, ← ih hmemo hrest, hv]
        unfold summaryOf
        rw [← (hmemo s.key v hv).eq_endOf]
        rfl

end Chase

/-! ## The solver with its fuel -/

def disposables (sks : List MethodSkeleton) : Nat := (sks.flatMap fun s => s.params.filter ParamSkeleton.disposable).length

def fuelFor (sks : List MethodSkeleton) : Nat := 3 * disposables sks + sks.length + 1

/-- `solve_with_log`: the fuel suffices (`solved_ok`). -/
def solved (sks : List MethodSkeleton) : Except String Solution := (solveWithLog (fuelFor sks) sks).getD (.error "")

section Orders

variable {sk sk' : List MethodSkeleton}

theorem firstDuplicate_some {seen : List String} (h : firstDuplicate seen sk = none) :
    (keys sk).Nodup ∧ ∀ k ∈ seen, k ∉ keys sk := by
  induction sk generalizing seen with
  | nil => exact ⟨List.nodup_nil, fun k _ => List.not_mem_nil⟩
  | cons s rest ih =>
    unfold firstDuplicate at h
    split at h
    next => cases h
    next hnew =>
      obtain ⟨hn, hseen⟩ := ih h
      refine ⟨List.nodup_cons.mpr ⟨hseen s.key List.mem_cons_self, hn⟩, fun k hk hm => ?_⟩
      rcases List.mem_cons.mp hm with rfl | hm
      · exact hnew hk
      · exact hseen k (List.mem_cons_of_mem _ hk) hm

/-- A component has no more disposable parameters than there are. -/
theorem members_le (hn : (keys sk).Nodup) {c : List String} (hc : c ∈ sccs sk) : (membersOf sk c).length ≤ disposables sk := by
  have hnd : c.Nodup := (List.nodup_flatten.mp sccs_nodup).1 c hc
  have hsub : ∀ k ∈ c, k ∈ keys sk := fun k hk => sccs_covers.mp (List.mem_flatten.mpr ⟨c, hc, hk⟩)
  obtain ⟨l, hl, hle⟩ := List.subperm_of_subset hnd hsub
  have hall : (membersOf sk (keys sk)).length = disposables sk := by
    unfold membersOf keys disposables
    rw [List.flatMap_map, List.length_flatMap, List.length_flatMap]
    congr 1
    apply List.map_congr_left
    intro s hs
    rw [byKey_of_mem hn hs, List.length_map]
  rw [← hall]
  unfold membersOf
  rw [← (hl.flatMap_right _).length_eq]
  exact (hle.flatMap _).length_le

theorem fuelFor_enough (hn : (keys sk).Nodup) : Enough sk (fuelFor sk) := by
  intro c hc
  have := members_le hn hc
  unfold fuelFor
  omega

theorem fuelFor_perm (hp : sk.Perm sk') : fuelFor sk' = fuelFor sk := by
  unfold fuelFor disposables
  rw [(hp.flatMap_right _).length_eq, hp.length_eq]

/-- With distinct keys the solver has an answer, each summary with the end of its method's chain. -/
theorem solved_of_settled (hn : (keys sk).Nodup) {pv : ParamKey → Option Transfer}
    (hpv : settleComps sk (fuelFor sk) (sccs sk) (fun _ => none) = some pv) :
    solved sk = .ok ⟨sk.map (summaryOf pv (endOf (byKey sk))), unresolved sk⟩ := by
  have hlen : (keys sk).length < fuelFor sk + 1 := by
    unfold fuelFor keys
    rw [List.length_map]
    omega
  obtain ⟨out, hout, -⟩ := summarize_returns hlen pv sk (fun _ h => h) fun _ => none
  have hends := summarize_ends (fun k r h => by cases h) hout
  unfold solved solveWithLog
  rw [firstDuplicate_none hn fun k (hk : k ∈ []) => absurd hk List.not_mem_nil]
  simp only [hpv, Option.bind_some, hout, Option.map_some, Option.getD_some, hends]

theorem unresolved_perm (hn : (keys sk).Nodup) (hp : sk.Perm sk') : unresolved sk' = unresolved sk := by
  unfold unresolved
  rw [byKey_perm hn hp]
  exact Sorting.sort_dedup fun x => (hp.flatMap_right _).symm.mem_iff

/-- Two orders of the skeletons: the same summaries, up to order, and the same log. -/
theorem solved_perm (hn : (keys sk).Nodup) (hp : sk.Perm sk') :
    ∃ sol sol', solved sk = .ok sol ∧ solved sk' = .ok sol' ∧ sol.summaries.Perm sol'.summaries ∧ sol'.log = sol.log ∧
      (sol.summaries.map MethodSummary.key).Nodup := by
  have hn' : (keys sk').Nodup := (hp.map MethodSkeleton.key).nodup_iff.mp hn
  have hen' := fuelFor_enough hn'
  rw [fuelFor_perm hp] at hen'
  obtain ⟨pv, hpv, hpv'⟩ := settle_perm hn hp (fuelFor_enough hn) hen'
  rw [← fuelFor_perm hp] at hpv'
  refine ⟨_, _, solved_of_settled hn hpv, solved_of_settled hn' hpv', ?_, unresolved_perm hn hp, ?_⟩
  · rw [byKey_perm hn hp]
    exact hp.map _
  · rw [List.map_map]
    exact hn

theorem nodup_of_solved {sol : Solution} (h : solved sk = .ok sol) : (keys sk).Nodup := by
  unfold solved solveWithLog at h
  split at h
  next => cases h
  next hnone => exact (firstDuplicate_some hnone).1

end Orders

/-! ## Orders of the paths -/

structure AlikeParam (p q : ParamSkeleton) : Prop where
  index : q.index = p.index
  name : q.name = p.name
  disposable : q.disposable = p.disposable
  escapes : q.escapes = p.escapes
  paths : p.paths.Perm q.paths

/-- The same method, the paths of its parameters in another order. -/
structure Alike (s t : MethodSkeleton) : Prop where
  key : t.key = s.key
  params : List.Forall₂ AlikeParam s.params t.params
  ret : t.ret = s.ret
  file : t.file = s.file
  line : t.line = s.line

theorem find?_rel {α : Type} {R : α → α → Prop} {p : α → Bool} {l l' : List α} (h : List.Forall₂ R l l')
    (hp : ∀ a b, R a b → p b = p a) :
    (l.find? p = none ∧ l'.find? p = none) ∨ ∃ a b, l.find? p = some a ∧ l'.find? p = some b ∧ R a b := by
  induction h with
  | nil => exact Or.inl ⟨rfl, rfl⟩
  | @cons a b l l' hab _ ih =>
    rw [List.find?_cons, List.find?_cons, hp a b hab]
    cases p a with
    | true => exact Or.inr ⟨a, b, rfl, rfl, hab⟩
    | false => exact ih

theorem Alike.symm {s t : MethodSkeleton} (h : Alike s t) : Alike t s where
  key := h.key.symm
  params := (h.params.imp fun _ _ hpq => ⟨hpq.index.symm, hpq.name.symm, hpq.disposable.symm, hpq.escapes.symm,
    hpq.paths.symm⟩ : List.Forall₂ (fun p q => AlikeParam q p) s.params t.params).flip
  ret := h.ret.symm
  file := h.file.symm
  line := h.line.symm

theorem Alike.param {s t : MethodSkeleton} (h : Alike s t) (i : Int) :
    (s.param? i = none ∧ t.param? i = none) ∨ ∃ p q, s.param? i = some p ∧ t.param? i = some q ∧ AlikeParam p q :=
  find?_rel h.params fun a b hab => by rw [hab.index]

theorem flatMap_rel {α β : Type} {R : α → α → Prop} {l l' : List α} (h : List.Forall₂ R l l') {f g : α → List β}
    (hf : ∀ a b, R a b → (f a).Perm (g b)) : (l.flatMap f).Perm (l'.flatMap g) := by
  induction h with
  | nil => exact List.Perm.refl _
  | cons hab _ ih =>
    rw [List.flatMap_cons, List.flatMap_cons]
    exact (hf _ _ hab).append ih

theorem map_alike {ps qs : List ParamSkeleton} (h : List.Forall₂ AlikeParam ps qs) {β : Type} {f : ParamSkeleton → β}
    (hf : ∀ p q, AlikeParam p q → f q = f p) : qs.map f = ps.map f := by
  induction h with
  | nil => rfl
  | cons hab _ ih => rw [List.map_cons, List.map_cons, hf _ _ hab, ih]

theorem filter_alike {ps qs : List ParamSkeleton} (h : List.Forall₂ AlikeParam ps qs) :
    List.Forall₂ AlikeParam (ps.filter ParamSkeleton.disposable) (qs.filter ParamSkeleton.disposable) := by
  induction h with
  | nil => exact .nil
  | cons hab _ ih =>
    rw [List.filter_cons, List.filter_cons, hab.disposable]
    split
    · exact .cons hab ih
    · exact ih

theorem Alike.forwards {s t : MethodSkeleton} (h : Alike s t) : s.forwards.Perm t.forwards := by
  unfold MethodSkeleton.forwards
  rw [h.ret]
  exact (flatMap_rel h.params fun p q hpq => (hpq.paths.filter _).map _).append_right _

section Alike

variable {sk sk' : List MethodSkeleton} (h : List.Forall₂ Alike sk sk')

include h

theorem keys_alike : keys sk' = keys sk := by
  induction h with
  | nil => rfl
  | cons hab _ ih => exact congrArg₂ List.cons hab.key ih

theorem byKey_alike (k : String) :
    (byKey sk k = none ∧ byKey sk' k = none) ∨ ∃ s t, byKey sk k = some s ∧ byKey sk' k = some t ∧ Alike s t :=
  find?_rel h fun a b hab => by rw [hab.key]

theorem byKey_isSome_alike (k : String) : (byKey sk' k).isSome = (byKey sk k).isSome := by
  rcases byKey_alike h k with ⟨hs, ht⟩ | ⟨s, t, hs, ht, -⟩
  · rw [hs, ht]
  · rw [hs, ht]
    rfl

theorem byKey_some_alike {k : String} {s : MethodSkeleton} (hs : byKey sk k = some s) :
    ∃ t, byKey sk' k = some t ∧ Alike s t := by
  rcases byKey_alike h k with ⟨hs', -⟩ | ⟨s', t, hs', ht, hst⟩
  · rw [hs] at hs'
    cases hs'
  · rw [hs] at hs'
    cases hs'
    exact ⟨t, ht, hst⟩

theorem callGraph_alike : callGraph sk' = callGraph sk := by
  funext k
  unfold callGraph
  rcases byKey_alike h k with ⟨hs, ht⟩ | ⟨s, t, hs, ht, hst⟩
  · rw [hs, ht]
  · rw [hs, ht]
    refine Sorting.sort_dedup fun x => ?_
    rw [List.mem_filter, List.mem_filter, hst.forwards.mem_iff, byKey_isSome_alike h]

theorem sccs_alike : sccs sk' = sccs sk := by
  unfold sccs
  rw [callGraph_alike h, keys_alike h]

theorem membersOf_alike : membersOf sk' = membersOf sk := by
  funext comp
  unfold membersOf
  congr 1
  funext k
  rcases byKey_alike h k with ⟨hs, ht⟩ | ⟨s, t, hs, ht, hst⟩
  · rw [hs, ht]
  · rw [hs, ht]
    exact map_alike (filter_alike hst.params) fun p q hpq => by rw [hpq.index]

theorem lookup_alike (pv : ParamKey → Option Transfer) (members : List ParamKey) (cur : ParamKey → Option Transfer) :
    Ownership.lookup sk' pv members cur = Ownership.lookup sk pv members cur := by
  funext callee arg
  unfold Ownership.lookup
  rcases byKey_alike h callee with ⟨hs, ht⟩ | ⟨s, t, hs, ht, hst⟩
  · rw [hs, ht]
  · rw [hs, ht]
    simp only
    rcases hst.param arg with ⟨hp, hq⟩ | ⟨p, q, hp, hq, hpq⟩
    · rw [hp, hq]
    · rw [hp, hq]
      simp only
      rw [hpq.disposable]

theorem contrib_alike (pv : ParamKey → Option Transfer) (members : List ParamKey) (cur : ParamKey → Option Transfer) :
    contrib sk' pv members cur = contrib sk pv members cur := by
  funext a
  unfold contrib
  rw [lookup_alike h]

theorem transferOver_alike (pv : ParamKey → Option Transfer) (members : List ParamKey) (cur : ParamKey → Option Transfer)
    {paths paths' : List PathAction} (hp : paths.Perm paths') :
    transferOver sk' pv members cur paths' = transferOver sk pv members cur paths := by
  unfold transferOver
  rw [contrib_alike h]
  refine hp.symm.foldl_eq' (fun x _ y _ z => ?_) none
  rw [joinOpt_assoc, joinOpt_assoc, joinOpt_comm (contrib sk pv members cur x)]

theorem transferOf_alike : transferOf sk' = transferOf sk := by
  funext pv members cur k
  unfold transferOf
  rcases byKey_alike h k.1 with ⟨hs, ht⟩ | ⟨s, t, hs, ht, hst⟩
  · rw [hs, ht]
    rfl
  · rw [hs, ht, Option.bind_some, Option.bind_some]
    rcases hst.param k.2 with ⟨hp, hq⟩ | ⟨p, q, hp, hq, hpq⟩
    · rw [hp, hq]
    · rw [hp, hq]
      simp only
      rw [transferOver_alike h pv members cur hpq.paths, hpq.paths.isEmpty_eq]

theorem settleComps_alike (fuel : Nat) (comps : List (List String)) (pv : ParamKey → Option Transfer) :
    settleComps sk' fuel comps pv = settleComps sk fuel comps pv := by
  induction comps generalizing pv with
  | nil => rfl
  | cons c comps ih =>
    have hc : settleComp sk' fuel pv c = settleComp sk fuel pv c := by
      unfold settleComp iterateComp
      rw [membersOf_alike h, transferOf_alike h]
    rw [settleComps, settleComps, hc]
    congr 1
    funext pv
    exact ih pv

theorem chain_alike {n : Nat} {k : String} {r : Returned} (hc : Chain (byKey sk) n k r) : Chain (byKey sk') n k r := by
  induction hc with
  | @stop key s hs hk =>
    obtain ⟨t, ht, hst⟩ := byKey_some_alike h hs
    rw [← hst.ret] at hk ⊢
    exact .stop ht hk
  | @lost key s hs hk hnone =>
    obtain ⟨t, ht, hst⟩ := byKey_some_alike h hs
    rw [← hst.ret] at hk hnone
    refine .lost ht hk ?_
    have hsome := byKey_isSome_alike h t.ret.callee
    rw [hnone] at hsome
    simpa using hsome
  | @hop n key s r hs hk _ ih =>
    obtain ⟨t, ht, hst⟩ := byKey_some_alike h hs
    rw [← hst.ret] at hk ih
    exact .hop ht hk ih

theorem endOf_alike : endOf (byKey sk') = endOf (byKey sk) := by
  funext k
  have hback : List.Forall₂ Alike sk' sk := (h.imp fun _ _ hst => hst.symm : List.Forall₂ (fun s t => Alike t s) sk sk').flip
  refine (Ends.eq_endOf ?_).symm
  rcases (Ends.exists (byKey sk) k).choose_spec with ⟨n, hc⟩ | ⟨hu, hno⟩
  · exact Or.inl ⟨n, chain_alike h hc⟩
  · exact Or.inr ⟨hu, fun n r hc => hno n r (chain_alike hback hc)⟩

theorem summaries_alike (pv : ParamKey → Option Transfer) (returns : String → Returned) :
    sk'.map (summaryOf pv returns) = sk.map (summaryOf pv returns) := by
  induction h with
  | nil => rfl
  | cons hst _ ih =>
    rw [List.map_cons, List.map_cons, ih]
    congr 1
    unfold summaryOf
    rw [hst.key, hst.file, hst.line]
    congr 1
    exact map_alike hst.params fun p q hpq => by
      unfold summarizeParam
      rw [hpq.index, hpq.name, hpq.disposable, hpq.escapes]

theorem unresolved_alike : unresolved sk' = unresolved sk := by
  have hnone : ∀ k, (byKey sk' k).isNone = (byKey sk k).isNone := fun k => by
    rw [← Option.not_isSome, ← Option.not_isSome, byKey_isSome_alike h]
  unfold unresolved
  refine Sorting.sort_dedup fun x => (flatMap_rel h fun s t hst => ?_).symm.mem_iff
  rw [hst.ret, hnone]
  refine List.Perm.append_right _ (flatMap_rel (filter_alike hst.params) fun p q hpq => ?_)
  rw [hpq.index]
  rcases hst.param p.index with ⟨hp, hq⟩ | ⟨p', q', hp, hq, hpq'⟩
  · rw [hp, hq]
  · rw [hp, hq]
    simp only [hnone]
    exact (hpq'.paths.filter _).map _

theorem fuelFor_alike : fuelFor sk' = fuelFor sk := by
  have hd : disposables sk' = disposables sk := by
    unfold disposables
    rw [List.length_flatMap, List.length_flatMap]
    congr 1
    induction h with
    | nil => rfl
    | cons hst _ ih => rw [List.map_cons, List.map_cons, ih, (filter_alike hst.params).length_eq]
  have hl := h.length_eq
  unfold fuelFor
  rw [hd, hl]

/-- Two orders of the paths of parameters have the same answer. -/
theorem solved_alike (hn : (keys sk).Nodup) : solved sk' = solved sk := by
  have hn' : (keys sk').Nodup := by
    rw [keys_alike h]
    exact hn
  obtain ⟨pv, hpv, -, -⟩ := settleComps_ok (sccs sk) sccs_nodup (fuelFor_enough hn) fun _ => none
  have hpv' := hpv
  rw [← fuelFor_alike h, ← settleComps_alike h, ← sccs_alike h] at hpv'
  rw [solved_of_settled hn hpv, solved_of_settled hn' hpv', endOf_alike h, summaries_alike h, unresolved_alike h]

end Alike

end OwnNet.Ownership
