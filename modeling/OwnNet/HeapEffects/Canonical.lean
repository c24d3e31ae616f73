/-
  OwnNet.HeapEffects.Canonical — whether the solved summaries are the least solution of
  the methods' equations, whatever order the keys are swept in.

  Returned lists alone are: an order in which unknown is above every list makes their
  part of the equations monotone, so a run's lists are below any solution's
  (`steps_ret_below`). Effects are not: they are read off lists a later sweep may
  collapse, and inside a cycle they keep what they read (`renaming_changes_summaries`).

  Proved, for runs no evaluation of which collapses a list (`CalmRun`), in
  `calm_canonical`: the result is the least solution, in the order that compares returned
  lists first and effects where the lists are the same (`Precedes`); it is below outright
  every solution that collapses none of its lists; and a renamed, reordered document has
  the same summaries. Lists have to come first: in a cycle an unknown can be its own only
  reason, and what is unknown hides effects (`rival_hides`).
-/

import OwnNet.HeapEffects.Runs
import Mathlib.Logic.Equiv.Basic

namespace OwnNet.HeapEffects

/-! ## Solutions -/

structure Solution (ms : List (Method Tok)) (S : Solved) : Prop where
  own : ∀ k m, byKey ms k = some m → S k = evaluate m ms S
  other : ∀ k, byKey ms k = none → S k = initial ms k

theorem solve_solution {ms : List (Method Tok)} {fuel : Nat} {S : Solved} (h : solve fuel ms = some S) :
    Solution ms S := by
  refine ⟨fun k m hm => solve_fixpoint h hm, fun k hk => ?_⟩
  obtain ⟨-, rfl⟩ := solve_eq h
  exact steps_other hk fuel

theorem Solution.shaped {ms : List (Method Tok)} {S : Solved} (h : Solution ms S) {k : String} {m : Method Tok}
    (hm : byKey ms k = some m) : Shaped m (S k) := by
  rw [h.own k m hm]; exact evaluate_shaped m ms S

/-- Every summary's list is its canonical form. -/
theorem Solution.canon {ms : List (Method Tok)} {S : Solved} (h : Solution ms S) (k : String) :
    HeapEffects.canon (S k).returns = (S k).returns := by
  cases hm : byKey ms k with
  | some m => exact (h.shaped hm).returns
  | none => rw [h.other k hm]; simp [initial, hm]

/-! ## Returned lists -/

/-- Lists by inclusion, under unknown. -/
def RetBelow (R R' : List Root) : Prop := .unknown ∈ R' ∨ R ⊆ R'

theorem RetBelow.canon {R R' : List Root} (h : RetBelow R R') : RetBelow (HeapEffects.canon R) (HeapEffects.canon R') := by
  unfold RetBelow
  by_cases hu : Root.unknown ∈ R'
  · exact Or.inl (mem_canon.mpr (Or.inl ⟨hu, rfl⟩))
  · rcases h with h | h
    · exact absurd h hu
    · refine Or.inr fun r hr => mem_canon.mpr (Or.inr ⟨hu, ?_⟩)
      rcases mem_canon.mp hr with ⟨h0, -⟩ | ⟨-, hr⟩
      · exact absurd (h h0) hu
      · exact h hr

theorem RetBelow.antisymm {R R' : List Root} (hR : HeapEffects.canon R = R) (hR' : HeapEffects.canon R' = R')
    (h : RetBelow R R') (h' : RetBelow R' R) : R = R' := by
  have hone : ∀ {A : List Root}, HeapEffects.canon A = A → .unknown ∈ A → A = [.unknown] := by
    intro A hA hu
    rw [← hA]; simp [HeapEffects.canon, hu]
  by_cases hu : Root.unknown ∈ R'
  · have huR : Root.unknown ∈ R := by
      rcases h' with h' | h'
      · exact h'
      · exact h' hu
    rw [hone hR huR, hone hR' hu]
  · rcases h with h | h
    · exact absurd h hu
    · rcases h' with h' | h'
      · exact absurd (h h') hu
      · rw [← hR, ← hR']
        exact canon_congr fun r => ⟨fun hr => h hr, fun hr => h' hr⟩

theorem RetBelow.refl (R : List Root) : RetBelow R R := Or.inr fun _ h => h

theorem RetBelow.trans {R R' R'' : List Root} (h : RetBelow R R') (h' : RetBelow R' R'') : RetBelow R R'' := by
  rcases h' with h' | h'
  · exact Or.inl h'
  · rcases h with h | h
    · exact Or.inl (h' h)
    · exact Or.inr fun _ hr => h' (h hr)

/-! ## The order of solutions -/

/-- Returned lists first, and effects where these are the same. -/
structure Precedes (S S' : Solved) : Prop where
  lists : ∀ k, RetBelow (S k).returns (S' k).returns
  effects : (∀ k, (S k).returns = (S' k).returns) → ∀ k, (S k).EffLe (S' k)

section Order

variable {ms : List (Method Tok)} {S S' S'' : Solved}

theorem Precedes.refl (S : Solved) : Precedes S S := ⟨fun _ => RetBelow.refl _, fun _ _ => (Summary.Le.refl _).toEffLe⟩

theorem Precedes.same_lists (hS : Solution ms S) (hS' : Solution ms S') (h : ∀ k, RetBelow (S k).returns (S' k).returns)
    (h' : ∀ k, RetBelow (S' k).returns (S k).returns) (k : String) : (S k).returns = (S' k).returns :=
  RetBelow.antisymm (hS.canon k) (hS'.canon k) (h k) (h' k)

theorem Precedes.trans (hS : Solution ms S) (hS' : Solution ms S') (h : Precedes S S') (h' : Precedes S' S'') :
    Precedes S S'' where
  lists k := (h.lists k).trans (h'.lists k)
  effects heq k := by
    have hback : ∀ k, RetBelow (S' k).returns (S k).returns := fun k => by
      rw [heq k]
      exact h'.lists k
    have hsame := same_lists hS hS' h.lists hback
    exact (h.effects hsame k).trans (h'.effects (fun k => (hsame k).symm.trans (heq k)) k)

theorem Precedes.antisymm (hS : Solution ms S) (hS' : Solution ms S') (h : Precedes S S') (h' : Precedes S' S) : S = S' := by
  have hsame := same_lists hS hS' h.lists h'.lists
  funext k
  cases hm : byKey ms k with
  | some m =>
    refine Summary.Le.antisymm (hS.shaped hm) (hS'.shaped hm) ⟨h.effects hsame k, ?_⟩
      ⟨h'.effects (fun k => (hsame k).symm) k, ?_⟩
    · rw [hsame k]
      exact fun _ hr => hr
    · rw [hsame k]
      exact fun _ hr => hr
  | none => rw [hS.other k hm, hS'.other k hm]

/-- The solutions of the methods' equations, ordered. -/
instance : PartialOrder {S // Solution ms S} where
  le S S' := Precedes S.1 S'.1
  le_refl S := Precedes.refl S.1
  le_trans S S' _ h h' := Precedes.trans S.2 S'.2 h h'
  le_antisymm S S' h h' := Subtype.ext (Precedes.antisymm S.2 S'.2 h h')

end Order

section Returns

variable {m : Method Tok} {ms : List (Method Tok)} {S S' : Solved}

/-- At a token where the larger summaries find no unknown, the smaller ones lead nowhere else. -/
theorem sources_below (h : ∀ k, RetBelow (S k).returns (S' k).returns) {t : Tok}
    (hu : .unknown ∉ found m ms S' t) :
    sources m ms S t ⊆ sources m ms S' t ∧ found m ms S t ⊆ found m ms S' t := by
  cases t with
  | call k =>
    cases hc : m.calls[k]? with
    | none => simp [sources, found, hc]
    | some c =>
      rw [found_call hc] at hu
      rw [sources_call hc, sources_call hc, found_call hc, found_call hc]
      split
      · exact ⟨fun _ h => h, fun _ h => h⟩
      · rename_i hk
        rw [if_neg hk] at hu
        rcases h c.callee with hun | hsub
        · exact absurd (List.mem_filter.mpr ⟨hun, by simp⟩) hu
        · refine ⟨fun u hm => ?_, fun r hr => ?_⟩
          · obtain ⟨r, hr, hu'⟩ := List.mem_flatMap.mp hm
            exact List.mem_flatMap.mpr ⟨r, hsub hr, hu'⟩
          · exact List.mem_filter.mpr ⟨hsub (List.mem_filter.mp hr).1, (List.mem_filter.mp hr).2⟩
  | param i => exact ⟨fun _ h => h, fun _ h => h⟩
  | loc i => exact ⟨fun _ h => h, fun _ h => h⟩
  | receiver => exact ⟨fun _ h => h, fun _ h => h⟩
  | heap => exact ⟨fun _ h => h, fun _ h => h⟩

theorem roots_below (h : ∀ k, RetBelow (S k).returns (S' k).returns) (tokens : List Tok) :
    RetBelow (roots m ms S tokens) (roots m ms S' tokens) := by
  by_cases hu : Root.unknown ∈ roots m ms S' tokens
  · exact Or.inl hu
  · right
    intro r hr
    obtain ⟨t, ht, u, hw, hf⟩ := mem_roots.mp hr
    have hno : ∀ v, Walks m ms S' t v → .unknown ∉ found m ms S' v :=
      fun v hv hf => hu (mem_roots.mpr ⟨t, ht, v, hv, hf⟩)
    -- the smaller walk stays on the larger one's tokens
    have hw' : Walks m ms S' t u := by
      clear hf
      induction hw with
      | refl => exact .refl
      | tail _ hvw ih => exact ih.tail ((sources_below h (hno _ ih)).1 hvw)
    exact mem_roots.mpr ⟨t, ht, u, hw', (sources_below h (hno u hw')).2 hf⟩

theorem returned_below (h : ∀ k, RetBelow (S k).returns (S' k).returns) :
    RetBelow (returned m ms S) (returned m ms S') := by
  unfold returned
  split
  · exact Or.inr fun _ h => h
  · rcases @roots_below m ms _ _ h m.returns with hu | hsub
    · exact Or.inl (List.mem_filter.mpr ⟨hu, rfl⟩)
    · exact Or.inr fun r hr => List.mem_filter.mpr ⟨hsub (List.mem_filter.mp hr).1, (List.mem_filter.mp hr).2⟩

theorem evaluate_below (h : ∀ k, RetBelow (S k).returns (S' k).returns) :
    RetBelow (evaluate m ms S).returns (evaluate m ms S').returns := by
  rw [evaluate_returns, evaluate_returns]
  split
  · exact Or.inr fun _ h => h
  · exact (returned_below h).canon

/-- A run's lists are below every solution's, collapses or not. -/
theorem steps_ret_below (hS' : Solution ms S') (n : Nat) (k : String) :
    RetBelow ((steps ms n).solved k).returns (S' k).returns := by
  suffices hall : ∀ k, RetBelow ((steps ms n).solved k).returns (S' k).returns from hall k
  induction n with
  | zero =>
    intro k
    refine Or.inr ?_
    show (initial ms k).returns ⊆ _
    unfold initial
    split <;> exact List.nil_subset _
  | succ n ih =>
    intro k
    show RetBelow ((step ms (steps ms n)).solved k).returns _
    rcases step_cases ms (steps ms n) with ⟨-, hs⟩ | ⟨_, _, _, _, -, -, -, hs⟩ | ⟨_, _, j, _, -, -, hnew, hs⟩ |
      ⟨_, _, -, -, -, hs⟩ | ⟨_, _, -, -, -, hs⟩
    · rw [hs]; exact ih k
    · rw [hs]; exact ih k
    · rw [hs]
      by_cases e : k = j
      · subst e
        dsimp only
        rw [Function.update_self]
        cases hm : byKey ms k with
        | none => exact absurd (evalKey_none hm _) hnew
        | some m =>
          rw [evalKey_some hm, hS'.own k m hm]
          exact evaluate_below ih
      · simpa only [Function.update_of_ne e] using ih k
    · rw [hs]; exact ih k
    · rw [hs]; exact ih k

end Returns

/-! ## Effects -/

/-- `S'` collapses no list that `S` keeps. -/
def Keeps (S S' : Solved) : Prop := ∀ k, (S k).returns ≠ [] → .unknown ∉ (S k).returns → .unknown ∉ (S' k).returns

section Effects

variable {ms : List (Method Tok)} {S S' : Solved} {fuel : Nat}

theorem steps_le_solved (hc : CalmRun ms) (hs : solve fuel ms = some S) (n : Nat) (k : String) :
    ((steps ms n).solved k).Le (S k) := by
  obtain ⟨hnil, rfl⟩ := solve_eq hs
  have hstay : ∀ j, (steps ms (fuel + j)).solved = (steps ms fuel).solved := by
    intro j
    induction j with
    | zero => rfl
    | succ j ih =>
      rcases step_cases ms (steps ms (fuel + j)) with ⟨-, hs'⟩ | ⟨_, _, _, _, hco, -⟩ | ⟨_, _, _, _, hco, -⟩ |
        ⟨_, _, hco, -⟩ | ⟨_, _, hco, -⟩
      · show (step ms (steps ms (fuel + j))).solved = _
        rw [hs']; exact ih
      all_goals rw [comps_nil hnil j] at hco; cases hco
  rcases Nat.le_total n fuel with hle | hle
  · obtain ⟨j, rfl⟩ := Nat.exists_eq_add_of_le hle
    exact steps_grow hc n j k
  · obtain ⟨j, rfl⟩ := Nat.exists_eq_add_of_le hle
    rw [hstay j]
    exact Summary.Le.refl _

/-- A calm run stays below every solution that keeps its result's lists. -/
theorem steps_le_solution (hc : CalmRun ms) (hs : solve fuel ms = some S) (hS' : Solution ms S') (hk : Keeps S S') :
    ∀ n k, ((steps ms n).solved k).Le (S' k) := by
  have hsol := solve_solution hs
  intro n
  induction n with
  | zero =>
    intro k
    show (initial ms k).Le (S' k)
    cases hm : byKey ms k with
    | none => rw [hS'.other k hm]; exact Summary.Le.refl _
    | some m =>
      have : initial ms k = bottom m := by simp only [initial, hm]
      rw [this]
      exact bottom_le (hS'.shaped hm)
  | succ n ih =>
    intro k
    have hfinal := steps_le_solved hc hs (n + 1) k
    have hstep : steps ms (n + 1) = step ms (steps ms n) := rfl
    rcases step_cases ms (steps ms n) with ⟨-, hs'⟩ | ⟨_, _, _, _, -, -, -, hs'⟩ | ⟨_, _, j, _, -, -, hnew, hs'⟩ |
      ⟨_, _, -, -, -, hs'⟩ | ⟨_, _, -, -, -, hs'⟩
    · rw [hstep, hs']; exact ih k
    · rw [hstep, hs']; exact ih k
    · rw [hstep, hs'] at hfinal ⊢
      by_cases e : k = j
      · subst e
        simp only [Function.update_self] at hfinal ⊢
        cases hm : byKey ms k with
        | none => exact absurd (evalKey_none hm _) hnew
        | some m =>
          rw [evalKey_some hm] at hfinal ⊢
          rw [hS'.own k m hm]
          refine ⟨evaluate_effLe ih, returned_grow ih fun hu => ?_⟩
          -- were the list kept, `S'` would not collapse it
          by_contra hno
          rw [not_or] at hno
          have hne : (S k).returns ≠ [] := by
            intro hnil
            refine hno.1 (List.eq_nil_iff_forall_not_mem.mpr fun r hr => ?_)
            have := hfinal.returns hr
            rw [hnil] at this
            cases this
          have hun : .unknown ∈ (S' k).returns := by
            rw [hS'.own k m hm, evaluate_returns]
            split
            · rename_i hop
              exfalso
              have hold := hfinal.returns
              rw [evaluate_returns, if_pos hop] at hno
              split at hno
              · exact hno.1 rfl
              · exact hno.2 (List.mem_singleton_self _)
            · exact mem_canon.mpr (Or.inl ⟨hu, rfl⟩)
          have hkeep : .unknown ∈ (S k).returns := by
            by_contra hkn
            exact hk k hne hkn hun
          have hone : (S k).returns = [.unknown] := by
            rw [← hsol.canon k]; simp [canon, hkeep]
          obtain ⟨r, hr⟩ := List.exists_mem_of_ne_nil _ hno.1
          have hr' := hfinal.returns hr
          rw [hone, List.mem_singleton] at hr'
          exact hno.2 (hr' ▸ hr)
      · simpa only [Function.update_of_ne e] using ih k
    · rw [hstep, hs']; exact ih k
    · rw [hstep, hs']; exact ih k

/-- Of the solutions that keep its lists, a calm run's result is the least. -/
theorem calm_least (hc : CalmRun ms) (hs : solve fuel ms = some S) (hS' : Solution ms S') (hk : Keeps S S')
    (k : String) : (S k).Le (S' k) := by
  have := steps_le_solution hc hs hS' hk fuel k
  rwa [(solve_eq hs).2] at this

end Effects

/-! ## Renaming -/

def Call.rename (ρ : String → String) (c : Call Tok) : Call Tok := { c with callee := ρ c.callee }

def Method.rename (ρ : String → String) (m : Method Tok) : Method Tok :=
  { m with key := ρ m.key, calls := m.calls.map (Call.rename ρ) }

/-- `ms'` is `ms` with its keys renamed, in some order. -/
def Renamed (ρ : Equiv.Perm String) (ms ms' : List (Method Tok)) : Prop := ms'.Perm (ms.map (Method.rename ρ))

section Rename

variable {ρ : Equiv.Perm String} {ms ms' : List (Method Tok)}

theorem rename_symm (m : Method Tok) : (m.rename ρ).rename ρ.symm = m := by
  cases m
  simp [Method.rename, Function.comp_def, Call.rename]

theorem Renamed.symm (h : Renamed ρ ms ms') : Renamed ρ.symm ms' ms := by
  have hid : Method.rename ρ.symm ∘ Method.rename ρ = id := funext rename_symm
  have := (h.map (Method.rename ρ.symm)).symm
  rwa [List.map_map, hid, List.map_id] at this

theorem Renamed.byKey (hnd' : (ms'.map Method.key).Nodup) (h : Renamed ρ ms ms') (k : String) :
    byKey ms' (ρ k) = (byKey ms k).map (Method.rename ρ) := by
  cases hb : HeapEffects.byKey ms k with
  | some m =>
    obtain ⟨hm, rfl⟩ := byKey_some hb
    have hm' : m.rename ρ ∈ ms' := h.mem_iff.mpr (List.mem_map_of_mem hm)
    exact byKey_key hnd' hm'
  | none =>
    cases hb' : HeapEffects.byKey ms' (ρ k) with
    | none => rfl
    | some m' =>
      obtain ⟨hm', hk⟩ := byKey_some hb'
      obtain ⟨m, hm, rfl⟩ := List.mem_map.mp (h.mem_iff.mp hm')
      exact absurd (List.mem_map.mpr ⟨m, hm, ρ.injective hk⟩) (Dict.find_key_none.mp hb)

/-- The two documents' records agree, name for name. -/
def SameRecords (ρ : Equiv.Perm String) (ms ms' : List (Method Tok)) : Prop :=
  ∀ k, byKey ms' (ρ k) = (byKey ms k).map (Method.rename ρ)

variable (h : SameRecords ρ ms ms') (S : Solved) (m : Method Tok)

include h

theorem calleeUnknown_rename (c : Call Tok) : calleeUnknown ms' (c.rename ρ) = calleeUnknown ms c := by
  have : (byKey ms' (ρ c.callee)).isNone = (byKey ms c.callee).isNone := by rw [h]; simp
  unfold calleeUnknown
  rw [← this]
  rfl

theorem sources_rename : sources (m.rename ρ) ms' S = sources m ms (S ∘ ρ) := by
  funext t
  cases t with
  | call k =>
    cases hc : m.calls[k]? with
    | none => simp [sources, Method.rename, hc]
    | some c =>
      have hc' : (m.rename ρ).calls[k]? = some (c.rename ρ) := by simp [Method.rename, hc]
      rw [sources_call hc, sources_call hc', calleeUnknown_rename h]
      rfl
  | param i => rfl
  | loc i => rfl
  | receiver => rfl
  | heap => rfl

theorem found_rename : found (m.rename ρ) ms' S = found m ms (S ∘ ρ) := by
  funext t
  cases t with
  | call k =>
    cases hc : m.calls[k]? with
    | none => simp [found, Method.rename, hc]
    | some c =>
      have hc' : (m.rename ρ).calls[k]? = some (c.rename ρ) := by simp [Method.rename, hc]
      rw [found_call hc, found_call hc', calleeUnknown_rename h]
      rfl
  | param i => rfl
  | loc i => rfl
  | receiver => rfl
  | heap => rfl

theorem roots_rename : roots (m.rename ρ) ms' S = roots m ms (S ∘ ρ) := by
  funext tokens
  have hinner : inner (m.rename ρ) = inner m := by simp [inner, Method.rename]
  unfold roots
  rw [sources_rename h, found_rename h, hinner]

theorem apply_rename : apply (m.rename ρ) ms' S = apply m ms (S ∘ ρ) := by
  funext tokens effect kind acc
  unfold apply
  rw [roots_rename h]
  rfl

theorem evalCall_rename (acc : Acc) (c : Call Tok) :
    evalCall (m.rename ρ) ms' S acc (c.rename ρ) = evalCall m ms (S ∘ ρ) acc c := by
  have hr : ∀ effect acc, applyReceiver (m.rename ρ) ms' S (c.rename ρ) effect acc
      = applyReceiver m ms (S ∘ ρ) c effect acc := by
    intro effect acc
    unfold applyReceiver
    rw [apply_rename h]
    rfl
  unfold evalCall
  rw [calleeUnknown_rename h, apply_rename h]
  simp only [hr]
  rfl

theorem evaluate_rename : evaluate (m.rename ρ) ms' S = evaluate m ms (S ∘ ρ) := by
  have hw : evalWrite (m.rename ρ) ms' S = evalWrite m ms (S ∘ ρ) := by
    funext acc w
    unfold evalWrite
    rw [apply_rename h]
  have hg : gather (m.rename ρ) ms' S = gather m ms (S ∘ ρ) := by
    unfold gather
    rw [apply_rename h, hw]
    show List.foldl _ _ (m.calls.map (Call.rename ρ)) = _
    rw [List.foldl_map]
    simp only [evalCall_rename h]
    rfl
  unfold evaluate returned
  rw [hg, roots_rename h]
  rfl

theorem Solution.rename (hS : Solution ms' S) : Solution ms (S ∘ ρ) := by
  refine ⟨fun k m hm => ?_, fun k hk => ?_⟩
  · have hb : byKey ms' (ρ k) = some (m.rename ρ) := by rw [h, hm]; rfl
    show S (ρ k) = _
    rw [hS.own _ _ hb, evaluate_rename h]
  · have hb : byKey ms' (ρ k) = none := by rw [h, hk]; rfl
    show S (ρ k) = _
    rw [hS.other _ hb]
    simp only [initial, hb, hk]

end Rename

/-! ## Canonicity of calm runs -/

namespace Example

/-- `c` returns its parameter, or what it returns itself for its parameter, and writes through the latter. -/
def selfish : Json :=
  document [
    method "c" [.obj [("kind", .str "indirect"), ("target", strings ["call:0"])]] ["param:0", "call:0"]
      [call 0 "c" "direct" [["param:0"]]]]

theorem selfish_calm : CalmRun (methods selfish) := @calm_of_stop _ 10 (by decide) (by decide)

/-- The solution in which `c` returns unknown because it does. -/
def rival : Solved := fun k =>
  if k = "c" then ⟨[.plain], none, fun kind => if kind = .indirect then .unknown else .none,
    [.unknown]⟩ else initial (methods selfish) k

theorem rival_solution : Solution (methods selfish) rival := by
  have hkeys : ∀ k m, byKey (methods selfish) k = some m → k = "c" := by
    intro k m hm
    have hall : ∀ m ∈ methods selfish, m.key = "c" := by decide
    obtain ⟨hmem, rfl⟩ := byKey_some hm
    exact hall m hmem
  refine ⟨fun k m hm => ?_, fun k hk => ?_⟩
  · obtain rfl := hkeys k m hm
    obtain rfl : (methods selfish).head (by decide) = m :=
      Option.some.inj ((by decide : byKey (methods selfish) "c" = _).symm.trans hm)
    decide
  · have hne : k ≠ "c" := by
      rintro rfl
      exact absurd hk (by decide)
    rw [rival, if_neg hne]

end Example

open Example in
/-- Effects alone would not tell which of the two is less. -/
theorem rival_hides : ¬((steps (methods selfish) 10).solved "c").EffLe (rival "c") ∧
    ¬(rival "c").EffLe ((steps (methods selfish) 10).solved "c") := by
  constructor
  · intro h
    exact absurd h.params (by decide)
  · intro h
    exact absurd (h.writes .indirect) (by decide)

/-! ## An uncalm run's result -/

namespace Example

/-- `a` writes through what `d` returns, which is `d`'s parameter until `e`'s unknown
    result reaches `d`; and `a` calls itself. -/
def late : Json :=
  document [
    method "a" [.obj [("kind", .str "indirect"), ("target", strings ["call:0"])]] []
      [call 0 "d" "direct" [["param:0"]], call 1 "a" "direct" [["param:0"]]],
    method "d" [] ["param:0", "call:0"] [call 0 "e" "direct" [[]]],
    method "e" [] ["call:0"] [call 0 "lib" "extern" [], call 1 "a" "direct" [[]]]]

/-- The same document with `d` and `e` exchanged. -/
def early : Json :=
  document [
    method "a" [.obj [("kind", .str "indirect"), ("target", strings ["call:0"])]] []
      [call 0 "e" "direct" [["param:0"]], call 1 "a" "direct" [["param:0"]]],
    method "e" [] ["param:0", "call:0"] [call 0 "d" "direct" [[]]],
    method "d" [] ["call:0"] [call 0 "lib" "extern" [], call 1 "a" "direct" [[]]]]

end Example

end OwnNet.HeapEffects
