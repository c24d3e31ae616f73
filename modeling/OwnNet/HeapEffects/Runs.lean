/-
  OwnNet.HeapEffects.Runs — the runs of the solver's machine.

  Proved:
  - `solve_fixpoint`: where `solve` returns, every method's summary is its own
    evaluation. Components are settled callees first, and settling one leaves the
    earlier ones settled (`step_settling`).
  - `steps_grow`: in a run no evaluation of which collapses a returned list to unknown
    (`CalmRun`), summaries only grow.
  - `calm_solve_returns`: such a run stops. Each change adds a fact to a bounded set.
  - `solve_may_not_return`: a run with one collapse sweeps four methods for ever.
-/

import OwnNet.HeapEffects.Transfer
import Mathlib.Data.Finset.Card
import Mathlib.Data.Prod.Lex
import Mathlib.Order.WellFounded

namespace OwnNet.HeapEffects

/-! ## The components -/

section Components

variable {ms : List (Method Tok)}

theorem mem_sortKeys {k : String} {ks : List String} : k ∈ sortKeys ks ↔ k ∈ ks := List.mem_insertionSort _

theorem mem_keys {k : String} : k ∈ keys ms ↔ ∃ m, byKey ms k = some m := by
  unfold keys
  rw [mem_sortKeys, List.mem_map]
  constructor
  · intro h
    exact Dict.exists_find_key (List.mem_map.mpr h)
  · rintro ⟨m, hm⟩
    obtain ⟨hmem, hkey⟩ := byKey_some hm
    exact ⟨m, hmem, hkey⟩

theorem mem_callees {m : Method Tok} {k w : String} (hm : byKey ms k = some m) :
    w ∈ callees ms k ↔ ∃ c ∈ m.calls, calleeUnknown ms c = false ∧ c.callee = w := by
  unfold callees
  rw [hm]
  simp only [mem_sortKeys, List.mem_dedup, List.mem_map, List.mem_filter, Bool.not_eq_eq_eq_not, Bool.not_true]
  constructor
  · rintro ⟨c, ⟨hc, hk⟩, hw⟩
    exact ⟨c, hc, hk, hw⟩
  · rintro ⟨c, hc, hk, hw⟩
    exact ⟨c, ⟨hc, hk⟩, hw⟩

theorem callees_keys : ∀ k ∈ keys ms, ∀ w ∈ callees ms k, w ∈ keys ms := by
  intro k hk w hw
  obtain ⟨m, hm⟩ := mem_keys.mp hk
  obtain ⟨c, hc, hku, rfl⟩ := (mem_callees hm).mp hw
  exact mem_keys.mpr (resolved_iff.mp hku).2

theorem flatten_sort (l : List (List String)) (k : String) : k ∈ (l.map sortKeys).flatten ↔ k ∈ l.flatten := by
  simp only [List.mem_flatten, List.mem_map]
  constructor
  · rintro ⟨_, ⟨c, hc, rfl⟩, hk⟩
    exact ⟨c, hc, mem_sortKeys.mp hk⟩
  · rintro ⟨c, hc, hk⟩
    exact ⟨_, ⟨c, hc, rfl⟩, mem_sortKeys.mpr hk⟩

theorem mem_sccs (k : String) : k ∈ (sccs ms).flatten ↔ k ∈ keys ms := by
  unfold sccs
  rw [flatten_sort, Graph.Tarjan.run_covers callees_keys]

theorem sccs_nodup : (sccs ms).flatten.Nodup := by
  have h := @Graph.Tarjan.run_nodup _ _ (callees ms) (keys ms) callees_keys
  unfold sccs
  have hperm : ∀ l : List (List String), (l.map sortKeys).flatten.Perm l.flatten := by
    intro l
    induction l with
    | nil => exact List.Perm.refl _
    | cons c l ih => exact (List.perm_insertionSort _ c).append ih
  exact (hperm _).nodup_iff.mpr h

/-- Callees first: a component's callees are in it or in an earlier one. -/
theorem sccs_topo {pre post : List (List String)} {comp : List String} (h : sccs ms = pre ++ comp :: post) {k w : String}
    (hk : k ∈ comp) (hw : w ∈ callees ms k) : w ∈ comp ∨ w ∈ pre.flatten := by
  unfold sccs at h
  obtain ⟨pre', rest, hrun, rfl, hrest⟩ := List.map_eq_append_iff.mp h
  obtain ⟨c, post', rfl, rfl, rfl⟩ := List.map_eq_cons_iff.mp hrest
  rcases @Graph.Tarjan.run_topo _ _ (callees ms) (keys ms) callees_keys pre' c post' hrun k (mem_sortKeys.mp hk) w hw with h | h
  · exact Or.inl (mem_sortKeys.mpr h)
  · exact Or.inr ((flatten_sort _ _).mpr h)

end Components

/-! ## Settling -/

section Settling

variable {ms : List (Method Tok)}

theorem evalKey_some {k : String} {m : Method Tok} (h : byKey ms k = some m) (S : Solved) :
    evalKey ms S k = evaluate m ms S := by
  simp only [evalKey, h]

theorem evalKey_none {k : String} (h : byKey ms k = none) (S : Solved) : evalKey ms S k = S k := by
  simp only [evalKey, h]

theorem evalKey_congr {k : String} {S S' : Solved} (hk : k ∈ keys ms) (h : ∀ w ∈ callees ms k, S w = S' w) :
    evalKey ms S k = evalKey ms S' k := by
  obtain ⟨m, hm⟩ := mem_keys.mp hk
  rw [evalKey_some hm, evalKey_some hm]
  exact evaluate_congr fun c hc hu => h c.callee ((mem_callees hm).mpr ⟨c, hc, hu, rfl⟩)

theorem steps_inv {P : Config → Prop} (h0 : P (start ms)) (hs : ∀ c, P c → P (step ms c)) : ∀ n, P (steps ms n) := by
  intro n
  induction n with
  | zero => exact h0
  | succ n ih => exact hs _ ih

/-- What one step does: evaluate the next key, sweep again, or move on. -/
theorem step_cases (ms : List (Method Tok)) (c : Config) :
    (c.comps = [] ∧ step ms c = c) ∨
    (∃ comp rest k ks, c.comps = comp :: rest ∧ c.todo = k :: ks ∧ evalKey ms c.solved k = c.solved k ∧
      step ms c = ⟨comp :: rest, ks, c.changed, c.solved⟩) ∨
    (∃ comp rest k ks, c.comps = comp :: rest ∧ c.todo = k :: ks ∧ evalKey ms c.solved k ≠ c.solved k ∧
      step ms c = ⟨comp :: rest, ks, true, Function.update c.solved k (evalKey ms c.solved k)⟩) ∨
    (∃ comp rest, c.comps = comp :: rest ∧ c.todo = [] ∧ c.changed = true ∧
      step ms c = ⟨comp :: rest, comp, false, c.solved⟩) ∨
    (∃ comp rest, c.comps = comp :: rest ∧ c.todo = [] ∧ c.changed = false ∧ step ms c = .enter rest c.solved) := by
  obtain ⟨comps, todo, changed, solved⟩ := c
  cases comps with
  | nil => exact Or.inl ⟨rfl, rfl⟩
  | cons comp rest =>
    cases todo with
    | nil =>
      cases changed with
      | true => exact Or.inr (Or.inr (Or.inr (Or.inl ⟨comp, rest, rfl, rfl, rfl, rfl⟩)))
      | false => exact Or.inr (Or.inr (Or.inr (Or.inr ⟨comp, rest, rfl, rfl, rfl, rfl⟩)))
    | cons k ks =>
      by_cases hnew : evalKey ms solved k = solved k
      · exact Or.inr (Or.inl ⟨comp, rest, k, ks, rfl, rfl, hnew, by simp [step, hnew]⟩)
      · exact Or.inr (Or.inr (Or.inl ⟨comp, rest, k, ks, rfl, rfl, hnew, by simp [step, hnew]⟩))

def Stable (ms : List (Method Tok)) (S : Solved) (k : String) : Prop := evalKey ms S k = S k

/-- Earlier components are stable; so is what an unchanged sweep has passed. -/
structure Settling (ms : List (Method Tok)) (c : Config) : Prop where
  done : ∃ pre, sccs ms = pre ++ c.comps ∧ ∀ k ∈ pre.flatten, Stable ms c.solved k
  sweep : ∃ passed, c.comps.headD [] = passed ++ c.todo ∧ (c.changed = false → ∀ k ∈ passed, Stable ms c.solved k)

theorem enter_settling {comps : List (List String)} {S : Solved}
    (h : ∃ pre, sccs ms = pre ++ comps ∧ ∀ k ∈ pre.flatten, Stable ms S k) : Settling ms (.enter comps S) :=
  ⟨h, [], rfl, fun _ _ hk => absurd hk List.not_mem_nil⟩

theorem step_settling {c : Config} (h : Settling ms c) : Settling ms (step ms c) := by
  obtain ⟨pre, hpre, hdone⟩ := h.done
  obtain ⟨passed, hpass, hsweep⟩ := h.sweep
  rcases step_cases ms c with ⟨-, hs⟩ | ⟨comp, rest, k, ks, hc, ht, hnew, hs⟩ | ⟨comp, rest, k, ks, hc, ht, hnew, hs⟩ |
    ⟨comp, rest, hc, ht, hch, hs⟩ | ⟨comp, rest, hc, ht, hch, hs⟩
  · rw [hs]; exact h
  · rw [hs]
    rw [hc] at hpre hpass
    refine ⟨⟨pre, hpre, hdone⟩, passed ++ [k], ?_, fun hch j hj => ?_⟩
    · rw [hpass, ht]; simp
    · rcases List.mem_append.mp hj with hj | hj
      · exact hsweep hch j hj
      · rw [List.mem_singleton.mp hj]; exact hnew
  · rw [hs]
    rw [hc] at hpre hpass
    have hk : k ∈ comp := by
      have : comp = passed ++ k :: ks := by rw [← ht]; exact hpass
      rw [this]; simp
    have hnd := @sccs_nodup ms
    rw [hpre, List.flatten_append, List.nodup_append] at hnd
    refine ⟨⟨pre, hpre, fun j hj => ?_⟩, passed ++ [k], ?_, fun hch => by cases hch⟩
    · -- an earlier component reads earlier summaries only
      have hkpre : ∀ w ∈ pre.flatten, w ≠ k := fun w hw e =>
        hnd.2.2 w hw k (by simp only [List.flatten_cons]; exact List.mem_append_left _ hk) e
      have hjk : j ∈ keys ms := (mem_sccs j).mp (by rw [hpre, List.flatten_append]; exact List.mem_append_left _ hj)
      obtain ⟨cj, hcj, hjc⟩ := List.mem_flatten.mp hj
      obtain ⟨a, b, hab⟩ := List.append_of_mem hcj
      have hcal : ∀ w ∈ callees ms j, w ∈ pre.flatten := by
        intro w hw
        have hsplit : sccs ms = a ++ cj :: (b ++ comp :: rest) := by rw [hpre, hab]; simp
        rw [hab]
        rcases sccs_topo hsplit hjc hw with hw | hw
        · exact List.mem_flatten.mpr ⟨cj, by simp, hw⟩
        · rw [List.flatten_append]; exact List.mem_append_left _ hw
      have hsame : evalKey ms (Function.update c.solved k (evalKey ms c.solved k)) j = evalKey ms c.solved j :=
        evalKey_congr hjk fun w hw => Function.update_of_ne (hkpre w (hcal w hw)) _ _
      show evalKey ms _ j = Function.update c.solved k (evalKey ms c.solved k) j
      rw [hsame, Function.update_of_ne (hkpre j hj)]
      exact hdone j hj
    · rw [hpass, ht]; simp
  · rw [hs]
    rw [hc] at hpre
    exact ⟨⟨pre, hpre, hdone⟩, [], rfl, fun _ _ hk => absurd hk List.not_mem_nil⟩
  · rw [hs]
    rw [hc] at hpre hpass
    refine enter_settling ⟨pre ++ [comp], by rw [hpre]; simp, fun k hk => ?_⟩
    rw [List.flatten_append] at hk
    rcases List.mem_append.mp hk with hk | hk
    · exact hdone k hk
    · refine hsweep hch k ?_
      have : comp = passed := by simpa [ht] using hpass
      simpa [this] using hk

theorem steps_settling (ms : List (Method Tok)) : ∀ n, Settling ms (steps ms n) :=
  steps_inv (enter_settling ⟨[], rfl, fun _ hk => absurd hk List.not_mem_nil⟩) fun _ => step_settling

theorem solve_eq {fuel : Nat} {S : Solved} (h : solve fuel ms = some S) :
    (steps ms fuel).comps = [] ∧ (steps ms fuel).solved = S := by
  unfold solve at h
  split at h
  · rename_i hc
    cases h
    exact ⟨by simpa using hc, rfl⟩
  · cases h

/-- Where the solver returns, every summary is its method's own evaluation. -/
theorem solve_fixpoint {fuel : Nat} {S : Solved} (h : solve fuel ms = some S) {k : String} {m : Method Tok}
    (hm : byKey ms k = some m) : S k = evaluate m ms S := by
  obtain ⟨hc, rfl⟩ := solve_eq h
  obtain ⟨pre, hpre, hdone⟩ := (steps_settling ms fuel).done
  rw [hc, List.append_nil] at hpre
  have hk : k ∈ pre.flatten := by rw [← hpre, mem_sccs]; exact mem_keys.mpr ⟨m, hm⟩
  rw [← evalKey_some hm]
  exact (hdone k hk).symm

end Settling

/-! ## Calm runs -/

/-- The evaluation of `m` would collapse a list of known roots to unknown. -/
def Collapses (m : Method Tok) (ms : List (Method Tok)) (S : Solved) : Prop :=
  (S m.key).returns ≠ [] ∧ .unknown ∉ (S m.key).returns ∧ .unknown ∈ returned m ms S

/-- The machine's next step, if it is an evaluation, collapses nothing. -/
def CalmStep (ms : List (Method Tok)) (c : Config) : Prop :=
  ∀ comp rest k ks m, c.comps = comp :: rest → c.todo = k :: ks → byKey ms k = some m → ¬ Collapses m ms c.solved

def CalmRun (ms : List (Method Tok)) : Prop := ∀ n, CalmStep ms (steps ms n)

instance (m : Method Tok) (ms : List (Method Tok)) (S : Solved) : Decidable (Collapses m ms S) :=
  inferInstanceAs (Decidable (_ ∧ _ ∧ _))

/-- The method that is evaluated next. -/
def evaluated (ms : List (Method Tok)) (c : Config) : Option (Method Tok) :=
  match c.comps, c.todo with
  | _ :: _, k :: _ => byKey ms k
  | _, _ => none

theorem calmStep_iff {ms : List (Method Tok)} {c : Config} : CalmStep ms c ↔ ∀ m ∈ evaluated ms c, ¬Collapses m ms c.solved := by
  obtain ⟨comps, todo, changed, solved⟩ := c
  cases comps with
  | nil => exact ⟨fun _ m hm => (by cases hm), fun _ comp rest k ks m hco => by cases hco⟩
  | cons comp rest =>
    cases todo with
    | nil => exact ⟨fun _ m hm => (by cases hm), fun _ comp rest k ks m _ ht => by cases ht⟩
    | cons k ks =>
      constructor
      · intro h m hm
        exact h comp rest k ks m rfl rfl hm
      · rintro h comp' rest' k' ks' m hco ht hm
        cases ht
        exact h m hm

instance (ms : List (Method Tok)) (c : Config) : Decidable (CalmStep ms c) := decidable_of_iff _ calmStep_iff.symm

section Calm

variable {ms : List (Method Tok)}

/-- Every summary is the bottom one or an evaluation at smaller summaries. -/
def Grown (ms : List (Method Tok)) (S : Solved) : Prop :=
  ∀ k m, byKey ms k = some m → S k = bottom m ∨ ∃ S0 : Solved, (∀ j, (S0 j).Le (S j)) ∧ S k = evaluate m ms S0

theorem Grown.shaped {S : Solved} (h : Grown ms S) {k : String} {m : Method Tok} (hm : byKey ms k = some m) :
    Shaped m (S k) := by
  rcases h k m hm with hb | ⟨S0, -, he⟩
  · rw [hb]; exact bottom_shaped m
  · rw [he]; exact evaluate_shaped m ms S0

theorem returned_grow {m : Method Tok} {S0 S : Solved} (hle : ∀ j, (S0 j).Le (S j))
    (hc : .unknown ∈ returned m ms S → (evaluate m ms S0).returns = [] ∨ .unknown ∈ (evaluate m ms S0).returns) :
    (evaluate m ms S0).returns ⊆ (evaluate m ms S).returns := by
  rw [evaluate_returns, evaluate_returns] at *
  split
  · exact fun _ h => h
  · rename_i hu
    rw [if_neg hu] at hc
    intro r hr
    rw [mem_canon]
    by_cases hun : Root.unknown ∈ returned m ms S
    · refine Or.inl ⟨hun, ?_⟩
      rcases hc hun with hnil | hmem
      · rw [hnil] at hr; cases hr
      · rcases mem_canon.mp hmem with ⟨h0, -⟩ | ⟨h0, h1⟩
        · rcases mem_canon.mp hr with ⟨-, hr⟩ | ⟨hn, -⟩
          · exact hr
          · exact absurd h0 hn
        · exact absurd h1 h0
    · refine Or.inr ⟨hun, ?_⟩
      have hmono := @returned_mono m ms _ _ fun j => (hle j).returns
      rcases mem_canon.mp hr with ⟨h0, -⟩ | ⟨-, hr⟩
      · exact absurd (hmono h0) hun
      · exact hmono hr

theorem Grown.le_evaluate {S : Solved} (h : Grown ms S) {k : String} {m : Method Tok} (hm : byKey ms k = some m)
    (hc : ¬ Collapses m ms S) : (S k).Le (evaluate m ms S) := by
  rcases h k m hm with hb | ⟨S0, hle, he⟩
  · rw [hb]; exact bottom_le (evaluate_shaped m ms S)
  · have hret : (evaluate m ms S0).returns ⊆ (evaluate m ms S).returns := by
      refine returned_grow hle fun hu => ?_
      rw [← he, ← (byKey_some hm).2]
      by_contra hno
      rw [not_or] at hno
      exact hc ⟨hno.1, hno.2, hu⟩
    rw [he]
    exact ⟨evaluate_effLe hle, hret⟩

theorem step_grown {c : Config} (hc : CalmStep ms c) (h : Grown ms c.solved) :
    Grown ms (step ms c).solved ∧ ∀ j, (c.solved j).Le ((step ms c).solved j) := by
  have hsame : ∀ {S : Solved}, S = c.solved → Grown ms S ∧ ∀ j, (c.solved j).Le (S j) := by
    rintro S rfl
    exact ⟨h, fun j => Summary.Le.refl _⟩
  rcases step_cases ms c with ⟨-, hs⟩ | ⟨comp, rest, k, ks, -, -, -, hs⟩ | ⟨comp, rest, k, ks, hco, ht, hnew, hs⟩ |
    ⟨comp, rest, -, -, -, hs⟩ | ⟨comp, rest, -, -, -, hs⟩
  · rw [hs]; exact hsame rfl
  · rw [hs]; exact hsame rfl
  · rw [hs]
    cases hm : byKey ms k with
    | none => exact absurd (evalKey_none hm _) hnew
    | some m =>
      have hle := h.le_evaluate hm (hc comp rest k ks m hco ht hm)
      rw [evalKey_some hm]
      have hall : ∀ j, (c.solved j).Le (Function.update c.solved k (evaluate m ms c.solved) j) := by
        intro j
        by_cases e : j = k
        · subst e; rw [Function.update_self]; exact hle
        · rw [Function.update_of_ne e]; exact Summary.Le.refl _
      refine ⟨fun j mj hmj => ?_, hall⟩
      by_cases e : j = k
      · subst e
        rw [hm] at hmj
        cases hmj
        exact Or.inr ⟨c.solved, hall, Function.update_self _ _ _⟩
      · rcases h j mj hmj with hb | ⟨S0, hle0, he⟩
        · exact Or.inl (by simpa only [Function.update_of_ne e] using hb)
        · exact Or.inr ⟨S0, fun i => (hle0 i).trans (hall i), by simpa only [Function.update_of_ne e] using he⟩
  · rw [hs]; exact hsame rfl
  · rw [hs]; exact hsame rfl

theorem initial_grown (ms : List (Method Tok)) : Grown ms (initial ms) := by
  intro k m hm
  exact Or.inl (by simp only [initial, hm])

theorem steps_grown (hc : CalmRun ms) : ∀ n, Grown ms (steps ms n).solved := by
  intro n
  induction n with
  | zero => exact initial_grown ms
  | succ n ih => exact (step_grown (hc n) ih).1

/-- In a calm run summaries only grow. -/
theorem steps_grow (hc : CalmRun ms) (n j : Nat) (k : String) :
    ((steps ms n).solved k).Le ((steps ms (n + j)).solved k) := by
  induction j with
  | zero => exact Summary.Le.refl _
  | succ j ih => exact ih.trans ((step_grown (hc (n + j)) (steps_grown hc (n + j))).2 k)

end Calm

/-! ## Termination -/

/-- One thing a summary may say. -/
inductive Fact where
  | param (j : Nat) (e : Effect)
  | receiver (e : Effect)
  | write (kind : WriteKind) (l : Level)
  | ret (r : Root)
  deriving DecidableEq

def Summary.tells (s : Summary) : Fact → Bool
  | .param j e => (s.params[j]?).any fun e' => e ≤ e'
  | .receiver e => s.receiver.any fun e' => e ≤ e'
  | .write kind l => l ≤ s.writes kind
  | .ret r => r ∈ s.returns

def Effect.all : List Effect := [.plain, .borrow, .borrowMut, .mayEscape, .unknown]

def Level.all : List Level := [.none, .may, .unknown]

/-- All that a summary of `m` may say. -/
def factsOf (m : Method Tok) : List Fact :=
  (List.range m.params.length).flatMap (fun j => Effect.all.map (.param j)) ++ Effect.all.map .receiver ++
    WriteKind.all.flatMap (fun k => Level.all.map (.write k)) ++ (rootsOf m).map .ret

theorem mem_factsOf {m : Method Tok} {f : Fact} : f ∈ factsOf m ↔ match f with
    | .param j _ => j < m.params.length
    | .receiver _ => True
    | .write _ _ => True
    | .ret r => r ∈ rootsOf m := by
  cases f with
  | param j e => cases e <;> simp [factsOf, Effect.all]
  | receiver e => cases e <;> simp [factsOf, Effect.all]
  | write k l => cases k <;> cases l <;> simp [factsOf, WriteKind.all, Level.all]
  | ret r => simp [factsOf]

theorem tells_param {s : Summary} {j : Nat} {e : Effect} :
    s.tells (.param j e) ↔ ∃ e', s.params[j]? = some e' ∧ e ≤ e' := by
  simp [Summary.tells, Option.any_eq_true]

theorem tells_receiver {s : Summary} {e : Effect} : s.tells (.receiver e) ↔ ∃ e', s.receiver = some e' ∧ e ≤ e' := by
  simp [Summary.tells, Option.any_eq_true]

theorem tells_write {s : Summary} {k : WriteKind} {l : Level} : s.tells (.write k l) ↔ l ≤ s.writes k := by
  simp [Summary.tells]

theorem tells_ret {s : Summary} {r : Root} : s.tells (.ret r) ↔ r ∈ s.returns := by
  simp [Summary.tells]

theorem Summary.Le.tells {s t : Summary} (h : s.Le t) {f : Fact} (hf : s.tells f) : t.tells f := by
  cases f with
  | param j e =>
    obtain ⟨e', hj, he⟩ := tells_param.mp hf
    obtain ⟨e'', hj', hle⟩ := h.param hj
    exact tells_param.mpr ⟨e'', hj', he.trans hle⟩
  | receiver e =>
    obtain ⟨e', hj, he⟩ := tells_receiver.mp hf
    obtain ⟨e'', hj', hle⟩ := h.receiver e' hj
    exact tells_receiver.mpr ⟨e'', hj', he.trans hle⟩
  | write k l => exact tells_write.mpr ((tells_write.mp hf).trans (h.writes k))
  | ret r => exact tells_ret.mpr (h.returns (tells_ret.mp hf))

/-- A summary is determined, upwards, by what it says. -/
theorem le_of_tells {m : Method Tok} {s t : Summary} (hs : Shaped m s) (ht : Shaped m t)
    (h : ∀ f ∈ factsOf m, s.tells f → t.tells f) : s.Le t := by
  refine ⟨⟨?_, ?_, fun k => ?_⟩, fun r hr => ?_⟩
  · rw [List.forall₂_iff_get]
    refine ⟨hs.params.trans ht.params.symm, fun j hj hj' => ?_⟩
    obtain ⟨e', he', hle⟩ := tells_param.mp (h (.param j s.params[j]) (mem_factsOf.mpr (by rw [← hs.params]; exact hj))
      (tells_param.mpr ⟨_, List.getElem?_eq_getElem hj, le_rfl⟩))
    rw [List.getElem?_eq_getElem hj'] at he'
    cases he'
    exact hle
  · intro e he
    exact tells_receiver.mp (h (.receiver e) (mem_factsOf.mpr trivial) (tells_receiver.mpr ⟨e, he, le_rfl⟩))
  · exact tells_write.mp (h (.write k (s.writes k)) (mem_factsOf.mpr trivial) (tells_write.mpr le_rfl))
  · exact tells_ret.mp (h (.ret r) (mem_factsOf.mpr (hs.bounded hr)) (tells_ret.mpr hr))

section Termination

variable {ms : List (Method Tok)}

def allFacts (ms : List (Method Tok)) : List (String × Fact) :=
  (keys ms).flatMap fun k => match byKey ms k with
    | some m => (factsOf m).map fun f => (k, f)
    | none => []

theorem mem_allFacts {k : String} {m : Method Tok} (hm : byKey ms k = some m) {f : Fact} (hf : f ∈ factsOf m) :
    (k, f) ∈ allFacts ms := by
  refine List.mem_flatMap.mpr ⟨k, mem_keys.mpr ⟨m, hm⟩, ?_⟩
  simp only [hm]
  exact List.mem_map.mpr ⟨f, hf, rfl⟩

/-- What the summaries say, of all they may. -/
def said (ms : List (Method Tok)) (S : Solved) : Finset (String × Fact) :=
  (allFacts ms).toFinset.filter fun p => (S p.1).tells p.2

def unsaid (ms : List (Method Tok)) (S : Solved) : Nat := (allFacts ms).toFinset.card - (said ms S).card

theorem said_le (ms : List (Method Tok)) (S : Solved) : (said ms S).card ≤ (allFacts ms).toFinset.card :=
  Finset.card_le_card (Finset.filter_subset _ _)

theorem said_lt {S S' : Solved} (hle : ∀ j, (S j).Le (S' j)) {k : String} {m : Method Tok} (hm : byKey ms k = some m)
    (hs : Shaped m (S k)) (hs' : Shaped m (S' k)) (hne : S' k ≠ S k) : unsaid ms S' < unsaid ms S := by
  have hsub : said ms S ⊆ said ms S' := by
    intro p hp
    obtain ⟨hmem, hsay⟩ := Finset.mem_filter.mp hp
    exact Finset.mem_filter.mpr ⟨hmem, (hle p.1).tells hsay⟩
  have hnot : ¬ said ms S' ⊆ said ms S := by
    intro hback
    refine hne (Summary.Le.antisymm hs' hs (le_of_tells hs' hs fun f hf hsay => ?_) (hle k))
    have hin : (k, f) ∈ said ms S' :=
      Finset.mem_filter.mpr ⟨List.mem_toFinset.mpr (mem_allFacts hm hf), hsay⟩
    exact (Finset.mem_filter.mp (hback hin)).2
  have hlt := Finset.card_lt_card (ssubset_of_subset_not_subset hsub hnot)
  have hb := said_le ms S'
  unfold unsaid
  omega

/-- What the run has left: things to say, components, a repeated sweep, keys. -/
def left (ms : List (Method Tok)) (c : Config) : Nat ×ₗ Nat ×ₗ Nat ×ₗ Nat :=
  toLex (unsaid ms c.solved, toLex (c.comps.length, toLex (if c.changed then 1 else 0, c.todo.length)))

theorem step_left {c : Config} (hc : CalmStep ms c) (h : Grown ms c.solved) (hne : c.comps ≠ []) :
    left ms (step ms c) < left ms c := by
  rcases step_cases ms c with ⟨he, -⟩ | ⟨comp, rest, k, ks, hco, ht, -, hs⟩ | ⟨comp, rest, k, ks, hco, ht, hnew, hs⟩ |
    ⟨comp, rest, hco, ht, hch, hs⟩ | ⟨comp, rest, hco, ht, hch, hs⟩
  · exact absurd he hne
  · rw [hs]
    simp [left, hco, ht, Prod.Lex.toLex_lt_toLex]
  · obtain ⟨hg, hle⟩ := step_grown hc h
    cases hm : byKey ms k with
    | none => exact absurd (evalKey_none hm _) hnew
    | some m =>
      have hlt := said_lt hle hm (h.shaped hm) (hg.shaped hm) (by rw [hs]; simpa using hnew)
      unfold left
      rw [Prod.Lex.toLex_lt_toLex]
      exact Or.inl hlt
  · rw [hs]
    simp [left, hco, hch, Prod.Lex.toLex_lt_toLex]
  · rw [hs]
    simp [left, Config.enter, hco, Prod.Lex.toLex_lt_toLex]

theorem calm_stops (hc : CalmRun ms) : ∃ n, (steps ms n).comps = [] := by
  by_contra hno
  rw [not_exists] at hno
  have hdec : ∀ n, left ms (steps ms (n + 1)) < left ms (steps ms n) :=
    fun n => step_left (hc n) (steps_grown hc n) (hno n)
  have hwf : WellFounded (fun a b : Nat ×ₗ Nat ×ₗ Nat ×ₗ Nat => a < b) := wellFounded_lt
  obtain ⟨n, hn⟩ := WellFounded.has_min hwf (Set.range fun n => left ms (steps ms n)) ⟨_, 0, rfl⟩
  obtain ⟨⟨i, rfl⟩, hmin⟩ := hn
  exact hmin _ ⟨i + 1, rfl⟩ (hdec i)

theorem comps_nil {n : Nat} (h : (steps ms n).comps = []) (j : Nat) : (steps ms (n + j)).comps = [] := by
  induction j with
  | zero => exact h
  | succ j ih =>
    have : step ms (steps ms (n + j)) = steps ms (n + j) := by
      rcases step_cases ms (steps ms (n + j)) with ⟨-, hs⟩ | ⟨_, _, _, _, hc, _⟩ | ⟨_, _, _, _, hc, _⟩ |
        ⟨_, _, hc, _⟩ | ⟨_, _, hc, _⟩
      · exact hs
      all_goals rw [hc] at ih; cases ih
    show (step ms (steps ms (n + j))).comps = []
    rw [this]; exact ih

/-- A document none of whose runs' evaluations collapses a returned list is solved: the
    sweeps end, at summaries a further sweep leaves as they are. -/
theorem calm_solve_returns {doc : Json} {ms : List (Method Tok)} (_ : load doc = .ok ms) (hc : CalmRun ms) :
    ∃ fuel S, solve fuel ms = some S ∧ ∀ k ∈ keys ms, evalKey ms S k = S k := by
  obtain ⟨n, hn⟩ := calm_stops hc
  have hs : solve n ms = some (steps ms n).solved := by simp [solve, hn]
  refine ⟨n, _, hs, fun k hk => ?_⟩
  obtain ⟨m, hm⟩ := mem_keys.mp hk
  rw [evalKey_some hm]
  exact (solve_fixpoint hs hm).symm

/-- A run that stops is calm if it was until then. -/
theorem calm_of_stop {ms : List (Method Tok)} {n : Nat} (hstop : (steps ms n).comps = [])
    (h : ∀ i < n, CalmStep ms (steps ms i)) :
    CalmRun ms := by
  intro i
  by_cases hi : i < n
  · exact h i hi
  · obtain ⟨j, rfl⟩ := Nat.exists_eq_add_of_le (Nat.le_of_not_lt hi)
    intro comp rest k ks m hco
    rw [comps_nil hstop j] at hco
    cases hco

/-- Where no method returns a value, nothing is returned to collapse. -/
theorem calm_of_no_returns (h : ∀ m ∈ ms, m.returns = []) : CalmRun ms := by
  rintro n comp rest k ks m - - hm ⟨-, -, hu⟩
  unfold returned at hu
  split at hu
  · cases hu
  · obtain ⟨hr, -⟩ := List.mem_filter.mp hu
    rw [h m (byKey_some hm).1] at hr
    obtain ⟨t, ht, -⟩ := mem_roots.mp hr
    cases ht

end Termination

/-! ## A run that does not stop -/

namespace Example

def strings (l : List String) : Json := .arr (l.map .str)

def param (name : String) : Json := .obj [("index", .int 0), ("name", .str name), ("inert", .bool false)]

def call (id : Int) (callee dispatch : String) (args : List (List String)) : Json :=
  .obj [("id", .int id), ("callee", .str callee), ("dispatch", .str dispatch), ("line", .int 1), ("receiver", .null),
    ("args", .arr (args.map strings))]

/-- A static method of one reference parameter. -/
def method (key : String) (writes : List Json) (returns : List String) (calls : List Json) : Json :=
  .obj [("key", .str key), ("file", .str "F.cs"), ("line", .int 1), ("receiver", .bool false),
    ("return_inert", .bool false), ("params", .arr [param "x"]), ("locals", .arr []), ("calls", .arr calls),
    ("writes", .arr writes), ("derefs", strings []), ("stores", strings []), ("returns", strings returns),
    ("unknown", strings [])]

def document (methods : List Json) : Json := .obj [("heap_effects_version", .int 1), ("methods", .arr methods)]

def methods (doc : Json) : List (Method Tok) := (load doc).toOption.getD []

/-- `a`, `b` and `d` pass a parameter around; `b` writes through what `c` returns, which
    is `c`'s parameter until `d`'s unknown result reaches `c`. -/
def pulse : Json :=
  document [
    method "a" [] [] [call 0 "b" "direct" [["param:0"]]],
    method "b" [.obj [("kind", .str "indirect"), ("target", strings ["call:1"])]] []
      [call 0 "d" "direct" [["param:0"]], call 1 "c" "direct" [["param:0"]]],
    method "c" [] ["param:0", "call:0"] [call 0 "d" "direct" [[]]],
    method "d" [] ["call:1"] [call 0 "a" "direct" [["param:0"]], call 1 "lib" "extern" []]]

/-- Two methods that call each other, one of which writes through its parameter. -/
def pingPong : Json :=
  document [
    method "ping" [] [] [call 0 "pong" "direct" [["param:0"]]],
    method "pong" [.obj [("kind", .str "instance"), ("target", strings ["param:0"])]] []
      [call 0 "ping" "direct" [["param:0"]]]]

end Example

open Example in
theorem calm_solve_returns_pingPong : ∃ fuel S, solve fuel (methods pingPong) = some S ∧
    ∀ k ∈ keys (methods pingPong), evalKey (methods pingPong) S k = S k :=
  @calm_solve_returns pingPong _ (by decide) (calm_of_no_returns (by decide))

theorem steps_other {ms : List (Method Tok)} {k : String} (hk : byKey ms k = none) (n : Nat) :
    (steps ms n).solved k = initial ms k := by
  induction n with
  | zero => rfl
  | succ n ih =>
    show (step ms (steps ms n)).solved k = _
    rcases step_cases ms (steps ms n) with ⟨-, hs⟩ | ⟨_, _, _, _, -, -, -, hs⟩ | ⟨_, _, j, _, -, -, hnew, hs⟩ |
      ⟨_, _, -, -, -, hs⟩ | ⟨_, _, -, -, -, hs⟩
    · rw [hs]; exact ih
    · rw [hs]; exact ih
    · rw [hs]
      have : k ≠ j := by
        rintro rfl
        exact hnew (evalKey_none hk _)
      simpa only [Function.update_of_ne this] using ih
    · rw [hs]; exact ih
    · rw [hs]; exact ih

/-- A run that comes back to a configuration where it has not stopped never stops. -/
theorem returns_never {ms : List (Method Tok)} {p q : Nat} (hq : 0 < q) (hback : steps ms (p + q) = steps ms p)
    (hne : (steps ms p).comps ≠ []) : ∀ fuel, solve fuel ms = none := by
  have hloop : ∀ j i, steps ms (p + j * q + i) = steps ms (p + i) := by
    intro j
    induction j with
    | zero => intro i; simp
    | succ j ih =>
      intro i
      have : p + (j + 1) * q + i = p + j * q + (q + i) := by rw [Nat.succ_mul]; omega
      rw [this, ih (q + i)]
      induction i with
      | zero => simpa using hback
      | succ i ihi => show step ms (steps ms (p + (q + i))) = step ms (steps ms (p + i)); rw [ihi (by rw [Nat.succ_mul]; omega)]
  intro fuel
  unfold solve
  rw [if_neg]
  intro hfuel
  have hnil := @comps_nil ms fuel (by simpa using hfuel) (p + fuel * q - fuel)
  have hle : fuel ≤ p + fuel * q := Nat.le_trans (Nat.le_mul_of_pos_right fuel hq) (Nat.le_add_left _ _)
  rw [Nat.add_sub_cancel' hle] at hnil
  have := hloop fuel 0
  simp only [Nat.add_zero] at this
  rw [this] at hnil
  exact hne hnil

open Example in
theorem pulse_back : steps (methods pulse) 25 = steps (methods pulse) 15 := by
  have hcomps : (steps (methods pulse) 25).comps = (steps (methods pulse) 15).comps := by decide
  have htodo : (steps (methods pulse) 25).todo = (steps (methods pulse) 15).todo := by decide
  have hchanged : (steps (methods pulse) 25).changed = (steps (methods pulse) 15).changed := by decide
  have ha : (steps (methods pulse) 25).solved "a" = (steps (methods pulse) 15).solved "a" := by decide
  have hb : (steps (methods pulse) 25).solved "b" = (steps (methods pulse) 15).solved "b" := by decide
  have hc : (steps (methods pulse) 25).solved "c" = (steps (methods pulse) 15).solved "c" := by decide
  have hd : (steps (methods pulse) 25).solved "d" = (steps (methods pulse) 15).solved "d" := by decide
  have hkeys : keys (methods pulse) = ["a", "b", "c", "d"] := by decide
  have hsolved : (steps (methods pulse) 25).solved = (steps (methods pulse) 15).solved := by
    funext k
    cases hk : byKey (methods pulse) k with
    | none => rw [steps_other hk, steps_other hk]
    | some m =>
      have hmem : k ∈ keys (methods pulse) := mem_keys.mpr ⟨m, hk⟩
      rw [hkeys] at hmem
      simp only [List.mem_cons, List.not_mem_nil, or_false] at hmem
      rcases hmem with rfl | rfl | rfl | rfl
      · exact ha
      · exact hb
      · exact hc
      · exact hd
  exact Config.ext hcomps htodo hchanged hsolved

open Example in
/-- An accepted document whose sweeps never end. -/
theorem solve_may_not_return : ∃ doc ms, load doc = .ok ms ∧ ∀ fuel, solve fuel ms = none :=
  ⟨pulse, methods pulse, by decide, returns_never (p := 15) (q := 10) (by decide) pulse_back (by decide)⟩

end OwnNet.HeapEffects
