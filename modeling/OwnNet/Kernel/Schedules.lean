/-
  OwnNet.Kernel.Schedules — the kernel's two fixpoints under any schedule: the guarded
  summaries, and the election of a guard for each coordinate that precedes them.

  The election lattice is flat: no guard, one guard, a conflict. An import takes a callee's
  elected guard through one call. It is monotone and keeps no joins: two guards that it drops
  one by one meet in a conflict, which it keeps.

  Proved: `schedule_independent`: of every well-formed system, of either kind, the passes over
  all coordinates at once end within the bound in the least fixpoint, and the sweeps by any
  list in which every live coordinate occurs end within the bound in the same state.
-/

import OwnNet.Dataflow.Rounds
import OwnNet.Kernel.Guarded

namespace OwnNet.Kernel

open Dataflow

/-! ## Elections -/

/-- `None ⊑ One(g) ⊑ Conflict` -/
inductive Election where
  | none | one (guard : Nat) | conflict
  deriving DecidableEq, Repr

namespace Election

def join : Election → Election → Election
  | .none, x => x
  | x, .none => x
  | .conflict, _ => .conflict
  | _, .conflict => .conflict
  | .one g, .one h => if g = h then .one g else .conflict

def height : Nat := 2

instance : Max Election := ⟨join⟩

theorem sup_comm (a b : Election) : a ⊔ b = b ⊔ a := by
  show join a b = join b a
  cases a <;> cases b <;> simp only [join]
  next g h =>
    by_cases hgh : g = h
    · subst hgh
      rfl
    · rw [if_neg hgh, if_neg (Ne.symm hgh)]

theorem sup_assoc (a b c : Election) : a ⊔ b ⊔ c = a ⊔ (b ⊔ c) := by
  show join (join a b) c = join a (join b c)
  cases a <;> cases b <;> cases c <;> simp only [join] <;> grind [join]

theorem sup_idem (a : Election) : a ⊔ a = a := by
  show join a a = a
  cases a <;> simp [join]

/-- `leq`: `a ≤ b` is `a.join b = b`. -/
instance : SemilatticeSup Election := SemilatticeSup.mk' sup_comm sup_assoc sup_idem

instance : OrderBot Election where
  bot := .none
  bot_le _ := rfl

def rank : Election → Nat
  | .none => 0
  | .one _ => 1
  | .conflict => 2

theorem rank_le (e : Election) : e.rank ≤ height := by
  unfold height
  cases e <;> simp [rank]

theorem rank_strictMono : StrictMono rank := by
  intro a b hab
  have hle : join a b = b := hab.le
  have hne : a ≠ b := hab.ne
  cases a <;> cases b <;> simp_all [join, rank]

end Election

/-- How a call binds the callee's guard parameter. -/
inductive GuardBinding where
  | id (callee caller : Nat)
  | neg (callee caller : Nat)
  | const
  | opaque_
  deriving DecidableEq, Repr

/-- `import`: what a callee's election is to the caller, through one call. -/
def import_ (callee : Election) (binding : GuardBinding) : Election :=
  match callee with
  | .none => .none
  | .conflict => .conflict
  | .one h =>
    match binding with
    | .id c caller => if c = h then .one caller else .none
    | .neg c caller => if c = h then .one caller else .none
    | .const => .none
    | .opaque_ => .none

theorem import_monotone (binding : GuardBinding) : Monotone fun callee => import_ callee binding := by
  intro a b hab
  have hle : Election.join a b = b := hab
  cases a with
  | none => exact bot_le
  | conflict =>
    cases b <;> simp_all [Election.join]
  | one g =>
    cases b with
    | none => simp [Election.join] at hle
    | conflict =>
      show Election.join (import_ (.one g) binding) .conflict = .conflict
      cases import_ (.one g) binding <;> rfl
    | one h =>
      by_cases hgh : g = h
      · rw [hgh]
      · simp [Election.join, hgh] at hle

structure ElectionEdge where
  callee : Nat
  binding : GuardBinding
  deriving DecidableEq, Repr

structure ElectionCoord (maxEdges : Nat) where
  seed : Election
  edges : Fin maxEdges → Option ElectionEdge

/-- The imports of a coordinate, empty slots left out. -/
def ElectionCoord.imports {maxEdges : Nat} (c : ElectionCoord maxEdges) : List ElectionEdge :=
  (List.ofFn c.edges).filterMap fun slot => slot

structure ElectionSystem (maxCoords maxEdges : Nat) where
  n : Nat
  coords : Fin maxCoords → ElectionCoord maxEdges

namespace ElectionSystem

variable {maxCoords maxEdges : Nat} (sys : ElectionSystem maxCoords maxEdges)

/-- `well_formed`: every edge goes to a live coordinate. -/
def wellFormed : Bool :=
  sys.n ≤ maxCoords ∧ ∀ i : Fin maxCoords, i.val < sys.n → ∀ e ∈ (sys.coords i).imports, e.callee < sys.n

/-- `x.get(callee)`, no guard outside the array. -/
def look (x : Fin maxCoords → Election) (i : Nat) : Election := if h : i < maxCoords then x ⟨i, h⟩ else .none

/-- One coordinate: its seed and every import. -/
def step (i : Fin maxCoords) (x : Fin maxCoords → Election) : Election :=
  if sys.n ≤ i.val then .none
  else (sys.coords i).imports.foldl (fun acc e => acc.join (import_ (look x e.callee) e.binding)) (sys.coords i).seed

end ElectionSystem

/-- `elect` -/
def elect {maxCoords maxEdges : Nat} (sys : ElectionSystem maxCoords maxEdges) : Option (Fin maxCoords → Election) :=
  lfpJacobi .none Election.height sys.n sys.step

/-! ## By a schedule -/

section Chaotic

variable {maxCoords : Nat} {L : Type} [DecidableEq L]

/-- One pass over a schedule: an entry that is no live coordinate is skipped, the others are
    recomputed from the latest values. -/
def scheduled (n : Nat) (step : Fin maxCoords → (Fin maxCoords → L) → L) :
    List Nat → (Fin maxCoords → L) → Bool → (Fin maxCoords → L) × Bool
  | [], x, changed => (x, changed)
  | i :: schedule, x, changed =>
    if n ≤ i then scheduled n step schedule x changed
    else if h : i < maxCoords then
      let v := step ⟨i, h⟩ x
      if x ⟨i, h⟩ ≠ v then scheduled n step schedule (Function.update x ⟨i, h⟩ v) true
      else scheduled n step schedule x changed
    else scheduled n step schedule x changed

/-- Passes over the schedule until one changes nothing. -/
def chaotic (n : Nat) (step : Fin maxCoords → (Fin maxCoords → L) → L) (schedule : List Nat) :
    Nat → (Fin maxCoords → L) → Option (Fin maxCoords → L)
  | 0, _ => none
  | passes + 1, x =>
    let (y, changed) := scheduled n step schedule x false
    if !changed then some y else chaotic n step schedule passes y

/-- `lfp_chaotic` -/
def lfpChaotic (bot : L) (height n : Nat) (step : Fin maxCoords → (Fin maxCoords → L) → L) (schedule : List Nat) :
    Option (Fin maxCoords → L) :=
  chaotic n step schedule (maxPasses maxCoords height) fun _ => bot

/-- What a schedule recomputes. -/
def liveEntries (maxCoords n : Nat) (schedule : List Nat) : List (Fin maxCoords) :=
  schedule.filterMap fun i => if n ≤ i then none else if h : i < maxCoords then some ⟨i, h⟩ else none

/-- One entry after the other is a sweep over what the schedule recomputes. -/
theorem scheduled_eq (n : Nat) (step : Fin maxCoords → (Fin maxCoords → L) → L) (schedule : List Nat)
    (x : Fin maxCoords → L) (changed : Bool) :
    scheduled n step schedule x changed = (liveEntries maxCoords n schedule).foldl (reevaluate step) (x, changed) := by
  induction schedule generalizing x changed with
  | nil => rfl
  | cons i schedule ih =>
    unfold scheduled liveEntries
    split
    next hn =>
      rw [ih, List.filterMap_cons, if_pos hn]
      rfl
    next hn =>
      split
      next h =>
        rw [List.filterMap_cons, if_neg hn, dif_pos h]
        simp only [List.foldl_cons, ne_eq, ite_not, ih]
        unfold reevaluate
        by_cases heq : x ⟨i, h⟩ = step ⟨i, h⟩ x
        · rw [if_pos heq, if_pos heq.symm]
          rfl
        · rw [if_neg heq, if_neg (Ne.symm heq)]
          rfl
      next h =>
        rw [ih, List.filterMap_cons, if_neg hn, dif_neg h]
        rfl

theorem chaotic_eq (n : Nat) (step : Fin maxCoords → (Fin maxCoords → L) → L) (schedule : List Nat)
    (passes : Nat) (x : Fin maxCoords → L) :
    chaotic n step schedule passes x = rounds step (liveEntries maxCoords n schedule) passes x := by
  induction passes generalizing x with
  | zero => rfl
  | succ passes ih =>
    unfold chaotic rounds sweep
    rw [scheduled_eq]
    obtain ⟨⟨y, changed⟩, hs⟩ :
        ∃ s, (liveEntries maxCoords n schedule).foldl (reevaluate step) (x, false) = s := ⟨_, rfl⟩
    rw [hs]
    cases changed with
    | true => exact ih y
    | false => rfl

/-- The live coordinates. -/
def live (maxCoords n : Nat) : List (Fin maxCoords) := (List.finRange maxCoords).filter fun i => i.val < n

theorem mem_live {n : Nat} {i : Fin maxCoords} : i ∈ live maxCoords n ↔ i.val < n := by
  unfold live
  rw [List.mem_filter]
  simp

theorem live_length (n : Nat) : (live maxCoords n).length ≤ maxCoords := by
  have h := List.length_filter_le (fun i : Fin maxCoords => decide (i.val < n)) (List.finRange maxCoords)
  rwa [List.length_finRange] at h

theorem live_of_entry {n : Nat} {schedule : List Nat} {i : Fin maxCoords} (h : i ∈ liveEntries maxCoords n schedule) :
    i ∈ live maxCoords n := by
  obtain ⟨j, -, hj⟩ := List.mem_filterMap.mp h
  split at hj
  next => cases hj
  next hn =>
    split at hj
    next => cases hj; exact mem_live.mpr (Nat.lt_of_not_le hn)
    next => cases hj

theorem entry_of_live {n : Nat} {schedule : List Nat} {i : Fin maxCoords} (hi : i.val < n) (h : i.val ∈ schedule) :
    i ∈ liveEntries maxCoords n schedule := by
  refine List.mem_filterMap.mpr ⟨i.val, h, ?_⟩
  rw [if_neg (by omega), dif_pos i.isLt]

end Chaotic

/-- `solve_with` -/
def solveWith {maxCoords maxEdges : Nat} (sys : System maxCoords maxEdges) (schedule : List Nat) :
    Option (Fin maxCoords → Cells) :=
  lfpChaotic .bot Cells.height sys.n sys.step schedule

/-- `elect_with` -/
def electWith {maxCoords maxEdges : Nat} (sys : ElectionSystem maxCoords maxEdges) (schedule : List Nat) :
    Option (Fin maxCoords → Election) :=
  lfpChaotic .none Election.height sys.n sys.step schedule

/-! ## Both end in the least fixpoint -/

/-- Every live coordinate is what its step makes of the others. -/
def IsFixpoint {maxCoords : Nat} {L : Type} (n : Nat) (step : Fin maxCoords → (Fin maxCoords → L) → L)
    (x : Fin maxCoords → L) : Prop :=
  ∀ i, i.val < n → step i x = x i

section Least

variable {maxCoords : Nat} {L : Type} [DecidableEq L] [PartialOrder L] [OrderBot L]

/-- A monotone step over a lattice of that height: both iterations end in the least fixpoint. -/
theorem lfp_agree {rank : L → Nat} {height : Nat} (hrank : StrictMono rank) (hheight : ∀ b, rank b ≤ height) {n : Nat}
    {step : Fin maxCoords → (Fin maxCoords → L) → L} (hm : ∀ i, Monotone (step i)) :
    ∃ x, lfpJacobi ⊥ height n step = some x ∧ IsFixpoint n step x ∧ (∀ z, IsFixpoint n step z → x ≤ z) ∧
      ∀ schedule : List Nat, (∀ i : Fin maxCoords, i.val < n → i.val ∈ schedule) →
        lfpChaotic ⊥ height n step schedule = some x := by
  -- the passes hold the coordinates from `n` on at the bottom
  obtain ⟨pass, hpass⟩ : ∃ pass : (Fin maxCoords → L) → Fin maxCoords → L, pass = fun x i => if i.val < n then step i x else ⊥ :=
    ⟨_, rfl⟩
  have hpassMono : Monotone pass := by
    intro x y hxy i
    rw [hpass]
    dsimp only
    split
    next => exact hm i hxy
    next => exact le_rfl
  have hbelow : ∀ z, IsFixpoint n step z → pass z ≤ z := by
    intro z hz i
    rw [hpass]
    dsimp only
    split
    next hi => exact le_of_eq (hz i hi)
    next => exact bot_le
  have hbound : Fintype.card (Fin maxCoords) * height < maxPasses maxCoords height := by
    unfold maxPasses
    rw [Fintype.card_fin]
    omega
  obtain ⟨x, hx⟩ := Jacobi.passes_some rank height hrank hheight hpassMono (fun _ => bot_le) (Nat.lt_add_right _ hbound)
  obtain ⟨hfix, m, hm'⟩ := Jacobi.passes_eq hx
  have hfixpoint : IsFixpoint n step x := by
    intro i hi
    have := congrFun hfix i
    rw [hpass] at this
    simpa only [if_pos hi] using this
  have hleast : ∀ z, IsFixpoint n step z → x ≤ z := fun z hz => hm' ▸ Jacobi.iterate_below hpassMono (hbelow z hz) m
  refine ⟨x, ?_, hfixpoint, hleast, fun schedule hall => ?_⟩
  · rw [hpass] at hx
    exact hx
  · have hlen : (live maxCoords n).length * height < maxPasses maxCoords height :=
      Nat.lt_succ_of_le (Nat.mul_le_mul_right height (live_length n))
    obtain ⟨y, hy, hrise, hfixy⟩ := rounds_scheduled hrank hheight (fun i _ => hm i) (fun i _ => bot_le)
      (fun i hi => live_of_entry hi) (fun i hi => entry_of_live (mem_live.mp hi) (hall i (mem_live.mp hi))) hlen
    unfold lfpChaotic
    rw [chaotic_eq, hy]
    congr 1
    refine le_antisymm (hrise.below x (fun _ => bot_le) fun i hi => le_of_eq (hfixpoint i (mem_live.mp hi))) ?_
    exact hleast y fun i hi => hfixy i (mem_live.mpr hi)

end Least

theorem System.step_monotone {maxCoords maxEdges : Nat} (sys : System maxCoords maxEdges) (i : Fin maxCoords) :
    Monotone (sys.step i) := by
  intro x y hxy
  rw [← sys.pass_eq_step, ← sys.pass_eq_step]
  exact sys.pass_monotone hxy i

theorem ElectionSystem.step_monotone {maxCoords maxEdges : Nat} (sys : ElectionSystem maxCoords maxEdges) (i : Fin maxCoords) :
    Monotone (sys.step i) := by
  intro x y hxy
  unfold step
  split
  next => exact le_rfl
  next =>
    generalize (sys.coords i).imports = es
    obtain ⟨b, hab⟩ : ∃ b, b = (sys.coords i).seed := ⟨_, rfl⟩
    rw [← hab]
    have hgen : ∀ a b : Election, a ≤ b →
        es.foldl (fun acc e => acc.join (import_ (look x e.callee) e.binding)) a ≤
          es.foldl (fun acc e => acc.join (import_ (look y e.callee) e.binding)) b := by
      induction es with
      | nil => exact fun _ _ h => h
      | cons e es ih =>
        intro a b h
        refine ih _ _ (sup_le_sup h (import_monotone e.binding ?_))
        unfold look
        split
        next hlt => exact hxy _
        next => exact le_rfl
    exact hgen b b le_rfl

instance : OrderBot Cells where
  bot := .bot
  bot_le c := Cells.le_iff_at.mpr fun s => by rw [Cells.at_bot]; simp

/-- Of every well-formed system, of guarded summaries or of elections: the passes end in the
    least fixpoint, and so do the sweeps by every schedule that leaves out no live coordinate. -/
theorem schedule_independent (maxCoords maxEdges : Nat) :
    (∀ sys : System maxCoords maxEdges, sys.wellFormed = true →
      ∃ x, solve sys = some x ∧ IsFixpoint sys.n sys.step x ∧ (∀ z, IsFixpoint sys.n sys.step z → x ≤ z) ∧
        ∀ schedule : List Nat, (∀ i < sys.n, i ∈ schedule) → solveWith sys schedule = some x) ∧
    (∀ sys : ElectionSystem maxCoords maxEdges, sys.wellFormed = true →
      ∃ x, elect sys = some x ∧ IsFixpoint sys.n sys.step x ∧ (∀ z, IsFixpoint sys.n sys.step z → x ≤ z) ∧
        ∀ schedule : List Nat, (∀ i < sys.n, i ∈ schedule) → electWith sys schedule = some x) := by
  constructor
  · intro sys _
    obtain ⟨x, hx, hfix, hleast, hall⟩ := lfp_agree Cells.rank_strictMono Cells.rank_le (n := sys.n) sys.step_monotone
    exact ⟨x, hx, hfix, hleast, fun schedule h => hall schedule fun i hi => h i.val hi⟩
  · intro sys _
    obtain ⟨x, hx, hfix, hleast, hall⟩ := lfp_agree Election.rank_strictMono Election.rank_le (n := sys.n) sys.step_monotone
    exact ⟨x, hx, hfix, hleast, fun schedule h => hall schedule fun i hi => h i.val hi⟩

open Example in
theorem schedule_independent_pair : ∃ x, solve pair = some x ∧ solveWith pair [7, 1, 0, 1] = some x := by
  obtain ⟨x, hx, -, -, hall⟩ := (schedule_independent 2 1).1 pair (by decide)
  exact ⟨x, hx, hall _ (by decide)⟩

end OwnNet.Kernel
