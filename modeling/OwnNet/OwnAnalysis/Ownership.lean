/-
  OwnNet.OwnAnalysis.Ownership — the ownership analysis on the scheduled solver, and what its
  result owes to the schedule.

  The fact is a state, or bottom where no predecessor has been evaluated. States, their
  join, the transfer and the graph are those of `Lang`, of which the crates are a port.

  An in-fact of a run is a join of states along paths, of any paths that reach the block.
  The transfer distributes over such joins, moves apart: a move overwrites the site of a
  source that may be owned and keeps the site of one that may not. `Unmixed` moves
  distribute too. Then every converged in-fact is the least upper bound over all paths.

  Proved: `inFacts_agree`: no join stops a run, and if the moves are unmixed two runs that
  return have the same in-facts; `quiet_unmixed`: those of a function without findings
  are; `schedules_differ`: of a function whose moves are mixed the in-facts differ.
-/

import OwnNet.OwnAnalysis.Solver
import OwnNet.Lang.Exactness
import OwnNet.Lang.Order
import OwnNet.Lang.Survey

namespace OwnNet.OwnAnalysis

open Dataflow Lang

inductive StateFact where
  | bottom
  | reachable (st : State)
  deriving DecidableEq

def StateFact.join : StateFact → StateFact → Except Stuck StateFact
  | a, .bottom => .ok a
  | .bottom, b => .ok b
  | .reachable a, .reachable b =>
    match Lang.join a b with
    | .ok u => .ok (.reachable u)
    | .error e => .error e

def graph (cfg : CFG) : ControlFlowGraph := ⟨cfg.blocks.length, cfg.entry, cfg.succ⟩

def ownership (cfg : CFG) : Analysis StateFact Stuck where
  bottom := .bottom
  join := StateFact.join
  entryFact := .reachable cfg.initialState
  transfer := fun b fact =>
    match fact with
    | .bottom => .bottom
    | .reachable st => .reachable (transfer cfg.symById (cfg.instrs b) st).1

/-- The in-fact of every reachable block. -/
def inFacts (cfg : CFG) (schedule : Schedule) : Except (Stop Stuck) (Dict Nat StateFact) :=
  solveWith (graph cfg) (ownership cfg) schedule

/-- A move reached both with its source owned and with its source gone: where it is owned a state
    is recorded, and where it is gone no other move has taken it. -/
def Unmixed (cfg : CFG) : Prop :=
  ∀ (b : Nat) (blk : Block) (i : Nat) (dst src : Symbol) (line : Int), cfg.blocks[b]? = some blk →
    blk.instrs[i]? = some (.moveInto dst src line) → ∀ t₁ t₂, Path cfg b i t₁ → Path cfg b i t₂ →
    .owned ∈ (cfg.after t₁).states src → .owned ∉ (cfg.after t₂).states src →
      (cfg.after t₁).Recorded ((cfg.after t₁).ridOf src) ∧
        ∀ site, (cfg.after t₂).movedAt.get? ((cfg.after t₂).ridOf src) = some site → site = (line, true)

/-- A join of states along paths to a place. -/
inductive Merged (cfg : CFG) (b i : Nat) : State → Prop
  | path {t : List Instr} : Path cfg b i t → Merged cfg b i (cfg.after t)
  | join {s t u : State} : Merged cfg b i s → Merged cfg b i t → Lang.join s t = .ok u → Merged cfg b i u

section

variable {G : Layout} {F : Nat → Note} {cfg : CFG} {b i : Nat} {blk : Block} {st : State}

theorem Merged.holds (hS : Surveyed G F cfg) (hb : cfg.blocks[b]? = some blk) (h : Merged cfg b i st) :
    Holds G (knownAfter (G.starting b) (blk.instrs.take i)) ((F b).run G.rid (blk.instrs.take i)) st := by
  induction h with
  | path ht =>
    obtain ⟨blk', hb', hh⟩ := ht.holds hS
    rw [hb] at hb'
    cases hb'
    exact hh
  | join _ _ hu ih₁ ih₂ =>
    obtain ⟨u', hu', hh⟩ := join_total ih₁ ih₂
    rw [hu] at hu'
    cases hu'
    exact hh

/-! ## Moves -/

section

variable {dst src : Symbol} {line : Int}

/-- All joined states denote the source of a move the same way. -/
theorem Merged.ridOf (hS : Surveyed G F cfg) (hb : cfg.blocks[b]? = some blk)
    (hi : blk.instrs[i]? = some (.moveInto dst src line)) (h : Merged cfg b i st) : st.ridOf src = G.rid src.id :=
  have hlies := (hS.lying b blk hb).at hi
  (h.holds hS hb).ridOf hlies src List.mem_cons_self hlies.kinds.2

theorem states_of_rid {x : State} (h : x.ridOf src = G.rid src.id) :
    x.states src = (x.var.get? (G.rid src.id)).getD {.owned} := by
  unfold State.states
  rw [h]
  rfl

/-- What a joined state says of a source some path says. -/
theorem Merged.some_path (hS : Surveyed G F cfg) (hb : cfg.blocks[b]? = some blk)
    (hi : blk.instrs[i]? = some (.moveInto dst src line)) (h : Merged cfg b i st) :
    (.owned ∈ st.states src → ∃ t, Path cfg b i t ∧ .owned ∈ (cfg.after t).states src) ∧
      (.owned ∉ st.states src → ∃ t, Path cfg b i t ∧ .owned ∉ (cfg.after t).states src) ∧
      (¬st.Recorded (G.rid src.id) → ∃ t, Path cfg b i t ∧ ¬(cfg.after t).Recorded (G.rid src.id)) := by
  induction h with
  | path ht => exact ⟨fun h => ⟨_, ht, h⟩, fun h => ⟨_, ht, h⟩, fun h => ⟨_, ht, h⟩⟩
  | @join s t u hs ht hu ih₁ ih₂ =>
    have hvar := (join_ok hu).var (G.rid src.id)
    have hrs := hs.ridOf hS hb hi
    have hrt := ht.ridOf hS hb hi
    have hru := (Merged.join hs ht hu).ridOf hS hb hi
    rw [states_of_rid hrs] at ih₁
    rw [states_of_rid hrt] at ih₂
    rw [states_of_rid hru, hvar]
    unfold State.Recorded at ih₁ ih₂ ⊢
    rw [hvar]
    cases hsv : s.var.get? (G.rid src.id) with
    | none =>
      rw [hsv] at ih₁
      cases htv : t.var.get? (G.rid src.id) with
      | none => exact ih₁
      | some T =>
        rw [htv] at ih₂
        exact ih₂
    | some S =>
      rw [hsv] at ih₁
      cases htv : t.var.get? (G.rid src.id) with
      | none => exact ih₁
      | some T =>
        rw [htv] at ih₂
        simp only [Option.getD_some, Option.merge_some_some, Finset.mem_union, not_or] at ih₁ ih₂ ⊢
        refine ⟨fun hor => hor.elim ih₁.1 ih₂.1, fun hno => ih₁.2.1 hno.1, fun hno => absurd ⟨_, rfl⟩ hno⟩

/-- What a join of two joined states says of a source, from what they say. -/
theorem Merged.owned_join (hS : Surveyed G F cfg) (hx : Unmixed cfg) (hb : cfg.blocks[b]? = some blk)
    (hi : blk.instrs[i]? = some (.moveInto dst src line)) {s t u : State} (hs : Merged cfg b i s) (ht : Merged cfg b i t)
    (hu : Lang.join s t = .ok u) : .owned ∈ u.states src ↔ .owned ∈ s.states src ∨ .owned ∈ t.states src := by
  have hvar := (join_ok hu).var (G.rid src.id)
  have hps := hs.some_path hS hb hi
  have hpt := ht.some_path hS hb hi
  -- a state with nothing recorded comes with no state whose source is gone
  have hno : (∃ t, Path cfg b i t ∧ ¬(cfg.after t).Recorded (G.rid src.id)) →
      ¬∃ t, Path cfg b i t ∧ .owned ∉ (cfg.after t).states src := by
    intro h₁ h₂
    obtain ⟨t₁, hp₁, hr⟩ := h₁
    obtain ⟨t₂, hp₂, hgone⟩ := h₂
    have hid₁ := (Merged.path hp₁).ridOf hS hb hi
    have hown : .owned ∈ (cfg.after t₁).states src := by
      rw [states_of_rid hid₁]
      cases hv : (cfg.after t₁).var.get? (G.rid src.id) with
      | none => exact Finset.mem_singleton_self _
      | some S => exact absurd ⟨S, hv⟩ hr
    have hrec := (hx b blk i dst src line hb hi t₁ t₂ hp₁ hp₂ hown hgone).1
    rw [hid₁] at hrec
    exact hr hrec
  rw [states_of_rid (hs.ridOf hS hb hi)] at hps ⊢
  rw [states_of_rid (ht.ridOf hS hb hi)] at hpt ⊢
  rw [states_of_rid ((Merged.join hs ht hu).ridOf hS hb hi), hvar]
  unfold State.Recorded at hps hpt hno
  cases hsv : s.var.get? (G.rid src.id) with
  | none =>
    rw [hsv] at hps
    have hall := hno (hps.2.2 (by simp))
    cases htv : t.var.get? (G.rid src.id) with
    | none => simp
    | some T =>
      rw [htv] at hpt
      have hT : .owned ∈ T := by
        by_contra hgone
        exact hall (hpt.2.1 hgone)
      simp [hT]
  | some S =>
    cases htv : t.var.get? (G.rid src.id) with
    | none =>
      rw [htv] at hpt
      rw [hsv] at hps
      have hS' : .owned ∈ S := by
        by_contra hgone
        exact hno (hpt.2.2 (by simp)) (hps.2.1 hgone)
      simp [hS']
    | some T => simp

/-- Where some path has the source, a state in which it is gone has it moved nowhere, or here. -/
theorem Merged.site (hS : Surveyed G F cfg) (hx : Unmixed cfg) (hb : cfg.blocks[b]? = some blk)
    (hi : blk.instrs[i]? = some (.moveInto dst src line)) (h : Merged cfg b i st) {t₁ : List Instr} (hp₁ : Path cfg b i t₁)
    (hown : .owned ∈ (cfg.after t₁).states src) (hgone : .owned ∉ st.states src) {site : Int × Bool}
    (hsite : st.movedAt.get? (G.rid src.id) = some site) : site = (line, true) := by
  induction h generalizing site with
  | @path t ht =>
    rw [← (Merged.path ht).ridOf hS hb hi] at hsite
    exact (hx b blk i dst src line hb hi t₁ t hp₁ ht hown hgone).2 site hsite
  | join hs ht hu ih₁ ih₂ =>
    rw [hs.owned_join hS hx hb hi ht hu, not_or] at hgone
    rw [(join_merges hu).moved, Dict.get?_merge] at hsite
    rename_i s t _
    cases hsv : s.movedAt.get? (G.rid src.id) with
    | none =>
      cases htv : t.movedAt.get? (G.rid src.id) with
      | none =>
        rw [hsv, htv] at hsite
        cases hsite
      | some y =>
        rw [hsv, htv] at hsite
        cases hsite
        exact ih₂ hgone.2 htv
    | some x =>
      have hx' := ih₁ hgone.1 hsv
      cases htv : t.movedAt.get? (G.rid src.id) with
      | none =>
        rw [hsv, htv] at hsite
        cases hsite
        exact hx'
      | some y =>
        have hy := ih₂ hgone.2 htv
        rw [hsv, htv, hx', hy] at hsite
        cases hsite
        exact siteJoin_self _

theorem recordMove_eq (st : State) (src : Symbol) (line : Int) :
    recordMove st src line =
      { st with movedAt := if .owned ∈ st.states src then st.movedAt.set (st.ridOf src) (line, true) else st.movedAt } := by
  unfold recordMove
  split <;> rfl

/-- A site set on one side only, that the other side has not or has the same. -/
theorem merge_site {d e : Dict Nat (Int × Bool)} {r : Nat} {x : Int × Bool} (h : ∀ y, e.get? r = some y → y = x) :
    Dict.merge siteJoin (d.set r x) e = (Dict.merge siteJoin d e).set r x ∧
      Dict.merge siteJoin e (d.set r x) = (Dict.merge siteJoin e d).set r x := by
  constructor
  · apply Dict.ext_get?
    intro n
    rw [Dict.get?_merge, Dict.get?_set, Dict.get?_set, Dict.get?_merge]
    by_cases hn : n = r
    · rw [if_pos hn, if_pos hn, hn]
      cases he : e.get? r with
      | none => rfl
      | some y =>
        rw [h y he]
        exact congrArg some (siteJoin_self x)
    · rw [if_neg hn, if_neg hn]
  · apply Dict.ext_get?
    intro n
    rw [Dict.get?_merge, Dict.get?_set, Dict.get?_set, Dict.get?_merge]
    by_cases hn : n = r
    · rw [if_pos hn, if_pos hn, hn]
      cases he : e.get? r with
      | none => rfl
      | some y =>
        rw [h y he]
        exact congrArg some (siteJoin_self x)
    · rw [if_neg hn, if_neg hn]

/-- The sites of a move, put down on both sides of a join and on the join. -/
theorem Merged.record (hS : Surveyed G F cfg) (hx : Unmixed cfg) (hb : cfg.blocks[b]? = some blk)
    (hi : blk.instrs[i]? = some (.moveInto dst src line)) {s t u : State} (hs : Merged cfg b i s) (ht : Merged cfg b i t)
    (hu : Lang.join s t = .ok u) : Merges (recordMove s src line) (recordMove t src line) (recordMove u src line) := by
  have m := join_merges hu
  have hown := hs.owned_join hS hx hb hi ht hu
  rw [recordMove_eq, recordMove_eq, recordMove_eq, hs.ridOf hS hb hi, ht.ridOf hS hb hi, (Merged.join hs ht hu).ridOf hS hb hi]
  refine ⟨m.same, m.loans, m.agree, m.handles, m.var, ?_, m.acquired⟩
  show (if _ then _ else _) = Dict.merge siteJoin (if _ then _ else _) (if _ then _ else _)
  by_cases hso : .owned ∈ s.states src
  · obtain ⟨t₁, hp₁, ho₁⟩ := (hs.some_path hS hb hi).1 hso
    rw [if_pos (hown.mpr (Or.inl hso)), if_pos hso, m.moved]
    by_cases hto : .owned ∈ t.states src
    · rw [if_pos hto, Dict.merge_set, siteJoin_self]
    · rw [if_neg hto]
      exact (merge_site fun y hy => ht.site hS hx hb hi hp₁ ho₁ hto hy).1.symm
  · rw [if_neg hso]
    by_cases hto : .owned ∈ t.states src
    · obtain ⟨t₁, hp₁, ho₁⟩ := (ht.some_path hS hb hi).1 hto
      rw [if_pos (hown.mpr (Or.inr hto)), if_pos hto, m.moved]
      exact (merge_site fun y hy => hs.site hS hx hb hi hp₁ ho₁ hso hy).2.symm
    · rw [if_neg fun h => (hown.mp h).elim hso hto, if_neg hto, m.moved]

end

/-! ## The transfer distributes -/

theorem Merged.step_join (hS : Surveyed G F cfg) (hx : Unmixed cfg) (hb : cfg.blocks[b]? = some blk) {ins : Instr}
    (hi : blk.instrs[i]? = some ins) {s t u : State} (hs : Merged cfg b i s) (ht : Merged cfg b i t)
    (hu : Lang.join s t = .ok u) :
    Lang.join (step cfg.symById ins s).1 (step cfg.symById ins t).1 = .ok (step cfg.symById ins u).1 := by
  have hlies := (hS.lying b blk hb).at hi
  have hd : ∀ x, Merged cfg b i x → Denotes G ins x := fun x h => (h.holds hS hb).ridOf hlies
  rw [step_edits _ hlies.kinds (hd s hs), step_edits _ hlies.kinds (hd t ht), step_edits _ hlies.kinds (hd u (.join hs ht hu))]
  apply Merges.ok
  refine Merges.edits ?_ _
  cases ins with
  | moveInto dst src line => exact hs.record hS hx hb hi ht hu
  | _ => exact join_merges hu

theorem Merged.step (hS : Surveyed G F cfg) (hx : Unmixed cfg) (hb : cfg.blocks[b]? = some blk) {ins : Instr}
    (hi : blk.instrs[i]? = some ins) (h : Merged cfg b i st) : Merged cfg b (i + 1) (Lang.step cfg.symById ins st).1 := by
  induction h with
  | @path t ht =>
    have hafter : cfg.after (t ++ [ins]) = (Lang.step cfg.symById ins (cfg.after t)).1 := cfg.after_append t [ins]
    rw [← hafter]
    exact .path (.instr hb hi ht)
  | join hs ht hu ih₁ ih₂ => exact .join ih₁ ih₂ (hs.step_join hS hx hb hi ht hu)

theorem Merged.run (hS : Surveyed G F cfg) (hx : Unmixed cfg) (hb : cfg.blocks[b]? = some blk) (h : Merged cfg b 0 st) :
    ∀ i, i ≤ blk.instrs.length → Merged cfg b i (transfer cfg.symById (blk.instrs.take i) st).1 := by
  intro i
  induction i with
  | zero => exact fun _ => by simpa [transfer] using h
  | succ i ih =>
    intro hlt
    have hi : blk.instrs[i]? = some blk.instrs[i] := List.getElem?_eq_getElem hlt
    rw [take_succ_of_get hi, transfer_append]
    exact (ih (by omega)).step hS hx hb hi

theorem Merged.edge {c : Nat} (hb : cfg.blocks[b]? = some blk) (hc : c ∈ blk.succ) (h : Merged cfg b blk.instrs.length st) :
    Merged cfg c 0 st := by
  induction h with
  | path ht => exact .path (.edge hb hc ht)
  | join _ _ hu ih₁ ih₂ => exact .join ih₁ ih₂ hu

/-- So an instruction keeps the order of joined states. -/
theorem Merged.step_below (hS : Surveyed G F cfg) (hx : Unmixed cfg) (hb : cfg.blocks[b]? = some blk) {ins : Instr}
    (hi : blk.instrs[i]? = some ins) {s t : State} (hs : Merged cfg b i s) (ht : Merged cfg b i t) (hle : Below s t) :
    Below (Lang.step cfg.symById ins s).1 (Lang.step cfg.symById ins t).1 := by
  obtain ⟨u, hu, -⟩ := join_total (hs.holds hS hb) (ht.holds hS hb)
  have heq : u = t := Below.antisymm u t (join_least hu hle (Below.refl t)) (join_right hu)
  subst heq
  exact join_left (hs.step_join hS hx hb hi ht hu)

/-- A joined state is below whatever all the paths' states are below. -/
theorem Merged.least {v : State} (h : Merged cfg b i st) (hv : ∀ t, Path cfg b i t → Below (cfg.after t) v) : Below st v := by
  induction h with
  | path ht => exact hv _ ht
  | join _ _ hu ih₁ ih₂ => exact join_least hu ih₁ ih₂

/-! ## A run -/

theorem problem_wellFormed (hS : Surveyed G F cfg) : (problem (graph cfg) (ownership cfg)).WellFormed :=
  ⟨hS.forward.wellFormed.edge, hS.forward.wellFormed.closed⟩

theorem transfer_reachable (hb : cfg.blocks[b]? = some blk) (st : State) :
    (ownership cfg).transfer b (.reachable st) =
      .reachable (transfer cfg.symById (blk.instrs.take blk.instrs.length) st).1 := by
  show StateFact.reachable (transfer cfg.symById (cfg.instrs b) st).1 = _
  rw [List.take_length, CFG.instrs_of_get hb]

/-- A property of states, of a fact that may be bottom. -/
def StateFact.Has (Q : State → Prop) : StateFact → Prop
  | .bottom => True
  | .reachable st => Q st

theorem StateFact.join_ok {x y z : StateFact} (h : x.join y = .ok z) :
    (y = .bottom ∧ z = x) ∨ (x = .bottom ∧ z = y) ∨
      ∃ a b u, x = .reachable a ∧ y = .reachable b ∧ z = .reachable u ∧ Lang.join a b = .ok u := by
  cases y with
  | bottom =>
    cases x <;> cases h <;> exact Or.inl ⟨rfl, rfl⟩
  | reachable b =>
    cases x with
    | bottom =>
      cases h
      exact Or.inr (Or.inl ⟨rfl, rfl⟩)
    | reachable a =>
      unfold StateFact.join at h
      simp only at h
      split at h
      next u hu =>
        cases h
        exact Or.inr (Or.inr ⟨a, b, u, rfl, rfl, rfl, hu⟩)
      next => cases h

/-- What a join leaves is above both sides. -/
theorem StateFact.join_above {x y z : StateFact} (h : x.join y = .ok z) {a v : State} (hv : Below v a)
    (ha : x = .reachable a ∨ y = .reachable a) : ∃ u, z = .reachable u ∧ Below v u := by
  rcases StateFact.join_ok h with ⟨rfl, rfl⟩ | ⟨rfl, rfl⟩ | ⟨a', b', u, rfl, rfl, rfl, hu⟩
  · rcases ha with rfl | ha
    · exact ⟨a, rfl, hv⟩
    · cases ha
  · rcases ha with ha | rfl
    · cases ha
    · exact ⟨a, rfl, hv⟩
  · rcases ha with ha | ha
    · cases ha
      exact ⟨u, rfl, Below.trans _ _ _ hv (join_left hu)⟩
    · cases ha
      exact ⟨u, rfl, Below.trans _ _ _ hv (join_right hu)⟩

/-- No join stops a run. -/
theorem joins_total (hS : Surveyed G F cfg) :
    (problem (graph cfg) (ownership cfg)).Total fun b fact => fact.Has (Holds G (G.starting b) (F b)) where
  init := by
    show Holds G (G.starting cfg.entry) (F cfg.entry) cfg.initialState
    rw [hS.forward.entry]
    exact Holds.initial hS
  edge p c fact hp hc h := by
    cases fact with
    | bottom => trivial
    | reachable st =>
      obtain ⟨blk, hblk, hcs⟩ := CFG.mem_succ.mp hc
      have hend := (hS.run hblk h blk.instrs.length).1
      show StateFact.Has _ ((ownership cfg).transfer p (.reachable st))
      rw [transfer_reachable hblk]
      rw [List.take_length] at hend ⊢
      exact hend.edge hS hblk hcs
  join c x y hx hy := by
    cases y with
    | bottom => exact ⟨x, by cases x <;> rfl, hx⟩
    | reachable t =>
      cases x with
      | bottom => exact ⟨_, rfl, hy⟩
      | reachable s =>
        obtain ⟨u, hu, hh⟩ := join_total hx hy
        refine ⟨.reachable u, ?_, hh⟩
        show StateFact.join (.reachable s) (.reachable t) = _
        simp only [StateFact.join, hu]

/-- The in-facts of a run that returns: of every block, the least upper bound over the paths to it. -/
structure Converged (cfg : CFG) (facts : Dict Nat StateFact) : Prop where
  some_ : ∀ b < cfg.blocks.length, ∃ st, facts.get? b = some (.reachable st)
  lt : ∀ b fact, facts.get? b = some fact → b < cfg.blocks.length
  above : ∀ b st, facts.get? b = some (.reachable st) → ∀ t, Path cfg b 0 t → Below (cfg.after t) st
  least : ∀ b st v, facts.get? b = some (.reachable st) → (∀ t, Path cfg b 0 t → Below (cfg.after t) v) → Below st v

theorem Converged.unique {facts facts' : Dict Nat StateFact} (h : Converged cfg facts) (h' : Converged cfg facts') :
    facts = facts' := by
  apply Dict.ext_get?
  intro b
  by_cases hb : b < cfg.blocks.length
  · obtain ⟨s, hs⟩ := h.some_ b hb
    obtain ⟨t, ht⟩ := h'.some_ b hb
    have hst := h.least b s t hs (h'.above b t ht)
    have hts := h'.least b t s ht (h.above b s hs)
    rw [hs, ht, Below.antisymm s t hst hts]
  · cases hs : facts.get? b with
    | some fact => exact absurd (h.lt b fact hs) hb
    | none =>
      cases ht : facts'.get? b with
      | none => rfl
      | some fact => exact absurd (h'.lt b fact ht) hb

theorem solve_converged (hS : Surveyed G F cfg) (hx : Unmixed cfg) {schedule : Schedule} {n : Nat} {r : Run StateFact}
    (h : (problem (graph cfg) (ownership cfg)).solveBy (pop (graph cfg) schedule) n = .ok (some r)) : Converged cfg r.ins := by
  have hP := problem_wellFormed hS
  have hpop := pops (graph cfg) schedule
  obtain ⟨hsettled, honly⟩ := Problem.solveBy_equations hP hpop h
  have hnode : ∀ {b}, b ∈ (problem (graph cfg) (ownership cfg)).nodes ↔ b < cfg.blocks.length := hS.forward.mem_nodes
  have hentry : cfg.entry < cfg.blocks.length := by
    rw [hS.forward.entry]
    exact hS.some_
  -- every in-fact is a join along paths
  have hmerged : ∀ b st, r.ins.get? b = some (.reachable st) → Merged cfg b 0 st := by
    intro b st hst
    refine Problem.solveBy_induction (Q := fun b fact => fact.Has (Merged cfg b 0)) hP hpop ?_ ?_ ?_ ?_ h hst
    · exact Merged.path .entry
    · exact fun _ => trivial
    · intro p c fact _ hc hm
      cases fact with
      | bottom => trivial
      | reachable st =>
        obtain ⟨blk, hblk, hcs⟩ := CFG.mem_succ.mp hc
        show StateFact.Has _ ((ownership cfg).transfer p (.reachable st))
        rw [transfer_reachable hblk]
        exact (hm.run hS hx hblk _ (le_refl _)).edge hblk hcs
    · intro c x y z hx' hy' hz
      rcases StateFact.join_ok hz with ⟨rfl, rfl⟩ | ⟨rfl, rfl⟩ | ⟨s, t, u, rfl, rfl, rfl, hu⟩
      · exact hx'
      · exact hy'
      · exact Merged.join hx' hy' hu
  have hstart : r.ins.get? cfg.entry = some (.reachable cfg.initialState) := by
    obtain ⟨fact, hfact, hin, -⟩ := hsettled cfg.entry (hnode.mpr hentry)
    unfold Problem.inState at hin
    rw [if_pos (show cfg.entry = (problem (graph cfg) (ownership cfg)).entry from rfl)] at hin
    cases hin
    exact hfact
  -- what leaves a block is below what comes in where an edge leads
  have hedge : ∀ b (blk : Block) c st v, cfg.blocks[b]? = some blk → c ∈ blk.succ → c ≠ cfg.entry →
      r.ins.get? b = some (.reachable st) →
      Below v (transfer cfg.symById (blk.instrs.take blk.instrs.length) st).1 →
      ∃ u, r.ins.get? c = some (.reachable u) ∧ Below v u := by
    intro b blk c st v hb hc hne hst hle
    have hlt := (List.getElem?_eq_some_iff.mp hb).1
    obtain ⟨fact, hfact, -, hout⟩ := hsettled b (hnode.mpr hlt)
    rw [hst] at hfact
    cases hfact
    obtain ⟨fact', hfact', hin', -⟩ := hsettled c (hnode.mpr (hS.forward.edge b blk hb c hc))
    rw [show (problem (graph cfg) (ownership cfg)).transfer b (.reachable st) = _ from transfer_reachable hb st] at hout
    have hmem := Problem.mem_incoming.mpr ⟨b, mem_preds.mpr ⟨hlt, CFG.mem_succ.mpr ⟨blk, hb, hc⟩⟩, hnode.mpr hlt, hout⟩
    obtain ⟨u, hu, hbu⟩ := Problem.inState_keeps (R := fun fact => ∃ u, fact = .reachable u ∧ Below v u)
      (fun x y z hx' hz => by
        obtain ⟨a, rfl, ha⟩ := hx'
        exact StateFact.join_above hz ha (Or.inl rfl))
      (fun x y z hy' hz => by
        obtain ⟨a, rfl, ha⟩ := hy'
        exact StateFact.join_above hz ha (Or.inr rfl))
      hin' hne hmem ⟨_, rfl, hle⟩
    exact ⟨u, by rw [hfact', hu], hbu⟩
  have hsome : ∀ b < cfg.blocks.length, ∃ st, r.ins.get? b = some (.reachable st) := by
    intro b
    induction b using Nat.strong_induction_on with
    | _ b ih =>
      intro hlt
      by_cases hb : b = cfg.entry
      · exact ⟨_, hb ▸ hstart⟩
      · have hpos : 0 < b := by
          have := hS.forward.entry
          omega
        obtain ⟨p, hp, blk, hblk, hc⟩ := hS.forward.back b hpos hlt
        obtain ⟨st, hst⟩ := ih p hp (by omega)
        obtain ⟨u, hu, -⟩ := hedge p blk b st _ hblk hc hb hst (Below.refl _)
        exact ⟨u, hu⟩
  have habove : ∀ b i t, Path cfg b i t → ∀ st (blk : Block), cfg.blocks[b]? = some blk →
      r.ins.get? b = some (.reachable st) → Below (cfg.after t) (transfer cfg.symById (blk.instrs.take i) st).1 := by
    intro b i t ht
    induction ht with
    | entry =>
      intro st blk _ hst
      rw [hstart] at hst
      cases hst
      exact Below.refl _
    | @instr b i t blk ins hb hi hp ih =>
      intro st blk' hb' hst
      rw [hb] at hb'
      cases hb'
      have hlt := (List.getElem?_eq_some_iff.mp hi).1
      have hrun := (hmerged b st hst).run hS hx hb i (by omega)
      have hafter : cfg.after (t ++ [ins]) = (Lang.step cfg.symById ins (cfg.after t)).1 := cfg.after_append t [ins]
      rw [hafter, take_succ_of_get hi, transfer_append]
      exact (Merged.path hp).step_below hS hx hb hi hrun (ih st blk hb hst)
    | @edge b c t blk hb hc _ ih =>
      intro st blk' _ hst
      obtain ⟨s, hs⟩ := hsome b (List.getElem?_eq_some_iff.mp hb).1
      have hne : c ≠ cfg.entry := by
        have hpos := hS.positive b blk hb c hc
        rw [hS.forward.entry]
        omega
      obtain ⟨u, hu, hle⟩ := hedge b blk c s _ hb hc hne hs (ih s blk hb hs)
      rw [hst] at hu
      cases hu
      simpa [transfer] using hle
  refine ⟨hsome, fun b fact hb => hnode.mp (honly b fact hb), ?_, fun b st v hst => (hmerged b st hst).least⟩
  intro b st hst t ht
  obtain ⟨blk, hb, -⟩ := ht.holds hS
  simpa [transfer] using habove b 0 t ht st blk hb hst

end

theorem inFacts_agree (env : Env) (fn : FnDecl) :
    (∀ schedule e, inFacts (buildCfg env fn).1 schedule = .error e → e = .visits) ∧
      (Unmixed (buildCfg env fn).1 → ∀ schedule schedule' facts facts', inFacts (buildCfg env fn).1 schedule = .ok facts →
        inFacts (buildCfg env fn).1 schedule' = .ok facts' → facts = facts') := by
  obtain ⟨G, F, hS⟩ := build_surveyed env fn
  refine ⟨?_, ?_⟩
  · intro schedule e he
    obtain ⟨r, hr⟩ := Problem.solveBy_total (pop (graph (buildCfg env fn).1) schedule) (problem_wellFormed hS)
      (joins_total hS) (fun _ => trivial) (visitCap (graph (buildCfg env fn).1))
    unfold inFacts solveWith at he
    rw [hr] at he
    cases r with
    | none =>
      cases he
      rfl
    | some r => cases he
  · intro hx schedule schedule' facts facts' h h'
    have hconv : ∀ schedule facts, inFacts (buildCfg env fn).1 schedule = .ok facts → Converged (buildCfg env fn).1 facts := by
      intro schedule facts h
      unfold inFacts solveWith at h
      split at h
      next => cases h
      next => cases h
      next r hr =>
        cases h
        exact solve_converged hS hx hr
    exact (hconv schedule facts h).unique (hconv schedule' facts' h')

/-! ## Functions without findings -/

/-- Where no move is reported, every path has its source. -/
theorem quiet_unmixed {G : Layout} {cfg : CFG} (hL : LaidOut G cfg) {n : Nat} {ins : Dict Nat State}
    (hfix : cfg.fixpoint n = .ok ins) (hq : cfg.findings ins = []) : Unmixed cfg := by
  intro b blk i dst src line hb hi t₁ t₂ hp₁ hp₂ hown hgone
  have hsite := operand_exact hL hfix hb hi (show (Instr.moveInto dst src line).checked 0 = some src from rfl)
  have hmaybe := hsite.maybe.mpr ⟨fun h => Bool.noConfusion h.1, ⟨t₁, hp₁, hown⟩, t₂, hp₂, hgone⟩
  obtain ⟨d, hd, -⟩ := List.mem_filterMap.mp hmaybe
  have hin := hsite.reported d hd
  rw [hq] at hin
  cases hin

/-! ## Two schedules, two results -/

namespace Example

open Lang.Example (env converged converges converged_ok)

/-- `while (c) { let a = acquire R(); let b = move a; release b; }` -/
def movedEachRound : FnDecl :=
  { name := "movedEachRound", params := [], ret := none, line := 1
    body := [.while_ "c" [.let_ "a" (.acquire "R" [] 3) 3, .let_ "b" (.move "a" 4) 4, .release "b" 5] 2] }

/-- `let a = acquire R(); if (c) { let b = move a; release b; } let d = move a; release d; while (c) {}` -/
def movedMaybe : FnDecl :=
  { name := "movedMaybe", params := [], ret := none, line := 1
    body := [.let_ "a" (.acquire "R" [] 2) 2, .if_ "c" [.let_ "b" (.move "a" 4) 4, .release "b" 5] [] 3,
      .let_ "d" (.move "a" 7) 7, .release "d" 8, .while_ "c" [] 9] }

def facts (fn : FnDecl) (schedule : Schedule) : Dict Nat StateFact :=
  match inFacts (buildCfg env fn).1 schedule with
  | .ok facts => facts
  | .error _ => Dict.empty

def returns (fn : FnDecl) (schedule : Schedule) : Bool :=
  match inFacts (buildCfg env fn).1 schedule with
  | .ok _ => true
  | .error _ => false

theorem returns_ok {fn : FnDecl} {schedule : Schedule} (h : returns fn schedule) :
    inFacts (buildCfg env fn).1 schedule = .ok (facts fn schedule) := by
  unfold returns at h
  unfold facts
  split at h
  next hr => rw [hr]
  next => cases h

set_option maxRecDepth 8000 in
theorem movedEachRound_quiet : (buildCfg env movedEachRound).2 = [] ∧ converges (buildCfg env movedEachRound).1 ∧
    (buildCfg env movedEachRound).1.findings (converged (buildCfg env movedEachRound).1) = [] := by decide

set_option maxRecDepth 8000 in
theorem movedEachRound_returns : returns movedEachRound .rpo ∧ returns movedEachRound .postorder := by decide

set_option maxRecDepth 8000 in
theorem movedMaybe_returns : returns movedMaybe .rpo ∧ returns movedMaybe .postorder := by decide +kernel

set_option maxRecDepth 8000 in
/-- By reverse postorder the loop has `a` moved in line 7, by postorder still in line 4. -/
theorem movedMaybe_differs : facts movedMaybe .rpo ≠ facts movedMaybe .postorder := by decide +kernel

end Example

open Example Lang.Example in
theorem movedEachRound_agrees : facts movedEachRound .rpo = facts movedEachRound .postorder :=
  (inFacts_agree env movedEachRound).2
    (by
      obtain ⟨G, hL⟩ := buildCfg_laidOut env movedEachRound movedEachRound_quiet.1
      exact quiet_unmixed hL (converged_ok movedEachRound_quiet.2.1) movedEachRound_quiet.2.2)
    .rpo .postorder _ _ (returns_ok movedEachRound_returns.1) (returns_ok movedEachRound_returns.2)

open Example Lang.Example in
/-- The in-facts of `movedMaybe` are not those of every schedule. -/
theorem schedules_differ :
    ¬∀ (env : Env) (fn : FnDecl) (schedule schedule' : Schedule) (facts facts' : Dict Nat StateFact),
      inFacts (buildCfg env fn).1 schedule = .ok facts → inFacts (buildCfg env fn).1 schedule' = .ok facts' →
        facts = facts' := by
  intro h
  exact movedMaybe_differs (h env movedMaybe .rpo .postorder _ _ (returns_ok movedMaybe_returns.1)
    (returns_ok movedMaybe_returns.2))

end OwnNet.OwnAnalysis
