/-
  OwnNet.Lang.Convergence — the fixpoint of every function: its joins never fail, and where
  moves are steady it is reached.

  A move overwrites the site of its source only where the source may be owned, so it keeps
  the order of states only where all in-states agree on that. For an owner that some
  instruction started they do. An owner nothing starts counts as owned until a state is
  recorded for it: a back edge that brings the first one turns the test, and the sites may
  then go round for ever.

  Proved: `fixpoint_total`: no join of a run fails, and a function whose moves are `Steady`
  has a run that ends; `LaidOut.steady`: those of an accepted function are;
  `fixpoint_runs_on`: a function whose run never ends.
-/

import OwnNet.Lang.Exactness
import OwnNet.Lang.Survey
import OwnNet.Lang.Order
import OwnNet.Dataflow.Termination

namespace OwnNet.Lang

open Dataflow

/-! ## Paths over no back edge -/

inductive Ahead (cfg : CFG) : Nat → Nat → List Instr → Prop
  | entry : Ahead cfg cfg.entry 0 []
  | instr {b i : Nat} {t : List Instr} {blk : Block} {ins : Instr} : cfg.blocks[b]? = some blk →
      blk.instrs[i]? = some ins → Ahead cfg b i t → Ahead cfg b (i + 1) (t ++ [ins])
  | edge {b c : Nat} {t : List Instr} {blk : Block} : cfg.blocks[b]? = some blk → c ∈ blk.succ → b < c →
      Ahead cfg b blk.instrs.length t → Ahead cfg c 0 t

/-- Where a move is reached with a state recorded for its source, it is over no back edge too. -/
def Steady (cfg : CFG) : Prop :=
  ∀ (b : Nat) (blk : Block) (i : Nat) (dst src : Symbol) (line : Int), cfg.blocks[b]? = some blk →
    blk.instrs[i]? = some (.moveInto dst src line) →
    (∃ t, Path cfg b i t ∧ (cfg.after t).Recorded ((cfg.after t).ridOf src)) →
    ∃ t, Ahead cfg b i t ∧ (cfg.after t).Recorded ((cfg.after t).ridOf src)

section

variable {G : Layout} {F : Nat → Note} {cfg : CFG} {b : Nat} {blk : Block} {st : State}

theorem Ahead.path {i : Nat} {t : List Instr} (h : Ahead cfg b i t) : Path cfg b i t := by
  induction h with
  | entry => exact .entry
  | instr hb hi _ ih => exact .instr hb hi ih
  | edge hb hc _ _ ih => exact .edge hb hc ih

theorem Ahead.run {t : List Instr} (hb : cfg.blocks[b]? = some blk) (h : Ahead cfg b 0 t) :
    ∀ i, i ≤ blk.instrs.length → Ahead cfg b i (t ++ blk.instrs.take i) := by
  intro i
  induction i with
  | zero => exact fun _ => by simpa using h
  | succ i ih =>
    intro hlt
    have hi : blk.instrs[i]? = some blk.instrs[i] := List.getElem?_eq_getElem hlt
    rw [take_succ_of_get hi, ← List.append_assoc]
    exact .instr hb hi (ih (by omega))

/-- Where it comes to the block, and the code it has run there. -/
theorem Ahead.entering {i : Nat} {t : List Instr} (h : Ahead cfg b i t) (hb : cfg.blocks[b]? = some blk) :
    ∃ t₀, Ahead cfg b 0 t₀ ∧ t = t₀ ++ blk.instrs.take i := by
  induction h with
  | entry => exact ⟨[], .entry, by simp⟩
  | instr hb' hi _ ih =>
    rw [hb] at hb'
    cases hb'
    obtain ⟨t₀, h₀, rfl⟩ := ih hb
    exact ⟨t₀, h₀, by rw [take_succ_of_get hi, List.append_assoc]⟩
  | @edge b c t blk' hb' hc hlt hp _ => exact ⟨t, .edge hb' hc hlt hp, by simp⟩

theorem Ahead.last {t : List Instr} (h : Ahead cfg b 0 t) (hne : b ≠ cfg.entry) :
    ∃ p < b, ∃ blk : Block, cfg.blocks[p]? = some blk ∧ b ∈ blk.succ ∧ Ahead cfg p blk.instrs.length t := by
  generalize hi : (0 : Nat) = i at h
  cases h with
  | entry => exact absurd rfl hne
  | instr => omega
  | @edge p _ _ blk hp hc hlt hq => exact ⟨p, hlt, blk, hp, hc, hq⟩

theorem Ahead.first {t : List Instr} (hF : Forward cfg) (h : Ahead cfg cfg.entry 0 t) : t = [] := by
  generalize hi : (0 : Nat) = i at h
  generalize he : cfg.entry = e at h
  cases h with
  | entry => rfl
  | instr => omega
  | edge hb hc hlt hq =>
    rw [hF.entry] at he
    omega

theorem Forward.ahead (hF : Forward cfg) : ∀ b < cfg.blocks.length, ∃ t, Ahead cfg b 0 t := by
  intro b
  induction b using Nat.strong_induction_on with
  | _ b ih =>
    intro hlt
    by_cases hpos : b = 0
    · subst hpos
      have h : Ahead cfg cfg.entry 0 [] := .entry
      rw [hF.entry] at h
      exact ⟨[], h⟩
    · obtain ⟨p, hp, pblk, hpb, hmem⟩ := hF.back b (by omega) hlt
      obtain ⟨t, ht⟩ := ih p hp (by omega)
      exact ⟨_, .edge hpb hmem hp (ht.run hpb _ (le_refl _))⟩

/-! ## In-states -/

/-- What a state can be that comes into block `b`. -/
structure Arrives (G : Layout) (F : Nat → Note) (cfg : CFG) (b : Nat) (st : State) : Prop where
  holds : Holds G (G.starting b) (F b) st
  recorded : ∀ r, st.Recorded r → ∃ t, Path cfg b 0 t ∧ (cfg.after t).Recorded r

/-- The states that came over the forward edges are in it. -/
structure Gathers (G : Layout) (F : Nat → Note) (cfg : CFG) (b : Nat) (st : State) : Prop where
  owns : Owns G (G.starting b) (F b) st
  recorded : ∀ t, Ahead cfg b 0 t → ∀ r, (cfg.after t).Recorded r → st.Recorded r

theorem Path.enters (hS : Surveyed G F cfg) {t : List Instr} (h : Path cfg b 0 t) :
    Holds G (G.starting b) (F b) (cfg.after t) := by
  obtain ⟨blk, -, hh⟩ := h.holds hS
  exact hh

/-- What code records is what it marks, and what was recorded. -/
theorem recorded_run (hS : Surveyed G F cfg) (hb : cfg.blocks[b]? = some blk) (h : Holds G (G.starting b) (F b) st) (i r : Nat) :
    (transfer cfg.symById (blk.instrs.take i) st).1.Recorded r ↔
      (∃ v, lastMark r (marksOf G.rid (blk.instrs.take i)) = some v) ∨ st.Recorded r := by
  unfold State.Recorded
  rw [(hS.run hb h i).2, get?_setAll]
  cases lastMark r (marksOf G.rid (blk.instrs.take i)) with
  | some v => simp
  | none => simp

theorem Arrives.recorded_at (hS : Surveyed G F cfg) (h : Arrives G F cfg b st) (hb : cfg.blocks[b]? = some blk) {i : Nat}
    (hi : i ≤ blk.instrs.length) {r : Nat} (hr : (transfer cfg.symById (blk.instrs.take i) st).1.Recorded r) :
    ∃ t, Path cfg b i t ∧ (cfg.after t).Recorded r := by
  have hextend : ∀ t, Path cfg b 0 t →
      ((∃ v, lastMark r (marksOf G.rid (blk.instrs.take i)) = some v) ∨ (cfg.after t).Recorded r) →
      ∃ t, Path cfg b i t ∧ (cfg.after t).Recorded r := by
    intro t ht hor
    refine ⟨_, ht.run hb i hi, ?_⟩
    rw [CFG.after_append]
    exact (recorded_run hS hb (ht.enters hS) i r).mpr hor
  rcases (recorded_run hS hb h.holds i r).mp hr with hm | hst
  · obtain ⟨t, ht⟩ := hS.forward.ahead b (List.getElem?_eq_some_iff.mp hb).1
    exact hextend t ht.path (Or.inl hm)
  · obtain ⟨t, ht, hrec⟩ := h.recorded r hst
    exact hextend t ht (Or.inr hrec)

theorem Gathers.recorded_at (hS : Surveyed G F cfg) (h : Arrives G F cfg b st) (hg : Gathers G F cfg b st)
    (hb : cfg.blocks[b]? = some blk) {i : Nat} {t : List Instr} (ht : Ahead cfg b i t) {r : Nat}
    (hr : (cfg.after t).Recorded r) : (transfer cfg.symById (blk.instrs.take i) st).1.Recorded r := by
  obtain ⟨t₀, h₀, rfl⟩ := ht.entering hb
  rw [CFG.after_append] at hr
  rcases (recorded_run hS hb (h₀.path.enters hS) i r).mp hr with hm | hrec
  · exact (recorded_run hS hb h.holds i r).mpr (Or.inl hm)
  · exact (recorded_run hS hb h.holds i r).mpr (Or.inr (hg.recorded t₀ h₀ r hrec))

/-! ## Moves -/

/-- Whether the source of a move may be owned is the same in every in-state a visit finds: for a
    started owner the note says it, for another whether a forward path has recorded it. -/
theorem movable_iff (hS : Surveyed G F cfg) (hst : Steady cfg) (h : Arrives G F cfg b st) (hg : Gathers G F cfg b st)
    (hb : cfg.blocks[b]? = some blk) {i : Nat} {dst src : Symbol} {line : Int}
    (hi : blk.instrs[i]? = some (.moveInto dst src line)) :
    (Instr.moveInto dst src line).movable (transfer cfg.symById (blk.instrs.take i) st).1 ↔
      if G.born (G.rid src.id) then ((F b).run G.rid (blk.instrs.take i)).owned (G.rid src.id)
      else ¬∃ t, Ahead cfg b i t ∧ (cfg.after t).Recorded (G.rid src.id) := by
  have hlt : b < cfg.blocks.length := (List.getElem?_eq_some_iff.mp hb).1
  have hlies := (hS.lying b blk hb).at hi
  have hK := (hS.whole b hlt).after ((hS.lying b blk hb).take i)
  have hhere := (hS.run hb h.holds i).1
  have hown := hg.owns.run cfg.symById h.holds (hS.whole b hlt) ((hS.lying b blk hb).take i)
  have hrid := hhere.ridOf hlies src List.mem_cons_self hlies.kinds.2
  show .owned ∈ State.states (transfer cfg.symById (blk.instrs.take i) st).1 src ↔ _
  unfold State.states
  rw [hrid]
  have hroot := hlies.rooted src List.mem_cons_self hlies.kinds.2
  cases hborn : G.born (G.rid src.id) with
  | true =>
    rw [if_pos rfl]
    have hsrc : G.born src.id := by
      cases hsb : G.born src.id with
      | true => rfl
      | false =>
        rw [hroot.2 hsb, hsb] at hborn
        cases hborn
    obtain ⟨k, hk, hko, hid⟩ := hK.root src (hlies.fits.touched src List.mem_cons_self hsrc) hlies.kinds.2 hborn
    have hself : G.rid k.id = k.id := by rw [hid, hroot.1]
    obtain ⟨S, hS', himp⟩ := hhere.held k hk hko hself
    rw [← hid, Dict.getD, hS']
    exact ⟨himp, fun hn => hown k hk hko hself hn S hS'⟩
  | false =>
    rw [if_neg (by simp)]
    -- a path's own state denotes the source the same way
    have hsame : ∀ t, Path cfg b i t → (cfg.after t).ridOf src = G.rid src.id := by
      intro t ht
      obtain ⟨blk', hb', hh⟩ := ht.holds hS
      rw [hb] at hb'
      cases hb'
      exact hh.ridOf hlies src List.mem_cons_self hlies.kinds.2
    cases hvar : (transfer cfg.symById (blk.instrs.take i) st).1.var.get? (G.rid src.id) with
    | none =>
      rw [Dict.getD, hvar]
      refine ⟨fun _ hex => ?_, fun _ => Finset.mem_singleton_self _⟩
      obtain ⟨t, ht, hr⟩ := hex
      obtain ⟨S, hrec⟩ := hg.recorded_at hS h hb ht hr
      rw [hvar] at hrec
      cases hrec
    | some S =>
      rw [Dict.getD, hvar]
      have hno : .owned ∉ S := by
        intro hin
        have := hhere.born _ S hvar hin
        rw [hborn] at this
        cases this
      refine ⟨fun hin => absurd hin hno, fun hno' => absurd ?_ hno'⟩
      obtain ⟨t, ht, hr⟩ := h.recorded_at hS hb (Nat.le_of_lt (List.getElem?_eq_some_iff.mp hi).1) ⟨S, hvar⟩
      rw [← hsame t ht] at hr
      obtain ⟨t', ht', hr'⟩ := hst b blk i dst src line hb hi ⟨t, ht, hr⟩
      rw [hsame t' ht'.path] at hr'
      exact ⟨t', ht', hr'⟩

/-- Code keeps the order of two in-states. -/
theorem run_below (hS : Surveyed G F cfg) (hst : Steady cfg) {st' : State} (h : Arrives G F cfg b st) (hg : Gathers G F cfg b st)
    (h' : Arrives G F cfg b st') (hg' : Gathers G F cfg b st') (hb : cfg.blocks[b]? = some blk) (hle : Below st st') :
    ∀ i, i ≤ blk.instrs.length →
      Below (transfer cfg.symById (blk.instrs.take i) st).1 (transfer cfg.symById (blk.instrs.take i) st').1 := by
  intro i
  induction i with
  | zero => exact fun _ => by simpa [transfer] using hle
  | succ i ih =>
    intro hlt
    obtain ⟨ins, hi⟩ : ∃ ins, blk.instrs[i]? = some ins := ⟨_, List.getElem?_eq_getElem hlt⟩
    have hlies := (hS.lying b blk hb).at hi
    rw [take_succ_of_get hi, transfer_append, transfer_append]
    refine step_below (ih (by omega)) hlies.kinds ((hS.run hb h.holds i).1.ridOf hlies) ((hS.run hb h'.holds i).1.ridOf hlies) ?_
    cases ins with
    | moveInto dst src line => rw [movable_iff hS hst h hg hb hi, movable_iff hS hst h' hg' hb hi]
    | _ => exact Iff.rfl

/-! ## The worklist -/

def CFG.places (G : Layout) (cfg : CFG) : Set Nat :=
  {n | ∃ s ∈ cfg.params ++ cfg.blocks.flatMap fun blk => blk.instrs.flatMap Instr.symbols, n = s.id ∨ n = G.rid s.id}

def CFG.lines (cfg : CFG) : Set Int := {l | ∃ ins ∈ cfg.blocks.flatMap Block.instrs, l = ins.line}

theorem CFG.finite_places (cfg : CFG) : (cfg.places G).Finite := by
  have hpart : ∀ f : Symbol → Nat, {n | ∃ s ∈ cfg.params ++ cfg.blocks.flatMap fun blk => blk.instrs.flatMap Instr.symbols,
      n = f s}.Finite := by
    intro f
    refine (List.finite_toSet ((cfg.params ++ cfg.blocks.flatMap fun blk => blk.instrs.flatMap Instr.symbols).map f)).subset ?_
    intro n hn
    obtain ⟨s, hs, rfl⟩ := hn
    exact List.mem_map_of_mem hs
  refine ((hpart Symbol.id).union (hpart fun s => G.rid s.id)).subset ?_
  intro n hn
  obtain ⟨s, hs, h | h⟩ := hn
  · exact Or.inl ⟨s, hs, h⟩
  · exact Or.inr ⟨s, hs, h⟩

theorem CFG.finite_lines (cfg : CFG) : cfg.lines.Finite := by
  refine (List.finite_toSet ((cfg.blocks.flatMap Block.instrs).map Instr.line)).subset ?_
  intro l hl
  obtain ⟨ins, hins, rfl⟩ := hl
  exact List.mem_map_of_mem hins

theorem Small.initial (G : Layout) (cfg : CFG) : Small (cfg.places G) cfg.lines cfg.initialState := by
  have hall : ∀ (ps : List Symbol) (st : State), (∀ p ∈ ps, p.id ∈ cfg.places G) → Small (cfg.places G) cfg.lines st →
      Small (cfg.places G) cfg.lines (ps.foldl State.own st) := by
    intro ps
    induction ps with
    | nil => exact fun _ _ h => h
    | cons p rest ih =>
      intro st hps h
      have hp := hps p List.mem_cons_self
      exact ih _ (fun q hq => hps q (List.mem_cons_of_mem _ hq))
        ⟨h.handles.set hp hp, h.var.set hp (Set.mem_univ _), h.moved, h.acquired⟩
  refine hall (cfg.params.filter (·.kind = .owned)) {} (fun p hp => ?_) ⟨?_, ?_, ?_, ?_⟩
  · exact ⟨p, List.mem_append_left _ (List.mem_filter.mp hp).1, Or.inl rfl⟩
  all_goals exact fun k v hv => by cases hv

/-- What comes into a block, of finitely many states. -/
def Incoming (G : Layout) (F : Nat → Note) (cfg : CFG) (b : Nat) (st : State) : Prop :=
  Arrives G F cfg b st ∧ Small (cfg.places G) cfg.lines st

theorem instrs_end (hb : cfg.blocks[b]? = some blk) (st : State) :
    cfg.problem.transfer b st = (transfer cfg.symById (blk.instrs.take blk.instrs.length) st).1 := by
  show (transfer cfg.symById (cfg.instrs b) st).1 = _
  rw [List.take_length, CFG.instrs_of_get hb]

theorem incoming_total (hS : Surveyed G F cfg) : cfg.problem.Total (Incoming G F cfg) := by
  refine ⟨?_, ?_, ?_⟩
  · refine ⟨⟨?_, fun r hr => ⟨[], .entry, hr⟩⟩, Small.initial G cfg⟩
    show Holds G (G.starting cfg.entry) (F cfg.entry) cfg.initialState
    rw [hS.forward.entry]
    exact Holds.initial hS
  · intro p c st hp hc h
    obtain ⟨blk, hblk, hcs⟩ := CFG.mem_succ.mp hc
    have hlt : p < cfg.blocks.length := hS.forward.mem_nodes.mp hp
    have hend := (hS.run hblk h.1.holds blk.instrs.length).1
    rw [instrs_end hblk]
    refine ⟨⟨?_, ?_⟩, ?_⟩
    · rw [List.take_length] at hend ⊢
      exact hend.edge hS hblk hcs
    · intro r hr
      obtain ⟨t, ht, hrec⟩ := h.1.recorded_at hS hblk (le_refl _) hr
      exact ⟨t, .edge hblk hcs ht, hrec⟩
    · rw [List.take_length]
      have hmem : ∀ ins ∈ blk.instrs, ins ∈ cfg.blocks.flatMap Block.instrs := fun ins hins =>
        List.mem_flatMap.mpr ⟨blk, List.mem_of_getElem? hblk, hins⟩
      refine h.2.run h.1.holds (hS.whole p hlt) (hS.lying p blk hblk) (fun ins hins s hs => ?_)
        fun ins hins => ⟨ins, hmem ins hins, rfl⟩
      have hsym : s ∈ cfg.params ++ cfg.blocks.flatMap fun blk => blk.instrs.flatMap Instr.symbols :=
        List.mem_append_right _ (List.mem_flatMap.mpr ⟨blk, List.mem_of_getElem? hblk, List.mem_flatMap.mpr ⟨ins, hins, hs⟩⟩)
      exact ⟨⟨s, hsym, Or.inl rfl⟩, ⟨s, hsym, Or.inr rfl⟩⟩
  · intro c s t hs ht
    obtain ⟨u, hu, hh⟩ := join_total hs.1.holds ht.1.holds
    refine ⟨u, hu, ⟨hh, ?_⟩, hs.2.join ht.2 hu⟩
    intro r hr
    obtain ⟨S, hS'⟩ := hr
    rw [(join_ok hu).var] at hS'
    cases hsr : s.var.get? r with
    | some T => exact hs.1.recorded r ⟨T, hsr⟩
    | none =>
      rw [hsr] at hS'
      exact ht.1.recorded r ⟨S, by simpa using hS'⟩

/-- A visit after those of the smaller blocks gathers what they gave. -/
theorem visit_gathers (hS : Surveyed G F cfg) {outs : Dict Nat State} (hb : b ∈ cfg.nodes)
    (hg : cfg.problem.Given (fun p s => Incoming G F cfg p s ∧ Gathers G F cfg p s) outs)
    (hsmall : ∀ p ∈ cfg.nodes, p < b → (outs.get? p).isSome) (hin : cfg.problem.inState outs b = .ok st) :
    Gathers G F cfg b st := by
  by_cases hentry : b = cfg.entry
  · have hst : st = cfg.initialState := by
      unfold Problem.inState at hin
      rw [if_pos (show b = cfg.problem.entry from hentry)] at hin
      cases hin
      rfl
    subst hst hentry
    refine ⟨?_, ?_⟩
    · intro k hk _ _ _ S hS'
      rw [initialState_var, get?_setAll] at hS'
      cases hm : lastMark k.id cfg.paramMarks with
      | none =>
        rw [hm] at hS'
        cases hS'
      | some v =>
        rw [hm] at hS'
        cases hS'
        obtain ⟨p, -, he⟩ := List.mem_map.mp (mem_of_lastMark hm)
        exact Finset.mem_singleton.mpr (congrArg Prod.snd he)
    · intro t ht r hr
      rw [ht.first hS.forward] at hr
      exact hr
  · have hlt : b < cfg.blocks.length := hS.forward.mem_nodes.mp hb
    -- what a smaller predecessor gave is among the incoming states
    have hcomes : ∀ p < b, ∀ blk : Block, cfg.blocks[p]? = some blk → b ∈ blk.succ → ∃ s, Incoming G F cfg p s ∧
        Gathers G F cfg p s ∧ (transfer cfg.symById (blk.instrs.take blk.instrs.length) s).1 ∈ cfg.problem.incoming outs b := by
      intro p hp blk hblk hc
      have hpn : p ∈ cfg.nodes := hS.forward.mem_nodes.mpr (List.getElem?_eq_some_iff.mp hblk).1
      obtain ⟨o, ho⟩ := Option.isSome_iff_exists.mp (hsmall p hpn hp)
      obtain ⟨s, ⟨h1, h2⟩, rfl⟩ := hg p o ho
      refine ⟨s, h1, h2, ?_⟩
      rw [← instrs_end hblk]
      exact Problem.mem_incoming.mpr ⟨p, mem_preds.mpr ⟨by omega, CFG.mem_succ.mpr ⟨blk, hblk, hc⟩⟩, hpn, ho⟩
    refine ⟨?_, ?_⟩
    · intro k hk hko hroot hown S hvar
      obtain ⟨p, hp, blk, hblk, hc, hend⟩ := hS.lower b (by have := hS.forward.entry; omega) hlt k.id hown
      obtain ⟨s, h1, h2, hmem⟩ := hcomes p hp blk hblk hc
      have hpl : p < cfg.blocks.length := by omega
      have hko' := hS.knows p blk hblk b hc k hk
      have hhere := (hS.run hblk h1.1.holds blk.instrs.length).1
      have howns := h2.owns.run cfg.symById h1.1.holds (hS.whole p hpl) (hS.lying p blk hblk)
      rw [List.take_length] at hhere hmem
      obtain ⟨T, hT, -⟩ := hhere.held k hko' hko hroot
      obtain ⟨U, hU, hin'⟩ := Problem.inState_keeps (R := fun u => ∃ U, u.var.get? k.id = some U ∧ .owned ∈ U)
        (fun x y u hx hu => by
          obtain ⟨X, hX, hXo⟩ := hx
          obtain ⟨Y, hY, hsub⟩ := (join_left hu).var k.id X hX
          exact ⟨Y, hY, hsub hXo⟩)
        (fun x y u hy hu => by
          obtain ⟨X, hX, hXo⟩ := hy
          obtain ⟨Y, hY, hsub⟩ := (join_right hu).var k.id X hX
          exact ⟨Y, hY, hsub hXo⟩)
        hin hentry hmem ⟨T, hT, howns k hko' hko hroot hend T hT⟩
      rw [hvar] at hU
      cases hU
      exact hin'
    · intro t ht r hr
      obtain ⟨p, hp, blk, hblk, hc, hpath⟩ := ht.last hentry
      obtain ⟨s, h1, h2, hmem⟩ := hcomes p hp blk hblk hc
      have hrec := h2.recorded_at hS h1.1 hblk hpath hr
      exact Problem.inState_keeps (R := fun u => u.Recorded r)
        (fun x y u hx hu => by
          obtain ⟨X, hX⟩ := hx
          obtain ⟨Y, hY, -⟩ := (join_left hu).var r X hX
          exact ⟨Y, hY⟩)
        (fun x y u hy hu => by
          obtain ⟨X, hX⟩ := hy
          obtain ⟨Y, hY, -⟩ := (join_right hu).var r X hX
          exact ⟨Y, hY⟩)
        hin hentry hmem hrec

theorem climbing (hS : Surveyed G F cfg) (hst : Steady cfg) :
    cfg.problem.Climbing Below fun b st => Incoming G F cfg b st ∧ Gathers G F cfg b st where
  refl := Below.refl
  trans := Below.trans
  antisymm := Below.antisymm
  left _ _ _ h := join_left h
  right _ _ _ h := join_right h
  least _ _ _ _ h := join_least h
  mono b hb s t hs ht hle := by
    have hblk := List.getElem?_eq_getElem (hS.forward.mem_nodes.mp hb)
    rw [instrs_end hblk, instrs_end hblk]
    exact run_below hS hst hs.1.1 hs.2 ht.1.1 ht.2 hblk hle _ (le_refl _)
  finite b _ := by
    have hfin := (finite_small (cfg.finite_places (G := G)) cfg.finite_lines (F b).loans).image (cfg.problem.transfer b)
    refine hfin.subset ?_
    intro o ho
    obtain ⟨s, ⟨hs, -⟩, rfl⟩ := ho
    exact ⟨s, ⟨hs.2, hs.1.holds.loans⟩, rfl⟩
  visit b hb outs hg hsmall := by
    have hgiven : cfg.problem.Given (Incoming G F cfg) outs := by
      intro p o ho
      obtain ⟨s, hs, he⟩ := hg p o ho
      exact ⟨s, hs.1, he⟩
    obtain ⟨s, hs, hQ⟩ := (incoming_total hS).inState hS.forward.wellFormed hS.forward.ordered hgiven hb hsmall
    exact ⟨s, hs, hQ, visit_gathers hS hb hg hsmall hs⟩

end

/-- Of every function no join fails, however long the fixpoint runs; and it ends where the moves are steady. -/
theorem fixpoint_total (env : Env) (fn : FnDecl) :
    (∀ n, (buildCfg env fn).1.fixpoint n ≠ .error .loans ∧ (buildCfg env fn).1.fixpoint n ≠ .error .handles) ∧
      (Steady (buildCfg env fn).1 → ∃ n ins, (buildCfg env fn).1.fixpoint n = .ok ins) := by
  obtain ⟨G, F, hS⟩ := build_surveyed env fn
  refine ⟨fun n => ?_, fun hst => ?_⟩
  · obtain ⟨r, hr⟩ := (incoming_total hS).solve hS.forward.wellFormed hS.forward.ordered n
    unfold CFG.fixpoint
    rw [hr]
    cases r with
    | none => exact ⟨(by intro h; cases h), (by intro h; cases h)⟩
    | some r => exact ⟨(by intro h; cases h), (by intro h; cases h)⟩
  · obtain ⟨n, r, hr⟩ := (climbing hS hst).solve hS.forward.ordered
    exact ⟨n, r.ins, by unfold CFG.fixpoint; rw [hr]⟩

/-! ## Accepted functions -/

/-- Every resource an accepted function moves has a state on every path. -/
theorem LaidOut.steady {G : Layout} {cfg : CFG} (hL : LaidOut G cfg) : Steady cfg := by
  intro b blk i dst src line hb hi _
  have hlt : i < blk.instrs.length := (List.getElem?_eq_some_iff.mp hi).1
  obtain ⟨t, ht⟩ := hL.forward.ahead b (List.getElem?_eq_some_iff.mp hb).1
  have hhere := ht.run hb i (by omega)
  obtain ⟨blk', hon⟩ := hhere.path.onPath hL
  have heq : blk' = blk := Option.some.inj (hon.here.symm.trans hb)
  subst heq
  have hsits := (hL.block b blk' hb).sitting.at hi
  have hkind : src.kind = .owned := hsits.kinds.2
  have hmem := hsits.mem_of_owned List.mem_cons_self hkind
  refine ⟨_, hhere, ?_⟩
  rw [hon.tracks.ridOf hmem hkind]
  exact hon.tracks.held src hmem hkind

theorem accepted_converges (env : Env) (fn : FnDecl) (hnil : (buildCfg env fn).2 = []) :
    ∃ n ins, (buildCfg env fn).1.fixpoint n = .ok ins := by
  obtain ⟨G, hL⟩ := buildCfg_laidOut env fn hnil
  exact (fixpoint_total env fn).2 hL.steady

/-! ## Round for ever -/

namespace Example

/-- `while (c) { let x = acquire R(); let y = move x; release y; }` -/
def movedInLoop : FnDecl :=
  { name := "movedInLoop", params := [], ret := none, line := 1
    body := [.while_ "c" [.let_ "x" (.acquire "R" [] 3) 3, .let_ "y" (.move "x" 4) 4, .release "y" 5] 2] }

/-- `r` is not defined, so nothing starts `p`:
    `let p = move r; while (a) { while (b) { let q = move p; if (c) {} else {} } let s = move p; }` -/
def circling : FnDecl :=
  { name := "circling", params := [], ret := none, line := 1
    body := [.let_ "p" (.move "r" 2) 2,
      .while_ "a" [.while_ "b" [.let_ "q" (.move "p" 5) 5, .if_ "c" [] [] 6] 4, .let_ "s" (.move "p" 9) 9] 3] }

set_option maxRecDepth 4000 in
theorem movedInLoop_accepted : (buildCfg env movedInLoop).2 = [] := by decide

set_option maxRecDepth 8000 in
/-- After twenty-seven visits, every eighteen more come back to the same run. -/
theorem circling_returns :
    ((buildCfg env circling).1.problem.advances 27 (buildCfg env circling).1.problem.start).isSome ∧
      ((buildCfg env circling).1.problem.advances 27 (buildCfg env circling).1.problem.start).bind
          ((buildCfg env circling).1.problem.advances 18) =
        (buildCfg env circling).1.problem.advances 27 (buildCfg env circling).1.problem.start := by
  decide +kernel

end Example

open Example in
theorem movedInLoop_converges : ∃ n ins, (buildCfg env movedInLoop).1.fixpoint n = .ok ins :=
  (fixpoint_total env movedInLoop).2 (by
    obtain ⟨G, hL⟩ := buildCfg_laidOut env movedInLoop movedInLoop_accepted
    exact hL.steady)

open Example in
/-- The fixpoint of `circling` is never reached. -/
theorem fixpoint_runs_on :
    ¬∀ (env : Env) (fn : FnDecl), ∃ n ins, (buildCfg env fn).1.fixpoint n = .ok ins := by
  intro h
  obtain ⟨n, ins, hfix⟩ := h env circling
  have hon := Problem.runs_on circling_returns.1 circling_returns.2 n
  unfold CFG.fixpoint at hfix
  rw [hon] at hfix
  cases hfix

end OwnNet.Lang
