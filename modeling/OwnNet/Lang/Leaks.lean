/-
  OwnNet.Lang.Leaks — of any function whose analysis ends: which leaks are reported, by the
  marks along the paths to its exits.

  Proved: `Surveyed.stateAt_exact`: the converged states of a resource are those some path
  gives it; `leak_reported_iff`: a leak of a source is reported exactly if along some path to
  an exit the last mark on one of its resources is that it is owned.
-/

import OwnNet.Lang.Exactness
import OwnNet.Lang.Survey

namespace OwnNet.Lang

section

variable {G : Layout} {F : Nat → Note} {cfg : CFG} {n : Nat} {ins : Dict Nat State}

/-- The marks along a path. -/
theorem Path.marked (hS : Surveyed G F cfg) {b i : Nat} {t : List Instr} (h : Path cfg b i t) :
    (cfg.after t).var = setAll (cfg.paramMarks ++ marksOf G.rid t) Dict.empty := by
  induction h with
  | entry =>
    rw [marksOf, List.flatMap_nil, List.append_nil]
    exact initialState_var cfg
  | @instr b i t blk a hb hi hpath ih =>
    obtain ⟨blk', hb', hh⟩ := hpath.holds hS
    rw [hb] at hb'
    cases hb'
    have hK := (hS.whole b (List.getElem?_eq_some_iff.mp hb).1).after ((hS.lying b blk hb).take i)
    have hrun := (hh.run (l := [a]) cfg.symById hK ⟨(hS.lying b blk hb).at hi, trivial⟩).2
    rw [CFG.after_append, hrun, ih, ← setAll_append, marksOf_append, List.append_assoc]
  | edge _ _ _ ih => exact ih

theorem Path.state_iff (hS : Surveyed G F cfg) {b i : Nat} {t : List Instr} (h : Path cfg b i t) (r : Nat) (v : VarState) :
    (cfg.after t).var.get? r = some {v} ↔ lastMark r (cfg.paramMarks ++ marksOf G.rid t) = some v := by
  rw [h.marked hS, get?_setAll]
  cases lastMark r (cfg.paramMarks ++ marksOf G.rid t) with
  | none => simp
  | some w => simp [Finset.singleton_inj]

/-- What holds of every in-state: it agrees with its place, and a path gives each of its states. -/
structure Surfaced (G : Layout) (F : Nat → Note) (cfg : CFG) (b : Nat) (st : State) : Prop where
  holds : Holds G (G.starting b) (F b) st
  path : ∀ r S v, st.var.get? r = some S → v ∈ S → ∃ t, Path cfg b 0 t ∧ (cfg.after t).var.get? r = some {v}

theorem Surveyed.reached (hS : Surveyed G F cfg) {b : Nat} : b < cfg.blocks.length → ∃ t, Path cfg b 0 t := by
  induction b using Nat.strong_induction_on with
  | _ b ih =>
    intro hlt
    by_cases hpos : b = 0
    · have h : Path cfg cfg.entry 0 [] := .entry
      rw [hS.forward.entry] at h
      exact ⟨[], hpos ▸ h⟩
    · obtain ⟨p, hp, blk, hblk, hc⟩ := hS.forward.back b (by omega) hlt
      obtain ⟨t, ht⟩ := ih p hp (by omega)
      exact ⟨_, .edge hblk hc (ht.run hblk _ (le_refl _))⟩

theorem Surfaced.run (hS : Surveyed G F cfg) {b i : Nat} {blk : Block} {st : State} (h : Surfaced G F cfg b st)
    (hb : cfg.blocks[b]? = some blk) (hi : i ≤ blk.instrs.length) {r : Nat} {S : Finset VarState} {v : VarState}
    (hr : (transfer cfg.symById (blk.instrs.take i) st).1.var.get? r = some S) (hv : v ∈ S) :
    ∃ t, Path cfg b i t ∧ (cfg.after t).var.get? r = some {v} := by
  -- a path through the instructions puts their marks on what it had before
  have hthrough : ∀ t, Path cfg b 0 t →
      (cfg.after (t ++ blk.instrs.take i)).var = setAll (marksOf G.rid (blk.instrs.take i)) (cfg.after t).var := by
    intro t ht
    rw [CFG.after_append]
    obtain ⟨blk', -, hh⟩ := ht.holds hS
    exact (hS.run hb hh i).2
  rw [(hS.run hb h.holds i).2, get?_setAll] at hr
  split at hr
  next w hw =>
    cases hr
    obtain ⟨t, ht⟩ := hS.reached (List.getElem?_eq_some_iff.mp hb).1
    refine ⟨_, ht.run hb i hi, ?_⟩
    rw [hthrough t ht, get?_setAll, hw, Finset.mem_singleton.mp hv]
  next hw =>
    obtain ⟨t, ht, hvar⟩ := h.path r S v hr hv
    refine ⟨_, ht.run hb i hi, ?_⟩
    rw [hthrough t ht, get?_setAll, hw]
    exact hvar

theorem Surveyed.surfaced (hS : Surveyed G F cfg) (hfix : cfg.fixpoint n = .ok ins) {b : Nat} {st : State}
    (hst : ins.get? b = some st) : Surfaced G F cfg b st := by
  obtain ⟨r, hr, rfl⟩ := fixpoint_ok hfix
  refine Dataflow.Problem.solve_induction (Q := Surfaced G F cfg) hS.forward.wellFormed hS.forward.ordered ?_ ?_ ?_ hr hst
  · have hzero : (cfg.problem).entry = 0 := hS.forward.entry
    rw [hzero]
    refine ⟨Holds.initial hS, fun r S v hr hv => ?_⟩
    have hentry : Path cfg cfg.entry 0 [] := .entry
    rw [hS.forward.entry] at hentry
    refine ⟨[], hentry, ?_⟩
    have hr' : (cfg.after []).var.get? r = some S := hr
    rw [hentry.marked hS, get?_setAll] at hr' ⊢
    split at hr'
    next w hw =>
      cases hr'
      rw [Finset.mem_singleton.mp hv]
    next => cases hr'
  · intro p c st hp hc hQ
    obtain ⟨blk, hb, hmem⟩ := CFG.mem_succ.mp hc
    have htr : cfg.problem.transfer p st = (transfer cfg.symById (blk.instrs.take blk.instrs.length) st).1 := by
      show (transfer cfg.symById (cfg.instrs p) st).1 = _
      rw [CFG.instrs_of_get hb, List.take_length]
    rw [htr]
    refine ⟨?_, fun r S v hr hv => ?_⟩
    · have hend := (hS.run hb hQ.holds blk.instrs.length).1
      rw [List.take_length] at hend ⊢
      exact hend.edge hS hb hmem
    · obtain ⟨t, ht, hvar⟩ := hQ.run hS hb (le_refl _) hr hv
      exact ⟨t, .edge hb hmem ht, hvar⟩
  · intro b s t u hs ht hu
    obtain ⟨u', hu', hholds⟩ := join_total hs.holds ht.holds
    have hsame : u' = u := Except.ok.inj (hu'.symm.trans hu)
    subst hsame
    refine ⟨hholds, fun r S v hr hv => ?_⟩
    rcases (join_ok hu).mem hr hv with ⟨T, hT, hvT⟩ | ⟨T, hT, hvT⟩
    · exact hs.path r T v hT hvT
    · exact ht.path r T v hT hvT

/-- Every state of a path is among the converged ones. -/
theorem Path.among (hS : Surveyed G F cfg) (hfix : cfg.fixpoint n = .ok ins) {b i : Nat} {t : List Instr}
    (h : Path cfg b i t) : ∀ r S, (cfg.after t).var.get? r = some S →
    ∃ S', (cfg.stateAt ins b i).var.get? r = some S' ∧ S ⊆ S' := by
  induction h with
  | entry =>
    rw [CFG.stateAt_zero (hS.forward.entryState hS.some_ hfix)]
    exact fun r S h => ⟨S, h, Finset.Subset.refl S⟩
  | @instr b i t blk a hb hi hpath ih =>
    obtain ⟨blk', hb', hh⟩ := hpath.holds hS
    rw [hb] at hb'
    cases hb'
    obtain ⟨st, hst⟩ := hS.forward.inState hfix hb
    have hsur := (hS.surfaced hfix hst).holds
    have hK := (hS.whole b (List.getElem?_eq_some_iff.mp hb).1).after ((hS.lying b blk hb).take i)
    have hlie : Lying G (knownAfter (G.starting b) (blk.instrs.take i)) [a] := ⟨(hS.lying b blk hb).at hi, trivial⟩
    have hpathvar := (hh.run cfg.symById hK hlie).2
    have hstatevar := ((hS.run hb hsur i).1.run cfg.symById hK hlie).2
    intro r S hr
    rw [CFG.after_append, hpathvar, get?_setAll] at hr
    rw [CFG.stateAt_of_get hb hst, take_succ_of_get hi, transfer_append]
    rw [CFG.stateAt_of_get hb hst] at ih
    show ∃ S', (transfer cfg.symById [a] (transfer cfg.symById (blk.instrs.take i) st).1).1.var.get? r = some S' ∧ _
    rw [hstatevar, get?_setAll]
    cases hm : lastMark r (marksOf G.rid [a]) with
    | some w =>
      rw [hm] at hr
      cases hr
      exact ⟨{w}, rfl, Finset.Subset.refl _⟩
    | none =>
      rw [hm] at hr
      exact ih r S hr
  | @edge b c t blk hb hc hpath ih =>
    refine hS.forward.stateAt_edge hfix
      (R := fun s => ∀ r S, (cfg.after t).var.get? r = some S → ∃ S', s.var.get? r = some S' ∧ S ⊆ S')
      ?_ ?_ hb hc (hS.positive b blk hb c hc) ih
    · intro s u v hs hv r S hS'
      obtain ⟨T, hT, hsub⟩ := hs r S hS'
      rw [(join_ok hv).var, hT]
      cases u.var.get? r with
      | none => exact ⟨T, rfl, hsub⟩
      | some U => exact ⟨T ∪ U, rfl, fun x hx => Finset.mem_union_left _ (hsub hx)⟩
    · intro s u v hs hv r S hS'
      obtain ⟨T, hT, hsub⟩ := hs r S hS'
      rw [(join_ok hv).var, hT]
      cases s.var.get? r with
      | none => exact ⟨T, rfl, hsub⟩
      | some U => exact ⟨U ∪ T, rfl, fun x hx => Finset.mem_union_right _ (hsub hx)⟩

/-- The converged states of a resource before an instruction are those some path there gives it. -/
theorem Surveyed.stateAt_exact (hS : Surveyed G F cfg) (hfix : cfg.fixpoint n = .ok ins) {b i : Nat} {blk : Block}
    (hb : cfg.blocks[b]? = some blk) (hi : i ≤ blk.instrs.length) (r : Nat) (v : VarState) :
    v ∈ (cfg.stateAt ins b i).var.getD r ∅ ↔
      ∃ t, Path cfg b i t ∧ lastMark r (cfg.paramMarks ++ marksOf G.rid t) = some v := by
  constructor
  · intro hv
    obtain ⟨st, hst⟩ := hS.forward.inState hfix hb
    rw [Dict.getD, CFG.stateAt_of_get hb hst] at hv
    cases hr : (transfer cfg.symById (blk.instrs.take i) st).1.var.get? r with
    | none =>
      rw [hr] at hv
      exact absurd hv (Finset.notMem_empty v)
    | some S =>
      rw [hr] at hv
      obtain ⟨t, ht, hvar⟩ := (hS.surfaced hfix hst).run hS hb hi hr hv
      exact ⟨t, ht, (ht.state_iff hS r v).mp hvar⟩
  · intro h
    obtain ⟨t, ht, hm⟩ := h
    obtain ⟨S, hS', hsub⟩ := ht.among hS hfix r _ ((ht.state_iff hS r v).mpr hm)
    rw [Dict.getD, hS']
    exact hsub (Finset.mem_singleton_self v)

/-- The instructions along a path that has left the function, a `return` included. -/
inductive Departs (cfg : CFG) : List Instr → Prop
  | returns {b i : Nat} {t : List Instr} {blk : Block} {r : Option Symbol} {line : Int} : cfg.blocks[b]? = some blk →
      blk.instrs[i]? = some (.return_ r line) → Path cfg b (i + 1) t → Departs cfg t
  | falls {b : Nat} {t : List Instr} {blk : Block} : cfg.blocks[b]? = some blk → cfg.fallsOff b →
      Path cfg b blk.instrs.length t → Departs cfg t

/-- A leak of a source is reported exactly if some path leaves the function with a resource of it owned. -/
theorem leak_reported_iff (hS : Surveyed G F cfg) (hfix : cfg.fixpoint n = .ok ins) (source : Option String) :
    (∃ d ∈ cfg.findings ins, d.code = .own001 ∧ d.subject = source) ↔
      ∃ t, Departs cfg t ∧ ∃ r, (cfg.symById r).bind Symbol.origin = source ∧
        lastMark r (cfg.paramMarks ++ marksOf G.rid t) = some .owned := by
  constructor
  · intro h
    obtain ⟨d, hd, hc, hsub⟩ := h
    rcases hS.forward.mem_findings.mp hd with ⟨b, blk, i, a, hb, hi, hd⟩ | ⟨b, blk, hb, hf, hd⟩
    · obtain ⟨sym, line, rfl, hleak⟩ := (step_leak cfg.symById hc).mp hd
      obtain ⟨r, hr, rfl⟩ := List.mem_map.mp hleak
      have hlt : i + 1 ≤ blk.instrs.length := (List.getElem?_eq_some_iff.mp hi).1
      rw [← owned_after_return cfg.symById _ sym line, ← CFG.stateAt_succ hb hi, hS.stateAt_exact hfix hb hlt] at hr
      obtain ⟨t, ht, hm⟩ := hr
      exact ⟨t, .returns hb hi ht, r, hsub, hm⟩
    · obtain ⟨r, hr, rfl⟩ := List.mem_map.mp hd
      obtain ⟨t, ht, hm⟩ := (hS.stateAt_exact hfix hb (le_refl _) r .owned).mp (mem_leaks.mp hr).1
      exact ⟨t, .falls hb hf ht, r, hsub, hm⟩
  · intro h
    obtain ⟨t, ht, r, hsub, hm⟩ := h
    cases ht with
    | @returns b i t blk sym line hb hi hpath =>
      have hlt : i + 1 ≤ blk.instrs.length := (List.getElem?_eq_some_iff.mp hi).1
      have howned := (hS.stateAt_exact hfix hb hlt r .owned).mpr ⟨t, hpath, hm⟩
      rw [CFG.stateAt_succ hb hi, owned_after_return] at howned
      refine ⟨leak cfg.symById (cfg.stateAt ins b i) line "before return" r, ?_, rfl, hsub⟩
      refine hS.forward.mem_findings.mpr (Or.inl ⟨b, blk, i, _, hb, hi, ?_⟩)
      exact (step_leak cfg.symById rfl).mpr ⟨sym, line, rfl, List.mem_map.mpr ⟨r, howned, rfl⟩⟩
    | @falls b t blk hb hf hpath =>
      have howned := (hS.stateAt_exact hfix hb (le_refl _) r .owned).mpr ⟨t, hpath, hm⟩
      refine ⟨leak cfg.symById (cfg.stateAt ins b blk.instrs.length) (cfg.lastLine b) "at end of function" r, ?_, rfl, hsub⟩
      exact hS.forward.mem_findings.mpr (Or.inr ⟨b, blk, hb, hf, List.mem_map.mpr ⟨r, mem_leaks.mpr ⟨howned, by simp⟩, rfl⟩⟩)

end

end OwnNet.Lang
