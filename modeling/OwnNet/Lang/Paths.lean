/-
  OwnNet.Lang.Paths — the fixpoint of an accepted function is the union over its paths.

  `Path cfg b i t`: control can come from the entry to instruction `i` of block `b`, having
  run `t`. Along a path every resource has one state. Marks forget what they overwrite, so
  running a block on a join is joining the runs: nothing is lost where paths meet.

  Proved: `stateAt_exact`: the converged states of a resource before an instruction are
  those some path there gives it.
-/

import OwnNet.Lang.Effects

namespace OwnNet.Lang

inductive Path (cfg : CFG) : Nat → Nat → List Instr → Prop
  | entry : Path cfg cfg.entry 0 []
  | instr {b i : Nat} {t : List Instr} {blk : Block} {ins : Instr} : cfg.blocks[b]? = some blk →
      blk.instrs[i]? = some ins → Path cfg b i t → Path cfg b (i + 1) (t ++ [ins])
  | edge {b c : Nat} {t : List Instr} {blk : Block} : cfg.blocks[b]? = some blk → c ∈ blk.succ →
      Path cfg b blk.instrs.length t → Path cfg c 0 t

namespace CFG

/-- The state of the analysis along one path. -/
def after (cfg : CFG) (t : List Instr) : State := (transfer cfg.symById t cfg.initialState).1

/-- The converged state before instruction `i` of block `b`. -/
def stateAt (cfg : CFG) (ins : Dict Nat State) (b i : Nat) : State :=
  (transfer cfg.symById ((cfg.instrs b).take i) (ins.getD b {})).1

theorem stateAt_zero {cfg : CFG} {ins : Dict Nat State} {b : Nat} {st : State} (h : ins.get? b = some st) :
    cfg.stateAt ins b 0 = st := by
  rw [stateAt, List.take_zero, Dict.getD, h]
  rfl

theorem instrs_of_get {cfg : CFG} {b : Nat} {blk : Block} (h : cfg.blocks[b]? = some blk) : cfg.instrs b = blk.instrs := by
  simp [instrs, h]

theorem succ_of_get {cfg : CFG} {b : Nat} {blk : Block} (h : cfg.blocks[b]? = some blk) : cfg.succ b = blk.succ := by
  simp [succ, h]

theorem mem_succ {cfg : CFG} {b c : Nat} : c ∈ cfg.succ b ↔ ∃ blk, cfg.blocks[b]? = some blk ∧ c ∈ blk.succ := by
  unfold succ
  cases cfg.blocks[b]? with
  | none => simp
  | some blk => simp

theorem stateAt_of_get {cfg : CFG} {ins : Dict Nat State} {b : Nat} {blk : Block} {st : State} (hb : cfg.blocks[b]? = some blk)
    (hst : ins.get? b = some st) (i : Nat) : cfg.stateAt ins b i = (transfer cfg.symById (blk.instrs.take i) st).1 := by
  rw [stateAt, instrs_of_get hb, Dict.getD, hst]
  rfl

end CFG

/-- A whole prefix of the block at once. -/
theorem Path.run {cfg : CFG} {b : Nat} {t : List Instr} {blk : Block} (hb : cfg.blocks[b]? = some blk)
    (h : Path cfg b 0 t) : ∀ i, i ≤ blk.instrs.length → Path cfg b i (t ++ blk.instrs.take i) := by
  intro i
  induction i with
  | zero => exact fun _ => by simpa using h
  | succ i ih =>
    intro hlt
    have hi : blk.instrs[i]? = some blk.instrs[i] := List.getElem?_eq_getElem hlt
    rw [take_succ_of_get hi, ← List.append_assoc]
    exact .instr hb hi (ih (by omega))

/-- On from a path, over a walk. -/
theorem Path.leads {cfg : CFG} {P : Instr → Prop} {b i c j : Nat} (hl : Leads cfg.blocks P b i c j) {t : List Instr}
    (h : Path cfg b i t) : ∃ t', Path cfg c j (t ++ t') ∧
      ∀ ins ∈ t', P ins ∧ ∃ (b : Nat) (blk : Block), cfg.blocks[b]? = some blk ∧ ins ∈ blk.instrs := by
  induction hl generalizing t with
  | refl b i => exact ⟨[], by simpa using h, fun ins hins => absurd hins List.not_mem_nil⟩
  | @instr b i c j blk ins hb hi hP _ ih =>
    obtain ⟨t', hp, hall⟩ := ih (.instr hb hi h)
    refine ⟨ins :: t', by simpa using hp, ?_⟩
    intro x hx
    rcases List.mem_cons.mp hx with rfl | hx
    · exact ⟨hP, b, blk, hb, List.mem_of_getElem? hi⟩
    · exact hall x hx
  | edge hb hc _ ih => exact ih (.edge hb hc h)

/-! ## The initial state -/

/-- The owned parameters start out owned. -/
def CFG.paramMarks (cfg : CFG) : List (Nat × VarState) :=
  (cfg.params.filter (·.kind = .owned)).map fun p => (p.id, .owned)

def State.own (st : State) (p : Symbol) : State :=
  { st with handleRid := st.handleRid.set p.id p.id, var := st.var.set p.id {.owned} }

theorem own_all (ps : List Symbol) (st : State) :
    (ps.foldl State.own st).var = setAll (ps.map fun p => (p.id, .owned)) st.var ∧
      (ps.foldl State.own st).loans = st.loans ∧
      ∀ n, (ps.foldl State.own st).handleRid.get? n =
        if n ∈ ps.map Symbol.id then some n else st.handleRid.get? n := by
  induction ps generalizing st with
  | nil => exact ⟨rfl, rfl, fun n => rfl⟩
  | cons p rest ih =>
    obtain ⟨hv, hl, hh⟩ := ih (st.own p)
    refine ⟨hv, hl, ?_⟩
    intro n
    rw [List.foldl_cons, hh]
    by_cases hn : n ∈ rest.map Symbol.id
    · simp [hn]
    · by_cases hp : n = p.id
      · subst hp
        rw [if_neg hn]
        simp [State.own]
      · rw [if_neg hn]
        simp [State.own, Dict.get?_set, hp, hn]

theorem initialState_var (cfg : CFG) : cfg.initialState.var = setAll cfg.paramMarks Dict.empty :=
  (own_all _ _).1

theorem initialState_loans (cfg : CFG) : cfg.initialState.loans = Dict.empty := (own_all _ _).2.1

section

variable {G : Layout} {cfg : CFG}

theorem LaidOut.tracks_initial (hL : LaidOut G cfg) : Tracks G (G.starting 0) cfg.initialState := by
  have hmem : ∀ k ∈ G.starting 0, k ∈ cfg.params.filter (·.kind = .owned) ∧ G.rid k.id = k.id := by
    intro k hk
    obtain ⟨hp, ho⟩ := (hL.start k).mp hk
    exact ⟨List.mem_filter.mpr ⟨hp, by simp [ho]⟩, hL.rids k hp⟩
  refine ⟨?_, ?_, ?_⟩
  · intro k hk _
    obtain ⟨hp, hr⟩ := hmem k hk
    have hh := (own_all (cfg.params.filter (·.kind = .owned)) {}).2.2 k.id
    rw [if_pos (List.mem_map.mpr ⟨k, hp, rfl⟩)] at hh
    rw [hr]
    exact hh
  · intro k hk _
    obtain ⟨hp, hr⟩ := hmem k hk
    have hmark : (k.id, VarState.owned) ∈ cfg.paramMarks := List.mem_map.mpr ⟨k, hp, rfl⟩
    obtain ⟨v, hv⟩ := lastMark_of_mem hmark
    exact ⟨{v}, by rw [hr, initialState_var, get?_setAll, hv]⟩
  · intro k hk hb
    rw [((hL.start k).mp hk).2] at hb
    cases hb

/-! ## Along a path -/

theorem CFG.after_append (cfg : CFG) (t l : List Instr) :
    cfg.after (t ++ l) = (transfer cfg.symById l (cfg.after t)).1 := by
  rw [after, transfer_append]
  rfl

theorem LaidOut.knows (hL : LaidOut G cfg) {b : Nat} {blk : Block} (hb : cfg.blocks[b]? = some blk) :
    Knows G (G.starting b) := by
  induction b using Nat.strong_induction_on generalizing blk with
  | _ b ih =>
    by_cases hpos : b = 0
    · subst hpos
      refine ⟨?_, fun k hk => (mem_starting.mp hk).2, fun k hk => Or.inl ((hL.start k).mp hk).2⟩
      intro k hk k' hk' heq
      exact List.inj_on_of_nodup_map hL.nodup ((hL.start k).mp hk).1 ((hL.start k').mp hk').1 heq
    · obtain ⟨p, hlt, pblk, hp, hmem⟩ := hL.back b (by omega) (Builder.lt_of_get (B := ⟨[], cfg.blocks, [], 0⟩) hb)
      have hlaid := hL.block p pblk hp
      exact ((ih p hlt hp).after hlaid.sitting).subset (hlaid.edges b hmem).2.2.1

/-- What a path knows where it is. -/
structure OnPath (G : Layout) (cfg : CFG) (b i : Nat) (t : List Instr) (blk : Block) : Prop where
  here : cfg.blocks[b]? = some blk
  le : i ≤ blk.instrs.length
  tracks : Tracks G (knownAfter (G.starting b) (blk.instrs.take i)) (cfg.after t)
  var : (cfg.after t).var = setAll (cfg.paramMarks ++ marksOf G.rid t) Dict.empty

theorem marksOf_append (rid : Nat → Nat) (l m : List Instr) : marksOf rid (l ++ m) = marksOf rid l ++ marksOf rid m :=
  List.flatMap_append

theorem Path.onPath (hL : LaidOut G cfg) {b i : Nat} {t : List Instr} (h : Path cfg b i t) :
    ∃ blk, OnPath G cfg b i t blk := by
  induction h with
  | entry =>
    rw [hL.entry]
    refine ⟨_, List.getElem?_eq_getElem hL.some_, Nat.zero_le _, hL.tracks_initial, ?_⟩
    rw [marksOf, List.flatMap_nil, List.append_nil]
    exact initialState_var cfg
  | @instr b i t blk ins hb hi _ ih =>
    obtain ⟨blk', h⟩ := ih
    have heq : blk' = blk := Option.some.inj (h.here.symm.trans hb)
    subst heq
    have hsits := (hL.block b blk' hb).sitting.at hi
    have he := step_effect cfg.symById hsits h.tracks
    have hafter : cfg.after (t ++ [ins]) = (step cfg.symById ins (cfg.after t)).1 := cfg.after_append t [ins]
    refine ⟨blk', hb, (List.getElem?_eq_some_iff.mp hi).1, ?_, ?_⟩
    · rw [take_succ_of_get hi, knownAfter_append, hafter]
      exact he.tracks
    · rw [hafter, he.var, h.var, ← setAll_append, marksOf_append, List.append_assoc]
      simp [marksOf]
  | @edge b c t blk hb hc _ ih =>
    obtain ⟨blk', h⟩ := ih
    have heq : blk' = blk := Option.some.inj (h.here.symm.trans hb)
    subst heq
    obtain ⟨-, hlt, hknows, -⟩ := (hL.block b blk' hb).edges c hc
    refine ⟨_, List.getElem?_eq_getElem hlt, Nat.zero_le _, ?_, h.var⟩
    have ht := h.tracks
    rw [List.take_length] at ht
    exact ht.subset hknows

/-- On a path a resource is in one state. -/
theorem OnPath.single {b i : Nat} {t : List Instr} {blk : Block} (h : OnPath G cfg b i t blk) {r : Nat}
    {S : Finset VarState} (hS : (cfg.after t).var.get? r = some S) : ∃ v, S = {v} := by
  rw [h.var, get?_setAll] at hS
  split at hS
  next v _ => exact ⟨v, (Option.some.inj hS).symm⟩
  next => cases hS

/-- Every block is on a path. -/
theorem LaidOut.reached (hL : LaidOut G cfg) {b : Nat} {blk : Block} (hb : cfg.blocks[b]? = some blk) :
    ∃ t, Path cfg b 0 t := by
  induction b using Nat.strong_induction_on generalizing blk with
  | _ b ih =>
    by_cases hpos : b = 0
    · subst hpos
      have h : Path cfg cfg.entry 0 [] := .entry
      rw [hL.entry] at h
      exact ⟨[], h⟩
    · obtain ⟨p, hlt, pblk, hp, hmem⟩ := hL.back b (by omega) (Builder.lt_of_get (B := ⟨[], cfg.blocks, [], 0⟩) hb)
      obtain ⟨t, ht⟩ := ih p hlt hp
      exact ⟨_, .edge hp hmem (ht.run hp _ (le_refl _))⟩

/-! ## The dataflow problem -/

/-- Edges lead to blocks, and every block but the entry is entered from a smaller one. -/
structure Forward (cfg : CFG) : Prop where
  entry : cfg.entry = 0
  edge : ∀ (b : Nat) (blk : Block), cfg.blocks[b]? = some blk → ∀ c ∈ blk.succ, c < cfg.blocks.length
  back : ∀ b, 0 < b → b < cfg.blocks.length → ∃ p < b, ∃ blk, cfg.blocks[p]? = some blk ∧ b ∈ blk.succ

theorem LaidOut.forward (hL : LaidOut G cfg) : Forward cfg where
  entry := hL.entry
  edge b blk hb c hc := ((hL.block b blk hb).edges c hc).2.1
  back := hL.back

theorem Forward.mem_nodes (hF : Forward cfg) {b : Nat} : b ∈ cfg.nodes ↔ b < cfg.blocks.length := by
  have huniv : ∀ b, cfg.succ b ≠ [] → b ∈ cfg.ids := by
    intro b hne
    obtain ⟨c, hc⟩ := List.exists_mem_of_ne_nil _ hne
    obtain ⟨blk, hb, _⟩ := CFG.mem_succ.mp hc
    exact List.mem_range.mpr (List.getElem?_eq_some_iff.mp hb).1
  unfold CFG.nodes
  rw [List.mem_filter]
  constructor
  · exact fun h => List.mem_range.mp h.1
  · intro hlt
    refine ⟨List.mem_range.mpr hlt, decide_eq_true ?_⟩
    rw [Graph.mem_reachable _ huniv]
    refine ⟨cfg.entry, List.mem_cons_self, ?_⟩
    rw [hF.entry]
    induction b using Nat.strong_induction_on with
    | _ b ih =>
      by_cases hpos : b = 0
      · rw [hpos]
        exact .refl
      · obtain ⟨p, hp, pblk, hpb, hmem⟩ := hF.back b (by omega) hlt
        exact (ih p hp (by omega)).tail (CFG.mem_succ.mpr ⟨pblk, hpb, hmem⟩)

theorem mem_preds {b p : Nat} : p ∈ cfg.preds b ↔ p < cfg.blocks.length ∧ b ∈ cfg.succ p := by
  simp only [CFG.preds, CFG.ids, List.mem_flatMap, List.mem_range, List.mem_map, List.mem_filter, decide_eq_true_eq]
  constructor
  · intro h
    obtain ⟨q, hq, c, ⟨hc, rfl⟩, rfl⟩ := h
    exact ⟨hq, hc⟩
  · exact fun h => ⟨p, h.1, b, ⟨h.2, rfl⟩, rfl⟩

theorem Forward.wellFormed (hF : Forward cfg) : cfg.problem.WellFormed where
  edge p hp b := by
    show p ∈ cfg.preds b ↔ b ∈ cfg.succ p
    rw [mem_preds]
    exact ⟨fun h => h.2, fun h => ⟨hF.mem_nodes.mp hp, h⟩⟩
  closed p _ b hb := by
    obtain ⟨blk, hblk, hmem⟩ := CFG.mem_succ.mp hb
    exact hF.mem_nodes.mpr (hF.edge p blk hblk b hmem)

theorem Forward.ordered (hF : Forward cfg) : cfg.problem.Ordered where
  sorted := List.Pairwise.filter _ List.pairwise_lt_range
  back b hb hne := by
    have hlt := hF.mem_nodes.mp hb
    have hpos : b ≠ 0 := fun h => hne (h.trans hF.entry.symm)
    obtain ⟨p, hp, pblk, hpb, hmem⟩ := hF.back b (by omega) hlt
    have hplt : p < cfg.blocks.length := by omega
    exact ⟨p, hF.mem_nodes.mpr hplt, hp, mem_preds.mpr ⟨hplt, CFG.mem_succ.mpr ⟨pblk, hpb, hmem⟩⟩⟩

/-! ## Joining -/

/-- What a join that goes through makes of its operands. -/
structure Joined (a b u : State) : Prop where
  agree : a.loans = b.loans
  loans : u.loans = a.loans
  var : ∀ r, u.var.get? r = Option.merge (· ∪ ·) (a.var.get? r) (b.var.get? r)
  handle : ∀ n r, a.handleRid.get? n = some r → u.handleRid.get? n = some r

theorem join_ok {a b u : State} (h : join a b = .ok u) : Joined a b u := by
  unfold join at h
  split at h
  · cases h
  next hloans =>
    split at h
    · cases h
    next handles hh =>
      cases h
      refine ⟨not_not.mp hloans, rfl, fun r => Dict.get?_merge _ _ _ _, ?_⟩
      intro n r hn
      unfold joinHandleRid at hh
      split at hh
      · cases hh
        rw [Dict.get?_merge, hn]
        cases b.handleRid.get? n <;> rfl
      · cases hh

theorem Joined.mem {a b u : State} (h : Joined a b u) {r : Nat} {S : Finset VarState} {v : VarState}
    (hS : u.var.get? r = some S) (hv : v ∈ S) :
    (∃ T, a.var.get? r = some T ∧ v ∈ T) ∨ ∃ T, b.var.get? r = some T ∧ v ∈ T := by
  rw [h.var] at hS
  cases ha : a.var.get? r with
  | none =>
    rw [ha] at hS
    exact Or.inr ⟨S, by simpa using hS, hv⟩
  | some T =>
    cases hb : b.var.get? r with
    | none =>
      rw [ha, hb] at hS
      cases hS
      exact Or.inl ⟨_, rfl, hv⟩
    | some U =>
      rw [ha, hb] at hS
      cases hS
      rcases Finset.mem_union.mp hv with hv | hv
      · exact Or.inl ⟨_, rfl, hv⟩
      · exact Or.inr ⟨_, rfl, hv⟩

/-- Every state of a path is among the converged ones. -/
def Covers (st st' : State) : Prop :=
  st'.loans = st.loans ∧ ∀ r S, st.var.get? r = some S → ∃ S', st'.var.get? r = some S' ∧ S ⊆ S'

theorem Joined.covers_left {a b u st : State} (h : Joined a b u) (hc : Covers st a) : Covers st u := by
  refine ⟨h.loans.trans hc.1, ?_⟩
  intro r S hS
  obtain ⟨T, hT, hsub⟩ := hc.2 r S hS
  rw [h.var, hT]
  cases b.var.get? r with
  | none => exact ⟨T, rfl, hsub⟩
  | some U => exact ⟨T ∪ U, rfl, fun x hx => Finset.mem_union_left _ (hsub hx)⟩

theorem Joined.covers_right {a b u st : State} (h : Joined a b u) (hc : Covers st b) : Covers st u := by
  refine ⟨h.loans.trans (h.agree.trans hc.1), ?_⟩
  intro r S hS
  obtain ⟨T, hT, hsub⟩ := hc.2 r S hS
  rw [h.var, hT]
  cases a.var.get? r with
  | none => exact ⟨T, rfl, hsub⟩
  | some U => exact ⟨U ∪ T, rfl, fun x hx => Finset.mem_union_right _ (hsub hx)⟩

theorem Tracks.join {K : List Symbol} {a b u : State} (ha : Tracks G K a) (h : Joined a b u) : Tracks G K u where
  handle k hk ho := h.handle _ _ (ha.handle k hk ho)
  held k hk ho := by
    obtain ⟨S, hS⟩ := ha.held k hk ho
    rw [h.var, hS]
    cases b.var.get? (G.rid k.id) with
    | none => exact ⟨S, rfl⟩
    | some U => exact ⟨S ∪ U, rfl⟩
  lent k hk hb := h.loans ▸ ha.lent k hk hb

/-! ## The fixpoint -/

variable {n : Nat} {ins : Dict Nat State}

theorem fixpoint_ok (h : cfg.fixpoint n = .ok ins) : ∃ r, cfg.problem.solve n = .ok (some r) ∧ r.ins = ins := by
  unfold CFG.fixpoint at h
  split at h
  · cases h
  · cases h
  next r hr =>
    cases h
    exact ⟨r, hr, rfl⟩

/-- What holds of every in-state: it tracks what is in scope, and a path gives each of its states. -/
structure Witnessed (G : Layout) (cfg : CFG) (b : Nat) (st : State) : Prop where
  tracks : Tracks G (G.starting b) st
  path : ∀ r S v, st.var.get? r = some S → v ∈ S → ∃ t, Path cfg b 0 t ∧ (cfg.after t).var.get? r = some {v}

/-- What is witnessed where a block begins is witnessed inside it. -/
theorem Witnessed.run (hL : LaidOut G cfg) {b i : Nat} {blk : Block} {st : State} (h : Witnessed G cfg b st)
    (hb : cfg.blocks[b]? = some blk) (hi : i ≤ blk.instrs.length) {r : Nat} {S : Finset VarState} {v : VarState}
    (hS : (transfer cfg.symById (blk.instrs.take i) st).1.var.get? r = some S) (hv : v ∈ S) :
    ∃ t, Path cfg b i t ∧ (cfg.after t).var.get? r = some {v} := by
  have hsit := (hL.block b blk hb).sitting.take i
  -- a path through the instructions puts their marks on what it had before
  have hthrough : ∀ t, Path cfg b 0 t →
      (cfg.after (t ++ blk.instrs.take i)).var = setAll (marksOf G.rid (blk.instrs.take i)) (cfg.after t).var := by
    intro t hpath
    obtain ⟨blk', hon⟩ := hpath.onPath hL
    have heq : blk' = blk := Option.some.inj (hon.here.symm.trans hb)
    subst heq
    rw [cfg.after_append]
    exact (transfer_effect cfg.symById hsit hon.tracks).1
  rw [(transfer_effect cfg.symById hsit h.tracks).1, get?_setAll] at hS
  split at hS
  next w hw =>
    cases hS
    obtain ⟨t, hpath⟩ := hL.reached hb
    refine ⟨_, hpath.run hb i hi, ?_⟩
    rw [hthrough t hpath, get?_setAll, hw, Finset.mem_singleton.mp hv]
  next hw =>
    obtain ⟨t, hpath, hvar⟩ := h.path r S v hS hv
    refine ⟨_, hpath.run hb i hi, ?_⟩
    rw [hthrough t hpath, get?_setAll, hw]
    exact hvar

theorem LaidOut.witnessed (hL : LaidOut G cfg) (hfix : cfg.fixpoint n = .ok ins) {b : Nat} {st : State}
    (hst : ins.get? b = some st) : Witnessed G cfg b st := by
  obtain ⟨r, hr, rfl⟩ := fixpoint_ok hfix
  refine Dataflow.Problem.solve_induction (Q := Witnessed G cfg) hL.forward.wellFormed hL.forward.ordered ?_ ?_ ?_ hr hst
  · refine ⟨?_, ?_⟩
    · show Tracks G (G.starting cfg.entry) cfg.initialState
      rw [hL.entry]
      exact hL.tracks_initial
    · intro r S v hS hv
      refine ⟨[], .entry, ?_⟩
      obtain ⟨blk, hp⟩ := Path.onPath hL Path.entry
      have hS' : (cfg.after []).var.get? r = some S := hS
      obtain ⟨w, rfl⟩ := hp.single hS'
      rw [hS', Finset.mem_singleton.mp hv]
  · intro p c st hp hc hQ
    obtain ⟨blk, hb, hmem⟩ := CFG.mem_succ.mp hc
    have hlaid := hL.block p blk hb
    have htr : cfg.problem.transfer p st = (transfer cfg.symById blk.instrs st).1 := by
      show (transfer cfg.symById (cfg.instrs p) st).1 = _
      rw [CFG.instrs_of_get hb]
    refine ⟨?_, ?_⟩
    · rw [htr]
      exact (transfer_effect cfg.symById hlaid.sitting hQ.tracks).2.2.subset (hlaid.edges c hmem).2.2.1
    · intro r S v hS hv
      rw [htr, ← List.take_length (l := blk.instrs)] at hS
      obtain ⟨t, hpath, hvar⟩ := hQ.run hL hb (le_refl _) hS hv
      exact ⟨t, .edge hb hmem hpath, hvar⟩
  · intro b s t u hs ht hu
    have hj := join_ok hu
    refine ⟨hs.tracks.join hj, ?_⟩
    intro r S v hS hv
    rcases hj.mem hS hv with ⟨T, hT, hvT⟩ | ⟨T, hT, hvT⟩
    · exact hs.path r T v hT hvT
    · exact ht.path r T v hT hvT

theorem Forward.inState (hF : Forward cfg) (hfix : cfg.fixpoint n = .ok ins) {b : Nat} {blk : Block}
    (hb : cfg.blocks[b]? = some blk) : ∃ st, ins.get? b = some st := by
  obtain ⟨r, hr, rfl⟩ := fixpoint_ok hfix
  have hlt : b < cfg.blocks.length := (List.getElem?_eq_some_iff.mp hb).1
  obtain ⟨st, hst, -⟩ := Dataflow.Problem.solve_equations hF.wellFormed hr b (hF.mem_nodes.mpr hlt)
  exact ⟨st, hst⟩

theorem Forward.entryState (hF : Forward cfg) (hsome : 0 < cfg.blocks.length) (hfix : cfg.fixpoint n = .ok ins) :
    ins.get? cfg.entry = some cfg.initialState := by
  obtain ⟨r, hr, rfl⟩ := fixpoint_ok hfix
  have hmem : cfg.entry ∈ cfg.problem.nodes := by
    rw [hF.entry]
    exact hF.mem_nodes.mpr hsome
  obtain ⟨st, hst, hin, -⟩ := Dataflow.Problem.solve_equations hF.wellFormed hr cfg.entry hmem
  rw [Dataflow.Problem.inState, if_pos (show cfg.entry = cfg.problem.entry from rfl)] at hin
  cases hin
  exact hst

/-- What a join keeps of either operand, the state at a block's end passes on to the blocks it leads to. -/
theorem Forward.stateAt_edge (hF : Forward cfg) (hfix : cfg.fixpoint n = .ok ins) {R : State → Prop}
    (hleft : ∀ s t u, R s → join s t = .ok u → R u) (hright : ∀ s t u, R t → join s t = .ok u → R u) {b c : Nat} {blk : Block}
    (hb : cfg.blocks[b]? = some blk) (hc : c ∈ blk.succ) (hpos : 0 < c) (h : R (cfg.stateAt ins b blk.instrs.length)) :
    R (cfg.stateAt ins c 0) := by
  obtain ⟨st, hst⟩ := hF.inState hfix hb
  obtain ⟨st', hst'⟩ := hF.inState hfix (List.getElem?_eq_getElem (hF.edge b blk hb c hc))
  have hout : cfg.stateAt ins b blk.instrs.length = cfg.problem.transfer b st := by
    rw [CFG.stateAt_of_get hb hst, List.take_length, ← CFG.instrs_of_get hb]
    rfl
  rw [hout] at h
  rw [CFG.stateAt_zero hst']
  obtain ⟨r, hr, rfl⟩ := fixpoint_ok hfix
  have hne : c ≠ cfg.problem.entry := by
    show c ≠ cfg.entry
    rw [hF.entry]
    omega
  exact Dataflow.Problem.solve_edge hF.wellFormed hr hleft hright (hF.mem_nodes.mpr (List.getElem?_eq_some_iff.mp hb).1)
    (CFG.mem_succ.mpr ⟨blk, hb, hc⟩) hne hst hst' h

/-! ## Every path is covered -/

theorem Covers.refl (st : State) : Covers st st := ⟨rfl, fun _ S hS => ⟨S, hS, fun _ hx => hx⟩⟩

theorem Covers.step {K : List Symbol} {i : Instr} {st st' : State} (h : Covers st st') (hs : Sits G K i)
    (ht : Tracks G K st) (ht' : Tracks G K st') :
    Covers (step cfg.symById i st).1 (step cfg.symById i st').1 := by
  have he := step_effect cfg.symById hs ht
  have he' := step_effect cfg.symById hs ht'
  refine ⟨by rw [he.loans, he'.loans, h.1], ?_⟩
  intro r S hS
  rw [he.var, get?_setAll] at hS
  rw [he'.var, get?_setAll]
  split at hS
  next w hw =>
    cases hS
    exact ⟨{w}, rfl, fun _ hx => hx⟩
  next => exact h.2 r S hS

/-- The converged state inside a block tracks what is known there. -/
theorem LaidOut.stateAt_effect (hL : LaidOut G cfg) (hfix : cfg.fixpoint n = .ok ins) {b : Nat} {blk : Block}
    (hb : cfg.blocks[b]? = some blk) (i : Nat) :
    (cfg.stateAt ins b i).var = setAll (marksOf G.rid (blk.instrs.take i)) (cfg.stateAt ins b 0).var ∧
      Tracks G (knownAfter (G.starting b) (blk.instrs.take i)) (cfg.stateAt ins b i) := by
  obtain ⟨st, hst⟩ := hL.forward.inState hfix hb
  have he := transfer_effect cfg.symById ((hL.block b blk hb).sitting.take i) (hL.witnessed hfix hst).tracks
  rw [CFG.stateAt_zero hst, CFG.stateAt_of_get hb hst]
  exact ⟨he.1, he.2.2⟩

theorem CFG.stateAt_succ {b : Nat} {blk : Block} (hb : cfg.blocks[b]? = some blk) {i : Nat} {a : Instr}
    (hi : blk.instrs[i]? = some a) :
    cfg.stateAt ins b (i + 1) = (Lang.step cfg.symById a (cfg.stateAt ins b i)).1 := by
  rw [stateAt, stateAt, instrs_of_get hb, take_succ_of_get hi, transfer_append]
  rfl

theorem Path.covers (hL : LaidOut G cfg) (hfix : cfg.fixpoint n = .ok ins) {b i : Nat} {t : List Instr}
    (h : Path cfg b i t) : Covers (cfg.after t) (cfg.stateAt ins b i) := by
  induction h with
  | entry =>
    rw [CFG.stateAt_zero (hL.forward.entryState hL.some_ hfix)]
    exact Covers.refl _
  | @instr b i t blk a hb hi hpath ih =>
    obtain ⟨blk', hon⟩ := hpath.onPath hL
    have heq : blk' = blk := Option.some.inj (hon.here.symm.trans hb)
    subst heq
    rw [CFG.stateAt_succ hb hi, cfg.after_append t [a]]
    exact ih.step ((hL.block b blk' hb).sitting.at hi) hon.tracks (hL.stateAt_effect hfix hb i).2
  | @edge b c t blk hb hc hpath ih =>
    refine hL.forward.stateAt_edge hfix (R := Covers (cfg.after t)) ?_ ?_ hb hc ((hL.block b blk hb).edges c hc).1 ih
    · exact fun s u v hs hv => (join_ok hv).covers_left hs
    · exact fun s u v hu hv => (join_ok hv).covers_right hu

/-- The converged states of a resource before an instruction are those some path there gives it. -/
theorem LaidOut.stateAt_exact (hL : LaidOut G cfg) (hfix : cfg.fixpoint n = .ok ins) {b i : Nat} {blk : Block}
    (hb : cfg.blocks[b]? = some blk) (hi : i ≤ blk.instrs.length) (r : Nat) (v : VarState) :
    v ∈ (cfg.stateAt ins b i).var.getD r ∅ ↔ ∃ t, Path cfg b i t ∧ (cfg.after t).var.get? r = some {v} := by
  constructor
  · intro hv
    obtain ⟨st, hst⟩ := hL.forward.inState hfix hb
    rw [Dict.getD, CFG.stateAt_of_get hb hst] at hv
    cases hS : (transfer cfg.symById (blk.instrs.take i) st).1.var.get? r with
    | none =>
      rw [hS] at hv
      exact absurd hv (Finset.notMem_empty v)
    | some S =>
      rw [hS] at hv
      exact (hL.witnessed hfix hst).run hL hb hi hS hv
  · intro h
    obtain ⟨t, hpath, hvar⟩ := h
    obtain ⟨S, hS, hsub⟩ := (hpath.covers hL hfix).2 r _ hvar
    rw [Dict.getD, hS]
    exact hsub (Finset.mem_singleton_self v)

end

end OwnNet.Lang
