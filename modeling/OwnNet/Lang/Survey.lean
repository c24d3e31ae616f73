/-
  OwnNet.Lang.Survey — what lowering gives for every function, accepted or not, and what the
  analysis's states agree on because of it.

  Along an edge the loans are the same whichever way they came, a handle denotes one resource
  in every state, and an owner that is started has a state. So two states that meet at a
  block always join.

  Proved: `build_surveyed`: every function is surveyed; `join_total`: states that hold at the
  same place join, and the join holds there; `Path.holds`: the state along a path holds where
  the path ends.
-/

import OwnNet.Lang.Holding
import OwnNet.Lang.Paths

namespace OwnNet.Lang

/-- Some state is recorded for the resource. -/
def State.Recorded (st : State) (rid : Nat) : Prop := ∃ S, st.var.get? rid = some S

structure Surveyed (G : Layout) (F : Nat → Note) (cfg : CFG) : Prop where
  forward : Forward cfg
  some_ : 0 < cfg.blocks.length
  start : ∀ s, s ∈ G.starting 0 ↔ s ∈ cfg.params ∧ s.kind = .owned
  rids : ∀ p ∈ cfg.params, G.rid p.id = p.id
  loans : (F 0).loans = Dict.empty
  owned : ∀ p ∈ cfg.params, p.kind = .owned → (F 0).owned p.id
  positive : ∀ (b : Nat) (blk : Block), cfg.blocks[b]? = some blk → ∀ c ∈ blk.succ, 0 < c
  whole : ∀ b < cfg.blocks.length, Whole G (G.starting b)
  lying : ∀ (b : Nat) (blk : Block), cfg.blocks[b]? = some blk → Lying G (G.starting b) blk.instrs
  knows : ∀ (b : Nat) (blk : Block), cfg.blocks[b]? = some blk → ∀ c ∈ blk.succ, ∀ s ∈ G.starting c,
    s ∈ knownAfter (G.starting b) blk.instrs
  lent : ∀ (b : Nat) (blk : Block), cfg.blocks[b]? = some blk → ∀ c ∈ blk.succ,
    (F c).loans = ((F b).run G.rid blk.instrs).loans
  upper : ∀ (b : Nat) (blk : Block), cfg.blocks[b]? = some blk → ∀ c ∈ blk.succ, ∀ k ∈ G.starting c,
    ((F b).run G.rid blk.instrs).owned k.id → (F c).owned k.id
  lower : ∀ c, 0 < c → c < cfg.blocks.length → ∀ n, (F c).owned n →
    ∃ p < c, ∃ blk : Block, cfg.blocks[p]? = some blk ∧ c ∈ blk.succ ∧ ((F p).run G.rid blk.instrs).owned n

/-- Every block knows whole what it is opened with: its scope shrinks along an edge, to one that is closed. -/
theorem whole_blocks {G : Layout} {B : Builder} (hS : Sound G B) (hback : Back B)
    (hly : ∀ b blk, B.blocks[b]? = some blk → Lying G (G.starting b) blk.instrs) (h₀ : Whole G (G.starting 0)) :
    ∀ b < B.blocks.length, Whole G (G.starting b) := by
  intro b
  induction b using Nat.strong_induction_on with
  | _ b ih =>
    intro hlt
    by_cases hpos : b = 0
    · rw [hpos]
      exact h₀
    · obtain ⟨p, hp, blk, hblk, hc⟩ := hback b (by omega) hlt
      have hfits := hS p blk hblk
      have hsub := (hfits.edges b hc).knows
      have hend := (ih p hp (by omega)).after (hly p blk hblk)
      refine ⟨?_, ?_, ?_⟩
      · exact fun k hk k' hk' => hend.inj k (hsub k hk) k' (hsub k' hk')
      · exact fun k hk => hend.rooted k (hsub k hk)
      · intro k hk ho hborn
        obtain ⟨s, hs, hid, hso⟩ := (hS b _ (List.getElem?_eq_getElem hlt)).closed k (mem_starting.mp hk).1 ho
        refine ⟨s, mem_starting.mpr ⟨hs, ?_⟩, hso, hid⟩
        rw [hid]
        exact hborn

theorem build_surveyed (env : Env) (fn : FnDecl) : ∃ G F, Surveyed G F (buildCfg env fn).1 := by
  obtain ⟨G, hstart, hl⟩ := body_started env fn
  let P := declareParams env fn.params { scopes := [[]] }
  let B₀ := P.1.newBlock "entry"
  let L := lowerSeq env fn fn.body 0 B₀
  change Started G B₀ P.2 at hstart
  change Lowered G B₀ 0 L.1 L.2 at hl
  have hhere : B₀.blocks[0]? = some { label := "entry" } := hstart.here
  have hlen₀ : B₀.blocks.length = 1 := hstart.length
  have hu : B₀.Unlinked 0 := unlinked_new hhere
  obtain ⟨hS, -⟩ := hl.sound hstart.tidy hstart.sound (open_new hhere hstart.scope)
  have hback : Back L.1 := hl.back (by omega) hu fun b hpos hlt => by omega
  have hcode₀ : ∀ b, B₀.code b = [] := by
    intro b
    unfold Builder.code
    rw [show B₀.blocks = [{ label := "entry" }] from hstart.blocks]
    cases b <;> rfl
  have hR : AllRooted G L.1 := by
    refine hl.allRooted ⟨fun s hs => Rooted.self (hstart.rid s ((hstart.syms s).mp hs)), ?_⟩
    intro b ins hins
    rw [hcode₀] at hins
    cases hins
  -- the notes start with the owned parameters
  have hnone : ∀ p c l, ¬B₀.Flow p c l := by
    intro p c l h
    have hp : p = 0 := by
      have := h.lt
      omega
    subst hp
    exact h.linked hu
  let N : Note := ⟨Dict.empty, fun n => ∃ p ∈ P.2, p.kind = .owned ∧ p.id = n⟩
  have hN : Noted G (fun _ => N) B₀ :=
    ⟨fun p c l h => absurd h (hnone p c l), fun p c l h => absurd h (hnone p c l), fun p c l h => absurd h (hnone p c l),
      fun c hpos hlt => by omega⟩
  obtain ⟨F, hF⟩ := hl.noted hstart.tidy.scope (by omega) hu hN fun n _ => by
    unfold Builder.noteAt
    rw [hcode₀, run_nil]
    rfl
  have hF₀ : F 0 = N := hF.keep 0 (by omega)
  have hblocks : (buildCfg env fn).1.blocks = L.1.blocks := (build_body env fn).1
  have hsome : 0 < L.1.blocks.length := lt_of_lt_of_le (by omega) hl.mono.1
  have hstart₀ : ∀ s, s ∈ G.starting 0 ↔ s ∈ P.2 ∧ s.kind = .owned := fun s => hstart.starting
  have hly : ∀ b blk, L.1.blocks[b]? = some blk → Lying G (G.starting b) blk.instrs := by
    intro b blk hb
    have hfits := hS b blk hb
    refine lying_of_fitting hfits.fits hfits.kinds fun ins hins => hR.code b ins ?_
    rw [Builder.code_of_get hb]
    exact hins
  have hwhole₀ : Whole G (G.starting 0) := by
    refine ⟨?_, ?_, ?_⟩
    · exact fun k hk k' hk' => List.inj_on_of_nodup_map hstart.nodup ((hstart₀ k).mp hk).1 ((hstart₀ k').mp hk').1
    · exact fun k hk => Rooted.self (hstart.rid k ((hstart₀ k).mp hk).1)
    · exact fun k hk ho _ => ⟨k, hk, ho, (hstart.rid k ((hstart₀ k).mp hk).1).symm⟩
  have hflow : ∀ b blk, L.1.blocks[b]? = some blk → ∀ c ∈ blk.succ, L.1.Flow b c blk.instrs :=
    fun b blk hb c hc => ⟨blk, hb, hc, rfl⟩
  have howned₀ : ∀ p ∈ P.2, p.kind = .owned → (F 0).owned p.id := by
    intro p hp ho
    rw [hF₀]
    exact ⟨p, hp, ho, rfl⟩
  refine ⟨G, F, ⟨rfl, ?_, ?_⟩, ?_, hstart₀, hstart.rid, by rw [hF₀], howned₀, ?_, ?_, ?_, ?_, ?_, ?_, ?_⟩ <;> rw [hblocks]
  · exact fun b blk hb c hc => ((hS b blk hb).edges c hc).lt
  · exact hback
  · exact hsome
  · exact fun b blk hb c hc => ((hS b blk hb).edges c hc).pos
  · exact whole_blocks hS hback hly hwhole₀
  · exact hly
  · exact fun b blk hb c hc => ((hS b blk hb).edges c hc).knows
  · exact fun b blk hb c hc => hF.noted.loans b c _ (hflow b blk hb c hc)
  · intro b blk hb c hc k hk ho
    refine (hF.noted.upper b c _ (hflow b blk hb c hc) k.id ho).resolve_right fun hno => ?_
    exact hno k (mem_starting.mp hk).1 rfl
  · intro c hpos hlt n ho
    obtain ⟨p, hp, l, ⟨blk, hblk, hc, rfl⟩, hn⟩ := hF.noted.lower c hpos hlt n ho
    exact ⟨p, hp, blk, hblk, hc, hn⟩

/-! ## States that meet -/

section

variable {G : Layout} {F : Nat → Note} {cfg : CFG} {K : List Symbol} {N : Note} {st st' : State}

theorem Holds.initial (hS : Surveyed G F cfg) : Holds G (G.starting 0) (F 0) cfg.initialState := by
  have hhandle := (own_all (cfg.params.filter (·.kind = .owned)) {}).2.2
  have hborn : ∀ p ∈ cfg.params, p.kind = .owned → G.born p.id := fun p hp ho => (mem_starting.mp ((hS.start p).mpr ⟨hp, ho⟩)).2
  have hvar : ∀ n S, cfg.initialState.var.get? n = some S → ∃ p ∈ cfg.params, p.kind = .owned ∧ p.id = n := by
    intro n S hn
    rw [initialState_var, get?_setAll] at hn
    cases hm : lastMark n cfg.paramMarks with
    | none =>
      rw [hm] at hn
      cases hn
    | some v =>
      obtain ⟨p, hp, he⟩ := List.mem_map.mp (mem_of_lastMark hm)
      obtain ⟨hpm, ho⟩ := List.mem_filter.mp hp
      exact ⟨p, hpm, by simpa using ho, congrArg Prod.fst he⟩
  refine ⟨?_, ?_, ?_, ?_, ?_⟩
  · intro n r hr
    have hn := hhandle n
    rw [show (cfg.params.filter (·.kind = .owned)).foldl State.own {} = cfg.initialState from rfl, hr] at hn
    split at hn
    next hmem =>
      cases hn
      obtain ⟨p, hp, rfl⟩ := List.mem_map.mp hmem
      obtain ⟨hpm, ho⟩ := List.mem_filter.mp hp
      exact ⟨hborn p hpm (by simpa using ho), (hS.rids p hpm).symm⟩
    next => cases hn
  · intro k hk ho
    obtain ⟨hp, -⟩ := (hS.start k).mp hk
    have hn := hhandle k.id
    rw [if_pos (List.mem_map.mpr ⟨k, List.mem_filter.mpr ⟨hp, by simp [ho]⟩, rfl⟩)] at hn
    rw [hS.rids k hp]
    exact hn
  · rw [initialState_loans, hS.loans]
  · intro k hk ho _
    obtain ⟨hp, -⟩ := (hS.start k).mp hk
    have hm : (k.id, VarState.owned) ∈ cfg.paramMarks :=
      List.mem_map.mpr ⟨k, List.mem_filter.mpr ⟨hp, by simp [ho]⟩, rfl⟩
    obtain ⟨v, hv⟩ := lastMark_of_mem hm
    refine ⟨{v}, ?_, fun _ => hS.owned k hp ho⟩
    rw [initialState_var, get?_setAll, hv]
  · intro n S hn _
    obtain ⟨p, hp, ho, rfl⟩ := hvar n S hn
    exact hborn p hp ho

/-- What holds at the end of a block holds where an edge leads from it. -/
theorem Holds.edge (hS : Surveyed G F cfg) {b c : Nat} {blk : Block} (hb : cfg.blocks[b]? = some blk) (hc : c ∈ blk.succ)
    (h : Holds G (knownAfter (G.starting b) blk.instrs) ((F b).run G.rid blk.instrs) st) : Holds G (G.starting c) (F c) st where
  bound := h.bound
  handle k hk := h.handle k (hS.knows b blk hb c hc k hk)
  loans := by rw [h.loans, hS.lent b blk hb c hc]
  held k hk ho hroot := by
    obtain ⟨S, hs, himp⟩ := h.held k (hS.knows b blk hb c hc k hk) ho hroot
    exact ⟨S, hs, fun hin => hS.upper b blk hb c hc k hk (himp hin)⟩
  born := h.born

theorem Holds.joined (ha : Holds G K N st) (hb : Holds G K N st') {u : State} (h : Joined st st' u)
    (hhandle : ∀ n r, u.handleRid.get? n = some r → st.handleRid.get? n = some r ∨ st'.handleRid.get? n = some r) :
    Holds G K N u where
  bound n r hr := (hhandle n r hr).elim (ha.bound n r) (hb.bound n r)
  handle k hk ho := h.handle _ _ (ha.handle k hk ho)
  loans := h.loans.trans ha.loans
  held k hk ho hroot := by
    obtain ⟨S, hs, himp⟩ := ha.held k hk ho hroot
    obtain ⟨S', hs', himp'⟩ := hb.held k hk ho hroot
    refine ⟨S ∪ S', ?_, fun hin => (Finset.mem_union.mp hin).elim himp himp'⟩
    rw [h.var, hs, hs']
    rfl
  born n S hn hin := by
    obtain ⟨T, hT, hv⟩ | ⟨T, hT, hv⟩ := h.mem hn hin
    · exact ha.born n T hT hv
    · exact hb.born n T hT hv

/-- States that hold at one place join. -/
theorem join_total (ha : Holds G K N st) (hb : Holds G K N st') : ∃ u, join st st' = .ok u ∧ Holds G K N u := by
  have hloans : ¬st.loans ≠ st'.loans := not_not.mpr (ha.loans.trans hb.loans.symm)
  have hsame : st'.handleRid.entries.all fun e => st.handleRid.getD e.1 e.2 = e.2 := by
    rw [List.all_eq_true]
    intro e he
    have hr := (hb.bound e.1 e.2 (Dict.mem_entries.mp he)).2
    unfold Dict.getD
    cases hg : st.handleRid.get? e.1 with
    | none => simp
    | some r => simp [(ha.bound e.1 r hg).2, ← hr]
  have hok : join st st' = .ok {
      var := Dict.merge (· ∪ ·) st.var st'.var
      loans := st.loans
      handleRid := Dict.merge (fun r _ => r) st.handleRid st'.handleRid
      movedAt := joinSites st.movedAt st'.movedAt
      acquiredAt := joinSites st.acquiredAt st'.acquiredAt } := by
    unfold join joinHandleRid
    rw [if_neg hloans, if_pos hsame]
  refine ⟨_, hok, ha.joined hb (join_ok hok) fun n r hr => ?_⟩
  rw [Dict.get?_merge] at hr
  cases hg : st.handleRid.get? n with
  | none =>
    rw [hg] at hr
    exact Or.inr (by simpa using hr)
  | some r' =>
    rw [hg] at hr
    cases hg' : st'.handleRid.get? n <;> rw [hg'] at hr <;> exact Or.inl hr

/-! ## Along a path -/

/-- The state before instruction `i` of a block that was entered with `st`. -/
theorem Surveyed.run (hS : Surveyed G F cfg) {b : Nat} {blk : Block} (hb : cfg.blocks[b]? = some blk)
    (h : Holds G (G.starting b) (F b) st) (i : Nat) :
    Holds G (knownAfter (G.starting b) (blk.instrs.take i)) ((F b).run G.rid (blk.instrs.take i))
        (transfer cfg.symById (blk.instrs.take i) st).1 ∧
      (transfer cfg.symById (blk.instrs.take i) st).1.var = setAll (marksOf G.rid (blk.instrs.take i)) st.var :=
  h.run cfg.symById (hS.whole b (List.getElem?_eq_some_iff.mp hb).1) ((hS.lying b blk hb).take i)

theorem Path.holds (hS : Surveyed G F cfg) {b i : Nat} {t : List Instr} (h : Path cfg b i t) :
    ∃ blk, cfg.blocks[b]? = some blk ∧
      Holds G (knownAfter (G.starting b) (blk.instrs.take i)) ((F b).run G.rid (blk.instrs.take i)) (cfg.after t) := by
  induction h with
  | entry =>
    rw [hS.forward.entry]
    exact ⟨_, List.getElem?_eq_getElem hS.some_, Holds.initial hS⟩
  | @instr b i t blk ins hb hi _ ih =>
    obtain ⟨blk', hb', h⟩ := ih
    rw [hb] at hb'
    cases hb'
    have hK := (hS.whole b (List.getElem?_eq_some_iff.mp hb).1).after ((hS.lying b blk hb).take i)
    refine ⟨blk, hb, ?_⟩
    rw [take_succ_of_get hi, knownAfter_append, run_append, CFG.after_append]
    exact (h.run (l := [ins]) cfg.symById hK ⟨(hS.lying b blk hb).at hi, trivial⟩).1
  | @edge b c t blk hb hc _ ih =>
    obtain ⟨blk', hb', h⟩ := ih
    rw [hb] at hb'
    cases hb'
    rw [List.take_length] at h
    exact ⟨_, List.getElem?_eq_getElem (hS.forward.edge b blk hb c hc), h.edge hS hb hc⟩

end

end OwnNet.Lang
