/-
  OwnNet.Lang.Departures — the paths of a function's graph that leave it are the ways through
  its body.

  Proved: `Charts.departs_iff`: the instructions along the paths that leave the function are
  the words of the ways its graph was put together from.
-/

import OwnNet.Lang.Leaks
import OwnNet.Lang.Ways

namespace OwnNet.Lang

open Computability Graph

/-! ## Where control ends -/

section

variable {B B' B₁ B₂ C : Builder} {cur : Nat} {out : Option Nat} {R : Ways Instr}

/-- Control goes on where no `return` stands. -/
theorem Charts.going (h : Charts B cur B' out R) (hB : ∀ ins ∈ B.code cur, ins.isReturn = false) :
    ∀ c, out = some c → ∀ ins ∈ B'.code c, ins.isReturn = false := by
  induction h with
  | straight hcur _ ha hl =>
    intro c hc ins hins
    cases hc
    rw [ha.code hcur] at hins
    exact (List.mem_append.mp hins).elim (hB ins) (hl ins)
  | ret => exact fun c hc => by cases hc
  | seq _ _ _ _ ih₁ ih₂ => exact ih₂ (ih₁ hB _ rfl)
  | branch hcur hu s₁ s₂ _ _ _ _ =>
    intro c hc ins hins
    have A := s₁.arms hcur hu s₂
    obtain ⟨-, hget, -⟩ := merge_some (fun d hd => (A.exit₁ d hd).1) (fun d hd => (A.exit₂ d hd).1) hc
    rw [code_new hget] at hins
    cases hins
  | @loop B B' cur out R hcur _ s _ _ =>
    intro c hc ins hins
    cases hc
    obtain ⟨l, -, hget⟩ := s.frame.after_loop hcur
    rw [code_new hget] at hins
    cases hins
  | @same B B' B'' cur out R _ hb ih =>
    intro c hc ins hins
    have hcode : B''.code c = B'.code c := code_of_blocks (by rw [hb])
    rw [hcode] at hins
    exact ih hB c hc ins hins

/-- A block is done: an edge leads on, or it ends in a `return`. -/
def Block.Done (blk : Block) : Prop := blk.succ ≠ [] ∨ ∃ r line, blk.instrs.getLast? = some (.return_ r line)

theorem Charts.done (h : Charts B cur B' out R) (hP : Placed C B cur B' out) :
    ∀ b < B'.blocks.length, b = cur ∨ B.blocks.length ≤ b → out ≠ some b → ∃ blk, C.blocks[b]? = some blk ∧ blk.Done := by
  induction h with
  | straight _ _ ha _ =>
    intro b hlt hr hne
    rw [ha.length] at hlt
    rcases hr with rfl | hge
    · exact absurd rfl hne
    · omega
  | @ret B B' cur r line hcur _ ha =>
    intro b hlt hr _
    rw [ha.length] at hlt
    obtain rfl : b = cur := by omega
    have hblk := List.getElem?_eq_getElem (l := B'.blocks) (by rw [ha.length]; exact hcur)
    refine ⟨_, hP b _ (Or.inl rfl) (by simp) hblk, Or.inr ⟨r, line, ?_⟩⟩
    rw [← Builder.code_of_get hblk, ha.code hcur]
    simp
  | @seq B B₁ B₂ cur c out R S s₁ s₂ _ _ ih₁ ih₂ =>
    intro b hlt hr hne
    by_cases hsecond : b = c ∨ B₁.blocks.length ≤ b
    · exact ih₂ (hP.second s₁) b hlt hsecond hne
    · obtain ⟨hbc, hb⟩ := not_or.mp hsecond
      exact ih₁ (hP.first s₂) b (not_le.mp hb) hr fun h => hbc (Option.some.inj h).symm
  | @branch B B₁ B₂ cur t e R S hcur hu s₁ s₂ _ _ ih₁ ih₂ =>
    intro b hlt hr hne
    have hbr := hP.branch hcur hu s₁ s₂
    have A := s₁.arms hcur hu s₂
    have hlen₁ := A.len₁
    have hlen₂ := A.len₂
    rcases hr with rfl | hge
    · obtain ⟨blk, hblk, -, hsucc⟩ := hbr.fork
      exact ⟨blk, hblk, Or.inl (by rw [hsucc]; exact List.cons_ne_nil _ _)⟩
    · by_cases hexit : t = some b ∨ e = some b
      · obtain ⟨blk, hblk, -, hsucc⟩ := hbr.exits b hexit
        exact ⟨blk, hblk, Or.inl (by rw [hsucc]; exact List.cons_ne_nil _ _)⟩
      · obtain ⟨ht, he⟩ := not_or.mp hexit
        -- the merge is where control goes on
        have hb₂ : b < B₂.blocks.length := by
          by_contra hge₂
          unfold Builder.merge at hlt hne
          split at hlt
          next => exact hge₂ hlt
          next hte =>
            rw [if_neg hte] at hne
            simp only [Builder.linkIf_length, Builder.newBlock_length, Builder.popScope_blocks] at hlt hne
            exact hne (by congr 1; omega)
        by_cases hsecond : b = B.blocks.length + 1 ∨ B₁.blocks.length ≤ b
        · exact ih₂ hbr.second b hb₂ hsecond he
        · refine ih₁ hbr.first b (by omega) ?_ ht
          simp only [Builder.pushScope_blocks, Builder.fork_length]
          omega
  | @loop B B' cur out R hcur hu s _ ih =>
    intro b hlt hr hne
    have hlp := hP.loop hcur s
    rw [Builder.linkIf_length, Builder.popScope_blocks] at hlt
    rcases hr with rfl | hge
    · obtain ⟨blk, hblk, -, hsucc⟩ := hlp.entry
      exact ⟨blk, hblk, Or.inl (by rw [hsucc]; exact List.cons_ne_nil _ _)⟩
    · by_cases hexit : out = some b
      · obtain ⟨blk, hblk, -, hsucc⟩ := hlp.back b hexit
        exact ⟨blk, hblk, Or.inl (by rw [hsucc]; exact List.cons_ne_nil _ _)⟩
      · by_cases htest : b = B.blocks.length
        · obtain ⟨blk, hblk, -, hsucc⟩ := hlp.test
          exact ⟨blk, htest ▸ hblk, Or.inl (by rw [hsucc]; exact List.cons_ne_nil _ _)⟩
        · have hafter : b ≠ B.blocks.length + 2 := fun h => hne (by rw [h])
          refine ih hlp.body b hlt ?_ hexit
          simp only [Builder.pushScope_blocks, Builder.openLoop_length]
          omega
  | @same B B' B'' cur out R _ hb ih =>
    intro b hlt hr hne
    exact ih (fun b blk hr hne hblk => hP b blk hr hne (by rw [hb]; exact hblk)) b (by rw [← hb]; exact hlt) hr hne

end

/-! ## The paths of a function -/

section

variable {B₀ L : Builder} {out : Option Nat} {R : Ways Instr} {cfg : CFG}

/-- The words along the paths to a block. -/
def pathsTo (cfg : CFG) (b : Nat) : Language Instr := {t | Path cfg b 0 t}

def departures (cfg : CFG) : Language Instr := {t | Departs cfg t}

theorem block_of_code (hcfg : cfg.blocks = L.blocks) {b i : Nat} {ins : Instr} (h : (L.code b)[i]? = some ins) :
    ∃ blk, cfg.blocks[b]? = some blk ∧ L.code b = blk.instrs := by
  rw [hcfg]
  unfold Builder.code at h ⊢
  cases hblk : L.blocks[b]? with
  | none =>
    rw [hblk] at h
    cases h
  | some blk => exact ⟨blk, rfl, rfl⟩

theorem pathsTo_carries (hcfg : cfg.blocks = L.blocks) : Carries L.Flow (pathsTo cfg) := by
  intro p c l hf w hw
  obtain ⟨blk, hblk, hc, rfl⟩ := hf
  obtain ⟨t, ht, u, hu, rfl⟩ := Language.mem_mul.mp hw
  rw [mem_word.mp hu]
  rw [← hcfg] at hblk
  have hrun := Path.run hblk ht blk.instrs.length (le_refl _)
  rw [List.take_length] at hrun
  exact Path.edge hblk hc hrun

theorem departures_exits (hcfg : cfg.blocks = L.blocks) : Exits (pathsTo cfg) L (departures cfg) := by
  intro b i r line hi w hw
  obtain ⟨t, ht, u, hu, rfl⟩ := Language.mem_mul.mp hw
  rw [mem_word.mp hu]
  obtain ⟨blk, hblk, hcode⟩ := block_of_code hcfg hi
  rw [hcode] at hi ⊢
  exact Departs.returns hblk hi (Path.run hblk ht (i + 1) (List.getElem?_eq_some_iff.mp hi).1)

theorem Charts.departs_iff (h : Charts B₀ 0 L out R) (hstart : B₀.blocks = [{ label := "entry" }])
    (hexit : ∀ c, out = some c → c < L.blocks.length ∧ L.Unlinked c) (hcfg : cfg.blocks = L.blocks) (hentry : cfg.entry = 0)
    (t : List Instr) : Departs cfg t ↔ t ∈ R.all := by
  have hcode₀ : ∀ b, B₀.code b = [] := by
    intro b
    unfold Builder.code
    rw [hstart]
    cases b <;> rfl
  have hend₀ : ∀ F : Nat → Language Instr, atEnd F B₀ 0 = F 0 := by
    intro F
    unfold atEnd
    rw [hcode₀]
    exact mul_one _
  have hflow₀ : ∀ p c l, ¬B₀.Flow p c l := by
    intro p c l hf
    obtain ⟨blk, hblk, hc, -⟩ := hf
    rw [hstart] at hblk
    cases p with
    | zero =>
      cases hblk
      cases hc
    | succ p => cases hblk
  have hgoing := h.going (by rw [hcode₀]; exact fun ins hins => absurd hins List.not_mem_nil)
  constructor
  · intro hd
    obtain ⟨F, hF⟩ := h.least (F := fun _ => 1) ⟨fun p c l hf => absurd hf (hflow₀ p c l),
      fun p c l hf => absurd hf (hflow₀ p c l)⟩
    have hlen₀ : B₀.blocks.length = 1 := by rw [hstart]; rfl
    -- a path stays in the family
    have hpath : ∀ b i t, Path cfg b i t → t ∈ F b * {(L.code b).take i} := by
      intro b i t ht
      induction ht with
      | entry =>
        rw [hentry, hF.keep 0 (by omega)]
        exact Language.mem_mul.mpr ⟨[], rfl, [], rfl, rfl⟩
      | @instr b i t blk a hb hi _ ih =>
        rw [hcfg] at hb
        rw [Builder.code_of_get hb] at ih ⊢
        obtain ⟨u, hu, v, hv, rfl⟩ := Language.mem_mul.mp ih
        rw [mem_word.mp hv]
        refine Language.mem_mul.mpr ⟨u, hu, blk.instrs.take (i + 1), rfl, ?_⟩
        rw [take_succ_of_get hi, List.append_assoc]
      | @edge b c t blk hb hc _ ih =>
        rw [hcfg] at hb
        rw [Builder.code_of_get hb, List.take_length] at ih
        have hin := hF.chart.closed b c blk.instrs ⟨blk, hb, hc, rfl⟩ ih
        exact Language.mem_mul.mpr ⟨t, hin, [], rfl, List.append_nil t⟩
    cases hd with
    | @returns b i t blk r line hb hi ht =>
      have hi' : (L.code b)[i]? = some (.return_ r line) := by
        rw [hcfg] at hb
        rw [Builder.code_of_get hb]
        exact hi
      have hnew : Newer B₀ 0 b i := by
        by_cases hb₀ : b = 0
        · exact Or.inr ⟨hb₀, by rw [hcode₀]; exact Nat.zero_le _⟩
        · exact Or.inl (by omega)
      have hin := hF.leaves b i r line hnew hi' (hpath b (i + 1) t ht)
      rw [hend₀, one_mul] at hin
      exact Or.inr hin
    | @falls b t blk hb hf ht =>
      have hb' : L.blocks[b]? = some blk := hcfg ▸ hb
      simp only [CFG.fallsOff, CFG.succ_of_get hb, CFG.instrs_of_get hb, decide_eq_true_eq] at hf
      have hout : out = some b := by
        by_contra hne
        obtain ⟨blk', hblk', hdone⟩ := h.done (C := L) (fun _ _ _ _ h => h) b (Builder.lt_of_get hb') (by omega) hne
        rw [hb'] at hblk'
        cases hblk'
        rcases hdone with hs | ⟨r, line, hl⟩
        · exact hs hf.1
        · rw [hl] at hf
          exact hf.2 rfl
      have hin := hpath b _ t ht
      rw [Builder.code_of_get hb', List.take_length, ← Builder.code_of_get hb'] at hin
      have hfalls := hF.falls b hout hin
      rw [hend₀, one_mul] at hfalls
      exact Or.inl hfalls
  · intro ht
    have hM := h.most (C := L) (fun _ _ _ _ h => h) (pathsTo_carries hcfg) (departures_exits hcfg)
    have hnil : [] ∈ pathsTo cfg 0 := by
      have hp : Path cfg cfg.entry 0 [] := .entry
      rw [hentry] at hp
      exact hp
    have hstartMem : ∀ M : Language Instr, t ∈ M → t ∈ atEnd (pathsTo cfg) B₀ 0 * M := by
      intro M hM
      rw [hend₀]
      exact Language.mem_mul.mpr ⟨[], hnil, t, hM, rfl⟩
    rcases ht with hfalls | hleaves
    · cases out with
      | none =>
        rw [hM.none_ rfl] at hfalls
        exact absurd hfalls (Language.notMem_zero t)
      | some c =>
        obtain ⟨u, hu, v, hv, rfl⟩ := Language.mem_mul.mp (hM.falls c rfl (hstartMem _ hfalls))
        obtain ⟨hlt, hunl⟩ := hexit c rfl
        have hblk : L.blocks[c]? = some L.blocks[c] := List.getElem?_eq_getElem hlt
        have hblk' : cfg.blocks[c]? = some L.blocks[c] := by rw [hcfg]; exact hblk
        rw [mem_word.mp hv, Builder.code_of_get hblk]
        have hrun := Path.run hblk' hu L.blocks[c].instrs.length (le_refl _)
        rw [List.take_length] at hrun
        refine Departs.falls hblk' ?_ hrun
        simp only [CFG.fallsOff, CFG.succ_of_get hblk', CFG.instrs_of_get hblk', decide_eq_true_eq]
        refine ⟨hunl _ hblk, fun hret => ?_⟩
        obtain ⟨ins, hlast, hins⟩ := (Option.any_eq_true _ _).mp hret
        have hno := hgoing c rfl ins (by rw [Builder.code_of_get hblk]; exact List.mem_of_getLast? hlast)
        rw [hno] at hins
        cases hins
    · exact hM.leaves (hstartMem _ hleaves)

end

end OwnNet.Lang
