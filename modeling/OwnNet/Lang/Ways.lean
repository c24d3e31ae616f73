/-
  OwnNet.Lang.Ways — the instructions along the paths of a body's graph, as what the body's
  parts do one after the other.

  `Charts B cur B' out R`: what was added to `B` from block `cur` on is put together from
  straight code, a `return`, a branch or a loop the way `R` is, and control goes on at `out`.
  `atEnd F B b` are the words at the end of block `b` where those at its start are `F b`.

  Proved: `Charts.least`: some closed family has at the end, and at every `return`, only
  words of `R`; `Charts.most`: every closed family has all of them.
-/

import OwnNet.Graph.Ways
import OwnNet.Lang.Notes

namespace OwnNet.Lang

open Computability Graph

/-! ## Code put together -/

/-- Only block `cur` has changed: `l` comes after the code it had. -/
def Appends (B : Builder) (cur : Nat) (l : List Instr) (B' : Builder) : Prop :=
  B'.blocks = B.blocks.modify cur fun blk => { blk with instrs := blk.instrs ++ l }

namespace Appends

variable {B B' : Builder} {cur : Nat} {l : List Instr}

theorem nothing (h : B'.blocks = B.blocks) : Appends B cur [] B' := by
  unfold Appends
  have hid : (fun blk : Block => { blk with instrs := blk.instrs ++ [] }) = id := by
    funext blk
    simp
  rw [h, hid, List.modify_id]

theorem emit (h : B'.blocks = B.blocks) (ins : Instr) : Appends B cur [ins] (B'.emit cur ins) := by
  unfold Appends Builder.emit
  rw [h]

theorem get (h : Appends B cur l B') (b : Nat) : B'.blocks[b]? =
    if b = cur then (B.blocks[cur]?).map fun blk => { blk with instrs := blk.instrs ++ l } else B.blocks[b]? := by
  rw [h, List.getElem?_modify]
  by_cases hb : b = cur
  · subst hb
    simp
  · simp [hb, Ne.symm hb]

theorem length (h : Appends B cur l B') : B'.blocks.length = B.blocks.length := by
  rw [h, List.length_modify]

theorem code (h : Appends B cur l B') (hcur : cur < B.blocks.length) : B'.code cur = B.code cur ++ l := by
  unfold Builder.code
  rw [h.get, if_pos rfl, List.getElem?_eq_getElem hcur]
  rfl

theorem unlinked (h : Appends B cur l B') (hu : B.Unlinked cur) : B'.Unlinked cur := by
  intro blk hblk
  rw [h.get, if_pos rfl] at hblk
  obtain ⟨blk₀, hblk₀, rfl⟩ := Option.map_eq_some_iff.mp hblk
  exact hu blk₀ hblk₀

theorem flow (h : Appends B cur l B') (hu : B.Unlinked cur) (p c : Nat) (w : List Instr) :
    B'.Flow p c w ↔ B.Flow p c w := by
  by_cases hp : p = cur
  · subst hp
    exact ⟨fun hf => absurd (h.unlinked hu) hf.linked, fun hf => absurd hu hf.linked⟩
  · unfold Builder.Flow
    rw [h.get, if_neg hp]

theorem spans (h : Appends B cur l B') (hcur : cur < B.blocks.length) (hu : B.Unlinked cur) : Spans B cur B' (some cur) := by
  refine ⟨hcur, hu, ⟨fun b _ hb => by rw [h.get, if_neg hb], ?_, ?_⟩, le_of_eq h.length.symm, ?_⟩
  · intro c hc
    cases hc
    exact ⟨Or.inl rfl, by rw [h.length]; exact hcur⟩
  · intro blk hblk
    exact ⟨l, blk.succ, by rw [h.get, if_pos rfl, hblk]; rfl⟩
  · intro c hc
    cases hc
    exact h.unlinked hu

/-- A block nothing leaves may as well be linked to nothing. -/
theorem ret (h : B'.blocks = B.blocks) (hu : B.Unlinked cur) (ins : Instr) :
    Appends B cur [ins] ((B'.emit cur ins).link cur []) := by
  unfold Appends
  apply List.ext_getElem?
  intro b
  rw [Builder.link_get, Builder.emit_get, Builder.emit_get, List.getElem?_modify, h]
  by_cases hb : b = cur
  · subst hb
    cases hblk : B.blocks[b]? with
    | none => simp
    | some blk =>
      have hs := hu blk hblk
      simp [← hs]
  · simp [hb, Ne.symm hb]

end Appends

inductive Charts : Builder → Nat → Builder → Option Nat → Ways Instr → Prop
  | straight {B B' : Builder} {cur : Nat} {l : List Instr} : cur < B.blocks.length → B.Unlinked cur →
      Appends B cur l B' → (∀ ins ∈ l, ins.isReturn = false) → Charts B cur B' (some cur) (.word l)
  | ret {B B' : Builder} {cur : Nat} {r : Option Symbol} {line : Int} : cur < B.blocks.length → B.Unlinked cur →
      Appends B cur [.return_ r line] B' → Charts B cur B' none (.leave [.return_ r line])
  | seq {B B₁ B₂ : Builder} {cur c : Nat} {out : Option Nat} {R S : Ways Instr} :
      Spans B cur B₁ (some c) → Spans B₁ c B₂ out → Charts B cur B₁ (some c) R → Charts B₁ c B₂ out S →
      Charts B cur B₂ out (R.seq S)
  | branch {B B₁ B₂ : Builder} {cur : Nat} {t e : Option Nat} {R S : Ways Instr} : cur < B.blocks.length → B.Unlinked cur →
      Spans (B.fork cur).pushScope B.blocks.length B₁ t → Spans B₁.popScope.pushScope (B.blocks.length + 1) B₂ e →
      Charts (B.fork cur).pushScope B.blocks.length B₁ t R →
      Charts B₁.popScope.pushScope (B.blocks.length + 1) B₂ e S →
      Charts B cur (B₂.popScope.merge t e).1 (B₂.popScope.merge t e).2 (R.choice S)
  | loop {B B' : Builder} {cur : Nat} {out : Option Nat} {R : Ways Instr} : cur < B.blocks.length → B.Unlinked cur →
      Spans (B.openLoop cur).pushScope (B.blocks.length + 1) B' out →
      Charts (B.openLoop cur).pushScope (B.blocks.length + 1) B' out R →
      Charts B cur (B'.popScope.linkIf out [B.blocks.length]) (some (B.blocks.length + 2)) R.loop
  | same {B B' B'' : Builder} {cur : Nat} {out : Option Nat} {R : Ways Instr} : Charts B cur B' out R →
      B''.blocks = B'.blocks → Charts B cur B'' out R

def atEnd (F : Nat → Language Instr) (B : Builder) (b : Nat) : Language Instr := F b * {B.code b}

theorem word_mul (l m : List Instr) : ({l} : Language Instr) * {m} = {l ++ m} := by
  have h := congrArg Ways.falls (Ways.word_seq l m)
  exact h

theorem atEnd_append {F : Nat → Language Instr} {B B' : Builder} {cur : Nat} {l : List Instr} (h : Appends B cur l B')
    (hcur : cur < B.blocks.length) : atEnd F B' cur = atEnd F B cur * {l} := by
  unfold atEnd
  rw [h.code hcur, mul_assoc, word_mul]

/-- An empty block ends with what it starts with. -/
theorem atEnd_new {F : Nat → Language Instr} {B : Builder} {b : Nat} {l : String} (h : B.blocks[b]? = some { label := l }) :
    atEnd F B b = F b := by
  unfold atEnd
  rw [code_new h]
  exact mul_one _

/-! ## No more than the ways -/

/-- Edges lead to blocks, and the family is closed. -/
structure Chart (F : Nat → Language Instr) (B : Builder) : Prop where
  lt : ∀ p c l, B.Flow p c l → c < B.blocks.length
  closed : Carries B.Flow F

theorem Chart.congr {F : Nat → Language Instr} {B B' : Builder} (h : Chart F B) (hflow : ∀ p c l, B'.Flow p c l ↔ B.Flow p c l)
    (hlen : B'.blocks.length = B.blocks.length) : Chart F B' where
  lt p c l hf := by
    rw [hlen]
    exact h.lt p c l ((hflow p c l).mp hf)
  closed p c l hf := h.closed p c l ((hflow p c l).mp hf)

/-- Instruction `i` of block `b` was not there before. -/
def Newer (B : Builder) (cur b i : Nat) : Prop := B.blocks.length ≤ b ∨ (b = cur ∧ (B.code cur).length ≤ i)

structure Least (R : Ways Instr) (F F' : Nat → Language Instr) (B : Builder) (cur : Nat) (B' : Builder)
    (out : Option Nat) : Prop where
  keep : ∀ b < B.blocks.length, F' b = F b
  chart : Chart F' B'
  falls : ∀ c, out = some c → atEnd F' B' c ≤ atEnd F B cur * R.falls
  leaves : ∀ b i r line, Newer B cur b i → (B'.code b)[i]? = some (.return_ r line) →
    F' b * {(B'.code b).take (i + 1)} ≤ atEnd F B cur * R.leaves

/-- The family there was, and `L` for every new block. -/
def famFrom (F : Nat → Language Instr) (n : Nat) (L : Language Instr) (b : Nat) : Language Instr := if b < n then F b else L

theorem famFrom_old {F : Nat → Language Instr} {n b : Nat} {L : Language Instr} (h : b < n) : famFrom F n L b = F b := if_pos h

theorem famFrom_new {F : Nat → Language Instr} {n b : Nat} {L : Language Instr} (h : n ≤ b) : famFrom F n L b = L :=
  if_neg (not_lt.mpr h)

theorem code_of_ge {B : Builder} {b : Nat} (h : B.blocks.length ≤ b) : B.code b = [] := by
  unfold Builder.code
  rw [List.getElem?_eq_none h]
  rfl

theorem code_of_blocks {B B' : Builder} {b : Nat} (h : B'.blocks[b]? = B.blocks[b]?) : B'.code b = B.code b := by
  unfold Builder.code
  rw [h]

section

variable {F : Nat → Language Instr} {B B' B₁ B₂ : Builder} {cur c : Nat} {out : Option Nat} {R S : Ways Instr} {l : List Instr}

theorem Least.straight (hF : Chart F B) (hcur : cur < B.blocks.length) (hu : B.Unlinked cur) (h : Appends B cur l B')
    (hl : ∀ ins ∈ l, ins.isReturn = false) : Least (.word l) F F B cur B' (some cur) where
  keep _ _ := rfl
  chart := hF.congr (h.flow hu) h.length
  falls c hc := by
    cases hc
    rw [atEnd_append h hcur]
    exact le_refl _
  leaves b i r line hnew hi := by
    rcases hnew with hb | ⟨rfl, hle⟩
    · rw [code_of_ge (by rw [h.length]; exact hb)] at hi
      cases hi
    · rw [h.code hcur, List.getElem?_append_right hle] at hi
      have := hl _ (List.mem_of_getElem? hi)
      cases this

theorem Least.ret {r : Option Symbol} {line : Int} (hF : Chart F B) (hcur : cur < B.blocks.length) (hu : B.Unlinked cur)
    (h : Appends B cur [.return_ r line] B') : Least (.leave [.return_ r line]) F F B cur B' none where
  keep _ _ := rfl
  chart := hF.congr (h.flow hu) h.length
  falls c hc := by cases hc
  leaves b i r' line' hnew hi := by
    rcases hnew with hb | ⟨rfl, hle⟩
    · rw [code_of_ge (by rw [h.length]; exact hb)] at hi
      cases hi
    · have hlt := (List.getElem?_eq_some_iff.mp hi).1
      have hwhole : (B'.code b).take (i + 1) = B.code b ++ [.return_ r line] := by
        rw [h.code hcur] at hlt ⊢
        rw [List.take_of_length_le]
        simp only [List.length_append, List.length_singleton] at hlt ⊢
        omega
      rw [hwhole, ← word_mul, ← mul_assoc]
      exact le_refl _

theorem Least.seq {F₁ F₂ : Nat → Language Instr} (s₁ : Spans B cur B₁ (some c)) (s₂ : Spans B₁ c B₂ out)
    (h₁ : Least R F F₁ B cur B₁ (some c)) (h₂ : Least S F₁ F₂ B₁ c B₂ out) : Least (R.seq S) F F₂ B cur B₂ out where
  keep b hb := by rw [h₂.keep b (lt_of_lt_of_le hb s₁.grown), h₁.keep b hb]
  chart := h₂.chart
  falls d hd := by
    calc atEnd F₂ B₂ d ≤ atEnd F₁ B₁ c * S.falls := h₂.falls d hd
      _ ≤ (atEnd F B cur * R.falls) * S.falls := mul_le_mul_left (h₁.falls c rfl) _
      _ = atEnd F B cur * (R.seq S).falls := mul_assoc _ _ _
  leaves b i r line hnew hi := by
    have hsum : atEnd F B cur * (R.seq S).leaves = atEnd F B cur * R.leaves + atEnd F B cur * R.falls * S.leaves := by
      show _ * (R.leaves + R.falls * S.leaves) = _
      rw [mul_add, mul_assoc]
    rw [hsum]
    by_cases hlate : Newer B₁ c b i
    · calc F₂ b * {(B₂.code b).take (i + 1)} ≤ atEnd F₁ B₁ c * S.leaves := h₂.leaves b i r line hlate hi
        _ ≤ (atEnd F B cur * R.falls) * S.leaves := mul_le_mul_left (h₁.falls c rfl) _
        _ ≤ _ := le_sup_right
    · -- the instruction was there before the second part
      obtain ⟨hb, hci⟩ := not_or.mp hlate
      have hlt : b < B₁.blocks.length := not_le.mp hb
      have hcode : (B₁.code b)[i]? = (B₂.code b)[i]? ∧ (B₂.code b).take (i + 1) = (B₁.code b).take (i + 1) := by
        by_cases hbc : b = c
        · subst hbc
          have hi₁ : i < (B₁.code b).length := by
            by_contra hge
            exact hci ⟨rfl, not_lt.mp hge⟩
          obtain ⟨l, succ, hl⟩ := s₂.frame.grow _ (List.getElem?_eq_getElem hlt)
          have hgrown : B₂.code b = B₁.code b ++ l := by
            rw [Builder.code_of_get hl, Builder.code_of_get (List.getElem?_eq_getElem hlt)]
          rw [hgrown, List.getElem?_append_left hi₁, List.take_append_of_le_length (by omega)]
          exact ⟨rfl, rfl⟩
        · rw [code_of_blocks (s₂.frame.keep b hlt hbc)]
          exact ⟨rfl, rfl⟩
      rw [← hcode.1] at hi
      rw [hcode.2, h₂.keep b hlt]
      exact le_trans (h₁.leaves b i r line hnew hi) le_sup_left

/-- New blocks that nothing leads from yet, entered from the end of `cur`. -/
theorem Chart.fork (hF : Chart F B) (hcur : cur < B.blocks.length) (hu : B.Unlinked cur) :
    Chart (famFrom F B.blocks.length (atEnd F B cur)) (B.fork cur).pushScope where
  lt p c l hf := by
    rw [Builder.pushScope_blocks, Builder.fork_length]
    rcases (Builder.flow_fork hu hcur p c l).mp hf with hf | ⟨-, hc, -⟩
    · have := hF.lt p c l hf
      omega
    · omega
  closed p c l hf := by
    rcases (Builder.flow_fork hu hcur p c l).mp hf with hf | ⟨rfl, hc, rfl⟩
    · rw [famFrom_old hf.lt, famFrom_old (hF.lt p c l hf)]
      exact hF.closed p c l hf
    · rw [famFrom_old hcur, famFrom_new (by omega)]
      exact le_refl _

theorem code_merge {t e : Option Nat} (b : Nat) : (B.merge t e).1.code b = B.code b := by
  unfold Builder.merge
  split
  · rfl
  · rw [Builder.code_linkIf, Builder.code_linkIf]
    by_cases hb : b < B.blocks.length
    · exact Builder.code_newBlock hb
    · rw [code_of_ge (not_lt.mp hb)]
      unfold Builder.code
      rw [Builder.newBlock_get]
      split
      · rfl
      · rw [List.getElem?_eq_none (not_lt.mp hb)]
        rfl

theorem Chart.merge {t e : Option Nat} (hF : Chart F B) (ht : ∀ c, t = some c → c < B.blocks.length ∧ B.Unlinked c)
    (he : ∀ c, e = some c → c < B.blocks.length ∧ B.Unlinked c) {L : Language Instr}
    (hL : ∀ c, t = some c ∨ e = some c → atEnd F B c ≤ L) : Chart (famFrom F B.blocks.length L) (B.merge t e).1 where
  lt p c l hf := by
    rcases (Builder.flow_merge ht he p c l).mp hf with hf | ⟨hp, rfl, -⟩
    · exact lt_of_lt_of_le (hF.lt p c l hf) (B.merge_length t e)
    · have hsome := ((merge_exit ht he).2 p hp).1
      have := (merge_some (fun d hd => (ht d hd).1) (fun d hd => (he d hd).1) hsome).2.2
      omega
  closed p c l hf := by
    rcases (Builder.flow_merge ht he p c l).mp hf with hf | ⟨hp, rfl, rfl⟩
    · rw [famFrom_old hf.lt, famFrom_old (hF.lt p c l hf)]
      exact hF.closed p c l hf
    · rw [famFrom_old (hp.elim (fun h => (ht p h).1) fun h => (he p h).1), famFrom_new (le_refl _)]
      exact hL p hp

theorem Least.branch {F₁ F₂ : Nat → Language Instr} {t e : Option Nat} (hcur : cur < B.blocks.length) (hu : B.Unlinked cur)
    (s₁ : Spans (B.fork cur).pushScope B.blocks.length B₁ t)
    (s₂ : Spans B₁.popScope.pushScope (B.blocks.length + 1) B₂ e)
    (h₁ : Least R (famFrom F B.blocks.length (atEnd F B cur)) F₁ (B.fork cur).pushScope B.blocks.length B₁ t)
    (h₂ : Least S F₁ F₂ B₁.popScope.pushScope (B.blocks.length + 1) B₂ e) :
    Least (R.choice S) F (famFrom F₂ B₂.blocks.length (atEnd F B cur * (R.choice S).falls)) B cur
      (B₂.popScope.merge t e).1 (B₂.popScope.merge t e).2 := by
  have A := s₁.arms hcur hu s₂
  have hlen₁ := A.len₁
  have hlen₂ := A.len₂
  have hkeep₁ := h₁.keep
  have hkeep₂ := h₂.keep
  simp only [Builder.pushScope_blocks, Builder.popScope_blocks, Builder.fork_length] at hkeep₁ hkeep₂
  -- both arms start with the words at the end of `cur`
  obtain ⟨l₀, hl₀⟩ := Builder.fork_get_new hcur (Or.inl rfl)
  obtain ⟨l₁, hl₁⟩ := A.else_
  have hthen : atEnd (famFrom F B.blocks.length (atEnd F B cur)) (B.fork cur).pushScope B.blocks.length = atEnd F B cur := by
    rw [atEnd_new (B := (B.fork cur).pushScope) hl₀, famFrom_new (le_refl _)]
  have helse : atEnd F₁ B₁.popScope.pushScope (B.blocks.length + 1) = atEnd F B cur := by
    rw [atEnd_new (B := B₁.popScope.pushScope) hl₁, hkeep₁ _ (by omega), famFrom_new (by omega)]
  have hfalls : atEnd F B cur * (R.choice S).falls = atEnd F B cur * R.falls + atEnd F B cur * S.falls := mul_add _ _ _
  have hleaves : atEnd F B cur * (R.choice S).leaves = atEnd F B cur * R.leaves + atEnd F B cur * S.leaves := mul_add _ _ _
  have hends : ∀ c, t = some c ∨ e = some c → atEnd F₂ B₂.popScope c ≤ atEnd F B cur * (R.choice S).falls := by
    rw [hfalls]
    rintro c (hc | hc)
    · have hcode : B₂.popScope.code c = B₁.code c := code_of_blocks (A.same c hc)
      have hsame : atEnd F₂ B₂.popScope c = atEnd F₁ B₁ c := by
        unfold atEnd
        rw [hcode, hkeep₂ c (s₁.frame.out c hc).2]
      rw [hsame]
      have := h₁.falls c hc
      rw [hthen] at this
      exact le_trans this le_sup_left
    · have := h₂.falls c hc
      rw [helse] at this
      exact le_trans this le_sup_right
  have hchart : Chart F₂ B₂.popScope := h₂.chart.congr (Builder.flow_of_blocks rfl) rfl
  refine ⟨?_, hchart.merge A.exit₁ A.exit₂ hends, ?_, ?_⟩
  · intro b hb
    rw [famFrom_old (by omega), hkeep₂ b (by omega), hkeep₁ b (by omega), famFrom_old hb]
  · intro m hm
    obtain ⟨rfl, hget, -⟩ := merge_some (fun d hd => (A.exit₁ d hd).1) (fun d hd => (A.exit₂ d hd).1) hm
    rw [atEnd_new hget, Builder.popScope_blocks, famFrom_new (le_refl _)]
  · intro b i r line hnew hi
    rw [code_merge] at hi ⊢
    have hb : b < B₂.blocks.length := by
      by_contra hge
      rw [code_of_ge (B := B₂.popScope) (not_lt.mp hge)] at hi
      cases hi
    rw [famFrom_old hb, hleaves]
    have hcode : ∀ b < B₁.blocks.length, b ≠ B.blocks.length + 1 → B₂.popScope.code b = B₁.code b :=
      fun b hb hne => code_of_blocks (s₂.frame.keep b hb hne)
    rcases hnew with hge | ⟨rfl, hle⟩
    · by_cases hsecond : b = B.blocks.length + 1 ∨ B₁.blocks.length ≤ b
      · have := h₂.leaves b i r line ?_ hi
        · rw [helse] at this
          exact le_trans this le_sup_right
        · rcases hsecond with rfl | hge₁
          · exact Or.inr ⟨rfl, by rw [code_new (B := B₁.popScope.pushScope) hl₁]; exact Nat.zero_le _⟩
          · exact Or.inl hge₁
      · obtain ⟨hne, hlt₁⟩ := not_or.mp hsecond
        rw [hcode b (not_le.mp hlt₁) hne] at hi ⊢
        rw [hkeep₂ b (not_le.mp hlt₁)]
        have := h₁.leaves b i r line ?_ hi
        · rw [hthen] at this
          exact le_trans this le_sup_left
        · by_cases hb₀ : b = B.blocks.length
          · exact Or.inr ⟨hb₀, by rw [code_new (B := (B.fork cur).pushScope) hl₀]; exact Nat.zero_le _⟩
          · refine Or.inl ?_
            simp only [Builder.pushScope_blocks, Builder.fork_length]
            omega
    · -- the block the branch is in keeps its code
      have hold : B₂.popScope.code b = B.code b := by
        rw [hcode b (by omega) (by omega), code_of_blocks (s₁.frame.keep b (by simp; omega) (by omega))]
        exact (Builder.code_link _ _ _ _).trans ((Builder.code_newBlock (by simp; omega)).trans (Builder.code_newBlock hcur))
      rw [hold, List.getElem?_eq_none hle] at hi
      cases hi

/-- A loop's new blocks, entered with what has gone round any number of times. -/
theorem Chart.openLoop (hF : Chart F B) (hcur : cur < B.blocks.length) (hu : B.Unlinked cur) {L : Language Instr}
    (hL : atEnd F B cur ≤ L) : Chart (famFrom F B.blocks.length L) (B.openLoop cur).pushScope where
  lt p c l hf := by
    rw [Builder.pushScope_blocks, Builder.openLoop_length]
    rcases (Builder.flow_openLoop hu hcur p c l).mp hf with hf | ⟨-, hc, -⟩ | ⟨-, hc, -⟩
    · have := hF.lt p c l hf
      omega
    · omega
    · omega
  closed p c l hf := by
    rcases (Builder.flow_openLoop hu hcur p c l).mp hf with hf | ⟨rfl, hc, rfl⟩ | ⟨rfl, hc, rfl⟩
    · rw [famFrom_old hf.lt, famFrom_old (hF.lt p c l hf)]
      exact hF.closed p c l hf
    · rw [famFrom_old hcur, famFrom_new (by omega)]
      exact hL
    · rw [famFrom_new (le_refl _), famFrom_new (by omega)]
      exact le_of_eq (mul_one L)

theorem Chart.link (hF : Chart F B) {d h : Nat} (hd : d < B.blocks.length) (hu : B.Unlinked d) (hh : h < B.blocks.length)
    (hle : atEnd F B d ≤ F h) : Chart F (B.link d [h]) where
  lt p c l hf := by
    rw [Builder.link_length]
    rcases (Builder.flow_link hu hd [h] p c l).mp hf with hf | ⟨-, hc, -⟩
    · exact hF.lt p c l hf
    · rw [List.mem_singleton.mp hc]
      exact hh
  closed p c l hf := by
    rcases (Builder.flow_link hu hd [h] p c l).mp hf with hf | ⟨rfl, hc, rfl⟩
    · exact hF.closed p c l hf
    · rw [List.mem_singleton.mp hc]
      exact hle

theorem Least.loop {F' : Nat → Language Instr} (hcur : cur < B.blocks.length) (hu : B.Unlinked cur)
    (s : Spans (B.openLoop cur).pushScope (B.blocks.length + 1) B' out)
    (h : Least R (famFrom F B.blocks.length (atEnd F B cur * R.falls∗)) F' (B.openLoop cur).pushScope
      (B.blocks.length + 1) B' out) :
    Least R.loop F F' B cur (B'.popScope.linkIf out [B.blocks.length]) (some (B.blocks.length + 2)) := by
  have hkeep := h.keep
  have hlen := s.grown
  simp only [Builder.pushScope_blocks, Builder.openLoop_length] at hkeep hlen
  have hnew : ∀ b, B.blocks.length ≤ b → b < B.blocks.length + 3 → F' b = atEnd F B cur * R.falls∗ := by
    intro b hge hlt
    rw [hkeep b hlt, famFrom_new hge]
  obtain ⟨l₁, hl₁⟩ := Builder.openLoop_get_new hcur (Or.inl rfl)
  have hstart : atEnd (famFrom F B.blocks.length (atEnd F B cur * R.falls∗)) (B.openLoop cur).pushScope (B.blocks.length + 1) =
      atEnd F B cur * R.falls∗ := by
    rw [atEnd_new (B := (B.openLoop cur).pushScope) hl₁, famFrom_new (by omega)]
  have hchart : Chart F' B'.popScope := h.chart.congr (Builder.flow_of_blocks rfl) rfl
  refine ⟨?_, ?_, ?_, ?_⟩
  · intro b hb
    rw [hkeep b (by omega), famFrom_old hb]
  · cases out with
    | none => exact hchart
    | some d =>
      refine hchart.link (s.frame.out d rfl).2 (s.exit d rfl) (by simp only [Builder.popScope_blocks]; omega) ?_
      -- one more round
      rw [hnew _ (le_refl _) (by omega)]
      have := h.falls d rfl
      rw [hstart] at this
      calc atEnd F' B'.popScope d ≤ atEnd F B cur * R.falls∗ * R.falls := this
        _ = atEnd F B cur * (R.falls∗ * R.falls) := mul_assoc _ _ _
        _ ≤ atEnd F B cur * R.falls∗ := mul_le_mul_right kstar_mul_le_kstar _
  · intro c hc
    cases hc
    obtain ⟨l₂, -, hget⟩ := s.frame.after_loop hcur
    unfold atEnd
    rw [code_new hget, hnew _ (by omega) (by omega)]
    exact le_of_eq (mul_one _)
  · intro b i r line hlate hi
    rw [Builder.code_linkIf] at hi ⊢
    rcases hlate with hge | ⟨rfl, hle⟩
    · by_cases hbody : b = B.blocks.length + 1 ∨ B.blocks.length + 3 ≤ b
      · have := h.leaves b i r line ?_ hi
        · rw [hstart, mul_assoc] at this
          exact this
        · rcases hbody with rfl | hge₁
          · exact Or.inr ⟨rfl, by rw [code_new (B := (B.openLoop cur).pushScope) hl₁]; exact Nat.zero_le _⟩
          · exact Or.inl (by simpa using hge₁)
      · -- the test and what follows the loop have no code
        have hempty : (B.openLoop cur).code b = [] := by
          rcases (show b = B.blocks.length ∨ b = B.blocks.length + 2 by omega) with rfl | rfl
          · exact Builder.code_of_get (Builder.openLoop_header hcur)
          · obtain ⟨l₂, hl₂⟩ := Builder.openLoop_get_new hcur (Or.inr rfl)
            exact code_new hl₂
        have hsame : B'.popScope.code b = (B.openLoop cur).code b :=
          code_of_blocks (s.frame.keep b (by simp; omega) (by omega))
        rw [hsame, hempty] at hi
        cases hi
    · have hold : B'.popScope.code b = B.code b := by
        refine (code_of_blocks (B := B.openLoop b) (s.frame.keep b (by simp; omega) (by omega))).trans ?_
        unfold Builder.code
        rw [Builder.openLoop_get hcur, if_pos rfl]
        cases B.blocks[b]? <;> rfl
      rw [hold, List.getElem?_eq_none hle] at hi
      cases hi

/-- Some closed family has only the ways through what was added. -/
theorem Charts.least (h : Charts B cur B' out R) (hF : Chart F B) : ∃ F', Least R F F' B cur B' out := by
  induction h generalizing F with
  | straight hcur hu ha hl => exact ⟨F, .straight hF hcur hu ha hl⟩
  | ret hcur hu ha => exact ⟨F, .ret hF hcur hu ha⟩
  | seq s₁ s₂ _ _ ih₁ ih₂ =>
    obtain ⟨F₁, h₁⟩ := ih₁ hF
    obtain ⟨F₂, h₂⟩ := ih₂ h₁.chart
    exact ⟨F₂, .seq s₁ s₂ h₁ h₂⟩
  | branch hcur hu s₁ s₂ _ _ ih₁ ih₂ =>
    obtain ⟨F₁, h₁⟩ := ih₁ (hF.fork hcur hu)
    obtain ⟨F₂, h₂⟩ := ih₂ (h₁.chart.congr (Builder.flow_of_blocks rfl) rfl)
    exact ⟨_, .branch hcur hu s₁ s₂ h₁ h₂⟩
  | @loop B B' cur out R hcur hu s _ ih =>
    have hin : atEnd F B cur ≤ atEnd F B cur * R.falls∗ := by
      calc atEnd F B cur = atEnd F B cur * 1 := (mul_one _).symm
        _ ≤ atEnd F B cur * R.falls∗ := mul_le_mul_right one_le_kstar _
    obtain ⟨F', h⟩ := ih (hF.openLoop hcur hu hin)
    exact ⟨F', .loop hcur hu s h⟩
  | @same B B' B'' cur out R _ hb ih =>
    obtain ⟨F', h⟩ := ih hF
    have hcode : ∀ b, B''.code b = B'.code b := fun b => code_of_blocks (by rw [hb])
    refine ⟨F', h.keep, h.chart.congr (Builder.flow_of_blocks hb) (by rw [hb]), ?_, ?_⟩
    · intro c hc
      unfold atEnd
      rw [hcode]
      exact h.falls c hc
    · intro b i r line hlate hi
      rw [hcode] at hi ⊢
      exact h.leaves b i r line hlate hi

/-! ## No less than the ways -/

/-- What was added stands in `C` as it is, but for what may still come after `out`. -/
def Placed (C B : Builder) (cur : Nat) (B' : Builder) (out : Option Nat) : Prop :=
  ∀ b blk, b = cur ∨ B.blocks.length ≤ b → out ≠ some b → B'.blocks[b]? = some blk → C.blocks[b]? = some blk

/-- A language with every word of the family that ends in a `return`. -/
def Exits (F : Nat → Language Instr) (C : Builder) (L : Language Instr) : Prop :=
  ∀ b i r line, (C.code b)[i]? = some (.return_ r line) → F b * {(C.code b).take (i + 1)} ≤ L

structure Most (R : Ways Instr) (F : Nat → Language Instr) (L : Language Instr) (B : Builder) (cur : Nat) (B' : Builder)
    (out : Option Nat) : Prop where
  falls : ∀ c, out = some c → atEnd F B cur * R.falls ≤ atEnd F B' c
  none_ : out = none → R.falls = 0
  leaves : atEnd F B cur * R.leaves ≤ L

variable {C : Builder} {L X : Language Instr}

/-- Along an edge of the whole graph. -/
theorem Carries.edge (hF : Carries C.Flow F) {p d : Nat} {blk : Block} (hp : C.blocks[p]? = some blk) (hd : d ∈ blk.succ) :
    F p * {blk.instrs} ≤ F d := hF p d blk.instrs ⟨blk, hp, hd, rfl⟩

theorem Most.ret {r : Option Symbol} {line : Int} (hcur : cur < B.blocks.length) (h : Appends B cur [.return_ r line] B')
    (hP : Placed C B cur B' none) (hL : Exits F C L) : Most (.leave [.return_ r line]) F L B cur B' none := by
  refine ⟨fun c hc => (by cases hc), fun _ => rfl, ?_⟩
  obtain ⟨blk, hget⟩ : ∃ blk, B'.blocks[cur]? = some blk := ⟨_, List.getElem?_eq_getElem (by rw [h.length]; exact hcur)⟩
  have hcode : C.code cur = B.code cur ++ [.return_ r line] := by
    rw [← h.code hcur, Builder.code_of_get hget]
    exact Builder.code_of_get (hP cur blk (Or.inl rfl) (by simp) hget)
  have hexit := hL cur (B.code cur).length r line (by rw [hcode]; simp)
  rw [hcode, List.take_of_length_le (by simp), ← word_mul, ← mul_assoc] at hexit
  exact hexit

theorem Placed.first (hP : Placed C B cur B₂ out) (s₂ : Spans B₁ c B₂ out) :
    Placed C B cur B₁ (some c) := by
  intro b blk hb hc hblk
  have hlt := Builder.lt_of_get hblk
  have hne : b ≠ c := fun h => hc (by rw [h])
  refine hP b blk hb ?_ (by rw [s₂.frame.keep b hlt hne]; exact hblk)
  intro hout
  have := (s₂.frame.out b hout).1
  omega

theorem Placed.second (hP : Placed C B cur B₂ out) (s₁ : Spans B cur B₁ (some c)) : Placed C B₁ c B₂ out := by
  intro b blk hb hne hblk
  refine hP b blk ?_ hne hblk
  have hout := (s₁.frame.out c rfl).1
  have hlen := s₁.grown
  omega

theorem Most.seq (h₁ : Most R F L B cur B₁ (some c)) (h₂ : Most S F L B₁ c B₂ out) : Most (R.seq S) F L B cur B₂ out where
  falls d hd := by
    calc atEnd F B cur * (R.falls * S.falls) = (atEnd F B cur * R.falls) * S.falls := (mul_assoc _ _ _).symm
      _ ≤ atEnd F B₁ c * S.falls := mul_le_mul_left (h₁.falls c rfl) _
      _ ≤ atEnd F B₂ d := h₂.falls d hd
  none_ hout := by
    show R.falls * S.falls = 0
    rw [h₂.none_ hout, mul_zero]
  leaves := by
    show atEnd F B cur * (R.leaves + R.falls * S.leaves) ≤ L
    rw [mul_add]
    refine add_le h₁.leaves ?_
    calc atEnd F B cur * (R.falls * S.leaves) = (atEnd F B cur * R.falls) * S.leaves := (mul_assoc _ _ _).symm
      _ ≤ atEnd F B₁ c * S.leaves := mul_le_mul_left (h₁.falls c rfl) _
      _ ≤ L := h₂.leaves

/-- From the end of an arm on to the merge. -/
theorem Most.arm {n m : Nat} {arm : Option Nat} (h : Most R F L B n B' arm) (hin : X ≤ atEnd F B n)
    (hout : ∀ d, arm = some d → atEnd F B' d ≤ F m) : X * R.falls ≤ F m ∧ X * R.leaves ≤ L := by
  constructor
  · cases arm with
    | none =>
      rw [h.none_ rfl, mul_zero]
      exact bot_le
    | some d =>
      calc X * R.falls ≤ atEnd F B n * R.falls := mul_le_mul_left hin _
        _ ≤ atEnd F B' d := h.falls d rfl
        _ ≤ F m := hout d rfl
  · exact le_trans (mul_le_mul_left hin _) h.leaves

/-- A branch, and how its arms stand in the whole graph. -/
structure Branched (C B : Builder) (cur : Nat) (B₁ B₂ : Builder) (t e : Option Nat) : Prop where
  fork : ∃ blk, C.blocks[cur]? = some blk ∧ blk.instrs = B.code cur ∧ blk.succ = [B.blocks.length, B.blocks.length + 1]
  first : Placed C (B.fork cur).pushScope B.blocks.length B₁ t
  second : Placed C B₁.popScope.pushScope (B.blocks.length + 1) B₂ e
  exits : ∀ c, t = some c ∨ e = some c → ∃ blk, C.blocks[c]? = some blk ∧ blk.instrs = B₂.code c ∧ blk.succ = [B₂.blocks.length]

theorem Placed.branch {t e : Option Nat} (hcur : cur < B.blocks.length) (hu : B.Unlinked cur)
    (s₁ : Spans (B.fork cur).pushScope B.blocks.length B₁ t) (s₂ : Spans B₁.popScope.pushScope (B.blocks.length + 1) B₂ e)
    (hP : Placed C B cur (B₂.popScope.merge t e).1 (B₂.popScope.merge t e).2) : Branched C B cur B₁ B₂ t e := by
  have A := s₁.arms hcur hu s₂
  have hlen₁ := A.len₁
  have hlen₂ := A.len₂
  have hout₁ := s₁.frame.out
  have hout₂ := s₂.frame.out
  simp only [Builder.pushScope_blocks, Builder.popScope_blocks, Builder.fork_length] at hout₁ hout₂
  have hmerge : ∀ b < B₂.blocks.length, (B₂.popScope.merge t e).2 ≠ some b := by
    intro b hb hm
    have := (merge_some (B := B₂.popScope) (fun d hd => (A.exit₁ d hd).1) (fun d hd => (A.exit₂ d hd).1) hm).1
    simp only [Builder.popScope_blocks] at this
    omega
  have hother : ∀ b < B₂.blocks.length, t ≠ some b → e ≠ some b →
      (B₂.popScope.merge t e).1.blocks[b]? = B₂.blocks[b]? := fun b hb ht he => Builder.merge_get (B := B₂.popScope) hb ht he
  have htop : ∀ b, t = some b → b = B.blocks.length ∨ (B.blocks.length + 2 ≤ b ∧ b < B₁.blocks.length) := by
    intro b hb
    have := hout₁ b hb
    omega
  have hetop : ∀ b, e = some b → b = B.blocks.length + 1 ∨ B₁.blocks.length ≤ b := by
    intro b hb
    have := hout₂ b hb
    omega
  refine ⟨?_, ?_, ?_, ?_⟩
  · have hblk : B.blocks[cur]? = some B.blocks[cur] := List.getElem?_eq_getElem hcur
    have hforked : (B₂.popScope.merge t e).1.blocks[cur]? =
        some { B.blocks[cur] with succ := [B.blocks.length, B.blocks.length + 1] } := by
      rw [hother cur (by omega) (fun h => by have := htop cur h; omega) (fun h => by have := hetop cur h; omega),
        s₂.frame.keep cur (by simp only [Builder.pushScope_blocks, Builder.popScope_blocks]; omega) (by omega)]
      refine (s₁.frame.keep cur (by simp; omega) (by omega)).trans ?_
      rw [Builder.pushScope_blocks, Builder.fork_get hcur, if_pos rfl, hblk]
      rfl
    exact ⟨_, hP cur _ (Or.inl rfl) (hmerge cur (by omega)) hforked, (Builder.code_of_get hblk).symm, rfl⟩
  · intro b blk hb ht hblk
    have hlt := Builder.lt_of_get hblk
    simp only [Builder.pushScope_blocks, Builder.fork_length] at hb
    have he : e ≠ some b := fun h => by
      have := hetop b h
      omega
    refine hP b blk (Or.inr (by omega)) (hmerge b (by omega)) ?_
    rw [hother b (by omega) ht he, s₂.frame.keep b hlt (by omega)]
    exact hblk
  · intro b blk hb he hblk
    have hlt := Builder.lt_of_get hblk
    simp only [Builder.pushScope_blocks, Builder.popScope_blocks] at hb
    have ht : t ≠ some b := fun h => by
      have := htop b h
      omega
    refine hP b blk (Or.inr (by omega)) (hmerge b hlt) ?_
    rw [hother b hlt ht he]
    exact hblk
  · intro c hc
    have hlt : c < B₂.blocks.length := hc.elim (fun h => (A.exit₁ c h).1) fun h => (A.exit₂ c h).1
    have hge : B.blocks.length ≤ c := by
      rcases hc with h | h
      · have := htop c h
        omega
      · have := hetop c h
        omega
    have hblk : B₂.blocks[c]? = some B₂.blocks[c] := List.getElem?_eq_getElem hlt
    have hlinked := ((merge_exit A.exit₁ A.exit₂).2 c hc).2 _ hblk
    exact ⟨_, hP c _ (Or.inr hge) (hmerge c hlt) hlinked, (Builder.code_of_get hblk).symm, rfl⟩

theorem Most.branch {t e : Option Nat} (hcur : cur < B.blocks.length) (hu : B.Unlinked cur)
    (s₁ : Spans (B.fork cur).pushScope B.blocks.length B₁ t) (s₂ : Spans B₁.popScope.pushScope (B.blocks.length + 1) B₂ e)
    (hF : Carries C.Flow F) (hb : Branched C B cur B₁ B₂ t e)
    (h₁ : Most R F L (B.fork cur).pushScope B.blocks.length B₁ t)
    (h₂ : Most S F L B₁.popScope.pushScope (B.blocks.length + 1) B₂ e) :
    Most (R.choice S) F L B cur (B₂.popScope.merge t e).1 (B₂.popScope.merge t e).2 := by
  have A := s₁.arms hcur hu s₂
  obtain ⟨l₀, hl₀⟩ := Builder.fork_get_new hcur (Or.inl rfl)
  obtain ⟨l₁, hl₁⟩ := A.else_
  obtain ⟨blk, hblk, hcode, hsucc⟩ := hb.fork
  have hin : ∀ d ∈ blk.succ, atEnd F B cur ≤ F d := by
    intro d hd
    unfold atEnd
    rw [← hcode]
    exact Carries.edge hF hblk hd
  have hexit : ∀ c, t = some c ∨ e = some c → F c * {B₂.code c} ≤ F B₂.blocks.length := by
    intro c hc
    obtain ⟨blk, hblk, hcode, hsucc⟩ := hb.exits c hc
    rw [← hcode]
    exact Carries.edge hF hblk (by rw [hsucc]; exact List.mem_singleton_self _)
  obtain ⟨hf₁, hv₁⟩ := h₁.arm (X := atEnd F B cur) (m := B₂.blocks.length)
    (by rw [atEnd_new (B := (B.fork cur).pushScope) hl₀]; exact hin _ (by simp [hsucc])) fun d hd => by
      unfold atEnd
      rw [← code_of_blocks (A.same d hd)]
      exact hexit d (Or.inl hd)
  obtain ⟨hf₂, hv₂⟩ := h₂.arm (X := atEnd F B cur) (m := B₂.blocks.length)
    (by rw [atEnd_new (B := B₁.popScope.pushScope) hl₁]; exact hin _ (by simp [hsucc])) fun d hd => hexit d (Or.inr hd)
  refine ⟨?_, ?_, ?_⟩
  · intro m hm
    obtain ⟨rfl, hget, -⟩ := merge_some (fun d hd => (A.exit₁ d hd).1) (fun d hd => (A.exit₂ d hd).1) hm
    rw [atEnd_new hget]
    show atEnd F B cur * (R.falls + S.falls) ≤ _
    rw [mul_add]
    exact add_le hf₁ hf₂
  · intro hnone
    have hte : t = none ∧ e = none := by
      unfold Builder.merge at hnone
      split at hnone
      next h => exact h
      next => cases hnone
    show R.falls + S.falls = 0
    rw [h₁.none_ hte.1, h₂.none_ hte.2, add_zero]
  · show atEnd F B cur * (R.leaves + S.leaves) ≤ L
    rw [mul_add]
    exact add_le hv₁ hv₂

/-- A loop, and how its test and its body stand in the whole graph. -/
structure Looped (C B : Builder) (cur : Nat) (B' : Builder) (out : Option Nat) : Prop where
  entry : ∃ blk, C.blocks[cur]? = some blk ∧ blk.instrs = B.code cur ∧ blk.succ = [B.blocks.length]
  test : ∃ blk, C.blocks[B.blocks.length]? = some blk ∧ blk.instrs = [] ∧
    blk.succ = [B.blocks.length + 1, B.blocks.length + 2]
  body : Placed C (B.openLoop cur).pushScope (B.blocks.length + 1) B' out
  back : ∀ d, out = some d → ∃ blk, C.blocks[d]? = some blk ∧ blk.instrs = B'.code d ∧ blk.succ = [B.blocks.length]

theorem Placed.loop (hcur : cur < B.blocks.length) (s : Spans (B.openLoop cur).pushScope (B.blocks.length + 1) B' out)
    (hP : Placed C B cur (B'.popScope.linkIf out [B.blocks.length]) (some (B.blocks.length + 2))) :
    Looped C B cur B' out := by
  have hlen := s.grown
  have hout := s.frame.out
  simp only [Builder.pushScope_blocks, Builder.openLoop_length] at hlen hout
  have hafter : ∀ b, b ≠ B.blocks.length + 2 → some (B.blocks.length + 2) ≠ some b := fun b hb h => hb (Option.some.inj h).symm
  have hother : ∀ b, out ≠ some b → (B'.popScope.linkIf out [B.blocks.length]).blocks[b]? = B'.blocks[b]? :=
    fun b hb => Builder.linkIf_get_of_ne hb
  have hold : ∀ b < B.blocks.length + 3, b ≠ B.blocks.length + 1 →
      (B'.popScope.linkIf out [B.blocks.length]).blocks[b]? = (B.openLoop cur).blocks[b]? := by
    intro b hb hne
    rw [hother b fun h => by have := hout b h; omega]
    exact s.frame.keep b (by simpa using hb) hne
  refine ⟨?_, ?_, ?_, ?_⟩
  · have hblk : B.blocks[cur]? = some B.blocks[cur] := List.getElem?_eq_getElem hcur
    have hlinked : (B'.popScope.linkIf out [B.blocks.length]).blocks[cur]? =
        some { B.blocks[cur] with succ := [B.blocks.length] } := by
      rw [hold cur (by omega) (by omega), Builder.openLoop_get hcur, if_pos rfl, hblk]
      rfl
    exact ⟨_, hP cur _ (Or.inl rfl) (hafter cur (by omega)) hlinked, (Builder.code_of_get hblk).symm, rfl⟩
  · have hheader := hold B.blocks.length (by omega) (by omega)
    rw [Builder.openLoop_header hcur] at hheader
    exact ⟨_, hP _ _ (Or.inr (le_refl _)) (hafter _ (by omega)) hheader, rfl, rfl⟩
  · intro b blk hb hne hblk
    simp only [Builder.pushScope_blocks, Builder.openLoop_length] at hb
    refine hP b blk (Or.inr (by omega)) (hafter b (by omega)) ?_
    rw [hother b hne]
    exact hblk
  · intro d hd
    have hlt := (hout d hd).2
    have hblk : B'.blocks[d]? = some B'.blocks[d] := List.getElem?_eq_getElem hlt
    have hlinked : (B'.popScope.linkIf out [B.blocks.length]).blocks[d]? =
        some { B'.blocks[d] with succ := [B.blocks.length] } := by
      rw [hd, Builder.linkIf, Builder.link_get, if_pos rfl, Builder.popScope_blocks, hblk]
      rfl
    have hrange := (hout d hd).1
    exact ⟨_, hP d _ (Or.inr (by omega)) (hafter d (by omega)) hlinked, (Builder.code_of_get hblk).symm, rfl⟩

theorem Most.loop (hcur : cur < B.blocks.length) (s : Spans (B.openLoop cur).pushScope (B.blocks.length + 1) B' out)
    (hF : Carries C.Flow F) (hb : Looped C B cur B' out)
    (h : Most R F L (B.openLoop cur).pushScope (B.blocks.length + 1) B' out) :
    Most R.loop F L B cur (B'.popScope.linkIf out [B.blocks.length]) (some (B.blocks.length + 2)) := by
  obtain ⟨l₁, hl₁⟩ := Builder.openLoop_get_new hcur (Or.inl rfl)
  obtain ⟨blk₀, hblk₀, hcode₀, hsucc₀⟩ := hb.entry
  obtain ⟨blk, hblk, hcode, hsucc⟩ := hb.test
  have hin : atEnd F B cur ≤ F B.blocks.length := by
    unfold atEnd
    rw [← hcode₀]
    exact Carries.edge hF hblk₀ (by rw [hsucc₀]; exact List.mem_singleton_self _)
  have htest : ∀ d ∈ blk.succ, F B.blocks.length ≤ F d := by
    intro d hd
    have := Carries.edge hF hblk hd
    rw [hcode] at this
    exact le_trans (le_of_eq (mul_one _).symm) this
  -- one round leads from the test back to the test
  obtain ⟨hround, hleave⟩ := h.arm (X := F B.blocks.length) (m := B.blocks.length)
    (by rw [atEnd_new (B := (B.openLoop cur).pushScope) hl₁]; exact htest _ (by simp [hsucc])) fun d hd => by
      obtain ⟨blk, hblk, hcode, hsucc⟩ := hb.back d hd
      unfold atEnd
      rw [← hcode]
      exact Carries.edge hF hblk (by rw [hsucc]; exact List.mem_singleton_self _)
  have hrounds : atEnd F B cur * R.falls∗ ≤ F B.blocks.length := mul_kstar_le hin hround
  refine ⟨?_, fun hnone => (by cases hnone), ?_⟩
  · intro c hc
    cases hc
    obtain ⟨l₂, -, hget⟩ := s.frame.after_loop hcur
    rw [atEnd_new hget]
    exact le_trans hrounds (htest _ (by simp [hsucc]))
  · calc atEnd F B cur * (R.falls∗ * R.leaves) = (atEnd F B cur * R.falls∗) * R.leaves := (mul_assoc _ _ _).symm
      _ ≤ F B.blocks.length * R.leaves := mul_le_mul_left hrounds _
      _ ≤ L := hleave

/-- Every closed family of the whole graph has all the ways through what was added. -/
theorem Charts.most (h : Charts B cur B' out R) (hP : Placed C B cur B' out) (hF : Carries C.Flow F) (hL : Exits F C L) :
    Most R F L B cur B' out := by
  induction h with
  | straight hcur _ ha _ =>
    refine ⟨fun c hc => ?_, fun hc => (by cases hc), ?_⟩
    · cases hc
      rw [atEnd_append ha hcur]
      exact le_refl _
    · show atEnd F _ _ * 0 ≤ L
      rw [mul_zero]
      exact bot_le
  | ret hcur _ ha => exact .ret hcur ha hP hL
  | seq s₁ s₂ _ _ ih₁ ih₂ => exact (ih₁ (hP.first s₂)).seq (ih₂ (hP.second s₁))
  | branch hcur hu s₁ s₂ _ _ ih₁ ih₂ =>
    have hb := hP.branch hcur hu s₁ s₂
    exact .branch hcur hu s₁ s₂ hF hb (ih₁ hb.first) (ih₂ hb.second)
  | loop hcur _ s _ ih =>
    have hb := hP.loop hcur s
    exact .loop hcur s hF hb (ih hb.body)
  | @same B B' B'' cur out R _ hb ih =>
    have h := ih fun b blk hr hne hblk => hP b blk hr hne (by rw [hb]; exact hblk)
    refine ⟨fun c hc => ?_, h.none_, h.leaves⟩
    have hcode : B''.code c = B'.code c := code_of_blocks (by rw [hb])
    unfold atEnd at h ⊢
    rw [hcode]
    exact h.falls c hc

end

end OwnNet.Lang
