/-
  OwnNet.Lang.Exits — every block of a lowered body is entered from a smaller one, and from
  every block the function can be left without touching a resource that went out of scope
  where the block was opened.

  Proved: `Lowered.back`, `Lowered.leaves`; `buildCfg_laidOut` collects what lowering gives
  for a whole function.
-/

import OwnNet.Lang.Scoping
import Mathlib.Data.List.Nodup

namespace OwnNet.Lang

/-- What lowering may do to the blocks there were: add instructions, and leave the linked ones alone. -/
def Extends (B B' : Builder) : Prop :=
  ∀ (b : Nat) (blk : Block), B.blocks[b]? = some blk →
    ∃ blk', B'.blocks[b]? = some blk' ∧ (∃ l, blk'.instrs = blk.instrs ++ l) ∧ (blk.succ ≠ [] → blk' = blk)

namespace Extends

theorem of_blocks {B B' : Builder} (h : B'.blocks = B.blocks) : Extends B B' :=
  fun b blk hblk => ⟨blk, by rw [h, hblk], ⟨[], by simp⟩, fun _ => rfl⟩

theorem popScope (B : Builder) : Extends B B.popScope := of_blocks rfl

theorem trans {B B₁ B₂ : Builder} (h₁ : Extends B B₁) (h₂ : Extends B₁ B₂) : Extends B B₂ := by
  intro b blk hblk
  obtain ⟨blk₁, hblk₁, ⟨l₁, hl₁⟩, hs₁⟩ := h₁ b blk hblk
  obtain ⟨blk₂, hblk₂, ⟨l₂, hl₂⟩, hs₂⟩ := h₂ b blk₁ hblk₁
  refine ⟨blk₂, hblk₂, ⟨l₁ ++ l₂, by rw [hl₂, hl₁, List.append_assoc]⟩, ?_⟩
  intro hne
  have h := hs₁ hne
  rw [hs₂ (h ▸ hne), h]

theorem link {B : Builder} {c : Nat} {succ : List Nat} (h : ∀ blk, B.blocks[c]? = some blk → blk.succ = []) :
    Extends B (B.link c succ) := by
  intro b blk hblk
  by_cases hb : b = c
  · subst hb
    refine ⟨{ blk with succ := succ }, by rw [Builder.link_get, if_pos rfl, hblk]; rfl, ⟨[], by simp⟩, ?_⟩
    exact fun hne => absurd (h blk hblk) hne
  · exact ⟨blk, by rw [Builder.link_get, if_neg hb, hblk], ⟨[], by simp⟩, fun _ => rfl⟩

theorem linkIf {B : Builder} {c : Option Nat} {succ : List Nat}
    (h : ∀ d, c = some d → ∀ blk, B.blocks[d]? = some blk → blk.succ = []) : Extends B (B.linkIf c succ) := by
  cases c with
  | none => exact of_blocks rfl
  | some d => exact link (h d rfl)

theorem emit {B : Builder} {c : Nat} {ins : Instr} (h : ∀ blk, B.blocks[c]? = some blk → blk.succ = []) :
    Extends B (B.emit c ins) := by
  intro b blk hblk
  by_cases hb : b = c
  · subst hb
    refine ⟨{ blk with instrs := blk.instrs ++ [ins] }, by rw [Builder.emit_get, if_pos rfl, hblk]; rfl, ⟨[ins], rfl⟩, ?_⟩
    exact fun hne => absurd (h blk hblk) hne
  · exact ⟨blk, by rw [Builder.emit_get, if_neg hb, hblk], ⟨[], by simp⟩, fun _ => rfl⟩

end Extends

/-- A block nothing leaves yet. -/
def Builder.Unlinked (B : Builder) (c : Nat) : Prop := ∀ blk, B.blocks[c]? = some blk → blk.succ = []

theorem unlinked_new {B : Builder} {c : Nat} {l : String} (h : B.blocks[c]? = some { label := l }) : B.Unlinked c := by
  intro blk hblk
  rw [h] at hblk
  cases hblk
  rfl

theorem Builder.Unlinked.emit {B : Builder} {c : Nat} (h : B.Unlinked c) (d : Nat) (ins : Instr) :
    (B.emit d ins).Unlinked c := by
  intro blk hblk
  rw [Builder.emit_get] at hblk
  split at hblk
  next hcd =>
    obtain ⟨blk₀, hblk₀, rfl⟩ := Option.map_eq_some_iff.mp hblk
    exact h blk₀ (hcd ▸ hblk₀)
  next => exact h blk hblk

theorem Builder.Unlinked.of_blocks {B B' : Builder} {c : Nat} (h : B.Unlinked c) (hb : B'.blocks = B.blocks) :
    B'.Unlinked c := fun blk hblk => h blk (hb ▸ hblk)

/-- The arms' new blocks in a branch, and the body's in a loop, while they are lowered. -/
theorem fork_unlinked {B : Builder} {cur b : Nat} (hcur : cur < B.blocks.length)
    (hb : b = B.blocks.length ∨ b = B.blocks.length + 1) : (B.fork cur).Unlinked b := by
  obtain ⟨l, hl⟩ := Builder.fork_get_new hcur hb
  exact unlinked_new hl

theorem openLoop_unlinked {B : Builder} {cur b : Nat} (hcur : cur < B.blocks.length)
    (hb : b = B.blocks.length + 1 ∨ b = B.blocks.length + 2) : (B.openLoop cur).Unlinked b := by
  obtain ⟨l, hl⟩ := Builder.openLoop_get_new hcur hb
  exact unlinked_new hl

/-- Where a merge goes on, and what its arms' exits lead to. -/
theorem merge_some {B : Builder} {t e : Option Nat} (ht : ∀ c, t = some c → c < B.blocks.length)
    (he : ∀ c, e = some c → c < B.blocks.length) {m : Nat} (hm : (B.merge t e).2 = some m) :
    m = B.blocks.length ∧ (B.merge t e).1.blocks[m]? = some { label := "merge" } ∧
      (B.merge t e).1.blocks.length = B.blocks.length + 1 := by
  unfold Builder.merge at hm ⊢
  split at hm
  · cases hm
  next hte =>
    cases hm
    rw [if_neg hte]
    refine ⟨rfl, ?_, by simp⟩
    have ht' : t ≠ some B.blocks.length := fun h => absurd (ht _ h) (lt_irrefl _)
    have he' : e ≠ some B.blocks.length := fun h => absurd (he _ h) (lt_irrefl _)
    rw [Builder.linkIf_get_of_ne he', Builder.linkIf_get_of_ne ht', Builder.newBlock_get, if_pos rfl]

/-- Lowering ends in a block nothing leaves yet. -/
theorem Lowered.unlinked {G : Layout} {B B' : Builder} {cur : Nat} {out : Option Nat} (h : Lowered G B cur B' out)
    (hcur : cur < B.blocks.length) (hu : B.Unlinked cur) : ∀ c, out = some c → B'.Unlinked c := by
  induction h with
  | @stay B B' cur hl =>
    intro c hc
    cases hc
    cases hl with
    | report ds => exact hu
    | bare mk kind => exact hu.of_blocks (by simp)
    | define mk ins =>
      have : (B.declare mk).1.Unlinked cur := hu.of_blocks (by simp)
      exact this.emit cur ins
    | emit ins => exact hu.emit cur ins
  | seq h₁ _ ih₁ ih₂ =>
    have hc := ((h₁.frame hcur).out _ rfl).2
    exact ih₂ hc (ih₁ hcur hu _ rfl)
  | ret _ => exact fun c hc => by cases hc
  | @borrow B B' cur mk owner isMut line out _ _ _ _ _ h ih =>
    have hb : (B.pushScope.declare mk).1.Unlinked cur := hu.of_blocks (by simp)
    intro c hc
    have := ih (by simpa using hcur) (hb.emit cur _) c hc
    subst hc
    exact (show B'.popScope.Unlinked c from this.of_blocks rfl).emit c _
  | @branch B B₁ B₂ cur t e _ _ h₁ h₂ _ ih₁ ih₂ =>
    have f₁ := h₁.frame (by simp)
    have hm₁ := h₁.mono.1
    simp only [Builder.fork_length, Builder.pushScope_blocks] at hm₁
    have f₂ := h₂.frame (by simp only [Builder.pushScope_blocks, Builder.popScope_blocks]; omega)
    have hm₂ := h₂.mono.1
    simp only [Builder.pushScope_blocks, Builder.popScope_blocks] at hm₂
    intro c hc
    have hm := merge_some (B := B₂.popScope) (fun d hd => lt_of_lt_of_le (f₁.out d hd).2 hm₂)
      (fun d hd => (f₂.out d hd).2) hc
    exact unlinked_new hm.2.1
  | @loop B B' cur out _ _ _ _ h ih =>
    intro c hc
    cases hc
    obtain ⟨l, -, hl⟩ := (h.frame (by simp)).after_loop hcur
    exact unlinked_new hl

theorem Frame.extends {B B' : Builder} {cur : Nat} {out : Option Nat} (h : Frame B cur B' out) (hu : B.Unlinked cur) :
    Extends B B' := by
  intro b blk hblk
  by_cases hb : b = cur
  · subst hb
    obtain ⟨l, succ, hl⟩ := h.grow blk hblk
    exact ⟨_, hl, ⟨l, rfl⟩, fun hne => absurd (hu blk hblk) hne⟩
  · exact ⟨blk, by rw [h.keep b (Builder.lt_of_get hblk) hb, hblk], ⟨[], by simp⟩, fun _ => rfl⟩

/-! ## Entered from below -/

def Builder.Entered (B : Builder) (b : Nat) : Prop := ∃ p < b, ∃ blk, B.blocks[p]? = some blk ∧ b ∈ blk.succ

def Back (B : Builder) : Prop := ∀ b, 0 < b → b < B.blocks.length → B.Entered b

theorem Builder.Entered.extend {B B' : Builder} {b : Nat} (h : B.Entered b) (hx : Extends B B') : B'.Entered b := by
  obtain ⟨p, hp, blk, hblk, hb⟩ := h
  obtain ⟨blk', hblk', _, hs⟩ := hx p blk hblk
  have : blk' = blk := hs (List.ne_nil_of_mem hb)
  exact ⟨p, hp, blk', hblk', this ▸ hb⟩

theorem Back.extend {B B' : Builder} (h : Back B) (hx : Extends B B')
    (hnew : ∀ b, B.blocks.length ≤ b → b < B'.blocks.length → B'.Entered b) : Back B' := by
  intro b hpos hb
  by_cases hlt : b < B.blocks.length
  · exact (h b hpos hlt).extend hx
  · exact hnew b (not_lt.mp hlt) hb

theorem Back.same {B B' : Builder} (h : Back B) (hx : Extends B B') (hlen : B'.blocks.length = B.blocks.length) :
    Back B' := h.extend hx fun b hge hlt => by omega

theorem Extends.fork {B : Builder} {cur : Nat} (hu : B.Unlinked cur) (hcur : cur < B.blocks.length) :
    Extends B (B.fork cur) := by
  intro b blk hblk
  have hb := Builder.lt_of_get hblk
  rw [Builder.fork_get hb]
  by_cases hc : b = cur
  · subst hc
    rw [if_pos rfl, hblk]
    exact ⟨_, rfl, ⟨[], by simp⟩, fun hne => absurd (hu blk hblk) hne⟩
  · rw [if_neg hc, hblk]
    exact ⟨_, rfl, ⟨[], by simp⟩, fun _ => rfl⟩

theorem Extends.openLoop {B : Builder} {cur : Nat} (hu : B.Unlinked cur) : Extends B (B.openLoop cur) := by
  intro b blk hblk
  have hb := Builder.lt_of_get hblk
  rw [Builder.openLoop_get hb]
  by_cases hc : b = cur
  · subst hc
    rw [if_pos rfl, hblk]
    exact ⟨_, rfl, ⟨[], by simp⟩, fun hne => absurd (hu blk hblk) hne⟩
  · rw [if_neg hc, hblk]
    exact ⟨_, rfl, ⟨[], by simp⟩, fun _ => rfl⟩

/-- An arm's exit is linked to the merge, and nothing else changes. -/
theorem merge_exit {B : Builder} {t e : Option Nat} (ht : ∀ c, t = some c → c < B.blocks.length ∧ B.Unlinked c)
    (he : ∀ c, e = some c → c < B.blocks.length ∧ B.Unlinked c) :
    Extends B (B.merge t e).1 ∧ ∀ c, t = some c ∨ e = some c → (B.merge t e).2 = some B.blocks.length ∧
      ∀ blk, B.blocks[c]? = some blk →
        (B.merge t e).1.blocks[c]? = some { blk with succ := [B.blocks.length] } := by
  unfold Builder.merge
  split
  next hte =>
    refine ⟨Extends.of_blocks rfl, ?_⟩
    intro c hc
    rw [hte.1, hte.2] at hc
    rcases hc with hc | hc <;> cases hc
  next hte =>
    have hkeep : ∀ c, c < B.blocks.length → (B.newBlock "merge").blocks[c]? = B.blocks[c]? := by
      intro c hc
      rw [Builder.newBlock_get, if_neg (ne_of_lt hc)]
    have hlink : ∀ c, c < B.blocks.length →
        (((B.newBlock "merge").linkIf t [B.blocks.length]).linkIf e [B.blocks.length]).blocks[c]? =
          if t = some c ∨ e = some c then (B.blocks[c]?).map fun blk => { blk with succ := [B.blocks.length] }
          else B.blocks[c]? := by
      intro c hc
      by_cases hec : e = some c
      · subst hec
        rw [Builder.linkIf, Builder.link_get, if_pos rfl, if_pos (Or.inr rfl)]
        by_cases htc : t = some c
        · subst htc
          rw [Builder.linkIf, Builder.link_get, if_pos rfl, hkeep c hc]
          cases B.blocks[c]? <;> rfl
        · rw [Builder.linkIf_get_of_ne htc, hkeep c hc]
      · rw [Builder.linkIf_get_of_ne hec]
        by_cases htc : t = some c
        · subst htc
          rw [Builder.linkIf, Builder.link_get, if_pos rfl, if_pos (Or.inl rfl), hkeep c hc]
        · rw [Builder.linkIf_get_of_ne htc, hkeep c hc, if_neg (by simp [htc, hec])]
    constructor
    · intro b blk hblk
      have hb := Builder.lt_of_get hblk
      rw [hlink b hb]
      by_cases hor : t = some b ∨ e = some b
      · rw [if_pos hor, hblk]
        have hu : B.Unlinked b := by
          rcases hor with h | h
          · exact (ht b h).2
          · exact (he b h).2
        exact ⟨_, rfl, ⟨[], by simp⟩, fun hne => absurd (hu blk hblk) hne⟩
      · rw [if_neg hor, hblk]
        exact ⟨_, rfl, ⟨[], by simp⟩, fun _ => rfl⟩
    · intro c hc
      refine ⟨rfl, ?_⟩
      intro blk hblk
      rw [hlink c (Builder.lt_of_get hblk), if_pos hc, hblk]
      rfl

/-- The two arms of a branch, lowered one after the other. -/
structure Arms (B : Builder) (cur : Nat) (B₁ B₂ : Builder) (t e : Option Nat) : Prop where
  len₁ : B.blocks.length + 2 ≤ B₁.blocks.length
  len₂ : B₁.blocks.length ≤ B₂.blocks.length
  ext₀ : Extends B (B.fork cur)
  ext₁ : Extends (B.fork cur) B₁
  ext₂ : Extends B₁ B₂
  else_ : ∃ l, B₁.blocks[B.blocks.length + 1]? = some { label := l }
  exit₁ : ∀ c, t = some c → c < B₂.popScope.blocks.length ∧ B₂.popScope.Unlinked c
  exit₂ : ∀ c, e = some c → c < B₂.popScope.blocks.length ∧ B₂.popScope.Unlinked c
  same : ∀ c, t = some c → B₂.blocks[c]? = B₁.blocks[c]?

/-- Lowering from a block nothing leaves yet to another, or to none. -/
structure Spans (B : Builder) (cur : Nat) (B' : Builder) (out : Option Nat) : Prop where
  here : cur < B.blocks.length
  unlinked : B.Unlinked cur
  frame : Frame B cur B' out
  grown : B.blocks.length ≤ B'.blocks.length
  exit : ∀ c, out = some c → B'.Unlinked c

theorem Lowered.spans {G : Layout} {B B' : Builder} {cur : Nat} {out : Option Nat} (h : Lowered G B cur B' out)
    (hcur : cur < B.blocks.length) (hu : B.Unlinked cur) : Spans B cur B' out :=
  ⟨hcur, hu, h.frame hcur, h.mono.1, h.unlinked hcur hu⟩

theorem Spans.trans {B B₁ B₂ : Builder} {cur c : Nat} {out : Option Nat} (s₁ : Spans B cur B₁ (some c))
    (s₂ : Spans B₁ c B₂ out) : Spans B cur B₂ out :=
  ⟨s₁.here, s₁.unlinked, s₁.frame.trans s₁.here s₁.grown s₂.frame, le_trans s₁.grown s₂.grown, s₂.exit⟩

/-- The second arm's block is still as it was made. -/
theorem Spans.else_ {B B₁ : Builder} {cur : Nat} {t : Option Nat} (hcur : cur < B.blocks.length)
    (s₁ : Spans (B.fork cur).pushScope B.blocks.length B₁ t) :
    ∃ l, B₁.blocks[B.blocks.length + 1]? = some { label := l } := by
  obtain ⟨l, hl⟩ := Builder.fork_get_new hcur (Or.inr rfl)
  refine ⟨l, ?_⟩
  rw [s₁.frame.keep _ (by simp) (by omega)]
  exact hl

theorem Spans.arms {B B₁ B₂ : Builder} {cur : Nat} {t e : Option Nat} (hcur : cur < B.blocks.length)
    (hu : B.Unlinked cur) (s₁ : Spans (B.fork cur).pushScope B.blocks.length B₁ t)
    (s₂ : Spans B₁.popScope.pushScope (B.blocks.length + 1) B₂ e) : Arms B cur B₁ B₂ t e := by
  have hlen₁ := s₁.grown
  have hlen₂ := s₂.grown
  simp only [Builder.fork_length, Builder.pushScope_blocks, Builder.popScope_blocks] at hlen₁ hlen₂
  have hsame : ∀ c, t = some c → B₂.blocks[c]? = B₁.blocks[c]? := by
    intro c hc
    have hor := (s₁.frame.out c hc).1
    simp only [Builder.pushScope_blocks, Builder.fork_length] at hor
    exact s₂.frame.keep c (s₁.frame.out c hc).2 (by omega)
  refine ⟨hlen₁, hlen₂, Extends.fork hu hcur, s₁.frame.extends s₁.unlinked, s₂.frame.extends s₂.unlinked, s₁.else_ hcur, ?_, ?_,
    hsame⟩
  · intro c hc
    refine ⟨lt_of_lt_of_le (s₁.frame.out c hc).2 hlen₂, ?_⟩
    intro blk hblk
    rw [Builder.popScope_blocks, hsame c hc] at hblk
    exact s₁.exit c hc blk hblk
  · exact fun c hc => ⟨(s₂.frame.out c hc).2, s₂.exit c hc⟩

theorem arms {G : Layout} {B B₁ B₂ : Builder} {cur : Nat} {t e : Option Nat} (hcur : cur < B.blocks.length)
    (hu : B.Unlinked cur) (h₁ : Lowered G (B.fork cur).pushScope B.blocks.length B₁ t)
    (h₂ : Lowered G B₁.popScope.pushScope (B.blocks.length + 1) B₂ e) : Arms B cur B₁ B₂ t e := by
  have s₁ := h₁.spans (by simp) (fork_unlinked hcur (Or.inl rfl))
  obtain ⟨l, hl⟩ := s₁.else_ hcur
  exact Spans.arms hcur hu s₁ (h₂.spans (Builder.lt_of_get (B := B₁) hl) (unlinked_new hl))

theorem Lowered.back {G : Layout} {B B' : Builder} {cur : Nat} {out : Option Nat} (h : Lowered G B cur B' out)
    (hcur : cur < B.blocks.length) (hu : B.Unlinked cur) (hb : Back B) : Back B' := by
  have hx := (h.frame hcur).extends hu
  induction h with
  | stay hl => exact hb.same hx hl.mono.1
  | seq h₁ h₂ ih₁ ih₂ =>
    have hc := ((h₁.frame hcur).out _ rfl).2
    have hu₁ := h₁.unlinked hcur hu _ rfl
    exact ih₂ hc hu₁ (ih₁ hcur hu hb ((h₁.frame hcur).extends hu)) ((h₂.frame hc).extends hu₁)
  | ret _ => exact hb.same hx (by simp)
  | @borrow B B' cur mk owner isMut line out _ _ _ _ _ h ih =>
    have hu₁ : (B.pushScope.declare mk).1.Unlinked cur := hu.of_blocks (by simp)
    have hb₁ : Back (B.pushScope.declare mk).1 := hb.same (Extends.of_blocks (by simp)) (by simp)
    have hlen : cur < ((B.pushScope.declare mk).1.emit cur (.borrowStart owner (mk B.nextSym) isMut line)).blocks.length := by
      simpa using hcur
    have hB' := ih hlen (hu₁.emit cur _) (hb₁.same (Extends.emit hu₁) (by simp)) ((h.frame hlen).extends (hu₁.emit cur _))
    have hclose : Extends B' (B'.closeBorrow owner (mk B.nextSym) isMut line out) := by
      have hout := h.unlinked hlen (hu₁.emit cur _)
      cases out with
      | none => exact Extends.of_blocks rfl
      | some c => exact (Extends.popScope B').trans (Extends.emit (hout c rfl))
    exact hB'.same hclose (by simp)
  | @branch B B₁ B₂ cur t e _ _ h₁ h₂ _ ih₁ ih₂ =>
    have A := arms hcur hu h₁ h₂
    have hfork : Back (B.fork cur) := by
      refine hb.extend A.ext₀ ?_
      intro b hge hlt
      obtain ⟨blk, hblk⟩ : ∃ blk, B.blocks[cur]? = some blk := ⟨_, List.getElem?_eq_getElem hcur⟩
      refine ⟨cur, by omega, { blk with succ := [B.blocks.length, B.blocks.length + 1] }, ?_, ?_⟩
      · rw [Builder.fork_get hcur, if_pos rfl, hblk]
        rfl
      · simp only [Builder.fork_length] at hlt
        simp only [List.mem_cons, List.not_mem_nil, or_false]
        omega
    have hB₁ : Back B₁ :=
      ih₁ (by simp) (fork_unlinked hcur (Or.inl rfl)) (hfork.same (Extends.of_blocks rfl) rfl) A.ext₁
    obtain ⟨l, hl⟩ := A.else_
    have hB₂ : Back B₂ := ih₂ (Builder.lt_of_get (B := B₁) hl) (unlinked_new hl) (hB₁.same (Extends.of_blocks rfl) rfl) A.ext₂
    obtain ⟨hxm, hto⟩ := merge_exit A.exit₁ A.exit₂
    refine (hB₂.same (Extends.popScope B₂) rfl).extend hxm ?_
    intro b hge hlt
    have harm : ∃ c, t = some c ∨ e = some c := by
      by_contra hno
      have ht : t = none := by
        cases t with
        | none => rfl
        | some c => exact absurd ⟨c, Or.inl rfl⟩ hno
      have he : e = none := by
        cases e with
        | none => rfl
        | some c => exact absurd ⟨c, Or.inr rfl⟩ hno
      simp only [Builder.merge, ht, he, and_self, if_true] at hlt
      omega
    obtain ⟨c, hc⟩ := harm
    have hclt : c < B₂.popScope.blocks.length := by
      rcases hc with hc | hc
      · exact (A.exit₁ c hc).1
      · exact (A.exit₂ c hc).1
    obtain ⟨hsome, hlink⟩ := hto c hc
    have hm := merge_some (fun d hd => (A.exit₁ d hd).1) (fun d hd => (A.exit₂ d hd).1) hsome
    have hbm : b = B₂.popScope.blocks.length := by omega
    subst hbm
    exact ⟨c, hclt, _, hlink _ (List.getElem?_eq_getElem hclt), List.mem_singleton.mpr rfl⟩
  | @loop B B' cur out _ _ _ _ h ih =>
    have hu₁ : (B.openLoop cur).pushScope.Unlinked (B.blocks.length + 1) := openLoop_unlinked hcur (Or.inl rfl)
    have hopen : Back (B.openLoop cur) := by
      refine hb.extend (Extends.openLoop hu) ?_
      intro b hge hlt
      simp only [Builder.openLoop_length] at hlt
      by_cases hhead : b = B.blocks.length
      · obtain ⟨blk, hblk⟩ : ∃ blk, B.blocks[cur]? = some blk := ⟨_, List.getElem?_eq_getElem hcur⟩
        refine ⟨cur, by omega, { blk with succ := [B.blocks.length] }, ?_, by simp [hhead]⟩
        rw [Builder.openLoop_get hcur, if_pos rfl, hblk]
        rfl
      · refine ⟨B.blocks.length, by omega, _, Builder.openLoop_header hcur, ?_⟩
        simp only [List.mem_cons, List.not_mem_nil, or_false]
        omega
    have hlen : B.blocks.length + 1 < (B.openLoop cur).pushScope.blocks.length := by simp
    have hB' : Back B' := ih hlen hu₁ (hopen.same (Extends.of_blocks rfl) rfl) ((h.frame hlen).extends hu₁)
    have hxl : Extends B'.popScope (B'.popScope.linkIf out [B.blocks.length]) :=
      Extends.linkIf fun d hd => h.unlinked hlen hu₁ d hd
    exact (hB'.same (Extends.popScope B') rfl).same hxl (by simp)

/-! ## A way out -/

/-- A walk from instruction `i` of block `b` to instruction `i'` of block `b'`, over instructions in `P`. -/
inductive Leads (blocks : List Block) (P : Instr → Prop) : Nat → Nat → Nat → Nat → Prop
  | refl (b i : Nat) : Leads blocks P b i b i
  | instr {b i b' i' : Nat} {blk : Block} {ins : Instr} : blocks[b]? = some blk → blk.instrs[i]? = some ins → P ins →
      Leads blocks P b (i + 1) b' i' → Leads blocks P b i b' i'
  | edge {b c b' i' : Nat} {blk : Block} : blocks[b]? = some blk → c ∈ blk.succ →
      Leads blocks P c 0 b' i' → Leads blocks P b blk.instrs.length b' i'

namespace Leads

theorem trans {blocks : List Block} {P : Instr → Prop} {b i c j d k : Nat} (h₁ : Leads blocks P b i c j)
    (h₂ : Leads blocks P c j d k) : Leads blocks P b i d k := by
  induction h₁ with
  | refl _ _ => exact h₂
  | instr hb hi hP _ ih => exact .instr hb hi hP (ih h₂)
  | edge hb hc _ ih => exact .edge hb hc (ih h₂)

theorem weaken {blocks : List Block} {P Q : Instr → Prop} (hPQ : ∀ ins, P ins → Q ins) {b i c j : Nat}
    (h : Leads blocks P b i c j) : Leads blocks Q b i c j := by
  induction h with
  | refl _ _ => exact .refl _ _
  | instr hb hi hP _ ih => exact .instr hb hi (hPQ _ hP) ih
  | edge hb hc _ ih => exact .edge hb hc ih

theorem extend {B B' : Builder} (hx : Extends B B') {P : Instr → Prop} {b i c j : Nat} (h : Leads B.blocks P b i c j) :
    Leads B'.blocks P b i c j := by
  induction h with
  | refl _ _ => exact .refl _ _
  | @instr b i _ _ blk ins hb hi hP _ ih =>
    obtain ⟨blk', hb', ⟨l, hl⟩, _⟩ := hx _ _ hb
    have hlt := (List.getElem?_eq_some_iff.mp hi).1
    exact .instr hb' (by rw [hl, List.getElem?_append_left hlt, hi]) hP ih
  | @edge b c _ _ blk hb hc _ ih =>
    obtain ⟨blk', hb', _, hs⟩ := hx _ _ hb
    have heq : blk' = blk := hs (List.ne_nil_of_mem hc)
    rw [heq] at hb'
    exact .edge hb' hc ih

end Leads

/-- From there control can return, or reach the end of the block lowering goes on in. -/
def Leaves (B : Builder) (P : Instr → Prop) (b i : Nat) (out : Option Nat) : Prop :=
  (∃ b' i' blk ins, Leads B.blocks P b i b' i' ∧ B.blocks[b']? = some blk ∧ blk.instrs[i']? = some ins ∧
    ins.isReturn ∧ P ins) ∨
  ∃ c blk, out = some c ∧ B.blocks[c]? = some blk ∧ Leads B.blocks P b i c blk.instrs.length

namespace Leaves

theorem weaken {B : Builder} {P Q : Instr → Prop} (hPQ : ∀ ins, P ins → Q ins) {b i : Nat} {out : Option Nat}
    (h : Leaves B P b i out) : Leaves B Q b i out := by
  rcases h with ⟨b', i', blk, ins, hl, hb, hi, hr, hP⟩ | ⟨c, blk, ho, hb, hl⟩
  · exact Or.inl ⟨b', i', blk, ins, hl.weaken hPQ, hb, hi, hr, hPQ _ hP⟩
  · exact Or.inr ⟨c, blk, ho, hb, hl.weaken hPQ⟩

/-- A way to the end of a block, and on from there. -/
theorem seq {B B' : Builder} (hx : Extends B B') {P : Instr → Prop} {b i : Nat} {mid out : Option Nat}
    (h : Leaves B P b i mid)
    (hon : ∀ c blk, mid = some c → B.blocks[c]? = some blk → Leaves B' P c blk.instrs.length out) :
    Leaves B' P b i out := by
  rcases h with ⟨b', i', blk, ins, hl, hb, hi, hr, hP⟩ | ⟨c, blk, ho, hb, hl⟩
  · obtain ⟨blk', hb', ⟨l, hl'⟩, _⟩ := hx _ _ hb
    have hlt := (List.getElem?_eq_some_iff.mp hi).1
    exact Or.inl ⟨b', i', blk', ins, hl.extend hx, hb', by rw [hl', List.getElem?_append_left hlt, hi], hr, hP⟩
  · rcases hon c blk ho hb with ⟨b', i', blk', ins, hl', hb', hi', hr, hP⟩ | ⟨d, blk', hd, hb', hl'⟩
    · exact Or.inl ⟨b', i', blk', ins, (hl.extend hx).trans hl', hb', hi', hr, hP⟩
    · exact Or.inr ⟨d, blk', hd, hb', (hl.extend hx).trans hl'⟩

theorem here {B : Builder} {P : Instr → Prop} {c : Nat} {blk : Block} (hb : B.blocks[c]? = some blk) :
    Leaves B P c blk.instrs.length (some c) := Or.inr ⟨c, blk, rfl, hb, .refl _ _⟩

theorem step {B : Builder} {P : Instr → Prop} {b i : Nat} {blk : Block} {ins : Instr} {out : Option Nat}
    (hb : B.blocks[b]? = some blk) (hi : blk.instrs[i]? = some ins) (hP : P ins) (h : Leaves B P b (i + 1) out) :
    Leaves B P b i out := by
  rcases h with ⟨b', i', blk', ins', hl, hb', hi', hr, hP'⟩ | ⟨c, blk', hc, hb', hl⟩
  · exact Or.inl ⟨b', i', blk', ins', .instr hb hi hP hl, hb', hi', hr, hP'⟩
  · exact Or.inr ⟨c, blk', hc, hb', .instr hb hi hP hl⟩

theorem edge {B : Builder} {P : Instr → Prop} {b c i : Nat} {blk : Block} {out : Option Nat}
    (hb : B.blocks[b]? = some blk) (hi : i = blk.instrs.length) (hc : c ∈ blk.succ) (h : Leaves B P c 0 out) :
    Leaves B P b i out := by
  subst hi
  rcases h with ⟨b', i', blk', ins', hl, hb', hi', hr, hP'⟩ | ⟨d, blk', hd, hb', hl⟩
  · exact Or.inl ⟨b', i', blk', ins', .edge hb hc hl, hb', hi', hr, hP'⟩
  · exact Or.inr ⟨d, blk', hd, hb', .edge hb hc hl⟩

end Leaves

/-- The resources an instruction acts on or starts are those of symbols in `S`, or of symbols from `n` on. -/
def Within (G : Layout) (S : List Symbol) (n : Nat) (ins : Instr) : Prop :=
  ∀ s, s ∈ ins.touches ∨ s ∈ ins.starts → s.kind = .owned → (∃ k ∈ S, k.id = G.rid s.id) ∨ n ≤ G.rid s.id

theorem Within.weaken {G : Layout} {S T : List Symbol} {m n : Nat} (hS : ∀ k ∈ S, k ∈ T ∨ n ≤ k.id) (hmn : n ≤ m)
    {ins : Instr} (h : Within G S m ins) : Within G T n ins := by
  intro s hs hk
  rcases h s hs hk with ⟨k, hkS, hkr⟩ | hge
  · rcases hS k hkS with hkT | hkn
    · exact Or.inl ⟨k, hkT, hkr⟩
    · exact Or.inr (hkr ▸ hkn)
  · exact Or.inr (le_trans hmn hge)

/-- What lowering gives of the ways out: from where it starts, and from each block it opens. -/
structure WaysOut (G : Layout) (B : Builder) (cur i : Nat) (B' : Builder) (out : Option Nat) : Prop where
  start : Leaves B' (Within G B.syms B.nextSym) cur i out
  opened : ∀ b, B.blocks.length ≤ b → b < B'.blocks.length → Leaves B' (Within G (G.scope b) (G.bound b)) b 0 out
  syms : ∀ b, B.blocks.length ≤ b → b < B'.blocks.length → ∀ s ∈ B'.syms, s ∈ G.scope b ∨ G.bound b ≤ s.id
  bound : ∀ b, B.blocks.length ≤ b → b < B'.blocks.length → G.bound b ≤ B'.nextSym

theorem Tidy.within {G : Layout} {B : Builder} (hG : Tidy G B) {ins : Instr} (ht : ∀ s ∈ ins.touches, s ∈ B.syms)
    (hs : ∀ s ∈ ins.starts, s.kind = .owned → (∃ k ∈ B.syms, k.id = G.rid s.id) ∨ B.nextSym ≤ G.rid s.id) :
    Within G B.syms B.nextSym ins := by
  intro s hmem hk
  rcases hmem with hmem | hmem
  · obtain ⟨k, hkS, hkr, _⟩ := hG.closed_syms s (ht s hmem) hk
    exact Or.inl ⟨k, hkS, hkr⟩
  · exact hs s hmem hk

/-- From the end of a block to behind the instruction added to it. -/
theorem Leaves.last {B : Builder} {P : Instr → Prop} {c : Nat} {blk : Block} {x : Instr}
    (hlast : B.blocks[c]? = some { blk with instrs := blk.instrs ++ [x] }) (hP : P x) :
    Leaves B P c blk.instrs.length (some c) := by
  refine Leaves.step hlast (by simp) hP ?_
  have := Leaves.here (P := P) hlast
  simpa using this

theorem Local.waysOut {G : Layout} {cur : Nat} {B B' : Builder} (h : Local G cur B B') (hG : Tidy G B) {blk : Block}
    (hb : B.blocks[cur]? = some blk) : WaysOut G B cur blk.instrs.length B' (some cur) := by
  have hlen := h.mono.1
  refine ⟨?_, fun b h₁ h₂ => by omega, fun b h₁ h₂ => by omega, fun b h₁ h₂ => by omega⟩
  have hone : ∀ {B₁ : Builder} {ins : Instr}, B₁.blocks = B.blocks → Within G B.syms B.nextSym ins →
      Leaves (B₁.emit cur ins) (Within G B.syms B.nextSym) cur blk.instrs.length (some cur) := by
    intro B₁ ins hB₁ hP
    refine Leaves.last (x := ins) ?_ hP
    rw [Builder.emit_get, if_pos rfl, hB₁, hb]
    rfl
  cases h with
  | report ds => exact Leaves.here hb
  | bare mk kind => exact Leaves.here (by rw [Builder.declare_blocks]; exact hb)
  | define mk ins hd hs he hr ht hk hborn hrids =>
    refine hone (by simp) (hG.within (fun s hs' => (ht s hs').1) ?_)
    intro s hs' _
    rw [hs, List.mem_singleton] at hs'
    rw [hs', hd.1]
    rcases define_rid hG hd hs ht hk hrids with hr' | ⟨k, hkm, hkr, _⟩
    · exact Or.inr (le_of_eq hr'.symm)
    · exact Or.inl ⟨k, hkm, hkr⟩
  | emit ins hs he hr ht hk =>
    refine hone rfl (hG.within ht ?_)
    intro s hs'
    rw [hs] at hs'
    exact absurd hs' List.not_mem_nil

section

variable {G : Layout} {B B' B₁ B₂ : Builder} {cur c : Nat} {out t e : Option Nat} {blk : Block}

theorem Builder.syms_eq (h : B'.scopes = B.scopes) : B'.syms = B.syms := by
  unfold Builder.syms
  rw [h]

theorem Builder.syms_under (h : B'.popScope.scopes = B.scopes) {s : Symbol} (hs : s ∈ B.syms) : s ∈ B'.syms := by
  apply Builder.mem_syms_of_pop
  rwa [Builder.syms_eq h]

theorem seq_leaves (h₁ : Lowered G B cur B₁ (some c)) (h₂ : Lowered G B₁ c B₂ out) (hG : Tidy G B)
    (hcur : cur < B.blocks.length) (hu : B.Unlinked cur) {i : Nat} (w₁ : WaysOut G B cur i B₁ (some c))
    (w₂ : ∀ {blk₁ : Block}, B₁.blocks[c]? = some blk₁ → WaysOut G B₁ c blk₁.instrs.length B₂ out) :
    WaysOut G B cur i B₂ out := by
  have f₁ := h₁.frame hcur
  have hc := (f₁.out c rfl).2
  have hu₁ := h₁.unlinked hcur hu c rfl
  have hx₂ := (h₂.frame hc).extends hu₁
  obtain ⟨blk₁, hb₁⟩ : ∃ blk₁, B₁.blocks[c]? = some blk₁ := ⟨_, List.getElem?_eq_getElem hc⟩
  refine ⟨?_, ?_, ?_, ?_⟩
  · refine Leaves.seq hx₂ w₁.start ?_
    intro d blkd hd hbd
    cases hd
    refine (w₂ hbd).start.weaken fun ins => Within.weaken ?_ h₁.mono.2
    intro k hk
    exact (h₁.grows.mem_syms hG.scope.some_ hk).imp id And.left
  · intro b hge hlt
    by_cases hb₁' : b < B₁.blocks.length
    · refine Leaves.seq hx₂ (w₁.opened b hge hb₁') ?_
      intro d blkd hd hbd
      cases hd
      exact (w₂ hbd).start.weaken fun ins => Within.weaken (w₁.syms b hge hb₁') (w₁.bound b hge hb₁')
    · exact (w₂ hb₁).opened b (not_lt.mp hb₁') hlt
  · intro b hge hlt s hs
    by_cases hb₁' : b < B₁.blocks.length
    · rcases h₂.grows.mem_syms (h₁.scoped hG.scope).some_ hs with hs | hs
      · exact w₁.syms b hge hb₁' s hs
      · exact Or.inr (le_trans (w₁.bound b hge hb₁') hs.1)
    · exact (w₂ hb₁).syms b (not_lt.mp hb₁') hlt s hs
  · intro b hge hlt
    by_cases hb₁' : b < B₁.blocks.length
    · exact le_trans (w₁.bound b hge hb₁') h₂.mono.2
    · exact (w₂ hb₁).bound b (not_lt.mp hb₁') hlt

theorem ret_leaves {r : Option Symbol} {line : Int} (hr : ∀ s ∈ r, s ∈ B.syms ∧ s.kind = .owned) (hG : Tidy G B)
    (hb : B.blocks[cur]? = some blk) :
    WaysOut G B cur blk.instrs.length ((B.emit cur (.return_ r line)).link cur []) none := by
  have hblk : ((B.emit cur (.return_ r line)).link cur []).blocks[cur]? =
      some { blk with instrs := blk.instrs ++ [.return_ r line], succ := [] } := by
    rw [Builder.link_get, if_pos rfl, Builder.emit_get, if_pos rfl, hb]
    rfl
  have hlen : ((B.emit cur (.return_ r line)).link cur []).blocks.length = B.blocks.length := by simp
  refine ⟨Or.inl ⟨cur, _, _, .return_ r line, .refl _ _, hblk, by simp, rfl, ?_⟩, fun b h₁ h₂ => by omega,
    fun b h₁ h₂ => by omega, fun b h₁ h₂ => by omega⟩
  refine hG.within (fun s hs => (hr s (Option.mem_toList.mp hs)).1) ?_
  exact fun s hs => absurd hs List.not_mem_nil

/-- The loan ends behind the block's body. -/
theorem closeBorrow_leaves {o b : Symbol} {isMut : Bool} {line : Int} (hout : ∀ c, out = some c → B'.Unlinked c)
    {P : Instr → Prop} (hP : P (.borrowEnd o b isMut line)) {k i : Nat} (hl : Leaves B' P k i out) :
    Leaves (B'.closeBorrow o b isMut line out) P k i out := by
  have hclose : Extends B' (B'.closeBorrow o b isMut line out) := by
    cases out with
    | none => exact Extends.of_blocks rfl
    | some c => exact (Extends.popScope B').trans (Extends.emit (hout c rfl))
  refine Leaves.seq hclose hl ?_
  intro c blkc hc hbc
  subst hc
  refine Leaves.last (x := .borrowEnd o b isMut line) ?_ hP
  rw [Builder.closeBorrow, Builder.emit_get, if_pos rfl, Builder.popScope_blocks, hbc]
  rfl

theorem within_borrowEnd {o b : Symbol} {isMut : Bool} {line : Int} (S : List Symbol) (n : Nat) :
    Within G S n (.borrowEnd o b isMut line) := by
  intro s hs
  rcases hs with hs | hs <;> exact absurd hs List.not_mem_nil

theorem borrow_leaves {mk : Nat → Symbol} {owner : Symbol} {isMut : Bool} {line : Int} (hmem : owner ∈ B.syms)
    (hd : Declares B mk .borrow)
    (h : Lowered G ((B.pushScope.declare mk).1.emit cur (.borrowStart owner (mk B.nextSym) isMut line)) cur B' out)
    (hG : Tidy G B) (hb : B.blocks[cur]? = some blk) (hu : B.Unlinked cur)
    (w : WaysOut G ((B.pushScope.declare mk).1.emit cur (.borrowStart owner (mk B.nextSym) isMut line)) cur
      (blk.instrs.length + 1) B' out) :
    WaysOut G B cur blk.instrs.length (B'.closeBorrow owner (mk B.nextSym) isMut line out) out := by
  have hhere : ((B.pushScope.declare mk).1.emit cur (.borrowStart owner (mk B.nextSym) isMut line)).blocks[cur]? =
      some { blk with instrs := blk.instrs ++ [.borrowStart owner (mk B.nextSym) isMut line] } := by
    rw [Builder.emit_get, if_pos rfl, Builder.declare_blocks, Builder.pushScope_blocks, hb]
    rfl
  have hu₀ : ((B.pushScope.declare mk).1.emit cur (.borrowStart owner (mk B.nextSym) isMut line)).Unlinked cur := by
    have : (B.pushScope.declare mk).1.Unlinked cur := hu.of_blocks (by simp)
    exact this.emit cur _
  have hlt₀ := Builder.lt_of_get hhere
  have hx₀ := (h.frame hlt₀).extends hu₀
  have hout := h.unlinked hlt₀ hu₀
  have hlen : ((B.pushScope.declare mk).1.emit cur (.borrowStart owner (mk B.nextSym) isMut line)).blocks.length =
      B.blocks.length := by simp
  have hpop : B'.popScope.scopes = B.scopes := h.pop (Builder.declare_scopes B.pushScope mk)
  refine ⟨?_, ?_, ?_, ?_⟩
  · have hstart : Within G B.syms B.nextSym (.borrowStart owner (mk B.nextSym) isMut line) := by
      refine hG.within ?_ ?_
      · intro s hs
        rwa [show s = owner from List.mem_singleton.mp hs]
      · intro s hs hko
        rw [show s = mk B.nextSym from List.mem_singleton.mp hs, hd.2] at hko
        cases hko
    have hin : Leaves B' (Within G B.syms B.nextSym) cur (blk.instrs.length + 1) out := by
      refine w.start.weaken fun ins => Within.weaken ?_ ?_
      · intro k hkm
        rcases Builder.mem_syms_declare.mp hkm with rfl | hkm
        · exact Or.inr (le_of_eq hd.1.symm)
        · exact Or.inl (by simpa [Builder.syms] using hkm)
      · simp
    obtain ⟨blk', hblk', ⟨l, hl⟩, _⟩ := hx₀ _ _ hhere
    refine closeBorrow_leaves hout (within_borrowEnd _ _) (Leaves.step hblk' ?_ hstart hin)
    rw [hl, List.append_assoc, List.getElem?_append_right (le_refl _)]
    simp
  · intro b hge hlt
    rw [Builder.closeBorrow_length] at hlt
    exact closeBorrow_leaves hout (within_borrowEnd _ _) (w.opened b (by omega) hlt)
  · intro b hge hlt s hs
    rw [Builder.closeBorrow_length] at hlt
    apply w.syms b (by omega) hlt s
    apply Builder.mem_syms_of_pop
    rwa [Builder.syms_eq (B := B'.popScope) (Builder.closeBorrow_scopes _ _ _ _ _ _)] at hs
  · intro b hge hlt
    rw [Builder.closeBorrow_length] at hlt
    rw [Builder.closeBorrow_nextSym]
    exact w.bound b (by omega) hlt

/-- From the end of either arm to the merge. -/
theorem merge_leaves (A : Arms B cur B₁ B₂ t e) {P : Instr → Prop} {c : Nat} {blkc : Block}
    (hc : t = some c ∨ e = some c) (hbc : B₂.blocks[c]? = some blkc) :
    Leaves (B₂.popScope.merge t e).1 P c blkc.instrs.length (B₂.popScope.merge t e).2 := by
  obtain ⟨hsome, hlink⟩ := (merge_exit A.exit₁ A.exit₂).2 c hc
  have hm := merge_some (fun d hd => (A.exit₁ d hd).1) (fun d hd => (A.exit₂ d hd).1) hsome
  rw [hsome]
  exact Leaves.edge (hlink blkc hbc) rfl (List.mem_singleton.mpr rfl) (Leaves.here (P := P) hm.2.1)

theorem then_leaves (A : Arms B cur B₁ B₂ t e) {P : Instr → Prop} {b i : Nat} (hl : Leaves B₁ P b i t) :
    Leaves (B₂.popScope.merge t e).1 P b i (B₂.popScope.merge t e).2 := by
  refine Leaves.seq (A.ext₂.trans ((Extends.popScope B₂).trans (merge_exit A.exit₁ A.exit₂).1)) hl ?_
  intro c blkc hc hbc
  exact merge_leaves A (Or.inl hc) (by rw [A.same c hc]; exact hbc)

theorem else_leaves (A : Arms B cur B₁ B₂ t e) {P : Instr → Prop} {b i : Nat} (hl : Leaves B₂ P b i e) :
    Leaves (B₂.popScope.merge t e).1 P b i (B₂.popScope.merge t e).2 := by
  refine Leaves.seq ((Extends.popScope B₂).trans (merge_exit A.exit₁ A.exit₂).1) hl ?_
  intro c blkc hc hbc
  exact merge_leaves A (Or.inr hc) hbc

/-- A new block is an arm's first, one of its others, or the merge. -/
theorem branch_blocks (A : Arms B cur B₁ B₂ t e) {b : Nat} (hge : B.blocks.length ≤ b)
    (hlt : b < (B₂.popScope.merge t e).1.blocks.length) :
    b = B.blocks.length ∨ b = B.blocks.length + 1 ∨ (B.blocks.length + 2 ≤ b ∧ b < B₁.blocks.length) ∨
      (B₁.blocks.length ≤ b ∧ b < B₂.blocks.length) ∨
      (b = B₂.blocks.length ∧ (B₂.popScope.merge t e).2 = some b ∧ ¬(t = none ∧ e = none)) := by
  have hlen₁ := A.len₁
  have hlen₂ := A.len₂
  by_cases hold : b < B₂.blocks.length
  · omega
  · unfold Builder.merge at hlt ⊢
    split at hlt
    · exact absurd hlt hold
    next hte =>
      simp only [Builder.linkIf_length, Builder.newBlock_length, Builder.popScope_blocks] at hlt
      have hbm : b = B₂.blocks.length := by omega
      right; right; right; right
      exact ⟨hbm, by rw [if_neg hte, hbm]; rfl, hte⟩

theorem branch_leaves (ho₁ : G.Opens B B.blocks.length) (ho₂ : G.Opens B (B.blocks.length + 1))
    (h₁ : Lowered G (B.fork cur).pushScope B.blocks.length B₁ t)
    (h₂ : Lowered G B₁.popScope.pushScope (B.blocks.length + 1) B₂ e)
    (ho₃ : ¬(t = none ∧ e = none) → G.Opens B₂.popScope B₂.blocks.length) (A : Arms B cur B₁ B₂ t e)
    (hcur : cur < B.blocks.length) (hb : B.blocks[cur]? = some blk)
    (w₁ : WaysOut G (B.fork cur).pushScope B.blocks.length 0 B₁ t)
    (w₂ : WaysOut G B₁.popScope.pushScope (B.blocks.length + 1) 0 B₂ e) :
    WaysOut G B cur blk.instrs.length (B₂.popScope.merge t e).1 (B₂.popScope.merge t e).2 := by
  have hm₁ := h₁.mono.2
  have hm₂ := h₂.mono.2
  simp only [Builder.pushScope_nextSym, Builder.fork_nextSym, Builder.popScope_nextSym] at hm₁ hm₂
  have hpush : (B.fork cur).pushScope.syms = B.syms := by simp [Builder.syms]
  have hpop₁ : B₁.popScope.scopes = B.scopes := h₁.pop rfl
  have hpop₂ : B₂.popScope.scopes = B.scopes := (h₂.pop rfl).trans hpop₁
  have hpush₁ : B₁.popScope.pushScope.syms = B.syms := (Builder.syms_eq hpop₁ : B₁.popScope.syms = B.syms)
  obtain ⟨hxm, _⟩ := merge_exit A.exit₁ A.exit₂
  have hstart₁ : Leaves (B₂.popScope.merge t e).1 (Within G B.syms B.nextSym) B.blocks.length 0
      (B₂.popScope.merge t e).2 := by
    have := then_leaves A w₁.start
    rw [hpush] at this
    exact this
  have hstart₂ : Leaves (B₂.popScope.merge t e).1 (Within G B.syms B.nextSym) (B.blocks.length + 1) 0
      (B₂.popScope.merge t e).2 := by
    refine else_leaves A (w₂.start.weaken fun ins => Within.weaken ?_ hm₁)
    intro k hk
    rw [hpush₁] at hk
    exact Or.inl hk
  have hsyms : (B₂.popScope.merge t e).1.syms = B.syms :=
    Builder.syms_eq ((Builder.merge_scopes _ _ _).trans hpop₂)
  refine ⟨?_, ?_, ?_, ?_⟩
  · have hfork : (B.fork cur).blocks[cur]? = some { blk with succ := [B.blocks.length, B.blocks.length + 1] } := by
      rw [Builder.fork_get hcur, if_pos rfl, hb]
      rfl
    obtain ⟨blk₂, hblk₂, _, hs₂⟩ := (A.ext₁.trans (A.ext₂.trans ((Extends.popScope B₂).trans hxm))) _ _ hfork
    have heq := hs₂ (List.cons_ne_nil _ _)
    rw [heq] at hblk₂
    exact Leaves.edge hblk₂ rfl List.mem_cons_self hstart₁
  · intro b hge hlt
    rcases branch_blocks A hge hlt with rfl | rfl | ⟨hb₁, hb₂⟩ | ⟨hb₁, hb₂⟩ | ⟨rfl, hsome, _⟩
    · rw [ho₁.1, ho₁.2]
      exact hstart₁
    · rw [ho₂.1, ho₂.2]
      exact hstart₂
    · exact then_leaves A (w₁.opened b (by simp only [Builder.pushScope_blocks, Builder.fork_length]; omega) hb₂)
    · exact else_leaves A (w₂.opened b (by simp only [Builder.pushScope_blocks, Builder.popScope_blocks]; omega) hb₂)
    · have hm := merge_some (fun d hd => (A.exit₁ d hd).1) (fun d hd => (A.exit₂ d hd).1) hsome
      rw [hsome]
      exact Leaves.here (P := Within G (G.scope B₂.blocks.length) (G.bound B₂.blocks.length)) hm.2.1
  · intro b hge hlt s hs
    rw [hsyms] at hs
    rcases branch_blocks A hge hlt with rfl | rfl | ⟨hb₁, hb₂⟩ | ⟨hb₁, hb₂⟩ | ⟨rfl, _, hte⟩
    · exact Or.inl (by rw [ho₁.1]; exact hs)
    · exact Or.inl (by rw [ho₂.1]; exact hs)
    · exact w₁.syms b (by simp only [Builder.pushScope_blocks, Builder.fork_length]; omega) hb₂ s
        (Builder.syms_under hpop₁ hs)
    · exact w₂.syms b (by simp only [Builder.pushScope_blocks, Builder.popScope_blocks]; omega) hb₂ s
        (Builder.syms_under hpop₂ hs)
    · left
      rw [(ho₃ hte).1, Builder.syms_eq hpop₂]
      exact hs
  · intro b hge hlt
    rw [Builder.merge_nextSym, Builder.popScope_nextSym]
    rcases branch_blocks A hge hlt with rfl | rfl | ⟨hb₁, hb₂⟩ | ⟨hb₁, hb₂⟩ | ⟨rfl, _, hte⟩
    · rw [ho₁.2]
      omega
    · rw [ho₂.2]
      omega
    · exact le_trans (w₁.bound b (by simp only [Builder.pushScope_blocks, Builder.fork_length]; omega) hb₂) hm₂
    · exact w₂.bound b (by simp only [Builder.pushScope_blocks, Builder.popScope_blocks]; omega) hb₂
    · exact le_of_eq (ho₃ hte).2

/-- A new block of a loop is its header, its body's first, the one after it, or another of the body. -/
theorem loop_blocks {h b : Nat} (hge : B.blocks.length ≤ b) (hlt : b < (B'.popScope.linkIf out [h]).blocks.length) :
    b = B.blocks.length ∨ b = B.blocks.length + 1 ∨ b = B.blocks.length + 2 ∨
      (B.blocks.length + 3 ≤ b ∧ b < B'.blocks.length) := by
  rw [Builder.linkIf_length, Builder.popScope_blocks] at hlt
  omega

theorem loop_leaves (hs : G.scope B.blocks.length = B.syms) (hn : G.bound B.blocks.length = B'.nextSym)
    (ho₁ : G.Opens B (B.blocks.length + 1)) (ho₂ : G.Opens B (B.blocks.length + 2))
    (h : Lowered G (B.openLoop cur).pushScope (B.blocks.length + 1) B' out) (hcur : cur < B.blocks.length)
    (hb : B.blocks[cur]? = some blk) (hu : (B.openLoop cur).pushScope.Unlinked (B.blocks.length + 1))
    (w : WaysOut G (B.openLoop cur).pushScope (B.blocks.length + 1) 0 B' out) :
    WaysOut G B cur blk.instrs.length (B'.popScope.linkIf out [B.blocks.length]) (some (B.blocks.length + 2)) := by
  have hm := h.mono
  simp only [Builder.openLoop_length, Builder.pushScope_blocks, Builder.pushScope_nextSym,
    Builder.openLoop_nextSym] at hm
  have hpush : (B.openLoop cur).pushScope.syms = B.syms := by simp [Builder.syms]
  have hpop : B'.popScope.scopes = B.scopes := h.pop rfl
  have hlen : B.blocks.length + 1 < (B.openLoop cur).pushScope.blocks.length := by simp
  have f := h.frame hlen
  have hxb : Extends (B.openLoop cur) B' := f.extends hu
  have hxl : Extends B' (B'.popScope.linkIf out [B.blocks.length]) :=
    (Extends.popScope B').trans (Extends.linkIf fun d hd => h.unlinked hlen hu d hd)
  -- the header and the block after the loop
  obtain ⟨blkh, hblkh, _, hsh⟩ := (hxb.trans hxl) _ _ (Builder.openLoop_header hcur)
  have hheader := hsh (List.cons_ne_nil _ _)
  rw [hheader] at hblkh
  obtain ⟨la, -, hafter⟩ := f.after_loop hcur
  have hexit : ∀ P : Instr → Prop, Leaves (B'.popScope.linkIf out [B.blocks.length]) P B.blocks.length 0
      (some (B.blocks.length + 2)) :=
    fun P => Leaves.edge hblkh rfl (List.mem_cons_of_mem _ List.mem_cons_self) (Leaves.here (P := P) hafter)
  have hbody : ∀ {P : Instr → Prop} {b i : Nat}, Leaves B' P b i out →
      Leaves (B'.popScope.linkIf out [B.blocks.length]) P b i (some (B.blocks.length + 2)) := by
    intro P b i hl
    refine Leaves.seq hxl hl ?_
    intro c blkc hc hbc
    subst hc
    have hlast : (B'.popScope.linkIf (some c) [B.blocks.length]).blocks[c]? =
        some { blkc with succ := [B.blocks.length] } := by
      rw [Builder.linkIf, Builder.link_get, if_pos rfl, Builder.popScope_blocks, hbc]
      rfl
    exact Leaves.edge hlast rfl (List.mem_singleton.mpr rfl) (hexit P)
  have hsyms : (B'.popScope.linkIf out [B.blocks.length]).syms = B.syms :=
    Builder.syms_eq ((Builder.linkIf_scopes _ _ _).trans hpop)
  refine ⟨?_, ?_, ?_, ?_⟩
  · have hlink : (B.openLoop cur).blocks[cur]? = some { blk with succ := [B.blocks.length] } := by
      rw [Builder.openLoop_get hcur, if_pos rfl, hb]
      rfl
    obtain ⟨blk₂, hblk₂, _, hs₂⟩ := (hxb.trans hxl) _ _ hlink
    have heq := hs₂ (List.cons_ne_nil _ _)
    rw [heq] at hblk₂
    exact Leaves.edge hblk₂ rfl (List.mem_singleton.mpr rfl) (hexit _)
  · intro b hge hlt
    rcases loop_blocks hge hlt with rfl | rfl | rfl | ⟨hb₁, hb₂⟩
    · exact hexit _
    · rw [ho₁.1, ho₁.2]
      have := hbody w.start
      rw [hpush] at this
      exact this
    · exact Leaves.here (P := Within G (G.scope (B.blocks.length + 2)) (G.bound (B.blocks.length + 2))) hafter
    · exact hbody (w.opened b (by simp only [Builder.pushScope_blocks, Builder.openLoop_length]; omega) hb₂)
  · intro b hge hlt s hs'
    rw [hsyms] at hs'
    rcases loop_blocks hge hlt with rfl | rfl | rfl | ⟨hb₁, hb₂⟩
    · exact Or.inl (by rw [hs]; exact hs')
    · exact Or.inl (by rw [ho₁.1]; exact hs')
    · exact Or.inl (by rw [ho₂.1]; exact hs')
    · exact w.syms b (by simp only [Builder.pushScope_blocks, Builder.openLoop_length]; omega) hb₂ s
        (Builder.syms_under hpop hs')
  · intro b hge hlt
    rw [Builder.linkIf_nextSym, Builder.popScope_nextSym]
    rcases loop_blocks hge hlt with rfl | rfl | rfl | ⟨hb₁, hb₂⟩
    · exact le_of_eq hn
    · rw [ho₁.2]
      exact hm.2
    · rw [ho₂.2]
      exact hm.2
    · exact w.bound b (by simp only [Builder.pushScope_blocks, Builder.openLoop_length]; omega) hb₂

theorem Lowered.leaves (h : Lowered G B cur B' out) (hG : Tidy G B) (hb : B.blocks[cur]? = some blk)
    (hu : B.Unlinked cur) : WaysOut G B cur blk.instrs.length B' out := by
  induction h generalizing blk with
  | stay hl => exact hl.waysOut hG hb
  | seq h₁ h₂ ih₁ ih₂ =>
    have hu₁ := h₁.unlinked (Builder.lt_of_get hb) hu _ rfl
    exact seq_leaves h₁ h₂ hG (Builder.lt_of_get hb) hu (ih₁ hG hb hu) fun hb₁ => ih₂ (h₁.tidy hG) hb₁ hu₁
  | ret hr => exact ret_leaves hr hG hb
  | @borrow B B' cur mk owner isMut line out hmem hk hd hborn hp h ih =>
    refine borrow_leaves hmem hd h hG hb hu ?_
    have hhere : ((B.pushScope.declare mk).1.emit cur (.borrowStart owner (mk B.nextSym) isMut line)).blocks[cur]? =
        some { blk with instrs := blk.instrs ++ [.borrowStart owner (mk B.nextSym) isMut line] } := by
      rw [Builder.emit_get, if_pos rfl, Builder.declare_blocks, Builder.pushScope_blocks, hb]
      rfl
    have hu₀ : (B.pushScope.declare mk).1.Unlinked cur := hu.of_blocks (by simp)
    have w := ih ((tidy_borrow hG hd hborn).of_eq rfl (le_refl _) id) hhere (hu₀.emit cur _)
    rwa [List.length_append, List.length_singleton] at w
  | @branch B B₁ B₂ cur t e ho₁ ho₂ h₁ h₂ ho₃ ih₁ ih₂ =>
    have hcur := Builder.lt_of_get hb
    have A := arms hcur hu h₁ h₂
    have hm₁ := h₁.mono.2
    simp only [Builder.pushScope_nextSym, Builder.fork_nextSym] at hm₁
    have hTf : Tidy G (B.fork cur).pushScope := (show Tidy G (B.fork cur) from hG.of_eq rfl (le_refl _) id).push
    have hT₁ : Tidy G B₁.popScope := hG.of_eq (h₁.pop rfl) hm₁ h₁.diags
    obtain ⟨lt, hlt⟩ := Builder.fork_get_new hcur (Or.inl rfl)
    obtain ⟨le, hle⟩ := A.else_
    exact branch_leaves ho₁ ho₂ h₁ h₂ ho₃ A hcur hb (ih₁ hTf hlt (unlinked_new hlt))
      (ih₂ hT₁.push hle (unlinked_new hle))
  | @loop B B' cur out hs hn ho₁ ho₂ h ih =>
    have hcur := Builder.lt_of_get hb
    have hTl : Tidy G (B.openLoop cur).pushScope := (show Tidy G (B.openLoop cur) from hG.of_eq rfl (le_refl _) id).push
    obtain ⟨lb, hlb⟩ := Builder.openLoop_get_new hcur (Or.inl rfl)
    have hu₁ : (B.openLoop cur).pushScope.Unlinked (B.blocks.length + 1) := unlinked_new hlb
    exact loop_leaves hs hn ho₁ ho₂ h hcur hb hu₁ (ih hTl hlb hu₁)

end

/-! ## A whole function -/

theorem declareParam_declares (env : Env) (p : Param) (B : Builder) :
    (declareParam env p B).2.id = B.nextSym ∧
      ((declareParam env p B).2.kind = .borrow → (declareParam env p B).2.isParamBorrow = true) := by
  refine ⟨rfl, ?_⟩
  intro hk
  simp only [declareParam, Builder.declare_snd] at hk ⊢
  by_cases hb : p.type.borrowed
  · exact hb
  · by_cases hmem : p.type.name ∈ env.resourceNames <;> simp [hb, hmem] at hk

/-- The parameters: in scope, in order of identity. -/
structure DeclaresParams (B B' : Builder) (ps : List Symbol) : Prop where
  scope : B'.Scoped
  blocks : B'.blocks = B.blocks
  tail : B'.scopes.tail = B.scopes.tail
  syms : ∀ s, s ∈ B'.syms ↔ s ∈ B.syms ∨ s ∈ ps
  ids : ∀ s ∈ ps, B.nextSym ≤ s.id
  lent : ∀ s ∈ ps, s.kind = .borrow → s.isParamBorrow = true
  nodup : (ps.map Symbol.id).Nodup

theorem declareParams_spec (env : Env) (ps : List Param) (B : Builder) (hB : B.Scoped) :
    DeclaresParams B (declareParams env ps B).1 (declareParams env ps B).2 := by
  induction ps generalizing B with
  | nil =>
    exact ⟨hB, rfl, rfl, fun s => ⟨Or.inl, fun h => h.elim id fun h => absurd h List.not_mem_nil⟩,
      fun s hs => absurd hs List.not_mem_nil, fun s hs => absurd hs List.not_mem_nil, List.nodup_nil⟩
  | cons p rest ih =>
    have hd := declareParam_declares env p B
    have hblocks : (declareParam env p B).1.blocks = B.blocks := Builder.declare_blocks _ _
    have htail : (declareParam env p B).1.scopes.tail = B.scopes.tail := by
      simp [declareParam]
    have hn : (declareParam env p B).1.nextSym = B.nextSym + 1 := Builder.declare_nextSym _ _
    have hsyms : ∀ s, s ∈ (declareParam env p B).1.syms ↔ s = (declareParam env p B).2 ∨ s ∈ B.syms :=
      fun s => Builder.mem_syms_declare
    have h := ih (declareParam env p B).1 (hB.declare hd.1)
    refine ⟨h.scope, h.blocks.trans hblocks, h.tail.trans htail, ?_, ?_, ?_, ?_⟩
    · intro s
      refine (h.syms s).trans ?_
      rw [hsyms s]
      simp only [declareParams, List.mem_cons]
      constructor
      · intro hor
        rcases hor with (heq | hmem) | hmem
        · exact Or.inr (Or.inl heq)
        · exact Or.inl hmem
        · exact Or.inr (Or.inr hmem)
      · intro hor
        rcases hor with hmem | heq | hmem
        · exact Or.inl (Or.inr hmem)
        · exact Or.inl (Or.inl heq)
        · exact Or.inr hmem
    · intro s hs
      rcases List.mem_cons.mp hs with rfl | hs
      · exact le_of_eq hd.1.symm
      · have := h.ids s hs
        omega
    · intro s hs
      rcases List.mem_cons.mp hs with rfl | hs
      · exact hd.2
      · exact h.lent s hs
    · simp only [declareParams, List.map_cons, List.nodup_cons]
      refine ⟨?_, h.nodup⟩
      intro hmem
      obtain ⟨s, hs, heq⟩ := List.mem_map.mp hmem
      have := h.ids s hs
      have hid := hd.1
      omega

/-- A block of an accepted function of `n` blocks. -/
structure BlockLaid (G : Layout) (n b : Nat) (blk : Block) : Prop where
  fits : Fitting G (G.starting b) blk.instrs
  kinds : ∀ ins ∈ blk.instrs, ins.Kinds
  owned : ∀ ins ∈ blk.instrs, ∀ s ∈ ins.touches, s.kind = .owned → G.born s.id
  lent : ∀ ins ∈ blk.instrs, ∀ s ∈ ins.touches, s.kind = .borrow → s.isParamBorrow = false → G.born s.id
  returns : ∀ i ins, blk.instrs[i]? = some ins → ins.isReturn → i + 1 = blk.instrs.length ∧ blk.succ = []
  edges : ∀ c ∈ blk.succ, 0 < c ∧ c < n ∧ (∀ s ∈ G.starting c, s ∈ knownAfter (G.starting b) blk.instrs) ∧
    ∀ s ∈ knownAfter (G.starting b) blk.instrs, s.id < G.bound c
  closed : Closed G (G.starting b)

/-- Where the function is left: at a `return`, or off the end of a block. -/
def ExitAt (blk : Block) (i : Nat) : Prop :=
  (∃ ins, blk.instrs[i]? = some ins ∧ ins.isReturn) ∨
    (i = blk.instrs.length ∧ blk.succ = [] ∧ ∀ ins ∈ blk.instrs, ins.isReturn = false)

/-- What lowering gives for an accepted function. -/
structure LaidOut (G : Layout) (cfg : CFG) : Prop where
  entry : cfg.entry = 0
  some_ : 0 < cfg.blocks.length
  start : ∀ s, s ∈ G.starting 0 ↔ s ∈ cfg.params ∧ s.kind = .owned
  rids : ∀ p ∈ cfg.params, G.rid p.id = p.id
  lent : ∀ p ∈ cfg.params, p.kind = .borrow → p.isParamBorrow = true
  nodup : (cfg.params.map Symbol.id).Nodup
  block : ∀ b blk, cfg.blocks[b]? = some blk → BlockLaid G cfg.blocks.length b blk
  back : ∀ b, 0 < b → b < cfg.blocks.length → ∃ p < b, ∃ blk, cfg.blocks[p]? = some blk ∧ b ∈ blk.succ
  exit : ∀ b < cfg.blocks.length, ∃ c i blk, Leads cfg.blocks (Within G (G.scope b) (G.bound b)) b 0 c i ∧
    cfg.blocks[c]? = some blk ∧ ExitAt blk i ∧ ∀ ins, blk.instrs[i]? = some ins → Within G (G.scope b) (G.bound b) ins
  born : ∀ b < cfg.blocks.length, ∀ s ∈ G.scope b, s.kind = .owned → G.born s.id

theorem BlockFits.laid {G : Layout} {B : Builder} {b : Nat} {blk : Block} (h : BlockFits G B b blk) (hnil : B.diags = []) :
    BlockLaid G B.blocks.length b blk where
  fits := h.fits
  kinds := h.kinds
  owned := h.owned hnil
  lent := h.lent
  returns := h.returns
  edges c hc := ⟨(h.edges c hc).pos, (h.edges c hc).lt, (h.edges c hc).knows, (h.edges c hc).bound⟩
  closed s hs hk := by
    obtain ⟨k, hkm, hkr⟩ := h.closed s (mem_starting.mp hs).1 hk
    exact ⟨k, mem_starting.mpr ⟨hkm, h.scope hnil k hkm hkr.2⟩, hkr⟩

/-- Leaving a lowered body is leaving the function. -/
theorem Leaves.exit {G : Layout} {B : Builder} {P : Instr → Prop} {b i : Nat} {out : Option Nat}
    (h : Leaves B P b i out) (hout : ∀ c, out = some c → ∃ blk, Open G B c blk) :
    ∃ c j blk, Leads B.blocks P b i c j ∧ B.blocks[c]? = some blk ∧ ExitAt blk j ∧
      ∀ ins, blk.instrs[j]? = some ins → P ins := by
  rcases h with ⟨c, j, blk, ins, hl, hb, hi, hr, hP⟩ | ⟨c, blk, hc, hb, hl⟩
  · refine ⟨c, j, blk, hl, hb, Or.inl ⟨ins, hi, hr⟩, ?_⟩
    intro ins' hi'
    rw [hi] at hi'
    cases hi'
    exact hP
  · obtain ⟨blk', ho⟩ := hout c hc
    have heq : blk' = blk := Option.some.inj (ho.here.symm.trans hb)
    subst heq
    refine ⟨c, blk'.instrs.length, blk', hl, hb, Or.inr ⟨rfl, ho.succ, ho.going⟩, ?_⟩
    intro ins hi
    simp at hi

/-- The layout the body is lowered from: the owned parameters hold resources of their own. -/
def paramLayout (B : Builder) (ps : List Symbol) : Layout where
  scope _ := B.syms
  bound _ := B.nextSym
  born n := decide (∃ s ∈ ps, s.id = n ∧ s.kind = .owned)
  rid n := n

/-- After the body only a missing `return` is reported, and no block is touched. -/
theorem build_body (env : Env) (fn : FnDecl) :
    let body := (lowerSeq env fn fn.body 0 ((declareParams env fn.params { scopes := [[]] }).1.newBlock "entry")).1
    (buildCfg env fn).1.blocks = body.blocks ∧ ((buildCfg env fn).2 = [] → body.diags = []) := by
  simp only [buildCfg, build]
  split
  · refine ⟨rfl, ?_⟩
    intro h
    exact absurd h (by simp [Builder.report])
  · exact ⟨rfl, id⟩

/-- What the body is lowered from: one empty block, with the parameters in scope. -/
structure Started (G : Layout) (B₀ : Builder) (ps : List Symbol) : Prop where
  blocks : B₀.blocks = [{ label := "entry" }]
  scope : G.scope 0 = B₀.syms
  bound : G.bound 0 = B₀.nextSym
  syms : ∀ s, s ∈ B₀.syms ↔ s ∈ ps
  born : ∀ s ∈ ps, (G.born s.id ↔ s.kind = .owned)
  rid : ∀ s ∈ ps, G.rid s.id = s.id
  lent : ∀ s ∈ ps, s.kind = .borrow → s.isParamBorrow = true
  nodup : (ps.map Symbol.id).Nodup
  tidy : Tidy G B₀
  sound : Sound G B₀

/-- Every body has a layout it is lowered by, from a builder that holds the parameters only. -/
theorem body_started (env : Env) (fn : FnDecl) :
    let P := declareParams env fn.params { scopes := [[]] }
    let B₀ := P.1.newBlock "entry"
    let L := lowerSeq env fn fn.body 0 B₀
    ∃ G : Layout, Started G B₀ P.2 ∧ Lowered G B₀ 0 L.1 L.2 := by
  intro P B₀ L
  have hP : DeclaresParams { scopes := [[]] } P.1 P.2 :=
    declareParams_spec env fn.params _ ⟨by simp, fun s hs => by simp [Builder.syms] at hs⟩
  have hB₀ : B₀.Scoped := hP.scope.of_eq rfl (le_refl _)
  have hblocks₀ : B₀.blocks = [{ label := "entry" }] := by
    show P.1.blocks ++ [_] = _
    rw [hP.blocks]
    rfl
  have hlen₀ : B₀.blocks.length = 1 := by rw [hblocks₀]; rfl
  have hhere : B₀.blocks[0]? = some { label := "entry" } := by rw [hblocks₀]; rfl
  have hsyms₀ : ∀ s, s ∈ B₀.syms ↔ s ∈ P.2 := by
    intro s
    refine (hP.syms s).trans ?_
    simp [Builder.syms]
  obtain ⟨G, hag, hl⟩ := lowerSeq_lowers env fn fn.body 0 hB₀ (paramLayout B₀ P.2)
  rw [hlen₀] at hag
  have hscope : G.scope 0 = B₀.syms := hag.scope 0 (by omega)
  have hbound : G.bound 0 = B₀.nextSym := hag.bound 0 (by omega)
  have hborn : ∀ s ∈ P.2, (G.born s.id ↔ s.kind = .owned) := by
    intro s hs
    rw [hag.born s.id (hB₀.young s ((hsyms₀ s).mpr hs))]
    simp only [paramLayout, decide_eq_true_eq]
    constructor
    · intro h
      obtain ⟨t, ht, heq, hk⟩ := h
      have hts : t = s := List.inj_on_of_nodup_map hP.nodup ht hs heq
      exact hts ▸ hk
    · exact fun hk => ⟨s, hs, rfl, hk⟩
  have hrid : ∀ s ∈ P.2, G.rid s.id = s.id := fun s hs => hag.rid s.id (hB₀.young s ((hsyms₀ s).mpr hs))
  have hT : Tidy G B₀ := by
    have hclosed : Closed G B₀.syms := fun s hs hk => ⟨s, hs, (hrid s ((hsyms₀ s).mp hs)).symm, hk⟩
    refine ⟨hB₀, fun _ s hs hk => (hborn s ((hsyms₀ s).mp hs)).mpr hk, ?_, ?_⟩
    · intro s hs hk hp
      have hlent := hP.lent s ((hsyms₀ s).mp hs) hk
      rw [hp] at hlent
      cases hlent
    · obtain ⟨top, rest, hs⟩ := List.exists_cons_of_ne_nil hB₀.some_
      have hrest : rest = [] := by
        have htail : B₀.scopes.tail = [] := hP.tail
        rwa [hs] at htail
      subst hrest
      unfold Builder.syms at hclosed
      rw [hs] at hclosed ⊢
      exact ⟨hclosed, trivial⟩
  have hS : Sound G B₀ := by
    intro b blk hblk
    have hb : b = 0 := by
      have := Builder.lt_of_get hblk
      omega
    subst hb
    rw [hhere] at hblk
    cases hblk
    have hfine := hT.fine hscope
    refine ⟨trivial, ?_, ?_, ?_, ?_, ?_, ?_, hfine.closed, hfine.scope⟩
    · exact fun s hs => hfine.young s (mem_starting.mp hs).1
    · exact fun ins hins => absurd hins List.not_mem_nil
    · exact fun _ ins hins => absurd hins List.not_mem_nil
    · exact fun ins hins => absurd hins List.not_mem_nil
    · intro i ins hi
      simp at hi
    · exact fun c hc => absurd hc List.not_mem_nil
  exact ⟨G, ⟨hblocks₀, hscope, hbound, hsyms₀, hborn, hrid, hP.lent, hP.nodup, hT, hS⟩, hl⟩

theorem Started.here {G : Layout} {B₀ : Builder} {ps : List Symbol} (h : Started G B₀ ps) :
    B₀.blocks[0]? = some { label := "entry" } := by
  rw [h.blocks]
  rfl

theorem Started.length {G : Layout} {B₀ : Builder} {ps : List Symbol} (h : Started G B₀ ps) : B₀.blocks.length = 1 := by
  rw [h.blocks]
  rfl

/-- A body starts with the owned parameters. -/
theorem Started.starting {G : Layout} {B₀ : Builder} {ps : List Symbol} (h : Started G B₀ ps) {s : Symbol} :
    s ∈ G.starting 0 ↔ s ∈ ps ∧ s.kind = .owned := by
  rw [mem_starting, h.scope, h.syms s]
  constructor
  · exact fun hs => ⟨hs.1, (h.born s hs.1).mp hs.2⟩
  · exact fun hs => ⟨hs.1, (h.born s hs.1).mpr hs.2⟩

theorem buildCfg_laidOut (env : Env) (fn : FnDecl) (hnil : (buildCfg env fn).2 = []) :
    ∃ G : Layout, LaidOut G (buildCfg env fn).1 := by
  obtain ⟨G, hstart, hl⟩ := body_started env fn
  let P := declareParams env fn.params { scopes := [[]] }
  let B₀ := P.1.newBlock "entry"
  let L := lowerSeq env fn fn.body 0 B₀
  change Started G B₀ P.2 at hstart
  change Lowered G B₀ 0 L.1 L.2 at hl
  have hhere : B₀.blocks[0]? = some { label := "entry" } := hstart.here
  have hlen₀ : B₀.blocks.length = 1 := hstart.length
  have hu : B₀.Unlinked 0 := unlinked_new hhere
  obtain ⟨hSL, hopen⟩ := hl.sound hstart.tidy hstart.sound (open_new hhere hstart.scope)
  have hback : Back L.1 := hl.back (by omega) hu fun b hpos hlt => by omega
  have hways := hl.leaves hstart.tidy hhere hu
  obtain ⟨hcfg, hkept⟩ := build_body env fn
  have hdiags : L.1.diags = [] := hkept hnil
  refine ⟨G, rfl, ?_, ?_, hstart.rid, hstart.lent, hstart.nodup, ?_, ?_, ?_, ?_⟩
  · rw [hcfg]
    exact lt_of_lt_of_le (by omega) hl.mono.1
  · exact fun s => hstart.starting
  · intro b blk hb
    rw [hcfg] at hb ⊢
    exact (hSL b blk hb).laid hdiags
  · intro b hpos hlt
    rw [hcfg] at hlt ⊢
    exact hback b hpos hlt
  · intro b hlt
    rw [hcfg] at hlt ⊢
    by_cases hb : b = 0
    · subst hb
      have hfirst := hways.start
      rw [hstart.scope, hstart.bound]
      exact hfirst.exit hopen
    · exact (hways.opened b (by omega) hlt).exit hopen
  · intro b hlt s hs hk
    rw [hcfg] at hlt
    exact (hSL b _ (List.getElem?_eq_getElem hlt)).scope hdiags s hs hk

end OwnNet.Lang
