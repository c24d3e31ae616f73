/-
  OwnNet.Lang.Lowering — what lowering a body can do to the builder, said once.

  A `Layout` says of each block which symbols were in scope when it was opened and how many
  symbols there were, and of each symbol whether an instruction starts it (`born`) and which
  resource it denotes (`rid`). `Lowered G` is one rule for each thing a statement list can
  do, with the layout it leaves.

  Proved: `lowerSeq_lowered`: every body is lowered by these rules, for some layout.
-/

import OwnNet.Lang.Cfg
import Mathlib.Order.Nat

namespace OwnNet.Lang

namespace Instr

/-- The symbols whose resource or loan an instruction acts on. -/
def touches : Instr → List Symbol
  | acquire _ _ _ | acquireBuffer _ _ _ | borrowEnd _ _ _ _ => []
  | moveInto _ src _ | aliasJoin _ src _ => [src]
  | release sym _ | use sym _ | overspan sym _ => [sym]
  | invoke _ args _ => args.filterMap Prod.fst
  | borrowStart owner _ _ _ => [owner]
  | return_ sym _ => sym.toList

/-- The symbols an instruction starts: a resource, an alias or a loan. -/
def starts : Instr → List Symbol
  | acquire sym _ _ | acquireBuffer sym _ _ => [sym]
  | moveInto dst _ _ => [dst]
  | aliasJoin handle _ _ => [handle]
  | borrowStart _ binding _ _ => [binding]
  | _ => []

/-- The loans an instruction ends. -/
def ends : Instr → List Nat
  | borrowEnd _ binding _ _ => [binding.id]
  | _ => []

/-- A started resource is its own, an alias that of its source. -/
def Rids (rid : Nat → Nat) : Instr → Prop
  | acquire sym _ _ | acquireBuffer sym _ _ => rid sym.id = sym.id
  | moveInto dst _ _ => rid dst.id = dst.id
  | aliasJoin handle src _ => rid handle.id = rid src.id
  | _ => True

/-- Every operand is of the kind its place asks for. -/
def Kinds : Instr → Prop
  | acquire sym _ _ | acquireBuffer sym _ _ | release sym _ | overspan sym _ => sym.kind = .owned
  | moveInto dst src _ => dst.kind = .owned ∧ src.kind = .owned
  | aliasJoin handle src _ => handle.kind = .owned ∧ src.kind = .owned
  | borrowStart owner binding _ _ | borrowEnd owner binding _ _ =>
    owner.kind = .owned ∧ binding.kind = .borrow ∧ binding.isParamBorrow = false
  | return_ sym _ => ∀ s ∈ sym, s.kind = .owned
  | use _ _ | invoke _ _ _ => True

end Instr

structure Layout where
  scope : Nat → List Symbol
  bound : Nat → Nat
  born : Nat → Bool
  rid : Nat → Nat

namespace Builder

def syms (B : Builder) : List Symbol := B.scopes.flatMap fun sc => sc.map Prod.snd

/-- There is a scope to declare in, and every symbol in scope has been declared. -/
structure Scoped (B : Builder) : Prop where
  some_ : B.scopes ≠ []
  young : ∀ s ∈ B.syms, s.id < B.nextSym

end Builder

/-- `mk` makes the symbol of a declaration out of its identity. -/
def Declares (B : Builder) (mk : Nat → Symbol) (kind : Kind) : Prop :=
  (mk B.nextSym).id = B.nextSym ∧ (mk B.nextSym).kind = kind

/-- Block `b` is opened with the builder's symbols in scope. -/
def Layout.Opens (G : Layout) (B : Builder) (b : Nat) : Prop := G.scope b = B.syms ∧ G.bound b = B.nextSym

/-- What can happen inside block `cur`. -/
inductive Local (G : Layout) (cur : Nat) : Builder → Builder → Prop
  | report (B : Builder) (ds : List Diagnostic) : Local G cur B { B with diags := B.diags ++ ds }
  /-- A value, or an owner nothing starts: that one has been reported. -/
  | bare (B : Builder) (mk : Nat → Symbol) (kind : Kind) : Declares B mk kind → kind ≠ .borrow →
      (kind = .owned → B.diags ≠ []) → G.born B.nextSym = false → G.rid B.nextSym = B.nextSym →
      Local G cur B (B.declare mk).1
  | define (B : Builder) (mk : Nat → Symbol) (ins : Instr) : Declares B mk .owned → ins.starts = [mk B.nextSym] →
      ins.ends = [] → ins.isReturn = false → (∀ s ∈ ins.touches, s ∈ B.syms ∧ s.id < B.nextSym) → ins.Kinds →
      G.born B.nextSym = true → ins.Rids G.rid → Local G cur B ((B.declare mk).1.emit cur ins)
  | emit (B : Builder) (ins : Instr) : ins.starts = [] → ins.ends = [] → ins.isReturn = false →
      (∀ s ∈ ins.touches, s ∈ B.syms) → ins.Kinds → Local G cur B (B.emit cur ins)

inductive Lowered (G : Layout) : Builder → Nat → Builder → Option Nat → Prop
  | stay {B B' : Builder} {cur : Nat} : Local G cur B B' → Lowered G B cur B' (some cur)
  | seq {B B₁ B₂ : Builder} {cur c : Nat} {out : Option Nat} :
      Lowered G B cur B₁ (some c) → Lowered G B₁ c B₂ out → Lowered G B cur B₂ out
  | ret {B : Builder} {cur : Nat} {r : Option Symbol} {line : Int} : (∀ s ∈ r, s ∈ B.syms ∧ s.kind = .owned) →
      Lowered G B cur ((B.emit cur (.return_ r line)).link cur []) none
  | borrow {B B' : Builder} {cur : Nat} {mk : Nat → Symbol} {owner : Symbol} {isMut : Bool} {line : Int}
      {out : Option Nat} : owner ∈ B.syms → owner.kind = .owned → Declares B mk .borrow → G.born B.nextSym = true →
      (mk B.nextSym).isParamBorrow = false →
      Lowered G ((B.pushScope.declare mk).1.emit cur (.borrowStart owner (mk B.nextSym) isMut line)) cur B' out →
      Lowered G B cur (B'.closeBorrow owner (mk B.nextSym) isMut line out) out
  | branch {B B₁ B₂ : Builder} {cur : Nat} {t e : Option Nat} :
      G.Opens B B.blocks.length → G.Opens B (B.blocks.length + 1) →
      Lowered G (B.fork cur).pushScope B.blocks.length B₁ t →
      Lowered G B₁.popScope.pushScope (B.blocks.length + 1) B₂ e →
      (¬(t = none ∧ e = none) → G.Opens B₂.popScope B₂.blocks.length) →
      Lowered G B cur (B₂.popScope.merge t e).1 (B₂.popScope.merge t e).2
  /-- The body may go round before the test is seen again: the header's bound is taken after it. -/
  | loop {B B' : Builder} {cur : Nat} {out : Option Nat} :
      G.scope B.blocks.length = B.syms → G.bound B.blocks.length = B'.nextSym →
      G.Opens B (B.blocks.length + 1) → G.Opens B (B.blocks.length + 2) →
      Lowered G (B.openLoop cur).pushScope (B.blocks.length + 1) B' out →
      Lowered G B cur (B'.popScope.linkIf out [B.blocks.length]) (some (B.blocks.length + 2))

/-! ## The builder's operations -/

namespace Builder

@[simp] theorem report_blocks (B : Builder) (c : Code) (m : String) (l : Int) : (B.report c m l).blocks = B.blocks := rfl

@[simp] theorem pushScope_blocks (B : Builder) : B.pushScope.blocks = B.blocks := rfl

@[simp] theorem pushScope_nextSym (B : Builder) : B.pushScope.nextSym = B.nextSym := rfl

@[simp] theorem pushScope_diags (B : Builder) : B.pushScope.diags = B.diags := rfl

@[simp] theorem pushScope_scopes (B : Builder) : B.pushScope.scopes = [] :: B.scopes := rfl

@[simp] theorem popScope_blocks (B : Builder) : B.popScope.blocks = B.blocks := rfl

@[simp] theorem popScope_nextSym (B : Builder) : B.popScope.nextSym = B.nextSym := rfl

@[simp] theorem popScope_diags (B : Builder) : B.popScope.diags = B.diags := rfl

@[simp] theorem popScope_scopes (B : Builder) : B.popScope.scopes = B.scopes.tail := rfl

@[simp] theorem emit_nextSym (B : Builder) (b : Nat) (ins : Instr) : (B.emit b ins).nextSym = B.nextSym := rfl

@[simp] theorem emit_diags (B : Builder) (b : Nat) (ins : Instr) : (B.emit b ins).diags = B.diags := rfl

@[simp] theorem emit_scopes (B : Builder) (b : Nat) (ins : Instr) : (B.emit b ins).scopes = B.scopes := rfl

@[simp] theorem emit_length (B : Builder) (b : Nat) (ins : Instr) :
    (B.emit b ins).blocks.length = B.blocks.length := by simp [emit]

@[simp] theorem link_nextSym (B : Builder) (b : Nat) (succ : List Nat) : (B.link b succ).nextSym = B.nextSym := rfl

@[simp] theorem link_diags (B : Builder) (b : Nat) (succ : List Nat) : (B.link b succ).diags = B.diags := rfl

@[simp] theorem link_scopes (B : Builder) (b : Nat) (succ : List Nat) : (B.link b succ).scopes = B.scopes := rfl

@[simp] theorem link_length (B : Builder) (b : Nat) (succ : List Nat) :
    (B.link b succ).blocks.length = B.blocks.length := by simp [link]

@[simp] theorem linkIf_nextSym (B : Builder) (b : Option Nat) (succ : List Nat) :
    (B.linkIf b succ).nextSym = B.nextSym := by cases b <;> rfl

@[simp] theorem linkIf_diags (B : Builder) (b : Option Nat) (succ : List Nat) :
    (B.linkIf b succ).diags = B.diags := by cases b <;> rfl

@[simp] theorem linkIf_scopes (B : Builder) (b : Option Nat) (succ : List Nat) :
    (B.linkIf b succ).scopes = B.scopes := by cases b <;> rfl

@[simp] theorem linkIf_length (B : Builder) (b : Option Nat) (succ : List Nat) :
    (B.linkIf b succ).blocks.length = B.blocks.length := by cases b <;> simp [linkIf]

@[simp] theorem newBlock_nextSym (B : Builder) (l : String) : (B.newBlock l).nextSym = B.nextSym := rfl

@[simp] theorem newBlock_diags (B : Builder) (l : String) : (B.newBlock l).diags = B.diags := rfl

@[simp] theorem newBlock_scopes (B : Builder) (l : String) : (B.newBlock l).scopes = B.scopes := rfl

@[simp] theorem newBlock_length (B : Builder) (l : String) :
    (B.newBlock l).blocks.length = B.blocks.length + 1 := by simp [newBlock]

@[simp] theorem declare_blocks (B : Builder) (mk : Nat → Symbol) : (B.declare mk).1.blocks = B.blocks := by
  simp only [declare]
  split <;> rfl

@[simp] theorem declare_nextSym (B : Builder) (mk : Nat → Symbol) : (B.declare mk).1.nextSym = B.nextSym + 1 := by
  simp only [declare]
  split <;> rfl

@[simp] theorem declare_snd (B : Builder) (mk : Nat → Symbol) : (B.declare mk).2 = mk B.nextSym := rfl

theorem declare_diags (B : Builder) (mk : Nat → Symbol) : ∃ ds, (B.declare mk).1.diags = B.diags ++ ds := by
  simp only [declare]
  split
  · exact ⟨_, rfl⟩
  · exact ⟨[], by simp⟩

@[simp] theorem declare_scopes (B : Builder) (mk : Nat → Symbol) :
    (B.declare mk).1.scopes =
      (((mk B.nextSym).name, mk B.nextSym) :: B.scopes.headD []) :: B.scopes.tail := by
  simp only [declare]
  split <;> rfl

@[simp] theorem fork_length (B : Builder) (cur : Nat) : (B.fork cur).blocks.length = B.blocks.length + 2 := by
  simp [fork]

@[simp] theorem fork_nextSym (B : Builder) (cur : Nat) : (B.fork cur).nextSym = B.nextSym := rfl

@[simp] theorem fork_diags (B : Builder) (cur : Nat) : (B.fork cur).diags = B.diags := rfl

@[simp] theorem fork_scopes (B : Builder) (cur : Nat) : (B.fork cur).scopes = B.scopes := rfl

@[simp] theorem openLoop_length (B : Builder) (cur : Nat) : (B.openLoop cur).blocks.length = B.blocks.length + 3 := by
  simp [openLoop]

@[simp] theorem openLoop_nextSym (B : Builder) (cur : Nat) : (B.openLoop cur).nextSym = B.nextSym := rfl

@[simp] theorem openLoop_diags (B : Builder) (cur : Nat) : (B.openLoop cur).diags = B.diags := rfl

@[simp] theorem openLoop_scopes (B : Builder) (cur : Nat) : (B.openLoop cur).scopes = B.scopes := rfl

@[simp] theorem merge_nextSym (B : Builder) (t e : Option Nat) : (B.merge t e).1.nextSym = B.nextSym := by
  unfold merge
  split <;> simp

@[simp] theorem merge_diags (B : Builder) (t e : Option Nat) : (B.merge t e).1.diags = B.diags := by
  unfold merge
  split <;> simp

@[simp] theorem merge_scopes (B : Builder) (t e : Option Nat) : (B.merge t e).1.scopes = B.scopes := by
  unfold merge
  split <;> simp

theorem merge_length (B : Builder) (t e : Option Nat) : B.blocks.length ≤ (B.merge t e).1.blocks.length := by
  unfold merge
  split <;> simp

@[simp] theorem closeBorrow_nextSym (B : Builder) (o b : Symbol) (m : Bool) (l : Int) (out : Option Nat) :
    (B.closeBorrow o b m l out).nextSym = B.nextSym := by cases out <;> rfl

@[simp] theorem closeBorrow_diags (B : Builder) (o b : Symbol) (m : Bool) (l : Int) (out : Option Nat) :
    (B.closeBorrow o b m l out).diags = B.diags := by cases out <;> rfl

@[simp] theorem closeBorrow_scopes (B : Builder) (o b : Symbol) (m : Bool) (l : Int) (out : Option Nat) :
    (B.closeBorrow o b m l out).scopes = B.scopes.tail := by cases out <;> rfl

@[simp] theorem closeBorrow_length (B : Builder) (o b : Symbol) (m : Bool) (l : Int) (out : Option Nat) :
    (B.closeBorrow o b m l out).blocks.length = B.blocks.length := by cases out <;> simp [closeBorrow]

theorem mem_syms_declare {B : Builder} {mk : Nat → Symbol} {s : Symbol} :
    s ∈ (B.declare mk).1.syms ↔ s = mk B.nextSym ∨ s ∈ B.syms := by
  unfold syms
  rw [declare_scopes]
  cases B.scopes <;> simp

theorem visible_mem {B : Builder} {name : String} {s : Symbol} (h : B.visible name = some s) : s ∈ B.syms := by
  unfold visible at h
  obtain ⟨sc, hsc, hs⟩ := List.exists_of_findSome?_eq_some h
  unfold entry at hs
  obtain ⟨e, he, rfl⟩ := Option.map_eq_some_iff.mp hs
  exact List.mem_flatMap.mpr ⟨sc, hsc, List.mem_map.mpr ⟨e, List.mem_of_find?_eq_some he, rfl⟩⟩

/-- A lookup finds a symbol in scope, or reports. -/
theorem lookup_cases (B : Builder) (name : String) (line : Int) :
    (∃ s, B.lookup name line = (B, some s) ∧ s ∈ B.syms) ∨
      ∃ d, B.lookup name line = ({ B with diags := B.diags ++ [d] }, none) := by
  unfold lookup
  cases h : B.visible name with
  | some s => exact Or.inl ⟨s, rfl, visible_mem h⟩
  | none => exact Or.inr ⟨_, rfl⟩

end Builder

/-! ## Growth -/

theorem Local.mono {G : Layout} {cur : Nat} {B B' : Builder} (h : Local G cur B B') :
    B'.blocks.length = B.blocks.length ∧ B.nextSym ≤ B'.nextSym := by
  cases h with
  | report ds => exact ⟨rfl, le_refl _⟩
  | bare mk kind => simp
  | define mk ins => simp
  | emit ins => simp

theorem Lowered.mono {G : Layout} {B B' : Builder} {cur : Nat} {out : Option Nat} (h : Lowered G B cur B' out) :
    B.blocks.length ≤ B'.blocks.length ∧ B.nextSym ≤ B'.nextSym := by
  induction h with
  | stay hl => exact ⟨le_of_eq hl.mono.1.symm, hl.mono.2⟩
  | seq _ _ ih₁ ih₂ => exact ⟨le_trans ih₁.1 ih₂.1, le_trans ih₁.2 ih₂.2⟩
  | ret _ => simp
  | borrow _ _ _ _ _ _ ih =>
    simp only [Builder.emit_length, Builder.declare_blocks, Builder.pushScope_blocks, Builder.emit_nextSym,
      Builder.declare_nextSym, Builder.pushScope_nextSym] at ih
    simp only [Builder.closeBorrow_length, Builder.closeBorrow_nextSym]
    omega
  | @branch B B₁ B₂ cur t e _ _ _ _ _ ih₁ ih₂ =>
    have := Builder.merge_length B₂.popScope t e
    simp only [Builder.fork_length, Builder.pushScope_blocks, Builder.popScope_blocks, Builder.pushScope_nextSym,
      Builder.fork_nextSym, Builder.popScope_nextSym, Builder.merge_nextSym] at ih₁ ih₂ this ⊢
    omega
  | loop _ _ _ _ _ ih =>
    simp only [Builder.openLoop_length, Builder.pushScope_blocks, Builder.pushScope_nextSym, Builder.openLoop_nextSym,
      Builder.linkIf_length, Builder.popScope_blocks, Builder.linkIf_nextSym, Builder.popScope_nextSym] at ih ⊢
    omega

/-- The scopes under the innermost one are untouched, and that one only grows, by new symbols. -/
def Grows (B B' : Builder) : Prop :=
  ∀ top rest, B.scopes = top :: rest →
    ∃ l, B'.scopes = (l ++ top) :: rest ∧ ∀ e ∈ l, B.nextSym ≤ e.2.id ∧ e.2.id < B'.nextSym

theorem Grows.refl_of_eq {B B' : Builder} (h : B'.scopes = B.scopes) : Grows B B' :=
  fun top rest hB => ⟨[], by rw [h, hB]; rfl, fun e he => absurd he List.not_mem_nil⟩

theorem Local.grows {G : Layout} {cur : Nat} {B B' : Builder} (h : Local G cur B B') : Grows B B' := by
  cases h with
  | report ds => exact Grows.refl_of_eq rfl
  | bare mk kind hd =>
    intro top rest hB
    refine ⟨[(_, mk B.nextSym)], by simp [hB]; rfl, ?_⟩
    intro e he
    rw [List.mem_singleton.mp he]
    simp [hd.1]
  | define mk ins hd =>
    intro top rest hB
    refine ⟨[(_, mk B.nextSym)], by simp [hB]; rfl, ?_⟩
    intro e he
    rw [List.mem_singleton.mp he]
    simp [hd.1]
  | emit ins => exact Grows.refl_of_eq rfl

theorem Lowered.grows {G : Layout} {B B' : Builder} {cur : Nat} {out : Option Nat} (h : Lowered G B cur B' out) :
    Grows B B' := by
  induction h with
  | stay hl => exact hl.grows
  | @seq B B₁ B₂ _ _ _ h₁ h₂ ih₁ ih₂ =>
    intro top rest hB
    obtain ⟨l₁, hl₁, hn₁⟩ := ih₁ top rest hB
    obtain ⟨l₂, hl₂, hn₂⟩ := ih₂ _ _ hl₁
    refine ⟨l₂ ++ l₁, by rw [hl₂, List.append_assoc], ?_⟩
    intro e he
    rcases List.mem_append.mp he with he | he
    · exact ⟨le_trans h₁.mono.2 (hn₂ e he).1, (hn₂ e he).2⟩
    · exact ⟨(hn₁ e he).1, lt_of_lt_of_le (hn₁ e he).2 h₂.mono.2⟩
  | ret _ => exact Grows.refl_of_eq rfl
  | @borrow B _ _ mk _ _ _ _ _ _ _ _ _ _ ih =>
    obtain ⟨l, hl, _⟩ := ih _ _ (Builder.declare_scopes B.pushScope mk)
    exact Grows.refl_of_eq (by simp [hl])
  | @branch B B₁ _ _ _ _ _ _ _ _ _ ih₁ ih₂ =>
    obtain ⟨l₁, hl₁, _⟩ := ih₁ [] B.scopes rfl
    obtain ⟨l₂, hl₂, _⟩ := ih₂ [] B₁.scopes.tail rfl
    exact Grows.refl_of_eq (by simp [hl₁, hl₂])
  | @loop B _ _ _ _ _ _ _ _ ih =>
    obtain ⟨l, hl, _⟩ := ih [] B.scopes rfl
    exact Grows.refl_of_eq (by simp [hl])

theorem Grows.some_ {B B' : Builder} (h : Grows B B') (hB : B.scopes ≠ []) : B'.scopes ≠ [] := by
  obtain ⟨top, rest, hs⟩ := List.exists_cons_of_ne_nil hB
  obtain ⟨l, hl, _⟩ := h top rest hs
  rw [hl]
  exact List.cons_ne_nil _ _

/-- A symbol in scope afterwards was in scope before, or is new. -/
theorem Grows.mem_syms {B B' : Builder} (h : Grows B B') (hB : B.scopes ≠ []) {s : Symbol} (hs : s ∈ B'.syms) :
    s ∈ B.syms ∨ (B.nextSym ≤ s.id ∧ s.id < B'.nextSym) := by
  obtain ⟨top, rest, hcons⟩ := List.exists_cons_of_ne_nil hB
  obtain ⟨l, hl, hn⟩ := h top rest hcons
  unfold Builder.syms at hs ⊢
  rw [hl, List.flatMap_cons, List.map_append, List.mem_append, List.mem_append] at hs
  rw [hcons, List.flatMap_cons, List.mem_append]
  rcases hs with (hs | hs) | hs
  · obtain ⟨e, he, rfl⟩ := List.mem_map.mp hs
    exact Or.inr (hn e he)
  · exact Or.inl (Or.inl hs)
  · exact Or.inl (Or.inr hs)

theorem Grows.syms_mem {B B' : Builder} (h : Grows B B') (hB : B.scopes ≠ []) {s : Symbol} (hs : s ∈ B.syms) :
    s ∈ B'.syms := by
  obtain ⟨top, rest, hcons⟩ := List.exists_cons_of_ne_nil hB
  obtain ⟨l, hl, _⟩ := h top rest hcons
  unfold Builder.syms at hs ⊢
  rw [hcons, List.flatMap_cons, List.mem_append] at hs
  rw [hl, List.flatMap_cons, List.map_append, List.mem_append, List.mem_append]
  rcases hs with hs | hs
  · exact Or.inl (Or.inr hs)
  · exact Or.inr hs

theorem Builder.Scoped.grow {B B' : Builder} (h : B.Scoped) (hg : Grows B B') (hn : B.nextSym ≤ B'.nextSym) :
    B'.Scoped := by
  refine ⟨hg.some_ h.some_, ?_⟩
  intro s hs
  rcases hg.mem_syms h.some_ hs with hs | hs
  · exact lt_of_lt_of_le (h.young s hs) hn
  · exact hs.2

theorem Lowered.scoped {G : Layout} {B B' : Builder} {cur : Nat} {out : Option Nat} (h : Lowered G B cur B' out)
    (hB : B.Scoped) : B'.Scoped := hB.grow h.grows h.mono.2

theorem Builder.Scoped.push {B : Builder} (h : B.Scoped) : B.pushScope.Scoped :=
  ⟨List.cons_ne_nil _ _, fun s hs => h.young s (by simpa [Builder.syms] using hs)⟩

theorem Builder.Scoped.declare {B : Builder} {mk : Nat → Symbol} (h : B.Scoped) (hmk : (mk B.nextSym).id = B.nextSym) :
    (B.declare mk).1.Scoped := by
  refine ⟨by rw [Builder.declare_scopes]; exact List.cons_ne_nil _ _, ?_⟩
  intro s hs
  rw [Builder.declare_nextSym]
  rcases Builder.mem_syms_declare.mp hs with rfl | hs
  · omega
  · have := h.young s hs
    omega

theorem Builder.Scoped.of_eq {B B' : Builder} (h : B.Scoped) (hs : B'.scopes = B.scopes) (hn : B.nextSym ≤ B'.nextSym) :
    B'.Scoped := h.grow (Grows.refl_of_eq hs) hn

/-- What a body declared goes out of scope with it. -/
theorem Lowered.pop {G : Layout} {B B' : Builder} {cur : Nat} {out : Option Nat} {top : Scope} {rest : List Scope}
    (h : Lowered G B cur B' out) (hB : B.scopes = top :: rest) : B'.popScope.scopes = rest := by
  obtain ⟨l, hl, _⟩ := h.grows top rest hB
  simp [hl]

/-! ## Every body is lowered by the rules -/

/-- The same layout of the first blocks and symbols. -/
structure Layout.Agrees (G G' : Layout) (blocks syms : Nat) : Prop where
  scope : ∀ b < blocks, G'.scope b = G.scope b
  bound : ∀ b < blocks, G'.bound b = G.bound b
  born : ∀ s < syms, G'.born s = G.born s
  rid : ∀ s < syms, G'.rid s = G.rid s

namespace Layout

theorem Agrees.refl (G : Layout) (m n : Nat) : G.Agrees G m n :=
  ⟨fun _ _ => rfl, fun _ _ => rfl, fun _ _ => rfl, fun _ _ => rfl⟩

theorem Agrees.trans {G₀ G₁ G₂ : Layout} {m n m' n' : Nat} (h : G₀.Agrees G₁ m n) (h' : G₁.Agrees G₂ m' n')
    (hm : m ≤ m') (hn : n ≤ n') : G₀.Agrees G₂ m n where
  scope b hb := (h'.scope b (lt_of_lt_of_le hb hm)).trans (h.scope b hb)
  bound b hb := (h'.bound b (lt_of_lt_of_le hb hm)).trans (h.bound b hb)
  born s hs := (h'.born s (lt_of_lt_of_le hs hn)).trans (h.born s hs)
  rid s hs := (h'.rid s (lt_of_lt_of_le hs hn)).trans (h.rid s hs)

/-- Symbol `n` recorded. -/
def bear (G : Layout) (n : Nat) (b : Bool) (r : Nat) : Layout :=
  { G with born := Function.update G.born n b, rid := Function.update G.rid n r }

/-- Block `b` recorded. -/
def note (G : Layout) (b : Nat) (scope : List Symbol) (bound : Nat) : Layout :=
  { G with scope := Function.update G.scope b scope, bound := Function.update G.bound b bound }

theorem Agrees.weaken {G G' : Layout} {m n m' n' : Nat} (h : G.Agrees G' m n) (hm : m' ≤ m) (hn : n' ≤ n) :
    G.Agrees G' m' n' := (Agrees.refl G m' n').trans h hm hn

theorem agrees_bear (G : Layout) (m n : Nat) (b : Bool) (r : Nat) : G.Agrees (G.bear n b r) m n where
  scope _ _ := rfl
  bound _ _ := rfl
  born _ hs := Function.update_of_ne (ne_of_lt hs) _ _
  rid _ hs := Function.update_of_ne (ne_of_lt hs) _ _

theorem agrees_note (G : Layout) {m b : Nat} (n : Nat) (scope : List Symbol) (bound : Nat) (h : m ≤ b) :
    G.Agrees (G.note b scope bound) m n where
  scope _ hc := Function.update_of_ne (ne_of_lt (lt_of_lt_of_le hc h)) _ _
  bound _ hc := Function.update_of_ne (ne_of_lt (lt_of_lt_of_le hc h)) _ _
  born _ _ := rfl
  rid _ _ := rfl

theorem note_opens (G : Layout) (B : Builder) (b : Nat) : (G.note b B.syms B.nextSym).Opens B b :=
  ⟨Function.update_self _ _ _, Function.update_self _ _ _⟩

theorem Agrees.opens {G G' : Layout} {m n : Nat} (h : G.Agrees G' m n) {B : Builder} {b : Nat} (hb : b < m)
    (ho : G.Opens B b) : G'.Opens B b := ⟨(h.scope b hb).trans ho.1, (h.bound b hb).trans ho.2⟩

end Layout

theorem Local.congr {G G' : Layout} {cur : Nat} {B B' : Builder} (h : Local G cur B B')
    (hG : G.Agrees G' B'.blocks.length B'.nextSym) : Local G' cur B B' := by
  cases h with
  | report ds => exact .report B ds
  | bare mk kind hd hk hown hborn hrid =>
    have hlt : B.nextSym < (B.declare mk).1.nextSym := by simp
    exact .bare B mk kind hd hk hown ((hG.born _ hlt).trans hborn) ((hG.rid _ hlt).trans hrid)
  | define mk ins hd hs he hr ht ho hborn hrids =>
    have hlt : B.nextSym < ((B.declare mk).1.emit cur ins).nextSym := by simp
    refine .define B mk ins hd hs he hr ht ho ((hG.born _ hlt).trans hborn) ?_
    have hnew : G'.rid (mk B.nextSym).id = G.rid (mk B.nextSym).id := by
      rw [hd.1]
      exact hG.rid _ hlt
    cases ins with
    | acquire sym _ _ =>
      cases hs
      exact hnew.trans hrids
    | acquireBuffer sym _ _ =>
      cases hs
      exact hnew.trans hrids
    | moveInto dst src _ =>
      cases hs
      exact hnew.trans hrids
    | aliasJoin handle src _ =>
      cases hs
      have hold : G'.rid src.id = G.rid src.id := hG.rid _ (lt_trans (ht src List.mem_cons_self).2 hlt)
      show G'.rid (mk B.nextSym).id = G'.rid src.id
      rw [hnew, hold]
      exact hrids
    | _ => trivial
  | emit ins hs he hr ht ho => exact .emit B ins hs he hr ht ho

theorem Lowered.congr {G G' : Layout} {B B' : Builder} {cur : Nat} {out : Option Nat} (h : Lowered G B cur B' out)
    (hG : G.Agrees G' B'.blocks.length B'.nextSym) : Lowered G' B cur B' out := by
  induction h with
  | stay hl => exact .stay (hl.congr hG)
  | seq _ h₂ ih₁ ih₂ => exact .seq (ih₁ (hG.weaken h₂.mono.1 h₂.mono.2)) (ih₂ hG)
  | ret hr => exact .ret hr
  | borrow ho hk hd hborn hp h ih =>
    have hn := h.mono.2
    simp only [Builder.emit_nextSym, Builder.declare_nextSym, Builder.pushScope_nextSym] at hn
    simp only [Builder.closeBorrow_length, Builder.closeBorrow_nextSym] at hG
    exact .borrow ho hk hd ((hG.born _ (by omega)).trans hborn) hp (ih hG)
  | @branch B B₁ B₂ cur t e ho₁ ho₂ h₁ h₂ ho₃ ih₁ ih₂ =>
    have hm₁ := h₁.mono
    have hm₂ := h₂.mono
    have hlen := Builder.merge_length B₂.popScope t e
    have hnew : ¬(t = none ∧ e = none) → (B₂.popScope.merge t e).1.blocks.length = B₂.blocks.length + 1 := by
      intro hte
      simp [Builder.merge, hte]
    simp only [Builder.fork_length, Builder.pushScope_blocks, Builder.popScope_blocks, Builder.pushScope_nextSym,
      Builder.popScope_nextSym, Builder.merge_nextSym] at hm₁ hm₂ hlen hG
    refine .branch (hG.opens (by omega) ho₁) (hG.opens (by omega) ho₂) (ih₁ (hG.weaken (by omega) (by omega)))
      (ih₂ (hG.weaken (by omega) (by omega))) ?_
    intro hte
    exact hG.opens (by have := hnew hte; omega) (ho₃ hte)
  | @loop B B' cur out hs hb ho₁ ho₂ h ih =>
    have hm := h.mono
    simp only [Builder.openLoop_length, Builder.pushScope_blocks, Builder.pushScope_nextSym, Builder.openLoop_nextSym,
      Builder.linkIf_length, Builder.popScope_blocks, Builder.linkIf_nextSym, Builder.popScope_nextSym] at hm hG
    exact .loop ((hG.scope _ (by omega)).trans hs) ((hG.bound _ (by omega)).trans hb) (hG.opens (by omega) ho₁)
      (hG.opens (by omega) ho₂) (ih hG)

/-- Lowering by the rules, for some layout extending any given one. -/
def Lowers (B : Builder) (cur : Nat) (B' : Builder) (out : Option Nat) : Prop :=
  ∀ G : Layout, ∃ G', G.Agrees G' B.blocks.length B.nextSym ∧ Lowered G' B cur B' out

namespace Lowers

theorem seq {B B₁ B₂ : Builder} {cur c : Nat} {out : Option Nat} (h₁ : Lowers B cur B₁ (some c))
    (h₂ : Lowers B₁ c B₂ out) : Lowers B cur B₂ out := by
  intro G
  obtain ⟨G₁, hG₁, hl₁⟩ := h₁ G
  obtain ⟨G₂, hG₂, hl₂⟩ := h₂ G₁
  exact ⟨G₂, hG₁.trans hG₂ hl₁.mono.1 hl₁.mono.2, .seq (hl₁.congr hG₂) hl₂⟩

theorem report (B : Builder) (cur : Nat) (ds : List Diagnostic) :
    Lowers B cur { B with diags := B.diags ++ ds } (some cur) :=
  fun G => ⟨G, Layout.Agrees.refl _ _ _, .stay (.report B ds)⟩

theorem same (B : Builder) (cur : Nat) : Lowers B cur B (some cur) := by
  have := report B cur []
  simpa using this

theorem bare {B : Builder} {mk : Nat → Symbol} {kind : Kind} (cur : Nat) (hd : Declares B mk kind)
    (hk : kind ≠ .borrow) (hown : kind = .owned → B.diags ≠ []) : Lowers B cur (B.declare mk).1 (some cur) := by
  intro G
  refine ⟨G.bear B.nextSym false B.nextSym, G.agrees_bear _ _ _ _, .stay (.bare B mk kind hd hk hown ?_ ?_)⟩
  · exact Function.update_self _ _ _
  · exact Function.update_self _ _ _

theorem emit {B : Builder} {ins : Instr} (cur : Nat) (hs : ins.starts = []) (he : ins.ends = [])
    (hr : ins.isReturn = false) (ht : ∀ s ∈ ins.touches, s ∈ B.syms) (ho : ins.Kinds) :
    Lowers B cur (B.emit cur ins) (some cur) :=
  fun G => ⟨G, Layout.Agrees.refl _ _ _, .stay (.emit B ins hs he hr ht ho)⟩

/-- An instruction that starts a resource of its own. -/
theorem defineRoot {B : Builder} {mk : Nat → Symbol} {ins : Instr} (cur : Nat) (hd : Declares B mk .owned)
    (hs : ins.starts = [mk B.nextSym]) (he : ins.ends = []) (hr : ins.isReturn = false)
    (ht : ∀ s ∈ ins.touches, s ∈ B.syms ∧ s.id < B.nextSym) (ho : ins.Kinds)
    (hrids : ∀ rid : Nat → Nat, rid B.nextSym = B.nextSym → ins.Rids rid) :
    Lowers B cur ((B.declare mk).1.emit cur ins) (some cur) := by
  intro G
  refine ⟨G.bear B.nextSym true B.nextSym, G.agrees_bear _ _ _ _, .stay (.define B mk ins hd hs he hr ht ho ?_ ?_)⟩
  · exact Function.update_self _ _ _
  · exact hrids _ (Function.update_self _ _ _)

theorem defineAlias {B : Builder} {mk : Nat → Symbol} {src : Symbol} (cur : Nat) (line : Int)
    (hd : Declares B mk .owned) (hsrc : src ∈ B.syms) (hlt : src.id < B.nextSym) (hk : src.kind = .owned) :
    Lowers B cur ((B.declare mk).1.emit cur (.aliasJoin (mk B.nextSym) src line)) (some cur) := by
  intro G
  have hag := G.agrees_bear B.blocks.length B.nextSym true (G.rid src.id)
  refine ⟨_, hag, .stay (.define B mk _ hd rfl rfl rfl ?_ ⟨hd.2, hk⟩ (Function.update_self _ _ _) ?_)⟩
  · intro s hs
    rw [show s = src from List.mem_singleton.mp hs]
    exact ⟨hsrc, hlt⟩
  · show _ = (G.bear B.nextSym true (G.rid src.id)).rid src.id
    rw [hag.rid _ hlt, hd.1]
    exact Function.update_self _ _ _

theorem ret {B : Builder} {r : Option Symbol} (cur : Nat) (line : Int) (hr : ∀ s ∈ r, s ∈ B.syms ∧ s.kind = .owned) :
    Lowers B cur ((B.emit cur (.return_ r line)).link cur []) none :=
  fun G => ⟨G, Layout.Agrees.refl _ _ _, .ret hr⟩

theorem borrow {B B' : Builder} {cur : Nat} {mk : Nat → Symbol} {owner : Symbol} {isMut : Bool} {line : Int}
    {out : Option Nat} (ho : owner ∈ B.syms) (hk : owner.kind = .owned) (hd : Declares B mk .borrow)
    (hp : (mk B.nextSym).isParamBorrow = false)
    (h : Lowers ((B.pushScope.declare mk).1.emit cur (.borrowStart owner (mk B.nextSym) isMut line)) cur B' out) :
    Lowers B cur (B'.closeBorrow owner (mk B.nextSym) isMut line out) out := by
  intro G
  obtain ⟨G', hG', hl⟩ := h (G.bear B.nextSym true B.nextSym)
  simp only [Builder.emit_length, Builder.declare_blocks, Builder.pushScope_blocks, Builder.emit_nextSym,
    Builder.declare_nextSym, Builder.pushScope_nextSym] at hG'
  refine ⟨G', (G.agrees_bear _ _ _ _).trans hG' (le_refl _) (by omega), .borrow ho hk hd ?_ hp hl⟩
  rw [hG'.born _ (by omega)]
  exact Function.update_self _ _ _

theorem branch {B B₁ B₂ : Builder} {cur : Nat} {t e : Option Nat}
    (h₁ : Lowers (B.fork cur).pushScope B.blocks.length B₁ t)
    (h₂ : Lowers B₁.popScope.pushScope (B.blocks.length + 1) B₂ e) :
    Lowers B cur (B₂.popScope.merge t e).1 (B₂.popScope.merge t e).2 := by
  intro G
  let Ga := G.note B.blocks.length B.syms B.nextSym
  let Gb := Ga.note (B.blocks.length + 1) B.syms B.nextSym
  obtain ⟨G₁, hG₁, hl₁⟩ := h₁ Gb
  obtain ⟨G₂, hG₂, hl₂⟩ := h₂ G₁
  let G₃ := G₂.note B₂.blocks.length B₂.popScope.syms B₂.nextSym
  have hm₁ := hl₁.mono
  have hm₂ := hl₂.mono
  simp only [Builder.fork_length, Builder.pushScope_blocks, Builder.popScope_blocks, Builder.pushScope_nextSym,
    Builder.popScope_nextSym, Builder.fork_nextSym] at hG₁ hG₂ hm₁ hm₂
  have hab : G.Agrees Gb B.blocks.length B.nextSym :=
    (G.agrees_note B.nextSym B.syms B.nextSym (le_refl _)).trans
      (Ga.agrees_note B.nextSym B.syms B.nextSym (Nat.le_succ _)) (le_refl _) (le_refl _)
  have h₁₃ : G₁.Agrees G₃ B₁.blocks.length B₁.nextSym :=
    hG₂.trans (G₂.agrees_note (m := B₂.blocks.length) B₂.nextSym _ _ (le_refl _)) hm₂.1 hm₂.2
  have hb₃ : Gb.Agrees G₃ (B.blocks.length + 2) B.nextSym := hG₁.trans h₁₃ (by omega) (by omega)
  refine ⟨G₃, hab.trans hb₃ (by omega) (le_refl _), .branch ?_ ?_ (hl₁.congr h₁₃) (hl₂.congr ?_) ?_⟩
  · have hopen : Gb.Opens B B.blocks.length :=
      (Ga.agrees_note (m := B.blocks.length + 1) B.nextSym B.syms B.nextSym (le_refl _)).opens (by omega)
        (G.note_opens B B.blocks.length)
    exact hb₃.opens (by omega) hopen
  · exact hb₃.opens (by omega) (Ga.note_opens B (B.blocks.length + 1))
  · exact G₂.agrees_note _ _ _ (le_refl _)
  · intro _
    exact G₂.note_opens B₂.popScope B₂.blocks.length

theorem loop {B B' : Builder} {cur : Nat} {out : Option Nat}
    (h : Lowers (B.openLoop cur).pushScope (B.blocks.length + 1) B' out) :
    Lowers B cur (B'.popScope.linkIf out [B.blocks.length]) (some (B.blocks.length + 2)) := by
  intro G
  let Ga := G.note B.blocks.length B.syms B'.nextSym
  let Gb := Ga.note (B.blocks.length + 1) B.syms B.nextSym
  let Gc := Gb.note (B.blocks.length + 2) B.syms B.nextSym
  obtain ⟨G', hG', hl⟩ := h Gc
  simp only [Builder.openLoop_length, Builder.pushScope_blocks, Builder.pushScope_nextSym,
    Builder.openLoop_nextSym] at hG'
  have hbc : Gb.Agrees Gc (B.blocks.length + 2) B.nextSym := Gb.agrees_note _ _ _ (le_refl _)
  have hac : Ga.Agrees Gc (B.blocks.length + 1) B.nextSym :=
    (Ga.agrees_note _ _ _ (le_refl _)).trans hbc (by omega) (le_refl _)
  have hc : G.Agrees Gc B.blocks.length B.nextSym :=
    (G.agrees_note _ _ _ (le_refl _)).trans hac (by omega) (le_refl _)
  refine ⟨G', hc.trans hG' (by omega) (le_refl _), .loop ?_ ?_ ?_ ?_ hl⟩
  · rw [hG'.scope _ (by omega), hac.scope _ (by omega)]
    exact Function.update_self _ _ _
  · rw [hG'.bound _ (by omega), hac.bound _ (by omega)]
    exact Function.update_self _ _ _
  · exact hG'.opens (by omega) (hbc.opens (by omega) (Ga.note_opens B _))
  · exact hG'.opens (by omega) (Gb.note_opens B _)

end Lowers

/-! ### Statements within a block -/

/-- `B'` is `B` with more reported. -/
def Reports (B B' : Builder) : Prop := ∃ ds, B' = { B with diags := B.diags ++ ds }

namespace Reports

theorem refl (B : Builder) : Reports B B := ⟨[], by simp⟩

theorem one (B : Builder) (c : Code) (m : String) (l : Int) : Reports B (B.report c m l) := ⟨_, rfl⟩

theorem trans {B B₁ B₂ : Builder} (h₁ : Reports B B₁) (h₂ : Reports B₁ B₂) : Reports B B₂ := by
  obtain ⟨ds₁, rfl⟩ := h₁
  obtain ⟨ds₂, rfl⟩ := h₂
  exact ⟨ds₁ ++ ds₂, by simp⟩

theorem lookup (B : Builder) (name : String) (line : Int) : Reports B (B.lookup name line).1 := by
  rcases B.lookup_cases name line with ⟨s, hs, _⟩ | ⟨d, hd⟩
  · rw [hs]
    exact refl B
  · rw [hd]
    exact ⟨[d], rfl⟩

theorem syms {B B' : Builder} (h : Reports B B') : B'.syms = B.syms := by
  obtain ⟨ds, rfl⟩ := h
  rfl

theorem lowers {B B' : Builder} (h : Reports B B') (cur : Nat) : Lowers B cur B' (some cur) := by
  obtain ⟨ds, rfl⟩ := h
  exact Lowers.report B cur ds

end Reports

theorem Lowers.scoped {B B' : Builder} {cur : Nat} {out : Option Nat} (h : Lowers B cur B' out) (hB : B.Scoped) :
    B'.Scoped := by
  obtain ⟨G, _, hl⟩ := h ⟨fun _ => [], fun _ => 0, fun _ => false, id⟩
  exact hl.scoped hB

/-- After a body the builder is back in the scopes it was pushed from. -/
theorem Lowers.pop {B B₀ B' : Builder} {cur : Nat} {out : Option Nat} (h : Lowers B₀.pushScope cur B' out)
    (hB : B.Scoped) (hs : B₀.scopes = B.scopes) (hn : B.nextSym ≤ B₀.nextSym) : B'.popScope.Scoped := by
  obtain ⟨G, _, hl⟩ := h ⟨fun _ => [], fun _ => 0, fun _ => false, id⟩
  exact hB.of_eq ((hl.pop rfl).trans hs) (le_trans hn hl.mono.2)

theorem lookup_mem {B : Builder} {name : String} {line : Int} {s : Symbol} (h : (B.lookup name line).2 = some s) :
    s ∈ B.syms := by
  rcases B.lookup_cases name line with ⟨t, ht, hmem⟩ | ⟨d, hd⟩
  · rw [ht] at h
    cases h
    exact hmem
  · rw [hd] at h
    cases h

theorem checkSize_reports (name : String) (size : Option Expr) (line : Int) (B : Builder) :
    Reports B (checkSize name size line B) := by
  unfold checkSize
  split
  · exact Reports.one _ _ _ _
  · have hl := Reports.lookup B
    dsimp only
    split
    · exact hl _ _
    · split
      · exact (hl _ _).trans (Reports.one _ _ _ _)
      · split
        · exact (hl _ _).trans (Reports.one _ _ _ _)
        · exact hl _ _
  · exact Reports.refl B

theorem lookupArgs_reports (args : List Expr) (B : Builder) : Reports B (lookupArgs args B) := by
  induction args generalizing B with
  | nil => exact Reports.refl B
  | cons a rest ih =>
    cases a with
    | varRef name line => exact (Reports.lookup B name line).trans (ih _)
    | _ => exact ih B

theorem resolveArgs_spec (args : List (Expr × Effect)) (B : Builder) :
    Reports B (resolveArgs args B).1 ∧ ∀ s ∈ (resolveArgs args B).2.filterMap Prod.fst, s ∈ B.syms := by
  induction args generalizing B with
  | nil => exact ⟨Reports.refl B, fun s hs => absurd hs List.not_mem_nil⟩
  | cons a rest ih =>
    obtain ⟨e, eff⟩ := a
    cases e with
    | varRef name line =>
      have hl := Reports.lookup B name line
      obtain ⟨hr, hm⟩ := ih (B.lookup name line).1
      refine ⟨hl.trans hr, ?_⟩
      intro s hs
      simp only [resolveArgs, List.mem_filterMap] at hs
      obtain ⟨p, hp, hps⟩ := hs
      rcases List.mem_cons.mp hp with rfl | hp
      · exact lookup_mem hps
      · rw [← hl.syms]
        exact hm s (List.mem_filterMap.mpr ⟨p, hp, hps⟩)
    | _ =>
      refine ⟨(ih B).1, ?_⟩
      intro s hs
      simp only [resolveArgs, List.mem_filterMap] at hs
      obtain ⟨p, hp, hps⟩ := hs
      rcases List.mem_cons.mp hp with rfl | hp
      · cases hps
      · exact (ih B).2 s (List.mem_filterMap.mpr ⟨p, hp, hps⟩)

section

variable (env : Env) (fn : FnDecl)

theorem lowerBuffer_lowers (name : String) (line : Int) (mode : String) (size : Option Expr)
    (options : List (String × Expr)) (bline : Int) (ns : String) (col : Int) (dups : List String) (cur : Nat)
    (B : Builder) : Lowers B cur (lowerBuffer env name line mode size options bline ns col dups cur B) (some cur) := by
  unfold lowerBuffer
  dsimp only
  split
  · exact ((Reports.one B _ _ _).lowers cur).seq
      (@Lowers.bare _ _ .owned cur ⟨rfl, rfl⟩ (by decide) fun _ => by simp [Builder.report])
  · split
    · exact ((Reports.one B _ _ _).lowers cur).seq
        (@Lowers.bare _ _ .owned cur ⟨rfl, rfl⟩ (by decide) fun _ => by simp [Builder.report])
    next m _ =>
      have hsize := checkSize_reports name size bline B
      refine (hsize.lowers cur).seq (((Reports.lowers ⟨_, rfl⟩ cur)).seq (Lowers.defineRoot cur ⟨rfl, rfl⟩ rfl rfl rfl ?_ rfl ?_))
      · intro s hs
        exact absurd hs List.not_mem_nil
      · intro rid h
        exact h

theorem resource_reports (resource : String) (line : Int) (B : Builder) :
    Reports B (if resource ∈ env.resourceNames then B else B.report .own030 s!"undefined resource '{resource}'" line) := by
  split
  · exact Reports.refl B
  · exact Reports.one _ _ _ _

theorem lowerLet_lowers (name : String) (rhs : Expr) (line : Int) (cur : Nat) {B : Builder} (hB : B.Scoped) :
    Lowers B cur (lowerLet env name rhs line cur B) (some cur) := by
  cases rhs with
  | acquire resource args rline =>
    refine ((resource_reports env resource rline B).lowers cur).seq
      (Lowers.defineRoot cur ⟨rfl, rfl⟩ rfl rfl rfl ?_ rfl fun rid h => h)
    intro s hs
    exact absurd hs List.not_mem_nil
  | buffer mode size options bline ns col dups => exact lowerBuffer_lowers env name line mode size options bline ns col dups cur B
  | move var rline =>
    simp only [lowerLet]
    rcases B.lookup_cases var rline with ⟨src, hs, hmem⟩ | ⟨d, hd⟩
    · simp only [hs]
      split
      · exact ((Reports.one B _ _ _).lowers cur).seq
          (@Lowers.bare _ _ .owned cur ⟨rfl, rfl⟩ (by decide) fun _ => by simp [Builder.report])
      next hk =>
        refine Lowers.defineRoot cur ⟨rfl, rfl⟩ rfl rfl rfl ?_ ⟨rfl, not_not.mp hk⟩ fun rid h => h
        intro s hs
        rw [show s = src from List.mem_singleton.mp hs]
        exact ⟨hmem, hB.young src hmem⟩
    · simp only [hd]
      exact (Lowers.report B cur [d]).seq
        (@Lowers.bare _ _ .owned cur ⟨rfl, rfl⟩ (by decide) fun _ => by simp)
  | varRef var rline =>
    refine (Reports.lowers ?_ cur).seq (@Lowers.bare _ _ .plain cur ⟨rfl, rfl⟩ (by decide) fun h => by cases h)
    have hl := Reports.lookup B var rline
    split
    · exact hl
    · split
      · exact hl.trans (Reports.one _ _ _ _)
      · exact hl
  | intLit value iline => exact @Lowers.bare _ _ .plain cur ⟨rfl, rfl⟩ (by decide) fun h => by cases h

theorem lowerAliasJoin_lowers (name src : String) (line : Int) (cur : Nat) {B : Builder} (hB : B.Scoped) :
    Lowers B cur (lowerAliasJoin name src line cur B) (some cur) := by
  simp only [lowerAliasJoin]
  rcases B.lookup_cases src line with ⟨s, hs, hmem⟩ | ⟨d, hd⟩
  · simp only [hs]
    split
    · exact ((Reports.one B _ _ _).lowers cur).seq
        (@Lowers.bare _ _ .owned cur ⟨rfl, rfl⟩ (by decide) fun _ => by simp [Builder.report])
    next hk => exact Lowers.defineAlias cur line ⟨rfl, rfl⟩ hmem (hB.young s hmem) (by simpa using hk)
  · simp only [hd]
    exact (Lowers.report B cur [d]).seq (@Lowers.bare _ _ .owned cur ⟨rfl, rfl⟩ (by decide) fun _ => by simp)

theorem lowerCall_lowers (callee : String) (args : List Expr) (line : Int) (cur : Nat) (B : Builder) :
    Lowers B cur (lowerCall env callee args line cur B) (some cur) := by
  unfold lowerCall
  split
  · exact ((Reports.one B _ _ _).trans (lookupArgs_reports _ _)).lowers cur
  next effects _ =>
    split
    · exact ((Reports.one B _ _ _).trans (lookupArgs_reports _ _)).lowers cur
    · obtain ⟨hr, hm⟩ := resolveArgs_spec (args.zip effects) B
      refine (hr.lowers cur).seq (Lowers.emit cur rfl rfl rfl ?_ trivial)
      intro s hs
      rw [hr.syms]
      exact hm s hs

theorem lowerOwned_lowers (var : String) (line : Int) (cannot : String) {mk : Symbol → Instr}
    (hmk : ∀ s, (mk s).starts = [] ∧ (mk s).ends = [] ∧ (mk s).isReturn = false ∧ (mk s).touches = [s] ∧
      ((mk s).Kinds ↔ s.kind = .owned)) (cur : Nat)
    (B : Builder) : Lowers B cur (lowerOwned var line cannot mk cur B) (some cur) := by
  simp only [lowerOwned]
  rcases B.lookup_cases var line with ⟨s, hs, hmem⟩ | ⟨d, hd⟩
  · simp only [hs]
    split
    · exact (Reports.one B _ _ _).lowers cur
    next hk =>
      obtain ⟨h₁, h₂, h₃, h₄, h₅⟩ := hmk s
      refine Lowers.emit cur h₁ h₂ h₃ ?_ (h₅.mpr (not_not.mp hk))
      intro t ht
      rw [h₄, List.mem_singleton] at ht
      rwa [ht]
  · simp only [hd]
    exact Lowers.report B cur [d]

theorem lowerUse_lowers (var : String) (line : Int) (cur : Nat) (B : Builder) :
    Lowers B cur (lowerUse var line cur B) (some cur) := by
  simp only [lowerUse]
  rcases B.lookup_cases var line with ⟨s, hs, hmem⟩ | ⟨d, hd⟩
  · simp only [hs]
    refine Lowers.emit cur rfl rfl rfl ?_ trivial
    intro t ht
    rwa [show t = s from List.mem_singleton.mp ht]
  · simp only [hd]
    exact Lowers.report B cur [d]

theorem returned_spec (var : Option String) (line : Int) (B : Builder) :
    Reports B (returned env fn var line B).1 ∧ ∀ s ∈ (returned env fn var line B).2, s ∈ B.syms ∧ s.kind = .owned := by
  have hnone : ∀ s ∈ (none : Option Symbol), s ∈ B.syms ∧ s.kind = .owned := fun s hs => by cases hs
  unfold returned
  split
  · exact ⟨Reports.refl B, hnone⟩
  · exact ⟨Reports.one _ _ _ _, hnone⟩
  next v _ =>
    have hl := Reports.lookup B v line
    dsimp only
    split
    · exact ⟨hl, hnone⟩
    · exact ⟨hl.trans (Reports.one _ _ _ _), hnone⟩
  next v ret _ =>
    have hl := Reports.lookup B v line
    dsimp only
    split
    · exact ⟨hl, hnone⟩
    next sym hsym =>
      have hsome : sym.kind = .owned → ∀ s ∈ some sym, s ∈ B.syms ∧ s.kind = .owned := by
        intro hk s hs
        cases hs
        exact ⟨lookup_mem hsym, hk⟩
      split
      · exact ⟨hl.trans (Reports.one _ _ _ _), hnone⟩
      next hborrow =>
        split
        · split
          · exact ⟨hl.trans (Reports.one _ _ _ _), hnone⟩
          next hk => exact ⟨hl.trans (Reports.one _ _ _ _), hsome (not_not.mp hk)⟩
        · split
          · exact ⟨hl, hnone⟩
          next hplain =>
            refine ⟨hl, hsome ?_⟩
            cases hk : sym.kind with
            | owned => rfl
            | borrow => exact absurd hk hborrow
            | plain => exact absurd hk hplain

/-! ### Statements and bodies -/

mutual

theorem lowerStmt_lowers (st : Stmt) (cur : Nat) {B : Builder} (hB : B.Scoped) :
    Lowers B cur (lowerStmt env fn st cur B).1 (lowerStmt env fn st cur B).2 := by
  cases st with
  | let_ name rhs line => exact lowerLet_lowers env name rhs line cur hB
  | release var line => exact lowerOwned_lowers var line "release" (fun s => ⟨rfl, rfl, rfl, rfl, Iff.rfl⟩) cur B
  | use var line => exact lowerUse_lowers var line cur B
  | overspan var line =>
    exact lowerOwned_lowers var line "take a full-length view of" (fun s => ⟨rfl, rfl, rfl, rfl, Iff.rfl⟩) cur B
  | call callee args line => exact lowerCall_lowers env callee args line cur B
  | aliasJoin name src line => exact lowerAliasJoin_lowers name src line cur hB
  | borrowBlock owner binding kind body line =>
    simp only [lowerStmt]
    rcases B.lookup_cases owner line with ⟨o, ho, hmem⟩ | ⟨d, hd⟩
    · simp only [ho]
      split
      · exact (Reports.one B _ _ _).lowers cur
      next hk =>
        refine Lowers.borrow hmem (by simpa using hk) ⟨rfl, rfl⟩ rfl (lowerSeq_lowers body cur ?_)
        exact (@Builder.Scoped.declare _ (fun id => _) hB.push rfl).of_eq rfl (le_refl _)
    · simp only [hd]
      exact Lowers.report B cur [d]
  | if_ c thenBody elseBody line =>
    have h₁ := lowerSeq_lowers thenBody B.blocks.length (show (B.fork cur).Scoped from hB.of_eq rfl (le_refl _)).push
    exact Lowers.branch h₁ (lowerSeq_lowers elseBody (B.blocks.length + 1) (h₁.pop hB rfl (le_refl _)).push)
  | while_ c body line =>
    exact Lowers.loop (lowerSeq_lowers body _ (show (B.openLoop cur).Scoped from hB.of_eq rfl (le_refl _)).push)
  | return_ var line =>
    obtain ⟨hr, hm⟩ := returned_spec env fn var line B
    refine (hr.lowers cur).seq (Lowers.ret cur line ?_)
    intro s hs
    rw [hr.syms]
    exact hm s hs
  | subscribe source line => exact Lowers.same B cur

theorem lowerSeq_lowers (sts : List Stmt) (cur : Nat) {B : Builder} (hB : B.Scoped) :
    Lowers B cur (lowerSeq env fn sts cur B).1 (lowerSeq env fn sts cur B).2 := by
  cases sts with
  | nil => exact Lowers.same B cur
  | cons st rest =>
    have h := lowerStmt_lowers st cur hB
    simp only [lowerSeq]
    split
    next hnone =>
      rw [hnone] at h
      exact h
    next c hc =>
      rw [hc] at h
      exact h.seq (lowerSeq_lowers rest c (h.scoped hB))

end

end

end OwnNet.Lang
