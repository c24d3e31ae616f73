/-
  OwnNet.Lang.Scoping — what the blocks of a lowered body know: along every edge, the
  symbols started and not ended before an instruction include all it acts on.

  `known` is carried through a block: what was in scope when it was opened and what its
  instructions have started since.

  Proved: `Lowered.sound`: lowering keeps every block fitting its layout.
-/

import OwnNet.Lang.Lowering

namespace OwnNet.Lang

/-- The symbols in scope where block `b` was opened that an instruction has started. -/
def Layout.starting (G : Layout) (b : Nat) : List Symbol := (G.scope b).filter fun s => G.born s.id

namespace Instr

def known (ins : Instr) (K : List Symbol) : List Symbol := K.filter (·.id ∉ ins.ends) ++ ins.starts

/-- The instruction acts on known symbols only and starts new ones only. -/
structure Fits (G : Layout) (K : List Symbol) (ins : Instr) : Prop where
  touched : ∀ s ∈ ins.touches, G.born s.id → s ∈ K
  fresh : ∀ s ∈ ins.starts, ∀ k ∈ K, k.id ≠ s.id
  born : ∀ s ∈ ins.starts, G.born s.id
  ended : ∀ n ∈ ins.ends, ∃ k ∈ K, k.id = n ∧ k.kind = .borrow
  rids : ins.Rids G.rid

theorem mem_known {ins : Instr} {K : List Symbol} {s : Symbol} :
    s ∈ ins.known K ↔ (s ∈ K ∧ s.id ∉ ins.ends) ∨ s ∈ ins.starts := by
  simp [known]

end Instr

def knownAfter : List Symbol → List Instr → List Symbol
  | K, [] => K
  | K, ins :: rest => knownAfter (ins.known K) rest

def Fitting (G : Layout) : List Symbol → List Instr → Prop
  | _, [] => True
  | K, ins :: rest => ins.Fits G K ∧ Fitting G (ins.known K) rest

@[simp] theorem knownAfter_append (K : List Symbol) (l m : List Instr) :
    knownAfter K (l ++ m) = knownAfter (knownAfter K l) m := by
  induction l generalizing K with
  | nil => rfl
  | cons ins rest ih => exact ih (ins.known K)

theorem fitting_append {G : Layout} {K : List Symbol} {l m : List Instr} :
    Fitting G K (l ++ m) ↔ Fitting G K l ∧ Fitting G (knownAfter K l) m := by
  induction l generalizing K with
  | nil => simp [Fitting, knownAfter]
  | cons ins rest ih => simp [Fitting, knownAfter, ih, and_assoc]

/-- The fit at one place of a fitting block. -/
theorem Fitting.at {G : Layout} {K : List Symbol} {l : List Instr} (h : Fitting G K l) {i : Nat} {ins : Instr}
    (hi : l[i]? = some ins) : ins.Fits G (knownAfter K (l.take i)) := by
  induction l generalizing K i with
  | nil => simp at hi
  | cons a rest ih =>
    cases i with
    | zero =>
      simp only [List.getElem?_cons_zero, Option.some.injEq] at hi
      rw [← hi]
      exact h.1
    | succ i => exact ih h.2 (by simpa using hi)

/-! ## The scopes of the builder -/

/-- With each owner in scope, the owner whose resource it denotes. -/
def Closed (G : Layout) (S : List Symbol) : Prop :=
  ∀ s ∈ S, s.kind = .owned → ∃ k ∈ S, k.id = G.rid s.id ∧ k.kind = .owned

def scopeSyms (scopes : List Scope) : List Symbol := scopes.flatMap fun sc => sc.map Prod.snd

def ClosedScopes (G : Layout) : List Scope → Prop
  | [] => True
  | sc :: rest => Closed G (scopeSyms (sc :: rest)) ∧ ClosedScopes G rest

/-- What is in scope: an owner nothing starts has been reported. -/
structure Tidy (G : Layout) (B : Builder) : Prop where
  scope : B.Scoped
  owned : B.diags = [] → ∀ s ∈ B.syms, s.kind = .owned → G.born s.id
  lent : ∀ s ∈ B.syms, s.kind = .borrow → s.isParamBorrow = false → G.born s.id
  closed : ClosedScopes G B.scopes

namespace Tidy

variable {G : Layout} {B B' : Builder}

theorem of_eq (h : Tidy G B) (hs : B'.scopes = B.scopes) (hn : B.nextSym ≤ B'.nextSym)
    (hd : B'.diags = [] → B.diags = []) : Tidy G B' := by
  have hsyms : B'.syms = B.syms := by simp [Builder.syms, hs]
  refine ⟨h.scope.of_eq hs hn, ?_, ?_, hs ▸ h.closed⟩
  · rw [hsyms]
    exact fun hnil => h.owned (hd hnil)
  · rw [hsyms]
    exact h.lent

theorem closed_syms (h : Tidy G B) : Closed G B.syms := by
  have hc := h.closed
  unfold Builder.syms
  cases hs : B.scopes with
  | nil => exact fun s hs => absurd hs List.not_mem_nil
  | cons sc rest =>
    rw [hs] at hc
    exact hc.1

theorem push (h : Tidy G B) : Tidy G B.pushScope := by
  have hsyms : B.pushScope.syms = B.syms := by simp [Builder.syms]
  refine ⟨h.scope.push, hsyms ▸ h.owned, hsyms ▸ h.lent, ?_, h.closed⟩
  have : scopeSyms ([] :: B.scopes) = B.syms := by simp [scopeSyms, Builder.syms]
  rw [this]
  exact h.closed_syms

theorem declare (h : Tidy G B) {mk : Nat → Symbol} (hid : (mk B.nextSym).id = B.nextSym)
    (howned : (mk B.nextSym).kind = .owned → B.diags = [] → G.born B.nextSym)
    (hlent : (mk B.nextSym).kind = .borrow → (mk B.nextSym).isParamBorrow = false → G.born B.nextSym)
    (hrid : (mk B.nextSym).kind = .owned →
      G.rid B.nextSym = B.nextSym ∨ ∃ k ∈ B.syms, k.id = G.rid B.nextSym ∧ k.kind = .owned) :
    Tidy G (B.declare mk).1 := by
  have hdiags : (B.declare mk).1.diags = [] → B.diags = [] := by
    obtain ⟨ds, hds⟩ := B.declare_diags mk
    rw [hds]
    exact fun hnil => (List.append_eq_nil_iff.mp hnil).1
  have hclosed : Closed G (B.declare mk).1.syms := by
    intro s hs hk
    rcases Builder.mem_syms_declare.mp hs with rfl | hs
    · rw [hid]
      rcases hrid hk with hr | ⟨k, hkm, hkr⟩
      · exact ⟨mk B.nextSym, Builder.mem_syms_declare.mpr (Or.inl rfl), by rw [hid, hr], hk⟩
      · exact ⟨k, Builder.mem_syms_declare.mpr (Or.inr hkm), hkr⟩
    · obtain ⟨k, hkm, hkr⟩ := h.closed_syms s hs hk
      exact ⟨k, Builder.mem_syms_declare.mpr (Or.inr hkm), hkr⟩
  refine ⟨h.scope.declare hid, ?_, ?_, ?_⟩
  · intro hnil s hs hk
    rcases Builder.mem_syms_declare.mp hs with rfl | hs
    · rw [hid]
      exact howned hk (hdiags hnil)
    · exact h.owned (hdiags hnil) s hs hk
  · intro s hs hk hp
    rcases Builder.mem_syms_declare.mp hs with rfl | hs
    · rw [hid]
      exact hlent hk hp
    · exact h.lent s hs hk hp
  · have hscopes := B.declare_scopes mk
    have hsyms : scopeSyms (B.declare mk).1.scopes = (B.declare mk).1.syms := rfl
    rw [hscopes] at hsyms ⊢
    refine ⟨hsyms ▸ hclosed, ?_⟩
    have hc := h.closed
    cases hs : B.scopes with
    | nil => trivial
    | cons sc rest =>
      rw [hs] at hc
      exact hc.2

end Tidy

theorem Local.diags {G : Layout} {cur : Nat} {B B' : Builder} (h : Local G cur B B') (hnil : B'.diags = []) :
    B.diags = [] := by
  cases h with
  | report ds => exact (List.append_eq_nil_iff.mp hnil).1
  | bare mk kind =>
    obtain ⟨ds, hds⟩ := B.declare_diags mk
    rw [hds] at hnil
    exact (List.append_eq_nil_iff.mp hnil).1
  | define mk ins =>
    obtain ⟨ds, hds⟩ := B.declare_diags mk
    rw [Builder.emit_diags, hds] at hnil
    exact (List.append_eq_nil_iff.mp hnil).1
  | emit ins => exact hnil

/-- Nothing reported is ever taken back. -/
theorem Lowered.diags {G : Layout} {B B' : Builder} {cur : Nat} {out : Option Nat} (h : Lowered G B cur B' out)
    (hnil : B'.diags = []) : B.diags = [] := by
  induction h with
  | stay hl => exact hl.diags hnil
  | seq _ _ ih₁ ih₂ => exact ih₁ (ih₂ hnil)
  | ret _ => exact hnil
  | @borrow B _ _ mk _ _ _ _ _ _ _ _ _ _ ih =>
    obtain ⟨ds, hds⟩ := B.pushScope.declare_diags mk
    have := ih (by simpa using hnil)
    rw [Builder.emit_diags, hds] at this
    exact (List.append_eq_nil_iff.mp this).1
  | branch _ _ _ _ _ ih₁ ih₂ => exact ih₁ (ih₂ (by simpa using hnil))
  | loop _ _ _ _ _ ih => exact ih (by simpa using hnil)

/-- A started resource is its own, or that of an owner in scope. -/
theorem define_rid {G : Layout} {B : Builder} {mk : Nat → Symbol} {ins : Instr} (hG : Tidy G B)
    (hd : Declares B mk .owned) (hs : ins.starts = [mk B.nextSym]) (ht : ∀ s ∈ ins.touches, s ∈ B.syms ∧ s.id < B.nextSym)
    (ho : ins.Kinds) (hr : ins.Rids G.rid) :
    G.rid B.nextSym = B.nextSym ∨ ∃ k ∈ B.syms, k.id = G.rid B.nextSym ∧ k.kind = .owned := by
  have hself : (mk B.nextSym).id = B.nextSym := hd.1
  rw [← hself]
  cases ins with
  | acquire sym _ _ =>
    cases hs
    exact Or.inl hr
  | acquireBuffer sym _ _ =>
    cases hs
    exact Or.inl hr
  | moveInto dst src _ =>
    cases hs
    exact Or.inl hr
  | aliasJoin handle src _ =>
    cases hs
    have halias : G.rid (mk B.nextSym).id = G.rid src.id := hr
    rw [halias]
    obtain ⟨k, hk, hkr, hko⟩ := hG.closed_syms src (ht src List.mem_cons_self).1 ho.2
    exact Or.inr ⟨k, hk, hkr, hko⟩
  | borrowStart owner binding _ _ =>
    cases hs
    exact absurd (hd.2.symm.trans ho.2.1) (by decide)
  | _ => cases hs

theorem Local.tidy {G : Layout} {cur : Nat} {B B' : Builder} (h : Local G cur B B') (hG : Tidy G B) : Tidy G B' := by
  have hdiags := h.diags
  cases h with
  | report ds => exact hG.of_eq rfl (le_refl _) hdiags
  | bare mk kind hd hk hown hborn hrid =>
    refine hG.declare hd.1 ?_ ?_ fun _ => Or.inl hrid
    · intro ho hnil
      exact absurd hnil (hown (hd.2.symm.trans ho))
    · intro hb
      exact absurd (hd.2.symm.trans hb) hk
  | define mk ins hd hs he hr ht ho hborn hrids =>
    have hdecl : Tidy G (B.declare mk).1 :=
      hG.declare hd.1 (fun _ _ => hborn) (fun _ _ => hborn) fun _ => define_rid hG hd hs ht ho hrids
    exact hdecl.of_eq rfl (le_refl _) id
  | emit ins => exact hG.of_eq rfl (le_refl _) id

theorem tidy_borrow {G : Layout} {B : Builder} {mk : Nat → Symbol} (hG : Tidy G B) (hd : Declares B mk .borrow)
    (hborn : G.born B.nextSym = true) : Tidy G (B.pushScope.declare mk).1 :=
  hG.push.declare hd.1 (fun _ _ => hborn) (fun _ _ => hborn) fun h => absurd (hd.2.symm.trans h) (by decide)

theorem Lowered.tidy {G : Layout} {B B' : Builder} {cur : Nat} {out : Option Nat} (h : Lowered G B cur B' out)
    (hG : Tidy G B) : Tidy G B' := by
  have hn := h.mono.2
  induction h with
  | stay hl => exact hl.tidy hG
  | seq h₁ h₂ ih₁ ih₂ => exact ih₂ (ih₁ hG h₁.mono.2) h₂.mono.2
  | ret _ => exact hG.of_eq rfl (le_refl _) id
  | @borrow B B' cur mk owner isMut line out hmem hk hd hborn hp h ih =>
    have hpop := h.pop (Builder.declare_scopes B.pushScope mk)
    have hdiags := (@Lowered.borrow G B B' cur mk owner isMut line out hmem hk hd hborn hp h).diags
    exact hG.of_eq (by simpa using hpop) hn hdiags
  | @branch B B₁ B₂ cur t e ho₁ ho₂ h₁ h₂ ho₃ ih₁ ih₂ =>
    have hpop₁ : B₁.popScope.scopes = B.scopes := h₁.pop rfl
    have hpop₂ : B₂.popScope.scopes = B₁.popScope.scopes := h₂.pop rfl
    have hdiags := (Lowered.branch ho₁ ho₂ h₁ h₂ ho₃).diags
    exact hG.of_eq (by rw [Builder.merge_scopes, hpop₂, hpop₁]) hn hdiags
  | @loop B B' cur out hs hb ho₁ ho₂ h ih =>
    have hpop : B'.popScope.scopes = B.scopes := h.pop rfl
    have hdiags := (Lowered.loop hs hb ho₁ ho₂ h).diags
    exact hG.of_eq (by rw [Builder.linkIf_scopes, hpop]) hn hdiags

/-! ## Blocks while they are built -/

namespace Builder

theorem emit_get (B : Builder) (c : Nat) (ins : Instr) (b : Nat) :
    (B.emit c ins).blocks[b]? =
      if b = c then (B.blocks[c]?).map fun blk => { blk with instrs := blk.instrs ++ [ins] } else B.blocks[b]? := by
  unfold emit
  rw [List.getElem?_modify]
  by_cases h : b = c
  · subst h
    simp
  · simp [h, Ne.symm h]

theorem link_get (B : Builder) (c : Nat) (succ : List Nat) (b : Nat) :
    (B.link c succ).blocks[b]? =
      if b = c then (B.blocks[c]?).map fun blk => { blk with succ := succ } else B.blocks[b]? := by
  unfold link
  rw [List.getElem?_modify]
  by_cases h : b = c
  · subst h
    simp
  · simp [h, Ne.symm h]

theorem newBlock_get (B : Builder) (l : String) (b : Nat) :
    (B.newBlock l).blocks[b]? = if b = B.blocks.length then some { label := l } else B.blocks[b]? := by
  unfold newBlock
  by_cases h : b = B.blocks.length
  · subst h
    simp
  · rw [if_neg h]
    by_cases hlt : b < B.blocks.length
    · rw [List.getElem?_append_left hlt]
    · have hge : B.blocks.length ≤ b := not_lt.mp hlt
      rw [List.getElem?_append_right hge, List.getElem?_eq_none hge]
      apply List.getElem?_eq_none
      simp only [List.length_singleton]
      omega

theorem lt_of_get {B : Builder} {b : Nat} {blk : Block} (h : B.blocks[b]? = some blk) : b < B.blocks.length :=
  (List.getElem?_eq_some_iff.mp h).1

end Builder

/-- An edge into block `c` from where `K` is known: the scope shrinks, and to what was there before `c`. -/
structure Edge (G : Layout) (B : Builder) (K : List Symbol) (c : Nat) : Prop where
  pos : 0 < c
  lt : c < B.blocks.length
  knows : ∀ s ∈ G.starting c, s ∈ K
  bound : ∀ s ∈ K, s.id < G.bound c

/-- Block `b` fits its layout: its code, what leaves it, what it was opened with. -/
structure BlockFits (G : Layout) (B : Builder) (b : Nat) (blk : Block) : Prop where
  fits : Fitting G (G.starting b) blk.instrs
  young : ∀ s ∈ knownAfter (G.starting b) blk.instrs, s.id < B.nextSym
  kinds : ∀ ins ∈ blk.instrs, ins.Kinds
  owned : B.diags = [] → ∀ ins ∈ blk.instrs, ∀ s ∈ ins.touches, s.kind = .owned → G.born s.id
  lent : ∀ ins ∈ blk.instrs, ∀ s ∈ ins.touches, s.kind = .borrow → s.isParamBorrow = false → G.born s.id
  returns : ∀ i ins, blk.instrs[i]? = some ins → ins.isReturn → i + 1 = blk.instrs.length ∧ blk.succ = []
  edges : ∀ c ∈ blk.succ, Edge G B (knownAfter (G.starting b) blk.instrs) c
  closed : Closed G (G.scope b)
  scope : B.diags = [] → ∀ s ∈ G.scope b, s.kind = .owned → G.born s.id

def Sound (G : Layout) (B : Builder) : Prop := ∀ b blk, B.blocks[b]? = some blk → BlockFits G B b blk

/-- The block being lowered into: it knows all that is in scope. -/
structure Open (G : Layout) (B : Builder) (cur : Nat) (blk : Block) : Prop where
  here : B.blocks[cur]? = some blk
  succ : blk.succ = []
  going : ∀ ins ∈ blk.instrs, ins.isReturn = false
  knows : ∀ s ∈ B.syms, G.born s.id → s ∈ knownAfter (G.starting cur) blk.instrs

theorem BlockFits.mono {G : Layout} {B B' : Builder} {b : Nat} {blk : Block} (h : BlockFits G B b blk)
    (hlen : B.blocks.length ≤ B'.blocks.length) (hn : B.nextSym ≤ B'.nextSym) (hd : B'.diags = [] → B.diags = []) :
    BlockFits G B' b blk where
  fits := h.fits
  young s hs := lt_of_lt_of_le (h.young s hs) hn
  kinds := h.kinds
  owned hnil := h.owned (hd hnil)
  lent := h.lent
  returns := h.returns
  edges c hc := ⟨(h.edges c hc).pos, lt_of_lt_of_le (h.edges c hc).lt hlen, (h.edges c hc).knows, (h.edges c hc).bound⟩
  closed := h.closed
  scope hnil := h.scope (hd hnil)

/-! ## The frame of a lowering -/

namespace Builder

theorem linkIf_get_of_ne {B : Builder} {c : Option Nat} {succ : List Nat} {b : Nat} (h : c ≠ some b) :
    (B.linkIf c succ).blocks[b]? = B.blocks[b]? := by
  cases c with
  | none => rfl
  | some c =>
    have : b ≠ c := fun hb => h (hb ▸ rfl)
    rw [linkIf, link_get, if_neg this]

theorem fork_get {B : Builder} {cur b : Nat} (hb : b < B.blocks.length) :
    (B.fork cur).blocks[b]? = if b = cur then (B.blocks[cur]?).map fun blk =>
      { blk with succ := [B.blocks.length, B.blocks.length + 1] } else B.blocks[b]? := by
  have h₁ : b ≠ B.blocks.length := ne_of_lt hb
  have h₂ : b ≠ B.blocks.length + 1 := by omega
  rw [fork, link_get]
  by_cases hc : b = cur
  · subst hc
    simp only [if_pos, newBlock_get, newBlock_length, if_neg h₁, if_neg h₂]
  · simp only [if_neg hc, newBlock_get, newBlock_length, if_neg h₁, if_neg h₂]

/-- The two new arms are empty. -/
theorem fork_get_new {B : Builder} {cur b : Nat} (hcur : cur < B.blocks.length)
    (hb : b = B.blocks.length ∨ b = B.blocks.length + 1) :
    ∃ l, (B.fork cur).blocks[b]? = some { label := l } := by
  have hc : b ≠ cur := by omega
  rw [fork, link_get, if_neg hc, newBlock_get, newBlock_get]
  rcases hb with rfl | rfl
  · exact ⟨"then", by simp⟩
  · exact ⟨"else", by simp⟩

theorem merge_get {B : Builder} {t e : Option Nat} {b : Nat} (hb : b < B.blocks.length) (ht : t ≠ some b) (he : e ≠ some b) :
    (B.merge t e).1.blocks[b]? = B.blocks[b]? := by
  unfold merge
  split
  · rfl
  · rw [linkIf_get_of_ne he, linkIf_get_of_ne ht, newBlock_get, if_neg (ne_of_lt hb)]

theorem openLoop_get {B : Builder} {cur b : Nat} (hb : b < B.blocks.length) :
    (B.openLoop cur).blocks[b]? = if b = cur then (B.blocks[cur]?).map fun blk =>
      { blk with succ := [B.blocks.length] } else B.blocks[b]? := by
  have h₁ : b ≠ B.blocks.length := ne_of_lt hb
  have h₂ : b ≠ B.blocks.length + 1 := by omega
  have h₃ : b ≠ B.blocks.length + 2 := by omega
  simp only [openLoop, link_get, newBlock_get, newBlock_length, link_length, if_neg h₁, if_neg h₂, if_neg h₃]
  by_cases hc : b = cur
  · subst hc
    simp only [if_true, if_neg h₁]
  · simp only [if_neg hc]

theorem openLoop_header {B : Builder} {cur : Nat} (hcur : cur < B.blocks.length) :
    (B.openLoop cur).blocks[B.blocks.length]? =
      some { label := "while.header", succ := [B.blocks.length + 1, B.blocks.length + 2] } := by
  have h : B.blocks.length ≠ cur := by omega
  have h₁ : B.blocks.length ≠ B.blocks.length + 1 := by omega
  have h₂ : B.blocks.length ≠ B.blocks.length + 1 + 1 := by omega
  simp only [openLoop, link_get, newBlock_get, newBlock_length, link_length, if_neg h, if_neg h₁, if_neg h₂, if_true]
  rfl

theorem openLoop_get_new {B : Builder} {cur b : Nat} (hcur : cur < B.blocks.length)
    (hb : b = B.blocks.length + 1 ∨ b = B.blocks.length + 2) : ∃ l, (B.openLoop cur).blocks[b]? = some { label := l } := by
  have h₀ : b ≠ B.blocks.length := by omega
  have hc : b ≠ cur := by omega
  simp only [openLoop, link_get, newBlock_get, newBlock_length, link_length, if_neg h₀, if_neg hc]
  rcases hb with rfl | rfl
  · exact ⟨"while.body", by simp⟩
  · exact ⟨"while.after", by simp⟩

theorem closeBorrow_get_of_ne {B : Builder} {o s : Symbol} {m : Bool} {l : Int} {out : Option Nat} {b : Nat}
    (h : out ≠ some b) : (B.closeBorrow o s m l out).blocks[b]? = B.blocks[b]? := by
  cases out with
  | none => rfl
  | some c =>
    have : b ≠ c := fun hb => h (hb ▸ rfl)
    rw [closeBorrow, emit_get, if_neg this]
    rfl

end Builder

/-- Lowering from `cur` changes no other block there was, and goes on in `cur` or a new block. -/
structure Frame (B : Builder) (cur : Nat) (B' : Builder) (out : Option Nat) : Prop where
  keep : ∀ b < B.blocks.length, b ≠ cur → B'.blocks[b]? = B.blocks[b]?
  out : ∀ c, out = some c → (c = cur ∨ B.blocks.length ≤ c) ∧ c < B'.blocks.length
  grow : ∀ blk, B.blocks[cur]? = some blk → ∃ l succ, B'.blocks[cur]? = some ⟨blk.instrs ++ l, succ, blk.label⟩

/-- What follows a loop is new, however its body ends. -/
theorem Frame.after_loop {B B' : Builder} {cur : Nat} {out : Option Nat} (hcur : cur < B.blocks.length)
    (f : Frame (B.openLoop cur).pushScope (B.blocks.length + 1) B' out) :
    ∃ l, B'.blocks[B.blocks.length + 2]? = some { label := l } ∧
      (B'.popScope.linkIf out [B.blocks.length]).blocks[B.blocks.length + 2]? = some { label := l } := by
  obtain ⟨l, hl⟩ := Builder.openLoop_get_new hcur (Or.inr rfl)
  have hkept : B'.blocks[B.blocks.length + 2]? = some { label := l } := by
    rw [f.keep _ (by simp) (by omega)]
    exact hl
  have hne : out ≠ some (B.blocks.length + 2) := by
    intro ho
    have := (f.out _ ho).1
    simp only [Builder.pushScope_blocks, Builder.openLoop_length] at this
    omega
  exact ⟨l, hkept, by rw [Builder.linkIf_get_of_ne hne, Builder.popScope_blocks, hkept]⟩

theorem Frame.same {B B' : Builder} {cur : Nat} (hcur : cur < B.blocks.length) (hb : B'.blocks = B.blocks) :
    Frame B cur B' (some cur) where
  keep b _ _ := by rw [hb]
  out c hc := by
    cases hc
    exact ⟨Or.inl rfl, by rw [hb]; exact hcur⟩
  grow blk hblk := ⟨[], blk.succ, by rw [hb, hblk, List.append_nil]⟩

theorem Frame.emit {B B' : Builder} {cur : Nat} (hcur : cur < B.blocks.length) (hb : B'.blocks = B.blocks) (ins : Instr) :
    Frame B cur (B'.emit cur ins) (some cur) where
  keep b _ hne := by rw [Builder.emit_get, if_neg hne, hb]
  out c hc := by
    cases hc
    exact ⟨Or.inl rfl, by rw [Builder.emit_length, hb]; exact hcur⟩
  grow blk hblk := ⟨[ins], blk.succ, by rw [Builder.emit_get, if_pos rfl, hb, hblk]; rfl⟩

theorem Frame.trans {B B₁ B₂ : Builder} {cur c : Nat} {out : Option Nat} (f₁ : Frame B cur B₁ (some c))
    (hcur : cur < B.blocks.length) (hm : B.blocks.length ≤ B₁.blocks.length) (f₂ : Frame B₁ c B₂ out) : Frame B cur B₂ out := by
  obtain ⟨hc, hclt⟩ := f₁.out c rfl
  refine ⟨?_, ?_, ?_⟩
  · intro b hb hne
    rw [f₂.keep b (lt_of_lt_of_le hb hm) (by omega), f₁.keep b hb hne]
  · intro d hd
    obtain ⟨hd', hlt⟩ := f₂.out d hd
    exact ⟨by omega, hlt⟩
  · intro blk hblk
    obtain ⟨l, succ, hl⟩ := f₁.grow blk hblk
    by_cases hcc : c = cur
    · subst hcc
      obtain ⟨l', succ', hl'⟩ := f₂.grow _ hl
      exact ⟨l ++ l', succ', by rw [hl', List.append_assoc]⟩
    · exact ⟨l, succ, by rw [f₂.keep cur (lt_of_lt_of_le hcur hm) (Ne.symm hcc), hl]⟩

theorem Local.frame {G : Layout} {cur : Nat} {B B' : Builder} (h : Local G cur B B') (hcur : cur < B.blocks.length) :
    Frame B cur B' (some cur) := by
  cases h with
  | report ds => exact Frame.same hcur rfl
  | bare mk kind => exact Frame.same hcur (by simp)
  | define mk ins => exact Frame.emit hcur (by simp) ins
  | emit ins => exact Frame.emit hcur rfl ins

theorem Lowered.frame {G : Layout} {B B' : Builder} {cur : Nat} {out : Option Nat} (h : Lowered G B cur B' out)
    (hcur : cur < B.blocks.length) : Frame B cur B' out := by
  induction h with
  | stay hl => exact hl.frame hcur
  | seq h₁ _ ih₁ ih₂ => exact (ih₁ hcur).trans hcur h₁.mono.1 (ih₂ ((ih₁ hcur).out _ rfl).2)
  | @ret B cur r line _ =>
    refine ⟨?_, (fun c hc => by cases hc), ?_⟩
    · intro b _ hne
      rw [Builder.link_get, if_neg hne, Builder.emit_get, if_neg hne]
    · intro blk hblk
      exact ⟨[.return_ r line], [], by rw [Builder.link_get, if_pos rfl, Builder.emit_get, if_pos rfl, hblk]; rfl⟩
  | @borrow B B' cur mk owner isMut line out hmem hk hd hborn hp h ih =>
    have f₀ := @Frame.emit B (B.pushScope.declare mk).1 cur hcur (by simp)
      (.borrowStart owner (mk B.nextSym) isMut line)
    have f := ih (by simpa using hcur)
    have hlen : ((B.pushScope.declare mk).1.emit cur (.borrowStart owner (mk B.nextSym) isMut line)).blocks.length
        = B.blocks.length := by simp
    have fkeep := f.keep
    have fout := f.out
    rw [hlen] at fkeep fout
    refine ⟨?_, ?_, ?_⟩
    · intro b hb hne
      have hout : out ≠ some b := by
        intro ho
        have := (fout b ho).1
        omega
      rw [Builder.closeBorrow_get_of_ne hout, fkeep b hb hne, f₀.keep b hb hne]
    · intro c hc
      rw [Builder.closeBorrow_length]
      exact fout c hc
    · intro blk hblk
      obtain ⟨l₀, s₀, h₀⟩ := f₀.grow blk hblk
      obtain ⟨l, succ, hl⟩ := f.grow _ h₀
      by_cases ho : out = some cur
      · subst ho
        refine ⟨l₀ ++ l ++ [.borrowEnd owner (mk B.nextSym) isMut line], succ, ?_⟩
        rw [Builder.closeBorrow, Builder.emit_get, if_pos rfl, Builder.popScope_blocks, hl]
        simp
      · exact ⟨l₀ ++ l, succ, by rw [Builder.closeBorrow_get_of_ne ho, hl, List.append_assoc]⟩
  | @branch B B₁ B₂ cur t e ho₁ ho₂ h₁ h₂ ho₃ ih₁ ih₂ =>
    have hm₁ := h₁.mono.1
    have hm₂ := h₂.mono.1
    have f₁ := ih₁ (by simp)
    simp only [Builder.fork_length, Builder.pushScope_blocks, Builder.popScope_blocks] at hm₁ hm₂
    have f₂ := ih₂ (by simp only [Builder.pushScope_blocks, Builder.popScope_blocks]; omega)
    have f₁keep := f₁.keep
    have f₁out := f₁.out
    simp only [Builder.fork_length, Builder.pushScope_blocks] at f₁keep f₁out
    have f₂keep := f₂.keep
    have f₂out := f₂.out
    simp only [Builder.pushScope_blocks, Builder.popScope_blocks] at f₂keep f₂out
    have hold : ∀ b < B.blocks.length, (B₂.popScope.merge t e).1.blocks[b]? = (B.fork cur).blocks[b]? := by
      intro b hb
      have ht : t ≠ some b := by
        intro ht
        have := (f₁out b ht).1
        omega
      have he : e ≠ some b := by
        intro he
        have := (f₂out b he).1
        omega
      rw [Builder.merge_get (by simp only [Builder.popScope_blocks]; omega) ht he, Builder.popScope_blocks,
        f₂keep b (by omega) (by omega), f₁keep b (by omega) (by omega)]
    refine ⟨?_, ?_, ?_⟩
    · intro b hb hne
      rw [hold b hb, Builder.fork_get hb, if_neg hne]
    · intro c hc
      unfold Builder.merge at hc ⊢
      split at hc
      · cases hc
      next hte =>
        cases hc
        simp only [if_neg hte, Builder.linkIf_length, Builder.newBlock_length, Builder.popScope_blocks]
        omega
    · intro blk hblk
      refine ⟨[], [B.blocks.length, B.blocks.length + 1], ?_⟩
      rw [hold cur hcur, Builder.fork_get hcur, if_pos rfl, hblk, List.append_nil]
      rfl
  | @loop B B' cur out hs hb ho₁ ho₂ h ih =>
    have hm := h.mono.1
    have f := ih (by simp)
    have fkeep := f.keep
    have fout := f.out
    simp only [Builder.openLoop_length, Builder.pushScope_blocks] at hm fkeep fout
    have hold : ∀ b < B.blocks.length,
        (B'.popScope.linkIf out [B.blocks.length]).blocks[b]? = (B.openLoop cur).blocks[b]? := by
      intro b hb
      have ho : out ≠ some b := by
        intro ho
        have := (fout b ho).1
        omega
      rw [Builder.linkIf_get_of_ne ho, Builder.popScope_blocks, fkeep b (by omega) (by omega)]
    refine ⟨?_, ?_, ?_⟩
    · intro b hb hne
      rw [hold b hb, Builder.openLoop_get hb, if_neg hne]
    · intro c hc
      cases hc
      simp only [Builder.linkIf_length, Builder.popScope_blocks]
      omega
    · intro blk hblk
      refine ⟨[], [B.blocks.length], ?_⟩
      rw [hold cur hcur, Builder.openLoop_get hcur, if_pos rfl, hblk, List.append_nil]
      rfl

/-! ## Lowering keeps the blocks fitting -/

/-- Block `b` was opened with a tidy scope. -/
structure Fine (G : Layout) (B : Builder) (b : Nat) : Prop where
  closed : Closed G (G.scope b)
  scope : B.diags = [] → ∀ s ∈ G.scope b, s.kind = .owned → G.born s.id
  young : ∀ s ∈ G.scope b, s.id < B.nextSym

theorem Tidy.fine {G : Layout} {B : Builder} {b : Nat} (h : Tidy G B) (hb : G.scope b = B.syms) : Fine G B b :=
  ⟨hb ▸ h.closed_syms, hb ▸ h.owned, hb ▸ h.scope.young⟩

theorem mem_starting {G : Layout} {b : Nat} {s : Symbol} : s ∈ G.starting b ↔ s ∈ G.scope b ∧ G.born s.id := by
  simp [Layout.starting]

namespace Sound

variable {G : Layout} {B B' : Builder}

theorem of_blocks (h : Sound G B) (hb : B'.blocks = B.blocks) (hn : B.nextSym ≤ B'.nextSym)
    (hd : B'.diags = [] → B.diags = []) : Sound G B' := by
  intro b blk hblk
  rw [hb] at hblk
  exact (h b blk hblk).mono (le_of_eq (by rw [hb])) hn hd

theorem newBlock (h : Sound G B) (hf : Fine G B B.blocks.length) (l : String) : Sound G (B.newBlock l) := by
  intro b blk hblk
  rw [Builder.newBlock_get] at hblk
  split at hblk
  next hb =>
    cases hblk
    subst hb
    refine ⟨trivial, ?_, ?_, ?_, ?_, ?_, ?_, hf.closed, hf.scope⟩
    · intro s hs
      exact hf.young s (mem_starting.mp hs).1
    · exact fun ins hins => absurd hins List.not_mem_nil
    · exact fun _ ins hins => absurd hins List.not_mem_nil
    · exact fun ins hins => absurd hins List.not_mem_nil
    · intro i ins hi
      simp at hi
    · exact fun c hc => absurd hc List.not_mem_nil
  next => exact (h b blk hblk).mono (by simp) (le_refl _) id

theorem link (h : Sound G B) {c : Nat} {blk : Block} {succ : List Nat} (hblk : B.blocks[c]? = some blk)
    (hret : succ = [] ∨ ∀ ins ∈ blk.instrs, ins.isReturn = false)
    (hedge : ∀ d ∈ succ, Edge G B (knownAfter (G.starting c) blk.instrs) d) : Sound G (B.link c succ) := by
  intro b blk' hblk'
  have hmono : ∀ {b' : Nat} {k : Block}, BlockFits G B b' k → BlockFits G (B.link c succ) b' k :=
    fun hf => hf.mono (by simp) (le_refl _) id
  rw [Builder.link_get] at hblk'
  split at hblk'
  next hb =>
    subst hb
    rw [hblk] at hblk'
    cases hblk'
    have hf := hmono (h b blk hblk)
    refine ⟨hf.fits, hf.young, hf.kinds, hf.owned, hf.lent, ?_, ?_, hf.closed, hf.scope⟩
    · intro i ins hi hr
      rcases hret with hnil | hno
      · exact ⟨(hf.returns i ins hi hr).1, hnil⟩
      · have := hno ins (List.mem_of_getElem? hi)
        rw [hr] at this
        cases this
    · intro d hd
      have he := hedge d hd
      exact ⟨he.pos, by simpa using he.lt, he.knows, he.bound⟩
  next => exact hmono (h b blk' hblk')

/-- A fitting instruction at the end of a block control has not left. -/
theorem emit (h : Sound G B) {c : Nat} {blk : Block} {ins : Instr} (hblk : B.blocks[c]? = some blk)
    (hsucc : blk.succ = []) (hgo : ∀ x ∈ blk.instrs, x.isReturn = false)
    (hfit : ins.Fits G (knownAfter (G.starting c) blk.instrs)) (hyoung : ∀ s ∈ ins.starts, s.id < B.nextSym)
    (hk : ins.Kinds) (howned : B.diags = [] → ∀ s ∈ ins.touches, s.kind = .owned → G.born s.id)
    (hlent : ∀ s ∈ ins.touches, s.kind = .borrow → s.isParamBorrow = false → G.born s.id) :
    Sound G (B.emit c ins) := by
  intro b blk' hblk'
  have hmono : ∀ {b' : Nat} {k : Block}, BlockFits G B b' k → BlockFits G (B.emit c ins) b' k :=
    fun hf => hf.mono (by simp) (le_refl _) id
  rw [Builder.emit_get] at hblk'
  split at hblk'
  next hb =>
    subst hb
    rw [hblk] at hblk'
    cases hblk'
    have hf := hmono (h b blk hblk)
    refine ⟨fitting_append.mpr ⟨hf.fits, hfit, trivial⟩, ?_, ?_, ?_, ?_, ?_, ?_, hf.closed, hf.scope⟩
    · intro s hs
      rw [knownAfter_append] at hs
      rcases Instr.mem_known.mp hs with hs | hs
      · exact hf.young s hs.1
      · exact hyoung s hs
    · intro x hx
      rcases List.mem_append.mp hx with hx | hx
      · exact hf.kinds x hx
      · exact List.mem_singleton.mp hx ▸ hk
    · intro hnil x hx
      rcases List.mem_append.mp hx with hx | hx
      · exact hf.owned hnil x hx
      · exact List.mem_singleton.mp hx ▸ howned hnil
    · intro x hx
      rcases List.mem_append.mp hx with hx | hx
      · exact hf.lent x hx
      · exact List.mem_singleton.mp hx ▸ hlent
    · intro i x hi hr
      refine ⟨?_, hsucc⟩
      have hi' : i < (blk.instrs ++ [ins]).length := (List.getElem?_eq_some_iff.mp hi).1
      by_cases hlt : i < blk.instrs.length
      · rw [List.getElem?_append_left hlt] at hi
        have := hgo x (List.mem_of_getElem? hi)
        rw [hr] at this
        cases this
      · simp only [List.length_append, List.length_singleton] at hi' ⊢
        omega
    · intro d hd
      rw [hsucc] at hd
      exact absurd hd List.not_mem_nil
  next => exact hmono (h b blk' hblk')

end Sound

/-- The scope of an open block, seen from the instruction to come. -/
theorem Open.fits {G : Layout} {B : Builder} {cur : Nat} {blk : Block} (ho : Open G B cur blk) (hS : Sound G B)
    {ins : Instr} (ht : ∀ s ∈ ins.touches, s ∈ B.syms) (hs : ∀ s ∈ ins.starts, B.nextSym ≤ s.id ∧ G.born s.id)
    (he : ins.ends = []) (hr : ins.Rids G.rid) : ins.Fits G (knownAfter (G.starting cur) blk.instrs) where
  touched s hs' hborn := ho.knows s (ht s hs') hborn
  fresh s hs' k hk := by
    have h₁ := (hS cur blk ho.here).young k hk
    have h₂ := (hs s hs').1
    omega
  born s hs' := (hs s hs').2
  ended n hn := absurd (he ▸ hn) List.not_mem_nil
  rids := hr

theorem rids_of_no_start {rid : Nat → Nat} {ins : Instr} (h : ins.starts = []) : ins.Rids rid := by
  cases ins with
  | acquire | acquireBuffer | moveInto | aliasJoin => cases h
  | _ => trivial

theorem Local.sound {G : Layout} {cur : Nat} {B B' : Builder} (h : Local G cur B B') (hG : Tidy G B) (hS : Sound G B)
    {blk : Block} (ho : Open G B cur blk) : Sound G B' ∧ ∃ blk', Open G B' cur blk' := by
  have hdiags := h.diags
  cases h with
  | report ds => exact ⟨hS.of_blocks rfl (le_refl _) hdiags, blk, ho.here, ho.succ, ho.going, ho.knows⟩
  | bare mk kind hd hk hown hborn hrid =>
    refine ⟨hS.of_blocks (by simp) (by simp) hdiags, blk, by rw [Builder.declare_blocks]; exact ho.here, ho.succ,
      ho.going, ?_⟩
    intro s hs hb
    rcases Builder.mem_syms_declare.mp hs with rfl | hs
    · rw [hd.1, hborn] at hb
      cases hb
    · exact ho.knows s hs hb
  | define mk ins hd hs he hr ht hk hborn hrids =>
    have hS₁ : Sound G (B.declare mk).1 := hS.of_blocks (by simp) (by simp) hdiags
    have hself : ∀ s ∈ ins.starts, s.id = B.nextSym := by
      intro s hs'
      rw [hs, List.mem_singleton] at hs'
      rw [hs', hd.1]
    have hfit : ins.Fits G (knownAfter (G.starting cur) blk.instrs) :=
      ho.fits hS (fun s hs' => (ht s hs').1) (fun s hs' => by rw [hself s hs']; exact ⟨le_refl _, hborn⟩) he hrids
    have hhere : (B.declare mk).1.blocks[cur]? = some blk := by rw [Builder.declare_blocks]; exact ho.here
    refine ⟨hS₁.emit hhere ho.succ ho.going hfit ?_ hk ?_ ?_, { blk with instrs := blk.instrs ++ [ins] }, ?_, ho.succ, ?_, ?_⟩
    · intro s hs'
      rw [hself s hs', Builder.declare_nextSym]
      omega
    · intro hnil s hs'
      exact hG.owned (hdiags hnil) s (ht s hs').1
    · intro s hs'
      exact hG.lent s (ht s hs').1
    · rw [Builder.emit_get, if_pos rfl, hhere]
      rfl
    · intro x hx
      rcases List.mem_append.mp hx with hx | hx
      · exact ho.going x hx
      · exact List.mem_singleton.mp hx ▸ hr
    · intro s hs' hb
      rw [knownAfter_append]
      apply Instr.mem_known.mpr
      rcases Builder.mem_syms_declare.mp hs' with rfl | hs'
      · exact Or.inr (by rw [hs]; exact List.mem_singleton.mpr rfl)
      · exact Or.inl ⟨ho.knows s hs' hb, by rw [he]; exact List.not_mem_nil⟩
  | emit ins hs he hr ht hk =>
    have hfit : ins.Fits G (knownAfter (G.starting cur) blk.instrs) :=
      ho.fits hS ht (fun s hs' => by rw [hs] at hs'; exact absurd hs' List.not_mem_nil) he (rids_of_no_start hs)
    refine ⟨hS.emit ho.here ho.succ ho.going hfit ?_ hk ?_ ?_, { blk with instrs := blk.instrs ++ [ins] }, ?_, ho.succ, ?_, ?_⟩
    · intro s hs'
      rw [hs] at hs'
      exact absurd hs' List.not_mem_nil
    · intro hnil s hs'
      exact hG.owned hnil s (ht s hs')
    · intro s hs'
      exact hG.lent s (ht s hs')
    · rw [Builder.emit_get, if_pos rfl, ho.here]
      rfl
    · intro x hx
      rcases List.mem_append.mp hx with hx | hx
      · exact ho.going x hx
      · exact List.mem_singleton.mp hx ▸ hr
    · intro s hs' hb
      rw [knownAfter_append]
      exact Instr.mem_known.mpr (Or.inl ⟨ho.knows s hs' hb, by rw [he]; exact List.not_mem_nil⟩)

theorem Sound.ret {G : Layout} {B : Builder} {cur : Nat} {blk : Block} {r : Option Symbol} {line : Int} (hS : Sound G B)
    (hG : Tidy G B) (ho : Open G B cur blk) (hr : ∀ s ∈ r, s ∈ B.syms ∧ s.kind = .owned) :
    Sound G ((B.emit cur (.return_ r line)).link cur []) := by
  have ht : ∀ s ∈ (Instr.return_ r line).touches, s ∈ B.syms := fun s hs => (hr s (Option.mem_toList.mp hs)).1
  have hstart : ∀ s ∈ (Instr.return_ r line).starts, B.nextSym ≤ s.id ∧ G.born s.id :=
    fun s hs => absurd hs List.not_mem_nil
  have hemit : Sound G (B.emit cur (.return_ r line)) :=
    hS.emit ho.here ho.succ ho.going (ho.fits hS ht hstart rfl trivial) (fun s hs => absurd hs List.not_mem_nil)
      (fun s hs => (hr s hs).2) (fun hnil s hs => hG.owned hnil s (ht s hs)) (fun s hs => hG.lent s (ht s hs))
  have hhere : (B.emit cur (.return_ r line)).blocks[cur]? = some { blk with instrs := blk.instrs ++ [.return_ r line] } := by
    rw [Builder.emit_get, if_pos rfl, ho.here]
    rfl
  exact hemit.link hhere (Or.inl rfl) fun d hd => absurd hd List.not_mem_nil

/-- A borrow block opens: its loan starts in the block it stands in. -/
theorem Sound.openBorrow {G : Layout} {B : Builder} {cur : Nat} {blk : Block} {mk : Nat → Symbol} {owner : Symbol}
    {isMut : Bool} {line : Int} (hS : Sound G B) (hG : Tidy G B) (ho : Open G B cur blk) (hmem : owner ∈ B.syms)
    (hk : owner.kind = .owned) (hd : Declares B mk .borrow) (hborn : G.born B.nextSym = true)
    (hp : (mk B.nextSym).isParamBorrow = false) :
    let B₀ := (B.pushScope.declare mk).1.emit cur (.borrowStart owner (mk B.nextSym) isMut line)
    Sound G B₀ ∧ Tidy G B₀ ∧ ∃ blk', Open G B₀ cur blk' := by
  intro B₀
  have hT₁ : Tidy G (B.pushScope.declare mk).1 := tidy_borrow hG hd hborn
  have hdiags : (B.pushScope.declare mk).1.diags = [] → B.diags = [] := by
    obtain ⟨ds, hds⟩ := B.pushScope.declare_diags mk
    rw [hds]
    exact fun hnil => (List.append_eq_nil_iff.mp hnil).1
  have hS₁ : Sound G (B.pushScope.declare mk).1 := hS.of_blocks (by simp) (by simp) hdiags
  have hhere : (B.pushScope.declare mk).1.blocks[cur]? = some blk := by
    rw [Builder.declare_blocks, Builder.pushScope_blocks]
    exact ho.here
  have ht : ∀ s ∈ (Instr.borrowStart owner (mk B.nextSym) isMut line).touches, s ∈ B.syms := by
    intro s hs
    rwa [show s = owner from List.mem_singleton.mp hs]
  have hstart : ∀ s ∈ (Instr.borrowStart owner (mk B.nextSym) isMut line).starts, B.nextSym ≤ s.id ∧ G.born s.id := by
    intro s hs
    rw [show s = mk B.nextSym from List.mem_singleton.mp hs, hd.1]
    exact ⟨le_refl _, hborn⟩
  have hS₂ : Sound G B₀ := by
    refine hS₁.emit hhere ho.succ ho.going (ho.fits hS ht hstart rfl trivial) ?_ ⟨hk, hd.2, hp⟩ ?_ ?_
    · intro s hs
      rw [show s = mk B.nextSym from List.mem_singleton.mp hs, hd.1]
      simp
    · exact fun hnil s hs => hG.owned (hdiags hnil) s (ht s hs)
    · exact fun s hs => hG.lent s (ht s hs)
  refine ⟨hS₂, hT₁.of_eq rfl (le_refl _) id,
    { blk with instrs := blk.instrs ++ [.borrowStart owner (mk B.nextSym) isMut line] }, ?_, ho.succ, ?_, ?_⟩
  · rw [Builder.emit_get, if_pos rfl, hhere]
    rfl
  · intro x hx
    rcases List.mem_append.mp hx with hx | hx
    · exact ho.going x hx
    · rw [List.mem_singleton.mp hx]
      rfl
  · intro s hs hb
    rw [knownAfter_append]
    apply Instr.mem_known.mpr
    rcases Builder.mem_syms_declare.mp hs with rfl | hs
    · exact Or.inr (List.mem_singleton.mpr rfl)
    · exact Or.inl ⟨ho.knows s (by simpa [Builder.syms] using hs) hb, List.not_mem_nil⟩

theorem Sound.closeBorrow {G : Layout} {B' : Builder} {owner binding : Symbol} {isMut : Bool} {line : Int}
    {out : Option Nat} (hS : Sound G B') (hout : ∀ c, out = some c → ∃ blk, Open G B' c blk)
    (hk : owner.kind = .owned ∧ binding.kind = .borrow ∧ binding.isParamBorrow = false)
    (hbind : binding ∈ B'.syms ∧ G.born binding.id)
    (hsyms : ∀ s ∈ B'.popScope.syms, s ∈ B'.syms ∧ s.id ≠ binding.id) :
    Sound G (B'.closeBorrow owner binding isMut line out) ∧
      ∀ c, out = some c → ∃ blk, Open G (B'.closeBorrow owner binding isMut line out) c blk := by
  have hpop : Sound G B'.popScope := hS.of_blocks rfl (le_refl _) id
  cases out with
  | none => exact ⟨hpop, fun c hc => by cases hc⟩
  | some c =>
    obtain ⟨blk, ho⟩ := hout c rfl
    have hhere : B'.popScope.blocks[c]? = some blk := ho.here
    refine ⟨hpop.emit hhere ho.succ ho.going ⟨?_, ?_, ?_, ?_, trivial⟩ ?_ hk ?_ ?_, ?_⟩
    · exact fun s hs => absurd hs List.not_mem_nil
    · exact fun s hs => absurd hs List.not_mem_nil
    · exact fun s hs => absurd hs List.not_mem_nil
    · exact fun n hn => ⟨binding, ho.knows binding hbind.1 hbind.2, (List.mem_singleton.mp hn).symm, hk.2.1⟩
    · exact fun s hs => absurd hs List.not_mem_nil
    · exact fun _ s hs => absurd hs List.not_mem_nil
    · exact fun s hs => absurd hs List.not_mem_nil
    · intro d hd
      cases hd
      refine ⟨{ blk with instrs := blk.instrs ++ [.borrowEnd owner binding isMut line] }, ?_, ho.succ, ?_, ?_⟩
      · rw [Builder.closeBorrow, Builder.emit_get, if_pos rfl, hhere]
        rfl
      · intro x hx
        rcases List.mem_append.mp hx with hx | hx
        · exact ho.going x hx
        · rw [List.mem_singleton.mp hx]
          rfl
      · intro s hs hb
        rw [knownAfter_append]
        obtain ⟨hmem, hne⟩ := hsyms s hs
        exact Instr.mem_known.mpr (Or.inl ⟨ho.knows s hmem hb, fun hends => hne (List.mem_singleton.mp hends)⟩)

/-- A block just opened knows what is in scope. -/
theorem open_new {G : Layout} {B : Builder} {b : Nat} {l : String} (hb : B.blocks[b]? = some { label := l })
    (hscope : G.scope b = B.syms) : Open G B b { label := l } where
  here := hb
  succ := rfl
  going _ hins := absurd hins List.not_mem_nil
  knows _ hs hborn := mem_starting.mpr ⟨hscope ▸ hs, hborn⟩

/-- An edge from an open block to one just opened. -/
theorem Open.edge {G : Layout} {B B₁ : Builder} {cur c n : Nat} {blk : Block} {S : List Symbol} (ho : Open G B cur blk)
    (hS : Sound G B) (hc : 0 < c) (hlt : c < B₁.blocks.length) (hscope : G.scope c = S) (hsyms : ∀ s ∈ S, s ∈ B.syms)
    (hbound : G.bound c = n) (hn : B.nextSym ≤ n) : Edge G B₁ (knownAfter (G.starting cur) blk.instrs) c where
  pos := hc
  lt := hlt
  knows s hs := by
    obtain ⟨hmem, hborn⟩ := mem_starting.mp hs
    exact ho.knows s (hsyms s (hscope ▸ hmem)) hborn
  bound s hs := by
    have := (hS cur blk ho.here).young s hs
    omega

theorem Sound.fork {G : Layout} {B : Builder} {cur : Nat} {blk : Block} (hS : Sound G B) (hG : Tidy G B)
    (ho : Open G B cur blk) (ho₁ : G.Opens B B.blocks.length) (ho₂ : G.Opens B (B.blocks.length + 1)) :
    Sound G (B.fork cur) := by
  have hcur : cur < B.blocks.length := Builder.lt_of_get ho.here
  have h₁ : Sound G (B.newBlock "then") := hS.newBlock (hG.fine ho₁.1) _
  have hT₁ : Tidy G (B.newBlock "then") := hG.of_eq rfl (le_refl _) id
  have h₂ : Sound G ((B.newBlock "then").newBlock "else") := by
    refine h₁.newBlock ?_ _
    rw [Builder.newBlock_length]
    exact hT₁.fine ho₂.1
  have hhere : ((B.newBlock "then").newBlock "else").blocks[cur]? = some blk := by
    rw [Builder.newBlock_get, if_neg (by simp only [Builder.newBlock_length]; omega), Builder.newBlock_get,
      if_neg (by omega)]
    exact ho.here
  refine h₂.link hhere (Or.inr ho.going) ?_
  intro d hd
  simp only [List.mem_cons, List.not_mem_nil, or_false] at hd
  rcases hd with rfl | rfl
  · exact ho.edge hS (by omega) (by simp only [Builder.newBlock_length]; omega) ho₁.1 (fun s hs => hs) ho₁.2 (le_refl _)
  · exact ho.edge hS (by omega) (by simp only [Builder.newBlock_length]; omega) ho₂.1 (fun s hs => hs) ho₂.2 (le_refl _)

theorem Sound.linkIf {G : Layout} {B : Builder} {out : Option Nat} {d : Nat} (hS : Sound G B)
    (hout : ∀ c, out = some c → ∃ blk, B.blocks[c]? = some blk ∧ (∀ ins ∈ blk.instrs, ins.isReturn = false) ∧
      Edge G B (knownAfter (G.starting c) blk.instrs) d) : Sound G (B.linkIf out [d]) := by
  cases out with
  | none => exact hS
  | some c =>
    obtain ⟨blk, hblk, hgo, hedge⟩ := hout c rfl
    refine hS.link hblk (Or.inr hgo) ?_
    intro d' hd'
    rwa [List.mem_singleton.mp hd']

theorem Sound.openLoop {G : Layout} {B : Builder} {cur n : Nat} {blk : Block} (hS : Sound G B) (hG : Tidy G B)
    (ho : Open G B cur blk) (hs : G.scope B.blocks.length = B.syms) (hb : G.bound B.blocks.length = n)
    (hn : B.nextSym ≤ n) (ho₁ : G.Opens B (B.blocks.length + 1)) (ho₂ : G.Opens B (B.blocks.length + 2)) :
    Sound G (B.openLoop cur) := by
  have hcur : cur < B.blocks.length := Builder.lt_of_get ho.here
  have h₁ : Sound G (B.newBlock "while.header") := hS.newBlock (hG.fine hs) _
  have hhere : (B.newBlock "while.header").blocks[cur]? = some blk := by
    rw [Builder.newBlock_get, if_neg (by omega)]
    exact ho.here
  have h₂ : Sound G ((B.newBlock "while.header").link cur [B.blocks.length]) := by
    refine h₁.link hhere (Or.inr ho.going) ?_
    intro d hd
    rw [List.mem_singleton.mp hd]
    exact ho.edge hS (by omega) (by simp only [Builder.newBlock_length]; omega) hs (fun s hs => hs) hb hn
  have hT : ∀ B₁ : Builder, B₁.scopes = B.scopes → B₁.nextSym = B.nextSym → B₁.diags = B.diags → Tidy G B₁ :=
    fun B₁ h h' h'' => hG.of_eq h (le_of_eq h'.symm) (by rw [h'']; exact id)
  have h₃ : Sound G (((B.newBlock "while.header").link cur [B.blocks.length]).newBlock "while.body") := by
    refine h₂.newBlock ?_ _
    rw [Builder.link_length, Builder.newBlock_length]
    exact (hT ((B.newBlock "while.header").link cur [B.blocks.length]) rfl rfl rfl).fine ho₁.1
  have h₄ : Sound G ((((B.newBlock "while.header").link cur [B.blocks.length]).newBlock "while.body").newBlock
      "while.after") := by
    refine h₃.newBlock ?_ _
    rw [Builder.newBlock_length, Builder.link_length, Builder.newBlock_length]
    exact (hT (((B.newBlock "while.header").link cur [B.blocks.length]).newBlock "while.body") rfl rfl rfl).fine ho₂.1
  have hheader : ((((B.newBlock "while.header").link cur [B.blocks.length]).newBlock "while.body").newBlock
      "while.after").blocks[B.blocks.length]? = some { label := "while.header" } := by
    have e₁ : B.blocks.length ≠ cur := by omega
    have e₂ : B.blocks.length ≠ B.blocks.length + 1 := by omega
    have e₃ : B.blocks.length ≠ B.blocks.length + 1 + 1 := by omega
    simp only [Builder.link_get, Builder.newBlock_get, Builder.newBlock_length, Builder.link_length, if_neg e₁, if_neg e₂,
      if_neg e₃, if_true]
  refine h₄.link hheader (Or.inr fun ins hins => absurd hins List.not_mem_nil) ?_
  have hedge : ∀ d, d = B.blocks.length + 1 ∨ d = B.blocks.length + 2 → G.Opens B d → Edge G
      ((((B.newBlock "while.header").link cur [B.blocks.length]).newBlock "while.body").newBlock "while.after")
      (knownAfter (G.starting B.blocks.length) []) d := by
    intro d hd hopen
    refine ⟨by omega, by simp only [Builder.newBlock_length, Builder.link_length]; omega, ?_, ?_⟩
    · intro s hs'
      obtain ⟨hmem, hborn⟩ := mem_starting.mp hs'
      exact mem_starting.mpr ⟨by rw [hs, ← hopen.1]; exact hmem, hborn⟩
    · intro s hs'
      have := (mem_starting.mp hs').1
      rw [hs] at this
      rw [hopen.2]
      exact hG.scope.young s this
  intro d hd
  simp only [List.mem_cons, List.not_mem_nil, or_false] at hd
  rcases hd with rfl | rfl
  · exact hedge _ (Or.inl rfl) ho₁
  · exact hedge _ (Or.inr rfl) ho₂

theorem Builder.mem_syms_of_pop {B : Builder} {s : Symbol} (h : s ∈ B.popScope.syms) : s ∈ B.syms := by
  obtain ⟨sc, hsc, hs⟩ := List.mem_flatMap.mp h
  exact List.mem_flatMap.mpr ⟨sc, List.mem_of_mem_tail hsc, hs⟩

theorem Open.pop {G : Layout} {B : Builder} {c : Nat} {blk : Block} (h : Open G B c blk) : Open G B.popScope c blk :=
  ⟨h.here, h.succ, h.going, fun s hs => h.knows s (Builder.mem_syms_of_pop hs)⟩

/-- Both arms go on in a new block, opened with what is in scope after them. -/
theorem Sound.merge {G : Layout} {B : Builder} {t e : Option Nat} (hS : Sound G B) (hG : Tidy G B)
    (hopen : ¬(t = none ∧ e = none) → G.Opens B B.blocks.length) (ht : ∀ c, t = some c → ∃ blk, Open G B c blk)
    (he : ∀ c, e = some c → ∃ blk, Open G B c blk) (hne : ∀ c, t = some c → e ≠ some c) :
    Sound G (B.merge t e).1 ∧ ∀ c, (B.merge t e).2 = some c → ∃ blk, Open G (B.merge t e).1 c blk := by
  unfold Builder.merge
  split
  · exact ⟨hS, fun c hc => by cases hc⟩
  next hte =>
    have ho := hopen hte
    have hnew : Sound G (B.newBlock "merge") := hS.newBlock (hG.fine ho.1) _
    have hkeep : ∀ {c : Nat} {blk : Block}, B.blocks[c]? = some blk → (B.newBlock "merge").blocks[c]? = some blk := by
      intro c blk hblk
      rw [Builder.newBlock_get, if_neg (ne_of_lt (Builder.lt_of_get hblk))]
      exact hblk
    have hedge : ∀ {B₁ : Builder} {c : Nat} {blk : Block}, Open G B c blk → B.blocks.length < B₁.blocks.length →
        Edge G B₁ (knownAfter (G.starting c) blk.instrs) B.blocks.length := by
      intro B₁ c blk hc hlt
      have := Builder.lt_of_get hc.here
      exact hc.edge hS (by omega) hlt ho.1 (fun s hs => hs) ho.2 (le_refl _)
    have h₁ : Sound G ((B.newBlock "merge").linkIf t [B.blocks.length]) := by
      apply hnew.linkIf
      intro c hc
      obtain ⟨blk, hblk⟩ := ht c hc
      exact ⟨blk, hkeep hblk.here, hblk.going, hedge hblk (by simp)⟩
    have h₂ : Sound G (((B.newBlock "merge").linkIf t [B.blocks.length]).linkIf e [B.blocks.length]) := by
      apply h₁.linkIf
      intro c hc
      obtain ⟨blk, hblk⟩ := he c hc
      refine ⟨blk, ?_, hblk.going, hedge hblk (by simp)⟩
      rw [Builder.linkIf_get_of_ne fun htc => hne c htc hc]
      exact hkeep hblk.here
    refine ⟨h₂, ?_⟩
    intro c hc
    cases hc
    refine ⟨_, open_new (l := "merge") ?_ (ho.1.trans (by simp [Builder.syms]))⟩
    have ht' : t ≠ some B.blocks.length := by
      intro htc
      obtain ⟨blk, hblk⟩ := ht _ htc
      exact absurd (Builder.lt_of_get hblk.here) (lt_irrefl _)
    have he' : e ≠ some B.blocks.length := by
      intro hec
      obtain ⟨blk, hblk⟩ := he _ hec
      exact absurd (Builder.lt_of_get hblk.here) (lt_irrefl _)
    rw [Builder.linkIf_get_of_ne he', Builder.linkIf_get_of_ne ht', Builder.newBlock_get, if_pos rfl]

theorem Lowered.sound {G : Layout} {B B' : Builder} {cur : Nat} {out : Option Nat} (h : Lowered G B cur B' out)
    (hG : Tidy G B) (hS : Sound G B) {blk : Block} (ho : Open G B cur blk) :
    Sound G B' ∧ ∀ c, out = some c → ∃ blk', Open G B' c blk' := by
  induction h generalizing blk with
  | stay hl =>
    obtain ⟨hS', blk', ho'⟩ := hl.sound hG hS ho
    refine ⟨hS', ?_⟩
    intro c hc
    cases hc
    exact ⟨blk', ho'⟩
  | seq h₁ h₂ ih₁ ih₂ =>
    obtain ⟨hS₁, hout₁⟩ := ih₁ hG hS ho
    obtain ⟨blk₁, ho₁⟩ := hout₁ _ rfl
    exact ih₂ (h₁.tidy hG) hS₁ ho₁
  | ret hr => exact ⟨hS.ret hG ho hr, fun c hc => by cases hc⟩
  | @borrow B B' cur mk owner isMut line out hmem hk hd hborn hp h ih =>
    obtain ⟨hS₀, hG₀, blk₀, ho₀⟩ := @Sound.openBorrow G B cur blk mk owner isMut line hS hG ho hmem hk hd hborn hp
    obtain ⟨hS', hout⟩ := ih hG₀ hS₀ ho₀
    have hbind : mk B.nextSym ∈ B'.syms := h.grows.syms_mem (by simp) (Builder.mem_syms_declare.mpr (Or.inl rfl))
    refine hS'.closeBorrow hout ⟨hk, hd.2, hp⟩ ⟨hbind, by rw [hd.1]; exact hborn⟩ ?_
    intro s hs
    have hpop := h.pop (Builder.declare_scopes B.pushScope mk)
    have hmemB : s ∈ B.syms := by
      unfold Builder.syms at hs ⊢
      rw [hpop] at hs
      exact hs
    refine ⟨?_, ?_⟩
    · apply h.grows.syms_mem (by simp)
      exact Builder.mem_syms_declare.mpr (Or.inr (by simpa [Builder.syms] using hmemB))
    · rw [hd.1]
      exact ne_of_lt (hG.scope.young s hmemB)
  | @branch B B₁ B₂ cur t e ho₁ ho₂ h₁ h₂ ho₃ ih₁ ih₂ =>
    have hcur : cur < B.blocks.length := Builder.lt_of_get ho.here
    have hpush : (B.fork cur).pushScope.syms = B.syms := by simp [Builder.syms]
    have hTf : Tidy G (B.fork cur).pushScope := (show Tidy G (B.fork cur) from hG.of_eq rfl (le_refl _) id).push
    have hSf : Sound G (B.fork cur).pushScope := (hS.fork hG ho ho₁ ho₂).of_blocks rfl (le_refl _) id
    obtain ⟨lt, hlt⟩ := Builder.fork_get_new hcur (Or.inl rfl)
    obtain ⟨hS₁, hout₁⟩ := ih₁ hTf hSf (open_new (B := (B.fork cur).pushScope) hlt (ho₁.1.trans hpush.symm))
    have f₁ := h₁.frame (by simp)
    have hm₁ := h₁.mono
    simp only [Builder.fork_length, Builder.pushScope_blocks, Builder.pushScope_nextSym, Builder.fork_nextSym] at hm₁
    have hpop₁ : B₁.popScope.scopes = B.scopes := h₁.pop rfl
    have hT₁ : Tidy G B₁.popScope := hG.of_eq hpop₁ hm₁.2 h₁.diags
    have hpush₁ : B₁.popScope.pushScope.syms = B.syms := by
      unfold Builder.syms
      rw [Builder.pushScope_scopes, hpop₁]
      rfl
    obtain ⟨le, hle⟩ := Builder.fork_get_new hcur (Or.inr rfl)
    have hle₁ : B₁.popScope.pushScope.blocks[B.blocks.length + 1]? = some { label := le } := by
      rw [Builder.pushScope_blocks, Builder.popScope_blocks, f₁.keep _ (by simp) (by omega)]
      exact hle
    obtain ⟨hS₂, hout₂⟩ := ih₂ hT₁.push (hS₁.of_blocks rfl (le_refl _) id) (open_new hle₁ (ho₂.1.trans hpush₁.symm))
    have f₂ := h₂.frame (by simp only [Builder.pushScope_blocks, Builder.popScope_blocks]; omega)
    have hm₂ := h₂.mono
    simp only [Builder.pushScope_blocks, Builder.popScope_blocks, Builder.pushScope_nextSym,
      Builder.popScope_nextSym] at hm₂
    have hpop₂ : B₂.popScope.scopes = B.scopes := (h₂.pop rfl).trans hpop₁
    have hT₂ : Tidy G B₂.popScope :=
      hG.of_eq hpop₂ (le_trans hm₁.2 hm₂.2) fun hnil => h₁.diags (h₂.diags hnil)
    have hout : ∀ c, t = some c → c < B₁.blocks.length ∧ c ≠ B.blocks.length + 1 := by
      intro c hc
      obtain ⟨hor, hclt⟩ := f₁.out c hc
      simp only [Builder.pushScope_blocks, Builder.fork_length] at hor
      exact ⟨hclt, by omega⟩
    refine Sound.merge (hS₂.of_blocks rfl (le_refl _) id) hT₂ ho₃ ?_ ?_ ?_
    · intro c hc
      obtain ⟨blkt, hblkt⟩ := hout₁ c hc
      refine ⟨blkt, ?_, hblkt.succ, hblkt.going, ?_⟩
      · rw [Builder.popScope_blocks, f₂.keep c (hout c hc).1 (hout c hc).2]
        exact hblkt.here
      · intro s hs
        have hsB : s ∈ B₁.popScope.syms := by
          unfold Builder.syms at hs ⊢
          rw [hpop₂] at hs
          rw [hpop₁]
          exact hs
        exact hblkt.knows s (Builder.mem_syms_of_pop hsB)
    · intro c hc
      obtain ⟨blke, hblke⟩ := hout₂ c hc
      exact ⟨blke, hblke.pop⟩
    · intro c htc hec
      have h₁' := hout c htc
      have h₂' := (f₂.out c hec).1
      simp only [Builder.pushScope_blocks, Builder.popScope_blocks] at h₂'
      omega
  | @loop B B' cur out hs hb ho₁ ho₂ h ih =>
    have hcur : cur < B.blocks.length := Builder.lt_of_get ho.here
    have hm := h.mono
    simp only [Builder.openLoop_length, Builder.pushScope_blocks, Builder.pushScope_nextSym,
      Builder.openLoop_nextSym] at hm
    have hpush : (B.openLoop cur).pushScope.syms = B.syms := by simp [Builder.syms]
    have hTl : Tidy G (B.openLoop cur).pushScope := (show Tidy G (B.openLoop cur) from hG.of_eq rfl (le_refl _) id).push
    have hSl : Sound G (B.openLoop cur).pushScope :=
      (hS.openLoop hG ho hs hb hm.2 ho₁ ho₂).of_blocks rfl (le_refl _) id
    obtain ⟨lb, hlb⟩ := Builder.openLoop_get_new hcur (Or.inl rfl)
    obtain ⟨hS', hout⟩ := ih hTl hSl (open_new (B := (B.openLoop cur).pushScope) hlb (ho₁.1.trans hpush.symm))
    have f := h.frame (by simp)
    have hpop : B'.popScope.scopes = B.scopes := h.pop rfl
    have hsyms : ∀ s ∈ B.syms, s ∈ B'.syms := by
      intro s hs'
      apply Builder.mem_syms_of_pop
      unfold Builder.syms at hs' ⊢
      rwa [hpop]
    constructor
    · refine Sound.linkIf (hS'.of_blocks rfl (le_refl _) id) ?_
      intro c hc
      obtain ⟨blkc, hblkc⟩ := hout c hc
      have hS'' : Sound G B'.popScope := hS'.of_blocks rfl (le_refl _) id
      exact ⟨blkc, hblkc.here, hblkc.going,
        hblkc.edge hS' (by omega) (by simp only [Builder.popScope_blocks]; omega) hs hsyms hb (le_refl _)⟩
    · intro c hc
      cases hc
      obtain ⟨la, -, hla⟩ := f.after_loop hcur
      refine ⟨_, open_new (l := la) hla (ho₂.1.trans ?_)⟩
      unfold Builder.syms
      rw [Builder.linkIf_scopes, hpop]

end OwnNet.Lang
