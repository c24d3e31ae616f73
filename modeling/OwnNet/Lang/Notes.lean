/-
  OwnNet.Lang.Notes — what is known of a block before any analysis: the loans in force
  where it is entered, and which resources may still be owned there.

  A note is carried through the code of a block and along its edges. Lowering a statement
  list gives back the loans it was given, and leaves no resource of before owned that was
  not: so a back edge brings nothing to the head of its loop that is not noted there. This
  holds for every body, accepted or not.

  Proved: `Lowered.noted`.
-/

import OwnNet.Lang.Effects

namespace OwnNet.Lang

/-- Only what an instruction starts is marked as owned. -/
theorem owned_mark {rid : Nat → Nat} {ins : Instr} {n : Nat} (h : (n, VarState.owned) ∈ ins.marks rid) :
    ∃ s ∈ ins.starts, s.id = n := by
  cases ins with
  | acquire sym _ _ =>
    simp only [Instr.marks, List.mem_singleton, Prod.mk.injEq, and_true] at h
    exact ⟨sym, List.mem_cons_self, h.symm⟩
  | acquireBuffer sym _ _ =>
    simp only [Instr.marks, List.mem_singleton, Prod.mk.injEq, and_true] at h
    exact ⟨sym, List.mem_cons_self, h.symm⟩
  | moveInto dst src _ =>
    simp only [Instr.marks, List.mem_cons, Prod.mk.injEq, List.not_mem_nil, or_false, and_true, reduceCtorEq,
      and_false, false_or] at h
    exact ⟨dst, List.mem_cons_self, h.symm⟩
  | invoke callee args line => simp [Instr.marks] at h
  | return_ sym line => cases sym <;> simp [Instr.marks] at h
  | _ => simp [Instr.marks] at h

structure Note where
  loans : Dict Nat Loan
  owned : Nat → Prop

/-- What may be owned after some code: what it has marked so last, and what it has not marked. -/
def ownedAfter (rid : Nat → Nat) (l : List Instr) (S : Nat → Prop) (n : Nat) : Prop :=
  match lastMark n (marksOf rid l) with
  | some v => v = .owned
  | none => S n

def Note.run (rid : Nat → Nat) (l : List Instr) (N : Note) : Note := ⟨lendAll rid l N.loans, ownedAfter rid l N.owned⟩

namespace Builder

def code (B : Builder) (b : Nat) : List Instr := ((B.blocks[b]?).map Block.instrs).getD []

/-- Control goes from block `p`, whose code is `l`, to block `c`. -/
def Flow (B : Builder) (p c : Nat) (l : List Instr) : Prop := ∃ blk, B.blocks[p]? = some blk ∧ c ∈ blk.succ ∧ l = blk.instrs

/-- The note at the end of block `b`. -/
def noteAt (G : Layout) (F : Nat → Note) (B : Builder) (b : Nat) : Note := (F b).run G.rid (B.code b)

theorem code_of_get {B : Builder} {b : Nat} {blk : Block} (h : B.blocks[b]? = some blk) : B.code b = blk.instrs := by
  simp [code, h]

theorem Flow.lt {B : Builder} {p c : Nat} {l : List Instr} (h : B.Flow p c l) : p < B.blocks.length := by
  obtain ⟨blk, hb, -⟩ := h
  exact lt_of_get hb

theorem Flow.linked {B : Builder} {p c : Nat} {l : List Instr} (h : B.Flow p c l) : ¬B.Unlinked p := by
  obtain ⟨blk, hb, hc, -⟩ := h
  intro hu
  rw [hu blk hb] at hc
  cases hc

theorem flow_of_blocks {B B' : Builder} (h : B'.blocks = B.blocks) (p c : Nat) (l : List Instr) :
    B'.Flow p c l ↔ B.Flow p c l := by
  unfold Flow
  rw [h]

theorem flow_pop (B : Builder) (p c : Nat) (l : List Instr) : B.popScope.Flow p c l ↔ B.Flow p c l := Iff.rfl

theorem flow_emit {B : Builder} {b : Nat} (hu : B.Unlinked b) (ins : Instr) (p c : Nat) (l : List Instr) :
    (B.emit b ins).Flow p c l ↔ B.Flow p c l := by
  by_cases hp : p = b
  · subst hp
    exact ⟨fun h => absurd (hu.emit p ins) h.linked, fun h => absurd hu h.linked⟩
  · unfold Flow
    rw [emit_get, if_neg hp]

theorem flow_link {B : Builder} {b : Nat} (hu : B.Unlinked b) (hb : b < B.blocks.length) (succ : List Nat) (p c : Nat)
    (l : List Instr) : (B.link b succ).Flow p c l ↔ B.Flow p c l ∨ (p = b ∧ c ∈ succ ∧ l = B.code b) := by
  have hget : B.blocks[b]? = some B.blocks[b] := List.getElem?_eq_getElem hb
  by_cases hp : p = b
  · subst hp
    constructor
    · rintro ⟨blk, hblk, hc, rfl⟩
      rw [link_get, if_pos rfl, hget] at hblk
      cases hblk
      exact Or.inr ⟨rfl, hc, (code_of_get hget).symm⟩
    · rintro (h | ⟨-, hc, rfl⟩)
      · exact absurd hu h.linked
      · rw [code_of_get hget]
        refine ⟨{ B.blocks[p] with succ := succ }, ?_, hc, rfl⟩
        rw [link_get, if_pos rfl, hget]
        rfl
  · unfold Flow
    rw [link_get, if_neg hp]
    simp [hp]

theorem flow_newBlock (B : Builder) (label : String) (p c : Nat) (l : List Instr) :
    (B.newBlock label).Flow p c l ↔ B.Flow p c l := by
  by_cases hp : p = B.blocks.length
  · constructor
    · rintro ⟨blk, hblk, hc, -⟩
      rw [newBlock_get, if_pos hp] at hblk
      cases hblk
      cases hc
    · intro h
      have := h.lt
      omega
  · unfold Flow
    rw [newBlock_get, if_neg hp]

theorem code_newBlock {B : Builder} {label : String} {b : Nat} (h : b < B.blocks.length) :
    (B.newBlock label).code b = B.code b := by
  unfold code
  rw [newBlock_get, if_neg (ne_of_lt h)]

theorem code_link (B : Builder) (b c : Nat) (succ : List Nat) : (B.link b succ).code c = B.code c := by
  unfold code
  rw [link_get]
  split
  next h =>
    subst h
    cases B.blocks[c]? <;> rfl
  next => rfl

theorem code_linkIf (B : Builder) (b : Option Nat) (c : Nat) (succ : List Nat) : (B.linkIf b succ).code c = B.code c := by
  cases b with
  | none => rfl
  | some b => exact B.code_link b c succ

theorem code_emit {B : Builder} {b : Nat} (hb : b < B.blocks.length) (ins : Instr) :
    (B.emit b ins).code b = B.code b ++ [ins] := by
  unfold code
  rw [emit_get, if_pos rfl, List.getElem?_eq_getElem hb]
  rfl

theorem unlinked_newBlock {B : Builder} {b : Nat} (h : B.Unlinked b) (label : String) : (B.newBlock label).Unlinked b := by
  intro blk hblk
  rw [newBlock_get] at hblk
  split at hblk
  · cases hblk
    rfl
  · exact h blk hblk

theorem flow_fork {B : Builder} {cur : Nat} (hu : B.Unlinked cur) (hcur : cur < B.blocks.length) (p c : Nat) (l : List Instr) :
    (B.fork cur).Flow p c l ↔
      B.Flow p c l ∨ (p = cur ∧ (c = B.blocks.length ∨ c = B.blocks.length + 1) ∧ l = B.code cur) := by
  have hu' : ((B.newBlock "then").newBlock "else").Unlinked cur := unlinked_newBlock (unlinked_newBlock hu _) _
  have hcode : ((B.newBlock "then").newBlock "else").code cur = B.code cur := by
    rw [code_newBlock (by simp; omega), code_newBlock hcur]
  unfold fork
  rw [flow_link hu' (by simp; omega), flow_newBlock, flow_newBlock, hcode]
  simp

theorem flow_openLoop {B : Builder} {cur : Nat} (hu : B.Unlinked cur) (hcur : cur < B.blocks.length) (p c : Nat)
    (l : List Instr) : (B.openLoop cur).Flow p c l ↔ B.Flow p c l ∨ (p = cur ∧ c = B.blocks.length ∧ l = B.code cur) ∨
      (p = B.blocks.length ∧ (c = B.blocks.length + 1 ∨ c = B.blocks.length + 2) ∧ l = []) := by
  have hu₁ : (B.newBlock "while.header").Unlinked cur := unlinked_newBlock hu _
  have hhead : (((B.newBlock "while.header").link cur [B.blocks.length]).newBlock "while.body").newBlock "while.after"
      |>.Unlinked B.blocks.length := by
    refine unlinked_newBlock (unlinked_newBlock ?_ _) _
    intro blk hblk
    rw [link_get, if_neg (by omega), newBlock_get, if_pos rfl] at hblk
    cases hblk
    rfl
  have hcode : ((((B.newBlock "while.header").link cur [B.blocks.length]).newBlock "while.body").newBlock
      "while.after").code B.blocks.length = [] := by
    rw [code_newBlock (by rw [newBlock_length, link_length, newBlock_length]; omega), code_newBlock (by simp), code_link]
    unfold code
    rw [newBlock_get, if_pos rfl]
    rfl
  unfold openLoop
  rw [flow_link hhead (by simp; omega), flow_newBlock, flow_newBlock, flow_link hu₁ (by simp; omega), flow_newBlock,
    code_newBlock hcur, hcode, or_assoc]
  simp

/-- A merge adds an edge from the exit of each arm that has one. -/
theorem flow_merge {B : Builder} {t e : Option Nat} (ht : ∀ c, t = some c → c < B.blocks.length ∧ B.Unlinked c)
    (he : ∀ c, e = some c → c < B.blocks.length ∧ B.Unlinked c) (p c : Nat) (l : List Instr) :
    (B.merge t e).1.Flow p c l ↔
      B.Flow p c l ∨ ((t = some p ∨ e = some p) ∧ c = B.blocks.length ∧ l = B.code p) := by
  obtain ⟨hx, hto⟩ := merge_exit ht he
  by_cases hp : t = some p ∨ e = some p
  · have hpe : p < B.blocks.length ∧ B.Unlinked p := hp.elim (ht p) (he p)
    have hget : B.blocks[p]? = some B.blocks[p] := List.getElem?_eq_getElem hpe.1
    have hnew := (hto p hp).2 _ hget
    rw [code_of_get hget]
    constructor
    · rintro ⟨blk, hblk, hc, rfl⟩
      rw [hnew] at hblk
      cases hblk
      exact Or.inr ⟨hp, List.mem_singleton.mp hc, rfl⟩
    · rintro (h | ⟨-, rfl, rfl⟩)
      · exact absurd hpe.2 h.linked
      · exact ⟨_, hnew, List.mem_singleton.mpr rfl, rfl⟩
  · have htp : t ≠ some p := fun h => hp (Or.inl h)
    have hep : e ≠ some p := fun h => hp (Or.inr h)
    have hsame : (B.merge t e).1.Flow p c l ↔ B.Flow p c l := by
      unfold merge
      split
      · exact Iff.rfl
      · unfold Flow
        rw [linkIf_get_of_ne hep, linkIf_get_of_ne htp]
        exact flow_newBlock B "merge" p c l
    rw [hsame]
    simp [hp]

end Builder

/-! ## Notes of a body -/

/-- The notes agree with the code: along an edge the loans are those at the end of the block, and
    what may be owned there may be owned, if it is in scope; nothing else may. -/
structure Noted (G : Layout) (F : Nat → Note) (B : Builder) : Prop where
  lt : ∀ p c l, B.Flow p c l → c < B.blocks.length
  loans : ∀ p c l, B.Flow p c l → (F c).loans = ((F p).run G.rid l).loans
  upper : ∀ p c l, B.Flow p c l → ∀ n, ((F p).run G.rid l).owned n → (F c).owned n ∨ ∀ k ∈ G.scope c, k.id ≠ n
  lower : ∀ c, 0 < c → c < B.blocks.length → ∀ n, (F c).owned n →
    ∃ p < c, ∃ l, B.Flow p c l ∧ ((F p).run G.rid l).owned n

theorem Noted.congr {G : Layout} {F : Nat → Note} {B B' : Builder} (h : Noted G F B)
    (hflow : ∀ p c l, B'.Flow p c l ↔ B.Flow p c l) (hlen : B'.blocks.length = B.blocks.length) : Noted G F B' where
  lt p c l hf := by
    rw [hlen]
    exact h.lt p c l ((hflow p c l).mp hf)
  loans p c l hf := h.loans p c l ((hflow p c l).mp hf)
  upper p c l hf := h.upper p c l ((hflow p c l).mp hf)
  lower c hpos hc n hn := by
    rw [hlen] at hc
    obtain ⟨p, hp, l, hf, ho⟩ := h.lower c hpos hc n hn
    exact ⟨p, hp, l, (hflow p c l).mpr hf, ho⟩

/-- What lowering does to the notes: those there were stay, and at its end the loans are those at its
    beginning, and no older resource is owned that was not. -/
structure Restored (G : Layout) (F F' : Nat → Note) (B : Builder) (cur : Nat) (B' : Builder) (out : Option Nat) : Prop where
  keep : ∀ b < B.blocks.length, F' b = F b
  noted : Noted G F' B'
  loans : ∀ c, out = some c → (B'.noteAt G F' c).loans = (B.noteAt G F cur).loans
  owned : ∀ c, out = some c → ∀ n < B.nextSym, (B'.noteAt G F' c).owned n → (B.noteAt G F cur).owned n

/-- The notes there were, and `N` for every new block. -/
def notesFrom (F : Nat → Note) (n : Nat) (N : Note) (b : Nat) : Note := if b < n then F b else N

theorem notesFrom_old {F : Nat → Note} {n b : Nat} {N : Note} (h : b < n) : notesFrom F n N b = F b := if_pos h

theorem notesFrom_new {F : Nat → Note} {n b : Nat} {N : Note} (h : ¬b < n) : notesFrom F n N b = N := if_neg h

@[simp] theorem run_nil (rid : Nat → Nat) (N : Note) : N.run rid [] = N := rfl

theorem run_append (rid : Nat → Nat) (l m : List Instr) (N : Note) : N.run rid (l ++ m) = (N.run rid l).run rid m := by
  have hlend : ∀ (l : List Instr) (d : Dict Nat Loan), lendAll rid (l ++ m) d = lendAll rid m (lendAll rid l d) := by
    intro l
    induction l with
    | nil => exact fun _ => rfl
    | cons ins rest ih => exact fun d => ih _
  have hown : ownedAfter rid (l ++ m) N.owned = ownedAfter rid m (ownedAfter rid l N.owned) := by
    funext n
    have hlast : lastMark n (marksOf rid (l ++ m)) =
        match lastMark n (marksOf rid m) with
        | some v => some v
        | none => lastMark n (marksOf rid l) := by
      rw [marksOf, List.flatMap_append]
      exact lastMark_append n _ _
    unfold ownedAfter
    rw [hlast]
    cases lastMark n (marksOf rid m) <;> rfl
  show (⟨_, _⟩ : Note) = ⟨_, _⟩
  rw [hlend, hown]
  rfl

theorem noteAt_emit {G : Layout} {F : Nat → Note} {B : Builder} {cur : Nat} (hcur : cur < B.blocks.length) (ins : Instr) :
    (B.emit cur ins).noteAt G F cur = (B.noteAt G F cur).run G.rid [ins] := by
  unfold Builder.noteAt
  rw [Builder.code_emit hcur, run_append]

theorem noteAt_of_blocks {G : Layout} {F : Nat → Note} {B B' : Builder} (h : B'.blocks = B.blocks) (b : Nat) :
    B'.noteAt G F b = B.noteAt G F b := by
  unfold Builder.noteAt Builder.code
  rw [h]

theorem noteAt_pop {G : Layout} {F : Nat → Note} {B : Builder} (b : Nat) : B.popScope.noteAt G F b = B.noteAt G F b := rfl

/-- An instruction that neither takes nor gives back a loan. -/
theorem lend_same {rid : Nat → Nat} {ins : Instr} (hk : ins.Kinds) (hs : ∀ s ∈ ins.starts, s.kind = .owned)
    (he : ins.ends = []) (loans : Dict Nat Loan) : ins.lend rid loans = loans := by
  cases ins with
  | borrowStart owner binding isMut line =>
    have hown := hs binding List.mem_cons_self
    rw [hk.2.1] at hown
    cases hown
  | borrowEnd => cases he
  | _ => rfl

/-- What may be owned after one instruction: what it starts, or what might before. -/
theorem owned_run {rid : Nat → Nat} {ins : Instr} {N : Note} {n : Nat} (h : (N.run rid [ins]).owned n)
    (hs : ∀ s ∈ ins.starts, s.id ≠ n) : N.owned n := by
  change ownedAfter rid [ins] N.owned n at h
  unfold ownedAfter at h
  split at h
  next v hv =>
    subst h
    have hmem := mem_of_lastMark hv
    rw [marksOf, List.flatMap_cons, List.flatMap_nil, List.append_nil] at hmem
    obtain ⟨s, hs', rfl⟩ := owned_mark hmem
    exact absurd rfl (hs s hs')
  next => exact h

section

variable {G : Layout} {F : Nat → Note} {B B' : Builder} {cur : Nat}

theorem Restored.stay (hN : Noted G F B) (hb : B'.blocks = B.blocks) : Restored G F F B cur B' (some cur) where
  keep _ _ := rfl
  noted := hN.congr (Builder.flow_of_blocks hb) (by rw [hb])
  loans c hc := by
    cases hc
    rw [noteAt_of_blocks hb]
  owned c hc n _ ho := by
    cases hc
    rwa [noteAt_of_blocks hb] at ho

theorem Restored.emit (hN : Noted G F B) (hcur : cur < B.blocks.length) (hu : B.Unlinked cur) (hb : B'.blocks = B.blocks)
    {ins : Instr} (hk : ins.Kinds) (hown : ∀ s ∈ ins.starts, s.kind = .owned) (hnew : ∀ s ∈ ins.starts, B.nextSym ≤ s.id)
    (he : ins.ends = []) : Restored G F F B cur (B'.emit cur ins) (some cur) where
  keep _ _ := rfl
  noted := hN.congr (fun p c l => by rw [Builder.flow_emit (hu.of_blocks hb), Builder.flow_of_blocks hb]) (by simp [hb])
  loans c hc := by
    cases hc
    rw [noteAt_emit (by rw [hb]; exact hcur), noteAt_of_blocks hb]
    exact lend_same hk hown he _
  owned c hc n hn ho := by
    cases hc
    rw [noteAt_emit (by rw [hb]; exact hcur), noteAt_of_blocks hb] at ho
    refine owned_run ho fun s hs => ?_
    have := hnew s hs
    omega

theorem Local.restored (h : Local G cur B B') (hN : Noted G F B) (hcur : cur < B.blocks.length) (hu : B.Unlinked cur) :
    Restored G F F B cur B' (some cur) := by
  cases h with
  | report ds => exact .stay hN rfl
  | bare mk kind => exact .stay hN (by simp)
  | define mk ins hd hs he _ _ hk _ _ =>
    refine .emit hN hcur hu (by simp) hk ?_ ?_ he
    · intro s hsm
      rw [hs, List.mem_singleton] at hsm
      rw [hsm]
      exact hd.2
    · intro s hsm
      rw [hs, List.mem_singleton] at hsm
      rw [hsm, hd.1]
  | emit ins hs he _ _ hk =>
    refine .emit hN hcur hu rfl hk ?_ ?_ he
    · intro s hsm
      rw [hs] at hsm
      cases hsm
    · intro s hsm
      rw [hs] at hsm
      cases hsm

theorem Restored.trans {B₁ B₂ : Builder} {F₁ F₂ : Nat → Note} {c : Nat} {out : Option Nat}
    (h₁ : Restored G F F₁ B cur B₁ (some c)) (h₂ : Restored G F₁ F₂ B₁ c B₂ out)
    (hlen : B.blocks.length ≤ B₁.blocks.length) (hsym : B.nextSym ≤ B₁.nextSym) : Restored G F F₂ B cur B₂ out where
  keep b hb := by rw [h₂.keep b (lt_of_lt_of_le hb hlen), h₁.keep b hb]
  noted := h₂.noted
  loans d hd := by rw [h₂.loans d hd, h₁.loans c rfl]
  owned d hd n hn ho := h₁.owned c rfl n hn (h₂.owned d hd n (lt_of_lt_of_le hn hsym) ho)

/-- New blocks that nothing leads from yet, noted as entered from the end of `cur`. -/
theorem Noted.branch (hN : Noted G F B) (hcur : cur < B.blocks.length) (hu : B.Unlinked cur) :
    Noted G (notesFrom F B.blocks.length (B.noteAt G F cur)) (B.fork cur) := by
  have hrun : ∀ p c l, (B.fork cur).Flow p c l → p < B.blocks.length ∧ ((B.Flow p c l ∧ c < B.blocks.length) ∨
      (p = cur ∧ ¬c < B.blocks.length ∧ (F p).run G.rid l = B.noteAt G F cur)) := by
    intro p c l hf
    rcases (Builder.flow_fork hu hcur p c l).mp hf with hf | ⟨rfl, hc, rfl⟩
    · exact ⟨hf.lt, Or.inl ⟨hf, hN.lt p c l hf⟩⟩
    · exact ⟨hcur, Or.inr ⟨rfl, by omega, rfl⟩⟩
  refine ⟨?_, ?_, ?_, ?_⟩
  · intro p c l hf
    rw [Builder.fork_length]
    rcases (Builder.flow_fork hu hcur p c l).mp hf with hf | ⟨rfl, hc, rfl⟩
    · have := hN.lt p c l hf
      omega
    · omega
  · intro p c l hf
    obtain ⟨hp, ⟨hf, hc⟩ | ⟨rfl, hc, hn⟩⟩ := hrun p c l hf
    · rw [notesFrom_old hp, notesFrom_old hc]
      exact hN.loans p c l hf
    · rw [notesFrom_old hp, notesFrom_new hc, hn]
  · intro p c l hf n ho
    obtain ⟨hp, ⟨hf, hc⟩ | ⟨rfl, hc, hn⟩⟩ := hrun p c l hf
    · rw [notesFrom_old hp] at ho
      rw [notesFrom_old hc]
      exact hN.upper p c l hf n ho
    · rw [notesFrom_old hp, hn] at ho
      rw [notesFrom_new hc]
      exact Or.inl ho
  · intro c hpos hc n ho
    rw [Builder.fork_length] at hc
    by_cases hlt : c < B.blocks.length
    · rw [notesFrom_old hlt] at ho
      obtain ⟨p, hp, l, hf, hn⟩ := hN.lower c hpos hlt n ho
      exact ⟨p, hp, l, (Builder.flow_fork hu hcur p c l).mpr (Or.inl hf), by rw [notesFrom_old hf.lt]; exact hn⟩
    · rw [notesFrom_new hlt] at ho
      exact ⟨cur, by omega, _, (Builder.flow_fork hu hcur cur c _).mpr (Or.inr ⟨rfl, by omega, rfl⟩), by
        rw [notesFrom_old hcur]; exact ho⟩

/-- The head of a loop is noted as first entered: what a back edge may add is out of scope there. -/
theorem Noted.openLoop (hN : Noted G F B) (hcur : cur < B.blocks.length) (hu : B.Unlinked cur) :
    Noted G (notesFrom F B.blocks.length (B.noteAt G F cur)) (B.openLoop cur) := by
  have hrun : ∀ p c l, (B.openLoop cur).Flow p c l →
      (B.Flow p c l ∧ p < B.blocks.length ∧ c < B.blocks.length) ∨
      (p < B.blocks.length ∧ ¬c < B.blocks.length ∧ (F p).run G.rid l = B.noteAt G F cur) ∨
      (¬p < B.blocks.length ∧ ¬c < B.blocks.length ∧ l = []) := by
    intro p c l hf
    rcases (Builder.flow_openLoop hu hcur p c l).mp hf with hf | ⟨rfl, hc, rfl⟩ | ⟨rfl, hc, rfl⟩
    · exact Or.inl ⟨hf, hf.lt, hN.lt p c l hf⟩
    · exact Or.inr (Or.inl ⟨hcur, by omega, rfl⟩)
    · exact Or.inr (Or.inr ⟨by omega, by omega, rfl⟩)
  refine ⟨?_, ?_, ?_, ?_⟩
  · intro p c l hf
    rw [Builder.openLoop_length]
    rcases (Builder.flow_openLoop hu hcur p c l).mp hf with hf | ⟨rfl, hc, rfl⟩ | ⟨rfl, hc, rfl⟩
    · have := hN.lt p c l hf
      omega
    · omega
    · omega
  · intro p c l hf
    rcases hrun p c l hf with ⟨hf, hp, hc⟩ | ⟨hp, hc, hn⟩ | ⟨hp, hc, rfl⟩
    · rw [notesFrom_old hp, notesFrom_old hc]
      exact hN.loans p c l hf
    · rw [notesFrom_old hp, notesFrom_new hc, hn]
    · rw [notesFrom_new hp, notesFrom_new hc, run_nil]
  · intro p c l hf n ho
    rcases hrun p c l hf with ⟨hf, hp, hc⟩ | ⟨hp, hc, hn⟩ | ⟨hp, hc, rfl⟩
    · rw [notesFrom_old hp] at ho
      rw [notesFrom_old hc]
      exact hN.upper p c l hf n ho
    · rw [notesFrom_old hp, hn] at ho
      rw [notesFrom_new hc]
      exact Or.inl ho
    · rw [notesFrom_new hp, run_nil] at ho
      rw [notesFrom_new hc]
      exact Or.inl ho
  · intro c hpos hc n ho
    rw [Builder.openLoop_length] at hc
    by_cases hlt : c < B.blocks.length
    · rw [notesFrom_old hlt] at ho
      obtain ⟨p, hp, l, hf, hn⟩ := hN.lower c hpos hlt n ho
      exact ⟨p, hp, l, (Builder.flow_openLoop hu hcur p c l).mpr (Or.inl hf), by rw [notesFrom_old hf.lt]; exact hn⟩
    · rw [notesFrom_new hlt] at ho
      by_cases hhead : c = B.blocks.length
      · exact ⟨cur, by omega, _, (Builder.flow_openLoop hu hcur cur c _).mpr (Or.inr (Or.inl ⟨rfl, hhead, rfl⟩)), by
          rw [notesFrom_old hcur]; exact ho⟩
      · refine ⟨B.blocks.length, by omega, [], (Builder.flow_openLoop hu hcur _ c _).mpr
          (Or.inr (Or.inr ⟨rfl, by omega, rfl⟩)), ?_⟩
        rw [notesFrom_new (lt_irrefl _), run_nil]
        exact ho

/-- A back edge to `h` from block `d`, at whose end the loans are those `h` is entered with. -/
theorem Noted.link (hN : Noted G F B) {d h : Nat} (hd : d < B.blocks.length) (hu : B.Unlinked d) (hh : h < B.blocks.length)
    (hloans : (B.noteAt G F d).loans = (F h).loans)
    (howned : ∀ n, (B.noteAt G F d).owned n → (F h).owned n ∨ ∀ k ∈ G.scope h, k.id ≠ n) : Noted G F (B.link d [h]) := by
  have hflow : ∀ p c l, (B.link d [h]).Flow p c l ↔ B.Flow p c l ∨ (p = d ∧ c = h ∧ l = B.code d) := fun p c l => by
    rw [Builder.flow_link hu hd, List.mem_singleton]
  refine ⟨?_, ?_, ?_, ?_⟩
  · intro p c l hf
    rw [Builder.link_length]
    rcases (hflow p c l).mp hf with hf | ⟨-, rfl, -⟩
    · exact hN.lt p c l hf
    · exact hh
  · intro p c l hf
    rcases (hflow p c l).mp hf with hf | ⟨rfl, rfl, rfl⟩
    · exact hN.loans p c l hf
    · exact hloans.symm
  · intro p c l hf n ho
    rcases (hflow p c l).mp hf with hf | ⟨rfl, rfl, rfl⟩
    · exact hN.upper p c l hf n ho
    · exact howned n ho
  · intro c hpos hc n ho
    rw [Builder.link_length] at hc
    obtain ⟨p, hp, l, hf, hn⟩ := hN.lower c hpos hc n ho
    exact ⟨p, hp, l, (hflow p c l).mpr (Or.inl hf), hn⟩

/-- Where the arms meet, either may have come. -/
theorem Noted.merge (hN : Noted G F B) {t e : Option Nat} (ht : ∀ c, t = some c → c < B.blocks.length ∧ B.Unlinked c)
    (he : ∀ c, e = some c → c < B.blocks.length ∧ B.Unlinked c) {N : Note}
    (hloans : ∀ c, t = some c ∨ e = some c → (B.noteAt G F c).loans = N.loans)
    (howned : ∀ n, N.owned n ↔ ∃ c, (t = some c ∨ e = some c) ∧ (B.noteAt G F c).owned n) :
    Noted G (notesFrom F B.blocks.length N) (B.merge t e).1 := by
  have hlt : ∀ c, t = some c ∨ e = some c → c < B.blocks.length := fun c hc => hc.elim (fun h => (ht c h).1) fun h => (he c h).1
  have hrun : ∀ p c l, (B.merge t e).1.Flow p c l → p < B.blocks.length ∧ ((B.Flow p c l ∧ c < B.blocks.length) ∨
      ((t = some p ∨ e = some p) ∧ ¬c < B.blocks.length ∧ (F p).run G.rid l = B.noteAt G F p)) := by
    intro p c l hf
    rcases (Builder.flow_merge ht he p c l).mp hf with hf | ⟨hp, rfl, rfl⟩
    · exact ⟨hf.lt, Or.inl ⟨hf, hN.lt p c l hf⟩⟩
    · exact ⟨hlt p hp, Or.inr ⟨hp, lt_irrefl _, rfl⟩⟩
  refine ⟨?_, ?_, ?_, ?_⟩
  · intro p c l hf
    rcases (Builder.flow_merge ht he p c l).mp hf with hf | ⟨hp, rfl, -⟩
    · exact lt_of_lt_of_le (hN.lt p c l hf) (B.merge_length t e)
    · have hsome := ((merge_exit ht he).2 p hp).1
      have := (merge_some (fun d hd => (ht d hd).1) (fun d hd => (he d hd).1) hsome).2.2
      omega
  · intro p c l hf
    obtain ⟨hp, ⟨hf, hc⟩ | ⟨hpt, hc, hn⟩⟩ := hrun p c l hf
    · rw [notesFrom_old hp, notesFrom_old hc]
      exact hN.loans p c l hf
    · rw [notesFrom_old hp, notesFrom_new hc, hn, hloans p hpt]
  · intro p c l hf n ho
    obtain ⟨hp, ⟨hf, hc⟩ | ⟨hpt, hc, hn⟩⟩ := hrun p c l hf
    · rw [notesFrom_old hp] at ho
      rw [notesFrom_old hc]
      exact hN.upper p c l hf n ho
    · rw [notesFrom_old hp, hn] at ho
      rw [notesFrom_new hc]
      exact Or.inl ((howned n).mpr ⟨p, hpt, ho⟩)
  · intro c hpos hc n ho
    by_cases hcl : c < B.blocks.length
    · rw [notesFrom_old hcl] at ho
      obtain ⟨p, hp, l, hf, hn⟩ := hN.lower c hpos hcl n ho
      exact ⟨p, hp, l, (Builder.flow_merge ht he p c l).mpr (Or.inl hf), by rw [notesFrom_old hf.lt]; exact hn⟩
    · rw [notesFrom_new hcl] at ho
      obtain ⟨p, hpt, hn⟩ := (howned n).mp ho
      have hsome := ((merge_exit ht he).2 p hpt).1
      have hlen := (merge_some (fun d hd => (ht d hd).1) (fun d hd => (he d hd).1) hsome).2.2
      have hp := hlt p hpt
      refine ⟨p, by omega, _, (Builder.flow_merge ht he p c _).mpr (Or.inr ⟨hpt, by omega, rfl⟩), ?_⟩
      rw [notesFrom_old hp]
      exact hn

theorem code_new {b : Nat} {l : String} (h : B.blocks[b]? = some { label := l }) : B.code b = [] := Builder.code_of_get h

theorem popPush_scoped (h : B.Scoped) : B.popScope.pushScope.Scoped where
  some_ := List.cons_ne_nil _ _
  young s hs := h.young s (Builder.mem_syms_of_pop (by simpa [Builder.syms] using hs))

/-- No loan is in force yet under the identity of a symbol to come. -/
def Fresh (G : Layout) (F : Nat → Note) (B : Builder) (cur : Nat) : Prop :=
  ∀ n, B.nextSym ≤ n → (B.noteAt G F cur).loans.get? n = none

/-- Inside a borrow block one more loan is in force; its end takes it away again. -/
theorem Restored.borrow {F' : Nat → Note} {mk : Nat → Symbol} {owner : Symbol} {isMut : Bool} {line : Int} {out : Option Nat}
    (hid : (mk B.nextSym).id = B.nextSym) (hfresh : Fresh G F B cur) (hcur : cur < B.blocks.length)
    (hout : ∀ c, out = some c → c < B'.blocks.length ∧ B'.Unlinked c)
    (h : Restored G F F' ((B.pushScope.declare mk).1.emit cur (.borrowStart owner (mk B.nextSym) isMut line)) cur B' out) :
    Restored G F F' B cur (B'.closeBorrow owner (mk B.nextSym) isMut line out) out := by
  have hb : (B.pushScope.declare mk).1.blocks = B.blocks := by simp
  have hstart : ((B.pushScope.declare mk).1.emit cur (.borrowStart owner (mk B.nextSym) isMut line)).noteAt G F cur =
      (B.noteAt G F cur).run G.rid [.borrowStart owner (mk B.nextSym) isMut line] := by
    rw [noteAt_emit (by rw [hb]; exact hcur), noteAt_of_blocks hb]
  refine ⟨fun b hlt => h.keep b (by simpa using hlt), ?_, ?_, ?_⟩
  · cases out with
    | none => exact h.noted.congr (Builder.flow_of_blocks rfl) rfl
    | some c =>
      have hu : B'.popScope.Unlinked c := (hout c rfl).2.of_blocks rfl
      exact h.noted.congr (fun p c l => by
        rw [Builder.closeBorrow, Builder.flow_emit hu, Builder.flow_pop]) (by simp)
  · intro c hc
    subst hc
    rw [Builder.closeBorrow, noteAt_emit (by simpa using (hout c rfl).1), noteAt_pop]
    show ((B'.noteAt G F' c).loans.erase (mk B.nextSym).id) = _
    rw [h.loans c rfl, hstart]
    -- the loan taken, then given back
    apply Dict.ext_get?
    intro k
    show (((B.noteAt G F cur).loans.set (mk B.nextSym).id _).erase (mk B.nextSym).id).get? k = _
    rw [Dict.get?_erase, hid]
    split
    next hk => rw [hk, hfresh B.nextSym (le_refl _)]
    next hk => rw [Dict.get?_set_of_ne _ _ hk]
  · intro c hc n hn ho
    subst hc
    rw [Builder.closeBorrow, noteAt_emit (by simpa using (hout c rfl).1), noteAt_pop] at ho
    have hin := owned_run ho (by intro s hs; cases hs)
    have hbody := h.owned c rfl n (by simp only [Builder.emit_nextSym, Builder.declare_nextSym, Builder.pushScope_nextSym]; omega)
      hin
    rw [hstart] at hbody
    refine owned_run hbody fun s hs => ?_
    rw [show s = mk B.nextSym from List.mem_singleton.mp hs, hid]
    omega

/-- Every body has notes. -/
theorem Lowered.noted {out : Option Nat} (h : Lowered G B cur B' out) (hB : B.Scoped) (hcur : cur < B.blocks.length)
    (hu : B.Unlinked cur) (hN : Noted G F B) (hfresh : Fresh G F B cur) : ∃ F', Restored G F F' B cur B' out := by
  induction h generalizing F with
  | stay hl => exact ⟨F, hl.restored hN hcur hu⟩
  | @seq B B₁ B₂ cur c out h₁ h₂ ih₁ ih₂ =>
    obtain ⟨F₁, hb₁⟩ := ih₁ hB hcur hu hN hfresh
    obtain ⟨hlen, hsym⟩ := h₁.mono
    have hfresh₁ : Fresh G F₁ B₁ c := fun n hn => by
      rw [hb₁.loans c rfl]
      exact hfresh n (le_trans hsym hn)
    obtain ⟨F₂, hb₂⟩ := ih₂ (h₁.scoped hB) ((h₁.frame hcur).out _ rfl).2 (h₁.unlinked hcur hu _ rfl) hb₁.noted hfresh₁
    exact ⟨F₂, hb₁.trans hb₂ hlen hsym⟩
  | @ret B cur r line _ =>
    refine ⟨F, fun _ _ => rfl, hN.congr (fun p c l => ?_) (by simp), (by intro c hc; cases hc), (by intro c hc; cases hc)⟩
    rw [Builder.flow_link (hu.emit cur _) (by simpa using hcur), Builder.flow_emit hu]
    simp
  | @borrow B B' cur mk owner isMut line out _ _ hd _ _ h ih =>
    have hblocks : (B.pushScope.declare mk).1.blocks = B.blocks := by simp
    have hu₁ : (B.pushScope.declare mk).1.Unlinked cur := hu.of_blocks hblocks
    have hlen : cur < ((B.pushScope.declare mk).1.emit cur (.borrowStart owner (mk B.nextSym) isMut line)).blocks.length := by
      simpa using hcur
    have hscoped : ((B.pushScope.declare mk).1.emit cur (.borrowStart owner (mk B.nextSym) isMut line)).Scoped :=
      (hB.push.declare hd.1).of_eq (by simp) (by simp)
    have hnoted : Noted G F ((B.pushScope.declare mk).1.emit cur (.borrowStart owner (mk B.nextSym) isMut line)) :=
      hN.congr (fun p c l => by rw [Builder.flow_emit hu₁, Builder.flow_of_blocks hblocks]) (by simp)
    obtain ⟨F', hb⟩ := ih hscoped hlen (hu₁.emit cur _) hnoted fun n hn => by
      rw [noteAt_emit (by rw [hblocks]; exact hcur), noteAt_of_blocks hblocks]
      simp only [Builder.emit_nextSym, Builder.declare_nextSym, Builder.pushScope_nextSym] at hn
      show ((B.noteAt G F cur).loans.set (mk B.nextSym).id _).get? n = none
      rw [Dict.get?_set_of_ne _ _ (by rw [hd.1]; omega)]
      exact hfresh n (by omega)
    exact ⟨F', hb.borrow hd.1 hfresh hcur fun c hc => ⟨((h.frame hlen).out c hc).2, h.unlinked hlen (hu₁.emit cur _) c hc⟩⟩
  | @branch B B₁ B₂ cur t e _ _ h₁ h₂ _ ih₁ ih₂ =>
    have A := arms hcur hu h₁ h₂
    have hF := hN.branch hcur hu
    have hpush : Noted G (notesFrom F B.blocks.length (B.noteAt G F cur)) (B.fork cur).pushScope :=
      hF.congr (Builder.flow_of_blocks rfl) rfl
    obtain ⟨l₀, hl₀⟩ := Builder.fork_get_new hcur (Or.inl rfl)
    have hstart : (B.fork cur).pushScope.noteAt G (notesFrom F B.blocks.length (B.noteAt G F cur))
        B.blocks.length = B.noteAt G F cur := by
      unfold Builder.noteAt
      rw [code_new (B := (B.fork cur).pushScope) hl₀, run_nil, notesFrom_new (lt_irrefl _)]
    obtain ⟨F₁, hb₁⟩ := ih₁ (hB.push.of_eq (by simp) (by simp)) (by simp) (fork_unlinked hcur (Or.inl rfl)) hpush
      (fun n hn => by rw [hstart]; exact hfresh n hn)
    -- the second arm starts like the first
    obtain ⟨l₁, hl₁⟩ := A.else_
    have hnoted₁ : Noted G F₁ B₁.popScope.pushScope := hb₁.noted.congr (Builder.flow_of_blocks rfl) rfl
    have helse : B₁.popScope.pushScope.noteAt G F₁ (B.blocks.length + 1) = B.noteAt G F cur := by
      unfold Builder.noteAt
      rw [code_new (B := B₁.popScope.pushScope) hl₁, run_nil, hb₁.keep _ (by simp), notesFrom_new (by omega)]
      rfl
    have hsym₁ : B.nextSym ≤ B₁.nextSym := h₁.mono.2
    have hscoped₁ : B₁.Scoped := h₁.scoped (hB.push.of_eq (by simp) (by simp))
    obtain ⟨F₂, hb₂⟩ := ih₂ (popPush_scoped hscoped₁) (Builder.lt_of_get (B := B₁) hl₁) (unlinked_new hl₁) hnoted₁
      (fun n hn => by rw [helse]; exact hfresh n (le_trans hsym₁ hn))
    have hnoted₂ : Noted G F₂ B₂.popScope := hb₂.noted.congr (Builder.flow_of_blocks rfl) rfl
    have hthen : ∀ c, t = some c → B₂.popScope.noteAt G F₂ c = B₁.noteAt G F₁ c := by
      intro c hc
      have hf : c < B₁.blocks.length := ((h₁.frame (by simp)).out c hc).2
      unfold Builder.noteAt Builder.code
      rw [Builder.popScope_blocks, A.same c hc, hb₂.keep c (by simpa using hf)]
    have hloans : ∀ c, t = some c ∨ e = some c → (B₂.popScope.noteAt G F₂ c).loans = (B.noteAt G F cur).loans := by
      rintro c (hc | hc)
      · rw [hthen c hc, hb₁.loans c hc, hstart]
      · rw [noteAt_pop, hb₂.loans c hc, helse]
    have howned : ∀ c, t = some c ∨ e = some c → ∀ n < B.nextSym, (B₂.popScope.noteAt G F₂ c).owned n →
        (B.noteAt G F cur).owned n := by
      rintro c (hc | hc) n hn ho
      · rw [hthen c hc] at ho
        have := hb₁.owned c hc n hn ho
        rwa [hstart] at this
      · rw [noteAt_pop] at ho
        have := hb₂.owned c hc n (by simp only [Builder.pushScope_nextSym, Builder.popScope_nextSym]; omega) ho
        rwa [helse] at this
    have hm := hnoted₂.merge A.exit₁ A.exit₂ (N := ⟨(B.noteAt G F cur).loans, fun n =>
      ∃ c, (t = some c ∨ e = some c) ∧ (B₂.popScope.noteAt G F₂ c).owned n⟩) hloans fun n => Iff.rfl
    have hlen₁ := A.len₁
    have hlen₂ := A.len₂
    refine ⟨_, ?_, hm, ?_, ?_⟩
    · intro b hb
      simp only [Builder.popScope_blocks]
      rw [notesFrom_old (by omega), hb₂.keep b (by simp only [Builder.pushScope_blocks, Builder.popScope_blocks]; omega),
        hb₁.keep b (by simp only [Builder.pushScope_blocks, Builder.fork_length]; omega), notesFrom_old hb]
    · intro m hsome
      obtain ⟨rfl, hget, -⟩ := merge_some (fun d hd => (A.exit₁ d hd).1) (fun d hd => (A.exit₂ d hd).1) hsome
      unfold Builder.noteAt
      rw [code_new hget, run_nil, notesFrom_new (lt_irrefl _)]
    · intro m hsome n hn ho
      obtain ⟨rfl, hget, -⟩ := merge_some (fun d hd => (A.exit₁ d hd).1) (fun d hd => (A.exit₂ d hd).1) hsome
      unfold Builder.noteAt at ho
      rw [code_new hget, run_nil, notesFrom_new (lt_irrefl _)] at ho
      obtain ⟨c, hc, ho⟩ := ho
      exact howned c hc n hn ho
  | @loop B B' cur out hscope _ _ _ h ih =>
    have hu₁ : (B.openLoop cur).pushScope.Unlinked (B.blocks.length + 1) := openLoop_unlinked hcur (Or.inl rfl)
    have hlen : B.blocks.length + 1 < (B.openLoop cur).pushScope.blocks.length := by simp
    have hnoted : Noted G (notesFrom F B.blocks.length (B.noteAt G F cur)) (B.openLoop cur).pushScope :=
      (hN.openLoop hcur hu).congr (Builder.flow_of_blocks rfl) rfl
    obtain ⟨l₁, hl₁⟩ := Builder.openLoop_get_new hcur (Or.inl rfl)
    have hstart : (B.openLoop cur).pushScope.noteAt G (notesFrom F B.blocks.length (B.noteAt G F cur))
        (B.blocks.length + 1) = B.noteAt G F cur := by
      unfold Builder.noteAt
      rw [code_new (B := (B.openLoop cur).pushScope) hl₁, run_nil, notesFrom_new (by omega)]
    obtain ⟨F', hb⟩ := ih (hB.push.of_eq (by simp) (by simp)) hlen hu₁ hnoted (fun n hn => by rw [hstart]; exact hfresh n hn)
    have hnew : ∀ b, B.blocks.length ≤ b → b < B.blocks.length + 3 → F' b = B.noteAt G F cur := by
      intro b hge hlt
      rw [hb.keep b (by simpa using hlt), notesFrom_new (by omega)]
    have hold : ∀ b < B.blocks.length, F' b = F b := by
      intro b hlt
      rw [hb.keep b (by simp only [Builder.pushScope_blocks, Builder.openLoop_length]; omega), notesFrom_old hlt]
    have hmono := h.mono.1
    simp only [Builder.pushScope_blocks, Builder.openLoop_length] at hmono
    have f := h.frame hlen
    -- the back edge
    have hlinked : Noted G F' (B'.popScope.linkIf out [B.blocks.length]) := by
      have hpop : Noted G F' B'.popScope := hb.noted.congr (Builder.flow_of_blocks rfl) rfl
      cases out with
      | none => exact hpop
      | some d =>
        refine hpop.link (by simpa using (f.out d rfl).2) (h.unlinked hlen hu₁ d rfl)
          (by simp only [Builder.popScope_blocks]; omega) ?_ ?_
        · rw [noteAt_pop, hb.loans d rfl, hstart, hnew _ (le_refl _) (by omega)]
        · intro n ho
          rw [noteAt_pop] at ho
          by_cases hn : n < B.nextSym
          · have := hb.owned d rfl n hn ho
            rw [hstart] at this
            rw [hnew _ (le_refl _) (by omega)]
            exact Or.inl this
          · refine Or.inr fun k hk => ?_
            rw [hscope] at hk
            have := hB.young k hk
            omega
    have hafter : (B'.popScope.linkIf out [B.blocks.length]).noteAt G F' (B.blocks.length + 2) = B.noteAt G F cur := by
      obtain ⟨l₂, -, hget⟩ := f.after_loop hcur
      unfold Builder.noteAt
      rw [code_new hget, run_nil, hnew _ (by omega) (by omega)]
      rfl
    refine ⟨F', hold, hlinked, ?_, ?_⟩
    · intro c hc
      cases hc
      rw [hafter]
    · intro c hc n _ ho
      cases hc
      rwa [hafter] at ho

end

end OwnNet.Lang
