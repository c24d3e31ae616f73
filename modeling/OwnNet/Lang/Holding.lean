/-
  OwnNet.Lang.Holding — what the analysis's states agree on at a place of a body, accepted
  or not: which resource a handle denotes, the loans in force, and whether an owner that
  some instruction started may be owned.

  An owner nothing starts has been reported. It denotes itself, has no state until it is
  moved, consumed or released, and is never marked as owned: a reader takes no state for
  owned.

  Proved: `Holds.run`: running the code of a block keeps this, and puts the block's marks.
-/

import OwnNet.Lang.Notes

namespace OwnNet.Lang

/-! ## Owners and the resources they denote -/

/-- The resource an owner denotes denotes itself, and so does an owner nothing starts. -/
def Rooted (G : Layout) (s : Symbol) : Prop :=
  s.kind = .owned → G.rid (G.rid s.id) = G.rid s.id ∧ (G.born s.id = false → G.rid s.id = s.id)

theorem Rooted.self {G : Layout} {s : Symbol} (h : G.rid s.id = s.id) : Rooted G s := fun _ => ⟨by rw [h, h], fun _ => h⟩

/-- The symbols in scope, and those the code acts on. -/
structure AllRooted (G : Layout) (B : Builder) : Prop where
  syms : ∀ s ∈ B.syms, Rooted G s
  code : ∀ b, ∀ ins ∈ B.code b, ∀ s ∈ ins.touches, Rooted G s

namespace AllRooted

variable {G : Layout} {B B' : Builder}

theorem of_eq (h : AllRooted G B) (hcode : ∀ b, B'.code b = B.code b) (hsyms : ∀ s ∈ B'.syms, s ∈ B.syms) :
    AllRooted G B' where
  syms s hs := h.syms s (hsyms s hs)
  code b ins hins := by
    rw [hcode] at hins
    exact h.code b ins hins

theorem declare (h : AllRooted G B) {mk : Nat → Symbol} (hmk : Rooted G (mk B.nextSym)) : AllRooted G (B.declare mk).1 where
  syms s hs := by
    rcases Builder.mem_syms_declare.mp hs with rfl | hs
    · exact hmk
    · exact h.syms s hs
  code b ins hins := by
    have hcode : (B.declare mk).1.code b = B.code b := by simp [Builder.code]
    rw [hcode] at hins
    exact h.code b ins hins

theorem emit (h : AllRooted G B) {b : Nat} {ins : Instr} (ht : ∀ s ∈ ins.touches, Rooted G s) : AllRooted G (B.emit b ins) where
  syms := h.syms
  code c x hx := by
    by_cases hc : c = b ∧ b < B.blocks.length
    · obtain ⟨rfl, hlt⟩ := hc
      rw [Builder.code_emit hlt] at hx
      rcases List.mem_append.mp hx with hx | hx
      · exact h.code c x hx
      · rw [List.mem_singleton.mp hx]
        exact ht
    · have hsame : (B.emit b ins).code c = B.code c := by
        unfold Builder.code
        rw [Builder.emit_get]
        split
        next hcb =>
          subst hcb
          have hnone : B.blocks[c]? = none := List.getElem?_eq_none (by omega)
          rw [hnone]
          rfl
        next => rfl
      rw [hsame] at hx
      exact h.code c x hx

theorem newBlock (h : AllRooted G B) (label : String) : AllRooted G (B.newBlock label) where
  syms := h.syms
  code b ins hins := by
    by_cases hb : b = B.blocks.length
    · have hnil : (B.newBlock label).code b = [] := by
        unfold Builder.code
        rw [Builder.newBlock_get, if_pos hb]
        rfl
      rw [hnil] at hins
      cases hins
    · have hsame : (B.newBlock label).code b = B.code b := by
        unfold Builder.code
        rw [Builder.newBlock_get, if_neg hb]
      rw [hsame] at hins
      exact h.code b ins hins

theorem link (h : AllRooted G B) (b : Nat) (succ : List Nat) : AllRooted G (B.link b succ) :=
  h.of_eq (fun c => B.code_link b c succ) fun _ hs => hs

theorem linkIf (h : AllRooted G B) (b : Option Nat) (succ : List Nat) : AllRooted G (B.linkIf b succ) := by
  cases b with
  | none => exact h
  | some b => exact h.link b succ

theorem push (h : AllRooted G B) : AllRooted G B.pushScope :=
  h.of_eq (fun _ => rfl) fun s hs => by simpa [Builder.syms] using hs

theorem pop (h : AllRooted G B) : AllRooted G B.popScope := h.of_eq (fun _ => rfl) fun _ hs => Builder.mem_syms_of_pop hs

end AllRooted

theorem Local.allRooted {G : Layout} {cur : Nat} {B B' : Builder} (h : Local G cur B B') (hR : AllRooted G B) :
    AllRooted G B' := by
  cases h with
  | report ds => exact hR.of_eq (fun _ => rfl) fun _ hs => hs
  | bare mk kind hd _ _ _ hr => exact hR.declare (Rooted.self (by rw [hd.1, hr]))
  | define mk ins hd hs _ _ ht hk hb hr =>
    have htouch : ∀ s ∈ ins.touches, Rooted G s := fun s hm => hR.syms s (ht s hm).1
    refine (hR.declare ?_).emit htouch
    -- what is started is its own resource, or its source's
    cases ins with
    | acquire sym resource line =>
      rw [show sym = mk B.nextSym from List.singleton_inj.mp hs] at hr
      exact Rooted.self hr
    | acquireBuffer sym info line =>
      rw [show sym = mk B.nextSym from List.singleton_inj.mp hs] at hr
      exact Rooted.self hr
    | moveInto dst src line =>
      rw [show dst = mk B.nextSym from List.singleton_inj.mp hs] at hr
      exact Rooted.self hr
    | aliasJoin handle src line =>
      rw [show handle = mk B.nextSym from List.singleton_inj.mp hs] at hr
      have hsrc := htouch src List.mem_cons_self hk.2
      intro _
      refine ⟨?_, fun hno => ?_⟩
      · show G.rid (G.rid (mk B.nextSym).id) = G.rid (mk B.nextSym).id
        rw [show G.rid (mk B.nextSym).id = G.rid src.id from hr, hsrc.1]
      · rw [hd.1, hb] at hno
        cases hno
    | borrowStart owner binding isMut line =>
      rw [show binding = mk B.nextSym from List.singleton_inj.mp hs] at hk
      exact absurd (hk.2.1.symm.trans hd.2) (by decide)
    | _ => cases hs
  | emit ins _ _ _ ht _ => exact hR.emit fun s hm => hR.syms s (ht s hm)

theorem Lowered.allRooted {G : Layout} {B B' : Builder} {cur : Nat} {out : Option Nat} (h : Lowered G B cur B' out)
    (hR : AllRooted G B) : AllRooted G B' := by
  induction h with
  | stay hl => exact hl.allRooted hR
  | seq _ _ ih₁ ih₂ => exact ih₂ (ih₁ hR)
  | ret hr =>
    refine (hR.emit fun s hs => ?_).link _ _
    exact hR.syms s (hr s (by simpa [Instr.touches] using hs)).1
  | @borrow B B' cur mk owner isMut line out ho _ hd _ _ _ ih =>
    have hb : Rooted G (mk B.nextSym) := fun hk => by
      rw [hd.2] at hk
      cases hk
    have hB' := ih ((hR.push.declare hb).emit fun s hs => by
      rw [show s = owner from List.mem_singleton.mp hs]
      exact hR.syms owner ho)
    cases out with
    | none => exact hB'.pop
    | some c => exact hB'.pop.emit fun s hs => by cases hs
  | @branch B B₁ B₂ cur t e _ _ _ _ _ ih₁ ih₂ =>
    have hfork : AllRooted G (B.fork cur) := ((hR.newBlock _).newBlock _).link _ _
    have h₂ := (ih₂ (ih₁ hfork.push).pop.push).pop
    unfold Builder.merge
    split
    · exact h₂
    · exact ((h₂.newBlock _).linkIf _ _).linkIf _ _
  | @loop B B' cur out _ _ _ _ _ ih =>
    have hopen : AllRooted G (B.openLoop cur) := ((((hR.newBlock _).link _ _).newBlock _).newBlock _).link _ _
    exact (ih hopen.push).pop.linkIf _ _

/-! ## What is known of the symbols started before, in any body -/

variable (syms : Nat → Option Symbol) {G : Layout}

/-- With each owner whose resource is started, the owner that started it. -/
structure Whole (G : Layout) (K : List Symbol) : Prop where
  inj : ∀ k ∈ K, ∀ k' ∈ K, k.id = k'.id → k = k'
  rooted : ∀ k ∈ K, Rooted G k
  root : ∀ k ∈ K, k.kind = .owned → G.born (G.rid k.id) → ∃ s ∈ K, s.kind = .owned ∧ s.id = G.rid k.id

/-- An instruction where `K` is known: what it touches may be an owner nothing starts. -/
structure Lies (G : Layout) (K : List Symbol) (ins : Instr) : Prop where
  fits : ins.Fits G K
  kinds : ins.Kinds
  rooted : ∀ s ∈ ins.touches, Rooted G s

def Lying (G : Layout) : List Symbol → List Instr → Prop
  | _, [] => True
  | K, ins :: rest => Lies G K ins ∧ Lying G (ins.known K) rest

theorem lying_of_fitting {K : List Symbol} {l : List Instr} (hf : Fitting G K l) (hk : ∀ ins ∈ l, ins.Kinds)
    (hr : ∀ ins ∈ l, ∀ s ∈ ins.touches, Rooted G s) : Lying G K l := by
  induction l generalizing K with
  | nil => trivial
  | cons ins rest ih =>
    refine ⟨⟨hf.1, hk ins List.mem_cons_self, hr ins List.mem_cons_self⟩, ?_⟩
    exact ih hf.2 (fun x hx => hk x (List.mem_cons_of_mem _ hx)) fun x hx => hr x (List.mem_cons_of_mem _ hx)

theorem lying_append {K : List Symbol} {l m : List Instr} :
    Lying G K (l ++ m) ↔ Lying G K l ∧ Lying G (knownAfter K l) m := by
  induction l generalizing K with
  | nil => simp [Lying, knownAfter]
  | cons ins rest ih => simp [Lying, knownAfter, ih, and_assoc]

theorem Lying.take {K : List Symbol} {l : List Instr} (h : Lying G K l) (i : Nat) : Lying G K (l.take i) := by
  rw [← List.take_append_drop i l, lying_append] at h
  exact h.1

theorem Lying.at {K : List Symbol} {l : List Instr} (h : Lying G K l) {i : Nat} {ins : Instr} (hi : l[i]? = some ins) :
    Lies G (knownAfter K (l.take i)) ins := by
  have hsplit := h.take (i + 1)
  rw [take_succ_of_get hi, lying_append] at hsplit
  exact hsplit.2.1

section

variable {K : List Symbol} {ins : Instr} {N : Note} {st : State}

/-- An instruction does not start the resource of what it acts on. -/
theorem Lies.not_own (hl : Lies G K ins) (hK : Whole G K) {s t : Symbol} (hs : s ∈ ins.starts) (ht : t ∈ ins.touches)
    (ho : t.kind = .owned) : G.rid t.id ≠ s.id := by
  intro he
  have hborn : G.born (G.rid t.id) := by
    rw [he]
    exact hl.fits.born s hs
  have htb : G.born t.id := by
    cases hb : G.born t.id with
    | true => rfl
    | false =>
      rw [(hl.rooted t ht ho).2 hb, hb] at hborn
      cases hborn
  obtain ⟨k, hk, -, hid⟩ := hK.root t (hl.fits.touched t ht htb) ho hborn
  exact hl.fits.fresh s hs k hk (hid.trans he)

theorem Lies.rooted_start (hl : Lies G K ins) {s : Symbol} (hs : s ∈ ins.starts) : Rooted G s := by
  have hr := hl.fits.rids
  cases ins with
  | acquire sym resource line =>
    rw [show s = sym from List.mem_singleton.mp hs]
    exact Rooted.self hr
  | acquireBuffer sym info line =>
    rw [show s = sym from List.mem_singleton.mp hs]
    exact Rooted.self hr
  | moveInto dst src line =>
    rw [show s = dst from List.mem_singleton.mp hs]
    exact Rooted.self hr
  | aliasJoin handle src line =>
    rw [show s = handle from List.mem_singleton.mp hs]
    have hsrc := hl.rooted src List.mem_cons_self hl.kinds.2
    have hborn := hl.fits.born handle List.mem_cons_self
    have hrid : G.rid handle.id = G.rid src.id := hr
    intro _
    refine ⟨by rw [hrid, hsrc.1], fun hno => ?_⟩
    rw [hborn] at hno
    cases hno
  | borrowStart owner binding isMut line =>
    rw [show s = binding from List.mem_singleton.mp hs]
    intro ho
    rw [hl.kinds.2.1] at ho
    cases ho
  | _ => cases hs

theorem Lies.start_rid (hl : Lies G K ins) {s : Symbol} (hs : s ∈ ins.starts) (ho : s.kind = .owned) :
    (G.rid s.id = s.id ∧ (s.id, VarState.owned) ∈ ins.marks G.rid) ∨
      ∃ t ∈ ins.touches, t.kind = .owned ∧ G.rid s.id = G.rid t.id :=
  Instr.start_rid hl.kinds hl.fits.rids hs ho

theorem Whole.known (hK : Whole G K) (hl : Lies G K ins) : Whole G (ins.known K) := by
  have hone : ∀ s ∈ ins.starts, ∀ s' ∈ ins.starts, s = s' := by
    intro s hs s' hs'
    obtain hnil | ⟨t, ht, -⟩ := Instr.starts_cases hl.kinds
    · rw [hnil] at hs
      cases hs
    · rw [ht] at hs hs'
      rw [List.mem_singleton.mp hs, List.mem_singleton.mp hs']
  -- a root stays: only loans end
  have hstay : ∀ k ∈ K, k.kind = .owned → k ∈ ins.known K := by
    intro k hk ho
    refine Instr.mem_known.mpr (Or.inl ⟨hk, fun hend => ?_⟩)
    obtain ⟨b, hb, hid, hkind⟩ := hl.fits.ended k.id hend
    rw [hK.inj b hb k hk hid, ho] at hkind
    cases hkind
  refine ⟨?_, ?_, ?_⟩
  · intro k hk k' hk' heq
    rcases Instr.mem_known.mp hk with ⟨hk, -⟩ | hk <;> rcases Instr.mem_known.mp hk' with ⟨hk', -⟩ | hk'
    · exact hK.inj k hk k' hk' heq
    · exact absurd heq (hl.fits.fresh k' hk' k hk)
    · exact absurd heq.symm (hl.fits.fresh k hk k' hk')
    · exact hone k hk k' hk'
  · intro k hk
    rcases Instr.mem_known.mp hk with ⟨hk, -⟩ | hk
    · exact hK.rooted k hk
    · exact hl.rooted_start hk
  · intro k hk ho hborn
    rcases Instr.mem_known.mp hk with ⟨hkK, -⟩ | hks
    · obtain ⟨s, hs, hso, hid⟩ := hK.root k hkK ho hborn
      exact ⟨s, hstay s hs hso, hso, hid⟩
    · obtain ⟨hself, -⟩ | ⟨t, ht, hto, hrid⟩ := hl.start_rid hks ho
      · exact ⟨k, hk, ho, hself.symm⟩
      · have htb : G.born t.id := by
          cases hb : G.born t.id with
          | true => rfl
          | false =>
            rw [hrid, (hl.rooted t ht hto).2 hb, hb] at hborn
            cases hborn
        rw [hrid] at hborn ⊢
        obtain ⟨s, hs, hso, hid⟩ := hK.root t (hl.fits.touched t ht htb) hto hborn
        exact ⟨s, hstay s hs hso, hso, hid⟩

theorem Whole.after {l : List Instr} (hK : Whole G K) (hl : Lying G K l) : Whole G (knownAfter K l) := by
  induction l generalizing K with
  | nil => exact hK
  | cons ins rest ih => exact ih (hK.known hl.1) hl.2

/-! ## What a state agrees on with the notes -/

structure Holds (G : Layout) (K : List Symbol) (N : Note) (st : State) : Prop where
  bound : ∀ n r, st.handleRid.get? n = some r → G.born n ∧ r = G.rid n
  handle : ∀ k ∈ K, k.kind = .owned → st.handleRid.get? k.id = some (G.rid k.id)
  loans : st.loans = N.loans
  held : ∀ k ∈ K, k.kind = .owned → G.rid k.id = k.id → ∃ S, st.var.get? k.id = some S ∧ (.owned ∈ S → N.owned k.id)
  born : ∀ n S, st.var.get? n = some S → .owned ∈ S → G.born n

/-- What may be owned by the note may be owned by the state. -/
def Owns (G : Layout) (K : List Symbol) (N : Note) (st : State) : Prop :=
  ∀ k ∈ K, k.kind = .owned → G.rid k.id = k.id → N.owned k.id → ∀ S, st.var.get? k.id = some S → .owned ∈ S

theorem Holds.ridOf (h : Holds G K N st) (hl : Lies G K ins) : Denotes G ins st := by
  intro s hs ho
  unfold State.ridOf Dict.getD
  cases hb : G.born s.id with
  | true =>
    rw [h.handle s (hl.fits.touched s hs hb) ho]
    rfl
  | false =>
    rw [(hl.rooted s hs ho).2 hb]
    cases hg : st.handleRid.get? s.id with
    | none => rfl
    | some r =>
      have hborn := (h.bound s.id r hg).1
      rw [hb] at hborn
      cases hborn

/-- A root known after an instruction was known before, or is marked by it. -/
theorem Lies.root_known (hl : Lies G K ins) (hK : Whole G K) {k : Symbol} (hk : k ∈ ins.known K) (ho : k.kind = .owned)
    (hroot : G.rid k.id = k.id) (hmark : lastMark k.id (ins.marks G.rid) = none) : k ∈ K := by
  rcases Instr.mem_known.mp hk with ⟨hk, -⟩ | hk
  · exact hk
  · obtain ⟨-, hm⟩ | ⟨t, ht, hto, hrid⟩ := hl.start_rid hk ho
    · obtain ⟨w, hw⟩ := lastMark_of_mem hm
      rw [hw] at hmark
      cases hmark
    · exact absurd (hrid.symm.trans hroot) (hl.not_own hK hk ht hto)

theorem Holds.step (h : Holds G K N st) (hK : Whole G K) (hl : Lies G K ins) :
    Holds G (ins.known K) (N.run G.rid [ins]) (step syms ins st).1 ∧ Steps G ins st (step syms ins st).1 := by
  have hs := step_steps syms hl.kinds hl.fits.rids (h.ridOf hl)
  have hmarks : marksOf G.rid [ins] = ins.marks G.rid := List.append_nil _
  have hafter : ∀ n v, lastMark n (ins.marks G.rid) = some v → ((N.run G.rid [ins]).owned n ↔ v = .owned) := by
    intro n v hv
    show ownedAfter G.rid [ins] N.owned n ↔ v = .owned
    unfold ownedAfter
    rw [hmarks, hv]
  have hsame : ∀ n, lastMark n (ins.marks G.rid) = none → ((N.run G.rid [ins]).owned n ↔ N.owned n) := by
    intro n hv
    show ownedAfter G.rid [ins] N.owned n ↔ N.owned n
    unfold ownedAfter
    rw [hmarks, hv]
  refine ⟨⟨?_, ?_, ?_, ?_, ?_⟩, hs⟩
  · intro n r hr
    by_cases hn : ∃ s ∈ ins.starts, s.kind = .owned ∧ s.id = n
    · obtain ⟨s, hsm, ho, rfl⟩ := hn
      rw [hs.bound s hsm ho] at hr
      cases hr
      exact ⟨hl.fits.born s hsm, rfl⟩
    · rw [hs.same n fun s hsm ho he => hn ⟨s, hsm, ho, he⟩] at hr
      exact h.bound n r hr
  · intro k hk ho
    rcases Instr.mem_known.mp hk with ⟨hk, -⟩ | hk
    · rw [hs.same k.id fun s hsm _ he => hl.fits.fresh s hsm k hk he.symm]
      exact h.handle k hk ho
    · exact hs.bound k hk ho
  · rw [hs.loans, h.loans]
    rfl
  · intro k hk ho hroot
    rw [hs.var, get?_setAll]
    cases hm : lastMark k.id (ins.marks G.rid) with
    | some v => exact ⟨{v}, rfl, fun hin => (hafter k.id v hm).mpr (Finset.mem_singleton.mp hin).symm⟩
    | none =>
      obtain ⟨S, hS, himp⟩ := h.held k (hl.root_known hK hk ho hroot hm) ho hroot
      exact ⟨S, hS, fun hin => (hsame k.id hm).mpr (himp hin)⟩
  · intro n S hS hin
    rw [hs.var, get?_setAll] at hS
    cases hm : lastMark n (ins.marks G.rid) with
    | some v =>
      rw [hm] at hS
      cases hS
      rw [← Finset.mem_singleton.mp hin] at hm
      obtain ⟨s, hsm, rfl⟩ := owned_mark (mem_of_lastMark hm)
      exact hl.fits.born s hsm
    | none =>
      rw [hm] at hS
      exact h.born n S hS hin

theorem Owns.step (h : Owns G K N st) (hK : Whole G K) (hl : Lies G K ins) {st' : State}
    (hvar : st'.var = setAll (ins.marks G.rid) st.var) : Owns G (ins.known K) (N.run G.rid [ins]) st' := by
  intro k hk ho hroot hN S hS
  rw [hvar, get?_setAll] at hS
  change ownedAfter G.rid [ins] N.owned k.id at hN
  unfold ownedAfter at hN
  rw [show marksOf G.rid [ins] = ins.marks G.rid from List.append_nil _] at hN
  cases hm : lastMark k.id (ins.marks G.rid) with
  | some v =>
    rw [hm] at hS hN
    cases hS
    exact Finset.mem_singleton.mpr hN.symm
  | none =>
    rw [hm] at hS hN
    exact h k (hl.root_known hK hk ho hroot hm) ho hroot hN S hS

theorem Holds.run {l : List Instr} (h : Holds G K N st) (hK : Whole G K) (hl : Lying G K l) :
    Holds G (knownAfter K l) (N.run G.rid l) (transfer syms l st).1 ∧
      (transfer syms l st).1.var = setAll (marksOf G.rid l) st.var := by
  induction l generalizing K N st with
  | nil => exact ⟨h, rfl⟩
  | cons ins rest ih =>
    obtain ⟨hstep, hs⟩ := h.step syms hK hl.1
    obtain ⟨hrest, hvar⟩ := ih hstep (hK.known hl.1) hl.2
    refine ⟨?_, ?_⟩
    · rw [show ins :: rest = [ins] ++ rest from rfl, run_append]
      exact hrest
    · show (transfer syms rest (Lang.step syms ins st).1).1.var = _
      rw [hvar, hs.var, ← setAll_append]
      rfl

theorem Owns.run {l : List Instr} (ho : Owns G K N st) (h : Holds G K N st) (hK : Whole G K) (hl : Lying G K l) :
    Owns G (knownAfter K l) (N.run G.rid l) (transfer syms l st).1 := by
  induction l generalizing K N st with
  | nil => exact ho
  | cons ins rest ih =>
    obtain ⟨hstep, hs⟩ := h.step syms hK hl.1
    rw [show ins :: rest = [ins] ++ rest from rfl, run_append]
    exact ih (ho.step hK hl.1 hs.var) hstep (hK.known hl.1) hl.2

end

end OwnNet.Lang
