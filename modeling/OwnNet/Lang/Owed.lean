/-
  OwnNet.Lang.Owed — which leaks of a resource are reported, by what the statements of the
  function do to its handles.

  The analysis keeps one state for each handle and those that were joined to it. Handles are
  told apart by identity there and by name here; where no two names are alike the two agree.

  Proved: `leak_of_kin_iff`: a leak of the resource is reported exactly if some way through
  the body leaves one of its handles owned.
-/

import OwnNet.Lang.Handles

namespace OwnNet.Lang

open Graph

/-- The mark that counts is the last. -/
def lastOf (n : String) : List (String × VarState) → Option VarState
  | [] => none
  | m :: rest =>
    match lastOf n rest with
    | some v => some v
    | none => if m.1 = n then some m.2 else none

theorem mem_of_lastOf {n : String} {v : VarState} {ms : List (String × VarState)} (h : lastOf n ms = some v) : (n, v) ∈ ms := by
  induction ms with
  | nil => cases h
  | cons m rest ih =>
    rw [lastOf] at h
    cases hr : lastOf n rest with
    | some u =>
      rw [hr] at h
      cases h
      exact List.mem_cons_of_mem _ (ih hr)
    | none =>
      rw [hr] at h
      by_cases hm : m.1 = n
      · simp only [if_pos hm, Option.some.injEq] at h
        rw [← hm, ← h]
        exact List.mem_cons_self
      · simp [hm] at h

/-! ## Marks by identity and by name -/

theorem Instr.marks_eq {rid : Nat → Nat} {ins : Instr} (h : ins.Rids rid) :
    ins.marks rid = ins.fates.map fun f => (rid f.1.id, f.2) := by
  cases ins with
  | acquire sym resource line =>
    have hr : rid sym.id = sym.id := h
    simp [marks, fates, hr]
  | acquireBuffer sym info line =>
    have hr : rid sym.id = sym.id := h
    simp [marks, fates, hr]
  | moveInto dst src line =>
    have hr : rid dst.id = dst.id := h
    simp [marks, fates, hr]
  | return_ sym line => cases sym <;> rfl
  | invoke callee args line => simp [marks, fates]
  | _ => rfl

/-- Only what an instruction starts as a resource of its own is owned after it. -/
theorem Instr.owned_fate {K : Kin} {rid : Nat → Nat} {ins : Instr} (hst : K.Starts ins) (hr : ins.Rids rid) {s : Symbol}
    (h : (s, VarState.owned) ∈ ins.fates) : s ∈ ins.starts ∧ rid s.id = s.id ∧ ∀ n, K.root s.name = some n → n = s.name := by
  cases ins with
  | acquire sym _ _ =>
    obtain rfl : s = sym := by simpa [fates] using h
    exact ⟨List.mem_cons_self, hr, hst⟩
  | acquireBuffer sym _ _ =>
    obtain rfl : s = sym := by simpa [fates] using h
    exact ⟨List.mem_cons_self, hr, hst⟩
  | moveInto dst src _ =>
    obtain rfl : s = dst := by simpa [fates] using h
    exact ⟨List.mem_cons_self, hr, hst⟩
  | return_ sym _ => cases sym <;> simp [fates] at h
  | _ => simp [fates] at h

/-- What an instruction has an effect on is an owner it acts on or starts. -/
theorem Instr.fate_acts {ins : Instr} (hk : ins.Kinds) {f : Symbol × VarState} (h : f ∈ ins.fates) :
    f.1.kind = .owned ∧ (f.1 ∈ ins.touches ∨ f.1 ∈ ins.starts) := by
  cases ins with
  | acquire sym _ _ =>
    obtain rfl := List.mem_singleton.mp h
    exact ⟨hk, Or.inr List.mem_cons_self⟩
  | acquireBuffer sym _ _ =>
    obtain rfl := List.mem_singleton.mp h
    exact ⟨hk, Or.inr List.mem_cons_self⟩
  | moveInto dst src _ =>
    rcases List.mem_cons.mp h with rfl | h
    · exact ⟨hk.2, Or.inl List.mem_cons_self⟩
    · obtain rfl := List.mem_singleton.mp h
      exact ⟨hk.1, Or.inr List.mem_cons_self⟩
  | release sym _ =>
    obtain rfl := List.mem_singleton.mp h
    exact ⟨hk, Or.inl List.mem_cons_self⟩
  | invoke callee args line =>
    obtain ⟨s, hs, rfl⟩ := List.mem_map.mp h
    obtain ⟨hmem, hown⟩ := mem_consumed hs
    exact ⟨hown, Or.inl (List.mem_filterMap.mpr ⟨_, hmem, rfl⟩)⟩
  | return_ sym _ =>
    cases sym with
    | none => cases h
    | some s =>
      obtain rfl := List.mem_singleton.mp h
      exact ⟨hk s rfl, Or.inl List.mem_cons_self⟩
  | _ => cases h

theorem Instr.mem_symbols {ins : Instr} {s : Symbol} (h : s ∈ ins.touches ∨ s ∈ ins.starts) : s ∈ ins.symbols := by
  cases ins <;> simp_all [touches, starts, symbols, or_comm]

/-- Where identities and names agree on one root, its last mark is the same by either. -/
theorem lastMark_eq_lastOf {K : Kin} {rid : Nat → Nat} {r : Nat} {n : String} {fs : List (Symbol × VarState)}
    (h : ∀ f ∈ fs, rid f.1.id = r ↔ K.root f.1.name = some n) :
    lastMark r (fs.map fun f => (rid f.1.id, f.2)) = lastOf n (fs.flatMap fun f => K.mark f.1.name f.2) := by
  induction fs with
  | nil => rfl
  | cons f rest ih =>
    have hrest := ih fun g hg => h g (List.mem_cons_of_mem _ hg)
    have hhere := h f List.mem_cons_self
    rw [List.map_cons, lastMark, hrest, List.flatMap_cons]
    cases hroot : K.root f.1.name with
    | none =>
      rw [Kin.mark_none hroot, List.nil_append]
      rw [hroot] at hhere
      have hne : rid f.1.id ≠ r := fun heq => by cases hhere.mp heq
      rw [if_neg hne]
      cases lastOf n (rest.flatMap fun f => K.mark f.1.name f.2) <;> rfl
    | some m =>
      rw [hroot, Option.some.injEq] at hhere
      have hmark : K.mark f.1.name f.2 = [(m, f.2)] := by simp [Kin.mark, hroot]
      rw [hmark, List.singleton_append, lastOf]
      cases lastOf n (rest.flatMap fun f => K.mark f.1.name f.2) <;> simp [hhere]

/-! ## Where symbols come from -/

theorem Builder.has_iff {B : Builder} {ins : Instr} :
    B.Has ins ↔ ∃ (b : Nat) (blk : Block), B.blocks[b]? = some blk ∧ ins ∈ blk.instrs := by
  constructor
  · intro h
    obtain ⟨b, hb⟩ := h
    unfold Builder.code at hb
    cases hblk : B.blocks[b]? with
    | none =>
      rw [hblk] at hb
      cases hb
    | some blk =>
      rw [hblk] at hb
      exact ⟨b, blk, hblk, hb⟩
  · intro h
    obtain ⟨b, blk, hblk, hmem⟩ := h
    exact ⟨b, by rwa [Builder.code_of_get hblk]⟩

theorem Path.has {cfg : CFG} {L : Builder} (hcfg : cfg.blocks = L.blocks) {b i : Nat} {t : List Instr} (h : Path cfg b i t) :
    ∀ ins ∈ t, L.Has ins := by
  induction h with
  | entry => exact fun ins hins => absurd hins List.not_mem_nil
  | @instr b i t blk a hb hi _ ih =>
    intro ins hins
    rcases List.mem_append.mp hins with hins | hins
    · exact ih ins hins
    · rw [List.mem_singleton.mp hins, Builder.has_iff]
      exact ⟨b, blk, hcfg ▸ hb, List.mem_of_getElem? hi⟩
  | edge _ _ _ ih => exact ih

theorem Departs.has {cfg : CFG} {L : Builder} (hcfg : cfg.blocks = L.blocks) {t : List Instr} (h : Departs cfg t) :
    ∀ ins ∈ t, L.Has ins := by
  cases h with
  | returns _ _ hp => exact hp.has hcfg
  | falls _ _ hp => exact hp.has hcfg

section

variable {G : Layout} {F : Nat → Note} {cfg : CFG} {L : Builder}

theorem mem_knownAfter {K : List Symbol} {l : List Instr} {s : Symbol} (h : s ∈ knownAfter K l) :
    s ∈ K ∨ ∃ ins ∈ l, s ∈ ins.starts := by
  induction l generalizing K with
  | nil => exact Or.inl h
  | cons ins rest ih =>
    rcases ih h with h | ⟨x, hx, hs⟩
    · rcases Instr.mem_known.mp h with ⟨h, -⟩ | h
      · exact Or.inl h
      · exact Or.inr ⟨ins, List.mem_cons_self, h⟩
    · exact Or.inr ⟨x, List.mem_cons_of_mem _ hx, hs⟩

/-- A symbol of the function: a parameter, or one that some instruction starts. -/
def Begun (cfg : CFG) (L : Builder) (s : Symbol) : Prop := s ∈ cfg.params ∨ ∃ ins, L.Has ins ∧ s ∈ ins.starts

theorem begun_known (hcfg : cfg.blocks = L.blocks) {b : Nat} {blk : Block} (hb : cfg.blocks[b]? = some blk)
    (h : ∀ s ∈ G.starting b, Begun cfg L s) {l : List Instr} (hl : ∀ ins ∈ l, ins ∈ blk.instrs) :
    ∀ s ∈ knownAfter (G.starting b) l, Begun cfg L s := by
  intro s hs
  rcases mem_knownAfter hs with hs | ⟨ins, hins, hs⟩
  · exact h s hs
  · exact Or.inr ⟨ins, Builder.has_iff.mpr ⟨b, blk, hcfg ▸ hb, hl ins hins⟩, hs⟩

theorem Surveyed.starting_begun (hS : Surveyed G F cfg) (hcfg : cfg.blocks = L.blocks) :
    ∀ b < cfg.blocks.length, ∀ s ∈ G.starting b, Begun cfg L s := by
  intro b
  induction b using Nat.strong_induction_on with
  | _ b ih =>
    intro hlt s hs
    by_cases hpos : b = 0
    · rw [hpos] at hs
      exact Or.inl ((hS.start s).mp hs).1
    · obtain ⟨p, hp, blk, hblk, hc⟩ := hS.forward.back b (by omega) hlt
      exact begun_known hcfg hblk (ih p hp (by omega)) (fun _ h => h) s (hS.knows p blk hblk b hc s hs)

/-- What an instruction of the function is known to do. -/
structure Acting (G : Layout) (cfg : CFG) (L : Builder) (ins : Instr) : Prop where
  rids : ins.Rids G.rid
  kinds : ins.Kinds
  rooted : ∀ s ∈ ins.touches, Rooted G s
  begun : ∀ s ∈ ins.touches, G.born s.id → Begun cfg L s

theorem Surveyed.acts (hS : Surveyed G F cfg) (hcfg : cfg.blocks = L.blocks) {ins : Instr} (h : L.Has ins) :
    Acting G cfg L ins := by
  obtain ⟨b, blk, hb, hmem⟩ := Builder.has_iff.mp h
  rw [← hcfg] at hb
  obtain ⟨i, hi⟩ := List.getElem?_of_mem hmem
  have hlies := (hS.lying b blk hb).at hi
  refine ⟨hlies.fits.rids, hlies.kinds, hlies.rooted, fun s hs hborn => ?_⟩
  have hstart := hS.starting_begun hcfg b (List.getElem?_eq_some_iff.mp hb).1
  exact begun_known hcfg hb hstart (fun _ h => List.mem_of_mem_take h) s (hlies.fits.touched s hs hborn)

end

/-! ## Roots -/

section

variable {K : Kin} {G : Layout} {F : Nat → Note} {cfg : CFG} {L : Builder} {D : List Symbol}

/-- The symbols of a function, by what the analysis and `K` say of them. -/
structure Accounted (K : Kin) (G : Layout) (cfg : CFG) (L : Builder) (D : List Symbol) : Prop where
  hist : Hist K L D
  names : (D.map Symbol.name).Nodup
  params : ∀ p ∈ cfg.params, p ∈ D ∧ K.root p.name = none ∧ G.rid p.id = p.id
  acts : ∀ ins, L.Has ins → Acting G cfg L ins

/-- The resource of an owner is that of a symbol with the same root, which is its own if it has one. -/
theorem Accounted.root (h : Accounted K G cfg L D) : ∀ s ∈ D, s.kind = .owned →
    (∃ ins, L.Has ins ∧ (s ∈ ins.touches ∨ s ∈ ins.starts)) →
    ∃ x ∈ D, G.rid s.id = x.id ∧ K.root s.name = K.root x.name ∧ ∀ n, K.root x.name = some n → n = x.name := by
  intro s
  induction hn : s.id using Nat.strong_induction_on generalizing s with
  | _ m ih =>
    subst hn
    intro hs hk hact
    -- by what started it
    have hstarted : ∀ ins, L.Has ins → s ∈ ins.starts → ∃ x ∈ D, G.rid s.id = x.id ∧ K.root s.name = K.root x.name ∧
        ∀ n, K.root x.name = some n → n = x.name := by
      intro ins hins hmem
      have hrid := (h.acts ins hins).rids
      have hkinds := (h.acts ins hins).kinds
      obtain ⟨hsyms, hst⟩ := h.hist.code ins hins
      cases ins with
      | acquire sym _ _ =>
        obtain rfl := List.mem_singleton.mp hmem
        exact ⟨s, hs, hrid, rfl, hst⟩
      | acquireBuffer sym _ _ =>
        obtain rfl := List.mem_singleton.mp hmem
        exact ⟨s, hs, hrid, rfl, hst⟩
      | moveInto dst src _ =>
        obtain rfl := List.mem_singleton.mp hmem
        exact ⟨s, hs, hrid, rfl, hst⟩
      | borrowStart owner binding _ _ =>
        obtain rfl := List.mem_singleton.mp hmem
        rw [hkinds.2.1] at hk
        cases hk
      | aliasJoin handle src _ =>
        obtain rfl := List.mem_singleton.mp hmem
        have hsrc := hsyms src List.mem_cons_self
        obtain ⟨x, hx, hxid, hroot, hself⟩ := ih src.id hst.2 src rfl hsrc hkinds.2 ⟨_, hins, Or.inl List.mem_cons_self⟩
        have hr : G.rid s.id = G.rid src.id := hrid
        exact ⟨x, hx, by rw [hr, hxid], by rw [hst.1, hroot], hself⟩
      | _ => cases hmem
    cases hroot : K.root s.name with
    | some r =>
      obtain ⟨ins, hins, hmem⟩ := h.hist.started s hs r hroot
      rw [← hroot]
      exact hstarted ins hins hmem
    | none =>
      rw [← hroot]
      have hself : G.rid s.id = s.id → ∃ x ∈ D, G.rid s.id = x.id ∧ K.root s.name = K.root x.name ∧
          ∀ n, K.root x.name = some n → n = x.name := by
        intro hid
        refine ⟨s, hs, hid, rfl, fun n hn => ?_⟩
        rw [hroot] at hn
        cases hn
      obtain ⟨ins, hins, htouch | hstart⟩ := hact
      · cases hborn : G.born s.id with
        | false => exact hself (((h.acts ins hins).rooted s htouch hk).2 hborn)
        | true =>
          rcases (h.acts ins hins).begun s htouch hborn with hp | ⟨x, hx, hmem⟩
          · exact hself (h.params s hp).2.2
          · exact hstarted x hx hmem
      · exact hstarted ins hins hstart

theorem Accounted.same (h : Accounted K G cfg L D) {s t : Symbol} (hs : s ∈ D) (ht : t ∈ D) (hid : s.id = t.id) : s = t :=
  List.inj_on_of_nodup_map h.hist.ids hs ht hid

/-- The identity of a root is the resource of just its handles. -/
theorem Accounted.rid_iff (h : Accounted K G cfg L D) {x : Symbol} (hx : x ∈ D) (hroot : K.root x.name = some x.name)
    {ins : Instr} (hins : L.Has ins) {f : Symbol × VarState} (hf : f ∈ ins.fates) :
    G.rid f.1.id = x.id ↔ K.root f.1.name = some x.name := by
  obtain ⟨hk, hact⟩ := Instr.fate_acts (h.acts ins hins).kinds hf
  have hD : f.1 ∈ D := (h.hist.code ins hins).1 f.1 (Instr.mem_symbols hact)
  obtain ⟨y, hy, hrid, hsame, hself⟩ := h.root f.1 hD hk ⟨ins, hins, hact⟩
  rw [hrid, hsame]
  constructor
  · intro hid
    rw [h.same hy hx hid]
    exact hroot
  · intro hyroot
    have hname := hself _ hyroot
    rw [List.inj_on_of_nodup_map h.names hx hy hname]

/-- Every symbol of the function has been declared. -/
theorem Accounted.all (h : Accounted K G cfg L D) (hcfg : cfg.blocks = L.blocks) :
    ∀ t ∈ cfg.params ++ cfg.blocks.flatMap fun blk => blk.instrs.flatMap Instr.symbols, t ∈ D := by
  intro t ht
  rcases List.mem_append.mp ht with ht | ht
  · exact (h.params t ht).1
  · obtain ⟨blk, hblk, ht⟩ := List.mem_flatMap.mp ht
    obtain ⟨x, hx, ht⟩ := List.mem_flatMap.mp ht
    obtain ⟨b, hb⟩ := List.getElem?_of_mem hblk
    exact (h.hist.code x (Builder.has_iff.mpr ⟨b, blk, hcfg ▸ hb, hx⟩)).1 t ht

theorem Accounted.found (h : Accounted K G cfg L D) (hcfg : cfg.blocks = L.blocks) {r : Nat} {s : Symbol}
    (hs : cfg.symById r = some s) : s ∈ D ∧ s.id = r := by
  obtain ⟨hmem, hid⟩ := Dict.of_find_key hs
  exact ⟨h.all hcfg s hmem, hid⟩

theorem Accounted.symById (h : Accounted K G cfg L D) (hcfg : cfg.blocks = L.blocks) {ins : Instr} (hins : L.Has ins)
    {s : Symbol} (hs : s ∈ ins.symbols) : cfg.symById s.id = some s := by
  obtain ⟨b, blk, hb, hmem⟩ := Builder.has_iff.mp hins
  have hin : s ∈ cfg.params ++ cfg.blocks.flatMap fun blk => blk.instrs.flatMap Instr.symbols := by
    refine List.mem_append_right _ (List.mem_flatMap.mpr ⟨blk, ?_, List.mem_flatMap.mpr ⟨ins, hmem, hs⟩⟩)
    rw [hcfg]
    exact List.mem_of_getElem? hb
  exact Dict.find_key_eq (fun t ht u hu hid => h.same (h.all hcfg t ht) (h.all hcfg u hu) hid) hin

/-- Along a path out, a resource of a handle is left owned just where the name of its root is. -/
theorem Accounted.left_owned (h : Accounted K G cfg L D) (hcfg : cfg.blocks = L.blocks) {t : List Instr}
    (ht : ∀ ins ∈ t, L.Has ins) :
    (∃ r, (∃ s, cfg.symById r = some s ∧ K.ours s.origin = true) ∧ lastMark r (cfg.paramMarks ++ marksOf G.rid t) = some .owned) ↔
      ∃ n, lastOf n (t.flatMap K.marks) = some .owned := by
  have hfs : ∀ f ∈ t.flatMap Instr.fates, ∃ ins, L.Has ins ∧ f ∈ ins.fates := by
    intro f hf
    obtain ⟨ins, hins, hf⟩ := List.mem_flatMap.mp hf
    exact ⟨ins, ht ins hins, hf⟩
  have hids : marksOf G.rid t = (t.flatMap Instr.fates).map fun f => (G.rid f.1.id, f.2) := by
    rw [marksOf, List.map_flatMap]
    exact List.flatMap_congr fun ins hins => Instr.marks_eq (h.acts ins (ht ins hins)).rids
  have hnames : t.flatMap K.marks = (t.flatMap Instr.fates).flatMap fun f => K.mark f.1.name f.2 := by
    rw [List.flatMap_assoc]
    rfl
  -- the two accounts agree on a root
  have hagree : ∀ x ∈ D, K.root x.name = some x.name → lastMark x.id (marksOf G.rid t) = lastOf x.name (t.flatMap K.marks) := by
    intro x hx hroot
    rw [hids, hnames]
    refine lastMark_eq_lastOf fun f hf => ?_
    obtain ⟨ins, hins, hf⟩ := hfs f hf
    exact h.rid_iff hx hroot hins hf
  constructor
  · intro hleft
    obtain ⟨r, ⟨s, hs, hours⟩, hlast⟩ := hleft
    obtain ⟨hsD, hsid⟩ := h.found hcfg hs
    rw [(h.hist.known s hsD).ours] at hours
    obtain ⟨n, hn⟩ := Option.isSome_iff_exists.mp hours
    rw [lastMark_append] at hlast
    cases hms : lastMark r (marksOf G.rid t) with
    | some v =>
      rw [hms] at hlast
      have hmem := mem_of_lastMark hms
      rw [hids] at hmem
      obtain ⟨f, hf, heq⟩ := List.mem_map.mp hmem
      obtain ⟨hrid, hown⟩ := Prod.mk.inj heq
      have hfown : f = (f.1, VarState.owned) := by rw [← Option.some.inj hlast, ← hown]
      obtain ⟨ins, hins, hf⟩ := hfs f hf
      rw [hfown] at hf
      obtain ⟨-, hself, hname⟩ := Instr.owned_fate (h.hist.code ins hins).2 (h.acts ins hins).rids hf
      have hfD := (h.hist.code ins hins).1 f.1 (Instr.mem_symbols (Instr.fate_acts (h.acts ins hins).kinds hf).2)
      obtain rfl : s = f.1 := h.same hsD hfD (by rw [hsid, ← hrid, hself])
      have hroot := hname n hn
      subst hroot
      refine ⟨f.1.name, ?_⟩
      rw [← hagree f.1 hsD hn, hsid, hms]
      exact hlast
    | none =>
      -- only the parameters have a mark, and none of them is a handle
      rw [hms] at hlast
      obtain ⟨p, hp, heq⟩ := List.mem_map.mp (mem_of_lastMark hlast)
      obtain ⟨hpD, hno, -⟩ := h.params p (List.mem_filter.mp hp).1
      obtain rfl : s = p := h.same hsD hpD (hsid.trans (congrArg Prod.fst heq).symm)
      rw [hno] at hn
      cases hn
  · intro hleft
    obtain ⟨n, hlast⟩ := hleft
    have hmem := mem_of_lastOf hlast
    rw [hnames] at hmem
    obtain ⟨f, hf, hmark⟩ := List.mem_flatMap.mp hmem
    obtain ⟨m, hm, heq⟩ := List.mem_map.mp hmark
    obtain ⟨rfl, hown⟩ := Prod.mk.inj heq
    have hroot : K.root f.1.name = some m := by simpa using hm
    have hfown : f = (f.1, VarState.owned) := by rw [← hown]
    obtain ⟨ins, hins, hf⟩ := hfs f hf
    have hfsyms := Instr.mem_symbols (Instr.fate_acts (h.acts ins hins).kinds hf).2
    have hfD := (h.hist.code ins hins).1 f.1 hfsyms
    rw [hfown] at hf
    obtain ⟨-, -, hname⟩ := Instr.owned_fate (h.hist.code ins hins).2 (h.acts ins hins).rids hf
    have hself := hname m hroot
    subst hself
    refine ⟨f.1.id, ⟨f.1, h.symById hcfg hins hfsyms, ?_⟩, ?_⟩
    · rw [(h.hist.known f.1 hfD).ours, hroot]
      rfl
    · rw [lastMark_append, hagree f.1 hfD hroot, hlast]

end

/-! ## A whole function -/

/-- A parameter is no handle. -/
structure Kin.Takes (K : Kin) (env : Env) (p : Param) : Prop where
  root : K.root p.name = none
  ours : K.ours (some s!"{p.name}#{p.line}") = false
  owner : K.owner p.name = true ↔ p.type.borrowed = false ∧ p.type.name ∈ env.resourceNames

/-- The names of a function are what `K` says, and no two are alike. -/
structure Kin.Governs (K : Kin) (env : Env) (fn : FnDecl) : Prop where
  params : ∀ p ∈ fn.params, K.Takes env p
  body : ∀ x ∈ piecesSeq fn.body, K.Tied x
  nodup : (fn.params.map Param.name ++ declares fn.body).Nodup

section

variable {K : Kin} {env : Env} {fn : FnDecl} {B : Builder} {D : List Symbol}

theorem declareParams_hist {ps : List Param} (hps : ∀ p ∈ ps, K.Takes env p) (h : Hist K B D) :
    Hist K (declareParams env ps B).1 (D ++ (declareParams env ps B).2) ∧
      (declareParams env ps B).2.map Symbol.name = ps.map Param.name := by
  induction ps generalizing B D with
  | nil => exact ⟨by simpa [declareParams] using h, rfl⟩
  | cons p rest ih =>
    have hp := hps p List.mem_cons_self
    have hkind : (declareParam env p B).2.kind = .owned ↔ K.owner p.name = true := by
      rw [hp.owner]
      simp only [declareParam, Builder.declare_snd]
      by_cases hb : p.type.borrowed = true
      · simp [hb]
      · by_cases hm : p.type.name ∈ env.resourceNames <;> simp [hb, hm]
    have hknown : K.Known (declareParam env p B).2 := by
      refine ⟨hkind, ?_⟩
      show K.ours (some s!"{p.name}#{p.line}") = (K.root p.name).isSome
      rw [hp.ours, hp.root]
      rfl
    have hone : Hist K (declareParam env p B).1 (D ++ [(declareParam env p B).2]) := h.bare rfl hknown hp.root
    obtain ⟨hh, hnames⟩ := ih (fun q hq => hps q (List.mem_cons_of_mem _ hq)) hone
    refine ⟨?_, ?_⟩
    · rw [List.append_assoc] at hh
      exact hh
    · show _ :: _ = _ :: _
      rw [hnames]
      rfl

/-- A function whose names are accounted for, lowered: its paths out do what its ways do. -/
theorem Kin.Governs.accounted (hK : K.Governs env fn) (hd : ∀ d ∈ (buildCfg env fn).2, d.code ≠ .own030) {G : Layout}
    {F : Nat → Note} (hS : Surveyed G F (buildCfg env fn).1) : ∃ L D, (buildCfg env fn).1.blocks = L.blocks ∧
      Accounted K G (buildCfg env fn).1 L D ∧ ∀ ms, (∃ t, Departs (buildCfg env fn).1 t ∧ t.flatMap K.marks = ms) ↔
        ∃ w ∈ (seqWays K.owner fn.body).all, w.flatMap (K.fates env fn.ret.isSome) = ms := by
  obtain ⟨G', hstart, hl⟩ := body_started env fn
  let P := declareParams env fn.params { scopes := [[]] }
  let B₀ := P.1.newBlock "entry"
  let L := lowerSeq env fn fn.body 0 B₀
  change Started G' B₀ P.2 at hstart
  change Lowered G' B₀ 0 L.1 L.2 at hl
  have hcfg : (buildCfg env fn).1.blocks = L.1.blocks := (build_body env fn).1
  have hdef : L.1.Defined := by
    intro d hmem
    refine hd d ?_
    simp only [buildCfg, build]
    split
    · exact List.mem_append_left _ hmem
    · exact hmem
  -- the parameters
  have hempty : Hist K { scopes := [[]] } [] := by
    refine ⟨?_, fun s hs => absurd hs List.not_mem_nil, List.nodup_nil, fun s hs => absurd hs List.not_mem_nil, ?_,
      fun s hs => absurd hs List.not_mem_nil⟩
    · intro sc hsc e he
      rw [List.mem_singleton.mp hsc] at he
      cases he
    · intro ins hins
      obtain ⟨b, hb⟩ := hins
      cases hb
  obtain ⟨hparams, hnames⟩ := declareParams_hist hK.params hempty
  rw [List.nil_append] at hparams
  have hbegin : Hist K B₀ P.2 := hparams.of_same (fun _ hsc => Or.inr hsc) rfl (Builder.has_newBlock _ _)
  have hu : B₀.Unlinked 0 := unlinked_new hstart.here
  obtain ⟨l, R, hh, hsub, hR, hmarks⟩ := lowerSeq_marked env fn fn.body 0 hstart.tidy.scope hbegin
    (Builder.lt_of_get hstart.here) hu hK.body hdef
  have hspans := hl.spans (Builder.lt_of_get hstart.here) hu
  refine ⟨L.1, P.2 ++ l, hcfg, ⟨hh, ?_, ?_, fun ins hins => hS.acts hcfg hins⟩, fun ms => ?_⟩
  · rw [List.map_append, hnames]
    exact hK.nodup.sublist ((List.Sublist.refl _).append hsub)
  · intro p hp
    have hname : p.name ∈ fn.params.map Param.name := by
      rw [← hnames]
      exact List.mem_map_of_mem hp
    obtain ⟨q, hq, hqp⟩ := List.mem_map.mp hname
    refine ⟨List.mem_append_left _ hp, ?_, hS.rids p hp⟩
    rw [← hqp]
    exact (hK.params q hq).root
  · have hall : subst K.marks R.all = subst (K.fates env fn.ret.isSome) (seqWays K.owner fn.body).all := by
      rw [← Ways.all_map, ← Ways.all_map, hmarks]
    have hdep := fun t => hR.departs_iff hstart.blocks (fun c hc => ⟨(hspans.frame.out c hc).2, hspans.exit c hc⟩) hcfg rfl t
    have hmem : ms ∈ subst K.marks R.all ↔ ms ∈ subst (K.fates env fn.ret.isSome) (seqWays K.owner fn.body).all := by rw [hall]
    simp only [hdep]
    exact hmem

/-- A leak of the resource is reported exactly if some way through the body leaves a root owned. -/
theorem leak_of_kin_iff (hK : K.Governs env fn) (hd : ∀ d ∈ (buildCfg env fn).2, d.code ≠ .own030) {n : Nat}
    {ins : Dict Nat State} (hfix : (buildCfg env fn).1.fixpoint n = .ok ins) :
    (∃ d ∈ (buildCfg env fn).1.findings ins, d.code = .own001 ∧ K.ours d.subject = true) ↔
      ∃ w ∈ (seqWays K.owner fn.body).all, ∃ r, lastOf r (w.flatMap (K.fates env fn.ret.isSome)) = some .owned := by
  obtain ⟨G, F, hS⟩ := build_surveyed env fn
  obtain ⟨L, D, hcfg, hA, hways⟩ := hK.accounted hd hS
  have hleft := fun t (ht : Departs (buildCfg env fn).1 t) => hA.left_owned hcfg (ht.has hcfg)
  constructor
  · intro h
    obtain ⟨d, hmem, hc, hours⟩ := h
    obtain ⟨t, ht, r, hsub, hlast⟩ := (leak_reported_iff hS hfix d.subject).mp ⟨d, hmem, hc, rfl⟩
    rw [← hsub] at hours
    have hsym : ∃ s, (buildCfg env fn).1.symById r = some s ∧ K.ours s.origin = true := by
      cases hs : (buildCfg env fn).1.symById r with
      | none =>
        rw [hs] at hours
        exact absurd hours (by rw [Option.bind_none, K.unnamed]; exact Bool.false_ne_true)
      | some s =>
        rw [hs] at hours
        exact ⟨s, rfl, hours⟩
    obtain ⟨m, hm⟩ := (hleft t ht).mp ⟨r, hsym, hlast⟩
    obtain ⟨w, hw, heq⟩ := (hways _).mp ⟨t, ht, rfl⟩
    exact ⟨w, hw, m, by rw [heq, hm]⟩
  · intro h
    obtain ⟨w, hw, m, hm⟩ := h
    obtain ⟨t, ht, heq⟩ := (hways _).mpr ⟨w, hw, rfl⟩
    rw [← heq] at hm
    obtain ⟨r, ⟨s, hs, hours⟩, hlast⟩ := (hleft t ht).mpr ⟨m, hm⟩
    obtain ⟨d, hmem, hc, hsub⟩ := (leak_reported_iff hS hfix s.origin).mpr ⟨t, ht, r, by rw [hs]; rfl, hlast⟩
    exact ⟨d, hmem, hc, by rw [hsub]; exact hours⟩

end

end OwnNet.Lang
