/-
  OwnNet.OwnIR.ReleasePaths — the definite-release walk against the paths through a body.

  A path takes either branch of an `if`, runs a loop any number of times and goes through an
  exclusive region once; it ends at a `return` or at the bottom. The walk is never run on a
  region: it gets the inference view of a body, in which each is spliced in.

  Its three states are the sets of answers to "is it released yet" over the paths to a place.
  Nothing takes a release back, so a loop entered unreleased can leave unreleased what some
  number of its rounds leave unreleased.

  Proved: `definite_release_exact`: the walk says yes just where every path that ends has a
  release of the parameter.
-/

import OwnNet.OwnIR.Skeletons

namespace OwnNet.OwnIR

/-! ## Paths -/

inductive Ending where
  | falls | returns
  deriving DecidableEq, Repr

/-- Some rounds of a body, each to its bottom, until the loop is left or a round returns. -/
inductive Rounds (body : List Fields → Ending → Prop) : List Fields → Ending → Prop
  | done : Rounds body [] .falls
  | again {first rest : List Fields} {ending : Ending} :
    body first .falls → Rounds body rest ending → Rounds body (first ++ rest) ending
  | out {last : List Fields} : body last .returns → Rounds body last .returns

mutual

/-- The ops met on a path through one op, and how it ends. -/
def stepPaths : Node → List Fields → Ending → Prop
  | .junk => fun path ending => path = [] ∧ ending = .falls
  | .op fields thenOps elseOps bodyOps => fun path ending =>
    match opKind fields with
    | .return_ => path = [fields] ∧ ending = .returns
    | .if_ => paths thenOps path ending ∨ paths elseOps path ending
    | .while_ => Rounds (paths bodyOps) path ending
    | .borrowMut => paths bodyOps path ending
    | _ => path = [fields] ∧ ending = .falls

/-- The same of some ops one after the other; after a `return` there are none. -/
def paths : List Node → List Fields → Ending → Prop
  | [] => fun path ending => path = [] ∧ ending = .falls
  | n :: rest => fun path ending =>
    (stepPaths n path .returns ∧ ending = .returns) ∨
      ∃ first more, path = first ++ more ∧ stepPaths n first .falls ∧ paths rest more ending

end

def releases (pname : String) (fields : Fields) : Bool := opKind fields = .release ∧ varOf fields = pname

/-- Whether the parameter is released along a path. -/
def released (pname : String) (path : List Fields) : Bool := path.any (releases pname)

/-! ## What the walk knows -/

/-- The answers that a state leaves open. -/
def Released.admits : Released → Bool → Prop
  | .none_, b => b = false
  | .some_, _ => True
  | .all, b => b = true

/-- The walk's result `r` over the paths `ps`, entered in the state `rel`. -/
structure Exactly (pname : String) (ps : List Fields → Ending → Prop) (rel : Released) (r : ReleaseWalk) : Prop where
  falls : r.fallsThrough = true ↔ ∃ path, ps path .falls
  bottom : r.fallsThrough = true → ∀ b, r.released.admits b ↔ ∃ a path, rel.admits a ∧ ps path .falls ∧
    b = (a || released pname path)
  exits : r.exitsOk = true ↔ ∀ a path, rel.admits a → ps path .returns → (a || released pname path) = true

variable {pname : String} {rel : Released}

theorem admits_some (rel : Released) : ∃ a, rel.admits a := by
  cases rel
  · exact ⟨false, rfl⟩
  · exact ⟨false, trivial⟩
  · exact ⟨true, rfl⟩

theorem released_append (first more : List Fields) :
    released pname (first ++ more) = (released pname first || released pname more) := List.any_append

/-- An op that is a path of its own. -/
theorem Exactly.single (fields : Fields) :
    Exactly pname (fun path ending => path = [fields] ∧ ending = .falls) rel
      ⟨if releases pname fields then .all else rel, true, true⟩ := by
  refine ⟨by simp, fun _ b => ?_, by simp⟩
  cases h : releases pname fields with
  | true =>
    obtain ⟨a, ha⟩ := admits_some rel
    constructor
    · intro hb
      exact ⟨a, [fields], ha, ⟨rfl, rfl⟩, by simpa [released, h, Released.admits] using hb⟩
    · rintro ⟨a, path, -, ⟨rfl, -⟩, rfl⟩
      simp [released, h, Released.admits]
  | false => simp [released, h]

theorem Exactly.nothing : Exactly pname (fun path ending => path = [] ∧ ending = .falls) rel ⟨rel, true, true⟩ := by
  refine ⟨by simp, fun _ b => ?_, by simp⟩
  simp [released]

theorem Exactly.return_ {fields : Fields} (hk : opKind fields = .return_) :
    Exactly pname (fun path ending => path = [fields] ∧ ending = .returns) rel ⟨rel, false, rel = .all⟩ := by
  have hno : releases pname fields = false := by simp [releases, hk]
  refine ⟨by simp, fun h => absurd h (by simp), ?_⟩
  constructor
  · rintro hall a path ha ⟨rfl, -⟩
    rw [of_decide_eq_true hall] at ha
    rw [show a = true from ha, Bool.true_or]
  · intro h
    have hpath := fun a ha => h a [fields] ha ⟨rfl, rfl⟩
    simp only [released, List.any_cons, hno, List.any_nil, Bool.or_false] at hpath
    cases rel with
    | none_ => exact absurd (hpath false rfl) (by simp)
    | some_ => exact absurd (hpath false trivial) (by simp)
    | all => rfl

/-- Two alternatives. -/
theorem Exactly.branch {ps qs : List Fields → Ending → Prop} {t e : ReleaseWalk} (ht : Exactly pname ps rel t)
    (he : Exactly pname qs rel e) :
    Exactly pname (fun path ending => ps path ending ∨ qs path ending) rel
      (if t.fallsThrough && e.fallsThrough then
          ⟨if t.released = e.released then t.released else .some_, true, t.exitsOk && e.exitsOk⟩
        else if t.fallsThrough || e.fallsThrough then
          ⟨if t.fallsThrough then t.released else e.released, true, t.exitsOk && e.exitsOk⟩
        else ⟨rel, false, t.exitsOk && e.exitsOk⟩) := by
  have hexits : (t.exitsOk && e.exitsOk) = true ↔ ∀ a path, rel.admits a → ps path .returns ∨ qs path .returns →
      (a || released pname path) = true := by
    rw [Bool.and_eq_true, ht.exits, he.exits]
    constructor
    · rintro ⟨h, h'⟩ a path ha (hp | hq)
      · exact h a path ha hp
      · exact h' a path ha hq
    · exact fun h => ⟨fun a path ha hp => h a path ha (Or.inl hp), fun a path ha hq => h a path ha (Or.inr hq)⟩
  -- at the bottom: what either branch leaves there
  have hbottom : ∀ b, (∃ a path, rel.admits a ∧ (ps path .falls ∨ qs path .falls) ∧ b = (a || released pname path)) ↔
      (t.fallsThrough = true ∧ t.released.admits b) ∨ (e.fallsThrough = true ∧ e.released.admits b) := by
    intro b
    constructor
    · rintro ⟨a, path, ha, hp | hq, hb⟩
      · have hfalls := ht.falls.mpr ⟨path, hp⟩
        exact Or.inl ⟨hfalls, (ht.bottom hfalls b).mpr ⟨a, path, ha, hp, hb⟩⟩
      · have hfalls := he.falls.mpr ⟨path, hq⟩
        exact Or.inr ⟨hfalls, (he.bottom hfalls b).mpr ⟨a, path, ha, hq, hb⟩⟩
    · rintro (⟨hfalls, hb⟩ | ⟨hfalls, hb⟩)
      · obtain ⟨a, path, ha, hp, heq⟩ := (ht.bottom hfalls b).mp hb
        exact ⟨a, path, ha, Or.inl hp, heq⟩
      · obtain ⟨a, path, ha, hq, heq⟩ := (he.bottom hfalls b).mp hb
        exact ⟨a, path, ha, Or.inr hq, heq⟩
  have hfalls : (∃ path, ps path .falls ∨ qs path .falls) ↔ t.fallsThrough = true ∨ e.fallsThrough = true := by
    rw [exists_or, ht.falls, he.falls]
  by_cases htf : t.fallsThrough = true <;> by_cases hef : e.fallsThrough = true
  · rw [if_pos (by rw [htf, hef]; rfl)]
    refine ⟨iff_of_true rfl (hfalls.mpr (Or.inl htf)), fun _ b => ?_, hexits⟩
    rw [hbottom b]
    simp only [htf, hef, true_and]
    cases t.released <;> cases e.released <;> cases b <;> simp [Released.admits]
  · rw [if_neg (by simp [hef]), if_pos (by simp [htf])]
    refine ⟨iff_of_true rfl (hfalls.mpr (Or.inl htf)), fun _ b => ?_, hexits⟩
    rw [hbottom b]
    simp [htf, hef]
  · rw [if_neg (by simp [htf]), if_pos (by simp [hef])]
    refine ⟨iff_of_true rfl (hfalls.mpr (Or.inr hef)), fun _ b => ?_, hexits⟩
    rw [hbottom b]
    simp [htf, hef]
  · rw [if_neg (by simp [htf]), if_neg (by simp [htf, hef])]
    exact ⟨iff_of_false (by simp) fun h => (hfalls.mp h).elim htf hef, fun h => absurd h (by simp), hexits⟩

/-- One op and then the others. -/
theorem Exactly.seq {ps qs : List Fields → Ending → Prop} {r s : ReleaseWalk} (hr : Exactly pname ps rel r)
    (hs : Exactly pname qs r.released s) :
    Exactly pname (fun path ending => (ps path .returns ∧ ending = .returns) ∨
        ∃ first more, path = first ++ more ∧ ps first .falls ∧ qs more ending) rel
      (if r.fallsThrough then { s with exitsOk := r.exitsOk && s.exitsOk } else r) := by
  by_cases hf : r.fallsThrough = true
  · rw [if_pos hf]
    obtain ⟨first, hfirst⟩ := hr.falls.mp hf
    refine ⟨?_, fun hsf b => ?_, ?_⟩
    · rw [hs.falls]
      constructor
      · rintro ⟨more, hmore⟩
        exact ⟨first ++ more, Or.inr ⟨first, more, rfl, hfirst, hmore⟩⟩
      · rintro ⟨path, ⟨-, h⟩ | ⟨_, more, -, -, hmore⟩⟩
        · cases h
        · exact ⟨more, hmore⟩
    · rw [hs.bottom hsf b]
      constructor
      · rintro ⟨_, more, hmid, hmore, rfl⟩
        obtain ⟨a, first, ha, hfirst, rfl⟩ := (hr.bottom hf _).mp hmid
        exact ⟨a, first ++ more, ha, Or.inr ⟨first, more, rfl, hfirst, hmore⟩, by rw [released_append, Bool.or_assoc]⟩
      · rintro ⟨a, path, ha, ⟨-, h⟩ | ⟨first, more, rfl, hfirst, hmore⟩, rfl⟩
        · cases h
        · exact ⟨_, more, (hr.bottom hf _).mpr ⟨a, first, ha, hfirst, rfl⟩, hmore, by rw [released_append, Bool.or_assoc]⟩
    · rw [Bool.and_eq_true, hr.exits, hs.exits]
      constructor
      · rintro ⟨hre, hse⟩ a path ha (⟨hp, -⟩ | ⟨first, more, rfl, hfirst, hmore⟩)
        · exact hre a path ha hp
        · have := hse _ more ((hr.bottom hf _).mpr ⟨a, first, ha, hfirst, rfl⟩) hmore
          rwa [released_append, ← Bool.or_assoc]
      · refine fun h => ⟨fun a path ha hp => h a path ha (Or.inl ⟨hp, rfl⟩), fun b more hb hmore => ?_⟩
        obtain ⟨a, first, ha, hfirst, rfl⟩ := (hr.bottom hf b).mp hb
        have := h a (first ++ more) ha (Or.inr ⟨first, more, rfl, hfirst, hmore⟩)
        rwa [released_append, ← Bool.or_assoc] at this
  · rw [if_neg hf]
    have hno : ∀ path, ¬ps path .falls := fun path hp => hf (hr.falls.mpr ⟨path, hp⟩)
    refine ⟨iff_of_false hf ?_, fun h => absurd h hf, ?_⟩
    · rintro ⟨path, ⟨-, h⟩ | ⟨first, -, -, hfirst, -⟩⟩
      · cases h
      · exact hno first hfirst
    · rw [hr.exits]
      constructor
      · rintro h a path ha (⟨hp, -⟩ | ⟨first, -, -, hfirst, -⟩)
        · exact h a path ha hp
        · exact absurd hfirst (hno first)
      · exact fun h a path ha hp => h a path ha (Or.inl ⟨hp, rfl⟩)

/-- What the rounds of a loop leave at its bottom, where a round leaves what it enters with. -/
theorem Rounds.kept {ps : List Fields → Ending → Prop} (hkept : ∀ a path,
    rel.admits a → ps path .falls → rel.admits (a || released pname path))
    {path : List Fields} {ending : Ending} (h : Rounds ps path ending) (hfalls : ending = .falls) {a : Bool} (ha : rel.admits a) :
    rel.admits (a || released pname path) := by
  induction h generalizing a with
  | done => simpa [released] using ha
  | again hfirst _ ih =>
    rw [released_append, ← Bool.or_assoc]
    exact ih hfalls (hkept a _ ha hfirst)
  | out => cases hfalls

/-- A return that every first round meets released, every later round does. -/
theorem Rounds.exits {ps : List Fields → Ending → Prop} (hexits : ∀ path, ps path .returns → released pname path = true)
    {path : List Fields} {ending : Ending} (h : Rounds ps path ending) (hret : ending = .returns) :
    released pname path = true := by
  induction h with
  | done => cases hret
  | again _ _ ih => rw [released_append, ih hret, Bool.or_true]
  | out hlast => exact hexits _ hlast

theorem Exactly.loop {ps : List Fields → Ending → Prop} {b : ReleaseWalk} (hb : Exactly pname ps rel b) :
    Exactly pname (Rounds ps) rel ⟨if b.fallsThrough && b.released ≠ rel then .some_ else rel, true, b.exitsOk⟩ := by
  refine ⟨iff_of_true rfl ⟨[], .done⟩, fun _ s => ?_, ?_⟩
  · constructor
    · intro hs
      by_cases hrel : rel.admits s
      · exact ⟨s, [], hrel, .done, by simp [released]⟩
      · -- a state the loop is not entered in: one round brings it about
        by_cases hchange : b.fallsThrough = true ∧ b.released ≠ rel
        · obtain ⟨hf, hne⟩ := hchange
          have hround : b.released.admits s := by
            revert hne hrel
            cases rel <;> cases b.released <;> cases s <;> simp [Released.admits]
          obtain ⟨a, path, ha, hp, heq⟩ := (hb.bottom hf s).mp hround
          exact ⟨a, path ++ [], ha, .again hp .done, by rw [List.append_nil, heq]⟩
        · rw [if_neg (by simpa using hchange)] at hs
          exact absurd hs hrel
    · rintro ⟨a, path, ha, hrounds, rfl⟩
      by_cases hchange : b.fallsThrough = true ∧ b.released ≠ rel
      · rw [if_pos (by simpa using hchange)]
        trivial
      · rw [if_neg (by simpa using hchange)]
        refine hrounds.kept (fun a first ha hfirst => ?_) rfl ha
        have hf := hb.falls.mpr ⟨first, hfirst⟩
        have hsame : b.released = rel := by
          by_contra hne
          exact hchange ⟨hf, hne⟩
        rw [← hsame]
        exact (hb.bottom hf _).mpr ⟨a, first, ha, hfirst, rfl⟩
  · rw [hb.exits]
    constructor
    · intro h a path ha hrounds
      cases a with
      | true => rfl
      | false =>
        rw [Bool.false_or]
        exact hrounds.exits (fun path hp => by simpa using h false path ha hp) rfl
    · exact fun h a path ha hp => h a path ha (.out hp)

/-! ## The walk -/

theorem walk_exact (pname : String) :
    (∀ n, hasRegionNode n = false → ∀ rel, Exactly pname (stepPaths n) rel (walkReleaseNode pname n rel)) ∧
      ∀ ns, hasRegion ns = false → ∀ rel, Exactly pname (paths ns) rel (walkRelease pname ns rel) := by
  apply Node.induct
  · exact fun _ rel => .nothing
  · intro fields thenOps elseOps bodyOps ht he hb h rel
    unfold hasRegionNode at h
    unfold stepPaths walkReleaseNode
    cases hk : opKind fields with
    | return_ => exact .return_ hk
    | if_ =>
      simp only [hk, Bool.or_eq_false_iff] at h
      exact (ht h.1 rel).branch (he h.2 rel)
    | while_ =>
      simp only [hk] at h
      exact (hb h rel).loop
    | borrowMut => simp [hk] at h
    | release =>
      have hsingle : Exactly pname (fun path ending => path = [fields] ∧ ending = .falls) rel
          ⟨if releases pname fields then .all else rel, true, true⟩ := .single fields
      simpa [releases, hk] using hsingle
    | _ =>
      have hsingle : Exactly pname (fun path ending => path = [fields] ∧ ending = .falls) rel
          ⟨if releases pname fields then .all else rel, true, true⟩ := .single fields
      simpa [releases, hk] using hsingle
  · exact fun _ rel => .nothing
  · intro n ns hn hns h rel
    rw [hasRegion, Bool.or_eq_false_iff] at h
    unfold paths walkRelease
    exact (hn h.1 rel).seq (hns h.2 _)

/-! ## The inference view -/

theorem hasRegion_append (ns ms : List Node) : hasRegion (ns ++ ms) = (hasRegion ns || hasRegion ms) := by
  induction ns with
  | nil => rfl
  | cons n ns ih => rw [List.cons_append, hasRegion, hasRegion, ih, Bool.or_assoc]

/-- A view has no region left. -/
theorem inline_plain : (∀ n, hasRegion (inlineNode n) = false) ∧ ∀ ns, hasRegion (inlineRegions ns) = false := by
  apply Node.induct
  · rfl
  · intro fields thenOps elseOps bodyOps ht he hb
    unfold inlineNode
    cases hk : opKind fields <;> simp [hasRegion, hasRegionNode, hk, ht, he, hb]
  · rfl
  · intro n ns hn hns
    rw [inlineRegions, hasRegion_append, hn, hns]
    rfl

theorem paths_single (n : Node) : paths [n] = stepPaths n := by
  funext path ending
  refine propext ⟨?_, fun h => ?_⟩
  · rintro (⟨h, rfl⟩ | ⟨first, more, rfl, h, rfl, rfl⟩)
    · exact h
    · rwa [List.append_nil]
  · cases ending with
    | falls => exact Or.inr ⟨path, [], (List.append_nil path).symm, h, rfl, rfl⟩
    | returns => exact Or.inl ⟨h, rfl⟩

theorem paths_append {ns ms : List Node} {path : List Fields} {ending : Ending} :
    paths (ns ++ ms) path ending ↔
      (paths ns path .returns ∧ ending = .returns) ∨ ∃ first more, path = first ++ more ∧ paths ns first .falls ∧
      paths ms more ending := by
  induction ns generalizing path with
  | nil =>
    constructor
    · exact fun h => Or.inr ⟨[], path, rfl, ⟨rfl, rfl⟩, h⟩
    · rintro (⟨⟨-, h⟩, -⟩ | ⟨first, more, rfl, ⟨rfl, -⟩, h⟩)
      · cases h
      · exact h
  | cons n ns ih =>
    constructor
    · rintro (⟨h, rfl⟩ | ⟨first, more, rfl, hfirst, hmore⟩)
      · exact Or.inl ⟨Or.inl ⟨h, rfl⟩, rfl⟩
      · rcases ih.mp hmore with ⟨h, rfl⟩ | ⟨mid, last, rfl, hmid, hlast⟩
        · exact Or.inl ⟨Or.inr ⟨first, more, rfl, hfirst, h⟩, rfl⟩
        · exact Or.inr ⟨first ++ mid, last, (List.append_assoc ..).symm, Or.inr ⟨first, mid, rfl, hfirst, hmid⟩, hlast⟩
    · rintro (⟨⟨h, -⟩ | ⟨first, more, rfl, hfirst, hmore⟩, rfl⟩ | ⟨_, last, rfl, ⟨-, h⟩ | ⟨first, mid, rfl, hfirst, hmid⟩, hlast⟩)
      · exact Or.inl ⟨h, rfl⟩
      · exact Or.inr ⟨first, more, rfl, hfirst, ih.mpr (Or.inl ⟨hmore, rfl⟩)⟩
      · cases h
      · exact Or.inr ⟨first, mid ++ last, List.append_assoc .., hfirst, ih.mpr (Or.inr ⟨mid, last, rfl, hmid, hlast⟩)⟩

/-- A view has the paths of its body. -/
theorem inline_paths : (∀ n, paths (inlineNode n) = stepPaths n) ∧ ∀ ns, paths (inlineRegions ns) = paths ns := by
  apply Node.induct
  · exact paths_single .junk
  · intro fields thenOps elseOps bodyOps ht he hb
    unfold inlineNode
    cases hk : opKind fields with
    | borrowMut => simp only [stepPaths, hk, hb]
    | if_ => simp only [paths_single, stepPaths, hk, ht, he]
    | while_ => simp only [paths_single, stepPaths, hk, hb]
    | _ => simp only [paths_single]
  · rfl
  · intro n ns hn hns
    funext path ending
    rw [inlineRegions]
    refine propext (paths_append.trans ?_)
    rw [hn, hns, paths]

/-! ## The verdict -/

theorem Exactly.verdict {ps : List Fields → Ending → Prop} {r : ReleaseWalk} (h : Exactly pname ps .none_ r) :
    (r.exitsOk && (!r.fallsThrough || decide (r.released = .all))) = true ↔
      ∀ path ending, ps path ending → released pname path = true := by
  have hexits : r.exitsOk = true ↔ ∀ path, ps path .returns → released pname path = true := by
    rw [h.exits]
    exact ⟨fun hall path hp => by simpa using hall false path rfl hp, fun hall a path _ hp => by rw [hall path hp, Bool.or_true]⟩
  have hbottom : (!r.fallsThrough || decide (r.released = .all)) = true ↔ ∀ path, ps path .falls →
      released pname path = true := by
    by_cases hf : r.fallsThrough = true
    · have hb := h.bottom hf
      rw [hf, Bool.not_true, Bool.false_or, decide_eq_true_iff]
      constructor
      · intro hall path hp
        have hadm := (hb (released pname path)).mpr ⟨false, path, rfl, hp, by simp⟩
        rwa [hall] at hadm
      · intro hall
        have hfalse : ¬r.released.admits false := by
          intro hadm
          obtain ⟨a, path, -, hp, heq⟩ := (hb false).mp hadm
          rw [hall path hp, Bool.or_true] at heq
          cases heq
        revert hfalse
        cases r.released <;> simp [Released.admits]
    · refine iff_of_true (by simp [hf]) fun path hp => absurd (h.falls.mpr ⟨path, hp⟩) hf
  rw [Bool.and_eq_true, hexits, hbottom]
  constructor
  · rintro ⟨hret, hfall⟩ path ending hp
    cases ending with
    | falls => exact hfall path hp
    | returns => exact hret path hp
  · exact fun hall => ⟨fun path hp => hall path .returns hp, fun path hp => hall path .falls hp⟩

theorem released_iff {path : List Fields} :
    released pname path = true ↔ ∃ fields ∈ path, opKind fields = .release ∧ varOf fields = pname := by
  unfold released releases
  simp only [List.any_eq_true, decide_eq_true_eq]

/-- Of the view of a body, and so of every body without a region: the walk says that the parameter
    is released just where every path that ends has a release of it. -/
theorem definite_release_exact (pname : String) (body : List Node) :
    (definiteRelease pname (inlineRegions body) = true ↔
      ∀ path ending, paths body path ending → ∃ fields ∈ path, opKind fields = .release ∧ varOf fields = pname) ∧
    (hasRegion body = false → (definiteRelease pname body = true ↔
      ∀ path ending, paths body path ending → ∃ fields ∈ path, opKind fields = .release ∧ varOf fields = pname)) := by
  have hview : definiteRelease pname (inlineRegions body) = true ↔
      ∀ path ending, paths body path ending → ∃ fields ∈ path, opKind fields = .release ∧ varOf fields = pname := by
    have hwalk := (walk_exact pname).2 _ (inline_plain.2 body) .none_
    rw [inline_paths.2 body] at hwalk
    simp only [← released_iff]
    exact hwalk.verdict
  refine ⟨hview, fun hplain => ?_⟩
  rw [inline_of_plain.2 body hplain] at hview
  exact hview

end OwnNet.OwnIR
