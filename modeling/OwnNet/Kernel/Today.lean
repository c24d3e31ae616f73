/-
  OwnNet.Kernel.Today — the guarded solution against two solutions without guards: that of
  the collapsed system, in which every coordinate is unconditional and every forward reads the
  join of its callee's cells, and that of today's derivation, in which a local release has
  priority over the forwards and a conditional or repeated handoff adds a borrow.

  Proved:
  - `collapse_never_coarsens`: the collapse of the guarded solution is below the solution of
    the collapsed system.
  - `today_compatible`: where no forward reaches a cell that records a release, the finalised
    collapse is below today's finalised value, or it is `unknown` where today's is `may`.

  Both rest on the solutions being joins over forwarding chains. A chain of the guarded system
  is one of the collapsed system. It is also one of today's, except where today cuts it at a
  coordinate that releases; such a coordinate releases on one side only, so today's value is
  at least `may` there and at everything that forwards to it.
-/

import OwnNet.Kernel.Guarded

namespace OwnNet.Kernel

variable {maxCoords maxEdges : Nat}

/-! ## The systems without guards -/

/-- A forward read as the join of its callee's cells, under no mask. -/
def Edge.opaqued (e : Edge) : Edge := ⟨e.callee, .opaque_, .both⟩

/-- `collapsed`: every coordinate unconditional, every edge read as the join of its callee's cells. -/
def System.collapsed (sys : System maxCoords maxEdges) : System maxCoords maxEdges where
  n := sys.n
  coords i :=
    let c := sys.coords i
    ⟨.uncond, .diag c.seed.collapse, fun slot => (c.edges slot).map Edge.opaqued⟩

/-- A cell that records a local release. -/
def released (t : Transfer) : Bool := t = .must ∨ t = .may

/-- `today_coord`: `g` is the guarded coordinate, `t` its collapsed form. -/
def todayCoord (g t : Coord maxEdges) : Coord maxEdges :=
  if released g.seed.pos || released g.seed.neg then
    let definite : Bool := g.seed.pos = .must ∧ g.seed.neg = .must
    ⟨t.shape, .diag (if definite then .must else .may), fun _ => none⟩
  else
    let count := g.forwards.length
    let conditional := g.forwards.any fun e => e.mask ≠ .both
    ⟨t.shape, if count > 0 ∧ (count > 1 ∨ conditional = true) then t.seed.join (.diag .no) else t.seed, t.edges⟩

/-- `today` -/
def System.today (sys : System maxCoords maxEdges) : System maxCoords maxEdges where
  n := sys.n
  coords i := todayCoord (sys.coords i) (sys.collapsed.coords i)

/-- `release_cells_have_no_edges`: what is released in a cell is not also handed on in it. -/
def System.releaseCellsHaveNoEdges (sys : System maxCoords maxEdges) : Bool :=
  ∀ i : Fin maxCoords, i.val < sys.n → ∀ e ∈ (sys.coords i).forwards,
    ¬((e.mask ≠ .negOnly ∧ released (sys.coords i).seed.pos = true) ∨
      (e.mask ≠ .posOnly ∧ released (sys.coords i).seed.neg = true))

/-! ## Solved systems -/

namespace System

variable {sys : System maxCoords maxEdges} {x : Fin maxCoords → Cells}

/-- A solved cell is the least that is above its seed and above what it reads. -/
theorem solved_le (h : solve sys = some x) {v : Fin maxCoords × Side} {b : Transfer} :
    (x v.1).at_ v.2 ≤ b ↔ sys.seedAt v ≤ b ∧ ∀ w ∈ sys.next v, (x w.1).at_ w.2 ≤ b := by
  have hfix : sys.step v.1 x = x v.1 := by
    rw [← pass_eq_step]
    exact congrFun (Dataflow.Jacobi.passes_eq h).1 v.1
  rw [← step_le, hfix]

theorem seedAt_le (h : solve sys = some x) (v : Fin maxCoords × Side) : sys.seedAt v ≤ (x v.1).at_ v.2 :=
  ((solved_le h).mp le_rfl).1

theorem read_le (h : solve sys = some x) {v w : Fin maxCoords × Side} (hw : w ∈ sys.next v) :
    (x w.1).at_ w.2 ≤ (x v.1).at_ v.2 :=
  ((solved_le h).mp le_rfl).2 w hw

/-- No coordinate tells its sides apart. -/
def Plain (sys : System maxCoords maxEdges) : Prop :=
  ∀ i, (sys.coords i).seed.isDiag = true ∧ ∀ e ∈ (sys.coords i).forwards, e.transform = .opaque_ ∧ e.mask = .both

theorem Plain.seedAt (hp : sys.Plain) (i : Fin maxCoords) (s s' : Side) : sys.seedAt (i, s) = sys.seedAt (i, s') := by
  have hdiag : (sys.coords i).seed.pos = (sys.coords i).seed.neg := of_decide_eq_true (hp i).1
  unfold System.seedAt
  cases s <;> cases s' <;> simp [Cells.at_, hdiag]

theorem Plain.mem_next (hp : sys.Plain) {v w : Fin maxCoords × Side} :
    w ∈ sys.next v ↔ v.1.val < sys.n ∧ ∃ e ∈ (sys.coords v.1).forwards, w.1.val = e.callee := by
  rw [System.mem_next]
  refine and_congr_right fun _ => exists_congr fun e => and_congr_right fun he => ?_
  obtain ⟨ht, hm⟩ := (hp v.1).2 e he
  rw [ht, hm]
  cases w.2 <;> simp [Mask.admits, Transform.sides]

/-- Such a system has one value for each coordinate. -/
theorem Plain.solved_same (hp : sys.Plain) (h : solve sys = some x) (i : Fin maxCoords) (s s' : Side) :
    (x i).at_ s = (x i).at_ s' := by
  have hle : ∀ s s', (x i).at_ s ≤ (x i).at_ s' := by
    intro s s'
    refine (solved_le (v := (i, s)) h).mpr ⟨?_, fun w hw => ?_⟩
    · rw [hp.seedAt i s s']
      exact seedAt_le h (i, s')
    · exact read_le (v := (i, s')) h (hp.mem_next.mpr ((hp.mem_next (v := (i, s))).mp hw))
  exact le_antisymm (hle s s') (hle s' s)

theorem Plain.solved_diag (hp : sys.Plain) (h : solve sys = some x) (i : Fin maxCoords) : x i = .diag (x i).pos :=
  Cells.ext rfl (hp.solved_same h i .neg .pos)

end System

/-! ## Against the collapsed system -/

theorem collapsed_forwards (sys : System maxCoords maxEdges) (i : Fin maxCoords) :
    (sys.collapsed.coords i).forwards = (sys.coords i).forwards.map Edge.opaqued := by
  have hedges : List.ofFn (sys.collapsed.coords i).edges = (List.ofFn (sys.coords i).edges).map (Option.map Edge.opaqued) := by
    rw [List.map_ofFn]
    rfl
  unfold Coord.forwards
  rw [hedges, List.filterMap_map, List.map_filterMap]
  rfl

theorem collapsed_plain (sys : System maxCoords maxEdges) : sys.collapsed.Plain := by
  intro i
  refine ⟨by simp [System.collapsed, Cells.isDiag, Cells.diag], fun e he => ?_⟩
  rw [collapsed_forwards] at he
  obtain ⟨e, -, rfl⟩ := List.mem_map.mp he
  exact ⟨rfl, rfl⟩

theorem at_le_collapse (c : Cells) (s : Side) : c.at_ s ≤ c.collapse := by
  cases s
  · exact le_sup_left
  · exact le_sup_right

theorem collapse_le {c : Cells} {b : Transfer} : c.collapse ≤ b ↔ ∀ s, c.at_ s ≤ b := by
  unfold Cells.collapse
  rw [sup_le_iff]
  exact ⟨fun h s => by cases s; exacts [h.1, h.2], fun h => ⟨h .pos, h .neg⟩⟩

theorem collapsed_seedAt (sys : System maxCoords maxEdges) (v : Fin maxCoords × Side) :
    sys.seedAt v ≤ sys.collapsed.seedAt v := by
  unfold System.seedAt
  show _ ≤ if sys.n ≤ v.1.val then _ else _
  split
  next => exact le_rfl
  next =>
    have hdiag : (sys.collapsed.coords v.1).seed.at_ v.2 = (sys.coords v.1).seed.collapse := by cases v.2 <;> rfl
    rw [hdiag]
    exact at_le_collapse _ _

/-- A chain of the guarded system is one of the collapsed system, from either side. -/
theorem collapsed_chain {sys : System maxCoords maxEdges} {v w : Fin maxCoords × Side} (h : sys.Chain v w) (s : Side) :
    sys.collapsed.Chain (v.1, s) w ∨ w = v := by
  induction h with
  | refl => exact Or.inr rfl
  | @tail u w _ hstep ih =>
    obtain ⟨hlive, e, he, -, hj, -⟩ := System.mem_next.mp hstep
    have hnext : ∀ u', w ∈ sys.collapsed.next (u.1, u') := by
      intro u'
      refine (collapsed_plain sys).mem_next.mpr ⟨hlive, e.opaqued, ?_, hj⟩
      rw [collapsed_forwards]
      exact List.mem_map_of_mem he
    rcases ih with hc | rfl
    · exact Or.inl (hc.tail (hnext u.2))
    · exact Or.inl (Relation.ReflTransGen.single (hnext s))

/-- Every live coordinate collapses below its value in the solution of the collapsed system. -/
theorem collapse_never_coarsens (sys : System maxCoords maxEdges) :
    ∃ x y, solve sys = some x ∧ solve sys.collapsed = some y ∧
      ∀ i : Fin maxCoords, i.val < sys.n → ∃ t, y i = .diag t ∧ (x i).collapse ≤ t := by
  obtain ⟨x, hx⟩ := sys.solve_some
  obtain ⟨y, hy⟩ := sys.collapsed.solve_some
  have hplain := collapsed_plain sys
  refine ⟨x, y, hx, hy, fun i _ => ⟨(y i).pos, hplain.solved_diag hy i, collapse_le.mpr fun s => ?_⟩⟩
  refine (sys.solve_isLUB hx (i, s)).2 ?_
  rintro t ⟨w, hw, rfl⟩
  have hlub := sys.collapsed.solve_isLUB hy
  have hseed := collapsed_seedAt sys w
  rcases collapsed_chain hw .pos with hc | rfl
  · exact le_trans hseed ((hlub (i, .pos)).1 ⟨w, hc, rfl⟩)
  · rw [hplain.seedAt i s .pos] at hseed
    exact le_trans hseed ((hlub (i, .pos)).1 ⟨(i, .pos), Relation.ReflTransGen.refl, rfl⟩)

/-! ## Against today's derivation -/

section Today

variable {sys : System maxCoords maxEdges} {i : Fin maxCoords}

/-- A coordinate with a release in some cell. -/
def Coord.releases (c : Coord maxEdges) : Prop := ∃ s, released (c.seed.at_ s) = true

theorem releases_iff {c : Coord maxEdges} : c.releases ↔ (released c.seed.pos || released c.seed.neg) = true := by
  rw [Bool.or_eq_true]
  constructor
  · rintro ⟨s, hs⟩
    cases s
    · exact Or.inl hs
    · exact Or.inr hs
  · rintro (h | h)
    · exact ⟨.pos, h⟩
    · exact ⟨.neg, h⟩

theorem today_forwards (h : ¬(sys.coords i).releases) :
    (sys.today.coords i).forwards = (sys.coords i).forwards.map Edge.opaqued := by
  rw [releases_iff] at h
  rw [← collapsed_forwards]
  show (todayCoord (sys.coords i) (sys.collapsed.coords i)).forwards = _
  unfold todayCoord
  rw [if_neg h]
  rfl

/-- A release cuts the forwards off. -/
theorem today_released (h : (sys.coords i).releases) : (sys.today.coords i).forwards = [] := by
  rw [releases_iff] at h
  show (todayCoord (sys.coords i) (sys.collapsed.coords i)).forwards = _
  unfold todayCoord
  rw [if_pos h]
  simp [Coord.forwards]

theorem today_plain (sys : System maxCoords maxEdges) : sys.today.Plain := by
  intro i
  constructor
  · show (todayCoord (sys.coords i) (sys.collapsed.coords i)).seed.isDiag = true
    unfold todayCoord
    split
    next => simp [Cells.isDiag, Cells.diag]
    next =>
      have hdiag : (sys.collapsed.coords i).seed = .diag (sys.coords i).seed.collapse := rfl
      simp only [hdiag]
      split <;> simp [Cells.isDiag, Cells.diag, Cells.join]
  · intro e he
    by_cases h : (sys.coords i).releases
    · rw [today_released h] at he
      cases he
    · rw [today_forwards h] at he
      obtain ⟨e, -, rfl⟩ := List.mem_map.mp he
      exact ⟨rfl, rfl⟩

/-- Today's seed: of a release by whether it is definite, otherwise the collapse, with a borrow
    for a conditional or a repeated handoff. -/
theorem today_seedAt (hi : i.val < sys.n) (s : Side) :
    ((sys.coords i).releases ∧ sys.today.seedAt (i, s) =
      if (sys.coords i).seed.pos = .must ∧ (sys.coords i).seed.neg = .must then .must else .may) ∨
    (¬(sys.coords i).releases ∧ ∃ borrow : Transfer, (borrow = .bot ∨ borrow = .no) ∧
      ((∃ e ∈ (sys.coords i).forwards, e.mask ≠ .both) → borrow = .no) ∧
      sys.today.seedAt (i, s) = (sys.coords i).seed.collapse ⊔ borrow) := by
  have hseed : sys.today.seedAt (i, s) = (todayCoord (sys.coords i) (sys.collapsed.coords i)).seed.at_ s :=
    if_neg (Nat.not_le_of_lt hi)
  have hdiag : (sys.collapsed.coords i).seed = .diag (sys.coords i).seed.collapse := rfl
  rw [hseed]
  unfold todayCoord
  by_cases h : (sys.coords i).releases
  · left
    rw [if_pos (releases_iff.mp h)]
    refine ⟨h, ?_⟩
    cases s <;> simp [Cells.at_, Cells.diag]
  · right
    rw [if_neg fun hr => h (releases_iff.mpr hr), hdiag]
    refine ⟨h, ?_⟩
    by_cases hb : (sys.coords i).forwards.length > 0 ∧
        ((sys.coords i).forwards.length > 1 ∨ ((sys.coords i).forwards.any fun e => e.mask ≠ .both) = true)
    · refine ⟨.no, Or.inr rfl, fun _ => rfl, ?_⟩
      simp only [if_pos hb]
      cases s <;> rfl
    · refine ⟨.bot, Or.inl rfl, fun hex => ?_, ?_⟩
      · obtain ⟨e, he, hmask⟩ := hex
        have hany : ((sys.coords i).forwards.any fun e => e.mask ≠ .both) = true :=
          List.any_eq_true.mpr ⟨e, he, by simpa using hmask⟩
        exact absurd ⟨List.length_pos_of_mem he, Or.inr hany⟩ hb
      · simp only [if_neg hb]
        have hbot : ∀ t : Transfer, t = t ⊔ .bot := by decide
        cases s <;> exact hbot _

/-- Where today's seed is not `may` or worse, the guarded seed is below it, and a coordinate that
    releases does so definitely. -/
theorem seedAt_le_today (hi : i.val < sys.n) {s : Side} (h : ¬.may ≤ sys.today.seedAt (i, s)) :
    (∀ s', sys.seedAt (i, s') ≤ sys.today.seedAt (i, s)) ∧
      ((sys.coords i).releases → ∀ s', released ((sys.coords i).seed.at_ s') = true) := by
  have hlive : ∀ s', sys.seedAt (i, s') = (sys.coords i).seed.at_ s' := fun s' => if_neg (Nat.not_le_of_lt hi)
  rcases today_seedAt hi s with ⟨-, heq⟩ | ⟨hno, borrow, -, -, heq⟩
  · rw [heq] at h ⊢
    split at h
    next hdef =>
      rw [if_pos hdef]
      have hmust : ∀ s', (sys.coords i).seed.at_ s' = .must := fun s' => by cases s'; exacts [hdef.1, hdef.2]
      refine ⟨fun s' => ?_, fun _ s' => ?_⟩
      · rw [hlive, hmust]
      · rw [hmust]
        rfl
    next => exact absurd le_rfl h
  · refine ⟨fun s' => ?_, fun hr => absurd hr hno⟩
    rw [hlive, heq]
    exact le_trans (at_le_collapse _ s') le_sup_left

/-- Today's seed is `must` only of a definite release. -/
theorem today_seed_must (hi : i.val < sys.n) {s : Side} (h : sys.today.seedAt (i, s) = .must) (s' : Side) :
    sys.seedAt (i, s') = .must := by
  have hlive : sys.seedAt (i, s') = (sys.coords i).seed.at_ s' := if_neg (Nat.not_le_of_lt hi)
  rw [hlive]
  rcases today_seedAt hi s with ⟨-, heq⟩ | ⟨hno, borrow, hborrow, -, heq⟩
  · rw [heq] at h
    split at h
    next hdef => cases s'; exacts [hdef.1, hdef.2]
    next => cases h
  · rw [releases_iff] at hno
    have hcells : ∀ p n b : Transfer, b = .bot ∨ b = .no → ¬(released p || released n) = true → p ⊔ n ⊔ b ≠ .must := by
      decide
    exact absurd (heq ▸ h) (hcells _ _ borrow hborrow hno)

variable {x y : Fin maxCoords → Cells}

/-- A coordinate that releases nothing still reads today what it reads on either side. -/
theorem today_next (h : ¬(sys.coords i).releases) {s s' : Side} {w : Fin maxCoords × Side} (hw : w ∈ sys.next (i, s)) :
    w ∈ sys.today.next (i, s') := by
  obtain ⟨hlive, e, he, -, hj, -⟩ := System.mem_next.mp hw
  refine (today_plain sys).mem_next.mpr ⟨hlive, e.opaqued, ?_, hj⟩
  rw [today_forwards h]
  exact List.mem_map_of_mem he

/-- A side that is forwarded releases nothing. -/
theorem forwarded_not_released (hc : sys.releaseCellsHaveNoEdges = true) {s : Side} {w : Fin maxCoords × Side}
    (hw : w ∈ sys.next (i, s)) : released ((sys.coords i).seed.at_ s) ≠ true := by
  obtain ⟨hlive, e, he, hadmits, -, -⟩ := System.mem_next.mp hw
  have h := (of_decide_eq_true hc) i hlive e he
  rw [not_or] at h
  intro hrel
  cases s with
  | pos => exact h.1 ⟨fun hm => by simp [hm, Mask.admits] at hadmits, hrel⟩
  | neg => exact h.2 ⟨fun hm => by simp [hm, Mask.admits] at hadmits, hrel⟩

/-- Unless today's value is `may` or worse, no guarded chain is cut today. -/
theorem solved_le_today (hc : sys.releaseCellsHaveNoEdges = true) (hx : solve sys = some x) (hy : solve sys.today = some y)
    {v : Fin maxCoords × Side} (hmay : ¬.may ≤ (y v.1).at_ v.2) : (x v.1).at_ v.2 ≤ (y v.1).at_ v.2 := by
  have hplain := today_plain sys
  have hbelow : ∀ w, sys.Chain v w → (y w.1).at_ w.2 ≤ (y v.1).at_ v.2 := by
    intro w hw
    induction hw with
    | refl => exact le_rfl
    | @tail u w _ hstep ih =>
      have hu : ¬.may ≤ sys.today.seedAt u := fun h => hmay (le_trans h (le_trans (System.seedAt_le hy u) ih))
      have hlive : u.1.val < sys.n := (System.mem_next.mp hstep).1
      have hkept : ¬(sys.coords u.1).releases :=
        fun hr => forwarded_not_released hc hstep ((seedAt_le_today hlive hu).2 hr u.2)
      exact le_trans (System.read_le hy (today_next hkept hstep)) ih
  refine (sys.solve_isLUB hx v).2 ?_
  rintro t ⟨w, hw, rfl⟩
  have hle := hbelow w hw
  have hseed := System.seedAt_le hy w
  by_cases hlive : w.1.val < sys.n
  · have hw' : ¬.may ≤ sys.today.seedAt w := fun h => hmay (le_trans h (le_trans hseed hle))
    exact le_trans ((seedAt_le_today hlive hw').1 w.2) (le_trans hseed hle)
  · have hdead : sys.seedAt w = .bot := if_pos (Nat.le_of_not_lt hlive)
    rw [hdead]
    simp

/-- Where today's value is `must`, some chain of unconditional handoffs ends in a definite
    release; the guarded system has that chain from either side. -/
theorem must_of_today (hx : solve sys = some x) (hy : solve sys.today = some y) {v w : Fin maxCoords × Side}
    (hchain : sys.today.Chain v w) (hw : sys.today.seedAt w = .must) (hv : (y v.1).at_ v.2 ≤ .must) (s : Side) :
    .must ≤ (x v.1).at_ s := by
  induction hchain using Relation.ReflTransGen.head_induction_on generalizing s with
  | refl =>
    have hlive : w.1.val < sys.n := by
      by_contra hdead
      have : sys.today.seedAt w = .bot := if_pos (Nat.le_of_not_lt hdead)
      rw [this] at hw
      cases hw
    rw [← today_seed_must hlive hw s]
    exact System.seedAt_le hx (w.1, s)
  | @head v u hstep _ ih =>
    obtain ⟨hv', e', he', hj⟩ := (today_plain sys).mem_next.mp hstep
    have hlive : v.1.val < sys.n := hv'
    have hkept : ¬(sys.coords v.1).releases := by
      intro hr
      rw [today_released hr] at he'
      cases he'
    rw [today_forwards hkept] at he'
    obtain ⟨e, he, rfl⟩ := List.mem_map.mp he'
    have hboth : e.mask = .both := by
      by_contra hmask
      rcases today_seedAt hlive v.2 with ⟨hr, -⟩ | ⟨-, borrow, -, hno, heq⟩
      · exact hkept hr
      · have hle : .no ≤ sys.today.seedAt v := by
          rw [heq, hno ⟨e, he, hmask⟩]
          exact le_sup_right
        exact absurd (le_trans hle (le_trans (System.seedAt_le hy v) hv)) (by decide)
    obtain ⟨s', hs'⟩ : ∃ s', s' ∈ e.transform.sides s := by
      cases e.transform <;> simp [Transform.sides]
    have hnext : (u.1, s') ∈ sys.next (v.1, s) := by
      refine System.mem_next.mpr ⟨hlive, e, he, ?_, hj, hs'⟩
      rw [hboth]
      rfl
    exact le_trans (ih (le_trans (System.read_le hy hstep) hv) s') (System.read_le hx hnext)

end Today

/-- Where no forward reaches a cell that records a release, the finalised collapse of the guarded
    solution is below today's finalised value, or the one is `unknown` and the other `may`,
    which a call site lowers alike. -/
theorem today_compatible (sys : System maxCoords maxEdges) (hc : sys.releaseCellsHaveNoEdges = true) :
    ∃ x y, solve sys = some x ∧ solve sys.today = some y ∧ ∀ i : Fin maxCoords, i.val < sys.n →
      ((x i).fin.collapse ≤ (y i).fin.collapse ∨
        ((x i).fin.collapse = .unknown ∧ (y i).fin.collapse = .may ∧ lower (x i).fin.collapse = lower (y i).fin.collapse)) := by
  obtain ⟨x, hx⟩ := sys.solve_some
  obtain ⟨y, hy⟩ := sys.today.solve_some
  refine ⟨x, y, hx, hy, fun i _ => ?_⟩
  have hsame := (today_plain sys).solved_same hy i
  have hle : ¬.may ≤ (y i).pos → (x i).pos ≤ (y i).pos ∧ (x i).neg ≤ (y i).pos := by
    intro hmay
    refine ⟨solved_le_today hc hx hy (v := (i, .pos)) hmay, ?_⟩
    rw [show (y i).pos = (y i).neg from hsame .pos .neg] at hmay ⊢
    exact solved_le_today hc hx hy (v := (i, .neg)) hmay
  have hmust : (y i).pos = .must → .must ≤ (x i).pos ∧ .must ≤ (x i).neg := by
    intro heq
    have hlub := sys.today.solve_isLUB hy (i, .pos)
    rw [show ((y i).at_ .pos) = .must from heq] at hlub
    obtain ⟨⟨w, hw, hseed⟩, -⟩ := must_of_isLUB hlub
    have hgo := must_of_today hx hy hw hseed.symm (le_of_eq heq)
    exact ⟨hgo .pos, hgo .neg⟩
  have hcells : ∀ p n t : Transfer, (¬.may ≤ t → p ≤ t ∧ n ≤ t) → (t = .must → .must ≤ p ∧ .must ≤ n) →
      (p.fin ⊔ n.fin ≤ t.fin ⊔ t.fin ∨
        p.fin ⊔ n.fin = .unknown ∧ t.fin ⊔ t.fin = .may ∧ lower (p.fin ⊔ n.fin) = lower (t.fin ⊔ t.fin)) := by decide
  have hgo := hcells (x i).pos (x i).neg (y i).pos hle hmust
  rw [(today_plain sys).solved_diag hy i]
  exact hgo

namespace Example

/-- A release on one side and a handoff to an unresolved callee on the other. -/
def unresolved : System 2 1 where
  n := 2
  coords i :=
    if i.val = 0 then ⟨.split 0, ⟨.must, .bot⟩, fun _ => some ⟨1, .opaque_, .negOnly⟩⟩
    else ⟨.uncond, .diag .unknown, fun _ => none⟩

end Example

open Example in
theorem today_compatible_unresolved : unresolved.releaseCellsHaveNoEdges = true ∧
    ∃ x y, solve unresolved = some x ∧ solve unresolved.today = some y ∧
      ((x 0).fin.collapse ≤ (y 0).fin.collapse ∨ ((x 0).fin.collapse = .unknown ∧ (y 0).fin.collapse = .may)) := by
  have hc : unresolved.releaseCellsHaveNoEdges = true := by decide
  obtain ⟨x, y, hx, hy, h⟩ := today_compatible unresolved hc
  refine ⟨hc, x, y, hx, hy, ?_⟩
  rcases h 0 (by decide) with h | ⟨hu, hm, -⟩
  · exact Or.inl h
  · exact Or.inr ⟨hu, hm⟩

end OwnNet.Kernel
