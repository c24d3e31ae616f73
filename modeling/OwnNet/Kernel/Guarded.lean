/-
  OwnNet.Kernel.Guarded — the guarded-transfer kernel: transfers on the two sides of a guard,
  forwards between coordinates with a mask and a transform, the solver over them, and what a
  call site makes of a solved coordinate.

  `maxCoords` and `maxEdges` are the kernel's array bounds, here any numbers. An array of that
  many coordinates cannot make the bound on the passes overflow a machine word.

  Proved: `solve_chains`: of a well-formed system the solver always has an answer, a solved
  cell is the join of the seeds at the ends of the forwarding chains from it, and a call site
  consumes only where some chain ends in `must` and none in anything else but `⊥`.
-/

import Mathlib.Data.Fintype.Basic
import OwnNet.Dataflow.Jacobi

namespace OwnNet.Kernel

open Dataflow

/-! ## Transfers -/

/-- `⊥ < no | must < may < unknown`. -/
inductive Transfer where
  | bot | no | must | may | unknown
  deriving DecidableEq, Repr

namespace Transfer

instance : Fintype Transfer := ⟨{.bot, .no, .must, .may, .unknown}, fun t => by cases t <;> decide⟩

def join : Transfer → Transfer → Transfer
  | .bot, x => x
  | x, .bot => x
  | .unknown, _ => .unknown
  | _, .unknown => .unknown
  | .no, .no => .no
  | .must, .must => .must
  | _, _ => .may

/-- A residual `⊥` is a `no`. -/
def fin : Transfer → Transfer
  | .bot => .no
  | t => t

instance : Max Transfer := ⟨join⟩

/-- `leq`: `a ≤ b` is `a.join b = b`. -/
instance : SemilatticeSup Transfer := SemilatticeSup.mk' (by decide) (by decide) (by decide)

instance : DecidableLE Transfer := fun a b => decidable_of_iff (a ⊔ b = b) sup_eq_right

instance : OrderBot Transfer where
  bot := .bot
  bot_le := by decide

def rank : Transfer → Nat
  | .bot => 0
  | .no | .must => 1
  | .may => 2
  | .unknown => 3

theorem rank_strictMono : StrictMono rank := by
  have h : ∀ a b : Transfer, a ≤ b → a ≠ b → rank a < rank b := by decide
  exact fun a b hab => h a b hab.le hab.ne

end Transfer

/-! ## Cells -/

inductive Side where
  | pos | neg
  deriving DecidableEq, Repr

def Side.flip : Side → Side
  | .pos => .neg
  | .neg => .pos

@[ext] structure Cells where
  pos : Transfer
  neg : Transfer
  deriving DecidableEq, Repr

namespace Cells

/-- The cell of a side. -/
def at_ (c : Cells) : Side → Transfer
  | .pos => c.pos
  | .neg => c.neg

def bot : Cells := ⟨.bot, .bot⟩

def diag (t : Transfer) : Cells := ⟨t, t⟩

def join (a b : Cells) : Cells := ⟨a.pos ⊔ b.pos, a.neg ⊔ b.neg⟩

def fin (c : Cells) : Cells := ⟨c.pos.fin, c.neg.fin⟩

def collapse (c : Cells) : Transfer := c.pos ⊔ c.neg

def swap (c : Cells) : Cells := ⟨c.neg, c.pos⟩

def isDiag (c : Cells) : Bool := c.pos = c.neg

def height : Nat := 6

/-- `leq`: the product order. -/
instance : PartialOrder Cells := PartialOrder.lift (fun c => (c.pos, c.neg)) fun a b h => by
  cases a
  cases b
  cases h
  rfl

def rank (c : Cells) : Nat := c.pos.rank + c.neg.rank

theorem rank_strictMono : StrictMono rank := by
  intro a b hab
  have hlt : (a.pos, a.neg) < (b.pos, b.neg) := hab
  unfold rank
  rcases Prod.mk_lt_mk.mp hlt with ⟨hp, hn⟩ | ⟨hp, hn⟩
  · have := Transfer.rank_strictMono hp
    have := Transfer.rank_strictMono.monotone hn
    omega
  · have := Transfer.rank_strictMono.monotone hp
    have := Transfer.rank_strictMono hn
    omega

theorem rank_le (c : Cells) : c.rank ≤ height := by
  have h : ∀ t : Transfer, t.rank ≤ 3 := by decide
  have hp := h c.pos
  have hn := h c.neg
  unfold rank height
  omega

theorem le_iff_at {a b : Cells} : a ≤ b ↔ ∀ s, a.at_ s ≤ b.at_ s := by
  constructor
  · intro h s
    cases s
    · exact h.1
    · exact h.2
  · exact fun h => ⟨h .pos, h .neg⟩

@[simp] theorem at_bot (s : Side) : bot.at_ s = .bot := by cases s <;> rfl

@[simp] theorem at_join (a b : Cells) (s : Side) : (a.join b).at_ s = a.at_ s ⊔ b.at_ s := by cases s <;> rfl

end Cells

/-! ## Edges -/

inductive Transform where
  | constPos | constNeg | id | neg | opaque_
  deriving DecidableEq, Repr

/-- What an edge reads of its callee, for the caller's two cells. -/
def read : Transform → Cells → Cells
  | .constPos, c => .diag c.pos
  | .constNeg, c => .diag c.neg
  | .id, c => c
  | .neg, c => c.swap
  | .opaque_, c => .diag c.collapse

inductive Mask where
  | both | posOnly | negOnly
  deriving DecidableEq, Repr

/-- The cells an edge contributes to. -/
def contribute : Mask → Cells → Cells
  | .both, r => r
  | .posOnly, r => ⟨r.pos, .bot⟩
  | .negOnly, r => ⟨.bot, r.neg⟩

inductive Shape where
  | uncond
  | split (guard : Nat)
  deriving DecidableEq, Repr

def Shape.isSplit : Shape → Bool
  | .uncond => false
  | .split _ => true

structure Edge where
  callee : Nat
  transform : Transform
  mask : Mask
  deriving DecidableEq, Repr

structure Coord (maxEdges : Nat) where
  shape : Shape
  seed : Cells
  edges : Fin maxEdges → Option Edge

/-- The forwards of a coordinate, empty slots left out. -/
def Coord.forwards {maxEdges : Nat} (c : Coord maxEdges) : List Edge := (List.ofFn c.edges).filterMap fun slot => slot

structure System (maxCoords maxEdges : Nat) where
  n : Nat
  coords : Fin maxCoords → Coord maxEdges

namespace System

variable {maxCoords maxEdges : Nat} (sys : System maxCoords maxEdges)

/-- `coords.get(i)` -/
def get (i : Nat) : Option (Coord maxEdges) := if h : i < maxCoords then some (sys.coords ⟨i, h⟩) else none

def edgeOk (uncond : Bool) (e : Edge) : Bool :=
  let throughGuard : Bool := e.transform = .id ∨ e.transform = .neg
  let calleeSplit : Bool := (sys.get e.callee).any fun c => c.shape.isSplit
  !(decide (sys.n ≤ e.callee) || (uncond && (decide (e.mask ≠ .both) || throughGuard)) || (throughGuard && !calleeSplit))

def coordOk (c : Coord maxEdges) : Bool :=
  let uncond := !c.shape.isSplit
  !(uncond && !c.seed.isDiag) && c.forwards.all (sys.edgeOk uncond)

/-- `well_formed` -/
def wellFormed : Bool := sys.n ≤ maxCoords ∧ ∀ i : Fin maxCoords, i.val < sys.n → sys.coordOk (sys.coords i)

/-- `x.get(callee)`, `⊥` outside the array. -/
def look (x : Fin maxCoords → Cells) (i : Nat) : Cells := if h : i < maxCoords then x ⟨i, h⟩ else .bot

/-- One coordinate: its seed and what every edge delivers. -/
def step (i : Fin maxCoords) (x : Fin maxCoords → Cells) : Cells :=
  if sys.n ≤ i.val then .bot
  else
    (sys.coords i).forwards.foldl (fun acc e => acc.join (contribute e.mask (read e.transform (look x e.callee))))
      (sys.coords i).seed

end System

/-! ## The solver -/

/-- `max_passes` -/
def maxPasses (maxCoords height : Nat) : Nat := maxCoords * height + 1

/-- All coordinates at once from `⊥`, those from `n` on held there. -/
def lfpJacobi {maxCoords : Nat} {L : Type} [DecidableEq L] (bot : L) (height n : Nat)
    (step : Fin maxCoords → (Fin maxCoords → L) → L) : Option (Fin maxCoords → L) :=
  Jacobi.passes (fun x i => if i.val < n then step i x else bot) (maxPasses maxCoords height) fun _ => bot

def solve {maxCoords maxEdges : Nat} (sys : System maxCoords maxEdges) : Option (Fin maxCoords → Cells) :=
  lfpJacobi .bot Cells.height sys.n sys.step

/-! ## The call site -/

inductive Selection where
  | pos | neg | unselected
  deriving DecidableEq, Repr

inductive Lowered where
  | consume | borrow | plain
  deriving DecidableEq, Repr

def lower (t : Transfer) : Lowered :=
  match t.fin with
  | .must => .consume
  | .no => .borrow
  | .may | .unknown | .bot => .plain

def apply (shape : Shape) (solved : Cells) (sel : Selection) : Lowered :=
  let c := solved.fin
  match shape, sel with
  | .split _, .pos => lower c.pos
  | .split _, .neg => lower c.neg
  | .split _, .unselected => lower c.collapse
  | .uncond, _ => lower c.collapse

/-! ## Chains -/

/-- Whether a forward under a mask contributes to a side. -/
def Mask.admits : Mask → Side → Bool
  | .both, _ => true
  | .posOnly, s => s = .pos
  | .negOnly, s => s = .neg

/-- The sides of the callee a chain goes on at. -/
def Transform.sides : Transform → Side → List Side
  | .constPos, _ => [.pos]
  | .constNeg, _ => [.neg]
  | .id, s => [s]
  | .neg, s => [s.flip]
  | .opaque_, _ => [.pos, .neg]

namespace System

variable {maxCoords maxEdges : Nat} (sys : System maxCoords maxEdges)

/-- Where a chain at a coordinate and a side can go next. -/
def next (v : Fin maxCoords × Side) : List (Fin maxCoords × Side) :=
  if sys.n ≤ v.1.val then []
  else
    (sys.coords v.1).forwards.flatMap fun e =>
      if h : e.callee < maxCoords then
        if e.mask.admits v.2 then (e.transform.sides v.2).map fun s => (⟨e.callee, h⟩, s) else []
      else []

/-- The seed cell of a live coordinate. -/
def seedAt (v : Fin maxCoords × Side) : Transfer := if sys.n ≤ v.1.val then .bot else (sys.coords v.1).seed.at_ v.2

/-- A finite forwarding chain. -/
def Chain : Fin maxCoords × Side → Fin maxCoords × Side → Prop := Jacobi.Chain sys.next

end System

/-! ## One step as a join over what it reads -/

@[simp] theorem bot_le_iff (b : Transfer) : Transfer.bot ≤ b ↔ True := iff_of_true (bot_le : (⊥ : Transfer) ≤ b) trivial

/-- What an edge delivers to a side is the join of the cells a chain can go on at. -/
theorem contribute_le {m : Mask} {t : Transform} {c : Cells} {s : Side} {b : Transfer} :
    (contribute m (read t c)).at_ s ≤ b ↔ (m.admits s = true → ∀ u ∈ t.sides s, c.at_ u ≤ b) := by
  cases m <;> cases t <;> cases s <;>
    simp [contribute, read, Cells.at_, Cells.diag, Cells.swap, Cells.collapse, Mask.admits, Transform.sides, Side.flip]

theorem joined_le {f : Edge → Cells} {es : List Edge} {seed : Cells} {s : Side} {b : Transfer} :
    (es.foldl (fun acc e => acc.join (f e)) seed).at_ s ≤ b ↔ seed.at_ s ≤ b ∧ ∀ e ∈ es, (f e).at_ s ≤ b := by
  induction es generalizing seed with
  | nil => simp
  | cons e rest ih =>
    rw [List.foldl_cons, ih, Cells.at_join, sup_le_iff, List.forall_mem_cons, and_assoc]

namespace System

variable {maxCoords maxEdges : Nat} {sys : System maxCoords maxEdges}

theorem look_le {x : Fin maxCoords → Cells} {i : Nat} {u : Side} {b : Transfer} :
    (look x i).at_ u ≤ b ↔ ∀ h : i < maxCoords, (x ⟨i, h⟩).at_ u ≤ b := by
  unfold look
  split
  next h => exact ⟨fun hb _ => hb, fun hb => hb h⟩
  next h => simp [h]

theorem mem_next {v w : Fin maxCoords × Side} : w ∈ sys.next v ↔
    v.1.val < sys.n ∧ ∃ e ∈ (sys.coords v.1).forwards, e.mask.admits v.2 = true ∧ w.1.val = e.callee ∧
      w.2 ∈ e.transform.sides v.2 := by
  obtain ⟨j, u⟩ := w
  unfold next
  split
  next hn => simp [hn]
  next hn =>
    simp only [List.mem_flatMap]
    constructor
    · rintro ⟨e, he, hw⟩
      split at hw
      next h =>
        split at hw
        next ha =>
          obtain ⟨u', hu, heq⟩ := List.mem_map.mp hw
          cases heq
          exact ⟨by omega, e, he, ha, rfl, hu⟩
        next => cases hw
      next => cases hw
    · rintro ⟨-, e, he, ha, hj, hu⟩
      have h : e.callee < maxCoords := hj ▸ j.isLt
      refine ⟨e, he, ?_⟩
      rw [dif_pos h, if_pos ha]
      exact List.mem_map.mpr ⟨u, hu, Prod.ext (Fin.ext hj.symm) rfl⟩

theorem step_le {x : Fin maxCoords → Cells} {v : Fin maxCoords × Side} {b : Transfer} :
    (sys.step v.1 x).at_ v.2 ≤ b ↔ sys.seedAt v ≤ b ∧ ∀ w ∈ sys.next v, (x w.1).at_ w.2 ≤ b := by
  unfold step seedAt
  split
  next hn => simp [next, hn]
  next hn =>
    rw [joined_le]
    refine and_congr_right fun _ => ⟨fun h w hw => ?_, fun h e he => ?_⟩
    · obtain ⟨-, e, he, ha, hj, hu⟩ := mem_next.mp hw
      have hb := look_le.mp (contribute_le.mp (h e he) ha w.2 hu)
      have hlt : e.callee < maxCoords := hj ▸ w.1.isLt
      have heq : (⟨e.callee, hlt⟩ : Fin maxCoords) = w.1 := Fin.ext hj.symm
      exact heq ▸ hb hlt
    · exact contribute_le.mpr fun ha u hu => look_le.mpr fun hlt =>
        h (⟨e.callee, hlt⟩, u) (mem_next.mpr ⟨by omega, e, he, ha, rfl, hu⟩)

variable (sys)

/-- All coordinates after one pass. -/
def pass (x : Fin maxCoords → Cells) (i : Fin maxCoords) : Cells := if i.val < sys.n then sys.step i x else .bot

/-- The cells of an array, one unknown each. -/
def cell (x : Fin maxCoords → Cells) (v : Fin maxCoords × Side) : Transfer := (x v.1).at_ v.2

/-- The array of some cells. -/
def ofCells (z : Fin maxCoords × Side → Transfer) (i : Fin maxCoords) : Cells := ⟨z (i, .pos), z (i, .neg)⟩

theorem ofCells_at (z : Fin maxCoords × Side → Transfer) (i : Fin maxCoords) (s : Side) : (ofCells z i).at_ s = z (i, s) := by
  cases s <;> rfl

theorem ofCells_cell (x : Fin maxCoords → Cells) : ofCells (cell x) = x := rfl

theorem pass_eq_step (x : Fin maxCoords → Cells) (i : Fin maxCoords) : sys.pass x i = sys.step i x := by
  unfold pass step
  split
  next h => rw [if_neg (by omega)]
  next h => rw [if_pos (by omega)]

theorem joins : Jacobi.Joins (fun z => cell (sys.pass (ofCells z))) sys.seedAt sys.next := by
  intro z v
  refine isLUB_iff_le_iff.mpr fun b => ?_
  show (sys.pass (ofCells z) v.1).at_ v.2 ≤ b ↔ _
  rw [pass_eq_step, step_le]
  simp only [ofCells_at]
  constructor
  · rintro ⟨hs, hr⟩ t (rfl | ⟨w, hw, rfl⟩)
    · exact hs
    · exact hr w hw
  · exact fun h => ⟨h (Set.mem_insert _ _), fun w hw => h (Set.mem_insert_of_mem _ ⟨w, hw, rfl⟩)⟩

theorem cell_iterate (m : Nat) : cell (sys.pass^[m] fun _ => .bot) =
    (fun z => cell (sys.pass (ofCells z)))^[m] fun _ => ⊥ := by
  induction m with
  | zero =>
    funext v
    exact Cells.at_bot v.2
  | succ m ih => rw [Function.iterate_succ_apply', Function.iterate_succ_apply', ← ih, ofCells_cell]

theorem pass_monotone : Monotone sys.pass := by
  intro x y hxy i
  refine Cells.le_iff_at.mpr fun s => ?_
  refine (sys.joins).monotone (a := cell x) (b := cell y) (fun v => Cells.le_iff_at.mp (hxy v.1) v.2) (i, s)

theorem solve_some : ∃ x, solve sys = some x := by
  refine Jacobi.passes_some Cells.rank Cells.height Cells.rank_strictMono Cells.rank_le sys.pass_monotone ?_ ?_
  · exact fun i => Cells.le_iff_at.mpr fun s => by rw [Cells.at_bot]; simp
  · unfold maxPasses
    rw [Fintype.card_fin]
    omega

/-- A solved cell is the join of the seeds at the ends of the chains from it. -/
theorem solve_isLUB {x : Fin maxCoords → Cells} (h : solve sys = some x) (v : Fin maxCoords × Side) :
    IsLUB {t | ∃ w, sys.Chain v w ∧ t = sys.seedAt w} ((x v.1).at_ v.2) := by
  obtain ⟨hfix, m, hm⟩ := Jacobi.passes_eq h
  have hx : x = (sys.pass^[m] fun _ => .bot) := hm
  have hpass : sys.pass x = x := hfix
  refine (sys.joins).isLUB (y := cell x) ?_ (m := m) ?_ v
  · rw [ofCells_cell, hpass]
  · rw [hx, cell_iterate]

/-! ## Well-formed systems -/

/-- The seed cell a chain ends in. -/
def seedCell (v : Fin maxCoords × Side) : Transfer := (sys.coords v.1).seed.at_ v.2

variable {sys}

theorem coordOk_of_live (hw : sys.wellFormed = true) {i : Fin maxCoords} (hi : i.val < sys.n) :
    sys.coordOk (sys.coords i) = true := by
  unfold wellFormed at hw
  exact (of_decide_eq_true hw).2 i hi

theorem edgeOk_of_live (hw : sys.wellFormed = true) {i : Fin maxCoords} (hi : i.val < sys.n) {e : Edge}
    (he : e ∈ (sys.coords i).forwards) : sys.edgeOk (!(sys.coords i).shape.isSplit) e = true := by
  have h := coordOk_of_live hw hi
  unfold coordOk at h
  rw [Bool.and_eq_true] at h
  exact List.all_eq_true.mp h.2 e he

theorem next_live (hw : sys.wellFormed = true) {v w : Fin maxCoords × Side} (h : w ∈ sys.next v) : w.1.val < sys.n := by
  obtain ⟨hv, e, he, -, hj, -⟩ := mem_next.mp h
  have hok := edgeOk_of_live hw hv he
  unfold edgeOk at hok
  have hlt : e.callee < sys.n := by
    by_contra hge
    simp [Nat.le_of_not_lt hge] at hok
  omega

theorem chain_live (hw : sys.wellFormed = true) {v w : Fin maxCoords × Side} (hv : v.1.val < sys.n)
    (h : sys.Chain v w) : w.1.val < sys.n := by
  induction h with
  | refl => exact hv
  | tail _ hstep _ => exact next_live hw hstep

theorem seedAt_live {v : Fin maxCoords × Side} (hv : v.1.val < sys.n) : sys.seedAt v = sys.seedCell v := by
  unfold seedAt seedCell
  rw [if_neg (by omega)]

/-- A coordinate without a guard reads the same on both sides. -/
theorem next_uncond (hw : sys.wellFormed = true) {i : Fin maxCoords} (hi : i.val < sys.n)
    (hu : (sys.coords i).shape = .uncond) (s s' : Side) {w : Fin maxCoords × Side} (h : w ∈ sys.next (i, s)) :
    w ∈ sys.next (i, s') := by
  obtain ⟨-, e, he, -, hj, hside⟩ := mem_next.mp h
  have hok := edgeOk_of_live hw hi he
  unfold edgeOk at hok
  rw [hu] at hok
  obtain ⟨callee, transform, mask⟩ := e
  have hboth : mask = .both := by
    by_contra hne
    simp [Shape.isSplit, hne] at hok
  refine mem_next.mpr ⟨hi, _, he, ?_, hj, ?_⟩
  · rw [hboth]
    rfl
  · cases transform with
    | constPos => exact hside
    | constNeg => exact hside
    | opaque_ => exact hside
    | id => simp [Shape.isSplit] at hok
    | neg => simp [Shape.isSplit] at hok

theorem solved_uncond (hw : sys.wellFormed = true) {x : Fin maxCoords → Cells} (h : solve sys = some x)
    {i : Fin maxCoords} (hi : i.val < sys.n) (hu : (sys.coords i).shape = .uncond) (s s' : Side) :
    (x i).at_ s ≤ (x i).at_ s' := by
  obtain ⟨hfix, -⟩ := Jacobi.passes_eq h
  have hstep : sys.step i x = x i := by rw [← pass_eq_step]; exact congrFun hfix i
  obtain ⟨hseed, hreads⟩ := (step_le (v := (i, s'))).mp (le_of_eq (congrArg (fun c => c.at_ s') hstep))
  have hle : (sys.step i x).at_ s ≤ (x i).at_ s' := by
    refine (step_le (v := (i, s))).mpr ⟨?_, fun w hn => hreads w (next_uncond hw hi hu s s' hn)⟩
    have hdiag : (sys.coords i).seed.isDiag = true := by
      have hok := coordOk_of_live hw hi
      unfold coordOk at hok
      rw [hu, Bool.and_eq_true] at hok
      simpa [Shape.isSplit] using hok.1
    have hcells : (sys.coords i).seed.pos = (sys.coords i).seed.neg := of_decide_eq_true hdiag
    have hsame : sys.seedAt (i, s) = sys.seedAt (i, s') := by
      rw [seedAt_live hi, seedAt_live hi]
      unfold seedCell
      cases s <;> cases s' <;> first | rfl | exact hcells | exact hcells.symm
    exact hsame ▸ hseed
  exact hstep ▸ hle

end System

/-! ## What a call site makes of it -/

/-- The sides a selection leaves open. -/
def Selection.sides : Selection → List Side
  | .pos => [.pos]
  | .neg => [.neg]
  | .unselected => [.pos, .neg]

theorem lower_fin_consume : ∀ t : Transfer, lower t.fin = .consume → t = .must := by decide

theorem collapse_consume : ∀ a b : Transfer, lower (a.fin ⊔ b.fin) = .consume → a = .must ∧ b = .must := by decide

/-- A call site consumes only where the cells it goes by are `must`. -/
theorem apply_must {shape : Shape} {c : Cells} {sel : Selection} (h : apply shape c sel = .consume) {s : Side}
    (hs : s ∈ sel.sides) : c.at_ s = .must := by
  cases shape with
  | uncond =>
    obtain ⟨hp, hn⟩ := collapse_consume c.pos c.neg h
    cases s
    · exact hp
    · exact hn
  | split g =>
    cases sel with
    | pos =>
      rw [List.mem_singleton.mp hs]
      exact lower_fin_consume c.pos h
    | neg =>
      rw [List.mem_singleton.mp hs]
      exact lower_fin_consume c.neg h
    | unselected =>
      obtain ⟨hp, hn⟩ := collapse_consume c.pos c.neg h
      cases s
      · exact hp
      · exact hn

theorem must_of_isLUB {S : Set Transfer} (h : IsLUB S .must) :
    .must ∈ S ∧ ∀ t ∈ S, t ≠ .no ∧ t ≠ .may ∧ t ≠ .unknown := by
  have hle : ∀ t : Transfer, t ≤ .must → t = .bot ∨ t = .must := by decide
  constructor
  · by_contra hno
    have hbot : .bot ∈ upperBounds S := by
      intro t ht
      rcases hle t (h.1 ht) with rfl | rfl
      · exact le_refl _
      · exact absurd ht hno
    exact absurd (h.2 hbot) (by decide)
  · intro t ht
    rcases hle t (h.1 ht) with rfl | rfl <;> decide

/-- The solver ends; a solved cell is the join of the seeds at the ends of the chains from it,
    the same on both sides of a coordinate without a guard; a call site consumes only where
    some chain ends in `must` and none in `no`, `may` or `unknown`. -/
theorem solve_chains {maxCoords maxEdges : Nat} (sys : System maxCoords maxEdges) (hw : sys.wellFormed = true) :
    ∃ x, solve sys = some x ∧ ∀ i : Fin maxCoords, i.val < sys.n →
      (∀ s, IsLUB {t | ∃ w, sys.Chain (i, s) w ∧ t = sys.seedCell w} ((x i).at_ s)) ∧
      ((sys.coords i).shape = .uncond → (x i).pos = (x i).neg) ∧
      ∀ sel, apply (sys.coords i).shape (x i) sel = .consume → ∀ s ∈ sel.sides,
        (∃ w, sys.Chain (i, s) w ∧ sys.seedCell w = .must) ∧
          ∀ w, sys.Chain (i, s) w → sys.seedCell w ≠ .no ∧ sys.seedCell w ≠ .may ∧ sys.seedCell w ≠ .unknown := by
  obtain ⟨x, hx⟩ := sys.solve_some
  refine ⟨x, hx, fun i hi => ?_⟩
  have hlub : ∀ s, IsLUB {t | ∃ w, sys.Chain (i, s) w ∧ t = sys.seedCell w} ((x i).at_ s) := by
    intro s
    have hends : {t | ∃ w, sys.Chain (i, s) w ∧ t = sys.seedCell w} = {t | ∃ w, sys.Chain (i, s) w ∧ t = sys.seedAt w} := by
      refine Set.ext fun t => exists_congr fun w => and_congr_right fun hw' => ?_
      rw [System.seedAt_live (System.chain_live hw hi hw')]
    exact hends ▸ sys.solve_isLUB hx (i, s)
  refine ⟨hlub, fun hu => ?_, fun sel hc s hs => ?_⟩
  · exact le_antisymm (System.solved_uncond hw hx hi hu .pos .neg) (System.solved_uncond hw hx hi hu .neg .pos)
  · have hmust : IsLUB {t | ∃ w, sys.Chain (i, s) w ∧ t = sys.seedCell w} .must := apply_must hc hs ▸ hlub s
    obtain ⟨⟨w, hw', he⟩, hnone⟩ := must_of_isLUB hmust
    exact ⟨⟨w, hw', he.symm⟩, fun u hu => hnone _ ⟨u, hu, rfl⟩⟩

namespace Example

/-- Two coordinates that forward to each other, the first under its guard, negated. -/
def pair : System 2 1 where
  n := 2
  coords i :=
    if i = 0 then ⟨.split 0, ⟨.must, .bot⟩, fun _ => some ⟨1, .neg, .negOnly⟩⟩
    else ⟨.split 1, ⟨.must, .no⟩, fun _ => some ⟨0, .constPos, .posOnly⟩⟩

end Example

open Example in
theorem solve_chains_pair : ∃ x, solve pair = some x ∧ ∀ i : Fin 2, i.val < 2 → ∀ s,
    IsLUB {t | ∃ w, pair.Chain (i, s) w ∧ t = pair.seedCell w} ((x i).at_ s) := by
  obtain ⟨x, hx, h⟩ := solve_chains pair (by decide)
  exact ⟨x, hx, fun i hi => (h i hi).1⟩

end OwnNet.Kernel
