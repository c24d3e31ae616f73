/-
  OwnNet.Kernel.Wrappers — a coordinate that does nothing but hand its parameter on, against
  the callee it hands it to.

  A call of the wrapper selects on the wrapper's own guard; a direct call of the callee makes
  the selection that the edge stands for. The edge reads the callee's cells as they are
  solved, a call site as they are finalised.

  Proved: `wrapper_transparent`: both calls lower alike, except through an opaque edge to a
  callee whose solved cells are a `must` and a `⊥`; there the wrapper consumes and the
  unselected direct call is plain.
-/

import OwnNet.Kernel.Guarded

namespace OwnNet.Kernel

/-- The opposite selection. -/
def Selection.flip : Selection → Selection
  | .pos => .neg
  | .neg => .pos
  | .unselected => .unselected

/-- The selection an edge makes on its callee's guard, from that on its own. -/
def Transform.selects : Transform → Selection → Selection
  | .constPos, _ => .pos
  | .constNeg, _ => .neg
  | .id, sel => sel
  | .neg, sel => sel.flip
  | .opaque_, _ => .unselected

/-- A definite release on one side, nothing but ungrounded forwards on the other. -/
def Cells.halfGrounded (c : Cells) : Prop := c = ⟨.must, .bot⟩ ∨ c = ⟨.bot, .must⟩

instance (c : Cells) : Decidable c.halfGrounded := inferInstanceAs (Decidable (_ ∨ _))

section

variable {maxCoords maxEdges : Nat} {sys : System maxCoords maxEdges} {x : Fin maxCoords → Cells}

/-- A wrapper's cells are what its edge reads. -/
theorem solved_wrapper (hx : solve sys = some x) {o k : Fin maxCoords} (ho : o.val < sys.n) (hseed : (sys.coords o).seed = .bot)
    {t : Transform} (hedge : (sys.coords o).forwards = [⟨k.val, t, .both⟩]) : x o = read t (x k) := by
  have hfix : sys.step o x = x o := by
    rw [← sys.pass_eq_step]
    exact congrFun (Dataflow.Jacobi.passes_eq hx).1 o
  rw [← hfix]
  unfold System.step
  rw [if_neg (Nat.not_le_of_lt ho), hedge, hseed]
  have hlook : System.look x k.val = x k := dif_pos k.isLt
  simp only [List.foldl_cons, List.foldl_nil, hlook]
  have hbot : ∀ c : Cells, Cells.bot.join c = c := fun c => by
    refine Cells.ext ?_ ?_ <;> exact bot_sup_eq _
  exact hbot _

/-- A guard that is passed through is one on both sides. -/
theorem split_of_guard (hw : sys.wellFormed = true) {o : Fin maxCoords} (ho : o.val < sys.n) {k : Fin maxCoords} {t : Transform}
    (hedge : (sys.coords o).forwards = [⟨k.val, t, .both⟩]) (ht : t = .id ∨ t = .neg) :
    (∃ g, (sys.coords o).shape = .split g) ∧ ∃ g, (sys.coords k).shape = .split g := by
  have hok := System.edgeOk_of_live hw ho (e := ⟨k.val, t, .both⟩) (by rw [hedge]; exact List.mem_singleton.mpr rfl)
  have hget : sys.get k.val = some (sys.coords k) := dif_pos k.isLt
  unfold System.edgeOk at hok
  simp only [hget, Option.any_some, ht, decide_true, Bool.or_true, Bool.and_true, Bool.true_and, Bool.not_eq_true',
    Bool.or_eq_false_iff, Bool.not_eq_false'] at hok
  obtain ⟨⟨-, ho'⟩, hk'⟩ := hok
  constructor
  · cases hs : (sys.coords o).shape with
    | uncond => simp [hs, Shape.isSplit] at ho'
    | split g => exact ⟨g, rfl⟩
  · cases hs : (sys.coords k).shape with
    | uncond => simp [hs, Shape.isSplit] at hk'
    | split g => exact ⟨g, rfl⟩

end

/-! ## Cell by cell -/

theorem lower_fin : ∀ t : Transfer, lower t.fin = lower t := by decide

theorem lower_sup_self (t : Transfer) : lower (t.fin ⊔ t.fin) = lower t := by rw [sup_idem, lower_fin]

theorem apply_unselected (shape : Shape) (c : Cells) : apply shape c .unselected = lower (c.pos.fin ⊔ c.neg.fin) := by
  cases shape <;> rfl

/-- A selected cell, of a coordinate that has the same on both sides if it has no guard. -/
theorem apply_pos {shape : Shape} {c : Cells} (h : shape = .uncond → c.pos = c.neg) : apply shape c .pos = lower c.pos := by
  cases shape with
  | uncond =>
    show lower (c.pos.fin ⊔ c.neg.fin) = lower c.pos
    rw [← h rfl, lower_sup_self]
  | split g => exact lower_fin c.pos

theorem apply_neg {shape : Shape} {c : Cells} (h : shape = .uncond → c.pos = c.neg) : apply shape c .neg = lower c.neg := by
  cases shape with
  | uncond =>
    show lower (c.pos.fin ⊔ c.neg.fin) = lower c.neg
    rw [h rfl, lower_sup_self]
  | split g => exact lower_fin c.neg

/-- Of one cell on both sides every call makes the same. -/
theorem apply_diag (shape : Shape) (t : Transfer) (sel : Selection) : apply shape (.diag t) sel = lower t := by
  cases sel with
  | pos => exact apply_pos fun _ => rfl
  | neg => exact apply_neg fun _ => rfl
  | unselected => rw [apply_unselected]; exact lower_sup_self t

theorem apply_guard (g h : Nat) (c : Cells) (sel : Selection) : apply (.split g) c sel = apply (.split h) c sel := by
  cases sel <;> rfl

/-- Swapped cells under a flipped selection. -/
theorem apply_swap (g h : Nat) (c : Cells) (sel : Selection) : apply (.split g) c.swap sel = apply (.split h) c sel.flip := by
  cases sel with
  | pos => rfl
  | neg => rfl
  | unselected => exact congrArg lower (sup_comm _ _)

/-- The join of the solved cells lowers as the finalised cells do, a `must` beside a `⊥` apart. -/
theorem lower_collapse : ∀ p n : Transfer,
    (lower (p ⊔ n) = lower (p.fin ⊔ n.fin) ↔ ¬((p = .must ∧ n = .bot) ∨ (p = .bot ∧ n = .must))) ∧
      ((p = .must ∧ n = .bot) ∨ (p = .bot ∧ n = .must) → lower (p ⊔ n) = .consume ∧ lower (p.fin ⊔ n.fin) = .plain) := by
  decide

theorem halfGrounded_iff {c : Cells} : c.halfGrounded ↔ (c.pos = .must ∧ c.neg = .bot) ∨ (c.pos = .bot ∧ c.neg = .must) := by
  unfold Cells.halfGrounded
  simp only [Cells.ext_iff]

/-! ## The wrapper -/

/-- A wrapper's summary and its callee's lower alike, whatever the call selects, unless the edge
    is opaque and the callee half grounded. -/
theorem wrapper_transparent {maxCoords maxEdges : Nat} (sys : System maxCoords maxEdges) (hw : sys.wellFormed = true)
    {x : Fin maxCoords → Cells} (hx : solve sys = some x) {o k : Fin maxCoords} (ho : o.val < sys.n)
    (hseed : (sys.coords o).seed = .bot) {t : Transform} (hedge : (sys.coords o).forwards = [⟨k.val, t, .both⟩])
    (sel : Selection) :
    (apply (sys.coords o).shape (x o) sel = apply (sys.coords k).shape (x k) (t.selects sel) ↔
      ¬(t = .opaque_ ∧ (x k).halfGrounded)) ∧
    (t = .opaque_ ∧ (x k).halfGrounded →
      apply (sys.coords o).shape (x o) sel = .consume ∧ apply (sys.coords k).shape (x k) (t.selects sel) = .plain) := by
  have hk : k.val < sys.n := by
    have hok := System.edgeOk_of_live hw ho (e := ⟨k.val, t, .both⟩) (by rw [hedge]; exact List.mem_singleton.mpr rfl)
    unfold System.edgeOk at hok
    by_contra hge
    simp [Nat.le_of_not_lt hge] at hok
  have hsame : (sys.coords k).shape = .uncond → (x k).pos = (x k).neg := fun hu =>
    le_antisymm (System.solved_uncond hw hx hk hu .pos .neg) (System.solved_uncond hw hx hk hu .neg .pos)
  rw [solved_wrapper hx ho hseed hedge]
  cases t with
  | constPos =>
    have heq : apply (sys.coords o).shape (.diag (x k).pos) sel = apply (sys.coords k).shape (x k) .pos := by
      rw [apply_diag, apply_pos hsame]
    exact ⟨iff_of_true heq (by simp), by simp⟩
  | constNeg =>
    have heq : apply (sys.coords o).shape (.diag (x k).neg) sel = apply (sys.coords k).shape (x k) .neg := by
      rw [apply_diag, apply_neg hsame]
    exact ⟨iff_of_true heq (by simp), by simp⟩
  | id =>
    obtain ⟨⟨g, hg⟩, h, hh⟩ := split_of_guard hw ho hedge (Or.inl rfl)
    rw [hg, hh]
    exact ⟨iff_of_true (apply_guard g h (x k) sel) (by simp), by simp⟩
  | neg =>
    obtain ⟨⟨g, hg⟩, h, hh⟩ := split_of_guard hw ho hedge (Or.inr rfl)
    rw [hg, hh]
    exact ⟨iff_of_true (apply_swap g h (x k) sel) (by simp), by simp⟩
  | opaque_ =>
    have hread : read .opaque_ (x k) = .diag ((x k).pos ⊔ (x k).neg) := rfl
    have hsel : Transform.selects .opaque_ sel = .unselected := rfl
    rw [hread, hsel, apply_diag, apply_unselected, halfGrounded_iff]
    simpa using lower_collapse (x k).pos (x k).neg

namespace Example

/-- `F(p, g) { if (g) release p; else F(p, g); }`, and a wrapper that passes no guard on. -/
def halfGrounded : System 2 1 where
  n := 2
  coords i :=
    if i.val = 0 then ⟨.split 0, ⟨.must, .bot⟩, fun _ => some ⟨0, .id, .negOnly⟩⟩
    else ⟨.uncond, .bot, fun _ => some ⟨0, .opaque_, .both⟩⟩

theorem halfGrounded_solved : solve halfGrounded = some fun i => if i = 0 then ⟨.must, .bot⟩ else ⟨.must, .must⟩ := by
  decide

end Example

open Example in
theorem wrapper_transparent_halfGrounded :
    apply (halfGrounded.coords 1).shape ⟨.must, .must⟩ .unselected = .consume ∧
      apply (halfGrounded.coords 0).shape ⟨.must, .bot⟩ .unselected = .plain := by
  have h := wrapper_transparent halfGrounded (by decide) halfGrounded_solved (o := 1) (k := 0) (t := .opaque_)
    (by decide) rfl rfl .unselected
  exact h.2 ⟨rfl, Or.inl rfl⟩

open Example in
/-- A wrapper that is no part of the recursion consumes where a direct call is plain. -/
theorem opaque_wrapper_consumes : ¬∀ (sys : System 2 1) (x : Fin 2 → Cells) (o k : Fin 2), sys.wellFormed = true →
    solve sys = some x → o.val < sys.n → (sys.coords o).seed = .bot → (sys.coords o).forwards = [⟨k.val, .opaque_, .both⟩] →
    ∀ sel, apply (sys.coords o).shape (x o) sel = apply (sys.coords k).shape (x k) (Transform.selects .opaque_ sel) := by
  intro h
  have heq := h halfGrounded _ 1 0 (by decide) halfGrounded_solved (by decide) rfl rfl .unselected
  exact absurd heq (by decide)

end OwnNet.Kernel
