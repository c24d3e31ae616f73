/-
  OwnNet.Lang.Quiet — lowering that reports nothing: a name is defined where it is used, and no
  declaration has a name that is in scope.

  Proved: `Lowered.visible`: then a name in scope stands for the same symbol from then on;
  `lowerSeq_append`: a body is lowered part by part.
-/

import OwnNet.Lang.Handles

namespace OwnNet.Lang

namespace Builder

def Quiet (B : Builder) : Prop := B.diags = []

theorem visible_congr {B B' : Builder} (h : B'.scopes = B.scopes) (name : String) : B'.visible name = B.visible name := by
  unfold visible
  rw [h]

theorem visible_pushScope (B : Builder) (name : String) : B.pushScope.visible name = B.visible name := by
  simp [visible, entry, List.findSome?_cons]

theorem visible_declare (B : Builder) (mk : Nat → Symbol) (name : String) :
    (B.declare mk).1.visible name = if (mk B.nextSym).name = name then some (mk B.nextSym) else B.visible name := by
  unfold visible
  rw [declare_scopes]
  by_cases hname : (mk B.nextSym).name = name
  · simp [entry, hname]
  · cases hs : B.scopes <;> simp [entry, hname, List.findSome?_cons]

namespace Quiet

variable {B B' : Builder}

theorem of_report {c : Code} {m : String} {l : Int} (h : (B.report c m l).Quiet) : False :=
  absurd h (by simp [Quiet, report])

theorem of_emit {b : Nat} {ins : Instr} (h : (B.emit b ins).Quiet) : B.Quiet := h

/-- What reports nothing changes nothing, if all it can do is report. -/
theorem of_reports (h : B'.Quiet) (hr : Reports B B') : B' = B := by
  obtain ⟨ds, rfl⟩ := hr
  obtain ⟨-, rfl⟩ := List.append_eq_nil_iff.mp h
  simp

theorem declare {mk : Nat → Symbol} (h : (B.declare mk).1.Quiet) : B.Quiet ∧ B.visible (mk B.nextSym).name = none := by
  unfold Quiet Builder.declare at h
  dsimp only at h
  split at h
  · exact (of_report h).elim
  next hnone => exact ⟨h, Option.not_isSome_iff_eq_none.mp hnone⟩

theorem lookup {name : String} {line : Int} (h : (B.lookup name line).1.Quiet) :
    ∃ s, B.visible name = some s ∧ B.lookup name line = (B, some s) := by
  unfold Builder.lookup at h ⊢
  cases hv : B.visible name with
  | some s => exact ⟨s, rfl, rfl⟩
  | none =>
    rw [hv] at h
    exact (of_report h).elim

/-- A declaration hides nothing. -/
theorem visible_declare {mk : Nat → Symbol} (h : (B.declare mk).1.Quiet) {name : String} {s : Symbol}
    (hs : B.visible name = some s) :
    (B.declare mk).1.visible name = some s := by
  rw [Builder.visible_declare, if_neg, hs]
  rintro rfl
  rw [h.declare.2] at hs
  cases hs

end Quiet

end Builder

/-! ## Reports only add up -/

section

variable {B B' : Builder} {cur : Nat} {out : Option Nat}

theorem Lowered.quiet {G : Layout} (h : Lowered G B cur B' out) (hq : B'.Quiet) : B.Quiet :=
  List.eq_nil_iff_forall_not_mem.mpr fun d hd => by
    have hd' := h.keeps d hd
    rw [hq] at hd'
    cases hd'

theorem Local.visible {G : Layout} (h : Local G cur B B') (hq : B'.Quiet) {name : String} {s : Symbol}
    (hs : B.visible name = some s) :
    B'.visible name = some s := by
  cases h with
  | report ds => exact hs
  | bare mk kind => exact hq.visible_declare hs
  | define mk ins =>
    have hdeclared : (B.declare mk).1.Quiet := hq
    exact hdeclared.visible_declare hs
  | emit ins => exact hs

/-- A name in scope stands for its symbol as long as it is in scope. -/
theorem Lowered.visible {G : Layout} (h : Lowered G B cur B' out) (hq : B'.Quiet) {name : String} {s : Symbol}
    (hs : B.visible name = some s) :
    B'.visible name = some s := by
  induction h with
  | stay hl => exact hl.visible hq hs
  | seq _ h₂ ih₁ ih₂ => exact ih₂ hq (ih₁ (h₂.quiet hq) hs)
  | ret => exact hs
  | @borrow B B' cur mk owner isMut line out _ _ _ _ _ hbody _ =>
    have hopen : ((B.pushScope.declare mk).1.emit cur (.borrowStart owner (mk B.nextSym) isMut line)).scopes =
        [((mk B.nextSym).name, mk B.nextSym)] :: B.scopes := by
      rw [Builder.emit_scopes, Builder.declare_scopes]
      rfl
    rw [Builder.visible_congr (B := B), hs]
    rw [Builder.closeBorrow_scopes]
    exact hbody.pop hopen
  | @branch B B₁ B₂ cur t e _ _ h₁ h₂ _ _ _ =>
    have hpop : B₁.popScope.scopes = B.scopes := h₁.pop rfl
    rw [Builder.visible_congr (B := B), hs]
    rw [Builder.merge_scopes]
    exact (h₂.pop rfl).trans hpop
  | @loop B B' cur out _ _ _ _ hbody _ =>
    rw [Builder.visible_congr (B := B), hs]
    rw [Builder.linkIf_scopes]
    exact hbody.pop rfl

end

/-! ## Bodies -/

section

variable (env : Env) (fn : FnDecl) {cur : Nat} {B : Builder}

/-- Some layout is enough for what does not depend on it. -/
theorem lowerStmt_lowered (st : Stmt) (cur : Nat) (hB : B.Scoped) :
    ∃ G, Lowered G B cur (lowerStmt env fn st cur B).1 (lowerStmt env fn st cur B).2 := by
  obtain ⟨G, -, hl⟩ := lowerStmt_lowers env fn st cur hB ⟨fun _ => [], fun _ => 0, fun _ => false, id⟩
  exact ⟨G, hl⟩

theorem lowerSeq_lowered (body : List Stmt) (cur : Nat) (hB : B.Scoped) :
    ∃ G, Lowered G B cur (lowerSeq env fn body cur B).1 (lowerSeq env fn body cur B).2 := by
  obtain ⟨G, -, hl⟩ := lowerSeq_lowers env fn body cur hB ⟨fun _ => [], fun _ => 0, fun _ => false, id⟩
  exact ⟨G, hl⟩

theorem lowerSeq_append (l l' : List Stmt) (cur : Nat) (B : Builder) :
    lowerSeq env fn (l ++ l') cur B =
      match (lowerSeq env fn l cur B).2 with
      | none => ((lowerSeq env fn l cur B).1, none)
      | some c => lowerSeq env fn l' c (lowerSeq env fn l cur B).1 := by
  induction l generalizing cur B with
  | nil => rfl
  | cons st rest ih =>
    rw [List.cons_append]
    simp only [lowerSeq]
    cases (lowerStmt env fn st cur B).2 with
    | none => rfl
    | some c => exact ih c _

end

end OwnNet.Lang
