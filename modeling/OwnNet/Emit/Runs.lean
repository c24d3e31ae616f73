/-
  OwnNet.Emit.Runs — how emitted code runs, where any step may throw before it has done anything:
  the lines that open a scope are one step, and so is a test. What is in a `finally` does not throw.

  Proved: `attempts_bracketed`: code whose steps leave some names alone opens and closes these in
  scopes only, nested, and closes each it opened, however it is left.
-/

import OwnNet.Emit.Code
import OwnNet.Graph.Attempts

namespace OwnNet.Emit

open Lang Graph Checks

mutual

def Code.attempts : Code → Attempts Act
  | .step acts _ => .attempt acts
  | .leave var => .sure (.leave [.returns var])
  | .borrow owner binding _ _ body =>
    (Attempts.attempt [.lends owner binding]).seq ((attemptsSeq body).seq (.sure (.word [.regains owner binding])))
  | .cond _ thenBody elseBody _ => (Attempts.attempt []).seq ((attemptsSeq thenBody).choice (attemptsSeq elseBody))
  | .loop _ body => ((Attempts.attempt []).seq (attemptsSeq body)).loop.seq (.attempt [])
  | .scope name pre fin body => (Attempts.attempt [.opens name pre]).seq ((attemptsSeq body).guard [.closes name fin])

def attemptsSeq : List Code → Attempts Act
  | [] => .sure (.word [])
  | c :: rest => c.attempts.seq (attemptsSeq rest)

end

/-- The runs that throw nothing. -/
def Code.ways (c : Code) : Ways Act := c.attempts.toWays

def waysSeq (code : List Code) : Ways Act := (attemptsSeq code).toWays

@[simp] theorem waysSeq_nil : waysSeq [] = .word [] := rfl

@[simp] theorem waysSeq_cons (c : Code) (rest : List Code) : waysSeq (c :: rest) = c.ways.seq (waysSeq rest) := rfl

@[simp] theorem ways_step (acts : List Act) (lines : List String) : (Code.step acts lines).ways = .word acts := rfl

@[simp] theorem ways_leave (var : Option String) : (Code.leave var).ways = .leave [.returns var] := rfl

@[simp] theorem ways_borrow (owner binding note line : String) (body : List Code) :
    (Code.borrow owner binding note line body).ways =
      (Ways.word [.lends owner binding]).seq ((waysSeq body).seq (.word [.regains owner binding])) := rfl

@[simp] theorem ways_cond (line : String) (thenBody elseBody : List Code) (hasElse : Bool) :
    (Code.cond line thenBody elseBody hasElse).ways = (waysSeq thenBody).choice (waysSeq elseBody) :=
  Ways.nil_seq _

@[simp] theorem ways_loop (line : String) (body : List Code) : (Code.loop line body).ways = (waysSeq body).loop := by
  have h : (Code.loop line body).ways = (((Ways.word []).seq (waysSeq body)).loop).seq (.word []) := rfl
  rw [h, Ways.nil_seq, Ways.seq_nil]

/-- A scope nothing leaves: what is in it between opening and closing. -/
theorem ways_scope {name : String} {pre fin : List String} {body : List Code} (h : (waysSeq body).leaves = 0) :
    (Code.scope name pre fin body).ways =
      (Ways.word [.opens name pre]).seq ((waysSeq body).seq (.word [.closes name fin])) := by
  have hg := Attempts.guard_ways (r := attemptsSeq body) h [.closes name fin]
  show (Ways.word _).seq ((attemptsSeq body).guard _).toWays = _
  rw [hg]
  rfl

/-! ## The statements code is made from -/

section

variable (P : List Act → Prop) (Q : Prop)

mutual

/-- Every step bears what `P` allows, and there is a `return` only where `Q` holds. -/
def Code.Made : Code → Prop
  | .step acts _ => P acts
  | .leave _ => Q
  | .borrow _ _ _ _ body => MadeSeq body
  | .cond _ thenBody elseBody _ => MadeSeq thenBody ∧ MadeSeq elseBody
  | .loop _ body => MadeSeq body
  | .scope _ _ _ body => MadeSeq body

def MadeSeq : List Code → Prop
  | [] => True
  | c :: rest => c.Made ∧ MadeSeq rest

end

/-- What a statement would make of itself is allowed, whatever lines it is printed as. -/
def Makes : Stmt → Prop
  | .let_ name (.acquire _ _ _) _ | .let_ name (.buffer _ _ _ _ _ _ _) _ => ∀ lines, P [.opens name lines]
  | .let_ name (.move var _) _ => P [.moves name var]
  | .let_ _ _ _ | .subscribe _ _ => P []
  | .release var _ => ∀ lines, P [.closes var lines]
  | .use var _ => P [.uses var]
  | .overspan var _ => P [.views var]
  | .call callee args _ => P [.calls callee (args.map arg)]
  | .aliasJoin name src _ => P [.joins name src]
  | .return_ _ _ => Q
  | .borrowBlock _ _ _ _ _ | .if_ _ _ _ _ | .while_ _ _ _ => True

end

theorem mem_iterStmts {s : Stmt} {l : List Stmt} : s ∈ iterStmts l ↔ ∃ st ∈ l, s ∈ iterStmt st := by
  induction l with
  | nil => simp [iterStmts]
  | cons st rest ih => simp [iterStmts, ih]

theorem iterStmts_subset {l l' : List Stmt} (h : ∀ st ∈ l, st ∈ l') : ∀ s ∈ iterStmts l, s ∈ iterStmts l' := by
  intro s hs
  obtain ⟨st, hst, hs⟩ := mem_iterStmts.mp hs
  exact mem_iterStmts.mpr ⟨st, h st hst, hs⟩

section

variable {P : List Act → Prop} {Q : Prop} (mod : Module) (fn : String)

mutual

theorem codeStmt_made (st : Stmt) (σ : Names) {c : Code} {σ' : Names} (hm : ∀ s ∈ iterStmt st, Makes P Q s)
    (hb : isBuffer st = false) (h : codeStmt mod fn st σ = .ok (c, σ')) : c.Made P Q := by
  cases st with
  | let_ name rhs line =>
    rw [codeStmt] at h
    obtain ⟨r, hr, h⟩ := bind_ok.mp h
    cases h
    have hst := hm _ List.mem_cons_self
    cases rhs with
    | acquire rt args rline => exact hst [r.1]
    | buffer => cases hb
    | _ => exact hst
  | release var line =>
    rw [codeStmt] at h
    cases h
    have hst := hm _ List.mem_cons_self
    exact hst _
  | borrowBlock owner binding kind body line =>
    rw [codeStmt] at h
    obtain ⟨b, hb, h⟩ := bind_ok.mp h
    cases h
    exact codeBlock_made body σ (fun s hs => hm s (List.mem_cons_of_mem _ hs)) hb
  | if_ cond thenBody elseBody line =>
    rw [codeStmt] at h
    obtain ⟨t, ht, h⟩ := bind_ok.mp h
    obtain ⟨e, he, h⟩ := bind_ok.mp h
    cases h
    exact ⟨codeBlock_made thenBody σ (fun s hs => hm s (List.mem_cons_of_mem _ (List.mem_append_left _ hs))) ht,
      codeBlock_made elseBody t.2 (fun s hs => hm s (List.mem_cons_of_mem _ (List.mem_append_right _ hs))) he⟩
  | while_ cond body line =>
    rw [codeStmt] at h
    obtain ⟨b, hb, h⟩ := bind_ok.mp h
    cases h
    exact codeBlock_made body σ (fun s hs => hm s (List.mem_cons_of_mem _ hs)) hb
  | _ =>
    rw [codeStmt] at h
    cases h
    exact hm _ List.mem_cons_self
termination_by sizeOf st

theorem codeBlock_made (stmts : List Stmt) (σ : Names) {code : List Code} {σ' : Names} (hm : ∀ s ∈ iterStmts stmts, Makes P Q s)
    (h : codeBlock mod fn stmts σ = .ok (code, σ')) : MadeSeq P Q code := by
  match stmts with
  | [] =>
    rw [codeBlock_nil] at h
    cases h
    trivial
  | st :: rest =>
    have hst : ∀ s ∈ iterStmt st, Makes P Q s := fun s hs => hm s (List.mem_append_left _ hs)
    have hrest : ∀ s ∈ iterStmts rest, Makes P Q s := fun s hs => hm s (List.mem_append_right _ hs)
    cases hb : isBuffer st with
    | false =>
      rw [codeBlock_plain mod fn hb] at h
      obtain ⟨s, hs, h⟩ := bind_ok.mp h
      obtain ⟨more, hmore, h⟩ := bind_ok.mp h
      cases h
      exact ⟨codeStmt_made st σ hst hb hs, codeBlock_made rest s.2 hrest hmore⟩
    | true =>
      match st with
      | .let_ name (.buffer mode size options bline ns col dups) line =>
        rw [codeBlock] at h
        cases hend : scopeEnd rest name with
        | some j =>
          simp only [hend] at h
          obtain ⟨b, hb, h⟩ := bind_ok.mp h
          obtain ⟨body, hbody, h⟩ := bind_ok.mp h
          obtain ⟨more, hmore, h⟩ := bind_ok.mp h
          cases h
          exact ⟨codeBlock_made (rest.take j) b.2
              (fun s hs => hrest s (iterStmts_subset (fun _ hx => List.mem_of_mem_take hx) s hs)) hbody,
            codeBlock_made (rest.drop (j + 1)) body.2
              (fun s hs => hrest s (iterStmts_subset (fun _ hx => List.mem_of_mem_drop hx) s hs)) hmore⟩
        | none =>
          simp only [hend] at h
          split at h
          · obtain ⟨b, hb, h⟩ := bind_ok.mp h
            obtain ⟨more, hmore, h⟩ := bind_ok.mp h
            cases h
            have hopens := hst _ List.mem_cons_self
            exact ⟨hopens _, codeBlock_made rest _ hrest hmore⟩
          · cases h
termination_by sizeOf stmts
decreasing_by
  all_goals simp_wf
  · omega
  · have := sizeOf_take_le rest j
    omega
  · have := sizeOf_drop_le rest (j + 1)
    omega

end

end

mutual

/-- Without a `return` in it code is not left. -/
theorem ways_stay {P : List Act → Prop} (c : Code) (h : c.Made P False) : c.ways.leaves = 0 := by
  cases c with
  | step => rfl
  | leave => exact h.elim
  | borrow owner binding note line body =>
    have hb := waysSeq_stay body h
    simp [Ways.seq, Ways.word, hb]
  | cond line thenBody elseBody hasElse =>
    have ht := waysSeq_stay thenBody h.1
    have he := waysSeq_stay elseBody h.2
    simp [Ways.choice, ht, he]
  | loop line body =>
    have hb := waysSeq_stay body h
    simp [Ways.loop, hb]
  | scope name pre fin body =>
    have hb := waysSeq_stay body h
    rw [ways_scope hb]
    simp [Ways.seq, Ways.word, hb]

theorem waysSeq_stay {P : List Act → Prop} (code : List Code) (h : MadeSeq P False code) : (waysSeq code).leaves = 0 := by
  cases code with
  | nil => rfl
  | cons c rest =>
    have hc := ways_stay c h.1
    have hrest := waysSeq_stay rest h.2
    simp [Ways.seq, hc, hrest]

end

/-! ## Scopes are closed however they are left -/

/-- Which side of a scope of one of the names an act is. -/
def side (N : String → Bool) : Act → Option (String × Bool)
  | .opens name _ => if N name then some (name, true) else none
  | .closes name _ => if N name then some (name, false) else none
  | _ => none

/-- Neither opens nor closes one of the names. -/
def Aside (N : String → Bool) (acts : List Act) : Prop := ∀ a ∈ acts, side N a = none

section

variable {N : String → Bool}

open Attempts

mutual

theorem attempts_bracketed (c : Code) (h : c.Made (Aside N) True) : All (Bracketed (side N)) c.attempts := by
  have hone : ∀ a : Act, side N a = none → Bracketed (side N) [a] := fun a ha =>
    .other fun b hb => List.mem_singleton.mp hb ▸ ha
  cases c with
  | step acts lines => exact .attempt .nil (.other h)
  | leave var =>
    refine .sure fun w hw => ?_
    rcases hw with hw | hw
    · exact absurd hw (Language.notMem_zero w)
    · rw [mem_word.mp hw]
      exact hone _ rfl
  | borrow owner binding note line body =>
    refine .seq Bracketed.append (.attempt .nil (hone _ rfl)) (.seq Bracketed.append (attemptsSeq_bracketed body h) ?_)
    refine .sure fun w hw => ?_
    rcases hw with hw | hw
    · rw [mem_word.mp hw]
      exact hone _ rfl
    · exact absurd hw (Language.notMem_zero w)
  | cond line thenBody elseBody hasElse =>
    exact .seq Bracketed.append (.attempt .nil .nil)
      (.choice (attemptsSeq_bracketed thenBody h.1) (attemptsSeq_bracketed elseBody h.2))
  | loop line body =>
    have hround := All.seq Bracketed.append (.attempt .nil .nil) (attemptsSeq_bracketed body h)
    exact .seq Bracketed.append (.loop .nil Bracketed.append hround) (.attempt .nil .nil)
  | scope name pre fin body =>
    have hbody := attemptsSeq_bracketed body h
    by_cases hN : N name = true
    · exact hbody.bracket (n := name) (by simp [side, hN]) (by simp [side, hN])
    · refine .seq Bracketed.append (.attempt .nil (hone _ (by simp [side, hN]))) ?_
      exact hbody.guard Bracketed.append (hone _ (by simp [side, hN]))

theorem attemptsSeq_bracketed (code : List Code) (h : MadeSeq (Aside N) True code) :
    All (Bracketed (side N)) (attemptsSeq code) := by
  cases code with
  | nil =>
    refine .sure fun w hw => ?_
    rcases hw with hw | hw
    · rw [mem_word.mp hw]
      exact .nil
    · exact absurd hw (Language.notMem_zero w)
  | cons c rest => exact .seq Bracketed.append (attempts_bracketed c h.1) (attemptsSeq_bracketed rest h.2)

end

/-- The statement neither opens nor releases one of the names. -/
def Free (N : String → Bool) (st : Stmt) : Prop :=
  (∀ name, opened st = some name → N name = false) ∧ ∀ name, isRelease name st = true → N name = false

theorem Free.makes {st : Stmt} (h : Free N st) : Makes (Aside N) True st := by
  have hone : ∀ a : Act, side N a = none → Aside N [a] := fun a ha b hb => List.mem_singleton.mp hb ▸ ha
  have hnil : Aside N [] := fun a ha => absurd ha List.not_mem_nil
  cases st with
  | let_ name rhs line =>
    cases rhs with
    | acquire rt args rline => exact fun lines => hone _ (by simp [side, h.1 name rfl])
    | buffer => exact fun lines => hone _ (by simp [side, h.1 name rfl])
    | move var rline => exact hone _ rfl
    | _ => exact hnil
  | release var line => exact fun lines => hone _ (by simp [side, h.2 var (by simp [isRelease])])
  | subscribe => exact hnil
  | return_ => trivial
  | borrowBlock => trivial
  | if_ => trivial
  | while_ => trivial
  | _ => exact hone _ rfl

end

end OwnNet.Emit
