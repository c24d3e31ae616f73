/-
  OwnNet.OwnIR.Hoisting — a branch local declared at the top of the body, and the leaks the
  checker reports of it.

  The ops of a path, each with what it is lowered to where it stands, are what the checker
  follows: the ways through the source are those through what it is lowered to. The hoisted
  handle is owned from the top on, whether or not the path acquires the local.

  Proved: `flowWays_lowered`: the ways of a body, op by op, are those of its statements;
  `flowWays_paths`: without a region they are its paths; `reported_iff`: OWN001 is reported of
  a hoisted local exactly if on some way the handle, or what it was moved to, is left owned.
-/

import OwnNet.OwnIR.Minting
import OwnNet.OwnIR.ReleasePaths

namespace OwnNet.OwnIR

open Lang Graph Ownership

/-! ## The ways of a body -/

/-- An op on a way, with what it is lowered to there. -/
structure Passed where
  fields : Fields
  stmts : List Stmt

section

variable (owner : String → Bool) (ctx : FlowContext)

mutual

/-- The ways through an op, lowered from a state on; a region is entered where its owner is one. -/
def nodeWays (inRegion : Bool) (position : Option Nat) : Node → Flow → Ways Passed
  | .junk, _ => .word []
  | .op fields thenOps elseOps bodyOps, s =>
    match opKind fields with
    | .return_ => .leave [⟨fields, (lowerReturn fields s).1⟩]
    | .if_ =>
      (flowWays inRegion none thenOps s).choice
        (match lowerFlow ctx inRegion none thenOps s with
        | .error _ => .word []
        | .ok (_, s) => flowWays inRegion none elseOps s)
    | .while_ => (flowWays inRegion none bodyOps s).loop
    | .borrowMut =>
      match openRegion ctx fields s with
      | .error _ => .word []
      | .ok (handle, _, _, inner) => if owner handle then flowWays true none bodyOps inner else .word []
    | _ =>
      match lowerNode ctx inRegion position (.op fields thenOps elseOps bodyOps) s with
      | .error _ => .word []
      | .ok (stmts, _) => .word [⟨fields, stmts⟩]

def flowWays (inRegion : Bool) (position : Option Nat) : List Node → Flow → Ways Passed
  | [], _ => .word []
  | n :: rest, s =>
    (nodeWays inRegion position n s).seq
      (match lowerNode ctx inRegion position n s with
      | .error _ => .word []
      | .ok (_, s) => flowWays inRegion (position.map (· + 1)) rest s)

end

end

/-- A statement that is a way of its own. -/
inductive Plain : Stmt → Prop
  | let_ {name : String} {rhs : Expr} {line : Int} : Plain (.let_ name rhs line)
  | release {var : String} {line : Int} : Plain (.release var line)
  | use {var : String} {line : Int} : Plain (.use var line)
  | overspan {var : String} {line : Int} : Plain (.overspan var line)
  | call {callee : String} {args : List Expr} {line : Int} : Plain (.call callee args line)
  | aliasJoin {name src : String} {line : Int} : Plain (.aliasJoin name src line)

section

variable {owner : String → Bool} {ctx : FlowContext} {s s' : Flow} {a b out : List Stmt} {fields : Fields} {inRegion : Bool}
  {position : Option Nat} {t e body : List Node}

theorem seqWays_append (a b : List Stmt) : seqWays owner (a ++ b) = (seqWays owner a).seq (seqWays owner b) := by
  induction a with
  | nil => simp [seqWays]
  | cons x rest ih => rw [List.cons_append, seqWays, seqWays, ih, Ways.seq_assoc]

theorem seqWays_plain (h : ∀ x ∈ a, Plain x) : seqWays owner a = .word a := by
  induction a with
  | nil => rfl
  | cons x rest ih =>
    have hx : stmtWays owner x = .word [x] := by cases h x List.mem_cons_self <;> rfl
    rw [seqWays, hx, ih fun y hy => h y (List.mem_cons_of_mem _ hy), Ways.word_seq]
    rfl

theorem seqWays_one (x : Stmt) : seqWays owner [x] = stmtWays owner x := by simp [seqWays]

/-! ### Leaves -/

theorem plain_result {p : List Stmt × Flow} (h : ∀ x ∈ p.1, Plain x)
    (heq : (.ok p : Except Raise (List Stmt × Flow)) = .ok (out, s')) : ∀ x ∈ out, Plain x := by
  cases Except.ok.inj heq
  exact h

theorem lowerAcquire_plain (fields : Fields) : ∀ x ∈ (lowerAcquire ctx fields s).1, Plain x := by
  unfold lowerAcquire
  dsimp only
  intro x hx
  split at hx
  · cases hx
  · rw [List.mem_singleton.mp hx]
    exact .let_

theorem lowerRebind_plain {mk : String → String → Int → Stmt} (hmk : ∀ name src line, Plain (mk name src line))
    (fields : Fields) :
    ∀ x ∈ (lowerRebind ctx mk fields s).1, Plain x := by
  unfold lowerRebind
  dsimp only
  intro x hx
  split at hx
  · cases hx
  · split at hx
    · split at hx
      · cases hx
      · rw [List.mem_singleton.mp hx]
        exact hmk _ _ _
    · cases hx

theorem onHandle_plain {mk : String → Int → Stmt} (hmk : ∀ name line, Plain (mk name line)) (fields : Fields) :
    ∀ x ∈ (onHandle mk fields s).1, Plain x := by
  unfold onHandle
  intro x hx
  split at hx
  · rw [List.mem_singleton.mp hx]
    exact hmk _ _
  · cases hx

theorem killArgs_plain (line : Int) (args : List Json) : ∀ x ∈ (killArgs ctx position line args s).1, Plain x := by
  induction args generalizing s with
  | nil => exact fun x hx => absurd hx List.not_mem_nil
  | cons arg rest ih =>
    rw [killArgs_cons]
    dsimp only
    intro x hx
    split at hx
    · rcases List.mem_cons.mp hx with rfl | hx
      · exact .call
      · exact ih x hx
    · exact ih x hx

theorem bindResult_plain (fields : Fields) : ∀ x ∈ (bindResult ctx fields s).1, Plain x := by
  unfold bindResult
  intro x hx
  split at hx
  · split at hx
    · cases hx
    · dsimp only at hx
      split at hx
      · rw [List.mem_singleton.mp hx]
        exact .let_
      · cases hx
  · cases hx

theorem lowerCall_plain (h : lowerCall ctx inRegion position fields s = .ok (out, s')) : ∀ x ∈ out, Plain x := by
  unfold lowerCall at h
  cases hcontract : contractStmts ctx inRegion fields s with
  | error e =>
    rw [hcontract] at h
    cases h
  | ok contract =>
    rw [hcontract] at h
    cases h
    intro x hx
    simp only [List.mem_append] at hx
    rcases hx with (hx | hx) | hx
    · obtain ⟨callee, args, line, rfl⟩ := contractStmts_calls hcontract x hx
      exact .call
    · exact killArgs_plain _ _ x hx
    · exact bindResult_plain _ x hx

end

/-- The ways of a body, op by op, are those of what it is lowered to. -/
theorem flowWays_lowered (owner : String → Bool) (ctx : FlowContext) :
    (∀ n inRegion position s out s', lowerNode ctx inRegion position n s = .ok (out, s') →
      (nodeWays owner ctx inRegion position n s).map Passed.stmts = seqWays owner out) ∧
    ∀ ns inRegion position s out s', lowerFlow ctx inRegion position ns s = .ok (out, s') →
      (flowWays owner ctx inRegion position ns s).map Passed.stmts = seqWays owner out := by
  apply Node.induct
  · intro inRegion position s out s' h
    rw [lowerNode] at h
    cases h
    simp [nodeWays, seqWays]
  · intro fields t e b ht he hb inRegion position s out s' h
    -- an op that is lowered to statements of one piece each
    have hleaf : (∀ x ∈ out, Plain x) →
        (Ways.word [Passed.mk fields out]).map Passed.stmts = seqWays owner out := by
      intro hplain
      rw [seqWays_plain hplain]
      simp
    cases hk : opKind fields with
    | if_ =>
      obtain ⟨thenB, mid, elseB, hthen, helse, rfl⟩ := lowerNode_if hk h
      unfold nodeWays
      simp only [hk, hthen]
      rw [Ways.map_choice, ht _ _ _ _ _ hthen, he _ _ _ _ _ helse, seqWays_one, stmtWays]
    | while_ =>
      obtain ⟨bodyB, hbody, rfl⟩ := lowerNode_while hk h
      unfold nodeWays
      simp only [hk]
      rw [Ways.map_loop, hb _ _ _ _ _ hbody, seqWays_one, stmtWays]
    | borrowMut =>
      obtain ⟨handle, binding, symbol, inner, bodyB, s₁, hopen, hbody, rfl, rfl⟩ := lowerNode_region hk h
      unfold nodeWays
      simp only [hk, hopen]
      rw [seqWays_one, stmtWays]
      by_cases ho : owner handle = true
      · rw [if_pos ho, if_pos ho, hb _ _ _ _ _ hbody]
      · simp [ho]
    | return_ =>
      rw [lowerNode] at h
      simp only [hk] at h
      cases h
      unfold nodeWays
      simp only [hk]
      rw [Ways.map_leave, seqWays_one]
      rfl
    | call =>
      unfold nodeWays
      simp only [hk, h]
      rw [lowerNode] at h
      simp only [hk] at h
      exact hleaf (lowerCall_plain h)
    | _ =>
      unfold nodeWays
      simp only [hk, h]
      rw [lowerNode] at h
      simp only [hk] at h
      refine hleaf ?_
      first
        | exact plain_result (lowerAcquire_plain fields) h
        | exact plain_result (lowerRebind_plain (fun _ _ _ => .aliasJoin) fields) h
        | exact plain_result (lowerRebind_plain (fun _ _ _ => .let_) fields) h
        | exact plain_result (onHandle_plain (fun _ _ => .use) fields) h
        | exact plain_result (onHandle_plain (fun _ _ => .overspan) fields) h
        | exact plain_result (onHandle_plain (fun _ _ => .release) fields) h
        | exact plain_result (fun _ hx => absurd hx List.not_mem_nil) h
        | cases h
  · intro inRegion position s out s' h
    rw [lowerFlow] at h
    cases h
    simp [flowWays, seqWays]
  · intro n ns hn hns inRegion position s out s' h
    obtain ⟨first, mid, more, hfirst, hmore, rfl⟩ := lowerFlow_cons h
    unfold flowWays
    simp only [hfirst]
    rw [Ways.map_seq, hn _ _ _ _ _ hfirst, hns _ _ _ _ _ hmore, seqWays_append]

/-! ### Ways and paths -/

/-- The ways are the paths, op by op. -/
structure Follows (W : Ways Passed) (ps : List Fields → Ending → Prop) : Prop where
  falls : ∀ path, ps path .falls ↔ ∃ w ∈ W.falls, w.map Passed.fields = path
  leaves : ∀ path, ps path .returns ↔ ∃ w ∈ W.leaves, w.map Passed.fields = path

namespace Follows

variable {V W : Ways Passed} {ps qs : List Fields → Ending → Prop}

theorem word (w : List Passed) : Follows (.word w) fun path ending => path = w.map Passed.fields ∧ ending = .falls := by
  refine ⟨fun path => ?_, fun path => ?_⟩
  · simp [Ways.word, eq_comm]
  · simp [Ways.word]

theorem leave (w : List Passed) : Follows (.leave w) fun path ending => path = w.map Passed.fields ∧ ending = .returns := by
  refine ⟨fun path => ?_, fun path => ?_⟩
  · simp [Ways.leave]
  · simp [Ways.leave, eq_comm]

theorem choice (hV : Follows V ps) (hW : Follows W qs) :
    Follows (V.choice W) fun path ending => ps path ending ∨ qs path ending := by
  refine ⟨fun path => ?_, fun path => ?_⟩
  · simp only [hV.falls, hW.falls, Ways.choice, Language.mem_add, or_and_right, exists_or]
  · simp only [hV.leaves, hW.leaves, Ways.choice, Language.mem_add, or_and_right, exists_or]

theorem seq (hV : Follows V ps) (hW : Follows W qs) :
    Follows (V.seq W) fun path ending => (ps path .returns ∧ ending = .returns) ∨
      ∃ first more, path = first ++ more ∧ ps first .falls ∧ qs more ending := by
  have hafter : ∀ (L : Language Passed) (q : List Fields → Prop), (∀ path, q path ↔ ∃ w ∈ L, w.map Passed.fields = path) →
      ∀ path, (∃ first more, path = first ++ more ∧ ps first .falls ∧ q more) ↔
          ∃ w ∈ V.falls * L, w.map Passed.fields = path := by
    intro L q hq path
    constructor
    · intro h
      obtain ⟨first, more, rfl, hfirst, hmore⟩ := h
      obtain ⟨v, hv, rfl⟩ := (hV.falls first).mp hfirst
      obtain ⟨w, hw, rfl⟩ := (hq more).mp hmore
      exact ⟨v ++ w, Language.mem_mul.mpr ⟨v, hv, w, hw, rfl⟩, List.map_append⟩
    · intro h
      obtain ⟨u, hu, rfl⟩ := h
      obtain ⟨v, hv, w, hw, rfl⟩ := Language.mem_mul.mp hu
      exact ⟨_, _, List.map_append, (hV.falls _).mpr ⟨v, hv, rfl⟩, (hq _).mpr ⟨w, hw, rfl⟩⟩
  refine ⟨fun path => ?_, fun path => ?_⟩
  · simpa [Ways.seq] using hafter W.falls (fun more => qs more .falls) hW.falls path
  · have h := hafter W.leaves (fun more => qs more .returns) hW.leaves path
    simp only [Ways.seq, Language.mem_add, or_and_right, exists_or, ← h, hV.leaves, and_true]

theorem loop (hV : Follows V ps) : Follows V.loop (Rounds ps) := by
  have hrounds : ∀ path, Rounds ps path .falls ↔ ∃ w ∈ KStar.kstar V.falls, w.map Passed.fields = path := by
    intro path
    constructor
    · intro h
      generalize hending : Ending.falls = ending at h
      induction h with
      | done => exact ⟨[], Language.nil_mem_kstar _, rfl⟩
      | again hfirst _ ih =>
        obtain ⟨v, hv, rfl⟩ := (hV.falls _).mp hfirst
        obtain ⟨w, hw, rfl⟩ := ih hending
        obtain ⟨ws, rfl, hws⟩ := Language.mem_kstar.mp hw
        refine ⟨v ++ ws.flatten, Language.mem_kstar.mpr ⟨v :: ws, rfl, fun y hy => ?_⟩, List.map_append⟩
        exact (List.mem_cons.mp hy).elim (fun heq => heq ▸ hv) (hws y)
      | out => cases hending
    · intro h
      obtain ⟨w, hw, rfl⟩ := h
      obtain ⟨ws, rfl, hws⟩ := Language.mem_kstar.mp hw
      induction ws with
      | nil => exact .done
      | cons v rest ih =>
        rw [List.flatten_cons, List.map_append]
        exact .again ((hV.falls _).mpr ⟨v, hws v List.mem_cons_self, rfl⟩)
          (ih (fun y hy => hws y (List.mem_cons_of_mem _ hy)) (Language.mem_kstar.mpr
            ⟨rest, rfl, fun y hy => hws y (List.mem_cons_of_mem _ hy)⟩))
  refine ⟨hrounds, fun path => ?_⟩
  -- some rounds to the bottom, and the one that leaves
  have hout : Rounds ps path .returns ↔ ∃ first last, path = first ++ last ∧ Rounds ps first .falls ∧ ps last .returns := by
    constructor
    · intro h
      generalize hending : Ending.returns = ending at h
      induction h with
      | done => cases hending
      | again hfirst _ ih =>
        obtain ⟨mid, last, rfl, hmid, hlast⟩ := ih hending
        exact ⟨_, last, (List.append_assoc ..).symm, .again hfirst hmid, hlast⟩
      | out hlast => exact ⟨[], _, rfl, .done, hlast⟩
    · intro h
      obtain ⟨first, last, rfl, hfirst, hlast⟩ := h
      generalize hending : Ending.falls = ending at hfirst
      induction hfirst with
      | done => exact .out hlast
      | again hround _ ih =>
        rw [List.append_assoc]
        exact .again hround (ih hending)
      | out => cases hending
  rw [hout]
  constructor
  · intro h
    obtain ⟨first, last, rfl, hfirst, hlast⟩ := h
    obtain ⟨v, hv, rfl⟩ := (hrounds first).mp hfirst
    obtain ⟨w, hw, rfl⟩ := (hV.leaves last).mp hlast
    exact ⟨v ++ w, Language.mem_mul.mpr ⟨v, hv, w, hw, rfl⟩, List.map_append⟩
  · intro h
    obtain ⟨u, hu, rfl⟩ := h
    obtain ⟨v, hv, w, hw, rfl⟩ := Language.mem_mul.mp hu
    exact ⟨_, _, List.map_append, (hrounds _).mpr ⟨v, hv, rfl⟩, (hV.leaves _).mpr ⟨w, hw, rfl⟩⟩

end Follows

/-- Without a region, the ways of a body that is lowered are its paths. -/
theorem flowWays_paths (owner : String → Bool) (ctx : FlowContext) :
    (∀ n inRegion position s out s', hasRegionNode n = false → lowerNode ctx inRegion position n s = .ok (out, s') →
      Follows (nodeWays owner ctx inRegion position n s) (stepPaths n)) ∧
    ∀ ns inRegion position s out s', hasRegion ns = false → lowerFlow ctx inRegion position ns s = .ok (out, s') →
      Follows (flowWays owner ctx inRegion position ns s) (paths ns) := by
  apply Node.induct
  · exact fun _ _ _ _ _ _ _ => .word []
  · intro fields t e b ht he hb inRegion position s out s' hno h
    unfold hasRegionNode at hno
    unfold stepPaths
    cases hk : opKind fields with
    | if_ =>
      simp only [hk, Bool.or_eq_false_iff] at hno
      obtain ⟨thenB, mid, elseB, hthen, helse, -⟩ := lowerNode_if hk h
      unfold nodeWays
      simp only [hk, hthen]
      exact (ht _ _ _ _ _ hno.1 hthen).choice (he _ _ _ _ _ hno.2 helse)
    | while_ =>
      simp only [hk] at hno
      obtain ⟨bodyB, hbody, -⟩ := lowerNode_while hk h
      unfold nodeWays
      simp only [hk]
      exact (hb _ _ _ _ _ hno hbody).loop
    | borrowMut => simp [hk] at hno
    | return_ =>
      unfold nodeWays
      simp only [hk]
      exact .leave _
    | _ =>
      unfold nodeWays
      simp only [hk, h]
      exact .word _
  · exact fun _ _ _ _ _ _ _ => .word []
  · intro n ns hn hns inRegion position s out s' hno h
    rw [hasRegion, Bool.or_eq_false_iff] at hno
    obtain ⟨first, mid, more, hfirst, hmore, -⟩ := lowerFlow_cons h
    unfold flowWays paths
    simp only [hfirst]
    exact (hn _ _ _ _ _ hno.1 hfirst).seq (hns _ _ _ _ _ hno.2 hmore)

/-! ## What is reported of a hoisted local -/

/-- A function that the core resolves and whose analysis ends, and what the analysis finds. -/
structure Checked (env : Env) (fn : FnDecl) (ds : List Diagnostic) : Prop where
  resolved : ∀ d ∈ (buildCfg env fn).2, d.code ≠ .own030
  found : ∃ n ins, (buildCfg env fn).1.fixpoint n = .ok ins ∧ (buildCfg env fn).1.findings ins = ds

/-- A handle is reported as never released (OWN001). -/
def Reported (ds : List Diagnostic) (hh : String) : Prop := ∃ d ∈ ds, d.code = .own001 ∧ handleOf d.subject = some hh

/-- What the ops of a way do to the obligation of a handle that is owned from the top on. -/
def handling (env : Env) (decl : FnDecl) (hh : String) (w : List Passed) : List (String × VarState) :=
  (hh, .owned) :: w.flatMap fun p => p.stmts.flatMap ((kinOf env decl hh).fates env decl.ret.isSome)

/-- On some path the handle, or what it was moved to, is left owned. -/
def LeftOwned (env : Env) (o : Opened) (decl : FnDecl) (body : List Node) (hh : String) : Prop :=
  ∃ w ∈ (flowWays (kinOf env decl hh).owner o.ctx false (some 0) body o.flow).all, ∃ r,
    lastOf r (handling env decl hh w) = some .owned

section

variable {env : Env} {g : Shared} {fn : Fn} {handles : List (String × FlowLocal)} {loc : Nat} {o : Opened} {r : LoweredFn}
  {name hh : String} {ds : List Diagnostic} {lets : List Stmt}

theorem piecesSeq_single {stmts : List Stmt} (h : ∀ x ∈ stmts, pieces x = [x]) : piecesSeq stmts = stmts := by
  induction stmts with
  | nil => rfl
  | cons y rest ih =>
    rw [piecesSeq, h y List.mem_cons_self, ih fun x hx => h x (List.mem_cons_of_mem _ hx)]
    rfl

theorem piecesSeq_acquires {lets : List Stmt} (h : ∀ x ∈ lets, ∃ handle line, x = acquireStmt handle line) :
    piecesSeq lets = lets :=
  piecesSeq_single fun x hx => by
    obtain ⟨handle, line, rfl⟩ := h x hx
    rfl

theorem mem_all_word {α : Type} {u w : List α} {R : Ways α} : w ∈ ((Ways.word u).seq R).all ↔ ∃ v ∈ R.all, u ++ v = w := by
  have hout : ((Ways.word u).seq R).all = {u} * R.all := by simp [Ways.all, Ways.seq, Ways.word, mul_add]
  rw [hout, Language.mem_mul]
  simp

/-- Of what is declared at the top, one acquire is of the handle. -/
theorem lets_fates (env : Env) {decl : FnDecl} (h : Distinct decl) {lets body : List Stmt} (hbody : decl.body = lets ++ body)
    (hall : ∀ x ∈ lets, ∃ handle line, x = acquireStmt handle line) {line : Int}
    (hacq : acquireStmt hh line ∈ lets) (returns : Bool) :
    lets.flatMap ((kinOf env decl hh).fates env returns) = [(hh, .owned)] := by
  have hpieces : piecesSeq decl.body = lets ++ piecesSeq body := by rw [hbody, piecesSeq_append, piecesSeq_acquires hall]
  have hfate : ∀ handle l, acquireStmt handle l ∈ lets →
      (kinOf env decl hh).fates env returns (acquireStmt handle l) = if hh = handle then [(hh, .owned)] else [] := by
    intro handle l hmem
    have hin : acquireStmt handle l ∈ piecesSeq decl.body := by
      rw [hpieces]
      exact List.mem_append_left _ hmem
    show (kinOf env decl hh).mark handle .owned = _
    unfold Kin.mark
    rw [h.root_other env hh hin rfl rfl]
    by_cases heq : hh = handle <;> simp [heq]
  have hnodup : (lets.filterMap Stmt.declared).Nodup := by
    have hdeclares := h.body_nodup
    unfold declares at hdeclares
    rw [hpieces, List.filterMap_append] at hdeclares
    exact hdeclares.of_append_left
  obtain ⟨pre, post, hsplit, hapart⟩ := declared_apart hnodup hacq rfl
  have hnil : ∀ l : List Stmt, (∀ x ∈ l, x ∈ pre ++ post ∧ x ∈ lets) →
      l.flatMap ((kinOf env decl hh).fates env returns) = [] := by
    intro l hl
    rw [List.flatMap_eq_nil_iff]
    intro x hx
    obtain ⟨hother, hmem⟩ := hl x hx
    obtain ⟨handle, line', rfl⟩ := hall x hmem
    rw [hfate handle line' hmem, if_neg]
    exact fun heq => hapart _ hother (congrArg some heq.symm)
  have hpre := hnil pre fun x hx => ⟨List.mem_append_left _ hx, by rw [hsplit]; exact List.mem_append_left _ hx⟩
  have hpost := hnil post fun x hx =>
    ⟨List.mem_append_right _ hx, by rw [hsplit]; exact List.mem_append_right _ (List.mem_cons_of_mem _ hx)⟩
  have hself := hfate hh line hacq
  rw [hsplit, List.flatMap_append, List.flatMap_cons, hpre, hpost, hself]
  simp

theorem reported_iff (hopen : openFn g fn handles loc = .ok o) (h : lowerFn g fn handles loc = .ok r)
    (hname : name ∈ o.ctx.hoisted) (hget : o.flow.localmap.get? name = some hh) (hc : Checked env r.decl.fn ds) :
    Reported ds hh ↔ LeftOwned env o r.decl.fn fn.body hh := by
  obtain ⟨o', body, hopen', hlow, -, hbody⟩ := lowerFn_ok h
  cases hopen.symm.trans hopen'
  have ho := openFn_numbered hopen
  have hdist := lowered_distinct h
  obtain ⟨handle, line, hget', hacq⟩ := ho.handle name hname
  cases hget.symm.trans hget'
  have hin : acquireStmt hh line ∈ piecesSeq r.decl.fn.body := by
    rw [hbody, piecesSeq_append, piecesSeq_acquires ho.acquires]
    exact List.mem_append_left _ hacq
  obtain ⟨n, ins, hfix, rfl⟩ := hc.found
  have hiff := leak_of_kin_iff (kinOf_governs hdist hin) hc.resolved hfix
  have hreport : Reported ((buildCfg env r.decl.fn).1.findings ins) hh ↔
      ∃ d ∈ (buildCfg env r.decl.fn).1.findings ins, d.code = .own001 ∧ (kinOf env r.decl.fn hh).ours d.subject = true := by
    simp [Reported, kinOf]
  rw [hreport, hiff]
  have hplain : ∀ x ∈ o.lets, Plain x := fun x hx => by
    obtain ⟨_, _, rfl⟩ := ho.acquires x hx
    exact .let_
  have hways := (flowWays_lowered (kinOf env r.decl.fn hh).owner o.ctx).2 _ _ _ _ _ _ hlow
  have hall : subst Passed.stmts (flowWays (kinOf env r.decl.fn hh).owner o.ctx false (some 0) fn.body o.flow).all =
      (seqWays (kinOf env r.decl.fn hh).owner body).all := by rw [← Ways.all_map, hways]
  have hfates := lets_fates env hdist hbody ho.acquires hacq r.decl.fn.ret.isSome
  simp only [hbody, seqWays_append, seqWays_plain hplain, mem_all_word]
  constructor
  · rintro ⟨_, ⟨v, hv, rfl⟩, m, hm⟩
    rw [← hall] at hv
    obtain ⟨w, hw, rfl⟩ := hv
    refine ⟨w, hw, m, ?_⟩
    rw [List.flatMap_append, hfates, List.flatMap_assoc] at hm
    exact hm
  · rintro ⟨w, hw, m, hm⟩
    have hv : w.flatMap Passed.stmts ∈ (seqWays (kinOf env r.decl.fn hh).owner body).all := by
      rw [← hall]
      exact ⟨w, hw, rfl⟩
    refine ⟨_, ⟨_, hv, rfl⟩, m, ?_⟩
    rw [List.flatMap_append, hfates, List.flatMap_assoc]
    exact hm

end

end OwnNet.OwnIR
