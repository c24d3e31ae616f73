/-
  OwnNet.Lang.Analysis — the ownership analysis: states of resources beside active loans,
  a worklist to a fixpoint, and one reporting pass over the converged states.

  A resource is the identity of the symbol that first held it (its rid); a handle denotes a
  rid through `handleRid`. What a step reports is the second component of its result: the
  fixpoint drops it, the reporting pass keeps it.
-/

import OwnNet.Lang.Cfg
import OwnNet.Dataflow.Worklist
import OwnNet.Graph.Search
import Mathlib.Data.Finset.Basic

namespace OwnNet.Lang

inductive VarState where
  | owned | moved | released | escaped
  deriving DecidableEq, Repr

inductive LoanKind where
  | shared | mut
  deriving DecidableEq, Repr

structure Loan where
  loanId : Nat
  owner : Nat
  binding : Nat
  kind : LoanKind
  deriving DecidableEq, Repr

/-- `movedAt` and `acquiredAt` give a line and whether every path agrees on it: they label
    evidence only. -/
structure State where
  var : Dict Nat (Finset VarState) := Dict.empty
  loans : Dict Nat Loan := Dict.empty
  handleRid : Dict Nat Nat := Dict.empty
  movedAt : Dict Nat (Int × Bool) := Dict.empty
  acquiredAt : Dict Nat (Int × Bool) := Dict.empty
  deriving DecidableEq

/-- The assertions of the join, and a worklist cut off. -/
inductive Stuck where
  | loans | handles | fuel
  deriving DecidableEq, Repr

namespace State

/-- A handle not known to be an alias denotes its own resource. -/
def ridOf (st : State) (sym : Symbol) : Nat := st.handleRid.getD sym.id sym.id

def states (st : State) (sym : Symbol) : Finset VarState := st.var.getD (st.ridOf sym) {.owned}

def mark (st : State) (rid : Nat) (s : VarState) : State := { st with var := st.var.set rid {s} }

/-- `sym` starts a resource of its own, acquired at `line`. -/
def acquire (st : State) (sym : Symbol) (line : Int) : State :=
  { st with
    handleRid := st.handleRid.set sym.id sym.id
    var := st.var.set sym.id {.owned}
    acquiredAt := st.acquiredAt.set sym.id (line, true) }

end State

def joinHandleRid (a b : Dict Nat Nat) : Except Stuck (Dict Nat Nat) :=
  if b.entries.all fun e => a.getD e.1 e.2 = e.2 then .ok (Dict.merge (fun r _ => r) a b) else .error .handles

def joinSites : Dict Nat (Int × Bool) → Dict Nat (Int × Bool) → Dict Nat (Int × Bool) :=
  Dict.merge fun a b => if a.1 = b.1 then (a.1, a.2 && b.2) else (min a.1 b.1, false)

def join (a b : State) : Except Stuck State :=
  if a.loans ≠ b.loans then .error .loans
  else
    match joinHandleRid a.handleRid b.handleRid with
    | .error e => .error e
    | .ok handles => .ok {
        var := Dict.merge (· ∪ ·) a.var b.var
        loans := a.loans
        handleRid := handles
        movedAt := joinSites a.movedAt b.movedAt
        acquiredAt := joinSites a.acquiredAt b.acquiredAt }

/-! ## What is reported about a symbol -/

section Step

variable (syms : Nat → Option Symbol)

def movedEvidence (st : State) (rid : Nat) : List Evidence :=
  match st.movedAt.get? rid with
  | none => []
  | some (line, exact_) => [⟨line, if exact_ then "moved here" else "moved here (on one of several paths)", "moved"⟩]

def acquiredEvidence (st : State) (rid : Nat) : List Evidence :=
  match st.acquiredAt.get? rid with
  | none => []
  | some (line, exact_) =>
    let who := match syms rid with
      | some sym => s!"'{sym.name}' "
      | none => ""
    let suffix := if exact_ then "" else " (on one of several paths)"
    [⟨line, s!"{who}acquired here{suffix}", "acquired"⟩]

/-- Shared loans on the resource `owner` denotes, and whether there is a mutable one. -/
def loansOn (st : State) (owner : Symbol) : Nat × Bool :=
  let on := st.loans.entries.filter fun e => e.2.owner = st.ridOf owner
  (on.countP fun e => e.2.kind = .shared, on.any fun e => e.2.kind = .mut)

def borrowed (st : State) (owner : Symbol) : Bool := (loansOn st owner).1 ≠ 0 ∨ (loansOn st owner).2

def bindingLive (st : State) (sym : Symbol) : Bool :=
  sym.isParamBorrow ∨ st.loans.entries.any fun e => e.2.binding = sym.id

/-- A finding about `sym`, attributed to where it came from. -/
def about (sym : Symbol) (code : Code) (message : String) (line : Int) : Diagnostic :=
  ⟨code, message, line, sym.origin, sym.resourceKind, []⟩

/-- What is wrong with `verb` on `sym` when its resource is gone, or may be. -/
def stateProblem (st : State) (sym : Symbol) (verb : String) (line : Int) : Option Diagnostic :=
  let S := st.states sym
  if .owned ∉ S then
    if .moved ∈ S then
      some { about sym .own005 s!"{verb} '{sym.name}' after it was moved" line with
        evidence := movedEvidence st (st.ridOf sym) }
    else if .escaped ∈ S ∧ .released ∉ S then some (about sym .own002 s!"{verb} '{sym.name}' after it was consumed" line)
    else some (about sym .own002 s!"{verb} '{sym.name}' after it was released" line)
  else if .released ∈ S ∨ .escaped ∈ S then
    some (about sym .own009 s!"{verb} '{sym.name}', which may have been released on some path" line)
  else if .moved ∈ S then
    some (about sym .own010 s!"{verb} '{sym.name}', which may have been moved on some path" line)
  else none

/-- Moving and consuming need the resource with no loan on it. -/
def consumeLike (st : State) (sym : Symbol) (verb : String) (line : Int) : List Diagnostic :=
  match stateProblem st sym verb line with
  | some d => [d]
  | none =>
    if borrowed st sym then
      [⟨.own007, s!"cannot {verb} '{sym.name}' while it is borrowed", line, sym.origin, none, []⟩]
    else []

def checkMutBorrowable (st : State) (owner : Symbol) (line : Int) : List Diagnostic :=
  match stateProblem st owner "mutably borrow" line with
  | some d => [d]
  | none =>
    if (loansOn st owner).1 ≠ 0 then
      [⟨.own006, s!"cannot mutably borrow '{owner.name}': a shared borrow is live", line, owner.origin, none, []⟩]
    else if (loansOn st owner).2 then
      [⟨.own011, s!"cannot mutably borrow '{owner.name}': it is already mutably borrowed", line, owner.origin, none, []⟩]
    else []

def checkSharedBorrowable (st : State) (owner : Symbol) (line : Int) : List Diagnostic :=
  match stateProblem st owner "borrow" line with
  | some d => [d]
  | none =>
    if (loansOn st owner).2 then
      [⟨.own012, s!"cannot share-borrow '{owner.name}': it is mutably borrowed", line, owner.origin, none, []⟩]
    else []

/-- A buffer that is consumed leaves the function. -/
def consumedBuffer (sym : Symbol) (callee : String) (line : Int) : List Diagnostic :=
  match sym.buffer with
  | none => []
  | some info =>
    if info.stackBacked then
      [⟨.own016,
        s!"'{sym.name}' is a {info.mode.value} buffer and may be stack-backed; " ++
          s!"it cannot be moved to a longer-lived owner by consuming it in '{callee}'",
        line, sym.origin, none,
        [⟨info.line, s!"'{sym.name}' allocated here", "acquired"⟩, ⟨line, s!"consumed by '{callee}' here", "consumed"⟩]⟩]
    else
      [⟨.own017,
        s!"'{sym.name}' is a {info.mode.value} buffer; the PoC code generator " ++
          s!"cannot lower an escaping buffer, so consuming it in '{callee}' is rejected",
        line, sym.origin, none, []⟩]

/-- One argument of a call. -/
def applyEffect (callee : String) (line : Int) (sym : Symbol) (eff : Effect) (st : State) : State × List Diagnostic :=
  match sym.kind, eff with
  | .owned, .consume =>
    (st.mark (st.ridOf sym) .escaped, consumeLike st sym "consume" line ++ consumedBuffer sym callee line)
  | .owned, .borrowMut => (st, checkMutBorrowable st sym line)
  | .owned, .borrow => (st, checkSharedBorrowable st sym line)
  | .owned, .plain =>
    (st, [⟨.own041,
      s!"argument '{sym.name}' to '{callee}' is an owned resource but the parameter is a plain value", line, none, none, []⟩])
  | .borrow, .borrow =>
    (st, if bindingLive st sym then []
      else [⟨.own004, s!"borrow '{sym.name}' used outside its live region", line, none, none, []⟩])
  | .borrow, .borrowMut =>
    (st, if sym.borrowIsMut = some false then
        [⟨.own041, s!"cannot pass shared borrow '{sym.name}' to '{callee}': a mutable borrow is required", line, none, none,
          []⟩]
      else [])
  | .borrow, .consume =>
    (st, [⟨.own034, s!"cannot consume '{sym.name}': it is a borrow, not an owned resource", line, none, none, []⟩])
  | .borrow, .plain =>
    (st, [⟨.own041, s!"argument '{sym.name}' to '{callee}': a borrow cannot be passed as a plain value", line, none, none,
      []⟩])
  | .plain, .plain => (st, [])
  | .plain, _ =>
    (st, [⟨.own041, s!"argument '{sym.name}' to '{callee}': a plain value cannot satisfy a resource parameter", line, none,
      none, []⟩])

def applyArgs (callee : String) (line : Int) : List (Option Symbol × Effect) → State → State × List Diagnostic
  | [], st => (st, [])
  | (none, _) :: rest, st => applyArgs callee line rest st
  | (some sym, eff) :: rest, st =>
    let r := applyEffect callee line sym eff st
    let more := applyArgs callee line rest r.1
    (more.1, r.2 ++ more.2)

def leak (st : State) (line : Int) (context : String) (rid : Nat) : Diagnostic :=
  let name := match syms rid with
    | some sym => sym.name
    | none => s!"#{rid}"
  ⟨.own001, s!"'{name}' is owned but not released {context} (leaks on at least one path)", line,
    (syms rid).bind Symbol.origin, (syms rid).bind Symbol.resourceKind, acquiredEvidence syms st rid⟩

/-- The resources that may still be owned, the one handed out excepted. -/
def leaks (st : State) (exclude : Option Symbol) : List Nat :=
  (st.var.entries.filter fun e => .owned ∈ e.2 ∧ exclude.map st.ridOf ≠ some e.1).map Prod.fst

def leakCheck (st : State) (line : Int) (context : String) (exclude : Option Symbol) : List Diagnostic :=
  (leaks st exclude).map (leak syms st line context)

def releaseProblem (st : State) (sym : Symbol) (line : Int) : List Diagnostic :=
  let S := st.states sym
  if S = {.released} then [about sym .own003 s!"'{sym.name}' is released twice" line]
  else if .released ∈ S then
    [about sym .own003 s!"'{sym.name}' may already be released on some path before this release" line]
  else
    match stateProblem st sym "release" line with
    | some d => [d]
    | none =>
      if borrowed st sym then [about sym .own008 s!"cannot release '{sym.name}' while it is borrowed" line] else []

def useProblem (st : State) (sym : Symbol) (line : Int) : List Diagnostic :=
  match sym.kind with
  | .owned =>
    match stateProblem st sym "use" line with
    | some d => [d]
    | none =>
      if (loansOn st sym).2 then
        [⟨.own013, s!"cannot use '{sym.name}' directly while it is mutably borrowed", line, sym.origin, none, []⟩]
      else []
  | .borrow =>
    if bindingLive st sym then [] else [⟨.own004, s!"borrow '{sym.name}' used outside its live region", line, none, none, []⟩]
  | .plain => []

def returnProblem (st : State) (sym : Symbol) (line : Int) : List Diagnostic :=
  let S := st.states sym
  if .owned ∉ S then
    if .moved ∈ S then
      [{ about sym .own005 s!"'{sym.name}' returned after it was moved" line with
        evidence := movedEvidence st (st.ridOf sym) }]
    else [about sym .own002 s!"'{sym.name}' returned after it was released" line]
  else if borrowed st sym then [about sym .own007 s!"cannot return '{sym.name}' while it is borrowed" line]
  else
    match sym.buffer with
    | none => []
    | some info =>
      if info.stackBacked then
        [⟨.own015,
          s!"'{sym.name}' is a {info.mode.value} buffer and may be stack-backed; it cannot escape the current function",
          line, sym.origin, none,
          [⟨info.line, s!"'{sym.name}' allocated here", "acquired"⟩,
            ⟨line, "escapes the function by return here", "escaped"⟩]⟩]
      else
        [⟨.own017,
          s!"'{sym.name}' is a {info.mode.value} buffer; the PoC code generator " ++
            "cannot lower an escaping buffer to faithful .NET " ++
            "(the caller gets no handle to Return/Free), so returning it is rejected",
          line, sym.origin, none, []⟩]

/-! ## The transfer -/

/-- A failed move does not overwrite where the resource really went. -/
def recordMove (st : State) (src : Symbol) (line : Int) : State :=
  if .owned ∈ st.states src then { st with movedAt := st.movedAt.set (st.ridOf src) (line, true) } else st

def step : Instr → State → State × List Diagnostic
  | .acquire sym _ line, st => (st.acquire sym line, [])
  | .acquireBuffer sym _ line, st => (st.acquire sym line, [])
  | .moveInto dst src line, st =>
    (((recordMove st src line).mark (st.ridOf src) .moved).acquire dst line, consumeLike st src "move" line)
  | .aliasJoin handle src _, st => ({ st with handleRid := st.handleRid.set handle.id (st.ridOf src) }, [])
  | .release sym line, st => (st.mark (st.ridOf sym) .released, releaseProblem st sym line)
  | .use sym line, st => (st, useProblem st sym line)
  | .overspan sym line, st =>
    (st, [about sym .own025
      s!"'{sym.name}' is viewed at its full backing length, past the logical length it was rented for (over-read / over-clear)"
      line])
  | .invoke callee args line, st => applyArgs callee line args st
  | .borrowStart owner binding isMut line, st =>
    let kind := if isMut then LoanKind.mut else .shared
    ({ st with loans := st.loans.set binding.id ⟨binding.id, st.ridOf owner, binding.id, kind⟩ },
      if isMut then checkMutBorrowable st owner line else checkSharedBorrowable st owner line)
  | .borrowEnd _ binding _ _, st => ({ st with loans := st.loans.erase binding.id }, [])
  | .return_ none line, st => (st, leakCheck syms st line "before return" none)
  | .return_ (some sym) line, st =>
    (st.mark (st.ridOf sym) .escaped, leakCheck syms st line "before return" (some sym) ++ returnProblem st sym line)

def transfer : List Instr → State → State × List Diagnostic
  | [], st => (st, [])
  | ins :: rest, st =>
    let r := step syms ins st
    let more := transfer rest r.1
    (more.1, r.2 ++ more.2)

end Step

/-! ## The analysis of a graph -/

def Instr.symbols : Instr → List Symbol
  | .acquire sym _ _ | .acquireBuffer sym _ _ | .release sym _ | .use sym _ | .overspan sym _ => [sym]
  | .moveInto dst src _ => [dst, src]
  | .invoke _ args _ => args.filterMap Prod.fst
  | .borrowStart owner binding _ _ | .borrowEnd owner binding _ _ => [owner, binding]
  | .aliasJoin handle src _ => [src, handle]
  | .return_ sym _ => sym.toList

def Instr.line : Instr → Int
  | .acquire _ _ line | .acquireBuffer _ _ line | .release _ line | .use _ line | .overspan _ line | .moveInto _ _ line
  | .invoke _ _ line | .borrowStart _ _ _ line | .borrowEnd _ _ _ line | .aliasJoin _ _ line | .return_ _ line => line

namespace CFG

def instrs (cfg : CFG) (b : Nat) : List Instr := ((cfg.blocks[b]?).map Block.instrs).getD []

def succ (cfg : CFG) (b : Nat) : List Nat := ((cfg.blocks[b]?).map Block.succ).getD []

def ids (cfg : CFG) : List Nat := List.range cfg.blocks.length

def preds (cfg : CFG) (b : Nat) : List Nat := cfg.ids.flatMap fun p => ((cfg.succ p).filter (· = b)).map fun _ => p

/-- The reachable blocks, in increasing order. -/
def nodes (cfg : CFG) : List Nat := cfg.ids.filter (· ∈ Graph.reachable cfg.succ cfg.ids [cfg.entry])

def symById (cfg : CFG) (rid : Nat) : Option Symbol :=
  (cfg.params ++ cfg.blocks.flatMap fun blk => blk.instrs.flatMap Instr.symbols).find? fun sym => sym.id = rid

def initialState (cfg : CFG) : State :=
  (cfg.params.filter (·.kind = .owned)).foldl (fun st p =>
    { st with handleRid := st.handleRid.set p.id p.id, var := st.var.set p.id {.owned} }) {}

def problem (cfg : CFG) : Dataflow.Problem State Stuck where
  nodes := cfg.nodes
  entry := cfg.entry
  preds := cfg.preds
  succ := cfg.succ
  init := cfg.initialState
  empty := {}
  join := join
  transfer := fun b st => (transfer cfg.symById (cfg.instrs b) st).1

def firstLine (cfg : CFG) : Int := ((cfg.blocks.flatMap Block.instrs).head?.map Instr.line).getD 0

def lastLine (cfg : CFG) (b : Nat) : Int := ((cfg.instrs b).getLast?.map Instr.line).getD cfg.firstLine

/-- A block control ends in without a `return`. -/
def fallsOff (cfg : CFG) (b : Nat) : Bool := cfg.succ b = [] ∧ ¬((cfg.instrs b).getLast?.any Instr.isReturn)

def outState (cfg : CFG) (ins : Dict Nat State) (b : Nat) : State × List Diagnostic :=
  transfer cfg.symById (cfg.instrs b) (ins.getD b {})

/-- The reporting pass over the converged in-states. -/
def findings (cfg : CFG) (ins : Dict Nat State) : List Diagnostic :=
  (cfg.nodes.flatMap fun b => (cfg.outState ins b).2) ++
    (cfg.nodes.filter fun b => cfg.fallsOff b).flatMap fun b =>
      leakCheck cfg.symById (cfg.outState ins b).1 (cfg.lastLine b) "at end of function" none

/-- The in-states after the fixpoint, in at most `n` visits of a block. -/
def fixpoint (cfg : CFG) (n : Nat) : Except Stuck (Dict Nat State) :=
  match cfg.problem.solve n with
  | .error e => .error e
  | .ok none => .error .fuel
  | .ok (some r) => .ok r.ins

def analyze (cfg : CFG) (n : Nat) : Except Stuck (List Diagnostic) := (cfg.fixpoint n).map cfg.findings

end CFG

end OwnNet.Lang
