/-
  OwnNet.OwnAnalysis.Engine — the ownership analysis as the crate `own-analysis` states it: the
  states of a resource are the bits of a byte, a loan is found by its binding, and a verdict is a
  code at a line with the origin of its symbol.

  The graphs and instructions are those of `Lang`, and a symbol is read where an instruction names
  it. A fact is a state, or bottom where no predecessor has been evaluated; a reachable block that
  is left at bottom stops the analysis.
-/

import OwnNet.OwnAnalysis.Ownership

namespace OwnNet.OwnAnalysis.Engine

open Lang (Symbol Instr Effect CFG Code LoanKind Stuck joinHandleRid)

def OWNED : UInt8 := 1
def MOVED : UInt8 := 2
def RELEASED : UInt8 := 4
def ESCAPED : UInt8 := 8

structure Loan where
  owner : Nat
  kind : LoanKind
  deriving DecidableEq, Repr

structure State where
  var : Dict Nat UInt8 := Dict.empty
  loans : Dict Nat Loan := Dict.empty
  handleRid : Dict Nat Nat := Dict.empty
  movedAt : Dict Nat (Int × Bool) := Dict.empty
  acquiredAt : Dict Nat (Int × Bool) := Dict.empty
  deriving DecidableEq

namespace State

def ridOf (st : State) (sym : Symbol) : Nat := st.handleRid.getD sym.id sym.id

def mint (st : State) (sym : Symbol) : State := { st with handleRid := st.handleRid.set sym.id sym.id }

def states (st : State) (rid : Nat) : UInt8 := st.var.getD rid OWNED

def setVar (st : State) (rid : Nat) (s : UInt8) : State := { st with var := st.var.set rid s }

end State

/-! ## Joins -/

def mergeSite (a b : Int × Bool) : Int × Bool := if a.1 = b.1 then (a.1, a.2 && b.2) else (min a.1 b.1, false)

def joinSites (out other : Dict Nat (Int × Bool)) : Dict Nat (Int × Bool) :=
  other.entries.foldl (fun out e =>
    match out.get? e.1 with
    | some a => out.set e.1 (mergeSite a e.2)
    | none => out.set e.1 e.2) out

def joinData (a b : State) : Except Stuck State :=
  if a.loans ≠ b.loans then .error .loans
  else
    match joinHandleRid a.handleRid b.handleRid with
    | .error e => .error e
    | .ok handles => .ok {
        var := Dict.merge (· ||| ·) a.var b.var
        loans := a.loans
        handleRid := handles
        movedAt := joinSites a.movedAt b.movedAt
        acquiredAt := joinSites a.acquiredAt b.acquiredAt }

inductive StateFact where
  | bottom
  | reachable (st : State)
  deriving DecidableEq

def StateFact.join : StateFact → StateFact → Except Stuck StateFact
  | a, .bottom => .ok a
  | .bottom, b => .ok b
  | .reachable a, .reachable b => (joinData a b).map .reachable

/-! ## Verdicts -/

structure Verdict where
  code : Code
  line : Int
  subject : Option String
  deriving DecidableEq, Repr

/-- A verdict on `sym`. -/
def at_ (code : Code) (line : Int) (sym : Symbol) : Verdict := ⟨code, line, sym.origin⟩

def countLoan (ownerRid : Nat) (found : Nat × Bool) (e : Nat × Loan) : Nat × Bool :=
  if e.2.owner = ownerRid then
    match e.2.kind with
    | .shared => (min (found.1 + 1) (2 ^ 32 - 1), found.2)
    | .mut => (found.1, true)
  else found

/-- Shared loans on the resource `owner` denotes, and whether there is a mutable one. -/
def loansOn (st : State) (owner : Symbol) : Nat × Bool := st.loans.entries.foldl (countLoan (st.ridOf owner)) (0, false)

def lent (st : State) (sym : Symbol) : Bool := 0 < (loansOn st sym).1 ∨ (loansOn st sym).2

def bindingLive (st : State) (sym : Symbol) : Bool := sym.isParamBorrow ∨ (st.loans.get? sym.id).isSome

def stateProblem (st : State) (sym : Symbol) (line : Int) : Option Verdict :=
  let s := st.states (st.ridOf sym)
  if s &&& OWNED = 0 then
    if s &&& MOVED ≠ 0 then some (at_ .own005 line sym) else some (at_ .own002 line sym)
  else if s &&& (RELEASED ||| ESCAPED) ≠ 0 then some (at_ .own009 line sym)
  else if s &&& MOVED ≠ 0 then some (at_ .own010 line sym)
  else none

def consumeLike (st : State) (sym : Symbol) (line : Int) : List Verdict :=
  match stateProblem st sym line with
  | some v => [v]
  | none => if lent st sym then [at_ .own007 line sym] else []

def checkMutBorrowable (st : State) (owner : Symbol) (line : Int) : List Verdict :=
  match stateProblem st owner line with
  | some v => [v]
  | none =>
    if 0 < (loansOn st owner).1 then [at_ .own006 line owner]
    else if (loansOn st owner).2 then [at_ .own011 line owner]
    else []

def checkSharedBorrowable (st : State) (owner : Symbol) (line : Int) : List Verdict :=
  match stateProblem st owner line with
  | some v => [v]
  | none => if (loansOn st owner).2 then [at_ .own012 line owner] else []

def applyEffect (line : Int) (sym : Symbol) (eff : Effect) (st : State) : State × List Verdict :=
  match sym.kind, eff with
  | .owned, .consume =>
    (st.setVar (st.ridOf sym) ESCAPED, consumeLike st sym line ++
      match sym.buffer with
      | some buf => [at_ (if buf.stackBacked then .own016 else .own017) line sym]
      | none => [])
  | .owned, .borrowMut => (st, checkMutBorrowable st sym line)
  | .owned, .borrow => (st, checkSharedBorrowable st sym line)
  | .owned, .plain => (st, [⟨.own041, line, none⟩])
  | .borrow, .borrow => (st, if bindingLive st sym then [] else [⟨.own004, line, none⟩])
  | .borrow, .borrowMut => (st, if sym.borrowIsMut = some false then [⟨.own041, line, none⟩] else [])
  | .borrow, .consume => (st, [⟨.own034, line, none⟩])
  | .borrow, .plain => (st, [⟨.own041, line, none⟩])
  | .plain, .plain => (st, [])
  | .plain, _ => (st, [⟨.own041, line, none⟩])

def applyArgs (line : Int) : List (Option Symbol × Effect) → State → State × List Verdict
  | [], st => (st, [])
  | (none, _) :: rest, st => applyArgs line rest st
  | (some sym, eff) :: rest, st =>
    let r := applyEffect line sym eff st
    let more := applyArgs line rest r.1
    (more.1, r.2 ++ more.2)

/-- `syms` finds the symbol that minted a resource. -/
def leakCheck (syms : Nat → Option Symbol) (st : State) (atLine : Int) (exclude : Option Nat) : List Verdict :=
  st.var.entries.flatMap fun e =>
    if some e.1 = exclude then []
    else if e.2 &&& OWNED ≠ 0 then [⟨.own001, atLine, (syms e.1).bind Symbol.origin⟩]
    else []

def releaseProblem (st : State) (sym : Symbol) (line : Int) : List Verdict :=
  if st.states (st.ridOf sym) &&& RELEASED ≠ 0 then [at_ .own003 line sym]
  else
    match stateProblem st sym line with
    | some v => [v]
    | none => if lent st sym then [at_ .own008 line sym] else []

def useProblem (st : State) (sym : Symbol) (line : Int) : List Verdict :=
  match sym.kind with
  | .owned =>
    match stateProblem st sym line with
    | some v => [v]
    | none => if (loansOn st sym).2 then [at_ .own013 line sym] else []
  | .borrow => if bindingLive st sym then [] else [⟨.own004, line, none⟩]
  | .plain => []

def returnProblem (st : State) (sym : Symbol) (line : Int) : List Verdict :=
  let s := st.states (st.ridOf sym)
  if s &&& OWNED = 0 then
    if s &&& MOVED ≠ 0 then [at_ .own005 line sym] else [at_ .own002 line sym]
  else if lent st sym then [at_ .own007 line sym]
  else
    match sym.buffer with
    | some buf => [at_ (if buf.stackBacked then .own015 else .own017) line sym]
    | none => []

/-! ## The transfer -/

def acquire (st : State) (sym : Symbol) (line : Int) : State :=
  let st := (st.mint sym).setVar sym.id OWNED
  { st with acquiredAt := st.acquiredAt.set sym.id (line, true) }

def step (syms : Nat → Option Symbol) : Instr → State → State × List Verdict
  | .acquire sym _ line, st => (acquire st sym line, [])
  | .acquireBuffer sym _ line, st => (acquire st sym line, [])
  | .moveInto dst src line, st =>
    let rid := st.ridOf src
    let moved := if st.states rid &&& OWNED ≠ 0 then { st with movedAt := st.movedAt.set rid (line, true) } else st
    (acquire (moved.setVar rid MOVED) dst line, consumeLike st src line)
  | .aliasJoin handle src _, st => ({ st with handleRid := st.handleRid.set handle.id (st.ridOf src) }, [])
  | .release sym line, st => (st.setVar (st.ridOf sym) RELEASED, releaseProblem st sym line)
  | .use sym line, st => (st, useProblem st sym line)
  | .overspan sym line, st => (st, [at_ .own025 line sym])
  | .invoke _ args line, st => applyArgs line args st
  | .borrowStart owner binding isMut line, st =>
    ({ st with loans := st.loans.set binding.id ⟨st.ridOf owner, if isMut then .mut else .shared⟩ },
      if isMut then checkMutBorrowable st owner line else checkSharedBorrowable st owner line)
  | .borrowEnd _ binding _ _, st => ({ st with loans := st.loans.erase binding.id }, [])
  | .return_ none line, st => (st, leakCheck syms st line none)
  | .return_ (some sym) line, st =>
    (st.setVar (st.ridOf sym) ESCAPED, leakCheck syms st line (some (st.ridOf sym)) ++ returnProblem st sym line)

def transferBlock (syms : Nat → Option Symbol) : List Instr → State → State × List Verdict
  | [], st => (st, [])
  | ins :: rest, st =>
    let r := step syms ins st
    let more := transferBlock syms rest r.1
    (more.1, r.2 ++ more.2)

/-! ## The analysis of a graph -/

def initialState (cfg : CFG) : State :=
  (cfg.params.filter (·.kind = .owned)).foldl (fun st p => (st.mint p).setVar p.id OWNED) {}

def ownership (cfg : CFG) : Analysis StateFact Stuck where
  bottom := .bottom
  join := StateFact.join
  entryFact := .reachable (initialState cfg)
  transfer := fun b fact =>
    match fact with
    | .bottom => .bottom
    | .reachable st => .reachable (transferBlock cfg.symById (cfg.instrs b) st).1

/-- What stops the analysis: the solver, or a block left at bottom or without a fact. -/
inductive Halt where
  | solver (stop : Stop Stuck)
  | bottom (block : Nat)
  | missing (block : Nat)
  deriving DecidableEq, Repr

def convergedState (facts : Dict Nat StateFact) (b : Nat) : Except Halt State :=
  match facts.get? b with
  | some (.reachable st) => .ok st
  | some .bottom => .error (.bottom b)
  | none => .error (.missing b)

/-- Each block's out-state, and what its transfer reports. -/
def transfers (cfg : CFG) (facts : Dict Nat StateFact) : List Nat → Except Halt (List (Nat × State) × List Verdict)
  | [] => .ok ([], [])
  | b :: rest =>
    match convergedState facts b with
    | .error e => .error e
    | .ok st =>
      match transfers cfg facts rest with
      | .error e => .error e
      | .ok more =>
        let out := transferBlock cfg.symById (cfg.instrs b) st
        .ok ((b, out.1) :: more.1, out.2 ++ more.2)

/-- The reporting pass over the converged facts, and the leaks where control ends without a `return`. -/
def report (cfg : CFG) (facts : Dict Nat StateFact) : Except Halt (List Verdict) :=
  match transfers cfg facts (graph cfg).reachableFrom with
  | .error e => .error e
  | .ok (outs, verdicts) =>
    .ok (verdicts ++ (outs.filter fun out => cfg.fallsOff out.1).flatMap fun out =>
      leakCheck cfg.symById out.2 (cfg.lastLine out.1) none)

def analyze (cfg : CFG) (schedule : Schedule) : Except Halt (List Verdict) :=
  match solveWith (graph cfg) (ownership cfg) schedule with
  | .error e => .error (.solver e)
  | .ok facts => report cfg facts

end OwnNet.OwnAnalysis.Engine
