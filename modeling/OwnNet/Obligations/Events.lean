/-
  OwnNet.Obligations.Events — obligation protocols: an opening event leaves an invariant broken
  on purpose, a closing event mends it, and in between nothing may be published and the method
  not be left.

  `_Walker` walks the events of one method against one protocol. What it carries is the set of
  states the obligation may be in, and the earliest line that opened it. A loop is walked in
  silence until its header changes no more, then once more to report.
-/

import OwnNet.Dataflow.Collecting
import Mathlib.Order.Defs.LinearOrder
import Mathlib.Data.Int.Order.Basic

namespace OwnNet.Obligations

open Dataflow

/-! ## Events -/

/-- An `AssignEv` or a `CallEv`; the value of an assignment is not known where it is opaque. -/
inductive Act where
  | assign (target : String) (value : Option Bool) (line : Int)
  | call (callee : String) (arg : Option String) (line : Int)
  deriving DecidableEq, Repr

def Act.line : Act → Int
  | .assign _ _ line => line
  | .call _ _ line => line

inductive Event where
  | act (a : Act)
  | return_ (line : Int)
  | throw_ (line : Int)
  | if_ (line : Int) (then_ orelse : List Event)
  | while_ (line : Int) (body : List Event)

structure MethodEvents where
  name : String
  file : String
  events : List Event

/-! ## Protocols -/

/-- With no value any assignment to the target matches; with no args any call of the callee. -/
inductive Matcher where
  | assign (target : String) (value : Option Bool)
  | call (callee : String) (args : List String)
  deriving DecidableEq, Repr

def Matcher.matches : Matcher → Act → Bool
  | .assign target value, .assign t v _ => t = target ∧ (value = none ∨ v = value)
  | .call callee args, .call c arg _ => c = callee ∧ (args = [] ∨ arg.any (· ∈ args))
  | _, _ => false

structure Protocol where
  name : String
  opens : Matcher
  closes : Matcher
  barriers : List Matcher := []
  allow : List Matcher := []
  exitBarriers : Bool := true

def Matcher.assigns (target : String) : Matcher → Bool
  | .assign t _ => t = target
  | .call _ _ => false

def Protocol.tracksTarget (p : Protocol) (target : String) : Bool := p.opens.assigns target ∨ p.closes.assigns target

/-- A write to a tracked flag whose value is not known. -/
def Protocol.mayDischarge (p : Protocol) : Act → Bool
  | .assign target none _ => p.tracksTarget target
  | _ => false

/-- A safe event crosses no barrier. -/
def Protocol.isBarrier (p : Protocol) (a : Act) : Bool := ¬p.allow.any (·.matches a) ∧ p.barriers.any (·.matches a)

/-! ## States -/

/-- Which states are possible, and the earliest open site of the paths where it is open. -/
structure State where
  opened : Bool
  closed : Bool
  openLine : Option Int
  deriving DecidableEq, Repr

/-- `_BOTTOM` -/
def State.bottom : State := ⟨false, false, none⟩

def minLine : Option Int → Option Int → Option Int
  | some a, some b => some (min a b)
  | some a, none => some a
  | none, b => b

/-- `_join` -/
def State.join (a b : State) : State := ⟨a.opened || b.opened, a.closed || b.closed, minLine a.openLine b.openLine⟩

/-! ## Violations -/

inductive Kind where
  | barrier | exit
  deriving DecidableEq, Repr

structure Violation where
  protocol : String
  method : String
  file : String
  line : Int
  kind : Kind
  definite : Bool
  openLine : Int
  barrierDesc : String
  closeLine : Option Int := none
  deriving DecidableEq, Repr

section Walker

variable (p : Protocol) (m : MethodEvents)

def violation (kind : Kind) (line : Int) (st : State) (desc : String) : Violation where
  protocol := p.name
  method := m.name
  file := m.file
  line := line
  kind := kind
  definite := st.opened ∧ ¬st.closed
  openLine := st.openLine.getD line
  barrierDesc := desc

def Act.desc : Act → String
  | .assign target _ _ => target ++ " = ..."
  | .call callee arg _ => callee ++ "(" ++ arg.getD "" ++ ")"

/-- What `_leaf` reports. -/
def leafViolation (a : Act) (st : State) : Option Violation :=
  if ¬p.opens.matches a ∧ ¬p.closes.matches a ∧ st.opened ∧ p.isBarrier a then some
    (violation p m .barrier a.line st a.desc) else none

/-- What it comes to. -/
def leafState (a : Act) (st : State) : State :=
  if p.opens.matches a then ⟨true, false, minLine (some a.line) st.openLine⟩
  else if p.closes.matches a then ⟨false, true, none⟩
  else if st.opened ∧ p.mayDischarge a then { st with closed := true }
  else st

/-- `_exit` -/
def exitViolation (line : Int) (st : State) (desc : String) : Option Violation :=
  if p.exitBarriers ∧ st.opened then some (violation p m .exit line st desc) else none

/-- What a walk comes to: the state, whether a path is still in the method, and what was reported. -/
structure Walked where
  state : State
  alive : Bool
  emitted : List Violation

/-- A part that is dead joins in as nothing. -/
def Walked.live (w : Walked) : State := if w.alive then w.state else .bottom

variable (fuel : Nat) (silent : Bool)

/-- `_emit` -/
def emit (v : Option Violation) : List Violation := if silent then [] else v.toList

mutual

/-- `walk`; `none` where a loop has not settled after `fuel` rounds. -/
def walk (fuel : Nat) (silent : Bool) : Event → State → Option Walked
  | .act a, st => some ⟨leafState p a st, true, emit silent (leafViolation p m a st)⟩
  | .return_ line, st => some ⟨.bottom, false, emit silent (exitViolation p m line st "return")⟩
  | .throw_ line, st => some ⟨.bottom, false, emit silent (exitViolation p m line st "throw")⟩
  | .if_ _ then_ orelse, st =>
    (walkSeq fuel silent then_ st).bind fun w₁ =>
    (walkSeq fuel silent orelse st).map fun w₂ =>
    if ¬w₁.alive ∧ ¬w₂.alive then ⟨.bottom, false, w₁.emitted ++ w₂.emitted⟩
    else ⟨State.join w₁.live w₂.live, true, w₁.emitted ++ w₂.emitted⟩
  | .while_ _ body, st =>
    (settle State.join (fun header => (walkSeq fuel true body header).map Walked.live) fuel st).bind fun header =>
    -- one emitting pass, where no enclosing loop is still silent
    if silent then some ⟨header, true, []⟩
    else (walkSeq fuel false body header).map fun w => ⟨header, true, w.emitted⟩

/-- `walk_seq` -/
def walkSeq (fuel : Nat) (silent : Bool) : List Event → State → Option Walked
  | [], st => some ⟨st, true, []⟩
  | ev :: rest, st =>
    (walk fuel silent ev st).bind fun w =>
    if w.alive then (walkSeq fuel silent rest w.state).map fun w' => { w' with emitted := w.emitted ++ w'.emitted }
    else some w

end

/-- What falling off the end reports, at the open site. -/
def endViolation (st : State) : Option Violation := exitViolation p m (st.openLine.getD 0) st "end of method"

/-- `run` -/
def run : Option (List Violation) :=
  (walkSeq p m fuel false m.events ⟨false, true, none⟩).map fun w =>
    w.emitted ++ if w.alive then (endViolation p m w.state).toList else []

end Walker

end OwnNet.Obligations
