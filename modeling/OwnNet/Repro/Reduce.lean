/-
  OwnNet.Repro.Reduce — `reduce_traces`: two engines' traces walked in layer order, every
  place where they part company observed, the first one named.

  A step has an address; two engines' steps are the same step where their addresses are.
  Objects are compared with the order of their keys. What is named inside a changed step is
  the first place its two values differ, in the left one's order.
-/

import OwnNet.Json
import Mathlib.Data.List.Nodup
import Mathlib.Data.List.Forall2

namespace OwnNet.Repro

/-! ## Traces -/

inductive Status where
  | produced | refused
  deriving DecidableEq, Repr

def Status.text : Status → String
  | .produced => "produced"
  | .refused => "refused"

/-- What of its surface an engine emits: all of it, or the members it names. -/
inductive Projection where
  | full
  | named (members : List String) (reason : String)
  deriving DecidableEq, Repr

def Projection.json : Projection → Json
  | .full => .obj [("kind", .str "full")]
  | .named members reason =>
    .obj [("kind", .str "partial"), ("members", .arr (members.map .str)), ("reason", .str reason)]

inductive Order where
  | significant | canonical
  deriving DecidableEq, Repr

/-- A refusal's declared boundary. -/
structure Boundary where
  class_ : String
  detail : String
  deriving DecidableEq, Repr

structure Step where
  id : String
  value : Json

structure Layer where
  layer : String
  status : Status
  projection : Projection
  order : Order
  boundary : Option Boundary := none
  steps : List Step := []

def Layer.ids (l : Layer) : List String := l.steps.map Step.id

structure Trace where
  engine : Json
  layers : List Layer

/-- `LAYER_ORDER`, which is the scope of the reduction. -/
def layerOrder : List String := ["lowered", "summaries", "verdicts"]

/-! ## Values -/

/-- Equality of two floats, from their texts. -/
def sameFloat (a b : String) : Bool := (a = b ∧ a ≠ "nan") ∨ (a ∈ ["0.0", "-0.0"] ∧ b ∈ ["0.0", "-0.0"])

mutual

/-- `_same`: the order of keys counts, and a boolean is no integer. -/
def same : Json → Json → Bool
  | .null, .null => true
  | .bool a, .bool b => a = b
  | .int a, .int b => a = b
  | .float a, .float b => sameFloat a b
  | .str a, .str b => a = b
  | .arr a, .arr b => sameItems a b
  | .obj a, .obj b => sameFields a b
  | _, _ => false

def sameItems : List Json → List Json → Bool
  | [], [] => true
  | a :: as, b :: bs => same a b && sameItems as bs
  | _, _ => false

def sameFields : List (String × Json) → List (String × Json) → Bool
  | [], [] => true
  | (k, a) :: as, (k', b) :: bs => decide (k = k') && same a b && sameFields as bs
  | _, _ => false

end

def member (fields : List (String × Json)) (key : String) : Option Json := (fields.find? fun f => f.1 = key).map Prod.snd

def keyTexts (fields : List (String × Json)) : Json := .arr (fields.map fun f => .str f.1)

mutual

/-- `_minimal_difference`: the first path at which two values differ, and the values there. -/
def minimalDifference : Json → Json → String → String × Json × Json
  | .obj a, .obj b, path =>
    match fieldDifference a b path with
    | some d => d
    | none =>
      match b.find? fun f => (member a f.1).isNone with
      | some f => (path ++ "." ++ f.1, .null, f.2)
      | none => if a.map Prod.fst ≠ b.map Prod.fst then (path ++ "[keys]", keyTexts a, keyTexts b) else (path, .obj a, .obj b)
  | .arr a, .arr b, path =>
    match itemDifference a b 0 path with
    | some d => d
    | none => if a.length ≠ b.length then (path ++ "[len]", .int a.length, .int b.length) else (path, .arr a, .arr b)
  | a, b, path => (path, a, b)

/-- The first key of the left object that the right one has not, or has another value for. -/
def fieldDifference : List (String × Json) → List (String × Json) → String → Option (String × Json × Json)
  | [], _, _ => none
  | (k, a) :: rest, right, path =>
    match member right k with
    | none => some (path ++ "." ++ k, a, .null)
    | some b => if same a b then fieldDifference rest right path else some (minimalDifference a b (path ++ "." ++ k))

def itemDifference : List Json → List Json → Nat → String → Option (String × Json × Json)
  | a :: as, b :: bs, i, path =>
    if same a b then itemDifference as bs (i + 1) path
    else some (minimalDifference a b (path ++ "[" ++ toString i ++ "]"))
  | _, _, _, _ => none

end

/-! ## Observations -/

inductive Kind where
  | leftOnly | rightOnly | changed | orderingOnly | status | projection | missingLayer
  deriving DecidableEq, Repr

def kinds : List Kind := [.leftOnly, .rightOnly, .changed, .orderingOnly, .status, .projection, .missingLayer]

inductive Acceptance where
  | unexplained | declaredBoundary
  deriving DecidableEq, Repr

def acceptances : List Acceptance := [.unexplained, .declaredBoundary]

/-- `BOUNDARY_POLICY`: what an observation may be excused by. -/
def boundaryPolicy : List (String × Kind × String) :=
  [("lowered", .status, "OD-1"), ("summaries", .status, "OD-1"), ("verdicts", .status, "OD-1")]

/-- Whether an observation is explained, and the boundary it keeps. -/
def judge (layer : String) (kind : Kind) (boundary : Option Boundary) : Acceptance × Option Boundary :=
  if kind ≠ .status ∧ kind ≠ .projection then (.unexplained, none)
  else
    match boundary with
    | some b => if (layer, kind, b.class_) ∈ boundaryPolicy then (.declaredBoundary, some b) else (.unexplained, some b)
    | none => (.unexplained, none)

structure Observation where
  layer : String
  kind : Kind
  acceptance : Acceptance
  boundary : Option Boundary
  step : Option String
  path : Option String
  left : Json
  right : Json
  detail : String

def observation (layer : String) (kind : Kind) (step path : Option String) (left right : Json) (detail : String)
    (boundary : Option Boundary := none) : Observation :=
  { layer := layer, kind := kind, acceptance := (judge layer kind boundary).1, boundary := (judge layer kind boundary).2
    step := step, path := path, left := left, right := right, detail := detail }

section

variable (name : String)

def leftOnly (id : String) (value : Json) : Observation :=
  observation name .leftOnly (some id) none value .null "addressed by the left engine only"

def rightOnly (id : String) (value : Json) : Observation :=
  observation name .rightOnly (some id) none .null value "addressed by the right engine only"

def changed (id : String) (left right : Json) : Observation :=
  let d := minimalDifference left right ""
  observation name .changed (some id) (some (if d.1 = "" then "." else d.1)) d.2.1 d.2.2
    "the same address carries different values"

def idTexts (l : Layer) : Json := .arr (l.ids.map .str)

def orderingOnly (left right : Layer) : Observation :=
  observation name .orderingOnly none none (idTexts left) (idTexts right)
    (if left.order = .significant then
      "the same steps in a different sequence; this layer declares its order SIGNIFICANT, so the sequence is the difference"
    else "the same steps in a different sequence on a layer whose order is CANONICAL — one engine did not canonicalize")

def missingLayer (left right : Bool) : Observation :=
  observation name .missingLayer none none (.bool left) (.bool right) "an engine did not report this layer at all"

/-- The boundary a refusing engine declares. -/
def boundaryOf (l : Layer) : Option Boundary := if l.status = .refused then l.boundary else none

def statusDiffers (left right : Layer) : Observation :=
  observation name .status none none (.str left.status.text) (.str right.status.text)
    ("the two engines disagree about whether this layer produced at all; the refusing engine declares its boundary class " ++
      "in its own capture and this reducer copies it, judging the result against the frozen policy by " ++
      "(layer, kind, class) — never by its text")
    ((boundaryOf left).or (boundaryOf right))

def projectionDiffers (left right : Layer) : Observation :=
  observation name .projection none none left.projection.json right.projection.json
    ("the engines declare different projections of this surface, so their step values are not comparable " ++
      "member-for-member; a value comparison here would score an unported member as a difference")

/-- The value at an address; of two steps at one address the later counts. -/
def valueAt (steps : List Step) (id : String) : Option Json := (steps.reverse.find? fun s => s.id = id).map Step.value

def leftObservation (right : List Step) (s : Step) : Option Observation :=
  match valueAt right s.id with
  | none => some (leftOnly name s.id s.value)
  | some v => if same s.value v then none else some (changed name s.id s.value v)

def rightObservation (left : List Step) (s : Step) : Option Observation :=
  match valueAt left s.id with
  | none => some (rightOnly name s.id s.value)
  | some _ => none

/-- The steps that differ. -/
def contentOf (left right : Layer) : List Observation :=
  left.steps.filterMap (leftObservation name right.steps) ++ right.steps.filterMap (rightObservation name left.steps)

/-- `_reduce_layer` -/
def reduceLayer (left right : Layer) : List Observation :=
  if left.status ≠ right.status then [statusDiffers name left right]
  else if left.status = .refused then []
  else if left.projection ≠ right.projection then [projectionDiffers name left right]
  else if (contentOf name left right).isEmpty then
    if left.ids ≠ right.ids then [orderingOnly name left right] else []
  else contentOf name left right

end

def layerOf (t : Trace) (name : String) : Option Layer := t.layers.find? fun l => l.layer = name

def walkLayer (left right : Trace) (name : String) : List Observation :=
  match layerOf left name, layerOf right name with
  | some a, some b => reduceLayer name a b
  | a, b => [missingLayer name a.isSome b.isSome]

def observations (left right : Trace) : List Observation := layerOrder.flatMap (walkLayer left right)

/-! ## The reduction -/

inductive Outcome where
  | identical | declaredBoundary | diverged | singleEngine
  deriving DecidableEq, Repr

structure Reduction where
  reductionVersion : Int := 2
  case_ : Json
  engines : List Json
  scope : List String := layerOrder
  outcome : Outcome
  detail : Option String
  byKind : List (Kind × Nat)
  byAcceptance : List (Acceptance × Nat)
  first : Option Observation
  observations : List Observation
  outOfScope : List String := []

def outcomeOf (obs : List Observation) : Outcome :=
  if obs.isEmpty then .identical
  else if obs.any fun o => o.acceptance = .unexplained then .diverged
  else .declaredBoundary

/-- `reduce_traces` -/
def reduceTraces (case_ : Json) : List Trace → Reduction
  | left :: right :: _ =>
    let obs := observations left right
    { case_ := case_, engines := [left.engine, right.engine], outcome := outcomeOf obs, detail := none
      byKind := kinds.map fun k => (k, obs.countP fun o => o.kind = k)
      byAcceptance := acceptances.map fun a => (a, obs.countP fun o => o.acceptance = a)
      first := obs.head?, observations := obs }
  | entries =>
    { case_ := case_, engines := entries.map Trace.engine, outcome := .singleEngine
      detail := some "only one engine captured this input, so there is nothing to reduce"
      byKind := [], byAcceptance := [], first := none, observations := [] }

end OwnNet.Repro
