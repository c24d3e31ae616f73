/-
  OwnNet.HeapEffects.Solve — summaries, the transfer function `evaluate`, and `solve`: the
  components of the call graph callees first, each swept until a sweep changes nothing.

  The nested loops of `solve` are a machine on `Config`: the components still to settle
  (the first is being swept), the keys the sweep has still to evaluate, whether it changed
  a summary, and the summaries. `solve fuel` is none when the machine has not stopped
  within `fuel` steps.

  An index a list does not have reads as no value; `Accepted` documents never ask for one.
-/

import OwnNet.HeapEffects.Facts
import OwnNet.Graph.Search
import OwnNet.Graph.Tarjan
import Mathlib.Data.List.Dedup
import Mathlib.Data.List.Sort
import Mathlib.Data.String.Basic
import Mathlib.Order.Lattice

namespace OwnNet.HeapEffects

/-! ## Summaries -/

inductive Effect where
  | plain | borrow | borrowMut | mayEscape | unknown
  deriving DecidableEq, Repr

def Effect.rank : Effect → Nat
  | plain => 0
  | borrow => 1
  | borrowMut => 2
  | mayEscape => 3
  | unknown => 4

instance : LinearOrder Effect := LinearOrder.lift' Effect.rank (by intro a b; cases a <;> cases b <;> simp [Effect.rank])

inductive Level where
  | none | may | unknown
  deriving DecidableEq, Repr

def Level.rank : Level → Nat
  | none => 0
  | may => 1
  | unknown => 2

instance : LinearOrder Level := LinearOrder.lift' Level.rank (by intro a b; cases a <;> cases b <;> simp [Level.rank])

inductive Root where
  | param (i : Nat)
  | receiver
  | heap
  | unknown
  deriving DecidableEq, Repr

def Root.text : Root → String
  | param i => "param:" ++ toString i
  | receiver => "receiver"
  | heap => "heap"
  | unknown => "unknown"

def Effect.text : Effect → String
  | plain => "plain"
  | borrow => "borrow"
  | borrowMut => "borrow_mut"
  | mayEscape => "may_escape"
  | unknown => "unknown"

def Level.text : Level → String
  | none => "none"
  | may => "may"
  | unknown => "unknown"

def WriteKind.all : List WriteKind := [.inst, .static, .indirect]

def WriteKind.text : WriteKind → String
  | inst => "instance"
  | static => "static"
  | indirect => "indirect"

structure Summary where
  params : List Effect
  receiver : Option Effect
  writes : WriteKind → Level
  returns : List Root

/-- `new != solved[k]`, field by field. -/
instance : DecidableEq Summary := fun s t =>
  decidable_of_iff (s.params = t.params ∧ s.receiver = t.receiver ∧
    (∀ k ∈ WriteKind.all, s.writes k = t.writes k) ∧ s.returns = t.returns) <| by
  constructor
  · rintro ⟨hp, hr, hw, ht⟩
    have hw : s.writes = t.writes := by
      funext k
      exact hw k (by cases k <;> decide)
    cases s; cases t
    simp_all
  · rintro rfl
    exact ⟨rfl, rfl, fun _ _ => rfl, rfl⟩

abbrev Solved := String → Summary

def bottom (m : Method Tok) : Summary :=
  ⟨m.params.map fun _ => .plain, if m.receiver then some .plain else none, fun _ => .none, []⟩

/-! ## The roots of a value -/

section Evaluate

variable (m : Method Tok) (ms : List (Method Tok)) (solved : Solved)

def calleeUnknown (c : Call Tok) : Bool := c.dispatch ≠ .direct || (byKey ms c.callee).isNone

/-- What a callee's return root is to its caller: the argument passed there, or the
    receiver; a constructor's receiver is the new object, heap to the caller. -/
def passed (c : Call Tok) : Root → List Tok
  | .param i => (c.args[i]?).getD []
  | .receiver => c.receiver.getD [.heap]
  | .heap => []
  | .unknown => []

/-- The tokens the search pushes for a token. -/
def sources : Tok → List Tok
  | .loc i => (m.locals[i]?).getD []
  | .call k => match m.calls[k]? with
    | none => []
    | some c => if calleeUnknown ms c then [] else (solved c.callee).returns.flatMap (passed c)
  | _ => []

/-- The roots it finds at a token. -/
def found : Tok → List Root
  | .param i => [.param i]
  | .receiver => [.receiver]
  | .heap => [.heap]
  | .loc _ => []
  | .call k => match m.calls[k]? with
    | none => []
    | some c =>
      if calleeUnknown ms c then [.unknown]
      else (solved c.callee).returns.filter fun r => r = .heap ∨ r = .unknown

/-- The tokens of the method with sources. -/
def inner : List Tok := (List.range m.locals.length).map .loc ++ (List.range m.calls.length).map .call

def roots (tokens : List Tok) : List Root :=
  ((Graph.reachable (sources m ms solved) (inner m) tokens).flatMap (found m ms solved)).dedup

/-! ## The transfer function -/

/-- What an evaluation has gathered. -/
@[ext] structure Acc where
  params : Nat → Effect
  receiver : Effect
  writes : WriteKind → Level

def Acc.bot : Acc := ⟨fun _ => .plain, .plain, fun _ => .none⟩

def Acc.raise (acc : Acc) (kind : WriteKind) (level : Level) : Acc :=
  { acc with writes := Function.update acc.writes kind (max (acc.writes kind) level) }

def touch (effect : Effect) (kind : WriteKind) (acc : Acc) : Root → Acc
  | .param i =>
    if m.inert i then acc else { acc with params := Function.update acc.params i (max (acc.params i) effect) }
  | .receiver => { acc with receiver := max acc.receiver effect }
  | .heap => if .borrowMut ≤ effect then acc.raise kind (if effect = .unknown then .unknown else .may) else acc
  | .unknown => if .borrowMut ≤ effect then acc.raise kind .unknown else acc

def apply (tokens : List Tok) (effect : Effect) (kind : WriteKind) (acc : Acc) : Acc :=
  (roots m ms solved tokens).foldl (touch m effect kind) acc

def evalWrite (acc : Acc) (w : WriteKind × List Tok) : Acc :=
  match w.1 with
  | .static => acc.raise .static .may
  | kind => apply m ms solved w.2 .borrowMut kind acc

/-- The callee's effect on its receiver, laid on what the call passes as one. -/
def applyReceiver (c : Call Tok) (effect : Option Effect) (acc : Acc) : Acc :=
  match effect, c.receiver with
  | some effect, some tokens => apply m ms solved tokens effect .inst acc
  | _, _ => acc

def evalCall (acc : Acc) (c : Call Tok) : Acc :=
  if calleeUnknown ms c then
    let acc := c.args.foldl (fun acc arg => apply m ms solved arg .unknown .inst acc) acc
    let acc := applyReceiver m ms solved c (some .unknown) acc
    { acc with writes := fun _ => .unknown }
  else
    let s := solved c.callee
    let acc := s.params.zipIdx.foldl (fun acc p => apply m ms solved ((c.args[p.2]?).getD []) p.1 .inst acc) acc
    let acc := applyReceiver m ms solved c s.receiver acc
    { acc with writes := fun k => max (acc.writes k) (s.writes k) }

def gather : Acc :=
  let acc := apply m ms solved m.derefs .borrow .inst Acc.bot
  let acc := m.writes.foldl (evalWrite m ms solved) acc
  let acc := apply m ms solved m.stores .mayEscape .inst acc
  m.calls.foldl (evalCall m ms solved) acc

/-- The roots the method may return, an inert parameter's left out. -/
def returned : List Root :=
  if m.returnInert then []
  else (roots m ms solved m.returns).filter fun r => match r with
    | .param i => !m.inert i
    | _ => true

/-- Unknown absorbs; else the roots in the order of their texts. -/
def canon (rs : List Root) : List Root :=
  if .unknown ∈ rs then [.unknown] else rs.dedup.insertionSort fun a b => a.text ≤ b.text

/-- A method with a construct the facts do not model. -/
def opaqueSummary : Summary :=
  ⟨m.params.map fun p => if p.2 then .plain else .unknown, if m.receiver then some .unknown else none,
    fun _ => .unknown, if m.returnInert then [] else [.unknown]⟩

def evaluate : Summary :=
  if m.unknown ≠ [] then opaqueSummary m
  else
    let acc := gather m ms solved
    ⟨(List.range m.params.length).map acc.params, if m.receiver then some acc.receiver else none, acc.writes,
      canon (returned m ms solved)⟩

end Evaluate

/-! ## The solver -/

def sortKeys (keys : List String) : List String := keys.insertionSort (· ≤ ·)

/-- The callees of a method that have records, sorted. -/
def callees (ms : List (Method Tok)) (key : String) : List String :=
  match byKey ms key with
  | none => []
  | some m => sortKeys ((m.calls.filter fun c => !calleeUnknown ms c).map Call.callee).dedup

def keys (ms : List (Method Tok)) : List String := sortKeys (ms.map Method.key)

def sccs (ms : List (Method Tok)) : List (List String) := (Graph.Tarjan.run (callees ms) (keys ms)).map sortKeys

@[ext] structure Config where
  comps : List (List String)
  todo : List String
  changed : Bool
  solved : Solved

def initial (ms : List (Method Tok)) : Solved := fun k =>
  match byKey ms k with
  | some m => bottom m
  | none => ⟨[], none, fun _ => .none, []⟩

/-- Settle the components from `comps` on. -/
def Config.enter (comps : List (List String)) (solved : Solved) : Config := ⟨comps, comps.headD [], false, solved⟩

def start (ms : List (Method Tok)) : Config := .enter (sccs ms) (initial ms)

def evalKey (ms : List (Method Tok)) (solved : Solved) (k : String) : Summary :=
  match byKey ms k with
  | some m => evaluate m ms solved
  | none => solved k

def step (ms : List (Method Tok)) (c : Config) : Config :=
  match c.comps with
  | [] => c
  | comp :: rest => match c.todo with
    | k :: ks =>
      let new := evalKey ms c.solved k
      if new = c.solved k then { c with todo := ks }
      else { c with todo := ks, changed := true, solved := Function.update c.solved k new }
    | [] => if c.changed then ⟨comp :: rest, comp, false, c.solved⟩ else .enter rest c.solved

/-- The configuration after `n` steps of the machine. -/
def steps (ms : List (Method Tok)) : Nat → Config
  | 0 => start ms
  | n + 1 => step ms (steps ms n)

def solve (fuel : Nat) (ms : List (Method Tok)) : Option Solved :=
  if (steps ms fuel).comps.isEmpty then some (steps ms fuel).solved else none

/-! ## The harmless predicate -/

def firstEffect : List (Effect × Nat) → Option String
  | [] => none
  | (e, i) :: rest =>
    if .borrow < e then some ("parameter " ++ toString i ++ " is " ++ e.text) else firstEffect rest

def receiverEffect : Option Effect → Option String
  | some e => if .borrow < e then some ("receiver is " ++ e.text) else none
  | none => none

def firstWrite (writes : WriteKind → Level) : List WriteKind → Option String
  | [] => none
  | k :: rest =>
    if writes k ≠ .none then some ("writes." ++ k.text ++ " is " ++ (writes k).text) else firstWrite writes rest

def aliased : List Root → Option String
  | [] => none
  | rs => some ("returns alias " ++ String.intercalate ", " (rs.map Root.text))

/-- The first clause the summary fails: parameters, receiver, writes, returns. -/
def harmless (s : Summary) : Option String :=
  (firstEffect s.params.zipIdx).or ((receiverEffect s.receiver).or
    ((firstWrite s.writes WriteKind.all).or (aliased s.returns)))

def Dispatch.text : Dispatch → String
  | direct => "direct"
  | virtual => "virtual"
  | extern_ => "extern"
  | delegate => "delegate"

/-- Why one call of a site is not proven harmless. -/
def callVerdict (ms : List (Method Tok)) (solved : Solved) (c : Call Tok) : Option String :=
  if c.dispatch ≠ .direct then some ("'" ++ c.callee ++ "' is " ++ c.dispatch.text)
  else if (byKey ms c.callee).isNone then some ("'" ++ c.callee ++ "' has no summary")
  else (harmless (solved c.callee)).map fun reason => "'" ++ c.callee ++ "': " ++ reason

def callsVerdict (ms : List (Method Tok)) (solved : Solved) : List (Call Tok) → Option String
  | [] => none
  | c :: cs => (callVerdict ms solved c).or (callsVerdict ms solved cs)

/-- None when the call site is proven harmless, else why not. -/
def siteVerdict (ms : List (Method Tok)) (solved : Solved) (site : Method Tok) (callee : String) : Option String :=
  if site.calls.any (fun c => c.callee = callee ∧ c.dispatch = .direct) then
    (callsVerdict ms solved site.calls).or
      ((harmless (solved site.key)).map fun reason => "the call site: " ++ reason)
  else some ("the site does not call '" ++ callee ++ "' directly")

end OwnNet.HeapEffects
