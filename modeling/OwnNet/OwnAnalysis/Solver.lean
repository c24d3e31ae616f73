/-
  OwnNet.OwnAnalysis.Solver — the solver of the crate `own-analysis`: a forward worklist whose
  next block a schedule chooses, cut off when the visits exceed a bound.

  The worklist holds a block at most once. It is a list in the order of its pushes, the
  `queued` flags being membership: a FIFO takes the first, a LIFO the last, a priority
  schedule the least by (key, block). A `join` that stops is the domain's own assertion.

  Proved: `pops`: every schedule takes one block and leaves the others.
-/

import OwnNet.Dataflow.Schedule
import OwnNet.Graph.Search

namespace OwnNet.OwnAnalysis

open Dataflow

structure ControlFlowGraph where
  numBlocks : Nat
  entry : Nat
  successors : Nat → List Nat

structure Analysis (F ε : Type) where
  bottom : F
  join : F → F → Except ε F
  entryFact : F
  transfer : Nat → F → F

inductive Schedule where
  | rpo | postorder | fifo | lifo | blockOrder
  deriving DecidableEq, Repr

/-- An assertion of a join, or of the bound on the visits. -/
inductive Stop (ε : Type) where
  | join (e : ε)
  | visits
  deriving DecidableEq, Repr

namespace ControlFlowGraph

def predecessors (G : ControlFlowGraph) (b : Nat) : List Nat :=
  (List.range G.numBlocks).flatMap fun p => ((G.successors p).filter (· = b)).map fun _ => p

/-- In ascending order. -/
def reachableFrom (G : ControlFlowGraph) : List Nat :=
  (List.range G.numBlocks).filter (· ∈ Graph.reachable G.successors (List.range G.numBlocks) [G.entry])

/-- The depth-first walk: a stack of blocks, each with the index of its next successor. -/
def postorderFrom (G : ControlFlowGraph) : Nat → List (Nat × Nat) → List Nat → List Nat → List Nat
  | 0, _, _, postorder => postorder
  | _ + 1, [], _, postorder => postorder
  | fuel + 1, (b, i) :: stack, visited, postorder =>
    match (G.successors b)[i]? with
    | some s =>
      if s < G.numBlocks ∧ s ∉ visited then postorderFrom G fuel ((s, 0) :: (b, i + 1) :: stack) (s :: visited) postorder
      else postorderFrom G fuel ((b, i + 1) :: stack) visited postorder
    | none => postorderFrom G fuel stack visited (postorder ++ [b])

/-- Every block is pushed once at most, and looks at each of its successors once. -/
def postorder (G : ControlFlowGraph) : List Nat :=
  let steps := ((List.range G.numBlocks).map fun b => (G.successors b).length + 1).sum
  G.postorderFrom (steps + 1) [(G.entry, 0)] [G.entry] []

def rpoIndex (G : ControlFlowGraph) (b : Nat) : Nat :=
  ((G.postorder.reverse.filter (· ∈ G.reachableFrom)).idxOf? b).getD G.numBlocks

end ControlFlowGraph

/-! ## The worklist -/

/-- The key of the priority schedules. -/
def key (G : ControlFlowGraph) (schedule : Schedule) (b : Nat) : Nat :=
  match schedule with
  | .rpo => G.rpoIndex b
  | .postorder => G.numBlocks - G.rpoIndex b
  | .blockOrder | .fifo | .lifo => b

/-- The least of `b` and `rest`, by key and then by block. -/
def least (k : Nat → Nat) : Nat → List Nat → Nat
  | b, [] => b
  | b, c :: rest => least k (if k c < k b ∨ (k c = k b ∧ c < b) then c else b) rest

def pop (G : ControlFlowGraph) (schedule : Schedule) (queue : List Nat) : Option (Nat × List Nat) :=
  match queue with
  | [] => none
  | b :: rest =>
    match schedule with
    | .fifo => some (b, rest)
    | .lifo => some ((b :: rest).getLast (List.cons_ne_nil b rest), (b :: rest).dropLast)
    | .rpo | .postorder | .blockOrder =>
      let b' := least (key G schedule) b rest
      some (b', (b :: rest).erase b')

theorem least_mem (k : Nat → Nat) (b : Nat) (rest : List Nat) : least k b rest ∈ b :: rest := by
  induction rest generalizing b with
  | nil => exact List.mem_cons_self
  | cons c rest ih =>
    rw [least]
    have h := ih (if k c < k b ∨ (k c = k b ∧ c < b) then c else b)
    rcases List.mem_cons.mp h with h | h
    · rw [h]
      split
      · exact List.mem_cons_of_mem _ List.mem_cons_self
      · exact List.mem_cons_self
    · exact List.mem_cons_of_mem _ (List.mem_cons_of_mem _ h)

theorem pops (G : ControlFlowGraph) (schedule : Schedule) : Pops (pop G schedule) := by
  have herase : ∀ (b : Nat) (rest : List Nat) (c : Nat), c ∈ b :: rest →
      (∀ x ∈ (b :: rest).erase c, x ∈ b :: rest) ∧ ∀ x ∈ b :: rest, x = c ∨ x ∈ (b :: rest).erase c := by
    intro b rest c _
    refine ⟨fun x hx => List.mem_of_mem_erase hx, fun x hx => ?_⟩
    by_cases hxc : x = c
    · exact Or.inl hxc
    · exact Or.inr ((List.mem_erase_of_ne hxc).mpr hx)
  have hcases : ∀ queue c rest, pop G schedule queue = some (c, rest) →
      c ∈ queue ∧ (∀ x ∈ rest, x ∈ queue) ∧ ∀ x ∈ queue, x = c ∨ x ∈ rest := by
    intro queue c rest h
    cases queue with
    | nil => cases h
    | cons b tail =>
      have hleast := least_mem (key G schedule) b tail
      cases schedule with
      | fifo =>
        cases h
        exact ⟨List.mem_cons_self, fun x hx => List.mem_cons_of_mem _ hx, fun x hx => List.mem_cons.mp hx⟩
      | lifo =>
        cases h
        have hsplit := List.dropLast_append_getLast (List.cons_ne_nil b tail)
        refine ⟨List.getLast_mem _, fun x hx => List.dropLast_subset _ hx, fun x hx => ?_⟩
        rw [← hsplit] at hx
        rcases List.mem_append.mp hx with hx | hx
        · exact Or.inr hx
        · exact Or.inl (List.mem_singleton.mp hx)
      | rpo =>
        cases h
        exact ⟨hleast, herase b tail _ hleast⟩
      | postorder =>
        cases h
        exact ⟨hleast, herase b tail _ hleast⟩
      | blockOrder =>
        cases h
        exact ⟨hleast, herase b tail _ hleast⟩
  refine ⟨?_, fun w b r h => (hcases w b r h).1, fun w b r h => (hcases w b r h).2.1, fun w b r h => (hcases w b r h).2.2⟩
  intro work h
  cases work with
  | nil => rfl
  | cons b tail => cases schedule <;> cases h

/-! ## Solving -/

section

variable {F ε : Type}

def problem (G : ControlFlowGraph) (A : Analysis F ε) : Problem F ε where
  nodes := G.reachableFrom
  entry := G.entry
  preds := G.predecessors
  succ := G.successors
  init := A.entryFact
  empty := A.bottom
  join := A.join
  transfer := A.transfer

/-- Arithmetic stops at the top of the machine's word. -/
def saturate (n : Nat) : Nat := min n (2 ^ 64 - 1)

def visitCap (G : ControlFlowGraph) : Nat :=
  saturate (saturate (saturate (G.reachableFrom.length * G.reachableFrom.length) * 64) + 1024)

/-- The converged in-fact of every reachable block. -/
def solveWith [DecidableEq F] (G : ControlFlowGraph) (A : Analysis F ε) (schedule : Schedule) :
    Except (Stop ε) (Dict Nat F) :=
  match (problem G A).solveBy (pop G schedule) (visitCap G) with
  | .error e => .error (.join e)
  | .ok none => .error .visits
  | .ok (some r) => .ok r.ins

end

end OwnNet.OwnAnalysis
