/-
  OwnNet.Graph.Lookups — the two searches over a graph that is a dictionary: the edges of a node
  are looked up, and there may be none to find.

  The search that enters a node when its first edge is scanned looks it up at every scan; the one
  that enters it when it is pushed looks it up there and keeps the position.

  Proved: on a graph whose edges lead to its own nodes both are `Tarjan.run` (`runIn_ok`,
  `runEagerIn_ok`), and that run lists its strongly connected components, callees first
  (`run_components`).
-/

import OwnNet.Checks
import OwnNet.Graph.Components

namespace OwnNet.Graph.Tarjan

open Checks

set_option linter.unusedSectionVars false

variable {α : Type} [DecidableEq α]

/-! ## The components of a graph -/

structure Components (edges : α → List α) (nodes : List α) (out : List (List α)) : Prop where
  nonempty : ∀ c ∈ out, c ≠ []
  disjoint : out.flatten.Nodup
  covers : ∀ x, x ∈ out.flatten ↔ x ∈ nodes
  strong : ∀ c ∈ out, ∀ x ∈ c, ∀ y, y ∈ c ↔ Reaches edges x y ∧ Reaches edges y x
  calleesFirst : ∀ pre c post, out = pre ++ c :: post → ∀ x ∈ c, ∀ w ∈ edges x, w ∈ c ∨ w ∈ pre.flatten

section Nonempty

variable (edges : α → List α)

theorem popComp_nonempty {v : α} {s : St α} (h : ∀ c ∈ s.out, c ≠ []) : ∀ c ∈ (popComp v s).out, c ≠ [] := by
  intro c hc
  unfold popComp at hc
  split at hc
  · rcases List.mem_append.mp hc with hc | hc
    · exact h c hc
    · rw [List.mem_singleton.mp hc]
      simp
  · exact h c hc

theorem lowerParent_out (v : α) (s : St α) : (lowerParent v s).out = s.out := by
  unfold lowerParent
  split <;> rfl

theorem step_nonempty {s : St α} (h : ∀ c ∈ s.out, c ≠ []) : ∀ c ∈ (step edges s).out, c ≠ [] := by
  have hadvance : ∀ v pos rest (t : St α), (∀ c ∈ t.out, c ≠ []) → ∀ c ∈ (advance edges v pos rest t).out, c ≠ [] := by
    intro v pos rest t ht
    unfold advance
    split
    · simp only
      split
      · exact ht
      · split
        · exact ht
        · exact ht
    · rw [lowerParent_out]
      exact popComp_nonempty ht
  unfold step
  split
  · exact h
  · refine hadvance _ _ _ _ ?_
    split
    · exact h
    · exact h

theorem loop_nonempty (n : Nat) {s : St α} (h : ∀ c ∈ s.out, c ≠ []) : ∀ c ∈ (loop edges n s).out, c ≠ [] := by
  induction n generalizing s with
  | zero => exact h
  | succ n ih =>
    unfold loop
    split
    · exact h
    · exact ih (step_nonempty edges h)

theorem run_nonempty (nodes : List α) : ∀ c ∈ run edges nodes, c ≠ [] := by
  have hall : ∀ (roots : List α) (s : St α), (∀ c ∈ s.out, c ≠ []) →
      ∀ c ∈ (roots.foldl (visit edges (scans edges nodes)) s).out, c ≠ [] := by
    intro roots
    induction roots with
    | nil => exact fun s h => h
    | cons r roots ih =>
      intro s h
      refine ih _ ?_
      unfold visit
      split
      · exact h
      · exact loop_nonempty edges _ h
  exact hall nodes init fun c hc => absurd hc List.not_mem_nil

end Nonempty

/-- Tarjan's search lists the strongly connected components of a graph, callees first. -/
theorem run_components {edges : α → List α} {nodes : List α} (hk : ∀ x ∈ nodes, ∀ w ∈ edges x, w ∈ nodes) :
    Components edges nodes (run edges nodes) where
  nonempty := run_nonempty edges nodes
  disjoint := run_nodup hk
  covers := run_covers hk
  strong := fun _ hc _ hx y => mem_component hk hc hx y
  calleesFirst := fun pre c post h => run_topo hk pre c post h

/-- The members of a component may be listed in any order. -/
theorem Components.reorder {edges : α → List α} {nodes : List α} {out : List (List α)} (h : Components edges nodes out)
    {f : List α → List α} (hf : ∀ c, (f c).Perm c) : Components edges nodes (out.map f) := by
  have hflat : ∀ l : List (List α), (l.map f).flatten.Perm l.flatten := by
    intro l
    induction l with
    | nil => exact List.Perm.refl _
    | cons c l ih => exact (hf c).append ih
  refine ⟨?_, (hflat out).nodup_iff.mpr h.disjoint, fun x => (hflat out).mem_iff.trans (h.covers x), ?_, ?_⟩
  · intro c hc hnil
    obtain ⟨d, hd, rfl⟩ := List.mem_map.mp hc
    exact h.nonempty d hd (List.Perm.eq_nil (hnil ▸ (hf d).symm))
  · intro c hc x hx y
    obtain ⟨d, hd, rfl⟩ := List.mem_map.mp hc
    rw [(hf d).mem_iff]
    exact h.strong d hd x ((hf d).mem_iff.mp hx) y
  · intro pre c post hsplit x hx w hw
    obtain ⟨pre', rest, rfl, rfl, hrest⟩ := List.map_eq_append_iff.mp hsplit
    obtain ⟨d, post', rfl, rfl, rfl⟩ := List.map_eq_cons_iff.mp hrest
    rw [(hf d).mem_iff, (hflat pre').mem_iff]
    exact h.calleesFirst pre' d post' rfl x ((hf d).mem_iff.mp hx) w hw

/-! ## The searches -/

section Lookups

variable (succ : α → Option (List α))

/-- The edges a lookup gives; a node that is not there is the error. -/
def lookUp (v : α) : Except α (List α) := require (succ v) v

/-- The edges of a node, and none of one that is not there. -/
def edgesOf (v : α) : List α := (succ v).getD []

def stepIn (s : St α) : Except α (St α) :=
  match s.work with
  | [] => .ok s
  | (v, pos) :: rest => lookUp succ v >>= fun out => .ok (advance (fun _ => out) v pos rest (if pos = 0 then enter v s else s))

def loopIn : Nat → St α → Except α (St α)
  | 0, s => .ok s
  | n + 1, s => if s.work.isEmpty then .ok s else stepIn succ s >>= loopIn n

def visitIn (fuel : Nat) (s : St α) (root : α) : Except α (St α) :=
  if (s.index root).isSome then .ok s else loopIn succ fuel { s with work := [(root, 0)] }

def visitsIn (fuel : Nat) : List α → St α → Except α (St α)
  | [], s => .ok s
  | r :: roots, s => visitIn succ fuel s r >>= visitsIn fuel roots

def runIn (nodes : List α) : Except α (List (List α)) := St.out <$> visitsIn succ (scans (edgesOf succ) nodes) nodes init

/-- The top entry's edges are the ones it was pushed with; a new entry's are looked up. -/
def advanceEagerIn (v : α) (pos : Nat) (rest : List (α × Nat)) (s : St α) : Except α (St α) :=
  match (edgesOf succ v)[pos]? with
  | some w =>
    let s := { s with work := (v, pos + 1) :: rest }
    match s.index w with
    | none => lookUp succ w >>= fun _ => .ok (enter w { s with work := (w, 0) :: s.work })
    | some i => .ok (if w ∈ s.stack then { s with low := Function.update s.low v (min (s.low v) i) } else s)
  | none => .ok (lowerParent v { popComp v s with work := rest })

def stepEagerIn (s : St α) : Except α (St α) :=
  match s.work with
  | [] => .ok s
  | (v, pos) :: rest => advanceEagerIn succ v pos rest s

def loopEagerIn : Nat → St α → Except α (St α)
  | 0, s => .ok s
  | n + 1, s => if s.work.isEmpty then .ok s else stepEagerIn succ s >>= loopEagerIn n

def visitEagerIn (fuel : Nat) (s : St α) (root : α) : Except α (St α) :=
  if (s.index root).isSome then .ok s
  else lookUp succ root >>= fun _ => loopEagerIn succ fuel (enter root { s with work := [(root, 0)] })

def visitsEagerIn (fuel : Nat) : List α → St α → Except α (St α)
  | [], s => .ok s
  | r :: roots, s => visitEagerIn succ fuel s r >>= visitsEagerIn fuel roots

def runEagerIn (nodes : List α) : Except α (List (List α)) :=
  St.out <$> visitsEagerIn succ (scans (edgesOf succ) nodes) nodes init

end Lookups

/-! ## Graphs whose edges lead to their own nodes -/

section Closed

variable {succ : α → Option (List α)} {nodes : List α}

/-- Every node is found, and so is every node an edge leads to. -/
structure Closed (succ : α → Option (List α)) (nodes : List α) : Prop where
  found : ∀ v ∈ nodes, (succ v).isSome
  edges : ∀ v ∈ nodes, ∀ w ∈ edgesOf succ v, w ∈ nodes

theorem Closed.lookUp (h : Closed succ nodes) {v : α} (hv : v ∈ nodes) : lookUp succ v = .ok (edgesOf succ v) := by
  obtain ⟨out, hout⟩ := Option.isSome_iff_exists.mp (h.found v hv)
  unfold Tarjan.lookUp edgesOf
  rw [hout]
  rfl

theorem advance_congr {edges edges' : α → List α} {v : α} (h : edges v = edges' v) (pos : Nat)
    (rest : List (α × Nat)) (s : St α) :
    advance edges v pos rest s = advance edges' v pos rest s := by
  unfold advance
  rw [h]

theorem Closed.stepIn (h : Closed succ nodes) {s : St α} (hw : ∀ e ∈ s.work, e.1 ∈ nodes) :
    stepIn succ s = .ok (step (edgesOf succ) s) := by
  unfold Tarjan.stepIn step
  cases hwork : s.work with
  | nil => rfl
  | cons e rest =>
    obtain ⟨v, pos⟩ := e
    have hv : v ∈ nodes := hw (v, pos) (by rw [hwork]; exact List.mem_cons_self)
    simp only [h.lookUp hv]
    exact congrArg Except.ok (advance_congr rfl _ _ _)

theorem Closed.loopIn (h : Closed succ nodes) (n : Nat) {s : St α} (hs : Within (edgesOf succ) nodes s) :
    loopIn succ n s = .ok (loop (edgesOf succ) n s) := by
  induction n generalizing s with
  | zero => rfl
  | succ n ih =>
    unfold Tarjan.loopIn loop
    split
    · rfl
    · rw [h.stepIn hs.work_mem]
      exact ih (step_within h.edges hs)

theorem Closed.visitsIn (h : Closed succ nodes) (roots : List α) {s : St α} (hr : ∀ r ∈ roots, r ∈ nodes)
    (hset : Settled (edgesOf succ) s) (hs : Within (edgesOf succ) nodes s) :
    visitsIn succ (scans (edgesOf succ) nodes) roots s =
      .ok (roots.foldl (visit (edgesOf succ) (scans (edgesOf succ) nodes)) s) := by
  induction roots generalizing s with
  | nil => rfl
  | cons r roots ih =>
    have hr0 := hr r List.mem_cons_self
    have hvisit : visitIn succ (scans (edgesOf succ) nodes) s r = .ok
        (visit (edgesOf succ) (scans (edgesOf succ) nodes) s r) := by
      unfold visitIn visit
      split
      · rfl
      · exact h.loopIn _ (hs.root hr0)
    obtain ⟨hset', hs', -⟩ := visit_settled h.edges hr0 hset hs
    unfold Tarjan.visitsIn
    rw [hvisit]
    exact ih (fun x hx => hr x (List.mem_cons_of_mem _ hx)) hset' hs'

theorem runIn_ok (h : Closed succ nodes) : runIn succ nodes = .ok (run (edgesOf succ) nodes) := by
  unfold runIn run
  rw [h.visitsIn nodes (fun _ hr => hr) init_settled within_init]
  rfl

/-! ## Entered when pushed -/

theorem Closed.stepEagerIn (h : Closed succ nodes) {s : St α} (hw : ∀ e ∈ s.work, e.1 ∈ nodes) :
    stepEagerIn succ s = .ok (stepEager (edgesOf succ) s) := by
  unfold Tarjan.stepEagerIn stepEager
  cases hwork : s.work with
  | nil => rfl
  | cons e rest =>
    obtain ⟨v, pos⟩ := e
    have hv : v ∈ nodes := hw (v, pos) (by rw [hwork]; exact List.mem_cons_self)
    simp only [advanceEagerIn, advanceEager]
    cases hedge : (edgesOf succ v)[pos]? with
    | none => rfl
    | some w =>
      simp only [h.lookUp (h.edges v hv w (List.mem_of_getElem? hedge))]
      cases s.index w with
      | none => rfl
      | some i => rfl

/-- The work of the two searches is one, so the one's bounds are the other's. -/
theorem Closed.loopEagerIn (h : Closed succ nodes) (n : Nat) {s : St α} (hu : Under s) (hs : Within (edgesOf succ) nodes s) :
    loopEagerIn succ n (entered s) = .ok (loopEager (edgesOf succ) n (entered s)) := by
  induction n generalizing s with
  | zero => rfl
  | succ n ih =>
    unfold Tarjan.loopEagerIn loopEager
    split
    · rfl
    · rw [h.stepEagerIn (by rw [entered_work]; exact hs.work_mem)]
      obtain ⟨hu', hstep⟩ := @under_step _ _ (edgesOf succ) s hu
      rw [← hstep]
      exact ih hu' (step_within h.edges hs)

theorem Closed.visitsEagerIn (h : Closed succ nodes) (roots : List α) {s : St α} (hr : ∀ r ∈ roots, r ∈ nodes)
    (hset : Settled (edgesOf succ) s) (hs : Within (edgesOf succ) nodes s) :
    visitsEagerIn succ (scans (edgesOf succ) nodes) roots s =
      .ok (roots.foldl (visit (edgesOf succ) (scans (edgesOf succ) nodes)) s) := by
  induction roots generalizing s with
  | nil => rfl
  | cons r roots ih =>
    have hr0 := hr r List.mem_cons_self
    have hvisit : visitEagerIn succ (scans (edgesOf succ) nodes) s r =
        .ok (visit (edgesOf succ) (scans (edgesOf succ) nodes) s r) := by
      rw [← visitEager_eq h.edges hr0 hset hs]
      unfold visitEagerIn visitEager
      split
      · rfl
      · rw [h.lookUp hr0]
        have hund : Under { s with work := [(r, 0)] } := fun e he => absurd he List.not_mem_nil
        exact h.loopEagerIn _ hund (hs.root hr0)
    obtain ⟨hset', hs', -⟩ := visit_settled h.edges hr0 hset hs
    unfold Tarjan.visitsEagerIn
    rw [hvisit]
    exact ih (fun x hx => hr x (List.mem_cons_of_mem _ hx)) hset' hs'

theorem runEagerIn_ok (h : Closed succ nodes) : runEagerIn succ nodes = .ok (run (edgesOf succ) nodes) := by
  unfold runEagerIn run
  rw [h.visitsEagerIn nodes (fun _ hr => hr) init_settled within_init]
  rfl

end Closed

end OwnNet.Graph.Tarjan
