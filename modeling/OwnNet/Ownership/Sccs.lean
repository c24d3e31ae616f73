/-
  OwnNet.Ownership.Sccs — `_sccs`, of the ownership solver and of the heap effects: Tarjan's
  search over a dictionary of callees.

  Both solvers leave a callee without a record out of the graph they search. A graph with an edge
  to a node it has no entry for ends in a `KeyError`.

  Proved: `sccs_components`.
-/

import OwnNet.Graph.Lookups
import OwnNet.HeapEffects.Runs
import OwnNet.Ownership.Canonical

namespace OwnNet.HeapEffects

open Graph.Tarjan

/-- `_sccs(keys, edges)` -/
def sccsOf (keys : List String) (edges : List (String × List String)) : Except String (List (List String)) :=
  List.map sortKeys <$> runIn (fun k => edges.lookup k) keys

/-- `edges`, as `solve` builds it. -/
def edgeTable (ms : List (Method Tok)) : List (String × List String) := (keys ms).map fun k => (k, callees ms k)

end OwnNet.HeapEffects

namespace OwnNet.Ownership

open Graph Graph.Tarjan

/-- `_sccs(adj)`; what a node leads to is a set. -/
def sccsOf (adj : List (String × List String)) : Except String (List (List String)) :=
  runEagerIn (fun k => (adj.lookup k).map fun ws => ws.dedup.insertionSort (· ≤ ·)) (adj.map Prod.fst)

/-- `_call_graph(sk)` -/
def adjacency (sk : List MethodSkeleton) : List (String × List String) := (keys sk).map fun k => (k, callGraph sk k)

/-! ## Lookups -/

theorem lookup_of_mem {adj : List (String × List String)} {k : String} (h : k ∈ adj.map Prod.fst) :
    ∃ ws, adj.lookup k = some ws ∧ (k, ws) ∈ adj := by
  induction adj with
  | nil => cases h
  | cons e rest ih =>
    obtain ⟨k', ws⟩ := e
    by_cases hk : k = k'
    · subst hk
      exact ⟨ws, by simp, List.mem_cons_self⟩
    · have hrest : k ∈ rest.map Prod.fst := by simpa [hk] using h
      obtain ⟨ws', hlook, hmem⟩ := ih hrest
      refine ⟨ws', ?_, List.mem_cons_of_mem _ hmem⟩
      rw [List.lookup_cons, beq_eq_false_iff_ne.mpr hk]
      exact hlook

theorem lookup_table {nodes : List String} {f : String → List String} {k : String} (h : k ∈ nodes) :
    (nodes.map fun k => (k, f k)).lookup k = some (f k) := by
  have hkey : k ∈ (nodes.map fun k => (k, f k)).map Prod.fst := by simpa using h
  obtain ⟨ws, hlook, hmem⟩ := lookup_of_mem hkey
  obtain ⟨k', -, heq⟩ := List.mem_map.mp hmem
  cases heq
  exact hlook

/-- What a dictionary of edges has for a node. -/
def successors (edges : List (String × List String)) (k : String) : List String := (edges.lookup k).getD []

/-- Every node has an entry, and every edge leads to a node. -/
def WithinItself (nodes : List String) (edges : List (String × List String)) : Prop :=
  ∀ k ∈ nodes, ∃ ws, edges.lookup k = some ws ∧ ∀ w ∈ ws, w ∈ nodes

theorem WithinItself.closed {nodes : List String} {edges : List (String × List String)} (h : WithinItself nodes edges)
    {f : List String → List String} (hf : ∀ ws, ∀ w ∈ f ws, w ∈ ws) : Closed (fun k => (edges.lookup k).map f) nodes where
  found := fun k hk => by
    obtain ⟨ws, hws, -⟩ := h k hk
    simp [hws]
  edges := fun k hk w hw => by
    obtain ⟨ws, hws, hin⟩ := h k hk
    simp only [edgesOf, hws, Option.map_some, Option.getD_some] at hw
    exact hin w (hf ws w hw)

/-- The same edges in another order, or with repeats dropped, have the same components. -/
theorem components_congr {edges edges' : String → List String} {nodes : List String} {out : List (List String)}
    (h : Components edges nodes out) (he : ∀ k w, w ∈ edges' k ↔ w ∈ edges k) : Components edges' nodes out := by
  have hr : ∀ x y, Reaches edges' x y ↔ Reaches edges x y := fun x y => by
    unfold Reaches
    simp only [he]
  refine ⟨h.nonempty, h.disjoint, h.covers, fun c hc x hx y => ?_, fun pre c post hs x hx w hw => ?_⟩
  · rw [h.strong c hc x hx y, hr, hr]
  · exact h.calleesFirst pre c post hs x hx w ((he x w).mp hw)

theorem mem_sorted (ws : List String) (w : String) : w ∈ ws.dedup.insertionSort (· ≤ ·) ↔ w ∈ ws := by
  rw [List.mem_insertionSort, List.mem_dedup]

theorem adjacency_within (sk : List MethodSkeleton) : WithinItself (keys sk) (adjacency sk) := fun k hk =>
  ⟨callGraph sk k, lookup_table hk, callGraph_keys k hk⟩

theorem edgeTable_within (ms : List (HeapEffects.Method HeapEffects.Tok)) :
    WithinItself (HeapEffects.keys ms) (HeapEffects.edgeTable ms) := fun k hk =>
  ⟨HeapEffects.callees ms k, lookup_table hk, HeapEffects.callees_keys k hk⟩

/-! ## The components -/

/-- On a graph whose edges lead to its own nodes both searches return its strongly connected
    components, every one after those it calls into; the graphs of both solvers are such graphs,
    whatever the methods call. -/
theorem sccs_components :
    (∀ adj : List (String × List String), WithinItself (adj.map Prod.fst) adj →
      ∃ out, sccsOf adj = .ok out ∧ Components (successors adj) (adj.map Prod.fst) out) ∧
    (∀ (nodes : List String) (edges : List (String × List String)), WithinItself nodes edges →
      ∃ out, HeapEffects.sccsOf nodes edges = .ok out ∧ Components (successors edges) nodes out) ∧
    (∀ sk : List MethodSkeleton, WithinItself ((adjacency sk).map Prod.fst) (adjacency sk)) ∧
    ∀ ms : List (HeapEffects.Method HeapEffects.Tok), WithinItself (HeapEffects.keys ms) (HeapEffects.edgeTable ms) := by
  refine ⟨fun adj h => ?_, fun nodes edges h => ?_, fun sk => ?_, edgeTable_within⟩
  · have hc := h.closed (f := fun ws => ws.dedup.insertionSort (· ≤ ·)) fun ws w hw => (mem_sorted ws w).mp hw
    refine ⟨_, runEagerIn_ok hc, components_congr (run_components hc.edges) fun k w => ?_⟩
    simp only [successors, edgesOf]
    cases adj.lookup k with
    | none => exact Iff.rfl
    | some ws => exact (mem_sorted ws w).symm
  · have hc : Closed (fun k => edges.lookup k) nodes := by
      simpa using h.closed (f := id) fun _ _ hw => hw
    refine ⟨(run (successors edges) nodes).map HeapEffects.sortKeys, ?_, ?_⟩
    · unfold HeapEffects.sccsOf
      rw [runIn_ok hc]
      rfl
    · exact (run_components hc.edges).reorder fun c => List.perm_insertionSort _ c
  · have hkeys : (adjacency sk).map Prod.fst = keys sk := by
      unfold adjacency
      rw [List.map_map]
      exact List.map_id _
    rw [hkeys]
    exact adjacency_within sk

/-- A method that calls itself and one it is called back from, and one they both call. -/
theorem sccs_components_three :
    WithinItself ["a", "b", "c"] [("a", ["a", "b"]), ("b", ["a", "c"]), ("c", [])] ∧
    (∃ out, sccsOf [("a", ["a", "b"]), ("b", ["a", "c"]), ("c", [])] = .ok out ∧
      Components (successors [("a", ["a", "b"]), ("b", ["a", "c"]), ("c", [])]) ["a", "b", "c"] out) ∧
    ∃ out, HeapEffects.sccsOf ["a", "b", "c"] [("a", ["a", "b"]), ("b", ["a", "c"]), ("c", [])] = .ok out ∧
      Components (successors [("a", ["a", "b"]), ("b", ["a", "c"]), ("c", [])]) ["a", "b", "c"] out := by
  have hw : WithinItself ["a", "b", "c"] [("a", ["a", "b"]), ("b", ["a", "c"]), ("c", [])] := by
    intro k hk
    simp only [List.mem_cons, List.not_mem_nil, or_false] at hk
    rcases hk with rfl | rfl | rfl
    · exact ⟨["a", "b"], by decide, by simp⟩
    · exact ⟨["a", "c"], by decide, by simp⟩
    · exact ⟨[], by decide, by simp⟩
  exact ⟨hw, sccs_components.1 _ hw, sccs_components.2.1 _ _ hw⟩

/-- An edge to a node the graph has no entry for is looked up all the same. -/
theorem outside_callee_raises :
    (¬ ∀ adj : List (String × List String), (adj.map Prod.fst).Nodup →
      ∃ out, sccsOf adj = .ok out ∧ Components (successors adj) (adj.map Prod.fst) out) ∧
    ¬ ∀ edges : List (String × List String), (edges.map Prod.fst).Nodup →
      ∃ out, HeapEffects.sccsOf (edges.map Prod.fst) edges = .ok out ∧ Components (successors edges)
          (edges.map Prod.fst) out := by
  refine ⟨fun h => ?_, fun h => ?_⟩
  · obtain ⟨out, hout, -⟩ := h [("a", ["b"])] (by decide)
    have herr : sccsOf [("a", ["b"])] = .error "b" := by decide
    rw [herr] at hout
    cases hout
  · obtain ⟨out, hout, -⟩ := h [("a", ["b"])] (by decide)
    have herr : HeapEffects.sccsOf ["a"] [("a", ["b"])] = .error "b" := by decide
    exact absurd (herr.symm.trans hout) (by simp)

end OwnNet.Ownership
