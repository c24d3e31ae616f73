/-
  OwnNet.Graph.Trails — searches that carry the path they came by, over any node type.

  A trail runs from a start through one of its entry edges and on along `succ`, every node
  it passes satisfying `follow`; what a search looks for is a trail's end satisfying `hit`.
  Three loops over an explicit stack (its top the head of the list):
  - `edgeSearch` tests a node on the edge into it and marks it when it is pushed;
  - `popSearch` tests it when it is popped and marks it when it is expanded;
  - `firstHit` is `popSearch` ended by its first hit.
  Each is bounded by fuel and returns nothing when the fuel runs out.

  Proved, for each: with enough fuel it returns, what it finds are ends of trails, found
  with their path, and every end of a trail is found, once (`edgeSearch_exact`,
  `popSearch_exact`, `firstHit_exact`). `leads_replace`: what trails lead to once one node's
  edges are replaced.
-/

import OwnNet.Graph.Search

namespace OwnNet.Graph

set_option linter.unusedSectionVars false

variable {α : Type} [DecidableEq α]

/-- A path from `a` over one of `first` and on along `succ`, its inner nodes satisfying `follow`. -/
inductive Trail (succ : α → List α) (follow : α → Bool) (first : List α) (a : α) : List α → α → Prop
  | entry {c : α} : c ∈ first → Trail succ follow first a [a, c] c
  | step {p : List α} {b c : α} : Trail succ follow first a p b → follow b = true → c ∈ succ b →
      Trail succ follow first a (p ++ [c]) c

structure Tour (α : Type) where
  stack : List (α × List α)
  reported : List α
  visited : List α
  found : List (α × List α)

/-- Report `c`, unless it is reported. -/
def Tour.note (t : Tour α) (c : α) (path : List α) : Tour α :=
  if c ∈ t.reported then t else { t with reported := c :: t.reported, found := t.found ++ [(c, path)] }

variable (succ : α → List α) (hit follow : α → Bool)

def Tour.test (t : Tour α) (c : α) (path : List α) : Tour α := if hit c then t.note c path else t

def Tour.push (t : Tour α) (c : α) (path : List α) : Tour α :=
  if follow c && c ∉ t.visited then { t with visited := c :: t.visited, stack := (c, path) :: t.stack } else t

/-- One edge out of the node reached by `path`. -/
def glance (path : List α) (t : Tour α) (d : α) : Tour α := (t.test hit d (path ++ [d])).push follow d (path ++ [d])

def edgeSearch : Nat → Tour α → Option (List (α × List α))
  | 0, _ => none
  | n + 1, t =>
    match t.stack with
    | [] => some t.found
    | (cur, path) :: rest => edgeSearch n ((succ cur).foldl (glance hit follow path) { t with stack := rest })

/-- The entries a path leads on to, the last pushed on top. -/
def onward (path : List α) (ds : List α) : List (α × List α) := (ds.map fun d => (d, path ++ [d])).reverse

def expand (cur : α) (path : List α) (t : Tour α) : Tour α :=
  if follow cur && cur ∉ t.visited then
    { t with visited := cur :: t.visited, stack := onward path (succ cur) ++ t.stack }
  else t

def popSearch : Nat → Tour α → Option (List (α × List α))
  | 0, _ => none
  | n + 1, t =>
    match t.stack with
    | [] => some t.found
    | (cur, path) :: rest =>
      let t := { t with stack := rest }
      popSearch n (expand succ follow cur path (t.test hit cur path))

def firstHit : Nat → List (α × List α) → List α → Option (Option (α × List α))
  | 0, _, _ => none
  | n + 1, stack, visited =>
    match stack with
    | [] => some none
    | (cur, path) :: rest =>
      if hit cur then some (some (cur, path))
      else if follow cur && cur ∉ visited then firstHit n (onward path (succ cur) ++ rest) (cur :: visited)
      else firstHit n rest visited

/-! ## Reports -/

/-- The reports made are those found, each once. -/
structure Tour.Kept (t : Tour α) : Prop where
  mem : ∀ c, c ∈ t.reported ↔ c ∈ t.found.map Prod.fst
  nodup : (t.found.map Prod.fst).Nodup

/-- What is to be known of a node some expanded node leads to. -/
def Tour.Met (t : Tour α) (d : α) : Prop := (hit d = true → d ∈ t.reported) ∧ (follow d = true → d ∈ t.visited)

variable {succ hit follow}

@[simp] theorem test_stack (t : Tour α) (c : α) (p : List α) : (t.test hit c p).stack = t.stack := by
  unfold Tour.test Tour.note; split <;> (try split) <;> rfl

@[simp] theorem test_visited (t : Tour α) (c : α) (p : List α) : (t.test hit c p).visited = t.visited := by
  unfold Tour.test Tour.note; split <;> (try split) <;> rfl

theorem mem_test_reported (t : Tour α) (c x : α) (p : List α) :
    x ∈ (t.test hit c p).reported ↔ x ∈ t.reported ∨ (x = c ∧ hit c = true) := by
  unfold Tour.test
  split
  next hc =>
    unfold Tour.note
    split
    next h => exact ⟨Or.inl, fun hx => hx.elim id fun e => e.1 ▸ h⟩
    next => simp [hc, or_comm]
  next hc => simp [hc]

theorem mem_test_found {t : Tour α} {c : α} {p : List α} {e : α × List α} (h : e ∈ (t.test hit c p).found) :
    e ∈ t.found ∨ (e = (c, p) ∧ hit c = true) := by
  unfold Tour.test at h
  split at h
  next hc =>
    unfold Tour.note at h
    split at h
    next => exact Or.inl h
    next =>
      rcases List.mem_append.mp h with h | h
      · exact Or.inl h
      · exact Or.inr ⟨List.mem_singleton.mp h, hc⟩
  next => exact Or.inl h

theorem Tour.Kept.test {t : Tour α} (h : t.Kept) (c : α) (p : List α) : (t.test hit c p).Kept := by
  unfold Tour.test Tour.note
  split
  next =>
    split
    next => exact h
    next hc =>
      refine ⟨fun x => ?_, ?_⟩
      · show x ∈ c :: t.reported ↔ x ∈ (t.found ++ [(c, p)]).map Prod.fst
        rw [List.map_append, List.mem_append, List.mem_cons, h.mem x]
        simp [or_comm]
      · show ((t.found ++ [(c, p)]).map Prod.fst).Nodup
        rw [List.map_append, List.nodup_append]
        refine ⟨h.nodup, List.pairwise_singleton _ _, ?_⟩
        intro x hx y hy e
        have hy : y = c := List.mem_singleton.mp hy
        exact hc ((h.mem c).mpr (hy ▸ e ▸ hx))
  next => exact h

/-! ## Tested on the edge -/

section Edge

variable (succ hit follow) in
/-- `edgeSearch`'s invariant, `a` the start. -/
structure Tour.Edging (a : α) (t : Tour α) : Prop extends t.Kept where
  path : ∀ e ∈ t.stack, e = (a, [a]) ∨ (follow e.1 = true ∧ Trail succ follow (succ a) a e.2 e.1)
  found_path : ∀ e ∈ t.found, hit e.1 = true ∧ Trail succ follow (succ a) a e.2 e.1
  closed : ∀ u, u = a ∨ u ∈ t.visited → u ∈ t.stack.map Prod.fst ∨ ∀ d ∈ succ u, t.Met hit follow d

variable {a : α}

theorem Tour.Edging.trail {t : Tour α} (h : t.Edging succ hit follow a) {e : α × List α} (he : e ∈ t.stack) {d : α}
    (hd : d ∈ succ e.1) : Trail succ follow (succ a) a (e.2 ++ [d]) d := by
  rcases h.path e he with rfl | ⟨hf, ht⟩
  · exact .entry hd
  · exact .step ht hf hd

/-- The invariant while the edges of the popped `cur` are glanced at, those in `rest` still to come. -/
structure Tour.Glancing (succ : α → List α) (hit follow : α → Bool) (a cur : α) (rest : List α) (t : Tour α) : Prop
    extends t.Kept where
  path : ∀ e ∈ t.stack, e = (a, [a]) ∨ (follow e.1 = true ∧ Trail succ follow (succ a) a e.2 e.1)
  found_path : ∀ e ∈ t.found, hit e.1 = true ∧ Trail succ follow (succ a) a e.2 e.1
  closed : ∀ u, u = a ∨ u ∈ t.visited →
    u ∈ t.stack.map Prod.fst ∨ ∀ d ∈ succ u, (u = cur ∧ d ∈ rest) ∨ t.Met hit follow d

theorem glance_stack (path : List α) (t : Tour α) (d : α) :
    (glance hit follow path t d).stack = t.stack ∧ (glance hit follow path t d).visited = t.visited ∧
        (follow d = true → d ∈ t.visited) ∨
      follow d = true ∧ d ∉ t.visited ∧ (glance hit follow path t d).stack = (d, path ++ [d]) :: t.stack ∧
        (glance hit follow path t d).visited = d :: t.visited := by
  unfold glance Tour.push
  split
  next h =>
    rw [Bool.and_eq_true, decide_eq_true_eq, test_visited] at h
    exact Or.inr ⟨h.1, h.2, by simp, by simp⟩
  next h =>
    rw [Bool.and_eq_true, decide_eq_true_eq, test_visited, not_and, not_not] at h
    exact Or.inl ⟨test_stack t d _, test_visited t d _, h⟩

theorem glance_reported (path : List α) (t : Tour α) (d : α) :
    (glance hit follow path t d).reported = (t.test hit d (path ++ [d])).reported := by
  unfold glance Tour.push; split <;> rfl

theorem glance_found (path : List α) (t : Tour α) (d : α) :
    (glance hit follow path t d).found = (t.test hit d (path ++ [d])).found := by
  unfold glance Tour.push; split <;> rfl

theorem glance_kept {t : Tour α} (h : t.Kept) (path : List α) (d : α) : (glance hit follow path t d).Kept := by
  have ht := @Tour.Kept.test _ _ hit _ h d (path ++ [d])
  exact ⟨by rw [glance_reported, glance_found]; exact ht.mem, by rw [glance_found]; exact ht.nodup⟩

theorem glance_met {t : Tour α} {path : List α} {d x : α} (h : t.Met hit follow x ∨ x = d) :
    (glance hit follow path t d).Met hit follow x := by
  have hr : x ∈ (glance hit follow path t d).reported ↔ x ∈ t.reported ∨ (x = d ∧ hit d = true) := by
    rw [glance_reported]; exact mem_test_reported t d x _
  rcases @glance_stack _ _ hit follow path t d with ⟨-, hv, hd⟩ | ⟨-, -, -, hv⟩
  · rcases h with h | rfl
    · exact ⟨fun hx => hr.mpr (Or.inl (h.1 hx)), fun hx => hv ▸ h.2 hx⟩
    · exact ⟨fun hx => hr.mpr (Or.inr ⟨rfl, hx⟩), fun hx => hv ▸ hd hx⟩
  · rcases h with h | rfl
    · exact ⟨fun hx => hr.mpr (Or.inl (h.1 hx)), fun hx => hv ▸ List.mem_cons_of_mem _ (h.2 hx)⟩
    · exact ⟨fun hx => hr.mpr (Or.inr ⟨rfl, hx⟩), fun _ => hv ▸ List.mem_cons_self⟩

theorem Tour.Glancing.glance {cur d : α} {rest path : List α} {t : Tour α}
    (h : t.Glancing succ hit follow a cur (d :: rest)) (hd : Trail succ follow (succ a) a (path ++ [d]) d) :
    (glance hit follow path t d).Glancing succ hit follow a cur rest := by
  refine ⟨glance_kept h.toKept path d, ?_, ?_, ?_⟩
  · intro e he
    rcases @glance_stack _ _ hit follow path t d with ⟨hs, -, -⟩ | ⟨hf, -, hs, -⟩
    · exact h.path e (hs ▸ he)
    · rw [hs] at he
      rcases List.mem_cons.mp he with rfl | he
      · exact Or.inr ⟨hf, hd⟩
      · exact h.path e he
  · intro e he
    rw [glance_found] at he
    rcases mem_test_found he with he | ⟨rfl, hh⟩
    · exact h.found_path e he
    · exact ⟨hh, hd⟩
  · intro u hu
    have hold : (u = a ∨ u ∈ t.visited) ∨ u ∈ (OwnNet.Graph.glance hit follow path t d).stack.map Prod.fst := by
      rcases @glance_stack _ _ hit follow path t d with ⟨-, hv, -⟩ | ⟨-, -, hs, hv⟩
      · exact Or.inl (hv ▸ hu)
      · rw [hv] at hu
        rcases hu with hu | hu
        · exact Or.inl (Or.inl hu)
        · rcases List.mem_cons.mp hu with rfl | hu
          · exact Or.inr (by rw [hs]; exact List.mem_cons_self)
          · exact Or.inl (Or.inr hu)
    rcases hold with hold | hnew
    · rcases h.closed u hold with hst | hcl
      · refine Or.inl ?_
        rcases @glance_stack _ _ hit follow path t d with ⟨hs, -, -⟩ | ⟨-, -, hs, -⟩
        · rw [hs]; exact hst
        · rw [hs]; exact List.mem_cons_of_mem _ hst
      · refine Or.inr fun x hx => ?_
        rcases hcl x hx with ⟨hu, hx⟩ | hx
        · rcases List.mem_cons.mp hx with rfl | hx
          · exact Or.inr (glance_met (Or.inr rfl))
          · exact Or.inl ⟨hu, hx⟩
        · exact Or.inr (glance_met (Or.inl hx))
    · exact Or.inl hnew

theorem glances_glancing {cur : α} {path : List α} :
    ∀ (ds : List α) (t : Tour α), t.Glancing succ hit follow a cur ds →
      (∀ d ∈ ds, Trail succ follow (succ a) a (path ++ [d]) d) →
      (ds.foldl (glance hit follow path) t).Glancing succ hit follow a cur [] := by
  intro ds
  induction ds with
  | nil => exact fun t h _ => h
  | cons d ds ih =>
    intro t h hd
    exact ih _ (h.glance (hd d List.mem_cons_self)) fun x hx => hd x (List.mem_cons_of_mem _ hx)

theorem Tour.Edging.pop {t : Tour α} {cur : α} {path : List α} {rest : List (α × List α)}
    (h : t.Edging succ hit follow a) (hs : t.stack = (cur, path) :: rest) :
    ((succ cur).foldl (glance hit follow path) { t with stack := rest }).Edging succ hit follow a := by
  have htop : (cur, path) ∈ t.stack := by rw [hs]; exact List.mem_cons_self
  have hg : Tour.Glancing succ hit follow a cur (succ cur) { t with stack := rest } := by
    refine ⟨⟨h.mem, h.nodup⟩, fun e he => h.path e (by rw [hs]; exact List.mem_cons_of_mem _ he), h.found_path, ?_⟩
    intro u hu
    by_cases e : u = cur
    · subst e
      exact Or.inr fun d hd => Or.inl ⟨rfl, hd⟩
    · rcases h.closed u hu with hst | hcl
      · rw [hs, List.map_cons] at hst
        rcases List.mem_cons.mp hst with hst | hst
        · exact absurd hst e
        · exact Or.inl hst
      · exact Or.inr fun d hd => Or.inr (hcl d hd)
  have hend := @glances_glancing _ _ _ _ _ _ _ path (succ cur) _ hg fun d hd => h.trail htop hd
  refine ⟨hend.toKept, hend.path, hend.found_path, fun u hu => ?_⟩
  refine (hend.closed u hu).imp_right fun hcl d hd => ?_
  rcases hcl d hd with ⟨-, hn⟩ | hm
  · cases hn
  · exact hm

/-- The pops still to come, `univ` listing the nodes that may be pushed. -/
def Tour.left (univ : List α) (t : Tour α) : Nat := t.stack.length + pushes (fun u => [u]) univ t.visited

theorem glance_left {univ : List α} (hu : ∀ u, follow u = true → u ∈ univ) (path : List α) (t : Tour α) (d : α) :
    (glance hit follow path t d).left univ ≤ t.left univ := by
  unfold Tour.left
  rcases @glance_stack _ _ hit follow path t d with ⟨hs, hv, -⟩ | ⟨hf, hn, hs, hv⟩
  · exact Nat.le_of_eq (by rw [hs, hv])
  · have := pushes_cons_lt (fun u => [u]) (hu d hf) hn
    rw [hs, hv]
    simp only [List.length_cons, List.length_nil] at this ⊢
    omega

theorem glances_left {univ : List α} (hu : ∀ u, follow u = true → u ∈ univ) (path : List α) :
    ∀ (ds : List α) (t : Tour α), (ds.foldl (glance hit follow path) t).left univ ≤ t.left univ := by
  intro ds
  induction ds with
  | nil => exact fun t => Nat.le_refl _
  | cons d ds ih => exact fun t => Nat.le_trans (ih _) (glance_left hu path t d)

/-- Everything a trail leads to is met once nothing is left on the stack. -/
theorem Tour.Edging.met {t : Tour α} (h : t.Edging succ hit follow a) (hs : t.stack = []) {p : List α} {c : α}
    (hc : Trail succ follow (succ a) a p c) : t.Met hit follow c := by
  have hall : ∀ u, u = a ∨ u ∈ t.visited → ∀ d ∈ succ u, t.Met hit follow d := by
    intro u hu
    rcases h.closed u hu with hst | hcl
    · rw [hs] at hst; cases hst
    · exact hcl
  induction hc with
  | entry hc => exact hall a (Or.inl rfl) _ hc
  | step _ hb hc ih => exact hall _ (Or.inr (ih.2 hb)) _ hc

theorem edgeSearch_settled {univ : List α} (hu : ∀ u, follow u = true → u ∈ univ) :
    ∀ (n : Nat) (t : Tour α), t.Edging succ hit follow a → t.left univ < n →
      ∃ t' : Tour α, edgeSearch succ hit follow n t = some t'.found ∧ t'.Edging succ hit follow a ∧ t'.stack = [] := by
  intro n
  induction n with
  | zero => intro t _ hn; omega
  | succ n ih =>
    intro t h hn
    cases hs : t.stack with
    | nil => exact ⟨t, by simp only [edgeSearch, hs], h, hs⟩
    | cons e rest =>
      obtain ⟨cur, path⟩ := e
      have hlt : Tour.left univ { t with stack := rest } < t.left univ := by
        unfold Tour.left; rw [hs]; simp only [List.length_cons]; omega
      have hle := @glances_left _ _ hit _ _ hu path (succ cur) { t with stack := rest }
      obtain ⟨t', hrun, hend⟩ := ih _ (h.pop hs) (by omega)
      exact ⟨t', by simp only [edgeSearch, hs]; exact hrun, hend⟩

end Edge

/-- What a search with this many hits must have found. -/
structure Exact (hit : α → Bool) (trail : List α → α → Prop) (found : List (α × List α)) : Prop where
  sound : ∀ e ∈ found, hit e.1 = true ∧ trail e.2 e.1
  complete : ∀ p c, trail p c → hit c = true → c ∈ found.map Prod.fst
  once : (found.map Prod.fst).Nodup

/-- The search over edges from `a` returns, with the ends of the trails from `a`. -/
theorem edgeSearch_exact {univ : List α} (hu : ∀ u, follow u = true → u ∈ univ) (a : α) {n : Nat}
    (hn : (⟨[(a, [a])], [], [], []⟩ : Tour α).left univ < n) :
    ∃ found, edgeSearch succ hit follow n ⟨[(a, [a])], [], [], []⟩ = some found ∧
      Exact hit (Trail succ follow (succ a) a) found := by
  have h : Tour.Edging succ hit follow a ⟨[(a, [a])], [], [], []⟩ := by
    refine ⟨⟨fun c => Iff.rfl, List.nodup_nil⟩, fun e he => Or.inl (List.mem_singleton.mp he), ?_, ?_⟩
    · intro e he; cases he
    · rintro u (rfl | hu)
      · exact Or.inl List.mem_cons_self
      · cases hu
  obtain ⟨t, hrun, ht, hs⟩ := edgeSearch_settled hu n _ h hn
  exact ⟨t.found, hrun, ht.found_path, fun p c hp hc => (ht.mem c).mp ((ht.met hs hp).1 hc), ht.nodup⟩

/-! ## Tested when popped -/

section Pop

variable {a : α} {first : List α}

theorem onward_fst (path : List α) (ds : List α) : (onward path ds).map Prod.fst = ds.reverse := by
  simp [onward, List.map_reverse, List.map_map, Function.comp_def]

theorem mem_onward {path ds : List α} {e : α × List α} (h : e ∈ onward path ds) :
    e.1 ∈ ds ∧ e.2 = path ++ [e.1] := by
  unfold onward at h
  obtain ⟨d, hd, rfl⟩ := List.mem_map.mp (List.mem_reverse.mp h)
  exact ⟨hd, rfl⟩

/-- The stack a search over `first` starts with. -/
theorem onward_trail {e : α × List α} (h : e ∈ onward [a] first) : Trail succ follow first a e.2 e.1 := by
  obtain ⟨hm, hp⟩ := mem_onward h
  rw [hp]
  exact .entry hm

theorem onward_step {cur : α} {path : List α} {e : α × List α} (hc : Trail succ follow first a path cur)
    (hf : follow cur = true) (h : e ∈ onward path (succ cur)) : Trail succ follow first a e.2 e.1 := by
  obtain ⟨hm, hp⟩ := mem_onward h
  rw [hp]
  exact .step hc hf hm

/-- The pushes still owed: the stack's, and one for every edge out of a node not yet expanded. -/
def owing (succ : α → List α) (univ : List α) (stack : List (α × List α)) (visited : List α) : Nat :=
  stack.length + pushes succ univ visited

theorem owing_expand {univ : List α} (hu : ∀ u, follow u = true → u ∈ univ) {cur : α} {path : List α}
    {rest : List (α × List α)} {visited : List α} (hf : follow cur = true) (hv : cur ∉ visited) :
    owing succ univ (onward path (succ cur) ++ rest) (cur :: visited) ≤ owing succ univ rest visited := by
  have := pushes_cons_lt succ (hu cur hf) hv
  unfold owing onward
  simp only [List.length_append, List.length_reverse, List.length_map]
  omega

variable (succ hit follow) in
/-- `popSearch`'s invariant, `a` the start and `first` its entries. -/
structure Tour.Popping (first : List α) (a : α) (t : Tour α) : Prop extends t.Kept where
  path : ∀ e ∈ t.stack, Trail succ follow first a e.2 e.1
  found_path : ∀ e ∈ t.found, hit e.1 = true ∧ Trail succ follow first a e.2 e.1
  closed : ∀ d, d ∈ first ∨ (∃ u ∈ t.visited, d ∈ succ u) → d ∈ t.stack.map Prod.fst ∨ t.Met hit follow d

theorem Tour.Popping.pop {t : Tour α} {cur : α} {path : List α} {rest : List (α × List α)}
    (h : t.Popping succ hit follow first a) (hs : t.stack = (cur, path) :: rest) :
    (expand succ follow cur path (Tour.test hit { t with stack := rest } cur path)).Popping succ hit follow first a := by
  have htrail : Trail succ follow first a path cur := h.path (cur, path) (by rw [hs]; exact List.mem_cons_self)
  have hrest : ∀ e ∈ rest, Trail succ follow first a e.2 e.1 := fun e he =>
    h.path e (by rw [hs]; exact List.mem_cons_of_mem _ he)
  generalize ht : Tour.test hit { t with stack := rest } cur path = t'
  have hstack : t'.stack = rest := by rw [← ht]; exact test_stack _ _ _
  have hvisited : t'.visited = t.visited := by rw [← ht]; exact test_visited _ _ _
  have hreported : ∀ x, x ∈ t'.reported ↔ x ∈ t.reported ∨ (x = cur ∧ hit cur = true) := by
    intro x; rw [← ht]; exact mem_test_reported _ _ _ _
  have hkept : t'.Kept := by
    rw [← ht]
    exact Tour.Kept.test (t := { t with stack := rest }) ⟨h.mem, h.nodup⟩ cur path
  have hfound : ∀ e ∈ t'.found, hit e.1 = true ∧ Trail succ follow first a e.2 e.1 := by
    intro e he
    rw [← ht] at he
    rcases mem_test_found he with he | ⟨rfl, hh⟩
    · exact h.found_path e he
    · exact ⟨hh, htrail⟩
  have hclosed : ∀ d, d ∈ first ∨ (∃ u ∈ t.visited, d ∈ succ u) → d = cur ∨ d ∈ rest.map Prod.fst ∨ t.Met hit follow d := by
    intro d hd
    rcases h.closed d hd with hst | hm
    · rw [hs, List.map_cons] at hst
      rcases List.mem_cons.mp hst with hst | hst
      · exact Or.inl hst
      · exact Or.inr (Or.inl hst)
    · exact Or.inr (Or.inr hm)
  unfold expand
  split
  next hf =>
    rw [Bool.and_eq_true, decide_eq_true_eq] at hf
    refine ⟨⟨hkept.mem, hkept.nodup⟩, ?_, hfound, ?_⟩
    · intro e he
      rcases List.mem_append.mp he with he | he
      · exact onward_step htrail hf.1 he
      · exact hrest e (hstack ▸ he)
    · intro d hd
      show d ∈ (onward path (succ cur) ++ t'.stack).map Prod.fst ∨ _
      rw [List.map_append, List.mem_append, onward_fst, List.mem_reverse, hstack]
      have hsplit : d ∈ succ cur ∨ (d ∈ first ∨ ∃ u ∈ t.visited, d ∈ succ u) := by
        rcases hd with hd | ⟨u, hu, hd⟩
        · exact Or.inr (Or.inl hd)
        · rcases List.mem_cons.mp hu with rfl | hu
          · exact Or.inl hd
          · exact Or.inr (Or.inr ⟨u, hvisited ▸ hu, hd⟩)
      rcases hsplit with hd | hd
      · exact Or.inl (Or.inl hd)
      · rcases hclosed d hd with rfl | hd | hm
        · exact Or.inr ⟨fun hx => (hreported d).mpr (Or.inr ⟨rfl, hx⟩), fun _ => List.mem_cons_self⟩
        · exact Or.inl (Or.inr hd)
        · exact Or.inr ⟨fun hx => (hreported d).mpr (Or.inl (hm.1 hx)),
            fun hx => List.mem_cons_of_mem _ (hvisited ▸ hm.2 hx)⟩
  next hf =>
    rw [Bool.and_eq_true, decide_eq_true_eq, not_and, not_not, hvisited] at hf
    refine ⟨hkept, fun e he => hrest e (hstack ▸ he), hfound, fun d hd => ?_⟩
    rw [hvisited] at hd
    rcases hclosed d hd with rfl | hd | hm
    · exact Or.inr ⟨fun hx => (hreported d).mpr (Or.inr ⟨rfl, hx⟩), fun hx => hvisited ▸ hf hx⟩
    · exact Or.inl (hstack ▸ hd)
    · exact Or.inr ⟨fun hx => (hreported d).mpr (Or.inl (hm.1 hx)), fun hx => hvisited ▸ hm.2 hx⟩

theorem Tour.Popping.met {t : Tour α} (h : t.Popping succ hit follow first a) (hs : t.stack = []) {p : List α} {c : α}
    (hc : Trail succ follow first a p c) : t.Met hit follow c := by
  have hall : ∀ d, d ∈ first ∨ (∃ u ∈ t.visited, d ∈ succ u) → t.Met hit follow d := by
    intro d hd
    rcases h.closed d hd with hst | hm
    · rw [hs] at hst; cases hst
    · exact hm
  induction hc with
  | entry hc => exact hall _ (Or.inl hc)
  | step _ hb hc ih => exact hall _ (Or.inr ⟨_, ih.2 hb, hc⟩)

theorem expand_owing {univ : List α} (hu : ∀ u, follow u = true → u ∈ univ) (cur : α) (path : List α) (t : Tour α) :
    owing succ univ (expand succ follow cur path t).stack (expand succ follow cur path t).visited
      ≤ owing succ univ t.stack t.visited := by
  unfold expand
  split
  next hf =>
    rw [Bool.and_eq_true, decide_eq_true_eq] at hf
    exact owing_expand hu hf.1 hf.2
  next => exact Nat.le_refl _

theorem popSearch_settled {univ : List α} (hu : ∀ u, follow u = true → u ∈ univ) :
    ∀ (n : Nat) (t : Tour α), t.Popping succ hit follow first a → owing succ univ t.stack t.visited < n →
      ∃ t' : Tour α, popSearch succ hit follow n t = some t'.found ∧ t'.Popping succ hit follow first a ∧
        t'.stack = [] := by
  intro n
  induction n with
  | zero => intro t _ hn; omega
  | succ n ih =>
    intro t h hn
    cases hs : t.stack with
    | nil => exact ⟨t, by simp only [popSearch, hs], h, hs⟩
    | cons e rest =>
      obtain ⟨cur, path⟩ := e
      have hle : _ ≤ owing succ univ _ _ := expand_owing hu cur path (Tour.test hit { t with stack := rest } cur path)
      rw [test_stack, test_visited] at hle
      have hle : _ ≤ owing succ univ rest t.visited := hle
      have hlt : owing succ univ rest t.visited < owing succ univ t.stack t.visited := by
        unfold owing; rw [hs]; simp only [List.length_cons]; omega
      obtain ⟨t', hrun, hend⟩ := ih _ (h.pop hs) (by omega)
      exact ⟨t', by simp only [popSearch, hs]; exact hrun, hend⟩

/-- The search of popped nodes over `first` returns, with the ends of the trails over `first`. -/
theorem popSearch_exact {univ : List α} (hu : ∀ u, follow u = true → u ∈ univ) (first : List α) (a : α) {n : Nat}
    (hn : owing succ univ (onward [a] first) [] < n) :
    ∃ found, popSearch succ hit follow n ⟨onward [a] first, [], [], []⟩ = some found ∧
      Exact hit (Trail succ follow first a) found := by
  have h : Tour.Popping succ hit follow first a ⟨onward [a] first, [], [], []⟩ := by
    refine ⟨⟨fun c => Iff.rfl, List.nodup_nil⟩, fun e he => onward_trail he, ?_, ?_⟩
    · intro e he; cases he
    · rintro d (hd | ⟨u, hu, -⟩)
      · exact Or.inl (by rw [onward_fst]; exact List.mem_reverse.mpr hd)
      · cases hu
  obtain ⟨t, hrun, ht, hs⟩ := popSearch_settled hu n _ h hn
  exact ⟨t.found, hrun, ht.found_path, fun p c hp hc => (ht.mem c).mp ((ht.met hs hp).1 hc), ht.nodup⟩

/-! ## The first hit -/

/-- What ends a search for one hit: a trail's end, or that no trail ends in one. -/
def Outcome (hit : α → Bool) (trail : List α → α → Prop) : Option (α × List α) → Prop
  | some e => hit e.1 = true ∧ trail e.2 e.1
  | none => ∀ p c, trail p c → hit c = false

/-- `firstHit`'s invariant: what the popped nodes lead to is on the stack, or neither a hit nor to be followed. -/
structure Passing (succ : α → List α) (hit follow : α → Bool) (first : List α) (a : α) (stack : List (α × List α))
    (visited : List α) : Prop where
  path : ∀ e ∈ stack, Trail succ follow first a e.2 e.1
  closed : ∀ d, d ∈ first ∨ (∃ u ∈ visited, d ∈ succ u) →
    d ∈ stack.map Prod.fst ∨ (hit d = false ∧ (follow d = true → d ∈ visited))

theorem Passing.outcome {visited : List α} (h : Passing succ hit follow first a [] visited) :
    Outcome hit (Trail succ follow first a) none := by
  have hall : ∀ d, d ∈ first ∨ (∃ u ∈ visited, d ∈ succ u) → hit d = false ∧ (follow d = true → d ∈ visited) := by
    intro d hd
    rcases h.closed d hd with hst | hm
    · cases hst
    · exact hm
  intro p c hc
  have : hit c = false ∧ (follow c = true → c ∈ visited) := by
    induction hc with
    | entry hc => exact hall _ (Or.inl hc)
    | step _ hb hc ih => exact hall _ (Or.inr ⟨_, ih.2 hb, hc⟩)
  exact this.1

theorem Passing.expand {cur : α} {path : List α} {rest : List (α × List α)} {visited : List α}
    (h : Passing succ hit follow first a ((cur, path) :: rest) visited) (hh : hit cur = false)
    (hf : follow cur = true) :
    Passing succ hit follow first a (onward path (succ cur) ++ rest) (cur :: visited) := by
  have htrail := h.path _ List.mem_cons_self
  refine ⟨fun e he => ?_, fun d hd => ?_⟩
  · rcases List.mem_append.mp he with he | he
    · exact onward_step htrail hf he
    · exact h.path e (List.mem_cons_of_mem _ he)
  · rw [List.map_append, List.mem_append, onward_fst, List.mem_reverse]
    have hsplit : d ∈ succ cur ∨ (d ∈ first ∨ ∃ u ∈ visited, d ∈ succ u) := by
      rcases hd with hd | ⟨u, hu, hd⟩
      · exact Or.inr (Or.inl hd)
      · rcases List.mem_cons.mp hu with rfl | hu
        · exact Or.inl hd
        · exact Or.inr (Or.inr ⟨u, hu, hd⟩)
    rcases hsplit with hd | hd
    · exact Or.inl (Or.inl hd)
    · rcases h.closed d hd with hst | hm
      · rcases List.mem_cons.mp hst with rfl | hst
        · exact Or.inr ⟨hh, fun _ => List.mem_cons_self⟩
        · exact Or.inl (Or.inr hst)
      · exact Or.inr ⟨hm.1, fun hx => List.mem_cons_of_mem _ (hm.2 hx)⟩

theorem Passing.drop {cur : α} {path : List α} {rest : List (α × List α)} {visited : List α}
    (h : Passing succ hit follow first a ((cur, path) :: rest) visited) (hh : hit cur = false)
    (hf : follow cur = true → cur ∈ visited) : Passing succ hit follow first a rest visited := by
  refine ⟨fun e he => h.path e (List.mem_cons_of_mem _ he), fun d hd => ?_⟩
  rcases h.closed d hd with hst | hm
  · rcases List.mem_cons.mp hst with rfl | hst
    · exact Or.inr ⟨hh, hf⟩
    · exact Or.inl hst
  · exact Or.inr hm

theorem firstHit_settled {univ : List α} (hu : ∀ u, follow u = true → u ∈ univ) :
    ∀ (n : Nat) (stack : List (α × List α)) (visited : List α), Passing succ hit follow first a stack visited →
      owing succ univ stack visited < n →
      ∃ r, firstHit succ hit follow n stack visited = some r ∧ Outcome hit (Trail succ follow first a) r := by
  intro n
  induction n with
  | zero => intro stack visited _ hn; omega
  | succ n ih =>
    intro stack visited h hn
    cases stack with
    | nil => exact ⟨none, rfl, h.outcome⟩
    | cons e rest =>
      obtain ⟨cur, path⟩ := e
      have hlt : owing succ univ rest visited < owing succ univ ((cur, path) :: rest) visited := by
        unfold owing; simp only [List.length_cons]; omega
      unfold firstHit
      dsimp only
      by_cases hh : hit cur = true
      · rw [if_pos hh]
        exact ⟨_, rfl, hh, h.path _ List.mem_cons_self⟩
      · rw [if_neg hh]
        have hh : hit cur = false := by simpa using hh
        split
        next hf =>
          rw [Bool.and_eq_true, decide_eq_true_eq] at hf
          have hle := @owing_expand _ _ succ follow _ hu cur path rest visited hf.1 hf.2
          exact ih _ _ (h.expand hh hf.1) (by omega)
        next hf =>
          rw [Bool.and_eq_true, decide_eq_true_eq, not_and, not_not] at hf
          exact ih _ _ (h.drop hh hf) (by omega)

/-- The search for one hit over `first` returns; it finds one exactly if some trail ends in one. -/
theorem firstHit_exact {univ : List α} (hu : ∀ u, follow u = true → u ∈ univ) (first : List α) (a : α) {n : Nat}
    (hn : owing succ univ (onward [a] first) [] < n) :
    ∃ r, firstHit succ hit follow n (onward [a] first) [] = some r ∧ Outcome hit (Trail succ follow first a) r := by
  refine firstHit_settled hu n _ _ ⟨fun e he => onward_trail he, ?_⟩ hn
  rintro d (hd | ⟨u, hu, -⟩)
  · exact Or.inl (by rw [onward_fst]; exact List.mem_reverse.mpr hd)
  · cases hu

end Pop

/-! ## Reached, by whatever path -/

section Leads

/-- Some trail over `first` ends in `c`. -/
inductive Leads (succ : α → List α) (follow : α → Bool) (first : List α) : α → Prop
  | entry {c : α} : c ∈ first → Leads succ follow first c
  | step {b c : α} : Leads succ follow first b → follow b = true → c ∈ succ b → Leads succ follow first c

theorem leads_iff_trail (a : α) {first : List α} {c : α} :
    Leads succ follow first c ↔ ∃ p, Trail succ follow first a p c := by
  constructor
  · intro h
    induction h with
    | entry hc => exact ⟨_, .entry hc⟩
    | step _ hf hc ih =>
      obtain ⟨p, hp⟩ := ih
      exact ⟨_, .step hp hf hc⟩
  · rintro ⟨p, hp⟩
    induction hp with
    | entry hc => exact .entry hc
    | step _ hf hc ih => exact .step ih hf hc

theorem not_leads_nil {c : α} : ¬ Leads succ follow [] c := by
  intro h
  induction h with
  | entry hc => cases hc
  | step _ _ _ ih => exact ih

theorem Leads.mono {follow' : α → Bool} {succ' : α → List α} {first : List α}
    (h : ∀ u, follow u = true → follow' u = true ∧ succ' u = succ u) {c : α} (hc : Leads succ follow first c) :
    Leads succ' follow' first c := by
  induction hc with
  | entry hc => exact .entry hc
  | step _ hf hc ih => exact .step ih (h _ hf).1 ((h _ hf).2 ▸ hc)

/-- What `b`'s edges lead to is led to where `b` is and is followed. -/
theorem Leads.through {first : List α} {b c : α} (hb : Leads succ follow first b) (hf : follow b = true)
    (hc : Leads succ follow (succ b) c) : Leads succ follow first c := by
  induction hc with
  | entry hc => exact .step hb hf hc
  | step _ hf' hc ih => exact .step ih hf' hc

/-- Every node `follow` allows but `x`. -/
def around (follow : α → Bool) (x u : α) : Bool := follow u && u ≠ x

@[simp] theorem around_iff {x u : α} : around follow x u = true ↔ follow u = true ∧ u ≠ x := by simp [around]

/-- Another graph that differs at `x` only: its trails go around `x`, or to `x` and on from there around it. -/
theorem leads_replace {succ' : α → List α} {follow' : α → Bool} {x : α} (hs : ∀ u, u ≠ x → succ' u = succ u)
    (hf : ∀ u, u ≠ x → follow' u = follow u) (first : List α) (c : α) :
    Leads succ' follow' first c ↔ Leads succ (around follow x) first c ∨
      (follow' x = true ∧ Leads succ (around follow x) first x ∧ Leads succ (around follow x) (succ' x) c) := by
  have back : ∀ {first : List α} {c : α}, Leads succ (around follow x) first c → Leads succ' follow' first c :=
    fun h => h.mono fun u hu => by
      rw [around_iff] at hu
      exact ⟨(hf u hu.2).trans hu.1, hs u hu.2⟩
  constructor
  · intro h
    induction h with
    | entry hc => exact Or.inl (.entry hc)
    | @step b c _ hb hc ih =>
      by_cases e : b = x
      · subst e
        rcases ih with ih | ⟨-, ih, -⟩
        · exact Or.inr ⟨hb, ih, .entry hc⟩
        · exact Or.inr ⟨hb, ih, .entry hc⟩
      · have hb' : around follow x b = true := around_iff.mpr ⟨(hf b e).symm.trans hb, e⟩
        rw [hs b e] at hc
        rcases ih with ih | ⟨hx, ih, ihc⟩
        · exact Or.inl (.step ih hb' hc)
        · exact Or.inr ⟨hx, ih, .step ihc hb' hc⟩
  · rintro (h | ⟨hx, h, hc⟩)
    · exact back h
    · exact (back h).through hx (back hc)

end Leads

end OwnNet.Graph
