/-
  OwnNet.Retention.Walker — whether anything holds the instances of a type: a walk of a managed
  heap from its roots (audit/runtime/RetentionPath/Heap.cs, Program.cs).

  The walk goes over what the durable roots reach before a root of the other kinds, a stack frame
  or the finalizer queue, comes in, and stops early where every instance has been looked at. Each
  instance is then followed back to its root.

  Proved: `marks_exact`: an instance a durable root reaches is traced to one of these, over a
  shortest way; an instance in the reach of the other roots alone to one of those; no other
  instance is claimed. `census_exact`: so the two sides of the census are the instances they
  should be.
-/

import Mathlib.Data.Finset.Card
import Mathlib.Data.Set.Card
import OwnNet.Graph.Breadth

namespace OwnNet.Retention

open Graph (Walk Going Hangs Steps Reaches climb)

/-! ## The heap -/

/-- What holds a root's object; a kind without a name is a number. -/
inductive RootKind where
  | none
  | finalizerQueue
  | strongHandle
  | pinnedHandle
  | stack
  | refCountedHandle
  | asyncPinnedHandle
  | sizedRefHandle
  | other (n : Int)
  deriving DecidableEq, Repr

def isTransientRootKind : RootKind → Bool
  | .stack | .finalizerQueue => true
  | _ => false

/-- The heap by addresses, as its reader shows it. -/
structure Heap where
  /-- The objects, in the order they are enumerated. -/
  objects : List Nat
  roots : List (Nat × RootKind)
  isValid : Nat → Bool
  /-- The type of the object there, with its name. -/
  type : Nat → Option (Option String)
  references : Nat → List Nat
  referencesWithFields : Nat → List (Nat × Option String)
  valid_ne : ∀ a, isValid a = true → a ≠ 0
  valid_lt : ∀ a, isValid a = true → a < 2 ^ 64

namespace Heap

variable (heap : Heap)

def name (a : Nat) : Option String := (heap.type a).join

/-- The objects that the object refers to, as the walk follows them. -/
def children (a : Nat) : List Nat :=
  if heap.isValid a = false ∨ heap.type a = none then [] else (heap.references a).filter fun c => heap.isValid c

/-- An object held by a root, of one side of the split. -/
def Root (transient : Bool) (a : Nat) : Prop :=
  heap.isValid a = true ∧ ∃ k, (a, k) ∈ heap.roots ∧ isTransientRootKind k = transient

/-- In reach of a durable root. -/
def Durable (a : Nat) : Prop := ∃ r, heap.Root false r ∧ Reaches heap.children r a

/-- In reach of a root. -/
def Live (a : Nat) : Prop := ∃ transient r, heap.Root transient r ∧ Reaches heap.children r a

end Heap

/-- The type's own name, or its name without its arguments, or also without its namespace. -/
def isType (heapType wanted : String) : Bool :=
  let bare := heapType.toList.takeWhile (· ≠ '<')
  let simple := (bare.reverse.takeWhile (· ≠ '.')).reverse
  heapType = wanted ∨ bare = wanted.toList ∨ simple = wanted.toList

namespace Heap

variable (heap : Heap) (typeName : String)

def isInstance (a : Nat) : Bool :=
  heap.isValid a && match heap.name a with
    | some n => isType n typeName
    | none => false

def matching : List Nat := heap.objects.filter (heap.isInstance typeName)

def Instance (a : Nat) : Prop := a ∈ heap.objects ∧ heap.isInstance typeName a = true

/-- The keys of the targets, in the order they came in. -/
def targets : List Nat := (heap.matching typeName).eraseDups

end Heap

/-! ## The walk -/

structure Marked where
  walk : Walk Nat := {}
  rootKind : Dict Nat RootKind := Dict.empty

/-- One more than there are addresses. -/
def budget : Nat := 2 ^ 64 + 1

section

variable (heap : Heap) (targets : List Nat)

def seed (seedTransient : Bool) (m : Marked) (root : Nat × RootKind) : Marked :=
  if isTransientRootKind root.2 ≠ seedTransient then m
  else if heap.isValid root.1 = false ∨ m.walk.Has root.1 then m
  else { walk := m.walk.claim 0 root.1, rootKind := m.rootKind.set root.1 root.2 }

def bfs (m : Marked) : Option Marked :=
  (Graph.walk heap.children (fun a => decide (a ∈ targets)) targets.length budget m.walk).map fun w => { m with walk := w }

def phase (seedTransient : Bool) (m : Marked) : Option Marked := bfs heap targets (heap.roots.foldl (seed heap seedTransient) m)

def marks : Option Marked := do
  let m ← phase heap targets false {}
  phase heap targets true m

/-- The kind of the root that the object hangs from. -/
def trueKind (m : Marked) (a : Nat) : Option RootKind :=
  (climb m.walk.parent 0 budget a).map fun r => (m.rootKind.get? r).getD .none

/-- The targets by the side of their root. -/
def census (m : Marked) : List Nat → Option (List Nat × List Nat)
  | [] => some ([], [])
  | t :: rest => do
    let (durable, transient) ← census m rest
    if m.walk.Has t then
      let k ← trueKind m t
      if isTransientRootKind k then some (durable, t :: transient) else some (t :: durable, transient)
    else some (durable, transient)

end

/-! ## The roots -/

section

variable {heap : Heap} {transient : Bool}

/-- The roots of one side, as they are enumerated. -/
def Heap.rootsOf (heap : Heap) (transient : Bool) : List Nat :=
  (heap.roots.filter fun r => isTransientRootKind r.2 == transient && heap.isValid r.1).map Prod.fst

theorem mem_rootsOf {a : Nat} : a ∈ heap.rootsOf transient ↔ heap.Root transient a := by
  unfold Heap.rootsOf Heap.Root
  simp only [List.mem_map, List.mem_filter, Bool.and_eq_true, beq_iff_eq, Prod.exists]
  constructor
  · rintro ⟨a', k, ⟨hin, hk, hv⟩, rfl⟩
    exact ⟨hv, k, hin, hk⟩
  · rintro ⟨hv, k, hin, hk⟩
    exact ⟨a, k, ⟨hin, hk, hv⟩, rfl⟩

theorem isValid_of_mem_children {a c : Nat} (h : c ∈ heap.children a) : heap.isValid c = true := by
  unfold Heap.children at h
  split at h
  next => cases h
  next => exact (List.mem_filter.mp h).2

/-- Seeding is claiming the roots of the side, and noting the kind of what it claims. -/
theorem seeds (heap : Heap) (transient : Bool) (roots : List (Nat × RootKind)) (m : Marked) :
    (roots.foldl (seed heap transient) m).walk =
        ((roots.filter fun r => isTransientRootKind r.2 == transient && heap.isValid r.1).map Prod.fst).foldl
        (Walk.claim 0) m.walk ∧
      (∀ a, m.walk.Has a → (roots.foldl (seed heap transient) m).rootKind.get? a = m.rootKind.get? a) ∧
      ∀ a, ¬m.walk.Has a → (roots.foldl (seed heap transient) m).walk.Has a →
        ∃ k, (a, k) ∈ roots ∧ isTransientRootKind k = transient ∧
            (roots.foldl (seed heap transient) m).rootKind.get? a = some k := by
  induction roots generalizing m with
  | nil => exact ⟨rfl, fun _ _ => rfl, fun a hno ha => absurd ha hno⟩
  | cons root roots ih =>
    obtain ⟨r, k⟩ := root
    rw [List.foldl_cons]
    by_cases hside : isTransientRootKind k = transient
    · by_cases hv : heap.isValid r = true
      · have hfilter : (((r, k) :: roots).filter fun r => isTransientRootKind r.2 == transient && heap.isValid r.1) =
            (r, k) :: roots.filter fun r => isTransientRootKind r.2 == transient && heap.isValid r.1 := by
          rw [List.filter_cons_of_pos (by simp [hside, hv])]
        rw [hfilter, List.map_cons, List.foldl_cons]
        by_cases hhas : m.walk.Has r
        · rw [show seed heap transient m (r, k) = m from by simp [seed, hhas], show m.walk.claim 0 r = m.walk from if_pos hhas]
          obtain ⟨hw, hold, hnew⟩ := ih m
          refine ⟨hw, hold, fun a hno ha => ?_⟩
          obtain ⟨k', hin, hk'⟩ := hnew a hno ha
          exact ⟨k', List.mem_cons_of_mem _ hin, hk'⟩
        · have hseed : seed heap transient m (r, k) = { walk := m.walk.claim 0 r, rootKind := m.rootKind.set r k } := by
            simp [seed, hside, hv, hhas]
          rw [hseed]
          obtain ⟨hw, hold, hnew⟩ := ih { walk := m.walk.claim 0 r, rootKind := m.rootKind.set r k }
          have hclaim : ∀ a, (m.walk.claim 0 r).Has a ↔ a = r ∨ m.walk.Has a := by
            intro a
            rw [show m.walk.claim 0 r = _ from if_neg hhas]
            exact Walk.has_set
          refine ⟨hw, fun a ha => ?_, fun a hno ha => ?_⟩
          · have hne : a ≠ r := fun he => hhas (he ▸ ha)
            rw [hold a ((hclaim a).mpr (Or.inr ha)), Dict.get?_set, if_neg hne]
          · by_cases har : a = r
            · refine ⟨k, har ▸ List.mem_cons_self, hside, ?_⟩
              rw [hold a ((hclaim a).mpr (Or.inl har)), Dict.get?_set, if_pos har]
            · obtain ⟨k', hin, hk'⟩ := hnew a (fun hc => ((hclaim a).mp hc).elim har hno) ha
              exact ⟨k', List.mem_cons_of_mem _ hin, hk'⟩
      · rw [show seed heap transient m (r, k) = m from by simp [seed, hside, hv], List.filter_cons_of_neg (by simp [hv])]
        obtain ⟨hw, hold, hnew⟩ := ih m
        refine ⟨hw, hold, fun a hno ha => ?_⟩
        obtain ⟨k', hin, hk'⟩ := hnew a hno ha
        exact ⟨k', List.mem_cons_of_mem _ hin, hk'⟩
    · rw [show seed heap transient m (r, k) = m from by simp [seed, hside], List.filter_cons_of_neg (by simp [hside])]
      obtain ⟨hw, hold, hnew⟩ := ih m
      refine ⟨hw, hold, fun a hno ha => ?_⟩
      obtain ⟨k', hin, hk'⟩ := hnew a hno ha
      exact ⟨k', List.mem_cons_of_mem _ hin, hk'⟩

/-! ## One side -/

variable {targets : List Nat} {m m' : Marked}

/-- What has been found out about an object: the way to it, from itself to the root it hangs from, and that root's kind. -/
structure Traced (heap : Heap) (m : Marked) (transient : Bool) (a : Nat) (way : List Nat) (k : RootKind) : Prop where
  hangs : ∃ r, Hangs m.walk.parent 0 a way r ∧ m.rootKind.get? r = some k ∧ heap.isValid r = true ∧ (r, k) ∈ heap.roots
  side : isTransientRootKind k = transient
  linked : way.IsChain fun a p => a ∈ heap.children p
  shortest : ∀ n, Steps heap.children (heap.Root transient) n a → way.length ≤ n + 1

/-- What a phase leaves behind, over what there was before it. -/
structure Phase (heap : Heap) (targets : List Nat) (transient : Bool) (m m' : Marked) : Prop where
  kept : m.walk.Extends m'.walk
  kinds : ∀ a, m.walk.Has a → m'.rootKind.get? a = m.rootKind.get? a
  ne : ∀ a, m'.walk.Has a → a ≠ 0
  traced : ∀ a, m'.walk.Has a → ¬m.walk.Has a → ∃ way k, Traced heap m' transient a way k
  closed : m'.walk.queue = [] → ∀ a, m'.walk.Has a → ∀ c ∈ heap.children a, m'.walk.Has c
  found : m'.walk.queue = [] → ∀ n a, Steps heap.children (heap.Root transient) n a → m'.walk.Has a
  counted : m'.walk.Counted targets
  ended : m'.walk.queue = [] ∨ targets.length ≤ m'.walk.reached

theorem phase_ok (heap : Heap) (targets : List Nat) (transient : Bool) (hq : m.walk.queue = []) (hne : ∀ a, m.walk.Has a → a ≠ 0)
    (hclosed : ∀ a, m.walk.Has a → ∀ c ∈ heap.children a, m.walk.Has c) (hcounted : m.walk.Counted targets) :
    ∃ m', phase heap targets transient m = some m' ∧ Phase heap targets transient m m' := by
  obtain ⟨hwalk, hold, hnew⟩ := seeds heap transient heap.roots m
  generalize hm₀ : heap.roots.foldl (seed heap transient) m = m₀ at hwalk hold hnew
  change m₀.walk = (heap.rootsOf transient).foldl (Walk.claim 0) m.walk at hwalk
  obtain ⟨new, hclaimed⟩ := Graph.claims_claimed 0 (heap.rootsOf transient) m.walk
  rw [← hwalk] at hclaimed
  have hroot : (fun a => a ∈ heap.rootsOf transient) = heap.Root transient := funext fun a => propext mem_rootsOf
  have hstart : Going heap.children 0 (fun a => a ∈ heap.rootsOf transient) m.walk.Has (fun _ => 0) m₀.walk :=
    Going.start hq hne (fun r hr => heap.valid_ne r (mem_rootsOf.mp hr).1) hclaimed
  rw [hroot] at hstart
  have hchild : ∀ a, ∀ c ∈ heap.children a, c ∈ Finset.range (2 ^ 64) :=
    fun a c hc => Finset.mem_range.mpr (heap.valid_lt c (isValid_of_mem_children hc))
  have hleft : m₀.walk.left (Finset.range (2 ^ 64)) < budget := by
    have hqueued : ∀ a ∈ m₀.walk.queue, a ∈ Finset.range (2 ^ 64) := by
      intro a ha
      rw [hclaimed.queue, hq, List.nil_append] at ha
      exact Finset.mem_range.mpr (heap.valid_lt a (mem_rootsOf.mp (hclaimed.fresh a ha).2).1)
    have hle := hstart.left_le hqueued
    rw [Finset.card_range] at hle
    exact Nat.lt_succ_of_le hle
  have hbase : ∀ a, m.walk.Has a → m₀.walk.Has a ∧ ∀ c ∈ heap.children a, m.walk.Has c :=
    fun a ha => ⟨hclaimed.extends.has ha, hclosed a ha⟩
  obtain ⟨w, d, hw, hgo, hext, hcount, hover⟩ := Graph.walk_going hstart hbase
    (fun a c hc => heap.valid_ne c (isValid_of_mem_children hc)) hchild (hcounted.claims hclaimed) hleft
  refine ⟨{ m₀ with walk := w }, ?_, hclaimed.extends.trans hext, hold, hgo.ne, ?_, ?_, ?_, hcount, hover⟩
  · rw [phase, hm₀, bfs, hw]
    rfl
  · intro a ha hno
    obtain ⟨way, r, hhangs, hr, hlen, hlinked, hfresh⟩ := hgo.hangs ha hno
    have hrno : ¬m.walk.Has r := hfresh r hhangs.end_mem
    obtain ⟨k, hin, hk, hget⟩ := hnew r hrno (hclaimed.all r (mem_rootsOf.mpr hr))
    refine ⟨way, k, ⟨r, hhangs, hget, hr.1, hin⟩, hk, hlinked, fun n hn => ?_⟩
    have := hgo.shortest hclosed hn ha hno
    omega
  · intro hend a ha c hc
    by_cases hb : m.walk.Has a
    · exact (hclaimed.extends.trans hext).has (hclosed a hb c hc)
    · exact (hgo.done a ha hb (by rw [hend]; exact List.not_mem_nil) c hc).1
  · intro hend n a hn
    by_cases hb : m.walk.Has a
    · exact (hclaimed.extends.trans hext).has hb
    · exact (hgo.everything hclosed hend hn hb).1

/-! ## Both sides -/

namespace Traced

variable {a : Nat} {way : List Nat} {k : RootKind}

theorem mono (h : Traced heap m transient a way k) (hext : m.walk.Extends m'.walk)
    (hkinds : ∀ a, m.walk.Has a → m'.rootKind.get? a = m.rootKind.get? a) : Traced heap m' transient a way k := by
  obtain ⟨r, hhangs, hget, hv, hin⟩ := h.hangs
  have hclaimed : ∀ x ∈ way, m.walk.Has x := hhangs.claimed
  have hkind := hkinds r (hclaimed r hhangs.end_mem)
  exact ⟨⟨r, hhangs.congr fun x hx => hext x (hclaimed x hx), hkind.trans hget, hv, hin⟩, h.side, h.linked, h.shortest⟩

theorem reaches (h : Traced heap m transient a way k) : ∃ r, heap.Root transient r ∧ Reaches heap.children r a := by
  obtain ⟨r, hhangs, -, hv, hin⟩ := h.hangs
  refine ⟨r, ⟨hv, k, hin, h.side⟩, ?_⟩
  have hlinked := h.linked
  clear h
  induction hhangs with
  | root => exact .refl
  | under _ _ hhangs ih =>
    obtain ⟨hmem, hlinked⟩ := hhangs.linked_cons.mp hlinked
    exact (ih hv hin hlinked).tail hmem

theorem isValid (h : Traced heap m transient a way k) : ∀ x ∈ way, heap.isValid x = true := by
  obtain ⟨r, hhangs, -, hv, -⟩ := h.hangs
  have hlinked := h.linked
  clear h
  induction hhangs with
  | root =>
    intro x hx
    exact List.mem_singleton.mp hx ▸ hv
  | under _ _ hhangs ih =>
    obtain ⟨hmem, hlinked⟩ := hhangs.linked_cons.mp hlinked
    intro x hx
    rcases List.mem_cons.mp hx with rfl | hx
    · exact isValid_of_mem_children hmem
    · exact ih hv hlinked x hx

theorem length_le (h : Traced heap m transient a way k) : way.length ≤ 2 ^ 64 := by
  obtain ⟨r, hhangs, -⟩ := h.hangs
  have hsub : way.toFinset ⊆ Finset.range (2 ^ 64) :=
    fun x hx => Finset.mem_range.mpr (heap.valid_lt x (h.isValid x (List.mem_toFinset.mp hx)))
  have hcard := Finset.card_le_card hsub
  rw [List.toFinset_card_of_nodup hhangs.nodup, Finset.card_range] at hcard
  exact hcard

theorem trueKind_eq (h : Traced heap m transient a way k) : trueKind m a = some k := by
  obtain ⟨r, hhangs, hget, -⟩ := h.hangs
  have hclimb : climb m.walk.parent 0 budget a = some r := hhangs.climb (Nat.le_succ_of_le h.length_le)
  rw [trueKind, hclimb, Option.map_some, hget, Option.getD_some]

theorem has (h : Traced heap m transient a way k) : m.walk.Has a := by
  obtain ⟨r, hhangs, -⟩ := h.hangs
  exact hhangs.claimed a hhangs.start_mem

end Traced

theorem durable_iff {a : Nat} : heap.Durable a ↔ ∃ n, Steps heap.children (heap.Root false) n a := Graph.steps_iff_reaches.symm

theorem Phase.side (h : Phase heap targets transient m m') (hq : m'.walk.queue = []) (hempty : ∀ a, ¬m.walk.Has a) {a : Nat} :
    m'.walk.Has a ↔ ∃ r, heap.Root transient r ∧ Reaches heap.children r a := by
  constructor
  · intro ha
    obtain ⟨way, k, htraced⟩ := h.traced a ha (hempty a)
    exact htraced.reaches
  · intro hr
    obtain ⟨n, hn⟩ := Graph.steps_iff_reaches.mpr hr
    exact h.found hq n a hn

/-- What the two phases have found out about the targets. -/
structure Exact (heap : Heap) (targets : List Nat) (m : Marked) : Prop where
  claimed : ∀ t ∈ targets, m.walk.Has t → heap.Live t
  durable : ∀ t ∈ targets, heap.Durable t → ∃ way k, Traced heap m false t way k
  transient : ∀ t ∈ targets, heap.Live t → ¬heap.Durable t → ∃ way k, Traced heap m true t way k

theorem marks_exact (heap : Heap) (targets : List Nat) : ∃ m, marks heap targets = some m ∧ Exact heap targets m := by
  have hempty : ∀ a, ¬(({} : Marked).walk.Has a) := fun a ha => by cases ha
  obtain ⟨m₁, hm₁, h₁⟩ := phase_ok heap targets false rfl
    (fun a ha => absurd ha (hempty a)) (fun a ha => absurd ha (hempty a)) (Nat.zero_le _)
  have hdur₁ : ∀ a, m₁.walk.Has a → heap.Durable a := by
    intro a ha
    obtain ⟨way, k, htraced⟩ := h₁.traced a ha (hempty a)
    exact htraced.reaches
  by_cases hq : m₁.walk.queue = []
  · -- the durable roots have been walked to exhaustion
    have hcl : ∀ a, m₁.walk.Has a → ∀ c ∈ heap.children a, m₁.walk.Has c := h₁.closed hq
    obtain ⟨m₂, hm₂, h₂⟩ := phase_ok heap targets true hq h₁.ne hcl h₁.counted
    have hfound : ∀ t ∈ targets, heap.Live t → m₂.walk.Has t := by
      intro t ht hlive
      rcases h₂.ended with hq₂ | hall
      · obtain ⟨side, hr⟩ := hlive
        obtain ⟨n, hn⟩ := Graph.steps_iff_reaches.mpr hr
        cases side with
        | false => exact h₂.kept.has (h₁.found hq n t hn)
        | true => exact h₂.found hq₂ n t hn
      · exact h₂.counted.all hall t ht
    refine ⟨m₂, by rw [marks, hm₁]; exact hm₂, ?_, ?_, ?_⟩
    · intro t _ hhas
      by_cases hb : m₁.walk.Has t
      · exact ⟨false, hdur₁ t hb⟩
      · obtain ⟨way, k, htraced⟩ := h₂.traced t hhas hb
        exact ⟨true, htraced.reaches⟩
    · intro t _ hdur
      have ht₁ := (h₁.side hq hempty).mpr hdur
      obtain ⟨way, k, htraced⟩ := h₁.traced t ht₁ (hempty t)
      exact ⟨way, k, htraced.mono h₂.kept h₂.kinds⟩
    · intro t ht hlive hnot
      exact h₂.traced t (hfound t ht hlive) fun hb => hnot (hdur₁ t hb)
  · -- every target has been looked at: the other roots come in, and nothing is walked
    have hall := h₁.ended.resolve_left hq
    have hhas : ∀ t ∈ targets, m₁.walk.Has t := h₁.counted.all hall
    obtain ⟨hwalk, hold, -⟩ := seeds heap true heap.roots m₁
    generalize hm₂ : heap.roots.foldl (seed heap true) m₁ = m₂ at hwalk hold
    obtain ⟨new, hclaimed⟩ := Graph.claims_claimed 0 (heap.rootsOf true) m₁.walk
    change m₂.walk = (heap.rootsOf true).foldl (Walk.claim 0) m₁.walk at hwalk
    rw [← hwalk] at hclaimed
    have hstop : phase heap targets true m₁ = some m₂ := by
      rw [phase, hm₂, bfs, budget, Graph.walk_stop (by rw [hclaimed.reached]; exact hall)]
      rfl
    refine ⟨m₂, by rw [marks, hm₁]; exact hstop, ?_, ?_, ?_⟩
    · exact fun t ht _ => ⟨false, hdur₁ t (hhas t ht)⟩
    · intro t ht _
      obtain ⟨way, k, htraced⟩ := h₁.traced t (hhas t ht) (hempty t)
      exact ⟨way, k, htraced.mono hclaimed.extends hold⟩
    · exact fun t ht _ hnot => absurd (hdur₁ t (hhas t ht)) hnot

/-! ## The census -/

open Classical in
theorem census_exact (h : Exact heap targets m) : ∀ {l : List Nat}, (∀ t ∈ l, t ∈ targets) →
    census m l = some (l.filter fun t => heap.Durable t, l.filter fun t => heap.Live t ∧ ¬heap.Durable t) := by
  intro l hl
  induction l with
  | nil => rfl
  | cons t rest ih =>
    have ht := hl t List.mem_cons_self
    rw [census, ih fun t ht => hl t (List.mem_cons_of_mem _ ht)]
    dsimp only [Option.bind_eq_bind, Option.bind_some]
    by_cases hdur : heap.Durable t
    · obtain ⟨way, k, htraced⟩ := h.durable t ht hdur
      rw [if_pos htraced.has, htraced.trueKind_eq]
      dsimp only [Option.bind_some]
      rw [htraced.side, if_neg Bool.false_ne_true, List.filter_cons_of_pos (by simpa using hdur),
        List.filter_cons_of_neg (by simp [hdur])]
    · by_cases hlive : heap.Live t
      · obtain ⟨way, k, htraced⟩ := h.transient t ht hlive hdur
        rw [if_pos htraced.has, htraced.trueKind_eq]
        dsimp only [Option.bind_some]
        rw [htraced.side, if_pos rfl, List.filter_cons_of_neg (by simpa using hdur),
          List.filter_cons_of_pos (by simp [hdur, hlive])]
      · rw [if_neg fun hhas => hlive (h.claimed t ht hhas), List.filter_cons_of_neg (by simpa using hdur),
          List.filter_cons_of_neg (by simp [hlive])]

end

end OwnNet.Retention
