/-
  OwnNet.Retention.Retainers — what is shown of the ways to the instances of a type, and the
  verdict (audit/runtime/RetentionPath/Heap.cs, Program.cs).

  Ways are resolved for as many instances as the sample allows, those of durable roots first, and
  cut to the hops next to the instance; what looks the same is one group, and the groups are ranked
  by how many instances they have. `upper` is the upper case of a character, in no culture.

  Proved:
  - `roots_exact`: the verdict and the counts are those of the heap, whatever is shown of it.
  - `findRetainers_shown`: the groups account for the ways resolved, each the end of a shortest way
    from a root of its kind, and nothing of a group is classified otherwise than the group.
  - `artifact_agrees`: the kinds written down give the verdict too, where few ways are resolved; not
    always (`crowded_out`).
-/

import Mathlib.Data.List.Sort
import Mathlib.Data.String.Basic
import OwnNet.Dict.Grouped
import OwnNet.Parsing.Numerals
import OwnNet.Retention.Walker

namespace OwnNet.Retention

open Graph (Hangs Steps Reaches climb)

/-! ## Hops -/

structure Hop where
  type : String
  field : Option String
  deriving DecidableEq, Repr

def Hop.toString (h : Hop) : String :=
  match h.field with
  | none => h.type
  | some field => h.type ++ "  (." ++ field ++ ")"

def RootKind.toString : RootKind → String
  | .none => "None"
  | .finalizerQueue => "FinalizerQueue"
  | .strongHandle => "StrongHandle"
  | .pinnedHandle => "PinnedHandle"
  | .stack => "Stack"
  | .refCountedHandle => "RefCountedHandle"
  | .asyncPinnedHandle => "AsyncPinnedHandle"
  | .sizedRefHandle => "SizedRefHandle"
  | .other n => Int.repr n

section

variable (upper : Char → Char)

def viaDelegate (path : List Hop) : Bool :=
  path.any fun h =>
    "EventHandler".toList <:+: h.type.toList || "MulticastDelegate".toList <:+: h.type.toList ||
      match h.field with
      | none => false
      | some field => "invocationList".toList.map upper <:+: field.toList.map upper

def classify (rootKind : RootKind) (path : List Hop) : String :=
  match rootKind with
  | .stack => "stack"
  | .finalizerQueue => "finalizer"
  | .pinnedHandle => if viaDelegate upper path then "static-event" else "static-field"
  | .strongHandle | .asyncPinnedHandle | .refCountedHandle | .sizedRefHandle =>
    if viaDelegate upper path then "static-event" else "gc-handle"
  | kind => "unsupported-root:" ++ kind.toString

def isDurableKind (kind : String) : Bool := kind ≠ "stack" && kind ≠ "finalizer"

end

/-- The field of the owner that refers to the object. -/
def Heap.fieldOf (heap : Heap) (owner a : Nat) : Option String :=
  if heap.isValid owner = false ∨ heap.type owner = none then none
  else ((heap.referencesWithFields owner).find? (·.1 = a)).bind Prod.snd

def Heap.hops (heap : Heap) (owner : Option Nat) : List Nat → List Hop
  | [] => []
  | a :: rest => ⟨(heap.name a).getD "?", owner.bind (heap.fieldOf · a)⟩ :: heap.hops (some a) rest

/-! ## The ways -/

/-- The nodes from `a` up that are recorded, the node come to, and whether there are more. -/
def rise (parent : Dict Nat Nat) (maxHops a : Nat) : List Nat × Nat × Bool :=
  match parent.get? a with
  | none => ([a], a, false)
  | some p =>
    if p = 0 then ([a], a, false)
    else
      match maxHops with
      | 0 => ([a], p, true)
      | n + 1 =>
        let (chain, cur, truncated) := rise parent n p
        (a :: chain, cur, truncated)

/-- The root, climbed to where the recording has stopped under it. -/
def trueRoot (parent : Dict Nat Nat) (cur : Nat) (truncated : Bool) : Option Nat :=
  if truncated then climb parent 0 budget cur else some cur

def unwind (heap : Heap) (m : Marked) (maxHops target : Nat) : Option (List Hop × RootKind) := do
  let (chain, cur, truncated) := rise m.walk.parent maxHops target
  let cur ← trueRoot m.walk.parent cur truncated
  some (heap.hops none chain.reverse, (m.rootKind.get? cur).getD .none)

structure Retainer where
  path : List Hop
  rootKind : RootKind
  instances : Nat
  deriving DecidableEq, Repr

section

variable (upper : Char → Char)

def Retainer.contractKind (r : Retainer) : String := classify upper r.rootKind r.path

def signature (found : List Hop × RootKind) : String :=
  classify upper found.2 found.1 ++ " | " ++ " -> ".intercalate (found.1.map Hop.toString)

/-- One more way of its looks. -/
def count (groups : List (String × Retainer)) (found : List Hop × RootKind) : List (String × Retainer) :=
  Dict.upsert (signature upper found)
    (fun
      | none => ⟨found.1, found.2, 1⟩
      | some r => { r with instances := r.instances + 1 })
    groups

def resolve (heap : Heap) (m : Marked) (maxHops : Nat) : List (String × Retainer) → List Nat → Option (List (String × Retainer))
  | groups, [] => some groups
  | groups, a :: rest => do
    let found ← unwind heap m maxHops a
    resolve heap m maxHops (count upper groups found) rest

def ranked (groups : List (String × Retainer)) : List Retainer :=
  (groups.map Prod.snd).insertionSort fun a b => b.instances ≤ a.instances

structure RetentionReport where
  typeName : String
  totalOnHeap : Nat
  retained : Nat
  durableRetained : Nat
  pathsResolved : Nat
  retainers : List Retainer
  deriving DecidableEq, Repr

def findRetainers (heap : Heap) (typeName : String) (sample maxHops : Nat) : Option RetentionReport :=
  match heap.targets typeName with
  | [] => some ⟨typeName, 0, 0, 0, 0, []⟩
  | first :: more => do
    let m ← marks heap (first :: more)
    let (durable, transient) ← census m (first :: more)
    let shown := (durable ++ transient).take sample
    let groups ← resolve upper heap m maxHops [] shown
    some
      { typeName := (heap.name first).getD ""
        totalOnHeap := (heap.matching typeName).length
        retained := durable.length + transient.length
        durableRetained := durable.length
        pathsResolved := shown.length
        retainers := ranked groups }

end

/-! ## The verdict -/

inductive Verdict where
  | absent
  | observedOnly
  | retained
  deriving DecidableEq, Repr

def verdictOf (retainerKinds : List String) : Verdict := if retainerKinds.any isDurableKind then .retained else .observedOnly

/-- A retainer as it is written down. -/
structure WrittenRoot where
  kind : String
  holder : String
  member : String
  via : String
  instances : Nat
  path : List String
  deriving DecidableEq, Repr

def Retainer.holder (r : Retainer) : String := ((r.path.reverse.drop 1).head?.or r.path.head?).elim "" Hop.type

def Retainer.member (r : Retainer) : Option String := r.path.getLast?.bind Hop.field

def Retainer.write (upper : Char → Char) (r : Retainer) : WrittenRoot :=
  { kind := r.contractKind upper
    holder := r.holder
    member := r.member.getD ""
    via := if r.contractKind upper = "static-event" then "delegate" else "reference"
    instances := r.instances
    path := r.path.map Hop.toString }

structure Artifact where
  verdict : Verdict
  type : String
  count : Nat
  roots : List WrittenRoot
  instancesOnHeap : Nat
  instancesReachable : Nat
  instancesDurablyRetained : Nat
  pathsResolved : Nat
  sampleBudget : Nat
  maxHopsBudget : Nat
  deriving DecidableEq, Repr

def writeArtifact (upper : Char → Char) (report : RetentionReport) (sample maxHops : Nat) (verdict : Verdict) (type : String)
    (count : Nat) (retainers : List Retainer) : Artifact :=
  { verdict := verdict
    type := type
    count := count
    roots := (retainers.take 5).map (Retainer.write upper)
    instancesOnHeap := report.totalOnHeap
    instancesReachable := report.retained
    instancesDurablyRetained := report.durableRetained
    pathsResolved := report.pathsResolved
    sampleBudget := sample
    maxHopsBudget := maxHops }

/-- The artifact, and the exit code; the budgets are at least one. -/
def roots (upper : Char → Char) (heap : Heap) (type : String) (sampleArg maxHopsArg : Int) : Option (Artifact × Nat) := do
  let sample := (max 1 sampleArg).toNat
  let maxHops := (max 1 maxHopsArg).toNat
  let report ← findRetainers upper heap type sample maxHops
  let write := writeArtifact upper report sample maxHops
  if report.totalOnHeap = 0 then some (write .absent type 0 [], 0)
  else if report.retained = 0 then some (write .observedOnly type report.totalOnHeap [], 0)
  else if report.durableRetained = 0 then some (write .observedOnly type report.totalOnHeap report.retainers, 0)
  else some (write .retained report.typeName report.totalOnHeap report.retainers, 1)

/-! ## Ways -/

/-- A way from a root of the kind to the object, read from the object. -/
structure Way (heap : Heap) (a : Nat) (way : List Nat) (k : RootKind) : Prop where
  start : way.head? = some a
  linked : way.IsChain fun a p => a ∈ heap.children p
  root : ∃ r, way.getLast? = some r ∧ heap.isValid r = true ∧ (r, k) ∈ heap.roots

/-- What was found is the end of a shortest way to the object of all of its side; if it is of the transient side, all are. -/
structure Grounded (heap : Heap) (maxHops a : Nat) (found : List Hop × RootKind) : Prop where
  way : ∃ way, Way heap a way found.2 ∧ found.1 = heap.hops none (way.take (maxHops + 1)).reverse ∧
    ∀ way' k, Way heap a way' k → isTransientRootKind k = isTransientRootKind found.2 → way.length ≤ way'.length
  side : isTransientRootKind found.2 = true → ∀ way k, Way heap a way k → isTransientRootKind k = true

section

variable {heap : Heap} {m : Marked} {transient : Bool} {targets : List Nat}

theorem Way.steps {a : Nat} {way : List Nat} {k : RootKind} (h : Way heap a way k) :
    Steps heap.children (heap.Root (isTransientRootKind k)) (way.length - 1) a := by
  obtain ⟨hstart, hlinked, hroot⟩ := h
  induction way generalizing a with
  | nil => cases hstart
  | cons x rest ih =>
    cases hstart
    cases rest with
    | nil =>
      obtain ⟨r, hr, hv, hin⟩ := hroot
      cases hr
      exact .here ⟨hv, k, hin, rfl⟩
    | cons p rest =>
      obtain ⟨hmem, hlinked⟩ := List.isChain_cons_cons.mp hlinked
      exact .step (ih rfl hlinked hroot) hmem

theorem Way.durable {a : Nat} {way : List Nat} {k : RootKind} (h : Way heap a way k)
    (hk : isTransientRootKind k = false) : heap.Durable a :=
  durable_iff.mpr ⟨_, hk ▸ h.steps⟩

theorem steps_way {n a : Nat} (h : Steps heap.children (heap.Root transient) n a) :
    ∃ way k, Way heap a way k ∧ isTransientRootKind k = transient := by
  induction h with
  | here hr =>
    obtain ⟨hv, k, hin, hk⟩ := hr
    exact ⟨[_], k, ⟨rfl, List.IsChain.singleton _, _, rfl, hv, hin⟩, hk⟩
  | step _ hmem ih =>
    obtain ⟨way, k, ⟨hstart, hlinked, hroot⟩, hk⟩ := ih
    cases way with
    | nil => cases hstart
    | cons p rest =>
      cases hstart
      exact ⟨_ :: _ :: rest, k, ⟨rfl, List.isChain_cons_cons.mpr ⟨hmem, hlinked⟩, hroot⟩, hk⟩

theorem Grounded.transient_iff {maxHops a : Nat} {found : List Hop × RootKind} (h : Grounded heap maxHops a found) :
    isTransientRootKind found.2 = true ↔ ¬heap.Durable a := by
  constructor
  · intro ht hd
    obtain ⟨n, hn⟩ := durable_iff.mp hd
    obtain ⟨way, k, hway, hk⟩ := steps_way hn
    rw [h.side ht way k hway] at hk
    cases hk
  · intro hno
    obtain ⟨way, hway, -⟩ := h.way
    cases hk : isTransientRootKind found.2 with
    | true => rfl
    | false => exact absurd (hway.durable hk) hno

theorem hangs_way {a r : Nat} {way : List Nat} {parent : Dict Nat Nat} (h : Hangs parent 0 a way r) :
    way.head? = some a ∧ way.getLast? = some r := by
  refine ⟨by cases h <;> rfl, ?_⟩
  induction h with
  | root => rfl
  | under _ _ h ih =>
    cases h with
    | root => exact ih
    | under => exact ih

theorem rise_hangs {parent : Dict Nat Nat} {a r : Nat} {way : List Nat} (h : Hangs parent 0 a way r) (n : Nat) :
    ∃ cur truncated, rise parent n a = (way.take (n + 1), cur, truncated) ∧ (truncated = false → cur = r) ∧
      (truncated = true → ∃ rest, rest <:+ way ∧ Hangs parent 0 cur rest r) := by
  induction h generalizing n with
  | root hr =>
    refine ⟨_, false, ?_, fun _ => rfl, fun h => absurd h Bool.false_ne_true⟩
    rw [rise.eq_def, hr]
    dsimp only
    rw [if_pos rfl, List.take_of_length_le (Nat.succ_le_succ (Nat.zero_le n))]
  | @under a p r way hp hne h ih =>
    cases n with
    | zero =>
      refine ⟨p, true, ?_, fun h => absurd h.symm Bool.false_ne_true, fun _ => ⟨way, List.suffix_cons _ _, h⟩⟩
      rw [rise.eq_def, hp]
      dsimp only
      rw [if_neg hne]
      rfl
    | succ n =>
      obtain ⟨cur, truncated, hrise, hend, hmore⟩ := ih n
      refine ⟨cur, truncated, ?_, hend, fun ht => ?_⟩
      · rw [rise.eq_def, hp]
        dsimp only
        rw [if_neg hne, hrise]
        rfl
      · obtain ⟨rest, hrest, hh⟩ := hmore ht
        exact ⟨rest, hrest.trans (List.suffix_cons _ _), hh⟩

/-- A way is resolved to its end next to the object, and to the kind of its root. -/
theorem unwind_eq {a : Nat} {way : List Nat} {k : RootKind} (h : Traced heap m transient a way k) (maxHops : Nat) :
    unwind heap m maxHops a = some (heap.hops none (way.take (maxHops + 1)).reverse, k) := by
  obtain ⟨r, hhangs, hget, -⟩ := h.hangs
  obtain ⟨cur, truncated, hrise, hend, hmore⟩ := rise_hangs hhangs maxHops
  have hcur : trueRoot m.walk.parent cur truncated = some r := by
    cases truncated with
    | false =>
      rw [hend rfl]
      rfl
    | true =>
      obtain ⟨rest, hrest, hh⟩ := hmore rfl
      exact hh.climb (Nat.le_succ_of_le (hrest.length_le.trans h.length_le))
  rw [unwind, hrise]
  dsimp only
  rw [hcur, Option.bind_eq_bind, Option.bind_some, hget]
  rfl

theorem Traced.grounded {a : Nat} {way : List Nat} {k : RootKind} (h : Traced heap m transient a way k)
    (hside : transient = true → ¬heap.Durable a) (maxHops : Nat) :
    Grounded heap maxHops a (heap.hops none (way.take (maxHops + 1)).reverse, k) := by
  obtain ⟨r, hhangs, -, hv, hin⟩ := h.hangs
  obtain ⟨hstart, hlast⟩ := hangs_way hhangs
  refine ⟨⟨way, ⟨hstart, h.linked, r, hlast, hv, hin⟩, rfl, fun way' k' hway hk => ?_⟩, fun ht way' k' hway => ?_⟩
  · have hsteps := hway.steps
    rw [hk, h.side] at hsteps
    have hle := h.shortest _ hsteps
    have hpos : 0 < way'.length := List.length_pos_of_ne_nil fun he => by
      have hs := hway.start
      rw [he] at hs
      cases hs
    omega
  · rw [h.side] at ht
    cases hk' : isTransientRootKind k' with
    | true => rfl
    | false => exact absurd (hway.durable hk') (hside ht)

end

/-! ## The looks -/

section

variable {upper : Char → Char}

theorem not_blank_repr (n : Int) : ' ' ∉ (Int.repr n).toList := by
  have hnat : ∀ n : Nat, ' ' ∉ (Nat.repr n).toList := by
    intro n hin
    have hdigit := Parsing.numeral_digits (n := n) hin
    exact absurd hdigit (by decide)
  cases n with
  | ofNat n => exact hnat n
  | negSucc n =>
    intro hin
    rw [Int.repr, String.toList_append] at hin
    rcases List.mem_append.mp hin with hin | hin
    · exact absurd hin (by decide)
    · exact hnat _ hin

theorem classify_no_blank (k : RootKind) (path : List Hop) : ' ' ∉ (classify upper k path).toList := by
  have hif : ∀ (c : Bool) (s s' : String), ' ' ∉ s.toList → ' ' ∉ s'.toList → ' ' ∉ (if c = true then s else s').toList := by
    intro c s s' hs hs'
    split
    next => exact hs
    next => exact hs'
  cases k with
  | other n =>
    intro hin
    change ' ' ∈ ("unsupported-root:" ++ Int.repr n).toList at hin
    rw [String.toList_append] at hin
    rcases List.mem_append.mp hin with hin | hin
    · exact absurd hin (by decide)
    · exact not_blank_repr n hin
  | none => exact (by decide : ' ' ∉ ("unsupported-root:" ++ "None").toList)
  | finalizerQueue => exact (by decide : ' ' ∉ "finalizer".toList)
  | stack => exact (by decide : ' ' ∉ "stack".toList)
  | strongHandle => exact hif _ _ _ (by decide) (by decide)
  | pinnedHandle => exact hif _ _ _ (by decide) (by decide)
  | refCountedHandle => exact hif _ _ _ (by decide) (by decide)
  | asyncPinnedHandle => exact hif _ _ _ (by decide) (by decide)
  | sizedRefHandle => exact hif _ _ _ (by decide) (by decide)

theorem takeWhile_blank {s : List Char} (hs : ' ' ∉ s) (rest : List Char) : (s ++ ' ' :: rest).takeWhile (· ≠ ' ') = s := by
  have hall : ∀ c ∈ s, decide (c ≠ ' ') = true := by
    intro c hc
    refine decide_eq_true fun he => hs ?_
    rw [← he]
    exact hc
  rw [List.takeWhile_append_of_pos hall, List.takeWhile_cons_of_neg (by simp), List.append_nil]

/-- What looks the same is classified alike. -/
theorem classify_of_signature {found found' : List Hop × RootKind} (h : signature upper found = signature upper found') :
    classify upper found.2 found.1 = classify upper found'.2 found'.1 := by
  have hhead : ∀ found, (signature upper found).toList.takeWhile (· ≠ ' ') = (classify upper found.2 found.1).toList := by
    intro found
    rw [signature, String.toList_append, String.toList_append, List.append_assoc]
    exact takeWhile_blank (classify_no_blank _ _) _
  refine String.toList_injective ?_
  rw [← hhead found, ← hhead found', h]

/-- The look of a retainer. -/
def Retainer.look (upper : Char → Char) (r : Retainer) : String := signature upper (r.path, r.rootKind)

/-- The groups of the ways found. -/
structure Tallied (upper : Char → Char) (founds : List (List Hop × RootKind)) (groups : List (String × Retainer)) : Prop where
  nodup : (groups.map Prod.fst).Nodup
  group : ∀ s r, (s, r) ∈ groups → r.look upper = s ∧ (r.path, r.rootKind) ∈ founds ∧
    r.instances = founds.countP (signature upper · = s)
  all : ∀ f ∈ founds, ∃ r, (signature upper f, r) ∈ groups

theorem Tallied.count {founds : List (List Hop × RootKind)} {groups : List (String × Retainer)} (h : Tallied upper founds groups)
    (found : List Hop × RootKind) : Tallied upper (founds ++ [found]) (count upper groups found) := by
  refine ⟨Dict.nodup_upsert h.nodup, fun s r hin => ?_, fun f hf => ?_⟩
  · rw [List.countP_append]
    rcases (Dict.mem_upsert h.nodup).mp hin with ⟨hne, hin⟩ | ⟨rfl, hr⟩
    · obtain ⟨hlook, hmem, hcount⟩ := h.group s r hin
      have hzero : [found].countP (signature upper · = s) = 0 := by
        rw [List.countP_eq_zero]
        intro f hf
        rw [List.mem_singleton.mp hf]
        simpa using Ne.symm hne
      rw [hzero]
      exact ⟨hlook, List.mem_append_left _ hmem, hcount⟩
    · have hone : [found].countP (signature upper · = signature upper found) = 1 := by simp
      rw [hone]
      cases hlookup : groups.lookup (signature upper found) with
      | none =>
        rw [hlookup] at hr
        subst hr
        refine ⟨rfl, List.mem_append_right _ List.mem_cons_self, ?_⟩
        have hzero : founds.countP (signature upper · = signature upper found) = 0 := by
          rw [List.countP_eq_zero]
          intro f hf he
          obtain ⟨r, hr⟩ := h.all f hf
          rw [of_decide_eq_true he, ← Dict.lookup_eq_some h.nodup, hlookup] at hr
          cases hr
        rw [hzero]
      | some r' =>
        rw [hlookup] at hr
        subst hr
        obtain ⟨hlook, hmem, hcount⟩ := h.group _ r' ((Dict.lookup_eq_some h.nodup).mp hlookup)
        exact ⟨hlook, List.mem_append_left _ hmem, congrArg (· + 1) hcount⟩
  · rcases List.mem_append.mp hf with hf | hf
    · by_cases he : signature upper f = signature upper found
      · exact ⟨_, (Dict.mem_upsert h.nodup).mpr (Or.inr ⟨he, rfl⟩)⟩
      · obtain ⟨r, hr⟩ := h.all f hf
        exact ⟨r, (Dict.mem_upsert h.nodup).mpr (Or.inl ⟨he, hr⟩)⟩
    · rw [List.mem_singleton.mp hf]
      exact ⟨_, (Dict.mem_upsert h.nodup).mpr (Or.inr ⟨rfl, rfl⟩)⟩

theorem resolve_tallied {heap : Heap} {m : Marked} {maxHops : Nat} {found : Nat → List Hop × RootKind} {l : List Nat}
    (hfound : ∀ a ∈ l, unwind heap m maxHops a = some (found a)) {founds : List (List Hop × RootKind)}
    {groups : List (String × Retainer)}
    (h : Tallied upper founds groups) :
    ∃ groups', resolve upper heap m maxHops groups l = some groups' ∧ Tallied upper (founds ++ l.map found) groups' := by
  induction l generalizing founds groups with
  | nil => exact ⟨groups, rfl, by rwa [List.map_nil, List.append_nil]⟩
  | cons a l ih =>
    obtain ⟨groups', hres, htal⟩ := ih (fun a ha => hfound a (List.mem_cons_of_mem _ ha)) (h.count (found a))
    refine ⟨groups', ?_, ?_⟩
    · rw [resolve, hfound a List.mem_cons_self]
      exact hres
    · rwa [List.append_assoc] at htal

/-- The retainers, ranked, account for the ways found: a group is all that looks like it. -/
structure Histogram (upper : Char → Char) (founds : List (List Hop × RootKind)) (retainers : List Retainer) : Prop where
  ranked : retainers.Pairwise fun a b => b.instances ≤ a.instances
  apart : (retainers.map (Retainer.look upper)).Nodup
  shown : ∀ r ∈ retainers, (r.path, r.rootKind) ∈ founds ∧ r.instances = founds.countP (signature upper · = r.look upper)
  all : ∀ f ∈ founds, ∃ r ∈ retainers, signature upper f = r.look upper ∧ classify upper f.2 f.1 = r.contractKind upper

theorem Tallied.histogram {founds : List (List Hop × RootKind)} {groups : List (String × Retainer)}
    (h : Tallied upper founds groups) :
    Histogram upper founds (ranked groups) := by
  have hperm : (ranked groups).Perm (groups.map Prod.snd) := List.perm_insertionSort _ _
  have hmem : ∀ r, r ∈ ranked groups ↔ ∃ s, (s, r) ∈ groups := by
    intro r
    rw [hperm.mem_iff, List.mem_map]
    constructor
    · intro hr
      obtain ⟨e, he, rfl⟩ := hr
      exact ⟨e.1, he⟩
    · intro hr
      obtain ⟨s, hs⟩ := hr
      exact ⟨(s, r), hs, rfl⟩
  refine ⟨?_, ?_, fun r hr => ?_, fun f hf => ?_⟩
  · have : Std.Total fun a b : Retainer => b.instances ≤ a.instances := ⟨fun a b => Nat.le_total _ _⟩
    have : IsTrans Retainer fun a b : Retainer => b.instances ≤ a.instances := ⟨fun a b c hab hbc => Nat.le_trans hbc hab⟩
    exact List.pairwise_insertionSort _ _
  · have hlooks : (groups.map Prod.snd).map (Retainer.look upper) = groups.map Prod.fst := by
      rw [List.map_map]
      exact List.map_congr_left fun e he => (h.group e.1 e.2 he).1
    rw [(hperm.map (Retainer.look upper)).nodup_iff, hlooks]
    exact h.nodup
  · obtain ⟨s, hs⟩ := (hmem r).mp hr
    obtain ⟨hlook, hin, hcount⟩ := h.group s r hs
    exact ⟨hin, by rw [hcount, hlook]⟩
  · obtain ⟨r, hr⟩ := h.all f hf
    have hlook := (h.group _ r hr).1
    exact ⟨r, (hmem r).mpr ⟨_, hr⟩, hlook.symm, classify_of_signature hlook.symm⟩

end

/-! ## What is found of the heap -/

section

variable {heap : Heap} {typeName : String}

theorem nodup_eraseDups (l : List Nat) : l.eraseDups.Nodup := by
  induction hn : l.length using Nat.strong_induction_on generalizing l with
  | _ n ih =>
    cases l with
    | nil => exact List.nodup_nil
    | cons a l =>
      rw [List.eraseDups_cons, List.nodup_cons]
      refine ⟨fun hin => ?_, ih _ ?_ _ rfl⟩
      · have hne := (List.mem_filter.mp (List.mem_eraseDups.mp hin)).2
        simp at hne
      · rw [← hn]
        exact Nat.lt_succ_of_le (List.length_filter_le _ _)

theorem targets_nodup (heap : Heap) (typeName : String) : (heap.targets typeName).Nodup := nodup_eraseDups _

theorem mem_targets {a : Nat} : a ∈ heap.targets typeName ↔ heap.Instance typeName a := by
  rw [Heap.targets, List.mem_eraseDups, Heap.matching, List.mem_filter]
  exact Iff.rfl

open Classical in
theorem ncard_instances (P : Nat → Prop) :
    {a | heap.Instance typeName a ∧ P a}.ncard = ((heap.targets typeName).filter fun t => P t).length := by
  have hset : {a | heap.Instance typeName a ∧ P a} = ↑((heap.targets typeName).filter fun t => P t).toFinset := by
    ext a
    simp [mem_targets]
  rw [hset, Set.ncard_coe_finset, List.toFinset_card_of_nodup ((targets_nodup heap typeName).filter _)]

theorem Heap.Durable.live {a : Nat} (h : heap.Durable a) : heap.Live a := ⟨false, h⟩

open Classical in
/-- The two sides of the census are the live targets. -/
theorem sides_perm (heap : Heap) (l : List Nat) :
    (l.filter (fun t => heap.Durable t) ++ l.filter fun t => heap.Live t ∧ ¬heap.Durable t).Perm
    (l.filter fun t => heap.Live t) := by
  have hperm := List.filter_append_perm (fun t => decide (heap.Durable t)) (l.filter fun t => heap.Live t)
  rw [List.filter_filter, List.filter_filter] at hperm
  refine (List.Perm.of_eq ?_).trans hperm
  congr 1
  · refine List.filter_congr fun t _ => ?_
    by_cases h : heap.Durable t <;> simp [h, Heap.Durable.live]
  · refine List.filter_congr fun t _ => ?_
    by_cases h : heap.Durable t <;> by_cases h' : heap.Live t <;> simp [h, h']

open Classical in
/-- The report by the two sides of the targets. -/
theorem findRetainers_eq (upper : Char → Char) (heap : Heap) (typeName : String) (sample maxHops : Nat) :
    ∃ report found, findRetainers upper heap typeName sample maxHops = some report ∧
      report.totalOnHeap = (heap.matching typeName).length ∧
      report.retained = ((heap.targets typeName).filter fun t => heap.Live t).length ∧
      report.durableRetained = ((heap.targets typeName).filter fun t => heap.Durable t).length ∧
      (∀ t ∈ heap.targets typeName, heap.Live t → Grounded heap maxHops t (found t)) ∧
      let shown := ((heap.targets typeName).filter (fun t => heap.Durable t) ++
        (heap.targets typeName).filter fun t => heap.Live t ∧ ¬heap.Durable t).take sample
      report.pathsResolved = shown.length ∧ Histogram upper (shown.map found) report.retainers := by
  cases hn : heap.targets typeName with
  | nil =>
    have hzero : (heap.matching typeName).length = 0 := by
      cases hm : heap.matching typeName with
      | nil => rfl
      | cons a rest =>
        have hin : a ∈ heap.targets typeName := by
          rw [Heap.targets, List.mem_eraseDups, hm]
          exact List.mem_cons_self
        rw [hn] at hin
        cases hin
    refine ⟨⟨typeName, 0, 0, 0, 0, []⟩, fun _ => ([], .none), by rw [findRetainers, hn], hzero.symm, rfl, rfl, ?_, ?_⟩
    · exact fun t ht => absurd ht List.not_mem_nil
    · rw [List.filter_nil, List.filter_nil, List.append_nil, List.take_nil]
      exact ⟨rfl, List.Pairwise.nil, List.nodup_nil, fun r hr => absurd hr List.not_mem_nil,
        fun f hf => absurd hf List.not_mem_nil⟩
  | cons first more =>
    obtain ⟨m, hmarks, hexact⟩ := marks_exact heap (first :: more)
    have hcensus := census_exact hexact fun t ht => ht
    have hfound : ∀ t ∈ first :: more, heap.Live t → ∃ f, unwind heap m maxHops t = some f ∧ Grounded heap maxHops t f := by
      intro t ht hlive
      by_cases hdur : heap.Durable t
      · obtain ⟨way, k, htraced⟩ := hexact.durable t ht hdur
        exact ⟨_, unwind_eq htraced maxHops, htraced.grounded (fun h => absurd h Bool.false_ne_true) maxHops⟩
      · obtain ⟨way, k, htraced⟩ := hexact.transient t ht hlive hdur
        exact ⟨_, unwind_eq htraced maxHops, htraced.grounded (fun _ => hdur) maxHops⟩
    let found : Nat → List Hop × RootKind := fun t => (unwind heap m maxHops t).getD ([], .none)
    let shown := ((first :: more).filter (fun t => heap.Durable t) ++
      (first :: more).filter fun t => heap.Live t ∧ ¬heap.Durable t).take sample
    have hlive : ∀ t ∈ shown, t ∈ first :: more ∧ heap.Live t := by
      intro t ht
      have hin := (sides_perm heap (first :: more)).mem_iff.mp (List.mem_of_mem_take ht)
      exact ⟨(List.mem_filter.mp hin).1, of_decide_eq_true (List.mem_filter.mp hin).2⟩
    have hshown : ∀ t ∈ shown, unwind heap m maxHops t = some (found t) := by
      intro t ht
      obtain ⟨f, hf, -⟩ := hfound t (hlive t ht).1 (hlive t ht).2
      rw [hf]
      exact congrArg some (congrArg (Option.getD · _) hf).symm
    have hstart : Tallied upper [] [] :=
      ⟨List.nodup_nil, fun s r h => absurd h List.not_mem_nil, fun f h => absurd h List.not_mem_nil⟩
    obtain ⟨groups, hgroups, htallied⟩ := resolve_tallied hshown hstart
    rw [List.nil_append] at htallied
    let durable := (first :: more).filter fun t => heap.Durable t
    let transient := (first :: more).filter fun t => heap.Live t ∧ ¬heap.Durable t
    have hreport : findRetainers upper heap typeName sample maxHops =
        some ⟨(heap.name first).getD "", (heap.matching typeName).length, durable.length + transient.length, durable.length,
          shown.length, ranked groups⟩ := by
      rw [findRetainers, hn]
      dsimp only
      rw [hmarks, Option.bind_eq_bind, Option.bind_some, hcensus]
      dsimp only [Option.bind_eq_bind, Option.bind_some]
      rw [hgroups]
      rfl
    refine ⟨_, found, hreport, rfl, ?_, rfl, ?_, rfl, htallied.histogram⟩
    · rw [← List.length_append]
      exact (sides_perm heap (first :: more)).length_eq
    · intro t ht hl
      obtain ⟨f, hf, hground⟩ := hfound t ht hl
      have : found t = f := congrArg (Option.getD · _) hf
      rwa [this]

theorem matching_ne_zero : (heap.matching typeName).length ≠ 0 ↔ ∃ a, heap.Instance typeName a := by
  rw [ne_eq, List.length_eq_zero_iff, ← ne_eq, List.ne_nil_iff_exists_cons]
  constructor
  · intro h
    obtain ⟨a, rest, hm⟩ := h
    exact ⟨a, List.mem_filter.mp (by rw [Heap.matching] at hm; rw [hm]; exact List.mem_cons_self)⟩
  · intro h
    obtain ⟨a, ha⟩ := h
    exact List.exists_cons_of_ne_nil (List.ne_nil_of_mem (List.mem_filter.mpr ha))

theorem ncard_ne_zero {P : Nat → Prop} :
    {a | heap.Instance typeName a ∧ P a}.ncard ≠ 0 ↔ ∃ a, heap.Instance typeName a ∧ P a := by
  classical
  rw [ncard_instances, ne_eq, List.length_eq_zero_iff, List.filter_eq_nil_iff]
  simp [mem_targets]

/-- The verdict and the counts are those of the heap, whatever the budgets. -/
theorem roots_exact (upper : Char → Char) (heap : Heap) (typeName : String) (sampleArg maxHopsArg : Int) :
    ∃ artifact code, roots upper heap typeName sampleArg maxHopsArg = some (artifact, code) ∧
      (artifact.verdict = .absent ↔ ¬∃ a, heap.Instance typeName a) ∧
      (artifact.verdict = .retained ↔ ∃ a, heap.Instance typeName a ∧ heap.Durable a) ∧
      code = (if artifact.verdict = .retained then 1 else 0) ∧
      artifact.instancesOnHeap = (heap.matching typeName).length ∧
      artifact.instancesReachable = {a | heap.Instance typeName a ∧ heap.Live a}.ncard ∧
      artifact.instancesDurablyRetained = {a | heap.Instance typeName a ∧ heap.Durable a}.ncard := by
  classical
  obtain ⟨report, found, hreport, htotal, hlive, hdurable, -⟩ :=
    findRetainers_eq upper heap typeName (max 1 sampleArg).toNat (max 1 maxHopsArg).toNat
  rw [← ncard_instances] at hlive hdurable
  have hall : report.totalOnHeap ≠ 0 ↔ ∃ a, heap.Instance typeName a := by rw [htotal, matching_ne_zero]
  have hreach : report.retained ≠ 0 ↔ ∃ a, heap.Instance typeName a ∧ heap.Live a := by rw [hlive, ncard_ne_zero]
  have hheld : report.durableRetained ≠ 0 ↔ ∃ a, heap.Instance typeName a ∧ heap.Durable a := by rw [hdurable, ncard_ne_zero]
  have har : Verdict.absent ≠ .retained := by decide
  have hor : Verdict.observedOnly ≠ .retained := by decide
  have hoa : Verdict.observedOnly ≠ .absent := by decide
  rw [roots, hreport]
  dsimp only [Option.bind_eq_bind, Option.bind_some]
  by_cases h₀ : report.totalOnHeap = 0
  · rw [if_pos h₀]
    have hno : ¬∃ a, heap.Instance typeName a := fun h => hall.mpr h h₀
    refine ⟨_, _, rfl, iff_of_true rfl hno, iff_of_false har fun h => ?_, rfl, htotal, hlive, hdurable⟩
    obtain ⟨a, ha, -⟩ := h
    exact hno ⟨a, ha⟩
  · rw [if_neg h₀]
    have hsome := hall.mp h₀
    by_cases h₁ : report.retained = 0
    · rw [if_pos h₁]
      refine ⟨_, _, rfl, iff_of_false hoa (not_not_intro hsome), iff_of_false hor fun h => ?_, rfl, htotal, hlive, hdurable⟩
      obtain ⟨a, ha, hd⟩ := h
      exact hreach.mpr ⟨a, ha, hd.live⟩ h₁
    · rw [if_neg h₁]
      by_cases h₂ : report.durableRetained = 0
      · rw [if_pos h₂]
        refine ⟨_, _, rfl, iff_of_false hoa (not_not_intro hsome), iff_of_false hor fun h => ?_, rfl, htotal, hlive, hdurable⟩
        exact hheld.mpr h h₂
      · rw [if_neg h₂]
        exact ⟨_, _, rfl, iff_of_false har.symm (not_not_intro hsome), iff_of_true rfl (hheld.mp h₂),
          rfl, htotal, hlive, hdurable⟩

/-- The ways resolved are shortest ones, those of durable roots first, and the retainers account for each of them. -/
theorem findRetainers_shown (upper : Char → Char) (heap : Heap) (typeName : String) (sample maxHops : Nat) :
    ∃ (report : RetentionReport) (shown : List Nat) (found : Nat → List Hop × RootKind),
      findRetainers upper heap typeName sample maxHops = some report ∧ shown.Nodup ∧
      shown.length = min sample {a | heap.Instance typeName a ∧ heap.Live a}.ncard ∧ report.pathsResolved = shown.length ∧
      (∀ t ∈ shown, heap.Instance typeName t ∧ Grounded heap maxHops t (found t)) ∧
      (∀ t ∈ shown, ¬heap.Durable t → ∀ a, heap.Instance typeName a → heap.Durable a → a ∈ shown) ∧
      Histogram upper (shown.map found) report.retainers := by
  classical
  obtain ⟨report, found, hreport, -, -, -, hground, hresolved, hhist⟩ := findRetainers_eq upper heap typeName sample maxHops
  have hperm := sides_perm heap (heap.targets typeName)
  have hnodup := (targets_nodup heap typeName).filter (fun t => decide (heap.Live t))
  refine ⟨report, _, found, hreport, ?_, ?_, hresolved, fun t ht => ?_, fun t ht hno a ha hd => ?_, hhist⟩
  · exact (hperm.nodup_iff.mpr hnodup).sublist (List.take_sublist _ _)
  · rw [List.length_take, hperm.length_eq, ncard_instances]
  · have hin := List.mem_filter.mp (hperm.mem_iff.mp (List.mem_of_mem_take ht))
    exact ⟨mem_targets.mp hin.1, hground t hin.1 (of_decide_eq_true hin.2)⟩
  · -- one of the second side is among the first only where all of the first side are
    have hmem : a ∈ (heap.targets typeName).filter fun t => heap.Durable t :=
      List.mem_filter.mpr ⟨mem_targets.mpr ha, decide_eq_true hd⟩
    rw [List.take_append] at ht ⊢
    rcases List.mem_append.mp ht with ht | ht
    · exact absurd (of_decide_eq_true (List.mem_filter.mp (List.mem_of_mem_take ht)).2) hno
    · have hpos := List.length_pos_of_mem ht
      rw [List.length_take] at hpos
      rw [List.take_of_length_le (by omega)]
      exact List.mem_append_left _ hmem

/-! ## The kinds that are shown -/

theorem isDurableKind_classify (upper : Char → Char) (k : RootKind) (path : List Hop) :
    isDurableKind (classify upper k path) = !isTransientRootKind k := by
  have hif : ∀ (c : Bool) (s s' : String), isDurableKind s = true → isDurableKind s' = true →
      isDurableKind (if c = true then s else s') = true := by
    intro c s s' hs hs'
    split
    next => exact hs
    next => exact hs'
  cases k with
  | other n =>
    have hne : ∀ s : String, s.toList.head? ≠ some 'u' → "unsupported-root:" ++ Int.repr n ≠ s := by
      intro s hs he
      rw [← he, String.toList_append] at hs
      exact hs rfl
    change isDurableKind ("unsupported-root:" ++ Int.repr n) = true
    rw [isDurableKind, decide_eq_true (hne "stack" (by decide)), decide_eq_true (hne "finalizer" (by decide))]
    rfl
  | none => exact (by decide : isDurableKind ("unsupported-root:" ++ "None") = true)
  | finalizerQueue => exact (by decide : isDurableKind "finalizer" = false)
  | stack => exact (by decide : isDurableKind "stack" = false)
  | strongHandle => exact hif _ _ _ (by decide) (by decide)
  | pinnedHandle => exact hif _ _ _ (by decide) (by decide)
  | refCountedHandle => exact hif _ _ _ (by decide) (by decide)
  | asyncPinnedHandle => exact hif _ _ _ (by decide) (by decide)
  | sizedRefHandle => exact hif _ _ _ (by decide) (by decide)

theorem Histogram.length_le {upper : Char → Char} {founds : List (List Hop × RootKind)} {retainers : List Retainer}
    (h : Histogram upper founds retainers) : retainers.length ≤ founds.length := by
  have hsub : retainers.map (Retainer.look upper) ⊆ founds.map (signature upper) := by
    intro s hs
    obtain ⟨r, hr, rfl⟩ := List.mem_map.mp hs
    exact List.mem_map.mpr ⟨_, (h.shown r hr).1, rfl⟩
  have hle := (h.apart.subperm hsub).length_le
  rwa [List.length_map, List.length_map] at hle

theorem verdictOf_written (upper : Char → Char) (retainers : List Retainer) :
    verdictOf ((retainers.map (Retainer.write upper)).map WrittenRoot.kind) = .retained ↔
      ∃ r ∈ retainers, isTransientRootKind r.rootKind = false := by
  have hany : ((retainers.map (Retainer.write upper)).map WrittenRoot.kind).any isDurableKind = true ↔
      ∃ r ∈ retainers, isTransientRootKind r.rootKind = false := by
    rw [List.map_map, List.any_map, List.any_eq_true]
    refine exists_congr fun r => and_congr_right fun _ => ?_
    change isDurableKind (classify upper r.rootKind r.path) = true ↔ _
    rw [isDurableKind_classify, Bool.not_eq_true']
  rw [← hany, verdictOf]
  split
  next h => exact iff_of_true rfl h
  next h => exact iff_of_false (by decide) h

section

variable {upper : Char → Char} {sample : Nat} {durable transient : List Nat} {found : Nat → List Hop × RootKind}
  {retainers : List Retainer}

/-- The instances of which ways are shown, those of durable roots first, and the groups of their ways. -/
structure Sampled (heap : Heap) (upper : Char → Char) (sample : Nat) (durable transient : List Nat)
    (found : Nat → List Hop × RootKind) (retainers : List Retainer) : Prop where
  held : ∀ t ∈ durable, heap.Durable t
  unheld : ∀ t ∈ transient, ¬heap.Durable t
  side : ∀ t ∈ (durable ++ transient).take sample, isTransientRootKind (found t).2 = true ↔ ¬heap.Durable t
  groups : Histogram upper (((durable ++ transient).take sample).map found) retainers

namespace Sampled

/-- Without an instance of a durable root no group has one. -/
theorem none_durable (h : Sampled heap upper sample [] transient found retainers) :
    ∀ r ∈ retainers, isTransientRootKind r.rootKind = true := by
  intro r hr
  obtain ⟨t, ht, he⟩ := List.mem_map.mp (h.groups.shown r hr).1
  have htr := (h.side t ht).mpr (h.unheld t (List.mem_of_mem_take ht))
  rwa [he] at htr

/-- Where the instances of durable roots fill the sample, every group has one. -/
theorem all_durable (h : Sampled heap upper sample durable transient found retainers) (hall : sample ≤ durable.length) :
    ∀ r ∈ retainers, isTransientRootKind r.rootKind = false := by
  intro r hr
  obtain ⟨t, ht, he⟩ := List.mem_map.mp (h.groups.shown r hr).1
  have htd : heap.Durable t := by
    rw [List.take_append_of_le_length hall] at ht
    exact h.held t (List.mem_of_mem_take ht)
  rw [← Bool.not_eq_true]
  intro htr
  rw [show r.rootKind = (found t).2 from (congrArg Prod.snd he).symm] at htr
  exact (h.side t ht).mp htr htd

/-- An instance of a durable root comes first among the shown, so some group has one. -/
theorem some_durable (h : Sampled heap upper sample durable transient found retainers) (hsample : 1 ≤ sample)
    (hne : durable ≠ []) : ∃ r ∈ retainers, isTransientRootKind r.rootKind = false := by
  obtain ⟨t, rest, hcons⟩ := List.exists_cons_of_ne_nil hne
  have ht : t ∈ (durable ++ transient).take sample := by
    rw [hcons]
    obtain ⟨n, rfl⟩ : ∃ n, sample = n + 1 := ⟨sample - 1, by omega⟩
    exact List.mem_cons_self
  have htd : heap.Durable t := h.held t (by rw [hcons]; exact List.mem_cons_self)
  obtain ⟨r, hr, -, hkind⟩ := h.groups.all _ (List.mem_map.mpr ⟨t, ht, rfl⟩)
  refine ⟨r, hr, ?_⟩
  have hdur : isDurableKind (r.contractKind upper) = true := by
    rw [← hkind, isDurableKind_classify, Bool.not_eq_true', ← Bool.not_eq_true]
    exact fun htr => (h.side t ht).mp htr htd
  rwa [Retainer.contractKind, isDurableKind_classify, Bool.not_eq_true'] at hdur

/-- Of the first groups some has one too, where all are of durable roots or none is left out. -/
theorem first_durable (h : Sampled heap upper sample durable transient found retainers) (hsample : 1 ≤ sample)
    (hne : durable ≠ []) {n : Nat} (hn : 1 ≤ n)
    (hfew : sample ≤ durable.length ∨ ((durable ++ transient).take sample).length ≤ n) :
    ∃ r ∈ retainers.take n, isTransientRootKind r.rootKind = false := by
  obtain ⟨r, hr, hk⟩ := h.some_durable hsample hne
  rcases hfew with hall | hshort
  · obtain ⟨r', rest, hcons⟩ := List.exists_cons_of_ne_nil (List.ne_nil_of_mem hr)
    obtain ⟨k, rfl⟩ : ∃ k, n = k + 1 := ⟨n - 1, by omega⟩
    exact ⟨r', by rw [hcons]; exact List.mem_cons_self, h.all_durable hall r' (by rw [hcons]; exact List.mem_cons_self)⟩
  · have hle := h.groups.length_le
    rw [List.length_map] at hle
    rw [List.take_of_length_le (hle.trans hshort)]
    exact ⟨r, hr, hk⟩

end Sampled

end

/-- The kinds written down tell retention where they leave out no group of a durable root for one of another. -/
theorem written_retained {upper : Char → Char} {sampleArg maxHopsArg : Int} {artifact : Artifact} {code : Nat}
    (h : roots upper heap typeName sampleArg maxHopsArg = some (artifact, code))
    (hfew : artifact.instancesDurablyRetained = 0 ∨ artifact.sampleBudget ≤ artifact.instancesDurablyRetained ∨
      artifact.pathsResolved ≤ 5) :
    verdictOf (artifact.roots.map WrittenRoot.kind) = .retained ↔ artifact.verdict = .retained := by
  classical
  obtain ⟨report, found, hreport, -, -, hdurable, hground, hresolved, hhist⟩ :=
    findRetainers_eq upper heap typeName (max 1 sampleArg).toNat (max 1 maxHopsArg).toNat
  have hsample : 1 ≤ (max 1 sampleArg).toNat := by omega
  generalize hs : (max 1 sampleArg).toNat = sample at hsample hreport hresolved hhist
  generalize hD : (heap.targets typeName).filter (fun t => heap.Durable t) = durable at hdurable hresolved hhist
  generalize hT : (heap.targets typeName).filter (fun t => heap.Live t ∧ ¬heap.Durable t) = transient at hresolved hhist
  have hinD : ∀ t ∈ durable, t ∈ heap.targets typeName ∧ heap.Durable t := by
    intro t ht
    rw [← hD, List.mem_filter, decide_eq_true_eq] at ht
    exact ht
  have hinT : ∀ t ∈ transient, t ∈ heap.targets typeName ∧ heap.Live t ∧ ¬heap.Durable t := by
    intro t ht
    rw [← hT, List.mem_filter, decide_eq_true_eq] at ht
    exact ht
  have hsampled : Sampled heap upper sample durable transient found report.retainers := by
    refine ⟨fun t ht => (hinD t ht).2, fun t ht => (hinT t ht).2.2, fun t ht => ?_, hhist⟩
    rcases List.mem_append.mp (List.mem_of_mem_take ht) with hd | hd
    · exact (hground t (hinD t hd).1 (hinD t hd).2.live).transient_iff
    · exact (hground t (hinT t hd).1 (hinT t hd).2.1).transient_iff
  have hnone : verdictOf [] ≠ .retained := by decide
  rw [roots, hs, hreport] at h
  dsimp only [Option.bind_eq_bind, Option.bind_some] at h
  by_cases h₀ : report.totalOnHeap = 0
  · rw [if_pos h₀] at h
    cases h
    exact iff_of_false hnone (by decide : Verdict.absent ≠ .retained)
  rw [if_neg h₀] at h
  by_cases h₁ : report.retained = 0
  · rw [if_pos h₁] at h
    cases h
    exact iff_of_false hnone (by decide : Verdict.observedOnly ≠ .retained)
  rw [if_neg h₁] at h
  by_cases h₂ : report.durableRetained = 0
  · rw [if_pos h₂] at h
    cases h
    refine iff_of_false (fun hv => ?_) (by decide : Verdict.observedOnly ≠ .retained)
    obtain ⟨r, hr, hk⟩ := (verdictOf_written upper _).mp hv
    rw [List.eq_nil_of_length_eq_zero (hdurable.symm.trans h₂)] at hsampled
    rw [hsampled.none_durable r (List.mem_of_mem_take hr)] at hk
    cases hk
  · rw [if_neg h₂] at h
    cases h
    refine iff_of_true ((verdictOf_written upper _).mpr ?_) rfl
    have hne : durable ≠ [] := fun hnil => h₂ (by rw [hdurable, hnil]; rfl)
    refine hsampled.first_durable hsample hne (by omega) ?_
    rw [← hdurable, ← hresolved]
    exact hfew.resolve_left h₂

theorem verdictOf_cases (kinds : List String) : verdictOf kinds = .retained ∨ verdictOf kinds = .observedOnly := by
  rw [verdictOf]
  split
  next => exact .inl rfl
  next => exact .inr rfl

theorem present {upper : Char → Char} {sampleArg maxHopsArg : Int} {artifact : Artifact} {code : Nat}
    (h : roots upper heap typeName sampleArg maxHopsArg = some (artifact, code)) (hsome : ∃ a, heap.Instance typeName a) :
    artifact.verdict ≠ .absent := by
  obtain ⟨report, -, hreport, htotal, -⟩ := findRetainers_eq upper heap typeName (max 1 sampleArg).toNat (max 1 maxHopsArg).toNat
  rw [← matching_ne_zero, ← htotal] at hsome
  rw [roots, hreport] at h
  dsimp only [Option.bind_eq_bind, Option.bind_some] at h
  rw [if_neg hsome] at h
  split at h
  next =>
    cases h
    exact (by decide : Verdict.observedOnly ≠ .absent)
  next =>
    split at h
    next =>
      cases h
      exact (by decide : Verdict.observedOnly ≠ .absent)
    next =>
      cases h
      exact (by decide : Verdict.retained ≠ .absent)

/-- Where there is an instance and no group of a durable root is left out for one of another, the
    verdict read back from the artifact is the artifact's. -/
theorem artifact_agrees {upper : Char → Char} {sampleArg maxHopsArg : Int} {artifact : Artifact} {code : Nat}
    (h : roots upper heap typeName sampleArg maxHopsArg = some (artifact, code)) (hsome : ∃ a, heap.Instance typeName a)
    (hfew : artifact.instancesDurablyRetained = 0 ∨ artifact.sampleBudget ≤ artifact.instancesDurablyRetained ∨
      artifact.pathsResolved ≤ 5) :
    verdictOf (artifact.roots.map WrittenRoot.kind) = artifact.verdict := by
  have hiff := written_retained h hfew
  cases hv : artifact.verdict with
  | absent => exact absurd hv (present h hsome)
  | retained => exact hiff.mpr hv
  | observedOnly =>
    rcases verdictOf_cases (artifact.roots.map WrittenRoot.kind) with hr | ho
    · rw [hiff.mp hr] at hv
      cases hv
    · exact ho

end

/-! ## Two heaps -/

/-- A static field of an object keeps another. -/
def pinned : Heap where
  objects := [1, 2]
  roots := [(1, .pinnedHandle)]
  isValid a := a = 1 || a = 2
  type a := some (some (if a = 1 then "Cache" else "View"))
  references a := if a = 1 then [2] else []
  referencesWithFields a := if a = 1 then [(2, some "entry")] else []
  valid_ne a h := by
    rintro rfl
    cases h
  valid_lt a h := by
    simp at h
    omega

theorem artifact_agrees_pinned : ∃ artifact code, roots id pinned "View" 200 40 = some (artifact, code) ∧
    verdictOf (artifact.roots.map WrittenRoot.kind) = artifact.verdict := by
  refine ⟨⟨.retained, "View", 1, [⟨"static-field", "Cache", "entry", "reference", 1, ["Cache", "View  (.entry)"]⟩],
    1, 1, 1, 1, 200, 40⟩, 1, ?_, ?_⟩
  · decide
  · exact artifact_agrees (by decide : roots id pinned "View" 200 40 = some (_, 1)) ⟨2, by decide, rfl⟩ (.inr (.inr (by decide)))

/-- One instance is held by a handle, and five locals hold two each. -/
def crowded : Heap where
  objects := [1, 2, 3, 4, 5, 6, 11, 12, 21, 22, 31, 32, 41, 42, 51, 52, 61]
  roots := [(1, .stack), (2, .stack), (3, .stack), (4, .stack), (5, .stack), (6, .strongHandle)]
  isValid a := a ∈ [1, 2, 3, 4, 5, 6, 11, 12, 21, 22, 31, 32, 41, 42, 51, 52, 61]
  type a := some (some (if a < 10 then ["", "A", "B", "C", "D", "E", "Cache"].getD a "" else "View"))
  references a := [[], [11, 12], [21, 22], [31, 32], [41, 42], [51, 52], [61]].getD a []
  referencesWithFields _ := []
  valid_ne a h := by
    rintro rfl
    cases h
  valid_lt a h := by
    simp at h
    omega

/-- A verdict of retention goes out without the way that it rests on, behind five groups of more instances. -/
theorem crowded_out : (roots id crowded "View" 200 40).map (fun r => (r.1.verdict, r.1.roots.map WrittenRoot.kind)) =
    some (.retained, ["stack", "stack", "stack", "stack", "stack"]) := by decide

end OwnNet.Retention
