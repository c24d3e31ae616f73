/-
  OwnNet.Obligations.Exactness — what `_Walker` carries is exactly what there is to say of the
  paths: whether one is open, whether one is closed, and the earliest line that opened one.

  Every event takes what is exact of some paths to what is exact of those they lead to
  (`leaf_exact`, `walk_exact`); so the header a loop settles on is exact of any number of rounds,
  and the one pass that reports walks over it. A loop settles, since every round that changes the
  header adds a state to it or moves its line down to another line of the body (`rank_lt`).

  Proved: `walker_exact`.
-/

import OwnNet.Obligations.Paths
import Mathlib.Order.Bounds.Basic
import Mathlib.Data.List.Forall2
import Mathlib.Data.List.ReduceOption
import Mathlib.Data.Finset.Card

namespace OwnNet.Obligations

open Dataflow

/-! ## What is exact of some paths -/

/-- The lines that opened what is open on some path. -/
def linesOf (S : Set Openings) : Set Int := {l | ∃ s ∈ S, l ∈ s}

structure Exact (S : Set Openings) (st : State) : Prop where
  opened : st.opened = true ↔ ∃ s ∈ S, s ≠ []
  closed : st.closed = true ↔ [] ∈ S
  recorded : st.openLine.isSome = st.opened
  least : ∀ l, st.openLine = some l → IsLeast (linesOf S) l

variable {S T : Set Openings} {st st' : State}

theorem linesOf_union : linesOf (S ∪ T) = linesOf S ∪ linesOf T := by
  ext l
  constructor
  · rintro ⟨s, hs | hs, hl⟩
    · exact .inl ⟨s, hs, hl⟩
    · exact .inr ⟨s, hs, hl⟩
  · rintro (⟨s, hs, hl⟩ | ⟨s, hs, hl⟩)
    · exact ⟨s, .inl hs, hl⟩
    · exact ⟨s, .inr hs, hl⟩

/-- Where no line is recorded nothing is open. -/
theorem Exact.unopened (h : Exact S st) (hno : st.openLine = none) : linesOf S = ∅ := by
  have hopened : st.opened = false := by rw [← h.recorded, hno]; rfl
  refine Set.eq_empty_of_forall_notMem fun l ⟨s, hs, hl⟩ => ?_
  have : st.opened = true := h.opened.mpr ⟨s, hs, List.ne_nil_of_mem hl⟩
  rw [hopened] at this
  cases this

theorem exact_empty : Exact ∅ .bottom where
  opened := ⟨fun h => (by cases h), fun ⟨_, h, _⟩ => h.elim⟩
  closed := ⟨fun h => (by cases h), fun h => h.elim⟩
  recorded := rfl
  least := fun _ h => by cases h

theorem isLeast_minLine {A B : Set Int} {a b : Option Int} (ha : ∀ l, a = some l → IsLeast A l) (ha' : a = none → A = ∅)
    (hb : ∀ l, b = some l → IsLeast B l) (hb' : b = none → B = ∅) : ∀ l, minLine a b = some l → IsLeast (A ∪ B) l := by
  intro l hl
  cases a with
  | none =>
    rw [ha' rfl, Set.empty_union]
    exact hb l hl
  | some x =>
    cases b with
    | none =>
      rw [hb' rfl, Set.union_empty]
      exact ha l hl
    | some y =>
      cases hl
      exact (ha x rfl).union (hb y rfl)

theorem Exact.join (h : Exact S st) (h' : Exact T st') : Exact (S ∪ T) (st.join st') where
  opened := by
    rw [State.join, Bool.or_eq_true, h.opened, h'.opened]
    constructor
    · rintro (⟨s, hs, hne⟩ | ⟨s, hs, hne⟩)
      · exact ⟨s, .inl hs, hne⟩
      · exact ⟨s, .inr hs, hne⟩
    · rintro ⟨s, hs | hs, hne⟩
      · exact .inl ⟨s, hs, hne⟩
      · exact .inr ⟨s, hs, hne⟩
  closed := by
    rw [State.join, Bool.or_eq_true, h.closed, h'.closed]
    rfl
  recorded := by
    rw [State.join, ← h.recorded, ← h'.recorded]
    cases st.openLine <;> cases st'.openLine <;> rfl
  least := by
    rw [linesOf_union]
    exact isLeast_minLine h.least h.unopened h'.least h'.unopened

/-- States that stay the same are exact of the limit. -/
theorem Exact.limit {S : Nat → Set Openings} (h : ∀ n, Exact (S n) st) : Exact (⋃ n, S n) st where
  opened := by
    constructor
    · intro hopened
      obtain ⟨s, hs, hne⟩ := (h 0).opened.mp hopened
      exact ⟨s, Set.mem_iUnion.mpr ⟨0, hs⟩, hne⟩
    · rintro ⟨s, hs, hne⟩
      obtain ⟨n, hn⟩ := Set.mem_iUnion.mp hs
      exact (h n).opened.mpr ⟨s, hn, hne⟩
  closed := by
    constructor
    · exact fun hclosed => Set.mem_iUnion.mpr ⟨0, (h 0).closed.mp hclosed⟩
    · intro hs
      obtain ⟨n, hn⟩ := Set.mem_iUnion.mp hs
      exact (h n).closed.mpr hn
  recorded := (h 0).recorded
  least l hl := by
    obtain ⟨s, hs, hmem⟩ := ((h 0).least l hl).1
    refine ⟨⟨s, Set.mem_iUnion.mpr ⟨0, hs⟩, hmem⟩, fun k ⟨t, ht, hk⟩ => ?_⟩
    obtain ⟨n, hn⟩ := Set.mem_iUnion.mp ht
    exact ((h n).least l hl).2 ⟨t, hn, hk⟩

theorem collects : Collects Exact State.join := ⟨Exact.join, fun _ h => Exact.limit h⟩

/-! ## One act -/

variable {p : Protocol} {m : MethodEvents}

theorem exact_opened (hne : S.Nonempty) (h : Exact S st) (line : Int) :
    Exact {t | ∃ s ∈ S, t = line :: s} ⟨true, false, minLine (some line) st.openLine⟩ := by
  obtain ⟨s₀, hs₀⟩ := hne
  have hlines : linesOf {t | ∃ s ∈ S, t = line :: s} = {line} ∪ linesOf S := by
    ext l
    constructor
    · rintro ⟨t, ⟨s, hs, rfl⟩, hl⟩
      rcases List.mem_cons.mp hl with rfl | hl
      · exact .inl rfl
      · exact .inr ⟨s, hs, hl⟩
    · rintro (rfl | ⟨s, hs, hl⟩)
      · exact ⟨_, ⟨s₀, hs₀, rfl⟩, List.mem_cons_self⟩
      · exact ⟨_, ⟨s, hs, rfl⟩, List.mem_cons_of_mem _ hl⟩
  refine ⟨⟨fun _ => ⟨_, ⟨s₀, hs₀, rfl⟩, List.cons_ne_nil _ _⟩, fun _ => rfl⟩,
    ⟨fun hc => (by cases hc), fun ⟨_, _, hc⟩ => by cases hc⟩,
    ?_, ?_⟩
  · cases st.openLine <;> rfl
  · rw [hlines]
    exact isLeast_minLine (fun l hl => by cases hl; exact isLeast_singleton) (fun hl => by cases hl) h.least h.unopened

theorem exact_closed : Exact {[]} ⟨false, true, none⟩ :=
  ⟨⟨fun ho => (by cases ho), fun ⟨_, hs, hne⟩ => absurd hs hne⟩, ⟨fun _ => rfl, fun _ => rfl⟩, rfl, fun l hl => by cases hl⟩

/-- What may discharge the obligation leaves what is closed closed. -/
theorem exact_discharged (h : Exact S st) : Exact (S ∪ {[]}) { st with closed := true } where
  opened := by
    rw [h.opened]
    constructor
    · exact fun ⟨s, hs, hne⟩ => ⟨s, .inl hs, hne⟩
    · rintro ⟨s, hs | hs, hne⟩
      · exact ⟨s, hs, hne⟩
      · exact absurd hs hne
  closed := ⟨fun _ => .inr rfl, fun _ => rfl⟩
  recorded := h.recorded
  least := by
    have hlines : linesOf (S ∪ {[]}) = linesOf S := by
      rw [linesOf_union]
      refine Set.union_eq_left.mpr fun l ⟨s, hs, hl⟩ => ?_
      rw [Set.mem_singleton_iff.mp hs] at hl
      cases hl
    rw [hlines]
    exact h.least

theorem leaf_exact (hne : S.Nonempty) (h : Exact S st) (a : Act) : Exact (image (Does p a) S) (leafState p a st) := by
  unfold leafState
  by_cases hopens : p.opens.matches a = true
  · have himage : image (Does p a) S = {t | ∃ s ∈ S, t = a.line :: s} := by
      ext t
      simp only [image, Does, hopens, if_true]
    rw [if_pos hopens, himage]
    exact exact_opened hne h a.line
  · rw [if_neg hopens]
    by_cases hcloses : p.closes.matches a = true
    · have himage : image (Does p a) S = {[]} := by
        ext t
        simp only [image, Does, hopens, hcloses, if_true, Bool.false_eq_true, if_false]
        exact ⟨fun ⟨_, _, ht⟩ => ht, fun ht => hne.imp fun s hs => ⟨hs, ht⟩⟩
      rw [if_pos hcloses, himage]
      exact exact_closed
    · rw [if_neg hcloses]
      have himage : image (Does p a) S = S ∪ {t | S.Nonempty ∧ p.mayDischarge a = true ∧ t = []} := by
        ext t
        simp only [image, Does, hopens, hcloses, Bool.false_eq_true, if_false]
        constructor
        · rintro ⟨s, hs, rfl | hd⟩
          · exact .inl hs
          · exact .inr ⟨⟨s, hs⟩, hd⟩
        · rintro (ht | ⟨⟨s, hs⟩, hd⟩)
          · exact ⟨t, ht, .inl rfl⟩
          · exact ⟨s, hs, .inr hd⟩
      rw [himage]
      by_cases hd : st.opened = true ∧ p.mayDischarge a = true
      · have hadd : {t : Openings | S.Nonempty ∧ p.mayDischarge a = true ∧ t = []} = {[]} := by
          ext t
          exact ⟨fun ht => ht.2.2, fun ht => ⟨hne, hd.2, ht⟩⟩
        rw [if_pos hd, hadd]
        exact exact_discharged h
      · have hsame : S ∪ {t | S.Nonempty ∧ p.mayDischarge a = true ∧ t = []} = S := by
          refine Set.union_eq_left.mpr ?_
          rintro t ⟨-, hmay, rfl⟩
          -- nothing is open, so what may be discharged is closed on every path
          obtain ⟨s, hs⟩ := hne
          have hnil : s = [] := by
            by_contra hs'
            exact hd ⟨h.opened.mpr ⟨s, hs, hs'⟩, hmay⟩
          exact hnil ▸ hs
        rw [if_neg hd, hsame]
        exact h

/-! ## What is reported -/

def Point.line : Point → Int
  | .act a => a.line
  | .return_ line => line
  | .throw_ line => line

def Point.kind : Point → Kind
  | .act _ => .barrier
  | .return_ _ => .exit
  | .throw_ _ => .exit

def Point.desc : Point → String
  | .act a => a.desc
  | .return_ _ => "return"
  | .throw_ _ => "throw"

/-- The obligation must not be open here. -/
def Protocol.forbids (p : Protocol) : Point → Bool
  | .act a => ¬p.opens.matches a ∧ ¬p.closes.matches a ∧ p.isBarrier a
  | .return_ _ => p.exitBarriers
  | .throw_ _ => p.exitBarriers

/-- A violation says of the paths that arrive what there is to say. -/
structure Tells (p : Protocol) (m : MethodEvents) (T : Set Openings) (v : Violation) : Prop where
  protocol : v.protocol = p.name
  method : v.method = m.name ∧ v.file = m.file
  definite : v.definite = true ↔ ∀ s ∈ T, s ≠ []
  openLine : IsLeast (linesOf T) v.openLine

/-- What is reported at a point, by the paths that arrive there. -/
structure Judged (p : Protocol) (m : MethodEvents) (T : Set Openings) (pt : Point) (o : Option Violation) : Prop where
  reported : o.isSome = true ↔ p.forbids pt = true ∧ ∃ s ∈ T, s ≠ []
  site : ∀ v, o = some v → v.kind = pt.kind ∧ v.line = pt.line ∧ v.barrierDesc = pt.desc
  tells : ∀ v, o = some v → Tells p m T v

/-- What is reported at the end, by the paths that get there: at the open site. -/
structure JudgedEnd (p : Protocol) (m : MethodEvents) (T : Set Openings) (o : Option Violation) : Prop where
  reported : o.isSome = true ↔ p.exitBarriers = true ∧ ∃ s ∈ T, s ≠ []
  site : ∀ v, o = some v → v.kind = .exit ∧ v.line = v.openLine ∧ v.barrierDesc = "end of method"
  tells : ∀ v, o = some v → Tells p m T v

theorem violation_tells (h : Exact S st) (hopen : st.opened = true) (kind : Kind) (line : Int) (desc : String) :
    Tells p m S (violation p m kind line st desc) := by
  have hsome : st.openLine.isSome = true := h.recorded.trans hopen
  obtain ⟨l, hl⟩ := Option.isSome_iff_exists.mp hsome
  refine ⟨rfl, ⟨rfl, rfl⟩, ?_, ?_⟩
  · have hdef : (violation p m kind line st desc).definite = true ↔ ¬st.closed = true := by simp [violation, hopen]
    rw [hdef, h.closed]
    exact ⟨fun hno s hs hnil => hno (hnil ▸ hs), fun hall hmem => hall [] hmem rfl⟩
  · have hline : (violation p m kind line st desc).openLine = l := by simp [violation, hl]
    rw [hline]
    exact h.least l hl

theorem leaf_judged (h : Exact S st) (a : Act) : Judged p m S (.act a) (leafViolation p m a st) := by
  unfold leafViolation
  by_cases hc : ¬p.opens.matches a ∧ ¬p.closes.matches a ∧ st.opened ∧ p.isBarrier a
  · rw [if_pos hc]
    obtain ⟨ho, hcl, hopen, hb⟩ := hc
    refine ⟨⟨fun _ => ⟨?_, h.opened.mp hopen⟩, fun _ => rfl⟩, fun v hv => ?_, fun v hv => ?_⟩
    · simp [Protocol.forbids, ho, hcl, hb]
    · cases hv
      exact ⟨rfl, rfl, rfl⟩
    · cases hv
      exact violation_tells h hopen _ _ _
  · rw [if_neg hc]
    refine ⟨⟨fun hs => (by cases hs), fun ⟨hf, hs⟩ => ?_⟩, fun v hv => (by cases hv), fun v hv => by cases hv⟩
    simp only [Protocol.forbids, decide_eq_true_eq] at hf
    exact absurd ⟨hf.1, hf.2.1, h.opened.mpr hs, hf.2.2⟩ hc

theorem exit_judged (h : Exact S st) {pt : Point} (hpt : p.forbids pt = p.exitBarriers) (hkind : pt.kind = .exit) :
    Judged p m S pt (exitViolation p m pt.line st pt.desc) := by
  unfold exitViolation
  by_cases hc : p.exitBarriers ∧ st.opened
  · rw [if_pos hc]
    refine ⟨⟨fun _ => ⟨hpt.trans hc.1, h.opened.mp hc.2⟩, fun _ => rfl⟩, fun v hv => ?_, fun v hv => ?_⟩
    · cases hv
      exact ⟨hkind.symm, rfl, rfl⟩
    · cases hv
      exact violation_tells h hc.2 _ _ _
  · rw [if_neg hc]
    refine ⟨⟨fun hs => (by cases hs), fun ⟨hf, hs⟩ => ?_⟩, fun v hv => (by cases hv), fun v hv => by cases hv⟩
    exact absurd ⟨hpt.symm.trans hf, h.opened.mpr hs⟩ hc

theorem end_judged (h : Exact S st) : JudgedEnd p m S (endViolation p m st) := by
  unfold endViolation exitViolation
  by_cases hc : p.exitBarriers ∧ st.opened
  · rw [if_pos hc]
    refine ⟨⟨fun _ => ⟨hc.1, h.opened.mp hc.2⟩, fun _ => rfl⟩, fun v hv => ?_, fun v hv => ?_⟩
    · cases hv
      obtain ⟨l, hl⟩ := Option.isSome_iff_exists.mp (h.recorded.trans hc.2)
      refine ⟨rfl, ?_, rfl⟩
      simp [violation, hl]
    · cases hv
      exact violation_tells h hc.2 _ _ _
  · rw [if_neg hc]
    refine ⟨⟨fun hs => (by cases hs), fun ⟨hf, hs⟩ => ?_⟩, fun v hv => (by cases hv), fun v hv => by cases hv⟩
    exact absurd ⟨hf, h.opened.mpr hs⟩ hc

theorem judged_empty (pt : Point) : Judged p m ∅ pt none :=
  ⟨⟨fun h => (by cases h), fun ⟨_, _, h, _⟩ => h.elim⟩, fun _ h => (by cases h), fun _ h => by cases h⟩

/-- What is reported over some places, by the paths that arrive at each: at most one thing at each place,
    in the order the places are written in. -/
def Reports (p : Protocol) (m : MethodEvents) (l : List (Pos × Point)) (arrive : Pos → Set Openings)
    (vs : List Violation) : Prop :=
  ∃ os, List.Forall₂ (fun x o => Judged p m (arrive x.1) x.2 o) l os ∧ vs = os.reduceOption

section Reports

variable {l l' : List (Pos × Point)} {arrive arrive' : Pos → Set Openings} {vs vs' : List Violation}

theorem Reports.append (h : Reports p m l arrive vs) (h' : Reports p m l' arrive vs') :
    Reports p m (l ++ l') arrive (vs ++ vs') := by
  obtain ⟨os, hos, rfl⟩ := h
  obtain ⟨os', hos', rfl⟩ := h'
  exact ⟨os ++ os', List.rel_append hos hos', (List.reduceOption_append os os').symm⟩

theorem Reports.shift (h : Reports p m l arrive' vs) {f : Pos → Pos} (hf : ∀ pos, arrive (f pos) = arrive' pos) :
    Reports p m (shift f l) arrive vs := by
  obtain ⟨os, hos, rfl⟩ := h
  refine ⟨os, ?_, rfl⟩
  unfold Obligations.shift
  rw [List.forall₂_map_left_iff]
  refine hos.imp fun x o hx => ?_
  rw [hf]
  exact hx

theorem reports_one {pos : Pos} {pt : Point} {o : Option Violation} (h : Judged p m (arrive pos) pt o) :
    Reports p m [(pos, pt)] arrive o.toList := by
  refine ⟨[o], List.Forall₂.cons h .nil, ?_⟩
  cases o <;> rfl

/-- Where no path arrives nothing is reported. -/
theorem reports_dead (h : ∀ x ∈ l, arrive x.1 = ∅) : Reports p m l arrive [] := by
  induction l with
  | nil => exact ⟨[], .nil, rfl⟩
  | cons x rest ih =>
    obtain ⟨os, hos, hnil⟩ := ih fun y hy => h y (List.mem_cons_of_mem _ hy)
    refine ⟨none :: os, .cons ?_ hos, hnil⟩
    rw [h x List.mem_cons_self]
    exact judged_empty x.2

end Reports

/-! ## Loops settle -/

/-- How far a line may still move down, among the lines of a list. -/
def lineRank (L : List Int) : Option Int → Nat
  | none => L.toFinset.card + 1
  | some m => (L.toFinset.filter (· < m)).card

def flagRank (flag : Bool) : Nat := if flag then 0 else 1

def rank (L : List Int) (st : State) : Nat := flagRank st.opened + flagRank st.closed + lineRank L st.openLine

theorem rank_le (L : List Int) (st : State) : rank L st ≤ L.length + 3 := by
  have hcard : L.toFinset.card ≤ L.length := L.toFinset_card_le
  have hline : lineRank L st.openLine ≤ L.length + 1 := by
    cases st.openLine with
    | none => exact Nat.succ_le_succ hcard
    | some m => exact le_trans (Finset.card_filter_le _ _) (by omega)
  have hflag : ∀ flag, flagRank flag ≤ 1 := by decide
  have hopened := hflag st.opened
  have hclosed := hflag st.closed
  unfold rank
  omega

theorem lineRank_min {L : List Int} {a b : Option Int} (hb : ∀ l, b = some l → l ∈ L) :
    minLine a b = a ∨ lineRank L (minLine a b) < lineRank L a := by
  cases b with
  | none =>
    left
    cases a <;> rfl
  | some y =>
    cases a with
    | none => exact .inr (Nat.lt_succ_of_le (Finset.card_filter_le _ _))
    | some x =>
      rcases le_or_gt x y with hle | hlt
      · exact .inl (congrArg some (min_eq_left hle))
      · right
        have hmin : minLine (some x) (some y) = some y := congrArg some (min_eq_right (le_of_lt hlt))
        rw [hmin]
        refine Finset.card_lt_card (Finset.ssubset_iff_of_subset (fun l hl => ?_) |>.mpr ⟨y, ?_, ?_⟩)
        · rw [Finset.mem_filter] at hl ⊢
          exact ⟨hl.1, lt_trans hl.2 hlt⟩
        · exact Finset.mem_filter.mpr ⟨List.mem_toFinset.mpr (hb y rfl), hlt⟩
        · exact fun hmem => absurd (Finset.mem_filter.mp hmem).2 (lt_irrefl y)

theorem flag_or (x y : Bool) : (x || y) = x ∨ flagRank (x || y) < flagRank x := by
  cases x <;> cases y <;> decide

theorem rank_lt {L : List Int} {a b : State} (hb : ∀ l, b.openLine = some l → l ∈ L) (hne : a.join b ≠ a) :
    rank L (a.join b) < rank L a := by
  have hopened := flag_or a.opened b.opened
  have hclosed := flag_or a.closed b.closed
  have hline := lineRank_min (a := a.openLine) hb
  have hopened' : flagRank (a.opened || b.opened) ≤ flagRank a.opened :=
    hopened.elim (fun h => le_of_eq (congrArg flagRank h)) le_of_lt
  have hclosed' : flagRank (a.closed || b.closed) ≤ flagRank a.closed :=
    hclosed.elim (fun h => le_of_eq (congrArg flagRank h)) le_of_lt
  have hline' : lineRank L (minLine a.openLine b.openLine) ≤ lineRank L a.openLine :=
    hline.elim (fun h => le_of_eq (congrArg (lineRank L) h)) le_of_lt
  change flagRank (a.opened || b.opened) + flagRank (a.closed || b.closed) + lineRank L (minLine a.openLine b.openLine) <
    flagRank a.opened + flagRank a.closed + lineRank L a.openLine
  rcases hopened with h₁ | h₁
  · rcases hclosed with h₂ | h₂
    · rcases hline with h₃ | h₃
      · exact absurd (by rw [State.join, h₁, h₂, h₃]) hne
      · omega
    · omega
  · omega

/-! ## The walk -/

/-- What a walk comes to, of the paths that come out of it. -/
structure Spec (post : Set Openings) (lines : List Int) (st : State) (w : Walked) : Prop where
  state : Exact post w.state
  alive : w.alive = true ↔ post.Nonempty
  lines : ∀ l, w.state.openLine = some l → st.openLine = some l ∨ l ∈ lines

theorem Spec.live {post : Set Openings} {lines : List Int} {w : Walked} (h : Spec post lines st w) : Exact post w.live := by
  unfold Walked.live
  by_cases ha : w.alive = true
  · rw [if_pos ha]
    exact h.state
  · have hempty : post = ∅ := Set.not_nonempty_iff_eq_empty.mp fun hne => ha (h.alive.mpr hne)
    rw [if_neg ha, hempty]
    exact exact_empty

theorem Spec.liveLines {post : Set Openings} {lines : List Int} {w : Walked} (h : Spec post lines st w) :
    ∀ l, w.live.openLine = some l → st.openLine = some l ∨ l ∈ lines := by
  unfold Walked.live
  split
  · exact h.lines
  · exact fun l hl => by cases hl

theorem minLine_some {a b : Option Int} {l : Int} (h : minLine a b = some l) : a = some l ∨ b = some l := by
  cases a with
  | none => exact .inr h
  | some x =>
    cases b with
    | none => exact .inl h
    | some y =>
      cases h
      rcases le_total x y with hxy | hxy
      · exact .inl (congrArg some (min_eq_left hxy).symm)
      · exact .inr (congrArg some (min_eq_right hxy).symm)

theorem leafState_lines (a : Act) (st : State) :
    ∀ l, (leafState p a st).openLine = some l → st.openLine = some l ∨ l ∈ [a.line] := by
  intro l
  unfold leafState
  split
  · intro hl
    rcases minLine_some hl with h | h
    · exact .inr (by cases h; exact List.mem_cons_self)
    · exact .inl h
  · split
    · intro hl
      cases hl
    · split
      · exact fun hl => .inl hl
      · exact fun hl => .inl hl

/-- What a walk over some events makes sure of, from any paths its start is exact of. -/
def WalksExactly (p : Protocol) (m : MethodEvents) (fuel : Nat) (events : List Event) : Prop :=
  ∀ (silent : Bool) (S : Set Openings) (st : State), S.Nonempty → Exact S st →
    ∃ w, walkSeq p m fuel silent events st = some w ∧ Spec (image (Passes p events) S) (actLines events) st w ∧
      (silent = false → Reports p m (sites events) (fun pos => image (Arrives p events pos) S) w.emitted)

/-- A loop settles, on what is exact of any number of rounds. -/
theorem loop_settles {fuel : Nat} {body : List Event} (hbody : WalksExactly p m fuel body)
    (hfuel : (actLines body).length + 5 ≤ fuel)
    (hne : S.Nonempty) (h : Exact S st) :
    ∃ header, settle State.join (fun a => (walkSeq p m fuel true body a).map Walked.live) fuel st = some header ∧
      Exact (closure (Passes p body) S) header ∧ ∀ l, header.openLine = some l → st.openLine = some l ∨ l ∈ actLines body := by
  have hround : ∀ {S a b}, S.Nonempty → Exact S a → (walkSeq p m fuel true body a).map Walked.live = some b →
      Exact (image (Passes p body) S) b := by
    intro S a b hne ha hb
    obtain ⟨w, hw, hspec, -⟩ := hbody true S a hne ha
    rw [hw] at hb
    cases hb
    exact hspec.live
  let L := st.openLine.toList ++ actLines body
  let Inv : State → Prop := fun a => (∃ S : Set Openings, S.Nonempty ∧ Exact S a) ∧ ∀ l, a.openLine = some l → l ∈ L
  have hstart : Inv st := ⟨⟨S, hne, h⟩, fun l hl => List.mem_append.mpr (.inl (by simp [hl]))⟩
  have hL : L.length ≤ (actLines body).length + 1 := by
    have hone : st.openLine.toList.length ≤ 1 := by cases st.openLine <;> simp
    simp only [L, List.length_append]
    omega
  have hrank : rank L st < fuel := by
    have := rank_le L st
    omega
  obtain ⟨header, hheader, -, hlines⟩ : ∃ c, settle State.join (fun a => (walkSeq p m fuel true body a).map Walked.live) fuel st =
      some c ∧ Inv c := by
    refine settle_some Inv (rank L) (fun a ⟨⟨S', hne', ha⟩, hal⟩ => ?_) hstart hrank
    obtain ⟨w, hw, hspec, -⟩ := hbody true S' a hne' ha
    have hwl : ∀ l, w.live.openLine = some l → l ∈ L := fun l hl => by
      rcases hspec.liveLines l hl with hl | hl
      · exact hal l hl
      · exact List.mem_append.mpr (.inr hl)
    refine ⟨w.live, by rw [hw]; rfl, fun hchanged => ⟨⟨⟨_, hne'.mono Set.subset_union_left, ha.join hspec.live⟩, fun l hl => ?_⟩,
      rank_lt hwl hchanged⟩⟩
    rcases minLine_some hl with hl | hl
    · exact hal l hl
    · exact hwl l hl
  refine ⟨header, hheader, settle_closure collects hround hne h hheader, fun l hl => ?_⟩
  rcases List.mem_append.mp (hlines l hl) with hl | hl
  · exact .inl (by simpa using hl)
  · exact .inr hl

theorem image_empty {R : Openings → Openings → Prop} : image R (∅ : Set Openings) = ∅ :=
  Set.eq_empty_of_forall_notMem fun _ ⟨_, h, _⟩ => h.elim

theorem reaches_here (ev : Event) : image (Reaches p ev .here) S = S := by
  ext t
  constructor
  · rintro ⟨s, hs, h⟩
    cases h
    exact hs
  · exact fun ht => ⟨t, ht, .here⟩

theorem arrives_head (ev : Event) (rest : List Event) (pos : Pos) :
    image (Arrives p (ev :: rest) (.head pos)) S = image (Reaches p ev pos) S := by
  ext t
  constructor
  · rintro ⟨s, hs, h⟩
    cases h with
    | head h => exact ⟨s, hs, h⟩
  · exact fun ⟨s, hs, h⟩ => ⟨s, hs, .head h⟩

theorem arrives_next (ev : Event) (rest : List Event) (pos : Pos) :
    image (Arrives p (ev :: rest) (.next pos)) S = image (Arrives p rest pos) (image (Step p ev) S) := by
  ext t
  constructor
  · rintro ⟨s, hs, h⟩
    cases h with
    | next hstep h => exact ⟨_, ⟨s, hs, hstep⟩, h⟩
  · exact fun ⟨u, ⟨s, hs, hstep⟩, h⟩ => ⟨s, hs, .next hstep h⟩

theorem reaches_then (line : Int) (then_ orelse : List Event) (pos : Pos) :
    image (Reaches p (.if_ line then_ orelse) (.then_ pos)) S = image (Arrives p then_ pos) S := by
  ext t
  constructor
  · rintro ⟨s, hs, h⟩
    cases h with
    | then_ h => exact ⟨s, hs, h⟩
  · exact fun ⟨s, hs, h⟩ => ⟨s, hs, .then_ h⟩

theorem reaches_orelse (line : Int) (then_ orelse : List Event) (pos : Pos) :
    image (Reaches p (.if_ line then_ orelse) (.orelse pos)) S = image (Arrives p orelse pos) S := by
  ext t
  constructor
  · rintro ⟨s, hs, h⟩
    cases h with
    | orelse h => exact ⟨s, hs, h⟩
  · exact fun ⟨s, hs, h⟩ => ⟨s, hs, .orelse h⟩

theorem reaches_body (line : Int) (body : List Event) (pos : Pos) :
    image (Reaches p (.while_ line body) (.body pos)) S = image (Arrives p body pos) (closure (Passes p body) S) := by
  rw [← image_while line]
  ext t
  constructor
  · rintro ⟨s, hs, h⟩
    cases h with
    | body hstep h => exact ⟨_, ⟨s, hs, hstep⟩, h⟩
  · exact fun ⟨u, ⟨s, hs, hstep⟩, h⟩ => ⟨s, hs, .body hstep h⟩

/-- What a walk over one event makes sure of. -/
def StepsExactly (p : Protocol) (m : MethodEvents) (fuel : Nat) (ev : Event) : Prop :=
  ∀ (silent : Bool) (S : Set Openings) (st : State), S.Nonempty → Exact S st →
    ∃ w, walk p m fuel silent ev st = some w ∧ Spec (image (Step p ev) S) ev.lines st w ∧
      (silent = false → Reports p m ev.sites (fun pos => image (Reaches p ev pos) S) w.emitted)

theorem act_exact (fuel : Nat) (a : Act) : StepsExactly p m fuel (.act a) := by
  intro silent S st hne h
  refine ⟨_, rfl, ⟨?_, ?_, leafState_lines a st⟩, fun hloud => ?_⟩
  · rw [image_act]
    exact leaf_exact hne h a
  · have hpost : (image (Step p (.act a)) S).Nonempty := by
      obtain ⟨s, hs⟩ := hne
      by_cases hopens : p.opens.matches a = true
      · exact ⟨_, s, hs, .act (by rw [Does, if_pos hopens])⟩
      · by_cases hcloses : p.closes.matches a = true
        · exact ⟨_, s, hs, .act (by rw [Does, if_neg hopens, if_pos hcloses])⟩
        · exact ⟨s, s, hs, .act (by rw [Does, if_neg hopens, if_neg hcloses]; exact .inl rfl)⟩
    exact ⟨fun _ => hpost, fun _ => rfl⟩
  · subst hloud
    refine reports_one ?_
    rw [reaches_here]
    exact leaf_judged h a

/-- `return` and `throw`: no path comes out. -/
theorem exit_exact {ev : Event} {pt : Point} (hsites : ev.sites = [(.here, pt)])
    (himage : ∀ S : Set Openings, image (Step p ev) S = ∅) (hforbids : p.forbids pt = p.exitBarriers) (hkind : pt.kind = .exit)
    {fuel : Nat}
    (hwalk : ∀ silent st, walk p m fuel silent ev st = some ⟨.bottom, false,
      emit silent (exitViolation p m pt.line st pt.desc)⟩) :
    StepsExactly p m fuel ev := by
  intro silent S st _ h
  refine ⟨_, hwalk silent st, ⟨?_, ?_, fun l hl => by cases hl⟩, fun hloud => ?_⟩
  · rw [himage]
    exact exact_empty
  · rw [himage]
    exact ⟨fun ha => (by cases ha), fun ha => absurd ha Set.not_nonempty_empty⟩
  · subst hloud
    rw [hsites]
    refine reports_one ?_
    rw [reaches_here]
    exact exit_judged h hforbids hkind

theorem if_exact {fuel : Nat} {then_ orelse : List Event} (line : Int) (h₁ : WalksExactly p m fuel then_)
    (h₂ : WalksExactly p m fuel orelse) : StepsExactly p m fuel (.if_ line then_ orelse) := by
  intro silent S st hne h
  obtain ⟨w₁, hw₁, hspec₁, hrep₁⟩ := h₁ silent S st hne h
  obtain ⟨w₂, hw₂, hspec₂, hrep₂⟩ := h₂ silent S st hne h
  have hreports : silent = false → Reports p m (Event.sites (.if_ line then_ orelse))
      (fun pos => image (Reaches p (.if_ line then_ orelse) pos) S) (w₁.emitted ++ w₂.emitted) := fun hloud =>
    Reports.append ((hrep₁ hloud).shift (reaches_then line then_ orelse)) ((hrep₂ hloud).shift (reaches_orelse line then_ orelse))
  have hwalk : walk p m fuel silent (.if_ line then_ orelse) st = some (if ¬w₁.alive ∧ ¬w₂.alive then
      ⟨.bottom, false, w₁.emitted ++ w₂.emitted⟩ else ⟨State.join w₁.live w₂.live, true, w₁.emitted ++ w₂.emitted⟩) := by
    rw [walk, hw₁, Option.bind_some, hw₂]
    rfl
  rw [hwalk, image_if]
  by_cases hdead : ¬w₁.alive ∧ ¬w₂.alive
  · have hempty : image (Passes p then_) S ∪ image (Passes p orelse) S = ∅ := by
      rw [Set.not_nonempty_iff_eq_empty.mp fun hne => hdead.1 (hspec₁.alive.mpr hne),
        Set.not_nonempty_iff_eq_empty.mp fun hne => hdead.2 (hspec₂.alive.mpr hne), Set.empty_union]
    rw [if_pos hdead, hempty]
    exact ⟨_, rfl, ⟨exact_empty, ⟨fun ha => (by cases ha), fun ha => absurd ha Set.not_nonempty_empty⟩,
      fun l hl => by cases hl⟩, hreports⟩
  · rw [if_neg hdead]
    refine ⟨_, rfl, ⟨hspec₁.live.join hspec₂.live, ⟨fun _ => ?_, fun _ => rfl⟩, fun l hl => ?_⟩, hreports⟩
    · by_cases ha : w₁.alive = true
      · exact (hspec₁.alive.mp ha).mono Set.subset_union_left
      · have ha₂ : w₂.alive = true := by
          by_contra hno
          exact hdead ⟨ha, hno⟩
        exact (hspec₂.alive.mp ha₂).mono Set.subset_union_right
    · rw [Event.lines, List.mem_append]
      rcases minLine_some hl with hl | hl
      · exact (hspec₁.liveLines l hl).imp_right .inl
      · exact (hspec₂.liveLines l hl).imp_right .inr

theorem while_exact {fuel : Nat} {body : List Event} (line : Int) (hbody : WalksExactly p m fuel body)
    (hfuel : (actLines body).length + 5 ≤ fuel) : StepsExactly p m fuel (.while_ line body) := by
  intro silent S st hne h
  obtain ⟨header, hheader, hexact, hlines⟩ := loop_settles hbody hfuel hne h
  have hclosure : (closure (Passes p body) S).Nonempty := hne.mono (subset_closure _ S)
  obtain ⟨w, hw, -, hrep⟩ := hbody false _ header hclosure hexact
  have hwalk : walk p m fuel silent (.while_ line body) st = some
      (if silent then ⟨header, true, []⟩ else ⟨header, true, w.emitted⟩) := by
    rw [walk, hheader, Option.bind_some, hw]
    cases silent <;> rfl
  rw [hwalk, image_while]
  cases silent with
  | true => exact ⟨_, rfl, ⟨hexact, ⟨fun _ => hclosure, fun _ => rfl⟩, hlines⟩, fun hloud => by cases hloud⟩
  | false =>
    exact ⟨_, rfl, ⟨hexact, ⟨fun _ => hclosure, fun _ => rfl⟩, hlines⟩,
      fun _ => (hrep rfl).shift (reaches_body line body)⟩

theorem nil_exact (fuel : Nat) : WalksExactly p m fuel [] := by
  intro silent S st hne h
  refine ⟨_, rfl, ?_, fun _ => ⟨[], .nil, rfl⟩⟩
  rw [image_nil]
  exact ⟨h, ⟨fun _ => hne, fun _ => rfl⟩, fun l hl => .inl hl⟩

theorem cons_exact {fuel : Nat} {ev : Event} {rest : List Event} (hev : StepsExactly p m fuel ev)
    (hrest : WalksExactly p m fuel rest) :
    WalksExactly p m fuel (ev :: rest) := by
  intro silent S st hne h
  obtain ⟨w, hw, hspec, hrep⟩ := hev silent S st hne h
  rw [walkSeq, hw, Option.bind_some, image_cons]
  by_cases ha : w.alive = true
  · obtain ⟨w', hw', hspec', hrep'⟩ := hrest silent _ w.state (hspec.alive.mp ha) hspec.state
    rw [if_pos ha, hw']
    refine ⟨_, rfl, ⟨hspec'.state, hspec'.alive, fun l hl => ?_⟩, fun hloud => ?_⟩
    · rw [actLines, List.mem_append]
      rcases hspec'.lines l hl with hl | hl
      · exact (hspec.lines l hl).imp_right .inl
      · exact .inr (.inr hl)
    · exact Reports.append ((hrep hloud).shift (arrives_head ev rest)) ((hrep' hloud).shift (arrives_next ev rest))
  · have hdead : image (Step p ev) S = ∅ := Set.not_nonempty_iff_eq_empty.mp fun hne => ha (hspec.alive.mpr hne)
    rw [if_neg ha, hdead, image_empty]
    rw [hdead] at hspec
    refine ⟨_, rfl, ⟨hspec.state, hspec.alive, fun l hl => ?_⟩, fun hloud => ?_⟩
    · rw [actLines, List.mem_append]
      exact (hspec.lines l hl).imp_right .inl
    · rw [← List.append_nil w.emitted]
      refine Reports.append ((hrep hloud).shift (arrives_head ev rest)) (reports_dead fun x hx => ?_)
      obtain ⟨y, -, rfl⟩ := List.mem_map.mp hx
      change image (Arrives p (ev :: rest) (.next y.1)) S = ∅
      rw [arrives_next, hdead, image_empty]

mutual

theorem walk_exact {fuel : Nat} : ∀ ev : Event, ev.lines.length + 5 ≤ fuel → StepsExactly p m fuel ev
  | .act a, _ => act_exact fuel a
  | .return_ line, _ => exit_exact rfl (fun _ => image_return line) rfl rfl fun _ _ => by rw [walk]; rfl
  | .throw_ line, _ => exit_exact rfl (fun _ => image_throw line) rfl rfl fun _ _ => by rw [walk]; rfl
  | .if_ line then_ orelse, hfuel => by
    rw [Event.lines, List.length_append] at hfuel
    exact if_exact line (walkSeq_exact then_ (by omega)) (walkSeq_exact orelse (by omega))
  | .while_ line body, hfuel => by
    rw [Event.lines] at hfuel
    exact while_exact line (walkSeq_exact body hfuel) hfuel

theorem walkSeq_exact {fuel : Nat} : ∀ events : List Event, (actLines events).length + 5 ≤ fuel → WalksExactly p m fuel events
  | [], _ => nil_exact fuel
  | ev :: rest, hfuel => by
    rw [actLines, List.length_append] at hfuel
    exact cons_exact (walk_exact ev (by omega)) (walkSeq_exact rest (by omega))

end

/-! ## The whole method -/

/-- A line is recorded where the obligation may be open, and nowhere else. -/
def Recorded (st : State) : Prop := st.openLine.isSome = st.opened

/-- Every state that some path may be in and that keeps the invariant is exact of some paths. -/
theorem exists_exact (hr : Recorded st) (hne : st.opened = true ∨ st.closed = true) : ∃ S :
    Set Openings, S.Nonempty ∧ Exact S st := by
  obtain ⟨opened, closed, line⟩ := st
  simp only [Recorded] at hr
  cases line with
  | none =>
    cases hr
    have hclosed : closed = true := hne.resolve_left fun h => by cases h
    subst hclosed
    exact ⟨{[]}, ⟨[], rfl⟩, exact_closed⟩
  | some l =>
    cases hr
    have hopen : Exact {[l]} ⟨true, false, some l⟩ := by
      refine ⟨⟨fun _ => ⟨[l], rfl, List.cons_ne_nil _ _⟩, fun _ => rfl⟩, ⟨fun h => (by cases h), fun h => (by cases h)⟩, rfl, ?_⟩
      rintro _ ⟨⟩
      refine ⟨⟨[l], rfl, List.mem_singleton.mpr rfl⟩, fun k ⟨s, hs, hk⟩ => ?_⟩
      cases hs
      exact le_of_eq (List.mem_singleton.mp hk).symm
    cases closed with
    | false => exact ⟨{[l]}, ⟨[l], rfl⟩, hopen⟩
    | true => exact ⟨{[l]} ∪ {[]}, ⟨[l], .inl rfl⟩, exact_discharged hopen⟩

/-- What a run reports: one verdict for each place at most, in the order of the places, and one for the end. -/
theorem run_exact (p : Protocol) (m : MethodEvents) {fuel : Nat} (hfuel : (actLines m.events).length + 5 ≤ fuel) :
    ∃ os last, run p m fuel = some (os.reduceOption ++ last.toList) ∧
      List.Forall₂ (fun x o => Judged p m {t | Arrives p m.events x.1 [] t} x.2 o) (sites m.events) os ∧
      JudgedEnd p m {t | Passes p m.events [] t} last := by
  have hstart : ∀ R : Openings → Openings → Prop, image R {[]} = {t | R [] t} := fun R => by
    ext t
    exact ⟨fun ⟨s, hs, h⟩ => (by cases hs; exact h), fun h => ⟨[], rfl, h⟩⟩
  obtain ⟨w, hw, hspec, hrep⟩ := walkSeq_exact m.events hfuel false {[]} ⟨false, true, none⟩ ⟨[], rfl⟩ exact_closed
  obtain ⟨os, hos, hemitted⟩ := hrep rfl
  simp only [hstart] at hos hspec
  have hrun : run p m fuel = some (w.emitted ++ if w.alive then (endViolation p m w.state).toList else []) := by
    rw [run, hw]
    rfl
  by_cases ha : w.alive = true
  · refine ⟨os, endViolation p m w.state, ?_, hos, end_judged hspec.state⟩
    rw [hrun, if_pos ha, hemitted]
  · have hdead : {t | Passes p m.events [] t} = ∅ := Set.not_nonempty_iff_eq_empty.mp fun hne => ha (hspec.alive.mpr hne)
    refine ⟨os, none, ?_, hos, ?_⟩
    · rw [hrun, if_neg ha, hemitted]
      rfl
    · rw [hdead]
      exact ⟨⟨fun h => (by cases h), fun ⟨_, _, h, _⟩ => h.elim⟩, fun _ h => (by cases h), fun _ h => by cases h⟩

/-- **The walker is exact over paths**: it comes to an end, with one verdict for each place at most,
    in the order of the places, and one for the end. -/
theorem walker_exact (p : Protocol) (m : MethodEvents) :
    ∃ n, ∀ fuel, n ≤ fuel →
      (∃ os last, run p m fuel = some (os.reduceOption ++ last.toList) ∧
        List.Forall₂ (fun x o => Judged p m {t | Arrives p m.events x.1 [] t} x.2 o) (sites m.events) os ∧
        JudgedEnd p m {t | Passes p m.events [] t} last) ∧
      ((sites m.events).map Prod.fst).Nodup ∧
      ∀ line body st silent, (actLines body).length + 5 ≤ fuel → Recorded st → st.opened = true ∨ st.closed = true →
        ∃ header emitted, walk p m fuel silent (.while_ line body) st = some ⟨header, true, emitted⟩ ∧ Recorded header := by
  refine ⟨(actLines m.events).length + 5, fun fuel hfuel => ⟨?_, sites_nodup m.events,
    fun line body st silent hbody hr hne => ?_⟩⟩
  · exact run_exact p m hfuel
  · obtain ⟨S, hS, hexact⟩ := exists_exact hr hne
    obtain ⟨w, hw, hspec, -⟩ := while_exact (p := p) (m := m) line (walkSeq_exact body hbody) hbody silent S st hS hexact
    have halive : w.alive = true := hspec.alive.mpr (by rw [image_while]; exact hS.mono (subset_closure _ S))
    refine ⟨w.state, w.emitted, ?_, hspec.state.recorded⟩
    rw [hw, ← halive]

end OwnNet.Obligations
