/-
  OwnNet.Ownership.Consistency — an answer of the solver against its own equations: the
  transfer of a parameter, and the join over its paths with the answer's own transfers at the
  positions it is handed to.

  The component's equations hold of its least fixpoint, before what has no evidence becomes a
  `no`. In a component a position without evidence hands its parameter round for ever, and
  nothing on the way says anything of it (`Grounded` is the opposite).

  Proved: `transfer_consistent`: the answer satisfies the equation of a parameter, unless the
  transfer is `must` and one of the paths hands the parameter to a position of the same
  component without evidence; there the join with the answer's `no` would be `may`.
-/

import OwnNet.Ownership.Orders

namespace OwnNet.Ownership

open Dataflow Graph

/-! ## The equations, read from an answer -/

/-- The transfer an answer gives a position: unknown past an extern or a missing parameter. -/
def Solution.transfer (sol : Solution) (key : String) (index : Int) : Transfer :=
  match sol.summaries.find? fun m => m.key = key with
  | none => .unknown
  | some m =>
    match m.params.find? fun p => p.index = index with
    | none => .unknown
    | some p => p.transfer

/-- What one path says of a parameter. -/
def Solution.evidence (sol : Solution) (a : PathAction) : Transfer :=
  match a.kind with
  | .dispose | .adopt | .ret => .must
  | .borrow => .no
  | .forward => sol.transfer a.callee a.arg
  | .other _ => .unknown

/-- What all its paths say; nothing at all keeps it. -/
def Solution.joined (sol : Solution) (paths : List PathAction) : Transfer :=
  (paths.foldl (fun acc a => joinOpt acc (some (sol.evidence a))) none).getD .no

section Ground

variable (sk : List MethodSkeleton)

/-- Two methods that lead to each other. -/
def Mutual (x y : String) : Prop := Reaches (callGraph sk) x y ∧ Reaches (callGraph sk) y x

/-- A path that hands its parameter to a disposable parameter of the same component. -/
def StaysIn (key : String) (a : PathAction) : Prop :=
  a.kind = .forward ∧ Mutual sk key a.callee ∧ ∃ s p, byKey sk a.callee = some s ∧ s.param? a.arg = some p ∧ p.disposable = true

/-- Something is said of a position: it has no path, some path does not stay in its component,
    or one leads to a position of which something is said. -/
inductive Grounded : ParamKey → Prop
  | kept {key : String} {i : Int} {s : MethodSkeleton} {p : ParamSkeleton} : byKey sk key = some s → s.param? i = some p →
      p.paths = [] → Grounded (key, i)
  | leaves {key : String} {i : Int} {s : MethodSkeleton} {p : ParamSkeleton} {a : PathAction} : byKey sk key = some s →
      s.param? i = some p → a ∈ p.paths → ¬StaysIn sk key a → Grounded (key, i)
  | stays {key : String} {i : Int} {s : MethodSkeleton} {p : ParamSkeleton} {a : PathAction} : byKey sk key = some s →
      s.param? i = some p → a ∈ p.paths → StaysIn sk key a → Grounded (a.callee, a.arg) → Grounded (key, i)

/-- A path into the same component, to a position of which nothing is said. -/
def Unsupported (key : String) (a : PathAction) : Prop := StaysIn sk key a ∧ ¬Grounded sk (a.callee, a.arg)

end Ground

/-! ## Joins with what is missing resolved -/

theorem joined_none {cs : List (Option Transfer)} {acc : Option Transfer} :
    cs.foldl joinOpt acc = none ↔ acc = none ∧ ∀ c ∈ cs, c = none := by
  induction cs generalizing acc with
  | nil => simp
  | cons c cs ih =>
    rw [List.foldl_cons, ih, List.forall_mem_cons]
    cases acc <;> cases c <;> simp [joinOpt]

theorem joined_last (cs : List (Option Transfer)) (acc t : Option Transfer) :
    cs.foldl joinOpt (joinOpt acc t) = joinOpt (cs.foldl joinOpt acc) t := by
  induction cs generalizing acc with
  | nil => rfl
  | cons c cs ih => rw [List.foldl_cons, List.foldl_cons, joinOpt_assoc, joinOpt_comm t, ← joinOpt_assoc, ih]

theorem joined_resolved (cs : List (Option Transfer)) (acc : Option Transfer) :
    (cs.map fun c => some (c.getD .no)).foldl joinOpt acc = joinOpt (cs.foldl joinOpt acc)
    (if none ∈ cs then some .no else none) := by
  induction cs generalizing acc with
  | nil => cases acc <;> rfl
  | cons c cs ih =>
    rw [List.map_cons, List.foldl_cons, List.foldl_cons, ih]
    cases c with
    | some t =>
      have hmem : (none ∈ some t :: cs) = (none ∈ cs) := by simp
      simp only [hmem, Option.getD_some]
    | none =>
      have hnone : joinOpt acc none = acc := by cases acc <;> rfl
      rw [if_pos List.mem_cons_self, hnone]
      show joinOpt (cs.foldl joinOpt (joinOpt acc (some .no))) _ = _
      rw [joined_last, joinOpt_assoc]
      split <;> rfl

/-- Resolving what is missing moves a join only from `must` to `may`. -/
theorem joined_resolved_iff (cs : List (Option Transfer)) :
    (((cs.map fun c => some (c.getD .no)).foldl joinOpt none).getD .no = (cs.foldl joinOpt none).getD .no ↔
      ¬((cs.foldl joinOpt none).getD .no = .must ∧ none ∈ cs)) ∧
    ((cs.foldl joinOpt none).getD .no = .must ∧ none ∈ cs →
      ((cs.map fun c => some (c.getD .no)).foldl joinOpt none).getD .no = .may) := by
  rw [joined_resolved]
  by_cases hmem : none ∈ cs
  · rw [if_pos hmem]
    rcases h : cs.foldl joinOpt none with _ | _ | _ | _ | _ <;> simp [joinOpt, join, hmem]
  · rw [if_neg hmem]
    rcases h : cs.foldl joinOpt none with _ | _ | _ | _ | _ <;> simp [joinOpt, hmem]

/-! ## The least fixpoint of a component -/

section Component

variable {sk : List MethodSkeleton} {fuel : Nat} {comp : List String} {before cur : ParamKey → Option Transfer}

/-- The iterate is below whatever the equations do not raise. -/
theorem iterateComp_below (hf : (membersOf sk comp).length * 3 < fuel) (h : iterateComp sk fuel before comp = some cur)
    {x : ParamKey → Option Transfer} (hx : ∀ k ∈ membersOf sk comp,
      transferOf sk before (membersOf sk comp) x k ≤ x k) : cur ≤ x := by
  have hmono : ∀ k ∈ membersOf sk comp, Monotone fun cur => transferOf sk before (membersOf sk comp) cur k :=
    fun k _ => transferOf_mono k
  obtain ⟨cur', hrun, hrise, -⟩ := rounds_least evidenceRank_strict evidenceRank_le hmono
    (fun k _ => none_le (transferOf sk before (membersOf sk comp) (fun _ => none) k)) hf
  have hcur : cur' = cur := Option.some.inj (hrun.symm.trans h)
  exact hcur ▸ hrise.below x (fun j => none_le _) hx

theorem transferOf_joined {x : ParamKey → Option Transfer} {key : String} {i : Int} {s : MethodSkeleton} {p : ParamSkeleton}
    (hs : byKey sk key = some s) (hp : s.param? i = some p) (hne : p.paths ≠ []) :
    transferOf sk before (membersOf sk comp) x (key, i) =
      (p.paths.map (contrib sk before (membersOf sk comp) x)).foldl joinOpt none := by
  unfold transferOf transferOver
  simp only [hs, Option.bind_some, hp, List.isEmpty_iff, if_neg hne, List.foldl_map]

end Component

/-- One component of a whole solve. -/
structure Settled (sk : List MethodSkeleton) (fuel : Nat) (pv : ParamKey → Option Transfer) (c : List String)
    (before cur : ParamKey → Option Transfer) : Prop where
  comp : c ∈ sccs sk
  fuelled : (membersOf sk c).length * 3 < fuel
  iterated : iterateComp sk fuel before c = some cur
  least : LeastTransfers sk before c cur
  resolved : ∀ m ∈ membersOf sk c, pv m = some ((cur m).getD .no)
  inside : ∀ m, m.1 ∈ c → before m = none
  outside : ∀ x ∈ c, ∀ w ∈ callGraph sk x, w ∉ c → ∀ i, before (w, i) = pv (w, i)

section Settled

variable {sk : List MethodSkeleton} {fuel : Nat} {pv before cur : ParamKey → Option Transfer} {c : List String}

/-- A solve settles every method's component, and gives every disposable parameter a transfer. -/
theorem settled_all (hen : Enough sk fuel) :
    ∃ pv, settleComps sk fuel (sccs sk) (fun _ => none) = some pv ∧
      (∀ key ∈ keys sk, ∃ c before cur, key ∈ c ∧ Settled sk fuel pv c before cur) ∧
      ∀ key s i p, byKey sk key = some s → s.param? i = some p → p.disposable = true → ∃ t, pv (key, i) = some t := by
  obtain ⟨pv, hpv, -, hparts⟩ := settleComps_ok (sccs sk) sccs_nodup hen fun _ => none
  have hall : ∀ key ∈ keys sk, ∃ c before cur, key ∈ c ∧ Settled sk fuel pv c before cur := by
    intro key hkey
    obtain ⟨c, hc, hin⟩ := List.mem_flatten.mp (sccs_covers.mpr hkey)
    obtain ⟨pre, post, hsplit⟩ := List.append_of_mem hc
    obtain ⟨before, cur, hset⟩ := hparts pre c post hsplit
    refine ⟨c, before, cur, hin, hc, hen c hc, hset.iterated, hset.least, hset.resolved, fun m hm => ?_,
      fun x hx w hw hwc i => ?_⟩
    · exact hset.untouched m (pre_disjoint hsplit hm)
    · have hpre := (sccs_topo hsplit x hx w hw).resolve_left hwc
      exact (hset.kept (w, i) hpre).symm
  refine ⟨pv, hpv, hall, fun key s i p hs hp hd => ?_⟩
  obtain ⟨c, before, cur, hin, hset⟩ := hall key (mem_keys_of_byKey hs)
  obtain ⟨hmem, hidx⟩ := param?_mem hp
  exact ⟨_, hset.resolved (key, i) (mem_membersOf.mpr ⟨hin, s, p, hs, hmem, hd, hidx⟩)⟩

/-- A solution's transfers are those of its parameters that were settled. -/
theorem transfer_eq (returns : String → Returned) (log : List String) (key : String) (i : Int) :
    (Solution.mk (sk.map (summaryOf pv returns)) log).transfer key i =
      match byKey sk key with
      | none => .unknown
      | some s =>
        match s.param? i with
        | none => .unknown
        | some p => if p.disposable then (pv (key, i)).getD .no else .no := by
  unfold Solution.transfer
  have hfind : (sk.map (summaryOf pv returns)).find? (fun m => m.key = key) = (byKey sk key).map (summaryOf pv returns) := by
    rw [List.find?_map]
    rfl
  simp only [hfind]
  cases hs : byKey sk key with
  | none => rfl
  | some s =>
    have hkey := (byKey_mem hs).2
    have hparam : (summaryOf pv returns s).params.find? (fun p => p.index = i) = (s.param? i).map (summarizeParam pv s.key) := by
      unfold summaryOf
      rw [List.find?_map]
      rfl
    simp only [Option.map_some, hparam]
    cases hp : s.param? i with
    | none => rfl
    | some p =>
      rw [← (param?_mem hp).2, ← hkey]
      rfl

variable {key : String} {i : Int} {s : MethodSkeleton} {p : ParamSkeleton}

theorem mem_members (hin : key ∈ c) (hs : byKey sk key = some s) (hp : s.param? i = some p) (hd : p.disposable = true) :
    (key, i) ∈ membersOf sk c :=
  mem_membersOf.mpr ⟨hin, s, p, hs, (param?_mem hp).1, hd, (param?_mem hp).2⟩

theorem Settled.mutual (h : Settled sk fuel pv c before cur) (hin : key ∈ c) (w : String) : w ∈ c ↔ Mutual sk key w :=
  mem_sccs h.comp hin w

/-- A path that stays in the component reads the iterate. -/
theorem Settled.stays (h : Settled sk fuel pv c before cur) (hin : key ∈ c) {a : PathAction} (ha : StaysIn sk key a)
    (x : ParamKey → Option Transfer) : contrib sk before (membersOf sk c) x a = x (a.callee, a.arg) := by
  obtain ⟨hk, hmutual, t, q, ht, hq, hd⟩ := ha
  have hcallee : a.callee ∈ c := (h.mutual hin a.callee).mpr hmutual
  unfold contrib Ownership.lookup
  simp only [hk, ht, hq, hd, h.inside (a.callee, a.arg) hcallee, if_pos (mem_members hcallee ht hq hd)]
  rfl

/-- Any other path says something of its own, whatever the iterate. -/
theorem Settled.leaves (h : Settled sk fuel pv c before cur)
    (hsome : ∀ key s i p, byKey sk key = some s → s.param? i = some p → p.disposable = true → ∃ t, pv (key, i) = some t)
    (hin : key ∈ c) (hs : byKey sk key = some s) (hp : s.param? i = some p) {a : PathAction} (ha : a ∈ p.paths)
    (hout : ¬StaysIn sk key a) (returns : String → Returned) (log : List String) (x : ParamKey → Option Transfer) :
    contrib sk before (membersOf sk c) x a = some ((Solution.mk (sk.map (summaryOf pv returns)) log).evidence a) := by
  unfold contrib Solution.evidence
  cases hk : a.kind with
  | forward =>
    simp only [transfer_eq]
    unfold Ownership.lookup
    cases ht : byKey sk a.callee with
    | none => rfl
    | some t =>
      cases hq : t.param? a.arg with
      | none => simp [hq]
      | some q =>
        by_cases hd : q.disposable = true
        · have hcallee : a.callee ∈ callGraph sk key := by
            rw [mem_callGraph hs]
            refine ⟨List.mem_append_left _ (List.mem_flatMap.mpr ⟨p, (param?_mem hp).1, ?_⟩), by rw [ht]; rfl⟩
            exact List.mem_map.mpr ⟨a, List.mem_filter.mpr ⟨ha, by simp [hk]⟩, rfl⟩
          have hnot : a.callee ∉ c := fun hc => hout ⟨hk, (h.mutual hin a.callee).mp hc, t, q, ht, hq, hd⟩
          obtain ⟨v, hv⟩ := hsome a.callee t a.arg q ht hq hd
          simp [hq, hd, h.outside key hin a.callee hcallee hnot, hv]
        · simp [hq, hd]
  | _ => rfl

/-- In a component nothing is known of a position just where nothing on the way says anything. -/
theorem Settled.grounded (h : Settled sk fuel pv c before cur)
    (hsome : ∀ key s i p, byKey sk key = some s → s.param? i = some p → p.disposable = true → ∃ t, pv (key, i) = some t)
    (hin : key ∈ c) (hs : byKey sk key = some s) (hp : s.param? i = some p) (hd : p.disposable = true) :
    cur (key, i) = none ↔ ¬Grounded sk (key, i) := by
  constructor
  · intro hnone hg
    suffices hgo : ∀ k, Grounded sk k → k.1 ∈ c → (∃ s p, byKey sk k.1 = some s ∧ s.param? k.2 = some p ∧ p.disposable = true) →
        cur k ≠ none from hgo _ hg hin ⟨s, p, hs, hp, hd⟩ hnone
    intro k hk
    induction hk with
    | @kept key i s p hs hp hempty =>
      intro hin hd
      obtain ⟨s', p', hs', hp', hd⟩ := hd
      rw [hs] at hs'
      cases hs'
      rw [hp] at hp'
      cases hp'
      rw [← h.least.fixed _ (mem_members hin hs hp hd)]
      simp [transferOf, hs, hp, hempty]
    | @leaves key i s p a hs hp ha hout =>
      intro hin hd
      obtain ⟨s', p', hs', hp', hd⟩ := hd
      rw [hs] at hs'
      cases hs'
      rw [hp] at hp'
      cases hp'
      rw [← h.least.fixed _ (mem_members hin hs hp hd), transferOf_joined hs hp (List.ne_nil_of_mem ha), ne_eq, joined_none]
      intro hall
      have := hall.2 _ (List.mem_map_of_mem ha)
      rw [h.leaves hsome hin hs hp ha hout (fun _ => .none) []] at this
      cases this
    | @stays key i s p a hs hp ha hin' _ ih =>
      intro hin hd
      obtain ⟨s', p', hs', hp', hd⟩ := hd
      rw [hs] at hs'
      cases hs'
      rw [hp] at hp'
      cases hp'
      rw [← h.least.fixed _ (mem_members hin hs hp hd), transferOf_joined hs hp (List.ne_nil_of_mem ha), ne_eq, joined_none]
      intro hall
      have hnone := hall.2 _ (List.mem_map_of_mem ha)
      rw [h.stays hin hin'] at hnone
      exact ih ((h.mutual hin a.callee).mpr hin'.2.1) hin'.2.2 hnone
  · intro hg
    classical
    -- the iterate with nothing at the positions that are not grounded: no equation raises it
    obtain ⟨x, hx⟩ : ∃ x : ParamKey → Option Transfer, x = fun k => if Grounded sk k then cur k else none := ⟨_, rfl⟩
    have hle : x ≤ cur := by
      intro k
      rw [hx]
      dsimp only
      split
      next => exact le_rfl
      next => exact none_le _
    have hkept : ∀ k ∈ membersOf sk c, transferOf sk before (membersOf sk c) x k ≤ x k := by
      rintro ⟨key, i⟩ hk
      by_cases hgk : Grounded sk (key, i)
      · have hmono : transferOf sk before (membersOf sk c) x (key, i) ≤ transferOf sk before (membersOf sk c) cur (key, i) :=
          transferOf_mono (key, i) hle
        have hxk : x (key, i) = cur (key, i) := by
          rw [hx]
          exact if_pos hgk
        rw [hxk, ← h.least.fixed _ hk]
        exact hmono
      · have hxk : transferOf sk before (membersOf sk c) x (key, i) = none := by
          obtain ⟨hin, s, p', hs, hp', -, hidx⟩ := mem_membersOf.mp hk
          cases hp : s.param? i with
          | none => simp [transferOf, hs, hp]
          | some p =>
            rw [transferOf_joined hs hp fun hempty => hgk (.kept hs hp hempty), joined_none]
            refine ⟨rfl, fun v hv => ?_⟩
            obtain ⟨a, ha, rfl⟩ := List.mem_map.mp hv
            have hstays : StaysIn sk key a := by
              by_contra hout
              exact hgk (.leaves hs hp ha hout)
            rw [h.stays hin hstays, hx]
            exact if_neg fun hga => hgk (.stays hs hp ha hstays hga)
        rw [hxk]
        exact none_le _
    have hbelow := iterateComp_below h.fuelled h.iterated hkept (key, i)
    rw [hx] at hbelow
    simp only [if_neg hg] at hbelow
    exact le_antisymm hbelow (none_le _)

end Settled

/-! ## The answer -/

/-- Of a parameter that is the first with its index: one that is not disposable is kept; the
    transfer of any other is the join over its paths, with the answer's own transfers, unless it
    is `must` and some path hands it round its component unsupported. -/
theorem transfer_consistent (sk : List MethodSkeleton) {sol : Solution} (h : solved sk = .ok sol) {s : MethodSkeleton}
    (hs : s ∈ sk) {p : ParamSkeleton} (hp : s.param? p.index = some p) :
    (p.disposable = false → sol.transfer s.key p.index = .no) ∧
    (p.disposable = true →
      (sol.transfer s.key p.index = sol.joined p.paths ↔
        ¬(sol.transfer s.key p.index = .must ∧ ∃ a ∈ p.paths, Unsupported sk s.key a)) ∧
      (sol.transfer s.key p.index = .must ∧ (∃ a ∈ p.paths, Unsupported sk s.key a) → sol.joined p.paths = .may)) := by
  have hn := nodup_of_solved h
  have hkey : byKey sk s.key = some s := byKey_of_mem hn hs
  obtain ⟨pv, hpv, hall, hsome⟩ := settled_all (fuelFor_enough hn)
  have hsol : sol = ⟨sk.map (summaryOf pv (endOf (byKey sk))), unresolved sk⟩ := by
    have := solved_of_settled hn hpv
    rw [h] at this
    exact Except.ok.inj this
  have htransfer : sol.transfer s.key p.index = if p.disposable then (pv (s.key, p.index)).getD .no else .no := by
    rw [hsol, transfer_eq]
    simp only [hkey, hp]
  refine ⟨fun hd => by rw [htransfer, hd]; rfl, fun hd => ?_⟩
  obtain ⟨c, before, cur, hin, hset⟩ := hall s.key (List.mem_map_of_mem hs)
  have hmem := mem_members hin hkey hp hd
  have hfinal : sol.transfer s.key p.index = (cur (s.key, p.index)).getD .no := by
    rw [htransfer, if_pos hd, hset.resolved _ hmem]
    rfl
  by_cases hempty : p.paths = []
  · have hjoined : sol.joined p.paths = .no := by rw [hempty]; rfl
    have hcur : cur (s.key, p.index) = some .no := by
      rw [← hset.least.fixed _ hmem]
      simp [transferOf, hkey, hp, hempty]
    rw [hfinal, hcur, hjoined, hempty]
    simp
  · -- what each path says, and what is left of it without evidence
    obtain ⟨cs, hcs⟩ : ∃ cs, cs = p.paths.map (contrib sk before (membersOf sk c) cur) := ⟨_, rfl⟩
    have hsays : ∀ a ∈ p.paths, contrib sk before (membersOf sk c) cur a = none ∧ Unsupported sk s.key a ∧ sol.evidence a = .no ∨
        contrib sk before (membersOf sk c) cur a = some (sol.evidence a) ∧ ¬Unsupported sk s.key a := by
      intro a ha
      by_cases hstays : StaysIn sk s.key a
      · obtain ⟨hk, hmutual, t, q, ht, hq, hqd⟩ := id hstays
        have hcallee : a.callee ∈ c := (hset.mutual hin a.callee).mpr hmutual
        have hevidence : sol.evidence a = (cur (a.callee, a.arg)).getD .no := by
          unfold Solution.evidence
          rw [hk, hsol]
          simp only [transfer_eq, ht, hq, hqd, if_true, hset.resolved _ (mem_members hcallee ht hq hqd), Option.getD_some]
        have hground := hset.grounded hsome hcallee ht hq hqd
        rw [hset.stays hin hstays, hevidence]
        cases hc : cur (a.callee, a.arg) with
        | none => exact Or.inl ⟨rfl, ⟨hstays, hground.mp hc⟩, rfl⟩
        | some v =>
          refine Or.inr ⟨rfl, fun hun => ?_⟩
          rw [hground.mpr hun.2] at hc
          cases hc
      · rw [hsol]
        exact Or.inr ⟨hset.leaves hsome hin hkey hp ha hstays _ _ cur, fun hun => hstays hun.1⟩
    have hlfp : cur (s.key, p.index) = cs.foldl joinOpt none := by
      rw [hcs, ← transferOf_joined hkey hp hempty, hset.least.fixed _ hmem]
    have hjoined : sol.joined p.paths = ((cs.map fun c => some (c.getD .no)).foldl joinOpt none).getD .no := by
      unfold Solution.joined
      rw [hcs, List.map_map, List.foldl_map]
      congr 1
      refine List.foldl_ext _ _ _ fun acc a ha => ?_
      rcases hsays a ha with ⟨hnone, -, hno⟩ | ⟨hev, -⟩
      · rw [Function.comp_apply, hnone, hno]
        rfl
      · rw [Function.comp_apply, hev]
        rfl
    have hmissing : none ∈ cs ↔ ∃ a ∈ p.paths, Unsupported sk s.key a := by
      rw [hcs, List.mem_map]
      refine exists_congr fun a => and_congr_right fun ha => ?_
      rcases hsays a ha with ⟨hnone, hun, -⟩ | ⟨hev, hun⟩
      · exact iff_of_true hnone hun
      · rw [hev]
        exact iff_of_false (by simp) hun
    have hresolve := joined_resolved_iff cs
    rw [hfinal, hlfp, hjoined, ← hmissing, eq_comm]
    exact hresolve

namespace Example

/-- `F` disposes on one path and hands its parameter to `G` on the other; `G` only ever hands its
    first parameter to itself, and its second to `F`. -/
def round : List MethodSkeleton :=
  [{ key := "F", params := [{ index := 0, paths := [{ kind := .dispose }, { kind := .forward, callee := "G", arg := 0 }] }] },
   { key := "G", params := [{ index := 0, paths := [{ kind := .forward, callee := "G", arg := 0 }] },
     { index := 1, paths := [{ kind := .forward, callee := "F", arg := 0 }] }] }]

theorem round_solved : ∃ sol, solved round = .ok sol ∧ sol.transfer "F" 0 = .must ∧ sol.transfer "G" 0 = .no ∧
    sol.transfer "G" 1 = .must := by
  have hn : (keys round).Nodup := by decide
  obtain ⟨pv, hpv, -⟩ := settled_all (fuelFor_enough hn)
  have hsol := solved_of_settled hn hpv
  have hvalues : (solved round).toOption.map (fun sol => (sol.transfer "F" 0, sol.transfer "G" 0, sol.transfer "G" 1)) =
      some (.must, .no, .must) := by decide
  rw [hsol] at hvalues ⊢
  simp only [Except.toOption, Option.map_some, Option.some.injEq, Prod.mk.injEq] at hvalues
  exact ⟨_, rfl, hvalues⟩

end Example

open Example in
theorem transfer_consistent_round : ∃ sol, solved round = .ok sol ∧
    (sol.transfer "G" 1 = sol.joined [{ kind := .forward, callee := "F", arg := 0 }] ↔
      ¬(sol.transfer "G" 1 = .must ∧
        ∃ a ∈ [({ kind := .forward, callee := "F", arg := 0 } : PathAction)], Unsupported round "G" a)) := by
  obtain ⟨sol, hsol, -⟩ := round_solved
  have h := transfer_consistent round hsol (List.mem_of_getElem? (i := 1) rfl)
    (p := { index := 1, paths := [{ kind := .forward, callee := "F", arg := 0 }] }) (by decide)
  exact ⟨sol, hsol, (h.2 rfl).1⟩

open Example in
/-- `G`'s first parameter is kept in the end, and `F` has counted it as nothing. -/
theorem transfer_inconsistent : ¬∀ (sk : List MethodSkeleton) (sol : Solution), solved sk = .ok sol →
    ∀ s ∈ sk, ∀ p ∈ s.params, sol.transfer s.key p.index = sol.joined p.paths := by
  intro hall
  obtain ⟨sol, hsol, hf, hg, -⟩ := round_solved
  have h := hall round sol hsol _ (List.mem_of_getElem? (i := 0) rfl) _ List.mem_cons_self
  have hjoined : sol.joined [{ kind := .dispose }, { kind := .forward, callee := "G", arg := 0 }] = .may := by
    simp [Solution.joined, Solution.evidence, hg, joinOpt, join]
  have heq : Transfer.must = .may := hf.symm.trans (h.trans hjoined)
  cases heq

end OwnNet.Ownership
