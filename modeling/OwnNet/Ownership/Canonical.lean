/-
  OwnNet.Ownership.Canonical — the solved transfers do not depend on the order of the
  skeletons.

  A component's transfers are the least solution of its parameters' equations
  (`Rounds.rounds_least`), given the final transfers of the components before it. An
  equation reads only callees in its own component or an earlier one, and the components
  are the strongly connected ones, in every order of the skeletons; so two orders settle
  each component from the same values.

  Proved: `solve_canonical`.
-/

import Mathlib.Data.List.Induction
import OwnNet.Dict.Keyed
import OwnNet.Ownership.Solve

namespace OwnNet.Ownership

open Dataflow Graph

/-! ## The join lattice -/

theorem joinOpt_comm (a b : Option Transfer) : joinOpt a b = joinOpt b a := by
  rcases a with _ | _ | _ | _ | _ <;> rcases b with _ | _ | _ | _ | _ <;> rfl

theorem joinOpt_assoc (a b c : Option Transfer) : joinOpt (joinOpt a b) c = joinOpt a (joinOpt b c) := by
  rcases a with _ | _ | _ | _ | _ <;> rcases b with _ | _ | _ | _ | _ <;> rcases c with _ | _ | _ | _ | _ <;> rfl

theorem joinOpt_self (a : Option Transfer) : joinOpt a a = a := by
  rcases a with _ | _ | _ | _ | _ <;> rfl

instance : Max (Option Transfer) := ⟨joinOpt⟩

/-- Evidence ordered by its join. -/
instance : SemilatticeSup (Option Transfer) := SemilatticeSup.mk' joinOpt_comm joinOpt_assoc joinOpt_self

theorem evidence_le {a b : Option Transfer} : a ≤ b ↔ joinOpt a b = b := sup_eq_right.symm

theorem joinOpt_mono {a a' b b' : Option Transfer} (ha : a ≤ a') (hb : b ≤ b') : joinOpt a b ≤ joinOpt a' b' :=
  sup_le_sup ha hb

theorem none_le (a : Option Transfer) : none ≤ a := evidence_le.mpr rfl

def evidenceRank : Option Transfer → Nat
  | none => 0
  | some .no | some .must => 1
  | some .may => 2
  | some .unknown => 3

theorem evidenceRank_strict : StrictMono evidenceRank := by
  intro a b h
  have hle : joinOpt a b = b := evidence_le.mp h.le
  have hne : a ≠ b := h.ne
  revert hle hne
  rcases a with _ | _ | _ | _ | _ <;> rcases b with _ | _ | _ | _ | _ <;> decide

theorem evidenceRank_le (a : Option Transfer) : evidenceRank a ≤ 3 := by
  rcases a with _ | _ | _ | _ | _ <;> decide

/-! ## Skeletons by key -/

section Equations

variable {sk : List MethodSkeleton}

theorem byKey_mem {k : String} {s : MethodSkeleton} (h : byKey sk k = some s) : s ∈ sk ∧ s.key = k := Dict.of_find_key h

theorem byKey_of_mem (hn : (keys sk).Nodup) {s : MethodSkeleton} (h : s ∈ sk) : byKey sk s.key = some s :=
  Dict.find_key_of_mem hn h

theorem byKey_isSome {k : String} (h : k ∈ keys sk) : ∃ s, byKey sk k = some s := Dict.exists_find_key h

theorem mem_keys_of_byKey {k : String} {s : MethodSkeleton} (h : byKey sk k = some s) : k ∈ keys sk := by
  obtain ⟨hs, rfl⟩ := byKey_mem h
  exact List.mem_map.mpr ⟨s, hs, rfl⟩

theorem byKey_perm (hn : (keys sk).Nodup) {sk' : List MethodSkeleton} (hp : sk.Perm sk') : byKey sk' = byKey sk :=
  funext fun k => Dict.find_key_perm (fun _ hs _ ht => List.inj_on_of_nodup_map hn hs ht) hp k

theorem mem_callGraph {k w : String} {s : MethodSkeleton} (hs : byKey sk k = some s) :
    w ∈ callGraph sk k ↔ w ∈ s.forwards ∧ (byKey sk w).isSome := by
  unfold callGraph
  rw [hs]
  simp [List.mem_insertionSort, List.mem_dedup, List.mem_filter]

theorem callGraph_keys (k : String) (_ : k ∈ keys sk) (w : String) (hw : w ∈ callGraph sk k) : w ∈ keys sk := by
  unfold callGraph at hw
  cases hs : byKey sk k with
  | none => rw [hs] at hw; cases hw
  | some s =>
    obtain ⟨t, ht⟩ := Option.isSome_iff_exists.mp ((mem_callGraph hs).mp (by unfold callGraph; exact hw)).2
    exact mem_keys_of_byKey ht

theorem sccs_eq : sccs sk = Tarjan.run (callGraph sk) (keys sk) := Tarjan.runEager_eq callGraph_keys

theorem mem_membersOf {comp : List String} {m : ParamKey} :
    m ∈ membersOf sk comp ↔ m.1 ∈ comp ∧ ∃ s p, byKey sk m.1 = some s ∧ p ∈ s.params ∧ p.disposable = true ∧
      p.index = m.2 := by
  obtain ⟨k, i⟩ := m
  unfold membersOf
  rw [List.mem_flatMap]
  constructor
  · rintro ⟨j, hj, hm⟩
    cases hs : byKey sk j with
    | none => rw [hs] at hm; cases hm
    | some s =>
      rw [hs] at hm
      obtain ⟨p, hp, he⟩ := List.mem_map.mp hm
      obtain ⟨rfl, rfl⟩ := Prod.mk.inj he
      obtain ⟨hpm, hpd⟩ := List.mem_filter.mp hp
      exact ⟨hj, s, p, hs, hpm, hpd, rfl⟩
  · rintro ⟨hk, s, p, hs, hp, hd, he⟩
    simp only at hk hs he
    refine ⟨k, hk, ?_⟩
    rw [hs]
    exact List.mem_map.mpr ⟨p, List.mem_filter.mpr ⟨hp, hd⟩, by rw [he]⟩

theorem param?_mem {s : MethodSkeleton} {i : Int} {p : ParamSkeleton} (h : s.param? i = some p) :
    p ∈ s.params ∧ p.index = i :=
  Dict.of_find_key h

/-! ## The equations -/

variable {pv pv' : ParamKey → Option Transfer} {members members' : List ParamKey} {cur cur' : ParamKey → Option Transfer}

theorem lookup_mono (h : cur ≤ cur') (callee : String) (arg : Int) :
    lookup sk pv members cur callee arg ≤ lookup sk pv members cur' callee arg := by
  unfold lookup
  cases byKey sk callee with
  | none => exact le_refl _
  | some s =>
    dsimp only
    cases s.param? arg with
    | none => exact le_refl _
    | some p =>
      dsimp only
      split
      · exact le_refl _
      · cases pv (callee, arg) with
        | some t => exact le_refl _
        | none =>
          dsimp only
          split
          · exact h _
          · exact le_refl _

theorem contrib_mono (h : cur ≤ cur') (a : PathAction) : contrib sk pv members cur a ≤ contrib sk pv members cur' a := by
  unfold contrib
  cases a.kind with
  | forward => exact lookup_mono h a.callee a.arg
  | _ => exact le_refl _

theorem foldl_join_mono {f g : PathAction → Option Transfer} (paths : List PathAction) (h : ∀ a ∈ paths, f a ≤ g a) :
    ∀ x y, x ≤ y → paths.foldl (fun acc a => joinOpt acc (f a)) x ≤ paths.foldl (fun acc a => joinOpt acc (g a)) y := by
  induction paths with
  | nil => exact fun x y hxy => hxy
  | cons a paths ih =>
    intro x y hxy
    exact ih (fun b hb => h b (List.mem_cons_of_mem _ hb)) _ _ (joinOpt_mono hxy (h a List.mem_cons_self))

theorem transferOf_mono (k : ParamKey) : Monotone fun cur => transferOf sk pv members cur k := by
  intro cur cur' h
  dsimp only
  unfold transferOf
  split
  · exact le_refl _
  · split
    · exact le_refl _
    · exact foldl_join_mono _ (fun a _ => contrib_mono h a) _ _ (le_refl _)

/-- A parameter's equation reads the transfers of the callees its method leads to, and nothing else. -/
theorem transferOf_congr {k : ParamKey}
    (h : ∀ w ∈ callGraph sk k.1, ∀ i s p, byKey sk w = some s → s.param? i = some p → p.disposable = true →
      lookup sk pv members cur w i = lookup sk pv' members' cur' w i) :
    transferOf sk pv members cur k = transferOf sk pv' members' cur' k := by
  unfold transferOf
  cases hs : byKey sk k.1 with
  | none => rfl
  | some s =>
    cases hp : s.param? k.2 with
    | none => simp [hp]
    | some p =>
      simp only [Option.bind_some, hp]
      split
      · rfl
      · unfold transferOver
        have hcon : ∀ a ∈ p.paths, contrib sk pv members cur a = contrib sk pv' members' cur' a := by
          intro a ha
          unfold contrib
          cases hk : a.kind with
          | forward =>
            dsimp only
            cases hb : byKey sk a.callee with
            | none => simp [lookup, hb]
            | some t =>
              cases ht : t.param? a.arg with
              | none => simp [lookup, hb, ht]
              | some q =>
                by_cases hd : q.disposable = true
                · have hw : a.callee ∈ callGraph sk k.1 := by
                    rw [mem_callGraph hs]
                    refine ⟨?_, by rw [hb]; rfl⟩
                    unfold MethodSkeleton.forwards
                    refine List.mem_append_left _ (List.mem_flatMap.mpr ⟨p, (param?_mem hp).1, ?_⟩)
                    exact List.mem_map.mpr ⟨a, List.mem_filter.mpr ⟨ha, by simp [hk]⟩, rfl⟩
                  exact h a.callee hw a.arg t q hb ht hd
                · simp [lookup, hb, ht, hd]
          | _ => rfl
        have hfold : ∀ (l : List PathAction), (∀ a ∈ l, contrib sk pv members cur a = contrib sk pv' members' cur' a) →
            ∀ acc, l.foldl (fun acc a => joinOpt acc (contrib sk pv members cur a)) acc
              = l.foldl (fun acc a => joinOpt acc (contrib sk pv' members' cur' a)) acc := by
          intro l hl
          induction l with
          | nil => exact fun _ => rfl
          | cons a l ih =>
            intro acc
            rw [List.foldl_cons, List.foldl_cons, hl a List.mem_cons_self]
            exact ih (fun b hb => hl b (List.mem_cons_of_mem _ hb)) _
        exact hfold p.paths hcon none

end Equations

/-! ## One component -/

/-- `cur` is the least fixpoint of the equations of `comp`'s parameters, given `paramVal`. -/
structure LeastTransfers (sk : List MethodSkeleton) (paramVal : ParamKey → Option Transfer) (comp : List String)
    (cur : ParamKey → Option Transfer) : Prop where
  fixed : ∀ k ∈ membersOf sk comp, transferOf sk paramVal (membersOf sk comp) cur k = cur k
  least : ∀ x, (∀ k ∈ membersOf sk comp, transferOf sk paramVal (membersOf sk comp) x k = x k) →
    ∀ k ∈ membersOf sk comp, joinOpt (cur k) (x k) = x k

theorem iterateComp_least (sk : List MethodSkeleton) {fuel : Nat} {comp : List String}
    (hf : (membersOf sk comp).length * 3 < fuel) (paramVal : ParamKey → Option Transfer) :
    ∃ cur, iterateComp sk fuel paramVal comp = some cur ∧ LeastTransfers sk paramVal comp cur := by
  have hmono : ∀ k ∈ membersOf sk comp, Monotone fun cur => transferOf sk paramVal (membersOf sk comp) cur k :=
    fun k _ => transferOf_mono k
  obtain ⟨cur, hrun, hrise, hfix⟩ := rounds_least evidenceRank_strict evidenceRank_le hmono
    (fun k _ => none_le (transferOf sk paramVal (membersOf sk comp) (fun _ => none) k)) hf
  refine ⟨cur, hrun, hfix, fun x hx k _ => ?_⟩
  exact evidence_le.mp (hrise.below x (fun j => none_le _) (fun j hj => le_of_eq (hx j hj)) k)

theorem finalize_of_mem {cur : ParamKey → Option Transfer} {m : ParamKey} :
    ∀ (members : List ParamKey) (pv : ParamKey → Option Transfer), m ∈ members ∨ pv m = some ((cur m).getD .no) →
      finalize members cur pv m = some ((cur m).getD .no) := by
  intro members
  induction members with
  | nil => exact fun pv h => h.elim (fun h => absurd h List.not_mem_nil) id
  | cons k members ih =>
    intro pv h
    refine ih _ ?_
    by_cases e : m = k
    · right
      show Function.update pv k _ m = _
      rw [e, Function.update_self]
    · show m ∈ members ∨ Function.update pv k _ m = _
      rw [Function.update_of_ne e]
      exact h.imp (fun h => (List.mem_cons.mp h).resolve_left e) id

theorem finalize_of_not_mem {cur : ParamKey → Option Transfer} {m : ParamKey} :
    ∀ (members : List ParamKey) (pv : ParamKey → Option Transfer), m ∉ members → finalize members cur pv m = pv m := by
  intro members
  induction members with
  | nil => exact fun pv _ => rfl
  | cons k members ih =>
    intro pv h
    rw [List.mem_cons, not_or] at h
    show finalize members cur (Function.update pv k _) m = pv m
    rw [ih _ h.2, Function.update_of_ne h.1]

/-- What settling a component does: its members get their least transfers, resolved. -/
theorem settleComp_ok {sk : List MethodSkeleton} {fuel : Nat} {comp : List String}
    (hf : (membersOf sk comp).length * 3 < fuel) (paramVal : ParamKey → Option Transfer) :
    ∃ cur pv, iterateComp sk fuel paramVal comp = some cur ∧ LeastTransfers sk paramVal comp cur ∧
      settleComp sk fuel paramVal comp = some pv ∧
      (∀ m ∈ membersOf sk comp, pv m = some ((cur m).getD .no)) ∧ ∀ m, m ∉ membersOf sk comp → pv m = paramVal m := by
  obtain ⟨cur, hrun, hleast⟩ := iterateComp_least sk hf paramVal
  by_cases he : membersOf sk comp = []
  · refine ⟨cur, paramVal, hrun, hleast, by simp [settleComp, he], ?_, fun _ _ => rfl⟩
    intro m hm
    rw [he] at hm
    cases hm
  · refine ⟨cur, finalize (membersOf sk comp) cur paramVal, hrun, hleast, ?_, ?_, ?_⟩
    · unfold settleComp
      rw [if_neg (by simpa using he), hrun]
      rfl
    · exact fun m hm => finalize_of_mem _ _ (Or.inl hm)
    · exact fun m hm => finalize_of_not_mem _ _ hm

/-! ## All components -/

/-- Component `c`, settled after `pre`: from the transfers `before`, by its least transfers `cur`. -/
structure SettledFrom (sk : List MethodSkeleton) (fuel : Nat) (start pv : ParamKey → Option Transfer)
    (pre : List (List String)) (c : List String) (before cur : ParamKey → Option Transfer) : Prop where
  ran : settleComps sk fuel pre start = some before
  iterated : iterateComp sk fuel before c = some cur
  least : LeastTransfers sk before c cur
  resolved : ∀ m ∈ membersOf sk c, pv m = some ((cur m).getD .no)
  kept : ∀ m, m.1 ∈ pre.flatten → pv m = before m
  untouched : ∀ m, m.1 ∉ pre.flatten → before m = start m

theorem not_mem_membersOf {sk : List MethodSkeleton} {comp : List String} {m : ParamKey} (h : m.1 ∉ comp) :
    m ∉ membersOf sk comp := fun hm => h (mem_membersOf.mp hm).1

theorem settleComps_ok {sk : List MethodSkeleton} {fuel : Nat} :
    ∀ (comps : List (List String)), comps.flatten.Nodup → (∀ c ∈ comps, (membersOf sk c).length * 3 < fuel) →
      ∀ start : ParamKey → Option Transfer, ∃ pv, settleComps sk fuel comps start = some pv ∧
        (∀ m, (∀ c ∈ comps, m ∉ membersOf sk c) → pv m = start m) ∧
        ∀ pre c post, comps = pre ++ c :: post → ∃ before cur, SettledFrom sk fuel start pv pre c before cur := by
  intro comps
  induction comps with
  | nil =>
    intro _ _ start
    exact ⟨start, rfl, fun _ _ => rfl, fun pre c post h => by simp at h⟩
  | cons d comps ih =>
    intro hnd hf start
    rw [List.flatten_cons, List.nodup_append] at hnd
    obtain ⟨cur, mid, hrun, hleast, hset, hres, hoff⟩ := settleComp_ok (hf d List.mem_cons_self) start
    obtain ⟨pv, hpv, hout, hparts⟩ := ih hnd.2.1 (fun c hc => hf c (List.mem_cons_of_mem _ hc)) mid
    have hlater : ∀ m : ParamKey, m.1 ∈ d → pv m = mid m := fun m hm =>
      hout m fun c hc => not_mem_membersOf fun h => hnd.2.2 m.1 hm m.1 (List.mem_flatten.mpr ⟨c, hc, h⟩) rfl
    refine ⟨pv, by rw [settleComps, hset]; exact hpv, ?_, ?_⟩
    · intro m hm
      rw [hout m fun c hc => hm c (List.mem_cons_of_mem _ hc), hoff m (hm d List.mem_cons_self)]
    · intro pre c post h
      cases pre with
      | nil =>
        obtain ⟨rfl, rfl⟩ := List.cons.inj h
        refine ⟨start, cur, rfl, hrun, hleast, fun m hm => ?_, fun m hm => absurd hm List.not_mem_nil, fun _ _ => rfl⟩
        rw [hlater m (mem_membersOf.mp hm).1, hres m hm]
      | cons e pre =>
        obtain ⟨rfl, htail⟩ := List.cons.inj h
        obtain ⟨before, cur', hp⟩ := hparts pre c post htail
        refine ⟨before, cur', by rw [settleComps, hset]; exact hp.ran, hp.iterated, hp.least, hp.resolved, ?_, ?_⟩
        · intro m hm
          rw [List.flatten_cons, List.mem_append] at hm
          by_cases hmp : m.1 ∈ pre.flatten
          · exact hp.kept m hmp
          · have hmd := hm.resolve_right hmp
            rw [hlater m hmd, hp.untouched m hmp]
        · intro m hm
          rw [List.flatten_cons, List.mem_append, not_or] at hm
          rw [hp.untouched m hm.2, hoff m (not_mem_membersOf hm.1)]

/-! ## Two orders of the skeletons -/

section Orders

variable {sk : List MethodSkeleton} (hn : (keys sk).Nodup)

theorem callGraph_eq {sk' : List MethodSkeleton} (h : byKey sk' = byKey sk) : callGraph sk' = callGraph sk := by
  funext k; unfold callGraph; rw [h]

theorem membersOf_eq {sk' : List MethodSkeleton} (h : byKey sk' = byKey sk) : membersOf sk' = membersOf sk := by
  funext comp; unfold membersOf; rw [h]

theorem transferOf_eq {sk' : List MethodSkeleton} (h : byKey sk' = byKey sk) : transferOf sk' = transferOf sk := by
  funext pv members cur k
  unfold transferOf transferOver contrib lookup
  rw [h]

theorem sccs_nodup : (sccs sk).flatten.Nodup := by
  rw [sccs_eq]
  exact Tarjan.run_nodup callGraph_keys

theorem sccs_covers {k : String} : k ∈ (sccs sk).flatten ↔ k ∈ keys sk := by
  rw [sccs_eq]
  exact Tarjan.run_covers callGraph_keys k

theorem sccs_topo {pre : List (List String)} {c : List String} {post : List (List String)}
    (h : sccs sk = pre ++ c :: post) : ∀ x ∈ c, ∀ w ∈ callGraph sk x, w ∈ c ∨ w ∈ pre.flatten := by
  rw [sccs_eq] at h
  exact Tarjan.run_topo callGraph_keys pre c post h

theorem mem_sccs {c : List String} (hc : c ∈ sccs sk) {x : String} (hx : x ∈ c) (y : String) :
    y ∈ c ↔ Reaches (callGraph sk) x y ∧ Reaches (callGraph sk) y x := by
  rw [sccs_eq] at hc
  exact Tarjan.mem_component callGraph_keys hc hx y

theorem pre_disjoint {pre : List (List String)} {c : List String} {post : List (List String)}
    (h : sccs sk = pre ++ c :: post) {k : String} (hk : k ∈ c) : k ∉ pre.flatten := by
  have := @sccs_nodup sk
  rw [h, List.flatten_append, List.nodup_append] at this
  exact fun hp => this.2.2 k hp k (by simp [hk]) rfl

/-- One component settled in two orders: equal transfers at its callees before it give equal transfers. -/
theorem least_agree {pre pre' : List (List String)} {c c' : List String} {post post' : List (List String)}
    {sk' : List MethodSkeleton} (hb : byKey sk' = byKey sk) (h : sccs sk = pre ++ c :: post)
    (h' : sccs sk' = pre' ++ c' :: post') {fuel : Nat} {pv pv' before before' cur cur' : ParamKey → Option Transfer}
    (hs : SettledFrom sk fuel (fun _ => none) pv pre c before cur)
    (hs' : SettledFrom sk' fuel (fun _ => none) pv' pre' c' before' cur')
    (hsame : ∀ y, y ∈ c ↔ y ∈ c')
    (hpre : ∀ m : ParamKey, m.1 ∈ pre.flatten → m.1 ∈ pre'.flatten → pv m = pv' m) :
    ∀ m ∈ membersOf sk c, joinOpt (cur m) (cur' m) = cur' m := by
  have hmem : ∀ m, m ∈ membersOf sk' c' ↔ m ∈ membersOf sk c := by
    intro m
    rw [membersOf_eq hb, mem_membersOf, mem_membersOf, hsame]
  refine hs.least.least cur' fun m hm => ?_
  have hfix' := hs'.least.fixed m ((hmem m).mpr hm)
  rw [transferOf_eq hb] at hfix'
  refine Eq.trans ?_ hfix'
  refine transferOf_congr fun w hw i s p hws hp hd => ?_
  have hkc := (mem_membersOf.mp hm).1
  have hkey : ∀ q : String, q ∈ c → q ∈ c' := fun q hq => (hsame q).mp hq
  unfold lookup
  rw [hws]
  simp only [hp, hd, Bool.not_true, Bool.false_eq_true, if_false]
  by_cases hwc : w ∈ c
  · have h1 : before (w, i) = none := hs.untouched (w, i) (pre_disjoint h hwc)
    have h2 : before' (w, i) = none := hs'.untouched (w, i) (pre_disjoint h' (hkey w hwc))
    rw [h1, h2]
    simp only [hmem]
  · have hwp : w ∈ pre.flatten := (sccs_topo h m.1 hkc w hw).resolve_left hwc
    have hwp' : w ∈ pre'.flatten := by
      have := sccs_topo h' m.1 (hkey _ hkc) w (by rw [callGraph_eq hb]; exact hw)
      exact this.resolve_left fun hc => hwc ((hsame w).mpr hc)
    have h1 : before (w, i) = before' (w, i) := by
      rw [← hs.kept (w, i) hwp, ← hs'.kept (w, i) hwp']
      exact hpre (w, i) hwp hwp'
    rw [h1]
    have hnm : (w, i) ∉ membersOf sk c := not_mem_membersOf hwc
    have hnm' : (w, i) ∉ membersOf sk' c' := fun hm => hnm ((hmem _).mp hm)
    simp only [hnm, hnm', if_false]

variable {sk' : List MethodSkeleton} (hp : sk.Perm sk')

/-- The fuel every component needs. -/
def Enough (sk : List MethodSkeleton) (fuel : Nat) : Prop := ∀ c ∈ sccs sk, (membersOf sk c).length * 3 < fuel

include hn hp in
/-- Both orders settle every parameter to the same transfer. -/
theorem settle_perm {fuel : Nat} (hf : Enough sk fuel) (hf' : Enough sk' fuel) :
    ∃ pv, settleComps sk fuel (sccs sk) (fun _ => none) = some pv ∧
      settleComps sk' fuel (sccs sk') (fun _ => none) = some pv := by
  have hb := byKey_perm hn hp
  obtain ⟨pv, hpv, hout, hparts⟩ := settleComps_ok (sccs sk) sccs_nodup hf fun _ => none
  obtain ⟨pv', hpv', hout', hparts'⟩ := settleComps_ok (sccs sk') sccs_nodup hf' fun _ => none
  have hkeys : ∀ k, k ∈ (sccs sk').flatten ↔ k ∈ (sccs sk).flatten := fun k => by
    rw [sccs_covers, sccs_covers]
    exact (hp.map MethodSkeleton.key).symm.mem_iff
  have hmem : membersOf sk' = membersOf sk := membersOf_eq hb
  -- equal on the components of a prefix, one more component at a time
  have hagree : ∀ pre post, sccs sk = pre ++ post → ∀ c ∈ pre, ∀ m ∈ membersOf sk c, pv m = pv' m := by
    intro pre
    induction pre using List.reverseRecOn with
    | nil => exact fun _ _ c hc => absurd hc List.not_mem_nil
    | append_singleton pre c ih =>
      intro post h d hd m hm
      rw [List.append_assoc, List.singleton_append] at h
      have hpre := ih (c :: post) h
      rcases List.mem_append.mp hd with hd | hd
      · exact hpre d hd m hm
      · rw [List.mem_singleton] at hd
        subst hd
        have hmc := (mem_membersOf.mp hm).1
        have hcs : d ∈ sccs sk := by rw [h]; simp
        obtain ⟨c', hc', hmc'⟩ := List.mem_flatten.mp ((hkeys m.1).mpr (List.mem_flatten.mpr ⟨d, hcs, hmc⟩))
        obtain ⟨pre', post', h'⟩ := List.append_of_mem hc'
        have hsame : ∀ y, y ∈ d ↔ y ∈ c' := by
          intro y
          rw [mem_sccs hcs hmc, mem_sccs hc' hmc', callGraph_eq hb]
        obtain ⟨before, cur, hs⟩ := hparts pre d post h
        obtain ⟨before', cur', hs'⟩ := hparts' pre' c' post' h'
        have hm' : m ∈ membersOf sk' c' := by
          rw [hmem, mem_membersOf]
          exact ⟨hmc', (mem_membersOf.mp hm).2⟩
        have hold : ∀ k : ParamKey, k.1 ∈ pre.flatten → pv k = pv' k := by
          intro k hk
          obtain ⟨e, he, hke⟩ := List.mem_flatten.mp hk
          by_cases hkm : k ∈ membersOf sk e
          · exact hpre e he k hkm
          · have hoff : ∀ c, k ∉ membersOf sk c := fun c hc =>
              hkm (mem_membersOf.mpr ⟨hke, (mem_membersOf.mp hc).2⟩)
            rw [hout k fun c _ => hoff c, hout' k fun c _ => hmem ▸ hoff c]
        have hle := least_agree hb h h' hs hs' hsame (fun k hk _ => hold k hk) m hm
        have hge := least_agree hb.symm h' h hs' hs (fun y => (hsame y).symm) (fun k _ hk => (hold k hk).symm) m hm'
        rw [hs.resolved m hm, hs'.resolved m hm', ← hle, joinOpt_comm, hge]
  have heq : pv = pv' := by
    funext m
    by_cases hm : ∃ c ∈ sccs sk, m ∈ membersOf sk c
    · obtain ⟨c, hc, hmc⟩ := hm
      exact hagree (sccs sk) [] (by simp) c hc m hmc
    · have hoff : ∀ c ∈ sccs sk, m ∉ membersOf sk c := fun c hc h => hm ⟨c, hc, h⟩
      have hoff' : ∀ c ∈ sccs sk', m ∉ membersOf sk' c := by
        intro c hc h
        rw [hmem] at h
        obtain ⟨hmc, hrest⟩ := mem_membersOf.mp h
        obtain ⟨d, hd, hmd⟩ := List.mem_flatten.mp ((hkeys m.1).mp (List.mem_flatten.mpr ⟨c, hc, hmc⟩))
        exact hoff d hd (mem_membersOf.mpr ⟨hmd, hrest⟩)
      rw [hout m hoff, hout' m hoff']
  exact ⟨pv, hpv, by rw [heq]; exact hpv'⟩

end Orders

/-! ## Returns -/

section Returns

variable {sk : List MethodSkeleton}

/-- The chase visits each method at most once. -/
theorem chase_returns : ∀ (n : Nat) (retVal : String → Option Returned) (path : List String) (key : String),
    (key :: path).Nodup → (∀ k ∈ key :: path, k ∈ keys sk) → (keys sk).length < n + (path.length + 1) →
      ∃ r, chase sk n retVal path key = some r := by
  intro n
  induction n with
  | zero =>
    intro retVal path key hnd hsub hn
    have := (List.subperm_of_subset hnd hsub).length_le
    simp only [List.length_cons] at this
    omega
  | succ n ih =>
    intro retVal path key hnd hsub hn
    unfold chase
    cases retVal key with
    | some val => exact ⟨_, rfl⟩
    | none =>
      obtain ⟨s, hs⟩ := byKey_isSome (hsub key List.mem_cons_self)
      rw [hs]
      dsimp only
      split
      · exact ⟨_, rfl⟩
      · split
        · exact ⟨_, rfl⟩
        · rename_i hsome
          split
          · exact ⟨_, rfl⟩
          · rename_i hnew
            rw [not_or] at hnew
            have hkey : s.ret.callee ∈ keys sk := by
              obtain ⟨t, ht⟩ := Option.ne_none_iff_exists'.mp (by simpa using hsome)
              exact mem_keys_of_byKey ht
            refine ih retVal (key :: path) s.ret.callee ?_ ?_ (by simp only [List.length_cons]; omega)
            · refine List.nodup_cons.mpr ⟨?_, hnd⟩
              rw [List.mem_cons, not_or]
              exact hnew
            · intro k hk
              rcases List.mem_cons.mp hk with rfl | hk
              · exact hkey
              · exact hsub k hk

/-- Every method gets a summary, its parameters resolved from `paramVal`. -/
theorem summarize_returns {fuel : Nat} (hf : (keys sk).length < fuel + 1) (paramVal : ParamKey → Option Transfer) :
    ∀ (l : List MethodSkeleton), (∀ s ∈ l, s ∈ sk) → ∀ retVal : String → Option Returned,
      ∃ out, summarize sk fuel paramVal l retVal = some out ∧
        out.map (fun m => (m.key, m.params)) = l.map fun s => (s.key, s.params.map (summarizeParam paramVal s.key)) := by
  intro l
  induction l with
  | nil => exact fun _ retVal => ⟨[], rfl, rfl⟩
  | cons s l ih =>
    intro hl retVal
    have hkey : s.key ∈ keys sk := List.mem_map_of_mem (hl s List.mem_cons_self)
    have hres : ∃ r, resolveReturn sk fuel retVal s.key = some r := by
      unfold resolveReturn
      split
      · exact ⟨_, rfl⟩
      · exact chase_returns fuel retVal [] s.key (by simp) (by simpa using hkey) (by simpa using hf)
    obtain ⟨r, hr⟩ := hres
    obtain ⟨out, hout, hmap⟩ := ih (fun t ht => hl t (List.mem_cons_of_mem _ ht)) r
    refine ⟨_, by simp only [summarize, hr, hout, Option.map_some]; rfl, ?_⟩
    rw [List.map_cons, List.map_cons, hmap]

end Returns

/-! ## The solver -/

theorem firstDuplicate_none {sks : List MethodSkeleton} (hn : (keys sks).Nodup) {seen : List String}
    (hs : ∀ k ∈ seen, k ∉ keys sks) : firstDuplicate seen sks = none := by
  induction sks generalizing seen with
  | nil => rfl
  | cons s sks ih =>
    have hn' : (s.key :: keys sks).Nodup := hn
    rw [List.nodup_cons] at hn'
    unfold firstDuplicate
    rw [if_neg fun h => hs s.key h List.mem_cons_self]
    refine ih hn'.2 fun k hk hm => ?_
    rcases List.mem_cons.mp hk with rfl | hk
    · exact hn'.1 hm
    · exact hs k hk (List.mem_cons_of_mem _ hm)

theorem exists_enough (sk : List MethodSkeleton) : ∃ n, ∀ fuel ≥ n, Enough sk fuel := by
  unfold Enough
  induction sccs sk with
  | nil => exact ⟨0, fun _ _ c hc => absurd hc List.not_mem_nil⟩
  | cons d comps ih =>
    obtain ⟨n, hn⟩ := ih
    refine ⟨n + (membersOf sk d).length * 3 + 1, fun fuel hf c hc => ?_⟩
    rcases List.mem_cons.mp hc with rfl | hc
    · omega
    · exact hn fuel (by omega) c hc

theorem solve_some {sks : List MethodSkeleton} (hn : (keys sks).Nodup) {fuel : Nat} (hf : (keys sks).length < fuel + 1)
    {pv : ParamKey → Option Transfer} (hpv : settleComps sks fuel (sccs sks) (fun _ => none) = some pv) :
    ∃ out, solve fuel sks = some (.ok out) ∧
      out.map (fun m => (m.key, m.params)) = sks.map fun s => (s.key, s.params.map (summarizeParam pv s.key)) := by
  obtain ⟨out, hout, hmap⟩ := summarize_returns hf pv sks (fun _ h => h) fun _ => none
  refine ⟨out, ?_, hmap⟩
  unfold solve solveWithLog
  rw [firstDuplicate_none hn fun k (hk : k ∈ []) => absurd hk List.not_mem_nil]
  simp only [hpv, Option.bind_some, hout, Option.map_some]
  rfl

/-- Every disposable parameter is a member of a component. -/
theorem exists_component {sks : List MethodSkeleton} (hn : (keys sks).Nodup) {s : MethodSkeleton}
    (hs : s ∈ sks) {p : ParamSkeleton}
    (hp : p ∈ s.params) (hd : p.disposable = true) : ∃ c ∈ sccs sks, (s.key, p.index) ∈ membersOf sks c := by
  have hkey : s.key ∈ (sccs sks).flatten := sccs_covers.mpr (List.mem_map_of_mem hs)
  obtain ⟨c, hc, hin⟩ := List.mem_flatten.mp hkey
  exact ⟨c, hc, mem_membersOf.mpr ⟨hin, s, p, byKey_of_mem hn hs, hp, hd, rfl⟩⟩

/-- The solver returns, with the same transfers for every order of the skeletons; its components
    are the strongly connected ones, callees first; a component's transfers, before those without
    evidence are resolved, are the least fixpoint of its parameters' equations given the final
    transfers of the components before it; and the transfers returned are these, resolved. -/
theorem solve_canonical (sks : List MethodSkeleton) (hn : (keys sks).Nodup) :
    (∃ n, ∀ fuel ≥ n, ∃ out, ∃ final : ParamKey → Option Transfer,
      solve fuel sks = some (.ok out) ∧
      (out.map fun m => (m.key, m.params)) = (sks.map fun s => (s.key, s.params.map fun p =>
        ⟨p.index, p.name, p.disposable, if p.disposable then (final (s.key, p.index)).getD .no else .no, p.escapes⟩)) ∧
      ∀ pre c post, sccs sks = pre ++ c :: post → ∃ paramVal cur,
        settleComps sks fuel pre (fun _ => none) = some paramVal ∧
        (∀ m, paramVal m = if m.1 ∈ pre.flatten then final m else none) ∧
        iterateComp sks fuel paramVal c = some cur ∧ LeastTransfers sks paramVal c cur ∧
        ∀ m ∈ membersOf sks c, final m = some ((cur m).getD .no)) ∧
    (∀ s ∈ sks, ∀ p ∈ s.params, p.disposable = true → ∃ c ∈ sccs sks, (s.key, p.index) ∈ membersOf sks c) ∧
    (∀ c ∈ sccs sks, ∀ x ∈ c, ∀ y, y ∈ c ↔ Reaches (callGraph sks) x y ∧ Reaches (callGraph sks) y x) ∧
    (∀ pre c post, sccs sks = pre ++ c :: post → ∀ x ∈ c, ∀ w ∈ callGraph sks x, w ∈ c ∨ w ∈ pre.flatten) ∧
    ∀ sks', sks.Perm sks' → ∃ n, ∀ fuel ≥ n, ∃ out out', solve fuel sks = some (.ok out) ∧
      solve fuel sks' = some (.ok out') ∧
      (out.map fun m => (m.key, m.params)).Perm (out'.map fun m => (m.key, m.params)) := by
  obtain ⟨n, hen⟩ := exists_enough sks
  refine ⟨⟨n + (keys sks).length, fun fuel hf => ?_⟩, fun s hs p hp hd => exists_component hn hs hp hd,
    fun c hc x hx y => mem_sccs hc hx y, fun pre c post h => sccs_topo h, fun sks' hp => ?_⟩
  · obtain ⟨pv, hpv, -, hparts⟩ := settleComps_ok (sccs sks) sccs_nodup (hen fuel (by omega)) fun _ => none
    obtain ⟨out, hout, hmap⟩ := solve_some hn (by omega) hpv
    refine ⟨out, pv, hout, hmap, fun pre c post h => ?_⟩
    obtain ⟨before, cur, hs⟩ := hparts pre c post h
    refine ⟨before, cur, hs.ran, fun m => ?_, hs.iterated, hs.least, hs.resolved⟩
    split
    · next hin => exact (hs.kept m hin).symm
    · next hout => exact hs.untouched m hout
  · obtain ⟨n', hen'⟩ := exists_enough sks'
    have hn' : (keys sks').Nodup := (hp.map MethodSkeleton.key).nodup_iff.mp hn
    have hlen : (keys sks').length = (keys sks).length := by simp [keys, hp.length_eq]
    refine ⟨n + n' + (keys sks).length, fun fuel hf => ?_⟩
    obtain ⟨pv, hpv, hpv'⟩ := settle_perm hn hp (hen fuel (by omega)) (hen' fuel (by omega))
    obtain ⟨out, hout, hmap⟩ := solve_some hn (by omega) hpv
    obtain ⟨out', hout', hmap'⟩ := solve_some hn' (by omega) hpv'
    refine ⟨out, out', hout, hout', ?_⟩
    rw [hmap, hmap']
    exact hp.map _

namespace Example

/-- Two methods that dispose in turn, a caller of both and of an extern, and one that hands on to itself. -/
def tower : List MethodSkeleton :=
  [{ key := "A", params := [{ index := 0, paths := [{ kind := .dispose }, { kind := .forward, callee := "B", arg := 0 }] }] },
   { key := "B", params := [{ index := 0, paths := [{ kind := .forward, callee := "A", arg := 0 }] }] },
   { key := "C", params := [{ index := 0, paths := [{ kind := .forward, callee := "B", arg := 0 }] },
     { index := 1, paths := [{ kind := .forward, callee := "X", arg := 0 }] }] },
   { key := "D", params := [{ index := 0, paths := [{ kind := .forward, callee := "D", arg := 0 }] }] }]

section

variable {sk : List MethodSkeleton} {pv cur : ParamKey → Option Transfer} {members : List ParamKey} {callee : String} {arg : Int}

theorem lookup_member (hhere : ((byKey sk callee).bind (·.param? arg)).any ParamSkeleton.disposable = true)
    (hnone : pv (callee, arg) = none) (hmem : (callee, arg) ∈ members) :
    lookup sk pv members cur callee arg = cur (callee, arg) := by
  obtain ⟨p, hp, hd⟩ := (Option.any_eq_true _ _).mp hhere
  obtain ⟨m, hm, hp⟩ := Option.bind_eq_some_iff.mp hp
  unfold lookup
  simp only [hm, hp, hd, hnone, if_pos hmem]
  rfl

theorem lookup_solved (hhere : ((byKey sk callee).bind (·.param? arg)).any ParamSkeleton.disposable = true) {t : Transfer}
    (hsome : pv (callee, arg) = some t) : lookup sk pv members cur callee arg = some t := by
  obtain ⟨p, hp, hd⟩ := (Option.any_eq_true _ _).mp hhere
  obtain ⟨m, hm, hp⟩ := Option.bind_eq_some_iff.mp hp
  unfold lookup
  simp only [hm, hp, hd, hsome]
  rfl

end

theorem tower_sccs : sccs tower = [["B", "A"], ["C"], ["D"]] := by decide +kernel

/-- The least transfers of the two that dispose in turn. -/
theorem tower_pair {pv cur : ParamKey → Option Transfer} (hpv : ∀ m, m.1 ∈ ["B", "A"] → pv m = none)
    (h : LeastTransfers tower pv ["B", "A"] cur) : cur ("A", 0) = some .must ∧ cur ("B", 0) = some .must := by
  have hA : ∀ x, transferOf tower pv (membersOf tower ["B", "A"]) x ("A", 0) = joinOpt (some .must) (x ("B", 0)) := fun x => by
    change joinOpt (some .must) (lookup tower pv (membersOf tower ["B", "A"]) x "B" 0) = _
    rw [lookup_member (by decide) (hpv ("B", 0) (by decide)) (by decide)]
  have hB : ∀ x, transferOf tower pv (membersOf tower ["B", "A"]) x ("B", 0) = x ("A", 0) := fun x => by
    change joinOpt none (lookup tower pv (membersOf tower ["B", "A"]) x "A" 0) = _
    rw [lookup_member (by decide) (hpv ("A", 0) (by decide)) (by decide)]
    rfl
  have hmembers : membersOf tower ["B", "A"] = [("B", 0), ("A", 0)] := by decide
  have hfixA := h.fixed ("A", 0) (by rw [hmembers]; decide)
  have hfixB := h.fixed ("B", 0) (by rw [hmembers]; decide)
  have hleast := h.least (fun _ => some .must) (fun k hk => by
    rw [hmembers] at hk
    rcases List.mem_cons.mp hk with rfl | hk
    · exact hB _
    · rw [List.mem_singleton.mp hk]
      exact hA _) ("A", 0) (by rw [hmembers]; decide)
  rw [hA] at hfixA
  rw [hB] at hfixB
  rw [← hfixB] at hfixA ⊢
  have hmust : cur ("A", 0) = some .must := by
    rcases ht : cur ("A", 0) with _ | t
    · rw [ht] at hfixA
      cases hfixA
    · rw [ht] at hfixA hleast
      revert hfixA hleast
      cases t <;> decide
  exact ⟨hmust, hmust⟩

/-- A parameter that is only handed on to itself keeps no evidence. -/
theorem tower_self {pv cur : ParamKey → Option Transfer} (hpv : pv ("D", 0) = none) (h : LeastTransfers tower pv ["D"] cur) :
    cur ("D", 0) = none := by
  have hmembers : membersOf tower ["D"] = [("D", 0)] := by decide
  have hleast := h.least (fun _ => none) (fun k hk => by
    rw [hmembers] at hk
    rw [List.mem_singleton.mp hk]
    change joinOpt none (lookup tower pv (membersOf tower ["D"]) (fun _ => none) "D" 0) = none
    rw [lookup_member (by decide) hpv (by decide)]
    rfl) ("D", 0) (by rw [hmembers]; decide)
  rcases ht : cur ("D", 0) with _ | t
  · rfl
  · rw [ht] at hleast
    cases hleast

end Example

open Example in
/-- The transfers that are returned: the two dispose, so does their caller of its first parameter, and
    nothing is known to happen to the parameter that is only handed on to itself. -/
theorem solve_canonical_tower : (keys tower).Nodup ∧
    (∃ n, ∀ fuel ≥ n, ∃ out, solve fuel tower = some (.ok out) ∧
      (out.map fun m => (m.key, m.params.map ParamSummary.transfer)) =
        [("A", [.must]), ("B", [.must]), ("C", [.must, .unknown]), ("D", [.no])]) ∧
    ∀ sks', tower.Perm sks' → ∃ n, ∀ fuel ≥ n, ∃ out out', solve fuel tower = some (.ok out) ∧
      solve fuel sks' = some (.ok out') ∧
      (out.map fun m => (m.key, m.params)).Perm (out'.map fun m => (m.key, m.params)) := by
  have hn : (keys tower).Nodup := by decide
  obtain ⟨⟨n, hrun⟩, -, -, -, hperm⟩ := solve_canonical tower hn
  refine ⟨hn, ⟨n, fun fuel hf => ?_⟩, hperm⟩
  obtain ⟨out, final, hout, hmap, hcomps⟩ := hrun fuel hf
  obtain ⟨pv, cur, -, hbefore, -, hpair, hfinal⟩ := hcomps [] ["B", "A"] [["C"], ["D"]] tower_sccs
  obtain ⟨pv', cur', -, hbefore', -, hcaller, hfinal'⟩ := hcomps [["B", "A"]] ["C"] [["D"]] tower_sccs
  obtain ⟨pv'', cur'', -, hbefore'', -, hself, hfinal''⟩ := hcomps [["B", "A"], ["C"]] ["D"] [] tower_sccs
  obtain ⟨hA, hB⟩ := tower_pair (fun m _ => by rw [hbefore]; rfl) hpair
  have hfA : final ("A", 0) = some .must := by rw [hfinal ("A", 0) (by decide), hA]; rfl
  have hfB : final ("B", 0) = some .must := by rw [hfinal ("B", 0) (by decide), hB]; rfl
  have hfC : final ("C", 0) = some .must := by
    have hpv : pv' ("B", 0) = some .must := (hbefore' ("B", 0)).trans hfB
    have hlookup : transferOf tower pv' (membersOf tower ["C"]) cur' ("C", 0) = pv' ("B", 0) := by
      change lookup tower pv' (membersOf tower ["C"]) cur' "B" 0 = _
      rw [lookup_solved (by decide) hpv, hpv]
    rw [hfinal' ("C", 0) (by decide), ← hcaller.fixed ("C", 0) (by decide), hlookup, hpv]
    rfl
  have hfC' : final ("C", 1) = some .unknown := by
    rw [hfinal' ("C", 1) (by decide), ← hcaller.fixed ("C", 1) (by decide)]
    rfl
  have hfD : final ("D", 0) = some .no := by
    rw [hfinal'' ("D", 0) (by decide), tower_self ((hbefore'' ("D", 0)).trans rfl) hself]
    rfl
  refine ⟨out, hout, ?_⟩
  have hshape := congrArg (List.map fun m : String × List ParamSummary => (m.1, m.2.map ParamSummary.transfer)) hmap
  rw [List.map_map] at hshape
  exact hshape.trans (by simp [tower, hfA, hfB, hfC, hfC', hfD])

end OwnNet.Ownership
