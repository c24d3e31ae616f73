/-
  OwnNet.Ownership.Returns — when the chase of a forwarded return has a definite answer.

  From a method the chain of forwards within the set either goes round for ever, leaves the
  set, or ends at a method whose return is not forwarded. `Resolved` are the memos that the
  chases of any methods, in any order, leave behind.

  Proved: `return_exact`: from every such memo the chase of a method ends with one answer,
  the same for all of them. It is `fresh`, `aliased` or `none` just where the chain ends at
  that kind, an alias of a parameter just where the method itself returns one, and unknown
  just where the chain is cyclic or leaves the set, or ends behind a hop at an alias of a
  parameter, or at a kind that is not known.
-/

import OwnNet.Ownership.Orders

namespace OwnNet.Ownership

section Hops

variable {get : String → Option MethodSkeleton}

/-- A method returns what another method of the set returns. -/
def HandsOn (get : String → Option MethodSkeleton) (k k' : String) : Prop :=
  ∃ s, get k = some s ∧ s.ret.kind = .forward ∧ s.ret.callee = k' ∧ (get k').isSome

/-- A chain of forwarded returns. -/
def Hops (get : String → Option MethodSkeleton) : String → String → Prop := Relation.ReflTransGen (HandsOn get)

/-- The chain comes back to a method it has passed. -/
def Cyclic (get : String → Option MethodSkeleton) (key : String) : Prop :=
  ∃ m, Hops get key m ∧ Relation.TransGen (HandsOn get) m m

/-- The chain is acyclic and ends within the set, at a method with that kind of return. -/
structure EndsIn (get : String → Option MethodSkeleton) (key : String) (kind : ReturnKind) : Prop where
  acyclic : ¬Cyclic get key
  ends : ∃ m s, Hops get key m ∧ get m = some s ∧ s.ret.kind = kind

/-- The chain has no ground, or none that can be told at its start. -/
inductive Groundless (get : String → Option MethodSkeleton) (key : String) : Prop
  | cycle : Cyclic get key → Groundless get key
  | external {m : String} {s : MethodSkeleton} : Hops get key m → get m = some s → s.ret.kind = .forward →
      get s.ret.callee = none → Groundless get key
  | hopped {m : String} {s : MethodSkeleton} : Relation.TransGen (HandsOn get) key m → get m = some s → s.ret.kind = .aliasOf →
      Groundless get key
  | kind {m : String} {s : MethodSkeleton} {k : String} : Hops get key m → get m = some s → s.ret.kind = .other k →
      Groundless get key

/-- What an answer says of the chain, either way. -/
structure Exact (get : String → Option MethodSkeleton) (key : String) (answer : Returned) : Prop where
  fresh : answer = .fresh ↔ EndsIn get key .fresh
  none_ : answer = .none ↔ EndsIn get key .none
  aliased : answer = .aliased ↔ EndsIn get key .aliased
  aliasOf : ∀ i, answer = .aliasOf i ↔ ∃ s, get key = some s ∧ s.ret.kind = .aliasOf ∧ s.ret.arg = i
  unknown : answer = .unknown ↔ Groundless get key

theorem degrade_degrade (r : Returned) : degrade (degrade r) = degrade r := by cases r <;> rfl

theorem Chain.hop_of {n : Nat} {k k' : String} {r : Returned} (h : HandsOn get k k') (hc : Chain get n k' r) :
    Chain get (n + 1) k (degrade r) := by
  obtain ⟨s, hs, hk, rfl, -⟩ := h
  exact .hop hs hk hc

/-- Behind a hop the end of a chain arrives degraded. -/
theorem Chain.behind {n : Nat} {key m : String} {r : Returned} (h : Relation.TransGen (HandsOn get) key m)
    (hc : Chain get n m r) :
    ∃ n', n < n' ∧ Chain get n' key (degrade r) := by
  induction h using Relation.TransGen.head_induction_on with
  | single hstep => exact ⟨n + 1, Nat.lt_succ_self n, hc.hop_of hstep⟩
  | head hstep _ ih =>
    obtain ⟨n', hlt, hc'⟩ := ih
    have hgo := hc'.hop_of hstep
    rw [degrade_degrade] at hgo
    exact ⟨n' + 1, by omega, hgo⟩

/-- Where a chain ends: at a return that is not forwarded, or at a callee outside the set. -/
theorem Chain.ending {n : Nat} {key : String} {r : Returned} (h : Chain get n key r) :
    ∃ m s, Hops get key m ∧ get m = some s ∧
      ((s.ret.kind ≠ .forward ∧ ((m = key ∧ r = terminal s.ret) ∨
          (Relation.TransGen (HandsOn get) key m ∧ r = degrade (terminal s.ret)))) ∨
        (s.ret.kind = .forward ∧ get s.ret.callee = none ∧ r = .unknown)) := by
  induction h with
  | @stop key s hs hk => exact ⟨key, s, .refl, hs, Or.inl ⟨hk, Or.inl ⟨rfl, rfl⟩⟩⟩
  | @lost key s hs hk hnone => exact ⟨key, s, .refl, hs, Or.inr ⟨hk, hnone, rfl⟩⟩
  | @hop n key s r hs hk hc ih =>
    obtain ⟨t, ht⟩ := hc.known
    have hstep : HandsOn get key s.ret.callee := ⟨s, hs, hk, rfl, by rw [ht]; rfl⟩
    obtain ⟨m, u, hm, hu, hend⟩ := ih
    refine ⟨m, u, .head hstep hm, hu, ?_⟩
    rcases hend with ⟨hkind, hr⟩ | ⟨hkind, hnone, rfl⟩
    · refine Or.inl ⟨hkind, Or.inr ⟨Relation.TransGen.head' hstep hm, ?_⟩⟩
      rcases hr with ⟨-, rfl⟩ | ⟨-, rfl⟩
      · rfl
      · rw [degrade_degrade]
    · exact Or.inr ⟨hkind, hnone, rfl⟩

/-- A chain that ends passes no cycle. -/
theorem Chain.acyclic {n : Nat} {key : String} {r : Returned} (h : Chain get n key r) : ¬Cyclic get key := by
  intro ⟨m, hm, hcycle⟩
  -- the cycle is reached, so it would have an end of its own, and one strictly further on
  have hend : ∃ n r, Chain get n m r := by
    clear hcycle
    induction hm using Relation.ReflTransGen.head_induction_on generalizing n r with
    | refl => exact ⟨n, r, h⟩
    | head hstep _ ih =>
      obtain ⟨s, hs, hk, rfl, hsome⟩ := hstep
      cases h with
      | stop hs' hk' =>
        rw [hs] at hs'
        cases hs'
        exact absurd hk hk'
      | lost hs' _ hnone =>
        rw [hs] at hs'
        cases hs'
        rw [hnone] at hsome
        cases hsome
      | hop hs' _ hc =>
        rw [hs] at hs'
        cases hs'
        exact ih hc
  obtain ⟨n', r', hc⟩ := hend
  obtain ⟨n'', hlt, hc'⟩ := hc.behind hcycle
  have := (hc.unique hc').1
  omega

/-- In a finite set a chain without an end is cyclic. -/
theorem cyclic_of_endless {keys : List String} (hkeys : ∀ k, (get k).isSome → k ∈ keys) {key : String} (hk : (get key).isSome)
    (h : ∀ n r, ¬Chain get n key r) : Cyclic get key := by
  by_contra hno
  -- from any method the chain reaches, one hop further, for as many hops as one likes
  have hlong : ∀ n, ∃ path : List String, path.length = n + 1 ∧ path.Nodup ∧ (∀ k ∈ path, k ∈ keys) ∧
      ∃ m, path.head? = some m ∧ Hops get key m ∧ (∀ n r, ¬Chain get n m r) ∧
        ∀ k ∈ path, Hops get key k ∧ Hops get k m := by
    intro n
    induction n with
    | zero =>
      exact ⟨[key], rfl, List.nodup_singleton key, by simpa using hkeys key hk, key, rfl, .refl, h,
        fun k hk' => by rw [List.mem_singleton.mp hk']; exact ⟨.refl, .refl⟩⟩
    | succ n ih =>
      obtain ⟨path, hlen, hnd, hsub, m, -, hm, hend, hall⟩ := ih
      obtain ⟨s, hs⟩ : ∃ s, get m = some s := by
        rcases Relation.ReflTransGen.cases_tail hm with heq | ⟨_, _, _, -, -, -, hsome⟩
        · exact Option.isSome_iff_exists.mp (heq ▸ hk)
        · exact Option.isSome_iff_exists.mp hsome
      have hkind : s.ret.kind = .forward := by
        by_contra hkind
        exact hend 0 _ (.stop hs hkind)
      have hsome : (get s.ret.callee).isSome := by
        by_contra hnone
        exact hend 0 _ (.lost hs hkind (by simpa using hnone))
      have hstep : HandsOn get m s.ret.callee := ⟨s, hs, hkind, rfl, hsome⟩
      refine ⟨s.ret.callee :: path, by rw [List.length_cons, hlen], List.nodup_cons.mpr ⟨fun hmem => ?_, hnd⟩, ?_,
        s.ret.callee, rfl, hm.tail hstep, fun n r hc => hend _ _ (.hop hs hkind hc), ?_⟩
      · obtain ⟨hto, hback⟩ := hall _ hmem
        exact hno ⟨s.ret.callee, hto, Relation.TransGen.tail' hback hstep⟩
      · intro k hk'
        rcases List.mem_cons.mp hk' with rfl | hk'
        · exact hkeys _ hsome
        · exact hsub k hk'
      · intro k hk'
        rcases List.mem_cons.mp hk' with rfl | hk'
        · exact ⟨hm.tail hstep, .refl⟩
        · exact ⟨(hall k hk').1, (hall k hk').2.tail hstep⟩
  obtain ⟨path, hlen, hnd, hsub, -⟩ := hlong keys.length
  have := (List.subperm_of_subset hnd hsub).length_le
  omega

/-- What the return at the end of a chain comes to at its start. -/
theorem Ends.value {key m : String} {r : Returned} {s : MethodSkeleton} (h : Ends get key r) (hm : Hops get key m)
    (hs : get m = some s) (hk : s.ret.kind ≠ .forward) :
    (m = key ∧ r = terminal s.ret) ∨ (Relation.TransGen (HandsOn get) key m ∧ r = degrade (terminal s.ret)) := by
  have hend : Chain get 0 m (terminal s.ret) := .stop hs hk
  rcases Relation.reflTransGen_iff_eq_or_transGen.mp hm with rfl | hm
  · exact Or.inl ⟨rfl, h.unique (Or.inl ⟨0, hend⟩)⟩
  · obtain ⟨n, -, hc⟩ := hend.behind hm
    exact Or.inr ⟨hm, h.unique (Or.inl ⟨n, hc⟩)⟩

/-- Of a chain without a definite end nothing is known. -/
theorem Groundless.answer {key : String} {r : Returned} (h : Ends get key r) (hg : Groundless get key) : r = .unknown := by
  cases hg with
  | cycle hcycle =>
    rcases h with ⟨n, hc⟩ | ⟨rfl, -⟩
    · exact absurd hcycle hc.acyclic
    · rfl
  | external hm hs hk hnone =>
    have hend : Chain get 0 _ .unknown := .lost hs hk hnone
    rcases Relation.reflTransGen_iff_eq_or_transGen.mp hm with rfl | hm
    · exact h.unique (Or.inl ⟨0, hend⟩)
    · obtain ⟨n, -, hc⟩ := hend.behind hm
      exact h.unique (Or.inl ⟨n, hc⟩)
  | hopped hm hs hk =>
    obtain ⟨n, -, hc⟩ := (Chain.stop hs (by rw [hk]; simp)).behind hm
    have hr := h.unique (Or.inl ⟨n, hc⟩)
    rw [hr]
    unfold terminal
    rw [hk]
    rfl
  | kind hm hs hk =>
    rcases h.value hm hs (by rw [hk]; simp) with ⟨-, hr⟩ | ⟨-, hr⟩
    · rw [hr]
      unfold terminal
      rw [hk]
    · rw [hr]
      unfold terminal
      rw [hk]
      rfl

/-- Of a chain with a definite end that carries over a hop, that end. -/
theorem EndsIn.answer {key : String} {r answer : Returned} {kind : ReturnKind} (h : Ends get key r) (he : EndsIn get key kind)
    (hk : kind ≠ .forward) (hterm : ∀ ret : ReturnSkeleton, ret.kind = kind → terminal ret = answer)
    (hcarry : degrade answer = answer) :
    r = answer := by
  obtain ⟨-, m, s, hm, hs, hkind⟩ := he
  rcases h.value hm hs (by rw [hkind]; exact hk) with ⟨-, hr⟩ | ⟨-, hr⟩
  · rw [hr, hterm _ hkind]
  · rw [hr, hterm _ hkind, hcarry]

/-- What an answer comes of. -/
theorem Ends.cases {keys : List String} (hkeys : ∀ k, (get k).isSome → k ∈ keys) {key : String} (hk : (get key).isSome)
    {r : Returned} (h : Ends get key r) :
    (r = .fresh ∧ EndsIn get key .fresh) ∨ (r = .none ∧ EndsIn get key .none) ∨ (r = .aliased ∧ EndsIn get key .aliased) ∨
      (∃ s, get key = some s ∧ s.ret.kind = .aliasOf ∧ r = .aliasOf s.ret.arg) ∨ (r = .unknown ∧ Groundless get key) := by
  rcases h with ⟨n, hc⟩ | ⟨rfl, hno⟩
  · have hacyclic := hc.acyclic
    obtain ⟨m, s, hm, hs, ⟨hkind, hr⟩ | ⟨hkind, hnone, rfl⟩⟩ := hc.ending
    · have hin : ∀ kind, s.ret.kind = kind → EndsIn get key kind := fun kind heq => ⟨hacyclic, m, s, hm, hs, heq⟩
      have hcarry : ∀ answer, terminal s.ret = answer → degrade answer = answer → r = answer := by
        intro answer hterm hdegrade
        rcases hr with ⟨-, rfl⟩ | ⟨-, rfl⟩
        · exact hterm
        · rw [hterm, hdegrade]
      cases hret : s.ret.kind with
      | fresh => exact Or.inl ⟨hcarry .fresh (by unfold terminal; rw [hret]) rfl, hin _ hret⟩
      | none => exact Or.inr (Or.inl ⟨hcarry .none (by unfold terminal; rw [hret]) rfl, hin _ hret⟩)
      | aliased => exact Or.inr (Or.inr (Or.inl ⟨hcarry .aliased (by unfold terminal; rw [hret]) rfl, hin _ hret⟩))
      | aliasOf =>
        have hterm : terminal s.ret = .aliasOf s.ret.arg := by unfold terminal; rw [hret]
        refine Or.inr (Or.inr (Or.inr ?_))
        rcases hr with ⟨rfl, hr⟩ | ⟨hbehind, hr⟩
        · exact Or.inl ⟨s, hs, hret, by rw [hr, hterm]⟩
        · exact Or.inr ⟨by rw [hr, hterm]; rfl, .hopped hbehind hs hret⟩
      | forward => exact absurd hret hkind
      | other k =>
        exact Or.inr (Or.inr (Or.inr (Or.inr ⟨hcarry .unknown (by unfold terminal; rw [hret]) rfl, .kind hm hs hret⟩)))
    · exact Or.inr (Or.inr (Or.inr (Or.inr ⟨rfl, .external hm hs hkind hnone⟩)))
  · exact Or.inr (Or.inr (Or.inr (Or.inr ⟨rfl, .cycle (cyclic_of_endless hkeys hk hno)⟩)))

theorem Ends.exact {keys : List String} (hkeys : ∀ k, (get k).isSome → k ∈ keys) {key : String} (hk : (get key).isSome)
    {r : Returned} (h : Ends get key r) : Exact get key r := by
  have hfrom := h.cases hkeys hk
  refine ⟨⟨fun hr => ?_, fun he => ?_⟩, ⟨fun hr => ?_, fun he => ?_⟩, ⟨fun hr => ?_, fun he => ?_⟩, fun i => ⟨fun hr => ?_, ?_⟩,
    ⟨fun hr => ?_, fun hg => hg.answer h⟩⟩
  · simpa [hr] using hfrom
  · exact he.answer h (by simp) (fun ret hret => by unfold terminal; rw [hret]) rfl
  · simpa [hr] using hfrom
  · exact he.answer h (by simp) (fun ret hret => by unfold terminal; rw [hret]) rfl
  · simpa [hr] using hfrom
  · exact he.answer h (by simp) (fun ret hret => by unfold terminal; rw [hret]) rfl
  · simpa [hr, eq_comm] using hfrom
  · rintro ⟨s, hs, hkind, rfl⟩
    have hr := h.unique (Or.inl ⟨0, .stop hs (by rw [hkind]; simp)⟩)
    rw [hr]
    unfold terminal
    rw [hkind]
  · simpa [hr] using hfrom

end Hops

/-! ## The chase -/

/-- The memos that chases leave behind, from any methods in any order. -/
inductive Resolved (sk : List MethodSkeleton) : (String → Option Returned) → Prop
  | empty : Resolved sk fun _ => none
  | chase {retVal retVal' : String → Option Returned} {fuel : Nat} {start : String} : Resolved sk retVal →
      resolveReturn sk fuel retVal start = some retVal' → Resolved sk retVal'

theorem Resolved.memo {sk : List MethodSkeleton} {retVal : String → Option Returned} (h : Resolved sk retVal) :
    Memo sk retVal := by
  induction h with
  | empty => exact fun k r hr => by cases hr
  | chase _ hr ih => exact (resolveReturn_memo ih hr).1

/-- Each method has one answer, that of its chain: whatever was resolved before, the chase ends
    and gives it. -/
theorem return_exact (sk : List MethodSkeleton) (s : MethodSkeleton) (hs : s ∈ sk) :
    ∃ answer, Exact (byKey sk) s.key answer ∧ ∀ retVal, Resolved sk retVal →
      ∃ retVal', resolveReturn sk sk.length retVal s.key = some retVal' ∧ retVal' s.key = some answer := by
  have hkey : s.key ∈ keys sk := List.mem_map_of_mem hs
  have hknown : (byKey sk s.key).isSome := by
    obtain ⟨t, ht⟩ := byKey_isSome hkey
    rw [ht]
    rfl
  have hkeys : ∀ k, (byKey sk k).isSome → k ∈ keys sk := fun k hk => by
    obtain ⟨t, ht⟩ := Option.isSome_iff_exists.mp hk
    exact mem_keys_of_byKey ht
  obtain ⟨answer, hends⟩ := Ends.exists (byKey sk) s.key
  refine ⟨answer, hends.exact hkeys hknown, fun retVal hmemo => ?_⟩
  have hlen : (keys sk).length < sk.length + ([] : List String).length + 1 := by
    unfold keys
    rw [List.length_map]
    simp
  obtain ⟨retVal', hr⟩ : ∃ r, resolveReturn sk sk.length retVal s.key = some r := by
    unfold resolveReturn
    split
    · exact ⟨_, rfl⟩
    · exact chase_returns sk.length retVal [] s.key (by simp) (by simpa using hkey) (by simpa using hlen)
  obtain ⟨hmemo', v, hv⟩ := resolveReturn_memo hmemo.memo hr
  exact ⟨retVal', hr, by rw [hv, (hmemo' s.key v hv).unique hends]⟩

namespace Example

/-- A factory and its wrapper, and two methods that return what the other returns. -/
def returns : List MethodSkeleton :=
  [{ key := "Make", ret := { kind := .fresh } }, { key := "Wrap", ret := { kind := .forward, callee := "Make" } },
    { key := "Ping", ret := { kind := .forward, callee := "Pong" } },
    { key := "Pong", ret := { kind := .forward, callee := "Ping" } }]

end Example

open Example in
theorem return_exact_wrapper : ∃ answer, Exact (byKey returns) "Wrap" answer ∧ ∀ retVal, Resolved returns retVal →
    ∃ retVal', resolveReturn returns 4 retVal "Wrap" = some retVal' ∧ retVal' "Wrap" = some answer :=
  return_exact returns { key := "Wrap", ret := { kind := .forward, callee := "Make" } } (by decide)

end OwnNet.Ownership
