/-
  OwnNet.Emit.Nesting — when the scopes of a list are nested: each ends in a release of its own
  segment, and in the segments before and after it so do theirs.

  Proved: `nests_of_laminar`: lists whose scopes have names of their own, are all released later
  and never overlap in part are nested; `Nests.made`: what is hoisted from them leaves a name
  alone, but for its scope, where nothing else opens or releases it.
-/

import OwnNet.Emit.Runs

namespace OwnNet.Emit

open Lang Checks

inductive Nests : List Stmt → Prop
  | nil : Nests []
  | plain {st : Stmt} {rest : List Stmt} : opened st = none → Nests rest → Nests (st :: rest)
  | scope {st rel : Stmt} {name : String} {body tail : List Stmt} : opened st = some name → isRelease name rel = true →
      (∀ s ∈ body, isRelease name s = false) → Nests body → Nests tail → Nests (st :: (body ++ rel :: tail))

/-! ## First releases -/

section

variable {name : String} {l : List Stmt} {k : Nat}

theorem findRelease_split (h : findRelease l name = some k) :
    ∃ rel, isRelease name rel = true ∧ l = l.take k ++ rel :: l.drop (k + 1) ∧
    ∀ s ∈ l.take k, isRelease name s = false := by
  obtain ⟨hk, hrel, hbefore⟩ := List.findIdx?_eq_some_iff_getElem.mp h
  refine ⟨l[k], hrel, ?_, fun s hs => ?_⟩
  · rw [← List.drop_eq_getElem_cons hk, List.take_append_drop]
  · obtain ⟨i, hi, rfl⟩ := List.mem_iff_getElem.mp hs
    rw [List.length_take] at hi
    rw [List.getElem_take]
    exact Bool.eq_false_iff.mpr (hbefore i (by omega))

theorem findRelease_lt (h : findRelease l name = some k) : k < l.length := (List.findIdx?_eq_some_iff_getElem.mp h).1

theorem findRelease_of_split {pre tail : List Stmt} {rel : Stmt} (hrel : isRelease name rel = true)
    (hpre : ∀ s ∈ pre, isRelease name s = false) : findRelease (pre ++ rel :: tail) name = some pre.length := by
  unfold findRelease
  rw [List.findIdx?_append, List.findIdx?_eq_none_iff.mpr (fun s hs => by simp [hpre s hs])]
  simp [List.findIdx?_cons, hrel]

end

/-! ## Nested from laminar -/

/-- The scope opened at `p` ends at `k`. -/
def Ends (l : List Stmt) (p k : Nat) : Prop :=
  ∃ st name d, l[p]? = some st ∧ opened st = some name ∧ findRelease (l.drop (p + 1)) name = some d ∧ k = p + 1 + d

namespace Ends

variable {l : List Stmt} {st : Stmt} {p k d n : Nat}

theorem cons (h : Ends l p k) : Ends (st :: l) (p + 1) (k + 1) := by
  obtain ⟨s, name, d, hp, ho, hd, rfl⟩ := h
  exact ⟨s, name, d, hp, ho, hd, by omega⟩

theorem of_cons (h : Ends (st :: l) (p + 1) k) : ∃ m, k = m + 1 ∧ Ends l p m := by
  obtain ⟨s, name, d, hp, ho, hd, rfl⟩ := h
  exact ⟨p + 1 + d, by omega, s, name, d, hp, ho, hd, rfl⟩

/-- Whatever comes behind, the first release is the same. -/
theorem of_take (h : Ends (l.take d) p k) : Ends l p k := by
  obtain ⟨s, y, e, hp, hy, he, rfl⟩ := h
  have hpd := (List.getElem?_eq_some_iff.mp hp).1
  obtain ⟨r, hr, hsplit, hbefore⟩ := findRelease_split he
  have helt := findRelease_lt he
  rw [List.length_take] at hpd
  refine ⟨s, y, e, by rwa [List.getElem?_take_of_lt (by omega)] at hp, hy, ?_, rfl⟩
  have hmore : l.drop (p + 1) = (l.take d).drop (p + 1) ++ l.drop d := by
    rw [← List.drop_append_of_le_length (by rw [List.length_take]; omega), List.take_append_drop]
  have hlen : (((l.take d).drop (p + 1)).take e).length = e := by
    rw [List.length_take]
    omega
  rw [hmore, hsplit, List.append_assoc, List.cons_append, findRelease_of_split hr hbefore, hlen]

/-- So it is in front of the cut where the scope ends there. -/
theorem take (h : Ends l p k) (hk : k < d) : Ends (l.take d) p k := by
  obtain ⟨s, y, e, hp, hy, he, rfl⟩ := h
  obtain ⟨r, hr, hsplit, hbefore⟩ := findRelease_split he
  refine ⟨s, y, e, by rwa [List.getElem?_take_of_lt (by omega)], hy, ?_, rfl⟩
  have hlen : ((l.drop (p + 1)).take e).length = e := by
    have := findRelease_lt he
    rw [List.length_take]
    omega
  have hdrop : (l.take d).drop (p + 1) = (l.drop (p + 1)).take e ++ r :: ((l.drop (p + 1)).drop (e + 1)).take
      (d - (p + e + 2)) := by
    have hcount : d - (p + 1) = e + ((d - (p + e + 2)) + 1) := by omega
    rw [List.drop_take, hcount]
    conv_lhs => rw [hsplit]
    rw [List.take_append, hlen, List.take_of_length_le (by omega), Nat.add_sub_cancel_left, List.take_succ_cons]
  rw [hdrop, findRelease_of_split hr hbefore, hlen]

end Ends

theorem ends_drop {l : List Stmt} {n p k : Nat} : Ends (l.drop n) p k ↔ Ends l (n + p) (n + k) := by
  have hdrop : (l.drop n).drop (p + 1) = l.drop (n + p + 1) := by
    rw [List.drop_drop]
    congr 1
  constructor
  · rintro ⟨s, y, e, hp, hy, he, rfl⟩
    rw [List.getElem?_drop] at hp
    exact ⟨s, y, e, hp, hy, hdrop ▸ he, by omega⟩
  · rintro ⟨s, y, e, hp, hy, he, hk⟩
    exact ⟨s, y, e, by rwa [List.getElem?_drop], hy, hdrop.symm ▸ he, by omega⟩

theorem mem_intervals {l : List Stmt} {i a b : Nat} : (a, b) ∈ intervals l i ↔ ∃ p k, Ends l p k ∧ a = i + p ∧ b = i + k := by
  induction l generalizing i with
  | nil =>
    refine ⟨fun h => absurd h List.not_mem_nil, fun ⟨p, k, ⟨st, name, d, hp, _⟩, _⟩ => ?_⟩
    cases hp
  | cons st rest ih =>
    have hrest : (a, b) ∈ intervals rest (i + 1) ↔ ∃ p k, Ends (st :: rest) (p + 1) k ∧ a = i + (p + 1) ∧ b = i + k := by
      rw [ih]
      constructor
      · rintro ⟨p, k, h, rfl, rfl⟩
        exact ⟨p, k + 1, h.cons, by omega, by omega⟩
      · rintro ⟨p, k, h, rfl, rfl⟩
        obtain ⟨m, rfl, h'⟩ := h.of_cons
        exact ⟨p, m, h', by omega, by omega⟩
    have hfirst : ∀ k, Ends (st :: rest) 0 k ↔ ∃ d, (opened st).bind (findRelease rest) = some d ∧ k = 1 + d := by
      intro k
      constructor
      · rintro ⟨s, name, d, hp, ho, hd, rfl⟩
        cases hp
        exact ⟨d, by rw [ho]; exact hd, by omega⟩
      · rintro ⟨d, hd, rfl⟩
        obtain ⟨name, ho, hd⟩ := Option.bind_eq_some_iff.mp hd
        exact ⟨st, name, d, rfl, ho, hd, by omega⟩
    have hcases : (∃ p k, Ends (st :: rest) p k ∧ a = i + p ∧ b = i + k) ↔
        (∃ k, Ends (st :: rest) 0 k ∧ a = i ∧ b = i + k) ∨ ∃ p k, Ends (st :: rest) (p + 1) k ∧ a = i + (p + 1) ∧ b = i + k := by
      constructor
      · rintro ⟨p, k, h, ha, hb⟩
        cases p with
        | zero => exact Or.inl ⟨k, h, ha, hb⟩
        | succ p => exact Or.inr ⟨p, k, h, ha, hb⟩
      · rintro (⟨k, h, ha, hb⟩ | ⟨p, k, h, ha, hb⟩)
        · exact ⟨0, k, h, ha, hb⟩
        · exact ⟨p + 1, k, h, ha, hb⟩
    rw [hcases, ← hrest, intervals]
    cases hd : (opened st).bind (findRelease rest) with
    | none =>
      refine ⟨Or.inr, fun h => h.resolve_left ?_⟩
      rintro ⟨k, hk, -⟩
      obtain ⟨d, hd', -⟩ := (hfirst k).mp hk
      rw [hd] at hd'
      cases hd'
    | some d =>
      rw [List.mem_cons, Prod.mk.injEq]
      refine or_congr_left ⟨fun ⟨ha, hb⟩ => ⟨1 + d, (hfirst _).mpr ⟨d, hd, rfl⟩, ha, by omega⟩, ?_⟩
      rintro ⟨k, hk, ha, hb⟩
      obtain ⟨d', hd', rfl⟩ := (hfirst k).mp hk
      rw [hd] at hd'
      cases hd'
      exact ⟨ha, by omega⟩

/-- No scope ends inside another that began inside it. -/
def Laminar (l : List Stmt) : Prop := ∀ p k q m, Ends l p k → Ends l q m → ¬(p < q ∧ q < k ∧ k < m)

theorem laminarScopes_iff {l : List Stmt} : laminarScopes l = true ↔ Laminar l := by
  unfold laminarScopes Laminar
  simp only [List.all_eq_true, Prod.forall, mem_intervals]
  constructor
  · intro h p k q m hp hq
    have hno := h p k ⟨p, k, hp, by omega, by omega⟩ q m ⟨q, m, hq, by omega, by omega⟩
    simp only [Bool.not_eq_eq_eq_not, Bool.not_true, decide_eq_false_iff_not] at hno
    exact hno
  · rintro h a b ⟨p, k, hp, rfl, rfl⟩ c d ⟨q, m, hq, rfl, rfl⟩
    have hno := h p k q m hp hq
    simp only [Bool.not_eq_eq_eq_not, Bool.not_true, decide_eq_false_iff_not]
    omega

/-- Every scope is released later in the list. -/
def Closes (l : List Stmt) : Prop := ∀ p st name, l[p]? = some st → opened st = some name → ∃ k, Ends l p k

/-- The names of the scopes of a list. -/
def scopeNames (l : List Stmt) : List String := l.filterMap opened

/-- A scope that begins before the first release of another name ends before it, where scopes do not overlap in part. -/
theorem Laminar.within {st : Stmt} {after : List Stmt} {name : String} {d p k : Nat} (hl : Laminar (st :: after))
    (ho : opened st = some name) (hd : findRelease after name = some d) (hfresh : name ∉ scopeNames after) (hpd : p < d)
    (h : Ends after p k) : k < d := by
  obtain ⟨s, y, e, hp, hy, he, rfl⟩ := h
  by_contra hge
  have hyname : y ≠ name := by
    rintro rfl
    exact hfresh (List.mem_filterMap.mpr ⟨s, List.mem_of_getElem? hp, hy⟩)
  have hne : p + 1 + e ≠ d := by
    intro heq
    have hrelease := (List.findIdx?_eq_some_iff_getElem.mp he).2.1
    have hat := (List.findIdx?_eq_some_iff_getElem.mp hd).2.1
    have hlt := findRelease_lt hd
    simp only [List.getElem_drop, heq] at hrelease
    cases hs : after[d] <;> simp [hs, isRelease] at hrelease hat
    exact hyname (hrelease.symm.trans hat)
  refine hl 0 (1 + d) (p + 1) (p + 1 + e + 1) ⟨st, name, d, rfl, ho, hd, by omega⟩ ?_ ⟨by omega, by omega, by omega⟩
  exact Ends.cons ⟨s, y, e, hp, hy, he, rfl⟩

theorem nests_of_laminar {l : List Stmt} (hc : Closes l) (hl : Laminar l) (hn : (scopeNames l).Nodup) : Nests l := by
  induction hlen : l.length using Nat.strong_induction_on generalizing l with
  | _ n ih =>
    subst hlen
    cases l with
    | nil => exact .nil
    | cons st after =>
      have hcafter : Closes after := by
        intro p s name hp ho
        obtain ⟨k, hk⟩ := hc (p + 1) s name hp ho
        obtain ⟨m, -, hm⟩ := hk.of_cons
        exact ⟨m, hm⟩
      have hlafter : Laminar after := fun p k q m hp hq hlt =>
        hl _ _ _ _ hp.cons hq.cons ⟨by omega, by omega, by omega⟩
      cases ho : opened st with
      | none =>
        refine .plain ho (ih after.length (by simp) hcafter hlafter ?_ rfl)
        simpa [scopeNames, List.filterMap_cons, ho] using hn
      | some name =>
        simp only [scopeNames, List.filterMap_cons, ho, List.nodup_cons] at hn
        obtain ⟨hfresh, hn⟩ := hn
        obtain ⟨k, s, name', d, hp, ho', hd, rfl⟩ := hc 0 st name rfl ho
        cases hp
        rw [ho] at ho'
        cases ho'
        change findRelease after name = some d at hd
        obtain ⟨rel, hrel, hsplit, hbefore⟩ := findRelease_split hd
        have hdlt := findRelease_lt hd
        rw [hsplit]
        have hshort : (after.drop (d + 1)).length < (st :: after).length := by
          rw [List.length_drop, List.length_cons]
          omega
        refine .scope ho hrel hbefore (ih _ (by simp) ?_ ?_ ?_ rfl) (ih _ hshort ?_ ?_ ?_ rfl)
        · -- a scope of the body ends before the release that ends this one
          intro p s y hp hy
          have hpd := (List.getElem?_eq_some_iff.mp hp).1
          rw [List.length_take] at hpd
          obtain ⟨k, hk⟩ := hcafter p s y (by rwa [List.getElem?_take_of_lt (by omega)] at hp) hy
          exact ⟨k, hk.take (hl.within ho hd hfresh (by omega) hk)⟩
        · exact fun p k q m hp hq => hlafter p k q m hp.of_take hq.of_take
        · exact hn.sublist ((List.take_sublist d after).filterMap opened)
        · intro p s y hp hy
          rw [List.getElem?_drop] at hp
          obtain ⟨k, hk⟩ := hcafter (d + 1 + p) s y hp hy
          have hlt : d + 1 + p < k := by
            obtain ⟨_, _, _, _, _, _, rfl⟩ := hk
            omega
          exact ⟨k - (d + 1), ends_drop.mpr (by rwa [Nat.add_sub_cancel' (by omega)])⟩
        · intro p k q m hp hq hlt
          exact hlafter _ _ _ _ (ends_drop.mp hp) (ends_drop.mp hq) ⟨by omega, by omega, by omega⟩
        · exact hn.sublist ((List.drop_sublist (d + 1) after).filterMap opened)

/-! ## Hoisted code -/

section

variable (mod : Module) (fn : String)

theorem codeHoist_plain {st : Stmt} (h : opened st = none) (rest : List Stmt) (σ : Names) :
    codeHoist mod fn (st :: rest) σ = codeStmt mod fn st σ >>= fun s =>
      codeHoist mod fn rest s.2 >>= fun more => .ok (s.1 :: more.1, more.2) := by
  rw [codeHoist, scopeLowering_plain mod fn h]
  rfl

theorem segment_split {name : String} {body tail : List Stmt} {rel : Stmt} (hrel : isRelease name rel = true)
    (hbefore : ∀ s ∈ body, isRelease name s = false) : segment name (body ++ rel :: tail) = (body, tail) := by
  unfold segment
  rw [findRelease_of_split hrel hbefore]
  simp

theorem codeHoist_opens {st : Stmt} {name : String} {after : List Stmt} {σ σ' : Names} {code : List Code}
    (ho : opened st = some name)
    (h : codeHoist mod fn (st :: after) σ = .ok (code, σ')) : ∃ pre fin σ₁ σ₂ inner more,
      scopeLowering mod fn st σ = .ok (some (pre, fin), σ₁) ∧ codeHoist mod fn (segment name after).1 σ₁ = .ok (inner, σ₂) ∧
        codeHoist mod fn (segment name after).2 σ₂ = .ok (more, σ') ∧ code = .scope name pre fin inner :: more := by
  rw [codeHoist] at h
  obtain ⟨⟨o, σ₁⟩, hs, h⟩ := bind_ok.mp h
  have hsome : ∃ lines, o = some lines := by
    cases st with
    | let_ x rhs line =>
      cases rhs with
      | acquire rt args rline =>
        cases hs
        exact ⟨_, rfl⟩
      | buffer mode size options bline ns col dups =>
        obtain ⟨b, -, hb⟩ := bind_ok.mp hs
        cases hb
        exact ⟨_, rfl⟩
      | _ => cases ho
    | _ => cases ho
  obtain ⟨⟨pre, fin⟩, rfl⟩ := hsome
  simp only [ho, Option.getD_some] at h
  obtain ⟨inner, hinner, h⟩ := bind_ok.mp h
  obtain ⟨more, hmore, h⟩ := bind_ok.mp h
  cases h
  exact ⟨pre, fin, σ₁, inner.2, inner.1, more.1, hs, hinner, hmore, rfl⟩

theorem codeHoist_scope {st rel : Stmt} {name : String} {body tail : List Stmt} {σ σ' : Names} {code : List Code}
    (ho : opened st = some name) (hrel : isRelease name rel = true) (hbefore : ∀ s ∈ body, isRelease name s = false)
    (h : codeHoist mod fn (st :: (body ++ rel :: tail)) σ = .ok (code, σ')) : ∃ pre fin σ₁ σ₂ inner more,
      scopeLowering mod fn st σ = .ok (some (pre, fin), σ₁) ∧ codeHoist mod fn body σ₁ = .ok (inner, σ₂) ∧
        codeHoist mod fn tail σ₂ = .ok (more, σ') ∧ code = .scope name pre fin inner :: more := by
  have hopens := codeHoist_opens mod fn ho h
  rwa [segment_split hrel hbefore] at hopens

theorem not_buffer {st : Stmt} (h : opened st = none) : isBuffer st = false := by
  cases st with
  | let_ x rhs line =>
    cases rhs with
    | buffer => cases h
    | _ => rfl
  | _ => rfl

theorem scopeNames_scope {st rel : Stmt} {name : String} {body tail : List Stmt} (ho : opened st = some name)
    (hrel : isRelease name rel = true) :
    scopeNames (st :: (body ++ rel :: tail)) = name :: (scopeNames body ++ scopeNames tail) := by
  have hrelno : opened rel = none := by
    cases rel with
    | release => rfl
    | _ => cases hrel
  simp [scopeNames, ho, hrelno]

/-- A scope has its release in the same list. -/
theorem Nests.released {l : List Stmt} (h : Nests l) {n : String} (hn : n ∈ scopeNames l) : ∃ s ∈ l, isRelease n s = true := by
  induction h with
  | nil => cases hn
  | @plain st rest ho _ ih =>
    simp only [scopeNames, List.filterMap_cons, ho] at hn
    obtain ⟨s, hs, hr⟩ := ih hn
    exact ⟨s, List.mem_cons_of_mem _ hs, hr⟩
  | @scope st rel name body tail ho hrel _ _ _ ihb iht =>
    have hmem : rel ∈ st :: (body ++ rel :: tail) := by simp
    rw [scopeNames_scope ho hrel, List.mem_cons, List.mem_append] at hn
    rcases hn with rfl | hn | hn
    · exact ⟨rel, hmem, hrel⟩
    · obtain ⟨s, hs, hr⟩ := ihb hn
      exact ⟨s, by simp [hs], hr⟩
    · obtain ⟨s, hs, hr⟩ := iht hn
      exact ⟨s, by simp [hs], hr⟩

/-- How often a name is released, at any depth. -/
def releases (l : List Stmt) (n : String) : Nat := (iterStmts l).countP (isRelease n)

theorem iterStmts_append (l l' : List Stmt) : iterStmts (l ++ l') = iterStmts l ++ iterStmts l' := by
  induction l with
  | nil => rfl
  | cons st rest ih => rw [List.cons_append, iterStmts, iterStmts, ih, List.append_assoc]

theorem releases_append (l l' : List Stmt) (n : String) : releases (l ++ l') n = releases l n + releases l' n := by
  unfold releases
  rw [iterStmts_append, List.countP_append]

theorem releases_pos {l : List Stmt} {n : String} : 0 < releases l n ↔ ∃ s ∈ iterStmts l, isRelease n s = true :=
  List.countP_pos_iff

theorem mem_iterStmt_self (st : Stmt) : st ∈ iterStmt st := by
  cases st <;> exact List.mem_cons_self

theorem releases_of_mem {l : List Stmt} {n : String} {s : Stmt} (hs : s ∈ l) (hr : isRelease n s = true) : 0 < releases l n :=
  releases_pos.mpr ⟨s, mem_iterStmts.mpr ⟨s, hs, mem_iterStmt_self s⟩, hr⟩

/-- The names are released once at most, and then opened in the list itself. -/
def Once (N : String → Bool) (l : List Stmt) : Prop :=
  ∀ n, N n = true → releases l n ≤ 1 ∧ (0 < releases l n → n ∈ scopeNames l)

/-- Only the list itself opens the names. -/
def OpenedHere (N : String → Bool) (l : List Stmt) : Prop :=
  ∀ st ∈ l, opened st = none → ∀ s ∈ iterStmt st, ∀ n, opened s = some n → N n = false

theorem Nests.made {l : List Stmt} (h : Nests l) {N : String → Bool} (hone : Once N l) (hhere : OpenedHere N l) {σ σ' : Names}
    {code : List Code} (hcode : codeHoist mod fn l σ = .ok (code, σ')) : MadeSeq (Aside N) True code := by
  induction h generalizing σ code σ' with
  | nil =>
    rw [codeHoist] at hcode
    cases hcode
    trivial
  | @plain st rest ho hrest ih =>
    rw [codeHoist_plain mod fn ho] at hcode
    obtain ⟨c, hc, hcode⟩ := bind_ok.mp hcode
    obtain ⟨more, hmore, hcode⟩ := bind_ok.mp hcode
    cases hcode
    have hcount : ∀ n, releases (st :: rest) n = releases [st] n + releases rest n := fun n => releases_append [st] rest n
    have hscopes : scopeNames (st :: rest) = scopeNames rest := by simp [scopeNames, ho]
    -- a release in `st` of one of the names would be its second
    have hnone : ∀ n, N n = true → releases [st] n = 0 := by
      intro n hn
      by_contra hpos
      obtain ⟨hle, hmem⟩ := hone n hn
      rw [hcount] at hle hmem
      rw [hscopes] at hmem
      obtain ⟨s, hs, hr⟩ := hrest.released (hmem (by omega))
      have hthere := releases_of_mem hs hr
      omega
    have hfree : ∀ s ∈ iterStmt st, Free N s := by
      intro s hs
      refine ⟨fun n hn => hhere st List.mem_cons_self ho s hs n hn, fun n hr => ?_⟩
      by_contra hN
      have hpos : 0 < releases [st] n := releases_pos.mpr ⟨s, mem_iterStmts.mpr ⟨st, List.mem_singleton_self st, hs⟩, hr⟩
      rw [hnone n (by simpa using hN)] at hpos
      exact Nat.lt_irrefl 0 hpos
    refine ⟨codeStmt_made mod fn st σ (fun s hs => (hfree s hs).makes) (not_buffer ho) hc, ih (fun n hn => ?_) ?_ hmore⟩
    · obtain ⟨hle, hmem⟩ := hone n hn
      rw [hcount, hnone n hn, Nat.zero_add, hscopes] at hmem
      rw [hcount] at hle
      exact ⟨by omega, hmem⟩
    · exact fun s hs => hhere s (List.mem_cons_of_mem _ hs)
  | @scope st rel name body tail ho hrel hbefore hb ht ihb iht =>
    obtain ⟨pre, fin, σ₁, σ₂, inner, after, -, hinner, hafter, rfl⟩ := codeHoist_scope mod fn ho hrel hbefore hcode
    have hscopes : scopeNames (st :: (body ++ rel :: tail)) = name :: (scopeNames body ++ scopeNames tail) :=
      scopeNames_scope ho hrel
    have hcount : ∀ n, releases (st :: (body ++ rel :: tail)) n =
        releases [st] n + (releases body n + (releases [rel] n + releases tail n)) := by
      intro n
      have h₁ := releases_append [st] (body ++ rel :: tail) n
      have h₂ := releases_append body (rel :: tail) n
      have h₃ := releases_append [rel] tail n
      rw [List.singleton_append] at h₁ h₃
      omega
    have hname : 0 < releases [rel] name := releases_of_mem (List.mem_singleton_self rel) hrel
    -- a name released in one part is opened there: its release in the other would be a second
    have hpart : ∀ {part other : List Stmt}, Nests other → (∀ n, releases [rel] n + releases part n + releases other n ≤
        releases (st :: (body ++ rel :: tail)) n) → (∀ n ∈ scopeNames (st :: (body ++ rel :: tail)),
          n = name ∨ n ∈ scopeNames part ∨ n ∈ scopeNames other) → Once N part := by
      intro part other hother hsum hmem n hn
      obtain ⟨hle, hin⟩ := hone n hn
      have hs := hsum n
      refine ⟨by omega, fun hpos => ?_⟩
      rcases hmem n (hin (by omega)) with rfl | hm | hm
      · omega
      · exact hm
      · obtain ⟨s, hsmem, hr⟩ := hother.released hm
        have := releases_of_mem hsmem hr
        omega
    refine ⟨ihb ?_ ?_ hinner, iht ?_ ?_ hafter⟩
    · refine hpart ht (fun n => by rw [hcount]; omega) fun n hn => ?_
      rw [hscopes] at hn
      simpa using hn
    · exact fun s hs => hhere s (by simp [hs])
    · refine hpart hb (fun n => by rw [hcount]; omega) fun n hn => ?_
      rw [hscopes] at hn
      simp only [List.mem_cons, List.mem_append] at hn
      tauto
    · exact fun s hs => hhere s (by simp [hs])

end

end OwnNet.Emit
