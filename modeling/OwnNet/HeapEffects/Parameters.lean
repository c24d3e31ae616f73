/-
  OwnNet.HeapEffects.Parameters — writes through what a parameter, or the receiver, gave
  access to, and the effect its summary gives that parameter.

  `Obtained` follows one object in through a parameter, through locals, into callees and back
  out of them; a call nothing summarizes, and a callee with an unmodelled construct, may hand
  back anything it was passed. `WritesThrough` is that some method entered on the way may write
  through it, or may let somebody write who is not described.

  A callee's returned roots are listed, or are Unknown as a whole. An object that comes back
  out of a callee of the second kind is an Unknown root to the caller, whatever was passed: a
  write through it is an Unknown write, and the parameter's effect does not show it.

  Proved:
  - `Obtained.holds`: what is obtained at a parameter may be, in the value flow, any object the
    parameter gives access to.
  - `writesThrough_shown`: followed through callees whose returned roots are listed, a write is at
    least the parameter's borrow_mut; followed through all of them, it is that or an Unknown write.
-/

import OwnNet.HeapEffects.Harmless

namespace OwnNet.HeapEffects

/-! ## Where an object comes in -/

inductive Entry where
  | param (i : Nat)
  | receiver

def Entry.root : Entry → Root
  | param i => .param i
  | receiver => .receiver

/-- A reference comes in there. -/
def Entry.Carries (m : Method Tok) : Entry → Prop
  | param i => m.inert i = false
  | receiver => m.receiver = true

/-- What a call passes there. -/
def Call.given (c : Call Tok) : Entry → List Tok
  | .param j => c.arg j
  | .receiver => c.receiver.getD []

def Summary.effectOn (s : Summary) : Entry → Effect
  | .param i => (s.params[i]?).getD .plain
  | .receiver => s.receiver.getD .plain

section Trace

variable (ms : List (Method Tok)) (followed : Call Tok → Prop)

/-- The token may be an object the method was given at the entry. Of the callees that list what
    they return, only those of `followed` calls are looked into. -/
inductive Obtained : Method Tok → Entry → Tok → Prop
  | param {m i} : m.inert i = false → Obtained m (.param i) (.param i)
  | receiver {m} : m.receiver = true → Obtained m .receiver .receiver
  | loc {m e i ts t} : m.locals[i]? = some ts → t ∈ ts → Obtained m e t → Obtained m e (.loc i)
  /-- The callee hands back what it was given at `e'`. -/
  | back {m e k c m' e' t u} : m.calls[k]? = some c → calleeUnknown ms c = false → byKey ms c.callee = some m' →
      followed c → m'.returnInert = false → t ∈ m'.returns → Obtained m' e' t → u ∈ c.given e' → Obtained m e u →
      Obtained m e (.call k)
  | unresolved {m e k c e' u} : m.calls[k]? = some c → calleeUnknown ms c = true → u ∈ c.given e' → Obtained m e u →
      Obtained m e (.call k)
  | unmodelled {m e k c m' e' u} : m.calls[k]? = some c → calleeUnknown ms c = false → byKey ms c.callee = some m' →
      m'.unknown ≠ [] → m'.returnInert = false → e'.Carries m' → u ∈ c.given e' → Obtained m e u → Obtained m e (.call k)

/-- A run of the method may write through an object it was given at the entry. What is stored,
    and what something undescribed gets, anybody may write. -/
inductive WritesThrough : Method Tok → Entry → Prop
  | write {m e w t} : w ∈ m.writes → w.1 ≠ .static → t ∈ w.2 → Obtained ms followed m e t → WritesThrough m e
  | stored {m e t} : t ∈ m.stores → Obtained ms followed m e t → WritesThrough m e
  | unmodelled {m e} : m.unknown ≠ [] → e.Carries m → WritesThrough m e
  | unresolved {m e c e' u} : c ∈ m.calls → calleeUnknown ms c = true → u ∈ c.given e' → Obtained ms followed m e u →
      WritesThrough m e
  | nested {m e c m' e' u} : c ∈ m.calls → calleeUnknown ms c = false → byKey ms c.callee = some m' → WritesThrough m' e' →
      u ∈ c.given e' → Obtained ms followed m e u → WritesThrough m e

end Trace

theorem passed_root {c : Call Tok} {e : Entry} {u : Tok} (hu : u ∈ c.given e) : u ∈ passed c e.root := by
  cases e with
  | param j => exact hu
  | receiver =>
    show u ∈ c.receiver.getD [.heap]
    cases hcr : c.receiver with
    | none => simp [Call.given, hcr] at hu
    | some ts => simpa [Call.given, hcr] using hu

/-- The callee lists the roots of what it returns. -/
def Listed (S : Solved) (c : Call Tok) : Prop := .unknown ∉ (S c.callee).returns

/-! ## In the value flow -/

section Flow

variable {Obj : Type} {ms : List (Method Tok)} {followed : Call Tok → Prop} {fresh : Set Obj}

def Frame.given (fr : Frame Obj) : Entry → Set Obj
  | .param i => fr.args i
  | .receiver => fr.recv

/-- A frame of `m` that was given one object, at one entry. -/
def Frame.only (m : Method Tok) (e : Entry) (o : Obj) (he : e.Carries m) : Frame Obj where
  method := m
  args i := {p | p = o ∧ e = .param i}
  recv := {p | p = o ∧ e = .receiver}
  inert i hi := by
    refine Set.eq_empty_of_forall_notMem fun p ⟨_, h⟩ => ?_
    subst h
    exact absurd hi (by simp [show m.inert i = false from he])
  static hr := by
    refine Set.eq_empty_of_forall_notMem fun p ⟨_, h⟩ => ?_
    subst h
    exact absurd hr (by simp [show m.receiver = true from he])

theorem Obtained.carries {m : Method Tok} {e : Entry} {t : Tok} (h : Obtained ms followed m e t) : e.Carries m := by
  induction h with
  | param hi => exact hi
  | receiver hr => exact hr
  | loc _ _ _ ih => exact ih
  | back _ _ _ _ _ _ _ _ _ _ ih => exact ih
  | unresolved _ _ _ _ ih => exact ih
  | unmodelled _ _ _ _ _ _ _ _ ih => exact ih

theorem Entry.Carries.root {m : Method Tok} {e : Entry} (h : e.Carries m) (i : Nat) (hroot : e.root = .param i) :
    m.inert i = false := by
  cases e with
  | param j =>
    cases hroot
    exact h
  | receiver => cases hroot

/-- What is obtained at an entry may be any object that was given there. -/
theorem Obtained.holds {m : Method Tok} {e : Entry} {t : Tok} (h : Obtained ms followed m e t) :
    ∀ fr : Frame Obj, fr.method = m → ∀ o ∈ fr.given e, Holds ms fresh fr t o := by
  induction h with
  | param _ => exact fun fr _ o ho => .param ho
  | receiver _ => exact fun fr _ o ho => .receiver ho
  | loc hl ht _ ih =>
    rintro fr rfl o ho
    exact .loc hl ht (ih fr rfl o ho)
  | @back m e k c m' e' t u hc hk hm' _ hi ht hret hu _ ihret ih =>
    rintro fr rfl o ho
    have hou := ih fr rfl o ho
    refine .call (Frame.only m' e' o hret.carries) (fun _ _ => u) (fun _ => u) hc hk hm' ?_ ?_ ?_ ?_ ?_ hi ht ?_
    · intro j p hp
      obtain ⟨-, rfl⟩ := hp
      exact hu
    · intro j p hp
      obtain ⟨rfl, -⟩ := hp
      exact hou
    · intro ts hts p hp
      obtain ⟨-, rfl⟩ := hp
      simpa [Call.given, hts] using hu
    · intro ts _ p hp
      obtain ⟨rfl, -⟩ := hp
      exact hou
    · intro hnone p hp
      obtain ⟨-, rfl⟩ := hp
      simp [Call.given, hnone] at hu
    · refine ihret _ rfl o ?_
      cases e' with
      | param j => exact ⟨rfl, rfl⟩
      | receiver => exact ⟨rfl, rfl⟩
  | unresolved hc hk _ _ _ =>
    rintro fr rfl o _
    exact .unresolved hc hk
  | unmodelled hc hk hm' hn hi _ _ _ _ =>
    rintro fr rfl o _
    exact .unmodelled hc hk hm' hn hi

end Flow

/-! ## What the summaries show -/

section Shown

variable {ms : List (Method Tok)} {followed : Call Tok → Prop} {S : Solved}

/-- Some callee that is looked into does not list what it returns, and some write is Unknown. -/
def Lost (S : Solved) (followed : Call Tok → Prop) (m : Method Tok) : Prop :=
  (∃ c, followed c ∧ ¬Listed S c) ∧ ∃ k, (S m.key).writes k = .unknown

/-- The summaries show where a token came in: by its roots, or as an Unknown entry; or its trace is
    lost. -/
def Shown (ms : List (Method Tok)) (S : Solved) (followed : Call Tok → Prop) (m : Method Tok) (e : Entry) (t : Tok) : Prop :=
  e.root ∈ roots m ms S [t] ∨ (S m.key).effectOn e = .unknown ∨ Lost S followed m ∨
    (∃ c, followed c ∧ ¬Listed S c) ∧ .unknown ∈ roots m ms S [t]

theorem Shown.source {m : Method Tok} {e : Entry} {t u : Tok} (hu : u ∈ sources m ms S t) (h : Shown ms S followed m e u) :
    Shown ms S followed m e t := by
  rcases h with h | h | h | ⟨hc, h⟩
  · exact Or.inl (roots_source hu h)
  · exact Or.inr (Or.inl h)
  · exact Or.inr (Or.inr (Or.inl h))
  · exact Or.inr (Or.inr (Or.inr ⟨hc, roots_source hu h⟩))

theorem effectOn_unmodelled (hS : Fixed ms S) {m : Method Tok} (hm : byKey ms m.key = some m) (hu : m.unknown ≠ []) {e : Entry}
    (he : e.Carries m) : (S m.key).effectOn e = .unknown := by
  rw [hS _ _ hm]
  cases e with
  | receiver => simp [evaluate, hu, opaqueSummary, Summary.effectOn, show m.receiver = true from he]
  | param i =>
    have hi : m.inert i = false := he
    unfold Method.inert at hi
    cases hp : m.params[i]? with
    | none => simp [hp] at hi
    | some p =>
      have hp2 : p.2 = false := by simpa [hp] using hi
      simp [evaluate, hu, opaqueSummary, Summary.effectOn, hp, hp2]

theorem effectOn_gather (hS : Fixed ms S) {m : Method Tok} (hm : byKey ms m.key = some m) (hu : m.unknown = []) {e : Entry}
    (he : e.Carries m) {f : Effect} {kind : WriteKind} (hc : Covers m (gather m ms S) f kind e.root) :
    f ≤ (S m.key).effectOn e := by
  rw [hS _ _ hm]
  cases e with
  | receiver =>
    have hr : f ≤ (gather m ms S).receiver := hc
    simpa [evaluate, hu, Summary.effectOn, show m.receiver = true from he] using hr
  | param i =>
    have hi : m.inert i = false := he
    have hlt : i < m.params.length := by
      by_contra hge
      simp [Method.inert, List.getElem?_eq_none (Nat.le_of_not_lt hge)] at hi
    simpa [evaluate, hu, Summary.effectOn, hlt] using hc hi

/-- An effect that writes, laid on a value whose entry is shown, shows there. -/
theorem Shown.effect (hS : Fixed ms S) {m : Method Tok} (hm : byKey ms m.key = some m) (hu : m.unknown = []) {e : Entry}
    (he : e.Carries m) {t : Tok} (h : Shown ms S followed m e t) {f : Effect} (hf : .borrowMut ≤ f) {kind : WriteKind}
    {tokens : List Tok} (ht : t ∈ tokens) (hc : CoversAll m ms S (gather m ms S) tokens f kind) :
    f ≤ (S m.key).effectOn e ∨ Lost S followed m := by
  rcases h with h | h | h | ⟨hlost, h⟩
  · exact Or.inl (effectOn_gather hS hm hu he (hc _ (roots_mem ht h)))
  · rw [h]
    exact Or.inl (Effect.le_unknown f)
  · exact Or.inr h
  · refine Or.inr ⟨hlost, kind, ?_⟩
    rw [hS _ _ hm]
    simpa [evaluate, hu] using hc _ (roots_mem ht h) hf

/-- What a callee does to what it is given, its caller does to what it passes. -/
theorem Shown.passed (hS : Fixed ms S) {m m' : Method Tok} (hm : byKey ms m.key = some m) {c : Call Tok} (hin : c ∈ m.calls)
    (hk : calleeUnknown ms c = false) (hm' : byKey ms c.callee = some m') {e e' : Entry} (he : e.Carries m) {u : Tok}
    (hu : u ∈ c.given e') (h : Shown ms S followed m e u) {f : Effect} (hf : .borrowMut ≤ f) (hle : f ≤ (S m'.key).effectOn e') :
    f ≤ (S m.key).effectOn e ∨ Lost S followed m := by
  by_cases hn : m.unknown = []
  · have hcov := (@gather_covers m ms S).calls c hin
    unfold CoversCall at hcov
    rw [hk, if_neg Bool.false_ne_true] at hcov
    rw [(byKey_some hm').2] at hle
    have hplain : ¬f ≤ .plain := fun hp => absurd (hf.trans hp) (by decide)
    cases e' with
    | param j =>
      cases hj : (S c.callee).params[j]? with
      | none =>
        rw [Summary.effectOn, hj] at hle
        exact absurd hle hplain
      | some g =>
        rw [Summary.effectOn, hj] at hle
        exact (h.effect hS hm hn he (hf.trans hle) hu (hcov.args j g hj)).imp_left (hle.trans ·)
    | receiver =>
      cases hr : (S c.callee).receiver with
      | none =>
        rw [Summary.effectOn, hr] at hle
        exact absurd hle hplain
      | some g =>
        rw [Summary.effectOn, hr] at hle
        cases hcr : c.receiver with
        | none => simp [Call.given, hcr] at hu
        | some ts =>
          have hu' : u ∈ ts := by simpa [Call.given, hcr] using hu
          exact (h.effect hS hm hn he (hf.trans hle) hu' (hcov.receiver g ts hr hcr)).imp_left (hle.trans ·)
  · rw [effectOn_unmodelled hS hm hn he]
    exact Or.inl (Effect.le_unknown f)

theorem Lost.up (hS : Fixed ms S) {m m' : Method Tok} (hm : byKey ms m.key = some m) {c : Call Tok} (hin : c ∈ m.calls)
    (hk : calleeUnknown ms c = false) (hm' : byKey ms c.callee = some m') (h : Lost S followed m') : Lost S followed m := by
  obtain ⟨hlost, k, hw⟩ := h
  refine ⟨hlost, k, ?_⟩
  rw [hS _ _ hm]
  by_cases hn : m.unknown = []
  · have hcov := (@gather_covers m ms S).calls c hin
    unfold CoversCall at hcov
    rw [hk, if_neg Bool.false_ne_true] at hcov
    have hle := hcov.writes k
    rw [← (byKey_some hm').2, hw] at hle
    simpa [evaluate, hn] using le_antisymm (Level.le_unknown _) hle
  · simp [evaluate, hn, opaqueSummary]

/-- A call nothing summarizes leaves what it is passed Unknown. -/
theorem Shown.unresolved (hS : Fixed ms S) {m : Method Tok} (hm : byKey ms m.key = some m) {c : Call Tok} (hin : c ∈ m.calls)
    (hk : calleeUnknown ms c = true) {e e' : Entry} (he : e.Carries m) {u : Tok} (hu : u ∈ c.given e')
    (h : Shown ms S followed m e u) : (S m.key).effectOn e = .unknown ∨ Lost S followed m := by
  by_cases hn : m.unknown = []
  · have hcov := (@gather_covers m ms S).calls c hin
    unfold CoversCall at hcov
    rw [if_pos hk] at hcov
    have heff : .unknown ≤ (S m.key).effectOn e ∨ Lost S followed m := by
      cases e' with
      | param j =>
        cases hj : c.args[j]? with
        | none => simp [Call.given, Call.arg, hj] at hu
        | some arg =>
          have hu' : u ∈ arg := by simpa [Call.given, Call.arg, hj] using hu
          exact h.effect hS hm hn he (by decide) hu' (hcov.args arg (List.mem_of_getElem? hj))
      | receiver =>
        cases hcr : c.receiver with
        | none => simp [Call.given, hcr] at hu
        | some ts =>
          have hu' : u ∈ ts := by simpa [Call.given, hcr] using hu
          exact h.effect hS hm hn he (by decide) hu' (hcov.receiver ts hcr)
    exact heff.imp_left fun hle => le_antisymm (Effect.le_unknown _) hle
  · exact Or.inl (effectOn_unmodelled hS hm hn he)

theorem Obtained.shown (hS : Fixed ms S) {m : Method Tok} {e : Entry} {t : Tok} (h : Obtained ms followed m e t)
    (hm : byKey ms m.key = some m) : Shown ms S followed m e t := by
  induction h with
  | param _ => exact Or.inl (roots_found (List.mem_singleton_self _))
  | receiver _ => exact Or.inl (roots_found (List.mem_singleton_self _))
  | loc hl ht _ ih => exact (ih hm).source (by simpa [sources, hl] using ht)
  | @back m e k c m' e' t u hc hk hm' hfol hi ht hret hu hob ihret ih =>
    have hkey := (byKey_some hm').2
    have hm'' : byKey ms m'.key = some m' := by rw [hkey]; exact hm'
    have hcall : c ∈ m.calls := List.mem_of_getElem? hc
    -- an Unknown return is an Unknown root of the call
    have hunknown : .unknown ∈ (S c.callee).returns → Shown ms S followed m e (.call k) := fun hun =>
      Or.inr (Or.inr (Or.inr ⟨⟨c, hfol, not_not.mpr hun⟩, known_callee hc hk hun (Or.inr rfl)⟩))
    rcases ihret hm'' with h | h | h | ⟨-, h⟩
    · rcases returns_listed hS hm' hi ht h (hret.carries.root) with hun | hr
      · exact hunknown hun
      · refine (ih hm).source ?_
        rw [sources_call hc, hk, if_neg Bool.false_ne_true]
        exact List.mem_flatMap.mpr ⟨e'.root, hr, passed_root hu⟩
    · rcases (ih hm).passed hS hm hcall hk hm' hob.carries hu (f := .unknown) (by decide) h.ge with hle | hlost
      · exact Or.inr (Or.inl (le_antisymm (Effect.le_unknown _) hle))
      · exact Or.inr (Or.inr (Or.inl hlost))
    · exact Or.inr (Or.inr (Or.inl (h.up hS hm hcall hk hm')))
    · refine hunknown ?_
      rcases returns_listed hS hm' hi ht h (fun i hroot => by cases hroot) with hun | hun
      · exact hun
      · exact hun
  | @unresolved m e k c e' u hc hk hu hob ih =>
    rcases (ih hm).unresolved hS hm (List.mem_of_getElem? hc) hk hob.carries hu with h | h
    · exact Or.inr (Or.inl h)
    · exact Or.inr (Or.inr (Or.inl h))
  | @unmodelled m e k c m' e' u hc hk hm' hn _ hcarries hu hob ih =>
    have hm'' : byKey ms m'.key = some m' := by rw [(byKey_some hm').2]; exact hm'
    have heff := effectOn_unmodelled hS hm'' hn hcarries
    rcases (ih hm).passed hS hm (List.mem_of_getElem? hc) hk hm' hob.carries hu (f := .unknown) (by decide) heff.ge with h | h
    · exact Or.inr (Or.inl (le_antisymm (Effect.le_unknown _) h))
    · exact Or.inr (Or.inr (Or.inl h))

theorem WritesThrough.carries {m : Method Tok} {e : Entry} (h : WritesThrough ms followed m e) : e.Carries m := by
  cases h with
  | write _ _ _ hob => exact hob.carries
  | stored _ hob => exact hob.carries
  | unmodelled _ he => exact he
  | unresolved _ _ _ hob => exact hob.carries
  | nested _ _ _ _ _ hob => exact hob.carries

theorem WritesThrough.shown (hS : Fixed ms S) {m : Method Tok} {e : Entry} (h : WritesThrough ms followed m e)
    (hm : byKey ms m.key = some m) : .borrowMut ≤ (S m.key).effectOn e ∨ Lost S followed m := by
  induction h with
  | @write m e w t hw hk ht hob =>
    by_cases hu : m.unknown = []
    · have hcov := (@gather_covers m ms S).writes w hw
      obtain ⟨kind, target⟩ := w
      cases kind with
      | static => exact absurd rfl hk
      | inst => exact (hob.shown hS hm).effect hS hm hu hob.carries le_rfl ht hcov
      | indirect => exact (hob.shown hS hm).effect hS hm hu hob.carries le_rfl ht hcov
    · rw [effectOn_unmodelled hS hm hu hob.carries]
      exact Or.inl (by decide)
  | @stored m e t ht hob =>
    by_cases hu : m.unknown = []
    · exact ((hob.shown hS hm).effect hS hm hu hob.carries (by decide) ht gather_covers.stores).imp_left
        (le_trans (by decide : Effect.borrowMut ≤ .mayEscape) ·)
    · rw [effectOn_unmodelled hS hm hu hob.carries]
      exact Or.inl (by decide)
  | @unmodelled m e hu he =>
    rw [effectOn_unmodelled hS hm hu he]
    exact Or.inl (by decide)
  | @unresolved m e c e' u hc hk hu hob =>
    refine ((hob.shown hS hm).unresolved hS hm hc hk hob.carries hu).imp_left fun heff => ?_
    rw [heff]
    decide
  | @nested m e c m' e' u hc hk hm' _ hu hob ih =>
    have hm'' : byKey ms m'.key = some m' := by rw [(byKey_some hm').2]; exact hm'
    rcases ih hm'' with hle | hlost
    · exact (hob.shown hS hm).passed hS hm hc hk hm' hob.carries hu le_rfl hle
    · exact Or.inr (hlost.up hS hm hc hk hm')

/-- A write through what a parameter gave shows as its borrow_mut where every callee it was
    followed out of lists what it returns, and as that or as an Unknown write elsewhere. -/
theorem writesThrough_shown {doc : Json} {ms : List (Method Tok)} {fuel : Nat} {S : Solved} (hl : load doc = .ok ms)
    (hs : solve fuel ms = some S) {m : Method Tok} (hm : m ∈ ms) (i : Nat) :
    (WritesThrough ms (Listed S) m (.param i) → ∃ f, (S m.key).params[i]? = some f ∧ .borrowMut ≤ f) ∧
    (WritesThrough ms (fun _ => True) m (.param i) →
      (∃ f, (S m.key).params[i]? = some f ∧ .borrowMut ≤ f) ∨ ∃ k, (S m.key).writes k = .unknown) := by
  have hS : Fixed ms S := fun k m hm => solve_fixpoint hs hm
  have hkey : byKey ms m.key = some m := byKey_key (load_accepted hl).nodup hm
  have hshown : .borrowMut ≤ (S m.key).effectOn (.param i) → ∃ f, (S m.key).params[i]? = some f ∧ .borrowMut ≤ f := by
    intro h
    change .borrowMut ≤ ((S m.key).params[i]?).getD .plain at h
    cases hp : (S m.key).params[i]? with
    | none =>
      rw [hp] at h
      exact absurd h (by decide)
    | some f =>
      rw [hp] at h
      exact ⟨f, rfl, h⟩
  constructor
  · intro h
    rcases h.shown hS hkey with hle | ⟨⟨c, hc, hno⟩, -⟩
    · exact hshown hle
    · exact absurd hc hno
  · intro h
    rcases h.shown hS hkey with hle | ⟨-, hw⟩
    · exact Or.inl (hshown hle)
    · exact Or.inr hw

end Shown

namespace Example

/-- `pick(x)` returns `x`, or what an outside call returns where `other` says so; `put(x)` writes
    a field of what `pick(x)` returns. -/
def putThrough (other : Bool) : Json :=
  document [
    method "pick" [] (if other then ["param:0", "call:0"] else ["param:0"]) (if other then [call 0 "lib" "extern" []] else []),
    method "put" [.obj [("kind", .str "instance"), ("target", strings ["call:0"])]] [] [call 0 "pick" "direct" [["param:0"]]]]

def pick (other : Bool) : Method Tok :=
  ⟨"pick", "F.cs", 1, false, false, [("x", false)], [], [], [], [], if other then [.param 0, .call 0] else [.param 0],
    if other then [⟨"lib", .extern_, none, []⟩] else [], []⟩

def put : Method Tok :=
  ⟨"put", "F.cs", 1, false, false, [("x", false)], [], [], [(.inst, [.call 0])], [], [],
    [⟨"pick", .direct, none, [[.param 0]]⟩], []⟩

theorem load_putThrough (other : Bool) : load (putThrough other) = .ok [pick other, put] := by
  cases other <;> decide

/-- `put` writes through its parameter. -/
theorem put_writes {other : Bool} {followed : Call Tok → Prop} (h : followed ⟨"pick", .direct, none, [[.param 0]]⟩) :
    WritesThrough [pick other, put] followed put (.param 0) := by
  have hpassed : Obtained [pick other, put] followed put (.param 0) (.param 0) := .param rfl
  have hpicked : Obtained [pick other, put] followed (pick other) (.param 0) (.param 0) := .param rfl
  have hback : Obtained [pick other, put] followed put (.param 0) (.call 0) := by
    cases other with
    | false => exact .back rfl rfl rfl h rfl (List.mem_singleton_self _) hpicked (List.mem_singleton_self _) hpassed
    | true => exact .back rfl rfl rfl h rfl List.mem_cons_self hpicked (List.mem_singleton_self _) hpassed
  exact .write (List.mem_singleton_self _) (by decide) (List.mem_singleton_self _) hback

end Example

open Example in
theorem writesThrough_shown_put : ∃ S, solve 10 [pick false, put] = some S ∧
    (∃ f, (S "put").params[0]? = some f ∧ .borrowMut ≤ f) := by
  refine ⟨(steps [pick false, put] 10).solved, if_pos (by decide), ?_⟩
  have hlisted : .unknown ∉ ((steps [pick false, put] 10).solved "pick").returns := by decide
  exact (writesThrough_shown (load_putThrough false) (if_pos (by decide))
    (List.mem_cons_of_mem _ (List.mem_singleton_self _)) 0).1
    (put_writes hlisted)

open Example in
/-- What `pick` returns is Unknown as a whole, and the write through it is not on the parameter. -/
theorem write_not_on_parameter : ¬∀ (doc : Json) (ms : List (Method Tok)) (fuel : Nat) (S : Solved), load doc = .ok ms →
    solve fuel ms = some S → ∀ m ∈ ms, ∀ i, WritesThrough ms (fun _ => True) m (.param i) →
    ∃ f, (S m.key).params[i]? = some f ∧ .borrowMut ≤ f := by
  intro h
  obtain ⟨f, hf, hle⟩ := h (putThrough true) [pick true, put] 10 (steps [pick true, put] 10).solved (load_putThrough true)
    (if_pos (by decide)) put (List.mem_cons_of_mem _ (List.mem_singleton_self _)) 0 (put_writes trivial)
  have hplain : ((steps [pick true, put] 10).solved "put").params[0]? = some .plain := by decide
  rw [show put.key = "put" from rfl, hplain] at hf
  cases hf
  exact absurd hle (by decide)

end OwnNet.HeapEffects
