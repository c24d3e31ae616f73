/-
  OwnNet.HeapEffects.Harmless — what the facts' own value flow may do, and that a site
  with no complaint does none of it.

  A `Frame` is one activation: a method, the objects each argument and the receiver give
  access to, and that inert parameters give access to none. A token holds objects
  (`Holds`): an argument's, the receiver's, any object at all for `heap`, what a local's
  sources hold, and what a callee's frame returns. A callee's frame gets what the call
  passes (`Enters`); a call that passes no receiver is a construction, whose receiver is
  new. A call nothing summarizes, and a method with an unmodelled construct, may return
  anything. `Does` collects what a frame and the frames it enters may write or let
  escape, static writes, and that something the facts do not describe runs.

  Proved:
  - `holds_root`: an object a token holds is an object of one of the token's roots.
  - `does_accounted`: at summaries that are their own evaluations, each event is
    accounted for in its method's summary, calls nested to any depth included.
  - `siteVerdict_sound`: a site given no complaint does nothing to memory that existed
    before its call, returns no reference, and reaches no unsummarized call.
-/

import OwnNet.HeapEffects.Runs
import Mathlib.Data.Set.Basic

namespace OwnNet.HeapEffects

/-! ## The value flow -/

/-- An activation. An inert value, and a receiver a static method lacks, hold nothing. -/
structure Frame (Obj : Type) where
  method : Method Tok
  args : Nat → Set Obj
  recv : Set Obj
  inert : ∀ i, method.inert i = true → args i = ∅
  static : method.receiver = false → recv = ∅

def Call.arg (c : Call Tok) (j : Nat) : List Tok := (c.args[j]?).getD []

section Flow

variable {Obj : Type} (ms : List (Method Tok)) (fresh : Set Obj)

/-- The objects a token may hold in a frame. -/
inductive Holds : Frame Obj → Tok → Obj → Prop
  | param {fr i o} : o ∈ fr.args i → Holds fr (.param i) o
  | receiver {fr o} : o ∈ fr.recv → Holds fr .receiver o
  | heap {fr o} : Holds fr .heap o
  | loc {fr i ts t o} : fr.method.locals[i]? = some ts → t ∈ ts → Holds fr t o → Holds fr (.loc i) o
  | unresolved {fr k c o} : fr.method.calls[k]? = some c → calleeUnknown ms c = true → Holds fr (.call k) o
  | unmodelled {fr k c m o} : fr.method.calls[k]? = some c → calleeUnknown ms c = false →
      byKey ms c.callee = some m → m.unknown ≠ [] → m.returnInert = false → Holds fr (.call k) o
  /-- `fr'` is the callee's frame; `arg` and `recv` pick the token each object came by. -/
  | call {fr k c t o} (fr' : Frame Obj) (arg : Nat → Obj → Tok) (recv : Obj → Tok) :
      fr.method.calls[k]? = some c → calleeUnknown ms c = false → byKey ms c.callee = some fr'.method →
      (∀ j p, p ∈ fr'.args j → arg j p ∈ c.arg j) → (∀ j p, p ∈ fr'.args j → Holds fr (arg j p) p) →
      (∀ ts, c.receiver = some ts → ∀ p ∈ fr'.recv, recv p ∈ ts) →
      (∀ ts, c.receiver = some ts → ∀ p ∈ fr'.recv, Holds fr (recv p) p) →
      (c.receiver = none → fr'.recv ⊆ fresh) →
      fr'.method.returnInert = false → t ∈ fr'.method.returns → Holds fr' t o → Holds fr (.call k) o

/-- `fr'` is a frame the call may run its callee in. -/
structure Enters (fr : Frame Obj) (c : Call Tok) (fr' : Frame Obj) : Prop where
  call : c ∈ fr.method.calls
  known : calleeUnknown ms c = false
  callee : byKey ms c.callee = some fr'.method
  args : ∀ j p, p ∈ fr'.args j → ∃ t ∈ c.arg j, Holds ms fresh fr t p
  recv : ∀ ts, c.receiver = some ts → ∀ p ∈ fr'.recv, ∃ t ∈ ts, Holds ms fresh fr t p
  made : c.receiver = none → fr'.recv ⊆ fresh

inductive Event (Obj : Type) where
  | write (o : Obj)
  | escape (o : Obj)
  | static
  | undescribed

/-- What a frame may do, itself or in the frames it enters. -/
inductive Does : Frame Obj → Event Obj → Prop
  | write {fr w t o} : w ∈ fr.method.writes → w.1 ≠ .static → t ∈ w.2 → Holds ms fresh fr t o → Does fr (.write o)
  | static {fr w} : w ∈ fr.method.writes → w.1 = .static → Does fr .static
  | escape {fr t o} : t ∈ fr.method.stores → Holds ms fresh fr t o → Does fr (.escape o)
  | unmodelled {fr} : fr.method.unknown ≠ [] → Does fr .undescribed
  | unresolved {fr c} : c ∈ fr.method.calls → calleeUnknown ms c = true → Does fr .undescribed
  | nested {fr c fr' ev} : Enters ms fresh fr c fr' → Does fr' ev → Does fr ev

/-- The objects of a root in a frame: all of them, for heap and unknown. -/
def Frame.root (fr : Frame Obj) : Root → Set Obj
  | .param i => fr.args i
  | .receiver => fr.recv
  | .heap => Set.univ
  | .unknown => Set.univ

end Flow

/-! ## Values -/

section Values

variable {Obj : Type} {ms : List (Method Tok)} {fresh : Set Obj} {S : Solved}

/-- Summaries that are their methods' own evaluations. -/
def Fixed (ms : List (Method Tok)) (S : Solved) : Prop := ∀ k m, byKey ms k = some m → S k = evaluate m ms S

/-- What a method returns, its summary lists. -/
theorem returns_listed (hS : Fixed ms S) {k : String} {m : Method Tok} (hm : byKey ms k = some m)
    (hi : m.returnInert = false) {t : Tok} (ht : t ∈ m.returns) {r : Root} (hr : r ∈ roots m ms S [t])
    (hin : ∀ i, r = .param i → m.inert i = false) : .unknown ∈ (S k).returns ∨ r ∈ (S k).returns := by
  rw [hS k _ hm, evaluate_returns]
  by_cases hu : m.unknown ≠ []
  · left
    simp [hu, hi]
  · rw [if_neg hu]
    have hret : r ∈ returned m ms S := by
      unfold returned
      rw [hi, if_neg Bool.false_ne_true]
      refine List.mem_filter.mpr ⟨roots_mem ht hr, ?_⟩
      cases r with
      | param i => simp [hin i rfl]
      | receiver => rfl
      | heap => rfl
      | unknown => rfl
    by_cases hun : Root.unknown ∈ returned m ms S
    · exact Or.inl (mem_canon.mpr (Or.inl ⟨hun, rfl⟩))
    · exact Or.inr (mem_canon.mpr (Or.inr ⟨hun, hret⟩))

theorem Frame.inert_of_mem {fr : Frame Obj} {i : Nat} {o : Obj} (ho : o ∈ fr.args i) : fr.method.inert i = false := by
  cases hin : fr.method.inert i with
  | false => rfl
  | true =>
    rw [fr.inert i hin] at ho
    cases ho

/-- An inert parameter holds no object to return. -/
theorem returns_root (hS : Fixed ms S) {k : String} {fr : Frame Obj} (hm : byKey ms k = some fr.method)
    (hi : fr.method.returnInert = false) {t : Tok} (ht : t ∈ fr.method.returns) {r : Root} {o : Obj}
    (hr : r ∈ roots fr.method ms S [t]) (ho : o ∈ fr.root r) :
    .unknown ∈ (S k).returns ∨ r ∈ (S k).returns := by
  refine returns_listed hS hm hi ht hr fun i hroot => ?_
  rw [hroot] at ho
  exact fr.inert_of_mem ho

theorem known_callee {m : Method Tok} {k : Nat} {c : Call Tok} (hc : m.calls[k]? = some c)
    (hk : calleeUnknown ms c = false) {r : Root} (hr : r ∈ (S c.callee).returns) (h : r = .heap ∨ r = .unknown) :
    r ∈ roots m ms S [.call k] := by
  refine roots_found ?_
  rw [found_call hc, hk]
  exact List.mem_filter.mpr ⟨hr, by simpa using h⟩

/-- An object a token holds is of one of the token's roots. -/
theorem holds_root (hS : Fixed ms S) {fr : Frame Obj} {t : Tok} {o : Obj} (h : Holds ms fresh fr t o) :
    ∃ r ∈ roots fr.method ms S [t], o ∈ fr.root r := by
  induction h with
  | @param fr i o ho => exact ⟨.param i, roots_found (List.mem_singleton_self _), ho⟩
  | @receiver fr o ho => exact ⟨.receiver, roots_found (List.mem_singleton_self _), ho⟩
  | @heap fr o => exact ⟨.heap, roots_found (List.mem_singleton_self _), Set.mem_univ o⟩
  | @loc fr i ts t o hl ht _ ih =>
    obtain ⟨r, hr, ho⟩ := ih
    exact ⟨r, roots_source (by simpa [sources, hl] using ht) hr, ho⟩
  | @unresolved fr k c o hc hk =>
    exact ⟨.unknown, roots_found (by rw [found_call hc, hk]; exact List.mem_singleton_self _), Set.mem_univ o⟩
  | @unmodelled fr k c m o hc hk hm hu hi =>
    refine ⟨.unknown, known_callee hc hk ?_ (Or.inr rfl), Set.mem_univ o⟩
    rw [hS _ m hm, evaluate_returns]
    simp [hu, hi]
  | @call fr k c t o fr' arg recv hc hk hm harg _ hrecv _ hmade hi ht _ iharg ihrecv ihret =>
    obtain ⟨r', hr', ho⟩ := ihret
    rcases returns_root hS hm hi ht hr' ho with hu | hr
    · exact ⟨.unknown, known_callee hc hk hu (Or.inr rfl), Set.mem_univ o⟩
    · have hsource : ∀ u, u ∈ passed c r' → u ∈ sources fr.method ms S (.call k) := by
        intro u hu
        rw [sources_call hc, hk]
        exact List.mem_flatMap.mpr ⟨r', hr, hu⟩
      cases r' with
      | param j =>
        obtain ⟨r, hrr, hor⟩ := iharg j o ho
        exact ⟨r, roots_source (hsource _ (harg j o ho)) hrr, hor⟩
      | receiver =>
        cases hcr : c.receiver with
        | some ts =>
          obtain ⟨r, hrr, hor⟩ := ihrecv ts hcr o ho
          exact ⟨r, roots_source (hsource _ (by simpa [passed, hcr] using hrecv ts hcr o ho)) hrr, hor⟩
        | none =>
          refine ⟨.heap, roots_source (hsource .heap (by simp [passed, hcr])) ?_, Set.mem_univ o⟩
          exact roots_found (List.mem_singleton_self _)
      | heap => exact ⟨.heap, known_callee hc hk hr (Or.inl rfl), Set.mem_univ o⟩
      | unknown => exact ⟨.unknown, known_callee hc hk hr (Or.inr rfl), Set.mem_univ o⟩

end Values

/-! ## Effects -/

section Effects

variable {Obj : Type} {ms : List (Method Tok)} {fresh : Set Obj} {S : Solved}

/-- The summary of `fr`'s method allows `effect` on `o`. -/
def Allows (S : Solved) (fr : Frame Obj) (effect : Effect) (o : Obj) : Prop :=
  (∃ i e, o ∈ fr.args i ∧ (S fr.method.key).params[i]? = some e ∧ effect ≤ e) ∨
    (∃ e, o ∈ fr.recv ∧ (S fr.method.key).receiver = some e ∧ effect ≤ e) ∨
    ∃ k, (S fr.method.key).writes k ≠ .none

/-- The event shows in the summary, or touches what the run itself made. -/
def Accounted (fresh : Set Obj) (S : Solved) (fr : Frame Obj) : Event Obj → Prop
  | .write o => o ∈ fresh ∨ Allows S fr .borrowMut o
  | .escape o => o ∈ fresh ∨ Allows S fr .mayEscape o
  | .static => ∃ k, (S fr.method.key).writes k ≠ .none
  | .undescribed => ∃ k, (S fr.method.key).writes k ≠ .none

theorem Allows.mono {fr : Frame Obj} {e e' : Effect} {o : Obj} (h : e ≤ e') (ha : Allows S fr e' o) : Allows S fr e o := by
  rcases ha with ⟨i, f, ho, hf, hle⟩ | ⟨f, ho, hf, hle⟩ | hw
  · exact Or.inl ⟨i, f, ho, hf, h.trans hle⟩
  · exact Or.inr (Or.inl ⟨f, ho, hf, h.trans hle⟩)
  · exact Or.inr (Or.inr hw)

theorem opaque_writes (hS : Fixed ms S) {fr : Frame Obj} (hm : byKey ms fr.method.key = some fr.method)
    (hu : fr.method.unknown ≠ []) (k : WriteKind) : (S fr.method.key).writes k = .unknown := by
  rw [hS _ _ hm]
  simp [evaluate, hu, opaqueSummary]

theorem writes_gather (hS : Fixed ms S) {fr : Frame Obj} (hm : byKey ms fr.method.key = some fr.method)
    (hu : fr.method.unknown = []) (k : WriteKind) :
    (S fr.method.key).writes k = (gather fr.method ms S).writes k := by
  have := hS _ _ hm
  unfold evaluate at this
  rw [if_neg (by simpa using hu)] at this
  rw [this]

theorem Frame.param_lt {fr : Frame Obj} {i : Nat} {o : Obj} (ho : o ∈ fr.args i) : i < fr.method.params.length := by
  by_contra hi
  have hin := fr.inert_of_mem ho
  simp [Method.inert, List.getElem?_eq_none (Nat.le_of_not_lt hi)] at hin

/-- What an evaluation covers on a root, the summary allows on its objects. -/
theorem allows_of_covers (hS : Fixed ms S) {fr : Frame Obj} (hm : byKey ms fr.method.key = some fr.method)
    (hu : fr.method.unknown = []) {e : Effect} (he : .borrowMut ≤ e) {kind : WriteKind} {r : Root}
    (hc : Covers fr.method (gather fr.method ms S) e kind r) {o : Obj} (ho : o ∈ fr.root r) : Allows S fr e o := by
  have hev : S fr.method.key = _ := hS _ _ hm
  unfold evaluate at hev
  rw [if_neg (by simpa using hu)] at hev
  cases r with
  | param i =>
    refine Or.inl ⟨i, _, ho, ?_, hc (fr.inert_of_mem ho)⟩
    rw [hev]
    simp [fr.param_lt ho]
  | receiver =>
    cases hr : fr.method.receiver with
    | false =>
      change o ∈ fr.recv at ho
      rw [fr.static hr] at ho
      cases ho
    | true =>
      refine Or.inr (Or.inl ⟨_, ho, ?_, hc⟩)
      rw [hev]
      simp [hr]
  | heap =>
    refine Or.inr (Or.inr ⟨kind, ?_⟩)
    have := hc he
    rw [writes_gather hS hm hu]
    intro hnone
    rw [hnone] at this
    unfold writeLevel at this
    split at this <;> exact absurd this (by decide)
  | unknown =>
    refine Or.inr (Or.inr ⟨kind, ?_⟩)
    rw [writes_gather hS hm hu, hc he]
    decide

/-- An effect laid on every object a list of tokens may hold is allowed on each. -/
theorem allows_of_coversAll (hS : Fixed ms S) {fr : Frame Obj} (hm : byKey ms fr.method.key = some fr.method)
    (hu : fr.method.unknown = []) {e : Effect} (he : .borrowMut ≤ e) {kind : WriteKind} {tokens : List Tok}
    (hc : CoversAll fr.method ms S (gather fr.method ms S) tokens e kind) {t : Tok} (ht : t ∈ tokens) {o : Obj}
    (ho : Holds ms fresh fr t o) : Allows S fr e o := by
  obtain ⟨r, hr, hor⟩ := holds_root hS ho
  exact allows_of_covers hS hm hu he (hc r (roots_mem ht hr)) hor

theorem level_ne_none {l l' : Level} (h : l ≤ l') (hl : l ≠ .none) : l' ≠ .none := by
  rintro rfl
  exact hl (le_antisymm h (Level.none_le _))

/-- A callee's writes are its caller's. -/
theorem writes_up (hS : Fixed ms S) {fr fr' : Frame Obj} {c : Call Tok} (hm : byKey ms fr.method.key = some fr.method)
    (hu : fr.method.unknown = []) (hen : Enters ms fresh fr c fr')
    (hw : ∃ k, (S fr'.method.key).writes k ≠ .none) : ∃ k, (S fr.method.key).writes k ≠ .none := by
  obtain ⟨k, hk⟩ := hw
  have hcov := (@gather_covers fr.method ms S).calls c hen.call
  unfold CoversCall at hcov
  rw [hen.known, if_neg Bool.false_ne_true] at hcov
  refine ⟨k, ?_⟩
  rw [writes_gather hS hm hu]
  rw [(byKey_some hen.callee).2] at hk
  exact level_ne_none (hcov.writes k) hk

theorem allows_up (hS : Fixed ms S) {fr fr' : Frame Obj} {c : Call Tok} (hm : byKey ms fr.method.key = some fr.method)
    (hu : fr.method.unknown = []) (hen : Enters ms fresh fr c fr') {e : Effect} (he : .borrowMut ≤ e) {o : Obj}
    (ha : Allows S fr' e o) : o ∈ fresh ∨ Allows S fr e o := by
  have hcov := (@gather_covers fr.method ms S).calls c hen.call
  unfold CoversCall at hcov
  rw [hen.known, if_neg Bool.false_ne_true] at hcov
  have hkey := (byKey_some hen.callee).2
  rcases ha with ⟨i, f, ho, hf, hle⟩ | ⟨f, ho, hf, hle⟩ | hw
  · right
    obtain ⟨t, ht, hot⟩ := hen.args i o ho
    rw [hkey] at hf
    exact (allows_of_coversAll hS hm hu (he.trans hle) (hcov.args i f hf) ht hot).mono hle
  · cases hcr : c.receiver with
    | none => exact Or.inl (hen.made hcr ho)
    | some ts =>
      right
      obtain ⟨t, ht, hot⟩ := hen.recv ts hcr o ho
      rw [hkey] at hf
      exact (allows_of_coversAll hS hm hu (he.trans hle) (hcov.receiver f ts hf hcr) ht hot).mono hle
  · exact Or.inr (Or.inr (Or.inr (writes_up hS hm hu hen hw)))

/-- Where a method has an unmodelled construct, its summary accounts for everything. -/
theorem opaque_accounted (hS : Fixed ms S) {fr : Frame Obj} (hm : byKey ms fr.method.key = some fr.method)
    (hu : fr.method.unknown ≠ []) (ev : Event Obj) : Accounted fresh S fr ev := by
  have hw : ∃ k, (S fr.method.key).writes k ≠ .none := ⟨.inst, by rw [opaque_writes hS hm hu]; decide⟩
  cases ev with
  | write o => exact Or.inr (Or.inr (Or.inr hw))
  | escape o => exact Or.inr (Or.inr (Or.inr hw))
  | static => exact hw
  | undescribed => exact hw

/-- Everything a frame may do is accounted for in its method's summary. -/
theorem does_accounted (hS : Fixed ms S) {fr : Frame Obj} {ev : Event Obj} (h : Does ms fresh fr ev)
    (hm : byKey ms fr.method.key = some fr.method) : Accounted fresh S fr ev := by
  induction h with
  | @write fr w t o hw hk ht ho =>
    by_cases hu : fr.method.unknown = []
    · have hcov := (@gather_covers fr.method ms S).writes w hw
      obtain ⟨kind, target⟩ := w
      cases kind with
      | static => exact absurd rfl hk
      | inst => exact Or.inr (allows_of_coversAll hS hm hu le_rfl hcov ht ho)
      | indirect => exact Or.inr (allows_of_coversAll hS hm hu le_rfl hcov ht ho)
    · exact opaque_accounted hS hm hu _
  | @static fr w hw hk =>
    by_cases hu : fr.method.unknown = []
    · have hcov := (@gather_covers fr.method ms S).writes w hw
      obtain ⟨kind, target⟩ := w
      cases hk
      refine ⟨.static, ?_⟩
      rw [writes_gather hS hm hu]
      exact level_ne_none hcov (by decide)
    · exact opaque_accounted hS hm hu _
  | @escape fr t o ht ho =>
    by_cases hu : fr.method.unknown = []
    · exact Or.inr (allows_of_coversAll hS hm hu (by decide) gather_covers.stores ht ho)
    · exact opaque_accounted hS hm hu _
  | @unmodelled fr hu => exact opaque_accounted hS hm hu _
  | @unresolved fr c hc hk =>
    by_cases hu : fr.method.unknown = []
    · have hcov := (@gather_covers fr.method ms S).calls c hc
      unfold CoversCall at hcov
      rw [if_pos hk] at hcov
      refine ⟨.inst, ?_⟩
      rw [writes_gather hS hm hu]
      exact level_ne_none (hcov.writes .inst) (by decide)
    · exact opaque_accounted hS hm hu _
  | @nested fr c fr' ev hen _ ih =>
    have hm' : byKey ms fr'.method.key = some fr'.method := by
      rw [(byKey_some hen.callee).2]; exact hen.callee
    have hacc := ih hm'
    by_cases hu : fr.method.unknown = []
    · cases ev with
      | write o =>
        rcases hacc with hf | ha
        · exact Or.inl hf
        · exact allows_up hS hm hu hen le_rfl ha
      | escape o =>
        rcases hacc with hf | ha
        · exact Or.inl hf
        · exact allows_up hS hm hu hen (by decide) ha
      | static => exact writes_up hS hm hu hen hacc
      | undescribed => exact writes_up hS hm hu hen hacc
    · exact opaque_accounted hS hm hu _

end Effects

/-! ## The verdict -/

section Verdict

variable {Obj : Type} {ms : List (Method Tok)} {fresh : Set Obj} {S : Solved}

theorem firstEffect_none {l : List (Effect × Nat)} (h : firstEffect l = none) : ∀ p ∈ l, p.1 ≤ .borrow := by
  induction l with
  | nil => exact fun _ hp => absurd hp List.not_mem_nil
  | cons p l ih =>
    unfold firstEffect at h
    split at h
    · cases h
    · rename_i hp
      intro q hq
      rcases List.mem_cons.mp hq with rfl | hq
      · exact not_lt.mp hp
      · exact ih h q hq

theorem firstWrite_none {writes : WriteKind → Level} {l : List WriteKind} (h : firstWrite writes l = none) :
    ∀ k ∈ l, writes k = .none := by
  induction l with
  | nil => exact fun _ hk => absurd hk List.not_mem_nil
  | cons k l ih =>
    unfold firstWrite at h
    split at h
    · cases h
    · rename_i hk
      intro j hj
      rcases List.mem_cons.mp hj with rfl | hj
      · simpa using hk
      · exact ih h j hj

/-- A harmless summary at most reads its arguments and receiver, writes nothing, and
    returns no reference. -/
structure Harmless (s : Summary) : Prop where
  params : ∀ (i : Nat) (e : Effect), s.params[i]? = some e → e ≤ .borrow
  receiver : ∀ e, s.receiver = some e → e ≤ .borrow
  writes : ∀ k, s.writes k = .none
  returns : s.returns = []

theorem harmless_none {s : Summary} (h : harmless s = none) : Harmless s := by
  unfold harmless at h
  rw [Option.or_eq_none_iff, Option.or_eq_none_iff, Option.or_eq_none_iff] at h
  obtain ⟨hp, hr, hw, ht⟩ := h
  refine ⟨fun i e hi => ?_, fun e he => ?_, fun k => ?_, ?_⟩
  · exact firstEffect_none hp (e, i) (List.mem_zipIdx_iff_getElem?.mpr hi)
  · rw [he] at hr
    unfold receiverEffect at hr
    split at hr
    · rename_i e' heq
      cases heq
      split at hr
      · cases hr
      · rename_i hlt; exact not_lt.mp hlt
    · rename_i heq; cases heq
  · exact firstWrite_none hw k (by cases k <;> decide)
  · cases hs : s.returns with
    | nil => rfl
    | cons r rs => rw [hs] at ht; cases ht

theorem siteVerdict_none {site : Method Tok} {callee : String} (h : siteVerdict ms S site callee = none) :
    Harmless (S site.key) ∧ ∀ c ∈ site.calls, calleeUnknown ms c = false := by
  unfold siteVerdict at h
  split at h
  · rw [Option.or_eq_none_iff, Option.map_eq_none_iff] at h
    refine ⟨harmless_none h.2, ?_⟩
    have hcalls : ∀ cs, callsVerdict ms S cs = none → ∀ c ∈ cs, calleeUnknown ms c = false := by
      intro cs
      induction cs with
      | nil => exact fun _ _ hc => absurd hc List.not_mem_nil
      | cons d cs ih =>
        intro hv c hc
        unfold callsVerdict at hv
        rw [Option.or_eq_none_iff] at hv
        rcases List.mem_cons.mp hc with rfl | hc
        · have hd := hv.1
          unfold callVerdict at hd
          split at hd
          · cases hd
          · rename_i hdir
            split at hd
            · cases hd
            · rename_i hrec
              simp only [ne_eq, not_not] at hdir
              exact resolved_iff.mpr ⟨hdir, Option.ne_none_iff_exists'.mp (by simpa using hrec)⟩
        · exact ih hv.2 c hc
    exact hcalls _ h.1
  · cases h

theorem Harmless.not_allows {fr : Frame Obj} (h : Harmless (S fr.method.key)) {e : Effect} (he : .borrowMut ≤ e)
    {o : Obj} : ¬ Allows S fr e o := by
  have hno : ∀ f : Effect, f ≤ .borrow → ¬ e ≤ f := fun f hf hle =>
    absurd ((he.trans hle).trans hf) (by decide)
  rintro (⟨i, f, -, hf, hle⟩ | ⟨f, -, hf, hle⟩ | ⟨k, hk⟩)
  · exact hno f (h.params i f hf) hle
  · exact hno f (h.receiver f hf) hle
  · exact hk (h.writes k)

/-- A method the site may come to run, through calls with records. -/
inductive Runs (ms : List (Method Tok)) (site : Method Tok) : Method Tok → Prop
  | self : Runs ms site site
  | call {m c m'} : Runs ms site m → c ∈ m.calls → calleeUnknown ms c = false → byKey ms c.callee = some m' →
      Runs ms site m'

/-- A frame of a method that holds nothing at all. -/
def Frame.empty (Obj : Type) (m : Method Tok) : Frame Obj := ⟨m, fun _ => ∅, ∅, fun _ _ => rfl, fun _ => rfl⟩

theorem Runs.does {site m : Method Tok} (h : Runs ms site m) {ev : Event Obj} (hd : Does ms fresh (.empty Obj m) ev) :
    Does ms fresh (.empty Obj site) ev := by
  induction h with
  | self => exact hd
  | @call m c m' _ hc hk hm' ih =>
    have hen : Enters ms fresh (.empty Obj m) c (.empty Obj m') := by
      refine ⟨hc, hk, hm', ?_, ?_, ?_⟩
      · exact fun _ _ hp => absurd hp (Set.notMem_empty _)
      · exact fun _ _ _ hp => absurd hp (Set.notMem_empty _)
      · exact fun _ => Set.empty_subset _
    exact ih (.nested hen hd)

/-- A site given no complaint: whatever its frame holds, it writes and lets escape only
    what the run made, writes no static, runs nothing undescribed and returns nothing;
    and no method it may run has an unmodelled construct or a call nothing summarizes. -/
theorem siteVerdict_sound {doc : Json} {ms : List (Method Tok)} {fuel : Nat} {S : Solved} (hl : load doc = .ok ms)
    (hs : solve fuel ms = some S) {site : Method Tok} (hsite : site ∈ ms) {callee : String}
    (hv : siteVerdict ms S site callee = none) :
    (∀ (Obj : Type) (fresh : Set Obj) (fr : Frame Obj), fr.method = site →
      (∀ o, Does ms fresh fr (.write o) → o ∈ fresh) ∧ (∀ o, Does ms fresh fr (.escape o) → o ∈ fresh) ∧
      ¬ Does ms fresh fr .static ∧ ¬ Does ms fresh fr .undescribed ∧
      (site.returnInert = false → ∀ t ∈ site.returns, ∀ o, ¬ Holds ms fresh fr t o)) ∧
    ∀ m, Runs ms site m → m.unknown = [] ∧ ∀ c ∈ m.calls, calleeUnknown ms c = false := by
  have hS : Fixed ms S := fun k m hm => solve_fixpoint hs hm
  obtain ⟨hh, -⟩ := siteVerdict_none hv
  have hm : byKey ms site.key = some site := byKey_key (load_accepted hl).nodup hsite
  have hno : ∀ (Obj : Type) (fresh : Set Obj) (fr : Frame Obj), fr.method = site →
      ¬ Does ms fresh fr .undescribed := by
    rintro Obj fresh fr rfl hd
    obtain ⟨k, hk⟩ := does_accounted hS hd hm
    exact hk (hh.writes k)
  constructor
  · rintro Obj fresh fr rfl
    refine ⟨fun o hd => ?_, fun o hd => ?_, fun hd => ?_, hno Obj fresh fr rfl, fun hi t ht o ho => ?_⟩
    · rcases does_accounted hS hd hm with hf | ha
      · exact hf
      · exact absurd ha (hh.not_allows le_rfl)
    · rcases does_accounted hS hd hm with hf | ha
      · exact hf
      · exact absurd ha (hh.not_allows (by decide))
    · obtain ⟨k, hk⟩ := does_accounted hS hd hm
      exact hk (hh.writes k)
    · obtain ⟨r, hr, hor⟩ := holds_root hS ho
      have := returns_root hS hm hi ht hr hor
      rw [hh.returns] at this
      rcases this with h | h <;> cases h
  · intro m hr
    have hnone : ∀ {ev : Event Unit}, Does ms (∅ : Set Unit) (.empty Unit m) ev → ev ≠ .undescribed := by
      rintro ev hd rfl
      exact hno Unit ∅ (.empty Unit site) rfl (hr.does hd)
    refine ⟨?_, fun c hc => ?_⟩
    · by_contra hu
      exact hnone (.unmodelled hu) rfl
    · by_contra hk
      exact hnone (.unresolved hc (by simpa using hk)) rfl

end Verdict

namespace Example

/-- A site that passes an outside object to a method that only calls itself. -/
def quiet : Json :=
  document [
    method "#site" [] [] [call 0 "again" "direct" [["heap"]]],
    method "again" [] [] [call 0 "again" "direct" [["param:0"]]]]

def site : Method Tok :=
  ⟨"#site", "F.cs", 1, false, false, [("x", false)], [], [], [], [], [], [⟨"again", .direct, none, [[.heap]]⟩], []⟩

/-- The site's frame, given an object from outside. -/
def outside : Frame Nat where
  method := site
  args i := if i = 0 then {7} else ∅
  recv := ∅
  inert i hi := by
    by_cases e : i = 0
    · subst e; exact absurd hi (by decide)
    · rw [if_neg e]
  static _ := rfl

end Example

open Example in
theorem siteVerdict_sound_quiet :
    ¬ Does (methods quiet) ∅ outside (.write 7) ∧ ¬ Does (methods quiet) ∅ outside .undescribed := by
  obtain ⟨hw, -, -, hu, -⟩ := (@siteVerdict_sound quiet (methods quiet) 10 (steps (methods quiet) 10).solved (by decide)
    (if_pos (by decide)) site (by decide) "again" (by decide)).1 Nat ∅ outside rfl
  exact ⟨fun h => hw 7 h, hu⟩

end OwnNet.HeapEffects
