/-
  OwnNet.HeapEffects.Transfer — what one evaluation computes.

  An accumulator is bounded by `x` exactly when `x` covers every effect laid on every
  root (`gather_le_iff`): the facts' order of touches does not matter. From it:
  - `evaluate_congr`: an evaluation reads its resolvable callees' summaries only;
  - `evaluate_mono`: below a collapse of returned roots, it is monotone in them.
  `Summary.Le` is the product order: effects pointwise, returned roots by inclusion.
-/

import OwnNet.Dict.Keyed
import OwnNet.HeapEffects.Solve
import OwnNet.Parsing.Numerals
import OwnNet.Sorting

namespace OwnNet.HeapEffects

theorem byKey_some {ms : List (Method Tok)} {k : String} {m : Method Tok} (h : byKey ms k = some m) :
    m ∈ ms ∧ m.key = k :=
  Dict.of_find_key h

theorem byKey_key {ms : List (Method Tok)} (hnd : (ms.map Method.key).Nodup) {m : Method Tok} (hm : m ∈ ms) :
    byKey ms m.key = some m :=
  Dict.find_key_of_mem hnd hm

/-- A call that resolves is a direct one to a method with a record. -/
theorem resolved_iff {ms : List (Method Tok)} {c : Call Tok} :
    calleeUnknown ms c = false ↔ c.dispatch = .direct ∧ ∃ callee, byKey ms c.callee = some callee := by
  simp [calleeUnknown, Option.isSome_iff_exists]

/-! ## Roots -/

section Roots

variable {m : Method Tok} {ms : List (Method Tok)} {solved solved' : Solved}

theorem sources_inner (t : Tok) (h : sources m ms solved t ≠ []) : t ∈ inner m := by
  unfold inner
  rw [List.mem_append]
  cases t with
  | loc i =>
    left
    by_contra hm
    have hi : m.locals.length ≤ i := by simpa using hm
    exact h (by simp [sources, List.getElem?_eq_none hi])
  | call k =>
    right
    by_contra hm
    have hk : m.calls.length ≤ k := by simpa using hm
    exact h (by simp [sources, List.getElem?_eq_none hk])
  | param i => exact absurd rfl h
  | receiver => exact absurd rfl h
  | heap => exact absurd rfl h

/-- The tokens a value's walk comes to. -/
def Walks (m : Method Tok) (ms : List (Method Tok)) (solved : Solved) : Tok → Tok → Prop :=
  Graph.Reaches (sources m ms solved)

theorem mem_roots {tokens : List Tok} {r : Root} :
    r ∈ roots m ms solved tokens ↔ ∃ t ∈ tokens, ∃ u, Walks m ms solved t u ∧ r ∈ found m ms solved u := by
  unfold roots
  rw [List.mem_dedup, List.mem_flatMap]
  constructor
  · rintro ⟨u, hu, hr⟩
    obtain ⟨t, ht, hw⟩ := (Graph.mem_reachable _ sources_inner tokens u).mp hu
    exact ⟨t, ht, u, hw, hr⟩
  · rintro ⟨t, ht, u, hw, hr⟩
    exact ⟨u, (Graph.mem_reachable _ sources_inner tokens u).mpr ⟨t, ht, hw⟩, hr⟩

/-- The roots of a token's sources are roots of the token. -/
theorem roots_source {t u : Tok} {r : Root} (hu : u ∈ sources m ms solved t) (hr : r ∈ roots m ms solved [u]) :
    r ∈ roots m ms solved [t] := by
  obtain ⟨u', hu', v, hw, hv⟩ := mem_roots.mp hr
  rw [List.mem_singleton.mp hu'] at hw
  exact mem_roots.mpr ⟨t, List.mem_singleton_self t, v, Relation.ReflTransGen.head hu hw, hv⟩

theorem roots_mem {t : Tok} {tokens : List Tok} {r : Root} (ht : t ∈ tokens) (hr : r ∈ roots m ms solved [t]) :
    r ∈ roots m ms solved tokens := by
  obtain ⟨u', hu', v, hw, hv⟩ := mem_roots.mp hr
  rw [List.mem_singleton.mp hu'] at hw
  exact mem_roots.mpr ⟨t, ht, v, hw, hv⟩

theorem roots_found {t : Tok} {r : Root} (hr : r ∈ found m ms solved t) : r ∈ roots m ms solved [t] :=
  mem_roots.mpr ⟨t, List.mem_singleton_self t, t, .refl, hr⟩

theorem sources_call {k : Nat} {c : Call Tok} (hc : m.calls[k]? = some c) : sources m ms solved (.call k) =
    if calleeUnknown ms c then [] else (solved c.callee).returns.flatMap (passed c) := by
  simp only [sources, hc]

theorem found_call {k : Nat} {c : Call Tok} (hc : m.calls[k]? = some c) : found m ms solved (.call k) =
    if calleeUnknown ms c then [.unknown] else (solved c.callee).returns.filter fun r => r = .heap ∨ r = .unknown := by
  simp only [found, hc]

theorem sources_mono (h : ∀ k, (solved k).returns ⊆ (solved' k).returns) (t : Tok) :
    sources m ms solved t ⊆ sources m ms solved' t := by
  cases t with
  | call k =>
    cases hc : m.calls[k]? with
    | none => simp [sources, hc]
    | some c =>
      rw [sources_call hc, sources_call hc]
      split
      · exact fun _ hu => hu
      · intro u hu
        obtain ⟨r, hr, hu⟩ := List.mem_flatMap.mp hu
        exact List.mem_flatMap.mpr ⟨r, h c.callee hr, hu⟩
  | param i => exact fun _ h => h
  | loc i => exact fun _ h => h
  | receiver => exact fun _ h => h
  | heap => exact fun _ h => h

theorem found_mono (h : ∀ k, (solved k).returns ⊆ (solved' k).returns) (t : Tok) :
    found m ms solved t ⊆ found m ms solved' t := by
  cases t with
  | call k =>
    cases hc : m.calls[k]? with
    | none => simp [found, hc]
    | some c =>
      rw [found_call hc, found_call hc]
      split
      · exact fun _ hu => hu
      · exact fun u hu => List.mem_filter.mpr ⟨h c.callee (List.mem_filter.mp hu).1, (List.mem_filter.mp hu).2⟩
  | param i => exact fun _ h => h
  | loc i => exact fun _ h => h
  | receiver => exact fun _ h => h
  | heap => exact fun _ h => h

theorem roots_mono (h : ∀ k, (solved k).returns ⊆ (solved' k).returns) (tokens : List Tok) :
    roots m ms solved tokens ⊆ roots m ms solved' tokens := by
  intro r hr
  obtain ⟨t, ht, u, hw, hu⟩ := mem_roots.mp hr
  exact mem_roots.mpr ⟨t, ht, u, Relation.ReflTransGen.mono (fun a _ hab => sources_mono h a hab) _ _ hw, found_mono h u hu⟩

/-- The evaluation of `m` reads the summaries of its resolvable callees. -/
def SameCallees (m : Method Tok) (ms : List (Method Tok)) (solved solved' : Solved) : Prop :=
  ∀ c ∈ m.calls, calleeUnknown ms c = false → solved c.callee = solved' c.callee

theorem sources_congr (h : SameCallees m ms solved solved') : sources m ms solved = sources m ms solved' := by
  funext t
  cases t with
  | call k =>
    cases hc : m.calls[k]? with
    | none => simp [sources, hc]
    | some c =>
      rw [sources_call hc, sources_call hc]
      split
      · rfl
      · rename_i hk
        rw [h c (List.mem_of_getElem? hc) (by simpa using hk)]
  | param i => rfl
  | loc i => rfl
  | receiver => rfl
  | heap => rfl

theorem found_congr (h : SameCallees m ms solved solved') : found m ms solved = found m ms solved' := by
  funext t
  cases t with
  | call k =>
    cases hc : m.calls[k]? with
    | none => simp [found, hc]
    | some c =>
      rw [found_call hc, found_call hc]
      split
      · rfl
      · rename_i hk
        rw [h c (List.mem_of_getElem? hc) (by simpa using hk)]
  | param i => rfl
  | loc i => rfl
  | receiver => rfl
  | heap => rfl

theorem roots_congr (h : SameCallees m ms solved solved') : roots m ms solved = roots m ms solved' := by
  funext tokens
  unfold roots
  rw [sources_congr h, found_congr h]

theorem apply_congr (h : SameCallees m ms solved solved') : apply m ms solved = apply m ms solved' := by
  funext tokens effect kind acc
  unfold apply
  rw [roots_congr h]

theorem evaluate_congr (h : SameCallees m ms solved solved') : evaluate m ms solved = evaluate m ms solved' := by
  have hw : evalWrite m ms solved = evalWrite m ms solved' := by
    funext acc w
    unfold evalWrite
    rw [apply_congr h]
  have hr : applyReceiver m ms solved = applyReceiver m ms solved' := by
    funext c effect acc
    unfold applyReceiver
    rw [apply_congr h]
  have hcall : ∀ acc, ∀ c ∈ m.calls, evalCall m ms solved acc c = evalCall m ms solved' acc c := by
    intro acc c hc
    unfold evalCall
    rw [apply_congr h, hr]
    split
    · rfl
    · rename_i hk
      rw [h c hc (by simpa using hk)]
  have hg : gather m ms solved = gather m ms solved' := by
    unfold gather
    rw [apply_congr h, hw]
    exact List.foldl_ext _ _ _ hcall
  unfold evaluate returned
  rw [hg, roots_congr h]

end Roots

/-! ## What an accumulator covers -/

instance : LE Acc := ⟨fun a b => (∀ i, a.params i ≤ b.params i) ∧ a.receiver ≤ b.receiver ∧ ∀ k, a.writes k ≤ b.writes k⟩

theorem Acc.le_refl (a : Acc) : a ≤ a := ⟨fun _ => le_rfl, le_rfl, fun _ => le_rfl⟩

theorem Effect.plain_le (e : Effect) : Effect.plain ≤ e := by cases e <;> decide
theorem Effect.le_unknown (e : Effect) : e ≤ Effect.unknown := by cases e <;> decide
theorem Level.none_le (l : Level) : Level.none ≤ l := by cases l <;> decide
theorem Level.le_unknown (l : Level) : l ≤ Level.unknown := by cases l <;> decide

theorem Acc.bot_le (a : Acc) : Acc.bot ≤ a :=
  ⟨fun _ => Effect.plain_le _, Effect.plain_le _, fun _ => Level.none_le _⟩

/-- The level a write to an object reached from neither parameters nor receiver raises. -/
def writeLevel (effect : Effect) : Level := if effect = .unknown then .unknown else .may

theorem writeLevel_mono {e e' : Effect} (h : e ≤ e') : writeLevel e ≤ writeLevel e' := by
  revert h
  cases e <;> cases e' <;> decide

/-- `x` accounts for `effect`, of kind `kind`, on an object of root `r`. -/
def Covers (m : Method Tok) (x : Acc) (effect : Effect) (kind : WriteKind) : Root → Prop
  | .param i => m.inert i = false → effect ≤ x.params i
  | .receiver => effect ≤ x.receiver
  | .heap => .borrowMut ≤ effect → writeLevel effect ≤ x.writes kind
  | .unknown => .borrowMut ≤ effect → x.writes kind = .unknown

theorem Covers.mono {m : Method Tok} {x : Acc} {e e' : Effect} {kind : WriteKind} {r : Root} (h : e ≤ e')
    (hc : Covers m x e' kind r) : Covers m x e kind r := by
  cases r with
  | param i => exact fun hi => h.trans (hc hi)
  | receiver => exact h.trans hc
  | heap => exact fun hb => (writeLevel_mono h).trans (hc (hb.trans h))
  | unknown => exact fun hb => hc (hb.trans h)

theorem Acc.raise_le_iff {a x : Acc} {kind : WriteKind} {l : Level} :
    a.raise kind l ≤ x ↔ a ≤ x ∧ l ≤ x.writes kind := by
  constructor
  · rintro ⟨hp, hr, hw⟩
    have hk := hw kind
    simp only [Acc.raise, Function.update_self] at hk
    refine ⟨⟨hp, hr, fun k => ?_⟩, (le_max_right _ _).trans hk⟩
    by_cases e : k = kind
    · subst e; exact (le_max_left _ _).trans hk
    · have := hw k
      simpa only [Acc.raise, Function.update_of_ne e] using this
  · rintro ⟨⟨hp, hr, hw⟩, hl⟩
    refine ⟨hp, hr, fun k => ?_⟩
    by_cases e : k = kind
    · subst e
      simp only [Acc.raise, Function.update_self]
      exact max_le (hw k) hl
    · simp only [Acc.raise, Function.update_of_ne e]
      exact hw k

theorem touch_le_iff {m : Method Tok} {e : Effect} {kind : WriteKind} {a x : Acc} {r : Root} :
    touch m e kind a r ≤ x ↔ a ≤ x ∧ Covers m x e kind r := by
  cases r with
  | param i =>
    simp only [touch, Covers]
    cases hi : m.inert i with
    | true => simp
    | false =>
      simp only [Bool.false_eq_true, if_false, forall_const]
      constructor
      · rintro ⟨hp, hr, hw⟩
        have hpi := hp i
        simp only [Function.update_self] at hpi
        refine ⟨⟨fun j => ?_, hr, hw⟩, (le_max_right _ _).trans hpi⟩
        by_cases ej : j = i
        · subst ej; exact (le_max_left _ _).trans hpi
        · have := hp j
          simpa only [Function.update_of_ne ej] using this
      · rintro ⟨⟨hp, hr, hw⟩, he⟩
        refine ⟨fun j => ?_, hr, hw⟩
        by_cases ej : j = i
        · subst ej
          simp only [Function.update_self]
          exact max_le (hp j) he
        · simp only [Function.update_of_ne ej]
          exact hp j
  | receiver =>
    simp only [touch, Covers]
    constructor
    · rintro ⟨hp, hr, hw⟩
      exact ⟨⟨hp, (le_max_left _ _).trans hr, hw⟩, (le_max_right _ _).trans hr⟩
    · rintro ⟨⟨hp, hr, hw⟩, he⟩
      exact ⟨hp, max_le hr he, hw⟩
  | heap =>
    simp only [touch, Covers]
    split
    · rename_i hb
      rw [Acc.raise_le_iff]
      simp [hb, writeLevel]
    · rename_i hb
      simp [hb]
  | unknown =>
    simp only [touch, Covers]
    split
    · rename_i hb
      rw [Acc.raise_le_iff]
      have : Level.unknown ≤ x.writes kind ↔ x.writes kind = .unknown :=
        ⟨fun h => le_antisymm (Level.le_unknown _) h, fun h => h.ge⟩
      simp [hb, this]
    · rename_i hb
      simp [hb]

/-- A fold of steps that each add their own condition adds all of them. -/
theorem foldl_le_iff {β : Type} {f : Acc → β → Acc} {x : Acc} {C : β → Prop}
    (hf : ∀ a b, f a b ≤ x ↔ a ≤ x ∧ C b) : ∀ (l : List β) (a : Acc), l.foldl f a ≤ x ↔ a ≤ x ∧ ∀ b ∈ l, C b := by
  intro l
  induction l with
  | nil => simp
  | cons b l ih =>
    intro a
    rw [List.foldl_cons, ih, hf]
    simp [and_assoc]

section Gather

variable {m : Method Tok} {ms : List (Method Tok)} {solved : Solved}

/-- `x` accounts for `effect` on every object a value may be. -/
def CoversAll (m : Method Tok) (ms : List (Method Tok)) (solved : Solved) (x : Acc) (tokens : List Tok)
    (effect : Effect) (kind : WriteKind) : Prop :=
  ∀ r ∈ roots m ms solved tokens, Covers m x effect kind r

def CoversWrite (m : Method Tok) (ms : List (Method Tok)) (solved : Solved) (x : Acc) (w : WriteKind × List Tok) : Prop :=
  match w.1 with
  | .static => .may ≤ x.writes .static
  | kind => CoversAll m ms solved x w.2 .borrowMut kind

/-- A call nothing summarizes: every argument, the receiver and every write is unknown. -/
structure CoversOpen (m : Method Tok) (ms : List (Method Tok)) (solved : Solved) (x : Acc) (c : Call Tok) : Prop where
  args : ∀ arg ∈ c.args, CoversAll m ms solved x arg .unknown .inst
  receiver : ∀ tokens, c.receiver = some tokens → CoversAll m ms solved x tokens .unknown .inst
  writes : ∀ k, .unknown ≤ x.writes k

/-- A resolved call: the callee's effects on what it was passed, and its writes. -/
structure CoversKnown (m : Method Tok) (ms : List (Method Tok)) (solved : Solved) (x : Acc) (c : Call Tok) : Prop where
  args : ∀ (j : Nat) (e : Effect), (solved c.callee).params[j]? = some e → CoversAll m ms solved x ((c.args[j]?).getD []) e .inst
  receiver : ∀ e tokens, (solved c.callee).receiver = some e → c.receiver = some tokens →
    CoversAll m ms solved x tokens e .inst
  writes : ∀ k, (solved c.callee).writes k ≤ x.writes k

def CoversCall (m : Method Tok) (ms : List (Method Tok)) (solved : Solved) (x : Acc) (c : Call Tok) : Prop :=
  if calleeUnknown ms c then CoversOpen m ms solved x c else CoversKnown m ms solved x c

theorem apply_le_iff {tokens : List Tok} {e : Effect} {kind : WriteKind} {a x : Acc} :
    apply m ms solved tokens e kind a ≤ x ↔ a ≤ x ∧ CoversAll m ms solved x tokens e kind := by
  unfold apply CoversAll
  exact foldl_le_iff (f := touch m e kind) (C := Covers m x e kind) (fun _ _ => touch_le_iff) _ _

theorem evalWrite_le_iff {a x : Acc} {w : WriteKind × List Tok} :
    evalWrite m ms solved a w ≤ x ↔ a ≤ x ∧ CoversWrite m ms solved x w := by
  obtain ⟨kind, target⟩ := w
  cases kind with
  | static => exact Acc.raise_le_iff
  | inst => exact apply_le_iff
  | indirect => exact apply_le_iff

theorem applyReceiver_le_iff {c : Call Tok} {effect : Option Effect} {a x : Acc} :
    applyReceiver m ms solved c effect a ≤ x ↔ a ≤ x ∧ ∀ e tokens, effect = some e → c.receiver = some tokens →
      CoversAll m ms solved x tokens e .inst := by
  unfold applyReceiver
  split
  · rename_i e tokens hc
    rw [apply_le_iff]
    refine and_congr_right fun _ => ⟨fun h e' tokens' he ht => ?_, fun h => h e tokens rfl hc⟩
    rw [hc] at ht
    cases he; cases ht
    exact h
  · rename_i hno
    exact ⟨fun h => ⟨h, fun e tokens he ht => absurd ht (hno e tokens he)⟩, fun h => h.1⟩

theorem writes_le_iff {a x : Acc} {w : WriteKind → Level} :
    ({ a with writes := fun k => max (a.writes k) (w k) } : Acc) ≤ x ↔ a ≤ x ∧ ∀ k, w k ≤ x.writes k := by
  constructor
  · rintro ⟨hp, hr, hw⟩
    exact ⟨⟨hp, hr, fun k => (le_max_left _ _).trans (hw k)⟩, fun k => (le_max_right _ _).trans (hw k)⟩
  · rintro ⟨⟨hp, hr, hw⟩, hl⟩
    exact ⟨hp, hr, fun k => max_le (hw k) (hl k)⟩

theorem evalCall_le_iff {a x : Acc} {c : Call Tok} :
    evalCall m ms solved a c ≤ x ↔ a ≤ x ∧ CoversCall m ms solved x c := by
  unfold evalCall CoversCall
  split
  · have hopen : ∀ b : Acc, ({ b with writes := fun _ => .unknown } : Acc) ≤ x ↔
        b ≤ x ∧ ∀ k, Level.unknown ≤ x.writes k := by
      intro b
      have := @writes_le_iff b x (fun _ => .unknown)
      simpa only [max_eq_right (Level.le_unknown _)] using this
    dsimp only
    rw [hopen, applyReceiver_le_iff, foldl_le_iff (C := fun arg => CoversAll m ms solved x arg .unknown .inst)
      (fun _ _ => apply_le_iff)]
    constructor
    · rintro ⟨⟨⟨ha, hargs⟩, hrecv⟩, hw⟩
      exact ⟨ha, hargs, fun tokens => hrecv .unknown tokens rfl, hw⟩
    · rintro ⟨ha, hargs, hrecv, hw⟩
      refine ⟨⟨⟨ha, hargs⟩, fun e tokens he ht => ?_⟩, hw⟩
      cases he
      exact hrecv tokens ht
  · have hargs : ∀ b : Acc, ((solved c.callee).params.zipIdx.foldl
        (fun acc p => apply m ms solved ((c.args[p.2]?).getD []) p.1 .inst acc) b) ≤ x ↔
        b ≤ x ∧ ∀ p ∈ (solved c.callee).params.zipIdx,
          CoversAll m ms solved x ((c.args[p.2]?).getD []) p.1 .inst := by
      intro b
      refine foldl_le_iff (C := fun p : Effect × Nat => CoversAll m ms solved x ((c.args[p.2]?).getD []) p.1 .inst) ?_ _ b
      intro a p
      exact apply_le_iff
    dsimp only
    rw [writes_le_iff, applyReceiver_le_iff, hargs]
    constructor
    · rintro ⟨⟨⟨ha, hp⟩, hr⟩, hw⟩
      exact ⟨ha, fun j e hj => hp (e, j) (List.mem_zipIdx_iff_getElem?.mpr hj), hr, hw⟩
    · rintro ⟨ha, hp, hr, hw⟩
      exact ⟨⟨⟨ha, fun p hm => hp p.2 p.1 (List.mem_zipIdx_iff_getElem?.mp hm)⟩, hr⟩, hw⟩

/-- Everything an evaluation lays on its accumulator. -/
structure CoversBody (m : Method Tok) (ms : List (Method Tok)) (solved : Solved) (x : Acc) : Prop where
  derefs : CoversAll m ms solved x m.derefs .borrow .inst
  writes : ∀ w ∈ m.writes, CoversWrite m ms solved x w
  stores : CoversAll m ms solved x m.stores .mayEscape .inst
  calls : ∀ c ∈ m.calls, CoversCall m ms solved x c

theorem gather_le_iff {x : Acc} : gather m ms solved ≤ x ↔ CoversBody m ms solved x := by
  unfold gather
  dsimp only
  rw [foldl_le_iff (C := CoversCall m ms solved x) (fun _ _ => evalCall_le_iff), apply_le_iff,
    foldl_le_iff (C := CoversWrite m ms solved x) (fun _ _ => evalWrite_le_iff), apply_le_iff]
  constructor
  · rintro ⟨⟨⟨⟨-, hd⟩, hw⟩, hs⟩, hc⟩
    exact ⟨hd, hw, hs, hc⟩
  · rintro ⟨hd, hw, hs, hc⟩
    exact ⟨⟨⟨⟨Acc.bot_le _, hd⟩, hw⟩, hs⟩, hc⟩

theorem gather_covers : CoversBody m ms solved (gather m ms solved) := gather_le_iff.mp (Acc.le_refl _)

end Gather

/-! ## The order on summaries -/

structure Summary.EffLe (s t : Summary) : Prop where
  params : List.Forall₂ (· ≤ ·) s.params t.params
  receiver : ∀ e, s.receiver = some e → ∃ e', t.receiver = some e' ∧ e ≤ e'
  writes : ∀ k, s.writes k ≤ t.writes k

/-- The product order: effects pointwise, returned roots by inclusion. -/
structure Summary.Le (s t : Summary) : Prop extends Summary.EffLe s t where
  returns : s.returns ⊆ t.returns

theorem Summary.Le.refl (s : Summary) : s.Le s :=
  ⟨⟨List.forall₂_same.mpr fun _ _ => le_rfl, fun e he => ⟨e, he, le_rfl⟩, fun _ => le_rfl⟩, fun _ h => h⟩

theorem Summary.EffLe.trans {s t u : Summary} (h : s.EffLe t) (h' : t.EffLe u) : s.EffLe u := by
  refine ⟨?_, ?_, fun k => (h.writes k).trans (h'.writes k)⟩
  · rw [List.forall₂_iff_get]
    refine ⟨h.params.length_eq.trans h'.params.length_eq, fun i hs hu => ?_⟩
    have ht : i < t.params.length := by rw [← h.params.length_eq]; exact hs
    exact ((List.forall₂_iff_get.mp h.params).2 i hs ht).trans ((List.forall₂_iff_get.mp h'.params).2 i ht hu)
  · intro e he
    obtain ⟨e', he', hle⟩ := h.receiver e he
    obtain ⟨e'', he'', hle'⟩ := h'.receiver e' he'
    exact ⟨e'', he'', hle.trans hle'⟩

theorem Summary.Le.trans {s t u : Summary} (h : s.Le t) (h' : t.Le u) : s.Le u :=
  ⟨h.toEffLe.trans h'.toEffLe, fun _ hr => h'.returns (h.returns hr)⟩

theorem Summary.EffLe.param {s t : Summary} (h : s.EffLe t) {j : Nat} {e : Effect} (hj : s.params[j]? = some e) :
    ∃ e', t.params[j]? = some e' ∧ e ≤ e' := by
  obtain ⟨hlt, he⟩ := List.getElem?_eq_some_iff.mp hj
  have hlt' : j < t.params.length := by rw [← h.params.length_eq]; exact hlt
  refine ⟨t.params[j], List.getElem?_eq_getElem hlt', ?_⟩
  have := (List.forall₂_iff_get.mp h.params).2 j hlt hlt'
  rw [← he]
  exact this

theorem Summary.EffLe.antisymm {s t : Summary} (h : s.EffLe t) (h' : t.EffLe s) :
    s.params = t.params ∧ s.receiver = t.receiver ∧ s.writes = t.writes := by
  refine ⟨?_, ?_, ?_⟩
  · refine List.ext_getElem h.params.length_eq fun i hs ht => ?_
    exact le_antisymm ((List.forall₂_iff_get.mp h.params).2 i hs ht) ((List.forall₂_iff_get.mp h'.params).2 i ht hs)
  · cases hs : s.receiver with
    | none =>
      cases ht : t.receiver with
      | none => rfl
      | some e =>
        obtain ⟨e', he', -⟩ := h'.receiver e ht
        rw [hs] at he'; cases he'
    | some e =>
      obtain ⟨e', he', hle⟩ := h.receiver e hs
      obtain ⟨e'', he'', hle'⟩ := h'.receiver e' he'
      rw [hs] at he''
      cases he''
      rw [he', le_antisymm hle hle']
  · funext k
    exact le_antisymm (h.writes k) (h'.writes k)

section Mono

variable {m : Method Tok} {ms : List (Method Tok)} {solved solved' : Solved}

theorem CoversAll.anti (h : ∀ k, (solved k).returns ⊆ (solved' k).returns) {x : Acc} {tokens : List Tok}
    {e e' : Effect} {kind : WriteKind} (he : e ≤ e') (hc : CoversAll m ms solved' x tokens e' kind) :
    CoversAll m ms solved x tokens e kind :=
  fun r hr => (hc r (roots_mono h tokens hr)).mono he

theorem CoversBody.anti (h : ∀ k, (solved k).Le (solved' k)) {x : Acc} (hc : CoversBody m ms solved' x) :
    CoversBody m ms solved x := by
  have hret : ∀ k, (solved k).returns ⊆ (solved' k).returns := fun k => (h k).returns
  refine ⟨hc.derefs.anti hret le_rfl, ?_, hc.stores.anti hret le_rfl, ?_⟩
  · rintro ⟨kind, target⟩ hw
    have := hc.writes _ hw
    cases kind with
    | static => exact this
    | inst => exact CoversAll.anti hret le_rfl this
    | indirect => exact CoversAll.anti hret le_rfl this
  · intro c hcm
    have := hc.calls c hcm
    unfold CoversCall at this ⊢
    split
    · rename_i hk
      rw [if_pos hk] at this
      exact ⟨fun arg ha => (this.args arg ha).anti hret le_rfl,
        fun tokens ht => (this.receiver tokens ht).anti hret le_rfl, this.writes⟩
    · rename_i hk
      rw [if_neg hk] at this
      refine ⟨fun j e hj => ?_, fun e tokens he ht => ?_, fun k => ((h c.callee).writes k).trans (this.writes k)⟩
      · obtain ⟨e', he', hle⟩ := (h c.callee).param hj
        exact (this.args j e' he').anti hret hle
      · obtain ⟨e', he', hle⟩ := (h c.callee).receiver e he
        exact (this.receiver e' tokens he' ht).anti hret hle

theorem gather_mono (h : ∀ k, (solved k).Le (solved' k)) : gather m ms solved ≤ gather m ms solved' :=
  gather_le_iff.mpr (gather_covers.anti h)

theorem returned_mono (h : ∀ k, (solved k).returns ⊆ (solved' k).returns) :
    returned m ms solved ⊆ returned m ms solved' := by
  unfold returned
  split
  · exact fun _ hr => hr
  · intro r hr
    rw [List.mem_filter] at hr ⊢
    exact ⟨roots_mono h _ hr.1, hr.2⟩

theorem evaluate_effLe (h : ∀ k, (solved k).Le (solved' k)) : (evaluate m ms solved).EffLe (evaluate m ms solved') := by
  unfold evaluate
  split
  · exact (Summary.Le.refl _).toEffLe
  · obtain ⟨hp, hr, hw⟩ := @gather_mono m ms _ _ h
    refine ⟨?_, ?_, hw⟩
    · rw [List.forall₂_map_left_iff, List.forall₂_map_right_iff]
      exact List.forall₂_same.mpr fun i _ => hp i
    · intro e he
      dsimp only at he ⊢
      split at he
      · cases he
        exact ⟨_, by simp [*], hr⟩
      · cases he

end Mono

/-! ## Returned roots in their canonical form -/

theorem Root.text_inj {a b : Root} (h : a.text = b.text) : a = b := by
  have hl := congrArg String.toList h
  cases a with
  | param i =>
    cases b with
    | param j =>
      simp only [Root.text, String.toList_append, List.append_cancel_left_eq, Nat.toString_eq_repr,
        Nat.toList_repr] at hl
      rw [Parsing.digits_inj hl]
    | receiver => simp [Root.text] at hl
    | heap => simp [Root.text] at hl
    | unknown => simp [Root.text] at hl
  | receiver => cases b <;> simp [Root.text] at hl ⊢
  | heap => cases b <;> simp [Root.text] at hl ⊢
  | unknown => cases b <;> simp [Root.text] at hl ⊢

theorem mem_canon {rs : List Root} {r : Root} :
    r ∈ canon rs ↔ (.unknown ∈ rs ∧ r = .unknown) ∨ (.unknown ∉ rs ∧ r ∈ rs) := by
  unfold canon
  split
  · rename_i h; simp [h]
  · rename_i h; simp [h, List.mem_insertionSort]

/-- The canonical list is that of the roots as a set. -/
theorem canon_congr {rs rs' : List Root} (h : ∀ r, r ∈ rs ↔ r ∈ rs') : canon rs = canon rs' := by
  unfold canon
  by_cases hu : Root.unknown ∈ rs
  · rw [if_pos hu, if_pos ((h _).mp hu)]
  · rw [if_neg hu, if_neg (fun hu' => hu ((h _).mpr hu'))]
    refine Sorting.keyed_perm Root.text (fun _ _ _ _ htext => Root.text_inj htext) ?_
    rw [List.perm_ext_iff_of_nodup (List.nodup_dedup _) (List.nodup_dedup _)]
    intro r
    rw [List.mem_dedup, List.mem_dedup, h]

@[simp] theorem canon_nil : canon [] = [] := rfl

@[simp] theorem canon_unknown : canon [.unknown] = [.unknown] := rfl

theorem canon_canon (rs : List Root) : canon (canon rs) = canon rs := by
  by_cases hu : Root.unknown ∈ rs
  · have : canon rs = [.unknown] := by simp [canon, hu]
    rw [this]; simp [canon]
  · exact canon_congr fun r => by rw [mem_canon]; simp [hu]

/-- The roots a summary of `m` may return. -/
def rootsOf (m : Method Tok) : List Root := [.receiver, .heap, .unknown] ++ (List.range m.params.length).map .param

/-- A summary as `evaluate` and `bottom` build one for `m`. -/
structure Shaped (m : Method Tok) (s : Summary) : Prop where
  params : s.params.length = m.params.length
  receiver : s.receiver.isSome = m.receiver
  returns : canon s.returns = s.returns
  bounded : s.returns ⊆ rootsOf m

theorem bottom_shaped (m : Method Tok) : Shaped m (bottom m) := by
  refine ⟨by simp [bottom], ?_, by simp [bottom], by simp [bottom]⟩
  cases h : m.receiver <;> simp [bottom, h]

theorem returned_bounded (m : Method Tok) (ms : List (Method Tok)) (solved : Solved) :
    returned m ms solved ⊆ rootsOf m := by
  unfold returned
  split
  · exact List.nil_subset _
  · intro r hr
    obtain ⟨-, hkeep⟩ := List.mem_filter.mp hr
    cases r with
    | param i =>
      refine List.mem_append_right _ (List.mem_map.mpr ⟨i, List.mem_range.mpr ?_, rfl⟩)
      -- a slot the method does not have reads as inert
      by_contra hi
      simp [Method.inert, List.getElem?_eq_none (Nat.le_of_not_lt hi)] at hkeep
    | receiver => simp [rootsOf]
    | heap => simp [rootsOf]
    | unknown => simp [rootsOf]

theorem canon_bounded {rs : List Root} {m : Method Tok} (h : rs ⊆ rootsOf m) : canon rs ⊆ rootsOf m := by
  intro r hr
  rcases mem_canon.mp hr with ⟨-, rfl⟩ | ⟨-, hr⟩
  · simp [rootsOf]
  · exact h hr

theorem evaluate_returns (m : Method Tok) (ms : List (Method Tok)) (solved : Solved) :
    (evaluate m ms solved).returns =
      if m.unknown ≠ [] then (if m.returnInert then [] else [.unknown]) else canon (returned m ms solved) := by
  unfold evaluate
  split <;> rfl

theorem evaluate_shaped (m : Method Tok) (ms : List (Method Tok)) (solved : Solved) :
    Shaped m (evaluate m ms solved) := by
  refine ⟨?_, ?_, ?_, ?_⟩
  · unfold evaluate
    split <;> simp [opaqueSummary]
  · unfold evaluate
    cases h : m.receiver <;> split <;> simp [opaqueSummary, h]
  · rw [evaluate_returns]
    split
    · split <;> simp
    · exact canon_canon _
  · rw [evaluate_returns]
    split
    · split <;> simp [rootsOf]
    · exact canon_bounded (returned_bounded m ms solved)

theorem Summary.Le.antisymm {m : Method Tok} {s t : Summary} (hs : Shaped m s) (ht : Shaped m t) (h : s.Le t)
    (h' : t.Le s) : s = t := by
  obtain ⟨hp, hr, hw⟩ := h.toEffLe.antisymm h'.toEffLe
  have hret : s.returns = t.returns := by
    rw [← hs.returns, ← ht.returns]
    exact canon_congr fun r => ⟨fun hr => h.returns hr, fun hr => h'.returns hr⟩
  cases s; cases t
  simp_all

theorem bottom_le {m : Method Tok} {s : Summary} (hs : Shaped m s) : (bottom m).Le s := by
  refine ⟨⟨?_, ?_, fun _ => Level.none_le _⟩, fun _ h => absurd h List.not_mem_nil⟩
  · rw [List.forall₂_iff_get]
    refine ⟨by simp [bottom, hs.params], fun i hb hi => ?_⟩
    simp only [bottom, List.get_eq_getElem, List.getElem_map]
    exact Effect.plain_le _
  · intro e he
    have hrec := hs.receiver
    unfold bottom at he
    cases hm : m.receiver with
    | false => rw [hm] at he; simp at he
    | true =>
      rw [hm] at he hrec
      obtain ⟨e', he'⟩ := Option.isSome_iff_exists.mp hrec
      refine ⟨e', he', ?_⟩
      simp only [if_true, Option.some.injEq] at he
      rw [← he]
      exact Effect.plain_le _

end OwnNet.HeapEffects
