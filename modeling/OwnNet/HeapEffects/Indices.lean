/-
  OwnNet.HeapEffects.Indices — the evaluation and the site verdict as the code runs them,
  where an index a list does not have raises, and so does a key no record has.

  `Solve` reads such an index as no value. Here each read is its own step, and an accepted
  document takes none of them out of range. Tokens are checked against their method when
  it is loaded; the roots of a callee's summary are read against the call's arguments, so
  what carries the proof is that each iterate's summaries have the shape of their methods
  (`Sized`): a returned `param:<i>` is a parameter of the callee, which a direct call
  passes an argument.

  Proved: `accepted_index_safe`: for an accepted document, at every iterate, no evaluation
  and no site verdict raises, and each gives what `Solve` says.
-/

import OwnNet.Checks
import OwnNet.HeapEffects.Runs

namespace OwnNet.HeapEffects

/-! ## Reads that may raise -/

/-- What may be raised; `unfinished` is no exception of the code's, but a search cut off. -/
inductive Raised where
  | indexError
  | keyError (key : String)
  | unfinished
  deriving DecidableEq, Repr

/-- `xs[i]` -/
def item {α : Type} (xs : List α) (i : Nat) : Except Raised α := Checks.require xs[i]? .indexError

/-- `methods[key]` -/
def record (ms : List (Method Tok)) (key : String) : Except Raised (Method Tok) :=
  Checks.require (byKey ms key) (.keyError key)

/-- `solved[key]`: a summary for each record, and for no other key. -/
def summary (ms : List (Method Tok)) (solved : Solved) (key : String) : Except Raised Summary := do
  let _ ← record ms key
  .ok (solved key)

section Evaluate

variable (m : Method Tok) (ms : List (Method Tok)) (solved : Solved)

/-! ## The roots of a value -/

/-- What one of a callee's return roots adds to the roots, and to the stack. -/
def Raising.passed (c : Call Tok) : Root → Except Raised (List Root × List Tok)
  | .param i => do
    let arg ← item c.args i
    .ok ([], arg)
  | .receiver => .ok ([], c.receiver.getD [.heap])
  | .heap => .ok ([.heap], [])
  | .unknown => .ok ([.unknown], [])

/-- What the search does at a token it has not seen. -/
def Raising.look : Tok → Except Raised (List Root × List Tok)
  | .param i => .ok ([.param i], [])
  | .receiver => .ok ([.receiver], [])
  | .heap => .ok ([.heap], [])
  | .loc i => do
    let sources ← item m.locals i
    .ok ([], sources)
  | .call k => do
    let c ← item m.calls k
    if calleeUnknown ms c then .ok ([.unknown], []) else
    let s ← summary ms solved c.callee
    let ps ← s.returns.mapM (Raising.passed c)
    .ok (ps.flatMap Prod.fst, ps.flatMap Prod.snd)

def Raising.roots (tokens : List Tok) : Except Raised (List Root) := do
  let fuel := tokens.length + Graph.pushes (sources m ms solved) (inner m) []
  let out ← Graph.searchE (Raising.look m ms solved) .unfinished fuel tokens.reverse [] []
  .ok out.dedup

/-! ## The transfer function -/

def Raising.touch (effect : Effect) (kind : WriteKind) (acc : Acc) : Root → Except Raised Acc
  | .param i => do
    let p ← item m.params i
    .ok (if p.2 then acc else { acc with params := Function.update acc.params i (max (acc.params i) effect) })
  | .receiver =>
    -- `receiver[0]`, of a list a static method leaves empty
    if m.receiver then .ok { acc with receiver := max acc.receiver effect } else .error .indexError
  | .heap => .ok (if .borrowMut ≤ effect then acc.raise kind (if effect = .unknown then .unknown else .may) else acc)
  | .unknown => .ok (if .borrowMut ≤ effect then acc.raise kind .unknown else acc)

def Raising.apply (tokens : List Tok) (effect : Effect) (kind : WriteKind) (acc : Acc) : Except Raised Acc := do
  let rs ← Raising.roots m ms solved tokens
  rs.foldlM (Raising.touch m effect kind) acc

def Raising.evalWrite (acc : Acc) (w : WriteKind × List Tok) : Except Raised Acc :=
  match w.1 with
  | .static => .ok (acc.raise .static .may)
  | kind => Raising.apply m ms solved w.2 .borrowMut kind acc

def Raising.applyReceiver (c : Call Tok) (effect : Option Effect) (acc : Acc) : Except Raised Acc :=
  match effect, c.receiver with
  | some effect, some tokens => Raising.apply m ms solved tokens effect .inst acc
  | _, _ => .ok acc

/-- The callee's effect on its parameter, laid on the argument passed there. -/
def Raising.applyArg (c : Call Tok) (acc : Acc) (p : Effect × Nat) : Except Raised Acc := do
  let arg ← item c.args p.2
  Raising.apply m ms solved arg p.1 .inst acc

def Raising.evalCall (acc : Acc) (c : Call Tok) : Except Raised Acc :=
  if calleeUnknown ms c then do
    let acc ← c.args.foldlM (fun acc arg => Raising.apply m ms solved arg .unknown .inst acc) acc
    let acc ← Raising.applyReceiver m ms solved c (some .unknown) acc
    .ok { acc with writes := fun _ => .unknown }
  else do
    let s ← summary ms solved c.callee
    let acc ← s.params.zipIdx.foldlM (Raising.applyArg m ms solved c) acc
    let acc ← Raising.applyReceiver m ms solved c s.receiver acc
    .ok { acc with writes := fun k => max (acc.writes k) (s.writes k) }

def Raising.gather : Except Raised Acc := do
  let acc ← Raising.apply m ms solved m.derefs .borrow .inst Acc.bot
  let acc ← m.writes.foldlM (Raising.evalWrite m ms solved) acc
  let acc ← Raising.apply m ms solved m.stores .mayEscape .inst acc
  m.calls.foldlM (Raising.evalCall m ms solved) acc

/-- The root if the method may return it, and nothing for an inert parameter. -/
def Raising.kept (r : Root) : Except Raised (List Root) :=
  match r with
  | .param i => do
    let p ← item m.params i
    .ok (if p.2 then [] else [r])
  | _ => .ok [r]

def Raising.returned : Except Raised (List Root) :=
  if m.returnInert then .ok []
  else do
    let rs ← Raising.roots m ms solved m.returns
    let kept ← rs.mapM (Raising.kept m)
    .ok kept.flatten

def Raising.evaluate : Except Raised Summary :=
  if m.unknown ≠ [] then .ok (opaqueSummary m)
  else do
    let acc ← Raising.gather m ms solved
    let rs ← Raising.returned m ms solved
    .ok ⟨(List.range m.params.length).map acc.params, if m.receiver then some acc.receiver else none, acc.writes, canon rs⟩

end Evaluate

/-! ## The solver's iterates and the site verdict -/

def Raising.step (ms : List (Method Tok)) (c : Config) : Except Raised Config :=
  match c.comps with
  | [] => .ok c
  | comp :: rest => match c.todo with
    | k :: ks => do
      let m ← record ms k
      let new ← Raising.evaluate m ms c.solved
      let old ← summary ms c.solved k
      .ok (if new = old then { c with todo := ks }
        else { c with todo := ks, changed := true, solved := Function.update c.solved k new })
    | [] => .ok (if c.changed then ⟨comp :: rest, comp, false, c.solved⟩ else .enter rest c.solved)

def Raising.steps (ms : List (Method Tok)) : Nat → Except Raised Config
  | 0 => .ok (start ms)
  | n + 1 => do
    let c ← Raising.steps ms n
    Raising.step ms c

def Raising.callVerdict (ms : List (Method Tok)) (solved : Solved) (c : Call Tok) : Except Raised (Option String) :=
  if c.dispatch ≠ .direct then .ok (some ("'" ++ c.callee ++ "' is " ++ c.dispatch.text))
  else if (byKey ms c.callee).isNone then .ok (some ("'" ++ c.callee ++ "' has no summary"))
  else do
    let s ← summary ms solved c.callee
    .ok ((harmless s).map fun reason => "'" ++ c.callee ++ "': " ++ reason)

/-- The first call that is not proven harmless is the last one read. -/
def Raising.callsVerdict (ms : List (Method Tok)) (solved : Solved) : List (Call Tok) → Except Raised (Option String)
  | [] => .ok none
  | c :: cs => do
    let reason ← Raising.callVerdict ms solved c
    match reason with
    | some reason => .ok (some reason)
    | none => Raising.callsVerdict ms solved cs

def Raising.siteVerdict (ms : List (Method Tok)) (solved : Solved) (site callee : String) : Except Raised (Option String) := do
  let m ← record ms site
  if m.calls.any (fun c => c.callee = callee ∧ c.dispatch = .direct) then
    let reason ← Raising.callsVerdict ms solved m.calls
    match reason with
    | some reason => .ok (some reason)
    | none =>
      let s ← summary ms solved site
      .ok ((harmless s).map fun reason => "the call site: " ++ reason)
  else .ok (some ("the site does not call '" ++ callee ++ "' directly"))

/-! ## The summaries of every iterate have their methods' shapes -/

/-- The summary of every record has as many parameters as it, and returns roots it has. -/
def Sized (ms : List (Method Tok)) (S : Solved) : Prop := ∀ k m, byKey ms k = some m → Shaped m (S k)

theorem initial_sized (ms : List (Method Tok)) : Sized ms (initial ms) := by
  intro k m hm
  simp only [initial, hm]
  exact bottom_shaped m

theorem step_sized {ms : List (Method Tok)} {c : Config} (h : Sized ms c.solved) : Sized ms (step ms c).solved := by
  rcases step_cases ms c with ⟨-, hs⟩ | ⟨_, _, _, _, -, -, -, hs⟩ | ⟨_, _, k, _, -, -, -, hs⟩ | ⟨_, _, -, -, -, hs⟩ |
    ⟨_, _, -, -, -, hs⟩
  · rw [hs]; exact h
  · rw [hs]; exact h
  · rw [hs]
    intro j m hm
    by_cases e : j = k
    · subst e
      simp only [Function.update_self, evalKey_some hm]
      exact evaluate_shaped m ms c.solved
    · simpa only [Function.update_of_ne e] using h j m hm
  · rw [hs]; exact h
  · rw [hs]; exact h

theorem steps_sized (ms : List (Method Tok)) (n : Nat) : Sized ms (steps ms n).solved :=
  steps_inv (P := fun c => Sized ms c.solved) (initial_sized ms) (fun _ => step_sized) n

/-! ## Nothing an accepted document reads is out of range -/

theorem item_ok {α : Type} {xs : List α} {i : Nat} (h : i < xs.length) : item xs i = .ok xs[i] := by
  simp only [item, Checks.require, List.getElem?_eq_getElem h]

/-- Where an index is in range it reads what `Solve` reads. -/
theorem item_getD {α : Type} {xs : List α} {i : Nat} (h : i < xs.length) (d : α) : item xs i = .ok ((xs[i]?).getD d) := by
  rw [item_ok h, List.getElem?_eq_getElem h, Option.getD_some]

theorem inert_eq {m : Method Tok} {i : Nat} (h : i < m.params.length) : m.inert i = m.params[i].2 := by
  simp only [Method.inert, List.getElem?_eq_getElem h, Option.map_some, Option.getD_some]

theorem record_ok {ms : List (Method Tok)} {k : String} {m : Method Tok} (h : byKey ms k = some m) : record ms k = .ok m := by
  simp only [record, h, Checks.require]

theorem summary_ok {ms : List (Method Tok)} {S : Solved} {k : String} {m : Method Tok} (h : byKey ms k = some m) :
    summary ms S k = .ok (S k) := by
  simp only [summary, record_ok h, Checks.ok_bind]

/-- The summary of a call that resolves is the callee's, which takes what the call passes. -/
structure Fits (S : Solved) (c : Call Tok) (callee : Method Tok) : Prop where
  shaped : Shaped callee (S c.callee)
  arity : c.args.length = callee.params.length

theorem resolved_fits {ms : List (Method Tok)} {S : Solved} (ha : Accepted ms) (hS : Sized ms S) {m : Method Tok} (hm : m ∈ ms)
    {c : Call Tok} (hc : c ∈ m.calls) (hk : calleeUnknown ms c = false) :
    ∃ callee, byKey ms c.callee = some callee ∧ Fits S c callee := by
  obtain ⟨hd, callee, hcallee⟩ := resolved_iff.mp hk
  have hfit := ha.arity m hm c hc
  simp only [arityFits, hcallee, hd] at hfit
  exact ⟨callee, hcallee, hS _ _ hcallee, by simpa using hfit⟩

/-- A parameter among the roots a callee returns is an argument of the call. -/
theorem Fits.returned {S : Solved} {c : Call Tok} {callee : Method Tok} (h : Fits S c callee) {i : Nat}
    (hr : .param i ∈ (S c.callee).returns) : i < c.args.length := by
  have := h.shaped.bounded hr
  rw [h.arity]
  simpa [rootsOf] using this

theorem filter_eq_flatMap {α : Type} (p : α → Bool) (l : List α) : (l.flatMap fun a => if p a then [a] else []) = l.filter p := by
  induction l with
  | nil => rfl
  | cons a l ih =>
    rw [List.flatMap_cons, ih, List.filter_cons]
    split <;> rfl

/-- A root of the method's own: a parameter it has, or its receiver. -/
def Method.own (m : Method Tok) : Root → Prop
  | .param i => i < m.params.length
  | .receiver => m.receiver = true
  | .heap => True
  | .unknown => True

/-- A root of a returned value that the summary keeps. -/
def Method.mayReturn (m : Method Tok) : Root → Bool
  | .param i => !m.inert i
  | .receiver => true
  | .heap => true
  | .unknown => true

section Safe

variable {ms : List (Method Tok)} {S : Solved} {m : Method Tok}

theorem passed_ok {c : Call Tok} {callee : Method Tok} (h : Fits S c callee) {r : Root} (hr : r ∈ (S c.callee).returns) :
    Raising.passed c r = .ok (if r = .heap ∨ r = .unknown then [r] else [], passed c r) := by
  cases r with
  | param i =>
    simp only [Raising.passed, item_getD (h.returned hr) []]
    rfl
  | receiver => rfl
  | heap => rfl
  | unknown => rfl

theorem look_ok (ha : Accepted ms) (hS : Sized ms S) (hm : m ∈ ms) {t : Tok} (ht : m.holds t) :
    Raising.look m ms S t = .ok (found m ms S t, sources m ms S t) := by
  cases t with
  | param i => rfl
  | receiver => rfl
  | heap => rfl
  | loc i =>
    have hi : i < m.locals.length := by simpa [Method.holds] using ht
    simp only [Raising.look, item_getD hi []]
    rfl
  | call k =>
    have hk : k < m.calls.length := by simpa [Method.holds] using ht
    have hc : m.calls[k]? = some m.calls[k] := List.getElem?_eq_getElem hk
    rw [sources_call hc, found_call hc]
    simp only [Raising.look, item_ok hk, Checks.ok_bind]
    cases hu : calleeUnknown ms m.calls[k] with
    | true => simp only [if_true]
    | false =>
      obtain ⟨callee, hcallee, hfits⟩ := resolved_fits ha hS hm (List.getElem_mem hk) hu
      have hmap := Checks.mapM_ok fun r hr => passed_ok hfits hr
      simp only [Checks.ok_bind, summary_ok hcallee, hmap, List.flatMap_map, Bool.false_eq_true, if_false]
      have hkeep := filter_eq_flatMap (fun r : Root => decide (r = .heap ∨ r = .unknown)) (S m.calls[k].callee).returns
      simp only [decide_eq_true_eq] at hkeep
      rw [hkeep]

/-- What a token in range pushes is in range. -/
theorem sources_holds (ha : Accepted ms) (hm : m ∈ ms) {t : Tok} : ∀ u ∈ sources m ms S t, m.holds u := by
  have hin := ha.inRange m hm
  intro u hu
  cases t with
  | loc i =>
    cases hl : m.locals[i]? with
    | none => simp [sources, hl] at hu
    | some ts =>
      simp only [sources, hl, Option.getD_some] at hu
      exact hin.locals ts (List.mem_of_getElem? hl) u hu
  | call k =>
    cases hc : m.calls[k]? with
    | none => simp [sources, hc] at hu
    | some c =>
      have hmem := List.mem_of_getElem? hc
      rw [sources_call hc] at hu
      split at hu
      · cases hu
      · obtain ⟨r, -, hu⟩ := List.mem_flatMap.mp hu
        cases r with
        | param i =>
          cases hi : c.args[i]? with
          | none => simp [passed, hi] at hu
          | some arg =>
            simp only [passed, hi, Option.getD_some] at hu
            exact hin.args c hmem arg (List.mem_of_getElem? hi) u hu
        | receiver =>
          cases hr : c.receiver with
          | none =>
            -- the receiver of a construction is the new object
            simp only [passed, hr, Option.getD_none, List.mem_singleton] at hu
            rw [hu]
            rfl
          | some ts =>
            simp only [passed, hr, Option.getD_some] at hu
            exact hin.receivers c hmem ts hr u hu
        | heap => cases hu
        | unknown => cases hu
  | param i => cases hu
  | receiver => cases hu
  | heap => cases hu

theorem roots_ok (ha : Accepted ms) (hS : Sized ms S) (hm : m ∈ ms) {tokens : List Tok} (ht : ∀ t ∈ tokens, m.holds t) :
    Raising.roots m ms S tokens = .ok (roots m ms S tokens) := by
  have hsearch := Graph.searchE_ok (P := fun t => m.holds t) .unfinished sources_inner (fun t ht => look_ok ha hS hm ht)
    (fun t _ => sources_holds ha hm) (tokens.length + Graph.pushes (sources m ms S) (inner m) []) tokens.reverse [] (by simp)
    fun t h => ht t (List.mem_reverse.mp h)
  rw [List.flatMap_nil] at hsearch
  simp only [Raising.roots, hsearch]
  rfl

-- A call that passes nothing to a callee that returns its parameter: `load` refuses it.
example : Raising.roots ⟨"f", "F.cs", 1, false, false, [("x", false)], [], [], [], [], [], [⟨"g", .direct, none, []⟩], []⟩
    [⟨"g", "F.cs", 1, false, false, [("x", false)], [], [], [], [], [.param 0], [], []⟩]
    (fun _ => ⟨[.plain], none, fun _ => .none, [.param 0]⟩) [.call 0] = .error .indexError := by decide

/-- The roots of a value the method has are its own. -/
theorem roots_own (ha : Accepted ms) (hm : m ∈ ms) {tokens : List Tok} (ht : ∀ t ∈ tokens, m.holds t) :
    ∀ r ∈ roots m ms S tokens, m.own r := by
  intro r hr
  obtain ⟨t, htok, u, hw, hr⟩ := mem_roots.mp hr
  have hu : m.holds u := by
    induction hw with
    | refl => exact ht t htok
    | tail _ hs _ => exact sources_holds ha hm _ hs
  cases u with
  | param i =>
    rw [List.mem_singleton.mp hr]
    simpa [Method.own, Method.holds] using hu
  | receiver =>
    rw [List.mem_singleton.mp hr]
    simpa [Method.own, Method.holds] using hu
  | heap =>
    rw [List.mem_singleton.mp hr]
    trivial
  | loc i => cases hr
  | call k =>
    cases hc : m.calls[k]? with
    | none => simp [found, hc] at hr
    | some c =>
      rw [found_call hc] at hr
      split at hr
      · rw [List.mem_singleton.mp hr]
        trivial
      · have hkind : r = .heap ∨ r = .unknown := by simpa using (List.mem_filter.mp hr).2
        rcases hkind with rfl | rfl
        · trivial
        · trivial

theorem touch_ok {effect : Effect} {kind : WriteKind} {acc : Acc} {r : Root} (hr : m.own r) :
    Raising.touch m effect kind acc r = .ok (touch m effect kind acc r) := by
  cases r with
  | param i =>
    have hi : i < m.params.length := hr
    simp only [Raising.touch, touch, item_ok hi, Checks.ok_bind, inert_eq hi]
  | receiver =>
    have hrecv : m.receiver = true := hr
    simp only [Raising.touch, touch, hrecv, if_true]
  | heap => rfl
  | unknown => rfl

theorem apply_ok (ha : Accepted ms) (hS : Sized ms S) (hm : m ∈ ms) {tokens : List Tok} (ht : ∀ t ∈ tokens, m.holds t)
    (effect : Effect) (kind : WriteKind) (acc : Acc) :
    Raising.apply m ms S tokens effect kind acc = .ok (apply m ms S tokens effect kind acc) := by
  simp only [Raising.apply, roots_ok ha hS hm ht, Checks.ok_bind]
  exact Checks.foldlM_ok (fun _ r hr => touch_ok (roots_own ha hm ht r hr)) acc

theorem evalWrite_ok (ha : Accepted ms) (hS : Sized ms S) (hm : m ∈ ms) {w : WriteKind × List Tok}
    (hw : w ∈ m.writes) (acc : Acc) :
    Raising.evalWrite m ms S acc w = .ok (evalWrite m ms S acc w) := by
  have ht := (ha.inRange m hm).writes w hw
  obtain ⟨kind, target⟩ := w
  cases kind with
  | static => rfl
  | inst => exact apply_ok ha hS hm ht _ _ acc
  | indirect => exact apply_ok ha hS hm ht _ _ acc

theorem applyReceiver_ok (ha : Accepted ms) (hS : Sized ms S) (hm : m ∈ ms) {c : Call Tok} (hc : c ∈ m.calls)
    (effect : Option Effect) (acc : Acc) :
    Raising.applyReceiver m ms S c effect acc = .ok (applyReceiver m ms S c effect acc) := by
  cases effect with
  | none => rfl
  | some effect =>
    cases hr : c.receiver with
    | none => simp only [Raising.applyReceiver, applyReceiver, hr]
    | some tokens =>
      simp only [Raising.applyReceiver, applyReceiver, hr]
      exact apply_ok ha hS hm ((ha.inRange m hm).receivers c hc tokens hr) _ _ acc

/-- The summary of a resolved callee has an effect for each argument and no more. -/
theorem applyArg_ok (ha : Accepted ms) (hS : Sized ms S) (hm : m ∈ ms) {c : Call Tok} (hc : c ∈ m.calls) {callee : Method Tok}
    (h : Fits S c callee) {p : Effect × Nat} (hp : p ∈ (S c.callee).params.zipIdx) (acc : Acc) :
    Raising.applyArg m ms S c acc p = .ok (apply m ms S ((c.args[p.2]?).getD []) p.1 .inst acc) := by
  have hlt : p.2 < c.args.length := by
    have := List.snd_lt_of_mem_zipIdx hp
    rw [h.shaped.params] at this
    rw [h.arity]
    omega
  have hmem : (c.args[p.2]?).getD [] ∈ c.args := by simp [hlt]
  simp only [Raising.applyArg, item_getD hlt [], Checks.ok_bind]
  exact apply_ok ha hS hm ((ha.inRange m hm).args c hc _ hmem) _ _ acc

theorem evalCall_ok (ha : Accepted ms) (hS : Sized ms S) (hm : m ∈ ms) {c : Call Tok} (hc : c ∈ m.calls) (acc : Acc) :
    Raising.evalCall m ms S acc c = .ok (evalCall m ms S acc c) := by
  unfold Raising.evalCall evalCall
  cases hu : calleeUnknown ms c with
  | true =>
    have hargs := Checks.foldlM_ok (f := fun acc arg => Raising.apply m ms S arg .unknown .inst acc)
      (fun a arg harg => apply_ok ha hS hm ((ha.inRange m hm).args c hc arg harg) _ _ a) acc
    simp only [if_true, hargs, Checks.ok_bind, applyReceiver_ok ha hS hm hc]
  | false =>
    obtain ⟨callee, hcallee, hfits⟩ := resolved_fits ha hS hm hc hu
    have hargs := Checks.foldlM_ok (fun a p hp => applyArg_ok ha hS hm hc hfits hp a) acc
    simp only [Bool.false_eq_true, if_false, summary_ok hcallee, hargs, Checks.ok_bind, applyReceiver_ok ha hS hm hc]

theorem gather_ok (ha : Accepted ms) (hS : Sized ms S) (hm : m ∈ ms) : Raising.gather m ms S = .ok (gather m ms S) := by
  have hin := ha.inRange m hm
  have hwrites := Checks.foldlM_ok fun a w hw => evalWrite_ok ha hS hm hw a
  have hcalls := Checks.foldlM_ok fun a c hc => evalCall_ok ha hS hm hc a
  simp only [Raising.gather, gather, apply_ok ha hS hm hin.derefs, apply_ok ha hS hm hin.stores, hwrites, hcalls, Checks.ok_bind]

theorem kept_ok {r : Root} (hr : m.own r) : Raising.kept m r = .ok (if m.mayReturn r then [r] else []) := by
  cases r with
  | param i =>
    have hi : i < m.params.length := hr
    simp only [Raising.kept, item_ok hi, Checks.ok_bind, Method.mayReturn, inert_eq hi]
    cases m.params[i].2 with
    | true => rfl
    | false => rfl
  | receiver => rfl
  | heap => rfl
  | unknown => rfl

theorem returned_ok (ha : Accepted ms) (hS : Sized ms S) (hm : m ∈ ms) : Raising.returned m ms S = .ok (returned m ms S) := by
  have ht := (ha.inRange m hm).returns
  unfold Raising.returned returned
  split
  · rfl
  · have hkept := Checks.mapM_ok fun r hr => kept_ok (roots_own (S := S) ha hm ht r hr)
    simp only [roots_ok ha hS hm ht, Checks.ok_bind, hkept]
    rw [← List.flatMap_def, filter_eq_flatMap]
    exact congrArg Except.ok (List.filter_congr fun r _ => by cases r <;> rfl)

/-- An evaluation raises nothing. -/
theorem evaluate_ok (ha : Accepted ms) (hS : Sized ms S) (hm : m ∈ ms) : Raising.evaluate m ms S = .ok (evaluate m ms S) := by
  unfold Raising.evaluate evaluate
  split
  · rfl
  · simp only [gather_ok ha hS hm, returned_ok ha hS hm, Checks.ok_bind]

end Safe

/-! ## Every iterate, every verdict -/

section Runs

variable {ms : List (Method Tok)} {S : Solved}

/-- The sweep evaluates keys of records. -/
theorem Settling.todo {c : Config} (h : Settling ms c) {k : String} (hk : k ∈ c.todo) : ∃ m, byKey ms k = some m := by
  obtain ⟨pre, hpre, -⟩ := h.done
  obtain ⟨passed, hpass, -⟩ := h.sweep
  have hhead : k ∈ c.comps.headD [] := by
    rw [hpass]
    exact List.mem_append_right _ hk
  cases hc : c.comps with
  | nil =>
    rw [hc] at hhead
    cases hhead
  | cons comp rest =>
    rw [hc] at hhead hpre
    rw [← mem_keys, ← mem_sccs, hpre]
    exact List.mem_flatten.mpr ⟨comp, by simp, hhead⟩

theorem step_ok (ha : Accepted ms) {c : Config} (hS : Sized ms c.solved) (hc : Settling ms c) :
    Raising.step ms c = .ok (step ms c) := by
  obtain ⟨comps, todo, changed, S⟩ := c
  cases comps with
  | nil => rfl
  | cons comp rest =>
    cases todo with
    | nil =>
      simp only [Raising.step, step]
    | cons k ks =>
      obtain ⟨m, hm⟩ := hc.todo List.mem_cons_self
      simp only [Raising.step, step, record_ok hm, Checks.ok_bind, evaluate_ok ha hS (byKey_some hm).1,
        summary_ok hm, evalKey_some hm]

theorem steps_ok (ha : Accepted ms) (n : Nat) : Raising.steps ms n = .ok (steps ms n) := by
  induction n with
  | zero => rfl
  | succ n ih =>
    simp only [Raising.steps, ih, Checks.ok_bind]
    exact step_ok ha (steps_sized ms n) (steps_settling ms n)

theorem callVerdict_ok (c : Call Tok) : Raising.callVerdict ms S c = .ok (callVerdict ms S c) := by
  unfold Raising.callVerdict callVerdict
  split
  · rfl
  · cases hk : byKey ms c.callee with
    | none => rfl
    | some callee => simp only [summary_ok hk, Checks.ok_bind, Option.isNone_some, Bool.false_eq_true, if_false]

theorem callsVerdict_ok (cs : List (Call Tok)) : Raising.callsVerdict ms S cs = .ok (callsVerdict ms S cs) := by
  induction cs with
  | nil => rfl
  | cons c cs ih =>
    simp only [Raising.callsVerdict, callsVerdict, callVerdict_ok, Checks.ok_bind]
    cases callVerdict ms S c with
    | none => exact ih
    | some reason => rfl

/-- A verdict on a site that has a record raises nothing. -/
theorem siteVerdict_ok {site : String} {m : Method Tok} (hm : byKey ms site = some m) (callee : String) :
    Raising.siteVerdict ms S site callee = .ok (siteVerdict ms S m callee) := by
  unfold Raising.siteVerdict siteVerdict
  simp only [record_ok hm, Checks.ok_bind, callsVerdict_ok, summary_ok hm, (byKey_some hm).2]
  split
  · cases callsVerdict ms S m.calls with
    | none => rfl
    | some reason => rfl
  · rfl

end Runs

/-- For a document that loads: every step of the solver goes through; at each iterate every
    method's evaluation does, and the verdict on every site that has a record. Each gives
    what it gives where an index out of range reads as no value. -/
theorem accepted_index_safe {doc : Json} {ms : List (Method Tok)} (hl : load doc = .ok ms) :
    (∀ n, Raising.steps ms n = .ok (steps ms n)) ∧
    (∀ n, ∀ m ∈ ms, Raising.evaluate m ms (steps ms n).solved = .ok (evaluate m ms (steps ms n).solved)) ∧
    ∀ n site m callee, byKey ms site = some m →
      Raising.siteVerdict ms (steps ms n).solved site callee = .ok (siteVerdict ms (steps ms n).solved m callee) := by
  have ha := load_accepted hl
  exact ⟨steps_ok ha, fun n m hm => evaluate_ok ha (steps_sized ms n) hm, fun n site m callee hm => siteVerdict_ok hm callee⟩

open Example in
theorem accepted_index_safe_pulse : Raising.steps (methods pulse) 15 = .ok (steps (methods pulse) 15) ∧
    ∃ m, byKey (methods pulse) "b" = some m ∧
      Raising.siteVerdict (methods pulse) (steps (methods pulse) 15).solved "b" "c" =
        .ok (siteVerdict (methods pulse) (steps (methods pulse) 15).solved m "c") := by
  obtain ⟨hsteps, -, hverdict⟩ := @accepted_index_safe pulse (methods pulse) (by decide)
  obtain ⟨m, hm⟩ := Option.isSome_iff_exists.mp (show (byKey (methods pulse) "b").isSome by decide)
  exact ⟨hsteps 15, m, hm, hverdict 15 "b" m "c" hm⟩

end OwnNet.HeapEffects
