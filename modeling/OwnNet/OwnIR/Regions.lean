/-
  OwnNet.OwnIR.Regions — what a call inside an exclusive region does with the locals it is
  handed.

  `callsFlow` has every call the lowering of a body meets, with the state it is met in;
  `Met.slot` says which statement an argument of a call goes into, and where.

  A call whose contract is applied argument by argument gives no statement for a position its
  summary does not have; a call lowered as one statement is dropped by the core, and its
  complaint by the bridge, where the number of arguments is not that of the parameters.

  Proved: `met_lowered`: what a met call is lowered to stands in the body; `slot_lowered`:
  an argument's statement is among what its call is lowered to; `region_calls_iff`: of a
  document that is lowered, every tracked argument of every call in a region takes part with
  an effect exactly if the callee's contract covers its position.
-/

import OwnNet.OwnIR.Module

namespace OwnNet.OwnIR

open Ownership Lang

/-! ## Calls met -/

/-- A call, where it stands, and what the lowering knows there. -/
structure Met where
  ctx : FlowContext
  inRegion : Bool
  position : Option Nat
  fields : Fields
  flow : Flow

section

variable (ctx : FlowContext)

mutual

def callsNode (inRegion : Bool) (position : Option Nat) : Node → Flow → List Met
  | .junk, _ => []
  | .op fields thenOps elseOps bodyOps, s =>
    match opKind fields with
    | .if_ =>
      callsFlow inRegion none thenOps s ++
        match lowerFlow ctx inRegion none thenOps s with
        | .error _ => []
        | .ok (_, s) => callsFlow inRegion none elseOps s
    | .while_ => callsFlow inRegion none bodyOps s
    | .borrowMut =>
      match openRegion ctx fields s with
      | .error _ => []
      | .ok (_, _, _, inner) => callsFlow true none bodyOps inner
    | .call => [⟨ctx, inRegion, position, fields, s⟩]
    | _ => []

/-- The calls the lowering of a body meets, up to where it stops. -/
def callsFlow (inRegion : Bool) (position : Option Nat) : List Node → Flow → List Met
  | [], _ => []
  | n :: rest, s =>
    callsNode inRegion position n s ++
      match lowerNode ctx inRegion position n s with
      | .error _ => []
      | .ok (_, s) => callsFlow inRegion (position.map (· + 1)) rest s

end

end

/-- The calls met in some functions. -/
def callsFns (g : Shared) : List Fn → List (String × FlowLocal) → Nat → List Met
  | [], _, _ => []
  | fn :: rest, handles, loc =>
    (match openFn g fn handles loc with
      | .error _ => []
      | .ok o => callsFlow o.ctx false (some 0) fn.body o.flow) ++
      match lowerFn g fn handles loc with
      | .error _ => []
      | .ok r => callsFns g rest r.flow.handles r.flow.loc

/-- The calls met in a document. -/
def callsOf (facts : Fields) : List Met :=
  callsFns (sharedOf (functionsOf facts) (mosOf (functionsOf facts)).1) (functionsOf facts) [] 0

/-- A statement stands in a body, at any depth. -/
inductive Within (st : Stmt) : List Stmt → Prop where
  | here {body : List Stmt} (h : st ∈ body) : Within st body
  | thenBody {body : List Stmt} {c : String} {t e : List Stmt} {l : Int} (h : .if_ c t e l ∈ body)
    (w : Within st t) : Within st body
  | elseBody {body : List Stmt} {c : String} {t e : List Stmt} {l : Int} (h : .if_ c t e l ∈ body)
    (w : Within st e) : Within st body
  | loop {body : List Stmt} {c : String} {b : List Stmt} {l : Int} (h : .while_ c b l ∈ body) (w : Within st b) : Within st body
  | region {body : List Stmt} {o b : String} {k : BorrowKind} {inner : List Stmt} {l : Int}
    (h : .borrowBlock o b k inner l ∈ body)
      (w : Within st inner) : Within st body

theorem Within.mono {st : Stmt} {a b : List Stmt} (hab : ∀ x ∈ a, x ∈ b) (h : Within st a) : Within st b := by
  cases h with
  | here h => exact .here (hab _ h)
  | thenBody h w => exact .thenBody (hab _ h) w
  | elseBody h w => exact .elseBody (hab _ h) w
  | loop h w => exact .loop (hab _ h) w
  | region h w => exact .region (hab _ h) w

/-- What a call is lowered to, all of it inside a body. -/
def Met.LoweredIn (c : Met) (body : List Stmt) : Prop :=
  ∃ out after, lowerCall c.ctx c.inRegion c.position c.fields c.flow = .ok (out, after) ∧ ∀ st ∈ out, Within st body

theorem Met.LoweredIn.mono {c : Met} {a b : List Stmt} (hab : ∀ st, Within st a → Within st b) (h : c.LoweredIn a) :
    c.LoweredIn b := by
  obtain ⟨out, after, hout, hin⟩ := h
  exact ⟨out, after, hout, fun st hst => hab st (hin st hst)⟩

theorem met_lowered (ctx : FlowContext) :
    (∀ n inRegion position s stmts out, lowerNode ctx inRegion position n s = .ok (stmts, out) →
      ∀ c ∈ callsNode ctx inRegion position n s, c.LoweredIn stmts) ∧
    ∀ ns inRegion position s stmts out, lowerFlow ctx inRegion position ns s = .ok (stmts, out) →
      ∀ c ∈ callsFlow ctx inRegion position ns s, c.LoweredIn stmts := by
  apply Node.induct
  · intro inRegion position s stmts out _ c hc
    rw [callsNode] at hc
    cases hc
  · intro fields t e b ht he hb inRegion position s stmts out h c hc
    rw [lowerNode] at h
    rw [callsNode] at hc
    cases hk : opKind fields with
    | if_ =>
      simp only [hk] at h hc
      cases hthen : lowerFlow ctx inRegion none t s with
      | error err =>
        rw [hthen] at h
        cases h
      | ok r =>
        obtain ⟨thenB, s₁⟩ := r
        simp only [hthen] at h hc
        cases helse : lowerFlow ctx inRegion none e s₁ with
        | error err =>
          rw [helse] at h
          cases h
        | ok r =>
          obtain ⟨elseB, s₂⟩ := r
          rw [helse] at h
          cases h
          rcases List.mem_append.mp hc with hc | hc
          · exact (ht inRegion none s thenB s₁ hthen c hc).mono fun st w => .thenBody List.mem_cons_self w
          · exact (he inRegion none s₁ elseB _ helse c hc).mono fun st w => .elseBody List.mem_cons_self w
    | while_ =>
      simp only [hk] at h hc
      cases hbody : lowerFlow ctx inRegion none b s with
      | error err =>
        rw [hbody] at h
        cases h
      | ok r =>
        obtain ⟨bodyB, s₁⟩ := r
        rw [hbody] at h
        cases h
        exact (hb inRegion none s bodyB _ hbody c hc).mono fun st w => .loop List.mem_cons_self w
    | borrowMut =>
      simp only [hk] at h hc
      cases hopen : openRegion ctx fields s with
      | error err =>
        rw [hopen] at h
        cases h
      | ok r =>
        obtain ⟨owner, binding, symbol, inner⟩ := r
        simp only [hopen] at h hc
        cases hbody : lowerFlow ctx true none b inner with
        | error err =>
          rw [hbody] at h
          cases h
        | ok r =>
          obtain ⟨bodyB, s₁⟩ := r
          rw [hbody] at h
          cases h
          exact (hb true none inner bodyB s₁ hbody c hc).mono fun st w => .region List.mem_cons_self w
    | call =>
      simp only [hk] at h hc
      obtain rfl := List.mem_singleton.mp hc
      exact ⟨stmts, out, h, fun st hst => .here hst⟩
    | _ =>
      simp only [hk] at hc
      cases hc
  · intro inRegion position s stmts out _ c hc
    rw [callsFlow] at hc
    cases hc
  · intro n ns hn hns inRegion position s stmts out h c hc
    rw [lowerFlow] at h
    rw [callsFlow] at hc
    cases hnode : lowerNode ctx inRegion position n s with
    | error err =>
      rw [hnode] at h
      cases h
    | ok r =>
      obtain ⟨first, s₁⟩ := r
      simp only [hnode] at h hc
      cases hrest : lowerFlow ctx inRegion (position.map (· + 1)) ns s₁ with
      | error err =>
        rw [hrest] at h
        cases h
      | ok r =>
        obtain ⟨more, s₂⟩ := r
        rw [hrest] at h
        cases h
        rcases List.mem_append.mp hc with hc | hc
        · exact (hn inRegion position s first s₁ hnode c hc).mono fun st w => w.mono fun x hx => List.mem_append_left _ hx
        · exact (hns inRegion _ s₁ more _ hrest c hc).mono fun st w => w.mono fun x hx => List.mem_append_right _ hx

theorem calls_ctx (ctx : FlowContext) :
    (∀ n inRegion position s, ∀ c ∈ callsNode ctx inRegion position n s, c.ctx = ctx) ∧
    ∀ ns inRegion position s, ∀ c ∈ callsFlow ctx inRegion position ns s, c.ctx = ctx := by
  apply Node.induct
  · intro inRegion position s c hc
    rw [callsNode] at hc
    cases hc
  · intro fields t e b ht he hb inRegion position s c hc
    rw [callsNode] at hc
    split at hc
    next =>
      rcases List.mem_append.mp hc with hc | hc
      · exact ht inRegion none s c hc
      · split at hc
        · cases hc
        · exact he inRegion none _ c hc
    next => exact hb inRegion none s c hc
    next =>
      split at hc
      · cases hc
      · exact hb true none _ c hc
    next => rw [List.mem_singleton.mp hc]
    next => cases hc
  · intro inRegion position s c hc
    rw [callsFlow] at hc
    cases hc
  · intro n ns hn hns inRegion position s c hc
    rw [callsFlow] at hc
    rcases List.mem_append.mp hc with hc | hc
    · exact hn inRegion position s c hc
    · split at hc
      · cases hc
      · exact hns inRegion _ _ c hc

/-- A call in a region is met only where the body has one. -/
theorem calls_region (ctx : FlowContext) :
    (∀ n position s, ∀ c ∈ callsNode ctx false position n s, c.inRegion = true → hasRegionNode n = true) ∧
    ∀ ns position s, ∀ c ∈ callsFlow ctx false position ns s, c.inRegion = true → hasRegion ns = true := by
  apply Node.induct
  · intro position s c hc
    rw [callsNode] at hc
    cases hc
  · intro fields t e b ht he hb position s c hc hr
    rw [callsNode] at hc
    rw [hasRegionNode]
    split at hc
    next hk =>
      simp only [hk, Bool.or_eq_true]
      rcases List.mem_append.mp hc with hc | hc
      · exact Or.inl (ht none s c hc hr)
      · split at hc
        · cases hc
        · exact Or.inr (he none _ c hc hr)
    next hk =>
      simp only [hk]
      exact hb none s c hc hr
    next hk => simp only [hk]
    next =>
      rw [List.mem_singleton.mp hc] at hr
      cases hr
    next => cases hc
  · intro position s c hc
    rw [callsFlow] at hc
    cases hc
  · intro n ns hn hns position s c hc hr
    rw [callsFlow] at hc
    rw [hasRegion, Bool.or_eq_true]
    rcases List.mem_append.mp hc with hc | hc
    · exact Or.inl (hn position s c hc hr)
    · split at hc
      · cases hc
      · exact Or.inr (hns _ _ c hc hr)

/-- A function with a region leaves nothing untracked. -/
theorem openFn_untracked {g : Shared} {fn : Fn} {handles : List (String × FlowLocal)} {loc : Nat} {o : Opened}
    (h : openFn g fn handles loc = .ok o) (hr : hasRegion fn.body = true) : o.ctx.untracked = [] := by
  unfold openFn at h
  simp only [if_pos hr] at h
  split at h
  next => cases h
  next hnone =>
    have hempty : unverifiedCalls g.mos (flat (inlineRegions fn.body)) = [] := List.head?_eq_none_iff.mp hnone
    split at h
    next => cases h
    next =>
      cases h
      unfold flowContext
      rw [hempty]
      rfl

/-- A met call of lowered functions, in the body it is met in. -/
theorem callsFns_lowered {g : Shared} {fns : List Fn} {handles : List (String × FlowLocal)} {loc : Nat}
    {r : List Decl × List Advisory × List (String × FlowLocal)} (h : lowerFns g fns handles loc = .ok r) {c : Met}
    (hc : c ∈ callsFns g fns handles loc) :
    (∃ d ∈ r.1, c.LoweredIn d.fn.body) ∧ (c.inRegion = true → c.ctx.untracked = []) := by
  induction fns generalizing handles loc r with
  | nil => cases hc
  | cons fn rest ih =>
    rw [lowerFns] at h
    rw [callsFns] at hc
    cases hfn : lowerFn g fn handles loc with
    | error e =>
      rw [hfn] at h
      cases h
    | ok lowered =>
      simp only [hfn] at h hc
      cases hrest : lowerFns g rest lowered.flow.handles lowered.flow.loc with
      | error e =>
        rw [hrest] at h
        cases h
      | ok more =>
        rw [hrest] at h
        cases h
        rcases List.mem_append.mp hc with hmet | hmet
        · unfold lowerFn at hfn
          cases hopen : openFn g fn handles loc with
          | error e =>
            rw [hopen] at hmet
            cases hmet
          | ok o =>
            simp only [hopen] at hfn hmet
            cases hbody : lowerFlow o.ctx false (some 0) fn.body o.flow with
            | error e =>
              rw [hbody] at hfn
              cases hfn
            | ok out =>
              obtain ⟨body, s⟩ := out
              rw [hbody] at hfn
              cases hfn
              constructor
              · refine ⟨_, List.mem_cons_self, ?_⟩
                exact ((met_lowered o.ctx).2 fn.body false _ _ body s hbody c hmet).mono fun st w =>
                  w.mono fun x hx => List.mem_append_right _ hx
              · intro hr
                rw [(calls_ctx o.ctx).2 fn.body false _ _ c hmet]
                exact openFn_untracked hopen ((calls_region o.ctx).2 fn.body _ _ c hmet hr)
        · obtain ⟨⟨d, hd, hin⟩, hun⟩ := ih hrest hmet
          exact ⟨⟨d, List.mem_cons_of_mem _ hd, hin⟩, hun⟩

/-! ## Where an argument goes -/

namespace Met

variable (c : Met)

def args : List Json := (argsOf c.fields).getD []

/-- The summary a call is routed by, argument by argument. -/
def routedBy : Option MethodSummary :=
  (mosLookup c.ctx.mos (calleeOf c.fields) (sigOf c.fields)).filter (routed c.ctx c.fields)

/-- An argument, by its position. -/
def arg (j : Nat) (a : Json) : Prop := (a, j) ∈ c.args.zipIdx

/-- The handle of an argument that is tracked. -/
def handleOf (a : Json) : Option String := c.flow.localmap.get? (str a)

/-- Whether a call can be lowered as one statement. -/
def resolvable : Bool :=
  calleeOf c.fields ≠ "" ∧
    ((c.ctx.mos.get? (calleeOf c.fields)).isSome ∨ calleeOf c.fields ∈ sinkExterns.map Prod.fst)

/-- The callee and the arguments of the statement an argument goes into, and its place among them. -/
def slot (j : Nat) (a : Json) : Option (String × List Expr × Nat) :=
  let line := lineOf c.fields
  match c.routedBy with
  | some m =>
    match channelAt m j with
    | some channel => if str a ∈ c.ctx.untracked then none else some (channel, [.varRef (c.flow.refer (str a)) line], 0)
    | none => none
  | none =>
    if c.resolvable then some (calleeOf c.fields, c.args.map fun a => .varRef (c.flow.refer (str a)) line, j) else none

/-- The statement an argument goes into is among those its call is lowered to. -/
theorem slot_lowered {j : Nat} {a : Json} (ha : c.arg j a) {callee : String} {args : List Expr} {i : Nat}
    (hs : c.slot j a = some (callee, args, i)) {out : List Stmt} {after : Flow}
    (h : lowerCall c.ctx c.inRegion c.position c.fields c.flow = .ok (out, after)) :
    .call callee args (lineOf c.fields) ∈ out := by
  unfold lowerCall at h
  cases hcon : contractStmts c.ctx c.inRegion c.fields c.flow with
  | error e =>
    rw [hcon] at h
    cases h
  | ok contract =>
    rw [hcon] at h
    cases h
    refine List.mem_append_left _ (List.mem_append_left _ ?_)
    unfold contractStmts at hcon
    unfold arg Met.args at ha
    cases hargs : argsOf c.fields with
    | none =>
      rw [hargs] at ha
      cases ha
    | some xs =>
      rw [hargs, Option.getD_some] at ha
      simp only [hargs] at hcon
      unfold slot routedBy at hs
      cases hm : (mosLookup c.ctx.mos (calleeOf c.fields) (sigOf c.fields)).filter (routed c.ctx c.fields) with
      | some m =>
        simp only [hm] at hs hcon
        cases hcon
        refine List.mem_filterMap.mpr ⟨(a, j), ha, ?_⟩
        cases hch : channelAt m j with
        | none =>
          rw [hch] at hs
          cases hs
        | some channel =>
          simp only [hch] at hs ⊢
          split at hs
          next => cases hs
          next hun =>
            cases hs
            rw [if_neg hun]
      | none =>
        simp only [hm] at hs hcon
        split at hs
        next hres =>
          cases hs
          unfold resolvable at hres
          rw [if_pos (of_decide_eq_true hres)] at hcon
          have hself : c.args = xs := by
            unfold Met.args
            rw [hargs]
            rfl
          rw [hself]
          split at hcon
          · cases hcon
          · cases hcon
            exact List.mem_singleton_self _
        next => cases hs

end Met

/-! ## Effects -/

/-- Whether a signature of `n` parameters has an effect at a place. -/
def hasEffect (effects : Option (List Effect)) (n i : Nat) : Bool :=
  match effects with
  | none => false
  | some effects => effects.length = n ∧ (effects[i]?).any fun eff => eff ≠ .plain

/-- An argument takes part, with an effect: in a statement of some function, at a place the
    signature of the statement's callee has an effect for. -/
def Met.TakesPart (m : Module) (c : Met) (j : Nat) (a : Json) : Prop :=
  ∃ callee args i handle, c.slot j a = some (callee, args, i) ∧
    (∃ d ∈ m.functions, Within (.call callee args (lineOf c.fields)) d.fn.body) ∧
    c.handleOf a = some handle ∧ args[i]? = some (.varRef handle (lineOf c.fields)) ∧
    hasEffect (entry m.signatures callee) args.length i = true

/-- The contract a call is lowered by covers a position: the summary it is routed by knows what
    becomes of that argument, or the callee has as many parameters as the call has arguments,
    and an effect for that one. -/
def Met.covered (m : Module) (c : Met) (j : Nat) : Bool :=
  match c.routedBy with
  | some sm => (channelAt sm j).any fun channel => hasEffect (entry m.signatures channel) 1 0
  | none => hasEffect (entry m.signatures (calleeOf c.fields)) c.args.length j

/-- In a region a call that is not refused has a contract for the tracked locals it is handed. -/
theorem resolvable_of_lowered {c : Met} {j : Nat} {a : Json} (ha : c.arg j a) (hr : c.inRegion = true)
    (hh : (c.handleOf a).isSome = true) (hm : c.routedBy = none) {out : List Stmt} {after : Flow}
    (h : lowerCall c.ctx c.inRegion c.position c.fields c.flow = .ok (out, after)) : c.resolvable = true := by
  by_contra hres
  have hres' : ¬(calleeOf c.fields ≠ "" ∧
      ((c.ctx.mos.get? (calleeOf c.fields)).isSome ∨ calleeOf c.fields ∈ sinkExterns.map Prod.fst)) := by
    intro hyes
    exact hres (decide_eq_true hyes)
  unfold lowerCall at h
  have hfail : ∃ e, contractStmts c.ctx c.inRegion c.fields c.flow = .error e := by
    unfold contractStmts
    unfold Met.arg Met.args at ha
    cases hargs : argsOf c.fields with
    | none =>
      rw [hargs] at ha
      cases ha
    | some xs =>
      rw [hargs, Option.getD_some] at ha
      unfold Met.routedBy at hm
      simp only [hm, if_neg hres', if_pos hr]
      have hfound : (xs.find? fun a => (c.flow.localmap.get? (str a)).isSome).isSome = true := by
        rw [List.find?_isSome]
        exact ⟨a, List.fst_mem_of_mem_zipIdx ha, hh⟩
      obtain ⟨x, hx⟩ := Option.isSome_iff_exists.mp hfound
      rw [hx]
      exact ⟨_, rfl⟩
  obtain ⟨e, he⟩ := hfail
  rw [he] at h
  cases h

/-! ## Taking part -/

theorem takesPart_iff {m : Module} {c : Met} {d : Decl} (hd : d ∈ m.functions) (hin : c.LoweredIn d.fn.body)
    (hr : c.inRegion = true) (hun : c.ctx.untracked = []) {j : Nat} {a : Json} (ha : c.arg j a)
    (hh : (c.handleOf a).isSome = true) : c.TakesPart m j a ↔ c.covered m j = true := by
  obtain ⟨out, after, hout, hwithin⟩ := hin
  obtain ⟨handle, hhandle⟩ := Option.isSome_iff_exists.mp hh
  have hrefer : c.flow.refer (str a) = handle := by
    unfold Flow.refer
    unfold Met.handleOf at hhandle
    rw [hhandle]
    rfl
  unfold Met.covered
  cases hm : c.routedBy with
  | some sm =>
    simp only
    constructor
    · rintro ⟨callee, args, i, h', hslot, -, -, -, heff⟩
      unfold Met.slot at hslot
      simp only [hm] at hslot
      cases hch : channelAt sm j with
      | none =>
        rw [hch] at hslot
        cases hslot
      | some channel =>
        simp only [hch, hun, List.not_mem_nil, if_false] at hslot
        cases hslot
        exact heff
    · intro hcov
      obtain ⟨channel, hch, heff⟩ := (Option.any_eq_true _ _).mp hcov
      have hslot : c.slot j a = some (channel, [.varRef handle (lineOf c.fields)], 0) := by
        unfold Met.slot
        simp only [hm, hch, hun, List.not_mem_nil, if_false, hrefer]
      exact ⟨channel, _, 0, handle, hslot, ⟨d, hd, hwithin _ (c.slot_lowered ha hslot hout)⟩, hhandle, rfl, heff⟩
  | none =>
    simp only
    have hres := resolvable_of_lowered ha hr hh hm hout
    have hslot : c.slot j a = some (calleeOf c.fields,
        c.args.map fun a => .varRef (c.flow.refer (str a)) (lineOf c.fields), j) := by
      unfold Met.slot
      simp only [hm, hres, if_true]
    have hget : c.args[j]? = some a := List.mem_zipIdx_iff_getElem?.mp ha
    constructor
    · rintro ⟨callee, args, i, h', hslot', -, -, -, heff⟩
      rw [hslot] at hslot'
      cases hslot'
      rwa [List.length_map] at heff
    · intro heff
      refine ⟨_, _, j, handle, hslot, ⟨d, hd, hwithin _ (c.slot_lowered ha hslot hout)⟩, hhandle, ?_, ?_⟩
      · rw [List.getElem?_map, hget, Option.map_some, hrefer]
      · rwa [List.length_map]

theorem callsOf_lowered {fuel : Nat} {facts : Fields} {L : Lowered} (h : toModule fuel facts = some (.ok L)) {c : Met}
    (hc : c ∈ callsOf facts) :
    (∃ d ∈ L.module.functions, c.LoweredIn d.fn.body) ∧ (c.inRegion = true → c.ctx.untracked = []) := by
  unfold toModule at h
  cases hadm : admitProvenCalls fuel facts with
  | none =>
    rw [hadm] at h
    cases h
  | some admitted =>
    rw [hadm, Option.map_some] at h
    cases admitted with
    | error e => cases h
    | ok =>
      have hlow := Option.some.inj h
      simp only at hlow
      unfold lowerFacts at hlow
      cases hcomp : componentsOf facts with
      | error e =>
        rw [hcomp] at hlow
        cases hlow
      | ok comps =>
        obtain ⟨components, subs⟩ := comps
        simp only [hcomp] at hlow
        cases hfns : lowerFns (sharedOf (functionsOf facts) (mosOf (functionsOf facts)).1) (functionsOf facts) [] 0 with
        | error e =>
          rw [hfns] at hlow
          cases hlow
        | ok r =>
          rw [hfns] at hlow
          cases hlow
          obtain ⟨⟨d, hd, hin⟩, hun⟩ := callsFns_lowered hfns hc
          exact ⟨⟨d, List.mem_append_right _ hd, hin⟩, hun⟩

/-- Of a document that is lowered, every tracked argument of every call in a region takes part
    with an effect exactly if the contract of its call covers it. -/
theorem region_calls_iff {fuel : Nat} {facts : Fields} {L : Lowered} (h : toModule fuel facts = some (.ok L)) :
    (∀ c ∈ callsOf facts, c.inRegion = true → ∀ j a, c.arg j a → (c.handleOf a).isSome = true → c.TakesPart L.module j a) ↔
      ∀ c ∈ callsOf facts, c.inRegion = true → ∀ j a, c.arg j a → (c.handleOf a).isSome = true →
        c.covered L.module j = true := by
  refine forall₂_congr fun c hc => forall_congr' fun hr => forall₂_congr fun j a => forall₂_congr fun ha hh => ?_
  obtain ⟨⟨d, hd, hin⟩, hun⟩ := callsOf_lowered h hc
  exact takesPart_iff hd hin hr (hun hr) ha hh

namespace Example

def op (kind : String) (fields : Fields) : Json := .obj (("op", .str kind) :: fields)

/-- A method that hands a local to `F` inside a region; and `F`, with parameters of some effects. -/
def handing (effects : List String) : Fields :=
  [("functions", .arr [
    .obj [("name", .str "F"), ("params", .arr (effects.map fun e => .obj [("name", .str e), ("effect", .str e)]))],
    .obj [("name", .str "M"), ("body", .arr [
      op "acquire" [("var", .str "x")],
      op "borrow_mut" [("owner", .str "x"), ("binding", .str "b"),
        ("body", .arr [op "call" [("callee", .str "F"), ("args", .arr [.str "b"])]])],
      op "release" [("var", .str "x")]])]])]

/-- Whether every tracked argument of a call in a region is covered. -/
def allCovered (L : Lowered) (facts : Fields) : Bool :=
  (callsOf facts).all fun c => !c.inRegion || c.args.zipIdx.all fun a => !(c.handleOf a.1).isSome || c.covered L.module a.2

def check (p : Lowered → Bool) (facts : Fields) : Bool :=
  match toModule 0 facts with
  | some (.ok L) => p L
  | _ => false

theorem check_iff {p : Lowered → Bool} {facts : Fields} (h : check p facts = true) :
    ∃ L, toModule 0 facts = some (.ok L) ∧ p L = true := by
  unfold check at h
  split at h
  next L hL => exact ⟨L, hL, h⟩
  next => cases h

end Example

open Example in
set_option maxRecDepth 8000 in
theorem region_calls_borrowed : ∃ L, toModule 0 (handing ["borrow"]) = some (.ok L) ∧ ∀ c ∈ callsOf (handing ["borrow"]),
    c.inRegion = true → ∀ j a, c.arg j a → (c.handleOf a).isSome = true → c.TakesPart L.module j a := by
  have hcheck : check (allCovered · (handing ["borrow"])) (handing ["borrow"]) = true := by decide +kernel
  obtain ⟨L, hL, hall⟩ := check_iff hcheck
  refine ⟨L, hL, (region_calls_iff hL).mpr fun c hc hr j a ha hh => ?_⟩
  have hargs := List.all_eq_true.mp hall c hc
  rw [hr, Bool.not_true, Bool.false_or] at hargs
  have hcov := List.all_eq_true.mp hargs (a, j) ha
  simpa [hh] using hcov

open Example in
set_option maxRecDepth 8000 in
/-- A call of one argument to a method of two parameters that consume. -/
theorem region_call_dropped : ∃ L, toModule 0 (handing ["consume", "consume"]) = some (.ok L) ∧
    ∃ c ∈ callsOf (handing ["consume", "consume"]), c.inRegion = true ∧
      ∃ j a, c.arg j a ∧ (c.handleOf a).isSome = true ∧ ¬c.TakesPart L.module j a := by
  have hcheck : check (fun L => !allCovered L (handing ["consume", "consume"])) (handing ["consume", "consume"]) = true := by
    decide +kernel
  obtain ⟨L, hL, hno⟩ := check_iff hcheck
  refine ⟨L, hL, ?_⟩
  unfold allCovered at hno
  rw [Bool.not_eq_true', List.all_eq_false] at hno
  obtain ⟨c, hc, hbad⟩ := hno
  rw [Bool.not_eq_true, Bool.or_eq_false_iff, List.all_eq_false] at hbad
  obtain ⟨hr, ⟨a, j⟩, ha, hcov⟩ := hbad
  rw [Bool.not_eq_true, Bool.or_eq_false_iff] at hcov
  have hr' : c.inRegion = true := by simpa using hr
  have hh : (c.handleOf a).isSome = true := by simpa using hcov.1
  refine ⟨c, hc, hr', j, a, ha, hh, fun htakes => ?_⟩
  obtain ⟨⟨d, hd, hin⟩, hun⟩ := callsOf_lowered hL hc
  have := (takesPart_iff hd hin hr' (hun hr') ha hh).mp htakes
  rw [hcov.2] at this
  cases this

end OwnNet.OwnIR
