/-
  OwnNet.Lang.Lifetimes — the region check: the order the `lifetime` declarations give, its
  cycles, and the objects a subscription holds for longer than they live.

  Proved: `strictlyLonger_iff`: the regions found longer are those of the transitive closure;
  `lifetime_order_exact`: OWN036 is reported for the regions on a cycle, and OWN014 for the
  subscriptions, at any depth, whose source lives strictly longer than the subscriber.
-/

import Mathlib.Data.List.Induction
import Mathlib.Data.List.Dedup
import Mathlib.Data.String.Basic
import OwnNet.Dict
import OwnNet.Graph.Search
import OwnNet.Lang.Module

namespace OwnNet.Lang

/-! ## Subscriptions -/

mutual

/-- `_iter_subscribes`, of one statement: the source and the line of each. -/
def Stmt.subscribes : Stmt → List (String × Int)
  | .subscribe source line => [(source, line)]
  | .if_ _ thenBody elseBody _ => iterSubscribes thenBody ++ iterSubscribes elseBody
  | .while_ _ body _ => iterSubscribes body
  | .borrowBlock _ _ _ body _ => iterSubscribes body
  | _ => []

def iterSubscribes : List Stmt → List (String × Int)
  | [] => []
  | st :: rest => st.subscribes ++ iterSubscribes rest

end

/-- `st` is a statement of `body`, or of a body nested in it. -/
inductive Nested (st : Stmt) : List Stmt → Prop where
  | here {body : List Stmt} : st ∈ body → Nested st body
  | thenBody {body t e : List Stmt} {c : String} {l : Int} : .if_ c t e l ∈ body → Nested st t → Nested st body
  | elseBody {body t e : List Stmt} {c : String} {l : Int} : .if_ c t e l ∈ body → Nested st e → Nested st body
  | loop {body inner : List Stmt} {c : String} {l : Int} : .while_ c inner l ∈ body → Nested st inner → Nested st body
  | borrow {body inner : List Stmt} {o b : String} {k : BorrowKind} {l : Int} : .borrowBlock o b k inner l ∈ body →
      Nested st inner → Nested st body

/-! ## The order of regions -/

/-- The regions `name` is declared directly shorter than. -/
def direct (decls : List LifetimeDecl) (name : String) : List String :=
  (decls.filterMap fun d => if d.name = name then d.longer else none).dedup

/-- `_strictly_longer`, of one region. -/
def strictlyLonger (decls : List LifetimeDecl) (name : String) : List String :=
  Graph.reachable (direct decls) (decls.map LifetimeDecl.name) (direct decls name)

/-- `lifetime a < b;` is declared. -/
def Shorter (decls : List LifetimeDecl) (a b : String) : Prop := ∃ d ∈ decls, d.name = a ∧ d.longer = some b

theorem mem_direct {decls : List LifetimeDecl} {a b : String} : b ∈ direct decls a ↔ Shorter decls a b := by
  simp only [direct, List.mem_dedup, List.mem_filterMap, Shorter]
  constructor
  · rintro ⟨d, hd, h⟩
    split at h
    next e => exact ⟨d, hd, e, h⟩
    next => cases h
  · rintro ⟨d, hd, rfl, h⟩
    exact ⟨d, hd, by rw [if_pos rfl, h]⟩

/-- The regions found longer are those of the transitive closure. -/
theorem strictlyLonger_iff {decls : List LifetimeDecl} {a b : String} :
    b ∈ strictlyLonger decls a ↔ Relation.TransGen (Shorter decls) a b := by
  have huniv : ∀ t, direct decls t ≠ [] → t ∈ decls.map LifetimeDecl.name := by
    intro t ht
    obtain ⟨x, hx⟩ := List.exists_mem_of_ne_nil _ ht
    obtain ⟨d, hd, rfl, -⟩ := mem_direct.mp hx
    exact List.mem_map_of_mem hd
  rw [strictlyLonger, Graph.mem_reachable _ huniv, Relation.TransGen.head'_iff]
  simp only [Graph.Reaches, mem_direct]

/-! ## The check -/

def redefinedLifetimes : List String → List LifetimeDecl → List Diagnostic
  | _, [] => []
  | names, d :: rest =>
    let again : List Diagnostic :=
      if d.name ∈ names then [{ code := .own031, message := s!"lifetime '{d.name}' is already defined", line := d.line }] else []
    again ++ redefinedLifetimes (d.name :: names) rest

def undefinedLifetime (name : String) (line : Int) : Diagnostic :=
  { code := .own030, message := s!"undefined lifetime '{name}'", line := line }

def cyclic (d : LifetimeDecl) : Diagnostic :=
  { code := .own036
    message := s!"lifetime '{d.name}' is part of a cyclic ordering (it ends up strictly longer than itself)"
    line := d.line }

/-- The finding of a subscription to `source`, of lifetime `srcLt`, that holds `fn`'s object, of lifetime `selfLt`. -/
def escape (fn : FnItem) (selfLt srcLt source : String) (line : Int) : Diagnostic :=
  { code := .own014
    message := s!"'{source}' (lifetime '{srcLt}') outlives the captured object '{fn.name}' " ++
      s!"(lifetime '{selfLt}'); the strong subscription promotes '{fn.name}' to '{srcLt}' " ++
      "and it leaks (no release path)"
    line := line
    subject := some s!"{source}#{line}" }

/-- `param_lt`: the declared lifetimes of the parameters, a later one of a name replacing an earlier. -/
def paramLifetimes (names : List String) (params : List ParamDecl) : Dict String String :=
  params.foldl (fun d p =>
    match p.lifetime with
    | none => d
    | some l => if l ∈ names then d.set p.name l else d) Dict.empty

/-- `_check_fn`. -/
def checkFn (names : List String) (longer : String → List String) (fn : FnItem) : List Diagnostic :=
  let own := (fn.lifetime.filter (· ∉ names)).toList.map fun l => undefinedLifetime l fn.line
  let ofParams := fn.params.flatMap fun p => (p.lifetime.filter (· ∉ names)).toList.map fun l => undefinedLifetime l p.line
  let paramLt := paramLifetimes names fn.params
  let escapes := (iterSubscribes fn.body).filterMap fun sub =>
    match fn.lifetime.filter (· ∈ names), paramLt.get? sub.1 with
    | some selfLt, some srcLt => if srcLt ∈ longer selfLt then some (escape fn selfLt srcLt sub.1 sub.2) else none
    | _, _ => none
  own ++ ofParams ++ escapes

def checkLifetimes (mod : Module) : List Diagnostic :=
  let names := mod.lifetimes.map LifetimeDecl.name
  let longer := strictlyLonger mod.lifetimes
  let undefined := mod.lifetimes.flatMap fun d => (d.longer.filter (· ∉ names)).toList.map fun l => undefinedLifetime l d.line
  let cycles := mod.lifetimes.filterMap fun d => if d.name ∈ longer d.name then some (cyclic d) else none
  redefinedLifetimes [] mod.lifetimes ++ undefined ++ cycles ++ mod.functions.flatMap (checkFn names longer)

/-! ## What is nested -/

theorem nested_cons {st a : Stmt} {rest : List Stmt} : Nested st (a :: rest) ↔ Nested st [a] ∨ Nested st rest := by
  have split : ∀ {x : Stmt}, x ∈ a :: rest → x ∈ [a] ∨ x ∈ rest := fun h => by simpa using h
  have join : ∀ {body : List Stmt}, (∀ x ∈ body, x ∈ a :: rest) → Nested st body → Nested st (a :: rest) := by
    intro body hsub h
    cases h with
    | here h => exact .here (hsub _ h)
    | thenBody h hn => exact .thenBody (hsub _ h) hn
    | elseBody h hn => exact .elseBody (hsub _ h) hn
    | loop h hn => exact .loop (hsub _ h) hn
    | borrow h hn => exact .borrow (hsub _ h) hn
  constructor
  · intro h
    cases h with
    | here h => exact (split h).imp .here .here
    | thenBody h hn => exact (split h).imp (.thenBody · hn) (.thenBody · hn)
    | elseBody h hn => exact (split h).imp (.elseBody · hn) (.elseBody · hn)
    | loop h hn => exact (split h).imp (.loop · hn) (.loop · hn)
    | borrow h hn => exact (split h).imp (.borrow · hn) (.borrow · hn)
  · rintro (h | h)
    · exact join (fun x hx => by rw [List.mem_singleton.mp hx]; exact List.mem_cons_self) h
    · exact join (fun x hx => List.mem_cons_of_mem _ hx) h

mutual

theorem Stmt.mem_subscribes {source : String} {line : Int} : ∀ {st : Stmt},
    (source, line) ∈ st.subscribes ↔ Nested (.subscribe source line) [st]
  | .subscribe s l => by
    simp only [Stmt.subscribes, List.mem_singleton]
    constructor
    · intro h
      cases h
      exact .here List.mem_cons_self
    · intro h
      cases h with
      | here h => cases List.mem_singleton.mp h; rfl
      | thenBody h | elseBody h | loop h | borrow h => cases List.mem_singleton.mp h
  | .if_ c t e l => by
    rw [Stmt.subscribes, List.mem_append, mem_iterSubscribes, mem_iterSubscribes]
    constructor
    · rintro (h | h)
      · exact .thenBody List.mem_cons_self h
      · exact .elseBody List.mem_cons_self h
    · intro h
      cases h with
      | here h => cases List.mem_singleton.mp h
      | thenBody h hn => cases List.mem_singleton.mp h; exact Or.inl hn
      | elseBody h hn => cases List.mem_singleton.mp h; exact Or.inr hn
      | loop h | borrow h => cases List.mem_singleton.mp h
  | .while_ c body l => by
    rw [Stmt.subscribes, mem_iterSubscribes]
    constructor
    · exact fun h => .loop List.mem_cons_self h
    · intro h
      cases h with
      | loop h hn => cases List.mem_singleton.mp h; exact hn
      | here h | thenBody h | elseBody h | borrow h => cases List.mem_singleton.mp h
  | .borrowBlock o b k body l => by
    rw [Stmt.subscribes, mem_iterSubscribes]
    constructor
    · exact fun h => .borrow List.mem_cons_self h
    · intro h
      cases h with
      | borrow h hn => cases List.mem_singleton.mp h; exact hn
      | here h | thenBody h | elseBody h | loop h => cases List.mem_singleton.mp h
  | .let_ .. | .release .. | .use .. | .overspan .. | .call .. | .aliasJoin .. | .return_ .. => by
    simp only [Stmt.subscribes, List.not_mem_nil, false_iff]
    intro h
    cases h with
    | here h | thenBody h | elseBody h | loop h | borrow h => cases List.mem_singleton.mp h

/-- Every subscription is met, at any depth. -/
theorem mem_iterSubscribes {source : String} {line : Int} : ∀ {body : List Stmt},
    (source, line) ∈ iterSubscribes body ↔ Nested (.subscribe source line) body
  | [] => by
    simp only [iterSubscribes, List.not_mem_nil, false_iff]
    intro h
    cases h with
    | here h | thenBody h | elseBody h | loop h | borrow h => cases h
  | st :: rest => by
    rw [iterSubscribes, List.mem_append, Stmt.mem_subscribes, mem_iterSubscribes]
    exact nested_cons.symm

end

/-! ## The lifetimes of a function -/

def Declared (mod : Module) (name : String) : Prop := name ∈ mod.lifetimes.map LifetimeDecl.name

/-- `fn`'s parameter `source` is at the declared lifetime `region`; of several of that name the last at a declared one. -/
def SourceAt (mod : Module) (fn : FnItem) (source region : String) : Prop :=
  ∃ before p after, fn.params = before ++ p :: after ∧ p.name = source ∧ p.lifetime = some region ∧ Declared mod region ∧
    ∀ q ∈ after, q.name = source → ∀ l, q.lifetime = some l → ¬ Declared mod l

theorem paramLifetimes_get? {names : List String} {params : List ParamDecl} {source region : String} :
    (paramLifetimes names params).get? source = some region ↔
      ∃ before p after, params = before ++ p :: after ∧ p.name = source ∧ p.lifetime = some region ∧ region ∈ names ∧
        ∀ q ∈ after, q.name = source → ∀ l, q.lifetime = some l → l ∉ names := by
  induction params using List.reverseRecOn with
  | nil =>
    constructor
    · intro h; cases h
    · rintro ⟨before, p, after, h, -⟩
      simp at h
  | append_singleton params q ih =>
    have hstep : paramLifetimes names (params ++ [q]) =
        match q.lifetime with
        | none => paramLifetimes names params
        | some l => if l ∈ names then (paramLifetimes names params).set q.name l else paramLifetimes names params := by
      simp only [paramLifetimes, List.foldl_append, List.foldl_cons, List.foldl_nil]
    -- is the last parameter the one that counts?
    by_cases hq : q.name = source ∧ ∃ l, q.lifetime = some l ∧ l ∈ names
    · obtain ⟨rfl, l, hl, hln⟩ := hq
      simp only [hstep, hl, if_pos hln, Dict.get?_set_self]
      constructor
      · intro h
        cases h
        exact ⟨params, q, [], rfl, rfl, hl, hln, fun x hx => absurd hx List.not_mem_nil⟩
      · rintro ⟨before, p, after, h, hp, hpl, hpn, hafter⟩
        rcases List.eq_nil_or_concat after with rfl | ⟨init, x, rfl⟩
        · obtain ⟨-, e⟩ := List.append_inj' h rfl
          cases e
          rw [← hl, hpl]
        · rw [List.concat_eq_append, ← List.cons_append, ← List.append_assoc] at h
          obtain ⟨-, e⟩ := List.append_inj' h rfl
          cases e
          exact absurd hln (hafter q (by simp) rfl l hl)
    · have hkeep : (paramLifetimes names (params ++ [q])).get? source = (paramLifetimes names params).get? source := by
        rw [hstep]
        split
        next => rfl
        next l hl =>
          split
          next hln => rw [Dict.get?_set_of_ne _ _ fun e => hq ⟨e.symm, l, hl, hln⟩]
          next => rfl
      rw [hkeep, ih]
      constructor
      · rintro ⟨before, p, after, rfl, hp, hpl, hpn, hafter⟩
        refine ⟨before, p, after ++ [q], by simp, hp, hpl, hpn, fun x hx hxn l hl hln => ?_⟩
        rcases List.mem_append.mp hx with hx | hx
        · exact hafter x hx hxn l hl hln
        · rw [List.mem_singleton.mp hx] at hxn hl
          exact hq ⟨hxn, l, hl, hln⟩
      · rintro ⟨before, p, after, h, hp, hpl, hpn, hafter⟩
        rcases List.eq_nil_or_concat after with rfl | ⟨init, x, rfl⟩
        · obtain ⟨-, e⟩ := List.append_inj' h rfl
          cases e
          exact absurd ⟨hp, region, hpl, hpn⟩ hq
        · rw [List.concat_eq_append, ← List.cons_append, ← List.append_assoc] at h
          obtain ⟨e, -⟩ := List.append_inj' h rfl
          exact ⟨before, p, init, e, hp, hpl, hpn, fun x hx => hafter x (by simp [hx])⟩

/-! ## What is reported -/

theorem mem_redefined {x : Diagnostic} : ∀ {decls : List LifetimeDecl} {names : List String},
    x ∈ redefinedLifetimes names decls → x.code = .own031
  | [], _, h => by cases h
  | d :: rest, names, h => by
    rw [redefinedLifetimes] at h
    rcases List.mem_append.mp h with h | h
    · split at h
      · rw [List.mem_singleton.mp h]
      · cases h
    · exact mem_redefined h

theorem undefined_code {ls : List String} {x : Diagnostic} {line : Int}
    (h : x ∈ ls.map fun l => undefinedLifetime l line) : x.code = .own030 := by
  obtain ⟨l, -, rfl⟩ := List.mem_map.mp h
  rfl

theorem mem_checkFn {names : List String} {longer : String → List String} {fn : FnItem} {x : Diagnostic} :
    x ∈ checkFn names longer fn ∧ x.code ≠ .own030 ↔
      ∃ source line, (source, line) ∈ iterSubscribes fn.body ∧ ∃ selfLt srcLt, fn.lifetime = some selfLt ∧ selfLt ∈ names ∧
        (paramLifetimes names fn.params).get? source = some srcLt ∧ srcLt ∈ longer selfLt ∧
        x = escape fn selfLt srcLt source line := by
  simp only [checkFn, List.mem_append, List.mem_filterMap]
  constructor
  · rintro ⟨(h | h) | ⟨⟨source, line⟩, hsub, h⟩, hx⟩
    · exact absurd (undefined_code h) hx
    · obtain ⟨p, -, h⟩ := List.mem_flatMap.mp h
      exact absurd (undefined_code h) hx
    · refine ⟨source, line, hsub, ?_⟩
      split at h
      next selfLt srcLt hself hsrc =>
        obtain ⟨hl, hn⟩ := Option.filter_eq_some_iff.mp hself
        split at h
        next hlonger => exact ⟨selfLt, srcLt, hl, by simpa using hn, hsrc, hlonger, (Option.some.inj h).symm⟩
        next => cases h
      next => cases h
  · rintro ⟨source, line, hsub, selfLt, srcLt, hself, hn, hsrc, hlonger, rfl⟩
    have hfilter : fn.lifetime.filter (fun l => decide (l ∈ names)) = some selfLt :=
      Option.filter_eq_some_iff.mpr ⟨hself, by simpa using hn⟩
    exact ⟨Or.inr ⟨(source, line), hsub, by simp only [hfilter, hsrc, if_pos hlonger]⟩, by simp [escape]⟩

theorem mem_checkLifetimes {mod : Module} {x : Diagnostic} (h31 : x.code ≠ .own031) (h30 : x.code ≠ .own030) :
    x ∈ checkLifetimes mod ↔
      (∃ d ∈ mod.lifetimes, d.name ∈ strictlyLonger mod.lifetimes d.name ∧ x = cyclic d) ∨
      ∃ fn ∈ mod.functions, x ∈ checkFn (mod.lifetimes.map LifetimeDecl.name) (strictlyLonger mod.lifetimes) fn := by
  simp only [checkLifetimes, List.mem_append, List.mem_flatMap, List.mem_filterMap]
  constructor
  · rintro (((h | ⟨d, -, h⟩) | ⟨d, hd, h⟩) | h)
    · exact absurd (mem_redefined h) h31
    · exact absurd (undefined_code h) h30
    · split at h
      next hc => exact Or.inl ⟨d, hd, hc, (Option.some.inj h).symm⟩
      next => cases h
    · exact Or.inr h
  · rintro (⟨d, hd, hc, rfl⟩ | h)
    · exact Or.inl (Or.inr ⟨d, hd, by rw [if_pos hc]⟩)
    · exact Or.inr h

/-- The regions found longer are the transitive closure's; OWN036 is reported of the regions on a cycle, and OWN014 of the
    subscriptions whose source is strictly longer-lived than the subscriber. -/
theorem lifetime_order_exact (mod : Module) :
    (∀ a b, b ∈ strictlyLonger mod.lifetimes a ↔ Relation.TransGen (Shorter mod.lifetimes) a b) ∧
    (∀ x, x ∈ checkLifetimes mod ∧ x.code = .own036 ↔
      ∃ d ∈ mod.lifetimes, Relation.TransGen (Shorter mod.lifetimes) d.name d.name ∧ x = cyclic d) ∧
    ∀ x, x ∈ checkLifetimes mod ∧ x.code = .own014 ↔
      ∃ fn ∈ mod.functions, ∃ source line, Nested (.subscribe source line) fn.body ∧ ∃ selfLt srcLt,
        fn.lifetime = some selfLt ∧ Declared mod selfLt ∧ SourceAt mod fn source srcLt ∧
        Relation.TransGen (Shorter mod.lifetimes) selfLt srcLt ∧ x = escape fn selfLt srcLt source line := by
  refine ⟨fun a b => strictlyLonger_iff, fun x => ?_, fun x => ?_⟩
  · constructor
    · rintro ⟨h, hx⟩
      rcases (mem_checkLifetimes (by simp [hx]) (by simp [hx])).mp h with ⟨d, hd, hc, e⟩ | ⟨fn, -, h⟩
      · exact ⟨d, hd, strictlyLonger_iff.mp hc, e⟩
      · obtain ⟨_, _, _, _, _, _, _, _, _, rfl⟩ := mem_checkFn.mp ⟨h, by simp [hx]⟩
        cases hx
    · rintro ⟨d, hd, hc, rfl⟩
      exact ⟨(mem_checkLifetimes (by simp [cyclic]) (by simp [cyclic])).mpr
        (Or.inl ⟨d, hd, strictlyLonger_iff.mpr hc, rfl⟩), rfl⟩
  · constructor
    · rintro ⟨h, hx⟩
      rcases (mem_checkLifetimes (by simp [hx]) (by simp [hx])).mp h with ⟨d, -, -, rfl⟩ | ⟨fn, hfn, h⟩
      · cases hx
      · obtain ⟨source, line, hsub, selfLt, srcLt, hself, hn, hsrc, hlonger, e⟩ := mem_checkFn.mp ⟨h, by simp [hx]⟩
        exact ⟨fn, hfn, source, line, mem_iterSubscribes.mp hsub, selfLt, srcLt, hself, hn, paramLifetimes_get?.mp hsrc,
          strictlyLonger_iff.mp hlonger, e⟩
    · rintro ⟨fn, hfn, source, line, hsub, selfLt, srcLt, hself, hn, hsrc, hlonger, rfl⟩
      refine ⟨(mem_checkLifetimes (by simp [escape]) (by simp [escape])).mpr (Or.inr ⟨fn, hfn, ?_⟩), rfl⟩
      exact (mem_checkFn.mpr ⟨source, line, mem_iterSubscribes.mpr hsub, selfLt, srcLt, hself, hn,
        paramLifetimes_get?.mpr hsrc, strictlyLonger_iff.mpr hlonger, rfl⟩).1

end OwnNet.Lang
