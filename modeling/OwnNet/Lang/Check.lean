/-
  OwnNet.Lang.Check — the pipeline over a module: what its functions are resolved against, and all
  that is reported of it.

  Proved: `checkModule_nil`: nothing is reported of a module exactly where nothing is of its
  policies, its lifetimes, and of each function as it is lowered and analysed.
-/

import OwnNet.Dict.Grouped
import OwnNet.Lang.Analysis
import OwnNet.Lang.Lifetimes

namespace OwnNet.Lang

def Code.text : Code → String
  | own001 => "OWN001"
  | own002 => "OWN002"
  | own003 => "OWN003"
  | own004 => "OWN004"
  | own005 => "OWN005"
  | own006 => "OWN006"
  | own007 => "OWN007"
  | own008 => "OWN008"
  | own009 => "OWN009"
  | own010 => "OWN010"
  | own011 => "OWN011"
  | own012 => "OWN012"
  | own013 => "OWN013"
  | own014 => "OWN014"
  | own015 => "OWN015"
  | own016 => "OWN016"
  | own017 => "OWN017"
  | own018 => "OWN018"
  | own019 => "OWN019"
  | own021 => "OWN021"
  | own023 => "OWN023"
  | own024 => "OWN024"
  | own025 => "OWN025"
  | own030 => "OWN030"
  | own031 => "OWN031"
  | own032 => "OWN032"
  | own033 => "OWN033"
  | own034 => "OWN034"
  | own035 => "OWN035"
  | own036 => "OWN036"
  | own040 => "OWN040"
  | own041 => "OWN041"

namespace Module

variable (mod : Module)

def resourceNames : List String := mod.resources.map ResourceDecl.name

/-- The effect a function has on an argument, by its parameter. -/
def effect (p : ParamDecl) : Effect :=
  if p.type.borrowed ∧ p.type.mutable then .borrowMut
  else if p.type.borrowed then .borrow
  else if p.type.name ∈ mod.resourceNames then .consume
  else .plain

/-- `collect_signatures`: a function stands before an extern of its name. -/
def signatures : List (String × List Effect) :=
  (Dict.latest Prod.fst (mod.externs.map (fun e => (e.name, e.params.map EffectParam.effect)) ++
    mod.functions.map fun fn => (fn.name, fn.params.map mod.effect))).map Prod.snd

def policyTable : List (String × Policy) := Dict.latest Policy.name mod.policies

/-- `collect_kinds`, of the resources that have one. -/
def kinds : List (String × String) :=
  (Dict.latest Prod.fst (mod.resources.filterMap fun r => (r.kind.filter (· ≠ "")).map fun k => (r.name, k))).map Prod.snd

def env : Env :=
  { resourceNames := mod.resourceNames, signatures := mod.signatures, policies := mod.policyTable, resourceKinds := mod.kinds }

end Module

def checkFunction (n : Nat) (env : Env) (fn : FnDecl) : Except Stuck (List Diagnostic) :=
  let r := buildCfg env fn
  (r.1.analyze n).map (r.2 ++ ·)

def reportedBefore (a b : Diagnostic) : Prop := a.line < b.line ∨ (a.line = b.line ∧ a.code.text ≤ b.code.text)

instance : DecidableRel reportedBefore := fun _ _ => inferInstanceAs (Decidable (_ ∨ _))

/-- `check_module`, in at most `n` visits of a block a function. -/
def checkModule (n : Nat) (mod : Module) : Except Stuck (List Diagnostic) :=
  (mod.functions.mapM fun fn => checkFunction n mod.env fn.decl).map fun ds =>
    (validatePolicies mod.policyTable ++ checkLifetimes mod ++ ds.flatten).insertionSort reportedBefore

theorem checkFunction_nil {n : Nat} {env : Env} {fn : FnDecl} :
    checkFunction n env fn = .ok [] ↔ (buildCfg env fn).2 = [] ∧ (buildCfg env fn).1.analyze n = .ok [] := by
  unfold checkFunction
  dsimp only
  cases (buildCfg env fn).1.analyze n with
  | error e => simp [Except.map]
  | ok ds => simp [Except.map]

theorem mapM_flatten_nil {α β ε : Type} {f : α → Except ε (List β)} {l : List α} :
    (∃ dss, l.mapM f = .ok dss ∧ dss.flatten = []) ↔ ∀ x ∈ l, f x = .ok [] := by
  induction l with
  | nil => simp [pure, Except.pure]
  | cons x rest ih =>
    rw [List.mapM_cons, List.forall_mem_cons, ← ih]
    cases f x with
    | error e => simp [bind, Except.bind]
    | ok ds =>
      cases rest.mapM f with
      | error e => simp [bind, Except.bind]
      | ok more => simp [bind, Except.bind, pure, Except.pure]

theorem checkModule_nil {n : Nat} {mod : Module} : checkModule n mod = .ok [] ↔
    validatePolicies mod.policyTable = [] ∧ checkLifetimes mod = [] ∧
      ∀ fn ∈ mod.functions, (buildCfg mod.env fn.decl).2 = [] ∧ (buildCfg mod.env fn.decl).1.analyze n = .ok [] := by
  have hfunctions := mapM_flatten_nil (f := fun fn : FnItem => checkFunction n mod.env fn.decl) (l := mod.functions)
  simp only [checkFunction_nil] at hfunctions
  rw [← hfunctions, checkModule]
  cases mod.functions.mapM fun fn => checkFunction n mod.env fn.decl with
  | error e => simp [Except.map]
  | ok dss =>
    have hsort : ∀ l : List Diagnostic, l.insertionSort reportedBefore = [] ↔ l = [] := fun l => by
      rw [← List.length_eq_zero_iff, List.length_insertionSort, List.length_eq_zero_iff]
    simp only [Except.map, Except.ok.injEq, hsort, List.append_eq_nil_iff, exists_eq_left', and_assoc]

end OwnNet.Lang
