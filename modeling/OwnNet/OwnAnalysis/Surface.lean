/-
  OwnNet.OwnAnalysis.Surface — the whole check of a module, by the crate and by the checker it is
  a port of. The crate reports what lowering found of all functions before what the analysis did,
  the checker function by function, and both then sort by line and code. Functions may share a
  line, and codes are shared between lowering and analysis; but what is so tied says the same.

  Proved: `check_modules_agree`: the crate stops at nothing but the bound on the visits, and its
  verdicts are those of the checker, in the same order but for the leaks of one line, whatever the
  schedule and whichever way the checker walks its sets.
-/

import Mathlib.Data.List.Perm.Basic
import Mathlib.Data.Prod.Lex
import OwnNet.Checks
import OwnNet.Lang.Traced
import OwnNet.OwnAnalysis.Walks
import OwnNet.Sorting

namespace OwnNet.OwnAnalysis.Engine

open Lang (Env FnItem Code Diagnostic AllUntraced reportedBefore buildCfg validatePolicies checkLifetimes checkFunction)

/-! ## The order of reports -/

theorem reportedBefore_iff (a b : Diagnostic) : reportedBefore a b ↔ (verdict a).key ≤ (verdict b).key := by
  unfold reportedBefore Verdict.key verdict
  rw [Prod.Lex.toLex_le_toLex]

theorem sort_verdicts (ds : List Diagnostic) :
    (ds.insertionSort reportedBefore).map verdict = (ds.map verdict).insertionSort fun a b => a.key ≤ b.key :=
  List.map_insertionSort _ _ verdict ds fun a _ b _ => reportedBefore_iff a b

/-- What lowering and the analysis found of each function. -/
abbrev Parts := List (List Diagnostic × List Diagnostic)

/-- A finding of lowering and one of the analysis that are sorted alike are the same verdict. -/
theorem verdict_tied {d e : Diagnostic} (hd : d.Untraced) (he : e.Traced ∨ e.Untraced)
    (hkey : (verdict e).key = (verdict d).key) :
    verdict e = verdict d := by
  have hpair : (e.line, e.code.text) = (d.line, d.code.text) := hkey
  obtain ⟨hline, htext⟩ := Prod.mk.inj hpair
  have hcode : e.code = d.code := Code.text_inj htext
  have hsubject : e.subject = none := by
    rcases he with (htraced | hnone) | hun
    · rw [hcode, hd.1] at htraced
      cases htraced
    · exact hnone
    · exact hun.2
  unfold verdict
  rw [hcode, hline, hsubject, hd.2]

/-- All of lowering first, or function by function: of each line and code the same is reported, in the same order. -/
theorem parts_filter {parts : Parts} (hlow : ∀ p ∈ parts, AllUntraced p.1) (han : ∀ p ∈ parts, ∀ d ∈ p.2, d.Traced)
    (k : Int ×ₗ String) :
    ((parts.flatMap Prod.fst ++ parts.flatMap Prod.snd).map verdict).filter (fun v => v.key = k) =
      ((parts.flatMap fun p => p.1 ++ p.2).map verdict).filter fun v => v.key = k := by
  have hperm : (parts.flatMap Prod.fst ++ parts.flatMap Prod.snd).Perm (parts.flatMap fun p => p.1 ++ p.2) :=
    List.flatMap_append_perm parts Prod.fst Prod.snd
  by_cases hex : ∃ d ∈ parts.flatMap Prod.fst, (verdict d).key = k
  · -- one of lowering's: whatever is tied to it is the same verdict
    obtain ⟨d, hd, rfl⟩ := hex
    obtain ⟨p, hp, hdp⟩ := List.mem_flatMap.mp hd
    have hun := hlow p hp d hdp
    have hall : ∀ l : List Diagnostic, (∀ e ∈ l, e ∈ parts.flatMap Prod.fst ++ parts.flatMap Prod.snd) →
        ∀ v ∈ (l.map verdict).filter (fun v => v.key = (verdict d).key), v = verdict d := by
      intro l hl v hv
      obtain ⟨hmem, hkey⟩ := List.mem_filter.mp hv
      obtain ⟨e, he, rfl⟩ := List.mem_map.mp hmem
      refine verdict_tied hun ?_ (of_decide_eq_true hkey)
      rcases List.mem_append.mp (hl e he) with h | h
      · obtain ⟨q, hq, heq⟩ := List.mem_flatMap.mp h
        exact .inr (hlow q hq e heq)
      · obtain ⟨q, hq, heq⟩ := List.mem_flatMap.mp h
        exact .inl (han q hq e heq)
    rw [List.eq_replicate_of_mem (hall _ fun e he => he), List.eq_replicate_of_mem (hall _ fun e he => hperm.mem_iff.mpr he),
      ((hperm.map verdict).filter _).length_eq]
  · -- none of lowering's: the analysis' are in the order of the functions on both sides
    clear hperm
    induction parts with
    | nil => rfl
    | cons p rest ih =>
      have hnil : (p.1.map verdict).filter (fun v => v.key = k) = [] := by
        rw [List.filter_eq_nil_iff]
        intro v hv hkey
        obtain ⟨d, hd, rfl⟩ := List.mem_map.mp hv
        exact hex ⟨d, List.mem_append_left _ hd, of_decide_eq_true hkey⟩
      have hrest := ih (fun q hq => hlow q (List.mem_cons_of_mem _ hq)) (fun q hq => han q (List.mem_cons_of_mem _ hq))
        fun ⟨d, hd, hk⟩ => hex ⟨d, List.mem_append_right _ hd, hk⟩
      have hnone : ((rest.flatMap Prod.fst).map verdict).filter (fun v => v.key = k) = [] := by
        rw [List.filter_eq_nil_iff]
        intro v hv hkey
        obtain ⟨d, hd, rfl⟩ := List.mem_map.mp hv
        exact hex ⟨d, List.mem_append_right _ hd, of_decide_eq_true hkey⟩
      simp only [List.flatMap_cons, List.map_append, List.filter_append, hnil, hnone, List.nil_append] at hrest ⊢
      rw [hrest]

theorem sort_parts {parts : Parts} (hlow : ∀ p ∈ parts, AllUntraced p.1) (han : ∀ p ∈ parts, ∀ d ∈ p.2, d.Traced)
    (pre : List Diagnostic) :
    ((pre ++ (parts.flatMap Prod.fst ++ parts.flatMap Prod.snd)).map verdict).insertionSort (fun a b => a.key ≤ b.key) =
      ((pre ++ parts.flatMap fun p => p.1 ++ p.2).insertionSort reportedBefore).map verdict := by
  rw [sort_verdicts]
  refine Sorting.stable_eq Verdict.key fun k => ?_
  have hsplit : ∀ l : List Diagnostic, ((pre ++ l).map verdict).filter (fun v => v.key = k) =
      (pre.map verdict).filter (fun v => v.key = k) ++ (l.map verdict).filter fun v => v.key = k := fun l => by
    rw [List.map_append, List.filter_append]
  rw [hsplit, hsplit, parts_filter hlow han]

/-! ## The check -/

/-- `check_module` of the crate, over the policies, regions, graphs and findings of lowering that the checker has too. -/
def checkModule (schedule : Schedule) (mod : Lang.Module) : Except Halt (List Verdict) :=
  let built := mod.functions.map fun fn => buildCfg mod.env fn.decl
  (built.mapM fun r => analyze r.1 schedule).map fun vs =>
    ((validatePolicies mod.policyTable ++ checkLifetimes mod ++ built.flatMap Prod.snd).map verdict ++ vs.flatten).insertionSort
      fun a b => a.key ≤ b.key

section

variable {α β ε : Type} {f : α → Except ε β}

theorem mapM_related {l : List α} : ∀ {bs : List β}, l.mapM f = .ok bs → List.Forall₂ (fun a b => f a = .ok b) l bs := by
  induction l with
  | nil =>
    intro bs h
    cases h
    exact .nil
  | cons a rest ih =>
    intro bs h
    rw [List.mapM_cons] at h
    obtain ⟨b, hb, h⟩ := Checks.bind_ok.mp h
    obtain ⟨more, hmore, h⟩ := Checks.bind_ok.mp h
    cases h
    exact .cons hb (ih hmore)

theorem mapM_error {l : List α} {e : ε} (h : l.mapM f = .error e) : ∃ a ∈ l, f a = .error e := by
  induction l with
  | nil => cases h
  | cons a rest ih =>
    rw [List.mapM_cons] at h
    cases ha : f a with
    | error e' =>
      rw [ha] at h
      cases h
      exact ⟨a, List.mem_cons_self, ha⟩
    | ok b =>
      rw [ha] at h
      cases hrest : rest.mapM f with
      | error e' =>
        rw [hrest] at h
        cases h
        obtain ⟨x, hx, hxe⟩ := ih hrest
        exact ⟨x, List.mem_cons_of_mem _ hx, hxe⟩
      | ok more =>
        rw [hrest] at h
        cases h

end

section

variable {env : Env} {fns : List FnItem} {schedule : Schedule} {vss : List (List Verdict)}

theorem schedules_alike {schedule' : Schedule} {vss' : List (List Verdict)}
    (h : List.Forall₂ (fun fn vs => analyze (buildCfg env fn.decl).1 schedule = .ok vs) fns vss)
    (h' : List.Forall₂ (fun fn vs => analyze (buildCfg env fn.decl).1 schedule' = .ok vs) fns vss') : vss' = vss := by
  induction h generalizing vss' with
  | nil =>
    cases h'
    rfl
  | cons hvs _ ih =>
    cases h' with
    | cons hvs' hrest' => rw [analyze_schedules env _ hvs hvs', ih hrest']

/-- The parts of what both report, function by function. -/
theorem parts_of {n : Nat} {dss : List (List Diagnostic)}
    (h : List.Forall₂ (fun fn vs => analyze (buildCfg env fn.decl).1 schedule = .ok vs) fns vss)
    (h' : List.Forall₂ (fun fn ds => checkFunction n env fn.decl = .ok ds) fns dss) :
    ∃ parts : Parts, (fns.map fun fn => buildCfg env fn.decl).flatMap Prod.snd = parts.flatMap Prod.fst ∧
      vss.flatten = (parts.flatMap Prod.snd).map verdict ∧ dss.flatten = parts.flatMap (fun p => p.1 ++ p.2) ∧
      (∀ p ∈ parts, AllUntraced p.1) ∧ ∀ p ∈ parts, ∀ d ∈ p.2, d.Traced := by
  induction h generalizing dss with
  | nil =>
    cases h'
    exact ⟨[], rfl, rfl, rfl, fun p hp => absurd hp List.not_mem_nil, fun p hp => absurd hp List.not_mem_nil⟩
  | @cons fn vs rest vrest hvs _ ih =>
    cases h' with
    | @cons _ ds _ dsrest hds hrest =>
      obtain ⟨parts, hlower, hverdicts, hboth, hlow, han⟩ := ih hrest
      unfold checkFunction at hds
      dsimp only at hds
      cases hanalyze : (buildCfg env fn.decl).1.analyze n with
      | error e =>
        rw [hanalyze] at hds
        cases hds
      | ok found =>
        rw [hanalyze] at hds
        cases hds
        refine ⟨((buildCfg env fn.decl).2, found) :: parts, ?_, ?_, ?_, ?_, ?_⟩
        · rw [List.map_cons, List.flatMap_cons, List.flatMap_cons, hlower]
        · rw [List.flatten_cons, List.flatMap_cons, List.map_append, hverdicts, analyze_findings env fn.decl hvs hanalyze]
        · rw [List.flatten_cons, List.flatMap_cons, hboth]
        · intro p hp
          rcases List.mem_cons.mp hp with rfl | hp
          · exact Lang.buildCfg_untraced env fn.decl
          · exact hlow p hp
        · intro p hp
          rcases List.mem_cons.mp hp with rfl | hp
          · exact fun d hd => Lang.analyze_traced hanalyze hd
          · exact han p hp

/-- What the checker may find of each function agrees with its findings by number. -/
theorem agree_functions {n : Nat} {founds : List (List Diagnostic)}
    (h : List.Forall₂ (fun fn found => Analyzed (buildCfg env fn.decl).1 n found) fns founds) :
    ∃ dss, List.Forall₂ (fun fn ds => checkFunction n env fn.decl = .ok ds) fns dss ∧
      Agree (dss.flatten.map verdict) (((fns.zip founds).flatMap fun p => (buildCfg env p.1.decl).2 ++ p.2).map verdict) := by
  induction h with
  | nil => exact ⟨[], .nil, Agree.refl _⟩
  | @cons fn found rest founds hfound _ ih =>
    obtain ⟨dss, hdss, hagree⟩ := ih
    obtain ⟨ds, hds, hthis⟩ := agree_analyzed hfound
    refine ⟨((buildCfg env fn.decl).2 ++ ds) :: dss, .cons ?_ hdss, ?_⟩
    · unfold checkFunction
      dsimp only
      rw [hds]
      rfl
    · rw [List.flatten_cons, List.zip_cons_cons, List.flatMap_cons]
      simp only [List.map_append]
      exact ((Agree.refl _).append hthis).append hagree

theorem founds_of {n : Nat} {dss : List (List Diagnostic)}
    (h : List.Forall₂ (fun fn ds => checkFunction n env fn.decl = .ok ds) fns dss) :
    ∃ founds, List.Forall₂ (fun fn found => Analyzed (buildCfg env fn.decl).1 n found) fns founds ∧
      dss.flatten = (fns.zip founds).flatMap fun p => (buildCfg env p.1.decl).2 ++ p.2 := by
  induction h with
  | nil => exact ⟨[], .nil, rfl⟩
  | @cons fn ds rest dss hds _ ih =>
    obtain ⟨founds, hfounds, hflat⟩ := ih
    unfold checkFunction at hds
    dsimp only at hds
    cases hanalyze : (buildCfg env fn.decl).1.analyze n with
    | error e =>
      rw [hanalyze] at hds
      cases hds
    | ok found =>
      rw [hanalyze] at hds
      cases hds
      refine ⟨found :: founds, .cons (analyzed_findings hanalyze) hfounds, ?_⟩
      rw [List.flatten_cons, List.zip_cons_cons, List.flatMap_cons, hflat]

end

theorem checkModule_ok {schedule : Schedule} {mod : Lang.Module} {verdicts : List Verdict}
    (h : checkModule schedule mod = .ok verdicts) :
    ∃ vss, List.Forall₂ (fun fn vs => analyze (buildCfg mod.env fn.decl).1 schedule = .ok vs) mod.functions vss ∧
      verdicts = ((validatePolicies mod.policyTable ++ checkLifetimes mod ++
        (mod.functions.map fun fn => buildCfg mod.env fn.decl).flatMap Prod.snd).map verdict ++ vss.flatten).insertionSort
          fun a b => a.key ≤ b.key := by
  unfold checkModule at h
  dsimp only at h
  cases hvss : (mod.functions.map fun fn => buildCfg mod.env fn.decl).mapM fun r => analyze r.1 schedule with
  | error e =>
    rw [hvss] at h
    cases h
  | ok vss =>
    rw [hvss] at h
    cases h
    exact ⟨vss, (List.forall₂_map_left_iff.mp (mapM_related hvss)), rfl⟩

/-- What `check_module` may return, in at most `n` visits of a block a function. -/
def Reported (n : Nat) (mod : Lang.Module) (ds : List Diagnostic) : Prop :=
  ∃ founds, List.Forall₂ (fun fn found => Analyzed (buildCfg mod.env fn.decl).1 n found) mod.functions founds ∧
    ds = (validatePolicies mod.policyTable ++ checkLifetimes mod ++
      (mod.functions.zip founds).flatMap fun p => (buildCfg mod.env p.1.decl).2 ++ p.2).insertionSort reportedBefore

/-- The report by number is among what the checker may return. -/
theorem reported_checkModule {n : Nat} {mod : Lang.Module} {ds : List Diagnostic} (h : Lang.checkModule n mod = .ok ds) :
    Reported n mod ds := by
  unfold Lang.checkModule at h
  cases hdss : mod.functions.mapM fun fn => checkFunction n mod.env fn.decl with
  | error e =>
    rw [hdss] at h
    cases h
  | ok dss =>
    rw [hdss] at h
    cases h
    obtain ⟨founds, hfounds, hflat⟩ := founds_of (mapM_related hdss)
    exact ⟨founds, hfounds, by dsimp only; rw [hflat]⟩

/-- **The two checks of a module**: the crate stops at nothing but the bound on the visits, every
    schedule gives the same verdicts, and they are those of the checker, in the same order but for
    the leaks of one line. -/
theorem check_modules_agree (mod : Lang.Module) :
    (∀ schedule e, checkModule schedule mod = .error e → e = .solver .visits) ∧
      ∀ schedule verdicts, checkModule schedule mod = .ok verdicts →
        (∀ schedule' verdicts', checkModule schedule' mod = .ok verdicts' → verdicts' = verdicts) ∧
          ∀ n ds, Reported n mod ds → Agree verdicts (ds.map verdict) := by
  refine ⟨fun schedule e h => ?_, fun schedule verdicts h => ⟨fun schedule' verdicts' h' => ?_, fun n ds hds => ?_⟩⟩
  · unfold checkModule at h
    dsimp only at h
    cases hvss : (mod.functions.map fun fn => buildCfg mod.env fn.decl).mapM fun r => analyze r.1 schedule with
    | error e' =>
      rw [hvss] at h
      cases h
      obtain ⟨r, hr, he⟩ := mapM_error hvss
      obtain ⟨fn, -, rfl⟩ := List.mem_map.mp hr
      exact analyze_error mod.env fn.decl he
    | ok vss =>
      rw [hvss] at h
      cases h
  · obtain ⟨vss, hvss, rfl⟩ := checkModule_ok h
    obtain ⟨vss', hvss', rfl⟩ := checkModule_ok h'
    rw [schedules_alike hvss hvss']
  · obtain ⟨vss, hvss, rfl⟩ := checkModule_ok h
    obtain ⟨founds, hfounds, rfl⟩ := hds
    obtain ⟨dss, hdss, hagree⟩ := agree_functions hfounds
    obtain ⟨parts, hlower, hverdicts, hboth, hlow, han⟩ := parts_of hvss hdss
    generalize validatePolicies mod.policyTable ++ checkLifetimes mod = pre
    have hsplit : ∀ l : List Diagnostic, (pre ++ l).map verdict = pre.map verdict ++ l.map verdict := fun _ => List.map_append
    rw [hlower, hverdicts, ← List.map_append, List.append_assoc, sort_parts hlow han pre, ← hboth,
      sort_verdicts, sort_verdicts, hsplit,
      hsplit]
    exact ((Agree.refl _).append hagree).sort

end OwnNet.OwnAnalysis.Engine
