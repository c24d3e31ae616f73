/-
  OwnNet.OwnIR.Summaries — `dump_summaries`: the solved summaries of a facts document, with
  the log of what lies outside it.

  Reordering the functions reorders the skeletons, and within a merged one the paths of its
  parameters; its name, place and return are chosen without regard to order. The answer of
  the solver owes nothing to either (`solved_perm`, `solved_alike`).

  Proved: `dump_perm`: of a document whose derivation does not degrade, every order of the
  functions has the same dump, overloads and nameless functions included.
-/

import OwnNet.OwnIR.Skeletons
import OwnNet.Ownership.Orders

namespace OwnNet.OwnIR

open Ownership

/-! ## The dump -/

/-- The summaries of a document's functions, or the text of the exception that stopped them. -/
def deriveMos (fns : List Fn) : Except String Solution :=
  match buildSkeletons (inferenceView fns) with
  | .error e => .error e
  | .ok sks =>
    match solved sks with
    | .error e => .error ("ValueError: " ++ e)
    | .ok sol => .ok sol

def transferText : Transfer → String
  | .no => "no"
  | .must => "must"
  | .may => "may"
  | .unknown => "unknown"

def returnedText : Returned → String
  | .fresh => "fresh"
  | .aliasOf arg => "aliasOf:" ++ toString arg
  | .aliased => "aliased"
  | .none => "none"
  | .unknown => "unknown"

def paramDict (p : ParamSummary) : Json :=
  .obj [("index", .int p.index), ("name", .str p.name), ("disposable", .bool p.disposable),
    ("transfer", .str (transferText p.transfer))]

def toDict (m : MethodSummary) : Json :=
  .obj [("method", .str m.key), ("file", .str m.file), ("line", .int m.line), ("source", .str m.source),
    ("params", .arr (m.params.map paramDict)), ("returns", .obj [("owned", .str (returnedText m.returns))])]

/-- The summaries, by key. -/
def Mos.sorted (mos : Mos) : List MethodSummary :=
  ((mos.map MethodSummary.key).insertionSort (· ≤ ·)).filterMap mos.get?

structure Dump where
  module : String
  ownirVersion : Int
  summaries : List Json
  unresolved : List String
  degraded : Option String

def dumpSummaries (facts : Fields) : Dump :=
  let module := str (getD facts "module" (.str "?"))
  match deriveMos (Fn.readAll (Json.get facts "functions")) with
  | .ok sol => ⟨module, 2, (Mos.sorted sol.summaries).map toDict, sol.log, none⟩
  | .error e => ⟨module, 2, [], [], some e⟩

/-! ## Orders of the functions -/

section Names

variable {fns fns' : List Fn} (h : fns.Perm fns')

include h

theorem overloadKey_perm : Fn.overloadKey (fns'.map Fn.name) = Fn.overloadKey (fns.map Fn.name) := by
  funext fn
  unfold Fn.overloadKey
  rw [(h.map Fn.name).count_eq]

theorem mem_all_perm (k : String) : k ∈ (namesOf fns').all ↔ k ∈ (namesOf fns).all := (h.map Fn.name).symm.mem_iff

theorem mem_sigKeys_perm (k : String) : k ∈ (namesOf fns').sigKeys ↔ k ∈ (namesOf fns).sigKeys := by
  unfold namesOf
  rw [overloadKey_perm h]
  exact (h.filterMap _).symm.mem_iff

theorem mem_firstParty_perm (k : String) : k ∈ (namesOf fns').firstParty ↔ k ∈ (namesOf fns).firstParty := by
  unfold Names.firstParty
  simp only [List.mem_map, List.mem_filter, mem_all_perm h]

theorem callKey_perm : (namesOf fns').callKey = (namesOf fns).callKey := by
  funext callee sig
  unfold Names.callKey
  simp only [mem_all_perm h, mem_sigKeys_perm h]

theorem skeletonOf_perm : skeletonOf (namesOf fns') = skeletonOf (namesOf fns) := by
  funext fn
  unfold skeletonOf inferReturnSkeleton
  simp only [mem_firstParty_perm h, callKey_perm h]

end Names

/-- The skeleton of a function whose derivation does not stop. -/
def skeletonAt (names : Names) (fn : Fn) : MethodSkeleton := ((skeletonOf names fn).toOption).getD { key := "" }

theorem skeletonAt_ok {names : Names} {fn : Fn} {sk : MethodSkeleton} (h : skeletonOf names fn = .ok sk) :
    skeletonAt names fn = sk := by
  unfold skeletonAt
  rw [h]
  rfl

/-- The derivation stops at no named function, or not at all. -/
theorem skeletonsOf_ok {names : Names} {fns : List Fn} {out : List (Fn × MethodSkeleton)} :
    skeletonsOf names fns = .ok out ↔ (∀ fn ∈ fns, fn.name ≠ "" → skeletonOf names fn = .ok (skeletonAt names fn)) ∧
      out = (fns.filter fun fn => fn.name ≠ "").map fun fn => (fn, skeletonAt names fn) := by
  induction fns generalizing out with
  | nil =>
    rw [skeletonsOf]
    refine ⟨fun h => ?_, fun h => by rw [h.2]; rfl⟩
    cases h
    exact ⟨fun fn hfn => absurd hfn List.not_mem_nil, rfl⟩
  | cons fn rest ih =>
    rw [List.forall_mem_cons, skeletonsOf]
    by_cases hname : fn.name = ""
    · rw [if_pos hname, ih, List.filter_cons_of_neg (by simpa using hname)]
      refine ⟨fun h => ⟨⟨fun hn => absurd hname hn, h.1⟩, h.2⟩, fun h => ⟨h.1.2, h.2⟩⟩
    · rw [if_neg hname, List.filter_cons_of_pos (by simpa using hname), List.map_cons]
      cases hsk : skeletonOf names fn with
      | error e =>
        refine ⟨fun h => (by cases h), fun h => ?_⟩
        have := h.1.1 hname
        cases this
      | ok sk =>
        rw [skeletonAt_ok hsk]
        cases hrest : skeletonsOf names rest with
        | error e =>
          refine ⟨fun h => (by cases h), fun h => ?_⟩
          have := ih.mpr ⟨h.1.2, rfl⟩
          rw [hrest] at this
          cases this
        | ok out' =>
          obtain ⟨hall, hout⟩ := ih.mp hrest
          refine ⟨fun h => ?_, fun h => ?_⟩
          · cases h
            exact ⟨⟨fun _ => rfl, hall⟩, by rw [hout]⟩
          · rw [h.2, ← hout]
            rfl

/-! ## Orders within a key -/

theorem min?_perm {α : Type} [LinearOrder α] {l l' : List α} (h : l.Perm l') : l'.min? = l.min? := by
  cases hl : l.min? with
  | none =>
    rw [List.min?_eq_none_iff] at hl ⊢
    rw [hl] at h
    exact h.symm.eq_nil
  | some a =>
    rw [List.min?_eq_some_iff] at hl ⊢
    exact ⟨h.mem_iff.mp hl.1, fun b hb => hl.2 b (h.mem_iff.mpr hb)⟩

theorem mergeParam_perm {group group' : List MethodSkeleton} (h : group.Perm group') (index : Int) :
    AlikeParam (mergeParam group index) (mergeParam group' index) := by
  have hps : (group.flatMap fun sk => sk.params.filter fun p => p.index = index).Perm
      (group'.flatMap fun sk => sk.params.filter fun p => p.index = index) := h.flatMap_right _
  refine ⟨rfl, ?_, rfl, rfl, hps.flatMap_right _⟩
  show ((_ : Option String)).getD "" = ((_ : Option String)).getD ""
  rw [min?_perm (hps.map ParamSkeleton.name)]

theorem mergeReturns_perm {rets rets' : List ReturnSkeleton} (h : rets.Perm rets') : mergeReturns rets' = mergeReturns rets := by
  unfold mergeReturns
  simp only [h.mem_iff]

theorem mergeMany_perm {group group' : List MethodSkeleton} (h : group.Perm group') (key : String) :
    Alike (mergeMany key group) (mergeMany key group') := by
  have hplace : (group'.map fun sk => toLex (sk.file, sk.line)).min? = (group.map fun sk => toLex (sk.file, sk.line)).min? :=
    min?_perm (h.map _)
  have hindices : ((group'.flatMap fun sk => sk.params.map ParamSkeleton.index).dedup).insertionSort (· ≤ ·) =
      ((group.flatMap fun sk => sk.params.map ParamSkeleton.index).dedup).insertionSort (· ≤ ·) :=
    Sorting.sort_dedup fun x => (h.flatMap_right _).symm.mem_iff
  refine ⟨rfl, ?_, mergeReturns_perm (h.map _), ?_, ?_⟩
  · unfold mergeMany
    simp only
    rw [hindices, List.forall₂_map_left_iff, List.forall₂_map_right_iff]
    exact List.forall₂_same.mpr fun i _ => mergeParam_perm h i
  · unfold mergeMany
    simp only
    rw [hplace]
  · unfold mergeMany
    simp only
    rw [hplace]

theorem mergeSkeletons_perm {group group' : List MethodSkeleton} (h : group.Perm group') (key : String) :
    Alike (mergeSkeletons key group) (mergeSkeletons key group') := by
  match group, group', h with
  | [], group', h =>
    rw [h.symm.eq_nil]
    exact mergeMany_perm (List.Perm.refl _) key
  | [s], group', h =>
    rw [List.singleton_perm.mp h]
    exact ⟨rfl, List.forall₂_same.mpr fun p _ => ⟨rfl, rfl, rfl, rfl, List.Perm.refl _⟩, rfl, rfl, rfl⟩
  | s :: s' :: rest, [], h => exact absurd h.eq_nil (List.cons_ne_nil _ _)
  | s :: s' :: rest, [t], h =>
    have := h.length_eq
    simp at this
  | s :: s' :: rest, t :: t' :: rest', h => exact mergeMany_perm h key

theorem firsts_perm {l l' : List String} (h : l.Perm l') : (firsts l).Perm (firsts l') := by
  unfold firsts
  exact ((List.reverse_perm _).trans ((((List.reverse_perm _).trans h).trans (List.reverse_perm _).symm).dedup)).trans
    (List.reverse_perm _).symm

/-- Two orders of the entries: the merged skeletons in another order, each with its paths in another. -/
theorem mergeByKey_perm {entries entries' : List (String × MethodSkeleton)} (h : entries.Perm entries') :
    ∃ mid, List.Forall₂ Alike (mergeByKey entries) mid ∧ mid.Perm (mergeByKey entries') := by
  refine ⟨(firsts (entries.map Prod.fst)).map fun key => mergeSkeletons key (groupOf entries' key), ?_, ?_⟩
  · unfold mergeByKey
    rw [List.forall₂_map_left_iff, List.forall₂_map_right_iff]
    exact List.forall₂_same.mpr fun key _ => mergeSkeletons_perm ((h.filter _).map _) key
  · exact (firsts_perm (h.map _)).map _

/-! ## Orders of the document -/

theorem buildSkeletons_perm {fns fns' : List Fn} (h : fns.Perm fns') {sks : List MethodSkeleton}
    (hok : buildSkeletons fns = .ok sks) :
    ∃ mid sks', buildSkeletons fns' = .ok sks' ∧ List.Forall₂ Alike sks mid ∧ mid.Perm sks' := by
  unfold buildSkeletons at hok ⊢
  simp only at hok ⊢
  cases hs : skeletonsOf (namesOf fns) fns with
  | error e =>
    rw [hs] at hok
    cases hok
  | ok out =>
    rw [hs] at hok
    cases hok
    obtain ⟨hall, hout⟩ := skeletonsOf_ok.mp hs
    have hat : skeletonAt (namesOf fns') = skeletonAt (namesOf fns) := by
      funext fn
      unfold skeletonAt
      rw [skeletonOf_perm h]
    have hs' : skeletonsOf (namesOf fns') fns' = .ok ((fns'.filter fun fn => fn.name ≠ "").map fun fn =>
        (fn, skeletonAt (namesOf fns) fn)) := by
      rw [skeletonsOf_ok, skeletonOf_perm h, hat]
      exact ⟨fun fn hfn => hall fn (h.mem_iff.mpr hfn), rfl⟩
    rw [hs']
    have hp : out.Perm ((fns'.filter fun fn => fn.name ≠ "").map fun fn => (fn, skeletonAt (namesOf fns) fn)) := by
      rw [hout]
      exact (h.filter _).map _
    have hkey : Fn.overloadKey (namesOf fns').all = Fn.overloadKey (namesOf fns).all := overloadKey_perm h
    rw [hkey]
    obtain ⟨mid, hmid, hperm⟩ := mergeByKey_perm (hp.map fun s => (s.1.name, s.2))
    obtain ⟨mid', hmid', hperm'⟩ := mergeByKey_perm
      (hp.filterMap fun s => (s.1.overloadKey (namesOf fns).all).map fun key => (key, s.2))
    exact ⟨mid ++ mid', _, rfl, List.rel_append hmid hmid', hperm.append hperm'⟩

theorem get?_perm {mos mos' : Mos} (hn : (mos.map MethodSummary.key).Nodup) (h : mos.Perm mos') :
    Mos.get? mos' = Mos.get? mos :=
  funext fun key => Dict.find_key_perm (fun _ hm _ hm' => List.inj_on_of_nodup_map hn hm hm') h key

theorem sorted_perm {mos mos' : Mos} (hn : (mos.map MethodSummary.key).Nodup) (h : mos.Perm mos') :
    Mos.sorted mos' = Mos.sorted mos := by
  unfold Mos.sorted
  rw [get?_perm hn h]
  rw [Sorting.sort_perm (h.symm.map MethodSummary.key)]

/-- Two orders of the functions have the same summaries and log. -/
theorem deriveMos_perm {fns fns' : List Fn} (h : fns.Perm fns') {sol : Solution} (hok : deriveMos fns = .ok sol) :
    ∃ sol', deriveMos fns' = .ok sol' ∧ Mos.sorted sol'.summaries = Mos.sorted sol.summaries ∧ sol'.log = sol.log := by
  unfold deriveMos at hok ⊢
  split at hok
  next => cases hok
  next sks hsks =>
    split at hok
    next => cases hok
    next sol₁ hsol =>
      cases hok
      obtain ⟨mid, sks', hsks', halike, hperm⟩ := buildSkeletons_perm (h.map _) hsks
      have hn := nodup_of_solved hsol
      have hn' : (keys mid).Nodup := by
        rw [keys_alike halike]
        exact hn
      obtain ⟨sol₂, sol₃, h₂, h₃, hsum, hlog, hkeys⟩ := solved_perm hn' hperm
      rw [solved_alike halike hn, hsol] at h₂
      cases h₂
      have hview : buildSkeletons (inferenceView fns') = .ok sks' := hsks'
      rw [hview]
      simp only [h₃]
      exact ⟨sol₃, rfl, sorted_perm hkeys hsum, hlog⟩

theorem readAll_perm {items items' : List Json} (h : items.Perm items') :
    (Fn.readAll (.arr items)).Perm (Fn.readAll (.arr items')) := h.filterMap _

/-- Every order of the functions of a document has the same dump, where its derivation does not degrade. -/
theorem dump_perm (rest : Fields) (items items' : List Json) (hp : items.Perm items')
    (hd : (dumpSummaries (("functions", .arr items) :: rest)).degraded = none) :
    dumpSummaries (("functions", .arr items') :: rest) = dumpSummaries (("functions", .arr items) :: rest) := by
  have hread : ∀ items, Json.get (("functions", Json.arr items) :: rest) "functions" = .arr items := fun _ => rfl
  have hmodule : ∀ items, getD (("functions", Json.arr items) :: rest) "module" (.str "?") = getD rest "module" (.str "?") :=
    fun _ => rfl
  unfold dumpSummaries at hd ⊢
  simp only [hread, hmodule] at hd ⊢
  cases hok : deriveMos (Fn.readAll (.arr items)) with
  | error e =>
    rw [hok] at hd
    cases hd
  | ok sol =>
    obtain ⟨sol', hok', hsum, hlog⟩ := deriveMos_perm (readAll_perm hp) hok
    rw [hok']
    simp only [hsum, hlog]

namespace Example

def var (name : String) (op : String) : Json := .obj [("op", .str op), ("var", .str name)]

/-- `Close(s)` disposes its argument in one overload and keeps it in the other; `Drop(s)` hands it to
    the first and `Make()` returns a new one. -/
def functions : List Json :=
  [.obj [("name", .str "Drop"), ("params", .arr [.obj [("name", .str "s")]]),
      ("body", .arr [.obj [("op", .str "call"), ("callee", .str "Close"), ("sig", .str "Stream"), ("args", .arr [.str "s"])]])],
    .obj [("name", .str "Close"), ("sig", .str "Stream"), ("params", .arr [.obj [("name", .str "s")]]),
      ("body", .arr [var "s" "release"])],
    .obj [("name", .str "Close"), ("sig", .str "Object"), ("params", .arr [.obj [("name", .str "o")]]),
      ("body", .arr [var "o" "use"])],
    .obj [("name", .str "Make"), ("body", .arr [var "x" "acquire", var "x" "return"])]]

end Example

open Example in
set_option maxRecDepth 4000 in
theorem dump_perm_functions : dumpSummaries [("functions", .arr functions.reverse)] = dumpSummaries
    [("functions", .arr functions)] :=
  dump_perm [] functions functions.reverse (List.reverse_perm functions).symm (by decide)

end OwnNet.OwnIR
