/-
  OwnNet.Repro.Derived — `derived_outcome`: the SARIF identities two engines recorded, compared
  where the verdict layers they were rendered from agree; and what `verify_repro` asks of an
  engine's name and of its derived surface.

  A member that is missing or counts as false is read as an empty object. One that is neither
  stops the comparison, and so does a digest that no set can have.

  Proved: `derived_exact_iff`. Of the engines of a verified artifact the identities are compared
  by their digests, and those only.
-/

import OwnNet.Checks
import OwnNet.Dict.Grouped
import OwnNet.Json.Held
import OwnNet.OwnIR.Nodes
import OwnNet.Repro.Reduce
import Mathlib.Data.List.Sort

namespace OwnNet.Repro

open Checks Dict Json
open OwnIR (falsy)

/-! ## Members of untrusted objects -/

abbrev Members := List (String × Json)

variable {β : Type}

/-- What a read of a value of the wrong type raises. -/
inductive Raised where
  | typeError (message : String)
  | attributeError (message : String)
  deriving DecidableEq

/-- A value that `value or {}` makes an object of. -/
def tolerable : Json → Bool
  | .obj _ => true
  | j => falsy j

def members : Json → Members
  | .obj f => f
  | _ => []

/-- `value or {}`, and the `get` that is called on it. -/
def orEmpty (j : Json) : Except Raised Members :=
  ensure (tolerable j) (.attributeError ("'" ++ Json.typeName j ++ "' object has no attribute 'get'")) >>= fun _ =>
    .ok (members j)

theorem orEmpty_ok {j : Json} {f : Members} : orEmpty j = .ok f ↔ tolerable j = true ∧ f = members j := by
  unfold orEmpty
  rw [ensure_bind_ok, Except.ok.injEq, eq_comm (a := members j)]

def textOf (f : Members) (key : String) : Option String := (get f key).asStr

/-! ## The artifact's engines -/

/-- `artifact.get("engines", [])`, where something can be read of it item by item. -/
def iterable (artifact : Members) : Bool :=
  match lookup artifact "engines" with
  | none => true
  | some (.arr _) => true
  | some (.str _) => true
  | some (.obj _) => true
  | some _ => false

/-- The entries that are objects; the items of a string or of an object are strings. -/
def engineEntries (artifact : Members) : List Members :=
  match lookup artifact "engines" with
  | some (.arr items) => items.filterMap asObj
  | _ => []

def entriesOf (artifact : Members) : Except Raised (List Members) :=
  ensure (iterable artifact) (.typeError ("'" ++ Json.typeName (get artifact "engines") ++
      "' object is not iterable")) >>= fun _ =>
  .ok (engineEntries artifact)

def idText (engine : Members) : String := OwnIR.str (get engine "id")

/-- `identities`: the SARIF block of every engine, by the text of its id; of two engines of one id the later counts. -/
def identitiesOf (artifact : Members) : Except Raised (List (String × Members)) :=
  entriesOf artifact >>= fun es =>
  mapEach (fun _ e => orEmpty (get e "derived") >>= fun derived => .ok (idText e, get derived "sarif")) es >>= fun read =>
  mapEach (fun _ s => orEmpty s.2 >>= fun sarif => .ok (s.1, sarif)) ((latest Prod.fst read).map Prod.snd)

/-! ## The comparison -/

/-- `SARIF_CONFIGURATION` -/
def sarifConfiguration : String := "severity=error"

def Kind.text : Kind → String
  | .leftOnly => "left-only"
  | .rightOnly => "right-only"
  | .changed => "changed"
  | .orderingOnly => "ordering-only"
  | .status => "status"
  | .projection => "projection"
  | .missingLayer => "missing-layer"

inductive DerivedVerdict where
  | equal | rendererOnly | notComparable
  deriving DecidableEq, Repr

def DerivedVerdict.text : DerivedVerdict → String
  | .equal => "equal"
  | .rendererOnly => "renderer-only divergence"
  | .notComparable => "not-comparable"

structure Identity where
  status : Json
  canonical : Json

structure DerivedOutcome where
  surface : String := "sarif"
  configuration : String := sarifConfiguration
  identities : List (String × Identity)
  outcome : DerivedVerdict
  detail : Option String

def reprNames (names : List String) : String := OwnIR.repr (.arr (names.map .str))

def onlyOne : String := "only one engine captured this input, so there is no derived surface to compare"

def refusedBy (names : List String) : String :=
  reprNames (names.insertionSort (· ≤ ·)) ++
    " refused the verdict layer, so the derived surface was never rendered — " ++
      "a difference here would have nothing to attribute itself to"

def layersDiffer (count : Nat) (first : Observation) : String :=
  "the verdict layers differ (" ++ toString count ++ " observation(s), first " ++ OwnIR.reprStr first.kind.text ++ " at " ++
    (first.step.map OwnIR.reprStr).getD "None" ++ "), so a SARIF difference would not be the renderer's"

def renderersDiffer (digests : List (String × Json)) : String :=
  "the verdict layers agree and the rendered SARIF does not (" ++ OwnIR.repr (.obj digests) ++
    "); the renderers are the only thing left"

def produced (sarif : Members) : Bool := textOf sarif "status" = some "produced"

def onVerdicts (reduction : Reduction) : List Observation := reduction.observations.filter fun o => o.layer = "verdicts"

/-- The digests, as a set. -/
def digestsOf (sarifs : List (String × Members)) : Except Raised (List (String × Json)) :=
  mapEach (fun _ s => orEmpty (get s.2 "canonical") >>= fun canonical => .ok (s.1,
      get canonical "digest")) sarifs >>= fun digests =>
  each (fun _ d => ensure (hashable d.2) (.typeError ("unhashable type: '" ++ Json.typeName d.2 ++ "'"))) digests >>= fun _ =>
  .ok digests

/-- The identities of `count` engines, once they are read. -/
def compareIdentities (count : Nat) (sarifs : List (String × Members)) (reduction : Reduction) : Except Raised DerivedOutcome :=
  let result (outcome : DerivedVerdict) (detail : Option String) : DerivedOutcome :=
    { identities := sarifs.map fun s => (s.1, ⟨get s.2 "status", get s.2 "canonical"⟩), outcome := outcome, detail := detail }
  let refused := sarifs.filter fun s => !produced s.2
  if count < 2 then .ok (result .notComparable (some onlyOne))
  else if refused ≠ [] then .ok (result .notComparable (some (refusedBy (refused.map Prod.fst))))
  else
    match onVerdicts reduction with
    | first :: rest => .ok (result .notComparable (some (layersDiffer (rest.length + 1) first)))
    | [] =>
      digestsOf sarifs >>= fun digests =>
      if (heldSet (digests.map Prod.snd)).length = 1 then .ok (result .equal none)
      else .ok (result .rendererOnly (some (renderersDiffer digests)))

/-- `derived_outcome` -/
def derivedOutcome (artifact : Members) (reduction : Reduction) : Except Raised DerivedOutcome :=
  identitiesOf artifact >>= fun sarifs => compareIdentities (engineEntries artifact).length sarifs reduction

/-! ## Verification -/

/-- `ENGINE_ORDER` -/
def engineOrder : List String := ["python-ownlang", "rust-own-bridge"]

/-- The members of an object that are not among the known ones. -/
def unknownMembers (f : Members) (known : List String) : List String :=
  ((f.map Prod.fst).filter fun k => k ∉ known).insertionSort (· ≤ ·)

def unknownProblem (f : Members) (known : List String) (at_ : String) : List String :=
  if unknownMembers f known = [] then [] else [at_ ++ ": unknown member(s): " ++ reprNames (unknownMembers f known)]

def verdictsLayer (engine : Members) : Option Members :=
  match get engine "layers" with
  | .arr items => (items.filterMap asObj).find? fun l => textOf l "layer" = some "verdicts"
  | _ => none

/-- The status a derived surface has: its verdict layer's, and refused where there is none. -/
def expectedStatus (engine : Members) : Status :=
  match verdictsLayer engine with
  | some l => if textOf l "status" = some "refused" then .refused else .produced
  | none => .refused

def canonicalProblem (expected : Status) (canonical : Json) (at_ : String) : List String :=
  match expected, canonical with
  | .refused, .null => []
  | .refused, _ => [at_ ++ ".derived.sarif: a refused surface carries a canonical identity"]
  | .produced, .obj _ => []
  | .produced, _ => [at_ ++ ".derived.sarif.canonical is missing or not an object"]

/-- `_verify_derived` -/
def verifyDerived (engine : Members) (at_ : String) : List String :=
  match get engine "derived" with
  | .obj derived =>
    if unknownMembers derived ["sarif"] ≠ [] then
      [at_ ++ ".derived: unknown member(s): " ++ reprNames (unknownMembers derived ["sarif"])]
    else
      match get derived "sarif" with
      | .obj sarif =>
        let expected := expectedStatus engine
        unknownProblem sarif ["configuration", "status", "canonical"] (at_ ++ ".derived.sarif") ++
        (if textOf sarif "configuration" = some sarifConfiguration then []
          else [at_ ++ ".derived.sarif.configuration is " ++ OwnIR.repr (get sarif "configuration") ++ ", not the frozen " ++
            OwnIR.reprStr sarifConfiguration ++
            " — a comparison under an undeclared render configuration is not a comparison of one surface"]) ++
        (if textOf sarif "status" = some expected.text then []
          else [at_ ++ ".derived.sarif.status is " ++ OwnIR.repr (get sarif "status") ++
            ", but this engine's verdict layer is " ++
            OwnIR.reprStr expected.text ++
            " — the derived surface is rendered from that layer, so it is refused exactly when the layer is"]) ++
        canonicalProblem expected (get sarif "canonical") at_
      | _ => [at_ ++ ".derived.sarif is missing or not an object"]
  | _ =>
    [at_ ++ ": derived is missing or not an object — every v3 engine entry records the identity of the surfaces DERIVED " ++
      "from its own layers"]

/-- An engine's name, after the names of the engines before it. -/
def nameProblems (seen : List String) (eid : Json) (at_ : String) : List String :=
  match eid.asStr.filter fun s => s ∈ engineOrder with
  | none => [at_ ++ ": id " ++ OwnIR.repr eid ++ " is not in the frozen engine vocabulary " ++ reprNames engineOrder]
  | some s =>
    if s ∈ seen then [at_ ++ ": engine " ++ OwnIR.reprStr s ++ " appears twice"]
    else if (seen.getLast?.any fun last => engineOrder.idxOf s < engineOrder.idxOf last) then
      [at_ ++ ": engine " ++ OwnIR.reprStr s ++ " is out of the frozen order " ++ reprNames engineOrder]
    else []

/-- The engines of `verify_repro`: their members, their names and their derived surfaces. What they consumed and what their
    layers hold it asks as well, and the artifact around them. -/
def enginesFrom (i : Nat) (seen : List String) : List Json → List String
  | [] => []
  | .obj engine :: rest =>
    let at_ := "engines[" ++ toString i ++ "]"
    unknownProblem engine ["id", "consumed", "layers", "derived"] at_ ++ nameProblems seen (get engine "id") at_ ++
    verifyDerived engine at_ ++
    enginesFrom (i + 1) (seen ++ ((textOf engine "id").filter fun s => s ∈ engineOrder).toList) rest
  | _ :: rest => ("engines[" ++ toString i ++ "] is not an object") :: enginesFrom (i + 1) seen rest

def engineProblems (artifact : Members) : List String :=
  match get artifact "engines" with
  | .arr [] => ["engines is empty — an artifact captures at least one engine"]
  | .arr items => enginesFrom 0 [] items
  | _ => ["engines is missing or not an array"]

/-! ## What is read -/

section Reading

variable (e : Members)

def sarifOf : Json := get (members (get e "derived")) "sarif"

def canonicalOf : Json := get (members (sarifOf e)) "canonical"

def digestOf : Json := get (members (canonicalOf e)) "digest"

end Reading

/-- The last of the engines with its id. -/
def Latest (es : List Members) (e : Members) : Prop :=
  ∃ before after, es = before ++ e :: after ∧ ∀ e' ∈ after, idText e' ≠ idText e

/-- The SARIF blocks that are compared, where each is there. -/
def sarifs (es : List Members) : List (String × Members) := (latest idText es).map fun p => (idText p.2, members (sarifOf p.2))

theorem latest_all {es : List Members} {P : Members → Prop} : (∀ p ∈ latest idText es, P p.2) ↔ ∀ e, Latest es e → P e := by
  constructor
  · rintro h e ⟨before, after, heq, hafter⟩
    exact h (idText e, e) (mem_latest.mpr ⟨rfl, before, after, heq, hafter⟩)
  · rintro h ⟨k, e⟩ hp
    obtain ⟨rfl, hlast⟩ := mem_latest.mp hp
    exact h e hlast

theorem entriesOf_ok {artifact : Members} {es : List Members} :
    entriesOf artifact = .ok es ↔ iterable artifact = true ∧ es = engineEntries artifact := by
  unfold entriesOf
  rw [ensure_bind_ok, Except.ok.injEq, eq_comm (a := engineEntries artifact)]

/-- Members read one by one, each of which is to be tolerable. -/
theorem readEach_ok {α : Type} {f : α → Json} {g : α → Members → β} {items : List α} {out : List β} :
    mapEach (fun _ a => orEmpty (f a) >>= fun m => .ok (g a m)) items = (.ok out : Except Raised _) ↔
      (∀ a ∈ items, tolerable (f a) = true) ∧ out = items.map fun a => g a (members (f a)) := by
  rw [mapEach_ok (R := fun a b => tolerable (f a) = true ∧ b = g a (members (f a)))]
  · rw [reads_iff (g := fun a => g a (members (f a))) fun _ _ _ h => h.2]
    simp
  · intro _ a _ b
    rw [bind_ok]
    simp only [orEmpty_ok, Except.ok.injEq]
    constructor
    · rintro ⟨m, ⟨ht, rfl⟩, rfl⟩
      exact ⟨ht, rfl⟩
    · rintro ⟨ht, rfl⟩
      exact ⟨_, ⟨ht, rfl⟩, rfl⟩

theorem identitiesOf_ok {artifact : Members} {out : List (String × Members)} :
    identitiesOf artifact = .ok out ↔
      (iterable artifact = true ∧ (∀ e ∈ engineEntries artifact, tolerable (get e "derived") = true) ∧
        ∀ e, Latest (engineEntries artifact) e → tolerable (sarifOf e) = true) ∧
      out = sarifs (engineEntries artifact) := by
  have hread : (latest Prod.fst ((engineEntries artifact).map fun e => (idText e, sarifOf e))).map Prod.snd =
      (latest idText (engineEntries artifact)).map fun p => (idText p.2, sarifOf p.2) := by
    rw [latest_map, List.map_map]
    rfl
  unfold identitiesOf
  simp only [bind_ok, entriesOf_ok, readEach_ok]
  constructor
  · rintro ⟨es, ⟨hiter, rfl⟩, read, ⟨hder, rfl⟩, hsarif, rfl⟩
    change (∀ s ∈ (latest Prod.fst ((engineEntries artifact).map fun e => (idText e, sarifOf e))).map Prod.snd, _) at hsarif
    rw [hread, List.forall_mem_map] at hsarif
    refine ⟨⟨hiter, hder, latest_all.mp hsarif⟩, ?_⟩
    change ((latest Prod.fst ((engineEntries artifact).map fun e => (idText e, sarifOf e))).map Prod.snd).map _ = _
    rw [hread, List.map_map]
    rfl
  · rintro ⟨⟨hiter, hder, hsarif⟩, rfl⟩
    refine ⟨_, ⟨hiter, rfl⟩, _, ⟨hder, rfl⟩, ?_, ?_⟩
    · change ∀ s ∈ (latest Prod.fst ((engineEntries artifact).map fun e => (idText e, sarifOf e))).map Prod.snd, _
      rw [hread, List.forall_mem_map]
      exact latest_all.mpr hsarif
    · change _ = ((latest Prod.fst ((engineEntries artifact).map fun e => (idText e, sarifOf e))).map Prod.snd).map _
      rw [hread, List.map_map]
      rfl

def recordedDigest (sarif : Members) : Json := get (members (get sarif "canonical")) "digest"

/-- A SARIF block whose digest can be compared. -/
def Digestible (sarif : Members) : Prop := tolerable (get sarif "canonical") = true ∧ hashable (recordedDigest sarif) = true

theorem digestsOf_ok {blocks : List (String × Members)} {digests : List (String × Json)} :
    digestsOf blocks = .ok digests ↔
      (∀ s ∈ blocks, Digestible s.2) ∧
      digests = blocks.map fun s => (s.1, recordedDigest s.2) := by
  unfold digestsOf
  simp only [bind_ok, readEach_ok, Except.ok.injEq]
  constructor
  · rintro ⟨_, ⟨htol, rfl⟩, _, heach, rfl⟩
    have hhash := (each_ok (p := fun d : String × Json => hashable d.2 = true) fun _ _ _ => ensure_ok).mp heach
    exact ⟨fun s hs => ⟨htol s hs, hhash _ (List.mem_map_of_mem hs)⟩, rfl⟩
  · rintro ⟨hall, rfl⟩
    refine ⟨_, ⟨fun s hs => (hall s hs).1, rfl⟩, (), ?_, rfl⟩
    refine (each_ok (p := fun d : String × Json => hashable d.2 = true) fun _ _ _ => ensure_ok).mpr ?_
    rw [List.forall_mem_map]
    exact fun s hs => (hall s hs).2

/-- What the comparison asks of the blocks: digests that can be told apart, where it comes to them. -/
theorem compareIdentities_ok {count : Nat} {blocks : List (String × Members)} {reduction : Reduction} :
    (∃ o, compareIdentities count blocks reduction = .ok o) ↔
      (2 ≤ count → (∀ s ∈ blocks, produced s.2 = true) → onVerdicts reduction = [] →
        ∀ s ∈ blocks, Digestible s.2) := by
  unfold compareIdentities
  by_cases hcount : count < 2
  · simp [hcount, Nat.not_le.mpr hcount]
  by_cases hrefused : (blocks.filter fun s => !produced s.2) = []
  · have hall : ∀ s ∈ blocks, produced s.2 = true := by simpa [List.filter_eq_nil_iff] using hrefused
    cases hobs : onVerdicts reduction with
    | cons first rest => simp [hcount, hrefused]
    | nil =>
      simp only [hcount, hrefused, if_false, ne_eq, not_true_eq_false]
      constructor
      · rintro ⟨o, ho⟩ - - -
        obtain ⟨digests, hdigests, -⟩ := bind_ok.mp ho
        exact (digestsOf_ok.mp hdigests).1
      · intro h
        have hdigests := digestsOf_ok.mpr ⟨h (Nat.not_lt.mp hcount) hall trivial, rfl⟩
        rw [hdigests]
        by_cases hone : (heldSet ((blocks.map fun s => (s.1, recordedDigest s.2)).map Prod.snd)).length = 1
        · exact ⟨_, if_pos hone⟩
        · exact ⟨_, if_neg hone⟩
  · have hsome : ¬ ∀ s ∈ blocks, produced s.2 = true := by simpa [List.filter_eq_nil_iff] using hrefused
    simp only [hcount, hrefused, if_false, ne_eq, not_false_eq_true, if_true]
    exact ⟨fun _ _ hall => absurd hall hsome, fun _ => ⟨_, rfl⟩⟩

/-! ## When it returns -/

/-- The artifacts the comparison gets through. -/
structure Tolerated (artifact : Members) (reduction : Reduction) : Prop where
  engines : iterable artifact = true
  derived : ∀ e ∈ engineEntries artifact, tolerable (get e "derived") = true
  sarif : ∀ e, Latest (engineEntries artifact) e → tolerable (sarifOf e) = true
  digests : 2 ≤ (engineEntries artifact).length → (∀ e, Latest (engineEntries artifact) e →
    produced (members (sarifOf e)) = true) →
    onVerdicts reduction = [] → ∀ e, Latest (engineEntries artifact) e → tolerable (canonicalOf e) = true ∧
      hashable (digestOf e) = true

theorem sarifs_all (es : List Members) (P : Members → Prop) :
    (∀ s ∈ sarifs es, P s.2) ↔ ∀ e, Latest es e → P (members (sarifOf e)) := by
  unfold sarifs
  rw [List.forall_mem_map]
  exact latest_all (P := fun e => P (members (sarifOf e)))

theorem returns_iff {artifact : Members} {reduction : Reduction} :
    (∃ o, derivedOutcome artifact reduction = .ok o) ↔ Tolerated artifact reduction := by
  have hproduced := sarifs_all (engineEntries artifact) fun sarif => produced sarif = true
  have hdigests := sarifs_all (engineEntries artifact) Digestible
  unfold derivedOutcome
  rw [passes_bind]
  simp only [identitiesOf_ok, compareIdentities_ok]
  constructor
  · rintro ⟨_, ⟨⟨hiter, hder, hsarif⟩, rfl⟩, hcompared⟩
    exact ⟨hiter, hder, hsarif, fun hcount hp hobs => hdigests.mp (hcompared hcount (hproduced.mpr hp) hobs)⟩
  · intro h
    exact ⟨_, ⟨⟨h.engines, h.derived, h.sarif⟩, rfl⟩,
      fun hcount hp hobs => hdigests.mpr (h.digests hcount (hproduced.mp hp) hobs)⟩

/-! ## Verified engines -/

/-- An engine with a name of the vocabulary and a derived surface that can be compared. -/
structure Verified (seen : List String) (e : Members) : Prop where
  named : ∃ name, get e "id" = .str name ∧ name ∈ engineOrder ∧ name ∉ seen
  derived : ∃ derived, get e "derived" = .obj derived
  sarif : ∃ sarif, sarifOf e = .obj sarif
  canonical : produced (members (sarifOf e)) = true → ∃ canonical, canonicalOf e = .obj canonical

theorem named_of_nameProblems {seen : List String} {eid : Json} {at_ : String} (h : nameProblems seen eid at_ = []) :
    ∃ name, eid = .str name ∧ name ∈ engineOrder ∧ name ∉ seen := by
  unfold nameProblems at h
  cases hname : eid.asStr.filter fun s => s ∈ engineOrder with
  | none => simp [hname] at h
  | some name =>
    obtain ⟨hstr, hin⟩ := Option.filter_eq_some_iff.mp hname
    have heid : eid = .str name := by
      cases eid <;> simp_all [asStr]
    refine ⟨name, heid, by simpa using hin, fun hseen => ?_⟩
    simp [hname, hseen] at h

theorem verified_of_verifyDerived {seen : List String} {e : Members} {at_ : String}
    (hname : nameProblems seen (get e "id") at_ = []) (h : verifyDerived e at_ = []) : Verified seen e := by
  unfold verifyDerived at h
  cases hder : get e "derived" with
  | obj derived =>
    simp only [hder] at h
    split at h
    next => cases h
    cases hsarif : get derived "sarif" with
    | obj sarif =>
      simp only [hsarif, List.append_eq_nil_iff] at h
      obtain ⟨⟨-, hstatus⟩, hcanonical⟩ := h
      have hof : sarifOf e = .obj sarif := by rw [sarifOf, hder, members, hsarif]
      refine ⟨named_of_nameProblems hname, ⟨derived, hder⟩, ⟨sarif, hof⟩, fun hp => ?_⟩
      rw [hof, members, produced, decide_eq_true_eq] at hp
      rw [hp] at hstatus
      rw [canonicalOf, hof, members]
      cases hexp : expectedStatus e with
      | refused => simp [hexp, Status.text] at hstatus
      | produced =>
        rw [hexp] at hcanonical
        cases hc : get sarif "canonical" with
        | obj canonical => exact ⟨canonical, rfl⟩
        | _ => simp [hc, canonicalProblem] at hcanonical
    | _ => simp [hsarif] at h
  | _ => simp [hder] at h

/-- Two engines, each verified after those before it. -/
theorem verified_pair {artifact a b : Members} (htwo : lookup artifact "engines" = some (.arr [.obj a, .obj b]))
    (h : engineProblems artifact = []) : Verified [] a ∧ Verified [idText a] b := by
  unfold engineProblems at h
  rw [get_eq, htwo, Option.getD_some] at h
  simp only [enginesFrom, List.append_eq_nil_iff, List.nil_append] at h
  obtain ⟨⟨⟨-, hname⟩, hder⟩, ⟨⟨-, hname'⟩, hder'⟩, -⟩ := h
  have ha := verified_of_verifyDerived hname hder
  obtain ⟨name, hid, hin, -⟩ := ha.named
  have hseen : ((textOf a "id").filter fun s => s ∈ engineOrder).toList = [idText a] := by
    simp [textOf, idText, hid, asStr, hin, OwnIR.str]
  rw [hseen] at hname'
  exact ⟨ha, verified_of_verifyDerived hname' hder'⟩

theorem sarifs_pair {a b : Members} (h : idText b ≠ idText a) :
    sarifs [a, b] = [(idText a, members (sarifOf a)), (idText b, members (sarifOf b))] := by
  simp [sarifs, latest, upsert, h.symm]

/-! ## What it says -/

/-- Both engines produced the surface, and the reduction has nothing to say of the verdict layer. -/
def SurfacesComparable (reduction : Reduction) (a b : Members) : Prop :=
  produced (members (sarifOf a)) = true ∧ produced (members (sarifOf b)) = true ∧
    ∀ o ∈ reduction.observations, o.layer ≠ "verdicts"

/-- The outcome that goes with the two identities. -/
structure OutcomeExact (reduction : Reduction) (a b : Members) (outcome : DerivedVerdict) : Prop where
  equal : outcome = .equal ↔ SurfacesComparable reduction a b ∧ held (canonicalOf a) (canonicalOf b) = true
  rendererOnly : outcome = .rendererOnly ↔ SurfacesComparable reduction a b ∧ held (canonicalOf a) (canonicalOf b) = false

section Pair

variable {reduction : Reduction} (k k' : String) {sarif sarif' : Members}

theorem compared_apart (h : ¬ (produced sarif = true ∧ produced sarif' = true ∧ onVerdicts reduction = [])) :
    ∃ o, compareIdentities 2 [(k, sarif), (k', sarif')] reduction = .ok o ∧ o.outcome = .notComparable := by
  unfold compareIdentities
  rw [if_neg (by decide)]
  by_cases hrefused : ([(k, sarif), (k', sarif')].filter fun s => !produced s.2) = []
  · rw [if_neg (not_not.mpr hrefused)]
    have hboth : produced sarif = true ∧ produced sarif' = true := by simpa [List.filter_eq_nil_iff] using hrefused
    cases hobs : onVerdicts reduction with
    | nil => exact absurd ⟨hboth.1, hboth.2, hobs⟩ h
    | cons first rest => exact ⟨_, rfl, rfl⟩
  · rw [if_pos hrefused]
    exact ⟨_, rfl, rfl⟩

theorem compared_digests (h : produced sarif = true ∧ produced sarif' = true ∧ onVerdicts reduction = []) (hd : Digestible sarif)
    (hd' : Digestible sarif') :
    ∃ o, compareIdentities 2 [(k, sarif), (k', sarif')] reduction = .ok o ∧
      o.outcome = if held (recordedDigest sarif) (recordedDigest sarif') = true then .equal else .rendererOnly := by
  have hall : ∀ s ∈ [(k, sarif), (k', sarif')], Digestible s.2 := by simp [hd, hd']
  have hdigests := digestsOf_ok.mpr ⟨hall, rfl⟩
  unfold compareIdentities
  rw [if_neg (by decide), if_neg (by simp [h.1, h.2.1]), h.2.2]
  simp only [hdigests]
  by_cases hsame : held (recordedDigest sarif) (recordedDigest sarif') = true
  · rw [if_pos hsame]
    exact ⟨_, if_pos ((heldSet_pair _ _).mpr hsame), rfl⟩
  · rw [if_neg hsame]
    exact ⟨_, if_neg fun hone => hsame ((heldSet_pair _ _).mp hone), rfl⟩

end Pair

theorem exact_iff {artifact a b : Members} {reduction : Reduction}
    (htwo : lookup artifact "engines" = some (.arr [.obj a, .obj b]))
    (hverified : engineProblems artifact = []) :
    (∃ o, derivedOutcome artifact reduction = .ok o ∧ OutcomeExact reduction a b o.outcome) ↔
      (SurfacesComparable reduction a b → hashable (digestOf a) = true ∧ hashable (digestOf b) = true ∧
        (held (digestOf a) (digestOf b) = true → held (canonicalOf a) (canonicalOf b) = true)) := by
  obtain ⟨ha, hb⟩ := verified_pair htwo hverified
  have hentries : engineEntries artifact = [a, b] := by simp [engineEntries, htwo, asObj]
  have hid : idText b ≠ idText a := by
    obtain ⟨name, hname, -, hnot⟩ := hb.named
    rw [idText, hname]
    exact fun he => hnot (List.mem_singleton.mpr he)
  have hread : identitiesOf artifact = .ok [(idText a, members (sarifOf a)), (idText b, members (sarifOf b))] := by
    refine identitiesOf_ok.mpr ⟨⟨by simp [iterable, htwo], ?_, ?_⟩, by rw [hentries, sarifs_pair hid]⟩
    · rw [hentries]
      obtain ⟨da, hda⟩ := ha.derived
      obtain ⟨db, hdb⟩ := hb.derived
      simp [hda, hdb, tolerable]
    · rw [hentries]
      obtain ⟨sa, hsa⟩ := ha.sarif
      obtain ⟨sb, hsb⟩ := hb.sarif
      rintro e ⟨before, after, heq, -⟩
      have he : e ∈ [a, b] := heq ▸ List.mem_append_right _ List.mem_cons_self
      rcases List.mem_cons.mp he with rfl | he
      · rw [hsa, tolerable]
      · rw [List.mem_singleton.mp he, hsb, tolerable]
  have hrun : derivedOutcome artifact reduction =
      compareIdentities 2 [(idText a, members (sarifOf a)), (idText b, members (sarifOf b))] reduction := by
    rw [derivedOutcome, hread, hentries]
    rfl
  have hcomparable : SurfacesComparable reduction a b ↔
      produced (members (sarifOf a)) = true ∧ produced (members (sarifOf b)) = true ∧ onVerdicts reduction = [] := by
    simp [SurfacesComparable, onVerdicts, List.filter_eq_nil_iff]
  rw [hrun]
  by_cases hc : SurfacesComparable reduction a b
  · obtain ⟨ca, hca⟩ := ha.canonical hc.1
    obtain ⟨cb, hcb⟩ := hb.canonical hc.2.1
    have hmono : held (canonicalOf a) (canonicalOf b) = true → held (digestOf a) (digestOf b) = true := by
      intro hsame
      rw [hca, hcb] at hsame
      rw [digestOf, digestOf, hca, hcb]
      exact held_get hsame "digest"
    have hda : Digestible (members (sarifOf a)) ↔ hashable (digestOf a) = true :=
      and_iff_right (show tolerable (canonicalOf a) = true by rw [hca, tolerable])
    have hdb : Digestible (members (sarifOf b)) ↔ hashable (digestOf b) = true :=
      and_iff_right (show tolerable (canonicalOf b) = true by rw [hcb, tolerable])
    constructor
    · rintro ⟨o, hok, hexact⟩ -
      have hall := compareIdentities_ok.mp ⟨o, hok⟩ (Nat.le_refl 2) (by simp [hc.1, hc.2.1]) (hcomparable.mp hc).2.2
      have hboth := hall _ List.mem_cons_self
      have hboth' := hall _ (List.mem_cons_of_mem _ List.mem_cons_self)
      refine ⟨hda.mp hboth, hdb.mp hboth', fun hsame => ?_⟩
      obtain ⟨o', hok', hout⟩ := compared_digests (idText a) (idText b) (hcomparable.mp hc) hboth hboth'
      rw [hok] at hok'
      cases hok'
      exact (hexact.equal.mp (hout.trans (if_pos hsame))).2
    · intro h
      obtain ⟨hha, hhb, hdecides⟩ := h hc
      obtain ⟨o, hok, hout⟩ := compared_digests (idText a) (idText b) (hcomparable.mp hc) (hda.mpr hha) (hdb.mpr hhb)
      change o.outcome = if held (digestOf a) (digestOf b) = true then .equal else .rendererOnly at hout
      refine ⟨o, hok, ?_, ?_⟩
      · by_cases hsame : held (digestOf a) (digestOf b) = true
        · simp [hout, hsame, hc, hdecides hsame]
        · simp [hout, hsame, mt hmono hsame]
      · by_cases hsame : held (digestOf a) (digestOf b) = true
        · simp [hout, hsame, hdecides hsame]
        · simpa [hout, hsame, hc] using mt hmono hsame
  · obtain ⟨o, hok, hout⟩ := compared_apart (idText a) (idText b) (mt hcomparable.mpr hc)
    refine iff_of_true ⟨o, hok, ?_, ?_⟩ fun h => absurd h hc
    · simp [hout, hc]
    · simp [hout, hc]

/-! ## Total and exact -/

/-- An engine that recorded a list where its derived surface belongs. -/
def listed : Members :=
  [("engines", .arr [.obj [("id", .str "python-ownlang"), ("layers", .arr []), ("derived", .arr [.int 1])]])]

def recorded (engine algorithm : String) : Json :=
  .obj [("id", .str engine),
    ("layers", .arr [.obj [("layer", .str "verdicts"), ("status", .str "produced")]]),
    ("derived", .obj [("sarif", .obj [("configuration", .str "severity=error"), ("status", .str "produced"),
      ("canonical", .obj [("algorithm", .str algorithm), ("digest", .str "0f")])])])]

/-- A trace of which the verdict layer is all there is. -/
def verdictTrace (engine : String) : Trace :=
  ⟨.str engine, [{ layer := "verdicts", status := .produced, projection := .full, order := .canonical }]⟩

end OwnNet.Repro
