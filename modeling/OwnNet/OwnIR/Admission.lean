/-
  OwnNet.OwnIR.Admission — `_admit_proven_calls`: before anything is lowered, every
  `proven_call` is to stand in an exclusive region and to be proved harmless by the heap
  effects of the document.

  The scan goes into `then`, `else` and `body` of every op, whatever its kind, and no deeper
  than 256 lists below a function's body; `depths` has every `proven_call` at any depth.

  Proved: `scan_iff`: what the scan finds is what stands no deeper than that; `admit_ok`:
  a document it lets pass has a harmless proof for everything it found; `admit_error`: what
  it does not let pass it refuses with an `OwnIRError`.
-/

import OwnNet.HeapEffects.Solve
import OwnNet.OwnIR.Contracts

namespace OwnNet.OwnIR

/-- A `proven_call`, the file of its function, and whether it is in a region. -/
structure Site where
  fields : Fields
  file : String
  inRegion : Bool

mutual

def provenCallsNode (file : String) (inRegion : Bool) (depth : Nat) : Node → List Site
  | .junk => []
  | .op fields thenOps elseOps bodyOps =>
    let inner := inRegion || opKind fields = .borrowMut
    (if opKind fields = .provenCall then [⟨fields, file, inRegion⟩] else []) ++
      (provenCalls file inner (depth + 1) thenOps ++ provenCalls file inner (depth + 1) elseOps ++
        provenCalls file inner (depth + 1) bodyOps)

/-- `_proven_calls`: a list more than 256 lists deep is not looked at. -/
def provenCalls (file : String) (inRegion : Bool) (depth : Nat) : List Node → List Site
  | [] => []
  | n :: rest => if 256 < depth then [] else provenCallsNode file inRegion depth n ++ provenCalls file inRegion depth rest

end

mutual

def depthsNode (file : String) (inRegion : Bool) (depth : Nat) : Node → List (Nat × Site)
  | .junk => []
  | .op fields thenOps elseOps bodyOps =>
    let inner := inRegion || opKind fields = .borrowMut
    (if opKind fields = .provenCall then [(depth, ⟨fields, file, inRegion⟩)] else []) ++
      (depths file inner (depth + 1) thenOps ++ depths file inner (depth + 1) elseOps ++ depths file inner (depth + 1) bodyOps)

/-- Every `proven_call` of a body, with the number of lists around it. -/
def depths (file : String) (inRegion : Bool) (depth : Nat) : List Node → List (Nat × Site)
  | [] => []
  | n :: rest => depthsNode file inRegion depth n ++ depths file inRegion depth rest

end

def scan (fns : List Fn) : List Site := fns.flatMap fun fn => provenCalls fn.file false 0 fn.body

/-- Every `proven_call` of the functions. -/
def allProvenCalls (fns : List Fn) : List (Nat × Site) := fns.flatMap fun fn => depths fn.file false 0 fn.body

/-! ## Admission -/

/-- The site and the callee a `proven_call` names. -/
def Site.names (s : Site) : Option (String × String) :=
  match Json.get s.fields "site", Json.get s.fields "callee" with
  | .str site, .str callee => if site ≠ "" ∧ callee ≠ "" then some (site, callee) else none
  | _, _ => none

def Site.place (s : Site) : String := "(" ++ s.file ++ ":" ++ toString (lineOf s.fields) ++ ")"

/-- What is wrong with a site before its proof is looked for. -/
def Site.shape (s : Site) : Option String :=
  if s.names = none then
    some ("OwnIR flow op 'proven_call' needs a non-empty string 'site' and a non-empty string 'callee' " ++ s.place)
  else if s.inRegion then none
  else
    some ("OwnIR 'proven_call' outside a borrow_mut region " ++ s.place ++
      " — refused: the op admits a call only inside an exclusive region")

/-- What is wrong with a site's proof. -/
def Site.verdict (ms : List (HeapEffects.Method HeapEffects.Tok)) (S : HeapEffects.Solved) (s : Site) : Option String :=
  match s.names with
  | none => none
  | some (site, callee) =>
    match HeapEffects.byKey ms site with
    | none =>
      some ("OwnIR 'proven_call' site '" ++ site ++ "' has no record in 'heap_effects' " ++ s.place ++
        " — refused: no evidence is not harmless")
    | some m =>
      (HeapEffects.siteVerdict ms S m callee).map fun reason =>
        "OwnIR 'proven_call' to '" ++ callee ++ "' is not proven harmless: " ++ reason ++ " " ++ s.place ++
          " — refused: an exclusive region admits only calls the effect summaries prove harmless"

/-- The first complaint about a list of sites. -/
def complaint (f : Site → Option String) : List Site → Except Raise Unit
  | [] => .ok ()
  | s :: rest =>
    match f s with
    | some text => .error (.ownIRError text)
    | none => complaint f rest

/-- `_admit_proven_calls`; nothing where the heap-effect solver has not ended within the fuel. -/
def admitProvenCalls (fuel : Nat) (facts : Fields) : Option (Except Raise Unit) :=
  match scan (Fn.readAll (Json.get facts "functions")) with
  | [] => some (.ok ())
  | first :: rest =>
    let sites := first :: rest
    match complaint Site.shape sites with
    | .error e => some (.error e)
    | .ok _ =>
      let doc := Json.get facts "heap_effects"
      if isNull doc then
        some <| .error <| .ownIRError <|
          "OwnIR 'proven_call' " ++ first.place ++ " needs the 'heap_effects' section — refused: a call with no effect " ++
            "evidence is not harmless"
      else
        match HeapEffects.load doc with
        | .error e => some (.error (.ownIRError ("OwnIR 'heap_effects' section is malformed — " ++ e)))
        | .ok ms =>
          (HeapEffects.solve fuel ms).map fun S => complaint (Site.verdict ms S) sites

/-! ## What the scan finds -/

theorem depths_le : (∀ n file inRegion depth, ∀ e ∈ depthsNode file inRegion depth n, depth ≤ e.1) ∧
    ∀ ns file inRegion depth, ∀ e ∈ depths file inRegion depth ns, depth ≤ e.1 := by
  apply Node.induct
  · exact fun file inRegion depth e he => absurd he List.not_mem_nil
  · intro fields t e b ht he hb file inRegion depth x hx
    rw [depthsNode] at hx
    simp only [List.mem_append] at hx
    rcases hx with hx | (hx | hx) | hx
    · split at hx
      · rw [List.mem_singleton.mp hx]
      · cases hx
    · have := ht file _ (depth + 1) x hx
      omega
    · have := he file _ (depth + 1) x hx
      omega
    · have := hb file _ (depth + 1) x hx
      omega
  · exact fun file inRegion depth e he => absurd he List.not_mem_nil
  · intro n ns hn hns file inRegion depth x hx
    rw [depths, List.mem_append] at hx
    rcases hx with hx | hx
    · exact hn file inRegion depth x hx
    · exact hns file inRegion depth x hx

/-- The scan has exactly the calls that stand 256 lists deep at most. -/
theorem scan_filter : (∀ n file inRegion depth, depth ≤ 256 →
      provenCallsNode file inRegion depth n =
        ((depthsNode file inRegion depth n).filter fun e => e.1 ≤ 256).map Prod.snd) ∧
    ∀ ns file inRegion depth, provenCalls file inRegion depth ns =
      ((depths file inRegion depth ns).filter fun e => e.1 ≤ 256).map Prod.snd := by
  apply Node.induct
  · exact fun file inRegion depth _ => rfl
  · intro fields t e b ht he hb file inRegion depth hd
    rw [provenCallsNode, depthsNode]
    simp only [List.filter_append, List.map_append, ht, he, hb]
    congr 1
    split
    · rw [List.filter_cons_of_pos (by simpa using hd)]
      rfl
    · rfl
  · exact fun file inRegion depth => rfl
  · intro n ns hn hns file inRegion depth
    rw [provenCalls, depths]
    split
    next hd =>
      rw [List.filter_eq_nil_iff.mpr fun x hx => ?_]
      · rfl
      · have hle : depth ≤ x.1 := by
          rcases List.mem_append.mp hx with hx | hx
          · exact depths_le.1 n file inRegion depth x hx
          · exact depths_le.2 ns file inRegion depth x hx
        have : ¬x.1 ≤ 256 := by omega
        simpa using this
    next hd => rw [hn file inRegion depth (by omega), hns, List.filter_append, List.map_append]

theorem scan_iff {fns : List Fn} {s : Site} : s ∈ scan fns ↔ ∃ depth ≤ 256, (depth, s) ∈ allProvenCalls fns := by
  unfold scan allProvenCalls
  simp only [List.mem_flatMap, scan_filter.2, List.mem_map, List.mem_filter]
  constructor
  · intro h
    obtain ⟨fn, hfn, e, ⟨he, hd⟩, rfl⟩ := h
    exact ⟨e.1, by simpa using hd, fn, hfn, he⟩
  · intro h
    obtain ⟨depth, hd, fn, hfn, he⟩ := h
    exact ⟨fn, hfn, (depth, s), ⟨he, by simpa using hd⟩, rfl⟩

/-! ## What a document that passes has -/

theorem complaint_ok {f : Site → Option String} {sites : List Site} : complaint f sites = .ok () ↔ ∀ s ∈ sites, f s = none := by
  induction sites with
  | nil => exact ⟨fun _ s hs => absurd hs List.not_mem_nil, fun _ => rfl⟩
  | cons s rest ih =>
    rw [List.forall_mem_cons, complaint]
    cases hs : f s with
    | none => exact ⟨fun h => ⟨rfl, ih.mp h⟩, fun h => ih.mpr h.2⟩
    | some text => exact ⟨fun h => (by cases h), fun h => (by cases h.1)⟩

theorem complaint_error {f : Site → Option String} {sites : List Site} {e : Raise} (h : complaint f sites = .error e) :
    ∃ text, e = .ownIRError text := by
  induction sites with
  | nil => cases h
  | cons s rest ih =>
    rw [complaint] at h
    cases hs : f s with
    | none =>
      rw [hs] at h
      exact ih h
    | some text =>
      rw [hs] at h
      cases h
      exact ⟨text, rfl⟩

/-- In a region, and harmless by the heap effects of the document: the site has a record, and
    `site_verdict` has no complaint about the call. -/
def Site.Backed (facts : Fields) (fuel : Nat) (s : Site) : Prop :=
  s.inRegion = true ∧ ∃ site callee ms S m, Json.get s.fields "site" = .str site ∧ Json.get s.fields "callee" = .str callee ∧
    HeapEffects.load (Json.get facts "heap_effects") = .ok ms ∧ HeapEffects.solve fuel ms = some S ∧
    HeapEffects.byKey ms site = some m ∧ HeapEffects.siteVerdict ms S m callee = none

theorem Site.names_some {s : Site} {site callee : String} (h : s.names = some (site, callee)) :
    Json.get s.fields "site" = .str site ∧ Json.get s.fields "callee" = .str callee := by
  unfold Site.names at h
  split at h
  next hsite hcallee =>
    split at h
    · cases h
      exact ⟨hsite, hcallee⟩
    · cases h
  next => cases h

theorem Site.backed {facts : Fields} {fuel : Nat} {ms : List (HeapEffects.Method HeapEffects.Tok)} {S : HeapEffects.Solved}
    (hms : HeapEffects.load (Json.get facts "heap_effects") = .ok ms) (hS : HeapEffects.solve fuel ms = some S) {s : Site}
    (hshape : s.shape = none) (hverdict : s.verdict ms S = none) : s.Backed facts fuel := by
  unfold Site.shape at hshape
  unfold Site.verdict at hverdict
  split at hshape
  next => cases hshape
  next hnames =>
    split at hshape
    next hregion =>
      cases hn : s.names with
      | none => exact absurd hn hnames
      | some names =>
        obtain ⟨site, callee⟩ := names
        rw [hn] at hverdict
        simp only at hverdict
        split at hverdict
        next => cases hverdict
        next m hm =>
          obtain ⟨hsite, hcallee⟩ := Site.names_some hn
          exact ⟨hregion, site, callee, ms, S, m, hsite, hcallee, hms, hS, hm, by simpa using hverdict⟩
    next => cases hshape

/-- A document is refused with an `OwnIRError` only. -/
theorem admit_error {fuel : Nat} {facts : Fields} {e : Raise} (h : admitProvenCalls fuel facts = some (.error e)) :
    ∃ text, e = .ownIRError text := by
  unfold admitProvenCalls at h
  split at h
  next => cases h
  next first rest hsites =>
    simp only at h
    split at h
    next e' hshape =>
      cases h
      exact complaint_error hshape
    next =>
      split at h
      next =>
        cases h
        exact ⟨_, rfl⟩
      next =>
        split at h
        next =>
          cases h
          exact ⟨_, rfl⟩
        next ms hms =>
          cases hS : HeapEffects.solve fuel ms with
          | none =>
            rw [hS] at h
            cases h
          | some S =>
            rw [hS] at h
            exact complaint_error (Option.some.inj h)

theorem admit_ok {fuel : Nat} {facts : Fields} (h : admitProvenCalls fuel facts = some (.ok ())) :
    ∀ s ∈ scan (Fn.readAll (Json.get facts "functions")), s.Backed facts fuel := by
  unfold admitProvenCalls at h
  split at h
  next hnil =>
    rw [hnil]
    exact fun s hs => absurd hs List.not_mem_nil
  next first rest hsites =>
    rw [hsites]
    simp only at h
    split at h
    next => cases h
    next hshape =>
      rw [complaint_ok] at hshape
      split at h
      next => cases h
      next =>
        split at h
        next => cases h
        next ms hms =>
          cases hS : HeapEffects.solve fuel ms with
          | none =>
            rw [hS] at h
            cases h
          | some S =>
            rw [hS] at h
            have hverdict := complaint_ok.mp (Option.some.inj h)
            exact fun s hs => Site.backed hms hS (hshape s hs) (hverdict s hs)

end OwnNet.OwnIR
