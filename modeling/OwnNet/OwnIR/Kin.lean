/-
  OwnNet.OwnIR.Kin — the handles that share or take over the obligation of a declared one,
  read off the statements of a function.

  A finding names the symbol it is about by `handle#line`; the bridge keeps the handle.

  Proved: `kinOf_governs`: where no two names are alike, a source is declared before its
  target and no name has a `#`, what is read off is what the core makes of the names.
-/

import OwnNet.Lang.Owed

namespace OwnNet.OwnIR

open Lang

/-- `_handle_of`: what a finding is about, without the line. -/
def handleOf (subject : Option String) : Option String :=
  subject.bind fun s => if s = "" then none else some (String.ofList (s.toList.takeWhile fun c => c ≠ '#'))

/-! ## What the statements say -/

/-- The handle that a move or an alias takes from. -/
def source : Stmt → Option String
  | .let_ _ (.move src _) _ | .aliasJoin _ src _ => some src
  | _ => none

/-- A name declared for something else than an owner. -/
def lent : Stmt → Option String
  | .let_ name (.varRef _ _) _ | .let_ name (.intLit _ _) _ | .borrowBlock _ name _ _ _ => some name
  | _ => none

/-- The handles with their roots, a statement later. -/
def enroll (roots : List (String × String)) : Stmt → List (String × String)
  | .let_ name (.move src _) _ => if (entry roots src).isSome then (name, name) :: roots else roots
  | .aliasJoin name src _ =>
    match entry roots src with
    | some r => (name, r) :: roots
    | none => roots
  | _ => roots

/-- The handles of `hh`'s obligation, each with the one it shares it with. -/
def rootsOf (hh : String) (body : List Stmt) : List (String × String) := (piecesSeq body).foldl enroll [(hh, hh)]

def isOwnedParam (env : Env) (p : Param) : Bool := p.type.borrowed = false ∧ p.type.name ∈ env.resourceNames

def notOwners (env : Env) (fn : FnDecl) : List String :=
  (fn.params.filter fun p => !isOwnedParam env p).map Param.name ++ (piecesSeq fn.body).filterMap lent

def kinOf (env : Env) (fn : FnDecl) (hh : String) : Kin where
  root name := entry (rootsOf hh fn.body) name
  owner name := name ∉ notOwners env fn ∨ (entry (rootsOf hh fn.body) name).isSome
  ours subject := handleOf subject = some hh
  owned _ _ h := by simp [h]
  unnamed := rfl

/-! ## Roots -/

theorem entry_cons {α : Type} (e : String × α) (l : List (String × α)) (n : String) :
    entry (e :: l) n = if e.1 = n then some e.2 else entry l n := by
  unfold entry
  rw [List.find?_cons]
  by_cases h : e.1 = n <;> simp [h]

/-- A statement enrolls nothing but the target of a move or an alias. -/
theorem entry_enroll {R : List (String × String)} {x : Stmt} {n : String} (h : x.declared = some n → source x = none) :
    entry (enroll R x) n = entry R n := by
  unfold enroll
  split
  next name src _ _ =>
    have hne : name ≠ n := fun heq => by cases h (by rw [← heq]; rfl)
    split
    · rw [entry_cons, if_neg hne]
    · rfl
  next name src _ =>
    have hne : name ≠ n := fun heq => by cases h (by rw [← heq]; rfl)
    split
    · rw [entry_cons, if_neg hne]
    · rfl
  · rfl

theorem entry_foldl {ps : List Stmt} {R : List (String × String)} {n : String}
    (h : ∀ x ∈ ps, x.declared = some n → source x = none) : entry (ps.foldl enroll R) n = entry R n := by
  induction ps generalizing R with
  | nil => rfl
  | cons x rest ih =>
    rw [List.foldl_cons, ih fun y hy => h y (List.mem_cons_of_mem _ hy), entry_enroll (h x List.mem_cons_self)]

/-- What a target gets of the root of its source. -/
def rootFrom (name : String) : Stmt → Option String → Option String
  | .aliasJoin _ _ _, r => r
  | _, r => r.map fun _ => name

theorem entry_target {pre post : List Stmt} {x : Stmt} {R : List (String × String)} {n src : String} (hn : x.declared = some n)
    (hsrc : source x = some src) (hfresh : ∀ y ∈ pre ++ post, y.declared ≠ some n)
    (hbefore : ∀ y ∈ x :: post, y.declared ≠ some src) (hR : entry R n = none) :
    entry ((pre ++ x :: post).foldl enroll R) n = rootFrom n x (entry ((pre ++ x :: post).foldl enroll R) src) := by
  rw [List.foldl_append, List.foldl_cons]
  have hpre : entry (pre.foldl enroll R) n = none := by
    rw [entry_foldl fun y hy hd => absurd hd (hfresh y (List.mem_append_left _ hy)), hR]
  rw [entry_foldl fun y hy hd => absurd hd (hfresh y (List.mem_append_right _ hy)),
    entry_foldl fun y hy hd => absurd hd (hbefore y (List.mem_cons_of_mem _ hy)),
    entry_enroll fun hd => absurd hd (hbefore x List.mem_cons_self)]
  cases x with
  | let_ name rhs line =>
    cases rhs with
    | move s l =>
      cases hn
      cases hsrc
      simp only [enroll, rootFrom]
      cases hs : entry (pre.foldl enroll R) src with
      | none => simpa [hs] using hpre
      | some r => simp [entry_cons]
    | _ => cases hsrc
  | aliasJoin name s line =>
    cases hn
    cases hsrc
    simp only [enroll, rootFrom]
    cases hs : entry (pre.foldl enroll R) src with
    | none => simpa [hs] using hpre
    | some r => simp [entry_cons]
  | _ => cases hsrc

/-! ## A function whose names are told apart -/

structure Distinct (fn : FnDecl) : Prop where
  nodup : (fn.params.map Param.name ++ declares fn.body).Nodup
  plain : ∀ n ∈ fn.params.map Param.name ++ declares fn.body, '#' ∉ n.toList
  before : ∀ pre x post src, piecesSeq fn.body = pre ++ x :: post → source x = some src →
    ∀ y ∈ x :: post, y.declared ≠ some src

section

variable {fn : FnDecl} {env : Env} {hh : String}

theorem mem_declares {body : List Stmt} {x : Stmt} {n : String} (hx : x ∈ piecesSeq body) (hn : x.declared = some n) :
    n ∈ declares body := List.mem_filterMap.mpr ⟨x, hx, hn⟩

/-- A name has one declaration. -/
theorem declared_once {ps : List Stmt} (h : (ps.filterMap Stmt.declared).Nodup) {x y : Stmt}
    {n : String} (hx : x ∈ ps) (hy : y ∈ ps)
    (hxn : x.declared = some n) (hyn : y.declared = some n) : x = y := by
  induction ps with
  | nil => cases hx
  | cons z rest ih =>
    have hrest : (rest.filterMap Stmt.declared).Nodup := h.sublist ((List.sublist_cons_self _ _).filterMap _)
    have hhead : ∀ w ∈ rest, w.declared = some n → z.declared ≠ some n := by
      intro w hw hwn hzn
      rw [List.filterMap_cons, hzn] at h
      exact (List.nodup_cons.mp h).1 (List.mem_filterMap.mpr ⟨w, hw, hwn⟩)
    rcases List.mem_cons.mp hx with hxz | hxr
    · rcases List.mem_cons.mp hy with hyz | hyr
      · rw [hxz, hyz]
      · exact absurd (hxz ▸ hxn) (hhead y hyr hyn)
    · rcases List.mem_cons.mp hy with hyz | hyr
      · exact absurd (hyz ▸ hyn) (hhead x hxr hxn)
      · exact ih hrest hxr hyr

/-- The one declaration of a name, between the others. -/
theorem declared_apart {ps : List Stmt} (h : (ps.filterMap Stmt.declared).Nodup) {x : Stmt} {n : String} (hx : x ∈ ps)
    (hn : x.declared = some n) : ∃ pre post, ps = pre ++ x :: post ∧ ∀ y ∈ pre ++ post, y.declared ≠ some n := by
  obtain ⟨pre, post, rfl⟩ := List.append_of_mem hx
  rw [List.filterMap_append, List.filterMap_cons, hn] at h
  have hmid := List.nodup_middle.mp h
  rw [← List.filterMap_append] at hmid
  exact ⟨pre, post, rfl, fun y hy hyn => (List.nodup_cons.mp hmid).1 (List.mem_filterMap.mpr ⟨y, hy, hyn⟩)⟩

theorem lent_declared {x : Stmt} {n : String} (h : lent x = some n) : x.declared = some n := by
  unfold lent at h
  split at h
  all_goals first | exact h | cases h

theorem handleOf_text {n : String} (hn : '#' ∉ n.toList) (rest : String) : handleOf (some (n ++ "#" ++ rest)) = some n := by
  have hne : n ++ "#" ++ rest ≠ "" := by
    intro h
    have := congrArg String.toList h
    simp at this
  have htake : (n ++ "#" ++ rest).toList.takeWhile (fun c => c ≠ '#') = n.toList := by
    rw [String.toList_append, String.toList_append, List.append_assoc, List.takeWhile_append_of_pos fun c hc => ?_]
    · simp
    · have : c ≠ '#' := fun heq => hn (heq ▸ hc)
      simpa using this
  simp only [handleOf, Option.bind_some, if_neg hne, htake, String.ofList_toList]

namespace Distinct

theorem body_nodup (h : Distinct fn) : (declares fn.body).Nodup := h.nodup.of_append_right

theorem not_param (h : Distinct fn) {p : Param} (hp : p ∈ fn.params) : p.name ∉ declares fn.body :=
  fun hmem => List.disjoint_of_nodup_append h.nodup (List.mem_map_of_mem hp) hmem

theorem handle_of (h : Distinct fn) {n : String} (hn : n ∈ fn.params.map Param.name ++ declares fn.body) (rest : String) :
    handleOf (some (n ++ "#" ++ rest)) = some n := handleOf_text (h.plain n hn) rest

/-- A name no move and no alias declares is its own root or none. -/
theorem root_other (env : Env) (hh : String) (h : Distinct fn) {x : Stmt} {n : String} (hx : x ∈ piecesSeq fn.body)
    (hn : x.declared = some n)
    (hsrc : source x = none) : (kinOf env fn hh).root n = if hh = n then some hh else none := by
  have hout : entry (rootsOf hh fn.body) n = entry [(hh, hh)] n :=
    entry_foldl fun y hy hyn => by rw [declared_once h.body_nodup hy hx hyn hn, hsrc]
  show entry (rootsOf hh fn.body) n = _
  rw [hout, entry_cons]
  rfl

/-- An owner's name is no one else's. -/
theorem owner_of (h : Distinct fn) {x : Stmt} {n : String} (hx : x ∈ piecesSeq fn.body) (hn : x.declared = some n)
    (hl : lent x = none) : (kinOf env fn hh).owner n = true := by
  have hout : n ∉ notOwners env fn := by
    intro hmem
    rcases List.mem_append.mp hmem with hmem | hmem
    · obtain ⟨p, hp, rfl⟩ := List.mem_map.mp hmem
      exact h.not_param (List.mem_filter.mp hp).1 (mem_declares hx hn)
    · obtain ⟨y, hy, hyn⟩ := List.mem_filterMap.mp hmem
      rw [declared_once h.body_nodup hy hx (lent_declared hyn) hn, hl] at hyn
      cases hyn
  simp [kinOf, hout]

variable {rhs : Expr} {resource : String} {args : List Expr} {rline hline : Int}

/-- What is not declared by an acquire is not the handle. -/
theorem ne_handle (h : Distinct fn) (hacq : .let_ hh (.acquire resource args rline) hline ∈ piecesSeq fn.body) {x : Stmt}
    {n : String} (hx : x ∈ piecesSeq fn.body) (hn : x.declared = some n)
    (hno : ∀ res as l l', x ≠ .let_ hh (.acquire res as l) l') : hh ≠ n := by
  rintro rfl
  exact hno _ _ _ _ (declared_once h.body_nodup hx hacq hn rfl)

theorem lent_tied (h : Distinct fn) (hacq : .let_ hh (.acquire resource args rline) hline ∈ piecesSeq fn.body) {x : Stmt}
    {n : String} (hx : x ∈ piecesSeq fn.body) (hl : lent x = some n) (hsrc : source x = none)
    (hno : ∀ res as l l', x ≠ .let_ hh (.acquire res as l) l') :
    (kinOf env fn hh).owner n = false ∧ (kinOf env fn hh).root n = none := by
  have hn := lent_declared hl
  have hroot : (kinOf env fn hh).root n = none := by
    rw [h.root_other _ _ hx hn hsrc, if_neg (h.ne_handle hacq hx hn hno)]
  have hmem : n ∈ notOwners env fn := List.mem_append_right _ (List.mem_filterMap.mpr ⟨x, hx, hl⟩)
  refine ⟨?_, hroot⟩
  change entry (rootsOf hh fn.body) n = none at hroot
  simp [kinOf, hmem, hroot]

theorem target_root (h : Distinct fn) (hacq : .let_ hh (.acquire resource args rline) hline ∈ piecesSeq fn.body) {x : Stmt}
    {n src : String} (hx : x ∈ piecesSeq fn.body) (hn : x.declared = some n) (hsrc : source x = some src) :
    (kinOf env fn hh).root n = rootFrom n x ((kinOf env fn hh).root src) := by
  obtain ⟨pre, post, hsplit, hfresh⟩ := declared_apart h.body_nodup hx hn
  have hne : hh ≠ n := h.ne_handle hacq hx hn fun res as l l' heq => by
    rw [heq] at hsrc
    cases hsrc
  have hR : entry [(hh, hh)] n = none := by
    rw [entry_cons, if_neg hne]
    rfl
  show entry ((piecesSeq fn.body).foldl enroll _) n = rootFrom n x (entry ((piecesSeq fn.body).foldl enroll _) src)
  rw [hsplit]
  exact entry_target hn hsrc hfresh (h.before pre x post src hsplit hsrc) hR

end Distinct

theorem kinOf_governs (h : Distinct fn) {resource : String} {args : List Expr} {rline hline : Int}
    (hacq : .let_ hh (.acquire resource args rline) hline ∈ piecesSeq fn.body) : (kinOf env fn hh).Governs env fn := by
  refine ⟨fun p hp => ?_, fun x hx => ?_, h.nodup⟩
  · have hne : p.name ≠ hh := fun heq => h.not_param hp (heq ▸ mem_declares hacq rfl)
    have hroot : entry (rootsOf hh fn.body) p.name = none := by
      have hout : entry (rootsOf hh fn.body) p.name = entry [(hh, hh)] p.name :=
        entry_foldl fun y hy hyn => absurd (mem_declares hy hyn) (h.not_param hp)
      rw [hout, entry_cons, if_neg (Ne.symm hne)]
      rfl
    have hnames : (fn.params.map Param.name).Nodup := h.nodup.of_append_left
    have hmem : p.name ∈ notOwners env fn ↔ isOwnedParam env p = false := by
      constructor
      · intro hmem
        rcases List.mem_append.mp hmem with hmem | hmem
        · obtain ⟨q, hq, hqp⟩ := List.mem_map.mp hmem
          obtain ⟨hq, hown⟩ := List.mem_filter.mp hq
          rw [← List.inj_on_of_nodup_map hnames hq hp hqp]
          simpa using hown
        · obtain ⟨y, hy, hyn⟩ := List.mem_filterMap.mp hmem
          exact absurd (mem_declares hy (lent_declared hyn)) (h.not_param hp)
      · intro hown
        exact List.mem_append_left _ (List.mem_map_of_mem (List.mem_filter.mpr ⟨hp, by simp [hown]⟩))
    refine ⟨hroot, ?_, ?_⟩
    · have hof := h.handle_of (List.mem_append_left _ (List.mem_map_of_mem hp)) (toString p.line)
      show decide (handleOf (some (p.name ++ "#" ++ toString p.line)) = some hh) = false
      rw [hof]
      simpa using hne
    · simp only [kinOf, hroot, hmem, isOwnedParam]
      simp
  · have hin : ∀ n, x.declared = some n → n ∈ fn.params.map Param.name ++ declares fn.body :=
      fun n hn => List.mem_append_right _ (mem_declares hx hn)
    cases x with
    | let_ name rhs line =>
      cases rhs with
      | acquire res as rl =>
        have hof := h.handle_of (hin name rfl) (toString rl)
        have hroot := h.root_other env hh hx rfl rfl
        refine ⟨h.owner_of hx rfl rfl, fun r hr => ?_, ?_⟩
        · rw [hroot] at hr
          by_cases heq : hh = name
          · rw [if_pos heq] at hr
            rw [← heq, Option.some.inj hr]
          · simp [heq] at hr
        · rw [hroot]
          show decide (handleOf (some (name ++ "#" ++ toString rl)) = some hh) = _
          rw [hof]
          by_cases heq : hh = name
          · simp [heq]
          · simp [heq, Ne.symm heq]
      | buffer mode size options bl ns col dups =>
        have hne := h.ne_handle hacq hx rfl fun _ _ _ _ heq => by cases heq
        have hof := h.handle_of (hin name rfl) (toString bl ++ ":" ++ toString col)
        refine ⟨h.owner_of hx rfl rfl, ?_, ?_⟩
        · rw [h.root_other _ _ hx rfl rfl, if_neg hne]
        · show decide (handleOf (some (name ++ "#" ++ toString bl ++ ":" ++ toString col)) = some hh) = false
          rw [show name ++ "#" ++ toString bl ++ ":" ++ toString col = name ++ "#" ++ (toString bl ++ ":" ++ toString col) by
            simp only [String.append_assoc], hof]
          simpa using Ne.symm hne
      | move src rl => exact ⟨h.owner_of hx rfl rfl, h.target_root hacq hx rfl rfl⟩
      | varRef var rl => exact h.lent_tied hacq hx rfl rfl fun _ _ _ _ heq => by cases heq
      | intLit value rl => exact h.lent_tied hacq hx rfl rfl fun _ _ _ _ heq => by cases heq
    | aliasJoin name src line => exact ⟨h.owner_of hx rfl rfl, h.target_root hacq hx rfl rfl⟩
    | borrowBlock owner binding kind body line =>
      exact h.lent_tied hacq hx rfl rfl fun _ _ _ _ heq => by cases heq
    | _ => trivial

end

end OwnNet.OwnIR
