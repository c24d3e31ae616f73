/-
  OwnNet.Emit.Hoisted — the scopes a hoisted function guards are those of its graph.

  Where lowering reports nothing, no name is declared while it is in scope, so a scope that is
  released at all is released after it began; and nothing stands where control does not get.

  Proved: `nests_of_quiet`: the scopes of such a function are nested; `codeHoist_follows`:
  what is hoisted from it follows its graph.
-/

import OwnNet.Emit.Faithful

namespace OwnNet.Emit

open Lang Graph Checks

/-! ## Where control does not go on -/

mutual

def stopsStmt : Stmt → Bool
  | .return_ _ _ => true
  | .borrowBlock _ _ _ body _ => stopsBody body
  | .if_ _ thenBody elseBody _ => stopsBody thenBody && stopsBody elseBody
  | _ => false

def stopsBody : List Stmt → Bool
  | [] => false
  | st :: rest => stopsStmt st || stopsBody rest

end

theorem stopsBody_iff {l : List Stmt} : stopsBody l = true ↔ ∃ st ∈ l, stopsStmt st = true := by
  induction l with
  | nil => simp [stopsBody]
  | cons st rest ih => simp [stopsBody, ih]

section

variable (env : Env) (fn : FnDecl)

mutual

theorem lowerStmt_stops (st : Stmt) (cur : Nat) (B : Builder) (h : (lowerStmt env fn st cur B).2 = none) :
    stopsStmt st = true := by
  cases st with
  | return_ => rfl
  | borrowBlock owner binding kind body line =>
    simp only [lowerStmt] at h
    split at h
    · cases h
    · split at h
      · cases h
      · exact lowerSeq_stops body _ _ h
  | if_ c thenBody elseBody line =>
    simp only [lowerStmt] at h
    unfold Builder.merge at h
    split at h
    next hte =>
      obtain ⟨ht, he⟩ := hte
      exact Bool.and_eq_true_iff.mpr ⟨lowerSeq_stops thenBody _ _ ht, lowerSeq_stops elseBody _ _ he⟩
    next => cases h
  | while_ => cases h
  | let_ => cases h
  | release => cases h
  | use => cases h
  | overspan => cases h
  | call => cases h
  | aliasJoin => cases h
  | subscribe => cases h

theorem lowerSeq_stops (body : List Stmt) (cur : Nat) (B : Builder) (h : (lowerSeq env fn body cur B).2 = none) :
    stopsBody body = true := by
  cases body with
  | nil => cases h
  | cons st rest =>
    simp only [lowerSeq] at h
    rw [stopsBody, Bool.or_eq_true]
    cases hout : (lowerStmt env fn st cur B).2 with
    | none => exact Or.inl (lowerStmt_stops st cur B hout)
    | some c =>
      simp only [hout] at h
      exact Or.inr (lowerSeq_stops rest c _ h)

end

end

section

variable (mod : Module) (fn : String)

mutual

/-- Tidy code stops where its statement does. -/
theorem codeStmt_stops (st : Stmt) {E : List String} {σ σ' : Names} {c : Code} (hcode : codeStmt mod fn st σ = .ok (c, σ'))
    (ht : c.tidy E = true) (hs : stopsStmt st = true) : c.stops = true := by
  cases st with
  | return_ var line =>
    rw [codeStmt] at hcode
    cases hcode
    rfl
  | borrowBlock owner binding kind body line =>
    rw [codeStmt] at hcode
    obtain ⟨b, hb, hcode⟩ := bind_ok.mp hcode
    cases hcode
    exact codeBlock_stops body hb ht hs
  | if_ cond thenBody elseBody line =>
    rw [codeStmt] at hcode
    obtain ⟨t, htcode, hcode⟩ := bind_ok.mp hcode
    obtain ⟨e, hecode, hcode⟩ := bind_ok.mp hcode
    cases hcode
    obtain ⟨htt, hte⟩ := Bool.and_eq_true_iff.mp ht
    obtain ⟨hst, hse⟩ := Bool.and_eq_true_iff.mp hs
    exact Bool.and_eq_true_iff.mpr ⟨codeBlock_stops thenBody htcode htt hst, codeBlock_stops elseBody hecode hte hse⟩
  | _ => cases hs
termination_by sizeOf st

theorem codeBlock_stops (stmts : List Stmt) {E : List String} {σ σ' : Names} {code : List Code}
    (hcode : codeBlock mod fn stmts σ = .ok (code, σ')) (ht : tidySeq E code = true) (hs : stopsBody stmts = true) :
      stopsSeq code = true := by
  match stmts with
  | [] => cases hs
  | st :: rest =>
    rw [stopsBody, Bool.or_eq_true] at hs
    cases hb : isBuffer st with
    | false =>
      rw [codeBlock_plain mod fn hb] at hcode
      obtain ⟨s, hscode, hcode⟩ := bind_ok.mp hcode
      obtain ⟨more, hmore, hcode⟩ := bind_ok.mp hcode
      cases hcode
      simp only [tidySeq, Bool.and_eq_true] at ht
      rw [stopsSeq, Bool.or_eq_true]
      exact hs.imp (codeStmt_stops st hscode ht.1) (codeBlock_stops rest hmore ht.2.1)
    | true =>
      match st with
      | .let_ name (.buffer mode size options bline ns col dups) line =>
        have hrest := hs.resolve_left (by simp [stopsStmt])
        rw [codeBlock] at hcode
        cases hend : scopeEnd rest name with
        | some j =>
          simp only [hend] at hcode
          obtain ⟨b, -, hcode⟩ := bind_ok.mp hcode
          obtain ⟨body, hbody, hcode⟩ := bind_ok.mp hcode
          obtain ⟨more, hmore, hcode⟩ := bind_ok.mp hcode
          cases hcode
          simp only [tidySeq, Code.tidy, Bool.and_eq_true, Bool.not_eq_true'] at ht
          obtain ⟨⟨htbody, hstay⟩, htmore, -⟩ := ht
          obtain ⟨hfind, -⟩ := Option.filter_eq_some_iff.mp hend
          obtain ⟨rel, hrel, hsplit, -⟩ := findRelease_split hfind
          obtain ⟨rline, rfl⟩ := release_of_isRelease hrel
          rw [stopsSeq, Bool.or_eq_true]
          rw [stopsBody_iff, hsplit] at hrest
          obtain ⟨s, hmem, hstop⟩ := hrest
          rcases List.mem_append.mp hmem with hmem | hmem
          · -- a scope's body does not return
            have hin := codeBlock_stops (rest.take j) hbody htbody (stopsBody_iff.mpr ⟨s, hmem, hstop⟩)
            rw [returnsSeq_of_stops _ hin] at hstay
            cases hstay
          · rcases List.mem_cons.mp hmem with rfl | hmem
            · cases hstop
            · exact Or.inr (codeBlock_stops (rest.drop (j + 1)) hmore htmore (stopsBody_iff.mpr ⟨s, hmem, hstop⟩))
        | none =>
          simp only [hend] at hcode
          split at hcode
          · obtain ⟨b, -, hcode⟩ := bind_ok.mp hcode
            obtain ⟨more, hmore, hcode⟩ := bind_ok.mp hcode
            cases hcode
            simp only [tidySeq, Bool.and_eq_true] at ht
            rw [stopsSeq, Bool.or_eq_true]
            exact Or.inr (codeBlock_stops rest hmore ht.2.1 hrest)
          · cases hcode
termination_by sizeOf stmts
decreasing_by
  all_goals simp_wf
  · omega
  · have := sizeOf_take_le rest j
    omega
  · have := sizeOf_drop_le rest (j + 1)
    omega

end

end

/-! ## Nothing stands where control does not get -/

section

variable {mod : Module} {fn : String}

theorem codeHoist_empty {l : List Stmt} {σ σ' : Names} (h : codeHoist mod fn l σ = .ok ([], σ')) : l = [] ∧ σ' = σ := by
  cases l with
  | nil =>
    rw [codeHoist] at h
    cases h
    exact ⟨rfl, rfl⟩
  | cons st after =>
    cases ho : opened st with
    | none =>
      rw [codeHoist_plain mod fn ho] at h
      obtain ⟨c, -, h⟩ := bind_ok.mp h
      obtain ⟨more, -, h⟩ := bind_ok.mp h
      cases h
    | some name =>
      obtain ⟨pre, fin, σ₁, σ₂, inner, more, -, -, -, hcode⟩ := codeHoist_opens mod fn ho h
      cases hcode

theorem stops_of_opened {st : Stmt} {name : String} (h : opened st = some name) : stopsStmt st = false := by
  cases st with
  | let_ => rfl
  | _ => cases h

/-- The segment of a scope, the release that ends it, and what comes after. -/
theorem mem_segment {name : String} {after : List Stmt} {st : Stmt} (h : st ∈ after) (hs : stopsStmt st = true) :
    st ∈ (segment name after).1 ∨ st ∈ (segment name after).2 := by
  unfold segment
  cases hd : findRelease after name with
  | none => exact Or.inl h
  | some d =>
    obtain ⟨rel, hrel, hsplit, -⟩ := findRelease_split hd
    obtain ⟨rline, rfl⟩ := release_of_isRelease hrel
    rw [hsplit] at h
    rcases List.mem_append.mp h with h | h
    · exact Or.inl h
    · rcases List.mem_cons.mp h with rfl | h
      · cases hs
      · exact Or.inr h

/-- Code that does not return has no statement that stops. -/
theorem codeHoist_goes {l : List Stmt} {E : List String} {σ σ' : Names} {code : List Code}
    (hcode : codeHoist mod fn l σ = .ok (code, σ'))
    (ht : tidySeq E code = true) (hret : returnsSeq code = false) : ∀ st ∈ l, stopsStmt st = false := by
  induction hlen : l.length using Nat.strong_induction_on generalizing l E σ σ' code with
  | _ n ih =>
    subst hlen
    cases l with
    | nil => exact fun st hst => absurd hst List.not_mem_nil
    | cons st after =>
      cases ho : opened st with
      | none =>
        rw [codeHoist_plain mod fn ho] at hcode
        obtain ⟨c, hc, hcode⟩ := bind_ok.mp hcode
        obtain ⟨more, hmore, hcode⟩ := bind_ok.mp hcode
        cases hcode
        simp only [tidySeq, Bool.and_eq_true] at ht
        obtain ⟨hret, hretmore⟩ := Bool.or_eq_false_iff.mp hret
        refine List.forall_mem_cons.mpr ⟨?_, ih after.length (by simp) hmore ht.2.1 hretmore rfl⟩
        by_contra hs
        rw [returns_of_stops _ (codeStmt_stops mod fn st hc ht.1 (by simpa using hs))] at hret
        cases hret
      | some name =>
        obtain ⟨pre, fin, σ₁, σ₂, inner, more, -, hinner, hmore, rfl⟩ := codeHoist_opens mod fn ho hcode
        simp only [tidySeq, Code.tidy, Bool.and_eq_true, Bool.not_eq_true'] at ht
        obtain ⟨⟨htin, hstay⟩, htmore, -⟩ := ht
        obtain ⟨hlen₁, hlen₂⟩ := segment_length name after
        refine List.forall_mem_cons.mpr ⟨stops_of_opened ho, fun s hs => ?_⟩
        by_contra hstop
        have hstop : stopsStmt s = true := by simpa using hstop
        rcases mem_segment hs hstop with hin | hin
        · rw [ih _ (by simp; omega) hinner htin hstay rfl s hin] at hstop
          cases hstop
        · rw [ih _ (by simp; omega) hmore htmore (Bool.or_eq_false_iff.mp hret).2 rfl s hin] at hstop
          cases hstop

/-- Where control does not go on, nothing more stands. -/
theorem codeHoist_last {l : List Stmt} {E : List String} {σ σ' : Names} {code : List Code}
    (hcode : codeHoist mod fn l σ = .ok (code, σ'))
    (ht : tidySeq E code = true) {l₁ l₂ : List Stmt} {st : Stmt} (hl : l = l₁ ++ st :: l₂)
    (hs : stopsStmt st = true) : l₂ = [] := by
  induction hlen : l.length using Nat.strong_induction_on generalizing l E σ σ' code l₁ with
  | _ n ih =>
    subst hlen
    cases l with
    | nil => simp at hl
    | cons head after =>
      cases ho : opened head with
      | none =>
        rw [codeHoist_plain mod fn ho] at hcode
        obtain ⟨c, hc, hcode⟩ := bind_ok.mp hcode
        obtain ⟨more, hmore, hcode⟩ := bind_ok.mp hcode
        cases hcode
        simp only [tidySeq, Bool.and_eq_true, Bool.or_eq_true, Bool.not_eq_true', List.isEmpty_iff] at ht
        obtain ⟨htc, htmore, hstop⟩ := ht
        cases l₁ with
        | nil =>
          obtain ⟨rfl, rfl⟩ := List.cons.inj hl
          have hempty : more.1 = [] := hstop.resolve_left (by simp [codeStmt_stops mod fn head hc htc hs])
          have hmore' : codeHoist mod fn after c.2 = .ok ([], more.2) := by rw [hmore, ← hempty]
          exact (codeHoist_empty hmore').1
        | cons s l₁ => exact ih after.length (by simp) hmore htmore (List.cons.inj hl).2 rfl
      | some name =>
        obtain ⟨pre, fin, σ₁, σ₂, inner, more, -, hinner, hmore, rfl⟩ := codeHoist_opens mod fn ho hcode
        simp only [tidySeq, Code.tidy, Bool.and_eq_true, Bool.not_eq_true'] at ht
        obtain ⟨⟨htin, hstay⟩, htmore, -⟩ := ht
        have hgoes := codeHoist_goes hinner htin hstay
        cases l₁ with
        | nil =>
          obtain ⟨rfl, -⟩ := List.cons.inj hl
          rw [stops_of_opened ho] at hs
          cases hs
        | cons s l₁ =>
          have hafter := (List.cons.inj hl).2
          cases hd : findRelease after name with
          | none =>
            simp only [segment, hd] at hgoes
            rw [hgoes st (by simp [hafter])] at hs
            cases hs
          | some d =>
            obtain ⟨rel, hrel, hsplit, -⟩ := findRelease_split hd
            obtain ⟨rline, rfl⟩ := release_of_isRelease hrel
            simp only [segment, hd] at hgoes hmore
            -- a statement that stops stands after the scope
            rcases List.append_eq_append_iff.mp (hafter.symm.trans hsplit) with ⟨m, hm, hm'⟩ | ⟨m, hm, hm'⟩
            · cases m with
              | nil =>
                obtain ⟨rfl, -⟩ := List.cons.inj hm'
                cases hs
              | cons x m =>
                obtain ⟨rfl, -⟩ := List.cons.inj hm'
                rw [hgoes st (by rw [hm]; simp)] at hs
                cases hs
            · cases m with
              | nil =>
                obtain ⟨rfl, -⟩ := List.cons.inj hm'
                cases hs
              | cons x m =>
                have hshort : (after.drop (d + 1)).length < (head :: after).length := by
                  rw [List.length_drop, List.length_cons]
                  omega
                exact ih _ hshort hmore htmore (List.cons.inj hm').2 rfl

end

/-! ## Quiet lowering nests the scopes -/

section

variable {env : Env} {fn : FnDecl} {B : Builder} {cur : Nat} {body : List Stmt} {name : String} {st : Stmt}

/-- A scope's name is new. -/
theorem opened_fresh (ho : opened st = some name) (hq : (lowerStmt env fn st cur B).1.Quiet) :
    B.visible name = none ∧ ((lowerStmt env fn st cur B).1.visible name).isSome = true := by
  cases st with
  | let_ x rhs line =>
    cases rhs with
    | acquire resource args rline =>
      cases ho
      simp only [lowerStmt, lowerLet] at hq ⊢
      have hsame := hq.of_emit.declare.1.of_reports (resource_reports env resource rline B)
      rw [hsame] at hq ⊢
      refine ⟨hq.of_emit.declare.2, ?_⟩
      rw [Builder.visible_congr (Builder.emit_scopes _ _ _), Builder.visible_declare, if_pos rfl]
      rfl
    | buffer mode size options bline ns col dups =>
      cases ho
      have hqlow : (lowerBuffer env name line mode size options bline ns col dups cur B).Quiet := hq
      obtain ⟨m, info, -, -, hqdecl, hlow⟩ := lowerBuffer_quiet hqlow
      refine ⟨hqdecl.declare.2, ?_⟩
      simp only [lowerStmt, lowerLet, hlow]
      rw [Builder.visible_congr (Builder.emit_scopes _ _ _), Builder.visible_declare]
      simp [bufferSymbol]
    | _ => cases ho
  | _ => cases ho

/-- What is released is in scope. -/
theorem release_visible (hr : isRelease name st = true) (hq : (lowerStmt env fn st cur B).1.Quiet) :
    ((lowerStmt env fn st cur B).1.visible name).isSome = true := by
  obtain ⟨line, rfl⟩ := release_of_isRelease hr
  obtain ⟨s, hv, -, hlow⟩ := lowerOwned_quiet hq
  simp only [lowerStmt, hlow]
  rw [Builder.visible_congr (Builder.emit_scopes _ _ _), hv]
  rfl

/-- Nothing stands where control does not get. -/
def Gets (body : List Stmt) : Prop := ∀ l₁ st l₂, body = l₁ ++ st :: l₂ → stopsStmt st = true → l₂ = []

/-- Control gets to every part of the body. -/
theorem Gets.split (h : Gets body) {l₁ l₂ : List Stmt} (hbody : body = l₁ ++ l₂) (hne : l₂ ≠ [])
    (env : Env) (fn : FnDecl) (cur : Nat)
    (B : Builder) : ∃ c, lowerSeq env fn l₁ cur B = ((lowerSeq env fn l₁ cur B).1, some c) ∧
      lowerSeq env fn body cur B = lowerSeq env fn l₂ c (lowerSeq env fn l₁ cur B).1 := by
  cases hout : (lowerSeq env fn l₁ cur B).2 with
  | none =>
    obtain ⟨st, hst, hs⟩ := stopsBody_iff.mp (lowerSeq_stops env fn l₁ cur B hout)
    obtain ⟨a, b, rfl⟩ := List.append_of_mem hst
    have hnil := h a st (b ++ l₂) (by simp [hbody]) hs
    exact absurd (List.append_eq_nil_iff.mp hnil).2 hne
  | some c =>
    refine ⟨c, Prod.ext rfl hout, ?_⟩
    rw [hbody, lowerSeq_append, hout]

/-- A name that was opened or released in a list is not opened later in it. -/
theorem no_reopen (hget : Gets body) (hB : B.Scoped) (hq : (lowerSeq env fn body cur B).1.Quiet)
    {l₁ l₂ l₃ : List Stmt} {s t : Stmt}
    (hbody : body = l₁ ++ s :: (l₂ ++ t :: l₃)) (hs : opened s = some name ∨ isRelease name s = true) : opened t ≠ some name := by
  intro ht
  have hbody₂ : body = (l₁ ++ [s]) ++ (l₂ ++ t :: l₃) := by simp [hbody]
  have hbody₃ : body = (l₁ ++ [s] ++ l₂) ++ t :: l₃ := by simp [hbody]
  obtain ⟨c₁, h₁, hrest₁⟩ := hget.split hbody (by simp) env fn cur B
  obtain ⟨c₂, h₂, hrest₂⟩ := hget.split hbody₂ (by simp) env fn cur B
  obtain ⟨c₃, h₃, hrest₃⟩ := hget.split hbody₃ (by simp) env fn cur B
  have hB₁ := (lowerSeq_lowers env fn l₁ cur hB).scoped hB
  have hB₂ := (lowerSeq_lowers env fn (l₁ ++ [s]) cur hB).scoped hB
  have hB₃ := (lowerSeq_lowers env fn (l₁ ++ [s] ++ l₂) cur hB).scoped hB
  have hq₃ : (lowerStmt env fn t c₃ (lowerSeq env fn (l₁ ++ [s] ++ l₂) cur B).1).1.Quiet := by
    rw [hrest₃] at hq
    simp only [lowerSeq] at hq
    split at hq
    · exact hq
    · exact lowerSeq_quiet ((lowerStmt_lowers env fn t c₃ hB₃).scoped hB₃) hq
  have hqt := lowerStmt_quiet hB₃ hq₃
  -- in scope once `s` is done
  have hafter : ((lowerSeq env fn (l₁ ++ [s]) cur B).1.visible name).isSome = true := by
    have hqs : (lowerSeq env fn (l₁ ++ [s]) cur B).1.Quiet := by
      rw [lowerSeq_append, h₂] at hqt
      exact lowerSeq_quiet hB₂ hqt
    have hlow : (lowerSeq env fn (l₁ ++ [s]) cur B).1 = (lowerStmt env fn s c₁ (lowerSeq env fn l₁ cur B).1).1 := by
      rw [lowerSeq_append, h₁]
      simp only [lowerSeq]
      split <;> rfl
    rw [hlow] at hqs ⊢
    rcases hs with ho | hr
    · exact (opened_fresh ho hqs).2
    · exact release_visible hr hqs
  obtain ⟨sym, hsym⟩ := Option.isSome_iff_exists.mp hafter
  have hlow₃ : (lowerSeq env fn (l₁ ++ [s] ++ l₂) cur B).1 = (lowerSeq env fn l₂ c₂ (lowerSeq env fn (l₁ ++ [s]) cur B).1).1 := by
    rw [lowerSeq_append, h₂]
  obtain ⟨G, hl⟩ := lowerSeq_lowered env fn l₂ c₂ hB₂
  have hstill := hl.visible (hlow₃ ▸ hqt) hsym
  rw [← hlow₃, (opened_fresh ht hq₃).1] at hstill
  cases hstill

theorem pairwise_of_splits {α : Type} {R : α → α → Prop} {l : List α} (h : ∀ l₁ s l₂ t l₃,
    l = l₁ ++ s :: (l₂ ++ t :: l₃) → R s t) :
    l.Pairwise R := by
  induction l with
  | nil => exact .nil
  | cons s rest ih =>
    refine .cons (fun t ht => ?_) (ih fun l₁ a l₂ b l₃ heq => h (s :: l₁) a l₂ b l₃ (by rw [heq]; rfl))
    obtain ⟨l₂, l₃, rfl⟩ := List.append_of_mem ht
    exact h [] s l₂ t l₃ rfl

/-- The scopes of a simple function are nested. -/
theorem nests_of_quiet (hget : Gets body) (hB : B.Scoped) (hq : (lowerSeq env fn body cur B).1.Quiet)
    (hs : isSimple body = true) :
    Nests body := by
  simp only [isSimple, Bool.and_eq_true] at hs
  obtain ⟨⟨⟨-, hreleased⟩, -⟩, hlaminar⟩ := hs
  refine nests_of_laminar (fun p st name hp ho => ?_) (laminarScopes_iff.mp hlaminar) ?_
  · obtain ⟨hlt, hget'⟩ := List.getElem?_eq_some_iff.mp hp
    have hbody : body = body.take p ++ st :: body.drop (p + 1) := by
      rw [← hget', ← List.drop_eq_getElem_cons hlt, List.take_append_drop]
    have hsome := List.all_eq_true.mp hreleased st (List.mem_of_getElem? hp)
    rw [ho] at hsome
    obtain ⟨r, hr, hrel⟩ := List.any_eq_true.mp hsome
    rw [hbody] at hr
    rcases List.mem_append.mp hr with hr | hr
    · -- a release before it would be of a name in scope
      obtain ⟨a, b, hab⟩ := List.append_of_mem hr
      have hsplit : body = a ++ r :: (b ++ st :: body.drop (p + 1)) := by
        rw [← List.cons_append, ← List.append_assoc, ← hab]
        exact hbody
      exact absurd ho (no_reopen hget hB hq hsplit (Or.inr hrel))
    · rcases List.mem_cons.mp hr with rfl | hr
      · obtain ⟨rline, rfl⟩ := release_of_isRelease hrel
        cases ho
      · cases hd : findRelease (body.drop (p + 1)) name with
        | none =>
          have hno := List.findIdx?_eq_none_iff.mp hd r hr
          rw [hrel] at hno
          cases hno
        | some d => exact ⟨_, st, name, d, hp, ho, hd, rfl⟩
  · refine List.pairwise_filterMap.mpr (pairwise_of_splits fun l₁ s l₂ t l₃ hbody a ha b hb hab => ?_)
    exact no_reopen hget hB hq hbody (Or.inl ha) (hab ▸ hb)

end

/-! ## Hoisted code follows the graph -/

section

variable {mod : Module} {fn : FnDecl}

/-- The scope a statement opens, as it is lowered. -/
theorem scopeLowering_opened {st : Stmt} {name : String} {B : Builder} {cur : Nat} {E : List String}
    {σ σ₁ : Names} {pre fin : List String}
    (ho : opened st = some name) (hcur : cur < B.blocks.length) (hu : B.Unlinked cur) (h : Reads fn.name E σ B)
    (hs : scopeLowering mod fn.name st σ = .ok (some (pre, fin), σ₁)) (hq : (lowerStmt mod.env fn st cur B).1.Quiet) :
    ∃ ins sym, Opened mod fn.name E σ B cur ins σ₁ (lowerStmt mod.env fn st cur B).1 name sym pre fin ∧
      (lowerStmt mod.env fn st cur B).2 = some cur := by
  cases st with
  | let_ x rhs line =>
    cases rhs with
    | acquire resource args rline =>
      cases ho
      cases hs
      obtain ⟨sym, hopened⟩ := lowerAcquire_opened h hq
      exact ⟨_, sym, hopened, rfl⟩
    | buffer mode size options bline ns col dups =>
      cases ho
      have hqlow : (lowerBuffer mod.env name line mode size options bline ns col dups cur B).Quiet := hq
      obtain ⟨info, sym, hlines, hopened, -⟩ := lowerBuffer_opened hcur hu h hqlow
      simp only [scopeLowering, hlines, ok_bind] at hs
      obtain ⟨hlines, rfl⟩ := Prod.mk.inj (Except.ok.inj hs)
      have hpair := Option.some.inj hlines
      rw [hpair] at hopened
      exact ⟨_, sym, hopened, rfl⟩
    | _ => cases ho
  | _ => cases ho

theorem codeHoist_follows {l : List Stmt} (hn : Nests l) (cur : Nat) {B : Builder} {E : List String}
    {σ σ' : Names} {code : List Code}
    (hB : B.Scoped) (hcur : cur < B.blocks.length) (hu : B.Unlinked cur) (h : Reads fn.name E σ B)
    (hcode : codeHoist mod fn.name l σ = .ok (code, σ')) (ht : tidySeq E code = true)
    (hq : (lowerSeq mod.env fn l cur B).1.Quiet) :
    Follows mod fn.name E σ B cur code σ' (lowerSeq mod.env fn l cur B).1 (lowerSeq mod.env fn l cur B).2 := by
  induction hn generalizing cur B E σ σ' code with
  | nil =>
    rw [codeHoist] at hcode
    cases hcode
    exact .nil hcur hu h
  | @plain st rest ho _ ih =>
    have hB₁ := (lowerStmt_lowers mod.env fn st cur hB).scoped hB
    rw [codeHoist_plain mod fn.name ho] at hcode
    obtain ⟨s, hs, hcode⟩ := bind_ok.mp hcode
    obtain ⟨more, hmore, hcode⟩ := bind_ok.mp hcode
    cases hcode
    simp only [tidySeq, Bool.and_eq_true, Bool.or_eq_true, Bool.not_eq_true', List.isEmpty_iff] at ht
    obtain ⟨htc, htrest, hstop⟩ := ht
    simp only [lowerSeq] at hq ⊢
    cases hout : (lowerStmt mod.env fn st cur B).2 with
    | none =>
      simp only [hout] at hq ⊢
      have hst := codeStmt_follows mod fn st cur hB hcur hu h hs htc hq
      rw [hout] at hst
      have hstops : s.1.stops = true := by simpa [stopsSeq] using hst.stops rfl
      have hempty : more.1 = [] := hstop.resolve_left (by simp [hstops])
      have hmore' : codeHoist mod fn.name rest s.2 = .ok ([], more.2) := by rw [hmore, ← hempty]
      rw [hempty, (codeHoist_empty hmore').2]
      exact hst
    | some c =>
      simp only [hout] at hq ⊢
      have hst := codeStmt_follows mod fn st cur hB hcur hu h hs htc (lowerSeq_quiet hB₁ hq)
      rw [hout] at hst
      exact .seq hst (ih c hB₁ (hst.spans.frame.out c rfl).2 (hst.spans.exit c rfl) hst.reads hmore (by rwa [guardedSeq_one]) hq)
  | @scope st rel name body tail ho hrel hbefore _ _ ihb iht =>
    have hB₁ := (lowerStmt_lowers mod.env fn st cur hB).scoped hB
    obtain ⟨pre, fin, σ₁, σ₂, inner, more, hs, hinner, hmore, rfl⟩ := codeHoist_scope mod fn.name ho hrel hbefore hcode
    obtain ⟨rline, rfl⟩ := release_of_isRelease hrel
    simp only [tidySeq, Code.tidy, Bool.and_eq_true, Bool.not_eq_true'] at ht
    obtain ⟨⟨htin, hstay⟩, htmore, -⟩ := ht
    have hqst : (lowerStmt mod.env fn st cur B).1.Quiet := by
      simp only [lowerSeq] at hq
      split at hq
      · exact hq
      · exact lowerSeq_quiet hB₁ hq
    obtain ⟨ins, sym, hopened, hout⟩ := scopeLowering_opened ho hcur hu h hs hqst
    have hlow : lowerSeq mod.env fn (st :: (body ++ .release name rline :: tail)) cur B =
        lowerSeq mod.env fn (body ++ .release name rline :: tail) cur (lowerStmt mod.env fn st cur B).1 := by
      simp only [lowerSeq, hout]
    rw [hlow] at hq ⊢
    have hlen := hopened.appends.length
    obtain ⟨c, B₂, hB₂, hscope, hlowered⟩ := scope_follows hB₁ hcur hu hopened hstay
      (fun hqbody => ihb cur hB₁ (hlen ▸ hcur) (hopened.appends.unlinked hu) hopened.reads hinner htin hqbody) hq
    rw [hlowered] at hq ⊢
    exact .seq hscope (iht c hB₂ (hscope.spans.frame.out c rfl).2 (hscope.spans.exit c rfl)
      hscope.reads hmore (by rwa [guardedSeq_one]) hq)

end

end OwnNet.Emit
