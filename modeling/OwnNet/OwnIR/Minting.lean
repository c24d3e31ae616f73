/-
  OwnNet.OwnIR.Minting — the handles of a lowered function are numbered in the order they
  are declared in, and what is lowered refers to handles minted before.

  Proved: `lower_minted`: a body declares the numbers from the counter it starts with up to
  that it ends with; `lowered_distinct`: the names of a lowered function are told apart.
-/

import OwnNet.OwnIR.Kin
import OwnNet.OwnIR.Module
import OwnNet.Parsing.Numerals

namespace OwnNet.OwnIR

open Lang

/-! ## Numbered names -/

/-- A handle and its number. -/
def Numbered (h : String) (k : Nat) : Prop := ∃ stem ∈ ["loc_", "parg_", "brw_"], h = stem ++ toString k

theorem numbered_inj {h : String} {j k : Nat} (hj : Numbered h j) (hk : Numbered h k) : j = k := by
  obtain ⟨a, ha, rfl⟩ := hj
  obtain ⟨b, hb, heq⟩ := hk
  have hl := congrArg String.toList heq
  simp only [String.toList_append] at hl
  simp only [List.mem_cons, List.not_mem_nil, or_false] at ha hb
  -- different stems differ before the number starts
  rcases ha with rfl | rfl | rfl <;> rcases hb with rfl | rfl | rfl <;> simp at hl
  all_goals exact Parsing.digits_inj hl

theorem numbered_plain {h : String} {k : Nat} (hk : Numbered h k) : '#' ∉ h.toList := by
  obtain ⟨stem, hstem, rfl⟩ := hk
  intro hmem
  rw [String.toList_append, Nat.toString_eq_repr, Nat.toList_repr] at hmem
  rcases List.mem_append.mp hmem with hmem | hmem
  · simp only [List.mem_cons, List.not_mem_nil, or_false] at hstem
    rcases hstem with rfl | rfl | rfl <;> simp at hmem
  · have := Nat.isDigit_of_mem_toDigits (by omega) (by omega) hmem
    simp [Char.isDigit] at this

/-- Numbered from `lo` up to `hi`, in order. -/
structure Fresh (lo hi : Nat) (ns : List String) : Prop where
  le : lo ≤ hi
  within : ∀ n ∈ ns, ∃ k, Numbered n k ∧ lo ≤ k ∧ k < hi
  increasing : ns.Pairwise fun n m => ∀ j k, Numbered n j → Numbered m k → j < k

namespace Fresh

variable {lo mid hi : Nat} {ns ms : List String}

theorem nil (h : lo ≤ hi) : Fresh lo hi [] := ⟨h, fun _ hn => absurd hn List.not_mem_nil, List.Pairwise.nil⟩

theorem one {n : String} (h : Numbered n lo) : Fresh lo (lo + 1) [n] := by
  refine ⟨by omega, fun m hm => ?_, List.pairwise_singleton _ _⟩
  rw [List.mem_singleton.mp hm]
  exact ⟨lo, h, by omega, by omega⟩

theorem append (h : Fresh lo mid ns) (h' : Fresh mid hi ms) : Fresh lo hi (ns ++ ms) := by
  have hle := h.le
  have hle' := h'.le
  refine ⟨by omega, ?_, List.pairwise_append.mpr ⟨h.increasing, h'.increasing, ?_⟩⟩
  · intro n hn
    rcases List.mem_append.mp hn with hn | hn
    · obtain ⟨k, hk, hlo, hhi⟩ := h.within n hn
      exact ⟨k, hk, hlo, by omega⟩
    · obtain ⟨k, hk, hlo, hhi⟩ := h'.within n hn
      exact ⟨k, hk, by omega, hhi⟩
  · intro n hn m hm j k hj hk
    obtain ⟨j', hj', -, hlt⟩ := h.within n hn
    obtain ⟨k', hk', hge, -⟩ := h'.within m hm
    have := numbered_inj hj hj'
    have := numbered_inj hk hk'
    omega

theorem nodup (h : Fresh lo hi ns) : ns.Nodup := by
  refine h.increasing.imp_of_mem fun hn hm hlt heq => ?_
  obtain ⟨k, hk, -, -⟩ := h.within _ hn
  have := hlt k k hk (heq ▸ hk)
  omega

end Fresh

/-- The declarations are numbered, and every source has a number before that of its target. -/
structure Minted (lo hi : Nat) (ps : List Stmt) : Prop where
  fresh : Fresh lo hi (ps.filterMap Stmt.declared)
  sources : ∀ x ∈ ps, ∀ src, source x = some src → ∃ n j k, x.declared = some n ∧ Numbered n k ∧ Numbered src j ∧ j < k

namespace Minted

variable {lo mid hi : Nat} {ps qs : List Stmt}

theorem append (h : Minted lo mid ps) (h' : Minted mid hi qs) : Minted lo hi (ps ++ qs) := by
  refine ⟨?_, fun x hx => (List.mem_append.mp hx).elim (h.sources x) (h'.sources x)⟩
  rw [List.filterMap_append]
  exact h.fresh.append h'.fresh

/-- Statements that declare nothing. -/
theorem none_ (h : ∀ x ∈ ps, x.declared = none) : Minted lo lo ps := by
  have hnil : ps.filterMap Stmt.declared = [] := List.filterMap_eq_nil_iff.mpr h
  refine ⟨by rw [hnil]; exact .nil (le_refl _), fun x hx src hsrc => ?_⟩
  have hno := h x hx
  cases x with
  | let_ => cases hno
  | aliasJoin => cases hno
  | _ => cases hsrc

theorem one {x : Stmt} {n : String} (hn : x.declared = some n) (hk : Numbered n lo)
    (hsrc : ∀ src, source x = some src → ∃ j, Numbered src j ∧ j < lo) : Minted lo (lo + 1) [x] := by
  refine ⟨?_, fun y hy src hs => ?_⟩
  · simp only [List.filterMap_cons, hn, List.filterMap_nil]
    exact .one hk
  · rw [List.mem_singleton.mp hy] at hs ⊢
    obtain ⟨j, hj, hlt⟩ := hsrc src hs
    exact ⟨n, j, lo, hn, hk, hj, hlt⟩

/-- A source is not declared by its target or after it. -/
theorem before (h : Minted lo hi ps) {pre post : List Stmt} {x : Stmt} {src : String} (hps : ps = pre ++ x :: post)
    (hsrc : source x = some src) : ∀ y ∈ x :: post, y.declared ≠ some src := by
  obtain ⟨n, j, k, hn, hk, hj, hlt⟩ := h.sources x (by rw [hps]; simp) src hsrc
  intro y hy hyn
  rcases List.mem_cons.mp hy with rfl | hy
  · rw [hn] at hyn
    cases hyn
    have := numbered_inj hk hj
    omega
  · have hinc := h.fresh.increasing
    rw [hps, List.filterMap_append, List.filterMap_cons, hn] at hinc
    have hcons := (List.pairwise_append.mp hinc).2.1
    have := (List.pairwise_cons.mp hcons).1 src (List.mem_filterMap.mpr ⟨y, hy, hyn⟩) k j hk hj
    omega

end Minted

/-! ## Bodies -/

/-- Every handle in the map has been minted. -/
def Flow.Below (s : Flow) : Prop := ∀ name h, s.localmap.get? name = some h → ∃ k, Numbered h k ∧ k < s.loc

/-- What lowering from one state to another gives. -/
def Mints (s : Flow) (stmts : List Stmt) (s' : Flow) : Prop := Minted s.loc s'.loc (piecesSeq stmts) ∧ s'.Below

theorem piecesSeq_append (a b : List Stmt) : piecesSeq (a ++ b) = piecesSeq a ++ piecesSeq b := by
  induction a with
  | nil => rfl
  | cons x rest ih => simp [piecesSeq, ih]

section

variable {ctx : FlowContext} {s s₁ s₂ : Flow} {a b : List Stmt}

theorem Mints.append (h : Mints s a s₁) (h' : Mints s₁ b s₂) : Mints s (a ++ b) s₂ := by
  refine ⟨?_, h'.2⟩
  rw [piecesSeq_append]
  exact h.1.append h'.1

theorem Mints.nil (h : s.Below) : Mints s [] s := ⟨.none_ fun _ hx => absurd hx List.not_mem_nil, h⟩

/-- Statements of one piece each that declare nothing. -/
theorem Mints.idle (h : s.Below) (ha : ∀ x ∈ a, pieces x = [x] ∧ x.declared = none) : Mints s a s := by
  refine ⟨.none_ ?_, h⟩
  induction a with
  | nil => exact fun x hx => absurd hx List.not_mem_nil
  | cons y rest ih =>
    intro x hx
    rw [piecesSeq, (ha y List.mem_cons_self).1] at hx
    rcases List.mem_append.mp hx with hx | hx
    · rw [List.mem_singleton.mp hx]
      exact (ha y List.mem_cons_self).2
    · exact ih (fun z hz => ha z (List.mem_cons_of_mem _ hz)) x hx

theorem Flow.Below.unmap (h : s.Below) (name : String) : (s.unmap name).Below := by
  intro n hd hn
  rw [Flow.unmap, Dict.get?_erase] at hn
  by_cases heq : n = name
  · simp [heq] at hn
  · rw [if_neg heq] at hn
    exact h n hd hn

theorem Flow.Below.mint (ctx : FlowContext) (h : s.Below) {stem : String}
    (hstem : stem ∈ ["loc_", "parg_", "brw_"]) (name : String)
    (line : Int) (column : Option Int) (pool : Bool) :
    Numbered (s.mint ctx stem name line column pool).1 s.loc ∧ (s.mint ctx stem name line column pool).2.Below := by
  have hnum : Numbered (stem ++ toString s.loc) s.loc := ⟨stem, hstem, rfl⟩
  refine ⟨hnum, fun n hd hn => ?_⟩
  simp only [Flow.mint, Dict.get?_set] at hn ⊢
  by_cases heq : n = name
  · rw [if_pos heq] at hn
    rw [← Option.some.inj hn]
    exact ⟨s.loc, hnum, by omega⟩
  · rw [if_neg heq] at hn
    obtain ⟨k, hk, hlt⟩ := h n hd hn
    exact ⟨k, hk, by omega⟩

/-- A new handle and the statement that declares it. -/
theorem Mints.declare (h : s.Below) {stem name : String} {line : Int} {column : Option Int} {pool : Bool}
    (hstem : stem ∈ ["loc_", "parg_", "brw_"]) {x : Stmt} (hx : pieces x = [x])
    (hn : x.declared = some (s.mint ctx stem name line column pool).1)
    (hsrc : ∀ src, source x = some src → ∃ j, Numbered src j ∧ j < s.loc) :
    Mints s [x] (s.mint ctx stem name line column pool).2 := by
  obtain ⟨hnum, hbelow⟩ := h.mint ctx hstem name line column pool
  refine ⟨?_, hbelow⟩
  rw [piecesSeq, hx]
  exact .one hn hnum hsrc

theorem Mints.acquire (h : s.Below) (name : String) (line : Int) (column : Option Int) (pool : Bool) :
    Mints s [acquireStmt (s.mint ctx "loc_" name line column pool).1 line] (s.mint ctx "loc_" name line column pool).2 :=
  .declare h (by simp) rfl rfl fun _ hsrc => by cases hsrc

theorem lowerAcquire_mints (h : s.Below) (fields : Fields) :
    Mints s (lowerAcquire ctx fields s).1 (lowerAcquire ctx fields s).2 := by
  unfold lowerAcquire
  dsimp only
  split
  · exact .nil h
  · exact .acquire h _ _ _ _

theorem lowerRebind_mints (h : s.Below) {mk : String → String → Int → Stmt} (fields : Fields)
    (hmk : ∀ name src line, pieces (mk name src line) = [mk name src line] ∧ (mk name src line).declared = some name ∧
      source (mk name src line) = some src) :
    Mints s (lowerRebind ctx mk fields s).1 (lowerRebind ctx mk fields s).2 := by
  unfold lowerRebind
  dsimp only
  split
  · exact .nil h
  · have hu := h.unmap (str (getD fields "var" (.str "?")))
    split
    next src hsrc =>
      split
      · exact .nil hu
      · refine .declare hu (by simp) (hmk _ _ _).1 (hmk _ _ _).2.1 fun src' h' => ?_
        rw [(hmk _ _ _).2.2] at h'
        cases h'
        exact h _ _ hsrc
    next => exact .nil hu

theorem onHandle_mints (h : s.Below) {mk : String → Int → Stmt} (fields : Fields)
    (hmk : ∀ name line, pieces (mk name line) = [mk name line] ∧ (mk name line).declared = none) :
    Mints s (onHandle mk fields s).1 (onHandle mk fields s).2 := by
  unfold onHandle
  split
  · refine .idle h fun x hx => ?_
    rw [List.mem_singleton.mp hx]
    exact hmk _ _
  · exact .nil h

theorem lowerReturn_mints (h : s.Below) (fields : Fields) : Mints s (lowerReturn fields s).1 (lowerReturn fields s).2 :=
  .idle h fun x hx => by
    rw [List.mem_singleton.mp hx]
    exact ⟨rfl, rfl⟩

theorem Mints.result {p : List Stmt × Flow} (h : Mints s p.1 p.2)
    (heq : (.ok p : Except Raise (List Stmt × Flow)) = .ok (a, s₁)) :
    Mints s a s₁ := by
  cases Except.ok.inj heq
  exact h

/-! ## Calls -/

theorem contractStmts_calls {inRegion : Bool} {fields : Fields} {out : List Stmt}
    (h : contractStmts ctx inRegion fields s = .ok out) :
    ∀ x ∈ out, ∃ callee args line, x = .call callee args line := by
  unfold contractStmts at h
  dsimp only at h
  split at h
  · cases h
    exact fun x hx => absurd hx List.not_mem_nil
  · split at h
    · cases h
      intro x hx
      obtain ⟨a, -, ha⟩ := List.mem_filterMap.mp hx
      split at ha
      · split at ha
        · cases ha
        · cases ha
          exact ⟨_, _, _, rfl⟩
      · cases ha
    · split at h
      · split at h
        · cases h
        · cases h
          exact fun x hx => ⟨_, _, _, List.mem_singleton.mp hx⟩
      · split at h
        · split at h
          · cases h
          · cases h
            exact fun x hx => absurd hx List.not_mem_nil
        · cases h
          exact fun x hx => absurd hx List.not_mem_nil

theorem Mints.calls (h : s.Below) (ha : ∀ x ∈ a, ∃ callee args line, x = .call callee args line) : Mints s a s :=
  .idle h fun x hx => by
    obtain ⟨callee, args, line, rfl⟩ := ha x hx
    exact ⟨rfl, rfl⟩

theorem killArgs_cons (ctx : FlowContext) (position : Option Nat) (line : Int) (arg : Json) (rest : List Json) (s : Flow) :
    killArgs ctx position line (arg :: rest) s =
      match position.filter (fun p => (str arg, p) ∈ ctx.killSites), s.localmap.get? (str arg) with
      | some _, some handle =>
        let more := killArgs ctx position line rest (s.unmap (str arg))
        (.call "$consume" [.varRef handle line] line :: more.1, more.2)
      | _, _ => killArgs ctx position line rest s := rfl

theorem killArgs_mints (ctx : FlowContext) (position : Option Nat) (line : Int) (args : List Json) (h : s.Below) :
    Mints s (killArgs ctx position line args s).1 (killArgs ctx position line args s).2 := by
  induction args generalizing s with
  | nil => exact .nil h
  | cons arg rest ih =>
    rw [killArgs_cons]
    dsimp only
    split
    next handle _ _ =>
      have hone : Mints s [.call "$consume" [.varRef handle line] line] (s.unmap (str arg)) :=
        ⟨.none_ fun x hx => by rw [List.mem_singleton.mp hx]; rfl, h.unmap _⟩
      exact hone.append (ih (h.unmap _))
    next => exact ih h

theorem bindResult_mints (fields : Fields) (h : s.Below) : Mints s (bindResult ctx fields s).1 (bindResult ctx fields s).2 := by
  unfold bindResult
  split
  next result _ =>
    split
    · exact .nil h
    · dsimp only
      split
      · exact .acquire (h.unmap _) _ _ _ _
      · exact .nil (h.unmap _)
  next => exact .nil h

theorem lowerCall_mints {inRegion : Bool} {position : Option Nat} {fields : Fields} (h : s.Below)
    (hcall : lowerCall ctx inRegion position fields s = .ok (a, s₁)) : Mints s a s₁ := by
  unfold lowerCall at hcall
  cases hout : contractStmts ctx inRegion fields s with
  | error e =>
    rw [hout] at hcall
    cases hcall
  | ok out =>
    rw [hout] at hcall
    cases hcall
    have hkilled := killArgs_mints ctx position (lineOf fields) ((argsOf fields).getD []) h
    exact ((Mints.calls h (contractStmts_calls hout)).append hkilled).append (bindResult_mints fields hkilled.2)

/-! ## Regions -/

theorem closeRegion_below (h : s₁.Below) (hs : s.Below) (hle : s.loc ≤ s₁.loc) (binding : String) :
    (closeRegion binding (s.localmap.get? binding) s₁).Below := by
  unfold closeRegion
  split
  · exact h.unmap binding
  · rename_i handle hshadow
    intro n hd hn
    simp only [Dict.get?_set] at hn ⊢
    by_cases heq : n = binding
    · rw [if_pos heq] at hn
      cases hn
      obtain ⟨k, hk, hlt⟩ := hs _ _ hshadow
      exact ⟨k, hk, by omega⟩
    · rw [if_neg heq] at hn
      exact h n hd hn

theorem closeRegion_loc (binding : String) (shadowed : Option String) : (closeRegion binding shadowed s).loc = s.loc := by
  unfold closeRegion
  split <;> rfl

theorem openRegion_below {fields : Fields} {owner binding symbol : String} {inner : Flow} (h : s.Below)
    (hopen : openRegion ctx fields s = .ok (owner, binding, symbol, inner)) :
    Numbered symbol s.loc ∧ inner.Below ∧ inner.loc = s.loc + 1 := by
  unfold openRegion at hopen
  split at hopen
  · cases hopen
  · split at hopen
    · cases hopen
    · cases hopen
      have hnum : Numbered ("brw_" ++ toString s.loc) s.loc := ⟨"brw_", by simp, rfl⟩
      refine ⟨hnum, fun n hd hn => ?_, rfl⟩
      simp only [Dict.get?_set] at hn ⊢
      split at hn
      · cases hn
        exact ⟨s.loc, hnum, by omega⟩
      · obtain ⟨k, hk, hlt⟩ := h n hd hn
        exact ⟨k, hk, by omega⟩

/-! ## Ops in order -/

theorem lowerFlow_cons {inRegion : Bool} {position : Option Nat} {n : Node} {ns : List Node} {out : List Stmt}
    (h : lowerFlow ctx inRegion position (n :: ns) s = .ok (out, s₂)) :
    ∃ first mid more, lowerNode ctx inRegion position n s = .ok (first, mid) ∧
      lowerFlow ctx inRegion (position.map (· + 1)) ns mid = .ok (more, s₂) ∧ out = first ++ more := by
  rw [lowerFlow] at h
  split at h
  · cases h
  · split at h
    · cases h
    · cases h
      exact ⟨_, _, _, ‹_›, ‹_›, rfl⟩

variable {inRegion : Bool} {position : Option Nat} {fields : Fields} {t e b : List Node} {out : List Stmt}

theorem lowerNode_if (hk : opKind fields = .if_) (h : lowerNode ctx inRegion position (.op fields t e b) s = .ok (out, s₂)) :
    ∃ thenB mid elseB, lowerFlow ctx inRegion none t s = .ok (thenB, mid) ∧
      lowerFlow ctx inRegion none e mid = .ok (elseB, s₂) ∧ out = [.if_ "?" thenB elseB (lineOf fields)] := by
  rw [lowerNode] at h
  simp only [hk] at h
  split at h
  · cases h
  · split at h
    · cases h
    · cases h
      exact ⟨_, _, _, ‹_›, ‹_›, rfl⟩

theorem lowerNode_while (hk : opKind fields = .while_)
    (h : lowerNode ctx inRegion position (.op fields t e b) s = .ok (out, s₂)) :
    ∃ bodyB, lowerFlow ctx inRegion none b s = .ok (bodyB, s₂) ∧ out = [.while_ "?" bodyB (lineOf fields)] := by
  rw [lowerNode] at h
  simp only [hk] at h
  split at h
  · cases h
  · cases h
    exact ⟨_, ‹_›, rfl⟩

theorem lowerNode_region (hk : opKind fields = .borrowMut)
    (h : lowerNode ctx inRegion position (.op fields t e b) s = .ok (out, s₂)) :
    ∃ owner binding symbol inner bodyB s₁, openRegion ctx fields s = .ok (owner, binding, symbol, inner) ∧
      lowerFlow ctx true none b inner = .ok (bodyB, s₁) ∧ out = [.borrowBlock owner symbol .mut bodyB (lineOf fields)] ∧
      s₂ = closeRegion binding (s.localmap.get? binding) s₁ := by
  rw [lowerNode] at h
  simp only [hk] at h
  split at h
  · cases h
  · split at h
    · cases h
    · cases h
      exact ⟨_, _, _, _, _, _, ‹_›, ‹_›, rfl, rfl⟩

end

theorem lower_minted (ctx : FlowContext) :
    (∀ n inRegion position s out s', lowerNode ctx inRegion position n s = .ok (out, s') → s.Below → Mints s out s') ∧
      ∀ ns inRegion position s out s', lowerFlow ctx inRegion position ns s = .ok (out, s') → s.Below → Mints s out s' := by
  apply Node.induct
  · intro inRegion position s out s' h hs
    rw [lowerNode] at h
    cases h
    exact .nil hs
  · intro fields t e b ht he hb inRegion position s out s' h hs
    cases hk : opKind fields with
    | if_ =>
      obtain ⟨thenB, mid, elseB, hthen, helse, rfl⟩ := lowerNode_if hk h
      have hm := ht inRegion none s thenB mid hthen hs
      have hm' := (hm.append (he inRegion none mid elseB s' helse hm.2))
      exact ⟨by simpa [piecesSeq, pieces, piecesSeq_append] using hm'.1, hm'.2⟩
    | while_ =>
      obtain ⟨bodyB, hbody, rfl⟩ := lowerNode_while hk h
      have hm := hb inRegion none s bodyB s' hbody hs
      exact ⟨by simpa [piecesSeq, pieces] using hm.1, hm.2⟩
    | borrowMut =>
      obtain ⟨owner, binding, symbol, inner, bodyB, s₁, hopen, hbody, rfl, rfl⟩ := lowerNode_region hk h
      obtain ⟨hnum, hinner, hloc⟩ := openRegion_below hs hopen
      have hm := hb true none inner bodyB s₁ hbody hinner
      have hopened : Minted s.loc inner.loc [.borrowBlock owner symbol .mut bodyB (lineOf fields)] := by
        rw [hloc]
        exact .one rfl hnum fun _ hsrc => by cases hsrc
      have hall := hopened.append hm.1
      refine ⟨?_, closeRegion_below hm.2 hs hall.fresh.le binding⟩
      rw [closeRegion_loc]
      simpa [piecesSeq, pieces] using hall
    | call =>
      rw [lowerNode] at h
      simp only [hk] at h
      exact lowerCall_mints hs h
    | _ =>
      rw [lowerNode] at h
      simp only [hk] at h
      first
        | exact (lowerAcquire_mints hs fields).result h
        | exact (lowerRebind_mints hs fields fun _ _ _ => ⟨rfl, rfl, rfl⟩).result h
        | exact (onHandle_mints hs fields fun _ _ => ⟨rfl, rfl⟩).result h
        | exact (lowerReturn_mints hs fields).result h
        | exact (Mints.nil hs).result h
        | cases h
  · intro inRegion position s out s' h hs
    rw [lowerFlow] at h
    cases h
    exact .nil hs
  · intro n ns hn hns inRegion position s out s' h hs
    obtain ⟨first, mid, more, hfirst, hmore, rfl⟩ := lowerFlow_cons h
    have hm := hn inRegion position s first mid hfirst hs
    exact hm.append (hns inRegion _ mid more s' hmore hm.2)

/-! ## A function -/

section

variable {g : Shared} {ctx : FlowContext} {s : Flow}

theorem lowerFnParams_fresh (ctx : FlowContext) (view : Fn) (params : List (Nat × Fields)) (h : s.Below) :
    Fresh s.loc (lowerFnParams g ctx view params s).2.loc ((lowerFnParams g ctx view params s).1.map Param.name) ∧
      (lowerFnParams g ctx view params s).2.Below := by
  induction params generalizing s with
  | nil => exact ⟨.nil (le_refl _), h⟩
  | cons p rest ih =>
    obtain ⟨index, param⟩ := p
    obtain ⟨hnum, hbelow⟩ := h.mint ctx (show "parg_" ∈ ["loc_", "parg_", "brw_"] by simp) (str (getD param "name" (.str "?")))
      (asLine (Json.get param "line")) (asCol (Json.get param "column")) false
    obtain ⟨hfresh, hout⟩ := ih hbelow
    exact ⟨(Fresh.one hnum).append hfresh, hout⟩

theorem hoistedLets_mints (ctx : FlowContext) (hoist : List Hoisted) (h : s.Below) :
    Mints s (hoistedLets ctx hoist s).1 (hoistedLets ctx hoist s).2 := by
  induction hoist generalizing s with
  | nil => exact .nil h
  | cons hd rest ih =>
    have hone : Mints s [acquireStmt (s.mint ctx "loc_" hd.name hd.line hd.column hd.pool).1 hd.line] _ := .acquire h _ _ _ _
    exact hone.append (ih hone.2)

theorem hoistedLets_acquires {hoist : List Hoisted} :
    ∀ x ∈ (hoistedLets ctx hoist s).1, ∃ handle line, x = acquireStmt handle line := by
  induction hoist generalizing s with
  | nil => exact fun x hx => absurd hx List.not_mem_nil
  | cons hd rest ih =>
    intro x hx
    rcases List.mem_cons.mp hx with rfl | hx
    · exact ⟨_, _, rfl⟩
    · exact ih x hx

theorem hoistedLets_other {hoist : List Hoisted} {name : String} (h : name ∉ hoist.map Hoisted.name) :
    (hoistedLets ctx hoist s).2.localmap.get? name = s.localmap.get? name := by
  induction hoist generalizing s with
  | nil => rfl
  | cons hd rest ih =>
    rw [List.map_cons, List.mem_cons, not_or] at h
    rw [hoistedLets]
    dsimp only
    rw [ih h.2]
    simp only [Flow.mint, Dict.get?_set, if_neg h.1]

/-- A hoisted local has its handle from the top of the body. -/
theorem hoistedLets_handle {hoist : List Hoisted} {name : String} (h : name ∈ hoist.map Hoisted.name) :
    ∃ handle line, (hoistedLets ctx hoist s).2.localmap.get? name = some handle ∧
      acquireStmt handle line ∈ (hoistedLets ctx hoist s).1 := by
  induction hoist generalizing s with
  | nil => cases h
  | cons hd rest ih =>
    rw [hoistedLets]
    dsimp only
    by_cases hrest : name ∈ rest.map Hoisted.name
    · obtain ⟨handle, line, hget, hmem⟩ := ih hrest
      exact ⟨handle, line, hget, List.mem_cons_of_mem _ hmem⟩
    · have hname : name = hd.name := (List.mem_cons.mp h).resolve_right hrest
      refine ⟨_, hd.line, ?_, List.mem_cons_self⟩
      rw [hoistedLets_other hrest]
      simp only [Flow.mint, Dict.get?_set, if_pos hname]

end

/-- A function up to its body: its parameters are numbered, and then what is declared at its top. -/
structure Opened.Numbered (o : Opened) (lo : Nat) : Prop where
  numbers : ∃ mid, Fresh lo mid (o.params.map Param.name) ∧ Minted mid o.flow.loc (piecesSeq o.lets)
  below : o.flow.Below
  acquires : ∀ x ∈ o.lets, ∃ handle line, x = acquireStmt handle line
  handle : ∀ name ∈ o.ctx.hoisted, ∃ handle line, o.flow.localmap.get? name = some handle ∧ acquireStmt handle line ∈ o.lets

theorem openFn_numbered {g : Shared} {fn : Fn} {handles : List (String × FlowLocal)} {loc : Nat} {o : Opened}
    (h : openFn g fn handles loc = .ok o) : o.Numbered loc := by
  unfold openFn at h
  dsimp only at h
  split at h
  · cases h
  · split at h
    · cases h
    · cases h
      have hempty : (Flow.mk handles loc Dict.empty).Below := fun n hd hn => by
        rw [Dict.get?_empty] at hn
        cases hn
      have hparams := fun ctx view => lowerFnParams_fresh (g := g) ctx view fn.params hempty
      have hlets := fun ctx view ctx' hoist => hoistedLets_mints ctx' hoist (hparams ctx view).2
      exact ⟨⟨_, (hparams _ _).1, (hlets _ _ _ _).1⟩, (hlets _ _ _ _).2, hoistedLets_acquires,
        fun name hname => hoistedLets_handle hname⟩

theorem lowerFn_ok {g : Shared} {fn : Fn} {handles : List (String × FlowLocal)} {loc : Nat} {r : LoweredFn}
    (h : lowerFn g fn handles loc = .ok r) :
    ∃ o body, openFn g fn handles loc = .ok o ∧ lowerFlow o.ctx false (some 0) fn.body o.flow = .ok (body, r.flow) ∧
      r.decl.fn.params = o.params ∧ r.decl.fn.body = o.lets ++ body := by
  unfold lowerFn at h
  split at h
  · cases h
  · split at h
    · cases h
    · cases h
      exact ⟨_, _, ‹_›, ‹_›, rfl, rfl⟩

theorem lowered_distinct {g : Shared} {fn : Fn} {handles : List (String × FlowLocal)} {loc : Nat} {r : LoweredFn}
    (h : lowerFn g fn handles loc = .ok r) : Distinct r.decl.fn := by
  obtain ⟨o, body, hopen, hbody, hparams, hbodyeq⟩ := lowerFn_ok h
  have ho := openFn_numbered hopen
  obtain ⟨mid, hfresh, hlets⟩ := ho.numbers
  have hall : Minted mid r.flow.loc (piecesSeq r.decl.fn.body) := by
    rw [hbodyeq, piecesSeq_append]
    exact hlets.append ((lower_minted o.ctx).2 _ _ _ _ _ _ hbody ho.below).1
  have hnames : Fresh loc r.flow.loc (r.decl.fn.params.map Param.name ++ declares r.decl.fn.body) := by
    rw [hparams]
    exact hfresh.append hall.fresh
  refine ⟨hnames.nodup, fun n hn => ?_, fun pre x post src hsplit hsrc => hall.before hsplit hsrc⟩
  obtain ⟨k, hk, -⟩ := hnames.within n hn
  exact numbered_plain hk

end OwnNet.OwnIR
