/-
  OwnNet.Lang.Handles — the handles of one resource, by name: what the statements of a body
  do to it, along the ways through the body.

  A `Kin` says of every name of a body whether it is a handle of the resource, and then which
  handle it shares the obligation of: its root. A move makes a root of its target; an alias
  has the root of its source. `Hist K B D`: of the symbols `D` declared so far, all are as
  `K` says, and every handle has been started.

  Proved: `lowerSeq_marked`: the instructions of a lowered body do to the roots, way by way,
  what its statements say, unless a name was undefined.
-/

import OwnNet.Dict.Keyed
import OwnNet.Lang.Departures

namespace OwnNet.Lang

open Graph

/-! ## Statements, way by way -/

mutual

/-- A statement and everything inside it, but for branches and loops themselves. -/
def pieces : Stmt → List Stmt
  | .borrowBlock owner binding kind body line => .borrowBlock owner binding kind body line :: piecesSeq body
  | .if_ _ thenBody elseBody _ => piecesSeq thenBody ++ piecesSeq elseBody
  | .while_ _ body _ => piecesSeq body
  | st => [st]

def piecesSeq : List Stmt → List Stmt
  | [] => []
  | st :: rest => pieces st ++ piecesSeq rest

end

def Stmt.declared : Stmt → Option String
  | .let_ name _ _ | .aliasJoin name _ _ | .borrowBlock _ name _ _ _ => some name
  | _ => none

/-- The names a body declares, in the order it is lowered in. -/
def declares (body : List Stmt) : List String := (piecesSeq body).filterMap Stmt.declared

section

variable (owner : String → Bool)

mutual

/-- The ways through a statement; a borrow block is entered where its owner is one. -/
def stmtWays : Stmt → Ways Stmt
  | .borrowBlock name _ _ body _ => if owner name then seqWays body else .word []
  | .if_ _ thenBody elseBody _ => (seqWays thenBody).choice (seqWays elseBody)
  | .while_ _ body _ => (seqWays body).loop
  | .return_ var line => .leave [.return_ var line]
  | st => .word [st]

def seqWays : List Stmt → Ways Stmt
  | [] => .word []
  | st :: rest => (stmtWays st).seq (seqWays rest)

end

end

/-! ## One resource by its handles -/

/-- What the names of a body are: handles with their roots, owners, and by their origin the
    symbols that are handles. -/
structure Kin where
  root : String → Option String
  owner : String → Bool
  ours : Option String → Bool
  owned : ∀ n r, root n = some r → owner n = true
  unnamed : ours none = false

/-- The names among a call's arguments that it consumes. -/
def consumedName : Expr × Effect → Option String
  | (.varRef name _, eff) => if eff = .consume then some name else none
  | _ => none

def handed (env : Env) (callee : String) (args : List Expr) : List String :=
  match entry env.signatures callee with
  | none => []
  | some effects => if args.length ≠ effects.length then [] else (args.zip effects).filterMap consumedName

/-- What an instruction does to the resources of the symbols it names. -/
def Instr.fates : Instr → List (Symbol × VarState)
  | .acquire sym _ _ | .acquireBuffer sym _ _ => [(sym, .owned)]
  | .moveInto dst src _ => [(src, .moved), (dst, .owned)]
  | .release sym _ => [(sym, .released)]
  | .invoke _ args _ => (consumed args).map fun sym => (sym, .escaped)
  | .return_ (some sym) _ => [(sym, .escaped)]
  | _ => []

namespace Kin

variable (K : Kin)

/-- A mark on the root of a handle. -/
def mark (name : String) (v : VarState) : List (String × VarState) := (K.root name).toList.map fun r => (r, v)

/-- What an instruction does to the roots. -/
def marks (ins : Instr) : List (String × VarState) := ins.fates.flatMap fun f => K.mark f.1.name f.2

/-- What a statement does to the roots, in a function that hands a value back or does not. -/
def fates (env : Env) (returns : Bool) : Stmt → List (String × VarState)
  | .let_ name (.acquire _ _ _) _ => K.mark name .owned
  | .let_ name (.move src _) _ => K.mark src .moved ++ K.mark name .owned
  | .release var _ => K.mark var .released
  | .call callee args _ => (handed env callee args).flatMap fun name => K.mark name .escaped
  | .return_ (some var) _ => if returns then K.mark var .escaped else []
  | _ => []

/-- The statement declares what `K` says. -/
def Tied : Stmt → Prop
  | .let_ name (.acquire _ _ rline) _ =>
    K.owner name = true ∧ (∀ r, K.root name = some r → r = name) ∧ K.ours (some s!"{name}#{rline}") = (K.root name).isSome
  | .let_ name (.buffer _ _ _ bline _ col _) _ =>
    K.owner name = true ∧ K.root name = none ∧ K.ours (some s!"{name}#{bline}:{col}") = false
  | .let_ name (.move src _) _ => K.owner name = true ∧ K.root name = (K.root src).map fun _ => name
  | .let_ name _ _ => K.owner name = false ∧ K.root name = none
  | .aliasJoin name src _ => K.owner name = true ∧ K.root name = K.root src
  | .borrowBlock _ binding _ _ _ => K.owner binding = false ∧ K.root binding = none
  | _ => True

/-- The symbol is what `K` says of its name. -/
structure Known (s : Symbol) : Prop where
  kind : s.kind = .owned ↔ K.owner s.name = true
  ours : K.ours s.origin = (K.root s.name).isSome

/-- What an instruction starts has the root it should. -/
def Starts : Instr → Prop
  | .acquire sym _ _ | .acquireBuffer sym _ _ | .moveInto sym _ _ => ∀ r, K.root sym.name = some r → r = sym.name
  | .borrowStart _ binding _ _ => K.root binding.name = none
  | .aliasJoin handle src _ => K.root handle.name = K.root src.name ∧ src.id < handle.id
  | _ => True

variable {K}

theorem mark_none {name : String} (h : K.root name = none) (v : VarState) : K.mark name v = [] := by
  simp [mark, h]

theorem Known.owned {s : Symbol} (h : K.Known s) {r : String} (hr : K.root s.name = some r) : s.kind = .owned :=
  h.kind.mpr (K.owned _ _ hr)

/-- What is not an owner is not a handle. -/
theorem Known.not_handle {s : Symbol} (h : K.Known s) (hk : s.kind ≠ .owned) : K.root s.name = none := by
  cases hr : K.root s.name with
  | none => rfl
  | some r => exact absurd (h.owned hr) hk

end Kin

/-! ## What has been declared -/

namespace Builder

def Has (B : Builder) (ins : Instr) : Prop := ∃ b, ins ∈ B.code b

theorem has_of_blocks {B B' : Builder} (h : B'.blocks = B.blocks) (ins : Instr) : B'.Has ins ↔ B.Has ins := by
  unfold Has code
  rw [h]

theorem has_newBlock (B : Builder) (label : String) (ins : Instr) : (B.newBlock label).Has ins ↔ B.Has ins := by
  have hcode : ∀ b, (B.newBlock label).code b = B.code b := by
    intro b
    by_cases hb : b < B.blocks.length
    · exact code_newBlock hb
    · rw [code_of_ge (not_lt.mp hb)]
      unfold code
      rw [newBlock_get]
      by_cases heq : b = B.blocks.length
      · simp [heq]
      · rw [if_neg heq, List.getElem?_eq_none (not_lt.mp hb)]
        rfl
  simp [Has, hcode]

theorem has_link (B : Builder) (b : Nat) (succ : List Nat) (ins : Instr) : (B.link b succ).Has ins ↔ B.Has ins := by
  simp [Has, code_link]

theorem has_linkIf (B : Builder) (b : Option Nat) (succ : List Nat) (ins : Instr) : (B.linkIf b succ).Has ins ↔ B.Has ins := by
  simp [Has, code_linkIf]

theorem has_fork (B : Builder) (cur : Nat) (ins : Instr) : (B.fork cur).Has ins ↔ B.Has ins := by
  unfold fork
  rw [has_link, has_newBlock, has_newBlock]

theorem has_merge (B : Builder) (t e : Option Nat) (ins : Instr) : (B.merge t e).1.Has ins ↔ B.Has ins := by
  unfold merge
  split
  · rfl
  · rw [has_linkIf, has_linkIf, has_newBlock]

theorem has_openLoop (B : Builder) (cur : Nat) (ins : Instr) : (B.openLoop cur).Has ins ↔ B.Has ins := by
  unfold openLoop
  rw [has_link, has_newBlock, has_newBlock, has_link, has_newBlock]

theorem has_emit {B : Builder} {b : Nat} (hb : b < B.blocks.length) (x ins : Instr) :
    (B.emit b x).Has ins ↔ B.Has ins ∨ ins = x := by
  have hcode : ∀ c, (B.emit b x).code c = if c = b then B.code c ++ [x] else B.code c := by
    intro c
    by_cases hc : c = b
    · rw [if_pos hc, hc, code_emit hb]
    · rw [if_neg hc]
      unfold code
      rw [emit_get, if_neg hc]
  unfold Has
  constructor
  · intro h
    obtain ⟨c, hc⟩ := h
    rw [hcode] at hc
    by_cases hcb : c = b
    · rw [if_pos hcb] at hc
      exact (List.mem_append.mp hc).imp (fun h => ⟨c, h⟩) List.mem_singleton.mp
    · rw [if_neg hcb] at hc
      exact Or.inl ⟨c, hc⟩
  · intro h
    rcases h with ⟨c, hc⟩ | rfl
    · refine ⟨c, ?_⟩
      rw [hcode]
      split
      · exact List.mem_append_left _ hc
      · exact hc
    · refine ⟨b, ?_⟩
      rw [hcode, if_pos rfl]
      exact List.mem_append_right _ List.mem_cons_self

end Builder

/-- No name was undefined. -/
def Builder.Defined (B : Builder) : Prop := ∀ d ∈ B.diags, d.code ≠ .own030

namespace Builder.Defined

variable {B : Builder}

theorem of_report {c : Code} {m : String} {l : Int} (h : (B.report c m l).Defined) : B.Defined :=
  fun d hd => h d (List.mem_append_left _ hd)

theorem of_declare {mk : Nat → Symbol} (h : (B.declare mk).1.Defined) : B.Defined := by
  obtain ⟨ds, hds⟩ := B.declare_diags mk
  intro d hd
  refine h d ?_
  rw [hds]
  exact List.mem_append_left _ hd

theorem of_emit {b : Nat} {ins : Instr} (h : (B.emit b ins).Defined) : B.Defined := h

end Builder.Defined

structure Hist (K : Kin) (B : Builder) (D : List Symbol) : Prop where
  scopes : ∀ sc ∈ B.scopes, ∀ e ∈ sc, e.1 = e.2.name ∧ e.2 ∈ D
  young : ∀ s ∈ D, s.id < B.nextSym
  ids : (D.map Symbol.id).Nodup
  known : ∀ s ∈ D, K.Known s
  code : ∀ ins, B.Has ins → (∀ s ∈ ins.symbols, s ∈ D) ∧ K.Starts ins
  started : ∀ s ∈ D, ∀ r, K.root s.name = some r → ∃ ins, B.Has ins ∧ s ∈ ins.starts

namespace Hist

variable {K : Kin} {B B' : Builder} {D : List Symbol}

/-- The same scopes, or fewer, and the same code. -/
theorem of_same (h : Hist K B D) (hs : ∀ sc ∈ B'.scopes, sc = [] ∨ sc ∈ B.scopes) (hn : B'.nextSym = B.nextSym)
    (hc : ∀ ins, B'.Has ins ↔ B.Has ins) : Hist K B' D where
  scopes sc hsc e he := by
    rcases hs sc hsc with rfl | hsc
    · cases he
    · exact h.scopes sc hsc e he
  young s hs' := by
    rw [hn]
    exact h.young s hs'
  ids := h.ids
  known := h.known
  code ins hins := h.code ins ((hc ins).mp hins)
  started s hs' r hr := by
    obtain ⟨ins, hins, hmem⟩ := h.started s hs' r hr
    exact ⟨ins, (hc ins).mpr hins, hmem⟩

theorem reports (h : Hist K B D) (hr : Reports B B') : Hist K B' D := by
  obtain ⟨ds, rfl⟩ := hr
  exact h.of_same (fun _ hsc => Or.inr hsc) rfl fun _ => Iff.rfl

theorem push (h : Hist K B D) : Hist K B.pushScope D :=
  h.of_same (fun _ hsc => List.mem_cons.mp hsc) rfl fun _ => Iff.rfl

theorem pop (h : Hist K B D) : Hist K B.popScope D :=
  h.of_same (fun _ hsc => Or.inr (List.mem_of_mem_tail hsc)) rfl fun _ => Iff.rfl

/-- A name in scope is that of a symbol declared. -/
theorem visible (h : Hist K B D) {name : String} {s : Symbol} (hs : B.visible name = some s) : s ∈ D ∧ s.name = name := by
  unfold Builder.visible at hs
  obtain ⟨sc, hsc, hfind⟩ := List.exists_of_findSome?_eq_some hs
  unfold entry at hfind
  obtain ⟨hname, hmem⟩ := h.scopes sc hsc (name, s) (Dict.of_find_fst hfind)
  exact ⟨hmem, hname.symm⟩

theorem emit (h : Hist K B D) {cur : Nat} (hcur : cur < B.blocks.length) (ins : Instr) (hsyms : ∀ s ∈ ins.symbols, s ∈ D)
    (hst : K.Starts ins) : Hist K (B.emit cur ins) D where
  scopes := h.scopes
  young := h.young
  ids := h.ids
  known := h.known
  code x hx := by
    rcases (Builder.has_emit hcur ins x).mp hx with hx | rfl
    · exact h.code x hx
    · exact ⟨hsyms, hst⟩
  started s hs r hr := by
    obtain ⟨x, hx, hmem⟩ := h.started s hs r hr
    exact ⟨x, (Builder.has_emit hcur ins x).mpr (Or.inl hx), hmem⟩

section Declare

variable {mk : Nat → Symbol}

/-- A declaration, of a symbol that may not have been started yet. -/
theorem declared (h : Hist K B D) (hid : (mk B.nextSym).id = B.nextSym) (hk : K.Known (mk B.nextSym)) :
    (∀ sc ∈ (B.declare mk).1.scopes, ∀ e ∈ sc, e.1 = e.2.name ∧ e.2 ∈ D ++ [mk B.nextSym]) ∧
      (∀ s ∈ D ++ [mk B.nextSym], s.id < (B.declare mk).1.nextSym) ∧ ((D ++ [mk B.nextSym]).map Symbol.id).Nodup ∧
      ∀ s ∈ D ++ [mk B.nextSym], K.Known s := by
  refine ⟨?_, ?_, ?_, ?_⟩
  · intro sc hsc e he
    rw [Builder.declare_scopes] at hsc
    have hold : ∀ sc ∈ B.scopes, ∀ e ∈ sc, e.1 = e.2.name ∧ e.2 ∈ D ++ [mk B.nextSym] := by
      intro sc hsc e he
      obtain ⟨hname, hmem⟩ := h.scopes sc hsc e he
      exact ⟨hname, List.mem_append_left _ hmem⟩
    rcases List.mem_cons.mp hsc with rfl | hsc
    · rcases List.mem_cons.mp he with rfl | he
      · exact ⟨rfl, List.mem_append_right _ List.mem_cons_self⟩
      · cases hscs : B.scopes with
        | nil =>
          rw [hscs] at he
          cases he
        | cons top rest =>
          rw [hscs] at he
          exact hold top (by rw [hscs]; exact List.mem_cons_self) e he
    · exact hold sc (List.mem_of_mem_tail hsc) e he
  · intro s hs
    rw [Builder.declare_nextSym]
    rcases List.mem_append.mp hs with hs | hs
    · have := h.young s hs
      omega
    · rw [List.mem_singleton.mp hs, hid]
      omega
  · rw [List.map_append, List.nodup_append]
    refine ⟨h.ids, by simp, ?_⟩
    intro a ha b hb
    obtain ⟨s, hs, rfl⟩ := List.mem_map.mp ha
    have := h.young s hs
    simp only [List.map_cons, List.map_nil, List.mem_singleton] at hb
    omega
  · intro s hs
    rcases List.mem_append.mp hs with hs | hs
    · exact h.known s hs
    · rw [List.mem_singleton.mp hs]
      exact hk

/-- A declaration nothing starts: of no handle. -/
theorem bare (h : Hist K B D) (hid : (mk B.nextSym).id = B.nextSym) (hk : K.Known (mk B.nextSym))
    (hno : K.root (mk B.nextSym).name = none) : Hist K (B.declare mk).1 (D ++ [mk B.nextSym]) := by
  obtain ⟨hscopes, hyoung, hids, hknown⟩ := h.declared hid hk
  have hhas := fun ins => Builder.has_of_blocks (Builder.declare_blocks B mk) ins
  refine ⟨hscopes, hyoung, hids, hknown, ?_, ?_⟩
  · intro ins hins
    obtain ⟨hsyms, hst⟩ := h.code ins ((hhas ins).mp hins)
    exact ⟨fun s hs => List.mem_append_left _ (hsyms s hs), hst⟩
  · intro s hs r hr
    rcases List.mem_append.mp hs with hs | hs
    · obtain ⟨ins, hins, hmem⟩ := h.started s hs r hr
      exact ⟨ins, (hhas ins).mpr hins, hmem⟩
    · rw [List.mem_singleton.mp hs, hno] at hr
      cases hr

/-- A declaration that an instruction starts. -/
theorem define (h : Hist K B D) {cur : Nat} (hcur : cur < B.blocks.length) (hid : (mk B.nextSym).id = B.nextSym)
    (hk : K.Known (mk B.nextSym)) {ins : Instr} (hstarts : ins.starts = [mk B.nextSym])
    (hsyms : ∀ s ∈ ins.symbols, s = mk B.nextSym ∨ s ∈ D) (hst : K.Starts ins) :
    Hist K ((B.declare mk).1.emit cur ins) (D ++ [mk B.nextSym]) := by
  obtain ⟨hscopes, hyoung, hids, hknown⟩ := h.declared hid hk
  have hcur' : cur < (B.declare mk).1.blocks.length := by
    rw [Builder.declare_blocks]
    exact hcur
  have hhas : ∀ x, ((B.declare mk).1.emit cur ins).Has x ↔ B.Has x ∨ x = ins := by
    intro x
    rw [Builder.has_emit hcur', Builder.has_of_blocks (Builder.declare_blocks B mk)]
  refine ⟨hscopes, hyoung, hids, hknown, ?_, ?_⟩
  · intro x hx
    rcases (hhas x).mp hx with hx | rfl
    · obtain ⟨hs, hstx⟩ := h.code x hx
      exact ⟨fun s hmem => List.mem_append_left _ (hs s hmem), hstx⟩
    · refine ⟨fun s hs => ?_, hst⟩
      rcases hsyms s hs with rfl | hs
      · exact List.mem_append_right _ List.mem_cons_self
      · exact List.mem_append_left _ hs
  · intro s hs r hr
    rcases List.mem_append.mp hs with hs | hs
    · obtain ⟨x, hx, hmem⟩ := h.started s hs r hr
      exact ⟨x, (hhas x).mpr (Or.inl hx), hmem⟩
    · refine ⟨ins, (hhas ins).mpr (Or.inr rfl), ?_⟩
      rw [List.mem_singleton.mp hs, hstarts]
      exact List.mem_cons_self

end Declare

/-- A lookup that reports nothing undefined has found a symbol of the name. -/
theorem lookup (h : Hist K B D) {name : String} {line : Int} (hd : (B.lookup name line).1.Defined) :
    ∃ s ∈ D, B.lookup name line = (B, some s) ∧ s.name = name := by
  unfold Builder.lookup at hd ⊢
  cases hv : B.visible name with
  | some s =>
    obtain ⟨hmem, hname⟩ := h.visible hv
    exact ⟨s, hmem, rfl, hname⟩
  | none =>
    rw [hv] at hd
    exact absurd rfl (hd _ (List.mem_append_right _ List.mem_cons_self))

end Hist

/-! ## Statements within a block -/

/-- The lowering of `W` from `B`, with `D` declared: the names declared are among `names`, and the
    instructions do to the roots what the statements say. -/
def Marked (K : Kin) (env : Env) (returns : Bool) (names : List String) (W : Ways Stmt) (D : List Symbol)
    (B : Builder) (cur : Nat)
    (B' : Builder) (out : Option Nat) : Prop :=
  ∃ l R, Hist K B' (D ++ l) ∧ (l.map Symbol.name).Sublist names ∧ Charts B cur B' out R ∧
    R.map K.marks = W.map (K.fates env returns)

section

variable {K : Kin} {env : Env} {fn : FnDecl} {B B' B₁ : Builder} {D : List Symbol} {cur : Nat} {out : Option Nat} {st : Stmt}
  {returns : Bool}

namespace Marked

/-- Nothing is emitted, and nothing declared. -/
theorem idle (h : Hist K B D) (hcur : cur < B.blocks.length) (hu : B.Unlinked cur) (hr : Reports B B') {w : List Stmt}
    (hf : w.flatMap (K.fates env returns) = []) (names : List String) :
    Marked K env returns names (.word w) D B cur B' (some cur) := by
  refine ⟨[], .word [], by simpa using h.reports hr, by simp, ?_, by simp [hf]⟩
  refine .straight hcur hu (.nothing ?_) fun ins hins => absurd hins List.not_mem_nil
  obtain ⟨ds, rfl⟩ := hr
  rfl

/-- One instruction that starts nothing. -/
theorem act (h : Hist K B D) (hcur : cur < B.blocks.length) (hu : B.Unlinked cur) (ins : Instr) (hret : ins.isReturn = false)
    (hsyms : ∀ s ∈ ins.symbols, s ∈ D) (hst : K.Starts ins) (hf : K.marks ins = K.fates env returns st) (names : List String) :
    Marked K env returns names (.word [st]) D B cur (B.emit cur ins) (some cur) := by
  refine ⟨[], .word [ins], by simpa using h.emit hcur ins hsyms hst, by simp, ?_, by simp [hf]⟩
  refine .straight hcur hu (.emit rfl ins) fun x hx => ?_
  rw [List.mem_singleton.mp hx]
  exact hret

/-- A declaration nothing starts. -/
theorem bare (h : Hist K B D) (hcur : cur < B.blocks.length) (hu : B.Unlinked cur) (hr : Reports B B₁) {mk : Nat → Symbol}
    (hid : (mk B₁.nextSym).id = B₁.nextSym) (hk : K.Known (mk B₁.nextSym)) (hno : K.root (mk B₁.nextSym).name = none)
    (hf : K.fates env returns st = []) :
    Marked K env returns [(mk B₁.nextSym).name] (.word [st]) D B cur (B₁.declare mk).1 (some cur) := by
  refine ⟨[mk B₁.nextSym], .word [], (h.reports hr).bare hid hk hno, by simp, ?_, by simp [hf]⟩
  refine .straight hcur hu (.nothing ?_) fun ins hins => absurd hins List.not_mem_nil
  obtain ⟨ds, rfl⟩ := hr
  exact Builder.declare_blocks _ _

/-- A declaration that an instruction starts. -/
theorem define (h : Hist K B D) (hcur : cur < B.blocks.length) (hu : B.Unlinked cur) (hr : Reports B B₁) {mk : Nat → Symbol}
    (hid : (mk B₁.nextSym).id = B₁.nextSym) (hk : K.Known (mk B₁.nextSym)) {ins : Instr} (hret : ins.isReturn = false)
    (hstarts : ins.starts = [mk B₁.nextSym]) (hsyms : ∀ s ∈ ins.symbols, s = mk B₁.nextSym ∨ s ∈ D) (hst : K.Starts ins)
    (hf : K.marks ins = K.fates env returns st) :
    Marked K env returns [(mk B₁.nextSym).name] (.word [st]) D B cur ((B₁.declare mk).1.emit cur ins) (some cur) := by
  have hblocks : B₁.blocks = B.blocks := by
    obtain ⟨ds, rfl⟩ := hr
    rfl
  refine ⟨[mk B₁.nextSym], .word [ins], (h.reports hr).define (by rw [hblocks]; exact hcur) hid hk hstarts hsyms hst, by simp,
    ?_, by simp [hf]⟩
  refine .straight hcur hu (.emit (by rw [Builder.declare_blocks, hblocks]) ins) fun x hx => ?_
  rw [List.mem_singleton.mp hx]
  exact hret

end Marked

theorem lowerBuffer_marked (h : Hist K B D) (hcur : cur < B.blocks.length) (hu : B.Unlinked cur) {name : String} {line : Int}
    {mode : String} {size : Option Expr} {options : List (String × Expr)} {bline : Int} {ns : String} {col : Int}
    {dups : List String} (ht : K.Tied (.let_ name (.buffer mode size options bline ns col dups) line))
    (hd : (lowerBuffer env name line mode size options bline ns col dups cur B).Defined) :
    Marked K env returns [name] (.word [.let_ name (.buffer mode size options bline ns col dups) line]) D B cur
      (lowerBuffer env name line mode size options bline ns col dups cur B) (some cur) := by
  obtain ⟨howner, hroot, hours⟩ := ht
  unfold lowerBuffer at hd ⊢
  dsimp only at hd ⊢
  by_cases hns : ns ≠ "Buffer"
  · rw [if_pos hns] at hd
    exact absurd rfl (Builder.Defined.of_declare hd _ (List.mem_append_right _ List.mem_cons_self))
  · rw [if_neg hns] at hd ⊢
    cases hm : BufferMode.parse mode with
    | none =>
      rw [hm] at hd
      exact absurd rfl (Builder.Defined.of_declare hd _ (List.mem_append_right _ List.mem_cons_self))
    | some m =>
      refine .define h hcur hu ((checkSize_reports name size bline B).trans ⟨_, rfl⟩) rfl ?_ rfl rfl ?_ ?_ ?_
      · exact ⟨iff_of_true rfl howner, by rw [hours, hroot]; rfl⟩
      · intro s hs
        exact Or.inl (List.mem_singleton.mp hs)
      · intro r hr
        change K.root name = some r at hr
        rw [hroot] at hr
        cases hr
      · simp [Kin.marks, Instr.fates, Kin.mark_none hroot, Kin.fates]

theorem lowerLet_marked (h : Hist K B D) (hcur : cur < B.blocks.length) (hu : B.Unlinked cur) {name : String} {rhs : Expr}
    {line : Int} (ht : K.Tied (.let_ name rhs line)) (hd : (lowerLet env name rhs line cur B).Defined) :
    Marked K env returns [name] (.word [.let_ name rhs line]) D B cur (lowerLet env name rhs line cur B) (some cur) := by
  cases rhs with
  | acquire resource args rline =>
    obtain ⟨howner, hroot, hours⟩ := ht
    refine .define h hcur hu (resource_reports env resource rline B) rfl ⟨iff_of_true rfl howner, hours⟩ rfl rfl ?_ hroot ?_
    · intro s hs
      exact Or.inl (List.mem_singleton.mp hs)
    · simp [Kin.marks, Instr.fates, Kin.fates]
  | buffer mode size options bline ns col dups => exact lowerBuffer_marked h hcur hu ht hd
  | move var rline =>
    obtain ⟨howner, hroot⟩ := ht
    simp only [lowerLet] at hd ⊢
    have hfound : (B.lookup var rline).1.Defined := by
      split at hd
      · exact hd.of_declare
      · split at hd
        · exact Builder.Defined.of_report hd.of_declare
        · exact hd.of_emit.of_declare
    obtain ⟨src, hsrc, hlook, hname⟩ := h.lookup hfound
    simp only [hlook] at hd ⊢
    by_cases hk : src.kind ≠ .owned
    · -- a target without a resource
      have hno : K.root name = none := by
        rw [hroot, ← hname, (h.known src hsrc).not_handle hk]
        rfl
      rw [if_pos hk]
      refine .bare h hcur hu (Reports.one _ _ _ _) rfl ⟨iff_of_true rfl howner, ?_⟩ hno ?_
      · rw [K.unnamed, hno]
        rfl
      · have hsrcno : K.root var = none := by rw [← hname, (h.known src hsrc).not_handle hk]
        simp [Kin.fates, Kin.mark_none hno, Kin.mark_none hsrcno]
    · rw [if_neg hk]
      refine .define h hcur hu (Reports.refl B) rfl ⟨iff_of_true rfl howner, ?_⟩ rfl rfl ?_ ?_ ?_
      · show K.ours src.origin = _
        rw [(h.known src hsrc).ours, hname, hroot, Option.isSome_map]
      · intro s hs
        rcases List.mem_cons.mp hs with rfl | hs
        · exact Or.inl rfl
        · rw [List.mem_singleton.mp hs]
          exact Or.inr hsrc
      · intro r hr
        change K.root name = some r at hr
        rw [hroot] at hr
        obtain ⟨_, -, rfl⟩ := Option.map_eq_some_iff.mp hr
        rfl
      · simp [Kin.marks, Instr.fates, Kin.fates, hname]
  | varRef var rline =>
    obtain ⟨howner, hroot⟩ := ht
    have hl := Reports.lookup B var rline
    refine .bare h hcur hu ?_ rfl ⟨iff_of_false (by simp) (by simp [howner]), ?_⟩ hroot rfl
    · split
      · exact hl
      · split
        · exact hl.trans (Reports.one _ _ _ _)
        · exact hl
    · rw [K.unnamed, hroot]
      rfl
  | intLit value iline =>
    obtain ⟨howner, hroot⟩ := ht
    refine .bare h hcur hu (Reports.refl B) rfl ⟨iff_of_false (by simp) (by simp [howner]), ?_⟩ hroot rfl
    rw [K.unnamed, hroot]
    rfl

theorem lowerAliasJoin_marked (h : Hist K B D) (hcur : cur < B.blocks.length) (hu : B.Unlinked cur) {name src : String}
    {line : Int} (ht : K.Tied (.aliasJoin name src line)) (hd : (lowerAliasJoin name src line cur B).Defined) :
    Marked K env returns [name] (.word [.aliasJoin name src line]) D B cur (lowerAliasJoin name src line cur B) (some cur) := by
  obtain ⟨howner, hroot⟩ := ht
  simp only [lowerAliasJoin] at hd ⊢
  have hfound : (B.lookup src line).1.Defined := by
    split at hd
    · exact hd.of_declare
    · split at hd
      · exact Builder.Defined.of_report hd.of_declare
      · exact hd.of_emit.of_declare
  obtain ⟨s, hs, hlook, hname⟩ := h.lookup hfound
  simp only [hlook] at hd ⊢
  by_cases hk : s.kind ≠ .owned
  · have hno : K.root name = none := by rw [hroot, ← hname, (h.known s hs).not_handle hk]
    rw [if_pos hk]
    refine .bare h hcur hu (Reports.one _ _ _ _) rfl ⟨iff_of_true rfl howner, ?_⟩ hno rfl
    rw [K.unnamed, hno]
    rfl
  · rw [if_neg hk]
    refine .define h hcur hu (Reports.refl B) rfl ⟨iff_of_true rfl howner, ?_⟩ rfl rfl ?_ ⟨?_, h.young s hs⟩ rfl
    · show K.ours s.origin = _
      rw [(h.known s hs).ours, hname, hroot]
    · intro t ht
      rcases List.mem_cons.mp ht with rfl | ht
      · exact Or.inr hs
      · exact Or.inl (List.mem_singleton.mp ht)
    · show K.root name = K.root s.name
      rw [hname, hroot]

theorem lowerOwned_marked (h : Hist K B D) (hcur : cur < B.blocks.length) (hu : B.Unlinked cur) {var : String} {line : Int}
    {cannot : String} (f : Symbol → Instr) (hmk : ∀ s, (f s).isReturn = false ∧ (f s).symbols = [s] ∧ K.Starts (f s))
    (hf : ∀ s, s.name = var → K.marks (f s) = K.fates env returns st) (hno : K.root var = none → K.fates env returns st = [])
    (hd : (lowerOwned var line cannot f cur B).Defined) (names : List String) :
    Marked K env returns names (.word [st]) D B cur (lowerOwned var line cannot f cur B) (some cur) := by
  simp only [lowerOwned] at hd ⊢
  have hfound : (B.lookup var line).1.Defined := by
    split at hd
    · exact hd
    · split at hd
      · exact hd.of_report
      · exact hd.of_emit
  obtain ⟨s, hs, hlook, hname⟩ := h.lookup hfound
  simp only [hlook] at hd ⊢
  obtain ⟨hret, hsyms, hst⟩ := hmk s
  by_cases hk : s.kind ≠ .owned
  · rw [if_pos hk]
    refine .idle h hcur hu (Reports.one _ _ _ _) ?_ names
    rw [List.flatMap_singleton, hno]
    rw [← hname, (h.known s hs).not_handle hk]
  · rw [if_neg hk]
    refine .act h hcur hu _ hret (fun t ht => ?_) hst (hf s hname) names
    rw [hsyms] at ht
    rwa [List.mem_singleton.mp ht]

theorem lowerUse_marked (h : Hist K B D) (hcur : cur < B.blocks.length) (hu : B.Unlinked cur) {var : String} {line : Int}
    (hd : (lowerUse var line cur B).Defined) (names : List String) :
    Marked K env returns names (.word [.use var line]) D B cur (lowerUse var line cur B) (some cur) := by
  simp only [lowerUse] at hd ⊢
  have hfound : (B.lookup var line).1.Defined := by
    split at hd
    · exact hd
    · exact hd.of_emit
  obtain ⟨s, hs, hlook, -⟩ := h.lookup hfound
  simp only [hlook]
  refine .act h hcur hu (.use s line) rfl (fun t ht => ?_) trivial rfl names
  rwa [List.mem_singleton.mp ht]

/-! ### Calls -/

/-- Every name among the arguments stands for its symbol. -/
theorem resolveArgs_marked (h : Hist K B D) (args : List (Expr × Effect)) (hd : (resolveArgs args B).1.Defined) :
    (∀ s ∈ (resolveArgs args B).2.filterMap Prod.fst, s ∈ D) ∧
      (consumed (resolveArgs args B).2).flatMap (fun s => K.mark s.name .escaped) =
        (args.filterMap consumedName).flatMap fun name => K.mark name .escaped := by
  induction args generalizing B with
  | nil => exact ⟨fun s hs => absurd hs List.not_mem_nil, rfl⟩
  | cons a rest ih =>
    obtain ⟨e, eff⟩ := a
    cases e with
    | varRef name line =>
      have hfound : (B.lookup name line).1.Defined := by
        obtain ⟨ds, hds⟩ := (resolveArgs_spec rest (B.lookup name line).1).1
        intro d hmem
        refine hd d ?_
        show d ∈ (resolveArgs rest (B.lookup name line).1).1.diags
        rw [hds]
        exact List.mem_append_left _ hmem
      obtain ⟨s, hs, hlook, hname⟩ := h.lookup hfound
      simp only [resolveArgs, hlook] at hd ⊢
      obtain ⟨hmem, hmarks⟩ := ih h hd
      refine ⟨fun t ht => ?_, ?_⟩
      · simp only [List.filterMap_cons] at ht
        rcases List.mem_cons.mp ht with rfl | ht
        · exact hs
        · exact hmem t ht
      · rw [consumed]
        by_cases hk : s.kind = .owned
        · by_cases he : eff = .consume
          · simp [hk, he, consumedName, hmarks, hname]
          · simp [he, consumedName, hmarks]
        · -- what is not owned is not a handle
          have hno : K.root name = none := by rw [← hname, (h.known s hs).not_handle hk]
          by_cases he : eff = .consume
          · simp [hk, he, consumedName, hmarks, Kin.mark_none hno]
          · simp [he, consumedName, hmarks]
    | _ =>
      obtain ⟨hmem, hmarks⟩ := ih h hd
      refine ⟨fun t ht => hmem t ht, ?_⟩
      simpa [resolveArgs, consumed, consumedName, List.filterMap_cons] using hmarks

theorem lowerCall_marked (h : Hist K B D) (hcur : cur < B.blocks.length) (hu : B.Unlinked cur) {callee : String}
    {args : List Expr} {line : Int} (hd : (lowerCall env callee args line cur B).Defined) (names : List String) :
    Marked K env returns names (.word [.call callee args line]) D B cur (lowerCall env callee args line cur B) (some cur) := by
  unfold lowerCall at hd ⊢
  cases hsig : entry env.signatures callee with
  | none =>
    refine .idle h hcur hu ((Reports.one B _ _ _).trans (lookupArgs_reports _ _)) ?_ names
    simp [Kin.fates, handed, hsig]
  | some effects =>
    simp only [hsig] at hd
    by_cases hlen : args.length ≠ effects.length
    · dsimp only
      rw [if_pos hlen]
      refine .idle h hcur hu ((Reports.one B _ _ _).trans (lookupArgs_reports _ _)) ?_ names
      simp [Kin.fates, handed, hsig, hlen]
    · dsimp only
      rw [if_neg hlen] at hd ⊢
      obtain ⟨hmem, hmarks⟩ := resolveArgs_marked h (args.zip effects) hd.of_emit
      obtain ⟨hr, -⟩ := resolveArgs_spec (args.zip effects) B
      have hcur' : cur < (resolveArgs (args.zip effects) B).1.blocks.length := by
        obtain ⟨ds, hds⟩ := hr
        rw [hds]
        exact hcur
      have hblocks : (resolveArgs (args.zip effects) B).1.blocks = B.blocks := by
        obtain ⟨ds, hds⟩ := hr
        rw [hds]
      refine ⟨[], .word [.invoke callee (resolveArgs (args.zip effects) B).2 line], ?_, by simp, ?_, ?_⟩
      · have hafter := (h.reports hr).emit hcur' (.invoke callee (resolveArgs (args.zip effects) B).2 line) hmem trivial
        rwa [List.append_nil]
      · refine .straight hcur hu (.emit hblocks _) fun x hx => ?_
        rw [List.mem_singleton.mp hx]
        rfl
      · simp only [Ways.map_word, List.flatMap_singleton]
        simp only [Kin.marks, Instr.fates, Kin.fates, handed, hsig, if_neg hlen, List.flatMap_map]
        rw [hmarks]

/-! ### Returns -/

/-- What is handed out bears the name, and a handle is. -/
theorem returned_marked (h : Hist K B D) {var : Option String} {line : Int} (hd : (returned env fn var line B).1.Defined) :
    (∀ s ∈ (returned env fn var line B).2, s ∈ D) ∧
      K.marks (.return_ (returned env fn var line B).2 line) = K.fates env fn.ret.isSome (.return_ var line) := by
  cases var with
  | none =>
    unfold returned
    cases fn.ret <;> exact ⟨fun s hs => (by cases hs), rfl⟩
  | some v =>
    have hfound : (B.lookup v line).1.Defined := by
      obtain ⟨ds, hds⟩ := (returned_spec env fn (some v) line (B.lookup v line).1).1
      unfold returned at hd
      cases hret : fn.ret with
      | none =>
        simp only [hret] at hd
        split at hd
        · exact hd
        · exact hd.of_report
      | some ret =>
        simp only [hret] at hd
        split at hd
        · exact hd
        · repeat' split at hd
          all_goals first | exact hd | exact hd.of_report
    obtain ⟨s, hs, hlook, hname⟩ := h.lookup hfound
    have hmark : K.marks (.return_ (some s) line) = K.mark v .escaped := by
      simp [Kin.marks, Instr.fates, hname]
    unfold returned
    cases hret : fn.ret with
    | none =>
      simp only [hlook]
      exact ⟨fun t ht => (by cases ht), rfl⟩
    | some ret =>
      simp only [hlook]
      by_cases hk : s.kind = .owned
      · -- an owner leaves the function, whatever its type
        have hborrow : s.kind ≠ .borrow := by rw [hk]; decide
        have hplain : s.kind ≠ .plain := by rw [hk]; decide
        have hboth : (∀ t ∈ some s, t ∈ D) ∧ K.marks (.return_ (some s) line) = K.mark v .escaped :=
          ⟨fun t ht => (by cases ht; exact hs), hmark⟩
        rw [if_neg hborrow]
        split
        · rw [if_neg (not_not.mpr hk)]
          exact hboth
        · exact hboth
      · have hno : K.root v = none := by rw [← hname, (h.known s hs).not_handle hk]
        have hfates : K.fates env true (.return_ (some v) line) = [] := by simp [Kin.fates, Kin.mark_none hno]
        have hempty : (∀ t ∈ (none : Option Symbol), t ∈ D) ∧ K.marks (.return_ none line) = [] :=
          ⟨fun t ht => (by cases ht), rfl⟩
        have hsome : (∀ t ∈ some s, t ∈ D) ∧ K.marks (.return_ (some s) line) = [] :=
          ⟨fun t ht => (by cases ht; exact hs), by rw [hmark, Kin.mark_none hno]⟩
        simp only [Option.isSome_some, hfates]
        repeat' split
        all_goals first | exact hempty | exact hsome

/-! ## Bodies -/

theorem Lowered.keeps {G : Layout} (h : Lowered G B cur B' out) : ∀ d ∈ B.diags, d ∈ B'.diags := by
  have hdeclare : ∀ (B : Builder) (mk : Nat → Symbol), ∀ d ∈ B.diags, d ∈ (B.declare mk).1.diags := by
    intro B mk d hd
    obtain ⟨ds, hds⟩ := B.declare_diags mk
    rw [hds]
    exact List.mem_append_left _ hd
  induction h with
  | stay hl =>
    cases hl with
    | report ds => exact fun d hd => List.mem_append_left _ hd
    | bare mk => exact hdeclare _ mk
    | define mk => exact hdeclare _ mk
    | emit => exact fun d hd => hd
  | seq _ _ ih₁ ih₂ => exact fun d hd => ih₂ d (ih₁ d hd)
  | ret => exact fun d hd => hd
  | @borrow B B' cur mk owner isMut line out _ _ _ _ _ _ ih =>
    intro d hd
    rw [Builder.closeBorrow_diags]
    exact ih d (hdeclare _ mk d hd)
  | branch _ _ _ _ _ ih₁ ih₂ =>
    intro d hd
    rw [Builder.merge_diags]
    exact ih₂ d (ih₁ d hd)
  | loop _ _ _ _ _ ih =>
    intro d hd
    rw [Builder.linkIf_diags]
    exact ih d hd

theorem lowerStmt_defined (env : Env) (fn : FnDecl) (st : Stmt) (hB : B.Scoped)
    (hd : (lowerStmt env fn st cur B).1.Defined) : B.Defined := by
  obtain ⟨G, -, hl⟩ := lowerStmt_lowers env fn st cur hB ⟨fun _ => [], fun _ => 0, fun _ => false, id⟩
  exact fun d hmem => hd d (hl.keeps d hmem)

theorem lowerSeq_defined (env : Env) (fn : FnDecl) (body : List Stmt) (hB : B.Scoped)
    (hd : (lowerSeq env fn body cur B).1.Defined) : B.Defined := by
  obtain ⟨G, -, hl⟩ := lowerSeq_lowers env fn body cur hB ⟨fun _ => [], fun _ => 0, fun _ => false, id⟩
  exact fun d hmem => hd d (hl.keeps d hmem)

theorem lowerStmt_spans (env : Env) (fn : FnDecl) (st : Stmt) (hB : B.Scoped) (hcur : cur < B.blocks.length)
    (hu : B.Unlinked cur) :
    Spans B cur (lowerStmt env fn st cur B).1 (lowerStmt env fn st cur B).2 := by
  obtain ⟨G, -, hl⟩ := lowerStmt_lowers env fn st cur hB ⟨fun _ => [], fun _ => 0, fun _ => false, id⟩
  exact hl.spans hcur hu

theorem lowerSeq_spans (env : Env) (fn : FnDecl) (body : List Stmt) (hB : B.Scoped) (hcur : cur < B.blocks.length)
    (hu : B.Unlinked cur) :
    Spans B cur (lowerSeq env fn body cur B).1 (lowerSeq env fn body cur B).2 := by
  obtain ⟨G, -, hl⟩ := lowerSeq_lowers env fn body cur hB ⟨fun _ => [], fun _ => 0, fun _ => false, id⟩
  exact hl.spans hcur hu

/-- Where control does not go on, no way falls out. -/
theorem Charts.never {R : Ways Instr} (h : Charts B cur B' out R) (hout : out = none) : R.falls = 0 := by
  induction h with
  | straight => cases hout
  | ret => rfl
  | seq _ _ _ _ _ ih =>
    show _ * _ = _
    rw [ih hout, mul_zero]
  | @branch B B₁ B₂ cur t e R S _ _ _ _ _ _ ih₁ ih₂ =>
    have hte : t = none ∧ e = none := by
      unfold Builder.merge at hout
      by_contra hne
      rw [if_neg hne] at hout
      cases hout
    show _ + _ = _
    rw [ih₁ hte.1, ih₂ hte.2, add_zero]
  | loop => cases hout
  | same _ _ ih => exact ih hout

namespace Marked

variable {names more : List String} {V W : Ways Stmt} {c : Nat} {t e : Option Nat} {B₂ : Builder}

/-- Nothing runs after a statement that does not let control go on. -/
theorem stop (h : Marked K env returns names V D B cur B' none) :
    Marked K env returns (names ++ more) (V.seq W) D B cur B' none := by
  obtain ⟨l, R, hh, hl, hR, hmarks⟩ := h
  refine ⟨l, R, hh, hl.trans (List.sublist_append_left _ _), hR, ?_⟩
  have hnone : (V.map (K.fates env returns)).falls = 0 := by
    rw [← hmarks]
    show subst K.marks R.falls = 0
    rw [hR.never rfl, subst_zero]
  rw [Ways.map_seq, Ways.seq_of_left hnone, hmarks]

theorem seq (s₁ : Spans B cur B₁ (some c)) (s₂ : Spans B₁ c B₂ out) (h₁ : Marked K env returns names V D B cur B₁ (some c))
    (h₂ : ∀ l, Hist K B₁ (D ++ l) → Marked K env returns more W (D ++ l) B₁ c B₂ out) :
    Marked K env returns (names ++ more) (V.seq W) D B cur B₂ out := by
  obtain ⟨l, R, hh, hl, hR, hmarks⟩ := h₁
  obtain ⟨m, S, hh', hm, hS, hmarks'⟩ := h₂ l hh
  refine ⟨l ++ m, R.seq S, by rwa [← List.append_assoc], ?_, .seq s₁ s₂ hR hS, ?_⟩
  · rw [List.map_append]
    exact hl.append hm
  · rw [Ways.map_seq, Ways.map_seq, hmarks, hmarks']

theorem branch (hcur : cur < B.blocks.length) (hu : B.Unlinked cur) (s₁ : Spans (B.fork cur).pushScope B.blocks.length B₁ t)
    (s₂ : Spans B₁.popScope.pushScope (B.blocks.length + 1) B₂ e)
    (h₁ : Marked K env returns names V D (B.fork cur).pushScope B.blocks.length B₁ t)
    (h₂ : ∀ l, Hist K B₁.popScope.pushScope (D ++ l) →
      Marked K env returns more W (D ++ l) B₁.popScope.pushScope (B.blocks.length + 1) B₂ e) :
    Marked K env returns (names ++ more) (V.choice W) D B cur (B₂.popScope.merge t e).1 (B₂.popScope.merge t e).2 := by
  obtain ⟨l, R, hh, hl, hR, hmarks⟩ := h₁
  obtain ⟨m, S, hh', hm, hS, hmarks'⟩ := h₂ l hh.pop.push
  refine ⟨l ++ m, R.choice S, ?_, ?_, .branch hcur hu s₁ s₂ hR hS, ?_⟩
  · rw [← List.append_assoc]
    exact hh'.pop.of_same (fun sc hsc => Or.inr (by rwa [Builder.merge_scopes] at hsc)) (Builder.merge_nextSym _ _ _)
      (Builder.has_merge _ _ _)
  · rw [List.map_append]
    exact hl.append hm
  · rw [Ways.map_choice, Ways.map_choice, hmarks, hmarks']

theorem loop (hcur : cur < B.blocks.length) (hu : B.Unlinked cur)
    (s : Spans (B.openLoop cur).pushScope (B.blocks.length + 1) B' out)
    (h : Marked K env returns names V D (B.openLoop cur).pushScope (B.blocks.length + 1) B' out) :
    Marked K env returns names V.loop D B cur (B'.popScope.linkIf out [B.blocks.length]) (some (B.blocks.length + 2)) := by
  obtain ⟨l, R, hh, hl, hR, hmarks⟩ := h
  refine ⟨l, R.loop, ?_, hl, .loop hcur hu s hR, by rw [Ways.map_loop, Ways.map_loop, hmarks]⟩
  refine hh.pop.of_same (fun sc hsc => Or.inr ?_) (Builder.linkIf_nextSym _ _ _) (Builder.has_linkIf _ _ _)
  rwa [Builder.linkIf_scopes] at hsc

theorem borrow (mk : Nat → Symbol) (h : Hist K B D) (hcur : cur < B.blocks.length) (hu : B.Unlinked cur) {o : Symbol} (ho : o ∈ D)
    (hid : (mk B.nextSym).id = B.nextSym) (hk : K.Known (mk B.nextSym))
    (hno : K.root (mk B.nextSym).name = none) {isMut : Bool} {line : Int}
    (s : Spans ((B.pushScope.declare mk).1.emit cur (.borrowStart o (mk B.nextSym) isMut line)) cur B' out)
    (hbody : ∀ l, Hist K ((B.pushScope.declare mk).1.emit cur (.borrowStart o (mk B.nextSym) isMut line)) (D ++ l) →
      Marked K env returns names W (D ++ l) ((B.pushScope.declare mk).1.emit cur (.borrowStart o (mk B.nextSym) isMut line))
        cur B' out) :
    Marked K env returns ((mk B.nextSym).name :: names) W D B cur (B'.closeBorrow o (mk B.nextSym) isMut line out) out := by
  have happ : Appends B cur [.borrowStart o (mk B.nextSym) isMut line]
      ((B.pushScope.declare mk).1.emit cur (.borrowStart o (mk B.nextSym) isMut line)) :=
    .emit (Builder.declare_blocks _ _) _
  have hopen : Hist K ((B.pushScope.declare mk).1.emit cur (.borrowStart o (mk B.nextSym) isMut line)) (D ++ [mk B.nextSym]) := by
    refine h.push.define hcur hid hk rfl (fun t ht => ?_) hno
    rcases List.mem_cons.mp ht with rfl | ht
    · exact Or.inr ho
    · exact Or.inl (List.mem_singleton.mp ht)
  obtain ⟨l, R, hh, hl, hR, hmarks⟩ := hbody _ hopen
  have hstart : Charts B cur ((B.pushScope.declare mk).1.emit cur (.borrowStart o (mk B.nextSym) isMut line)) (some cur)
      (.word [.borrowStart o (mk B.nextSym) isMut line]) := by
    refine .straight hcur hu happ fun x hx => ?_
    rw [List.mem_singleton.mp hx]
    rfl
  have hin := Charts.seq (happ.spans hcur hu) s hstart hR
  have hthrough := (happ.spans hcur hu).trans s
  have hsub : (([mk B.nextSym] ++ l).map Symbol.name).Sublist ((mk B.nextSym).name :: names) := hl.cons_cons _
  have hmarked : ((Ways.word [.borrowStart o (mk B.nextSym) isMut line]).seq R).map K.marks = W.map (K.fates env returns) := by
    rw [Ways.map_seq, hmarks]
    simp [Kin.marks, Instr.fates]
  rw [List.append_assoc] at hh
  cases out with
  | none => exact ⟨_, _, hh.pop, hsub, .same hin rfl, hmarked⟩
  | some c =>
    have hc := (s.frame.out c rfl).2
    have hcu := s.exit c rfl
    have hend : Appends B' c [.borrowEnd o (mk B.nextSym) isMut line]
        (B'.popScope.emit c (.borrowEnd o (mk B.nextSym) isMut line)) :=
      .emit rfl _
    refine ⟨[mk B.nextSym] ++ l, _, ?_, hsub, .seq hthrough (hend.spans hc hcu) hin (.straight hc hcu hend fun x hx => ?_), ?_⟩
    · refine hh.pop.emit hc _ (fun t ht => ?_) trivial
      rcases List.mem_cons.mp ht with rfl | ht
      · exact List.mem_append_left _ ho
      · rw [List.mem_singleton.mp ht]
        exact List.mem_append_right _ List.mem_cons_self
    · rw [List.mem_singleton.mp hx]
      rfl
    · rw [Ways.map_seq, hmarked]
      simp [Kin.marks, Instr.fates]

end Marked

variable (env fn)

mutual

theorem lowerStmt_marked (st : Stmt) (cur : Nat) {B : Builder} {D : List Symbol} (hB : B.Scoped) (h : Hist K B D)
    (hcur : cur < B.blocks.length) (hu : B.Unlinked cur) (ht : ∀ x ∈ pieces st, K.Tied x)
    (hd : (lowerStmt env fn st cur B).1.Defined) :
    Marked K env fn.ret.isSome ((pieces st).filterMap Stmt.declared) (stmtWays K.owner st) D B cur (lowerStmt env fn st cur B).1
      (lowerStmt env fn st cur B).2 := by
  cases st with
  | let_ name rhs line => exact lowerLet_marked h hcur hu (ht _ List.mem_cons_self) hd
  | release var line =>
    refine lowerOwned_marked h hcur hu (.release · line) (fun s => ⟨rfl, rfl, trivial⟩) (fun s hs => ?_) (fun hno => ?_) hd _
    · simp [Kin.marks, Instr.fates, Kin.fates, hs]
    · simp [Kin.fates, Kin.mark_none hno]
  | use var line => exact lowerUse_marked h hcur hu hd _
  | overspan var line =>
    exact lowerOwned_marked h hcur hu (.overspan · line) (fun s => ⟨rfl, rfl, trivial⟩) (fun _ _ => rfl) (fun _ => rfl) hd _
  | call callee args line => exact lowerCall_marked h hcur hu hd _
  | aliasJoin name src line => exact lowerAliasJoin_marked h hcur hu (ht _ List.mem_cons_self) hd
  | borrowBlock owner binding kind body line =>
    obtain ⟨hbowner, hbroot⟩ := ht _ List.mem_cons_self
    have hfound : (B.lookup owner line).1.Defined := by
      rcases B.lookup_cases owner line with ⟨s, hs, -⟩ | ⟨d, hs⟩
      · rw [hs]
        exact lowerStmt_defined env fn _ hB hd
      · simp only [lowerStmt, hs] at hd
        rw [hs]
        exact hd
    obtain ⟨o, ho, hlook, hname⟩ := h.lookup hfound
    have hkind := (h.known o ho).kind
    rw [hname] at hkind
    simp only [lowerStmt, hlook] at hd ⊢
    by_cases hk : o.kind = .owned
    · rw [if_neg (not_not.mpr hk)] at hd ⊢
      rw [Builder.Defined, Builder.closeBorrow_diags] at hd
      rw [stmtWays, if_pos (hkind.mp hk)]
      let mk : Nat → Symbol := fun id =>
        { id := id, name := binding, kind := .borrow, defLine := line, borrowIsMut := some (kind = .mut) }
      have hcur' : ∀ ins, cur < ((B.pushScope.declare mk).1.emit cur ins).blocks.length := by
        intro ins
        rw [Builder.emit_length, Builder.declare_blocks]
        exact hcur
      have hu' := fun ins => (Appends.emit (Builder.declare_blocks B.pushScope mk) ins).unlinked hu
      have hB' := @Builder.Scoped.declare _ mk hB.push rfl
      refine .borrow mk h hcur hu ho rfl ⟨iff_of_false ?_ ?_, ?_⟩ hbroot ?_ fun l hl => ?_
      · intro hb
        cases hb
      · intro hb
        change K.owner binding = true at hb
        rw [hbowner] at hb
        cases hb
      · rw [K.unnamed, hbroot]
        rfl
      · exact lowerSeq_spans env fn body (hB'.of_eq rfl (le_refl _)) (hcur' _) (hu' _)
      · exact lowerSeq_marked body cur (hB'.of_eq rfl (le_refl _)) hl (hcur' _) (hu' _)
          (fun x hx => ht x (List.mem_cons_of_mem _ hx)) hd
    · -- the body is not lowered
      have hno : K.owner owner ≠ true := fun howner => hk (hkind.mpr howner)
      rw [if_pos hk, stmtWays, if_neg hno]
      exact .idle h hcur hu (Reports.one _ _ _ _) rfl _
  | if_ c thenBody elseBody line =>
    have hB₁ : (B.fork cur).pushScope.Scoped := (show (B.fork cur).Scoped from hB.of_eq rfl (le_refl _)).push
    have hlow₁ := lowerSeq_lowers env fn thenBody B.blocks.length hB₁
    have hB₂ := (hlow₁.pop hB rfl (le_refl _)).push
    simp only [lowerStmt] at hd ⊢
    rw [Builder.Defined, Builder.merge_diags] at hd
    have hd₁ := lowerSeq_defined env fn elseBody hB₂ hd
    obtain ⟨l₁, hl₁⟩ := Builder.fork_get_new hcur (Or.inl rfl)
    have s₁ := lowerSeq_spans env fn thenBody hB₁ (Builder.lt_of_get hl₁) (unlinked_new hl₁)
    obtain ⟨l₂, hl₂⟩ := s₁.else_ hcur
    have s₂ := lowerSeq_spans env fn elseBody hB₂ (Builder.lt_of_get hl₂) (unlinked_new hl₂)
    have hfork : Hist K (B.fork cur) D := h.of_same (fun _ hsc => Or.inr hsc) rfl (Builder.has_fork B cur)
    rw [pieces, List.filterMap_append]
    refine .branch hcur hu s₁ s₂ ?_ fun l hl => ?_
    · exact lowerSeq_marked thenBody _ hB₁ hfork.push s₁.here s₁.unlinked (fun x hx => ht x (List.mem_append_left _ hx)) hd₁
    · exact lowerSeq_marked elseBody _ hB₂ hl s₂.here s₂.unlinked (fun x hx => ht x (List.mem_append_right _ hx)) hd
  | while_ c body line =>
    have hB₁ : (B.openLoop cur).pushScope.Scoped := (show (B.openLoop cur).Scoped from hB.of_eq rfl (le_refl _)).push
    simp only [lowerStmt] at hd ⊢
    rw [Builder.Defined, Builder.linkIf_diags] at hd
    obtain ⟨l, hl⟩ := Builder.openLoop_get_new hcur (Or.inl rfl)
    have s := lowerSeq_spans env fn body hB₁ (Builder.lt_of_get hl) (unlinked_new hl)
    have hopen : Hist K (B.openLoop cur) D := h.of_same (fun _ hsc => Or.inr hsc) rfl (Builder.has_openLoop B cur)
    exact .loop hcur hu s (lowerSeq_marked body _ hB₁ hopen.push s.here s.unlinked ht hd)
  | return_ var line =>
    simp only [lowerStmt] at hd ⊢
    obtain ⟨hsyms, hmarks⟩ := returned_marked h hd
    obtain ⟨hr, -⟩ := returned_spec env fn var line B
    have hblocks : (returned env fn var line B).1.blocks = B.blocks := by
      obtain ⟨ds, hds⟩ := hr
      rw [hds]
    refine ⟨[], .leave [.return_ (returned env fn var line B).2 line], ?_, by simp, .ret hcur hu (.ret hblocks hu _), ?_⟩
    · have hafter := (h.reports hr).emit (by rw [hblocks]; exact hcur)
        (.return_ (returned env fn var line B).2 line) (fun s hs => hsyms s (by simpa [Instr.symbols] using hs)) trivial
      rw [List.append_nil]
      exact hafter.of_same (fun _ hsc => Or.inr hsc) rfl (Builder.has_link _ _ _)
    · rw [stmtWays]
      simp [hmarks]
  | subscribe source line => exact .idle h hcur hu (Reports.refl B) rfl _

theorem lowerSeq_marked (body : List Stmt) (cur : Nat) {B : Builder} {D : List Symbol} (hB : B.Scoped) (h : Hist K B D)
    (hcur : cur < B.blocks.length) (hu : B.Unlinked cur) (ht : ∀ x ∈ piecesSeq body, K.Tied x)
    (hd : (lowerSeq env fn body cur B).1.Defined) :
    Marked K env fn.ret.isSome (declares body) (seqWays K.owner body) D B cur (lowerSeq env fn body cur B).1
      (lowerSeq env fn body cur B).2 := by
  cases body with
  | nil => exact .idle h hcur hu (Reports.refl B) rfl _
  | cons st rest =>
    have htst : ∀ x ∈ pieces st, K.Tied x := fun x hx => ht x (List.mem_append_left _ hx)
    have hs₁ := lowerStmt_spans env fn st hB hcur hu
    have hB₁ := (lowerStmt_lowers env fn st cur hB).scoped hB
    rw [declares, piecesSeq, List.filterMap_append, seqWays]
    simp only [lowerSeq] at hd ⊢
    cases hout : (lowerStmt env fn st cur B).2 with
    | none =>
      simp only [hout] at hd ⊢
      have hst := lowerStmt_marked st cur hB h hcur hu htst hd
      rw [hout] at hst
      exact hst.stop
    | some c =>
      simp only [hout] at hd ⊢
      rw [hout] at hs₁
      have hst := lowerStmt_marked st cur hB h hcur hu htst (lowerSeq_defined env fn rest hB₁ hd)
      rw [hout] at hst
      have hc := (hs₁.frame.out c rfl).2
      have hcu := hs₁.exit c rfl
      refine .seq hs₁ (lowerSeq_spans env fn rest hB₁ hc hcu) hst fun l hl => ?_
      exact lowerSeq_marked rest c hB₁ hl hc hcu (fun x hx => ht x (List.mem_append_right _ hx)) hd

end

end

end OwnNet.Lang
