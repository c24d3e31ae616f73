/-
  OwnNet.Emit.Right — when emitted code does what the function's graph does: act by act, what an
  instruction does to its symbols is done to their names, and a symbol is cleaned up with the
  lines of its own resource or buffer.

  `Reads fn E σ B`: the generator knows the symbols in scope in `B`; of those among `E` it need
  not know the cleanup, that stands in a `finally`.

  Proved: `Follows.seq` and its fellows: code follows a graph part by part.
-/

import OwnNet.Emit.Runs
import OwnNet.Lang.Quiet
import OwnNet.Lang.Check

namespace OwnNet.Emit

open Lang Graph

/-! ## What the code may do to guarded names -/

/-- The names an act releases, moves or aliases. -/
def Act.hands : Act → List String
  | .closes name _ => [name]
  | .moves _ src | .joins _ src => [src]
  | _ => []

mutual

/-- The names whose cleanup stands in a `finally` of this list. -/
def Code.guarded : Code → List String
  | .scope name _ _ body => name :: guardedSeq body
  | _ => []

def guardedSeq : List Code → List String
  | [] => []
  | c :: rest => c.guarded ++ guardedSeq rest

end

mutual

def Code.returns : Code → Bool
  | .leave _ => true
  | .step _ _ => false
  | .borrow _ _ _ _ body | .loop _ body | .scope _ _ _ body => returnsSeq body
  | .cond _ thenBody elseBody _ => returnsSeq thenBody || returnsSeq elseBody

def returnsSeq : List Code → Bool
  | [] => false
  | c :: rest => c.returns || returnsSeq rest

end

mutual

/-- Control does not go on. -/
def Code.stops : Code → Bool
  | .leave _ => true
  | .borrow _ _ _ _ body => stopsSeq body
  | .cond _ thenBody elseBody _ => stopsSeq thenBody && stopsSeq elseBody
  | _ => false

def stopsSeq : List Code → Bool
  | [] => false
  | c :: rest => c.stops || stopsSeq rest

end

mutual

/-- Guarded names are in no other hands, no scope is left by a `return`, and nothing stands where control does not get. -/
def Code.tidy (E : List String) : Code → Bool
  | .step acts _ => acts.all fun a => a.hands.all fun n => !E.contains n
  | .leave _ => true
  | .borrow _ _ _ _ body | .loop _ body => tidySeq E body
  | .cond _ thenBody elseBody _ => tidySeq E thenBody && tidySeq E elseBody
  | .scope name _ _ body => tidySeq (name :: E) body && !returnsSeq body

def tidySeq (E : List String) : List Code → Bool
  | [] => true
  | c :: rest => c.tidy E && (tidySeq (c.guarded ++ E) rest && (!c.stops || rest.isEmpty))

end

mutual

theorem made_of_returns (c : Code) (h : c.returns = false) : c.Made (fun _ => True) False := by
  cases c with
  | step => trivial
  | leave => cases h
  | borrow owner binding note line body => exact madeSeq_of_returns body h
  | cond line thenBody elseBody hasElse =>
    obtain ⟨ht, he⟩ := Bool.or_eq_false_iff.mp h
    exact ⟨madeSeq_of_returns thenBody ht, madeSeq_of_returns elseBody he⟩
  | loop line body => exact madeSeq_of_returns body h
  | scope name pre fin body => exact madeSeq_of_returns body h

theorem madeSeq_of_returns (code : List Code) (h : returnsSeq code = false) : MadeSeq (fun _ => True) False code := by
  cases code with
  | nil => trivial
  | cons c rest =>
    obtain ⟨hc, hrest⟩ := Bool.or_eq_false_iff.mp h
    exact ⟨made_of_returns c hc, madeSeq_of_returns rest hrest⟩

end

mutual

theorem returns_of_stops (c : Code) (h : c.stops = true) : c.returns = true := by
  cases c with
  | leave => rfl
  | step => cases h
  | borrow owner binding note line body => exact returnsSeq_of_stops body h
  | cond line thenBody elseBody hasElse =>
    obtain ⟨ht, -⟩ := Bool.and_eq_true_iff.mp h
    exact Bool.or_eq_true_iff.mpr (Or.inl (returnsSeq_of_stops thenBody ht))
  | loop => cases h
  | scope => cases h

theorem returnsSeq_of_stops (code : List Code) (h : stopsSeq code = true) : returnsSeq code = true := by
  cases code with
  | nil => cases h
  | cons c rest =>
    rcases Bool.or_eq_true_iff.mp h with hc | hrest
    · exact Bool.or_eq_true_iff.mpr (Or.inl (returns_of_stops c hc))
    · exact Bool.or_eq_true_iff.mpr (Or.inr (returnsSeq_of_stops rest hrest))

end

theorem waysSeq_append (code more : List Code) : waysSeq (code ++ more) = (waysSeq code).seq (waysSeq more) := by
  induction code with
  | nil => exact (Ways.nil_seq _).symm
  | cons c rest ih => rw [List.cons_append, waysSeq_cons, waysSeq_cons, ih, Ways.seq_assoc]

theorem waysSeq_one (c : Code) : waysSeq [c] = c.ways := Ways.seq_nil _

theorem guardedSeq_one (c : Code) : guardedSeq [c] = c.guarded := List.append_nil _

theorem guardedSeq_append (code more : List Code) : guardedSeq (code ++ more) = guardedSeq code ++ guardedSeq more := by
  induction code with
  | nil => rfl
  | cons c rest ih => rw [List.cons_append, guardedSeq, guardedSeq, ih, List.append_assoc]

theorem stopsSeq_append (code more : List Code) : stopsSeq (code ++ more) = (stopsSeq code || stopsSeq more) := by
  induction code with
  | nil => rfl
  | cons c rest ih => rw [List.cons_append, stopsSeq, stopsSeq, ih, Bool.or_assoc]

/-! ## The acts of an instruction -/

section

variable (mod : Module) (fn : String)

/-- The lines that clean up after a symbol: the release of its resource, or of the buffer it was first declared as. -/
inductive Cleans (s : Symbol) : List String → Prop
  | resource {type : String} : s.buffer = none → s.typeName = some type → Cleans s [releaseStmt mod s.name type]
  | buffer {info : BufferInfo} {first : String} {line col : Int} : s.buffer = some info →
      s.origin = some s!"{first}#{line}:{col}" → Cleans s (bufferLines fn first info).2

inductive Right : Instr → Act → Prop
  | acquire {s : Symbol} {resource : String} {args : List Expr} {line : Int} :
      Right (.acquire s resource line) (.opens s.name [acquireLine mod s.name resource args])
  | acquireBuffer {s : Symbol} {info : BufferInfo} {line : Int} :
      Right (.acquireBuffer s info line) (.opens s.name (bufferLines fn s.name info).1)
  | moveInto {dst src : Symbol} {line : Int} : Right (.moveInto dst src line) (.moves dst.name src.name)
  | release {s : Symbol} {line : Int} {lines : List String} :
    Cleans mod fn s lines → Right (.release s line) (.closes s.name lines)
  | use {s : Symbol} {line : Int} : Right (.use s line) (.uses s.name)
  | overspan {s : Symbol} {line : Int} : Right (.overspan s line) (.views s.name)
  | invoke {callee : String} {args : List (Option Symbol × Effect)} {texts : List String} {line : Int} :
      List.Forall₂ (fun a text => ∀ s ∈ a.1, text = s.name) args texts → Right (.invoke callee args line) (.calls callee texts)
  | borrowStart {owner binding : Symbol} {isMut : Bool} {line : Int} :
      Right (.borrowStart owner binding isMut line) (.lends owner.name binding.name)
  | borrowEnd {owner binding : Symbol} {isMut : Bool} {line : Int} :
      Right (.borrowEnd owner binding isMut line) (.regains owner.name binding.name)
  | aliasJoin {handle src : Symbol} {line : Int} : Right (.aliasJoin handle src line) (.joins handle.name src.name)
  | return_ {r : Option Symbol} {var : Option String} {line : Int} : (∀ s ∈ r, var = some s.name) →
      Right (.return_ r line) (.returns var)

end

/-! ## What the generator knows -/

namespace Names

/-- Of this name the same is known. -/
def Agrees (σ σ' : Names) (n : String) : Prop := σ'.resource n = σ.resource n ∧ σ'.bufferCleanup.get? n = σ.bufferCleanup.get? n

theorem Agrees.refl (σ : Names) (n : String) : σ.Agrees σ n := ⟨rfl, rfl⟩

theorem Agrees.trans {σ σ₁ σ₂ : Names} {n : String} (h : σ.Agrees σ₁ n) (h' : σ₁.Agrees σ₂ n) : σ.Agrees σ₂ n :=
  ⟨h'.1.trans h.1, h'.2.trans h.2⟩

variable (σ : Names) (a : String)

theorem resource_own (r n : String) : (σ.own a r).resource n = if n = a then r else σ.resource n := by
  simp only [own, resource, Dict.get?_set]
  split <;> rfl

theorem agrees_own (r : String) {n : String} (h : n ≠ a) : σ.Agrees (σ.own a r) n := ⟨by rw [resource_own, if_neg h], rfl⟩

theorem cleanup_forget (n : String) : (σ.forget a).bufferCleanup.get? n = if n = a then none else σ.bufferCleanup.get? n :=
  Dict.get?_erase _ _ _

theorem agrees_forget {n : String} (h : n ≠ a) : σ.Agrees (σ.forget a) n := ⟨rfl, by rw [cleanup_forget, if_neg h]⟩

theorem resource_carry (src n : String) : (σ.carry a src).resource n = σ.resource n := by
  unfold carry
  split <;> rfl

theorem cleanup_carry (src n : String) : (σ.carry a src).bufferCleanup.get? n =
    if n = a then (σ.bufferCleanup.get? src).or (σ.bufferCleanup.get? a) else σ.bufferCleanup.get? n := by
  unfold carry
  split
  next lines h => simp only [Dict.get?_set, h, Option.some_or]
  next h =>
    rw [h, Option.none_or]
    split
    next he => rw [he]
    next => rfl

theorem agrees_carry (src : String) {n : String} (h : n ≠ a) : σ.Agrees (σ.carry a src) n :=
  ⟨resource_carry σ a src n, by rw [cleanup_carry, if_neg h]⟩

end Names

section

variable {mod : Module} {fn : String} {E E' : List String} {σ σ' : Names} {B B' : Builder}

/-- What the generator knows of a symbol's name is so, if the cleanup is its to emit. -/
structure Knows (fn : String) (E : List String) (σ : Names) (s : Symbol) : Prop where
  typed : s.name ∉ E → s.kind = .owned → s.buffer = none →
    s.typeName = some (σ.resource s.name) ∧ σ.bufferCleanup.get? s.name = none
  buffered : s.name ∉ E → ∀ info, s.buffer = some info → ∃ (first : String) (line col : Int),
    s.origin = some s!"{first}#{line}:{col}" ∧ σ.bufferCleanup.get? s.name = some (bufferLines fn first info).2

theorem Knows.of_not_owned {s : Symbol} (hk : s.kind ≠ .owned) (hb : s.buffer = none) : Knows fn E σ s where
  typed _ h := absurd h hk
  buffered _ info h := by
    rw [hb] at h
    cases h

theorem Knows.of_guarded {s : Symbol} (h : s.name ∈ E) : Knows fn E σ s := ⟨fun hn => absurd h hn, fun hn => absurd h hn⟩

theorem Knows.agree {s : Symbol} (h : Knows fn E σ s) (ha : σ.Agrees σ' s.name) : Knows fn E σ' s where
  typed hE hk hb := by
    rw [ha.1, ha.2]
    exact h.typed hE hk hb
  buffered hE info hb := by
    rw [ha.2]
    exact h.buffered hE info hb

theorem Knows.mono {s : Symbol} (h : Knows fn E σ s) (hE : E ⊆ E') : Knows fn E' σ s :=
  ⟨fun hn => h.typed fun hin => hn (hE hin), fun hn => h.buffered fun hin => hn (hE hin)⟩

/-- An owner whose cleanup is the generator's to emit gets the lines that clean up after it. -/
theorem Knows.cleans {s : Symbol} (h : Knows fn E σ s) (hk : s.kind = .owned) (hE : s.name ∉ E) :
    Cleans mod fn s (releaseLines mod s.name σ) := by
  unfold releaseLines
  cases hb : s.buffer with
  | none =>
    obtain ⟨htype, hno⟩ := h.typed hE hk hb
    rw [hno]
    exact .resource hb htype
  | some info =>
    obtain ⟨first, line, col, horigin, hlines⟩ := h.buffered hE info hb
    rw [hlines]
    exact .buffer hb horigin

structure Reads (fn : String) (E : List String) (σ : Names) (B : Builder) : Prop where
  known : ∀ n s, B.visible n = some s → s.name = n ∧ Knows fn E σ s
  guarded : ∀ n ∈ E, (B.visible n).isSome = true

/-- What was in scope is, and the generator knows the same of it. -/
def Keeps (B : Builder) (σ : Names) (B' : Builder) (σ' : Names) : Prop :=
  ∀ n s, B.visible n = some s → B'.visible n = some s ∧ σ.Agrees σ' n

theorem Keeps.trans {B₁ : Builder} {σ₁ : Names} (h : Keeps B σ B₁ σ₁) (h' : Keeps B₁ σ₁ B' σ') : Keeps B σ B' σ' := by
  intro n s hs
  obtain ⟨hs₁, ha⟩ := h n s hs
  obtain ⟨hs', ha'⟩ := h' n s hs₁
  exact ⟨hs', ha.trans ha'⟩

theorem Keeps.of_visible (h : ∀ n, B'.visible n = B.visible n) (ha : ∀ n s, B.visible n = some s → σ.Agrees σ' n) :
    Keeps B σ B' σ' :=
  fun n s hs => ⟨(h n).trans hs, ha n s hs⟩

theorem Keeps.of_scopes (h : B'.scopes = B.scopes) : Keeps B σ B' σ :=
  .of_visible (fun n => B.visible_congr h n) fun n _ _ => .refl σ n

namespace Reads

theorem congr (h : Reads fn E σ B) (hE : ∀ n, n ∈ E' ↔ n ∈ E) : Reads fn E' σ B where
  known n s hs := ⟨(h.known n s hs).1, (h.known n s hs).2.mono fun n hn => (hE n).mpr hn⟩
  guarded n hn := h.guarded n ((hE n).mp hn)

/-- The same names are in scope, and of these the same is known. -/
theorem after (h : Reads fn E σ B) (hv : ∀ n, B'.visible n = B.visible n) (ha : ∀ n s, B.visible n = some s → σ.Agrees σ' n) :
    Reads fn E σ' B' where
  known n s hs := by
    rw [hv] at hs
    obtain ⟨hname, hk⟩ := h.known n s hs
    exact ⟨hname, hk.agree (by rw [hname]; exact ha n s hs)⟩
  guarded n hn := by
    rw [hv]
    exact h.guarded n hn

theorem of_scopes (h : Reads fn E σ B) (hs : B'.scopes = B.scopes) : Reads fn E σ B' :=
  h.after (fun n => B.visible_congr hs n) fun n _ _ => .refl σ n

theorem push (h : Reads fn E σ B) : Reads fn E σ B.pushScope := h.after (fun n => B.visible_pushScope n) fun n _ _ => .refl σ n

variable {mk : Nat → Symbol}

/-- A declaration, of a symbol that may be guarded from now on. -/
theorem declare (h : Reads fn E σ B) (hq : (B.declare mk).1.Quiet) (hE : E ⊆ E') (hE' : ∀ n ∈ E', n = (mk B.nextSym).name ∨ n ∈ E)
    (ha : ∀ n, n ≠ (mk B.nextSym).name → σ.Agrees σ' n) (hnew : Knows fn E' σ' (mk B.nextSym)) :
    Reads fn E' σ' (B.declare mk).1 ∧ Keeps B σ (B.declare mk).1 σ' := by
  have hfresh := hq.declare.2
  have hne : ∀ n s, B.visible n = some s → n ≠ (mk B.nextSym).name := by
    rintro n s hs rfl
    rw [hfresh] at hs
    cases hs
  refine ⟨⟨fun n s hs => ?_, fun n hn => ?_⟩, fun n s hs => ⟨hq.visible_declare hs, ha n (hne n s hs)⟩⟩
  · rw [Builder.visible_declare] at hs
    split at hs
    next hname =>
      cases hs
      exact ⟨hname, hnew⟩
    next hname =>
      obtain ⟨heq, hk⟩ := h.known n s hs
      refine ⟨heq, (hk.mono hE).agree ?_⟩
      rw [heq]
      exact ha n (hne n s hs)
  · rw [Builder.visible_declare]
    rcases hE' n hn with rfl | hn
    · rw [if_pos rfl]
      rfl
    · split
      · rfl
      · exact h.guarded n hn

end Reads

end

/-! ## Code that follows the graph -/

/-- Code, emitted with `σ` known, follows what was put into the graph from block `cur` of `B` on. -/
structure Follows (mod : Module) (fn : String) (E : List String) (σ : Names) (B : Builder) (cur : Nat) (code : List Code)
    (σ' : Names) (B' : Builder) (out : Option Nat) : Prop where
  spans : Spans B cur B' out
  alike : ∃ R, Charts B cur B' out R ∧ R.Alike (Right mod fn) (waysSeq code)
  reads : Reads fn (guardedSeq code ++ E) σ' B'
  keeps : Keeps B σ B' σ'
  stops : out = none → stopsSeq code = true

/-- `name` has been opened by `ins`, for the symbol `sym`, and is guarded from now on. -/
structure Opened (mod : Module) (fn : String) (E : List String) (σ : Names) (B : Builder) (cur : Nat) (ins : Instr) (σ₀ : Names)
    (B₀ : Builder)
    (name : String) (sym : Symbol) (pre fin : List String) : Prop where
  appends : Appends B cur [ins] B₀
  opens : Right mod fn ins (.opens name pre)
  closes : ∀ line, Right mod fn (.release sym line) (.closes name fin)
  visible : B₀.visible name = some sym
  reads : Reads fn (name :: E) σ₀ B₀
  keeps : Keeps B σ B₀ σ₀

namespace Follows

variable {mod : Module} {fn : String} {E : List String} {σ σ' σ₁ σ₂ : Names} {B B' B₁ B₂ : Builder}
    {cur c : Nat} {out t e : Option Nat}
  {code code₁ code₂ : List Code}

theorem nil (hcur : cur < B.blocks.length) (hu : B.Unlinked cur) (h : Reads fn E σ B) :
    Follows mod fn E σ B cur [] σ B (some cur) where
  spans := (Appends.nothing rfl).spans hcur hu
  alike := ⟨.word [], .straight hcur hu (.nothing rfl) fun ins hins => absurd hins List.not_mem_nil, .word .nil⟩
  reads := h
  keeps := .of_scopes rfl
  stops hout := by cases hout

/-- A step: the instructions of one block. -/
theorem step (hcur : cur < B.blocks.length) (hu : B.Unlinked cur) {l : List Instr} {acts : List Act} (lines : List String)
    (ha : Appends B cur l B') (hret : ∀ ins ∈ l, ins.isReturn = false) (hr : List.Forall₂ (Right mod fn) l acts)
    (hreads : Reads fn E σ' B') (hkeeps : Keeps B σ B' σ') : Follows mod fn E σ B cur [.step acts lines] σ' B' (some cur) where
  spans := ha.spans hcur hu
  alike := ⟨.word l, .straight hcur hu ha hret, by simpa using .word hr⟩
  reads := hreads
  keeps := hkeeps
  stops hout := by cases hout

theorem leave (hcur : cur < B.blocks.length) (hu : B.Unlinked cur) {r : Option Symbol} {var : Option String} {line : Int}
    (ha : Appends B cur [.return_ r line] B') (hr : ∀ s ∈ r, var = some s.name) (hs : Spans B cur B' none) (h : Reads fn E σ B)
    (hscopes : B'.scopes = B.scopes) : Follows mod fn E σ B cur [.leave var] σ B' none where
  spans := hs
  alike := ⟨.leave [.return_ r line], .ret hcur hu ha, by simpa using .leave (.cons (.return_ hr) .nil)⟩
  reads := h.of_scopes hscopes
  keeps := .of_scopes hscopes
  stops _ := rfl

theorem seq (h₁ : Follows mod fn E σ B cur code₁ σ₁ B₁ (some c))
    (h₂ : Follows mod fn (guardedSeq code₁ ++ E) σ₁ B₁ c code₂ σ₂ B₂ out) :
    Follows mod fn E σ B cur (code₁ ++ code₂) σ₂ B₂ out where
  spans := h₁.spans.trans h₂.spans
  alike := by
    obtain ⟨R, hR, hal⟩ := h₁.alike
    obtain ⟨S, hS, hal'⟩ := h₂.alike
    exact ⟨R.seq S, .seq h₁.spans h₂.spans hR hS, by rw [waysSeq_append]; exact hal.seq hal'⟩
  reads := h₂.reads.congr fun n => by
    simp only [guardedSeq_append, List.mem_append]
    tauto
  keeps := h₁.keeps.trans h₂.keeps
  stops hout := by rw [stopsSeq_append, h₂.stops hout, Bool.or_true]

theorem branch (hcur : cur < B.blocks.length) (hu : B.Unlinked cur) (h : Reads fn E σ B) (hB₁ : B₁.popScope.scopes = B.scopes)
    (hB₂ : B₂.popScope.scopes = B.scopes) (hs : Spans B cur (B₂.popScope.merge t e).1 (B₂.popScope.merge t e).2)
    (h₁ : Follows mod fn E σ (B.fork cur).pushScope B.blocks.length code₁ σ₁ B₁ t)
    (h₂ : Follows mod fn E σ₁ B₁.popScope.pushScope (B.blocks.length + 1) code₂ σ₂ B₂ e) (line : String) (hasElse : Bool) :
    Follows mod fn E σ B cur [.cond line code₁ code₂ hasElse] σ₂ (B₂.popScope.merge t e).1 (B₂.popScope.merge t e).2 := by
  have hmerge : (B₂.popScope.merge t e).1.scopes = B.scopes := by rw [Builder.merge_scopes, hB₂]
  have hagree : ∀ n s, B.visible n = some s → σ.Agrees σ₂ n := by
    intro n s hn
    have hin : (B.fork cur).pushScope.visible n = some s := by
      rw [Builder.visible_pushScope, Builder.visible_congr (B.fork_scopes cur), hn]
    have hin' : B₁.popScope.pushScope.visible n = some s := by
      rw [Builder.visible_pushScope, Builder.visible_congr hB₁, hn]
    exact (h₁.keeps n s hin).2.trans (h₂.keeps n s hin').2
  obtain ⟨R, hR, hal⟩ := h₁.alike
  obtain ⟨S, hS, hal'⟩ := h₂.alike
  refine ⟨hs, ⟨R.choice S, .branch hcur hu h₁.spans h₂.spans hR hS, ?_⟩, h.after (fun n => Builder.visible_congr hmerge n) hagree,
    .of_visible (fun n => Builder.visible_congr hmerge n) hagree, fun hout => ?_⟩
  · rw [waysSeq_one, ways_cond]
    exact hal.choice hal'
  · have hte : t = none ∧ e = none := by
      unfold Builder.merge at hout
      by_contra hne
      rw [if_neg hne] at hout
      cases hout
    simp [stopsSeq, Code.stops, h₁.stops hte.1, h₂.stops hte.2]

theorem loop (hcur : cur < B.blocks.length) (hu : B.Unlinked cur) (h : Reads fn E σ B) (hB' : B'.popScope.scopes = B.scopes)
    (hs : Spans B cur (B'.popScope.linkIf out [B.blocks.length]) (some (B.blocks.length + 2)))
    (hbody : Follows mod fn E σ (B.openLoop cur).pushScope (B.blocks.length + 1) code σ' B' out) (line : String) :
    Follows mod fn E σ B cur [.loop line code] σ' (B'.popScope.linkIf out [B.blocks.length]) (some (B.blocks.length + 2)) := by
  have hlink : (B'.popScope.linkIf out [B.blocks.length]).scopes = B.scopes := by rw [Builder.linkIf_scopes, hB']
  have hagree : ∀ n s, B.visible n = some s → σ.Agrees σ' n := by
    intro n s hn
    refine (hbody.keeps n s ?_).2
    rw [Builder.visible_pushScope, Builder.visible_congr (B.openLoop_scopes cur), hn]
  obtain ⟨R, hR, hal⟩ := hbody.alike
  refine ⟨hs, ⟨R.loop, .loop hcur hu hbody.spans hR, ?_⟩, h.after (fun n => Builder.visible_congr hlink n) hagree,
    .of_visible (fun n => Builder.visible_congr hlink n) hagree, fun hout => by cases hout⟩
  rw [waysSeq_one, ways_loop]
  exact hal.loop

/-- A borrow block, its binding declared in a scope of its own. -/
theorem borrow (mk : Nat → Symbol) (hcur : cur < B.blocks.length) (hu : B.Unlinked cur) (h : Reads fn E σ B) {o : Symbol}
    {isMut : Bool} {line : Int}
    (hq : (B.pushScope.declare mk).1.Quiet) (hB' : B'.scopes.tail = B.scopes)
      (hs : Spans B cur (B'.closeBorrow o (mk B.nextSym) isMut line out) out)
    (hbody : Follows mod fn E σ ((B.pushScope.declare mk).1.emit cur (.borrowStart o (mk B.nextSym) isMut line))
      cur code σ' B' out)
    (note decl : String) :
    Follows mod fn E σ B cur [.borrow o.name (mk B.nextSym).name note decl code] σ'
      (B'.closeBorrow o (mk B.nextSym) isMut line out)
      out := by
  have hclose : (B'.closeBorrow o (mk B.nextSym) isMut line out).scopes = B.scopes := by rw [Builder.closeBorrow_scopes, hB']
  have hagree : ∀ n s, B.visible n = some s → σ.Agrees σ' n := by
    intro n s hn
    refine (hbody.keeps n s ?_).2
    exact hq.visible_declare (by rw [Builder.visible_pushScope, hn])
  have happ : Appends B cur [.borrowStart o (mk B.nextSym) isMut line]
      ((B.pushScope.declare mk).1.emit cur (.borrowStart o (mk B.nextSym) isMut line)) :=
    .emit (Builder.declare_blocks _ _) _
  obtain ⟨R, hR, hal⟩ := hbody.alike
  have hin : Charts B cur B' out ((Ways.word [.borrowStart o (mk B.nextSym) isMut line]).seq R) := by
    refine .seq (happ.spans hcur hu) hbody.spans (.straight hcur hu happ fun x hx => ?_) hR
    rw [List.mem_singleton.mp hx]
    rfl
  have hright : ((Ways.word [.borrowStart o (mk B.nextSym) isMut line]).seq R).Alike (Right mod fn)
      ((Ways.word [.lends o.name (mk B.nextSym).name]).seq (waysSeq code)) :=
    .seq (.word (.cons .borrowStart .nil)) hal
  refine ⟨hs, ?_, h.after (fun n => Builder.visible_congr hclose n) hagree,
    .of_visible (fun n => Builder.visible_congr hclose n) hagree,
    fun hout => ?_⟩
  · rw [waysSeq_one, ways_borrow, ← Ways.seq_assoc]
    cases hout : out with
    | none =>
      subst hout
      -- the end of the block is not reached
      have hnone : ((Ways.word [.lends o.name (mk B.nextSym).name]).seq (waysSeq code)).falls = 0 := by
        refine Set.eq_empty_iff_forall_notMem.mpr fun v hv => ?_
        obtain ⟨u, hu, -⟩ := hright.falls.2 v hv
        rw [hin.never rfl] at hu
        exact Language.notMem_zero u hu
      rw [Ways.seq_of_left hnone]
      exact ⟨_, .same hin rfl, hright⟩
    | some d =>
      subst hout
      have hd := (hbody.spans.frame.out d rfl).2
      have hdu := hbody.spans.exit d rfl
      have hend : Appends B' d [.borrowEnd o (mk B.nextSym) isMut line]
          (B'.popScope.emit d (.borrowEnd o (mk B.nextSym) isMut line)) :=
        .emit rfl _
      refine ⟨_, .seq ((happ.spans hcur hu).trans hbody.spans) (hend.spans hd hdu) hin (.straight hd hdu hend fun x hx => ?_),
        hright.seq (.word (.cons .borrowEnd .nil))⟩
      rw [List.mem_singleton.mp hx]
      rfl
  · simp [stopsSeq, Code.stops, hbody.stops hout]

/-- A scope: opened, its body nothing leaves, and closed. -/
theorem scope {B₀ : Builder} {σ₀ : Names} {name : String} {pre fin : List String} {sym : Symbol} {ins : Instr} {rline : Int}
    (hcur : cur < B.blocks.length) (hu : B.Unlinked cur) (ho : Opened mod fn E σ B cur ins σ₀ B₀ name sym pre fin)
    (hbody : Follows mod fn (name :: E) σ₀ B₀ cur code σ₁ B₁ (some c)) (hstay : returnsSeq code = false) :
    Follows mod fn E σ B cur [.scope name pre fin code] σ₁ (B₁.emit c (.release sym rline)) (some c) := by
  obtain ⟨ha, hi, hr, -, -, hkeeps⟩ := ho
  have hr := hr rline
  have hnoret : ∀ {x : Instr} {act : Act}, Right mod fn x act → (∀ var, act ≠ .returns var) → x.isReturn = false := by
    intro x act hx hne
    cases hx with
    | return_ => exact absurd rfl (hne _)
    | _ => rfl
  have hc := (hbody.spans.frame.out c rfl).2
  have hcu := hbody.spans.exit c rfl
  have hend : Appends B₁ c [.release sym rline] (B₁.emit c (.release sym rline)) := .emit rfl _
  obtain ⟨R, hR, hal⟩ := hbody.alike
  refine ⟨((ha.spans hcur hu).trans hbody.spans).trans (hend.spans hc hcu), ?_, ?_, ?_, fun hout => by cases hout⟩
  · rw [waysSeq_one, ways_scope (waysSeq_stay code (madeSeq_of_returns code hstay))]
    refine ⟨_, .seq (ha.spans hcur hu) (hbody.spans.trans (hend.spans hc hcu)) (.straight hcur hu ha fun x hx => ?_)
      (.seq hbody.spans (hend.spans hc hcu) hR (.straight hc hcu hend fun x hx => ?_)),
      .seq (.word (.cons hi .nil)) (hal.seq (.word (.cons hr .nil)))⟩
    · rw [List.mem_singleton.mp hx]
      exact hnoret hi fun _ h => by cases h
    · rw [List.mem_singleton.mp hx]
      rfl
  · have hreads : Reads fn (guardedSeq [.scope name pre fin code] ++ E) σ₁ B₁ := hbody.reads.congr fun n => by
      simp only [guardedSeq, Code.guarded, List.append_nil, List.cons_append, List.mem_cons, List.mem_append]
      tauto
    exact hreads.of_scopes rfl
  · exact (hkeeps.trans hbody.keeps).trans (.of_scopes rfl)

end Follows

end OwnNet.Emit
