/-
  OwnNet.Lang.Grammar — OwnLang's grammar: the productions at the head of the parser's source, each
  with the tree its words are read as.

  The grammar leaves open what `cond` is: any tokens whose parentheses match. What it says of a buffer
  intent's arguments is the `Rules`' part. A number is one that `int` reads.

  Proved: `module_mono`: with fewer liberties for a buffer's arguments there are fewer modules.
-/

import OwnNet.Lang.Parser

namespace OwnNet.Lang

open Parsing (Grammar)
open Parsing.Grammar (token number optional many listed star sat bind_mono star_mono many_mono listed_mono optional_mono)

namespace Rule

/-- Tokens whose parentheses match. -/
inductive Balanced : List Token → Prop
  | nil : Balanced []
  | plain {t : Token} {w : List Token} : t.kind ≠ .lparen → t.kind ≠ .rparen → t.kind ≠ .eof → Balanced w → Balanced (t :: w)
  | group {l r : Token} {w v : List Token} :
      l.kind = .lparen → Balanced w → r.kind = .rparen → Balanced v → Balanced (l :: w ++ r :: v)

def cond : Grammar Token String := fun w o => Balanced w ∧ o = some (" ".intercalate (w.map Token.text))

/-- An identifier with this text. -/
def word (text : String) : Grammar Token Token := sat fun t => t.kind = .ident ∧ t.text = text

/-- `"(" cond ")"` -/
def condition : Grammar Token String := do
  let _ ← token .lparen
  let text ← cond
  let _ ← token .rparen
  return text

def identAfter (k : Tok) : Grammar Token (Option String) := optional k (do return some (← token .ident).text) none

/-! ## Declarations -/

/-- `"lifetime" IDENT ("<" IDENT)? ";"` -/
def lifetime : Grammar Token LifetimeDecl := do
  let kw ← token .lifetime
  let name ← token .ident
  let longer ← identAfter .lt
  let _ ← token .semi
  return ⟨name.text, longer, kw.line⟩

/-- `INT | IDENT` -/
def atom (u : Ucd) : Grammar Token Expr :=
  (do
    let n ← number fun t : Token => u.int t.text
    return .intLit n.2 n.1.line) ⊔
  (do
    let t ← token .ident
    return .varRef t.text t.line)

/-- `atom`, as a policy's value. -/
def policyValue (u : Ucd) : Grammar Token PolicyValue :=
  (do
    let n ← number fun t : Token => u.int t.text
    return .int n.2) ⊔
  (do
    let word ← token .ident
    return policyWord word.text)

/-- `IDENT "=" atom ";"` -/
def setting (u : Ucd) (s : Settings) : Grammar Token Settings := do
  let key ← token .ident
  let _ ← token .eq
  let value ← policyValue u
  let _ ← token .semi
  return s.set key.text value

/-- `"policy" IDENT "{" (IDENT "=" atom ";")* "}"` -/
def policy (u : Ucd) : Grammar Token Policy := do
  let kw ← token .policy
  let name ← token .ident
  let _ ← token .lbrace
  let s ← star (setting u) {}
  let _ ← token .rbrace
  return ⟨name.text, s.entries, kw.line, dupsOf s.seen⟩

/-- `("acquire" | "release") IDENT | ("emit_type" | ...) STRING | "kind" STRING` -/
def rmember (d : ResourceDecl) : Grammar Token ResourceDecl :=
  (token .acquire >>= fun _ => do return d.addMember .acquire (← token .ident)) ⊔
  ((token .release >>= fun _ => do return d.addMember .release (← token .ident)) ⊔
  ((do
    let field ← sat fun t : Token => t.kind ∈ emitToks
    return d.setEmit field.kind (← token .string).text) ⊔
  (word "kind" >>= fun _ => do return { d with kind := some (← token .string).text })))

/-- `"resource" IDENT "{" rmember* "}"` -/
def resource : Grammar Token ResourceDecl := do
  let kw ← token .resource
  let name ← token .ident
  let _ ← token .lbrace
  let d ← star rmember { name := name.text, members := [], line := kw.line }
  let _ ← token .rbrace
  return d

/-- `"&" "mut"? IDENT | IDENT` -/
def type : Grammar Token TypeRef :=
  (do
    let amp ← token .amp
    let mutable ← optional .mut_ (pure true) false
    let nm ← token .ident
    return ⟨nm.text, true, mutable, amp.line⟩) ⊔
  (do
    let nm ← token .ident
    return ⟨nm.text, false, false, nm.line⟩)

/-- `("->" type)?` -/
def ret : Grammar Token (Option TypeRef) := optional .arrow (do return some (← type)) none

/-- `("borrow" | "borrow_mut" | "consume")? IDENT` -/
def eparam : Grammar Token EffectParam :=
  (do
    let kw ← sat fun t : Token => t.kind ∈ [Tok.borrow, .borrowMut, .consume]
    let ty ← token .ident
    return ⟨(effectTok kw.kind).getD .plain, ty.text, kw.line⟩) ⊔
  (do
    let ty ← token .ident
    return ⟨.plain, ty.text, ty.line⟩)

/-- `"extern" "fn" IDENT "(" eparams? ")" ("->" type)? ";"` -/
def extern_ : Grammar Token ExternDecl := do
  let kw ← token .extern_
  let _ ← token .fn
  let name ← token .ident
  let _ ← token .lparen
  let params ← listed .comma (fun ps => do return ps ++ [← eparam]) []
  let _ ← token .rparen
  let ret ← ret
  let _ ← token .semi
  return ⟨name.text, params, ret, kw.line⟩

/-- `IDENT ":" type ("lifetime" IDENT)?` -/
def param : Grammar Token ParamDecl := do
  let nm ← token .ident
  let _ ← token .colon
  let ty ← type
  let lifetime ← identAfter .lifetime
  return { name := nm.text, type := ty, line := nm.line, lifetime := lifetime }

/-! ## Statements -/

/-- `args?` -/
def args (u : Ucd) : Grammar Token (List Expr) := listed .comma (fun as => do return as ++ [← atom u]) []

/-- `IDENT "=" atom | atom`, the second where the rules admit a size. -/
def barg (u : Ucd) (r : Rules) (s : BufferArgs) : Grammar Token BufferArgs :=
  (do
    let key ← sat fun t : Token => t.kind ∈ r.names
    let _ ← token .eq
    return s.named key.text (← atom u)) ⊔
  (atom u >>= fun a => Parsing.Grammar.when (s.admits r) (s.sized a))

/-- `IDENT "." IDENT "(" bargs? ")"` -/
def bufferintent (u : Ucd) (r : Rules) : Grammar Token Expr := do
  let ns ← token .ident
  let _ ← token .dot
  let mode ← token .ident
  let _ ← token .lparen
  let s ← listed .comma (barg u r) {}
  let _ ← token .rparen
  return .buffer mode.text s.size s.options ns.line ns.text ns.col (dupsOf s.seen)

/-- `"acquire" IDENT "(" args? ")" | "move" IDENT | bufferintent | IDENT | INT` -/
def rhs (u : Ucd) (r : Rules) : Grammar Token Expr :=
  (do
    let kw ← token .acquire
    let res ← token .ident
    let _ ← token .lparen
    let args ← args u
    let _ ← token .rparen
    return .acquire res.text args kw.line) ⊔
  ((do
    let kw ← token .move
    let v ← token .ident
    return .move v.text kw.line) ⊔
  (bufferintent u r ⊔ atom u))

/-- `"let" IDENT "=" rhs ";"` -/
def let_ (u : Ucd) (r : Rules) : Grammar Token Stmt := do
  let kw ← token .let_
  let nm ← token .ident
  let _ ← token .eq
  let rhs ← rhs u r
  let _ ← token .semi
  return .let_ nm.text rhs kw.line

/-- `"release" IDENT ";"`, and the same with `use` and `overspan`. -/
def named (k : Tok) (mk : String → Int → Stmt) : Grammar Token Stmt := do
  let kw ← token k
  let v ← token .ident
  let _ ← token .semi
  return mk v.text kw.line

/-- `IDENT "(" args? ")" ";"` -/
def call (u : Ucd) : Grammar Token Stmt := do
  let nm ← token .ident
  let _ ← token .lparen
  let args ← args u
  let _ ← token .rparen
  let _ ← token .semi
  return .call nm.text args nm.line

/-- `"return" IDENT? ";"` -/
def return_ : Grammar Token Stmt := do
  let kw ← token .return_
  let var ← (do return some (← token .ident).text) ⊔ pure none
  let _ ← token .semi
  return .return_ var kw.line

/-- `"subscribe" "self" "to" IDENT ";"` -/
def subscribe : Grammar Token Stmt := do
  let kw ← token .subscribe
  let _ ← word "self"
  let _ ← word "to"
  let source ← token .ident
  let _ ← token .semi
  return .subscribe source.text kw.line

section Nested

variable (stmt : Grammar Token Stmt)

/-- `"{" stmt* "}"` -/
def block : Grammar Token (List Stmt) := do
  let _ ← token .lbrace
  let stmts ← many stmt
  let _ ← token .rbrace
  return stmts

/-- `("borrow" | "borrow_mut") IDENT "as" IDENT block` -/
def borrow : Grammar Token Stmt := do
  let kw ← (do return (← token .borrowMut, BorrowKind.mut)) ⊔ (do return (← token .borrow, BorrowKind.shared))
  let owner ← token .ident
  let _ ← token .as_
  let binding ← token .ident
  let body ← block stmt
  return .borrowBlock owner.text binding.text kw.2 body kw.1.line

/-- `"if" "(" cond ")" block ("else" block)?` -/
def if_ : Grammar Token Stmt := do
  let kw ← token .if_
  let text ← condition
  let thenBody ← block stmt
  let elseBody ← optional .else_ (block stmt) []
  return .if_ text thenBody elseBody kw.line

/-- `"while" "(" cond ")" block` -/
def while_ : Grammar Token Stmt := do
  let kw ← token .while_
  let text ← condition
  let body ← block stmt
  return .while_ text body kw.line

end Nested

/-- `let | release | use | overspan | borrow | if | while | return | subscribe | call`, over the statements within. -/
def stmtOf (u : Ucd) (r : Rules) (stmt : Grammar Token Stmt) : Grammar Token Stmt :=
  let_ u r ⊔ (named .release .release ⊔ (named .use .use ⊔ (named .overspan .overspan ⊔ (borrow stmt ⊔
    (if_ stmt ⊔ (while_ stmt ⊔ (return_ ⊔ (subscribe ⊔ call u))))))))

section Nested

variable {stmt stmt' : Grammar Token Stmt}

theorem block_mono (h : stmt ≤ stmt') : block stmt ≤ block stmt' :=
  bind_mono le_rfl fun _ => bind_mono (many_mono h) fun _ => le_rfl

theorem borrow_mono (h : stmt ≤ stmt') : borrow stmt ≤ borrow stmt' :=
  bind_mono le_rfl fun _ => bind_mono le_rfl fun _ => bind_mono le_rfl fun _ => bind_mono le_rfl fun _ =>
    bind_mono (block_mono h) fun _ => le_rfl

theorem if_mono (h : stmt ≤ stmt') : if_ stmt ≤ if_ stmt' :=
  bind_mono le_rfl fun _ => bind_mono le_rfl fun _ =>
    bind_mono (block_mono h) fun _ => bind_mono (optional_mono (block_mono h)) fun _ => le_rfl

theorem while_mono (h : stmt ≤ stmt') : while_ stmt ≤ while_ stmt' :=
  bind_mono le_rfl fun _ => bind_mono le_rfl fun _ => bind_mono (block_mono h) fun _ => le_rfl

theorem stmtOf_mono (u : Ucd) (r : Rules) (h : stmt ≤ stmt') : stmtOf u r stmt ≤ stmtOf u r stmt' :=
  sup_le_sup le_rfl <| sup_le_sup le_rfl <| sup_le_sup le_rfl <| sup_le_sup le_rfl <| sup_le_sup (borrow_mono h) <|
    sup_le_sup (if_mono h) <| sup_le_sup (while_mono h) le_rfl

end Nested

/-- The least language closed under the productions of `stmt` and `block`. -/
def stmt (u : Ucd) (r : Rules) : Grammar Token Stmt := OrderHom.lfp ⟨stmtOf u r, fun _ _ h => stmtOf_mono u r h⟩

theorem stmt_eq (u : Ucd) (r : Rules) : stmtOf u r (stmt u r) = stmt u r :=
  OrderHom.map_lfp ⟨stmtOf u r, fun _ _ h => stmtOf_mono u r h⟩

/-! ## Modules -/

/-- `"fn" IDENT "(" params? ")" ("->" type)? ("lifetime" IDENT)? block` -/
def fn (u : Ucd) (r : Rules) : Grammar Token FnItem := do
  let kw ← token .fn
  let name ← token .ident
  let _ ← token .lparen
  let params ← listed .comma (fun ps => do return ps ++ [← param]) []
  let _ ← token .rparen
  let ret ← ret
  let lifetime ← identAfter .lifetime
  let body ← block (stmt u r)
  return ⟨name.text, params, ret, body, kw.line, lifetime⟩

/-- `resource | extern | fn | policy | lifetime` -/
def item (u : Ucd) (r : Rules) (m : Module) : Grammar Token Module :=
  (do return { m with resources := m.resources ++ [← resource] }) ⊔
  ((do return { m with externs := m.externs ++ [← extern_] }) ⊔
  ((do return { m with functions := m.functions ++ [← fn u r] }) ⊔
  ((do return { m with policies := m.policies ++ [← policy u] }) ⊔
  (do return { m with lifetimes := m.lifetimes ++ [← lifetime] }))))

/-- `"module" IDENT item*` -/
def module_ (u : Ucd) (r : Rules) : Grammar Token Module := do
  let _ ← token .module_
  let name ← token .ident
  star (item u r) { name := name.text }

/-! ## What the rules admit -/

end Rule

/-- `r` takes no liberty that `r'` does not. -/
structure Rules.Within (r r' : Rules) : Prop where
  names : ∀ k ∈ r.names, k ∈ r'.names
  leading : r'.leading = true → r.leading = true

theorem Rules.leadingSize_within : leadingSize.Within asBuilt := ⟨fun _ hk => hk, fun h => absurd h (by decide)⟩

namespace Rule

variable {u : Ucd} {r r' : Rules}

theorem admits_within (h : r.Within r') {s : BufferArgs} (hs : s.admits r = true) : s.admits r' = true := by
  simp only [BufferArgs.admits, Bool.and_eq_true, Bool.or_eq_true, Bool.not_eq_true'] at hs ⊢
  refine ⟨hs.1, ?_⟩
  cases hl : r'.leading with
  | false => exact .inl rfl
  | true => exact .inr (hs.2.resolve_left (by simp [h.leading hl]))

theorem barg_mono (h : r.Within r') (s : BufferArgs) : barg u r s ≤ barg u r' s := by
  refine sup_le_sup (bind_mono (fun w o hw => ?_) fun _ => le_rfl) (bind_mono le_rfl fun a => ?_)
  · obtain ⟨t, ht, hw⟩ := Parsing.Grammar.sat_iff.mp hw
    exact Parsing.Grammar.sat_iff.mpr ⟨t, h.names _ ht, hw⟩
  · exact Parsing.Grammar.when_mono (admits_within h) _

theorem bufferintent_mono (h : r.Within r') : bufferintent u r ≤ bufferintent u r' :=
  bind_mono le_rfl fun _ => bind_mono le_rfl fun _ => bind_mono le_rfl fun _ => bind_mono le_rfl fun _ =>
    bind_mono (listed_mono (barg_mono h) {}) fun _ => le_rfl

theorem let_mono (h : r.Within r') : let_ u r ≤ let_ u r' :=
  bind_mono le_rfl fun _ => bind_mono le_rfl fun _ => bind_mono le_rfl fun _ =>
    bind_mono (sup_le_sup le_rfl (sup_le_sup le_rfl (sup_le_sup (bufferintent_mono h) le_rfl))) fun _ => le_rfl

theorem stmt_mono (h : r.Within r') : stmt u r ≤ stmt u r' :=
  OrderHom.lfp.monotone fun _ => sup_le_sup (let_mono h) le_rfl

theorem fn_mono (h : r.Within r') : fn u r ≤ fn u r' :=
  bind_mono le_rfl fun _ => bind_mono le_rfl fun _ => bind_mono le_rfl fun _ => bind_mono le_rfl fun _ =>
    bind_mono le_rfl fun _ => bind_mono le_rfl fun _ => bind_mono le_rfl fun _ => bind_mono
      (block_mono (stmt_mono h)) fun _ => le_rfl

theorem item_mono (h : r.Within r') (m : Module) : item u r m ≤ item u r' m :=
  sup_le_sup le_rfl <| sup_le_sup le_rfl <| sup_le_sup (bind_mono (fn_mono h) fun _ => le_rfl) le_rfl

theorem module_mono (h : r.Within r') : module_ u r ≤ module_ u r' :=
  bind_mono le_rfl fun _ => bind_mono le_rfl fun _ => star_mono (item_mono h) _

end Rule

end OwnNet.Lang
