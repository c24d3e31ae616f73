/-
  OwnNet.HeapEffects.Facts — the heap-effect sidecar: its tokens, its methods, and `load`,
  which takes a JSON document to its methods or to the first violation's text.

  `Method τ` is a method whose values are written in tokens `τ`: strings as the document
  has them, `Tok` once `checkTokens` has read them.

  Proved: `load_accepted`: the methods of an accepted document have distinct keys, and
  every parameter, local, call and argument slot they name exists.
-/

import OwnNet.Json
import Mathlib.Data.List.Nodup

namespace OwnNet.HeapEffects

inductive Dispatch where
  | direct | virtual | extern_ | delegate
  deriving DecidableEq, Repr

inductive WriteKind where
  | inst | static | indirect
  deriving DecidableEq, Repr

inductive Tok where
  | param (i : Nat)
  | loc (i : Nat)
  | call (i : Nat)
  | receiver
  | heap
  deriving DecidableEq, Repr

structure Call (τ : Type) where
  callee : String
  dispatch : Dispatch
  receiver : Option (List τ)
  args : List (List τ)
  deriving DecidableEq, Repr

structure Method (τ : Type) where
  key : String
  file : String
  line : Nat
  receiver : Bool
  returnInert : Bool
  params : List (String × Bool)
  locals : List (List τ)
  derefs : List τ
  writes : List (WriteKind × List τ)
  stores : List τ
  returns : List τ
  calls : List (Call τ)
  unknown : List String
  deriving DecidableEq, Repr

/-- Whether parameter `i` holds no reference. -/
def Method.inert {τ : Type} (m : Method τ) (i : Nat) : Bool := ((m.params[i]?).map Prod.snd).getD true

/-! ## Reading a method -/

def Dispatch.parse : String → Option Dispatch
  | "direct" => some .direct
  | "virtual" => some .virtual
  | "extern" => some .extern_
  | "delegate" => some .delegate
  | _ => none

def WriteKind.parse : String → Option WriteKind
  | "instance" => some .inst
  | "static" => some .static
  | "indirect" => some .indirect
  | _ => none

def fail {α : Type} (loc what : String) : Except String α := .error ("heap-effect facts: " ++ loc ++ ": " ++ what)

def bad {α : Type} (loc field : String) : Except String α :=
  fail loc ("field '" ++ field ++ "' is missing or has the wrong type")

/-- The value a field's reader gives, or the field's complaint. -/
def need {α : Type} (loc field : String) : Option α → Except String α
  | some a => .ok a
  | none => bad loc field

def parseLine (j : Json) : Option Nat :=
  j.asInt.bind fun n => if 0 ≤ n ∧ n ≤ 2147483647 then some n.toNat else none

def outOfSequence {α : Type} (loc field : String) (j : Nat) : Except String α :=
  fail loc (field ++ "[" ++ toString j ++ "] is out of sequence")

def parseParam (loc : String) (j : Nat) (p : Json) : Except String (String × Bool) := do
  let fs ← need loc "params" p.asObj
  let index ← need loc "params" (Json.get fs "index").asInt
  let name ← need loc "params" (Json.get fs "name").asStr
  let inert ← need loc "params" (Json.get fs "inert").asBool
  if index ≠ j then outOfSequence loc "params" j else .ok (name, inert)

def parseLocal (loc : String) (j : Nat) (l : Json) : Except String (List String) := do
  let fs ← need loc "locals" l.asObj
  let id ← need loc "locals" (Json.get fs "id").asInt
  let _ ← need loc "locals" (Json.get fs "name").asStr
  let sources ← need loc "locals" (Json.get fs "sources").asStrings
  if id ≠ j then outOfSequence loc "locals" j else .ok sources

/-- A call's receiver: null for none, else an array of strings. -/
def parseReceiver : Json → Option (Option (List String))
  | .null => some none
  | j => j.asStrings.map some

def parseCall (loc : String) (j : Nat) (c : Json) : Except String (Call String) := do
  let fs ← need loc "calls" c.asObj
  let args ← need loc "calls" ((Json.get fs "args").asArr.bind fun as => as.mapM Json.asStrings)
  let receiver ← need loc "calls" (parseReceiver (Json.get fs "receiver"))
  let id ← need loc "calls" (Json.get fs "id").asInt
  let callee ← need loc "calls" (Json.get fs "callee").asStr
  let dispatch ← need loc "calls" (Json.get fs "dispatch").asStr
  let _ ← need loc "calls" (parseLine (Json.get fs "line"))
  if id ≠ j then outOfSequence loc "calls" j else
  match Dispatch.parse dispatch with
  | none => fail loc ("calls[" ++ toString j ++ "] has an unknown dispatch")
  | some d => .ok ⟨callee, d, receiver, args⟩

def parseWrite (loc : String) (j : Nat) (w : Json) : Except String (WriteKind × List String) := do
  let fs ← need loc "writes" w.asObj
  let kind ← need loc "writes" (Json.get fs "kind").asStr
  let target ← need loc "writes" (Json.get fs "target").asStrings
  match WriteKind.parse kind with
  | none => fail loc ("writes[" ++ toString j ++ "] has an unknown kind")
  | some k => .ok (k, target)

/-- A list's entries in order, each read at its position. -/
def readEach {α β : Type} (f : Nat → α → Except String β) : Nat → List α → Except String (List β)
  | _, [] => .ok []
  | i, x :: xs => do
    let y ← f i x
    let ys ← readEach f (i + 1) xs
    .ok (y :: ys)

def parseMethod (loc : String) (seen : List String) (fs : List (String × Json)) : Except String (Method String) := do
  let key ← need loc "key" (Json.get fs "key").asStr
  if key = "" then bad loc "key" else
  if key ∈ seen then fail loc "duplicate key" else
  let file ← need loc "file" (Json.get fs "file").asStr
  let line ← need loc "line" (parseLine (Json.get fs "line"))
  let receiver ← need loc "receiver" (Json.get fs "receiver").asBool
  let returnInert ← need loc "return_inert" (Json.get fs "return_inert").asBool
  let rawParams ← need loc "params" (Json.get fs "params").asArr
  let params ← readEach (parseParam loc) 0 rawParams
  let rawLocals ← need loc "locals" (Json.get fs "locals").asArr
  let locals ← readEach (parseLocal loc) 0 rawLocals
  let rawCalls ← need loc "calls" (Json.get fs "calls").asArr
  let calls ← readEach (parseCall loc) 0 rawCalls
  let rawWrites ← need loc "writes" (Json.get fs "writes").asArr
  let writes ← readEach (parseWrite loc) 0 rawWrites
  let derefs ← need loc "derefs" (Json.get fs "derefs").asStrings
  let stores ← need loc "stores" (Json.get fs "stores").asStrings
  let returns ← need loc "returns" (Json.get fs "returns").asStrings
  let unknown ← need loc "unknown" (Json.get fs "unknown").asStrings
  .ok ⟨key, file, line, receiver, returnInert, params, locals, derefs, writes, stores, returns, calls, unknown⟩

/-! ## Reading its tokens -/

def strip : List Char → List Char → Option (List Char)
  | [], s => some s
  | p :: ps, c :: cs => if p = c then strip ps cs else none
  | _ :: _, [] => none

def digit (c : Char) : Option Nat := if '0' ≤ c ∧ c ≤ '9' then some (c.toNat - '0'.toNat) else none

/-- `0|[1-9][0-9]*` -/
def decimal : List Char → Option Nat
  | [] => none
  | ['0'] => some 0
  | '0' :: _ => none
  | cs => cs.foldlM (fun n c => (digit c).map fun d => 10 * n + d) 0

/-- `(param|local|call):(0|[1-9][0-9]*)` -/
def Tok.parse (s : String) : Option Tok :=
  if s = "heap" then some .heap
  else if s = "receiver" then some .receiver
  else match strip "param:".toList s.toList with
  | some ds => (decimal ds).map .param
  | none => match strip "local:".toList s.toList with
    | some ds => (decimal ds).map .loc
    | none => match strip "call:".toList s.toList with
      | some ds => (decimal ds).map .call
      | none => none

def Method.holds {τ : Type} (m : Method τ) : Tok → Bool
  | .param i => i < m.params.length
  | .loc i => i < m.locals.length
  | .call i => i < m.calls.length
  | .receiver => m.receiver
  | .heap => true

def checkToken (m : Method String) (loc field t : String) : Except String Tok :=
  match Tok.parse t with
  | none => fail loc (field ++ " holds a token outside the vocabulary")
  | some tok => if m.holds tok then .ok tok else fail loc (field ++ " holds a token outside the vocabulary")

def checkList (m : Method String) (loc field : String) : List String → Except String (List Tok)
  | [] => .ok []
  | t :: ts => do
    let tok ← checkToken m loc field t
    let toks ← checkList m loc field ts
    .ok (tok :: toks)

def slot (field : String) (j : Nat) : String := field ++ "[" ++ toString j ++ "]"

def checkWrite (m : Method String) (loc : String) (j : Nat) (w : WriteKind × List String) :
    Except String (WriteKind × List Tok) := do
  let target ← checkList m loc (slot "writes" j) w.2
  .ok (w.1, target)

def checkReceiver (m : Method String) (loc : String) (j : Nat) : Option (List String) → Except String (Option (List Tok))
  | none => .ok none
  | some ts => do
    let toks ← checkList m loc (slot "calls" j ++ ".receiver") ts
    .ok (some toks)

def checkCall (m : Method String) (loc : String) (j : Nat) (c : Call String) : Except String (Call Tok) := do
  let receiver ← checkReceiver m loc j c.receiver
  let args ← readEach (fun k arg => checkList m loc (slot "calls" j ++ slot ".args" k) arg) 0 c.args
  .ok ⟨c.callee, c.dispatch, receiver, args⟩

/-- `_check_tokens`, giving the method over read tokens. -/
def checkTokens (loc : String) (m : Method String) : Except String (Method Tok) := do
  let locals ← readEach (fun j sources => checkList m loc (slot "locals" j) sources) 0 m.locals
  let derefs ← checkList m loc "derefs" m.derefs
  let writes ← readEach (checkWrite m loc) 0 m.writes
  let stores ← checkList m loc "stores" m.stores
  let returns ← checkList m loc "returns" m.returns
  let calls ← readEach (checkCall m loc) 0 m.calls
  .ok ⟨m.key, m.file, m.line, m.receiver, m.returnInert, m.params, locals, derefs, writes, stores, returns, calls,
    m.unknown⟩

/-! ## Loading a document -/

def methodAt (i : Nat) : String := "method #" ++ toString i

def loadMethods : Nat → List String → List (List (String × Json)) → Except String (List (Method Tok))
  | _, _, [] => .ok []
  | i, seen, fs :: rest => do
    let raw ← parseMethod (methodAt i) seen fs
    let m ← checkTokens (methodAt i) raw
    let ms ← loadMethods (i + 1) (m.key :: seen) rest
    .ok (m :: ms)

/-- `by_key` -/
def byKey (ms : List (Method Tok)) (key : String) : Option (Method Tok) := ms.find? (fun m => m.key = key)

/-- A direct call passes its callee's record as many arguments as it takes. -/
def arityFits (ms : List (Method Tok)) (c : Call Tok) : Bool :=
  match byKey ms c.callee with
  | some callee => c.dispatch ≠ .direct || c.args.length = callee.params.length
  | none => true

def checkArities (ms : List (Method Tok)) (i j : Nat) : List (Call Tok) → Except String Unit
  | [] => .ok ()
  | c :: cs =>
    if arityFits ms c then checkArities ms i (j + 1) cs
    else fail (methodAt i) ("calls[" ++ toString j ++ "] has " ++ toString c.args.length ++
      " argument slots, its callee takes " ++ toString (((byKey ms c.callee).map fun m => m.params.length).getD 0))

def checkAllArities (ms : List (Method Tok)) : Nat → List (Method Tok) → Except String Unit
  | _, [] => .ok ()
  | i, m :: rest => do
    checkArities ms i 0 m.calls
    checkAllArities ms (i + 1) rest

def load (doc : Json) : Except String (List (Method Tok)) :=
  match doc.asObj with
  | none => .error "heap-effect facts: the document is not an object"
  | some fs =>
    if (Json.get fs "heap_effects_version").asInt ≠ some 1 then
      .error "heap-effect facts: heap_effects_version must be 1"
    else match (Json.get fs "methods").asArr.bind fun raw => raw.mapM Json.asObj with
      | none => .error "heap-effect facts: methods must be an array of objects"
      | some raw => do
        let ms ← loadMethods 0 [] raw
        checkAllArities ms 0 ms
        .ok ms

/-! ## What an accepted document guarantees -/

/-- Every token of the method names a parameter, local or call it has. -/
structure Method.InRange (m : Method Tok) : Prop where
  locals : ∀ l ∈ m.locals, ∀ t ∈ l, m.holds t
  derefs : ∀ t ∈ m.derefs, m.holds t
  writes : ∀ w ∈ m.writes, ∀ t ∈ w.2, m.holds t
  stores : ∀ t ∈ m.stores, m.holds t
  returns : ∀ t ∈ m.returns, m.holds t
  receivers : ∀ c ∈ m.calls, ∀ ts, c.receiver = some ts → ∀ t ∈ ts, m.holds t
  args : ∀ c ∈ m.calls, ∀ arg ∈ c.args, ∀ t ∈ arg, m.holds t

structure Accepted (ms : List (Method Tok)) : Prop where
  nodup : (ms.map Method.key).Nodup
  inRange : ∀ m ∈ ms, m.InRange
  arity : ∀ m ∈ ms, ∀ c ∈ m.calls, arityFits ms c

theorem bind_ok {ε α β : Type} {x : Except ε α} {f : α → Except ε β} {b : β} (h : (x >>= f) = .ok b) :
    ∃ a, x = .ok a ∧ f a = .ok b := by
  cases x with
  | error e => cases h
  | ok a => exact ⟨a, rfl, h⟩

theorem readEach_ok {α β : Type} {f : Nat → α → Except String β} :
    ∀ (xs : List α) (i : Nat) {ys : List β}, readEach f i xs = .ok ys →
      List.Forall₂ (fun x y => ∃ j, f j x = .ok y) xs ys := by
  intro xs
  induction xs with
  | nil =>
    intro i ys h
    cases h; exact .nil
  | cons x xs ih =>
    intro i ys h
    obtain ⟨y, hy, h⟩ := bind_ok h
    obtain ⟨ys', hys, h⟩ := bind_ok h
    cases h
    exact .cons ⟨i, hy⟩ (ih (i + 1) hys)

theorem readEach_length {α β : Type} {f : Nat → α → Except String β} {xs : List α} {i : Nat} {ys : List β}
    (h : readEach f i xs = .ok ys) : ys.length = xs.length := (readEach_ok xs i h).length_eq.symm

theorem readEach_mem {α β : Type} {f : Nat → α → Except String β} {xs : List α} {i : Nat} {ys : List β}
    (h : readEach f i xs = .ok ys) {y : β} (hy : y ∈ ys) : ∃ x j, f j x = .ok y := by
  have hf := readEach_ok xs i h
  clear h
  induction hf with
  | nil => cases hy
  | cons hxy _ ih =>
    rcases List.mem_cons.mp hy with rfl | hy
    · obtain ⟨j, hj⟩ := hxy
      exact ⟨_, j, hj⟩
    · exact ih hy

theorem checkToken_ok {m : Method String} {loc field t : String} {tok : Tok} (h : checkToken m loc field t = .ok tok) :
    m.holds tok := by
  unfold checkToken at h
  split at h
  · cases h
  · split at h
    · rename_i hh
      cases h; exact hh
    · cases h

theorem checkList_ok {m : Method String} {loc field : String} :
    ∀ (ts : List String) {toks : List Tok}, checkList m loc field ts = .ok toks → ∀ t ∈ toks, m.holds t := by
  intro ts
  induction ts with
  | nil =>
    intro toks h
    cases h
    exact fun t ht => absurd ht List.not_mem_nil
  | cons t ts ih =>
    intro toks h
    obtain ⟨tok, ht, h⟩ := bind_ok h
    obtain ⟨rest, hr, h⟩ := bind_ok h
    cases h
    intro u hu
    rcases List.mem_cons.mp hu with rfl | hu
    · exact checkToken_ok ht
    · exact ih hr u hu

theorem checkCall_ok {m : Method String} {loc : String} {j : Nat} {c : Call String} {c' : Call Tok}
    (h : checkCall m loc j c = .ok c') :
    (∀ ts, c'.receiver = some ts → ∀ t ∈ ts, m.holds t) ∧ ∀ arg ∈ c'.args, ∀ t ∈ arg, m.holds t := by
  obtain ⟨receiver, hr, h⟩ := bind_ok h
  obtain ⟨args, ha, h⟩ := bind_ok h
  cases h
  constructor
  · intro ts hts
    dsimp only at hts
    subst hts
    cases hc : c.receiver with
    | none => rw [hc] at hr; cases hr
    | some raw =>
      rw [hc] at hr
      obtain ⟨toks, ht, h⟩ := bind_ok hr
      cases h
      exact checkList_ok raw ht
  · intro arg harg
    obtain ⟨raw, k, hk⟩ := readEach_mem ha harg
    exact checkList_ok raw hk

theorem checkTokens_ok {loc : String} {m : Method String} {m' : Method Tok} (h : checkTokens loc m = .ok m') :
    m'.key = m.key ∧ m'.InRange := by
  obtain ⟨locals, hl, h⟩ := bind_ok h
  obtain ⟨derefs, hd, h⟩ := bind_ok h
  obtain ⟨writes, hw, h⟩ := bind_ok h
  obtain ⟨stores, hs, h⟩ := bind_ok h
  obtain ⟨returns, hr, h⟩ := bind_ok h
  obtain ⟨calls, hc, h⟩ := bind_ok h
  cases h
  refine ⟨rfl, ?_⟩
  -- the read method has as many parameters, locals and calls as the written one
  have hholds : ∀ t, m.holds t = true → Method.holds (τ := Tok) ⟨m.key, m.file, m.line, m.receiver, m.returnInert,
      m.params, locals, derefs, writes, stores, returns, calls, m.unknown⟩ t = true := by
    intro t ht
    cases t with
    | param i => exact ht
    | loc i => simpa [Method.holds, readEach_length hl] using ht
    | call i => simpa [Method.holds, readEach_length hc] using ht
    | receiver => exact ht
    | heap => rfl
  refine ⟨?_, ?_, ?_, ?_, ?_, ?_, ?_⟩
  · intro l hlm t ht
    obtain ⟨raw, j, hj⟩ := readEach_mem hl hlm
    exact hholds t (checkList_ok raw hj t ht)
  · exact fun t ht => hholds t (checkList_ok _ hd t ht)
  · intro w hwm t ht
    obtain ⟨raw, j, hj⟩ := readEach_mem hw hwm
    obtain ⟨target, htg, hj⟩ := bind_ok hj
    cases hj
    exact hholds t (checkList_ok _ htg t ht)
  · exact fun t ht => hholds t (checkList_ok _ hs t ht)
  · exact fun t ht => hholds t (checkList_ok _ hr t ht)
  · intro c hcm ts hts t ht
    obtain ⟨raw, j, hj⟩ := readEach_mem hc hcm
    exact hholds t ((checkCall_ok hj).1 ts hts t ht)
  · intro c hcm arg harg t ht
    obtain ⟨raw, j, hj⟩ := readEach_mem hc hcm
    exact hholds t ((checkCall_ok hj).2 arg harg t ht)

theorem parseMethod_fresh {loc : String} {seen : List String} {fs : List (String × Json)} {m : Method String}
    (h : parseMethod loc seen fs = .ok m) : m.key ∉ seen := by
  obtain ⟨key, -, h⟩ := bind_ok h
  split at h
  · cases h
  · split at h
    · cases h
    · rename_i hs
      obtain ⟨_, -, h⟩ := bind_ok h
      obtain ⟨_, -, h⟩ := bind_ok h
      obtain ⟨_, -, h⟩ := bind_ok h
      obtain ⟨_, -, h⟩ := bind_ok h
      obtain ⟨_, -, h⟩ := bind_ok h
      obtain ⟨_, -, h⟩ := bind_ok h
      obtain ⟨_, -, h⟩ := bind_ok h
      obtain ⟨_, -, h⟩ := bind_ok h
      obtain ⟨_, -, h⟩ := bind_ok h
      obtain ⟨_, -, h⟩ := bind_ok h
      obtain ⟨_, -, h⟩ := bind_ok h
      obtain ⟨_, -, h⟩ := bind_ok h
      obtain ⟨_, -, h⟩ := bind_ok h
      obtain ⟨_, -, h⟩ := bind_ok h
      obtain ⟨_, -, h⟩ := bind_ok h
      obtain ⟨_, -, h⟩ := bind_ok h
      cases h
      exact hs

theorem loadMethods_ok :
    ∀ (raw : List (List (String × Json))) (i : Nat) (seen : List String) {ms : List (Method Tok)},
      loadMethods i seen raw = .ok ms →
      (ms.map Method.key).Nodup ∧ (∀ m ∈ ms, m.key ∉ seen) ∧ ∀ m ∈ ms, m.InRange := by
  intro raw
  induction raw with
  | nil =>
    intro i seen ms h
    cases h
    simp
  | cons fs rest ih =>
    intro i seen ms h
    obtain ⟨m, hm, h⟩ := bind_ok h
    obtain ⟨m', hm', h⟩ := bind_ok h
    obtain ⟨ms', hms, h⟩ := bind_ok h
    cases h
    obtain ⟨hkey, hrange⟩ := checkTokens_ok hm'
    obtain ⟨hnd, hfresh, hall⟩ := ih (i + 1) (m'.key :: seen) hms
    refine ⟨?_, ?_, ?_⟩
    · rw [List.map_cons, List.nodup_cons]
      refine ⟨?_, hnd⟩
      intro hmem
      obtain ⟨x, hx, he⟩ := List.mem_map.mp hmem
      exact hfresh x hx (by rw [he]; exact List.mem_cons_self)
    · intro x hx
      rcases List.mem_cons.mp hx with rfl | hx
      · rw [hkey]; exact parseMethod_fresh hm
      · exact fun hs => hfresh x hx (List.mem_cons_of_mem _ hs)
    · intro x hx
      rcases List.mem_cons.mp hx with rfl | hx
      · exact hrange
      · exact hall x hx

theorem checkArities_ok {ms : List (Method Tok)} {i : Nat} :
    ∀ (cs : List (Call Tok)) (j : Nat), checkArities ms i j cs = .ok () → ∀ c ∈ cs, arityFits ms c := by
  intro cs
  induction cs with
  | nil => exact fun _ _ c hc => absurd hc List.not_mem_nil
  | cons c cs ih =>
    intro j h
    unfold checkArities at h
    split at h
    · rename_i hfit
      intro x hx
      rcases List.mem_cons.mp hx with rfl | hx
      · exact hfit
      · exact ih (j + 1) h x hx
    · cases h

theorem checkAllArities_ok {ms : List (Method Tok)} :
    ∀ (rest : List (Method Tok)) (i : Nat), checkAllArities ms i rest = .ok () →
      ∀ m ∈ rest, ∀ c ∈ m.calls, arityFits ms c := by
  intro rest
  induction rest with
  | nil => exact fun _ _ m hm => absurd hm List.not_mem_nil
  | cons m rest ih =>
    intro i h x hx
    obtain ⟨u, hu, h⟩ := bind_ok h
    rcases List.mem_cons.mp hx with rfl | hx
    · exact checkArities_ok _ 0 hu
    · exact ih (i + 1) h x hx

theorem load_accepted {doc : Json} {ms : List (Method Tok)} (h : load doc = .ok ms) : Accepted ms := by
  unfold load at h
  split at h
  · cases h
  · split at h
    · cases h
    · split at h
      · cases h
      · obtain ⟨ms', hms, h⟩ := bind_ok h
        obtain ⟨u, hu, h⟩ := bind_ok h
        cases h
        obtain ⟨hnd, -, hrange⟩ := loadMethods_ok _ 0 [] hms
        exact ⟨hnd, hrange, checkAllArities_ok _ 0 hu⟩

end OwnNet.HeapEffects
