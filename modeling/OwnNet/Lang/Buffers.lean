/-
  OwnNet.Lang.Buffers — buffer storage policies: `resolve` takes an intent
  (`Buffer.<mode>(size, option = value, ...)`) and the declared policies to the metadata
  the checker and the generator read, and to what is wrong with the intent.
-/

import OwnNet.Lang.Ast

namespace OwnNet.Lang

inductive BufferMode where
  | stack | scratch | pooled | native | inline
  deriving DecidableEq, Repr

namespace BufferMode

def value : BufferMode → String
  | stack => "stack"
  | scratch => "scratch"
  | pooled => "pooled"
  | native => "native"
  | inline => "inline"

def parse : String → Option BufferMode
  | "stack" => some stack
  | "scratch" => some scratch
  | "pooled" => some pooled
  | "native" => some native
  | "inline" => some inline
  | _ => none

def names : String := "inline, native, pooled, scratch, stack"

/-- The backing storage may be on the stack, so the buffer must not leave the function. -/
def stackBacked : BufferMode → Bool
  | stack | scratch | inline => true
  | pooled | native => false

end BufferMode

def validOptions : List String :=
  ["clear", "counters", "fallback", "inline", "inline_bytes", "max", "max_bytes", "policy", "sensitive", "trace"]

def defaultInlineBytes : Int := 1024

def maxStackBytes : Int := 4096

structure BufferInfo where
  mode : BufferMode
  elem : String
  sizeConst : Option Int
  sizeVar : Option String
  inlineBytes : Int
  fallbackPool : Bool
  fallbackForbidden : Bool
  clearOnRelease : Bool
  sensitive : Bool
  trace : Bool
  counters : Bool
  policyName : Option String
  line : Int
  deriving DecidableEq, Repr

def BufferInfo.stackBacked (info : BufferInfo) : Bool := info.mode.stackBacked

/-- A policy setting: an integer, `true`/`false`, or a bare keyword. -/
inductive PolicyValue where
  | int (n : Int)
  | bool (b : Bool)
  | str (s : String)
  deriving DecidableEq, Repr

structure Policy where
  name : String
  settings : List (String × PolicyValue)
  line : Int := 0
  dups : List String := []
  deriving DecidableEq, Repr

/-! ## Raw option values -/

def quote (s : String) : String := "'" ++ s ++ "'"

mutual

/-- An expression's text where only an integer or a name was expected. -/
def Expr.text : Expr → String
  | .intLit value line => s!"IntLit(value={value}, line={line})"
  | .varRef name line => s!"VarRef(name={quote name}, line={line})"
  | .acquire resource args line =>
    let argText := ", ".intercalate (Expr.texts args)
    s!"Acquire(resource={quote resource}, args=[{argText}], line={line})"
  | .move var line => s!"Move(var={quote var}, line={line})"
  | .buffer mode size options line ns col dups =>
    let sizeText := match size with
      | none => "None"
      | some e => e.text
    let dupsText := match dups with
      | [d] => quote d ++ ","
      | _ => ", ".intercalate (dups.map quote)
    let optionText := ", ".intercalate (Expr.optionTexts options)
    "BufferIntent(mode=" ++ quote mode ++ ", size=" ++ sizeText ++ ", options=\x7b" ++ optionText ++
      s!"\x7d, line={line}, ns={quote ns}, col={col}, dups=({dupsText}))"

def Expr.texts : List Expr → List String
  | [] => []
  | e :: rest => e.text :: Expr.texts rest

def Expr.optionTexts : List (String × Expr) → List String
  | [] => []
  | (key, e) :: rest => (quote key ++ ": " ++ e.text) :: Expr.optionTexts rest

end

def Expr.asInt : Expr → Option Int
  | .intLit value _ => some value
  | _ => none

def Expr.asIdent : Expr → Option String
  | .varRef name _ => some name
  | _ => none

/-- `_fallback_token` of an option's expression. -/
def Expr.token : Expr → String
  | .intLit value _ => toString value
  | .varRef name _ => name
  | e => e.text

def PolicyValue.asInt : PolicyValue → Option Int
  | .int n => some n
  | _ => none

def PolicyValue.asBool : PolicyValue → Option Bool
  | .bool b => some b
  | _ => none

/-- `_fallback_token` of a policy's setting. -/
def PolicyValue.token : PolicyValue → String
  | .int n => toString n
  | .bool b => if b then "true" else "false"
  | .str s => s

/-- `str` of a policy's setting. -/
def PolicyValue.text : PolicyValue → String
  | .bool b => if b then "True" else "False"
  | v => v.token

/-- The value a name is bound to: the names are a dictionary's keys. -/
def entry {α : Type} (d : List (String × α)) (key : String) : Option α := (d.find? fun e => e.1 = key).map Prod.snd

/-- A value together with what was reported while it was worked out. -/
abbrev Reported (α : Type) := α × List Diagnostic

section Resolve

variable (opts : List (String × Expr)) (base : List (String × PolicyValue)) (line : Int)

def optInt (name : String) (default : Int) : Reported Int :=
  match entry opts name, entry base name with
  | some e, _ =>
    match e.asInt with
    | some v => (v, [])
    | none => (default, [⟨.own030, s!"invalid '{name}' value '{e.token}'; expected an integer", line, none, none, []⟩])
  | none, some b =>
    match b.asInt with
    | some v => (v, [])
    | none =>
      (default,
        [⟨.own030, s!"invalid '{name}' value '{b.text}' in policy; expected an integer", line, none, none, []⟩])
  | none, none => (default, [])

/-- The first source present, in order, as an integer; `true` marks an inline option. -/
def firstInt (label : String) (default : Int) : List (Bool × String) → Reported Int
  | [] => (default, [])
  | (true, key) :: rest =>
    match entry opts key with
    | none => firstInt label default rest
    | some e =>
      match e.asInt with
      | some v => (v, [])
      | none =>
        (default, [⟨.own030, s!"invalid '{label}' value '{e.token}'; expected an integer", line, none, none, []⟩])
  | (false, key) :: rest =>
    match entry base key with
    | none => firstInt label default rest
    | some b =>
      match b.asInt with
      | some v => (v, [])
      | none =>
        (default,
          [⟨.own030, s!"invalid '{label}' value '{b.token}' in policy; expected an integer", line, none, none, []⟩])

def boolFlag (option setting : String) (default : Bool) : Reported Bool :=
  match entry opts option, entry base setting with
  | some e, _ =>
    if e.asIdent = some "true" then (true, [])
    else if e.asIdent = some "false" then (false, [])
    else
      (default,
        [⟨.own030, s!"invalid '{setting}' value '{e.token}'; expected true or false", line, none, none, []⟩])
  | none, some b =>
    match b.asBool with
    | some v => (v, [])
    | none =>
      (default,
        [⟨.own030, s!"invalid '{setting}' value '{b.text}' in policy; expected true or false", line, none, none, []⟩])
  | none, none => (default, [])

def traceOn : List String := ["debug", "on", "true"]

def traceOff : List String := ["off", "none", "false"]

def traceFlag (default : Bool) : Reported Bool :=
  match entry opts "trace", entry base "trace" with
  | some e, _ =>
    match e.asIdent with
    | some name =>
      if name ∈ traceOn then (true, [])
      else if name ∈ traceOff then (false, [])
      else (default, [invalid e.token ""])
    | none => (default, [invalid e.token ""])
  | none, some b =>
    match b with
    | .bool v => (v, [])
    | .str s =>
      if s ∈ traceOn then (true, [])
      else if s ∈ traceOff then (false, [])
      else (default, [invalid b.text " in policy"])
    | .int _ => (default, [invalid b.text " in policy"])
  | none, none => (default, [])
where
  invalid (value where_ : String) : Diagnostic :=
    ⟨.own030, s!"invalid 'trace' value '{value}'{where_}; expected one of debug/on/off/none/true/false", line, none, none,
      []⟩

/-- Where the bytes may live: inline capacity, heap fallback allowed, heap fallback forbidden. -/
structure Storage where
  inlineBytes : Int
  fallbackPool : Bool
  fallbackForbidden : Bool

def stackStorage (mode : BufferMode) (sizeConst : Option Int) : Reported Storage :=
  match sizeConst with
  | some n => (⟨n, false, true⟩, [])
  | none =>
    if mode = .inline then
      (⟨maxStackBytes, false, true⟩,
        [⟨.own021,
          "'inline' buffer requires a compile-time integer literal size; use 'stack' with a 'max =' bound for a dynamic size",
          line, none, none, []⟩])
    else
      match (entry opts "max").map fun e => (e, e.asInt) with
      | some (e, none) =>
        (⟨maxStackBytes, false, true⟩,
          [⟨.own030, s!"invalid 'max' value '{e.token}'; expected an integer", line, none, none, []⟩])
      | some (_, some v) => bounded v []
      | none => bounded (optInt opts base line "max_bytes" (-1)).1 (optInt opts base line "max_bytes" (-1)).2
where
  bounded (bound : Int) (ds : List Diagnostic) : Reported Storage :=
    if bound < 0 then
      (⟨maxStackBytes, false, true⟩,
        ds ++ [⟨.own021,
          s!"'{mode.value}' allocation of a dynamic size requires a statically known bound (add 'max = N')",
          line, none, none, []⟩])
    else (⟨bound, false, true⟩, ds)

def scratchStorage (sizeConst : Option Int) : Reported Storage :=
  let inline_ := firstInt opts base line "inline" defaultInlineBytes
    [(true, "inline"), (true, "inline_bytes"), (false, "inline_bytes")]
  let given : Option String :=
    match entry opts "fallback" with
    | some e => some e.token
    | none => (entry base "fallback").map PolicyValue.token
  let fb := given.getD "pool"
  let valid : Bool := fb = "pool" ∨ fb = "forbidden"
  let invalid : List Diagnostic :=
    if given.isSome ∧ ¬valid then
      [⟨.own030, s!"invalid fallback '{fb}' for scratch buffer; expected 'pool' or 'forbidden'", line, none, none, []⟩]
    else []
  if fb = "pool" then (⟨inline_.1, true, false⟩, inline_.2 ++ invalid)
  else
    -- an invalid value is handled as if the heap were forbidden
    let tooBig : Bool := match sizeConst with
      | none => true
      | some n => decide (n > inline_.1)
    let broken : List Diagnostic :=
      if valid ∧ tooBig then
        [⟨.own023,
          "scratch buffer forbids a heap fallback but its size may exceed " ++
            s!"the inline limit of {inline_.1}; use 'stack' with a 'max =' bound instead",
          line, none, none, []⟩]
      else []
    (⟨inline_.1, false, true⟩, inline_.2 ++ invalid ++ broken)

def storage (mode : BufferMode) (sizeConst : Option Int) : Reported Storage :=
  match mode with
  | .stack | .inline => stackStorage opts base line mode sizeConst
  | .scratch => scratchStorage opts base line sizeConst
  | .pooled => (⟨defaultInlineBytes, true, false⟩, [])
  | .native => (⟨defaultInlineBytes, false, false⟩, [])

end Resolve

def validPolicyKeys : List String :=
  ["clear_on_release", "counters", "fallback", "inline_bytes", "max_bytes", "sensitive", "trace"]

def unknownSetting (pol : Policy) (key : String) : Diagnostic :=
  let expected := ", ".intercalate validPolicyKeys
  ⟨.own030, s!"unknown policy setting '{key}' in policy '{pol.name}'; expected one of {expected}", pol.line, none, none, []⟩

def duplicateSetting (pol : Policy) (key : String) : Diagnostic :=
  ⟨.own030, s!"duplicate policy setting '{key}' in policy '{pol.name}'", pol.line, none, none, []⟩

/-- `validate_policies`: the keys of every policy, said once, at its declaration. -/
def validatePolicies (policies : List (String × Policy)) : List Diagnostic :=
  policies.flatMap fun p =>
    ((p.2.settings.map Prod.fst).filter (· ∉ validPolicyKeys)).map (unknownSetting p.2) ++ p.2.dups.map (duplicateSetting p.2)

/-- The policy an intent refers to: its name and its settings. -/
def policyBase (opts : List (String × Expr)) (policies : List (String × Policy)) (line : Int) :
    Reported (Option String × List (String × PolicyValue)) :=
  match entry opts "policy" with
  | none => ((none, []), [])
  | some e =>
    match e.asIdent with
    | none =>
      ((none, []),
        [⟨.own030, s!"invalid policy reference '{e.token}'; expected a policy name", line, none, none, []⟩])
    | some name =>
      match entry policies name with
      | some p => ((some name, p.settings), [])
      | none => ((some name, []), [⟨.own030, s!"undefined policy '{name}'", line, none, none, []⟩])

def resolve (mode : BufferMode) (size : Option Expr) (opts : List (String × Expr)) (dups : List String) (line : Int)
    (policies : List (String × Policy)) : Reported BufferInfo :=
  let expected := ", ".intercalate validOptions
  let unknown := (opts.filter fun e => e.1 ∉ validOptions).map fun e =>
    (⟨.own030, s!"unknown buffer option '{e.1}'; expected one of {expected}", line, none, none, []⟩ : Diagnostic)
  let repeated := dups.map fun key => (⟨.own030, s!"duplicate buffer option '{key}'", line, none, none, []⟩ : Diagnostic)
  let pol := policyBase opts policies line
  let base := pol.1.2
  let sizeConst := size.bind Expr.asInt
  let st := storage opts base line mode sizeConst
  let tooLarge : List Diagnostic :=
    if mode.stackBacked ∧ st.1.inlineBytes > maxStackBytes then
      [⟨.own019,
        s!"inline capacity {st.1.inlineBytes} bytes is too large for a stack-backed buffer " ++
          s!"(limit {maxStackBytes}); use 'pooled' or raise the policy ceiling deliberately",
        line, none, none, []⟩]
    else []
  let clear := boolFlag opts base line "clear" "clear_on_release" false
  let sensitive := boolFlag opts base line "sensitive" "sensitive" false
  let trace := traceFlag opts base line true
  let counters := boolFlag opts base line "counters" "counters" true
  let uncleared : List Diagnostic :=
    if sensitive.1 ∧ ¬clear.1 then
      [⟨.own024,
        "buffer is marked sensitive but is not cleared on release; add 'clear = true' " ++
          "so its bytes are zeroed before the backing memory is reused",
        line, none, none, []⟩]
    else []
  ({ mode := mode, elem := "byte", sizeConst := sizeConst, sizeVar := size.bind Expr.asIdent,
     inlineBytes := st.1.inlineBytes, fallbackPool := st.1.fallbackPool, fallbackForbidden := st.1.fallbackForbidden,
     clearOnRelease := clear.1, sensitive := sensitive.1, trace := trace.1, counters := counters.1,
     policyName := pol.1.1, line := line },
   unknown ++ repeated ++ pol.2 ++ st.2 ++ tooLarge ++ clear.2 ++ sensitive.2 ++ trace.2 ++ counters.2 ++ uncleared)

end OwnNet.Lang
