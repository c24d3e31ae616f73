/-
  OwnNet.Lang.Policies — where the bytes of a buffer may live, and what is said of the options
  and settings that decide it.

  A mode reads some of the options, and a setting of the policy only where no option stands in
  its place. What it does not read it does not check: `Buffer.pooled(8, fallback = bogus)` is
  taken without a word (`unread_malformed`), and nothing depends on it (`resolve_reads`).

  Proved: `storage_fail_safe`: an intent nothing is said of keeps to the stack where its mode says
  so, reserves no more of it than the ceiling, and clears what is marked sensitive; an unknown or a
  repeated option or setting is always said, a malformed one where it is read.
-/

import OwnNet.Lang.Buffers
import Mathlib.Data.List.Basic

namespace OwnNet.Lang

/-! ## What a mode reads -/

section Reads

variable (mode : BufferMode) (sizeConst : Option Int) (opts : List (String × Expr))

/-- A bound is looked for: the stack has to hold a size that is not a constant. -/
def bounded : Bool := mode = .stack ∧ sizeConst = none

def readsOption : String → Bool
  | "policy" | "clear" | "sensitive" | "trace" | "counters" => true
  | "fallback" | "inline" => mode = .scratch
  | "inline_bytes" => mode = .scratch ∧ (entry opts "inline").isNone
  | "max" => bounded mode sizeConst
  | "max_bytes" => bounded mode sizeConst ∧ (entry opts "max").isNone
  | _ => false

/-- A setting is read where no option stands before it. -/
def readsSetting : String → Bool
  | "clear_on_release" => (entry opts "clear").isNone
  | "sensitive" => (entry opts "sensitive").isNone
  | "trace" => (entry opts "trace").isNone
  | "counters" => (entry opts "counters").isNone
  | "fallback" => mode = .scratch ∧ (entry opts "fallback").isNone
  | "inline_bytes" => mode = .scratch ∧ (entry opts "inline").isNone ∧ (entry opts "inline_bytes").isNone
  | "max_bytes" => bounded mode sizeConst ∧ (entry opts "max").isNone ∧ (entry opts "max_bytes").isNone
  | _ => false

end Reads

/-! ## What is well formed -/

def Expr.isFlag (e : Expr) : Bool := e.asIdent = some "true" ∨ e.asIdent = some "false"

def isFallback (token : String) : Bool := token = "pool" ∨ token = "forbidden"

def Expr.isTrace (e : Expr) : Bool := e.asIdent.any fun name => name ∈ traceOn ∨ name ∈ traceOff

def PolicyValue.isTrace : PolicyValue → Bool
  | .bool _ => true
  | .str s => s ∈ traceOn ∨ s ∈ traceOff
  | .int _ => false

def wellFormedOption (policies : List (String × Policy)) (key : String) (e : Expr) : Bool :=
  match key with
  | "policy" => e.asIdent.any fun name => (entry policies name).isSome
  | "clear" | "sensitive" | "counters" => e.isFlag
  | "trace" => e.isTrace
  | "fallback" => isFallback e.token
  | _ => e.asInt.isSome

def wellFormedSetting (key : String) (v : PolicyValue) : Bool :=
  match key with
  | "clear_on_release" | "sensitive" | "counters" => v.asBool.isSome
  | "trace" => v.isTrace
  | "fallback" => isFallback v.token
  | _ => v.asInt.isSome

/-! ## What is said -/

section Complaints

variable (line : Int)

def unknownOption (key : String) : Diagnostic :=
  let expected := ", ".intercalate validOptions
  ⟨.own030, s!"unknown buffer option '{key}'; expected one of {expected}", line, none, none, []⟩

def duplicateOption (key : String) : Diagnostic := ⟨.own030, s!"duplicate buffer option '{key}'", line, none, none, []⟩

def flagComplaint (label : String) (e : Expr) : Diagnostic :=
  ⟨.own030, s!"invalid '{label}' value '{e.token}'; expected true or false", line, none, none, []⟩

def intComplaint (label : String) (e : Expr) : Diagnostic :=
  ⟨.own030, s!"invalid '{label}' value '{e.token}'; expected an integer", line, none, none, []⟩

def fallbackComplaint (token : String) : Diagnostic :=
  ⟨.own030, s!"invalid fallback '{token}' for scratch buffer; expected 'pool' or 'forbidden'", line, none, none, []⟩

/-- What is said of a malformed option that is read. -/
def optionComplaint (key : String) (e : Expr) : Diagnostic :=
  match key with
  | "policy" =>
    match e.asIdent with
    | none => ⟨.own030, s!"invalid policy reference '{e.token}'; expected a policy name", line, none, none, []⟩
    | some name => ⟨.own030, s!"undefined policy '{name}'", line, none, none, []⟩
  | "clear" => flagComplaint line "clear_on_release" e
  | "sensitive" => flagComplaint line "sensitive" e
  | "counters" => flagComplaint line "counters" e
  | "trace" => traceFlag.invalid line e.token ""
  | "fallback" => fallbackComplaint line e.token
  | "inline" | "inline_bytes" => intComplaint line "inline" e
  | key => intComplaint line key e

def flagSettingComplaint (label : String) (v : PolicyValue) : Diagnostic :=
  ⟨.own030, s!"invalid '{label}' value '{v.text}' in policy; expected true or false", line, none, none, []⟩

def intSettingComplaint (label value : String) : Diagnostic :=
  ⟨.own030, s!"invalid '{label}' value '{value}' in policy; expected an integer", line, none, none, []⟩

/-- What is said of a malformed setting that is read. -/
def settingComplaint (key : String) (v : PolicyValue) : Diagnostic :=
  match key with
  | "clear_on_release" => flagSettingComplaint line "clear_on_release" v
  | "sensitive" => flagSettingComplaint line "sensitive" v
  | "counters" => flagSettingComplaint line "counters" v
  | "trace" => traceFlag.invalid line v.text " in policy"
  | "fallback" => fallbackComplaint line v.token
  | "inline_bytes" => intSettingComplaint line "inline" v.token
  | key => intSettingComplaint line key v.text

end Complaints

/-! ## One option at a time -/

section Sources

variable {opts : List (String × Expr)} {base : List (String × PolicyValue)} {line : Int}

theorem boolFlag_option {option setting : String} {default : Bool} {e : Expr} (he : entry opts option = some e)
    (hbad : e.isFlag = false) : (boolFlag opts base line option setting default).2 = [flagComplaint line setting e] := by
  have hbad : e.asIdent ≠ some "true" ∧ e.asIdent ≠ some "false" := by simpa [Expr.isFlag] using hbad
  unfold boolFlag
  rw [he]
  simp only [if_neg hbad.1, if_neg hbad.2]
  rfl

theorem boolFlag_setting {option setting : String} {default : Bool} {v : PolicyValue} (he : entry opts option = none)
    (hv : entry base setting = some v) (hbad : v.asBool = none) :
    (boolFlag opts base line option setting default).2 = [flagSettingComplaint line setting v] := by
  unfold boolFlag
  rw [he, hv]
  simp only [hbad]
  rfl

theorem traceFlag_option {default : Bool} {e : Expr} (he : entry opts "trace" = some e) (hbad : e.isTrace = false) :
    (traceFlag opts base line default).2 = [traceFlag.invalid line e.token ""] := by
  unfold traceFlag
  rw [he]
  cases hn : e.asIdent with
  | none => simp only [hn]
  | some name =>
    have hname : name ∉ traceOn ∧ name ∉ traceOff := by simpa [Expr.isTrace, hn] using hbad
    simp only [hn, if_neg hname.1, if_neg hname.2]

theorem traceFlag_setting {default : Bool} {v : PolicyValue} (he : entry opts "trace" = none) (hv : entry base "trace" = some v)
    (hbad : v.isTrace = false) : (traceFlag opts base line default).2 = [traceFlag.invalid line v.text " in policy"] := by
  unfold traceFlag
  rw [he, hv]
  cases v with
  | bool b => cases hbad
  | int n => rfl
  | str s =>
    have hs : s ∉ traceOn ∧ s ∉ traceOff := by simpa [PolicyValue.isTrace] using hbad
    simp only [if_neg hs.1, if_neg hs.2]

theorem optInt_option {name : String} {default : Int} {e : Expr} (he : entry opts name = some e) (hbad : e.asInt = none) :
    (optInt opts base line name default) = (default, [intComplaint line name e]) := by
  unfold optInt
  rw [he]
  simp only [hbad]
  rfl

theorem optInt_setting {name : String} {default : Int} {v : PolicyValue} (he : entry opts name = none)
    (hv : entry base name = some v) (hbad : v.asInt = none) :
    (optInt opts base line name default) = (default, [intSettingComplaint line name v.text]) := by
  unfold optInt
  rw [he, hv]
  simp only [hbad]
  rfl

/-- The inline capacity of a scratch buffer. -/
def inlineOf (opts : List (String × Expr)) (base : List (String × PolicyValue)) (line : Int) : Reported Int :=
  firstInt opts base line "inline" defaultInlineBytes [(true, "inline"), (true, "inline_bytes"), (false, "inline_bytes")]

theorem inlineOf_inline {e : Expr} (he : entry opts "inline" = some e) (hbad : e.asInt = none) :
    (inlineOf opts base line).2 = [intComplaint line "inline" e] := by
  simp only [inlineOf, firstInt, he, hbad]
  rfl

theorem inlineOf_inlineBytes {e : Expr} (hno : entry opts "inline" = none) (he : entry opts "inline_bytes" = some e)
    (hbad : e.asInt = none) : (inlineOf opts base line).2 = [intComplaint line "inline" e] := by
  simp only [inlineOf, firstInt, hno, he, hbad]
  rfl

theorem inlineOf_setting {v : PolicyValue} (hno : entry opts "inline" = none) (hno' : entry opts "inline_bytes" = none)
    (hv : entry base "inline_bytes" = some v) (hbad : v.asInt = none) :
    (inlineOf opts base line).2 = [intSettingComplaint line "inline" v.token] := by
  simp only [inlineOf, firstInt, hno, hno', hv, hbad]
  rfl

/-! ## Where the bytes may live -/

/-- The fallback that is asked for, by its text. -/
def fallbackOf (opts : List (String × Expr)) (base : List (String × PolicyValue)) : Option String :=
  match entry opts "fallback" with
  | some e => some e.token
  | none => (entry base "fallback").map PolicyValue.token

variable {sizeConst : Option Int}

def overflows (sizeConst : Option Int) (inlineBytes : Int) : Bool :=
  match sizeConst with
  | none => true
  | some n => decide (n > inlineBytes)

/-- A scratch buffer without a heap to fall back to, whose size the inline limit may not hold. -/
def heaplessComplaint (line inlineBytes : Int) : Diagnostic :=
  ⟨.own023,
    "scratch buffer forbids a heap fallback but its size may exceed " ++
      s!"the inline limit of {inlineBytes}; use 'stack' with a 'max =' bound instead",
    line, none, none, []⟩

theorem scratchStorage_eq : scratchStorage opts base line sizeConst =
    let fb := (fallbackOf opts base).getD "pool"
    let inline_ := inlineOf opts base line
    let invalid := if (fallbackOf opts base).isSome ∧ ¬isFallback fb then [fallbackComplaint line fb] else []
    if fb = "pool" then (⟨inline_.1, true, false⟩, inline_.2 ++ invalid)
    else (⟨inline_.1, false, true⟩, inline_.2 ++ invalid ++
      if isFallback fb ∧ overflows sizeConst inline_.1 then [heaplessComplaint line inline_.1] else []) := rfl

theorem scratch_inlineBytes : (scratchStorage opts base line sizeConst).1.inlineBytes = (inlineOf opts base line).1 := by
  rw [scratchStorage_eq]
  simp only
  split <;> rfl

theorem scratch_pool : (scratchStorage opts base line sizeConst).1.fallbackPool = true ↔
    fallbackOf opts base = none ∨ fallbackOf opts base = some "pool" := by
  rw [scratchStorage_eq]
  cases hf : fallbackOf opts base with
  | none => simp
  | some fb =>
    by_cases hpool : fb = "pool"
    · simp [hpool]
    · simp [hpool]

theorem scratch_inline_said {d : Diagnostic} (h : d ∈ (inlineOf opts base line).2) :
    d ∈ (scratchStorage opts base line sizeConst).2 := by
  rw [scratchStorage_eq]
  simp only
  split
  · exact List.mem_append_left _ h
  · exact List.mem_append_left _ (List.mem_append_left _ h)

theorem scratch_fallback_said {fb : String} (hf : fallbackOf opts base = some fb) (hbad : isFallback fb = false) :
    fallbackComplaint line fb ∈ (scratchStorage opts base line sizeConst).2 := by
  have hpool : fb ≠ "pool" := fun h => by simp [h, isFallback] at hbad
  rw [scratchStorage_eq, hf]
  simp [hpool, hbad]

/-- A scratch buffer that nothing is said of and that has no heap to fall back to fits inline. -/
theorem scratch_fits (hno : (scratchStorage opts base line sizeConst).2 = [])
    (hpool : (scratchStorage opts base line sizeConst).1.fallbackPool = false) {n : Int} (hn : sizeConst = some n) :
    n ≤ (inlineOf opts base line).1 := by
  rw [scratchStorage_eq] at hno hpool
  cases hf : fallbackOf opts base with
  | none => simp [hf] at hpool
  | some fb =>
    by_cases hp : fb = "pool"
    · simp [hf, hp] at hpool
    · subst hn
      simp only [hf, Option.getD_some, Option.isSome_some, if_neg hp, List.append_eq_nil_iff, true_and] at hno
      have hvalid : isFallback fb = true := by
        by_contra hbad
        simp [hbad] at hno
      simp only [hvalid, overflows, true_and, decide_eq_true_eq] at hno
      by_contra hover
      simp [Int.not_le.mp hover] at hno

/-- `stack` and `inline` never go to the heap. -/
theorem stack_heapless (mode : BufferMode) : (stackStorage opts base line mode sizeConst).1.fallbackPool = false ∧
    (stackStorage opts base line mode sizeConst).1.fallbackForbidden = true := by
  have hbounded : ∀ b ds, (stackStorage.bounded line mode b ds).1.fallbackPool = false ∧
      (stackStorage.bounded line mode b ds).1.fallbackForbidden = true := by
    intro b ds
    unfold stackStorage.bounded
    split
    · exact ⟨rfl, rfl⟩
    · exact ⟨rfl, rfl⟩
  unfold stackStorage
  cases sizeConst with
  | some n => exact ⟨rfl, rfl⟩
  | none =>
    by_cases hinline : mode = .inline
    · simp only [hinline, if_true, and_self]
    · simp only [if_neg hinline]
      cases entry opts "max" with
      | none => exact hbounded _ _
      | some e =>
        cases he : e.asInt with
        | none => simp only [Option.map_some, he, and_self]
        | some v =>
          simp only [Option.map_some, he]
          exact hbounded _ _

theorem stack_max_said {mode : BufferMode} (hb : bounded mode sizeConst = true) {e : Expr} (he : entry opts "max" = some e)
    (hbad : e.asInt = none) : intComplaint line "max" e ∈ (stackStorage opts base line mode sizeConst).2 := by
  obtain ⟨rfl, rfl⟩ : mode = .stack ∧ sizeConst = none := by simpa [bounded] using hb
  simp only [stackStorage, he, Option.map_some, hbad]
  exact List.mem_singleton.mpr rfl

theorem stack_maxBytes_said {mode : BufferMode} (hb : bounded mode sizeConst = true)
    (hno : entry opts "max" = none) {d : Diagnostic}
    (hd : d ∈ (optInt opts base line "max_bytes" (-1)).2) : d ∈ (stackStorage opts base line mode sizeConst).2 := by
  obtain ⟨rfl, rfl⟩ : mode = .stack ∧ sizeConst = none := by simpa [bounded] using hb
  simp only [stackStorage, hno, Option.map_none, reduceCtorEq, if_false]
  unfold stackStorage.bounded
  split
  · exact List.mem_append_left _ hd
  · exact hd

/-- A flag that no option sets is the setting's. -/
theorem boolFlag_marked {option setting : String} {default : Bool}
    (h : (∃ e, entry opts option = some e ∧ e.asIdent = some "true") ∨ entry opts option = none ∧
      entry base setting = some (.bool true)) :
    (boolFlag opts base line option setting default).1 = true := by
  unfold boolFlag
  rcases h with ⟨e, he, hname⟩ | ⟨he, hv⟩
  · rw [he]
    simp only [hname, if_true]
  · rw [he, hv]
    rfl

end Sources

/-! ## The whole resolution -/

section Resolution

variable (mode : BufferMode) (size : Option Expr) (opts : List (String × Expr)) (dups : List String) (line : Int)
  (policies : List (String × Policy))

/-- The settings of the policy an intent refers to. -/
def settingsOf : List (String × PolicyValue) := (policyBase opts policies line).1.2

def isSensitive (opts : List (String × Expr)) (base : List (String × PolicyValue)) : Prop :=
  (∃ e, entry opts "sensitive" = some e ∧ e.asIdent = some "true") ∨
    entry opts "sensitive" = none ∧ entry base "sensitive" = some (.bool true)

/-- Nothing but the stack holds the bytes. -/
def BufferInfo.stackOnly (info : BufferInfo) : Bool := info.mode.stackBacked ∧ ¬info.fallbackPool

/-- What an intent nothing is said of promises. -/
structure FailSafe (opts : List (String × Expr)) (base : List (String × PolicyValue)) (info : BufferInfo) : Prop where
  stack : info.mode = .stack ∨ info.mode = .inline → info.fallbackPool = false ∧ info.fallbackForbidden = true
  scratch : info.mode = .scratch → (info.fallbackPool = true ↔ fallbackOf opts base = none ∨ fallbackOf opts base = some "pool")
  ceiling : info.mode.stackBacked = true → info.inlineBytes ≤ maxStackBytes
  fits : info.stackOnly = true → ∀ n, info.sizeConst = some n → n ≤ info.inlineBytes
  cleared : isSensitive opts base → info.sensitive = true ∧ info.clearOnRelease = true

/-- What is said of options and settings. -/
structure Diagnosed (ds ps : List Diagnostic) : Prop where
  unknown : ∀ e ∈ opts, e.1 ∉ validOptions → unknownOption line e.1 ∈ ds
  repeated : ∀ key ∈ dups, duplicateOption line key ∈ ds
  malformed : ∀ key e, entry opts key = some e → readsOption mode (size.bind Expr.asInt) opts key = true →
    wellFormedOption policies key e = false → optionComplaint line key e ∈ ds
  setting : ∀ key v, entry (settingsOf opts line policies) key = some v →
    readsSetting mode (size.bind Expr.asInt) opts key = true →
    wellFormedSetting key v = false → settingComplaint line key v ∈ ds
  unknown_setting : ∀ p ∈ policies, ∀ s ∈ p.2.settings, s.1 ∉ validPolicyKeys → unknownSetting p.2 s.1 ∈ ps
  repeated_setting : ∀ p ∈ policies, ∀ key ∈ p.2.dups, duplicateSetting p.2 key ∈ ps

variable {mode size opts dups line policies}

theorem settings_eq : (policyBase opts policies line).1.2 = settingsOf opts line policies := rfl

/-- What is said where. -/
theorem resolve_said {d : Diagnostic} (h : (∃ e ∈ opts, e.1 ∉ validOptions ∧ unknownOption line e.1 = d) ∨
    (∃ key ∈ dups, duplicateOption line key = d) ∨ d ∈ (policyBase opts policies line).2 ∨
    d ∈ (storage opts (settingsOf opts line policies) line mode (size.bind Expr.asInt)).2 ∨
    d ∈ (boolFlag opts (settingsOf opts line policies) line "clear" "clear_on_release" false).2 ∨
    d ∈ (boolFlag opts (settingsOf opts line policies) line "sensitive" "sensitive" false).2 ∨
    d ∈ (traceFlag opts (settingsOf opts line policies) line true).2 ∨
    d ∈ (boolFlag opts (settingsOf opts line policies) line "counters" "counters" true).2) :
    d ∈ (resolve mode size opts dups line policies).2 := by
  unfold resolve
  simp only [List.mem_append, settings_eq]
  rcases h with ⟨e, he, hout, rfl⟩ | ⟨key, hkey, rfl⟩ | h | h | h | h | h | h
  · have hin : e ∈ opts.filter fun e => e.1 ∉ validOptions := List.mem_filter.mpr ⟨he, decide_eq_true hout⟩
    iterate 9 left
    exact List.mem_map.mpr ⟨e, hin, rfl⟩
  · iterate 8 left
    right
    exact List.mem_map.mpr ⟨key, hkey, rfl⟩
  all_goals simp only [h, true_or, or_true]

theorem policyBase_said {e : Expr} (he : entry opts "policy" = some e)
    (hbad : (e.asIdent.any fun name => (entry policies name).isSome) = false) :
    optionComplaint line "policy" e ∈ (policyBase opts policies line).2 := by
  unfold policyBase
  rw [he]
  cases hn : e.asIdent with
  | none => simp only [hn, optionComplaint, List.mem_singleton]
  | some name =>
    have hname : entry policies name = none := by simpa [hn] using hbad
    simp only [hn, hname, optionComplaint, List.mem_singleton]

theorem malformed_said {key : String} {e : Expr} (he : entry opts key = some e)
    (hread : readsOption mode (size.bind Expr.asInt) opts key = true) (hbad : wellFormedOption policies key e = false) :
    optionComplaint line key e ∈ (resolve mode size opts dups line policies).2 := by
  have hstorage : ∀ d, d ∈ (storage opts (settingsOf opts line policies) line mode (size.bind Expr.asInt)).2 →
      d ∈ (resolve mode size opts dups line policies).2 := fun d hd => resolve_said (.inr (.inr (.inr (.inl hd))))
  have hstack : ∀ d, bounded mode (size.bind Expr.asInt) = true →
      d ∈ (stackStorage opts (settingsOf opts line policies) line mode (size.bind Expr.asInt)).2 →
      d ∈ (resolve mode size opts dups line policies).2 := by
    intro d hb hd
    have hmode : mode = .stack ∧ size.bind Expr.asInt = none := by simpa [bounded] using hb
    obtain ⟨rfl, -⟩ := hmode
    exact hstorage d hd
  unfold readsOption at hread
  split at hread
  · exact resolve_said (.inr (.inr (.inl (policyBase_said he hbad))))
  · exact resolve_said (.inr (.inr (.inr (.inr (.inl (boolFlag_option he hbad ▸ List.mem_singleton.mpr rfl))))))
  · exact resolve_said (.inr (.inr (.inr (.inr (.inr (.inl (boolFlag_option he hbad ▸ List.mem_singleton.mpr rfl)))))))
  · exact resolve_said (.inr (.inr (.inr (.inr (.inr (.inr (.inl (traceFlag_option he hbad ▸ List.mem_singleton.mpr rfl))))))))
  · exact resolve_said (.inr (.inr (.inr (.inr (.inr (.inr (.inr (boolFlag_option he hbad ▸ List.mem_singleton.mpr rfl))))))))
  · obtain rfl : mode = .scratch := by simpa using hread
    have hf : fallbackOf opts (settingsOf opts line policies) = some e.token := by rw [fallbackOf, he]
    exact hstorage _ (scratch_fallback_said hf hbad)
  · obtain rfl : mode = .scratch := by simpa using hread
    have hnone : e.asInt = none := by simpa [wellFormedOption] using hbad
    exact hstorage _ (scratch_inline_said (inlineOf_inline he hnone ▸ List.mem_singleton.mpr rfl))
  · obtain ⟨rfl, hno⟩ : mode = .scratch ∧ entry opts "inline" = none := by simpa using hread
    have hnone : e.asInt = none := by simpa [wellFormedOption] using hbad
    exact hstorage _ (scratch_inline_said (inlineOf_inlineBytes hno he hnone ▸ List.mem_singleton.mpr rfl))
  · have hnone : e.asInt = none := by simpa [wellFormedOption] using hbad
    exact hstack _ hread (stack_max_said hread he hnone)
  · obtain ⟨hb, hno⟩ : bounded mode (size.bind Expr.asInt) = true ∧ entry opts "max" = none := by simpa using hread
    have hnone : e.asInt = none := by simpa [wellFormedOption] using hbad
    refine hstack _ hb (stack_maxBytes_said hb hno ?_)
    rw [optInt_option he hnone]
    exact List.mem_singleton.mpr rfl
  · cases hread

theorem setting_said {key : String} {v : PolicyValue} (hv : entry (settingsOf opts line policies) key = some v)
    (hread : readsSetting mode (size.bind Expr.asInt) opts key = true) (hbad : wellFormedSetting key v = false) :
    settingComplaint line key v ∈ (resolve mode size opts dups line policies).2 := by
  have hstorage : ∀ d, d ∈ (storage opts (settingsOf opts line policies) line mode (size.bind Expr.asInt)).2 →
      d ∈ (resolve mode size opts dups line policies).2 := fun d hd => resolve_said (.inr (.inr (.inr (.inl hd))))
  have hflag : ∀ {setting : String}, wellFormedSetting setting v = false → (setting = "clear_on_release" ∨ setting = "sensitive" ∨
      setting = "counters") → v.asBool = none := by
    rintro setting hbad (rfl | rfl | rfl) <;> simpa [wellFormedSetting] using hbad
  unfold readsSetting at hread
  split at hread
  · have hno : entry opts "clear" = none := by simpa using hread
    refine resolve_said (.inr (.inr (.inr (.inr (.inl ?_)))))
    exact boolFlag_setting hno hv (hflag hbad (.inl rfl)) ▸ List.mem_singleton.mpr rfl
  · have hno : entry opts "sensitive" = none := by simpa using hread
    refine resolve_said (.inr (.inr (.inr (.inr (.inr (.inl ?_))))))
    exact boolFlag_setting hno hv (hflag hbad (.inr (.inl rfl))) ▸ List.mem_singleton.mpr rfl
  · have hno : entry opts "trace" = none := by simpa using hread
    refine resolve_said (.inr (.inr (.inr (.inr (.inr (.inr (.inl ?_)))))))
    exact traceFlag_setting hno hv hbad ▸ List.mem_singleton.mpr rfl
  · have hno : entry opts "counters" = none := by simpa using hread
    refine resolve_said (.inr (.inr (.inr (.inr (.inr (.inr (.inr ?_)))))))
    exact boolFlag_setting hno hv (hflag hbad (.inr (.inr rfl))) ▸ List.mem_singleton.mpr rfl
  · obtain ⟨rfl, hno⟩ : mode = .scratch ∧ entry opts "fallback" = none := by simpa using hread
    have hf : fallbackOf opts (settingsOf opts line policies) = some v.token := by
      rw [fallbackOf, hno, hv]
      rfl
    exact hstorage _ (scratch_fallback_said hf hbad)
  · obtain ⟨rfl, hno, hno'⟩ : mode = .scratch ∧ entry opts "inline" = none ∧ entry opts "inline_bytes" = none := by
      simpa using hread
    have hnone : v.asInt = none := by simpa [wellFormedSetting] using hbad
    exact hstorage _ (scratch_inline_said (inlineOf_setting hno hno' hv hnone ▸ List.mem_singleton.mpr rfl))
  · obtain ⟨hb, hno, hno'⟩ : bounded mode (size.bind Expr.asInt) = true ∧ entry opts "max" = none ∧
        entry opts "max_bytes" = none := by
      simpa using hread
    have hmode : mode = .stack ∧ size.bind Expr.asInt = none := by simpa [bounded] using hb
    have hnone : v.asInt = none := by simpa [wellFormedSetting] using hbad
    have hsaid : settingComplaint line "max_bytes" v ∈
        (stackStorage opts (settingsOf opts line policies) line mode (size.bind Expr.asInt)).2 := by
      refine stack_maxBytes_said hb hno ?_
      rw [optInt_setting hno' hv hnone]
      exact List.mem_singleton.mpr rfl
    obtain ⟨rfl, -⟩ := hmode
    exact hstorage _ hsaid
  · cases hread

theorem diagnosed : Diagnosed mode size opts dups line policies (resolve mode size opts dups line policies).2
    (validatePolicies policies) where
  unknown e he hout := resolve_said (.inl ⟨e, he, hout, rfl⟩)
  repeated key hkey := resolve_said (.inr (.inl ⟨key, hkey, rfl⟩))
  malformed _ _ he hread hbad := malformed_said he hread hbad
  setting _ _ hv hread hbad := setting_said hv hread hbad
  unknown_setting p hp s hs hout := by
    refine List.mem_flatMap.mpr ⟨p, hp, List.mem_append_left _ (List.mem_map.mpr ⟨s.1, List.mem_filter.mpr ⟨?_, ?_⟩, rfl⟩)⟩
    · exact List.mem_map.mpr ⟨s, hs, rfl⟩
    · exact decide_eq_true hout
  repeated_setting p hp key hkey :=
    List.mem_flatMap.mpr ⟨p, hp, List.mem_append_right _ (List.mem_map.mpr ⟨key, hkey, rfl⟩)⟩

theorem ite_nil {p : Prop} [Decidable p] {d : Diagnostic} : (if p then [d] else []) = [] ↔ ¬p := by
  by_cases hp : p
  · simp [hp]
  · simp [hp]

/-- A buffer that only the stack holds fits what is reserved of it. -/
theorem stackOnly_fits (hno : (storage opts (settingsOf opts line policies) line mode (size.bind Expr.asInt)).2 = [])
    (honly : (resolve mode size opts dups line policies).1.stackOnly = true) {n : Int} (hn : size.bind Expr.asInt = some n) :
    n ≤ (storage opts (settingsOf opts line policies) line mode (size.bind Expr.asInt)).1.inlineBytes := by
  obtain ⟨hbacked, hpool⟩ : (resolve mode size opts dups line policies).1.mode.stackBacked = true ∧
      (resolve mode size opts dups line policies).1.fallbackPool = false := by
    simpa [BufferInfo.stackOnly] using honly
  cases mode with
  | stack =>
    simp only [storage, stackStorage, hn]
    exact Int.le_refl n
  | inline =>
    simp only [storage, stackStorage, hn]
    exact Int.le_refl n
  | scratch =>
    have hinline : (storage opts (settingsOf opts line policies) line .scratch (size.bind Expr.asInt)).1.inlineBytes =
        (inlineOf opts (settingsOf opts line policies) line).1 := scratch_inlineBytes
    rw [hinline]
    exact scratch_fits hno hpool hn
  | pooled => cases hbacked
  | native => cases hbacked

/-- An intent nothing is said of. -/
theorem fail_safe (h : (resolve mode size opts dups line policies).2 = []) :
    FailSafe opts (settingsOf opts line policies) (resolve mode size opts dups line policies).1 := by
  have hsilent := h
  unfold resolve at hsilent
  simp only [List.append_eq_nil_iff, ite_nil] at hsilent
  obtain ⟨⟨⟨⟨⟨⟨⟨-, hstorage⟩, hlarge⟩, -⟩, -⟩, -⟩, -⟩, huncleared⟩ := hsilent
  refine ⟨fun hmode => ?_, fun hmode => ?_, fun hmode => ?_, fun honly n hn => ?_, fun hmarked => ?_⟩
  · rcases hmode with rfl | rfl
    · exact stack_heapless .stack
    · exact stack_heapless .inline
  · change mode = .scratch at hmode
    subst hmode
    exact scratch_pool
  · by_contra hover
    exact hlarge ⟨hmode, Int.not_le.mp hover⟩
  · exact stackOnly_fits hstorage honly hn
  · have hsensitive : (boolFlag opts (settingsOf opts line policies) line "sensitive" "sensitive" false).1 = true :=
      boolFlag_marked hmarked
    refine ⟨hsensitive, ?_⟩
    by_contra hclear
    exact huncleared ⟨hsensitive, hclear⟩

/-! ## What is not read -/

/-- Two sources of one intent, alike in what is read of them. -/
structure SameRead (mode : BufferMode) (sizeConst : Option Int) (opts opts' : List (String × Expr))
    (base base' : List (String × PolicyValue)) : Prop where
  options : ∀ key, readsOption mode sizeConst opts key = true → entry opts' key = entry opts key
  settings : ∀ key, readsSetting mode sizeConst opts key = true → entry base' key = entry base key

section Same

variable {sizeConst : Option Int} {opts' : List (String × Expr)} {base base' : List (String × PolicyValue)}

theorem boolFlag_same (line : Int) {option setting : String} (default : Bool) (ho : entry opts' option = entry opts option)
    (hs : entry opts option = none → entry base' setting = entry base setting) :
    boolFlag opts' base' line option setting default = boolFlag opts base line option setting default := by
  unfold boolFlag
  rw [ho]
  cases he : entry opts option with
  | none => rw [hs he]
  | some e => rfl

theorem traceFlag_same (line : Int) (default : Bool) (ho : entry opts' "trace" = entry opts "trace")
    (hs : entry opts "trace" = none → entry base' "trace" = entry base "trace") :
    traceFlag opts' base' line default = traceFlag opts base line default := by
  unfold traceFlag
  rw [ho]
  cases he : entry opts "trace" with
  | none => rw [hs he]
  | some e => rfl

theorem inlineOf_same (h : SameRead .scratch sizeConst opts opts' base base') :
    inlineOf opts' base' line = inlineOf opts base line := by
  simp only [inlineOf, firstInt]
  rw [h.options "inline" rfl]
  cases hi : entry opts "inline" with
  | some e => rfl
  | none =>
    rw [h.options "inline_bytes" (by simp [readsOption, hi])]
    cases hb : entry opts "inline_bytes" with
    | some e => rfl
    | none => rw [h.settings "inline_bytes" (by simp [readsSetting, hi, hb])]

theorem fallbackOf_same (h : SameRead .scratch sizeConst opts opts' base base') :
    fallbackOf opts' base' = fallbackOf opts base := by
  unfold fallbackOf
  rw [h.options "fallback" rfl]
  cases hf : entry opts "fallback" with
  | some e => rfl
  | none => rw [h.settings "fallback" (by simp [readsSetting, hf])]

theorem storage_same (line : Int) (h : SameRead mode sizeConst opts opts' base base') :
    storage opts' base' line mode sizeConst = storage opts base line mode sizeConst := by
  cases mode with
  | stack =>
    cases sizeConst with
    | some n => rfl
    | none =>
      simp only [storage, stackStorage, reduceCtorEq, if_false]
      rw [h.options "max" (by simp [readsOption, bounded])]
      cases hm : entry opts "max" with
      | some e => cases hi : e.asInt <;> simp only [Option.map_some, hi]
      | none =>
        have hint : optInt opts' base' line "max_bytes" (-1) = optInt opts base line "max_bytes" (-1) := by
          unfold optInt
          rw [h.options "max_bytes" (by simp [readsOption, bounded, hm])]
          cases hb : entry opts "max_bytes" with
          | some e => rfl
          | none => rw [h.settings "max_bytes" (by simp [readsSetting, bounded, hm, hb])]
        rw [hint]
  | inline =>
    cases sizeConst with
    | some n => rfl
    | none => rfl
  | scratch =>
    simp only [storage]
    rw [scratchStorage_eq, scratchStorage_eq, inlineOf_same h, fallbackOf_same h]
  | pooled => rfl
  | native => rfl

end Same

/-- What is resolved depends on nothing that is not read. -/
theorem resolve_reads {opts' : List (String × Expr)} {dups' : List String} {policies' : List (String × Policy)}
    (h : SameRead mode (size.bind Expr.asInt) opts opts' (settingsOf opts line policies) (settingsOf opts' line policies')) :
    (resolve mode size opts' dups' line policies').1 = (resolve mode size opts dups line policies).1 := by
  have hname : ∀ opts policies, (policyBase opts policies line).1.1 = (entry opts "policy").bind Expr.asIdent := by
    intro opts policies
    unfold policyBase
    cases entry opts "policy" with
    | none => rfl
    | some e =>
      cases hn : e.asIdent with
      | none => simp only [hn, Option.bind_some]
      | some name =>
        simp only [hn, Option.bind_some]
        cases entry policies name with
        | none => rfl
        | some p => rfl
  have hclear := boolFlag_same line false (h.options "clear" rfl) fun hno =>
    h.settings "clear_on_release" (by simp [readsSetting, hno])
  have hsensitive := boolFlag_same line false (h.options "sensitive" rfl) fun hno =>
    h.settings "sensitive" (by simp [readsSetting, hno])
  have htrace := traceFlag_same line true (h.options "trace" rfl) fun hno =>
    h.settings "trace" (by simp [readsSetting, hno])
  have hcounters := boolFlag_same line true (h.options "counters" rfl) fun hno =>
    h.settings "counters" (by simp [readsSetting, hno])
  have hstorage := storage_same line h
  unfold resolve
  simp only [settings_eq, hname, hclear, hsensitive, htrace, hcounters, hstorage]
  rw [h.options "policy" rfl]

/-! ## Both -/

/-- **Storage is resolved fail-safe.** -/
theorem storage_fail_safe (mode : BufferMode) (size : Option Expr) (opts : List (String × Expr)) (dups : List String) (line : Int)
    (policies : List (String × Policy)) :
    ((resolve mode size opts dups line policies).2 = [] → validatePolicies policies = [] →
      FailSafe opts (settingsOf opts line policies) (resolve mode size opts dups line policies).1) ∧
      Diagnosed mode size opts dups line policies (resolve mode size opts dups line policies).2 (validatePolicies policies) ∧
      ∀ opts' dups' policies',
        SameRead mode (size.bind Expr.asInt) opts opts' (settingsOf opts line policies) (settingsOf opts' line policies') →
        (resolve mode size opts' dups' line policies').1 = (resolve mode size opts dups line policies).1 :=
  ⟨fun h _ => fail_safe h, diagnosed, fun _ _ _ h => resolve_reads h⟩

/-- `Buffer.pooled(8, fallback = bogus)`: not everything malformed is said. -/
theorem unread_malformed : ¬∀ (mode : BufferMode) (size : Option Expr) (opts : List (String × Expr))
    (dups : List String) (line : Int)
    (policies : List (String × Policy)), (resolve mode size opts dups line policies).2 = [] → validatePolicies policies = [] →
    ∀ e ∈ opts, wellFormedOption policies e.1 e.2 = true := by
  intro h
  have := h .pooled (some (.intLit 8 1)) [("fallback", .varRef "bogus" 1)] [] 1 [] (by decide)
    (by decide) _ (List.mem_singleton.mpr rfl)
  revert this
  decide

end Resolution

end OwnNet.Lang
