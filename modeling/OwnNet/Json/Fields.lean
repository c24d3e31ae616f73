/-
  OwnNet.Json.Fields — reading the fields of an object, and equality of documents as their
  reader has it: a dictionary has no order, and a number no kind.

  Proved: `lookup_of_mem`; `eqv_self`: a document without a NaN equals itself.
-/

import Mathlib.Data.List.Nodup
import OwnNet.Checks
import OwnNet.Dict.Keyed
import OwnNet.Json

namespace OwnNet.Json

open Checks

/-! ## Fields -/

/-- The value of a field that is there. -/
def lookup (fields : List (String × Json)) (key : String) : Option Json := (fields.find? fun f => f.1 = key).map Prod.snd

theorem get_eq (fields : List (String × Json)) (key : String) : get fields key = (lookup fields key).getD .null := by
  unfold get lookup
  cases fields.find? fun f => f.1 = key <;> rfl

/-- Whether a dictionary has these keys, and no others. -/
def hasKeys (fields : List (String × Json)) (keys : List String) : Prop := (fields.map Prod.fst).Perm keys

instance (fields : List (String × Json)) (keys : List String) : Decidable (hasKeys fields keys) :=
  inferInstanceAs (Decidable ((fields.map Prod.fst).Perm keys))

/-- An integer, of any size; a boolean is none. -/
def asInteger : Json → Option Int
  | .int n => some n
  | _ => none

theorem asStr_iff {v : Json} {s : String} : v.asStr = some s ↔ v = .str s := by
  cases v <;> simp [asStr]

theorem asInteger_iff {v : Json} {n : Int} : v.asInteger = some n ↔ v = .int n := by
  cases v <;> simp [asInteger]

theorem asArr_iff {v : Json} {items : List Json} : v.asArr = some items ↔ v = .arr items := by
  cases v <;> simp [asArr]

theorem asObj_iff {v : Json} {f : List (String × Json)} : v.asObj = some f ↔ v = .obj f := by
  cases v <;> simp [asObj]

theorem asBool_iff {v : Json} {b : Bool} : v.asBool = some b ↔ v = .bool b := by
  cases v <;> simp [asBool]

/-- `type(v).__name__` -/
def typeName : Json → String
  | .null => "NoneType"
  | .bool _ => "bool"
  | .int _ => "int"
  | .float _ => "float"
  | .str _ => "str"
  | .arr _ => "list"
  | .obj _ => "dict"

def isNull : Json → Bool
  | .null => true
  | _ => false

/-- The objects of a list that has nothing else. -/
def objects : List Json → Option (List (List (String × Json)))
  | [] => some []
  | .obj f :: rest => (objects rest).map (f :: ·)
  | _ => none

/-- The strings of a list that has nothing else. -/
def strings : List Json → Option (List String)
  | [] => some []
  | .str s :: rest => (strings rest).map (s :: ·)
  | _ => none

theorem objects_eq {items : List Json} {fs : List (List (String × Json))} : objects items = some fs ↔ items = fs.map .obj := by
  induction items generalizing fs with
  | nil => cases fs <;> simp [objects]
  | cons j rest ih =>
    cases j with
    | obj f =>
      rw [objects, Option.map_eq_some_iff]
      constructor
      · rintro ⟨fs', hfs', rfl⟩
        rw [ih.mp hfs']
        rfl
      · intro h
        cases fs with
        | nil => cases h
        | cons f' fs' =>
          cases h
          exact ⟨fs', ih.mpr rfl, rfl⟩
    | _ => cases fs <;> simp [objects]

theorem strings_eq {items : List Json} {ss : List String} : strings items = some ss ↔ items = ss.map .str := by
  induction items generalizing ss with
  | nil => cases ss <;> simp [strings]
  | cons j rest ih =>
    cases j with
    | str s =>
      rw [strings, Option.map_eq_some_iff]
      constructor
      · rintro ⟨ss', hss', rfl⟩
        rw [ih.mp hss']
        rfl
      · intro h
        cases ss with
        | nil => cases h
        | cons s' ss' =>
          cases h
          exact ⟨ss', ih.mpr rfl, rfl⟩
    | _ => cases ss <;> simp [strings]

theorem lookup_of_mem {fields : List (String × Json)} (hn : (fields.map Prod.fst).Nodup) {key : String} {j : Json}
    (h : (key, j) ∈ fields) : lookup fields key = some j :=
  Dict.find_fst_of_mem hn h

/-! ## Equality -/

/-- A boolean or an integer, as a number. -/
def wholeOf : Json → Option Int
  | .bool b => some (if b then 1 else 0)
  | .int n => some n
  | _ => none

/-- Equality of two floats, from their texts. -/
def floatEq (a b : String) : Bool := (a = b ∧ a ≠ "nan") ∨ (a ∈ ["0.0", "-0.0"] ∧ b ∈ ["0.0", "-0.0"])

/-- Whether a float is a whole number, from its text: below ten to the sixteenth it is written out. -/
def floatIs (text : String) (n : Int) : Bool := text = toString n ++ ".0" ∨ (n = 0 ∧ text = "-0.0")

/-- Equality of values that are neither arrays nor objects. -/
def scalarEq (a b : Json) : Bool :=
  match a, b with
  | .null, .null => true
  | .str s, .str t => s = t
  | .float s, .float t => floatEq s t
  | .float s, b => (wholeOf b).any (floatIs s)
  | a, .float t => (wholeOf a).any (floatIs t)
  | a, b =>
    match wholeOf a, wholeOf b with
    | some m, some n => m = n
    | _, _ => false

mutual

/-- `==` -/
def eqv : Json → Json → Bool
  | .arr a, .arr b => eqvItems a b
  | .obj a, .obj b => a.length = b.length && eqvFields a b
  | a, b => scalarEq a b

def eqvItems : List Json → List Json → Bool
  | [], [] => true
  | a :: as, b :: bs => eqv a b && eqvItems as bs
  | _, _ => false

def eqvFields : List (String × Json) → List (String × Json) → Bool
  | [], _ => true
  | (k, v) :: rest, b =>
    (match lookup b k with
      | some w => eqv v w
      | none => false) && eqvFields rest b

end

mutual

/-- A document without a NaN, its keys distinct. -/
def plain : Json → Bool
  | .arr items => plainItems items
  | .obj fields => (fields.map Prod.fst).Nodup && plainFields fields
  | .float t => t ≠ "nan"
  | _ => true

def plainItems : List Json → Bool
  | [] => true
  | j :: rest => plain j && plainItems rest

def plainFields : List (String × Json) → Bool
  | [] => true
  | (_, j) :: rest => plain j && plainFields rest

end

theorem eqvFields_self {fields : List (String × Json)} (hn : (fields.map Prod.fst).Nodup) {sub : List (String × Json)}
    (hsub : ∀ f ∈ sub, f ∈ fields) (h : ∀ f ∈ sub, eqv f.2 f.2 = true) : eqvFields sub fields = true := by
  induction sub with
  | nil => rfl
  | cons f rest ih =>
    obtain ⟨k, v⟩ := f
    rw [eqvFields, lookup_of_mem hn (hsub _ List.mem_cons_self), Bool.and_eq_true]
    exact ⟨h _ List.mem_cons_self, ih (fun f hf => hsub f (List.mem_cons_of_mem _ hf)) fun f hf =>
      h f (List.mem_cons_of_mem _ hf)⟩

theorem eqv_self : ∀ j, plain j = true → eqv j j = true := by
  apply Json.induct (P := fun j => plain j = true → eqv j j = true)
    (Q := fun l => plainItems l = true → eqvItems l l = true)
    (R := fun l => plainFields l = true → ∀ f ∈ l, eqv f.2 f.2 = true)
  · exact fun _ => rfl
  · exact fun b _ => by cases b <;> rfl
  · exact fun n _ => by simp [eqv, scalarEq, wholeOf]
  · intro t ht
    simp only [plain, decide_eq_true_eq] at ht
    simp [eqv, scalarEq, floatEq, ht]
  · exact fun s _ => by simp [eqv, scalarEq]
  · exact fun items ih h => ih h
  · intro fields ih h
    rw [plain, Bool.and_eq_true, decide_eq_true_eq] at h
    rw [eqv, Bool.and_eq_true]
    exact ⟨decide_eq_true rfl, eqvFields_self h.1 (fun _ hf => hf) (ih h.2)⟩
  · exact fun _ => rfl
  · intro j js hj hjs h
    rw [plainItems, Bool.and_eq_true] at h
    rw [eqvItems, Bool.and_eq_true]
    exact ⟨hj h.1, hjs h.2⟩
  · exact fun _ f hf => absurd hf List.not_mem_nil
  · intro k j rest hj hrest h f hf
    rw [plainFields, Bool.and_eq_true] at h
    rcases List.mem_cons.mp hf with rfl | hf
    · exact hj h.1
    · exact hrest h.2 f hf

end OwnNet.Json
