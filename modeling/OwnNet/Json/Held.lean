/-
  OwnNet.Json.Held — values as a container holds them: two of them are one where they are equal
  or the same object, so a NaN, of which a document has only one, is one with itself.

  A float is compared with an integer as the number it is: from ten to the sixteenth on its text
  is a decimal that the float is only the nearest to.
-/

import OwnNet.Json.Fields

namespace OwnNet.Json

/-! ## Whole floats -/

/-- The integer a float has for `n`: 53 bits of it, the even one of two that are as near. -/
def nearest (n : Nat) : Nat :=
  let unit := 1 <<< (n.log2 + 1 - 53)
  (if unit < 2 * (n % unit) ∨ (2 * (n % unit) = unit ∧ n / unit % 2 = 1) then n / unit + 1 else n / unit) * unit

def digitsValue (ds : List Char) : Nat := ds.foldl (fun n c => 10 * n + (c.toNat - 48)) 0

/-- A float without its sign, where it is whole: it is written out with the fraction zero, or with an exponent. -/
def wholeText (cs : List Char) : Option Nat :=
  let mantissa := cs.takeWhile (· ≠ 'e')
  let whole := mantissa.takeWhile (· ≠ '.')
  let fraction := (mantissa.dropWhile (· ≠ '.')).drop 1
  match cs.dropWhile (· ≠ 'e') with
  | 'e' :: '+' :: exponent =>
    some (nearest (digitsValue (whole ++ fraction ++ List.replicate (digitsValue exponent - fraction.length) '0')))
  | [] => if fraction = ['0'] then some (digitsValue whole) else none
  | _ => none

def wholeFloat (text : String) : Option Int :=
  match text.toList with
  | '-' :: cs => (wholeText cs).map fun n => -(n : Int)
  | cs => (wholeText cs).map fun n => (n : Int)

example : wholeFloat "-3.0" = some (-3) := by decide
example : wholeFloat "1e+23" = some 99999999999999991611392 := by decide

/-- A boolean, an integer or a whole float, as a number. -/
def numberOf : Json → Option Int
  | .float t => wholeFloat t
  | j => wholeOf j

/-! ## One value -/

/-- Values that are neither arrays nor objects. -/
def heldScalar : Json → Json → Bool
  | .null, .null => true
  | .str s, .str t => s = t
  | .float s, .float t => s = t ∨ (s ∈ ["0.0", "-0.0"] ∧ t ∈ ["0.0", "-0.0"])
  | a, b =>
    match numberOf a, numberOf b with
    | some m, some n => m = n
    | _, _ => false

mutual

/-- `a is b or a == b` -/
def held : Json → Json → Bool
  | .arr a, .arr b => heldItems a b
  | .obj a, .obj b => heldFields a b && b.all fun f => (lookup a f.1).isSome
  | a, b => heldScalar a b

def heldItems : List Json → List Json → Bool
  | [], [] => true
  | a :: as, b :: bs => held a b && heldItems as bs
  | _, _ => false

def heldFields : List (String × Json) → List (String × Json) → Bool
  | [], _ => true
  | (k, v) :: rest, b =>
    (match lookup b k with
      | some w => held v w
      | none => false) && heldFields rest b

end

theorem heldFields_mem {a b : List (String × Json)} (h : heldFields a b = true) {f : String × Json} (hf : f ∈ a) :
    ∃ w, lookup b f.1 = some w ∧ held f.2 w = true := by
  induction a with
  | nil => cases hf
  | cons e rest ih =>
    obtain ⟨k, v⟩ := e
    rw [heldFields, Bool.and_eq_true] at h
    rcases List.mem_cons.mp hf with rfl | hf
    · cases hw : lookup b k with
      | none => simp [hw] at h
      | some w => exact ⟨w, rfl, by simpa [hw] using h.1⟩
    · exact ih h.2 hf

/-- Objects that are one read the same under every key. -/
theorem held_get {a b : List (String × Json)} (h : held (.obj a) (.obj b) = true) (key : String) :
    held (get a key) (get b key) = true := by
  rw [held, Bool.and_eq_true, List.all_eq_true] at h
  rw [get_eq, get_eq]
  cases ha : lookup a key with
  | some v =>
    obtain ⟨w, hw, hsame⟩ := heldFields_mem h.1 (Dict.of_find_fst ha)
    simp only at hw
    rw [hw]
    exact hsame
  | none =>
    cases hb : lookup b key with
    | none => rfl
    | some w =>
      have hsome := h.2 _ (Dict.of_find_fst hb)
      simp only at hsome
      rw [ha] at hsome
      cases hsome

/-! ## Sets -/

/-- A value that a set can have. -/
def hashable : Json → Bool
  | .arr _ => false
  | .obj _ => false
  | _ => true

/-- `set(values)`, each in its first occurrence. -/
def heldSet (values : List Json) : List Json :=
  values.foldl (fun seen v => if seen.any fun w => held w v then seen else seen ++ [v]) []

theorem heldSet_pair (a b : Json) : (heldSet [a, b]).length = 1 ↔ held a b = true := by
  by_cases h : held a b <;> simp [heldSet, h]

end OwnNet.Json
