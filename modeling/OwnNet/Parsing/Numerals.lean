/-
  OwnNet.Parsing.Numerals — decimal numerals inside longer texts.

  Proved: a numeral in front of what starts with no digit is read in one way (`nat_reads`,
  `int_reads`), and so is one behind what ends with no digit (`numeral_suffix`).
-/

import OwnNet.Parsing.Unambiguous
import Mathlib.Algebra.Order.Ring.Int

namespace OwnNet.Parsing

/-- The digits of a number. -/
def numeral (n : Nat) : List Char := (toString n).toList

theorem numeral_eq (n : Nat) : numeral n = Nat.toDigits 10 n := by
  rw [numeral, Nat.toString_eq_repr, Nat.toList_repr]

theorem numeral_digits {n : Nat} {c : Char} (h : c ∈ numeral n) : c.isDigit = true := by
  rw [numeral_eq] at h
  exact Nat.isDigit_of_mem_toDigits (by omega) (by omega) h

theorem digits_inj {m n : Nat} (h : Nat.toDigits 10 m = Nat.toDigits 10 n) : m = n := by
  have hnum := congrArg (fun ds => Nat.ofDigitChars 10 ds 0) h
  simpa only [Nat.ofDigitChars_ten_toDigits] using hnum

theorem numeral_inj {m n : Nat} (h : numeral m = numeral n) : m = n := by
  rw [numeral_eq, numeral_eq] at h
  exact digits_inj h

theorem numeral_ne_nil (n : Nat) : numeral n ≠ [] := by
  rw [numeral_eq]
  exact Nat.toDigits_ne_nil

/-- No digit is what follows starts with. -/
def NoDigit (r : List Char) : Prop := ∀ c ∈ r.head?, c.isDigit = false

theorem noDigit_cons {c : Char} (h : c.isDigit = false) (r : List Char) : NoDigit (c :: r) := fun d hd => by
  rw [List.head?_cons, Option.mem_some_iff] at hd
  exact hd ▸ h

theorem takeWhile_digits {ds r : List Char} (hd : ∀ c ∈ ds, c.isDigit = true) (hr : NoDigit r) :
    (ds ++ r).takeWhile Char.isDigit = ds := by
  rw [List.takeWhile_append_of_pos hd]
  cases r with
  | nil => simp
  | cons c r => simp [hr c rfl]

/-- Digits in front of something else are one run only. -/
theorem digits_apart {ds ds' r r' : List Char} (hd : ∀ c ∈ ds, c.isDigit = true)
    (hd' : ∀ c ∈ ds', c.isDigit = true) (hr : NoDigit r)
    (hr' : NoDigit r') (h : ds ++ r = ds' ++ r') : ds = ds' ∧ r = r' := by
  have hds : ds = ds' := by rw [← takeWhile_digits hd hr, h, takeWhile_digits hd' hr']
  subst hds
  exact ⟨rfl, List.append_cancel_left h⟩

theorem nat_reads (n : Nat) : ReadsOnly NoDigit numeral (· = ·) n := by
  intro m r r' hr hr' h
  obtain ⟨hnum, hrest⟩ := digits_apart (fun _ => numeral_digits) (fun _ => numeral_digits) hr hr' h
  exact ⟨numeral_inj hnum, hrest⟩

/-- The digits of an integer behind its sign. -/
def signed (i : Int) : List Char := (toString i).toList

theorem signed_ofNat (n : Nat) : signed (Int.ofNat n) = numeral n := by
  rw [signed, numeral, Int.toString_eq_repr, Nat.toString_eq_repr]
  rfl

theorem signed_negSucc (n : Nat) : signed (Int.negSucc n) = '-' :: numeral (n + 1) := by
  rw [signed, numeral, Int.toString_eq_repr, Nat.toString_eq_repr]
  exact String.toList_append

theorem numeral_cons (n : Nat) : ∃ d rest, numeral n = d :: rest ∧ d.isDigit = true := by
  obtain ⟨d, rest, h⟩ := List.exists_cons_of_ne_nil (numeral_ne_nil n)
  exact ⟨d, rest, h, numeral_digits (h ▸ List.mem_cons_self)⟩

/-- A digit or a sign. -/
theorem signed_cons (i : Int) : ∃ d rest, signed i = d :: rest ∧ (d.isDigit = true ∨ d = '-') := by
  cases i with
  | ofNat n =>
    obtain ⟨d, rest, h, hd⟩ := numeral_cons n
    exact ⟨d, rest, (signed_ofNat n).trans h, .inl hd⟩
  | negSucc n => exact ⟨'-', _, signed_negSucc n, .inr rfl⟩

theorem int_reads (i : Int) : ReadsOnly NoDigit signed (· = ·) i := by
  have hsign : ∀ (m n : Nat) (r r' : List Char), numeral m ++ r ≠ '-' :: r' := by
    intro m n r r' h
    obtain ⟨d, rest, hnum, hd⟩ := numeral_cons m
    rw [hnum, List.cons_append] at h
    rw [(List.cons.inj h).1] at hd
    exact absurd hd (by decide)
  intro j r r' hr hr' h
  cases i with
  | ofNat m =>
    cases j with
    | ofNat n =>
      rw [signed_ofNat, signed_ofNat] at h
      obtain ⟨rfl, hrest⟩ := nat_reads m n r r' hr hr' h
      exact ⟨rfl, hrest⟩
    | negSucc n =>
      rw [signed_ofNat, signed_negSucc, List.cons_append] at h
      exact absurd h (hsign m n _ _)
  | negSucc m =>
    cases j with
    | ofNat n =>
      rw [signed_ofNat, signed_negSucc, List.cons_append] at h
      exact absurd h.symm (hsign n m _ _)
    | negSucc n =>
      rw [signed_negSucc, signed_negSucc, List.cons_append, List.cons_append] at h
      obtain ⟨hnum, hrest⟩ := nat_reads (m + 1) (n + 1) r r' hr hr' (List.cons.inj h).2
      cases hnum
      exact ⟨rfl, hrest⟩

/-- A numeral behind what ends with no digit. -/
theorem numeral_suffix {s s' : List Char} {c c' : Char} {m n : Nat} (hc : c.isDigit = false) (hc' : c'.isDigit = false)
    (h : s ++ c :: numeral m = s' ++ c' :: numeral n) : s = s' ∧ c = c' ∧ m = n := by
  have hrev := congrArg List.reverse h
  simp only [List.reverse_append, List.reverse_cons, List.append_assoc, List.cons_append, List.nil_append] at hrev
  obtain ⟨hnum, hrest⟩ := digits_apart (fun c hc => numeral_digits (List.mem_reverse.mp hc))
    (fun c hc => numeral_digits (List.mem_reverse.mp hc))
    (noDigit_cons hc _) (noDigit_cons hc' _) hrev
  obtain ⟨rfl, hs⟩ := List.cons.inj hrest
  exact ⟨List.reverse_inj.mp hs, rfl, numeral_inj (List.reverse_inj.mp hnum)⟩

end OwnNet.Parsing
