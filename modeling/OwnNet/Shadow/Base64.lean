/-
  OwnNet.Shadow.Base64 — canonical base64, the spelling the raw bytes of an input are attested
  under.

  The encoder collects three bytes and writes four symbols. The decoder shifts six bits at a
  time into one accumulator that is never cleared, and takes a byte off its low end whenever
  eight bits are there; what it shifted out long ago wraps away.

  Proved: `decode_iff`: what is decoded is what some bytes are encoded as, and nothing else.
-/

import OwnNet.Checks

namespace OwnNet.Shadow.Base64

open Checks

/-! ## Encoding -/

/-- `ALPHABET` -/
def alphabet : List Char := "ABCDEFGHIJKLMNOPQRSTUVWXYZabcdefghijklmnopqrstuvwxyz0123456789+/".toList

def symbol (six : UInt32) : Char := alphabet[(six &&& 0x3f).toNat]?.getD 'A'

/-- The four symbols of a full chunk. -/
def fullGroup (a b c : UInt8) : List Char :=
  let acc := a.toUInt32 <<< 16 ||| b.toUInt32 <<< 8 ||| c.toUInt32
  [symbol (acc >>> 18), symbol (acc >>> 12), symbol (acc >>> 6), symbol acc]

/-- The last group, of what is left over. -/
def lastGroup : List UInt8 → List Char
  | [a] =>
    let acc := a.toUInt32 <<< 16
    [symbol (acc >>> 18), symbol (acc >>> 12), '=', '=']
  | [a, b] =>
    let acc := a.toUInt32 <<< 16 ||| b.toUInt32 <<< 8
    [symbol (acc >>> 18), symbol (acc >>> 12), symbol (acc >>> 6), '=']
  | _ => []

structure Encoder where
  out : List Char
  chunk : List UInt8

def Encoder.push (s : Encoder) (byte : UInt8) : Encoder :=
  match s.chunk ++ [byte] with
  | [a, b, c] => ⟨s.out ++ fullGroup a b c, []⟩
  | chunk => ⟨s.out, chunk⟩

/-- `encode` -/
def encode (raw : List UInt8) : String :=
  let s := raw.foldl Encoder.push ⟨[], []⟩
  String.ofList (s.out ++ lastGroup s.chunk)

/-! ## Decoding -/

/-- `as_bytes` -/
def bytesOf (s : String) : List UInt8 := s.toByteArray.data.toList

def sextet (b : UInt8) : Option UInt32 :=
  if 0x41 ≤ b ∧ b ≤ 0x5a then some (b.toUInt32 - 0x41)
  else if 0x61 ≤ b ∧ b ≤ 0x7a then some (b.toUInt32 - 0x61 + 26)
  else if 0x30 ≤ b ∧ b ≤ 0x39 then some (b.toUInt32 - 0x30 + 52)
  else if b = 0x2b then some 62
  else if b = 0x2f then some 63
  else none

/-- `{:?}` of a character below `U+0100`. -/
def debugChar (b : UInt8) : String :=
  let c := Char.ofNat b.toNat
  let body :=
    if c = '\x00' then "\\0"
    else if c = '\t' then "\\t"
    else if c = '\r' then "\\r"
    else if c = '\n' then "\\n"
    else if c = '\'' then "\\'"
    else if c = '\\' then "\\\\"
    else if b < 0x20 ∨ (0x7f ≤ b ∧ b ≤ 0xa0) ∨ b = 0xad then "\\u\x7b" ++ String.ofList (Nat.toDigits 16 b.toNat) ++ "\x7d"
    else String.singleton c
  "'" ++ body ++ "'"

def notInAlphabet (i : Nat) (b : UInt8) : String :=
  "input.raw.base64 is not valid base64: byte " ++ toString i ++ " is " ++ debugChar b ++
    ", which is not in the standard alphabet (no whitespace is skipped — " ++
      "a re-wrapped blob would be a second spelling of one input)"

structure Decoder where
  acc : UInt32
  nbits : UInt32
  out : List UInt8

/-- Six bits in, and a byte out where there are eight. -/
def Decoder.take (s : Decoder) (six : UInt32) : Decoder :=
  let acc := s.acc <<< 6 ||| six
  let nbits := s.nbits + 6
  if 8 ≤ nbits then ⟨acc, nbits - 8, s.out ++ [((acc >>> (nbits - 8)) &&& 0xff).toUInt8]⟩ else ⟨acc, nbits, s.out⟩

/-- The loop over the bytes, up to the padding. -/
def pull (body : Nat) : Nat → List UInt8 → Decoder → Except String Decoder
  | _, [], s => .ok s
  | i, b :: rest, s =>
    if body ≤ i then .ok s
    else require (sextet b) (notInAlphabet i b) >>= fun six => pull body (i + 1) rest (s.take six)

/-- `decode` -/
def decode (encoded : String) : Except String (List UInt8) :=
  let bytes := bytesOf encoded
  ensure (bytes.length % 4 = 0)
    ("input.raw.base64 is not valid base64: its length (" ++ toString bytes.length ++ ") is not a multiple of four") >>= fun _ =>
  let padding := (bytes.reverse.takeWhile fun b => b = 0x3d).length
  ensure (padding ≤ 2) "input.raw.base64 is not valid base64: more than two padding characters" >>= fun _ =>
  pull (bytes.length - padding) 0 bytes ⟨0, 0, []⟩ >>= fun s =>
  ensure (s.acc &&& ((1 <<< s.nbits) - 1) = 0)
    ("input.raw.base64 is not canonical base64: the final group carries non-zero bits that decode to nothing, " ++
      "so more than one spelling would attest the same input") >>= fun _ =>
  ensure (encode s.out = encoded)
    ("input.raw.base64 is not canonical base64: re-encoding the bytes it decodes to does not reproduce it, " ++
      "so more than one spelling would attest the same input") >>= fun _ =>
  .ok s.out

/-! ## Symbols -/

/-- The byte of a symbol. -/
def byteOf (c : Char) : UInt8 := c.val.toUInt8

theorem alphabet_symbols : ∀ i < 64, ∃ c, alphabet[i]? = some c ∧ sextet (byteOf c) = some i.toUInt32 ∧
    c.val.toNat < 128 ∧ byteOf c ≠ 0x3d := by
  have hall : ∀ i < 64, (alphabet[i]?.any fun c => sextet (byteOf c) = some i.toUInt32 ∧ c.val.toNat < 128 ∧
      byteOf c ≠ 0x3d) = true := by
    decide +kernel
  intro i hi
  have h := hall i hi
  cases hc : alphabet[i]? with
  | none => simp [hc] at h
  | some c =>
    rw [hc, Option.any_some, decide_eq_true_eq] at h
    exact ⟨c, rfl, h⟩

theorem symbol_index (v : UInt32) : (v &&& 0x3f).toNat = v.toNat % 64 := by
  rw [UInt32.toNat_and]
  exact Nat.and_two_pow_sub_one_eq_mod v.toNat 6

/-- A symbol is one byte, not the padding, and reads back as the six bits it was made of. -/
theorem sextet_symbol (v : UInt32) :
    sextet (byteOf (symbol v)) = some (v &&& 0x3f) ∧ (symbol v).val.toNat < 128 ∧ byteOf (symbol v) ≠ 0x3d := by
  obtain ⟨c, hc, hsix, hlow, hpad⟩ := alphabet_symbols (v.toNat % 64) (Nat.mod_lt _ (by decide))
  have hsym : symbol v = c := by
    unfold symbol
    rw [symbol_index, hc]
    rfl
  rw [hsym]
  refine ⟨?_, hlow, hpad⟩
  rw [hsix, ← symbol_index]
  simp

/-! ## Groups -/

theorem shifted (acc : UInt32) {six : UInt32} (h : six.toNat < 64) :
    (acc <<< 6 ||| six).toNat = (acc.toNat * 64 + six.toNat) % 4294967296 := by
  have hacc : (acc <<< 6).toNat = (acc.toNat % 67108864) <<< 6 := by
    rw [UInt32.toNat_shiftLeft, Nat.shiftLeft_eq, Nat.shiftLeft_eq]
    show acc.toNat * 2 ^ 6 % 2 ^ 32 = acc.toNat % 67108864 * 2 ^ 6
    omega
  rw [UInt32.toNat_or, hacc, ← Nat.shiftLeft_add_eq_or_of_lt h, Nat.shiftLeft_eq]
  omega

theorem low_byte (x k : UInt32) (h : k.toNat < 32) : ((x >>> k) &&& 0xff).toUInt8.toNat = (x.toNat >>> k.toNat) % 256 := by
  rw [UInt32.toNat_toUInt8, UInt32.toNat_and, UInt32.toNat_shiftRight, Nat.mod_eq_of_lt h]
  show (x.toNat >>> k.toNat &&& 2 ^ 8 - 1) % 2 ^ 8 = _
  rw [Nat.and_two_pow_sub_one_eq_mod, Nat.mod_mod]

theorem sextet_toNat (v k : UInt32) (h : k.toNat < 32) : ((v >>> k) &&& 0x3f).toNat = (v.toNat >>> k.toNat) % 64 := by
  rw [symbol_index, UInt32.toNat_shiftRight, Nat.mod_eq_of_lt h]

/-! Bytes in one accumulator. -/

theorem packed_one (a : UInt8) : (a.toUInt32 <<< 16).toNat = a.toNat * 65536 := by
  have ha := a.toNat_lt
  rw [UInt32.toNat_shiftLeft, UInt8.toNat_toUInt32, Nat.shiftLeft_eq]
  show a.toNat * 2 ^ 16 % 2 ^ 32 = _
  omega

theorem packed_two (a b : UInt8) : (a.toUInt32 <<< 16 ||| b.toUInt32 <<< 8).toNat = a.toNat * 65536 + b.toNat * 256 := by
  have hb := b.toNat_lt
  have h8 : (b.toUInt32 <<< 8).toNat = b.toNat * 256 := by
    rw [UInt32.toNat_shiftLeft, UInt8.toNat_toUInt32, Nat.shiftLeft_eq]
    show b.toNat * 2 ^ 8 % 2 ^ 32 = _
    omega
  have hlow : b.toNat * 256 < 2 ^ 16 := by omega
  rw [UInt32.toNat_or, packed_one, h8]
  show a.toNat * 2 ^ 16 ||| _ = a.toNat * 2 ^ 16 + _
  rw [← Nat.shiftLeft_eq, Nat.shiftLeft_add_eq_or_of_lt hlow]

theorem packed_three (a b c : UInt8) :
    (a.toUInt32 <<< 16 ||| b.toUInt32 <<< 8 ||| c.toUInt32).toNat = a.toNat * 65536 + b.toNat * 256 + c.toNat := by
  have hc := c.toNat_lt
  have hhigh : a.toNat * 65536 + b.toNat * 256 = (a.toNat * 256 + b.toNat) <<< 8 := by
    rw [Nat.shiftLeft_eq]
    omega
  rw [UInt32.toNat_or, packed_two, UInt8.toNat_toUInt32, hhigh, Nat.shiftLeft_add_eq_or_of_lt hc]

section Take

variable {acc : UInt32} {out : List UInt8} {six : UInt32}

theorem take_short {n m : UInt32} (hm : n + 6 = m) (h : ¬ 8 ≤ n + 6) :
    (Decoder.mk acc n out).take six = ⟨acc <<< 6 ||| six, m, out⟩ := by
  unfold Decoder.take
  simp only [if_neg h]
  rw [hm]

theorem take_byte {n m : UInt32} {b : UInt8} (hm : n + 6 - 8 = m) (h : 8 ≤ n + 6)
    (hb : (((acc <<< 6 ||| six) >>> m) &&& 0xff).toUInt8 = b) :
    (Decoder.mk acc n out).take six = ⟨acc <<< 6 ||| six, m, out ++ [b]⟩ := by
  unfold Decoder.take
  simp only [if_pos h]
  rw [hm, hb]

end Take

section Groups

variable {a b c : UInt8} {s₁ s₂ s₃ s₄ : UInt32} (acc : UInt32) (out : List UInt8)

/-- The first byte is there after two symbols, whatever was in the accumulator. -/
theorem first_byte (ha : s₁.toNat * 64 + s₂.toNat = a.toNat * 16 + s₂.toNat % 16) (h₁ : s₁.toNat < 64) (h₂ : s₂.toNat < 64) :
    ((Decoder.mk acc 0 out).take s₁).take s₂ = ⟨(acc <<< 6 ||| s₁) <<< 6 ||| s₂, 4, out ++ [a]⟩ := by
  have hbyte : ((((acc <<< 6 ||| s₁) <<< 6 ||| s₂) >>> 4) &&& 0xff).toUInt8 = a := by
    rw [← UInt8.toNat_inj, low_byte _ _ (by decide), Nat.shiftRight_eq_div_pow, shifted _ h₂, shifted _ h₁]
    show _ / 2 ^ 4 % 256 = _
    have := a.toNat_lt
    omega
  rw [take_short (n := 0) (m := 6) (by decide) (by decide), take_byte (n := 6) (m := 4) (by decide) (by decide) hbyte]

theorem second_byte {acc : UInt32} (hb : s₂.toNat % 16 * 64 + s₃.toNat = b.toNat * 4 + s₃.toNat % 4)
    (h₂ : s₂.toNat < 64) (h₃ : s₃.toNat < 64) :
    (Decoder.mk (acc <<< 6 ||| s₂) 4 out).take s₃ = ⟨(acc <<< 6 ||| s₂) <<< 6 ||| s₃, 2, out ++ [b]⟩ := by
  refine take_byte (by decide) (by decide) ?_
  rw [← UInt8.toNat_inj, low_byte _ _ (by decide), Nat.shiftRight_eq_div_pow, shifted _ h₃, shifted _ h₂]
  show _ / 2 ^ 2 % 256 = _
  have := b.toNat_lt
  omega

theorem third_byte {acc : UInt32} (hc : s₃.toNat % 4 * 64 + s₄.toNat = c.toNat) (h₃ : s₃.toNat < 64) (h₄ : s₄.toNat < 64) :
    (Decoder.mk (acc <<< 6 ||| s₃) 2 out).take s₄ = ⟨(acc <<< 6 ||| s₃) <<< 6 ||| s₄, 0, out ++ [c]⟩ := by
  refine take_byte (by decide) (by decide) ?_
  rw [← UInt8.toNat_inj, low_byte _ _ (by decide), Nat.shiftRight_eq_div_pow, shifted _ h₄, shifted _ h₃]
  show _ / 2 ^ 0 % 256 = _
  have := c.toNat_lt
  omega

end Groups

/-! ## Whole inputs -/

/-- The values the symbols of an input are made of, before its padding. -/
def digits : List UInt8 → List UInt32
  | a :: b :: c :: rest =>
    let acc := a.toUInt32 <<< 16 ||| b.toUInt32 <<< 8 ||| c.toUInt32
    [acc >>> 18, acc >>> 12, acc >>> 6, acc >>> 0] ++ digits rest
  | [a, b] =>
    let acc := a.toUInt32 <<< 16 ||| b.toUInt32 <<< 8
    [acc >>> 18, acc >>> 12, acc >>> 6]
  | [a] => [a.toUInt32 <<< 16 >>> 18, a.toUInt32 <<< 16 >>> 12]
  | [] => []

def padding : List UInt8 → Nat
  | _ :: _ :: _ :: rest => padding rest
  | [_, _] => 1
  | [_] => 2
  | [] => 0

theorem push_digits (raw : List UInt8) (out : List Char) :
    (raw.foldl Encoder.push ⟨out, []⟩).out ++ lastGroup (raw.foldl Encoder.push ⟨out, []⟩).chunk =
      out ++ ((digits raw).map symbol ++ List.replicate (padding raw) '=') := by
  induction raw using digits.induct generalizing out with
  | case1 a b c rest ih =>
    have hpush : (a :: b :: c :: rest).foldl Encoder.push ⟨out, []⟩ = rest.foldl Encoder.push ⟨out ++ fullGroup a b c, []⟩ := rfl
    rw [hpush, ih, List.append_assoc, digits, padding, List.map_append, List.append_assoc]
    congr 2
  | case2 a b => rfl
  | case3 a => rfl
  | case4 => exact (List.append_nil out).trans (List.append_nil out).symm

theorem encode_digits (raw : List UInt8) :
    encode raw = String.ofList ((digits raw).map symbol ++ List.replicate (padding raw) '=') := by
  show String.ofList (_ ++ _) = _
  rw [push_digits, List.nil_append]

theorem digits_length (raw : List UInt8) : ((digits raw).length + padding raw) % 4 = 0 ∧ padding raw ≤ 2 := by
  induction raw using digits.induct with
  | case1 a b c rest ih =>
    simp only [digits, padding, List.length_append, List.length_cons, List.length_nil]
    omega
  | case2 a b => simp [digits, padding]
  | case3 a => simp [digits, padding]
  | case4 => simp [digits, padding]

/-- The decoder reads the bytes back, and what is left over is zero. -/
theorem digits_taken (raw : List UInt8) (acc : UInt32) (out : List UInt8) :
    ∃ acc' n, (digits raw).foldl (fun s v => s.take (v &&& 0x3f)) (Decoder.mk acc 0 out) = ⟨acc', n, out ++ raw⟩ ∧
      acc' &&& ((1 <<< n) - 1) = 0 := by
  induction raw using digits.induct generalizing acc out with
  | case1 a b c rest ih =>
    have ha := a.toNat_lt
    have hb := b.toNat_lt
    have hc := c.toNat_lt
    have h₁ := sextet_toNat (a.toUInt32 <<< 16 ||| b.toUInt32 <<< 8 ||| c.toUInt32) 18 (by decide)
    have h₂ := sextet_toNat (a.toUInt32 <<< 16 ||| b.toUInt32 <<< 8 ||| c.toUInt32) 12 (by decide)
    have h₃ := sextet_toNat (a.toUInt32 <<< 16 ||| b.toUInt32 <<< 8 ||| c.toUInt32) 6 (by decide)
    have h₄ := sextet_toNat (a.toUInt32 <<< 16 ||| b.toUInt32 <<< 8 ||| c.toUInt32) 0 (by decide)
    simp only [packed_three, UInt32.reduceToNat, Nat.shiftRight_eq_div_pow] at h₁ h₂ h₃ h₄
    simp only [digits, List.cons_append, List.nil_append, List.foldl_cons]
    rw [first_byte (a := a) acc out (by omega) (by omega) (by omega), second_byte (b := b) _ (by omega) (by omega) (by omega),
      third_byte (c := c) _ (by omega) (by omega) (by omega)]
    obtain ⟨acc', n, htake, hzero⟩ := ih _ (out ++ [a] ++ [b] ++ [c])
    refine ⟨acc', n, ?_, hzero⟩
    rw [htake]
    simp
  | case2 a b =>
    have ha := a.toNat_lt
    have hb := b.toNat_lt
    have h₁ := sextet_toNat (a.toUInt32 <<< 16 ||| b.toUInt32 <<< 8) 18 (by decide)
    have h₂ := sextet_toNat (a.toUInt32 <<< 16 ||| b.toUInt32 <<< 8) 12 (by decide)
    have h₃ := sextet_toNat (a.toUInt32 <<< 16 ||| b.toUInt32 <<< 8) 6 (by decide)
    simp only [packed_two, UInt32.reduceToNat, Nat.shiftRight_eq_div_pow] at h₁ h₂ h₃
    simp only [digits, List.foldl_cons, List.foldl_nil]
    rw [first_byte (a := a) acc out (by omega) (by omega) (by omega), second_byte (b := b) _ (by omega) (by omega) (by omega)]
    refine ⟨_, _, by simp; exact ⟨rfl, rfl⟩, ?_⟩
    rw [← UInt32.toNat_inj, UInt32.toNat_and, shifted _ (by omega)]
    show _ &&& 2 ^ 2 - 1 = 0
    rw [Nat.and_two_pow_sub_one_eq_mod]
    omega
  | case3 a =>
    have ha := a.toNat_lt
    have h₁ := sextet_toNat (a.toUInt32 <<< 16) 18 (by decide)
    have h₂ := sextet_toNat (a.toUInt32 <<< 16) 12 (by decide)
    simp only [packed_one, UInt32.reduceToNat, Nat.shiftRight_eq_div_pow] at h₁ h₂
    simp only [digits, List.foldl_cons, List.foldl_nil]
    rw [first_byte (a := a) acc out (by omega) (by omega) (by omega)]
    refine ⟨_, _, rfl, ?_⟩
    rw [← UInt32.toNat_inj, UInt32.toNat_and, shifted _ (by omega)]
    show _ &&& 2 ^ 4 - 1 = 0
    rw [Nat.and_two_pow_sub_one_eq_mod]
    omega
  | case4 => exact ⟨acc, 0, by simp [digits], by simp⟩

theorem pull_symbols {body : Nat} (vs : List UInt32) (rest : List UInt8) (i : Nat) (s : Decoder) (h : i + vs.length ≤ body) :
    pull body i (vs.map (fun v => byteOf (symbol v)) ++ rest) s =
      pull body (i + vs.length) rest (vs.foldl (fun s v => s.take (v &&& 0x3f)) s) := by
  induction vs generalizing i s with
  | nil => rfl
  | cons v vs ih =>
    rw [List.length_cons] at h
    rw [List.map_cons, List.cons_append, pull, if_neg (by omega), (sextet_symbol v).1]
    show pull body (i + 1) _ (s.take (v &&& 0x3f)) = _
    rw [ih (i + 1) _ (by omega), List.foldl_cons, List.length_cons]
    congr 1
    omega

theorem bytesOf_low {cs : List Char} (h : ∀ c ∈ cs, c.val.toNat < 128) : bytesOf (String.ofList cs) = cs.map byteOf := by
  unfold bytesOf
  rw [String.toByteArray_ofList, List.utf8Encode, List.data_toByteArray]
  induction cs with
  | nil => rfl
  | cons c cs ih =>
    have hone : String.utf8EncodeChar c = [byteOf c] :=
      String.utf8EncodeChar_eq_singleton
        (Char.utf8Size_eq_one_iff.mpr (UInt32.le_iff_toNat_le.mpr (Nat.le_of_lt_succ (h c List.mem_cons_self))))
    rw [List.flatMap_cons, hone, List.map_cons]
    exact congrArg (byteOf c :: ·) (ih fun d hd => h d (List.mem_cons_of_mem _ hd))

theorem takeWhile_padding {bs : List UInt8} (h : ∀ b ∈ bs, b ≠ 0x3d) (n : Nat) :
    ((bs ++ List.replicate n 0x3d).reverse.takeWhile fun b => b = 0x3d).length = n := by
  rw [List.reverse_append, List.reverse_replicate, List.takeWhile_append_of_pos (by simp)]
  cases hr : bs.reverse with
  | nil => simp
  | cons b rest =>
    have hb : b ≠ 0x3d := h b (List.mem_reverse.mp (hr ▸ List.mem_cons_self))
    simp [hb]

/-! ## Round trips -/

theorem bytesOf_encode (raw : List UInt8) :
    bytesOf (encode raw) = (digits raw).map (fun v => byteOf (symbol v)) ++ List.replicate (padding raw) 0x3d := by
  have hlow : ∀ c ∈ (digits raw).map symbol ++ List.replicate (padding raw) '=', c.val.toNat < 128 := by
    intro c hc
    rcases List.mem_append.mp hc with hc | hc
    · obtain ⟨v, -, rfl⟩ := List.mem_map.mp hc
      exact (sextet_symbol v).2.1
    · rw [(List.mem_replicate.mp hc).2]
      decide
  rw [encode_digits, bytesOf_low hlow, List.map_append, List.map_map, List.map_replicate]
  rfl

theorem decode_ok {encoded : String} {raw : List UInt8} : decode encoded = .ok raw ↔
    (bytesOf encoded).length % 4 = 0 ∧ ((bytesOf encoded).reverse.takeWhile fun b => b = 0x3d).length ≤ 2 ∧
      ∃ s, pull ((bytesOf encoded).length - ((bytesOf encoded).reverse.takeWhile fun b => b = 0x3d).length) 0
        (bytesOf encoded) ⟨0, 0, []⟩ =
        .ok s ∧ s.acc &&& ((1 <<< s.nbits) - 1) = 0 ∧ encode s.out = encoded ∧ s.out = raw := by
  unfold decode
  rw [ensure_bind_ok, ensure_bind_ok, bind_ok]
  simp only [ensure_bind_ok, Except.ok.injEq]

theorem decode_encode (raw : List UInt8) : decode (encode raw) = .ok raw := by
  obtain ⟨hfour, hpad⟩ := digits_length raw
  have hlen : (bytesOf (encode raw)).length = (digits raw).length + padding raw := by
    rw [bytesOf_encode]
    simp
  have hrun : ((bytesOf (encode raw)).reverse.takeWhile fun b => b = 0x3d).length = padding raw := by
    rw [bytesOf_encode]
    refine takeWhile_padding (fun b hb => ?_) _
    obtain ⟨v, -, rfl⟩ := List.mem_map.mp hb
    exact (sextet_symbol v).2.2
  obtain ⟨acc, n, htake, hzero⟩ := digits_taken raw 0 []
  have hpull : pull ((bytesOf (encode raw)).length - padding raw) 0 (bytesOf (encode raw)) ⟨0, 0, []⟩ = .ok ⟨acc, n, raw⟩ := by
    rw [hlen, Nat.add_sub_cancel, bytesOf_encode, pull_symbols _ _ _ _ (by omega), htake]
    cases List.replicate (padding raw) (0x3d : UInt8) with
    | nil => rfl
    | cons b rest => exact if_pos (by omega)
  refine decode_ok.mpr ⟨by omega, by rw [hrun]; exact hpad, _, by rw [hrun]; exact hpull, hzero, rfl, rfl⟩

/-- A string is decoded to the bytes it is the encoding of, and no other string is decoded. -/
theorem decode_iff (encoded : String) (raw : List UInt8) : decode encoded = .ok raw ↔ encode raw = encoded := by
  refine ⟨fun h => ?_, fun h => ?_⟩
  · obtain ⟨-, -, s, -, -, hsame, rfl⟩ := decode_ok.mp h
    exact hsame
  · rw [← h, decode_encode]

end OwnNet.Shadow.Base64
