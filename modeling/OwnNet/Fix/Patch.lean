/-
  OwnNet.Fix.Patch — the canonical patch of one file, and the strict reader of it.

  `canonicalPatch` writes a unified diff of two byte strings, over the opcodes `difflib`
  gives for their lines (a parameter here). `readPatch` makes the checks of
  `parse_step8_patch`, which keeps nothing; here the hunks it has read are kept as well, so
  that they can be applied.

  A `str` is its list of code points, surrogates included. A body line is kept with its
  terminator, which a no-newline marker after it takes away again.
-/

import Mathlib.Data.Nat.Digits.Defs
import OwnNet.Diff.Opcodes

namespace OwnNet.Fix

open Diff

abbrev Bytes := List UInt8

abbrev CodePoint := Fin 0x110000

def lf : UInt8 := 10

/-- An ASCII literal. -/
def lit (s : String) : Bytes := s.toList.map fun c => c.toNat.toUInt8

/-! ## The canonical patch -/

def splitLinesFrom (cur : Bytes) : Bytes → List Bytes
  | [] => if cur = [] then [] else [cur]
  | c :: rest => if c = lf then (cur ++ [c]) :: splitLinesFrom [] rest else splitLinesFrom (cur ++ [c]) rest

/-- Split on LF only, keeping the terminator. -/
def splitLines (data : Bytes) : List Bytes := splitLinesFrom [] data

def marker : Bytes := lit "\\ No newline at end of file"

def terminated (line : Bytes) : Bool := line.getLast? = some lf

def emit (head : UInt8) (line : Bytes) : Bytes :=
  if terminated line then head :: line else head :: line ++ [lf] ++ marker ++ [lf]

def digit (d : Nat) : UInt8 := (48 + d).toUInt8

/-- `b"%d"`. -/
def decimal (n : Nat) : Bytes := if n = 0 then [digit 0] else (Nat.digits 10 n).reverse.map digit

/-- `start` counts from 0; an empty range names the line before it. -/
def hunkRange (start count : Nat) : Bytes :=
  if count = 1 then decimal (start + 1)
  else if count = 0 then decimal start ++ lit ",0"
  else decimal (start + 1) ++ lit "," ++ decimal count

/-- A control character that "cannot be represented in a patch header", or an unpaired
    surrogate that "is not encodable", at an offset of the path. -/
inductive ApplyError
  | controlCharacter (code index : Nat)
  | unpairedSurrogate (code index : Nat)
  deriving DecidableEq

def requirePatchableFrom (index : Nat) : List CodePoint → Except ApplyError Unit
  | [] => .ok ()
  | c :: rest =>
    if c.val < 0x20 ∨ c.val = 0x7F then .error (.controlCharacter c.val index)
    else if 0xD800 ≤ c.val ∧ c.val ≤ 0xDFFF then .error (.unpairedSurrogate c.val index)
    else requirePatchableFrom (index + 1) rest

def requirePatchablePath (rel : List CodePoint) : Except ApplyError Unit := requirePatchableFrom 0 rel

def utf8Char (c : CodePoint) : Bytes :=
  if c.val < 0x80 then [c.val.toUInt8]
  else if c.val < 0x800 then [(0xC0 + c.val / 0x40).toUInt8, (0x80 + c.val % 0x40).toUInt8]
  else if c.val < 0x10000 then
    [(0xE0 + c.val / 0x1000).toUInt8, (0x80 + c.val / 0x40 % 0x40).toUInt8, (0x80 + c.val % 0x40).toUInt8]
  else
    [(0xF0 + c.val / 0x40000).toUInt8, (0x80 + c.val / 0x1000 % 0x40).toUInt8, (0x80 + c.val / 0x40 % 0x40).toUInt8,
      (0x80 + c.val % 0x40).toUInt8]

def utf8 (rel : List CodePoint) : Bytes := rel.flatMap utf8Char

def headOf : Side → UInt8
  | .both => 32
  | .old => 45
  | .new => 43

def hunkHeader (group : List Opcode) : Bytes :=
  let aStart := (group.head?.map Opcode.i1).getD 0
  let aEnd := (group.getLast?.map Opcode.i2).getD 0
  let bStart := (group.head?.map Opcode.j1).getD 0
  let bEnd := (group.getLast?.map Opcode.j2).getD 0
  lit "@@ -" ++ hunkRange aStart (aEnd - aStart) ++ lit " +" ++ hunkRange bStart (bEnd - bStart) ++ lit " @@"

/-- One group's hunk; `entries` lists, opcode by opcode, the lines and the side of each. -/
def emitGroup (a b : List Bytes) (group : List Opcode) : Bytes :=
  hunkHeader group ++ [lf] ++ (group.flatMap (entries a b)).flatMap fun e => emit (headOf e.1) e.2

def fileHeader (path : Bytes) : List Bytes :=
  [lit "diff --git a/" ++ path ++ lit " b/" ++ path, lit "--- a/" ++ path, lit "+++ b/" ++ path]

/-- `opcodes` is `SequenceMatcher.get_opcodes`. -/
def canonicalPatch (opcodes : List Bytes → List Bytes → List Opcode) (rel : List CodePoint) (pre post : Bytes)
    (context : Nat := 3) : Except ApplyError Bytes :=
  match requirePatchablePath rel with
  | .error e => .error e
  | .ok () =>
    if pre = post then .ok []
    else
      let before := splitLines pre
      let after := splitLines post
      .ok ((fileHeader (utf8 rel)).flatMap (· ++ [lf]) ++
        (groupedOpcodes context (opcodes before after)).flatMap (emitGroup before after))

/-! ## The strict reader -/

structure GateError where
  category : String
  message : String
  /-- The record the message quotes the beginning of. -/
  got : Bytes := []
  deriving DecidableEq

def refuse (message : String) (got : Bytes := []) : GateError := ⟨"PATCH_STRUCTURE", message, got⟩

def recordsFrom (cur : Bytes) : Bytes → Except GateError (List Bytes)
  | [] => if cur = [] then .ok [] else .error (refuse "patch has an unterminated final line")
  | c :: rest => if c = lf then (recordsFrom [] rest).map (cur :: ·) else recordsFrom (cur ++ [c]) rest

def records (data : Bytes) : Except GateError (List Bytes) := recordsFrom [] data

def isDigit (c : UInt8) : Bool := 48 ≤ c && c ≤ 57

def posint (text : Bytes) : Except GateError Nat :=
  if text = [] ∨ !text.all isDigit then .error (refuse "malformed hunk number")
  else .ok (text.foldl (fun n c => 10 * n + (c.toNat - 48)) 0)

/-- `text.split(sep)`, for a separator of one byte. -/
def splitByte (sep : UInt8) : Bytes → List Bytes
  | [] => [[]]
  | c :: rest =>
    if c = sep then [] :: splitByte sep rest
    else
      match splitByte sep rest with
      | [] => [[c]]
      | part :: parts => (c :: part) :: parts

def range (text : Bytes) : Except GateError (Nat × Nat) :=
  match splitByte 44 text with
  | [start] => (posint start).map (·, 1)
  | [start, count] =>
    match posint start, posint count with
    | .ok s, .ok c => .ok (s, c)
    | .error e, _ => .error e
    | _, .error e => .error e
  | _ => .error (refuse "malformed hunk range")

/-- `body.split(b" +", 1)`, nothing if the separator is not there. -/
def splitPlus : Bytes → Option (Bytes × Bytes)
  | [] => none
  | c :: rest =>
    if c = 32 ∧ rest.head? = some 43 then some ([], rest.tail)
    else (splitPlus rest).map fun p => (c :: p.1, p.2)

def isHeader (rec : Bytes) : Bool := (lit "@@ -").isPrefixOf rec && (lit " @@").isSuffixOf rec

/-- A line count: a final line without a terminator counts as well. -/
def countLines (data : Bytes) : Nat := data.count lf + if data ≠ [] ∧ !terminated data then 1 else 0

structure BodyState where
  ctx : Nat := 0
  minus : Nat := 0
  plus : Nat := 0
  oldClosed : Bool := false
  newClosed : Bool := false
  lastHead : Option Side := none
  sawMarker : Bool
  lines : List (Side × Bytes) := []

def sideOf (head : UInt8) : Option Side :=
  if head = 32 then some .both else if head = 45 then some .old else if head = 43 then some .new else none

def unterminate (lines : List (Side × Bytes)) : List (Side × Bytes) :=
  match lines.getLast? with
  | some e => lines.dropLast ++ [(e.1, e.2.dropLast)]
  | none => lines

def readMarker (st : BodyState) : Except GateError BodyState :=
  match st.lastHead with
  | none => .error (refuse "patch: no-newline marker not after a line")
  | some side =>
    let marksOld := side ≠ .new
    let marksNew := side ≠ .old
    if (marksOld ∧ st.oldClosed) ∨ (marksNew ∧ st.newClosed) then
      .error (refuse "patch: duplicate no-newline marker")
    else
      .ok { st with oldClosed := st.oldClosed || marksOld, newClosed := st.newClosed || marksNew, sawMarker := true,
                    lastHead := none, lines := unterminate st.lines }

def readLine (st : BodyState) (line : Bytes) : Except GateError BodyState :=
  if line = marker then readMarker st
  else
    match line.head?.bind sideOf with
    | none => .error (refuse "patch: illegal hunk line" line)
    | some side =>
      if side ≠ .new ∧ st.oldClosed then .error (refuse "patch: old-side line after a no-newline marker")
      else if side ≠ .old ∧ st.newClosed then .error (refuse "patch: new-side line after a no-newline marker")
      else
        .ok { st with ctx := st.ctx + if side = .both then 1 else 0, minus := st.minus + if side = .old then 1 else 0,
                      plus := st.plus + if side = .new then 1 else 0, lastHead := some side,
                      lines := st.lines ++ [(side, line.tail ++ [lf])] }

def readBody (st : BodyState) : List Bytes → Except GateError BodyState
  | [] => .ok st
  | line :: rest =>
    match readLine st line with
    | .error e => .error e
    | .ok st => readBody st rest

/-- A hunk's header: its two ranges, the old one within the preimage and past the hunk before. -/
def readHeader (preLines prevOldEnd : Nat) (sawMarker : Bool) (rec : Bytes) :
    Except GateError ((Nat × Nat) × (Nat × Nat)) :=
  if !isHeader rec then .error (refuse "patch: expected a hunk header, got" rec)
  else if sawMarker then .error (refuse "patch: a hunk after a no-newline-at-EOF marker")
  else
    match splitPlus ((rec.drop 4).take (rec.length - 7)) with
    | none => .error (refuse "patch: malformed hunk header")
    | some (oldPart, newPart) =>
      match range oldPart with
      | .error e => .error e
      | .ok old =>
        match range newPart with
        | .error e => .error e
        | .ok new =>
          if 0 < old.2 ∧ (old.1 < 1 ∨ preLines < old.1 + old.2 - 1) then
            .error (refuse "patch: a hunk range is outside the preimage")
          else if old.2 = 0 ∧ preLines < old.1 then
            .error (refuse "patch: an insertion range is past the preimage")
          else if old.1 < prevOldEnd then .error (refuse "patch: hunks not increasing / non-overlapping")
          else .ok (old, new)

/-- A hunk's body: the records up to the next header. -/
def readHunk (sawMarker : Bool) (ranges : (Nat × Nat) × (Nat × Nat)) (body : List Bytes) :
    Except GateError (Hunk Bytes × Bool) :=
  match readBody { sawMarker := sawMarker } body with
  | .error e => .error e
  | .ok st =>
    if st.ctx + st.minus ≠ ranges.1.2 ∨ st.ctx + st.plus ≠ ranges.2.2 then
      .error (refuse "patch: hunk line counts disagree with header")
    else if st.minus = 0 ∧ st.plus = 0 then .error (refuse "patch: a hunk changes nothing")
    else .ok (⟨ranges.1.1, ranges.1.2, ranges.2.1, ranges.2.2, st.lines⟩, st.sawMarker)

def readHunks (preLines prevOldEnd : Nat) (sawMarker : Bool) : List Bytes → Except GateError (List (Hunk Bytes))
  | [] => .ok []
  | rec :: rest =>
    match readHeader preLines prevOldEnd sawMarker rec with
    | .error e => .error e
    | .ok ranges =>
      match readHunk sawMarker ranges (rest.takeWhile fun r => !isHeader r) with
      | .error e => .error e
      | .ok (hunk, sawMarker) =>
        (readHunks preLines (ranges.1.1 + ranges.1.2) sawMarker (rest.dropWhile fun r => !isHeader r)).map (hunk :: ·)
termination_by recs => recs.length
decreasing_by
  have := (List.dropWhile_sublist fun r => !isHeader r : (rest.dropWhile fun r => !isHeader r).Sublist rest).length_le
  simp only [List.length_cons]
  omega

def readPatch (patch : Bytes) (rel : List CodePoint) (preimage : Bytes) : Except GateError (List (Hunk Bytes)) :=
  if patch = [] then .ok []
  else
    match records patch with
    | .error e => .error e
    | .ok recs =>
      if recs.length < 4 then .error (refuse "patch is too short for a single-file diff")
      else if recs[0]? ≠ (fileHeader (utf8 rel))[0]? then
        .error (refuse "patch: 'diff --git' header is not the allowed path")
      else if recs[1]? ≠ (fileHeader (utf8 rel))[1]? then .error (refuse "patch: '---' header is not the allowed path")
      else if recs[2]? ≠ (fileHeader (utf8 rel))[2]? then .error (refuse "patch: '+++' header is not the allowed path")
      else
        match readHunks (countLines preimage) 0 false (recs.drop 3) with
        | .error e => .error e
        | .ok hunks => if hunks = [] then .error (refuse "patch: the file header carries no hunk") else .ok hunks

/-- The check itself. -/
def parseStep8Patch (patch : Bytes) (rel : List CodePoint) (preimage : Bytes) : Except GateError Unit :=
  (readPatch patch rel preimage).map fun _ => ()

/-- The bytes the hunks make of `preimage`. -/
def applyPatch (hunks : List (Hunk Bytes)) (preimage : Bytes) : Option Bytes :=
  (applyHunks (splitLines preimage) 0 hunks).map List.flatten

end OwnNet.Fix
