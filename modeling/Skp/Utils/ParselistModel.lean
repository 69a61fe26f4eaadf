import Skp.Errno
import Skp.Foundations.Digits
import Skp.Utils.BitmapRange

/-! # Bitmaps from text

`__bitmap_parselist` of `bitmap.c`. The buffer is the bytes that may be read; all sizes and
positions are unsigned ints, and the two counts of digits are ints. -/
namespace Skp.Utils
set_option autoImplicit false
open Skp.Foundations

/-! ## The text -/

def comma : UInt8 := 44
def slash : UInt8 := 47
def colon : UInt8 := 58
def hyphen : UInt8 := 45

def isspace (c : UInt8) : Bool := c == 32 || (9 ≤ c.toNat && c.toNat ≤ 13)

structure ScanState where
  c : UInt8
  a : ℕ
  b : ℕ
  oldA : ℕ
  oldB : ℕ
  usedSize : ℕ
  atStart : Bool
  inRange : Bool
  inPartialRange : Bool
  ndigits : BitVec 32
  totaldigits : BitVec 32

/-- A character that is no white space and does not end an item; `none` is `-EINVAL`. -/
def scanChar (s : ScanState) (c : UInt8) : Option ScanState :=
  if s.totaldigits ≠ s.ndigits ∧ isspace s.c = true then none
  else
    let s := { s with c := c }
    if c = slash then some { s with usedSize := s.a, atStart := true, inRange := false, a := 0, b := 0 }
    else if c = colon then
      some { s with
        oldA := s.a
        oldB := s.b
        atStart := true
        inRange := false
        inPartialRange := true
        a := 0
        b := 0 }
    else if c = hyphen then
      if s.atStart = true ∨ s.inRange = true then none
        else some { s with b := 0, inRange := true, atStart := true }
    else if isDigit c = false then none
    else
      let b := (s.b * 10 + digitVal c) % 2 ^ 32
      some { s with
        b := b
        a := if s.inRange then s.a else b
        atStart := false
        totaldigits := s.totaldigits + 1 }

/-- The inner loop: the state after an item and what follows. -/
def scanLoop : List UInt8 → ScanState → Option (ScanState × List UInt8)
  | [], s => some (s, [])
  | c :: buf, s =>
      if isspace c then scanLoop buf { s with c := c }
      else if c = 0 ∨ c = comma then some ({ s with c := c }, buf)
      else match scanChar s c with
        | none => none
        | some s => scanLoop buf s

/-- `bitmap_set`. Its length is an int. -/
def bitmapSet (map : ℕ → BitVec 64) (start nbits : ℕ) : ℕ → BitVec 64 :=
  (bitmapSetWords map start (BitVec.ofNat 32 nbits).toInt).map

/-- The loop over the groups of a range; `none` after `n` rounds. -/
def groupLoop : ℕ → (ℕ → BitVec 64) → ℕ → ℕ → ℕ → ℕ → Option (ℕ → BitVec 64)
  | 0, _, _, _, _, _ => none
  | n + 1, map, a, b, groupSize, usedSize =>
      if a ≤ b then
        groupLoop n (bitmapSet map a (min ((b + 2 ^ 32 - a + 1) % 2 ^ 32) usedSize))
          ((a + groupSize) % 2 ^ 32) b groupSize
          usedSize
      else some map

def startItem (s : ScanState) : ScanState :=
  { s with
    atStart := true
    inRange := false
    inPartialRange := false
    a := 0
    b := 0
    ndigits := s.totaldigits }

/-- What is done with an item that has digits: an error or the new bitmap. 2^32 rounds without an
end repeat for ever. -/
def setItem (s : ScanState) (map : ℕ → BitVec 64) (nbits : ℕ) : Option (ScanState × (ℤ ⊕ (ℕ → BitVec 64))) :=
  let groupSize := if s.inPartialRange then s.a else (s.b + 2 ^ 32 - s.a + 1) % 2 ^ 32
  let s : ScanState :=
    if s.inPartialRange then { s with a := s.oldA, b := s.oldB, oldA := 0, oldB := 0 }
      else { s with usedSize := groupSize }
  if s.atStart = true ∧ s.inRange = true then some (s, .inl eINVAL)
  else if ¬s.a ≤ s.b ∨ groupSize = 0 ∨ ¬s.usedSize ≤ groupSize then some (s, .inl eINVAL)
  else if nbits ≤ s.b then some (s, .inl eRANGE)
  else match groupLoop (2 ^ 32) map s.a s.b groupSize s.usedSize with
    | none => none
    | some map => some (s, .inr map)

/-- The outer loop, at most `n` rounds: the value returned and the bitmap. -/
def parseLoop (nbits : ℕ) : ℕ → List UInt8 → ScanState → (ℕ → BitVec 64) → Option (ℤ × (ℕ → BitVec 64))
  | 0, _, _, _ => none
  | n + 1, buf, s, map =>
      match scanLoop buf (startItem s) with
      | none => some (eINVAL, map)
      | some (s, rest) =>
          match (if s.ndigits = s.totaldigits then some (s, .inr map) else setItem s map nbits) with
          | none => none
          | some (_, .inl error) => some (error, map)
          | some (s, .inr map) => if rest ≠ [] ∧ s.c = comma then parseLoop nbits n rest s map
              else some (0, map)

def scanInit : ScanState where
  c := 0
  a := 0
  b := 0
  oldA := 0
  oldB := 0
  usedSize := 0
  atStart := true
  inRange := false
  inPartialRange := false
  ndigits := 0
  totaldigits := 0

/-- `__bitmap_parselist`; every round of the outer loop but the last takes a comma. -/
def bitmapParselist (buf : List UInt8) (map : ℕ → BitVec 64) (nbits : ℕ) : Option (ℤ × (ℕ → BitVec 64)) :=
  parseLoop nbits (buf.length + 1) buf scanInit (zeroWords map 0 (bitsToLongs nbits))

end Skp.Utils
