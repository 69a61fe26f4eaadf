import Skp.Utils.Str2int

/-! # From text to a scaled number

`str2float` of `string.c`. Three numbers share one loop: the digits go to the integer part, the
fraction or the exponent. Signed overflow wraps as it does on the machine. -/
namespace Skp.Utils
set_option autoImplicit false
open Skp.Foundations

def point : UInt8 := 46
def plusSign : UInt8 := 43

def isExponent (c : UInt8) : Bool := c == 69 || c == 101

/-- Where `pi` points to. -/
inductive FloatPart where
  | iv
  | dv
  | ev
deriving DecidableEq

structure FloatScan where
  iv : ℤ
  dv : ℤ
  ev : ℤ
  dvB : ℤ
  pi : FloatPart
  eIsreg : Bool
  ll : ℕ

def wrap32 (z : ℤ) : ℤ := z.bmod (2 ^ 32)
def wrap64 (z : ℤ) : ℤ := z.bmod (2 ^ 64)

/-- `*pi * 10 + digit` -/
def addDigit (n : ℤ) (c : UInt8) : ℤ := wrap64 (wrap64 (n * 10) + digitVal c)

def readInto (s : FloatScan) (c : UInt8) : FloatScan :=
  match s.pi with
  | .iv => { s with iv := addDigit s.iv c, ll := s.ll + 1 }
  | .dv => { s with dv := addDigit s.dv c, dvB := wrap32 (s.dvB + 1), ll := s.ll + 1 }
  | .ev => { s with ev := addDigit s.ev c, ll := s.ll + 1 }

/-- The loop; `none` is `-EINVAL`. -/
def floatLoop : List UInt8 → FloatScan → Option FloatScan
  | [], s => some s
  | c :: cs, s =>
      if isDigit c then floatLoop cs (readInto s c)
      else if c = point ∧ s.pi ≠ .dv then floatLoop cs { s with pi := .dv }
      else if isExponent c = true ∧ s.pi ≠ .ev then
        match cs with
        | [] => some { s with pi := .ev }
        | d :: ds =>
            if d = minusSign ∨ d = plusSign then
              floatLoop ds { s with pi := .ev, eIsreg := s.eIsreg || d == minusSign }
            else floatLoop (d :: ds) { s with pi := .ev }
      else none

def floatStart : FloatScan := ⟨0, 0, 0, 0, .iv, false, 0⟩

/-- `e_multi` after `n` rounds. -/
def eMulti : ℕ → ℤ
  | 0 => 1
  | n + 1 => wrap32 (eMulti n * 10)

/-- `multi` with the exponent applied. -/
def scaleMulti (s : FloatScan) (multi : ℤ) : Option ℤ :=
  if s.ev = 0 then some multi
  else if s.iv < 1 ∨ 9 < s.iv then none
  else if 18 < s.ev then none
  else if s.eIsreg then
    if multi.tdiv (eMulti s.ev.toNat) = 0 then none else some (multi.tdiv (eMulti s.ev.toNat))
  else some (wrap32 (multi * eMulti s.ev.toNat))

/-- The number of digits when each of them is 9, `none` at another digit. -/
def nines (i : ℕ) : Option ℕ :=
  if h : i = 0 then some 0 else if i % 10 ≠ 9 then none else (nines (i / 10)).map (· + 1)
termination_by i
decreasing_by exact Nat.div_lt_self (Nat.pos_of_ne_zero h) (by decide)

/-- `dv` with `multiB` digits instead of `dvB`. -/
def scaleFraction (dv dvB multiB : ℤ) : ℤ :=
  if dvB < multiB then (fun z => wrap64 (z * 10))^[(multiB - dvB).toNat] dv
    else (fun z => z.tdiv 10)^[(dvB - multiB).toNat] dv

/-- `iv * multi / multi * multi`, unsigned. -/
def scaleWhole (iv multi : ℤ) : ℤ := wrap64 (iv * multi % 2 ^ 64 / (multi % 2 ^ 64) * multi)

/-- `v`, where `multi` is what `scaleMulti` leaves; for a power of ten this is never 0. -/
def floatValue (s : FloatScan) (multi : ℤ) : Option ℤ :=
  (nines (wrap32 (multi - 1)).toNat).map fun multiB : ℕ =>
    wrap64 (scaleWhole s.iv multi + if s.dv = 0 then 0 else scaleFraction s.dv s.dvB multiB)

/-- The value returned and the value stored. -/
def str2float (buf : List UInt8) (l multi : ℤ) : ℤ × Option ℤ :=
  if l = 0 ∨ multi < 1 then (eINVAL, none)
  else
    let isreg := buf.getD 0 0 = minusSign
    let cs := if isreg then chars buf 1 (textLength buf l - 1) else chars buf 0 (textLength buf l)
    if isreg ∧ cs = [] then (eINVAL, none)
    else
      match floatLoop cs floatStart with
      | none => (eINVAL, none)
      | some s =>
          if s.eIsreg = true ∧ s.ev = 0 then (eINVAL, none)
          else
            match (scaleMulti s multi).bind (floatValue s) with
            | none => (eINVAL, none)
            | some v =>
                (if s.ll = 0 then eINVAL else if isreg then 1 else 0,
                  some (if isreg then wrap64 (-v) else v))

/-! ## What should be -/

structure FloatText where
  whole : List UInt8
  fraction : List UInt8
  exponent : List UInt8
  negExp : Bool

namespace FloatText

variable (t : FloatText)

def digits : List UInt8 := t.whole ++ t.fraction ++ t.exponent

/-- The power of ten that is written. -/
def power : ℤ := signed t.negExp (decimal t.exponent)

def value : ℚ := (decimal t.whole + decimal t.fraction / 10 ^ t.fraction.length) * 10 ^ t.power

/-- A point and the fraction, or no point. -/
def PointPart (cs : List UInt8) : Prop := cs = [] ∧ t.fraction = [] ∨ cs = point :: t.fraction

/-- The letter, an optional sign and at least one digit, or nothing. -/
def ExponentPart (cs : List UInt8) : Prop :=
  cs = [] ∧ t.exponent = [] ∧ t.negExp = false ∨
  ∃ c sgn, isExponent c = true ∧ (sgn = sign t.negExp ∨ sgn = [plusSign] ∧ t.negExp = false) ∧
    cs = c :: (sgn ++ t.exponent) ∧ t.exponent ≠ []

end FloatText

/-- An optional minus sign, digits with at most one point, at most one exponent. -/
def IsFloat (cs : List UInt8) (neg : Bool) (t : FloatText) : Prop :=
  (∀ d ∈ t.digits, isDigit d = true) ∧ t.whole ++ t.fraction ≠ [] ∧
  ∃ ps es, t.PointPart ps ∧ t.ExponentPart es ∧ cs = sign neg ++ t.whole ++ ps ++ es

/-- A text that is not turned down is a number, and its value times `multi` is stored, truncated. -/
def Str2floatRight (buf : List UInt8) (l multi : ℤ) : Prop :=
  (str2float buf l multi).1 = 0 ∨ (str2float buf l multi).1 = 1 →
    ∃ neg t, IsFloat (text buf l) neg t ∧ (str2float buf l multi).2 = some (signed neg ⌊t.value * multi⌋₊)

/-! ## What the code makes right -/

/-- What stands behind a mark: a point, or an exponent letter with a sign or none. -/
inductive Segment where
  | fraction (ds : List UInt8)
  | exponent (c : UInt8) (sgn ds : List UInt8)

namespace Segment

def chars : Segment → List UInt8
  | fraction ds => point :: ds
  | exponent c sgn ds => c :: (sgn ++ ds)

def part : Segment → FloatPart
  | fraction _ => .dv
  | exponent .. => .ev

def fractionDigits : Segment → List UInt8
  | fraction ds => ds
  | exponent .. => []

def exponentDigits : Segment → List UInt8
  | fraction _ => []
  | exponent _ _ ds => ds

def negative : Segment → Bool
  | fraction _ => false
  | exponent _ sgn _ => sgn == [minusSign]

def Ok : Segment → Prop
  | fraction ds => ∀ d ∈ ds, isDigit d = true
  | exponent c sgn ds => isExponent c = true ∧ (sgn = [] ∨ sgn = [plusSign] ∨ sgn = [minusSign]) ∧
      ∀ d ∈ ds, isDigit d = true

end Segment

/-- Digits cut by points and exponent letters, two of a kind never next to each other. -/
structure Marked (cs whole : List UInt8) (segs : List Segment) : Prop where
  spelled : cs = whole ++ segs.flatMap Segment.chars
  digits : ∀ d ∈ whole, isDigit d = true
  parts : ∀ s ∈ segs, s.Ok
  alternate : segs.IsChain fun s s' => s.part ≠ s'.part

/-- The digits before the first mark, those behind points and those behind letters. -/
def floatText (whole : List UInt8) (segs : List Segment) : FloatText :=
  ⟨whole, segs.flatMap Segment.fractionDigits, segs.flatMap Segment.exponentDigits, segs.any Segment.negative⟩

/-- Each exponent letter stands behind a digit and before one, and no point or letter follows it. -/
def ExponentPlaced (cs : List UInt8) : Prop :=
  ∀ pre c post, cs = pre ++ c :: post → isExponent c = true →
    (∃ d ∈ pre, isDigit d = true) ∧ (∃ d ∈ post, isDigit d = true) ∧ ∀ d ∈ post, d ≠ point ∧
      isExponent d = false

namespace FloatText
variable (t : FloatText)

/-- The numbers in 64 bits. -/
def lowWhole : ℕ := decimal t.whole % 2 ^ 64
def lowExponent : ℕ := decimal t.exponent % 2 ^ 64

/-- No digit, a minus before an exponent of 0, an exponent on a number that does not begin with one
digit from 1 to 9, one beyond 18, and one that makes `10 ^ m` smaller than 1 or, in 32 bits,
positive and no power of ten. `10 ^ 12` in 32 bits is `-727379968`, and `10 ^ 9` divided by it is
`-1`. -/
inductive TurnedDown (m : ℕ) : Prop where
  | noDigit (hdigits : t.digits = [])
  | minusZero (hneg : t.negExp = true) (hzero : t.lowExponent = 0)
  | mantissa (hexp : t.lowExponent ≠ 0) (hwhole : t.lowWhole < 1 ∨ 9 < t.lowWhole)
  | large (hexp : 18 < t.lowExponent) (hpos : t.lowExponent < 2 ^ 63)
  | divided (hexp : t.lowExponent ≤ 18) (hneg : t.negExp = true) (hlt : m < t.lowExponent)
      (hodd : ¬(m = 9 ∧ t.lowExponent = 12))
  | multiplied (hexp : t.lowExponent ≤ 18) (hneg : t.negExp = false)
      (hlarge : 2 ^ 31 ≤ 10 ^ (m + t.lowExponent))
      (hbit : 10 ^ (m + t.lowExponent) % 2 ^ 32 < 2 ^ 31)

/-- The number times `10 ^ m`, truncated. -/
def scaled (m : ℕ) : ℕ := ⌊t.value * ((10 ^ m : ℤ) : ℚ)⌋₊

/-- The first `n` digits of the fraction are the same with the fraction in 64 bits. -/
def FractionKept (n : ℕ) : Prop :=
  ((decimal t.fraction : ℤ).bmod (2 ^ 64)).tdiv (10 ^ (t.fraction.length - n)) =
    (decimal t.fraction / 10 ^ (t.fraction.length - n) : ℕ)

/-- The exponent, the power of ten and the result fit and the fraction is kept; or the number is 0,
or it is cut to 0 all the same. -/
inductive Exact (m : ℕ) (neg : Bool) : Prop where
  | fits (n : ℕ) (hexp : decimal t.exponent < 2 ^ 63) (hpower : (m : ℤ) + t.power = n)
      (hn : (10 : ℤ) ^ n < 2 ^ 31)
      (hresult : FitsInt64 (signed neg (t.scaled m))) (hkept : t.FractionKept n)
  | zero (hwhole : decimal t.whole = 0) (hfraction : decimal t.fraction = 0)
  | cut (hm : m = 9) (hexp : t.lowExponent = 12) (hneg : t.negExp = true) (hwhole : t.lowWhole ≠ 1)
      (hzero : t.scaled m = 0)

end FloatText

/-- The digits behind points are fewer than an int counts. -/
def Counted (buf : List UInt8) (l : ℤ) : Prop :=
  ∀ whole segs, Marked (digitsOf buf l) whole segs → (floatText whole segs).fraction.length < 2 ^ 31

/-- What `str2float` does right. -/
def Str2floatHolds (buf : List UInt8) (l : ℤ) (m : ℕ) : Prop :=
  ∀ whole segs, Marked (digitsOf buf l) whole segs → (floatText whole segs).TurnedDown m ∨
    ExponentPlaced (digitsOf buf l) ∧ (floatText whole segs).fraction.length < 2 ^ 31 ∧
      (floatText whole segs).Exact m (decide (buf.getD 0 0 = minusSign))

end Skp.Utils
