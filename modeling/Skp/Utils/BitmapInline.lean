import Skp.Utils.BitmapScan
import Skp.Utils.BitmapShift

/-! # Bitmaps of one word

The branches of `bitmap.h` for a constant number of bits that fits a word, beside the functions of
`bitmap.c` that run otherwise. -/
namespace Skp.Utils
set_option autoImplicit false
open Skp.Foundations

/-! ## The functions over words -/

def hweight64 (w : BitVec 64) : ℕ := w.cpop.toNat

/-- The first `k` rounds. -/
def weightLoop (bitmap : ℕ → BitVec 64) : ℕ → ℕ
  | 0 => 0
  | k + 1 => (weightLoop bitmap k + hweight64 (bitmap k)) % 2 ^ 32

def bitmapWeight (bitmap : ℕ → BitVec 64) (bits : ℕ) : ℕ :=
  let lim := bits / 64 % 2 ^ 32
  let w := weightLoop bitmap lim
  if bits % 64 ≠ 0 then (w + hweight64 (bitmap lim &&& bitmapLastWordMask bits)) % 2 ^ 32 else w

/-- The comparisons stop at a whole word that `hit` picks, or at the bits of `tail` in the last word. -/
def someWord (hit : ℕ → Bool) (tail : ℕ → BitVec 64) (bits : ℕ) : Bool :=
  let lim := bits / 64
  (List.range lim).any hit || (decide (bits % 64 ≠ 0) && decide (tail lim &&& bitmapLastWordMask bits ≠ 0))

section Compare
variable (bitmap1 bitmap2 : ℕ → BitVec 64) (bits : ℕ)

def bitmapEqual : Bool := !someWord (fun k => bitmap1 k ≠ bitmap2 k) (fun k => bitmap1 k ^^^ bitmap2 k) bits

def bitmapIntersects : Bool :=
  someWord (fun k => bitmap1 k &&& bitmap2 k ≠ 0) (fun k => bitmap1 k &&& bitmap2 k) bits

def bitmapSubset : Bool :=
  !someWord (fun k => bitmap1 k &&& ~~~bitmap2 k ≠ 0) (fun k => bitmap1 k &&& ~~~bitmap2 k) bits

end Compare

section Combine
variable (f : BitVec 64 → BitVec 64 → BitVec 64) (mem : ℕ → BitVec 64) (dst bitmap1 bitmap2 bits : ℕ)

/-- The first `k` rounds, with `result`. -/
def combineLoop : ℕ → (ℕ → BitVec 64) × BitVec 64
  | 0 => (mem, 0)
  | k + 1 =>
      let (mem, result) := combineLoop k
      let v := f (mem (bitmap1 + k)) (mem (bitmap2 + k))
      (Function.update mem (dst + k) v, result ||| v)

def combineWords : (ℕ → BitVec 64) × Bool :=
  let lim := bits / 64
  let (mem, result) := combineLoop f mem dst bitmap1 bitmap2 lim
  if bits % 64 ≠ 0 then
    let v := f (mem (bitmap1 + lim)) (mem (bitmap2 + lim)) &&& bitmapLastWordMask bits
    (Function.update mem (dst + lim) v, decide (result ||| v ≠ 0))
  else (mem, decide (result ≠ 0))

def bitmapAnd : (ℕ → BitVec 64) × Bool := combineWords (fun a b => a &&& b) mem dst bitmap1 bitmap2 bits

def bitmapAndnot : (ℕ → BitVec 64) × Bool := combineWords (fun a b => a &&& ~~~b) mem dst bitmap1 bitmap2 bits

end Combine

section First
variable {size : ℕ} (addr : Bitmap size)

/-- The loop of `_find_first_bit` and `_find_first_zero_bit`: a word other than `skip` is looked at
through `view`. -/
def findFirstLoop (view : BitVec 64 → BitVec 64) (skip : BitVec 64) : ℕ → ℕ → Option ℕ
  | 0, _ => none
  | fuel + 1, idx =>
      if idx * 64 % 2 ^ 64 < size then
        (addr.read idx).bind fun w =>
          if w ≠ skip then some (min ((idx * 64 + lowBit (view w)) % 2 ^ 64) size)
            else findFirstLoop view skip fuel (idx + 1)
      else some size

def findFirstBit : Option ℕ := findFirstLoop addr id 0 (bitsToLongs size + 1) 0

def findFirstZeroBit : Option ℕ :=
  findFirstLoop addr (fun w => ~~~w) (BitVec.allOnes 64) (bitsToLongs size + 1) 0

/-- The branch of `bitmap_empty` with a loop. -/
def bitmapEmpty : Option Bool := (findFirstBit addr).map fun r => decide (r = size)

/-- The branch of `bitmap_full` with a loop. -/
def bitmapFull : Option Bool := (findFirstZeroBit addr).map fun r => decide (r = size)

end First

/-! ## The branches for one word -/

section Word
variable (src src2 : BitVec 64) (mem : ℕ → BitVec 64) (dst src1At src2At nbits shift off : ℕ)

def bitmapWeightWord : ℕ := hweight64 (src &&& bitmapLastWordMask nbits)

def bitmapEqualWord : Bool := decide ((src ^^^ src2) &&& bitmapLastWordMask nbits = 0)

def bitmapIntersectsWord : Bool := decide (src &&& src2 &&& bitmapLastWordMask nbits ≠ 0)

def bitmapSubsetWord : Bool := decide (src &&& ~~~src2 &&& bitmapLastWordMask nbits = 0)

def bitmapEmptyWord : Bool := decide (src &&& bitmapLastWordMask nbits = 0)

def bitmapFullWord : Bool := decide (~~~src &&& bitmapLastWordMask nbits = 0)

def bitmapAndWord : (ℕ → BitVec 64) × Bool :=
  let v := mem src1At &&& mem src2At &&& bitmapLastWordMask nbits
  (Function.update mem dst v, decide (v ≠ 0))

def bitmapAndnotWord : (ℕ → BitVec 64) × Bool :=
  let v := mem src1At &&& ~~~mem src2At &&& bitmapLastWordMask nbits
  (Function.update mem dst v, decide (v ≠ 0))

def bitmapShiftRightWord : ℕ → BitVec 64 :=
  Function.update mem dst ((mem src1At &&& bitmapLastWordMask nbits) >>> shift)

def bitmapShiftLeftWord : ℕ → BitVec 64 :=
  Function.update mem dst (mem src1At <<< shift &&& bitmapLastWordMask nbits)

/-- `__scanbit` -/
def scanbit (val : BitVec 64) (max : ℕ) : ℕ := if val = 0 then max else lowBit val

def findFirstBitWord : ℕ := scanbit src nbits

def findFirstZeroBitWord : ℕ := scanbit (~~~src) nbits

/-- A shift by the width of the word is undefined. -/
def findNextBitWord : Option ℕ := if off < 64 then some (off + scanbit (src >>> off) (nbits - off)) else none

def findNextZeroBitWord : Option ℕ :=
  if off < 64 then some (off + scanbit (~~~(src >>> off)) (nbits - off)) else none

end Word

variable {mem : ℕ → BitVec 64} {w v skip : BitVec 64} {view : BitVec 64 → BitVec 64} {want : ℕ → Bool}
  {dst a a1 a2 nbits shift off idx fuel r i b : ℕ}

/-! ## The search from the first bit -/

theorem findFirstLoop_least {addr : Bitmap nbits} (hview : ∀ w, view w = 0 ↔ w = skip)
    (hfuel : bitsToLongs nbits < idx + fuel)
    (hidx : idx ≤ bitsToLongs nbits)
    (hbelow : ∀ i, i < 64 * idx → bitAt (fun k => view (addr.word k)) i = false) :
    ∃ r, findFirstLoop addr view skip fuel idx = some r ∧
      LeastFrom (bitAt fun k => view (addr.word k)) 0 nbits r := by
  have hmax := addr.nbits_le
  have hlen : bitsToLongs nbits = (nbits + 63) / 64 := rfl
  induction fuel generalizing idx with
  | zero => omega
  | succ fuel ih =>
    have hat : idx * 64 % 2 ^ 64 = 64 * idx := by omega
    rw [findFirstLoop, hat]
    by_cases hmore : 64 * idx < nbits
    · have hin : idx < bitsToLongs nbits := by omega
      rw [if_pos hmore, Bitmap.read, if_pos hin, Option.bind_some]
      by_cases hskip : addr.word idx ≠ skip
      · have hne : view (addr.word idx) ≠ 0 := fun hzero => hskip ((hview _).mp hzero)
        have hlt := lowBit_lt hne
        have hset := getLsbD_lowBit hne
        have hsum : (idx * 64 + lowBit (view (addr.word idx))) % 2 ^ 64 = 64 * idx +
            lowBit (view (addr.word idx)) := by omega
        rw [if_pos hskip, hsum]
        refine ⟨_, rfl, fun i _ hi => ?_, ?_⟩
        · by_cases hword : i < 64 * idx
          · exact hbelow i hword
          · have hpos : i = 64 * idx + (i - 64 * idx) := by omega
            have hlow : i < 64 * idx + lowBit (view (addr.word idx)) :=
              lt_of_lt_of_le hi (Nat.min_le_left _ _)
            rw [hpos, bitAt_word (by omega)]
            exact getLsbD_below_lowBit (by omega)
        · by_cases hfits : 64 * idx + lowBit (view (addr.word idx)) < nbits
          · rw [Nat.min_eq_left hfits.le, bitAt_word hlt]
            exact Or.inr ⟨Nat.zero_le _, hfits, hset⟩
          · exact Or.inl (Nat.min_eq_right (Nat.not_lt.mp hfits))
      · have hzero : view (addr.word idx) = 0 := (hview _).mpr (not_not.mp hskip)
        rw [if_neg hskip]
        apply ih (by omega) (by omega)
        intro i hi
        by_cases hword : i < 64 * idx
        · exact hbelow i hword
        · have hpos : i = 64 * idx + (i - 64 * idx) := by omega
          rw [hpos, bitAt_word (by omega), hzero]
          exact BitVec.getLsbD_zero
    · rw [if_neg hmore]
      exact ⟨nbits, rfl, fun i _ hi => hbelow i (by omega), Or.inl rfl⟩

theorem findFirstBit_least (addr : Bitmap nbits) :
    ∃ r, findFirstBit addr = some r ∧ LeastFrom (bitAt addr.word) 0 nbits r := by
  apply findFirstLoop_least (fun w => Iff.rfl) (by omega) (Nat.zero_le _)
  intro i hi
  omega

theorem bitAt_not (m : ℕ → BitVec 64) : bitAt (fun k => ~~~m k) = fun i => !bitAt m i := by
  funext i
  have hmod : i % 64 < 64 := Nat.mod_lt _ (by omega)
  simp only [bitAt, BitVec.getLsbD_not, hmod, decide_true, Bool.true_and]

theorem findFirstZeroBit_least (addr : Bitmap nbits) :
    ∃ r, findFirstZeroBit addr = some r ∧ LeastFrom (fun i => !bitAt addr.word i) 0 nbits r := by
  rw [← bitAt_not]
  apply findFirstLoop_least _ (by omega) (Nat.zero_le _)
  · intro i hi
    omega
  · intro w
    constructor
    · intro hzero
      rw [← BitVec.not_not (b := w), hzero]
      rfl
    · rintro rfl
      rfl

/-! ## One word against the loops -/

theorem lastMask_bits (hn : nbits < 64) (hb : b < 64) :
    (bitmapLastWordMask nbits).getLsbD b = decide (b < nbits) := by
  rw [bitmapLastWordMask, Nat.mod_eq_of_lt hn, getLsbD_lowMask hb]

theorem masked_eq_zero (hn : nbits < 64) : w &&& bitmapLastWordMask nbits = 0 ↔ ∀ b, b < nbits →
      w.getLsbD b = false := by
  rw [eq_zero_iff_bits]
  constructor
  · intro h b hb
    have hbit := h b (by omega)
    rw [BitVec.getLsbD_and, lastMask_bits hn (by omega), decide_eq_true hb, Bool.and_true] at hbit
    exact hbit
  · intro h b hb
    rw [BitVec.getLsbD_and, lastMask_bits hn hb]
    by_cases hlow : b < nbits
    · rw [h b hlow, Bool.false_and]
    · rw [decide_eq_false hlow, Bool.and_false]

/-- The word `v` is what the search from `off` on looks at: its answer is out of range when the only
bit is a stray one. -/
theorem scanbit_eq_iff (hoff : off ≤ nbits) (hv : ∀ b, off + b ≤ nbits → v.getLsbD b = want (off + b))
    (hr : LeastFrom want off nbits r) :
    off + scanbit v (nbits - off) = r ↔ v = 0 ∨ ∃ i, off ≤ i ∧ i ≤ nbits ∧ want i = true := by
  have hle : r ≤ nbits := by
    rcases hr.found with rfl | ⟨_, hlt, _⟩
    · exact le_refl _
    · exact hlt.le
  by_cases hzero : v = 0
  · have hnone : LeastFrom want off nbits nbits := by
      refine ⟨fun i hlow hi => ?_, Or.inl rfl⟩
      have hbit := hv (i - off) (by omega)
      rw [hzero, Nat.add_sub_cancel' hlow] at hbit
      exact hbit.symm.trans BitVec.getLsbD_zero
    have hsum : off + (nbits - off) = nbits := by omega
    rw [scanbit, if_pos hzero, hsum]
    exact iff_of_true (hnone.unique hr) (Or.inl hzero)
  · have hset := getLsbD_lowBit hzero
    rw [scanbit, if_neg hzero]
    by_cases hin : off + lowBit v ≤ nbits
    · have hwant : want (off + lowBit v) = true := (hv _ hin).symm.trans hset
      have hleast : LeastFrom want off nbits (off + lowBit v) := by
        constructor
        · intro i hlow hi
          have hno : v.getLsbD (i - off) = false := getLsbD_below_lowBit (by omega)
          rw [hv _ (by omega), Nat.add_sub_cancel' hlow] at hno
          exact hno
        · by_cases hlt : off + lowBit v < nbits
          · exact Or.inr ⟨Nat.le_add_right _ _, hlt, hwant⟩
          · exact Or.inl (by omega)
      exact iff_of_true (hleast.unique hr) (Or.inr ⟨_, Nat.le_add_right _ _, hin, hwant⟩)
    · apply iff_of_false
      · omega
      · rintro (hno | ⟨i, hlow, hi, hwant⟩)
        · exact hzero hno
        · have hno : v.getLsbD (i - off) = false := getLsbD_below_lowBit (by omega)
          rw [hv _ (by omega), Nat.add_sub_cancel' hlow, hwant] at hno
          cases hno

theorem someWord_word {hit : ℕ → Bool} {tail : ℕ → BitVec 64} (hpos : 1 ≤ nbits) (hn : nbits < 64) :
    someWord hit tail nbits = decide (tail 0 &&& bitmapLastWordMask nbits ≠ 0) := by
  have hlim : nbits / 64 = 0 := by omega
  have htail : nbits % 64 ≠ 0 := by omega
  simp only [someWord, hlim, List.range_zero, List.any_nil, Bool.false_or, htail, ne_eq,
    not_false_eq_true, decide_true, Bool.true_and]

theorem combineWords_word {f : BitVec 64 → BitVec 64 → BitVec 64} (hpos : 1 ≤ nbits) (hn : nbits < 64) :
    combineWords f mem dst a1 a2 nbits =
      (Function.update mem dst (f (mem a1) (mem a2) &&& bitmapLastWordMask nbits),
        decide (f (mem a1) (mem a2) &&& bitmapLastWordMask nbits ≠ 0)) := by
  have hlim : nbits / 64 = 0 := by omega
  have htail : nbits % 64 ≠ 0 := by omega
  have hor (x : BitVec 64) : 0 ||| x = x := BitVec.zero_or
  simp only [combineWords, hlim, combineLoop, if_pos htail, Nat.add_zero, hor]

theorem bitmapWeight_word {bitmap : ℕ → BitVec 64} (hpos : 1 ≤ nbits) (hn : nbits < 64) :
    bitmapWeight bitmap nbits = hweight64 (bitmap 0 &&& bitmapLastWordMask nbits) := by
  have hlim : nbits / 64 % 2 ^ 32 = 0 := by omega
  have htail : nbits % 64 ≠ 0 := by omega
  have hlt : hweight64 (bitmap 0 &&& bitmapLastWordMask nbits) < 2 ^ 32 :=
    lt_of_le_of_lt (BitVec.toNat_cpop_le _) (by omega)
  simp only [bitmapWeight, hlim, weightLoop, if_pos htail, Nat.zero_add]
  exact Nat.mod_eq_of_lt hlt

theorem bits_word (hi : i < 64) : bits mem a i = (mem a).getLsbD i := by
  have hdiv : i / 64 = 0 := by omega
  have hmod : i % 64 = i := by omega
  rw [bits, bitAt, hdiv, hmod, Nat.add_zero]

theorem word_place (hpos : 1 ≤ nbits) (hn : nbits < 64) : InPlaceOrApart dst a (bitsToLongs nbits) := by
  rw [InPlaceOrApart, bitsToLongs]
  omega

theorem shiftRight_word {shift : ℕ} (hpos : 1 ≤ nbits) (hn : nbits < 64) (hshift : shift < nbits)
    (hi : i < nbits) :
    bits (bitmapShiftRightWord mem dst a nbits shift) dst i =
      bits (bitmapShiftRight mem dst a shift nbits) dst i := by
  have hshifted : ShiftedRight mem (bitmapShiftRight mem dst a shift nbits) dst a shift nbits :=
    (shiftedRight_iff (word_place hpos hn) hshift.le).mpr (Or.inl (by omega))
  rw [hshifted i hi, bits_word (by omega), bitmapShiftRightWord, Function.update_self,
    BitVec.getLsbD_ushiftRight, Nat.add_comm]
  by_cases hin : i + shift < nbits
  · rw [if_pos hin, BitVec.getLsbD_and, lastMask_bits hn (by omega), decide_eq_true hin,
      Bool.and_true, bits_word (by omega)]
  · rw [if_neg hin, BitVec.getLsbD_and]
    by_cases hword : i + shift < 64
    · rw [lastMask_bits hn hword, decide_eq_false hin, Bool.and_false]
    · rw [BitVec.getLsbD_of_ge _ _ (by omega), Bool.false_and]

theorem shiftLeft_word {shift : ℕ} (hpos : 1 ≤ nbits) (hn : nbits < 64) (hshift : shift < nbits)
    (hi : i < nbits) :
    bits (bitmapShiftLeftWord mem dst a nbits shift) dst i =
      bits (bitmapShiftLeft mem dst a shift nbits) dst i := by
  have hshifted : ShiftedLeft mem (bitmapShiftLeft mem dst a shift nbits) dst a shift nbits :=
    shiftedLeft (word_place hpos hn) hshift.le
  rw [hshifted i hi, bits_word (by omega), bitmapShiftLeftWord,
    Function.update_self, BitVec.getLsbD_and, lastMask_bits hn (by omega), decide_eq_true hi,
    Bool.and_true, BitVec.getLsbD_shiftLeft]
  by_cases hle : shift ≤ i
  · have hlow : ¬i < shift := by omega
    have hin : i < 64 := by omega
    rw [if_pos hle, bits_word (by omega), decide_eq_true hin, decide_eq_false hlow, Bool.not_false,
      Bool.true_and, Bool.true_and]
  · have hlow : i < shift := by omega
    rw [if_neg hle, decide_eq_true hlow, Bool.not_true, Bool.and_false, Bool.false_and]

/-! ## Both codings -/

theorem one_word_fits (one : nbits ≤ 64) : 8 * bitsToLongs nbits ≤ 2 ^ 57 := by
  rw [bitsToLongs]
  omega

/-- The one word of a bitmap in memory. -/
def wordAt (mem : ℕ → BitVec 64) (a : ℕ) (one : nbits ≤ 64) : Bitmap nbits where
  word := fun k => mem (a + k)
  fits := one_word_fits one

/-- Both codings give the same value and the same low bits. -/
structure InlineAgrees (mem : ℕ → BitVec 64) (dst a1 a2 shift off : ℕ) (one : nbits ≤ 64) : Prop where
  weight : bitmapWeightWord (mem a1) nbits = bitmapWeight (fun k => mem (a1 + k)) nbits
  equal : bitmapEqualWord (mem a1) (mem a2) nbits = bitmapEqual (fun k => mem (a1 + k))
    (fun k => mem (a2 + k)) nbits
  andBits : ∀ i, i < nbits → bits (bitmapAndWord mem dst a1 a2 nbits).1 dst i =
    bits (bitmapAnd mem dst a1 a2 nbits).1 dst i
  andValue : (bitmapAndWord mem dst a1 a2 nbits).2 = (bitmapAnd mem dst a1 a2 nbits).2
  andnotBits : ∀ i, i < nbits → bits (bitmapAndnotWord mem dst a1 a2 nbits).1 dst i =
    bits (bitmapAndnot mem dst a1 a2 nbits).1 dst i
  andnotValue : (bitmapAndnotWord mem dst a1 a2 nbits).2 = (bitmapAndnot mem dst a1 a2 nbits).2
  intersects : bitmapIntersectsWord (mem a1) (mem a2) nbits =
    bitmapIntersects (fun k => mem (a1 + k)) (fun k => mem (a2 + k)) nbits
  subset : bitmapSubsetWord (mem a1) (mem a2) nbits = bitmapSubset (fun k => mem (a1 + k))
    (fun k => mem (a2 + k)) nbits
  empty : some (bitmapEmptyWord (mem a1) nbits) = bitmapEmpty (wordAt mem a1 one)
  full : some (bitmapFullWord (mem a1) nbits) = bitmapFull (wordAt mem a1 one)
  shiftRight : ∀ i, i < nbits →
    bits (bitmapShiftRightWord mem dst a1 nbits shift) dst i =
      bits (bitmapShiftRight mem dst a1 shift nbits) dst i
  shiftLeft : ∀ i, i < nbits →
    bits (bitmapShiftLeftWord mem dst a1 nbits shift) dst i =
      bits (bitmapShiftLeft mem dst a1 shift nbits) dst i
  findFirst : some (findFirstBitWord (mem a1) nbits) = findFirstBit (wordAt mem a1 one)
  findNext : findNextBitWord (mem a1) nbits off = findNextBit (wordAt mem a1 one) off
  findFirstZero : some (findFirstZeroBitWord (mem a1) nbits) = findFirstZeroBit (wordAt mem a1 one)
  findNextZero : findNextZeroBitWord (mem a1) nbits off = findNextZeroBit (wordAt mem a1 one) off

/-- No search of the word ends at a stray bit above `nbits`. -/
structure NoStray (w : BitVec 64) (nbits off : ℕ) : Prop where
  first : w = 0 ∨ ∃ i, i ≤ nbits ∧ w.getLsbD i = true
  next : w >>> off = 0 ∨ ∃ i, off ≤ i ∧ i ≤ nbits ∧ w.getLsbD i = true
  firstZero : ~~~w = 0 ∨ ∃ i, i ≤ nbits ∧ w.getLsbD i = false
  nextZero : ~~~(w >>> off) = 0 ∨ ∃ i, off ≤ i ∧ i ≤ nbits ∧ w.getLsbD i = false

section Search
variable {off : ℕ} {one : nbits ≤ 64}

theorem bitAt_wordAt (hn : nbits < 64) (hi : i < nbits) :
    bitAt (wordAt mem a one).word i = (mem a).getLsbD i := bits_word (by omega)

theorem findFirst_iff (hn : nbits < 64) :
    some (findFirstBitWord (mem a) nbits) = findFirstBit (wordAt mem a one) ↔ mem a = 0 ∨
      ∃ i, i ≤ nbits ∧ (mem a).getLsbD i = true := by
  obtain ⟨r, hr, hleast⟩ := findFirstBit_least (wordAt mem a one)
  have hscan :=
    scanbit_eq_iff (v := mem a) (Nat.zero_le nbits) (fun b _ => by rw [Nat.zero_add])
      (hleast.congr fun i => bitAt_wordAt hn)
  rw [hr, Option.some_inj, findFirstBitWord]
  simpa using hscan

theorem findNext_iff (hn : nbits < 64) (hoff : off ≤ nbits) :
    findNextBitWord (mem a) nbits off = findNextBit (wordAt mem a one) off ↔
      mem a >>> off = 0 ∨ ∃ i, off ≤ i ∧ i ≤ nbits ∧ (mem a).getLsbD i = true := by
  obtain ⟨r, hr, hleast⟩ := findNextBitCommon_least (wordAt mem a one) none 0 off
  rw [bitAt_wantedWord_set] at hleast
  have hscan :=
    scanbit_eq_iff hoff (fun b _ => BitVec.getLsbD_ushiftRight (mem a) off b)
      (hleast.congr fun i => bitAt_wordAt hn)
  rw [findNextBit, hr, findNextBitWord, if_pos (by omega), Option.some_inj]
  exact hscan

theorem findFirstZero_iff (hn : nbits < 64) :
    some (findFirstZeroBitWord (mem a) nbits) = findFirstZeroBit (wordAt mem a one) ↔
      ~~~mem a = 0 ∨ ∃ i, i ≤ nbits ∧ (mem a).getLsbD i = false := by
  obtain ⟨r, hr, hleast⟩ := findFirstZeroBit_least (wordAt mem a one)
  have hnot : LeastFrom (fun i => !(mem a).getLsbD i) 0 nbits r :=
    hleast.congr fun i hi => by rw [bitAt_wordAt hn hi]
  have hscan := scanbit_eq_iff (v := ~~~mem a) (Nat.zero_le nbits) (fun b hb => by
    have hword : b < 64 := by omega
    rw [Nat.zero_add, BitVec.getLsbD_not, decide_eq_true hword, Bool.true_and]) hnot
  rw [hr, Option.some_inj, findFirstZeroBitWord]
  simpa using hscan

theorem findNextZero_iff (hn : nbits < 64) (hoff : off ≤ nbits) :
    findNextZeroBitWord (mem a) nbits off = findNextZeroBit (wordAt mem a one) off ↔
      ~~~(mem a >>> off) = 0 ∨ ∃ i, off ≤ i ∧ i ≤ nbits ∧ (mem a).getLsbD i = false := by
  obtain ⟨r, hr, hleast⟩ := findNextBitCommon_least (wordAt mem a one) none (BitVec.allOnes 64) off
  rw [bitAt_wantedWord_zero] at hleast
  have hnot : LeastFrom (fun i => !(mem a).getLsbD i) off nbits r :=
    hleast.congr fun i hi => by rw [bitAt_wordAt hn hi]
  have hscan := scanbit_eq_iff hoff (fun b hb => by
    have hword : b < 64 := by omega
    rw [BitVec.getLsbD_not, decide_eq_true hword, Bool.true_and, BitVec.getLsbD_ushiftRight]) hnot
  rw [findNextZeroBit, hr, findNextZeroBitWord, if_pos (by omega), Option.some_inj]
  simpa using hscan

theorem empty_word (hn : nbits < 64) :
    some (bitmapEmptyWord (mem a) nbits) = bitmapEmpty (wordAt mem a one) := by
  obtain ⟨r, hr, hleast⟩ := findFirstBit_least (wordAt mem a one)
  rw [bitmapEmpty, hr, Option.map_some, bitmapEmptyWord, Option.some_inj, decide_eq_decide,
    (hleast.congr fun i => bitAt_wordAt hn).eq_stop_iff, masked_eq_zero hn]

theorem full_word (hn : nbits < 64) :
    some (bitmapFullWord (mem a) nbits) = bitmapFull (wordAt mem a one) := by
  obtain ⟨r, hr, hleast⟩ := findFirstZeroBit_least (wordAt mem a one)
  have hnot : LeastFrom (fun i => (~~~mem a).getLsbD i) 0 nbits r := hleast.congr fun i hi => by
    have hword : i < 64 := by omega
    rw [bitAt_wordAt hn hi, BitVec.getLsbD_not, decide_eq_true hword, Bool.true_and]
  rw [bitmapFull, hr, Option.map_some, bitmapFullWord, Option.some_inj, decide_eq_decide,
    hnot.eq_stop_iff, masked_eq_zero hn]

end Search

/-- The mask of the last word is 0 for a whole word: one coding then counts no bit and finds the
word full, the other one looks at the bits. -/
theorem not_inlineAgrees_word {mem : ℕ → BitVec 64} {dst a1 a2 shift off : ℕ} {one : 64 ≤ 64} :
    ¬InlineAgrees mem dst a1 a2 shift off one := by
  intro h
  obtain ⟨r, hr, hleast⟩ := findFirstZeroBit_least (wordAt mem a1 one)
  have hfull := h.full
  have hmask : bitmapLastWordMask 64 = 0 := lowMask_zero
  rw [bitmapFull, hr, Option.map_some, bitmapFullWord, hmask] at hfull
  have hr64 : r = 64 := by simpa using hfull
  have hones : mem a1 = BitVec.allOnes 64 := by
    apply BitVec.eq_of_getLsbD_eq
    intro b hb
    have hbit := hleast.eq_stop_iff.mp hr64 b hb
    have hset : bits mem a1 b = true := (Bool.not_eq_false' _).mp hbit
    rw [BitVec.getLsbD_allOnes, decide_eq_true hb, ← bits_word hb, hset]
  have hweight := h.weight
  rw [bitmapWeightWord, hmask, hones] at hweight
  simp [bitmapWeight, weightLoop, hones, hweight64] at hweight

/-- Both codings agree for fewer than 64 bits when no search meets a stray bit, and never for a whole word. -/
theorem inlineAgrees_iff (mem : ℕ → BitVec 64) (dst a1 a2 nbits shift off : ℕ) (hpos : 1 ≤ nbits)
    (one : nbits ≤ 64)
    (hshift : shift < nbits) (hoff : off ≤ nbits) :
    InlineAgrees mem dst a1 a2 shift off one ↔ nbits < 64 ∧ NoStray (mem a1) nbits off := by
  constructor
  · intro h
    have hn : nbits < 64 := by
      by_contra hfull
      obtain rfl : nbits = 64 := by omega
      exact not_inlineAgrees_word h
    exact ⟨hn, (findFirst_iff hn).mp h.findFirst, (findNext_iff hn hoff).mp h.findNext,
      (findFirstZero_iff hn).mp h.findFirstZero,
      (findNextZero_iff hn hoff).mp h.findNextZero⟩
  · rintro ⟨hn, hstray⟩
    constructor
    case weight => simp only [bitmapWeight_word hpos hn, bitmapWeightWord, Nat.add_zero]
    case equal =>
      simp only [bitmapEqualWord, bitmapEqual, someWord_word hpos hn, Nat.add_zero, ne_eq,
        decide_not, Bool.not_not]
    case andBits =>
      intro i _
      rw [bitmapAnd, combineWords_word hpos hn, bitmapAndWord]
    case andValue => rw [bitmapAnd, combineWords_word hpos hn, bitmapAndWord]
    case andnotBits =>
      intro i _
      rw [bitmapAndnot, combineWords_word hpos hn, bitmapAndnotWord]
    case andnotValue => rw [bitmapAndnot, combineWords_word hpos hn, bitmapAndnotWord]
    case intersects => simp only [bitmapIntersectsWord, bitmapIntersects, someWord_word hpos hn, Nat.add_zero]
    case subset =>
      simp only [bitmapSubsetWord, bitmapSubset, someWord_word hpos hn, Nat.add_zero, ne_eq,
        decide_not, Bool.not_not]
    case empty => exact empty_word hn
    case full => exact full_word hn
    case shiftRight => exact fun i => shiftRight_word hpos hn hshift
    case shiftLeft => exact fun i => shiftLeft_word hpos hn hshift
    case findFirst => exact (findFirst_iff hn).mpr hstray.first
    case findNext => exact (findNext_iff hn hoff).mpr hstray.next
    case findFirstZero => exact (findFirstZero_iff hn).mpr hstray.firstZero
    case findNextZero => exact (findNextZero_iff hn hoff).mpr hstray.nextZero

theorem inlineAgrees_iff_twelve : ∃ one : 12 ≤ 64, InlineAgrees (fun _ => 20) 0 1 2 3 2 one := by
  have one : 12 ≤ 64 := by decide
  refine ⟨one,
    (inlineAgrees_iff (fun _ => 20) 0 1 2 12 3 2 (by decide) one (by decide) (by decide)).mpr
    ⟨by decide, ?_⟩⟩
  exact ⟨.inr ⟨2, by decide⟩, .inr ⟨2, by decide⟩, .inr ⟨0, by decide⟩, .inr ⟨3, by decide⟩⟩

/-- Two bits of a whole word: one coding counts none. -/
theorem weight_whole_word : (bitmapWeightWord 5 64 = 0 ∧ bitmapWeight (fun _ => 5) 64 = 2) ∧
    ∀ one : 64 ≤ 64, ¬InlineAgrees (fun _ => 5) 0 1 2 3 2 one :=
  ⟨by decide, fun _ => not_inlineAgrees_word⟩

end Skp.Utils
