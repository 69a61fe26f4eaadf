import Skp.Utils.BitmapScan

/-! # Bitmaps and arrays of 32-bit words

`bitmap_from_arr32` and `bitmap_to_arr32`. A bitmap has the words for its bits, an array the half
words; an access beyond them fails. -/
namespace Skp.Utils
set_option autoImplicit false
open Skp.Foundations

/-- The half words that hold `nbits` bits. -/
def arr32Len (nbits : ℕ) : ℕ := (nbits + 31) / 32

/-- `DIV_ROUND_UP(nbits, 32)`, an unsigned int. -/
def halfwords (nbits : ℕ) : ℕ := (nbits + 31) % 2 ^ 32 / 32

section Access
variable {w : ℕ}

def loadSlot (n : ℕ) (m : ℕ → BitVec w) (k : ℕ) : Option (BitVec w) := if k < n then some (m k) else none

def storeSlot (n : ℕ) (m : ℕ → BitVec w) (k : ℕ) (v : BitVec w) : Option (ℕ → BitVec w) :=
  if k < n then some (Function.update m k v) else none

end Access

/-! ## The two functions -/

/-- The loop of `bitmap_from_arr32` from half word `i` on. -/
def fromArrLoop (nbits : ℕ) (buf : ℕ → BitVec 32) : ℕ → ℕ → (ℕ → BitVec 64) → Option (ℕ → BitVec 64)
  | 0, _, _ => none
  | fuel + 1, i, bitmap =>
      if i < halfwords nbits then do
        let v ← loadSlot (arr32Len nbits) buf i
        let bitmap ← storeSlot (bitsToLongs nbits) bitmap (i / 2) (v.setWidth 64)
        let i := i + 1
        let bitmap ← if i < halfwords nbits then do
            let v ← loadSlot (arr32Len nbits) buf i
            let w ← loadSlot (bitsToLongs nbits) bitmap (i / 2)
            storeSlot (bitsToLongs nbits) bitmap (i / 2) (w ||| v.setWidth 64 <<< 32)
          else some bitmap
        fromArrLoop nbits buf fuel (i + 1) bitmap
      else some bitmap

def bitmapFromArr32 (nbits : ℕ) (bitmap : ℕ → BitVec 64) (buf : ℕ → BitVec 32) : Option (ℕ → BitVec 64) :=
  if nbits = 0 then some bitmap
  else do
    let bitmap ← fromArrLoop nbits buf (halfwords nbits + 1) 0 bitmap
    if nbits % 64 ≠ 0 then
      let last := (halfwords nbits + 2 ^ 32 - 1) % 2 ^ 32 / 2
      let w ← loadSlot (bitsToLongs nbits) bitmap last
      storeSlot (bitsToLongs nbits) bitmap last (w &&& bitmapLastWordMask nbits)
    else some bitmap

/-- The loop of `bitmap_to_arr32` from half word `i` on. -/
def toArrLoop (nbits : ℕ) (bitmap : ℕ → BitVec 64) : ℕ → ℕ → (ℕ → BitVec 32) → Option (ℕ → BitVec 32)
  | 0, _, _ => none
  | fuel + 1, i, buf =>
      if i < halfwords nbits then do
        let w ← loadSlot (bitsToLongs nbits) bitmap (i / 2)
        let buf ← storeSlot (arr32Len nbits) buf i (w.setWidth 32)
        let i := i + 1
        let buf ← if i < halfwords nbits then do
            let w ← loadSlot (bitsToLongs nbits) bitmap (i / 2)
            storeSlot (arr32Len nbits) buf i ((w >>> 32).setWidth 32)
          else some buf
        toArrLoop nbits bitmap fuel (i + 1) buf
      else some buf

/-- `UINT_MAX >> ((-nbits) & 31)` -/
def tailMask32 (nbits : ℕ) : BitVec 32 := BitVec.allOnes 32 >>> ((2 ^ 32 - nbits) % 2 ^ 32 % 32)

def bitmapToArr32 (nbits : ℕ) (buf : ℕ → BitVec 32) (bitmap : ℕ → BitVec 64) : Option (ℕ → BitVec 32) :=
  if nbits = 0 then some buf
  else do
    let buf ← toArrLoop nbits bitmap (halfwords nbits + 1) 0 buf
    if nbits % 64 ≠ 0 then
      let last := (halfwords nbits + 2 ^ 32 - 1) % 2 ^ 32
      let v ← loadSlot (arr32Len nbits) buf last
      storeSlot (arr32Len nbits) buf last (v &&& tailMask32 nbits)
    else some buf

/-! ## The loops -/

variable {nbits fuel i k b : ℕ} {bitmap map : ℕ → BitVec 64} {buf arr : ℕ → BitVec 32}

theorem halfwords_eq (hn : nbits ≤ 2 ^ 32 - 32) : halfwords nbits = arr32Len nbits := by
  rw [halfwords, arr32Len]
  omega

/-- Two half words as a word. -/
def joinHalves (n : ℕ) (buf : ℕ → BitVec 32) (k : ℕ) : BitVec 64 :=
  (buf (2 * k)).setWidth 64 ||| if 2 * k + 1 < n then (buf (2 * k + 1)).setWidth 64 <<< 32 else 0

theorem bitsToLongs_eq (hn : nbits ≤ 2 ^ 32 - 32) : bitsToLongs nbits = (halfwords nbits + 1) / 2 := by
  rw [halfwords_eq hn, bitsToLongs, arr32Len]
  omega

theorem fill_update {α : Type*} {g f : ℕ → α} {n : ℕ} (hk : k < n) :
    (fun q => if k + 1 ≤ q ∧ q < n then g q else Function.update f k (g k) q) = fun q => if k ≤ q ∧
      q < n then g q else f q := by
  funext q
  by_cases hq : q = k
  · subst hq
    have hout : ¬(q + 1 ≤ q ∧ q < n) := by omega
    rw [if_neg hout, if_pos ⟨le_rfl, hk⟩, Function.update_self]
  · have hiff : (k + 1 ≤ q ∧ q < n) ↔ (k ≤ q ∧ q < n) := by omega
    simp only [hiff, Function.update_of_ne hq]

theorem fill_none {α : Type*} {g f : ℕ → α} {n : ℕ} (hk : n ≤ k) :
    (fun q => if k ≤ q ∧ q < n then g q else f q) = f := by
  funext q
  have hout : ¬(k ≤ q ∧ q < n) := by omega
  rw [if_neg hout]

theorem fromArrLoop_eq (hn : nbits ≤ 2 ^ 32 - 32) (hk : k ≤ bitsToLongs nbits)
    (hfuel : bitsToLongs nbits < k + fuel) :
    fromArrLoop nbits buf fuel (2 * k) bitmap =
      some fun q => if k ≤ q ∧ q < bitsToLongs nbits then joinHalves (halfwords nbits) buf q
        else bitmap q := by
  have hlen := halfwords_eq hn
  have hwords := bitsToLongs_eq hn
  induction fuel generalizing k bitmap with
  | zero => omega
  | succ fuel ih =>
    have hdiv : 2 * k / 2 = k := by omega
    have hdiv' : (2 * k + 1) / 2 = k := by omega
    rw [fromArrLoop]
    by_cases hmore : 2 * k < halfwords nbits
    · have hword : k < bitsToLongs nbits := by omega
      have hnext : 2 * k + 1 + 1 = 2 * (k + 1) := by omega
      rw [if_pos hmore]
      simp only [loadSlot, storeSlot, ← hlen, hdiv, hdiv', hmore, hword, if_true,
        Option.bind_eq_bind, Option.bind_some, hnext]
      by_cases hsecond : 2 * k + 1 < halfwords nbits
      · have hjoin : joinHalves (halfwords nbits) buf k = (buf (2 * k)).setWidth 64 |||
          (buf (2 * k + 1)).setWidth 64 <<< 32 := by
          rw [joinHalves, if_pos hsecond]
        simp only [hsecond, if_true, Option.bind_some, Function.update_self, Function.update_idem]
        rw [ih (by omega) (by omega), ← hjoin, fill_update hword]
      · have hjoin : joinHalves (halfwords nbits) buf k = (buf (2 * k)).setWidth 64 := by
          rw [joinHalves, if_neg hsecond]
          exact BitVec.or_zero
        simp only [hsecond, if_false]
        rw [ih (by omega) (by omega), ← hjoin, fill_update hword]
    · rw [if_neg hmore, fill_none (by omega)]

/-- A half word of a bitmap. -/
def halfOf (bitmap : ℕ → BitVec 64) (q : ℕ) : BitVec 32 :=
  if q % 2 = 0 then (bitmap (q / 2)).setWidth 32 else (bitmap (q / 2) >>> 32).setWidth 32

theorem toArrLoop_eq (hn : nbits ≤ 2 ^ 32 - 32) (hk : k ≤ bitsToLongs nbits)
    (hfuel : bitsToLongs nbits < k + fuel) :
    toArrLoop nbits bitmap fuel (2 * k) buf =
      some fun q => if 2 * k ≤ q ∧ q < halfwords nbits then halfOf bitmap q else buf q := by
  have hlen := halfwords_eq hn
  have hwords := bitsToLongs_eq hn
  induction fuel generalizing k buf with
  | zero => omega
  | succ fuel ih =>
    have hdiv : 2 * k / 2 = k := by omega
    have hdiv' : (2 * k + 1) / 2 = k := by omega
    rw [toArrLoop]
    by_cases hmore : 2 * k < halfwords nbits
    · have hword : k < bitsToLongs nbits := by omega
      have hnext : 2 * k + 1 + 1 = 2 * (k + 1) := by omega
      have heven : halfOf bitmap (2 * k) = (bitmap k).setWidth 32 := by
        rw [halfOf, if_pos (by omega), hdiv]
      rw [if_pos hmore]
      simp only [loadSlot, storeSlot, ← hlen, hdiv, hdiv', hmore, hword, if_true,
        Option.bind_eq_bind, Option.bind_some, hnext]
      by_cases hsecond : 2 * k + 1 < halfwords nbits
      · have hodd : halfOf bitmap (2 * k + 1) = (bitmap k >>> 32).setWidth 32 := by
          rw [halfOf, if_neg (by omega), hdiv']
        simp only [hsecond, if_true, Option.bind_some]
        rw [ih (by omega) (by omega), ← heven, ← hodd, ← hnext, fill_update hsecond, fill_update hmore]
      · simp only [hsecond, if_false]
        rw [ih (by omega) (by omega), ← heven, fill_none (by omega), ← fill_update hmore,
          fill_none (not_lt.mp hsecond)]
    · rw [if_neg hmore, fill_none (not_lt.mp hmore)]

/-! ## The bits -/

theorem getLsbD_joinHalves {n : ℕ} (hb : b < 64) (hk : 2 * k < n) :
    (joinHalves n buf k).getLsbD b = (decide (64 * k + b < 32 * n) && bitAt32 buf (64 * k + b)) := by
  rw [joinHalves, BitVec.getLsbD_or, BitVec.getLsbD_setWidth]
  by_cases hlow : b < 32
  · have hpos : 64 * k + b = 32 * (2 * k) + b := by omega
    have hhigh : (if 2 * k + 1 < n then (buf (2 * k + 1)).setWidth 64 <<< 32 else 0).getLsbD b = false := by
      split
      · simp [hlow]
      · exact BitVec.getLsbD_zero
    have hin : 32 * (2 * k) + b < 32 * n := by omega
    rw [hhigh, hpos, bitAt32_word hlow]
    simp [hb, hin]
  · have hpos : 64 * k + b = 32 * (2 * k + 1) + (b - 32) := by omega
    have hnone : (buf (2 * k)).getLsbD b = false := BitVec.getLsbD_of_ge _ _ (by omega)
    rw [hnone, Bool.and_false, Bool.false_or, hpos, bitAt32_word (by omega)]
    by_cases hsecond : 2 * k + 1 < n
    · have hin : 32 * (2 * k + 1) + (b - 32) < 32 * n := by omega
      have hrest : b - 32 < 64 := by omega
      rw [if_pos hsecond, BitVec.getLsbD_shiftLeft, BitVec.getLsbD_setWidth]
      simp [hb, hlow, hin, hrest]
    · have hout : ¬32 * (2 * k + 1) + (b - 32) < 32 * n := by omega
      rw [if_neg hsecond, decide_eq_false hout, Bool.false_and]
      exact BitVec.getLsbD_zero

theorem getLsbD_halfOf (q : ℕ) (hb : b < 32) : (halfOf bitmap q).getLsbD b = bitAt bitmap (32 * q + b) := by
  rw [halfOf]
  split
  · have hpos : 32 * q + b = 64 * (q / 2) + b := by omega
    rw [hpos, bitAt_word (by omega), BitVec.getLsbD_setWidth]
    simp [hb]
  · have hpos : 32 * q + b = 64 * (q / 2) + (32 + b) := by omega
    rw [hpos, bitAt_word (by omega), BitVec.getLsbD_setWidth, BitVec.getLsbD_ushiftRight]
    simp [hb]

theorem getLsbD_tailMask32 (hpos : 0 < nbits) (hn : nbits < 2 ^ 32) (b : ℕ) :
    (tailMask32 nbits).getLsbD b = decide (b < (nbits + 31) % 32 + 1) := by
  have hshift : (2 ^ 32 - nbits) % 2 ^ 32 % 32 + ((nbits + 31) % 32 + 1) = 32 := by omega
  rw [tailMask32, BitVec.getLsbD_ushiftRight, BitVec.getLsbD_allOnes, decide_eq_decide]
  omega

theorem bitAt_mask {m : ℕ → BitVec 64} {mask : BitVec 64} (q j : ℕ) :
    bitAt (Function.update m q (m q &&& mask)) j =
      (bitAt m j && (decide (j / 64 ≠ q) || mask.getLsbD (j % 64))) := by
  simp only [bitAt]
  by_cases hq : j / 64 = q
  · subst hq
    simp
  · simp [hq]

theorem bitAt32_mask {m : ℕ → BitVec 32} {mask : BitVec 32} (q j : ℕ) :
    bitAt32 (Function.update m q (m q &&& mask)) j =
      (bitAt32 m j && (decide (j / 32 ≠ q) || mask.getLsbD (j % 32))) := by
  simp only [bitAt32]
  by_cases hq : j / 32 = q
  · subst hq
    simp
  · simp [hq]

/-- The words of the bitmap are the array, and the bits from `nbits` on are 0. -/
theorem bitmapFromArr32_bits (bitmap : ℕ → BitVec 64) (buf : ℕ → BitVec 32) (hpos : 0 < nbits)
    (hn : nbits ≤ 2 ^ 32 - 32) :
    ∃ m, bitmapFromArr32 nbits bitmap buf = some m ∧
      ∀ j, j < 64 * bitsToLongs nbits → bitAt m j = (decide (j < nbits) && bitAt32 buf j) := by
  have hlen := halfwords_eq hn
  have hwords := bitsToLongs_eq hn
  have harr : arr32Len nbits = (nbits + 31) / 32 := rfl
  have hfuel : bitsToLongs nbits < 0 + (halfwords nbits + 1) := by omega
  have hloop : fromArrLoop nbits buf (halfwords nbits + 1) (2 * 0) bitmap =
      some fun q => if 0 ≤ q ∧ q < bitsToLongs nbits then joinHalves (halfwords nbits) buf q else bitmap q :=
    fromArrLoop_eq hn (Nat.zero_le _) hfuel
  have hlast : (halfwords nbits + 2 ^ 32 - 1) % 2 ^ 32 / 2 = bitsToLongs nbits - 1 := by omega
  have hbits : ∀ j, j < 64 * bitsToLongs nbits →
      bitAt (fun q => if 0 ≤ q ∧ q < bitsToLongs nbits then joinHalves (halfwords nbits) buf q
        else bitmap q) j =
        (decide (j < 32 * halfwords nbits) && bitAt32 buf j) := by
    intro j hj
    have hsplit : j = 64 * (j / 64) + j % 64 := by omega
    rw [bitAt, if_pos ⟨Nat.zero_le _, by omega⟩,
      getLsbD_joinHalves (Nat.mod_lt _ (by omega)) (by omega), ← hsplit]
  simp only [bitmapFromArr32, if_neg hpos.ne', hlast, Option.bind_eq_bind]
  rw [hloop, Option.bind_some]
  by_cases htail : nbits % 64 ≠ 0
  · have hin : bitsToLongs nbits - 1 < bitsToLongs nbits := by omega
    rw [if_pos htail, loadSlot, if_pos hin, Option.bind_some, storeSlot, if_pos hin]
    refine ⟨_, rfl, fun j hj => ?_⟩
    rw [bitAt_mask, hbits j hj, bitmapLastWordMask, getLsbD_lowMask (Nat.mod_lt _ (by omega)),
      Bool.and_right_comm]
    congr 1
    rw [← Bool.decide_or, ← Bool.decide_and, decide_eq_decide]
    omega
  · rw [if_neg htail]
    refine ⟨_, rfl, fun j hj => ?_⟩
    rw [hbits j hj]
    congr 1
    rw [decide_eq_decide]
    omega

/-- The array is the half words of the bitmap, and the bits from `nbits` on are 0. -/
theorem bitmapToArr32_bits (buf : ℕ → BitVec 32) (bitmap : ℕ → BitVec 64) (hpos : 0 < nbits)
    (hn : nbits ≤ 2 ^ 32 - 32) :
    ∃ a, bitmapToArr32 nbits buf bitmap = some a ∧
      ∀ j, j < 32 * arr32Len nbits → bitAt32 a j = (decide (j < nbits) && bitAt bitmap j) := by
  have hlen := halfwords_eq hn
  have hwords := bitsToLongs_eq hn
  have harr : arr32Len nbits = (nbits + 31) / 32 := rfl
  have hfuel : bitsToLongs nbits < 0 + (halfwords nbits + 1) := by omega
  have hloop : toArrLoop nbits bitmap (halfwords nbits + 1) (2 * 0) buf =
      some fun q => if 2 * 0 ≤ q ∧ q < halfwords nbits then halfOf bitmap q else buf q :=
    toArrLoop_eq hn (Nat.zero_le _) hfuel
  have hlast : (halfwords nbits + 2 ^ 32 - 1) % 2 ^ 32 = arr32Len nbits - 1 := by omega
  have hbits : ∀ j, j < 32 * arr32Len nbits →
      bitAt32 (fun q => if 2 * 0 ≤ q ∧ q < halfwords nbits then halfOf bitmap q else buf q) j =
        bitAt bitmap j := by
    intro j hj
    have hsplit : j = 32 * (j / 32) + j % 32 := by omega
    rw [bitAt32, if_pos ⟨by omega, by omega⟩, getLsbD_halfOf _ (Nat.mod_lt _ (by omega)), ← hsplit]
  simp only [bitmapToArr32, if_neg hpos.ne', hlast, Option.bind_eq_bind]
  rw [hloop, Option.bind_some]
  by_cases htail : nbits % 64 ≠ 0
  · have hin : arr32Len nbits - 1 < arr32Len nbits := by omega
    rw [if_pos htail, loadSlot, if_pos hin, Option.bind_some, storeSlot, if_pos hin]
    refine ⟨_, rfl, fun j hj => ?_⟩
    have hkeep : (j / 32 ≠ arr32Len nbits - 1 ∨ j % 32 < (nbits + 31) % 32 + 1) ↔ j < nbits := by omega
    rw [bitAt32_mask, hbits j hj, getLsbD_tailMask32 hpos (by omega), ← Bool.decide_or,
      decide_eq_decide.mpr hkeep, Bool.and_comm]
  · rw [if_neg htail]
    refine ⟨_, rfl, fun j hj => ?_⟩
    have hin : j < nbits := by omega
    rw [hbits j hj, decide_eq_true hin, Bool.true_and]

/-! ## There and back -/

/-- Both ways round, whatever the destinations held. -/
def RoundTrips (nbits : ℕ) (buf arr : ℕ → BitVec 32) (map bitmap : ℕ → BitVec 64) : Prop :=
  (∃ m a, bitmapFromArr32 nbits map buf = some m ∧ bitmapToArr32 nbits arr m = some a ∧
      ∀ j, j < 32 * arr32Len nbits → bitAt32 a j = (decide (j < nbits) && bitAt32 buf j)) ∧
    ∃ a m, bitmapToArr32 nbits arr bitmap = some a ∧ bitmapFromArr32 nbits map a = some m ∧
      ∀ j, j < 64 * bitsToLongs nbits → bitAt m j = (decide (j < nbits) && bitAt bitmap j)

theorem roundTrips (hpos : 0 < nbits) (hn : nbits ≤ 2 ^ 32 - 32) : RoundTrips nbits buf arr map bitmap := by
  have hbound : bitsToLongs nbits = (nbits + 63) / 64 := rfl
  have harr : arr32Len nbits = (nbits + 31) / 32 := rfl
  constructor
  · obtain ⟨m, hm, hmbits⟩ := bitmapFromArr32_bits map buf hpos hn
    obtain ⟨a, ha, habits⟩ := bitmapToArr32_bits arr m hpos hn
    refine ⟨m, a, hm, ha, fun j hj => ?_⟩
    rw [habits j hj, hmbits j (by omega), ← Bool.and_assoc, Bool.and_self]
  · obtain ⟨a, ha, habits⟩ := bitmapToArr32_bits arr bitmap hpos hn
    obtain ⟨m, hm, hmbits⟩ := bitmapFromArr32_bits map a hpos hn
    refine ⟨a, m, ha, hm, fun j hj => ?_⟩
    rw [hmbits j hj]
    by_cases hin : j < nbits
    · rw [habits j (by omega), decide_eq_true hin, Bool.true_and, Bool.true_and]
    · rw [decide_eq_false hin, Bool.false_and, Bool.false_and]

/-- When the sum of `DIV_ROUND_UP` wraps, there are no half words, and the tail that is cleared lies
outside the map. -/
theorem bitmapFromArr32_wraps (bitmap : ℕ → BitVec 64) (buf : ℕ → BitVec 32)
    (hlow : 2 ^ 32 - 32 < nbits) (hn : nbits < 2 ^ 32) :
    bitmapFromArr32 nbits bitmap buf = none := by
  have hhalf : halfwords nbits = 0 := by
    rw [halfwords]
    omega
  have hpos : nbits ≠ 0 := by omega
  have htail : nbits % 64 ≠ 0 := by omega
  have hout : ¬(0 + 2 ^ 32 - 1) % 2 ^ 32 / 2 < bitsToLongs nbits := by
    rw [bitsToLongs]
    omega
  simp only [bitmapFromArr32, if_neg hpos, hhalf, Option.bind_eq_bind, fromArrLoop,
    if_neg (Nat.not_lt_zero 0), Option.bind_some,
    if_pos htail, loadSlot, if_neg hout, Option.bind_none]

theorem not_roundTrips (hlow : 2 ^ 32 - 32 < nbits) (hn : nbits < 2 ^ 32) :
    ¬RoundTrips nbits buf arr map bitmap := by
  rintro ⟨⟨m, a, hm, _⟩, _⟩
  rw [bitmapFromArr32_wraps map buf hlow hn] at hm
  cases hm

/-- Both round trips hold unless `nbits + 31` does not fit an unsigned int. -/
theorem roundTrips_iff (buf arr : ℕ → BitVec 32) (map bitmap : ℕ → BitVec 64) (hpos : 0 < nbits)
    (hn : nbits < 2 ^ 32) :
    RoundTrips nbits buf arr map bitmap ↔ nbits ≤ 2 ^ 32 - 32 := by
  constructor
  · intro htrips
    by_contra hlow
    exact not_roundTrips (by omega) hn htrips
  · exact roundTrips hpos

theorem roundTrips_iff_forty : (0 < 40 ∧ 40 < 2 ^ 32) ∧
    (RoundTrips 40 (fun _ => 5) (fun _ => 0) (fun _ => 0) (fun _ => 9) ↔ 40 ≤ 2 ^ 32 - 32) :=
  ⟨by decide, roundTrips_iff (fun _ => 5) (fun _ => 0) (fun _ => 0) (fun _ => 9) (by decide) (by decide)⟩

/-- The largest unsigned int: the last word is looked for far beyond the map. -/
theorem roundTrips_fail : ¬RoundTrips (2 ^ 32 - 1) (fun _ => 5) (fun _ => 0) (fun _ => 0) (fun _ => 9) :=
  not_roundTrips (by norm_num) (by norm_num)

end Skp.Utils
