import Skp.Foundations.BitWords

/-! # Bitmaps

`find_last_bit` and the shifts of `bitmap.c`. A bitmap is the words of memory from an address on;
addresses count words. -/

namespace Skp.Utils
set_option autoImplicit false
open Skp.Foundations

/-- `BITMAP_LAST_WORD_MASK` -/
def bitmapLastWordMask (nbits : ℕ) : BitVec 64 := lowMask (nbits % 64)

def bitsToLongs (nr : ℕ) : ℕ := (nr + 63) / 64

/-! ## `find_last_bit` -/

/-- The loop from word `idx` down, with the mask of the first round. -/
def findLastLoop (addr : ℕ → BitVec 64) (val : BitVec 64) : ℕ → Option ℕ
  | 0 => if val &&& addr 0 ≠ 0 then some (topBit (val &&& addr 0)) else none
  | idx + 1 =>
      if val &&& addr (idx + 1) ≠ 0 then some ((idx + 1) * 64 + topBit (val &&& addr (idx + 1)))
      else findLastLoop addr (BitVec.allOnes 64) idx

def findLastBit (addr : ℕ → BitVec 64) (size : ℕ) : ℕ :=
  if size = 0 then size else (findLastLoop addr (bitmapLastWordMask size) ((size - 1) / 64)).getD size

/-! ## The shifts -/

section Shift
variable (mem : ℕ → BitVec 64) (dst src : ℕ)

/-- One round of `__bitmap_shift_right`. -/
def shiftRightWord (off rem lim : ℕ) (mask : BitVec 64) (k : ℕ) : BitVec 64 :=
  let upper :=
    if rem = 0 ∨ lim ≤ off + k + 1 then 0
    else
      let upper := mem (src + (off + k + 1))
      let upper := if off + k + 1 = lim - 1 then upper &&& mask else upper
      upper <<< (64 - rem)
  let lower := mem (src + (off + k))
  let lower := if off + k = lim - 1 then lower &&& mask else lower
  lower >>> rem ||| upper

/-- The rounds from `k` on, `n` of them. -/
def shiftRightLoop (off rem lim : ℕ) (mask : BitVec 64) : ℕ → ℕ → (ℕ → BitVec 64) → ℕ → BitVec 64
  | 0, _, mem => mem
  | n + 1, k, mem =>
      shiftRightLoop off rem lim mask n (k + 1)
        (Function.update mem (dst + k) (shiftRightWord mem src off rem lim mask k))

/-- `memset(..., 0, ...)` of `n` words. -/
def zeroWords (a n : ℕ) : ℕ → BitVec 64 := fun i => if a ≤ i ∧ i < a + n then 0 else mem i

def bitmapShiftRight (shift nbits : ℕ) : ℕ → BitVec 64 :=
  let lim := bitsToLongs nbits
  let off := shift / 64
  let mem := shiftRightLoop dst src off (shift % 64) lim (bitmapLastWordMask nbits) (lim - off) 0 mem
  zeroWords mem (dst + (lim - off)) off

/-- One round of `__bitmap_shift_left`. -/
def shiftLeftWord (rem k : ℕ) : BitVec 64 :=
  let lower := if rem ≠ 0 ∧ 0 < k then mem (src + (k - 1)) >>> (64 - rem) else 0
  let upper := mem (src + k) <<< rem
  lower ||| upper

/-- The rounds below `k`. -/
def shiftLeftLoop (off rem : ℕ) : ℕ → (ℕ → BitVec 64) → ℕ → BitVec 64
  | 0, mem => mem
  | k + 1, mem =>
      shiftLeftLoop off rem k (Function.update mem (dst + (k + off)) (shiftLeftWord mem src rem k))

def bitmapShiftLeft (shift nbits : ℕ) : ℕ → BitVec 64 :=
  let lim := bitsToLongs nbits
  let off := shift / 64
  zeroWords (shiftLeftLoop dst src off (shift % 64) (lim - off) mem) dst off

end Shift

/-! ## The last bit of a bitmap

The loop of `find_last_bit` finds the highest bit that its masks let through. The mask of the top
word is 0 when the size is a multiple of 64, so then the top word is not looked at. -/

section Last
variable {addr : ℕ → BitVec 64} {val : BitVec 64} {size idx i r : ℕ}

/-- The index of the highest bit below `size`, or `size`. -/
def IsLastBit (addr : ℕ → BitVec 64) (size r : ℕ) : Prop :=
  (r < size ∧ bitAt addr r = true ∧ ∀ i, r < i → i < size → bitAt addr i = false) ∨
    (r = size ∧ ∀ i, i < size → bitAt addr i = false)

/-- A bit that the loop sees from word `idx` down. -/
def Seen (addr : ℕ → BitVec 64) (val : BitVec 64) (idx i : ℕ) : Prop :=
  bitAt addr i = true ∧ (i / 64 < idx ∨ (i / 64 = idx ∧ val.getLsbD (i % 64) = true))

theorem seen_succ (hzero : val &&& addr (idx + 1) = 0) :
    Seen addr val (idx + 1) i ↔ Seen addr (BitVec.allOnes 64) idx i := by
  have hlt : i % 64 < 64 := Nat.mod_lt i (by omega)
  simp only [Seen, BitVec.getLsbD_allOnes, hlt, decide_true, and_true]
  constructor
  · rintro ⟨hbit, hlow | ⟨hword, hval⟩⟩
    · exact ⟨hbit, by omega⟩
    · rw [bitAt, hword] at hbit
      have hand : (val &&& addr (idx + 1)).getLsbD (i % 64) = true := by
        rw [BitVec.getLsbD_and, hval, hbit, Bool.true_and]
      rw [hzero] at hand
      simp at hand
  · rintro ⟨hbit, hlow⟩
    exact ⟨hbit, by omega⟩

theorem seen_topBit (hne : val &&& addr idx ≠ 0) :
    Seen addr val idx (64 * idx + topBit (val &&& addr idx)) ∧
      ∀ i, 64 * idx + topBit (val &&& addr idx) < i → ¬Seen addr val idx i := by
  have hlt := topBit_lt (val &&& addr idx)
  have htop := getLsbD_topBit hne
  rw [BitVec.getLsbD_and, Bool.and_eq_true] at htop
  constructor
  · refine ⟨by rw [bitAt_word hlt]; exact htop.2, .inr ⟨by omega, ?_⟩⟩
    have hmod : (64 * idx + topBit (val &&& addr idx)) % 64 = topBit (val &&& addr idx) := by omega
    rw [hmod]
    exact htop.1
  · rintro i hi ⟨hbit, hlow | ⟨hword, hval⟩⟩
    · omega
    · have habove : (val &&& addr idx).getLsbD (i % 64) = false := getLsbD_above_topBit (by omega)
      rw [bitAt, hword] at hbit
      rw [BitVec.getLsbD_and, hval, hbit] at habove
      cases habove

theorem findLastLoop_spec (addr : ℕ → BitVec 64) (idx : ℕ) (val : BitVec 64) :
    match findLastLoop addr val idx with
    | some r => Seen addr val idx r ∧ ∀ i, r < i → ¬Seen addr val idx i
    | none => ∀ i, ¬Seen addr val idx i := by
  induction idx generalizing val with
  | zero =>
    rw [findLastLoop]
    by_cases hne : val &&& addr 0 ≠ 0
    · rw [if_pos hne]
      simpa using seen_topBit hne
    · rw [if_neg hne]
      rintro i ⟨hbit, hlow | ⟨hword, hval⟩⟩
      · omega
      · rw [bitAt, hword] at hbit
        have hand : (val &&& addr 0).getLsbD (i % 64) = true := by
          rw [BitVec.getLsbD_and, hval, hbit, Bool.true_and]
        rw [not_not.mp hne] at hand
        simp at hand
  | succ idx ih =>
    rw [findLastLoop]
    by_cases hne : val &&& addr (idx + 1) ≠ 0
    · rw [if_pos hne]
      simpa [Nat.mul_comm] using seen_topBit hne
    · rw [if_neg hne]
      have hrest := ih (BitVec.allOnes 64)
      simp only [← seen_succ (not_not.mp hne)] at hrest
      exact hrest

theorem seen_iff :
    Seen addr (bitmapLastWordMask size) ((size - 1) / 64) i ↔
      bitAt addr i = true ∧ i < if size % 64 = 0 then size - 64 else size := by
  have hlt : i % 64 < 64 := Nat.mod_lt i (by omega)
  simp only [Seen, bitmapLastWordMask, getLsbD_lowMask hlt, decide_eq_true_eq]
  apply and_congr_right
  intro _
  split <;> omega

theorem findLastBit_spec (addr : ℕ → BitVec 64) (hsize : size ≠ 0) :
    (bitAt addr (findLastBit addr size) = true ∧
      findLastBit addr size < (if size % 64 = 0 then size - 64 else size) ∧
      ∀ i, findLastBit addr size < i → i < (if size % 64 = 0 then size - 64 else size) →
        bitAt addr i = false) ∨
    (findLastBit addr size = size ∧ ∀ i, i < (if size % 64 = 0 then size - 64 else size) →
      bitAt addr i = false) := by
  have hloop := findLastLoop_spec addr ((size - 1) / 64) (bitmapLastWordMask size)
  simp only [seen_iff] at hloop
  rw [findLastBit, if_neg hsize]
  cases hfound : findLastLoop addr (bitmapLastWordMask size) ((size - 1) / 64) with
  | none =>
    rw [hfound] at hloop
    refine .inr ⟨rfl, fun i hi => ?_⟩
    by_contra hbit
    exact hloop i ⟨by simpa using hbit, hi⟩
  | some r =>
    rw [hfound] at hloop
    obtain ⟨⟨hbit, hlt⟩, habove⟩ := hloop
    refine .inl ⟨hbit, hlt, fun i hi hilt => ?_⟩
    by_contra hset
    exact habove i hi ⟨by simpa using hset, hilt⟩

/-- The last bit is found unless the size is a multiple of 64 and there is a bit in the top word. -/
theorem findLastBit_iff (addr : ℕ → BitVec 64) (size : ℕ) :
    IsLastBit addr size (findLastBit addr size) ↔ size = 0 ∨ size % 64 ≠ 0 ∨ addr (size / 64 - 1) = 0 := by
  by_cases hzero : size = 0
  · subst hzero
    exact iff_of_true (.inr ⟨rfl, fun i hi => absurd hi (Nat.not_lt_zero i)⟩) (.inl rfl)
  · have hspec := findLastBit_spec addr hzero
    by_cases haligned : size % 64 = 0
    · rw [if_pos haligned] at hspec
      constructor
      · intro hlast
        right
        right
        apply BitVec.eq_of_getLsbD_eq
        intro b hb
        rw [← bitAt_word hb]
        by_contra hbit
        simp only [BitVec.ofNat_eq_ofNat, BitVec.getLsbD_zero, Bool.not_eq_false] at hbit
        have hin : 64 * (size / 64 - 1) + b < size := by omega
        rcases hlast with ⟨hlt, -, habove⟩ | ⟨-, hnone⟩
        · rcases hspec with ⟨-, hlow, -⟩ | ⟨heq, -⟩
          · rw [habove _ (by omega) hin] at hbit
            cases hbit
          · omega
        · rw [hnone _ hin] at hbit
          cases hbit
      · rintro (hsize | hsize | htop)
        · exact absurd hsize hzero
        · exact absurd haligned hsize
        · have hclear : ∀ i, size - 64 ≤ i → i < size → bitAt addr i = false := by
            intro i hlow hhigh
            have hword : i / 64 = size / 64 - 1 := by omega
            rw [bitAt, hword, htop]
            exact BitVec.getLsbD_zero
          rcases hspec with ⟨hbit, hlt, habove⟩ | ⟨heq, hnone⟩
          · refine .inl ⟨by omega, hbit, fun i hi hilt => ?_⟩
            by_cases hin : i < size - 64
            · exact habove i hi hin
            · exact hclear i (by omega) hilt
          · refine .inr ⟨heq, fun i hi => ?_⟩
            by_cases hin : i < size - 64
            · exact hnone i hin
            · exact hclear i (by omega) hi
    · rw [if_neg haligned] at hspec
      refine iff_of_true ?_ (.inr (.inl haligned))
      rcases hspec with ⟨hbit, hlt, habove⟩ | hnone
      · exact .inl ⟨hlt, hbit, habove⟩
      · exact .inr hnone

/-- One word with a bit, all of it asked for: the bit is not found. -/
theorem whole_word_missed :
    findLastBit (fun _ => 1) 64 = 64 ∧
      ¬IsLastBit (fun _ => 1) 64 (findLastBit (fun _ => 1) 64) := by
  have hresult : findLastBit (fun _ => 1) 64 = 64 := by decide
  refine ⟨hresult, fun hlast => ?_⟩
  rw [hresult] at hlast
  rcases hlast with ⟨hlt, -⟩ | ⟨-, hnone⟩
  · omega
  · exact absurd (hnone 0 (by omega)) (by decide)

end Last

end Skp.Utils
