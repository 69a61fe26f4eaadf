import Skp.Utils.BitmapModel

/-! # Looking for a bit

`__find_next_bit` and the functions over it. A bitmap of `nbits` bits is the words that
`DECLARE_BITMAP` declares; reading another one fails. -/
namespace Skp.Utils
set_option autoImplicit false
open Skp.Foundations

/-- An object lies in the address space: x86-64 has virtual addresses of at most 57 bits. -/
structure Bitmap (nbits : ℕ) where
  word : ℕ → BitVec 64
  fits : 8 * bitsToLongs nbits ≤ 2 ^ 57

variable {nbits : ℕ}

def Bitmap.read (map : Bitmap nbits) (k : ℕ) : Option (BitVec 64) :=
  if k < bitsToLongs nbits then some (map.word k) else none

/-- `BITMAP_FIRST_WORD_MASK` -/
def bitmapFirstWordMask (start : ℕ) : BitVec 64 := BitVec.allOnes 64 <<< (start % 64)

section Find
variable (addr1 : Bitmap nbits) (addr2 : Option (Bitmap nbits)) (invert : BitVec 64)

/-- The word that is searched. -/
def fetchWord (k : ℕ) : Option (BitVec 64) := do
  let tmp ← addr1.read k
  let tmp ← match addr2 with
    | none => some tmp
    | some addr2 => (addr2.read k).map fun w => tmp &&& w
  some (tmp ^^^ invert)

def findNextLoop : ℕ → BitVec 64 → ℕ → Option ℕ
  | 0, _, _ => none
  | fuel + 1, tmp, start =>
      if tmp ≠ 0 then some (min ((start + lowBit tmp) % 2 ^ 64) nbits)
      else
        let start := (start + 64) % 2 ^ 64
        if nbits ≤ start then some nbits
          else (fetchWord addr1 addr2 invert (start / 64)).bind fun tmp =>
          findNextLoop fuel tmp start

/-- `__find_next_bit`; the loop makes at most one round for a word. -/
def findNextBitCommon (start : ℕ) : Option ℕ :=
  if nbits ≤ start then some nbits
  else
    (fetchWord addr1 addr2 invert (start / 64)).bind fun tmp =>
      findNextLoop addr1 addr2 invert (bitsToLongs nbits) (tmp &&& bitmapFirstWordMask start)
        (start / 64 * 64)

end Find

/-- `_find_next_bit` -/
def findNextBit (addr : Bitmap nbits) (start : ℕ) : Option ℕ := findNextBitCommon addr none 0 start

/-- `_find_next_and_bit` -/
def findNextAndBit (addr1 addr2 : Bitmap nbits) (start : ℕ) : Option ℕ :=
  findNextBitCommon addr1 (some addr2) 0 start

/-- `_find_next_zero_bit` -/
def findNextZeroBit (addr : Bitmap nbits) (start : ℕ) : Option ℕ :=
  findNextBitCommon addr none (BitVec.allOnes 64) start

/-! ## The words that are searched -/

variable {addr1 : Bitmap nbits} {addr2 : Option (Bitmap nbits)} {invert tmp : BitVec 64}
    {b i k start fuel : ℕ}

def wantedWord (addr1 : Bitmap nbits) (addr2 : Option (Bitmap nbits)) (invert : BitVec 64) (k : ℕ) :
    BitVec 64 :=
  (addr2.elim (addr1.word k) fun addr2 => addr1.word k &&& addr2.word k) ^^^ invert

theorem fetchWord_eq (hk : 64 * k < nbits) :
    fetchWord addr1 addr2 invert k = some (wantedWord addr1 addr2 invert k) := by
  have hin : k < bitsToLongs nbits := by
    rw [bitsToLongs]
    omega
  cases addr2 with
  | none => simp [fetchWord, wantedWord, Bitmap.read, hin]
  | some addr2 => simp [fetchWord, wantedWord, Bitmap.read, hin]

theorem getLsbD_bitmapFirstWordMask (hb : b < 64) :
    (bitmapFirstWordMask start).getLsbD b = decide (start % 64 ≤ b) := by
  rw [bitmapFirstWordMask, BitVec.getLsbD_shiftLeft]
  by_cases hlow : b < start % 64
  · have hno : ¬start % 64 ≤ b := by omega
    simp [hlow, hno]
  · have hyes : start % 64 ≤ b := by omega
    have hin : b - start % 64 < 64 := by omega
    rw [BitVec.getLsbD_allOnes]
    simp only [hb, hlow, hyes, hin, decide_true, decide_false, Bool.not_false, Bool.and_self]

/-! ## The loop -/

theorem Bitmap.nbits_le (map : Bitmap nbits) : nbits + 64 ≤ 2 ^ 64 := by
  have hfits := map.fits
  rw [bitsToLongs] at hfits
  omega

/-- The word `tmp` has the bits that are left of word `k`, and there was none before. -/
theorem findNextLoop_least (hk : 64 * k < nbits) (hstart : start < 64 * (k + 1))
    (hfuel : bitsToLongs nbits ≤ fuel + k)
    (htmp : ∀ b, b < 64 →
      tmp.getLsbD b =
      (decide (start ≤ 64 * k + b) && bitAt (wantedWord addr1 addr2 invert) (64 * k + b)))
    (hbelow : ∀ i, start ≤ i → i < 64 * k → bitAt (wantedWord addr1 addr2 invert) i = false) :
    ∃ r, findNextLoop addr1 addr2 invert fuel tmp (64 * k) = some r ∧
      LeastFrom (bitAt (wantedWord addr1 addr2 invert)) start nbits r := by
  induction fuel generalizing k tmp with
  | zero =>
    rw [bitsToLongs] at hfuel
    omega
  | succ fuel ih =>
    have hmax := addr1.nbits_le
    rw [findNextLoop]
    by_cases hzero : tmp = 0
    · have hnone : ∀ i, start ≤ i → i < 64 * (k + 1) → bitAt (wantedWord addr1 addr2 invert) i = false := by
        intro i hlow hhigh
        by_cases hi : i < 64 * k
        · exact hbelow i hlow hi
        · have hbit := htmp (i - 64 * k) (by omega)
          rw [hzero, Nat.add_sub_cancel' (Nat.not_lt.mp hi)] at hbit
          simpa [hlow] using hbit.symm
      have hnext : (64 * k + 64) % 2 ^ 64 = 64 * (k + 1) := by omega
      rw [if_neg (by simp [hzero])]
      simp only [hnext]
      by_cases hlast : nbits ≤ 64 * (k + 1)
      · rw [if_pos hlast]
        refine ⟨nbits, rfl, fun i hlow hi => hnone i hlow (by omega), Or.inl rfl⟩
      · have hdiv : 64 * (k + 1) / 64 = k + 1 := by omega
        rw [if_neg hlast, hdiv, fetchWord_eq (by omega), Option.bind_some]
        apply ih (by omega) (by omega) (by omega)
        · intro b hb
          rw [bitAt_word hb]
          by_cases hlow : start ≤ 64 * (k + 1) + b
          · simp [hlow]
          · omega
        · exact hnone
    · rw [if_pos hzero]
      have hlt := lowBit_lt hzero
      have hset := getLsbD_lowBit hzero
      have hsum : (64 * k + lowBit tmp) % 2 ^ 64 = 64 * k + lowBit tmp := Nat.mod_eq_of_lt (by omega)
      rw [htmp _ hlt, Bool.and_eq_true, decide_eq_true_eq] at hset
      have hfirst : ∀ i, start ≤ i → i < 64 * k + lowBit tmp →
          bitAt (wantedWord addr1 addr2 invert) i = false := by
        intro i hlow hhigh
        by_cases hi : i < 64 * k
        · exact hbelow i hlow hi
        · have hno : tmp.getLsbD (i - 64 * k) = false := getLsbD_below_lowBit (by omega)
          rw [htmp _ (by omega), Nat.add_sub_cancel' (Nat.not_lt.mp hi)] at hno
          simpa [hlow] using hno
      rw [hsum]
      refine ⟨_, rfl, fun i hlow hi => hfirst i hlow (lt_of_lt_of_le hi (Nat.min_le_left _ _)), ?_⟩
      by_cases hin : 64 * k + lowBit tmp < nbits
      · rw [Nat.min_eq_left hin.le]
        exact Or.inr ⟨hset.1, hin, hset.2⟩
      · exact Or.inl (Nat.min_eq_right (Nat.not_lt.mp hin))

theorem findNextBitCommon_least (addr1 : Bitmap nbits) (addr2 : Option (Bitmap nbits))
    (invert : BitVec 64) (start : ℕ) :
    ∃ r, findNextBitCommon addr1 addr2 invert start = some r ∧
      LeastFrom (bitAt (wantedWord addr1 addr2 invert)) start nbits r := by
  rw [findNextBitCommon]
  by_cases hstart : nbits ≤ start
  · rw [if_pos hstart]
    exact ⟨nbits, rfl, fun i hlow hi => absurd (lt_of_le_of_lt hlow hi) (Nat.not_lt.mpr hstart), Or.inl rfl⟩
  · have hword : start / 64 * 64 = 64 * (start / 64) := Nat.mul_comm _ _
    rw [if_neg hstart, fetchWord_eq (by omega), Option.bind_some, hword]
    apply findNextLoop_least (by omega) (by omega) (by omega)
    · intro b hb
      rw [BitVec.getLsbD_and, getLsbD_bitmapFirstWordMask hb, bitAt_word hb, Bool.and_comm]
      congr 1
      apply decide_eq_decide.mpr
      omega
    · intro i hlow hi
      omega

/-! ## The three modes -/

theorem bitAt_wantedWord_set (map : Bitmap nbits) : bitAt (wantedWord map none 0) = bitAt map.word := by
  funext i
  simp [bitAt, wantedWord]

theorem bitAt_wantedWord_zero (map : Bitmap nbits) :
    bitAt (wantedWord map none (BitVec.allOnes 64)) = fun i => !bitAt map.word i := by
  funext i
  have hmod : i % 64 < 64 := Nat.mod_lt _ (by omega)
  simp only [bitAt, wantedWord, Option.elim_none, BitVec.getLsbD_xor, BitVec.getLsbD_allOnes, hmod,
    decide_true, Bool.xor_true]

theorem bitAt_wantedWord_and (map map2 : Bitmap nbits) :
    bitAt (wantedWord map (some map2) 0) = fun i => bitAt map.word i && bitAt map2.word i := by
  funext i
  simp [bitAt, wantedWord]

/-- Each mode finds the least index, or returns `nbits`, and reads words of the bitmap only. -/
theorem findNext_least (map map2 : Bitmap nbits) (start : ℕ) :
    (∃ r, findNextBit map start = some r ∧ LeastFrom (bitAt map.word) start nbits r) ∧
      (∃ r, findNextZeroBit map start = some r ∧ LeastFrom (fun i => !bitAt map.word i) start nbits r) ∧
      (∃ r, findNextAndBit map map2 start = some r ∧
        LeastFrom (fun i => bitAt map.word i && bitAt map2.word i) start nbits r) := by
  refine ⟨?_, ?_, ?_⟩
  · rw [← bitAt_wantedWord_set]
    exact findNextBitCommon_least map none 0 start
  · rw [← bitAt_wantedWord_zero]
    exact findNextBitCommon_least map none (BitVec.allOnes 64) start
  · rw [← bitAt_wantedWord_and]
    exact findNextBitCommon_least map (some map2) 0 start

end Skp.Utils
