import Skp.Utils.BitmapModel

/-! # Shifting a bitmap

Each round of a shift reads words that no earlier round has written, in place as well as from
another map. A shift to the right sees its source through the mask of the last word, which hides the
whole word when the number of bits is a multiple of 64. -/
namespace Skp.Utils
set_option autoImplicit false
open Skp.Foundations

variable {mem mem' : ℕ → BitVec 64} {dst src off rem lim shift nbits k n a b i : ℕ} {mask : BitVec 64}

/-- In place, or without a word in common. -/
def InPlaceOrApart (dst src lim : ℕ) : Prop := dst = src ∨ dst + lim ≤ src ∨ src + lim ≤ dst

def bits (mem : ℕ → BitVec 64) (a : ℕ) : ℕ → Bool := bitAt fun k => mem (a + k)

def ShiftedRight (mem mem' : ℕ → BitVec 64) (dst src shift nbits : ℕ) : Prop :=
  ∀ i, i < nbits → bits mem' dst i = if i + shift < nbits then bits mem src (i + shift) else false

def ShiftedLeft (mem mem' : ℕ → BitVec 64) (dst src shift nbits : ℕ) : Prop :=
  ∀ i, i < nbits → bits mem' dst i = if shift ≤ i then bits mem src (i - shift) else false

/-! ## To the right -/

theorem shiftRightWord_congr (rem : ℕ) (mask : BitVec 64) (hk : off + k < lim)
    (hsame : ∀ j, off + k ≤ j → j < lim → mem' (src + j) = mem (src + j)) :
    shiftRightWord mem' src off rem lim mask k = shiftRightWord mem src off rem lim mask k := by
  have hlow := hsame (off + k) (le_refl _) hk
  simp only [shiftRightWord, hlow]
  by_cases hlast : rem = 0 ∨ lim ≤ off + k + 1
  · simp only [if_pos hlast]
  · have hhigh := hsame (off + k + 1) (by omega) (by omega)
    simp only [if_neg hlast, hhigh]

theorem shiftRightLoop_apply (mem : ℕ → BitVec 64) (hplace : InPlaceOrApart dst src lim) (n k : ℕ)
    (mem' : ℕ → BitVec 64)
    (hk : off + k + n = lim) (hsame : ∀ j, off + k ≤ j → j < lim → mem' (src + j) = mem (src + j)) (a : ℕ) :
    shiftRightLoop dst src off rem lim mask n k mem' a =
      if dst + k ≤ a ∧ a < dst + k + n then shiftRightWord mem src off rem lim mask (a - dst)
        else mem' a := by
  induction n generalizing k mem' with
  | zero =>
    have hout : ¬(dst + k ≤ a ∧ a < dst + k + 0) := by omega
    rw [shiftRightLoop, if_neg hout]
  | succ n ih =>
    have hword := shiftRightWord_congr rem mask (by omega) hsame
    rw [shiftRightLoop, ih (k + 1) _ (by omega), hword]
    · by_cases ha : a = dst + k
      · subst ha
        have hin : dst + k ≤ dst + k ∧ dst + k < dst + k + (n + 1) := by omega
        have hout : ¬(dst + (k + 1) ≤ dst + k ∧ dst + k < dst + (k + 1) + n) := by omega
        rw [if_neg hout, if_pos hin, Function.update_self, Nat.add_sub_cancel_left]
      · have hiff : (dst + (k + 1) ≤ a ∧ a < dst + (k + 1) + n) ↔
          (dst + k ≤ a ∧ a < dst + k + (n + 1)) := by omega
        simp only [hiff, Function.update_of_ne ha]
    · intro j hj hlim
      have hne : src + j ≠ dst + k := by
        rcases hplace with rfl | hplace | hplace <;> omega
      rw [Function.update_of_ne hne]
      exact hsame j (by omega) hlim

/-- The source as a shift to the right sees it. -/
def maskedWord (mem : ℕ → BitVec 64) (src lim : ℕ) (mask : BitVec 64) (j : ℕ) : BitVec 64 :=
  if j < lim then (if j = lim - 1 then mem (src + j) &&& mask else mem (src + j)) else 0

theorem shiftRightWord_eq (hk : off + k < lim) :
    shiftRightWord mem src off rem lim mask k =
      funnel (maskedWord mem src lim mask (off + k)) (maskedWord mem src lim mask (off + k + 1)) rem := by
  simp only [shiftRightWord, funnel, maskedWord, if_pos hk]
  congr 1
  by_cases hrem : rem = 0
  · simp [hrem]
  · by_cases hlast : lim ≤ off + k + 1
    · have hout : ¬off + k + 1 < lim := by omega
      simp [hrem, hlast, hout]
    · have hin : off + k + 1 < lim := by omega
      simp [hrem, hlast, hin]

theorem bits_shiftRight (hplace : InPlaceOrApart dst src (bitsToLongs nbits))
    (hshift : shift ≤ nbits) (hi : i < nbits) :
    bits (bitmapShiftRight mem dst src shift nbits) dst i =
      bitAt (maskedWord mem src (bitsToLongs nbits) (bitmapLastWordMask nbits)) (i + shift) := by
  have hword : i / 64 < bitsToLongs nbits := by
    rw [bitsToLongs]
    omega
  have hoff : shift / 64 ≤ bitsToLongs nbits := by
    rw [bitsToLongs]
    omega
  have hb : i % 64 < 64 := Nat.mod_lt i (by omega)
  have hpos : i + shift = 64 * (shift / 64 + i / 64) + shift % 64 + i % 64 := by omega
  rw [hpos]
  simp only [bits, bitAt, bitmapShiftRight, zeroWords]
  by_cases hzero : bitsToLongs nbits - shift / 64 ≤ i / 64
  · have hin : dst + (bitsToLongs nbits - shift / 64) ≤ dst + i / 64 ∧
        dst + i / 64 < dst + (bitsToLongs nbits - shift / 64) + shift / 64 := by omega
    have hbeyond : ¬(64 * (shift / 64 + i / 64) + shift % 64 + i % 64) / 64 < bitsToLongs nbits := by omega
    rw [if_pos hin, maskedWord, if_neg hbeyond]
    simp
  · have hout : ¬(dst + (bitsToLongs nbits - shift / 64) ≤ dst + i / 64 ∧
        dst + i / 64 < dst + (bitsToLongs nbits - shift / 64) + shift / 64) := by omega
    have hin : dst + 0 ≤ dst + i / 64 ∧ dst + i / 64 < dst + 0 + (bitsToLongs nbits - shift / 64) := by omega
    rw [if_neg hout, shiftRightLoop_apply mem hplace _ _ _ (by omega) (fun _ _ _ => rfl),
      if_pos hin, Nat.add_sub_cancel_left,
      shiftRightWord_eq (by omega), getLsbD_funnel hb (Nat.mod_lt _ (by omega))]
    rfl

theorem bitAt_maskedWord (i : ℕ) :
    bitAt (maskedWord mem src (bitsToLongs nbits) (bitmapLastWordMask nbits)) i =
      (decide (i < if nbits % 64 = 0 then nbits - 64 else nbits) && bits mem src i) := by
  have hb : i % 64 < 64 := Nat.mod_lt i (by omega)
  have hlim : bitsToLongs nbits = (nbits + 63) / 64 := rfl
  simp only [bits, bitAt, maskedWord]
  by_cases hin : i / 64 < bitsToLongs nbits
  · rw [if_pos hin]
    by_cases hlast : i / 64 = bitsToLongs nbits - 1
    · rw [if_pos hlast, BitVec.getLsbD_and, bitmapLastWordMask, getLsbD_lowMask hb, Bool.and_comm]
      congr 1
      rw [decide_eq_decide]
      split <;> omega
    · have hlt : i < if nbits % 64 = 0 then nbits - 64 else nbits := by
        split <;> omega
      rw [if_neg hlast, decide_eq_true hlt, Bool.true_and]
  · have hge : ¬i < if nbits % 64 = 0 then nbits - 64 else nbits := by
      split <;> omega
    rw [if_neg hin, decide_eq_false hge, Bool.false_and]
    simp

theorem shiftedRight_iff (hplace : InPlaceOrApart dst src (bitsToLongs nbits)) (hshift : shift ≤ nbits) :
    ShiftedRight mem (bitmapShiftRight mem dst src shift nbits) dst src shift nbits ↔
      nbits % 64 ≠ 0 ∨ ∀ i, shift ≤ i → nbits - 64 ≤ i → i < nbits → bits mem src i = false := by
  rw [ShiftedRight]
  constructor
  · intro hright
    by_cases haligned : nbits % 64 = 0
    · right
      intro i hlow hword hlt
      have hbit := hright (i - shift) (by omega)
      have hback : i - shift + shift = i := by omega
      have hhidden : ¬i < nbits - 64 := by omega
      rw [bits_shiftRight hplace hshift (by omega), hback, bitAt_maskedWord, if_pos haligned,
        decide_eq_false hhidden,
        Bool.false_and, if_pos hlt] at hbit
      exact hbit.symm
    · exact .inl haligned
  · intro hcond i hi
    rw [bits_shiftRight hplace hshift hi, bitAt_maskedWord]
    by_cases hin : i + shift < nbits
    · rw [if_pos hin]
      rcases hcond with haligned | hclear
      · rw [if_neg haligned, decide_eq_true hin, Bool.true_and]
      · by_cases hlow : i + shift < if nbits % 64 = 0 then nbits - 64 else nbits
        · rw [decide_eq_true hlow, Bool.true_and]
        · have hword : nbits - 64 ≤ i + shift := by
            split at hlow <;> omega
          rw [hclear _ (by omega) hword hin, Bool.and_false]
    · have hout : ¬i + shift < if nbits % 64 = 0 then nbits - 64 else nbits := by
        split <;> omega
      rw [if_neg hin, decide_eq_false hout, Bool.false_and]

/-! ## To the left -/

theorem shiftLeftLoop_apply (mem : ℕ → BitVec 64) (hplace : InPlaceOrApart dst src lim) (n : ℕ)
    (mem' : ℕ → BitVec 64)
    (hn : n + off ≤ lim) (hsame : ∀ j, j < n → mem' (src + j) = mem (src + j)) (a : ℕ) :
    shiftLeftLoop dst src off rem n mem' a =
      if dst + off ≤ a ∧ a < dst + off + n then shiftLeftWord mem src rem (a - dst - off) else mem' a := by
  induction n generalizing mem' with
  | zero =>
    have hout : ¬(dst + off ≤ a ∧ a < dst + off + 0) := by omega
    rw [shiftLeftLoop, if_neg hout]
  | succ n ih =>
    have hword : shiftLeftWord mem' src rem n = shiftLeftWord mem src rem n := by
      have hhere := hsame n (by omega)
      simp only [shiftLeftWord, hhere]
      by_cases hlow : rem ≠ 0 ∧ 0 < n
      · have hbelow := hsame (n - 1) (by omega)
        simp only [if_pos hlow, hbelow]
      · simp only [if_neg hlow]
    rw [shiftLeftLoop, hword, ih _ (by omega)]
    · by_cases ha : a = dst + (n + off)
      · subst ha
        have hin : dst + off ≤ dst + (n + off) ∧ dst + (n + off) < dst + off + (n + 1) := by omega
        have hout : ¬(dst + off ≤ dst + (n + off) ∧ dst + (n + off) < dst + off + n) := by omega
        have hback : dst + (n + off) - dst - off = n := by omega
        rw [if_neg hout, if_pos hin, Function.update_self, hback]
      · have hiff : (dst + off ≤ a ∧ a < dst + off + n) ↔
          (dst + off ≤ a ∧ a < dst + off + (n + 1)) := by omega
        simp only [hiff, Function.update_of_ne ha]
    · intro j hj
      have hne : src + j ≠ dst + (n + off) := by
        rcases hplace with rfl | hplace | hplace <;> omega
      rw [Function.update_of_ne hne]
      exact hsame j (by omega)

theorem getLsbD_shiftLeftWord (hb : b < 64) (hrem : rem < 64) :
    (shiftLeftWord mem src rem k).getLsbD b = if rem ≤ 64 * k + b then
      bits mem src (64 * k + b - rem) else false := by
  simp only [shiftLeftWord, BitVec.getLsbD_or, BitVec.getLsbD_shiftLeft, hb, decide_true, Bool.true_and]
  by_cases hin : rem ≤ b
  · have hlow : (if rem ≠ 0 ∧ 0 < k then mem (src + (k - 1)) >>> (64 - rem) else 0).getLsbD b = false := by
      split
      · rw [BitVec.getLsbD_ushiftRight]
        exact BitVec.getLsbD_of_ge _ _ (by omega)
      · exact BitVec.getLsbD_zero
    have hpos : 64 * k + b - rem = 64 * k + (b - rem) := by omega
    rw [hlow, Bool.false_or, if_pos (by omega), hpos, bits, bitAt_word (by omega)]
    simp [hin]
  · have hlt : b < rem := by omega
    simp only [hlt, decide_true, Bool.not_true, Bool.false_and, Bool.or_false]
    by_cases hk : 0 < k
    · have hpos : 64 * k + b - rem = 64 * (k - 1) + (64 - rem + b) := by omega
      rw [if_pos ⟨by omega, hk⟩, if_pos (by omega), hpos, bits, bitAt_word (by omega),
        BitVec.getLsbD_ushiftRight]
    · rw [if_neg (by omega), if_neg (by omega)]
      exact BitVec.getLsbD_zero

theorem shiftedLeft (hplace : InPlaceOrApart dst src (bitsToLongs nbits)) (hshift : shift ≤ nbits) :
    ShiftedLeft mem (bitmapShiftLeft mem dst src shift nbits) dst src shift nbits := by
  intro i hi
  have hlim : bitsToLongs nbits = (nbits + 63) / 64 := rfl
  simp only [bits, bitAt, bitmapShiftLeft, zeroWords]
  by_cases hzero : i / 64 < shift / 64
  · have hin : dst ≤ dst + i / 64 ∧ dst + i / 64 < dst + shift / 64 := by omega
    rw [if_pos hin, if_neg (by omega)]
    exact BitVec.getLsbD_zero
  · have hout : ¬(dst ≤ dst + i / 64 ∧ dst + i / 64 < dst + shift / 64) := by omega
    have hin : dst + shift / 64 ≤ dst + i / 64 ∧ dst + i / 64 < dst + shift / 64 +
        (bitsToLongs nbits - shift / 64) := by omega
    rw [if_neg hout, shiftLeftLoop_apply mem hplace _ _ (by omega) (fun _ _ => rfl), if_pos hin,
      getLsbD_shiftLeftWord (Nat.mod_lt _ (by omega)) (Nat.mod_lt _ (by omega))]
    by_cases hle : shift ≤ i
    · have hpos : 64 * (dst + i / 64 - dst - shift / 64) + i % 64 - shift % 64 = i - shift := by omega
      rw [if_pos (by omega), if_pos hle, hpos]
      rfl
    · rw [if_neg (by omega), if_neg hle]

/-- The shift to the left is right for every map; the one to the right unless the number of bits is
a multiple of 64 and the last word has a bit that should come down. -/
theorem bitmapShift_iff (mem : ℕ → BitVec 64) (dst src shift nbits : ℕ)
    (hplace : InPlaceOrApart dst src (bitsToLongs nbits))
    (hshift : shift ≤ nbits) :
    (ShiftedRight mem (bitmapShiftRight mem dst src shift nbits) dst src shift nbits ↔
      nbits % 64 ≠ 0 ∨ ∀ i, shift ≤ i → nbits - 64 ≤ i → i < nbits → bits mem src i = false) ∧
      ShiftedLeft mem (bitmapShiftLeft mem dst src shift nbits) dst src shift nbits :=
  ⟨shiftedRight_iff hplace hshift, shiftedLeft hplace hshift⟩

theorem bitmapShift_iff_inPlace :
    (ShiftedRight (fun _ => 6) (bitmapShiftRight (fun _ => 6) 0 0 1 70) 0 0 1 70 ↔
      70 % 64 ≠ 0 ∨ ∀ i, 1 ≤ i → 70 - 64 ≤ i → i < 70 → bits (fun _ => 6) 0 i = false) ∧
      ShiftedLeft (fun _ => 6) (bitmapShiftLeft (fun _ => 6) 0 0 1 70) 0 0 1 70 :=
  bitmapShift_iff (fun _ => 6) 0 0 1 70 (.inl rfl) (by decide)

/-- One word shifted by one bit to the right: nothing is left of it. -/
theorem shift_loses_word :
    bits (bitmapShiftRight (fun _ => 6) 0 0 1 64) 0 0 = false ∧
      ¬ShiftedRight (fun _ => 6) (bitmapShiftRight (fun _ => 6) 0 0 1 64) 0 0 1 64 := by
  have hbit : bits (bitmapShiftRight (fun _ => 6) 0 0 1 64) 0 0 = false := by decide
  refine ⟨hbit, fun hright => ?_⟩
  have hwant := hright 0 (by omega)
  rw [hbit] at hwant
  exact absurd hwant (by decide)

end Skp.Utils
