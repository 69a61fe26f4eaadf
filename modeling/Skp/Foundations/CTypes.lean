import Mathlib

/-! # Integer types of C

The types from `int` on, as a machine with a `long` of 64 bits has them, and the conversions between them. -/
namespace Skp.Foundations
set_option autoImplicit false

theorem two_pow_dvd_iff {j n : ℕ} : 2 ^ j ∣ n ↔ ∀ i, i < j → n.testBit i = false := by
  rw [Nat.dvd_iff_mod_eq_zero]
  constructor
  · intro hmod i hi
    have hbit := Nat.testBit_mod_two_pow n j i
    rw [hmod, Nat.zero_testBit, decide_eq_true hi, Bool.true_and] at hbit
    exact hbit.symm
  · intro hbits
    apply Nat.eq_of_testBit_eq
    intro i
    rw [Nat.testBit_mod_two_pow, Nat.zero_testBit]
    by_cases hi : i < j
    · rw [hbits i hi, Bool.and_false]
    · rw [decide_eq_false hi, Bool.false_and]

/-- The least multiple of 2^j from `n` on. -/
def leastMultiple (j n : ℕ) : ℕ := (n + (2 ^ j - 1)) / 2 ^ j * 2 ^ j

theorem testBit_leastMultiple (j n i : ℕ) :
    (leastMultiple j n).testBit i = (decide (j ≤ i) && (n + (2 ^ j - 1)).testBit i) := by
  rw [leastMultiple, Nat.testBit_mul_two_pow, Nat.testBit_div_two_pow]
  by_cases hij : j ≤ i
  · rw [Nat.sub_add_cancel hij]
  · simp [hij]

structure CType where
  long : Bool
  signed : Bool
deriving DecidableEq

namespace CType

def uint : CType := ⟨false, false⟩
def sizeT : CType := ⟨true, false⟩

def width (t : CType) : ℕ := if t.long then 64 else 32

abbrev Val (t : CType) := BitVec t.width

def value (t : CType) (x : t.Val) : ℤ := if t.signed then x.toInt else x.toNat

/-- A conversion: the sign of the old type is extended. -/
def conv (t u : CType) (x : t.Val) : u.Val := if t.signed then x.signExtend u.width else x.setWidth u.width

/-- The type of a sum. -/
def common (t u : CType) : CType :=
  if t.long = u.long then ⟨t.long, t.signed && u.signed⟩ else if t.long then t else u

/-- The values of the type are below 2^`valueBits`. -/
def valueBits (t : CType) : ℕ := if t.signed then t.width - 1 else t.width

variable {t u : CType} {x : t.Val} {n i : ℕ}

theorem width_eq (t : CType) : t.width = 32 ∨ t.width = 64 := by
  rw [width]
  split
  · exact .inr rfl
  · exact .inl rfl

theorem width_le (t : CType) : t.width ≤ 64 := by
  have heq := t.width_eq
  omega

theorem valueBits_le (t : CType) : t.valueBits ≤ t.width := by
  rw [valueBits]
  split <;> omega

theorem left_le_common (t u : CType) : t.width ≤ (common t u).width := by
  obtain ⟨tl, ts⟩ := t
  obtain ⟨ul, us⟩ := u
  revert tl ts ul us
  decide

theorem right_le_common (t u : CType) : u.width ≤ (common t u).width := by
  obtain ⟨tl, ts⟩ := t
  obtain ⟨ul, us⟩ := u
  revert tl ts ul us
  decide

/-- What is not negative is its bits, and has the sign bit clear. -/
theorem value_eq_natCast (h : t.value x = n) : x.toNat = n ∧ (t.signed = true → x.msb = false) := by
  rw [value] at h
  split at h
  · have hmsb : x.msb = false := by
      by_contra hmsb
      have hneg := BitVec.toInt_neg_of_msb_true (eq_true_of_ne_false hmsb)
      omega
    rw [BitVec.toInt_eq_toNat_of_msb hmsb] at h
    exact ⟨Int.ofNat.inj h, fun _ => hmsb⟩
  · exact ⟨Int.ofNat.inj h, fun hs => absurd hs ‹_›⟩

theorem getLsbD_conv (x : t.Val) (hi : i < u.width) :
    (conv t u x).getLsbD i = if i < t.width then x.getLsbD i else t.signed && x.msb := by
  rw [conv]
  split
  · rw [BitVec.getLsbD_signExtend, decide_eq_true hi, Bool.true_and]
    split <;> simp_all
  · rw [BitVec.getLsbD_setWidth, decide_eq_true hi, Bool.true_and]
    split
    · rfl
    · rw [BitVec.getLsbD_of_ge _ _ (by omega)]
      simp_all

/-- A value that is not negative stays what it is in a type that is no narrower. -/
theorem toNat_conv (h : t.value x = n) (hle : t.width ≤ u.width) : (conv t u x).toNat = n := by
  obtain ⟨hnat, hmsb⟩ := value_eq_natCast h
  rw [← hnat]
  apply Nat.eq_of_testBit_eq
  intro i
  rw [BitVec.testBit_toNat, BitVec.testBit_toNat]
  by_cases hi : i < u.width
  · rw [getLsbD_conv x hi]
    split
    · rfl
    · rw [BitVec.getLsbD_of_ge x i (by omega)]
      cases hs : t.signed with
      | false => rfl
      | true => rw [hmsb hs, Bool.and_false]
  · rw [BitVec.getLsbD_of_ge _ _ (by omega), BitVec.getLsbD_of_ge _ _ (by omega)]

end CType
end Skp.Foundations
