import Mathlib

/-! # Sizes and powers of two

The helpers of `bitops.h` on values of a given width. A shift by 64 takes its count modulo 64, as
the machine does. -/
namespace Skp.Utils
set_option autoImplicit false

/-- `ALIGN` in a type of `w` bits. -/
def alignTo (w n a : ℕ) : ℕ := (n + (a - 1)) % 2 ^ w / a * a

def fls (n : ℕ) : ℕ := if n = 0 then 0 else n.log2 + 1

def orderBase2 (n : ℕ) : ℕ := if 1 < n then (n - 1).log2 + 1 else 0

def isPowerOf2 (n : UInt64) : Bool := n != 0 && n &&& (n - 1) == 0

def roundupPowOfTwo (n : UInt64) : UInt64 := 1 <<< UInt64.ofNat (fls (n - 1).toNat)

theorem le_two_pow_orderBase2 (n : ℕ) : n ≤ 2 ^ orderBase2 n := by
  rw [orderBase2]
  split
  · have hlt := @Nat.lt_log2_self (n - 1)
    omega
  · rw [pow_zero]
    omega

theorem orderBase2_le {n k : ℕ} (h : n ≤ 2 ^ k) : orderBase2 n ≤ k := by
  rw [orderBase2]
  split
  · have hlt := (Nat.log2_lt (show n - 1 ≠ 0 by omega)).mpr (show n - 1 < 2 ^ k by omega)
    omega
  · exact Nat.zero_le k

theorem lt_two_pow_fls (n : ℕ) : n < 2 ^ fls n := by
  rw [fls]
  split
  · rw [pow_zero]
    omega
  · exact Nat.lt_log2_self

theorem fls_le {n k : ℕ} (h : n < 2 ^ k) : fls n ≤ k := by
  rw [fls]
  split
  · exact Nat.zero_le k
  · exact (Nat.log2_lt ‹_›).mpr h

theorem isPowerOf2_iff (n : UInt64) : isPowerOf2 n = true ↔ n.toNat.isPowerOfTwo := by
  rw [← Nat.ne_zero_and_sub_one_eq_zero_iff_isPowerOfTwo, isPowerOf2, Bool.and_eq_true,
    bne_iff_ne, beq_iff_eq]
  have hzero : n ≠ 0 ↔ n.toNat ≠ 0 := by
    rw [Ne, ← UInt64.toNat_inj, UInt64.toNat_zero]
  rw [hzero]
  apply and_congr_right
  intro hne
  have hsub : (n - 1).toNat = n.toNat - 1 := by
    rw [UInt64.toNat_sub_of_le, UInt64.toNat_one]
    rw [UInt64.le_iff_toNat_le, UInt64.toNat_one]
    omega
  rw [← UInt64.toNat_inj, UInt64.toNat_and, hsub, UInt64.toNat_zero]

theorem toNat_roundupPowOfTwo {n : UInt64} (h : (n - 1).toNat < 2 ^ 63) :
    (roundupPowOfTwo n).toNat = 2 ^ fls (n - 1).toNat := by
  have hle := fls_le h
  have hcount : (UInt64.ofNat (fls (n - 1).toNat)).toNat % 64 = fls (n - 1).toNat := by
    rw [UInt64.toNat_ofNat']
    omega
  have hlt : 2 ^ fls (n - 1).toNat < 2 ^ 64 := Nat.pow_lt_pow_right (by omega) (by omega)
  rw [roundupPowOfTwo, UInt64.toNat_shiftLeft, hcount, UInt64.toNat_one, Nat.shiftLeft_eq,
    Nat.one_mul, Nat.mod_eq_of_lt hlt]

end Skp.Utils
