import Mathlib

/-! # Counters that wrap

A counter of `w` bits that follows an unbounded one: equal readings mean equal counts as long as the
counts lie within one turn of the counter. -/
namespace Skp.Foundations
set_option autoImplicit false

theorem ofNat_inj_of_window {w a b : ℕ} (hle : a ≤ b) (hlt : b < a + 2 ^ w)
    (h : BitVec.ofNat w a = BitVec.ofNat w b) : a = b := by
  have hmod : a % 2 ^ w = b % 2 ^ w := by
    have := congrArg BitVec.toNat h
    simpa using this
  obtain ⟨k, rfl⟩ := Nat.exists_eq_add_of_le hle
  have hk : k < 2 ^ w := by omega
  have hz : k % 2 ^ w = 0 := by
    have hcongr : a + k ≡ a + 0 [MOD 2 ^ w] := hmod.symm
    exact Nat.ModEq.add_left_cancel' a hcongr
  rw [Nat.mod_eq_of_lt hk] at hz
  omega

theorem ofNat_add_one {w : ℕ} (a : ℕ) : BitVec.ofNat w a + 1 = BitVec.ofNat w (a + 1) := by
  apply BitVec.eq_of_toNat_eq
  simp [BitVec.toNat_add]

/-- The difference of two readings is the difference of the counts, when that is below one turn. -/
theorem ofNat_sub_window {w a b : ℕ} (hle : b ≤ a) :
    BitVec.ofNat w a - BitVec.ofNat w b = BitVec.ofNat w (a - b) := by
  obtain ⟨k, rfl⟩ := Nat.exists_eq_add_of_le hle
  rw [Nat.add_sub_cancel_left, BitVec.ofNat_add, add_sub_cancel_left]

theorem toNat_ofNat_of_lt {w a : ℕ} (h : a < 2 ^ w) : (BitVec.ofNat w a).toNat = a := by
  rw [BitVec.toNat_ofNat, Nat.mod_eq_of_lt h]

/-- Two positions of a window shorter than `m` that fall on the same residue are the same. -/
theorem eq_of_mod_eq_of_window {m base a b : ℕ} (ha : base ≤ a) (ha' : a < base + m) (hb : base ≤ b)
    (hb' : b < base + m) (h : a % m = b % m) : a = b := by
  wlog hab : a ≤ b generalizing a b
  · exact (this hb hb' ha ha' h.symm (by omega)).symm
  · obtain ⟨k, rfl⟩ := Nat.exists_eq_add_of_le hab
    have hk : k % m = 0 := Nat.ModEq.add_left_cancel' a (show a + k ≡ a + 0 [MOD m] from h.symm)
    rw [Nat.mod_eq_of_lt (by omega)] at hk
    omega

end Skp.Foundations
