import Mathlib

/-! # Digits of an index, and sums over an updated family

The walk through a tree of fixed fan-out reads a number digit by digit; two numbers with the same digits
below a level agree modulo that level's weight. -/

namespace Skp.Foundations
set_option autoImplicit false

/-- Equal low digits mean equal remainders. -/
theorem mod_pow_eq_of_digits {b x y : ℕ} (h : ℕ) (hd : ∀ k, k < h → x / b ^ k % b = y / b ^ k % b) :
    x % b ^ h = y % b ^ h := by
  induction h with
  | zero => rw [pow_zero, Nat.mod_one, Nat.mod_one]
  | succ h ih =>
    rw [Nat.mod_pow_succ, Nat.mod_pow_succ, hd h (Nat.lt_succ_self h), ih fun k hk => hd k (by omega)]

/-- The leading digit of a number below `b ^ (h + 1)` is zero exactly when the number is below `b ^ h`. -/
theorem digit_eq_zero_iff {b x h : ℕ} (hx : x < b ^ (h + 1)) : x / b ^ h % b = 0 ↔ x < b ^ h := by
  have hpos : 0 < b := by
    by_contra h0
    have : b = 0 := by omega
    rw [this, pow_succ, Nat.mul_zero] at hx
    omega
  have hq : x / b ^ h < b := by
    rw [Nat.div_lt_iff_lt_mul (pow_pos hpos h)]
    calc x < b ^ (h + 1) := hx
      _ = b * b ^ h := pow_succ' b h
  rw [Nat.mod_eq_of_lt hq, Nat.div_eq_zero_iff_lt (pow_pos hpos h)]

/-- A sum after one member of the family is exchanged. -/
theorem sum_update_add {ι α : Type*} [DecidableEq ι] (s : Finset ι) (g : ι → α → ℕ) (f : ι → α)
    {i : ι} (hi : i ∈ s)
    (x : α) : ∑ j ∈ s, g j (Function.update f i x j) + g i (f i) = ∑ j ∈ s, g j (f j) + g i x := by
  rw [← Finset.add_sum_erase s (fun j => g j (Function.update f i x j)) hi,
    ← Finset.add_sum_erase s (fun j => g j (f j)) hi, Function.update_self]
  have hrest : ∑ j ∈ s.erase i, g j (Function.update f i x j) = ∑ j ∈ s.erase i, g j (f j) := by
    apply Finset.sum_congr rfl
    intro j hj
    rw [Function.update_of_ne (Finset.ne_of_mem_erase hj)]
  rw [hrest]
  omega

/-! ## Decimal numbers

The value of a list of digits, read from the left. Reading can go on from any number, and may be
done modulo a number. -/

section Decimal
def isDigit (c : UInt8) : Bool := 48 ≤ c.toNat && c.toNat ≤ 57

def digitVal (c : UInt8) : ℕ := c.toNat - 48

/-- `n` followed by the digits `ds`. -/
def readOn (n : ℕ) (ds : List UInt8) : ℕ := ds.foldl (fun n d => n * 10 + digitVal d) n

def decimal (ds : List UInt8) : ℕ := readOn 0 ds

variable {n M : ℕ} {d : UInt8} {ds es : List UInt8}

@[simp] theorem readOn_nil : readOn n [] = n := by
  rw [readOn, List.foldl_nil]

@[simp] theorem readOn_cons : readOn n (d :: ds) = readOn (n * 10 + digitVal d) ds := by
  rw [readOn, List.foldl_cons, ← readOn]

theorem readOn_eq (n : ℕ) (ds : List UInt8) : readOn n ds = n * 10 ^ ds.length + decimal ds := by
  induction ds generalizing n with
  | nil => simp [decimal]
  | cons d ds ih =>
    have hone := ih (digitVal d)
    rw [decimal, readOn_cons, readOn_cons, ih, Nat.zero_mul, Nat.zero_add, hone, List.length_cons, pow_succ]
    ring

theorem decimal_concat (ds : List UInt8) (d : UInt8) :
    decimal (ds ++ [d]) = decimal ds * 10 + digitVal d := by
  rw [decimal, readOn, List.foldl_append]
  rfl

theorem digitVal_lt (hd : isDigit d = true) : digitVal d < 10 := by
  simp only [isDigit, Bool.and_eq_true, decide_eq_true_eq] at hd
  rw [digitVal]
  omega

theorem decimal_lt (hds : ∀ d ∈ ds, isDigit d = true) : decimal ds < 10 ^ ds.length := by
  induction ds with
  | nil => simp [decimal]
  | cons d ds ih =>
    have hrest := ih fun c hc => hds c (List.mem_cons_of_mem _ hc)
    have hfirst := digitVal_lt (hds d List.mem_cons_self)
    have hone := readOn_eq (digitVal d) ds
    rw [decimal, readOn_cons, Nat.zero_mul, Nat.zero_add, hone, List.length_cons, pow_succ]
    calc digitVal d * 10 ^ ds.length + decimal ds
        < digitVal d * 10 ^ ds.length + 10 ^ ds.length := Nat.add_lt_add_left hrest _
      _ = (digitVal d + 1) * 10 ^ ds.length := by ring
      _ ≤ 10 * 10 ^ ds.length := Nat.mul_le_mul_right _ hfirst
      _ = 10 ^ ds.length * 10 := Nat.mul_comm _ _

/-- Reading modulo `M` may start from the rest. -/
theorem readOn_mod (M n : ℕ) (ds : List UInt8) : readOn (n % M) ds % M = readOn n ds % M := by
  rw [readOn_eq, readOn_eq n, Nat.add_mod, Nat.mul_mod, Nat.mod_mod, ← Nat.mul_mod, ← Nat.add_mod]

end Decimal

end Skp.Foundations
