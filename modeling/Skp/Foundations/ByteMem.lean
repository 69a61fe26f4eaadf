import Mathlib

/-! # Bytes in memory

A block of memory is a function from offsets to bytes. `readBytes` is the list of the bytes of a
range, `writeBytes` stores a list and `copyBytes` is `memcpy` between two blocks. Numbers are stored
with the lowest byte first, or in the reverse order. -/
namespace Skp.Foundations
set_option autoImplicit false

variable {m src : ℕ → UInt8} {bs : List UInt8} {a b i k n : ℕ}

def readBytes (m : ℕ → UInt8) (a n : ℕ) : List UInt8 := (List.range n).map fun i => m (a + i)

def writeBytes (m : ℕ → UInt8) (a : ℕ) (bs : List UInt8) : ℕ → UInt8 := fun i =>
  if a ≤ i ∧ i < a + bs.length then bs.getD (i - a) 0 else m i

/-- `n` bytes of `src` at `b` go to `a`. -/
def copyBytes (m : ℕ → UInt8) (a : ℕ) (src : ℕ → UInt8) (b n : ℕ) : ℕ → UInt8 :=
  writeBytes m a (readBytes src b n)

@[simp] theorem length_readBytes : (readBytes m a n).length = n := by
  simp [readBytes]

theorem getElem?_readBytes (hi : i < n) : (readBytes m a n)[i]? = some (m (a + i)) := by
  simp [readBytes, hi]

theorem readBytes_add : readBytes m a (n + k) = readBytes m a n ++ readBytes m (a + n) k := by
  simp only [readBytes, List.range_add, List.map_append, List.map_map]
  congr 1
  apply List.map_congr_left
  intro i _
  simp [Nat.add_assoc]

/-- Two ranges with the same bytes. -/
theorem readBytes_congr (h : ∀ i, i < n → m (a + i) = src (b + i)) : readBytes m a n = readBytes src b n := by
  apply List.map_congr_left
  intro i hi
  exact h i (List.mem_range.mp hi)

theorem writeBytes_apply (hi : i < bs.length) : writeBytes m a bs (a + i) = bs[i] := by
  have hin : a ≤ a + i ∧ a + i < a + bs.length := by omega
  simp [writeBytes, hin, hi]

theorem writeBytes_of_outside (hi : i < a ∨ a + bs.length ≤ i) : writeBytes m a bs i = m i := by
  have hout : ¬(a ≤ i ∧ i < a + bs.length) := by omega
  simp [writeBytes, hout]

theorem readBytes_writeBytes_self : readBytes (writeBytes m a bs) a bs.length = bs := by
  apply List.ext_getElem
  · simp
  · intro i _ hi
    simp [readBytes, writeBytes_apply hi]

/-- A store beyond the range leaves it alone. -/
theorem readBytes_writeBytes_of_le (h : a + n ≤ b) : readBytes (writeBytes m b bs) a n = readBytes m a n := by
  apply readBytes_congr
  intro i hi
  apply writeBytes_of_outside
  omega

/-- Bytes that are put behind a range are seen behind it. -/
theorem readBytes_writeBytes_append :
    readBytes (writeBytes m (a + n) bs) a (n + bs.length) = readBytes m a n ++ bs := by
  rw [readBytes_add, readBytes_writeBytes_of_le (le_refl _), readBytes_writeBytes_self]

/-- A range of what was copied. -/
theorem readBytes_copyBytes (h : i + k ≤ n) :
    readBytes (copyBytes m a src b n) (a + i) k = readBytes src (b + i) k := by
  apply readBytes_congr
  intro j hj
  have hlt : i + j < (readBytes src b n).length := by
    rw [length_readBytes]
    omega
  rw [copyBytes, Nat.add_assoc, writeBytes_apply hlt]
  simp [readBytes, Nat.add_assoc]

theorem take_readBytes (h : k ≤ n) : (readBytes m a n).take k = readBytes m a k := by
  obtain ⟨j, rfl⟩ := Nat.exists_eq_add_of_le h
  rw [readBytes_add, List.take_append_of_le_length (by simp), List.take_of_length_le (by simp)]

theorem drop_readBytes (h : k ≤ n) : (readBytes m a n).drop k = readBytes m (a + k) (n - k) := by
  obtain ⟨j, rfl⟩ := Nat.exists_eq_add_of_le h
  rw [readBytes_add, List.drop_append_of_le_length (by simp), List.drop_of_length_le (by simp),
    List.nil_append,
    Nat.add_sub_cancel_left]

/-! ## Arrays of elements -/

/-- The element `k` of an array of elements of `n` bytes. -/
def elemAt (n : ℕ) (m : ℕ → UInt8) (k : ℕ) : List UInt8 := readBytes m (k * n) n

/-- Two different elements have no byte in common. -/
theorem elems_apart {j : ℕ} (h : i ≠ j) (n : ℕ) : i * n + n ≤ j * n ∨ j * n + n ≤ i * n := by
  rcases Nat.lt_or_gt_of_ne h with hlt | hlt
  · left
    rw [← Nat.succ_mul]
    exact Nat.mul_le_mul_right n hlt
  · right
    rw [← Nat.succ_mul]
    exact Nat.mul_le_mul_right n hlt

theorem elem_fits (hi : i < k) (n : ℕ) : i * n + n ≤ k * n := by
  rw [← Nat.succ_mul]
  exact Nat.mul_le_mul_right n hi

theorem elemAt_writeBytes_self (h : bs.length = n) : elemAt n (writeBytes m (k * n) bs) k = bs := by
  subst h
  exact readBytes_writeBytes_self

theorem elemAt_writeBytes_ne (h : bs.length = n) (hne : i ≠ k) :
    elemAt n (writeBytes m (k * n) bs) i = elemAt n m i := by
  apply readBytes_congr
  intro d hd
  have hapart := elems_apart hne n
  apply writeBytes_of_outside
  omega

/-! ## Numbers as bytes -/

/-- The `w` bytes of `n`, the lowest first. -/
def leBytes : ℕ → ℕ → List UInt8
  | 0, _ => []
  | w + 1, n => UInt8.ofNat n :: leBytes w (n / 256)

def ofLeBytes : List UInt8 → ℕ
  | [] => 0
  | b :: bs => b.toNat + 256 * ofLeBytes bs

@[simp] theorem length_leBytes (w n : ℕ) : (leBytes w n).length = w := by
  induction w generalizing n with
  | zero => rfl
  | succ w ih => simp [leBytes, ih]

/-- The lowest bytes of a multiple of a power of 256. -/
theorem leBytes_zero_iff {w j : ℕ} (h : j ≤ w) : (∀ k, k < j → (leBytes w n)[k]? = some 0) ↔ 256 ^ j ∣ n := by
  induction w generalizing n j with
  | zero =>
    obtain rfl : j = 0 := Nat.le_zero.mp h
    simp
  | succ w ih =>
    cases j with
    | zero => simp
    | succ j =>
      have hfirst : (leBytes (w + 1) n)[0]? = some 0 ↔ 256 ∣ n := by
        rw [leBytes, List.getElem?_cons_zero, Option.some.injEq, ← UInt8.toNat_inj,
          UInt8.toNat_ofNat', UInt8.toNat_zero,
          Nat.dvd_iff_mod_eq_zero]
      have hsplit : (∀ k, k < j + 1 → (leBytes (w + 1) n)[k]? = some 0) ↔
          256 ∣ n ∧ ∀ k, k < j → (leBytes w (n / 256))[k]? = some 0 := by
        rw [← hfirst]
        constructor
        · intro hall
          exact ⟨hall 0 (Nat.succ_pos j), fun k hk => hall (k + 1) (Nat.succ_lt_succ hk)⟩
        · rintro ⟨hzero, hrest⟩ k hk
          cases k with
          | zero => exact hzero
          | succ k => exact hrest k (Nat.lt_of_succ_lt_succ hk)
      rw [hsplit, ih (Nat.le_of_succ_le_succ h)]
      constructor
      · rintro ⟨hdvd, hrest⟩
        rw [pow_succ', ← Nat.mul_div_cancel' hdvd]
        exact Nat.mul_dvd_mul_left 256 hrest
      · intro hall
        have hdvd : 256 ∣ n := dvd_trans (Dvd.intro_left (256 ^ j) (pow_succ 256 j).symm) hall
        refine ⟨hdvd, ?_⟩
        rw [pow_succ', ← Nat.mul_div_cancel' hdvd] at hall
        exact Nat.dvd_of_mul_dvd_mul_left (by decide) hall

theorem ofLeBytes_leBytes (w : ℕ) (h : n < 256 ^ w) : ofLeBytes (leBytes w n) = n := by
  induction w generalizing n with
  | zero =>
    rw [pow_zero] at h
    simp only [leBytes, ofLeBytes]
    omega
  | succ w ih =>
    have hrest : n / 256 < 256 ^ w := by
      rw [pow_succ] at h
      omega
    simp only [leBytes, ofLeBytes, ih hrest, UInt8.toNat_ofNat']
    omega

theorem leBytes_ofLeBytes (bs : List UInt8) : leBytes bs.length (ofLeBytes bs) = bs := by
  induction bs with
  | nil => rfl
  | cons b bs ih =>
    have hb : b.toNat < 256 := b.toNat_lt
    have hdiv : (b.toNat + 256 * ofLeBytes bs) / 256 = ofLeBytes bs := by omega
    simp only [List.length_cons, leBytes, ofLeBytes, hdiv, ih]
    congr 1
    apply UInt8.toNat_inj.mp
    simp only [UInt8.toNat_ofNat']
    omega

theorem ofLeBytes_lt (bs : List UInt8) : ofLeBytes bs < 256 ^ bs.length := by
  induction bs with
  | nil => simp [ofLeBytes]
  | cons b bs ih =>
    have hb : b.toNat < 256 := b.toNat_lt
    simp only [ofLeBytes, List.length_cons, pow_succ]
    omega

end Skp.Foundations
