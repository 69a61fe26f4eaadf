import Mathlib

/-! # Bits in words

An array of 64-bit words as a sequence of bits, masks of the low bits of a word, the highest bit of
a word, and the word that is pieced together from two neighbours. -/
namespace Skp.Foundations
set_option autoImplicit false

variable {m : ℕ → BitVec 64} {x : BitVec 64} {b i k r : ℕ}

def bitAt (m : ℕ → BitVec 64) (i : ℕ) : Bool := (m (i / 64)).getLsbD (i % 64)

theorem bitAt_word (hb : b < 64) : bitAt m (64 * k + b) = (m k).getLsbD b := by
  have hdiv : (64 * k + b) / 64 = k := by omega
  have hmod : (64 * k + b) % 64 = b := by omega
  rw [bitAt, hdiv, hmod]

/-- The bits of an array of 32-bit words. -/
def bitAt32 (a : ℕ → BitVec 32) (i : ℕ) : Bool := (a (i / 32)).getLsbD (i % 32)

theorem bitAt32_word {a : ℕ → BitVec 32} (hb : b < 32) : bitAt32 a (32 * k + b) = (a k).getLsbD b := by
  have hdiv : (32 * k + b) / 32 = k := by omega
  have hmod : (32 * k + b) % 32 = b := by omega
  rw [bitAt32, hdiv, hmod]

/-- The bits below `r`. -/
def lowMask (r : ℕ) : BitVec 64 := ~~~(BitVec.allOnes 64 <<< r)

theorem getLsbD_lowMask (hb : b < 64) : (lowMask r).getLsbD b = decide (b < r) := by
  simp only [lowMask, BitVec.getLsbD_not, BitVec.getLsbD_shiftLeft, BitVec.getLsbD_allOnes, hb,
    decide_true, Bool.true_and]
  by_cases hr : b < r
  · simp [hr]
  · have hlt : b - r < 64 := by omega
    simp [hr, hlt]

@[simp] theorem lowMask_zero : lowMask 0 = 0 := by
  decide

/-! ## The highest bit -/

def topBit (x : BitVec 64) : ℕ := x.toNat.log2

theorem topBit_lt (x : BitVec 64) : topBit x < 64 := by
  by_cases hx : x.toNat = 0
  · simp [topBit, hx]
  · exact (Nat.log2_lt hx).mpr x.isLt

theorem getLsbD_topBit (hx : x ≠ 0) : x.getLsbD (topBit x) = true := by
  have hnat : x.toNat ≠ 0 := by
    intro h
    exact hx (BitVec.eq_of_toNat_eq h)
  rw [← BitVec.testBit_toNat]
  exact Nat.testBit_log2 hnat

theorem getLsbD_above_topBit (hb : topBit x < b) : x.getLsbD b = false := by
  rw [← BitVec.testBit_toNat]
  apply Nat.testBit_lt_two_pow
  by_cases hx : x.toNat = 0
  · rw [hx]
    exact Nat.two_pow_pos b
  · exact (Nat.log2_lt hx).mp hb

/-! ## The lowest bit -/

def lowBit (x : BitVec 64) : ℕ := x.ctz.toNat

theorem lowBit_lt (hx : x ≠ 0) : lowBit x < 64 := by
  have hlt : x.ctz < 64#64 := BitVec.ctz_lt_iff_ne_zero.mpr hx
  exact BitVec.lt_def.mp hlt

theorem getLsbD_lowBit (hx : x ≠ 0) : x.getLsbD (lowBit x) = true := BitVec.getLsbD_true_ctz_of_ne_zero hx

theorem getLsbD_below_lowBit (hb : b < lowBit x) : x.getLsbD b = false := BitVec.getLsbD_false_of_lt_ctz hb

/-- The bits of two words, one by one. -/
theorem eq_zero_iff_bits : x = 0 ↔ ∀ b, b < 64 → x.getLsbD b = false := by
  constructor
  · rintro rfl b _
    exact BitVec.getLsbD_zero
  · intro h
    apply BitVec.eq_of_getLsbD_eq
    intro b hb
    rw [h b hb]
    exact BitVec.getLsbD_zero.symm

/-! ## The first bit of a kind -/

/-- `r` is the first index from `start` on that is wanted, or `stop` when there is none below it. -/
structure LeastFrom (want : ℕ → Bool) (start stop r : ℕ) : Prop where
  below : ∀ i, start ≤ i → i < r → want i = false
  found : r = stop ∨ (start ≤ r ∧ r < stop ∧ want r = true)

theorem LeastFrom.unique {want : ℕ → Bool} {start stop r r' : ℕ} (h : LeastFrom want start stop r)
    (h' : LeastFrom want start stop r') :
    r = r' := by
  rcases h.found with hr | ⟨hlow, hstop, hwant⟩
  · rcases h'.found with hr' | ⟨hlow', hstop', hwant'⟩
    · exact hr.trans hr'.symm
    · have hno := h.below r' hlow' (hr ▸ hstop')
      rw [hwant'] at hno
      cases hno
  · rcases h'.found with hr' | ⟨hlow', hstop', hwant'⟩
    · have hno := h'.below r hlow (hr' ▸ hstop)
      rw [hwant] at hno
      cases hno
    · by_contra hne
      rcases Nat.lt_or_gt_of_ne hne with hlt | hlt
      · have hno := h'.below r hlow hlt
        rw [hwant] at hno
        cases hno
      · have hno := h.below r' hlow' hlt
        rw [hwant'] at hno
        cases hno

theorem LeastFrom.congr {want want' : ℕ → Bool} {start stop r : ℕ} (h : LeastFrom want start stop r)
    (hsame : ∀ i, i < stop → want i = want' i) : LeastFrom want' start stop r := by
  have hle : r ≤ stop := by
    rcases h.found with rfl | ⟨_, hlt, _⟩
    · exact le_refl _
    · exact hlt.le
  constructor
  · intro i hlow hi
    rw [← hsame i (lt_of_lt_of_le hi hle)]
    exact h.below i hlow hi
  · rcases h.found with hr | ⟨hlow, hlt, hwant⟩
    · exact Or.inl hr
    · rw [hsame r hlt] at hwant
      exact Or.inr ⟨hlow, hlt, hwant⟩

theorem LeastFrom.eq_stop_iff {want : ℕ → Bool} {stop r : ℕ} (h : LeastFrom want 0 stop r) :
    r = stop ↔ ∀ i, i < stop → want i = false := by
  constructor
  · rintro rfl i hi
    exact h.below i (Nat.zero_le _) hi
  · intro hnone
    rcases h.found with hr | ⟨_, hlt, hwant⟩
    · exact hr
    · rw [hnone r hlt] at hwant
      cases hwant

/-! ## Two neighbours -/

/-- The word at bit `r` of two neighbouring words. -/
def funnel (low high : BitVec 64) (r : ℕ) : BitVec 64 :=
  low >>> r ||| (if r = 0 then 0 else high <<< (64 - r))

theorem getLsbD_funnel (hb : b < 64) (hr : r < 64) :
    (funnel (m k) (m (k + 1)) r).getLsbD b = bitAt m (64 * k + r + b) := by
  rw [funnel, BitVec.getLsbD_or, BitVec.getLsbD_ushiftRight]
  by_cases hin : r + b < 64
  · have hhigh : (if r = 0 then (0 : BitVec 64) else m (k + 1) <<< (64 - r)).getLsbD b = false := by
      split
      · exact BitVec.getLsbD_zero
      · rw [BitVec.getLsbD_shiftLeft]
        have hlt : b < 64 - r := by omega
        simp [hlt]
    rw [hhigh, Bool.or_false, Nat.add_assoc, bitAt_word hin]
  · have hlow : (m k).getLsbD (r + b) = false := BitVec.getLsbD_of_ge _ _ (by omega)
    have hpos : r ≠ 0 := by omega
    have hnext : 64 * k + r + b = 64 * (k + 1) + (b - (64 - r)) := by omega
    have hlt : ¬b < 64 - r := by omega
    rw [hlow, Bool.false_or, if_neg hpos, BitVec.getLsbD_shiftLeft, hnext, bitAt_word (by omega)]
    simp [hb, hlt]

end Skp.Foundations
