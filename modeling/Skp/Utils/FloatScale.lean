import Skp.Utils.FloatScan

/-! # The value of str2float

`multi` is multiplied and divided in 32 bits. Where it stays a power of ten the whole part is exact
as long as the result fits, and the fraction loses only digits behind the point; where it turns
negative the value is lost. -/
namespace Skp.Utils
set_option autoImplicit false
open Skp.Foundations

variable {t : FloatText} {s : FloatScan} {m n : ℕ} {M : ℤ}

/-! ## Numbers in 64 bits -/

theorem wrap64_bounds (z : ℤ) : -2 ^ 63 ≤ wrap64 z ∧ wrap64 z < 2 ^ 63 := by
  have hlow := Int.le_bmod (x := z) (m := 2 ^ 64) (by decide)
  have hhigh := Int.bmod_lt (x := z) (m := 2 ^ 64) (by decide)
  rw [wrap64]
  omega

theorem wrap64_dvd (z : ℤ) : (2 ^ 64 : ℤ) ∣ z - wrap64 z := by
  have hdvd := Int.dvd_self_sub_bmod (x := z) (m := 2 ^ 64)
  exact_mod_cast hdvd

theorem wrap64_cases (n : ℕ) : n % 2 ^ 64 < 2 ^ 63 ∧ wrap64 n = (n % 2 ^ 64 : ℕ) ∨
    2 ^ 63 ≤ n % 2 ^ 64 ∧ wrap64 n = (n % 2 ^ 64 : ℕ) - 2 ^ 64 := by
  have hbounds := wrap64_bounds n
  obtain ⟨q, hq⟩ := wrap64_dvd n
  omega

theorem wrap64_mod (n : ℕ) : wrap64 (n % 2 ^ 64 : ℕ) = wrap64 n := by
  obtain ⟨q, hq⟩ := wrap64_dvd n
  obtain ⟨q', hq'⟩ := wrap64_dvd (n % 2 ^ 64 : ℕ)
  have hbounds := wrap64_bounds n
  have hbounds' := wrap64_bounds (n % 2 ^ 64 : ℕ)
  omega

theorem wrap64_neg (z : ℤ) : wrap64 (-wrap64 z) = wrap64 (-z) := Int.bmod_neg_bmod

theorem wrap64_add_left (y z : ℤ) : wrap64 (wrap64 y + z) = wrap64 (y + z) := Int.bmod_add_bmod

/-! ## Powers of ten -/

theorem eMulti_eq {n : ℕ} (hn : (10 : ℤ) ^ n < 2 ^ 31) : eMulti n = 10 ^ n := by
  induction n with
  | zero => rfl
  | succ n ih =>
    have hle : (10 : ℤ) ^ n ≤ 10 ^ (n + 1) := pow_le_pow_right₀ (by decide) (Nat.le_succ n)
    have hpos : (0 : ℤ) < 10 ^ n := by positivity
    rw [eMulti, ih (by omega), ← pow_succ, wrap32_eq (by omega) hn]

theorem eMulti_wrap (n : ℕ) : eMulti n = wrap32 (10 ^ n) := by
  induction n with
  | zero => rw [eMulti, pow_zero, wrap32_eq (by norm_num) (by norm_num)]
  | succ n ih => rw [eMulti, ih, wrap32, wrap32, wrap32, Int.bmod_mul_bmod, pow_succ (10 : ℤ) n]

theorem le_nine (hm : (10 : ℤ) ^ m < 2 ^ 31) : m ≤ 9 := by
  by_contra hlt
  have hle : (10 : ℤ) ^ 10 ≤ 10 ^ m := pow_le_pow_right₀ (by decide) (by omega)
  omega

theorem quotient_table : ∀ m < 10, ∀ e < 19, m < e → ((10 : ℤ) ^ m).tdiv (eMulti e) =
    if m = 9 ∧ e = 12 then -1 else if m = 9 ∧ e = 14 then 3 else 0 := by
  decide +kernel

theorem product_table : ∀ j < 28, 2 ^ 31 ≤ 10 ^ j →
    (10 ^ j % 2 ^ 32 < 2 ^ 31 → 1 < wrap32 (10 ^ j) ∧
      ((wrap32 (wrap32 (10 ^ j) - 1)).toNat % 10 ≠ 9 ∨ (wrap32 (wrap32 (10 ^ j) - 1)).toNat / 10 % 10 ≠ 9) ∧
      10 ≤ (wrap32 (wrap32 (10 ^ j) - 1)).toNat) ∧
    (2 ^ 31 ≤ 10 ^ j % 2 ^ 32 → -2 ^ 31 < wrap32 (10 ^ j) ∧ wrap32 (10 ^ j) < 0) := by
  decide +kernel

theorem nines_pow (k : ℕ) : nines (10 ^ k - 1) = some k := by
  induction k with
  | zero => rw [nines, dif_pos (by norm_num)]
  | succ k ih =>
    have hpos : 0 < 10 ^ k := by positivity
    have hstep : 10 ^ (k + 1) = 10 ^ k * 10 := pow_succ 10 k
    have hdiv : (10 ^ (k + 1) - 1) / 10 = 10 ^ k - 1 := by omega
    rw [nines, dif_neg (by omega), if_neg (by omega), hdiv, ih, Option.map_some]

theorem nines_none {i : ℕ} (hten : 10 ≤ i) (hdigits : i % 10 ≠ 9 ∨ i / 10 % 10 ≠ 9) : nines i = none := by
  rw [nines, dif_neg (by omega)]
  split_ifs with hlast
  · rfl
  · rw [nines, dif_neg (by omega), if_pos (hdigits.resolve_left hlast)]
    rfl

theorem mulTen_iterate (d j : ℕ) (hfit : d * 10 ^ j < 2 ^ 63) :
    (fun z => wrap64 (z * 10))^[j] (d : ℤ) = ((d * 10 ^ j : ℕ) : ℤ) := by
  induction j with
  | zero => simp
  | succ j ih =>
    have hstep : d * 10 ^ (j + 1) = d * 10 ^ j * 10 := by rw [pow_succ, Nat.mul_assoc]
    rw [Function.iterate_succ_apply', ih (by omega)]
    have hcast : ((d * 10 ^ j : ℕ) : ℤ) * 10 = ((d * 10 ^ (j + 1) : ℕ) : ℤ) := by
      rw [hstep]
      push_cast
      rfl
    rw [hcast, wrap64_nat hfit]

theorem tdiv_tdiv (z : ℤ) (a b : ℕ) : (z.tdiv a).tdiv b = z.tdiv (a * b : ℕ) := by
  obtain ⟨n, rfl | rfl⟩ := z.eq_nat_or_neg
  · rw [← Int.ofNat_tdiv, ← Int.ofNat_tdiv, ← Int.ofNat_tdiv, Nat.div_div_eq_div_mul]
  · rw [Int.neg_tdiv, Int.neg_tdiv, Int.neg_tdiv, ← Int.ofNat_tdiv, ← Int.ofNat_tdiv, ← Int.ofNat_tdiv,
      Nat.div_div_eq_div_mul]

theorem divTen_iterate (z : ℤ) (j : ℕ) : (fun z : ℤ => z.tdiv 10)^[j] z = z.tdiv (10 ^ j) := by
  induction j with
  | zero => simp
  | succ j ih =>
    have hstep := tdiv_tdiv z (10 ^ j) 10
    rw [← pow_succ] at hstep
    rw [Function.iterate_succ_apply', ih]
    exact_mod_cast hstep

/-! ## The fraction -/

/-- What is left of the fraction, for `n` digits. -/
def FloatText.kept (t : FloatText) (n : ℕ) : ℤ :=
  if t.fraction.length < n then (decimal t.fraction * 10 ^ (n - t.fraction.length) : ℕ)
  else (wrap64 (decimal t.fraction)).tdiv (10 ^ (t.fraction.length - n))

section Fraction
variable (hfraction : decimal t.fraction < 10 ^ t.fraction.length)
include hfraction

theorem natAbs_wrap64_lt : (wrap64 (decimal t.fraction)).natAbs < 10 ^ t.fraction.length := by
  have hcases := wrap64_cases (decimal t.fraction)
  have hmod := Nat.mod_le (decimal t.fraction) (2 ^ 64)
  omega

theorem kept_of_le (hle : t.fraction.length ≤ n) (hn : (10 : ℤ) ^ n < 2 ^ 31) :
    t.kept n = (decimal t.fraction * 10 ^ (n - t.fraction.length) : ℕ) := by
  rw [FloatText.kept]
  split_ifs with hlt
  · rfl
  · have heq : t.fraction.length = n := by omega
    have hcast : (decimal t.fraction : ℤ) < 10 ^ n := by
      rw [← heq]
      exact_mod_cast hfraction
    rw [heq, Nat.sub_self, pow_zero, pow_zero, Int.tdiv_one, wrap64_eq (by omega) (by omega), Nat.mul_one]

theorem kept_lt (hn : (10 : ℤ) ^ n < 2 ^ 31) : -10 ^ n < t.kept n ∧ t.kept n < 10 ^ n := by
  by_cases hle : t.fraction.length ≤ n
  · have hlt : decimal t.fraction * 10 ^ (n - t.fraction.length) < 10 ^ n := by
      calc decimal t.fraction * 10 ^ (n - t.fraction.length)
          < 10 ^ t.fraction.length * 10 ^ (n - t.fraction.length) :=
            Nat.mul_lt_mul_of_pos_right hfraction (by positivity)
        _ = 10 ^ n := by rw [← pow_add, Nat.add_sub_cancel' hle]
    have hcast : ((decimal t.fraction * 10 ^ (n - t.fraction.length) : ℕ) : ℤ) < 10 ^ n := by
      exact_mod_cast hlt
    have hpos : (0 : ℤ) < 10 ^ n := by positivity
    rw [kept_of_le hfraction hle hn]
    omega
  · have hlt : (t.kept n).natAbs < 10 ^ n := by
      rw [FloatText.kept, if_neg (by omega), Int.natAbs_tdiv]
      have hpow : ((10 : ℤ) ^ (t.fraction.length - n)).natAbs = 10 ^ (t.fraction.length - n) := by
        rw [Int.natAbs_pow]
        rfl
      rw [hpow]
      apply Nat.div_lt_of_lt_mul
      rw [← pow_add, Nat.sub_add_cancel (by omega)]
      exact natAbs_wrap64_lt hfraction
    have hcast : ((t.kept n).natAbs : ℤ) < 10 ^ n := by exact_mod_cast hlt
    omega

theorem scaleFraction_eq (hn : (10 : ℤ) ^ n < 2 ^ 31) :
    scaleFraction (wrap64 (decimal t.fraction)) t.fraction.length n = t.kept n := by
  rw [scaleFraction, FloatText.kept]
  by_cases hlt : t.fraction.length < n
  · have hj : ((n : ℤ) - t.fraction.length).toNat = n - t.fraction.length := by omega
    have hn' : 10 ^ n < 2 ^ 31 := by exact_mod_cast hn
    have hfit : decimal t.fraction * 10 ^ (n - t.fraction.length) < 2 ^ 63 := by
      calc decimal t.fraction * 10 ^ (n - t.fraction.length)
          ≤ 10 ^ t.fraction.length * 10 ^ (n - t.fraction.length) := Nat.mul_le_mul_right _ hfraction.le
        _ = 10 ^ n := by rw [← pow_add, Nat.add_sub_cancel' hlt.le]
        _ < 2 ^ 63 := by omega
    have hdec : decimal t.fraction < 2 ^ 63 := by
      refine lt_of_le_of_lt (Nat.le_mul_of_pos_right _ ?_) hfit
      positivity
    rw [if_pos (by exact_mod_cast hlt), if_pos hlt, hj, wrap64_nat hdec, mulTen_iterate _ _ hfit]
  · have hj : ((t.fraction.length : ℤ) - n).toNat = t.fraction.length - n := by omega
    rw [if_neg (by exact_mod_cast hlt), if_neg hlt, hj, divTen_iterate]

theorem fractionKept_iff (hn : (10 : ℤ) ^ n < 2 ^ 31) :
    t.FractionKept n ↔ t.kept n = (decimal t.fraction * 10 ^ n / 10 ^ t.fraction.length : ℕ) := by
  by_cases hle : t.fraction.length ≤ n
  · have hvalue : decimal t.fraction * 10 ^ n / 10 ^ t.fraction.length =
        decimal t.fraction * 10 ^ (n - t.fraction.length) := by
      rw [← Nat.sub_add_cancel hle, pow_add, ← Nat.mul_assoc, Nat.mul_div_cancel _ (by positivity),
        Nat.add_sub_cancel]
    have hcast : (decimal t.fraction : ℤ) < 2 ^ 31 := by
      have hpow : (10 : ℤ) ^ t.fraction.length ≤ 10 ^ n := pow_le_pow_right₀ (by decide) hle
      have hdec : (decimal t.fraction : ℤ) < 10 ^ t.fraction.length := by exact_mod_cast hfraction
      omega
    rw [kept_of_le hfraction hle hn, hvalue, FloatText.FractionKept, Nat.sub_eq_zero_of_le hle,
      pow_zero, pow_zero,
      Int.tdiv_one, Nat.div_one, ← wrap64, wrap64_eq (by omega) (by omega)]
    exact iff_of_true rfl rfl
  · have hsplit : 10 ^ t.fraction.length = 10 ^ n * 10 ^ (t.fraction.length - n) := by
      rw [← pow_add, Nat.add_sub_cancel' (by omega)]
    have hvalue : decimal t.fraction * 10 ^ n / 10 ^ t.fraction.length =
        decimal t.fraction / 10 ^ (t.fraction.length - n) := by
      rw [hsplit, ← Nat.div_div_eq_div_mul, Nat.mul_div_cancel _ (by positivity)]
    rw [hvalue, FloatText.FractionKept, FloatText.kept, if_neg (by omega)]
    rfl

end Fraction

/-! ## The value -/

theorem wrap64_emod (z : ℤ) : wrap64 z % 2 ^ 64 = z % 2 ^ 64 := by
  have hmod := Int.bmod_emod (x := z) (m := 2 ^ 64)
  exact_mod_cast hmod

theorem scaleWhole_eq {i : ℕ} (hi : i * 10 ^ n < 2 ^ 64) (hn : (10 : ℤ) ^ n < 2 ^ 31) :
    scaleWhole (wrap64 i) (10 ^ n) = wrap64 (i * 10 ^ n : ℕ) := by
  have hpos : (0 : ℤ) < 10 ^ n := by positivity
  have hcast : (i : ℤ) * 10 ^ n < 2 ^ 64 := by exact_mod_cast hi
  have hlow : 0 ≤ (i : ℤ) * 10 ^ n := by positivity
  have hproduct : wrap64 i * 10 ^ n % 2 ^ 64 = i * 10 ^ n := by
    rw [Int.mul_emod, wrap64_emod, ← Int.mul_emod, Int.emod_eq_of_lt hlow hcast]
  rw [scaleWhole, hproduct, Int.emod_eq_of_lt hpos.le (by omega), Int.mul_ediv_cancel _ hpos.ne']
  push_cast
  rfl

/-- The whole part with a negative `multi`. -/
theorem scaleWhole_neg {i : ℤ} (hlow : 1 ≤ i) (hhigh : i ≤ 9) (hM : -2 ^ 31 < M) (hM' : M < 0) :
    scaleWhole i M = if i = 1 then M else 0 := by
  have hmulti : M % 2 ^ 64 = M + 2 ^ 64 := by omega
  have hbound : -9 * 2 ^ 31 < i * M := by nlinarith
  have hneg : i * M < 0 := by nlinarith
  have hproduct : i * M % 2 ^ 64 = i * M + 2 ^ 64 := by omega
  rw [scaleWhole, hmulti, hproduct]
  split_ifs with hone
  · rw [hone, one_mul, Int.ediv_self (by omega), one_mul, wrap64_eq (by omega) (by omega)]
  · have hless : i * M ≤ 2 * M := by nlinarith [show 2 ≤ i by omega]
    rw [Int.ediv_eq_zero_of_lt (by omega) (by omega), zero_mul, wrap64_eq (by norm_num) (by norm_num)]

section Value
variable (hs : ReadLow s t) (hlength : t.fraction.length < 2 ^ 31)
    (hfraction : decimal t.fraction < 10 ^ t.fraction.length)
include hs hlength hfraction

theorem fraction_kept (hn : (10 : ℤ) ^ n < 2 ^ 31) :
    (if s.dv = 0 then 0 else scaleFraction s.dv s.dvB n) = t.kept n := by
  rw [hs.dv, hs.dvB hlength, scaleFraction_eq hfraction hn]
  split_ifs with hzero
  · rw [FloatText.kept, hzero, Int.zero_tdiv]
    split_ifs with hlt
    · have hdec : decimal t.fraction = 0 := by
        have hcast : (decimal t.fraction : ℤ) < 10 ^ n := by
          have hpow : (10 : ℤ) ^ t.fraction.length ≤ 10 ^ n := pow_le_pow_right₀ (by decide) hlt.le
          have hlow : (decimal t.fraction : ℤ) < 10 ^ t.fraction.length := by exact_mod_cast hfraction
          omega
        rw [wrap64_eq (by omega) (by omega)] at hzero
        exact_mod_cast hzero
      rw [hdec, Nat.zero_mul, Nat.cast_zero]
    · rfl
  · rfl

theorem floatValue_pow (hn : (10 : ℤ) ^ n < 2 ^ 31) :
    floatValue s (10 ^ n) = some (wrap64 (scaleWhole (wrap64 (decimal t.whole)) (10 ^ n) + t.kept n)) := by
  have hpos : (0 : ℤ) < 10 ^ n := by positivity
  have hnines : (wrap32 (10 ^ n - 1)).toNat = 10 ^ n - 1 := by
    have hcast : (10 : ℤ) ^ n = ((10 ^ n : ℕ) : ℤ) := by push_cast; rfl
    rw [wrap32_eq (by omega) (by omega)]
    omega
  rw [floatValue, hnines, nines_pow, Option.map_some, fraction_kept hs hlength hfraction hn, hs.iv]

theorem floatValue_neg (hM : -2 ^ 31 < M) (hM' : M < 0) (hlow : 1 ≤ s.iv) (hhigh : s.iv ≤ 9) :
    floatValue s M = some (if s.iv = 1 then M else 0) := by
  have hnines : (wrap32 (M - 1)).toNat = 10 ^ 0 - 1 := by
    rw [wrap32_eq (by omega) (by omega)]
    omega
  have hkept : t.kept 0 = 0 := by
    have hbounds := kept_lt (n := 0) hfraction (by norm_num)
    omega
  have hzero := fraction_kept (n := 0) hs hlength hfraction (by norm_num)
  rw [Nat.cast_zero] at hzero
  rw [floatValue, hnines, nines_pow, Option.map_some, Nat.cast_zero, hzero, hkept, add_zero,
    scaleWhole_neg hlow hhigh hM hM']
  split_ifs with hone
  · rw [wrap64_eq (by omega) (by omega)]
  · rw [wrap64_eq (by norm_num) (by norm_num)]

end Value

/-! ## The exponent -/

section Exponent
variable (hs : ReadLow s t)
include hs

theorem ev_zero_iff : s.ev = 0 ↔ t.lowExponent = 0 := by
  have hcases := wrap64_cases (decimal t.exponent)
  rw [hs.ev, FloatText.lowExponent]
  omega

theorem ev_eq (hexp : t.lowExponent ≤ 18) : s.ev = t.lowExponent := by
  have hcases := wrap64_cases (decimal t.exponent)
  rw [FloatText.lowExponent] at hexp ⊢
  rw [hs.ev]
  omega

theorem ev_large_iff : 18 < s.ev ↔ 18 < t.lowExponent ∧ t.lowExponent < 2 ^ 63 := by
  have hcases := wrap64_cases (decimal t.exponent)
  rw [hs.ev, FloatText.lowExponent]
  omega

theorem iv_bad_iff : s.iv < 1 ∨ 9 < s.iv ↔ t.lowWhole < 1 ∨ 9 < t.lowWhole := by
  have hcases := wrap64_cases (decimal t.whole)
  rw [hs.iv, FloatText.lowWhole]
  omega

theorem iv_eq (hlow : 1 ≤ t.lowWhole) (hhigh : t.lowWhole ≤ 9) : s.iv = t.lowWhole := by
  have hcases := wrap64_cases (decimal t.whole)
  rw [FloatText.lowWhole] at hlow hhigh ⊢
  rw [hs.iv]
  omega

variable (hm : (10 : ℤ) ^ m < 2 ^ 31)
include hm

theorem turnedDown_none (hdigits : t.digits ≠ []) (h : t.TurnedDown m) :
    (s.eIsreg = true ∧ s.ev = 0) ∨ (scaleMulti s (10 ^ m)).bind (floatValue s) = none := by
  have hm' := le_nine hm
  cases h with
  | noDigit hnil => exact absurd hnil hdigits
  | minusZero hneg hzero => exact .inl ⟨hs.eIsreg.trans hneg, (ev_zero_iff hs).mpr hzero⟩
  | mantissa hexp hwhole =>
    rw [scaleMulti, if_neg (mt (ev_zero_iff hs).mp hexp), if_pos ((iv_bad_iff hs).mpr hwhole)]
    exact .inr rfl
  | large hexp hpos =>
    have hev := (ev_large_iff hs).mpr ⟨hexp, hpos⟩
    rw [scaleMulti, if_neg (by omega), if_pos hev, ite_self]
    exact .inr rfl
  | divided hexp hneg hlt hodd =>
    right
    have hev := ev_eq hs hexp
    have hquotient := quotient_table m (by omega) t.lowExponent (by omega) hlt
    rw [if_neg hodd] at hquotient
    rw [scaleMulti, hev, Int.toNat_natCast, hquotient, if_neg (by omega)]
    by_cases hbad : s.iv < 1 ∨ 9 < s.iv
    · rw [if_pos hbad]
      rfl
    · rw [if_neg hbad, if_neg (by omega), hs.eIsreg, hneg, if_pos rfl]
      by_cases hthree : m = 9 ∧ t.lowExponent = 14
      · have htwo : (wrap32 (3 - 1)).toNat = 2 := by decide
        have hnines : nines (wrap32 (3 - 1)).toNat = none := by
          rw [htwo, nines, dif_neg (by decide), if_pos (by decide)]
        rw [if_pos hthree, if_neg (by decide), Option.bind_some, floatValue, hnines]
        rfl
      · rw [if_neg hthree, if_pos rfl]
        rfl
  | multiplied hexp hneg hlarge hbit =>
    right
    have hev := ev_eq hs hexp
    have hne : t.lowExponent ≠ 0 := by
      intro hzero
      rw [hzero, Nat.add_zero] at hlarge
      have hcast : (2 : ℤ) ^ 31 ≤ 10 ^ m := by exact_mod_cast hlarge
      omega
    obtain ⟨-, hdigits, hten⟩ := (product_table (m + t.lowExponent) (by omega) hlarge).1 hbit
    have hproduct : wrap32 (10 ^ m * eMulti t.lowExponent) = wrap32 (10 ^ (m + t.lowExponent)) := by
      rw [eMulti_wrap, wrap32, wrap32, Int.mul_bmod_bmod, ← pow_add, wrap32]
    rw [scaleMulti, hev, Int.toNat_natCast, hproduct, if_neg (by exact_mod_cast hne), hs.eIsreg,
      hneg, if_neg (by omega : ¬(18 : ℤ) < _),
      if_neg Bool.false_ne_true]
    split_ifs with hbad
    · rfl
    · rw [Option.bind_some, floatValue, nines_none hten hdigits]
      rfl

/-- `multi` stays a power of ten. -/
structure Regular (t : FloatText) (m n : ℕ) : Prop where
  fits : (10 : ℤ) ^ n < 2 ^ 31
  mantissa : t.negExp = true → 1 ≤ t.lowWhole ∧ t.lowWhole ≤ 9
  divided : t.negExp = true → t.lowExponent ≤ 18 → t.lowExponent ≤ m
  power : decimal t.exponent < 2 ^ 63 → (m : ℤ) + t.power = n

/-- `multi` turns negative. -/
structure Lost (t : FloatText) (m : ℕ) (M : ℤ) : Prop where
  low : -2 ^ 31 < M
  neg : M < 0
  mantissa : 1 ≤ t.lowWhole ∧ t.lowWhole ≤ 9
  reason : (t.negExp = false ∧ t.lowExponent ≤ 18 ∧ 2 ^ 31 ≤ 10 ^ (m + t.lowExponent)) ∨
    (t.negExp = true ∧ M = -1 ∧ m = 9 ∧ t.lowExponent = 12)

theorem scaleMulti_taken (h : ¬t.TurnedDown m) : ¬(s.eIsreg = true ∧ s.ev = 0) ∧
    ((∃ n, scaleMulti s (10 ^ m) = some (10 ^ n) ∧ Regular t m n) ∨
      ∃ M, scaleMulti s (10 ^ m) = some M ∧ Lost t m M) := by
  have hm' := le_nine hm
  have hpower : ∀ n : ℕ, (t.negExp = true → (n : ℤ) = m - decimal t.exponent) →
      (t.negExp = false → (n : ℤ) = m + decimal t.exponent) →
      (m : ℤ) + t.power = n := by
    intro n hsub hadd
    rw [FloatText.power, signed]
    cases hneg : t.negExp with
    | true =>
      rw [if_pos rfl, hsub hneg]
      ring
    | false => rw [if_neg Bool.false_ne_true, hadd hneg]
  have hsmall : decimal t.exponent < 2 ^ 63 → decimal t.exponent = t.lowExponent := fun hlt =>
    (Nat.mod_eq_of_lt (by omega)).symm
  refine ⟨fun hbad => h (.minusZero (hs.eIsreg.symm.trans hbad.1) ((ev_zero_iff hs).mp hbad.2)), ?_⟩
  by_cases hzero : t.lowExponent = 0
  · -- no exponent, or one that 64 bits lose
    have hneg : t.negExp = false := eq_false_of_ne_true fun hneg => h (.minusZero hneg hzero)
    refine .inl ⟨m,
      by rw [scaleMulti,
      if_pos ((ev_zero_iff hs).mpr hzero)], hm, ?_, ?_, fun hlt => hpower m ?_ ?_⟩
    · exact fun hneg' => absurd (hneg'.symm.trans hneg) (by decide)
    · exact fun _ _ => by omega
    · exact fun hneg' => absurd (hneg'.symm.trans hneg) (by decide)
    · intro _
      rw [hsmall hlt, hzero, Nat.cast_zero, add_zero]
  · have hmantissa : ¬(t.lowWhole < 1 ∨ 9 < t.lowWhole) := fun hbad => h (.mantissa hzero hbad)
    have hwhole : 1 ≤ t.lowWhole ∧ t.lowWhole ≤ 9 := by omega
    have hlarge : ¬(18 < t.lowExponent ∧ t.lowExponent < 2 ^ 63) := fun hbad => h (.large hbad.1 hbad.2)
    rw [scaleMulti, if_neg (mt (ev_zero_iff hs).mp hzero), if_neg (mt (iv_bad_iff hs).mp hmantissa),
      if_neg (mt (ev_large_iff hs).mp hlarge), hs.eIsreg]
    by_cases hexp : t.lowExponent ≤ 18
    · rw [ev_eq hs hexp, Int.toNat_natCast]
      cases hneg : t.negExp with
      | true =>
        rw [if_pos rfl]
        by_cases hle : t.lowExponent ≤ m
        · have hfit : (10 : ℤ) ^ t.lowExponent < 2 ^ 31 :=
            lt_of_le_of_lt (pow_le_pow_right₀ (by decide) hle) hm
          have hquotient : ((10 : ℤ) ^ m).tdiv (10 ^ t.lowExponent) = 10 ^ (m - t.lowExponent) := by
            rw [← Nat.sub_add_cancel hle, pow_add, Nat.add_sub_cancel]
            exact Int.mul_tdiv_cancel _ (by positivity)
          have hne : (10 : ℤ) ^ (m - t.lowExponent) ≠ 0 := by positivity
          rw [eMulti_eq hfit, hquotient, if_neg hne]
          refine .inl ⟨m - t.lowExponent, rfl, ?_, fun _ => hwhole, fun _ _ => hle,
            fun hlt => hpower _ (fun _ => ?_) ?_⟩
          · exact lt_of_le_of_lt (pow_le_pow_right₀ (by decide) (Nat.sub_le _ _)) hm
          · rw [hsmall hlt]
            omega
          · exact fun hpos => absurd (hneg.symm.trans hpos) (by decide)
        · have hodd : m = 9 ∧ t.lowExponent = 12 := by
            by_contra hodd
            exact h (.divided hexp hneg (by omega) hodd)
          have hquotient := quotient_table m (by omega) t.lowExponent (by omega) (by omega)
          rw [if_pos hodd] at hquotient
          rw [hquotient, if_neg (by decide)]
          exact .inr ⟨-1, rfl, by norm_num, by norm_num, hwhole, .inr ⟨hneg, rfl, hodd⟩⟩
      | false =>
        have hproduct : wrap32 (10 ^ m * eMulti t.lowExponent) = wrap32 (10 ^ (m + t.lowExponent)) := by
          rw [eMulti_wrap, wrap32, wrap32, Int.mul_bmod_bmod, ← pow_add, wrap32]
        rw [if_neg Bool.false_ne_true, hproduct]
        by_cases hfit : 10 ^ (m + t.lowExponent) < 2 ^ 31
        · have hcast : (10 : ℤ) ^ (m + t.lowExponent) < 2 ^ 31 := by exact_mod_cast hfit
          have hpos : (0 : ℤ) < 10 ^ (m + t.lowExponent) := by positivity
          rw [wrap32_eq (by omega) hcast]
          refine .inl ⟨m + t.lowExponent, rfl, hcast, ?_, ?_, fun hlt => hpower _ ?_ fun _ => ?_⟩
          · exact fun hneg' => absurd (hneg'.symm.trans hneg) (by decide)
          · exact fun hneg' => absurd (hneg'.symm.trans hneg) (by decide)
          · exact fun hneg' => absurd (hneg'.symm.trans hneg) (by decide)
          · rw [hsmall hlt, Nat.cast_add]
        · have hbit : ¬10 ^ (m + t.lowExponent) % 2 ^ 32 < 2 ^ 31 := fun hbit =>
            h (.multiplied hexp hneg (by omega) hbit)
          obtain ⟨hlow, hhigh⟩ := (product_table (m + t.lowExponent) (by omega) (by omega)).2 (by omega)
          exact .inr ⟨_, rfl, hlow, hhigh, hwhole, .inl ⟨hneg, hexp, by omega⟩⟩
    · -- an exponent that is negative in 64 bits leaves `multi` as it is
      have hnat : s.ev.toNat = 0 := by
        have hev := mt (ev_large_iff hs).mp hlarge
        have hcases := wrap64_cases (decimal t.exponent)
        rw [hs.ev] at hev ⊢
        rw [FloatText.lowExponent] at hexp hlarge
        omega
      have hlost : ¬decimal t.exponent < 2 ^ 63 := by
        intro hlt
        have heq := hsmall hlt
        omega
      have hpos : (10 : ℤ) ^ m ≠ 0 := by positivity
      have hone : wrap32 (10 ^ m * 1) = 10 ^ m := by
        have hlow : (0 : ℤ) < 10 ^ m := by positivity
        rw [mul_one, wrap32_eq (by omega) hm]
      rw [hnat, eMulti, Int.tdiv_one, if_neg hpos, hone, ite_self]
      exact .inl ⟨m, rfl, hm, fun _ => hwhole, fun _ hle => absurd hle hexp, fun hlt => absurd hlt hlost⟩

end Exponent

/-! ## What should be stored -/

section Scaled

theorem scaled_eq (hpower : (m : ℤ) + t.power = n) :
    t.scaled m = decimal t.whole * 10 ^ n + decimal t.fraction * 10 ^ n / 10 ^ t.fraction.length := by
  have hten : (10 : ℚ) ^ t.power * 10 ^ m = 10 ^ n := by
    rw [← zpow_natCast (10 : ℚ) m, ← zpow_natCast (10 : ℚ) n, ← zpow_add₀ (by norm_num), add_comm, hpower]
  have hratio : t.value * ((10 ^ m : ℤ) : ℚ) =
      ((10 ^ t.fraction.length * (decimal t.whole * 10 ^ n) + decimal t.fraction * 10 ^ n : ℕ) : ℚ) /
        ((10 ^ t.fraction.length : ℕ) : ℚ) := by
    rw [FloatText.value]
    push_cast
    rw [mul_assoc, hten]
    field_simp
  rw [FloatText.scaled, hratio, Nat.floor_div_eq_div, Nat.mul_add_div (by positivity)]

theorem scaled_of_zero (hwhole : decimal t.whole = 0) (hfraction : decimal t.fraction = 0) :
    t.scaled m = 0 := by
  rw [FloatText.scaled, FloatText.value, hwhole, hfraction]
  simp

theorem scaled_of_small (hneg : t.negExp = true) (hwhole : decimal t.whole < 10 ^ t.whole.length)
    (hfraction : decimal t.fraction < 10 ^ t.fraction.length)
    (hexp : t.whole.length + m ≤ decimal t.exponent) :
    t.scaled m = 0 := by
  have hpart : (decimal t.whole : ℚ) + decimal t.fraction / 10 ^ t.fraction.length < 10 ^ t.whole.length := by
    have hless : (decimal t.fraction : ℚ) / 10 ^ t.fraction.length < 1 := by
      rw [div_lt_one (by positivity)]
      exact_mod_cast hfraction
    have hstep : (decimal t.whole : ℚ) + 1 ≤ 10 ^ t.whole.length := by exact_mod_cast hwhole
    linarith
  have hpow : (10 : ℚ) ^ (t.whole.length + m) ≤ 10 ^ decimal t.exponent :=
    pow_le_pow_right₀ (by norm_num) hexp
  rw [FloatText.scaled, Nat.floor_eq_zero, FloatText.value, FloatText.power, hneg, signed,
    if_pos rfl, zpow_neg, zpow_natCast]
  push_cast
  rw [mul_assoc, ← div_eq_inv_mul, ← mul_div_assoc, div_lt_one (by positivity)]
  calc ((decimal t.whole : ℚ) + decimal t.fraction / 10 ^ t.fraction.length) * 10 ^ m
      < 10 ^ t.whole.length * 10 ^ m := mul_lt_mul_of_pos_right hpart (by positivity)
    _ = 10 ^ (t.whole.length + m) := (pow_add ..).symm
    _ ≤ 10 ^ decimal t.exponent := hpow

theorem le_scaled (hneg : t.negExp = false) {j : ℕ}
    (h : (10 : ℚ) ^ j ≤
      (decimal t.whole + decimal t.fraction / 10 ^ t.fraction.length) * 10 ^ decimal t.exponent) :
    10 ^ j ≤ t.scaled m := by
  rw [FloatText.scaled, FloatText.value, FloatText.power, hneg, signed,
    if_neg Bool.false_ne_true, zpow_natCast]
  apply Nat.le_floor
  push_cast
  refine h.trans (le_mul_of_one_le_right (by positivity) ?_)
  exact one_le_pow₀ (by norm_num)

theorem scaled_pos (hneg : t.negExp = false) (hwhole : 1 ≤ decimal t.whole) : 1 ≤ t.scaled m := by
  have hle : 10 ^ 0 ≤ t.scaled m := by
    apply le_scaled hneg
    have hcast : (1 : ℚ) ≤ decimal t.whole := by exact_mod_cast hwhole
    have hfraction : (0 : ℚ) ≤ decimal t.fraction / 10 ^ t.fraction.length := by positivity
    have hexp : (1 : ℚ) ≤ 10 ^ decimal t.exponent := one_le_pow₀ (by norm_num)
    rw [pow_zero]
    nlinarith
  exact hle

theorem scaled_large (hneg : t.negExp = false) (hne : ¬(decimal t.whole = 0 ∧ decimal t.fraction = 0))
    (hexp : t.fraction.length + 19 ≤ decimal t.exponent) : 10 ^ 19 ≤ t.scaled m := by
  apply le_scaled hneg
  have hpart : (1 : ℚ) ≤
      (decimal t.whole + decimal t.fraction / 10 ^ t.fraction.length) * 10 ^ t.fraction.length := by
    have hpow : (0 : ℚ) < 10 ^ t.fraction.length := by positivity
    rw [add_mul, div_mul_cancel₀ _ hpow.ne']
    have hnat : 1 ≤ decimal t.whole * 10 ^ t.fraction.length + decimal t.fraction := by
      have hpow' : 0 < 10 ^ t.fraction.length := by positivity
      rcases Nat.eq_zero_or_pos (decimal t.whole) with hzero | hpos
      · omega
      · have hprod := Nat.mul_pos hpos hpow'
        omega
    exact_mod_cast hnat
  calc (10 : ℚ) ^ 19 ≤ 10 ^ (decimal t.exponent - t.fraction.length) :=
    pow_le_pow_right₀ (by norm_num) (by omega)
    _ ≤ (decimal t.whole + decimal t.fraction / 10 ^ t.fraction.length) * 10 ^ t.fraction.length *
        10 ^ (decimal t.exponent - t.fraction.length) := le_mul_of_one_le_left (by positivity) hpart
    _ = (decimal t.whole + decimal t.fraction / 10 ^ t.fraction.length) * 10 ^ decimal t.exponent := by
      rw [mul_assoc, ← pow_add, Nat.add_sub_cancel' (by omega)]

end Scaled

/-! ## What is stored -/

def stored (neg : Bool) (v : ℤ) : ℤ := if neg then wrap64 (-v) else v

theorem stored_wrap64 (neg : Bool) (z : ℤ) : stored neg (wrap64 z) = wrap64 (if neg then -z else z) := by
  cases neg with
  | true => exact wrap64_neg z
  | false => rfl

theorem stored_fits (neg : Bool) (z : ℤ) : FitsInt64 (stored neg (wrap64 z)) := by
  rw [stored_wrap64]
  exact wrap64_bounds _

section Stored
variable {neg : Bool} (hfraction : decimal t.fraction < 10 ^ t.fraction.length)
include hfraction

/-- The value with `multi` a power of ten. -/
theorem stored_regular_of_exact (hreg : Regular t m n) (h : t.Exact m neg) :
    stored neg (wrap64 (scaleWhole (wrap64 (decimal t.whole)) (10 ^ n) + t.kept n)) =
      signed neg (t.scaled m) := by
  cases h with
  | fits n' hexp hpower hn hresult hkept =>
    obtain rfl : n' = n := by
      have hsame := hreg.power hexp
      omega
    have hscaled := scaled_eq hpower
    have hbound : t.scaled m ≤ 2 ^ 63 := by
      obtain ⟨hlow, hhigh⟩ := hresult
      cases neg <;> simp only [signed, Bool.false_eq_true, if_false, if_true] at hlow hhigh <;> omega
    have hwhole : decimal t.whole * 10 ^ n' ≤ t.scaled m := hscaled ▸ Nat.le_add_right _ _
    rw [scaleWhole_eq (by omega) hn, wrap64_add_left, (fractionKept_iff hfraction hn).mp hkept,
      ← Nat.cast_add, ← hscaled,
      stored_wrap64]
    exact wrap64_eq hresult.1 hresult.2
  | zero hwhole hdec =>
    have hkept : t.kept n = 0 := by
      rw [FloatText.kept, hdec, Nat.zero_mul, Nat.cast_zero, wrap64_eq (by norm_num) (by norm_num),
        Int.zero_tdiv, ite_self]
    rw [scaled_of_zero hwhole hdec, hwhole,
      scaleWhole_eq (by rw [Nat.zero_mul]; norm_num) hreg.fits, Nat.zero_mul, hkept,
      Nat.cast_zero, wrap64_add_left, add_zero, stored_wrap64]
    cases neg <;> decide
  | cut hm hexp hneg hwhole hzero =>
    have hle := hreg.divided hneg (by omega)
    omega

theorem exact_of_stored_regular (hreg : Regular t m n) (hlength : t.fraction.length < 2 ^ 31)
    (hwhole : decimal t.whole < 10 ^ t.whole.length)
    (hlong : 2 ^ 63 ≤ decimal t.exponent → t.whole.length + m ≤ 2 ^ 63)
    (h : stored neg (wrap64 (scaleWhole (wrap64 (decimal t.whole)) (10 ^ n) + t.kept n)) =
      signed neg (t.scaled m)) :
    t.Exact m neg := by
  have hresult : FitsInt64 (signed neg (t.scaled m)) := h ▸ stored_fits neg _
  have hbound : t.scaled m ≤ 2 ^ 63 := by
    obtain ⟨hlow, hhigh⟩ := hresult
    cases neg <;> simp only [signed, Bool.false_eq_true, if_false, if_true] at hlow hhigh <;> omega
  have hpos : (0 : ℤ) < 10 ^ n := by positivity
  obtain ⟨hlow, hhigh⟩ := kept_lt hfraction hreg.fits
  have hn := hreg.fits
  by_cases hexp : decimal t.exponent < 2 ^ 63
  · have hpower := hreg.power hexp
    have hscaled := scaled_eq hpower
    refine .fits n hexp hpower hn hresult ((fractionKept_iff hfraction hn).mpr ?_)
    have hfirst : decimal t.fraction * 10 ^ n / 10 ^ t.fraction.length < 10 ^ n := by
      apply Nat.div_lt_of_lt_mul
      exact Nat.mul_lt_mul_of_pos_right hfraction (by positivity)
    have hfirst' : ((decimal t.fraction * 10 ^ n / 10 ^ t.fraction.length : ℕ) : ℤ) < 10 ^ n := by
      exact_mod_cast hfirst
    have hwhole' : decimal t.whole * 10 ^ n ≤ t.scaled m := hscaled ▸ Nat.le_add_right _ _
    rw [scaleWhole_eq (by omega) hn, wrap64_add_left, stored_wrap64] at h
    generalize decimal t.whole * 10 ^ n = P at *
    generalize decimal t.fraction * 10 ^ n / 10 ^ t.fraction.length = Q at *
    obtain ⟨q, hq⟩ := wrap64_dvd (if neg then -(P + t.kept n) else (P + t.kept n))
    rw [h, hscaled] at hq
    cases neg <;> simp only [signed, Bool.false_eq_true, if_false, if_true] at hq <;> omega
  · cases hneg : t.negExp with
    | false =>
      by_cases hzero : decimal t.whole = 0 ∧ decimal t.fraction = 0
      · exact .zero hzero.1 hzero.2
      · have hlarge := scaled_large (m := m) hneg hzero (by omega)
        omega
    | true =>
      -- the number is cut to 0, and a mantissa from 1 to 9 is stored
      have hzero := scaled_of_small hneg hwhole hfraction ((hlong (by omega)).trans (by omega))
      obtain ⟨hone, hnine⟩ := hreg.mantissa hneg
      have hiv : wrap64 (decimal t.whole) = wrap64 (t.lowWhole : ℕ) := (wrap64_mod (decimal t.whole)).symm
      have hnat : 10 ^ n < 2 ^ 31 := by exact_mod_cast hn
      have hproduct : t.lowWhole * 10 ^ n ≤ 9 * 10 ^ n := Nat.mul_le_mul_right _ hnine
      have hproduct' : 1 * 10 ^ n ≤ t.lowWhole * 10 ^ n := Nat.mul_le_mul_right _ hone
      have hcast : ((10 ^ n : ℕ) : ℤ) = 10 ^ n := by push_cast; rfl
      rw [hiv, scaleWhole_eq (by omega) hn, wrap64_add_left, hzero, stored_wrap64] at h
      obtain ⟨q, hq⟩ :=
        wrap64_dvd (if neg then -((t.lowWhole * 10 ^ n : ℕ) + t.kept n)
          else ((t.lowWhole * 10 ^ n : ℕ) + t.kept n))
      rw [h] at hq
      cases neg <;> simp only [signed, Bool.false_eq_true, if_false, if_true] at hq <;> omega

end Stored

section StoredLost
variable {neg : Bool} {i : ℤ} (hlost : Lost t m M) (hi : i = t.lowWhole)
include hlost hi

/-- The value with a negative `multi`. -/
theorem stored_lost_of_exact (h : t.Exact m neg) :
    stored neg (if i = 1 then M else 0) = signed neg (t.scaled m) := by
  obtain ⟨hone, hnine⟩ := hlost.mantissa
  cases h with
  | fits n hexp hpower hn _ _ =>
    have hlow : t.lowExponent = decimal t.exponent := Nat.mod_eq_of_lt (by omega)
    rcases hlost.reason with ⟨hneg, -, hlarge⟩ | ⟨hneg, -, hm, htwelve⟩
    · rw [FloatText.power, hneg, signed, if_neg Bool.false_ne_true, ← hlow] at hpower
      have heq : m + t.lowExponent = n := by exact_mod_cast hpower
      rw [heq] at hlarge
      have hcast : (2 : ℤ) ^ 31 ≤ 10 ^ n := by exact_mod_cast hlarge
      omega
    · rw [FloatText.power, hneg, signed, if_pos rfl, ← hlow, htwelve, hm] at hpower
      omega
  | zero hwhole _ =>
    rw [FloatText.lowWhole, hwhole] at hone
    omega
  | cut _ _ _ hwhole hzero =>
    rw [if_neg (by omega), hzero]
    cases neg <;> decide

theorem exact_of_stored_lost (h : stored neg (if i = 1 then M else 0) = signed neg (t.scaled m)) :
    t.Exact m neg := by
  obtain ⟨hone, hnine⟩ := hlost.mantissa
  have hlow := hlost.low
  have hM := hlost.neg
  have hneg64 : wrap64 (-M) = -M := wrap64_eq (by omega) (by omega)
  have hzero64 : wrap64 (-0) = 0 := by decide
  rcases hlost.reason with ⟨hneg, -, -⟩ | ⟨hneg, -, hm, htwelve⟩
  · have hwhole : 1 ≤ decimal t.whole := hone.trans (Nat.mod_le _ _)
    have hpos := scaled_pos (m := m) hneg hwhole
    split_ifs at h <;> cases neg <;>
      simp only [stored, signed, Bool.false_eq_true, if_false, if_true, hneg64, hzero64] at h <;> omega
  · refine .cut hm htwelve hneg (fun heq => ?_) ?_
    · rw [if_pos (by omega)] at h
      cases neg <;> simp only [stored, signed, Bool.false_eq_true, if_false, if_true, hneg64] at h <;> omega
    · split_ifs at h <;> cases neg <;>
        simp only [stored, signed, Bool.false_eq_true, if_false, if_true, hneg64, hzero64] at h <;> omega

end StoredLost

/-! ## What is returned -/

section Returned
variable {buf : List UInt8} {l multi : ℤ}

theorem str2float_eq (hl : l ≠ 0) (hmulti : 1 ≤ multi) : str2float buf l multi =
    if buf.getD 0 0 = minusSign ∧ digitsOf buf l = [] then (eINVAL, none)
    else
      match floatLoop (digitsOf buf l) floatStart with
      | none => (eINVAL, none)
      | some s =>
          if s.eIsreg = true ∧ s.ev = 0 then (eINVAL, none)
          else
            match (scaleMulti s multi).bind (floatValue s) with
            | none => (eINVAL, none)
            | some v => (if s.ll = 0 then eINVAL else if buf.getD 0 0 = minusSign then 1 else 0,
                some (if buf.getD 0 0 = minusSign then wrap64 (-v) else v)) := by
  rw [str2float, if_neg (by omega)]
  rfl

theorem str2float_none (h : floatParts .iv (digitsOf buf l) = none) : (str2float buf l multi).1 = eINVAL := by
  by_cases hstart : l = 0 ∨ multi < 1
  · rw [str2float, if_pos hstart]
  · rw [str2float_eq (by omega) (by omega), floatLoop_none h]
    split_ifs <;> rfl

theorem ne_zero_of_digits (h : floatParts .iv (digitsOf buf l) = some t) (hdigits : t.digits ≠ []) :
    l ≠ 0 ∧ digitsOf buf l ≠ [] := by
  have hne : digitsOf buf l ≠ [] := by
    intro hnil
    rw [hnil, floatParts, Option.some_inj] at h
    subst h
    exact hdigits rfl
  refine ⟨?_, hne⟩
  rintro rfl
  apply hne
  rw [digitsOf]
  split_ifs <;> rfl

variable (hm : (10 : ℤ) ^ m < 2 ^ 31)
include hm

theorem str2float_turnedDown (h : floatParts .iv (digitsOf buf l) = some t) (hdown : t.TurnedDown m) :
    (str2float buf l (10 ^ m)).1 = eINVAL := by
  by_cases hl : l = 0
  · rw [str2float, if_pos (Or.inl hl)]
  · obtain ⟨s, hloop, hs⟩ := floatLoop_some h
    have hpos : (0 : ℤ) < 10 ^ m := by positivity
    rw [str2float_eq hl (by omega), hloop]
    by_cases hdigits : t.digits = []
    · have hll : s.ll = 0 := by rw [hs.ll, hdigits, List.length_nil]
      simp only [hll, if_true]
      split_ifs <;> first | rfl | split <;> rfl
    · rcases turnedDown_none hs hm hdigits hdown with hbad | hnone
      · simp only [if_pos hbad]
        split_ifs <;> rfl
      · simp only [hnone]
        split_ifs <;> rfl

/-- What is not turned down is stored. -/
theorem str2float_taken (h : floatParts .iv (digitsOf buf l) = some t) (hnot : ¬t.TurnedDown m) :
    ∃ s, ReadLow s t ∧ ∀ v, (scaleMulti s (10 ^ m)).bind (floatValue s) = some v →
      str2float buf l (10 ^ m) =
        (if buf.getD 0 0 = minusSign then 1 else 0, some (stored (decide (buf.getD 0 0 = minusSign)) v)) := by
  have hdigits : t.digits ≠ [] := fun hnil => hnot (.noDigit hnil)
  obtain ⟨hl, hne⟩ := ne_zero_of_digits h hdigits
  obtain ⟨s, hloop, hs⟩ := floatLoop_some h
  have hpos : (0 : ℤ) < 10 ^ m := by positivity
  have hll : s.ll ≠ 0 := by
    rw [hs.ll]
    exact fun hlen => hdigits (List.length_eq_zero_iff.mp hlen)
  refine ⟨s, hs, fun v hv => ?_⟩
  rw [str2float_eq hl (by omega), if_neg (fun hbad => hne hbad.2), hloop]
  simp only [if_neg (scaleMulti_taken hs hm hnot).1, hv, if_neg hll]
  by_cases hminus : buf.getD 0 0 = minusSign
  · rw [if_pos hminus, if_pos hminus, decide_eq_true hminus]
    rfl
  · rw [if_neg hminus, if_neg hminus, decide_eq_false hminus]
    rfl

/-- The right value is stored exactly where the condition says so, if the fraction is no longer than
an int counts. -/
theorem str2float_exact {neg : Bool} (h : floatParts .iv (digitsOf buf l) = some t) (hnot : ¬t.TurnedDown m)
    (hneg : neg = decide (buf.getD 0 0 = minusSign)) (hlength : t.fraction.length < 2 ^ 31) :
    ((str2float buf l (10 ^ m)).1 = 0 ∨ (str2float buf l (10 ^ m)).1 = 1) ∧
      (t.Exact m neg → (str2float buf l (10 ^ m)).2 = some (signed neg (t.scaled m))) ∧
      ((2 ^ 63 ≤ decimal t.exponent → t.whole.length + m ≤ 2 ^ 63) →
        (str2float buf l (10 ^ m)).2 = some (signed neg (t.scaled m)) → t.Exact m neg) := by
  have hdigits := floatParts_isDigit .iv _ t h
  simp only [FloatText.digits, List.mem_append] at hdigits
  have hwhole := decimal_lt fun d hd => hdigits d (.inl (.inl hd))
  have hfraction := decimal_lt fun d hd => hdigits d (.inl (.inr hd))
  obtain ⟨s, hs, hstored⟩ := str2float_taken hm h hnot
  rw [← hneg] at hstored
  have hcode : (if buf.getD 0 0 = minusSign then (1 : ℤ) else 0) = 0 ∨
      (if buf.getD 0 0 = minusSign then (1 : ℤ) else 0) = 1 := by
    split_ifs
    · exact .inr rfl
    · exact .inl rfl
  rcases (scaleMulti_taken hs hm hnot).2 with ⟨n, hmulti, hreg⟩ | ⟨M, hmulti, hlost⟩
  · have hvalue := hstored _ (by rw [hmulti, Option.bind_some, floatValue_pow hs hlength hfraction hreg.fits])
    rw [hvalue]
    refine ⟨hcode, fun hexact => ?_, fun hlong heq => ?_⟩
    · rw [stored_regular_of_exact hfraction hreg hexact]
    · exact exact_of_stored_regular hfraction hreg hlength hwhole hlong (Option.some_inj.mp heq)
  · have hiv := iv_eq hs hlost.mantissa.1 hlost.mantissa.2
    have hmantissa := hlost.mantissa
    have hvalue := hstored _ (by
      rw [hmulti, Option.bind_some,
        floatValue_neg hs hlength hfraction hlost.low hlost.neg (by omega) (by omega)])
    rw [hvalue]
    refine ⟨hcode, fun hexact => ?_, fun hlong heq => ?_⟩
    · rw [stored_lost_of_exact hlost hiv hexact]
    · exact exact_of_stored_lost hlost hiv (Option.some_inj.mp heq)

theorem right_of_holds (h : Str2floatHolds buf l m) : Str2floatRight buf l (10 ^ m) := by
  intro hret
  have herror : ¬(eINVAL = 0 ∨ eINVAL = 1) := by decide
  cases ht : floatParts .iv (digitsOf buf l) with
  | none =>
    rw [str2float_none ht] at hret
    exact absurd hret herror
  | some t =>
    by_cases hdown : t.TurnedDown m
    · rw [str2float_turnedDown hm ht hdown] at hret
      exact absurd hret herror
    · obtain ⟨whole, segs, hmarked, rfl⟩ := exists_marked ht
      obtain ⟨hplaced, hlength, hexact⟩ := (h whole segs hmarked).resolve_left hdown
      have hdigits : (floatText whole segs).digits ≠ [] := fun hnil => hdown (.noDigit hnil)
      have hform := isFloat_of_placed hmarked hplaced hdigits (decide (buf.getD 0 0 = minusSign))
      rw [← text_eq (ne_zero_of_digits ht hdigits).1] at hform
      exact ⟨_, _, hform, (str2float_exact hm ht hdown rfl hlength).2.1 hexact⟩

theorem holds_of_right (hcount : Counted buf l) (hsize : (text buf l).length < 2 ^ 63)
    (h : Str2floatRight buf l (10 ^ m)) :
    Str2floatHolds buf l m := by
  intro whole segs hmarked
  by_cases hdown : (floatText whole segs).TurnedDown m
  · exact .inl hdown
  · right
    have ht := hmarked.floatParts
    have hl := (ne_zero_of_digits ht fun hnil => hdown (.noDigit hnil)).1
    have hlengths : (floatText whole segs).digits.length ≤ (text buf l).length := by
      rw [text_eq hl, List.length_append]
      exact hmarked.length_le.trans (Nat.le_add_left _ _)
    simp only [FloatText.digits, List.length_append] at hlengths
    have hm' := le_nine hm
    have hlong : 2 ^ 63 ≤ decimal (floatText whole segs).exponent →
        (floatText whole segs).whole.length + m ≤ 2 ^ 63 := by
      intro hexp
      -- such an exponent has 19 digits
      have hdigits := hmarked.areDigits
      have hbound := decimal_lt fun d hd => hdigits d (List.mem_append_right _ hd)
      have hlong : 19 ≤ (floatText whole segs).exponent.length := by
        by_contra hlt
        have hpow : 10 ^ (floatText whole segs).exponent.length ≤ 10 ^ 18 :=
          Nat.pow_le_pow_right (by decide) (by omega)
        omega
      omega
    obtain ⟨hret, -, hexact⟩ := str2float_exact hm ht hdown rfl (hcount whole segs hmarked)
    obtain ⟨neg, u, hform, hvalue⟩ := h hret
    obtain ⟨-, rfl, hplaced, segs', hmarked', hu⟩ := marked_of_isFloat hform
    have hsame : u = floatText whole segs := by
      have hu' := hmarked'.floatParts
      rw [hu, ht] at hu'
      exact (Option.some_inj.mp hu').symm
    subst hsame
    exact ⟨hplaced, hcount whole segs hmarked, hexact hlong hvalue⟩

end Returned

/-- The condition is enough, and it is needed where an int counts the digits of the fraction. -/
theorem str2float_right (buf : List UInt8) (l : ℤ) (m : ℕ) (hm : (10 : ℤ) ^ m < 2 ^ 31) :
    (Str2floatHolds buf l m → Str2floatRight buf l (10 ^ m)) ∧
    (Counted buf l → (text buf l).length < 2 ^ 63 → Str2floatRight buf l (10 ^ m) → Str2floatHolds buf l m) :=
  ⟨right_of_holds hm, holds_of_right hm⟩

def twelveText : List UInt8 := [45, 49, 46, 50, 53, 101, 49]

def twelve : FloatText := ⟨[49], [50, 53], [49], false⟩

theorem floatParts_twelve : floatParts .iv (digitsOf twelveText 7) = some twelve := rfl

theorem isFloat_twelve : IsFloat (text twelveText 7) true twelve := by
  refine ⟨floatParts_isDigit _ _ _ floatParts_twelve, List.cons_ne_nil _ _, [46, 50, 53], [101, 49],
    Or.inr rfl, Or.inr ?_, rfl⟩
  exact ⟨101, [], rfl, Or.inl rfl, rfl, List.cons_ne_nil _ _⟩

theorem twelve_value : twelve.value * ((10 : ℤ) : ℚ) = 125 := by
  have hwhole : decimal twelve.whole = 1 := by decide
  have hfraction : decimal twelve.fraction = 25 := by decide
  have hpower : twelve.power = 1 := by decide
  have hlength : twelve.fraction.length = 2 := rfl
  rw [FloatText.value, hwhole, hfraction, hpower, hlength]
  norm_num

theorem holds_twelve : Str2floatHolds twelveText 7 1 := by
  intro whole segs hmarked
  have hone : floatText whole segs = twelve :=
    Option.some_inj.mp (hmarked.floatParts.symm.trans floatParts_twelve)
  have hscaled : twelve.scaled 1 = 125 := by
    rw [FloatText.scaled, pow_one, twelve_value]
    norm_num
  rw [hone]
  refine .inr ⟨(marked_of_isFloat isFloat_twelve).2.2.1,
    by decide, .fits 2 (by decide) (by decide) (by decide) ?_ ?_⟩
  · rw [hscaled]
    decide
  · rw [FloatText.FractionKept]
    decide

/-- -1.25e1 with one decimal place. -/
theorem str2float_right_twelve : Str2floatHolds twelveText 7 1 ∧ Str2floatRight twelveText 7 (10 ^ 1) :=
  ⟨holds_twelve, (str2float_right twelveText 7 1 (by norm_num)).1 holds_twelve⟩

def lateFraction : List UInt8 := [49, 101, 53, 46, 51]

/-- A point after the exponent is accepted. -/
theorem late_fraction_accepted : ¬Str2floatRight lateFraction 5 1 := by
  intro hright
  obtain ⟨neg, t, hform, _⟩ := hright (Or.inl (by decide +kernel))
  obtain ⟨_, _, hplaced, _⟩ := marked_of_isFloat hform
  have hafter := (hplaced [49] 101 [53, 46, 51] rfl (by decide)).2.2
  exact absurd rfl (hafter point (by decide)).1

end Skp.Utils
