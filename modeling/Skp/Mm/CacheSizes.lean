import Skp.Mm.UmallocSizes

/-! # The sizes of a cache

What `calculate_sizes` settles for an object size and an alignment that `umem_cache_create` accepts.
The only thing that can go wrong is the rounding in 32 bits: a size of 0 is divided by. -/
namespace Skp.Mm
set_option autoImplicit false
open Skp.Utils

/-- No division by zero, and a cache that is made holds objects of the size and alignment asked for. -/
def SizesRight (down hwcache : Bool) (align objsize : ℕ) : Prop :=
  ∃ r, calculateSizes down hwcache align objsize = some r ∧ ∀ s, r = some s →
    1 ≤ s.objects ∧ s.objects * s.size ≤ vpageSize * 2 ^ s.order ∧ s.order < maxOrder ∧ objsize ≤ s.size ∧
    (align = 0 ∨ align ∣ s.size)

def roundUp (n a : ℕ) : ℕ := (n + (a - 1)) / a * a

/-- What the size should become. -/
def wantedSize (hwcache : Bool) (align objsize : ℕ) : ℕ :=
  roundUp (roundUp objsize 8) (calculateAlignment hwcache align objsize)

variable {size minObjs n j align objsize : ℕ} {down hwcache : Bool}

/-! ## Orders -/

theorem slabOrderLoop_total (hsize : size ≠ 0) (fract order : ℕ) :
    ∃ o, slabOrderLoop size minObjs fract n order = some o := by
  induction n generalizing order with
  | zero => exact ⟨order, rfl⟩
  | succ n ih =>
    simp only [slabOrderLoop, if_neg hsize]
    split_ifs
    · exact ⟨order, rfl⟩
    · exact ih (order + 1)
    · exact ih (order + 1)

theorem slabOrder_total (hsize : size ≠ 0) (minObjs maxOrd fract : ℕ) :
    ∃ o, slabOrder size minObjs maxOrd fract = some o :=
  slabOrderLoop_total hsize fract _

theorem fractionLoop_total (hsize : size ≠ 0) (minObjs n fraction : ℕ) :
    ∃ r, fractionLoop size minObjs n fraction = some r ∧ ∀ o, r = some o → o ≤ slabMaxOrder := by
  induction n generalizing fraction with
  | zero => exact ⟨none, rfl, fun o ho => absurd ho.symm (Option.some_ne_none o)⟩
  | succ n ih =>
    rw [fractionLoop]
    split_ifs
    · obtain ⟨order, horder⟩ := slabOrder_total hsize minObjs slabMaxOrder fraction
      simp only [horder, Option.bind_eq_bind, Option.bind_some]
      split_ifs with hle
      · refine ⟨some order, rfl, fun o ho => ?_⟩
        cases ho
        exact hle
      · exact ih (fraction / 2)
    · exact ⟨none, rfl, fun o ho => absurd ho.symm (Option.some_ne_none o)⟩

theorem minObjsLoop_total (hsize : size ≠ 0) (minObjs : ℕ) :
    ∃ r, minObjsLoop size n minObjs = some r ∧ ∀ o, r = some o → o ≤ slabMaxOrder := by
  induction n generalizing minObjs with
  | zero => exact ⟨none, rfl, fun o ho => absurd ho.symm (Option.some_ne_none o)⟩
  | succ n ih =>
    rw [minObjsLoop]
    split_ifs
    · obtain ⟨r, hr, hle⟩ := fractionLoop_total hsize minObjs 2 8
      simp only [hr, Option.bind_eq_bind, Option.bind_some]
      cases r with
      | none => exact ih (minObjs / 2)
      | some order => exact ⟨some order, rfl, hle⟩
    · exact ⟨none, rfl, fun o ho => absurd ho.symm (Option.some_ne_none o)⟩

theorem calculateOrder_total (hsize : size ≠ 0) :
    ∃ r, calculateOrder size = some r ∧ ∀ o, r = some o → o < maxOrder := by
  obtain ⟨r, hr, hle⟩ := minObjsLoop_total (n := 12) hsize slabMinObjects
  obtain ⟨order, horder⟩ := slabOrder_total hsize 1 slabMaxOrder 1
  obtain ⟨order', horder'⟩ := slabOrder_total hsize 1 maxOrder 1
  have hsmall : slabMaxOrder < maxOrder := by decide
  rw [calculateOrder]
  simp only [hr, Option.bind_eq_bind, Option.bind_some]
  cases r with
  | some o =>
    refine ⟨some o, rfl, fun o' ho => ?_⟩
    cases ho
    exact lt_of_le_of_lt (hle o rfl) hsmall
  | none =>
    simp only [horder, horder', Option.bind_some]
    split_ifs with hfirst hlast
    · refine ⟨some order, rfl, fun o ho => ?_⟩
      cases ho
      exact lt_of_le_of_lt hfirst hsmall
    · refine ⟨some order', rfl, fun o ho => ?_⟩
      cases ho
      exact hlast
    · exact ⟨none, rfl, fun o ho => absurd ho.symm (Option.some_ne_none o)⟩

/-! ## Rounding -/

theorem roundUp_le (ha : 0 < n) (size : ℕ) : size ≤ roundUp size n := by
  have hmod := Nat.div_add_mod (size + (n - 1)) n
  have hlt := Nat.mod_lt (size + (n - 1)) ha
  rw [roundUp, Nat.mul_comm]
  omega

theorem dvd_roundUp (n size : ℕ) : n ∣ roundUp size n := Nat.dvd_mul_left n _

theorem alignTo_pow (hj : j ≤ 31) (hsize : size < 2 ^ 32) :
    (roundUp size (2 ^ j) < 2 ^ 32 ∧ alignTo 32 size (2 ^ j) = roundUp size (2 ^ j)) ∨
      (2 ^ 32 ≤ roundUp size (2 ^ j) ∧ alignTo 32 size (2 ^ j) = 0) := by
  have hpos : 0 < 2 ^ j := Nat.two_pow_pos j
  have hle : 2 ^ j ≤ 2 ^ 31 := Nat.pow_le_pow_right (by omega) hj
  by_cases hfits : size + (2 ^ j - 1) < 2 ^ 32
  · left
    refine ⟨lt_of_le_of_lt (Nat.div_mul_le_self _ _) hfits, ?_⟩
    rw [alignTo, roundUp, Nat.mod_eq_of_lt hfits]
  · right
    have hpow : 2 ^ 32 = 2 ^ (32 - j) * 2 ^ j := by
      rw [← pow_add]
      congr 1
      omega
    have hwrap : (size + (2 ^ j - 1)) % 2 ^ 32 < 2 ^ j := by omega
    constructor
    · rw [roundUp, hpow]
      apply Nat.mul_le_mul_right
      rw [Nat.le_div_iff_mul_le hpos, ← hpow]
      omega
    · rw [alignTo, Nat.div_eq_of_lt hwrap, Nat.zero_mul]

theorem calculateAlignment_pow (halign : align = 0 ∨ ∃ k, align = 2 ^ k) (hlt : align < 2 ^ 32)
    (hwcache : Bool) (objsize : ℕ) :
    ∃ j, j ≤ 31 ∧ calculateAlignment hwcache align objsize = 2 ^ j ∧ (align = 0 ∨ align ∣ 2 ^ j) := by
  rcases halign with rfl | ⟨k, rfl⟩
  · rw [calculateAlignment]
    split_ifs
    · exact ⟨7, by decide, rfl, .inl rfl⟩
    · exact ⟨3, by decide, rfl, .inl rfl⟩
    · exact absurd (by decide : 0 < slabMinalign) ‹_›
  · have hk : k < 32 := (Nat.pow_lt_pow_iff_right (by omega)).mp hlt
    rw [calculateAlignment]
    split_ifs with hcache hsmall
    · refine ⟨max k 7, by omega, ?_, .inr (pow_dvd_pow 2 (le_max_left k 7))⟩
      rcases le_total k 7 with hle | hle
      · have hpow : 2 ^ k ≤ 2 ^ 7 := Nat.pow_le_pow_right (by omega) hle
        rw [max_eq_right hle]
        exact max_eq_right hpow
      · have hpow : 2 ^ 7 ≤ 2 ^ k := Nat.pow_le_pow_right (by omega) hle
        rw [max_eq_left hle]
        exact max_eq_left hpow
    · have hle : k ≤ 3 := ((Nat.pow_lt_pow_iff_right (by omega)).mp (show 2 ^ k < 2 ^ 3 from hsmall)).le
      exact ⟨3, by decide, rfl, .inr (pow_dvd_pow 2 hle)⟩
    · have hthree : 3 ≤ k :=
        (Nat.pow_le_pow_iff_right (by omega)).mp (show 2 ^ 3 ≤ 2 ^ k from Nat.not_lt.mp hsmall)
      have hdvd : 8 ∣ 2 ^ k := pow_dvd_pow 2 hthree
      have hbound : 2 ^ k ≤ 2 ^ 31 := Nat.pow_le_pow_right (by omega) (by omega)
      refine ⟨k, by omega, ?_, .inr dvd_rfl⟩
      rw [alignTo]
      omega

theorem slabSize_eq (halign : align = 0 ∨ ∃ k, align = 2 ^ k) (hlt : align < 2 ^ 32)
    (hobj : objsize < 2 ^ 32) (hwcache : Bool) :
    (wantedSize hwcache align objsize < 2 ^ 32 ∧ slabSize hwcache align objsize =
      wantedSize hwcache align objsize) ∨
      (2 ^ 32 ≤ wantedSize hwcache align objsize ∧ slabSize hwcache align objsize = 0) := by
  obtain ⟨j, hj, hcalc, -⟩ := calculateAlignment_pow halign hlt hwcache objsize
  have hpos : 0 < 2 ^ j := Nat.two_pow_pos j
  rw [wantedSize, slabSize, hcalc]
  rcases alignTo_pow (show 3 ≤ 31 by decide) hobj with ⟨hfits, heq⟩ | ⟨hlarge, heq⟩
  · rw [show (8 : ℕ) = 2 ^ 3 from rfl, heq]
    exact alignTo_pow hj hfits
  · right
    rw [show (8 : ℕ) = 2 ^ 3 from rfl, heq]
    refine ⟨le_trans hlarge (roundUp_le hpos _), ?_⟩
    rw [alignTo, Nat.mod_eq_of_lt (by have hbound := Nat.pow_le_pow_right (show 0 < 2 by omega) hj; omega),
      Nat.div_eq_of_lt (by omega), Nat.zero_mul]

/-! ## The sizes -/

theorem calculateSizes_fault (hsize : slabSize hwcache align objsize = 0) :
    calculateSizes down hwcache align objsize = none := by
  cases down with
  | false =>
    have horder : calculateOrder 0 = none := by decide
    simp [calculateSizes, hsize, horder]
  | true => simp [calculateSizes, hsize]

theorem calculateSizes_total (down : Bool) (hsize : slabSize hwcache align objsize ≠ 0) :
    ∃ r, calculateSizes down hwcache align objsize = some r ∧ ∀ s, r = some s →
      1 ≤ s.objects ∧ s.objects * s.size ≤ vpageSize * 2 ^ s.order ∧ s.order < maxOrder ∧
      s.size = slabSize hwcache align objsize := by
  have hchoice : ∃ r,
      (if down then some (some 0) else calculateOrder (slabSize hwcache align objsize)) = some r ∧
      ∀ o, r = some o → o < maxOrder := by
    cases down with
    | false => exact calculateOrder_total hsize
    | true =>
      refine ⟨some 0, rfl, fun o ho => ?_⟩
      cases ho
      decide
  obtain ⟨r, hr, hlt⟩ := hchoice
  rw [calculateSizes]
  simp only [hr, Option.bind_eq_bind, Option.bind_some]
  cases r with
  | none => exact ⟨none, rfl, fun s hs => absurd hs.symm (Option.some_ne_none s)⟩
  | some order =>
    simp only [if_neg hsize]
    split_ifs with hzero
    · exact ⟨none, rfl, fun s hs => absurd hs.symm (Option.some_ne_none s)⟩
    · refine ⟨_, rfl, fun s hs => ?_⟩
      cases hs
      refine ⟨Nat.one_le_iff_ne_zero.mpr hzero, ?_, hlt order rfl, rfl⟩
      calc vpageSize * 2 ^ order / slabSize hwcache align objsize % 2 ^ 32 * slabSize hwcache align objsize
          ≤ vpageSize * 2 ^ order / slabSize hwcache align objsize * slabSize hwcache align objsize :=
            Nat.mul_le_mul_right _ (Nat.mod_le _ _)
        _ ≤ vpageSize * 2 ^ order := Nat.div_mul_le_self _ _

/-- The sizes are right exactly when there is something to allocate and its rounded size fits 32 bits. -/
theorem calculateSizes_iff (down hwcache : Bool) (align objsize : ℕ) (halign : align = 0 ∨ ∃ k, align = 2 ^ k)
    (hlt : align < vpageSize * 2 ^ (maxOrder - 1)) (hobj : objsize < vpageSize * 2 ^ (maxOrder - 1)) :
    SizesRight down hwcache align objsize ↔ 0 < objsize ∧ wantedSize hwcache align objsize < 2 ^ 32 := by
  have hlt' : align < 2 ^ 32 := hlt
  have hobj' : objsize < 2 ^ 32 := hobj
  have hsize := slabSize_eq halign hlt' hobj' hwcache
  obtain ⟨j, -, hcalc, hdvd⟩ := calculateAlignment_pow halign hlt' hwcache objsize
  have hpos : 0 < 2 ^ j := Nat.two_pow_pos j
  have hwant : objsize ≤ wantedSize hwcache align objsize := by
    rw [wantedSize, hcalc]
    exact le_trans (roundUp_le (by omega) objsize) (roundUp_le hpos _)
  constructor
  · rintro ⟨r, hr, -⟩
    by_contra hcond
    have hzero : slabSize hwcache align objsize = 0 := by
      rcases hsize with ⟨hfits, heq⟩ | ⟨-, heq⟩
      · have hobjzero : objsize = 0 := by omega
        rw [heq, hobjzero, wantedSize, ← hobjzero, hcalc, hobjzero, roundUp, roundUp,
          Nat.div_eq_of_lt (show 0 + (8 - 1) < 8 by omega), Nat.zero_mul,
          Nat.div_eq_of_lt (by omega), Nat.zero_mul]
      · exact heq
    rw [calculateSizes_fault hzero] at hr
    cases hr
  · rintro ⟨hobjpos, hfits⟩
    have heq : slabSize hwcache align objsize = wantedSize hwcache align objsize := by
      rcases hsize with ⟨-, heq⟩ | ⟨hlarge, -⟩
      · exact heq
      · omega
    obtain ⟨r, hr, hright⟩ := calculateSizes_total down (show slabSize hwcache align objsize ≠ 0 by omega)
    refine ⟨r, hr, fun s hs => ?_⟩
    obtain ⟨hone, hfit, horder, hsizes⟩ := hright s hs
    refine ⟨hone, hfit, horder, by omega, hdvd.imp_right fun hd => ?_⟩
    rw [hsizes, heq, wantedSize, hcalc]
    exact dvd_trans hd (dvd_roundUp _ _)

theorem calculateSizes_iff_hundred : SizesRight false true 64 100 :=
  (calculateSizes_iff false true 64 100 (.inr ⟨6, rfl⟩) (by decide) (by decide)).mpr (by decide)

/-- An object of 0 bytes: the size is divided by. -/
theorem zero_size_divides : calculateSizes false false 0 0 = none ∧ ¬SizesRight false false 0 0 := by
  have hfault : calculateSizes false false 0 0 = none := by decide
  refine ⟨hfault, ?_⟩
  rintro ⟨r, hr, -⟩
  rw [hfault] at hr
  cases hr

end Skp.Mm
