import Skp.Errno
import Skp.Adt.RingModel
import Skp.Utils.Bitops

/-! # Making a ring

`ringb_calc_memsize`, `ringb_init` and `ringb_create` of `ring.c`. The size is rounded in 64 bits
and stored in 32. -/
namespace Skp.Adt
set_option autoImplicit false
open Skp.Utils

def ringbFSpEnq : UInt32 := 1
def ringbFScDeq : UInt32 := 2
def ringbFExactSz : UInt32 := 4
def ringbSzMask : UInt32 := 0x7fffffff

def cachelineBytes : ℕ := 128

/-- The plain fields, `_pad0`, `prod` and `cons`: each begins a cache line. -/
def sizeofRingb : ℕ := 4 * cachelineBytes

structure RingbHeadtailRecord where
  head : UInt32
  tail : UInt32
  single : UInt32
deriving DecidableEq

structure RingbRecord where
  flags : UInt32
  size : UInt32
  mask : UInt32
  capacity : UInt32
  prod : RingbHeadtailRecord
  cons : RingbHeadtailRecord
deriving DecidableEq

def unknownFlags (flags : UInt32) : Bool := flags &&& ~~~(ringbFScDeq ||| ringbFSpEnq ||| ringbFExactSz) != 0

def exactSz (flags : UInt32) : Bool := flags &&& ringbFExactSz != 0

/-- `roundup_pow_of_two(count + 1)` in a `uint32_t`. -/
def exactSize (count : UInt32) : UInt32 := (Utils.roundupPowOfTwo (count + 1).toUInt64).toUInt32

/-- `none` is `-EINVAL`. -/
def ringbCalcMemsize (count flags : UInt32) : Option ℕ :=
  if unknownFlags flags then none
  else if exactSz flags = false ∧ isPowerOf2 count.toUInt64 = false then none
  else
    let count := if exactSz flags then exactSize count else count
    if ringbSzMask < count then none else some (alignTo 64 (sizeofRingb + count.toNat * 8) cachelineBytes)

def ringbInit (r : RingbRecord) (count flags : UInt32) : RingbRecord × ℤ :=
  if unknownFlags flags then (r, eINVAL)
  else
    let r : RingbRecord :=
      { flags := flags
        size := 0
        mask := 0
        capacity := 0
        prod := ⟨0, 0, if flags &&& ringbFSpEnq != 0 then 1 else 0⟩
        cons := ⟨0, 0, if flags &&& ringbFScDeq != 0 then 1 else 0⟩ }
    if exactSz flags then
      ({ r with size := exactSize count, mask := exactSize count - 1, capacity := count }, 0)
    else if isPowerOf2 count.toUInt64 = false ∨ ringbSzMask < count then (r, eINVAL)
    else ({ r with size := count, mask := count - 1, capacity := count - 1 }, 0)

/-- The bytes reserved and the ring, from what the memory held; `allocated` says for which sizes
there is memory. -/
def ringbCreate (allocated : ℕ → Bool) (r : RingbRecord) (count flags : UInt32) : Option (ℕ × RingbRecord) :=
  match ringbCalcMemsize count flags with
  | none => none
  | some size => if allocated size then some (size, (ringbInit r count flags).1) else none

/-! ## What should be -/

structure RingbRight (count flags : UInt32) (reserved : ℕ) (r : RingbRecord) : Prop where
  size_pow : ∃ k, k ≤ 31 ∧ r.size.toNat = 2 ^ k
  mask_eq : r.mask.toNat = r.size.toNat - 1
  capacity_lt : r.capacity.toNat < r.size.toNat
  capacity_eq : exactSz flags = true → r.capacity = count
  reserved_le : sizeofRingb + r.size.toNat * 8 ≤ reserved

/-- Every ring that is returned is right. -/
def RingbCreateRight (count flags : UInt32) : Prop :=
  ∀ allocated raw reserved r, ringbCreate allocated raw count flags = some (reserved, r) →
    RingbRight count flags reserved r

/-- A right ring has the sizes that the operations of a ring rest on. -/
def RingbRight.params {count flags : UInt32} {reserved : ℕ} {r : RingbRecord}
    (h : RingbRight count flags reserved r) :
    RingParams where
  size := r.size.toNat
  mask := r.mask.toNat
  capacity := r.capacity.toNat
  size_pow := h.size_pow
  mask_eq := h.mask_eq
  capacity_lt := h.capacity_lt

variable {count flags : UInt32}

/-! ## The sizes -/

theorem le_alignTo {n : ℕ} (h : n < 2 ^ 40) : n ≤ alignTo 64 n cachelineBytes := by
  rw [alignTo, cachelineBytes]
  omega

theorem toNat_rounded (h : count.toNat < 2 ^ 32 - 1) : ((count + 1).toUInt64 - 1).toNat = count.toNat := by
  have hadd : (count + 1).toNat = count.toNat + 1 := by
    rw [UInt32.toNat_add, UInt32.toNat_one]
    omega
  rw [UInt64.toNat_sub_of_le, UInt32.toNat_toUInt64, hadd, UInt64.toNat_one, Nat.add_sub_cancel]
  rw [UInt64.le_iff_toNat_le, UInt32.toNat_toUInt64, hadd, UInt64.toNat_one]
  omega

theorem toNat_exactSize (h : count.toNat < 2 ^ 31) : (exactSize count).toNat = 2 ^ fls count.toNat := by
  have hpow : 2 ^ fls count.toNat ≤ 2 ^ 31 := Nat.pow_le_pow_right (by omega) (fls_le h)
  have hrounded := toNat_rounded (show count.toNat < 2 ^ 32 - 1 by omega)
  rw [exactSize, UInt64.toNat_toUInt32, toNat_roundupPowOfTwo (by omega), hrounded, Nat.mod_eq_of_lt]
  exact lt_of_le_of_lt hpow (by decide)

/-- From 2^31 on the size does not fit 32 bits. -/
theorem exactSize_large (h : 2 ^ 31 ≤ count.toNat) (hlt : count.toNat < 2 ^ 32 - 1) :
    exactSize count = 0 := by
  have hrounded := toNat_rounded hlt
  have hfls : fls count.toNat = 32 := by
    apply le_antisymm (fls_le count.toNat_lt)
    by_contra hsmall
    have hlow := lt_two_pow_fls count.toNat
    have hpow := Nat.pow_le_pow_right (show 0 < 2 by omega) (show fls count.toNat ≤ 31 by omega)
    omega
  rw [← UInt32.toNat_inj, exactSize, UInt64.toNat_toUInt32, toNat_roundupPowOfTwo (by omega), hrounded, hfls]
  rfl

/-! ## The ring -/

theorem ringbCreate_some {allocated : ℕ → Bool} {raw r : RingbRecord} {reserved : ℕ}
    (hcreate : ringbCreate allocated raw count flags = some (reserved, r)) :
    ringbCalcMemsize count flags = some reserved ∧ r = (ringbInit raw count flags).1 := by
  rw [ringbCreate] at hcreate
  cases hsize : ringbCalcMemsize count flags with
  | none => simp [hsize] at hcreate
  | some size =>
    simp only [hsize] at hcreate
    obtain ⟨-, hpair⟩ := Option.ite_none_right_eq_some.mp hcreate
    cases hpair
    exact ⟨rfl, rfl⟩

theorem ringbCalcMemsize_some {reserved : ℕ} (hcalc : ringbCalcMemsize count flags = some reserved) :
    unknownFlags flags = false ∧ (exactSz flags = false → isPowerOf2 count.toUInt64 = true) ∧
    (if exactSz flags then exactSize count else count).toNat ≤ 2 ^ 31 - 1 ∧
    sizeofRingb + (if exactSz flags then exactSize count else count).toNat * 8 ≤ reserved := by
  rw [ringbCalcMemsize] at hcalc
  obtain ⟨hknown, hcalc⟩ := Option.ite_none_left_eq_some.mp hcalc
  obtain ⟨hpower, hcalc⟩ := Option.ite_none_left_eq_some.mp hcalc
  obtain ⟨hlimit, hcalc⟩ := Option.ite_none_left_eq_some.mp hcalc
  rw [UInt32.lt_iff_toNat_lt] at hlimit
  change ¬2 ^ 31 - 1 < _ at hlimit
  refine ⟨eq_false_of_ne_true hknown, fun hplain => ?_, by omega, ?_⟩
  · by_contra hne
    exact hpower ⟨hplain, eq_false_of_ne_true hne⟩
  · rw [← Option.some.inj hcalc]
    apply le_alignTo
    rw [sizeofRingb, cachelineBytes]
    omega

theorem ringbRight_exact {raw : RingbRecord} {reserved : ℕ} (hexact : exactSz flags = true)
    (h : count.toNat < 2 ^ 31)
    (hcalc : ringbCalcMemsize count flags = some reserved) :
    RingbRight count flags reserved (ringbInit raw count flags).1 := by
  obtain ⟨hknown, -, -, hreserved⟩ := ringbCalcMemsize_some hcalc
  rw [if_pos hexact] at hreserved
  have hsize := toNat_exactSize h
  have hpos : 0 < 2 ^ fls count.toNat := Nat.two_pow_pos _
  have hinit : (ringbInit raw count flags).1.size = exactSize count ∧
      (ringbInit raw count flags).1.mask = exactSize count - 1 ∧
        (ringbInit raw count flags).1.capacity = count := by
    simp [ringbInit, hknown, hexact]
  obtain ⟨hs, hm, hc⟩ := hinit
  constructor
  · exact ⟨fls count.toNat, fls_le h, hs ▸ hsize⟩
  · rw [hs, hm, UInt32.toNat_sub_of_le, UInt32.toNat_one]
    rw [UInt32.le_iff_toNat_le, UInt32.toNat_one]
    omega
  · rw [hs, hc, hsize]
    exact lt_two_pow_fls _
  · exact fun _ => hc
  · rw [hs]
    exact hreserved

theorem ringbRight_plain {raw : RingbRecord} {reserved : ℕ} (hplain : exactSz flags = false)
    (hcalc : ringbCalcMemsize count flags = some reserved) :
    RingbRight count flags reserved (ringbInit raw count flags).1 := by
  obtain ⟨hknown, hpower, hlimit, hreserved⟩ := ringbCalcMemsize_some hcalc
  simp only [hplain, Bool.false_eq_true, if_false] at hlimit hreserved
  have hpow := hpower hplain
  obtain ⟨k, hk⟩ := (isPowerOf2_iff _).mp hpow
  rw [UInt32.toNat_toUInt64] at hk
  have hpos : 0 < 2 ^ k := Nat.two_pow_pos k
  have hmask : ¬ringbSzMask < count := by
    rw [UInt32.lt_iff_toNat_lt]
    exact Nat.not_lt.mpr hlimit
  have hinit : (ringbInit raw count flags).1.size = count ∧
      (ringbInit raw count flags).1.mask = count - 1 ∧ (ringbInit raw count flags).1.capacity =
        count - 1 := by
    simp [ringbInit, hknown, hplain, hpow, hmask]
  obtain ⟨hs, hm, hc⟩ := hinit
  have hsub : (count - 1).toNat = count.toNat - 1 := by
    rw [UInt32.toNat_sub_of_le, UInt32.toNat_one]
    rw [UInt32.le_iff_toNat_le, UInt32.toNat_one]
    omega
  constructor
  · refine ⟨k, ?_, hs.symm ▸ hk⟩
    by_contra hlarge
    have hbig := Nat.pow_le_pow_right (show 0 < 2 by omega) (show 32 ≤ k by omega)
    omega
  · rw [hs, hm, hsub]
  · rw [hs, hc, hsub]
    omega
  · intro hexact
    rw [hplain] at hexact
    cases hexact
  · rw [hs]
    exact hreserved

theorem ringbCreate_large (raw : RingbRecord) (hknown : unknownFlags flags = false)
    (hexact : exactSz flags = true)
    (h : 2 ^ 31 ≤ count.toNat) :
    ∃ reserved r, ringbCreate (fun _ => true) raw count flags = some (reserved, r) ∧
      ¬RingbRight count flags reserved r := by
  have hsmall : exactSize count = 0 ∨ exactSize count = 1 ∧ count.toNat = 2 ^ 32 - 1 := by
    by_cases hlast : count.toNat < 2 ^ 32 - 1
    · exact .inl (exactSize_large h hlast)
    · have hmax : count.toNat = 2 ^ 32 - 1 := by
        have hlt := count.toNat_lt
        omega
      have heq : count = 4294967295 := by
        rw [← UInt32.toNat_inj, hmax]
        rfl
      exact .inr ⟨heq ▸ by decide, hmax⟩
  have hlimit : ¬ringbSzMask < exactSize count := by
    rcases hsmall with hzero | ⟨hone, -⟩
    · rw [hzero]
      decide
    · rw [hone]
      decide
  refine ⟨alignTo 64 (sizeofRingb + (exactSize count).toNat * 8) cachelineBytes,
    (ringbInit raw count flags).1, ?_, fun hright => ?_⟩
  · simp [ringbCreate, ringbCalcMemsize, hknown, hexact, hlimit]
  · obtain ⟨k, -, hk⟩ := hright.size_pow
    have hcapacity := hright.capacity_lt
    have hpos : 0 < 2 ^ k := Nat.two_pow_pos k
    have hinit : (ringbInit raw count flags).1.size = exactSize count ∧
        (ringbInit raw count flags).1.capacity = count := by
      simp [ringbInit, hknown, hexact]
    rw [hinit.1] at hk hcapacity
    rw [hinit.2] at hcapacity
    rcases hsmall with hzero | ⟨hone, hmax⟩
    · rw [hzero, UInt32.toNat_zero] at hk
      omega
    · rw [hone, UInt32.toNat_one] at hcapacity
      omega

/-- Exact sizes are right below 2^31, others always. -/
theorem ringbCreate_iff (count flags : UInt32) : RingbCreateRight count flags ↔
    unknownFlags flags = true ∨ exactSz flags = false ∨ count.toNat < 2 ^ 31 := by
  constructor
  · intro hright
    by_contra hcond
    simp only [not_or, Bool.not_eq_true, Bool.not_eq_false, Nat.not_lt] at hcond
    obtain ⟨hknown, hexact, hlarge⟩ := hcond
    obtain ⟨reserved, r, hcreate, hwrong⟩ :=
      ringbCreate_large ⟨0, 0, 0, 0, ⟨0, 0, 0⟩, ⟨0, 0, 0⟩⟩ hknown hexact hlarge
    exact hwrong (hright _ _ _ _ hcreate)
  · intro hcond allocated raw reserved r hcreate
    obtain ⟨hcalc, rfl⟩ := ringbCreate_some hcreate
    obtain ⟨hknown, -⟩ := ringbCalcMemsize_some hcalc
    rcases hcond with hunknown | hplain | hsmall
    · rw [hknown] at hunknown
      cases hunknown
    · exact ringbRight_plain hplain hcalc
    · cases hexact : exactSz flags with
      | false => exact ringbRight_plain hexact hcalc
      | true => exact ringbRight_exact hexact hsmall hcalc

/-- With 2^31 objects wanted, the ring has no slot. -/
theorem half_range_empty :
    ∃ reserved r, ringbCreate (fun _ => true) ⟨0, 0, 0, 0, ⟨0, 0, 0⟩, ⟨0, 0, 0⟩⟩ 2147483648 4 =
    some (reserved, r) ∧ r.size = 0 ∧ r.mask = 4294967295 ∧ ¬RingbRight 2147483648 4 reserved r := by
  refine ⟨512, ⟨4, 0, 4294967295, 2147483648, ⟨0, 0, 0⟩, ⟨0, 0, 0⟩⟩, by decide, rfl, rfl, fun hright => ?_⟩
  exact absurd hright.capacity_lt (by decide)

end Skp.Adt
