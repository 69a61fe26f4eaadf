import Skp.Utils.Bitops

/-! # The size classes of `umalloc`

`get_index` and `calculate_sizes` of `slab.c` with the values of `mmcfg.h` for x86-64: pages of 4
MB, blocks of at most 2^10 pages. Class 0 is the cache of the cache descriptors and of the threads'
lists, classes 1 and 2 have 96 and 192 bytes, class `i` from 3 on has 2^i. -/
namespace Skp.Mm
set_option autoImplicit false
open Skp.Utils

def vpageShift : ℕ := 22
def vpageSize : ℕ := 2 ^ vpageShift
def maxOrder : ℕ := 11
def umallocShiftHigh : ℕ := vpageShift - 1
def cachelineBytes : ℕ := 128
def slabMinalign : ℕ := 8
def slabMinObjects : ℕ := 2 ^ 12
def slabMaxOrder : ℕ := maxOrder / 3

/-- `TLS_ALLOCATER_OBJSIZE`: a `struct slab_tls` of 40 bytes for each class. It is larger than a
cache descriptor. -/
def tlsAllocaterObjsize : ℕ := 40 * (umallocShiftHigh + 1)

/-- `none` is -1. -/
def getIndex (size : ℕ) : Option ℕ :=
  if size = 96 then some 1
  else if size = 192 then some 2
  else
    let index := orderBase2 (alignTo 64 (if size = 0 then 1 else size) 8)
    if umallocShiftHigh < index then none else some index

/-! ## Sizes and orders of a cache -/

def calculateAlignment (hwcache : Bool) (align size : ℕ) : ℕ :=
  if hwcache = true ∧ cachelineBytes / 2 < size then max align cachelineBytes
  else if align < slabMinalign then slabMinalign
  else alignTo 32 align 8

/-- The loop of `slab_order`, at most `n` rounds. -/
def slabOrderLoop (size minObjs fractLeftover : ℕ) : ℕ → ℕ → Option ℕ
  | 0, order => some order
  | n + 1, order =>
      let slabSize := vpageSize * 2 ^ order
      if minObjs * size % 2 ^ 32 ≤ slabSize then
        if size = 0 then none
        else if slabSize % size ≤ slabSize / fractLeftover then some order
        else slabOrderLoop size minObjs fractLeftover n (order + 1)
      else slabOrderLoop size minObjs fractLeftover n (order + 1)

/-- `none` is a division by zero. -/
def slabOrder (size minObjs maxOrd fractLeftover : ℕ) : Option ℕ :=
  let order := fls ((minObjs * size + (2 ^ 32 - 1)) % 2 ^ 32) - vpageShift
  slabOrderLoop size minObjs fractLeftover (maxOrd + 1 - order) order

/-- The inner loop of `calculate_order`; the inner `none` is no order. -/
def fractionLoop (size minObjs : ℕ) : ℕ → ℕ → Option (Option ℕ)
  | 0, _ => some none
  | n + 1, fraction =>
      if 4 ≤ fraction then do
        let order ← slabOrder size minObjs slabMaxOrder fraction
        if order ≤ slabMaxOrder then some (some order) else fractionLoop size minObjs n (fraction / 2)
      else some none

/-- The outer one. -/
def minObjsLoop (size : ℕ) : ℕ → ℕ → Option (Option ℕ)
  | 0, _ => some none
  | n + 1, minObjs =>
      if 1 < minObjs then do
        match ← fractionLoop size minObjs 2 8 with
        | some order => some (some order)
        | none => minObjsLoop size n (minObjs / 2)
      else some none

/-- The inner `none` is -1. -/
def calculateOrder (size : ℕ) : Option (Option ℕ) := do
  match ← minObjsLoop size 12 slabMinObjects with
  | some order => some (some order)
  | none =>
      let order ← slabOrder size 1 slabMaxOrder 1
      if order ≤ slabMaxOrder then some (some order)
      else
        let order ← slabOrder size 1 maxOrder 1
        if order < maxOrder then some (some order) else some none

structure SlabSizes where
  inuse : ℕ
  size : ℕ
  order : ℕ
  objects : ℕ
deriving DecidableEq

/-- `s->size`. -/
def slabSize (hwcache : Bool) (align objsize : ℕ) : ℕ :=
  alignTo 32 (alignTo 32 objsize 8) (calculateAlignment hwcache align objsize)

/-- `calculate_sizes`; `down` while the first cache is made. `none` is a division by zero, the inner
one a failure. -/
def calculateSizes (down hwcache : Bool) (align objsize : ℕ) : Option (Option SlabSizes) := do
  let size := slabSize hwcache align objsize
  match ← (if down then some (some 0) else calculateOrder size) with
  | none => some none
  | some order =>
      if size = 0 then none
      else
        let objects := vpageSize * 2 ^ order / size % 2 ^ 32
        if objects = 0 then some none else some (some ⟨alignTo 32 objsize 8, size, order, objects⟩)

/-- What `__umem_cache_init` asks for. -/
def umallocObjsize (i : ℕ) : ℕ :=
  if i = 0 then tlsAllocaterObjsize else if i = 1 then 96 else if i = 2 then 192 else 2 ^ i

def umallocCache (i : ℕ) : Option SlabSizes := (calculateSizes (i == 0) (i == 0) 0 (umallocObjsize i)).join

def classSizes (i : ℕ) : SlabSizes := (umallocCache i).getD ⟨0, 0, 0, 0⟩

/-! ## The table -/

/-- Every cache of `umalloc_caches` can be made, its objects fit on its pages and have place for a pointer. -/
theorem umallocCache_eq : ∀ i, i ≤ umallocShiftHigh → umallocCache i = some (classSizes i) ∧
      8 ≤ (classSizes i).size ∧
    (classSizes i).order ≤ slabMaxOrder ∧ 0 < (classSizes i).objects ∧
    (classSizes i).objects * (classSizes i).size ≤ vpageSize * 2 ^ (classSizes i).order := by
  decide

theorem classSizes_size : ∀ i, i ≤ umallocShiftHigh → (classSizes i).size = if i = 0 then 896
      else umallocObjsize i := by
  decide

/-! ## From a size to its class -/

theorem alignTo_bounds {n : ℕ} (h : n ≤ 2 ^ 64 - 8) :
    n ≤ alignTo 64 n 8 ∧ alignTo 64 n 8 < n + 8 ∧ 8 ∣ alignTo 64 n 8 := by
  rw [alignTo]
  omega

/-- The last seven sizes are rounded to 0. -/
theorem alignTo_wraps {n : ℕ} (h : 2 ^ 64 - 8 < n) (hlt : n < 2 ^ 64) : alignTo 64 n 8 = 0 := by
  rw [alignTo]
  omega

theorem getIndex_wraps {size : ℕ} (h : 2 ^ 64 - 8 < size) (hlt : size < 2 ^ 64) : getIndex size = some 0 := by
  have hne : size ≠ 96 := by omega
  have hne' : size ≠ 192 := by omega
  have hzero : size ≠ 0 := by omega
  simp [getIndex, hne, hne', hzero, alignTo_wraps h hlt, orderBase2]

theorem getIndex_rounded {size : ℕ} (h : size ≤ 2 ^ 64 - 8) (hne : size ≠ 96) (hne' : size ≠ 192) :
    ∃ n, size ≤ n ∧ n < max size 1 + 8 ∧ 8 ≤ n ∧ 8 ∣ n ∧
      getIndex size = if umallocShiftHigh < orderBase2 n then none else some (orderBase2 n) := by
  have hask : (if size = 0 then 1 else size) ≤ 2 ^ 64 - 8 ∧ 0 < (if size = 0 then 1 else size) ∧
      size ≤ (if size = 0 then 1 else size) ∧ (if size = 0 then 1 else size) ≤ max size 1 := by
    split <;> omega
  obtain ⟨hle, hpos, hlow, hhigh⟩ := hask
  obtain ⟨hmin, hmax, hdvd⟩ := alignTo_bounds hle
  refine ⟨alignTo 64 (if size = 0 then 1 else size) 8, by omega, by omega, by omega, hdvd, ?_⟩
  rw [getIndex, if_neg hne, if_neg hne']

/-- Where no rounding overflows, the class of a size is 96, 192 or the power of two above it. -/
theorem getIndex_some {size i : ℕ} (h : size ≤ 2 ^ 64 - 8) (hi : getIndex size = some i) :
    (size = 96 ∧ i = 1) ∨ (size = 192 ∧ i = 2) ∨ (3 ≤ i ∧ i ≤ umallocShiftHigh ∧ size ≤ 2 ^ i) := by
  by_cases hne : size = 96
  · rw [getIndex, if_pos hne] at hi
    exact .inl ⟨hne, (Option.some.inj hi).symm⟩
  · by_cases hne' : size = 192
    · rw [getIndex, if_neg hne, if_pos hne'] at hi
      exact .inr (.inl ⟨hne', (Option.some.inj hi).symm⟩)
    · right
      right
      obtain ⟨n, hle, -, height, -, heq⟩ := getIndex_rounded h hne hne'
      rw [heq] at hi
      obtain ⟨hlow, hi⟩ := Option.ite_none_left_eq_some.mp hi
      obtain rfl := Option.some.inj hi
      have hpow := le_two_pow_orderBase2 n
      refine ⟨?_, by omega, by omega⟩
      by_contra hsmall
      have hfour := Nat.pow_le_pow_right (show 0 < 2 by omega) (show orderBase2 n ≤ 2 by omega)
      omega

theorem size_le_class {size i : ℕ} (h : size ≤ 2 ^ 64 - 8) (hi : getIndex size = some i) :
    size ≤ (classSizes i).size := by
  rcases getIndex_some h hi with ⟨rfl, rfl⟩ | ⟨rfl, rfl⟩ | ⟨hthree, hle, hsize⟩
  · decide
  · decide
  · rw [classSizes_size i hle, if_neg (by omega), umallocObjsize, if_neg (by omega),
      if_neg (by omega), if_neg (by omega)]
    exact hsize

/-- What has no class is larger than half a page, and does not overflow. -/
theorem getIndex_none {size : ℕ} (hlt : size < 2 ^ 64) (hi : getIndex size = none) :
    2 ^ umallocShiftHigh < size ∧ size ≤ 2 ^ 64 - 8 := by
  have hsmall : size ≤ 2 ^ 64 - 8 := by
    by_contra h
    rw [getIndex_wraps (by omega) hlt] at hi
    cases hi
  refine ⟨?_, hsmall⟩
  by_contra hle
  have hne : size ≠ 96 := by
    rintro rfl
    cases hi
  have hne' : size ≠ 192 := by
    rintro rfl
    cases hi
  obtain ⟨n, -, hmax, -, hdvd, heq⟩ := getIndex_rounded hsmall hne hne'
  have hround : n ≤ 2 ^ umallocShiftHigh := by
    have hhalf : 2 ^ umallocShiftHigh = 2097152 := rfl
    omega
  rw [heq, if_neg (Nat.not_lt.mpr (orderBase2_le hround))] at hi
  cases hi

theorem size_le_order {size : ℕ} (h : 2 ^ umallocShiftHigh < size) :
    size ≤ vpageSize * 2 ^ (orderBase2 size - vpageShift) := by
  have hle := le_two_pow_orderBase2 size
  have horder : vpageShift ≤ orderBase2 size := by
    by_contra hlow
    have hpow := Nat.pow_le_pow_right (show 0 < 2 by omega) (show orderBase2 size ≤ umallocShiftHigh by
      rw [umallocShiftHigh]
      omega)
    omega
  rw [vpageSize, ← pow_add, Nat.add_sub_cancel' horder]
  exact hle

/-! ## Alignment -/

/-- The size of a class and the page size are multiples of every power of two that a size of the
class is a multiple of. -/
theorem dvd_class {size i j : ℕ} (hi : getIndex size = some i) (hdvd : 2 ^ j ∣ size)
    (hpos : 0 < size) (hlt : size < 2 ^ 64) :
    2 ^ j ∣ (classSizes i).size ∧ 2 ^ j ∣ vpageSize := by
  have hpage : ∀ k, k ≤ vpageShift → 2 ^ k ∣ vpageSize := fun k hk => pow_dvd_pow 2 hk
  have hsize := Nat.le_of_dvd hpos hdvd
  by_cases h : size ≤ 2 ^ 64 - 8
  · rcases getIndex_some h hi with ⟨rfl, rfl⟩ | ⟨rfl, rfl⟩ | ⟨hthree, hle, hfit⟩
    · refine ⟨hdvd, hpage j ?_⟩
      by_contra hlarge
      have hpow := Nat.pow_le_pow_right (show 0 < 2 by omega) (show 7 ≤ j by rw [vpageShift] at hlarge; omega)
      omega
    · refine ⟨hdvd, hpage j ?_⟩
      by_contra hlarge
      have hpow := Nat.pow_le_pow_right (show 0 < 2 by omega) (show 8 ≤ j by rw [vpageShift] at hlarge; omega)
      omega
    · have hj : j ≤ i := (Nat.pow_le_pow_iff_right (by omega)).mp (le_trans hsize hfit)
      rw [classSizes_size i hle, if_neg (by omega), umallocObjsize, if_neg (by omega),
        if_neg (by omega), if_neg (by omega)]
      rw [umallocShiftHigh] at hle
      exact ⟨pow_dvd_pow 2 hj, hpage j (by omega)⟩
  · rw [getIndex_wraps (by omega) hlt] at hi
    obtain rfl := Option.some.inj hi
    have hj : j ≤ 2 := by
      by_contra hlarge
      have height : 2 ^ 3 ∣ size := dvd_trans (pow_dvd_pow 2 (by omega)) hdvd
      omega
    refine ⟨dvd_trans (pow_dvd_pow 2 hj) (by decide), hpage j ?_⟩
    rw [vpageShift]
    omega

theorem dvd_order {size j : ℕ} (hdvd : 2 ^ j ∣ size) (hlt : 2 ^ umallocShiftHigh < size) :
    2 ^ j ∣ vpageSize * 2 ^ (orderBase2 size - vpageShift) := by
  have hsize := Nat.le_of_dvd (Nat.zero_lt_of_lt hlt) hdvd
  have hfit := size_le_order hlt
  rw [vpageSize, ← pow_add] at hfit ⊢
  exact pow_dvd_pow 2 ((Nat.pow_le_pow_iff_right (by omega)).mp (le_trans hsize hfit))

end Skp.Mm
