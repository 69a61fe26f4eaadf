import Skp.Algorithm.HeapSortModel
import Skp.Foundations.HeapOrder

/-! # Heap sort

Every swap function exchanges two elements, and then the loops are a heap sort of the elements. With
no element the start values are conversions of `-size` to int, which are negative unless the element
is too large. -/
namespace Skp.Algorithm
set_option autoImplicit false
open Skp.Foundations

variable {m m' : Bytes} {cmp : CmpFunc} {swap : SwapFunc} {a b i j k len size num e r lo fuel : ℕ}

/-! ## The swaps -/

/-- Two ranges of `k` bytes with each other's bytes. -/
def swapRanges (m : Bytes) (a b k : ℕ) : Bytes := fun i =>
  if a ≤ i ∧ i < a + k then m (b + (i - a)) else if b ≤ i ∧ i < b + k then m (a + (i - b)) else m i

theorem swapWord_eq (hab : a + k ≤ b ∨ b + k ≤ a) (ha : a + k ≤ len) (hb : b + k ≤ len) :
    swapWord len k m a b = some (swapRanges m a b k) := by
  have hina : (0 : ℤ) ≤ a ∧ (a : ℤ) + k ≤ len := by omega
  have hinb : (0 : ℤ) ≤ b ∧ (b : ℤ) + k ≤ len := by omega
  have hstorea (bs : List UInt8) (hbs : bs.length = k) (m : Bytes) : storeBytes len m a bs =
      some (writeBytes m a bs) := by
    rw [storeBytes, hbs, if_pos hina, Int.toNat_natCast]
  have hstoreb (bs : List UInt8) (hbs : bs.length = k) (m : Bytes) : storeBytes len m b bs =
      some (writeBytes m b bs) := by
    rw [storeBytes, hbs, if_pos hinb, Int.toNat_natCast]
  simp only [swapWord, loadBytes, if_pos hina, if_pos hinb, Int.toNat_natCast, Option.bind_eq_bind,
    Option.bind_some]
  rw [hstorea _ length_readBytes, Option.bind_some, hstoreb _ length_readBytes]
  congr 1
  funext i
  simp only [swapRanges]
  by_cases hb' : b ≤ i ∧ i < b + k
  · have hna : ¬(a ≤ i ∧ i < a + k) := by omega
    obtain ⟨d, rfl⟩ := Nat.exists_eq_add_of_le hb'.1
    have hd : d < (readBytes m a k).length := by
      rw [length_readBytes]
      omega
    rw [if_neg hna, if_pos hb', writeBytes_apply hd]
    simp [readBytes]
  · have hout : i < b ∨ b + (readBytes m a k).length ≤ i := by
      rw [length_readBytes]
      omega
    rw [writeBytes_of_outside hout, if_neg hb']
    by_cases ha' : a ≤ i ∧ i < a + k
    · obtain ⟨d, rfl⟩ := Nat.exists_eq_add_of_le ha'.1
      have hd : d < (readBytes m b k).length := by
        rw [length_readBytes]
        omega
      rw [if_pos ha', writeBytes_apply hd]
      simp [readBytes]
    · have hout' : i < a ∨ a + (readBytes m b k).length ≤ i := by
        rw [length_readBytes]
        omega
      rw [if_neg ha', writeBytes_of_outside hout']

theorem genericSwapLoop_eq (hab : a + k ≤ b ∨ b + k ≤ a) (ha : a + k ≤ len) (hb : b + k ≤ len) :
    genericSwapLoop len k m a b = some (swapRanges m a b k) := by
  induction k generalizing m a b with
  | zero =>
    rw [genericSwapLoop]
    congr 1
    funext i
    have hna : ¬(a ≤ i ∧ i < a + 0) := by omega
    have hnb : ¬(b ≤ i ∧ i < b + 0) := by omega
    simp only [swapRanges, if_neg hna, if_neg hnb]
  | succ k ih =>
    rw [genericSwapLoop, swapWord_eq (by omega) (by omega) (by omega), Option.bind_some]
    have hnext := ih (m := swapRanges m a b 1) (a := a + 1) (b := b + 1) (by omega) (by omega) (by omega)
    rw [Nat.cast_succ, Nat.cast_succ] at hnext
    rw [hnext]
    congr 1
    funext i
    simp only [swapRanges]
    split_ifs <;> first | rfl | omega | (congr 1; omega)

theorem elem_swapRanges (hij : i ≠ j) :
    elemAt size (swapRanges m (i * size) (j * size) size) = elemAt size m ∘ Equiv.swap i j := by
  funext k
  rw [Function.comp_apply, elemAt, elemAt]
  apply readBytes_congr
  intro d hd
  have hapart := elems_apart hij size
  rw [swapRanges]
  by_cases hki : k = i
  · subst hki
    have hin : k * size ≤ k * size + d ∧ k * size + d < k * size + size := by omega
    rw [if_pos hin, Equiv.swap_apply_left, Nat.add_sub_cancel_left]
  · have hi := elems_apart hki size
    have hout : ¬(i * size ≤ k * size + d ∧ k * size + d < i * size + size) := by omega
    rw [if_neg hout]
    by_cases hkj : k = j
    · subst hkj
      have hin : k * size ≤ k * size + d ∧ k * size + d < k * size + size := by omega
      rw [if_pos hin, Equiv.swap_apply_right, Nat.add_sub_cancel_left]
    · have hj := elems_apart hkj size
      have hout' : ¬(j * size ≤ k * size + d ∧ k * size + d < j * size + size) := by omega
      rw [if_neg hout', Equiv.swap_apply_of_ne_of_ne hki hkj]

/-- The swap function exchanges two elements. -/
def Swaps (swap : SwapFunc) (num size : ℕ) : Prop :=
  ∀ m i j, i < num → j < num → i ≠ j →
    swap (num * size) m (i * size : ℕ) (j * size : ℕ) (toInt size) =
      some (swapRanges m (i * size) (j * size) size)

/-- The swap functions that apply to an array, as far as they are told apart. -/
inductive Applies (base size : ℕ) : Option SwapFunc → Prop where
  | unset : Applies base size none
  | generic : Applies base size (some genericSwap)
  | u32 : size = 4 → alignmentOk base 4 = true → Applies base size (some u32Swap)
  | u64 : size = 8 → alignmentOk base 8 = true → Applies base size (some u64Swap)

theorem toInt_natCast {x : ℕ} (hx : x < 2 ^ 31) : toInt x = x := by
  rw [toInt, Int.bmod_def]
  omega

theorem toSize_natCast {x : ℕ} (hx : x < 2 ^ 64) : toSize x = x := by
  rw [toSize]
  omega

theorem swaps_u32 (num : ℕ) : Swaps u32Swap num 4 := fun _ _ _ hi hj hij =>
  swapWord_eq (elems_apart hij 4) (elem_fits hi 4) (elem_fits hj 4)

theorem swaps_u64 (num : ℕ) : Swaps u64Swap num 8 := fun _ _ _ hi hj hij =>
  swapWord_eq (elems_apart hij 8) (elem_fits hi 8) (elem_fits hj 8)

theorem swaps_generic (num : ℕ) (hsize : 1 ≤ size) (hlt : size < 2 ^ 31) : Swaps genericSwap num size := by
  intro m i j hi hj hij
  have hrounds : max 1 (size : ℤ).toNat = size := by omega
  rw [genericSwap, toInt_natCast hlt, hrounds]
  exact genericSwapLoop_eq (elems_apart hij size) (elem_fits hi size) (elem_fits hj size)

theorem swaps_choose {base : ℕ} {swapFunc : Option SwapFunc} (h : Applies base size swapFunc)
    (num : ℕ) (hsize : 1 ≤ size)
    (hlt : size < 2 ^ 31) : Swaps (chooseSwap base size swapFunc) num size := by
  cases h with
  | unset =>
    rw [chooseSwap]
    split_ifs with h4 h8
    · rw [h4.1]
      exact swaps_u32 num
    · rw [h8.1]
      exact swaps_u64 num
    · exact swaps_generic num hsize hlt
  | generic => exact swaps_generic num hsize hlt
  | u32 h4 _ =>
    subst h4
    exact swaps_u32 num
  | u64 h8 _ =>
    subst h8
    exact swaps_u64 num

/-! ## One round -/

def CmpFunc.le (cmp : CmpFunc) (x y : List UInt8) : Prop := cmp.run x y ≤ 0

theorem CmpFunc.le_refl (cmp : CmpFunc) (x : List UInt8) : cmp.le x x := by
  have hflip := cmp.flip x x
  rw [CmpFunc.le]
  by_contra hlt
  exact hlt (hflip.mpr (by omega))

theorem compareAt_elem (hi : i < num) (hj : j < num) :
    compareAt cmp (num * size) size m (i * size : ℕ) (j * size : ℕ) =
      some (cmp.run (elemAt size m i) (elemAt size m j)) := by
  have hini : (0 : ℤ) ≤ (i * size : ℕ) ∧ ((i * size : ℕ) : ℤ) + size ≤ (num * size : ℕ) := by
    have hfits := elem_fits hi size
    omega
  have hinj : (0 : ℤ) ≤ (j * size : ℕ) ∧ ((j * size : ℕ) : ℤ) + size ≤ (num * size : ℕ) := by
    have hfits := elem_fits hj size
    omega
  simp only [compareAt, loadBytes, if_pos hini, if_pos hinj, Option.bind_eq_bind, Option.bind_some,
    Int.toNat_natCast, elemAt]

/-- The child that the element at `r` is compared with. -/
def greaterChild (cmp : CmpFunc) (size e : ℕ) (m : Bytes) (r : ℕ) : ℕ :=
  if 2 * r + 2 < e ∧ cmp.run (elemAt size m (2 * r + 1)) (elemAt size m (2 * r + 2)) < 0 then
    2 * r + 2 else 2 * r + 1

theorem pickChild_elem (hfit : num * size ≤ 2 ^ 30) (he : e ≤ num) (hsize : 1 ≤ size)
    (hmore : 2 * r + 1 < e) :
    pickChild cmp (num * size) size (e * size : ℕ) m ((2 * r + 1) * size : ℕ) =
      some ((greaterChild cmp size e m r * size : ℕ) : ℤ) := by
  have hlt : (2 * r + 1) * size + size ≤ e * size := elem_fits hmore size
  have hele : e * size ≤ num * size := Nat.mul_le_mul_right size he
  have hdiff : ((e * size : ℕ) : ℤ) - size = (e * size - size : ℕ) := by omega
  have hnext : (((2 * r + 1) * size : ℕ) : ℤ) + size = ((2 * r + 2) * size : ℕ) := by
    push_cast
    ring
  have hsum : (2 * r + 2) * size = (2 * r + 1) * size + size := by ring
  rw [pickChild, hdiff, hnext, toSize_natCast (by omega), toSize_natCast (by omega),
    toInt_natCast (by omega), greaterChild]
  by_cases hboth : 2 * r + 2 < e
  · have hfits : (2 * r + 2) * size + size ≤ e * size := elem_fits hboth size
    have hcond : (((2 * r + 1) * size : ℕ) : ℤ) < (e * size - size : ℕ) := by omega
    rw [if_pos hcond, compareAt_elem (by omega) (by omega), Option.map_some]
    by_cases hless : cmp.run (elemAt size m (2 * r + 1)) (elemAt size m (2 * r + 2)) < 0
    · rw [if_pos hless, if_pos ⟨hboth, hless⟩]
    · rw [if_neg hless, if_neg fun h => hless h.2]
  · have hge : e * size ≤ (2 * r + 2) * size := Nat.mul_le_mul_right size (Nat.not_lt.mp hboth)
    have hcond : ¬(((2 * r + 1) * size : ℕ) : ℤ) < (e * size - size : ℕ) := by omega
    rw [if_neg hcond, if_neg (fun h => hboth h.1)]

theorem siftLoop_succ (cmp : CmpFunc) (swap : SwapFunc) (fuel : ℕ) (m : Bytes)
    (hfit : num * size ≤ 2 ^ 30) (he : e ≤ num) (hr : r < num)
    (hsize : 1 ≤ size) :
    siftLoop cmp swap (num * size) size (e * size : ℕ) (fuel + 1) m (r * size : ℕ) =
      if 2 * r + 1 < e then
        if 0 ≤ cmp.run (elemAt size m r) (elemAt size m (greaterChild cmp size e m r)) then some m
        else (swap (num * size) m (r * size : ℕ) (greaterChild cmp size e m r * size : ℕ)
          (toInt size)).bind fun m' =>
          siftLoop cmp swap (num * size) size (e * size : ℕ) fuel m' (greaterChild cmp size e m r * size : ℕ)
      else some m := by
  have hrlt := elem_fits hr size
  have hele : e * size ≤ num * size := Nat.mul_le_mul_right size he
  have hdouble : toInt ((r * size : ℕ) * 2) = (2 * r * size : ℕ) := by
    have hval : ((r * size : ℕ) : ℤ) * 2 = (2 * r * size : ℕ) := by
      push_cast
      ring
    have hmul : 2 * r * size = 2 * (r * size) := Nat.mul_assoc _ _ _
    rw [hval, toInt_natCast (by omega)]
  have hsum : ((2 * r * size : ℕ) : ℤ) + size = ((2 * r + 1) * size : ℕ) := by
    push_cast
    ring
  have hmul : (2 * r + 1) * size = 2 * (r * size) + size := by ring
  rw [siftLoop, hdouble, hsum, toSize_natCast (by omega), toSize_natCast (by omega)]
  by_cases hmore : 2 * r + 1 < e
  · have hlt : (2 * r + 1) * size + size ≤ e * size := elem_fits hmore size
    have hcond : (((2 * r + 1) * size : ℕ) : ℤ) < (e * size : ℕ) := by omega
    have hchild : greaterChild cmp size e m r < num := by
      rw [greaterChild]
      split_ifs <;> omega
    rw [if_pos hcond, if_pos hmore, toInt_natCast (by omega), pickChild_elem hfit he hsize hmore]
    simp only [Option.bind_eq_bind, Option.bind_some, compareAt_elem hr hchild]
  · have hge : e * size ≤ (2 * r + 1) * size := Nat.mul_le_mul_right size (Nat.not_lt.mp hmore)
    have hcond : ¬(((2 * r + 1) * size : ℕ) : ℤ) < (e * size : ℕ) := by omega
    rw [if_neg hcond, if_neg hmore]

/-! ## The heap -/

theorem greaterChild_spec (cmp : CmpFunc) (size : ℕ) (m : Bytes) (hmore : 2 * r + 1 < e) :
    IsChild r (greaterChild cmp size e m r) ∧ greaterChild cmp size e m r < e ∧
      ∀ c, IsChild r c → c < e → cmp.le (elemAt size m c) (elemAt size m (greaterChild cmp size e m r)) := by
  rw [greaterChild]
  by_cases hsecond : 2 * r + 2 < e ∧ cmp.run (elemAt size m (2 * r + 1)) (elemAt size m (2 * r + 2)) < 0
  · rw [if_pos hsecond]
    refine ⟨Or.inr rfl, hsecond.1, ?_⟩
    rintro c (rfl | rfl) _
    · exact hsecond.2.le
    · exact cmp.le_refl _
  · rw [if_neg hsecond]
    refine ⟨Or.inl rfl, hmore, ?_⟩
    rintro c (rfl | rfl) hc
    · exact cmp.le_refl _
    · have hnot : ¬cmp.run (elemAt size m (2 * r + 1)) (elemAt size m (2 * r + 2)) < 0 :=
        fun hless => hsecond ⟨hc, hless⟩
      exact (cmp.flip _ _).mpr (Int.not_lt.mp hnot)

theorem siftLoop_ok (lo r fuel : ℕ) (hfit : num * size ≤ 2 ^ 30) (he : e ≤ num) (hsize : 1 ≤ size)
    (hr : r < e) (hlo : lo ≤ r)
    (hfuel : e ≤ r + fuel) (hheap : HeapBut cmp.le (elemAt size m) lo e r) :
    ∃ m',
      (∀ swap, Swaps swap num size →
      siftLoop cmp swap (num * size) size (e * size : ℕ) fuel m (r * size : ℕ) = some m') ∧
      HeapFrom cmp.le (elemAt size m') lo e ∧ Rearranged e (elemAt size m) (elemAt size m') := by
  induction fuel generalizing m r with
  | zero => omega
  | succ fuel ih =>
    by_cases hmore : 2 * r + 1 < e
    · obtain ⟨c, hceq⟩ : ∃ c, greaterChild cmp size e m r = c := ⟨_, rfl⟩
      obtain ⟨hchild, hc, hmax⟩ := greaterChild_spec cmp size m hmore
      rw [hceq] at hchild hc hmax
      have hround (swap : SwapFunc) := siftLoop_succ cmp swap fuel m hfit he (hr.trans_le he) hsize
      simp only [hceq, if_pos hmore] at hround
      by_cases hstop : 0 ≤ cmp.run (elemAt size m r) (elemAt size m c)
      · refine ⟨m, fun swap _ => ?_, ?_, Rearranged.refl _ _⟩
        · rw [hround, if_pos hstop]
        · apply hheap.stop
          intro c' hc' hlt
          exact cmp.trans _ _ _ (hmax c' hc' hlt) ((cmp.flip _ _).mpr hstop)
      · have hlt : r < c := by
          rcases hchild with rfl | rfl <;> omega
        have hdown := hheap.down hlo hchild hc (not_le.mp hstop).le hmax
        rw [← elem_swapRanges hlt.ne] at hdown
        obtain ⟨m', hrun, hfrom, hperm⟩ := ih c hc (hlo.trans hlt.le) (by omega) hdown
        refine ⟨m', fun swap hswap => ?_, hfrom, ?_⟩
        · rw [hround, if_neg hstop, hswap m r c (by omega) (by omega) hlt.ne, Option.bind_some]
          exact hrun swap hswap
        · rw [elem_swapRanges hlt.ne] at hperm
          exact (rearranged_swap _ hr hc).trans hperm
    · refine ⟨m, fun swap _ => ?_, ?_, Rearranged.refl _ _⟩
      · rw [siftLoop_succ _ _ _ _ hfit he (by omega) hsize, if_neg hmore]
      · apply hheap.stop
        rintro c (rfl | rfl) hc
        · exact absurd hc hmore
        · omega

theorem toInt_of_range {x : ℤ} (hlow : -2 ^ 31 ≤ x) (hhigh : x < 2 ^ 31) : toInt x = x := by
  rw [toInt, Int.bmod_def]
  omega

theorem toInt_toSize {x : ℤ} (hlow : -2 ^ 31 ≤ x) (hhigh : x < 2 ^ 31) : toInt (toSize x) = x := by
  rw [toInt, toSize, Int.bmod_def]
  omega

theorem heapifyLoop_ok (cmp : CmpFunc) (m : Bytes) (k sift fuel : ℕ) (hfit : num * size ≤ 2 ^ 30)
    (hsize : 1 ≤ size) (hk : k ≤ num)
    (hfuel : k < fuel) (hsift : num ≤ sift) (hheap : HeapFrom cmp.le (elemAt size m) k num) :
    ∃ m', (∀ swap, Swaps swap num size →
        heapifyLoop cmp swap (num * size) size (num * size : ℕ) sift fuel m
          ((k * size : ℕ) - size) = some m') ∧
      HeapFrom cmp.le (elemAt size m') 0 num ∧ Rearranged num (elemAt size m) (elemAt size m') := by
  induction k generalizing fuel m with
  | zero =>
    obtain ⟨fuel, rfl⟩ := Nat.exists_eq_add_of_lt hfuel
    have hdone : ¬(0 : ℤ) ≤ ((0 * size : ℕ) : ℤ) - size := by omega
    refine ⟨m, fun swap _ => ?_, hheap, Rearranged.refl _ _⟩
    rw [heapifyLoop, if_neg hdone]
  | succ k ih =>
    obtain ⟨fuel, rfl⟩ := Nat.exists_eq_add_of_le' (Nat.one_le_of_lt hfuel)
    have hat : (((k + 1) * size : ℕ) : ℤ) - size = (k * size : ℕ) := by
      push_cast
      ring
    have hfits := elem_fits hk size
    have hlt : toInt ((k * size : ℕ) - size) = (k * size : ℕ) - size := toInt_of_range (by omega) (by omega)
    obtain ⟨m₁, hrun, hfrom, hperm⟩ :=
      siftLoop_ok k k sift hfit (le_refl num) hsize hk (le_refl k) (by omega) hheap.but
    obtain ⟨m', hrest, hfinal, hperm'⟩ := ih m₁ fuel (by omega) (by omega) hfrom
    refine ⟨m', fun swap hswap => ?_, hfinal, hperm.trans hperm'⟩
    rw [heapifyLoop, hat, if_pos (Int.natCast_nonneg _), hrun swap hswap, Option.bind_some, hlt]
    exact hrest swap hswap

theorem sortLoop_ok (cmp : CmpFunc) (m : Bytes) (e sift fuel : ℕ) (hfit : num * size ≤ 2 ^ 30)
    (hsize : 1 ≤ size) (he : e < num)
    (hfuel : e < fuel) (hsift : num ≤ sift) (hheap : HeapFrom cmp.le (elemAt size m) 0 (e + 1))
    (htail : SortedTail cmp.le (elemAt size m) num (e + 1)) :
    ∃ m',
      (∀ swap, Swaps swap num size →
      sortLoop cmp swap (num * size) size sift fuel m (e * size : ℕ) = some m') ∧
      SortedTail cmp.le (elemAt size m') num 1 ∧ Rearranged num (elemAt size m) (elemAt size m') := by
  induction e generalizing fuel m with
  | zero =>
    obtain ⟨fuel, rfl⟩ := Nat.exists_eq_add_of_lt hfuel
    refine ⟨m, fun swap _ => ?_, htail, Rearranged.refl _ _⟩
    rw [sortLoop, Nat.zero_mul, Nat.cast_zero, if_neg (lt_irrefl _)]
  | succ e ih =>
    obtain ⟨fuel, rfl⟩ := Nat.exists_eq_add_of_le' (Nat.one_le_of_lt hfuel)
    have hpos : (0 : ℤ) < ((e + 1) * size : ℕ) := by
      exact_mod_cast Nat.mul_pos (Nat.succ_pos e) hsize
    have hfits := elem_fits he size
    have hnext : (((e + 1) * size : ℕ) : ℤ) - size = (e * size : ℕ) := by
      push_cast
      ring
    have hlt : toInt ((e * size : ℕ) : ℤ) = (e * size : ℕ) := by
      have hmul : (e + 1) * size = e * size + size := by ring
      exact toInt_natCast (by omega)
    have hne : 0 ≠ e + 1 := by omega
    have hgrow := htail.grow cmp.le_refl cmp.trans hheap
    have hshrink := hheap.shrink
    have hmove := rearranged_swap (elemAt size m) (Nat.lt_of_le_of_lt (Nat.zero_le _) he) he
    rw [← elem_swapRanges hne] at hgrow hshrink hmove
    obtain ⟨m₁, hrun, hfrom, hperm⟩ :=
      siftLoop_ok 0 0 sift hfit he.le hsize (Nat.succ_pos e) (le_refl 0) (by omega) hshrink.but
    obtain ⟨m', hrest, hfinal, hperm'⟩ := ih m₁ fuel (by omega) (by omega) hfrom (hgrow.rearranged hperm)
    refine ⟨m', fun swap hswap => ?_, hfinal, hmove.trans ((hperm.mono he.le).trans hperm')⟩
    have hexchange := hswap m 0 (e + 1) (by omega) he hne
    rw [Nat.zero_mul, Nat.cast_zero] at hexchange
    have hmend := hrun swap hswap
    rw [Nat.zero_mul, Nat.cast_zero] at hmend
    rw [sortLoop, if_pos hpos, hexchange, hnext, hlt]
    simp only [Option.bind_eq_bind, Option.bind_some]
    rw [hmend, Option.bind_some]
    exact hrest swap hswap

/-! ## The whole sort -/

def elems (num size : ℕ) (m : Bytes) : List (List UInt8) := (List.range num).map (elemAt size m)

/-- The sort ends with the elements in order, and with the same bytes for every swap function; a run
that returns has accessed bytes of the array only. -/
def Sorts (cmp : CmpFunc) (base num size : ℕ) (m : Bytes) : Prop :=
  ∃ m', (∀ swapFunc, Applies base size swapFunc →
    ∃ fuel, heapSort fuel cmp swapFunc base num size m = some m') ∧
    (elems num size m').Perm (elems num size m) ∧ (elems num size m').Pairwise cmp.le

theorem sorts_of_pos (cmp : CmpFunc) (base : ℕ) (m : Bytes) (hsize : 1 ≤ size)
    (hfit : num * size ≤ 2 ^ 30) (hpos : 1 ≤ num) :
    Sorts cmp base num size m := by
  obtain ⟨e, rfl⟩ := Nat.exists_eq_add_of_le' hpos
  have hone : size ≤ (e + 1) * size := Nat.le_mul_of_pos_left size (Nat.succ_pos e)
  have hhalf : (e + 1) / 2 * size ≤ (e + 1) * size := Nat.mul_le_mul_right size (Nat.div_le_self _ _)
  have hstart : ((((e + 1) / 2 : ℕ) : ℤ) - 1) * size = ((e + 1) / 2 * size : ℕ) - size := by
    push_cast
    ring
  have hlast : (((e + 1) * size : ℕ) : ℤ) - size = (e * size : ℕ) := by
    push_cast
    ring
  have hfits := elem_fits (Nat.lt_succ_self e) size
  obtain ⟨m₁, hheapify, hheap, hperm⟩ :=
    heapifyLoop_ok cmp m ((e + 1) / 2) (e + 2) (e + 2) hfit hsize (Nat.div_le_self _ _) (by omega)
    (by omega) (heapFrom_of_half (by omega))
  obtain ⟨m', hsort, htail, hperm'⟩ :=
    sortLoop_ok cmp m₁ e (e + 2) (e + 2) hfit hsize (Nat.lt_succ_self e) (by omega) (by omega) hheap
    (sortedTail_all _ _)
  refine ⟨m', fun swapFunc happlies => ⟨e + 2, ?_⟩, (hperm.trans hperm').perm, htail.pairwise (le_refl 1)⟩
  have hswap := swaps_choose happlies (e + 1) hsize (by omega)
  have hn : toInt (toSize (((e + 1) * size : ℕ) : ℤ)) = ((e + 1) * size : ℕ) :=
    toInt_toSize (by omega) (by omega)
  have hi : toInt (toSize (((e + 1) / 2 * size : ℕ) - size)) = ((e + 1) / 2 * size : ℕ) - size :=
    toInt_toSize (by omega) (by omega)
  have hlt : toInt ((e * size : ℕ) : ℤ) = (e * size : ℕ) := toInt_natCast (by omega)
  simp only [heapSort, hstart, hi, ← Nat.cast_mul, hn, hlast, hlt]
  rw [hheapify _ hswap, Option.bind_some]
  exact hsort _ hswap

/-! ## No element -/

theorem toInt_toSize_eq (x : ℤ) : toInt (toSize x) = toInt x := by
  rw [toInt, toInt, toSize, Int.bmod_def, Int.bmod_def]
  omega

theorem toInt_neg_lt_iff (size : ℕ) :
    toInt (-(size : ℤ)) < 0 ↔ 1 ≤ size % 2 ^ 32 ∧ size % 2 ^ 32 ≤ 2 ^ 31 := by
  rw [toInt, Int.bmod_def]
  omega

theorem heapSort_empty (fuel : ℕ) (cmp : CmpFunc) (swapFunc : Option SwapFunc) (base size : ℕ) (m : Bytes) :
    heapSort fuel cmp swapFunc base 0 size m =
      (heapifyLoop cmp (chooseSwap base size swapFunc) 0 size 0 fuel fuel m
        (toInt (-(size : ℤ)))).bind fun m =>
        sortLoop cmp (chooseSwap base size swapFunc) 0 size fuel fuel m (toInt (-(size : ℤ))) := by
  have hi : (((0 / 2 : ℕ) : ℤ) - 1) * size = -(size : ℤ) := by
    push_cast
    ring
  have hn : toInt (toSize (((0 : ℕ) : ℤ) * size)) = 0 := by
    rw [Nat.cast_zero, zero_mul]
    rfl
  simp only [heapSort, hi, hn, toInt_toSize_eq, zero_sub, Nat.zero_mul]

theorem sorts_empty (cmp : CmpFunc) (base : ℕ) (m : Bytes) (hneg : toInt (-(size : ℤ)) < 0) :
    Sorts cmp base 0 size m := by
  refine ⟨m, fun swapFunc _ => ⟨1, ?_⟩, List.Perm.refl _, List.Pairwise.nil⟩
  rw [heapSort_empty, heapifyLoop, if_neg (not_le.mpr hneg), Option.bind_some, sortLoop,
    if_neg (not_lt.mpr hneg.le)]

theorem heapifyLoop_endless (cmp : CmpFunc) (swap : SwapFunc) (len sift fuel : ℕ) (m : Bytes)
    (hzero : toInt (-(size : ℤ)) = 0) :
    heapifyLoop cmp swap len size 0 sift fuel m 0 = none := by
  induction fuel generalizing m with
  | zero => rw [heapifyLoop]
  | succ fuel ih =>
    have hnext : toInt (0 - (size : ℤ)) = 0 := by rw [zero_sub, hzero]
    rw [heapifyLoop, if_pos (le_refl 0), hnext]
    cases siftLoop cmp swap len size 0 sift m 0 with
    | none => rfl
    | some m => exact ih m

theorem sortLoop_outside (cmp : CmpFunc) (sift fuel : ℕ) (m : Bytes) {i : ℤ} (hi : 0 < i) :
    sortLoop cmp genericSwap 0 size sift fuel m i = none := by
  cases fuel with
  | zero => rw [sortLoop]
  | succ fuel =>
    have hrounds : max 1 (toInt size).toNat = (max 1 (toInt size).toNat - 1) + 1 := by omega
    have hout : genericSwap 0 m 0 i (toInt size) = none := by
      rw [genericSwap, hrounds, genericSwapLoop]
      rfl
    rw [sortLoop, if_pos hi, hout]
    rfl

theorem not_sorts_empty (cmp : CmpFunc) (base : ℕ) (m : Bytes) (hneg : ¬toInt (-(size : ℤ)) < 0) :
    ¬Sorts cmp base 0 size m := by
  rintro ⟨m', hruns, -⟩
  obtain ⟨fuel, hrun⟩ := hruns (some genericSwap) .generic
  rw [heapSort_empty, chooseSwap] at hrun
  by_cases hzero : toInt (-(size : ℤ)) = 0
  · rw [hzero, heapifyLoop_endless cmp genericSwap 0 fuel fuel m hzero] at hrun
    cases hrun
  · have hpos : 0 < toInt (-(size : ℤ)) := by omega
    obtain ⟨m₁, -, hsort⟩ := Option.bind_eq_some_iff.mp hrun
    rw [sortLoop_outside cmp fuel fuel m₁ hpos] at hsort
    cases hsort

/-- The array is sorted, unless it is empty and `-size`, converted to int, is not negative. -/
theorem heapSort_iff (cmp : CmpFunc) (base num size : ℕ) (m : Bytes) (hsize : 1 ≤ size)
    (hfit : num * size ≤ 2 ^ 30) :
    Sorts cmp base num size m ↔ 1 ≤ num ∨ (1 ≤ size % 2 ^ 32 ∧ size % 2 ^ 32 ≤ 2 ^ 31) := by
  rw [← toInt_neg_lt_iff]
  constructor
  · intro hsorts
    by_cases hpos : 1 ≤ num
    · exact Or.inl hpos
    · obtain rfl : num = 0 := by omega
      right
      by_contra hneg
      exact not_sorts_empty cmp base m hneg hsorts
  · rintro (hpos | hneg)
    · exact sorts_of_pos cmp base m hsize hfit hpos
    · by_cases hpos : 1 ≤ num
      · exact sorts_of_pos cmp base m hsize hfit hpos
      · obtain rfl : num = 0 := by omega
        exact sorts_empty cmp base m hneg

/-- The comparison of the first bytes. -/
def firstByte : CmpFunc where
  run := fun x y => (x.headD 0).toNat - (y.headD 0).toNat
  flip := fun x y => by omega
  trans := fun x y z _ _ => by omega

theorem heapSort_iff_bytes : (1 ≤ 1 ∧ 3 * 1 ≤ 2 ^ 30) ∧
    (Sorts firstByte 0 3 1 (fun i => if i = 0 then 7 else 5) ↔ 1 ≤ 3 ∨
      (1 ≤ 1 % 2 ^ 32 ∧ 1 % 2 ^ 32 ≤ 2 ^ 31)) :=
  ⟨by decide, heapSort_iff firstByte 0 3 1 (fun i => if i = 0 then 7 else 5) (by decide) (by decide)⟩

/-- No element of 2^32 bytes: the first loop does not end. -/
theorem heapSort_empty_endless : 0 * 2 ^ 32 ≤ 2 ^ 30 ∧ ¬Sorts firstByte 0 0 (2 ^ 32) fun _ => 0 := by
  refine ⟨by norm_num, not_sorts_empty firstByte 0 _ ?_⟩
  rw [toInt_neg_lt_iff]
  norm_num

end Skp.Algorithm
