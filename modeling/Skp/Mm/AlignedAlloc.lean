import Skp.Foundations.CTypes
import Skp.Mm.UmallocRealloc

/-! # `aligned_alloc`

The macro rounds the size up to a multiple of the alignment, in whatever types its arguments have,
and calls `umalloc`. Nothing in the allocator is told about the alignment: it follows from the size,
which is a multiple, and from the way blocks are laid out. A mask of 32 bits cuts a size of 64 bits
off, and a size of 32 bits is cut off when the result is stored. -/
namespace Skp.Mm
set_option autoImplicit false
open Skp.Foundations

variable {ta ts : CType} {a : ta.Val} {size : ts.Val} {i j n : ℕ}

/-- What `_s` is in the end. -/
def roundedSize (ta ts : CType) (a : ta.Val) (size : ts.Val) : ts.Val :=
  let tc := ts.common ta
  tc.conv ts ((ts.conv tc size + ta.conv tc (a - 1)) &&& ta.conv tc (~~~(a - 1)))

/-- The size that the macro asks `umalloc` for. -/
def alignedSize (ta ts : CType) (a : ta.Val) (size : ts.Val) : ℕ :=
  (ts.conv .sizeT (roundedSize ta ts a size)).toNat

/-- How many low bits of the sum the mask and the variable have: a mask with a sign is extended with ones. -/
def keptBits (ta ts : CType) : ℕ := if ta.signed then ts.width else min ta.width ts.width

/-! ## The bits of the size -/

/-- The arguments of a call: `a` is 2^j and `size` is `n`, and their sum does not overflow. -/
structure AlignedArgs (a : ta.Val) (size : ts.Val) (j n : ℕ) : Prop where
  align : ta.value a = (2 ^ j : ℕ)
  size : ts.value size = n
  pos : 0 < n
  sum_lt : n + 2 ^ j - 1 < 2 ^ (ts.common ta).valueBits

theorem AlignedArgs.exp_lt (h : AlignedArgs a size j n) : j < ta.width := by
  have hlt := a.isLt
  rw [(CType.value_eq_natCast h.align).1] at hlt
  exact (Nat.pow_lt_pow_iff_right (by omega)).mp hlt

theorem AlignedArgs.toNat_pred (h : AlignedArgs a size j n) : (a - 1).toNat = 2 ^ j - 1 := by
  have hnat := (CType.value_eq_natCast h.align).1
  have hpos := Nat.two_pow_pos j
  have hone : (1 : ta.Val).toNat = 1 :=
    Nat.mod_eq_of_lt (Nat.one_lt_two_pow (Nat.ne_of_gt (Nat.zero_lt_of_lt h.exp_lt)))
  rw [BitVec.toNat_sub_of_le, hnat, hone]
  rw [BitVec.le_def, hone, hnat]
  exact hpos

/-- `_a - 1` is not negative. -/
theorem AlignedArgs.value_pred (h : AlignedArgs a size j n) : ta.value (a - 1) = (2 ^ j - 1 : ℕ) := by
  rw [CType.value]
  split
  next hs =>
    have hmsb := (CType.value_eq_natCast h.align).2 hs
    rw [BitVec.msb_eq_false_iff_two_mul_lt, (CType.value_eq_natCast h.align).1] at hmsb
    rw [BitVec.toInt_eq_toNat_of_lt, h.toNat_pred]
    rw [h.toNat_pred]
    omega
  next => rw [h.toNat_pred]

theorem AlignedArgs.toNat_sum (h : AlignedArgs a size j n) :
    (ts.conv (ts.common ta) size + ta.conv (ts.common ta) (a - 1)).toNat = n + (2 ^ j - 1) := by
  have hpos := Nat.two_pow_pos j
  have hle : 2 ^ (ts.common ta).valueBits ≤ 2 ^ (ts.common ta).width :=
    Nat.pow_le_pow_right (by omega) (CType.valueBits_le _)
  have hsum := h.sum_lt
  rw [BitVec.toNat_add, CType.toNat_conv h.size (CType.left_le_common ts ta),
    CType.toNat_conv h.value_pred (CType.right_le_common ts ta),
    Nat.mod_eq_of_lt (by omega)]

theorem AlignedArgs.getLsbD_mask (h : AlignedArgs a size j n) (hi : i < (ts.common ta).width) :
    (ta.conv (ts.common ta) (~~~(a - 1))).getLsbD i = if i < ta.width then decide (j ≤ i) else ta.signed := by
  rw [CType.getLsbD_conv _ hi]
  split
  next hlt =>
    rw [BitVec.getLsbD_not, ← BitVec.testBit_toNat, h.toNat_pred, Nat.testBit_two_pow_sub_one,
      decide_eq_true hlt, Bool.true_and]
    by_cases hji : j ≤ i
    · simp [hji, Nat.not_lt.mpr hji]
    · simp [hji, Nat.not_le.mp hji]
  next hge =>
    cases hs : ta.signed with
    | false => rfl
    | true =>
      have hwidth := ta.width_eq
      rw [BitVec.msb_not, (CType.value_eq_natCast h.value_pred).2 hs, Bool.true_and]
      simp
      omega

theorem AlignedArgs.getLsbD_rounded (h : AlignedArgs a size j n) (hi : i < ts.width) :
    (roundedSize ta ts a size).getLsbD i =
      (decide (i < keptBits ta ts) && (leastMultiple j n).testBit i) := by
  have hwide : i < (ts.common ta).width := lt_of_lt_of_le hi (CType.left_le_common ts ta)
  have hexp := h.exp_lt
  rw [roundedSize, CType.getLsbD_conv _ hi, if_pos hwide, BitVec.getLsbD_and, h.getLsbD_mask hwide,
    ← BitVec.testBit_toNat, h.toNat_sum,
    testBit_leastMultiple, Bool.and_comm, ← Bool.and_assoc]
  congr 1
  rw [keptBits]
  split_ifs with hlt hs hs
  · simp [hi]
  · simp [hi, hlt]
  · simp [hs, hi, show j ≤ i by omega]
  · simp [hs, hlt]

theorem AlignedArgs.testBit_size (h : AlignedArgs a size j n) (hi : i < ts.width) :
    (alignedSize ta ts a size).testBit i =
      (decide (i < keptBits ta ts) && (leastMultiple j n).testBit i) := by
  have hlt : i < CType.sizeT.width := lt_of_lt_of_le hi ts.width_le
  rw [alignedSize, BitVec.testBit_toNat, CType.getLsbD_conv _ hlt, if_pos hi, h.getLsbD_rounded hi]

theorem testBit_above (hi : ts.width ≤ i) (hset : (alignedSize ta ts a size).testBit i = true) :
    (roundedSize ta ts a size).getLsbD (ts.width - 1) = true := by
  rw [alignedSize, BitVec.testBit_toNat] at hset
  have hlt : i < CType.sizeT.width := by
    by_contra hge
    rw [BitVec.getLsbD_of_ge _ _ (by omega)] at hset
    cases hset
  rw [CType.getLsbD_conv _ hlt, if_neg (by omega), Bool.and_eq_true] at hset
  rw [← BitVec.msb_eq_getLsbD_last]
  exact hset.2

theorem AlignedArgs.dvd_size (h : AlignedArgs a size j n) : 2 ^ j ∣ alignedSize ta ts a size := by
  rw [two_pow_dvd_iff]
  intro i hi
  by_cases hlt : i < ts.width
  · rw [h.testBit_size hlt, testBit_leastMultiple, decide_eq_false (show ¬j ≤ i by omega),
      Bool.false_and, Bool.and_false]
  · by_contra hset
    have hwidth := ts.width_eq
    have hmsb := testBit_above (Nat.not_lt.mp hlt) (eq_true_of_ne_false hset)
    rw [h.getLsbD_rounded (by omega), testBit_leastMultiple,
      decide_eq_false (show ¬j ≤ ts.width - 1 by omega), Bool.false_and,
      Bool.and_false] at hmsb
    cases hmsb

theorem keptBits_le (ta ts : CType) : keptBits ta ts ≤ ts.width := by
  rw [keptBits]
  split <;> omega

theorem AlignedArgs.size_eq_zero_iff (h : AlignedArgs a size j n) :
    alignedSize ta ts a size = 0 ↔ 2 ^ keptBits ta ts ∣ leastMultiple j n := by
  have hkept := keptBits_le ta ts
  rw [two_pow_dvd_iff]
  constructor
  · intro hzero i hi
    have hbit := h.testBit_size (i := i) (by omega)
    rw [hzero, Nat.zero_testBit, decide_eq_true hi, Bool.true_and] at hbit
    exact hbit.symm
  · intro hbits
    have hclear (i : ℕ) (hi : i < ts.width) : (decide (i < keptBits ta ts) &&
        (leastMultiple j n).testBit i) = false := by
      by_cases hlt : i < keptBits ta ts
      · rw [hbits i hlt, Bool.and_false]
      · rw [decide_eq_false hlt, Bool.false_and]
    apply Nat.eq_of_testBit_eq
    intro i
    rw [Nat.zero_testBit]
    by_cases hi : i < ts.width
    · rw [h.testBit_size hi]
      exact hclear i hi
    · by_contra hset
      have hwidth := ts.width_eq
      have hmsb := testBit_above (Nat.not_lt.mp hi) (eq_true_of_ne_false hset)
      rw [h.getLsbD_rounded (by omega), hclear _ (by omega)] at hmsb
      cases hmsb

/-! ## The address -/

variable {T : Type} [DecidableEq T] {s s' : UmallocState T} {b : UserBlock} {act : UmallocAct T}
    {own : List UserBlock} {t : T}
  {p req : ℕ}

/-- The address of a block is a multiple of every power of two that its size was asked to be a multiple of. -/
theorem Owners.dvd_addr (h : Owners s) (hhand : Handing s t req act b)
    (hs : umallocStep s act = some s') (hdvd : 2 ^ j ∣ req)
    (hpos : 0 < req) (hlt : req < 2 ^ 64) : 2 ^ j ∣ b.addr := by
  cases hhand with
  | obj i o hi ho =>
    obtain ⟨hsize, hpage⟩ := dvd_class hi hdvd hpos hlt
    exact dvd_add (hpage.mul_right _) (hsize.mul_right _)
  | pages b hi hb =>
    obtain ⟨⟨halloc, -⟩, -⟩ := Option.ite_none_right_eq_some.mp hs
    obtain ⟨q, hq⟩ := (h.nodes.aligned halloc).1
    have horder := dvd_order hdvd (getIndex_none hlt hi).1
    rw [hb, Nat.add_sub_cancel_left] at horder
    show 2 ^ j ∣ vpageSize * b.1
    rw [hq, ← Nat.mul_assoc]
    exact horder.mul_right q

theorem eight_dvd_class : ∀ i, i ≤ umallocShiftHigh → 8 ∣ (classSizes i).size := by
  decide

theorem eight_dvd_addr (b : UserBlock) : 8 ∣ b.addr := by
  cases b with
  | obj i o =>
    have hsize := eight_dvd_class i.val (Nat.le_of_lt_succ i.isLt)
    exact dvd_add ((show 8 ∣ vpageSize by decide).mul_right _) (hsize.mul_right _)
  | pages b => exact (show 8 ∣ vpageSize by decide).mul_right _

/-- In every reachable state, whatever the call returns is a multiple of `a`. -/
def AlignedAllocRight (T : Type) [DecidableEq T] (a : ta.Val) (size : ts.Val) : Prop :=
  ∀ (acts : List (UmallocAct T)) (own : List UserBlock) (t : T) (s s' : UmallocState T) (p : ℕ),
    runActs umallocStep umallocInit acts = some s →
      UmallocRun own t s (alignedSize ta ts a size) p s' → p ≠ 0 → ta.value a ∣ p

theorem AlignedArgs.right (h : AlignedArgs a size j n)
    (hcond : 2 ^ j ≤ 8 ∨ ¬2 ^ keptBits ta ts ∣ leastMultiple j n) :
    AlignedAllocRight T a size := by
  intro acts own t s s' p hrun hcall hp
  have hinv := umallocInv_run umallocInv_init hrun
  obtain ⟨s₁, act, b, hinv₁, -, hhand, hs, rfl⟩ := hcall.handed hinv hp
  rw [h.align, Int.natCast_dvd_natCast]
  rcases hcond with hsmall | hkept
  · have hj : j ≤ 3 := (Nat.pow_le_pow_iff_right (by omega)).mp hsmall
    exact dvd_trans (pow_dvd_pow 2 hj) (eight_dvd_addr b)
  · have hpos : alignedSize ta ts a size ≠ 0 := fun hzero => hkept (h.size_eq_zero_iff.mp hzero)
    exact hinv₁.owners.dvd_addr hhand hs h.dvd_size (Nat.pos_of_ne_zero hpos) (BitVec.isLt _)

/-! ## What is cut off -/

/-- The second object of 8 bytes does not lie on a multiple of 16. -/
theorem second_call (t : T) : ∃ (acts : List (UmallocAct T)) (s s' : UmallocState T) (p : ℕ),
    runActs umallocStep umallocInit acts = some s ∧ UmallocRun [] t s 0 p s' ∧ p % 16 = 8 := by
  obtain ⟨acts, s, s₁, hrun, -, hlist, hs⟩ := first_object ⟨3, by decide⟩ (by decide) t
  obtain ⟨c, hc, hcache, -⟩ := umallocStep_slab hs
  have hsecond := pageObjs_second (c := umallocParams ⟨3, by decide⟩) (p := firstPage) (by decide)
  obtain ⟨rest, htail⟩ := List.head?_eq_some_iff.mp hsecond
  obtain ⟨c', hc', hnext⟩ := slabStep_alloc_cons (hlist.trans (pageObjs_eq_cons _ _))
  obtain rfl : c = c' := Option.some.inj (hc.symm.trans hc')
  have hlist₁ : allocList (umallocParams ⟨3, by decide⟩) (s₁.cache ⟨3, by decide⟩) t =
      (firstPage, 1) :: rest := by
    rw [hcache, Function.update_self, hnext (htail ▸ List.cons_ne_nil _ _), htail]
  obtain ⟨c₂, hc₂, -⟩ := slabStep_alloc_cons hlist₁
  obtain ⟨s₂, hs₂, -⟩ := umallocStep_of_slab (s := s₁) (fun p hp => by cases hp) hc₂
  have hhand : umallocHands s₁ t 0 (.slab ⟨3, by decide⟩ (.alloc t)) =
      some (.obj ⟨3, by decide⟩ (firstPage, 1)) := by
    rw [umallocHands, if_pos ⟨rfl, by decide⟩, handedObj_alloc, hlist₁]
    rfl
  refine ⟨acts ++ [.slab ⟨3, by decide⟩ (.alloc t)], s₁, s₂, _, ?_,
    .hand ⟨[], rfl, fun _ hact => by cases hact⟩ hhand hs₂, by decide⟩
  rw [runActs_append, hrun]
  exact runActs_cons_eq_some.mpr ⟨s₁, hs, rfl⟩

/-- The address is right unless all the bits of the least multiple are cut off. -/
theorem alignedAlloc_iff {T : Type} [DecidableEq T] [Inhabited T] {ta ts : CType} {a : ta.Val}
    {size : ts.Val} {j n : ℕ}
    (h : AlignedArgs a size j n) :
    AlignedAllocRight T a size ↔ 2 ^ j ≤ 8 ∨ ¬2 ^ keptBits ta ts ∣ leastMultiple j n := by
  refine ⟨fun hright => ?_, h.right⟩
  by_contra hcond
  obtain ⟨hlarge, hcut⟩ := not_or.mp hcond
  obtain ⟨acts, s, s', p, hrun, hcall, hp⟩ := second_call (default : T)
  rw [← h.size_eq_zero_iff.mpr (not_not.mp hcut)] at hcall
  have hdvd := hright acts [] default s s' p hrun hcall (by omega)
  rw [h.align, Int.natCast_dvd_natCast] at hdvd
  have hfour : 4 ≤ j := by
    by_contra hj
    exact hlarge (Nat.pow_le_pow_right (show 0 < 2 by omega) (show j ≤ 3 by omega))
  obtain ⟨q, hq⟩ := dvd_trans (pow_dvd_pow 2 hfour) hdvd
  omega

/-- A mask of 32 bits leaves a multiple of 256 of a size of 64 bits. -/
theorem alignedAlloc_iff_wide : @AlignedAllocRight .uint .sizeT Unit _ 256#32 6000000000#64 :=
  (alignedAlloc_iff ⟨by decide, by decide, by decide, by decide⟩ : _ ↔ 2 ^ 8 ≤ 8 ∨
    ¬2 ^ keptBits .uint .sizeT ∣ leastMultiple 8 6000000000).mpr
    (.inr (by decide))

/-- `aligned_alloc(256U, 4294967296UL)` asks for 0 bytes. -/
theorem aligned_cut_off : ∃ (acts : List (UmallocAct Unit)) (s s' : UmallocState Unit) (p : ℕ),
    runActs umallocStep umallocInit acts = some s ∧
      UmallocRun [] () s (alignedSize .uint .sizeT 256#32 4294967296#64) p s' ∧ p ≠ 0 ∧
      ¬256 ∣ p := by
  obtain ⟨acts, s, s', p, hrun, hcall, hp⟩ := second_call ()
  have hzero : alignedSize .uint .sizeT 256#32 4294967296#64 = 0 := by decide
  refine ⟨acts, s, s', p, hrun, hzero ▸ hcall, by omega, ?_⟩
  rintro ⟨q, hq⟩
  omega

end Skp.Mm
