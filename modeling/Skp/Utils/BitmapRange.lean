import Skp.Utils.BitmapScan

/-! # Setting and clearing a range

`__bitmap_set` and `__bitmap_clear` are one loop over the words, with the operation on a word and
its mask as a parameter. The loop keeps account of the words it writes. -/
namespace Skp.Utils
set_option autoImplicit false
open Skp.Foundations

/-- The map, and the words that have been written, the last one first. -/
structure RangeState where
  map : ℕ → BitVec 64
  written : List ℕ

/-- `*p = op(*p, mask)` -/
def RangeState.write (op : BitVec 64 → BitVec 64 → BitVec 64) (s : RangeState) (p : ℕ)
    (mask : BitVec 64) : RangeState where
  map := Function.update s.map p (op (s.map p) mask)
  written := p :: s.written

section Range
variable (op : BitVec 64 → BitVec 64 → BitVec 64)

/-- The rounds that fill a word, `n` at most. -/
def rangeLoop : ℕ → RangeState → ℕ → ℤ → ℤ → BitVec 64 → RangeState × ℕ × ℤ × BitVec 64
  | 0, s, p, len, _, mask => (s, p, len, mask)
  | n + 1, s, p, len, bits, mask =>
      if 0 ≤ len - bits then rangeLoop n (s.write op p mask) (p + 1) (len - bits) 64
        (BitVec.allOnes 64) else (s, p, len, mask)

/-- The bits of the last word. -/
def rangeTail (size : ℕ) : RangeState × ℕ × ℤ × BitVec 64 → RangeState
  | (s, p, len, mask) => if len ≠ 0 then s.write op p (mask &&& bitmapLastWordMask size) else s

def bitmapRange (map : ℕ → BitVec 64) (start : ℕ) (len : ℤ) : RangeState :=
  let size := ((start + len) % 2 ^ 32).toNat
  rangeTail op size
    (rangeLoop op (len.toNat + 1) ⟨map, []⟩ (start / 64) len (64 - (start % 64 : ℕ))
      (bitmapFirstWordMask start))

end Range

/-- `__bitmap_set`, with the words it writes. -/
def bitmapSetWords (map : ℕ → BitVec 64) (start : ℕ) (len : ℤ) : RangeState :=
  bitmapRange (fun w mask => w ||| mask) map start len

/-- `__bitmap_clear` -/
def bitmapClearWords (map : ℕ → BitVec 64) (start : ℕ) (len : ℤ) : RangeState :=
  bitmapRange (fun w mask => w &&& ~~~mask) map start len

/-! ## What is written -/

variable {op : BitVec 64 → BitVec 64 → BitVec 64} {val : Bool} {s : RangeState}
    {map : ℕ → BitVec 64} {mask : BitVec 64}
  {p n i start len bits size lo hi : ℕ}

/-- The operation gives the bits of the mask the value `val`. -/
def Masks (op : BitVec 64 → BitVec 64 → BitVec 64) (val : Bool) : Prop :=
  ∀ w mask b, b < 64 → (op w mask).getLsbD b = if mask.getLsbD b then val else w.getLsbD b

theorem masks_or : Masks (fun w mask => w ||| mask) true := by
  intro w mask b _
  by_cases h : mask.getLsbD b = true <;> simp [h]

theorem masks_andNot : Masks (fun w mask => w &&& ~~~mask) false := by
  intro w mask b hb
  rw [BitVec.getLsbD_and, BitVec.getLsbD_not]
  cases mask.getLsbD b <;> simp [hb]

/-- From the map `map`, the bits from `lo` to `hi` have been given the value `val`, and only words
with one of them are written. -/
structure Ranged (val : Bool) (map : ℕ → BitVec 64) (lo hi : ℕ) (s : RangeState) : Prop where
  bits : ∀ i, bitAt s.map i = if lo ≤ i ∧ i < hi then val else bitAt map i
  words : ∀ q ∈ s.written, ∃ i, lo ≤ i ∧ i < hi ∧ i / 64 = q

theorem ranged_nil (val : Bool) (map : ℕ → BitVec 64) (lo : ℕ) : Ranged val map lo lo ⟨map, []⟩ where
  bits := by
    intro i
    rw [if_neg (by omega)]
  words := by
    intro q hq
    cases hq

/-- A word with the bits from `mid` to `hi` is written. -/
theorem Ranged.write {mid : ℕ} (h : Ranged val map lo mid s) (hop : Masks op val) (hmid : lo ≤ mid)
    (hlt : mid < hi)
    (hlow : p * 64 ≤ mid) (hhigh : hi ≤ p * 64 + 64)
    (hmask : ∀ b, b < 64 → mask.getLsbD b = decide (mid ≤ p * 64 + b ∧ p * 64 + b < hi)) :
    Ranged val map lo hi (s.write op p mask) where
  bits := by
    intro i
    have hmod : i % 64 < 64 := Nat.mod_lt _ (by omega)
    by_cases hword : i / 64 = p
    · have hpos : p * 64 + i % 64 = i := by omega
      have hbit : bitAt (s.write op p mask).map i = if mask.getLsbD (i % 64) then val else bitAt s.map i := by
        rw [bitAt, RangeState.write]
        simp only [hword, Function.update_self]
        rw [hop _ _ _ hmod, bitAt, hword]
      rw [hbit, h.bits, hmask _ hmod, hpos]
      by_cases hin : mid ≤ i ∧ i < hi
      · rw [if_pos (decide_eq_true hin), if_pos (by omega)]
      · rw [if_neg (by simpa using hin)]
        by_cases hbefore : lo ≤ i ∧ i < mid
        · rw [if_pos hbefore, if_pos (by omega)]
        · rw [if_neg hbefore, if_neg (by omega)]
    · have hsame : bitAt (s.write op p mask).map i = bitAt s.map i := by
        simp [bitAt, RangeState.write, hword]
      rw [hsame, h.bits]
      by_cases hbefore : lo ≤ i ∧ i < mid
      · rw [if_pos hbefore, if_pos (by omega)]
      · rw [if_neg hbefore, if_neg (by omega)]
  words := by
    intro q hq
    rcases List.mem_cons.mp hq with rfl | hq
    · exact ⟨mid, hmid, hlt, by omega⟩
    · obtain ⟨i, hi⟩ := h.words q hq
      exact ⟨i, hi.1, by omega, hi.2.2⟩

/-- From the position `p * 64 + (64 - bits)` on, `len` bits are written. -/
theorem rangeTail_loop (hop : Masks op val) (hn : len < n) (hbits : 1 ≤ bits) (hbits' : bits ≤ 64)
    (h : Ranged val map lo (p * 64 + (64 - bits)) s) (hlo : lo ≤ p * 64 + (64 - bits))
    (hmask : ∀ b, b < 64 → mask.getLsbD b = decide (64 - bits ≤ b))
    (hsize : size % 64 = (p * 64 + (64 - bits) + len) % 64) :
    Ranged val map lo (p * 64 + (64 - bits) + len)
      (rangeTail op size (rangeLoop op n s p len bits mask)) := by
  induction n generalizing s p len bits mask with
  | zero => omega
  | succ n ih =>
    by_cases hfull : bits ≤ len
    · have hcond : (0 : ℤ) ≤ (len : ℤ) - bits := by omega
      have hrest : (len : ℤ) - bits = ((len - bits : ℕ) : ℤ) := by omega
      have hones : ∀ b, b < 64 → (BitVec.allOnes 64).getLsbD b = decide (64 - 64 ≤ b) := by
        intro b hb
        rw [BitVec.getLsbD_allOnes]
        apply decide_eq_decide.mpr
        omega
      have hwritten : Ranged val map lo ((p + 1) * 64 + (64 - 64)) (s.write op p mask) := by
        apply h.write hop hlo (by omega) (by omega) (by omega)
        intro b hb
        rw [hmask b hb]
        apply decide_eq_decide.mpr
        omega
      have hnext : Ranged val map lo ((p + 1) * 64 + (64 - 64) + (len - bits)) (rangeTail op size
          (rangeLoop op n (s.write op p mask) (p + 1) ((len - bits : ℕ) : ℤ) ((64 : ℕ) : ℤ)
            (BitVec.allOnes 64))) :=
        ih (by omega) (by omega) (by omega) hwritten (by omega) hones (by omega)
      have hend : (p + 1) * 64 + (64 - 64) + (len - bits) = p * 64 + (64 - bits) + len := by omega
      rw [rangeLoop, if_pos hcond, hrest]
      rwa [hend] at hnext
    · have hcond : ¬(0 : ℤ) ≤ (len : ℤ) - bits := by omega
      rw [rangeLoop, if_neg hcond, rangeTail]
      by_cases hlen : len = 0
      · subst hlen
        rw [if_neg (by simp)]
        exact h
      · have hne : (len : ℤ) ≠ 0 := by omega
        rw [if_pos hne]
        apply h.write hop hlo (by omega) (by omega) (by omega)
        intro b hb
        rw [BitVec.getLsbD_and, hmask b hb, bitmapLastWordMask, getLsbD_lowMask hb, ← Bool.decide_and]
        apply decide_eq_decide.mpr
        omega

theorem bitmapRange_ranged (hop : Masks op val) (map : ℕ → BitVec 64) (start len : ℕ)
    (hend : start + len < 2 ^ 32) :
    Ranged val map start (start + len) (bitmapRange op map start len) := by
  have hsize : (((start : ℤ) + len) % 2 ^ 32).toNat = start + len := by omega
  have hpos : start / 64 * 64 + (64 - (64 - start % 64)) = start := by omega
  have hbits : (64 : ℤ) - (start % 64 : ℕ) = ((64 - start % 64 : ℕ) : ℤ) := by omega
  have h : Ranged val map start (start / 64 * 64 + (64 - (64 - start % 64)) + len) (rangeTail op (start + len)
      (rangeLoop op (len + 1) ⟨map, []⟩ (start / 64) len ((64 - start % 64 : ℕ) : ℤ)
        (bitmapFirstWordMask start))) := by
    apply rangeTail_loop hop (Nat.lt_succ_self len) (by omega) (by omega)
    · rw [hpos]
      exact ranged_nil val map start
    · omega
    · intro b hb
      rw [getLsbD_bitmapFirstWordMask hb]
      apply decide_eq_decide.mpr
      omega
    · omega
  rw [hpos] at h
  rw [bitmapRange]
  simp only [hsize, hbits, Int.toNat_natCast]
  exact h

/-- The set and the clear change the bits of the range, and write words with one of them only. -/
theorem bitmapSet_clear (map : ℕ → BitVec 64) (start len : ℕ) (hend : start + len < 2 ^ 31) :
    ((∀ i, bitAt (bitmapSetWords map start len).map i = if start ≤ i ∧ i < start + len then true
      else bitAt map i) ∧
        ∀ q ∈ (bitmapSetWords map start len).written, ∃ i, start ≤ i ∧ i < start + len ∧ i / 64 = q) ∧
      (∀ i, bitAt (bitmapClearWords map start len).map i = if start ≤ i ∧ i < start + len then false
        else bitAt map i) ∧
        ∀ q ∈ (bitmapClearWords map start len).written, ∃ i, start ≤ i ∧ i < start + len ∧ i / 64 = q := by
  have hset := bitmapRange_ranged masks_or map start len (by omega)
  have hclear := bitmapRange_ranged masks_andNot map start len (by omega)
  exact ⟨⟨hset.bits, hset.words⟩, hclear.bits, hclear.words⟩

theorem bitmapSet_clear_across : (60 : ℕ) + 10 < 2 ^ 31 ∧
    ((∀ i, bitAt (bitmapSetWords (fun _ => 0) 60 10).map i = if 60 ≤ i ∧ i < 60 + 10 then true
      else bitAt (fun _ => 0) i) ∧
        ∀ q ∈ (bitmapSetWords (fun _ => 0) 60 10).written, ∃ i, 60 ≤ i ∧ i < 60 + 10 ∧ i / 64 = q) ∧
      (∀ i, bitAt (bitmapClearWords (fun _ => 0) 60 10).map i = if 60 ≤ i ∧ i < 60 + 10 then false
        else bitAt (fun _ => 0) i) ∧
        ∀ q ∈ (bitmapClearWords (fun _ => 0) 60 10).written, ∃ i, 60 ≤ i ∧ i < 60 + 10 ∧ i / 64 = q :=
  ⟨by decide, bitmapSet_clear (fun _ => 0) 60 10 (by decide)⟩

end Skp.Utils
