import Mathlib

/-! # Cyclic redundancy checks, a bit at a time

A register `s` of `w` bits with feedback `p` takes the bits of a message, the first one first. The
register is linear in itself and the message; with the lowest bit of `p` set no nonzero register
comes to zero, so a burst of at most `w` wrong bits always shows. As a polynomial over the field of
two elements the register is the remainder of the message by `X ^ w + p`. -/
namespace Skp.Foundations
set_option autoImplicit false
open Polynomial

variable {w : ℕ} {p s t : BitVec w} {as bs : List Bool} {b : Bool}

def crcBit (p s : BitVec w) (b : Bool) : BitVec w := if s.msb ^^ b then s <<< 1 ^^^ p else s <<< 1

def crcBits (p s : BitVec w) (bs : List Bool) : BitVec w := bs.foldl (crcBit p) s

theorem crcBits_cons : crcBits p s (b :: bs) = crcBits p (crcBit p s b) bs := rfl

theorem crcBits_append : crcBits p s (as ++ bs) = crcBits p (crcBits p s as) bs := List.foldl_append

/-! ## Linearity -/

theorem crcBit_xor (p s t : BitVec w) (a b : Bool) :
    crcBit p (s ^^^ t) (a ^^ b) = crcBit p s a ^^^ crcBit p t b := by
  simp only [crcBit, BitVec.msb_xor, BitVec.shiftLeft_xor_distrib]
  cases s.msb <;> cases t.msb <;> cases a <;> cases b <;> simp <;> grind

theorem crcBits_xor (h : as.length = bs.length) :
    crcBits p (s ^^^ t) (List.zipWith Bool.xor as bs) = crcBits p s as ^^^ crcBits p t bs := by
  induction as generalizing s t bs with
  | nil =>
    cases bs with
    | nil => rfl
    | cons b bs => cases h
  | cons a as ih =>
    cases bs with
    | nil => cases h
    | cons b bs =>
      rw [List.zipWith_cons_cons, crcBits_cons, crcBit_xor]
      exact ih (Nat.succ.inj h)

theorem crcBits_replicate_xor (n : ℕ) :
    crcBits p (s ^^^ t) (List.replicate n false) = crcBits p s (List.replicate n false) ^^^
      crcBits p t (List.replicate n false) := by
  have h :=
    crcBits_xor (p := p) (s := s) (t := t) (rfl : (List.replicate n false).length =
      (List.replicate n false).length)
  rwa [List.zipWith_replicate, Nat.min_self] at h

/-! ## No nonzero register comes to zero -/

theorem crcBit_eq_zero (hp : p.getLsbD 0 = true) : crcBit p s false = 0#w ↔ s = 0#w := by
  constructor
  · intro h
    have hbit := congrArg (fun x : BitVec w => x.getLsbD 0) h
    cases hm : s.msb with
    | true => simp [crcBit, hm, hp] at hbit
    | false =>
      simp only [crcBit, hm, Bool.bne_false, Bool.false_eq_true, if_false] at h
      refine BitVec.eq_of_getLsbD_eq fun i hi => ?_
      by_cases htop : i + 1 = w
      · rw [BitVec.msb_eq_getLsbD_last] at hm
        rw [show i = w - 1 by omega, hm]
        simp
      · have hup := congrArg (fun x : BitVec w => x.getLsbD (i + 1)) h
        simpa [show i + 1 < w by omega, BitVec.getLsbD_eq_getElem hi] using hup
  · rintro rfl
    simp [crcBit]

theorem crcBits_replicate_eq_zero (hp : p.getLsbD 0 = true) (n : ℕ) :
    crcBits p s (List.replicate n false) = 0#w ↔ s = 0#w := by
  induction n generalizing s with
  | zero => exact Iff.rfl
  | succ n ih => rw [List.replicate_succ, crcBits_cons, ih, crcBit_eq_zero hp]

/-- A register whose highest bits are clear is only shifted. -/
theorem crcBits_shift {n : ℕ} (h : ∀ i, w ≤ i + n → s.getLsbD i = false) :
    crcBits p s (List.replicate n false) = s <<< n := by
  induction n generalizing s with
  | zero => simp [crcBits]
  | succ n ih =>
    have hmsb : s.msb = false := by
      rw [BitVec.msb_eq_getLsbD_last]
      exact h _ (by omega)
    have hstep : crcBit p s false = s <<< 1 := by simp [crcBit, hmsb]
    rw [List.replicate_succ, crcBits_cons, hstep, ih fun i hi => ?_, ← BitVec.shiftLeft_add, Nat.add_comm]
    rw [BitVec.getLsbD_shiftLeft]
    by_cases hzero : i < 1
    · simp [hzero]
    · rw [h (i - 1) (by omega), Bool.and_false]

/-! ## A few bits are the top of the register -/

/-- The bits at the top of a register, the first one highest. -/
def topBits (w : ℕ) : List Bool → BitVec w
  | [] => 0#w
  | b :: bs => (if b then BitVec.twoPow w (w - 1) else 0#w) ^^^ topBits w bs >>> 1

theorem topBits_low {i : ℕ} (hi : i + bs.length < w) : (topBits w bs).getLsbD i = false := by
  induction bs generalizing i with
  | nil => simp [topBits]
  | cons b bs ih =>
    rw [List.length_cons] at hi
    have hrest := ih (i := 1 + i) (by omega)
    cases b with
    | false => simp [topBits, hrest]
    | true =>
      simp [topBits, hrest, BitVec.getLsbD_twoPow]
      omega

theorem crcBit_top (hw : bs.length < w) (b : Bool) :
    crcBit p (s ^^^ topBits w (b :: bs)) false = crcBit p s b ^^^ topBits w bs := by
  have hfirst : crcBit p (if b then BitVec.twoPow w (w - 1) else 0#w) b = 0#w := by
    cases b with
    | false => simp [crcBit]
    | true =>
      have hmsb : (BitVec.twoPow w (w - 1)).msb = true := by
        rw [BitVec.msb_twoPow]
        simp
        omega
      refine BitVec.eq_of_getLsbD_eq fun i hi => ?_
      simp [crcBit, hmsb, BitVec.getLsbD_twoPow]
      omega
  have hrest : crcBit p (topBits w bs >>> 1) false = topBits w bs := by
    have hmsb : (topBits w bs >>> 1).msb = false := by
      rw [BitVec.msb_ushiftRight]
      simp
    rw [crcBit, hmsb]
    refine BitVec.eq_of_getLsbD_eq fun i hi => ?_
    cases i with
    | zero => simp [topBits_low (show 0 + bs.length < w by omega)]
    | succ i => simp [hi, Nat.add_comm 1 i]
  have hsplit := crcBit_xor p s ((if b then BitVec.twoPow w (w - 1) else 0#w) ^^^ topBits w bs >>> 1) b b
  have hboth := crcBit_xor p (if b then BitVec.twoPow w (w - 1) else 0#w) (topBits w bs >>> 1) b false
  rw [Bool.xor_self] at hsplit
  rw [Bool.xor_false, hfirst, hrest, BitVec.zero_xor] at hboth
  rw [topBits, hsplit, hboth]

theorem crcBits_top (hw : bs.length ≤ w) :
    crcBits p s bs = crcBits p (s ^^^ topBits w bs) (List.replicate bs.length false) := by
  induction bs generalizing s with
  | nil => simp [topBits]
  | cons b bs ih =>
    rw [crcBits_cons, ih (Nat.le_of_succ_le hw), List.length_cons, List.replicate_succ,
      crcBits_cons, crcBit_top hw]

theorem topBits_eq_zero (hw : bs.length ≤ w) (h : topBits w bs = 0#w) : ∀ b ∈ bs, b = false := by
  induction bs with
  | nil => simp
  | cons b bs ih =>
    rw [List.length_cons] at hw
    have htop := congrArg (fun x : BitVec w => x.getLsbD (w - 1)) h
    have hb : b = false := by
      cases b with
      | false => rfl
      | true => simp [topBits, show w - 1 < w by omega, show 1 + (w - 1) = w by omega] at htop
    subst hb
    have hzero : topBits w bs = 0#w := by
      refine BitVec.eq_of_getLsbD_eq fun i hi => ?_
      cases i with
      | zero => simp [topBits_low (show 0 + bs.length < w by omega)]
      | succ i =>
        have hup := congrArg (fun x : BitVec w => x.getLsbD i) h
        simpa [topBits, Nat.add_comm 1 i] using hup
    intro c hc
    rcases List.mem_cons.mp hc with rfl | hc
    · rfl
    · exact ih (by omega) hzero c hc

/-! ## Bursts -/

theorem zipWith_xor_self (bs : List Bool) : List.zipWith Bool.xor bs bs = List.replicate bs.length false := by
  induction bs with
  | nil => rfl
  | cons b bs ih => rw [List.zipWith_cons_cons, ih, Bool.xor_self, List.length_cons, List.replicate_succ]

theorem crcBits_injective (hp : p.getLsbD 0 = true) (h : crcBits p s bs = crcBits p t bs) : s = t := by
  have hxor := crcBits_xor (p := p) (s := s) (t := t) (rfl : bs.length = bs.length)
  rw [zipWith_xor_self, h, BitVec.xor_self] at hxor
  exact BitVec.xor_eq_zero_iff.mp ((crcBits_replicate_eq_zero hp _).mp hxor)

/-- Messages that differ within `w` bits in a row leave different registers. -/
theorem crcBits_burst (hp : p.getLsbD 0 = true) {u v v' z : List Bool} (hlen : v.length = v'.length)
    (hw : v.length ≤ w) (hne : v ≠ v') :
    crcBits p s (u ++ v ++ z) ≠ crcBits p s (u ++ v' ++ z) := by
  intro h
  simp only [crcBits_append] at h
  have hsame := crcBits_injective hp h
  have hxor := crcBits_xor (p := p) (s := crcBits p s u) (t := crcBits p s u) hlen
  rw [hsame, BitVec.xor_self, BitVec.xor_self, crcBits_top (by simp; omega), BitVec.zero_xor,
    crcBits_replicate_eq_zero hp] at hxor
  have hnone := topBits_eq_zero (by simp; omega) hxor
  refine hne (List.ext_getElem hlen fun i hi hi' => ?_)
  have hdiff := hnone _ (List.getElem_mem (l := List.zipWith Bool.xor v v') (n := i) (by simp; omega))
  rw [List.getElem_zipWith] at hdiff
  simpa using hdiff

/-! ## The remainder of a polynomial -/

def bitCoeff (b : Bool) : ZMod 2 := if b then 1 else 0

theorem bitCoeff_xor (a b : Bool) : bitCoeff (a ^^ b) = bitCoeff a + bitCoeff b := by
  cases a <;> cases b <;> decide

/-- The register as a polynomial, bit `i` before `X ^ i`. -/
noncomputable def registerPoly (s : BitVec w) : (ZMod 2)[X] :=
  ∑ i ∈ Finset.range w, C (bitCoeff (s.getLsbD i)) * X ^ i

/-- A message as a polynomial, its last bit before `1`. -/
noncomputable def messagePoly : List Bool → (ZMod 2)[X]
  | [] => 0
  | b :: bs => C (bitCoeff b) * X ^ bs.length + messagePoly bs

noncomputable def crcPoly (p : BitVec w) : (ZMod 2)[X] := X ^ w + registerPoly p

theorem coeff_registerPoly (s : BitVec w) (i : ℕ) : (registerPoly s).coeff i = bitCoeff (s.getLsbD i) := by
  simp only [registerPoly, finsetSum_coeff, coeff_C_mul_X_pow]
  rw [Finset.sum_ite_eq]
  by_cases hi : i < w
  · rw [if_pos (Finset.mem_range.mpr hi)]
  · rw [if_neg (by simpa using hi), BitVec.getLsbD_of_ge s i (not_lt.mp hi)]
    rfl

theorem degree_registerPoly (s : BitVec w) : (registerPoly s).degree < w := by
  rw [degree_lt_iff_coeff_zero]
  intro i hi
  rw [coeff_registerPoly, BitVec.getLsbD_of_ge s i hi]
  rfl

theorem crcPoly_monic (p : BitVec w) : (crcPoly p).Monic := monic_X_pow_add (degree_registerPoly p)

theorem degree_crcPoly (p : BitVec w) : (crcPoly p).degree = w := by
  rw [crcPoly, degree_add_eq_left_of_degree_lt (by rw [degree_X_pow]; exact degree_registerPoly p),
    degree_X_pow]

theorem bitCoeff_and (a b : Bool) : bitCoeff (a && b) = bitCoeff a * bitCoeff b := by
  cases a <;> cases b <;> decide

theorem getLsbD_crcBit (p s : BitVec w) (b : Bool) (i : ℕ) :
    (crcBit p s b).getLsbD i = ((s <<< 1).getLsbD i ^^ ((s.msb ^^ b) && p.getLsbD i)) := by
  rw [crcBit]
  cases s.msb ^^ b <;> simp

theorem registerPoly_crcBit (p s : BitVec w) (b : Bool) :
    X * registerPoly s + C (bitCoeff b) * X ^ w = registerPoly (crcBit p s b) +
      C (bitCoeff (s.msb ^^ b)) * crcPoly p := by
  ext i
  simp only [coeff_add, coeff_C_mul, coeff_X_pow, crcPoly, coeff_registerPoly, getLsbD_crcBit,
    bitCoeff_xor, bitCoeff_and]
  have hshift : (X * registerPoly s).coeff i = bitCoeff ((s <<< 1).getLsbD i) + if i = w then
      bitCoeff s.msb else 0 := by
    cases i with
    | zero =>
      rw [coeff_X_mul_zero]
      by_cases hw : 0 = w
      · subst hw
        simp [BitVec.msb, bitCoeff]
      · simp [hw, bitCoeff]
    | succ i =>
      rw [coeff_X_mul, coeff_registerPoly]
      by_cases hw : i + 1 = w
      · have hmsb : s.msb = s.getLsbD i := by rw [BitVec.msb_eq_getLsbD_last, show w - 1 = i by omega]
        simp [hw, hmsb, bitCoeff]
      · rw [if_neg hw, add_zero]
        by_cases hi : i + 1 < w
        · simp [hi, BitVec.getLsbD_eq_getElem (show i < w by omega)]
        · rw [BitVec.getLsbD_of_ge s i (by omega), BitVec.getLsbD_of_ge _ (i + 1) (not_lt.mp hi)]
  -- the feedback is added twice
  have htwice := CharTwo.add_self_eq_zero ((bitCoeff s.msb + bitCoeff b) * bitCoeff (p.getLsbD i))
  rw [hshift]
  split
  · linear_combination -htwice
  · linear_combination -htwice

theorem registerPoly_crcBits (p s : BitVec w) (bs : List Bool) :
    ∃ q, X ^ bs.length * registerPoly s + X ^ w * messagePoly bs = registerPoly (crcBits p s bs) +
      crcPoly p * q := by
  induction bs generalizing s with
  | nil => exact ⟨0, by simp [messagePoly, crcBits]⟩
  | cons b bs ih =>
    obtain ⟨q, hq⟩ := ih (crcBit p s b)
    refine ⟨q + X ^ bs.length * C (bitCoeff (s.msb ^^ b)), ?_⟩
    calc X ^ (b :: bs).length * registerPoly s + X ^ w * messagePoly (b :: bs)
        = X ^ bs.length * (X * registerPoly s + C (bitCoeff b) * X ^ w) + X ^ w * messagePoly bs := by
          rw [List.length_cons, messagePoly, pow_succ]
          ring
      _ = X ^ bs.length * registerPoly (crcBit p s b) + X ^ w * messagePoly bs +
        crcPoly p * (X ^ bs.length * C (bitCoeff (s.msb ^^ b))) := by
          rw [registerPoly_crcBit p s b]
          ring
      _ = registerPoly (crcBits p s (b :: bs)) +
        crcPoly p * (q + X ^ bs.length * C (bitCoeff (s.msb ^^ b))) := by
          rw [hq, crcBits_cons]
          ring

/-- The register is the remainder of its start value and the message behind it. -/
theorem registerPoly_eq_remainder (p s : BitVec w) (bs : List Bool) :
    registerPoly (crcBits p s bs) = (X ^ bs.length * registerPoly s + X ^ w * messagePoly bs) %ₘ
      crcPoly p := by
  obtain ⟨q, hq⟩ := registerPoly_crcBits p s bs
  exact (div_modByMonic_unique q _ (crcPoly_monic p) ⟨hq.symm,
    degree_crcPoly p ▸ degree_registerPoly _⟩).2.symm

end Skp.Foundations
