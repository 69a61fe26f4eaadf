import Skp.Utils.BitmapInline
import Skp.Utils.BitmapRange
import Skp.Foundations.Refinement

/-! # Bitmaps in memory hold sets

Named bitmaps of `nbits` bits in one memory. The functions of `bitmap.h` and `bitmap.c` over them,
in any order and with any of the names equal, are the operations on the sets of the bits that are
set; what lies behind the last bit is not looked at. -/
namespace Skp.Utils
set_option autoImplicit false
open Skp.Foundations

theorem words_fit {nbits : ℕ} (hn : nbits < 2 ^ 31) : 8 * bitsToLongs nbits ≤ 2 ^ 57 := by
  rw [bitsToLongs]
  omega

/-! ## The remaining functions -/

/-- `small_const_nbits`; `const` says that the compiler knows `nbits`. -/
def smallConstNbits (const : Bool) (nbits : ℕ) : Bool := const && decide (nbits ≤ 64)

section Model
variable (const : Bool) (mem : ℕ → BitVec 64) (dst src src1 src2 nbits : ℕ)

def bitmapZero : ℕ → BitVec 64 :=
  if smallConstNbits const nbits then Function.update mem dst 0 else zeroWords mem dst (bitsToLongs nbits)

def bitmapFill : ℕ → BitVec 64 :=
  if smallConstNbits const nbits then Function.update mem dst (BitVec.allOnes 64)
  else fun q => if dst ≤ q ∧ q < dst + bitsToLongs nbits then BitVec.allOnes 64 else mem q

def bitmapCopy : ℕ → BitVec 64 :=
  if smallConstNbits const nbits then Function.update mem dst (mem src)
  else fun q => if dst ≤ q ∧ q < dst + bitsToLongs nbits then mem (src + (q - dst)) else mem q

def bitmapCopyClearTail : ℕ → BitVec 64 :=
  let mem := bitmapCopy const mem dst src nbits
  if nbits % 64 ≠ 0 then
    Function.update mem (dst + nbits / 64) (mem (dst + nbits / 64) &&& bitmapLastWordMask nbits)
    else mem

def bitmapComplement : ℕ → BitVec 64 :=
  let lim := nbits / 64
  let mem := (combineLoop (fun a _ => ~~~a) mem dst src src lim).1
  if nbits % 64 ≠ 0 then Function.update mem (dst + lim) (~~~mem (src + lim)) else mem

def bitmapOr : ℕ → BitVec 64 := (combineLoop (fun a b => a ||| b) mem dst src1 src2 (bitsToLongs nbits)).1

def bitmapXor : ℕ → BitVec 64 := (combineLoop (fun a b => a ^^^ b) mem dst src1 src2 (bitsToLongs nbits)).1

/-- A function on the words from `a` on. -/
def atBase (a : ℕ) (f : (ℕ → BitVec 64) → ℕ → BitVec 64) : ℕ → BitVec 64 :=
  fun q => if a ≤ q then f (fun k => mem (a + k)) (q - a) else mem q

/-- A bitmap of any size in memory. -/
def bitmapAt (a : ℕ) (hn : nbits < 2 ^ 31) : Bitmap nbits where
  word := fun k => mem (a + k)
  fits := words_fit hn

/-- `bitmap_empty`, and `bitmap_full`, with both branches. -/
def bitmapEmptyAt (a : ℕ) (hn : nbits < 2 ^ 31) : Option Bool :=
  if smallConstNbits const nbits then some (bitmapEmptyWord (mem a) nbits)
    else bitmapEmpty (bitmapAt mem nbits a hn)

def bitmapFullAt (a : ℕ) (hn : nbits < 2 ^ 31) : Option Bool :=
  if smallConstNbits const nbits then some (bitmapFullWord (mem a) nbits)
    else bitmapFull (bitmapAt mem nbits a hn)

end Model

/-- The calls, with the names of the bitmaps. -/
inductive BitmapCall (N : Type) where
  | zero (dst : N)
  | fill (dst : N)
  | copy (dst src : N)
  | copyClearTail (dst src : N)
  | complement (dst src : N)
  | and (dst src1 src2 : N)
  | or (dst src1 src2 : N)
  | xor (dst src1 src2 : N)
  | andnot (dst src1 src2 : N)
  | set (map : N) (start len : ℕ)
  | clear (map : N) (start len : ℕ)
  | equal (src1 src2 : N)
  | intersects (src1 src2 : N)
  | subset (src1 src2 : N)
  | weight (src : N)
  | empty (src : N)
  | full (src : N)
  | findNext (src : N) (start : ℕ)
  | findNextZero (src : N) (start : ℕ)
  | findNextAnd (src1 src2 : N) (start : ℕ)

inductive BitmapAnswer where
  | done
  | flag (b : Bool)
  | number (n : ℕ)
deriving DecidableEq

section Exec
variable {N : Type} (const : Bool) (base : N → ℕ) {nbits : ℕ} (hn : nbits < 2 ^ 31)

/-- The words of a bitmap. -/
def blockOf (mem : ℕ → BitVec 64) (x : N) : ℕ → BitVec 64 := fun k => mem (base x + k)

def bitmapExec (mem : ℕ → BitVec 64) : BitmapCall N → Option ((ℕ → BitVec 64) × BitmapAnswer)
  | .zero dst => some (bitmapZero const mem (base dst) nbits, .done)
  | .fill dst => some (bitmapFill const mem (base dst) nbits, .done)
  | .copy dst src => some (bitmapCopy const mem (base dst) (base src) nbits, .done)
  | .copyClearTail dst src => some (bitmapCopyClearTail const mem (base dst) (base src) nbits, .done)
  | .complement dst src => some (bitmapComplement mem (base dst) (base src) nbits, .done)
  | .and dst src1 src2 =>
      let r := bitmapAnd mem (base dst) (base src1) (base src2) nbits
      some (r.1, .flag r.2)
  | .or dst src1 src2 => some (bitmapOr mem (base dst) (base src1) (base src2) nbits, .done)
  | .xor dst src1 src2 => some (bitmapXor mem (base dst) (base src1) (base src2) nbits, .done)
  | .andnot dst src1 src2 =>
      let r := bitmapAndnot mem (base dst) (base src1) (base src2) nbits
      some (r.1, .flag r.2)
  | .set map start len => some (atBase mem (base map) fun m => (bitmapSetWords m start len).map, .done)
  | .clear map start len => some (atBase mem (base map) fun m => (bitmapClearWords m start len).map, .done)
  | .equal src1 src2 => some (mem, .flag (bitmapEqual (blockOf base mem src1) (blockOf base mem src2) nbits))
  | .intersects src1 src2 =>
      some (mem, .flag (bitmapIntersects (blockOf base mem src1) (blockOf base mem src2) nbits))
  | .subset src1 src2 =>
      some (mem, .flag (bitmapSubset (blockOf base mem src1) (blockOf base mem src2) nbits))
  | .weight src => some (mem, .number (bitmapWeight (blockOf base mem src) nbits))
  | .empty src => (bitmapEmptyAt const mem nbits (base src) hn).map fun b => (mem, .flag b)
  | .full src => (bitmapFullAt const mem nbits (base src) hn).map fun b => (mem, .flag b)
  | .findNext src start => (findNextBit (bitmapAt mem nbits (base src) hn) start).map fun r =>
      (mem, .number r)
  | .findNextZero src start =>
      (findNextZeroBit (bitmapAt mem nbits (base src) hn) start).map fun r => (mem, .number r)
  | .findNextAnd src1 src2 start =>
      (findNextAndBit (bitmapAt mem nbits (base src1) hn) (bitmapAt mem nbits (base src2) hn)
        start).map fun r => (mem, .number r)

end Exec

/-! ## Sets -/

section Sets
variable {N : Type} [DecidableEq N] {nbits : ℕ}

/-- The answer of a search among the members and the others: the least one from `start` on, or `nbits`. -/
def Least (want : ℕ → Prop) [DecidablePred want] (start nbits : ℕ) : BitmapAnswer → Prop
  | .number r => LeastFrom (fun i => decide (want i)) start nbits r
  | _ => False

/-- What the calls do to the sets. A range that is set or cleared lies within the bitmap. -/
def bitmapSpec (nbits : ℕ) : Spec (N → Finset ℕ) (BitmapCall N) BitmapAnswer where
  legal _ c := match c with
    | .set _ start len | .clear _ start len => start + len ≤ nbits
    | _ => True
  next a c := match c with
    | .zero dst => Function.update a dst ∅
    | .fill dst => Function.update a dst (Finset.range nbits)
    | .copy dst src | .copyClearTail dst src => Function.update a dst (a src)
    | .complement dst src => Function.update a dst (Finset.range nbits \ a src)
    | .and dst src1 src2 => Function.update a dst (a src1 ∩ a src2)
    | .or dst src1 src2 => Function.update a dst (a src1 ∪ a src2)
    | .xor dst src1 src2 => Function.update a dst (symmDiff (a src1) (a src2))
    | .andnot dst src1 src2 => Function.update a dst (a src1 \ a src2)
    | .set map start len => Function.update a map (a map ∪ Finset.Ico start (start + len))
    | .clear map start len => Function.update a map (a map \ Finset.Ico start (start + len))
    | _ => a
  out a c o := match c with
    | .and _ src1 src2 => o = .flag (decide (a src1 ∩ a src2 ≠ ∅))
    | .andnot _ src1 src2 => o = .flag (decide (a src1 \ a src2 ≠ ∅))
    | .equal src1 src2 => o = .flag (decide (a src1 = a src2))
    | .intersects src1 src2 => o = .flag (decide (a src1 ∩ a src2 ≠ ∅))
    | .subset src1 src2 => o = .flag (decide (a src1 ⊆ a src2))
    | .weight src => o = .number (a src).card
    | .empty src => o = .flag (decide (a src = ∅))
    | .full src => o = .flag (decide (a src = Finset.range nbits))
    | .findNext src start => Least (fun i => i ∈ a src) start nbits o
    | .findNextZero src start => Least (fun i => i ∉ a src) start nbits o
    | .findNextAnd src1 src2 start => Least (fun i => i ∈ a src1 ∩ a src2) start nbits o
    | _ => o = .done

end Sets

/-! ## Words and bits -/

section Words
variable {f : BitVec 64 → BitVec 64 → BitVec 64} {mem : ℕ → BitVec 64} {w : ℕ → BitVec 64}
    {dst a1 a2 bits lim k : ℕ}

theorem combineLoop_apply (f : BitVec 64 → BitVec 64 → BitVec 64) (mem : ℕ → BitVec 64)
    (h1 : InPlaceOrApart dst a1 lim) (h2 : InPlaceOrApart dst a2 lim) (hk : k ≤ lim) :
    (∀ q, (combineLoop f mem dst a1 a2 k).1 q =
      if dst ≤ q ∧ q < dst + k then f (mem (a1 + (q - dst))) (mem (a2 + (q - dst))) else mem q) ∧
    ((combineLoop f mem dst a1 a2 k).2 = 0 ↔ ∀ j, j < k → f (mem (a1 + j)) (mem (a2 + j)) = 0) := by
  induction k with
  | zero =>
    refine ⟨fun q => ?_, by simp [combineLoop]⟩
    rw [if_neg (by omega)]
    rfl
  | succ k ih =>
    obtain ⟨hwords, hres⟩ := ih (Nat.le_of_succ_le hk)
    -- the round reads words that are not written yet
    have hread : ∀ a, InPlaceOrApart dst a lim → (combineLoop f mem dst a1 a2 k).1 (a + k) = mem (a + k) := by
      intro a ha
      rw [hwords, if_neg]
      rcases ha with rfl | ha | ha <;> omega
    simp only [combineLoop, hread a1 h1, hread a2 h2]
    constructor
    · intro q
      by_cases hq : q = dst + k
      · subst hq
        rw [Function.update_self, if_pos (by omega), Nat.add_sub_cancel_left]
      · rw [Function.update_of_ne hq, hwords]
        by_cases hin : dst ≤ q ∧ q < dst + k
        · rw [if_pos hin, if_pos (by omega)]
        · rw [if_neg hin, if_neg (by omega)]
    · refine BitVec.or_eq_zero_iff.trans ((and_congr_left' hres).trans ?_)
      constructor
      · rintro ⟨hall, hlast⟩ j hj
        rcases Nat.lt_succ_iff_lt_or_eq.mp hj with hlt | rfl
        · exact hall j hlt
        · exact hlast
      · exact fun hall => ⟨fun j hj => hall j (Nat.lt_succ_of_lt hj), hall k (Nat.lt_succ_self k)⟩

theorem getLsbD_lastMask {v : BitVec 64} {b : ℕ} (hb : b < 64) :
    (v &&& bitmapLastWordMask bits).getLsbD b = (v.getLsbD b && decide (b < bits % 64)) := by
  rw [BitVec.getLsbD_and, bitmapLastWordMask, getLsbD_lowMask hb]

/-- A whole word or the last bits are not zero exactly when a bit is set. -/
theorem words_hit (w : ℕ → BitVec 64) (bits : ℕ) :
    ((∃ k, k < bits / 64 ∧ w k ≠ 0) ∨
      (bits % 64 ≠ 0 ∧ w (bits / 64) &&& bitmapLastWordMask bits ≠ 0)) ↔
    ∃ i, i < bits ∧ bitAt w i = true := by
  constructor
  · rintro (⟨k, hk, hne⟩ | ⟨-, hne⟩)
    · rw [Ne, eq_zero_iff_bits] at hne
      push Not at hne
      obtain ⟨b, hb, hset⟩ := hne
      exact ⟨64 * k + b, by omega, by rw [bitAt_word hb]; simpa using hset⟩
    · rw [Ne, eq_zero_iff_bits] at hne
      push Not at hne
      obtain ⟨b, hb, hset⟩ := hne
      rw [getLsbD_lastMask hb] at hset
      simp only [ne_eq, Bool.not_eq_false, Bool.and_eq_true, decide_eq_true_eq] at hset
      exact ⟨64 * (bits / 64) + b, by omega, by rw [bitAt_word hb]; exact hset.1⟩
  · rintro ⟨i, hi, hset⟩
    have hb : i % 64 < 64 := Nat.mod_lt _ (by decide)
    by_cases hk : i / 64 < bits / 64
    · refine Or.inl ⟨i / 64, hk, fun hzero => ?_⟩
      rw [bitAt, eq_zero_iff_bits.mp hzero _ hb] at hset
      cases hset
    · have hlast : i / 64 = bits / 64 := by omega
      refine Or.inr ⟨by omega, fun hzero => ?_⟩
      have hbit := eq_zero_iff_bits.mp hzero _ hb
      rw [getLsbD_lastMask hb, ← hlast, ← bitAt, hset, Bool.true_and, decide_eq_false_iff_not] at hbit
      omega

theorem someWord_eq {hit : ℕ → Bool} (hhit : ∀ k, hit k = true ↔ w k ≠ 0) :
    someWord hit w bits = decide (∃ i, i < bits ∧ bitAt w i = true) := by
  rw [Bool.eq_iff_iff, decide_eq_true_eq, ← words_hit, someWord]
  simp [hhit]

theorem hweight64_eq (v : BitVec 64) :
    hweight64 v = ((Finset.range 64).filter fun b => v.getLsbD b = true).card := by
  have hrec : ∀ n, v.cpopNatRec n 0 = ((Finset.range n).filter fun b => v.getLsbD b = true).card := by
    intro n
    induction n with
    | zero => rfl
    | succ n ih =>
      rw [BitVec.cpopNatRec_succ, BitVec.cpopNatRec_add, ih, Finset.range_add_one, Finset.filter_insert]
      cases v.getLsbD n <;> simp
  rw [hweight64, BitVec.toNat_cpop, hrec]

theorem weightLoop_eq (hk : 64 * k < 2 ^ 32) :
    weightLoop w k = ((Finset.range (64 * k)).filter fun i => bitAt w i = true).card := by
  induction k with
  | zero => rfl
  | succ k ih =>
    have hsplit : (Finset.range (64 * (k + 1))).filter (fun i => bitAt w i = true) =
        (Finset.range (64 * k)).filter (fun i => bitAt w i = true) ∪
          ((Finset.range 64).filter fun b => (w k).getLsbD b = true).map (addLeftEmbedding (64 * k)) := by
      ext i
      simp only [Finset.mem_filter, Finset.mem_range, Finset.mem_union, Finset.mem_map,
        addLeftEmbedding_apply]
      constructor
      · rintro ⟨hi, hset⟩
        by_cases hlow : i < 64 * k
        · exact Or.inl ⟨hlow, hset⟩
        · refine Or.inr ⟨i - 64 * k, ⟨by omega, ?_⟩, by omega⟩
          rw [← bitAt_word (m := w) (k := k) (by omega : i - 64 * k < 64),
            show 64 * k + (i - 64 * k) = i by omega]
          exact hset
      · rintro (⟨hi, hset⟩ | ⟨b, ⟨hb, hset⟩, rfl⟩)
        · exact ⟨by omega, hset⟩
        · exact ⟨by omega, by rw [bitAt_word hb]; exact hset⟩
    have hapart : Disjoint ((Finset.range (64 * k)).filter (fun i => bitAt w i = true))
        (((Finset.range 64).filter fun b => (w k).getLsbD b = true).map (addLeftEmbedding (64 * k))) := by
      rw [Finset.disjoint_left]
      intro i hi hmem
      simp only [Finset.mem_filter, Finset.mem_range, Finset.mem_map, addLeftEmbedding_apply] at hi hmem
      omega
    have hle : ((Finset.range (64 * (k + 1))).filter fun i => bitAt w i = true).card ≤ 64 * (k + 1) :=
      (Finset.card_filter_le _ _).trans (by rw [Finset.card_range])
    rw [hsplit, Finset.card_union_of_disjoint hapart, Finset.card_map, ← ih (by omega),
      ← hweight64_eq] at hle ⊢
    exact Nat.mod_eq_of_lt (by omega)

theorem weightLoop_congr {w' : ℕ → BitVec 64} (h : ∀ j, j < k → w' j = w j) :
    weightLoop w' k = weightLoop w k := by
  induction k with
  | zero => rfl
  | succ k ih =>
    rw [weightLoop, weightLoop, ih fun j hj => h j (Nat.lt_succ_of_lt hj), h k (Nat.lt_succ_self k)]

theorem bitmapWeight_eq (hbits : bits < 2 ^ 31) :
    bitmapWeight w bits = ((Finset.range bits).filter fun i => bitAt w i = true).card := by
  have hlim : bits / 64 % 2 ^ 32 = bits / 64 := Nat.mod_eq_of_lt (by omega)
  simp only [bitmapWeight, hlim]
  split
  · -- the same count over whole words, with the last one masked
    let w' := Function.update w (bits / 64) (w (bits / 64) &&& bitmapLastWordMask bits)
    have hloop : weightLoop w' (bits / 64) = weightLoop w (bits / 64) :=
      weightLoop_congr fun j hj => Function.update_of_ne hj.ne _ _
    have hlast : w' (bits / 64) = w (bits / 64) &&& bitmapLastWordMask bits := Function.update_self _ _ _
    have hall : weightLoop w' (bits / 64 + 1) =
        (weightLoop w (bits / 64) + hweight64 (w (bits / 64) &&& bitmapLastWordMask bits)) %
        2 ^ 32 := by
      rw [weightLoop, hloop, hlast]
    rw [← hall, weightLoop_eq (by omega)]
    congr 1
    ext i
    simp only [Finset.mem_filter, Finset.mem_range]
    have hb : i % 64 < 64 := Nat.mod_lt _ (by decide)
    by_cases hi : i / 64 = bits / 64
    · rw [bitAt, hi, hlast, getLsbD_lastMask hb, Bool.and_eq_true, decide_eq_true_eq, bitAt, hi]
      constructor
      · rintro ⟨-, hset, hlt⟩
        exact ⟨by omega, hset⟩
      · rintro ⟨hlt, hset⟩
        exact ⟨by omega, hset, by omega⟩
    · have hsame : bitAt w' i = bitAt w i := by
        rw [bitAt, bitAt, show w' (i / 64) = w (i / 64) from Function.update_of_ne hi _ _]
      rw [hsame]
      exact and_congr_left fun _ => by omega
  · rw [weightLoop_eq (by omega), show 64 * (bits / 64) = bits by omega]

end Words

/-! ## Blocks of memory -/

section Blocks
variable {N : Type} {base : N → ℕ} {nbits : ℕ} {mem mem' : ℕ → BitVec 64} {x y : N} {m : ℕ → Bool}

def setsOf (base : N → ℕ) (nbits : ℕ) (mem : ℕ → BitVec 64) (x : N) : Finset ℕ :=
  (Finset.range nbits).filter fun i => bitAt (blockOf base mem x) i = true

/-- The bitmaps lie apart. -/
def Apart (base : N → ℕ) (nbits : ℕ) : Prop :=
  ∀ x y, x ≠ y → base x + bitsToLongs nbits ≤ base y ∨ base y + bitsToLongs nbits ≤ base x

/-- The bits of a bitmap have been written, and no word outside it. -/
structure Wrote (base : N → ℕ) (nbits : ℕ) (mem mem' : ℕ → BitVec 64) (x : N) (m : ℕ → Bool) : Prop where
  bits : ∀ i, i < nbits → bitAt (blockOf base mem' x) i = m i
  others : ∀ q, ¬(base x ≤ q ∧ q < base x + bitsToLongs nbits) → mem' q = mem q

theorem mem_setsOf {i : ℕ} :
    i ∈ setsOf base nbits mem x ↔ i < nbits ∧ bitAt (blockOf base mem x) i = true := by
  rw [setsOf, Finset.mem_filter, Finset.mem_range]

theorem word_lt {i : ℕ} (hi : i < nbits) : i / 64 < bitsToLongs nbits := by
  rw [bitsToLongs]
  omega

theorem Wrote.holds [DecidableEq N] (h : Wrote base nbits mem mem' x m) (hapart : Apart base nbits)
    {t : Finset ℕ}
    (ht : ∀ i, i ∈ t ↔ i < nbits ∧ m i = true) :
    setsOf base nbits mem' = Function.update (setsOf base nbits mem) x t := by
  funext y
  by_cases hy : y = x
  · subst hy
    rw [Function.update_self]
    ext i
    rw [mem_setsOf, ht]
    exact and_congr_right fun hi => by rw [h.bits i hi]
  · rw [Function.update_of_ne hy]
    ext i
    rw [mem_setsOf, mem_setsOf]
    refine and_congr_right fun hi => ?_
    have hword := word_lt hi
    have hsame : blockOf base mem' y (i / 64) = blockOf base mem y (i / 64) := by
      refine h.others _ ?_
      rcases hapart x y (Ne.symm hy) with hlt | hlt <;> omega
    rw [bitAt, bitAt, hsame]

theorem place (hapart : Apart base nbits) (x y : N) :
    InPlaceOrApart (base x) (base y) (bitsToLongs nbits) := by
  by_cases hxy : x = y
  · exact Or.inl (hxy ▸ rfl)
  · rcases hapart x y hxy with h | h
    · exact Or.inr (Or.inl h)
    · exact Or.inr (Or.inr h)

theorem wrote_words {f : ℕ → BitVec 64}
    (hwords : ∀ q, mem' q = if base x ≤ q ∧ q < base x + bitsToLongs nbits then
      f (q - base x) else mem q)
    (hbits : ∀ i, i < nbits → bitAt f i = m i) : Wrote base nbits mem mem' x m where
  bits := fun i hi => by
    rw [← hbits i hi, bitAt, bitAt, blockOf, hwords,
      if_pos ⟨Nat.le_add_right _ _, Nat.add_lt_add_left (word_lt hi) _⟩, Nat.add_sub_cancel_left]
  others := fun q hq => by rw [hwords, if_neg hq]

/-- The branch for one word is harmless: with `nbits` a constant the bitmap is not empty and does
not fill a word. -/
def ConstOk (const : Bool) (nbits : ℕ) : Prop := smallConstNbits const nbits = true → 0 < nbits ∧ nbits < 64

theorem branches_eq {const : Bool} {a : ℕ} (hconst : ConstOk const nbits) (mem f : ℕ → BitVec 64) (q : ℕ) :
    (if smallConstNbits const nbits then Function.update mem a (f 0)
      else fun q => if a ≤ q ∧ q < a + bitsToLongs nbits then f (q - a) else mem q) q =
      if a ≤ q ∧ q < a + bitsToLongs nbits then f (q - a) else mem q := by
  cases hsmall : smallConstNbits const nbits with
  | false => rfl
  | true =>
    have hone : bitsToLongs nbits = 1 := by
      obtain ⟨hpos, hlt⟩ := hconst hsmall
      rw [bitsToLongs]
      omega
    rw [if_pos rfl, hone]
    by_cases hq : q = a
    · rw [hq, Function.update_self, if_pos (by omega), Nat.sub_self]
    · rw [Function.update_of_ne hq, if_neg (by omega)]

section Combine
variable {f : BitVec 64 → BitVec 64 → BitVec 64} {g : Bool → Bool → Bool} {y z : N}

/-- The operation on words is one on bits. -/
def Bitwise (f : BitVec 64 → BitVec 64 → BitVec 64) (g : Bool → Bool → Bool) : Prop :=
  ∀ u v b, b < 64 → (f u v).getLsbD b = g (u.getLsbD b) (v.getLsbD b)

theorem Bitwise.bitAt (hf : Bitwise f g) (u v : ℕ → BitVec 64) (i : ℕ) :
    bitAt (fun k => f (u k) (v k)) i = g (Foundations.bitAt u i) (Foundations.bitAt v i) :=
  hf _ _ _ (Nat.mod_lt _ (by decide))

theorem combineLoop_wrote (hf : Bitwise f g) (hapart : Apart base nbits) :
    Wrote base nbits mem (combineLoop f mem (base x) (base y) (base z) (bitsToLongs nbits)).1 x
      fun i => g (Foundations.bitAt (blockOf base mem y) i) (Foundations.bitAt (blockOf base mem z) i) :=
  wrote_words (f := fun k => f (blockOf base mem y k) (blockOf base mem z k))
    (combineLoop_apply f mem (place hapart x y) (place hapart x z) le_rfl).1 fun i _ => hf.bitAt _ _ i

theorem combineWords_wrote (hf : Bitwise f g) (hapart : Apart base nbits) (mem : ℕ → BitVec 64) (x y z : N) :
    Wrote base nbits mem (combineWords f mem (base x) (base y) (base z) nbits).1 x
        (fun i => g (Foundations.bitAt (blockOf base mem y) i) (Foundations.bitAt (blockOf base mem z) i)) ∧
      (combineWords f mem (base x) (base y) (base z) nbits).2 =
        decide (∃ i, i < nbits ∧
          g (Foundations.bitAt (blockOf base mem y) i) (Foundations.bitAt (blockOf base mem z) i) =
          true) := by
  have hle : nbits / 64 ≤ bitsToLongs nbits := by
    rw [bitsToLongs]
    omega
  obtain ⟨hwords, hres⟩ := combineLoop_apply f mem (place hapart x y) (place hapart x z) hle
  have hhit := words_hit (fun k => f (blockOf base mem y k) (blockOf base mem z k)) nbits
  simp only [hf.bitAt] at hhit
  have hwhole : (combineLoop f mem (base x) (base y) (base z) (nbits / 64)).2 ≠ 0 ↔
      ∃ k, k < nbits / 64 ∧ f (blockOf base mem y k) (blockOf base mem z k) ≠ 0 := by
    rw [Ne, hres]
    push Not
    rfl
  by_cases hrest : nbits % 64 ≠ 0
  · have hread : ∀ v, (combineLoop f mem (base x) (base y) (base z) (nbits / 64)).1
      (base v + nbits / 64) = blockOf base mem v (nbits / 64) := by
      intro v
      rw [hwords, if_neg]
      · rfl
      · have hv := place hapart x v
        rw [InPlaceOrApart, bitsToLongs] at hv
        omega
    have hwords' : bitsToLongs nbits = nbits / 64 + 1 := by
      rw [bitsToLongs]
      omega
    rw [combineWords]
    simp only [if_pos hrest, hread]
    refine ⟨⟨fun i hi => ?_, fun q hq => ?_⟩, ?_⟩
    · have hb : i % 64 < 64 := Nat.mod_lt _ (by decide)
      rw [Foundations.bitAt, blockOf]
      by_cases hlast : i / 64 = nbits / 64
      · rw [hlast, Function.update_self, getLsbD_lastMask hb, hf _ _ _ hb, Foundations.bitAt,
          Foundations.bitAt, hlast]
        rw [show decide (i % 64 < nbits % 64) = true from decide_eq_true (by omega), Bool.and_true]
      · rw [Function.update_of_ne (by omega), hwords, if_pos (by omega), Nat.add_sub_cancel_left]
        exact hf _ _ _ hb
    · rw [Function.update_of_ne (by omega), hwords, if_neg (by omega)]
    · rw [decide_eq_decide, ← hhit, ← hwhole]
      refine (not_congr BitVec.or_eq_zero_iff).trans (not_and_or.trans (or_congr_right ?_))
      exact ⟨fun h => ⟨hrest, h⟩, fun h => h.2⟩
  · have hwords' : bitsToLongs nbits = nbits / 64 := by
      rw [bitsToLongs]
      omega
    rw [combineWords]
    simp only [if_neg hrest]
    refine ⟨hwords' ▸ combineLoop_wrote hf hapart, ?_⟩
    rw [decide_eq_decide, ← hhit, ← hwhole]
    exact (or_iff_left fun h => hrest h.1).symm

end Combine

theorem copy_wrote {const : Bool} (hconst : ConstOk const nbits) (y : N) :
    Wrote base nbits mem (bitmapCopy const mem (base x) (base y) nbits) x (bitAt (blockOf base mem y)) :=
  wrote_words (f := blockOf base mem y) (branches_eq hconst mem (blockOf base mem y)) fun _ _ => rfl

theorem Wrote.retouch {v : BitVec 64} (h : Wrote base nbits mem mem' x m) (hrest : nbits % 64 ≠ 0)
    (hv : ∀ b, b < nbits % 64 → v.getLsbD b = m (64 * (nbits / 64) + b)) :
    Wrote base nbits mem (Function.update mem' (base x + nbits / 64) v) x m where
  bits := fun i hi => by
    rw [bitAt, blockOf]
    by_cases hlast : i / 64 = nbits / 64
    · rw [hlast, Function.update_self, hv _ (by omega)]
      congr 1
      omega
    · rw [Function.update_of_ne (by omega)]
      exact h.bits i hi
  others := fun q hq => by
    rw [bitsToLongs] at hq
    rw [Function.update_of_ne (by omega)]
    exact h.others q (by rw [bitsToLongs]; exact hq)

theorem copyClearTail_wrote {const : Bool} (hconst : ConstOk const nbits) (y : N) :
    Wrote base nbits mem (bitmapCopyClearTail const mem (base x) (base y) nbits) x
      (bitAt (blockOf base mem y)) := by
  have hcopy : Wrote base nbits mem (bitmapCopy const mem (base x) (base y) nbits) x
      (bitAt (blockOf base mem y)) := copy_wrote hconst y
  rw [bitmapCopyClearTail]
  split
  · rename_i hrest
    refine hcopy.retouch hrest fun b hb => ?_
    have hb' : b < 64 := by omega
    rw [getLsbD_lastMask hb', decide_eq_true hb, Bool.and_true, ← hcopy.bits _ (by omega), bitAt_word hb']
    rfl
  · exact hcopy

theorem bitwise_not : Bitwise (fun a _ => ~~~a) fun a _ => !a := by
  intro u v b hb
  simp [hb]

theorem complement_wrote (hapart : Apart base nbits) (y : N) :
    Wrote base nbits mem (bitmapComplement mem (base x) (base y) nbits) x fun i => !bitAt
      (blockOf base mem y) i := by
  have hloop : bitmapComplement mem (base x) (base y) nbits =
      (combineLoop (fun a _ => ~~~a) mem (base x) (base y) (base y) (bitsToLongs nbits)).1 := by
    rw [bitmapComplement]
    by_cases hrest : nbits % 64 ≠ 0
    · rw [show bitsToLongs nbits = nbits / 64 + 1 by rw [bitsToLongs]; omega]
      simp only [if_pos hrest]
      rfl
    · rw [show bitsToLongs nbits = nbits / 64 by rw [bitsToLongs]; omega]
      simp only [if_neg hrest]
  rw [hloop]
  exact combineLoop_wrote bitwise_not hapart

theorem atBase_wrote {w : (ℕ → BitVec 64) → ℕ → BitVec 64} {start len : ℕ} {val : Bool}
    (hlen : start + len ≤ nbits)
    (hw : ∀ i, bitAt (w (blockOf base mem x)) i = if start ≤ i ∧ i < start + len then val
      else bitAt (blockOf base mem x) i) :
    Wrote base nbits mem (atBase mem (base x) w) x fun i => if start ≤ i ∧ i < start + len then val
      else bitAt (blockOf base mem x) i where
  bits := fun i _ => by
    rw [← hw, bitAt, bitAt, blockOf, atBase, if_pos (Nat.le_add_right _ _), Nat.add_sub_cancel_left]
    rfl
  others := fun q hq => by
    rw [atBase]
    split
    · -- a word behind the range has the bits it had
      refine BitVec.eq_of_getLsbD_eq fun b hb => ?_
      have hbit := hw (64 * (q - base x) + b)
      rw [bitsToLongs] at hq
      rw [if_neg (by omega), bitAt_word hb, bitAt_word hb, blockOf,
        show base x + (q - base x) = q by omega] at hbit
      exact hbit
    · rfl

end Blocks

/-! ## Calls -/

section Calls
variable {N : Type} [DecidableEq N] {const : Bool} {base : N → ℕ} {nbits : ℕ} {mem : ℕ → BitVec 64}

theorem bitwise_and : Bitwise (fun a b => a &&& b) (· && ·) := fun _ _ _ _ => BitVec.getLsbD_and

theorem bitwise_or : Bitwise (fun a b => a ||| b) (· || ·) := fun _ _ _ _ => BitVec.getLsbD_or

theorem bitwise_xor : Bitwise (fun a b => a ^^^ b) Bool.xor := fun _ _ _ _ => BitVec.getLsbD_xor

theorem bitwise_andnot : Bitwise (fun a b => a &&& ~~~b) fun a b => a && !b := by
  intro u v b hb
  simp [hb]

theorem exists_bit_eq {t : Finset ℕ} {m : ℕ → Bool} (ht : ∀ i, i ∈ t ↔ i < nbits ∧ m i = true) :
    decide (∃ i, i < nbits ∧ m i = true) = decide (t ≠ ∅) := by
  rw [decide_eq_decide, ← Finset.nonempty_iff_ne_empty]
  exact exists_congr fun i => (ht i).symm

/-- What a call that answers has done. -/
def CallOk (base : N → ℕ) (nbits : ℕ) (mem : ℕ → BitVec 64) (c : BitmapCall N)
    (r : Option ((ℕ → BitVec 64) × BitmapAnswer)) : Prop :=
  ∃ mem' o, r = some (mem', o) ∧ (bitmapSpec nbits).out (setsOf base nbits mem) c o ∧
    setsOf base nbits mem' = (bitmapSpec nbits).next (setsOf base nbits mem) c

theorem zero_ok (hconst : ConstOk const nbits) (hapart : Apart base nbits) (dst : N) :
    CallOk base nbits mem (.zero dst) (some (bitmapZero const mem (base dst) nbits, .done)) := by
  refine ⟨_, _, rfl, rfl, Wrote.holds (m := fun _ => false) ?_ hapart fun i => by simp⟩
  exact wrote_words (f := fun _ => 0#64) (branches_eq hconst mem fun _ => 0#64) fun i _ => by simp [bitAt]

theorem fill_ok (hconst : ConstOk const nbits) (hapart : Apart base nbits) (dst : N) :
    CallOk base nbits mem (.fill dst) (some (bitmapFill const mem (base dst) nbits, .done)) := by
  refine ⟨_, _, rfl, rfl, Wrote.holds (m := fun _ => true) ?_ hapart fun i => by simp⟩
  refine wrote_words (f := fun _ => BitVec.allOnes 64)
    (branches_eq hconst mem fun _ => BitVec.allOnes 64) fun i _ => ?_
  rw [bitAt, BitVec.getLsbD_allOnes, decide_eq_true (Nat.mod_lt i (by decide))]

theorem complement_ok (hapart : Apart base nbits) (dst src : N) :
    CallOk base nbits mem (.complement dst src)
      (some (bitmapComplement mem (base dst) (base src) nbits, .done)) := by
  refine ⟨_, _, rfl, rfl, (complement_wrote hapart src).holds hapart fun i => ?_⟩
  rw [Finset.mem_sdiff, Finset.mem_range, mem_setsOf, Bool.not_eq_true']
  refine and_congr_right fun hi => ?_
  simp [hi]

theorem and_ok (hapart : Apart base nbits) (dst src1 src2 : N) :
    CallOk base nbits mem (.and dst src1 src2)
      (some ((bitmapAnd mem (base dst) (base src1) (base src2) nbits).1,
      .flag (bitmapAnd mem (base dst) (base src1) (base src2) nbits).2)) := by
  obtain ⟨hwrote, hflag⟩ := combineWords_wrote bitwise_and hapart mem dst src1 src2
  have ht : ∀ i, i ∈ setsOf base nbits mem src1 ∩ setsOf base nbits mem src2 ↔
      i < nbits ∧ (bitAt (blockOf base mem src1) i && bitAt (blockOf base mem src2) i) = true := by
    intro i
    rw [Finset.mem_inter, mem_setsOf, mem_setsOf, Bool.and_eq_true]
    tauto
  exact ⟨_, _, rfl, congrArg BitmapAnswer.flag (hflag.trans (exists_bit_eq ht)), hwrote.holds hapart ht⟩

theorem andnot_ok (hapart : Apart base nbits) (dst src1 src2 : N) :
    CallOk base nbits mem (.andnot dst src1 src2)
      (some ((bitmapAndnot mem (base dst) (base src1) (base src2) nbits).1,
      .flag (bitmapAndnot mem (base dst) (base src1) (base src2) nbits).2)) := by
  obtain ⟨hwrote, hflag⟩ := combineWords_wrote bitwise_andnot hapart mem dst src1 src2
  have ht : ∀ i, i ∈ setsOf base nbits mem src1 \ setsOf base nbits mem src2 ↔
      i < nbits ∧ (bitAt (blockOf base mem src1) i && !bitAt (blockOf base mem src2) i) = true := by
    intro i
    rw [Finset.mem_sdiff, mem_setsOf, mem_setsOf, Bool.and_eq_true, Bool.not_eq_true', ← Bool.not_eq_true]
    tauto
  exact ⟨_, _, rfl, congrArg BitmapAnswer.flag (hflag.trans (exists_bit_eq ht)), hwrote.holds hapart ht⟩

theorem or_ok (hapart : Apart base nbits) (dst src1 src2 : N) :
    CallOk base nbits mem (.or dst src1 src2)
      (some (bitmapOr mem (base dst) (base src1) (base src2) nbits, .done)) := by
  refine ⟨_, _, rfl, rfl,
    (combineLoop_wrote (y := src1) (z := src2) bitwise_or hapart).holds hapart fun i => ?_⟩
  rw [Finset.mem_union, mem_setsOf, mem_setsOf, Bool.or_eq_true]
  tauto

theorem xor_ok (hapart : Apart base nbits) (dst src1 src2 : N) :
    CallOk base nbits mem (.xor dst src1 src2)
      (some (bitmapXor mem (base dst) (base src1) (base src2) nbits, .done)) := by
  refine ⟨_, _, rfl, rfl,
    (combineLoop_wrote (y := src1) (z := src2) bitwise_xor hapart).holds hapart fun i => ?_⟩
  rw [Finset.mem_symmDiff, mem_setsOf, mem_setsOf]
  by_cases hi : i < nbits
  · cases bitAt (blockOf base mem src1) i <;> cases bitAt (blockOf base mem src2) i <;> simp [hi]
  · simp [hi]

theorem set_ok (hn : nbits < 2 ^ 31) (hapart : Apart base nbits) (map : N) {start len : ℕ}
    (hlen : start + len ≤ nbits) :
    CallOk base nbits mem (.set map start len)
      (some (atBase mem (base map) fun m => (bitmapSetWords m start len).map, .done)) := by
  have hbits := (bitmapSet_clear (blockOf base mem map) start len (by omega)).1.1
  refine ⟨_, _, rfl, rfl,
    (atBase_wrote (w := fun m => (bitmapSetWords m start len).map) hlen hbits).holds
    hapart fun i => ?_⟩
  rw [Finset.mem_union, mem_setsOf, Finset.mem_Ico]
  by_cases hin : start ≤ i ∧ i < start + len
  · simp [hin, show i < nbits by omega]
  · simp [hin]

theorem clear_ok (hn : nbits < 2 ^ 31) (hapart : Apart base nbits) (map : N) {start len : ℕ}
    (hlen : start + len ≤ nbits) :
    CallOk base nbits mem (.clear map start len)
      (some (atBase mem (base map) fun m => (bitmapClearWords m start len).map, .done)) := by
  have hbits := (bitmapSet_clear (blockOf base mem map) start len (by omega)).2.1
  refine ⟨_, _, rfl, rfl,
    (atBase_wrote (w := fun m => (bitmapClearWords m start len).map) hlen hbits).holds
    hapart fun i => ?_⟩
  rw [Finset.mem_sdiff, mem_setsOf, Finset.mem_Ico]
  by_cases hin : start ≤ i ∧ i < start + len
  · simp [hin]
  · simp [hin]

/-! ### Questions -/

theorem equal_ok (src1 src2 : N) :
    CallOk base nbits mem (.equal src1 src2)
      (some (mem, .flag (bitmapEqual (blockOf base mem src1) (blockOf base mem src2) nbits))) := by
  refine ⟨_, _, rfl, congrArg BitmapAnswer.flag ?_, rfl⟩
  rw [bitmapEqual,
    someWord_eq (w := fun k => blockOf base mem src1 k ^^^ blockOf base mem src2 k) fun k => ?_]
  · rw [← decide_not, decide_eq_decide, Finset.ext_iff]
    simp only [mem_setsOf, bitwise_xor.bitAt]
    push Not
    refine forall_congr' fun i => ?_
    by_cases hi : i < nbits
    · cases bitAt (blockOf base mem src1) i <;> cases bitAt (blockOf base mem src2) i <;> simp [hi]
    · simp [hi]
  · rw [decide_eq_true_eq]
    exact not_congr BitVec.xor_eq_zero_iff.symm

theorem intersects_ok (src1 src2 : N) :
    CallOk base nbits mem (.intersects src1 src2)
      (some (mem,
      .flag (bitmapIntersects (blockOf base mem src1) (blockOf base mem src2) nbits))) := by
  refine ⟨_, _, rfl, congrArg BitmapAnswer.flag ?_, rfl⟩
  rw [bitmapIntersects, someWord_eq fun k => decide_eq_true_iff]
  refine exists_bit_eq fun i => ?_
  rw [bitwise_and.bitAt, Finset.mem_inter, mem_setsOf, mem_setsOf, Bool.and_eq_true]
  tauto

theorem subset_ok (src1 src2 : N) :
    CallOk base nbits mem (.subset src1 src2)
      (some (mem, .flag (bitmapSubset (blockOf base mem src1) (blockOf base mem src2) nbits))) := by
  refine ⟨_, _, rfl, congrArg BitmapAnswer.flag ?_, rfl⟩
  rw [bitmapSubset, someWord_eq fun k => decide_eq_true_iff, ← decide_not, decide_eq_decide]
  simp only [bitwise_andnot.bitAt, Finset.subset_iff, mem_setsOf]
  push Not
  refine forall_congr' fun i => ?_
  by_cases hi : i < nbits
  · cases bitAt (blockOf base mem src1) i <;> cases bitAt (blockOf base mem src2) i <;> simp [hi]
  · simp [hi]

theorem bitmapEmptyAt_eq (hconst : ConstOk const nbits) (hn : nbits < 2 ^ 31) (a : ℕ) :
    bitmapEmptyAt const mem nbits a hn = bitmapEmpty (bitmapAt mem nbits a hn) ∧
      bitmapFullAt const mem nbits a hn = bitmapFull (bitmapAt mem nbits a hn) := by
  rw [bitmapEmptyAt, bitmapFullAt]
  cases hsmall : smallConstNbits const nbits with
  | false => exact ⟨rfl, rfl⟩
  | true =>
    obtain ⟨-, hlt⟩ := hconst hsmall
    have hempty : _ = bitmapEmpty (wordAt mem a hlt.le) := empty_word hlt
    have hfull : _ = bitmapFull (wordAt mem a hlt.le) := full_word hlt
    exact ⟨hempty, hfull⟩

theorem empty_ok (hconst : ConstOk const nbits) (hn : nbits < 2 ^ 31) (src : N) :
    CallOk base nbits mem (.empty src)
      ((bitmapEmptyAt const mem nbits (base src) hn).map fun b => (mem, .flag b)) := by
  obtain ⟨r, hr, hleast⟩ := findFirstBit_least (bitmapAt mem nbits (base src) hn)
  refine ⟨mem, .flag (decide (r = nbits)),
    by rw [(bitmapEmptyAt_eq hconst hn _).1, bitmapEmpty,
    hr]; rfl, congrArg BitmapAnswer.flag ?_, rfl⟩
  rw [decide_eq_decide, hleast.eq_stop_iff, Finset.eq_empty_iff_forall_notMem]
  refine forall_congr' fun i => ?_
  rw [mem_setsOf, not_and, Bool.not_eq_true]
  rfl

theorem full_ok (hconst : ConstOk const nbits) (hn : nbits < 2 ^ 31) (src : N) :
    CallOk base nbits mem (.full src)
      ((bitmapFullAt const mem nbits (base src) hn).map fun b => (mem, .flag b)) := by
  obtain ⟨r, hr, hleast⟩ := findFirstZeroBit_least (bitmapAt mem nbits (base src) hn)
  refine ⟨mem, .flag (decide (r = nbits)),
    by rw [(bitmapEmptyAt_eq hconst hn _).2, bitmapFull,
    hr]; rfl, congrArg BitmapAnswer.flag ?_, rfl⟩
  rw [decide_eq_decide, hleast.eq_stop_iff, Finset.ext_iff]
  refine forall_congr' fun i => ?_
  rw [mem_setsOf, Finset.mem_range, Bool.not_eq_false']
  show (i < nbits → bitAt (blockOf base mem src) i = true) ↔ _
  tauto

theorem least_of_leastFrom {want : ℕ → Prop} [DecidablePred want] {m : ℕ → Bool} {start r : ℕ}
    (h : LeastFrom m start nbits r)
    (hm : ∀ i, i < nbits → (m i = true ↔ want i)) : Least want start nbits (.number r) :=
  h.congr fun i hi => by rw [Bool.eq_iff_iff, decide_eq_true_eq]; exact hm i hi

theorem find_ok (hn : nbits < 2 ^ 31) (src1 src2 : N) (start : ℕ) :
    CallOk base nbits mem (.findNext src1 start)
      ((findNextBit (bitmapAt mem nbits (base src1) hn) start).map fun r => (mem, .number r)) ∧
    CallOk base nbits mem (.findNextZero src1 start)
      ((findNextZeroBit (bitmapAt mem nbits (base src1) hn) start).map fun r => (mem, .number r)) ∧
    CallOk base nbits mem (.findNextAnd src1 src2 start) ((findNextAndBit (bitmapAt mem nbits (base src1) hn)
      (bitmapAt mem nbits (base src2) hn) start).map fun r => (mem, .number r)) := by
  obtain ⟨⟨r, hr, hleast⟩, ⟨r', hr', hleast'⟩, r'', hr'', hleast''⟩ :=
    findNext_least (bitmapAt mem nbits (base src1) hn) (bitmapAt mem nbits (base src2) hn) start
  have hnext : Least (fun i => i ∈ setsOf base nbits mem src1) start nbits (.number r) :=
    least_of_leastFrom hleast fun i hi => (mem_setsOf.trans (and_iff_right hi)).symm
  have hzero : Least (fun i => i ∉ setsOf base nbits mem src1) start nbits (.number r') := by
    refine least_of_leastFrom hleast' fun i hi => ?_
    rw [mem_setsOf, not_and, Bool.not_eq_true', Bool.not_eq_true]
    exact ⟨fun h _ => h, fun h => h hi⟩
  have hboth : Least (fun i => i ∈ setsOf base nbits mem src1 ∩ setsOf base nbits mem src2) start
      nbits (.number r'') := by
    refine least_of_leastFrom hleast'' fun i hi => ?_
    rw [Bool.and_eq_true, Finset.mem_inter, mem_setsOf, mem_setsOf, and_iff_right hi, and_iff_right hi]
    rfl
  exact ⟨⟨mem, .number r, by rw [hr]; rfl, hnext, rfl⟩, ⟨mem, .number r', by rw [hr']; rfl, hzero, rfl⟩,
    ⟨mem, .number r'', by rw [hr'']; rfl, hboth, rfl⟩⟩

theorem bitmap_step (hconst : ConstOk const nbits) (hn : nbits < 2 ^ 31) (hapart : Apart base nbits)
    (mem : ℕ → BitVec 64) (c : BitmapCall N)
    (hc : (bitmapSpec nbits).legal (setsOf base nbits mem) c) :
    CallOk base nbits mem c (bitmapExec const base hn mem c) := by
  cases c with
  | zero dst => exact zero_ok hconst hapart dst
  | fill dst => exact fill_ok hconst hapart dst
  | copy dst src => exact ⟨_, _, rfl, rfl, (copy_wrote hconst src).holds hapart fun i => mem_setsOf⟩
  | copyClearTail dst src =>
    exact ⟨_, _, rfl, rfl, (copyClearTail_wrote hconst src).holds hapart fun i => mem_setsOf⟩
  | complement dst src => exact complement_ok hapart dst src
  | and dst src1 src2 => exact and_ok hapart dst src1 src2
  | or dst src1 src2 => exact or_ok hapart dst src1 src2
  | xor dst src1 src2 => exact xor_ok hapart dst src1 src2
  | andnot dst src1 src2 => exact andnot_ok hapart dst src1 src2
  | set map start len => exact set_ok hn hapart map hc
  | clear map start len => exact clear_ok hn hapart map hc
  | equal src1 src2 => exact equal_ok src1 src2
  | intersects src1 src2 => exact intersects_ok src1 src2
  | subset src1 src2 => exact subset_ok src1 src2
  | weight src => exact ⟨_, _, rfl, congrArg BitmapAnswer.number (bitmapWeight_eq hn), rfl⟩
  | empty src => exact empty_ok hconst hn src
  | full src => exact full_ok hconst hn src
  | findNext src start => exact (find_ok hn src src start).1
  | findNextZero src start => exact (find_ok hn src src start).2.1
  | findNextAnd src1 src2 start => exact (find_ok hn src1 src2 start).2.2

/-- Every run of calls on bitmaps that lie apart answers, and does, what the runs on the sets do. -/
theorem bitmaps_hold_sets (hconst : ConstOk const nbits) (hn : nbits < 2 ^ 31)
    (hapart : Apart base nbits) (mem : ℕ → BitVec 64)
    (cs : List (BitmapCall N)) (hcs : (bitmapSpec nbits).LegalRun (setsOf base nbits mem) cs) :
    ∃ mem' os, runCalls (bitmapExec const base hn) mem cs = some (mem', os) ∧
      (bitmapSpec nbits).Conforms (setsOf base nbits mem) cs os ∧
      setsOf base nbits mem' = (bitmapSpec nbits).after (setsOf base nbits mem) cs := by
  refine Spec.conforms_calls (fun _ mem a => setsOf base nbits mem = a) (fun n mem a c hR hc => ?_)
    cs mem _ rfl hcs
  subst hR
  exact bitmap_step hconst hn hapart mem c hc

/-- A range is set and the bitmap is intersected into itself. -/
def maskCalls (x y : N) (start len : ℕ) : List (BitmapCall N) :=
  [.zero x, .set x start len, .fill y, .and x x y, .weight x, .full x, .subset x y]

theorem bitmaps_hold_sets_witness : ∃ mem' os,
    runCalls (bitmapExec true (fun x : Bool => if x then 0 else 2) (show 60 < 2 ^ 31 by decide))
      (fun _ => 5) (maskCalls true false 50 10) =
        some (mem', os) ∧
      (bitmapSpec 60).Conforms (setsOf (fun x : Bool => if x then 0 else 2) 60 fun _ => 5)
        (maskCalls true false 50 10) os ∧
      setsOf (fun x : Bool => if x then 0 else 2) 60 mem' =
        (bitmapSpec 60).after (setsOf (fun x : Bool => if x then 0 else 2) 60 fun _ => 5)
          (maskCalls true false 50 10) :=
  bitmaps_hold_sets (show ConstOk true 60 by unfold ConstOk; decide) (show 60 < 2 ^ 31 by decide)
    (show Apart (fun x : Bool => if x then 0 else 2) 60 by unfold Apart; decide) _ _
    ⟨trivial, (show 50 + 10 ≤ 60 by decide), trivial, trivial, trivial, trivial, trivial, trivial⟩

end Calls

end Skp.Utils
