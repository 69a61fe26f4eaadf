import Skp.Errno
import Skp.Foundations.Digits

/-! # From text to an integer

`str2int` of `string.c`. The text is a buffer with a NUL behind it; the value is added up modulo 2^64. -/
namespace Skp.Utils
set_option autoImplicit false
open Skp.Foundations

def minusSign : UInt8 := 45

def strlen (buf : List UInt8) : ℕ := (buf.takeWhile (· ≠ 0)).length

/-- `n` characters from `start` on. -/
def chars (buf : List UInt8) (start n : ℕ) : List UInt8 := (List.range n).map fun i => buf.getD (start + i) 0

def toInt64 (v : ℕ) : ℤ := if v < 2 ^ 63 then v else (v : ℤ) - 2 ^ 64

/-- The loop: the value and the number of digits, or `none` at another character. -/
def str2intLoop : List UInt8 → ℕ → ℕ → Option (ℕ × ℕ)
  | [], v, ll => some (v, ll)
  | c :: cs, v, ll =>
      if c.toNat < 48 ∨ 57 < c.toNat then none
        else str2intLoop cs ((v * 10 % 2 ^ 64 + (c.toNat - 48)) % 2 ^ 64) (ll + 1)

def textLength (buf : List UInt8) (l : ℤ) : ℕ := if l < 0 then strlen buf else l.toNat

/-- The value returned and the value stored. -/
def str2int (buf : List UInt8) (l : ℤ) : ℤ × Option ℤ :=
  if l = 0 then (eINVAL, none)
  else
    let isreg := buf.getD 0 0 = minusSign
    let cs := if isreg then chars buf 1 (textLength buf l - 1) else chars buf 0 (textLength buf l)
    match str2intLoop cs 0 0 with
    | none => (eINVAL, none)
    | some (v, ll) =>
        if isreg then
          if 2 ^ 63 - 1 ≤ v then (eINVAL, none) else (if ll = 0 then eINVAL else 1, some (-toInt64 v))
        else (if ll = 0 then eINVAL else 0, some (toInt64 v))

/-! ## What should be -/

/-- The characters that are meant. -/
def text (buf : List UInt8) (l : ℤ) : List UInt8 := chars buf 0 (textLength buf l)

def sign (neg : Bool) : List UInt8 := if neg then [minusSign] else []

/-- An optional minus sign and at least one digit. -/
def IsNumber (cs : List UInt8) (neg : Bool) (ds : List UInt8) : Prop :=
  cs = sign neg ++ ds ∧ ds ≠ [] ∧ ∀ d ∈ ds, isDigit d = true

def signed (neg : Bool) (n : ℕ) : ℤ := if neg then -(n : ℤ) else n

def FitsInt64 (v : ℤ) : Prop := -2 ^ 63 ≤ v ∧ v < 2 ^ 63

instance (v : ℤ) : Decidable (FitsInt64 v) := inferInstanceAs (Decidable (_ ∧ _))

/-- A number that fits is stored and its sign returned, everything else is an error. -/
def Str2intRight (buf : List UInt8) (l : ℤ) : Prop :=
  (∀ neg ds, IsNumber (text buf l) neg ds → FitsInt64 (signed neg (decimal ds)) →
    str2int buf l = (if neg then 1 else 0, some (signed neg (decimal ds)))) ∧
  ((∀ neg ds, IsNumber (text buf l) neg ds → ¬FitsInt64 (signed neg (decimal ds))) → (str2int buf l).1 < 0)

/-- Below the limits, or beyond the lower one and rejected all the same. -/
def InRange (neg : Bool) (n : ℕ) : Prop :=
  if neg then n < 2 ^ 63 - 1 ∨ (2 ^ 63 < n ∧ 2 ^ 63 - 1 ≤ n % 2 ^ 64) else n < 2 ^ 63

/-! ## The loop -/

variable {buf cs ds : List UInt8} {l : ℤ} {neg : Bool} {v ll : ℕ}

theorem str2intLoop_digits (hds : ∀ d ∈ ds, isDigit d = true) (n ll : ℕ) :
    str2intLoop ds (n % 2 ^ 64) ll = some (readOn n ds % 2 ^ 64, ll + ds.length) := by
  induction ds generalizing n ll with
  | nil => rfl
  | cons d ds ih =>
    have hd := hds d List.mem_cons_self
    simp only [isDigit, Bool.and_eq_true, decide_eq_true_eq] at hd
    have hstep : (n % 2 ^ 64 * 10 % 2 ^ 64 + (d.toNat - 48)) % 2 ^ 64 = (n * 10 + digitVal d) % 2 ^ 64 := by
      rw [digitVal]
      omega
    rw [str2intLoop, if_neg (by omega), hstep, ih (fun c hc => hds c (List.mem_cons_of_mem _ hc)),
      readOn_cons, List.length_cons,
      Nat.add_assoc, Nat.add_comm 1]

theorem str2intLoop_some {r : ℕ × ℕ} (hr : str2intLoop cs v ll = some r) : ∀ d ∈ cs, isDigit d = true := by
  induction cs generalizing v ll with
  | nil =>
    intro d hd
    cases hd
  | cons c cs ih =>
    rw [str2intLoop] at hr
    obtain ⟨hdigit, hrest⟩ := Option.ite_none_left_eq_some.mp hr
    intro d hd
    rcases List.mem_cons.mp hd with rfl | hd
    · simp only [isDigit, Bool.and_eq_true, decide_eq_true_eq]
      omega
    · exact ih hrest d hd

theorem str2intLoop_eq_none (hcs : ¬∀ d ∈ cs, isDigit d = true) : str2intLoop cs v ll = none := by
  cases hr : str2intLoop cs v ll with
  | none => rfl
  | some r => exact absurd (str2intLoop_some hr) hcs

/-! ## The sign -/

/-- What the loop reads. -/
def digitsOf (buf : List UInt8) (l : ℤ) : List UInt8 :=
  if buf.getD 0 0 = minusSign then chars buf 1 (textLength buf l - 1) else chars buf 0 (textLength buf l)

theorem textLength_pos (hl : l ≠ 0) (hminus : buf.getD 0 0 = minusSign) : 0 < textLength buf l := by
  rw [textLength]
  split_ifs with hneg
  · cases buf with
    | nil => cases hminus
    | cons c cs =>
      have hc : c = minusSign := hminus
      simp [strlen, hc, minusSign]
  · omega

theorem chars_succ (buf : List UInt8) (start n : ℕ) :
    chars buf start (n + 1) = buf.getD start 0 :: chars buf (start + 1) n := by
  rw [chars, List.range_succ_eq_map, List.map_cons, List.map_map, chars]
  congr 1
  apply List.map_congr_left
  intro i _
  simp only [Function.comp_apply]
  congr 1
  omega

theorem text_minus (hl : l ≠ 0) (hminus : buf.getD 0 0 = minusSign) :
    text buf l = minusSign :: digitsOf buf l := by
  have hpos := textLength_pos hl hminus
  rw [text, digitsOf, if_pos hminus, ← hminus, ← chars_succ]
  congr 1
  omega

theorem text_head {c : UInt8} (htext : text buf l = c :: cs) : buf.getD 0 0 = c := by
  rw [text] at htext
  cases hn : textLength buf l with
  | zero =>
    rw [hn] at htext
    cases htext
  | succ n =>
    rw [hn, chars_succ] at htext
    injection htext

theorem isDigit_minus : isDigit minusSign = false := by decide

theorem isNumber_text (hl : l ≠ 0) : IsNumber (text buf l) neg ds ↔
    neg = decide (buf.getD 0 0 = minusSign) ∧ ds = digitsOf buf l ∧ ds ≠ [] ∧ ∀ d ∈ ds, isDigit d = true := by
  by_cases hminus : buf.getD 0 0 = minusSign
  · rw [IsNumber, text_minus hl hminus, decide_eq_true hminus]
    constructor
    · rintro ⟨hcs, hne, hds⟩
      cases neg with
      | false =>
        have hmem : minusSign ∈ ds := by
          change _ = ds at hcs
          exact hcs ▸ List.mem_cons_self
        have hfirst := hds minusSign hmem
        rw [isDigit_minus] at hfirst
        cases hfirst
      | true =>
        injection hcs with _ htail
        exact ⟨rfl, htail.symm, hne, hds⟩
    · rintro ⟨rfl, rfl, hne, hds⟩
      exact ⟨rfl, hne, hds⟩
  · rw [IsNumber, decide_eq_false hminus, digitsOf, if_neg hminus, ← text]
    constructor
    · rintro ⟨hcs, hne, hds⟩
      cases neg with
      | false => exact ⟨rfl, hcs.symm, hne, hds⟩
      | true => exact absurd (text_head hcs) hminus
    · rintro ⟨rfl, rfl, hne, hds⟩
      exact ⟨rfl, hne, hds⟩

/-! ## What is returned -/

/-- The result for a sign and a value that was added up modulo 2^64. -/
def signedResult (neg : Bool) (v : ℕ) : ℤ × Option ℤ :=
  if neg then if 2 ^ 63 - 1 ≤ v then (eINVAL, none) else (1, some (-toInt64 v)) else (0, some (toInt64 v))

theorem str2int_eq (hl : l ≠ 0) : str2int buf l = match str2intLoop (digitsOf buf l) 0 0 with
    | none => (eINVAL, none)
    | some (v, ll) =>
        if buf.getD 0 0 = minusSign then
          if 2 ^ 63 - 1 ≤ v then (eINVAL, none) else (if ll = 0 then eINVAL else 1, some (-toInt64 v))
        else (if ll = 0 then eINVAL else 0, some (toInt64 v)) := by
  rw [str2int, if_neg hl]
  rfl

theorem ne_zero_of_isNumber (hnumber : IsNumber (text buf l) neg ds) : l ≠ 0 := by
  rintro rfl
  obtain ⟨hcs, hne, _⟩ := hnumber
  exact hne (List.append_eq_nil_iff.mp hcs.symm).2

theorem str2int_number (hnumber : IsNumber (text buf l) neg ds) :
    str2int buf l = signedResult neg (decimal ds % 2 ^ 64) := by
  have hl := ne_zero_of_isNumber hnumber
  obtain ⟨hneg, rfl, hne, hds⟩ := (isNumber_text hl).mp hnumber
  have hlen : 0 + (digitsOf buf l).length ≠ 0 := by
    rw [Nat.zero_add]
    exact fun h => hne (List.length_eq_zero_iff.mp h)
  have hloop := str2intLoop_digits hds 0 0
  rw [Nat.zero_mod] at hloop
  rw [str2int_eq hl, hloop]
  cases neg with
  | false =>
    have hplus := of_decide_eq_false hneg.symm
    simp only [if_neg hplus, if_neg hlen]
    rfl
  | true =>
    have hminus := of_decide_eq_true hneg.symm
    simp only [if_pos hminus, if_neg hlen]
    rfl

theorem str2int_other (hother : ∀ neg ds, ¬IsNumber (text buf l) neg ds) : (str2int buf l).1 < 0 := by
  by_cases hl : l = 0
  · rw [str2int, if_pos hl]
    decide
  · rw [str2int_eq hl]
    by_cases hds : ∀ d ∈ digitsOf buf l, isDigit d = true
    · have hnil : digitsOf buf l = [] := by
        by_contra hne
        exact hother _ _ ((isNumber_text hl).mpr ⟨rfl, rfl, hne, hds⟩)
      rw [hnil]
      simp only [str2intLoop]
      split_ifs <;> decide
    · rw [str2intLoop_eq_none hds]
      exact (by decide : eINVAL < 0)

theorem isNumber_unique {neg' : Bool} {ds' : List UInt8} (hnumber : IsNumber (text buf l) neg ds)
    (hnumber' : IsNumber (text buf l) neg' ds') : neg' = neg ∧ ds' = ds := by
  have hl := ne_zero_of_isNumber hnumber
  obtain ⟨rfl, rfl, _⟩ := (isNumber_text hl).mp hnumber
  obtain ⟨rfl, rfl, _⟩ := (isNumber_text hl).mp hnumber'
  exact ⟨rfl, rfl⟩

/-- One number: its result is right exactly in range. -/
theorem signedResult_iff (neg : Bool) (n : ℕ) :
    (if FitsInt64 (signed neg n) then signedResult neg (n % 2 ^ 64) =
      (if neg then 1 else 0, some (signed neg n))
      else (signedResult neg (n % 2 ^ 64)).1 < 0) ↔ InRange neg n := by
  cases neg with
  | false =>
    simp only [signed, FitsInt64, signedResult, toInt64, InRange, Bool.false_eq_true, if_false]
    split_ifs <;> simp <;> omega
  | true =>
    simp only [signed, FitsInt64, signedResult, toInt64, InRange, if_true, eINVAL]
    split_ifs <;> simp <;> omega

/-- Exactly the numbers in range are read right. -/
theorem str2int_iff (buf : List UInt8) (l : ℤ) :
    Str2intRight buf l ↔ ∀ neg ds, IsNumber (text buf l) neg ds → InRange neg (decimal ds) := by
  constructor
  · rintro ⟨hfits, hother⟩ neg ds hnumber
    apply (signedResult_iff neg (decimal ds)).mp
    rw [← str2int_number hnumber]
    by_cases hfit : FitsInt64 (signed neg (decimal ds))
    · rw [if_pos hfit]
      exact hfits neg ds hnumber hfit
    · rw [if_neg hfit]
      apply hother
      intro neg' ds' hnumber'
      obtain ⟨rfl, rfl⟩ := isNumber_unique hnumber hnumber'
      exact hfit
  · intro hrange
    constructor
    · intro neg ds hnumber hfit
      have hright := (signedResult_iff neg (decimal ds)).mpr (hrange neg ds hnumber)
      rw [if_pos hfit] at hright
      rw [str2int_number hnumber, hright]
    · intro hunfit
      by_cases hnumber : ∃ neg ds, IsNumber (text buf l) neg ds
      · obtain ⟨neg, ds, hnumber⟩ := hnumber
        have hright := (signedResult_iff neg (decimal ds)).mpr (hrange neg ds hnumber)
        rw [if_neg (hunfit neg ds hnumber)] at hright
        rw [str2int_number hnumber]
        exact hright
      · apply str2int_other
        intro neg ds hn
        exact hnumber ⟨neg, ds, hn⟩

def twoTo63Text : List UInt8 := [57, 50, 50, 51, 51, 55, 50, 48, 51, 54, 56, 53, 52, 55, 55, 53, 56, 48, 56]

/-- 2^63 is taken for the least number of the type. -/
theorem two_to_63_accepted : ¬Str2intRight twoTo63Text 19 := by
  rintro ⟨_, hother⟩
  have hneg := hother fun neg ds hnumber => by
    obtain ⟨rfl, rfl, _⟩ := (isNumber_text (by decide)).mp hnumber
    decide +kernel
  revert hneg
  decide +kernel

end Skp.Utils
