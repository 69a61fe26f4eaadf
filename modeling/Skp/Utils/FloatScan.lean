import Skp.Utils.Str2float

/-! # The loop of str2float

The loop sorts the digits of a text into three lists and adds each of them up. -/
namespace Skp.Utils
set_option autoImplicit false
open Skp.Foundations

variable {cs ds : List UInt8} {t : FloatText} {s : FloatScan} {p : FloatPart}

/-! ## Numbers within a type -/

theorem wrap64_eq {z : ℤ} (hlow : -2 ^ 63 ≤ z) (hhigh : z < 2 ^ 63) : wrap64 z = z := by
  apply Int.bmod_eq_of_le_mul_two
  · norm_num at hlow ⊢
    omega
  · norm_num at hhigh ⊢
    omega

theorem wrap32_eq {z : ℤ} (hlow : -2 ^ 31 ≤ z) (hhigh : z < 2 ^ 31) : wrap32 z = z := by
  apply Int.bmod_eq_of_le_mul_two
  · norm_num at hlow ⊢
    omega
  · norm_num at hhigh ⊢
    omega

theorem wrap64_nat {n : ℕ} (hn : n < 2 ^ 63) : wrap64 n = n := wrap64_eq (by omega) (by omega)

theorem addDigit_wrap (n : ℕ) (c : UInt8) : addDigit (wrap64 n) c = wrap64 ((n * 10 + digitVal c : ℕ)) := by
  rw [addDigit, wrap64, wrap64, wrap64, Int.bmod_add_bmod, wrap64, ← Int.bmod_add_bmod,
    Int.bmod_mul_bmod, Int.bmod_add_bmod]
  push_cast
  rfl

/-! ## The three lists -/

/-- More digits in front. -/
def FloatText.prepend (p : FloatPart) (ds : List UInt8) (t : FloatText) : FloatText :=
  match p with
  | .iv => { t with whole := ds ++ t.whole }
  | .dv => { t with fraction := ds ++ t.fraction }
  | .ev => { t with exponent := ds ++ t.exponent }

/-- The digits of a text, for a loop that is in part `p`; `none` where it stops. -/
def floatParts : FloatPart → List UInt8 → Option FloatText
  | _, [] => some ⟨[], [], [], false⟩
  | p, c :: cs =>
      if isDigit c then (floatParts p cs).map (FloatText.prepend p [c])
      else if c = point ∧ p ≠ .dv then floatParts .dv cs
      else if isExponent c = true ∧ p ≠ .ev then
        match cs with
        | [] => some ⟨[], [], [], false⟩
        | d :: ds =>
            if d = minusSign ∨ d = plusSign then
              (floatParts .ev ds).map fun t => { t with negExp := (d == minusSign) || t.negExp }
            else floatParts .ev (d :: ds)
      else none

theorem floatParts_digit {c : UInt8} (hc : isDigit c = true) :
    floatParts p (c :: cs) = (floatParts p cs).map (FloatText.prepend p [c]) := by
  rw [floatParts.eq_def]
  simp only [if_pos hc]

theorem floatParts_point (hp : p ≠ .dv) : floatParts p (point :: cs) = floatParts .dv cs := by
  rw [floatParts.eq_def]
  simp only [if_neg (by decide : ¬isDigit point = true), if_pos (And.intro trivial hp)]

/-- The scan after the lists of `t` have been read, with `pi` forgotten. -/
def FloatScan.after (s : FloatScan) (t : FloatText) : FloatScan :=
  ⟨t.whole.foldl addDigit s.iv, t.fraction.foldl addDigit s.dv, t.exponent.foldl addDigit s.ev,
    t.fraction.foldl (fun n _ => wrap32 (n + 1)) s.dvB, .iv, s.eIsreg || t.negExp, s.ll + t.digits.length⟩

def FloatScan.atEnd (s : FloatScan) : FloatScan := { s with pi := .iv }

theorem after_nothing (s : FloatScan) : s.after ⟨[], [], [], false⟩ = s.atEnd := by
  simp [FloatScan.after, FloatScan.atEnd, FloatText.digits]

theorem after_digit (s : FloatScan) (c : UInt8) (t : FloatText) :
    (readInto s c).after t = s.after (t.prepend s.pi [c]) := by
  rw [readInto]
  cases s.pi <;>
    simp only [FloatText.prepend, FloatScan.after, FloatText.digits, List.singleton_append,
    List.foldl_cons,
    List.length_append, List.length_cons] <;> congr 1 <;> omega

theorem after_sign (s : FloatScan) (p : FloatPart) (b : Bool) (t : FloatText) :
    ({ s with pi := p, eIsreg := s.eIsreg || b } : FloatScan).after t =
      s.after { t with negExp := b || t.negExp } := by
  rw [FloatScan.after, FloatScan.after, Bool.or_assoc]
  rfl

theorem floatLoop_eq (cs : List UInt8) (s : FloatScan) :
    (floatLoop cs s).map FloatScan.atEnd = (floatParts s.pi cs).map s.after := by
  fun_induction floatLoop cs s with
  | case1 s =>
    rw [floatParts, Option.map_some, Option.map_some, after_nothing]
  | case2 c cs s hc ih =>
    have hpi : (readInto s c).pi = s.pi := by
      rw [readInto]
      cases hp : s.pi <;> rfl
    rw [floatParts_digit hc, ih, hpi, Option.map_map]
    congr 1
    funext t
    exact after_digit s c t
  | case3 c cs s hc hpoint ih =>
    obtain ⟨rfl, hp⟩ := hpoint
    rw [floatParts_point hp, ih]
    rfl
  | case4 c s hc hpoint hexp =>
    rw [floatParts, if_neg hc, if_neg hpoint, if_pos hexp, Option.map_some, Option.map_some, after_nothing]
    rfl
  | case5 c s hc hpoint hexp d ds hsign ih =>
    rw [floatParts, if_neg hc, if_neg hpoint, if_pos hexp, if_pos hsign, ih, Option.map_map]
    congr 1
    funext t
    exact after_sign s .ev (d == minusSign) t
  | case6 c s hc hpoint hexp d ds hsign ih =>
    rw [floatParts, if_neg hc, if_neg hpoint, if_pos hexp, if_neg hsign, ih]
    rfl
  | case7 c cs s hc hpoint hexp =>
    rw [floatParts.eq_def]
    simp only [if_neg hc, if_neg hpoint, if_neg hexp]
    rfl

/-! ## What the lists hold -/

theorem floatParts_isDigit (p : FloatPart) (cs : List UInt8) :
    ∀ t, floatParts p cs = some t → ∀ d ∈ t.digits, isDigit d = true := by
  fun_induction floatParts p cs with
  | case1 p =>
    intro t ht d hd
    rw [Option.some_inj] at ht
    subst ht
    cases hd
  | case2 p c cs hc ih =>
    intro t ht d hd
    obtain ⟨u, hu, rfl⟩ := Option.map_eq_some_iff.mp ht
    have hmem : d = c ∨ d ∈ u.digits := by
      revert hd
      cases p <;>
        simp only [FloatText.prepend, FloatText.digits, List.mem_append, List.mem_singleton] <;>
        tauto
    rcases hmem with rfl | hmem
    · exact hc
    · exact ih u hu d hmem
  | case3 p c cs hc hpoint ih => exact ih
  | case4 p c hc hpoint hexp =>
    intro t ht d hd
    rw [Option.some_inj] at ht
    subst ht
    cases hd
  | case5 p c hc hpoint hexp d ds hsign ih =>
    intro t ht d hd
    obtain ⟨u, hu, rfl⟩ := Option.map_eq_some_iff.mp ht
    exact ih u hu d hd
  | case6 p c hc hpoint hexp d ds hsign ih => exact ih
  | case7 p c cs hc hpoint hexp =>
    intro t ht
    cases ht

theorem foldl_addDigit (n : ℕ) (ds : List UInt8) : ds.foldl addDigit (wrap64 n) = wrap64 (readOn n ds) := by
  induction ds generalizing n with
  | nil => rw [List.foldl_nil, readOn_nil]
  | cons d ds ih => rw [List.foldl_cons, addDigit_wrap, ih, readOn_cons]

theorem foldl_addDigit_zero (ds : List UInt8) : ds.foldl addDigit 0 = wrap64 (decimal ds) := by
  have hfold := foldl_addDigit 0 ds
  rw [Nat.cast_zero, wrap64_eq (by norm_num) (by norm_num)] at hfold
  rw [hfold, ← decimal]

theorem foldl_count (ds : List UInt8) (n : ℕ) (hfit : n + ds.length < 2 ^ 31) :
    ds.foldl (fun n _ => wrap32 (n + 1)) (n : ℤ) = (n + ds.length : ℕ) := by
  induction ds generalizing n with
  | nil => rfl
  | cons d ds ih =>
    rw [List.length_cons] at hfit ⊢
    have hstep : wrap32 ((n : ℤ) + 1) = ((n + 1 : ℕ) : ℤ) := by
      rw [wrap32_eq (by omega) (by omega), Nat.cast_add, Nat.cast_one]
    rw [List.foldl_cons, hstep, ih (n + 1) (by omega), Nat.add_right_comm, Nat.add_assoc]

/-- What the scan of the three lists holds: the numbers in 64 bits. -/
structure ReadLow (s : FloatScan) (t : FloatText) : Prop where
  iv : s.iv = wrap64 (decimal t.whole)
  dv : s.dv = wrap64 (decimal t.fraction)
  ev : s.ev = wrap64 (decimal t.exponent)
  dvB : t.fraction.length < 2 ^ 31 → s.dvB = t.fraction.length
  eIsreg : s.eIsreg = t.negExp
  ll : s.ll = t.digits.length

theorem floatLoop_none (h : floatParts .iv cs = none) : floatLoop cs floatStart = none := by
  have hloop := floatLoop_eq cs floatStart
  rw [show floatStart.pi = .iv from rfl, h] at hloop
  exact Option.map_eq_none_iff.mp hloop

theorem floatLoop_some (h : floatParts .iv cs = some t) :
    ∃ s, floatLoop cs floatStart = some s ∧ ReadLow s t := by
  have hloop := floatLoop_eq cs floatStart
  rw [show floatStart.pi = .iv from rfl, h] at hloop
  obtain ⟨s, hs, hend⟩ := Option.map_eq_some_iff.mp hloop
  have hfield {α : Type} (f : FloatScan → α) : f s.atEnd = f (floatStart.after t) := congrArg f hend
  refine ⟨s, hs, ?_⟩
  exact
    { iv := (hfield FloatScan.iv).trans (foldl_addDigit_zero t.whole)
      dv := (hfield FloatScan.dv).trans (foldl_addDigit_zero t.fraction)
      ev := (hfield FloatScan.ev).trans (foldl_addDigit_zero t.exponent)
      dvB := fun hlength => by
        have hcount := foldl_count t.fraction 0 (by omega)
        rw [Nat.zero_add] at hcount
        exact (hfield FloatScan.dvB).trans hcount
      eIsreg := (hfield FloatScan.eIsreg).trans (Bool.false_or _)
      ll := (hfield FloatScan.ll).trans (Nat.zero_add _) }

/-! ## Texts of the right form -/

theorem floatParts_digits (hds : ∀ d ∈ ds, isDigit d = true) (ht : floatParts p cs = some t) :
    floatParts p (ds ++ cs) = some (t.prepend p ds) := by
  induction ds with
  | nil =>
    rw [List.nil_append, ht]
    cases p <;> rfl
  | cons d ds ih =>
    rw [List.cons_append, floatParts_digit (hds d List.mem_cons_self),
      ih (fun c hc => hds c (List.mem_cons_of_mem _ hc)),
      Option.map_some]
    cases p <;> rfl

theorem floatParts_other {c : UInt8} (hc : isDigit c = false) (hpoint : c ≠ point)
    (hexp : isExponent c = false) :
    floatParts p (c :: cs) = none := by
  rw [floatParts.eq_def]
  simp only [hc, hexp, Bool.false_eq_true, false_and, if_false, hpoint]

theorem not_of_isExponent {c : UInt8} (hc : isExponent c = true) : isDigit c = false ∧ c ≠ point := by
  simp only [isExponent, Bool.or_eq_true, beq_iff_eq] at hc
  rcases hc with rfl | rfl <;> decide

theorem not_sign_of_isDigit {c : UInt8} (hc : isDigit c = true) : ¬(c = minusSign ∨ c = plusSign) := by
  rintro (rfl | rfl) <;> revert hc <;> decide

theorem floatParts_minus : floatParts p (minusSign :: cs) = none :=
  floatParts_other isDigit_minus (by decide) (by decide)

theorem floatParts_signed {c d : UInt8} (hp : p ≠ .ev) (hc : isExponent c = true)
    (hd : d = minusSign ∨ d = plusSign) :
    floatParts p (c :: d :: cs) = (floatParts .ev cs).map fun t =>
  { t with negExp := (d == minusSign) || t.negExp } := by
  obtain ⟨hdigit, hpoint⟩ := not_of_isExponent hc
  rw [floatParts.eq_def]
  simp only [hdigit, hpoint, hc, hp, Bool.false_eq_true, if_false, false_and, if_true, ne_eq,
    not_false_eq_true, and_self, if_pos hd]

theorem floatParts_letter {c : UInt8} (hp : p ≠ .ev) (hc : isExponent c = true)
    (hcs : ∀ d ∈ cs.head?, ¬(d = minusSign ∨ d = plusSign)) : floatParts p (c :: cs) = floatParts .ev cs := by
  obtain ⟨hdigit, hpoint⟩ := not_of_isExponent hc
  rw [floatParts.eq_def]
  simp only [hdigit, hpoint, hc, hp, Bool.false_eq_true, if_false, false_and, if_true, ne_eq,
    not_false_eq_true, and_self]
  cases cs with
  | nil => rw [floatParts]
  | cons d ds => simp only [if_neg (hcs d rfl)]

/-! ## Marks -/

/-- The next mark is not of the kind `p`. -/
def Follows (p : FloatPart) (segs : List Segment) : Prop := ∀ s ∈ segs.head?, p ≠ s.part

theorem floatText_fraction (ds : List UInt8) (segs : List Segment) :
    floatText [] (.fraction ds :: segs) = (floatText [] segs).prepend .dv ds := by
  simp [floatText, FloatText.prepend, Segment.fractionDigits, Segment.exponentDigits, Segment.negative]

theorem floatText_exponent (c : UInt8) (sgn ds : List UInt8) (segs : List Segment) :
    floatText [] (.exponent c sgn ds :: segs) =
      { (floatText [] segs).prepend .ev ds with negExp := (sgn == [minusSign]) ||
        (floatText [] segs).negExp } := by
  simp [floatText, FloatText.prepend, Segment.fractionDigits, Segment.exponentDigits, Segment.negative]

theorem no_sign_next {segs : List Segment} (hds : ∀ d ∈ ds, isDigit d = true) (hnext : Follows .ev segs) :
    ∀ d ∈ (ds ++ segs.flatMap Segment.chars).head?, ¬(d = minusSign ∨ d = plusSign) := by
  intro d hd
  cases ds with
  | cons e es =>
    obtain rfl := Option.some_inj.mp hd
    exact not_sign_of_isDigit (hds e List.mem_cons_self)
  | nil =>
    cases segs with
    | nil => cases hd
    | cons s segs =>
      cases s with
      | fraction es =>
        obtain rfl := Option.some_inj.mp hd
        decide
      | exponent => exact absurd rfl (hnext _ rfl)

theorem floatParts_segments {segs : List Segment} (hparts : ∀ s ∈ segs, s.Ok)
    (halternate : segs.IsChain fun s s' => s.part ≠ s'.part) (hp : Follows p segs) :
    floatParts p (segs.flatMap Segment.chars) = some (floatText [] segs) := by
  induction segs generalizing p with
  | nil =>
    rw [List.flatMap_nil, floatParts]
    rfl
  | cons s segs ih =>
    obtain ⟨hnext, hchain⟩ := List.isChain_cons.mp halternate
    have hrest := ih (fun s' hs' => hparts s' (List.mem_cons_of_mem s hs')) hchain hnext
    have hp' := hp s rfl
    have hok := hparts s List.mem_cons_self
    rw [List.flatMap_cons]
    cases s with
    | fraction ds =>
      rw [Segment.chars, List.cons_append, floatParts_point hp', floatText_fraction]
      exact floatParts_digits hok hrest
    | exponent c sgn ds =>
      obtain ⟨hc, hsgn, hds⟩ := hok
      have hread := floatParts_digits hds hrest
      rw [Segment.chars, List.cons_append, List.append_assoc, floatText_exponent]
      rcases hsgn with rfl | rfl | rfl
      · rw [List.nil_append, floatParts_letter hp' hc (no_sign_next hds hnext)]
        exact hread
      · rw [List.singleton_append, floatParts_signed hp' hc (.inr rfl)]
        exact congrArg _ hread
      · rw [List.singleton_append, floatParts_signed hp' hc (.inl rfl)]
        exact congrArg _ hread

theorem Marked.floatParts {whole : List UInt8} {segs : List Segment} (h : Marked cs whole segs) :
    floatParts .iv cs = some (floatText whole segs) := by
  have hfirst : Follows .iv segs := by
    intro s _ heq
    cases s <;> cases heq
  have hread := floatParts_digits h.digits (floatParts_segments h.parts h.alternate hfirst)
  rw [h.spelled, hread]
  simp [FloatText.prepend, floatText]

theorem Marked.length_le {whole : List UInt8} {segs : List Segment} (h : Marked cs whole segs) :
    (floatText whole segs).digits.length ≤ cs.length := by
  have hsegs : (segs.flatMap Segment.fractionDigits).length + (segs.flatMap Segment.exponentDigits).length ≤
      (segs.flatMap Segment.chars).length := by
    clear h
    induction segs with
    | nil => exact le_refl _
    | cons s segs ih =>
      have hone : s.fractionDigits.length + s.exponentDigits.length ≤ s.chars.length := by
        cases s with
        | fraction ds => exact Nat.le_succ _
        | exponent c sgn ds =>
          simp only [Segment.fractionDigits, Segment.exponentDigits, Segment.chars,
            List.length_cons, List.length_append,
            List.length_nil]
          omega
      simp only [List.flatMap_cons, List.length_append]
      omega
  rw [h.spelled, List.length_append]
  simp only [floatText, FloatText.digits, List.length_append]
  omega

theorem segments_of_floatParts (p : FloatPart) (cs : List UInt8) : ∀ t, floatParts p cs = some t →
    ∃ ds segs, cs = ds ++ segs.flatMap Segment.chars ∧ (∀ d ∈ ds, isDigit d = true) ∧ (∀ s ∈ segs, s.Ok) ∧
      (segs.IsChain fun s s' => s.part ≠ s'.part) ∧ Follows p segs ∧
        t = (floatText [] segs).prepend p ds := by
  have hnone : ∀ d ∈ ([] : List UInt8), isDigit d = true := fun d hd => absurd hd List.not_mem_nil
  have hnil (p : FloatPart) : FloatText.prepend p [] = id := by
    funext t
    cases p <;> rfl
  fun_induction floatParts p cs with
  | case1 p =>
    intro t ht
    obtain rfl := Option.some_inj.mp ht
    exact ⟨[], [], rfl, hnone, by simp, .nil, by simp [Follows], by rw [hnil]; rfl⟩
  | case2 p c cs hc ih =>
    intro t ht
    obtain ⟨u, hu, rfl⟩ := Option.map_eq_some_iff.mp ht
    obtain ⟨ds, segs, rfl, hds, hparts, hchain, hfollows, rfl⟩ := ih u hu
    refine ⟨c :: ds, segs, rfl, List.forall_mem_cons.mpr ⟨hc, hds⟩, hparts, hchain, hfollows, ?_⟩
    cases p <;> rfl
  | case3 p c cs hc hpoint ih =>
    intro t ht
    obtain ⟨rfl, hp⟩ := hpoint
    obtain ⟨ds, segs, rfl, hds, hparts, hchain, hfollows, rfl⟩ := ih t ht
    refine ⟨[], .fraction ds :: segs, rfl, hnone, List.forall_mem_cons.mpr ⟨hds, hparts⟩,
      List.isChain_cons.mpr ⟨hfollows, hchain⟩, ?_, ?_⟩
    · intro s hs
      obtain rfl := Option.some_inj.mp hs
      exact hp
    · rw [hnil, floatText_fraction]
      rfl
  | case4 p c hc hpoint hexp =>
    intro t ht
    obtain rfl := Option.some_inj.mp ht
    refine ⟨[], [.exponent c [] []], rfl, hnone, ?_, .singleton _, ?_, by rw [hnil]; rfl⟩
    · intro s hs
      obtain rfl := List.mem_singleton.mp hs
      exact ⟨hexp.1, .inl rfl, hnone⟩
    · intro s hs
      obtain rfl := Option.some_inj.mp hs
      exact hexp.2
  | case5 p c hc hpoint hexp d ds hsign ih =>
    intro t ht
    obtain ⟨u, hu, rfl⟩ := Option.map_eq_some_iff.mp ht
    obtain ⟨es, segs, rfl, hes, hparts, hchain, hfollows, rfl⟩ := ih u hu
    have hsgn : [d] = [] ∨ [d] = [plusSign] ∨ [d] = [minusSign] := by
      rcases hsign with rfl | rfl
      · exact .inr (.inr rfl)
      · exact .inr (.inl rfl)
    refine ⟨[], .exponent c [d] es :: segs, rfl, hnone,
      List.forall_mem_cons.mpr ⟨⟨hexp.1, hsgn, hes⟩, hparts⟩,
      List.isChain_cons.mpr ⟨hfollows, hchain⟩, ?_, ?_⟩
    · intro s hs
      obtain rfl := Option.some_inj.mp hs
      exact hexp.2
    · have hminus : ([d] == [minusSign]) = (d == minusSign) := by simp [List.cons_beq_cons]
      rw [hnil, floatText_exponent, hminus]
      rfl
  | case6 p c hc hpoint hexp d ds hsign ih =>
    intro t ht
    obtain ⟨es, segs, hcs, hes, hparts, hchain, hfollows, rfl⟩ := ih t ht
    refine ⟨[], .exponent c [] es :: segs, by rw [hcs]; rfl, hnone,
      List.forall_mem_cons.mpr ⟨⟨hexp.1, .inl rfl, hes⟩, hparts⟩,
      List.isChain_cons.mpr ⟨hfollows, hchain⟩, ?_, ?_⟩
    · intro s hs
      obtain rfl := Option.some_inj.mp hs
      exact hexp.2
    · rw [hnil, floatText_exponent]
      rfl
  | case7 p c cs hc hpoint hexp =>
    intro t ht
    cases ht

theorem exists_marked (h : Utils.floatParts .iv cs = some t) :
    ∃ whole segs, Marked cs whole segs ∧ floatText whole segs = t := by
  obtain ⟨ds, segs, hcs, hds, hparts, hchain, -, rfl⟩ := segments_of_floatParts .iv cs t h
  refine ⟨ds, segs, ⟨hcs, hds, hparts, hchain⟩, ?_⟩
  simp [FloatText.prepend, floatText]

theorem Marked.areDigits {whole : List UInt8} {segs : List Segment} (h : Marked cs whole segs) :
    ∀ d ∈ (floatText whole segs).digits, isDigit d = true := floatParts_isDigit .iv cs _ h.floatParts

/-! ## Texts of the right form -/

theorem sign_chars {sgn : List UInt8} (hsgn : sgn = [] ∨ sgn = [plusSign] ∨ sgn = [minusSign]) :
    ∀ d ∈ sgn, d ≠ point ∧ isExponent d = false ∧ isDigit d = false := by
  intro d hd
  rcases hsgn with rfl | rfl | rfl
  · cases hd
  · obtain rfl := List.mem_singleton.mp hd
    decide
  · obtain rfl := List.mem_singleton.mp hd
    decide

section Placed
variable {whole : List UInt8} {segs rest : List Segment} {c : UInt8} {sgn es : List UInt8}

theorem Marked.last_of_placed (front : List Segment)
    (h : Marked cs whole (front ++ .exponent c sgn es :: rest)) (hplaced : ExponentPlaced cs) :
    rest = [] ∧ es ≠ [] ∧ ∃ d ∈ whole ++ front.flatMap Segment.chars, isDigit d = true := by
  have hok := h.parts _ (List.mem_append_right front List.mem_cons_self)
  have hcs : cs = (whole ++ front.flatMap Segment.chars) ++
      c :: (sgn ++ (es ++ rest.flatMap Segment.chars)) := by
    rw [h.spelled]
    simp [Segment.chars]
  obtain ⟨hbefore, ⟨d, hd, hdigit⟩, hafter⟩ := hplaced _ c _ hcs hok.1
  have hrest : rest = [] := by
    cases rest with
    | nil => rfl
    | cons s rest =>
      have hmem : ∀ e ∈ s.chars, e ≠ point ∧ isExponent e = false := fun e he => hafter e (by simp [he])
      have hok' := h.parts s (by simp)
      cases s with
      | fraction ds => exact absurd rfl (hmem point List.mem_cons_self).1
      | exponent e sgn' ds =>
        have hexp := (hmem e List.mem_cons_self).2
        rw [hok'.1] at hexp
        cases hexp
  subst hrest
  refine ⟨rfl, ?_, hbefore⟩
  rintro rfl
  have hd' : d ∈ sgn := by simpa using hd
  rw [(sign_chars hok.2.1 d hd').2.2] at hdigit
  cases hdigit

theorem Marked.exponentPart (front : List Segment)
    (h : Marked cs whole (front ++ [.exponent c sgn es])) (hne : es ≠ [])
    (hexp : t.exponent = es) (hneg : t.negExp = (sgn == [minusSign])) :
    t.ExponentPart (c :: (sgn ++ es)) := by
  have hok := h.parts _ (List.mem_append_right front (List.mem_singleton_self _))
  refine .inr ⟨c, sgn, hok.1, ?_, by rw [hexp], by rw [hexp]; exact hne⟩
  rw [hneg]
  rcases hok.2.1 with rfl | rfl | rfl
  · exact .inl rfl
  · exact .inr ⟨rfl, rfl⟩
  · exact .inl rfl

/-- Where the exponent is placed right the marks are at most a point and a letter. -/
theorem isFloat_of_placed (h : Marked cs whole segs) (hplaced : ExponentPlaced cs)
    (hdigits : (floatText whole segs).digits ≠ [])
    (neg : Bool) : IsFloat (sign neg ++ cs) neg (floatText whole segs) := by
  refine ⟨h.areDigits, ?_⟩
  match segs, h, hdigits with
  | [], h, hdigits =>
    have hne : whole ≠ [] := by simpa [floatText, FloatText.digits] using hdigits
    refine ⟨by simpa [floatText] using hne, [], [], .inl ⟨rfl, rfl⟩, .inl ⟨rfl, rfl, rfl⟩, ?_⟩
    rw [h.spelled]
    simp [floatText]
  | [.fraction ds], h, hdigits =>
    have hne : whole ++ ds ≠ [] := by
      simpa [floatText, FloatText.digits, Segment.fractionDigits, Segment.exponentDigits] using hdigits
    refine ⟨by simpa [floatText,
      Segment.fractionDigits] using hne, point :: ds, [], .inr ?_, .inl ⟨rfl, rfl, rfl⟩, ?_⟩
    · simp [floatText, Segment.fractionDigits]
    · rw [h.spelled]
      simp [floatText, Segment.chars]
  | [.exponent c sgn es], h, _ =>
    obtain ⟨-, hne, d, hd, -⟩ := Marked.last_of_placed [] h hplaced
    have hpart := Marked.exponentPart (t := floatText whole [.exponent c sgn es]) [] h hne
      (by simp [floatText, Segment.exponentDigits]) (by simp [floatText, Segment.negative])
    have hwhole : whole ≠ [] := by
      rintro rfl
      simp at hd
    refine ⟨by simpa [floatText, Segment.fractionDigits] using hwhole, [], c :: (sgn ++
      es), .inl ⟨rfl, rfl⟩, hpart, ?_⟩
    rw [h.spelled]
    simp [floatText, Segment.chars]
  | [.fraction ds, .exponent c sgn es], h, _ =>
    obtain ⟨-, hne, d, hd, hdigit⟩ := Marked.last_of_placed [.fraction ds] h hplaced
    have hpart :=
      Marked.exponentPart (t := floatText whole [.fraction ds, .exponent c sgn es]) [.fraction ds] h
        hne
      (by simp [floatText, Segment.exponentDigits]) (by simp [floatText, Segment.negative])
    have hmantissa : whole ++ ds ≠ [] := by
      intro hnil
      obtain ⟨rfl, rfl⟩ := List.append_eq_nil_iff.mp hnil
      have hd' : d = point := by simpa [Segment.chars] using hd
      rw [hd'] at hdigit
      exact absurd hdigit (by decide)
    refine ⟨by simpa [floatText, Segment.fractionDigits] using hmantissa, point :: ds, c :: (sgn ++
      es), .inr ?_, hpart, ?_⟩
    · simp [floatText, Segment.fractionDigits]
    · rw [h.spelled]
      simp [floatText, Segment.chars]
  | .fraction _ :: .fraction _ :: _, h, _ => exact absurd rfl (List.isChain_cons_cons.mp h.alternate).1
  | .exponent c sgn es :: s :: rest, h, _ =>
    exact absurd (Marked.last_of_placed [] h hplaced).1 (List.cons_ne_nil s rest)
  | .fraction ds :: .exponent c sgn es :: s :: rest, h, _ =>
    exact absurd (Marked.last_of_placed [.fraction ds] h hplaced).1 (List.cons_ne_nil s rest)

end Placed

section Form
variable {ps es : List UInt8}

theorem exponentPart_cases (hes : t.ExponentPart es) :
    es = [] ∧ t.exponent = [] ∧ t.negExp = false ∨
    ∃ c sgn, es = c :: (sgn ++ t.exponent) ∧ isExponent c = true ∧
      (sgn = [] ∨ sgn = [plusSign] ∨ sgn = [minusSign]) ∧
      t.exponent ≠ [] ∧ t.negExp = (sgn == [minusSign]) := by
  rcases hes with hnone | ⟨c, sgn, hc, rfl | ⟨rfl, hneg⟩, rfl, hne⟩
  · exact .inl hnone
  · right
    cases hneg : t.negExp with
    | true => exact ⟨c, [minusSign], rfl, hc, .inr (.inr rfl), hne, rfl⟩
    | false => exact ⟨c, [], rfl, hc, .inl rfl, hne, rfl⟩
  · exact .inr ⟨c, [plusSign], rfl, hc, .inr (.inl rfl), hne, hneg⟩

theorem marked_of_parts (hps : t.PointPart ps) (hes : t.ExponentPart es)
    (hds : ∀ d ∈ t.digits, isDigit d = true) :
    ∃ segs, Marked (t.whole ++ ps ++ es) t.whole segs ∧ floatText t.whole segs = t := by
  simp only [FloatText.digits, List.mem_append] at hds
  have hwhole : ∀ d ∈ t.whole, isDigit d = true := fun d hd => hds d (.inl (.inl hd))
  have hfraction : (Segment.fraction t.fraction).Ok := fun d hd => hds d (.inl (.inr hd))
  obtain ⟨whole, fraction, exponent, negExp⟩ := t
  rcases exponentPart_cases hes with ⟨rfl, rfl, rfl⟩ | ⟨c, sgn, rfl, hc, hsgn, -, rfl⟩
  · rcases hps with ⟨rfl, rfl⟩ | rfl
    · exact ⟨[], ⟨by simp, hwhole, by simp, .nil⟩, by simp [floatText]⟩
    · refine ⟨[.fraction fraction],
        ⟨by simp [Segment.chars], hwhole, by simpa using hfraction, .singleton _⟩, ?_⟩
      simp [floatText, Segment.fractionDigits, Segment.exponentDigits, Segment.negative]
  · have hexponent : (Segment.exponent c sgn exponent).Ok := ⟨hc, hsgn, fun d hd => hds d (.inr hd)⟩
    rcases hps with ⟨rfl, rfl⟩ | rfl
    · refine ⟨[.exponent c sgn exponent],
        ⟨by simp [Segment.chars], hwhole, by simpa using hexponent, .singleton _⟩, ?_⟩
      simp [floatText, Segment.fractionDigits, Segment.exponentDigits, Segment.negative]
    · refine ⟨[.fraction fraction, .exponent c sgn exponent],
        ⟨by simp [Segment.chars], hwhole, by simpa using ⟨hfraction, hexponent⟩, ?_⟩, ?_⟩
      · exact List.isChain_cons_cons.mpr ⟨fun heq => FloatPart.noConfusion heq, .singleton _⟩
      · simp [floatText, Segment.fractionDigits, Segment.exponentDigits, Segment.negative]

theorem isExponent_of_isDigit {d : UInt8} (hd : isDigit d = true) : isExponent d = false ∧ d ≠ point := by
  refine ⟨eq_false_of_ne_true fun hexp => ?_, fun heq => ?_⟩
  · rw [(not_of_isExponent hexp).1] at hd
    cases hd
  · rw [heq] at hd
    exact absurd hd (by decide)

theorem split_at_letter {front post tail pre : List UInt8} {c e : UInt8}
    (h : pre ++ c :: post = front ++ e :: tail)
    (hc : isExponent c = true) (hfront : ∀ d ∈ front, isExponent d = false)
    (htail : ∀ d ∈ tail, isExponent d = false) :
    pre = front ∧ post = tail := by
  rcases List.append_eq_append_iff.mp h with ⟨mid, rfl, hmid⟩ | ⟨mid, rfl, hmid⟩
  · cases mid with
    | nil =>
      injection hmid with _ hpost
      exact ⟨(List.append_nil pre).symm, hpost⟩
    | cons d mid =>
      injection hmid with hd _
      have hletter := hfront d (by simp)
      rw [← hd, hc] at hletter
      cases hletter
  · cases mid with
    | nil =>
      injection hmid with _ hpost
      exact ⟨List.append_nil front, hpost.symm⟩
    | cons d mid =>
      injection hmid with _ htail'
      have hletter := htail c (by rw [htail']; simp)
      rw [hc] at hletter
      cases hletter

theorem placed_of_parts (hps : t.PointPart ps) (hes : t.ExponentPart es)
    (hds : ∀ d ∈ t.digits, isDigit d = true)
    (hne : t.whole ++ t.fraction ≠ []) : ExponentPlaced (t.whole ++ ps ++ es) := by
  simp only [FloatText.digits, List.mem_append] at hds
  have hfront : ∀ d ∈ t.whole ++ ps, isExponent d = false := by
    intro d hd
    rcases List.mem_append.mp hd with hd | hd
    · exact (isExponent_of_isDigit (hds d (.inl (.inl hd)))).1
    · rcases hps with ⟨rfl, -⟩ | rfl
      · cases hd
      · rcases List.mem_cons.mp hd with rfl | hd
        · decide
        · exact (isExponent_of_isDigit (hds d (.inl (.inr hd)))).1
  have hdigit : ∃ d ∈ t.whole ++ ps, isDigit d = true := by
    obtain ⟨d, hd⟩ := List.exists_mem_of_ne_nil _ hne
    have hdigit := hds d (.inl (List.mem_append.mp hd))
    refine ⟨d, ?_, hdigit⟩
    rcases hps with ⟨rfl, hnil⟩ | rfl
    · rw [hnil] at hd
      exact hd
    · rcases List.mem_append.mp hd with hd | hd
      · exact List.mem_append_left _ hd
      · exact List.mem_append_right _ (List.mem_cons_of_mem point hd)
  intro pre c post hsplit hc
  rcases exponentPart_cases hes with ⟨rfl, -, -⟩ | ⟨e, sgn, rfl, -, hsgn, hexp, -⟩
  · have hmem : c ∈ t.whole ++ ps := by
      rw [← List.append_nil (t.whole ++ ps), hsplit]
      simp
    rw [hfront c hmem] at hc
    cases hc
  · have htail : ∀ d ∈ sgn ++ t.exponent, d ≠ point ∧ isExponent d = false := by
      intro d hd
      rcases List.mem_append.mp hd with hd | hd
      · exact ⟨(sign_chars hsgn d hd).1, (sign_chars hsgn d hd).2.1⟩
      · exact (isExponent_of_isDigit (hds d (.inr hd))).symm
    obtain ⟨rfl, rfl⟩ := split_at_letter hsplit.symm hc hfront fun d hd => (htail d hd).2
    obtain ⟨d, hd⟩ := List.exists_mem_of_ne_nil _ hexp
    exact ⟨hdigit, ⟨d, List.mem_append_right sgn hd, hds d (.inr hd)⟩, htail⟩

end Form

theorem marked_of_isFloat {buf : List UInt8} {l : ℤ} {neg : Bool} (h : IsFloat (text buf l) neg t) :
    l ≠ 0 ∧ neg = decide (buf.getD 0 0 = minusSign) ∧ ExponentPlaced (digitsOf buf l) ∧
      ∃ segs, Marked (digitsOf buf l) t.whole segs ∧ floatText t.whole segs = t := by
  obtain ⟨hds, hne, ps, es, hps, hes, htext⟩ := h
  have hmarked := marked_of_parts hps hes hds
  have hplaced := placed_of_parts hps hes hds hne
  have hnonempty : t.whole ++ ps ++ es ≠ [] := by
    rcases hps with ⟨rfl, hnil⟩ | rfl
    · rw [hnil, List.append_nil] at hne
      simp [hne]
    · simp
  obtain ⟨c, cs, hrest⟩ := List.exists_cons_of_ne_nil hnonempty
  rw [List.append_assoc, List.append_assoc, ← List.append_assoc t.whole, hrest] at htext
  rw [hrest] at hmarked hplaced
  have hl : l ≠ 0 := by
    rintro rfl
    have hnil : text buf 0 = [] := rfl
    rw [hnil] at htext
    cases neg <;> cases htext
  refine ⟨hl, ?_⟩
  cases neg with
  | true =>
    have hminus : buf.getD 0 0 = minusSign := text_head htext
    rw [text_minus hl hminus] at htext
    injection htext with _ htail
    exact ⟨(decide_eq_true hminus).symm, htail ▸ ⟨hplaced, hmarked⟩⟩
  | false =>
    change text buf l = c :: cs at htext
    have hplus : buf.getD 0 0 ≠ minusSign := by
      rw [text_head htext]
      rintro rfl
      obtain ⟨segs, hmarked, -⟩ := hmarked
      have hparts := hmarked.floatParts
      rw [floatParts_minus] at hparts
      cases hparts
    refine ⟨(decide_eq_false hplus).symm, ?_⟩
    rw [digitsOf, if_neg hplus, ← text, htext]
    exact ⟨hplaced, hmarked⟩

theorem text_eq {buf : List UInt8} {l : ℤ} (hl : l ≠ 0) :
    text buf l = sign (decide (buf.getD 0 0 = minusSign)) ++ digitsOf buf l := by
  by_cases hminus : buf.getD 0 0 = minusSign
  · rw [text_minus hl hminus, decide_eq_true hminus]
    rfl
  · rw [decide_eq_false hminus, digitsOf, if_neg hminus]
    rfl

end Skp.Utils
