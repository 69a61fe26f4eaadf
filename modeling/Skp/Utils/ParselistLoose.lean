import Skp.Utils.ParselistItem
import Mathlib.Data.List.DropRight

/-! # Items that are not spelled right

What the scan has read from the characters of an item, wherever its signs stand, and which items
without the documented syntax pass the checks. -/
namespace Skp.Utils
set_option autoImplicit false
open Skp.Foundations

variable {s s' : ScanState} {c d : UInt8} {cs us pre post : List UInt8} {nbits : ℕ}

/-! ## Parts -/

def isSign (c : UInt8) : Bool := c == slash || c == colon

/-- The characters that are no white space. -/
def shown (cs : List UInt8) : List UInt8 := cs.filter (!isspace ·)

/-- What stands behind the last colon or slash. -/
def lastPart (us : List UInt8) : List UInt8 := us.rtakeWhile (!isSign ·)

def beforeLast (c : UInt8) (us : List UInt8) : List UInt8 := (us.rdropWhile (· != c)).dropLast

/-- The number at the front and the one at the end, as unsigned ints. -/
def firstNumber (us : List UInt8) : ℕ := decimal (us.takeWhile isDigit) % 2 ^ 32

def lastNumber (us : List UInt8) : ℕ := decimal (us.rtakeWhile isDigit) % 2 ^ 32

theorem shown_append (cs ds : List UInt8) : shown (cs ++ ds) = shown cs ++ shown ds := List.filter_append ..

theorem shown_space (hc : isspace c = true) (cs : List UInt8) : shown (cs ++ [c]) = shown cs := by
  simp [shown, hc]

theorem shown_char (hc : isspace c = false) (cs : List UInt8) : shown (cs ++ [c]) = shown cs ++ [c] := by
  simp [shown, hc]

theorem lastPart_sign (hc : isSign c = true) (us : List UInt8) : lastPart (us ++ [c]) = [] :=
  List.rtakeWhile_concat_neg _ _ c (by simp [hc])

theorem lastPart_char (hc : isSign c = false) (us : List UInt8) : lastPart (us ++ [c]) = lastPart us ++ [c] :=
  List.rtakeWhile_concat_pos _ _ c (by simp [hc])

theorem beforeLast_self (c : UInt8) (us : List UInt8) : beforeLast c (us ++ [c]) = us := by
  rw [beforeLast, List.rdropWhile_concat_neg _ _ c (by simp), List.dropLast_concat]

theorem beforeLast_char (hd : d ≠ c) (us : List UInt8) : beforeLast c (us ++ [d]) = beforeLast c us := by
  rw [beforeLast, List.rdropWhile_concat_pos _ _ d (by simp [hd]), beforeLast]

theorem mem_of_lastPart (hc : c ∈ lastPart us) : c ∈ us ∧ isSign c = false := by
  have hsign := List.mem_rtakeWhile_imp hc
  exact ⟨(List.rtakeWhile_suffix _ us).mem hc, by simpa using hsign⟩

theorem lastNumber_digit (hd : isDigit d = true) (us : List UInt8) :
    lastNumber (us ++ [d]) = (lastNumber us * 10 + digitVal d) % 2 ^ 32 := by
  rw [lastNumber, List.rtakeWhile_concat_pos _ _ d hd, decimal_concat, lastNumber, Nat.add_mod, Nat.mul_mod]
  omega

theorem lastNumber_hyphen (us : List UInt8) : lastNumber (us ++ [hyphen]) = 0 := by
  rw [lastNumber, List.rtakeWhile_concat_neg _ _ hyphen (by decide)]
  rfl

theorem firstNumber_hyphen (us : List UInt8) : firstNumber (us ++ [hyphen]) = firstNumber us := by
  rw [firstNumber, firstNumber, List.takeWhile_append]
  split_ifs with hall
  · rw [List.takeWhile_cons_of_neg (by decide), List.append_nil,
      (List.takeWhile_prefix isDigit).eq_of_length hall]
  · rfl

theorem firstNumber_digits (hus : ∀ d ∈ us, isDigit d = true) : firstNumber us = lastNumber us := by
  have hfirst : us.takeWhile isDigit = us := List.takeWhile_eq_self_iff.mpr hus
  have hlast : us.rtakeWhile isDigit = us := List.rtakeWhile_eq_self_iff.mpr hus
  rw [firstNumber, lastNumber, hfirst, hlast]

theorem firstNumber_range (hc : c ∈ us) (hdigit : isDigit c = false) (d : UInt8) :
    firstNumber (us ++ [d]) = firstNumber us := by
  rw [firstNumber, firstNumber, List.takeWhile_append, if_neg]
  intro hall
  have hus := (List.takeWhile_prefix isDigit).eq_of_length hall
  have hcdigit := List.takeWhile_eq_self_iff.mp hus c hc
  rw [hdigit] at hcdigit
  cases hcdigit

/-! ## What is let through -/

/-- The characters that the scan knows, white space behind a digit at the tail only, and each hyphen
behind a digit and the first of its part. -/
structure Loose (cs : List UInt8) : Prop where
  chars : ∀ c ∈ shown cs, isDigit c = true ∨ isSign c = true ∨ c = hyphen
  spaces : ∀ pre c post, cs = pre ++ c :: post → isspace c = true →
    (∃ d ∈ pre, isDigit d = true) → Spaces post
  hyphens : ∀ pre post, shown cs = pre ++ hyphen :: post → lastPart pre ≠ [] ∧ hyphen ∉ lastPart pre

/-- No white space has followed a digit. -/
def Ungapped (cs : List UInt8) : Prop :=
  (∃ d ∈ cs, isDigit d = true) → ∀ d, cs.getLast? = some d → isspace d = false

theorem split_snoc (h : cs ++ [c] = pre ++ d :: post) :
    (post = [] ∧ cs = pre ∧ c = d) ∨ ∃ post', post = post' ++ [c] ∧ cs = pre ++ d :: post' := by
  rcases List.eq_nil_or_concat' post with rfl | ⟨post', e, rfl⟩
  · obtain ⟨rfl, hlast⟩ := List.append_inj' h rfl
    cases hlast
    exact .inl ⟨rfl, rfl, rfl⟩
  · have hfront : cs ++ [c] = (pre ++ d :: post') ++ [e] := by rw [h, List.append_assoc, List.cons_append]
    obtain ⟨rfl, hlast⟩ := List.append_inj' hfront rfl
    cases hlast
    exact .inr ⟨post', rfl, rfl⟩

theorem mem_snoc_of_ne (h : d ≠ c) : d ∈ us ++ [c] ↔ d ∈ us := by
  rw [List.mem_append, List.mem_singleton, or_iff_left h]

theorem Loose.nil : Loose [] where
  chars := by simp [shown]
  spaces := by simp
  hyphens := by simp [shown]

theorem Loose.space (h : Loose cs) (hc : isspace c = true) : Loose (cs ++ [c]) where
  chars := by
    rw [shown_space hc]
    exact h.chars
  spaces := by
    intro pre e post hsplit he hdigit
    rcases split_snoc hsplit with ⟨rfl, -, -⟩ | ⟨post', rfl, hcs⟩
    · exact fun x hx => absurd hx List.not_mem_nil
    · have htail := h.spaces pre e post' hcs he hdigit
      intro x hx
      rcases List.mem_append.mp hx with hx | hx
      · exact htail x hx
      · rw [List.mem_singleton.mp hx]
        exact hc
  hyphens := by
    rw [shown_space hc]
    exact h.hyphens

/-- A character that is no white space, not behind the white space behind a digit. -/
theorem Loose.char (h : Loose cs) (hc : isspace c = false)
    (hkind : isDigit c = true ∨ isSign c = true ∨ c = hyphen)
    (hgap : Ungapped cs)
    (hhyphen : c = hyphen → lastPart (shown cs) ≠ [] ∧ hyphen ∉ lastPart (shown cs)) : Loose (cs ++ [c]) where
  chars := by
    rw [shown_char hc]
    intro d hd
    rcases List.mem_append.mp hd with hd | hd
    · exact h.chars d hd
    · rw [List.mem_singleton.mp hd]
      exact hkind
  spaces := by
    intro pre e post hsplit he hdigit
    rcases split_snoc hsplit with ⟨rfl, -, -⟩ | ⟨post', rfl, hcs⟩
    · exact fun x hx => absurd hx List.not_mem_nil
    · have htail := h.spaces pre e post' hcs he hdigit
      have hseen : ∃ d ∈ cs, isDigit d = true := by
        obtain ⟨d, hd, hdigit⟩ := hdigit
        exact ⟨d, hcs ▸ List.mem_append_left _ hd, hdigit⟩
      -- the last character of `cs` is white space
      have hspaces : Spaces (e :: post') := List.forall_mem_cons.mpr ⟨he, htail⟩
      have hlast : cs.getLast? = some ((e :: post').getLast (List.cons_ne_nil e post')) := by
        rw [hcs, List.getLast?_append_cons, List.getLast?_eq_some_getLast]
      have hspace := hgap hseen _ hlast
      rw [hspaces _ (List.getLast_mem _)] at hspace
      cases hspace
  hyphens := by
    rw [shown_char hc]
    intro pre post hsplit
    rcases split_snoc hsplit with ⟨-, rfl, rfl⟩ | ⟨post', -, hus⟩
    · exact hhyphen rfl
    · exact h.hyphens pre post' hus

/-- A part has digits and at most one hyphen. -/
theorem Loose.part (h : Loose cs) (hc : c ∈ lastPart (shown cs)) : isDigit c = true ∨ c = hyphen := by
  obtain ⟨hmem, hsign⟩ := mem_of_lastPart hc
  rcases h.chars c hmem with hdigit | hsign' | hhyphen
  · exact .inl hdigit
  · rw [hsign] at hsign'
    cases hsign'
  · exact .inr hhyphen

/-! ## What the scan has read -/

structure ItemRead (cs : List UInt8) (s : ScanState) : Prop where
  loose : Loose cs
  digits : s.totaldigits = s.ndigits + BitVec.ofNat 32 (cs.countP isDigit)
  last : ∀ d, cs.getLast? = some d → s.c = d
  first : s.a = firstNumber (lastPart (shown cs))
  second : s.b = lastNumber (lastPart (shown cs))
  inRange : s.inRange = true ↔ hyphen ∈ lastPart (shown cs)
  atStart : s.atStart = true ↔ (lastPart (shown cs)).rtakeWhile isDigit = []
  inPartial : s.inPartialRange = true ↔ colon ∈ shown cs
  old : colon ∈ shown cs → s.oldA = firstNumber (lastPart (beforeLast colon (shown cs))) ∧
    s.oldB = lastNumber (lastPart (beforeLast colon (shown cs)))
  used : slash ∈ shown cs → s.usedSize = firstNumber (lastPart (beforeLast slash (shown cs)))

theorem ItemRead.nil (s : ScanState) : ItemRead [] (startItem s) where
  loose := .nil
  digits := by simp [startItem]
  last := by simp
  first := rfl
  second := rfl
  inRange := by simp [startItem, shown, lastPart]
  atStart := by simp [startItem, shown, lastPart]
  inPartial := by simp [startItem, shown]
  old := by simp [shown]
  used := by simp [shown]

/-- A digit has been counted if there is one, before the count wraps. -/
theorem ItemRead.counted (h : ItemRead cs s) (hn : cs.countP isDigit < 2 ^ 32) :
    s.totaldigits ≠ s.ndigits ↔ ∃ d ∈ cs, isDigit d = true := by
  rw [h.digits, ← List.countP_pos_iff]
  constructor
  · intro hne
    rw [Nat.pos_iff_ne_zero]
    intro hzero
    rw [hzero] at hne
    exact hne (BitVec.add_zero _)
  · intro hpos
    exact (ne_add_ofNat s.ndigits hpos hn).symm

theorem ItemRead.atSpace (h : ItemRead cs s) (hc : isspace c = true) :
    ItemRead (cs ++ [c]) { s with c := c } := by
  have hdigit : isDigit c = false := by
    rw [Bool.eq_false_iff]
    intro hdigit
    rw [(isspace_digit hdigit).1] at hc
    cases hc
  have hshown := shown_space hc cs
  have hcount : (cs ++ [c]).countP isDigit = cs.countP isDigit := by simp [hdigit]
  exact
    { loose := h.loose.space hc
      digits := by rw [hcount]; exact h.digits
      last := fun d hd => by simpa using hd
      first := by rw [hshown]; exact h.first
      second := by rw [hshown]; exact h.second
      inRange := by rw [hshown]; exact h.inRange
      atStart := by rw [hshown]; exact h.atStart
      inPartial := by rw [hshown]; exact h.inPartial
      old := by rw [hshown]; exact h.old
      used := by rw [hshown]; exact h.used }

theorem ItemRead.gap (h : ItemRead cs s) (hn : cs.countP isDigit < 2 ^ 32)
    (hgap : ¬(s.totaldigits ≠ s.ndigits ∧ isspace s.c = true)) :
    Ungapped cs := by
  intro hseen d hd
  rw [← h.last d hd]
  exact eq_false_of_ne_true fun hspace => hgap ⟨(h.counted hn).mpr hseen, hspace⟩

theorem ItemRead.atDigit (h : ItemRead cs s) (hc : isDigit c = true)
    (hgap : Ungapped cs) :
    ItemRead (cs ++ [c]) (readDigit s c) := by
  obtain ⟨hspace, hslash, hcolon, hhyphen⟩ := isspace_digit hc
  have hsign : isSign c = false := by simp [isSign, hslash, hcolon]
  have hshown := shown_char hspace cs
  have hpart := lastPart_char hsign (shown cs)
  have hnumber : lastNumber (lastPart (shown cs) ++ [c]) = (s.b * 10 + digitVal c) % 2 ^ 32 := by
    rw [lastNumber_digit hc, ← h.second]
  have hcount : (cs ++ [c]).countP isDigit = cs.countP isDigit + 1 := by simp [hc]
  exact
    { loose := h.loose.char hspace (.inl hc) hgap fun heq => absurd heq hhyphen
      digits := by
        change s.totaldigits + 1 = s.ndigits + _
        rw [hcount, BitVec.ofNat_add, ← BitVec.add_assoc, ← h.digits]
        rfl
      last := fun d hd => by simpa [readDigit] using hd
      first := by
        rw [hshown, hpart]
        by_cases hrange : hyphen ∈ lastPart (shown cs)
        · rw [firstNumber_range hrange (by decide), ← h.first, readDigit, if_pos (h.inRange.mpr hrange)]
        · have hdigits : ∀ d ∈ lastPart (shown cs) ++ [c], isDigit d = true := by
            intro d hd
            rcases List.mem_append.mp hd with hd | hd
            · exact (h.loose.part hd).resolve_right fun heq => hrange (heq ▸ hd)
            · rw [List.mem_singleton.mp hd]
              exact hc
          rw [firstNumber_digits hdigits, hnumber, readDigit, if_neg (h.inRange.not.mpr hrange)]
      second := by rw [hshown, hpart, hnumber, readDigit]
      inRange := by
        rw [hshown, hpart, List.mem_append, List.mem_singleton, or_iff_left hhyphen.symm]
        exact h.inRange
      atStart := by
        rw [hshown, hpart, List.rtakeWhile_concat_pos _ _ c hc]
        simp [readDigit]
      inPartial := by
        rw [hshown, List.mem_append, List.mem_singleton, or_iff_left hcolon.symm]
        exact h.inPartial
      old := by
        rw [hshown, List.mem_append, List.mem_singleton, or_iff_left hcolon.symm, beforeLast_char hcolon]
        exact h.old
      used := by
        rw [hshown, List.mem_append, List.mem_singleton, or_iff_left hslash.symm, beforeLast_char hslash]
        exact h.used }

theorem ItemRead.atHyphen (h : ItemRead cs s) (hstart : s.atStart = false) (hrange : s.inRange = false)
    (hgap : Ungapped cs) :
    ItemRead (cs ++ [hyphen]) (afterHyphen s) := by
  have hshown : shown (cs ++ [hyphen]) = _ := shown_char (by decide) cs
  have hpart : lastPart (shown cs ++ [hyphen]) = _ := lastPart_char (by decide) (shown cs)
  have hcount : (cs ++ [hyphen]).countP isDigit = cs.countP isDigit := by
    simp [show isDigit hyphen = false by decide]
  have hnone : hyphen ∉ lastPart (shown cs) := fun hmem => absurd (h.inRange.mpr hmem) (by simp [hrange])
  have hdigit : lastPart (shown cs) ≠ [] := by
    intro hnil
    have hstart' := h.atStart.mpr (by rw [hnil]; rfl)
    rw [hstart] at hstart'
    cases hstart'
  exact
    { loose := h.loose.char (by decide) (.inr (.inr rfl)) hgap fun _ => ⟨hdigit, hnone⟩
      digits := by rw [hcount]; exact h.digits
      last := fun d hd => by simpa [afterHyphen] using hd
      first := by rw [hshown, hpart, firstNumber_hyphen]; exact h.first
      second := by rw [hshown, hpart, lastNumber_hyphen]; rfl
      inRange := by rw [hshown, hpart]; simp [afterHyphen]
      atStart := by
        rw [hshown, hpart, List.rtakeWhile_concat_neg _ _ hyphen (by decide)]
        simp [afterHyphen]
      inPartial := by
        rw [hshown, mem_snoc_of_ne (by decide)]
        exact h.inPartial
      old := by
        rw [hshown, mem_snoc_of_ne (by decide), beforeLast_char (by decide)]
        exact h.old
      used := by
        rw [hshown, mem_snoc_of_ne (by decide), beforeLast_char (by decide)]
        exact h.used }

theorem ItemRead.atColon (h : ItemRead cs s)
    (hgap : Ungapped cs) :
    ItemRead (cs ++ [colon]) (afterColon s) := by
  have hshown : shown (cs ++ [colon]) = _ := shown_char (by decide) cs
  have hpart : lastPart (shown cs ++ [colon]) = [] := lastPart_sign (by decide) (shown cs)
  have hcount : (cs ++ [colon]).countP isDigit = cs.countP isDigit := by
    simp [show isDigit colon = false by decide]
  exact
    { loose := h.loose.char (by decide) (.inr (.inl (by decide))) hgap fun heq => absurd heq (by decide)
      digits := by rw [hcount]; exact h.digits
      last := fun d hd => by simpa [afterColon] using hd
      first := by rw [hshown, hpart]; rfl
      second := by rw [hshown, hpart]; rfl
      inRange := by rw [hshown, hpart]; simp [afterColon]
      atStart := by rw [hshown, hpart]; simp [afterColon]
      inPartial := by rw [hshown]; simp [afterColon]
      old := by
        rw [hshown, beforeLast_self]
        exact fun _ => ⟨h.first, h.second⟩
      used := by
        rw [hshown, mem_snoc_of_ne (by decide), beforeLast_char (by decide)]
        exact h.used }

theorem ItemRead.atSlash (h : ItemRead cs s)
    (hgap : Ungapped cs) :
    ItemRead (cs ++ [slash]) (afterSlash s) := by
  have hshown : shown (cs ++ [slash]) = _ := shown_char (by decide) cs
  have hpart : lastPart (shown cs ++ [slash]) = [] := lastPart_sign (by decide) (shown cs)
  have hcount : (cs ++ [slash]).countP isDigit = cs.countP isDigit := by
    simp [show isDigit slash = false by decide]
  exact
    { loose := h.loose.char (by decide) (.inr (.inl (by decide))) hgap fun heq => absurd heq (by decide)
      digits := by rw [hcount]; exact h.digits
      last := fun d hd => by simpa [afterSlash] using hd
      first := by rw [hshown, hpart]; rfl
      second := by rw [hshown, hpart]; rfl
      inRange := by rw [hshown, hpart]; simp [afterSlash]
      atStart := by rw [hshown, hpart]; simp [afterSlash]
      inPartial := by
        rw [hshown, mem_snoc_of_ne (by decide)]
        exact h.inPartial
      old := by
        rw [hshown, mem_snoc_of_ne (by decide), beforeLast_char (by decide)]
        exact h.old
      used := by
        rw [hshown, beforeLast_self]
        exact fun _ => h.first }

theorem itemStep_cases (hstep : itemStep s c = some s') :
    (isspace c = true ∧ s' = { s with c := c }) ∨
      ¬(s.totaldigits ≠ s.ndigits ∧ isspace s.c = true) ∧
        ((c = slash ∧ s' = afterSlash s) ∨ (c = colon ∧ s' = afterColon s) ∨
          (c = hyphen ∧ s.atStart = false ∧ s.inRange = false ∧ s' = afterHyphen s) ∨
          (isDigit c = true ∧ s' = readDigit s c)) := by
  rw [itemStep] at hstep
  split_ifs at hstep with hspace
  · exact .inl ⟨hspace, (Option.some.inj hstep).symm⟩
  · right
    rw [scanChar] at hstep
    obtain ⟨hgap, hstep⟩ := Option.ite_none_left_eq_some.mp hstep
    refine ⟨hgap, ?_⟩
    by_cases hslash : c = slash
    · subst hslash
      exact .inl ⟨rfl, (Option.some.inj hstep).symm⟩
    · by_cases hcolon : c = colon
      · subst hcolon
        exact .inr (.inl ⟨rfl, (Option.some.inj hstep).symm⟩)
      · simp only [if_neg hslash, if_neg hcolon] at hstep
        by_cases hhyphen : c = hyphen
        · rw [if_pos hhyphen] at hstep
          obtain ⟨hfirst, hstep⟩ := Option.ite_none_left_eq_some.mp hstep
          obtain ⟨hstart, hrange⟩ := not_or.mp hfirst
          subst hhyphen
          exact .inr (.inr (.inl ⟨rfl, eq_false_of_ne_true hstart, eq_false_of_ne_true hrange,
            (Option.some.inj hstep).symm⟩))
        · rw [if_neg hhyphen] at hstep
          obtain ⟨hdigit, hstep⟩ := Option.ite_none_left_eq_some.mp hstep
          exact .inr (.inr (.inr ⟨eq_true_of_ne_false hdigit, (Option.some.inj hstep).symm⟩))

theorem ItemRead.step (h : ItemRead cs s) (hn : cs.countP isDigit < 2 ^ 32) (hstep : itemStep s c = some s') :
    ItemRead (cs ++ [c]) s' := by
  rcases itemStep_cases hstep with ⟨hspace, rfl⟩ | ⟨hgap, hchar⟩
  · exact h.atSpace hspace
  · have hgap' := h.gap hn hgap
    rcases hchar with ⟨rfl, rfl⟩ | ⟨rfl, rfl⟩ | ⟨rfl, hstart, hrange, rfl⟩ | ⟨hdigit, rfl⟩
    · exact h.atSlash hgap'
    · exact h.atColon hgap'
    · exact h.atHyphen hstart hrange hgap'
    · exact h.atDigit hdigit hgap'

theorem itemRead_scanItem (hn : cs.countP isDigit < 2 ^ 32)
    (hscan : scanItem (startItem s) cs = some s') : ItemRead cs s' := by
  induction cs using List.reverseRecOn generalizing s' with
  | nil =>
    cases hscan
    exact .nil s
  | append_singleton cs c ih =>
    rw [List.countP_append] at hn
    rw [scanItem_append] at hscan
    obtain ⟨s₁, hfront, hlast⟩ := Option.bind_eq_some_iff.mp hscan
    obtain ⟨s₂, hstep, hdone⟩ := Option.bind_eq_some_iff.mp (scanItem_cons ▸ hlast)
    cases hdone
    exact (ih (by omega) hfront).step (by omega) hstep

/-! ## Items that may be taken -/

/-- A part read as a range of bits. -/
def RangeIn (nbits : ℕ) (us : List UInt8) : Prop := firstNumber us ≤ lastNumber us ∧ lastNumber us < nbits

/-- The scan lets the item through, no hyphen ends it, and it has no digit or the numbers are those
of a range with groups: the range stands before the last colon, the used size before the last slash
and the group size at the end. -/
structure Taken (nbits : ℕ) (cs : List UInt8) : Prop where
  loose : Loose cs
  closed : (shown cs).getLast? ≠ some hyphen
  plain : (∃ d ∈ cs, isDigit d = true) → colon ∉ shown cs → RangeIn nbits (lastPart (shown cs))
  range : (∃ d ∈ cs, isDigit d = true) → colon ∈ shown cs →
    RangeIn nbits (lastPart (beforeLast colon (shown cs)))
  group : (∃ d ∈ cs, isDigit d = true) → colon ∈ shown cs → 0 < firstNumber (lastPart (shown cs))
  used : (∃ d ∈ cs, isDigit d = true) → colon ∈ shown cs → slash ∈ shown cs →
    firstNumber (lastPart (beforeLast slash (shown cs))) ≤ firstNumber (lastPart (shown cs))

theorem Loose.digit_of_hyphen (h : Loose cs) (hlast : (shown cs).getLast? = some hyphen) :
    ∃ d ∈ cs, isDigit d = true := by
  obtain ⟨us, hus⟩ := List.getLast?_eq_some_iff.mp hlast
  obtain ⟨hne, hfirst⟩ := h.hyphens us [] hus
  obtain ⟨d, hd⟩ := List.exists_mem_of_ne_nil _ hne
  have hpart : d ∈ lastPart (shown cs) := by
    rw [hus, lastPart_char (by decide)]
    exact List.mem_append_left _ hd
  have hdigit := (h.part hpart).resolve_right fun heq => hfirst (heq ▸ hd)
  exact ⟨d, (List.mem_filter.mp (mem_of_lastPart hpart).1).1, hdigit⟩

theorem ItemRead.open_of_hyphen (h : ItemRead cs s) (hlast : (shown cs).getLast? = some hyphen) :
    s.atStart = true ∧ s.inRange = true := by
  obtain ⟨us, hus⟩ := List.getLast?_eq_some_iff.mp hlast
  have hpart : lastPart (shown cs) = lastPart us ++ [hyphen] := by rw [hus, lastPart_char (by decide)]
  constructor
  · rw [h.atStart, hpart, List.rtakeWhile_concat_neg _ _ hyphen (by decide)]
  · rw [h.inRange, hpart]
    exact List.mem_append_right _ (List.mem_singleton.mpr rfl)

theorem ItemRead.closed (h : ItemRead cs s) (hopen : ¬(s.atStart = true ∧ s.inRange = true)) :
    (shown cs).getLast? ≠ some hyphen :=
  fun hlast => hopen (h.open_of_hyphen hlast)

/-- What the outer loop does after the scan of an item. -/
def finishItem (s : ScanState) (map : ℕ → BitVec 64) (nbits : ℕ) :
    Option (ScanState × (ℤ ⊕ (ℕ → BitVec 64))) :=
  if s.ndigits = s.totaldigits then some (s, .inr map) else setItem s map nbits

def IsError (e : ℤ) : Prop := e = eINVAL ∨ e = eRANGE

theorem finishItem_misplaced (h : ItemRead cs s) (hn : cs.countP isDigit < 2 ^ 32)
    (htaken : ¬Taken nbits cs) (c : UInt8)
    (map : ℕ → BitVec 64) : ∃ s' e, finishItem { s with c := c } map nbits = some (s', .inl e) ∧
      IsError e := by
  have hdigit : s.ndigits ≠ s.totaldigits := by
    intro hnone
    have hseen : ¬∃ d ∈ cs, isDigit d = true := fun hseen => (h.counted hn).mpr hseen hnone.symm
    exact htaken
      { loose := h.loose
        closed := fun hlast => hseen (h.loose.digit_of_hyphen hlast)
        plain := fun hd => absurd hd hseen
        range := fun hd => absurd hd hseen
        group := fun hd => absurd hd hseen
        used := fun hd => absurd hd hseen }
  rw [finishItem, if_neg hdigit]
  by_cases hcolon : colon ∈ shown cs
  · have hpart := h.inPartial.mpr hcolon
    obtain ⟨hold, hold'⟩ := h.old hcolon
    simp only [setItem, hpart, if_true]
    split_ifs with hopen hbad hrange
    · exact ⟨_, _, rfl, .inl rfl⟩
    · exact ⟨_, _, rfl, .inl rfl⟩
    · exact ⟨_, _, rfl, .inr rfl⟩
    · refine absurd ?_ htaken
      exact
        { loose := h.loose
          closed := h.closed hopen
          plain := fun _ hnone => absurd hcolon hnone
          range := fun _ _ => by
            rw [RangeIn, ← hold, ← hold']
            omega
          group := fun _ _ => by
            rw [← h.first]
            omega
          used := fun _ _ hslash => by
            rw [← h.first, ← h.used hslash]
            omega }
  · have hpart : s.inPartialRange = false := eq_false_of_ne_true fun hpart => hcolon (h.inPartial.mp hpart)
    simp only [setItem, hpart, Bool.false_eq_true, if_false]
    split_ifs with hopen hbad hrange
    · exact ⟨_, _, rfl, .inl rfl⟩
    · exact ⟨_, _, rfl, .inl rfl⟩
    · exact ⟨_, _, rfl, .inr rfl⟩
    · refine absurd ?_ htaken
      exact
        { loose := h.loose
          closed := h.closed hopen
          plain := fun _ _ => by
            rw [RangeIn, ← h.first, ← h.second]
            omega
          range := fun _ hin => absurd hin hcolon
          group := fun _ hin => absurd hin hcolon
          used := fun _ hin => absurd hin hcolon }

/-! ## Items without colons and slashes -/

def NoGroups (cs : List UInt8) : Prop := ∀ c ∈ cs, c ≠ slash ∧ c ≠ colon

theorem lastPart_noGroups (hno : NoGroups us) : lastPart us = us := by
  apply List.rtakeWhile_eq_self_iff.mpr
  intro c hc
  obtain ⟨hslash, hcolon⟩ := hno c hc
  simp [isSign, hslash, hcolon]

theorem shown_of_spaces (hcs : Spaces cs) : shown cs = [] := by
  rw [shown, List.filter_eq_nil_iff]
  intro c hc
  simp [hcs c hc]

theorem shown_eq_self (hcs : ∀ c ∈ cs, isspace c = false) : shown cs = cs := by
  rw [shown, List.filter_eq_self]
  intro c hc
  simp [hcs c hc]

theorem dropWhile_cases (p : UInt8 → Bool) (cs : List UInt8) :
    ∃ ds es, cs = ds ++ es ∧ (∀ d ∈ ds, p d = true) ∧ (es = [] ∨ ∃ e es', es = e :: es' ∧ p e = false) := by
  refine ⟨cs.takeWhile p, cs.dropWhile p, (List.takeWhile_append_dropWhile).symm,
    fun d hd => List.mem_takeWhile_imp hd, ?_⟩
  cases hrest : cs.dropWhile p with
  | nil => exact .inl rfl
  | cons e es =>
    have hhead := List.head?_dropWhile_not p cs
    rw [hrest] at hhead
    exact .inr ⟨e, es, rfl, by simpa using hhead⟩

/-- The characters of an item from its first digit to its last: a number or a range, unless a hyphen
ends them. -/
theorem spells_of_loose {body : List UInt8} (hloose : Loose cs) (hshown : shown cs = body)
    (hno : NoGroups body)
    (hfirst : isDigit c = true) (hhead : body.head? = some c) :
    (∃ item, Spells body item) ∨ body.getLast? = some hyphen := by
  have hchars : ∀ d ∈ body, isDigit d = true ∨ d = hyphen := by
    intro d hd
    rw [← lastPart_noGroups hno, ← hshown] at hd
    exact hloose.part hd
  obtain ⟨ds, es, rfl, hds, rfl | ⟨e, es, rfl, he⟩⟩ := dropWhile_cases isDigit body
  · rw [List.append_nil] at hhead ⊢
    have hne : ds ≠ [] := by
      rintro rfl
      cases hhead
    exact .inl ⟨_, .single ds ⟨hne, hds⟩⟩
  · have hyphened : e = hyphen := by
      rcases hchars e (by simp) with hdigit | heq
      · rw [he] at hdigit
        cases hdigit
      · exact heq
    subst hyphened
    have hfront : ds ≠ [] := by
      rintro rfl
      cases hhead
      exact absurd hfirst (by decide)
    have hes : ∀ e ∈ es, isDigit e = true := by
      intro e he
      refine (hchars e (by simp [he])).resolve_right ?_
      rintro rfl
      -- a second hyphen would not be the first of its part
      obtain ⟨pre, post, rfl⟩ := List.append_of_mem he
      have hsecond := (hloose.hyphens (ds ++ hyphen :: pre) post (by rw [hshown]; simp)).2
      rw [lastPart_noGroups fun d hd => hno d (by simp at hd ⊢; tauto)] at hsecond
      exact hsecond (by simp)
    by_cases hnil : es = []
    · right
      rw [hnil, List.getLast?_append_cons]
      rfl
    · exact .inl ⟨_, .range ds es ⟨hfront, hds⟩ ⟨hnil, hes⟩⟩

theorem item_of_loose (hno : NoGroups cs) (hloose : Loose cs) :
    (∃ item, IsItem cs item) ∨ (shown cs).getLast? = some hyphen := by
  have hnone : Spaces [] := fun c hc => absurd hc List.not_mem_nil
  obtain ⟨ws, rest, rfl, hws, rfl | ⟨c, rest, rfl, hc⟩⟩ := dropWhile_cases isspace cs
  · exact .inl ⟨.blank, ws, [], [], hws, .blank, hnone, by simp⟩
  · obtain ⟨body, tail, rfl, hbody, htail⟩ := dropWhile_cases (fun c => !isspace c) rest
    rw [← List.cons_append] at hno hloose ⊢
    have hchars : ∀ d ∈ c :: body, isspace d = false :=
      List.forall_mem_cons.mpr ⟨hc, fun d hd => by simpa using hbody d hd⟩
    have hfront : shown (ws ++ (c :: body ++ tail)) = c :: (body ++ shown tail) := by
      rw [shown_append, shown_append, shown_of_spaces hws, shown_eq_self hchars, List.nil_append,
        List.cons_append]
    have hfirst : isDigit c = true := by
      have hsigns := hno c (by simp)
      rcases hloose.chars c (by rw [hfront]; exact List.mem_cons_self) with hdigit | hsign | rfl
      · exact hdigit
      · simp [isSign, hsigns.1, hsigns.2] at hsign
      · exact absurd rfl (hloose.hyphens [] (body ++ shown tail) hfront).1
    have htail' : Spaces tail := by
      rcases htail with rfl | ⟨t, tail, rfl, ht⟩
      · exact hnone
      · have ht' : isspace t = true := by simpa using ht
        have hdigit : ∃ d ∈ ws ++ c :: body, isDigit d = true := ⟨c, by simp, hfirst⟩
        have hrest := hloose.spaces (ws ++ c :: body) t tail (by simp) ht' hdigit
        exact List.forall_mem_cons.mpr ⟨ht', hrest⟩
    have hshown : shown (ws ++ (c :: body ++ tail)) = c :: body := by
      rw [hfront, shown_of_spaces htail', List.append_nil]
    have hno' : NoGroups (c :: body) :=
      fun d hd => hno d (List.mem_append_right _ (List.mem_append_left _ hd))
    rw [hshown]
    refine (spells_of_loose hloose hshown hno' hfirst rfl).imp_left ?_
    rintro ⟨item, hitem⟩
    exact ⟨item, ws, c :: body, tail, hws, hitem, htail', rfl⟩

end Skp.Utils
