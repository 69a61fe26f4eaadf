import Skp.Utils.ParselistModel

/-! # The items of a list

The spelling of an item, what it denotes, and what the scan of an item leaves behind. -/
namespace Skp.Utils
set_option autoImplicit false
open Skp.Foundations

/-! ## The groups of a range -/

section Groups
variable {map : ℕ → BitVec 64} {n a b g u len : ℕ}

theorem toInt_ofNat_small (hlen : len < 2 ^ 31) : (BitVec.ofNat 32 len).toInt = len := by
  have hnat : (BitVec.ofNat 32 len).toNat = len := by
    rw [BitVec.toNat_ofNat]
    omega
  rw [BitVec.toInt_eq_toNat_of_lt (by omega), hnat]

theorem bitAt_bitmapSet (map : ℕ → BitVec 64) (hlen : len < 2 ^ 31) (hend : a + len < 2 ^ 32) (i : ℕ) :
    bitAt (bitmapSet map a len) i = (bitAt map i || decide (a ≤ i ∧ i < a + len)) := by
  rw [bitmapSet, toInt_ofNat_small hlen, bitmapSetWords, (bitmapRange_ranged masks_or map a len hend).bits]
  by_cases hin : a ≤ i ∧ i < a + len
  · rw [if_pos hin, decide_eq_true hin, Bool.or_true]
  · rw [if_neg hin, decide_eq_false hin, Bool.or_false]

/-- The bits that `n-m:u/g` denotes. -/
def InGroups (n m u g i : ℕ) : Prop := n ≤ i ∧ i ≤ m ∧ (i - n) % g < u

instance (n m u g i : ℕ) : Decidable (InGroups n m u g i) := inferInstanceAs (Decidable (_ ∧ _))

/-- The first start of a group beyond `b`. -/
def stepEnd (a b g : ℕ) : ℕ := a + ((b - a) / g + 1) * g

theorem inGroups_step (hab : a ≤ b) (hg : 0 < g) (hu : u ≤ g) (i : ℕ) :
    InGroups a b u g i ↔ (a ≤ i ∧ i < a + min (b - a + 1) u) ∨ InGroups (a + g) b u g i := by
  simp only [InGroups]
  by_cases hfirst : i < a + g
  · have hmod : a ≤ i → (i - a) % g = i - a := fun hle => Nat.mod_eq_of_lt (by omega)
    constructor
    · rintro ⟨hlow, hhigh, hin⟩
      rw [hmod hlow] at hin
      omega
    · rintro (⟨hlow, hin⟩ | ⟨hlow, -⟩)
      · rw [hmod hlow]
        omega
      · omega
  · have hmod : (i - a) % g = (i - (a + g)) % g := by
      rw [show i - a = i - (a + g) + g by omega, Nat.add_mod_right]
    rw [hmod]
    omega

/-- The groups are gone through without a wrap. -/
theorem groupLoop_spec (n : ℕ) (map : ℕ → BitVec 64) (a : ℕ) (hn : 2 ^ 32 ≤ n + a) (ha : a < 2 ^ 32)
    (hb : b + 1 < 2 ^ 32)
    (hg : 0 < g) (hend : a ≤ b → stepEnd a b g < 2 ^ 32) (hlen : min (b - a + 1) u < 2 ^ 31) (hu : u ≤ g) :
    ∃ map', groupLoop n map a b g u = some map' ∧
      ∀ i, bitAt map' i = (bitAt map i || decide (InGroups a b u g i)) := by
  induction n generalizing map a with
  | zero => omega
  | succ n ih =>
    by_cases hab : a ≤ b
    · have hstep : a + g ≤ stepEnd a b g := by
        rw [stepEnd, Nat.add_mul, Nat.one_mul]
        omega
      have hfits := hend hab
      have hoff : (b + 2 ^ 32 - a + 1) % 2 ^ 32 = b - a + 1 := by omega
      have hnext : (a + g) % 2 ^ 32 = a + g := Nat.mod_eq_of_lt (by omega)
      have hend' : a + g ≤ b → stepEnd (a + g) b g < 2 ^ 32 := by
        intro hle
        have hdiv : (b - a) / g = (b - (a + g)) / g + 1 := by
          rw [show b - a = b - (a + g) + g by omega, Nat.add_div_right _ hg]
        have hsame : stepEnd (a + g) b g = stepEnd a b g := by
          rw [stepEnd, stepEnd, hdiv]
          ring
        omega
      obtain ⟨map', hmap', hbits⟩ :=
        ih (bitmapSet map a (min (b - a + 1) u)) (a + g) (by omega) (by omega) hend' (by omega)
      refine ⟨map', by rw [groupLoop, if_pos hab, hoff, hnext, hmap'], fun i => ?_⟩
      rw [hbits, bitAt_bitmapSet map hlen (by omega), Bool.or_assoc, ← Bool.decide_or]
      congr 1
      apply decide_eq_decide.mpr
      exact (inGroups_step hab hg hu i).symm
    · refine ⟨map, by rw [groupLoop, if_neg hab], fun i => ?_⟩
      have hnone : ¬InGroups a b u g i := by
        rintro ⟨hlow, hhigh, -⟩
        omega
      simp [hnone]

end Groups

/-! ## Items -/

inductive Item where
  | blank
  | single (n : ℕ)
  | range (n m : ℕ)
  | groups (n m u g : ℕ)
deriving DecidableEq

def Spaces (ws : List UInt8) : Prop := ∀ c ∈ ws, isspace c = true

def Digits (ds : List UInt8) : Prop := ds ≠ [] ∧ ∀ d ∈ ds, isDigit d = true

instance (ds : List UInt8) : Decidable (Digits ds) := inferInstanceAs (Decidable (_ ∧ _))

/-- The documented syntax. -/
inductive Spells : List UInt8 → Item → Prop where
  | blank : Spells [] .blank
  | single (ds : List UInt8) (hds : Digits ds) : Spells ds (.single (decimal ds))
  | range (ds es : List UInt8) (hds : Digits ds) (hes : Digits es) :
      Spells (ds ++ hyphen :: es) (.range (decimal ds) (decimal es))
  | groups (ds es us gs : List UInt8) (hds : Digits ds) (hes : Digits es) (hus : Digits us)
      (hgs : Digits gs) :
      Spells (ds ++ hyphen :: (es ++ colon :: (us ++ slash :: gs)))
        (.groups (decimal ds) (decimal es) (decimal us) (decimal gs))

/-- White space may stand before and behind an item. -/
def IsItem (cs : List UInt8) (item : Item) : Prop :=
  ∃ ws body ws', Spaces ws ∧ Spells body item ∧ Spaces ws' ∧ cs = ws ++ (body ++ ws')

def Item.Valid (nbits : ℕ) : Item → Prop
  | .blank => True
  | .single n => n < nbits
  | .range n m => n ≤ m ∧ m < nbits
  | .groups n m u g => n ≤ m ∧ m < nbits ∧ u ≤ g ∧ 0 < g

def Item.Denotes : Item → ℕ → Prop
  | .blank, _ => False
  | .single n, i => i = n
  | .range n m, i => n ≤ i ∧ i ≤ m
  | .groups n m u g, i => InGroups n m u g i

/-- The numbers and the starts of the groups are unsigned ints, the lengths of the runs ints. -/
def Item.Small (nbits : ℕ) : Item → Prop
  | .blank => True
  | .single n => n < 2 ^ 32
  | .range n m => n < 2 ^ 32 ∧ m < 2 ^ 32 ∧ (n ≤ m → m < nbits → m - n + 1 < 2 ^ 31)
  | .groups n m u g => n < 2 ^ 32 ∧ m < 2 ^ 32 ∧ u < 2 ^ 32 ∧ g < 2 ^ 32 ∧
      (n ≤ m → m < nbits → u ≤ g → 0 < g → stepEnd n m g < 2 ^ 32 ∧ min (m - n + 1) u < 2 ^ 31)

/-- The numbers as unsigned ints have them. -/
def Item.wrap : Item → Item
  | .blank => .blank
  | .single n => .single (n % 2 ^ 32)
  | .range n m => .range (n % 2 ^ 32) (m % 2 ^ 32)
  | .groups n m u g => .groups (n % 2 ^ 32) (m % 2 ^ 32) (u % 2 ^ 32) (g % 2 ^ 32)

/-- Unsigned ints hold what the item needs, or it is wrong with the numbers they hold as it is with
its own. -/
def Item.Fits (nbits : ℕ) (item : Item) : Prop :=
  item.Small nbits ∨ ¬item.Valid nbits ∧ ¬item.wrap.Valid nbits

/-! ## The scan of an item -/

def itemStep (s : ScanState) (c : UInt8) : Option ScanState :=
  if isspace c then some { s with c := c } else scanChar s c

def scanItem (s : ScanState) (cs : List UInt8) : Option ScanState := cs.foldlM itemStep s

variable {s s' : ScanState} {c : UInt8} {cs ds ws buf : List UInt8} {item : Item}

theorem scanItem_cons : scanItem s (c :: cs) = (itemStep s c).bind fun s => scanItem s cs := rfl

theorem scanItem_append : scanItem s (cs ++ ds) = (scanItem s cs).bind fun s => scanItem s ds := by
  rw [scanItem, List.foldlM_append]
  rfl

theorem scanLoop_append (hcs : ∀ c ∈ cs, c ≠ 0 ∧ c ≠ comma) (s : ScanState) :
    scanLoop (cs ++ buf) s = (scanItem s cs).bind fun s => scanLoop buf s := by
  induction cs generalizing s with
  | nil => rfl
  | cons c cs ih =>
    obtain ⟨hnul, hcomma⟩ := hcs c List.mem_cons_self
    have hrest := ih fun d hd => hcs d (List.mem_cons_of_mem c hd)
    rw [List.cons_append, scanLoop, scanItem_cons, itemStep]
    by_cases hspace : isspace c = true
    · rw [if_pos hspace, if_pos hspace, hrest]
      rfl
    · rw [if_neg hspace, if_neg hspace, if_neg (not_or.mpr ⟨hnul, hcomma⟩)]
      cases scanChar s c with
      | none => rfl
      | some s => exact hrest s

/-! ## Items that are spelled right -/

theorem scanItem_spaces (hws : Spaces ws) (s : ScanState) : ∃ c, scanItem s ws = some { s with c := c } := by
  induction ws generalizing s with
  | nil => exact ⟨s.c, rfl⟩
  | cons w ws ih =>
    obtain ⟨c, hc⟩ := ih (fun d hd => hws d (List.mem_cons_of_mem w hd)) { s with c := w }
    have hw := hws w List.mem_cons_self
    refine ⟨c, ?_⟩
    rw [scanItem_cons, itemStep, if_pos hw, Option.bind_some, hc]

theorem isspace_digit (hc : isDigit c = true) : isspace c = false ∧ c ≠ slash ∧ c ≠ colon ∧ c ≠ hyphen := by
  simp only [isDigit, Bool.and_eq_true, decide_eq_true_eq] at hc
  refine ⟨?_, ?_, ?_, ?_⟩
  · have hne : c ≠ 32 := by
      rintro rfl
      exact absurd hc (by decide)
    simp only [isspace, Bool.or_eq_false_iff, beq_eq_false_iff_ne, Bool.and_eq_false_iff,
      decide_eq_false_iff_not]
    exact ⟨hne, by omega⟩
  · rintro rfl
    exact absurd hc (by decide)
  · rintro rfl
    exact absurd hc (by decide)
  · rintro rfl
    exact absurd hc (by decide)

/-- The state after a digit. -/
def readDigit (s : ScanState) (c : UInt8) : ScanState :=
  { s with
    c := c
    b := (s.b * 10 + digitVal c) % 2 ^ 32
    a := if s.inRange then s.a else (s.b * 10 + digitVal c) % 2 ^ 32
    atStart := false
    totaldigits := s.totaldigits + 1 }

theorem itemStep_digit (hc : isDigit c = true) (hfree : s.totaldigits = s.ndigits ∨ isspace s.c = false) :
    itemStep s c = some (readDigit s c) := by
  obtain ⟨hspace, hslash, hcolon, hhyphen⟩ := isspace_digit hc
  have hgap : ¬(s.totaldigits ≠ s.ndigits ∧ isspace s.c = true) := by
    rintro ⟨hne, hgap⟩
    rcases hfree with heq | hfree
    · exact hne heq
    · rw [hfree] at hgap
      cases hgap
  simp [itemStep, hspace, scanChar, hgap, hslash, hcolon, hhyphen, hc, readDigit]

/-- A number is read into `b`, and into `a` before a hyphen. -/
theorem scanItem_digits (d : UInt8) (hds : ∀ e ∈ d :: ds, isDigit e = true) (s : ScanState)
    (hfree : s.totaldigits = s.ndigits ∨ isspace s.c = false) :
    ∃ c, isspace c = false ∧ scanItem s (d :: ds) = some
      { s with
        c := c
        b := readOn s.b (d :: ds) % 2 ^ 32
        a := if s.inRange then s.a else readOn s.b (d :: ds) % 2 ^ 32
        atStart := false
        totaldigits := s.totaldigits + BitVec.ofNat 32 (ds.length + 1) } := by
  induction ds generalizing s d with
  | nil =>
    have hd := hds d List.mem_cons_self
    refine ⟨d, (isspace_digit hd).1, ?_⟩
    rw [scanItem_cons, itemStep_digit hd hfree]
    rfl
  | cons e es ih =>
    have hd := hds d List.mem_cons_self
    obtain ⟨c, hc, hrest⟩ :=
      ih e (fun x hx => hds x (List.mem_cons_of_mem d hx)) (readDigit s d)
        (.inr (isspace_digit hd).1)
    refine ⟨c, hc, ?_⟩
    rw [scanItem_cons, itemStep_digit hd hfree, Option.bind_some, hrest]
    have hb : readOn (readDigit s d).b (e :: es) % 2 ^ 32 = readOn s.b (d :: e :: es) % 2 ^ 32 := by
      rw [readOn_cons (n := s.b), ← readOn_mod _ (s.b * 10 + digitVal d)]
      rfl
    have htotal : (readDigit s d).totaldigits + BitVec.ofNat 32 (es.length + 1) =
        s.totaldigits + BitVec.ofNat 32 ((e :: es).length + 1) := by
      change s.totaldigits + 1 + _ = _
      rw [List.length_cons, BitVec.add_assoc, BitVec.ofNat_add (es.length + 1) 1,
        BitVec.add_comm (BitVec.ofNat 32 (es.length + 1))]
      rfl
    rw [hb, htotal]
    cases hrange : s.inRange <;> simp [readDigit, hrange]

/-- The states after a number and after each of the signs. -/
def afterNumber (s : ScanState) (c : UInt8) (v n : ℕ) : ScanState :=
  { s with
    c := c
    b := v % 2 ^ 32
    a := if s.inRange then s.a else v % 2 ^ 32
    atStart := false
    totaldigits := s.totaldigits + BitVec.ofNat 32 n }

def afterHyphen (s : ScanState) : ScanState :=
  { s with c := hyphen, b := 0, inRange := true, atStart := true }

def afterColon (s : ScanState) : ScanState :=
  { s with
    c := colon
    oldA := s.a
    oldB := s.b
    atStart := true
    inRange := false
    inPartialRange := true
    a := 0
    b := 0 }

def afterSlash (s : ScanState) : ScanState :=
  { s with c := slash, usedSize := s.a, atStart := true, inRange := false, a := 0, b := 0 }

theorem scanItem_number (hds : Digits ds) (s : ScanState) (hb : s.b = 0)
    (hfree : s.totaldigits = s.ndigits ∨ isspace s.c = false) :
    ∃ c, isspace c = false ∧ scanItem s ds = some (afterNumber s c (decimal ds) ds.length) := by
  obtain ⟨hne, hdigits⟩ := hds
  obtain ⟨d, es, rfl⟩ := List.exists_cons_of_ne_nil hne
  obtain ⟨c, hc, hscan⟩ := scanItem_digits d hdigits s hfree
  rw [hb] at hscan
  exact ⟨c, hc, hscan⟩

theorem itemStep_hyphen (hc : isspace s.c = false) (hstart : s.atStart = false) (hrange : s.inRange = false) :
    itemStep s hyphen = some (afterHyphen s) := by
  have hspace : isspace hyphen = false := by decide
  have hslash : hyphen ≠ slash := by decide
  have hcolon : hyphen ≠ colon := by decide
  simp [itemStep, scanChar, hspace, hc, hstart, hrange, hslash, hcolon, afterHyphen]

theorem itemStep_colon (hc : isspace s.c = false) : itemStep s colon = some (afterColon s) := by
  have hspace : isspace colon = false := by decide
  have hslash : colon ≠ slash := by decide
  simp [itemStep, scanChar, hspace, hc, hslash, afterColon]

theorem itemStep_slash (hc : isspace s.c = false) : itemStep s slash = some (afterSlash s) := by
  have hspace : isspace slash = false := by decide
  simp [itemStep, scanChar, hspace, hc, afterSlash]

/-- What the scan of an item leaves behind. -/
def Scanned : Item → ScanState → Prop
  | .blank, s => s.ndigits = s.totaldigits
  | .single n, s => s.ndigits ≠ s.totaldigits ∧ s.atStart = false ∧ s.inPartialRange = false ∧
      s.a = n % 2 ^ 32 ∧
      s.b = n % 2 ^ 32
  | .range n m, s => s.ndigits ≠ s.totaldigits ∧ s.atStart = false ∧ s.inPartialRange = false ∧
      s.a = n % 2 ^ 32 ∧
      s.b = m % 2 ^ 32
  | .groups n m u g, s => s.ndigits ≠ s.totaldigits ∧ s.atStart = false ∧ s.inPartialRange = true ∧
      s.oldA = n % 2 ^ 32 ∧
      s.oldB = m % 2 ^ 32 ∧ s.usedSize = u % 2 ^ 32 ∧ s.a = g % 2 ^ 32

theorem Scanned.spaces (hs : Scanned item s) (c : UInt8) : Scanned item { s with c := c } := by
  cases item <;> exact hs

theorem scanItem_hyphen (hds : Digits ds) (hb : s.b = 0)
    (hfree : s.totaldigits = s.ndigits ∨ isspace s.c = false)
    (hrange : s.inRange = false) (cs : List UInt8) :
    ∃ c, scanItem s (ds ++ hyphen :: cs) =
      scanItem (afterHyphen (afterNumber s c (decimal ds) ds.length)) cs := by
  obtain ⟨c, hc, hscan⟩ := scanItem_number hds s hb hfree
  refine ⟨c, ?_⟩
  have hstep : itemStep (afterNumber s c (decimal ds) ds.length) hyphen = _ := itemStep_hyphen hc rfl hrange
  rw [scanItem_append, hscan, Option.bind_some, scanItem_cons, hstep, Option.bind_some]

theorem scanItem_colon (hds : Digits ds) (hb : s.b = 0)
    (hfree : s.totaldigits = s.ndigits ∨ isspace s.c = false)
    (cs : List UInt8) :
    ∃ c, scanItem s (ds ++ colon :: cs) =
      scanItem (afterColon (afterNumber s c (decimal ds) ds.length)) cs := by
  obtain ⟨c, hc, hscan⟩ := scanItem_number hds s hb hfree
  refine ⟨c, ?_⟩
  have hstep : itemStep (afterNumber s c (decimal ds) ds.length) colon = _ := itemStep_colon hc
  rw [scanItem_append, hscan, Option.bind_some, scanItem_cons, hstep, Option.bind_some]

theorem scanItem_slash (hds : Digits ds) (hb : s.b = 0)
    (hfree : s.totaldigits = s.ndigits ∨ isspace s.c = false)
    (cs : List UInt8) :
    ∃ c, scanItem s (ds ++ slash :: cs) =
      scanItem (afterSlash (afterNumber s c (decimal ds) ds.length)) cs := by
  obtain ⟨c, hc, hscan⟩ := scanItem_number hds s hb hfree
  refine ⟨c, ?_⟩
  have hstep : itemStep (afterNumber s c (decimal ds) ds.length) slash = _ := itemStep_slash hc
  rw [scanItem_append, hscan, Option.bind_some, scanItem_cons, hstep, Option.bind_some]

/-- The count of digits tells whether there were any, before it wraps. -/
theorem ne_add_ofNat {n : ℕ} (x : BitVec 32) (hpos : 0 < n) (hn : n < 2 ^ 32) :
    x ≠ x + BitVec.ofNat 32 n := by
  intro heq
  have hzero : BitVec.ofNat 32 n = 0 := by simpa using heq
  have htoNat := congrArg BitVec.toNat hzero
  rw [BitVec.toNat_ofNat, Nat.mod_eq_of_lt hn] at htoNat
  exact hpos.ne' htoNat

theorem Digits.pos (hds : Digits ds) : 0 < ds.length := List.length_pos_iff.mpr hds.1

theorem countP_digits (hds : ∀ d ∈ ds, isDigit d = true) : ds.countP isDigit = ds.length :=
  List.countP_eq_length.mpr hds

theorem scanItem_spelled (hbody : Spells cs item) (hn : cs.countP isDigit < 2 ^ 32)
    (s : ScanState) (c : UInt8) :
    ∃ s', scanItem { startItem s with c := c } cs = some s' ∧ Scanned item s' := by
  have hhyphen : isspace hyphen = false := by decide
  have hcolon : isspace colon = false := by decide
  have hslash : isspace slash = false := by decide
  cases hbody with
  | blank => exact ⟨_, rfl, rfl⟩
  | single ds hds =>
    obtain ⟨c₁, -, hscan⟩ := scanItem_number hds { startItem s with c := c } rfl (.inl rfl)
    rw [countP_digits hds.2] at hn
    exact ⟨_, hscan, ne_add_ofNat s.totaldigits hds.pos hn, rfl, rfl, rfl, rfl⟩
  | range ds es hds hes =>
    obtain ⟨c₁, hscan₁⟩ := scanItem_hyphen (s := { startItem s with c := c }) hds rfl (.inl rfl) rfl es
    obtain ⟨c₂, -, hscan₂⟩ := scanItem_number hes
      (afterHyphen (afterNumber { startItem s with c := c } c₁ (decimal ds) ds.length)) rfl (.inr hhyphen)
    simp only [List.countP_append, List.countP_cons, countP_digits hds.2, countP_digits hes.2] at hn
    have hcount : s.totaldigits ≠ s.totaldigits + BitVec.ofNat 32 ds.length + BitVec.ofNat 32 es.length := by
      rw [BitVec.add_assoc, ← BitVec.ofNat_add]
      exact ne_add_ofNat _ (Nat.add_pos_left hds.pos _) (by omega)
    exact ⟨_, hscan₁.trans hscan₂, hcount, rfl, rfl, rfl, rfl⟩
  | groups ds es us gs hds hes hus hgs =>
    obtain ⟨c₁, hscan₁⟩ := scanItem_hyphen (s := { startItem s with c := c }) hds rfl (.inl rfl) rfl
      (es ++ colon :: (us ++ slash :: gs))
    obtain ⟨c₂, hscan₂⟩ := scanItem_colon
      (s := afterHyphen (afterNumber { startItem s with c := c } c₁ (decimal ds) ds.length))
        hes rfl (.inr hhyphen)
      (us ++ slash :: gs)
    obtain ⟨c₃, hscan₃⟩ := scanItem_slash (s := afterColon (afterNumber
      (afterHyphen (afterNumber { startItem s with c := c } c₁ (decimal ds) ds.length)) c₂
        (decimal es) es.length))
      hus rfl (.inr hcolon) gs
    obtain ⟨c₄, -, hscan₄⟩ := scanItem_number hgs (afterSlash (afterNumber (afterColon (afterNumber
      (afterHyphen (afterNumber { startItem s with c := c } c₁ (decimal ds) ds.length)) c₂
        (decimal es) es.length))
      c₃ (decimal us) us.length)) rfl (.inr hslash)
    simp only [List.countP_append, List.countP_cons, countP_digits hds.2, countP_digits hes.2,
      countP_digits hus.2,
      countP_digits hgs.2] at hn
    have hcount : s.totaldigits ≠ s.totaldigits + BitVec.ofNat 32 ds.length + BitVec.ofNat 32 es.length +
        BitVec.ofNat 32 us.length + BitVec.ofNat 32 gs.length := by
      rw [BitVec.add_assoc, BitVec.add_assoc, BitVec.add_assoc, ← BitVec.ofNat_add,
        ← BitVec.ofNat_add, ← BitVec.ofNat_add]
      exact ne_add_ofNat _ (Nat.add_pos_left hds.pos _) (by omega)
    exact ⟨_, hscan₁.trans (hscan₂.trans (hscan₃.trans hscan₄)), hcount, rfl, rfl, rfl, rfl, rfl, rfl⟩

theorem scanItem_item (hitem : IsItem cs item) (hn : cs.countP isDigit < 2 ^ 32) (s : ScanState) :
    ∃ s', scanItem (startItem s) cs = some s' ∧ Scanned item s' := by
  obtain ⟨ws, body, ws', hws, hbody, hws', rfl⟩ := hitem
  obtain ⟨c, hspaces⟩ := scanItem_spaces hws (startItem s)
  rw [List.countP_append, List.countP_append] at hn
  obtain ⟨s₁, hscan, hs₁⟩ := scanItem_spelled hbody (by omega) s c
  obtain ⟨c', hspaces'⟩ := scanItem_spaces hws' s₁
  refine ⟨_, ?_, hs₁.spaces c'⟩
  rw [scanItem_append, hspaces, Option.bind_some, scanItem_append, hscan, Option.bind_some, hspaces']

end Skp.Utils
