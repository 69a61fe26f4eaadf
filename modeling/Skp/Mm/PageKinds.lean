import Mathlib

/-! # Block pages and compound pages

What `buffered_rmqueue` writes into the descriptors of a block it hands out, and what
`free_pages_bulk` undoes. Both kinds of multi-page block keep their order in the second descriptor.
Pages are counted from the first of the block; `none` is `BUG()`. -/
namespace Skp.Mm
set_option autoImplicit false

@[ext] structure PageFlags where
  locked : Bool
  slab : Bool
  compound : Bool
  buddy : Bool
  active : Bool
  block : Bool
  inited : Bool
  reserved : Bool
  nid : ℕ
deriving DecidableEq

/-- `head` shares its place with `data`. -/
@[ext] structure Vpage where
  flags : PageFlags
  count : ℤ
  order : ℤ
  head : Option ℕ
deriving DecidableEq

def gfpComp : UInt32 := 2
def gfpBlk : UInt32 := 4

def initVpage (nid : ℕ) (reserve : Bool) : Vpage where
  flags := ⟨false, false, false, false, false, false, true, reserve, nid⟩
  count := 0
  order := -1
  head := none

def prepNewPage (pages : ℕ → Vpage) : ℕ → Vpage :=
  let page := pages 0
  Function.update pages 0
    { page with
      flags := { page.flags with locked := false, slab := false, compound := false }
      count := 1
      head := none }

def prepBlockPage (pages : ℕ → Vpage) (order : ℕ) (gfp : UInt32) : ℕ → Vpage :=
  if order = 0 ∨ gfp &&& gfpBlk = 0 then pages
  else
    let pages := Function.update pages 1 { pages 1 with order := order }
    Function.update pages 0 { pages 0 with flags := { (pages 0).flags with block := true } }

/-- The loop over the first `n` pages. -/
def prepCompoundLoop (pages : ℕ → Vpage) : ℕ → ℕ → Vpage
  | 0 => pages
  | i + 1 =>
      let pages := prepCompoundLoop pages i
      Function.update pages i { pages i with
        flags := { (pages i).flags with compound := true }
        head := some 0 }

def prepCompoundPage (pages : ℕ → Vpage) (order : ℕ) (gfp : UInt32) : ℕ → Vpage :=
  if order = 0 ∨ gfp &&& gfpComp = 0 then pages
  else prepCompoundLoop (Function.update pages 1 { pages 1 with order := order }) (2 ^ order)

/-- The end of `buffered_rmqueue`. -/
def prepPages (pages : ℕ → Vpage) (order : ℕ) (gfp : UInt32) : ℕ → Vpage :=
  prepCompoundPage (prepBlockPage (prepNewPage pages) order gfp) order gfp

def destroyBlockPage (pages : ℕ → Vpage) (order : ℕ) : ℕ → Vpage :=
  if order = 0 ∨ (pages 0).flags.block = false then pages
  else
    let pages := Function.update pages 0 { pages 0 with flags := { (pages 0).flags with block := false } }
    Function.update pages 1 { pages 1 with order := -1 }

def compoundHead (pages : ℕ → Vpage) (i : ℕ) : Option ℕ :=
  if (pages i).flags.compound then (pages i).head else some i

def destroyCompoundLoop (pages : ℕ → Vpage) : ℕ → Option (ℕ → Vpage)
  | 0 => some pages
  | i + 1 => do
      let pages ← destroyCompoundLoop pages i
      if compoundHead pages i ≠ some 0 then none
      else
        some (Function.update pages i { pages i
          with flags := { (pages i).flags with compound := false }, head := none })

def destroyCompoundPage (pages : ℕ → Vpage) (order : ℕ) : Option (ℕ → Vpage) :=
  if order = 0 ∨ (pages 0).flags.compound = false then some pages
  else if (pages 1).order ≠ order then none
  else destroyCompoundLoop (Function.update pages 1 { pages 1 with order := -1 }) (2 ^ order)

/-- `free_pages_bulk`, after the last reference was put. -/
def destroyPages (pages : ℕ → Vpage) (order : ℕ) : Option (ℕ → Vpage) :=
  destroyCompoundPage (destroyBlockPage pages order) order

/-! ## What should be -/

/-- The descriptors of a block in the buddy lists: as they were initialised, and not at the head of
a list any more. -/
structure FreshBlock (pages : ℕ → Vpage) (order : ℕ) : Prop where
  locked : ∀ i, i < 2 ^ order → (pages i).flags.locked = false
  slab : ∀ i, i < 2 ^ order → (pages i).flags.slab = false
  compound : ∀ i, i < 2 ^ order → (pages i).flags.compound = false
  block : ∀ i, i < 2 ^ order → (pages i).flags.block = false
  order_eq : ∀ i, i < 2 ^ order → (pages i).order = -1
  head_eq : ∀ i, i < 2 ^ order → (pages i).head = none

def SameDescriptor (p q : Vpage) : Prop := p.flags = q.flags ∧ p.head = q.head ∧ p.order = q.order

/-- Handing out a block and taking it back leaves the descriptors as they were. -/
def PagesRestored (pages : ℕ → Vpage) (order : ℕ) (gfp : UInt32) : Prop :=
  ∃ pages', destroyPages (prepPages pages order gfp) order = some pages' ∧
    ∀ i, SameDescriptor (pages' i) (pages i)

variable {pages : ℕ → Vpage} {order n i : ℕ} {gfp : UInt32}

/-! ## The loops -/

theorem prepCompoundLoop_apply (pages : ℕ → Vpage) (n i : ℕ) : prepCompoundLoop pages n i =
    if i < n then { pages i with
      flags := { (pages i).flags with compound := true }
      head := some 0 } else pages i := by
  induction n with
  | zero => simp [prepCompoundLoop]
  | succ n ih =>
    rw [prepCompoundLoop]
    by_cases hi : i = n
    · subst hi
      have hpage : prepCompoundLoop pages i i = pages i := by rw [ih, if_neg (Nat.lt_irrefl i)]
      rw [Function.update_self, hpage, if_pos (Nat.lt_succ_self i)]
    · rw [Function.update_of_ne hi, ih]
      apply if_congr _ rfl rfl
      omega

theorem destroyCompoundLoop_eq (hcompound : ∀ i, i < n → compoundHead pages i = some 0) :
    destroyCompoundLoop pages n = some fun i =>
      if i < n then { pages i with
        flags := { (pages i).flags with compound := false }
        head := none } else pages i := by
  induction n with
  | zero => simp [destroyCompoundLoop]
  | succ n ih =>
    have hfirst := ih fun i hi => hcompound i (Nat.lt_succ_of_lt hi)
    have hn := hcompound n (Nat.lt_succ_self n)
    have hhead : compoundHead (fun i => if i < n then
        { pages i with flags := { (pages i).flags with compound := false }, head := none }
        else pages i) n = some 0 := by
      rw [compoundHead, if_neg (Nat.lt_irrefl n)]
      exact hn
    rw [destroyCompoundLoop, hfirst]
    simp only [Option.bind_eq_bind, Option.bind_some, hhead, ne_eq, not_true_eq_false, if_false,
      Option.some_inj]
    funext i
    by_cases hi : i = n
    · subst hi
      simp
    · rw [Function.update_of_ne hi]
      apply if_congr _ rfl rfl
      omega

/-! ## One kind at a time -/

theorem one_lt_pages (horder : order ≠ 0) : 1 < 2 ^ order := Nat.one_lt_two_pow horder

theorem prepNewPage_same (hfresh : FreshBlock pages order) (i : ℕ) :
    SameDescriptor (prepNewPage pages i) (pages i) := by
  have hzero := Nat.two_pow_pos order
  by_cases hi : i = 0
  · subst hi
    have hlocked := hfresh.locked 0 hzero
    have hslab := hfresh.slab 0 hzero
    have hcompound := hfresh.compound 0 hzero
    have hhead := hfresh.head_eq 0 hzero
    rw [prepNewPage, Function.update_self]
    refine ⟨?_, hhead.symm, rfl⟩
    apply PageFlags.ext <;> simp [hlocked, hslab, hcompound]
  · rw [prepNewPage, Function.update_of_ne hi]
    exact ⟨rfl, rfl, rfl⟩

theorem FreshBlock.prepNewPage (hfresh : FreshBlock pages order) : FreshBlock (prepNewPage pages) order := by
  have hsame := fun i => prepNewPage_same hfresh i
  constructor
  · intro i hi
    rw [(hsame i).1]
    exact hfresh.locked i hi
  · intro i hi
    rw [(hsame i).1]
    exact hfresh.slab i hi
  · intro i hi
    rw [(hsame i).1]
    exact hfresh.compound i hi
  · intro i hi
    rw [(hsame i).1]
    exact hfresh.block i hi
  · intro i hi
    rw [(hsame i).2.2]
    exact hfresh.order_eq i hi
  · intro i hi
    rw [(hsame i).2.1]
    exact hfresh.head_eq i hi

theorem destroyBlockPage_none (hfresh : FreshBlock pages order) : destroyBlockPage pages order = pages :=
  if_pos (.inr (hfresh.block 0 (Nat.two_pow_pos order)))

theorem destroyCompoundPage_none (hfresh : FreshBlock pages order) :
    destroyCompoundPage pages order = some pages :=
  if_pos (.inr (hfresh.compound 0 (Nat.two_pow_pos order)))

theorem block_restored (hfresh : FreshBlock pages order) (gfp : UInt32) :
    destroyBlockPage (prepBlockPage pages order gfp) order = pages := by
  by_cases hkind : order = 0 ∨ gfp &&& gfpBlk = 0
  · rw [prepBlockPage, if_pos hkind]
    exact destroyBlockPage_none hfresh
  · have hone := hfresh.order_eq 1 (one_lt_pages fun h => hkind (.inl h))
    have hblock := hfresh.block 0 (Nat.two_pow_pos order)
    rw [prepBlockPage, if_neg hkind, destroyBlockPage, if_neg]
    · funext i
      by_cases hi : i = 1
      · subst hi
        simp [← hone]
      · by_cases hi' : i = 0
        · subst hi'
          simp [← hblock]
        · simp [hi, hi']
    · simp only [Function.update_self, not_or]
      exact ⟨fun h => hkind (.inl h), by decide⟩

/-- A page of a compound block. -/
def compoundPage (p : Vpage) : Vpage := { p with flags := { p.flags with compound := true }, head := some 0 }

theorem prepCompoundPage_apply (hkind : ¬(order = 0 ∨ gfp &&& gfpComp = 0)) (i : ℕ) :
    prepCompoundPage pages order gfp i = if i < 2 ^ order then
      compoundPage (if i = 1 then { pages i with order := order } else pages i) else pages i := by
  have hone := one_lt_pages fun h => hkind (.inl h)
  rw [prepCompoundPage, if_neg hkind, prepCompoundLoop_apply]
  by_cases hi : i = 1
  · subst hi
    simp [hone, compoundPage]
  · simp [hi, compoundPage]

theorem compound_restored (hfresh : FreshBlock pages order) (gfp : UInt32) :
    destroyCompoundPage (prepCompoundPage pages order gfp) order = some pages := by
  by_cases hkind : order = 0 ∨ gfp &&& gfpComp = 0
  · rw [prepCompoundPage, if_pos hkind]
    exact destroyCompoundPage_none hfresh
  · have hne : order ≠ 0 := fun h => hkind (.inl h)
    have hone := one_lt_pages hne
    have hzero := Nat.two_pow_pos order
    have hprep : ∀ i, prepCompoundPage pages order gfp i = _ := prepCompoundPage_apply hkind
    have hfirst : (prepCompoundPage pages order gfp 0).flags.compound = true := by
      rw [hprep, if_pos hzero]
      rfl
    have hsecond : (prepCompoundPage pages order gfp 1).order = order := by
      rw [hprep, if_pos hone]
      rfl
    have hheads : ∀ i, i < 2 ^ order → compoundHead (Function.update (prepCompoundPage pages order gfp) 1
        { prepCompoundPage pages order gfp 1 with order := -1 }) i = some 0 := by
      intro i hi
      rw [compoundHead]
      by_cases hi' : i = 1
      · subst hi'
        rw [Function.update_self, hprep, if_pos hone]
        rfl
      · rw [Function.update_of_ne hi', hprep, if_pos hi]
        rfl
    rw [destroyCompoundPage, if_neg (by simp [hne, hfirst]), if_neg (not_not_intro hsecond),
      destroyCompoundLoop_eq hheads]
    congr 1
    funext i
    by_cases hi : i < 2 ^ order
    · have hcompound := hfresh.compound i hi
      have hhead := hfresh.head_eq i hi
      have horder := hfresh.order_eq i hi
      rw [if_pos hi]
      by_cases hi' : i = 1
      · subst hi'
        rw [Function.update_self, hprep, if_pos hone]
        apply Vpage.ext
        · apply PageFlags.ext <;> simp [compoundPage, hcompound]
        · rfl
        · exact horder.symm
        · exact hhead.symm
      · rw [Function.update_of_ne hi', hprep, if_pos hi, if_neg hi']
        apply Vpage.ext
        · apply PageFlags.ext <;> simp [compoundPage, hcompound]
        · rfl
        · rfl
        · exact hhead.symm
    · have hi' : i ≠ 1 := by omega
      rw [if_neg hi, Function.update_of_ne hi', hprep, if_neg hi]

/-! ## Both kinds -/

theorem destroyPages_both (pages : ℕ → Vpage) (hne : order ≠ 0) (hblk : gfp &&& gfpBlk ≠ 0)
    (hcomp : gfp &&& gfpComp ≠ 0) :
    destroyCompoundPage (destroyBlockPage (prepCompoundPage (prepBlockPage pages order gfp) order
      gfp) order) order = none := by
  have hone := one_lt_pages hne
  have hzero := Nat.two_pow_pos order
  have hkind : ¬(order = 0 ∨ gfp &&& gfpBlk = 0) := not_or.mpr ⟨hne, hblk⟩
  have hkind' : ¬(order = 0 ∨ gfp &&& gfpComp = 0) := not_or.mpr ⟨hne, hcomp⟩
  have hfirst : (prepCompoundPage (prepBlockPage pages order gfp) order gfp 0).flags.block = true ∧
      (prepCompoundPage (prepBlockPage pages order gfp) order gfp 0).flags.compound = true := by
    rw [prepCompoundPage_apply hkind', if_pos hzero, prepBlockPage, if_neg hkind]
    exact ⟨rfl, rfl⟩
  obtain ⟨hblock, hcompound⟩ := hfirst
  rw [destroyBlockPage, if_neg (by simp [hne, hblock]), destroyCompoundPage, if_neg, if_pos]
  · simp only [Function.update_self]
    omega
  · simp [hne, hcompound]

/-- Exactly the blocks of both kinds are not restored. -/
theorem pagesRestored_iff (order : ℕ) (gfp : UInt32) (pages : ℕ → Vpage) (hfresh : FreshBlock pages order) :
    PagesRestored pages order gfp ↔ ¬(0 < order ∧ gfp &&& gfpBlk ≠ 0 ∧ gfp &&& gfpComp ≠ 0) := by
  have hnew := hfresh.prepNewPage
  constructor
  · rintro ⟨pages', hdestroy, -⟩ ⟨hpos, hblk, hcomp⟩
    have hnone := destroyPages_both (prepNewPage pages) (show order ≠ 0 by omega) hblk hcomp
    rw [destroyPages, prepPages, hnone] at hdestroy
    cases hdestroy
  · intro hcond
    refine ⟨prepNewPage pages, ?_, prepNewPage_same hfresh⟩
    rw [destroyPages, prepPages]
    by_cases hcomp : order = 0 ∨ gfp &&& gfpComp = 0
    · have hplain : ∀ p : ℕ → Vpage, prepCompoundPage p order gfp = p := fun p => if_pos hcomp
      rw [hplain, block_restored hnew]
      exact destroyCompoundPage_none hnew
    · have hblk : order = 0 ∨ gfp &&& gfpBlk = 0 := by
        by_contra hkind
        obtain ⟨hne, hblk⟩ := not_or.mp hkind
        exact hcond ⟨by omega, hblk, fun h => hcomp (.inr h)⟩
      have hplain : prepBlockPage (prepNewPage pages) order gfp = prepNewPage pages := if_pos hblk
      have hnoblock : (prepCompoundPage (prepNewPage pages) order gfp 0).flags.block = false := by
        rw [prepCompoundPage_apply hcomp, if_pos (Nat.two_pow_pos order)]
        exact hnew.block 0 (Nat.two_pow_pos order)
      rw [hplain, destroyBlockPage, if_pos (.inr hnoblock)]
      exact compound_restored hnew gfp

theorem freshBlock_init (order nid : ℕ) (reserve : Bool) :
    FreshBlock (fun _ => initVpage nid reserve) order :=
  ⟨fun _ _ => rfl, fun _ _ => rfl, fun _ _ => rfl, fun _ _ => rfl, fun _ _ => rfl, fun _ _ => rfl⟩

theorem pagesRestored_iff_compound : PagesRestored (fun _ => initVpage 0 false) 3 gfpComp :=
  (pagesRestored_iff 3 gfpComp _ (freshBlock_init 3 0 false)).mpr (by decide)

/-- Two pages that are a block and a compound page. -/
theorem both_kinds_abort :
    destroyPages (prepPages (fun _ => initVpage 0 false) 1 (gfpBlk ||| gfpComp)) 1 = none ∧
    ¬PagesRestored (fun _ => initVpage 0 false) 1 (gfpBlk ||| gfpComp) := by
  have habort : destroyPages (prepPages (fun _ => initVpage 0 false) 1 (gfpBlk ||| gfpComp)) 1 =
      none := by rfl
  refine ⟨habort, ?_⟩
  rintro ⟨pages', hdestroy, -⟩
  rw [habort] at hdestroy
  cases hdestroy

end Skp.Mm
