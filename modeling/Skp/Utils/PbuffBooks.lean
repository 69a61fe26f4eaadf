import Skp.Foundations.Tally
import Skp.Utils.PbuffSpec

/-! # The books of the packet buffers

`dataref` of a block is the number of pbuffs that point into it, over every sequence of calls, as
long as no block has 2^32 bytes or 2^32 pbuffs. A call changes one pbuff and the blocks it leaves
and enters, and the number of each block changes by that. -/
namespace Skp.Utils
set_option autoImplicit false
open Skp.Foundations

section Books
variable {P B : Type} [DecidableEq B] {s s' : PbHeap P B} {p q : P} {pb : Pbuff B} {blk : PbBlock} {b : B}

def onBlock (b : B) (o : Option (Pbuff B)) : Bool := o.any fun pb => decide (pb.block = b)

/-- A block with `n` pbuffs; without any it is free. -/
def countsTo (o : Option PbBlock) (n : ℕ) : Prop :=
  match o with
  | none => n = 0
  | some blk => 0 < n ∧ blk.dataref = n % 2 ^ 32

structure PbInv (s : PbHeap P B) : Prop where
  live : ∀ p pb, s.pbuff p = some pb → 0 < pb.users ∧ ∃ blk, PbOk s pb blk
  count : ∀ b, ∃ n, Headcount (onBlock b) s.pbuff n ∧ countsTo (s.block b) n

/-- The block has fewer than 2^32 bytes and fewer than 2^32 pbuffs. -/
def PbHeap.BoundedAt (s : PbHeap P B) (b : B) : Prop :=
  (∀ blk, s.block b = some blk → blk.size < 2 ^ 32) ∧ ∀ n, Headcount (onBlock b) s.pbuff n → n < 2 ^ 32

def PbHeap.Bounded (s : PbHeap P B) : Prop := ∀ b, s.BoundedAt b

@[simp] theorem onBlock_none (b : B) : onBlock b none = false := rfl

@[simp] theorem onBlock_some (b : B) (pb : Pbuff B) : onBlock b (some pb) = decide (pb.block = b) := rfl

theorem PbInv.dataref (h : PbInv s) (hs : s.BoundedAt b) (hb : s.block b = some blk) :
    0 < blk.dataref ∧ Headcount (onBlock b) s.pbuff blk.dataref := by
  obtain ⟨n, hn, hcount⟩ := h.count b
  rw [hb] at hcount
  obtain ⟨hpos, href⟩ := hcount
  rw [Nat.mod_eq_of_lt (hs.2 n hn)] at href
  rw [href]
  exact ⟨hpos, hn⟩

variable [DecidableEq P]

/-- A call changes the pbuff `p` and the blocks. -/
theorem PbInv.change (h : PbInv s) {o : Option (Pbuff B)} (hp : s'.pbuff = Function.update s.pbuff p o)
    (hlive : ∀ pb, o = some pb → 0 < pb.users ∧ ∃ blk, PbOk s' pb blk)
    (hothers : ∀ q pb, q ≠ p → s.pbuff q = some pb → ∀ blk, s.block pb.block = some blk →
      ∃ blk', s'.block pb.block = some blk' ∧ blk'.size = blk.size ∧ blk'.datalen = blk.datalen)
    (hcount : ∀ b n, Headcount (onBlock b) s.pbuff n → countsTo (s.block b) n →
      countsTo (s'.block b) (n + (onBlock b o).toNat - (onBlock b (s.pbuff p)).toNat)) : PbInv s' := by
  constructor
  · intro q pb hq
    rw [hp] at hq
    by_cases hqp : q = p
    · subst hqp
      rw [Function.update_self] at hq
      exact hlive pb hq
    · rw [Function.update_of_ne hqp] at hq
      obtain ⟨husers, blk, hok⟩ := h.live q pb hq
      obtain ⟨blk', hb, hsize, hlen⟩ := hothers q pb hqp hq blk hok.found
      exact ⟨husers, blk', hok.reblock hb hsize hlen⟩
  · intro b
    obtain ⟨n, hn, hold⟩ := h.count b
    have hnew := hn.update p o
    rw [← hp] at hnew
    exact ⟨_, hnew, hcount b n hn hold⟩

theorem PbInv.repoint (h : PbInv s) (hp : s.pbuff p = some pb) {pb' : Pbuff B} (hblock : pb'.block = pb.block)
    (husers : 0 < pb'.users) (hok : PbOk s pb' blk) : PbInv (s.setPb p (some pb')) := by
  apply h.change rfl
  · intro pb₁ hpb
    obtain rfl := Option.some.inj hpb
    exact ⟨husers, blk, hok.reblock hok.found rfl rfl⟩
  · intro q pb₁ _ _ blk₁ hb
    exact ⟨blk₁, hb, rfl, rfl⟩
  · intro b n hn hcount
    rw [hp, onBlock_some, onBlock_some, hblock, Nat.add_sub_cancel]
    exact hcount

omit [DecidableEq P] in
theorem PbInv.rewrite (h : PbInv s) (hb : s.block b = some blk) (bytes : ℕ → UInt8) :
    PbInv (s.setBlock b (some { blk with bytes := bytes })) := by
  have hsame : ∀ c blk₁, s.block c = some blk₁ →
      ∃ blk', (s.setBlock b (some { blk with bytes := bytes })).block c = some blk' ∧
      blk'.size = blk₁.size ∧ blk'.datalen = blk₁.datalen ∧ blk'.dataref = blk₁.dataref := by
    intro c blk₁ hc
    by_cases hcb : c = b
    · subst hcb
      obtain rfl := Option.some.inj (hb.symm.trans hc)
      exact ⟨_, setBlock_block_self .., rfl, rfl, rfl⟩
    · exact ⟨blk₁, (setBlock_block_of_ne hcb _).trans hc, rfl, rfl, rfl⟩
  constructor
  · intro q pb hq
    obtain ⟨husers, blk₁, hok⟩ := h.live q pb hq
    obtain ⟨blk', hnew, hsize, hlen, -⟩ := hsame _ blk₁ hok.found
    exact ⟨husers, blk', hok.reblock hnew hsize hlen⟩
  · intro c
    obtain ⟨n, hn, hcount⟩ := h.count c
    refine ⟨n, hn, ?_⟩
    cases hc : s.block c with
    | none =>
      have hcb : c ≠ b := by
        rintro rfl
        rw [hb] at hc
        cases hc
      rw [setBlock_block_of_ne hcb, hc]
      rw [hc] at hcount
      exact hcount
    | some blk₁ =>
      obtain ⟨blk', hnew, -, -, href⟩ := hsame c blk₁ hc
      rw [hc] at hcount
      rw [hnew]
      exact ⟨hcount.1, href.trans hcount.2⟩

theorem PbInv.fresh (h : PbInv s) (hp : s.pbuff p = none) (hb : s.block b = none)
    (hblock : pb.block = b) (husers : 0 < pb.users)
    (href : blk.dataref = 1) (hok : PbOk (s.setBlock b (some blk)) pb blk) :
    PbInv ((s.setBlock b (some blk)).setPb p (some pb)) := by
  apply h.change rfl
  · intro pb₁ hpb
    obtain rfl := Option.some.inj hpb
    exact ⟨husers, blk, hok.reblock hok.found rfl rfl⟩
  · intro q pb₁ _ _ blk₁ hblk
    have hne : pb₁.block ≠ b := by
      intro heq
      rw [heq, hb] at hblk
      cases hblk
    exact ⟨blk₁, (setBlock_block_of_ne hne _).trans hblk, rfl, rfl⟩
  · intro c n hn hcount
    rw [hp, onBlock_none, onBlock_some, hblock, Bool.toNat_false, Nat.sub_zero]
    by_cases hc : c = b
    · subst hc
      rw [hb] at hcount
      have hzero : n = 0 := hcount
      rw [setPb_block, setBlock_block_self, hzero]
      simp [countsTo, href]
    · have hne : b ≠ c := fun heq => hc heq.symm
      rw [setPb_block, setBlock_block_of_ne hc]
      simpa [hne] using hcount

theorem PbInv.join (h : PbInv s) (hq : s.pbuff q = none) (hb : s.block b = some blk)
    (hblock : pb.block = b) (husers : 0 < pb.users)
    (hok : PbOk s pb blk) :
    PbInv
      ((s.setBlock b (some { blk with dataref := urefInc blk.dataref })).setPb q (some pb)) := by
  apply h.change rfl
  · intro pb₁ hpb
    obtain rfl := Option.some.inj hpb
    have hfound : ((s.setBlock b (some { blk with dataref := urefInc blk.dataref })).setPb q
        (some pb)).block pb.block =
        some { blk with dataref := urefInc blk.dataref } := by rw [setPb_block, hblock, setBlock_block_self]
    exact ⟨husers, _, hok.reblock hfound rfl rfl⟩
  · intro r pb₁ _ _ blk₁ hblk
    by_cases hc : pb₁.block = b
    · rw [hc] at hblk ⊢
      obtain rfl := Option.some.inj (hb.symm.trans hblk)
      exact ⟨_, setBlock_block_self .., rfl, rfl⟩
    · exact ⟨blk₁, (setBlock_block_of_ne hc _).trans hblk, rfl, rfl⟩
  · intro c n hn hcount
    rw [hq, onBlock_none, onBlock_some, hblock, Bool.toNat_false, Nat.sub_zero]
    by_cases hc : c = b
    · subst hc
      rw [hb] at hcount
      obtain ⟨hpos, href⟩ := hcount
      rw [setPb_block, setBlock_block_self]
      simp only [countsTo, urefInc, href, decide_true, Bool.toNat_true]
      omega
    · have hne : b ≠ c := fun heq => hc heq.symm
      rw [setPb_block, setBlock_block_of_ne hc]
      simpa [hne] using hcount

omit [DecidableEq P] in
theorem release_of_shared (h : PbInv s) (hs : s.BoundedAt pb.block) (hp : s.pbuff p = some pb)
    (hok : PbOk s pb blk) {pb' : Pbuff B}
    (hq : s.pbuff q = some pb') (hqp : q ≠ p) (hblock : pb'.block = pb.block) :
    blk.release blk.dataref = some { blk with dataref := blk.dataref - 1 } := by
  obtain ⟨hpos, hn⟩ := h.dataref hs hok.found
  have hmany : blk.dataref ≠ 1 := by
    intro hone
    apply hqp
    exact hn.unique (Nat.le_of_eq hone) (by simp [hq, hblock]) (by simp [hp])
  rw [PbBlock.release, if_neg hmany]

theorem PbInv.drop (h : PbInv s) (hs : s.BoundedAt pb.block) (hp : s.pbuff p = some pb)
    (hok : PbOk s pb blk) :
    PbInv ((s.setBlock pb.block (blk.release blk.dataref)).setPb p none) := by
  obtain ⟨hpos, hn⟩ := h.dataref hs hok.found
  have hlt := hs.2 _ hn
  apply h.change rfl
  · intro pb₁ hpb
    cases hpb
  · intro q pb₁ hqp hq blk₁ hblk
    by_cases hc : pb₁.block = pb.block
    · have hkept := release_of_shared h hs hp hok hq hqp hc
      rw [hc] at hblk ⊢
      obtain rfl := Option.some.inj (hok.found.symm.trans hblk)
      exact ⟨_, (setBlock_block_self ..).trans hkept, rfl, rfl⟩
    · exact ⟨blk₁, (setBlock_block_of_ne hc _).trans hblk, rfl, rfl⟩
  · intro c n hnc hcount
    rw [hp, onBlock_none, onBlock_some, Bool.toNat_false, Nat.add_zero]
    by_cases hc : c = pb.block
    · subst hc
      have hsame := Tally.eq hnc hn
      rw [setPb_block, setBlock_block_self, hsame, decide_eq_true rfl, Bool.toNat_true, PbBlock.release]
      by_cases hone : blk.dataref = 1
      · rw [if_pos hone, hone]
        rfl
      · rw [if_neg hone]
        simp only [countsTo]
        omega
    · have hne : pb.block ≠ c := fun heq => hc heq.symm
      rw [setPb_block, setBlock_block_of_ne hc]
      simpa [hne] using hcount

omit [DecidableEq P] in
theorem PbOk.headZero (hok : PbOk s pb blk) (hs : s.BoundedAt pb.block) : pbHead pb blk = 0 :=
  hok.head_eq_zero (hs.1 blk hok.found)

omit [DecidableEq P] in
theorem PbInv.released (h : PbInv s) (hs : s.BoundedAt pb.block) (hok : PbOk s pb blk) :
    pbReleaseData s pb = some (s.setBlock pb.block (blk.release blk.dataref)) :=
  pbReleaseData_eq hok (hok.headZero hs) rfl (h.dataref hs hok.found).1

/-! ## The calls -/

omit [DecidableEq P] in
theorem PbInv.ok_of_shinfo (h : PbInv s) (hp : s.pbuff p = some pb) (hb : s.shinfo pb = some blk) :
    0 < pb.users ∧ PbOk s pb blk := by
  obtain ⟨husers, blk₁, hok⟩ := h.live p pb hp
  obtain rfl := Option.some.inj (hok.shinfo.symm.trans hb)
  exact ⟨husers, hok⟩

theorem PbInv.alloc (h : PbInv s) {size : ℕ} {ctl : Option P} {mem : Option (Malloced B)} {r : Option P}
    (hstep : allocPb s size ctl mem = some (s', r)) : PbInv s' := by
  cases ctl with
  | none =>
    simp only [allocPb, Option.some.injEq, Prod.mk.injEq] at hstep
    exact hstep.1 ▸ h
  | some p =>
    cases mem with
    | none =>
      simp only [allocPb, Option.some.injEq, Prod.mk.injEq] at hstep
      exact hstep.1 ▸ h
    | some m =>
      obtain ⟨⟨hp, hb, -⟩, heq⟩ := Option.ite_none_right_eq_some.mp hstep
      simp only [Option.some.injEq, Prod.mk.injEq] at heq
      rw [← heq.1]
      apply h.fresh (Option.isNone_iff_eq_none.mp hp) (Option.isNone_iff_eq_none.mp hb) rfl Nat.one_pos rfl
      exact ⟨setBlock_block_self .., rfl, le_refl 0, Nat.zero_le _, rfl, eight_dvd_align8 size⟩

theorem setBlock_setPb_drop {x g : Option PbBlock} {y : Option (Pbuff B)} {c : B} :
    (((s.setBlock b x).setPb p none).setBlock c g).setPb p y = ((s.setBlock b x).setBlock c g).setPb p y := by
  simp [PbHeap.setPb, PbHeap.setBlock]

theorem PbInv.expand (h : PbInv s) (hs : s.Bounded) {nhead ntail : ℕ} {mem : Option (Malloced B)} {rc : ℤ}
    (hstep : pbExpand s p nhead ntail mem = some (s', rc)) : PbInv s' := by
  obtain ⟨rfl, -⟩ | ⟨pb, blk, m, s₁, hp, hb, hone, hnhead, hntail, hfree, hhead, hs₁, -, rfl⟩ :=
    pbExpand_cases hstep
  · exact h
  · obtain ⟨husers, hok⟩ := h.ok_of_shinfo hp hb
    have hrel := h.released (hs pb.block) hok
    obtain rfl := Option.some.inj (hs₁.symm.trans hrel)
    have hne : m.block ≠ pb.block := by
      intro heq
      rw [heq, hok.found] at hfree
      cases hfree
    have hdrop := h.drop (hs pb.block) hp hok
    rw [← setBlock_setPb_drop]
    refine hdrop.fresh (setPb_pbuff_self ..)
      ?_ rfl husers rfl (hok.grown hnhead hntail hhead (setBlock_block_self ..))
    rw [setPb_block, setBlock_block_of_ne hne]
    exact hfree

theorem PbInv.op (h : PbInv s) {o : PbOp} (hstep : pbOp s p o = some s') : PbInv s' := by
  obtain ⟨pb, hp⟩ : ∃ pb, s.pbuff p = some pb := by
    cases hp : s.pbuff p with
    | none =>
      cases o <;>
        simp [pbOp, pbReserve, pbPutdata, pbPushdata, pbPopdata, pbPulldata, pbTrimdata, hp]
        at hstep
    | some pb => exact ⟨pb, rfl⟩
  obtain ⟨husers, blk, hok⟩ := h.live p pb hp
  obtain ⟨pb', bytes, rfl, hblock, hsame, hok'⟩ := hok.op hp hstep
  exact (h.rewrite hok.found bytes).repoint hp hblock (hsame ▸ husers) (hok'.reblock hok'.found rfl rfl)

/-- `pb_clone` and `pb_share` put a new pbuff on the block of `p`. -/
theorem PbInv.share (h : PbInv s) (hp : s.pbuff p = some pb) (hok : PbOk s pb blk)
    (husers : 0 < pb.users) (hq : s.pbuff q = none)
    {pb' : Pbuff B} (hblock : pb'.block = pb.block) (hone : 0 < pb'.users) (hok' : PbOk s pb' blk) :
    PbInv (((s.setBlock pb.block (some { blk with dataref := urefInc blk.dataref })).setPb p
      (some { pb with cloned := true })).setPb q (some pb')) := by
  have hqp : q ≠ p := by
    rintro rfl
    rw [hp] at hq
    cases hq
  have hmarked : PbInv (s.setPb p (some { pb with cloned := true })) :=
    h.repoint hp rfl husers ⟨hok.found, hok.endp, hok.data_le, hok.tail_le, hok.datalen, hok.aligned⟩
  have hjoined :=
    hmarked.join (q := q) (b := pb.block) ((setPb_pbuff_of_ne hqp _).trans hq) hok.found hblock hone
    (hok'.reblock hok'.found rfl rfl)
  exact hjoined

/-- `pb_clone` fails and changes nothing, or makes a new pbuff on the same block. -/
theorem pbClone_cases {ctl r : Option P} (hstep : pbClone s p ctl = some (s', r)) :
    (s' = s ∧ r = none) ∨ ∃ pb blk q, s.pbuff p = some pb ∧ s.shinfo pb = some blk ∧
      s.pbuff q = none ∧ r = some q ∧
      s' = ((s.setBlock pb.block (some { blk with dataref := urefInc blk.dataref })).setPb p
        (some { pb with cloned := true })).setPb q (some { pb with users := 1, cloned := true }) := by
  simp only [pbClone, Option.bind_eq_bind, Option.bind_eq_some_iff] at hstep
  obtain ⟨pb, hp, hstep⟩ := hstep
  cases ctl with
  | none =>
    simp only [Option.some.injEq, Prod.mk.injEq] at hstep
    exact Or.inl ⟨hstep.1.symm, hstep.2.symm⟩
  | some q =>
    obtain ⟨blk, hb, hstep⟩ := Option.bind_eq_some_iff.mp hstep
    obtain ⟨hq, heq⟩ := Option.ite_none_right_eq_some.mp hstep
    simp only [Option.some.injEq, Prod.mk.injEq] at heq
    exact Or.inr ⟨pb, blk, q, hp, hb, Option.isNone_iff_eq_none.mp hq, heq.2.symm, heq.1.symm⟩

theorem PbInv.clone (h : PbInv s) {ctl r : Option P} (hstep : pbClone s p ctl = some (s', r)) : PbInv s' := by
  obtain ⟨rfl, -⟩ | ⟨pb, blk, q, hp, hb, hq, -, rfl⟩ := pbClone_cases hstep
  · exact h
  · obtain ⟨husers, hok⟩ := h.ok_of_shinfo hp hb
    exact h.share hp hok husers hq rfl Nat.one_pos ⟨hok.found, hok.endp, hok.data_le, hok.tail_le,
      hok.datalen, hok.aligned⟩

theorem PbInv.shareAt (h : PbInv s) {l : ℤ} {ctl r : Option P}
    (hstep : pbShare s p l ctl = some (s', r)) : PbInv s' := by
  simp only [pbShare, Option.bind_eq_bind, Option.bind_eq_some_iff] at hstep
  obtain ⟨pb, hp, hstep⟩ := hstep
  split at hstep
  · simp only [Option.some.injEq, Prod.mk.injEq] at hstep
    exact hstep.1 ▸ h
  · rename_i hl
    cases ctl with
    | none =>
      simp only [Option.some.injEq, Prod.mk.injEq] at hstep
      exact hstep.1 ▸ h
    | some q =>
      obtain ⟨blk, hb, hstep⟩ := Option.bind_eq_some_iff.mp hstep
      obtain ⟨⟨hq, hafter, hbefore⟩, heq⟩ := Option.ite_none_right_eq_some.mp hstep
      simp only [Option.some.injEq, Prod.mk.injEq] at heq
      obtain ⟨husers, hok⟩ := h.ok_of_shinfo hp hb
      have hdata := hok.data_le
      have htail := hok.tail_le
      rw [← heq.1]
      refine h.share hp hok husers (Option.isNone_iff_eq_none.mp hq) rfl Nat.one_pos
        ⟨hok.found, hok.endp, ?_, ?_, hok.datalen, hok.aligned⟩
      · simp only
        split <;> omega
      · simp only
        split
        · have hroom := hafter (by assumption)
          omega
        · omega

theorem PbInv.free (h : PbInv s) (hs : ∀ pb, s.pbuff p = some pb → pb.users = 1 → s.BoundedAt pb.block)
    (hstep : freePb s p = some s') : PbInv s' := by
  simp only [freePb, Option.bind_eq_bind, Option.bind_eq_some_iff] at hstep
  obtain ⟨pb, hp, hstep⟩ := hstep
  obtain ⟨husers, blk, hok⟩ := h.live p pb hp
  split at hstep
  · rename_i hone
    have hbound := hs pb hp hone
    obtain ⟨s₁, hs₁, heq⟩ := Option.bind_eq_some_iff.mp hstep
    obtain rfl := Option.some.inj heq
    obtain rfl := Option.some.inj (hs₁.symm.trans (h.released hbound hok))
    exact h.drop hbound hp hok
  · obtain rfl := Option.some.inj hstep
    exact h.repoint hp rfl (by simp only; omega) ⟨hok.found, hok.endp, hok.data_le, hok.tail_le,
      hok.datalen, hok.aligned⟩

theorem PbInv.get (h : PbInv s) {r : Option P} (hstep : pbGet s p = some (s', r)) : PbInv s' := by
  simp only [pbGet, Option.bind_eq_bind, Option.bind_eq_some_iff] at hstep
  obtain ⟨pb, hp, hstep⟩ := hstep
  obtain ⟨husers, blk, hok⟩ := h.live p pb hp
  obtain ⟨-, heq⟩ := Option.ite_none_left_eq_some.mp hstep
  simp only [Option.some.injEq, Prod.mk.injEq] at heq
  rw [← heq.1]
  exact h.repoint hp rfl (Nat.succ_pos _) ⟨hok.found, hok.endp, hok.data_le, hok.tail_le,
    hok.datalen, hok.aligned⟩

/-- `pb_copy` fails and changes nothing, or makes a new pbuff on a new block. -/
theorem pbCopy_cases (hp : s.pbuff p = some pb) (hok : PbOk s pb blk) (hs : s.BoundedAt pb.block)
    {ctl r : Option P}
    {mem : Option (Malloced B)} (hstep : pbCopy s p ctl mem = some (s', r)) :
    (s' = s ∧ r = none) ∨ ∃ q, ∃ m : Malloced B, r = some q ∧ s.pbuff q = none ∧ s.block m.block = none ∧
      s' = (s.setBlock m.block (some (blk.copied m.junk pb.tail))).setPb q
        (some (pb.copied m.block blk.size)) := by
  cases ctl with
  | none =>
    simp only [pbCopy, hp, hok.shinfo, allocPb, Option.bind_eq_bind, Option.bind_some,
      Option.some.injEq, Prod.mk.injEq] at hstep
    exact Or.inl ⟨hstep.1.symm, hstep.2.symm⟩
  | some q =>
    cases mem with
    | none =>
      simp only [pbCopy, hp, hok.shinfo, allocPb, Option.bind_eq_bind, Option.bind_some,
        Option.some.injEq, Prod.mk.injEq] at hstep
      exact Or.inl ⟨hstep.1.symm, hstep.2.symm⟩
    | some m =>
      rw [pbCopy_eq hp hok (hs.1 blk hok.found)] at hstep
      obtain ⟨⟨hq, hb⟩, heq⟩ := Option.ite_none_right_eq_some.mp hstep
      simp only [Option.some.injEq, Prod.mk.injEq] at heq
      exact Or.inr ⟨q, m, heq.2.symm, Option.isNone_iff_eq_none.mp hq,
        Option.isNone_iff_eq_none.mp hb, heq.1.symm⟩

theorem PbInv.copy (h : PbInv s) (hs : s.Bounded) {ctl r : Option P} {mem : Option (Malloced B)}
    (hstep : pbCopy s p ctl mem = some (s', r)) : PbInv s' := by
  have hlive : ∃ pb, s.pbuff p = some pb := by
    simp only [pbCopy, Option.bind_eq_bind, Option.bind_eq_some_iff] at hstep
    obtain ⟨pb, hp, -⟩ := hstep
    exact ⟨pb, hp⟩
  obtain ⟨pb, hp⟩ := hlive
  obtain ⟨husers, blk, hok⟩ := h.live p pb hp
  obtain ⟨rfl, -⟩ | ⟨q, m, -, hq, hb, rfl⟩ := pbCopy_cases hp hok (hs pb.block) hstep
  · exact h
  · exact h.fresh hq hb rfl Nat.one_pos rfl (hok.copied (setBlock_block_self ..))

theorem PbInv.boundedAt_fresh (h : PbInv s) (hs : s.BoundedAt b) (hq : s.pbuff q = none) {c : B}
    (hc : b ≠ c) (hblock : pb.block = c)
    (x : Option PbBlock) : ((s.setBlock c x).setPb q (some pb)).BoundedAt b := by
  constructor
  · intro blk hb
    rw [setPb_block, setBlock_block_of_ne hc] at hb
    exact hs.1 blk hb
  · intro n hn
    obtain ⟨k, hk, -⟩ := h.count b
    have hnew := hk.update q (some pb)
    have hne : c ≠ b := fun heq => hc heq.symm
    have hsame := Tally.eq hn hnew
    simp only [hq, onBlock_none, onBlock_some, hblock, hne, decide_false, Bool.toNat_false,
      Nat.add_zero, Nat.sub_zero] at hsame
    rw [hsame]
    exact hs.2 k hk

theorem PbInv.unshare (h : PbInv s) (hs : s.Bounded) {ctl r : Option P} {mem : Option (Malloced B)}
    (hstep : pbUnshare s p ctl mem = some (s', r)) : PbInv s' := by
  simp only [pbUnshare, Option.bind_eq_bind, Option.bind_eq_some_iff] at hstep
  obtain ⟨pb, hp, blk, hb, hstep⟩ := hstep
  obtain ⟨husers, hok⟩ := h.ok_of_shinfo hp hb
  split at hstep
  · obtain ⟨⟨s₁, r₁⟩, hcopy, hstep⟩ := Option.bind_eq_some_iff.mp hstep
    have hcopied := h.copy hs hcopy
    obtain ⟨rfl, rfl⟩ | ⟨q, m, rfl, hq, hfree, rfl⟩ := pbCopy_cases hp hok (hs pb.block) hcopy
    · simp only [Option.some.injEq, Prod.mk.injEq] at hstep
      exact hstep.1 ▸ hcopied
    · obtain ⟨s₂, hfreed, heq⟩ := Option.bind_eq_some_iff.mp hstep
      simp only [Option.some.injEq, Prod.mk.injEq] at heq
      have hpq : p ≠ q := by
        rintro rfl
        rw [hp] at hq
        cases hq
      have hne : pb.block ≠ m.block := by
        intro hsame
        rw [← hsame, hok.found] at hfree
        cases hfree
      rw [← heq.1]
      apply hcopied.free ?_ hfreed
      intro pb₁ hpb _
      rw [setPb_pbuff_of_ne hpq] at hpb
      obtain rfl := Option.some.inj (hp.symm.trans hpb)
      exact h.boundedAt_fresh (hs pb.block) hq hne rfl _
  · simp only [Option.some.injEq, Prod.mk.injEq] at hstep
    exact hstep.1 ▸ h

theorem PbInv.shareCheck (h : PbInv s) {ctl r : Option P}
    (hstep : pbShareCheck s p ctl = some (s', r)) : PbInv s' := by
  simp only [pbShareCheck, Option.bind_eq_bind, Option.bind_eq_some_iff] at hstep
  obtain ⟨pb, hp, hstep⟩ := hstep
  split at hstep
  · rename_i hshared
    obtain ⟨⟨s₁, r₁⟩, hclone, hstep⟩ := Option.bind_eq_some_iff.mp hstep
    have hcloned := h.clone hclone
    obtain ⟨rfl, rfl⟩ | ⟨pb₁, blk, q, hp₁, hb, hq, rfl, rfl⟩ := pbClone_cases hclone
    · simp only [Option.some.injEq, Prod.mk.injEq] at hstep
      exact hstep.1 ▸ hcloned
    · obtain ⟨s₂, hfreed, heq⟩ := Option.bind_eq_some_iff.mp hstep
      simp only [Option.some.injEq, Prod.mk.injEq] at heq
      obtain rfl := Option.some.inj (hp.symm.trans hp₁)
      have hpq : p ≠ q := by
        rintro rfl
        rw [hp] at hq
        cases hq
      rw [← heq.1]
      apply hcloned.free ?_ hfreed
      intro pb₂ hpb hone
      rw [setPb_pbuff_of_ne hpq, setPb_pbuff_self] at hpb
      obtain rfl := Option.some.inj hpb
      have hmany : pb.users ≠ 1 := by
        simpa [pbShared] using hshared
      exact absurd hone hmany
  · simp only [Option.some.injEq, Prod.mk.injEq] at hstep
    exact hstep.1 ▸ h

theorem PbInv.expandHead (h : PbInv s) (hs : s.Bounded) {nhead ntail : ℕ} {mem : Option (Malloced B)} {rc : ℤ}
    (hstep : pbExpandHead s p nhead ntail mem = some (s', rc)) : PbInv s' := by
  obtain ⟨rfl, -⟩ | ⟨head, tail, hexpand⟩ := pbExpandHead_cases hstep
  · exact h
  · exact h.expand hs hexpand

theorem PbInv.write (h : PbInv s) (hs : s.Bounded) {bs : List UInt8} {mem : Option (Malloced B)} {rc : ℤ}
    (hstep : pbWrite s p bs mem = some (s', rc)) : PbInv s' := by
  simp only [pbWrite, Option.bind_eq_bind, Option.bind_eq_some_iff] at hstep
  obtain ⟨⟨s₁, rc₁⟩, hprepare, hstep⟩ := hstep
  have hprepared : PbInv s₁ := by
    simp only [pbPrepareWrite, Option.bind_eq_bind, Option.bind_eq_some_iff] at hprepare
    obtain ⟨pb, hp, blk, hb, hprepare⟩ := hprepare
    split at hprepare
    · exact h.expand hs hprepare
    · simp only [Option.some.injEq, Prod.mk.injEq] at hprepare
      exact hprepare.1 ▸ h
  split at hstep
  · obtain ⟨s₂, hput, heq⟩ := Option.bind_eq_some_iff.mp hstep
    simp only [Option.some.injEq, Prod.mk.injEq] at heq
    rw [← heq.1]
    exact hprepared.op (o := .put bs) hput
  · simp only [Option.some.injEq, Prod.mk.injEq] at hstep
    exact hstep.1 ▸ hprepared

theorem PbInv.step (h : PbInv s) (hs : s.Bounded) {a : PbAct P B} (hstep : pbStep s a = some s') :
    PbInv s' := by
  simp only [pbStep, Option.map_eq_some_iff] at hstep
  obtain ⟨⟨s₁, ret⟩, hcall, rfl⟩ := hstep
  cases a with
  | alloc size ctl mem =>
    obtain ⟨r, hr, heq⟩ := Option.map_eq_some_iff.mp hcall
    exact (Prod.mk.inj heq).1 ▸ h.alloc hr
  | clone p ctl =>
    obtain ⟨r, hr, heq⟩ := Option.map_eq_some_iff.mp hcall
    exact (Prod.mk.inj heq).1 ▸ h.clone hr
  | copy p ctl mem =>
    obtain ⟨r, hr, heq⟩ := Option.map_eq_some_iff.mp hcall
    exact (Prod.mk.inj heq).1 ▸ h.copy hs hr
  | share p l ctl =>
    obtain ⟨r, hr, heq⟩ := Option.map_eq_some_iff.mp hcall
    exact (Prod.mk.inj heq).1 ▸ h.shareAt hr
  | expand p nhead ntail mem =>
    obtain ⟨r, hr, heq⟩ := Option.map_eq_some_iff.mp hcall
    exact (Prod.mk.inj heq).1 ▸ h.expand hs hr
  | expandHead p nhead ntail mem =>
    obtain ⟨r, hr, heq⟩ := Option.map_eq_some_iff.mp hcall
    exact (Prod.mk.inj heq).1 ▸ h.expandHead hs hr
  | unshare p ctl mem =>
    obtain ⟨r, hr, heq⟩ := Option.map_eq_some_iff.mp hcall
    exact (Prod.mk.inj heq).1 ▸ h.unshare hs hr
  | shareCheck p ctl =>
    obtain ⟨r, hr, heq⟩ := Option.map_eq_some_iff.mp hcall
    exact (Prod.mk.inj heq).1 ▸ h.shareCheck hr
  | get p =>
    obtain ⟨r, hr, heq⟩ := Option.map_eq_some_iff.mp hcall
    exact (Prod.mk.inj heq).1 ▸ h.get hr
  | free p =>
    obtain ⟨r, hr, heq⟩ := Option.map_eq_some_iff.mp hcall
    exact (Prod.mk.inj heq).1 ▸ h.free (fun pb _ _ => hs pb.block) hr
  | write p bs mem =>
    obtain ⟨r, hr, heq⟩ := Option.map_eq_some_iff.mp hcall
    exact (Prod.mk.inj heq).1 ▸ h.write hs hr
  | op p o =>
    obtain ⟨r, hr, heq⟩ := Option.map_eq_some_iff.mp hcall
    exact (Prod.mk.inj heq).1 ▸ h.op hr

omit [DecidableEq P] in
theorem pbInv_empty : PbInv (pbEmpty : PbHeap P B) where
  live p pb hp := by cases hp
  count b := ⟨0, headcount_zero fun _ => rfl, rfl⟩

end Books

end Skp.Utils
