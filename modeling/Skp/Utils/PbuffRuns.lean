import Skp.Utils.PbuffBooks

/-! # Runs of the packet buffers

What the calls that move data keep of it, that a call that fails changes nothing, and the two
together with the books over every sequence of calls. A block that 2^32 pbuffs share shows why the
number of sharers must be bounded. -/
namespace Skp.Utils
set_option autoImplicit false
open Skp.Foundations

section Runs
variable {P B : Type} [DecidableEq B] {s s' : PbHeap P B} {p q : P} {pb : Pbuff B} {blk : PbBlock} {b : B}

/-! ## The data -/

theorem bytes_release (h : PbInv s) (hs : s.BoundedAt pb.block) (hp : s.pbuff p = some pb)
    (hok : PbOk s pb blk) (hqp : q ≠ p)
    {pb' : Pbuff B} (hq : s.pbuff q = some pb') :
    ((s.setBlock pb.block (blk.release blk.dataref)).block pb'.block).map PbBlock.bytes =
      (s.block pb'.block).map PbBlock.bytes := by
  by_cases hc : pb'.block = pb.block
  · rw [hc, setBlock_block_self, release_of_shared h hs hp hok hq hqp hc, hok.found]
    rfl
  · rw [setBlock_block_of_ne hc]

variable [DecidableEq P]

theorem PbInv.content_expand (h : PbInv s) (hs : s.Bounded) {nhead ntail : ℕ}
    {mem : Option (Malloced B)} {rc : ℤ}
    (hstep : pbExpand s p nhead ntail mem = some (s', rc)) (q : P) : s'.content q = s.content q := by
  obtain ⟨rfl, -⟩ | ⟨pb, blk, m, s₁, hp, hb, hone, hnhead, hntail, hfree, hhead, hs₁, -, rfl⟩ :=
    pbExpand_cases hstep
  · rfl
  · obtain ⟨-, hok⟩ := h.ok_of_shinfo hp hb
    obtain rfl := Option.some.inj (hs₁.symm.trans (h.released (hs pb.block) hok))
    have hzero := hok.headZero (hs pb.block)
    by_cases hqp : q = p
    · subst hqp
      exact content_grown hok hp _ _ _ _ (by omega) _
    · refine content_frame (setPb_pbuff_of_ne hqp _) fun pb' hq => ?_
      have hne : pb'.block ≠ m.block := by
        intro heq
        obtain ⟨-, blk', hok'⟩ := h.live q pb' hq
        rw [← heq, hok'.found] at hfree
        cases hfree
      rw [setPb_block, setBlock_block_of_ne hne]
      exact bytes_release h (hs pb.block) hp hok hqp hq

theorem PbInv.content_copy (h : PbInv s) (hs : s.Bounded) {ctl : Option P} {mem : Option (Malloced B)}
    (hstep : pbCopy s p ctl mem = some (s', some q)) :
    s'.content q = s.content p ∧ ∀ r, r ≠ q → s'.content r = s.content r := by
  have hlive : ∃ pb, s.pbuff p = some pb := by
    simp only [pbCopy, Option.bind_eq_bind, Option.bind_eq_some_iff] at hstep
    obtain ⟨pb, hp, -⟩ := hstep
    exact ⟨pb, hp⟩
  obtain ⟨pb, hp⟩ := hlive
  obtain ⟨-, blk, hok⟩ := h.live p pb hp
  obtain ⟨-, hnone⟩ | ⟨q', m, hsome, hq, hb, rfl⟩ := pbCopy_cases hp hok (hs pb.block) hstep
  · cases hnone
  · obtain rfl := Option.some.inj hsome
    constructor
    · exact content_copied hok hp _ _ s
    · intro r hr
      refine content_frame (setPb_pbuff_of_ne hr _) fun pb' hpb => ?_
      have hne : pb'.block ≠ m.block := by
        intro heq
        obtain ⟨-, blk', hok'⟩ := h.live r pb' hpb
        rw [← heq, hok'.found] at hb
        cases hb
      rw [setPb_block, setBlock_block_of_ne hne]

theorem PbInv.content_free (h : PbInv s) (hs : ∀ pb, s.pbuff p = some pb → s.BoundedAt pb.block)
    (hstep : freePb s p = some s')
    (hq : s'.pbuff q ≠ none) : s'.content q = s.content q := by
  simp only [freePb, Option.bind_eq_bind, Option.bind_eq_some_iff] at hstep
  obtain ⟨pb, hp, hstep⟩ := hstep
  obtain ⟨-, blk, hok⟩ := h.live p pb hp
  split at hstep
  · obtain ⟨s₁, hs₁, heq⟩ := Option.bind_eq_some_iff.mp hstep
    obtain rfl := Option.some.inj heq
    obtain rfl := Option.some.inj (hs₁.symm.trans (h.released (hs pb hp) hok))
    have hqp : q ≠ p := by
      rintro rfl
      exact hq (setPb_pbuff_self ..)
    refine content_frame (setPb_pbuff_of_ne hqp _) fun pb' hpb => ?_
    exact bytes_release h (hs pb hp) hp hok hqp hpb
  · obtain rfl := Option.some.inj hstep
    by_cases hqp : q = p
    · subst hqp
      exact content_congr hp hok.found (setPb_pbuff_self ..) hok.found rfl rfl rfl
    · exact content_frame (setPb_pbuff_of_ne hqp _) fun _ _ => rfl

theorem freePb_pbuff_of_ne (hqp : q ≠ p) (hstep : freePb s p = some s') : s'.pbuff q = s.pbuff q := by
  simp only [freePb, Option.bind_eq_bind, Option.bind_eq_some_iff] at hstep
  obtain ⟨pb, -, hstep⟩ := hstep
  split at hstep
  · obtain ⟨s₁, hs₁, heq⟩ := Option.bind_eq_some_iff.mp hstep
    obtain rfl := Option.some.inj heq
    simp only [pbReleaseData, Option.bind_eq_bind, Option.bind_eq_some_iff] at hs₁
    obtain ⟨blk, -, hs₁⟩ := hs₁
    rw [setPb_pbuff_of_ne hqp]
    split at hs₁
    · obtain ⟨-, heq⟩ := Option.ite_none_right_eq_some.mp hs₁
      rw [← Option.some.inj heq, setBlock_pbuff]
    · rw [← Option.some.inj hs₁, setBlock_pbuff]
  · rw [← Option.some.inj hstep, setPb_pbuff_of_ne hqp]

theorem PbInv.content_unshare (h : PbInv s) (hs : s.Bounded) {ctl : Option P} {mem : Option (Malloced B)}
    (hstep : pbUnshare s p ctl mem = some (s', some q)) :
    s'.content q = s.content p ∧ ∀ r, r ≠ q → s'.pbuff r ≠ none → s'.content r = s.content r := by
  simp only [pbUnshare, Option.bind_eq_bind, Option.bind_eq_some_iff] at hstep
  obtain ⟨pb, hp, blk, hb, hstep⟩ := hstep
  obtain ⟨-, hok⟩ := h.ok_of_shinfo hp hb
  split at hstep
  · obtain ⟨⟨s₁, r₁⟩, hcopy, hstep⟩ := Option.bind_eq_some_iff.mp hstep
    cases r₁ with
    | none => cases hstep
    | some q₁ =>
      obtain ⟨s₂, hfreed, heq⟩ := Option.bind_eq_some_iff.mp hstep
      simp only [Option.some.injEq, Prod.mk.injEq] at heq
      obtain ⟨rfl, rfl⟩ := heq
      have hcopied := h.copy hs hcopy
      obtain ⟨hown, hothers⟩ := h.content_copy hs hcopy
      obtain ⟨-, hnone⟩ | ⟨q', m, hsome, hq, hfree, hs₁⟩ := pbCopy_cases hp hok (hs pb.block) hcopy
      · cases hnone
      · obtain rfl := Option.some.inj hsome
        have hpq : p ≠ q₁ := by
          rintro rfl
          rw [hp] at hq
          cases hq
        have hne : pb.block ≠ m.block := by
          intro hsame
          rw [← hsame, hok.found] at hfree
          cases hfree
        have hbound : ∀ pb', s₁.pbuff p = some pb' → s₁.BoundedAt pb'.block := by
          intro pb' hpb
          rw [hs₁, setPb_pbuff_of_ne hpq] at hpb
          obtain rfl := Option.some.inj (hp.symm.trans hpb)
          rw [hs₁]
          exact h.boundedAt_fresh (hs pb.block) hq hne rfl _
        have hkept : s₂.pbuff q₁ ≠ none := by
          rw [freePb_pbuff_of_ne (fun heq => hpq heq.symm) hfreed, hs₁, setPb_pbuff_self]
          exact Option.some_ne_none _
        constructor
        · exact (hcopied.content_free hbound hfreed hkept).trans hown
        · intro r hr hlive
          exact (hcopied.content_free hbound hfreed hlive).trans (hothers r hr)
  · simp only [Option.some.injEq, Prod.mk.injEq] at hstep
    obtain ⟨rfl, rfl⟩ := hstep
    exact ⟨rfl, fun _ _ _ => rfl⟩

/-! ## Calls that fail -/

theorem pbShare_eq_none {l : ℤ} {ctl : Option P} (hstep : pbShare s p l ctl = some (s', none)) : s' = s := by
  simp only [pbShare, Option.bind_eq_bind, Option.bind_eq_some_iff] at hstep
  obtain ⟨pb, hp, hstep⟩ := hstep
  split at hstep
  · exact (Prod.mk.inj (Option.some.inj hstep)).1.symm
  · cases ctl with
    | none => exact (Prod.mk.inj (Option.some.inj hstep)).1.symm
    | some q =>
      obtain ⟨blk, -, hstep⟩ := Option.bind_eq_some_iff.mp hstep
      obtain ⟨-, heq⟩ := Option.ite_none_right_eq_some.mp hstep
      cases heq

theorem allocPb_eq_none {size : ℕ} {ctl : Option P} {mem : Option (Malloced B)}
    (hstep : allocPb s size ctl mem = some (s', none)) : s' = s := by
  cases ctl with
  | none => exact (Prod.mk.inj (Option.some.inj hstep)).1.symm
  | some p =>
    cases mem with
    | none => exact (Prod.mk.inj (Option.some.inj hstep)).1.symm
    | some m =>
      obtain ⟨-, heq⟩ := Option.ite_none_right_eq_some.mp hstep
      cases heq

theorem pbClone_eq_none {ctl : Option P} (hstep : pbClone s p ctl = some (s', none)) : s' = s := by
  obtain ⟨rfl, -⟩ | ⟨pb, blk, q, -, -, -, hsome, -⟩ := pbClone_cases hstep
  · rfl
  · cases hsome

theorem pbCopy_eq_none {ctl : Option P} {mem : Option (Malloced B)}
    (hstep : pbCopy s p ctl mem = some (s', none)) : s' = s := by
  simp only [pbCopy, Option.bind_eq_bind, Option.bind_eq_some_iff] at hstep
  obtain ⟨pb, -, blk, -, ⟨s₁, r⟩, halloc, hstep⟩ := hstep
  cases r with
  | none =>
    obtain rfl := (Prod.mk.inj (Option.some.inj hstep)).1
    exact allocPb_eq_none halloc
  | some q =>
    simp only [Option.bind_eq_some_iff] at hstep
    obtain ⟨pb', -, blk', -, hstep⟩ := hstep
    obtain ⟨-, heq⟩ := Option.ite_none_right_eq_some.mp hstep
    cases heq

theorem pbExpand_failed {nhead ntail : ℕ} {mem : Option (Malloced B)} {rc : ℤ}
    (hstep : pbExpand s p nhead ntail mem = some (s', rc))
    (hrc : rc ≠ 0) : s' = s := by
  obtain ⟨rfl, -⟩ | ⟨pb, blk, m, s₁, -, -, -, -, -, -, -, -, hzero, -⟩ := pbExpand_cases hstep
  · rfl
  · exact absurd hzero hrc

omit [DecidableEq P] in
theorem rc_ne_zero {rc : ℤ} (hret : (PbRet.rc rc : PbRet P).failed = true) : rc ≠ 0 := by
  have hor : rc = ePERM ∨ rc = eNOMEM := of_decide_eq_true hret
  simp only [ePERM, eNOMEM] at hor
  omega

theorem pbCall_failed {a : PbAct P B} {ret : PbRet P} (hcall : pbCall s a = some (s', ret))
    (hret : ret.failed = true) : s' = s := by
  cases a with
  | alloc size ctl mem =>
    obtain ⟨⟨s₁, r⟩, hr, heq⟩ := Option.map_eq_some_iff.mp hcall
    obtain ⟨rfl, rfl⟩ := Prod.mk.inj heq
    obtain rfl := Option.isNone_iff_eq_none.mp hret
    exact allocPb_eq_none hr
  | clone p ctl =>
    obtain ⟨⟨s₁, r⟩, hr, heq⟩ := Option.map_eq_some_iff.mp hcall
    obtain ⟨rfl, rfl⟩ := Prod.mk.inj heq
    obtain rfl := Option.isNone_iff_eq_none.mp hret
    exact pbClone_eq_none hr
  | copy p ctl mem =>
    obtain ⟨⟨s₁, r⟩, hr, heq⟩ := Option.map_eq_some_iff.mp hcall
    obtain ⟨rfl, rfl⟩ := Prod.mk.inj heq
    obtain rfl := Option.isNone_iff_eq_none.mp hret
    exact pbCopy_eq_none hr
  | share p l ctl =>
    obtain ⟨⟨s₁, r⟩, hr, heq⟩ := Option.map_eq_some_iff.mp hcall
    obtain ⟨rfl, rfl⟩ := Prod.mk.inj heq
    obtain rfl := Option.isNone_iff_eq_none.mp hret
    exact pbShare_eq_none hr
  | expand p nhead ntail mem =>
    obtain ⟨⟨s₁, rc⟩, hr, heq⟩ := Option.map_eq_some_iff.mp hcall
    obtain ⟨rfl, rfl⟩ := Prod.mk.inj heq
    exact pbExpand_failed hr (rc_ne_zero hret)
  | expandHead p nhead ntail mem =>
    obtain ⟨⟨s₁, rc⟩, hr, heq⟩ := Option.map_eq_some_iff.mp hcall
    obtain ⟨rfl, rfl⟩ := Prod.mk.inj heq
    obtain ⟨rfl, -⟩ | ⟨head, tail, hexpand⟩ := pbExpandHead_cases hr
    · rfl
    · exact pbExpand_failed hexpand (rc_ne_zero hret)
  | unshare p ctl mem =>
    obtain ⟨⟨s₁, r⟩, hr, heq⟩ := Option.map_eq_some_iff.mp hcall
    obtain ⟨rfl, rfl⟩ := Prod.mk.inj heq
    obtain rfl := Option.isNone_iff_eq_none.mp hret
    simp only [pbUnshare, Option.bind_eq_bind, Option.bind_eq_some_iff] at hr
    obtain ⟨pb, -, blk, -, hr⟩ := hr
    split at hr
    · obtain ⟨⟨s₂, r₂⟩, hcopy, hr⟩ := Option.bind_eq_some_iff.mp hr
      cases r₂ with
      | none =>
        obtain rfl := (Prod.mk.inj (Option.some.inj hr)).1
        exact pbCopy_eq_none hcopy
      | some q =>
        obtain ⟨s₃, -, heq⟩ := Option.bind_eq_some_iff.mp hr
        cases heq
    · cases hr
  | shareCheck p ctl =>
    obtain ⟨⟨s₁, r⟩, hr, heq⟩ := Option.map_eq_some_iff.mp hcall
    obtain ⟨rfl, rfl⟩ := Prod.mk.inj heq
    obtain rfl := Option.isNone_iff_eq_none.mp hret
    simp only [pbShareCheck, Option.bind_eq_bind, Option.bind_eq_some_iff] at hr
    obtain ⟨pb, -, hr⟩ := hr
    split at hr
    · obtain ⟨⟨s₂, r₂⟩, hclone, hr⟩ := Option.bind_eq_some_iff.mp hr
      cases r₂ with
      | none =>
        obtain rfl := (Prod.mk.inj (Option.some.inj hr)).1
        exact pbClone_eq_none hclone
      | some q =>
        obtain ⟨s₃, -, heq⟩ := Option.bind_eq_some_iff.mp hr
        cases heq
    · cases hr
  | get p =>
    obtain ⟨⟨s₁, r⟩, hr, heq⟩ := Option.map_eq_some_iff.mp hcall
    obtain ⟨rfl, rfl⟩ := Prod.mk.inj heq
    obtain rfl := Option.isNone_iff_eq_none.mp hret
    simp only [pbGet, Option.bind_eq_bind, Option.bind_eq_some_iff] at hr
    obtain ⟨pb, -, hr⟩ := hr
    obtain ⟨-, heq⟩ := Option.ite_none_left_eq_some.mp hr
    cases heq
  | free p =>
    obtain ⟨s₁, -, heq⟩ := Option.map_eq_some_iff.mp hcall
    obtain ⟨-, rfl⟩ := Prod.mk.inj heq
    cases hret
  | write p bs mem =>
    obtain ⟨⟨s₁, rc⟩, hr, heq⟩ := Option.map_eq_some_iff.mp hcall
    obtain ⟨rfl, rfl⟩ := Prod.mk.inj heq
    simp only [pbWrite, Option.bind_eq_bind, Option.bind_eq_some_iff] at hr
    obtain ⟨⟨s₂, rc₂⟩, hprepare, hr⟩ := hr
    split at hr
    · obtain ⟨s₃, -, heq⟩ := Option.bind_eq_some_iff.mp hr
      have hzero := (Prod.mk.inj (Option.some.inj heq)).2
      exact absurd hzero.symm (rc_ne_zero hret)
    · rename_i hrc
      obtain rfl := (Prod.mk.inj (Option.some.inj hr)).1
      simp only [pbPrepareWrite, Option.bind_eq_bind, Option.bind_eq_some_iff] at hprepare
      obtain ⟨pb, -, blk, -, hprepare⟩ := hprepare
      split at hprepare
      · exact pbExpand_failed hprepare hrc
      · exact (Prod.mk.inj (Option.some.inj hprepare)).1.symm
  | op p o =>
    obtain ⟨s₁, -, heq⟩ := Option.map_eq_some_iff.mp hcall
    obtain ⟨-, rfl⟩ := Prod.mk.inj heq
    cases hret

/-! ## Every sequence of calls -/

/-- In every sequence of calls on blocks below 2^32 bytes, each with fewer than 2^32 pbuffs:
`dataref` of a block is the number of pbuffs on it and is not zero; the pointers of a pbuff lie in
its block, in order; expanding, copying and unsharing keep the data and what others see; a call that
fails changes nothing. -/
theorem pbuffs_balanced (as : List (PbAct P B)) (s : PbHeap P B)
    (hbounds : RunMeets pbStep (fun s _ => s.Bounded) pbEmpty as)
    (hr : runActs pbStep pbEmpty as = some s) (hs : s.Bounded) :
    (∀ b blk, s.block b = some blk → 0 < blk.dataref ∧ Headcount (onBlock b) s.pbuff blk.dataref) ∧
      (∀ p pb, s.pbuff p = some pb → ∃ blk, s.block pb.block = some blk ∧ pb.endp = blk.size ∧
        pbHead pb blk ≤ pb.data ∧
        pb.data ≤ pb.tail ∧ pb.tail ≤ pb.endp) ∧
      (∀ p nhead ntail mem s' rc, pbExpand s p nhead ntail mem = some (s', rc) →
        ∀ q, s'.content q = s.content q) ∧
      (∀ p ctl mem s' q, pbCopy s p ctl mem = some (s', some q) →
        s'.content q = s.content p ∧ ∀ r, r ≠ q → s'.content r = s.content r) ∧
      (∀ p ctl mem s' q, pbUnshare s p ctl mem = some (s', some q) →
        s'.content q = s.content p ∧ ∀ r, r ≠ q → s'.pbuff r ≠ none → s'.content r = s.content r) ∧
      ∀ a s' ret, pbCall s a = some (s', ret) → ret.failed = true → s' = s := by
  have hinv : PbInv s := run_invariant (fun _ _ _ h hb hstep => h.step hb hstep) as _ s pbInv_empty hbounds hr
  refine ⟨fun b blk hb => hinv.dataref (hs b) hb, fun p pb hp => ?_,
    fun p nhead ntail mem s' rc hstep => hinv.content_expand hs hstep,
    fun p ctl mem s' q hstep => hinv.content_copy hs hstep, fun p ctl mem s' q hstep =>
    hinv.content_unshare hs hstep,
    fun a s' ret hcall hret => pbCall_failed hcall hret⟩
  obtain ⟨-, blk, hok⟩ := hinv.live p pb hp
  refine ⟨blk, hok.found, hok.endp, ?_, hok.data_le, hok.tail_le⟩
  rw [hok.headZero (hs pb.block)]
  exact Nat.zero_le _

omit [DecidableEq P] in
/-- For a few pbuffs only the sizes matter. -/
theorem bounded_of_sizes [Fintype P] (hfew : Fintype.card P < 2 ^ 32)
    (hsizes : ∀ b, (s.block b).all (fun blk => decide (blk.size < 2 ^ 32)) = true) : s.Bounded := by
  intro b
  constructor
  · intro blk hb
    have hsize := hsizes b
    rw [hb] at hsize
    exact of_decide_eq_true hsize
  · intro n hn
    exact lt_of_le_of_lt hn.le_card hfew

end Runs

/-- A pbuff is written, cloned and expanded; the clone is shared from its start, copied and freed. -/
def cloneAndExpand : List (PbAct (Bool × Bool) (Option Bool)) :=
  [.alloc 10 (some (false, false)) (some ⟨none, fun _ => 0⟩), .op (false, false) (.put [1, 2, 3]),
   .clone (false, false) (some (true, false)), .expand (false, false) 8 8 (some ⟨some false, fun _ => 7⟩),
   .share (true, false) 2 (some (false, true)),
   .copy (true, false) (some (true, true)) (some ⟨some true, fun _ => 9⟩),
   .free (true, false)]

theorem pbuffs_balanced_cloneAndExpand :
    ∃ s, runActs pbStep pbEmpty cloneAndExpand = some s ∧ s.content (false, false) = some [1, 2, 3] ∧
      s.content (false, true) = some [1, 2] ∧ s.content (true, true) = some [1, 2, 3] ∧
      (∃ blk, s.block none = some blk ∧ 0 < blk.dataref ∧ Headcount (onBlock none) s.pbuff blk.dataref) ∧
      ∀ a s' ret, pbCall s a = some (s', ret) → ret.failed = true → s' = s := by
  have hbounds : RunMeets pbStep (fun s _ => s.Bounded) pbEmpty cloneAndExpand := by
    have hsizes : RunMeets pbStep
        (fun s _ => ∀ b, (s.block b).all (fun blk => decide (blk.size < 2 ^ 32)) = true) pbEmpty
        cloneAndExpand := runMeets_of_checks (by decide +kernel)
    exact hsizes.imp fun s _ h => bounded_of_sizes (by decide) h
  have hends : (runActs pbStep pbEmpty cloneAndExpand).map (fun s => (s.content (false, false),
      s.content (false, true), s.content (true, true), (s.block none).isSome,
      decide (∀ b, (s.block b).all (fun blk => decide (blk.size < 2 ^ 32)) = true))) =
        some (some [1, 2, 3], some [1, 2], some [1, 2, 3], true, true) := by decide +kernel
  obtain ⟨s, hrun, hends⟩ := Option.map_eq_some_iff.mp hends
  simp only [Prod.mk.injEq, decide_eq_true_eq] at hends
  obtain ⟨h0, h2, h3, hblock, hsizes⟩ := hends
  obtain ⟨blk, hblk⟩ := Option.isSome_iff_exists.mp hblock
  obtain ⟨hcounts, -, -, -, -, hfailed⟩ :=
    pbuffs_balanced cloneAndExpand s hbounds hrun (bounded_of_sizes (by decide) hsizes)
  exact ⟨s, hrun, h0, h2, h3, ⟨blk, hblk, hcounts none blk hblk⟩, hfailed⟩

/-! ## Too many sharers -/

/-- One block with `n + 1` pbuffs: the first and `n` clones of it. -/
def clonedHeap (n : ℕ) : PbHeap ℕ Unit where
  pbuff i := if i ≤ n then some ⟨1, decide (0 < n), (), 0, 0, 0⟩ else none
  block _ := some ⟨fun _ => 0, 0, (n + 1) % 2 ^ 32, 0⟩

def cloneMany (n : ℕ) : List (PbAct ℕ Unit) := (List.range n).map fun i => .clone 0 (some (i + 1))

theorem clonedHeap_step (n : ℕ) :
    pbStep (clonedHeap n) (.clone 0 (some (n + 1))) = some (clonedHeap (n + 1)) := by
  have hfresh : (clonedHeap n).pbuff (n + 1) = none := if_neg (by omega)
  have hpb : (clonedHeap n).pbuff 0 = some ⟨1, decide (0 < n), (), 0, 0, 0⟩ := by
    simp [clonedHeap]
  have hinfo : (clonedHeap n).shinfo ⟨1, decide (0 < n), (), 0, 0, 0⟩ =
      some ⟨fun _ => 0, 0, (n + 1) % 2 ^ 32, 0⟩ := by
    simp [PbHeap.shinfo, clonedHeap]
  have hinc : urefInc ((n + 1) % 2 ^ 32) = (n + 1 + 1) % 2 ^ 32 := by
    rw [urefInc]
    omega
  simp only [pbStep, pbCall, pbClone, hpb, hinfo, hfresh, hinc, Option.bind_eq_bind,
    Option.bind_some, Option.isNone_none, if_true,
    Option.map_some, Option.some.injEq]
  simp only [PbHeap.setPb, PbHeap.setBlock, clonedHeap, PbHeap.mk.injEq]
  constructor
  · funext i
    by_cases hlast : i = n + 1
    · subst hlast
      simp
    · rw [Function.update_of_ne hlast]
      by_cases hzero : i = 0
      · subst hzero
        simp
      · rw [Function.update_of_ne hzero]
        by_cases hle : i ≤ n
        · have hpos : 0 < n := by omega
          simp [hle, hpos, Nat.le_succ_of_le hle]
        · have hgt : ¬i ≤ n + 1 := by omega
          simp [hle, hgt]
  · funext u
    cases u
    simp

theorem clonedHeap_run (n : ℕ) : runActs pbStep (clonedHeap 0) (cloneMany n) = some (clonedHeap n) := by
  induction n with
  | zero => rfl
  | succ n ih =>
    have hmore : cloneMany (n + 1) = cloneMany n ++ [.clone 0 (some (n + 1))] := by
      simp [cloneMany, List.range_succ]
    rw [hmore, runActs_append, ih, Option.bind_some, runActs, clonedHeap_step, Option.bind_some, runActs]

theorem clonedHeap_count (n : ℕ) : Headcount (onBlock ()) (clonedHeap n).pbuff (n + 1) := by
  have hset : {i | onBlock () ((clonedHeap n).pbuff i) = true} = (Finset.range (n + 1) : Set ℕ) := by
    ext i
    simp only [clonedHeap, Set.mem_ofPred_eq, Finset.coe_range, Set.mem_Iio]
    by_cases hle : i ≤ n
    · simp [hle]
    · simp [hle]
  rw [Headcount, hset, Tally, Set.encard_coe_eq_coe_finsetCard, Finset.card_range, Set.encard_empty, add_zero]

/-- After 2^32 - 1 clones the number of a block with 2^32 pbuffs reads 0. -/
theorem dataref_wraps :
    ∃ s : PbHeap ℕ Unit,
      runActs pbStep pbEmpty (.alloc 0 (some 0) (some ⟨(), fun _ => 0⟩) :: cloneMany (2 ^ 32 - 1)) =
      some s ∧
      ∃ blk, s.block () = some blk ∧ blk.size < 2 ^ 32 ∧ blk.dataref = 0 ∧
        Headcount (onBlock ()) s.pbuff (2 ^ 32) := by
  have hstart : pbStep pbEmpty (.alloc 0 (some 0) (some ⟨(), fun _ => 0⟩)) = some (clonedHeap 0) := by
    have halign : align8 0 = 0 := rfl
    have hfresh : True ∧ True ∧ 0 + 8 < 2 ^ 64 := ⟨trivial, trivial, by norm_num⟩
    simp only [pbStep, pbCall, allocPb, pbEmpty, halign, Option.isNone_none, hfresh, and_self,
      if_true, Option.map_some,
      Option.some.injEq]
    simp only [PbHeap.setPb, PbHeap.setBlock, clonedHeap, PbHeap.mk.injEq]
    constructor
    · funext i
      by_cases hi : i = 0
      · subst hi
        rfl
      · rw [Function.update_of_ne hi, if_neg (by omega)]
    · funext u
      cases u
      rfl
  have hrun := clonedHeap_run (2 ^ 32 - 1)
  have hcount := clonedHeap_count (2 ^ 32 - 1)
  have hsum : 2 ^ 32 - 1 + 1 = 2 ^ 32 := by norm_num
  refine ⟨clonedHeap (2 ^ 32 - 1), ?_, _, rfl, by norm_num, ?_, hsum ▸ hcount⟩
  · rw [runActs, hstart, Option.bind_some]
    exact hrun
  · simp only [hsum, Nat.mod_self]

end Skp.Utils
