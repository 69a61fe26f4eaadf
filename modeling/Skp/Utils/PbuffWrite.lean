import Skp.Utils.PbuffCodec
import Skp.Utils.PbuffSpec

/-! # Checked writes

`pb_prepare_write` compares the length with the room at the head. So a checked write is right when
the room at the head and the room at the tail are both enough or both too small, and when what an
expansion adds is enough. -/
namespace Skp.Utils
set_option autoImplicit false
open Skp.Foundations

section Write
variable {P B : Type} [DecidableEq P] [DecidableEq B] {s s' : PbHeap P B} {p : P} {pb : Pbuff B}
    {blk : PbBlock}

/-- A pbuff with one user, alone on its block. -/
def PbAlone (s : PbHeap P B) (p : P) (pb : Pbuff B) (blk : PbBlock) : Prop :=
  s.pbuff p = some pb ∧ PbOk s pb blk ∧ pb.users = 1 ∧ blk.dataref = 1

/-- The calls of a history of one pbuff. -/
def callsOn (p : P) : PbAct P B → Prop
  | .expand q _ _ _ => q = p
  | .expandHead q _ _ _ => q = p
  | .write q _ _ => q = p
  | .op q _ => q = p
  | _ => False

theorem PbAlone.expand (h : PbAlone s p pb blk) {nhead ntail : ℕ} {mem : Option (Malloced B)} {rc : ℤ}
    (hstep : pbExpand s p nhead ntail mem = some (s', rc)) : ∃ pb' blk', PbAlone s' p pb' blk' := by
  obtain ⟨hp, hok, hone, href⟩ := h
  obtain ⟨rfl, -⟩ | ⟨pb₁, blk₁, m, s₁, hp₁, hb, -, hnhead, hntail, -, hhead, -, -, rfl⟩ :=
    pbExpand_cases hstep
  · exact ⟨pb, blk, hp, hok, hone, href⟩
  · obtain rfl := Option.some.inj (hp.symm.trans hp₁)
    obtain rfl := Option.some.inj (hok.shinfo.symm.trans hb)
    exact ⟨_, _, setPb_pbuff_self .., hok.grown hnhead hntail hhead (setBlock_block_self ..), hone, rfl⟩

theorem PbAlone.op (h : PbAlone s p pb blk) {o : PbOp} (hstep : pbOp s p o = some s') :
    ∃ pb' blk', PbAlone s' p pb' blk' := by
  obtain ⟨hp, hok, hone, href⟩ := h
  obtain ⟨pb', bytes, rfl, -, hsame, hok'⟩ := hok.op hp hstep
  exact ⟨pb', _, setPb_pbuff_self .., hok', hsame.trans hone, href⟩

theorem PbAlone.prepare (h : PbAlone s p pb blk) {n : ℕ} {mem : Option (Malloced B)} {rc : ℤ}
    (hstep : pbPrepareWrite s p n mem = some (s', rc)) : ∃ pb' blk', PbAlone s' p pb' blk' := by
  have hinfo := h.2.1.shinfo
  simp only [pbPrepareWrite, h.1, hinfo, Option.bind_eq_bind, Option.bind_some] at hstep
  split at hstep
  · exact h.expand hstep
  · exact (Prod.mk.inj (Option.some.inj hstep)).1 ▸ ⟨pb, blk, h⟩

theorem PbAlone.step (h : PbAlone s p pb blk) {a : PbAct P B} (ha : callsOn p a)
    (hstep : pbStep s a = some s') :
    ∃ pb' blk', PbAlone s' p pb' blk' := by
  simp only [pbStep, Option.map_eq_some_iff] at hstep
  obtain ⟨⟨s₁, ret⟩, hcall, rfl⟩ := hstep
  cases a with
  | expand q nhead ntail mem =>
    obtain rfl : q = p := ha
    obtain ⟨r, hr, heq⟩ := Option.map_eq_some_iff.mp hcall
    exact (Prod.mk.inj heq).1 ▸ h.expand hr
  | expandHead q nhead ntail mem =>
    obtain rfl : q = p := ha
    obtain ⟨r, hr, heq⟩ := Option.map_eq_some_iff.mp hcall
    obtain ⟨hsame, -⟩ | ⟨head, tail, hexpand⟩ := pbExpandHead_cases hr
    · exact (Prod.mk.inj heq).1 ▸ hsame ▸ ⟨pb, blk, h⟩
    · exact (Prod.mk.inj heq).1 ▸ h.expand hexpand
  | write q bs mem =>
    obtain rfl : q = p := ha
    obtain ⟨r, hr, heq⟩ := Option.map_eq_some_iff.mp hcall
    simp only [pbWrite, Option.bind_eq_bind, Option.bind_eq_some_iff] at hr
    obtain ⟨⟨s₂, rc₂⟩, hprepare, hr⟩ := hr
    obtain ⟨pb₂, blk₂, h₂⟩ := h.prepare hprepare
    split at hr
    · obtain ⟨s₃, hput, hr⟩ := Option.bind_eq_some_iff.mp hr
      obtain rfl := Option.some.inj hr
      exact (Prod.mk.inj heq).1 ▸ h₂.op (o := .put bs) hput
    · obtain rfl := Option.some.inj hr
      exact (Prod.mk.inj heq).1 ▸ ⟨pb₂, blk₂, h₂⟩
  | op q o =>
    obtain rfl : q = p := ha
    obtain ⟨r, hr, heq⟩ := Option.map_eq_some_iff.mp hcall
    exact (Prod.mk.inj heq).1 ▸ h.op hr
  | _ => exact ha.elim

theorem pbAlone_alloc {size : ℕ} {mem : Option (Malloced B)}
    (hstep : allocPb s size (some p) mem = some (s', some p)) :
    ∃ pb blk, PbAlone s' p pb blk := by
  cases mem with
  | none => cases hstep
  | some m =>
    obtain ⟨-, heq⟩ := Option.ite_none_right_eq_some.mp hstep
    rw [← (Prod.mk.inj (Option.some.inj heq)).1]
    exact ⟨_, _, setPb_pbuff_self ..,
      ⟨setBlock_block_self .., rfl, le_refl 0, Nat.zero_le _, rfl, eight_dvd_align8 size⟩, rfl, rfl⟩

/-! ## When a write is right -/

/-- The size that `pb_prepare_write` asks for. -/
def preparedSize (blk : PbBlock) (n : ℕ) : ℕ := align8 (blk.datalen + max (n % 2 ^ 32) (blk.datalen / 2))

/-- The room at the head is too small for `n` bytes just when the room at the tail is, and then the
block has fewer than 2^32 bytes and grows by enough. -/
def WriteFits (pb : Pbuff B) (blk : PbBlock) (n : ℕ) : Prop :=
  (pbHeadroom pb blk < n ↔ pbTailroom pb < n) ∧
    (pbHeadroom pb blk < n → pb.endp < 2 ^ 32 ∧ n + blk.datalen ≤ pbTailroom pb + preparedSize blk n)

/-- The write returns 0, the bytes stand behind the data, and a new block was taken only for want of
room at the tail. -/
def Appends (s : PbHeap P B) (p : P) (bs : List UInt8) (mem : Option (Malloced B)) : Prop :=
  ∃ s', pbWrite s p bs mem = some (s', 0) ∧ s'.content p = (s.content p).map (· ++ bs) ∧
    ((s'.pbuff p).map Pbuff.block ≠ (s.pbuff p).map Pbuff.block → ∀ pb, s.pbuff p = some pb →
      pbTailroom pb < bs.length)

omit [DecidableEq P] [DecidableEq B] in
theorem PbOk.size_of_head (h : PbOk s pb blk) (hhead : pbHead pb blk = 0) : pb.endp < 2 ^ 32 := by
  have hend := h.endp
  have hlen := h.datalen
  have hmod := Nat.mod_lt blk.size (show 0 < 2 ^ 32 by norm_num)
  rw [pbHead] at hhead
  omega

omit [DecidableEq P] in
/-- The last pbuff of a block can give it back only when the block begins where `datalen` says. -/
theorem PbAlone.head_of_release (h : PbAlone s p pb blk) {s₁ : PbHeap P B}
    (hrel : pbReleaseData s pb = some s₁) :
    pbHead pb blk = 0 := by
  obtain ⟨-, hok, -, href⟩ := h
  have hleft : urefDec blk.dataref = 0 := by rw [href]; rfl
  simp only [pbReleaseData, hok.shinfo, hleft, Option.bind_eq_bind, Option.bind_some, if_true] at hrel
  by_contra hhead
  rw [if_neg hhead] at hrel
  cases hrel

/-- With room at the head, the write is `pb_putdata`. -/
theorem pbWrite_roomy (h : PbAlone s p pb blk) {bs : List UInt8} {mem : Option (Malloced B)}
    (hroom : ¬pbHeadroom pb blk < bs.length) :
    pbWrite s p bs mem = (pbPutdata s p bs).map fun s' => (s', 0) := by
  obtain ⟨hp, hok, -, -⟩ := h
  simp only [pbWrite, pbPrepareWrite, hp, hok.shinfo, hroom, Option.bind_eq_bind, Option.bind_some,
    if_true, if_false]
  exact Option.map_eq_bind.symm

theorem pbWrite_tight (h : PbAlone s p pb blk) {bs : List UInt8} {m : Malloced B}
    (hroom : pbHeadroom pb blk < bs.length)
    (hfree : s.block m.block = none) (hsize : pb.endp < 2 ^ 32) :
    ∃ s₁, PbAlone s₁ p (pb.moved 0 m.block 0 (preparedSize blk bs.length))
      (blk.grown 0 m.junk 0 (preparedSize blk bs.length)) ∧
      s₁.content p = s.content p ∧ pbWrite s p bs (some m) = (pbPutdata s₁ p bs).map fun s' => (s', 0) := by
  obtain ⟨hp, hok, hone, href⟩ := h
  have hhead := hok.head_eq_zero (hok.endp ▸ hsize)
  have hrel := pbReleaseData_eq hok hhead href Nat.one_pos
  have hgrow : max (bs.length % 2 ^ 32) (blk.datalen / 2) ≤ u32Max := by
    have hlen := hok.datalen
    have hmod := Nat.mod_lt blk.size (show 0 < 2 ^ 32 by norm_num)
    have hmod' := Nat.mod_lt bs.length (show 0 < 2 ^ 32 by norm_num)
    simp only [u32Max]
    omega
  have hle : pbHead pb blk ≤ 0 + pb.data := by omega
  have hsize' : align8 (0 + blk.datalen + max (bs.length % 2 ^ 32) (blk.datalen / 2)) =
      preparedSize blk bs.length := by
    rw [preparedSize, Nat.zero_add]
  have hexpand :=
    pbExpand_eq 0 (max (bs.length % 2 ^ 32) (blk.datalen / 2)) hp hok hone (Nat.zero_le _) hgrow
      hfree hle hrel
  have hfound : ((s.setBlock pb.block (blk.release 1)).setBlock m.block
      (some (blk.grown (pbHead pb blk) m.junk 0
        (align8 (0 + blk.datalen + max (bs.length % 2 ^ 32) (blk.datalen / 2)))))).block
        m.block = some (blk.grown (pbHead pb blk) m.junk 0
          (align8 (0 + blk.datalen + max (bs.length % 2 ^ 32) (blk.datalen / 2)))) := setBlock_block_self ..
  have hgrown := hok.grown (Nat.zero_le _) hgrow hle hfound
  have hcontent :=
    content_grown hok hp m.block m.junk 0
      (align8 (0 + blk.datalen + max (bs.length % 2 ^ 32) (blk.datalen / 2)))
    (by omega) (s.setBlock pb.block (blk.release 1))
  rw [hhead, hsize'] at hexpand hgrown hcontent
  refine ⟨((s.setBlock pb.block (blk.release 1)).setBlock m.block
    (some (blk.grown 0 m.junk 0 (preparedSize blk bs.length)))).setPb p
    (some (pb.moved 0 m.block 0 (preparedSize blk bs.length))),
    ⟨setPb_pbuff_self .., hgrown.reblock hgrown.found rfl rfl, hone, rfl⟩, hcontent, ?_⟩
  simp only [pbWrite, pbPrepareWrite, hp, hok.shinfo, hroom, Option.bind_eq_bind, Option.bind_some,
    if_true, hexpand]
  exact Option.map_eq_bind.symm

theorem pbPutdata_block (hp : s.pbuff p = some pb) {bs : List UInt8} (hstep : pbPutdata s p bs = some s') :
    (s'.pbuff p).map Pbuff.block = some pb.block ∧ bs.length ≤ pbTailroom pb := by
  simp only [pbPutdata, hp, Option.bind_eq_bind, Option.bind_some, Option.bind_eq_some_iff] at hstep
  obtain ⟨blk, -, hstep⟩ := hstep
  obtain ⟨hroom, heq⟩ := Option.ite_none_right_eq_some.mp hstep
  obtain rfl := Option.some.inj heq
  refine ⟨by rw [setPb_pbuff_self]; rfl, ?_⟩
  rw [pbTailroom]
  omega

/-- A write that expands goes through only on a block below 2^32 bytes. -/
theorem PbAlone.size_of_appends (h : PbAlone s p pb blk) {bs : List UInt8} {mem : Option (Malloced B)}
    (hroom : pbHeadroom pb blk < bs.length) (happends : Appends s p bs mem) : pb.endp < 2 ^ 32 := by
  obtain ⟨s', hwrite, -, -⟩ := happends
  have hinfo := h.2.1.shinfo
  simp only [pbWrite, pbPrepareWrite, h.1, hinfo, hroom, Option.bind_eq_bind, Option.bind_some,
    if_true, Option.bind_eq_some_iff]
    at hwrite
  obtain ⟨⟨s₁, rc⟩, hexpand, hwrite⟩ := hwrite
  obtain ⟨-, hfailed⟩ | ⟨pb₁, blk₁, m, s₂, hp₁, -, -, -, -, -, -, hrel, -, -⟩ := pbExpand_cases hexpand
  · have hrc : rc ≠ 0 := by
      simp only [ePERM, eNOMEM] at hfailed
      omega
    rw [if_neg hrc] at hwrite
    have hbad := (Prod.mk.inj (Option.some.inj hwrite)).2
    exact absurd hbad (by decide)
  · obtain rfl := Option.some.inj (h.1.symm.trans hp₁)
    exact h.2.1.size_of_head (h.head_of_release hrel)

omit [DecidableEq P] [DecidableEq B] in
theorem tight_room (hok : PbOk s pb blk) (hsize : pb.endp < 2 ^ 32) {n : ℕ} {b : B} :
    n ≤ pbTailroom (pb.moved 0 b 0 (preparedSize blk n)) ↔ n + blk.datalen ≤ pbTailroom pb +
      preparedSize blk n := by
  have htail := hok.tail_le
  have hlen : blk.datalen = pb.endp := by
    rw [hok.datalen, ← hok.endp, Nat.mod_eq_of_lt hsize]
  have hgrown : blk.datalen ≤ preparedSize blk n := by
    have hmod := Nat.mod_lt n (show 0 < 2 ^ 32 by norm_num)
    have hle := le_align8 (n := blk.datalen + max (n % 2 ^ 32) (blk.datalen / 2)) (by omega)
    rw [preparedSize]
    omega
  simp only [pbTailroom, Pbuff.moved]
  omega

theorem PbAlone.appends_iff (h : PbAlone s p pb blk) {m : Malloced B}
    (hfree : s.block m.block = none) (bs : List UInt8) :
    Appends s p bs (some m) ↔ WriteFits pb blk bs.length := by
  have hok := h.2.1
  have htail := hok.tail_le
  by_cases hroom : pbHeadroom pb blk < bs.length
  · constructor
    · intro happends
      have hsize := h.size_of_appends hroom happends
      obtain ⟨s₁, hs₁, -, hwrite⟩ := pbWrite_tight h hroom hfree hsize
      obtain ⟨s', hw, -, honly⟩ := happends
      rw [hwrite] at hw
      obtain ⟨s₂, hput, heq⟩ := Option.map_eq_some_iff.mp hw
      obtain rfl := (Prod.mk.inj heq).1
      obtain ⟨hblock, hfits⟩ := pbPutdata_block hs₁.1 hput
      have hmoved : (s₂.pbuff p).map Pbuff.block ≠ (s.pbuff p).map Pbuff.block := by
        rw [hblock, h.1]
        intro hsame
        have hfound := hok.found
        rw [show pb.block = m.block from (Option.some.inj hsame).symm, hfree] at hfound
        cases hfound
      refine ⟨iff_of_true hroom (honly hmoved pb h.1), fun _ => ⟨hsize, ?_⟩⟩
      exact (tight_room hok hsize).mp hfits
    · rintro ⟨hiff, henough⟩
      obtain ⟨hsize, hgrows⟩ := henough hroom
      obtain ⟨s₁, hs₁, hcontent, hwrite⟩ := pbWrite_tight h hroom hfree hsize
      have hput := pbPutdata_eq hs₁.1 hs₁.2.1 bs ((tight_room hok hsize).mpr hgrows)
      refine ⟨_, by rw [hwrite, hput]; rfl, ?_, fun _ pb' hpb => ?_⟩
      · rw [content_put hs₁.1 hs₁.2.1 hput, hcontent]
      · obtain rfl := Option.some.inj (h.1.symm.trans hpb)
        exact hiff.mp hroom
  · rw [Appends, pbWrite_roomy h hroom]
    constructor
    · rintro ⟨s', hwrite, -, -⟩
      obtain ⟨s₁, hput, -⟩ := Option.map_eq_some_iff.mp hwrite
      obtain ⟨-, hfits⟩ := pbPutdata_block h.1 hput
      exact ⟨iff_of_false hroom (by omega), fun htight => absurd htight hroom⟩
    · rintro ⟨hiff, -⟩
      have hfits : bs.length ≤ pbTailroom pb := by
        by_contra hmore
        exact hroom (hiff.mpr (by omega))
      have hput := pbPutdata_eq h.1 hok bs hfits
      refine ⟨_, by rw [hput]; rfl, content_put h.1 hok hput, fun hmoved => absurd ?_ hmoved⟩
      rw [(pbPutdata_block h.1 hput).1, h.1]
      rfl

/-- After every history of a pbuff, a checked write of any value does what it should just when the
room at the head and the room at the tail agree about it and the expansion is enough. -/
theorem checked_write_iff (host : Host) {s₀ s₁ s : PbHeap P B} {size : ℕ} {mem : Option (Malloced B)}
    (halloc : allocPb s₀ size (some p) mem = some (s₁, some p)) (as : List (PbAct P B))
    (hcalls : RunMeets pbStep (fun _ a => callsOn p a) s₁ as) (hr : runActs pbStep s₁ as = some s)
    (v : PbItem) {m : Malloced B}
    (hfree : s.block m.block = none) :
    ∃ pb blk, s.pbuff p = some pb ∧ s.shinfo pb = some blk ∧
      (Appends s p (v.encode host) (some m) ↔ WriteFits pb blk v.kind.size) := by
  have hstart := pbAlone_alloc halloc
  have hkeep : ∀ (s : PbHeap P B) (a : PbAct P B) (s' : PbHeap P B),
      (∃ pb blk, PbAlone s p pb blk) → callsOn p a →
      pbStep s a = some s' → ∃ pb blk, PbAlone s' p pb blk := by
    rintro s a s' ⟨pb, blk, h⟩ ha hstep
    exact h.step ha hstep
  obtain ⟨pb, blk, h⟩ := run_invariant hkeep as s₁ s hstart hcalls hr
  have hiff := h.appends_iff hfree (v.encode host)
  rw [length_encode] at hiff
  exact ⟨pb, blk, h.1, h.2.1.shinfo, hiff⟩

end Write

instance {B : Type} (pb : Pbuff B) (blk : PbBlock) (n : ℕ) : Decidable (WriteFits pb blk n) :=
  inferInstanceAs (Decidable (_ ∧ _))

/-- A little-endian host with the headers of glibc. -/
def x86 : Host := ⟨true, true⟩

/-- Eight bytes fill the block; there is no room at either end, and the next value makes it grow. -/
theorem checked_write_iff_full :
    ∃ s₁ s : PbHeap Unit Bool, allocPb pbEmpty 8 (some ()) (some ⟨false, fun _ => 0⟩) = some (s₁, some ()) ∧
      runActs pbStep s₁ [.op () (.put [1, 2, 3, 4, 5, 6, 7, 8])] = some s ∧
        s.content () = some [1, 2, 3, 4, 5, 6, 7, 8] ∧
      Appends s () ((PbItem.uint16 513).encode x86) (some ⟨true, fun _ => 0⟩) := by
  refine ⟨_, _, rfl, rfl, by decide +kernel, ?_⟩
  obtain ⟨pb, blk, hp, hb, hiff⟩ := checked_write_iff (p := ()) x86
    (show allocPb (pbEmpty : PbHeap Unit Bool) 8 (some ()) (some ⟨false, fun _ => 0⟩) =
      some (_, some ()) from rfl)
    [.op () (.put [1, 2, 3, 4, 5, 6, 7, 8])] ⟨rfl, fun _ _ => trivial⟩ rfl (PbItem.uint16 513)
      (m := ⟨true, fun _ => 0⟩) (by rfl)
  apply hiff.mpr
  obtain rfl := Option.some.inj hp
  obtain rfl := Option.some.inj hb
  decide +kernel

/-- Eight bytes are reserved at the head: a write of one byte finds room there and stops at the end
of the block. -/
theorem checked_write_aborts :
    ∃ s₁ s : PbHeap Unit Bool, allocPb pbEmpty 8 (some ()) (some ⟨false, fun _ => 0⟩) = some (s₁, some ()) ∧
      runActs pbStep s₁ [.op () (.reserve 8)] = some s ∧
      pbWrite s () ((PbItem.uint8 7).encode x86) (some ⟨true, fun _ => 0⟩) = none ∧
      ¬Appends s () ((PbItem.uint8 7).encode x86) (some ⟨true, fun _ => 0⟩) := by
  refine ⟨_, _, rfl, rfl, rfl, ?_⟩
  rintro ⟨s', hwrite, -, -⟩
  cases hwrite

end Skp.Utils
