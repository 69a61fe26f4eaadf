import Skp.Utils.PbuffModel

/-! # What the calls do to a packet buffer

The present data of a pbuff is a list of bytes. One lemma a call: when it goes through, what the
heap is then, and what this makes of the data. -/
namespace Skp.Utils
set_option autoImplicit false
open Skp.Foundations

section Spec
variable {P B : Type} {s s' : PbHeap P B} {p q : P} {pb : Pbuff B} {blk : PbBlock} {b : B}

/-- The present data. -/
def PbHeap.content (s : PbHeap P B) (p : P) : Option (List UInt8) :=
  (s.pbuff p).bind fun pb => (s.block pb.block).map fun blk => readBytes blk.bytes pb.data (pbHeadlen pb)

/-- The pointers of a pbuff lie in their block, in order. -/
structure PbOk (s : PbHeap P B) (pb : Pbuff B) (blk : PbBlock) : Prop where
  found : s.block pb.block = some blk
  endp : pb.endp = blk.size
  data_le : pb.data ≤ pb.tail
  tail_le : pb.tail ≤ pb.endp
  datalen : blk.datalen = blk.size % 2 ^ 32
  aligned : 8 ∣ blk.size

theorem PbOk.shinfo (h : PbOk s pb blk) : s.shinfo pb = some blk := by
  simp [PbHeap.shinfo, h.found, h.endp]

theorem PbOk.content (h : PbOk s pb blk) (hp : s.pbuff p = some pb) :
    s.content p = some (readBytes blk.bytes pb.data (pbHeadlen pb)) := by
  simp [PbHeap.content, hp, h.found]

theorem PbOk.reblock (h : PbOk s pb blk) {blk' : PbBlock} (hb : s'.block pb.block = some blk')
    (hsize : blk'.size = blk.size)
    (hlen : blk'.datalen = blk.datalen) : PbOk s' pb blk' :=
  ⟨hb, h.endp.trans hsize.symm, h.data_le, h.tail_le, by rw [hlen, hsize]; exact h.datalen, hsize ▸ h.aligned⟩

theorem PbOk.headlen (h : PbOk s pb blk) : pb.data + pbHeadlen pb = pb.tail := by
  have hle := h.data_le
  rw [pbHeadlen]
  omega

theorem PbOk.head_le (h : PbOk s pb blk) : pbHead pb blk + blk.datalen = pb.endp := by
  have hmod := Nat.mod_le blk.size (2 ^ 32)
  have hlen := h.datalen
  have hend := h.endp
  rw [pbHead]
  omega

/-- A block below 2^32 bytes begins where `datalen` says. -/
theorem PbOk.head_eq_zero (h : PbOk s pb blk) (hsize : blk.size < 2 ^ 32) : pbHead pb blk = 0 := by
  have hlen := h.datalen
  rw [Nat.mod_eq_of_lt hsize] at hlen
  rw [pbHead, h.endp, hlen, Nat.sub_self]

variable [DecidableEq P]

@[simp] theorem setPb_pbuff_self (s : PbHeap P B) (p : P) (o : Option (Pbuff B)) :
    (s.setPb p o).pbuff p = o :=
  Function.update_self ..

theorem setPb_pbuff_of_ne (hq : q ≠ p) (o : Option (Pbuff B)) : (s.setPb p o).pbuff q = s.pbuff q :=
  Function.update_of_ne hq ..

@[simp] theorem setPb_block (s : PbHeap P B) (p : P) (o : Option (Pbuff B)) :
    (s.setPb p o).block = s.block := rfl

variable [DecidableEq B]

omit [DecidableEq P] in
@[simp] theorem setBlock_block_self (s : PbHeap P B) (b : B) (o : Option PbBlock) :
    (s.setBlock b o).block b = o :=
  Function.update_self ..

omit [DecidableEq P] in
theorem setBlock_block_of_ne {c : B} (hc : c ≠ b) (o : Option PbBlock) :
    (s.setBlock b o).block c = s.block c :=
  Function.update_of_ne hc ..

omit [DecidableEq P] in
@[simp] theorem setBlock_pbuff (s : PbHeap P B) (b : B) (o : Option PbBlock) :
    (s.setBlock b o).pbuff = s.pbuff := rfl

omit [DecidableEq P] [DecidableEq B] in
theorem content_congr {pb' : Pbuff B} {blk' : PbBlock} (hp : s.pbuff p = some pb)
    (hb : s.block pb.block = some blk)
    (hp' : s'.pbuff p = some pb') (hb' : s'.block pb'.block = some blk') (hbytes : blk'.bytes = blk.bytes)
    (hdata : pb'.data = pb.data) (htail : pb'.tail = pb.tail) : s'.content p = s.content p := by
  simp [PbHeap.content, hp, hb, hp', hb', hbytes, hdata, pbHeadlen, htail]

omit [DecidableEq P] [DecidableEq B] in
theorem content_frame (hp : s'.pbuff p = s.pbuff p)
    (hb : ∀ pb, s.pbuff p = some pb → (s'.block pb.block).map PbBlock.bytes =
      (s.block pb.block).map PbBlock.bytes) :
    s'.content p = s.content p := by
  simp only [PbHeap.content, hp]
  cases hpb : s.pbuff p with
  | none => rfl
  | some pb =>
    have hbytes := hb pb hpb
    cases hnew : s'.block pb.block with
    | none =>
      cases hold : s.block pb.block with
      | none => simp [hnew, hold]
      | some blk => simp [hnew, hold] at hbytes
    | some blk' =>
      cases hold : s.block pb.block with
      | none => simp [hnew, hold] at hbytes
      | some blk =>
        simp only [hnew, hold, Option.map_some, Option.some.injEq] at hbytes
        simp [hnew, hold, hbytes]

/-! ## The end of a reference to a block -/

/-- What is left of a block when one of `n` pbuffs lets it go. -/
def PbBlock.release (blk : PbBlock) (n : ℕ) : Option PbBlock :=
  if n = 1 then none else some { blk with dataref := n - 1 }

omit [DecidableEq P] in
theorem pbReleaseData_eq (h : PbOk s pb blk) {n : ℕ} (hhead : pbHead pb blk = 0)
    (href : blk.dataref = n) (hpos : 0 < n) :
    pbReleaseData s pb = some (s.setBlock pb.block (blk.release n)) := by
  have hleft : urefDec blk.dataref = n - 1 := by
    rw [urefDec, href, if_neg (by omega)]
  simp only [pbReleaseData, h.shinfo, hhead, hleft, Option.bind_eq_bind, Option.bind_some, if_true,
    PbBlock.release]
  by_cases hone : n = 1
  · simp [hone]
  · have hmore : n - 1 ≠ 0 := by omega
    simp [hone, hmore]

omit [DecidableEq P] in
theorem pbReleaseData_isSome (h : PbOk s pb blk) (hhead : pbHead pb blk = 0) :
    ∃ s₁, pbReleaseData s pb = some s₁ := by
  simp only [pbReleaseData, h.shinfo, hhead, Option.bind_eq_bind, Option.bind_some, if_true]
  by_cases hlast : urefDec blk.dataref = 0
  · exact ⟨_, if_pos hlast⟩
  · exact ⟨_, if_neg hlast⟩

/-! ## `__pb_expand_head` and `pb_copy` -/

theorem eight_dvd_align8 (n : ℕ) : 8 ∣ align8 n := Dvd.intro_left _ rfl

theorem align8_of_dvd {n : ℕ} (h : 8 ∣ n) (hn : n < 2 ^ 32) : align8 n = n := by
  rw [align8, Nat.mod_eq_of_lt (by omega)]
  omega

theorem le_align8 {n : ℕ} (hn : n < 2 ^ 40) : n ≤ align8 n := by
  rw [align8, Nat.mod_eq_of_lt (by omega)]
  omega

/-- `__pb_expand_head` fails and changes nothing, or moves the pbuff to a new block. -/
theorem pbExpand_cases {nhead ntail : ℕ} {mem : Option (Malloced B)} {rc : ℤ}
    (h : pbExpand s p nhead ntail mem = some (s', rc)) :
    (s' = s ∧ (rc = ePERM ∨ rc = eNOMEM)) ∨
      ∃ pb blk, ∃ m : Malloced B, ∃ s₁, s.pbuff p = some pb ∧ s.shinfo pb = some blk ∧
        pb.users = 1 ∧ nhead ≤ u32Max ∧ ntail ≤ u32Max ∧
        s.block m.block = none ∧ pbHead pb blk ≤ nhead + pb.data ∧ pbReleaseData s pb = some s₁ ∧ rc = 0 ∧
        s' = (s₁.setBlock m.block
          (some
          (blk.grown (pbHead pb blk) m.junk nhead (align8 (nhead + blk.datalen + ntail))))).setPb p
          (some (pb.moved (pbHead pb blk) m.block nhead (align8 (nhead + blk.datalen + ntail)))) := by
  simp only [pbExpand, Option.bind_eq_bind, Option.bind_eq_some_iff] at h
  obtain ⟨pb, hpb, blk, hblk, h⟩ := h
  split at h
  · cases h
  · rename_i hbug
    split at h
    · simp only [Option.some.injEq, Prod.mk.injEq] at h
      exact Or.inl ⟨h.1.symm, Or.inl h.2.symm⟩
    · rename_i hshared
      cases mem with
      | none =>
        simp only [Option.some.injEq, Prod.mk.injEq] at h
        exact Or.inl ⟨h.1.symm, Or.inr h.2.symm⟩
      | some m =>
        obtain ⟨⟨hfree, hhead⟩, h⟩ := Option.ite_none_right_eq_some.mp h
        obtain ⟨s₁, hs₁, h⟩ := Option.bind_eq_some_iff.mp h
        simp only [Option.some.injEq, Prod.mk.injEq] at h
        have hone : pb.users = 1 := by
          simpa [pbShared] using hshared
        push Not at hbug
        exact Or.inr ⟨pb, blk, m, s₁, hpb, hblk, hone, hbug.1, hbug.2,
          Option.isNone_iff_eq_none.mp hfree, hhead, hs₁, h.2.symm,
          h.1.symm⟩

/-- `pb_expand_head` finds room, or expands. -/
theorem pbExpandHead_cases {nhead ntail : ℕ} {mem : Option (Malloced B)} {rc : ℤ}
    (hstep : pbExpandHead s p nhead ntail mem = some (s', rc)) :
    (s' = s ∧ rc = 0) ∨ ∃ head tail, pbExpand s p head tail mem = some (s', rc) := by
  simp only [pbExpandHead, Option.bind_eq_bind, Option.bind_eq_some_iff] at hstep
  obtain ⟨pb, hp, blk, hb, hstep⟩ := hstep
  generalize (if nhead ≤ pbHeadroom pb blk then 0 else nhead) = head at hstep
  generalize (if ntail ≤ pbTailroom pb then 0 else ntail) = tail at hstep
  split at hstep
  · simp only [Option.some.injEq, Prod.mk.injEq] at hstep
    exact Or.inl ⟨hstep.1.symm, hstep.2.symm⟩
  · exact Or.inr ⟨_, _, hstep⟩

theorem pbExpand_eq (nhead ntail : ℕ) {m : Malloced B} {s₁ : PbHeap P B} (hp : s.pbuff p = some pb)
    (h : PbOk s pb blk)
    (hone : pb.users = 1) (hnhead : nhead ≤ u32Max) (hntail : ntail ≤ u32Max) (hfree : s.block m.block = none)
    (hhead : pbHead pb blk ≤ nhead + pb.data) (hs₁ : pbReleaseData s pb = some s₁) :
    pbExpand s p nhead ntail (some m) =
      some ((s₁.setBlock m.block
        (some
        (blk.grown (pbHead pb blk) m.junk nhead (align8 (nhead + blk.datalen + ntail))))).setPb p
        (some (pb.moved (pbHead pb blk) m.block nhead (align8 (nhead + blk.datalen + ntail)))), 0) := by
  have hbug : ¬(u32Max < nhead ∨ u32Max < ntail) := by omega
  simp [pbExpand, hp, h.shinfo, hbug, pbShared, hone, hfree, hhead, hs₁]

omit [DecidableEq P] [DecidableEq B] in
theorem PbOk.grown (h : PbOk s pb blk) {nhead ntail : ℕ} {junk : ℕ → UInt8}
    (hnhead : nhead ≤ u32Max) (hntail : ntail ≤ u32Max)
    (hhead : pbHead pb blk ≤ nhead + pb.data) {s₁ : PbHeap P B}
    (hb : s₁.block b = some (blk.grown (pbHead pb blk) junk nhead (align8 (nhead + blk.datalen + ntail)))) :
    PbOk s₁ (pb.moved (pbHead pb blk) b nhead (align8 (nhead + blk.datalen + ntail)))
      (blk.grown (pbHead pb blk) junk nhead (align8 (nhead + blk.datalen + ntail))) := by
  have hlen : blk.datalen < 2 ^ 32 := by
    rw [h.datalen]
    exact Nat.mod_lt _ (by omega)
  have hsum := h.head_le
  have hdata := h.data_le
  have htail := h.tail_le
  simp only [u32Max] at hnhead hntail
  have hsize := le_align8 (n := nhead + blk.datalen + ntail) (by omega)
  refine ⟨hb, rfl, ?_, ?_, rfl, eight_dvd_align8 _⟩
  · change nhead + pb.data - pbHead pb blk ≤ nhead + pb.tail - pbHead pb blk
    omega
  · change nhead + pb.tail - pbHead pb blk ≤ align8 (nhead + blk.datalen + ntail)
    omega

omit [DecidableEq P] [DecidableEq B] in
theorem readBytes_grown (h : PbOk s pb blk) (b : B) (junk : ℕ → UInt8) (nhead size : ℕ)
    (hhead : pbHead pb blk ≤ pb.data) :
    readBytes (blk.grown (pbHead pb blk) junk nhead size).bytes (pb.moved (pbHead pb blk) b nhead size).data
      (pbHeadlen (pb.moved (pbHead pb blk) b nhead size)) = readBytes blk.bytes pb.data (pbHeadlen pb) := by
  have hsum := h.head_le
  have hdata := h.data_le
  have htail := h.tail_le
  obtain ⟨i, hi⟩ := Nat.exists_eq_add_of_le hhead
  have hlen : pbHeadlen (pb.moved (pbHead pb blk) b nhead size) = pbHeadlen pb := by
    simp only [pbHeadlen, Pbuff.moved]
    omega
  have hfrom : (pb.moved (pbHead pb blk) b nhead size).data = nhead + i := by
    simp only [Pbuff.moved]
    omega
  have hin : i + pbHeadlen pb ≤ blk.datalen := by
    rw [pbHeadlen]
    omega
  rw [hlen, hfrom, PbBlock.grown, readBytes_copyBytes hin, hi]

theorem content_grown (h : PbOk s pb blk) (hp : s.pbuff p = some pb) (b : B) (junk : ℕ → UInt8)
    (nhead size : ℕ)
    (hhead : pbHead pb blk ≤ pb.data) (s₁ : PbHeap P B) :
    ((s₁.setBlock b (some (blk.grown (pbHead pb blk) junk nhead size))).setPb p
      (some (pb.moved (pbHead pb blk) b nhead size))).content p = s.content p := by
  have hblock : (pb.moved (pbHead pb blk) b nhead size).block = b := rfl
  rw [h.content hp, ← readBytes_grown h b junk nhead size hhead]
  simp [PbHeap.content, hblock]

omit [DecidableEq P] [DecidableEq B] in
/-- `pb_copy_bits` as `pb_copy` calls it: from the head of the block to the tail. -/
theorem pbCopyBits_eq (h : PbOk s pb blk) : pbCopyBits pb (-(pb.data : ℤ)) pb.tail = (0, pb.tail) := by
  have hlen := h.headlen
  have hstart : ((pbHeadlen pb : ℕ) : ℤ) = (pb.tail : ℤ) - pb.data := by omega
  have hall : (pb.tail : ℤ) - pb.data - -pb.data = pb.tail := by omega
  simp only [pbCopyBits, hstart, hall]
  rw [if_neg (by omega)]
  by_cases hzero : pb.tail = 0
  · simp [hzero]
  · rw [if_pos (by omega), if_neg (lt_irrefl _)]
    simp

/-- The control block and the data block of a copy. -/
def Pbuff.copied (pb : Pbuff B) (b : B) (size : ℕ) : Pbuff B := ⟨1, false, b, pb.data, pb.tail, size⟩

def PbBlock.copied (blk : PbBlock) (junk : ℕ → UInt8) (tail : ℕ) : PbBlock :=
  ⟨copyBytes junk 0 blk.bytes 0 tail, blk.size, 1, blk.size % 2 ^ 32⟩

theorem setBlock_setPb_again {x x' : Option PbBlock} {y y' : Option (Pbuff B)} :
    (((s.setBlock b x).setPb q y).setBlock b x').setPb q y' = (s.setBlock b x').setPb q y' := by
  simp [PbHeap.setPb, PbHeap.setBlock]

theorem pbCopy_eq (hp : s.pbuff p = some pb) (h : PbOk s pb blk) (hsize : blk.size < 2 ^ 32)
    (m : Malloced B) :
    pbCopy s p (some q) (some m) =
      if (s.pbuff q).isNone ∧ (s.block m.block).isNone then
        some ((s.setBlock m.block (some (blk.copied m.junk pb.tail))).setPb q
          (some (pb.copied m.block blk.size)), some q)
      else none := by
  have hhead := h.head_eq_zero hsize
  have hdatalen : blk.datalen = blk.size := by rw [h.datalen, Nat.mod_eq_of_lt hsize]
  have halign : align8 blk.size = blk.size := align8_of_dvd h.aligned hsize
  have hdata := h.data_le
  have htail := h.tail_le
  have hend := h.endp
  have hlen := h.headlen
  have hreserved : (((pb.data : ℤ) - (0 : ℕ)) % 2 ^ 32).toNat = pb.data := by omega
  have hbits : (pb.data + pbHeadlen pb) % 2 ^ 32 = pb.tail := by
    rw [hlen, Nat.mod_eq_of_lt (by omega)]
  have hneg : -((pb.data : ℤ) - (0 : ℕ)) = -(pb.data : ℤ) := by omega
  have hfrom : ((pb.data : ℤ) - ((pb.data : ℤ) - (0 : ℕ))).toNat = 0 := by omega
  have hroom : blk.size + 8 < 2 ^ 64 := by omega
  simp only [pbCopy, hp, h.shinfo, hhead, hdatalen, halign, allocPb, Option.bind_eq_bind,
    Option.bind_some, hreserved, hbits, hneg,
    hfrom, pbCopyBits_eq h, hroom, and_true]
  split
  · rename_i hfresh
    have hnew : (PbHeap.setPb (s.setBlock m.block (some ⟨m.junk, blk.size, 1, blk.size % 2 ^ 32⟩)) q
        (some ⟨1, false, m.block, 0, 0, blk.size⟩)).shinfo ⟨1, false, m.block, 0, 0, blk.size⟩ =
          some ⟨m.junk, blk.size, 1, blk.size % 2 ^ 32⟩ := by
      simp [PbHeap.shinfo]
    have hfit : pb.tail ≤ blk.size := by omega
    have hzero : (0 : ℕ) = pbHead (B := B) ⟨1, false, m.block, 0, 0, blk.size⟩ ⟨m.junk, blk.size, 1,
        blk.size % 2 ^ 32⟩ := by
      simp only [pbHead, Nat.mod_eq_of_lt hsize, Nat.sub_self]
    simp only [Option.bind_some, setPb_pbuff_self, hnew, ← hzero, hfit, and_self, if_true,
      setBlock_setPb_again, Nat.zero_add,
      hlen, PbBlock.copied, Pbuff.copied]
  · rfl

omit [DecidableEq P] [DecidableEq B] in
theorem PbOk.copied (h : PbOk s pb blk) {junk : ℕ → UInt8} {s₁ : PbHeap P B}
    (hb : s₁.block b = some (blk.copied junk pb.tail)) :
    PbOk s₁ (pb.copied b blk.size) (blk.copied junk pb.tail) :=
  ⟨hb, rfl, h.data_le, h.endp ▸ h.tail_le, rfl, h.aligned⟩

omit [DecidableEq P] [DecidableEq B] in
theorem readBytes_copied (h : PbOk s pb blk) (b : B) (junk : ℕ → UInt8) :
    readBytes (blk.copied junk pb.tail).bytes (pb.copied b blk.size).data (pbHeadlen (pb.copied b blk.size)) =
      readBytes blk.bytes pb.data (pbHeadlen pb) := by
  have hlen := h.headlen
  have hcopy : readBytes (copyBytes junk 0 blk.bytes 0 pb.tail) (0 + pb.data) (pbHeadlen pb) =
      readBytes blk.bytes (0 + pb.data) (pbHeadlen pb) := readBytes_copyBytes (by omega)
  simp only [Nat.zero_add] at hcopy
  exact hcopy

theorem content_copied (h : PbOk s pb blk) (hp : s.pbuff p = some pb) (b : B) (junk : ℕ → UInt8)
    (s₁ : PbHeap P B) :
    ((s₁.setBlock b (some (blk.copied junk pb.tail))).setPb q (some (pb.copied b blk.size))).content
      q = s.content p := by
  have hblock : (pb.copied b blk.size).block = b := rfl
  rw [h.content hp, ← readBytes_copied h b junk]
  simp [PbHeap.content, hblock]

/-! ## The calls on one pbuff -/

/-- `pb_putdata` with room, and what is stored at the place. -/
theorem pbPutdata_eq (hp : s.pbuff p = some pb) (h : PbOk s pb blk) (bs : List UInt8)
    (hroom : bs.length ≤ pbTailroom pb) :
    pbPutdata s p bs =
      some
      ((s.setBlock pb.block (some { blk with bytes := writeBytes blk.bytes pb.tail bs })).setPb p
      (some { pb with tail := pb.tail + bs.length })) := by
  have htail := h.tail_le
  have hfits : pb.tail + bs.length ≤ pb.endp := by
    rw [pbTailroom] at hroom
    omega
  simp [pbPutdata, hp, h.shinfo, hfits]

theorem content_put (hp : s.pbuff p = some pb) (h : PbOk s pb blk) {bs : List UInt8}
    (hstep : pbPutdata s p bs = some s') :
    s'.content p = (s.content p).map (· ++ bs) := by
  simp only [pbPutdata, hp, h.shinfo, Option.bind_eq_bind, Option.bind_some] at hstep
  obtain ⟨-, heq⟩ := Option.ite_none_right_eq_some.mp hstep
  obtain rfl := Option.some.inj heq
  have hlen := h.headlen
  have hmore : pb.tail + bs.length - pb.data = pbHeadlen pb + bs.length := by omega
  rw [h.content hp]
  simp only [PbHeap.content, setPb_pbuff_self, setPb_block, setBlock_block_self, Option.bind_some,
    Option.map_some, pbHeadlen]
  rw [hmore, ← hlen, readBytes_writeBytes_append]
  rw [pbHeadlen, Nat.add_sub_cancel_left]

theorem PbOk.op (hp : s.pbuff p = some pb) (h : PbOk s pb blk) {o : PbOp} (hstep : pbOp s p o = some s') :
    ∃ pb' bytes, s' = (s.setBlock pb.block (some { blk with bytes := bytes })).setPb p (some pb') ∧
      pb'.block = pb.block ∧
      pb'.users = pb.users ∧ PbOk s' pb' { blk with bytes := bytes } := by
  have hdata := h.data_le
  have htail := h.tail_le
  have hlen := h.headlen
  have hsame : s.setBlock pb.block (some blk) = s := by
    rw [PbHeap.setBlock, ← h.found, Function.update_eq_self]
  have hstay : ∀ d t, d ≤ t → t ≤ pb.endp →
      ∃ pb' bytes, s.setPb p (some { pb with data := d, tail := t }) =
        (s.setBlock pb.block (some { blk with bytes := bytes })).setPb p (some pb') ∧ pb'.block = pb.block ∧
          pb'.users = pb.users ∧ PbOk (s.setPb p (some { pb with data := d, tail := t })) pb'
            { blk with bytes := bytes } := by
    intro d t hdt hte
    refine ⟨{ pb with data := d, tail := t }, blk.bytes, ?_, rfl, rfl, h.found, h.endp, hdt, hte,
      h.datalen, h.aligned⟩
    rw [hsame]
  have hnone : ∃ pb' bytes, s = (s.setBlock pb.block (some { blk with bytes := bytes })).setPb p (some pb') ∧
      pb'.block = pb.block ∧ pb'.users = pb.users ∧ PbOk s pb' { blk with bytes := bytes } := by
    refine ⟨pb, blk.bytes, ?_, rfl, rfl, h⟩
    rw [hsame, PbHeap.setPb, ← hp, Function.update_eq_self]
  cases o with
  | reserve len =>
    simp only [pbOp, pbReserve, hp, h.shinfo, Option.bind_eq_bind, Option.bind_some] at hstep
    obtain ⟨⟨-, hroom⟩, heq⟩ := Option.ite_none_right_eq_some.mp hstep
    exact Option.some.inj heq ▸ hstay _ _ (Nat.add_le_add_right hdata len) hroom
  | put bs =>
    simp only [pbOp, pbPutdata, hp, h.shinfo, Option.bind_eq_bind, Option.bind_some] at hstep
    obtain ⟨hroom, heq⟩ := Option.ite_none_right_eq_some.mp hstep
    obtain rfl := Option.some.inj heq
    refine ⟨_, _, rfl, rfl, rfl, setBlock_block_self .., h.endp, ?_, hroom, h.datalen, h.aligned⟩
    exact Nat.le_add_right_of_le hdata
  | push bs =>
    simp only [pbOp, pbPushdata, hp, h.shinfo, Option.bind_eq_bind, Option.bind_some] at hstep
    obtain ⟨hroom, heq⟩ := Option.ite_none_right_eq_some.mp hstep
    obtain rfl := Option.some.inj heq
    refine ⟨_, _, rfl, rfl, rfl, setBlock_block_self .., h.endp, ?_, htail, h.datalen, h.aligned⟩
    exact (Nat.sub_le _ _).trans hdata
  | pop len =>
    simp only [pbOp, pbPopdata, hp, Option.bind_eq_bind, Option.bind_some] at hstep
    split at hstep
    · exact Option.some.inj hstep ▸ hnone
    · exact Option.some.inj hstep ▸ hstay pb.data (pb.tail - len) (by omega) (by omega)
  | pull len =>
    simp only [pbOp, pbPulldata, hp, h.shinfo, Option.bind_eq_bind, Option.bind_some] at hstep
    split at hstep
    · exact Option.some.inj hstep ▸ hnone
    · exact Option.some.inj hstep ▸ hstay (pb.data + len) pb.tail (by omega) htail
  | trim len =>
    simp only [pbOp, pbTrimdata, hp, Option.bind_eq_bind, Option.bind_some] at hstep
    split at hstep
    · exact Option.some.inj hstep ▸ hstay pb.data (pb.data + len) (by omega) (by omega)
    · exact Option.some.inj hstep ▸ hnone

end Spec

end Skp.Utils
