import Skp.Utils.PbuffCodec
import Skp.Utils.PbuffSpec

/-! # A pbuff as a queue of bytes

Values are written at the tail and read at the head, while the pbuff is expanded, copied or cloned
at any time and the reader and writer go over to the new one. Seen from them the pbuff is a queue of
bytes: every step of the heap is a step of the queue, and no write that fits stops. -/
namespace Skp.Utils
set_option autoImplicit false
open Skp.Foundations

/-- The pbuff in use, and what the reads have returned. -/
structure PbStream (P B : Type) where
  heap : PbHeap P B
  cur : P
  out : List (ℤ × Option PbItem)

/-- `take` says that the new pbuff is used from then on. -/
inductive PbMove (P B : Type) where
  | expand (nhead ntail : ℕ) (mem : Option (Malloced B))
  | copy (ctl : Option P) (mem : Option (Malloced B)) (take : Bool)
  | clone (ctl : Option P) (take : Bool)

inductive StreamAct (P B : Type) where
  | write (v : PbItem)
  | read (k : PbKind)
  | move (m : PbMove P B)

section Stream
variable {P B : Type} [DecidableEq P] [DecidableEq B]

/-- Goes over to the pbuff that a call has returned. -/
def PbStream.follow (s : PbStream P B) (take : Bool) (r : PbHeap P B × Option P) : PbStream P B :=
  { s with heap := r.1, cur := if take = true then r.2.getD s.cur else s.cur }

def streamMove (s : PbStream P B) : PbMove P B → Option (PbStream P B)
  | .expand nhead ntail mem => (pbExpand s.heap s.cur nhead ntail mem).map fun r => { s with heap := r.1 }
  | .copy ctl mem take => (pbCopy s.heap s.cur ctl mem).map (s.follow take)
  | .clone ctl take => (pbClone s.heap s.cur ctl).map (s.follow take)

def streamStep (host : Host) (s : PbStream P B) : StreamAct P B → Option (PbStream P B)
  | .write v => (pbWriteItem host s.heap s.cur v).map fun heap => { s with heap := heap }
  | .read k => (pbRead host s.heap s.cur k).map fun r => { s with heap := r.1, out := s.out ++ [r.2] }
  | .move m => streamMove s m

/-- What is new is not in use yet. -/
def freshFor (heap : PbHeap P B) (ctl : Option P) (mem : Option (Malloced B)) : Prop :=
  (∀ q, ctl = some q → heap.pbuff q = none) ∧ ∀ m, mem = some m → heap.block m.block = none

/-- An expansion stays below 2^32 bytes, and memory comes from where nothing is. -/
def moveOk (s : PbStream P B) : PbMove P B → Prop
  | .expand nhead ntail mem => nhead ≤ u32Max ∧ ntail ≤ u32Max ∧ freshFor s.heap none mem ∧
      ∀ pb blk, s.heap.pbuff s.cur = some pb → s.heap.shinfo pb = some blk →
        align8 (nhead + blk.datalen + ntail) < 2 ^ 32
  | .copy ctl mem _ => freshFor s.heap ctl mem
  | .clone ctl _ => freshFor s.heap ctl none

def movesOk (s : PbStream P B) : StreamAct P B → Prop
  | .write _ => True
  | .read _ => True
  | .move m => moveOk s m

/-- The same step on a queue of bytes. -/
def queueStep (host : Host) (q : List UInt8 × List (ℤ × Option PbItem)) :
    StreamAct P B → List UInt8 × List (ℤ × Option PbItem)
  | .write v => (q.1 ++ v.encode host, q.2)
  | .read k =>
      if k.size ≤ q.1.length then (q.1.drop k.size, q.2 ++ [(0, some (k.decode host (q.1.take k.size)))])
      else (q.1, q.2 ++ [(eNODATA, none)])
  | .move _ => q

/-- The bytes that a step needs at the tail. -/
def StreamAct.need : StreamAct P B → ℕ
  | .write v => v.kind.size
  | .read _ => 0
  | .move _ => 0

variable {s s' : PbStream P B} {c : List UInt8} {room : ℕ}

/-- The pbuff in use is in order, holds the bytes `c` and has room for `room` more. -/
def StreamInv (s : PbStream P B) (c : List UInt8) (room : ℕ) : Prop :=
  ∃ pb blk, s.heap.pbuff s.cur = some pb ∧ PbOk s.heap pb blk ∧ blk.size < 2 ^ 32 ∧
    s.heap.content s.cur = some c ∧
    room ≤ pbTailroom pb

/-! ## The steps -/

theorem streamStep_write {host : Host} {v : PbItem} {heap : PbHeap P B}
    (h : pbPutdata s.heap s.cur (v.encode host) = some heap) :
    streamStep host s (.write v) = some { s with heap := heap } := by
  rw [streamStep, pbWriteItem, h, Option.map_some]

theorem streamStep_read {host : Host} {k : PbKind} {heap : PbHeap P B} {o : ℤ × Option PbItem}
    (h : pbRead host s.heap s.cur k = some (heap, o)) :
    streamStep host s (.read k) = some { s with heap := heap, out := s.out ++ [o] } := by
  rw [streamStep, h, Option.map_some]

theorem streamMove_expand {nhead ntail : ℕ} {mem : Option (Malloced B)} {heap : PbHeap P B} {rc : ℤ}
    (h : pbExpand s.heap s.cur nhead ntail mem = some (heap, rc)) :
    streamMove s (.expand nhead ntail mem) = some { s with heap := heap } := by
  rw [streamMove, h, Option.map_some]

theorem streamMove_copy {ctl : Option P} {mem : Option (Malloced B)} {take : Bool} {r : PbHeap P B × Option P}
    (h : pbCopy s.heap s.cur ctl mem = some r) :
    streamMove s (.copy ctl mem take) = some (s.follow take r) := by
  rw [streamMove, h, Option.map_some]

theorem streamMove_clone {ctl : Option P} {take : Bool} {r : PbHeap P B × Option P}
    (h : pbClone s.heap s.cur ctl = some r) : streamMove s (.clone ctl take) = some (s.follow take r) := by
  rw [streamMove, h, Option.map_some]

omit [DecidableEq P] [DecidableEq B] in
theorem StreamInv.stay (h : StreamInv s c room) (take : Bool) :
    StreamInv (s.follow take (s.heap, none)) c room := by
  have hcur : (s.follow take (s.heap, none)).cur = s.cur := by
    simp [PbStream.follow]
  rw [StreamInv, hcur]
  exact h

theorem StreamInv.write (h : StreamInv s c room) (host : Host) {v : PbItem} (hroom : v.kind.size ≤ room) :
    ∃ s', streamStep host s (.write v) = some s' ∧ s'.out = s.out ∧
      StreamInv s' (c ++ v.encode host) (room - v.kind.size) := by
  obtain ⟨pb, blk, hp, hok, hsize, hc, hle⟩ := h
  have hfits : (v.encode host).length ≤ pbTailroom pb := by
    rw [length_encode]
    omega
  have hput := pbPutdata_eq hp hok _ hfits
  have hcontent := content_put hp hok hput
  have hend := hok.tail_le
  have hdata := hok.data_le
  rw [pbTailroom] at hfits hle
  refine ⟨_, streamStep_write hput, rfl, _, _, setPb_pbuff_self ..,
    ⟨setBlock_block_self .., hok.endp, ?_, ?_, hok.datalen, hok.aligned⟩, hsize, ?_, ?_⟩
  · exact Nat.le_add_right_of_le hdata
  · simp only
    omega
  · simp only
    rw [hcontent, hc]
    rfl
  · simp only [pbTailroom, length_encode]
    omega

theorem StreamInv.read (h : StreamInv s c room) (host : Host) (k : PbKind) :
    ∃ s', streamStep host s (.read k) = some s' ∧
      StreamInv s' (queueStep host (c, s.out) (.read k : StreamAct P B)).1 room ∧
      s'.out = (queueStep host (c, s.out) (.read k : StreamAct P B)).2 := by
  obtain ⟨pb, blk, hp, hok, hsize, hc, hle⟩ := h
  have hbytes : c = readBytes blk.bytes pb.data (pbHeadlen pb) :=
    Option.some.inj (hc.symm.trans (hok.content hp))
  have hlen : c.length = pbHeadlen pb := by rw [hbytes, length_readBytes]
  by_cases hk : k.size ≤ pbHeadlen pb
  · have hnot : ¬pbHeadlen pb < k.size := by omega
    have hsum := hok.headlen
    have hpull : pbRead host s.heap s.cur k =
        some (s.heap.setPb s.cur (some { pb with data := pb.data + k.size }), 0,
        some (k.decode host (c.take k.size))) := by
      rw [hbytes, take_readBytes hk]
      simp [pbRead, pbPulldata, hp, hok.shinfo, hk, hnot]
    have hstep : queueStep host (c, s.out) (.read k : StreamAct P B) =
        (c.drop k.size, s.out ++ [(0, some (k.decode host (c.take k.size)))]) := by
      simp only [queueStep, hlen, hk, if_true]
    have hmove : pb.tail - (pb.data + k.size) = pbHeadlen pb - k.size := by omega
    rw [hstep]
    refine ⟨_, streamStep_read hpull, ⟨_, blk, setPb_pbuff_self .., ⟨hok.found, hok.endp, ?_, hok.tail_le,
      hok.datalen, hok.aligned⟩, hsize, ?_, hle⟩, rfl⟩
    · simp only
      omega
    · simp only [PbHeap.content, setPb_pbuff_self, setPb_block, Option.bind_some, hok.found,
        Option.map_some, pbHeadlen]
      rw [hmove, hbytes, drop_readBytes hk]
  · have hfail : pbRead host s.heap s.cur k = some (s.heap, eNODATA, none) := by
      simp [pbRead, hp, hk]
    have hstep : queueStep host (c, s.out) (.read k : StreamAct P B) = (c, s.out ++ [(eNODATA, none)]) := by
      simp only [queueStep, hlen, hk, if_false]
    rw [hstep]
    exact ⟨_, streamStep_read hfail, ⟨pb, blk, hp, hok, hsize, hc, hle⟩, rfl⟩

theorem StreamInv.expand (h : StreamInv s c room) {nhead ntail : ℕ} {mem : Option (Malloced B)}
    (hmove : moveOk s (.expand nhead ntail mem)) :
    ∃ s', streamMove s (.expand nhead ntail mem) = some s' ∧ s'.out = s.out ∧ StreamInv s' c room := by
  obtain ⟨pb, blk, hp, hok, hsize, hc, hle⟩ := h
  obtain ⟨hnhead, hntail, ⟨-, hfresh⟩, hbelow⟩ := hmove
  have hbug : ¬(u32Max < nhead ∨ u32Max < ntail) := by omega
  by_cases hone : pb.users = 1
  · cases mem with
    | none =>
      have hfail : pbExpand s.heap s.cur nhead ntail none = some (s.heap, eNOMEM) := by
        simp [pbExpand, hp, hok.shinfo, hbug, pbShared, hone]
      exact ⟨_, streamMove_expand hfail, rfl, pb, blk, hp, hok, hsize, hc, hle⟩
    | some m =>
      have hhead := hok.head_eq_zero hsize
      obtain ⟨s₁, hrel⟩ := pbReleaseData_isSome hok hhead
      have hexpand := pbExpand_eq nhead ntail hp hok hone hnhead hntail (hfresh m rfl) (by omega) hrel
      have hcontent :=
        content_grown hok hp m.block m.junk nhead
          (align8 (nhead + blk.datalen + ntail)) (by omega) s₁
      have hfound : (s₁.setBlock m.block (some (blk.grown (pbHead pb blk) m.junk nhead
          (align8 (nhead + blk.datalen + ntail))))).block m.block =
            some (blk.grown (pbHead pb blk) m.junk nhead (align8 (nhead + blk.datalen + ntail))) :=
              setBlock_block_self ..
      have hgrown := hok.grown hnhead hntail (by omega) hfound
      refine ⟨_, streamMove_expand hexpand, rfl, _, _, setPb_pbuff_self ..,
        hgrown.reblock hgrown.found rfl rfl, hbelow pb blk hp hok.shinfo, hcontent.trans hc, ?_⟩
      have htail := hok.tail_le
      have hlen : blk.datalen = pb.endp := by
        rw [hok.datalen, ← hok.endp, Nat.mod_eq_of_lt (hok.endp ▸ hsize)]
      simp only [u32Max] at hnhead hntail
      have hmore := le_align8 (n := nhead + blk.datalen + ntail) (by have hend := hok.endp; omega)
      simp only [pbTailroom, Pbuff.moved, hhead] at hle ⊢
      omega
  · have hfail : pbExpand s.heap s.cur nhead ntail mem = some (s.heap, ePERM) := by
      simp [pbExpand, hp, hok.shinfo, hbug, pbShared, hone]
    exact ⟨_, streamMove_expand hfail, rfl, pb, blk, hp, hok, hsize, hc, hle⟩

theorem StreamInv.copy (h : StreamInv s c room) {ctl : Option P} {mem : Option (Malloced B)} {take : Bool}
    (hmove : moveOk s (.copy ctl mem take)) :
    ∃ s', streamMove s (.copy ctl mem take) = some s' ∧ s'.out = s.out ∧ StreamInv s' c room := by
  obtain ⟨pb, blk, hp, hok, hsize, hc, hle⟩ := h
  obtain ⟨hctl, hmem⟩ := hmove
  have hsame : StreamInv (s.follow take (s.heap, none)) c room :=
    StreamInv.stay ⟨pb, blk, hp, hok, hsize, hc, hle⟩ take
  cases ctl with
  | none =>
    have hfail : pbCopy s.heap s.cur none mem = some (s.heap, none) := by
      simp [pbCopy, hp, hok.shinfo, allocPb]
    exact ⟨_, streamMove_copy hfail, rfl, hsame⟩
  | some q =>
    cases mem with
    | none =>
      have hfail : pbCopy s.heap s.cur (some q) none = some (s.heap, none) := by
        simp [pbCopy, hp, hok.shinfo, allocPb]
      exact ⟨_, streamMove_copy hfail, rfl, hsame⟩
    | some m =>
      have hq := hctl q rfl
      have hb := hmem m rfl
      have hcopy := pbCopy_eq (q := q) hp hok hsize m
      rw [if_pos ⟨by rw [hq]; rfl, by rw [hb]; rfl⟩] at hcopy
      refine ⟨_, streamMove_copy hcopy, rfl, ?_⟩
      have hqp : s.cur ≠ q := by
        rintro rfl
        rw [hp] at hq
        cases hq
      have hne : pb.block ≠ m.block := by
        intro heq
        have hfound := hok.found
        rw [heq, hb] at hfound
        cases hfound
      cases take with
      | true =>
        have hcontent := content_copied (q := q) hok hp m.block m.junk s.heap
        have hfound : (s.heap.setBlock m.block (some (blk.copied m.junk pb.tail))).block m.block =
            some (blk.copied m.junk pb.tail) := setBlock_block_self ..
        have hcopied := hok.copied hfound
        refine ⟨_, _, setPb_pbuff_self .., hcopied.reblock hcopied.found rfl rfl, hsize,
          hcontent.trans hc, ?_⟩
        rw [pbTailroom, hok.endp] at hle
        exact hle
      | false =>
        have hold : (s.heap.setBlock m.block (some (blk.copied m.junk pb.tail))).block pb.block = some blk :=
          (setBlock_block_of_ne hne _).trans hok.found
        have hcur : ((s.heap.setBlock m.block (some (blk.copied m.junk pb.tail))).setPb q
            (some (pb.copied m.block blk.size))).pbuff
            s.cur = some pb := (setPb_pbuff_of_ne hqp _).trans hp
        refine ⟨pb, blk, hcur, hok.reblock hold rfl rfl, hsize, ?_, hle⟩
        exact (content_congr hp hok.found hcur hold rfl rfl rfl).trans hc

theorem StreamInv.clone (h : StreamInv s c room) {ctl : Option P} {take : Bool}
    (hmove : moveOk s (.clone ctl take)) :
    ∃ s', streamMove s (.clone ctl take) = some s' ∧ s'.out = s.out ∧ StreamInv s' c room := by
  obtain ⟨pb, blk, hp, hok, hsize, hc, hle⟩ := h
  obtain ⟨hctl, -⟩ := hmove
  cases ctl with
  | none =>
    have hfail : pbClone s.heap s.cur none = some (s.heap, none) := by
      simp [pbClone, hp]
    exact ⟨_, streamMove_clone hfail, rfl, StreamInv.stay ⟨pb, blk, hp, hok, hsize, hc, hle⟩ take⟩
  | some q =>
    have hq := hctl q rfl
    have hqp : s.cur ≠ q := by
      rintro rfl
      rw [hp] at hq
      cases hq
    have hclone : pbClone s.heap s.cur (some q) = some (((s.heap.setBlock pb.block
        (some { blk with dataref := urefInc blk.dataref })).setPb s.cur
          (some { pb with cloned := true })).setPb q
          (some { pb with users := 1, cloned := true }), some q) := by
      simp [pbClone, hp, hok.shinfo, hq]
    refine ⟨_, streamMove_clone hclone, rfl, ?_⟩
    have hblock : (s.heap.setBlock pb.block
        (some { blk with dataref := urefInc blk.dataref })).block pb.block =
        some { blk with dataref := urefInc blk.dataref } := setBlock_block_self ..
    cases take with
    | true =>
      refine ⟨_, _, setPb_pbuff_self ..,
        ⟨hblock, hok.endp, hok.data_le, hok.tail_le, hok.datalen, hok.aligned⟩, hsize, ?_, hle⟩
      rw [← hc, hok.content hp]
      simp [PbStream.follow, PbHeap.content, pbHeadlen]
    | false =>
      have hcur : (((s.heap.setBlock pb.block (some { blk with dataref := urefInc blk.dataref })).setPb s.cur
          (some { pb with cloned := true })).setPb q
            (some { pb with users := 1, cloned := true })).pbuff s.cur =
            some { pb with cloned := true } := (setPb_pbuff_of_ne hqp _).trans (setPb_pbuff_self ..)
      refine ⟨_, _, hcur, ⟨hblock, hok.endp, hok.data_le, hok.tail_le, hok.datalen, hok.aligned⟩,
        hsize, ?_, hle⟩
      exact (content_congr hp hok.found hcur hblock rfl rfl rfl).trans hc

/-! ## The runs -/

theorem StreamInv.move (h : StreamInv s c room) {m : PbMove P B} (hmove : moveOk s m) :
    ∃ s', streamMove s m = some s' ∧ s'.out = s.out ∧ StreamInv s' c room := by
  cases m with
  | expand nhead ntail mem => exact h.expand hmove
  | copy ctl mem take => exact h.copy hmove
  | clone ctl take => exact h.clone hmove

theorem StreamInv.step (h : StreamInv s c room) (host : Host) {a : StreamAct P B}
    (hneed : a.need ≤ room) (hmove : movesOk s a) :
    ∃ s', streamStep host s a = some s' ∧ StreamInv s' (queueStep host (c, s.out) a).1 (room - a.need) ∧
      s'.out = (queueStep host (c, s.out) a).2 := by
  cases a with
  | write v =>
    obtain ⟨s', hstep, hout, hinv⟩ := h.write host hneed
    exact ⟨s', hstep, hinv, hout⟩
  | read k => exact h.read host k
  | move m =>
    obtain ⟨s', hstep, hout, hinv⟩ := h.move hmove
    exact ⟨s', hstep, hinv, hout⟩

theorem StreamInv.run (host : Host) (as : List (StreamAct P B)) (s : PbStream P B) (c : List UInt8)
    (room : ℕ) (h : StreamInv s c room)
    (hneed : (as.map StreamAct.need).sum ≤ room) (hmoves : RunMeets (streamStep host) movesOk s as) :
    ∃ s', runActs (streamStep host) s as = some s' ∧ StreamInv s' (as.foldl (queueStep host) (c, s.out)).1 0 ∧
      s'.out = (as.foldl (queueStep host) (c, s.out)).2 := by
  induction as generalizing s c room with
  | nil =>
    obtain ⟨pb, blk, hp, hok, hsize, hc, -⟩ := h
    exact ⟨s, rfl, ⟨pb, blk, hp, hok, hsize, hc, Nat.zero_le _⟩, rfl⟩
  | cons a as ih =>
    simp only [List.map_cons, List.sum_cons] at hneed
    obtain ⟨s₁, hstep, hinv, hout⟩ := h.step host (by omega) hmoves.1
    obtain ⟨s', hrun, hend⟩ := ih s₁ _ (room - a.need) hinv (by omega) (hmoves.2 s₁ hstep)
    refine ⟨s', runActs_cons_eq_some.mpr ⟨s₁, hstep, hrun⟩, ?_⟩
    rw [List.foldl_cons]
    rw [hout] at hend
    exact hend

/-! ## The queue -/

def StreamAct.written : StreamAct P B → Option PbItem
  | .write v => some v
  | .read _ => none
  | .move _ => none

def StreamAct.asked : StreamAct P B → Option PbKind
  | .write _ => none
  | .read k => some k
  | .move _ => none

def encodeAll (host : Host) (vs : List PbItem) : List UInt8 := (vs.map (PbItem.encode host)).flatten

omit [DecidableEq P] [DecidableEq B] in
theorem foldl_writes (host : Host) (as : List (StreamAct P B))
    (hreads : as.filterMap StreamAct.asked = []) (c : List UInt8)
    (out : List (ℤ × Option PbItem)) :
    as.foldl (queueStep host) (c, out) = (c ++ encodeAll host (as.filterMap StreamAct.written), out) := by
  induction as generalizing c with
  | nil => simp [encodeAll]
  | cons a as ih =>
    cases a with
    | write v =>
      have hrest : as.filterMap StreamAct.asked = [] := by simpa [StreamAct.asked] using hreads
      simp [queueStep, ih hrest, StreamAct.written, encodeAll]
    | read k => simp [StreamAct.asked] at hreads
    | move m =>
      have hrest : as.filterMap StreamAct.asked = [] := by simpa [StreamAct.asked] using hreads
      simp [queueStep, ih hrest, StreamAct.written, List.filterMap_cons]

/-- Reads of kinds `ks`, one after the other. -/
def readAll (host : Host) : List PbKind → List UInt8 × List (ℤ × Option PbItem) →
      List UInt8 × List (ℤ × Option PbItem)
  | [], q => q
  | k :: ks, q => readAll host ks (queueStep host q (.read k : StreamAct Unit Unit))

omit [DecidableEq P] [DecidableEq B] in
theorem foldl_reads (host : Host) (as : List (StreamAct P B)) (hwrites : as.filterMap StreamAct.written = [])
    (q : List UInt8 × List (ℤ × Option PbItem)) :
    as.foldl (queueStep host) q = readAll host (as.filterMap StreamAct.asked) q := by
  induction as generalizing q with
  | nil => rfl
  | cons a as ih =>
    cases a with
    | write v => simp [StreamAct.written] at hwrites
    | read k =>
      have hrest : as.filterMap StreamAct.written = [] := by simpa [StreamAct.written] using hwrites
      simp [StreamAct.asked, readAll, ih hrest, queueStep]
    | move m =>
      have hrest : as.filterMap StreamAct.written = [] := by simpa [StreamAct.written] using hwrites
      simp [StreamAct.asked, ih hrest, queueStep, List.filterMap_cons]

theorem readAll_append (host : Host) (ks ls : List PbKind) (q : List UInt8 × List (ℤ × Option PbItem)) :
    readAll host (ks ++ ls) q = readAll host ls (readAll host ks q) := by
  induction ks generalizing q with
  | nil => rfl
  | cons k ks ih => exact ih _

/-- Reads that take exactly the bytes in front of `c`. -/
theorem readAll_front (host : Host) (ks : List PbKind) (front c : List UInt8) (out : List (ℤ × Option PbItem))
    (hfront : (ks.map PbKind.size).sum = front.length) :
    ∃ first, first.length = ks.length ∧ readAll host ks (front ++ c, out) = (c, out ++ first) := by
  induction ks generalizing front out with
  | nil =>
    have hnil : front = [] := List.eq_nil_of_length_eq_zero hfront.symm
    exact ⟨[], rfl, by simp [readAll, hnil]⟩
  | cons k ks ih =>
    simp only [List.map_cons, List.sum_cons] at hfront
    have hle : k.size ≤ front.length := by omega
    have hin : k.size ≤ (front ++ c).length := by
      rw [List.length_append]
      omega
    obtain ⟨first, hlen, hrest⟩ :=
      ih (front.drop k.size) (out ++ [(0, some (k.decode host ((front ++ c).take k.size)))])
      (by rw [List.length_drop]; omega)
    refine ⟨(0, some (k.decode host ((front ++ c).take k.size))) :: first, by simp [hlen], ?_⟩
    rw [readAll, queueStep, if_pos hin, List.drop_append_of_le_length hle, hrest]
    simp

theorem readAll_encodeAll (host : Host) (vs : List PbItem) (c : List UInt8) (out : List (ℤ × Option PbItem)) :
    readAll host (vs.map PbItem.kind) (encodeAll host vs ++ c, out) =
      (c, out ++ vs.map fun v => (0, some v)) := by
  induction vs generalizing out with
  | nil => simp [readAll, encodeAll]
  | cons v vs ih =>
    have hcons : encodeAll host (v :: vs) ++ c = v.encode host ++ (encodeAll host vs ++ c) := by
      simp [encodeAll]
    have hin : v.kind.size ≤ (v.encode host ++ (encodeAll host vs ++ c)).length := by
      rw [List.length_append, length_encode]
      omega
    have htake : (v.encode host ++ (encodeAll host vs ++ c)).take v.kind.size = v.encode host := by
      rw [← length_encode host v, List.take_left']
      rfl
    have hdrop : (v.encode host ++ (encodeAll host vs ++ c)).drop v.kind.size = encodeAll host vs ++ c := by
      rw [← length_encode host v, List.drop_left']
      rfl
    rw [List.map_cons, readAll, hcons, queueStep, if_pos hin, htake, hdrop, decode_encode, ih]
    simp

omit [DecidableEq P] [DecidableEq B] in
theorem sum_need (as : List (StreamAct P B)) :
    (as.map StreamAct.need).sum = ((as.filterMap StreamAct.written).map fun v => v.kind.size).sum := by
  induction as with
  | nil => rfl
  | cons a as ih =>
    cases a with
    | write v => simp [StreamAct.need, StreamAct.written, ih]
    | read k => simp [StreamAct.need, StreamAct.written, List.filterMap_cons, ih]
    | move m => simp [StreamAct.need, StreamAct.written, List.filterMap_cons, ih]

omit [DecidableEq B] in
/-- `pb_read_*` that returns `-ENODATA` changes nothing. -/
theorem pbRead_nodata {host : Host} {heap heap' : PbHeap P B} {p : P} {k : PbKind} {o : Option PbItem}
    (h : pbRead host heap p k = some (heap', eNODATA, o)) : heap' = heap := by
  simp only [pbRead, Option.bind_eq_bind, Option.bind_eq_some_iff] at h
  obtain ⟨pb, -, h⟩ := h
  split at h
  · obtain ⟨r, -, h⟩ := Option.bind_eq_some_iff.mp h
    obtain ⟨bs, -, h⟩ := Option.bind_eq_some_iff.mp h
    have hrc := (Prod.mk.inj (Prod.mk.inj (Option.some.inj h)).2).1
    exact absurd hrc (by decide)
  · exact (Prod.mk.inj (Option.some.inj h)).1.symm

/-- Values that fit are written, and behind the data that were there before they are read back, with
expansions, copies and clones between any two steps. The reads `ks` take the old data; on an empty
pbuff there are none. -/
theorem values_read_back (host : Host) (s : PbStream P B) {pb : Pbuff B} {blk : PbBlock} {c : List UInt8}
    (hp : s.heap.pbuff s.cur = some pb) (hok : PbOk s.heap pb blk) (hsize : blk.size < 2 ^ 32)
    (hc : s.heap.content s.cur = some c)
    (vs : List PbItem) (hroom : (vs.map fun v => v.kind.size).sum ≤ pbTailroom pb) (ks : List PbKind)
    (hks : (ks.map PbKind.size).sum = c.length) (writes reads : List (StreamAct P B))
    (hwrites : writes.filterMap StreamAct.written = vs ∧ writes.filterMap StreamAct.asked = [])
    (hreads : reads.filterMap StreamAct.asked = ks ++ vs.map PbItem.kind ∧
      reads.filterMap StreamAct.written = [])
    (hmoves : RunMeets (streamStep host) movesOk s (writes ++ reads)) :
    (∃ s' first, runActs (streamStep host) s (writes ++ reads) = some s' ∧ first.length = ks.length ∧
      s'.out = s.out ++ first ++ (vs.map fun v => (0, some v)) ∧ s'.heap.content s'.cur = some []) ∧
    ∀ heap p k heap' o, pbRead host heap p k = some (heap', eNODATA, o) → heap' = (heap : PbHeap P B) := by
  refine ⟨?_, fun heap p k heap' o h => pbRead_nodata h⟩
  have hneed : ((writes ++ reads).map StreamAct.need).sum ≤ pbTailroom pb := by
    rw [sum_need, List.filterMap_append, hwrites.1, hreads.2, List.append_nil]
    exact hroom
  obtain ⟨s', hrun, hend, hout⟩ := StreamInv.run host (writes ++ reads) s c (pbTailroom pb)
    ⟨pb, blk, hp, hok, hsize, hc, le_refl _⟩ hneed hmoves
  obtain ⟨first, hlen, hold⟩ := readAll_front host ks c (encodeAll host vs) s.out hks
  have hvalues := readAll_encodeAll host vs [] (s.out ++ first)
  rw [List.append_nil] at hvalues
  have hqueue : (writes ++ reads).foldl (queueStep host) (c, s.out) =
      ([], s.out ++ first ++ vs.map fun v => (0, some v)) := by
    rw [List.foldl_append, foldl_writes host writes hwrites.2, hwrites.1,
      foldl_reads host reads hreads.2, hreads.1, readAll_append,
      hold, hvalues]
  rw [hqueue] at hend hout
  obtain ⟨pb', blk', -, -, -, hempty, -⟩ := hend
  exact ⟨s', first, hrun, hlen, hout, hempty⟩

end Stream

/-- A heap with one pbuff of 16 bytes that holds `bs`. -/
def oneBuffer (bs : List UInt8) : PbStream ℕ ℕ where
  heap :=
    (PbHeap.setPb (pbEmpty.setBlock 0 (some ⟨writeBytes (fun _ => 0) 0 bs, 16, 1, 16⟩)) 0
      (some ⟨1, false, 0, 0, bs.length, 16⟩))
  cur := 0
  out := []

/-- A number and a string are written with a clone and a copy in between, which the writer goes over
to; then the buffer grows. -/
def growWhileWriting : List (StreamAct ℕ ℕ) :=
  [.write (.uint32 305419896), .move (.clone (some 1) true), .write (.bytes [1, 2]),
    .move (.copy (some 2) (some ⟨1, fun _ => 7⟩) true)]

def growWhileReading : List (StreamAct ℕ ℕ) :=
  [.read .uint32, .move (.expand 8 8 (some ⟨2, fun _ => 9⟩)), .read (.bytes 2)]

theorem values_read_back_grow :
    ∃ s' first, runActs (streamStep ⟨true, true⟩) (oneBuffer [])
      (growWhileWriting ++ growWhileReading) = some s' ∧
      first.length = 0 ∧ s'.out = first ++ [(0, some (.uint32 305419896)), (0, some (.bytes [1, 2]))] ∧
      s'.heap.content s'.cur = some [] := by
  have hok : PbOk (oneBuffer []).heap ⟨1, false, 0, 0, 0, 16⟩ ⟨writeBytes (fun _ => 0) 0 [], 16, 1, 16⟩ :=
    ⟨rfl, rfl, le_refl _, by decide, by decide, by decide⟩
  have hmoves : RunMeets (streamStep ⟨true, true⟩) movesOk (oneBuffer [])
      (growWhileWriting ++ growWhileReading) := by
    refine .cons rfl trivial (.cons rfl ⟨?_, ?_⟩ (.cons rfl trivial (.cons rfl ⟨?_, ?_⟩ (.cons rfl trivial
      (.cons rfl ⟨by decide, by decide, ⟨?_, ?_⟩, ?_⟩ (.cons rfl trivial trivial))))))
    · intro q hq
      cases hq
      rfl
    · intro m hm
      cases hm
    · intro q hq
      cases hq
      rfl
    · intro m hm
      cases hm
      rfl
    · intro q hq
      cases hq
    · intro m hm
      cases hm
      rfl
    · intro pb blk hp hb
      cases hp
      cases hb
      decide +kernel
  obtain ⟨⟨s', first, hrun, hlen, hout, hempty⟩, -⟩ :=
    values_read_back ⟨true, true⟩ (oneBuffer []) rfl hok (by decide) rfl
    [.uint32 305419896, .bytes [1, 2]] (by decide) [] rfl growWhileWriting growWhileReading
      ⟨rfl, rfl⟩ ⟨rfl, rfl⟩ hmoves
  exact ⟨s', first, hrun, hlen, hout, hempty⟩

/-- A byte that was there before is read in place of the value that was written. -/
theorem old_byte_read_first :
    ∃ s' : PbStream ℕ ℕ, runActs (streamStep ⟨true, true⟩) (oneBuffer [9]) [.write (.uint8 7),
      .read .uint8] = some s' ∧
      s'.out = [(0, some (.uint8 9))] := by
  exact ⟨_, rfl, by decide +kernel⟩

end Skp.Utils
