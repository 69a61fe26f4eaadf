import Skp.Errno
import Skp.Foundations.ByteMem
import Skp.Foundations.Runs

/-! # Packet buffers

`pbuff.c` and the inline functions of `pbuff.h` on a heap of control blocks and data blocks. A
pointer of a control block is an offset in its data block. What `malloc` and a constructor give is
chosen outside, as are the bytes of a new block. A `BUG_ON`, a pointer that leaves its block and a
`free` of what is not the start of a block give `none`. The base class is modelled; the callbacks of
`pb_ops` besides the constructor do not touch it. -/
namespace Skp.Utils
set_option autoImplicit false
open Skp.Foundations

/-- `users` stays a number below `INT_MAX`: `uref_get_unless_zero` stops there. -/
structure Pbuff (B : Type) where
  users : ℕ
  cloned : Bool
  block : B
  data : ℕ
  tail : ℕ
  endp : ℕ

/-- A data block: `size` bytes and the `pb_shared_info` behind them. `dataref` and `datalen` have 32 bits. -/
structure PbBlock where
  bytes : ℕ → UInt8
  size : ℕ
  dataref : ℕ
  datalen : ℕ

structure PbHeap (P B : Type) where
  pbuff : P → Option (Pbuff B)
  block : B → Option PbBlock

/-- A block that `malloc` gives, with what is in it. -/
structure Malloced (B : Type) where
  block : B
  junk : ℕ → UInt8

/-- `ALIGN(n, sizeof(struct pb_shared_info))` -/
def align8 (n : ℕ) : ℕ := (n + 7) % 2 ^ 64 / 8 * 8

def u32Max : ℕ := 2 ^ 32 - 1

/-- `uref_get`, without a look at the number. -/
def urefInc (n : ℕ) : ℕ := (n + 1) % 2 ^ 32

/-- What `__uref_put` leaves. -/
def urefDec (n : ℕ) : ℕ := if n = 0 then u32Max else n - 1

def intMax : ℕ := 2 ^ 31 - 1

section Macros
variable {B : Type} (pb : Pbuff B) (blk : PbBlock)

def pbHead : ℕ := pb.endp - blk.datalen

def pbHeadlen : ℕ := pb.tail - pb.data

/-- A difference of pointers taken as `size_t`. -/
def pbHeadroom : ℕ := (((pb.data : ℤ) - pbHead pb blk) % 2 ^ 64).toNat

def pbTailroom : ℕ := pb.endp - pb.tail

def pbShared : Bool := decide (pb.users ≠ 1)

def pbCloned : Bool := pb.cloned && decide (blk.dataref ≠ 1)

end Macros

section Heap
variable {P B : Type} [DecidableEq P] [DecidableEq B]

def PbHeap.setPb (s : PbHeap P B) (p : P) (pb : Option (Pbuff B)) : PbHeap P B :=
  { s with pbuff := Function.update s.pbuff p pb }

def PbHeap.setBlock (s : PbHeap P B) (b : B) (blk : Option PbBlock) : PbHeap P B :=
  { s with block := Function.update s.block b blk }

/-- `pb_shinfo`: what lies at `end`. -/
def PbHeap.shinfo (s : PbHeap P B) (pb : Pbuff B) : Option PbBlock :=
  (s.block pb.block).filter fun blk => blk.size = pb.endp

/-! ## `pbuff.c` -/

/-- `__alloc_pb`; `ctl` is what the constructor gives. -/
def allocPb (s : PbHeap P B) (size : ℕ) (ctl : Option P) (mem : Option (Malloced B)) :
    Option (PbHeap P B × Option P) :=
  match ctl with
  | none => some (s, none)
  | some p =>
      match mem with
      | none => some (s, none)
      | some m =>
          if (s.pbuff p).isNone ∧ (s.block m.block).isNone ∧ align8 size + 8 < 2 ^ 64 then
            some ((s.setBlock m.block (some ⟨m.junk, align8 size, 1, align8 size % 2 ^ 32⟩)).setPb p
              (some ⟨1, false, m.block, 0, 0, align8 size⟩), some p)
          else none

/-- `pb_release_data` -/
def pbReleaseData (s : PbHeap P B) (pb : Pbuff B) : Option (PbHeap P B) := do
  let blk ← s.shinfo pb
  if urefDec blk.dataref = 0 then
    if pbHead pb blk = 0 then some (s.setBlock pb.block none) else none
  else some (s.setBlock pb.block (some { blk with dataref := urefDec blk.dataref }))

/-- `free_pb` with `__free_pb`. -/
def freePb (s : PbHeap P B) (p : P) : Option (PbHeap P B) := do
  let pb ← s.pbuff p
  if pb.users = 1 then
    let s' ← pbReleaseData s pb
    some (s'.setPb p none)
  else some (s.setPb p (some { pb with users := pb.users - 1 }))

def pbGet (s : PbHeap P B) (p : P) : Option (PbHeap P B × Option P) := do
  let pb ← s.pbuff p
  if pb.users = intMax then none else some (s.setPb p (some { pb with users := pb.users + 1 }), some p)

def pbClone (s : PbHeap P B) (p : P) (ctl : Option P) : Option (PbHeap P B × Option P) := do
  let pb ← s.pbuff p
  match ctl with
  | none => some (s, none)
  | some q =>
      let blk ← s.shinfo pb
      if (s.pbuff q).isNone then
        some (((s.setBlock pb.block (some { blk with dataref := urefInc blk.dataref })).setPb p
          (some { pb with cloned := true })).setPb q (some { pb with users := 1, cloned := true }), some q)
      else none

/-- `pb_reserve` -/
def pbReserve (s : PbHeap P B) (p : P) (len : ℕ) : Option (PbHeap P B) := do
  let pb ← s.pbuff p
  let blk ← s.shinfo pb
  if pb.data = pbHead pb blk ∧ pb.tail + len ≤ pb.endp then
    some (s.setPb p (some { pb with data := pb.data + len, tail := pb.tail + len }))
  else none

/-- `pb_putdata` and a store of `bs` at the place it returns. -/
def pbPutdata (s : PbHeap P B) (p : P) (bs : List UInt8) : Option (PbHeap P B) := do
  let pb ← s.pbuff p
  let blk ← s.shinfo pb
  if pb.tail + bs.length ≤ pb.endp then
    some ((s.setBlock pb.block (some { blk with bytes := writeBytes blk.bytes pb.tail bs })).setPb p
      (some { pb with tail := pb.tail + bs.length }))
  else none

/-- `pb_copy_bits`: its result, and how many bytes from `pb->data + offset` it has copied. -/
def pbCopyBits (pb : Pbuff B) (offset : ℤ) (len : ℕ) : ℤ × ℕ :=
  let start : ℤ := pbHeadlen pb
  if start - len < offset then (eFAULT, 0)
  else if 0 < start - offset then
    let copy := if (len : ℤ) < start - offset then len else (start - offset).toNat
    if len - copy = 0 then (0, copy) else (eFAULT, copy)
  else if len = 0 then (0, 0) else (eFAULT, 0)

/-- `pb_copy`. The reserved room is `(uint32_t)headerlen`; `pb_putdata` only moves the tail here. -/
def pbCopy (s : PbHeap P B) (p : P) (ctl : Option P) (mem : Option (Malloced B)) :
    Option (PbHeap P B × Option P) := do
  let pb ← s.pbuff p
  let blk ← s.shinfo pb
  let headerlen : ℤ := (pb.data : ℤ) - pbHead pb blk
  let reserved := (headerlen % 2 ^ 32).toNat
  let r ← allocPb s blk.datalen ctl mem
  match r.2 with
  | none => some r
  | some q =>
      let pb' ← r.1.pbuff q
      let blk' ← r.1.shinfo pb'
      let copied := pbCopyBits pb (-headerlen) ((reserved + pbHeadlen pb) % 2 ^ 32)
      if pb'.data = pbHead pb' blk' ∧ pb'.tail + reserved + pbHeadlen pb ≤ pb'.endp ∧ copied.1 = 0 then
        some ((r.1.setBlock pb'.block (some { blk' with
            bytes :=
            copyBytes blk'.bytes (pbHead pb' blk') blk.bytes ((pb.data : ℤ) - headerlen).toNat
              copied.2 })).setPb q
          (some { pb' with data := pb'.data + reserved, tail := pb'.tail + reserved + pbHeadlen pb }), some q)
      else none

/-- `pb_share` -/
def pbShare (s : PbHeap P B) (p : P) (l : ℤ) (ctl : Option P) : Option (PbHeap P B × Option P) := do
  let pb ← s.pbuff p
  if l = 0 then some (s, none)
  else
    match ctl with
    | none => some (s, none)
    | some q =>
        let blk ← s.shinfo pb
        let data := if 0 < l then pb.data else ((pb.data : ℤ) + l).toNat
        let tail := if 0 < l then ((pb.data : ℤ) + l).toNat else pb.data
        if (s.pbuff q).isNone ∧ (0 < l → (pb.data : ℤ) + l ≤ pb.endp) ∧
          (l < 0 → (pbHead pb blk : ℤ) ≤ pb.data + l) then
          some (((s.setBlock pb.block (some { blk with dataref := urefInc blk.dataref })).setPb p
            (some { pb with cloned := true })).setPb q
              (some ⟨1, true, pb.block, data, tail, pb.endp⟩), some q)
        else none

/-- The larger block of `__pb_expand_head`, with the old one's bytes from `head` on behind `nhead` bytes. -/
def PbBlock.grown (blk : PbBlock) (head : ℕ) (junk : ℕ → UInt8) (nhead size : ℕ) : PbBlock :=
  ⟨copyBytes junk nhead blk.bytes head blk.datalen, size, 1, size % 2 ^ 32⟩

/-- The pointers in that block. -/
def Pbuff.moved (pb : Pbuff B) (head : ℕ) (b : B) (nhead size : ℕ) : Pbuff B :=
  { pb with
    cloned := false
    block := b
    data := nhead + pb.data - head
    tail := nhead + pb.tail - head
    endp := size }

/-- `__pb_expand_head` -/
def pbExpand (s : PbHeap P B) (p : P) (nhead ntail : ℕ) (mem : Option (Malloced B)) :
    Option (PbHeap P B × ℤ) := do
  let pb ← s.pbuff p
  let blk ← s.shinfo pb
  if u32Max < nhead ∨ u32Max < ntail then none
  else if pbShared pb = true then some (s, ePERM)
  else
    match mem with
    | none => some (s, eNOMEM)
    | some m =>
        let size := align8 (nhead + blk.datalen + ntail)
        if (s.block m.block).isNone ∧ pbHead pb blk ≤ nhead + pb.data then
          let s' ← pbReleaseData s pb
          some ((s'.setBlock m.block (some (blk.grown (pbHead pb blk) m.junk nhead size))).setPb p
            (some (pb.moved (pbHead pb blk) m.block nhead size)), 0)
        else none

/-! ## `pbuff.h` -/

/-- `pb_expand_head` -/
def pbExpandHead (s : PbHeap P B) (p : P) (nhead ntail : ℕ) (mem : Option (Malloced B)) :
    Option (PbHeap P B × ℤ) := do
  let pb ← s.pbuff p
  let blk ← s.shinfo pb
  let head := if nhead ≤ pbHeadroom pb blk then 0 else nhead
  let tail := if ntail ≤ pbTailroom pb then 0 else ntail
  if head = 0 ∧ tail = 0 then some (s, 0)
  else pbExpand s p (2 * head % 2 ^ 64) (2 * tail % 2 ^ 64) mem

/-- `pb_share_check` -/
def pbShareCheck (s : PbHeap P B) (p : P) (ctl : Option P) : Option (PbHeap P B × Option P) := do
  let pb ← s.pbuff p
  if pbShared pb = true then
    let r ← pbClone s p ctl
    match r.2 with
    | none => some (r.1, none)
    | some q =>
        let s' ← freePb r.1 p
        some (s', some q)
  else some (s, some p)

/-- `pb_unshare` -/
def pbUnshare (s : PbHeap P B) (p : P) (ctl : Option P) (mem : Option (Malloced B)) :
    Option (PbHeap P B × Option P) := do
  let pb ← s.pbuff p
  let blk ← s.shinfo pb
  if pbCloned pb blk = true then
    let r ← pbCopy s p ctl mem
    match r.2 with
    | none => some (r.1, none)
    | some q =>
        let s' ← freePb r.1 p
        some (s', some q)
  else some (s, some p)

/-- `pb_pushdata` and a store of `bs` at the place it returns. -/
def pbPushdata (s : PbHeap P B) (p : P) (bs : List UInt8) : Option (PbHeap P B) := do
  let pb ← s.pbuff p
  let blk ← s.shinfo pb
  if pbHead pb blk + bs.length ≤ pb.data then
    some ((s.setBlock pb.block
      (some { blk with bytes := writeBytes blk.bytes (pb.data - bs.length) bs })).setPb p
      (some { pb with data := pb.data - bs.length }))
  else none

/-- `pb_popdata`; the result says whether a place was returned. -/
def pbPopdata (s : PbHeap P B) (p : P) (len : ℕ) : Option (PbHeap P B × Bool) := do
  let pb ← s.pbuff p
  if pbHeadlen pb < len then some (s, false)
    else some (s.setPb p (some { pb with tail := pb.tail - len }), true)

/-- `pb_pulldata`, with the bytes at the place it returns. -/
def pbPulldata (s : PbHeap P B) (p : P) (len : ℕ) : Option (PbHeap P B × Option (List UInt8)) := do
  let pb ← s.pbuff p
  let blk ← s.shinfo pb
  if pbHeadlen pb < len then some (s, none)
  else some (s.setPb p (some { pb with data := pb.data + len }), some (readBytes blk.bytes pb.data len))

/-- `pb_trimdata` -/
def pbTrimdata (s : PbHeap P B) (p : P) (len : ℕ) : Option (PbHeap P B) := do
  let pb ← s.pbuff p
  if len < pbHeadlen pb then some (s.setPb p (some { pb with tail := pb.data + len })) else some s

/-- `pb_prepare_write` -/
def pbPrepareWrite (s : PbHeap P B) (p : P) (n : ℕ) (mem : Option (Malloced B)) :
    Option (PbHeap P B × ℤ) := do
  let pb ← s.pbuff p
  let blk ← s.shinfo pb
  if pbHeadroom pb blk < n then pbExpand s p 0 (max (n % 2 ^ 32) (blk.datalen / 2)) mem else some (s, 0)

/-- `pb_write_bytes`, and `pb_write_uint8` to `pb_write_uint64` with the encoded bytes. -/
def pbWrite (s : PbHeap P B) (p : P) (bs : List UInt8) (mem : Option (Malloced B)) :
    Option (PbHeap P B × ℤ) := do
  let r ← pbPrepareWrite s p bs.length mem
  if r.2 = 0 then
    let s' ← pbPutdata r.1 p bs
    some (s', 0)
  else some (r.1, eNOMEM)

/-! ## Runs -/

/-- The calls that move the pointers of one pbuff, read and write. -/
inductive PbOp where
  | reserve (len : ℕ)
  | put (bs : List UInt8)
  | push (bs : List UInt8)
  | pop (len : ℕ)
  | pull (len : ℕ)
  | trim (len : ℕ)

inductive PbAct (P B : Type) where
  | alloc (size : ℕ) (ctl : Option P) (mem : Option (Malloced B))
  | clone (p : P) (ctl : Option P)
  | copy (p : P) (ctl : Option P) (mem : Option (Malloced B))
  | share (p : P) (l : ℤ) (ctl : Option P)
  | expand (p : P) (nhead ntail : ℕ) (mem : Option (Malloced B))
  | expandHead (p : P) (nhead ntail : ℕ) (mem : Option (Malloced B))
  | unshare (p : P) (ctl : Option P) (mem : Option (Malloced B))
  | shareCheck (p : P) (ctl : Option P)
  | get (p : P)
  | free (p : P)
  | write (p : P) (bs : List UInt8) (mem : Option (Malloced B))
  | op (p : P) (o : PbOp)

/-- What a call returns: a pbuff, a number, or nothing that matters here. -/
inductive PbRet (P : Type) where
  | ptr (r : Option P)
  | rc (n : ℤ)
  | done

/-- The call has failed. -/
def PbRet.failed {P : Type} : PbRet P → Bool
  | .ptr r => r.isNone
  | .rc n => decide (n = ePERM ∨ n = eNOMEM)
  | .done => false

def pbOp (s : PbHeap P B) (p : P) : PbOp → Option (PbHeap P B)
  | .reserve len => pbReserve s p len
  | .put bs => pbPutdata s p bs
  | .push bs => pbPushdata s p bs
  | .pop len => (pbPopdata s p len).map Prod.fst
  | .pull len => (pbPulldata s p len).map Prod.fst
  | .trim len => pbTrimdata s p len

def pbCall (s : PbHeap P B) : PbAct P B → Option (PbHeap P B × PbRet P)
  | .alloc size ctl mem => (allocPb s size ctl mem).map fun r => (r.1, .ptr r.2)
  | .clone p ctl => (pbClone s p ctl).map fun r => (r.1, .ptr r.2)
  | .copy p ctl mem => (pbCopy s p ctl mem).map fun r => (r.1, .ptr r.2)
  | .share p l ctl => (pbShare s p l ctl).map fun r => (r.1, .ptr r.2)
  | .expand p nhead ntail mem => (pbExpand s p nhead ntail mem).map fun r => (r.1, .rc r.2)
  | .expandHead p nhead ntail mem => (pbExpandHead s p nhead ntail mem).map fun r => (r.1, .rc r.2)
  | .unshare p ctl mem => (pbUnshare s p ctl mem).map fun r => (r.1, .ptr r.2)
  | .shareCheck p ctl => (pbShareCheck s p ctl).map fun r => (r.1, .ptr r.2)
  | .get p => (pbGet s p).map fun r => (r.1, .ptr r.2)
  | .free p => (freePb s p).map fun s' => (s', .done)
  | .write p bs mem => (pbWrite s p bs mem).map fun r => (r.1, .rc r.2)
  | .op p o => (pbOp s p o).map fun s' => (s', .done)

def pbStep (s : PbHeap P B) (a : PbAct P B) : Option (PbHeap P B) := (pbCall s a).map Prod.fst

end Heap

def pbEmpty {P B : Type} : PbHeap P B := ⟨fun _ => none, fun _ => none⟩

end Skp.Utils
