import Skp.Errno
import Skp.Adt.DictModel

/-! # The integer id allocator of `src/adt/idr.c`

A bitmap of pages of 32768 bits, the last one shorter; a page is allocated when a scan first reaches it. The
allocator is a parameter: `pageOk k` says whether a page that round `k` of a call asks for is given. -/
namespace Skp.Adt
set_option autoImplicit false

def bitsPerPage : ℕ := 32768

def u32Max : ℕ := 2 ^ 32 - 1
def s32Max : ℕ := 2 ^ 31 - 1

structure Idmap where
  nrFree : ℕ
  nrBit : ℕ
  page : Option (ℕ → Bool)

structure Idt where
  nrFree : ℕ
  offset : ℕ
  nrBit : ℕ
  last : ℕ
  idmap : ℕ → Idmap

/-- `DIV_ROUND_UP(nr_bit, BITS_PER_PAGE)`. -/
def idtPages (nrBit : ℕ) : ℕ := (nrBit + bitsPerPage - 1) / bitsPerPage

/-- The bits of the last page. -/
def lastBits (nrBit : ℕ) : ℕ := if nrBit % bitsPerPage = 0 then bitsPerPage else nrBit % bitsPerPage

/-- `idt_init`; `none` where a `BUG_ON` ends it. The ids run from `start` to `stop`, both included. -/
def idtInit (start stop : ℕ) : Option Idt :=
  let nrBit := stop - start + 1
  if stop ≤ start ∨ s32Max ≤ start ∨ s32Max ≤ stop ∨ s32Max ≤ nrBit then none
  else
    let pages := idtPages nrBit
    let bits := fun i => if i < pages - 1 then bitsPerPage else lastBits nrBit
    some
      { nrFree := nrBit
        offset := start
        nrBit := nrBit
        last := u32Max
        idmap := fun i => { nrFree := bits i, nrBit := bits i, page := none } }

namespace Idt

def pages (t : Idt) : ℕ := idtPages t.nrBit

def setIdmap (t : Idt) (p : ℕ) (m : Idmap) : Idt := { t with idmap := Function.update t.idmap p m }

def pageBit (m : Idmap) (off : ℕ) : Bool := (m.page.getD fun _ => false) off

/-- The bit of a position of the range. -/
def bit (t : Idt) (i : ℕ) : Bool := pageBit (t.idmap (i / bitsPerPage)) (i % bitsPerPage)

end Idt

def checkIdt (t : Idt) (id : ℤ) : Bool :=
  decide (0 ≤ id ∧ (t.offset : ℤ) ≤ id ∧ id < (t.offset + t.nrBit : ℕ))

def mkId (p off : ℕ) : ℕ := p * bitsPerPage + off

def findNextZeroBit (page : ℕ → Bool) (nrBit off : ℕ) : ℕ := findNextBit (fun i => !page i) nrBit off

/-! ## The operations -/

/-- The loop of `idt_next` over the pages from `p` on. -/
def idtNextScan (t : Idt) : ℕ → ℕ → ℕ → ℤ
  | 0, _, _ => eNOENT
  | n + 1, p, off =>
      match (t.idmap p).page with
      | none => idtNextScan t n (p + 1) 0
      | some page =>
          let off := findNextBit page (t.idmap p).nrBit off
          if off < (t.idmap p).nrBit then (mkId p off + t.offset : ℕ) else idtNextScan t n (p + 1) 0

def idtNext (t : Idt) (id : ℤ) : ℤ :=
  if !checkIdt t id then eNOENT
  else
    let i := (id - t.offset).toNat
    idtNextScan t (t.pages - i / bitsPerPage) (i / bitsPerPage) (i % bitsPerPage)

/-- The loop over one page: a bit that `find_next_zero_bit` gives is tested again and found clear. -/
def allocInPage (page : ℕ → Bool) (nrBit : ℕ) : ℕ → ℕ → Option ℕ
  | 0, _ => none
  | n + 1, off =>
      if !page off then some off
      else
        let off := findNextZeroBit page nrBit off
        if nrBit ≤ off then none else allocInPage page nrBit n off

/-- `test_and_set_bit` on a clear bit and the two counters. -/
def takeBit (t : Idt) (p off : ℕ) (page : ℕ → Bool) : Idt :=
  { t.setIdmap p
      { t.idmap p with nrFree := (t.idmap p).nrFree - 1, page := some (Function.update page off true) } with
    nrFree := t.nrFree - 1
    last := mkId p off }

/-- The loop of `idt_alloc`: `n` rounds are left, the next one at bit `off` of page `p`. -/
def idtAllocScan (pageOk : ℕ → Bool) : ℕ → ℕ → Idt → ℕ → ℕ → Idt × ℤ
  | 0, _, t, _, _ => (t, eNOSPC)
  | n + 1, k, t, p, off =>
      if (t.idmap p).page.isNone && !pageOk k then (t, eNOSPC)
      else
        let page := (t.idmap p).page.getD fun _ => false
        let t := t.setIdmap p { t.idmap p with page := some page }
        let found := if (t.idmap p).nrFree = 0 then none else allocInPage page (t.idmap p).nrBit 2 off
        match found with
        | some o => (takeBit t p o page, (mkId p o + t.offset : ℕ))
        | none => idtAllocScan pageOk n (k + 1) t (if p < t.pages - 1 then p + 1 else 0) 0

def idtAlloc (pageOk : ℕ → Bool) (t : Idt) : Idt × ℤ :=
  if t.nrFree = 0 then (t, eNOSPC)
  else
    let id := (t.last + 1) % 2 ^ 32
    let id := if t.nrBit ≤ id then 0 else id
    let off := id % bitsPerPage
    let maxScan := t.pages - if off = 0 then 1 else 0
    idtAllocScan pageOk (maxScan + 1) 0 t (id / bitsPerPage) off

/-- `__idt_remove`; `ring` is `idt_ring_remove`, which moves the cursor back. -/
def idtRemove' (ring : Bool) (t : Idt) (id : ℤ) : Idt × Bool :=
  if !checkIdt t id then (t, false)
  else
    let i := (id - t.offset).toNat
    let p := i / bitsPerPage
    let off := i % bitsPerPage
    match (t.idmap p).page with
    | none => (t, false)
    | some page =>
        if !page off then (t, false)
        else
          ({ t.setIdmap p
              { t.idmap p with
                nrFree := (t.idmap p).nrFree + 1
                page := some (Function.update page off false) } with
            nrFree := t.nrFree + 1
            last := if ring && decide (i ≤ t.last ∧ t.last ≠ u32Max) then (i + u32Max) % 2 ^ 32
            else t.last }, true)

def idtRemove (t : Idt) (id : ℤ) : Idt × Bool := idtRemove' false t id

/-! ## The command machine -/

inductive IdtCmd where
  | alloc (pageOk : ℕ → Bool)
  | remove (id : ℤ)
  | next (id : ℤ)

inductive IdtOut where
  | id (r : ℤ)
  | removed (b : Bool)
deriving DecidableEq

def idtExec (t : Idt) : IdtCmd → Idt × IdtOut
  | .alloc pageOk => let r := idtAlloc pageOk t; (r.1, .id r.2)
  | .remove id => let r := idtRemove t id; (r.1, .removed r.2)
  | .next id => (t, .id (idtNext t id))

end Skp.Adt
