import Skp.Foundations.ByteMem
import Skp.Foundations.Refinement

/-! # The vector of `adt/vector.c`

A vector's block is the bytes from `start` up to `end`, given by their offsets; an access outside
fails. The answer of `malloc` comes from outside, and no block is larger than the address space of
57 bits. -/
namespace Skp.Adt
set_option autoImplicit false
open Skp.Foundations

structure Vec where
  start : ℤ
  endAt : ℤ
  nrElems : ℕ
  elemSize : ℕ
  mem : ℕ → UInt8

/-- The compare callback decides equality with the key that an element has. -/
structure VectorOps (K : Type*) where
  compareElem : List UInt8 → K → ℤ
  keyOf : List UInt8 → K
  compareElem_eq_zero : ∀ e k, compareElem e k = 0 ↔ keyOf e = k

/-- `VEC_NR_ELEMS` with and without `DEBUG`. -/
def vecNrElems (debug : Bool) : ℕ := if debug then 16 else 128

namespace Vec
variable (v : Vec)

/-- `nr_elems * elem_size`, an unsigned int. -/
def size : ℕ := v.nrElems * v.elemSize % 2 ^ 32

def room : ℕ := (v.endAt - v.start).toNat

def load (ptr : ℤ) (n : ℕ) : Option (List UInt8) :=
  if v.start ≤ ptr ∧ ptr + n ≤ v.endAt then some (readBytes v.mem (ptr - v.start).toNat n) else none

def store (ptr : ℤ) (bs : List UInt8) : Option Vec :=
  if v.start ≤ ptr ∧ ptr + bs.length ≤ v.endAt then
    some { v with mem := writeBytes v.mem (ptr - v.start).toNat bs } else none

end Vec

/-- What `malloc` returns, 0 for `NULL`, and what the new block holds. -/
structure Malloc where
  addr : ℕ
  junk : ℕ → UInt8

def Malloc.alloc (a : Malloc) (size : ℕ) : Option ℤ :=
  if a.addr = 0 ∨ 2 ^ 57 < size then none else some (a.addr : ℤ)

/-! ## The functions -/

/-- The conditions of `BUG_ON` hold. -/
def vectorInit (elemSize : ℕ) : Option Vec :=
  if elemSize = 0 then none
  else if 2 ^ 32 - 1 ≤ elemSize then none
  else some { start := 0, endAt := 0, nrElems := 0, elemSize := elemSize, mem := fun _ => 0 }

/-- The bytes of the block go to the new one. -/
def copyBlock (v new : Vec) : Option Vec :=
  if v.room ≠ 0 then (v.load v.start v.room).bind fun bs => new.store new.start bs else some new

/-- `__expand`, with the offset; without one for `-ENOMEM`. -/
def expand (debug : Bool) (v : Vec) (a : Malloc) : Option (Option (Vec × ℤ)) :=
  if v.size < v.room then some (some (v, 0))
  else
    let newSize := (v.room + vecNrElems debug * v.elemSize % 2 ^ 32) % 2 ^ 64
    match a.alloc newSize with
    | none => some none
    | some ptr =>
        (copyBlock v { v with start := ptr, endAt := ptr + newSize, mem := a.junk }).map fun new =>
          some (new, ptr - v.start)

section Find
variable {K : Type*} (ops : VectorOps K)

/-- `vector_for_each_elem` up to an element with the key: where it stops, and whether it has found one. -/
def findElem (v : Vec) (key : K) : ℕ → ℤ → Option (ℤ × Bool)
  | 0, _ => none
  | fuel + 1, ptr =>
      if ptr < v.start + v.size then
        (v.load ptr v.elemSize).bind fun e =>
          if ops.compareElem e key = 0 then some (ptr, true) else findElem v key fuel (ptr + v.elemSize)
      else some (ptr, false)

inductive InsertResult where
  | present (ptr : ℤ)
  | noMemory
  | added

/-- `__vector_insert`; each case of `__copy_elem` copies the bytes of the element. -/
def vectorInsert (debug : Bool) (v : Vec) (a : Malloc) (key : K) (elem : List UInt8) :
    Option (Vec × InsertResult) :=
  (findElem ops v key (v.nrElems + 1) v.start).bind fun r =>
    if r.2 then some (v, .present r.1)
    else
      (expand debug v a).bind fun e =>
        match e with
        | none => some (v, .noMemory)
        | some (v, offset) =>
            let ptr := if r.1 = 0 then v.start else r.1 + offset
            (v.store ptr elem).map fun v => ({ v with nrElems := (v.nrElems + 1) % 2 ^ 32 }, .added)

/-- `memmove` in the block. -/
def Vec.move (v : Vec) (dst src : ℤ) (n : ℕ) : Option Vec := (v.load src n).bind fun bs => v.store dst bs

/-- The elements behind the one at `ptr` move to its place. -/
def closeGap (v : Vec) (ptr : ℤ) : Option Vec :=
  let size := ((v.start + v.size - (ptr + v.elemSize)) % 2 ^ 64).toNat
  if size ≠ 0 then v.move ptr (ptr + v.elemSize) size else some v

/-- `__vector_remove`: the element, when the caller wants it, or `-ENOENT`. -/
def vectorRemove (v : Vec) (key : K) (want : Bool) : Option (Vec × Option (Option (List UInt8))) :=
  (findElem ops v key (v.nrElems + 1) v.start).bind fun r =>
    if r.2 then
      (if want then (v.load r.1 v.elemSize).map some else some none).bind fun e =>
        (closeGap v r.1).map fun v => ({ v with nrElems := (v.nrElems + 2 ^ 32 - 1) % 2 ^ 32 }, some e)
    else some (v, none)

end Find

/-- The loop of `__vector_copy`: `ptr` goes through the source, `start` through the destination. -/
def copyElems (dst src : ℕ) : ℕ → (ℕ → Vec) → ℤ → ℤ → Option (ℕ → Vec)
  | 0, _, _, _ => none
  | fuel + 1, s, ptr, start =>
      if ptr < (s src).start + (s src).size then do
        let e ← (s src).load ptr (s src).elemSize
        let v ← (s dst).store start e
        let s := Function.update s dst v
        copyElems dst src fuel s (ptr + (s src).elemSize) (start + (s src).elemSize)
      else some s

/-- `__vector_copy` between two vectors of the family `s`: whether it returns 0 rather than
`-ENOMEM`. The callback changes no vector. -/
def vectorCopy (s : ℕ → Vec) (dst src : ℕ) (a : Malloc) : Option ((ℕ → Vec) × Bool) :=
  let size := (s src).size
  if size = 0 then some (s, true)
  else
    match a.alloc size with
    | none => some (s, false)
    | some start =>
        let v : Vec :=
          { start := start, endAt := start + size, nrElems := (s src).nrElems,
            elemSize := (s src).elemSize, mem := a.junk }
        let s := Function.update s dst v
        (copyElems dst src ((s src).nrElems + 1) s (s src).start start).map fun s => (s, true)

/-! ## Calls -/

/-- A call on one or two vectors of a family; an element is inserted under its own key. -/
inductive VecCall (K : Type*) (elemSize : ℕ) where
  | insert (i : ℕ) (elem : { bs : List UInt8 // bs.length = elemSize }) (a : Malloc)
  | remove (i : ℕ) (key : K) (want : Bool)
  | copy (dst src : ℕ) (a : Malloc)

/-- What the caller sees: the element that a returned pointer leads to, and the codes. -/
inductive VecOut where
  | present (elem : List UInt8)
  | added
  | removed (elem : Option (List UInt8))
  | noEntry
  | copied
  | noMemory

variable {K : Type*} {elemSize : ℕ}

def vecCall (debug : Bool) (ops : VectorOps K) (s : ℕ → Vec) :
    VecCall K elemSize → Option ((ℕ → Vec) × VecOut)
  | .insert i elem a =>
      (vectorInsert ops debug (s i) a (ops.keyOf elem.1) elem.1).bind fun r =>
        match r.2 with
        | .present ptr => (r.1.load ptr r.1.elemSize).map fun e => (Function.update s i r.1, .present e)
        | .noMemory => some (Function.update s i r.1, .noMemory)
        | .added => some (Function.update s i r.1, .added)
  | .remove i key want =>
      (vectorRemove ops (s i) key want).map fun r =>
        (Function.update s i r.1, match r.2 with
          | none => .noEntry
          | some e => .removed e)
  | .copy dst src a => (vectorCopy s dst src a).map fun r => (r.1, if r.2 then .copied else .noMemory)

end Skp.Adt
