import Skp.Foundations.Runs

/-! # The object pool of a cache

`__objpool_free`, `__objpool_alloc` and `objpool_flush` of `src/mm/slab.c` on one cache, by any
number of threads. The pool is a chain through the first words of the freed objects; its head and
the word with the number of objects and the version are read one after the other and exchanged
together. Each read, each write of a link and each exchange is a step. An object outside the pool
belongs to its user, who may write anything into it at any time. -/
namespace Skp.Mm
set_option autoImplicit false
open Skp.Foundations

/-- The word of `struct cache_objpool` with its two bit fields. -/
structure NrVersion where
  nr : BitVec 16
  verison : BitVec 16
deriving DecidableEq

/-- `SLAB_MIN_OBJECTS`, `clamp` and `roundup_pow_of_two` of `prepare_objpool`. -/
def prepareObjpool (minObjects objects : ℕ) : ℕ :=
  let objs := if minObjects ≤ objects then objects / 8 else objects / 16
  2 ^ Nat.clog 2 (max 64 (min objs 512))

/-- `TLS_FREELIST_CAP * 2`, the capacity of a cache that is not prepared. -/
def initObjpoolCap : ℕ := 128 * 2

/-- Where a thread is. A call of `objpool_flush` inside `__objpool_free(x)` carries `x`; what was
read from the pool is carried until the exchange. `bug` is a `SLAB_BUG_ON` that fired. -/
inductive ObjpoolPc (X : Type) where
  | idle
  | freeHead (x : X)
  | freeVersion (x : X) (head : Option X)
  | freeLink (x : X) (head : Option X) (nv : NrVersion)
  | freeSwap (x : X) (head : Option X) (nv : NrVersion)
  | allocHead
  | allocVersion (head : Option X)
  | allocLink (head : X) (nv : NrVersion)
  | allocSwap (head : X) (nv : NrVersion) (link : Option X)
  | flushHead (x : Option X)
  | flushVersion (x head : Option X)
  | flushSwap (x head : Option X) (nv : NrVersion)
  | flushNext (x obj : Option X) (nr : BitVec 16)
  | flushGive (x : Option X) (obj : X) (next : Option X) (nr : BitVec 16)
  | bug
deriving DecidableEq

/-- Who has an object: its user, a call that frees it, the pool, or a flush that has taken it from
the pool. -/
inductive ObjPlace (T : Type) where
  | out
  | freeing (t : T)
  | pool
  | flushed (t : T)
deriving DecidableEq

/-- The memory, and the history: the number of successful exchanges, where the objects are, and how
often each was put into the pool and taken from it by an allocation or a flush. -/
structure ObjpoolMem (X T : Type) where
  nrVersion : NrVersion
  head : Option X
  link : X → Option X
  swaps : ℕ
  place : X → ObjPlace T
  freed : X → ℕ
  taken : X → ℕ

/-- `started t` is the number of exchanges before the call of `t`. -/
structure ObjpoolState (X T : Type) where
  mem : ObjpoolMem X T
  pc : T → ObjpoolPc X
  started : T → ℕ

inductive ObjpoolAct (X T : Type) where
  | free (t : T) (x : X)
  | alloc (t : T)
  | flush (t : T)
  | step (t : T)
  | write (x : X) (v : Option X)

variable {X T : Type} [DecidableEq X] [DecidableEq T]

/-- `cmpxchg_double`. -/
def cmpxchgDouble (m : ObjpoolMem X T) (nv : NrVersion) (head : Option X) (nv' : NrVersion)
    (head' : Option X) :
    Option (ObjpoolMem X T) :=
  if m.nrVersion = nv ∧ m.head = head then
    some { m with nrVersion := nv', head := head', swaps := m.swaps + 1 } else none

/-- The return from `objpool_flush`, to `again` if it was called there. -/
def flushReturn : Option X → ObjpoolPc X
  | none => .idle
  | some x => .freeHead x

def pushed (m : ObjpoolMem X T) (x : X) : ObjpoolMem X T :=
  { m with place := Function.update m.place x .pool, freed := Function.update m.freed x (m.freed x + 1) }

def delivered (m : ObjpoolMem X T) (x : X) : ObjpoolMem X T :=
  { m with place := Function.update m.place x .out, taken := Function.update m.taken x (m.taken x + 1) }

def emptied (m : ObjpoolMem X T) (t : T) : ObjpoolMem X T :=
  { m with place := fun x => if m.place x = .pool then .flushed t else m.place x }

/-- The next step of a thread inside a call. -/
def objpoolNext (cap : ℕ) (m : ObjpoolMem X T) (t : T) : ObjpoolPc X → Option (ObjpoolMem X T × ObjpoolPc X)
  | .idle => none
  | .freeHead x => some (m, .freeVersion x m.head)
  | .freeVersion x head =>
      if cap < m.nrVersion.nr.toNat + 1 then some (m, .flushHead (some x))
        else some (m, .freeLink x head m.nrVersion)
  | .freeLink x head nv => some ({ m with link := Function.update m.link x head }, .freeSwap x head nv)
  | .freeSwap x head nv =>
      match cmpxchgDouble m nv head ⟨nv.nr + 1, nv.verison + 1⟩ (some x) with
      | some m => some (pushed m x, .idle)
      | none => some (m, .freeHead x)
  | .allocHead => some (m, .allocVersion m.head)
  | .allocVersion none => some (m, .idle)
  | .allocVersion (some head) => if m.nrVersion.nr = 0 then some (m, .idle)
      else some (m, .allocLink head m.nrVersion)
  | .allocLink head nv => some (m, .allocSwap head nv (m.link head))
  | .allocSwap head nv link =>
      match cmpxchgDouble m nv (some head) ⟨nv.nr - 1, nv.verison + 1⟩ link with
      | some m => some (delivered m head, .idle)
      | none => some (m, .allocHead)
  | .flushHead x => some (m, .flushVersion x m.head)
  | .flushVersion x head =>
      if m.nrVersion.nr = 0 then some (m, flushReturn x) else some (m, .flushSwap x head m.nrVersion)
  | .flushSwap x head nv =>
      match cmpxchgDouble m nv head ⟨0, nv.verison + 1⟩ none with
      | some m => some (emptied m t, if nv.nr = 0 ∨ head = none then .bug else .flushNext x head nv.nr)
      | none => some (m, .flushHead x)
  | .flushNext x none nr => some (m, if nr ≠ 0 then .bug else flushReturn x)
  | .flushNext x (some obj) nr => some (m, .flushGive x obj (m.link obj) (nr - 1))
  | .flushGive x obj next nr => some (delivered m obj, .flushNext x next nr)
  | .bug => none

/-- A thread that is in no call enters one. -/
def objpoolEnter (s : ObjpoolState X T) (t : T) (pc : ObjpoolPc X) : Option (ObjpoolState X T) :=
  if s.pc t = .idle then
    some { s with pc := Function.update s.pc t pc, started := Function.update s.started t s.mem.swaps }
  else none

def objpoolStep (cap : ℕ) (s : ObjpoolState X T) : ObjpoolAct X T → Option (ObjpoolState X T)
  | .free t x =>
      if s.mem.place x = .out then
        (objpoolEnter s t (.freeHead x)).map fun s =>
          { s with mem := { s.mem with place := Function.update s.mem.place x (.freeing t) } }
      else none
  | .alloc t => objpoolEnter s t .allocHead
  | .flush t => objpoolEnter s t (.flushHead none)
  | .step t => (objpoolNext cap s.mem t (s.pc t)).map fun r =>
      { s with mem := r.1, pc := Function.update s.pc t r.2 }
  | .write x v =>
      if s.mem.place x = .out then
        some { s with mem := { s.mem with link := Function.update s.mem.link x v } } else none

def objpoolInit (link : X → Option X) : ObjpoolState X T where
  mem :=
    { nrVersion := ⟨0, 0⟩, head := none, link := link, swaps := 0, place := fun _ => .out,
      freed := fun _ => 0,
           taken := fun _ => 0 }
  pc := fun _ => .idle
  started := fun _ => 0

end Skp.Mm
