import Skp.Adt.IdrModel

/-! # The streams of one slot

`stream_insert`, `stream_remove`, `stream_lookup`, `stream_disable_locked`, `__uev_stream_modify`
and `__uev_stream_delete` of `src/process/event.c`, each as it runs under the slot lock. What the
reactor answers and what memory there is are parameters of a call. `registered` records what the
kernel was told last: the descriptor and id of the last successful `reactor_register_event`, until
`reactor_unregister_event`. `event.c` defines `EVENT_DEBUG`, so its `EVENT_BUG_ON`s are checked in
every build. -/
namespace Skp.Process
set_option autoImplicit false
open Skp.Adt

def eventRead : BitVec 16 := 0x01
def eventWrite : BitVec 16 := 0x02
def eventError : BitVec 16 := 0x04
def eventEof : BitVec 16 := 0x08
def eventEdge : BitVec 16 := 0x80
def eventActionMask : BitVec 16 := eventRead ||| eventWrite

structure UevStream where
  pending : Bool
  attached : Bool
  writeOnce : Bool
  fd : ℤ
  id : BitVec 16
  mask : BitVec 16
deriving DecidableEq

/-- `uev_stream_init`. The id of a stream that is not in the map is `U16_MAX`. -/
def uevStreamInit (fd : ℤ) : UevStream :=
  { pending := false, attached := false, writeOnce := true, fd := fd,
    id := BitVec.ofNat 16 u16Max, mask := 0 }

/-- The descriptor and the soft id in the data word of a `poll_event`. -/
structure PollData where
  fd : ℤ
  id : BitVec 32
deriving DecidableEq

structure UevSlot (E : Type) where
  evidr : Idr E
  nrEvents : BitVec 32
  streams : E → UevStream
  registered : E → Option PollData

/-- The answers of the reactor to one call, 0 for success. -/
structure ReactorCalls where
  register : ℤ
  modify : ℤ
  enable : ℤ

/-- Whether the pages of the bitmap and the nodes of the tree that a call asks for are given. -/
structure Memory where
  pageOk : ℕ → Bool
  nodeOk : ℕ → Bool

variable {E : Type} [DecidableEq E]

namespace UevSlot

def setStream (slot : UevSlot E) (e : E) (s : UevStream) : UevSlot E :=
  { slot with streams := Function.update slot.streams e s }

def register (slot : UevSlot E) (e : E) : UevSlot E :=
  { slot with
    registered := Function.update slot.registered e
      (some { fd := (slot.streams e).fd, id := (slot.streams e).id.setWidth 32 }) }

def unregister (slot : UevSlot E) (e : E) : UevSlot E :=
  { slot with registered := Function.update slot.registered e none }

def setAttached (slot : UevSlot E) (e : E) (b : Bool) : UevSlot E :=
  slot.setStream e { slot.streams e with attached := b }

def setMask (slot : UevSlot E) (e : E) (mask : BitVec 16) : UevSlot E :=
  slot.setStream e { slot.streams e with mask := mask }

end UevSlot

/-- `stream_insert`; `none` where a `BUG_ON` of the map or its own fires. -/
def streamInsert (mem : Memory) (slot : UevSlot E) (e : E) : Option (UevSlot E × ℤ) :=
  if (slot.streams e).pending then some (slot, 0)
  else
    (idrAlloc mem.pageOk mem.nodeOk slot.evidr (some e)).bind fun r =>
      if r.2 < 0 then some ({ slot with evidr := r.1 }, eNOMEM)
      else if u16Max < r.2 then none
      else
        some
          ({ slot.setStream e { slot.streams e with pending := true, id := BitVec.ofInt 16 r.2 } with
              evidr := r.1
              nrEvents := slot.nrEvents + 1 }, 0)

/-- `stream_remove`; the stream that the map gives back is compared. -/
def streamRemove (slot : UevSlot E) (e : E) : Option (UevSlot E × ℤ) :=
  if !(slot.streams e).pending then some (slot, 0)
  else
    (idrRemove slot.evidr (slot.streams e).id.toNat).bind fun r =>
      if r.2 ≠ some e then none
      else
        some
          ({ slot.setStream e { slot.streams e with pending := false, id := BitVec.ofNat 16 u16Max } with
              evidr := r.1
              nrEvents := slot.nrEvents - 1 }, 1)

/-- `stream_lookup`; the outer `none` is its `EVENT_BUG_ON`. The id of the kernel is read as an
`int`. The streams here are those of this slot, so the one on the slot's index holds. -/
def streamLookup (slot : UevSlot E) (pd : PollData) : Option (Option E) :=
  match idrFind slot.evidr pd.id.toInt with
  | none => some none
  | some e =>
      if (slot.streams e).fd ≠ pd.fd then some none
      else if !(slot.streams e).pending then none
      else some (some e)

/-- `stream_disable_locked`; the answer of the reactor is not looked at. -/
def streamDisableLocked (slot : UevSlot E) (e : E) (mask : BitVec 16) : UevSlot E :=
  if mask = 0 then slot
  else
    let old := (slot.streams e).mask
    let new := old &&& ~~~(mask &&& (eventActionMask ||| eventEdge))
    if new = old then slot else slot.setMask e new

/-- The label `attach_fail`. -/
def attachFail (slot : UevSlot E) (e : E) (rc : ℤ) : Option (UevSlot E × ℤ) :=
  (streamRemove (slot.setAttached e false) e).map fun r => (r.1, rc)

/-- The label `modify_fail`. -/
def modifyFail (slot : UevSlot E) (e : E) (rc : ℤ) : Option (UevSlot E × ℤ) :=
  attachFail (slot.unregister e) e rc

/-- `__uev_stream_modify` from `test_set_ATTACHED` on, the stream being in the map. -/
def attachLocked (calls : ReactorCalls) (slot : UevSlot E) (e : E) (mask : BitVec 16) :
    Option (UevSlot E × ℤ) :=
  let s := slot.streams e
  if !s.attached then
    let slot := slot.setAttached e true
    if calls.register ≠ 0 then attachFail slot e calls.register
      else some ((slot.register e).setMask e mask, 0)
  else if (mask ≠ 0 ∨ s.mask ≠ 0) ∧ mask ≠ s.mask ∧ calls.modify ≠ 0 then modifyFail slot e calls.modify
  else if s.mask &&& eventEdge ≠ 0 ∧ mask &&& s.mask &&& eventActionMask ≠ 0 ∧ calls.enable ≠ 0 then
    modifyFail slot e calls.enable
  else some (slot.setMask e mask, 0)

/-- `__uev_stream_modify`; `up` says whether `get_slot_and_lock` finds the slot running. -/
def uevStreamModify (up : Bool) (mem : Memory) (calls : ReactorCalls) (slot : UevSlot E) (e : E)
    (mask : BitVec 16) :
    Option (UevSlot E × ℤ) :=
  if mask &&& ~~~(eventActionMask ||| eventEdge) ≠ 0 then some (slot, eINVAL)
  else if !up then some (slot, eNODEV)
  else (streamInsert mem slot e).bind fun r => if r.2 ≠ 0 then some r else attachLocked calls r.1 e mask

/-- `__uev_stream_delete` from the label `pending` to `stream_remove`. A synchronous call that finds
the stream pending again after its wait comes back here. -/
def uevStreamDelete (slot : UevSlot E) (e : E) : Option (UevSlot E × ℤ) :=
  if (slot.streams e).attached then streamRemove ((slot.setAttached e false).unregister e) e
    else streamRemove slot e

/-- The slot after `idr_init_base` and `insert_notifier`, every stream being initialised with a
descriptor; `none` where a `BUG_ON` or `BUILD_BUG_ON` ends it. -/
def startSlot (events : ℕ) (mem : Memory) (fds : E → ℤ) (notifier : E) : Option (UevSlot E) :=
  if u16Max < events then none
  else
    (idrInitBase 0 (events - 1)).bind fun idr =>
      let slot : UevSlot E :=
        { evidr := idr
          nrEvents := 0
          streams := fun e => uevStreamInit (fds e)
          registered := fun _ => none }
      (streamInsert mem slot notifier).bind fun r =>
        if r.2 ≠ 0 then none
        else some (((r.1.setAttached notifier true).register notifier).setMask notifier eventRead)

end Skp.Process
