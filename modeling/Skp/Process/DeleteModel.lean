import Skp.Foundations.Runs

/-! # Synchronous deletion of timers and streams

`__uev_timer_delete` and `__uev_stream_delete` of `src/process/event.c` with the slots' workers and the calls
that arm an event. Each slot has its own lock, and the slot of an event is the index in its flags word, so
a thread first reads the index, then takes that slot's lock and reads the index again. Under a lock a
section is one step, except that a deletion that has changed the index still holds the lock: another slot's
lock is free in between. `none` is `EVENT_IDX_MAX`. Ids, masks, the reactor and deadlines do not decide
which event is pending or current, so `members` is the slot's timer heap and its table of streams. -/
namespace Skp.Process
set_option autoImplicit false
open Skp.Foundations

inductive SlotHolder (T : Type) where
  | worker
  | thread (t : T)
deriving DecidableEq

/-- What a thread wants with an event: a synchronous deletion that moves it to the index `dest`, or a call of
`__uev_timer_modify` or `__uev_stream_modify`, which the reactor may refuse for a stream. -/
inductive EventCall (S : Type) where
  | delete (dest : Option S)
  | modify (accepted : Bool)
deriving DecidableEq

/-- Where a thread is: at `try`, in `acquire_slot`, in `uev_core_setcpu` with its hint, before `slot_lock`, in
the wait of `uev_wait_finish_sync`, or past `uev_core_chgidx` with the lock still held. -/
inductive DelPc (S E : Type) where
  | idle
  | enter (e : E) (dest : Option S)
  | choose (e : E) (call : EventCall S)
  | setIdx (x : S) (e : E) (call : EventCall S)
  | locking (x : S) (e : E) (call : EventCall S)
  | waiting (x : S) (e : E) (dest : Option S)
  | release (x : S) (e : E)
deriving DecidableEq

/-- `rearmed t` records that a modify call armed the event of thread `t` after `t` changed its index. -/
structure DelState (S E T : Type) where
  index : E → Option S
  pending : E → Bool
  members : S → E → Bool
  current : S → Option E
  running : S → Bool
  lock : S → Option (SlotHolder T)
  pc : T → DelPc S E
  rearmed : T → Bool

inductive DelAct (S E T : Type) where
  | call (t : T) (e : E) (c : EventCall S)
  | enter (t : T)
  | choose (t : T) (hint : S)
  | setIdx (t : T)
  | lockSlot (t : T)
  | wake (t : T)
  | release (t : T)
  | deleteAsync (e : E) (x : S)
  | workerLock (x : S)
  | invoke (x : S) (e : E)
  | invokeFinish (x : S)
  | workerUnlock (x : S)
  | stop (x : S)

variable {S E T : Type} [DecidableEq S] [DecidableEq E] [DecidableEq T]

/-- `timer_remove` and `stream_remove`: nothing happens to an event that is not pending. -/
def uevRemove (s : DelState S E T) (x : S) (e : E) : DelState S E T :=
  if s.pending e then
    { s with
      pending := Function.update s.pending e false
      members := Function.update s.members x (Function.update (s.members x) e false) }
  else s

def releases (e : E) : DelPc S E → Bool
  | .release _ f => decide (f = e)
  | _ => false

/-- `timer_insert` and `stream_insert` after `test_set_PENDING`. A timer that is pending is removed and
inserted again, a stream that is pending stays. -/
def uevInsert (s : DelState S E T) (x : S) (e : E) : DelState S E T :=
  { s with
    pending := Function.update s.pending e true
    members := Function.update s.members x (Function.update (s.members x) e true)
    rearmed := fun t => s.rearmed t || releases e (s.pc t) }

/-- `uev_core_chgidx`: a pending event keeps its index. -/
def uevCoreChgidx (s : DelState S E T) (e : E) (dest : Option S) : DelState S E T :=
  if s.pending e then s else { s with index := Function.update s.index e dest }

/-- The end of a synchronous deletion under the lock of slot `x`, up to the release. -/
def deleteFinish (s : DelState S E T) (t : T) (x : S) (e : E) (dest : Option S) : DelState S E T :=
  { uevCoreChgidx s e dest with
    lock := Function.update s.lock x (some (.thread t))
    pc := Function.update s.pc t (.release x e)
    rearmed := Function.update s.rearmed t false }

/-- From the label `pending` under the lock of slot `x`: the event is removed, and the call waits when its
callback is the one the slot runs. -/
def deletePending (s : DelState S E T) (t : T) (x : S) (e : E) (dest : Option S) : DelState S E T :=
  if s.current x = some e then
    { uevRemove s x e with pc := Function.update s.pc t (.waiting x e dest) }
  else deleteFinish (uevRemove s x e) t x e dest

/-- `__uev_timer_modify` and `__uev_stream_modify` under the lock: a refused stream is removed again. -/
def modifyLocked (s : DelState S E T) (t : T) (x : S) (e : E) (accepted : Bool) : DelState S E T :=
  let s := { s with pc := Function.update s.pc t .idle }
  if accepted then uevInsert s x e else uevRemove s x e

/-- `loc_slot`: a slot that has stopped is not used. -/
def locSlot (s : DelState S E T) (t : T) (x : S) (e : E) (c : EventCall S) : DelState S E T :=
  { s with pc := Function.update s.pc t (if s.running x then .locking x e c else .idle) }

/-- A round of the loop of `uev_wait_finish_sync` with the lock taken again, and what the deletion
does with its result: `-EAGAIN` when the index has changed, `-EBUSY` when the event is pending
again. -/
def waitRound (s : DelState S E T) (t : T) (x : S) (e : E) (dest : Option S) : DelState S E T :=
  if s.running x ∧ s.current x = some e then s
  else if s.index e ≠ some x then { s with pc := Function.update s.pc t (.enter e dest) }
  else if s.pending e then
    if s.running x then deletePending s t x e dest else { s with pc := Function.update s.pc t .idle }
  else deleteFinish s t x e dest

/-- `isTimer` tells the timers, which stop being pending when they expire, from the streams. -/
def delStep (isTimer : E → Bool) (s : DelState S E T) : DelAct S E T → Option (DelState S E T)
  | .call t e c =>
      if s.pc t = .idle then
        match c with
        | .delete dest => some { s with pc := Function.update s.pc t (.enter e dest) }
        | .modify accepted => some { s with pc := Function.update s.pc t (.choose e (.modify accepted)) }
      else none
  | .enter t =>
      match s.pc t with
      | .enter e dest =>
          -- without an index the deletion only waits for the slots' callbacks
          if s.index e = none then some { s with pc := Function.update s.pc t .idle }
          else some { s with pc := Function.update s.pc t (.choose e (.delete dest)) }
      | _ => none
  | .choose t hint =>
      match s.pc t with
      | .choose e c =>
          match s.index e with
          | some x => some (locSlot s t x e c)
          | none => some { s with pc := Function.update s.pc t (.setIdx hint e c) }
      | _ => none
  | .setIdx t =>
      match s.pc t with
      | .setIdx x e c =>
          -- the exchange leaves an index that another thread has set
          some (locSlot { s with
            index := if s.index e = none then Function.update s.index e (some x) else s.index } t x e c)
      | _ => none
  | .lockSlot t =>
      match s.pc t with
      | .locking x e c =>
          if s.lock x = none then
            if s.index e = some x then
              match c with
              | .delete dest => some (deletePending s t x e dest)
              | .modify accepted => some (modifyLocked s t x e (isTimer e || accepted))
            else some { s with pc := Function.update s.pc t (.choose e c) }
          else none
      | _ => none
  | .wake t =>
      match s.pc t with
      | .waiting x e dest => if s.lock x = none then some (waitRound s t x e dest) else none
      | _ => none
  | .release t =>
      match s.pc t with
      | .release x _ =>
          some { s with lock := Function.update s.lock x none, pc := Function.update s.pc t .idle }
      | _ => none
  | .deleteAsync e x =>
      if s.lock x = none ∧ s.index e = some x then some (uevRemove s x e) else none
  | .workerLock x =>
      if s.lock x = none ∧ s.running x ∧ s.current x = none then
        some { s with lock := Function.update s.lock x (some .worker) }
      else none
  | .invoke x e =>
      if s.lock x = some .worker ∧ s.members x e then
        let s := if isTimer e then uevRemove s x e else s
        some { s with current := Function.update s.current x (some e), lock := Function.update s.lock x none }
      else none
  | .invokeFinish x =>
      if s.lock x = none ∧ s.current x ≠ none then
        some { s with
          current := Function.update s.current x none
          lock := Function.update s.lock x (some .worker) }
      else none
  | .workerUnlock x =>
      if s.lock x = some .worker then some { s with lock := Function.update s.lock x none } else none
  | .stop x =>
      if s.lock x = none ∧ s.current x = none then
        some { s with running := Function.update s.running x false }
      else none

def delInit : DelState S E T where
  index := fun _ => none
  pending := fun _ => false
  members := fun _ _ => false
  current := fun _ => none
  running := fun _ => true
  lock := fun _ => none
  pc := fun _ => .idle
  rearmed := fun _ => false

end Skp.Process
