import Skp.Process.WaitBitServed

/-! # `wait_event` and `__wake_up`

One wait queue of `src/process/wait.c` and the condition its callers wait for, with any number of
threads: callers of `wait_event`, callers that wait in exclusive mode, threads that make the
condition true and then call `__wake_up`, threads that call it without, and threads that make the
condition false. An entry lives on the stack of its caller. Its two links, which `finish_wait` reads
without the lock while a waker may be taking the entry off the queue, are kept as what the caller
sees of them: whether they lead back to the entry itself. Every access outside the lock, and every
access of a waker to an entry, is a step of its own; the 16-bit counters are kept in full as in
`wait_on_bit_lock`. -/
namespace Skp.Process
set_option autoImplicit false
open Skp.Foundations

/-- What a waker does next with the entry it is at: `xadd`, `futex_wake`, and the three writes of
`list_del_init`. -/
inductive WakeStage where
  | xadd
  | futexWake
  | unlink
  | initNext
  | initPrev
deriving DecidableEq

/-- Where a thread is: outside; in `prepare_to_wait` before the lock and before the unlock; before
the test of the condition; in `wait_on` before the read of the entry's word, before the comparison
in `futex_wait` with what it read, asleep there, past it, before the store to `last_cond`; before
the test that closes the loop; in `finish_wait` before the read of the one link, of the other,
before the lock and before the unlock; or in `__wake_up` before the lock, between two entries with
those still to come, at an entry `w`, whose `flags` it has read, and before the unlock. `nr` counts
the exclusive callers that may still be woken. -/
inductive WaitEventPc (T : Type) where
  | idle
  | enqueue
  | enqueued
  | test
  | readValue
  | futex (cond lastCond : ℕ)
  | asleep (cond lastCond : ℕ)
  | woke
  | latch (cond : ℕ)
  | retest
  | finish
  | finishPrev
  | finishLock
  | finishUnlock
  | wakeLock (nr : ℤ)
  | walk (nr : ℤ) (rest : List T)
  | visit (stage : WakeStage) (w : T) (excl : Bool) (nr : ℤ) (rest : List T)
  | wakeUnlock
deriving DecidableEq

/-- `limited` records that a `__wake_up` with a positive `nr` has been called. -/
structure WaitEventState (T : Type) where
  ready : Bool
  taskList : List T
  lock : Option T
  nextSelf : T → Bool
  prevSelf : T → Bool
  excl : T → Bool
  cond : T → ℕ
  lastCond : T → ℕ
  pc : T → WaitEventPc T
  limited : Bool

inductive WaitEventAct (T : Type) where
  | waitEvent (t : T)
  | waitEventMode (t : T) (excl : Bool)
  | setReady (t : T) (nr : ℤ)
  | clearReady
  | wakeUp (t : T) (nr : ℤ)
  | step (t : T)
  | interrupt (t : T)
  | spurious (t : T)

variable {T : Type} [DecidableEq T]

namespace WaitEventState

def goto (s : WaitEventState T) (t : T) (p : WaitEventPc T) : WaitEventState T :=
  { s with pc := Function.update s.pc t p }

/-- `__add_wait_queue` or, in exclusive mode, `__add_wait_queue_tail`, if the entry is on no queue. -/
def prepare (s : WaitEventState T) (t : T) : WaitEventState T :=
  if s.nextSelf t = true then
    { s with
      taskList := if s.excl t then s.taskList ++ [t] else t :: s.taskList
      lastCond := Function.update s.lastCond t (s.cond t)
      nextSelf := Function.update s.nextSelf t false
      prevSelf := Function.update s.prevSelf t false }
  else s

/-- `DEFINE_AUTOREMOVE_WAITQUEUE`: a new entry with `cond` 0 and `last_cond` -1 that is linked to itself. -/
def define (s : WaitEventState T) (t : T) (excl : Bool) : WaitEventState T :=
  { s with
    nextSelf := Function.update s.nextSelf t true
    prevSelf := Function.update s.prevSelf t true
    excl := Function.update s.excl t excl
    cond := Function.update s.cond t 0
    lastCond := Function.update s.lastCond t (2 ^ 16 - 1) }

/-- `list_del_init` of one's own entry, with the lock. -/
def delete (s : WaitEventState T) (t : T) : WaitEventState T :=
  { s with
    taskList := s.taskList.erase t
    nextSelf := Function.update s.nextSelf t true
    prevSelf := Function.update s.prevSelf t true }

end WaitEventState

/-- `(flags & WQ_FLAG_EXCLUSIVE) && !--nr_exclusive` after a wake-up. -/
def afterWake (excl : Bool) (nr : ℤ) (rest : List T) : WaitEventPc T :=
  if excl = true then (if nr - 1 = 0 then .wakeUnlock else .walk (nr - 1) rest) else .walk nr rest

def waitEventNext (s : WaitEventState T) (t : T) : WaitEventPc T → Option (WaitEventState T)
  | .enqueue => if s.lock = none then some ({ s.prepare t with lock := some t }.goto t .enqueued) else none
  | .enqueued => some ({ s with lock := none }.goto t .test)
  | .test => some (s.goto t (if s.ready = true then .finish else .readValue))
  | .readValue =>
      some (s.goto t (if sameCond (s.cond t) (s.lastCond t) = true then
        .futex (s.cond t) (s.lastCond t) else .woke))
  | .futex cond lastCond =>
      some (s.goto t (if sameCond (s.cond t) cond = true ∧ sameCond (s.lastCond t) lastCond =
        true then .asleep cond lastCond
        else .woke))
  | .woke => some (s.goto t (.latch (s.cond t)))
  | .latch cond => some ({ s with lastCond := Function.update s.lastCond t cond }.goto t .retest)
  | .retest => some (s.goto t (if s.ready = true then .finish else .enqueue))
  | .finish => some (s.goto t (if s.nextSelf t = true then .finishPrev else .finishLock))
  | .finishPrev => some (s.goto t (if s.prevSelf t = true then .idle else .finishLock))
  | .finishLock =>
      if s.lock = none then some ({ s.delete t with lock := some t }.goto t .finishUnlock) else none
  | .finishUnlock => some ({ s with lock := none }.goto t .idle)
  | .wakeLock nr =>
      if s.lock = none then some ({ s with lock := some t }.goto t (.walk nr s.taskList)) else none
  | .walk _ [] => some (s.goto t .wakeUnlock)
  | .walk nr (w :: rest) => some (s.goto t (.visit .xadd w (s.excl w) nr rest))
  | .visit .xadd w excl nr rest =>
      some ({ s with cond := Function.update s.cond w (s.cond w + 1) }.goto t
        (.visit .futexWake w excl nr rest))
  | .visit .futexWake w excl nr rest =>
      match s.pc w with
      | .asleep _ _ => some ((s.goto w .woke).goto t (.visit .unlink w excl nr rest))
      | _ => some (s.goto t (.walk nr rest))
  | .visit .unlink w excl nr rest =>
      some ({ s with taskList := s.taskList.erase w }.goto t (.visit .initNext w excl nr rest))
  | .visit .initNext w excl nr rest =>
      some ({ s with nextSelf := Function.update s.nextSelf w true }.goto t (.visit .initPrev w excl nr rest))
  | .visit .initPrev w excl nr rest =>
      some
        ({ s with prevSelf := Function.update s.prevSelf w true }.goto t (afterWake excl nr rest))
  | .wakeUnlock => some ({ s with lock := none }.goto t .idle)
  | .idle => none
  | .asleep _ _ => none

def WaitEventState.wake (s : WaitEventState T) (t : T) (nr : ℤ) : WaitEventState T :=
  { s with limited := s.limited || decide (0 < nr) }.goto t (.wakeLock nr)

def waitEventStep (s : WaitEventState T) : WaitEventAct T → Option (WaitEventState T)
  | .waitEvent t =>
      if s.pc t = .idle then some (if s.ready = true then s else (s.define t false).goto t .enqueue)
        else none
  | .waitEventMode t excl => if s.pc t = .idle then some ((s.define t excl).goto t .enqueue) else none
  | .setReady t nr => if s.pc t = .idle then some ({ s with ready := true }.wake t nr) else none
  | .clearReady => some { s with ready := false }
  | .wakeUp t nr => if s.pc t = .idle then some (s.wake t nr) else none
  | .step t => waitEventNext s t (s.pc t)
  | .interrupt t =>
      match s.pc t with
      | .asleep cond lastCond => some (s.goto t (.futex cond lastCond))
      | _ => none
  | .spurious t =>
      match s.pc t with
      | .asleep _ _ => some (s.goto t .woke)
      | _ => none

def waitEventInit (ready : Bool) : WaitEventState T where
  ready := ready
  taskList := []
  lock := none
  nextSelf := fun _ => true
  prevSelf := fun _ => true
  excl := fun _ => false
  cond := fun _ => 0
  lastCond := fun _ => 0
  pc := fun _ => .idle
  limited := false

end Skp.Process
