import Skp.Foundations.Runs

/-! # `flush_workqueue` and the removals it waits for

The two sequences of one workqueue, the flushers on its `wait_flusher` list and the threads that run
`pwq_dec_nr_in_flight`, from `src/process/workqueue.c` and `src/process/wait.c`. A flusher holds the
list's lock from its copies of the two sequences to its wait, but both sequences move without it; a
removal advances `remove_seq` and tests the list without that lock, and takes it to wake. Works are
named by the order of their insertion; pools, `max_active` and delayed works only decide which work
is removed next, so any finished work may be. -/
namespace Skp.Process
set_option autoImplicit false
open Skp.Foundations

/-- A work of the queue: not inserted yet, inserted, done (executed or cancelled), removed. -/
inductive WorkPhase where
  | absent
  | queued
  | finished
  | removed
deriving DecidableEq

/-- `flush_workqueue`: outside, after its copy of `insert_seq`, after that of `remove_seq`, on the
list, waiting with the lock released. -/
inductive FlPc where
  | idle
  | copied
  | snapped
  | joined
  | blocked
deriving DecidableEq

/-- `pwq_dec_nr_in_flight`: outside, or with its own new value of `remove_seq` before the test of the list
or before the wake. The natural number is that value before it was cut to 16 bits. -/
inductive WkPc where
  | idle
  | advanced (seq : BitVec 16) (ordinal : ℕ)
  | waking (seq : BitVec 16) (ordinal : ℕ)
deriving DecidableEq

/-- `insSnap` and `remSnap` are the two fields of `struct wfl_wait`, `waiters` is `wait_flusher`.
The last five fields only record the history: how many works were inserted and removed, how many had
been inserted when a flusher copied `insert_seq`, whether `remove_seq` has had the value of that
copy then or since, and whether its flush has returned. -/
structure FlushState (F W : Type) where
  insertSeq : BitVec 16
  removeSeq : BitVec 16
  work : ℕ → WorkPhase
  lock : Option F
  pc : F → FlPc
  insSnap : F → BitVec 16
  remSnap : F → BitVec 16
  waiters : List F
  worker : W → WkPc
  nrInserted : ℕ
  nrRemoved : ℕ
  callIns : F → ℕ
  reached : F → Bool
  returned : F → Bool

/-- `asleep` says which flushers `futex_wake` finds asleep; only those leave the list when woken. -/
inductive FlushAct (F W : Type) where
  | queueWork
  | finish (i : ℕ)
  | advance (w : W) (i : ℕ)
  | testList (w : W)
  | wake (w : W) (asleep : F → Bool)
  | copyInsert (f : F)
  | copyRemove (f : F)
  | join (f : F)
  | wait (f : F)
  | leave (f : F)

def flushInit {F W : Type} : FlushState F W where
  insertSeq := 0
  removeSeq := 0
  work := fun _ => .absent
  lock := none
  pc := fun _ => .idle
  insSnap := fun _ => 0
  remSnap := fun _ => 0
  waiters := []
  worker := fun _ => .idle
  nrInserted := 0
  nrRemoved := 0
  callIns := fun _ => 0
  reached := fun _ => false
  returned := fun _ => false

variable {F W : Type} [DecidableEq F] [DecidableEq W]

/-- `___wake_up_common` over the list with `wfl_wakefn`: a waiter whose snapshot is the key takes the key as
its `remove_seq`. -/
def wakeFlushers (s : FlushState F W) (key : BitVec 16) (asleep : F → Bool) : FlushState F W :=
  { s with
    remSnap := fun f => if f ∈ s.waiters ∧ s.insSnap f = key then key else s.remSnap f
    waiters := s.waiters.filter fun f => !(s.insSnap f == key && asleep f) }

/-- The end of `flush_workqueue`: off the list, lock released. -/
def flushReturn (s : FlushState F W) (f : F) : FlushState F W :=
  { s with
    waiters := s.waiters.erase f
    lock := none
    pc := Function.update s.pc f .idle
    returned := Function.update s.returned f true }

def flushStep (s : FlushState F W) : FlushAct F W → Option (FlushState F W)
  | .queueWork =>
      some { s with
        insertSeq := s.insertSeq + 1
        work := Function.update s.work s.nrInserted .queued
        nrInserted := s.nrInserted + 1 }
  | .finish i =>
      if s.work i = .queued then some { s with work := Function.update s.work i .finished } else none
  | .advance w i =>
      if s.worker w = .idle ∧ s.work i = .finished then
        some { s with
          removeSeq := s.removeSeq + 1
          work := Function.update s.work i .removed
          nrRemoved := s.nrRemoved + 1
          worker := Function.update s.worker w (.advanced (s.removeSeq + 1) (s.nrRemoved + 1))
          reached := fun f => s.reached f || (s.pc f != .idle && s.insSnap f == s.removeSeq + 1) }
      else none
  | .testList w =>
      match s.worker w with
      | .advanced seq n =>
          some { s with worker := Function.update s.worker w (if s.waiters.isEmpty then .idle
            else .waking seq n) }
      | _ => none
  | .wake w asleep =>
      match s.worker w, s.lock with
      | .waking seq _, none =>
          some { wakeFlushers s seq asleep with worker := Function.update s.worker w .idle }
      | _, _ => none
  | .copyInsert f =>
      if s.pc f = .idle ∧ s.lock = none then
        some { s with
          lock := some f
          pc := Function.update s.pc f .copied
          insSnap := Function.update s.insSnap f s.insertSeq
          callIns := Function.update s.callIns f s.nrInserted
          reached := Function.update s.reached f (s.removeSeq == s.insertSeq)
          returned := Function.update s.returned f false }
      else none
  | .copyRemove f =>
      if s.pc f = .copied then
        some { s with
          remSnap := Function.update s.remSnap f s.removeSeq
          pc := Function.update s.pc f .snapped }
      else none
  | .join f =>
      if s.pc f = .snapped then
        some { s with waiters := f :: s.waiters, pc := Function.update s.pc f .joined }
      else none
  | .wait f =>
      if s.pc f = .joined then
        if s.insSnap f = s.remSnap f then some (flushReturn s f)
        else some { s with lock := none, pc := Function.update s.pc f .blocked }
      else none
  | .leave f =>
      if s.pc f = .blocked ∧ s.lock = none ∧ s.insSnap f = s.remSnap f then some (flushReturn s f) else none

end Skp.Process
