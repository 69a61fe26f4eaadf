import Skp.Foundations.Runs

/-! # `complete` and `wait_for_completion`

One `completion_t` of `src/process/completion.c` with the wait queue entries of `src/process/wait.c`, for any
number of callers of `__complete(x, 1)` and of `wait_for_completion_timeout` without a timeout. A section
under the queue's lock is one step. `wait_on_timeout` runs without the lock: its read of the entry's word,
the kernel's comparison in `futex_wait` and the two halves of the last assignment are steps of their own.
The two 16-bit counters of an entry are kept in full and compared modulo `2 ^ 16`. -/
namespace Skp.Process
set_option autoImplicit false
open Skp.Foundations

/-- Where a caller of `wait_for_completion_timeout` is: outside, before the read of its entry's word, in
`futex_wait` with the value of `cond` it read, asleep there, past it, holding the `cond` it will write to
`last_cond`, and before it takes the lock again. -/
inductive CompPc where
  | idle
  | looping
  | futex (seen : ℕ)
  | asleep (seen : ℕ)
  | woke
  | latch (seen : ℕ)
  | relock
deriving DecidableEq

/-- `waiters` is the queue's `task_list`. The last three fields record the history: the threads a wake-up
has taken off the queue and that have not tested `done` since, and the completes and successful waits. -/
structure CompState (T : Type) where
  done : BitVec 32
  waiters : List T
  pc : T → CompPc
  cond : T → ℕ
  lastCond : T → ℕ
  woken : List T
  nrCompletes : ℕ
  nrWaits : ℕ

inductive CompAct (T : Type) where
  | complete
  | enter (t : T)
  | look (t : T)
  | futexWait (t : T)
  | interrupt (t : T)
  | spurious (t : T)
  | readCond (t : T)
  | writeLastCond (t : T)
  | recheck (t : T)

def sameCond (a b : ℕ) : Bool := a % 2 ^ 16 == b % 2 ^ 16

variable {T : Type} [DecidableEq T]

/-- `___wake_up_common` with one exclusive waiter to wake: every entry visited has its `cond` advanced, and
the walk ends at the first whose `futex_wake` finds a sleeper, which `__autoremove_wake_function` unlinks. -/
def wakeUpCommon (s : CompState T) : List T → CompState T
  | [] => s
  | t :: rest =>
      let s := { s with cond := Function.update s.cond t (s.cond t + 1) }
      match s.pc t with
      | .asleep _ =>
          { s with
            pc := Function.update s.pc t .woke
            waiters := s.waiters.erase t
            woken := t :: s.woken }
      | _ => wakeUpCommon s rest

/-- `done` is taken and the call returns 1. -/
def waitSucceed (s : CompState T) (t : T) : CompState T :=
  { s with
    done := s.done - 1
    waiters := s.waiters.erase t
    pc := Function.update s.pc t .idle
    woken := s.woken.erase t
    nrWaits := s.nrWaits + 1 }

def compStep (s : CompState T) : CompAct T → Option (CompState T)
  | .complete =>
      let s := { s with done := s.done + 1, nrCompletes := s.nrCompletes + 1 }
      some (wakeUpCommon s s.waiters)
  | .enter t =>
      if s.pc t = .idle then
        if s.done ≠ 0 then some (waitSucceed s t)
        else
          -- a new entry on the caller's stack, at the tail of the queue
          some { s with
            waiters := s.waiters ++ [t]
            pc := Function.update s.pc t .looping
            cond := Function.update s.cond t 0
            lastCond := Function.update s.lastCond t 0 }
      else none
  | .look t =>
      if s.pc t = .looping then
        some { s with
          pc :=
          Function.update s.pc t (if sameCond (s.cond t) (s.lastCond t) then
            .futex (s.cond t) else .woke) }
      else none
  | .futexWait t =>
      match s.pc t with
      | .futex seen =>
          some { s
            with pc := Function.update s.pc t (if sameCond (s.cond t) seen then
            .asleep seen else .woke) }
      | _ => none
  | .interrupt t =>
      match s.pc t with
      | .asleep seen => some { s with pc := Function.update s.pc t (.futex seen) }
      | _ => none
  | .spurious t =>
      match s.pc t with
      | .asleep _ => some { s with pc := Function.update s.pc t .woke }
      | _ => none
  | .readCond t =>
      if s.pc t = .woke then some { s with pc := Function.update s.pc t (.latch (s.cond t)) } else none
  | .writeLastCond t =>
      match s.pc t with
      | .latch seen =>
          some { s with lastCond := Function.update s.lastCond t seen, pc := Function.update s.pc t .relock }
      | _ => none
  | .recheck t =>
      if s.pc t = .relock then
        if s.done ≠ 0 then some (waitSucceed s t)
        else
          -- the loop waits again with the entry as it is, on the queue or not
          some { s with pc := Function.update s.pc t .looping, woken := s.woken.erase t }
      else none

def compInit : CompState T where
  done := 0
  waiters := []
  pc := fun _ => .idle
  cond := fun _ => 0
  lastCond := fun _ => 0
  woken := []
  nrCompletes := 0
  nrWaits := 0

end Skp.Process
