import Skp.Foundations.Runs
import Skp.Foundations.Holder

/-! # The mutex of `src/utils/mutex.c`

Any number of threads in `mutex_lock`, `mutex_unlock` and `mutex_trylock` on one mutex. Each access
to `count` is a step, and so are taking and giving back `wait_lock`, what is done to the wait list
under it, the kernel's comparison in `futex_wait`, and `xadd` and `futex_wake`. A waiter is the
thread whose stack it is on. `count` is an integer: see `mutex_ok`. -/
namespace Skp.Utils
set_option autoImplicit false
open Skp.Foundations

/-- Where a thread is: outside, in `__mutex_lock_slowpath` (before the lock, the exchange, the
unlock and the comparison in `futex_wait`, asleep, before it locks again, and, with the mutex,
before `list_del`, the store of 0 and the unlock), holding the mutex, or in
`__mutex_unlock_slowpath` (before the lock, the store of 1, the first entry, `futex_wake` and the
unlock). -/
inductive MutexPc (T : Type) where
  | idle
  | slowEnter
  | slowXchg
  | slowUnlock
  | waitCheck
  | asleep
  | relock
  | slowDel
  | slowSet
  | slowDone
  | holding
  | unlockSlow
  | unlockSet
  | unlockWake
  | unlockFutex (w : T)
  | unlockDone
deriving DecidableEq

/-- `signals t` is the number of `xadd` on the flags of `t` since it cleared them. -/
structure MutexState (T : Type) where
  count : ℤ
  waitLock : Option T
  waitList : List T
  flags : T → BitVec 32
  pc : T → MutexPc T
  signals : T → ℕ

inductive MutexAct (T : Type) where
  | lock (t : T)
  | trylock (t : T)
  | unlock (t : T)
  | step (t : T)
  | interrupt (t : T)

variable {T : Type} [DecidableEq T]

def MutexState.goto (s : MutexState T) (t : T) (p : MutexPc T) : MutexState T :=
  { s with pc := Function.update s.pc t p }

/-- The flags of a waiter are cleared. -/
def MutexState.clearFlags (s : MutexState T) (t : T) : MutexState T :=
  { s with flags := Function.update s.flags t 0, signals := Function.update s.signals t 0 }

def MutexState.signal (s : MutexState T) (w : T) : MutexState T :=
  { s with
    flags := Function.update s.flags w (s.flags w + 1)
    signals := Function.update s.signals w (s.signals w + 1) }

/-- The next step of a thread inside a slow path. -/
def mutexNext (s : MutexState T) (t : T) : MutexPc T → Option (MutexState T)
  | .slowEnter =>
      if s.waitLock = none then
        some (({ s with waitLock := some t, waitList := s.waitList ++ [t] }.clearFlags t).goto t .slowXchg)
      else none
  | .slowXchg => some ({ s with count := -1 }.goto t (if s.count = 1 then .slowDel else .slowUnlock))
  | .slowUnlock => some ({ s with waitLock := none }.goto t .waitCheck)
  | .waitCheck => some (s.goto t (if s.flags t = 0 then .asleep else .relock))
  | .relock =>
      if s.waitLock = none then some (({ s with waitLock := some t }.clearFlags t).goto t .slowXchg) else none
  | .slowDel =>
      let waitList := s.waitList.erase t
      some ({ s with waitList := waitList }.goto t (if waitList = [] then .slowSet else .slowDone))
  | .slowSet => some ({ s with count := 0 }.goto t .slowDone)
  | .slowDone => some ({ s with waitLock := none }.goto t .holding)
  | .unlockSlow => if s.waitLock = none then some ({ s with waitLock := some t }.goto t .unlockSet) else none
  | .unlockSet => some ({ s with count := 1 }.goto t .unlockWake)
  | .unlockWake =>
      match s.waitList with
      | [] => some (s.goto t .unlockDone)
      | w :: _ => some ((s.signal w).goto t (.unlockFutex w))
  | .unlockFutex w => some ((if s.pc w = .asleep then s.goto w .relock else s).goto t .unlockDone)
  | .unlockDone => some ({ s with waitLock := none }.goto t .idle)
  | .idle => none
  | .asleep => none
  | .holding => none

def mutexStep (s : MutexState T) : MutexAct T → Option (MutexState T)
  | .lock t =>
      if s.pc t = .idle then
        some ({ s with count := s.count - 1 }.goto t (if s.count - 1 < 0 then .slowEnter else .holding))
      else none
  | .trylock t =>
      if s.pc t = .idle then some (if s.count = 1 then { s with count := 0 }.goto t .holding else s) else none
  | .unlock t =>
      if s.pc t = .holding then
        some ({ s with count := s.count + 1 }.goto t (if s.count + 1 < 1 then .unlockSlow else .idle))
      else none
  | .step t => mutexNext s t (s.pc t)
  | .interrupt t => if s.pc t = .asleep then some (s.goto t .relock) else none

/-- `mutex_init`. -/
def mutexInit : MutexState T where
  count := 1
  waitLock := none
  waitList := []
  flags := fun _ => 0
  pc := fun _ => .idle
  signals := fun _ => 0

end Skp.Utils
