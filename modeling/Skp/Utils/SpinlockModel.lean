import Skp.Foundations.Runs

/-! # The queued spinlock of `src/utils/spinlock.c`

Any number of threads in the calls of one `spinlock_t`. Each access to the word is a step of its
own: the reads, the compare-and-swaps, the 16-bit store of the pending owner and the 8-bit store of
the unlock. A turn of `__cond_load_acquire` that does not see what it waits for leaves the thread
where it is. -/
namespace Skp.Utils
set_option autoImplicit false
open Skp.Foundations

def qLockedVal : BitVec 32 := 1
def qLockedMask : BitVec 32 := 0x00ff
def qPendingVal : BitVec 32 := 0x0100
def qPendingMask : BitVec 32 := 0xff00

/-- `__SPINLOCK_MAX_CONTENDS`. -/
def spinlockMaxContends : ℕ := 32

/-- Where a thread is: outside, holding, in `queued_spin_trylock` before the exchange, in
`__queued_spin_lock_fast` (before the exchange and before a turn of the wait, with the turns that
are left and the value the exchange gave), or in `queued_spin_lock_slowpath`: before a turn of the
wait for a hand-over, the exchange of `val`, a turn of the wait for the owner, the 16-bit store, a
turn of the wait for the pending byte, and the exchange after it. -/
inductive SpinPc where
  | idle
  | holding
  | trySwap
  | fastSwap (i : ℕ)
  | fastSpin (i : ℕ) (val : BitVec 32)
  | handover
  | swap (val : BitVec 32)
  | pendingSpin
  | pendingStore
  | queueSpin
  | queueSwap
deriving DecidableEq

structure SpinState (T : Type) where
  rawLock : BitVec 32
  pc : T → SpinPc

inductive SpinAct (T : Type) where
  | lock (t : T)
  | fairlock (t : T)
  | trylock (t : T)
  | unlock (t : T)
  | step (t : T)

/-- The head of the loop for the lock or the pending byte: any contention leads to the queue. -/
def slowLoop (val : BitVec 32) : SpinPc := if val &&& ~~~qLockedMask ≠ 0 then .queueSpin else .swap val

/-- The start of `queued_spin_lock_slowpath`. -/
def slowTry (val : BitVec 32) : SpinPc := if val = qPendingVal then .handover else slowLoop val

/-- What the loop puts in the place of `val`. -/
def newVal (val : BitVec 32) : BitVec 32 :=
  if val = qLockedVal then qLockedVal ||| qPendingVal else qLockedVal

/-- The store of `_Q_LOCKED_VAL` to `locked_pending`, the low 16 bits. -/
def clearPendingSetLocked (rawLock : BitVec 32) : BitVec 32 :=
  rawLock &&& ~~~(qLockedMask ||| qPendingMask) ||| qLockedVal

/-- The store of 0 to the low byte. -/
def clearLocked (rawLock : BitVec 32) : BitVec 32 := rawLock &&& ~~~qLockedMask

variable {T : Type} [DecidableEq T]

def SpinState.goto (s : SpinState T) (t : T) (p : SpinPc) : SpinState T :=
  { s with pc := Function.update s.pc t p }

/-- The exchange of `old` for `new`; a thread that has lost goes on with the value that was there. -/
def SpinState.cmpxchg (s : SpinState T) (t : T) (old new : BitVec 32) (won : SpinPc)
    (lost : BitVec 32 → SpinPc) : SpinState T :=
  if s.rawLock = old then { s with rawLock := new }.goto t won else s.goto t (lost s.rawLock)

/-- The next step of a thread inside a call. -/
def spinNext (s : SpinState T) (t : T) : SpinPc → Option (SpinState T)
  | .trySwap => some (s.cmpxchg t 0 qLockedVal .holding fun _ => .idle)
  | .fastSwap i => some (s.cmpxchg t 0 qLockedVal .holding fun val => .fastSpin i val)
  | .fastSpin i val =>
      some (s.goto t (if s.rawLock &&& qLockedMask ≠ 0 then .fastSpin i val
        else if 0 < i - 1 then .fastSwap (i - 1) else slowTry val))
  | .handover => some (s.goto t (if s.rawLock = qPendingVal then .handover else slowLoop s.rawLock))
  | .swap val =>
      some (s.cmpxchg t val (newVal val) (if newVal val = qLockedVal then .holding
        else .pendingSpin) slowLoop)
  | .pendingSpin => some (s.goto t (if s.rawLock &&& qLockedMask ≠ 0 then .pendingSpin else .pendingStore))
  | .pendingStore => some ({ s with rawLock := clearPendingSetLocked s.rawLock }.goto t .holding)
  | .queueSpin => some (s.goto t (if s.rawLock &&& qPendingMask ≠ 0 then .queueSpin else .queueSwap))
  | .queueSwap => some (s.cmpxchg t 0 qLockedVal .holding slowTry)
  | .idle => none
  | .holding => none

def spinStep (s : SpinState T) : SpinAct T → Option (SpinState T)
  | .lock t =>
      if s.pc t = .idle then
        some (s.cmpxchg t 0 qLockedVal .holding fun _ => .fastSwap spinlockMaxContends) else none
  | .fairlock t => if s.pc t = .idle then some (s.cmpxchg t 0 qLockedVal .holding slowTry) else none
  | .trylock t => if s.pc t = .idle then some (s.goto t (if s.rawLock = 0 then .trySwap else .idle)) else none
  | .unlock t =>
      if s.pc t = .holding then some ({ s with rawLock := clearLocked s.rawLock }.goto t .idle)
        else none
  | .step t => spinNext s t (s.pc t)

/-- `spin_lock_init`. -/
def spinInit : SpinState T where
  rawLock := 0
  pc := fun _ => .idle

end Skp.Utils
