import Skp.Foundations.Runs

/-! # The queued read/write lock of `src/utils/rwlock.c`

Any number of threads in the calls of one `rwlock_t`. Each access to `cnts` is a step of its own,
and so are taking and giving back `wait_lock`. A turn of `__cond_load_acquire` that does not see
what it waits for leaves the thread where it is. -/
namespace Skp.Utils
set_option autoImplicit false
open Skp.Foundations

def qwWaiting : BitVec 32 := 0x0100
def qwLocked : BitVec 32 := 0x00ff
def qwWmask : BitVec 32 := 0x01ff
def qrBias : BitVec 32 := 1 <<< 9

/-- Where a thread is: outside, holding, in `queued_read_trylock` (before the addition and before it
is taken back), in `queued_read_lock_slowpath` (before the subtraction, the lock, the addition, a
turn of the wait, and, with the read lock, the unlock), in `queued_write_trylock` before the
exchange with the 0 it read, or in `queued_write_lock_slowpath` (before the lock, the read, the
first exchange, the waiting flag, a turn of the wait, the second exchange, and, with the write lock,
the unlock). -/
inductive RwlockPc where
  | idle
  | holdRead
  | holdWrite
  | tryReadAdd
  | tryReadSub
  | readSub
  | readQueue
  | readAdd
  | readSpin
  | readUnlock
  | tryWriteSwap
  | writeQueue
  | writeRead
  | writeSwap
  | writeMark
  | writeSpin
  | writeSwapWaiting
  | writeUnlock
deriving DecidableEq

structure RwlockState (T : Type) where
  cnts : BitVec 32
  waitLock : Bool
  pc : T → RwlockPc

inductive RwlockAct (T : Type) where
  | readLock (t : T)
  | readTrylock (t : T)
  | writeLock (t : T)
  | writeTrylock (t : T)
  | readUnlock (t : T)
  | writeUnlock (t : T)
  | step (t : T)

/-- The store of 0 to `wlocked`, which is the low byte. -/
def clearWlocked (cnts : BitVec 32) : BitVec 32 := cnts &&& ~~~qwLocked

variable {T : Type} [DecidableEq T]

def RwlockState.goto (s : RwlockState T) (t : T) (p : RwlockPc) : RwlockState T :=
  { s with pc := Function.update s.pc t p }

/-- The exchange of `old` for `new` in `cnts`. -/
def RwlockState.cmpxchg (s : RwlockState T) (t : T) (old new : BitVec 32) (won lost : RwlockPc) :
    RwlockState T :=
  if s.cnts = old then { s with cnts := new }.goto t won else s.goto t lost

/-- `spin_lock` on `wait_lock`. -/
def RwlockState.lockWait (s : RwlockState T) (t : T) (p : RwlockPc) : Option (RwlockState T) :=
  if s.waitLock = false then some ({ s with waitLock := true }.goto t p) else none

def RwlockState.unlockWait (s : RwlockState T) (t : T) (p : RwlockPc) : RwlockState T :=
  { s with waitLock := false }.goto t p

/-- The addition that tests afterwards whether a writer is there. -/
def RwlockState.addReader (s : RwlockState T) (t : T) (refused : RwlockPc) : RwlockState T :=
  { s with cnts := s.cnts + qrBias }.goto t (if (s.cnts + qrBias) &&& qwWmask = 0 then .holdRead else refused)

/-- The next step of a thread inside a call. -/
def rwlockNext (s : RwlockState T) (t : T) : RwlockPc → Option (RwlockState T)
  | .tryReadAdd => some (s.addReader t .tryReadSub)
  | .tryReadSub => some ({ s with cnts := s.cnts - qrBias }.goto t .idle)
  | .readSub => some ({ s with cnts := s.cnts - qrBias }.goto t .readQueue)
  | .readQueue => s.lockWait t .readAdd
  | .readAdd => some ({ s with cnts := s.cnts + qrBias }.goto t .readSpin)
  | .readSpin => some (s.goto t (if s.cnts &&& qwLocked = 0 then .readUnlock else .readSpin))
  | .readUnlock => some (s.unlockWait t .holdRead)
  | .tryWriteSwap => some (s.cmpxchg t 0 (0 ||| qwLocked) .holdWrite .idle)
  | .writeQueue => s.lockWait t .writeRead
  | .writeRead => some (s.goto t (if s.cnts = 0 then .writeSwap else .writeMark))
  | .writeSwap => some (s.cmpxchg t 0 qwLocked .writeUnlock .writeMark)
  | .writeMark => some ({ s with cnts := s.cnts + qwWaiting }.goto t .writeSpin)
  | .writeSpin => some (s.goto t (if s.cnts = qwWaiting then .writeSwapWaiting else .writeSpin))
  | .writeSwapWaiting => some (s.cmpxchg t qwWaiting qwLocked .writeUnlock .writeSpin)
  | .writeUnlock => some (s.unlockWait t .holdWrite)
  | .idle => none
  | .holdRead => none
  | .holdWrite => none

def rwlockStep (s : RwlockState T) : RwlockAct T → Option (RwlockState T)
  | .readLock t => if s.pc t = .idle then some (s.addReader t .readSub) else none
  | .readTrylock t =>
      if s.pc t = .idle then some (s.goto t (if s.cnts &&& qwWmask = 0 then .tryReadAdd else .idle))
        else none
  | .writeLock t => if s.pc t = .idle then some (s.cmpxchg t 0 qwLocked .holdWrite .writeQueue) else none
  | .writeTrylock t =>
      if s.pc t = .idle then some (s.goto t (if s.cnts = 0 then .tryWriteSwap else .idle)) else none
  | .readUnlock t =>
      if s.pc t = .holdRead then some ({ s with cnts := s.cnts - qrBias }.goto t .idle) else none
  | .writeUnlock t =>
      if s.pc t = .holdWrite then some ({ s with cnts := clearWlocked s.cnts }.goto t .idle)
        else none
  | .step t => rwlockNext s t (s.pc t)

/-- `rwlock_init`. -/
def rwlockInit : RwlockState T where
  cnts := 0
  waitLock := false
  pc := fun _ => .idle

end Skp.Utils
