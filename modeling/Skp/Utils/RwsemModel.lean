import Skp.Foundations.Runs

/-! # The semaphore of `src/utils/rwsem.c`

Any number of threads in the calls of one `rw_semaphore`; a section under `wait_lock` is one step.
Between the sections a waiter is in `futex_wait` with the flags it read: the kernel's comparison and
a return without a wake-up are steps of their own. `activity` is an integer, bounded by the number
of threads (`RwsemOk.count`). -/
namespace Skp.Utils
set_option autoImplicit false
open Skp.Foundations

def rwsemWaitingForRead : BitVec 32 := 0x10000000
def rwsemWaitingForWrite : BitVec 32 := 0x20000000
def rwsemWaitingMask : BitVec 32 := 0x0fffffff

/-- Where a thread is: outside, holding, before the kernel's comparison with what it read, asleep,
or before its next section. -/
inductive RwsemPc where
  | idle
  | holdRead
  | holdWrite
  | waitRead (seen : BitVec 32)
  | sleepRead
  | wokenRead
  | waitWrite (seen : BitVec 32)
  | sleepWrite
  | wokenWrite
deriving DecidableEq

/-- `bug` is the `BUG_ON` of `__rwsem_wake_one_writer`; `signals t` the number of `xadd32` on the
flags of `t` since `t` set them. -/
structure RwsemState (T : Type) where
  activity : ℤ
  waitList : List T
  flags : T → BitVec 32
  pc : T → RwsemPc
  bug : Bool
  signals : T → ℕ

inductive RwsemAct (T : Type) where
  | downRead (t : T)
  | downReadTrylock (t : T)
  | downWrite (t : T)
  | downWriteTrylock (t : T)
  | upRead (t : T)
  | upWrite (t : T)
  | downgradeWrite (t : T)
  | futexWait (t : T)
  | interrupt (t : T)
  | again (t : T)

variable {T : Type} [DecidableEq T]

def RwsemState.goto (s : RwsemState T) (t : T) (p : RwsemPc) : RwsemState T :=
  { s with pc := Function.update s.pc t p }

def RwsemState.setFlags (s : RwsemState T) (t : T) (flags : BitVec 32) : RwsemState T :=
  { s with flags := Function.update s.flags t flags, signals := Function.update s.signals t 0 }

/-- The place after `futex_wake`. -/
def RwsemPc.wake : RwsemPc → RwsemPc
  | .sleepRead => .wokenRead
  | .sleepWrite => .wokenWrite
  | p => p

/-- `__wake_one_waiter`. -/
def signalOneWaiter (s : RwsemState T) (w : T) : RwsemState T :=
  { s with
    flags := Function.update s.flags w (s.flags w + 1)
    signals := Function.update s.signals w (s.signals w + 1)
    pc := Function.update s.pc w (s.pc w).wake }

def wakeOneWaiter (s : RwsemState T) (w : T) : RwsemState T :=
  signalOneWaiter { s with waitList := s.waitList.erase w } w

/-- The loop of `__rwsem_do_wake` at a waiter with the rest of the list behind it, and the addition
after it. -/
def grantReaders (s : RwsemState T) (woken : ℤ) (waiter : T) : List T → RwsemState T
  | [] => { wakeOneWaiter s waiter with activity := s.activity + (woken + 1) }
  | next :: rest =>
      let s' := wakeOneWaiter s waiter
      if s'.flags next &&& rwsemWaitingForRead ≠ 0 then grantReaders s' (woken + 1) next rest
      else { s' with activity := s.activity + (woken + 1) }

/-- `__rwsem_do_wake`, which is called with waiters only. -/
def rwsemDoWake (s : RwsemState T) (wakewrite : Bool) : RwsemState T :=
  match s.waitList with
  | [] => s
  | waiter :: rest =>
      if s.flags waiter &&& rwsemWaitingForWrite ≠ 0 then (if wakewrite then signalOneWaiter s waiter else s)
      else grantReaders s 0 waiter rest

def rwsemWakeOneWriter (s : RwsemState T) : RwsemState T :=
  match s.waitList with
  | [] => s
  | waiter :: _ =>
      if s.flags waiter &&& rwsemWaitingForRead ≠ 0 then { s with bug := true } else signalOneWaiter s waiter

/-- The head of the loop of `down_read`, and the end of the call or the unlock. -/
def downReadLoop (s : RwsemState T) (t : T) : RwsemState T :=
  s.goto t (if s.flags t &&& rwsemWaitingMask ≠ 0 then .holdRead else .waitRead (s.flags t))

def downWriteLoop (s : RwsemState T) (t : T) : RwsemState T :=
  if s.activity = 0 then { s with activity := -1, waitList := s.waitList.erase t }.goto t .holdWrite
  else s.goto t (.waitWrite (s.flags t))

/-- A step that applies at a place of the thread only. -/
def RwsemState.whenAt (s : RwsemState T) (t : T) (p : RwsemPc) (s' : RwsemState T) : Option (RwsemState T) :=
  if s.pc t = p ∧ s.bug = false then some s' else none

def rwsemStep (s : RwsemState T) : RwsemAct T → Option (RwsemState T)
  | .downRead t => s.whenAt t .idle <|
      if 0 < s.activity ∨ (s.activity = 0 ∧ s.waitList = []) then
        { s with activity := s.activity + 1 }.goto t .holdRead
      else downReadLoop ({ s with waitList := s.waitList ++ [t] }.setFlags t rwsemWaitingForRead) t
  | .downReadTrylock t => s.whenAt t .idle <|
      if 0 ≤ s.activity ∧ s.waitList = [] then { s with activity := s.activity + 1 }.goto t .holdRead else s
  | .downWrite t => s.whenAt t .idle <|
      downWriteLoop ({ s with waitList := s.waitList ++ [t] }.setFlags t rwsemWaitingForWrite) t
  | .downWriteTrylock t =>
      s.whenAt t .idle <| if s.activity = 0 then { s with activity := -1 }.goto t .holdWrite else s
  | .upRead t => s.whenAt t .holdRead <|
      let s := { s with activity := s.activity - 1 }.goto t .idle
      if s.activity = 0 ∧ s.waitList ≠ [] then rwsemWakeOneWriter s else s
  | .upWrite t => s.whenAt t .holdWrite <|
      let s := { s with activity := 0 }.goto t .idle
      if s.waitList ≠ [] then rwsemDoWake s true else s
  | .downgradeWrite t => s.whenAt t .holdWrite <|
      let s := { s with activity := 1 }.goto t .holdRead
      if s.waitList ≠ [] then rwsemDoWake s false else s
  | .futexWait t =>
      match s.pc t with
      | .waitRead seen => some (s.goto t (if s.flags t = seen then .sleepRead else .wokenRead))
      | .waitWrite seen => some (s.goto t (if s.flags t = seen then .sleepWrite else .wokenWrite))
      | _ => none
  | .interrupt t =>
      match s.pc t with
      | .sleepRead => some (s.goto t .wokenRead)
      | .sleepWrite => some (s.goto t .wokenWrite)
      | _ => none
  | .again t =>
      match s.pc t with
      | .wokenRead => if s.bug = false then some (downReadLoop s t) else none
      | .wokenWrite =>
          if s.bug = false then some (downWriteLoop (s.setFlags t rwsemWaitingForWrite) t) else none
      | _ => none

/-- `init_rwsem`. -/
def rwsemInit : RwsemState T where
  activity := 0
  waitList := []
  flags := fun _ => 0
  pc := fun _ => .idle
  bug := false
  signals := fun _ => 0

end Skp.Utils
