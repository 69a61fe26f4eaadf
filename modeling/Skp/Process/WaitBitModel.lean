import Skp.Process.CompletionModel

/-! # `wait_on_bit_lock` and `wake_up_bit`

Any number of words and bits that share one hashed wait queue of `src/process/wait.c`, with any
number of threads: callers of `wait_on_bit_lock` whose action is `wait_on`, threads that set a bit,
and threads that clear a bit and then call `wake_up_bit`. Taking and giving back the lock of the
queue, every test of a bit, every access to the word of an entry outside the lock, the kernel's
comparison, `xadd`, `futex_wake` and the unlinking are steps of their own. The two 16-bit counters
of an entry are kept in full and compared modulo `2 ^ 16`. -/
namespace Skp.Process
set_option autoImplicit false
open Skp.Foundations

structure WaitBitKey (W : Type) where
  flags : W
  bitNr : ℕ
deriving DecidableEq

/-- Where a thread is: outside; in `__wait_on_bit_common` before the lock, the unlock, `test_bit`,
the read of the entry's word, the comparison in `futex_wait` with what it read, asleep there, past
it, before the store to `last_cond`, `test_and_set_bit`, and in `finish_wait` before its test, the
lock and the unlock; or in `__wake_up_bit` after the clear, before `waitqueue_active`, the lock, the
entries still to be looked at, `xadd` and `futex_wake` on an entry, its unlinking, and the unlock.
-/
inductive WaitBitPc (T : Type) where
  | idle
  | enqueue
  | enqueued
  | testBit
  | readValue
  | futex (cond lastCond : ℕ)
  | asleep (cond lastCond : ℕ)
  | woke
  | latch (cond : ℕ)
  | testAndSet
  | finish
  | finishLock
  | finishUnlock
  | wakeCheck
  | wakeLock
  | walk (rest : List T)
  | wakeXadd (w : T) (rest : List T)
  | wakeFutex (w : T) (rest : List T)
  | wakeRemove (w : T)
  | wakeUnlock
deriving DecidableEq

/-- `key t` is the key on the stack of `t`, in its entry or as the argument of the walk. `owns t k`
records that `t` took the bit `k` in `wait_on_bit_lock` and that the bit has not been cleared since.
-/
structure WaitBitState (W T : Type) where
  bits : WaitBitKey W → Bool
  taskList : List T
  lock : Option T
  key : T → WaitBitKey W
  cond : T → ℕ
  lastCond : T → ℕ
  pc : T → WaitBitPc T
  owns : T → WaitBitKey W → Bool

inductive WaitBitAct (W T : Type) where
  | waitOnBitLock (t : T) (k : WaitBitKey W)
  | setBit (t : T) (k : WaitBitKey W)
  | clearBit (t : T) (k : WaitBitKey W)
  | step (t : T)
  | interrupt (t : T)
  | spurious (t : T)

variable {W T : Type} [DecidableEq W] [DecidableEq T]

def WaitBitState.goto (s : WaitBitState W T) (t : T) (p : WaitBitPc T) : WaitBitState W T :=
  { s with pc := Function.update s.pc t p }

def WaitBitState.set (s : WaitBitState W T) (k : WaitBitKey W) : WaitBitState W T :=
  { s with bits := Function.update s.bits k true }

def WaitBitState.take (s : WaitBitState W T) (t : T) (k : WaitBitKey W) : WaitBitState W T :=
  { s.set k with owns := Function.update s.owns t (Function.update (s.owns t) k true) }

def WaitBitState.clear (s : WaitBitState W T) (k : WaitBitKey W) : WaitBitState W T :=
  { s with bits := Function.update s.bits k false, owns := fun t => Function.update (s.owns t) k false }

/-- `__add_wait_queue_tail`, if the entry is not on the queue. -/
def WaitBitState.addTail (s : WaitBitState W T) (t : T) : WaitBitState W T :=
  if t ∈ s.taskList then s
  else { s with taskList := s.taskList ++ [t], lastCond := Function.update s.lastCond t (s.cond t) }

/-- The key of an entry is not the one of the walk, or the bit is set: `wake_bit_function` returns 0. -/
def keyMismatch (s : WaitBitState W T) (t w : T) : Prop :=
  (s.key w).flags ≠ (s.key t).flags ∨ (s.key w).bitNr ≠ (s.key t).bitNr ∨ s.bits (s.key t) = true

instance (s : WaitBitState W T) (t w : T) : Decidable (keyMismatch s t w) :=
  inferInstanceAs (Decidable ((s.key w).flags ≠ (s.key t).flags ∨
    (s.key w).bitNr ≠ (s.key t).bitNr ∨ s.bits (s.key t) = true))

def waitBitNext (s : WaitBitState W T) (t : T) : WaitBitPc T → Option (WaitBitState W T)
  | .enqueue => if s.lock = none then some ({ s.addTail t with lock := some t }.goto t .enqueued) else none
  | .enqueued => some ({ s with lock := none }.goto t .testBit)
  | .testBit => some (s.goto t (if s.bits (s.key t) = true then .readValue else .testAndSet))
  | .readValue =>
      some (s.goto t (if sameCond (s.cond t) (s.lastCond t) = true then
        .futex (s.cond t) (s.lastCond t) else .woke))
  | .futex cond lastCond =>
      some (s.goto t (if sameCond (s.cond t) cond = true ∧ sameCond (s.lastCond t) lastCond =
        true then .asleep cond lastCond
        else .woke))
  | .woke => some (s.goto t (.latch (s.cond t)))
  | .latch cond => some ({ s with lastCond := Function.update s.lastCond t cond }.goto t .testAndSet)
  | .testAndSet =>
      some (if s.bits (s.key t) = true then s.goto t .enqueue
        else (s.take t (s.key t)).goto t .finish)
  | .finish => some (s.goto t (if t ∈ s.taskList then .finishLock else .idle))
  | .finishLock =>
      if s.lock = none then
        some ({ s with lock := some t, taskList := s.taskList.erase t }.goto t .finishUnlock)
        else none
  | .finishUnlock => some ({ s with lock := none }.goto t .idle)
  | .wakeCheck => some (s.goto t (if s.taskList = [] then .idle else .wakeLock))
  | .wakeLock => if s.lock = none then some ({ s with lock := some t }.goto t (.walk s.taskList)) else none
  | .walk [] => some (s.goto t .wakeUnlock)
  | .walk (w :: rest) => some (s.goto t (if keyMismatch s t w then .walk rest else .wakeXadd w rest))
  | .wakeXadd w rest =>
      some ({ s with cond := Function.update s.cond w (s.cond w + 1) }.goto t (.wakeFutex w rest))
  | .wakeFutex w rest =>
      match s.pc w with
      | .asleep _ _ => some ((s.goto w .woke).goto t (.wakeRemove w))
      | _ => some (s.goto t (.walk rest))
  | .wakeRemove w => some ({ s with taskList := s.taskList.erase w }.goto t .wakeUnlock)
  | .wakeUnlock => some ({ s with lock := none }.goto t .idle)
  | .idle => none
  | .asleep _ _ => none

/-- `DEFINE_WAITBIT`: a new entry with `cond` 0 and `last_cond` -1. -/
def WaitBitState.define (s : WaitBitState W T) (t : T) (k : WaitBitKey W) : WaitBitState W T :=
  { s with
    key := Function.update s.key t k
    cond := Function.update s.cond t 0
    lastCond := Function.update s.lastCond t (2 ^ 16 - 1) }

def waitBitStep (s : WaitBitState W T) : WaitBitAct W T → Option (WaitBitState W T)
  | .waitOnBitLock t k =>
      if s.pc t = .idle then some (if s.bits k = true then (s.define t k).goto t .enqueue
        else s.take t k) else none
  | .setBit t k => if s.pc t = .idle then some (s.set k) else none
  | .clearBit t k =>
      if s.pc t = .idle then
        some ({ s.clear k with key := Function.update s.key t k }.goto t .wakeCheck) else none
  | .step t => waitBitNext s t (s.pc t)
  | .interrupt t =>
      match s.pc t with
      | .asleep cond lastCond => some (s.goto t (.futex cond lastCond))
      | _ => none
  | .spurious t =>
      match s.pc t with
      | .asleep _ _ => some (s.goto t .woke)
      | _ => none

def waitBitInit (bits : WaitBitKey W → Bool) (key : T → WaitBitKey W) : WaitBitState W T where
  bits := bits
  taskList := []
  lock := none
  key := key
  cond := fun _ => 0
  lastCond := fun _ => 0
  pc := fun _ => .idle
  owns := fun _ _ => false

end Skp.Process
