import Skp.Foundations.Runs
import Skp.Errno

/-! # One thread of `src/process/thread.c`

A thread that `__uthread_create` has returned, its `thread__helper`, and any number of callers of
`uthread_wakeup`, `uthread_stop` and `uthread_kill` on it. Each access to the thread's memory is a
step; `started` and `stopped` are the counts of the two completions. A `pthread_cancel` takes effect
in `fn` or in the loop at the end of `thread__helper`. A step that reads or writes the memory after
its `free` only sets `wild`, and a `BUG_ON` that fires only sets `bug`.

The history: `released` is set once a `thread__free` has seen no wake-up in progress, `claimed` once
a kill has set `THREAD_STOPPED` itself; `frees`, `fnStarts`, `wakeCompletes` and `wakeups` count the
frees, the calls of `fn`, the completions of `started` by a wake-up and the wake-ups that returned
0; `answers` are what the stops and kills returned. -/
namespace Skp.Process
set_option autoImplicit false

structure ThreadFlags where
  waking : Bool
  running : Bool
  stopping : Bool
  stopped : Bool
  detached : Bool
deriving DecidableEq

/-- Where `thread__helper` is; `push`, `freeWait` and `free` are in its `thread__free`. -/
inductive HelperPc where
  | waiting
  | check
  | mark
  | running
  | finish
  | signal (rc : ℤ)
  | leave (rc : ℤ)
  | push
  | freeWait
  | free
  | looping (rc : ℤ)
  | exited
deriving DecidableEq

/-- What a stop or kill that is past `test_and_set_bit(THREAD_STOPPING_BIT)` returns; the value of
`thread->ret` is `none` when nothing was stored there. -/
inductive StopAnswer where
  | stopped (exitCode : Option ℤ)
  | killed (rc : ℤ)
deriving DecidableEq

/-- Where a caller is. A stop or kill is at `stopFlags` before it reads `flags` and at `stopSet`
before its `test_and_set_bit(THREAD_STOPPING_BIT)`; `kill` tells the pcs of `uthread_kill` from
those of `uthread_stop`. -/
inductive ThreadCallPc where
  | idle
  | wakeTest
  | wakeComplete
  | wakeLoad
  | wakeClear (rc : ℤ)
  | stopFlags (kill : Bool)
  | stopSet (kill : Bool)
  | stopTest (kill : Bool)
  | stopComplete (kill : Bool)
  | claim
  | cancel
  | joinKilled
  | waitStopped (kill : Bool)
  | join (kill : Bool)
  | readRet (kill : Bool)
  | push (r : StopAnswer)
  | freeWait (r : StopAnswer)
  | free (r : StopAnswer)
deriving DecidableEq

structure ThreadState (T : Type) where
  flags : ThreadFlags
  started : ℕ
  stopped : ℕ
  ret : Option ℤ
  helper : HelperPc
  pc : T → ThreadCallPc
  cancelled : Bool
  wild : Bool
  bug : Bool
  released : Bool
  claimed : Bool
  frees : ℕ
  fnStarts : ℕ
  wakeCompletes : ℕ
  wakeups : ℕ
  answers : List StopAnswer

inductive ThreadAct (T : Type) where
  | helper
  | fnReturn (v : ℤ)
  | detach
  | cancelPoint
  | wakeup (t : T)
  | stop (t : T) (kill : Bool)
  | call (t : T)

variable {T : Type}

def ThreadState.touch (s : ThreadState T) (next : Option (ThreadState T)) : Option (ThreadState T) :=
  if s.frees = 0 then next else some { s with wild := true }

def uthreadShouldStop (f : ThreadFlags) : Bool := f.stopping || f.stopped

/-- The next step of `thread__helper`, outside `fn`. -/
def threadHelper (s : ThreadState T) : Option (ThreadState T) :=
  match s.helper with
  | .waiting =>
      s.touch (if s.started = 0 then none
        else some { s with started := s.started - 1, helper := .check })
  | .check => s.touch (some { s with helper := if uthreadShouldStop s.flags then .finish else .mark })
  | .mark => s.touch (some
      (if s.flags.running then { s with bug := true }
      else { s with
        flags := { s.flags with running := true }
        fnStarts := s.fnStarts + 1
        helper := .running }))
  | .running => none
  | .finish => s.touch (some
      { s with
        flags := { s.flags with stopped := true }
        helper := .signal (if s.flags.stopped then eINTR else 0) })
  | .signal rc => s.touch (some { s with stopped := s.stopped + 1, helper := .leave rc })
  | .leave rc => s.touch (some { s with helper := if s.flags.detached then .push else .looping rc })
  | .push =>
      s.touch
        (some (if s.flags.stopped then { s with helper := .freeWait } else { s with bug := true }))
  | .freeWait => s.touch (if s.flags.waking then none else some { s with released := true, helper := .free })
  | .free => s.touch (some { s with frees := s.frees + 1, helper := .exited })
  | .looping rc => if rc = 0 then some { s with helper := .exited } else none
  | .exited => none

variable [DecidableEq T]

def ThreadState.goto (s : ThreadState T) (t : T) (p : ThreadCallPc) : ThreadState T :=
  { s with pc := Function.update s.pc t p }

def threadCall (s : ThreadState T) (t : T) : Option (ThreadState T) :=
  match s.pc t with
  | .idle => none
  | .wakeTest => s.touch (some (s.goto t (if s.flags.running then .wakeClear eBUSY else .wakeComplete)))
  | .wakeComplete => s.touch (some ({ s with
    started := s.started + 1
    wakeCompletes := s.wakeCompletes + 1 }.goto t .wakeLoad))
  | .wakeLoad =>
      s.touch (if s.flags.running || s.flags.stopping then some (s.goto t (.wakeClear 0)) else none)
  | .wakeClear rc => s.touch (some
      ({ s with
        flags := { s.flags with waking := false }
        wakeups := s.wakeups + if rc = 0 then 1 else 0 }.goto t .idle))
  | .stopFlags kill => s.touch (some (s.goto t (.stopSet kill)))
  | .stopSet kill => s.touch (some
      (if s.flags.stopping then s.goto t .idle
      else { s with flags := { s.flags with stopping := true } }.goto t (.stopTest kill)))
  | .stopTest kill => s.touch (some
      (s.goto t (if s.flags.running then if kill then .claim else .waitStopped false
        else .stopComplete kill)))
  | .stopComplete kill =>
      s.touch
        (some ({ s with started := s.started + 1 }.goto t (if kill then .claim
        else .waitStopped false)))
  | .claim => s.touch (some
      (if s.flags.stopped then s.goto t (.waitStopped true)
      else { s with flags := { s.flags with stopped := true }, claimed := true }.goto t .cancel))
  | .cancel => s.touch (some ({ s with cancelled := true }.goto t .joinKilled))
  | .joinKilled => s.touch (if s.helper = .exited then some (s.goto t (.push (.killed 1))) else none)
  | .waitStopped kill =>
      s.touch (if s.stopped = 0 then none
        else some ({ s with stopped := s.stopped - 1 }.goto t (.join kill)))
  | .join kill => s.touch (if s.helper = .exited then some (s.goto t (.readRet kill)) else none)
  | .readRet kill => s.touch (some (s.goto t (.push (if kill then .killed 0 else .stopped s.ret))))
  | .push r => s.touch (some (if s.flags.stopped then s.goto t (.freeWait r) else { s with bug := true }))
  | .freeWait r =>
      s.touch (if s.flags.waking then none else some ({ s with released := true }.goto t (.free r)))
  | .free r => s.touch (some ({ s with frees := s.frees + 1, answers := r :: s.answers }.goto t .idle))

def threadStep (s : ThreadState T) : ThreadAct T → Option (ThreadState T)
  | .helper => threadHelper s
  | .fnReturn v =>
      match s.helper with
      | .running => s.touch (some { s with ret := some v, helper := .finish })
      | _ => none
  | .detach =>
      match s.helper with
      | .running => s.touch (some { s with flags := { s.flags with detached := true } })
      | _ => none
  | .cancelPoint =>
      match s.helper, s.cancelled with
      | .running, true => some { s with helper := .exited }
      | .looping _, true => some { s with helper := .exited }
      | _, _ => none
  | .wakeup t =>
      match s.pc t with
      | .idle =>
          s.touch
            (some (if s.flags.waking then s
            else { s with flags := { s.flags with waking := true } }.goto t .wakeTest))
      | _ => none
  | .stop t kill =>
      match s.pc t with
      | .idle =>
          s.touch
            (some (if s.flags.detached then { s with bug := true } else s.goto t (.stopFlags kill)))
      | _ => none
  | .call t => threadCall s t

def threadInit : ThreadState T where
  flags := ⟨false, false, false, false, false⟩
  started := 0
  stopped := 0
  ret := none
  helper := .waiting
  pc := fun _ => .idle
  cancelled := false
  wild := false
  bug := false
  released := false
  claimed := false
  frees := 0
  fnStarts := 0
  wakeCompletes := 0
  wakeups := 0
  answers := []

/-- A stop or kill that has begun, and is not past `test_and_set_bit(THREAD_STOPPING_BIT)`. -/
def entering : ThreadCallPc → Bool
  | .stopFlags _ | .stopSet _ => true
  | _ => false

def freeWaits : ThreadCallPc → Bool
  | .freeWait _ => true
  | _ => false

/-- What the users of a thread see to: no call begins once a `thread__free` is past its wait, and
then no stop or kill is still entering; none stops or kills a thread that is detached, and `fn` does
not detach a thread that somebody stops or kills. -/
def ThreadGood (s : ThreadState T) : ThreadAct T → Prop
  | .wakeup _ => s.released = false
  | .stop _ _ => s.released = false ∧ s.flags.detached = false
  | .detach => s.flags.stopping = false ∧ ∀ t, entering (s.pc t) = false
  | .call t => freeWaits (s.pc t) = true → ∀ u, entering (s.pc u) = false
  | _ => True

instance [Fintype T] (s : ThreadState T) : ∀ a, Decidable (ThreadGood s a)
  | .wakeup _ => inferInstanceAs (Decidable (_ = _))
  | .stop _ _ => inferInstanceAs (Decidable (_ ∧ _))
  | .detach => inferInstanceAs (Decidable (_ ∧ _))
  | .call _ => inferInstanceAs (Decidable (_ → _))
  | .helper | .fnReturn _ | .cancelPoint => inferInstanceAs (Decidable True)

end Skp.Process
