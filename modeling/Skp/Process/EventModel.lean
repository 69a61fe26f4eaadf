import Skp.Process.AsyncModel

/-! # The event worker's loop and the inserts of other threads

`worker_cb` of one slot in `src/process/event.c` with `__uev_timer_modify`, timer deletion and
`call_rcu_sched` of other threads. A section under the slot lock is one step; the worker holds the lock
while it is in `process`, so the other threads' sections fall outside. All times are milliseconds: a
deadline and the clock reading are both rounded down to one. The timer heap is a list of which only the
smallest value is looked at. The slot's notifier is the async of `AsyncModel`. -/
namespace Skp.Process
set_option autoImplicit false
open Skp.Foundations

/-- An armed timer or a queued rcu head: its deadline and the thread that inserted it. -/
structure SlotEntry (T : Type) where
  value : ℕ
  owner : T
deriving DecidableEq

/-- Where the worker is: with a timeout computed from the clock reading `now`, inside `reactor_poll` until a
deadline, returned from it, processing under the lock, inside a callback, or running rcu callbacks taken
off the queue. The last two release the lock; only `callback` has `current` set. -/
inductive EvPc (T : Type) where
  | computed (now next : ℕ)
  | blocked (deadline : ℕ)
  | woken (now : ℕ)
  | process (now : ℕ)
  | callback (now : ℕ)
  | rcuRun (now : ℕ) (taken : List (SlotEntry T))
deriving DecidableEq

/-- `notifying t` holds between the unlock of thread `t` in `notify_poller_locked` and its emit. -/
structure SlotState (T : Type) where
  clock : ℕ
  timers : List (SlotEntry T)
  rcus : List (SlotEntry T)
  pc : EvPc T
  notifying : T → Bool
  notifier : AsyncState T

def evPollInterval : ℕ := 5000

variable {T : Type} [DecidableEq T]

def firstTimer (s : SlotState T) : Option ℕ := (s.timers.map SlotEntry.value).min?

def firstRcu (s : SlotState T) : Option ℕ := s.rcus.head?.map SlotEntry.value

/-- `timer_timedout` and `rcu_timedout`, on the deadline of the first entry if there is one. -/
def timedout (first : Option ℕ) (now : ℕ) : ℕ :=
  match first with
  | none => evPollInterval
  | some v => if now < v then (v - now) % 2 ^ 32 else 0

def calcTimeout (s : SlotState T) (now : ℕ) : ℕ :=
  min (min (timedout (firstRcu s) now) (timedout (firstTimer s) now)) evPollInterval

/-- `get_current_core`: set while a callback of a stream, timer or signal runs. -/
def hasCurrent : EvPc T → Bool
  | .callback _ => true
  | _ => false

def lockFree : EvPc T → Bool
  | .process _ => false
  | _ => true

/-- `notify_poller_locked` by thread `t`: no notification when nothing is current, and none by the worker. -/
def notifyPollerLocked (worker : T) (s : SlotState T) (t : T) (updated : Bool) : SlotState T :=
  let updated := if hasCurrent s.pc then updated else false
  if updated ∧ t ≠ worker then { s with notifying := Function.update s.notifying t true } else s

def emitting (s : SlotState T) (t : T) : Bool := s.notifying t || s.notifier.writing t

inductive EvAct (T : Type) where
  | tick
  | timerModify (t : T) (old : Option (SlotEntry T)) (value : ℕ)
  | timerDelete (e : SlotEntry T)
  | callRcuSched (t : T) (value : ℕ)
  | emitInc (t : T)
  | emitWrite (t : T)
  | poll
  | pollReturn
  | lockSlot
  | invoke
  | invokeTimer (e : SlotEntry T)
  | notifierCb (a : AsyncAct T)
  | invokeFinish
  | rcuStart
  | rcuEnd (k : ℕ)
  | calcNext

def isNotifierCb : AsyncAct T → Bool
  | .cbXchg _ => true
  | .cbRead _ => true
  | .cbFunc _ => true
  | _ => false

def eraseOld (l : List (SlotEntry T)) : Option (SlotEntry T) → List (SlotEntry T)
  | none => l
  | some e => l.erase e

def evStep (worker : T) (s : SlotState T) : EvAct T → Option (SlotState T)
  | .tick => some { s with clock := s.clock + 1 }
  | .timerModify t old value =>
      if lockFree s.pc ∧ !emitting s t then
        let rest := eraseOld s.timers old
        let updated := rest.all fun e => value < e.value
        some (notifyPollerLocked worker { s with timers := { value := value, owner := t } :: rest } t updated)
      else none
  | .timerDelete e => if lockFree s.pc then some { s with timers := s.timers.erase e } else none
  | .callRcuSched t value =>
      if lockFree s.pc ∧ !emitting s t then
        some (notifyPollerLocked worker { s with rcus := s.rcus ++ [{ value := value, owner := t }] } t true)
      else none
  | .emitInc t =>
      if s.notifying t then
        (asyncStep s.notifier (.emitInc t)).map fun n =>
          { s with notifier := n, notifying := Function.update s.notifying t false }
      else none
  | .emitWrite t => (asyncStep s.notifier (.emitWrite t)).map fun n => { s with notifier := n }
  | .poll =>
      match s.pc with
      | .computed _ next =>
          some { s with pc := if next = 0 then .woken s.clock else .blocked (s.clock + next) }
      | _ => none
  | .pollReturn =>
      match s.pc with
      | .blocked _ => some { s with pc := .woken s.clock }
      | _ => none
  | .lockSlot =>
      match s.pc with
      | .woken now => some { s with pc := .process now }
      | _ => none
  | .invoke =>
      match s.pc with
      | .process now => some { s with pc := .callback now }
      | _ => none
  | .invokeTimer e =>
      match s.pc with
      | .process now =>
          if e ∈ s.timers ∧ e.value ≤ now then some { s with timers := s.timers.erase e, pc := .callback now }
          else none
      | _ => none
  | .notifierCb a =>
      if hasCurrent s.pc ∧ isNotifierCb a then (asyncStep s.notifier a).map fun n => { s with notifier := n }
      else none
  | .invokeFinish =>
      match s.pc with
      | .callback now => some { s with pc := .process now }
      | _ => none
  | .rcuStart =>
      match s.pc with
      | .process now => some { s with pc := .rcuRun now s.rcus, rcus := [] }
      | _ => none
  | .rcuEnd k =>
      match s.pc with
      | .rcuRun now taken =>
          if (taken.take k).all fun e => e.value ≤ now then
            some { s with pc := .process now, rcus := taken.drop k ++ s.rcus }
          else none
      | _ => none
  | .calcNext =>
      match s.pc with
      | .process now => some { s with pc := .computed now (calcTimeout s now) }
      | _ => none

def slotInit (clock : ℕ) : SlotState T where
  clock := clock
  timers := []
  rcus := []
  pc := .computed clock evPollInterval
  notifying := fun _ => false
  notifier := asyncInit

end Skp.Process
