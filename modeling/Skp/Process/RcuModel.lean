import Skp.Foundations.Runs

/-! # Deferred callbacks

`call_rcu_sched`, `process_rcus` and the drain of `__sysevent_finit` in `src/process/event.c`. A
head is queued on every slot and counted down by each; the last one calls its callback. A section
under a slot lock is one step; the batch that `process_rcus` takes off the queue is worked off
without the lock, test, `__uref_put` and call one after the other. Times are nanoseconds. A head
stands for one call of `call_rcu_sched`. -/
namespace Skp.Process
set_option autoImplicit false
open Skp.Foundations

structure RcuConfig where
  singleMode : Bool
  nrCpus : ℕ
  nrCpus_pos : 0 < nrCpus

/-- The slots in use: the loops over the possible cpus end after the first one in single mode. -/
def RcuConfig.slots (cfg : RcuConfig) : ℕ := if cfg.singleMode then 1 else cfg.nrCpus

def rcuMs : ℕ := 1

/-- `uev_timer_future`: the clock and an offset in milliseconds, rounded down to one. -/
def uevTimerFuture (clock offset : ℕ) : ℕ := (clock + offset * 1000000) / 1000000 * 1000000

/-- `rcu_timedout` of a head, the milliseconds that remain as a `uint32_t`. -/
def rcuTimedout (future now : ℕ) : ℕ := if now < future then (future - now) / 1000000 % 2 ^ 32 else 0

/-- Where the thread that runs `process_rcus` on a slot is: outside, at the test of the first head
with `left` calls to go, between unlinking a head and its `__uref_put`, before its callback, or
before the remaining batch is put back. -/
inductive RcuPc (H : Type) where
  | idle
  | loop (now left : ℕ)
  | put (h : H) (now left : ℕ)
  | call (h : H) (now left : ℕ)
  | back
deriving DecidableEq

/-- Where a caller of `call_rcu_sched` is: before `loc_slot` of a cpu, before the lock of its slot,
or at `call_out`. -/
inductive GivePc (H : Type) where
  | idle
  | check (h : H) (cpu : ℕ)
  | add (h : H) (cpu : ℕ)
  | out (h : H)
deriving DecidableEq

/-- `drained x` says that `__sysevent_finit` has begun its `process_rcus` on slot `x`, `early h`
that the callback of `h` was called before its time while the system was not shutting down. -/
structure RcuState (H T : Type) where
  clock : ℕ
  shutting : Bool
  finit : ℕ
  running : ℕ → Bool
  drained : ℕ → Bool
  queue : ℕ → List H
  batch : ℕ → List H
  pc : ℕ → RcuPc H
  giver : T → GivePc H
  given : H → Bool
  future : H → ℕ
  refcnt : H → ℕ
  calls : H → ℕ
  early : H → Bool

/-- `round x ms` starts `process_rcus` on the worker of slot `x` with an earlier clock reading of
`ms` milliseconds. -/
inductive RcuAct (H T : Type) where
  | tick (n : ℕ)
  | give (t : T) (h : H)
  | check (t : T)
  | add (t : T)
  | out (t : T)
  | round (x ms : ℕ)
  | test (x : ℕ)
  | put (x : ℕ)
  | call (x : ℕ)
  | back (x : ℕ)
  | stop (x : ℕ)
  | shutdown
  | drain (x : ℕ)

variable {H T : Type} [DecidableEq H] [DecidableEq T]

/-- `nr_calls` of `process_rcus` outside an event worker. -/
def s32MaxCalls : ℕ := 2 ^ 31 - 1

/-- The head of the loop after a turn: `while (--nr_calls > 0)`. -/
def nextTurn (now left : ℕ) : RcuPc H := if 0 < left - 1 then .loop now (left - 1) else .back

/-- `func(rcu)`. -/
def callRcu (s : RcuState H T) (h : H) : RcuState H T :=
  { s with
    calls := Function.update s.calls h (s.calls h + 1)
    early := Function.update s.early h (s.early h || !s.shutting && decide (s.clock < s.future h)) }

/-- `list_splice_init` of the queue of a slot to the batch. -/
def takeQueue (s : RcuState H T) (x now left : ℕ) : RcuState H T :=
  { s with
    queue := Function.update s.queue x []
    batch := Function.update s.batch x (s.queue x)
    pc := Function.update s.pc x (.loop now left) }

def rcuStep (cfg : RcuConfig) (s : RcuState H T) : RcuAct H T → Option (RcuState H T)
  | .tick n => some { s with clock := s.clock + n }
  | .give t h =>
      if s.giver t = .idle ∧ s.given h = false then
        some
          { s with
            given := Function.update s.given h true
            refcnt := Function.update s.refcnt h cfg.nrCpus
            future := Function.update s.future h
              (uevTimerFuture s.clock (if cfg.singleMode then rcuMs * cfg.nrCpus else rcuMs))
            giver := Function.update s.giver t (.check h 0) }
      else none
  | .check t =>
      match s.giver t with
      | .check h cpu =>
          some { s with giver := Function.update s.giver t (if s.running cpu then .add h cpu else .out h) }
      | _ => none
  | .add t =>
      match s.giver t with
      | .add h cpu =>
          some
            { s with
              queue := Function.update s.queue cpu (s.queue cpu ++ [h])
              giver := Function.update s.giver t (if cpu + 1 < cfg.slots then .check h (cpu + 1) else .idle) }
      | _ => none
  | .out t =>
      match s.giver t with
      | .out h => some { callRcu s h with giver := Function.update s.giver t .idle }
      | _ => none
  | .round x ms =>
      if x < cfg.slots ∧ s.pc x = .idle ∧ s.running x = true ∧ ms * 1000000 ≤ s.clock ∧ s.queue x ≠ [] then
        some (takeQueue s x (ms * 1000000) (cfg.nrCpus * 64))
      else none
  | .test x =>
      match s.pc x with
      | .loop now left =>
          match s.batch x with
          -- without a head the time that remains is that of the poll interval
          | [] => some { s with pc := Function.update s.pc x .back }
          | h :: rest =>
              if rcuTimedout (s.future h) now ≠ 0 then some { s with pc := Function.update s.pc x .back }
              else
                some { s with
                  batch := Function.update s.batch x rest
                  pc := Function.update s.pc x (.put h now left) }
      | _ => none
  | .put x =>
      match s.pc x with
      | .put h now left =>
          if cfg.singleMode then some { s with pc := Function.update s.pc x (.call h now left) }
          else
            some
              { s with
                refcnt := Function.update s.refcnt h (s.refcnt h - 1)
                pc :=
                Function.update s.pc x (if s.refcnt h - 1 = 0 then .call h now left
                  else nextTurn now left) }
      | _ => none
  | .call x =>
      match s.pc x with
      | .call h now left => some { callRcu s h with pc := Function.update s.pc x (nextTurn now left) }
      | _ => none
  | .back x =>
      match s.pc x with
      | .back =>
          some
            { s with
              queue := Function.update s.queue x (s.batch x ++ s.queue x)
              batch := Function.update s.batch x []
              pc := Function.update s.pc x .idle
              finit := if s.drained x then s.finit + 1 else s.finit }
      | _ => none
  | .stop x =>
      if s.pc x = .idle ∧ s.running x = true then
        some { s with running := Function.update s.running x false } else none
  | .shutdown => if s.shutting then none else some { s with shutting := true }
  | .drain x =>
      if s.shutting = true ∧ x < cfg.slots ∧ s.finit = x ∧ s.pc x = .idle ∧ s.running x = false ∧
        s.drained x = false then
        let s := { s with drained := Function.update s.drained x true }
        if s.queue x = [] then some { s with finit := s.finit + 1 } else some (takeQueue s x 1 s32MaxCalls)
      else none

def rcuInit : RcuState H T where
  clock := 0
  shutting := false
  finit := 0
  running := fun _ => true
  drained := fun _ => false
  queue := fun _ => []
  batch := fun _ => []
  pc := fun _ => .idle
  giver := fun _ => .idle
  given := fun _ => false
  future := fun _ => 0
  refcnt := fun _ => 0
  calls := fun _ => 0
  early := fun _ => false

end Skp.Process
