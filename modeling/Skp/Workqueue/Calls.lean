import Skp.Workqueue.Model

/-! # The threads that queue, cancel and flush

The callers of `queue_work_on`, `queue_delayed_work_on`, `mod_delayed_work_on`, `__cancel_work`,
`__cancel_work_sync`, `flush_work` and `flush_delayed_work`, the callbacks of the delayed works' timers, the
workers, and `destroy_workqueue` as far as it changes the state of `Model`. A section under a pool lock is
one step; the reads of a flags word before the lock is taken are steps of their own. A thread that has
locked a pool and then meets the pool_workqueue of another pool in the flags word touches a counter its
lock does not protect, so the loads and stores of that counter are separate steps. A work callback that
queues, cancels or flushes is one more calling thread. The memory of pools and pool_workqueues is never
reused, and a call that fails in `__queue_work` does not keep the lock here. -/
namespace Skp.Workqueue
set_option autoImplicit false
open Skp.Foundations

structure CancelMode where
  sync : Bool
  dwork : Bool
deriving DecidableEq

/-- Where a thread goes on after it has touched a foreign pool_workqueue. -/
inductive Resume (W : Type) where
  | grab (w : W) (m : CancelMode)
  | flush (w : W) (cancel : Bool)
deriving DecidableEq

inductive ForeignStep where
  | getLoad
  | getStore (v : ℤ)
  | putLoad
  | putStore (v : ℤ)
deriving DecidableEq

/-- `queueing`, `selected` and `switching` are `__queue_work` before `select_pwq`, before it locks
the last pool, and before it locks the pool of the selected pool_workqueue; the `grab` states are
`try_to_grab_pending`; the `flush` states are `flush_work`, called by `__cancel_work_sync` when
`cancel` is set; `flushed` and `waking` are the end of `__cancel_work_sync`; the others are its wait
on `cancel_waitq`. -/
inductive Pc (P Q G W : Type) where
  | idle
  | queueing (w : W) (g : G) (n : ℕ)
  | selected (w : W) (q : Q) (n : ℕ)
  | switching (w : W) (q : Q) (n : ℕ)
  | grab (w : W) (m : CancelMode)
  | grabBit (w : W) (m : CancelMode)
  | grabRead (w : W) (m : CancelMode)
  | grabLock (w : W) (m : CancelMode) (p : P)
  | grabFail (w : W) (m : CancelMode)
  | grabbed (w : W) (m : CancelMode)
  | foreign (q : Q) (f : ForeignStep) (back : Resume W)
  | flushRead (w : W) (cancel : Bool)
  | flushLock (w : W) (cancel : Bool) (p : P)
  | flushWait (w : W) (cancel : Bool)
  | flushed (w : W)
  | waking (w : W)
  | waitPrep (w : W) (m : CancelMode)
  | waitCheck (w : W) (m : CancelMode)
  | waitSleep (w : W) (m : CancelMode)
  | asleep (w : W) (m : CancelMode)
  | waitDone (w : W) (m : CancelMode)
deriving DecidableEq

/-- `timer` is the armed timer of a delayed work with its workqueue and ticket, `done` the completion of a
thread's barrier, `cond` the wake-ups that reached a thread's entry on `cancel_waitq`. The last two fields
record the history: that a wake-up reached a canceller which has not marked the work or gone to sleep since,
and that the work has been queued since the canceller gave PENDING back. -/
structure WqState (P Q G W K T : Type) where
  core : Core P Q G W K T
  timer : W → Option (G × ℕ)
  draining : G → Bool
  destroying : G → Bool
  pc : T → Pc P Q G W
  done : T → Bool
  waitq : List T
  cond : T → ℕ
  woken : T → Bool
  requeued : T → Bool

inductive QueueAct (Q G W T : Type) where
  | queueWork (t : T) (w : W) (g : G)
  | armTimer (t : T) (ok : Bool)
  | fire (t : T) (w : W)
  | select (t : T) (q : Q) (chained : Bool)
  | lockLast (t : T)
  | switchLock (t : T)

inductive CancelAct (G W T : Type) where
  | call (t : T) (w : W) (m : CancelMode)
  | grabTimer (t : T)
  | grabBit (t : T)
  | grabRead (t : T)
  | grabLock (t : T)
  | grabFail (t : T)
  | foreign (t : T)
  | finish (t : T)
  | modDelayed (t : T) (g : G)

inductive SyncAct (W T : Type) where
  | mark (t : T)
  | flush (t : T) (w : W)
  | flushRead (t : T)
  | flushLock (t : T)
  | barrierDone (t : T)
  | clearData (t : T)
  | wakeOne (t : T)
  | waitPrep (t : T)
  | waitCheck (t : T)
  | waitSleep (t : T)
  | interrupt (t : T) (spurious : Bool)
  | finishWait (t : T)

inductive WorkerAct (Q G K : Type) where
  | drain (g : G) (on : Bool)
  | destroy (g : G)
  | dropBase (q : Q)
  | pick (k : K)
  | complete (k : K)
  | finish (k : K)

inductive WqAct (Q G W K T : Type) where
  | queue (a : QueueAct Q G W T)
  | cancel (a : CancelAct G W T)
  | sync (a : SyncAct W T)
  | worker (a : WorkerAct Q G K)

section Steps
variable {P Q G W K T : Type} [DecidableEq P] [DecidableEq Q] [DecidableEq G] [DecidableEq W] [DecidableEq K]
  [DecidableEq T]

/-- `get_work_pool` and `get_work_pool_id`: the pool that a flags word names. -/
def dataPool (cfg : WqConfig P Q G K) : WorkData P Q → Option P
  | .pwq q => some (cfg.poolOf q)
  | .pool p => some p
  | .none => none

/-- The word that `set_work_data` writes when the pool id is kept. -/
def keepPool (cfg : WqConfig P Q G K) (d : WorkData P Q) : WorkData P Q :=
  match dataPool cfg d with
  | some p => .pool p
  | none => .none

def workIsCanceling (f : WorkFlags P Q) : Bool :=
  match f.data with
  | .pwq _ => false
  | _ => f.canceling

def Core.setFlags (c : Core P Q G W K T) (w : W) (f : WorkFlags P Q) : Core P Q G W K T :=
  { c with flags := Function.update c.flags (.work w) f }

def Core.setStage (c : Core P Q G W K T) (n : ℕ) (st : Stage W T K) : Core P Q G W K T :=
  { c with stage := Function.update c.stage n st }

def WqState.setPc (s : WqState P Q G W K T) (t : T) (p : Pc P Q G W) : WqState P Q G W K T :=
  { s with pc := Function.update s.pc t p }

/-- PENDING has been taken for a queueing: it gets the next ticket. -/
def beginQueueing (s : WqState P Q G W K T) (t : T) (w : W) (g : G) : WqState P Q G W K T :=
  { s with
    core := { (s.core.setStage s.core.next (.held t)) with next := s.core.next + 1 }
    pc := Function.update s.pc t (.queueing w g s.core.next)
    requeued := fun u => s.requeued u || decide (s.pc u = .waking w) }

/-- The label `fail` of `__queue_work`. -/
def queueFail (s : WqState P Q G W K T) (t : T) (w : W) (n : ℕ) : WqState P Q G W K T :=
  { s with
    core := (s.core.setFlags w { s.core.flags (.work w) with pending := false }).setStage n .cancelled
    pc := Function.update s.pc t .idle }

/-- `__queue_work` with the lock of the pool of `q`. -/
def queueLocked (cfg : WqConfig P Q G K) (s : WqState P Q G W K T) (t : T) (w : W) (q : Q) (n : ℕ) :
    WqState P Q G W K T :=
  if s.core.refcnt q = 0 ∨ s.destroying (cfg.wqOf q) then queueFail s t w n
  else { s with core := queueInsert cfg s.core q w n, pc := Function.update s.pc t .idle }

/-- The pool_workqueue whose worker executes the work on pool `p`, when it belongs to the workqueue `g`. -/
def executingPwq (cfg : WqConfig P Q G K) (c : Core P Q G W K T) (p : P) (w : W) (g : G) : Option Q :=
  (findWorkerExecutingWork cfg c p (.work w)).bind fun k =>
    (c.curr k).bind fun r => if cfg.wqOf r.pwq = g then some r.pwq else none

def afterFlush (w : W) (cancel : Bool) : Pc P Q G W := if cancel then .flushed w else .idle

/-- `start_flush_work` when the work is not queued. -/
def flushExecuting (cfg : WqConfig P Q G K) (s : WqState P Q G W K T) (t : T) (w : W)
    (cancel : Bool) (p : P) :
    Option (WqState P Q G W K T) :=
  match findWorkerExecutingWork cfg s.core p (.work w) with
  | none => some (s.setPc t (afterFlush w cancel))
  | some k =>
      match s.core.curr k with
      | some r =>
          if s.core.refcnt r.pwq < 1 then none
          else
            some { s with
              core := insertBarrierFront cfg s.core k r t
              pc := Function.update s.pc t (.flushWait w cancel)
              done := Function.update s.done t false }
      | none => none

/-- The work of an entry on `cancel_waitq`. -/
def entryWork : Pc P Q G W → Option W
  | .waitCheck w _ => some w
  | .waitSleep w _ => some w
  | .asleep w _ => some w
  | .waitDone w _ => some w
  | _ => none

/-- `__wake_up_one` with the work as its key: entries of other works are passed over, and the walk ends at the
first whose thread sleeps. -/
def wakeUpOne (s : WqState P Q G W K T) (w : W) : List T → WqState P Q G W K T
  | [] => s
  | u :: rest =>
      if entryWork (s.pc u) = some w then
        let s := { s with
          cond := Function.update s.cond u (s.cond u + 1)
          woken := Function.update s.woken u true }
        match s.pc u with
        | .asleep w m => { s with pc := Function.update s.pc u (.waitDone w m), waitq := s.waitq.erase u }
        | _ => wakeUpOne s w rest
      else wakeUpOne s w rest

def foreignStep (s : WqState P Q G W K T) (t : T) (q : Q) (f : ForeignStep) (back : Resume W) :
    WqState P Q G W K T :=
  match f with
  | .getLoad => s.setPc t (.foreign q (.getStore (s.core.refcnt q)) back)
  | .getStore v =>
      { s with core := { s.core with refcnt := Function.update s.core.refcnt q (v + 1) } }.setPc t
        (.foreign q .putLoad back)
  | .putLoad => s.setPc t (.foreign q (.putStore (s.core.refcnt q)) back)
  | .putStore v =>
      { s with core := { s.core with refcnt := Function.update s.core.refcnt q (v - 1) } }.setPc t
        (match back with
         | .grab w m => .grabFail w m
         | .flush w cancel => afterFlush w cancel)

/-- `queue_work_on` and its like, up to the end of `__queue_work`, and the timers of delayed works. -/
def queueStep (cfg : WqConfig P Q G K) (s : WqState P Q G W K T) :
    QueueAct Q G W T → Option (WqState P Q G W K T)
  | .queueWork t w g =>
      if s.pc t = .idle then
        if (s.core.flags (.work w)).pending then some s
        else some (beginQueueing { s with
          core := s.core.setFlags w { s.core.flags (.work w) with pending := true } } t w g)
      else none
  | .armTimer t ok =>
      match s.pc t with
      | .queueing w g n =>
          -- a timer that cannot be armed leaves PENDING set
          if ok then some { s with
            core := s.core.setStage n (.timer w)
            timer := Function.update s.timer w (some (g, n))
            pc := Function.update s.pc t .idle }
          else some { s with core := s.core.setStage n .cancelled, pc := Function.update s.pc t .idle }
      | _ => none
  | .fire t w =>
      if s.pc t = .idle then
        match s.timer w with
        | some (g, n) => some { s with
            core := s.core.setStage n (.held t)
            timer := Function.update s.timer w none
            pc := Function.update s.pc t (.queueing w g n) }
        | none => none
      else none
  | .select t q chained =>
      match s.pc t with
      | .queueing w g n =>
          if cfg.wqOf q = g then
            if (s.draining g ∧ !chained) ∨ s.destroying g then some (queueFail s t w n)
            else some (s.setPc t (.selected w q n))
          else none
      | _ => none
  | .lockLast t =>
      match s.pc t with
      | .selected w q n =>
          match dataPool cfg (s.core.flags (.work w)).data with
          | none => some (s.setPc t (.switching w q n))
          | some p =>
              if p = cfg.poolOf q then some (queueLocked cfg s t w q n)
              else
                match executingPwq cfg s.core p w (cfg.wqOf q) with
                | some q' => some (queueLocked cfg s t w q' n)
                | none => some (s.setPc t (.switching w q n))
      | _ => none
  | .switchLock t =>
      match s.pc t with
      | .switching w q n => some (queueLocked cfg s t w q n)
      | _ => none

/-- `try_to_grab_pending` and what `__cancel_work` and `mod_delayed_work_on` do with its result. -/
def cancelStep (cfg : WqConfig P Q G K) (s : WqState P Q G W K T) :
    CancelAct G W T → Option (WqState P Q G W K T)
  | .call t w m =>
      if s.pc t = .idle then
        some { s with pc := Function.update s.pc t (.grab w m), woken := Function.update s.woken t false }
      else none
  | .grabTimer t =>
      match s.pc t with
      | .grab w m =>
          match if m.dwork then s.timer w else none with
          | some (_, n) => some { s with
              core := s.core.setStage n .cancelled
              timer := Function.update s.timer w none
              pc := Function.update s.pc t (.grabbed w m) }
          | none => some (s.setPc t (.grabBit w m))
      | _ => none
  | .grabBit t =>
      match s.pc t with
      | .grabBit w m =>
          if (s.core.flags (.work w)).pending then some (s.setPc t (.grabRead w m))
          else some { s with
            core := s.core.setFlags w { s.core.flags (.work w) with pending := true }
            pc := Function.update s.pc t (.grabbed w m) }
      | _ => none
  | .grabRead t =>
      match s.pc t with
      | .grabRead w m =>
          match dataPool cfg (s.core.flags (.work w)).data with
          | none => some (s.setPc t (.grabFail w m))
          | some p => some (s.setPc t (.grabLock w m p))
      | _ => none
  | .grabLock t =>
      match s.pc t with
      | .grabLock w m p =>
          match (s.core.flags (.work w)).data with
          | .pwq q =>
              if cfg.poolOf q = p then
                if s.core.refcnt q < 1 then some (s.setPc t (.grabFail w m))
                else some { s with
                  core := grabQueued cfg s.core q w
                  pc := Function.update s.pc t (.grabbed w m) }
              else some (s.setPc t (.foreign q .getLoad (.grab w m)))
          | _ => some (s.setPc t (.grabFail w m))
      | _ => none
  | .grabFail t =>
      match s.pc t with
      | .grabFail w m =>
          if workIsCanceling (s.core.flags (.work w)) then
            some (s.setPc t (if m.sync then .waitPrep w m else .idle))
          else some (s.setPc t (.grab w m))
      | _ => none
  | .foreign t =>
      match s.pc t with
      | .foreign q f back => some (foreignStep s t q f back)
      | _ => none
  | .finish t =>
      match s.pc t with
      | .grabbed w m =>
          if m.sync then none
          else some { s with
            core := s.core.setFlags w (workFlags (keepPool cfg (s.core.flags (.work w)).data) false false)
            pc := Function.update s.pc t .idle }
      | _ => none
  | .modDelayed t g =>
      match s.pc t with
      | .grabbed w m => if m.sync then none else some (beginQueueing s t w g)
      | _ => none

/-- `flush_work` and the rest of `__cancel_work_sync`. -/
def syncStep (cfg : WqConfig P Q G K) (s : WqState P Q G W K T) :
    SyncAct W T → Option (WqState P Q G W K T)
  | .mark t =>
      match s.pc t with
      | .grabbed w m =>
          if m.sync then some { s with
            core := s.core.setFlags w (workFlags (keepPool cfg (s.core.flags (.work w)).data) true true)
            pc := Function.update s.pc t (.flushRead w true)
            woken := Function.update s.woken t false
            requeued := Function.update s.requeued t false }
          else none
      | _ => none
  | .flush t w => if s.pc t = .idle then some (s.setPc t (.flushRead w false)) else none
  | .flushRead t =>
      match s.pc t with
      | .flushRead w cancel =>
          match dataPool cfg (s.core.flags (.work w)).data with
          | none => some (s.setPc t (afterFlush w cancel))
          | some p => some (s.setPc t (.flushLock w cancel p))
      | _ => none
  | .flushLock t =>
      match s.pc t with
      | .flushLock w cancel p =>
          match (s.core.flags (.work w)).data with
          | .pwq q =>
              if cfg.poolOf q = p then
                if s.core.refcnt q < 1 then flushExecuting cfg s t w cancel p
                else some { s with
                  core := insertBarrierBehind cfg s.core q w t
                  pc := Function.update s.pc t (.flushWait w cancel)
                  done := Function.update s.done t false }
              else some (s.setPc t (.foreign q .getLoad (.flush w cancel)))
          | _ => flushExecuting cfg s t w cancel p
      | _ => none
  | .barrierDone t =>
      match s.pc t with
      | .flushWait w cancel => if s.done t then some (s.setPc t (afterFlush w cancel)) else none
      | _ => none
  | .clearData t =>
      match s.pc t with
      | .flushed w => some { s with
          core := s.core.setFlags w (workFlags .none false false)
          pc := Function.update s.pc t (.waking w) }
      | _ => none
  | .wakeOne t =>
      match s.pc t with
      | .waking w => some ((wakeUpOne s w s.waitq).setPc t .idle)
      | _ => none
  | .waitPrep t =>
      match s.pc t with
      | .waitPrep w m => some { s with
          waitq := s.waitq ++ [t]
          cond := Function.update s.cond t 0
          pc := Function.update s.pc t (.waitCheck w m) }
      | _ => none
  | .waitCheck t =>
      match s.pc t with
      | .waitCheck w m =>
          if workIsCanceling (s.core.flags (.work w)) then
            some { s with
              pc := Function.update s.pc t (.waitSleep w m)
              woken := Function.update s.woken t false }
          else some (s.setPc t (.waitDone w m))
      | _ => none
  | .waitSleep t =>
      match s.pc t with
      | .waitSleep w m => some (s.setPc t (if s.cond t % 2 ^ 16 = 0 then .asleep w m else .waitDone w m))
      | _ => none
  | .interrupt t spurious =>
      match s.pc t with
      | .asleep w m => some (s.setPc t (if spurious then .waitDone w m else .waitSleep w m))
      | _ => none
  | .finishWait t =>
      match s.pc t with
      | .waitDone w m => some { s with waitq := s.waitq.erase t, pc := Function.update s.pc t (.grab w m) }
      | _ => none

/-- The workers, and `drain_workqueue` and `destroy_workqueue`. -/
def workerStep (cfg : WqConfig P Q G K) (s : WqState P Q G W K T) :
    WorkerAct Q G K → Option (WqState P Q G W K T)
  | .drain g on => some { s with draining := Function.update s.draining g on }
  | .destroy g => some { s with destroying := Function.update s.destroying g true }
  | .dropBase q =>
      if s.destroying (cfg.wqOf q) ∧ s.core.baseRef q = 1 then
        some { s with core := { s.core with
          baseRef := Function.update s.core.baseRef q 0
          refcnt := Function.update s.core.refcnt q (s.core.refcnt q - 1) } }
      else none
  | .pick k => (pickWork cfg s.core k).map fun c => { s with core := c }
  | .complete k =>
      match s.core.curr k with
      | some r =>
          match r.item with
          | .barrier t =>
              if r.called then none
              else some { s with
                core := { s.core with curr := Function.update s.core.curr k (some { r with called := true }) }
                done := Function.update s.done t true }
          | .work _ => none
      | none => none
  | .finish k =>
      match s.core.curr k with
      | some r => if r.item.isBarrier && !r.called then none
          else some { s with core := finishWork cfg s.core k r }
      | none => none

def wqStep (cfg : WqConfig P Q G K) (s : WqState P Q G W K T) :
    WqAct Q G W K T → Option (WqState P Q G W K T)
  | .queue a => queueStep cfg s a
  | .cancel a => cancelStep cfg s a
  | .sync a => syncStep cfg s a
  | .worker a => workerStep cfg s a

/-- Nothing is queued; every pool_workqueue has its base reference. -/
def coreInit : Core P Q G W K T where
  flags := fun _ => workFlags .none false false
  lists := fun _ => []
  curr := fun _ => none
  nrActive := fun _ => 0
  refcnt := fun _ => 1
  insertSeq := fun _ => 0
  removeSeq := fun _ => 0
  baseRef := fun _ => 1
  ticket := fun _ => 0
  target := fun _ => 0
  stage := fun _ => .unused
  calls := fun _ => 0
  next := 0
  queuedLog := fun _ => []
  startedLog := fun _ => []

def wqInit : WqState P Q G W K T where
  core := coreInit
  timer := fun _ => none
  draining := fun _ => false
  destroying := fun _ => false
  pc := fun _ => .idle
  done := fun _ => false
  waitq := []
  cond := fun _ => 0
  woken := fun _ => false
  requeued := fun _ => false

end Steps

end Skp.Workqueue
