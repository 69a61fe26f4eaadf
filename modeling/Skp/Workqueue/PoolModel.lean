import Skp.Workqueue.Calls

/-! # The workers of a pool

What `src/process/workqueue.c` does so that somebody works on a worklist: the idle list,
`nr_running`, `wake_up_worker`, the manager, and `worker_cb` around the steps of `Calls`. The lock
of a pool is kept here. A worker that holds it reads and changes `nr_running` in steps of their own,
as the callbacks that sleep and wake up change it without the lock; so does a thread at the end of
`insert_work`. A sleeping worker has `signals`, the additions to the `cond` of its wait entry since
it went idle, kept in full and compared modulo `2 ^ 16`. `nr_idles` is the length of the idle list,
and `idle_worker_timeout` may find the time of a worker over at any time. -/
namespace Skp.Workqueue
set_option autoImplicit false
open Skp.Foundations

/-! ## One pool -/

/-- Where a worker is in `worker_cb`: not there; on the idle list as a new thread, past the unlock,
asleep in `wait_on`, past `wait_on`; with the lock before `need_more_worker`, `may_start_working`,
in `maybe_create_worker` without it, before it takes it again and before it tests again; before it
clears `WORKER_PREP`, at the next work, past `list_del_init` of a work; in the callback, there in
`__wq_worker_sleeping` before the test of the list and before the lock, and asleep; with the lock
after a work, before it sets `WORKER_PREP`, before `worker_enter_idle`; and with `WORKER_DIE` on its
way out. -/
inductive WorkerPc where
  | absent
  | launched
  | unlocked
  | asleep
  | woken
  | recheck
  | mayStart
  | managing
  | relock
  | managed
  | starting
  | loop
  | picked
  | calling
  | sleepTest
  | sleepLock
  | sleeping
  | processed
  | stopping
  | entering
  | dying
deriving DecidableEq

/-- Who has `pool->lock`: a worker, or a thread that is in `insert_work`. -/
inductive PoolHolder (K T : Type) where
  | worker (k : K)
  | caller (t : T)
deriving DecidableEq

structure WorkerPool (K T : Type) where
  nrRunning : ℤ
  idleWorker : List K
  nrWorkers : ℕ
  managerActive : Bool
  lock : Option (PoolHolder K T)
  pc : K → WorkerPc
  signals : K → ℕ

/-- Whether the workers of a pool are bound, and `MAX_WORKERS_PER_POOL`. -/
structure PoolKind where
  bound : Bool
  maxWorkers : ℕ

section Pool
variable {K T : Type} [DecidableEq K] [DecidableEq T]

def WorkerPool.goto (v : WorkerPool K T) (k : K) (pc : WorkerPc) : WorkerPool K T :=
  { v with pc := Function.update v.pc k pc }

def WorkerPool.free (v : WorkerPool K T) : WorkerPool K T := { v with lock := none }

/-- `lock_pool` by a worker. -/
def WorkerPool.lockBy (v : WorkerPool K T) (k : K) (pc : WorkerPc) : Option (WorkerPool K T) :=
  if v.lock = none then some ({ v with lock := some (.worker k) }.goto k pc) else none

/-- A change of `nr_running`: a worker with `WORKER_UNBOUND` makes none. -/
def WorkerPool.addRunning (v : WorkerPool K T) (kind : PoolKind) (d : ℤ) : WorkerPool K T :=
  if kind.bound = true then { v with nrRunning := v.nrRunning + d } else v

/-- `pending` says that the worklist is not empty. -/
def WorkerPool.needMore (v : WorkerPool K T) (pending : Bool) : Bool := pending && decide (v.nrRunning = 0)

def WorkerPool.mayStart (v : WorkerPool K T) (kind : PoolKind) : Bool :=
  !v.idleWorker.isEmpty || decide (kind.maxWorkers ≤ v.nrWorkers)

def WorkerPool.needToCreate (v : WorkerPool K T) (kind : PoolKind) (pending : Bool) : Bool :=
  v.needMore pending && !v.mayStart kind

def WorkerPool.keepWorking (v : WorkerPool K T) (pending : Bool) : Bool := pending && decide (v.nrRunning ≤ 1)

def maxIdleWorkersRatio : ℕ := 4

def WorkerPool.tooMany (v : WorkerPool K T) : Bool :=
  let nrIdles := v.idleWorker.length + v.managerActive.toNat
  let nrBusy := v.nrWorkers - nrIdles
  decide (2 < nrIdles) && decide (nrBusy ≤ (nrIdles - 2) * maxIdleWorkersRatio)

/-- `wake_up_one_locked` on the wait queue of a worker: `default_wake_function` on its entry, if the
entry is there. -/
def WorkerPool.signal (v : WorkerPool K T) (k : K) : WorkerPool K T :=
  match v.pc k with
  | .unlocked => { v with signals := Function.update v.signals k (v.signals k + 1) }
  | .asleep => v.goto k .woken
  | _ => v

/-- `wake_up_worker`: the first idle worker. -/
def WorkerPool.wakeUp (v : WorkerPool K T) : WorkerPool K T :=
  match v.idleWorker with
  | [] => v
  | k :: _ => v.signal k

/-- The end of `insert_work`, and the unlock. -/
def WorkerPool.insertEnd (v : WorkerPool K T) : WorkerPool K T :=
  (if v.nrRunning = 0 then v.wakeUp else v).free

/-- `create_worker` from `lock_pool` on. -/
def WorkerPool.launch (v : WorkerPool K T) (k : K) : WorkerPool K T :=
  { v with nrWorkers := v.nrWorkers + 1, idleWorker := k :: v.idleWorker }.goto k .launched

/-- `destroy_worker`. -/
def WorkerPool.destroy (v : WorkerPool K T) (k : K) : WorkerPool K T :=
  { v with nrWorkers := v.nrWorkers - 1, idleWorker := v.idleWorker.erase k }.goto k .dying

/-- The next step of a worker where no other part of the state moves; `scheduled` says that its
scheduled list is not empty. -/
def WorkerPool.next (v : WorkerPool K T) (kind : PoolKind) (pending scheduled : Bool) (k : K) :
    WorkerPc → Option (WorkerPool K T)
  | .launched => { v with idleWorker := v.idleWorker.erase k }.lockBy k .recheck
  | .unlocked => some (v.goto k (if v.signals k % 2 ^ 16 = 0 then .asleep else .woken))
  | .woken => { v with idleWorker := v.idleWorker.erase k }.lockBy k .recheck
  | .recheck => some (v.goto k (if v.needMore pending = true then .mayStart else .entering))
  | .mayStart =>
      some (if v.mayStart kind = true ∨ v.managerActive = true then v.goto k .starting
        else { v.free with managerActive := true }.goto k .managing)
  | .relock => v.lockBy k .managed
  | .managed =>
      some (if v.needToCreate kind pending = true then v.free.goto k .managing
        else { v with managerActive := false }.goto k .recheck)
  | .starting => some ((v.addRunning kind 1).goto k .loop)
  | .picked => some ((if v.needMore pending = true then v.wakeUp else v).free.goto k .calling)
  | .sleepTest => some (v.goto k (if pending = true then .sleepLock else .sleeping))
  | .sleepLock =>
      if v.lock = none then some ((if pending = true then v.wakeUp else v).goto k .sleeping)
        else none
  | .processed =>
      some (v.goto k (if scheduled = true ∨ v.keepWorking pending = true then .loop else .stopping))
  | .stopping => some ((v.addRunning kind (-1)).goto k .entering)
  | .entering =>
      some ({ v.free with
        idleWorker := k :: v.idleWorker
        signals := Function.update v.signals k 0 }.goto k .unlocked)
  | .dying => if v.lock = none then some (v.goto k .absent) else none
  | _ => none

/-- `__wq_worker_sleeping` up to `atomic_dec_and_test`, in the callback of a worker of a bound pool. -/
def WorkerPool.sleep (v : WorkerPool K T) (kind : PoolKind) (k : K) : Option (WorkerPool K T) :=
  if kind.bound = true ∧ v.pc k = .calling then
    some ((v.addRunning kind (-1)).goto k (if v.nrRunning = 1 then .sleepTest else .sleeping))
  else none

/-- `__wq_worker_waking_up`. -/
def WorkerPool.wake (v : WorkerPool K T) (kind : PoolKind) (k : K) : Option (WorkerPool K T) :=
  if v.pc k = .sleeping then some ((v.addRunning kind 1).goto k .calling) else none

/-- `futex_wait` is interrupted and tries again, or returns for no reason. -/
def WorkerPool.interrupt (v : WorkerPool K T) (k : K) (spurious : Bool) : Option (WorkerPool K T) :=
  if v.pc k = .asleep then some (v.goto k (if spurious = true then .woken else .unlocked)) else none

/-- `workqueue_init` creates the first worker of a pool. -/
def WorkerPool.boot (v : WorkerPool K T) (k : K) : Option (WorkerPool K T) :=
  if v.lock = none ∧ v.nrWorkers = 0 ∧ v.pc k = .absent then some (v.launch k) else none

/-- `create_worker` in `maybe_create_worker`; a new one is the worker `other`. -/
def WorkerPool.create (v : WorkerPool K T) (k other : K) : Option (WorkerPool K T) :=
  if v.lock = none ∧ v.pc k = .managing ∧ v.pc other = .absent then
    some ((v.launch other).goto k .relock) else none

/-- `create_worker` fails. The reads of `need_to_create_worker` without the lock may see anything:
the manager tries again or takes the lock. -/
def WorkerPool.createFail (v : WorkerPool K T) (k : K) (again : Bool) : Option (WorkerPool K T) :=
  if v.pc k = .managing then some (v.goto k (if again = true then .managing else .relock)) else none

/-- One turn of the loop in `idle_worker_timeout`. -/
def WorkerPool.idleTimeout (v : WorkerPool K T) : Option (WorkerPool K T) :=
  if v.lock = none ∧ v.tooMany = true then v.idleWorker.getLast?.map v.destroy else none

def workerPoolInit : WorkerPool K T where
  nrRunning := 0
  idleWorker := []
  nrWorkers := 0
  managerActive := false
  lock := none
  pc := fun _ => .absent
  signals := fun _ => 0

end Pool

/-! ## All pools and their callers -/

/-- `inserting` is the pool whose lock a thread has in `insert_work`. -/
structure PoolsState (P Q G W K T : Type) where
  base : WqState P Q G W K T
  pool : P → WorkerPool K T
  inserting : T → Option P

/-- `call` is a step of `Calls` that no worker makes. -/
inductive PoolsAct (P Q G W K T : Type) where
  | call (a : WqAct Q G W K T)
  | insertEnd (t : T)
  | boot (k : K)
  | next (k : K)
  | create (k other : K)
  | createFail (k : K) (again : Bool)
  | interrupt (k : K) (spurious : Bool)
  | sleep (k : K)
  | wake (k : K)
  | complete (k : K)
  | finish (k : K)
  | idleTimeout (p : P)

def QueueAct.thread {Q G W T : Type} : QueueAct Q G W T → T
  | .queueWork t _ _ => t
  | .armTimer t _ => t
  | .fire t _ => t
  | .select t _ _ => t
  | .lockLast t => t
  | .switchLock t => t

def CancelAct.thread {G W T : Type} : CancelAct G W T → T
  | .call t _ _ => t
  | .grabTimer t => t
  | .grabBit t => t
  | .grabRead t => t
  | .grabLock t => t
  | .grabFail t => t
  | .foreign t => t
  | .finish t => t
  | .modDelayed t _ => t

def SyncAct.thread {W T : Type} : SyncAct W T → T
  | .mark t => t
  | .flush t _ => t
  | .flushRead t => t
  | .flushLock t => t
  | .barrierDone t => t
  | .clearData t => t
  | .wakeOne t => t
  | .waitPrep t => t
  | .waitCheck t => t
  | .waitSleep t => t
  | .interrupt t _ => t
  | .finishWait t => t

def WqAct.thread {Q G W K T : Type} : WqAct Q G W K T → Option T
  | .queue a => some a.thread
  | .cancel a => some a.thread
  | .sync a => some a.thread
  | .worker _ => none

section System
variable {P Q G W K T : Type} [DecidableEq P] [DecidableEq Q] [DecidableEq G] [DecidableEq W] [DecidableEq K]
  [DecidableEq T]

/-- The pool_workqueue that `__queue_work` has when it holds the lock. -/
def queuePwq (cfg : WqConfig P Q G K) (s : WqState P Q G W K T) (t : T) : Option Q :=
  match s.pc t with
  | .selected w q _ =>
      (dataPool cfg (s.core.flags (.work w)).data).bind fun p =>
        if p = cfg.poolOf q then some q else executingPwq cfg s.core p w (cfg.wqOf q)
  | .switching _ q _ => some q
  | _ => none

/-- The pool_workqueue of the worker on pool `p` that executes the work. -/
def workerPwq (cfg : WqConfig P Q G K) (c : Core P Q G W K T) (p : P) (w : W) : Option Q :=
  (findWorkerExecutingWork cfg c p (.work w)).bind fun k => (c.curr k).map fun r => r.pwq

/-- The pool_workqueue that the barrier of `start_flush_work` goes to. -/
def flushPwq (cfg : WqConfig P Q G K) (s : WqState P Q G W K T) (t : T) : Option Q :=
  match s.pc t with
  | .flushLock w _ p =>
      match (s.core.flags (.work w)).data with
      | .pwq q =>
          if cfg.poolOf q = p then (if s.core.refcnt q < 1 then workerPwq cfg s.core p w
            else some q) else none
      | _ => workerPwq cfg s.core p w
  | _ => none

/-- The thread and the pool of a step that reaches `insert_work`. -/
def insertsAt (cfg : WqConfig P Q G K) (s : WqState P Q G W K T) (a : WqAct Q G W K T) : Option (T × P) :=
  match a with
  | .queue (.lockLast t) | .queue (.switchLock t) =>
      ((queuePwq cfg s t).filter fun q => !decide (s.core.refcnt q = 0 ∨ s.destroying (cfg.wqOf q))).map
        fun q => (t, cfg.poolOf q)
  | .sync (.flushLock t) => (flushPwq cfg s t).map fun q => (t, cfg.poolOf q)
  | _ => none

/-- The pool that the section of a step locks. -/
def lockedPool (cfg : WqConfig P Q G K) (s : WqState P Q G W K T) (a : WqAct Q G W K T) : Option P :=
  match a with
  | .queue (.lockLast t) | .queue (.switchLock t) =>
      match s.pc t with
      | .selected w _ _ => dataPool cfg (s.core.flags (.work w)).data
      | .switching _ q _ => some (cfg.poolOf q)
      | _ => none
  | .cancel (.grabLock t) =>
      match s.pc t with
      | .grabLock _ _ p => some p
      | _ => none
  | .sync (.flushLock t) =>
      match s.pc t with
      | .flushLock _ _ p => some p
      | _ => none
  | .worker (.dropBase q) => some (cfg.poolOf q)
  | _ => none

/-- A thread that does not hold the lock of a pool, and finds the lock that it takes free, makes its step. -/
def outsideStep (cfg : WqConfig P Q G K) (s : PoolsState P Q G W K T) (a : WqAct Q G W K T) :
    Option (PoolsState P Q G W K T) :=
  if (∀ t ∈ a.thread, s.inserting t = none) ∧ ∀ p ∈ lockedPool cfg s.base a, (s.pool p).lock = none then
    (wqStep cfg s.base a).map fun b =>
      match insertsAt cfg s.base a with
      | some (t, p) =>
          { base := b
            pool := Function.update s.pool p { s.pool p with lock := some (.caller t) }
            inserting := Function.update s.inserting t (some p) }
      | none => { s with base := b }
  else none

/-- The worklist of a pool is not empty. -/
def Core.pending (c : Core P Q G W K T) (p : P) : Bool := !(c.lists (.worklist p)).isEmpty

def PoolsState.pending (s : PoolsState P Q G W K T) (p : P) : Bool := s.base.core.pending p

def PoolsState.setPool (s : PoolsState P Q G W K T) (p : P) (v : WorkerPool K T) : PoolsState P Q G W K T :=
  { s with pool := Function.update s.pool p v }

/-- A step that only touches one pool. -/
def PoolsState.onPool (s : PoolsState P Q G W K T) (p : P) (f : WorkerPool K T → Option (WorkerPool K T)) :
    Option (PoolsState P Q G W K T) :=
  (f (s.pool p)).map fun v => s.setPool p v

/-- The next step of a worker. In `process_one_work` a work that another worker executes is passed
on to it. -/
def nextStep (cfg : WqConfig P Q G K) (kinds : P → PoolKind) (s : PoolsState P Q G W K T) (k : K) :
    Option (PoolsState P Q G W K T) :=
  let p := cfg.workerPool k
  match (s.pool p).pc k with
  | .loop =>
      (wqStep cfg s.base (.worker (.pick k))).map fun b =>
        { s with base := b }.setPool p
          ((s.pool p).goto k (if (b.core.curr k).isSome = true then .picked else .processed))
  | pc =>
      s.onPool p fun v =>
        v.next (kinds p) (s.pending p) (!(s.base.core.lists (.scheduled k)).isEmpty) k pc

def poolsStep (cfg : WqConfig P Q G K) (kinds : P → PoolKind) (s : PoolsState P Q G W K T) :
    PoolsAct P Q G W K T → Option (PoolsState P Q G W K T)
  | .call a =>
      match a with
      | .worker (.pick _) => none
      | .worker (.complete _) => none
      | .worker (.finish _) => none
      | a => outsideStep cfg s a
  | .insertEnd t =>
      match s.inserting t with
      | some p =>
          some { s.setPool p (s.pool p).insertEnd with inserting := Function.update s.inserting t none }
      | none => none
  | .boot k => s.onPool (cfg.workerPool k) fun v => v.boot k
  | .next k => nextStep cfg kinds s k
  | .create k other =>
      if cfg.workerPool other = cfg.workerPool k then s.onPool (cfg.workerPool k) fun v =>
        v.create k other else none
  | .createFail k again => s.onPool (cfg.workerPool k) fun v => v.createFail k again
  | .interrupt k spurious => s.onPool (cfg.workerPool k) fun v => v.interrupt k spurious
  | .sleep k => s.onPool (cfg.workerPool k) fun v => v.sleep (kinds (cfg.workerPool k)) k
  | .wake k => s.onPool (cfg.workerPool k) fun v => v.wake (kinds (cfg.workerPool k)) k
  | .complete k =>
      if (s.pool (cfg.workerPool k)).pc k = .calling then
        (wqStep cfg s.base (.worker (.complete k))).map fun b => { s with base := b }
      else none
  | .finish k =>
      if (s.pool (cfg.workerPool k)).pc k = .calling then
        (wqStep cfg s.base (.worker (.finish k))).bind fun b =>
          { s with base := b }.onPool (cfg.workerPool k) fun v => v.lockBy k .processed
      else none
  | .idleTimeout p => s.onPool p fun v => v.idleTimeout

def poolsInit : PoolsState P Q G W K T where
  base := wqInit
  pool := fun _ => workerPoolInit
  inserting := fun _ => none

end System

end Skp.Workqueue
