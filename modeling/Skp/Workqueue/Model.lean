import Skp.Foundations.Runs
import Skp.Foundations.LinkedRuns

/-! # Works, lists and workers

The data that the pool locks of `src/process/workqueue.c` protect: the works' flags words, the pools'
worklists, the delayed lists and counters of the pool_workqueues, and the workers with the work they
execute and their scheduled lists. Each function of the source that runs under a pool lock is a function
here; `Calls` adds the threads that call them. A `work_struct` is a user's work or the one inside the
`wq_barrier` on the stack of a flushing thread, which every flush of that thread uses again. `curr_func` is
not kept: the function of a work does not change. Every queueing has a number of its own, its ticket. -/
namespace Skp.Workqueue
set_option autoImplicit false
open Skp.Foundations

inductive Item (W T : Type) where
  | work (w : W)
  | barrier (t : T)
deriving DecidableEq

def Item.isBarrier {W T : Type} : Item W T → Bool
  | .work _ => false
  | .barrier _ => true

/-- `pool->worklist`, `pwq->delayed_works` and `worker->scheduled`. -/
inductive Place (P Q K : Type) where
  | worklist (p : P)
  | delayed (q : Q)
  | scheduled (k : K)
deriving DecidableEq

def Place.isDelayed {P Q K : Type} : Place P Q K → Bool
  | .delayed _ => true
  | _ => false

/-- The part of a flags word above the flag bits: a pool_workqueue when `WQ_WORK_PWQ` is set, else the id of
a pool or no valid id. -/
inductive WorkData (P Q : Type) where
  | pwq (q : Q)
  | pool (p : P)
  | none
deriving DecidableEq

structure WorkFlags (P Q : Type) where
  data : WorkData P Q
  linked : Bool
  pending : Bool
  delayed : Bool
  canceling : Bool
  barrier : Bool
deriving DecidableEq

/-- The values of `set_work_data`: no flag but those named. -/
def workFlags {P Q : Type} (data : WorkData P Q) (pending canceling : Bool) : WorkFlags P Q where
  data := data
  linked := false
  pending := pending
  delayed := false
  canceling := canceling
  barrier := false

/-- What a worker executes: `curr_work` and `curr_pwq`, the local `barrier` of `process_one_work`, and whether
`wq_barrier_func` has made its `complete`. The last two fields name the queueing that is executed and, for a
barrier, the one it waits for. -/
structure Running (Q W T : Type) where
  item : Item W T
  pwq : Q
  barrier : Bool
  called : Bool
  ticket : ℕ
  chain : ℕ

/-- Where a queueing is: not begun, held by the thread that took PENDING, in the timer, on a list, executing,
or over. -/
inductive Stage (W T K : Type) where
  | unused
  | held (t : T)
  | timer (w : W)
  | listed (x : Item W T)
  | running (k : K)
  | finished
  | cancelled
deriving DecidableEq

def Stage.isOver {W T K : Type} : Stage W T K → Bool
  | .finished => true
  | .cancelled => true
  | _ => false

/-- The structure made by `alloc_workqueue` and `create_worker`: the pool and the workqueue of each
pool_workqueue, its `max_active`, and the pool of each worker. -/
structure WqConfig (P Q G K : Type) where
  poolOf : Q → P
  wqOf : Q → G
  maxActive : Q → ℕ
  workerPool : K → P
  workers : List K
  workers_all : ∀ k, k ∈ workers

/-- The fields from `baseRef` on record the history: the base reference until `destroy_workqueue` drops it,
the ticket of each item and of what each barrier waits for, the stage of every ticket, how often its work was
called, the tickets given out, and the order in which works were queued and started. -/
structure Core (P Q G W K T : Type) where
  flags : Item W T → WorkFlags P Q
  lists : Place P Q K → List (Item W T)
  curr : K → Option (Running Q W T)
  nrActive : Q → ℕ
  refcnt : Q → ℤ
  insertSeq : G → BitVec 16
  removeSeq : G → BitVec 16
  baseRef : Q → ℤ
  ticket : Item W T → ℕ
  target : T → ℕ
  stage : ℕ → Stage W T K
  calls : ℕ → ℕ
  next : ℕ
  queuedLog : Q → List ℕ
  startedLog : Q → List ℕ

section Operations
variable {P Q G W K T : Type} [DecidableEq P] [DecidableEq Q] [DecidableEq G] [DecidableEq W] [DecidableEq K]
  [DecidableEq T]

def Core.linked (c : Core P Q G W K T) (x : Item W T) : Bool := (c.flags x).linked

/-- The ticket whose group of entries an item belongs to. -/
def Core.chain (c : Core P Q G W K T) : Item W T → ℕ
  | .work w => c.ticket (.work w)
  | .barrier t => c.target t

def Core.over (c : Core P Q G W K T) (n : ℕ) : Bool := (c.stage n).isOver

/-- `move_linked_works`: `x` and the entries behind it, to the tail of `dst`, up to the first
without LINKED. -/
def moveLinkedWorks (c : Core P Q G W K T) (src dst : Place P Q K) (x : Item W T) : Core P Q G W K T :=
  let before := (c.lists src).takeWhile fun y => decide (y ≠ x)
  let run := splitRun c.linked ((c.lists src).dropWhile fun y => decide (y ≠ x))
  { c with
    lists := Function.update (Function.update c.lists src (before ++ run.2)) dst (c.lists dst ++ run.1) }

def pwqActivateDelayedWork (cfg : WqConfig P Q G K) (c : Core P Q G W K T) (q : Q) (x : Item W T) :
    Core P Q G W K T :=
  let c := moveLinkedWorks c (.delayed q) (.worklist (cfg.poolOf q)) x
  { c with
    flags := Function.update c.flags x { c.flags x with delayed := false }
    nrActive := Function.update c.nrActive q (c.nrActive q + 1) }

/-- `pwq_activate_first_delayed`, when there is one and `max_active` allows it. -/
def activateFirst (cfg : WqConfig P Q G K) (c : Core P Q G W K T) (q : Q) : Core P Q G W K T :=
  match c.lists (.delayed q) with
  | [] => c
  | x :: _ => if c.nrActive q < cfg.maxActive q then pwqActivateDelayedWork cfg c q x else c

def pwqDecNrInFlight (cfg : WqConfig P Q G K) (c : Core P Q G W K T) (q : Q) (barrier : Bool) :
    Core P Q G W K T :=
  let c := if barrier then c else { c with nrActive := Function.update c.nrActive q (c.nrActive q - 1) }
  let c := activateFirst cfg c q
  { c with
    removeSeq := Function.update c.removeSeq (cfg.wqOf q) (c.removeSeq (cfg.wqOf q) + 1)
    refcnt := Function.update c.refcnt q (c.refcnt q - 1) }

def pwqIncNrInFlight (cfg : WqConfig P Q G K) (c : Core P Q G W K T) (q : Q) (active : Bool) :
    Core P Q G W K T :=
  { c with
    nrActive := if active then Function.update c.nrActive q (c.nrActive q + 1) else c.nrActive
    refcnt := Function.update c.refcnt q (c.refcnt q + 1)
    insertSeq := Function.update c.insertSeq (cfg.wqOf q) (c.insertSeq (cfg.wqOf q) + 1) }

/-- `insert_work`; the lists are given with the item already in its place. -/
def insertWork (cfg : WqConfig P Q G K) (c : Core P Q G W K T) (q : Q) (x : Item W T)
    (lists : Place P Q K → List (Item W T)) (linked delayed barrier : Bool) : Core P Q G W K T :=
  let c := pwqIncNrInFlight cfg c q (!(barrier || delayed))
  { c with
    flags := Function.update c.flags x
      { data := .pwq q, linked := linked, pending := true, delayed := delayed, canceling := false,
        barrier := barrier }
    lists := lists }

/-- The end of `__queue_work`: the worklist, or the delayed list when `max_active` works are active. -/
def queueInsert (cfg : WqConfig P Q G K) (c : Core P Q G W K T) (q : Q) (w : W) (n : ℕ) : Core P Q G W K T :=
  let delayed := !decide (c.nrActive q < cfg.maxActive q)
  let pl : Place P Q K := if delayed then .delayed q else .worklist (cfg.poolOf q)
  let c :=
    insertWork cfg c q (.work w) (Function.update c.lists pl (c.lists pl ++ [.work w]))
      false delayed false
  { c with
    ticket := Function.update c.ticket (.work w) n
    stage := Function.update c.stage n (.listed (.work w))
    queuedLog := Function.update c.queuedLog q (c.queuedLog q ++ [n]) }

def insertBehind {α : Type} [DecidableEq α] (x y : α) : List α → List α
  | [] => []
  | z :: l => if z = x then z :: y :: l else z :: insertBehind x y l

/-- The barrier of thread `t` gets a new ticket and waits for the queueing `m`. -/
def startBarrier (c : Core P Q G W K T) (t : T) (m : ℕ) : Core P Q G W K T :=
  { c with
    ticket := Function.update c.ticket (.barrier t) c.next
    target := Function.update c.target t m
    stage := Function.update c.stage c.next (.listed (.barrier t))
    next := c.next + 1 }

/-- `insert_wq_barrier` behind a queued work: the barrier takes over its LINKED. -/
def insertBarrierBehind (cfg : WqConfig P Q G K) (c : Core P Q G W K T) (q : Q) (w : W) (t : T) :
    Core P Q G W K T :=
  let linked := c.linked (.work w)
  let m := c.ticket (.work w)
  let c := { c with flags := Function.update c.flags (.work w) { c.flags (.work w) with linked := true } }
  startBarrier
    (insertWork cfg c q (.barrier t) (fun pl => insertBehind (.work w) (.barrier t) (c.lists pl))
      linked false true) t m

/-- `insert_wq_barrier` in front of the scheduled works of the worker that executes the work. -/
def insertBarrierFront (cfg : WqConfig P Q G K) (c : Core P Q G W K T) (k : K) (r : Running Q W T) (t : T) :
    Core P Q G W K T :=
  let pl : Place P Q K := .scheduled k
  startBarrier
    (insertWork cfg c r.pwq (.barrier t) (Function.update c.lists pl (.barrier t :: c.lists pl))
      false false true)
    t r.ticket

def executes (c : Core P Q G W K T) (k : K) (x : Item W T) : Bool :=
  match c.curr k with
  | some r => decide (r.item = x)
  | none => false

def findWorkerExecutingWork (cfg : WqConfig P Q G K) (c : Core P Q G W K T) (p : P) (x : Item W T) :
    Option K :=
  cfg.workers.find? fun k => decide (cfg.workerPool k = p) && executes c k x

/-- `process_one_work` past the check for a collision, up to the call of the function. -/
def startWork (cfg : WqConfig P Q G K) (c : Core P Q G W K T) (k : K) (src : Place P Q K)
    (x : Item W T) (q : Q) :
    Core P Q G W K T :=
  let barrier := (c.flags x).barrier
  { c with
    flags := Function.update c.flags x (workFlags (.pool (cfg.workerPool k)) false false)
    lists := Function.update c.lists src ((c.lists src).erase x)
    curr := Function.update c.curr k
      (some
        { item := x, pwq := q, barrier := barrier, called := false, ticket := c.ticket x
          chain := c.chain x })
    stage := Function.update c.stage (c.ticket x) (.running k)
    calls := Function.update c.calls (c.ticket x) (c.calls (c.ticket x) + 1)
    startedLog :=
    if barrier then c.startedLog
    else Function.update c.startedLog q (c.startedLog q ++ [c.ticket x]) }

def processOneWork (cfg : WqConfig P Q G K) (c : Core P Q G W K T) (k : K) (src : Place P Q K)
    (x : Item W T) :
    Option (Core P Q G W K T) :=
  match findWorkerExecutingWork cfg c (cfg.workerPool k) x with
  | some other => some (moveLinkedWorks c src (.scheduled other) x)
  | none =>
      match (c.flags x).data with
      | .pwq q => some (startWork cfg c k src x q)
      | _ => none

/-- The next work in the loop of `worker_cb`: the scheduled works first, then the worklist. -/
def pickWork (cfg : WqConfig P Q G K) (c : Core P Q G W K T) (k : K) : Option (Core P Q G W K T) :=
  if (c.curr k).isSome then none
  else
    match c.lists (.scheduled k) with
    | x :: _ => processOneWork cfg c k (.scheduled k) x
    | [] =>
        match c.lists (.worklist (cfg.workerPool k)) with
        | [] => none
        | x :: _ =>
            if c.linked x then
              processOneWork cfg (moveLinkedWorks c (.worklist (cfg.workerPool k)) (.scheduled k) x)
                k (.scheduled k) x
            else processOneWork cfg c k (.worklist (cfg.workerPool k)) x

/-- `process_one_work` after the call of the function. -/
def finishWork (cfg : WqConfig P Q G K) (c : Core P Q G W K T) (k : K) (r : Running Q W T) :
    Core P Q G W K T :=
  pwqDecNrInFlight cfg
    { c with curr := Function.update c.curr k none, stage := Function.update c.stage r.ticket .finished }
    r.pwq r.barrier

/-- `try_to_grab_pending` with the lock of the work's pool: a delayed work is activated first. The reference
that `get_pwq` takes for the time of the section is dropped at its end. -/
def grabQueued (cfg : WqConfig P Q G K) (c : Core P Q G W K T) (q : Q) (w : W) : Core P Q G W K T :=
  let c := if (c.flags (.work w)).delayed then pwqActivateDelayedWork cfg c q (.work w) else c
  let barrier := (c.flags (.work w)).barrier
  let c := { c with
    lists := fun pl => (c.lists pl).erase (.work w)
    stage := Function.update c.stage (c.ticket (.work w)) .cancelled }
  let c := pwqDecNrInFlight cfg c q barrier
  { c with flags := Function.update c.flags (.work w) (workFlags (.pool (cfg.poolOf q)) true false) }

end Operations

end Skp.Workqueue
