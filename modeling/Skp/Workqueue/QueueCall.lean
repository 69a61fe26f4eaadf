import Skp.Workqueue.Reach

/-! # One queueing call, lock by lock

`queue_work_on` and `queue_delayed_work_on` with the pool locks and the pool references that
`__queue_work` takes, between arbitrary steps of other threads. These may change everything but what
the call owns: the pool locks it holds and the PENDING bit it has taken. -/
namespace Skp.Workqueue
set_option autoImplicit false
open Skp.Foundations

variable {P Q G W K T : Type} [DecidableEq P] [DecidableEq Q] [DecidableEq G] [DecidableEq W] [DecidableEq K]
  [DecidableEq T]

/-- `live` says that the id of a pool is valid and in `wq_pool_idr`, `timer` that the timer of a
delayed work is in the heap, `events` that the event system still has a slot for it. -/
structure CallShared (P Q G W K T : Type) where
  core : Core P Q G W K T
  timer : W → Bool
  draining : G → Bool
  destroying : G → Bool
  lock : P → Option T
  poolRef : P → ℤ
  live : P → Bool
  events : Bool

/-- The arguments of a call and what does not change while it runs: whether its thread executes a
work of the same workqueue, and the pool_workqueue that `select_pwq` computes. `queue_work_on` has
delay 0. -/
structure QueueCall (Q G W T : Type) where
  thread : T
  work : W
  wq : G
  delay : ℕ
  chained : Bool
  pwq : Q

/-- The places of the call where another thread may run. `ignored` is the return of a call that did
not get PENDING. -/
inductive CallPc (P Q : Type) where
  | entry
  | pending
  | selected (q : Q)
  | lastFound (q : Q) (p : P)
  | lastGot (q : Q) (p : P)
  | lastLocked (q : Q) (p : P)
  | lastPut (q : Q) (p : P)
  | noLast (q : Q)
  | got (q : Q)
  | check (q : Q) (last : Option P)
  | inserted (p : P)
  | unlocked (p : P)
  | returned (ok : Bool)
  | ignored
deriving DecidableEq

/-- `took` counts the references to each pool that the call has taken and not dropped. -/
structure CallState (P Q G W K T : Type) where
  shared : CallShared P Q G W K T
  pc : CallPc P Q
  took : P → ℤ

section Steps

/-- `get_worker_pool`: a pool without references gives NULL, after the increment. -/
def getWorkerPool (sys : P → Bool) (s : CallState P Q G W K T) (p : P) (found null : CallPc P Q) :
    CallState P Q G W K T :=
  if sys p then { s with pc := found }
  else
    { shared := { s.shared with poolRef := Function.update s.shared.poolRef p (s.shared.poolRef p + 1) }
      took := Function.update s.took p (s.took p + 1)
      pc := if s.shared.poolRef p < 1 then null else found }

/-- `put_worker_pool`: the last reference of a dynamic pool gives up its id. -/
def putWorkerPool (sys : P → Bool) (s : CallState P Q G W K T) (p : P) (next : CallPc P Q) :
    CallState P Q G W K T :=
  if sys p then { s with pc := next }
  else
    { shared := { s.shared with
        poolRef := Function.update s.shared.poolRef p (s.shared.poolRef p - 1)
        live := if s.shared.poolRef p = 1 then Function.update s.shared.live p false else s.shared.live }
      took := Function.update s.took p (s.took p - 1)
      pc := next }

def lockPool (s : CallState P Q G W K T) (t : T) (p : P) (next : CallPc P Q) :
    Option (CallState P Q G W K T) :=
  if s.shared.lock p = none then
    some { s with shared := { s.shared with lock := Function.update s.shared.lock p (some t) }, pc := next }
  else none

def unlockPool (s : CallState P Q G W K T) (p : P) (next : CallPc P Q) : CallState P Q G W K T :=
  { s with shared := { s.shared with lock := Function.update s.shared.lock p none }, pc := next }

def setPending (s : CallState P Q G W K T) (w : W) (on : Bool) (next : CallPc P Q) : CallState P Q G W K T :=
  { s with
    shared := { s.shared with
      core := s.shared.core.setFlags w { s.shared.core.flags (.work w) with pending := on } }
    pc := next }

/-- `select_pwq` gives NULL. -/
def Refused (call : QueueCall Q G W T) (s : CallState P Q G W K T) : Prop :=
  (s.shared.draining call.wq = true ∧ call.chained = false) ∨ s.shared.destroying call.wq = true

instance (call : QueueCall Q G W T) (s : CallState P Q G W K T) : Decidable (Refused call s) :=
  inferInstanceAs (Decidable (_ ∨ _))

/-- `__uev_timer_modify`, which fails when the event system stops and gives the rest of the old time
for a timer that was pending. -/
def armTimer (call : QueueCall Q G W T) (s : CallState P Q G W K T) : CallState P Q G W K T :=
  if s.shared.events then
    { s with
      shared := { s.shared with timer := Function.update s.shared.timer call.work true }
      pc := .returned (!s.shared.timer call.work) }
  else { s with pc := .returned false }

def callStep (cfg : WqConfig P Q G K) (sys : P → Bool) (call : QueueCall Q G W T)
    (s : CallState P Q G W K T) :
    Option (CallState P Q G W K T) :=
  match s.pc with
  | .entry =>
      if (s.shared.core.flags (.work call.work)).pending then some { s with pc := .ignored }
      else some (setPending s call.work true .pending)
  | .pending =>
      if call.delay = 0 then
        if Refused call s then some (setPending s call.work false (.returned false))
        else some { s with pc := .selected call.pwq }
      else some (armTimer call s)
  | .selected q =>
      match (s.shared.core.flags (.work call.work)).data with
      | .pwq q' => some { s with pc := .lastFound q (cfg.poolOf q') }
      | .pool p => some { s with pc := if s.shared.live p then .lastFound q p else .noLast q }
      | .none => some { s with pc := .noLast q }
  | .lastFound q p => some (getWorkerPool sys s p (.lastGot q p) (.noLast q))
  | .lastGot q p => lockPool s call.thread p (.lastLocked q p)
  | .lastLocked q p =>
      if p = cfg.poolOf q then some { s with pc := .check q (some p) }
      else
        match executingPwq cfg s.shared.core p call.work call.wq with
        | some q' => some { s with pc := .check q' (some p) }
        | none => some (unlockPool s p (.lastPut q p))
  | .lastPut q p => some (putWorkerPool sys s p (.noLast q))
  | .noLast q => some (getWorkerPool sys s (cfg.poolOf q) (.got q) (.check q none))
  | .got q => lockPool s call.thread (cfg.poolOf q) (.check q (some (cfg.poolOf q)))
  | .check _ none => some (setPending s call.work false (.returned false))
  | .check q (some p) =>
      -- the label `fail` neither unlocks the pool nor drops the reference
      if s.shared.live p = false ∨ s.shared.core.refcnt q = 0 ∨ s.shared.destroying (cfg.wqOf q) = true then
        some (setPending s call.work false (.returned false))
      else
        some { s with
          shared := { s.shared with
            core :=
            { queueInsert cfg s.shared.core q call.work s.shared.core.next
              with next := s.shared.core.next + 1 } }
          pc := .inserted p }
  | .inserted p => some (unlockPool s p (.unlocked p))
  | .unlocked p => some (putWorkerPool sys s p (.returned true))
  | .returned _ => none
  | .ignored => none

end Steps

/-- The call has taken PENDING and not given it back or away. -/
def CallPc.holdsPending : CallPc P Q → Bool
  | .entry => false
  | .inserted _ => false
  | .unlocked _ => false
  | .returned _ => false
  | .ignored => false
  | _ => true

def CallPc.isOver : CallPc P Q → Bool
  | .returned _ => true
  | .ignored => true
  | _ => false

/-- A step of the other threads while the call runs. -/
structure CallEnv (call : QueueCall Q G W T) (s s' : CallState P Q G W K T) : Prop where
  running : s.pc.isOver = false
  pc : s'.pc = s.pc
  took : s'.took = s.took
  lock : ∀ p, s'.shared.lock p = some call.thread ↔ s.shared.lock p = some call.thread
  pending : s.pc.holdsPending = true → (s.shared.core.flags (.work call.work)).pending = true →
    (s'.shared.core.flags (.work call.work)).pending = true

/-- A run of the call between steps of the others, with the shared state before and after each step
of the call. -/
inductive CallRun (cfg : WqConfig P Q G K) (sys : P → Bool) (call : QueueCall Q G W T)
    (s : CallState P Q G W K T) :
    List (CallShared P Q G W K T × CallShared P Q G W K T) → CallState P Q G W K T → Prop where
  | start : CallRun cfg sys call s [] s
  | env {l : List (CallShared P Q G W K T × CallShared P Q G W K T)} {s1 s2 : CallState P Q G W K T}
      (hrun : CallRun cfg sys call s l s1) (he : CallEnv call s1 s2) : CallRun cfg sys call s l s2
  | own {l : List (CallShared P Q G W K T × CallShared P Q G W K T)} {s1 s2 : CallState P Q G W K T}
      (hrun : CallRun cfg sys call s l s1) (hs : callStep cfg sys call s1 = some s2) :
      CallRun cfg sys call s (l ++ [(s1.shared, s2.shared)]) s2

/-- The lists, the counters and the timer heap agree. -/
structure SameQueues (a b : CallShared P Q G W K T) : Prop where
  lists : b.core.lists = a.core.lists
  nrActive : b.core.nrActive = a.core.nrActive
  refcnt : b.core.refcnt = a.core.refcnt
  insertSeq : b.core.insertSeq = a.core.insertSeq
  removeSeq : b.core.removeSeq = a.core.removeSeq
  timer : b.timer = a.timer

/-- The call leaves nothing behind: the thread holds the pool locks it held before, no pool
reference and no PENDING, and none of the steps of the call changed a list, a counter or the timer
heap. -/
structure CallClean (call : QueueCall Q G W T) (s0 : CallState P Q G W K T)
    (l : List (CallShared P Q G W K T × CallShared P Q G W K T)) (s : CallState P Q G W K T) : Prop where
  unlocked : ∀ p, s.shared.lock p = some call.thread ↔ s0.shared.lock p = some call.thread
  dropped : ∀ p, s.took p = 0
  pending : (s.shared.core.flags (.work call.work)).pending = false
  kept : ∀ x, x ∈ l → SameQueues x.1 x.2

/-- The call has not begun. -/
structure CallFresh (s : CallState P Q G W K T) : Prop where
  pc : s.pc = .entry
  took : ∀ p, s.took p = 0

/-! ## Before `select_pwq` -/

/-- The call has gone past `select_pwq` or the arming of the timer. -/
def CallPc.isPast : CallPc P Q → Bool
  | .entry => false
  | .pending => false
  | _ => true

structure CallBefore (call : QueueCall Q G W T) (s0 : CallState P Q G W K T)
    (l : List (CallShared P Q G W K T × CallShared P Q G W K T)) (s : CallState P Q G W K T) : Prop where
  took : ∀ p, s.took p = 0
  lock : ∀ p, s.shared.lock p = some call.thread ↔ s0.shared.lock p = some call.thread
  pending : s.pc = .pending → (s.shared.core.flags (.work call.work)).pending = true
  kept : ∀ x, x ∈ l → SameQueues x.1 x.2

section Before
variable {cfg : WqConfig P Q G K} {sys : P → Bool} {call : QueueCall Q G W T}
    {s s1 s2 : CallState P Q G W K T}
  {l : List (CallShared P Q G W K T × CallShared P Q G W K T)}

omit [DecidableEq Q] [DecidableEq G] [DecidableEq W] [DecidableEq K] [DecidableEq T] in
theorem isPast_getWorkerPool {p : P} {found null : CallPc P Q} (h1 : found.isPast = true)
    (h2 : null.isPast = true) :
    (getWorkerPool sys s p found null).pc.isPast = true := by
  unfold getWorkerPool
  split
  · exact h1
  · dsimp only
    split
    · exact h2
    · exact h1

omit [DecidableEq Q] [DecidableEq G] [DecidableEq W] [DecidableEq K] [DecidableEq T] in
theorem isPast_putWorkerPool {p : P} {next : CallPc P Q} (h : next.isPast = true) :
    (putWorkerPool sys s p next).pc.isPast = true := by
  unfold putWorkerPool
  split
  · exact h
  · exact h

omit [DecidableEq Q] [DecidableEq G] [DecidableEq W] [DecidableEq K] [DecidableEq T] in
theorem isPast_lockPool {t : T} {p : P} {next : CallPc P Q} (h : next.isPast = true)
    (hs : lockPool s1 t p next = some s2) : s2.pc.isPast = true := by
  unfold lockPool at hs
  split at hs
  · cases hs
    exact h
  · cases hs

/-- Only the step that takes PENDING leads to a place before `select_pwq`. -/
theorem callStep_before (hs : callStep cfg sys call s1 = some s2) (h2 : s2.pc.isPast = false) :
    s1.pc = .entry ∧ s2 = setPending s1 call.work true .pending := by
  unfold callStep at hs
  cases hpc : s1.pc with
  | entry =>
    simp only [hpc] at hs
    split at hs
    · cases hs
      exact Bool.noConfusion h2
    · cases hs
      exact ⟨rfl, rfl⟩
  | pending =>
    simp only [hpc] at hs
    split at hs
    · split at hs
      · cases hs
        exact Bool.noConfusion h2
      · cases hs
        exact Bool.noConfusion h2
    · cases hs
      unfold armTimer at h2
      split at h2
      · exact Bool.noConfusion h2
      · exact Bool.noConfusion h2
  | selected q =>
    simp only [hpc] at hs
    split at hs
    · cases hs
      exact Bool.noConfusion h2
    · cases hs
      dsimp only at h2
      split at h2
      · exact Bool.noConfusion h2
      · exact Bool.noConfusion h2
    · cases hs
      exact Bool.noConfusion h2
  | lastFound q p | noLast q =>
    simp only [hpc, Option.some.injEq] at hs
    rw [← hs, isPast_getWorkerPool rfl rfl] at h2
    exact Bool.noConfusion h2
  | lastGot q p | got q =>
    simp only [hpc] at hs
    rw [isPast_lockPool rfl hs] at h2
    exact Bool.noConfusion h2
  | lastLocked q p =>
    simp only [hpc] at hs
    split at hs
    · cases hs
      exact Bool.noConfusion h2
    · split at hs
      · cases hs
        exact Bool.noConfusion h2
      · cases hs
        exact Bool.noConfusion h2
  | lastPut q p | unlocked p =>
    simp only [hpc, Option.some.injEq] at hs
    rw [← hs, isPast_putWorkerPool rfl] at h2
    exact Bool.noConfusion h2
  | check q last =>
    cases last with
    | none =>
      simp only [hpc, Option.some.injEq] at hs
      rw [← hs] at h2
      exact Bool.noConfusion h2
    | some p =>
      simp only [hpc] at hs
      split at hs
      · cases hs
        exact Bool.noConfusion h2
      · cases hs
        exact Bool.noConfusion h2
  | inserted p =>
    simp only [hpc, Option.some.injEq] at hs
    rw [← hs] at h2
    exact Bool.noConfusion h2
  | returned ok | ignored => simp [hpc] at hs

omit [DecidableEq P] [DecidableEq Q] [DecidableEq G] [DecidableEq K] in
theorem sameQueues_setPending (s : CallState P Q G W K T) (w : W) (on : Bool) (next : CallPc P Q) :
    SameQueues s.shared (setPending s w on next).shared := ⟨rfl, rfl, rfl, rfl, rfl, rfl⟩

theorem callBefore_run (h0 : CallFresh s) (hrun : CallRun cfg sys call s l s1)
    (hpast : s1.pc.isPast = false) :
    CallBefore call s l s1 := by
  induction hrun with
  | start =>
    refine ⟨h0.took, fun _ => Iff.rfl, fun hp => ?_, fun x hx => by cases hx⟩
    rw [h0.pc] at hp
    cases hp
  | env _ he ih =>
    have h := ih (he.pc ▸ hpast)
    refine ⟨fun p =>
      by rw [he.took]; exact h.took p, fun p => (he.lock p).trans (h.lock p), fun hp => ?_, h.kept⟩
    rw [he.pc] at hp
    exact he.pending (by rw [hp]; rfl) (h.pending hp)
  | own _ hs ih =>
    obtain ⟨hentry, rfl⟩ := callStep_before hs hpast
    have h := ih (by rw [hentry]; rfl)
    refine ⟨h.took, h.lock, fun _ => by simp [setPending, Core.setFlags], fun x hx => ?_⟩
    rcases List.mem_append.mp hx with hx | hx
    · exact h.kept x hx
    · rw [List.mem_singleton.mp hx]
      exact sameQueues_setPending _ call.work true .pending

theorem callRun_over (hrun : CallRun cfg sys call s l s1) (ho : s.pc.isOver = true) : s1 = s ∧ l = [] := by
  induction hrun with
  | start => exact ⟨rfl, rfl⟩
  | env _ he ih =>
    rw [← ih.1, he.running] at ho
    exact Bool.noConfusion ho
  | own _ hs ih =>
    rw [ih.1] at hs
    unfold callStep at hs
    cases hpc : s.pc <;> simp [hpc] at hs <;> rw [hpc] at ho <;> exact Bool.noConfusion ho

end Before

/-! ## Behind `select_pwq` -/

/-- A lock, a reference or PENDING is left behind. -/
def LeftBehind (call : QueueCall Q G W T) (s0 s : CallState P Q G W K T) : Prop :=
  (∃ p, s.shared.lock p = some call.thread ∧ s0.shared.lock p ≠ some call.thread) ∨ (∃ p, 1 ≤ s.took p) ∨
    (s.shared.core.flags (.work call.work)).pending = true

/-- The pool that the call has locked. -/
def CallPc.ownLock : CallPc P Q → Option P
  | .lastLocked _ p => some p
  | .check _ last => last
  | .inserted p => some p
  | _ => none

/-- The call has a reference to a dynamic pool `p`. -/
def HasRef (sys : P → Bool) (s : CallState P Q G W K T) (p : P) : Prop := sys p = false → 1 ≤ s.took p

/-- What the call owes at each place behind `select_pwq`. -/
def CallOwes (cfg : WqConfig P Q G K) (sys : P → Bool) (call : QueueCall Q G W T)
    (s0 s : CallState P Q G W K T) : Prop :=
  match s.pc with
  | .entry => False
  | .pending => False
  | .lastGot _ p => HasRef sys s p
  | .lastLocked _ p => HasRef sys s p
  | .lastPut _ p => HasRef sys s p
  | .got q => HasRef sys s (cfg.poolOf q)
  | .check q none => 1 ≤ s.took (cfg.poolOf q)
  | .check _ (some p) => HasRef sys s p
  | .inserted p => HasRef sys s p
  | .unlocked p => HasRef sys s p
  | .returned false => LeftBehind call s0 s
  | _ => True

/-- The locks of the call's thread, while the call runs: those it had and the one the call has taken. -/
structure CallLocks (call : QueueCall Q G W T) (s0 s : CallState P Q G W K T) : Prop where
  held : ∀ p, s.shared.lock p = some call.thread ↔ s0.shared.lock p = some call.thread ∨ s.pc.ownLock = some p
  own : ∀ p, s.pc.ownLock = some p → s0.shared.lock p ≠ some call.thread

structure CallInv (cfg : WqConfig P Q G K) (sys : P → Bool) (call : QueueCall Q G W T)
    (s0 s : CallState P Q G W K T) :
    Prop where
  nonneg : ∀ p, 0 ≤ s.took p
  owes : CallOwes cfg sys call s0 s
  locks : s.pc.isOver = false → CallLocks call s0 s

section Behind
variable {cfg : WqConfig P Q G K} {sys : P → Bool} {call : QueueCall Q G W T}
    {s0 s s1 s2 : CallState P Q G W K T}
  {l : List (CallShared P Q G W K T × CallShared P Q G W K T)}

omit [DecidableEq P] [DecidableEq Q] [DecidableEq G] [DecidableEq W] [DecidableEq K] [DecidableEq T] in
theorem CallInv.env (h : CallInv cfg sys call s0 s) (he : CallEnv call s s1) :
    CallInv cfg sys call s0 s1 := by
  refine ⟨by rw [he.took]; exact h.nonneg, ?_, fun _ => ?_⟩
  · have howes := h.owes
    have hrun := he.running
    unfold CallOwes HasRef at howes ⊢
    rw [he.pc, he.took]
    cases hpc : s.pc with
    | returned ok =>
      rw [hpc] at hrun
      exact Bool.noConfusion hrun
    | check q last =>
      rw [hpc] at howes
      cases last with
      | none => exact howes
      | some p => exact howes
    | entry | pending | lastGot q p | lastLocked q p | lastPut q p | got q | inserted p | unlocked p =>
      rw [hpc] at howes
      exact howes
    | selected q | lastFound q p | noLast q | ignored => trivial
  · have hl := h.locks he.running
    exact ⟨fun p => by rw [he.lock p, hl.held p, he.pc], fun p hp => hl.own p (he.pc ▸ hp)⟩

omit [DecidableEq P] [DecidableEq Q] [DecidableEq G] [DecidableEq W] [DecidableEq K] [DecidableEq T] in
theorem CallLocks.keep (h : CallLocks call s0 s) (hl : s1.shared.lock = s.shared.lock)
    (hp : s1.pc.ownLock = s.pc.ownLock) : CallLocks call s0 s1 :=
  ⟨fun p => by rw [hl, hp]; exact h.held p, fun p => by rw [hp]; exact h.own p⟩

section
omit [DecidableEq Q] [DecidableEq G] [DecidableEq W] [DecidableEq K] [DecidableEq T]

/-- `lock_pool`: the lock was free, so it is none of those the thread had. -/
theorem CallLocks.take (h : CallLocks call s0 s) (hnone : s.pc.ownLock = none) {p : P} {next : CallPc P Q}
    (hs : lockPool s call.thread p next = some s1) (hn : next.ownLock = some p) : CallLocks call s0 s1 := by
  unfold lockPool at hs
  split at hs
  · rename_i hfree
    have hnot : s0.shared.lock p ≠ some call.thread := by
      intro h0
      have := (h.held p).mpr (Or.inl h0)
      rw [hfree] at this
      cases this
    cases hs
    refine ⟨fun p' => ?_, fun p' hp' => ?_⟩
    · dsimp only
      rw [hn]
      by_cases hp : p' = p
      · subst hp
        simp
      · rw [Function.update_of_ne hp, h.held p', hnone]
        simp [Ne.symm hp]
    · dsimp only at hp'
      rw [hn, Option.some.injEq] at hp'
      exact hp' ▸ hnot
  · cases hs

theorem CallLocks.give (h : CallLocks call s0 s) {p : P} (hown : s.pc.ownLock = some p) {next : CallPc P Q}
    (hn : next.ownLock = none) : CallLocks call s0 (unlockPool s p next) := by
  refine ⟨fun p' => ?_, fun p' hp' => ?_⟩
  · simp only [unlockPool, hn]
    by_cases hp : p' = p
    · subst hp
      simp [h.own p' hown]
    · rw [Function.update_of_ne hp, h.held p', hown]
      simp [Ne.symm hp]
  · simp only [unlockPool] at hp'
    rw [hn] at hp'
    cases hp'

theorem lock_getWorkerPool (sys : P → Bool) (s : CallState P Q G W K T) (p : P) (found null : CallPc P Q) :
    (getWorkerPool sys s p found null).shared.lock = s.shared.lock := by
  unfold getWorkerPool
  split
  · rfl
  · rfl

theorem lock_putWorkerPool (sys : P → Bool) (s : CallState P Q G W K T) (p : P) (next : CallPc P Q) :
    (putWorkerPool sys s p next).shared.lock = s.shared.lock := by
  unfold putWorkerPool
  split
  · rfl
  · rfl

/-- `get_worker_pool` adds to what the call has taken, whether it gives the pool or NULL. -/
theorem took_getWorkerPool (sys : P → Bool) (h : ∀ p, 0 ≤ s.took p) (p : P) (found null : CallPc P Q) :
    (∀ p', 0 ≤ (getWorkerPool sys s p found null).took p') ∧
      HasRef sys (getWorkerPool sys s p found null) p := by
  unfold getWorkerPool HasRef
  split
  · rename_i hsys
    exact ⟨h, fun hs => by rw [hsys] at hs; exact Bool.noConfusion hs⟩
  · refine ⟨fun p' => ?_, fun _ => ?_⟩
    · by_cases hp : p' = p
      · rw [hp]
        simpa using (h p).trans (Int.le_add_one (le_refl _))
      · simpa [hp] using h p'
    · simpa using h p

theorem pc_getWorkerPool (sys : P → Bool) (s : CallState P Q G W K T) (p : P) (found null : CallPc P Q) :
    (getWorkerPool sys s p found null).pc = found ∨
      (getWorkerPool sys s p found null).pc = null ∧ sys p = false := by
  unfold getWorkerPool
  split
  · exact Or.inl rfl
  · rename_i hsys
    dsimp only
    split
    · exact Or.inr ⟨rfl, by simpa using hsys⟩
    · exact Or.inl rfl

theorem took_putWorkerPool (h : ∀ p, 0 ≤ s.took p) {p : P} (hp : HasRef sys s p) (next : CallPc P Q) :
    ∀ p', 0 ≤ (putWorkerPool sys s p next).took p' := by
  unfold putWorkerPool
  split
  · exact h
  · rename_i hsys
    intro p'
    by_cases hpp : p' = p
    · have := hp (by simpa using hsys)
      rw [hpp]
      simp only [Function.update_self]
      omega
    · simpa [hpp] using h p'

theorem pc_putWorkerPool (s : CallState P Q G W K T) (p : P) (next : CallPc P Q) :
    (putWorkerPool sys s p next).pc = next := by
  unfold putWorkerPool
  split
  · rfl
  · rfl

theorem lockPool_some {t : T} {p : P} {next : CallPc P Q} (hs : lockPool s1 t p next = some s2) :
    s2.pc = next ∧ s2.took = s1.took := by
  unfold lockPool at hs
  split at hs
  · cases hs
    exact ⟨rfl, rfl⟩
  · cases hs

end

theorem CallInv.own (h : CallInv cfg sys call s0 s1) (hs : callStep cfg sys call s1 = some s2) :
    CallInv cfg sys call s0 s2 := by
  have howes := h.owes
  unfold callStep at hs
  unfold CallOwes at howes
  cases hpc : s1.pc with
  | entry | pending =>
    rw [hpc] at howes
    exact howes.elim
  | selected q =>
    have hl := h.locks (by rw [hpc]; rfl)
    simp only [hpc] at hs
    split at hs
    · cases hs
      exact ⟨h.nonneg, trivial, fun _ => hl.keep rfl (by rw [hpc]; rfl)⟩
    · rename_i p hd
      cases hs
      refine ⟨h.nonneg, ?_, fun _ => hl.keep rfl ?_⟩
      · cases hp : s1.shared.live p with
        | true => simp [CallOwes]
        | false => simp [CallOwes]
      · rw [hpc]
        dsimp only
        split
        · rfl
        · rfl
    · cases hs
      exact ⟨h.nonneg, trivial, fun _ => hl.keep rfl (by rw [hpc]; rfl)⟩
  | lastFound q p =>
    have hl := h.locks (by rw [hpc]; rfl)
    simp only [hpc, Option.some.injEq] at hs
    subst hs
    obtain ⟨h1, h2⟩ := took_getWorkerPool sys h.nonneg p (.lastGot q p) (.noLast q)
    refine ⟨h1, ?_, fun _ => hl.keep (lock_getWorkerPool _ _ _ _ _) ?_⟩
    · unfold CallOwes
      rcases pc_getWorkerPool sys s1 p (.lastGot q p) (.noLast q) with hp | ⟨hp, -⟩
      · rw [hp]
        exact h2
      · rw [hp]
        trivial
    · rcases pc_getWorkerPool sys s1 p (.lastGot q p) (.noLast q) with hp | ⟨hp, -⟩
      · rw [hp, hpc]
        rfl
      · rw [hp, hpc]
        rfl
  | noLast q =>
    have hl := h.locks (by rw [hpc]; rfl)
    simp only [hpc, Option.some.injEq] at hs
    subst hs
    obtain ⟨h1, h2⟩ := took_getWorkerPool sys h.nonneg (cfg.poolOf q) (.got q) (.check q none)
    refine ⟨h1, ?_, fun _ => hl.keep (lock_getWorkerPool _ _ _ _ _) ?_⟩
    · unfold CallOwes
      rcases pc_getWorkerPool sys s1 (cfg.poolOf q) (.got q) (.check q none) with hp | ⟨hp, hsys⟩
      · rw [hp]
        exact h2
      · rw [hp]
        exact h2 hsys
    · rcases pc_getWorkerPool sys s1 (cfg.poolOf q) (.got q) (.check q none) with hp | ⟨hp, -⟩
      · rw [hp, hpc]
        rfl
      · rw [hp, hpc]
        rfl
  | lastGot q p =>
    have hl := h.locks (by rw [hpc]; rfl)
    simp only [hpc] at hs
    rw [hpc] at howes
    obtain ⟨hp, ht⟩ := lockPool_some hs
    refine ⟨by rw [ht]; exact h.nonneg, ?_, fun _ => hl.take (by rw [hpc]; rfl) hs rfl⟩
    unfold CallOwes HasRef
    rw [hp, ht]
    exact howes
  | got q =>
    have hl := h.locks (by rw [hpc]; rfl)
    simp only [hpc] at hs
    rw [hpc] at howes
    obtain ⟨hp, ht⟩ := lockPool_some hs
    refine ⟨by rw [ht]; exact h.nonneg, ?_, fun _ => hl.take (by rw [hpc]; rfl) hs rfl⟩
    unfold CallOwes HasRef
    rw [hp, ht]
    exact howes
  | lastLocked q p =>
    have hl := h.locks (by rw [hpc]; rfl)
    simp only [hpc] at hs
    rw [hpc] at howes
    split at hs
    · cases hs
      exact ⟨h.nonneg, howes, fun _ => hl.keep rfl (by rw [hpc]; rfl)⟩
    · split at hs
      · cases hs
        exact ⟨h.nonneg, howes, fun _ => hl.keep rfl (by rw [hpc]; rfl)⟩
      · cases hs
        exact ⟨h.nonneg, howes, fun _ => hl.give (by rw [hpc]; rfl) rfl⟩
  | lastPut q p =>
    have hl := h.locks (by rw [hpc]; rfl)
    simp only [hpc, Option.some.injEq] at hs
    rw [hpc] at howes
    subst hs
    refine ⟨took_putWorkerPool h.nonneg howes (.noLast q), ?_,
      fun _ => hl.keep (lock_putWorkerPool _ _ _ _) ?_⟩
    · unfold CallOwes
      rw [pc_putWorkerPool]
      trivial
    · rw [pc_putWorkerPool, hpc]
      rfl
  | check q last =>
    have hl := h.locks (by rw [hpc]; rfl)
    rw [hpc] at howes
    cases last with
    | none =>
      simp only [hpc, Option.some.injEq] at hs
      subst hs
      exact ⟨h.nonneg, Or.inr (Or.inl ⟨cfg.poolOf q, howes⟩), fun ho => Bool.noConfusion ho⟩
    | some p =>
      have hown : s1.pc.ownLock = some p := by
        rw [hpc]
        rfl
      simp only [hpc] at hs
      split at hs
      · cases hs
        exact ⟨h.nonneg, Or.inl ⟨p, (hl.held p).mpr (Or.inr hown), hl.own p hown⟩,
          fun ho => Bool.noConfusion ho⟩
      · cases hs
        exact ⟨h.nonneg, howes, fun _ => hl.keep rfl (by rw [hpc]; rfl)⟩
  | inserted p =>
    have hl := h.locks (by rw [hpc]; rfl)
    simp only [hpc, Option.some.injEq] at hs
    rw [hpc] at howes
    subst hs
    exact ⟨h.nonneg, howes, fun _ => hl.give (by rw [hpc]; rfl) rfl⟩
  | unlocked p =>
    simp only [hpc, Option.some.injEq] at hs
    rw [hpc] at howes
    subst hs
    refine ⟨took_putWorkerPool h.nonneg howes (.returned true), ?_, fun ho => ?_⟩
    · unfold CallOwes
      rw [pc_putWorkerPool]
      trivial
    · rw [pc_putWorkerPool] at ho
      exact Bool.noConfusion ho
  | returned ok | ignored => simp [hpc] at hs

theorem callInv_run (h : CallInv cfg sys call s0 s) (hrun : CallRun cfg sys call s l s1) :
    CallInv cfg sys call s0 s1 := by
  induction hrun with
  | start => exact h
  | env _ he ih => exact ih.env he
  | own _ hs ih => exact ih.own hs

/-- The step at `pending` refuses the call, goes on to the pool of the pool_workqueue, or arms the timer. -/
theorem callStep_pending (hpc : s1.pc = .pending) (hs : callStep cfg sys call s1 = some s2) :
    (call.delay = 0 ∧ Refused call s1 ∧ s2 = setPending s1 call.work false (.returned false)) ∨
      (call.delay = 0 ∧ ¬ Refused call s1 ∧ s2 = { s1 with pc := .selected call.pwq }) ∨
      (call.delay ≠ 0 ∧ s2 = armTimer call s1) := by
  unfold callStep at hs
  simp only [hpc] at hs
  split at hs
  · rename_i hd
    split at hs
    · rename_i hr
      cases hs
      exact Or.inl ⟨hd, hr, rfl⟩
    · rename_i hr
      cases hs
      exact Or.inr (Or.inl ⟨hd, hr, rfl⟩)
  · rename_i hd
    cases hs
    exact Or.inr (Or.inr ⟨hd, rfl⟩)

omit [DecidableEq P] [DecidableEq Q] [DecidableEq G] [DecidableEq W] [DecidableEq K] [DecidableEq T] in
theorem callInv_selected (hb : CallBefore call s0 l s1) (q : Q) :
    CallInv cfg sys call s0 { s1 with pc := .selected q } :=
  ⟨fun p => (hb.took p).ge, trivial,
    fun _ => ⟨fun p => by simp [hb.lock p, CallPc.ownLock], fun p hp => by cases hp⟩⟩

omit [DecidableEq P] [DecidableEq Q] [DecidableEq G] [DecidableEq K] [DecidableEq T] in
theorem callInv_armTimer (hb : CallBefore call s0 l s1) (hpc : s1.pc = .pending) :
    CallInv cfg sys call s0 (armTimer call s1) := by
  unfold armTimer
  split
  · refine ⟨fun p => (hb.took p).ge, ?_, fun ho => Bool.noConfusion ho⟩
    cases ht : s1.shared.timer call.work with
    | true => exact Or.inr (Or.inr (hb.pending hpc))
    | false => trivial
  · exact ⟨fun p => (hb.took p).ge, Or.inr (Or.inr (hb.pending hpc)), fun ho => Bool.noConfusion ho⟩

omit [DecidableEq P] [DecidableEq Q] [DecidableEq G] [DecidableEq W] [DecidableEq K] [DecidableEq T] in
theorem LeftBehind.not_clean (h : LeftBehind call s0 s) : ¬ CallClean call s0 l s := by
  intro hc
  rcases h with ⟨p, hp, hn⟩ | ⟨p, hp⟩ | hp
  · exact hn ((hc.unlocked p).mp hp)
  · rw [hc.dropped p] at hp
    exact absurd hp (by decide)
  · rw [hc.pending] at hp
    exact Bool.noConfusion hp

/-- A call that takes PENDING and returns false leaves the system as it found it exactly when it
arms no timer and `select_pwq` refuses it. -/
theorem queue_call_clean_iff (cfg : WqConfig P Q G K) (sys : P → Bool) (call : QueueCall Q G W T)
    (s0 s1 s2 s3 : CallState P Q G W K T) (l1 l2 : List (CallShared P Q G W K T × CallShared P Q G W K T))
    (h0 : CallFresh s0) (hrun1 : CallRun cfg sys call s0 l1 s1) (hpc : s1.pc = .pending)
    (hs : callStep cfg sys call s1 = some s2) (hrun2 : CallRun cfg sys call s2 l2 s3)
    (hret : s3.pc = .returned false) :
    CallClean call s0 (l1 ++ (s1.shared, s2.shared) :: l2) s3 ↔ call.delay = 0 ∧ Refused call s1 := by
  have hb := callBefore_run h0 hrun1 (by rw [hpc]; rfl)
  rcases callStep_pending hpc hs with ⟨hd, hr, rfl⟩ | hother
  · refine iff_of_true ?_ ⟨hd, hr⟩
    obtain ⟨rfl, rfl⟩ := callRun_over hrun2 rfl
    refine ⟨hb.lock, hb.took, by simp [setPending, Core.setFlags], fun x hx => ?_⟩
    rcases List.mem_append.mp hx with hx | hx
    · exact hb.kept x hx
    · rw [List.mem_singleton.mp hx]
      exact sameQueues_setPending s1 call.work false (.returned false)
  · -- every other way to return false leaves something behind
    have hinv : CallInv cfg sys call s0 s2 := by
      rcases hother with ⟨-, -, rfl⟩ | ⟨-, rfl⟩
      · exact callInv_selected hb call.pwq
      · exact callInv_armTimer hb hpc
    have howes := (callInv_run hinv hrun2).owes
    unfold CallOwes at howes
    rw [hret] at howes
    refine iff_of_false howes.not_clean ?_
    rintro ⟨hd, hr⟩
    rcases hother with ⟨-, hnot, -⟩ | ⟨hne, -⟩
    · exact hnot hr
    · exact hne hd

end Behind

/-! ## Runs of one call -/

/-- One pool of the system and one pool_workqueue, with nothing queued. -/
def sharedInit (destroying events : Bool) : CallShared Unit Unit Unit Unit Unit Unit where
  core := coreInit
  timer := fun _ => false
  draining := fun _ => false
  destroying := fun _ => destroying
  lock := fun _ => none
  poolRef := fun _ => 1
  live := fun _ => true
  events := events

def callInit (destroying events : Bool) : CallState Unit Unit Unit Unit Unit Unit :=
  ⟨sharedInit destroying events, .entry, fun _ => 0⟩

def oneCall (delay : ℕ) : QueueCall Unit Unit Unit Unit := ⟨(), (), (), delay, false, ()⟩

theorem callFresh_init (destroying events : Bool) : CallFresh (callInit destroying events) :=
  ⟨rfl, fun _ => rfl⟩

/-- The call has taken PENDING. -/
def callTaken (destroying events : Bool) : CallState Unit Unit Unit Unit Unit Unit :=
  setPending (callInit destroying events) () true .pending

theorem callRun_taken (delay : ℕ) (destroying events : Bool) :
    CallRun onePool (fun _ => true) (oneCall delay) (callInit destroying events)
      [((callInit destroying events).shared, (callTaken destroying events).shared)]
        (callTaken destroying events) :=
  .own .start rfl

/-- The workqueue is being destroyed when the call starts: it gives PENDING back and returns. -/
theorem queue_call_clean_iff_refused :
    ∃ s l, CallRun onePool (fun _ => true) (oneCall 0) (callInit true true) l s ∧ s.pc = .returned false ∧
      CallClean (oneCall 0) (callInit true true) l s := by
  refine ⟨setPending (callTaken true true) () false (.returned false), _,
    (callRun_taken 0 true true).own rfl, rfl, ?_⟩
  exact (queue_call_clean_iff onePool (fun _ => true) (oneCall 0) _ (callTaken true true) _ _ _ []
    (callFresh_init true true) (callRun_taken 0 true true) rfl rfl .start rfl).mpr ⟨rfl, Or.inr rfl⟩

theorem callRun_checked : ∃ l s, CallRun onePool (fun _ => true) (oneCall 0) (callInit false true) l s ∧
    s.pc = .check () (some ()) ∧ s.shared.lock () = some () := by
  refine ⟨_, _, ((((callRun_taken 0 false true).own rfl).own rfl).own rfl).own rfl, rfl, rfl⟩

/-- `destroy_workqueue` sets its flag between `select_pwq` and the check: the call returns false
with the pool locked. A delayed call that finds the event system stopped returns false with PENDING
set. -/
theorem queue_call_left_lock :
    (∃ l s, CallRun onePool (fun _ => true) (oneCall 0) (callInit false true) l s ∧ s.pc = .returned false ∧
        s.shared.lock () = some () ∧ ¬ CallClean (oneCall 0) (callInit false true) l s) ∧
      ∃ l s, CallRun onePool (fun _ => true) (oneCall 1) (callInit false false) l s ∧ s.pc = .returned false ∧
        (s.shared.core.flags (.work ())).pending = true ∧
          ¬ CallClean (oneCall 1) (callInit false false) l s := by
  refine ⟨?_, ?_⟩
  · obtain ⟨l, s, hrun, hpc, hlock⟩ := callRun_checked
    have henv : CallEnv (oneCall 0) s { s with shared := { s.shared with destroying := fun _ => true } } :=
      ⟨by rw [hpc]; rfl, rfl, rfl, fun _ => Iff.rfl, fun _ h => h⟩
    have hstep : callStep onePool (fun _ => true) (oneCall 0)
        { s with shared := { s.shared with destroying := fun _ => true } } =
        some (setPending { s with shared := { s.shared with destroying := fun _ => true } } () false
          (.returned false)) := by
      simp [callStep, hpc, oneCall]
    exact ⟨_, _, (hrun.env henv).own hstep, rfl, hlock,
      LeftBehind.not_clean (Or.inl ⟨(), hlock, fun h => by cases h⟩)⟩
  · exact ⟨_, _, (callRun_taken 1 false false).own rfl, rfl, rfl, LeftBehind.not_clean (Or.inr (Or.inr rfl))⟩

end Skp.Workqueue
