import Skp.Foundations.Tally
import Skp.Workqueue.PoolFills

/-! # Somebody works on a worklist

While a worklist is not empty, a worker of the pool runs, or somebody is on the way to look at it,
or nobody is idle. Three kinds of steps break this. A cancel may bring works to an empty worklist
and wakes nobody. A worker that has read in `keep_working` that another one runs may be the last one
when it sets `WORKER_PREP`. And the count in the entry of an idle worker has 16 bits. -/
namespace Skp.Workqueue
set_option autoImplicit false
open Skp.Foundations

/-! ## The places of a worker -/

def WorkerPc.isIdle : WorkerPc → Bool
  | .launched => true
  | .unlocked => true
  | .asleep => true
  | .woken => true
  | _ => false

def WorkerPc.holdsLock : WorkerPc → Bool
  | .recheck => true
  | .mayStart => true
  | .managed => true
  | .starting => true
  | .loop => true
  | .picked => true
  | .processed => true
  | .stopping => true
  | .entering => true
  | _ => false

/-- Counted in `nr_running`. -/
def WorkerPc.counted : WorkerPc → Bool
  | .loop => true
  | .picked => true
  | .calling => true
  | .processed => true
  | .stopping => true
  | _ => false

/-- In `__wq_worker_sleeping`. -/
def WorkerPc.inSleeping : WorkerPc → Bool
  | .sleepTest => true
  | .sleepLock => true
  | _ => false

/-- Not counted and not idle, and about to look at the worklist. -/
def WorkerPc.watches : WorkerPc → Bool
  | .recheck => true
  | .mayStart => true
  | .managing => true
  | .relock => true
  | .managed => true
  | .starting => true
  | .sleepTest => true
  | .sleepLock => true
  | _ => false

/-- Has a `curr_work`. -/
def WorkerPc.hasWork : WorkerPc → Bool
  | .picked => true
  | .calling => true
  | .sleepTest => true
  | .sleepLock => true
  | .sleeping => true
  | _ => false

section Pool
variable {K T : Type} [DecidableEq K] {v v' : WorkerPool K T} {kind : PoolKind} {pending : Bool} {k j : K}
  {a b : WorkerPc}

/-- The worker is new, has been signalled, is past `wait_on`, or manages. -/
def WorkerPool.comes (v : WorkerPool K T) (k : K) : Bool :=
  match v.pc k with
  | .launched => true
  | .unlocked => decide (v.signals k % 2 ^ 16 ≠ 0)
  | .woken => true
  | .managing => true
  | .relock => true
  | _ => false

/-- The lock is free and no thread is in `__wq_worker_sleeping`. -/
def WorkerPool.Quiet (v : WorkerPool K T) : Prop := v.lock = none ∧ ∀ k, (v.pc k).inSleeping = false

/-- Somebody will look at the worklist, or nobody is idle. -/
def WorkerPool.Attended (v : WorkerPool K T) : Prop :=
  0 < v.nrRunning ∨ (∃ k, (v.pc k).watches = true) ∨ (∃ t, v.lock = some (.caller t)) ∨
    ∀ k l, v.idleWorker = k :: l → v.comes k = true

/-- One more signal and the first idle worker does not see that it has any. -/
def WorkerPool.headFull (v : WorkerPool K T) : Bool :=
  match v.idleWorker with
  | [] => false
  | k :: _ => decide (v.pc k = .unlocked) && decide ((v.signals k + 1) % 2 ^ 16 = 0)

/-- The step of a worker at this place does not end the last signal of the first idle worker, and
does not take the last running worker from works that wait. -/
def WorkerPool.careful (v : WorkerPool K T) (pending : Bool) : WorkerPc → Bool
  | .sleepLock => !(pending && v.headFull)
  | .stopping => !(pending && decide (v.nrRunning = 1))
  | _ => true

/-! ## Moves and signals -/

@[simp] theorem goto_pc_self : (v.goto k b).pc k = b := Function.update_self ..

theorem goto_pc_of_ne (hj : j ≠ k) : (v.goto k b).pc j = v.pc j := Function.update_of_ne hj ..

theorem comes_goto_of_ne (hj : j ≠ k) : (v.goto k b).comes j = v.comes j := by
  rw [WorkerPool.comes, goto_pc_of_ne hj]
  rfl

omit [DecidableEq K] in
theorem addRunning_of_bound (hbound : kind.bound = true) (d : ℤ) :
    v.addRunning kind d = { v with nrRunning := v.nrRunning + d } := if_pos hbound

theorem WorkerPool.Attended.goto (h : v.Attended) (hpc : v.pc k = a)
    (hwatches : a.watches = true → b.watches = true)
    (hcomes : v.comes k = true → (v.goto k b).comes k = true) : (v.goto k b).Attended := by
  rcases h with hpos | ⟨j, hj⟩ | hcaller | hhead
  · exact Or.inl hpos
  · refine Or.inr (Or.inl ⟨j, ?_⟩)
    by_cases hjk : j = k
    · subst hjk
      rw [goto_pc_self]
      exact hwatches (hpc ▸ hj)
    · rw [goto_pc_of_ne hjk, hj]
  · exact Or.inr (Or.inr (Or.inl hcaller))
  · refine Or.inr (Or.inr (Or.inr fun j l hl => ?_))
    by_cases hjk : j = k
    · subst hjk
      exact hcomes (hhead j l hl)
    · rw [comes_goto_of_ne hjk]
      exact hhead j l hl

theorem wakeUp_frame : v.wakeUp.idleWorker = v.idleWorker ∧ v.wakeUp.nrRunning = v.nrRunning ∧
      v.wakeUp.lock = v.lock := by
  rw [WorkerPool.wakeUp]
  split
  · exact ⟨rfl, rfl, rfl⟩
  · rw [WorkerPool.signal]
    split
    · exact ⟨rfl, rfl, rfl⟩
    · exact ⟨rfl, rfl, rfl⟩
    · exact ⟨rfl, rfl, rfl⟩

theorem wakeUp_pc (k : K) : v.wakeUp.pc k = v.pc k ∨ (v.pc k = .asleep ∧ v.wakeUp.pc k = .woken) := by
  rw [WorkerPool.wakeUp]
  split
  · exact Or.inl rfl
  · rename_i j l hl
    rw [WorkerPool.signal]
    split
    · exact Or.inl rfl
    · rename_i hpc
      by_cases hjk : k = j
      · subst hjk
        exact Or.inr ⟨hpc, Function.update_self ..⟩
      · exact Or.inl (Function.update_of_ne hjk ..)
    · exact Or.inl rfl

theorem wakeUp_pc_of_ne (hk : v.pc k ≠ .asleep) : v.wakeUp.pc k = v.pc k :=
  (wakeUp_pc k).resolve_right fun h => hk h.1

theorem head_of_erase_last {l m : List K} (hlast : l.getLast? = some k) (hlen : 2 ≤ l.length)
    (hnodup : l.Nodup)
    (herase : l.erase k = j :: m) : j ≠ k ∧ ∃ m', l = j :: m' := by
  cases l with
  | nil => exact nomatch hlast
  | cons x xs =>
    cases xs with
    | nil => exact absurd hlen (by simp)
    | cons y ys =>
      rw [List.getLast?_cons_cons] at hlast
      have hmem : k ∈ y :: ys := List.mem_of_getLast? hlast
      have hne : x ≠ k := by
        rintro rfl
        exact (List.nodup_cons.mp hnodup).1 hmem
      rw [List.erase_cons_tail (by simpa using hne)] at herase
      obtain ⟨rfl, -⟩ := List.cons.inj herase
      exact ⟨hne, _, rfl⟩

/-! ## One worker moves -/

/-- What the fields of a pool say about the places of its workers. -/
structure PoolFit [Fintype K] (v : WorkerPool K T) : Prop where
  holds : ∀ k, (v.pc k).holdsLock = true → v.lock = some (.worker k)
  idle : ∀ k ∈ v.idleWorker, (v.pc k).isIdle = true
  nodup : v.idleWorker.Nodup
  count : v.nrRunning = census WorkerPc.counted v.pc

variable [Fintype K]

/-- A worker goes from `a` to `b`, and the fields change as its place does. -/
theorem PoolFit.move (h : PoolFit v) (hpc : v.pc k = a) (hpc' : v'.pc = Function.update v.pc k b)
    (hcount : v'.nrRunning + a.counted.toNat = v.nrRunning + b.counted.toNat)
    (hlock : ∀ j, j ≠ k → (v.pc j).holdsLock = true → v'.lock = some (.worker j))
    (hmine : b.holdsLock = true → v'.lock = some (.worker k))
    (hidle : ∀ j ∈ v'.idleWorker, (j = k ∧ b.isIdle = true) ∨ (j ≠ k ∧ j ∈ v.idleWorker))
    (hnodup : v'.idleWorker.Nodup) :
    PoolFit v' := by
  refine ⟨fun j hj => ?_, fun j hj => ?_, hnodup, ?_⟩
  · by_cases hjk : j = k
    · subst hjk
      rw [hpc', Function.update_self] at hj
      exact hmine hj
    · rw [hpc', Function.update_of_ne hjk] at hj
      exact hlock j hjk hj
  · rw [hpc']
    rcases hidle j hj with ⟨rfl, hb⟩ | ⟨hjk, hmem⟩
    · rwa [Function.update_self]
    · rw [Function.update_of_ne hjk]
      exact h.idle j hmem
  · have hcensus := census_update WorkerPc.counted v.pc k b
    rw [hpc] at hcensus
    have hold := h.count
    rw [hpc']
    omega

theorem PoolFit.walk (h : PoolFit v) (hpc : v.pc k = a) (hcounted : b.counted = a.counted)
    (hholds : b.holdsLock = a.holdsLock)
    (hisIdle : b.isIdle = a.isIdle) : PoolFit (v.goto k b) := by
  refine h.move hpc rfl ?_ (fun j _ hj => h.holds j hj) (fun hb => ?_) (fun j hj => ?_) h.nodup
  · rw [hcounted]
    rfl
  · rw [hholds] at hb
    exact h.holds k (by rw [hpc, hb])
  · by_cases hjk : j = k
    · subst hjk
      have hidle := h.idle j hj
      rw [hpc] at hidle
      exact Or.inl ⟨rfl, by rw [hisIdle, hidle]⟩
    · exact Or.inr ⟨hjk, hj⟩

section
omit [DecidableEq K]

theorem PoolFit.not_mem (h : PoolFit v) (hk : (v.pc k).isIdle = false) : k ∉ v.idleWorker := by
  intro hmem
  rw [h.idle k hmem] at hk
  exact Bool.noConfusion hk

/-- The worker that holds the lock is the only one that does. -/
theorem PoolFit.holder_eq (h : PoolFit v) (hk : (v.pc k).holdsLock = true)
    (hj : (v.pc j).holdsLock = true) : j = k := by
  have heq := (h.holds j hj).symm.trans (h.holds k hk)
  exact PoolHolder.worker.inj (Option.some.inj heq)

theorem PoolFit.not_holds (h : PoolFit v) (hfree : v.lock = none) (k : K) : (v.pc k).holdsLock = false := by
  rw [Bool.eq_false_iff]
  intro hk
  rw [h.holds k hk] at hfree
  exact nomatch hfree

theorem PoolFit.counted_pos (h : PoolFit v) (hk : (v.pc k).counted = true) : 0 < v.nrRunning := by
  have hpos := census_pos hk
  rw [h.count]
  exact_mod_cast hpos

theorem PoolFit.nonneg (h : PoolFit v) : 0 ≤ v.nrRunning := by
  rw [h.count]
  exact Int.natCast_nonneg _

end

/-! ## Signals -/

theorem PoolFit.wakeUp (h : PoolFit v) : PoolFit v.wakeUp := by
  rw [WorkerPool.wakeUp]
  split
  · exact h
  · rw [WorkerPool.signal]
    split
    · exact ⟨h.holds, h.idle, h.nodup, h.count⟩
    · rename_i hpc
      exact h.walk hpc rfl rfl rfl
    · exact h

theorem PoolFit.wakeUp_comes (h : PoolFit v) (hfull : v.headFull = false) :
    ∀ k l, v.wakeUp.idleWorker = k :: l → v.wakeUp.comes k = true := by
  intro k l hl
  rw [wakeUp_frame.1] at hl
  have hidle := h.idle k (hl ▸ List.mem_cons_self)
  have hwake : v.wakeUp = v.signal k := by simp only [WorkerPool.wakeUp, hl]
  simp only [WorkerPool.headFull, hl, Bool.and_eq_false_iff, decide_eq_false_iff_not] at hfull
  rw [hwake, WorkerPool.comes]
  cases hpc : v.pc k with
  | launched =>
    have hsignal : v.signal k = v := by simp only [WorkerPool.signal, hpc]
    simp only [hsignal, hpc]
  | unlocked =>
    have hleft : ¬ (v.signals k + 1) % 2 ^ 16 = 0 := hfull.resolve_left fun hne => hne hpc
    simp only [WorkerPool.signal, hpc, Function.update_self, decide_eq_true_eq]
    exact hleft
  | asleep => simp only [WorkerPool.signal, hpc, WorkerPool.goto, Function.update_self]
  | woken =>
    have hsignal : v.signal k = v := by simp only [WorkerPool.signal, hpc]
    simp only [hsignal, hpc]
  | _ =>
    rw [hpc] at hidle
    exact Bool.noConfusion hidle

/-! ## The invariant of one pool -/

/-- A worker that goes idle has read the worklist and `nr_running` before. -/
structure PoolInv (pending : Bool) (v : WorkerPool K T) : Prop extends PoolFit v where
  attended : pending = true → v.Attended
  entering : ∀ k, v.pc k = .entering → pending = true → 0 < v.nrRunning ∨ ∃ j, (v.pc j).inSleeping = true

omit [DecidableEq K] in
theorem PoolFit.inv_of_empty (h : PoolFit v) : PoolInv false v := ⟨h, nofun, nofun⟩

omit [DecidableEq K] in
/-- A worker runs, or one is in `__wq_worker_sleeping`. -/
theorem PoolFit.inv_of_awake (h : PoolFit v)
    (hawake : pending = true → 0 < v.nrRunning ∨ ∃ k, (v.pc k).inSleeping = true) :
    PoolInv pending v := by
  refine ⟨h, fun hp => ?_, fun _ _ hp => hawake hp⟩
  rcases hawake hp with hpos | ⟨k, hk⟩
  · exact Or.inl hpos
  · refine Or.inr (Or.inl ⟨k, ?_⟩)
    cases hpc : v.pc k with
    | sleepTest => rfl
    | sleepLock => rfl
    | _ =>
      rw [hpc] at hk
      exact Bool.noConfusion hk

omit [DecidableEq K] in
theorem PoolFit.inv_of_counted (h : PoolFit v) (hk : (v.pc k).counted = true) : PoolInv pending v :=
  h.inv_of_awake fun _ => Or.inl (h.counted_pos hk)

/-- The worker `k` has moved, and no other one goes idle. -/
theorem PoolFit.inv_of_alone (h : PoolFit v') (hpc' : v'.pc = Function.update v.pc k b)
    (hothers : ∀ j, v.pc j = .entering → j = k) (hb : b ≠ .entering)
    (hattended : pending = true → v'.Attended) :
    PoolInv pending v' := by
  refine ⟨h, hattended, fun j hj _ => ?_⟩
  rw [hpc'] at hj
  by_cases hjk : j = k
  · rw [hjk, Function.update_self] at hj
    exact absurd hj hb
  · rw [Function.update_of_ne hjk] at hj
    exact absurd (hothers j hj) hjk

theorem PoolFit.inv_of_watches (h : PoolFit v') (hpc' : v'.pc = Function.update v.pc k b)
    (hothers : ∀ j, v.pc j = .entering → j = k) (hb : b.watches = true) : PoolInv pending v' := by
  refine h.inv_of_alone hpc' hothers (fun he => ?_) fun _ => Or.inr (Or.inl ⟨k, ?_⟩)
  · rw [he] at hb
    exact Bool.noConfusion hb
  · rw [hpc', Function.update_self, hb]

omit [DecidableEq K] in
theorem PoolFit.entering_of_holder (h : PoolFit v) (hk : (v.pc k).holdsLock = true) :
    ∀ j, v.pc j = .entering → j = k :=
  fun j hj => h.holder_eq hk (by rw [hj]; rfl)

omit [DecidableEq K] in
theorem PoolFit.entering_of_free (h : PoolFit v) (hfree : v.lock = none) :
    ∀ j, v.pc j = .entering → j = k := by
  intro j hj
  have hnot := h.not_holds hfree j
  rw [hj] at hnot
  exact Bool.noConfusion hnot

/-! ## The steps of a worker with the lock, and the lock itself -/

/-- A step of the worker that holds the lock; it may leave the idle list as it is and change
`nr_running` with its place. -/
theorem PoolFit.withLock (h : PoolFit v) (hpc : v.pc k = a) (ha : a.holdsLock = true)
    (hpc' : v'.pc = Function.update v.pc k b)
    (hcount : v'.nrRunning + a.counted.toNat = v.nrRunning + b.counted.toNat)
    (hmine : b.holdsLock = true → v'.lock = some (.worker k))
    (hidle : v'.idleWorker = v.idleWorker) : PoolFit v' := by
  have hnot : k ∉ v.idleWorker := h.not_mem (by rw [hpc]; cases a <;> first | rfl | cases ha)
  refine h.move hpc hpc' hcount (fun j hj hholds => ?_) hmine (fun j hj => ?_) (by rw [hidle]; exact h.nodup)
  · exact absurd (h.holder_eq (by rw [hpc, ha]) hholds) hj
  · rw [hidle] at hj
    exact Or.inr ⟨fun he => hnot (he ▸ hj), hj⟩

theorem PoolFit.lockBy (h : PoolFit v) {l : List K} (hl : l = v.idleWorker ∨ l = v.idleWorker.erase k)
    (hstep : { v with idleWorker := l }.lockBy k b = some v') (hpc : v.pc k = a)
    (hcounted : b.counted = a.counted)
    (hleft : k ∉ l) : PoolFit v' ∧ v'.pc = Function.update v.pc k b ∧ v.lock = none := by
  obtain ⟨hfree, heq⟩ := Option.ite_none_right_eq_some.mp hstep
  obtain rfl := Option.some.inj heq
  have hsub : l.Sublist v.idleWorker := by
    rcases hl with rfl | rfl
    · exact List.Sublist.refl _
    · exact List.erase_sublist
  refine ⟨h.move hpc rfl ?_ (fun j _ hj => ?_) (fun _ => rfl) (fun j hj => ?_)
    (h.nodup.sublist hsub), rfl, hfree⟩
  · rw [hcounted]
    rfl
  · rw [h.not_holds hfree] at hj
    exact Bool.noConfusion hj
  · exact Or.inr ⟨fun he => hleft (he ▸ hj), hsub.subset hj⟩

theorem PoolInv.walk (h : PoolInv pending v) (hpc : v.pc k = a) (hfit : PoolFit (v.goto k b))
    (hb : b ≠ .entering)
    (hsleeping : a.inSleeping = true → b.inSleeping = true) (hwatches : a.watches = true → b.watches = true)
    (hcomes : v.comes k = true → (v.goto k b).comes k = true) : PoolInv pending (v.goto k b) := by
  refine ⟨hfit, fun hp => (h.attended hp).goto hpc hwatches hcomes, fun j hj hp => ?_⟩
  have hjk : j ≠ k := by
    rintro rfl
    rw [goto_pc_self] at hj
    exact hb hj
  rw [goto_pc_of_ne hjk] at hj
  refine (h.entering j hj hp).imp_right fun ⟨i, hi⟩ => ⟨i, ?_⟩
  by_cases hik : i = k
  · subst hik
    rw [goto_pc_self]
    exact hsleeping (hpc ▸ hi)
  · rw [goto_pc_of_ne hik, hi]

theorem PoolInv.leaveIdle (h : PoolInv pending v) (hpc : v.pc k = a) (ha : a.counted = false)
    (hstep : { v with idleWorker := v.idleWorker.erase k }.lockBy k .recheck = some v') :
    PoolInv pending v' := by
  obtain ⟨hfit, hpc', hfree⟩ := h.toPoolFit.lockBy (Or.inr rfl) hstep hpc ha.symm h.nodup.not_mem_erase
  exact hfit.inv_of_watches hpc' (h.entering_of_free hfree) rfl

theorem PoolFit.watchOn (h : PoolFit v) (hpc : v.pc k = a) (hpc' : v'.pc = Function.update v.pc k b)
    (ha : a.holdsLock = true) (hcounted : b.counted = a.counted) (hb : b.watches = true)
    (hrunning : v'.nrRunning = v.nrRunning)
    (hmine : b.holdsLock = true → v'.lock = some (.worker k))
    (hidle : v'.idleWorker = v.idleWorker) : PoolInv pending v' := by
  refine (h.withLock hpc ha hpc' ?_ hmine hidle).inv_of_watches hpc'
    (h.entering_of_holder (by rw [hpc, ha])) hb
  rw [hrunning, hcounted]

theorem PoolFit.countOn (h : PoolFit v) (hpc : v.pc k = a) (hpc' : v'.pc = Function.update v.pc k b)
    (ha : a.holdsLock = true) (hb : b.counted = true)
    (hcount : v'.nrRunning + a.counted.toNat = v.nrRunning + 1)
    (hmine : b.holdsLock = true → v'.lock = some (.worker k))
    (hidle : v'.idleWorker = v.idleWorker) : PoolInv pending v' := by
  refine (h.withLock hpc ha hpc' ?_ hmine hidle).inv_of_counted (k := k) ?_
  · rw [hb]
    exact hcount
  · rw [hpc', Function.update_self, hb]

theorem PoolFit.next_picked (h : PoolFit v) (hpc : v.pc k = .picked) :
    PoolInv pending ((if v.needMore pending = true then v.wakeUp else v).free.goto k .calling) := by
  have hrest : ∀ v1 : WorkerPool K T, PoolFit v1 → v1.pc k = .picked →
      PoolInv pending (v1.free.goto k .calling) :=
    fun v1 hfit hpc1 => hfit.countOn hpc1 rfl rfl rfl rfl (fun hb => Bool.noConfusion hb) rfl
  split
  · exact hrest v.wakeUp h.wakeUp ((wakeUp_pc_of_ne (by rw [hpc]; decide)).trans hpc)
  · exact hrest v h hpc

/-- The end of `__wq_worker_sleeping`. -/
theorem PoolFit.next_sleepLock (h : PoolFit v) (hpc : v.pc k = .sleepLock) (hfree : v.lock = none)
    (hfull : (pending && v.headFull) = false) :
    PoolInv pending ((if pending = true then v.wakeUp else v).goto k .sleeping) := by
  cases pending with
  | false =>
    have hfit : PoolFit (v.goto k .sleeping) := h.walk hpc rfl rfl rfl
    exact hfit.inv_of_empty
  | true =>
    have hpc1 : v.wakeUp.pc k = .sleepLock := (wakeUp_pc_of_ne (by rw [hpc]; decide)).trans hpc
    have hfit : PoolFit (v.wakeUp.goto k .sleeping) := h.wakeUp.walk hpc1 rfl rfl rfl
    refine hfit.inv_of_alone rfl (h.wakeUp.entering_of_free (wakeUp_frame.2.2.trans hfree))
      (by decide) fun _ => ?_
    refine Or.inr (Or.inr (Or.inr fun j l hl => ?_))
    have hjk : j ≠ k := by
      rintro rfl
      exact h.wakeUp.not_mem (by rw [hpc1]; rfl) (hl ▸ List.mem_cons_self)
    rw [comes_goto_of_ne hjk]
    exact h.wakeUp_comes (by rwa [Bool.true_and] at hfull) j l hl

/-- `worker_set_flags` with `WORKER_PREP`. -/
theorem PoolFit.next_stopping (h : PoolFit v) (hpc : v.pc k = .stopping)
    (hlast : (pending && decide (v.nrRunning = 1)) = false) :
    PoolInv pending ({ v with nrRunning := v.nrRunning + -1 }.goto k .entering) := by
  have hfit : PoolFit ({ v with nrRunning := v.nrRunning + -1 }.goto k .entering) :=
    h.withLock hpc rfl rfl (by simp [WorkerPool.goto, WorkerPc.counted])
      (fun _ => h.holds k (by rw [hpc]; rfl)) rfl
  refine hfit.inv_of_awake fun hp => Or.inl ?_
  have hpos := h.counted_pos (k := k) (by rw [hpc]; rfl)
  rw [hp, Bool.true_and, decide_eq_false_iff_not] at hlast
  change 0 < v.nrRunning + -1
  omega

/-- `worker_enter_idle`. -/
theorem PoolInv.next_entering (h : PoolInv pending v) (hpc : v.pc k = .entering) (signals : K → ℕ) :
    PoolInv pending ({ v.free with idleWorker := k :: v.idleWorker, signals := signals }.goto k
      .unlocked) := by
  have hnot : k ∉ v.idleWorker := h.not_mem (by rw [hpc]; rfl)
  have hholds : (v.pc k).holdsLock = true := by rw [hpc]; rfl
  have hfit : PoolFit
      ({ v.free with idleWorker := k :: v.idleWorker, signals := signals }.goto k .unlocked) := by
    refine h.toPoolFit.move hpc rfl rfl (fun j hj hother => absurd (h.holder_eq hholds hother) hj)
      (fun hb => Bool.noConfusion hb)
      (fun j hj => ?_) (List.nodup_cons.mpr ⟨hnot, h.nodup⟩)
    rcases List.mem_cons.mp hj with rfl | hmem
    · exact Or.inl ⟨rfl, rfl⟩
    · exact Or.inr ⟨fun he => hnot (he ▸ hmem), hmem⟩
  refine hfit.inv_of_alone rfl (h.entering_of_holder hholds) (by decide) fun hp => ?_
  rcases h.entering k hpc hp with hpos | ⟨j, hj⟩
  · exact Or.inl hpos
  · refine Or.inr (Or.inl ⟨j, ?_⟩)
    have hjk : j ≠ k := by
      rintro rfl
      rw [hpc] at hj
      exact Bool.noConfusion hj
    rw [goto_pc_of_ne hjk]
    change (v.pc j).watches = true
    cases hpcj : v.pc j with
    | sleepTest => rfl
    | sleepLock => rfl
    | _ =>
      rw [hpcj] at hj
      exact Bool.noConfusion hj

theorem PoolInv.next {scheduled : Bool} (h : PoolInv pending v) (hbound : kind.bound = true)
    (hcareful : v.careful pending (v.pc k) = true)
    (hstep : v.next kind pending scheduled k (v.pc k) = some v') :
    PoolInv pending v' := by
  have hlock : (v.pc k).holdsLock = true → v.lock = some (.worker k) := h.holds k
  cases hpc : v.pc k with
  | launched =>
    rw [hpc, WorkerPool.next] at hstep
    exact h.leaveIdle hpc rfl hstep
  | woken =>
    rw [hpc, WorkerPool.next] at hstep
    exact h.leaveIdle hpc rfl hstep
  | unlocked =>
    rw [hpc, WorkerPool.next, Option.some.injEq] at hstep
    subst hstep
    split
    · rename_i hzero
      refine h.walk hpc (h.toPoolFit.walk hpc rfl rfl rfl) (by decide)
        (fun hs => Bool.noConfusion hs) (fun hw => Bool.noConfusion hw)
        fun hcomes => ?_
      rw [WorkerPool.comes, hpc] at hcomes
      exact absurd hzero (of_decide_eq_true hcomes)
    · refine h.walk hpc (h.toPoolFit.walk hpc rfl rfl rfl) (by decide)
        (fun hs => Bool.noConfusion hs) (fun hw => Bool.noConfusion hw)
        fun _ => ?_
      rw [WorkerPool.comes, goto_pc_self]
  | recheck =>
    rw [hpc, WorkerPool.next, Option.some.injEq] at hstep
    rw [hpc] at hlock
    subst hstep
    split
    · exact h.watchOn hpc rfl rfl rfl rfl rfl (fun _ => hlock rfl) rfl
    · rename_i hmore
      have hfit : PoolFit (v.goto k .entering) := h.toPoolFit.walk hpc rfl rfl rfl
      refine hfit.inv_of_awake fun hp => Or.inl ?_
      rw [WorkerPool.needMore, hp, Bool.true_and, decide_eq_true_eq] at hmore
      exact lt_of_le_of_ne h.nonneg (Ne.symm hmore)
  | mayStart =>
    rw [hpc, WorkerPool.next, Option.some.injEq] at hstep
    rw [hpc] at hlock
    subst hstep
    split
    · exact h.watchOn hpc rfl rfl rfl rfl rfl (fun _ => hlock rfl) rfl
    · exact h.watchOn hpc rfl rfl rfl rfl rfl (fun hb => Bool.noConfusion hb) rfl
  | relock =>
    rw [hpc, WorkerPool.next] at hstep
    obtain ⟨hfit, hpc', hfree⟩ := h.toPoolFit.lockBy (Or.inl rfl) hstep hpc rfl (h.not_mem (by rw [hpc]; rfl))
    exact hfit.inv_of_watches hpc' (h.entering_of_free hfree) rfl
  | managed =>
    rw [hpc, WorkerPool.next, Option.some.injEq] at hstep
    rw [hpc] at hlock
    subst hstep
    split
    · exact h.watchOn hpc rfl rfl rfl rfl rfl (fun hb => Bool.noConfusion hb) rfl
    · exact h.watchOn hpc rfl rfl rfl rfl rfl (fun _ => hlock rfl) rfl
  | starting =>
    rw [hpc, WorkerPool.next, addRunning_of_bound hbound, Option.some.injEq] at hstep
    rw [hpc] at hlock
    subst hstep
    exact h.countOn hpc rfl rfl rfl (add_zero _) (fun _ => hlock rfl) rfl
  | picked =>
    rw [hpc, WorkerPool.next, Option.some.injEq] at hstep
    subst hstep
    exact h.toPoolFit.next_picked hpc
  | sleepTest =>
    rw [hpc, WorkerPool.next, Option.some.injEq] at hstep
    subst hstep
    cases pending with
    | true =>
      have hfit : PoolFit (v.goto k .sleepLock) := h.toPoolFit.walk hpc rfl rfl rfl
      refine hfit.inv_of_awake fun _ => Or.inr ⟨k, ?_⟩
      rw [goto_pc_self]
      rfl
    | false =>
      have hfit : PoolFit (v.goto k .sleeping) := h.toPoolFit.walk hpc rfl rfl rfl
      exact hfit.inv_of_empty
  | sleepLock =>
    rw [hpc, WorkerPool.next] at hstep
    rw [hpc] at hcareful
    obtain ⟨hfree, heq⟩ := Option.ite_none_right_eq_some.mp hstep
    obtain rfl := Option.some.inj heq
    rw [WorkerPool.careful, Bool.not_eq_true'] at hcareful
    exact h.toPoolFit.next_sleepLock hpc hfree hcareful
  | processed =>
    rw [hpc, WorkerPool.next, Option.some.injEq] at hstep
    rw [hpc] at hlock
    subst hstep
    split
    · exact h.countOn hpc rfl rfl rfl rfl (fun _ => hlock rfl) rfl
    · exact h.countOn hpc rfl rfl rfl rfl (fun _ => hlock rfl) rfl
  | stopping =>
    rw [hpc, WorkerPool.next, addRunning_of_bound hbound, Option.some.injEq] at hstep
    rw [hpc] at hcareful
    subst hstep
    rw [WorkerPool.careful, Bool.not_eq_true'] at hcareful
    exact h.toPoolFit.next_stopping hpc hcareful
  | entering =>
    rw [hpc, WorkerPool.next, Option.some.injEq] at hstep
    subst hstep
    exact h.next_entering hpc _
  | dying =>
    rw [hpc, WorkerPool.next] at hstep
    obtain ⟨-, heq⟩ := Option.ite_none_right_eq_some.mp hstep
    obtain rfl := Option.some.inj heq
    refine h.walk hpc (h.toPoolFit.walk hpc rfl rfl rfl) (by decide) (fun hs => Bool.noConfusion hs)
      (fun hw => Bool.noConfusion hw)
      fun hcomes => ?_
    rw [WorkerPool.comes, hpc] at hcomes
    exact Bool.noConfusion hcomes
  | _ =>
    simp only [hpc, WorkerPool.next, reduceCtorEq] at hstep

/-! ## The other steps -/

theorem PoolInv.sleep (h : PoolInv pending v) (hstep : v.sleep kind k = some v') : PoolInv pending v' := by
  obtain ⟨⟨hbound, hpc⟩, heq⟩ := Option.ite_none_right_eq_some.mp hstep
  obtain rfl := Option.some.inj heq
  rw [addRunning_of_bound hbound]
  have hpos := h.counted_pos (k := k) (by rw [hpc]; rfl)
  have hfit : ∀ b : WorkerPc, b.counted = false → b.holdsLock = false → b.isIdle = false →
      PoolFit ({ v with nrRunning := v.nrRunning + -1 }.goto k b) := by
    intro b hb hholds hidle
    refine h.toPoolFit.move hpc rfl ?_ (fun j _ hj => h.holds j hj) (fun hb' => ?_) (fun j hj => ?_) h.nodup
    · rw [hb]
      simp [WorkerPool.goto, WorkerPc.counted]
    · rw [hholds] at hb'
      exact Bool.noConfusion hb'
    · exact Or.inr ⟨fun he => h.not_mem (by rw [hpc]; rfl) (he ▸ hj), hj⟩
  split
  · refine (hfit .sleepTest rfl rfl rfl).inv_of_awake fun _ => Or.inr ⟨k, ?_⟩
    rw [goto_pc_self]
    rfl
  · rename_i hone
    refine (hfit .sleeping rfl rfl rfl).inv_of_awake fun _ => Or.inl ?_
    change 0 < v.nrRunning + -1
    omega

theorem PoolInv.wake (h : PoolInv pending v) (hbound : kind.bound = true) (hstep : v.wake kind k = some v') :
    PoolInv pending v' := by
  obtain ⟨hpc, heq⟩ := Option.ite_none_right_eq_some.mp hstep
  obtain rfl := Option.some.inj heq
  rw [addRunning_of_bound hbound]
  have hfit : PoolFit ({ v with nrRunning := v.nrRunning + 1 }.goto k .calling) :=
    h.toPoolFit.move hpc rfl (by simp [WorkerPool.goto, WorkerPc.counted]) (fun j _ hj => h.holds j hj)
      (fun hb => Bool.noConfusion hb)
        (fun j hj => Or.inr ⟨fun he => h.not_mem (by rw [hpc]; rfl) (he ▸ hj), hj⟩) h.nodup
  exact hfit.inv_of_counted (k := k) (by rw [goto_pc_self]; rfl)

theorem PoolInv.interrupt {spurious : Bool} (h : PoolInv pending v)
    (hstep : v.interrupt k spurious = some v') :
    PoolInv pending v' := by
  obtain ⟨hpc, heq⟩ := Option.ite_none_right_eq_some.mp hstep
  obtain rfl := Option.some.inj heq
  have hcomes : ∀ b : WorkerPc, v.comes k = true → (v.goto k b).comes k = true := by
    intro b hcomes
    rw [WorkerPool.comes, hpc] at hcomes
    exact Bool.noConfusion hcomes
  split
  · exact h.walk hpc (h.toPoolFit.walk hpc rfl rfl rfl) (by decide) (fun hs => Bool.noConfusion hs)
      (fun hw => Bool.noConfusion hw) (hcomes _)
  · exact h.walk hpc (h.toPoolFit.walk hpc rfl rfl rfl) (by decide) (fun hs => Bool.noConfusion hs)
      (fun hw => Bool.noConfusion hw) (hcomes _)

theorem PoolInv.createFail {again : Bool} (h : PoolInv pending v) (hstep : v.createFail k again = some v') :
    PoolInv pending v' := by
  obtain ⟨hpc, heq⟩ := Option.ite_none_right_eq_some.mp hstep
  obtain rfl := Option.some.inj heq
  split
  · refine h.walk hpc (h.toPoolFit.walk hpc rfl rfl rfl) (by decide) (fun hs => Bool.noConfusion hs)
      (fun _ => rfl) fun _ => ?_
    rw [WorkerPool.comes, goto_pc_self]
  · refine h.walk hpc (h.toPoolFit.walk hpc rfl rfl rfl) (by decide) (fun hs => Bool.noConfusion hs)
      (fun _ => rfl) fun _ => ?_
    rw [WorkerPool.comes, goto_pc_self]

theorem PoolInv.launch (h : PoolInv pending v) (hpc : v.pc k = .absent) (hfree : v.lock = none) :
    PoolInv pending (v.launch k) := by
  have hnot : k ∉ v.idleWorker := h.not_mem (by rw [hpc]; rfl)
  have hfit : PoolFit (v.launch k) := by
    refine h.toPoolFit.move hpc rfl rfl (fun j _ hj => h.holds j hj) (fun hb => Bool.noConfusion hb)
      (fun j hj => ?_)
      (List.nodup_cons.mpr ⟨hnot, h.nodup⟩)
    rcases List.mem_cons.mp hj with rfl | hmem
    · exact Or.inl ⟨rfl, rfl⟩
    · exact Or.inr ⟨fun he => hnot (he ▸ hmem), hmem⟩
  refine hfit.inv_of_alone rfl (h.entering_of_free hfree) (by decide) fun _ =>
    Or.inr (Or.inr (Or.inr fun j l hl => ?_))
  obtain ⟨rfl, -⟩ := List.cons.inj hl
  rw [WorkerPool.comes, WorkerPool.launch, goto_pc_self]

theorem PoolInv.boot (h : PoolInv pending v) (hstep : v.boot k = some v') : PoolInv pending v' := by
  obtain ⟨⟨hfree, -, hpc⟩, heq⟩ := Option.ite_none_right_eq_some.mp hstep
  obtain rfl := Option.some.inj heq
  exact h.launch hpc hfree

theorem PoolInv.create (h : PoolInv pending v) (hstep : v.create k j = some v') : PoolInv pending v' := by
  obtain ⟨⟨hfree, hpc, hnew⟩, heq⟩ := Option.ite_none_right_eq_some.mp hstep
  obtain rfl := Option.some.inj heq
  have hjk : k ≠ j := by
    rintro rfl
    rw [hpc] at hnew
    exact nomatch hnew
  have hlaunched := h.launch hnew hfree
  have hpc1 : (v.launch j).pc k = .managing := (goto_pc_of_ne hjk).trans hpc
  refine hlaunched.walk hpc1 (hlaunched.toPoolFit.walk hpc1 rfl rfl rfl) (by decide)
    (fun hs => Bool.noConfusion hs) (fun _ => rfl)
    fun _ => ?_
  rw [WorkerPool.comes, goto_pc_self]

theorem PoolInv.idleTimeout (h : PoolInv pending v) (hstep : v.idleTimeout = some v') :
    PoolInv pending v' := by
  obtain ⟨⟨hfree, hmany⟩, hmap⟩ := Option.ite_none_right_eq_some.mp hstep
  obtain ⟨k, hlast, rfl⟩ := Option.map_eq_some_iff.mp hmap
  have hlen : 2 ≤ v.idleWorker.length := by
    rw [WorkerPool.tooMany, Bool.and_eq_true, decide_eq_true_eq] at hmany
    have hone := Bool.toNat_le v.managerActive
    omega
  have hidle := h.idle k (List.mem_of_getLast? hlast)
  have hfit : PoolFit (v.destroy k) := by
    refine h.toPoolFit.move (a := v.pc k) (b := .dying) rfl rfl ?_ (fun j _ hj => h.holds j hj)
      (fun hb => Bool.noConfusion hb)
      (fun j hj => ?_) (h.nodup.erase k)
    · have hcounted : (v.pc k).counted = false := by
        cases hpc : v.pc k <;> rw [hpc] at hidle <;> first | rfl | exact Bool.noConfusion hidle
      rw [hcounted]
      rfl
    · exact Or.inr ⟨fun he => h.nodup.not_mem_erase (he ▸ hj), List.mem_of_mem_erase hj⟩
  refine hfit.inv_of_alone rfl (h.entering_of_free hfree) (by decide) fun hp => ?_
  rcases h.attended hp with hpos | ⟨j, hj⟩ | hcaller | hhead
  · exact Or.inl hpos
  · refine Or.inr (Or.inl ⟨j, ?_⟩)
    have hjk : j ≠ k := by
      rintro rfl
      cases hpc : v.pc j <;> rw [hpc] at hidle hj <;>
        first | exact Bool.noConfusion hidle | exact Bool.noConfusion hj
    rw [WorkerPool.destroy, goto_pc_of_ne hjk, hj]
  · exact Or.inr (Or.inr (Or.inl hcaller))
  · refine Or.inr (Or.inr (Or.inr fun j m hm => ?_))
    obtain ⟨hjk, m', hm'⟩ := head_of_erase_last hlast hlen h.nodup hm
    rw [WorkerPool.destroy, comes_goto_of_ne hjk]
    exact hhead j m' hm'

/-! ## Insertions, and works that start and end -/

omit [DecidableEq K] in
theorem PoolFit.insert (h : PoolFit v) (hfree : v.lock = none) (t : T) :
    PoolInv pending { v with lock := some (.caller t) } := by
  refine ⟨⟨fun k hk => ?_, h.idle, h.nodup, h.count⟩, fun _ => Or.inr (Or.inr (Or.inl ⟨t, rfl⟩)),
    fun k hk => ?_⟩
  · rw [h.not_holds hfree] at hk
    exact Bool.noConfusion hk
  · have hnot := h.not_holds hfree k
    rw [show v.pc k = .entering from hk] at hnot
    exact Bool.noConfusion hnot

omit [DecidableEq K] in
/-- The thread in `insert_work` leaves when a worker runs or the first idle worker comes. -/
theorem PoolFit.free_of_caller {t : T} (h : PoolFit v) (hlock : v.lock = some (.caller t))
    (hserved : 0 < v.nrRunning ∨ ∀ k l, v.idleWorker = k :: l → v.comes k = true) :
    PoolInv pending v.free := by
  have hnone : ∀ k, (v.pc k).holdsLock = false := by
    intro k
    rw [Bool.eq_false_iff]
    intro hk
    exact nomatch (h.holds k hk).symm.trans hlock
  refine ⟨⟨fun k hk => ?_, h.idle, h.nodup, h.count⟩, fun _ => ?_, fun k hk => ?_⟩
  · exact absurd hk (Bool.eq_false_iff.mp (hnone k))
  · rcases hserved with hpos | hhead
    · exact Or.inl hpos
    · exact Or.inr (Or.inr (Or.inr hhead))
  · have hnot := hnone k
    rw [show v.pc k = .entering from hk] at hnot
    exact Bool.noConfusion hnot

theorem PoolFit.insertEnd {t : T} (h : PoolFit v) (hlock : v.lock = some (.caller t))
    (hfull : v.nrRunning = 0 → v.headFull = false) : PoolInv pending v.insertEnd := by
  rw [WorkerPool.insertEnd]
  split
  · rename_i hzero
    exact h.wakeUp.free_of_caller (wakeUp_frame.2.2.trans hlock) (Or.inr (h.wakeUp_comes (hfull hzero)))
  · rename_i hsome
    exact h.free_of_caller hlock (Or.inl (lt_of_le_of_ne h.nonneg (Ne.symm hsome)))

omit [DecidableEq K] in
theorem PoolInv.fill {pending' : Bool} (h : PoolInv pending v)
    (hfill : pending' = true → pending = true ∨ (v.lock = none ∧ v.Attended)) : PoolInv pending' v := by
  refine ⟨h.toPoolFit, fun hp => ?_, fun k hk hp => ?_⟩
  · exact (hfill hp).elim h.attended And.right
  · rcases hfill hp with hold | ⟨hfree, -⟩
    · exact h.entering k hk hold
    · have hnot := h.not_holds hfree k
      rw [hk] at hnot
      exact Bool.noConfusion hnot

end Pool

end Skp.Workqueue
