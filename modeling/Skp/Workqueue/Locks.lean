import Skp.Foundations.Runs

/-! # The pool locks

Which pool locks and which references to pool_workqueues the routines of `src/process/workqueue.c` take, in
their order. A routine holds one pool lock at a time, with one exception: `put_pwq` drops the last reference
under a pool lock and then queues `release_work` on `system_wq`, which takes the lock of the per-cpu pool that
`select_pwq` gives. The word of a release work names no pool, since it is queued once. -/
namespace Skp.Workqueue
set_option autoImplicit false
open Skp.Foundations

/-- `poolOf` is the pool of each pool_workqueue, `sysPwq` the pool_workqueue of `system_wq` for each cpu, and
`belongSyswq` is `pwq_belong_syswq`. -/
structure LockConfig (P Q C : Type) where
  poolOf : Q → P
  sysPwq : C → Q
  belongSyswq : Q → Bool

/-- What a thread does up to the end of its routine. `getPwq` goes on in one of two ways, as
`get_pwq` gives the pool_workqueue or none; where the source cannot go on without it, it is
`incPwq`. `check` is the test of `__queue_work` under the pool lock. -/
inductive LockProg (P Q : Type) where
  | done
  | lock (p : P) (next : LockProg P Q)
  | unlock (p : P) (next : LockProg P Q)
  | getPwq (q : Q) (given refused : LockProg P Q)
  | incPwq (q : Q) (next : LockProg P Q)
  | putPwq (q : Q) (next : LockProg P Q)
  | check (q : Q) (passed failed : LockProg P Q)
deriving DecidableEq

/-- The pool that `__queue_work` finds in the word of the work: none, the one of the selected
pool_workqueue, one where a worker executes the work for the same workqueue, or another. -/
inductive LastPool (P Q : Type) where
  | none
  | same
  | executing (q : Q)
  | other (p : P)

/-- The routines that take a pool lock. `plain` is any that touches no pool_workqueue reference:
`worker_cb` and `process_one_work` up to the callback, `create_worker`, `maybe_create_worker`,
`idle_worker_timeout`, `put_unbound_pool`, `__wq_worker_sleeping`, `work_busy` and the scans of
`drain_workqueue` and `destroy_workqueue`. `grabPending` and `startFlush` have the pool_workqueue
that the word holds under the lock of `p`, and `startFlush` that of the worker which executes the
work. -/
inductive Routine (P Q : Type) where
  | plain (p : P)
  | queueWork (q : Q) (last : LastPool P Q)
  | processOneWork (q : Q)
  | grabPending (p : P) (word : Option Q)
  | startFlush (p : P) (word curr : Option Q)
  | putPwqUnlocked (q : Q)

section Model
variable {P Q C T : Type} [DecidableEq P] [DecidableEq Q] [DecidableEq T]

/-- The end of `__queue_work`, from `get_worker_pool_and_lock` on. The label `fail` returns without
the unlock. -/
def queueProg (cfg : LockConfig P Q C) (q : Q) (next : LockProg P Q) : LockProg P Q :=
  .lock (cfg.poolOf q) (.check q (.incPwq q (.unlock (cfg.poolOf q) next)) next)

def routineProg (cfg : LockConfig P Q C) : Routine P Q → LockProg P Q
  | .plain p => .lock p (.unlock p .done)
  | .queueWork q .none => queueProg cfg q .done
  | .queueWork q .same => queueProg cfg q .done
  | .queueWork _ (.executing q) => queueProg cfg q .done
  | .queueWork q (.other p) => .lock p (.unlock p (queueProg cfg q .done))
  | .processOneWork q => .lock (cfg.poolOf q) (.putPwq q (.unlock (cfg.poolOf q) .done))
  | .grabPending p none => .lock p (.unlock p .done)
  | .grabPending p (some q) =>
      let put := .putPwq q (.unlock p .done)
      -- a work that is queued gives back its own reference as well
      .lock p (.getPwq q (if cfg.poolOf q = p then .putPwq q put else put) (.unlock p .done))
  | .startFlush p word curr =>
      let running :=
        match curr with
        | none => .unlock p .done
        | some q => .incPwq q (.incPwq q (.putPwq q (.unlock p .done)))
      match word with
      | none => .lock p running
      | some q =>
          let put := .putPwq q (.unlock p .done)
          .lock p (.getPwq q (if cfg.poolOf q = p then .incPwq q put else put) running)
  | .putPwqUnlocked q => .lock (cfg.poolOf q) (.putPwq q (.unlock (cfg.poolOf q) .done))

/-- `todo` is what is left of the routine a thread is in. -/
structure LockState (P Q T : Type) where
  holder : P → Option T
  refcnt : Q → ℤ
  todo : T → LockProg P Q

/-- `go` is the next operation of a thread: the cpu that `select_pwq` computes for a release work,
and whether it gives a pool_workqueue (not while `system_wq` drains) or the test of `__queue_work`
passes. -/
inductive LockAct (P Q C T : Type) where
  | start (t : T) (r : Routine P Q)
  | go (t : T) (c : C) (ok : Bool)

def LockState.setTodo (s : LockState P Q T) (t : T) (prog : LockProg P Q) : LockState P Q T :=
  { s with todo := Function.update s.todo t prog }

/-- `put_pwq` drops the last reference and schedules the release work. -/
def lastPut (cfg : LockConfig P Q C) (s : LockState P Q T) (q : Q) : Prop :=
  s.refcnt q = 1 ∧ cfg.belongSyswq q = false

instance (cfg : LockConfig P Q C) (s : LockState P Q T) (q : Q) : Decidable (lastPut cfg s q) :=
  inferInstanceAs (Decidable (_ ∧ _))

def lockStep (cfg : LockConfig P Q C) (s : LockState P Q T) : LockAct P Q C T → Option (LockState P Q T)
  | .start t r => if s.todo t = .done then some (s.setTodo t (routineProg cfg r)) else none
  | .go t c ok =>
      match s.todo t with
      | .done => none
      | .lock p next =>
          -- the lock is not recursive
          if s.holder p = none then
            some { (s.setTodo t next) with holder := Function.update s.holder p (some t) }
          else none
      | .unlock p next => some { (s.setTodo t next) with holder := Function.update s.holder p none }
      | .getPwq q given refused =>
          if s.refcnt q < 1 then some (s.setTodo t refused)
          else some { (s.setTodo t given) with refcnt := Function.update s.refcnt q (s.refcnt q + 1) }
      | .incPwq q next =>
          if s.refcnt q < 1 then none
          else some { (s.setTodo t next) with refcnt := Function.update s.refcnt q (s.refcnt q + 1) }
      | .putPwq q next =>
          some { (s.setTodo t (if lastPut cfg s q ∧ ok = true then queueProg cfg (cfg.sysPwq c) next
            else next)) with
            refcnt := Function.update s.refcnt q (s.refcnt q - 1) }
      | .check _ passed failed => some (s.setTodo t (if ok then passed else failed))

/-- Every pool_workqueue has its base reference and no lock is taken. -/
def lockInit : LockState P Q T where
  holder := fun _ => none
  refcnt := fun _ => 1
  todo := fun _ => .done

/-- The thread is about to take the lock of `p` and holds it. -/
def SelfLocks (s : LockState P Q T) (t : T) (p : P) : Prop :=
  (∃ next, s.todo t = .lock p next) ∧ s.holder p = some t

/-- A release work is queued only by a thread that does not hold the lock of the per-cpu pool that
`select_pwq` gives it, and no queueing fails once its pool is locked. -/
def ReleasesElsewhere (cfg : LockConfig P Q C) (s : LockState P Q T) : LockAct P Q C T → Prop
  | .start _ _ => True
  | .go t c ok =>
      match s.todo t with
      | .putPwq q _ => lastPut cfg s q → ok = true → s.holder (cfg.poolOf (cfg.sysPwq c)) ≠ some t
      | .check _ _ _ => ok = true
      | _ => True

end Model

/-! ## Programs that fit the locks held -/

section Safe
variable {P Q C T : Type} [DecidableEq P]

/-- The program takes no lock that is held, gives back only locks that are held, and in the end all
of them. -/
def ProgSafe : List P → LockProg P Q → Prop
  | held, .done => held = []
  | held, .lock p next => p ∉ held ∧ ProgSafe (p :: held) next
  | held, .unlock p next => p ∈ held ∧ ProgSafe (held.erase p) next
  | held, .getPwq _ given refused => ProgSafe held given ∧ ProgSafe held refused
  | held, .incPwq _ next => ProgSafe held next
  | held, .putPwq _ next => ProgSafe held next
  | held, .check _ passed _ => ProgSafe held passed

theorem progSafe_unlock (p : P) {held : List P} {next : LockProg P Q} (h : ProgSafe held next) :
    ProgSafe (p :: held) (.unlock p next) := by
  refine ⟨List.mem_cons_self, ?_⟩
  rw [List.erase_cons_head]
  exact h

theorem progSafe_queueProg (cfg : LockConfig P Q C) (q : Q) {held : List P} {next : LockProg P Q}
    (hq : cfg.poolOf q ∉ held) (h : ProgSafe held next) : ProgSafe held (queueProg cfg q next) :=
  ⟨hq, progSafe_unlock _ h⟩

theorem progSafe_routine (cfg : LockConfig P Q C) (r : Routine P Q) : ProgSafe [] (routineProg cfg r) := by
  have hdone : ProgSafe ([] : List P) (.done : LockProg P Q) := rfl
  have hend : ∀ p : P, ProgSafe [p] (.unlock p .done : LockProg P Q) := fun p => progSafe_unlock p hdone
  have hqueue : ∀ q, ProgSafe [] (queueProg cfg q .done) :=
    fun q => progSafe_queueProg cfg q List.not_mem_nil hdone
  cases r with
  | plain p => exact ⟨List.not_mem_nil, hend p⟩
  | queueWork q last =>
    cases last with
    | none => exact hqueue q
    | same => exact hqueue q
    | executing q' => exact hqueue q'
    | other p => exact ⟨List.not_mem_nil, progSafe_unlock p (hqueue q)⟩
  | processOneWork q => exact ⟨List.not_mem_nil, hend _⟩
  | grabPending p word =>
    cases word with
    | none => exact ⟨List.not_mem_nil, hend p⟩
    | some q =>
      refine ⟨List.not_mem_nil, ?_, hend p⟩
      split
      · exact hend p
      · exact hend p
  | startFlush p word curr =>
    have hrunning : ProgSafe [p] (match curr with
        | none => (.unlock p .done : LockProg P Q)
        | some q => .incPwq q (.incPwq q (.putPwq q (.unlock p .done)))) := by
      cases curr with
      | none => exact hend p
      | some q => exact hend p
    cases word with
    | none => exact ⟨List.not_mem_nil, hrunning⟩
    | some q =>
      refine ⟨List.not_mem_nil, ?_, hrunning⟩
      split
      · exact hend p
      · exact hend p
  | putPwqUnlocked q => exact ⟨List.not_mem_nil, hend _⟩

/-- What a thread has still to do fits the locks it holds. -/
def LocksFit (s : LockState P Q T) : Prop :=
  ∀ t, ∃ held, held.Nodup ∧ (∀ p, s.holder p = some t ↔ p ∈ held) ∧ ProgSafe held (s.todo t)

theorem LocksFit.not_selfLocks {s : LockState P Q T} (h : LocksFit s) (t : T) (p : P) :
    ¬ SelfLocks s t p := by
  rintro ⟨⟨next, hnext⟩, hp⟩
  obtain ⟨held, -, hheld, hsafe⟩ := h t
  rw [hnext] at hsafe
  exact hsafe.1 ((hheld p).mp hp)

end Safe

/-! ## Runs -/

section Runs
variable {P Q C T : Type} [DecidableEq P] [DecidableEq T]
variable {cfg : LockConfig P Q C} {s s' : LockState P Q T}

/-- Only the thread `t` moves: what it holds and has still to do fits, and the others keep their locks. -/
theorem LocksFit.of_thread (h : LocksFit s) (t : T)
    (hothers : ∀ t', t' ≠ t → s'.todo t' = s.todo t' ∧ ∀ p, s'.holder p = some t' ↔ s.holder p = some t')
    (hself : ∃ held, held.Nodup ∧ (∀ p, s'.holder p = some t ↔ p ∈ held) ∧ ProgSafe held (s'.todo t)) :
    LocksFit s' := by
  intro t'
  by_cases ht : t' = t
  · rw [ht]
    exact hself
  · obtain ⟨held, hnd, hheld, hsafe⟩ := h t'
    obtain ⟨htodo, hholder⟩ := hothers t' ht
    refine ⟨held, hnd, fun p => (hholder p).trans (hheld p), ?_⟩
    rw [htodo]
    exact hsafe

theorem LocksFit.setTodo (h : LocksFit s) {t : T} {next : LockProg P Q} (hholder : s'.holder = s.holder)
    (htodo : s'.todo = Function.update s.todo t next)
    (hsafe : ∀ held : List P, (∀ p, s.holder p = some t ↔ p ∈ held) → ProgSafe held (s.todo t) →
      ProgSafe held next) :
    LocksFit s' := by
  obtain ⟨held, hnd, hheld, hold⟩ := h t
  refine h.of_thread t (fun t' ht' => ⟨?_, fun p => by rw [hholder]⟩) ⟨held, hnd,
    fun p => by rw [hholder, hheld], ?_⟩
  · rw [htodo, Function.update_of_ne ht']
  · rw [htodo, Function.update_self]
    exact hsafe held hheld hold

theorem LocksFit.lock (h : LocksFit s) {t : T} {p : P} {next : LockProg P Q} (hnext : s.todo t = .lock p next)
    (hfree : s.holder p = none) :
    LocksFit { (s.setTodo t next) with holder := Function.update s.holder p (some t) } := by
  obtain ⟨held, hnd, hheld, hsafe⟩ := h t
  rw [hnext] at hsafe
  refine h.of_thread t (fun t' ht' => ⟨Function.update_of_ne ht' _ _, fun p' => ?_⟩)
    ⟨p :: held, List.nodup_cons.mpr ⟨hsafe.1, hnd⟩, fun p' => ?_, ?_⟩
  · by_cases hp : p' = p
    · subst hp
      simp [hfree, ht'.symm]
    · simp [hp]
  · by_cases hp : p' = p
    · subst hp
      simp
    · simp [hp, hheld]
  · have htodo : ({ (s.setTodo t next)
      with holder := Function.update s.holder p (some t) } : LockState P Q T).todo t
        = next := Function.update_self _ _ _
    rw [htodo]
    exact hsafe.2

theorem LocksFit.unlock (h : LocksFit s) {t : T} {p : P} {next : LockProg P Q}
    (hnext : s.todo t = .unlock p next) :
    LocksFit { (s.setTodo t next) with holder := Function.update s.holder p none } := by
  obtain ⟨held, hnd, hheld, hsafe⟩ := h t
  rw [hnext] at hsafe
  have hp : s.holder p = some t := (hheld p).mpr hsafe.1
  refine h.of_thread t (fun t' ht' => ⟨Function.update_of_ne ht' _ _, fun p' => ?_⟩)
    ⟨held.erase p, hnd.erase p, fun p' => ?_, ?_⟩
  · by_cases hpp : p' = p
    · subst hpp
      simp [hp, ht'.symm]
    · simp [hpp]
  · rw [hnd.mem_erase_iff]
    by_cases hpp : p' = p
    · subst hpp
      simp
    · simp [hpp, hheld]
  · have htodo : ({ (s.setTodo t next)
      with holder := Function.update s.holder p none } : LockState P Q T).todo t
        = next := Function.update_self _ _ _
    rw [htodo]
    exact hsafe.2

omit [DecidableEq T] in
theorem LocksFit.init : LocksFit (lockInit : LockState P Q T) := fun _ =>
  ⟨[], List.nodup_nil, fun _ => ⟨(fun h => by cases h), (fun h => by cases h)⟩, rfl⟩

theorem LocksFit.step [DecidableEq Q] (h : LocksFit s) {a : LockAct P Q C T}
    (hstep : lockStep cfg s a = some s')
    (helse : ReleasesElsewhere cfg s a) : LocksFit s' := by
  cases a with
  | start t r =>
    simp only [lockStep] at hstep
    split at hstep
    · rename_i hidle
      cases hstep
      refine h.setTodo rfl rfl fun held _ hsafe => ?_
      rw [hidle] at hsafe
      have hnil : held = [] := hsafe
      rw [hnil]
      exact progSafe_routine cfg r
    · cases hstep
  | go t c ok =>
    simp only [lockStep] at hstep
    simp only [ReleasesElsewhere] at helse
    cases hprog : s.todo t with
    | done =>
      rw [hprog] at hstep
      cases hstep
    | lock p next =>
      simp only [hprog] at hstep
      split at hstep
      · cases hstep
        exact h.lock hprog ‹_›
      · cases hstep
    | unlock p next =>
      simp only [hprog] at hstep
      cases hstep
      exact h.unlock hprog
    | getPwq q given refused =>
      simp only [hprog] at hstep
      split at hstep
      all_goals
        cases hstep
        refine h.setTodo rfl rfl fun held _ hsafe => ?_
        rw [hprog] at hsafe
      · exact hsafe.2
      · exact hsafe.1
    | incPwq q next =>
      simp only [hprog] at hstep
      split at hstep
      · cases hstep
      · cases hstep
        refine h.setTodo rfl rfl fun held _ hsafe => ?_
        rw [hprog] at hsafe
        exact hsafe
    | putPwq q next =>
      simp only [hprog] at hstep helse
      cases hstep
      refine h.setTodo rfl rfl fun held hheld hsafe => ?_
      rw [hprog] at hsafe
      split
      · rename_i hqueues
        exact progSafe_queueProg cfg _ (fun hmem => helse hqueues.1 hqueues.2 ((hheld _).mpr hmem)) hsafe
      · exact hsafe
    | check q passed failed =>
      simp only [hprog] at hstep helse
      cases hstep
      refine h.setTodo rfl rfl fun held _ hsafe => ?_
      rw [hprog] at hsafe
      rw [helse]
      exact hsafe

/-- In every run in which release works are queued elsewhere and no locked queueing fails, no thread
takes a pool lock that it holds. -/
theorem no_self_lock [DecidableEq Q] (as : List (LockAct P Q C T)) (s : LockState P Q T)
    (hmeets : RunMeets (lockStep cfg) (ReleasesElsewhere cfg) lockInit as)
    (hrun : runActs (lockStep cfg) lockInit as = some s) (t : T) (p : P) : ¬ SelfLocks s t p := by
  have hfit : LocksFit s :=
    run_invariant (fun _ _ _ h helse hstep => LocksFit.step h hstep helse) as lockInit s
      LocksFit.init hmeets hrun
  exact hfit.not_selfLocks t p

end Runs

/-! ## Two cpus

The cpus and their pools are booleans; a pool_workqueue is one of `system_wq` or of another bound
workqueue. -/

/-- A pool_workqueue is its cpu and whether it is of `system_wq`. -/
def boundPwqs : LockConfig Bool (Bool × Bool) Bool where
  poolOf := fun q => q.1
  sysPwq := fun c => (c, true)
  belongSyswq := fun q => q.2

/-- `destroy_workqueue` drops the base reference of the pool_workqueue of the first cpu, and the
release work goes to the pool of `c`. -/
def destroyRelease (c : Bool) : List (LockAct Bool (Bool × Bool) Bool Unit) :=
  [.start () (.putPwqUnlocked (false, false)), .go () c true, .go () c true]

theorem no_self_lock_other_cpu :
    ∃ s : LockState Bool (Bool × Bool) Unit,
      runActs (lockStep boundPwqs) lockInit (destroyRelease true) = some s ∧
      s.todo () = queueProg boundPwqs (true, true) (.unlock false .done) ∧ ∀ p, ¬ SelfLocks s () p := by
  have hmeets : RunMeets (lockStep boundPwqs) (ReleasesElsewhere boundPwqs) lockInit
      (destroyRelease true) := by
    refine RunMeets.cons rfl trivial (RunMeets.cons rfl trivial (RunMeets.cons rfl ?_ trivial))
    intro _ _ h
    cases h
  exact ⟨_, rfl, rfl, fun p => no_self_lock (destroyRelease true) _ hmeets rfl () p⟩

/-- The release work goes to the pool whose lock `put_pwq` is called under. -/
theorem put_pwq_self_lock :
    ∃ s : LockState Bool (Bool × Bool) Unit,
      runActs (lockStep boundPwqs) lockInit (destroyRelease false) = some s ∧ SelfLocks s () false :=
  ⟨_, rfl, ⟨_, rfl⟩, rfl⟩

end Skp.Workqueue
