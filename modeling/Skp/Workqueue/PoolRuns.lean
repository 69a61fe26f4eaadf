import Skp.Workqueue.PoolWakeup

/-! # No work is stranded

The invariant of each bound pool in the runs of the whole system: the steps of `Calls` fill
worklists, the steps of the workers move the pools. -/
namespace Skp.Workqueue
set_option autoImplicit false
open Skp.Foundations

/-! ## What the steps of a pool leave alone -/

section Frame
variable {K T : Type} {v v' v'' : WorkerPool K T} {kind : PoolKind} {pending : Bool} {k : K}
  {b : WorkerPc} {mine : K → Prop}

/-- Nobody gets or loses a work, only a worker of `mine` comes into being, and a thread in
`insert_work` keeps the lock. -/
structure PoolFrame (mine : K → Prop) (v v' : WorkerPool K T) : Prop where
  hasWork : ∀ j, (v'.pc j).hasWork = (v.pc j).hasWork
  present : ∀ j, v'.pc j ≠ .absent → v.pc j ≠ .absent ∨ mine j
  caller : ∀ t, v.lock = some (.caller t) → v'.lock = some (.caller t)

theorem PoolFrame.trans (h : PoolFrame mine v v') (h' : PoolFrame mine v' v'') : PoolFrame mine v v'' :=
  ⟨fun j => (h'.hasWork j).trans (h.hasWork j), fun j hj => (h'.present j hj).elim (h.present j) Or.inr,
    fun t ht => h'.caller t (h.caller t ht)⟩

variable [DecidableEq K]

theorem poolFrame_update (hk : v.pc k ≠ .absent ∨ mine k) (hpc' : v'.pc = Function.update v.pc k b)
    (hwork : (v.pc k).hasWork = b.hasWork)
    (hcaller : ∀ t, v.lock = some (.caller t) → v'.lock = some (.caller t)) :
    PoolFrame mine v v' := by
  refine ⟨fun j => ?_, fun j hj => ?_, hcaller⟩
  · rw [hpc']
    by_cases hjk : j = k
    · rw [hjk, Function.update_self, hwork]
    · rw [Function.update_of_ne hjk]
  · by_cases hjk : j = k
    · exact hjk ▸ hk
    · rw [hpc', Function.update_of_ne hjk] at hj
      exact Or.inl hj

theorem poolFrame_wakeUp : PoolFrame mine v v.wakeUp := by
  refine ⟨fun j => ?_, fun j hj => ?_, fun t ht => wakeUp_frame.2.2.trans ht⟩
  · rcases wakeUp_pc (v := v) j with heq | ⟨hasleep, hwoken⟩
    · rw [heq]
    · rw [hasleep, hwoken]
      rfl
  · rcases wakeUp_pc (v := v) j with heq | ⟨hasleep, -⟩
    · rw [heq] at hj
      exact Or.inl hj
    · rw [hasleep]
      exact Or.inl (by decide)

theorem poolFrame_lockBy {l : List K} (hk : mine k) (hstep : { v with idleWorker := l }.lockBy k b = some v')
    (hwork : (v.pc k).hasWork = b.hasWork) : PoolFrame mine v v' := by
  obtain ⟨hfree, heq⟩ := Option.ite_none_right_eq_some.mp hstep
  obtain rfl := Option.some.inj heq
  refine poolFrame_update (Or.inr hk) rfl hwork fun t ht => ?_
  rw [show v.lock = none from hfree] at ht
  cases ht

variable [Fintype K]

omit [DecidableEq K] in
theorem PoolFit.not_caller (h : PoolFit v) (hk : (v.pc k).holdsLock = true) (t : T) :
    v.lock ≠ some (.caller t) := by
  intro ht
  exact nomatch (h.holds k hk).symm.trans ht

theorem PoolFit.next_frame {scheduled : Bool} (h : PoolFit v) (hbound : kind.bound = true) (hk : mine k)
    (hstep : v.next kind pending scheduled k (v.pc k) = some v') : PoolFrame mine v v' := by
  have hholder : (v.pc k).holdsLock = true → ∀ t, v.lock ≠ some (.caller t) := h.not_caller
  cases hpc : v.pc k with
  | launched =>
    rw [hpc, WorkerPool.next] at hstep
    exact poolFrame_lockBy hk hstep (by rw [hpc]; rfl)
  | woken =>
    rw [hpc, WorkerPool.next] at hstep
    exact poolFrame_lockBy hk hstep (by rw [hpc]; rfl)
  | relock =>
    rw [hpc, WorkerPool.next] at hstep
    exact poolFrame_lockBy hk hstep (by rw [hpc]; rfl)
  | unlocked =>
    rw [hpc, WorkerPool.next, Option.some.injEq] at hstep
    subst hstep
    split
    · exact poolFrame_update (Or.inr hk) rfl (by rw [hpc]; rfl) fun _ => id
    · exact poolFrame_update (Or.inr hk) rfl (by rw [hpc]; rfl) fun _ => id
  | recheck =>
    rw [hpc, WorkerPool.next, Option.some.injEq] at hstep
    subst hstep
    split
    · exact poolFrame_update (Or.inr hk) rfl (by rw [hpc]; rfl) fun _ => id
    · exact poolFrame_update (Or.inr hk) rfl (by rw [hpc]; rfl) fun _ => id
  | mayStart =>
    rw [hpc, WorkerPool.next, Option.some.injEq] at hstep
    rw [hpc] at hholder
    subst hstep
    split
    · exact poolFrame_update (Or.inr hk) rfl (by rw [hpc]; rfl) fun _ => id
    · exact poolFrame_update (Or.inr hk) rfl (by rw [hpc]; rfl) fun t ht => absurd ht (hholder rfl t)
  | managed =>
    rw [hpc, WorkerPool.next, Option.some.injEq] at hstep
    rw [hpc] at hholder
    subst hstep
    split
    · exact poolFrame_update (Or.inr hk) rfl (by rw [hpc]; rfl) fun t ht => absurd ht (hholder rfl t)
    · exact poolFrame_update (Or.inr hk) rfl (by rw [hpc]; rfl) fun _ => id
  | starting =>
    rw [hpc, WorkerPool.next, addRunning_of_bound hbound, Option.some.injEq] at hstep
    subst hstep
    exact poolFrame_update (Or.inr hk) rfl (by rw [hpc]; rfl) fun _ => id
  | picked =>
    rw [hpc, WorkerPool.next, Option.some.injEq] at hstep
    rw [hpc] at hholder
    subst hstep
    have hrest : ∀ v1 : WorkerPool K T, v1.pc k = .picked → (∀ t, v1.lock ≠ some (.caller t)) →
        PoolFrame mine v1 (v1.free.goto k .calling) := fun v1 hpc1 hnot =>
      poolFrame_update (Or.inr hk) rfl (by rw [hpc1]; rfl) fun t ht => absurd ht (hnot t)
    split
    · refine poolFrame_wakeUp.trans
        (hrest v.wakeUp ((wakeUp_pc_of_ne (by rw [hpc]; decide)).trans hpc) fun t => ?_)
      rw [wakeUp_frame.2.2]
      exact hholder rfl t
    · exact hrest v hpc (hholder rfl)
  | sleepTest =>
    rw [hpc, WorkerPool.next, Option.some.injEq] at hstep
    subst hstep
    split
    · exact poolFrame_update (Or.inr hk) rfl (by rw [hpc]; rfl) fun _ => id
    · exact poolFrame_update (Or.inr hk) rfl (by rw [hpc]; rfl) fun _ => id
  | sleepLock =>
    rw [hpc, WorkerPool.next] at hstep
    obtain ⟨-, heq⟩ := Option.ite_none_right_eq_some.mp hstep
    obtain rfl := Option.some.inj heq
    split
    · have hpc1 : v.wakeUp.pc k = .sleepLock := (wakeUp_pc_of_ne (by rw [hpc]; decide)).trans hpc
      exact poolFrame_wakeUp.trans (poolFrame_update (Or.inr hk) rfl (by rw [hpc1]; rfl) fun _ => id)
    · exact poolFrame_update (Or.inr hk) rfl (by rw [hpc]; rfl) fun _ => id
  | processed =>
    rw [hpc, WorkerPool.next, Option.some.injEq] at hstep
    subst hstep
    split
    · exact poolFrame_update (Or.inr hk) rfl (by rw [hpc]; rfl) fun _ => id
    · exact poolFrame_update (Or.inr hk) rfl (by rw [hpc]; rfl) fun _ => id
  | stopping =>
    rw [hpc, WorkerPool.next, addRunning_of_bound hbound, Option.some.injEq] at hstep
    subst hstep
    exact poolFrame_update (Or.inr hk) rfl (by rw [hpc]; rfl) fun _ => id
  | entering =>
    rw [hpc, WorkerPool.next, Option.some.injEq] at hstep
    rw [hpc] at hholder
    subst hstep
    exact poolFrame_update (Or.inr hk) rfl (by rw [hpc]; rfl) fun t ht => absurd ht (hholder rfl t)
  | dying =>
    rw [hpc, WorkerPool.next] at hstep
    obtain ⟨-, heq⟩ := Option.ite_none_right_eq_some.mp hstep
    obtain rfl := Option.some.inj heq
    exact poolFrame_update (Or.inr hk) rfl (by rw [hpc]; rfl) fun _ => id
  | _ =>
    simp only [hpc, WorkerPool.next, reduceCtorEq] at hstep

theorem poolFrame_idleTimeout (h : PoolFit v) (hstep : v.idleTimeout = some v') : PoolFrame mine v v' := by
  obtain ⟨-, hmap⟩ := Option.ite_none_right_eq_some.mp hstep
  obtain ⟨k, hlast, rfl⟩ := Option.map_eq_some_iff.mp hmap
  have hidle := h.idle k (List.mem_of_getLast? hlast)
  refine poolFrame_update (k := k) (b := .dying) (Or.inl fun hpc => ?_) rfl ?_ fun _ => id
  · rw [hpc] at hidle
    exact Bool.noConfusion hidle
  · cases hpc : v.pc k <;> rw [hpc] at hidle <;> first | rfl | exact Bool.noConfusion hidle

omit [Fintype K] in
theorem poolFrame_create {other : K} (hk : mine k) (hother : mine other)
    (hstep : v.create k other = some v') :
    PoolFrame mine v v' := by
  obtain ⟨⟨hfree, hpc, hnew⟩, heq⟩ := Option.ite_none_right_eq_some.mp hstep
  obtain rfl := Option.some.inj heq
  have hne : k ≠ other := by
    rintro rfl
    rw [hpc] at hnew
    exact nomatch hnew
  have hlaunch : PoolFrame mine v (v.launch other) :=
    poolFrame_update (Or.inr hother) rfl (by rw [hnew]; rfl) fun _ => id
  have hpc1 : (v.launch other).pc k = .managing := (goto_pc_of_ne hne).trans hpc
  exact hlaunch.trans (poolFrame_update (Or.inr hk) rfl (by rw [hpc1]; rfl) fun _ => id)

end Frame

/-! ## Runs -/

section Runs
variable {P Q G W K T : Type} [DecidableEq P]
  {cfg : WqConfig P Q G K} {kinds : P → PoolKind} {s s' : PoolsState P Q G W K T}

/-- No work is stranded: at a bound pool that is quiet and has works on its list a worker runs, or a
worker without a work comes, or nobody is idle. -/
def Served (cfg : WqConfig P Q G K) (kinds : P → PoolKind) (s : PoolsState P Q G W K T) : Prop :=
  ∀ p, (kinds p).bound = true → (s.pool p).Quiet → s.base.core.lists (.worklist p) ≠ [] →
    0 < (s.pool p).nrRunning ∨
      (∃ k, cfg.workerPool k = p ∧ s.base.core.curr k = none ∧ (s.pool p).comes k = true) ∨
        (s.pool p).idleWorker = []

/-- At a bound pool a cancel fills an empty worklist only while somebody attends to it, the last
running worker does not stop while works wait, and no signal is the one that makes the count of the
first idle worker a multiple of `2 ^ 16`. -/
def StepServes (cfg : WqConfig P Q G K) (kinds : P → PoolKind) (s : PoolsState P Q G W K T) :
    PoolsAct P Q G W K T → Prop
  | .call (.cancel (.grabLock t)) =>
      ∀ p, grabFills cfg s.base t = some p → (kinds p).bound = true → s.pending p = false →
        (s.pool p).Attended
  | .next k =>
      (kinds (cfg.workerPool k)).bound = true →
        (s.pool (cfg.workerPool k)).careful (s.pending (cfg.workerPool k))
          ((s.pool (cfg.workerPool k)).pc k) = true
  | .insertEnd t =>
      ∀ p, s.inserting t = some p → (kinds p).bound = true → (s.pool p).nrRunning = 0 →
        (s.pool p).headFull = false
  | _ => True

structure PoolsInv [Fintype K] (cfg : WqConfig P Q G K) (kinds : P → PoolKind)
    (s : PoolsState P Q G W K T) : Prop where
  ctl : Ctl cfg s.base
  active : ActiveOk cfg s.base.core
  pool : ∀ p, (kinds p).bound = true → PoolInv (s.pending p) (s.pool p)
  placed : ∀ p k, (kinds p).bound = true → (s.pool p).pc k ≠ .absent → cfg.workerPool k = p
  hasWork : ∀ k, (kinds (cfg.workerPool k)).bound = true → s.base.core.curr k ≠ none →
    ((s.pool (cfg.workerPool k)).pc k).hasWork = true
  inserting : ∀ t p, (kinds p).bound = true → s.inserting t = some p → (s.pool p).lock = some (.caller t)

variable [Fintype K]

omit [DecidableEq P] in
theorem PoolsInv.served (h : PoolsInv cfg kinds s) : Served cfg kinds s := by
  intro p hbound hquiet hlist
  have hinv := h.pool p hbound
  have hcurr : ∀ k, (s.pool p).comes k = true → cfg.workerPool k = p ∧ s.base.core.curr k = none := by
    intro k hk
    have hplaced : cfg.workerPool k = p := by
      refine h.placed p k hbound fun habsent => ?_
      rw [WorkerPool.comes, habsent] at hk
      exact Bool.noConfusion hk
    refine ⟨hplaced, ?_⟩
    by_contra hsome
    have hwork := h.hasWork k (by rw [hplaced]; exact hbound) hsome
    rw [hplaced] at hwork
    rw [WorkerPool.comes] at hk
    cases hpc : (s.pool p).pc k <;> rw [hpc] at hwork hk <;>
      first | exact Bool.noConfusion hwork | exact Bool.noConfusion hk
  rcases hinv.attended (pending_iff.mpr hlist) with hpos | ⟨k, hk⟩ | ⟨t, ht⟩ | hhead
  · exact Or.inl hpos
  · right
    left
    have hnot := hinv.not_holds hquiet.1 k
    have hawake := hquiet.2 k
    have hcomes : (s.pool p).comes k = true := by
      rw [WorkerPool.comes]
      cases hpc : (s.pool p).pc k <;> rw [hpc] at hk hnot hawake <;>
        first | rfl | exact Bool.noConfusion hk | exact Bool.noConfusion hnot | exact Bool.noConfusion hawake
    exact ⟨k, (hcurr k hcomes).1, (hcurr k hcomes).2, hcomes⟩
  · rw [hquiet.1] at ht
    cases ht
  · right
    cases hidle : (s.pool p).idleWorker with
    | nil => exact Or.inr rfl
    | cons k l =>
      have hcomes := hhead k l hidle
      exact Or.inl ⟨k, (hcurr k hcomes).1, (hcurr k hcomes).2, hcomes⟩

/-- A step that touches the pool `p`, and works of its workers. -/
theorem PoolsInv.moved (h : PoolsInv cfg kinds s) {b : WqState P Q G W K T} {p : P}
    {v' : WorkerPool K T} (hctl : Ctl cfg b)
    (hactive : ActiveOk cfg b.core) (hinv : (kinds p).bound = true → PoolInv (b.core.pending p) v')
    (hempty : ∀ p', p' ≠ p → b.core.pending p' = true → s.pending p' = true)
    (hpresent : (kinds p).bound = true → ∀ k, v'.pc k ≠ .absent → (s.pool p).pc k ≠ .absent ∨
      cfg.workerPool k = p)
    (hcaller : (kinds p).bound = true → ∀ t, (s.pool p).lock = some (.caller t) → v'.lock = some (.caller t))
    (hcurr : ∀ k, cfg.workerPool k ≠ p → b.core.curr k = s.base.core.curr k)
    (hwork : (kinds p).bound = true → ∀ k, cfg.workerPool k = p → b.core.curr k ≠ none →
      (v'.pc k).hasWork = true) :
    PoolsInv cfg kinds ({ s with base := b }.setPool p v') := by
  refine ⟨hctl, hactive, fun p' hbound => ?_, fun p' k hbound hpc => ?_, fun k hbound hk => ?_,
    fun t p' hbound ht => ?_⟩
  · change PoolInv (b.core.pending p') (Function.update s.pool p v' p')
    by_cases hp : p' = p
    · subst hp
      rw [Function.update_self]
      exact hinv hbound
    · rw [Function.update_of_ne hp]
      exact (h.pool p' hbound).fill fun hpending => Or.inl (hempty p' hp hpending)
  · change (Function.update s.pool p v' p').pc k ≠ .absent at hpc
    by_cases hp : p' = p
    · subst hp
      rw [Function.update_self] at hpc
      exact (hpresent hbound k hpc).elim (h.placed p' k hbound) id
    · rw [Function.update_of_ne hp] at hpc
      exact h.placed p' k hbound hpc
  · change ((Function.update s.pool p v' (cfg.workerPool k)).pc k).hasWork = true
    by_cases hp : cfg.workerPool k = p
    · rw [hp, Function.update_self]
      exact hwork (hp ▸ hbound) k hp hk
    · rw [Function.update_of_ne hp]
      exact h.hasWork k hbound (hcurr k hp ▸ hk)
  · change (Function.update s.pool p v' p').lock = some (.caller t)
    have hold := h.inserting t p' hbound ht
    by_cases hp : p' = p
    · subst hp
      rw [Function.update_self]
      exact hcaller hbound t hold
    · rw [Function.update_of_ne hp]
      exact hold

/-- A step that only touches the pool `p`. -/
theorem PoolsInv.onPool (h : PoolsInv cfg kinds s) {p : P} {f : WorkerPool K T → Option (WorkerPool K T)}
    (hstep : s.onPool p f = some s') (hf : (kinds p).bound = true → ∀ v', f (s.pool p) = some v' →
      PoolInv (s.pending p) v' ∧ PoolFrame (fun k => cfg.workerPool k = p) (s.pool p) v') : PoolsInv
        cfg kinds s' := by
  obtain ⟨v', hv', rfl⟩ := Option.map_eq_some_iff.mp hstep
  refine h.moved (b := s.base) h.ctl h.active (fun hbound => (hf hbound v' hv').1) (fun _ _ => id)
    (fun hbound => (hf hbound v' hv').2.present) (fun hbound => (hf hbound v' hv').2.caller) (fun _ _ => rfl)
    fun hbound k hk hcurr => ?_
  subst hk
  rw [(hf hbound v' hv').2.hasWork k]
  exact h.hasWork k hbound hcurr

variable [DecidableEq Q] [DecidableEq G] [DecidableEq W] [DecidableEq K] [DecidableEq T]

omit [Fintype K] in
theorem activeOk_step {b b' : WqState P Q G W K T} {a : WqAct Q G W K T} (hctl : Ctl cfg b)
    (hactive : ActiveOk cfg b.core)
    (hstep : wqStep cfg b a = some b') : ActiveOk cfg b'.core :=
  effect_invariant (fun _ _ hc hi hm => hi.move hc hm) hctl (wqStep_effect hstep) hactive

/-- `process_one_work`, up to the call or the collision. -/
theorem PoolsInv.pick (h : PoolsInv cfg kinds s) {b : WqState P Q G W K T} {k : K}
    (hpc : (s.pool (cfg.workerPool k)).pc k = .loop) (hb : wqStep cfg s.base (.worker (.pick k)) = some b) :
    PoolsInv cfg kinds ({ s with base := b }.setPool (cfg.workerPool k)
      ((s.pool (cfg.workerPool k)).goto k (if (b.core.curr k).isSome = true then .picked
        else .processed))) := by
  obtain ⟨c, hc, rfl⟩ := Option.map_eq_some_iff.mp hb
  refine h.moved (ctl_effect h.ctl (wqStep_effect hb)) (activeOk_step h.ctl h.active hb)
    (fun hbound => ?_) (fun p' _ hp' => ?_)
    (fun _ j hj => ?_) (fun _ t ht => ht) (fun j hj => ?_) fun hbound j hj hcurr => ?_
  · have hlock := (h.pool _ hbound).holds k (by rw [hpc]; rfl)
    split
    · exact (h.pool _ hbound).toPoolFit.countOn hpc rfl rfl rfl rfl (fun _ => hlock) rfl
    · exact (h.pool _ hbound).toPoolFit.countOn hpc rfl rfl rfl rfl (fun _ => hlock) rfl
  · rw [pending_iff] at hp'
    exact pending_iff.mpr fun hempty => hp' (pickWork_empty hc hempty)
  · by_cases hjk : j = k
    · exact Or.inr (congrArg cfg.workerPool hjk)
    · rw [goto_pc_of_ne hjk] at hj
      exact Or.inl hj
  · exact pickWork_curr hc fun he => hj (congrArg cfg.workerPool he)
  · by_cases hjk : j = k
    · subst hjk
      rw [goto_pc_self, if_pos (Option.isSome_iff_ne_none.mpr hcurr)]
      rfl
    · rw [goto_pc_of_ne hjk]
      have hold := h.hasWork j (by rw [hj]; exact hbound) (pickWork_curr hc hjk ▸ hcurr)
      rwa [hj] at hold

theorem PoolsInv.finish (h : PoolsInv cfg kinds s) {b : WqState P Q G W K T} {k : K}
    (hpc : (s.pool (cfg.workerPool k)).pc k = .calling)
    (hb : wqStep cfg s.base (.worker (.finish k)) = some b)
    (hstep : ({ s with base := b }).onPool (cfg.workerPool k) (fun v => v.lockBy k .processed) = some s') :
    PoolsInv cfg kinds s' := by
  obtain ⟨v', hv', rfl⟩ := Option.map_eq_some_iff.mp hstep
  have hctl := ctl_effect h.ctl (wqStep_effect hb)
  have hactive := activeOk_step h.ctl h.active hb
  rw [wqStep, workerStep] at hb
  split at hb
  · rename_i r hr
    obtain ⟨-, hb⟩ := Option.ite_none_left_eq_some.mp hb
    obtain rfl := Option.some.inj hb
    have hcurr : (finishWork cfg s.base.core k r).curr = Function.update s.base.core.curr k none :=
      finishWork_curr
    have hrunning := h.ctl.core.layout.running_pool k r hr
    obtain ⟨hfree, heq⟩ := Option.ite_none_right_eq_some.mp hv'
    obtain rfl := Option.some.inj heq
    refine h.moved hctl hactive (fun hbound => ?_) (fun p' hp' hpending => ?_) (fun _ j hj => ?_)
      (fun _ t ht => ?_)
      (fun j hj => ?_) fun hbound j hj hjcurr => ?_
    · have hidle := (h.pool _ hbound).not_mem (k := k) (by rw [hpc]; rfl)
      obtain ⟨hfit, hpc', -⟩ := (h.pool _ hbound).toPoolFit.lockBy (Or.inl rfl) hv' hpc rfl hidle
      exact hfit.inv_of_counted (k := k) (by rw [hpc', Function.update_self]; rfl)
    · rw [pending_iff] at hpending
      exact pending_iff.mpr fun hempty => hpending (finishWork_empty hempty (hrunning ▸ hp'.symm))
    · by_cases hjk : j = k
      · exact Or.inr (congrArg cfg.workerPool hjk)
      · rw [goto_pc_of_ne hjk] at hj
        exact Or.inl hj
    · rw [show (s.pool (cfg.workerPool k)).lock = none from hfree] at ht
      cases ht
    · rw [hcurr, Function.update_of_ne fun he => hj (congrArg cfg.workerPool he)]
    · rw [hcurr] at hjcurr
      by_cases hjk : j = k
      · rw [hjk, Function.update_self] at hjcurr
        exact absurd rfl hjcurr
      · rw [Function.update_of_ne hjk] at hjcurr
        rw [goto_pc_of_ne hjk]
        have hold := h.hasWork j (by rw [hj]; exact hbound) hjcurr
        rwa [hj] at hold
  · cases hb

theorem PoolsInv.complete (h : PoolsInv cfg kinds s) {b : WqState P Q G W K T} {k : K}
    (hb : wqStep cfg s.base (.worker (.complete k)) = some b) : PoolsInv cfg kinds { s with base := b } := by
  have hctl := ctl_effect h.ctl (wqStep_effect hb)
  have hactive := activeOk_step h.ctl h.active hb
  have hsame : b.core.lists = s.base.core.lists ∧ ∀ j, b.core.curr j ≠ none → s.base.core.curr j ≠ none := by
    rw [wqStep, workerStep] at hb
    split at hb
    · rename_i r hr
      split at hb
      · obtain ⟨-, hb⟩ := Option.ite_none_left_eq_some.mp hb
        obtain rfl := Option.some.inj hb
        refine ⟨rfl, fun j hj => ?_⟩
        by_cases hjk : j = k
        · rw [hjk, hr]
          exact Option.some_ne_none _
        · have heq : Function.update s.base.core.curr k (some { r with called := true }) j =
            s.base.core.curr j :=
            Function.update_of_ne hjk ..
          exact heq ▸ hj
      · cases hb
    · cases hb
  refine ⟨hctl, hactive, fun p hbound => ?_, h.placed,
    fun k hbound hk => h.hasWork k hbound (hsame.2 k hk), h.inserting⟩
  have hpending : b.core.pending p = s.pending p := by rw [Core.pending, hsame.1]; rfl
  exact (h.pool p hbound).fill fun hp => Or.inl (hpending ▸ hp)

theorem PoolsInv.call (h : PoolsInv cfg kinds s) {a : WqAct Q G W K T} (ha : a.isCall = true)
    (hserves : ∀ t, a = .cancel (.grabLock t) → StepServes cfg kinds s (.call (.cancel (.grabLock t))))
    (hstep : outsideStep cfg s a = some s') : PoolsInv cfg kinds s' := by
  obtain ⟨⟨-, hlock⟩, hmap⟩ := Option.ite_none_right_eq_some.mp hstep
  obtain ⟨b, hb, rfl⟩ := Option.map_eq_some_iff.mp hmap
  have hctl := ctl_effect h.ctl (wqStep_effect hb)
  have hactive := activeOk_step h.ctl h.active hb
  have hfills := wqStep_fills h.ctl h.active ha hb
  have hpending : ∀ p, b.core.pending p = true → s.pending p = true ∨ fillsAt cfg s.base a = some p := by
    intro p hp
    by_cases hold : s.pending p = true
    · exact Or.inl hold
    · rw [Bool.not_eq_true] at hold
      exact Or.inr ((hfills.empty p (pending_false_iff.mp hold)).resolve_left (pending_iff.mp hp))
  cases hins : insertsAt cfg s.base a with
  | none =>
    refine ⟨hctl, hactive, fun p hbound => ?_, h.placed,
      fun k hbound hk => h.hasWork k hbound (hfills.curr ▸ hk), h.inserting⟩
    refine (h.pool p hbound).fill fun hp => ?_
    by_cases hold : s.pending p = true
    · exact Or.inl hold
    · rw [Bool.not_eq_true] at hold
      have hat := (hpending p hp).resolve_left (Bool.eq_false_iff.mp hold)
      obtain ⟨t, rfl, hgrab⟩ := grabFills_of_fillsAt ha hins hat
      exact Or.inr ⟨hlock p (lockedPool_of_grabFills hgrab), hserves t rfl p hgrab hbound hold⟩
  | some tp =>
    obtain ⟨t, p⟩ := tp
    have hfree : (s.pool p).lock = none := hlock p (lockedPool_of_insertsAt h.ctl hins)
    have hat := fillsAt_of_insertsAt hins
    have hmoved : PoolsInv cfg kinds
        ({ s with base := b }.setPool p { s.pool p with lock := some (.caller t) }) := by
      refine h.moved hctl hactive (fun hbound => (h.pool p hbound).toPoolFit.insert hfree t)
        (fun p' hp' hpend => ?_)
        (fun _ _ => Or.inl) (fun _ t' ht' => ?_)
          (fun k _ => congrFun hfills.curr k) fun hbound k hk hcurr => ?_
      · refine (hpending p' hpend).resolve_right fun hat' => hp' ?_
        exact Option.some.inj (hat'.symm.trans hat)
      · rw [hfree] at ht'
        cases ht'
      · rw [hfills.curr] at hcurr
        have hold := h.hasWork k (by rw [hk]; exact hbound) hcurr
        rwa [hk] at hold
    refine { hmoved with inserting := fun t' p' hbound ht' => ?_ }
    by_cases ht : t' = t
    · subst ht
      have heq : p = p' := by
        change Function.update s.inserting t' (some p) t' = some p' at ht'
        rw [Function.update_self] at ht'
        exact Option.some.inj ht'
      subst heq
      change (Function.update s.pool p _ p).lock = _
      rw [Function.update_self]
    · change Function.update s.inserting t (some p) t' = some p' at ht'
      rw [Function.update_of_ne ht] at ht'
      exact hmoved.inserting t' p' hbound ht'

omit [DecidableEq Q] [DecidableEq G] [DecidableEq W] in
/-- The thread in `insert_work` wakes the first idle worker and leaves. -/
theorem PoolsInv.insertEnd (h : PoolsInv cfg kinds s) {t : T} {p : P} (ht : s.inserting t = some p)
    (hfull : (kinds p).bound = true → (s.pool p).nrRunning = 0 → (s.pool p).headFull = false) :
    PoolsInv cfg kinds { s.setPool p (s.pool p).insertEnd
      with inserting := Function.update s.inserting t none } := by
  have hframe : ∀ v : WorkerPool K T, ∀ j, (v.insertEnd.pc j).hasWork = (v.pc j).hasWork ∧
      (v.insertEnd.pc j ≠ .absent → v.pc j ≠ .absent) := by
    intro v j
    have hwake : PoolFrame (fun _ => False) v v.wakeUp := poolFrame_wakeUp
    rw [WorkerPool.insertEnd]
    split
    · exact ⟨hwake.hasWork j, fun hj => (hwake.present j hj).resolve_right id⟩
    · exact ⟨rfl, id⟩
  refine ⟨h.ctl, h.active, fun p' hbound => ?_, fun p' k hbound hpc => ?_, fun k hbound hk => ?_,
    fun t' p' hbound ht' => ?_⟩
  · change PoolInv (s.pending p') (Function.update s.pool p _ p')
    by_cases hp : p' = p
    · subst hp
      rw [Function.update_self]
      exact (h.pool p' hbound).toPoolFit.insertEnd (h.inserting t p' hbound ht) (hfull hbound)
    · rw [Function.update_of_ne hp]
      exact h.pool p' hbound
  · change (Function.update s.pool p _ p').pc k ≠ .absent at hpc
    by_cases hp : p' = p
    · subst hp
      rw [Function.update_self] at hpc
      exact h.placed p' k hbound ((hframe _ k).2 hpc)
    · rw [Function.update_of_ne hp] at hpc
      exact h.placed p' k hbound hpc
  · change ((Function.update s.pool p _ (cfg.workerPool k)).pc k).hasWork = true
    have hold := h.hasWork k hbound hk
    by_cases hp : cfg.workerPool k = p
    · rw [hp, Function.update_self, (hframe _ k).1]
      rwa [hp] at hold
    · rwa [Function.update_of_ne hp]
  · change (Function.update s.pool p _ p').lock = some (.caller t')
    have hne : t' ≠ t := by
      rintro rfl
      change Function.update s.inserting t' none t' = some p' at ht'
      rw [Function.update_self] at ht'
      cases ht'
    change Function.update s.inserting t none t' = some p' at ht'
    rw [Function.update_of_ne hne] at ht'
    have hold := h.inserting t' p' hbound ht'
    by_cases hp : p' = p
    · subst hp
      rw [h.inserting t p' hbound ht] at hold
      exact absurd (PoolHolder.caller.inj (Option.some.inj hold)).symm hne
    · rw [Function.update_of_ne hp]
      exact hold

theorem PoolsInv.next (h : PoolsInv cfg kinds s) {k : K} (hserves : StepServes cfg kinds s (.next k))
    (hstep : nextStep cfg kinds s k = some s') : PoolsInv cfg kinds s' := by
  simp only [nextStep] at hstep
  split at hstep
  · rename_i hpc
    obtain ⟨b, hb, rfl⟩ := Option.map_eq_some_iff.mp hstep
    exact h.pick hpc hb
  · refine h.onPool hstep fun hbound v' hv' => ?_
    exact ⟨(h.pool _ hbound).next hbound (hserves hbound) hv',
      (h.pool _ hbound).toPoolFit.next_frame hbound rfl hv'⟩

theorem PoolsInv.step (h : PoolsInv cfg kinds s) {a : PoolsAct P Q G W K T}
    (hserves : StepServes cfg kinds s a)
    (hstep : poolsStep cfg kinds s a = some s') : PoolsInv cfg kinds s' := by
  cases a with
  | call a =>
    cases a with
    | worker a =>
      cases a with
      | pick k => rw [poolsStep] at hstep; cases hstep
      | complete k => rw [poolsStep] at hstep; cases hstep
      | finish k => rw [poolsStep] at hstep; cases hstep
      | _ => exact h.call rfl (fun t ht => by cases ht) hstep
    | _ => exact h.call rfl (fun t ht => ht ▸ hserves) hstep
  | insertEnd t =>
    rw [poolsStep] at hstep
    split at hstep
    · rename_i p ht
      obtain rfl := Option.some.inj hstep
      exact h.insertEnd ht (hserves p ht)
    · cases hstep
  | boot k =>
    rw [poolsStep] at hstep
    refine h.onPool hstep fun hbound v' hv' => ⟨(h.pool _ hbound).boot hv', ?_⟩
    obtain ⟨⟨-, -, hpc⟩, heq⟩ := Option.ite_none_right_eq_some.mp hv'
    obtain rfl := Option.some.inj heq
    exact poolFrame_update (k := k) (b := .launched) (Or.inr rfl) rfl (by rw [hpc]; rfl) fun _ => id
  | next k => exact h.next hserves hstep
  | create k other =>
    rw [poolsStep] at hstep
    obtain ⟨hsame, hstep⟩ := Option.ite_none_right_eq_some.mp hstep
    exact h.onPool hstep fun hbound v' hv' => ⟨(h.pool _ hbound).create hv', poolFrame_create rfl hsame hv'⟩
  | createFail k again =>
    rw [poolsStep] at hstep
    refine h.onPool hstep fun hbound v' hv' => ⟨(h.pool _ hbound).createFail hv', ?_⟩
    obtain ⟨hpc, heq⟩ := Option.ite_none_right_eq_some.mp hv'
    obtain rfl := Option.some.inj heq
    exact poolFrame_update (k := k) (Or.inr rfl) rfl (by rw [hpc]; cases again <;> rfl) fun _ => id
  | interrupt k spurious =>
    rw [poolsStep] at hstep
    refine h.onPool hstep fun hbound v' hv' => ⟨(h.pool _ hbound).interrupt hv', ?_⟩
    obtain ⟨hpc, heq⟩ := Option.ite_none_right_eq_some.mp hv'
    obtain rfl := Option.some.inj heq
    exact poolFrame_update (k := k) (Or.inr rfl) rfl (by rw [hpc]; cases spurious <;> rfl) fun _ => id
  | sleep k =>
    rw [poolsStep] at hstep
    refine h.onPool hstep fun hbound v' hv' => ⟨(h.pool _ hbound).sleep hv', ?_⟩
    obtain ⟨⟨hb, hpc⟩, heq⟩ := Option.ite_none_right_eq_some.mp hv'
    obtain rfl := Option.some.inj heq
    rw [addRunning_of_bound hb]
    refine poolFrame_update (k := k) (Or.inr rfl) rfl ?_ fun _ => id
    rw [hpc]
    split
    · rfl
    · rfl
  | wake k =>
    rw [poolsStep] at hstep
    refine h.onPool hstep fun hbound v' hv' => ⟨(h.pool _ hbound).wake hbound hv', ?_⟩
    obtain ⟨hpc, heq⟩ := Option.ite_none_right_eq_some.mp hv'
    obtain rfl := Option.some.inj heq
    rw [addRunning_of_bound hbound]
    exact poolFrame_update (k := k) (b := .calling) (Or.inr rfl) rfl (by rw [hpc]; rfl) fun _ => id
  | complete k =>
    rw [poolsStep] at hstep
    obtain ⟨-, hstep⟩ := Option.ite_none_right_eq_some.mp hstep
    obtain ⟨b, hb, rfl⟩ := Option.map_eq_some_iff.mp hstep
    exact h.complete hb
  | finish k =>
    rw [poolsStep] at hstep
    obtain ⟨hpc, hstep⟩ := Option.ite_none_right_eq_some.mp hstep
    obtain ⟨b, hb, hstep⟩ := Option.bind_eq_some_iff.mp hstep
    exact h.finish hpc hb hstep
  | idleTimeout p =>
    exact h.onPool hstep fun hbound v' hv' =>
      ⟨(h.pool p hbound).idleTimeout hv', poolFrame_idleTimeout (h.pool p hbound).toPoolFit hv'⟩

omit [DecidableEq P] [DecidableEq Q] [DecidableEq G] [DecidableEq W] [DecidableEq K] [DecidableEq T] in
theorem poolsInv_init (cfg : WqConfig P Q G K) (kinds : P → PoolKind) :
    PoolsInv cfg kinds (poolsInit : PoolsState P Q G W K T) where
  ctl := ctl_init cfg
  active := (countInv_init cfg).active
  pool := fun _ _ =>
    PoolFit.inv_of_empty
      { holds := fun _ hk => Bool.noConfusion hk
        idle := fun _ hk => nomatch hk
        nodup := List.nodup_nil
        count := (congrArg Nat.cast (census_eq_zero.mpr fun _ => rfl)).symm }
  placed := fun _ _ _ hk => absurd rfl hk
  hasWork := fun _ _ hk => absurd rfl hk
  inserting := fun _ _ _ ht => nomatch ht

end Runs

section System
variable {P Q G W K T : Type} [DecidableEq P] [DecidableEq Q] [DecidableEq G] [DecidableEq W] [DecidableEq K]
  [DecidableEq T]

/-- When no cancel fills an unattended worklist, no last running worker stops before works that wait
and no count of signals overflows, no work is stranded in any reachable state. -/
theorem no_work_stranded (cfg : WqConfig P Q G K) (kinds : P → PoolKind) (as : List (PoolsAct P Q G W K T))
    (s : PoolsState P Q G W K T)
    (hserves : RunMeets (poolsStep cfg kinds) (StepServes cfg kinds) poolsInit as)
    (hr : runActs (poolsStep cfg kinds) poolsInit as = some s) : Served cfg kinds s := by
  have : Fintype K := Fintype.ofList cfg.workers cfg.workers_all
  have hinv : PoolsInv cfg kinds s :=
    run_invariant (fun _ _ _ h ha hs => h.step ha hs) as poolsInit s (poolsInv_init cfg kinds) hserves hr
  exact hinv.served

end System

/-! ## Two workers of one pool -/

def twoWorkers (maxActive : ℕ) : WqConfig Unit Unit Unit Bool where
  poolOf := fun _ => ()
  wqOf := fun _ => ()
  maxActive := fun _ => maxActive
  workerPool := fun _ => ()
  workers := [true, false]
  workers_all := twoPools.workers_all

def boundPair : Unit → PoolKind := fun _ => ⟨true, 2⟩

/-- A thread queues a work. -/
def queueRun (w : Bool) : List (PoolsAct Unit Unit Unit Bool Bool Bool) :=
  [.call (.queue (.queueWork true w ())), .call (.queue (.select true () false)),
    .call (.queue (.lockLast true)),
   .call (.queue (.switchLock true)), .insertEnd true]

/-- The first worker creates the second one and executes a work, the second one goes idle, and the
first one sleeps in the callback. -/
def sleepInWork : List (PoolsAct Unit Unit Unit Bool Bool Bool) :=
  .boot true :: queueRun true ++
    [.next true, .next true, .next true, .create true false, .next true, .next true, .next true,
      .next true, .next true,
     .next true, .next true, .next false, .next false, .next false, .next false, .sleep true, .next true]

theorem no_work_stranded_sleepInWork :
    ∃ s, runActs (poolsStep (twoWorkers 2) boundPair) poolsInit (sleepInWork ++ queueRun false) = some s ∧
      s.base.core.lists (.worklist ()) = [.work false] ∧ (s.pool ()).nrRunning = 0 ∧ (s.pool ()).Quiet ∧
        Served (twoWorkers 2) boundPair s := by
  have hserves : RunMeets (poolsStep (twoWorkers 2) boundPair) (StepServes (twoWorkers 2) boundPair) poolsInit
      (sleepInWork ++ queueRun false) := by
    refine .cons rfl trivial (.cons rfl trivial (.cons rfl trivial (.cons rfl trivial (.cons rfl trivial
      (.cons rfl (fun _ _ _ _ => rfl)
        (.cons rfl (fun _ => rfl) (.cons rfl (fun _ => rfl) (.cons rfl (fun _ => rfl)
      (.cons rfl trivial (.cons rfl (fun _ => rfl) (.cons rfl (fun _ => rfl) (.cons rfl (fun _ => rfl)
      (.cons rfl (fun _ => rfl) (.cons rfl (fun _ => rfl) (.cons rfl (fun _ => rfl) (.cons rfl (fun _ => rfl)
      (.cons rfl (fun _ => rfl) (.cons rfl (fun _ => rfl) (.cons rfl (fun _ => rfl) (.cons rfl (fun _ => rfl)
      (.cons rfl trivial (.cons rfl (fun _ => rfl) (.cons rfl trivial (.cons rfl trivial (.cons rfl trivial
      (.cons rfl trivial (.cons rfl (fun _ _ _ _ => rfl) trivial)))))))))))))))))))))))))))
  obtain ⟨s, hs, hlist, hrunning, hquiet⟩ :
      ∃ s, runActs (poolsStep (twoWorkers 2) boundPair) poolsInit (sleepInWork ++ queueRun false) = some s ∧
        s.base.core.lists (.worklist ()) = [.work false] ∧ (s.pool ()).nrRunning = 0 ∧ (s.pool ()).Quiet := by
    refine ⟨_, rfl, rfl, rfl, rfl, fun k => ?_⟩
    cases k with
    | false => rfl
    | true => rfl
  exact ⟨s, hs, hlist, hrunning, hquiet, no_work_stranded (twoWorkers 2) boundPair _ s hserves hs⟩

/-- While the first worker sleeps, a second work waits for its turn, a barrier is put behind it, and
its cancel brings the barrier to the worklist. -/
def cancelBeforeBarrier : List (PoolsAct Unit Unit Unit Bool Bool Bool) :=
  sleepInWork ++ queueRun false ++
    [.next false, .next false, .next false, .next false, .call (.sync (.flush false false)),
      .call (.sync (.flushRead false)),
     .call (.sync (.flushLock false)), .insertEnd false, .next false, .next false, .next false, .next false,
     .call (.cancel (.call true false ⟨false, false⟩)), .call (.cancel (.grabTimer true)),
     .call (.cancel (.grabBit true)),
     .call (.cancel (.grabRead true)), .call (.cancel (.grabLock true))]

theorem barrier_stranded :
    ∃ s, runActs (poolsStep (twoWorkers 1) boundPair) poolsInit cancelBeforeBarrier = some s ∧
      s.base.core.lists (.worklist ()) = [.barrier false] ∧ ¬ Served (twoWorkers 1) boundPair s := by
  obtain ⟨s, hs, hlist, hrunning, hidle, hlock, hpc⟩ :
      ∃ s, runActs (poolsStep (twoWorkers 1) boundPair) poolsInit cancelBeforeBarrier = some s ∧
        s.base.core.lists (.worklist ()) = [.barrier false] ∧ (s.pool ()).nrRunning = 0 ∧
          (s.pool ()).idleWorker = [false] ∧
          (s.pool ()).lock = none ∧ ∀ k, ((s.pool ()).pc k).inSleeping = false ∧
            (s.pool ()).comes k = false := by
    refine ⟨_, rfl, rfl, rfl, rfl, rfl, fun k => ?_⟩
    cases k with
    | false => exact ⟨rfl, rfl⟩
    | true => exact ⟨rfl, rfl⟩
  refine ⟨s, hs, hlist, fun hserved => ?_⟩
  rcases hserved () rfl ⟨hlock, fun k => (hpc k).1⟩ (hlist ▸ List.cons_ne_nil _ _)
    with hpos | ⟨k, -, -, hcomes⟩ | hnone
  · rw [hrunning] at hpos
    exact absurd hpos (lt_irrefl 0)
  · rw [(hpc k).2] at hcomes
    exact Bool.noConfusion hcomes
  · rw [hidle] at hnone
    cases hnone

end Skp.Workqueue
