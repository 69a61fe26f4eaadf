import Skp.Workqueue.Single

/-! # One worker at a time

The pool of every worker that executes a work of one workqueue is the pool the flags word names, so two such
workers have the same pool, where `find_worker_executing_work` keeps them apart. The word loses its pool only
in `clear_work_data`, after the flush of the cancel has seen that nobody executes the work. -/
namespace Skp.Workqueue
set_option autoImplicit false
open Skp.Foundations

variable {P Q G W K T : Type}

/-- What a thread that holds PENDING of `w` knows about its execution. -/
def LoneAt (cfg : WqConfig P Q G K) (w : W) (c : Core P Q G W K T) (t : T) : Pc P Q G W → Prop
  | .switching v _ _ => v = w → ∀ k, ¬ RunsOn c k w
  | .flushLock v true p => v = w → dataPool cfg (c.flags (.work w)).data = some p
  | .flushWait v true => v = w → ∀ k r, c.curr k = some r → r.item = .work w → r.ticket = c.target t
  | .flushed v => v = w → ∀ k, ¬ RunsOn c k w
  | .foreign _ _ (.flush v cancel) => v = w → cancel = false
  | _ => True

structure Lone (cfg : WqConfig P Q G K) (w : W) (s : WqState P Q G W K T) : Prop where
  pool : ∀ k, RunsOn s.core k w → dataPool cfg (s.core.flags (.work w)).data = some (cfg.workerPool k)
  pcs : ∀ t, LoneAt cfg w s.core t (s.pc t)

section Frames
variable {cfg : WqConfig P Q G K} {w : W} {c c' : Core P Q G W K T} {s s' : WqState P Q G W K T} {t : T}

theorem loneAt_of_not_owner {p : Pc P Q G W} (hp : p.owns ≠ some w) : LoneAt cfg w c t p := by
  unfold LoneAt
  split
  · exact fun hv => absurd (congrArg some hv) hp
  · exact fun hv => absurd (congrArg some hv) hp
  · exact fun hv => absurd (congrArg some hv) hp
  · exact fun hv => absurd (congrArg some hv) hp
  · rename_i v cancel
    intro hv
    cases cancel with
    | true => exact absurd (congrArg some hv) hp
    | false => rfl
  · trivial

theorem LoneAt.mono {p : Pc P Q G W} (h : LoneAt cfg w c t p) (hw : WordKept cfg c c' w)
    (ht : c'.target t = c.target t) :
    LoneAt cfg w c' t p := by
  unfold LoneAt at h ⊢
  split
  · exact fun hv k hk => h hv k (hw.run.runsOn hk)
  · intro hv
    rw [hw.pool]
    exact h hv
  · intro hv k r hk hi
    obtain ⟨r0, h0, h1, h2, -⟩ := hw.run k r hk hi
    rw [ht, ← h2]
    exact h hv k r0 h0 h1
  · exact fun hv k hk => h hv k (hw.run.runsOn hk)
  · exact h
  · trivial

theorem Lone.pool_kept (h : Lone cfg w s) (hw : WordKept cfg s.core c' w) (k : K) (hk : RunsOn c' k w) :
    dataPool cfg (c'.flags (.work w)).data = some (cfg.workerPool k) := by
  rw [hw.pool]
  exact h.pool k (hw.run.runsOn hk)

theorem Lone.frame (h : Lone cfg w s) (hw : WordKept cfg s.core s'.core w)
    (htarget : s'.core.target = s.core.target)
    (hpc : s'.pc = s.pc) : Lone cfg w s' where
  pool := h.pool_kept hw
  pcs := by
    intro u
    rw [hpc]
    exact (h.pcs u).mono hw (by rw [htarget])

variable [DecidableEq T]

theorem Lone.goes (h : Lone cfg w s) {p : Pc P Q G W} (hpc : s'.pc = Function.update s.pc t p)
    (hp : LoneAt cfg w s'.core t p) (hw : WordKept cfg s.core s'.core w)
    (htarget : ∀ u, u ≠ t → s'.core.target u = s.core.target u) : Lone cfg w s' where
  pool := h.pool_kept hw
  pcs := by
    intro u
    rw [hpc]
    by_cases hu : u = t
    · rw [hu, Function.update_self]
      exact hp
    · rw [Function.update_of_ne hu]
      exact (h.pcs u).mono hw (htarget u hu)

theorem lone_of_owner (hown : Owning s) (ht : (s.pc t).owns = some w) {p : Pc P Q G W}
    (hpc : s'.pc = Function.update s.pc t p) (hp : LoneAt cfg w s'.core t p)
    (hpool : ∀ k, RunsOn s'.core k w → dataPool cfg (s'.core.flags (.work w)).data =
      some (cfg.workerPool k)) :
    Lone cfg w s' where
  pool := hpool
  pcs := by
    intro u
    rw [hpc]
    by_cases hu : u = t
    · rw [hu, Function.update_self]
      exact hp
    · rw [Function.update_of_ne hu]
      exact loneAt_of_not_owner (hown.sole_of_owner ht u hu)

omit [DecidableEq T] in
theorem Lone.unique (h : Lone cfg w s) (hc : CoreInv cfg s.core) {k k' : K} (hk : RunsOn s.core k w)
    (hk' : RunsOn s.core k' w) : k = k' := by
  have hpool := (h.pool k hk).symm.trans (h.pool k' hk')
  obtain ⟨r, hr, hi⟩ := hk
  obtain ⟨r', hr', hi'⟩ := hk'
  exact hc.layout.running_unique k k' r r' hr hr' (hi.trans hi'.symm) (Option.some.inj hpool)

end Frames

/-! ## The steps -/

section Steps
variable {cfg : WqConfig P Q G K} {w : W} {g : G} {s s' : WqState P Q G W K T}

theorem loneAt_afterFlush {c : Core P Q G W K T} {t : T} {v : W} {cancel : Bool}
    (h : cancel = true → v = w → ∀ k, ¬ RunsOn c k w) : LoneAt cfg w c t (afterFlush v cancel) := by
  cases cancel with
  | true => exact h rfl
  | false => trivial

variable [DecidableEq T] [DecidableEq P] [DecidableEq G] [DecidableEq W]

/-- No worker of the pool that the word names executes `w` for the workqueue `g`, so nobody executes it. -/
theorem Lone.not_running (h : Lone cfg w s) (hb : Belongs cfg w g s)
    (hno : ∀ p, dataPool cfg (s.core.flags (.work w)).data = some p →
      executingPwq cfg s.core p w g = none) (k : K) :
    ¬ RunsOn s.core k w := by
  intro hk
  have he := hno _ (h.pool k hk)
  obtain ⟨r, hr, hi⟩ := hk
  cases hf : findWorkerExecutingWork cfg s.core (cfg.workerPool k) (.work w) with
  | none => exact findWorker_none hf rfl hr hi
  | some k' =>
    obtain ⟨-, r', hr', hi'⟩ := findWorker_some hf
    simp [executingPwq, hf, hr', hb.running k' r' hr' hi'] at he

theorem LocalMove.loneAt (hctl : Ctl cfg s) (hb : Belongs cfg w g s) (h : Lone cfg w s) {t : T}
    {p : Pc P Q G W}
    (hm : LocalMove cfg s t p) : LoneAt cfg w s.core t p := by
  have hold := h.pcs t
  cases hm with
  | @switch v q n hpc hlast =>
    rintro rfl
    have hwq : cfg.wqOf q = g := hb.choice t q (by rw [hpc]; rfl)
    exact h.not_running hb fun p hp => hwq ▸ (hlast p hp).2
  | foreignLoad hpc =>
    rename_i q f f' back
    rw [hpc] at hold
    cases back with
    | grab v m => trivial
    | flush v cancel => exact hold
  | @flushNone v cancel hpc hd =>
    refine loneAt_afterFlush fun _ hv k hk => ?_
    subst hv
    have := h.pool k hk
    rw [hd] at this
    cases this
  | @flushRead v cancel p hpc hd =>
    cases cancel with
    | true => rintro rfl; exact hd
    | false => trivial
  | @flushGone v cancel p hpc hf =>
    refine loneAt_afterFlush fun hcancel hv k hk => ?_
    subst hv hcancel
    rw [hpc] at hold
    have hp := (h.pool k hk).symm.trans (hold rfl)
    obtain ⟨r, hr, hi⟩ := hk
    exact findWorker_none hf (Option.some.inj hp) hr hi
  | @flushForeign v cancel p q hpc hq hne =>
    intro hv
    subst hv
    cases cancel with
    | true => exact absurd hq ((hctl.owning.own t v (by rw [hpc]; rfl)).1.2 q)
    | false => rfl
  | @barrierDone v cancel hpc hd =>
    refine loneAt_afterFlush fun hcancel hv k hk => ?_
    subst hv hcancel
    have hover := hctl.barriers.done_over t (by rw [hpc]; rfl) hd
    rw [hpc] at hold
    obtain ⟨r, hr, hi⟩ := hk
    rw [← hold rfl k r hr hi, Core.over, hctl.core.staged.running k r hr] at hover
    exact Bool.noConfusion hover
  | select | grabMiss | grabPending | grabRead | grabReadFail | grabLockFail | grabForeign
  | grabWait | grabGiveUp
  | grabAgain | flush | waitOver | waitSleep | waitSignalled | interrupt | sleepAgain => trivial

variable [DecidableEq Q] [DecidableEq K]

theorem Lone.insert (hctl : Ctl cfg s) (h : Lone cfg w s) {t : T} {v : W} {q : Q} {n : ℕ}
    (hi : Inserts cfg s t v q n) : Lone cfg w { s with
      core := queueInsert cfg s.core q v n, pc := Function.update s.pc t .idle } := by
  by_cases hv : w = v
  · subst hv
    refine lone_of_owner hctl.owning (Pc.owns_of_held hi.held) rfl trivial fun k hk => ?_
    have hk0 : RunsOn s.core k w := hk
    have hold := h.pool k hk0
    simp only [queueInsert_flags, Function.update_self, dataPool]
    cases hi with
    | last hpc hd => exact hd.symm.trans hold
    | @executing q' p hpc hd he =>
      simp only [executingPwq, Option.bind_eq_some_iff] at he
      obtain ⟨k', hf, r', hr', hif⟩ := he
      split at hif
      · cases hif
        obtain ⟨hp, -⟩ := findWorker_some hf
        rw [hctl.core.layout.running_pool k' r' hr', hp, ← hd]
        exact hold
      · cases hif
    | switched hpc =>
      have hnone := h.pcs t
      rw [hpc] at hnone
      exact absurd hk0 (hnone rfl k)
  · exact h.goes rfl trivial (wordKept_insert hv q n) (fun _ _ => rfl)

omit [DecidableEq G] in
theorem Lone.pick (hctl : Ctl cfg s) (h : Lone cfg w s) {k : K} {c' : Core P Q G W K T}
    (hp : pickWork cfg s.core k = some c') : Lone cfg w { s with core := c' } := by
  obtain ⟨-, c1, hr, rfl | ⟨src, x, q, hst, rfl⟩⟩ := picks_of_pickWork hctl.core hp
  · obtain ⟨hf, hcurr, -, -, ht⟩ := hr.core
    exact h.frame (wordKept_of_eq hf hcurr) ht rfl
  · obtain ⟨hf, hcurr, -, -, ht⟩ := hr.core
    by_cases hx : x = .work w
    · subst hx
      have hq : (s.core.flags (.work w)).data = .pwq q := hf ▸ hst.data
      obtain ⟨b, hb⟩ := hst.head
      obtain ⟨q', hq', hfits⟩ := hr.inv.layout.data_of_mem (hb ▸ List.mem_cons_self)
      rw [hst.data] at hq'
      cases hq'
      have hpool : cfg.poolOf q = cfg.workerPool k := hst.source.pool hfits
      refine ⟨fun k' hk' => ?_, fun u => loneAt_of_not_owner (hctl.owning.sole_of_queued hq u)⟩
      by_cases hkk : k' = k
      · subst hkk
        simp [startWork, workFlags, dataPool]
      · -- another worker that executes `w` would have been found by the check for a collision
        obtain ⟨r', hr', hi'⟩ := hk'
        simp only [startWork, Function.update_of_ne hkk] at hr'
        have hold := h.pool k' ⟨r', hcurr ▸ hr', hi'⟩
        rw [hq] at hold
        exact absurd hi' (hst.free k' r' ((Option.some.inj hold).symm.trans hpool) hr')
    · exact h.frame (wordKept_start hr hx) ht rfl

theorem lone_effect (hctl : Ctl cfg s) (hb : Belongs cfg w g s) (h : Lone cfg w s) (he : Effect cfg s s') :
    Lone cfg w s' := by
  cases he with
  | env d e => exact h.frame (wordKept_of_eq rfl rfl) rfl rfl
  | dropBase q hb => exact h.frame (wordKept_of_eq rfl rfl) rfl rfl
  | move hm => exact h.goes rfl (hm.loneAt hctl hb h) (wordKept_of_eq rfl rfl) (fun _ _ => rfl)
  | call hpc => exact h.goes rfl trivial (wordKept_of_eq rfl rfl) (fun _ _ => rfl)
  | begin hpc hp => exact h.goes rfl trivial (wordKept_setFlags rfl rfl rfl (fun _ hd => hd)) (fun _ _ => rfl)
  | modDelayed hpc hm => exact h.goes rfl trivial (wordKept_of_eq rfl rfl) (fun _ _ => rfl)
  | arm hpc => exact h.goes rfl trivial (wordKept_of_eq rfl rfl) (fun _ _ => rfl)
  | armFail hpc => exact h.goes rfl trivial (wordKept_of_eq rfl rfl) (fun _ _ => rfl)
  | fire hpc ht => exact h.goes rfl trivial (wordKept_of_eq rfl rfl) (fun _ _ => rfl)
  | fail hpc => exact h.goes rfl trivial (wordKept_setFlags rfl rfl rfl (fun _ hd => hd)) (fun _ _ => rfl)
  | insert hi hr => exact h.insert hctl hi
  | grabTimer hpc ht => exact h.goes rfl trivial (wordKept_of_eq rfl rfl) (fun _ _ => rfl)
  | grabBit hpc hp =>
    exact h.goes rfl trivial (wordKept_setFlags rfl rfl rfl (fun _ hd => hd)) (fun _ _ => rfl)
  | grabQueued hpc hd hr =>
    exact h.goes rfl trivial (wordKept_grab hctl.core hd)
      (fun u _ => congrFun (grabFrame hctl.core hd).target u)
  | @foreignGet t q v back hpc =>
    have hold := h.pcs t
    rw [hpc] at hold
    refine h.goes rfl ?_ (wordKept_of_eq rfl rfl) (fun _ _ => rfl)
    cases back with
    | grab v m => trivial
    | flush v cancel => exact hold
  | foreignPut hpc => exact h.goes rfl trivial (wordKept_of_eq rfl rfl) (fun _ _ => rfl)
  | @foreignFlush t q v w' cancel hpc =>
    have hold := h.pcs t
    rw [hpc] at hold
    refine h.goes rfl (loneAt_afterFlush fun hcancel hv => ?_) (wordKept_of_eq rfl rfl) (fun _ _ => rfl)
    rw [hold hv] at hcancel
    exact Bool.noConfusion hcancel
  | finish hpc hm =>
    exact h.goes rfl trivial (wordKept_setFlags rfl rfl (dataPool_keepPool cfg _)
      (fun q hd => absurd hd (keepPool_ne cfg _ q))) (fun _ _ => rfl)
  | mark hpc hm =>
    exact h.goes rfl trivial (wordKept_setFlags rfl rfl (dataPool_keepPool cfg _)
      (fun q hd => absurd hd (keepPool_ne cfg _ q))) (fun _ _ => rfl)
  | @behind t v cancel q hpc hd hr =>
    refine h.goes rfl ?_ (wordKept_behind _ _ _) (fun u hu => ?_)
    · cases cancel with
      | true => exact absurd hd ((hctl.owning.own t v (by rw [hpc]; rfl)).1.2 q)
      | false => trivial
    · simp [insertBarrierBehind, startBarrier, insertWork, pwqIncNrInFlight, hu]
  | @front t v cancel k r hpc hk hw hr =>
    refine h.goes rfl ?_ (wordKept_front _ _ _) (fun u hu => ?_)
    · cases cancel with
      | true =>
        rintro rfl k' r' hr' hi'
        have hr0 : s.core.curr k' = some r' := hr'
        have hkk : k' = k := h.unique hctl.core ⟨r', hr0, hi'⟩ ⟨r, hk, hw⟩
        rw [hkk, hk] at hr0
        cases hr0
        simp [insertBarrierFront, startBarrier]
      | false => trivial
    · simp [insertBarrierFront, startBarrier, insertWork, pwqIncNrInFlight, hu]
  | @clear t v hpc =>
    by_cases hv : w = v
    · subst hv
      have hnone := h.pcs t
      rw [hpc] at hnone
      refine lone_of_owner hctl.owning (by rw [hpc]; rfl) rfl trivial fun k hk => ?_
      exact absurd hk (hnone rfl k)
    · refine h.goes rfl trivial (wordKept_of_data ?_ (.refl rfl)) (fun _ _ => rfl)
      simp [Core.setFlags, hv]
  | @wake t v hpc =>
    have hw := wakeFrame_wakeUpOne v s.waitq s
    have h1 : Lone cfg w (wakeUpOne s v s.waitq) := by
      refine ⟨by rw [hw.core]; exact h.pool, fun u => ?_⟩
      rw [hw.core]
      rcases hw.pc u with he | ⟨v', m, -, he⟩
      · rw [he]
        exact h.pcs u
      · rw [he]
        trivial
    exact h1.goes rfl trivial (wordKept_of_eq rfl rfl) (fun _ _ => rfl)
  | waitPrep hpc => exact h.goes rfl trivial (wordKept_of_eq rfl rfl) (fun _ _ => rfl)
  | waitCheck hpc hc => exact h.goes rfl trivial (wordKept_of_eq rfl rfl) (fun _ _ => rfl)
  | finishWait hpc => exact h.goes rfl trivial (wordKept_of_eq rfl rfl) (fun _ _ => rfl)
  | pick hp => exact h.pick hctl hp
  | complete hk hi hcl => exact h.frame (wordKept_of_data rfl (noNewRun_called hk w)) rfl rfl
  | @workDone k r hk hcl =>
    exact h.frame (wordKept_finish _ _)
      (decFrame_pwqDecNrInFlight cfg (s.core.stopped k r.ticket) r.pwq r.barrier).target rfl

end Steps

/-! ## Whole runs -/

structure SoleInv (cfg : WqConfig P Q G K) (w : W) (g : G) (s : WqState P Q G W K T) : Prop where
  ctl : Ctl cfg s
  belongs : Belongs cfg w g s
  lone : Lone cfg w s

section Runs
variable {cfg : WqConfig P Q G K} {w : W} {g : G}

theorem soleInv_init (cfg : WqConfig P Q G K) (w : W) (g : G) :
    SoleInv cfg w g (wqInit : WqState P Q G W K T) where
  ctl := ctl_init cfg
  belongs :=
    { queueing := fun t g' n ht => nomatch ht
      choice := fun t q ht => nomatch ht
      timer := fun g' n ht => nomatch ht
      queued := fun q hq => nomatch hq
      running := fun k r hk => nomatch hk }
  lone :=
    { pool := fun k hk => by
        obtain ⟨r, hr, -⟩ := hk
        exact nomatch hr
      pcs := fun t => trivial }

variable [DecidableEq T] [DecidableEq P] [DecidableEq Q] [DecidableEq G] [DecidableEq W] [DecidableEq K]

theorem soleInv_step {s s' : WqState P Q G W K T} {a : WqAct Q G W K T} (h : SoleInv cfg w g s)
    (ha : OnlyOn w g s a)
    (hs : wqStep cfg s a = some s') : SoleInv cfg w g s' where
  ctl := ctl_effect h.ctl (wqStep_effect hs)
  belongs := belongs_effect h.ctl h.belongs (queueing_step h.belongs ha hs) (wqStep_effect hs)
  lone := lone_effect h.ctl h.belongs h.lone (wqStep_effect hs)

theorem soleInv_run {as : List (WqAct Q G W K T)} {s : WqState P Q G W K T}
    (honly : RunMeets (wqStep cfg) (OnlyOn w g) wqInit as) (hr : runActs (wqStep cfg) wqInit as = some s) :
    SoleInv cfg w g s :=
  run_invariant (fun _ _ _ h ha hs => soleInv_step h ha hs) as wqInit s (soleInv_init cfg w g) honly hr

/-- A work that is queued on one workqueue only is on at most one list or in the timer, its function
is called at most once for every queueing, and at most one worker of all pools executes it. -/
theorem work_ok (cfg : WqConfig P Q G K) (w : W) (g : G) (as : List (WqAct Q G W K T))
    (s : WqState P Q G W K T)
    (honly : RunMeets (wqStep cfg) (OnlyOn w g) wqInit as) (hr : runActs (wqStep cfg) wqInit as = some s) :
    (∀ pl pl', Item.work w ∈ s.core.lists pl → Item.work w ∈ s.core.lists pl' → pl = pl') ∧
      (∀ pl, (s.core.lists pl).count (.work w) ≤ 1) ∧
        (∀ pl, Item.work w ∈ s.core.lists pl → s.timer w = none) ∧
      (∀ n, s.core.calls n ≤ 1) ∧ ∀ k k', RunsOn s.core k w → RunsOn s.core k' w → k = k' := by
  have h := soleInv_run honly hr
  refine ⟨(h.ctl.core.layout.situated _).unique, ?_, ?_, h.ctl.core.staged.calls_le, ?_⟩
  · exact fun pl => List.nodup_iff_count_le_one.mp (h.ctl.core.layout.nodup pl) _
  · intro pl hpl
    obtain ⟨q, hq, -⟩ := h.ctl.core.layout.data_of_mem hpl
    exact h.ctl.owning.timer_of_queued hq
  · exact fun k k' hk hk' => h.lone.unique h.ctl.core hk hk'

/-- The work is queued again, for the other pool, while a worker executes it. -/
def requeueElsewhere : List (WqAct Bool Unit Unit Bool Unit) :=
  [.queue (.queueWork () () ()), .queue (.select () false false), .queue (.lockLast ()),
    .queue (.switchLock ()),
   .worker (.pick false), .queue (.queueWork () () ()), .queue (.select () true false), .queue (.lockLast ())]

theorem work_ok_requeueElsewhere :
    ∃ s, runActs (wqStep twoPools) wqInit requeueElsewhere = some s ∧
      s.core.lists (.delayed false) = [.work ()] ∧
      RunsOn s.core false () ∧ ∀ k, RunsOn s.core k () → k = false := by
  have honly : RunMeets (wqStep twoPools) (OnlyOn () ()) wqInit requeueElsewhere := by
    refine .cons rfl (fun _ => rfl)
      (.cons rfl trivial (.cons rfl trivial (.cons rfl trivial (.cons rfl trivial
      (.cons rfl (fun _ => rfl) (.cons rfl trivial (.cons rfl trivial trivial)))))))
  refine ⟨_, rfl, rfl, ⟨_, rfl, rfl⟩, fun k hk => ?_⟩
  exact (work_ok twoPools () () requeueElsewhere _ honly rfl).2.2.2.2 k false hk ⟨_, rfl, rfl⟩

end Runs

end Skp.Workqueue
