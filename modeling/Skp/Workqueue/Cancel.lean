import Skp.Workqueue.Alone

/-! # The return of `__cancel_work_sync`

From `clear_work_data` to its return a canceller no longer holds PENDING. As long as nobody begins a queueing
in that time, the work stays off the lists and the timer, and nobody starts to execute it. -/
namespace Skp.Workqueue
set_option autoImplicit false
open Skp.Foundations

variable {P Q G W K T : Type}

/-- Nothing of the work is queued or being queued. -/
structure Calm (w : W) (s : WqState P Q G W K T) : Prop where
  data : ∀ q, (s.core.flags (.work w)).data ≠ .pwq q
  timer : s.timer w = none
  held : ∀ u n, (s.pc u).held ≠ some (w, n)

/-- The canceller `t` has cleared the word of `w`, nobody has begun a queueing since, and it has not
returned. -/
def Leaving (w : W) (s : WqState P Q G W K T) (t : T) : Prop := s.pc t = .waking w ∧ s.requeued t = false

/-- What a step does to a calm work: it stays calm, or every canceller that is leaving learns of a
new queueing; and nobody starts to execute it. -/
def CalmStep (w : W) (s s' : WqState P Q G W K T) : Prop :=
  (Calm w s' ∨ ∀ u, s.pc u = .waking w → s'.requeued u = true) ∧ NoNewRun s.core s'.core w

section Calm
variable {w : W} {s s' : WqState P Q G W K T}

theorem Calm.kept (cfg : WqConfig P Q G K) (h : Calm w s) (hw : WordKept cfg s.core s'.core w)
    (htimer : s'.timer = s.timer) (hpc : s'.pc = s.pc) : CalmStep w s s' := by
  refine ⟨Or.inl ⟨fun q hq => h.data q (hw.queued q hq), htimer ▸ h.timer, fun u n hu => ?_⟩, hw.run⟩
  rw [hpc] at hu
  exact h.held u n hu

variable [DecidableEq T]

theorem Calm.goes (cfg : WqConfig P Q G K) (h : Calm w s) {t : T} {p : Pc P Q G W}
    (hpc : s'.pc = Function.update s.pc t p) (hp : ∀ n, p.held = some (w, n) → (s.pc t).held = some (w, n))
    (htimer : s'.timer w = none) (hw : WordKept cfg s.core s'.core w) : CalmStep w s s' := by
  refine ⟨Or.inl ⟨fun q hq => h.data q (hw.queued q hq), htimer, fun u n hu => ?_⟩, hw.run⟩
  rw [hpc] at hu
  by_cases ht : u = t
  · subst ht
    rw [Function.update_self] at hu
    exact h.held u n (hp n hu)
  · rw [Function.update_of_ne ht] at hu
    exact h.held u n hu

variable [DecidableEq P] [DecidableEq Q] [DecidableEq G] [DecidableEq W]

theorem Calm.begin (cfg : WqConfig P Q G K) (h : Calm w s) {t : T} {v : W} {g : G} {n : ℕ}
    (hpc : s'.pc = Function.update s.pc t (.queueing v g n)) (htimer : s'.timer = s.timer)
    (hreq : s'.requeued = fun u => s.requeued u || decide (s.pc u = .waking v))
    (hw : WordKept cfg s.core s'.core w) : CalmStep w s s' := by
  by_cases hv : v = w
  · subst hv
    exact ⟨Or.inr fun u hu => by simp [hreq, hu], hw.run⟩
  · refine h.goes cfg hpc (fun m hm => ?_) (htimer ▸ h.timer) hw
    cases hm
    exact absurd rfl hv

omit [DecidableEq P] [DecidableEq Q] [DecidableEq G] [DecidableEq T] in
theorem timer_none_update (h : s.timer w = none) (v : W) : Function.update s.timer v none w = none := by
  by_cases hv : w = v
  · rw [hv, Function.update_self]
  · rwa [Function.update_of_ne hv]

variable [DecidableEq K]

omit [DecidableEq G] in
theorem Calm.pick {cfg : WqConfig P Q G K} (h : Calm w s) (hc : CoreInv cfg s.core) {k : K}
    {c' : Core P Q G W K T}
    (hp : pickWork cfg s.core k = some c') : WordKept cfg s.core c' w := by
  obtain ⟨-, c1, hr, rfl | ⟨src, x, q, hst, rfl⟩⟩ := picks_of_pickWork hc hp
  · obtain ⟨hf, hcurr, -⟩ := hr.core
    exact wordKept_of_eq hf hcurr
  · obtain ⟨hf, -⟩ := hr.core
    refine wordKept_start hr ?_
    rintro rfl
    exact h.data q (hf ▸ hst.data)

theorem calm_effect {cfg : WqConfig P Q G K} (hctl : Ctl cfg s) (h : Calm w s) (he : Effect cfg s s') :
    CalmStep w s s' := by
  cases he with
  | env d e => exact h.kept cfg (wordKept_of_eq rfl rfl) rfl rfl
  | dropBase q hb => exact h.kept cfg (wordKept_of_eq rfl rfl) rfl rfl
  | move hm => exact h.goes cfg rfl (fun n hn => hm.held hn) h.timer (wordKept_of_eq rfl rfl)
  | call hpc => exact h.goes cfg rfl (fun n hn => by cases hn) h.timer (wordKept_of_eq rfl rfl)
  | begin hpc hp => exact h.begin cfg rfl rfl rfl (wordKept_setFlags rfl rfl rfl (fun _ hd => hd))
  | modDelayed hpc hm => exact h.begin cfg rfl rfl rfl (wordKept_of_eq rfl rfl)
  | @arm t v g n hpc =>
    -- a thread that arms the timer of `w` would hold a queueing of it
    have hv : w ≠ v := by
      rintro rfl
      exact h.held t n (by rw [hpc]; rfl)
    refine h.goes cfg rfl (fun n hn => by cases hn) ?_ (wordKept_of_eq rfl rfl)
    simp only [Function.update_of_ne hv]
    exact h.timer
  | armFail hpc => exact h.goes cfg rfl (fun n hn => by cases hn) h.timer (wordKept_of_eq rfl rfl)
  | @fire t v g n hpc ht =>
    refine h.goes cfg rfl (fun m hm => ?_) (timer_none_update h.timer v) (wordKept_of_eq rfl rfl)
    cases hm
    rw [h.timer] at ht
    cases ht
  | fail hpc =>
    exact h.goes cfg rfl (fun n hn => by cases hn) h.timer
      (wordKept_setFlags rfl rfl rfl (fun _ hd => hd))
  | @insert t v q n hi hr =>
    have hv : w ≠ v := by
      rintro rfl
      exact h.held t n hi.held
    exact h.goes cfg rfl (fun n hn => by cases hn) h.timer (wordKept_insert hv q n)
  | @grabTimer t v m g n hpc ht =>
    exact h.goes cfg rfl (fun m hm => by cases hm) (timer_none_update h.timer v) (wordKept_of_eq rfl rfl)
  | grabBit hpc hp =>
    exact h.goes cfg rfl (fun n hn => by cases hn) h.timer
      (wordKept_setFlags rfl rfl rfl (fun _ hd => hd))
  | grabQueued hpc hd hr =>
    exact h.goes cfg rfl (fun n hn => by cases hn) h.timer (wordKept_grab hctl.core hd)
  | foreignGet hpc => exact h.goes cfg rfl (fun n hn => by cases hn) h.timer (wordKept_of_eq rfl rfl)
  | foreignPut hpc => exact h.goes cfg rfl (fun n hn => by cases hn) h.timer (wordKept_of_eq rfl rfl)
  | foreignFlush hpc =>
    refine h.goes cfg rfl (fun n hn => ?_) h.timer (wordKept_of_eq rfl rfl)
    rw [held_afterFlush] at hn
    cases hn
  | finish hpc hm =>
    exact h.goes cfg rfl (fun n hn => by cases hn) h.timer
      (wordKept_setFlags rfl rfl (dataPool_keepPool cfg _)
      (fun q hd => absurd hd (keepPool_ne cfg _ q)))
  | mark hpc hm =>
    exact h.goes cfg rfl (fun n hn => by cases hn) h.timer
      (wordKept_setFlags rfl rfl (dataPool_keepPool cfg _)
      (fun q hd => absurd hd (keepPool_ne cfg _ q)))
  | behind hpc hd hr => exact h.goes cfg rfl (fun n hn => by cases hn) h.timer (wordKept_behind _ _ _)
  | front hpc hk hw hr => exact h.goes cfg rfl (fun n hn => by cases hn) h.timer (wordKept_front _ _ _)
  | @clear t v hpc =>
    refine ⟨Or.inl ⟨fun q hq => ?_, h.timer, fun u n hu => ?_⟩, .refl rfl⟩
    · by_cases hv : w = v
      · subst hv
        simp [Core.setFlags, workFlags] at hq
      · simp only [Core.setFlags, Function.update_of_ne (show Item.work w ≠ .work v by simpa using hv)] at hq
        exact h.data q hq
    · by_cases ht : u = t
      · simp [ht, Pc.held] at hu
      · simp only [Function.update_of_ne ht] at hu
        exact h.held u n hu
  | @wake t v hpc =>
    have hw := wakeFrame_wakeUpOne v s.waitq s
    have hcore : ((wakeUpOne s v s.waitq).setPc t .idle).core = s.core := hw.core
    have htimer : ((wakeUpOne s v s.waitq).setPc t .idle).timer = s.timer := hw.timer
    refine ⟨Or.inl ⟨by rw [hcore]; exact h.data, by rw [htimer]; exact h.timer, fun u n hu => ?_⟩,
      .refl (by rw [hcore])⟩
    by_cases ht : u = t
    · simp [ht, WqState.setPc, Pc.held] at hu
    · simp only [WqState.setPc, Function.update_of_ne ht] at hu
      rw [hw.held u] at hu
      exact h.held u n hu
  | waitPrep hpc => exact h.goes cfg rfl (fun n hn => by cases hn) h.timer (wordKept_of_eq rfl rfl)
  | waitCheck hpc hc => exact h.goes cfg rfl (fun n hn => by cases hn) h.timer (wordKept_of_eq rfl rfl)
  | finishWait hpc => exact h.goes cfg rfl (fun n hn => by cases hn) h.timer (wordKept_of_eq rfl rfl)
  | pick hp => exact h.kept cfg (h.pick hctl.core hp) rfl rfl
  | complete hk hi hcl => exact h.kept cfg (wordKept_of_data rfl (noNewRun_called hk w)) rfl rfl
  | workDone hk hcl => exact h.kept cfg (wordKept_finish _ _) rfl rfl

end Calm

/-! ## Cancellers that leave -/

section Leaving
variable {cfg : WqConfig P Q G K} {w : W} {g : G} {s s' : WqState P Q G W K T} {t : T}

def Pc.isWaking : Pc P Q G W → Bool
  | .waking _ => true
  | _ => false

theorem isWaking_afterFlush (w : W) (cancel : Bool) :
    (afterFlush w cancel : Pc P Q G W).isWaking = false := by
  cases cancel with
  | true => rfl
  | false => rfl

variable [DecidableEq P] [DecidableEq G] [DecidableEq W] [DecidableEq T]

theorem LocalMove.isWaking {p : Pc P Q G W} (h : LocalMove cfg s t p) : p.isWaking = false := by
  cases h with
  | flushNone | flushGone | barrierDone => exact isWaking_afterFlush _ _
  | select | switch | grabMiss | grabPending | grabRead | grabReadFail | grabLockFail | grabForeign | grabWait
  | grabGiveUp | grabAgain | foreignLoad | flush | flushRead | flushForeign | waitOver | waitSleep
  | waitSignalled
  | interrupt | sleepAgain => rfl

/-- The canceller `t` makes its `clear_work_data`. -/
structure Clears (w : W) (s s' : WqState P Q G W K T) (t : T) : Prop where
  pc : s.pc t = .flushed w
  core : s'.core = s.core.setFlags w (workFlags .none false false)
  timer : s'.timer = s.timer
  next : s'.pc = Function.update s.pc t (.waking w)

omit [DecidableEq P] [DecidableEq G] [DecidableEq W] in
theorem Leaving.before (hl : Leaving w s' t) {u : T} {p : Pc P Q G W} (hpc : s'.pc = Function.update s.pc u p)
    (hp : p.isWaking = false) (hreq : t ≠ u → s'.requeued t = false → s.requeued t = false) :
    Leaving w s t := by
  obtain ⟨h1, h2⟩ := hl
  rw [hpc] at h1
  by_cases ht : t = u
  · rw [ht, Function.update_self] at h1
    rw [h1] at hp
    exact Bool.noConfusion hp
  · rw [Function.update_of_ne ht] at h1
    exact ⟨h1, hreq ht h2⟩

variable [DecidableEq Q] [DecidableEq K]

theorem leaving_effect (he : Effect cfg s s') (hl : Leaving w s' t) : Leaving w s t ∨ Clears w s s' t := by
  cases he with
  | env d e => exact Or.inl hl
  | dropBase q hb => exact Or.inl hl
  | move hm => exact Or.inl (hl.before rfl hm.isWaking (fun _ h => h))
  | begin hpc hp => exact Or.inl (hl.before rfl rfl (fun _ h => (Bool.or_eq_false_iff.mp h).1))
  | modDelayed hpc hm => exact Or.inl (hl.before rfl rfl (fun _ h => (Bool.or_eq_false_iff.mp h).1))
  | foreignFlush hpc => exact Or.inl (hl.before rfl (isWaking_afterFlush _ _) (fun _ h => h))
  | @mark u v m hpc hm =>
    refine Or.inl (hl.before rfl rfl (fun hne h => ?_))
    simpa only [Function.update_of_ne hne] using h
  | @clear u v hpc =>
    by_cases ht : t = u
    · subst ht
      have h1 := hl.1
      simp only [Function.update_self, Pc.waking.injEq] at h1
      subst h1
      exact Or.inr ⟨hpc, rfl, rfl, rfl⟩
    · refine Or.inl ⟨?_, hl.2⟩
      have h1 := hl.1
      simpa only [Function.update_of_ne ht] using h1
  | @wake u v hpc =>
    have hw := wakeFrame_wakeUpOne v s.waitq s
    have h1 : Leaving w (wakeUpOne s v s.waitq) t := hl.before rfl rfl (fun _ h => h)
    refine Or.inl ⟨?_, hw.requeued ▸ h1.2⟩
    rcases hw.pc t with he | ⟨v', m, -, he⟩
    · rw [← he]
      exact h1.1
    · have h2 := h1.1
      rw [he] at h2
      cases h2
  | call | arm | armFail | fire | fail | insert | grabTimer | grabBit | grabQueued | foreignGet
  | foreignPut | finish
  | behind | front | waitPrep | waitCheck | finishWait => exact Or.inl (hl.before rfl rfl (fun _ h => h))
  | pick hp => exact Or.inl hl
  | complete hk hi hcl => exact Or.inl hl
  | workDone hk hcl => exact Or.inl hl

/-- A leaving canceller leaves the work calm. -/
def LeavesCalm (s : WqState P Q G W K T) : Prop := ∀ w t, Leaving w s t → Calm w s

/-- When a canceller leaves, nobody executes `w`. -/
def LeavesUnrun (w : W) (s : WqState P Q G W K T) : Prop := ∀ t, Leaving w s t → ∀ k, ¬ RunsOn s.core k w

omit [DecidableEq P] [DecidableEq Q] [DecidableEq G] [DecidableEq K] in
theorem Clears.calm (hctl : Ctl cfg s) (h : Clears w s s' t) : Calm w s' := by
  have hown : (s.pc t).owns = some w := by
    rw [h.pc]
    rfl
  refine ⟨fun q hq => ?_, ?_, fun u n hu => ?_⟩
  · simp [h.core, Core.setFlags, workFlags] at hq
  · rw [h.timer]
    exact (hctl.owning.own t w hown).2
  · rw [h.next] at hu
    by_cases ht : u = t
    · rw [ht, Function.update_self] at hu
      cases hu
    · rw [Function.update_of_ne ht] at hu
      exact hctl.owning.sole_of_owner hown u ht (Pc.owns_of_held hu)

theorem leavesCalm_effect (hctl : Ctl cfg s) (h : LeavesCalm s) (he : Effect cfg s s') : LeavesCalm s' := by
  intro w t hl
  rcases leaving_effect he hl with hold | hclear
  · rcases (calm_effect hctl (h w t hold) he).1 with hcalm | hreq
    · exact hcalm
    · have h2 := hreq t hold.1
      rw [hl.2] at h2
      exact Bool.noConfusion h2
  · exact hclear.calm hctl

theorem leavesUnrun_effect (hinv : SoleInv cfg w g s) (hcalm : LeavesCalm s) (h : LeavesUnrun w s)
    (he : Effect cfg s s') : LeavesUnrun w s' := by
  intro t hl k hk
  rcases leaving_effect he hl with hold | hclear
  · exact h t hold k ((calm_effect hinv.ctl (hcalm w t hold) he).2.runsOn hk)
  · have hlone := hinv.lone.pcs t
    rw [hclear.pc] at hlone
    rw [hclear.core] at hk
    exact hlone rfl k hk

end Leaving

end Skp.Workqueue
