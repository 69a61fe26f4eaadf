import Skp.Workqueue.Calls
import Skp.Workqueue.Removal

/-! # What a step can do

Every step of `Calls` is one of the effects listed here, with the condition under which the code takes it.
Invariants are proved effect by effect; the many steps that only move one thread are `LocalMove`. -/
namespace Skp.Workqueue
set_option autoImplicit false
open Skp.Foundations

variable {P Q G W K T : Type} [DecidableEq P] [DecidableEq Q] [DecidableEq G] [DecidableEq W] [DecidableEq K]
  [DecidableEq T]

/-- The thread `t` goes on at `p` and nothing else changes. -/
inductive LocalMove (cfg : WqConfig P Q G K) (s : WqState P Q G W K T) (t : T) : Pc P Q G W → Prop where
  | select {w : W} {g : G} {n : ℕ} {q : Q} (hpc : s.pc t = .queueing w g n) (hq : cfg.wqOf q = g) :
      LocalMove cfg s t (.selected w q n)
  | switch {w : W} {q : Q} {n : ℕ} (hpc : s.pc t = .selected w q n)
      (hlast : ∀ p, dataPool cfg (s.core.flags (.work w)).data = some p →
        p ≠ cfg.poolOf q ∧ executingPwq cfg s.core p w (cfg.wqOf q) = none) :
      LocalMove cfg s t (.switching w q n)
  | grabMiss {w : W} {m : CancelMode} (hpc : s.pc t = .grab w m) : LocalMove cfg s t (.grabBit w m)
  | grabPending {w : W} {m : CancelMode} (hpc : s.pc t = .grabBit w m) : LocalMove cfg s t (.grabRead w m)
  | grabRead {w : W} {m : CancelMode} {p : P} (hpc : s.pc t = .grabRead w m) :
      LocalMove cfg s t (.grabLock w m p)
  | grabReadFail {w : W} {m : CancelMode} (hpc : s.pc t = .grabRead w m) : LocalMove cfg s t (.grabFail w m)
  | grabLockFail {w : W} {m : CancelMode} {p : P} (hpc : s.pc t = .grabLock w m p) :
      LocalMove cfg s t (.grabFail w m)
  | grabForeign {w : W} {m : CancelMode} {p : P} {q : Q} (hpc : s.pc t = .grabLock w m p)
      (hq : (s.core.flags (.work w)).data = .pwq q) (hp : cfg.poolOf q ≠ p) :
      LocalMove cfg s t (.foreign q .getLoad (.grab w m))
  | grabWait {w : W} {m : CancelMode} (hpc : s.pc t = .grabFail w m) (hm : m.sync = true) :
      LocalMove cfg s t (.waitPrep w m)
  | grabGiveUp {w : W} {m : CancelMode} (hpc : s.pc t = .grabFail w m) (hm : m.sync = false) :
      LocalMove cfg s t .idle
  | grabAgain {w : W} {m : CancelMode} (hpc : s.pc t = .grabFail w m) : LocalMove cfg s t (.grab w m)
  | foreignLoad {q : Q} {f f' : ForeignStep} {back : Resume W} (hpc : s.pc t = .foreign q f back) :
      LocalMove cfg s t (.foreign q f' back)
  | flush {w : W} (hpc : s.pc t = .idle) : LocalMove cfg s t (.flushRead w false)
  | flushNone {w : W} {cancel : Bool} (hpc : s.pc t = .flushRead w cancel)
      (hd : dataPool cfg (s.core.flags (.work w)).data = none) : LocalMove cfg s t (afterFlush w cancel)
  | flushRead {w : W} {cancel : Bool} {p : P} (hpc : s.pc t = .flushRead w cancel)
      (hd : dataPool cfg (s.core.flags (.work w)).data = some p) : LocalMove cfg s t (.flushLock w cancel p)
  | flushGone {w : W} {cancel : Bool} {p : P} (hpc : s.pc t = .flushLock w cancel p)
      (hf : findWorkerExecutingWork cfg s.core p (.work w) = none) : LocalMove cfg s t (afterFlush w cancel)
  | flushForeign {w : W} {cancel : Bool} {p : P} {q : Q} (hpc : s.pc t = .flushLock w cancel p)
      (hq : (s.core.flags (.work w)).data = .pwq q) (hp : cfg.poolOf q ≠ p) :
      LocalMove cfg s t (.foreign q .getLoad (.flush w cancel))
  | barrierDone {w : W} {cancel : Bool} (hpc : s.pc t = .flushWait w cancel) (hd : s.done t = true) :
      LocalMove cfg s t (afterFlush w cancel)
  | waitOver {w : W} {m : CancelMode} (hpc : s.pc t = .waitCheck w m)
      (hc : workIsCanceling (s.core.flags (.work w)) = false) : LocalMove cfg s t (.waitDone w m)
  | waitSleep {w : W} {m : CancelMode} (hpc : s.pc t = .waitSleep w m) (hc : s.cond t % 2 ^ 16 = 0) :
      LocalMove cfg s t (.asleep w m)
  | waitSignalled {w : W} {m : CancelMode} (hpc : s.pc t = .waitSleep w m) (hc : s.cond t % 2 ^ 16 ≠ 0) :
      LocalMove cfg s t (.waitDone w m)
  | interrupt {w : W} {m : CancelMode} (hpc : s.pc t = .asleep w m) : LocalMove cfg s t (.waitDone w m)
  | sleepAgain {w : W} {m : CancelMode} (hpc : s.pc t = .asleep w m) : LocalMove cfg s t (.waitSleep w m)

/-- The thread that holds PENDING of a work for a queueing, with its ticket. -/
def Pc.held : Pc P Q G W → Option (W × ℕ)
  | .queueing w _ n => some (w, n)
  | .selected w _ n => some (w, n)
  | .switching w _ n => some (w, n)
  | _ => none

/-- A thread in `__queue_work` may put the work on a list of `q`. -/
inductive Inserts (cfg : WqConfig P Q G K) (s : WqState P Q G W K T) (t : T) (w : W) (q : Q)
    (n : ℕ) : Prop where
  | last (hpc : s.pc t = .selected w q n)
      (hd : dataPool cfg (s.core.flags (.work w)).data = some (cfg.poolOf q))
  | executing {q' : Q} {p : P} (hpc : s.pc t = .selected w q' n)
      (hd : dataPool cfg (s.core.flags (.work w)).data = some p)
      (he : executingPwq cfg s.core p w (cfg.wqOf q') = some q)
  | switched (hpc : s.pc t = .switching w q n)

/-- All effects of a step. -/
inductive Effect (cfg : WqConfig P Q G K) (s : WqState P Q G W K T) : WqState P Q G W K T → Prop where
  | env (d e : G → Bool) : Effect cfg s { s with draining := d, destroying := e }
  | dropBase (q : Q) (hb : s.core.baseRef q = 1) : Effect cfg s { s with core := { s.core with
      baseRef := Function.update s.core.baseRef q 0
      refcnt := Function.update s.core.refcnt q (s.core.refcnt q - 1) } }
  | move {t : T} {p : Pc P Q G W} (h : LocalMove cfg s t p) : Effect cfg s (s.setPc t p)
  | call {t : T} {w : W} {m : CancelMode} (hpc : s.pc t = .idle) : Effect cfg s { s with
      pc := Function.update s.pc t (.grab w m), woken := Function.update s.woken t false }
  | begin {t : T} {w : W} {g : G} (hpc : s.pc t = .idle) (hp : (s.core.flags (.work w)).pending = false) :
      Effect cfg s (beginQueueing { s with
        core := s.core.setFlags w { s.core.flags (.work w) with pending := true } } t w g)
  | modDelayed {t : T} {w : W} {m : CancelMode} {g : G} (hpc : s.pc t = .grabbed w m) (hm : m.sync = false) :
      Effect cfg s (beginQueueing s t w g)
  | arm {t : T} {w : W} {g : G} {n : ℕ} (hpc : s.pc t = .queueing w g n) : Effect cfg s { s with
      core := s.core.setStage n (.timer w)
      timer := Function.update s.timer w (some (g, n))
      pc := Function.update s.pc t .idle }
  | armFail {t : T} {w : W} {g : G} {n : ℕ} (hpc : s.pc t = .queueing w g n) : Effect cfg s { s with
      core := s.core.setStage n .cancelled, pc := Function.update s.pc t .idle }
  | fire {t : T} {w : W} {g : G} {n : ℕ} (hpc : s.pc t = .idle) (ht : s.timer w = some (g, n)) :
      Effect cfg s { s with
      core := s.core.setStage n (.held t)
      timer := Function.update s.timer w none
      pc := Function.update s.pc t (.queueing w g n) }
  | fail {t : T} {w : W} {n : ℕ} (hpc : (s.pc t).held = some (w, n)) : Effect cfg s (queueFail s t w n)
  | insert {t : T} {w : W} {q : Q} {n : ℕ} (h : Inserts cfg s t w q n) (hr : s.core.refcnt q ≠ 0) :
      Effect cfg s { s with
      core := queueInsert cfg s.core q w n, pc := Function.update s.pc t .idle }
  | grabTimer {t : T} {w : W} {m : CancelMode} {g : G} {n : ℕ} (hpc : s.pc t = .grab w m)
      (ht : s.timer w = some (g, n)) : Effect cfg s { s with
        core := s.core.setStage n .cancelled
        timer := Function.update s.timer w none
        pc := Function.update s.pc t (.grabbed w m) }
  | grabBit {t : T} {w : W} {m : CancelMode} (hpc : s.pc t = .grabBit w m)
      (hp : (s.core.flags (.work w)).pending = false) : Effect cfg s { s with
        core := s.core.setFlags w { s.core.flags (.work w) with pending := true }
        pc := Function.update s.pc t (.grabbed w m) }
  | grabQueued {t : T} {w : W} {m : CancelMode} {q : Q} (hpc : s.pc t = .grabLock w m (cfg.poolOf q))
      (hq : (s.core.flags (.work w)).data = .pwq q) (hr : 1 ≤ s.core.refcnt q) : Effect cfg s { s with
        core := grabQueued cfg s.core q w, pc := Function.update s.pc t (.grabbed w m) }
  | foreignGet {t : T} {q : Q} {v : ℤ} {back : Resume W} (hpc : s.pc t = .foreign q (.getStore v) back) :
      Effect cfg s { s with
        core := { s.core with refcnt := Function.update s.core.refcnt q (v + 1) }
        pc := Function.update s.pc t (.foreign q .putLoad back) }
  | foreignPut {t : T} {q : Q} {v : ℤ} {w : W} {m : CancelMode}
      (hpc : s.pc t = .foreign q (.putStore v) (.grab w m)) :
      Effect cfg s { s with
        core := { s.core with refcnt := Function.update s.core.refcnt q (v - 1) }
        pc := Function.update s.pc t (.grabFail w m) }
  | foreignFlush {t : T} {q : Q} {v : ℤ} {w : W} {cancel : Bool}
      (hpc : s.pc t = .foreign q (.putStore v) (.flush w cancel)) : Effect cfg s { s with
        core := { s.core with refcnt := Function.update s.core.refcnt q (v - 1) }
        pc := Function.update s.pc t (afterFlush w cancel) }
  | finish {t : T} {w : W} {m : CancelMode} (hpc : s.pc t = .grabbed w m) (hm : m.sync = false) :
      Effect cfg s { s with
      core := s.core.setFlags w (workFlags (keepPool cfg (s.core.flags (.work w)).data) false false)
      pc := Function.update s.pc t .idle }
  | mark {t : T} {w : W} {m : CancelMode} (hpc : s.pc t = .grabbed w m) (hm : m.sync = true) :
      Effect cfg s { s with
      core := s.core.setFlags w (workFlags (keepPool cfg (s.core.flags (.work w)).data) true true)
      pc := Function.update s.pc t (.flushRead w true)
      woken := Function.update s.woken t false
      requeued := Function.update s.requeued t false }
  | behind {t : T} {w : W} {cancel : Bool} {q : Q} (hpc : s.pc t = .flushLock w cancel (cfg.poolOf q))
      (hq : (s.core.flags (.work w)).data = .pwq q) (hr : 1 ≤ s.core.refcnt q) : Effect cfg s { s with
        core := insertBarrierBehind cfg s.core q w t
        pc := Function.update s.pc t (.flushWait w cancel)
        done := Function.update s.done t false }
  | front {t : T} {w : W} {cancel : Bool} {k : K} {r : Running Q W T}
      (hpc : s.pc t = .flushLock w cancel (cfg.workerPool k)) (hk : s.core.curr k = some r)
        (hw : r.item = .work w)
      (hr : 1 ≤ s.core.refcnt r.pwq) : Effect cfg s { s with
        core := insertBarrierFront cfg s.core k r t
        pc := Function.update s.pc t (.flushWait w cancel)
        done := Function.update s.done t false }
  | clear {t : T} {w : W} (hpc : s.pc t = .flushed w) : Effect cfg s { s with
      core := s.core.setFlags w (workFlags .none false false), pc := Function.update s.pc t (.waking w) }
  | wake {t : T} {w : W} (hpc : s.pc t = .waking w) : Effect cfg s ((wakeUpOne s w s.waitq).setPc t .idle)
  | waitPrep {t : T} {w : W} {m : CancelMode} (hpc : s.pc t = .waitPrep w m) : Effect cfg s { s with
      waitq := s.waitq ++ [t]
      cond := Function.update s.cond t 0
      pc := Function.update s.pc t (.waitCheck w m) }
  | waitCheck {t : T} {w : W} {m : CancelMode} (hpc : s.pc t = .waitCheck w m)
      (hc : workIsCanceling (s.core.flags (.work w)) = true) : Effect cfg s { s with
        pc := Function.update s.pc t (.waitSleep w m), woken := Function.update s.woken t false }
  | finishWait {t : T} {w : W} {m : CancelMode} (hpc : s.pc t = .waitDone w m) : Effect cfg s { s with
      waitq := s.waitq.erase t, pc := Function.update s.pc t (.grab w m) }
  | pick {k : K} {c : Core P Q G W K T} (h : pickWork cfg s.core k = some c) :
      Effect cfg s { s with core := c }
  | complete {k : K} {r : Running Q W T} {t : T} (hk : s.core.curr k = some r) (hi : r.item = .barrier t)
      (hc : r.called = false) : Effect cfg s { s with
        core := { s.core with curr := Function.update s.core.curr k (some { r with called := true }) }
        done := Function.update s.done t true }
  | workDone {k : K} {r : Running Q W T} (hk : s.core.curr k = some r)
      (hc : r.item.isBarrier = true → r.called = true) :
      Effect cfg s { s with core := finishWork cfg s.core k r }

section Inversion
variable {cfg : WqConfig P Q G K} {s s' : WqState P Q G W K T}

theorem effect_queueLocked {t : T} {w : W} {q : Q} {n : ℕ} (h : Inserts cfg s t w q n) :
    Effect cfg s (queueLocked cfg s t w q n) := by
  have hheld : (s.pc t).held = some (w, n) := by
    cases h with
    | last hpc _ => rw [hpc]; rfl
    | executing hpc _ _ => rw [hpc]; rfl
    | switched hpc => rw [hpc]; rfl
  unfold queueLocked
  split
  · exact .fail hheld
  · rename_i hr
    exact .insert h fun h0 => hr (Or.inl h0)

theorem effect_queueStep {a : QueueAct Q G W T} (h : queueStep cfg s a = some s') : Effect cfg s s' := by
  cases a with
  | queueWork t w g =>
    simp only [queueStep] at h
    split at h
    · rename_i hpc
      split at h
      · cases h
        exact .env s.draining s.destroying
      · rename_i hp
        cases h
        exact .begin hpc (Bool.eq_false_iff.mpr hp)
    · cases h
  | armTimer t ok =>
    simp only [queueStep] at h
    split at h
    · rename_i w g n hpc
      split at h
      · cases h
        exact .arm hpc
      · cases h
        exact .armFail hpc
    · cases h
  | fire t w =>
    simp only [queueStep] at h
    split at h
    · rename_i hpc
      split at h
      · rename_i g n ht
        cases h
        exact .fire hpc ht
      · cases h
    · cases h
  | select t q chained =>
    simp only [queueStep] at h
    split at h
    · rename_i w g n hpc
      split at h
      · rename_i hq
        split at h
        · cases h
          exact .fail (by rw [hpc]; rfl)
        · cases h
          exact .move (.select hpc hq)
      · cases h
    · cases h
  | lockLast t =>
    simp only [queueStep] at h
    split at h
    · rename_i w q n hpc
      split at h
      · rename_i hd
        cases h
        exact .move (.switch hpc (by simp [hd]))
      · rename_i p hd
        split at h
        · rename_i hp
          cases h
          exact effect_queueLocked (.last hpc (hp ▸ hd))
        · rename_i hp
          split at h
          · rename_i q' he
            cases h
            exact effect_queueLocked (.executing hpc hd he)
          · rename_i he
            cases h
            refine .move (.switch hpc ?_)
            intro p' hp'
            rw [hd] at hp'
            cases hp'
            exact ⟨hp, he⟩
    · cases h
  | switchLock t =>
    simp only [queueStep] at h
    split at h
    · rename_i w q n hpc
      cases h
      exact effect_queueLocked (.switched hpc)
    · cases h

theorem effect_cancelStep {a : CancelAct G W T} (h : cancelStep cfg s a = some s') : Effect cfg s s' := by
  cases a with
  | call t w m =>
    simp only [cancelStep] at h
    split at h
    · rename_i hpc
      cases h
      exact .call hpc
    · cases h
  | grabTimer t =>
    simp only [cancelStep] at h
    split at h
    · rename_i w m hpc
      split at h
      · rename_i g n ht
        cases h
        refine .grabTimer hpc (g := g) ?_
        split at ht
        · exact ht
        · cases ht
      · cases h
        exact .move (.grabMiss hpc)
    · cases h
  | grabBit t =>
    simp only [cancelStep] at h
    split at h
    · rename_i w m hpc
      split at h
      · cases h
        exact .move (.grabPending hpc)
      · rename_i hp
        cases h
        exact .grabBit hpc (Bool.eq_false_iff.mpr hp)
    · cases h
  | grabRead t =>
    simp only [cancelStep] at h
    split at h
    · rename_i w m hpc
      split at h
      · cases h
        exact .move (.grabReadFail hpc)
      · cases h
        exact .move (.grabRead hpc)
    · cases h
  | grabLock t =>
    simp only [cancelStep] at h
    split at h
    · rename_i w m p hpc
      split at h
      · rename_i q hq
        split at h
        · rename_i hp
          subst hp
          split at h
          · cases h
            exact .move (.grabLockFail hpc)
          · rename_i hr
            cases h
            exact .grabQueued hpc hq (by omega)
        · rename_i hp
          cases h
          exact .move (.grabForeign hpc hq hp)
      · cases h
        exact .move (.grabLockFail hpc)
    · cases h
  | grabFail t =>
    simp only [cancelStep] at h
    split at h
    · rename_i w m hpc
      split at h
      · cases hm : m.sync with
        | true =>
          simp only [hm, if_true, Option.some.injEq] at h
          subst h
          exact .move (.grabWait hpc hm)
        | false =>
          simp only [hm, Bool.false_eq_true, if_false, Option.some.injEq] at h
          subst h
          exact .move (.grabGiveUp hpc hm)
      · cases h
        exact .move (.grabAgain hpc)
    · cases h
  | foreign t =>
    simp only [cancelStep] at h
    split at h
    · rename_i q f back hpc
      cases h
      cases f with
      | getLoad => exact .move (.foreignLoad hpc)
      | getStore v => exact .foreignGet hpc
      | putLoad => exact .move (.foreignLoad hpc)
      | putStore v =>
        cases back with
        | grab w m => exact .foreignPut hpc
        | flush w cancel => exact .foreignFlush hpc
    · cases h
  | finish t =>
    simp only [cancelStep] at h
    split at h
    · rename_i w m hpc
      split at h
      · cases h
      · rename_i hm
        cases h
        exact .finish hpc (Bool.eq_false_iff.mpr hm)
    · cases h
  | modDelayed t g =>
    simp only [cancelStep] at h
    split at h
    · rename_i w m hpc
      split at h
      · cases h
      · rename_i hm
        cases h
        exact .modDelayed hpc (Bool.eq_false_iff.mpr hm)
    · cases h

theorem effect_flushExecuting {t : T} {w : W} {cancel : Bool} {p : P} (hpc : s.pc t = .flushLock w cancel p)
    (h : flushExecuting cfg s t w cancel p = some s') : Effect cfg s s' := by
  unfold flushExecuting at h
  cases hf : findWorkerExecutingWork cfg s.core p (.work w) with
  | none =>
    simp only [hf, Option.some.injEq] at h
    subst h
    exact .move (.flushGone hpc hf)
  | some k =>
    obtain ⟨hp, r, hr, hi⟩ := findWorker_some hf
    subst hp
    simp only [hf, hr] at h
    split at h
    · cases h
    · rename_i href
      cases h
      exact .front hpc hr hi (by omega)

theorem effect_syncStep {a : SyncAct W T} (h : syncStep cfg s a = some s') : Effect cfg s s' := by
  cases a with
  | mark t =>
    simp only [syncStep] at h
    split at h
    · rename_i w m hpc
      split at h
      · rename_i hm
        cases h
        exact .mark hpc hm
      · cases h
    · cases h
  | flush t w =>
    simp only [syncStep] at h
    split at h
    · rename_i hpc
      cases h
      exact .move (.flush hpc)
    · cases h
  | flushRead t =>
    simp only [syncStep] at h
    split at h
    · rename_i w cancel hpc
      split at h
      · rename_i hd
        cases h
        exact .move (.flushNone hpc hd)
      · rename_i p hd
        cases h
        exact .move (.flushRead hpc hd)
    · cases h
  | flushLock t =>
    simp only [syncStep] at h
    split at h
    · rename_i w cancel p hpc
      split at h
      · rename_i q hq
        split at h
        · rename_i hp
          subst hp
          split at h
          · exact effect_flushExecuting hpc h
          · rename_i hr
            cases h
            exact .behind hpc hq (by omega)
        · rename_i hp
          cases h
          exact .move (.flushForeign hpc hq hp)
      · exact effect_flushExecuting hpc h
    · cases h
  | barrierDone t =>
    simp only [syncStep] at h
    split at h
    · rename_i w cancel hpc
      split at h
      · rename_i hd
        cases h
        exact .move (.barrierDone hpc hd)
      · cases h
    · cases h
  | clearData t =>
    simp only [syncStep] at h
    split at h
    · rename_i w hpc
      cases h
      exact .clear hpc
    · cases h
  | wakeOne t =>
    simp only [syncStep] at h
    split at h
    · rename_i w hpc
      cases h
      exact .wake hpc
    · cases h
  | waitPrep t =>
    simp only [syncStep] at h
    split at h
    · rename_i w m hpc
      cases h
      exact .waitPrep hpc
    · cases h
  | waitCheck t =>
    simp only [syncStep] at h
    split at h
    · rename_i w m hpc
      split at h
      · rename_i hc
        cases h
        exact .waitCheck hpc hc
      · rename_i hc
        cases h
        exact .move (.waitOver hpc (Bool.eq_false_iff.mpr hc))
    · cases h
  | waitSleep t =>
    simp only [syncStep] at h
    split at h
    · rename_i w m hpc
      cases h
      split
      · rename_i hc
        exact .move (.waitSleep hpc hc)
      · rename_i hc
        exact .move (.waitSignalled hpc hc)
    · cases h
  | interrupt t spurious =>
    simp only [syncStep] at h
    split at h
    · rename_i w m hpc
      cases h
      cases spurious with
      | true => exact .move (.interrupt hpc)
      | false => exact .move (.sleepAgain hpc)
    · cases h
  | finishWait t =>
    simp only [syncStep] at h
    split at h
    · rename_i w m hpc
      cases h
      exact .finishWait hpc
    · cases h

theorem effect_workerStep {a : WorkerAct Q G K} (h : workerStep cfg s a = some s') : Effect cfg s s' := by
  cases a with
  | drain g on =>
    cases h
    exact .env _ s.destroying
  | destroy g =>
    cases h
    exact .env s.draining _
  | dropBase q =>
    simp only [workerStep] at h
    split at h
    · rename_i hb
      cases h
      exact .dropBase q hb.2
    · cases h
  | pick k =>
    simp only [workerStep, Option.map_eq_some_iff] at h
    obtain ⟨c, hc, rfl⟩ := h
    exact .pick hc
  | complete k =>
    simp only [workerStep] at h
    split at h
    · rename_i r hk
      split at h
      · rename_i t hi
        split at h
        · cases h
        · rename_i hc
          cases h
          exact .complete hk hi (Bool.eq_false_iff.mpr hc)
      · cases h
    · cases h
  | finish k =>
    simp only [workerStep] at h
    split at h
    · rename_i r hk
      split at h
      · cases h
      · rename_i hc
        cases h
        refine .workDone hk fun hb => ?_
        simpa [hb] using hc
    · cases h

theorem wqStep_effect {a : WqAct Q G W K T} (h : wqStep cfg s a = some s') : Effect cfg s s' := by
  cases a with
  | queue a => exact effect_queueStep h
  | cancel a => exact effect_cancelStep h
  | sync a => exact effect_syncStep h
  | worker a => exact effect_workerStep h

/-- The workers do not move a calling thread. -/
theorem workerStep_pc {a : WorkerAct Q G K} (hs : workerStep cfg s a = some s') : s'.pc = s.pc := by
  cases a <;> simp only [workerStep, Option.map_eq_some_iff] at hs
  case pick => obtain ⟨c, -, rfl⟩ := hs; rfl
  all_goals repeat' split at hs
  all_goals first
    | cases hs; done
    | cases hs; rfl

end Inversion

end Skp.Workqueue
