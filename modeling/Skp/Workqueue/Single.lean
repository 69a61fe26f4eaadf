import Skp.Workqueue.Reach

/-! # A work of one workqueue

When a work is queued on one workqueue only, its flags word names the pool of the worker that executes it, so
that a new queueing goes to that pool and the collision check of `process_one_work` finds the worker. -/
namespace Skp.Workqueue
set_option autoImplicit false
open Skp.Foundations

variable {P Q G W K T : Type}

/-- The calls queue `w` on the workqueue `g` only. -/
def OnlyOn (w : W) (g : G) (s : WqState P Q G W K T) : WqAct Q G W K T → Prop
  | .queue (.queueWork _ w' g') => w' = w → g' = g
  | .cancel (.modDelayed t g') => ∀ m, s.pc t = .grabbed w m → g' = g
  | _ => True

/-- Worker `k` executes the work `w`. -/
def RunsOn (c : Core P Q G W K T) (k : K) (w : W) : Prop := ∃ r, c.curr k = some r ∧ r.item = .work w

/-- The pool_workqueue that `__queue_work` has chosen. -/
def Pc.choice : Pc P Q G W → Option (W × Q)
  | .selected w q _ => some (w, q)
  | .switching w q _ => some (w, q)
  | _ => none

theorem choice_afterFlush (w : W) (cancel : Bool) : (afterFlush w cancel : Pc P Q G W).choice = none := by
  cases cancel with
  | true => rfl
  | false => rfl

structure Belongs (cfg : WqConfig P Q G K) (w : W) (g : G) (s : WqState P Q G W K T) : Prop where
  queueing : ∀ t g' n, s.pc t = .queueing w g' n → g' = g
  choice : ∀ t q, (s.pc t).choice = some (w, q) → cfg.wqOf q = g
  timer : ∀ g' n, s.timer w = some (g', n) → g' = g
  queued : ∀ q, (s.core.flags (.work w)).data = .pwq q → cfg.wqOf q = g
  running : ∀ k r, s.core.curr k = some r → r.item = .work w → cfg.wqOf r.pwq = g

/-- Whoever executes `w` afterwards executed it before, for the same queueing. -/
def NoNewRun (c c' : Core P Q G W K T) (w : W) : Prop :=
  ∀ k r, c'.curr k = some r → r.item = .work w →
    ∃ r0, c.curr k = some r0 ∧ r0.item = .work w ∧ r0.ticket = r.ticket ∧ r0.pwq = r.pwq

section Belongs
variable {cfg : WqConfig P Q G K} {w : W} {g : G} {s s' : WqState P Q G W K T}

theorem NoNewRun.refl {c c' : Core P Q G W K T} (h : c'.curr = c.curr) : NoNewRun c c' w :=
  fun _ r hk hi => ⟨r, h ▸ hk, hi, rfl, rfl⟩

theorem NoNewRun.runsOn {c c' : Core P Q G W K T} (h : NoNewRun c c' w) {k : K}
    (hk : RunsOn c' k w) : RunsOn c k w := by
  obtain ⟨r, hr, hi⟩ := hk
  obtain ⟨r0, h0, h1, -⟩ := h k r hr hi
  exact ⟨r0, h0, h1⟩

variable [DecidableEq K] [DecidableEq T] [DecidableEq P] [DecidableEq G] [DecidableEq W]

theorem noNewRun_finish [DecidableEq Q] (cfg : WqConfig P Q G K) (c : Core P Q G W K T) (k : K)
    (r : Running Q W T) (w : W) :
    NoNewRun c (finishWork cfg c k r) w := by
  intro k' r' hr' hi
  have hd := decFrame_pwqDecNrInFlight cfg (c.stopped k r.ticket) r.pwq r.barrier
  have hr1 : Function.update c.curr k none k' = some r' := (congrFun hd.curr k').symm.trans hr'
  have hne : k' ≠ k := by
    rintro rfl
    simp at hr1
  rw [Function.update_of_ne hne] at hr1
  exact ⟨r', hr1, hi, rfl, rfl⟩

omit [DecidableEq P] [DecidableEq G] [DecidableEq W] [DecidableEq T] in
theorem noNewRun_called {c : Core P Q G W K T} {k : K} {r : Running Q W T} (hk : c.curr k = some r) (w : W) :
    NoNewRun c { c with curr := Function.update c.curr k (some { r with called := true }) } w := by
  intro k' r' hr' hi
  obtain ⟨r0, h0, h1, h2, -, h3, -⟩ := curr_called hk hr'
  exact ⟨r0, h0, h1 ▸ hi, h3.symm, h2.symm⟩

/-- The word of `w` keeps its pool and gets no pool_workqueue, and nobody starts to execute `w`. -/
structure WordKept (cfg : WqConfig P Q G K) (c c' : Core P Q G W K T) (w : W) : Prop where
  pool : dataPool cfg (c'.flags (.work w)).data = dataPool cfg (c.flags (.work w)).data
  queued : ∀ q, (c'.flags (.work w)).data = .pwq q → (c.flags (.work w)).data = .pwq q
  run : NoNewRun c c' w

section Kept
variable {c c' : Core P Q G W K T}

omit [DecidableEq P] [DecidableEq G] [DecidableEq W] [DecidableEq K] [DecidableEq T] in
theorem wordKept_of_data (hd : (c'.flags (.work w)).data = (c.flags (.work w)).data) (hr : NoNewRun c c' w) :
    WordKept cfg c c' w := ⟨by rw [hd], fun q hq => hd.symm.trans hq, hr⟩

omit [DecidableEq P] [DecidableEq G] [DecidableEq W] [DecidableEq K] [DecidableEq T] in
theorem wordKept_of_eq (hf : c'.flags = c.flags) (hc : c'.curr = c.curr) : WordKept cfg c c' w :=
  wordKept_of_data (by rw [hf]) (.refl hc)

omit [DecidableEq P] [DecidableEq G] [DecidableEq K] in
theorem wordKept_setFlags {v : W} {f : WorkFlags P Q} (hf : c'.flags = (c.setFlags v f).flags)
    (hc : c'.curr = c.curr)
    (hp : dataPool cfg f.data = dataPool cfg (c.flags (.work v)).data)
    (hq : ∀ q, f.data = .pwq q → (c.flags (.work v)).data = .pwq q) : WordKept cfg c c' w := by
  by_cases hv : w = v
  · subst hv
    have he : (c'.flags (.work w)).data = f.data := by simp [hf, Core.setFlags]
    exact ⟨he ▸ hp, fun q hd => hq q (he.symm.trans hd), .refl hc⟩
  · exact wordKept_of_data (by simp [hf, Core.setFlags, hv]) (.refl hc)

omit [DecidableEq P] [DecidableEq G] [DecidableEq K] in
theorem dataPool_keepPool (cfg : WqConfig P Q G K) (d : WorkData P Q) :
    dataPool cfg (keepPool cfg d) = dataPool cfg d := by
  cases d with
  | pwq q => rfl
  | pool p => rfl
  | none => rfl

variable [DecidableEq Q]

theorem wordKept_insert {v : W} (hv : w ≠ v) (q : Q) (n : ℕ) :
    WordKept cfg c (queueInsert cfg c q v n) w := by
  refine wordKept_of_data ?_ (.refl rfl)
  rw [queueInsert_flags, Function.update_of_ne (by simpa using hv)]

omit [DecidableEq P] [DecidableEq K] in
theorem wordKept_behind (q : Q) (v : W) (t : T) : WordKept cfg c (insertBarrierBehind cfg c q v t) w := by
  refine wordKept_of_data ?_ (.refl rfl)
  rw [insertBarrierBehind_flags, Function.update_of_ne (by simp)]
  by_cases hv : w = v
  · rw [hv, Function.update_self]
  · rw [Function.update_of_ne (by simpa using hv)]

theorem wordKept_front (k : K) (r : Running Q W T) (t : T) :
    WordKept cfg c (insertBarrierFront cfg c k r t) w :=
  wordKept_of_data (by simp [insertBarrierFront, startBarrier, insertWork, pwqIncNrInFlight]) (.refl rfl)

theorem wordKept_grab (h : CoreInv cfg c) {v : W} {q : Q} (hq : (c.flags (.work v)).data = .pwq q) :
    WordKept cfg c (grabQueued cfg c q v) w := by
  have hg := grabFrame h hq
  by_cases hv : w = v
  · subst hv
    refine ⟨?_, ?_, .refl hg.curr⟩
    · rw [hg.self, hq]
      rfl
    · intro q' hq'
      rw [hg.self] at hq'
      exact nomatch hq'
  · exact wordKept_of_data (hg.word _ (by simpa using hv)).data (.refl hg.curr)

theorem wordKept_finish (k : K) (r : Running Q W T) : WordKept cfg c (finishWork cfg c k r) w := by
  have hd := decFrame_pwqDecNrInFlight cfg (c.stopped k r.ticket) r.pwq r.barrier
  exact wordKept_of_data (hd.word (.work w)).data (noNewRun_finish cfg c k r w)

omit [DecidableEq G] in
/-- Works are rearranged, and one other than `w` may be started. -/
theorem wordKept_start {c1 : Core P Q G W K T} (hr : Rearranged cfg c c1) {k : K}
    {src : Place P Q K} {x : Item W T} {q : Q}
    (hx : x ≠ .work w) : WordKept cfg c (startWork cfg c1 k src x q) w := by
  obtain ⟨hf, hc, -⟩ := hr.core
  refine wordKept_of_data ?_ ?_
  · rw [startWork, ← hf]
    simp [hx.symm]
  · intro k' r' hr' hi
    have hr1 : Function.update c1.curr k (some _) k' = some r' := hr'
    by_cases hk : k' = k
    · rw [hk, Function.update_self, Option.some.injEq] at hr1
      rw [← hr1] at hi
      exact absurd hi hx
    · rw [Function.update_of_ne hk, hc] at hr1
      exact ⟨r', hr1, hi, rfl, rfl⟩

end Kept

omit [DecidableEq P] [DecidableEq G] [DecidableEq W] [DecidableEq K] [DecidableEq T] in
/-- The new pool_workqueues of `w` are old ones. -/
theorem Belongs.frame (h : Belongs cfg w g s) (hq : ∀ t g' n, s'.pc t = .queueing w g' n → g' = g)
    (hchoice : ∀ t q, (s'.pc t).choice = some (w, q) → cfg.wqOf q = g)
    (htimer : s'.timer w = s.timer w ∨ s'.timer w = none) (hw : WordKept cfg s.core s'.core w) :
    Belongs cfg w g s' where
  queueing := hq
  choice := hchoice
  timer := by
    intro g' n hn
    rcases htimer with he | he
    · exact h.timer g' n (he ▸ hn)
    · rw [he] at hn
      cases hn
  queued := fun q hd => h.queued q (hw.queued q hd)
  running := by
    intro k r hk hi
    obtain ⟨r0, h0, h1, -, h2⟩ := hw.run k r hk hi
    rw [← h2]
    exact h.running k r0 h0 h1

omit [DecidableEq P] [DecidableEq G] [DecidableEq W] [DecidableEq K] in
theorem Belongs.choice_goes (h : Belongs cfg w g s) {t : T} {p : Pc P Q G W}
    (hpc : s'.pc = Function.update s.pc t p)
    (hp : ∀ q, p.choice = some (w, q) → cfg.wqOf q = g) (u : T) (q : Q)
    (hu : (s'.pc u).choice = some (w, q)) :
    cfg.wqOf q = g := by
  rw [hpc] at hu
  by_cases ht : u = t
  · rw [ht, Function.update_self] at hu
    exact hp q hu
  · rw [Function.update_of_ne ht] at hu
    exact h.choice u q hu

omit [DecidableEq P] [DecidableEq G] [DecidableEq W] [DecidableEq K] in
theorem Belongs.goes (h : Belongs cfg w g s) (hq : ∀ t g' n, s'.pc t = .queueing w g' n → g' = g) {t : T}
    {p : Pc P Q G W} (hpc : s'.pc = Function.update s.pc t p) (hp : p.choice = none)
    (htimer : s'.timer w = s.timer w ∨ s'.timer w = none) (hw : WordKept cfg s.core s'.core w) :
    Belongs cfg w g s' := by
  refine h.frame hq (h.choice_goes hpc fun q hc => ?_) htimer hw
  rw [hp] at hc
  cases hc

omit [DecidableEq K] in
theorem LocalMove.choice {t : T} {p : Pc P Q G W} (h : LocalMove cfg s t p) {v : W} {q : Q}
    (hp : p.choice = some (v, q)) :
    (s.pc t).choice = some (v, q) ∨ ∃ g' n, s.pc t = .queueing v g' n ∧ cfg.wqOf q = g' := by
  cases h with
  | select hpc hq =>
    cases hp
    exact Or.inr ⟨_, _, hpc, hq⟩
  | switch hpc _ =>
    rw [hpc]
    exact Or.inl hp
  | grabMiss | grabPending | grabRead | grabReadFail | grabLockFail | grabForeign | grabWait
  | grabGiveUp | grabAgain
  | foreignLoad | flush | flushRead | flushForeign | waitOver | waitSleep | waitSignalled
  | interrupt | sleepAgain =>
    exact nomatch hp
  | flushNone | flushGone | barrierDone =>
    rw [choice_afterFlush] at hp
    cases hp

omit [DecidableEq K] in
theorem Belongs.inserts (h : Belongs cfg w g s) {t : T} {q : Q} {n : ℕ} (hi : Inserts cfg s t w q n) :
    cfg.wqOf q = g := by
  cases hi with
  | last hpc _ => exact h.choice t q (by rw [hpc]; rfl)
  | @executing q' p hpc hd he =>
    have hq' : cfg.wqOf q' = g := h.choice t q' (by rw [hpc]; rfl)
    simp only [executingPwq, Option.bind_eq_some_iff] at he
    obtain ⟨k, -, r, -, hr⟩ := he
    split at hr
    · rename_i hwq
      cases hr
      exact hwq.trans hq'
    · cases hr
  | switched hpc => exact h.choice t q (by rw [hpc]; rfl)

end Belongs

/-! ## The workqueue of a queueing -/

section Queueing
variable {cfg : WqConfig P Q G K} {w : W} {g : G} {s s' : WqState P Q G W K T}

def Pc.isQueueing : Pc P Q G W → Bool
  | .queueing _ _ _ => true
  | _ => false

theorem isQueueing_afterFlush (w : W) (cancel : Bool) :
    (afterFlush w cancel : Pc P Q G W).isQueueing = false := by
  cases cancel with
  | true => rfl
  | false => rfl

/-- No thread begins a queueing. -/
def SameQueueing (s s' : WqState P Q G W K T) : Prop :=
  ∀ t v g n, s'.pc t = .queueing v g n → s.pc t = .queueing v g n

variable [DecidableEq T]

theorem sameQueueing_goes {t : T} {p : Pc P Q G W} (hpc : s'.pc = Function.update s.pc t p)
    (hp : p.isQueueing = false) :
    SameQueueing s s' := by
  intro u v g n hu
  rw [hpc] at hu
  by_cases ht : u = t
  · rw [ht, Function.update_self] at hu
    rw [hu] at hp
    exact Bool.noConfusion hp
  · rwa [Function.update_of_ne ht] at hu

variable [DecidableEq K] [DecidableEq P] [DecidableEq Q] [DecidableEq G] [DecidableEq W]

theorem sameQueueing_queueLocked (cfg : WqConfig P Q G K) (s : WqState P Q G W K T) (t : T) (v : W)
    (q : Q) (n : ℕ) :
    SameQueueing s (queueLocked cfg s t v q n) := by
  unfold queueLocked
  split
  · exact sameQueueing_goes rfl rfl
  · exact sameQueueing_goes rfl rfl

theorem sameQueueing_flushExecuting {t : T} {v : W} {cancel : Bool} {p : P}
    (hs : flushExecuting cfg s t v cancel p = some s') : SameQueueing s s' := by
  unfold flushExecuting at hs
  split at hs
  · cases hs
    exact sameQueueing_goes rfl (isQueueing_afterFlush v cancel)
  · split at hs
    · split at hs
      · cases hs
      · cases hs
        exact sameQueueing_goes rfl rfl
    · cases hs

omit [DecidableEq P] [DecidableEq Q] [DecidableEq G] [DecidableEq K] in
theorem sameQueueing_wakeUpOne (s : WqState P Q G W K T) (v : W) (l : List T) :
    SameQueueing s (wakeUpOne s v l) := by
  intro u v' g n hu
  rcases (wakeFrame_wakeUpOne v l s).pc u with he | ⟨v1, m, -, he⟩
  · rwa [he] at hu
  · rw [he] at hu
    exact nomatch hu

omit [DecidableEq P] [DecidableEq G] [DecidableEq W] [DecidableEq K] in
theorem sameQueueing_foreignStep (s : WqState P Q G W K T) (t : T) (q : Q) (f : ForeignStep)
    (back : Resume W) :
    SameQueueing s (foreignStep s t q f back) := by
  cases f with
  | getLoad | getStore v | putLoad => exact sameQueueing_goes rfl rfl
  | putStore v =>
    cases back with
    | grab v m => exact sameQueueing_goes rfl rfl
    | flush v cancel => exact sameQueueing_goes rfl (isQueueing_afterFlush v cancel)

omit [DecidableEq P] [DecidableEq Q] [DecidableEq G] [DecidableEq W] [DecidableEq K] in
/-- A thread that begins a queueing of `w` does so for the workqueue `g`. -/
theorem queueing_begin (h : Belongs cfg w g s) {t : T} {v : W} {g' : G} {m : ℕ}
    (hpc : s'.pc = Function.update s.pc t (.queueing v g' m)) (hg : v = w → g' = g) {u : T} {g'' : G} {n : ℕ}
    (hu : s'.pc u = .queueing w g'' n) : g'' = g := by
  rw [hpc] at hu
  by_cases ht : u = t
  · rw [ht, Function.update_self] at hu
    cases hu
    exact hg rfl
  · rw [Function.update_of_ne ht] at hu
    exact h.queueing u g'' n hu

theorem queueing_queueStep (h : Belongs cfg w g s) {a : QueueAct Q G W T} (ha : OnlyOn w g s (.queue a))
    (hs : queueStep cfg s a = some s') {u : T} {g' : G} {n : ℕ} (hu : s'.pc u = .queueing w g' n) :
    g' = g := by
  cases a with
  | queueWork t v g0 =>
    simp only [queueStep] at hs
    split at hs
    · split at hs
      · cases hs
        exact h.queueing u g' n hu
      · cases hs
        exact queueing_begin h rfl ha hu
    · cases hs
  | fire t v =>
    simp only [queueStep] at hs
    split at hs
    · split at hs
      · rename_i g0 n0 htimer
        cases hs
        refine queueing_begin h rfl ?_ hu
        rintro rfl
        exact h.timer _ _ htimer
      · cases hs
    · cases hs
  | armTimer t ok | select t q chained | lockLast t | switchLock t =>
    have hsame : SameQueueing s s' := by
      simp only [queueStep] at hs
      repeat' split at hs
      all_goals first
        | cases hs; done
        | cases hs; exact sameQueueing_goes rfl rfl
        | cases hs; exact sameQueueing_queueLocked cfg s _ _ _ _
    exact h.queueing u g' n (hsame u w g' n hu)

theorem queueing_cancelStep (h : Belongs cfg w g s) {a : CancelAct G W T} (ha : OnlyOn w g s (.cancel a))
    (hs : cancelStep cfg s a = some s') {u : T} {g' : G} {n : ℕ} (hu : s'.pc u = .queueing w g' n) :
    g' = g := by
  cases a with
  | modDelayed t g0 =>
    simp only [cancelStep] at hs
    split at hs
    · rename_i v m hpc
      split at hs
      · cases hs
      · cases hs
        refine queueing_begin h rfl ?_ hu
        rintro rfl
        exact ha m hpc
    · cases hs
  | foreign t =>
    simp only [cancelStep] at hs
    split at hs
    · cases hs
      exact h.queueing u g' n (sameQueueing_foreignStep s t _ _ _ u w g' n hu)
    · cases hs
  | grabFail t =>
    simp only [cancelStep] at hs
    split at hs
    · rename_i v m hpc
      have hsame : SameQueueing s s' := by
        split at hs
        · cases hs
          refine sameQueueing_goes rfl ?_
          cases m.sync <;> rfl
        · cases hs
          exact sameQueueing_goes rfl rfl
      exact h.queueing u g' n (hsame u w g' n hu)
    · cases hs
  | call | grabTimer | grabBit | grabRead | grabLock | finish =>
    have hsame : SameQueueing s s' := by
      simp only [cancelStep] at hs
      repeat' split at hs
      all_goals first
        | cases hs; done
        | cases hs; exact sameQueueing_goes rfl rfl
    exact h.queueing u g' n (hsame u w g' n hu)

theorem sameQueueing_syncStep {a : SyncAct W T} (hs : syncStep cfg s a = some s') : SameQueueing s s' := by
  cases a with
  | flushLock t =>
    simp only [syncStep] at hs
    repeat' split at hs
    all_goals first
      | cases hs; done
      | exact sameQueueing_flushExecuting hs
      | cases hs; exact sameQueueing_goes rfl rfl
  | wakeOne t =>
    simp only [syncStep] at hs
    split at hs
    · rename_i v hpc
      cases hs
      intro u v' g' n hu
      have h1 : SameQueueing (wakeUpOne s v s.waitq) ((wakeUpOne s v s.waitq).setPc t .idle) :=
        sameQueueing_goes rfl rfl
      exact sameQueueing_wakeUpOne s v s.waitq u v' g' n (h1 u v' g' n hu)
    · cases hs
  | waitSleep t =>
    simp only [syncStep] at hs
    split at hs
    · cases hs
      refine sameQueueing_goes rfl ?_
      split <;> rfl
    · cases hs
  | interrupt t spurious =>
    simp only [syncStep] at hs
    split at hs
    · cases hs
      refine sameQueueing_goes rfl ?_
      cases spurious <;> rfl
    · cases hs
  | mark | flush | flushRead | barrierDone | clearData | waitPrep | waitCheck | finishWait =>
    simp only [syncStep] at hs
    repeat' split at hs
    all_goals first
      | cases hs; done
      | cases hs; exact sameQueueing_goes rfl rfl
      | cases hs; exact sameQueueing_goes rfl (isQueueing_afterFlush _ _)

theorem queueing_step (h : Belongs cfg w g s) {a : WqAct Q G W K T} (ha : OnlyOn w g s a)
    (hs : wqStep cfg s a = some s') : ∀ u g' n, s'.pc u = .queueing w g' n → g' = g := by
  intro u g' n hu
  cases a with
  | queue a => exact queueing_queueStep h ha hs hu
  | cancel a => exact queueing_cancelStep h ha hs hu
  | sync a => exact h.queueing u g' n (sameQueueing_syncStep hs u w g' n hu)
  | worker a =>
    rw [workerStep_pc hs] at hu
    exact h.queueing u g' n hu

end Queueing

section BelongsEffect
variable {cfg : WqConfig P Q G K} {w : W} {g : G} {s s' : WqState P Q G W K T}

variable [DecidableEq K] [DecidableEq T] [DecidableEq P] [DecidableEq Q] [DecidableEq G] [DecidableEq W]

theorem Belongs.insert (h : Belongs cfg w g s) (hq : ∀ u g' n, s'.pc u = .queueing w g' n → g' = g)
    {t : T} {v : W}
    {q : Q} {n : ℕ} (hi : Inserts cfg s t v q n) (hs : s' = { s with
      core := queueInsert cfg s.core q v n, pc := Function.update s.pc t .idle }) : Belongs cfg w g s' := by
  subst hs
  by_cases hv : w = v
  · subst hv
    refine ⟨hq, h.choice_goes rfl (fun q hc => nomatch hc), h.timer, fun q' hd => ?_, h.running⟩
    simp only [queueInsert_flags, Function.update_self, WorkData.pwq.injEq] at hd
    rw [← hd]
    exact h.inserts hi
  · exact h.goes hq rfl rfl (Or.inl rfl) (wordKept_insert hv q n)

omit [DecidableEq G] in
theorem Belongs.pick (h : Belongs cfg w g s) (hc : CoreInv cfg s.core) {k : K} {c' : Core P Q G W K T}
    (hp : pickWork cfg s.core k = some c') : Belongs cfg w g { s with core := c' } := by
  obtain ⟨-, c1, hr, rfl | ⟨src, x, q, hst, rfl⟩⟩ := picks_of_pickWork hc hp
  · obtain ⟨hf, hcurr, -⟩ := hr.core
    exact h.frame h.queueing h.choice (Or.inl rfl) (wordKept_of_eq hf hcurr)
  · by_cases hx : x = .work w
    · subst hx
      obtain ⟨hf, hcurr, -⟩ := hr.core
      refine ⟨h.queueing, h.choice, h.timer, fun q' hd => ?_, fun k' r' hr' hi => ?_⟩
      · simp [startWork, workFlags] at hd
      · simp only [startWork] at hr'
        by_cases hk : k' = k
        · rw [hk, Function.update_self, Option.some.injEq] at hr'
          rw [← hr']
          exact h.queued q (hf ▸ hst.data)
        · rw [Function.update_of_ne hk, hcurr] at hr'
          exact h.running k' r' hr' hi
    · exact h.frame h.queueing h.choice (Or.inl rfl) (wordKept_start hr hx)

omit [DecidableEq P] [DecidableEq Q] [DecidableEq G] [DecidableEq K] [DecidableEq T] in
theorem timer_cleared (v : W) :
    Function.update s.timer v none w = s.timer w ∨ Function.update s.timer v none w = none := by
  by_cases hv : w = v
  · exact Or.inr (by rw [hv, Function.update_self])
  · exact Or.inl (Function.update_of_ne hv _ _)

theorem belongs_effect (hctl : Ctl cfg s) (h : Belongs cfg w g s)
    (hq : ∀ u g' n, s'.pc u = .queueing w g' n → g' = g) (he : Effect cfg s s') : Belongs cfg w g s' := by
  cases he with
  | env d e => exact h.frame hq h.choice (Or.inl rfl) (wordKept_of_eq rfl rfl)
  | dropBase q hb => exact h.frame hq h.choice (Or.inl rfl) (wordKept_of_eq rfl rfl)
  | @move t p hm =>
    refine h.frame hq (h.choice_goes rfl fun q hp => ?_) (Or.inl rfl) (wordKept_of_eq rfl rfl)
    rcases hm.choice hp with hold | ⟨g', n, hpc, hwq⟩
    · exact h.choice t q hold
    · exact hwq.trans (h.queueing t g' n hpc)
  | call hpc => exact h.goes hq rfl rfl (Or.inl rfl) (wordKept_of_eq rfl rfl)
  | begin hpc hp =>
    exact h.goes hq rfl rfl (Or.inl rfl) (wordKept_setFlags rfl rfl rfl (fun _ hd => hd))
  | modDelayed hpc hm => exact h.goes hq rfl rfl (Or.inl rfl) (wordKept_of_eq rfl rfl)
  | @arm t v g' n hpc =>
    refine ⟨hq, h.choice_goes rfl (fun q hc => by cases hc), fun g'' m hm => ?_, h.queued, h.running⟩
    by_cases hv : w = v
    · subst hv
      simp only [Function.update_self, Option.some.injEq, Prod.mk.injEq] at hm
      exact hm.1 ▸ h.queueing t g' n hpc
    · simp only [Function.update_of_ne hv] at hm
      exact h.timer g'' m hm
  | armFail hpc => exact h.goes hq rfl rfl (Or.inl rfl) (wordKept_of_eq rfl rfl)
  | @fire t v g' n hpc ht => exact h.goes hq rfl rfl (timer_cleared v) (wordKept_of_eq rfl rfl)
  | fail hpc => exact h.goes hq rfl rfl (Or.inl rfl) (wordKept_setFlags rfl rfl rfl (fun _ hd => hd))
  | insert hi hr => exact h.insert hq hi rfl
  | @grabTimer t v m g' n hpc ht => exact h.goes hq rfl rfl (timer_cleared v) (wordKept_of_eq rfl rfl)
  | grabBit hpc hp => exact h.goes hq rfl rfl (Or.inl rfl) (wordKept_setFlags rfl rfl rfl (fun _ hd => hd))
  | grabQueued hpc hd hr => exact h.goes hq rfl rfl (Or.inl rfl) (wordKept_grab hctl.core hd)
  | foreignGet hpc => exact h.goes hq rfl rfl (Or.inl rfl) (wordKept_of_eq rfl rfl)
  | foreignPut hpc => exact h.goes hq rfl rfl (Or.inl rfl) (wordKept_of_eq rfl rfl)
  | foreignFlush hpc => exact h.goes hq rfl (choice_afterFlush _ _) (Or.inl rfl) (wordKept_of_eq rfl rfl)
  | finish hpc hm =>
    exact h.goes hq rfl rfl (Or.inl rfl) (wordKept_setFlags rfl rfl (dataPool_keepPool cfg _)
      (fun q hd => absurd hd (keepPool_ne cfg _ q)))
  | mark hpc hm =>
    exact h.goes hq rfl rfl (Or.inl rfl) (wordKept_setFlags rfl rfl (dataPool_keepPool cfg _)
      (fun q hd => absurd hd (keepPool_ne cfg _ q)))
  | behind hpc hd hr => exact h.goes hq rfl rfl (Or.inl rfl) (wordKept_behind _ _ _)
  | front hpc hk hw hr => exact h.goes hq rfl rfl (Or.inl rfl) (wordKept_front _ _ _)
  | @clear t v hpc =>
    refine ⟨hq, h.choice_goes rfl (fun q hc => by cases hc), h.timer, fun q hd => ?_, h.running⟩
    by_cases hv : w = v
    · subst hv
      simp [Core.setFlags, workFlags] at hd
    · simp only [Core.setFlags, Function.update_of_ne (show Item.work w ≠ .work v by simpa using hv)] at hd
      exact h.queued q hd
  | @wake t v hpc =>
    have hw := wakeFrame_wakeUpOne v s.waitq s
    have h1 : Belongs cfg w g (wakeUpOne s v s.waitq) := by
      refine h.frame (fun u g' n hu => ?_) (fun u q hu => ?_) (Or.inl (by rw [hw.timer])) ?_
      · exact h.queueing u g' n (sameQueueing_wakeUpOne s v s.waitq u w g' n hu)
      · rcases hw.pc u with he | ⟨v', m, -, he⟩
        · exact h.choice u q (he ▸ hu)
        · rw [he] at hu
          cases hu
      · rw [hw.core]
        exact wordKept_of_eq rfl rfl
    exact h1.goes hq rfl rfl (Or.inl rfl) (wordKept_of_eq rfl rfl)
  | waitPrep hpc => exact h.goes hq rfl rfl (Or.inl rfl) (wordKept_of_eq rfl rfl)
  | waitCheck hpc hc => exact h.goes hq rfl rfl (Or.inl rfl) (wordKept_of_eq rfl rfl)
  | finishWait hpc => exact h.goes hq rfl rfl (Or.inl rfl) (wordKept_of_eq rfl rfl)
  | pick hp => exact h.pick hctl.core hp
  | complete hk hi hcl => exact h.frame hq h.choice (Or.inl rfl) (wordKept_of_data rfl (noNewRun_called hk w))
  | workDone hk hcl => exact h.frame hq h.choice (Or.inl rfl) (wordKept_finish _ _)

end BelongsEffect

end Skp.Workqueue
