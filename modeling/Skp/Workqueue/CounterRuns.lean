import Skp.Workqueue.Active

/-! # The counters along runs

All counters agree with the lists in every state of a run in which no cancel or flush meets the
pool_workqueue of a pool that it has not locked; `try_to_grab_pending` and `start_flush_work` change the
`refcnt` of such a pool_workqueue without its lock. -/
namespace Skp.Workqueue
set_option autoImplicit false
open Skp.Foundations

variable {P Q G W K T : Type}

/-- The non-barrier works of `q` on the pool's worklist and on scheduled lists. -/
def activeWorks (c : Core P Q G W K T) (q : Q) : Set (Item W T) :=
  {x | x.isBarrier = false ∧ (c.flags x).data = .pwq q ∧ ∃ pl, pl.isDelayed = false ∧ x ∈ c.lists pl}

/-- The workers that execute a non-barrier work of `q`. -/
def executingWorks (c : Core P Q G W K T) (q : Q) : Set K :=
  {k | ∃ r, c.curr k = some r ∧ r.pwq = q ∧ r.item.isBarrier = false}

/-- The works and barriers of the pool_workqueues of `S` on any list. -/
def queuedWorks (c : Core P Q G W K T) (S : Set Q) : Set (Item W T) :=
  {x | ∃ q ∈ S, (c.flags x).data = .pwq q ∧ ∃ pl, x ∈ c.lists pl}

/-- The counters of every pool_workqueue and workqueue agree with the lists and the workers. -/
structure CountersOk (cfg : WqConfig P Q G K) (c : Core P Q G W K T) : Prop where
  nr_active : ∀ q, (activeWorks c q).encard + (executingWorks c q).encard = c.nrActive q
  max_active : ∀ q, c.nrActive q ≤ cfg.maxActive q
  delayed : ∀ q, c.lists (.delayed q) ≠ [] → c.nrActive q = cfg.maxActive q
  refcnt : ∀ q, ∃ n : ℕ, (queuedWorks c {q}).encard + (flightWorkers c {q}).encard = n ∧
    c.refcnt q = c.baseRef q + n
  seq : ∀ g, ∃ n : ℕ, (queuedWorks c {q | cfg.wqOf q = g}).encard +
    (flightWorkers c {q | cfg.wqOf q = g}).encard = n ∧
    c.insertSeq g - c.removeSeq g = BitVec.ofNat 16 n

section Sets
variable {cfg : WqConfig P Q G K} {c : Core P Q G W K T}

theorem activeWorks_eq (hc : CoreInv cfg c) (q : Q) : activeWorks c q = activeItems c q := by
  ext x
  simp only [activeWorks, activeItems, Set.mem_ofPred_eq]
  refine and_congr_right fun hb => and_congr_right fun hq => ⟨?_, fun hd => ?_⟩
  · rintro ⟨pl, hpl, hx⟩
    rw [(hc.layout.situated x).delayedBit pl hx hb]
    exact hpl
  · obtain ⟨pl, hx⟩ := (hc.layout.situated x).queued q hq
    refine ⟨pl, ?_, hx⟩
    rw [← (hc.layout.situated x).delayedBit pl hx hb]
    exact hd

theorem executingWorks_eq (hc : CoreInv cfg c) (q : Q) : executingWorks c q = activeWorkers c q := by
  ext k
  simp only [executingWorks, activeWorkers, Set.mem_ofPred_eq]
  refine exists_congr fun r => and_congr_right fun hr => ?_
  rw [hc.layout.running_bit k r hr]

theorem queuedWorks_eq (hc : CoreInv cfg c) (S : Set Q) : queuedWorks c S = flightItems c S := by
  ext x
  simp only [queuedWorks, flightItems, Set.mem_ofPred_eq]
  refine exists_congr fun q => and_congr_right fun _ => ⟨fun h => h.1, fun h => ⟨h, ?_⟩⟩
  exact (hc.layout.situated x).queued q h

theorem countersOk_of (hc : CoreInv cfg c) (ha : ActiveOk cfg c) (hr : RefsOk c) (hs : SeqOk cfg c) :
    CountersOk cfg c where
  nr_active := by
    intro q
    rw [activeWorks_eq hc, executingWorks_eq hc]
    exact ha.tally q
  max_active := ha.le
  delayed := fun q hq => le_antisymm (ha.le q) (ha.full q hq)
  refcnt := by
    intro q
    obtain ⟨n, hn, he⟩ := hr q
    exact ⟨n, by rw [queuedWorks_eq hc]; exact hn, he⟩
  seq := by
    intro g
    obtain ⟨n, hn, he⟩ := hs g
    exact ⟨n, by rw [queuedWorks_eq hc]; exact hn, he⟩

end Sets

/-! ## Foreign pool_workqueues -/

def Pc.isForeign : Pc P Q G W → Bool
  | .foreign _ _ _ => true
  | _ => false

/-- The call that has locked a pool finds a pool_workqueue of that pool in the flags word, or none. -/
def LocksOwnPool (cfg : WqConfig P Q G K) (s : WqState P Q G W K T) : WqAct Q G W K T → Prop
  | .cancel (.grabLock t) => ∀ w m p q, s.pc t = .grabLock w m p → (s.core.flags (.work w)).data = .pwq q →
      cfg.poolOf q = p
  | .sync (.flushLock t) => ∀ w cancel p q, s.pc t = .flushLock w cancel p →
      (s.core.flags (.work w)).data = .pwq q → cfg.poolOf q = p
  | _ => True

section Foreign
variable {cfg : WqConfig P Q G K} {s s' : WqState P Q G W K T}

theorem isForeign_afterFlush (w : W) (cancel : Bool) :
    (afterFlush w cancel : Pc P Q G W).isForeign = false := by
  cases cancel with
  | true => rfl
  | false => rfl

/-- No thread is in a foreign section. -/
def NoForeign (s : WqState P Q G W K T) : Prop := ∀ t, (s.pc t).isForeign = false

variable [DecidableEq T]

theorem NoForeign.goes (h : NoForeign s) {t : T} {p : Pc P Q G W} (hpc : s'.pc = Function.update s.pc t p)
    (hp : p.isForeign = false) : NoForeign s' := by
  intro u
  rw [hpc]
  by_cases hu : u = t
  · rw [hu, Function.update_self]
    exact hp
  · rw [Function.update_of_ne hu]
    exact h u

omit [DecidableEq T] in
theorem NoForeign.not_foreign (h : NoForeign s) : ¬ Foreign s := by
  rintro ⟨t, q, f, back, hpc⟩
  have := h t
  rw [hpc] at this
  exact Bool.noConfusion this

variable [DecidableEq P] [DecidableEq Q] [DecidableEq G] [DecidableEq W] [DecidableEq K]

theorem noForeign_flushExecuting (h : NoForeign s) {t : T} {w : W} {cancel : Bool} {p : P}
    (hs : flushExecuting cfg s t w cancel p = some s') : NoForeign s' := by
  unfold flushExecuting at hs
  split at hs
  · cases hs
    exact h.goes rfl (isForeign_afterFlush w cancel)
  · split at hs
    · split at hs
      · cases hs
      · cases hs
        exact h.goes rfl rfl
    · cases hs

theorem noForeign_queueStep (h : NoForeign s) {a : QueueAct Q G W T} (hs : queueStep cfg s a = some s') :
    NoForeign s' := by
  have hlocked : ∀ t w q n, NoForeign (queueLocked cfg s t w q n) := by
    intro t w q n
    unfold queueLocked
    split
    · exact h.goes rfl rfl
    · exact h.goes rfl rfl
  -- every branch is blocked, leaves the threads alone or moves one of them
  cases a <;> simp only [queueStep] at hs <;> repeat' split at hs
  all_goals first
    | cases hs; done
    | cases hs; exact h
    | cases hs; exact h.goes rfl rfl
    | cases hs; exact hlocked _ _ _ _

theorem noForeign_cancelStep (h : NoForeign s) {a : CancelAct G W T} (ha : LocksOwnPool cfg s (.cancel a))
    (hs : cancelStep cfg s a = some s') : NoForeign s' := by
  cases a with
  | grabLock t =>
    simp only [cancelStep] at hs
    split at hs
    · rename_i w m p hpc
      split at hs
      · rename_i q hq
        rw [if_pos (ha w m p q hpc hq)] at hs
        split at hs
        · cases hs
          exact h.goes rfl rfl
        · cases hs
          exact h.goes rfl rfl
      · cases hs
        exact h.goes rfl rfl
    · cases hs
  | foreign t =>
    simp only [cancelStep] at hs
    split at hs
    · rename_i q f back hpc
      exact absurd ⟨t, q, f, back, hpc⟩ h.not_foreign
    · cases hs
  | grabFail t =>
    simp only [cancelStep] at hs
    split at hs
    · rename_i w m hpc
      split at hs
      · cases hs
        refine h.goes rfl ?_
        cases m.sync <;> rfl
      · cases hs
        exact h.goes rfl rfl
    · cases hs
  | call | grabTimer | grabBit | grabRead | finish | modDelayed =>
    simp only [cancelStep] at hs
    repeat' split at hs
    all_goals first
      | cases hs; done
      | cases hs; exact h.goes rfl rfl

theorem noForeign_syncStep (h : NoForeign s) {a : SyncAct W T} (ha : LocksOwnPool cfg s (.sync a))
    (hs : syncStep cfg s a = some s') : NoForeign s' := by
  cases a with
  | flushLock t =>
    simp only [syncStep] at hs
    split at hs
    · rename_i w cancel p hpc
      split at hs
      · rename_i q hq
        rw [if_pos (ha w cancel p q hpc hq)] at hs
        split at hs
        · exact noForeign_flushExecuting h hs
        · cases hs
          exact h.goes rfl rfl
      · exact noForeign_flushExecuting h hs
    · cases hs
  | wakeOne t =>
    simp only [syncStep] at hs
    split at hs
    · rename_i w hpc
      cases hs
      have hw := wakeFrame_wakeUpOne w s.waitq s
      have h1 : NoForeign (wakeUpOne s w s.waitq) := by
        intro u
        rcases hw.pc u with he | ⟨v, m, -, he⟩
        · rw [he]
          exact h u
        · rw [he]
          rfl
      exact h1.goes rfl rfl
    · cases hs
  | waitSleep t =>
    simp only [syncStep] at hs
    split at hs
    · cases hs
      refine h.goes rfl ?_
      split <;> rfl
    · cases hs
  | interrupt t spurious =>
    simp only [syncStep] at hs
    split at hs
    · cases hs
      refine h.goes rfl ?_
      cases spurious <;> rfl
    · cases hs
  | mark | flush | flushRead | barrierDone | clearData | waitPrep | waitCheck | finishWait =>
    simp only [syncStep] at hs
    repeat' split at hs
    all_goals first
      | cases hs; done
      | cases hs; exact h.goes rfl rfl
      | cases hs; exact h.goes rfl (isForeign_afterFlush _ _)

theorem noForeign_step (h : NoForeign s) {a : WqAct Q G W K T} (ha : LocksOwnPool cfg s a)
    (hs : wqStep cfg s a = some s') : NoForeign s' := by
  cases a with
  | queue a => exact noForeign_queueStep h hs
  | cancel a => exact noForeign_cancelStep h ha hs
  | sync a => exact noForeign_syncStep h ha hs
  | worker a =>
    intro t
    rw [workerStep_pc hs]
    exact h t

end Foreign

/-! ## Whole runs -/

structure CountInv (cfg : WqConfig P Q G K) (s : WqState P Q G W K T) : Prop where
  ctl : Ctl cfg s
  none_foreign : NoForeign s
  active : ActiveOk cfg s.core
  refs : RefsOk s.core
  seq : SeqOk cfg s.core

section Runs
variable {cfg : WqConfig P Q G K}

theorem activeOk_init (cfg : WqConfig P Q G K) : ActiveOk cfg (coreInit : Core P Q G W K T) where
  tally := by
    intro q
    have h1 : activeItems (coreInit : Core P Q G W K T) q = ∅ := by
      ext x
      exact iff_of_false (fun hm => nomatch hm.2.1) (fun hm => hm)
    have h2 : activeWorkers (coreInit : Core P Q G W K T) q = ∅ := by
      ext k
      exact iff_of_false (fun ⟨_, hr, _⟩ => nomatch hr) (fun hm => hm)
    rw [h1, h2]
    exact tally_empty
  le := fun _ => Nat.zero_le _
  full := fun _ hq => absurd rfl hq

theorem inFlight_init (S : Set Q) : InFlight (coreInit : Core P Q G W K T) S 0 := by
  have h1 : flightItems (coreInit : Core P Q G W K T) S = ∅ := by
    ext x
    exact iff_of_false (fun ⟨_, _, hd⟩ => nomatch hd) (fun hm => hm)
  have h2 : flightWorkers (coreInit : Core P Q G W K T) S = ∅ := by
    ext k
    exact iff_of_false (fun ⟨_, hr, _⟩ => nomatch hr) (fun hm => hm)
  unfold InFlight
  rw [h1, h2]
  exact tally_empty

theorem countInv_init (cfg : WqConfig P Q G K) : CountInv cfg (wqInit : WqState P Q G W K T) where
  ctl := ctl_init cfg
  none_foreign := fun _ => rfl
  active := activeOk_init cfg
  refs := fun q => ⟨0, inFlight_init {q}, rfl⟩
  seq := fun g => ⟨0, inFlight_init {q | cfg.wqOf q = g}, sub_self (0 : BitVec 16)⟩

variable [DecidableEq P] [DecidableEq Q] [DecidableEq G] [DecidableEq W] [DecidableEq K] [DecidableEq T]

theorem countInv_step {s s' : WqState P Q G W K T} {a : WqAct Q G W K T} (h : CountInv cfg s)
    (ha : LocksOwnPool cfg s a) (hs : wqStep cfg s a = some s') : CountInv cfg s' := by
  have he := wqStep_effect hs
  have hactive : ∀ c c' : Core P Q G W K T, CoreInv cfg c → ActiveOk cfg c → CoreMove cfg (Foreign s) c c' →
      ActiveOk cfg c' := fun c c' hc hi hm => hi.move hc hm
  have hrefs : ∀ c c' : Core P Q G W K T, CoreInv cfg c → RefsOk c →
      CoreMove cfg (Foreign s) c c' → RefsOk c' :=
    fun c c' hc hi hm => refsOk_step hi (flightStep_of_move hc hm) h.none_foreign.not_foreign
  have hseq : ∀ c c' : Core P Q G W K T, CoreInv cfg c → SeqOk cfg c →
      CoreMove cfg (Foreign s) c c' → SeqOk cfg c' :=
    fun c c' hc hi hm => seqOk_step hi (flightStep_of_move hc hm)
  exact ⟨ctl_effect h.ctl he, noForeign_step h.none_foreign ha hs, effect_invariant hactive h.ctl he h.active,
    effect_invariant hrefs h.ctl he h.refs, effect_invariant hseq h.ctl he h.seq⟩

/-- In every run in which no cancel or flush finds the pool_workqueue of another pool than the one
it has locked, the counters agree with the lists in every state. -/
theorem counters_ok (cfg : WqConfig P Q G K) (as : List (WqAct Q G W K T)) (s : WqState P Q G W K T)
    (hgood : RunMeets (wqStep cfg) (LocksOwnPool cfg) wqInit as)
    (hr : runActs (wqStep cfg) wqInit as = some s) :
    CountersOk cfg s.core := by
  have h :=
    run_invariant (fun _ _ _ h ha hs => countInv_step h ha hs) as wqInit s
      (countInv_init cfg) hgood hr
  exact countersOk_of h.ctl.core h.active h.refs h.seq

/-- Two works are queued, the second is delayed, and a cancel takes the first back. -/
def cancelFirst : List (WqAct Unit Unit Bool Unit Bool) :=
  [.queue (.queueWork true true ()), .queue (.select true () false), .queue (.lockLast true),
    .queue (.switchLock true),
   .queue (.queueWork true false ()), .queue (.select true () false), .queue (.lockLast true),
   .queue (.switchLock true),
   .cancel (.call false true ⟨false, false⟩), .cancel (.grabTimer false), .cancel (.grabBit false),
   .cancel (.grabRead false), .cancel (.grabLock false), .cancel (.finish false)]

theorem counters_ok_cancelFirst :
    ∃ s, runActs (wqStep onePool) wqInit cancelFirst = some s ∧
      s.core.lists (.worklist ()) = [.work false] ∧ s.core.nrActive () = 1 ∧ s.core.refcnt () = 2 ∧
      CountersOk onePool s.core := by
  have hmeets : RunMeets (wqStep onePool) (LocksOwnPool onePool) wqInit cancelFirst := by
    refine .cons rfl trivial (.cons rfl trivial (.cons rfl trivial (.cons rfl trivial (.cons rfl trivial
      (.cons rfl trivial (.cons rfl trivial (.cons rfl trivial (.cons rfl trivial (.cons rfl trivial
      (.cons rfl trivial (.cons rfl trivial (.cons rfl ?_ (.cons rfl trivial trivial)))))))))))))
    exact fun _ _ _ _ _ _ => rfl
  exact ⟨_, rfl, rfl, rfl, rfl, counters_ok onePool cancelFirst _ hmeets rfl⟩

omit [DecidableEq P] [DecidableEq Q] [DecidableEq G] [DecidableEq W] [DecidableEq K] [DecidableEq T] in
theorem not_countersOk_of_empty {c : Core P Q G W K T} (hl : ∀ pl, c.lists pl = [])
    (hc : ∀ k, c.curr k = none) {q : Q}
    (hr : c.refcnt q ≠ c.baseRef q) : ¬ CountersOk cfg c := by
  intro h
  obtain ⟨n, hn, he⟩ := h.refcnt q
  have h1 : queuedWorks c {q} = ∅ := by
    ext x
    refine iff_of_false ?_ (fun hm => hm)
    rintro ⟨q', -, -, pl, hx⟩
    rw [hl] at hx
    cases hx
  have h2 : flightWorkers c {q} = ∅ := by
    ext k
    refine iff_of_false ?_ (fun hm => hm)
    rintro ⟨r, hk, -⟩
    rw [hc] at hk
    cases hk
  rw [h1, h2] at hn
  have hzero : n = 0 := Tally.eq hn tally_empty
  rw [hzero] at he
  exact hr (by simpa using he)

/-- The work has run on pool `false` and is being queued on pool `true` when a cancel reads the old pool; the
cancel loads `refcnt` while the work is queued there and stores it after the work has finished. -/
def staleGrab : List (WqAct Bool Unit Unit Bool Bool) :=
  [.queue (.queueWork false () ()), .queue (.select false false false), .queue (.lockLast false),
   .queue (.switchLock false), .worker (.pick false), .worker (.finish false),
   .queue (.queueWork false () ()), .cancel (.call true () ⟨false, false⟩), .cancel (.grabTimer true),
   .cancel (.grabBit true), .cancel (.grabRead true), .queue (.select false true false),
   .queue (.lockLast false),
   .queue (.switchLock false), .cancel (.grabLock true), .cancel (.foreign true), .worker (.pick true),
   .worker (.finish true), .cancel (.foreign true), .cancel (.foreign true), .cancel (.foreign true)]

/-- Nothing is queued or executed and no thread is in a foreign section, but `refcnt` of the pool_workqueue of
pool `true` stays at 2. -/
theorem counters_lost_put :
    ∃ s, runActs (wqStep twoPools) wqInit staleGrab = some s ∧ (∀ pl, s.core.lists pl = []) ∧
      (∀ k, s.core.curr k = none) ∧ NoForeign s ∧ s.core.baseRef true = 1 ∧ s.core.refcnt true = 2 ∧
      ¬ CountersOk twoPools s.core := by
  obtain ⟨s, hs, hl, hc, hf, hb, hr⟩ : ∃ s, runActs (wqStep twoPools) wqInit staleGrab = some s ∧
      (∀ pl, s.core.lists pl = []) ∧ (∀ k, s.core.curr k = none) ∧ NoForeign s ∧ s.core.baseRef true = 1 ∧
      s.core.refcnt true = 2 := by
    refine ⟨_, rfl, ?_, ?_, ?_, rfl, rfl⟩
    · rintro (_ | _ | _) <;> rename_i b <;> cases b <;> rfl
    · rintro (_ | _) <;> rfl
    · rintro (_ | _) <;> rfl
  exact ⟨s, hs, hl, hc, hf, hb, hr, not_countersOk_of_empty hl hc (by rw [hb, hr]; decide)⟩

end Runs

end Skp.Workqueue
