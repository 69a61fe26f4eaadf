import Skp.Workqueue.Reach

/-! # Flushing

A barrier runs only when the queueing it was put in for is over, and a group of LINKED entries is closed and
belongs to one work, in every reachable state. -/
namespace Skp.Workqueue
set_option autoImplicit false
open Skp.Foundations

variable {P Q G W K T : Type} [DecidableEq P] [DecidableEq Q] [DecidableEq G] [DecidableEq W] [DecidableEq K]
  [DecidableEq T]

/-- The step from `s` to `s'` puts the barrier of `t` on a list for the instance `n` of the work `w`, which is
queued or executing. -/
inductive Flushes (cfg : WqConfig P Q G K) (s s' : WqState P Q G W K T) (t : T) (w : W) (n : ℕ) : Prop where
  | queued {q : Q} (hq : (s.core.flags (.work w)).data = .pwq q) (hn : n = s.core.ticket (.work w))
      (hc : s'.core = insertBarrierBehind cfg s.core q w t)
  | executing {k : K} {r : Running Q W T} (hk : s.core.curr k = some r) (hw : r.item = .work w)
      (hn : n = r.ticket) (hc : s'.core = insertBarrierFront cfg s.core k r t)

/-- Every maximal run of LINKED entries ends in one entry without LINKED, and all its entries but
the first are barriers that wait for the instance the first one belongs to; two queued works are
different instances. -/
structure GroupsClosed (c : Core P Q G W K T) : Prop where
  closed : ∀ pl a x b, c.lists pl = a ++ x :: b → ∃ init z, (splitRun c.linked (x :: b)).1 = init ++ [z] ∧
    (∀ y ∈ init, c.linked y = true) ∧ c.linked z = false
  one_chain : ∀ pl a x b, c.lists pl = a ++ x :: b → ∀ y ∈ (splitRun c.linked (x :: b)).1,
    c.chain y = c.chain x ∧ (y ≠ x → y.isBarrier = true)
  apart : ∀ pl pl' w w', Item.work w ∈ c.lists pl → Item.work w' ∈ c.lists pl' →
    c.chain (.work w) = c.chain (.work w') → w = w'

omit [DecidableEq P] [DecidableEq Q] [DecidableEq G] [DecidableEq W] [DecidableEq K] [DecidableEq T] in
theorem CoreInv.groupsClosed {cfg : WqConfig P Q G K} {c : Core P Q G W K T} (h : CoreInv cfg c) :
    GroupsClosed c := by
  have hrun : ∀ pl a x b, c.lists pl = a ++ x :: b → ∃ init z, (splitRun c.linked (x :: b)).1 = init ++ [z] ∧
      (∀ y ∈ init, c.linked y = true) ∧ c.linked z = false ∧
      ∀ y ∈ (splitRun c.linked (x :: b)).1, y = x ∨ c.same x y := by
    intro pl a x b hl
    have hp := h.chained.path pl
    rw [hl] at hp
    have hx : ListPath (c.linkage pl) (lastOr none a) (x :: b) none :=
      ⟨(path_append_cons.mp hp).1.last, (path_append_cons.mp hp).2⟩
    exact splitRun_closed c.same_trans hx
  refine ⟨?_, ?_, ?_⟩
  · intro pl a x b hl
    obtain ⟨init, z, h1, h2, h3, -⟩ := hrun pl a x b hl
    exact ⟨init, z, h1, h2, h3⟩
  · intro pl a x b hl y hy
    obtain ⟨-, -, -, -, -, hall⟩ := hrun pl a x b hl
    rcases hall y hy with rfl | hs
    · exact ⟨rfl, fun hne => absurd rfl hne⟩
    · exact ⟨hs.2, fun _ => hs.1⟩
  · intro pl pl' w w' hw hw' he
    have h1 := h.staged.listed _ pl hw
    have h2 := h.staged.listed _ pl' hw'
    have ht : c.ticket (.work w) = c.ticket (.work w') := he
    rw [ht, h2] at h1
    cases h1
    rfl

/-! ## The barrier of one flush -/

/-- The ticket `b` is the barrier of `t` for the instance `n`. -/
structure WaitsFor (c : Core P Q G W K T) (b n : ℕ) (t : T) : Prop where
  given : b < c.next
  begun : (c.stage b).isWaiting = false
  queued : ∀ x q, (c.flags x).data = .pwq q → c.ticket x = b → x = .barrier t ∧ c.target t = n
  executing : ∀ k r, c.curr k = some r → r.ticket = b → r.item = .barrier t ∧ r.chain = n

section WaitsFor
variable {cfg : WqConfig P Q G K} {allow : Prop} {c c' : Core P Q G W K T} {b n : ℕ} {t : T}

omit [DecidableEq P] [DecidableEq Q] [DecidableEq G] [DecidableEq W] [DecidableEq K] [DecidableEq T] in
theorem WaitsFor.frame (h : WaitsFor c b n t) (hnext : c.next ≤ c'.next)
    (hstage : (c'.stage b).isWaiting = false)
    (hdata : ∀ x q, (c'.flags x).data = .pwq q → (c.flags x).data = .pwq q)
    (hticket : c'.ticket = c.ticket) (htarget : c'.target = c.target)
    (hcurr : ∀ k r, c'.curr k = some r → ∃ r0, c.curr k = some r0 ∧ r.item = r0.item ∧ r.ticket = r0.ticket ∧
      r.chain = r0.chain) : WaitsFor c' b n t where
  given := lt_of_lt_of_le h.given hnext
  begun := hstage
  queued := by
    intro x q hq hb
    rw [htarget]
    exact h.queued x q (hdata x q hq) (hticket ▸ hb)
  executing := by
    intro k r hr hb
    obtain ⟨r0, h0, h1, h2, h3⟩ := hcurr k r hr
    rw [h1, h3]
    exact h.executing k r0 h0 (h2 ▸ hb)

omit [DecidableEq P] [DecidableEq Q] [DecidableEq G] [DecidableEq K] in
theorem WaitsFor.inserted (h : WaitsFor c b n t) {x : Item W T} {pl : Place P Q K} {q : Q} {m : ℕ}
    (hi : Inserted cfg c c' x pl q m) (hm : m ≠ b)
    (htarget : ∀ u, x ≠ .barrier u → c'.target u = c.target u) :
    WaitsFor c' b n t where
  given := lt_of_lt_of_le h.given hi.next_le
  begun := by
    rw [hi.stage, Function.update_of_ne (Ne.symm hm)]
    exact h.begun
  queued := by
    intro y q' hq hb
    have hyx : y ≠ x := by
      rintro rfl
      rw [hi.ticket, Function.update_self] at hb
      exact hm hb
    rw [hi.ticket, Function.update_of_ne hyx] at hb
    rw [(hi.flags y hyx).1.1] at hq
    obtain ⟨hy, hn⟩ := h.queued y q' hq hb
    exact ⟨hy, (htarget t (hy ▸ hyx.symm)).trans hn⟩
  executing := by
    intro k r hr hb
    exact h.executing k r (hi.curr ▸ hr) hb

omit [DecidableEq P] [DecidableEq Q] [DecidableEq G] [DecidableEq W] [DecidableEq K] [DecidableEq T] in
theorem isWaiting_update {st : Stage W T K} {m : ℕ} (h : (c.stage b).isWaiting = false)
    (hst : st.isWaiting = false)
    (hs : c'.stage = Function.update c.stage m st) : (c'.stage b).isWaiting = false := by
  rw [hs]
  by_cases hb : b = m
  · rw [hb, Function.update_self]
    exact hst
  · rw [Function.update_of_ne hb]
    exact h

theorem WaitsFor.move (hc : CoreInv cfg c) (h : WaitsFor c b n t) (hm : CoreMove cfg allow c c') :
    WaitsFor c' b n t := by
  have hself : ∀ k r, c.curr k = some r → ∃ r0, c.curr k = some r0 ∧ r.item = r0.item ∧ r.ticket = r0.ticket ∧
      r.chain = r0.chain := fun k r hr => ⟨r, hr, rfl, rfl, rfl⟩
  cases hm with
  | base q hb => exact h.frame (le_refl _) h.begun (fun _ _ hq => hq) rfl rfl hself
  | refcnt ha q v => exact h.frame (le_refl _) h.begun (fun _ _ hq => hq) rfl rfl hself
  | @word w f hw hf =>
    refine h.frame (le_refl _) h.begun (fun x q hq => ?_) rfl rfl hself
    have hne : x ≠ .work w := by
      rintro rfl
      simp only [Core.setFlags, Function.update_self] at hq
      exact hf q hq
    simpa only [Core.setFlags, Function.update_of_ne hne] using hq
  | @restage m m' st hn hlt hle =>
    have hne : b ≠ m := by
      rintro rfl
      rw [h.begun] at hn
      exact Bool.noConfusion hn
    refine h.frame hle ?_ (fun _ _ hq => hq) rfl rfl hself
    simp only [Function.update_of_ne hne]
    exact h.begun
  | @queue q w m u hw hn =>
    refine h.inserted (queueInsert_inserted hc hw hn) ?_ (fun _ _ => rfl)
    rintro rfl
    have := h.begun
    rw [hn] at this
    exact Bool.noConfusion this
  | @behind q w u hq hu =>
    obtain ⟨pl, -, hi⟩ := insertBarrierBehind_inserted hc hq hu
    refine h.inserted hi h.given.ne' fun v hv => ?_
    have hvu : v ≠ u := fun he => hv (he ▸ rfl)
    simp [insertBarrierBehind, startBarrier, insertWork, pwqIncNrInFlight, hvu]
  | @front k r u hk hu =>
    refine h.inserted (insertBarrierFront_inserted hc hk hu) h.given.ne' fun v hv => ?_
    have hvu : v ≠ u := fun he => hv (he ▸ rfl)
    simp [insertBarrierFront, startBarrier, insertWork, pwqIncNrInFlight, hvu]
  | @pick k c' hp =>
    obtain ⟨c1, hr, hc'⟩ := (picks_of_pickWork hc hp).2
    have h1 : WaitsFor c1 b n t := by
      rw [hr.eq]
      exact ⟨h.given, h.begun, h.queued, h.executing⟩
    rcases hc' with rfl | ⟨src, x, q, hs, rfl⟩
    · exact h1
    · refine ⟨h1.given,
        isWaiting_update h1.begun (show Stage.isWaiting (.running k) = false from rfl) rfl, ?_, ?_⟩
      · intro y q' hq hb
        have hne : y ≠ x := by
          rintro rfl
          simp [startWork, workFlags] at hq
        simp only [startWork, Function.update_of_ne hne] at hq
        exact h1.queued y q' hq hb
      · intro k' r hr' hb
        by_cases hk : k' = k
        · subst hk
          simp only [startWork, Function.update_self, Option.some.injEq] at hr'
          subst hr'
          obtain ⟨hx, hn⟩ := h1.queued x q hs.data hb
          subst hx
          exact ⟨rfl, hn⟩
        · simp only [startWork, Function.update_of_ne hk] at hr'
          exact h1.executing k' r hr' hb
  | @called k r hk =>
    refine h.frame (le_refl _) h.begun (fun _ _ hq => hq) rfl rfl fun k' r' hr' => ?_
    obtain ⟨r0, h0, h1, -, -, h2, h3⟩ := curr_called hk hr'
    exact ⟨r0, h0, h1, h2, h3⟩
  | @finish k r hk =>
    have hd := decFrame_pwqDecNrInFlight cfg { c with
      curr := Function.update c.curr k none, stage := Function.update c.stage r.ticket .finished }
        r.pwq r.barrier
    refine h.frame (le_of_eq hd.next.symm)
      (isWaiting_update h.begun (show Stage.isWaiting .finished = false from rfl)
      hd.stage) (fun x q hq => (hd.word x).data ▸ hq) hd.ticket hd.target fun k' r' hr' => ?_
    have hr1 : Function.update c.curr k none k' = some r' := (congrFun hd.curr k').symm.trans hr'
    have hne : k' ≠ k := by
      rintro rfl
      simp at hr1
    rw [Function.update_of_ne hne] at hr1
    exact ⟨r', hr1, rfl, rfl, rfl⟩
  | @grab q w hq =>
    have hg := grabFrame hc hq
    refine h.frame (le_of_eq hg.next.symm)
      (isWaiting_update h.begun (show Stage.isWaiting .cancelled = false from rfl)
      hg.stage) (fun x q' hq' => ?_) hg.ticket hg.target fun k r hr => hself k r (hg.curr ▸ hr)
    by_cases hx : x = .work w
    · subst hx
      simp [hg.self, workFlags] at hq'
    · exact (hg.word x hx).data ▸ hq'

theorem WaitsFor.effect {s s' : WqState P Q G W K T} (hctl : Ctl cfg s) (h : WaitsFor s.core b n t)
    (he : Effect cfg s s') : WaitsFor s'.core b n t := by
  have hmove : ∀ c c' : Core P Q G W K T, CoreInv cfg c → WaitsFor c b n t →
      CoreMove cfg (Foreign s) c c' → WaitsFor c' b n t :=
    fun c c' hc hi hm => hi.move hc hm
  exact effect_invariant hmove hctl he h

theorem Flushes.waitsFor {s s' : WqState P Q G W K T} {w : W} (hc : CoreInv cfg s.core)
    (h : Flushes cfg s s' t w n)
    (ht : ∀ q, (s.core.flags (.barrier t)).data ≠ .pwq q) :
    WaitsFor s'.core (s'.core.ticket (.barrier t)) n t := by
  -- the new ticket is one that no queued or executing item had
  have hfresh := hc.staged.fresh s.core.next (le_refl _)
  have hqueued : ∀ (x : Item W T) q, (s.core.flags x).data = .pwq q → s.core.ticket x ≠ s.core.next := by
    intro x q hq he
    obtain ⟨pl, hpl⟩ := (hc.layout.situated x).queued q hq
    have := hc.staged.listed x pl hpl
    rw [he, hfresh] at this
    cases this
  have hrunning : ∀ k r, s.core.curr k = some r → r.ticket ≠ s.core.next := by
    intro k r hr he
    have := hc.staged.running k r hr
    rw [he, hfresh] at this
    cases this
  have hins : ∀ {c' : Core P Q G W K T} {pl : Place P Q K} {q : Q},
      Inserted cfg s.core c' (.barrier t) pl q s.core.next → c'.target t = n →
      WaitsFor c' (c'.ticket (.barrier t)) n t := by
    intro c' pl q hi htarget
    have hticket : c'.ticket (.barrier t) = s.core.next := by rw [hi.ticket, Function.update_self]
    rw [hticket]
    refine ⟨hi.next_lt, ?_, ?_, ?_⟩
    · rw [hi.stage, Function.update_self]
      rfl
    · intro x q' hq hb
      by_cases hx : x = .barrier t
      · exact ⟨hx, htarget⟩
      · rw [hi.ticket, Function.update_of_ne hx] at hb
        rw [(hi.flags x hx).1.1] at hq
        exact absurd hb (hqueued x q' hq)
    · intro k r hr hb
      exact absurd hb (hrunning k r (hi.curr ▸ hr))
  cases h with
  | @queued q hq hn hc' =>
    obtain ⟨pl, -, hi⟩ := insertBarrierBehind_inserted hc hq ht
    rw [hc']
    refine hins hi ?_
    rw [hn]
    simp [insertBarrierBehind, startBarrier]
  | @executing k r hk hw hn hc' =>
    rw [hc']
    refine hins (insertBarrierFront_inserted hc hk ht) ?_
    rw [hn]
    simp [insertBarrierFront, startBarrier]

end WaitsFor

/-! ## Whole runs -/

section Runs
variable {cfg : WqConfig P Q G K}

theorem flushExecuting_flushes {s s' : WqState P Q G W K T} {t : T} {w : W} {cancel : Bool} {p : P}
    (h : flushExecuting cfg s t w cancel p = some s') (hw : (s'.pc t).isWait = true) :
    ∃ n, Flushes cfg s s' t w n := by
  unfold flushExecuting at h
  cases hf : findWorkerExecutingWork cfg s.core p (.work w) with
  | none =>
    simp only [hf, Option.some.injEq] at h
    subst h
    simp only [WqState.setPc, Function.update_self, isWait_afterFlush] at hw
    exact Bool.noConfusion hw
  | some k =>
    obtain ⟨-, r, hr, hi⟩ := findWorker_some hf
    simp only [hf, hr] at h
    split at h
    · cases h
    · cases h
      exact ⟨r.ticket, .executing hr hi rfl rfl⟩

theorem flushExecuting_pc {s s' : WqState P Q G W K T} {t : T} {w : W} {cancel : Bool} {p : P}
    (h : flushExecuting cfg s t w cancel p = some s') (hw : (s'.pc t).isWait = true) :
    s'.pc t = .flushWait w cancel := by
  unfold flushExecuting at h
  split at h
  · cases h
    simp only [WqState.setPc, Function.update_self, isWait_afterFlush] at hw
    exact Bool.noConfusion hw
  · split at h
    · split at h
      · cases h
      · cases h
        simp
    · cases h

/-- When `start_flush_work` returns true, the barrier is in for a queued or executing instance. -/
theorem flushLock_flushes {s s' : WqState P Q G W K T} {t : T} {w : W} {cancel : Bool}
    (h : wqStep cfg s (.sync (.flushLock t)) = some s') (hw : s'.pc t = .flushWait w cancel) :
    (s.pc t).isWait = false ∧ ∃ n, Flushes cfg s s' t w n := by
  have hwait : (s'.pc t).isWait = true := by
    rw [hw]
    rfl
  simp only [wqStep, syncStep] at h
  split at h
  · rename_i v c p hpc
    refine ⟨by rw [hpc]; rfl, ?_⟩
    -- the thread waits for the work it flushes
    have hv : (∃ n, Flushes cfg s s' t v n) ∧ (s'.pc t = .flushWait v c) := by
      split at h
      · rename_i q hq
        split at h
        · split at h
          · exact ⟨flushExecuting_flushes h hwait, flushExecuting_pc h hwait⟩
          · cases h
            exact ⟨⟨_, .queued hq rfl rfl⟩, by simp⟩
        · cases h
          simp only [WqState.setPc, Function.update_self] at hwait
          exact Bool.noConfusion hwait
      · exact ⟨flushExecuting_flushes h hwait, flushExecuting_pc h hwait⟩
    rw [hv.2] at hw
    cases hw
    exact hv.1
  · cases h

/-- In every reachable state the groups of LINKED entries are closed and belong to one instance, and a worker
that executes the barrier of a flush does so after the instance the flush found is over. -/
theorem flush_after_instance (cfg : WqConfig P Q G K) (as : List (WqAct Q G W K T)) (s : WqState P Q G W K T)
    (hr : runActs (wqStep cfg) wqInit as = some s) :
    GroupsClosed s.core ∧
      ∀ as1 as2 t w cancel s0 s1, as = as1 ++ .sync (.flushLock t) :: as2 →
        runActs (wqStep cfg) wqInit as1 = some s0 →
        wqStep cfg s0 (.sync (.flushLock t)) = some s1 → s1.pc t = .flushWait w cancel →
        ∃ n, Flushes cfg s0 s1 t w n ∧ ∀ k r, s.core.curr k = some r →
          r.ticket = s1.core.ticket (.barrier t) →
          s.core.stage n = .finished ∨ s.core.stage n = .cancelled := by
  refine ⟨(ctl_run hr).core.groupsClosed, ?_⟩
  intro as1 as2 t w cancel s0 s1 has h0 h1 hw
  have hctl := ctl_run h0
  obtain ⟨hnot, n, hn⟩ := flushLock_flushes h1 hw
  refine ⟨n, hn, ?_⟩
  have hrest : runActs (wqStep cfg) s1 as2 = some s := by
    rw [has, runActs_append, h0, Option.bind_some, runActs, h1, Option.bind_some] at hr
    exact hr
  have hstart : Ctl cfg s1 ∧ WaitsFor s1.core (s1.core.ticket (.barrier t)) n t :=
    ⟨ctl_effect hctl (wqStep_effect h1), hn.waitsFor hctl.core fun q => hctl.barrier_free hnot q⟩
  have hstep : ∀ (s' : WqState P Q G W K T) (a : WqAct Q G W K T) (s'' : WqState P Q G W K T),
      Ctl cfg s' ∧ WaitsFor s'.core (s1.core.ticket (.barrier t)) n t → True → wqStep cfg s' a = some s'' →
      Ctl cfg s'' ∧ WaitsFor s''.core (s1.core.ticket (.barrier t)) n t := fun s' a s'' h _ hs =>
    ⟨ctl_effect h.1 (wqStep_effect hs), h.2.effect h.1 (wqStep_effect hs)⟩
  have hend := run_invariant hstep as2 s1 s hstart (runMeets_trivial as2 s1) hrest
  intro k r hk hb
  obtain ⟨hitem, hchain⟩ := hend.2.executing k r hk hb
  have hover := hend.1.core.chained.running_over k r hk (by rw [hitem]; rfl)
  rw [hchain] at hover
  revert hover
  unfold Core.over
  cases s.core.stage n <;> simp [Stage.isOver]

/-- A work is queued and a flush of it has read its pool. -/
def queueAndFlush : List (WqAct Unit Unit Unit Unit Unit) :=
  [.queue (.queueWork () () ()), .queue (.select () () false), .queue (.lockLast ()), .queue (.switchLock ()),
   .sync (.flush () ()), .sync (.flushRead ())]

/-- The worker executes the work and then the barrier. -/
def runFlushed : List (WqAct Unit Unit Unit Unit Unit) :=
  [.worker (.pick ()), .worker (.finish ()), .worker (.pick ())]

theorem flush_after_instance_runFlushed :
    ∃ s0 s1 s, runActs (wqStep onePool) wqInit queueAndFlush = some s0 ∧
      wqStep onePool s0 (.sync (.flushLock ())) = some s1 ∧ s1.pc () = .flushWait () false ∧
      runActs (wqStep onePool) wqInit (queueAndFlush ++ .sync (.flushLock ()) :: runFlushed) = some s ∧
      (∃ r, s.core.curr () = some r ∧ r.ticket = s1.core.ticket (.barrier ())) ∧
      ∃ n, Flushes onePool s0 s1 () () n ∧ (s.core.stage n = .finished ∨ s.core.stage n = .cancelled) := by
  refine ⟨_, _, _, rfl, rfl, rfl, rfl, ⟨_, rfl, rfl⟩, ?_⟩
  obtain ⟨n, hn, hover⟩ :=
    (flush_after_instance onePool (queueAndFlush ++ .sync (.flushLock ()) :: runFlushed) _
    (by rfl)).2 queueAndFlush runFlushed () () false _ _ rfl (by rfl) (by rfl) (by rfl)
  exact ⟨n, hn, hover () _ rfl rfl⟩

end Runs

end Skp.Workqueue
