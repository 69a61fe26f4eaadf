import Skp.Workqueue.Control

/-! # Reachable states

What the threads do to the pools is a sequence of the operations of `Model`, each in a state where its
condition holds: `CoreMove`. An invariant of these moves is an invariant of all runs. -/
namespace Skp.Workqueue
set_option autoImplicit false
open Skp.Foundations

variable {P Q G W K T : Type} [DecidableEq P] [DecidableEq Q] [DecidableEq G] [DecidableEq W] [DecidableEq K]
  [DecidableEq T]

/-- One operation; a store to a counter of a foreign pool_workqueue only when `allow` holds. -/
inductive CoreMove (cfg : WqConfig P Q G K) (allow : Prop) (c : Core P Q G W K T) :
    Core P Q G W K T → Prop where
  | base (q : Q) (hb : c.baseRef q = 1) : CoreMove cfg allow c { c with
      baseRef := Function.update c.baseRef q 0
      refcnt := Function.update c.refcnt q (c.refcnt q - 1) }
  | refcnt (ha : allow) (q : Q) (v : ℤ) :
      CoreMove cfg allow c { c with refcnt := Function.update c.refcnt q v }
  | word {w : W} {f : WorkFlags P Q} (hw : ∀ q, (c.flags (.work w)).data ≠ .pwq q)
      (hf : ∀ q, f.data ≠ .pwq q) :
      CoreMove cfg allow c (c.setFlags w f)
  | restage {n m : ℕ} {st : Stage W T K} (hn : (c.stage n).isWaiting = true) (hlt : n < m)
      (hle : c.next ≤ m) :
      CoreMove cfg allow c { c with stage := Function.update c.stage n st, next := m }
  | queue {q : Q} {w : W} {n : ℕ} {t : T} (hw : ∀ q, (c.flags (.work w)).data ≠ .pwq q)
      (hn : c.stage n = .held t) :
      CoreMove cfg allow c (queueInsert cfg c q w n)
  | behind {q : Q} {w : W} {t : T} (hq : (c.flags (.work w)).data = .pwq q)
      (ht : ∀ q, (c.flags (.barrier t)).data ≠ .pwq q) : CoreMove cfg allow c
        (insertBarrierBehind cfg c q w t)
  | front {k : K} {r : Running Q W T} {t : T} (hk : c.curr k = some r)
      (ht : ∀ q, (c.flags (.barrier t)).data ≠ .pwq q) : CoreMove cfg allow c (insertBarrierFront cfg c k r t)
  | pick {k : K} {c' : Core P Q G W K T} (hp : pickWork cfg c k = some c') : CoreMove cfg allow c c'
  | called {k : K} {r : Running Q W T} (hk : c.curr k = some r) :
      CoreMove cfg allow c { c with curr := Function.update c.curr k (some { r with called := true }) }
  | finish {k : K} {r : Running Q W T} (hk : c.curr k = some r) : CoreMove cfg allow c (finishWork cfg c k r)
  | grab {q : Q} {w : W} (hq : (c.flags (.work w)).data = .pwq q) :
      CoreMove cfg allow c (grabQueued cfg c q w)

section Moves
variable {cfg : WqConfig P Q G K} {allow : Prop} {c c' : Core P Q G W K T}

omit [DecidableEq P] [DecidableEq Q] [DecidableEq G] [DecidableEq W] [DecidableEq T] in
theorem curr_called {k : K} {r : Running Q W T} (hk : c.curr k = some r) {k' : K} {r' : Running Q W T}
    (hr' : Function.update c.curr k (some { r with called := true }) k' = some r') :
    ∃ r0, c.curr k' = some r0 ∧ r'.item = r0.item ∧ r'.pwq = r0.pwq ∧ r'.barrier = r0.barrier ∧
      r'.ticket = r0.ticket ∧ r'.chain = r0.chain := by
  by_cases hne : k' = k
  · subst hne
    rw [Function.update_self, Option.some.injEq] at hr'
    subst hr'
    exact ⟨r, hk, rfl, rfl, rfl, rfl, rfl⟩
  · rw [Function.update_of_ne hne] at hr'
    exact ⟨r', hr', rfl, rfl, rfl, rfl, rfl⟩

omit [DecidableEq P] [DecidableEq Q] [DecidableEq G] [DecidableEq W] [DecidableEq T] in
theorem coreInv_called (h : CoreInv cfg c) {k : K} {r : Running Q W T} (hk : c.curr k = some r) :
    CoreInv cfg { c with curr := Function.update c.curr k (some { r with called := true }) } := by
  have hchain : Core.chain
      { c with curr := Function.update c.curr k (some { r with called := true }) } = c.chain := by
    funext y
    cases y with
    | work v => rfl
    | barrier u => rfl
  refine ⟨⟨h.layout.nodup, ?_, ?_, ?_, ?_⟩, ⟨?_, ?_⟩, ⟨h.staged.listed, ?_, h.staged.fresh, h.staged.calls_le,
    h.staged.calls_zero⟩⟩
  · exact fun x => (h.layout.situated x).congr (fun _ => Iff.rfl) (SameWord.refl _) rfl
  · intro k' r' hr'
    obtain ⟨r0, h0, -, hq, -⟩ := curr_called hk hr'
    rw [hq]
    exact h.layout.running_pool k' r0 h0
  · intro k' r' hr'
    obtain ⟨r0, h0, hi, -, hb, -⟩ := curr_called hk hr'
    rw [hb, hi]
    exact h.layout.running_bit k' r0 h0
  · intro k1 k2 r1 r2 h1 h2 hitem
    obtain ⟨r01, h01, hi1, -⟩ := curr_called hk h1
    obtain ⟨r02, h02, hi2, -⟩ := curr_called hk h2
    exact h.layout.running_unique k1 k2 r01 r02 h01 h02 (hi1.symm.trans (hitem.trans hi2))
  · intro pl
    refine (h.chained.path pl).relink (fun _ _ => rfl) (fun y z _ _ hs => ⟨hs.1, ?_⟩)
      (fun y _ hy => ⟨hy.1, ?_⟩)
    · rw [hchain]
      exact hs.2
    · have h2 := hy.2
      cases pl with
      | worklist p => simpa only [hchain, Core.over] using h2
      | delayed q => trivial
      | scheduled k' =>
        refine ⟨by simpa only [hchain, Core.over] using h2.1, fun r0 h0 => ?_⟩
        rw [← hchain]
        by_cases hne : k' = k
        · subst hne
          rw [hk] at h0
          cases h0
          exact h2.2 { r with called := true } (by simp)
        · exact h2.2 r0 (by simpa [hne] using h0)
  · intro k' r' hr' hb
    obtain ⟨r0, h0, hi, -, -, -, hch⟩ := curr_called hk hr'
    rw [hch]
    exact h.chained.running_over k' r0 h0 (hi ▸ hb)
  · intro k' r' hr'
    obtain ⟨r0, h0, -, -, -, ht, -⟩ := curr_called hk hr'
    rw [ht]
    exact h.staged.running k' r0 h0

omit [DecidableEq P] [DecidableEq Q] [DecidableEq G] [DecidableEq K] in
theorem coreInv_setFlags (h : CoreInv cfg c) {w : W} {f : WorkFlags P Q}
    (hw : ∀ q, (c.flags (.work w)).data ≠ .pwq q)
    (hf : ∀ q, f.data ≠ .pwq q) : CoreInv cfg (c.setFlags w f) := by
  refine h.congr ⟨rfl, rfl, rfl, rfl, rfl, rfl, rfl⟩ ?_ ?_
  · intro x pl hx
    have hne : x ≠ .work w := by
      rintro rfl
      exact h.layout.unlisted hw pl hx
    simp only [Core.setFlags, Function.update_of_ne hne]
  · intro x hx q hq
    by_cases hne : x = .work w
    · subst hne
      simp only [Core.setFlags, Function.update_self] at hq
      exact hf q hq
    · simp only [Core.setFlags, Function.update_of_ne hne] at hq
      obtain ⟨pl, hpl⟩ := (h.layout.situated x).queued q hq
      exact hx pl hpl

theorem CoreMove.coreInv (hm : CoreMove cfg allow c c') (h : CoreInv cfg c) : CoreInv cfg c' := by
  cases hm with
  | base q hb => exact h.counters ⟨rfl, rfl, rfl, rfl, rfl, rfl, rfl⟩ rfl
  | refcnt ha q v => exact h.counters ⟨rfl, rfl, rfl, rfl, rfl, rfl, rfl⟩ rfl
  | word hw hf => exact coreInv_setFlags h hw hf
  | restage hn hlt hle => exact h.restage hn hlt hle _
  | queue hw hn => exact (queueInsert_inserted h hw hn).coreInv h
  | behind hq ht =>
    obtain ⟨pl, -, hi⟩ := insertBarrierBehind_inserted h hq ht
    exact hi.coreInv h
  | front hk ht => exact (insertBarrierFront_inserted h hk ht).coreInv h
  | pick hp => exact (picks_of_pickWork h hp).2.coreInv
  | called hk => exact coreInv_called h hk
  | finish hk => exact coreInv_finishWork h hk
  | grab hq => exact coreInv_grabQueued h hq

end Moves

/-! ## The steps of the threads as moves -/

/-- Some thread is between the loads and stores of a foreign counter. -/
def Foreign (s : WqState P Q G W K T) : Prop := ∃ t q f back, s.pc t = .foreign q f back

structure Ctl (cfg : WqConfig P Q G K) (s : WqState P Q G W K T) : Prop where
  core : CoreInv cfg s.core
  owning : Owning s
  barriers : Barriers s

section Steps
variable {cfg : WqConfig P Q G K} {s s' : WqState P Q G W K T}

omit [DecidableEq P] [DecidableEq Q] [DecidableEq G] [DecidableEq W] [DecidableEq K] [DecidableEq T] in
theorem Ctl.lt_next (h : Ctl cfg s) {n : ℕ} (hn : s.core.stage n ≠ .unused) : n < s.core.next := by
  by_contra hge
  exact hn (h.core.staged.fresh n (not_lt.mp hge))

theorem Ctl.move_setStage (h : Ctl cfg s) {n : ℕ} {st : Stage W T K}
    (hn : (∃ t, s.core.stage n = .held t) ∨ ∃ w, s.core.stage n = .timer w) :
    CoreMove cfg (Foreign s) s.core (s.core.setStage n st) := by
  have hlt : n < s.core.next := by
    refine h.lt_next ?_
    rcases hn with ⟨t, ht⟩ | ⟨w, hw⟩
    · simp [ht]
    · simp [hw]
  refine .restage ?_ hlt (le_refl _)
  rcases hn with ⟨t, ht⟩ | ⟨w, hw⟩
  · rw [ht]
    rfl
  · rw [hw]
    rfl

omit [DecidableEq P] [DecidableEq Q] [DecidableEq G] [DecidableEq W] [DecidableEq K] [DecidableEq T] in
theorem Ctl.barrier_free (h : Ctl cfg s) {t : T} (ht : (s.pc t).isWait = false) (q : Q) :
    (s.core.flags (.barrier t)).data ≠ .pwq q := by
  intro hq
  rw [(h.barriers.listed t q hq).1] at ht
  exact Bool.noConfusion ht

theorem effect_core (h : Ctl cfg s) (he : Effect cfg s s') :
    Relation.ReflTransGen (CoreMove cfg (Foreign s)) s.core s'.core := by
  have hfresh : (s.core.stage s.core.next).isWaiting = true := by
    rw [h.core.staged.fresh _ (le_refl _)]
    rfl
  cases he with
  | env d e => exact .refl
  | dropBase q hb => exact .single (.base q hb)
  | move hm => exact .refl
  | call hpc => exact .refl
  | @begin t w g hpc hp =>
    have hd := fun q => data_of_free h.core hp q
    have hword : CoreMove cfg (Foreign s) s.core
        (s.core.setFlags w { s.core.flags (.work w) with pending := true }) := .word hd hd
    refine Relation.ReflTransGen.tail (.single hword) ?_
    exact CoreMove.restage (c := s.core.setFlags w _) hfresh (Nat.lt_succ_self _) (Nat.le_succ _)
  | modDelayed hpc hm =>
    exact .single (.restage hfresh (Nat.lt_succ_self _) (Nat.le_succ _))
  | @arm t w g n hpc => exact .single (h.move_setStage (Or.inl ⟨t, h.owning.held t w n (by rw [hpc]; rfl)⟩))
  | @armFail t w g n hpc =>
    exact .single (h.move_setStage (Or.inl ⟨t, h.owning.held t w n (by rw [hpc]; rfl)⟩))
  | @fire t w g n hpc ht => exact .single (h.move_setStage (Or.inr ⟨w, (h.owning.timer w g n ht).2⟩))
  | @fail t w n hpc =>
    have hd := (h.owning.own t w (Pc.owns_of_held hpc)).1.2
    have hs := h.owning.held t w n hpc
    have hwait : (s.core.stage n).isWaiting = true := by
      rw [hs]
      rfl
    have hlt : n < s.core.next := h.lt_next (by simp [hs])
    have hword : CoreMove cfg (Foreign s) s.core
        (s.core.setFlags w { s.core.flags (.work w) with pending := false }) := .word hd hd
    refine Relation.ReflTransGen.tail (.single hword) ?_
    exact CoreMove.restage (c := s.core.setFlags w _) hwait hlt (le_refl _)
  | @insert t w q n hi hr =>
    have hd := (h.owning.own t w (Pc.owns_of_held hi.held)).1.2
    exact .single (.queue hd (h.owning.held t w n hi.held))
  | @grabTimer t w m g n hpc ht => exact .single (h.move_setStage (Or.inr ⟨w, (h.owning.timer w g n ht).2⟩))
  | grabBit hpc hp =>
    have hd := fun q => data_of_free h.core hp q
    exact .single (.word hd hd)
  | grabQueued hpc hq hr => exact .single (.grab hq)
  | foreignGet hpc => exact .single (.refcnt ⟨_, _, _, _, hpc⟩ _ _)
  | foreignPut hpc => exact .single (.refcnt ⟨_, _, _, _, hpc⟩ _ _)
  | foreignFlush hpc => exact .single (.refcnt ⟨_, _, _, _, hpc⟩ _ _)
  | @finish t w m hpc hm =>
    exact .single (.word (h.owning.own t w (by rw [hpc]; rfl)).1.2 fun q => keepPool_ne cfg _ q)
  | @mark t w m hpc hm =>
    exact .single (.word (h.owning.own t w (by rw [hpc]; rfl)).1.2 fun q => keepPool_ne cfg _ q)
  | behind hpc hq hr => exact .single (.behind hq fun q => h.barrier_free (by rw [hpc]; rfl) q)
  | front hpc hk hw hr => exact .single (.front hk fun q => h.barrier_free (by rw [hpc]; rfl) q)
  | @clear t w hpc =>
    exact .single (.word (h.owning.own t w (by rw [hpc]; rfl)).1.2 fun q => by simp [workFlags])
  | @wake t w hpc =>
    have hw := (wakeFrame_wakeUpOne w s.waitq s).core
    show Relation.ReflTransGen _ s.core (wakeUpOne s w s.waitq).core
    rw [hw]
  | waitPrep hpc => exact .refl
  | waitCheck hpc hc => exact .refl
  | finishWait hpc => exact .refl
  | pick hp => exact .single (.pick hp)
  | complete hk hi hcl => exact .single (.called hk)
  | workDone hk hcl => exact .single (.finish hk)

theorem moves_invariant {allow : Prop} {Inv : Core P Q G W K T → Prop}
    (hstep : ∀ c c', CoreInv cfg c → Inv c → CoreMove cfg allow c c' → Inv c') {c c' : Core P Q G W K T}
    (hm : Relation.ReflTransGen (CoreMove cfg allow) c c') (hc : CoreInv cfg c) (hi : Inv c) :
    CoreInv cfg c' ∧ Inv c' := by
  induction hm with
  | refl => exact ⟨hc, hi⟩
  | tail _ hmove ih => exact ⟨hmove.coreInv ih.1, hstep _ _ ih.1 ih.2 hmove⟩

theorem effect_invariant {Inv : Core P Q G W K T → Prop}
    (hstep : ∀ c c', CoreInv cfg c → Inv c → CoreMove cfg (Foreign s) c c' → Inv c') (h : Ctl cfg s)
    (he : Effect cfg s s') (hi : Inv s.core) : Inv s'.core :=
  (moves_invariant hstep (effect_core h he) h.core hi).2

theorem ctl_effect (h : Ctl cfg s) (he : Effect cfg s s') : Ctl cfg s' where
  core := (moves_invariant (fun _ _ _ _ _ => trivial) (effect_core h he) h.core trivial).1
  owning := owning_effect h.core h.owning he
  barriers := barriers_effect h.core h.owning h.barriers he

omit [DecidableEq P] [DecidableEq Q] [DecidableEq G] [DecidableEq W] [DecidableEq K] [DecidableEq T] in
theorem ctl_init (cfg : WqConfig P Q G K) : Ctl cfg (wqInit : WqState P Q G W K T) where
  core := coreInv_init cfg (fun _ => rfl) (fun _ => rfl) (fun _ => rfl) (fun _ => rfl) (fun _ => rfl)
  owning :=
    { own := fun t w ht => nomatch ht
      own_unique := fun t u w ht => nomatch ht
      held := fun t w n ht => nomatch ht
      timer := fun w g n ht => nomatch ht }
  barriers :=
    { listed := fun t q hq => nomatch hq
      running := fun t k hk => by
        obtain ⟨r, hr, -⟩ := hk
        exact nomatch hr
      once := fun t k k' hk => by
        obtain ⟨r, hr, -⟩ := hk
        exact nomatch hr
      chain := fun k r t hr => nomatch hr
      done_over := fun t ht => nomatch ht }

theorem ctl_run {as : List (WqAct Q G W K T)} (hr : runActs (wqStep cfg) wqInit as = some s) : Ctl cfg s :=
  run_invariant (fun _ _ _ h _ hs => ctl_effect h (wqStep_effect hs)) as wqInit s (ctl_init cfg)
    (runMeets_trivial as wqInit) hr

end Steps

/-! ## Small systems -/

/-- One pool, one worker and one pool_workqueue with `max_active` 1. -/
def onePool : WqConfig Unit Unit Unit Unit where
  poolOf := fun _ => ()
  wqOf := fun _ => ()
  maxActive := fun _ => 1
  workerPool := fun _ => ()
  workers := [()]
  workers_all := fun _ => List.mem_singleton.mpr rfl

/-- Two pools with one worker each, and one workqueue with a pool_workqueue for each pool. -/
def twoPools : WqConfig Bool Bool Unit Bool where
  poolOf := id
  wqOf := fun _ => ()
  maxActive := fun _ => 1
  workerPool := id
  workers := [true, false]
  workers_all := by decide

end Skp.Workqueue
