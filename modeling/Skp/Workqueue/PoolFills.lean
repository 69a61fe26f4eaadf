import Skp.Workqueue.PoolModel
import Skp.Workqueue.CounterRuns

/-! # What fills a worklist

The worklist of a pool stays empty except for three kinds of steps: those that reach `insert_work`,
the end of a work, and a cancel that brings in the barriers behind a delayed work or the next
delayed work. -/
namespace Skp.Workqueue
set_option autoImplicit false
open Skp.Foundations

variable {P Q G W K T : Type} [DecidableEq P]

/-- The cancel of a queued work brings in entries of the delayed list. -/
def grabActivates (cfg : WqConfig P Q G K) (c : Core P Q G W K T) (q : Q) (w : W) : Bool :=
  if (c.flags (.work w)).delayed then c.linked (.work w)
  else !(c.lists (.delayed q)).isEmpty && decide (c.nrActive q - 1 < cfg.maxActive q)

/-- The pool whose worklist the cancel of a queued work may fill. -/
def grabFills (cfg : WqConfig P Q G K) (s : WqState P Q G W K T) (t : T) : Option P :=
  match s.pc t with
  | .grabLock w _ p =>
      match (s.core.flags (.work w)).data with
      | .pwq q =>
          if cfg.poolOf q = p ∧ 1 ≤ s.core.refcnt q ∧ grabActivates cfg s.core q w = true then
            some p else none
      | _ => none
  | _ => none

/-- The pool whose worklist a step may fill. -/
def fillsAt [DecidableEq T] [DecidableEq W] [DecidableEq G] (cfg : WqConfig P Q G K)
    (s : WqState P Q G W K T) (a : WqAct Q G W K T) : Option P :=
  match a with
  | .cancel (.grabLock t) => grabFills cfg s t
  | .worker (.finish k) => (s.core.curr k).map fun r => cfg.poolOf r.pwq
  | a => (insertsAt cfg s a).map Prod.snd

section Fills
variable {cfg : WqConfig P Q G K} {c c' : Core P Q G W K T} {s s' : WqState P Q G W K T} {p : P}

omit [DecidableEq P] in
theorem pending_iff : c.pending p = true ↔ c.lists (.worklist p) ≠ [] := by
  rw [Core.pending, Bool.not_eq_true', List.isEmpty_eq_false_iff]

omit [DecidableEq P] in
theorem pending_false_iff : c.pending p = false ↔ c.lists (.worklist p) = [] := by
  rw [Core.pending, Bool.not_eq_false', List.isEmpty_iff]

/-- The works that run are the same, and an empty worklist is filled at `fills` at most. -/
structure KeepsEmpty (c c' : Core P Q G W K T) (fills : Option P) : Prop where
  curr : c'.curr = c.curr
  empty : ∀ p, c.lists (.worklist p) = [] → c'.lists (.worklist p) = [] ∨ fills = some p

omit [DecidableEq P] in
theorem KeepsEmpty.same {fills : Option P} (hcurr : c'.curr = c.curr) (hlists : c'.lists = c.lists) :
    KeepsEmpty c c' fills :=
  ⟨hcurr, fun p hp => Or.inl (by rw [hlists, hp])⟩

/-! ## Insertions -/

variable [DecidableEq Q] [DecidableEq G] [DecidableEq W] [DecidableEq K] [DecidableEq T]

theorem keepsEmpty_queueInsert (q : Q) (w : W) (n : ℕ) :
    KeepsEmpty c (queueInsert cfg c q w n) (some (cfg.poolOf q)) := by
  refine ⟨rfl, fun p hp => ?_⟩
  by_cases hpool : cfg.poolOf q = p
  · exact Or.inr (congrArg some hpool)
  · left
    change Function.update c.lists _ _ (.worklist p) = []
    rw [Function.update_of_ne, hp]
    split
    · exact fun h => nomatch h
    · exact fun h => hpool (Place.worklist.inj h).symm

omit [DecidableEq P] [DecidableEq K] in
theorem keepsEmpty_behind (q : Q) (w : W) (t : T) {fills : Option P} :
    KeepsEmpty c (insertBarrierBehind cfg c q w t) fills := by
  refine ⟨rfl, fun p hp => Or.inl ?_⟩
  change insertBehind _ _ (c.lists (.worklist p)) = []
  rw [hp]
  rfl

theorem keepsEmpty_front (k : K) (r : Running Q W T) (t : T) {fills : Option P} :
    KeepsEmpty c (insertBarrierFront cfg c k r t) fills := by
  refine ⟨rfl, fun p hp => Or.inl ?_⟩
  change Function.update c.lists (.scheduled k) (.barrier t :: c.lists (.scheduled k)) (.worklist p) = []
  rw [Function.update_of_ne (by simp), hp]

/-! ## Activation, and the two operations that end in `pwq_dec_nr_in_flight` -/

omit [DecidableEq G] in
theorem moveLinkedWorks_empty {src dst : Place P Q K} {x : Item W T} (hp : c.lists (.worklist p) = [])
    (hdst : dst ≠ .worklist p) : (moveLinkedWorks c src dst x).lists (.worklist p) = [] := by
  change Function.update (Function.update c.lists src _) dst _ (.worklist p) = []
  rw [Function.update_of_ne hdst.symm]
  by_cases hsrc : src = .worklist p
  · rw [← hsrc, Function.update_self, hsrc, hp]
    rfl
  · rw [Function.update_of_ne (Ne.symm hsrc), hp]

omit [DecidableEq G] in
theorem activate_empty {q : Q} {x : Item W T} (hp : c.lists (.worklist p) = []) (hpool : cfg.poolOf q ≠ p) :
    (pwqActivateDelayedWork cfg c q x).lists (.worklist p) = [] :=
  moveLinkedWorks_empty hp fun h => hpool (Place.worklist.inj h)

omit [DecidableEq G] in
theorem activateFirst_empty {q : Q} (hp : c.lists (.worklist p) = [])
    (h : cfg.poolOf q ≠ p ∨ c.lists (.delayed q) = [] ∨ cfg.maxActive q ≤ c.nrActive q) :
    (activateFirst cfg c q).lists (.worklist p) = [] := by
  rw [activateFirst]
  split
  · exact hp
  · rename_i x l hl
    split
    · rename_i hlt
      rcases h with hpool | hnil | hfull
      · exact activate_empty hp hpool
      · rw [hl] at hnil
        cases hnil
      · exact absurd hlt (not_lt.mpr hfull)
    · exact hp

theorem dec_empty {q : Q} {barrier : Bool} (hp : c.lists (.worklist p) = [])
    (h : cfg.poolOf q ≠ p ∨ c.lists (.delayed q) = [] ∨
      cfg.maxActive q ≤ (c.decremented q barrier).nrActive q) :
    (pwqDecNrInFlight cfg c q barrier).lists (.worklist p) = [] := by
  have hlists : (c.decremented q barrier).lists = c.lists := by cases barrier <;> rfl
  have hdec : cfg.poolOf q ≠ p ∨ (c.decremented q barrier).lists (.delayed q) = [] ∨
      cfg.maxActive q ≤ (c.decremented q barrier).nrActive q := by
    rw [hlists]
    exact h
  have hempty : (c.decremented q barrier).lists (.worklist p) = [] := by rw [hlists, hp]
  exact activateFirst_empty hempty hdec

theorem finishWork_empty {k : K} {r : Running Q W T} (hp : c.lists (.worklist p) = [])
    (hpool : cfg.poolOf r.pwq ≠ p) :
    (finishWork cfg c k r).lists (.worklist p) = [] :=
  dec_empty hp (Or.inl hpool)

omit [DecidableEq P] [DecidableEq Q] [DecidableEq G] [DecidableEq W] [DecidableEq K] [DecidableEq T] in
theorem mem_delayed (hc : CoreInv cfg c) {q : Q} {w : W} (hq : (c.flags (.work w)).data = .pwq q)
    (hd : (c.flags (.work w)).delayed = true) : Item.work w ∈ c.lists (.delayed q) := by
  obtain ⟨pl, hpl⟩ := (hc.layout.situated _).queued q hq
  have hbit := (hc.layout.situated _).delayedBit pl hpl rfl
  rw [hd] at hbit
  obtain ⟨q', hq', hfits⟩ := hc.layout.data_of_mem hpl
  rw [hq] at hq'
  obtain rfl := WorkData.pwq.inj hq'
  cases pl with
  | worklist p => exact Bool.noConfusion hbit
  | delayed q' =>
    obtain rfl : q' = q := hfits
    exact hpl
  | scheduled k => exact Bool.noConfusion hbit

omit [DecidableEq G] in
theorem grabActivated_empty (hc : CoreInv cfg c) {q : Q} {w : W} (hq : (c.flags (.work w)).data = .pwq q)
    (hp : c.lists (.worklist p) = [])
    (h : cfg.poolOf q ≠ p ∨ (c.flags (.work w)).delayed = false ∨ c.linked (.work w) = false) :
    ((grabActivated cfg c q w).lists (.worklist p)).erase (.work w) = [] := by
  rw [grabActivated]
  split
  · rename_i hd
    by_cases hpool : cfg.poolOf q = p
    · have hlinked : c.linked (.work w) = false := by
        rcases h with hne | hnot | hlinked
        · exact absurd hpool hne
        · rw [hd] at hnot
          exact Bool.noConfusion hnot
        · exact hlinked
      obtain ⟨a, b, -, -, heq⟩ := moveLinkedWorks_eq c (.worklist (cfg.poolOf q)) (mem_delayed hc hq hd)
      have hrun : (splitRun c.linked (Item.work w :: b)).1 = [.work w] := by
        rw [splitRun, hlinked]
        rfl
      have hlist : (pwqActivateDelayedWork cfg c q (.work w)).lists (.worklist p) = [.work w] := by
        change (moveLinkedWorks c (.delayed q) (.worklist (cfg.poolOf q)) (.work w)).lists
            (.worklist p) = [.work w]
        rw [heq, hpool, Core.moved, hp, List.nil_append, hrun]
        exact Function.update_self ..
      rw [hlist, List.erase_cons_head]
    · rw [activate_empty hp hpool]
      rfl
  · rw [hp]
    rfl

theorem grabQueued_empty (hc : CoreInv cfg c) (hact : ActiveOk cfg c) {q : Q} {w : W}
    (hq : (c.flags (.work w)).data = .pwq q) (hp : c.lists (.worklist p) = [])
    (h : cfg.poolOf q ≠ p ∨ grabActivates cfg c q w = false) :
    (grabQueued cfg c q w).lists (.worklist p) = [] := by
  rw [grabQueued_eq hc hq]
  refine dec_empty ?_ (h.imp_right fun hquiet => ?_)
  · refine grabActivated_empty hc hq hp (h.imp_right fun hquiet => ?_)
    cases hd : (c.flags (.work w)).delayed with
    | false => exact Or.inl rfl
    | true =>
      rw [grabActivates, if_pos hd] at hquiet
      exact Or.inr hquiet
  · have hnr : (((grabActivated cfg c q w).removed w
      (workFlags (.pool (cfg.poolOf q)) true false)).decremented q false).nrActive q =
        (grabActivated cfg c q w).nrActive q - 1 := Function.update_self ..
    rw [hnr, grabActivated_nrActive]
    cases hd : (c.flags (.work w)).delayed with
    | true =>
      have hfull := hact.full q (List.ne_nil_of_mem (mem_delayed hc hq hd))
      right
      rw [if_pos rfl, Function.update_self]
      omega
    | false =>
      rw [grabActivates, hd, if_neg Bool.false_ne_true, Bool.and_eq_false_iff, Bool.not_eq_false',
        List.isEmpty_iff,
        decide_eq_false_iff_not, not_lt] at hquiet
      rw [if_neg Bool.false_ne_true]
      refine hquiet.imp_left fun hnil => ?_
      change ((grabActivated cfg c q w).lists (.delayed q)).erase (.work w) = []
      rw [grabActivated, hd, if_neg Bool.false_ne_true, hnil]
      rfl

/-! ## A round of a worker -/

section
omit [DecidableEq G]

theorem processOneWork_empty {k : K} {src : Place P Q K} {x : Item W T}
    (h : processOneWork cfg c k src x = some c')
    (hp : c.lists (.worklist p) = []) : c'.lists (.worklist p) = [] := by
  rw [processOneWork] at h
  split at h
  · obtain rfl := Option.some.inj h
    exact moveLinkedWorks_empty hp (by simp)
  · split at h
    · obtain rfl := Option.some.inj h
      change Function.update c.lists src ((c.lists src).erase x) (.worklist p) = []
      by_cases hsrc : src = .worklist p
      · rw [hsrc, Function.update_self, hp]
        rfl
      · rw [Function.update_of_ne (Ne.symm hsrc), hp]
    · cases h

theorem pickWork_empty {k : K} (h : pickWork cfg c k = some c') (hp : c.lists (.worklist p) = []) :
    c'.lists (.worklist p) = [] := by
  rw [pickWork] at h
  split at h
  · cases h
  · split at h
    · exact processOneWork_empty h hp
    · split at h
      · cases h
      · split at h
        · exact processOneWork_empty h (moveLinkedWorks_empty hp (by simp))
        · exact processOneWork_empty h hp

theorem processOneWork_curr {k : K} {src : Place P Q K} {x : Item W T}
    (h : processOneWork cfg c k src x = some c') {j : K}
    (hj : j ≠ k) : c'.curr j = c.curr j := by
  rw [processOneWork] at h
  split at h
  · obtain rfl := Option.some.inj h
    rfl
  · split at h
    · obtain rfl := Option.some.inj h
      exact Function.update_of_ne hj ..
    · cases h

theorem pickWork_curr {k : K} (h : pickWork cfg c k = some c') {j : K} (hj : j ≠ k) :
    c'.curr j = c.curr j := by
  rw [pickWork] at h
  split at h
  · cases h
  · split at h
    · exact processOneWork_curr h hj
    · split at h
      · cases h
      · split at h
        · exact processOneWork_curr h hj
        · exact processOneWork_curr h hj

end

/-! ## The steps of the threads -/

theorem keepsEmpty_queueLocked {t : T} {w : W} {q : Q} {n : ℕ} {fills : Option P}
    (hfills : ¬ (s.core.refcnt q = 0 ∨ s.destroying (cfg.wqOf q) = true) → fills = some (cfg.poolOf q)) :
    KeepsEmpty s.core (queueLocked cfg s t w q n).core fills := by
  rw [queueLocked]
  split
  · exact .same rfl rfl
  · rename_i hlive
    rw [hfills hlive]
    exact keepsEmpty_queueInsert q w n

omit [DecidableEq Q] [DecidableEq K] in
theorem insertsAt_queue {t : T} {q : Q} (hq : queuePwq cfg s t = some q)
    (hlive : ¬ (s.core.refcnt q = 0 ∨ s.destroying (cfg.wqOf q) = true)) :
    fillsAt cfg s (.queue (.lockLast t) : WqAct Q G W K T) = some (cfg.poolOf q) ∧
      fillsAt cfg s (.queue (.switchLock t) : WqAct Q G W K T) = some (cfg.poolOf q) := by
  have hinserts : ((queuePwq cfg s t).filter fun q => !decide (s.core.refcnt q = 0 ∨
      s.destroying (cfg.wqOf q))).map
      (fun q => (t, cfg.poolOf q)) = some (t, cfg.poolOf q) := by
    rw [hq, Option.filter_some, if_pos (by simp [hlive]), Option.map_some]
  exact ⟨congrArg (Option.map Prod.snd) hinserts, congrArg (Option.map Prod.snd) hinserts⟩

theorem queueStep_fills {a : QueueAct Q G W T} (h : queueStep cfg s a = some s') :
    KeepsEmpty s.core s'.core (fillsAt cfg s (.queue a : WqAct Q G W K T)) := by
  cases a with
  | lockLast t =>
    rw [queueStep] at h
    split at h
    · rename_i w q n hpc
      split at h
      · cases h
        exact .same rfl rfl
      · rename_i p hd
        split at h
        · rename_i hp
          cases h
          refine keepsEmpty_queueLocked fun hlive => (insertsAt_queue ?_ hlive).1
          rw [queuePwq, hpc]
          simp only [hd, Option.bind_some, if_pos hp]
        · rename_i hp
          split at h
          · rename_i q' he
            cases h
            refine keepsEmpty_queueLocked fun hlive => (insertsAt_queue ?_ hlive).1
            rw [queuePwq, hpc]
            simp only [hd, Option.bind_some, if_neg hp, he]
          · cases h
            exact .same rfl rfl
    · cases h
  | switchLock t =>
    rw [queueStep] at h
    split at h
    · rename_i w q n hpc
      cases h
      refine keepsEmpty_queueLocked fun hlive => (insertsAt_queue ?_ hlive).2
      rw [queuePwq, hpc]
    · cases h
  | _ =>
    simp only [queueStep] at h
    repeat' split at h
    all_goals cases h
    all_goals exact .same rfl rfl

theorem cancelStep_fills (hctl : Ctl cfg s) (hact : ActiveOk cfg s.core) {a : CancelAct G W T}
    (h : cancelStep cfg s a = some s') :
    KeepsEmpty s.core s'.core (fillsAt cfg s (.cancel a : WqAct Q G W K T)) := by
  cases a with
  | grabLock t =>
    rw [cancelStep] at h
    split at h
    · rename_i w m p hpc
      split at h
      · rename_i q hq
        split at h
        · rename_i hp
          split at h
          · cases h
            exact .same rfl rfl
          · rename_i hr
            cases h
            refine ⟨(grabFrame hctl.core hq).curr, fun p' hp' => ?_⟩
            by_cases hpool : cfg.poolOf q = p'
            · cases hg : grabActivates cfg s.core q w with
              | false => exact Or.inl (grabQueued_empty hctl.core hact hq hp' (Or.inr hg))
              | true =>
                right
                change grabFills cfg s t = some p'
                rw [grabFills, hpc]
                simp only [hq, ← hp, hpool, hg, not_lt.mp hr, and_self, if_pos]
            · exact Or.inl (grabQueued_empty hctl.core hact hq hp' (Or.inl hpool))
        · cases h
          exact .same rfl rfl
      · cases h
        exact .same rfl rfl
    · cases h
  | foreign t =>
    rw [cancelStep] at h
    split at h
    · rename_i q f back hpc
      cases h
      cases f with
      | _ => exact .same rfl rfl
    · cases h
  | _ =>
    simp only [cancelStep] at h
    repeat' split at h
    all_goals cases h
    all_goals exact .same rfl rfl

theorem flushExecuting_fills {t : T} {w : W} {cancel : Bool} {p : P} {fills : Option P}
    (h : flushExecuting cfg s t w cancel p = some s') : KeepsEmpty s.core s'.core fills := by
  rw [flushExecuting] at h
  split at h
  · cases h
    exact .same rfl rfl
  · split at h
    · split at h
      · cases h
      · cases h
        exact keepsEmpty_front ..
    · cases h

theorem syncStep_fills {a : SyncAct W T} (h : syncStep cfg s a = some s') {fills : Option P} :
    KeepsEmpty s.core s'.core fills := by
  cases a with
  | flushLock t =>
    rw [syncStep] at h
    split at h
    · split at h
      · split at h
        · split at h
          · exact flushExecuting_fills h
          · cases h
            exact keepsEmpty_behind ..
        · cases h
          exact .same rfl rfl
      · exact flushExecuting_fills h
    · cases h
  | wakeOne t =>
    rw [syncStep] at h
    split at h
    · rename_i w hpc
      cases h
      have hcore : (wakeUpOne s w s.waitq).core = s.core := (wakeFrame_wakeUpOne w s.waitq s).core
      exact .same (congrArg Core.curr hcore) (congrArg Core.lists hcore)
    · cases h
  | _ =>
    simp only [syncStep] at h
    repeat' split at h
    all_goals cases h
    all_goals exact .same rfl rfl

/-- A step that no worker makes. -/
def WqAct.isCall : WqAct Q G W K T → Bool
  | .worker (.pick _) => false
  | .worker (.complete _) => false
  | .worker (.finish _) => false
  | _ => true

theorem wqStep_fills (hctl : Ctl cfg s) (hact : ActiveOk cfg s.core) {a : WqAct Q G W K T}
    (ha : a.isCall = true)
    (h : wqStep cfg s a = some s') : KeepsEmpty s.core s'.core (fillsAt cfg s a) := by
  cases a with
  | queue a => exact queueStep_fills h
  | cancel a => exact cancelStep_fills hctl hact h
  | sync a => exact syncStep_fills h
  | worker a =>
    cases a with
    | drain g on =>
      cases h
      exact .same rfl rfl
    | destroy g =>
      cases h
      exact .same rfl rfl
    | dropBase q =>
      rw [wqStep, workerStep] at h
      split at h
      · cases h
        exact .same rfl rfl
      · cases h
    | pick k => exact Bool.noConfusion ha
    | complete k => exact Bool.noConfusion ha
    | finish k => exact Bool.noConfusion ha

theorem finishWork_curr {k : K} {r : Running Q W T} :
    (finishWork cfg c k r).curr = Function.update c.curr k none :=
  (decFrame_pwqDecNrInFlight cfg (c.stopped k r.ticket) r.pwq r.barrier).curr

omit [DecidableEq Q] [DecidableEq G] [DecidableEq K] in
theorem poolOf_workerPwq (hctl : Ctl cfg s) {w : W} {q : Q}
    (h : workerPwq cfg s.core p w = some q) : cfg.poolOf q = p := by
  obtain ⟨k, hk, hmap⟩ := Option.bind_eq_some_iff.mp h
  obtain ⟨r, hr, rfl⟩ := Option.map_eq_some_iff.mp hmap
  exact (hctl.core.layout.running_pool k r hr).trans (findWorker_some hk).1

omit [DecidableEq Q] [DecidableEq K] in
theorem poolOf_executingPwq (hctl : Ctl cfg s) {w : W} {g : G} {q : Q}
    (h : executingPwq cfg s.core p w g = some q) :
    cfg.poolOf q = p := by
  obtain ⟨k, hk, hbind⟩ := Option.bind_eq_some_iff.mp h
  obtain ⟨r, hr, hif⟩ := Option.bind_eq_some_iff.mp hbind
  obtain ⟨-, heq⟩ := Option.ite_none_right_eq_some.mp hif
  obtain rfl := Option.some.inj heq
  exact (hctl.core.layout.running_pool k r hr).trans (findWorker_some hk).1

omit [DecidableEq Q] [DecidableEq K] in
/-- `__queue_work` has the lock of the pool of its pool_workqueue. -/
theorem lockedPool_of_queuePwq (hctl : Ctl cfg s) {t : T} {q : Q} (h : queuePwq cfg s t = some q) :
    lockedPool cfg s (.queue (.lockLast t)) = some (cfg.poolOf q) := by
  rw [queuePwq] at h
  rw [lockedPool]
  split at h
  · rename_i w q' n hpc
    obtain ⟨p, hd, hif⟩ := Option.bind_eq_some_iff.mp h
    simp only [hd]
    split at hif
    · rename_i hp
      obtain rfl := Option.some.inj hif
      rw [hp]
    · rw [poolOf_executingPwq hctl hif]
  · rename_i w q' n hpc
    obtain rfl := Option.some.inj h
    rfl
  · cases h

omit [DecidableEq Q] [DecidableEq G] [DecidableEq K] in
theorem lockedPool_of_flushPwq (hctl : Ctl cfg s) {t : T} {q : Q} (h : flushPwq cfg s t = some q) :
    lockedPool cfg s (.sync (.flushLock t)) = some (cfg.poolOf q) := by
  rw [flushPwq] at h
  rw [lockedPool]
  split at h
  · split at h
    · split at h
      · rename_i hp
        split at h
        · rw [poolOf_workerPwq hctl h]
        · obtain rfl := Option.some.inj h
          rw [hp]
      · cases h
    · rw [poolOf_workerPwq hctl h]
  · cases h

omit [DecidableEq Q] [DecidableEq K] in
/-- `insert_work` is called with the lock of its pool. -/
theorem lockedPool_of_insertsAt (hctl : Ctl cfg s) {a : WqAct Q G W K T} {t : T}
    (h : insertsAt cfg s a = some (t, p)) :
    lockedPool cfg s a = some p := by
  unfold insertsAt at h
  split at h
  · obtain ⟨q, hq, heq⟩ := Option.map_eq_some_iff.mp h
    obtain ⟨rfl, rfl⟩ := Prod.mk.inj heq
    exact lockedPool_of_queuePwq hctl (Option.filter_eq_some_iff.mp hq).1
  · obtain ⟨q, hq, heq⟩ := Option.map_eq_some_iff.mp h
    obtain ⟨rfl, rfl⟩ := Prod.mk.inj heq
    exact lockedPool_of_queuePwq hctl (Option.filter_eq_some_iff.mp hq).1
  · obtain ⟨q, hq, heq⟩ := Option.map_eq_some_iff.mp h
    obtain ⟨rfl, rfl⟩ := Prod.mk.inj heq
    exact lockedPool_of_flushPwq hctl hq
  · cases h

omit [DecidableEq Q] [DecidableEq K] in
theorem fillsAt_of_insertsAt {a : WqAct Q G W K T} {t : T} (h : insertsAt cfg s a = some (t, p)) :
    fillsAt cfg s a = some p := by
  have hsnd : (insertsAt cfg s a).map Prod.snd = some p := congrArg (Option.map Prod.snd) h
  unfold insertsAt at h
  split at h
  · exact hsnd
  · exact hsnd
  · exact hsnd
  · cases h

omit [DecidableEq Q] [DecidableEq K] in
/-- A thread that does not reach `insert_work` fills a worklist in a cancel only. -/
theorem grabFills_of_fillsAt {a : WqAct Q G W K T} (ha : a.isCall = true) (hnone : insertsAt cfg s a = none)
    (h : fillsAt cfg s a = some p) : ∃ t, a = .cancel (.grabLock t) ∧ grabFills cfg s t = some p := by
  unfold fillsAt at h
  split at h
  · exact ⟨_, rfl, h⟩
  · exact Bool.noConfusion ha
  · rw [hnone] at h
    cases h

omit [DecidableEq Q] [DecidableEq G] [DecidableEq W] [DecidableEq K] [DecidableEq T] in
theorem lockedPool_of_grabFills {t : T} (h : grabFills cfg s t = some p) :
    lockedPool cfg s (.cancel (.grabLock t)) = some p := by
  rw [grabFills] at h
  split at h
  · rename_i w m p' hpc
    have hlocked : lockedPool cfg s (.cancel (.grabLock t)) = some p' := by
      rw [lockedPool]
      simp only [hpc]
    split at h
    · rw [hlocked, (Option.ite_none_right_eq_some.mp h).2]
    · cases h
  · cases h

end Fills
end Skp.Workqueue
