import Skp.Process.WaitEventModel

/-! # The entries of a wait queue

A waker never touches the entry of a caller that has left: the two links that `finish_wait` reads
without the lock lead back to the entry only when the waker that took it off the queue is through
with it. The 16-bit counters play no part in this. -/
namespace Skp.Process
set_option autoImplicit false
open Skp.Foundations

variable {T : Type}

/-! ## The places -/

namespace WaitEventPc

def locked : WaitEventPc T → Bool
  | .enqueued => true
  | .finishUnlock => true
  | .walk _ _ => true
  | .visit _ _ _ _ _ => true
  | .wakeUnlock => true
  | _ => false

/-- In `wait_event`, with an entry that may be on the queue. -/
def inEvent : WaitEventPc T → Bool
  | .enqueue => true
  | .enqueued => true
  | .test => true
  | .readValue => true
  | .futex _ _ => true
  | .asleep _ _ => true
  | .woke => true
  | .latch _ => true
  | .retest => true
  | .finish => true
  | .finishPrev => true
  | .finishLock => true
  | _ => false

def queued : WaitEventPc T → Bool
  | .enqueued => true
  | .test => true
  | .readValue => true
  | .futex _ _ => true
  | .asleep _ _ => true
  | _ => false

/-- Past the test of the condition, on the way to sleep or asleep. -/
def sleeps : WaitEventPc T → Bool
  | .readValue => true
  | .futex _ _ => true
  | .asleep _ _ => true
  | _ => false

def isAsleep : WaitEventPc T → Bool
  | .asleep _ _ => true
  | _ => false

/-- The entry whose links a waker is resetting. -/
def deletes : WaitEventPc T → Option T
  | .visit .initNext w _ _ _ => some w
  | .visit .initPrev w _ _ _ => some w
  | _ => none

def signals : WaitEventPc T → Option T
  | .visit .xadd w _ _ _ => some w
  | _ => none

def nr : WaitEventPc T → ℤ
  | .wakeLock nr => nr
  | .walk nr _ => nr
  | .visit _ _ _ nr _ => nr
  | _ => 0

def touches (t : T) : WaitEventPc T → Prop
  | .walk _ rest => t ∈ rest
  | .visit _ w _ _ rest => t = w ∨ t ∈ rest
  | _ => False

/-- The waker has still to wake `t`. -/
def ahead (t : T) : WaitEventPc T → Prop
  | .wakeLock _ => True
  | .walk _ rest => t ∈ rest
  | .visit .xadd w _ _ rest => t = w ∨ t ∈ rest
  | .visit .futexWake w _ _ rest => t = w ∨ t ∈ rest
  | .visit _ _ excl nr rest => t ∈ rest ∧ ¬(excl = true ∧ nr = 1)
  | _ => False

end WaitEventPc

/-- Every `__wake_up` that makes its way to `t` wakes it: it does not wait in exclusive mode, or
nobody has counted. -/
def Owed (s : WaitEventState T) (t : T) : Prop := s.excl t = false ∨ s.limited = false

structure WaitEventAwake (s : WaitEventState T) : Prop where
  woken : s.ready = true → ∀ t, (s.pc t).isAsleep = true → Owed s t → ∃ u, (s.pc u).ahead t

def WaitEventAlive (s : WaitEventState T) : Prop := ∀ u t, (s.pc u).touches t → (s.pc t).inEvent = true

/-- The caller that a waker signals has been signalled fewer than `2 ^ 16` times since the last
store to its `last_cond`. -/
def EventSignalsFit (s : WaitEventState T) : WaitEventAct T → Prop
  | .step t => ∀ w ∈ (s.pc t).signals, s.cond w + 1 < s.lastCond w + 2 ^ 16
  | _ => True

variable {s s' : WaitEventState T} {t u w x : T} {p p' : WaitEventPc T} {excl : Bool} {nr : ℤ} {rest : List T}

/-! ## The entries -/

def StageOk (s : WaitEventState T) (w : T) (rest : List T) : WakeStage → Prop
  | .xadd => (w :: rest).Sublist s.taskList
  | .futexWake => (w :: rest).Sublist s.taskList
  | .unlink => (w :: rest).Sublist s.taskList ∧ (s.pc w).queued = false
  | .initNext => rest.Sublist s.taskList ∧ w ∉ s.taskList ∧ s.nextSelf w = false ∧ s.prevSelf w = false
  | .initPrev => rest.Sublist s.taskList ∧ w ∉ s.taskList ∧ s.nextSelf w = true ∧ s.prevSelf w = false

def VisitOk (s : WaitEventState T) : WaitEventPc T → Prop
  | .walk _ rest => rest.Sublist s.taskList
  | .visit stage w excl _ rest => excl = s.excl w ∧ (excl = true → ∀ t ∈ rest, s.excl t = true) ∧
      (s.pc w).inEvent = true ∧
      StageOk s w rest stage
  | _ => True

/-- The exclusive entries are behind the others, an entry on the queue is linked and one that is off
it leads to itself, unless a waker is about to see to it. -/
structure EntryInv (s : WaitEventState T) : Prop where
  lock : HeldBy WaitEventPc.locked s.pc s.lock
  nodup : s.taskList.Nodup
  order : s.taskList.Pairwise fun t u => s.excl t = true → s.excl u = true
  linked : ∀ t ∈ s.taskList, (s.pc t).inEvent = true ∧ s.nextSelf t = false ∧ s.prevSelf t = false
  unlinked : ∀ t, t ∉ s.taskList → (s.pc t).inEvent = true → (∀ u, (s.pc u).deletes ≠ some t) →
    s.nextSelf t = true ∧ s.prevSelf t = true
  queued : ∀ t, (s.pc t).queued = true → t ∈ s.taskList
  finish : ∀ t, s.pc t = .finishPrev → s.nextSelf t = true
  visits : ∀ u, VisitOk s (s.pc u)

theorem visitOk_of_unlocked (h : p.locked = false) : VisitOk s p := by
  cases p <;> trivial

theorem queued_of_sleeping (h : p.sleeps = true) : p.queued = true := by
  cases p <;> first | rfl | cases h

theorem deletes_of_unlocked (h : p.locked = false) : p.deletes = none := by
  cases p <;> first | rfl | cases h

theorem EntryInv.alive (h : EntryInv s) : WaitEventAlive s := by
  intro u t ht
  have hv := h.visits u
  cases hp : s.pc u with
  | walk nr rest =>
    rw [hp] at ht hv
    exact (h.linked t (hv.subset ht)).1
  | visit stage w excl nr rest =>
    rw [hp] at ht hv
    obtain ⟨-, -, hw, hstage⟩ := hv
    rcases ht with rfl | ht
    · exact hw
    · have hmem : t ∈ s.taskList := by
        cases stage with
        | xadd => exact hstage.subset (List.mem_cons_of_mem _ ht)
        | futexWake => exact hstage.subset (List.mem_cons_of_mem _ ht)
        | unlink => exact hstage.1.subset (List.mem_cons_of_mem _ ht)
        | initNext => exact hstage.1.subset ht
        | initPrev => exact hstage.1.subset ht
      exact (h.linked t hmem).1
  | _ =>
    rw [hp] at ht
    exact ht.elim

/-! ## Steps that leave the queue as it is -/

section Steps
variable [DecidableEq T]

/-- The thread `x` goes to `p'`, and the queue and the links stay. -/
structure EventMoves (s s' : WaitEventState T) (x : T) (p' : WaitEventPc T) : Prop where
  task : s'.taskList = s.taskList
  next : s'.nextSelf = s.nextSelf
  prev : s'.prevSelf = s.prevSelf
  excl : s'.excl = s.excl
  pc : s'.pc = Function.update s.pc x p'

theorem EventMoves.self (hm : EventMoves s s' x p') : s'.pc x = p' := by rw [hm.pc, Function.update_self]

theorem EventMoves.other (hm : EventMoves s s' x p') (hu : u ≠ x) : s'.pc u = s.pc u := by
  rw [hm.pc, Function.update_of_ne hu]

theorem eventMoves_goto : EventMoves s (s.goto x p') x p' := ⟨rfl, rfl, rfl, rfl, rfl⟩

omit [DecidableEq T] in
theorem EntryInv.lone (h : EntryInv s) (hp : s.pc x = p) (hlocked : p.locked = true) (hu : u ≠ x) :
    (s.pc u).locked = false := by
  rw [← Bool.not_eq_true]
  exact fun hyes => hu (h.lock.unique hyes (by rw [hp]; exact hlocked))

theorem EntryInv.move (h : EntryInv s) (hm : EventMoves s s' x p') (hp : s.pc x = p)
    (hlock : HeldBy WaitEventPc.locked s'.pc s'.lock)
    (hin : p.inEvent = true → p'.inEvent = true ∨
      (x ∉ s.taskList ∧ ∀ u stage e n l, s.pc u ≠ .visit stage x e n l))
    (hnew : p'.inEvent = true → p.inEvent = true)
    (hqueued : p'.queued = true → x ∈ s.taskList ∧ (p.queued = true ∨ s.lock = none))
    (hfin : p' = .finishPrev → s.nextSelf x = true)
    (hdel : p'.deletes = p.deletes) (hvisit : VisitOk s' p') : EntryInv s' := by
  have hself : s'.pc x = p' := hm.self
  have hother : ∀ {u}, u ≠ x → s'.pc u = s.pc u := fun hu => hm.other hu
  obtain ⟨htask, hnext, hprev, hexcl, -⟩ := hm
  have hdels : ∀ u, (s'.pc u).deletes = (s.pc u).deletes := fun u => by
    by_cases hu : u = x
    · subst hu
      rw [hself, hp, hdel]
    · rw [hother hu]
  refine ⟨hlock, by rw [htask]; exact h.nodup, by rw [htask, hexcl]; exact h.order,
    fun t ht => ?_, fun t ht hin' hno => ?_, fun t ht => ?_,
    fun t ht => ?_, fun u => ?_⟩
  · rw [htask] at ht
    obtain ⟨hev, hn, hpr⟩ := h.linked t ht
    rw [hnext, hprev]
    refine ⟨?_, hn, hpr⟩
    by_cases htx : t = x
    · subst htx
      rw [hself]
      rw [hp] at hev
      exact (hin hev).resolve_right fun hout => hout.1 ht
    · rw [hother htx]
      exact hev
  · rw [htask] at ht
    rw [hnext, hprev]
    refine h.unlinked t ht ?_ fun u => hdels u ▸ hno u
    by_cases htx : t = x
    · subst htx
      rw [hself] at hin'
      rw [hp]
      exact hnew hin'
    · rw [hother htx] at hin'
      exact hin'
  · rw [htask]
    by_cases htx : t = x
    · subst htx
      rw [hself] at ht
      exact (hqueued ht).1
    · rw [hother htx] at ht
      exact h.queued t ht
  · rw [hnext]
    by_cases htx : t = x
    · subst htx
      rw [hself] at ht
      exact hfin ht
    · rw [hother htx] at ht
      exact h.finish t ht
  · by_cases hux : u = x
    · subst hux
      rw [hself]
      exact hvisit
    · rw [hother hux]
      have hold := h.visits u
      cases hpu : s.pc u with
      | walk n l =>
        rw [hpu] at hold
        show l.Sublist s'.taskList
        rw [htask]
        exact hold
      | visit stage w e n l =>
        rw [hpu] at hold
        obtain ⟨he, hrest, hev, hstage⟩ := hold
        have hlocked : s.lock ≠ none := fun hfree => by
          have hyes : (s.pc u).locked = true := by rw [hpu]; rfl
          rw [(h.lock u).mp hyes] at hfree
          cases hfree
        refine ⟨by rw [hexcl]; exact he, by rw [hexcl]; exact hrest, ?_, ?_⟩
        · by_cases hwx : w = x
          · subst hwx
            rw [hself]
            rw [hp] at hev
            exact (hin hev).resolve_right fun hout => hout.2 u stage e n l hpu
          · rw [hother hwx]
            exact hev
        · cases stage with
          | xadd | futexWake =>
            show (w :: l).Sublist s'.taskList
            rw [htask]
            exact hstage
          | initNext | initPrev =>
            rw [StageOk, htask, hnext, hprev]
            exact hstage
          | unlink =>
            refine ⟨by rw [htask]; exact hstage.1, ?_⟩
            by_cases hwx : w = x
            · subst hwx
              rw [hself, ← Bool.not_eq_true]
              intro hq
              have hno := hstage.2
              rw [hp, (hqueued hq).2.resolve_right hlocked] at hno
              cases hno
            · rw [hother hwx]
              exact hstage.2
      | _ => trivial

omit [DecidableEq T] in
theorem EntryInv.held (h : EntryInv s) (hp : s.pc x = p) (hlocked : p.locked = true) : s.lock = some x :=
  (h.lock x).mp (by rw [hp]; exact hlocked)

theorem EntryInv.leave (h : EntryInv s) (hp : s.pc x = p) (hlocked : p.locked = true)
    (hlocked' : p'.locked = false) :
    HeldBy WaitEventPc.locked (Function.update s.pc x p') none :=
  HeldBy.leave (h.held hp hlocked ▸ h.lock) hlocked'

theorem EntryInv.onward (h : EntryInv s) (hm : EventMoves s s' x p') (hlock : s'.lock = s.lock)
    (hp : s.pc x = p) (hin : p.inEvent = true)
    (hin' : p'.inEvent = true) (hfree : p.locked = false) (hfree' : p'.locked = false)
    (hq : p'.queued = true → p.queued = true)
    (hfin : p' = .finishPrev → s.nextSelf x = true) : EntryInv s' := by
  have hheld : HeldBy WaitEventPc.locked s'.pc s'.lock := by
    rw [hlock, hm.pc]
    exact h.lock.stay (by rw [hp, hfree, hfree'])
  exact h.move hm hp hheld (fun _ => .inl hin') (fun _ => hin)
    (fun hq' => ⟨h.queued x (by rw [hp]; exact hq hq'), .inl (hq hq')⟩) hfin
    (by rw [deletes_of_unlocked hfree, deletes_of_unlocked hfree']) (visitOk_of_unlocked hfree')

theorem EntryInv.stride (h : EntryInv s) (hm : EventMoves s s' x p') (hlock : s'.lock = s.lock)
    (hp : s.pc x = p) (hin : p.inEvent = false)
    (hin' : p'.inEvent = false) (hheld : p'.locked = p.locked) (hq' : p'.queued = false)
    (hfin : p' ≠ .finishPrev)
    (hdel : p'.deletes = p.deletes) (hvisit : VisitOk s' p') : EntryInv s' := by
  have hheld : HeldBy WaitEventPc.locked s'.pc s'.lock := by
    rw [hlock, hm.pc]
    exact h.lock.stay (by rw [hp, hheld])
  refine h.move hm hp hheld (fun hyes => ?_) (fun hyes => ?_) (fun hyes => ?_)
    (fun hyes => absurd hyes hfin) hdel hvisit
  · rw [hin] at hyes
    cases hyes
  · rw [hin'] at hyes
    cases hyes
  · rw [hq'] at hyes
    cases hyes

/-! ## The steps of a caller -/

theorem EntryInv.finishNext (h : EntryInv s) (hp : s.pc x = .finish) :
    EntryInv (s.goto x (if s.nextSelf x = true then .finishPrev else .finishLock)) := by
  split
  · rename_i hself
    exact h.onward eventMoves_goto rfl hp rfl rfl rfl rfl (fun hq => Bool.noConfusion hq) fun _ => hself
  · exact h.onward
      eventMoves_goto rfl hp rfl rfl rfl rfl (fun hq => Bool.noConfusion hq) fun hfin => by
      cases hfin

omit [DecidableEq T] in
theorem EntryInv.untouched (h : EntryInv s) (hp : s.pc x = .finishPrev) (hprev : s.prevSelf x = true) :
    x ∉ s.taskList ∧ ∀ u stage e n l, s.pc u ≠ .visit stage x e n l := by
  have hnext := h.finish x hp
  have hout : x ∉ s.taskList := fun hmem => by
    have hno := (h.linked x hmem).2.1
    rw [hnext] at hno
    cases hno
  refine ⟨hout, fun u stage e n l hu => ?_⟩
  have hv := h.visits u
  rw [hu] at hv
  obtain ⟨-, -, -, hstage⟩ := hv
  cases stage with
  | xadd | futexWake => exact hout (hstage.subset List.mem_cons_self)
  | unlink => exact hout (hstage.1.subset List.mem_cons_self)
  | initNext =>
    have hno := hstage.2.2.1
    rw [hnext] at hno
    cases hno
  | initPrev =>
    have hno := hstage.2.2.2
    rw [hprev] at hno
    cases hno

theorem EntryInv.finishPrev (h : EntryInv s) (hp : s.pc x = .finishPrev) :
    EntryInv (s.goto x (if s.prevSelf x = true then .idle else .finishLock)) := by
  split
  · rename_i hprev
    exact h.move eventMoves_goto hp (h.lock.stay (by rw [hp]; rfl))
      (fun _ => .inr (h.untouched hp hprev)) (fun hin => Bool.noConfusion hin)
      (fun hq => Bool.noConfusion hq) (fun hfin => by cases hfin) rfl trivial
  · exact h.onward
      eventMoves_goto rfl hp rfl rfl rfl rfl (fun hq => Bool.noConfusion hq) fun hfin => by
      cases hfin

omit [DecidableEq T] in
theorem EntryInv.free (h : EntryInv s) (hfree : s.lock = none) (u : T) : (s.pc u).locked = false :=
  HeldBy.free (hfree ▸ h.lock) u

omit [DecidableEq T] in
theorem EntryInv.nextSelf_iff (h : EntryInv s) (hfree : s.lock = none) (hin : (s.pc x).inEvent = true) :
    s.nextSelf x = true ↔ x ∉ s.taskList := by
  constructor
  · intro hself hmem
    have hno := (h.linked x hmem).2.1
    rw [hself] at hno
    cases hno
  · intro hout
    refine (h.unlinked x hout hin fun u hu => ?_).1
    rw [deletes_of_unlocked (h.free hfree u)] at hu
    cases hu

theorem EntryInv.enqueue (h : EntryInv s) (hp : s.pc x = .enqueue) (hfree : s.lock = none) :
    EntryInv ({ s.prepare x with lock := some x }.goto x .enqueued) := by
  have hiff := h.nextSelf_iff hfree (x := x) (by rw [hp]; rfl)
  have hlock : HeldBy WaitEventPc.locked (Function.update s.pc x .enqueued) (some x) :=
    HeldBy.enter (hfree ▸ h.lock) rfl
  by_cases hself : s.nextSelf x = true
  · have hout := hiff.mp hself
    have hnew : s.prepare x = _ := if_pos hself
    rw [hnew]
    have hmem : ∀ t, t ∈ (if s.excl x = true then s.taskList ++ [x] else x :: s.taskList) ↔ t = x ∨
        t ∈ s.taskList := fun t => by
      split
      · rw [List.mem_append, List.mem_singleton, or_comm]
      · exact List.mem_cons
    have hpc : ∀ {u}, u ≠ x → (Function.update s.pc x .enqueued) u = s.pc u :=
      fun hu => Function.update_of_ne hu ..
    refine ⟨hlock, ?_, ?_, fun t ht => ?_, fun t ht hin hno => ?_, fun t ht => ?_,
      fun t ht => ?_, fun u => ?_⟩
    · show (if s.excl x = true then s.taskList ++ [x] else x :: s.taskList).Nodup
      split
      · exact List.nodup_append.mpr ⟨h.nodup, List.nodup_singleton x, fun a ha b hb hab => by
          rw [List.mem_singleton] at hb
          exact hout (hb ▸ hab ▸ ha)⟩
      · exact List.nodup_cons.mpr ⟨hout, h.nodup⟩
    · show (if s.excl x = true then s.taskList ++ [x] else x :: s.taskList).Pairwise _
      split
      · rename_i hexcl
        refine List.pairwise_append.mpr ⟨h.order, List.pairwise_singleton _ x, fun a _ b hb _ => ?_⟩
        rw [List.mem_singleton] at hb
        exact hb ▸ hexcl
      · rename_i hexcl
        exact List.pairwise_cons.mpr ⟨fun a _ hyes => absurd hyes hexcl, h.order⟩
    · by_cases htx : t = x
      · subst htx
        exact ⟨by
          rw [WaitEventState.goto]; simp [WaitEventPc.inEvent],
        Function.update_self .., Function.update_self ..⟩
      · obtain ⟨hin, hn, hpr⟩ := h.linked t (((hmem t).mp ht).resolve_left htx)
        refine ⟨?_, (Function.update_of_ne htx ..).trans hn, (Function.update_of_ne htx ..).trans hpr⟩
        show ((Function.update s.pc x .enqueued) t).inEvent = true
        rw [hpc htx]
        exact hin
    · have htx : t ≠ x := fun he => ht ((hmem t).mpr (.inl he))
      have hin' : (s.pc t).inEvent = true := by
        have hsame : ((Function.update s.pc x .enqueued) t).inEvent = true := hin
        rwa [hpc htx] at hsame
      obtain ⟨hn, hpr⟩ := h.unlinked t (fun hm => ht ((hmem t).mpr (.inr hm))) hin' fun u hu => by
        rw [deletes_of_unlocked (h.free hfree u)] at hu
        cases hu
      exact ⟨(Function.update_of_ne htx ..).trans hn, (Function.update_of_ne htx ..).trans hpr⟩
    · refine (hmem t).mpr ?_
      by_cases htx : t = x
      · exact .inl htx
      · refine .inr (h.queued t ?_)
        have hsame : ((Function.update s.pc x .enqueued) t).queued = true := ht
        rwa [hpc htx] at hsame
    · have htx : t ≠ x := by
        rintro rfl
        have hsame : (Function.update s.pc t .enqueued) t = .finishPrev := ht
        rw [Function.update_self] at hsame
        cases hsame
      refine (Function.update_of_ne htx ..).trans (h.finish t ?_)
      have hsame : (Function.update s.pc x .enqueued) t = .finishPrev := ht
      rwa [hpc htx] at hsame
    · show VisitOk _ ((Function.update s.pc x .enqueued) u)
      by_cases hux : u = x
      · subst hux
        rw [Function.update_self]
        trivial
      · rw [hpc hux]
        exact visitOk_of_unlocked (h.free hfree u)
  · have hmem : x ∈ s.taskList := by
      by_contra hout
      exact hself (hiff.mpr hout)
    have hsame : s.prepare x = s := if_neg hself
    rw [hsame]
    exact h.move ⟨rfl, rfl, rfl, rfl, rfl⟩ hp hlock (fun _ => .inl rfl) (fun _ => rfl)
      (fun _ => ⟨hmem, .inr hfree⟩) (fun hfin => by cases hfin)
      rfl trivial

theorem EntryInv.delete (h : EntryInv s) (hp : s.pc x = .finishLock) (hfree : s.lock = none) :
    EntryInv ({ s.delete x with lock := some x }.goto x .finishUnlock) := by
  have hpc : ∀ {u}, u ≠ x → (Function.update s.pc x .finishUnlock) u = s.pc u :=
    fun hu => Function.update_of_ne hu ..
  have hself : (Function.update s.pc x (.finishUnlock : WaitEventPc T)) x = .finishUnlock :=
    Function.update_self ..
  refine ⟨HeldBy.enter (hfree ▸ h.lock) rfl, h.nodup.erase x, h.order.sublist List.erase_sublist,
    fun t ht => ?_, fun t ht hin hno => ?_,
    fun t ht => ?_, fun t ht => ?_, fun u => ?_⟩
  · have htx : t ≠ x := ((h.nodup.mem_erase_iff).mp ht).1
    obtain ⟨hin, hn, hpr⟩ := h.linked t (List.mem_of_mem_erase ht)
    refine ⟨?_, (Function.update_of_ne htx ..).trans hn, (Function.update_of_ne htx ..).trans hpr⟩
    show ((Function.update s.pc x .finishUnlock) t).inEvent = true
    rw [hpc htx]
    exact hin
  · by_cases htx : t = x
    · subst htx
      exact ⟨Function.update_self .., Function.update_self ..⟩
    · have hin' : ((Function.update s.pc x .finishUnlock) t).inEvent = true := hin
      rw [hpc htx] at hin'
      obtain ⟨hn, hpr⟩ :=
        h.unlinked t (fun hm => ht ((h.nodup.mem_erase_iff).mpr ⟨htx, hm⟩)) hin' fun u hu => by
        rw [deletes_of_unlocked (h.free hfree u)] at hu
        cases hu
      exact ⟨(Function.update_of_ne htx ..).trans hn, (Function.update_of_ne htx ..).trans hpr⟩
  · have ht' : ((Function.update s.pc x .finishUnlock) t).queued = true := ht
    have htx : t ≠ x := by
      rintro rfl
      rw [hself] at ht'
      cases ht'
    rw [hpc htx] at ht'
    exact (h.nodup.mem_erase_iff).mpr ⟨htx, h.queued t ht'⟩
  · have ht' : (Function.update s.pc x .finishUnlock) t = .finishPrev := ht
    have htx : t ≠ x := by
      rintro rfl
      rw [hself] at ht'
      cases ht'
    rw [hpc htx] at ht'
    exact (Function.update_of_ne htx ..).trans (h.finish t ht')
  · show VisitOk _ ((Function.update s.pc x .finishUnlock) u)
    by_cases hux : u = x
    · subst hux
      rw [hself]
      trivial
    · rw [hpc hux]
      exact visitOk_of_unlocked (h.free hfree u)

/-! ## The steps of a waker -/

theorem EntryInv.hold (h : EntryInv s) (hp : s.pc x = p) (hlocked : p.locked = true)
    (hin : p.inEvent = false) (hlock : s'.lock = s.lock)
    (hpc : s'.pc = Function.update s.pc x p') (hexcl : s'.excl = s.excl)
    (hlocked' : p'.locked = true) (hin' : p'.inEvent = false)
    (hq' : p'.queued = false) (hfin' : p' ≠ .finishPrev) (hsub : s'.taskList.Sublist s.taskList)
    (hlinks : ∀ t ∈ s'.taskList, s'.nextSelf t = s.nextSelf t ∧ s'.prevSelf t = s.prevSelf t)
    (hqueued : ∀ t ∈ s.taskList, (s.pc t).queued = true → t ∈ s'.taskList)
    (hfin : ∀ t, s.nextSelf t = true → s'.nextSelf t = true)
    (hunlinked : ∀ t, t ∉ s'.taskList → (s.pc t).inEvent = true → p'.deletes ≠ some t →
      s'.nextSelf t = true ∧ s'.prevSelf t = true)
    (hvisit : VisitOk s' p') : EntryInv s' := by
  have hself : s'.pc x = p' := by rw [hpc, Function.update_self]
  have hother : ∀ {u}, u ≠ x → s'.pc u = s.pc u := fun hu => by rw [hpc, Function.update_of_ne hu]
  have hne : ∀ {t}, (s.pc t).inEvent = true → t ≠ x := by
    rintro t hyes rfl
    rw [hp, hin] at hyes
    cases hyes
  refine ⟨?_, h.nodup.sublist hsub,
    by
    rw [hexcl]; exact h.order.sublist hsub, fun t ht => ?_, fun t ht hyes hno => ?_, fun t ht => ?_,
    fun t ht => ?_, fun u => ?_⟩
  · rw [hlock, hpc]
    exact h.lock.stay (by rw [hp, hlocked, hlocked'])
  · obtain ⟨hev, hn, hpr⟩ := h.linked t (hsub.subset ht)
    rw [hother (hne hev), (hlinks t ht).1, (hlinks t ht).2]
    exact ⟨hev, hn, hpr⟩
  · have htx : t ≠ x := by
      rintro rfl
      rw [hself, hin'] at hyes
      cases hyes
    rw [hother htx] at hyes
    exact hunlinked t ht hyes fun hd => hno x (by rw [hself]; exact hd)
  · have htx : t ≠ x := by
      rintro rfl
      rw [hself, hq'] at ht
      cases ht
    rw [hother htx] at ht
    exact hqueued t (h.queued t ht) ht
  · have htx : t ≠ x := by
      rintro rfl
      rw [hself] at ht
      exact hfin' ht
    rw [hother htx] at ht
    exact hfin t (h.finish t ht)
  · by_cases hux : u = x
    · subst hux
      rw [hself]
      exact hvisit
    · rw [hother hux]
      exact visitOk_of_unlocked (h.lone hp hlocked hux)

omit [DecidableEq T] in
theorem EntryInv.visit_of_pc (h : EntryInv s) (hp : s.pc x = p) : VisitOk s p := hp ▸ h.visits x

omit [DecidableEq T] in
theorem EntryInv.visit_ne {stage : WakeStage} (h : EntryInv s)
    (hp : s.pc x = .visit stage w excl nr rest) : w ≠ x := by
  rintro rfl
  have hv := (h.visit_of_pc hp).2.2.1
  rw [hp] at hv
  cases hv

theorem EntryInv.wakeLock (h : EntryInv s) (hp : s.pc x = .wakeLock nr) (hfree : s.lock = none) :
    EntryInv ({ s with lock := some x }.goto x (.walk nr s.taskList)) :=
  h.move ⟨rfl, rfl, rfl, rfl, rfl⟩ hp (HeldBy.enter (hfree ▸ h.lock) rfl)
    (fun hin => Bool.noConfusion hin) (fun hin => Bool.noConfusion hin)
    (fun hq => Bool.noConfusion hq) (fun hfin => by cases hfin) rfl (List.Sublist.refl _)

theorem EntryInv.walkOn (h : EntryInv s) (hp : s.pc x = .walk nr (w :: rest)) :
    EntryInv (s.goto x (.visit .xadd w (s.excl w) nr rest)) := by
  have hsub : (w :: rest).Sublist s.taskList := h.visit_of_pc hp
  have hw := (h.linked w (hsub.subset List.mem_cons_self)).1
  have hwx : w ≠ x := by
    rintro rfl
    rw [hp] at hw
    cases hw
  have hord := (List.pairwise_cons.mp (h.order.sublist hsub)).1
  refine h.stride eventMoves_goto rfl hp rfl rfl rfl rfl (fun hfin => by cases hfin) rfl ⟨rfl,
    fun he t ht => hord t ht he, ?_, hsub⟩
  rw [eventMoves_goto.other hwx]
  exact hw

theorem EntryInv.unlink (h : EntryInv s) (hp : s.pc x = .visit .unlink w excl nr rest) :
    EntryInv ({ s with taskList := s.taskList.erase w }.goto x (.visit .initNext w excl nr rest)) := by
  obtain ⟨he, hrest, hin, hsub, hq⟩ := h.visit_of_pc hp
  have hwx := h.visit_ne hp
  have hmem : ∀ t, t ∈ s.taskList.erase w ↔ t ≠ w ∧ t ∈ s.taskList := fun t => h.nodup.mem_erase_iff
  obtain ⟨-, hn, hpr⟩ := h.linked w (hsub.subset List.mem_cons_self)
  refine h.hold hp rfl rfl rfl rfl rfl rfl rfl rfl (fun hfin => by cases hfin) List.erase_sublist
    (fun t _ => ⟨rfl, rfl⟩) (fun t ht htq => ?_)
    (fun t ht => ht) (fun t ht hev hd => ?_) ⟨he, hrest, ?_, ?_, fun hwm => ((hmem w).mp hwm).1 rfl, hn, hpr⟩
  · refine (hmem t).mpr ⟨?_, ht⟩
    rintro rfl
    rw [hq] at htq
    cases htq
  · have htw : t ≠ w := by
      rintro rfl
      exact hd rfl
    refine h.unlinked t (fun hm => ht ((hmem t).mpr ⟨htw, hm⟩)) hev fun u hu => ?_
    by_cases hux : u = x
    · subst hux
      rw [hp] at hu
      cases hu
    · rw [deletes_of_unlocked (h.lone hp rfl hux)] at hu
      cases hu
  · show ((Function.update s.pc x _) w).inEvent = true
    rw [Function.update_of_ne hwx]
    exact hin
  · have hshort := hsub.erase w
    rwa [List.erase_cons_head] at hshort

theorem EntryInv.initNext (h : EntryInv s) (hp : s.pc x = .visit .initNext w excl nr rest) :
    EntryInv ({ s with nextSelf := Function.update s.nextSelf w true }.goto x
      (.visit .initPrev w excl nr rest)) := by
  obtain ⟨he, hrest, hin, hsub, hout, hn, hpr⟩ := h.visit_of_pc hp
  have hwx := h.visit_ne hp
  refine h.hold hp rfl rfl rfl rfl rfl rfl rfl rfl (fun hfin => by cases hfin) (List.Sublist.refl _)
    (fun t ht => ⟨?_, rfl⟩)
    (fun t ht _ => ht) (fun t ht => ?_) (fun t ht hev hd => ?_) ⟨he, hrest, ?_, hsub, hout,
      Function.update_self .., hpr⟩
  · exact Function.update_of_ne (show t ≠ w from fun heq => hout (heq ▸ ht)) ..
  · show (Function.update s.nextSelf w true) t = true
    by_cases htw : t = w
    · subst htw
      exact Function.update_self ..
    · rw [Function.update_of_ne htw]
      exact ht
  · have htw : t ≠ w := by
      rintro rfl
      exact hd rfl
    obtain ⟨hn', hpr'⟩ := h.unlinked t ht hev fun u hu => by
      by_cases hux : u = x
      · subst hux
        rw [hp] at hu
        exact htw (Option.some.inj hu).symm
      · rw [deletes_of_unlocked (h.lone hp rfl hux)] at hu
        cases hu
    exact ⟨(Function.update_of_ne htw ..).trans hn', hpr'⟩
  · show ((Function.update s.pc x _) w).inEvent = true
    rw [Function.update_of_ne hwx]
    exact hin

omit [DecidableEq T] in
theorem afterWake_cases (excl : Bool) (nr : ℤ) (rest : List T) :
    (excl = true ∧ nr = 1 ∧ afterWake excl nr rest = .wakeUnlock) ∨
      ∃ n, afterWake excl nr rest = .walk n rest ∧ n ≤ nr ∧ ¬(excl = true ∧ nr = 1) := by
  cases excl with
  | false => exact .inr ⟨nr, rfl, le_refl nr, fun hc => Bool.noConfusion hc.1⟩
  | true =>
    by_cases hone : nr - 1 = 0
    · exact .inl ⟨rfl, by omega, if_pos hone⟩
    · exact .inr ⟨nr - 1, if_neg hone, by omega, fun hc => hone (by omega)⟩

theorem EntryInv.initPrev (h : EntryInv s) (hp : s.pc x = .visit .initPrev w excl nr rest) :
    EntryInv ({ s with prevSelf := Function.update s.prevSelf w true }.goto x (afterWake excl nr rest)) := by
  obtain ⟨-, -, -, hsub, hout, hn, -⟩ := h.visit_of_pc hp
  have hplace : (afterWake excl nr rest).locked = true ∧ (afterWake excl nr rest).inEvent = false ∧
      (afterWake excl nr rest).queued = false ∧
      afterWake excl nr rest ≠ .finishPrev ∧
      VisitOk ({ s with prevSelf := Function.update s.prevSelf w true }.goto x
        (afterWake excl nr rest)) (afterWake excl nr rest) := by
    rcases afterWake_cases excl nr rest with ⟨-, -, heq⟩ | ⟨n, heq, -⟩
    · rw [heq]
      exact ⟨rfl, rfl, rfl, (fun hfin => by cases hfin), trivial⟩
    · rw [heq]
      exact ⟨rfl, rfl, rfl, (fun hfin => by cases hfin), hsub⟩
  obtain ⟨hlocked', hin', hq', hfin', hvisit⟩ := hplace
  refine h.hold hp rfl rfl rfl rfl rfl hlocked' hin' hq' hfin' (List.Sublist.refl _)
    (fun t ht => ⟨rfl, ?_⟩) (fun t ht _ => ht) (fun t ht => ht)
    (fun t ht hev _ => ?_) hvisit
  · exact Function.update_of_ne (show t ≠ w from fun heq => hout (heq ▸ ht)) ..
  · by_cases htw : t = w
    · subst htw
      exact ⟨hn, Function.update_self ..⟩
    · obtain ⟨hn', hpr'⟩ := h.unlinked t ht hev fun u hu => by
        by_cases hux : u = x
        · subst hux
          rw [hp] at hu
          exact htw (Option.some.inj hu).symm
        · rw [deletes_of_unlocked (h.lone hp rfl hux)] at hu
          cases hu
      exact ⟨hn', (Function.update_of_ne htw ..).trans hpr'⟩

theorem EntryInv.rouse {c l : ℕ} (h : EntryInv s) (hp : s.pc x = .asleep c l) : EntryInv (s.goto x .woke) :=
  h.onward eventMoves_goto rfl hp rfl rfl rfl rfl (fun hq => Bool.noConfusion hq) fun hfin => by cases hfin

theorem EntryInv.wakeSleeper {c l : ℕ} (h : EntryInv s)
    (hp : s.pc x = .visit .futexWake w excl nr rest) (hw : s.pc w = .asleep c l) :
    EntryInv ((s.goto w .woke).goto x (.visit .unlink w excl nr rest)) := by
  have hwx := h.visit_ne hp
  obtain ⟨he, hrest, -, hsub⟩ := h.visit_of_pc hp
  have hp' : (s.goto w .woke).pc x = .visit .futexWake w excl nr rest :=
    (Function.update_of_ne hwx.symm ..).trans hp
  have hpc : ((s.goto w .woke).goto x (.visit .unlink w excl nr rest)).pc w = .woke :=
    (Function.update_of_ne hwx ..).trans (Function.update_self ..)
  refine (h.rouse hw).stride
    eventMoves_goto rfl hp' rfl rfl rfl rfl (fun hfin => by cases hfin) rfl ⟨he,
    hrest, ?_, hsub, ?_⟩
  · rw [hpc]
    rfl
  · rw [hpc]
    rfl

theorem EntryInv.call (h : EntryInv s) (hp : s.pc x = .idle) (e : Bool) :
    EntryInv ((s.define x e).goto x .enqueue) := by
  have hpc : ∀ {u}, u ≠ x → (Function.update s.pc x .enqueue) u = s.pc u :=
    fun hu => Function.update_of_ne hu ..
  have hself : (Function.update s.pc x (.enqueue : WaitEventPc T)) x = .enqueue := Function.update_self ..
  have hne : ∀ {t}, (s.pc t).inEvent = true → t ≠ x := by
    rintro t ht rfl
    rw [hp] at ht
    cases ht
  have hexcl : ∀ {t}, (s.pc t).inEvent = true → Function.update s.excl x e t = s.excl t :=
    fun ht => Function.update_of_ne (hne ht) ..
  refine ⟨h.lock.stay (by rw [hp]; rfl), h.nodup, h.order.imp_of_mem fun {a b} ha hb hab => ?_,
    fun t ht => ?_, fun t ht hin hno => ?_,
    fun t ht => ?_, fun t ht => ?_, fun u => ?_⟩
  · show Function.update s.excl x e a = true → Function.update s.excl x e b = true
    rw [hexcl (h.linked a ha).1, hexcl (h.linked b hb).1]
    exact hab
  · obtain ⟨hin, hn, hpr⟩ := h.linked t ht
    refine ⟨?_, (Function.update_of_ne (hne hin) ..).trans hn, (Function.update_of_ne (hne hin) ..).trans hpr⟩
    show ((Function.update s.pc x .enqueue) t).inEvent = true
    rw [hpc (hne hin)]
    exact hin
  · by_cases htx : t = x
    · subst htx
      exact ⟨Function.update_self .., Function.update_self ..⟩
    · have hin' : ((Function.update s.pc x .enqueue) t).inEvent = true := hin
      rw [hpc htx] at hin'
      obtain ⟨hn, hpr⟩ := h.unlinked t ht hin' fun u hu => by
        refine hno u ?_
        show ((Function.update s.pc x .enqueue) u).deletes = some t
        by_cases hux : u = x
        · subst hux
          rw [hp] at hu
          cases hu
        · rw [hpc hux]
          exact hu
      exact ⟨(Function.update_of_ne htx ..).trans hn, (Function.update_of_ne htx ..).trans hpr⟩
  · have ht' : ((Function.update s.pc x .enqueue) t).queued = true := ht
    have htx : t ≠ x := by
      rintro rfl
      rw [hself] at ht'
      cases ht'
    rw [hpc htx] at ht'
    exact h.queued t ht'
  · have ht' : (Function.update s.pc x .enqueue) t = .finishPrev := ht
    have htx : t ≠ x := by
      rintro rfl
      rw [hself] at ht'
      cases ht'
    rw [hpc htx] at ht'
    exact (Function.update_of_ne htx ..).trans (h.finish t ht')
  · show VisitOk _ ((Function.update s.pc x .enqueue) u)
    by_cases hux : u = x
    · subst hux
      rw [hself]
      trivial
    · rw [hpc hux]
      have hv := h.visits u
      have htouch := h.alive u
      cases hpu : s.pc u with
      | walk n l =>
        rw [hpu] at hv
        exact hv
      | visit stage w e' n l =>
        rw [hpu] at hv htouch
        obtain ⟨he, hrest, hin, hstage⟩ := hv
        refine ⟨he.trans (hexcl hin).symm,
          fun hyes t ht => (hexcl (htouch t (.inr ht))).trans (hrest hyes t ht), ?_, ?_⟩
        · show ((Function.update s.pc x .enqueue) w).inEvent = true
          rw [hpc (hne hin)]
          exact hin
        · have hn : Function.update s.nextSelf x true w = s.nextSelf w := Function.update_of_ne (hne hin) ..
          have hpr : Function.update s.prevSelf x true w = s.prevSelf w := Function.update_of_ne (hne hin) ..
          cases stage with
          | xadd | futexWake => exact hstage
          | unlink =>
            refine ⟨hstage.1, ?_⟩
            show ((Function.update s.pc x .enqueue) w).queued = false
            rw [hpc (hne hin)]
            exact hstage.2
          | initNext | initPrev => exact ⟨hstage.1, hstage.2.1, hn.trans hstage.2.2.1, hpr.trans hstage.2.2.2⟩
      | _ => trivial

theorem EntryInv.outside (h : EntryInv s) (hm : EventMoves s s' x p') (hp : s.pc x = p)
    (hlock : HeldBy WaitEventPc.locked s'.pc s'.lock)
    (hin : p.inEvent = false) (hin' : p'.inEvent = false) (hq : p'.queued = false)
    (hfin : p' ≠ .finishPrev) (hdel : p.deletes = none)
    (hdel' : p'.deletes = none) (hvisit : VisitOk s' p') : EntryInv s' := by
  refine h.move hm hp hlock (fun hyes => ?_) (fun hyes => ?_) (fun hyes => ?_)
    (fun hyes => absurd hyes hfin) (hdel'.trans hdel.symm) hvisit
  · rw [hin] at hyes
    cases hyes
  · rw [hin'] at hyes
    cases hyes
  · rw [hq] at hyes
    cases hyes

theorem waitEventNext_entry (h : EntryInv s) (hp : s.pc x = p) :
    ∀ s', waitEventNext s x p = some s' → EntryInv s' := by
  intro s' hstep
  cases p with
  | enqueue =>
    obtain ⟨hfree, heq⟩ := Option.ite_none_right_eq_some.mp hstep
    obtain rfl := Option.some.inj heq
    exact h.enqueue hp hfree
  | enqueued =>
    cases hstep
    exact h.move ⟨rfl, rfl, rfl, rfl, rfl⟩ hp (h.leave hp rfl rfl) (fun _ => .inl rfl) (fun _ => rfl)
      (fun _ => ⟨h.queued x (by rw [hp]; rfl), .inl rfl⟩) (fun hfin => by cases hfin) rfl trivial
  | test =>
    cases hstep
    split
    · exact h.onward
        eventMoves_goto rfl hp rfl rfl rfl rfl (fun hq => Bool.noConfusion hq) fun hfin => by
        cases hfin
    · exact h.onward eventMoves_goto rfl hp rfl rfl rfl rfl (fun _ => rfl) fun hfin => by cases hfin
  | readValue =>
    cases hstep
    split
    · exact h.onward eventMoves_goto rfl hp rfl rfl rfl rfl (fun _ => rfl) fun hfin => by cases hfin
    · exact h.onward
        eventMoves_goto rfl hp rfl rfl rfl rfl (fun hq => Bool.noConfusion hq) fun hfin => by
        cases hfin
  | futex c l =>
    cases hstep
    split
    · exact h.onward eventMoves_goto rfl hp rfl rfl rfl rfl (fun _ => rfl) fun hfin => by cases hfin
    · exact h.onward
        eventMoves_goto rfl hp rfl rfl rfl rfl (fun hq => Bool.noConfusion hq) fun hfin => by
        cases hfin
  | woke =>
    cases hstep
    exact h.onward eventMoves_goto rfl hp rfl rfl rfl rfl (fun hq => Bool.noConfusion
      hq) fun hfin => by cases hfin
  | latch c =>
    cases hstep
    exact h.onward ⟨rfl, rfl, rfl, rfl,
      rfl⟩ rfl hp rfl rfl rfl rfl (fun hq => Bool.noConfusion hq) fun hfin => by cases hfin
  | retest =>
    cases hstep
    split
    · exact h.onward
        eventMoves_goto rfl hp rfl rfl rfl rfl (fun hq => Bool.noConfusion hq) fun hfin => by
        cases hfin
    · exact h.onward
        eventMoves_goto rfl hp rfl rfl rfl rfl (fun hq => Bool.noConfusion hq) fun hfin => by
        cases hfin
  | finish =>
    cases hstep
    exact h.finishNext hp
  | finishPrev =>
    cases hstep
    exact h.finishPrev hp
  | finishLock =>
    obtain ⟨hfree, heq⟩ := Option.ite_none_right_eq_some.mp hstep
    obtain rfl := Option.some.inj heq
    exact h.delete hp hfree
  | finishUnlock =>
    cases hstep
    exact h.outside ⟨rfl, rfl, rfl, rfl, rfl⟩ hp
      (h.leave hp rfl rfl) rfl rfl rfl (fun hfin => by cases hfin) rfl rfl trivial
  | wakeLock nr =>
    obtain ⟨hfree, heq⟩ := Option.ite_none_right_eq_some.mp hstep
    obtain rfl := Option.some.inj heq
    exact h.wakeLock hp hfree
  | walk nr rest =>
    cases rest with
    | nil =>
      cases hstep
      exact h.stride eventMoves_goto rfl hp rfl rfl rfl rfl (fun hfin => by cases hfin) rfl trivial
    | cons w rest =>
      cases hstep
      exact h.walkOn hp
  | visit stage w excl nr rest =>
    cases stage with
    | xadd =>
      cases hstep
      obtain ⟨he, hrest, hin, hsub⟩ := h.visit_of_pc hp
      have hm : EventMoves s
          ({ s with cond := Function.update s.cond w (s.cond w + 1) }.goto x
          (.visit .futexWake w excl nr rest)) x
        (.visit .futexWake w excl nr rest) := ⟨rfl, rfl, rfl, rfl, rfl⟩
      exact h.stride hm rfl hp rfl rfl rfl rfl (fun hfin => by cases hfin) rfl ⟨he, hrest,
        by rw [hm.other (h.visit_ne hp)]; exact hin, hsub⟩
    | futexWake =>
      rw [waitEventNext] at hstep
      split at hstep
      · rename_i c l hw
        cases hstep
        exact h.wakeSleeper hp hw
      · cases hstep
        have hsub : (w :: rest).Sublist s.taskList := (h.visit_of_pc hp).2.2.2
        exact h.stride eventMoves_goto rfl hp rfl rfl rfl rfl (fun hfin =>
          by cases hfin) rfl ((List.sublist_cons_self w rest).trans hsub)
    | unlink =>
      cases hstep
      exact h.unlink hp
    | initNext =>
      cases hstep
      exact h.initNext hp
    | initPrev =>
      cases hstep
      exact h.initPrev hp
  | wakeUnlock =>
    cases hstep
    exact h.outside ⟨rfl, rfl, rfl, rfl, rfl⟩ hp
      (h.leave hp rfl rfl) rfl rfl rfl (fun hfin => by cases hfin) rfl rfl trivial
  | idle => cases hstep
  | asleep c l => cases hstep

theorem EntryInv.wake {ready : Bool} (h : EntryInv s) (hp : s.pc x = .idle) (nr : ℤ) :
    EntryInv ({ s with ready := ready }.wake x nr) :=
  h.outside ⟨rfl, rfl, rfl, rfl, rfl⟩ hp
    (h.lock.stay (by rw [hp]; rfl)) rfl rfl rfl (fun hfin => by cases hfin) rfl rfl trivial

theorem EntryInv.step (h : EntryInv s) (a : WaitEventAct T) :
    ∀ s', waitEventStep s a = some s' → EntryInv s' := by
  intro s' hstep
  cases a with
  | waitEvent t =>
    obtain ⟨hp, heq⟩ := Option.ite_none_right_eq_some.mp hstep
    obtain rfl := Option.some.inj heq
    split
    · exact h
    · exact h.call hp false
  | waitEventMode t e =>
    obtain ⟨hp, heq⟩ := Option.ite_none_right_eq_some.mp hstep
    obtain rfl := Option.some.inj heq
    exact h.call hp e
  | setReady t nr =>
    obtain ⟨hp, heq⟩ := Option.ite_none_right_eq_some.mp hstep
    obtain rfl := Option.some.inj heq
    exact h.wake hp nr
  | clearReady =>
    cases hstep
    exact ⟨h.lock, h.nodup, h.order, h.linked, h.unlinked, h.queued, h.finish, h.visits⟩
  | wakeUp t nr =>
    obtain ⟨hp, heq⟩ := Option.ite_none_right_eq_some.mp hstep
    obtain rfl := Option.some.inj heq
    exact h.wake hp nr
  | step t => exact waitEventNext_entry h rfl s' hstep
  | interrupt t =>
    cases hp : s.pc t with
    | asleep c l =>
      simp only [waitEventStep, hp] at hstep
      cases hstep
      exact h.onward eventMoves_goto rfl hp rfl rfl rfl rfl (fun _ => rfl) fun hfin => by cases hfin
    | _ => simp [waitEventStep, hp] at hstep
  | spurious t =>
    cases hp : s.pc t with
    | asleep c l =>
      simp only [waitEventStep, hp] at hstep
      cases hstep
      exact h.rouse hp
    | _ => simp [waitEventStep, hp] at hstep

omit [DecidableEq T] in
theorem entryInv_init (ready : Bool) : EntryInv (waitEventInit ready : WaitEventState T) where
  lock t := iff_of_false Bool.false_ne_true (fun heq => by cases heq)
  nodup := List.nodup_nil
  order := List.Pairwise.nil
  linked t ht := absurd ht List.not_mem_nil
  unlinked t _ hin := Bool.noConfusion hin
  queued t ht := Bool.noConfusion ht
  finish t ht := by cases ht
  visits u := trivial

end Steps

end Skp.Process
