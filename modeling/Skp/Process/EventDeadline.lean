import Skp.Process.EventModel

/-! # Does the worker sleep past a deadline?

`notify_poller_locked` drops the notification when the worker has no current callback, which is always so
while it is blocked in `reactor_poll` or on its way there. An earlier timer or rcu head inserted then is
not noticed before the old deadline. The timeout is also counted from the poll although it was computed
from a clock reading taken before the callbacks ran. When neither happens, the worker's deadline is not
later than the first timer and the first rcu head. -/
namespace Skp.Process
set_option autoImplicit false
open Skp.Foundations

variable {T : Type}

def NoneBefore (s : SlotState T) (D : ℕ) : Prop :=
  (∀ v, firstTimer s = some v → D ≤ v) ∧ ∀ v, firstRcu s = some v → D ≤ v

/-- Thread `t` inserted a timer or the head of the rcu queue that is due before `D`. -/
def InsertedEarlier (s : SlotState T) (t : T) (D : ℕ) : Prop :=
  (∃ e ∈ s.timers, e.owner = t ∧ e.value < D) ∨ ∃ e, s.rcus.head? = some e ∧ e.owner = t ∧ e.value < D

/-- A worker blocked until `D` is not too late for the first entries, or will be woken. -/
def DeadlineKept (s : SlotState T) : Prop :=
  ∀ D, s.pc = .blocked D → NoneBefore s D ∨ 0 < s.notifier.pipe ∨
    ∃ t, InsertedEarlier s t D ∧ emitting s t = true

/-- The instant the worker means to wake at, once it has computed its timeout. -/
def plannedWake : EvPc T → Option ℕ
  | .computed now next => if next = 0 then none else some (now + next)
  | .blocked D => some D
  | _ => none

/-- From the computation of the timeout to the return of `reactor_poll`, and with no byte in the notifier's
pipe, no thread arms a timer or queues an rcu head (as the first of its queue) before the planned wake;
and a poll with a timeout starts before the clock has moved from the worker's reading by more than the first
entries lie beyond the planned wake. -/
def NoEarlierInsert (s : SlotState T) : EvAct T → Prop
  | .timerModify _ _ value => ∀ D, plannedWake s.pc = some D → D ≤ value ∨ 0 < s.notifier.pipe
  | .callRcuSched _ value => ∀ D, plannedWake s.pc = some D → s.rcus = [] → D ≤ value ∨ 0 < s.notifier.pipe
  | .poll => ∀ now next v, s.pc = .computed now next → next ≠ 0 → firstTimer s = some v ∨
      firstRcu s = some v →
      s.clock - now ≤ v - (now + next) ∨ 0 < s.notifier.pipe
  | _ => True

/-- The planned wake is not later than any timer or the head of the rcu queue, or a byte is in the pipe. -/
def SlotInv (s : SlotState T) : Prop :=
  ∀ D, plannedWake s.pc = some D → 0 < s.notifier.pipe ∨
    (∀ e ∈ s.timers, D ≤ e.value) ∧ ∀ v, firstRcu s = some v → D ≤ v

theorem slotInv_init (clock : ℕ) : SlotInv (slotInit clock : SlotState T) := by
  intro D _
  refine Or.inr ⟨fun e he => absurd he List.not_mem_nil, fun v hv => ?_⟩
  simp [firstRcu, slotInit] at hv

theorem firstTimer_le {s : SlotState T} {v : ℕ} (h : firstTimer s = some v) {e : SlotEntry T}
    (he : e ∈ s.timers) : v ≤ e.value :=
  (List.min?_eq_some_iff.mp h).2 e.value (List.mem_map_of_mem he)

theorem exists_firstTimer {s : SlotState T} {e : SlotEntry T} (he : e ∈ s.timers) :
    ∃ v, firstTimer s = some v := by
  have hmem : e.value ∈ s.timers.map SlotEntry.value := List.mem_map_of_mem he
  obtain ⟨v, hv⟩ := Option.isSome_iff_exists.mp (List.isSome_min?_of_mem hmem)
  exact ⟨v, hv⟩

theorem noneBefore_of_slotInv {s : SlotState T} {D : ℕ}
    (h : (∀ e ∈ s.timers, D ≤ e.value) ∧ ∀ v, firstRcu s = some v → D ≤ v) : NoneBefore s D := by
  refine ⟨fun v hv => ?_, h.2⟩
  obtain ⟨hmem, -⟩ := List.min?_eq_some_iff.mp hv
  obtain ⟨e, he, rfl⟩ := List.mem_map.mp hmem
  exact h.1 e he

theorem timedout_le {v now : ℕ} (h : timedout (some v) now ≠ 0) : now + timedout (some v) now ≤ v := by
  by_cases hlt : now < v
  · have hmod : (v - now) % 2 ^ 32 ≤ v - now := Nat.mod_le _ _
    simp only [timedout, if_pos hlt] at h ⊢
    omega
  · simp [timedout, hlt] at h

theorem calcTimeout_le {s : SlotState T} {now v : ℕ} (hne : calcTimeout s now ≠ 0)
    (hv : firstTimer s = some v ∨ firstRcu s = some v) : now + calcTimeout s now ≤ v := by
  have hmin : calcTimeout s now ≤ timedout (some v) now := by
    unfold calcTimeout
    rcases hv with hv | hv
    · rw [hv]
      exact le_trans (min_le_left _ _) (min_le_right _ _)
    · rw [hv]
      exact le_trans (min_le_left _ _) (min_le_left _ _)
  have hle : now + timedout (some v) now ≤ v := timedout_le (by omega)
  omega

/-! ## One step -/

theorem slotInv_congr {s s' : SlotState T} (h : SlotInv s) (hpc : plannedWake s'.pc = plannedWake s.pc)
    (ht : ∀ e ∈ s'.timers, e ∈ s.timers) (hr : s'.rcus = s.rcus)
    (hp : 0 < s.notifier.pipe → 0 < s'.notifier.pipe) : SlotInv s' := by
  intro D hD
  rw [hpc] at hD
  have hfirst : firstRcu s' = firstRcu s := by rw [firstRcu, firstRcu, hr]
  rw [hfirst]
  exact (h D hD).imp hp fun hh => ⟨fun e he => hh.1 e (ht e he), hh.2⟩

theorem slotInv_unplanned {s : SlotState T} (h : plannedWake s.pc = none) : SlotInv s := fun D hD => by
  rw [h] at hD
  exact absurd hD.symm (Option.some_ne_none D)

variable [DecidableEq T]

theorem slotInv_notify {s : SlotState T} (h : SlotInv s) (worker t : T) (updated : Bool) :
    SlotInv (notifyPollerLocked worker s t updated) := by
  unfold notifyPollerLocked
  simp only
  split_ifs <;> exact h

theorem mem_eraseOld {l : List (SlotEntry T)} {old : Option (SlotEntry T)} {e : SlotEntry T}
    (h : e ∈ eraseOld l old) : e ∈ l := by
  cases old with
  | none => exact h
  | some o => exact List.mem_of_mem_erase h

theorem slotInv_timerModify {s : SlotState T} (h : SlotInv s) {t : T} {old : Option (SlotEntry T)} {value : ℕ}
    (hgood : NoEarlierInsert s (.timerModify t old value)) :
    SlotInv { s with timers := { value := value, owner := t } :: eraseOld s.timers old } := by
  intro D hD
  rcases hgood D hD with hv | hp
  · refine (h D hD).imp_right fun hh => ⟨fun e he => ?_, hh.2⟩
    rcases List.mem_cons.mp he with rfl | hmem
    · exact hv
    · exact hh.1 e (mem_eraseOld hmem)
  · exact Or.inl hp

omit [DecidableEq T] in
theorem slotInv_callRcuSched {s : SlotState T} (h : SlotInv s) {t : T} {value : ℕ}
    (hgood : NoEarlierInsert s (.callRcuSched t value)) :
    SlotInv { s with rcus := s.rcus ++ [{ value := value, owner := t }] } := by
  intro D hD
  rcases h D hD with hp | hh
  · exact Or.inl hp
  · cases hr : s.rcus with
    | nil =>
      rcases hgood D hD hr with hv | hp
      · refine Or.inr ⟨hh.1, fun v hfirst => ?_⟩
        simp only [firstRcu, List.nil_append, List.head?_cons, Option.map_some, Option.some.injEq] at hfirst
        omega
      · exact Or.inl hp
    | cons e rest =>
      refine Or.inr ⟨hh.1, fun v hfirst => hh.2 v ?_⟩
      simpa [firstRcu, hr] using hfirst

omit [DecidableEq T] in
theorem slotInv_poll {s : SlotState T} (h : SlotInv s) {now next : ℕ} (hpc : s.pc = .computed now next)
    (hne : next ≠ 0) (hgood : NoEarlierInsert s .poll) :
    SlotInv { s with pc := .blocked (s.clock + next) } := by
  intro D hD
  have hD' : D = s.clock + next := (Option.some.inj hD).symm
  subst hD'
  have hplan : plannedWake s.pc = some (now + next) := by simp [hpc, plannedWake, hne]
  rcases h (now + next) hplan with hp | ⟨ht, hr⟩
  · exact Or.inl hp
  · by_cases hp : 0 < s.notifier.pipe
    · exact Or.inl hp
    · refine Or.inr ⟨fun e he => ?_, fun v hv => ?_⟩
      · obtain ⟨v, hv⟩ := exists_firstTimer he
        have hslack := (hgood now next v hpc hne (Or.inl hv)).resolve_right hp
        have hfirst := firstTimer_le hv he
        have hplanned : now + next ≤ v := by
          obtain ⟨hmem, -⟩ := List.min?_eq_some_iff.mp hv
          obtain ⟨e', he', rfl⟩ := List.mem_map.mp hmem
          exact ht e' he'
        omega
      · have hslack := (hgood now next v hpc hne (Or.inr hv)).resolve_right hp
        have hplanned := hr v hv
        omega

omit [DecidableEq T] in
theorem slotInv_calc {s : SlotState T} (now : ℕ) :
    SlotInv { s with pc := .computed now (calcTimeout s now) } := by
  intro D hD
  by_cases hz : calcTimeout s now = 0
  · simp [plannedWake, hz] at hD
  · have hD' : now + calcTimeout s now = D := by simpa [plannedWake, hz] using hD
    subst hD'
    refine Or.inr ⟨fun e he => ?_, fun v hv => calcTimeout_le hz (Or.inr hv)⟩
    obtain ⟨v, hv⟩ := exists_firstTimer he
    exact le_trans (calcTimeout_le hz (Or.inl hv)) (firstTimer_le hv he)

theorem emitInc_pipe {n n' : AsyncState T} {t : T} (h : asyncStep n (.emitInc t) = some n') :
    n'.pipe = n.pipe := by
  by_cases ht : n.writing t = true
  · simp [asyncStep, ht] at h
  · simp only [asyncStep, if_neg ht, Option.some.injEq] at h
    rw [← h]

theorem emitWrite_pipe {n n' : AsyncState T} {t : T} (h : asyncStep n (.emitWrite t) = some n') :
    0 < n'.pipe := by
  by_cases ht : n.writing t = true
  · simp only [asyncStep, if_pos ht, Option.some.injEq] at h
    rw [← h]
    simp only [pipeCapacity]
    omega
  · simp [asyncStep, ht] at h

theorem evStep_inv (worker : T) (s : SlotState T) (a : EvAct T) (s' : SlotState T) (h : SlotInv s)
    (hgood : NoEarlierInsert s a) (hs : evStep worker s a = some s') : SlotInv s' := by
  cases a with
  | tick =>
    simp only [evStep, Option.some.injEq] at hs
    subst hs
    exact h
  | timerModify t old value =>
    simp only [evStep] at hs
    split at hs
    · simp only [Option.some.injEq] at hs
      subst hs
      exact slotInv_notify (slotInv_timerModify h hgood) worker t _
    · exact absurd hs.symm (Option.some_ne_none s')
  | timerDelete e =>
    simp only [evStep] at hs
    split at hs
    · simp only [Option.some.injEq] at hs
      subst hs
      exact slotInv_congr h rfl (fun x hx => List.mem_of_mem_erase hx) rfl id
    · exact absurd hs.symm (Option.some_ne_none s')
  | callRcuSched t value =>
    simp only [evStep] at hs
    split at hs
    · simp only [Option.some.injEq] at hs
      subst hs
      exact slotInv_notify (slotInv_callRcuSched h hgood) worker t true
    · exact absurd hs.symm (Option.some_ne_none s')
  | emitInc t =>
    simp only [evStep] at hs
    split at hs
    · obtain ⟨n, hn, rfl⟩ := Option.map_eq_some_iff.mp hs
      refine slotInv_congr h rfl (fun _ he => he) rfl fun hp => ?_
      simp only [emitInc_pipe hn]
      exact hp
    · exact absurd hs.symm (Option.some_ne_none s')
  | emitWrite t =>
    simp only [evStep] at hs
    obtain ⟨n, hn, rfl⟩ := Option.map_eq_some_iff.mp hs
    exact slotInv_congr h rfl (fun _ he => he) rfl fun _ => emitWrite_pipe hn
  | poll =>
    cases hpc : s.pc with
    | computed now next =>
      simp only [evStep, hpc, Option.some.injEq] at hs
      subst hs
      by_cases hz : next = 0
      · exact slotInv_unplanned (by simp [hz, plannedWake])
      · rw [if_neg hz]
        exact slotInv_poll h hpc hz hgood
    | _ => simp [evStep, hpc] at hs
  | pollReturn =>
    cases hpc : s.pc with
    | blocked D =>
      simp only [evStep, hpc, Option.some.injEq] at hs
      subst hs
      exact slotInv_unplanned rfl
    | _ => simp [evStep, hpc] at hs
  | lockSlot =>
    cases hpc : s.pc with
    | woken now =>
      simp only [evStep, hpc, Option.some.injEq] at hs
      subst hs
      exact slotInv_unplanned rfl
    | _ => simp [evStep, hpc] at hs
  | invoke =>
    cases hpc : s.pc with
    | process now =>
      simp only [evStep, hpc, Option.some.injEq] at hs
      subst hs
      exact slotInv_unplanned rfl
    | _ => simp [evStep, hpc] at hs
  | invokeTimer e =>
    cases hpc : s.pc with
    | process now =>
      simp only [evStep, hpc] at hs
      split at hs
      · simp only [Option.some.injEq] at hs
        subst hs
        exact slotInv_unplanned rfl
      · exact absurd hs.symm (Option.some_ne_none s')
    | _ => simp [evStep, hpc] at hs
  | notifierCb a =>
    simp only [evStep] at hs
    split at hs
    · rename_i hcur
      obtain ⟨n, hn, rfl⟩ := Option.map_eq_some_iff.mp hs
      refine slotInv_unplanned ?_
      cases hpc : s.pc with
      | callback now => rfl
      | _ => simp [hpc, hasCurrent] at hcur
    · exact absurd hs.symm (Option.some_ne_none s')
  | invokeFinish =>
    cases hpc : s.pc with
    | callback now =>
      simp only [evStep, hpc, Option.some.injEq] at hs
      subst hs
      exact slotInv_unplanned rfl
    | _ => simp [evStep, hpc] at hs
  | rcuStart =>
    cases hpc : s.pc with
    | process now =>
      simp only [evStep, hpc, Option.some.injEq] at hs
      subst hs
      exact slotInv_unplanned rfl
    | _ => simp [evStep, hpc] at hs
  | rcuEnd k =>
    cases hpc : s.pc with
    | rcuRun now taken =>
      simp only [evStep, hpc] at hs
      split at hs
      · simp only [Option.some.injEq] at hs
        subst hs
        exact slotInv_unplanned rfl
      · exact absurd hs.symm (Option.some_ne_none s')
    | _ => simp [evStep, hpc] at hs
  | calcNext =>
    cases hpc : s.pc with
    | process now =>
      simp only [evStep, hpc, Option.some.injEq] at hs
      subst hs
      exact slotInv_calc now
    | _ => simp [evStep, hpc] at hs

/-- In every run without an earlier insert on a sleeping worker and without a late poll, the worker's
deadline is kept. -/
theorem event_deadline_kept (worker : T) (clock : ℕ) (as : List (EvAct T)) (s : SlotState T)
    (hgood : RunMeets (evStep worker) NoEarlierInsert (slotInit clock) as)
    (hrun : runActs (evStep worker) (slotInit clock) as = some s) : DeadlineKept s := by
  have hinv := run_invariant (evStep_inv worker) as (slotInit clock) s (slotInv_init clock) hgood hrun
  intro D hD
  have hplan : plannedWake s.pc = some D := by rw [hD]; rfl
  rcases hinv D hplan with hp | hh
  · exact Or.inr (Or.inl hp)
  · exact Or.inl (noneBefore_of_slotInv hh)

def armInCallback : List (EvAct (Fin 2)) :=
  [.poll, .pollReturn, .lockSlot, .invoke, .timerModify 1 none 10, .invokeFinish, .calcNext, .poll]

theorem event_deadline_kept_armInCallback :
    ∃ s, runActs (evStep 0) (slotInit 0) armInCallback = some s ∧ s.pc = .blocked 10 ∧ DeadlineKept s := by
  have hmeets : RunMeets (evStep 0) NoEarlierInsert (slotInit 0) armInCallback := by
    refine .cons rfl ?_
      (.cons rfl trivial (.cons rfl trivial (.cons rfl trivial (.cons rfl ?_ (.cons rfl trivial
      (.cons rfl trivial (.cons rfl ?_ trivial)))))))
    · intro now next v hpc hnext hv
      simp [firstTimer, firstRcu, slotInit] at hv
    · intro D hD
      simp [plannedWake] at hD
    · intro now next v hpc hnext hv
      exact Or.inl (Nat.le_trans (Nat.le_of_eq (Nat.zero_sub now)) (Nat.zero_le _))
  exact ⟨_, rfl, by decide, event_deadline_kept 0 0 armInCallback _ hmeets rfl⟩

/-- The worker is blocked for its default interval when another thread arms a timer for ten milliseconds. -/
def armWhileBlocked : List (EvAct (Fin 2)) := [.poll, .timerModify 1 none 10]

/-- No byte is in the pipe and no thread is about to write one, though the timer is due long before. -/
theorem event_deadline_missed :
    ∃ s, runActs (evStep 0) (slotInit 0) armWhileBlocked = some s ∧ s.pc = .blocked 5000 ∧
      firstTimer s = some 10 ∧ ¬ DeadlineKept s := by
  refine ⟨_, rfl, by decide, by decide, ?_⟩
  intro h
  rcases h 5000 rfl with ⟨ht, -⟩ | hp | ⟨t, -, he⟩
  · exact absurd (ht 10 (by decide)) (by decide)
  · exact absurd hp (by decide)
  · revert he
    revert t
    decide

end Skp.Process
