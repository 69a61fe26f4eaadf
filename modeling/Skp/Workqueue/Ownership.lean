import Skp.Workqueue.Frames

/-! # Who holds PENDING

Between the moment PENDING is taken and the moment it is given back or the work is put on a list, exactly one
thread or the timer holds it, and the flags word of the work then holds no pool_workqueue. -/
namespace Skp.Workqueue
set_option autoImplicit false
open Skp.Foundations

variable {P Q G W K T : Type}

def Resume.owns : Resume W → Option W
  | .grab _ _ => none
  | .flush w cancel => if cancel then some w else none

/-- The work whose PENDING a thread holds. -/
def Pc.owns : Pc P Q G W → Option W
  | .queueing w _ _ => some w
  | .selected w _ _ => some w
  | .switching w _ _ => some w
  | .grabbed w _ => some w
  | .foreign _ _ back => back.owns
  | .flushRead w cancel => if cancel then some w else none
  | .flushLock w cancel _ => if cancel then some w else none
  | .flushWait w cancel => if cancel then some w else none
  | .flushed w => some w
  | _ => none

def Pc.isWait : Pc P Q G W → Bool
  | .flushWait _ _ => true
  | _ => false

theorem Pc.owns_of_held {p : Pc P Q G W} {w : W} {n : ℕ} (h : p.held = some (w, n)) : p.owns = some w := by
  cases p <;> simp_all [Pc.held, Pc.owns]

theorem owns_afterFlush (w : W) (cancel : Bool) :
    (afterFlush w cancel : Pc P Q G W).owns = if cancel then some w else none := by
  cases cancel with
  | true => rfl
  | false => rfl

theorem held_afterFlush (w : W) (cancel : Bool) : (afterFlush w cancel : Pc P Q G W).held = none := by
  cases cancel with
  | true => rfl
  | false => rfl

theorem isWait_afterFlush (w : W) (cancel : Bool) : (afterFlush w cancel : Pc P Q G W).isWait = false := by
  cases cancel with
  | true => rfl
  | false => rfl

/-- PENDING is set and the work is on no list. -/
def Taken (c : Core P Q G W K T) (w : W) : Prop :=
  (c.flags (.work w)).pending = true ∧ ∀ q, (c.flags (.work w)).data ≠ .pwq q

structure Owning (s : WqState P Q G W K T) : Prop where
  own : ∀ t w, (s.pc t).owns = some w → Taken s.core w ∧ s.timer w = none
  own_unique : ∀ t u w, (s.pc t).owns = some w → (s.pc u).owns = some w → t = u
  held : ∀ t w n, (s.pc t).held = some (w, n) → s.core.stage n = .held t
  timer : ∀ w g n, s.timer w = some (g, n) → Taken s.core w ∧ s.core.stage n = .timer w

section Owning
variable {cfg : WqConfig P Q G K} {s s' : WqState P Q G W K T}

theorem Taken.quietly {c c' : Core P Q G W K T} {w : W} (h : Taken c w) (hq : Quietly c c') : Taken c' w := by
  unfold Taken
  rw [hq.flags w h.2]
  exact h

theorem Owning.frame (h : Owning s) (hown : ∀ u v, (s'.pc u).owns = some v → (s.pc u).owns = some v)
    (hheld : ∀ u v n, (s'.pc u).held = some (v, n) → (s.pc u).held = some (v, n))
    (htimer : s'.timer = s.timer)
    (hq : Quietly s.core s'.core) : Owning s' where
  own := by
    intro t w ht
    obtain ⟨h1, h2⟩ := h.own t w (hown t w ht)
    exact ⟨h1.quietly hq, htimer ▸ h2⟩
  own_unique := fun t u w ht hu => h.own_unique t u w (hown t w ht) (hown u w hu)
  held := by
    intro t w n ht
    have hs := h.held t w n (hheld t w n ht)
    rw [hq.stage n (by rw [hs]; rfl) (by simp [hs])]
    exact hs
  timer := by
    intro w g n ht
    obtain ⟨h1, h2⟩ := h.timer w g n (htimer ▸ ht)
    refine ⟨h1.quietly hq, ?_⟩
    rw [hq.stage n (by rw [h2]; rfl) (by simp [h2])]
    exact h2

/-- The thread `t` takes PENDING of `w` or gives it back; nobody else holds it. -/
structure Handover (s s' : WqState P Q G W K T) (t : T) (w : W) : Prop where
  sole : ∀ u, u ≠ t → (s.pc u).owns ≠ some w
  pc : ∀ u, u ≠ t → s'.pc u = s.pc u
  own : ∀ v, (s'.pc t).owns = some v → v = w ∧ Taken s'.core w ∧ s'.timer w = none
  held : ∀ v n, (s'.pc t).held = some (v, n) → s'.core.stage n = .held t
  self : ∀ g n, s'.timer w = some (g, n) → Taken s'.core w ∧ s'.core.stage n = .timer w
  timer : ∀ v, v ≠ w → s'.timer v = s.timer v
  flags : ∀ v, v ≠ w → (∀ q, (s.core.flags (.work v)).data ≠ .pwq q) →
    s'.core.flags (.work v) = s.core.flags (.work v)
  stageHeld : ∀ u n, u ≠ t → s.core.stage n = .held u → s'.core.stage n = .held u
  stageTimer : ∀ v n, v ≠ w → s.core.stage n = .timer v → s'.core.stage n = .timer v

variable [DecidableEq T] [DecidableEq W]

theorem Handover.owning {t : T} {w : W} (hh : Handover s s' t w) (h : Owning s) : Owning s' := by
  have htaken : ∀ v, v ≠ w → Taken s.core v → Taken s'.core v := by
    intro v hv ht
    unfold Taken
    rw [hh.flags v hv ht.2]
    exact ht
  have hne : ∀ u v, u ≠ t → (s'.pc u).owns = some v → v ≠ w ∧ (s.pc u).owns = some v := by
    intro u v hu hv
    rw [hh.pc u hu] at hv
    exact ⟨fun he => hh.sole u hu (he ▸ hv), hv⟩
  refine ⟨?_, ?_, ?_, ?_⟩
  · intro u v hu
    by_cases ht : u = t
    · subst ht
      obtain ⟨rfl, h1, h2⟩ := hh.own v hu
      exact ⟨h1, h2⟩
    · obtain ⟨hv, hold⟩ := hne u v ht hu
      obtain ⟨h1, h2⟩ := h.own u v hold
      exact ⟨htaken v hv h1, (hh.timer v hv).trans h2⟩
  · intro u1 u2 v h1 h2
    by_cases ht1 : u1 = t <;> by_cases ht2 : u2 = t
    · exact ht1.trans ht2.symm
    · subst ht1
      exact absurd (hh.own v h1).1 (hne u2 v ht2 h2).1
    · subst ht2
      exact absurd (hh.own v h2).1 (hne u1 v ht1 h1).1
    · exact h.own_unique u1 u2 v (hne u1 v ht1 h1).2 (hne u2 v ht2 h2).2
  · intro u v n hu
    by_cases ht : u = t
    · subst ht
      exact hh.held v n hu
    · rw [hh.pc u ht] at hu
      exact hh.stageHeld u n ht (h.held u v n hu)
  · intro v g n hv
    by_cases hw : v = w
    · subst hw
      exact hh.self g n hv
    · rw [hh.timer v hw] at hv
      obtain ⟨h1, h2⟩ := h.timer v g n hv
      exact ⟨htaken v hw h1, hh.stageTimer v n hw h2⟩

/-- What a thread that only moves may own is what it owned. -/
theorem LocalMove.owns [DecidableEq G] [DecidableEq P] {t : T} {p : Pc P Q G W}
    (h : LocalMove cfg s t p) {v : W} (hp : p.owns = some v) :
    (s.pc t).owns = some v := by
  cases h with
  | select hpc _ | switch hpc _ => rw [hpc]; exact hp
  | grabMiss | grabPending | grabRead | grabReadFail | grabLockFail | grabForeign | grabWait
  | grabGiveUp | grabAgain
  | flush | waitOver | waitSleep | waitSignalled | interrupt | sleepAgain => simp [Pc.owns, Resume.owns] at hp
  | foreignLoad hpc => rw [hpc]; exact hp
  | flushNone hpc _ | flushGone hpc _ | barrierDone hpc _ =>
    rw [owns_afterFlush] at hp
    rw [hpc]
    exact hp
  | flushRead hpc _ | flushForeign hpc _ _ => rw [hpc]; exact hp

theorem LocalMove.held [DecidableEq G] [DecidableEq P] {t : T} {p : Pc P Q G W}
    (h : LocalMove cfg s t p) {v : W} {n : ℕ}
    (hp : p.held = some (v, n)) : (s.pc t).held = some (v, n) := by
  cases h with
  | select hpc _ | switch hpc _ => rw [hpc]; exact hp
  | grabMiss | grabPending | grabRead | grabReadFail | grabLockFail | grabForeign | grabWait
  | grabGiveUp | grabAgain
  | flush | waitOver | waitSleep | waitSignalled | interrupt | sleepAgain | foreignLoad | flushRead
  | flushForeign =>
    simp [Pc.held] at hp
  | flushNone | flushGone | barrierDone =>
    rw [held_afterFlush] at hp
    cases hp

end Owning

end Skp.Workqueue
