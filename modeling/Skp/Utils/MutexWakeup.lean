import Skp.Utils.MutexModel

/-! # Exclusion and wake-ups of the mutex

The mutex is passed on as a token: it is in the count when that is 1, or with one thread, which
holds the mutex or is about to put it back. A waiter leaves -1 in the count before it sleeps, so
only a barging locker makes the next unlock miss the list, and it does so while a woken waiter is on
its way. -/
namespace Skp.Utils
set_option autoImplicit false
open Skp.Foundations

variable {T : Type}

/-- The mutex is held: the call of `mutex_lock` or `mutex_trylock` has got it and `mutex_unlock` has
not begun. -/
def MutexPc.holds : MutexPc T → Bool
  | .slowDel => true
  | .slowSet => true
  | .slowDone => true
  | .holding => true
  | _ => false

/-- The mutex is held or an unlocker has not put 1 into the count yet. -/
def MutexPc.hasToken : MutexPc T → Bool
  | .unlockSlow => true
  | .unlockSet => true
  | p => p.holds

/-- Inside a section under `wait_lock`. -/
def MutexPc.locked : MutexPc T → Bool
  | .slowXchg => true
  | .slowUnlock => true
  | .slowDel => true
  | .slowSet => true
  | .slowDone => true
  | .unlockSet => true
  | .unlockWake => true
  | .unlockFutex _ => true
  | .unlockDone => true
  | _ => false

/-- On the wait list. -/
def MutexPc.queued : MutexPc T → Bool
  | .slowXchg => true
  | .slowUnlock => true
  | .waitCheck => true
  | .asleep => true
  | .relock => true
  | .slowDel => true
  | _ => false

/-- In `__mutex_unlock_slowpath`. -/
def MutexPc.unlocking : MutexPc T → Bool
  | .unlockSlow => true
  | .unlockSet => true
  | .unlockWake => true
  | .unlockFutex _ => true
  | .unlockDone => true
  | _ => false

/-- An unlocker that has still to look at the list. -/
def MutexPc.willLook : MutexPc T → Bool
  | .unlockSlow => true
  | .unlockSet => true
  | .unlockWake => true
  | _ => false

/-- A waiter that will try to take the mutex again without any more help: it is awake on the way to
its exchange, or `futex_wait` will find its flag. -/
def Willing (s : MutexState T) (w : T) : Prop :=
  s.pc w = .slowXchg ∨ s.pc w = .relock ∨ (s.pc w = .waitCheck ∧ s.flags w ≠ 0)

/-- At most one thread holds the mutex. -/
def Exclusive (s : MutexState T) : Prop := ∀ t u, (s.pc t).holds = true → (s.pc u).holds = true → t = u

/-- While nobody holds the mutex and there are waiters, one of them will try or an unlocker is on
its slow path. -/
def NoneForgotten (s : MutexState T) : Prop :=
  (∀ t, (s.pc t).holds = false) → s.waitList ≠ [] → (∃ w ∈ s.waitList, Willing s w) ∨
    ∃ u, (s.pc u).unlocking = true

/-- Fewer than `2 ^ 32` signals to one waiter until it clears its flags. -/
def FewSignals (s : MutexState T) : MutexAct T → Prop
  | .step u => s.pc u = .unlockWake → ∀ w ∈ s.waitList.head?, s.signals w + 1 < 2 ^ 32
  | _ => True

/-! ## The token -/

structure MutexInv (s : MutexState T) : Prop where
  token : ∃ owner, HeldBy MutexPc.hasToken s.pc owner ∧ (owner = none ↔ s.count = 1)
  count_le : s.count ≤ 1
  lock : HeldBy MutexPc.locked s.pc s.waitLock
  queue : ∀ t, t ∈ s.waitList ↔ (s.pc t).queued = true
  nodup : s.waitList.Nodup
  del : ∀ t, s.pc t = .slowDel → s.count < 0
  set : ∀ t, s.pc t = .slowSet → s.waitList = []
  flags : ∀ t, s.flags t = BitVec.ofNat 32 (s.signals t)

variable {s s' : MutexState T} {t : T} {p : MutexPc T}

theorem MutexInv.count_lt (h : MutexInv s) (ht : (s.pc t).hasToken = true) : s.count < 1 := by
  obtain ⟨owner, howner, hcount⟩ := h.token
  refine lt_of_le_of_ne h.count_le fun hone => ?_
  have hsome := (howner t).mp ht
  rw [hcount.mpr hone] at hsome
  cases hsome

theorem MutexInv.token_unique {u : T} (h : MutexInv s) (ht : (s.pc t).hasToken = true)
    (hu : (s.pc u).hasToken = true) : t = u := by
  obtain ⟨owner, howner, -⟩ := h.token
  exact howner.unique ht hu

theorem hasToken_of_holds (h : p.holds = true) : p.hasToken = true := by
  cases p <;> first | rfl | exact h

theorem MutexInv.exclusive (h : MutexInv s) : Exclusive s := fun _ _ ht hu =>
  h.token_unique (hasToken_of_holds ht) (hasToken_of_holds hu)

variable [DecidableEq T]

@[simp] theorem goto_count : (s.goto t p).count = s.count := rfl
@[simp] theorem goto_waitLock : (s.goto t p).waitLock = s.waitLock := rfl
@[simp] theorem goto_waitList : (s.goto t p).waitList = s.waitList := rfl
@[simp] theorem goto_flags : (s.goto t p).flags = s.flags := rfl
@[simp] theorem goto_pc : (s.goto t p).pc = Function.update s.pc t p := rfl

theorem MutexInv.queue_stay (h : MutexInv s) (hqueue : p.queued = (s.pc t).queued) (u : T) :
    u ∈ s.waitList ↔ (Function.update s.pc t p u).queued = true := by
  by_cases hu : u = t
  · subst hu
    rw [Function.update_self, hqueue, h.queue]
  · rw [Function.update_of_ne hu, h.queue]

/-- A thread moves on with the token, the lock and the place in the list it has; only the count may
change, to a value that means the same. -/
theorem MutexInv.move {c : ℤ} (h : MutexInv s) (htoken : p.hasToken = (s.pc t).hasToken)
    (hlock : p.locked = (s.pc t).locked)
    (hqueue : p.queued = (s.pc t).queued) (hle : c ≤ 1) (hone : c = 1 ↔ s.count = 1)
    (hdel : p = .slowDel → c < 0) (hothers : ∀ u, u ≠ t → s.pc u = .slowDel → c < 0)
    (hset : p = .slowSet → s.waitList = []) :
    MutexInv ({ s with count := c }.goto t p) where
  token := by
    obtain ⟨owner, howner, hcount⟩ := h.token
    exact ⟨owner, howner.stay htoken, hcount.trans hone.symm⟩
  count_le := hle
  lock := h.lock.stay hlock
  queue := h.queue_stay hqueue
  nodup := h.nodup
  del := (Function.forall_update_iff s.pc fun _ q => q = .slowDel → c < 0).mpr ⟨hdel, hothers⟩
  set :=
    (Function.forall_update_iff s.pc fun _ q => q = .slowSet → s.waitList = []).mpr
      ⟨hset, fun u _ => h.set u⟩
  flags := h.flags

theorem MutexInv.walk (h : MutexInv s) (htoken : p.hasToken = (s.pc t).hasToken)
    (hlock : p.locked = (s.pc t).locked)
    (hqueue : p.queued = (s.pc t).queued) (hdel : p ≠ .slowDel) (hset : p ≠ .slowSet) :
    MutexInv (s.goto t p) :=
  h.move htoken hlock hqueue h.count_le Iff.rfl (fun hp => absurd hp hdel)
    (fun u _ => h.del u) fun hp => absurd hp hset

theorem MutexInv.take {c : ℤ} (h : MutexInv s) (hone : s.count = 1) (htoken : p.hasToken = true)
    (hlock : p.locked = (s.pc t).locked) (hqueue : p.queued = (s.pc t).queued) (hlt : c < 1)
    (hdel : p = .slowDel → c < 0)
    (hset : p ≠ .slowSet) : MutexInv ({ s with count := c }.goto t p) where
  token := by
    obtain ⟨owner, howner, hcount⟩ := h.token
    obtain rfl : owner = none := hcount.mpr hone
    exact ⟨some t, howner.enter htoken, by simp [hlt.ne]⟩
  count_le := hlt.le
  lock := h.lock.stay hlock
  queue := h.queue_stay hqueue
  nodup := h.nodup
  del := by
    refine (Function.forall_update_iff s.pc fun _ q => q = .slowDel → c < 0).mpr ⟨hdel, fun u _ hu => ?_⟩
    have hneg := h.del u hu
    omega
  set := (Function.forall_update_iff s.pc fun _ q => q = .slowSet → s.waitList = []).mpr
    ⟨fun hp => absurd hp hset, fun u _ => h.set u⟩
  flags := h.flags

theorem MutexInv.give (h : MutexInv s) (ht : (s.pc t).hasToken = true) (htoken : p.hasToken = false)
    (hlock : p.locked = (s.pc t).locked) (hqueue : p.queued = (s.pc t).queued) :
    MutexInv ({ s with count := 1 }.goto t p) where
  token := by
    obtain ⟨owner, howner, -⟩ := h.token
    obtain rfl : owner = some t := (howner t).mp ht
    exact ⟨none, howner.leave htoken, by simp⟩
  count_le := le_rfl
  lock := h.lock.stay hlock
  queue := h.queue_stay hqueue
  nodup := h.nodup
  del := by
    refine (Function.forall_update_iff s.pc fun _ q => q = .slowDel → (1 : ℤ) < 0).mpr
      ⟨fun hp => ?_, fun u hu hdel => ?_⟩
    · rw [hp] at htoken
      cases htoken
    · -- a waiter before its `list_del` has the token too
      exact absurd (h.token_unique (by rw [hdel]; rfl) ht) hu
  set := by
    refine (Function.forall_update_iff s.pc fun _ q => q = .slowSet → s.waitList = []).mpr
      ⟨fun hp => ?_, fun u _ => h.set u⟩
    rw [hp] at htoken
    cases htoken
  flags := h.flags

/-- `wait_lock` is taken. -/
theorem MutexInv.acquire (h : MutexInv s) (hfree : s.waitLock = none)
    (htoken : p.hasToken = (s.pc t).hasToken)
    (hlock : p.locked = true) (hqueue : p.queued = (s.pc t).queued) (hdel : p ≠ .slowDel)
    (hset : p ≠ .slowSet) :
    MutexInv ({ s with waitLock := some t }.goto t p) where
  token := by
    obtain ⟨owner, howner, hcount⟩ := h.token
    exact ⟨owner, howner.stay htoken, hcount⟩
  count_le := h.count_le
  lock := by
    have hlocked := h.lock
    rw [hfree] at hlocked
    exact hlocked.enter hlock
  queue := h.queue_stay hqueue
  nodup := h.nodup
  del := (Function.forall_update_iff s.pc fun _ q => q = .slowDel → s.count < 0).mpr
    ⟨fun hp => absurd hp hdel, fun u _ => h.del u⟩
  set := (Function.forall_update_iff s.pc fun _ q => q = .slowSet → s.waitList = []).mpr
    ⟨fun hp => absurd hp hset, fun u _ => h.set u⟩
  flags := h.flags

/-- `wait_lock` is given back. -/
theorem MutexInv.release (h : MutexInv s) (ht : (s.pc t).locked = true)
    (htoken : p.hasToken = (s.pc t).hasToken)
    (hlock : p.locked = false) (hqueue : p.queued = (s.pc t).queued) :
    MutexInv ({ s with waitLock := none }.goto t p) where
  token := by
    obtain ⟨owner, howner, hcount⟩ := h.token
    exact ⟨owner, howner.stay htoken, hcount⟩
  count_le := h.count_le
  lock := by
    have hlocked := h.lock
    rw [(hlocked t).mp ht] at hlocked
    exact hlocked.leave hlock
  queue := h.queue_stay hqueue
  nodup := h.nodup
  del := by
    refine (Function.forall_update_iff s.pc fun _ q => q = .slowDel → s.count < 0).mpr
      ⟨fun hp => ?_, fun u _ => h.del u⟩
    rw [hp] at hlock
    cases hlock
  set := by
    refine (Function.forall_update_iff s.pc fun _ q => q = .slowSet → s.waitList = []).mpr
      ⟨fun hp => ?_, fun u _ => h.set u⟩
    rw [hp] at hlock
    cases hlock
  flags := h.flags

theorem MutexInv.clearFlags (h : MutexInv s) (w : T) : MutexInv (s.clearFlags w) where
  token := h.token
  count_le := h.count_le
  lock := h.lock
  queue := h.queue
  nodup := h.nodup
  del := h.del
  set := h.set
  flags u := by
    simp only [MutexState.clearFlags]
    by_cases hu : u = w
    · simp [hu]
    · simp [hu, h.flags]

theorem MutexInv.signal (h : MutexInv s) (w : T) : MutexInv (s.signal w) where
  token := h.token
  count_le := h.count_le
  lock := h.lock
  queue := h.queue
  nodup := h.nodup
  del := h.del
  set := h.set
  flags u := by
    simp only [MutexState.signal]
    by_cases hu : u = w
    · subst hu
      simp [h.flags, BitVec.ofNat_add]
    · simp [hu, h.flags]

theorem MutexInv.enqueue (h : MutexInv s) (hfree : s.waitLock = none) (hp : s.pc t = .slowEnter) :
    MutexInv (({ s with waitLock := some t, waitList := s.waitList ++ [t] }.clearFlags t).goto t
      .slowXchg) := by
  have hnot : t ∉ s.waitList := by
    rw [h.queue, hp]
    exact Bool.false_ne_true
  constructor
  · obtain ⟨owner, howner, hcount⟩ := h.token
    exact ⟨owner, howner.stay (by rw [hp]; rfl), hcount⟩
  · exact h.count_le
  · have hlocked := h.lock
    rw [hfree] at hlocked
    exact hlocked.enter rfl
  · intro u
    simp only [MutexState.clearFlags, goto_waitList, goto_pc, List.mem_append, List.mem_singleton]
    by_cases hu : u = t
    · simp [hu, MutexPc.queued]
    · rw [Function.update_of_ne hu, ← h.queue, or_iff_left hu]
  · exact List.nodup_append.mpr ⟨h.nodup, List.nodup_singleton t, fun u hu v hv heq =>
      hnot (List.mem_singleton.mp hv ▸ heq ▸ hu)⟩
  · exact (Function.forall_update_iff s.pc fun _ q => q = .slowDel → s.count < 0).mpr
      ⟨(fun hq => by cases hq), fun u _ => h.del u⟩
  · -- nobody else is in a section under the lock
    refine (Function.forall_update_iff s.pc fun _ q => q = .slowSet → s.waitList ++ [t] = []).mpr
      ⟨(fun hq => by cases hq), fun u _ hu => ?_⟩
    have hlocked := h.lock u
    rw [hu, hfree] at hlocked
    exact absurd (hlocked.mp rfl) (by simp)
  · exact (h.clearFlags t).flags

theorem MutexInv.dequeue (h : MutexInv s) (hp : s.pc t = .slowDel) :
    MutexInv ({ s with waitList := s.waitList.erase t }.goto t (if s.waitList.erase t = [] then
      .slowSet else .slowDone)) := by
  generalize hq : (if s.waitList.erase t = [] then MutexPc.slowSet else MutexPc.slowDone) = q
  have hclass : q.hasToken = true ∧ q.locked = true ∧ q.queued = false ∧ q ≠ .slowDel ∧
      (q = .slowSet → s.waitList.erase t = []) := by
    subst hq
    split
    · exact ⟨rfl, rfl, rfl, by simp, fun _ => by assumption⟩
    · exact ⟨rfl, rfl, rfl, by simp, fun heq => by cases heq⟩
  obtain ⟨htoken, hlock, hqueue, hdel, hset⟩ := hclass
  constructor
  · obtain ⟨owner, howner, hcount⟩ := h.token
    exact ⟨owner, howner.stay (by rw [hp, htoken]; rfl), hcount⟩
  · exact h.count_le
  · exact h.lock.stay (by rw [hp, hlock]; rfl)
  · intro u
    simp only [goto_waitList, goto_pc, h.nodup.mem_erase_iff]
    by_cases hu : u = t
    · simp [hu, hqueue]
    · rw [Function.update_of_ne hu, ← h.queue, and_iff_right hu]
  · exact h.nodup.erase t
  · exact (Function.forall_update_iff s.pc fun _ q => q = .slowDel → s.count < 0).mpr
      ⟨fun heq => absurd heq hdel, fun u _ => h.del u⟩
  · refine (Function.forall_update_iff s.pc fun _ q => q = .slowSet → s.waitList.erase t = []).mpr
      ⟨hset, fun u _ hu => ?_⟩
    rw [h.set u hu]
    rfl
  · exact h.flags

/-- `futex_wake`. -/
theorem MutexInv.wake (h : MutexInv s) (w : T) :
    MutexInv (if s.pc w = .asleep then s.goto w .relock else s) := by
  split
  · rename_i hw
    exact h.walk (by rw [hw]; rfl) (by rw [hw]; rfl) (by rw [hw]; rfl) (by simp) (by simp)
  · exact h

theorem mutexNext_inv (h : MutexInv s) : ∀ s', mutexNext s t (s.pc t) = some s' → MutexInv s' := by
  intro s' hstep
  cases hp : s.pc t with
  | idle => simp [mutexNext, hp] at hstep
  | asleep => simp [mutexNext, hp] at hstep
  | holding => simp [mutexNext, hp] at hstep
  | slowEnter =>
    simp only [mutexNext, hp] at hstep
    split at hstep
    · rename_i hfree
      cases hstep
      exact h.enqueue hfree hp
    · cases hstep
  | slowXchg =>
    simp only [mutexNext, hp] at hstep
    cases hstep
    split
    · rename_i hone
      exact h.take hone rfl (by rw [hp]; rfl) (by rw [hp]; rfl) (by norm_num) (fun _ => by norm_num) (by simp)
    · rename_i hne
      refine h.move (by rw [hp]; rfl) (by rw [hp]; rfl) (by rw [hp]; rfl) (by norm_num) ?_
        (fun heq => by cases heq)
        (fun _ _ _ => by norm_num) fun heq => by cases heq
      simp [hne]
  | slowUnlock =>
    simp only [mutexNext, hp] at hstep
    cases hstep
    exact h.release (by rw [hp]; rfl) (by rw [hp]; rfl) rfl (by rw [hp]; rfl)
  | waitCheck =>
    simp only [mutexNext, hp] at hstep
    cases hstep
    split
    · exact h.walk (by rw [hp]; rfl) (by rw [hp]; rfl) (by rw [hp]; rfl) (by simp) (by simp)
    · exact h.walk (by rw [hp]; rfl) (by rw [hp]; rfl) (by rw [hp]; rfl) (by simp) (by simp)
  | relock =>
    simp only [mutexNext, hp] at hstep
    split at hstep
    · rename_i hfree
      cases hstep
      exact (h.acquire hfree (by rw [hp]; rfl) rfl (by rw [hp]; rfl) (by simp) (by simp)).clearFlags t
    · cases hstep
  | slowDel =>
    simp only [mutexNext, hp] at hstep
    cases hstep
    exact h.dequeue hp
  | slowSet =>
    simp only [mutexNext, hp] at hstep
    cases hstep
    have hlt := h.count_lt (t := t) (by rw [hp]; rfl)
    refine h.move (by rw [hp]; rfl) (by rw [hp]; rfl) (by rw [hp]; rfl) (by norm_num) (by simp [hlt.ne])
      (fun heq => by cases heq) (fun u hu hdel => ?_) fun heq => by cases heq
    exact absurd (h.token_unique (by rw [hdel]; rfl) (by rw [hp]; rfl)) hu
  | slowDone =>
    simp only [mutexNext, hp] at hstep
    cases hstep
    exact h.release (by rw [hp]; rfl) (by rw [hp]; rfl) rfl (by rw [hp]; rfl)
  | unlockSlow =>
    simp only [mutexNext, hp] at hstep
    split at hstep
    · rename_i hfree
      cases hstep
      exact h.acquire hfree (by rw [hp]; rfl) rfl (by rw [hp]; rfl) (by simp) (by simp)
    · cases hstep
  | unlockSet =>
    simp only [mutexNext, hp] at hstep
    cases hstep
    exact h.give (by rw [hp]; rfl) rfl (by rw [hp]; rfl) (by rw [hp]; rfl)
  | unlockWake =>
    simp only [mutexNext, hp] at hstep
    split at hstep
    · cases hstep
      exact h.walk (by rw [hp]; rfl) (by rw [hp]; rfl) (by rw [hp]; rfl) (by simp) (by simp)
    · rename_i w ws hlist
      cases hstep
      have hpc : (s.signal w).pc t = .unlockWake := hp
      exact (h.signal w).walk (by rw [hpc]; rfl) (by rw [hpc]; rfl) (by rw [hpc]; rfl) (by simp) (by simp)
  | unlockFutex w =>
    simp only [mutexNext, hp] at hstep
    cases hstep
    have hpc : (if s.pc w = .asleep then s.goto w .relock else s).pc t = .unlockFutex w := by
      split
      · rename_i hw
        have hne : t ≠ w := fun heq => by
          rw [← heq, hp] at hw
          cases hw
        rw [goto_pc, Function.update_of_ne hne, hp]
      · exact hp
    exact (h.wake w).walk (by rw [hpc]; rfl) (by rw [hpc]; rfl) (by rw [hpc]; rfl) (by simp) (by simp)
  | unlockDone =>
    simp only [mutexNext, hp] at hstep
    cases hstep
    exact h.release (by rw [hp]; rfl) (by rw [hp]; rfl) rfl (by rw [hp]; rfl)

theorem mutexStep_inv (h : MutexInv s) (a : MutexAct T) : ∀ s', mutexStep s a = some s' → MutexInv s' := by
  intro s' hstep
  cases a with
  | step t => exact mutexNext_inv h s' hstep
  | lock t =>
    rw [mutexStep] at hstep
    split at hstep
    · rename_i hp
      cases hstep
      by_cases hone : s.count = 1
      · rw [hone, if_neg (by norm_num)]
        exact h.take hone rfl (by rw [hp]; rfl) (by rw [hp]; rfl) (by norm_num)
          (fun heq => by cases heq) (by simp)
      · have hle := h.count_le
        rw [if_pos (by omega)]
        refine h.move (by rw [hp]; rfl) (by rw [hp]; rfl) (by rw [hp]; rfl) (by omega) (by omega)
          (fun heq => by cases heq)
          (fun u _ hu => ?_) fun heq => by cases heq
        have hneg := h.del u hu
        omega
    · cases hstep
  | trylock t =>
    rw [mutexStep] at hstep
    split at hstep
    · rename_i hp
      cases hstep
      split
      · rename_i hone
        exact h.take hone rfl (by rw [hp]; rfl) (by rw [hp]; rfl) (by norm_num)
          (fun heq => by cases heq) (by simp)
      · exact h
    · cases hstep
  | unlock t =>
    rw [mutexStep] at hstep
    split at hstep
    · rename_i hp
      cases hstep
      have htoken : (s.pc t).hasToken = true := by rw [hp]; rfl
      have hlt := h.count_lt htoken
      split
      · rename_i hneg
        refine h.move (by rw [hp]; rfl) (by rw [hp]; rfl) (by rw [hp]; rfl) (by omega) (by omega)
          (fun heq => by cases heq)
          (fun u hu hdel => ?_) fun heq => by cases heq
        exact absurd (h.token_unique (by rw [hdel]; rfl) htoken) hu
      · have hzero : s.count + 1 = 1 := by omega
        rw [hzero]
        exact h.give htoken rfl (by rw [hp]; rfl) (by rw [hp]; rfl)
    · cases hstep
  | interrupt t =>
    rw [mutexStep] at hstep
    split at hstep
    · rename_i hp
      cases hstep
      exact h.walk (by rw [hp]; rfl) (by rw [hp]; rfl) (by rw [hp]; rfl) (by simp) (by simp)
    · cases hstep

omit [DecidableEq T] in
theorem mutexInv_init : MutexInv (mutexInit : MutexState T) where
  token := ⟨none, fun t => by simp [mutexInit, MutexPc.hasToken, MutexPc.holds], by simp [mutexInit]⟩
  count_le := le_rfl
  lock t := by simp [mutexInit, MutexPc.locked]
  queue t := by simp [mutexInit, MutexPc.queued]
  nodup := List.nodup_nil
  del t := by simp [mutexInit]
  set t := by simp [mutexInit]
  flags t := rfl

/-! ## Wake-ups -/

/-- A waiter that will try again, if need be after the `futex_wake` that an unlocker is about to do. -/
def Coming (pc : T → MutexPc T) (flags : T → BitVec 32) (w : T) : Prop :=
  pc w = .slowXchg ∨ pc w = .relock ∨ (pc w = .waitCheck ∧ flags w ≠ 0) ∨
    (pc w = .asleep ∧ ∃ u, pc u = .unlockFutex w)

/-- Waiters that are all asleep have left a negative count behind, which sends the next unlocker to
the list. -/
def Awaited (s : MutexState T) : Prop :=
  s.waitList ≠ [] → s.count < 0 ∨ (∃ w ∈ s.waitList, Coming s.pc s.flags w) ∨ ∃ u, (s.pc u).willLook = true

/-- At this place a thread is not a waiter that will try again, nor does it wake one or look at the list. -/
def MutexPc.quiet : MutexPc T → Bool
  | .slowXchg => false
  | .relock => false
  | .waitCheck => false
  | .asleep => false
  | .unlockFutex _ => false
  | p => !p.willLook

theorem Coming.update {pc : T → MutexPc T} {flags : T → BitVec 32} {w : T}
    (h : Coming pc flags w) (hw : w ≠ t)
    (ht : ∀ v, pc t ≠ .unlockFutex v) : Coming (Function.update pc t p) flags w := by
  rw [Coming, Function.update_of_ne hw]
  rcases h with h | h | h | ⟨h, u, hu⟩
  · exact Or.inl h
  · exact Or.inr (Or.inl h)
  · exact Or.inr (Or.inr (Or.inl h))
  · have hut : u ≠ t := fun heq => ht w (heq ▸ hu)
    exact Or.inr (Or.inr (Or.inr ⟨h, u, by rw [Function.update_of_ne hut, hu]⟩))

theorem Awaited.quiet (h : Awaited s) (ht : (s.pc t).quiet = true) (hpc : s'.pc = Function.update s.pc t p)
    (hflags : s'.flags = s.flags) (hlist : s'.waitList = s.waitList)
    (hcount : s.count < 0 → s'.count < 0) : Awaited s' := by
  intro hne
  rw [hpc, hflags, hlist]
  rcases h (hlist ▸ hne) with hneg | ⟨w, hw, hcoming⟩ | ⟨u, hu⟩
  · exact Or.inl (hcount hneg)
  · refine Or.inr (Or.inl ⟨w, hw, hcoming.update ?_ ?_⟩)
    · intro heq
      subst heq
      rcases hcoming with h | h | h | h
      · rw [h] at ht
        cases ht
      · rw [h] at ht
        cases ht
      · rw [h.1] at ht
        cases ht
      · rw [h.1] at ht
        cases ht
    · intro v hv
      rw [hv] at ht
      cases ht
  · refine Or.inr (Or.inr ⟨u, ?_⟩)
    have hut : u ≠ t := by
      intro heq
      subst heq
      revert ht hu
      cases s.pc u <;> simp [MutexPc.quiet, MutexPc.willLook]
    rw [Function.update_of_ne hut]
    exact hu

omit [DecidableEq T] in
theorem awaited_self (ht : t ∈ s.waitList) (h : Coming s.pc s.flags t) : Awaited s :=
  fun _ => Or.inr (Or.inl ⟨t, ht, h⟩)

omit [DecidableEq T] in
theorem awaited_look (h : (s.pc t).willLook = true) : Awaited s := fun _ => Or.inr (Or.inr ⟨t, h⟩)

/-- The first waiter after `xadd`: awake, or it will find its flag, or `futex_wake` is next. -/
theorem MutexInv.signalled (h : MutexInv s) {w : T} (hp : s.pc t = .unlockWake) (hw : w ∈ s.waitList)
    (hfew : s.signals w + 1 < 2 ^ 32) :
    Coming (Function.update s.pc t (.unlockFutex w)) (Function.update s.flags w (s.flags w + 1)) w := by
  have hqueued := (h.queue w).mp hw
  have hwt : w ≠ t := by
    intro heq
    rw [heq, hp] at hqueued
    cases hqueued
  -- the unlocker has the lock, so the waiter has not
  have hlocked : (s.pc w).locked = false := by
    refine h.lock.outside fun heq => hwt ?_
    have ht := (h.lock t).mp (by rw [hp]; rfl)
    exact Option.some.inj (heq.symm.trans ht)
  rw [Coming, Function.update_of_ne hwt, Function.update_self]
  cases hpw : s.pc w with
  | relock => exact Or.inr (Or.inl rfl)
  | waitCheck =>
    refine Or.inr (Or.inr (Or.inl ⟨rfl, fun hzero => ?_⟩))
    have hnat := congrArg BitVec.toNat hzero
    rw [h.flags, BitVec.toNat_add, BitVec.toNat_ofNat] at hnat
    have hone : (1 : BitVec 32).toNat = 1 := rfl
    have hnone : (0 : BitVec 32).toNat = 0 := rfl
    omega
  | asleep => exact Or.inr (Or.inr (Or.inr ⟨rfl, t, Function.update_self ..⟩))
  | slowXchg =>
    rw [hpw] at hlocked
    cases hlocked
  | slowUnlock =>
    rw [hpw] at hlocked
    cases hlocked
  | slowDel =>
    rw [hpw] at hlocked
    cases hlocked
  | _ =>
    rw [hpw] at hqueued
    cases hqueued

theorem mutexNext_awaited (h : MutexInv s) (haw : Awaited s)
    (hfew : s.pc t = .unlockWake → ∀ w ∈ s.waitList.head?, s.signals w + 1 < 2 ^ 32) :
    ∀ s', mutexNext s t (s.pc t) = some s' → Awaited s' := by
  intro s' hstep
  cases hp : s.pc t with
  | idle => simp [mutexNext, hp] at hstep
  | asleep => simp [mutexNext, hp] at hstep
  | holding => simp [mutexNext, hp] at hstep
  | slowEnter =>
    simp only [mutexNext, hp] at hstep
    split at hstep
    · cases hstep
      exact awaited_self (t := t) (by simp [MutexState.clearFlags]) (Or.inl (Function.update_self ..))
    · cases hstep
  | slowXchg =>
    simp only [mutexNext, hp] at hstep
    cases hstep
    exact fun _ => Or.inl (by norm_num)
  | slowUnlock =>
    simp only [mutexNext, hp] at hstep
    cases hstep
    exact haw.quiet (by rw [hp]; rfl) rfl rfl rfl id
  | waitCheck =>
    simp only [mutexNext, hp] at hstep
    cases hstep
    split
    · rename_i hzero
      intro hne
      rcases haw hne with hneg | ⟨w, hw, hcoming⟩ | ⟨u, hu⟩
      · exact Or.inl hneg
      · -- the thread itself was not one that will try again
        have hwt : w ≠ t := by
          intro heq
          subst heq
          simp [Coming, hp, hzero] at hcoming
        exact Or.inr (Or.inl ⟨w, hw, hcoming.update hwt (by simp [hp])⟩)
      · have hut : u ≠ t := by
          intro heq
          rw [heq, hp] at hu
          cases hu
        exact Or.inr (Or.inr ⟨u, by rw [goto_pc, Function.update_of_ne hut]; exact hu⟩)
    · exact awaited_self (t := t) ((h.queue t).mpr (by rw [hp]; rfl))
        (Or.inr (Or.inl (Function.update_self ..)))
  | relock =>
    simp only [mutexNext, hp] at hstep
    split at hstep
    · cases hstep
      exact awaited_self (t := t) ((h.queue t).mpr (by rw [hp]; rfl)) (Or.inl (Function.update_self ..))
    · cases hstep
  | slowDel =>
    simp only [mutexNext, hp] at hstep
    cases hstep
    exact fun _ => Or.inl (h.del t hp)
  | slowSet =>
    simp only [mutexNext, hp] at hstep
    cases hstep
    exact fun hne => absurd (h.set t hp) hne
  | slowDone =>
    simp only [mutexNext, hp] at hstep
    cases hstep
    exact haw.quiet (by rw [hp]; rfl) rfl rfl rfl id
  | unlockSlow =>
    simp only [mutexNext, hp] at hstep
    split at hstep
    · cases hstep
      exact awaited_look (t := t) (by simp [MutexPc.willLook])
    · cases hstep
  | unlockSet =>
    simp only [mutexNext, hp] at hstep
    cases hstep
    exact awaited_look (t := t) (by simp [MutexPc.willLook])
  | unlockWake =>
    simp only [mutexNext, hp] at hstep
    split at hstep
    · rename_i hnil
      cases hstep
      exact fun hne => absurd hnil hne
    · rename_i w ws hlist
      cases hstep
      have hw : w ∈ s.waitList := by
        rw [hlist]
        exact List.mem_cons_self
      exact awaited_self (t := w) hw (h.signalled hp hw (hfew hp w (by rw [hlist]; rfl)))
  | unlockFutex w =>
    simp only [mutexNext, hp] at hstep
    cases hstep
    have htw : s.pc w = .asleep → w ≠ t := fun hw heq => by
      rw [heq, hp] at hw
      cases hw
    split
    · rename_i hw
      refine awaited_self (t := w) ((h.queue w).mpr (by rw [hw]; rfl)) (Or.inr (Or.inl ?_))
      rw [goto_pc, Function.update_of_ne (htw hw), goto_pc, Function.update_self]
    · rename_i hawake
      intro hne
      rcases haw hne with hneg | ⟨v, hv, hcoming⟩ | ⟨u, hu⟩
      · exact Or.inl hneg
      · have hvt : v ≠ t := by
          intro heq
          subst heq
          simp [Coming, hp] at hcoming
        refine Or.inr (Or.inl ⟨v, hv, ?_⟩)
        rw [Coming, goto_pc, Function.update_of_ne hvt]
        rcases hcoming with hc | hc | hc | ⟨hc, u, hu⟩
        · exact Or.inl hc
        · exact Or.inr (Or.inl hc)
        · exact Or.inr (Or.inr (Or.inl hc))
        · have hut : u ≠ t := by
            intro heq
            rw [heq, hp] at hu
            cases hu
            exact hawake hc
          exact Or.inr (Or.inr (Or.inr ⟨hc, u, by rw [Function.update_of_ne hut, hu]⟩))
      · have hut : u ≠ t := by
          intro heq
          rw [heq, hp] at hu
          cases hu
        exact Or.inr (Or.inr ⟨u, by rw [goto_pc, Function.update_of_ne hut]; exact hu⟩)
  | unlockDone =>
    simp only [mutexNext, hp] at hstep
    cases hstep
    exact haw.quiet (by rw [hp]; rfl) rfl rfl rfl id

theorem mutexStep_awaited (h : MutexInv s) (haw : Awaited s) (a : MutexAct T) (hfew : FewSignals s a) :
    ∀ s', mutexStep s a = some s' → Awaited s' := by
  intro s' hstep
  cases a with
  | step t => exact mutexNext_awaited h haw hfew s' hstep
  | lock t =>
    rw [mutexStep] at hstep
    split at hstep
    · rename_i hp
      cases hstep
      refine haw.quiet (by rw [hp]; rfl) rfl rfl rfl fun hneg => ?_
      simp only [goto_count]
      omega
    · cases hstep
  | trylock t =>
    rw [mutexStep] at hstep
    split at hstep
    · rename_i hp
      cases hstep
      split
      · rename_i hone
        exact haw.quiet (by rw [hp]; rfl) rfl rfl rfl fun hneg => by omega
      · exact haw
    · cases hstep
  | unlock t =>
    rw [mutexStep] at hstep
    split at hstep
    · rename_i hp
      cases hstep
      split
      · exact awaited_look (t := t) (by simp [MutexPc.willLook])
      · rename_i hge
        exact haw.quiet (by rw [hp]; rfl) rfl rfl rfl fun hneg => by omega
    · cases hstep
  | interrupt t =>
    rw [mutexStep] at hstep
    split at hstep
    · rename_i hp
      cases hstep
      exact awaited_self (t := t) ((h.queue t).mpr (by rw [hp]; rfl))
        (Or.inr (Or.inl (Function.update_self ..)))
    · cases hstep

omit [DecidableEq T] in
theorem MutexInv.noneForgotten (h : MutexInv s) (haw : Awaited s) : NoneForgotten s := by
  intro hfree hne
  rcases haw hne with hneg | ⟨w, hw, hc | hc | hc | ⟨-, u, hu⟩⟩ | ⟨u, hu⟩
  · -- the token is with somebody, and nobody holds the mutex
    obtain ⟨owner, howner, hcount⟩ := h.token
    cases owner with
    | none => exact absurd (hcount.mp rfl) (by omega)
    | some u =>
      have htoken := (howner u).mpr rfl
      have hholds := hfree u
      refine Or.inr ⟨u, ?_⟩
      revert htoken hholds
      cases s.pc u <;> simp [MutexPc.hasToken, MutexPc.holds, MutexPc.unlocking]
  · exact Or.inl ⟨w, hw, Or.inl hc⟩
  · exact Or.inl ⟨w, hw, Or.inr (Or.inl hc)⟩
  · exact Or.inl ⟨w, hw, Or.inr (Or.inr hc)⟩
  · exact Or.inr ⟨u, by rw [hu]; rfl⟩
  · refine Or.inr ⟨u, ?_⟩
    revert hu
    cases s.pc u <;> simp [MutexPc.willLook, MutexPc.unlocking]

/-! ## The count -/

/-- Between the decrement of `mutex_lock` and the next exchange. -/
def MutexPc.pending : MutexPc T → Bool
  | .slowEnter => true
  | .slowXchg => true
  | _ => false

section Count
variable [Fintype T]

def CountBound (s : MutexState T) : Prop :=
  -1 - ((Finset.univ.filter fun t => (s.pc t).pending = true).card : ℤ) ≤ s.count

omit [DecidableEq T] in
theorem countBound_of_ge (h : -1 ≤ s.count) : CountBound s := by
  rw [CountBound]
  omega

omit [DecidableEq T] in
theorem CountBound.mono (h : CountBound s) (hpc : ∀ u, (s.pc u).pending = true → (s'.pc u).pending = true)
    (hcount : s.count ≤ s'.count) : CountBound s' := by
  have hsub : (Finset.univ.filter fun t => (s.pc t).pending = true) ⊆ Finset.univ.filter fun t =>
    (s'.pc t).pending = true := by
    intro u hu
    rw [Finset.mem_filter] at hu ⊢
    exact ⟨hu.1, hpc u hu.2⟩
  have hcard := Finset.card_le_card hsub
  rw [CountBound] at h ⊢
  omega

theorem CountBound.goto (h : CountBound s) (hp : (s.pc t).pending = true → p.pending = true)
    (hpc : s'.pc = Function.update s.pc t p) (hcount : s.count ≤ s'.count) : CountBound s' := by
  refine h.mono (fun u hu => ?_) hcount
  rw [hpc]
  by_cases hut : u = t
  · subst hut
    rw [Function.update_self]
    exact hp hu
  · rw [Function.update_of_ne hut]
    exact hu

theorem CountBound.lock (h : CountBound s) (ht : s.pc t = .idle) :
    CountBound ({ s with count := s.count - 1 }.goto t .slowEnter) := by
  have hnot : t ∉ Finset.univ.filter fun u => (s.pc u).pending = true := by
    rw [Finset.mem_filter, ht]
    exact fun hmem => Bool.false_ne_true hmem.2
  have hsub : insert t (Finset.univ.filter fun u => (s.pc u).pending = true) ⊆
      Finset.univ.filter fun u => ((Function.update s.pc t .slowEnter) u).pending = true := by
    intro u hu
    rw [Finset.mem_filter]
    refine ⟨Finset.mem_univ u, ?_⟩
    by_cases hut : u = t
    · subst hut
      rw [Function.update_self]
      rfl
    · rw [Function.update_of_ne hut]
      exact (Finset.mem_filter.mp (Finset.mem_of_mem_insert_of_ne hu hut)).2
  have hcard := Finset.card_le_card hsub
  rw [Finset.card_insert_of_notMem hnot] at hcard
  rw [CountBound] at h
  change -1 - ((Finset.univ.filter fun u => ((Function.update s.pc t .slowEnter) u).pending =
      true).card : ℤ) ≤ s.count - 1
  omega

theorem mutexStep_countBound (h : CountBound s) (a : MutexAct T) :
    ∀ s', mutexStep s a = some s' → CountBound s' := by
  intro s' hstep
  cases a with
  | lock t =>
    rw [mutexStep] at hstep
    split at hstep
    · rename_i hp
      cases hstep
      split
      · exact h.lock hp
      · rename_i hge
        refine countBound_of_ge ?_
        simp only [goto_count]
        omega
    · cases hstep
  | trylock t =>
    rw [mutexStep] at hstep
    split at hstep
    · cases hstep
      split
      · exact countBound_of_ge (by norm_num)
      · exact h
    · cases hstep
  | unlock t =>
    rw [mutexStep] at hstep
    split at hstep
    · rename_i hp
      cases hstep
      exact h.goto (t := t) (by simp [hp, MutexPc.pending]) rfl (by simp)
    · cases hstep
  | interrupt t =>
    rw [mutexStep] at hstep
    split at hstep
    · rename_i hp
      cases hstep
      exact h.goto (t := t) (by simp [hp, MutexPc.pending]) rfl le_rfl
    · cases hstep
  | step t =>
    rw [mutexStep] at hstep
    cases hp : s.pc t with
    | slowXchg =>
      simp only [mutexNext, hp] at hstep
      cases hstep
      exact countBound_of_ge le_rfl
    | slowSet =>
      simp only [mutexNext, hp] at hstep
      cases hstep
      exact countBound_of_ge (by norm_num)
    | unlockSet =>
      simp only [mutexNext, hp] at hstep
      cases hstep
      exact countBound_of_ge (by norm_num)
    | unlockFutex w =>
      simp only [mutexNext, hp] at hstep
      cases hstep
      have hwake : CountBound (if s.pc w = .asleep then s.goto w .relock else s) := by
        split
        · rename_i hw
          exact h.goto (t := w) (by simp [hw, MutexPc.pending]) rfl le_rfl
        · exact h
      refine hwake.goto (t := t) ?_ rfl le_rfl
      split
      · rename_i hw
        have hne : t ≠ w := fun heq => by
          rw [← heq, hp] at hw
          cases hw
        simp [hne, hp, MutexPc.pending]
      · simp [hp, MutexPc.pending]
    | unlockWake =>
      simp only [mutexNext, hp] at hstep
      split at hstep
      · cases hstep
        exact h.goto (t := t) (by simp [hp, MutexPc.pending]) rfl le_rfl
      · cases hstep
        exact h.goto (t := t) (by simp [hp, MutexPc.pending]) rfl le_rfl
    | slowEnter =>
      simp only [mutexNext, hp] at hstep
      split at hstep
      · cases hstep
        exact h.goto (t := t) (fun _ => rfl) rfl le_rfl
      · cases hstep
    | relock =>
      simp only [mutexNext, hp] at hstep
      split at hstep
      · cases hstep
        exact h.goto (t := t) (fun _ => rfl) rfl le_rfl
      · cases hstep
    | unlockSlow =>
      simp only [mutexNext, hp] at hstep
      split at hstep
      · cases hstep
        exact h.goto (t := t) (by simp [hp, MutexPc.pending]) rfl le_rfl
      · cases hstep
    | idle => simp [mutexNext, hp] at hstep
    | asleep => simp [mutexNext, hp] at hstep
    | holding => simp [mutexNext, hp] at hstep
    | _ =>
      simp only [mutexNext, hp] at hstep
      cases hstep
      exact h.goto (t := t) (by simp [hp, MutexPc.pending]) rfl le_rfl

theorem mutex_count_bound (as : List (MutexAct T)) (s : MutexState T)
    (hrun : runActs mutexStep mutexInit as = some s) :
    -1 - (Fintype.card T : ℤ) ≤ s.count := by
  have hbound : CountBound s :=
    run_invariant (fun s a s' h _ hstep => mutexStep_countBound h a s' hstep) as _ s
    (countBound_of_ge (by simp [mutexInit])) (runMeets_trivial as _) hrun
  have hcard := Finset.card_le_univ (Finset.univ.filter fun t => (s.pc t).pending = true)
  rw [CountBound] at hbound
  omega

end Count

/-! ## Both -/

/-- In every run at most one thread holds the mutex, and the count stays so far up that it does not
wrap as long as there are fewer than `2 ^ 31` threads. If a waiter that does not get on is signalled
fewer than `2 ^ 32` times, no waiter is left behind on a free mutex. -/
theorem mutex_ok (as : List (MutexAct T)) (s : MutexState T)
    (hrun : runActs mutexStep mutexInit as = some s) :
    Exclusive s ∧ (RunMeets mutexStep FewSignals mutexInit as → NoneForgotten s) ∧
      ∀ threads : Fintype T, -1 - (threads.card : ℤ) ≤ s.count := by
  have hinv : MutexInv s :=
    run_invariant (fun s a s' h _ hstep => mutexStep_inv h a s' hstep) as _ s mutexInv_init
    (runMeets_trivial as _) hrun
  refine ⟨hinv.exclusive, fun hfew => ?_, fun _ => mutex_count_bound as s hrun⟩
  have hboth : MutexInv s ∧ Awaited s :=
    run_invariant (fun s a s' (h : MutexInv s ∧ Awaited s) hgood hstep =>
      ⟨mutexStep_inv h.1 a s' hstep, mutexStep_awaited h.1 h.2 a hgood s' hstep⟩) as _ s
        ⟨mutexInv_init, fun hne => absurd rfl hne⟩ hfew hrun
  exact hboth.1.noneForgotten hboth.2

instance (s : MutexState T) : (a : MutexAct T) → Decidable (FewSignals s a)
  | .step u =>
      inferInstanceAs
        (Decidable (s.pc u = .unlockWake → ∀ w ∈ s.waitList.head?, s.signals w + 1 < 2 ^ 32))
  | .lock _ => inferInstanceAs (Decidable True)
  | .trylock _ => inferInstanceAs (Decidable True)
  | .unlock _ => inferInstanceAs (Decidable True)
  | .interrupt _ => inferInstanceAs (Decidable True)

/-- A waiter is woken while a third thread barges in. -/
def bargedRun : List (MutexAct ℕ) :=
  (.lock 0 :: .lock 1 :: List.replicate 4 (.step 1)).append
    ((.unlock 0 :: List.replicate 5 (.step 0)).append [.lock 2, .step 1, .step 1, .step 1, .step 1,
      .unlock 2, .trylock 0])

theorem mutex_ok_bargedRun : ∃ s, runActs mutexStep mutexInit bargedRun = some s ∧
    RunMeets mutexStep FewSignals mutexInit bargedRun ∧ s.waitList = [1] ∧ s.pc 1 = .asleep ∧
      s.pc 2 = .unlockSlow ∧
      Exclusive s ∧ NoneForgotten s := by
  have hfinal : (runActs mutexStep mutexInit bargedRun).map (fun s => (s.waitList, s.pc 1, s.pc 2)) =
      some ([1], .asleep, .unlockSlow) := by
    decide +kernel
  obtain ⟨s, hs, hvalues⟩ := Option.map_eq_some_iff.mp hfinal
  obtain ⟨hlist, hrest⟩ := Prod.mk.inj hvalues
  obtain ⟨hone, htwo⟩ := Prod.mk.inj hrest
  have hmeets :=
    runMeets_of_checks (show runChecks mutexStep FewSignals mutexInit bargedRun =
      true by decide +kernel)
  obtain ⟨hexclusive, hnone, -⟩ := mutex_ok bargedRun s hs
  exact ⟨s, hs, hmeets, hlist, hone, htwo, hexclusive, hnone hmeets⟩

/-! ## Flags that go round -/

/-- The waiter `none` is before `futex_wait`; `some x` holds the mutex. -/
def stalled (x : Bool) (flags : Option Bool → BitVec 32) (signals : Option Bool → ℕ) :
    MutexState (Option Bool) where
  count := -1
  waitLock := none
  waitList := [none]
  flags := flags
  pc
    | none => .waitCheck
    | some y => if y = x then .holding else .idle
  signals := signals

/-- The other thread queues up, the holder unlocks on the slow path, and the other one gets the mutex. -/
def roundActs (x : Bool) : List (MutexAct (Option Bool)) :=
  .lock (some (!x)) :: .unlock (some x) :: (List.replicate 5 (.step (some x))).append
    (List.replicate 4 (.step (some (!x))))

def roundsActs : ℕ → Bool → List (MutexAct (Option Bool))
  | 0, _ => []
  | n + 1, x => roundActs x ++ roundsActs n (!x)

variable {x : Bool} {flags : Option Bool → BitVec 32} {signals : Option Bool → ℕ}

theorem mutexState_of_pc (s : MutexState (Option Bool)) {pc : Option Bool → MutexPc (Option Bool)}
    (h : ∀ t, pc t = s.pc t) :
    (⟨s.count, s.waitLock, s.waitList, s.flags, pc, s.signals⟩ : MutexState (Option Bool)) = s := by
  rw [funext h]

theorem run_roundActs : runActs mutexStep (stalled x flags signals) (roundActs x) =
    some (stalled (!x) (Function.update (Function.update flags none (flags none + 1)) (some (!x)) 0)
      (Function.update (Function.update signals none (signals none + 1)) (some (!x)) 0)) := by
  cases x with
  | false =>
    exact congrArg some
      (mutexState_of_pc (stalled true _ _) fun t => by rcases t with _ | _ | _ <;> rfl)
  | true =>
    exact congrArg some
      (mutexState_of_pc (stalled false _ _) fun t => by rcases t with _ | _ | _ <;> rfl)

theorem run_roundsActs (n : ℕ) : ∀ (x : Bool) (flags : Option Bool → BitVec 32) (signals : Option Bool → ℕ),
    ∃ flags' signals', runActs mutexStep (stalled x flags signals) (roundsActs n x) =
      some (stalled (not^[n] x) flags' signals') ∧ flags' none = flags none + BitVec.ofNat 32 n := by
  induction n with
  | zero => exact fun x flags signals => ⟨flags, signals, rfl, (BitVec.add_zero _).symm⟩
  | succ n ih =>
    intro x flags signals
    obtain ⟨flags', signals', hrun, hflags⟩ :=
      ih (!x) (Function.update (Function.update flags none (flags none + 1)) (some (!x)) 0)
      (Function.update (Function.update signals none (signals none + 1)) (some (!x)) 0)
    refine ⟨flags', signals', ?_, ?_⟩
    · rw [roundsActs, runActs_append, run_roundActs]
      exact hrun
    · have hnone : (Function.update (Function.update flags none (flags none + 1)) (some (!x)) 0)
        none = flags none + 1 := rfl
      rw [hflags, hnone, BitVec.ofNat_add, BitVec.add_assoc, BitVec.add_comm (1 : BitVec 32)]
      rfl

/-- `some true` gets the mutex and `none` queues up. -/
def startActs : List (MutexAct (Option Bool)) :=
  .lock (some true) :: .lock none :: List.replicate 3 (.step none)

/-- The mutex is free, its last holder gone. -/
def unlocked (flags : Option Bool → BitVec 32) (signals : Option Bool → ℕ) : MutexState (Option Bool) where
  count := 1
  waitLock := none
  waitList := [none]
  flags := flags
  pc
    | none => .waitCheck
    | some _ => .idle
  signals := signals

def finishActs : List (MutexAct (Option Bool)) :=
  .unlock (some false) :: List.replicate 5 (.step (some false))

theorem run_finishActs : runActs mutexStep (stalled false flags signals) finishActs =
    some (unlocked (Function.update flags none (flags none + 1))
      (Function.update signals none (signals none + 1))) :=
  congrArg some (mutexState_of_pc (unlocked _ _) fun t => by rcases t with _ | _ | _ <;> rfl)

/-- `2 ^ 32` signals to a waiter before it gets to `futex_wait`. -/
def wrappingRun : List (MutexAct (Option Bool)) :=
  startActs ++ (roundsActs (2 ^ 32 - 1) true ++ (finishActs ++ [.step none]))

/-- The waiter sleeps on a free mutex, and nobody else is in any call. -/
theorem mutex_forgets_waiter : ∃ s, runActs mutexStep mutexInit wrappingRun = some s ∧ s.count = 1 ∧
      s.waitList = [none] ∧
    s.pc none = .asleep ∧ s.flags none = 0 ∧ (∀ x, s.pc (some x) = .idle) ∧ ¬ NoneForgotten s := by
  have hstart : runActs mutexStep mutexInit startActs =
      some (stalled true (Function.update (fun _ => 0) none 0) (Function.update (fun _ => 0) none 0)) :=
    congrArg some (mutexState_of_pc (stalled true _ _) fun t => by rcases t with _ | _ | _ <;> rfl)
  obtain ⟨flags, signals, hrounds, hflags⟩ :=
    run_roundsActs (2 ^ 32 - 1) true (Function.update (fun _ => 0) none 0)
      (Function.update (fun _ => 0) none 0)
  have hodd : not^[2 ^ 32 - 1] true = false := by
    rw [Bool.involutive_not.iterate_odd (by decide)]
    rfl
  rw [hodd] at hrounds
  have hzero : flags none + 1 = 0 := by
    rw [hflags]
    decide
  let s :=
    (unlocked (Function.update flags none (flags none + 1))
      (Function.update signals none (signals none + 1))).goto none .asleep
  have hlast : mutexStep (unlocked (Function.update flags none (flags none + 1))
      (Function.update signals none (signals none + 1))) (.step none) = some s := by
    change some (MutexState.goto _ none (if flags none + 1 = 0 then .asleep else .relock)) = some s
    rw [if_pos hzero]
  refine ⟨s, ?_, rfl, rfl, rfl, hzero, fun x => rfl, fun hall => ?_⟩
  · rw [wrappingRun, runActs_append, hstart, Option.bind_some, runActs_append, hrounds,
      Option.bind_some, runActs_append,
      run_finishActs, Option.bind_some, runActs, hlast]
    rfl
  · have hidle : ∀ x, s.pc (some x) = .idle := fun x => rfl
    have hasleep : s.pc none = .asleep := rfl
    rcases hall (fun t => by cases t <;> rfl) (by simp [s, unlocked]) with ⟨w, hw, hwilling⟩ | ⟨u, hu⟩
    · obtain rfl : w = none := List.mem_singleton.mp hw
      simp [Willing, hasleep] at hwilling
    · cases u with
      | none => cases hu
      | some x => cases hu

end Skp.Utils
