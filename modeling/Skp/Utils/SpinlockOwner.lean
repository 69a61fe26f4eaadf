import Skp.Foundations.Holder
import Skp.Utils.SpinlockModel

/-! # Who owns the bytes of the word

The word says exactly whether there is a holder and whether there is an owner of the pending byte. A
thread takes the lock from 0 only and the pending byte from 1 only, so while the byte is taken
nobody but its owner can take the lock. -/
namespace Skp.Utils
set_option autoImplicit false
open Skp.Foundations

/-! ## The word -/

def spinWord (locked pending : Bool) : BitVec 32 :=
  (if locked then qLockedVal else 0) ||| (if pending then qPendingVal else 0)

theorem spinWord_eq_zero : ∀ {locked pending : Bool}, spinWord locked pending = 0 → locked = false ∧
      pending = false := by decide

theorem spinWord_locked : ∀ {locked pending : Bool}, spinWord locked pending &&& qLockedMask ≠ 0 ↔
      locked = true := by decide

theorem spinWord_pending : ∀ {locked pending : Bool}, spinWord locked pending &&& qPendingMask ≠ 0 ↔
      pending = true := by decide

theorem clearLocked_spinWord :
    ∀ {locked pending : Bool}, clearLocked (spinWord locked pending) = spinWord false pending := by
  decide

theorem spinWord_held : spinWord true false = qLockedVal := by decide

theorem spinWord_handover : spinWord false true = qPendingVal := by decide

theorem clearPendingSetLocked_handover : clearPendingSetLocked qPendingVal = spinWord true false := by decide

theorem spinWord_uncontended :
    ∀ {locked pending : Bool}, spinWord locked pending &&& ~~~qLockedMask = 0 →
      pending = false := by
  decide

/-! ## The places -/

def SpinPc.holds : SpinPc → Bool
  | .holding => true
  | _ => false

/-- The owner of the pending byte. -/
def SpinPc.pends : SpinPc → Bool
  | .pendingSpin => true
  | .pendingStore => true
  | _ => false

variable {T : Type}

/-- The value a thread will exchange shows no contention. -/
def SwapsUncontended (p : SpinPc) : Prop := ∀ val, p = .swap val → val &&& ~~~qLockedMask = 0

/-- At most one thread holds the lock and at most one owns the pending byte, the bytes say whether
there is one, and the 16-bit store finds no other holder and no other owner: it erases the mark of
the thread that makes it, and nothing else. -/
structure SpinOk [DecidableEq T] (s : SpinState T) : Prop where
  oneHolds : ∀ t u, (s.pc t).holds = true → (s.pc u).holds = true → t = u
  onePends : ∀ t u, (s.pc t).pends = true → (s.pc u).pends = true → t = u
  lockedByte : s.rawLock &&& qLockedMask ≠ 0 ↔ ∃ t, (s.pc t).holds = true
  pendingByte : s.rawLock &&& qPendingMask ≠ 0 ↔ ∃ t, (s.pc t).pends = true
  store : ∀ t s', s.pc t = .pendingStore → spinStep s (.step t) = some s' →
    (∀ u, (s.pc u).holds = false ∧ ((s.pc u).pends = true → u = t)) ∧ s.rawLock = qPendingVal ∧
      s'.rawLock = qLockedVal

structure SpinBooks (s : SpinState T) (holder pending : Option T) : Prop where
  heldBy : HeldBy SpinPc.holds s.pc holder
  pendingBy : HeldBy SpinPc.pends s.pc pending
  word : s.rawLock = spinWord holder.isSome pending.isSome
  store : ∀ t, s.pc t = .pendingStore → holder = none
  swap : ∀ t, SwapsUncontended (s.pc t)

variable {s s' : SpinState T} {holder pending : Option T} {t u : T} {p p' : SpinPc} {val : BitVec 32}

theorem slowLoop_swaps : SwapsUncontended (slowLoop val) := by
  intro v hv
  unfold slowLoop at hv
  split at hv
  · cases hv
  · rename_i hfree
    cases hv
    exact not_not.mp hfree

/-- A place without the lock and without the pending byte. -/
structure SpinPc.Outside (p : SpinPc) : Prop where
  holds : p.holds = false
  pends : p.pends = false
  swap : SwapsUncontended p

theorem SpinPc.Outside.not_store (hp : p.Outside) : p ≠ .pendingStore := by
  rintro rfl
  exact Bool.noConfusion hp.pends

theorem SpinPc.Outside.of_ne (hholds : p.holds = false) (hpends : p.pends = false)
    (hswap : ∀ val, p ≠ .swap val) : p.Outside :=
  ⟨hholds, hpends, fun val hval => absurd hval (hswap val)⟩

theorem slowLoop_outside : (slowLoop val).Outside := by
  refine ⟨?_, ?_, slowLoop_swaps⟩ <;> unfold slowLoop <;> split <;> rfl

theorem slowTry_outside : (slowTry val).Outside := by
  unfold slowTry
  split
  · exact .of_ne rfl rfl fun _ => SpinPc.noConfusion
  · exact slowLoop_outside

/-! ## Moves of one thread -/

section Moves
variable [DecidableEq T]

theorem SpinBooks.move {rawLock : BitVec 32} {holder' pending' : Option T} (h : SpinBooks s holder pending)
    (hholder : HeldBy SpinPc.holds (Function.update s.pc t p') holder')
    (hpending : HeldBy SpinPc.pends (Function.update s.pc t p') pending')
    (hword : rawLock = spinWord holder'.isSome pending'.isSome) (hself : p' = .pendingStore → holder' = none)
    (hothers : ∀ u, u ≠ t → s.pc u = .pendingStore → holder' = none) (hswap : SwapsUncontended p') :
    SpinBooks ({ s with rawLock := rawLock }.goto t p') holder' pending' := by
  refine ⟨hholder, hpending, hword, fun u hu => ?_, fun u => ?_⟩
  · by_cases hut : u = t
    · subst hut
      change Function.update s.pc u p' u = .pendingStore at hu
      rw [Function.update_self] at hu
      exact hself hu
    · change Function.update s.pc t p' u = .pendingStore at hu
      rw [Function.update_of_ne hut] at hu
      exact hothers u hut hu
  · by_cases hut : u = t
    · subst hut
      change SwapsUncontended (Function.update s.pc u p' u)
      rw [Function.update_self]
      exact hswap
    · change SwapsUncontended (Function.update s.pc t p' u)
      rw [Function.update_of_ne hut]
      exact h.swap u

theorem SpinBooks.walk (h : SpinBooks s holder pending) (hp : s.pc t = p) (hholds : p'.holds = p.holds)
    (hpends : p'.pends = p.pends) (hstore : p' = .pendingStore → holder = none)
    (hswap : SwapsUncontended p') :
    SpinBooks (s.goto t p') holder pending :=
  h.move (h.heldBy.stay (by rw [hholds, hp])) (h.pendingBy.stay (by rw [hpends, hp])) h.word hstore
    (fun u _ hu => h.store u hu)
    hswap

theorem SpinBooks.turn (h : SpinBooks s holder pending) (hp : s.pc t = p) (hout : p.Outside)
    (hout' : p'.Outside) :
    ∃ holder' pending', SpinBooks (s.goto t p') holder' pending' :=
  ⟨holder, pending, h.walk hp (by rw [hout.holds, hout'.holds]) (by rw [hout.pends, hout'.pends])
    (fun heq => absurd heq hout'.not_store) hout'.swap⟩

/-- The exchange of 0 for the lock byte is won: the lock is free and nobody waits for it. -/
theorem SpinBooks.takeFree (h : SpinBooks s holder pending) (hp : s.pc t = p)
    (hpends : p.pends = false) (hzero : s.rawLock = 0) :
    SpinBooks ({ s with rawLock := qLockedVal }.goto t .holding) (some t) none := by
  obtain ⟨hlocked, hpending⟩ := spinWord_eq_zero (h.word.symm.trans hzero)
  obtain rfl := Option.not_isSome_iff_eq_none.mp (Bool.eq_false_iff.mp hlocked)
  obtain rfl := Option.not_isSome_iff_eq_none.mp (Bool.eq_false_iff.mp hpending)
  refine h.move (h.heldBy.enter rfl) (h.pendingBy.stay (by rw [hp, hpends]; rfl)) spinWord_held.symm
    (fun heq => ?_) (fun u _ hu => ?_)
    fun v hv => ?_
  · cases heq
  · have hfree := h.pendingBy.free u
    rw [hu] at hfree
    cases hfree
  · cases hv

/-- The exchange of the lock byte for both bytes is won: the lock is held and nobody had the pending byte. -/
theorem SpinBooks.takePending (h : SpinBooks s holder pending) (hp : s.pc t = p) (hholds : p.holds = false)
    (hone : s.rawLock = qLockedVal) :
    SpinBooks ({ s with rawLock := qLockedVal ||| qPendingVal }.goto t .pendingSpin) holder (some t) := by
  have hword := h.word
  rw [hone] at hword
  obtain rfl : pending = none := by
    have huncontended : spinWord holder.isSome pending.isSome &&& ~~~qLockedMask = 0 := by
      rw [← hword]
      decide
    have hno : pending.isSome = false := spinWord_uncontended huncontended
    exact Option.not_isSome_iff_eq_none.mp (Bool.eq_false_iff.mp hno)
  have hheld : holder.isSome = true := spinWord_locked.mp (by rw [← hword]; decide)
  refine h.move (h.heldBy.stay (by rw [hp, hholds]; rfl)) (h.pendingBy.enter rfl) ?_ (fun heq => ?_)
    (fun u _ hu => h.store u hu)
    fun v hv => ?_
  · rw [hheld]
    rfl
  · cases heq
  · cases hv

omit [DecidableEq T] in
theorem SpinBooks.storing (h : SpinBooks s holder pending) (hp : s.pc t = .pendingStore) :
    holder = none ∧ pending = some t ∧ s.rawLock = qPendingVal := by
  have hnone := h.store t hp
  have hmine : pending = some t := (h.pendingBy t).mp (by rw [hp]; rfl)
  refine ⟨hnone, hmine, ?_⟩
  rw [h.word, hnone, hmine]
  exact spinWord_handover

theorem SpinBooks.takeOver (h : SpinBooks s holder pending) (hp : s.pc t = .pendingStore) :
    SpinBooks ({ s with rawLock := clearPendingSetLocked s.rawLock }.goto t .holding) (some t) none := by
  obtain ⟨rfl, rfl, hword⟩ := h.storing hp
  refine h.move (h.heldBy.enter rfl) (h.pendingBy.leave rfl) ?_ (fun heq => ?_)
    (fun u hut hu => ?_) fun v hv => ?_
  · rw [hword]
    exact clearPendingSetLocked_handover
  · cases heq
  · have hother : (SpinPc.pends (s.pc u)) = true := by rw [hu]; rfl
    exact absurd (h.pendingBy.unique hother (by rw [hp]; rfl)) hut
  · cases hv

theorem SpinBooks.release (h : SpinBooks s holder pending) (hp : s.pc t = .holding) :
    SpinBooks ({ s with rawLock := clearLocked s.rawLock }.goto t .idle) none pending := by
  obtain rfl : holder = some t := (h.heldBy t).mp (by rw [hp]; rfl)
  refine h.move (h.heldBy.leave rfl) (h.pendingBy.stay (by rw [hp]; rfl)) ?_ (fun _ => rfl)
    (fun _ _ _ => rfl) fun v hv => ?_
  · rw [h.word, clearLocked_spinWord]
    rfl
  · cases hv

/-! ## Steps -/

theorem SpinBooks.trySwap {lost : BitVec 32 → SpinPc} (h : SpinBooks s holder pending)
    (hp : s.pc t = p) (hout : p.Outside)
    (hlost : ∀ val, (lost val).Outside) :
    ∃ holder' pending', SpinBooks (s.cmpxchg t 0 qLockedVal .holding lost) holder' pending' := by
  rw [SpinState.cmpxchg]
  split
  · rename_i hzero
    exact ⟨some t, none, h.takeFree hp hout.pends hzero⟩
  · exact h.turn hp hout (hlost s.rawLock)

theorem SpinBooks.swapped (h : SpinBooks s holder pending) (hp : s.pc t = .swap val) :
    ∃ holder' pending', SpinBooks
      (s.cmpxchg t val (newVal val) (if newVal val = qLockedVal then .holding else .pendingSpin)
        slowLoop) holder' pending' := by
  rw [SpinState.cmpxchg]
  split
  · rename_i heq
    have huncontended := h.swap t val hp
    by_cases hone : val = qLockedVal
    · have hnew : newVal val = qLockedVal ||| qPendingVal := if_pos hone
      rw [hnew, if_neg (by decide)]
      exact ⟨holder, some t, h.takePending hp rfl (heq.trans hone)⟩
    · have hnew : newVal val = qLockedVal := if_neg hone
      rw [hnew, if_pos rfl]
      -- what is neither contended nor locked is free
      have hzero : s.rawLock = 0 := by
        have hno : pending.isSome = false := spinWord_uncontended (by rw [← h.word, heq]; exact huncontended)
        have hword := h.word
        rw [hno] at hword
        cases hheld : holder.isSome with
        | false =>
          rw [hword, hheld]
          decide
        | true =>
          rw [hheld, spinWord_held, heq] at hword
          exact absurd hword hone
      exact ⟨some t, none, h.takeFree hp rfl hzero⟩
  · exact h.turn hp ⟨rfl, rfl, hp ▸ h.swap t⟩ slowLoop_outside

theorem spinNext_inv (h : SpinBooks s holder pending) (hp : s.pc t = p) :
    ∀ s', spinNext s t p = some s' → ∃ holder' pending', SpinBooks s' holder' pending' := by
  intro s' hstep
  cases p with
  | trySwap =>
    rw [spinNext, Option.some.injEq] at hstep
    subst hstep
    exact h.trySwap hp (.of_ne rfl rfl fun _ => SpinPc.noConfusion) fun _ => .of_ne rfl rfl fun _ =>
      SpinPc.noConfusion
  | fastSwap i =>
    rw [spinNext, Option.some.injEq] at hstep
    subst hstep
    exact h.trySwap hp (.of_ne rfl rfl fun _ => SpinPc.noConfusion) fun _ => .of_ne rfl rfl fun _ =>
      SpinPc.noConfusion
  | fastSpin i val =>
    rw [spinNext, Option.some.injEq] at hstep
    subst hstep
    refine h.turn hp (.of_ne rfl rfl fun _ => SpinPc.noConfusion) ?_
    split
    · exact .of_ne rfl rfl fun _ => SpinPc.noConfusion
    · split
      · exact .of_ne rfl rfl fun _ => SpinPc.noConfusion
      · exact slowTry_outside
  | handover =>
    rw [spinNext, Option.some.injEq] at hstep
    subst hstep
    refine h.turn hp (.of_ne rfl rfl fun _ => SpinPc.noConfusion) ?_
    split
    · exact .of_ne rfl rfl fun _ => SpinPc.noConfusion
    · exact slowLoop_outside
  | swap val =>
    rw [spinNext, Option.some.injEq] at hstep
    subst hstep
    exact h.swapped hp
  | pendingSpin =>
    rw [spinNext, Option.some.injEq] at hstep
    subst hstep
    split
    · exact ⟨holder, pending, h.walk hp rfl rfl (fun heq => by cases heq) fun v hv => by cases hv⟩
    · rename_i hfree
      rw [h.word, spinWord_locked, Bool.not_eq_true, Option.isSome_eq_false_iff,
        Option.isNone_iff_eq_none] at hfree
      exact ⟨holder, pending, h.walk hp rfl rfl (fun _ => hfree) fun v hv => by cases hv⟩
  | pendingStore =>
    rw [spinNext, Option.some.injEq] at hstep
    subst hstep
    exact ⟨some t, none, h.takeOver hp⟩
  | queueSpin =>
    rw [spinNext, Option.some.injEq] at hstep
    subst hstep
    refine h.turn hp (.of_ne rfl rfl fun _ => SpinPc.noConfusion) ?_
    split <;> exact .of_ne rfl rfl fun _ => SpinPc.noConfusion
  | queueSwap =>
    rw [spinNext, Option.some.injEq] at hstep
    subst hstep
    exact h.trySwap hp (.of_ne rfl rfl fun _ => SpinPc.noConfusion) fun _ => slowTry_outside
  | idle | holding => cases hstep

theorem spinStep_inv (h : SpinBooks s holder pending) (a : SpinAct T) :
    ∀ s', spinStep s a = some s' → ∃ holder' pending', SpinBooks s' holder' pending' := by
  intro s' hstep
  have hidle : SpinPc.idle.Outside := .of_ne rfl rfl fun _ => SpinPc.noConfusion
  cases a with
  | lock t =>
    obtain ⟨hp, heq⟩ := Option.ite_none_right_eq_some.mp hstep
    obtain rfl := Option.some.inj heq
    exact h.trySwap hp hidle fun _ => .of_ne rfl rfl fun _ => SpinPc.noConfusion
  | fairlock t =>
    obtain ⟨hp, heq⟩ := Option.ite_none_right_eq_some.mp hstep
    obtain rfl := Option.some.inj heq
    exact h.trySwap hp hidle fun _ => slowTry_outside
  | trylock t =>
    obtain ⟨hp, heq⟩ := Option.ite_none_right_eq_some.mp hstep
    obtain rfl := Option.some.inj heq
    refine h.turn hp hidle ?_
    split <;> exact .of_ne rfl rfl fun _ => SpinPc.noConfusion
  | unlock t =>
    obtain ⟨hp, heq⟩ := Option.ite_none_right_eq_some.mp hstep
    obtain rfl := Option.some.inj heq
    exact ⟨none, pending, h.release hp⟩
  | step t => exact spinNext_inv h rfl s' hstep

/-! ## Runs -/

omit [DecidableEq T] in
theorem spinBooks_init : SpinBooks (spinInit : SpinState T) none none where
  heldBy t := iff_of_false Bool.false_ne_true (by simp)
  pendingBy t := iff_of_false Bool.false_ne_true (by simp)
  word := by
    change 0 = spinWord false false
    decide
  store t ht := by cases ht
  swap t v hv := by cases hv

theorem SpinBooks.ok (h : SpinBooks s holder pending) : SpinOk s where
  oneHolds t u ht hu := h.heldBy.unique ht hu
  onePends t u ht hu := h.pendingBy.unique ht hu
  lockedByte := by
    rw [h.word, spinWord_locked, Option.isSome_iff_exists]
    exact exists_congr fun t => (h.heldBy t).symm
  pendingByte := by
    rw [h.word, spinWord_pending, Option.isSome_iff_exists]
    exact exists_congr fun t => (h.pendingBy t).symm
  store t s' hp hstep := by
    obtain ⟨hholder, hpending, hword⟩ := h.storing hp
    have hmove : spinStep s (.step t) = spinNext s t (s.pc t) := rfl
    rw [hmove, hp, spinNext, Option.some.injEq] at hstep
    subst hstep
    refine ⟨fun u => ⟨h.heldBy.outside (by rw [hholder]; simp), fun hu => ?_⟩, hword, ?_⟩
    · exact h.pendingBy.unique hu (by rw [hp]; rfl)
    · change clearPendingSetLocked s.rawLock = qLockedVal
      rw [hword]
      decide

/-- In every run of any number of threads. -/
theorem spin_ok (as : List (SpinAct T)) (s : SpinState T)
    (hrun : runActs spinStep spinInit as = some s) : SpinOk s := by
  have hinit : ∃ holder pending, SpinBooks (spinInit : SpinState T) holder pending :=
    ⟨none, none, spinBooks_init⟩
  have hstep : ∀ (s : SpinState T) a s', (∃ holder pending, SpinBooks s holder pending) → True →
      spinStep s a = some s' →
      ∃ holder pending, SpinBooks s' holder pending := fun s a s' ⟨_, _, h⟩ _ hs => spinStep_inv h a s' hs
  obtain ⟨holder, pending, hbooks⟩ := run_invariant hstep as _ s hinit (runMeets_trivial as _) hrun
  exact hbooks.ok

/-- One thread waits with the pending byte, one queues behind it and one spins in the optimistic
loop; the holder unlocks and the pending owner is before its store. -/
def handoverRun : List (SpinAct ℕ) :=
  [.lock 0, .fairlock 1, .step 1, .fairlock 2, .step 2, .lock 3, .step 3, .step 3, .unlock 0,
    .step 3, .step 1, .trylock 0,
    .fairlock 4, .step 4]

theorem spin_ok_handoverRun : ∃ s, runActs spinStep spinInit handoverRun = some s ∧ s.rawLock = qPendingVal ∧
    s.pc 1 = .pendingStore ∧ s.pc 2 = .queueSpin ∧ s.pc 4 = .handover ∧ SpinOk s := by
  have hfinal : (runActs spinStep spinInit handoverRun).map (fun s => (s.rawLock, s.pc 1, s.pc 2, s.pc 4)) =
      some (qPendingVal, .pendingStore, .queueSpin, .handover) := by decide +kernel
  obtain ⟨s, hs, hvalues⟩ := Option.map_eq_some_iff.mp hfinal
  obtain ⟨hword, hvalues⟩ := Prod.mk.inj hvalues
  obtain ⟨hone, hvalues⟩ := Prod.mk.inj hvalues
  obtain ⟨htwo, hfour⟩ := Prod.mk.inj hvalues
  exact ⟨s, hs, hword, hone, htwo, hfour, spin_ok handoverRun s hs⟩

end Moves

end Skp.Utils
