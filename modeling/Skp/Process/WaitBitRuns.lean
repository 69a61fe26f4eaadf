import Skp.Process.WaitBitServed

/-! # Runs of `wait_on_bit_lock` and `wake_up_bit`

Every step keeps the invariant while the signals fit the counters, and keeps one owner for a bit
whatever they do. Signals that do not fit put a caller to sleep that nobody will wake. -/
namespace Skp.Process
set_option autoImplicit false
open Skp.Foundations

variable {W T : Type} [DecidableEq W] [DecidableEq T] {s s' : WaitBitState W T} {t u w x : T}
    {k : WaitBitKey W}
  {p p' : WaitBitPc T}

/-! ## Steps -/

theorem waitBitNext_inv (h : WaitBitInv s) (hp : s.pc x = p)
    (hfit : ∀ w ∈ p.signals, s.cond w + 1 < s.lastCond w + 2 ^ 16) :
    ∀ s', waitBitNext s x p = some s' → WaitBitInv s' := by
  intro s' hstep
  cases p with
  | enqueue =>
    obtain ⟨hfree, heq⟩ := Option.ite_none_right_eq_some.mp hstep
    obtain rfl := Option.some.inj heq
    exact h.addTail hp hfree
  | enqueued =>
    cases hstep
    exact h.unlock hp rfl rfl (fun _ => rfl) (fun _ => rfl) trivial trivial
      (fun _ => rfl) rfl fun _ hahead => hahead
  | testBit =>
    cases hstep
    exact h.testBit hp
  | readValue =>
    cases hstep
    exact h.readValue hp
  | futex seen seenLast =>
    cases hstep
    exact h.futex hp
  | woke =>
    cases hstep
    exact h.readCond hp
  | latch seen =>
    cases hstep
    exact h.writeLast hp
  | testAndSet =>
    cases hstep
    split
    · exact h.retry hp
    · exact h.takeBit hp
  | finish =>
    cases hstep
    exact h.finish hp
  | finishLock =>
    obtain ⟨hfree, heq⟩ := Option.ite_none_right_eq_some.mp hstep
    obtain rfl := Option.some.inj heq
    exact h.delete hp hfree
  | finishUnlock =>
    cases hstep
    have hout := h.not_listed hp rfl
    exact h.unlock hp rfl rfl (fun hx => absurd hx hout) (fun hq => Bool.noConfusion hq) trivial trivial
      (fun hw => Bool.noConfusion hw) rfl fun _ hahead => hahead
  | wakeCheck =>
    cases hstep
    exact h.wakeCheck hp
  | wakeLock =>
    obtain ⟨hfree, heq⟩ := Option.ite_none_right_eq_some.mp hstep
    obtain rfl := Option.some.inj heq
    exact h.wakeLock hp hfree
  | walk rest =>
    cases rest with
    | nil =>
      cases hstep
      exact h.walkEnd hp
    | cons w rest =>
      cases hstep
      exact h.walkOn hp
  | wakeXadd w rest =>
    cases hstep
    exact h.wakeXadd hp (hfit w rfl)
  | wakeFutex w rest =>
    rw [waitBitNext] at hstep
    split at hstep
    · rename_i seen seenLast hw
      cases hstep
      exact h.wakeSleeper hp hw
    · rename_i hw
      cases hstep
      exact h.wakeAwake hp hw
  | wakeRemove w =>
    cases hstep
    exact h.wakeRemove hp
  | wakeUnlock =>
    cases hstep
    have hout := h.not_listed hp rfl
    exact h.unlock hp rfl rfl (fun hx => absurd hx hout) (fun hq => Bool.noConfusion hq) trivial trivial
      (fun hw => Bool.noConfusion hw) rfl fun _ hahead => hahead
  | idle => cases hstep
  | asleep seen seenLast => cases hstep

theorem waitBitStep_inv (h : WaitBitInv s) (a : WaitBitAct W T) (hfit : SignalsFit s a) :
    ∀ s', waitBitStep s a = some s' → WaitBitInv s' := by
  intro s' hstep
  cases a with
  | waitOnBitLock t k =>
    obtain ⟨hp, heq⟩ := Option.ite_none_right_eq_some.mp hstep
    obtain rfl := Option.some.inj heq
    split
    · exact h.call hp k
    · exact h.setBits _ k
  | setBit t k =>
    obtain ⟨hp, heq⟩ := Option.ite_none_right_eq_some.mp hstep
    obtain rfl := Option.some.inj heq
    exact h.setBits _ k
  | clearBit t k =>
    obtain ⟨hp, heq⟩ := Option.ite_none_right_eq_some.mp hstep
    obtain rfl := Option.some.inj heq
    exact h.clearBit hp k
  | step t => exact waitBitNext_inv h rfl hfit s' hstep
  | interrupt t =>
    cases hp : s.pc t with
    | asleep seen seenLast =>
      simp only [waitBitStep, hp] at hstep
      cases hstep
      exact h.interrupt hp
    | _ => simp [waitBitStep, hp] at hstep
  | spurious t =>
    cases hp : s.pc t with
    | asleep seen seenLast =>
      simp only [waitBitStep, hp] at hstep
      cases hstep
      exact h.rouse hp
    | _ => simp [waitBitStep, hp] at hstep

omit [DecidableEq W] [DecidableEq T] in
theorem waitBitInv_init (bits : WaitBitKey W → Bool) (key : T → WaitBitKey W) :
    WaitBitInv (waitBitInit bits key) where
  lock t := iff_of_false Bool.false_ne_true (fun heq => by cases heq)
  nodup := List.nodup_nil
  listed t ht := absurd ht List.not_mem_nil
  queued t ht := by cases ht
  fits t ht := absurd ht List.not_mem_nil
  seen t ht := absurd ht List.not_mem_nil
  walk u := trivial
  served k _ := Or.inr fun t ht => by
    have hsleeps := ht.2.1
    cases hsleeps

/-! ## Who owns a bit -/

structure OwnInv (s : WaitBitState W T) : Prop where
  set : ∀ t k, s.owns t k = true → s.bits k = true
  owned : WaitBitOwned s

inductive BitsChange (s s' : WaitBitState W T) : Prop where
  | same (hbits : s'.bits = s.bits) (howns : s'.owns = s.owns)
  | set (k : WaitBitKey W) (hbits : s'.bits = (s.set k).bits) (howns : s'.owns = s.owns)
  | take (t : T) (k : WaitBitKey W) (hclear : s.bits k = false) (hbits : s'.bits = (s.take t k).bits)
      (howns : s'.owns = (s.take t k).owns)
  | clear (k : WaitBitKey W) (hbits : s'.bits = (s.clear k).bits) (howns : s'.owns = (s.clear k).owns)

omit [DecidableEq W] in
theorem addTail_bits : (s.addTail x).bits = s.bits ∧ (s.addTail x).owns = s.owns := by
  unfold WaitBitState.addTail
  split <;> exact ⟨rfl, rfl⟩

theorem waitBitNext_bits (p : WaitBitPc T) : ∀ s', waitBitNext s x p = some s' → BitsChange s s' := by
  intro s' hstep
  cases p with
  | enqueue =>
    obtain ⟨-, heq⟩ := Option.ite_none_right_eq_some.mp hstep
    obtain rfl := Option.some.inj heq
    exact .same addTail_bits.1 addTail_bits.2
  | testAndSet =>
    cases hstep
    split
    · exact .same rfl rfl
    · rename_i hclear
      exact .take x (s.key x) (Bool.not_eq_true _ ▸ hclear) rfl rfl
  | finishLock =>
    obtain ⟨-, heq⟩ := Option.ite_none_right_eq_some.mp hstep
    obtain rfl := Option.some.inj heq
    exact .same rfl rfl
  | wakeLock =>
    obtain ⟨-, heq⟩ := Option.ite_none_right_eq_some.mp hstep
    obtain rfl := Option.some.inj heq
    exact .same rfl rfl
  | walk rest =>
    cases rest with
    | nil | cons =>
      cases hstep
      exact .same rfl rfl
  | wakeFutex w rest =>
    rw [waitBitNext] at hstep
    split at hstep
    · cases hstep
      exact .same rfl rfl
    · cases hstep
      exact .same rfl rfl
  | idle => cases hstep
  | asleep => cases hstep
  | _ =>
    cases hstep
    exact .same rfl rfl

theorem waitBitStep_bits (a : WaitBitAct W T) : ∀ s', waitBitStep s a = some s' → BitsChange s s' := by
  intro s' hstep
  cases a with
  | waitOnBitLock t k =>
    obtain ⟨-, heq⟩ := Option.ite_none_right_eq_some.mp hstep
    obtain rfl := Option.some.inj heq
    split
    · exact .same rfl rfl
    · rename_i hclear
      exact .take t k (Bool.not_eq_true _ ▸ hclear) rfl rfl
  | setBit t k =>
    obtain ⟨-, heq⟩ := Option.ite_none_right_eq_some.mp hstep
    obtain rfl := Option.some.inj heq
    exact .set k rfl rfl
  | clearBit t k =>
    obtain ⟨-, heq⟩ := Option.ite_none_right_eq_some.mp hstep
    obtain rfl := Option.some.inj heq
    exact .clear k rfl rfl
  | step t => exact waitBitNext_bits (s.pc t) s' hstep
  | interrupt t =>
    rw [waitBitStep] at hstep
    split at hstep
    · cases hstep
      exact .same rfl rfl
    · cases hstep
  | spurious t =>
    rw [waitBitStep] at hstep
    split at hstep
    · cases hstep
      exact .same rfl rfl
    · cases hstep

theorem OwnInv.change (h : OwnInv s) (hc : BitsChange s s') : OwnInv s' := by
  cases hc with
  | same hbits howns =>
    refine ⟨fun t k ht => ?_, fun t u k ht hu => ?_⟩
    · rw [hbits]
      exact h.set t k (howns ▸ ht)
    · rw [howns] at ht hu
      exact h.owned t u k ht hu
  | set j hbits howns =>
    refine ⟨fun t k ht => ?_, fun t u k ht hu => ?_⟩
    · rw [hbits]
      rw [howns] at ht
      by_cases hkj : k = j
      · simp [WaitBitState.set, hkj]
      · simpa [WaitBitState.set, hkj] using h.set t k ht
    · rw [howns] at ht hu
      exact h.owned t u k ht hu
  | take v j hclear hbits howns =>
    -- nobody owns a bit that is clear
    have hnobody : ∀ t, s.owns t j = false := by
      intro t
      rw [← Bool.not_eq_true]
      intro ht
      have hset := h.set t j ht
      rw [hclear] at hset
      cases hset
    have hsame : ∀ t k, k ≠ j → s'.owns t k = s.owns t k := by
      intro t k hkj
      rw [howns]
      by_cases htv : t = v
      · subst htv
        simp [WaitBitState.take, WaitBitState.set, hkj]
      · simp [WaitBitState.take, WaitBitState.set, htv]
    have honly : ∀ t, s'.owns t j = true → t = v := by
      intro t ht
      by_contra htv
      rw [howns] at ht
      simp [WaitBitState.take, WaitBitState.set, htv, hnobody] at ht
    refine ⟨fun t k ht => ?_, fun t u k ht hu => ?_⟩
    · rw [hbits]
      by_cases hkj : k = j
      · simp [WaitBitState.take, WaitBitState.set, hkj]
      · rw [hsame t k hkj] at ht
        simpa [WaitBitState.take, WaitBitState.set, hkj] using h.set t k ht
    · by_cases hkj : k = j
      · subst hkj
        exact (honly t ht).trans (honly u hu).symm
      · rw [hsame t k hkj] at ht
        rw [hsame u k hkj] at hu
        exact h.owned t u k ht hu
  | clear j hbits howns =>
    have hold : ∀ t k, s'.owns t k = true → k ≠ j ∧ s.owns t k = true := by
      intro t k ht
      rw [howns] at ht
      by_cases hkj : k = j
      · simp [WaitBitState.clear, hkj] at ht
      · exact ⟨hkj, by simpa [WaitBitState.clear, hkj] using ht⟩
    refine ⟨fun t k ht => ?_, fun t u k ht hu => h.owned t u k (hold t k ht).2 (hold u k hu).2⟩
    obtain ⟨hkj, hown⟩ := hold t k ht
    rw [hbits]
    simpa [WaitBitState.clear, hkj] using h.set t k hown

omit [DecidableEq W] [DecidableEq T] in
theorem ownInv_init (bits : WaitBitKey W → Bool) (key : T → WaitBitKey W) : OwnInv (waitBitInit bits key) :=
  ⟨fun _ _ ht => absurd ht Bool.false_ne_true, fun _ _ _ ht _ => absurd ht Bool.false_ne_true⟩

/-! ## Runs -/

/-- One owner in every run; nobody forgotten in every run whose signals fit the counters. -/
theorem waitBit_ok (bits : WaitBitKey W → Bool) (key : T → WaitBitKey W)
    (as : List (WaitBitAct W T)) (s : WaitBitState W T)
    (hrun : runActs waitBitStep (waitBitInit bits key) as = some s) :
    WaitBitOwned s ∧ (RunMeets waitBitStep SignalsFit (waitBitInit bits key) as → WaitBitAwake s) := by
  have hown : OwnInv s :=
    run_invariant (fun s a s' h _ hstep => h.change (waitBitStep_bits a s' hstep)) as _ s
    (ownInv_init bits key) (runMeets_trivial as _) hrun
  refine ⟨hown.owned, fun hfit => ?_⟩
  have hinv : WaitBitInv s :=
    run_invariant (fun s a s' h hgood hstep => waitBitStep_inv h a hgood s' hstep) as _ s
    (waitBitInv_init bits key) hfit hrun
  exact hinv.awake

instance (s : WaitBitState W T) : (a : WaitBitAct W T) → Decidable (SignalsFit s a)
  | .step t => inferInstanceAs (Decidable (∀ w ∈ (s.pc t).signals, s.cond w + 1 < s.lastCond w + 2 ^ 16))
  | .waitOnBitLock _ _ => inferInstanceAs (Decidable True)
  | .setBit _ _ => inferInstanceAs (Decidable True)
  | .clearBit _ _ => inferInstanceAs (Decidable True)
  | .interrupt _ => inferInstanceAs (Decidable True)
  | .spurious _ => inferInstanceAs (Decidable True)

def stepTimes (t : T) (n : ℕ) : List (WaitBitAct W T) := List.replicate n (.step t)

/-- Two callers for one bit and one for another go to sleep on the queue, and the first bit is cleared. -/
def sharedQueueRun : List (WaitBitAct Unit ℕ) :=
  [[.setBit 0 ⟨(), 0⟩, .setBit 0 ⟨(), 1⟩, .waitOnBitLock 3 ⟨(), 1⟩], stepTimes 3 5,
    [.waitOnBitLock 1 ⟨(), 0⟩], stepTimes 1 5,
    [.waitOnBitLock 2 ⟨(), 0⟩], stepTimes 2 5, [.clearBit 0 ⟨(), 0⟩], stepTimes 0 8].flatten

theorem waitBit_ok_sharedQueueRun :
    ∃ s, runActs waitBitStep (waitBitInit (fun _ => false) fun _ => ⟨(), 0⟩)
      sharedQueueRun = some s ∧
    s.bits ⟨(), 0⟩ = false ∧ s.taskList = [3, 2] ∧ s.pc 1 = .woke ∧ s.pc 2 = .asleep 0 0 ∧
      WaitBitOwned s ∧ WaitBitAwake s := by
  have hmeets := runMeets_of_checks (show runChecks waitBitStep SignalsFit
    (waitBitInit (fun _ => false) fun _ => ⟨(), 0⟩) sharedQueueRun = true by decide +kernel)
  have hfinal : (runActs waitBitStep (waitBitInit (fun _ => false) fun _ => ⟨(), 0⟩) sharedQueueRun).map
      (fun s => (s.bits ⟨(), 0⟩, s.taskList, s.pc 1, s.pc 2)) =
        some (false, [3, 2], .woke, .asleep 0 0) := by decide +kernel
  obtain ⟨s, hs, hvalues⟩ := Option.map_eq_some_iff.mp hfinal
  obtain ⟨hbit, hvalues⟩ := Prod.mk.inj hvalues
  obtain ⟨hlist, hvalues⟩ := Prod.mk.inj hvalues
  obtain ⟨hone, htwo⟩ := Prod.mk.inj hvalues
  obtain ⟨howned, hawake⟩ := waitBit_ok _ _ sharedQueueRun s hs
  exact ⟨s, hs, hbit, hlist, hone, htwo, howned, hawake hmeets⟩

/-! ## Signals that do not fit -/

/-- The bit is clear, nobody is in a call but the caller `true`, which has read its entry before it
was signalled `n` times. -/
def stalledCaller (n : ℕ) : WaitBitState Unit Bool where
  bits := fun _ => false
  taskList := [true]
  lock := none
  key := fun _ => ⟨(), 0⟩
  cond
    | true => n
    | false => 0
  lastCond := fun _ => 0
  pc
    | true => .futex 0 0
    | false => .idle
  owns := fun _ _ => false

def wakeRound : List (WaitBitAct Unit Bool) :=
  .setBit false ⟨(), 0⟩ :: .clearBit false ⟨(), 0⟩ :: stepTimes false 7

def wakeRounds : ℕ → List (WaitBitAct Unit Bool)
  | 0 => []
  | n + 1 => wakeRound ++ wakeRounds n

theorem stalledCaller_eq {n : ℕ} {bits : WaitBitKey Unit → Bool} {key : Bool → WaitBitKey Unit}
    {cond lastCond : Bool → ℕ}
    {pc : Bool → WaitBitPc Bool} {owns : Bool → WaitBitKey Unit → Bool}
    (hbits : ∀ k, bits k = false) (hkey : ∀ t, key t = ⟨(), 0⟩)
    (hcond : ∀ t, cond t = (stalledCaller n).cond t) (hlast : ∀ t, lastCond t = 0)
    (hpc : ∀ t, pc t = (stalledCaller n).pc t)
    (howns : ∀ t k, owns t k = false) :
    (⟨bits, [true], none, key, cond, lastCond, pc, owns⟩ : WaitBitState Unit Bool) = stalledCaller n := by
  rw [funext hbits, funext hkey, funext hcond, funext hlast, funext hpc, funext fun t => funext (howns t)]
  rfl

theorem update_clear (k j : WaitBitKey Unit) (f : WaitBitKey Unit → Bool) (hf : ∀ i, i ≠ j → f i = false) :
    Function.update f j false k = false := by
  by_cases hk : k = j
  · simp [hk]
  · rw [Function.update_of_ne hk]
    exact hf k hk

theorem run_stalledCaller : runActs waitBitStep (waitBitInit (fun _ => false) fun _ => ⟨(), 0⟩)
    ([.setBit false ⟨(), 0⟩, .waitOnBitLock true ⟨(), 0⟩] ++ stepTimes true 4 ++
      .clearBit false ⟨(), 0⟩ :: stepTimes false 7) =
      some (stalledCaller 1) := by
  refine congrArg some
    (stalledCaller_eq (fun k => ?_) (fun t => ?_) (fun t => ?_) (fun t => ?_)
    (fun t => ?_) fun t k => ?_)
  · exact update_clear _ _ _ fun i hi => Function.update_of_ne hi ..
  · cases t <;> rfl
  · cases t <;> rfl
  · cases t <;> rfl
  · cases t <;> rfl
  · exact update_clear _ _ _ fun _ _ => rfl

theorem run_wakeRound {n : ℕ} :
    runActs waitBitStep (stalledCaller n) wakeRound = some (stalledCaller (n + 1)) := by
  refine congrArg some
    (stalledCaller_eq (fun k => ?_) (fun t => ?_) (fun t => ?_) (fun t => ?_)
    (fun t => ?_) fun t k => ?_)
  · exact update_clear _ _ _ fun i hi => Function.update_of_ne hi ..
  · cases t <;> rfl
  · cases t <;> rfl
  · cases t <;> rfl
  · cases t <;> rfl
  · exact update_clear _ _ _ fun _ _ => rfl

theorem run_wakeRounds (m : ℕ) :
    ∀ n, runActs waitBitStep (stalledCaller n) (wakeRounds m) = some (stalledCaller (n + m)) := by
  induction m with
  | zero => exact fun n => rfl
  | succ m ih =>
    intro n
    rw [wakeRounds, runActs_append, run_wakeRound, Option.bind_some, ih (n + 1), Nat.add_right_comm,
      Nat.add_assoc]

/-- A caller stops before `futex_wait`, and `2 ^ 16` wake-ups go by. -/
def wrappedRun : List (WaitBitAct Unit Bool) :=
  ([.setBit false ⟨(), 0⟩, .waitOnBitLock true ⟨(), 0⟩] ++ stepTimes true 4 ++
    .clearBit false ⟨(), 0⟩ :: stepTimes false 7) ++
    (wakeRounds (2 ^ 16 - 1) ++ [.step true])

/-- It sleeps on a clear bit, its counters look unsignalled, and nobody else is in a call. -/
theorem waitBit_forgets_caller :
    ∃ s, runActs waitBitStep (waitBitInit (fun _ => false) fun _ => ⟨(), 0⟩) wrappedRun = some s ∧
    s.bits ⟨(), 0⟩ = false ∧ s.pc true = .asleep 0 0 ∧ sameCond (s.cond true) (s.lastCond true) =
      true ∧ s.pc false = .idle ∧
    ¬ WaitBitAwake s := by
  have hrounds : runActs waitBitStep (stalledCaller 1) (wakeRounds (2 ^ 16 - 1)) =
      some (stalledCaller (2 ^ 16)) :=
    run_wakeRounds (2 ^ 16 - 1) 1
  have hsleep : runActs waitBitStep (stalledCaller (2 ^ 16)) [.step true] =
      some ((stalledCaller (2 ^ 16)).goto true (.asleep 0 0)) := rfl
  refine ⟨(stalledCaller (2 ^ 16)).goto true (.asleep 0 0), ?_, rfl, rfl, rfl, rfl, fun hawake => ?_⟩
  · rw [wrappedRun, runActs_append, run_stalledCaller, Option.bind_some, runActs_append, hrounds,
      Option.bind_some, hsleep]
  · obtain ⟨u, hne, hwilling⟩ := hawake ⟨(), 0⟩ rfl true ⟨rfl, rfl, rfl⟩ fun u _ => by cases u <;> rfl
    cases u with
    | true => exact hne rfl
    | false => cases hwilling.2

end Skp.Process
