import Skp.Process.CompletionModel

/-! # Does a completion lose a waiter?

A wake-up that finds a sleeper takes it off the queue, but does not give it the count. When another thread
takes the count first, the woken thread waits again without being queued again, and no later `complete`
can reach it. In the runs in which a thread off the queue always finds a count, every blocked thread is
reachable, and counts that are left over belong to threads that are on their way to take them. -/
namespace Skp.Process
set_option autoImplicit false
open Skp.Foundations

variable {T : Type}

/-- In the loop of `wait_for_completion_timeout`, at or before the sleep. -/
def resting : CompPc → Bool
  | .looping => true
  | .futex _ => true
  | .asleep _ => true
  | _ => false

/-- In the loop of `wait_for_completion_timeout`, between the sleep and the test of `done`. -/
def awake : CompPc → Bool
  | .woke => true
  | .latch _ => true
  | .relock => true
  | _ => false

def Blocked (s : CompState T) (t : T) : Prop := ∃ seen, s.pc t = .asleep seen

/-- A wake-up has reached the waiter and it has not tested `done` since. -/
def Signalled (s : CompState T) (t : T) : Prop :=
  awake (s.pc t) = true ∨ resting (s.pc t) = true ∧ s.cond t ≠ s.lastCond t

structure CompletionOk (s : CompState T) : Prop where
  linked : ∀ t, Blocked s t → ¬ Signalled s t → t ∈ s.waiters
  reached : ∀ t, Blocked s t → ¬ Signalled s t → s.done = 0 ∨ ∃ u, u ≠ t ∧ Signalled s u
  waits_le : s.nrWaits ≤ s.nrCompletes
  done_nonneg : 0 ≤ s.done.toInt

/-- `done` does not overflow, and a thread that a wake-up has taken off the queue finds a count. -/
def FindsCount (s : CompState T) : CompAct T → Prop
  | .complete => s.done.toNat + 1 < 2 ^ 31
  | .recheck t => t ∈ s.waiters ∨ s.done ≠ 0
  | _ => True

/-- While some waiter is at rest and unsignalled, `done` counts at most the threads that are off the queue
and awake. -/
structure CompInv (s : CompState T) : Prop where
  linked : ∀ t, resting (s.pc t) = true → t ∈ s.waiters
  woken_awake : ∀ t ∈ s.woken, awake (s.pc t) = true
  woken_nodup : s.woken.Nodup
  bound : ∀ t, resting (s.pc t) = true → s.cond t = s.lastCond t → s.done.toNat ≤ s.woken.length
  last_le : ∀ t, s.lastCond t ≤ s.cond t
  latch_le : ∀ t c, s.pc t = .latch c → c ≤ s.cond t
  count : s.nrWaits + s.done.toNat = s.nrCompletes
  small : s.done.toNat < 2 ^ 31

theorem compInv_init : CompInv (compInit : CompState T) where
  linked := fun _ h => by simp [compInit, resting] at h
  woken_awake := fun _ h => by simp [compInit] at h
  woken_nodup := List.nodup_nil
  bound := fun _ h => by simp [compInit, resting] at h
  last_le := fun _ => le_refl 0
  latch_le := fun _ _ h => by simp [compInit] at h
  count := rfl
  small := Nat.two_pow_pos 31

theorem completionOk_of_inv {s : CompState T} (h : CompInv s) : CompletionOk s where
  linked := by
    rintro t ⟨seen, ht⟩ -
    exact h.linked t (by rw [ht]; rfl)
  reached := by
    rintro t ⟨seen, ht⟩ hs
    have hrest : resting (s.pc t) = true := by rw [ht]; rfl
    have hcond : s.cond t = s.lastCond t := by
      by_contra hne
      exact hs (Or.inr ⟨hrest, hne⟩)
    cases hw : s.woken with
    | nil =>
      have hb := h.bound t hrest hcond
      rw [hw, List.length_nil, Nat.le_zero] at hb
      exact Or.inl (BitVec.eq_of_toNat_eq hb)
    | cons u rest =>
      have hu := h.woken_awake u (hw ▸ List.mem_cons_self)
      refine Or.inr ⟨u, ?_, Or.inl hu⟩
      rintro rfl
      rw [ht] at hu
      exact Bool.noConfusion hu
  waits_le := by
    rw [← h.count]
    exact Nat.le_add_right _ _
  done_nonneg := by
    rw [BitVec.toInt_eq_toNat_of_lt (by have := h.small; omega)]
    exact Int.natCast_nonneg _

variable [DecidableEq T]

/-- What a wake-up over the entries `l` does: it signals all of them, or it ends at a sleeper. -/
structure WakeSpec (s s' : CompState T) (l : List T) : Prop where
  done : s'.done = s.done
  lastCond : s'.lastCond = s.lastCond
  nrCompletes : s'.nrCompletes = s.nrCompletes
  nrWaits : s'.nrWaits = s.nrWaits
  cond_le : ∀ t, s.cond t ≤ s'.cond t
  outcome : (s'.pc = s.pc ∧ s'.waiters = s.waiters ∧ s'.woken = s.woken ∧ ∀ t ∈ l, s.cond t < s'.cond t) ∨
    ∃ u seen, s.pc u = .asleep seen ∧ s'.pc = Function.update s.pc u .woke ∧
      s'.waiters = s.waiters.erase u ∧ s'.woken = u :: s.woken

theorem cond_le_advance (s : CompState T) (t u : T) :
    s.cond u ≤ Function.update s.cond t (s.cond t + 1) u := by
  by_cases hu : u = t
  · simp [hu]
  · simp [hu]

theorem wakeUpCommon_spec (l : List T) (s : CompState T) : WakeSpec s (wakeUpCommon s l) l := by
  induction l generalizing s with
  | nil => exact ⟨rfl, rfl, rfl, rfl, fun t => le_refl _, Or.inl ⟨rfl, rfl, rfl, by simp⟩⟩
  | cons t rest ih =>
    by_cases ha : ∃ seen, s.pc t = .asleep seen
    · obtain ⟨seen, ha⟩ := ha
      have he : wakeUpCommon s (t :: rest) =
          { s with
            cond := Function.update s.cond t (s.cond t + 1)
            pc := Function.update s.pc t .woke
            waiters := s.waiters.erase t
            woken := t :: s.woken } := by
        simp [wakeUpCommon, ha]
      rw [he]
      exact ⟨rfl, rfl, rfl, rfl, cond_le_advance s t, Or.inr ⟨t, seen, ha, rfl, rfl, rfl⟩⟩
    · have he : wakeUpCommon s (t :: rest) =
          wakeUpCommon { s with cond := Function.update s.cond t (s.cond t + 1) } rest := by
        cases hp : s.pc t with
        | asleep seen => exact absurd ⟨seen, hp⟩ ha
        | idle => simp [wakeUpCommon, hp]
        | looping => simp [wakeUpCommon, hp]
        | futex seen => simp [wakeUpCommon, hp]
        | woke => simp [wakeUpCommon, hp]
        | latch seen => simp [wakeUpCommon, hp]
        | relock => simp [wakeUpCommon, hp]
      rw [he]
      have h := ih { s with cond := Function.update s.cond t (s.cond t + 1) }
      refine ⟨h.done, h.lastCond, h.nrCompletes, h.nrWaits, ?_, ?_⟩
      · exact fun u => (cond_le_advance s t u).trans (h.cond_le u)
      · rcases h.outcome with ⟨hpc, hwait, hwoken, hall⟩ | hslept
        · refine Or.inl ⟨hpc, hwait, hwoken, ?_⟩
          intro u hu
          rcases List.mem_cons.mp hu with rfl | hu
          · have := h.cond_le u
            simp only [Function.update_self] at this
            omega
          · exact (cond_le_advance s t u).trans_lt (hall u hu)
        · exact Or.inr hslept

theorem toNat_add_one {d : BitVec 32} (h : d.toNat + 1 < 2 ^ 31) : (d + 1).toNat = d.toNat + 1 := by
  have hone : (1 : BitVec 32).toNat = 1 := rfl
  rw [BitVec.toNat_add, hone]
  omega

theorem toNat_sub_one {d : BitVec 32} (h : d ≠ 0) : (d - 1).toNat + 1 = d.toNat := by
  have hpos : d.toNat ≠ 0 := fun hz => h (BitVec.eq_of_toNat_eq hz)
  have hone : (1 : BitVec 32).toNat = 1 := rfl
  have hlt := d.isLt
  rw [BitVec.toNat_sub, hone]
  omega

theorem CompInv.complete {s : CompState T} (h : CompInv s) (hd : s.done.toNat + 1 < 2 ^ 31) :
    CompInv (wakeUpCommon { s with done := s.done + 1, nrCompletes := s.nrCompletes + 1 } s.waiters) := by
  have hspec := wakeUpCommon_spec s.waiters { s with done := s.done + 1, nrCompletes := s.nrCompletes + 1 }
  revert hspec
  generalize wakeUpCommon { s with done := s.done + 1, nrCompletes := s.nrCompletes + 1 } s.waiters = s'
  intro w
  have hdone : s'.done.toNat = s.done.toNat + 1 := by
    rw [w.done]
    exact toNat_add_one hd
  have hlast : ∀ t, s'.lastCond t ≤ s'.cond t := fun t => by
    rw [w.lastCond]
    exact (h.last_le t).trans (w.cond_le t)
  have hcount : s'.nrWaits + s'.done.toNat = s'.nrCompletes := by
    rw [hdone, w.nrWaits, w.nrCompletes]
    exact congrArg (· + 1) h.count
  -- a waiter that is unsignalled afterwards was unsignalled before
  have hback : ∀ t, s'.cond t = s'.lastCond t → s.cond t = s.lastCond t ∧ s'.cond t = s.cond t := by
    intro t ht
    rw [w.lastCond] at ht
    have h1 : s.cond t ≤ s'.cond t := w.cond_le t
    have h2 : s.lastCond t ≤ s.cond t := h.last_le t
    have h3 : s'.cond t = s.lastCond t := ht
    exact ⟨by omega, by omega⟩
  rcases w.outcome with ⟨hpc, hwait, hwoken, hall⟩ | ⟨u, seen, hu, hpc, hwait, hwoken⟩
  · have hpc' : s'.pc = s.pc := hpc
    refine ⟨?_, ?_, ?_, ?_, hlast, ?_, hcount, by omega⟩
    · intro t ht
      rw [hwait]
      exact h.linked t (hpc' ▸ ht)
    · intro t ht
      rw [hpc']
      exact h.woken_awake t (hwoken ▸ ht)
    · rw [hwoken]
      exact h.woken_nodup
    · intro t ht hc
      have hlt : s.cond t < s'.cond t := hall t (h.linked t (hpc' ▸ ht))
      have := (hback t hc).2
      omega
    · intro t c ht
      exact (h.latch_le t c (hpc' ▸ ht)).trans (w.cond_le t)
  · have hpc' : s'.pc = Function.update s.pc u .woke := hpc
    have hne : ∀ t, resting (s'.pc t) = true → t ≠ u := by
      rintro t ht rfl
      rw [hpc', Function.update_self] at ht
      exact Bool.noConfusion ht
    have hfresh : u ∉ s.woken := by
      intro hmem
      have := h.woken_awake u hmem
      rw [show s.pc u = .asleep seen from hu] at this
      exact Bool.noConfusion this
    refine ⟨?_, ?_, ?_, ?_, hlast, ?_, hcount, by omega⟩
    · intro t ht
      have htu := hne t ht
      rw [hwait]
      refine (List.mem_erase_of_ne htu).mpr (h.linked t ?_)
      rwa [hpc', Function.update_of_ne htu] at ht
    · intro t ht
      rw [hpc']
      by_cases htu : t = u
      · rw [htu, Function.update_self]
        rfl
      · rw [Function.update_of_ne htu]
        rw [hwoken] at ht
        exact h.woken_awake t ((List.mem_cons.mp ht).resolve_left htu)
    · rw [hwoken]
      exact List.nodup_cons.mpr ⟨hfresh, h.woken_nodup⟩
    · intro t ht hc
      have htu := hne t ht
      rw [hpc', Function.update_of_ne htu] at ht
      have hb := h.bound t ht (hback t hc).1
      rw [hdone, hwoken, List.length_cons]
      exact Nat.succ_le_succ hb
    · intro t c ht
      by_cases htu : t = u
      · rw [hpc', htu, Function.update_self] at ht
        exact CompPc.noConfusion ht
      · rw [hpc', Function.update_of_ne htu] at ht
        exact (h.latch_le t c ht).trans (w.cond_le t)

theorem length_le_erase_add_one (l : List T) (t : T) : l.length ≤ (l.erase t).length + 1 := by
  by_cases ht : t ∈ l
  · have := List.length_erase_of_mem ht
    omega
  · rw [List.erase_of_not_mem ht]
    exact Nat.le_succ _

theorem CompInv.waitSucceed {s : CompState T} (h : CompInv s) {t : T} (hd : s.done ≠ 0) :
    CompInv (waitSucceed s t) := by
  have hdone := toNat_sub_one hd
  have hsmall := h.small
  have hcount := h.count
  have hne : ∀ u, resting ((Skp.Process.waitSucceed s t).pc u) = true → u ≠ t := by
    rintro u hu rfl
    simp [Skp.Process.waitSucceed, resting] at hu
  refine ⟨?_, ?_, h.woken_nodup.erase t, ?_, h.last_le, ?_, ?_, ?_⟩
  · intro u hu
    have hut := hne u hu
    exact (List.mem_erase_of_ne hut).mpr (h.linked u (by simpa [Skp.Process.waitSucceed, hut] using hu))
  · intro u hu
    obtain ⟨hut, hmem⟩ := h.woken_nodup.mem_erase_iff.mp hu
    simpa [Skp.Process.waitSucceed, hut] using h.woken_awake u hmem
  · intro u hu hc
    have hut := hne u hu
    have hb := h.bound u (by simpa [Skp.Process.waitSucceed, hut] using hu) hc
    have he := length_le_erase_add_one s.woken t
    show (s.done - 1).toNat ≤ (s.woken.erase t).length
    omega
  · intro u c hu
    by_cases hut : u = t
    · simp [Skp.Process.waitSucceed, hut] at hu
    · exact h.latch_le u c (by simpa [Skp.Process.waitSucceed, hut] using hu)
  · show s.nrWaits + 1 + (s.done - 1).toNat = s.nrCompletes
    omega
  · show (s.done - 1).toNat < 2 ^ 31
    omega

/-- A step of `t` that stays in its part of the loop, at rest or awake, or leaves the rest for being awake. -/
theorem CompInv.setPc {s : CompState T} (h : CompInv s) {t : T} {p : CompPc}
    (hrest : resting p = true → resting (s.pc t) = true) (hawake : awake (s.pc t) = true → awake p = true)
    (hlatch : ∀ c, p = .latch c → c ≤ s.cond t) : CompInv { s with pc := Function.update s.pc t p } := by
  have hback : ∀ u, resting (Function.update s.pc t p u) = true → resting (s.pc u) = true := by
    intro u hu
    by_cases hut : u = t
    · subst hut
      exact hrest (by simpa using hu)
    · simpa [hut] using hu
  refine ⟨?_, ?_, h.woken_nodup, ?_, h.last_le, ?_, h.count, h.small⟩
  · exact fun u hu => h.linked u (hback u hu)
  · intro u hu
    have := h.woken_awake u hu
    by_cases hut : u = t
    · subst hut
      simpa using hawake this
    · simpa [hut] using this
  · exact fun u hu hc => h.bound u (hback u hu) hc
  · intro u c hu
    by_cases hut : u = t
    · subst hut
      exact hlatch c (by simpa using hu)
    · exact h.latch_le u c (by simpa [hut] using hu)

theorem CompInv.enter {s : CompState T} (h : CompInv s) {t : T} (hi : s.pc t = .idle) (hd : s.done = 0) :
    CompInv { s with
      waiters := s.waiters ++ [t]
      pc := Function.update s.pc t .looping
      cond := Function.update s.cond t 0
      lastCond := Function.update s.lastCond t 0 } := by
  refine ⟨?_, ?_, h.woken_nodup, ?_, ?_, ?_, h.count, h.small⟩
  · intro u hu
    by_cases hut : u = t
    · simp [hut]
    · exact List.mem_append_left _ (h.linked u (by simpa [hut] using hu))
  · intro u hu
    have := h.woken_awake u hu
    by_cases hut : u = t
    · rw [hut, hi] at this
      exact Bool.noConfusion this
    · simpa [hut] using this
  · intro u _ _
    simp [hd]
  · intro u
    by_cases hut : u = t
    · simp [hut]
    · simpa [hut] using h.last_le u
  · intro u c hu
    by_cases hut : u = t
    · simp [hut] at hu
    · simpa [hut] using h.latch_le u c (by simpa [hut] using hu)

theorem CompInv.writeLastCond {s : CompState T} (h : CompInv s) {t : T} {c : ℕ} (ht : s.pc t = .latch c) :
    CompInv { s with lastCond := Function.update s.lastCond t c, pc := Function.update s.pc t .relock } := by
  have hrelock := h.setPc (t := t) (p := .relock) (by simp [resting]) (by simp [awake]) (by simp)
  have hne : ∀ u, resting (Function.update s.pc t .relock u) = true → u ≠ t := by
    rintro u hu rfl
    simp [resting] at hu
  refine ⟨hrelock.linked, hrelock.woken_awake, h.woken_nodup, ?_, ?_, hrelock.latch_le, h.count, h.small⟩
  · intro u hu hc
    exact hrelock.bound u hu (by simpa [hne u hu] using hc)
  · intro u
    by_cases hut : u = t
    · subst hut
      simpa using h.latch_le u c ht
    · simpa [hut] using h.last_le u

theorem CompInv.recheckFails {s : CompState T} (h : CompInv s) {t : T} (hl : t ∈ s.waiters)
    (hd : s.done = 0) :
    CompInv { s with pc := Function.update s.pc t .looping, woken := s.woken.erase t } := by
  refine ⟨?_, ?_, h.woken_nodup.erase t, ?_, h.last_le, ?_, h.count, h.small⟩
  · intro u hu
    by_cases hut : u = t
    · rwa [hut]
    · exact h.linked u (by simpa [hut] using hu)
  · intro u hu
    obtain ⟨hut, hmem⟩ := h.woken_nodup.mem_erase_iff.mp hu
    simpa [hut] using h.woken_awake u hmem
  · intro u _ _
    simp [hd]
  · intro u c hu
    by_cases hut : u = t
    · simp [hut] at hu
    · exact h.latch_le u c (by simpa [hut] using hu)

theorem compStep_inv (s : CompState T) (a : CompAct T) (s' : CompState T) (h : CompInv s)
    (hgood : FindsCount s a) (hs : compStep s a = some s') : CompInv s' := by
  cases a with
  | complete =>
    simp only [compStep, Option.some.injEq] at hs
    exact hs ▸ h.complete hgood
  | enter t =>
    by_cases hi : s.pc t = .idle
    · by_cases hd : s.done = 0
      · simp only [compStep, if_pos hi, if_neg (not_not_intro hd), Option.some.injEq] at hs
        exact hs ▸ h.enter hi hd
      · simp only [compStep, if_pos hi, if_pos hd, Option.some.injEq] at hs
        exact hs ▸ h.waitSucceed hd
    · simp [compStep, hi] at hs
  | look t =>
    by_cases hp : s.pc t = .looping
    · simp only [compStep, if_pos hp, Option.some.injEq] at hs
      subst hs
      refine h.setPc (fun _ => by rw [hp]; rfl) (fun ha => ?_) (fun c hc => ?_)
      · rw [hp] at ha
        exact Bool.noConfusion ha
      · split at hc <;> cases hc
    · simp [compStep, hp] at hs
  | futexWait t =>
    simp only [compStep] at hs
    split at hs
    · rename_i seen hp
      cases hs
      refine h.setPc (fun _ => by rw [hp]; rfl) (fun ha => ?_) (fun c hc => ?_)
      · rw [hp] at ha
        exact Bool.noConfusion ha
      · split at hc <;> cases hc
    · cases hs
  | interrupt t =>
    simp only [compStep] at hs
    split at hs
    · rename_i seen hp
      cases hs
      refine h.setPc (fun _ => by rw [hp]; rfl) (fun ha => ?_) (by simp)
      rw [hp] at ha
      exact Bool.noConfusion ha
    · cases hs
  | spurious t =>
    simp only [compStep] at hs
    split at hs
    · cases hs
      exact h.setPc (by simp [resting]) (by simp [awake]) (by simp)
    · cases hs
  | readCond t =>
    by_cases hp : s.pc t = .woke
    · simp only [compStep, if_pos hp, Option.some.injEq] at hs
      subst hs
      refine h.setPc (by simp [resting]) (by simp [awake]) (fun c hc => ?_)
      injection hc with hc
      exact hc.symm.le
    · simp [compStep, hp] at hs
  | writeLastCond t =>
    simp only [compStep] at hs
    split at hs
    · rename_i seen hp
      cases hs
      exact h.writeLastCond hp
    · cases hs
  | recheck t =>
    by_cases hp : s.pc t = .relock
    · by_cases hd : s.done = 0
      · have hl : t ∈ s.waiters := hgood.resolve_right (fun hne => hne hd)
        simp only [compStep, if_pos hp, if_neg (not_not_intro hd), Option.some.injEq] at hs
        exact hs ▸ h.recheckFails hl hd
      · simp only [compStep, if_pos hp, if_pos hd, Option.some.injEq] at hs
        exact hs ▸ h.waitSucceed hd
    · simp [compStep, hp] at hs

/-- In every run in which `done` does not overflow and no thread off the queue finds `done` at 0, the
contract holds in every state. -/
theorem completion_ok (as : List (CompAct T)) (s : CompState T)
    (hgood : RunMeets compStep FindsCount compInit as) (hrun : runActs compStep compInit as = some s) :
    CompletionOk s :=
  completionOk_of_inv (run_invariant compStep_inv as compInit s compInv_init hgood hrun)

/-- Two waiters; one `complete` wakes the first, which takes the count, and the second stays blocked. -/
def completeOne : List (CompAct Bool) :=
  [.enter true, .look true, .futexWait true, .enter false, .look false, .futexWait false, .complete,
   .readCond true, .writeLastCond true, .recheck true]

theorem completion_ok_completeOne :
    ∃ s, runActs compStep compInit completeOne = some s ∧ Blocked s false ∧ s.pc true = .idle ∧
      CompletionOk s := by
  have hmeets : RunMeets compStep FindsCount compInit completeOne := by
    refine .cons rfl trivial (.cons rfl trivial (.cons rfl trivial (.cons rfl trivial (.cons rfl trivial
      (.cons rfl trivial (.cons rfl ?_ (.cons rfl trivial (.cons rfl trivial (.cons rfl ?_ trivial)))))))))
    · show (0 : BitVec 32).toNat + 1 < 2 ^ 31
      decide
    · exact Or.inr (by decide)
  exact ⟨_, rfl, ⟨0, rfl⟩, rfl, completion_ok completeOne _ hmeets rfl⟩

/-- `true` sleeps and is woken by a `complete`, `false` takes the count before `true` runs, and `true` goes to
sleep again; a second `complete` then finds nobody. -/
def countTaken : List (CompAct Bool) :=
  [.enter true, .look true, .futexWait true, .complete, .enter false, .readCond true, .writeLastCond true,
   .recheck true, .look true, .futexWait true, .complete]

/-- `true` is blocked, unsignalled and off the queue, although `done` is 1 and nobody else waits. -/
theorem completion_loses_waiter :
    ∃ s, runActs compStep compInit countTaken = some s ∧ Blocked s true ∧ ¬ Signalled s true ∧
      s.waiters = [] ∧ s.done = 1 ∧ (∀ u, ¬ Signalled s u) ∧ ¬ CompletionOk s := by
  have hsig : ∀ s, runActs compStep (compInit : CompState Bool) countTaken = some s →
      ∀ u, ¬ Signalled s u := by
    intro s hs u
    cases hs
    cases u
    · rintro (h | h) <;> revert h <;> decide
    · rintro (h | h) <;> revert h <;> decide
  refine ⟨_, rfl, ⟨1, rfl⟩, hsig _ rfl true, rfl, rfl, hsig _ rfl, ?_⟩
  intro hok
  exact List.not_mem_nil (hok.linked true ⟨1, rfl⟩ (hsig _ rfl true))

end Skp.Process
