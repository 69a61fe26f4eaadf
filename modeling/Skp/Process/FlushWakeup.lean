import Skp.Process.FlushModel

/-! # Does a flusher miss its wake-up?

A removal advances `remove_seq` and tests the list of flushers without the lock that a flusher holds
from its copies to its join. When the removal that reaches a flusher's copy of `insert_seq` tests
the list in between, it sees no waiter, and the flusher then waits for a value that has already gone
by, unless its own copy of `remove_seq` still is that value. In the runs without such a test a
blocked flusher is either not passed or about to be woken. -/
namespace Skp.Process
set_option autoImplicit false
open Skp.Foundations

variable {F W : Type}

/-- A removal that took `remove_seq` to `v` is between its advance and the end of its wake-up. -/
def Removing (s : FlushState F W) (v : BitVec 16) : Prop :=
  ∃ w n, s.worker w = .advanced v n ∨ s.worker w = .waking v n

/-- A flusher that is blocked and not signalled has not been passed, or the removal that reaches its
copy of `insert_seq` is still on its way to wake it. -/
def NotPassed (s : FlushState F W) : Prop :=
  ∀ f, s.pc f = .blocked → s.remSnap f ≠ s.insSnap f → s.reached f = true → Removing s (s.insSnap f)

/-- A removal that has reached a flusher's copy of `insert_seq` does not test the list before the
flusher joins it, unless the flusher copies `remove_seq` while it still has that value. -/
def TestsAfterJoin (s : FlushState F W) : FlushAct F W → Prop
  | .testList w => ∀ v n, s.worker w = .advanced v n →
      ∀ f, s.pc f = .snapped → s.insSnap f = v → s.remSnap f ≠ v → s.reached f = false
  | .copyRemove f => s.reached f = true → s.removeSeq = s.insSnap f ∨ Removing s (s.insSnap f)
  | _ => True

structure WakeInv (s : FlushState F W) : Prop where
  owner : ∀ f, s.pc f = .copied ∨ s.pc f = .snapped ∨ s.pc f = .joined → s.lock = some f
  listed : ∀ f, s.pc f = .joined ∨ s.pc f = .blocked → s.remSnap f ≠ s.insSnap f → f ∈ s.waiters
  pending : ∀ f, s.pc f ≠ .idle → s.pc f ≠ .copied → s.remSnap f ≠ s.insSnap f → s.reached f = true →
    Removing s (s.insSnap f)

theorem wakeInv_init : WakeInv (flushInit : FlushState F W) where
  owner := fun f h => by simp [flushInit] at h
  listed := fun f h => by simp [flushInit] at h
  pending := fun f h => absurd rfl h

variable [DecidableEq W]

theorem Removing.update {s s' : FlushState F W} {v : BitVec 16} (h : Removing s v) {w : W} {pc : WkPc}
    (hs : s'.worker = Function.update s.worker w pc)
    (hw : ∀ n, s.worker w ≠ .advanced v n ∧ s.worker w ≠ .waking v n) : Removing s' v := by
  obtain ⟨u, n, hu⟩ := h
  have hne : u ≠ w := by
    rintro rfl
    exact hu.elim (hw n).1 (hw n).2
  exact ⟨u, n, by rwa [hs, Function.update_of_ne hne]⟩

omit [DecidableEq W] in
theorem not_removing_of_idle {s : FlushState F W} {v : BitVec 16} (h : ∀ w, s.worker w = .idle) :
    ¬ Removing s v := by
  rintro ⟨w, n, hw⟩
  rw [h w] at hw
  exact hw.elim WkPc.noConfusion WkPc.noConfusion

theorem wakeInv_advance {s : FlushState F W} (h : WakeInv s) {w : W} (i : ℕ) (hw : s.worker w = .idle) :
    WakeInv { s with
      removeSeq := s.removeSeq + 1
      work := Function.update s.work i .removed
      nrRemoved := s.nrRemoved + 1
      worker := Function.update s.worker w (.advanced (s.removeSeq + 1) (s.nrRemoved + 1))
      reached := fun f => s.reached f || (s.pc f != .idle && s.insSnap f == s.removeSeq + 1) } := by
  refine ⟨h.owner, h.listed, ?_⟩
  intro f hpc hcopied hsnap hreached
  by_cases hv : s.insSnap f = s.removeSeq + 1
  · exact ⟨w, s.nrRemoved + 1, Or.inl (by rw [hv]; exact Function.update_self ..)⟩
  · have hold : s.reached f = true := by
      rcases Bool.or_eq_true_iff.mp hreached with hr | hr
      · exact hr
      · exact absurd (eq_of_beq (Bool.and_eq_true_iff.mp hr).2) hv
    refine (h.pending f hpc hcopied hsnap hold).update rfl ?_
    intro n
    rw [hw]
    exact ⟨WkPc.noConfusion, WkPc.noConfusion⟩

theorem wakeInv_testList {s : FlushState F W} (h : WakeInv s) {w : W} {v : BitVec 16} {n : ℕ}
    (hw : s.worker w = .advanced v n) (hgood : TestsAfterJoin s (.testList w)) :
    WakeInv { s with worker := Function.update s.worker w (if s.waiters.isEmpty then .idle
      else .waking v n) } := by
  refine ⟨h.owner, h.listed, ?_⟩
  intro f hpc hcopied hsnap hreached
  by_cases hv : s.insSnap f = v
  · -- the flusher is on the list, so the test sees it
    have hmem : f ∈ s.waiters := by
      refine h.listed f ?_ hsnap
      cases hf : s.pc f with
      | idle => exact absurd hf hpc
      | copied => exact absurd hf hcopied
      | snapped =>
        have hno := hgood v n hw f hf hv (hv ▸ hsnap)
        have hyes : s.reached f = true := hreached
        rw [hno] at hyes
        exact Bool.noConfusion hyes
      | joined => exact Or.inl rfl
      | blocked => exact Or.inr rfl
    have hne : s.waiters.isEmpty = false := by simpa using List.ne_nil_of_mem hmem
    refine ⟨w, n, Or.inr ?_⟩
    simp [hne, hv]
  · refine (h.pending f hpc hcopied hsnap hreached).update rfl ?_
    intro m
    rw [hw]
    refine ⟨fun he => hv ?_, WkPc.noConfusion⟩
    injection he with he1
    exact he1.symm

variable [DecidableEq F]

theorem wakeInv_wake {s : FlushState F W} (h : WakeInv s) {w : W} {v : BitVec 16} {n : ℕ}
    (hw : s.worker w = .waking v n) (hlock : s.lock = none) (asleep : F → Bool) :
    WakeInv { wakeFlushers s v asleep with worker := Function.update s.worker w .idle } := by
  -- a flusher that stays unsignalled was unsignalled before and waits for another value
  have hkeep : ∀ f, s.pc f ≠ .idle → (wakeFlushers s v asleep).remSnap f ≠ s.insSnap f →
      s.remSnap f ≠ s.insSnap f ∧ s.insSnap f ≠ v ∧ f ∈ s.waiters := by
    intro f hpc hsnap
    have hblocked : s.pc f = .joined ∨ s.pc f = .blocked := by
      cases hf : s.pc f with
      | idle => exact absurd hf hpc
      | copied => exact absurd ((h.owner f (Or.inl hf)).symm.trans hlock) (Option.some_ne_none f)
      | snapped => exact absurd ((h.owner f (Or.inr (Or.inl hf))).symm.trans hlock) (Option.some_ne_none f)
      | joined => exact Or.inl rfl
      | blocked => exact Or.inr rfl
    by_cases hmatch : f ∈ s.waiters ∧ s.insSnap f = v
    · simp [wakeFlushers, hmatch] at hsnap
    · have hold : s.remSnap f ≠ s.insSnap f := by simpa [wakeFlushers, hmatch] using hsnap
      have hmem := h.listed f hblocked hold
      exact ⟨hold, fun hv => hmatch ⟨hmem, hv⟩, hmem⟩
  refine ⟨h.owner, ?_, ?_⟩
  · intro f hpc hsnap
    have hne : s.pc f ≠ .idle := by
      rcases hpc with hp | hp
      · exact fun he => FlPc.noConfusion (he.symm.trans hp)
      · exact fun he => FlPc.noConfusion (he.symm.trans hp)
    obtain ⟨-, hv, hmem⟩ := hkeep f hne hsnap
    refine List.mem_filter.mpr ⟨hmem, ?_⟩
    simp [hv]
  · intro f hpc hcopied hsnap hreached
    obtain ⟨hold, hv, -⟩ := hkeep f hpc hsnap
    refine (h.pending f hpc hcopied hold hreached).update rfl ?_
    intro m
    rw [hw]
    refine ⟨WkPc.noConfusion, fun he => hv ?_⟩
    injection he with he1
    exact he1.symm

section
omit [DecidableEq W]

theorem wakeInv_copyInsert {s : FlushState F W} (h : WakeInv s) {f : F} (hlock : s.lock = none) :
    WakeInv { s with
      lock := some f
      pc := Function.update s.pc f .copied
      insSnap := Function.update s.insSnap f s.insertSeq
      callIns := Function.update s.callIns f s.nrInserted
      reached := Function.update s.reached f (s.removeSeq == s.insertSeq)
      returned := Function.update s.returned f false } := by
  refine ⟨?_, ?_, ?_⟩
  · intro g hg
    by_cases he : g = f
    · rw [he]
    · have hold : s.lock = some g := h.owner g (by simpa [he] using hg)
      exact absurd (hold.symm.trans hlock) (Option.some_ne_none g)
  · intro g hg hsnap
    by_cases he : g = f
    · simp [he] at hg
    · simp only [Function.update_of_ne he] at hg hsnap
      exact h.listed g hg hsnap
  · intro g hg hcopied hsnap hreached
    by_cases he : g = f
    · simp [he] at hcopied
    · simp only [Function.update_of_ne he] at hg hcopied hsnap hreached ⊢
      exact h.pending g hg hcopied hsnap hreached

theorem wakeInv_copyRemove {s : FlushState F W} (h : WakeInv s) {f : F} (hf : s.pc f = .copied)
    (hgood : TestsAfterJoin s (.copyRemove f)) :
    WakeInv { s with
      remSnap := Function.update s.remSnap f s.removeSeq
      pc := Function.update s.pc f .snapped } := by
  refine ⟨?_, ?_, ?_⟩
  · intro g hg
    by_cases he : g = f
    · rw [he]
      exact h.owner f (Or.inl hf)
    · exact h.owner g (by simpa [he] using hg)
  · intro g hg hsnap
    by_cases he : g = f
    · simp [he] at hg
    · simp only [Function.update_of_ne he] at hg hsnap
      exact h.listed g hg hsnap
  · intro g hg hcopied hsnap hreached
    by_cases he : g = f
    · subst he
      have hmoved : s.removeSeq ≠ s.insSnap g := by simpa using hsnap
      exact (hgood hreached).resolve_left hmoved
    · simp only [Function.update_of_ne he] at hg hcopied hsnap
      exact h.pending g hg hcopied hsnap hreached

theorem wakeInv_join {s : FlushState F W} (h : WakeInv s) {f : F} (hf : s.pc f = .snapped) :
    WakeInv { s with waiters := f :: s.waiters, pc := Function.update s.pc f .joined } := by
  refine ⟨?_, ?_, ?_⟩
  · intro g hg
    by_cases he : g = f
    · rw [he]
      exact h.owner f (Or.inr (Or.inl hf))
    · exact h.owner g (by simpa [he] using hg)
  · intro g hg hsnap
    by_cases he : g = f
    · rw [he]
      exact List.mem_cons_self
    · exact List.mem_cons_of_mem f (h.listed g (by simpa [he] using hg) hsnap)
  · intro g hg hcopied hsnap hreached
    have hpc : s.pc g ≠ .idle ∧ s.pc g ≠ .copied := by
      by_cases he : g = f
      · simp [he, hf]
      · exact ⟨by simpa [he] using hg, by simpa [he] using hcopied⟩
    exact h.pending g hpc.1 hpc.2 hsnap hreached

theorem wakeInv_block {s : FlushState F W} (h : WakeInv s) {f : F} (hf : s.pc f = .joined) :
    WakeInv { s with lock := none, pc := Function.update s.pc f .blocked } := by
  have hlock : s.lock = some f := h.owner f (Or.inr (Or.inr hf))
  refine ⟨?_, ?_, ?_⟩
  · intro g hg
    by_cases he : g = f
    · simp [he] at hg
    · have hold : s.lock = some g := h.owner g (by simpa [he] using hg)
      exact absurd (Option.some.inj (hold.symm.trans hlock)) he
  · intro g hg hsnap
    by_cases he : g = f
    · rw [he] at hsnap ⊢
      exact h.listed f (Or.inl hf) hsnap
    · exact h.listed g (by simpa [he] using hg) hsnap
  · intro g hg hcopied hsnap hreached
    have hpc : s.pc g ≠ .idle ∧ s.pc g ≠ .copied := by
      by_cases he : g = f
      · simp [he, hf]
      · exact ⟨by simpa [he] using hg, by simpa [he] using hcopied⟩
    exact h.pending g hpc.1 hpc.2 hsnap hreached

theorem wakeInv_return {s : FlushState F W} (h : WakeInv s) {f : F}
    (hlock : s.lock = none ∨ s.lock = some f) :
    WakeInv (flushReturn s f) := by
  refine ⟨?_, ?_, ?_⟩
  · intro g hg
    by_cases he : g = f
    · simp [flushReturn, he] at hg
    · have hold : s.lock = some g := h.owner g (by simpa [flushReturn, he] using hg)
      rcases hlock with hn | hs
      · exact absurd (hold.symm.trans hn) (Option.some_ne_none g)
      · exact absurd (Option.some.inj (hold.symm.trans hs)) he
  · intro g hg hsnap
    by_cases he : g = f
    · simp [flushReturn, he] at hg
    · have hmem := h.listed g (by simpa [flushReturn, he] using hg) hsnap
      exact (List.mem_erase_of_ne he).mpr hmem
  · intro g hg hcopied hsnap hreached
    by_cases he : g = f
    · simp [flushReturn, he] at hg
    · exact h.pending g (by simpa [flushReturn, he] using hg)
        (by simpa [flushReturn, he] using hcopied) hsnap hreached

end

theorem flushStep_wakeInv (s : FlushState F W) (a : FlushAct F W) (s' : FlushState F W) (h : WakeInv s)
    (hgood : TestsAfterJoin s a) (hs : flushStep s a = some s') : WakeInv s' := by
  cases a with
  | queueWork =>
    simp only [flushStep, Option.some.injEq] at hs
    subst hs
    exact ⟨h.owner, h.listed, h.pending⟩
  | finish i =>
    by_cases hi : s.work i = .queued
    · simp only [flushStep, if_pos hi, Option.some.injEq] at hs
      subst hs
      exact ⟨h.owner, h.listed, h.pending⟩
    · simp [flushStep, hi] at hs
  | advance w i =>
    by_cases hi : s.worker w = .idle ∧ s.work i = .finished
    · simp only [flushStep, if_pos hi, Option.some.injEq] at hs
      subst hs
      exact wakeInv_advance h i hi.1
    · simp [flushStep, hi] at hs
  | testList w =>
    cases hw : s.worker w with
    | idle => simp [flushStep, hw] at hs
    | waking v n => simp [flushStep, hw] at hs
    | advanced v n =>
      simp only [flushStep, hw, Option.some.injEq] at hs
      subst hs
      exact wakeInv_testList h hw hgood
  | wake w asleep =>
    cases hw : s.worker w with
    | idle => simp [flushStep, hw] at hs
    | advanced v n => simp [flushStep, hw] at hs
    | waking v n =>
      cases hl : s.lock with
      | some g => simp [flushStep, hw, hl] at hs
      | none =>
        simp only [flushStep, hw, hl, Option.some.injEq] at hs
        subst hs
        exact wakeInv_wake h hw hl asleep
  | copyInsert f =>
    by_cases hf : s.pc f = .idle ∧ s.lock = none
    · simp only [flushStep, if_pos hf, Option.some.injEq] at hs
      subst hs
      exact wakeInv_copyInsert h hf.2
    · simp [flushStep, hf] at hs
  | copyRemove f =>
    by_cases hf : s.pc f = .copied
    · simp only [flushStep, if_pos hf, Option.some.injEq] at hs
      subst hs
      exact wakeInv_copyRemove h hf hgood
    · simp [flushStep, hf] at hs
  | join f =>
    by_cases hf : s.pc f = .snapped
    · simp only [flushStep, if_pos hf, Option.some.injEq] at hs
      subst hs
      exact wakeInv_join h hf
    · simp [flushStep, hf] at hs
  | wait f =>
    by_cases hf : s.pc f = .joined
    · by_cases hq : s.insSnap f = s.remSnap f
      · simp only [flushStep, if_pos hf, if_pos hq, Option.some.injEq] at hs
        subst hs
        exact wakeInv_return h (Or.inr (h.owner f (Or.inr (Or.inr hf))))
      · simp only [flushStep, if_pos hf, if_neg hq, Option.some.injEq] at hs
        subst hs
        exact wakeInv_block h hf
    · simp [flushStep, hf] at hs
  | leave f =>
    by_cases hf : s.pc f = .blocked ∧ s.lock = none ∧ s.insSnap f = s.remSnap f
    · simp only [flushStep, if_pos hf, Option.some.injEq] at hs
      subst hs
      exact wakeInv_return h (Or.inl hf.2.1)
    · simp [flushStep, hf] at hs

/-- In every run in which no removal that reached a flusher's copy of `insert_seq` tests the list
before the flusher joins it or copies `remove_seq`, a blocked and unsignalled flusher has not been
passed. -/
theorem flush_not_passed (as : List (FlushAct F W)) (s : FlushState F W)
    (hgood : RunMeets flushStep TestsAfterJoin flushInit as)
    (hrun : runActs flushStep flushInit as = some s) :
    NotPassed s := by
  have hinv := run_invariant flushStep_wakeInv as flushInit s wakeInv_init hgood hrun
  intro f hpc hsnap hreached
  exact hinv.pending f (by simp [hpc]) (by simp [hpc]) hsnap hreached

def testAfterJoin : List (FlushAct Unit Unit) :=
  [.queueWork, .copyInsert (), .copyRemove (), .finish 0, .advance () 0, .join (), .wait (), .testList ()]

theorem flush_not_passed_testAfterJoin :
    ∃ s, runActs flushStep flushInit testAfterJoin = some s ∧ s.pc () = .blocked ∧ s.reached () = true ∧
      NotPassed s := by
  have hmeets : RunMeets flushStep TestsAfterJoin flushInit testAfterJoin := by
    refine .cons rfl trivial (.cons rfl trivial (.cons rfl ?_ (.cons rfl trivial (.cons rfl trivial
      (.cons rfl trivial (.cons rfl trivial (.cons rfl ?_ trivial)))))))
    · exact fun h => absurd h (by decide)
    · intro v n _ f
      cases f
      exact fun hf => absurd hf (by decide)
  exact ⟨_, rfl, by decide, by decide, flush_not_passed testAfterJoin _ hmeets rfl⟩

/-- The same work and flusher, but the removal tests the list between the copies and the join. -/
def testBeforeJoin : List (FlushAct Unit Unit) :=
  [.queueWork, .copyInsert (), .copyRemove (), .finish 0, .advance () 0, .testList (), .join (), .wait ()]

/-- Two works are queued at the call. They and a third one are removed between the two copies. -/
def removedBetweenCopies : List (FlushAct Unit Unit) :=
  [.queueWork, .queueWork, .copyInsert (), .finish 0, .advance () 0, .testList (), .finish 1,
    .advance () 1, .testList (),
    .queueWork, .finish 2, .advance () 2, .testList (), .copyRemove (), .join (), .wait ()]

/-- Every work is removed, no removal is under way, and the flusher is blocked without a signal. -/
def BlockedForGood (as : List (FlushAct Unit Unit)) : Prop :=
  ∃ s, runActs flushStep flushInit as = some s ∧ s.nrRemoved = s.nrInserted ∧ s.pc () = .blocked ∧
    s.remSnap () ≠ s.insSnap () ∧ s.worker () = .idle ∧ ¬ NotPassed s

theorem flush_passed_unsignalled :
    BlockedForGood testBeforeJoin ∧ BlockedForGood removedBetweenCopies := by
  constructor
  · refine ⟨_, rfl, by decide, by decide, by decide, by decide, fun h => ?_⟩
    exact not_removing_of_idle (fun w => by cases w; rfl)
      (h () (by decide) (by decide) (by decide))
  · refine ⟨_, rfl, by decide, by decide, by decide, by decide, fun h => ?_⟩
    exact not_removing_of_idle (fun w => by cases w; rfl)
      (h () (by decide) (by decide) (by decide))

end Skp.Process
