import Skp.Foundations.Wrapping
import Skp.Process.FlushModel

/-! # What has finished when a flush returns

A flusher waits for `remove_seq` to take the value `insert_seq` had at its call, but a removal counts
whichever work it removes. A work queued after the call and removed early ends the wait while an older
work still runs. When the removals during the call take the older works first, and no more than one turn
of the 16-bit counters lies between the works in flight, the flush returns only after all of them. -/
namespace Skp.Process
set_option autoImplicit false
open Skp.Foundations

variable {F W : Type}

/-- Every work queued before a flush that has returned has finished executing or been cancelled. -/
def FlushedAll (s : FlushState F W) : Prop :=
  ∀ f, s.returned f = true → ∀ i, i < s.callIns f → s.work i = .finished ∨ s.work i = .removed

def AllRemoved (s : FlushState F W) (f : F) : Prop := ∀ i, i < s.callIns f → s.work i = .removed

/-- Worker `w` is between its advance, the `n`-th removal, and the end of its wake-up. -/
def AtRemoval (worker : W → WkPc) (w : W) (v : BitVec 16) (n : ℕ) : Prop :=
  worker w = .advanced v n ∨ worker w = .waking v n

/-- A flusher that has copied `insert_seq` and will wait for it, as far as it can tell. -/
def Unsatisfied (s : FlushState F W) (f : F) : Prop := s.pc f ≠ .copied → s.remSnap f ≠ s.insSnap f

/-- Until a flusher is done, a work queued after its call is not removed before those queued before it;
and at the call fewer than `2 ^ 16` works are in flight, counted from the oldest removal under way. -/
def OlderFirst (s : FlushState F W) : FlushAct F W → Prop
  | .advance _ i => ∀ f, s.pc f ≠ .idle → Unsatisfied s f → i < s.callIns f ∨ AllRemoved s f
  | .copyInsert _ => s.nrInserted < s.nrRemoved + 2 ^ 16 ∧
      ∀ w v n, AtRemoval s.worker w v n → s.nrInserted < n + 2 ^ 16
  | _ => True

/-- What a flusher that is not done yet waits for: only older works have been removed, and every removal
under way lies within one turn of the counter before the call. -/
structure StillWaits (s : FlushState F W) (f : F) : Prop where
  unsignalled : Unsatisfied s f
  older : ∀ i, s.work i = .removed → i < s.callIns f
  turn : s.callIns f < s.nrRemoved + 2 ^ 16
  turnAt : ∀ w v n, AtRemoval s.worker w v n → s.callIns f < n + 2 ^ 16

structure ReturnInv (s : FlushState F W) : Prop where
  insertSeq : s.insertSeq = BitVec.ofNat 16 s.nrInserted
  removeSeq : s.removeSeq = BitVec.ofNat 16 s.nrRemoved
  absent : ∀ i, s.work i = .absent ↔ s.nrInserted ≤ i
  count : s.nrRemoved = ((Finset.range s.nrInserted).filter fun i => s.work i = .removed).card
  removal : ∀ w v n, AtRemoval s.worker w v n → v = BitVec.ofNat 16 n ∧ n ≤ s.nrRemoved
  called : ∀ f, s.callIns f ≤ s.nrInserted
  snap : ∀ f, s.pc f ≠ .idle → s.insSnap f = BitVec.ofNat 16 (s.callIns f)
  waiting : ∀ f, s.pc f ≠ .idle → AllRemoved s f ∨ StillWaits s f
  flushed : FlushedAll s

theorem returnInv_init : ReturnInv (flushInit : FlushState F W) where
  insertSeq := rfl
  removeSeq := rfl
  absent := fun i => by simp [flushInit]
  count := rfl
  removal := fun w v n h => by simp [AtRemoval, flushInit] at h
  called := fun f => le_refl _
  snap := fun f h => absurd rfl h
  waiting := fun f h => absurd rfl h
  flushed := fun f h => by simp [flushInit] at h

/-! ## Counting the removed works -/

theorem removed_lt {s : FlushState F W} (h : ReturnInv s) {i : ℕ} (hi : s.work i = .removed) :
    i < s.nrInserted := by
  by_contra hge
  have habs := (h.absent i).mpr (Nat.le_of_not_lt hge)
  rw [hi] at habs
  exact WorkPhase.noConfusion habs

theorem removed_count_le {s : FlushState F W} (h : ReturnInv s) {c : ℕ}
    (hold : ∀ i, s.work i = .removed → i < c) : s.nrRemoved ≤ c := by
  have hsub : ((Finset.range s.nrInserted).filter fun i => s.work i = .removed) ⊆ Finset.range c := by
    intro i hi
    exact Finset.mem_range.mpr (hold i (Finset.mem_filter.mp hi).2)
  have hcard := Finset.card_le_card hsub
  rw [Finset.card_range, ← h.count] at hcard
  exact hcard

theorem all_removed_of_count {s : FlushState F W} (h : ReturnInv s) {c : ℕ}
    (hold : ∀ i, s.work i = .removed → i < c) (hc : c ≤ s.nrRemoved) : ∀ i, i < c → s.work i = .removed := by
  have hsub : ((Finset.range s.nrInserted).filter fun i => s.work i = .removed) ⊆ Finset.range c := by
    intro i hi
    exact Finset.mem_range.mpr (hold i (Finset.mem_filter.mp hi).2)
  have heq := Finset.eq_of_subset_of_card_le hsub (by rw [Finset.card_range, ← h.count]; exact hc)
  intro i hi
  have hmem : i ∈ (Finset.range s.nrInserted).filter fun i => s.work i = .removed := by
    rw [heq]
    exact Finset.mem_range.mpr hi
  exact (Finset.mem_filter.mp hmem).2

/-! ## One step -/

/-- What a flusher waits for depends on the removed works only. -/
theorem waiting_congr {s : FlushState F W} {work : ℕ → WorkPhase} {q : BitVec 16} {n : ℕ}
    (hremoved : ∀ i, work i = .removed ↔ s.work i = .removed) {f : F}
    (h : AllRemoved s f ∨ StillWaits s f) :
    AllRemoved { s with insertSeq := q, work := work, nrInserted := n } f ∨
      StillWaits { s with insertSeq := q, work := work, nrInserted := n } f := by
  rcases h with hall | hw
  · exact Or.inl fun i hi => (hremoved i).mpr (hall i hi)
  · exact Or.inr ⟨hw.unsignalled, fun i hi => hw.older i ((hremoved i).mp hi), hw.turn, hw.turnAt⟩

theorem returnInv_queueWork {s : FlushState F W} (h : ReturnInv s) :
    ReturnInv { s with
      insertSeq := s.insertSeq + 1
      work := Function.update s.work s.nrInserted .queued
      nrInserted := s.nrInserted + 1 } := by
  have hold : ∀ i, i < s.nrInserted → Function.update s.work s.nrInserted .queued i = s.work i := fun i hi =>
    Function.update_of_ne (Nat.ne_of_lt hi) _ _
  have hremoved : ∀ i, Function.update s.work s.nrInserted .queued i = .removed ↔ s.work i = .removed := by
    intro i
    by_cases he : i = s.nrInserted
    · simp [he, (h.absent s.nrInserted).mpr (Nat.le_refl _)]
    · rw [Function.update_of_ne he]
  refine ⟨?_, h.removeSeq, ?_, ?_, h.removal, fun f => Nat.le_succ_of_le (h.called f), h.snap, ?_, ?_⟩
  · rw [h.insertSeq, ofNat_add_one]
  · intro i
    by_cases he : i = s.nrInserted
    · simp [he]
    · have habs := h.absent i
      simp only [Function.update_of_ne he]
      rw [habs]
      omega
  · simp only [hremoved]
    rw [Finset.range_add_one, Finset.filter_insert, if_neg]
    · exact h.count
    · rw [(h.absent s.nrInserted).mpr (Nat.le_refl _)]
      exact WorkPhase.noConfusion
  · intro f hf
    exact waiting_congr hremoved (h.waiting f hf)
  · intro f hf i hi
    simp only [hold i (Nat.lt_of_lt_of_le hi (h.called f))]
    exact h.flushed f hf i hi

theorem returnInv_finish {s : FlushState F W} (h : ReturnInv s) {k : ℕ} (hk : s.work k = .queued) :
    ReturnInv { s with work := Function.update s.work k .finished } := by
  have hremoved : ∀ i, Function.update s.work k .finished i = .removed ↔ s.work i = .removed := by
    intro i
    by_cases he : i = k
    · simp [he, hk]
    · rw [Function.update_of_ne he]
  refine ⟨h.insertSeq, h.removeSeq, ?_, ?_, h.removal, h.called, h.snap, ?_, ?_⟩
  · intro i
    by_cases he : i = k
    · have habs := h.absent k
      rw [hk] at habs
      simpa [he] using habs
    · simp only [Function.update_of_ne he]
      exact h.absent i
  · simp only [hremoved]
    exact h.count
  · intro f hf
    exact waiting_congr hremoved (h.waiting f hf)
  · intro f hf i hi
    by_cases he : i = k
    · exact Or.inl (by rw [he]; exact Function.update_self ..)
    · simp only [Function.update_of_ne he]
      exact h.flushed f hf i hi

variable [DecidableEq W]

theorem returnInv_advance {s : FlushState F W} (h : ReturnInv s) {w : W} {k : ℕ} (hk : s.work k = .finished)
    (hgood : OlderFirst s (.advance w k)) :
    ReturnInv { s with
      removeSeq := s.removeSeq + 1
      work := Function.update s.work k .removed
      nrRemoved := s.nrRemoved + 1
      worker := Function.update s.worker w (.advanced (s.removeSeq + 1) (s.nrRemoved + 1))
      reached := fun f => s.reached f || (s.pc f != .idle && s.insSnap f == s.removeSeq + 1) } := by
  have hlt : k < s.nrInserted := by
    by_contra hge
    have habs := (h.absent k).mpr (Nat.le_of_not_lt hge)
    rw [hk] at habs
    exact WorkPhase.noConfusion habs
  have hremoved : ∀ i, Function.update s.work k .removed i = .removed ↔ i = k ∨ s.work i = .removed := by
    intro i
    by_cases he : i = k
    · simp [he]
    · simp [he]
  have hat : ∀ u v n,
      AtRemoval (Function.update s.worker w (.advanced (s.removeSeq + 1) (s.nrRemoved + 1))) u v n →
      (v = s.removeSeq + 1 ∧ n = s.nrRemoved + 1) ∨ AtRemoval s.worker u v n := by
    intro u v n hu
    by_cases he : u = w
    · left
      simp only [AtRemoval, he, Function.update_self, WkPc.advanced.injEq, reduceCtorEq, or_false] at hu
      exact ⟨hu.1.symm, hu.2.symm⟩
    · right
      simpa only [AtRemoval, Function.update_of_ne he] using hu
  refine ⟨h.insertSeq, ?_, ?_, ?_, ?_, h.called, h.snap, ?_, ?_⟩
  · rw [h.removeSeq, ofNat_add_one]
  · intro i
    by_cases he : i = k
    · simp only [he, Function.update_self]
      exact ⟨fun hf => WorkPhase.noConfusion hf, fun hge => absurd hlt (Nat.not_lt_of_le hge)⟩
    · simp only [Function.update_of_ne he]
      exact h.absent i
  · have hset : ((Finset.range s.nrInserted).filter fun i => Function.update s.work k .removed i = .removed) =
        Insert.insert k ((Finset.range s.nrInserted).filter fun i => s.work i = .removed) := by
      ext i
      simp only [hremoved, Finset.mem_filter, Finset.mem_insert, Finset.mem_range]
      constructor
      · rintro ⟨hi, rfl | hr⟩
        · exact Or.inl rfl
        · exact Or.inr ⟨hi, hr⟩
      · rintro (rfl | ⟨hi, hr⟩)
        · exact ⟨hlt, Or.inl rfl⟩
        · exact ⟨hi, Or.inr hr⟩
    rw [hset, Finset.card_insert_of_notMem, ← h.count]
    simp [hk]
  · intro u v n hu
    rcases hat u v n hu with ⟨rfl, rfl⟩ | hold
    · exact ⟨by rw [h.removeSeq, ofNat_add_one], Nat.le_refl _⟩
    · obtain ⟨hv, hn⟩ := h.removal u v n hold
      exact ⟨hv, Nat.le_succ_of_le hn⟩
  · intro f hf
    have hkeep : AllRemoved s f → AllRemoved { s with work := Function.update s.work k .removed } f :=
      fun hall i hi => (hremoved i).mpr (Or.inr (hall i hi))
    rcases h.waiting f hf with hall | hw
    · exact Or.inl (hkeep hall)
    · rcases hgood f hf hw.unsignalled with hki | hall
      · refine Or.inr ⟨hw.unsignalled, ?_, ?_, ?_⟩
        · intro i hi
          rcases (hremoved i).mp hi with rfl | hr
          · exact hki
          · exact hw.older i hr
        · have hturn := hw.turn
          simp only
          omega
        · intro u v n hu
          rcases hat u v n hu with ⟨-, rfl⟩ | hold
          · have hturn := hw.turn
            simp only
            omega
          · exact hw.turnAt u v n hold
      · exact Or.inl (hkeep hall)
  · intro f hf i hi
    by_cases he : i = k
    · exact Or.inr ((hremoved i).mpr (Or.inl he))
    · simp only [Function.update_of_ne he]
      exact h.flushed f hf i hi

omit [DecidableEq W] in
theorem returnInv_worker {s : FlushState F W} (h : ReturnInv s) {worker : W → WkPc}
    (hsub : ∀ w v n, AtRemoval worker w v n → AtRemoval s.worker w v n) :
    ReturnInv { s with worker := worker } := by
  refine ⟨h.insertSeq, h.removeSeq, h.absent, h.count,
    fun w v n hw => h.removal w v n (hsub w v n hw), h.called,
    h.snap, ?_, h.flushed⟩
  intro f hf
  refine (h.waiting f hf).imp_right fun hw => ?_
  exact ⟨hw.unsignalled, hw.older, hw.turn, fun w v n hat => hw.turnAt w v n (hsub w v n hat)⟩

theorem atRemoval_update_idle {worker : W → WkPc} {w u : W} {v : BitVec 16} {n : ℕ}
    (h : AtRemoval (Function.update worker w .idle) u v n) : AtRemoval worker u v n := by
  by_cases he : u = w
  · simp [AtRemoval, he] at h
  · simpa only [AtRemoval, Function.update_of_ne he] using h

omit [DecidableEq W] in
theorem StillWaits.all_removed {s : FlushState F W} (h : ReturnInv s) {f : F} (hw : StillWaits s f) {w : W}
    {v : BitVec 16} {n : ℕ} (hpc : s.pc f ≠ .idle) (hat : AtRemoval s.worker w v n) (hv : s.insSnap f = v) :
    AllRemoved s f := by
  obtain ⟨hvn, hn⟩ := h.removal w v n hat
  have hle := removed_count_le h hw.older
  have heq : BitVec.ofNat 16 n = BitVec.ofNat 16 (s.callIns f) := by
    rw [← hvn, ← hv, h.snap f hpc]
  have hnc : n = s.callIns f := ofNat_inj_of_window (Nat.le_trans hn hle) (hw.turnAt w v n hat) heq
  exact all_removed_of_count h hw.older (by omega)

variable [DecidableEq F]

theorem returnInv_wake {s : FlushState F W} (h : ReturnInv s) {w : W} {v : BitVec 16} {n : ℕ}
    (hw : s.worker w = .waking v n) (asleep : F → Bool) :
    ReturnInv { wakeFlushers s v asleep with worker := Function.update s.worker w .idle } := by
  have hbase : ReturnInv (wakeFlushers s v asleep) := by
    refine ⟨h.insertSeq, h.removeSeq, h.absent, h.count, h.removal, h.called, h.snap, ?_, h.flushed⟩
    intro f hf
    rcases h.waiting f hf with hall | hst
    · exact Or.inl hall
    · by_cases hmatch : f ∈ s.waiters ∧ s.insSnap f = v
      · exact Or.inl (hst.all_removed h hf (Or.inr hw) hmatch.2)
      · refine Or.inr ⟨?_, hst.older, hst.turn, hst.turnAt⟩
        simpa [wakeFlushers, Unsatisfied, hmatch] using hst.unsignalled
  exact returnInv_worker hbase fun u x m hat => atRemoval_update_idle hat

omit [DecidableEq W] in
theorem returnInv_copyInsert {s : FlushState F W} (h : ReturnInv s) {f : F}
    (hgood : OlderFirst s (.copyInsert f)) :
    ReturnInv { s with
      lock := some f
      pc := Function.update s.pc f .copied
      insSnap := Function.update s.insSnap f s.insertSeq
      callIns := Function.update s.callIns f s.nrInserted
      reached := Function.update s.reached f (s.removeSeq == s.insertSeq)
      returned := Function.update s.returned f false } := by
  refine ⟨h.insertSeq, h.removeSeq, h.absent, h.count, h.removal, ?_, ?_, ?_, ?_⟩
  · intro g
    by_cases he : g = f
    · simp [he]
    · simpa [he] using h.called g
  · intro g hg
    by_cases he : g = f
    · simpa [he] using h.insertSeq
    · simp only [Function.update_of_ne he] at hg ⊢
      exact h.snap g hg
  · intro g hg
    by_cases he : g = f
    · subst he
      refine .inr ⟨?_, ?_, ?_, ?_⟩
      · simp [Unsatisfied]
      · simpa using fun i hi => removed_lt h hi
      · simpa using hgood.1
      · simpa using hgood.2
    · simp only [Function.update_of_ne he] at hg
      rcases h.waiting g hg with hall | hst
      · left
        intro i hi
        simp only [Function.update_of_ne he] at hi
        exact hall i hi
      · right
        refine ⟨?_, ?_, ?_, ?_⟩
        · simpa [Unsatisfied, he] using hst.unsignalled
        · simpa [he] using hst.older
        · simpa [he] using hst.turn
        · simpa [he] using hst.turnAt
  · intro g hg i hi
    by_cases he : g = f
    · simp [he] at hg
    · simp only [Function.update_of_ne he] at hg hi
      exact h.flushed g hg i hi

omit [DecidableEq F] [DecidableEq W] in
/-- A copy of `remove_seq` that is equal to the one of `insert_seq` counts the older works, and all
of them. -/
theorem StillWaits.all_removed_of_copy {s : FlushState F W} (h : ReturnInv s) {f : F} (hw : StillWaits s f)
    (hpc : s.pc f ≠ .idle) (heq : s.removeSeq = s.insSnap f) : AllRemoved s f := by
  have hle := removed_count_le h hw.older
  rw [h.removeSeq, h.snap f hpc] at heq
  have hnc : s.nrRemoved = s.callIns f := ofNat_inj_of_window hle hw.turn heq
  exact all_removed_of_count h hw.older hnc.ge

omit [DecidableEq W] in
theorem returnInv_copyRemove {s : FlushState F W} (h : ReturnInv s) {f : F} (hf : s.pc f = .copied) :
    ReturnInv { s with
      remSnap := Function.update s.remSnap f s.removeSeq
      pc := Function.update s.pc f .snapped } := by
  have hne : s.pc f ≠ .idle := by
    rw [hf]
    exact FlPc.noConfusion
  have hpc : ∀ g, Function.update s.pc f .snapped g ≠ .idle → s.pc g ≠ .idle := by
    intro g hg
    by_cases he : g = f
    · rwa [he]
    · simpa [he] using hg
  refine ⟨h.insertSeq, h.removeSeq, h.absent, h.count, h.removal, h.called,
    fun g hg => h.snap g (hpc g hg), ?_, h.flushed⟩
  intro g hg
  rcases h.waiting g (hpc g hg) with hall | hst
  · exact .inl hall
  · by_cases he : g = f
    · subst he
      by_cases heq : s.removeSeq = s.insSnap g
      · exact .inl (hst.all_removed_of_copy h hne heq)
      · refine .inr ⟨fun _ => ?_, hst.older, hst.turn, hst.turnAt⟩
        simpa using heq
    · refine .inr ⟨?_, hst.older, hst.turn, hst.turnAt⟩
      simpa [Unsatisfied, he] using hst.unsignalled

omit [DecidableEq W] in
theorem returnInv_pc {s : FlushState F W} (h : ReturnInv s) {f : F} (hf : s.pc f ≠ .idle)
    (hc : s.pc f ≠ .copied) (pc : FlPc)
    (lock : Option F) (waiters : List F) :
    ReturnInv { s with lock := lock, waiters := waiters, pc := Function.update s.pc f pc } := by
  have hpc : ∀ g, Function.update s.pc f pc g ≠ .idle → s.pc g ≠ .idle := by
    intro g hg
    by_cases he : g = f
    · rw [he]
      exact hf
    · simpa [he] using hg
  refine ⟨h.insertSeq, h.removeSeq, h.absent, h.count, h.removal, h.called,
    fun g hg => h.snap g (hpc g hg), ?_,
    h.flushed⟩
  intro g hg
  refine (h.waiting g (hpc g hg)).imp_right fun hst => ⟨fun hg' => ?_, hst.older, hst.turn, hst.turnAt⟩
  by_cases he : g = f
  · exact hst.unsignalled (he ▸ hc)
  · exact hst.unsignalled (by simpa [he] using hg')

omit [DecidableEq W] in
theorem returnInv_return {s : FlushState F W} (h : ReturnInv s) {f : F} (hf : s.pc f ≠ .idle)
    (hc : s.pc f ≠ .copied)
    (hsig : s.insSnap f = s.remSnap f) : ReturnInv (flushReturn s f) := by
  have hall : AllRemoved s f := (h.waiting f hf).resolve_right fun hst => hst.unsignalled hc hsig.symm
  have hbase := returnInv_pc h hf hc .idle none (s.waiters.erase f)
  refine ⟨hbase.insertSeq, hbase.removeSeq, hbase.absent, hbase.count, hbase.removal, hbase.called,
    hbase.snap, ?_, ?_⟩
  · intro g hg
    refine (hbase.waiting g hg).imp_right fun hst => ?_
    exact ⟨hst.unsignalled, hst.older, hst.turn, hst.turnAt⟩
  · intro g hg i hi
    by_cases he : g = f
    · rw [he] at hi
      exact Or.inr (hall i hi)
    · exact h.flushed g (by simpa [flushReturn, he] using hg) i hi

theorem flushStep_returnInv (s : FlushState F W) (a : FlushAct F W) (s' : FlushState F W) (h : ReturnInv s)
    (hgood : OlderFirst s a) (hs : flushStep s a = some s') : ReturnInv s' := by
  cases a with
  | queueWork =>
    simp only [flushStep, Option.some.injEq] at hs
    subst hs
    exact returnInv_queueWork h
  | finish i =>
    by_cases hi : s.work i = .queued
    · simp only [flushStep, if_pos hi, Option.some.injEq] at hs
      subst hs
      exact returnInv_finish h hi
    · simp [flushStep, hi] at hs
  | advance w i =>
    by_cases hi : s.worker w = .idle ∧ s.work i = .finished
    · simp only [flushStep, if_pos hi, Option.some.injEq] at hs
      subst hs
      exact returnInv_advance h hi.2 hgood
    · simp [flushStep, hi] at hs
  | testList w =>
    cases hw : s.worker w with
    | idle => simp [flushStep, hw] at hs
    | waking v n => simp [flushStep, hw] at hs
    | advanced v n =>
      simp only [flushStep, hw, Option.some.injEq] at hs
      subst hs
      refine returnInv_worker h fun u x m hat => ?_
      by_cases he : u = w
      · subst he
        cases hl : s.waiters.isEmpty with
        | true => simp [AtRemoval, hl] at hat
        | false =>
          simp only [AtRemoval, hl, Function.update_self, Bool.false_eq_true, if_false,
            reduceCtorEq, false_or,
            WkPc.waking.injEq] at hat
          exact Or.inl (by rw [hw, hat.1, hat.2])
      · simpa only [AtRemoval, Function.update_of_ne he] using hat
  | wake w asleep =>
    cases hw : s.worker w with
    | idle => simp [flushStep, hw] at hs
    | advanced v n => simp [flushStep, hw] at hs
    | waking v n =>
      cases hl : s.lock with
      | some g => simp [flushStep, hw, hl] at hs
      | none =>
        simp only [flushStep, hw, hl, Option.some.injEq] at hs
        subst hs
        exact returnInv_wake h hw asleep
  | copyInsert f =>
    by_cases hf : s.pc f = .idle ∧ s.lock = none
    · simp only [flushStep, if_pos hf, Option.some.injEq] at hs
      subst hs
      exact returnInv_copyInsert h hgood
    · simp [flushStep, hf] at hs
  | copyRemove f =>
    by_cases hf : s.pc f = .copied
    · simp only [flushStep, if_pos hf, Option.some.injEq] at hs
      subst hs
      exact returnInv_copyRemove h hf
    · simp [flushStep, hf] at hs
  | join f =>
    by_cases hf : s.pc f = .snapped
    · simp only [flushStep, if_pos hf, Option.some.injEq] at hs
      subst hs
      exact returnInv_pc h (by simp [hf]) (by simp [hf]) .joined s.lock (f :: s.waiters)
    · simp [flushStep, hf] at hs
  | wait f =>
    by_cases hf : s.pc f = .joined
    · have hne : s.pc f ≠ .idle := by simp [hf]
      have hnc : s.pc f ≠ .copied := by simp [hf]
      by_cases hq : s.insSnap f = s.remSnap f
      · simp only [flushStep, if_pos hf, if_pos hq, Option.some.injEq] at hs
        subst hs
        exact returnInv_return h hne hnc hq
      · simp only [flushStep, if_pos hf, if_neg hq, Option.some.injEq] at hs
        subst hs
        exact returnInv_pc h hne hnc .blocked none s.waiters
    · simp [flushStep, hf] at hs
  | leave f =>
    by_cases hf : s.pc f = .blocked ∧ s.lock = none ∧ s.insSnap f = s.remSnap f
    · simp only [flushStep, if_pos hf, Option.some.injEq] at hs
      subst hs
      exact returnInv_return h (by simp [hf]) (by simp [hf]) hf.2.2
    · simp [flushStep, hf] at hs

/-- In every run that removes the older works first, a flush returns only after every work queued before
it has finished or been cancelled. -/
theorem flush_returns_after_older (as : List (FlushAct F W)) (s : FlushState F W)
    (hgood : RunMeets flushStep OlderFirst flushInit as) (hrun : runActs flushStep flushInit as = some s) :
    FlushedAll s :=
  (run_invariant flushStep_returnInv as flushInit s returnInv_init hgood hrun).flushed

/-- Work 0 is flushed for; work 1, queued during the wait, is removed after it. -/
def olderRemovedFirst : List (FlushAct Unit Unit) :=
  [.queueWork, .copyInsert (), .copyRemove (), .join (), .wait (), .queueWork, .finish 0,
    .advance () 0, .testList (),
    .wake () fun _ => true, .leave ()]

theorem flush_returns_after_older_example :
    ∃ s, runActs flushStep flushInit olderRemovedFirst = some s ∧ s.returned () = true ∧ FlushedAll s := by
  have hmeets : RunMeets flushStep OlderFirst flushInit olderRemovedFirst := by
    refine .cons rfl trivial
      (.cons rfl ⟨by decide, ?_⟩ (.cons rfl trivial (.cons rfl trivial (.cons rfl trivial
      (.cons rfl trivial
        (.cons rfl trivial
        (.cons rfl ?_ (.cons rfl trivial (.cons rfl trivial (.cons rfl trivial trivial))))))))))
    · intro w v n hat
      simp [AtRemoval, flushInit] at hat
    · intro f _ _
      cases f
      exact Or.inl (by decide)
  exact ⟨_, rfl, by decide, flush_returns_after_older olderRemovedFirst _ hmeets rfl⟩

/-- Work 1, queued on another pool during the wait, finishes first. -/
def newerRemovedFirst : List (FlushAct Unit Unit) :=
  [.queueWork, .copyInsert (), .copyRemove (), .join (), .wait (), .queueWork, .finish 1,
    .advance () 1, .testList (),
    .wake () fun _ => true, .leave ()]

/-- It is queued and finishes between the two copies already. -/
def newerBetweenCopies : List (FlushAct Unit Unit) :=
  [.queueWork, .copyInsert (), .queueWork, .finish 1, .advance () 1, .copyRemove (), .join (), .wait ()]

/-- The flush has returned and work 0, queued before the call, has not finished. -/
def ReturnsEarly (as : List (FlushAct Unit Unit)) : Prop :=
  ∃ s, runActs flushStep flushInit as = some s ∧ s.returned () = true ∧ 0 < s.callIns () ∧
    s.work 0 = .queued ∧ ¬ FlushedAll s

theorem flush_returns_early : ReturnsEarly newerRemovedFirst ∧ ReturnsEarly newerBetweenCopies := by
  constructor
  · refine ⟨_, rfl, by decide, by decide, by decide, fun h => ?_⟩
    exact absurd (h () (by decide) 0 (by decide)) (by decide)
  · refine ⟨_, rfl, by decide, by decide, by decide, fun h => ?_⟩
    exact absurd (h () (by decide) 0 (by decide)) (by decide)

end Skp.Process
