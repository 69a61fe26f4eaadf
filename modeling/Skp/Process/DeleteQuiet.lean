import Skp.Process.DeleteModel

/-! # Is the event quiet when a synchronous deletion leaves?

An event's callback only runs on the slot its index names, and its index only changes under that slot's
lock while nothing of it runs there, so a deletion that finds the slot at another event leaves the event
quiet everywhere. It changes the index before it releases the lock, and from then on the lock of another
slot is enough to arm the event again. -/
namespace Skp.Process
set_option autoImplicit false
open Skp.Foundations

variable {S E T : Type}

def Quiet (s : DelState S E T) (e : E) : Prop :=
  s.pending e = false ∧ ∀ x, s.current x ≠ some e

/-- Whatever is released under the lock is quiet, unless it has been armed since the index was changed. -/
structure DelInv (s : DelState S E T) : Prop where
  current_index : ∀ x e, s.current x = some e → s.index e = some x
  members_iff : ∀ x e, s.members x e = true ↔ s.pending e = true ∧ s.index e = some x
  pending_index : ∀ e, s.pending e = true → s.index e ≠ none
  stopped : ∀ x, s.running x = false → s.current x = none ∧ s.lock x ≠ some .worker
  quiet : ∀ t x e, s.pc t = .release x e → s.rearmed t = false → Quiet s e

theorem delInv_init : DelInv (delInit : DelState S E T) where
  current_index := fun _ _ h => by simp [delInit] at h
  members_iff := fun _ _ => by simp [delInit]
  pending_index := fun _ h => by simp [delInit] at h
  stopped := fun _ h => by simp [delInit] at h
  quiet := fun _ _ _ h => by simp [delInit] at h

variable [DecidableEq T]

theorem DelInv.setPc {s : DelState S E T} (h : DelInv s) {t : T} {p : DelPc S E}
    (hp : ∀ x e, p ≠ .release x e) : DelInv { s with pc := Function.update s.pc t p } where
  current_index := h.current_index
  members_iff := h.members_iff
  pending_index := h.pending_index
  stopped := h.stopped
  quiet := by
    intro u x e hu hr
    by_cases hut : u = t
    · subst hut
      exact absurd (by simpa using hu) (hp x e)
    · exact h.quiet u x e (by simpa [hut] using hu) hr

variable [DecidableEq S]

omit [DecidableEq T] in
theorem DelInv.setLock {s : DelState S E T} (h : DelInv s) {x : S} {l : Option (SlotHolder T)}
    (hl : s.running x = false → l ≠ some .worker) : DelInv { s with lock := Function.update s.lock x l } where
  current_index := h.current_index
  members_iff := h.members_iff
  pending_index := h.pending_index
  stopped := by
    intro y hy
    refine ⟨(h.stopped y hy).1, ?_⟩
    by_cases hyx : y = x
    · subst hyx
      simpa using hl hy
    · simpa [hyx] using (h.stopped y hy).2
  quiet := h.quiet

variable [DecidableEq E]

section Remove
variable {s : DelState S E T} {x : S} {e : E}

section
omit [DecidableEq T]

@[simp] theorem uevRemove_index : (uevRemove s x e).index = s.index := by
  unfold uevRemove
  split <;> rfl

@[simp] theorem uevRemove_current : (uevRemove s x e).current = s.current := by
  unfold uevRemove
  split <;> rfl

@[simp] theorem uevRemove_pc : (uevRemove s x e).pc = s.pc := by
  unfold uevRemove
  split <;> rfl

@[simp] theorem uevRemove_rearmed : (uevRemove s x e).rearmed = s.rearmed := by
  unfold uevRemove
  split <;> rfl

@[simp] theorem uevRemove_lock : (uevRemove s x e).lock = s.lock := by
  unfold uevRemove
  split <;> rfl

@[simp] theorem uevRemove_running : (uevRemove s x e).running = s.running := by
  unfold uevRemove
  split <;> rfl

theorem uevRemove_pending (f : E) :
    (uevRemove s x e).pending f = (decide (f ≠ e) && s.pending f) := by
  unfold uevRemove
  by_cases hp : s.pending e = true
  · by_cases hf : f = e
    · simp [hp, hf]
    · simp [hp, hf]
  · by_cases hf : f = e
    · simp [hp, hf]
    · simp [hp, hf]

theorem DelInv.remove (h : DelInv s) (hx : s.index e = some x) : DelInv (uevRemove s x e) where
  current_index := by simpa using h.current_index
  members_iff := by
    intro y f
    by_cases hp : s.pending e = true
    · have hm : (uevRemove s x e).members y f = (decide (¬(y = x ∧ f = e)) && s.members y f) := by
        by_cases hy : y = x
        · by_cases hf : f = e
          · simp [uevRemove, hp, hy, hf]
          · simp [uevRemove, hp, hy, hf]
        · simp [uevRemove, hp, hy]
      rw [hm, uevRemove_pending, uevRemove_index]
      by_cases hf : f = e
      · subst hf
        by_cases hy : y = x
        · simp [hy]
        · have hne : s.index f ≠ some y := by
            rw [hx]
            exact fun hc => hy (Option.some.inj hc).symm
          simpa [hy] using fun hc => hne ((h.members_iff y f).mp hc).2
      · simpa [hf] using h.members_iff y f
    · have hs : uevRemove s x e = s := by simp [uevRemove, hp]
      rw [hs]
      exact h.members_iff y f
  pending_index := by
    intro f hf
    rw [uevRemove_pending] at hf
    rw [uevRemove_index]
    exact h.pending_index f (Bool.and_eq_true_iff.mp hf).2
  stopped := by simpa using h.stopped
  quiet := by
    intro t y f ht hr
    have hq := h.quiet t y f (by simpa using ht) (by simpa using hr)
    refine ⟨?_, by simpa using hq.2⟩
    rw [uevRemove_pending, hq.1, Bool.and_false]

end

end Remove

omit [DecidableEq T] in
theorem DelInv.insert {s : DelState S E T} (h : DelInv s) {x : S} {e : E} (hx : s.index e = some x) :
    DelInv (uevInsert s x e) where
  current_index := h.current_index
  members_iff := by
    intro y f
    by_cases hf : f = e
    · subst hf
      by_cases hy : y = x
      · simp [uevInsert, hy, hx]
      · have hne : s.index f ≠ some y := by
          rw [hx]
          exact fun hc => hy (Option.some.inj hc).symm
        simpa [uevInsert, hy, hne] using fun hc => hne ((h.members_iff y f).mp hc).2
    · by_cases hy : y = x
      · simpa [uevInsert, hf, hy] using h.members_iff x f
      · simpa [uevInsert, hf, hy] using h.members_iff y f
  pending_index := by
    intro f hf
    by_cases hfe : f = e
    · subst hfe
      simp [uevInsert, hx]
    · exact h.pending_index f (by simpa [uevInsert, hfe] using hf)
  stopped := h.stopped
  quiet := by
    intro t y f ht hr
    have hpc : s.pc t = .release y f := ht
    have hr' : s.rearmed t = false ∧ releases e (s.pc t) = false := Bool.or_eq_false_iff.mp hr
    have hfe : f ≠ e := by simpa [hpc, releases] using hr'.2
    have hq := h.quiet t y f hpc hr'.1
    refine ⟨?_, hq.2⟩
    simpa [uevInsert, hfe] using hq.1

theorem DelInv.finish {s : DelState S E T} (h : DelInv s) {t : T} {x : S} {e : E} (dest : Option S)
    (hx : s.index e = some x) (hp : s.pending e = false) (hc : s.current x ≠ some e) :
    DelInv (deleteFinish s t x e dest) := by
  have hnone : ∀ y, s.current y ≠ some e := by
    intro y hy
    have hxy : some x = some y := hx.symm.trans (h.current_index y e hy)
    exact hc (Option.some.inj hxy ▸ hy)
  refine ⟨?_, ?_, ?_, ?_, ?_⟩
  · intro y f hf
    have hf' : s.current y = some f := by simpa [deleteFinish, uevCoreChgidx, hp] using hf
    have hfe : f ≠ e := fun he => hnone y (he ▸ hf')
    simpa [deleteFinish, uevCoreChgidx, hp, hfe] using h.current_index y f hf'
  · intro y f
    by_cases hfe : f = e
    · subst hfe
      have hm : s.members y f = false := by
        have := (h.members_iff y f).not
        simpa [hp] using this
      simp [deleteFinish, uevCoreChgidx, hp, hm]
    · simpa [deleteFinish, uevCoreChgidx, hp, hfe] using h.members_iff y f
  · intro f hf
    have hf' : s.pending f = true := by simpa [deleteFinish, uevCoreChgidx, hp] using hf
    have hfe : f ≠ e := by
      rintro rfl
      simp [hp] at hf'
    simpa [deleteFinish, uevCoreChgidx, hp, hfe] using h.pending_index f hf'
  · intro y hy
    have hy' := h.stopped y (by simpa [deleteFinish, uevCoreChgidx, hp] using hy)
    refine ⟨by simpa [deleteFinish, uevCoreChgidx, hp] using hy'.1, ?_⟩
    by_cases hyx : y = x
    · simp [deleteFinish, hyx]
    · simpa [deleteFinish, hyx] using hy'.2
  · intro u y f hu hr
    have hq : Quiet s f := by
      by_cases hut : u = t
      · subst hut
        have hfe : f = e := by
          have : x = y ∧ e = f := by simpa [deleteFinish] using hu
          exact this.2.symm
        rw [hfe]
        exact ⟨hp, hnone⟩
      · exact h.quiet u y f (by simpa [deleteFinish, hut, uevCoreChgidx, hp] using hu)
          (by simpa [deleteFinish, hut] using hr)
    refine ⟨?_, ?_⟩
    · simpa [deleteFinish, uevCoreChgidx, hp] using hq.1
    · intro z
      simpa [deleteFinish, uevCoreChgidx, hp] using hq.2 z

theorem DelInv.deletePending {s : DelState S E T} (h : DelInv s) {t : T} {x : S} {e : E} (dest : Option S)
    (hx : s.index e = some x) : DelInv (deletePending s t x e dest) := by
  have hr := h.remove hx
  unfold Skp.Process.deletePending
  by_cases hc : s.current x = some e
  · rw [if_pos hc]
    have := hr.setPc (t := t) (p := .waiting x e dest) (by simp)
    rwa [uevRemove_pc] at this
  · rw [if_neg hc]
    refine hr.finish dest (by simpa using hx) ?_ (by simpa using hc)
    simp [uevRemove_pending]

theorem DelInv.modifyLocked {s : DelState S E T} (h : DelInv s) {t : T} {x : S} {e : E} (accepted : Bool)
    (hx : s.index e = some x) : DelInv (modifyLocked s t x e accepted) := by
  have hidle := h.setPc (t := t) (p := .idle) (by simp)
  cases accepted with
  | true => exact hidle.insert hx
  | false => exact hidle.remove hx

omit [DecidableEq S] [DecidableEq E] in
theorem DelInv.locSlot {s : DelState S E T} (h : DelInv s) (t : T) (x : S) (e : E) (c : EventCall S) :
    DelInv (locSlot s t x e c) := by
  refine h.setPc fun y f => ?_
  split
  · simp
  · simp

omit [DecidableEq S] [DecidableEq T] in
theorem DelInv.setIndex {s : DelState S E T} (h : DelInv s) {e : E} (x : S) (hn : s.index e = none) :
    DelInv { s with index := Function.update s.index e (some x) } := by
  have hp : s.pending e = false := by
    simpa [hn] using (h.pending_index e).mt
  refine ⟨?_, ?_, ?_, h.stopped, h.quiet⟩
  · intro y f hf
    have hi := h.current_index y f hf
    have hfe : f ≠ e := by
      rintro rfl
      exact Option.some_ne_none y (hi.symm.trans hn)
    simpa [hfe] using hi
  · intro y f
    by_cases hfe : f = e
    · subst hfe
      simpa [hp, hn] using h.members_iff y f
    · simpa [hfe] using h.members_iff y f
  · intro f hf
    have hfe : f ≠ e := by
      rintro rfl
      have hf' : s.pending f = true := hf
      rw [hp] at hf'
      exact Bool.noConfusion hf'
    simpa [hfe] using h.pending_index f hf

theorem DelInv.waitRound {s : DelState S E T} (h : DelInv s) (t : T) (x : S) (e : E) (dest : Option S) :
    DelInv (waitRound s t x e dest) := by
  unfold Skp.Process.waitRound
  by_cases hrun : s.running x = true ∧ s.current x = some e
  · rwa [if_pos hrun]
  · rw [if_neg hrun]
    have hc : s.current x ≠ some e := by
      intro hc
      cases hr : s.running x with
      | true => exact hrun ⟨hr, hc⟩
      | false => exact Option.some_ne_none e (hc.symm.trans (h.stopped x hr).1)
    by_cases hx : s.index e = some x
    · rw [if_neg (not_not_intro hx)]
      by_cases hp : s.pending e = true
      · rw [if_pos hp]
        split
        · exact h.deletePending dest hx
        · exact h.setPc (by simp)
      · rw [if_neg hp]
        exact h.finish dest hx (Bool.eq_false_iff.mpr hp) hc
    · rw [if_pos hx]
      exact h.setPc (by simp)

omit [DecidableEq T] in
theorem DelInv.invoke {s : DelState S E T} (h : DelInv s) (isTimer : E → Bool) {x : S} {e : E}
    (hl : s.lock x = some .worker) (hm : s.members x e = true) :
    DelInv { (if isTimer e then uevRemove s x e else s) with
      current := Function.update s.current x (some e), lock := Function.update s.lock x none } := by
  obtain ⟨hp, hx⟩ := (h.members_iff x e).mp hm
  have hrun : s.running x = true := by
    by_contra hr
    exact (h.stopped x (Bool.eq_false_iff.mpr hr)).2 hl
  -- an event that is about to be released is not pending, so it is another one
  have hother : ∀ t y f, s.pc t = .release y f → s.rearmed t = false → f ≠ e := by
    rintro t y f ht hr rfl
    have hq := (h.quiet t y f ht hr).1
    rw [hp] at hq
    exact Bool.noConfusion hq
  have key : ∀ s' : DelState S E T, DelInv s' → s'.index = s.index → s'.pc = s.pc → s'.rearmed = s.rearmed →
      s'.running = s.running → s'.lock = s.lock → s'.current = s.current →
      DelInv { s' with
        current := Function.update s.current x (some e)
        lock := Function.update s.lock x none } := by
    intro s' h' hi hpc hre hru hlo hcu
    refine ⟨?_, h'.members_iff, h'.pending_index, ?_, ?_⟩
    · intro y f hf
      rw [hi]
      by_cases hy : y = x
      · subst hy
        have hfe : e = f := by simpa using hf
        rw [← hfe]
        exact hx
      · exact h.current_index y f (by simpa [hy] using hf)
    · intro y hy
      have hyx : y ≠ x := by
        rintro rfl
        have hy' : s'.running y = false := hy
        rw [hru, hrun] at hy'
        exact Bool.noConfusion hy'
      simpa [hyx] using h.stopped y (hru ▸ hy)
    · intro t y f ht hr
      have ht' : s.pc t = .release y f := hpc ▸ ht
      have hr' : s.rearmed t = false := hre ▸ hr
      have hq := h'.quiet t y f ht hr
      have hfe := hother t y f ht' hr'
      refine ⟨hq.1, ?_⟩
      intro z
      by_cases hz : z = x
      · simpa [hz] using Ne.symm hfe
      · simpa [hz, hcu] using hq.2 z
  cases isTimer e with
  | true =>
    simpa using key (uevRemove s x e) (h.remove hx) (by simp) (by simp) (by simp) (by simp)
      (by simp) (by simp)
  | false => simpa using key s h rfl rfl rfl rfl rfl rfl

omit [DecidableEq E] [DecidableEq T] in
theorem DelInv.invokeFinish {s : DelState S E T} (h : DelInv s) {x : S} (hc : s.current x ≠ none) :
    DelInv { s with
      current := Function.update s.current x none
      lock := Function.update s.lock x (some .worker) } := by
  have hrun : s.running x = true := by
    by_contra hr
    exact hc (h.stopped x (Bool.eq_false_iff.mpr hr)).1
  have hother : ∀ y, s.running y = false → y ≠ x := by
    rintro y hy rfl
    exact Bool.noConfusion (hrun.symm.trans hy)
  refine ⟨?_, h.members_iff, h.pending_index, ?_, ?_⟩
  · intro y f hf
    by_cases hy : y = x
    · simp [hy] at hf
    · exact h.current_index y f (by simpa [hy] using hf)
  · intro y hy
    simpa [hother y hy] using h.stopped y hy
  · intro t y f ht hr
    have hq := h.quiet t y f ht hr
    refine ⟨hq.1, ?_⟩
    intro z
    by_cases hz : z = x
    · simp [hz]
    · simpa [hz] using hq.2 z

omit [DecidableEq E] [DecidableEq T] in
theorem DelInv.stop {s : DelState S E T} (h : DelInv s) {x : S} (hl : s.lock x = none)
    (hc : s.current x = none) :
    DelInv { s with running := Function.update s.running x false } where
  current_index := h.current_index
  members_iff := h.members_iff
  pending_index := h.pending_index
  stopped := by
    intro y hy
    by_cases hyx : y = x
    · rw [hyx, hl]
      exact ⟨hc, nofun⟩
    · exact h.stopped y (by simpa [hyx] using hy)
  quiet := h.quiet

theorem delStep_inv (isTimer : E → Bool) (s : DelState S E T) (a : DelAct S E T) (s' : DelState S E T)
    (h : DelInv s) (hs : delStep isTimer s a = some s') : DelInv s' := by
  cases a with
  | call t e c =>
    by_cases hi : s.pc t = .idle
    · cases c with
      | delete dest =>
        simp only [delStep, if_pos hi, Option.some.injEq] at hs
        exact hs ▸ h.setPc (by simp)
      | modify accepted =>
        simp only [delStep, if_pos hi, Option.some.injEq] at hs
        exact hs ▸ h.setPc (by simp)
    · simp [delStep, hi] at hs
  | enter t =>
    simp only [delStep] at hs
    split at hs
    · split at hs
      · cases hs
        exact h.setPc (by simp)
      · cases hs
        exact h.setPc (by simp)
    · cases hs
  | choose t hint =>
    simp only [delStep] at hs
    split at hs
    · split at hs
      · cases hs
        exact h.locSlot ..
      · cases hs
        exact h.setPc (by simp)
    · cases hs
  | setIdx t =>
    simp only [delStep] at hs
    split at hs
    · rename_i x e c hpc
      cases hs
      by_cases hn : s.index e = none
      · rw [if_pos hn]
        exact (h.setIndex x hn).locSlot ..
      · rw [if_neg hn]
        exact h.locSlot ..
    · cases hs
  | lockSlot t =>
    simp only [delStep] at hs
    split at hs
    · rename_i x e c hpc
      split at hs
      · by_cases hx : s.index e = some x
        · rw [if_pos hx] at hs
          cases c with
          | delete dest =>
            cases hs
            exact h.deletePending dest hx
          | modify accepted =>
            cases hs
            exact h.modifyLocked _ hx
        · rw [if_neg hx] at hs
          cases hs
          exact h.setPc (by simp)
      · cases hs
    · cases hs
  | wake t =>
    simp only [delStep] at hs
    split at hs
    · split at hs
      · cases hs
        exact h.waitRound ..
      · cases hs
    · cases hs
  | release t =>
    simp only [delStep] at hs
    split at hs
    · cases hs
      exact (h.setLock (by simp)).setPc (by simp)
    · cases hs
  | deleteAsync e x =>
    by_cases hc : s.lock x = none ∧ s.index e = some x
    · simp only [delStep, if_pos hc, Option.some.injEq] at hs
      exact hs ▸ h.remove hc.2
    · simp [delStep, hc] at hs
  | workerLock x =>
    by_cases hc : s.lock x = none ∧ s.running x = true ∧ s.current x = none
    · simp only [delStep, if_pos hc, Option.some.injEq] at hs
      exact hs ▸ h.setLock (by simp [hc.2.1])
    · simp [delStep, hc] at hs
  | invoke x e =>
    by_cases hc : s.lock x = some .worker ∧ s.members x e = true
    · simp only [delStep, if_pos hc, Option.some.injEq] at hs
      subst hs
      have := h.invoke isTimer hc.1 hc.2
      cases hk : isTimer e with
      | true => simpa [hk] using this
      | false => simpa [hk] using this
    · simp [delStep, hc] at hs
  | invokeFinish x =>
    by_cases hc : s.lock x = none ∧ s.current x ≠ none
    · simp only [delStep, if_pos hc, Option.some.injEq] at hs
      exact hs ▸ h.invokeFinish hc.2
    · simp [delStep, hc] at hs
  | workerUnlock x =>
    by_cases hc : s.lock x = some .worker
    · simp only [delStep, if_pos hc, Option.some.injEq] at hs
      exact hs ▸ h.setLock (by simp)
    · simp [delStep, hc] at hs
  | stop x =>
    by_cases hc : s.lock x = none ∧ s.current x = none
    · simp only [delStep, if_pos hc, Option.some.injEq] at hs
      exact hs ▸ h.stop hc.1 hc.2
    · simp [delStep, hc] at hs

/-- In every run, an event whose deletion is about to release the slot lock is quiet, unless a modify call
has armed it since the deletion changed its index. -/
theorem delete_quiet (isTimer : E → Bool) (as : List (DelAct S E T)) (s : DelState S E T)
    (hrun : runActs (delStep isTimer) delInit as = some s) :
    ∀ t x e, s.pc t = .release x e → s.rearmed t = false → Quiet s e :=
  (run_invariant (fun s a s' h _ hs => delStep_inv isTimer s a s' h hs) as delInit s delInv_init
    (runMeets_trivial as delInit) hrun).quiet

/-- One timer, two slots, two threads: `true` arms the timer on slot `false` and arms it again while its
callback runs, and `false` waits for that callback and deletes the timer. -/
def deleteWaits : List (DelAct Bool Unit Bool) :=
  [.call true () (.modify true), .choose true false, .setIdx true, .lockSlot true,
   .workerLock false, .invoke false (),
   .call false () (.delete none), .enter false, .choose false false, .lockSlot false,
   .call true () (.modify true), .choose true false, .lockSlot true,
   .invokeFinish false, .workerUnlock false, .wake false]

theorem delete_quiet_deleteWaits :
    ∃ s, runActs (delStep fun _ => true) delInit deleteWaits = some s ∧ s.pc false = .release false () ∧
      s.lock false = some (.thread false) ∧ s.running false = true ∧ Quiet s () :=
  ⟨_, rfl, rfl, rfl, rfl, delete_quiet (fun _ => true) deleteWaits _ rfl false false () rfl rfl⟩

/-- The same deletion, and between its change of the index and its release the other thread arms the timer
on slot `true`, whose worker starts the callback. -/
def armedBeforeRelease : List (DelAct Bool Unit Bool) :=
  deleteWaits ++ [.call true () (.modify true), .choose true true, .setIdx true, .lockSlot true]

/-- At the release the event is pending, and a few steps later its callback runs. -/
theorem delete_releases_armed :
    (∃ s, runActs (delStep fun _ => true) delInit armedBeforeRelease = some s ∧
      s.pc false = .release false () ∧
      s.lock false = some (.thread false) ∧ s.running false = true ∧ s.pending () = true) ∧
    (∃ s,
      runActs (delStep fun _ => true) delInit (armedBeforeRelease ++
      [.workerLock true, .invoke true ()]) =
        some s ∧ s.pc false = .release false () ∧ s.lock false = some (.thread false) ∧
          s.running false = true ∧
      s.current true = some () ∧ ¬ Quiet s ()) :=
  ⟨⟨_, rfl, rfl, rfl, rfl, rfl⟩, _, rfl, rfl, rfl, rfl, rfl, fun h => h.2 true rfl⟩

end Skp.Process
