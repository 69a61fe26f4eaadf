import Skp.Workqueue.Cancel

/-! # Cancellers on `cancel_waitq`

A canceller that finds CANCELING sleeps until the thread that has set the bit wakes it. Wake-ups reach one
sleeping canceller at a time, so a sleeper relies on the thread that holds CANCELING, on its wake-up that is
still to come, or on another canceller that was woken and is about to take PENDING itself. -/
namespace Skp.Workqueue
set_option autoImplicit false
open Skp.Foundations

variable {P Q G W K T : Type}

/-- The work a thread has marked as CANCELING. -/
def Pc.marked : Pc P Q G W → Option W
  | .foreign _ _ back => back.owns
  | .flushRead w cancel => if cancel then some w else none
  | .flushLock w cancel _ => if cancel then some w else none
  | .flushWait w cancel => if cancel then some w else none
  | .flushed w => some w
  | _ => none

/-- The work that a caller of `__cancel_work_sync` is trying to get PENDING of, outside of its sleep. -/
def Pc.tries : Pc P Q G W → Option W
  | .grab w m => if m.sync then some w else none
  | .grabBit w m => if m.sync then some w else none
  | .grabRead w m => if m.sync then some w else none
  | .grabLock w m _ => if m.sync then some w else none
  | .grabFail w m => if m.sync then some w else none
  | .grabbed w m => if m.sync then some w else none
  | .foreign _ _ (.grab w m) => if m.sync then some w else none
  | .waitPrep w m => if m.sync then some w else none
  | .waitCheck w m => if m.sync then some w else none
  | .waitDone w m => if m.sync then some w else none
  | _ => none

/-- The work of a canceller that has found CANCELING and sleeps or is about to. -/
def Pc.sleeps : Pc P Q G W → Option W
  | .waitSleep w _ => some w
  | .asleep w _ => some w
  | _ => none

/-- A thread's mode while its entry may be on `cancel_waitq`. -/
def Pc.waitMode : Pc P Q G W → Option CancelMode
  | .waitPrep _ m => some m
  | .waitCheck _ m => some m
  | .waitSleep _ m => some m
  | .asleep _ m => some m
  | .waitDone _ m => some m
  | _ => none

/-- The entry is on `cancel_waitq` until the canceller sleeps no more. -/
def Pc.queues : Pc P Q G W → Bool
  | .waitCheck _ _ => true
  | .waitSleep _ _ => true
  | .asleep _ _ => true
  | _ => false

/-- CANCELING is set exactly while a thread has marked the work. -/
def Marks (s : WqState P Q G W K T) : Prop :=
  ∀ w, (s.core.flags (.work w)).canceling = true ↔ ∃ u, (s.pc u).marked = some w

/-- A sleeping canceller of `w` relies on the thread `u`. -/
def Supports (s : WqState P Q G W K T) (u : T) (w : W) : Prop :=
  (s.pc u).marked = some w ∨ s.pc u = .waking w ∨ (s.woken u = true ∧ (s.pc u).tries = some w)

structure Watched (s : WqState P Q G W K T) : Prop where
  marks : Marks s
  sync : ∀ t m, (s.pc t).waitMode = some m → m.sync = true
  queued : ∀ t, (s.pc t).queues = true → t ∈ s.waitq
  support : ∀ t w, (s.pc t).sleeps = some w → s.cond t = 0 → ∃ u, Supports s u w

section Marks
variable {cfg : WqConfig P Q G K} {s s' : WqState P Q G W K T} {t : T}

theorem Pc.owns_of_marked {p : Pc P Q G W} {w : W} (h : p.marked = some w) : p.owns = some w := by
  cases p <;> first
    | exact h
    | exact nomatch h

theorem marked_afterFlush (w : W) (cancel : Bool) :
    (afterFlush w cancel : Pc P Q G W).marked = if cancel then some w else none := by
  cases cancel with
  | true => rfl
  | false => rfl

theorem Marks.frame (h : Marks s)
    (hflags : ∀ w, (s'.core.flags (.work w)).canceling = (s.core.flags (.work w)).canceling)
    (hpc : ∀ u, (s'.pc u).marked = (s.pc u).marked) : Marks s' := by
  intro w
  rw [hflags, h w]
  exact exists_congr fun u => by rw [hpc]

variable [DecidableEq T]

theorem marked_goes {p : Pc P Q G W} (hpc : s'.pc = Function.update s.pc t p)
    (hp : p.marked = (s.pc t).marked) (u : T) :
    (s'.pc u).marked = (s.pc u).marked := by
  rw [hpc]
  by_cases hu : u = t
  · rw [hu, Function.update_self]
    exact hp
  · rw [Function.update_of_ne hu]

theorem Marks.goes (h : Marks s) {p : Pc P Q G W} (hpc : s'.pc = Function.update s.pc t p)
    (hp : p.marked = (s.pc t).marked)
    (hflags : ∀ w, (s'.core.flags (.work w)).canceling = (s.core.flags (.work w)).canceling) : Marks s' :=
  h.frame hflags (marked_goes hpc hp)

omit [DecidableEq T] in
theorem Marks.not_canceling (h : Marks s) {w : W} (hno : ∀ u, (s.pc u).marked ≠ some w) :
    (s.core.flags (.work w)).canceling = false := by
  cases hc : (s.core.flags (.work w)).canceling with
  | false => rfl
  | true =>
    obtain ⟨u, hu⟩ := (h w).mp hc
    exact absurd hu (hno u)

omit [DecidableEq T] in
/-- The holder of PENDING of a work that it has not marked. -/
theorem Marks.not_canceling_of_owner (h : Marks s) (hown : Owning s) {w : W} (ht : (s.pc t).owns = some w)
    (hm : (s.pc t).marked = none) : (s.core.flags (.work w)).canceling = false := by
  refine h.not_canceling fun u hu => ?_
  have hut := hown.own_unique u t w (Pc.owns_of_marked hu) ht
  rw [hut, hm] at hu
  cases hu

omit [DecidableEq T] in
theorem Marks.not_canceling_of_queued (h : Marks s) (hown : Owning s) {w : W} {q : Q}
    (hq : (s.core.flags (.work w)).data = .pwq q) : (s.core.flags (.work w)).canceling = false :=
  h.not_canceling fun u hu => hown.sole_of_queued hq u (Pc.owns_of_marked hu)

variable [DecidableEq W]

theorem canceling_setFlags {c : Core P Q G W K T} {v : W} {f : WorkFlags P Q}
    (hf : f.canceling = (c.flags (.work v)).canceling) (w : W) :
    ((c.setFlags v f).flags (.work w)).canceling = (c.flags (.work w)).canceling := by
  by_cases hv : w = v
  · simp [Core.setFlags, hv, hf]
  · simp [Core.setFlags, hv]

variable [DecidableEq P] [DecidableEq G]

theorem LocalMove.marked {p : Pc P Q G W} (h : LocalMove cfg s t p) : p.marked = (s.pc t).marked := by
  cases h with
  | flushNone hpc _ | flushGone hpc _ | barrierDone hpc _ => rw [marked_afterFlush, hpc]; rfl
  | select hpc _ | switch hpc _ | grabMiss hpc | grabPending hpc | grabRead hpc | grabReadFail hpc
  | grabLockFail hpc
  | grabForeign hpc _ _ | grabWait hpc _ | grabGiveUp hpc _ | grabAgain hpc | foreignLoad hpc | flush hpc
  | flushRead hpc _ | flushForeign hpc _ _ | waitOver hpc _ | waitSleep hpc _ | waitSignalled hpc _
  | interrupt hpc
  | sleepAgain hpc => rw [hpc]; rfl

omit [DecidableEq P] [DecidableEq G] in
/-- The word of `v` is written with or without CANCELING, and `t` goes on accordingly. -/
theorem Marks.write (h : Marks s) (hown : Owning s) {v : W} {f : WorkFlags P Q} {p : Pc P Q G W}
    (ht : (s.pc t).owns = some v) (hflags : s'.core.flags = (s.core.setFlags v f).flags)
    (hpc : s'.pc = Function.update s.pc t p)
    (hp : p.marked = if f.canceling then some v else none) : Marks s' := by
  have hsole : ∀ u, u ≠ t → (s.pc u).marked ≠ some v := fun u hu hm =>
    hown.sole_of_owner ht u hu (Pc.owns_of_marked hm)
  have hother : ∀ w, w ≠ v → (s.pc t).marked ≠ some w := by
    intro w hw hm
    have := Pc.owns_of_marked hm
    rw [ht] at this
    cases this
    exact hw rfl
  intro w
  by_cases hw : w = v
  · subst hw
    have hc : (s'.core.flags (.work w)).canceling = f.canceling := by simp [hflags, Core.setFlags]
    rw [hc]
    constructor
    · intro hf
      refine ⟨t, ?_⟩
      rw [hpc, Function.update_self, hp, hf]
      rfl
    · rintro ⟨u, hu⟩
      rw [hpc] at hu
      by_cases hut : u = t
      · rw [hut, Function.update_self, hp] at hu
        cases hf : f.canceling with
        | true => rfl
        | false => simp [hf] at hu
      · rw [Function.update_of_ne hut] at hu
        exact absurd hu (hsole u hut)
  · have hc : (s'.core.flags (.work w)).canceling = (s.core.flags (.work w)).canceling := by
      simp [hflags, Core.setFlags, hw]
    rw [hc, h w]
    refine exists_congr fun u => ?_
    rw [hpc]
    by_cases hut : u = t
    · rw [hut, Function.update_self, hp]
      refine iff_of_false (hother w hw) ?_
      split
      · simpa using Ne.symm hw
      · simp
    · rw [Function.update_of_ne hut]

variable [DecidableEq Q] [DecidableEq K]

omit [DecidableEq G] in
theorem Marks.pick (h : Marks s) (hctl : Ctl cfg s) {k : K} {c' : Core P Q G W K T}
    (hp : pickWork cfg s.core k = some c') (w : W) :
    (c'.flags (.work w)).canceling = (s.core.flags (.work w)).canceling := by
  obtain ⟨-, c1, hr, rfl | ⟨src, x, q, hst, rfl⟩⟩ := picks_of_pickWork hctl.core hp
  · rw [hr.core.1]
  · have hf := hr.core.1
    by_cases hx : x = .work w
    · subst hx
      rw [h.not_canceling_of_queued hctl.owning (hf ▸ hst.data)]
      simp [startWork, workFlags]
    · simp [startWork, Ne.symm hx, hf]

theorem marks_effect (hctl : Ctl cfg s) (h : Marks s) (he : Effect cfg s s') : Marks s' := by
  cases he with
  | env d e => exact h.frame (fun _ => rfl) (fun _ => rfl)
  | dropBase q hb => exact h.frame (fun _ => rfl) (fun _ => rfl)
  | move hm => exact h.goes rfl hm.marked (fun _ => rfl)
  | call hpc => exact h.goes rfl (by rw [hpc]; rfl) (fun _ => rfl)
  | begin hpc hp => exact h.goes rfl (by rw [hpc]; rfl) (canceling_setFlags rfl)
  | modDelayed hpc hm => exact h.goes rfl (by rw [hpc]; rfl) (fun _ => rfl)
  | arm hpc => exact h.goes rfl (by rw [hpc]; rfl) (fun _ => rfl)
  | armFail hpc => exact h.goes rfl (by rw [hpc]; rfl) (fun _ => rfl)
  | fire hpc ht => exact h.goes rfl (by rw [hpc]; rfl) (fun _ => rfl)
  | @fail t w n hpc =>
    have hmarked : (s.pc t).marked = none := by
      cases hp : s.pc t <;> simp_all [Pc.held, Pc.marked]
    exact h.goes rfl hmarked.symm (canceling_setFlags rfl)
  | @insert t v q n hi hr =>
    have hmarked : (s.pc t).marked = none := by
      cases hi with
      | last hpc _ => rw [hpc]; rfl
      | executing hpc _ _ => rw [hpc]; rfl
      | switched hpc => rw [hpc]; rfl
    refine h.goes rfl hmarked.symm fun w => ?_
    simp only [queueInsert_flags]
    by_cases hw : w = v
    · subst hw
      rw [Function.update_self, h.not_canceling_of_owner hctl.owning (Pc.owns_of_held hi.held) hmarked]
    · rw [Function.update_of_ne (by simpa using hw)]
  | grabTimer hpc ht => exact h.goes rfl (by rw [hpc]; rfl) (fun _ => rfl)
  | grabBit hpc hp => exact h.goes rfl (by rw [hpc]; rfl) (canceling_setFlags rfl)
  | @grabQueued t v m q hpc hd hr =>
    have hg := grabFrame hctl.core hd
    refine h.goes rfl (by rw [hpc]; rfl) fun w => ?_
    by_cases hw : w = v
    · subst hw
      rw [h.not_canceling_of_queued hctl.owning hd]
      simp only [hg.self, workFlags]
    · exact (hg.word _ (by simpa using hw)).canceling
  | foreignGet hpc => exact h.goes rfl (by rw [hpc]; rfl) (fun _ => rfl)
  | foreignPut hpc => exact h.goes rfl (by rw [hpc]; rfl) (fun _ => rfl)
  | foreignFlush hpc => exact h.goes rfl (by rw [marked_afterFlush, hpc]; rfl) (fun _ => rfl)
  | @finish t v m hpc hm => exact h.write hctl.owning (t := t) (v := v) (by rw [hpc]; rfl) rfl rfl rfl
  | @mark t v m hpc hm => exact h.write hctl.owning (t := t) (v := v) (by rw [hpc]; rfl) rfl rfl rfl
  | @behind t v cancel q hpc hd hr =>
    refine h.goes rfl (by rw [hpc]; rfl) fun w => ?_
    simp only [insertBarrierBehind_flags]
    rw [Function.update_of_ne (by simp)]
    by_cases hw : w = v
    · rw [hw, Function.update_self]
    · rw [Function.update_of_ne (by simpa using hw)]
  | front hpc hk hw hr =>
    refine h.goes rfl (by rw [hpc]; rfl) fun w => ?_
    simp [insertBarrierFront, startBarrier, insertWork, pwqIncNrInFlight]
  | @clear t v hpc => exact h.write hctl.owning (t := t) (v := v) (by rw [hpc]; rfl) rfl rfl rfl
  | @wake t v hpc =>
    have hw := wakeFrame_wakeUpOne v s.waitq s
    have h1 : Marks (wakeUpOne s v s.waitq) := by
      refine h.frame (fun w => by rw [hw.core]) fun u => ?_
      rcases hw.pc u with he | ⟨v', m, h1, h2⟩
      · rw [he]
      · rw [h1, h2]
        rfl
    refine h1.goes rfl ?_ (fun _ => rfl)
    rcases hw.pc t with he | ⟨v', m, h1, h2⟩
    · rw [he, hpc]
      rfl
    · rw [h2]
      rfl
  | waitPrep hpc => exact h.goes rfl (by rw [hpc]; rfl) (fun _ => rfl)
  | waitCheck hpc hc => exact h.goes rfl (by rw [hpc]; rfl) (fun _ => rfl)
  | finishWait hpc => exact h.goes rfl (by rw [hpc]; rfl) (fun _ => rfl)
  | pick hp => exact h.frame (h.pick hctl hp) (fun _ => rfl)
  | complete hk hi hcl => exact h.frame (fun _ => rfl) (fun _ => rfl)
  | @workDone k r hk hcl =>
    have hd := decFrame_pwqDecNrInFlight cfg (s.core.stopped k r.ticket) r.pwq r.barrier
    exact h.frame (fun w => (hd.word (.work w)).canceling) (fun _ => rfl)

end Marks

/-! ## Sleepers and what they rely on -/

section Watched
variable {cfg : WqConfig P Q G K} {s s' : WqState P Q G W K T} {t : T} {w : W}

theorem Supports.goes (h : Supports s t w) {p : Pc P Q G W} (hp : s'.pc t = p)
    (hwoken : s'.woken t = s.woken t)
    (hm : p.marked = (s.pc t).marked) (hw : (s.pc t).isWaking = false)
    (ht : (s.pc t).tries = some w → p.tries = some w) : Supports s' t w := by
  rcases h with h1 | h1 | ⟨h1, h2⟩
  · exact Or.inl (by rw [hp, hm]; exact h1)
  · rw [h1] at hw
    exact Bool.noConfusion hw
  · exact Or.inr (Or.inr ⟨hwoken.trans h1, by rw [hp]; exact ht h2⟩)

theorem not_supports {p : Pc P Q G W} (hp : s.pc t = p) (hm : p.marked = none) (hw : p.isWaking = false)
    (ht : p.tries = none) : ¬ Supports s t w := by
  rintro (h1 | h1 | ⟨-, h1⟩)
  · rw [hp, hm] at h1
    cases h1
  · rw [← hp, h1] at hw
    exact Bool.noConfusion hw
  · rw [hp, ht] at h1
    cases h1

theorem Watched.frame (h : Watched s) (hmarks : Marks s') (hpc : s'.pc = s.pc) (hwaitq : s'.waitq = s.waitq)
    (hcond : s'.cond = s.cond) (hwoken : s'.woken = s.woken) : Watched s' where
  marks := hmarks
  sync := by rw [hpc]; exact h.sync
  queued := by rw [hpc, hwaitq]; exact h.queued
  support := by
    intro u v hu hc
    obtain ⟨x, hx⟩ := h.support u v (hpc ▸ hu) (hcond ▸ hc)
    refine ⟨x, ?_⟩
    unfold Supports
    rw [hpc, hwoken]
    exact hx

variable [DecidableEq T]

/-- One thread goes on; whoever relied on it can rely on it or another thread afterwards. -/
theorem Watched.goes (h : Watched s) (hmarks : Marks s') {p : Pc P Q G W}
    (hpc : s'.pc = Function.update s.pc t p)
    (hother : ∀ u, u ≠ t → s'.cond u = s.cond u ∧ s'.woken u = s.woken u ∧ (u ∈ s.waitq → u ∈ s'.waitq))
    (hsync : ∀ m, p.waitMode = some m → m.sync = true) (hqueued : p.queues = true → t ∈ s'.waitq)
    (hsleep : ∀ v, p.sleeps = some v → s'.cond t = 0 → ∃ u, Supports s' u v)
    (hsup : ∀ v, Supports s t v → ∃ u, Supports s' u v) : Watched s' := by
  have hat : s'.pc t = p := by rw [hpc, Function.update_self]
  have hne : ∀ u, u ≠ t → s'.pc u = s.pc u := fun u hu => by rw [hpc, Function.update_of_ne hu]
  refine ⟨hmarks, fun u m hu => ?_, fun u hu => ?_, fun u v hu hc => ?_⟩
  · by_cases ht : u = t
    · subst ht
      exact hsync m (hat ▸ hu)
    · exact h.sync u m (hne u ht ▸ hu)
  · by_cases ht : u = t
    · subst ht
      exact hqueued (hat ▸ hu)
    · exact (hother u ht).2.2 (h.queued u (hne u ht ▸ hu))
  · by_cases ht : u = t
    · subst ht
      exact hsleep v (hat ▸ hu) hc
    · obtain ⟨x, hx⟩ := h.support u v (hne u ht ▸ hu) ((hother u ht).1 ▸ hc)
      by_cases hxt : x = t
      · subst hxt
        exact hsup v hx
      · refine ⟨x, ?_⟩
        unfold Supports
        rw [hne x hxt, (hother x hxt).2.1]
        exact hx

theorem waitMode_afterFlush (w : W) (cancel : Bool) : (afterFlush w cancel : Pc P Q G W).waitMode = none := by
  cases cancel with
  | true => rfl
  | false => rfl

theorem queues_afterFlush (w : W) (cancel : Bool) : (afterFlush w cancel : Pc P Q G W).queues = false := by
  cases cancel with
  | true => rfl
  | false => rfl

theorem sleeps_afterFlush (w : W) (cancel : Bool) : (afterFlush w cancel : Pc P Q G W).sleeps = none := by
  cases cancel with
  | true => rfl
  | false => rfl

variable [DecidableEq P] [DecidableEq G] [DecidableEq W]

theorem LocalMove.tries {p : Pc P Q G W} (h : LocalMove cfg s t p) (ht : (s.pc t).tries = some w) :
    p.tries = some w := by
  cases h with
  | grabMiss hpc | grabPending hpc | grabRead hpc | grabReadFail hpc | grabLockFail hpc | grabForeign hpc _ _
  | grabWait hpc _ | grabAgain hpc | waitOver hpc _ => rw [hpc] at ht; exact ht
  | @foreignLoad q f f' back hpc =>
    rw [hpc] at ht
    cases back with
    | grab v m => exact ht
    | flush v cancel => exact nomatch ht
  | grabGiveUp hpc hm => rw [hpc, Pc.tries, hm] at ht; exact nomatch ht
  | select hpc _ | switch hpc _ | flush hpc | flushNone hpc _ | flushRead hpc _ | flushGone hpc _
  | flushForeign hpc _ _
  | barrierDone hpc _ | waitSleep hpc _ | waitSignalled hpc _ | interrupt hpc | sleepAgain hpc =>
    rw [hpc] at ht
    exact nomatch ht

theorem LocalMove.not_waking {p : Pc P Q G W} (h : LocalMove cfg s t p) : (s.pc t).isWaking = false := by
  cases h with
  | grabMiss hpc | grabPending hpc | grabRead hpc | grabReadFail hpc | grabLockFail hpc | grabForeign hpc _ _
  | grabWait hpc _ | grabAgain hpc | foreignLoad hpc | waitOver hpc _ | grabGiveUp hpc _
  | select hpc _ | switch hpc _
  | flush hpc | flushNone hpc _ | flushRead hpc _ | flushGone hpc _ | flushForeign hpc _ _ | barrierDone hpc _
  | waitSleep hpc _ | waitSignalled hpc _ | interrupt hpc | sleepAgain hpc => rw [hpc]; rfl

theorem LocalMove.waits {p : Pc P Q G W} (h : LocalMove cfg s t p) :
    (∀ m, p.waitMode = some m → m.sync = true ∨ (s.pc t).waitMode = some m) ∧
      (p.queues = true → (s.pc t).queues = true) ∧ (∀ v, p.sleeps = some v → (s.pc t).sleeps = some v) := by
  cases h with
  | grabWait hpc hm =>
    refine ⟨fun m h1 => ?_, (fun h1 => nomatch h1), (fun v h1 => nomatch h1)⟩
    cases h1
    exact Or.inl hm
  | waitOver hpc _ | waitSignalled hpc _ | interrupt hpc =>
    refine ⟨fun m h1 => Or.inr ?_, (fun h1 => nomatch h1), (fun v h1 => nomatch h1)⟩
    rw [hpc]
    exact h1
  | waitSleep hpc _ | sleepAgain hpc =>
    rw [hpc]
    exact ⟨fun m h1 => Or.inr h1, fun _ => rfl, fun v h1 => h1⟩
  | flushNone | flushGone | barrierDone =>
    rw [waitMode_afterFlush, queues_afterFlush, sleeps_afterFlush]
    exact ⟨(fun m h1 => nomatch h1), (fun h1 => nomatch h1), (fun v h1 => nomatch h1)⟩
  | select | switch | grabMiss | grabPending | grabRead | grabReadFail | grabLockFail
  | grabForeign | grabGiveUp
  | grabAgain | foreignLoad | flush | flushRead | flushForeign =>
    exact ⟨(fun m h1 => nomatch h1), (fun h1 => nomatch h1), (fun v h1 => nomatch h1)⟩

theorem Watched.move (h : Watched s) {p : Pc P Q G W} (hm : LocalMove cfg s t p)
    (hmarks : Marks (s.setPc t p)) :
    Watched (s.setPc t p) := by
  obtain ⟨hmode, hqueues, hsleeps⟩ := hm.waits
  have hsup : ∀ v, Supports s t v → Supports (s.setPc t p) t v := fun v hs =>
    hs.goes (by simp [WqState.setPc]) rfl hm.marked hm.not_waking (fun ht => hm.tries ht)
  refine h.goes hmarks rfl (fun _ _ => ⟨rfl, rfl, fun hu => hu⟩) (fun m h1 => ?_)
    (fun h1 => h.queued t (hqueues h1))
    (fun v h1 hc => ?_) (fun v hs => ⟨t, hsup v hs⟩)
  · rcases hmode m h1 with h2 | h2
    · exact h2
    · exact h.sync t m h2
  · -- a sleeper relies on another thread, whose state has not changed, or on none
    obtain ⟨x, hx⟩ := h.support t v (hsleeps v h1) hc
    by_cases hxt : x = t
    · subst hxt
      exact ⟨x, hsup v hx⟩
    · refine ⟨x, ?_⟩
      simpa [Supports, WqState.setPc, hxt] using hx

/-- What `__wake_up_one` with the key `v` does to the entries of the list it walks over. -/
structure Reaches (v : W) (l : List T) (s s' : WqState P Q G W K T) : Prop where
  cond_le : ∀ t, s.cond t ≤ s'.cond t
  woken_le : ∀ t, s.woken t = true → s'.woken t = true
  waitq : ∀ t, s'.pc t = s.pc t → t ∈ s.waitq → t ∈ s'.waitq
  reach : ∀ t, t ∈ l → entryWork (s.pc t) = some v →
    s.cond t < s'.cond t ∨ ∃ u m, s.pc u = .asleep v m ∧ s'.pc u = .waitDone v m ∧ s'.woken u = true

omit [DecidableEq P] [DecidableEq G] in
theorem reaches_wakeUpOne (v : W) (l : List T) (s : WqState P Q G W K T) :
    Reaches v l s (wakeUpOne s v l) := by
  induction l generalizing s with
  | nil => exact ⟨fun _ => le_refl _, fun _ h => h, fun _ _ h => h, fun _ h => nomatch h⟩
  | cons u l ih =>
    unfold wakeUpOne
    by_cases hu : entryWork (s.pc u) = some v
    · have hcond : ∀ t, s.cond t ≤ Function.update s.cond u (s.cond u + 1) t := by
        intro t
        by_cases ht : t = u
        · rw [ht, Function.update_self]
          exact Nat.le_succ _
        · rw [Function.update_of_ne ht]
      have hwoken : ∀ t, s.woken t = true → Function.update s.woken u true t = true := by
        intro t h1
        by_cases ht : t = u
        · rw [ht, Function.update_self]
        · rwa [Function.update_of_ne ht]
      rw [if_pos hu]
      dsimp only
      split
      · -- the walk ends at the sleeping thread `u`
        rename_i v' m hpc
        rw [hpc] at hu
        cases hu
        refine ⟨hcond, hwoken, fun t h1 h2 => ?_, fun t _ _ => Or.inr ⟨u, m, hpc, by simp, by simp⟩⟩
        have ht : t ≠ u := by
          rintro rfl
          simp [hpc] at h1
        exact (List.mem_erase_of_ne ht).mpr h2
      · have h := ih { s with
          cond := Function.update s.cond u (s.cond u + 1)
          woken := Function.update s.woken u true }
        refine ⟨fun t => (hcond t).trans (h.cond_le t), fun t h1 => h.woken_le t (hwoken t h1),
          h.waitq, fun t h1 h2 => ?_⟩
        by_cases ht : t = u
        · subst ht
          have h3 := h.cond_le t
          simp only [Function.update_self] at h3
          exact Or.inl h3
        · rcases List.mem_cons.mp h1 with h3 | h3
          · exact absurd h3 ht
          · rcases h.reach t h3 h2 with h4 | h4
            · exact Or.inl (lt_of_le_of_lt (hcond t) h4)
            · exact Or.inr h4
    · rw [if_neg hu]
      have h := ih s
      refine ⟨h.cond_le, h.woken_le, h.waitq, fun t h1 h2 => ?_⟩
      rcases List.mem_cons.mp h1 with h3 | h3
      · rw [h3] at h2
        exact absurd h2 hu
      · exact h.reach t h3 h2

omit [DecidableEq P] [DecidableEq G] [DecidableEq W] in
theorem entryWork_of_sleeps {p : Pc P Q G W} (h : p.sleeps = some w) : entryWork p = some w := by
  cases p <;> first
    | exact h
    | exact nomatch h

omit [DecidableEq P] [DecidableEq G] [DecidableEq W] in
theorem queues_of_sleeps {p : Pc P Q G W} (h : p.sleeps = some w) : p.queues = true := by
  cases p <;> first
    | rfl
    | exact nomatch h

omit [DecidableEq P] [DecidableEq G] in
/-- A wake-up of another work, or one that has not reached the sleeper, leaves it a thread to rely on. -/
theorem Watched.wake (h : Watched s) {v : W} (hpc : s.pc t = .waking v)
    (hmarks : Marks ((wakeUpOne s v s.waitq).setPc t .idle)) :
    Watched ((wakeUpOne s v s.waitq).setPc t .idle) := by
  have hw := wakeFrame_wakeUpOne v s.waitq s
  have hr := reaches_wakeUpOne v s.waitq s
  have hne : ∀ u, u ≠ t → ((wakeUpOne s v s.waitq).setPc t .idle).pc u = (wakeUpOne s v s.waitq).pc u := by
    intro u hu
    simp [WqState.setPc, hu]
  have hself : ((wakeUpOne s v s.waitq).setPc t .idle).pc t = .idle := by simp [WqState.setPc]
  refine ⟨hmarks, fun u m hu => ?_, fun u hu => ?_, fun u w hu hc => ?_⟩
  · by_cases ht : u = t
    · rw [ht, hself] at hu
      cases hu
    · rw [hne u ht] at hu
      rcases hw.pc u with he | ⟨v', m', h1, h2⟩
      · exact h.sync u m (he ▸ hu)
      · rw [h2] at hu
        exact h.sync u m (by rw [h1]; exact hu)
  · by_cases ht : u = t
    · rw [ht, hself] at hu
      cases hu
    · rw [hne u ht] at hu
      rcases hw.pc u with he | ⟨v', m', h1, h2⟩
      · exact hr.waitq u he (h.queued u (he ▸ hu))
      · rw [h2] at hu
        cases hu
  · have ht : u ≠ t := by
      rintro rfl
      rw [hself] at hu
      cases hu
    rw [hne u ht] at hu
    have hpcu : (wakeUpOne s v s.waitq).pc u = s.pc u := by
      rcases hw.pc u with he | ⟨v', m', h1, h2⟩
      · exact he
      · rw [h2] at hu
        cases hu
    rw [hpcu] at hu
    have hc1 : (wakeUpOne s v s.waitq).cond u = 0 := hc
    have hc0 : s.cond u = 0 := Nat.le_zero.mp (hc1 ▸ hr.cond_le u)
    by_cases hwv : w = v
    · subst hwv
      -- the walk has not reached `u`, so it has ended at another sleeper
      rcases hr.reach u (h.queued u (queues_of_sleeps hu)) (entryWork_of_sleeps hu)
        with h1 | ⟨x, m, h1, h2, h3⟩
      · rw [hc0, hc1] at h1
        exact absurd h1 (lt_irrefl _)
      · have hxt : x ≠ t := by
          rintro rfl
          rw [hpc] at h1
          cases h1
        have hsync := h.sync x m (by rw [h1]; rfl)
        refine ⟨x, Or.inr (Or.inr ⟨h3, ?_⟩)⟩
        rw [hne x hxt, h2]
        simp [Pc.tries, hsync]
    · obtain ⟨x, hx⟩ := h.support u w hu hc0
      have hxt : x ≠ t := by
        rintro rfl
        rcases hx with h1 | h1 | ⟨-, h1⟩
        · rw [hpc] at h1
          cases h1
        · rw [hpc] at h1
          cases h1
          exact hwv rfl
        · rw [hpc] at h1
          cases h1
      have hpcx : (wakeUpOne s v s.waitq).pc x = s.pc x := by
        rcases hw.pc x with he | ⟨v', m', h1, -⟩
        · exact he
        · exact absurd hx (not_supports h1 rfl rfl rfl)
      refine ⟨x, ?_⟩
      rcases hx with h1 | h1 | ⟨h1, h2⟩
      · exact Or.inl (by rw [hne x hxt, hpcx]; exact h1)
      · exact Or.inr (Or.inl (by rw [hne x hxt, hpcx]; exact h1))
      · exact Or.inr (Or.inr ⟨hr.woken_le x h1, by rw [hne x hxt, hpcx]; exact h2⟩)

omit [DecidableEq P] [DecidableEq G] [DecidableEq W] in
theorem Watched.leave (h : Watched s) (hmarks : Marks s') {p : Pc P Q G W}
    (hpc : s'.pc = Function.update s.pc t p)
    (hcond : s'.cond = s.cond) (hwoken : ∀ u, u ≠ t → s'.woken u = s.woken u) (hwaitq : s'.waitq = s.waitq)
    (hmode : p.waitMode = none) (hq : p.queues = false) (hs : p.sleeps = none)
    (hsup : ∀ v, Supports s t v → ∃ u, Supports s' u v) : Watched s' := by
  refine h.goes hmarks hpc (fun u hu => ⟨by rw [hcond], hwoken u hu, fun hm => by rw [hwaitq]; exact hm⟩)
    (fun m h1 => ?_) (fun h1 => ?_) (fun v h1 => ?_) hsup
  · rw [hmode] at h1
    cases h1
  · rw [hq] at h1
    exact Bool.noConfusion h1
  · rw [hs] at h1
    cases h1

variable [DecidableEq Q] [DecidableEq K]

theorem watched_effect (hctl : Ctl cfg s) (h : Watched s) (he : Effect cfg s s') : Watched s' := by
  have hmarks := marks_effect hctl h.marks he
  cases he with
  | env d e => exact h.frame hmarks rfl rfl rfl rfl
  | dropBase q hb => exact h.frame hmarks rfl rfl rfl rfl
  | move hm => exact h.move hm hmarks
  | call hpc =>
    refine h.leave hmarks rfl rfl (fun u hu => ?_) rfl rfl rfl rfl fun v hs =>
      absurd hs (not_supports hpc rfl rfl rfl)
    exact Function.update_of_ne hu _ _
  | begin hpc hp | arm hpc | armFail hpc | fire hpc ht =>
    exact h.leave hmarks rfl rfl (fun _ _ => rfl) rfl rfl rfl rfl fun v hs =>
      absurd hs (not_supports hpc rfl rfl rfl)
  | modDelayed hpc hm | finish hpc hm =>
    refine h.leave hmarks rfl rfl (fun _ _ => rfl) rfl rfl rfl rfl fun v hs =>
      absurd hs (not_supports hpc rfl rfl ?_)
    simp [Pc.tries, hm]
  | @fail t w n hpc =>
    refine h.leave hmarks rfl rfl (fun _ _ => rfl) rfl rfl rfl rfl fun v hs => absurd hs ?_
    cases hp : s.pc t <;> first
      | exact not_supports hp rfl rfl rfl
      | (rw [hp] at hpc; exact nomatch hpc)
  | @insert t w q n hi hr =>
    refine h.leave hmarks rfl rfl (fun _ _ => rfl) rfl rfl rfl rfl fun v hs => absurd hs ?_
    cases hi with
    | last hpc _ | executing hpc _ _ | switched hpc => exact not_supports hpc rfl rfl rfl
  | @grabTimer t w m _ _ hpc _ | @grabBit t w m hpc _ | @grabQueued t w m _ hpc _ _
  | @foreignPut t _ _ w m hpc
  | @behind t w _ _ hpc _ _ | @front t w _ _ _ hpc _ _ _ =>
    refine h.leave hmarks rfl rfl (fun _ _ => rfl) rfl rfl rfl rfl fun v hs => ⟨t, ?_⟩
    refine hs.goes (by simp; rfl) rfl (by rw [hpc]; rfl) (by rw [hpc]; rfl) fun h1 => ?_
    rw [hpc] at h1
    exact h1
  | @foreignGet t q v back hpc =>
    refine h.leave hmarks rfl rfl (fun _ _ => rfl) rfl rfl rfl rfl fun v hs => ⟨t, ?_⟩
    refine hs.goes (by simp; rfl) rfl (by rw [hpc]; rfl) (by rw [hpc]; rfl) fun h1 => ?_
    rw [hpc] at h1
    cases back with
    | grab v m => exact h1
    | flush v cancel => exact nomatch h1
  | @foreignFlush t q v w cancel hpc =>
    refine h.leave hmarks rfl rfl (fun _ _ => rfl) rfl (waitMode_afterFlush _ _) (queues_afterFlush _ _)
      (sleeps_afterFlush _ _) fun v hs => ⟨t, ?_⟩
    refine hs.goes (by simp; rfl) rfl (by rw [marked_afterFlush, hpc]; rfl) (by rw [hpc]; rfl) fun h1 => ?_
    rw [hpc] at h1
    exact nomatch h1
  | @mark t w m hpc hm =>
    refine h.leave hmarks rfl rfl (fun u hu => Function.update_of_ne hu _
      _) rfl rfl rfl rfl fun v hs => ⟨t, ?_⟩
    have hv : (Pc.grabbed w m : Pc P Q G W).tries = some v := by
      rcases hs with h1 | h1 | ⟨-, h1⟩
      · rw [hpc] at h1
        exact nomatch h1
      · rw [hpc] at h1
        cases h1
      · rwa [hpc] at h1
    simp only [Pc.tries, hm, if_true, Option.some.injEq] at hv
    subst hv
    exact Or.inl (by simp [Pc.marked])
  | @clear t w hpc =>
    refine h.leave hmarks rfl rfl (fun _ _ => rfl) rfl rfl rfl rfl fun v hs => ⟨t, ?_⟩
    have hv : (Pc.flushed w : Pc P Q G W).marked = some v := by
      rcases hs with h1 | h1 | ⟨-, h1⟩
      · rwa [hpc] at h1
      · rw [hpc] at h1
        cases h1
      · rw [hpc] at h1
        exact nomatch h1
    cases hv
    exact Or.inr (Or.inl (by simp))
  | wake hpc => exact h.wake hpc hmarks
  | @waitPrep t w m hpc =>
    refine h.goes hmarks rfl (fun u hu => ⟨Function.update_of_ne hu _ _, rfl,
      fun hm => List.mem_append_left _ hm⟩)
      (fun m' h1 => ?_) (fun _ => by simp) (fun v h1 => nomatch h1) (fun v hs => ⟨t, ?_⟩)
    · cases h1
      exact h.sync t m (by rw [hpc]; rfl)
    · refine hs.goes (by simp; rfl) rfl (by rw [hpc]; rfl) (by rw [hpc]; rfl) fun h1 => ?_
      rw [hpc] at h1
      exact h1
  | @waitCheck t w m hpc hc =>
    -- whoever relied on `t` relies now on the thread that holds CANCELING, and so does `t`
    have hholder : ∃ u, (s.pc u).marked = some w := by
      refine (h.marks w).mp ?_
      unfold workIsCanceling at hc
      split at hc
      · exact Bool.noConfusion hc
      · exact hc
    obtain ⟨u, hu⟩ := hholder
    have hut : u ≠ t := by
      rintro rfl
      rw [hpc] at hu
      exact nomatch hu
    have hsup : ∀ v, v = w → ∃ x, Supports { s with
        pc := Function.update s.pc t (.waitSleep w m), woken := Function.update s.woken t false } x v := by
      rintro v rfl
      exact ⟨u, Or.inl (by simpa [hut] using hu)⟩
    refine h.goes hmarks rfl (fun x hx => ⟨rfl, Function.update_of_ne hx _ _, fun hm => hm⟩) (fun m' h1 => ?_)
      (fun _ => h.queued t (by rw [hpc]; rfl)) (fun v h1 _ => ?_) (fun v hs => ?_)
    · cases h1
      exact h.sync t m (by rw [hpc]; rfl)
    · cases h1
      exact hsup _ rfl
    · refine hsup v ?_
      rcases hs with h1 | h1 | ⟨-, h1⟩
      · rw [hpc] at h1
        exact nomatch h1
      · rw [hpc] at h1
        cases h1
      · rw [hpc] at h1
        simp only [Pc.tries, h.sync t m (by rw [hpc]; rfl), if_true, Option.some.injEq] at h1
        exact h1.symm
  | @finishWait t w m hpc =>
    refine h.goes hmarks rfl (fun u hu => ⟨rfl, rfl, fun hm => (List.mem_erase_of_ne hu).mpr hm⟩)
      (fun m' h1 => nomatch h1)
      (fun h1 => nomatch h1) (fun v h1 => nomatch h1) (fun v hs => ⟨t, ?_⟩)
    refine hs.goes (by simp; rfl) rfl (by rw [hpc]; rfl) (by rw [hpc]; rfl) fun h1 => ?_
    rw [hpc] at h1
    exact h1
  | pick hp => exact h.frame hmarks rfl rfl rfl rfl
  | complete hk hi hcl => exact h.frame hmarks rfl rfl rfl rfl
  | workDone hk hcl => exact h.frame hmarks rfl rfl rfl rfl

end Watched

/-! ## Whole runs -/

/-- The canceller `u` holds CANCELING of `w`. -/
def HoldsCanceling (s : WqState P Q G W K T) (u : T) (w : W) : Prop :=
  (s.pc u).marked = some w ∧ workIsCanceling (s.core.flags (.work w)) = true

structure CancelInv (cfg : WqConfig P Q G K) (s : WqState P Q G W K T) : Prop where
  ctl : Ctl cfg s
  calm : LeavesCalm s
  watched : Watched s

section Runs
variable {cfg : WqConfig P Q G K} {w : W} {g : G} {s : WqState P Q G W K T} {as : List (WqAct Q G W K T)}

theorem cancelInv_init (cfg : WqConfig P Q G K) : CancelInv cfg (wqInit : WqState P Q G W K T) where
  ctl := ctl_init cfg
  calm := fun _ _ hl => nomatch hl.1
  watched :=
    { marks := fun _ => iff_of_false (fun hc => nomatch hc) (fun ⟨_, hu⟩ => nomatch hu)
      sync := fun _ _ ht => nomatch ht
      queued := fun _ ht => nomatch ht
      support := fun _ _ ht => nomatch ht }

variable [DecidableEq P] [DecidableEq Q] [DecidableEq G] [DecidableEq W] [DecidableEq K] [DecidableEq T]

theorem cancelInv_step {s s' : WqState P Q G W K T} {a : WqAct Q G W K T} (h : CancelInv cfg s)
    (hs : wqStep cfg s a = some s') : CancelInv cfg s' where
  ctl := ctl_effect h.ctl (wqStep_effect hs)
  calm := leavesCalm_effect h.ctl h.calm (wqStep_effect hs)
  watched := watched_effect h.ctl h.watched (wqStep_effect hs)

theorem cancelInv_run (hr : runActs (wqStep cfg) wqInit as = some s) : CancelInv cfg s :=
  run_invariant (fun _ _ _ h _ hs => cancelInv_step h hs) as wqInit s (cancelInv_init cfg)
    (runMeets_trivial as wqInit) hr

theorem leavesUnrun_run (honly : RunMeets (wqStep cfg) (OnlyOn w g) wqInit as)
    (hr : runActs (wqStep cfg) wqInit as = some s) : LeavesUnrun w s := by
  have hinit : (SoleInv cfg w g (wqInit : WqState P Q G W K T) ∧
      CancelInv cfg (wqInit : WqState P Q G W K T)) ∧
      LeavesUnrun w (wqInit : WqState P Q G W K T) :=
    ⟨⟨soleInv_init cfg w g, cancelInv_init cfg⟩, fun _ hl => nomatch hl.1⟩
  have hstep : ∀ (s : WqState P Q G W K T) (a : WqAct Q G W K T) (s' : WqState P Q G W K T),
      (SoleInv cfg w g s ∧ CancelInv cfg s) ∧ LeavesUnrun w s → OnlyOn w g s a → wqStep cfg s a = some s' →
      (SoleInv cfg w g s' ∧ CancelInv cfg s') ∧ LeavesUnrun w s' := fun s a s' h ha hs =>
    ⟨⟨soleInv_step h.1.1 ha hs, cancelInv_step h.1.2 hs⟩,
      leavesUnrun_effect h.1.1 h.1.2.calm h.2 (wqStep_effect hs)⟩
  exact (run_invariant hstep as wqInit s hinit honly hr).2

omit [DecidableEq K] [DecidableEq T] [DecidableEq P] [DecidableEq Q] [DecidableEq G] [DecidableEq W] in
theorem CancelInv.holdsCanceling (h : CancelInv cfg s) {u : T} (hu : (s.pc u).marked = some w) :
    HoldsCanceling s u w := by
  refine ⟨hu, ?_⟩
  have hc := (h.watched.marks w).mpr ⟨u, hu⟩
  have hd := (h.ctl.owning.own u w (Pc.owns_of_marked hu)).1.2
  unfold workIsCanceling
  split
  · rename_i q hq
    exact absurd hq (hd q)
  · exact hc

omit [DecidableEq P] [DecidableEq Q] [DecidableEq G] [DecidableEq W] [DecidableEq K] [DecidableEq T] in
theorem not_supports_self {u : T} {m : CancelMode} (hu : s.pc u = .asleep w m) : ¬ Supports s u w :=
  not_supports hu rfl rfl rfl

/-- When `__cancel_work_sync` returns and the work was not queued since the call took PENDING, the
work is on no list and not in the timer, and when it is a work of one workqueue nobody executes it.
A canceller that sleeps on `cancel_waitq` and that no wake-up has reached relies on another
canceller of the same work: one that holds CANCELING, one that has cleared it and is about to make
its wake-up, or one that was woken and still tries. -/
theorem cancel_sync_ok (cfg : WqConfig P Q G K) (as : List (WqAct Q G W K T)) (s : WqState P Q G W K T)
    (hr : runActs (wqStep cfg) wqInit as = some s) (w : W) :
    (∀ t s', Leaving w s t → wqStep cfg s (.sync (.wakeOne t)) = some s' →
        (∀ pl, Item.work w ∉ s'.core.lists pl) ∧ s'.timer w = none ∧
          ∀ g, RunMeets (wqStep cfg) (OnlyOn w g) wqInit as → ∀ k, ¬ RunsOn s'.core k w) ∧
      ∀ t m, s.pc t = .asleep w m → s.cond t = 0 → ∃ u, u ≠ t ∧
        (HoldsCanceling s u w ∨ s.pc u = .waking w ∨ (s.woken u = true ∧ (s.pc u).tries = some w)) := by
  have h := cancelInv_run hr
  refine ⟨fun t s' hl hs => ?_, fun t m hpc hc => ?_⟩
  · have hcalm := h.calm w t hl
    simp only [wqStep, syncStep, hl.1, Option.some.injEq] at hs
    have hw := wakeFrame_wakeUpOne w s.waitq s
    have hcore : s'.core = s.core := by rw [← hs]; exact hw.core
    have htimer : s'.timer = s.timer := by rw [← hs]; exact hw.timer
    rw [hcore, htimer]
    exact ⟨h.ctl.core.layout.unlisted hcalm.data, hcalm.timer, fun g honly => leavesUnrun_run honly hr t hl⟩
  · obtain ⟨u, hu⟩ := h.watched.support t w (by rw [hpc]; rfl) hc
    refine ⟨u, ?_, ?_⟩
    · rintro rfl
      exact not_supports_self hpc hu
    · rcases hu with h1 | h1 | h1
      · exact Or.inl (h.holdsCanceling h1)
      · exact Or.inr (Or.inl h1)
      · exact Or.inr (Or.inr h1)

/-- A canceller finds the work executing, waits for it and clears its word. -/
def cancelExecuting : List (WqAct Unit Unit Unit Unit Bool) :=
  [.queue (.queueWork true () ()), .queue (.select true () false), .queue (.lockLast true),
    .queue (.switchLock true),
   .worker (.pick ()), .cancel (.call false () ⟨true, false⟩), .cancel (.grabTimer false),
   .cancel (.grabBit false),
   .sync (.mark false), .sync (.flushRead false), .sync (.flushLock false), .worker (.finish ()),
   .worker (.pick ()),
   .worker (.complete ()), .worker (.finish ()), .sync (.barrierDone false), .sync (.clearData false)]

theorem cancel_sync_ok_cancelExecuting :
    ∃ s s', runActs (wqStep onePool) wqInit cancelExecuting = some s ∧
      wqStep onePool s (.sync (.wakeOne false)) = some s' ∧ s'.pc false = .idle ∧
      (∀ pl, Item.work () ∉ s'.core.lists pl) ∧ s'.timer () = none ∧ ∀ k, ¬ RunsOn s'.core k () := by
  have honly : RunMeets (wqStep onePool) (OnlyOn () ()) wqInit cancelExecuting := by
    refine .cons rfl (fun _ => rfl)
      (.cons rfl trivial (.cons rfl trivial (.cons rfl trivial (.cons rfl trivial
      (.cons rfl trivial (.cons rfl trivial (.cons rfl trivial (.cons rfl trivial (.cons rfl trivial
      (.cons rfl trivial (.cons rfl trivial (.cons rfl trivial (.cons rfl trivial (.cons rfl trivial
      (.cons rfl trivial (.cons rfl trivial trivial))))))))))))))))
  obtain ⟨h1, h2, h3⟩ :=
    (cancel_sync_ok onePool cancelExecuting _ (by rfl) ()).1 false _ ⟨by rfl, by rfl⟩ (by rfl)
  exact ⟨_, _, by rfl, by rfl, by rfl, h1, h2, h3 () honly⟩

/-- Two workqueues with a pool of their own each. -/
def twoQueues : WqConfig Bool Bool Bool Bool where
  poolOf := id
  wqOf := id
  maxActive := fun _ => 1
  workerPool := id
  workers := twoPools.workers
  workers_all := twoPools.workers_all

/-- The work is executed for workqueue `false` and queues itself on workqueue `true`, where a cancel
takes it back. -/
def cancelMigrated : List (WqAct Bool Bool Unit Bool Bool) :=
  [.queue (.queueWork false () false), .queue (.select false false false), .queue (.lockLast false),
   .queue (.switchLock false), .worker (.pick false), .queue (.queueWork false () true),
   .queue (.select false true false), .queue (.lockLast false), .queue (.switchLock false),
   .cancel (.call true () ⟨true, false⟩), .cancel (.grabTimer true), .cancel (.grabBit true),
   .cancel (.grabRead true), .cancel (.grabLock true), .sync (.mark true), .sync (.flushRead true),
   .sync (.flushLock true), .sync (.clearData true)]

/-- A canceller sleeps when another one clears CANCELING. -/
def cancelTwice : List (WqAct Unit Unit Unit Unit Bool) :=
  [.cancel (.call true () ⟨true, false⟩), .cancel (.grabTimer true), .cancel (.grabBit true),
    .sync (.mark true),
   .sync (.flushRead true), .cancel (.call false () ⟨true, false⟩), .cancel (.grabTimer false),
   .cancel (.grabBit false), .cancel (.grabRead false), .cancel (.grabFail false), .sync (.waitPrep false),
   .sync (.waitCheck false), .sync (.waitSleep false), .sync (.clearData true)]

/-- `__cancel_work_sync` returns while the work executes on the pool of the workqueue it came from;
and a canceller sleeps unsignalled while nobody holds CANCELING. -/
theorem cancel_sync_migrated :
    (∃ s s', runActs (wqStep twoQueues) wqInit cancelMigrated = some s ∧ Leaving () s true ∧
        wqStep twoQueues s (.sync (.wakeOne true)) = some s' ∧ s'.pc true = .idle ∧ RunsOn s'.core false ()) ∧
      ∃ s, runActs (wqStep onePool) wqInit cancelTwice = some s ∧ s.pc false = .asleep () ⟨true, false⟩ ∧
        s.cond false = 0 ∧ ∀ u, ¬ HoldsCanceling s u () := by
  refine ⟨⟨_, _, by rfl, ⟨by rfl, by rfl⟩, by rfl, by rfl, ⟨_, by rfl, rfl⟩⟩, _, by rfl, by rfl, by rfl, ?_⟩
  rintro u ⟨-, hc⟩
  exact nomatch hc

end Runs

end Skp.Workqueue
