import Skp.Workqueue.Effects

/-! # What the operations leave alone

An operation on queued and executing items does not touch the flags word of a work that is on no list, nor
the stage of a ticket that has not reached a list, and a ticket that is over stays over. -/
namespace Skp.Workqueue
set_option autoImplicit false
open Skp.Foundations

variable {P Q G W K T : Type}

/-- The flags words agree but for the DELAYED bit. -/
def SameButDelayed (f f' : WorkFlags P Q) : Prop := f' = { f with delayed := f'.delayed }

theorem SameButDelayed.refl (f : WorkFlags P Q) : SameButDelayed f f := rfl

theorem SameButDelayed.data {f f' : WorkFlags P Q} (h : SameButDelayed f f') : f'.data = f.data := by
  unfold SameButDelayed at h
  rw [h]

theorem SameButDelayed.canceling {f f' : WorkFlags P Q} (h : SameButDelayed f f') :
    f'.canceling = f.canceling := by
  unfold SameButDelayed at h
  rw [h]

/-- What `pwq_dec_nr_in_flight` leaves alone. -/
structure DecFrame (c c' : Core P Q G W K T) : Prop where
  curr : c'.curr = c.curr
  insertSeq : c'.insertSeq = c.insertSeq
  baseRef : c'.baseRef = c.baseRef
  ticket : c'.ticket = c.ticket
  target : c'.target = c.target
  stage : c'.stage = c.stage
  calls : c'.calls = c.calls
  next : c'.next = c.next
  queuedLog : c'.queuedLog = c.queuedLog
  startedLog : c'.startedLog = c.startedLog
  word : ∀ x, SameButDelayed (c.flags x) (c'.flags x)
  unlisted : ∀ x, (∀ pl, x ∉ c.lists pl) → c'.flags x = c.flags x

section Dec
variable {cfg : WqConfig P Q G K} {c c' : Core P Q G W K T}

theorem decFrame_of_eq (c : Core P Q G W K T) (nr : Q → ℕ) (rs : G → BitVec 16) (rc : Q → ℤ) :
    DecFrame c { c with nrActive := nr, removeSeq := rs, refcnt := rc } where
  curr := rfl
  insertSeq := rfl
  baseRef := rfl
  ticket := rfl
  target := rfl
  stage := rfl
  calls := rfl
  next := rfl
  queuedLog := rfl
  startedLog := rfl
  word := fun _ => .refl _
  unlisted := fun _ _ => rfl

variable [DecidableEq W] [DecidableEq K] [DecidableEq T] [DecidableEq P] [DecidableEq Q]

theorem decFrame_activate {q : Q} {x : Item W T} (hx : x ∈ c.lists (.delayed q)) :
    DecFrame c (pwqActivateDelayedWork cfg c q x) where
  curr := rfl
  insertSeq := rfl
  baseRef := rfl
  ticket := rfl
  target := rfl
  stage := rfl
  calls := rfl
  next := rfl
  queuedLog := rfl
  startedLog := rfl
  word := by
    intro y
    by_cases hy : y = x
    · subst hy
      simp [SameButDelayed, pwqActivateDelayedWork, moveLinkedWorks]
    · simp [SameButDelayed, pwqActivateDelayedWork, moveLinkedWorks, hy]
  unlisted := by
    intro y hy
    have hne : y ≠ x := by
      rintro rfl
      exact hy _ hx
    simp [pwqActivateDelayedWork, moveLinkedWorks, hne]

theorem decFrame_activateFirst (cfg : WqConfig P Q G K) (c : Core P Q G W K T) (q : Q) :
    DecFrame c (activateFirst cfg c q) := by
  have hself : DecFrame c c := decFrame_of_eq c c.nrActive c.removeSeq c.refcnt
  cases hl : c.lists (.delayed q) with
  | nil =>
    rw [activateFirst_nil hl]
    exact hself
  | cons x l =>
    rw [activateFirst_cons hl]
    split
    · exact decFrame_activate (hl ▸ List.mem_cons_self)
    · exact hself

variable [DecidableEq G]

theorem decFrame_pwqDecNrInFlight (cfg : WqConfig P Q G K) (c : Core P Q G W K T) (q : Q) (barrier : Bool) :
    DecFrame c (pwqDecNrInFlight cfg c q barrier) := by
  cases barrier with
  | true =>
    have h := decFrame_activateFirst cfg c q
    exact ⟨h.curr, h.insertSeq, h.baseRef, h.ticket, h.target, h.stage, h.calls, h.next,
      h.queuedLog, h.startedLog,
      h.word, h.unlisted⟩
  | false =>
    have h :=
      decFrame_activateFirst cfg
        { c with nrActive := Function.update c.nrActive q (c.nrActive q - 1) } q
    exact ⟨h.curr, h.insertSeq, h.baseRef, h.ticket, h.target, h.stage, h.calls, h.next,
      h.queuedLog, h.startedLog,
      h.word, h.unlisted⟩

end Dec

/-- An operation that leaves unlisted works and waiting tickets alone. -/
structure Quietly (c c' : Core P Q G W K T) : Prop where
  flags : ∀ w, (∀ q, (c.flags (.work w)).data ≠ .pwq q) → c'.flags (.work w) = c.flags (.work w)
  stage : ∀ n, (c.stage n).isWaiting = true → c.stage n ≠ .unused → c'.stage n = c.stage n
  ended : ∀ n, c.over n = true → c'.over n = true

section Quiet
variable {cfg : WqConfig P Q G K} {c c' : Core P Q G W K T}

theorem Quietly.refl (c : Core P Q G W K T) : Quietly c c := ⟨fun _ _ => rfl, fun _ _ _ => rfl, fun _ h => h⟩

/-- The stage of one ticket changes, which had reached a list or was not given out. -/
theorem quietly_of_update {n : ℕ} {st : Stage W T K} (hf : ∀ w, (∀ q, (c.flags (.work w)).data ≠ .pwq q) →
    c'.flags (.work w) = c.flags (.work w)) (hs : c'.stage = Function.update c.stage n st)
    (hn : (c.stage n).isWaiting = false ∨ c.stage n = .unused) (ho : c.over n = false) : Quietly c c' where
  flags := hf
  stage := by
    intro m hm hu
    have hne : m ≠ n := by
      rintro rfl
      rcases hn with hn | hn
      · rw [hn] at hm
        exact Bool.noConfusion hm
      · exact hu hn
    rw [hs, Function.update_of_ne hne]
  ended := by
    intro m hm
    have hne : m ≠ n := by
      rintro rfl
      rw [ho] at hm
      exact Bool.noConfusion hm
    simpa [Core.over, hs, hne] using hm

variable [DecidableEq G] [DecidableEq W] [DecidableEq T] [DecidableEq Q]

theorem quietly_behind (h : CoreInv cfg c) (q : Q) {w : W} {q' : Q}
    (hw : (c.flags (.work w)).data = .pwq q') (t : T) :
    Quietly c (insertBarrierBehind cfg c q w t) := by
  have hfresh := h.staged.fresh c.next (le_refl _)
  have hstage : (insertBarrierBehind cfg c q w t).stage =
      Function.update c.stage c.next (.listed (.barrier t)) := rfl
  refine quietly_of_update ?_ hstage (Or.inr hfresh) (by simp [Core.over, hfresh, Stage.isOver])
  intro v hv
  have hne : v ≠ w := by
    rintro rfl
    exact hv q' hw
  rw [insertBarrierBehind_flags, Function.update_of_ne (by simp), Function.update_of_ne (by simpa using hne)]

variable [DecidableEq K] [DecidableEq P]

theorem quietly_front (h : CoreInv cfg c) (k : K) (r : Running Q W T) (t : T) :
    Quietly c (insertBarrierFront cfg c k r t) := by
  have hfresh := h.staged.fresh c.next (le_refl _)
  have hstage : (insertBarrierFront cfg c k r t).stage =
      Function.update c.stage c.next (.listed (.barrier t)) := rfl
  refine quietly_of_update ?_ hstage (Or.inr hfresh) (by simp [Core.over, hfresh, Stage.isOver])
  intro v _
  simp [insertBarrierFront, startBarrier, insertWork, pwqIncNrInFlight]

omit [DecidableEq P] [DecidableEq Q] [DecidableEq G] [DecidableEq W] [DecidableEq K] [DecidableEq T] in
theorem Rearranged.core (h : Rearranged cfg c c') :
    c'.flags = c.flags ∧ c'.curr = c.curr ∧ c'.stage = c.stage ∧
    c'.ticket = c.ticket ∧ c'.target = c.target := by
  rw [h.eq]
  exact ⟨rfl, rfl, rfl, rfl, rfl⟩

omit [DecidableEq G] in
theorem quietly_pick {k : K} (h : Picks cfg c k c') : Quietly c c' := by
  obtain ⟨c1, hr, rfl | ⟨src, x, q, hs, rfl⟩⟩ := h
  · obtain ⟨hf, -, hst, -, -⟩ := hr.core
    refine ⟨fun w _ => by rw [hf], fun n _ _ => by rw [hst], fun n hn => ?_⟩
    simpa only [Core.over, hst] using hn
  · obtain ⟨hf, -, hst, -, -⟩ := hr.core
    obtain ⟨b, hb⟩ := hs.head
    have hlisted := hr.inv.staged.listed x src (hb ▸ List.mem_cons_self)
    rw [hst] at hlisted
    have hstage : (startWork cfg c1 k src x q).stage = Function.update c.stage (c1.ticket x)
        (.running k) := by
      rw [← hst]
      rfl
    refine quietly_of_update ?_ hstage (Or.inl (by rw [hlisted]; rfl))
      (by simp [Core.over, hlisted, Stage.isOver])
    intro w hw
    have hne : Item.work w ≠ x := by
      rintro rfl
      exact hw q (hf ▸ hs.data)
    simp only [startWork, Function.update_of_ne hne, hf]

theorem quietly_finish (h : CoreInv cfg c) {k : K} {r : Running Q W T} (hk : c.curr k = some r) :
    Quietly c (finishWork cfg c k r) := by
  have hd := decFrame_pwqDecNrInFlight cfg { c with
    curr := Function.update c.curr k none, stage := Function.update c.stage r.ticket .finished }
      r.pwq r.barrier
  have hrun := h.staged.running k r hk
  refine quietly_of_update ?_ hd.stage (Or.inl (by rw [hrun]; rfl)) (by simp [Core.over, hrun, Stage.isOver])
  exact fun w hw => hd.unlisted _ (h.layout.unlisted hw)

/-- What `try_to_grab_pending` does to the words, apart from the DELAYED bits. -/
structure GrabFrame (cfg : WqConfig P Q G K) (c c' : Core P Q G W K T) (q : Q) (w : W) : Prop where
  self : c'.flags (.work w) = workFlags (.pool (cfg.poolOf q)) true false
  word : ∀ x, x ≠ .work w → SameButDelayed (c.flags x) (c'.flags x)
  unlisted : ∀ x, x ≠ .work w → (∀ pl, x ∉ c.lists pl) → c'.flags x = c.flags x
  curr : c'.curr = c.curr
  ticket : c'.ticket = c.ticket
  target : c'.target = c.target
  stage : c'.stage = Function.update c.stage (c.ticket (.work w)) .cancelled
  calls : c'.calls = c.calls
  next : c'.next = c.next
  insertSeq : c'.insertSeq = c.insertSeq
  baseRef : c'.baseRef = c.baseRef
  queuedLog : c'.queuedLog = c.queuedLog
  startedLog : c'.startedLog = c.startedLog

omit [DecidableEq G] in
theorem grabActivated_eq (cfg : WqConfig P Q G K) (c : Core P Q G W K T) (q : Q) (w : W) :
    (grabActivated cfg c q w).curr = c.curr ∧ (grabActivated cfg c q w).ticket = c.ticket ∧
      (grabActivated cfg c q w).target = c.target ∧ (grabActivated cfg c q w).stage = c.stage ∧
      (grabActivated cfg c q w).calls = c.calls ∧ (grabActivated cfg c q w).next = c.next ∧
      (grabActivated cfg c q w).insertSeq = c.insertSeq ∧ (grabActivated cfg c q w).baseRef = c.baseRef ∧
      (grabActivated cfg c q w).queuedLog = c.queuedLog ∧ (grabActivated cfg c q w).startedLog =
        c.startedLog := by
  unfold grabActivated
  split
  · exact ⟨rfl, rfl, rfl, rfl, rfl, rfl, rfl, rfl, rfl, rfl⟩
  · exact ⟨rfl, rfl, rfl, rfl, rfl, rfl, rfl, rfl, rfl, rfl⟩

theorem grabFrame (h : CoreInv cfg c) {q : Q} {w : W} (hq : (c.flags (.work w)).data = .pwq q) :
    GrabFrame cfg c (grabQueued cfg c q w) q w := by
  rw [grabQueued_eq h hq]
  have hd := decFrame_pwqDecNrInFlight cfg
    ((grabActivated cfg c q w).removed w (workFlags (.pool (cfg.poolOf q)) true false)) q false
  obtain ⟨e1, e2, e3, e4, e5, e6, e7, e8, e9, e10⟩ := grabActivated_eq cfg c q w
  have hgone : ∀ pl, Item.work w ∉ ((grabActivated cfg c q w).removed w
      (workFlags (.pool (cfg.poolOf q)) true false)).lists pl :=
    fun pl => ((coreInv_grabActivated h hq).layout.nodup pl).not_mem_erase
  have hflags : ∀ x, x ≠ .work w → ((grabActivated cfg c q w).removed w
      (workFlags (.pool (cfg.poolOf q)) true false)).flags x = c.flags x := by
    intro x hx
    simp [Core.removed, hx, grabActivated_flags]
  have hsub : ∀ x, x ≠ .work w → (∀ pl, x ∉ c.lists pl) → ∀ pl, x ∉ ((grabActivated cfg c q w).removed w
      (workFlags (.pool (cfg.poolOf q)) true false)).lists pl := by
    intro x hx hun pl hm
    have hm' := List.mem_of_mem_erase hm
    obtain ⟨q', hq', -⟩ := (coreInv_grabActivated h hq).layout.data_of_mem hm'
    rw [grabActivated_flags, Function.update_of_ne hx] at hq'
    obtain ⟨pl', hpl'⟩ := (h.layout.situated x).queued q' hq'
    exact hun pl' hpl'
  exact
    { self := by rw [hd.unlisted _ hgone]; simp [Core.removed]
      word := fun x hx => by
        have := hd.word x
        rwa [hflags x hx] at this
      unlisted := fun x hx hun => by rw [hd.unlisted x (hsub x hx hun), hflags x hx]
      curr := hd.curr.trans e1
      ticket := hd.ticket.trans e2
      target := hd.target.trans e3
      stage := by rw [hd.stage, Core.removed, e2, e4]
      calls := hd.calls.trans e5
      next := hd.next.trans e6
      insertSeq := hd.insertSeq.trans e7
      baseRef := hd.baseRef.trans e8
      queuedLog := hd.queuedLog.trans e9
      startedLog := hd.startedLog.trans e10 }

theorem quietly_grab (h : CoreInv cfg c) {q : Q} {w : W} (hq : (c.flags (.work w)).data = .pwq q) :
    Quietly c (grabQueued cfg c q w) := by
  have hg := grabFrame h hq
  obtain ⟨pl, hpl⟩ := (h.layout.situated _).queued q hq
  have hlisted := h.staged.listed _ pl hpl
  refine quietly_of_update ?_ hg.stage (Or.inl (by rw [hlisted]; rfl))
    (by simp [Core.over, hlisted, Stage.isOver])
  intro v hv
  have hne : Item.work v ≠ (Item.work w : Item W T) := by
    intro he
    cases he
    exact hv q hq
  exact hg.unlisted _ hne (h.layout.unlisted hv)

end Quiet

end Skp.Workqueue
