import Skp.Workqueue.Counters

/-! # Active works

`nr_active` counts the works of a pool_workqueue that are not delayed, and a delayed work waits only while
`max_active` works are active. -/
namespace Skp.Workqueue
set_option autoImplicit false
open Skp.Foundations

variable {P Q G W K T : Type} [DecidableEq P] [DecidableEq Q] [DecidableEq W] [DecidableEq K] [DecidableEq T]

/-- The works on the worklist and on scheduled lists, by their flags words. -/
def activeItems (c : Core P Q G W K T) (q : Q) : Set (Item W T) :=
  {x | x.isBarrier = false ∧ (c.flags x).data = .pwq q ∧ (c.flags x).delayed = false}

def activeWorkers (c : Core P Q G W K T) (q : Q) : Set K :=
  {k | ∃ r, c.curr k = some r ∧ r.pwq = q ∧ r.barrier = false}

structure ActiveOk (cfg : WqConfig P Q G K) (c : Core P Q G W K T) : Prop where
  tally : ∀ q, Tally (activeItems c q) (activeWorkers c q) (c.nrActive q)
  le : ∀ q, c.nrActive q ≤ cfg.maxActive q
  full : ∀ q, c.lists (.delayed q) ≠ [] → cfg.maxActive q ≤ c.nrActive q

/-- The counters of `q` have a place free for at most one delayed work. -/
structure AlmostActive (cfg : WqConfig P Q G K) (c : Core P Q G W K T) (q : Q) : Prop where
  tally : ∀ q', Tally (activeItems c q') (activeWorkers c q') (c.nrActive q')
  le : ∀ q', c.nrActive q' ≤ cfg.maxActive q'
  full : ∀ q', q' ≠ q → c.lists (.delayed q') ≠ [] → cfg.maxActive q' ≤ c.nrActive q'
  near : c.lists (.delayed q) ≠ [] → cfg.maxActive q ≤ c.nrActive q + 1

section Active
variable {cfg : WqConfig P Q G K} {c c' : Core P Q G W K T}

theorem activeOk_activateFirst (hc : CoreInv cfg c) {q : Q} (h : AlmostActive cfg c q) :
    ActiveOk cfg (activateFirst cfg c q) := by
  cases hl : c.lists (.delayed q) with
  | nil =>
    rw [activateFirst_nil hl]
    refine ⟨h.tally, h.le, fun q' hq' => h.full q' ?_ hq'⟩
    rintro rfl
    exact hq' hl
  | cons x l =>
    have hnear := h.near (by simp [hl])
    rw [activateFirst_cons hl]
    split
    · rename_i hlt
      have hx : x ∈ c.lists (.delayed q) := hl ▸ List.mem_cons_self
      have hbit := (hc.layout.situated x).delayedBit _ hx (hc.head_delayed hl)
      have hdata : (c.flags x).data = .pwq q := by
        obtain ⟨q', hq', hf⟩ := hc.layout.data_of_mem hx
        obtain rfl : q = q' := hf
        exact hq'
      have hflags : (pwqActivateDelayedWork cfg c q x).flags =
          Function.update c.flags x { c.flags x with delayed := false } := rfl
      have hnr : (pwqActivateDelayedWork cfg c q x).nrActive =
          Function.update c.nrActive q (c.nrActive q + 1) := rfl
      have hworkers : ∀ q', activeWorkers (pwqActivateDelayedWork cfg c q x) q' =
          activeWorkers c q' := fun _ => rfl
      have hitems : ∀ q' y, y ≠ x →
          (y ∈ activeItems (pwqActivateDelayedWork cfg c q x) q' ↔ y ∈ activeItems c q') := by
        intro q' y hy
        simp only [activeItems, Set.mem_ofPred_eq, hflags, Function.update_of_ne hy]
      refine ⟨fun q' => ?_, fun q' => ?_, fun q' hq' => ?_⟩
      · rw [hworkers]
        by_cases hq : q' = q
        · subst hq
          rw [hnr, Function.update_self]
          refine Tally.grow_left (h.tally q') (hitems q') (a := x) ?_ ?_
          · rintro ⟨-, -, hd⟩
            rw [hbit] at hd
            exact Bool.noConfusion hd
          · refine ⟨hc.head_delayed hl, ?_, ?_⟩
            · simp only [hflags, Function.update_self, hdata]
            · simp only [hflags, Function.update_self]
        · rw [hnr, Function.update_of_ne hq]
          refine (h.tally q').congr (fun y => ?_) (fun _ => Iff.rfl)
          by_cases hy : y = x
          · subst hy
            refine iff_of_false ?_ ?_
            · rintro ⟨-, hd, -⟩
              simp only [hflags, Function.update_self, hdata] at hd
              cases hd
              exact hq rfl
            · rintro ⟨-, hd, -⟩
              rw [hdata] at hd
              cases hd
              exact hq rfl
          · exact hitems q' y hy
      · rw [hnr]
        by_cases hq : q' = q
        · subst hq
          rw [Function.update_self]
          exact hlt
        · rw [Function.update_of_ne hq]
          exact h.le q'
      · rw [hnr]
        by_cases hq : q' = q
        · subst hq
          rw [Function.update_self]
          exact hnear
        · rw [Function.update_of_ne hq]
          refine h.full q' hq fun hnil => hq' ?_
          simp [pwqActivateDelayedWork, moveLinkedWorks, hq, hnil]
    · rename_i hlt
      refine ⟨h.tally, h.le, fun q' hq' => ?_⟩
      by_cases hq : q' = q
      · subst hq
        omega
      · exact h.full q' hq hq'

/-- The first part of `pwq_dec_nr_in_flight`. -/
def Core.decremented (c : Core P Q G W K T) (q : Q) (barrier : Bool) : Core P Q G W K T :=
  if barrier then c else { c with nrActive := Function.update c.nrActive q (c.nrActive q - 1) }

omit [DecidableEq P] [DecidableEq W] [DecidableEq K] [DecidableEq T] in
theorem coreInv_decremented (hc : CoreInv cfg c) (q : Q) (barrier : Bool) :
    CoreInv cfg (c.decremented q barrier) := by
  cases barrier with
  | true => exact hc
  | false => exact hc.counters ⟨rfl, rfl, rfl, rfl, rfl, rfl, rfl⟩ rfl

variable [DecidableEq G]

theorem activeOk_dec (hc : CoreInv cfg c) {q : Q} {barrier : Bool}
    (h : AlmostActive cfg (c.decremented q barrier) q) :
    ActiveOk cfg (pwqDecNrInFlight cfg c q barrier) := by
  have h1 := activeOk_activateFirst (coreInv_decremented hc q barrier) h
  exact ⟨h1.tally, h1.le, h1.full⟩

omit [DecidableEq P] [DecidableEq G] [DecidableEq W] [DecidableEq K] [DecidableEq T] in
/-- A work that counted as active has gone; `nr` is `nr_active` after its decrement. -/
theorem almostActive_work {q : Q} {nr : Q → ℕ} (hnr : Function.update c.nrActive q (c.nrActive q - 1) = nr)
    (htally : ∀ q', Tally (activeItems c q') (activeWorkers c q') (nr q'))
    (hle : ∀ q', nr q' ≤ cfg.maxActive q')
    (hfull : ∀ q', q' ≠ q → c.lists (.delayed q') ≠ [] → cfg.maxActive q' ≤ nr q')
    (hnear : c.lists (.delayed q) ≠ [] → cfg.maxActive q ≤ nr q + 1) :
    AlmostActive cfg (c.decremented q false) q := by
  subst hnr
  exact ⟨htally, hle, hfull, hnear⟩

omit [DecidableEq P] [DecidableEq G] [DecidableEq W] [DecidableEq K] [DecidableEq T] in
theorem ActiveOk.almost (h : ActiveOk cfg c) (q : Q) : AlmostActive cfg (c.decremented q true) q :=
  ⟨h.tally, h.le, fun q' _ => h.full q', fun hne => (h.full q hne).trans (Nat.le_succ _)⟩

omit [DecidableEq P] [DecidableEq Q] [DecidableEq G] [DecidableEq W] [DecidableEq K] [DecidableEq T] in
theorem ActiveOk.congr (h : ActiveOk cfg c) (hitems : ∀ q x, x ∈ activeItems c' q ↔ x ∈ activeItems c q)
    (hworkers : ∀ q k, k ∈ activeWorkers c' q ↔ k ∈ activeWorkers c q) (hnr : c'.nrActive = c.nrActive)
    (hdelayed : ∀ q, c'.lists (.delayed q) ≠ [] → c.lists (.delayed q) ≠ []) : ActiveOk cfg c' where
  tally := by
    intro q
    rw [hnr]
    exact (h.tally q).congr (hitems q) (hworkers q)
  le := by
    intro q
    rw [hnr]
    exact h.le q
  full := by
    intro q hq
    rw [hnr]
    exact h.full q (hdelayed q hq)

theorem activeOk_queue (h : ActiveOk cfg c) {q : Q} {w : W} {n : ℕ}
    (hw : ∀ q, (c.flags (.work w)).data ≠ .pwq q) : ActiveOk cfg (queueInsert cfg c q w n) := by
  have hflags := queueInsert_flags cfg c q w n
  have hlists := queueInsert_lists cfg c q w n
  have hold : ∀ q', Item.work w ∉ activeItems c q' := fun q' hm => hw q' hm.2.1
  have hitems : ∀ q' y, y ≠ Item.work w →
      (y ∈ activeItems (queueInsert cfg c q w n) q' ↔ y ∈ activeItems c q') := by
    intro q' y hy
    simp only [activeItems, Set.mem_ofPred_eq, hflags, Function.update_of_ne hy]
  have hworkers : ∀ q', activeWorkers (queueInsert cfg c q w n) q' = activeWorkers c q' := fun _ => rfl
  by_cases hm : c.nrActive q < cfg.maxActive q
  · have hplace : queuePlace cfg c q = .worklist (cfg.poolOf q) := by simp [queuePlace, hm]
    have hnr : (queueInsert cfg c q w n).nrActive = Function.update c.nrActive q (c.nrActive q + 1) := by
      simp [queueInsert, insertWork, pwqIncNrInFlight, hm]
    refine ⟨fun q' => ?_, fun q' => ?_, fun q' hq' => ?_⟩
    · rw [hworkers, hnr]
      by_cases hq : q' = q
      · subst hq
        rw [Function.update_self]
        refine Tally.grow_left (h.tally q') (hitems q') (hold q') ⟨rfl, ?_, ?_⟩
        · simp [hflags]
        · simp [hflags, hplace, Place.isDelayed]
      · rw [Function.update_of_ne hq]
        refine (h.tally q').congr (fun y => ?_) (fun _ => Iff.rfl)
        by_cases hy : y = .work w
        · subst hy
          refine iff_of_false ?_ (hold q')
          rintro ⟨-, hd, -⟩
          simp only [hflags, Function.update_self] at hd
          cases hd
          exact hq rfl
        · exact hitems q' y hy
    · rw [hnr]
      by_cases hq : q' = q
      · subst hq
        rw [Function.update_self]
        exact hm
      · rw [Function.update_of_ne hq]
        exact h.le q'
    · rw [hlists, hplace, Function.update_of_ne (by simp)] at hq'
      have hfull := h.full q' hq'
      rw [hnr]
      by_cases hq : q' = q
      · subst hq
        omega
      · rw [Function.update_of_ne hq]
        exact hfull
  · have hplace : queuePlace cfg c q = .delayed q := by simp [queuePlace, hm]
    have hnr : (queueInsert cfg c q w n).nrActive = c.nrActive := by
      simp [queueInsert, insertWork, pwqIncNrInFlight, hm]
    refine ⟨fun q' => ?_, fun q' => ?_, fun q' hq' => ?_⟩
    · rw [hworkers, hnr]
      refine (h.tally q').congr (fun y => ?_) (fun _ => Iff.rfl)
      by_cases hy : y = .work w
      · subst hy
        refine iff_of_false ?_ (hold q')
        rintro ⟨-, -, hd⟩
        simp [hflags, hplace, Place.isDelayed] at hd
      · exact hitems q' y hy
    · rw [hnr]
      exact h.le q'
    · rw [hnr]
      by_cases hq : q' = q
      · subst hq
        exact not_lt.mp hm
      · rw [hlists, hplace, Function.update_of_ne (by simpa using hq)] at hq'
        exact h.full q' hq'

omit [DecidableEq P] [DecidableEq Q] [DecidableEq G] [DecidableEq K] in
/-- A barrier does not count, and no delayed list begins with it. -/
theorem activeOk_barrier (h : ActiveOk cfg c) {t : T} {pl : Place P Q K} {q : Q} {n : ℕ}
    (hi : Inserted cfg c c' (.barrier t) pl q n) (hnr : c'.nrActive = c.nrActive)
    (hdelayed : ∀ q, c'.lists (.delayed q) ≠ [] → c.lists (.delayed q) ≠ []) : ActiveOk cfg c' := by
  refine h.congr (fun q' y => ?_) (fun q' k => ?_) hnr hdelayed
  · by_cases hy : y = .barrier t
    · subst hy
      exact iff_of_false (fun hm => nomatch hm.1) (fun hm => nomatch hm.1)
    · simp only [activeItems, Set.mem_ofPred_eq, (hi.flags y hy).1.1, (hi.flags y hy).2]
  · simp only [activeWorkers, Set.mem_ofPred_eq, hi.curr]

omit [DecidableEq G] in
theorem activeOk_start (hc : CoreInv cfg c) (h : ActiveOk cfg c) {k : K} {src : Place P Q K}
    {x : Item W T} {q : Q}
    (hs : Starts cfg c k src x q) : ActiveOk cfg (startWork cfg c k src x q) := by
  obtain ⟨b, hb⟩ := hs.head
  have hx : x ∈ c.lists src := hb ▸ List.mem_cons_self
  have hbar : (c.flags x).barrier = x.isBarrier := (hc.layout.situated x).barrierBit src hx
  have hitems : ∀ q' y, y ≠ x → (y ∈ activeItems (startWork cfg c k src x q) q' ↔ y ∈ activeItems c q') := by
    intro q' y hy
    simp only [activeItems, Set.mem_ofPred_eq, startWork, Function.update_of_ne hy]
  have hworkers : ∀ q' k', k' ≠ k →
      (k' ∈ activeWorkers (startWork cfg c k src x q) q' ↔ k' ∈ activeWorkers c q') := by
    intro q' k' hk
    simp only [activeWorkers, Set.mem_ofPred_eq, startWork, Function.update_of_ne hk]
  have hgone : ∀ q', x ∉ activeItems (startWork cfg c k src x q) q' := by
    rintro q' ⟨-, hd, -⟩
    simp [startWork, workFlags] at hd
  have hidle : ∀ q', k ∉ activeWorkers c q' := by
    rintro q' ⟨r, hr, -⟩
    rw [hs.idle] at hr
    cases hr
  -- the item counted before the start exactly when the worker counts after it
  have hwas : ∀ q', x ∈ activeItems c q' ↔ q = q' ∧ x.isBarrier = false := by
    intro q'
    refine ⟨fun hm => ⟨?_, hm.1⟩, fun hm => ⟨hm.2, ?_, ?_⟩⟩
    · have := hm.2.1
      rw [hs.data] at this
      cases this
      rfl
    · rw [hs.data, hm.1]
    · rw [(hc.layout.situated x).delayedBit src hx hm.2, hs.source.not_delayed]
  have hnow : ∀ q', k ∈ activeWorkers (startWork cfg c k src x q) q' ↔ q = q' ∧ x.isBarrier = false := by
    intro q'
    simp only [activeWorkers, Set.mem_ofPred_eq, startWork, Function.update_self, Option.some.injEq,
      exists_eq_left',
      hbar]
  refine ⟨fun q' => ?_, h.le, fun q' hq' => h.full q' ?_⟩
  · by_cases hm : x ∈ activeItems c q'
    · have h1 := Tally.shrink_left (h.tally q') (hitems q') hm (hgone q')
      have hpos := Tally.pos_left (h.tally q') hm
      have h2 := h1.grow_right (hworkers q') (hidle q') ((hnow q').mpr ((hwas q').mp hm))
      rwa [Nat.sub_add_cancel hpos] at h2
    · refine (h.tally q').congr (fun y => ?_) (fun k' => ?_)
      · by_cases hy : y = x
        · subst hy
          exact iff_of_false (hgone q') hm
        · exact hitems q' y hy
      · by_cases hk : k' = k
        · subst hk
          exact iff_of_false (fun hn => hm ((hwas q').mpr ((hnow q').mp hn))) (hidle q')
        · exact hworkers q' k' hk
  · have hne : Place.delayed q' ≠ src := by
      rintro rfl
      exact Bool.noConfusion hs.source.not_delayed
    simpa only [startWork, Function.update_of_ne hne] using hq'

omit [DecidableEq P] [DecidableEq G] [DecidableEq W] [DecidableEq T] in
theorem almostActive_stopped (h : ActiveOk cfg c) {k : K} {r : Running Q W T} (hk : c.curr k = some r) :
    AlmostActive cfg ((c.stopped k r.ticket).decremented r.pwq r.barrier) r.pwq := by
  have hworkers : ∀ q' k', k' ≠ k →
      (k' ∈ activeWorkers (c.stopped k r.ticket) q' ↔ k' ∈ activeWorkers c q') := by
    intro q' k' hk'
    simp only [activeWorkers, Set.mem_ofPred_eq, Core.stopped, Function.update_of_ne hk']
  have hgone : ∀ q', k ∉ activeWorkers (c.stopped k r.ticket) q' := by
    rintro q' ⟨r', hr', -⟩
    simp [Core.stopped] at hr'
  have hwas : ∀ q', k ∈ activeWorkers c q' ↔ r.pwq = q' ∧ r.barrier = false := by
    intro q'
    simp only [activeWorkers, Set.mem_ofPred_eq, hk, Option.some.injEq, exists_eq_left']
  have hother : ∀ q', k ∉ activeWorkers c q' →
      Tally (activeItems (c.stopped k r.ticket) q') (activeWorkers (c.stopped k r.ticket) q')
        (c.nrActive q') := by
    intro q' hnot
    refine (h.tally q').congr (fun _ => Iff.rfl) (fun k' => ?_)
    by_cases hk' : k' = k
    · subst hk'
      exact iff_of_false (hgone q') hnot
    · exact hworkers q' k' hk'
  cases hb : r.barrier with
  | true =>
    refine ActiveOk.almost ⟨fun q' => hother q' ?_, h.le, h.full⟩ r.pwq
    rw [hwas]
    simp [hb]
  | false =>
    have hmem : k ∈ activeWorkers c r.pwq := (hwas r.pwq).mpr ⟨rfl, hb⟩
    have hpos := Tally.pos_right (h.tally r.pwq) hmem
    refine almostActive_work rfl (fun q' => ?_) (fun q' => ?_) (fun q' hq' hne => ?_) (fun hne => ?_)
    · by_cases hq : q' = r.pwq
      · subst hq
        simp only [Function.update_self]
        exact Tally.shrink_right (h.tally r.pwq) (hworkers r.pwq) hmem (hgone r.pwq)
      · simp only [Function.update_of_ne hq]
        refine hother q' ?_
        rw [hwas]
        exact fun hm => hq hm.1.symm
    · by_cases hq : q' = r.pwq
      · subst hq
        simp only [Function.update_self]
        exact (Nat.sub_le _ _).trans (h.le r.pwq)
      · simp only [Function.update_of_ne hq]
        exact h.le q'
    · simp only [Function.update_of_ne hq']
      exact h.full q' hne
    · have hfull := h.full r.pwq hne
      simp only [Function.update_self]
      have hs : (c.stopped k r.ticket).nrActive r.pwq = c.nrActive r.pwq := rfl
      omega

omit [DecidableEq G] in
theorem grabActivated_nrActive (cfg : WqConfig P Q G K) (c : Core P Q G W K T) (q : Q) (w : W) :
    (grabActivated cfg c q w).nrActive =
      if (c.flags (.work w)).delayed then Function.update c.nrActive q (c.nrActive q + 1)
        else c.nrActive := by
  unfold grabActivated
  split
  · rfl
  · rfl

omit [DecidableEq G] in
theorem grabActivated_delayed (cfg : WqConfig P Q G K) (c : Core P Q G W K T) {q q' : Q}
    (hq : q' ≠ q) (w : W) :
    (grabActivated cfg c q w).lists (.delayed q') = c.lists (.delayed q') := by
  unfold grabActivated
  split
  · simp [pwqActivateDelayedWork, moveLinkedWorks, hq]
  · rfl

omit [DecidableEq G] in
theorem almostActive_removed (hc : CoreInv cfg c) (h : ActiveOk cfg c) {q : Q} {w : W}
    (hq : (c.flags (.work w)).data = .pwq q) : AlmostActive cfg (((grabActivated cfg c q w).removed w
      (workFlags (.pool (cfg.poolOf q)) true false)).decremented q false) q := by
  have hitems : ∀ q' y, y ≠ Item.work w → (y ∈ activeItems ((grabActivated cfg c q w).removed w
      (workFlags (.pool (cfg.poolOf q)) true false)) q' ↔ y ∈ activeItems c q') := by
    intro q' y hy
    simp only [activeItems, Set.mem_ofPred_eq, Core.removed, Function.update_of_ne hy, grabActivated_flags]
  have hgone : ∀ q', Item.work w ∉ activeItems ((grabActivated cfg c q w).removed w
      (workFlags (.pool (cfg.poolOf q)) true false)) q' := by
    rintro q' ⟨-, hd, -⟩
    simp [Core.removed, workFlags] at hd
  have hworkers : ∀ q', activeWorkers ((grabActivated cfg c q w).removed w
      (workFlags (.pool (cfg.poolOf q)) true false)) q' = activeWorkers c q' := by
    intro q'
    unfold activeWorkers
    rw [Core.removed, (grabActivated_eq cfg c q w).1]
  have hnr : ((grabActivated cfg c q w).removed w (workFlags (.pool (cfg.poolOf q)) true false)).nrActive =
      if (c.flags (.work w)).delayed then Function.update c.nrActive q (c.nrActive q + 1) else c.nrActive :=
    grabActivated_nrActive cfg c q w
  have hother : ∀ q', Item.work w ∉ activeItems c q' → Tally (activeItems ((grabActivated cfg c q w).removed w
      (workFlags (.pool (cfg.poolOf q)) true false)) q') (activeWorkers c q') (c.nrActive q') := by
    intro q' hnot
    refine (h.tally q').congr (fun y => ?_) (fun _ => Iff.rfl)
    by_cases hy : y = .work w
    · subst hy
      exact iff_of_false (hgone q') hnot
    · exact hitems q' y hy
  have hnot : ∀ q', q' ≠ q → Item.work w ∉ activeItems c q' := by
    rintro q' hne ⟨-, hd, -⟩
    rw [hq] at hd
    cases hd
    exact hne rfl
  -- the counter of `q` after its decrement, and the others
  have hdec : Function.update ((grabActivated cfg c q w).removed w
      (workFlags (.pool (cfg.poolOf q)) true false)).nrActive q (((grabActivated cfg c q w).removed w
      (workFlags (.pool (cfg.poolOf q)) true false)).nrActive q - 1) = fun q' =>
      if q' = q then (if (c.flags (.work w)).delayed then c.nrActive q else c.nrActive q - 1)
        else c.nrActive q' := by
    funext q'
    rw [hnr]
    by_cases hq' : q' = q
    · subst hq'
      cases (c.flags (.work w)).delayed <;> simp
    · cases (c.flags (.work w)).delayed <;> simp [hq']
  refine almostActive_work hdec (fun q' => ?_) (fun q' => ?_) (fun q' hq' hne => ?_) (fun hne => ?_)
  · rw [hworkers]
    by_cases hq' : q' = q
    · subst hq'
      rw [if_pos rfl]
      cases hd : (c.flags (.work w)).delayed with
      | true =>
        rw [if_pos rfl]
        refine hother q' ?_
        rintro ⟨-, -, hf⟩
        rw [hd] at hf
        exact Bool.noConfusion hf
      | false =>
        rw [if_neg (by simp)]
        exact Tally.shrink_left (h.tally q') (hitems q') ⟨rfl, hq, hd⟩ (hgone q')
    · rw [if_neg hq']
      exact hother q' (hnot q' hq')
  · have hle := h.le q'
    by_cases hq' : q' = q
    · subst hq'
      rw [if_pos rfl]
      split
      · exact hle
      · exact (Nat.sub_le _ _).trans hle
    · rw [if_neg hq']
      exact hle
  · rw [if_neg hq']
    refine h.full q' fun hnil => hne ?_
    show ((grabActivated cfg c q w).lists (.delayed q')).erase (.work w) = []
    rw [grabActivated_delayed cfg c hq', hnil]
    rfl
  · rw [if_pos rfl]
    cases hd : (c.flags (.work w)).delayed with
    | true =>
      obtain ⟨pl', hpl'⟩ := (hc.layout.situated (.work w)).queued q hq
      have hbit := (hc.layout.situated _).delayedBit pl' hpl' rfl
      obtain ⟨q1, hq1, hfit⟩ := hc.layout.data_of_mem hpl'
      rw [hq] at hq1
      cases hq1
      rw [hd] at hbit
      cases pl' with
      | worklist p => exact Bool.noConfusion hbit
      | delayed q2 =>
        obtain rfl : q2 = q := hfit
        rw [if_pos rfl]
        exact (h.full q2 (List.ne_nil_of_mem hpl')).trans (Nat.le_succ _)
      | scheduled k => exact Bool.noConfusion hbit
    | false =>
      have hact : grabActivated cfg c q w = c := by simp [grabActivated, hd]
      have hfull := h.full q fun hnil => hne (by
        show ((grabActivated cfg c q w).lists (.delayed q)).erase (.work w) = []
        rw [hact, hnil]
        rfl)
      rw [if_neg (by simp)]
      omega

theorem ActiveOk.move {allow : Prop} (hc : CoreInv cfg c) (h : ActiveOk cfg c)
    (hm : CoreMove cfg allow c c') :
    ActiveOk cfg c' := by
  cases hm with
  | base q hb => exact ⟨h.tally, h.le, h.full⟩
  | refcnt ha q v => exact ⟨h.tally, h.le, h.full⟩
  | @word w f hw hf =>
    refine h.congr (fun q x => ?_) (fun _ _ => Iff.rfl) rfl (fun _ hne => hne)
    by_cases hx : x = .work w
    · subst hx
      refine iff_of_false (fun hm => ?_) (fun hm => hw q hm.2.1)
      have hd := hm.2.1
      simp only [Core.setFlags, Function.update_self] at hd
      exact hf q hd
    · simp only [activeItems, Set.mem_ofPred_eq, Core.setFlags, Function.update_of_ne hx]
  | restage hn hlt hle => exact ⟨h.tally, h.le, h.full⟩
  | queue hw hn => exact activeOk_queue h hw
  | @behind q w t hq ht =>
    obtain ⟨pl, -, hi⟩ := insertBarrierBehind_inserted hc hq ht
    refine activeOk_barrier h hi rfl fun q' hne hnil => hne ?_
    simp [insertBarrierBehind, startBarrier, insertWork, hnil, insertBehind]
  | @front k r t hk ht =>
    refine activeOk_barrier h (insertBarrierFront_inserted hc hk ht) rfl fun q' hne => ?_
    simpa [insertBarrierFront, startBarrier, insertWork] using hne
  | pick hp =>
    obtain ⟨c1, hr, hc'⟩ := (picks_of_pickWork hc hp).2
    have h1 : ActiveOk cfg c1 := by
      refine h.congr (fun q x => ?_) (fun q k => ?_) ?_ (fun q hne => hr.delayed q ▸ hne)
      · simp only [activeItems, Set.mem_ofPred_eq, hr.core.1]
      · simp only [activeWorkers, Set.mem_ofPred_eq, hr.core.2.1]
      · rw [hr.eq]
    rcases hc' with rfl | ⟨src, x, q, hs, rfl⟩
    · exact h1
    · exact activeOk_start hr.inv h1 hs
  | @called k r hk =>
    refine h.congr (fun _ _ => Iff.rfl) (fun q k' => ?_) rfl (fun _ hne => hne)
    by_cases hk' : k' = k
    · subst hk'
      simp [activeWorkers, hk]
    · simp [activeWorkers, hk']
  | finish hk => exact activeOk_dec (coreInv_stopped hc hk) (almostActive_stopped h hk)
  | grab hq =>
    rw [grabQueued_eq hc hq]
    exact activeOk_dec (coreInv_grabRemoved hc hq) (almostActive_removed hc h hq)

end Active

end Skp.Workqueue
