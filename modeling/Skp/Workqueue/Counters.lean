import Skp.Foundations.Tally
import Skp.Workqueue.Reach

/-! # The counters of the pool_workqueues

`nr_active`, `refcnt`, `insert_seq` and `remove_seq` against the works that are on lists and executing. -/
namespace Skp.Workqueue
set_option autoImplicit false
open Skp.Foundations

variable {P Q G W K T : Type} [DecidableEq Q] [DecidableEq G]

/-! ## Works in flight -/

/-- The items on lists for the pool_workqueues of `S`, by their flags words. -/
def flightItems (c : Core P Q G W K T) (S : Set Q) : Set (Item W T) :=
  {x | ∃ q ∈ S, (c.flags x).data = .pwq q}

/-- The workers that execute for the pool_workqueues of `S`. -/
def flightWorkers (c : Core P Q G W K T) (S : Set Q) : Set K := {k | ∃ r, c.curr k = some r ∧ r.pwq ∈ S}

def InFlight (c : Core P Q G W K T) (S : Set Q) (n : ℕ) : Prop :=
  Tally (flightItems c S) (flightWorkers c S) n

/-- Nothing comes in flight or leaves. -/
structure FlightKept (c c' : Core P Q G W K T) : Prop where
  flight : ∀ S n, InFlight c S n → InFlight c' S n
  insertSeq : c'.insertSeq = c.insertSeq
  removeSeq : c'.removeSeq = c.removeSeq

/-- One more is in flight for `q`, and the counters say so. -/
structure FlightGrown (cfg : WqConfig P Q G K) (c c' : Core P Q G W K T) (q : Q) : Prop where
  flight : ∀ S n, q ∈ S → InFlight c S n → InFlight c' S (n + 1)
  other : ∀ S n, q ∉ S → InFlight c S n → InFlight c' S n
  refcnt : c'.refcnt = Function.update c.refcnt q (c.refcnt q + 1)
  baseRef : c'.baseRef = c.baseRef
  insertSeq : c'.insertSeq = Function.update c.insertSeq (cfg.wqOf q) (c.insertSeq (cfg.wqOf q) + 1)
  removeSeq : c'.removeSeq = c.removeSeq

/-- One that was in flight for `q` is no more, and the counters say so. -/
structure FlightShrunk (cfg : WqConfig P Q G K) (c c' : Core P Q G W K T) (q : Q) : Prop where
  flight : ∀ S n, q ∈ S → InFlight c S n → 0 < n ∧ InFlight c' S (n - 1)
  other : ∀ S n, q ∉ S → InFlight c S n → InFlight c' S n
  refcnt : c'.refcnt = Function.update c.refcnt q (c.refcnt q - 1)
  baseRef : c'.baseRef = c.baseRef
  insertSeq : c'.insertSeq = c.insertSeq
  removeSeq : c'.removeSeq = Function.update c.removeSeq (cfg.wqOf q) (c.removeSeq (cfg.wqOf q) + 1)

section Flight
variable {cfg : WqConfig P Q G K} {c c' : Core P Q G W K T}

omit [DecidableEq Q] [DecidableEq G] in
/-- What a worker executes is the same or differs in `called` only. -/
theorem inFlight_congr {S : Set Q} {n : ℕ} (h : InFlight c S n)
    (hdata : ∀ x q, (c'.flags x).data = .pwq q ↔ (c.flags x).data = .pwq q)
    (hcurr : ∀ k, (∃ r, c'.curr k = some r ∧ r.pwq ∈ S) ↔ ∃ r, c.curr k = some r ∧ r.pwq ∈ S) :
    InFlight c' S n := by
  refine Tally.congr h (fun x => ?_) (fun k => hcurr k)
  simp only [flightItems, Set.mem_ofPred_eq, hdata]

variable [DecidableEq W] [DecidableEq T]

omit [DecidableEq Q] [DecidableEq G] in
/-- The word of an item that was on no list gets the pool_workqueue `q`. -/
theorem inFlight_inserted {S : Set Q} {n : ℕ} {x : Item W T} {pl : Place P Q K} {q : Q} {m : ℕ}
    (hc : CoreInv cfg c)
    (hi : Inserted cfg c c' x pl q m) (h : InFlight c S n) :
    (q ∈ S → InFlight c' S (n + 1)) ∧ (q ∉ S → InFlight c' S n) := by
  have hne : ∀ y, y ≠ x → (y ∈ flightItems c' S ↔ y ∈ flightItems c S) := by
    intro y hy
    simp only [flightItems, Set.mem_ofPred_eq, (hi.flags y hy).1.1]
  have hx : x ∉ flightItems c S := by
    rintro ⟨q', -, hq'⟩
    obtain ⟨pl', hpl'⟩ := (hc.layout.situated x).queued q' hq'
    exact hi.unlisted pl' hpl'
  have hworkers : flightWorkers c' S = flightWorkers c S := by
    unfold flightWorkers
    rw [hi.curr]
  unfold InFlight
  rw [hworkers]
  refine ⟨fun hq => ?_, fun hq => ?_⟩
  · exact Tally.grow_left h hne hx ⟨q, hq, hi.data⟩
  · refine Tally.congr h (fun y => ?_) (fun _ => Iff.rfl)
    by_cases hy : y = x
    · subst hy
      refine iff_of_false ?_ hx
      rintro ⟨q', hq', hd⟩
      rw [hi.data] at hd
      cases hd
      exact hq hq'
    · exact hne y hy

theorem flightGrown_of_inserted {x : Item W T} {pl : Place P Q K} {q : Q} {m : ℕ} (hc : CoreInv cfg c)
    (hi : Inserted cfg c c' x pl q m) (hr : c'.refcnt = Function.update c.refcnt q (c.refcnt q + 1))
    (hb : c'.baseRef = c.baseRef)
    (his : c'.insertSeq = Function.update c.insertSeq (cfg.wqOf q) (c.insertSeq (cfg.wqOf q) + 1))
    (hrs : c'.removeSeq = c.removeSeq) : FlightGrown cfg c c' q where
  flight := fun _ _ hq h => (inFlight_inserted hc hi h).1 hq
  other := fun _ _ hq h => (inFlight_inserted hc hi h).2 hq
  refcnt := hr
  baseRef := hb
  insertSeq := his
  removeSeq := hrs

variable [DecidableEq P] [DecidableEq K]

omit [DecidableEq G] in
theorem inFlight_start {S : Set Q} {n : ℕ} {k : K} {src : Place P Q K} {x : Item W T} {q : Q}
    (hs : Starts cfg c k src x q) (h : InFlight c S n) : InFlight (startWork cfg c k src x q) S n := by
  have hitems : ∀ y, y ≠ x → (y ∈ flightItems (startWork cfg c k src x q) S ↔ y ∈ flightItems c S) := by
    intro y hy
    simp only [flightItems, Set.mem_ofPred_eq, startWork, Function.update_of_ne hy]
  have hworkers : ∀ k', k' ≠ k →
      (k' ∈ flightWorkers (startWork cfg c k src x q) S ↔ k' ∈ flightWorkers c S) := by
    intro k' hk
    simp only [flightWorkers, Set.mem_ofPred_eq, startWork, Function.update_of_ne hk]
  have hx : x ∉ flightItems (startWork cfg c k src x q) S := by
    rintro ⟨q', -, hq'⟩
    simp [startWork, workFlags] at hq'
  have hk : k ∉ flightWorkers c S := by
    rintro ⟨r, hr, -⟩
    rw [hs.idle] at hr
    cases hr
  by_cases hq : q ∈ S
  · have h1 := Tally.shrink_left h hitems ⟨q, hq, hs.data⟩ hx
    have hpos := Tally.pos_left h (show x ∈ flightItems c S from ⟨q, hq, hs.data⟩)
    have hk' : k ∈ flightWorkers (startWork cfg c k src x q) S :=
      ⟨⟨x, q, (c.flags x).barrier, false, c.ticket x, c.chain x⟩,
        by simp only [startWork, Function.update_self], hq⟩
    have h2 := h1.grow_right hworkers hk hk'
    rwa [Nat.sub_add_cancel hpos] at h2
  · refine Tally.congr h (fun y => ?_) (fun k' => ?_)
    · by_cases hy : y = x
      · subst hy
        refine iff_of_false hx ?_
        rintro ⟨q', hq', hd⟩
        rw [hs.data] at hd
        cases hd
        exact hq hq'
      · exact hitems y hy
    · by_cases hk' : k' = k
      · subst hk'
        refine iff_of_false ?_ hk
        rintro ⟨r, hr, hr'⟩
        simp only [startWork, Function.update_self, Option.some.injEq] at hr
        subst hr
        exact hq hr'
      · exact hworkers k' hk'

omit [DecidableEq G] in
theorem flightKept_pick {k : K} (hp : Picks cfg c k c') :
    FlightKept c c' ∧ c'.refcnt = c.refcnt ∧ c'.baseRef = c.baseRef := by
  obtain ⟨c1, hr, hc'⟩ := hp
  have h1 : ∀ S n, InFlight c S n → InFlight c1 S n := by
    intro S n h
    rw [hr.eq]
    exact h
  rcases hc' with rfl | ⟨src, x, q, hs, rfl⟩
  · refine ⟨⟨h1, ?_, ?_⟩, ?_, ?_⟩ <;> rw [hr.eq]
  · refine ⟨⟨fun S n h => inFlight_start hs (h1 S n h), ?_, ?_⟩, ?_, ?_⟩ <;>
      simp only [startWork] <;> rw [hr.eq]

/-- `pwq_dec_nr_in_flight` itself moves works only, and counts one off. -/
theorem inFlight_dec {S : Set Q} {n : ℕ} (q : Q) (barrier : Bool) (h : InFlight c S n) :
    InFlight (pwqDecNrInFlight cfg c q barrier) S n := by
  have hd := decFrame_pwqDecNrInFlight cfg c q barrier
  refine inFlight_congr h (fun x q' => ?_) (fun k => ?_)
  · rw [(hd.word x).data]
  · rw [hd.curr]

omit [DecidableEq G] in
theorem activateFirst_counters (cfg : WqConfig P Q G K) (c : Core P Q G W K T) (q : Q) :
    (activateFirst cfg c q).refcnt = c.refcnt ∧ (activateFirst cfg c q).removeSeq = c.removeSeq := by
  unfold activateFirst
  split
  · exact ⟨rfl, rfl⟩
  · split
    · exact ⟨rfl, rfl⟩
    · exact ⟨rfl, rfl⟩

theorem pwqDecNrInFlight_counters (cfg : WqConfig P Q G K) (c : Core P Q G W K T) (q : Q) (barrier : Bool) :
    (pwqDecNrInFlight cfg c q barrier).refcnt = Function.update c.refcnt q (c.refcnt q - 1) ∧
      (pwqDecNrInFlight cfg c q barrier).removeSeq =
        Function.update c.removeSeq (cfg.wqOf q) (c.removeSeq (cfg.wqOf q) + 1) := by
  cases barrier with
  | true =>
    obtain ⟨h1, h2⟩ := activateFirst_counters cfg c q
    simp only [pwqDecNrInFlight, if_true, h1, h2, and_self]
  | false =>
    obtain ⟨h1, h2⟩ :=
      activateFirst_counters cfg
        { c with nrActive := Function.update c.nrActive q (c.nrActive q - 1) } q
    simp only [pwqDecNrInFlight, Bool.false_eq_true, if_false, h1, h2, and_self]

theorem flightShrunk_finish {k : K} {r : Running Q W T} (hk : c.curr k = some r) :
    FlightShrunk cfg c (finishWork cfg c k r) r.pwq := by
  have hd := decFrame_pwqDecNrInFlight cfg { c with
    curr := Function.update c.curr k none, stage := Function.update c.stage r.ticket .finished }
      r.pwq r.barrier
  obtain ⟨hr, hs⟩ := pwqDecNrInFlight_counters cfg { c with
    curr := Function.update c.curr k none, stage := Function.update c.stage r.ticket .finished }
      r.pwq r.barrier
  have hworkers : ∀ S k', k' ≠ k → (k' ∈ flightWorkers { c with
      curr := Function.update c.curr k none, stage := Function.update c.stage r.ticket .finished } S ↔
      k' ∈ flightWorkers c S) := by
    intro S k' hk'
    simp only [flightWorkers, Set.mem_ofPred_eq, Function.update_of_ne hk']
  have hgone : ∀ S, k ∉ flightWorkers { c with
      curr := Function.update c.curr k none, stage := Function.update c.stage r.ticket .finished } S := by
    rintro S ⟨r', hr', -⟩
    simp at hr'
  refine ⟨fun S n hq h => ?_, fun S n hq h => ?_, hr, hd.baseRef, hd.insertSeq, hs⟩
  · have hmem : k ∈ flightWorkers c S := ⟨r, hk, hq⟩
    exact ⟨Tally.pos_right h hmem, inFlight_dec _ _ (Tally.shrink_right h (hworkers S) hmem (hgone S))⟩
  · refine inFlight_dec _ _ (Tally.congr h (fun _ => Iff.rfl) fun k' => ?_)
    by_cases hk' : k' = k
    · subst hk'
      refine iff_of_false (hgone S) ?_
      rintro ⟨r', hr', hr''⟩
      rw [hk] at hr'
      cases hr'
      exact hq hr''
    · exact hworkers S k' hk'

theorem flightShrunk_grab (hc : CoreInv cfg c) {q : Q} {w : W} (hq : (c.flags (.work w)).data = .pwq q) :
    FlightShrunk cfg c (grabQueued cfg c q w) q := by
  have hg := grabFrame hc hq
  have hcount : (grabQueued cfg c q w).refcnt = Function.update c.refcnt q (c.refcnt q - 1) ∧
      (grabQueued cfg c q w).removeSeq = Function.update c.removeSeq (cfg.wqOf q)
        (c.removeSeq (cfg.wqOf q) + 1) := by
    rw [grabQueued_eq hc hq]
    obtain ⟨h1, h2⟩ := pwqDecNrInFlight_counters cfg
      ((grabActivated cfg c q w).removed w (workFlags (.pool (cfg.poolOf q)) true false)) q false
    have h3 : (grabActivated cfg c q w).refcnt = c.refcnt ∧ (grabActivated cfg c q w).removeSeq =
        c.removeSeq := by
      unfold grabActivated
      split
      · exact ⟨rfl, rfl⟩
      · exact ⟨rfl, rfl⟩
    rw [h1, h2, Core.removed, h3.1, h3.2]
    exact ⟨rfl, rfl⟩
  have hitems : ∀ S y, y ≠ .work w → (y ∈ flightItems (grabQueued cfg c q w) S ↔ y ∈ flightItems c S) := by
    intro S y hy
    simp only [flightItems, Set.mem_ofPred_eq, (hg.word y hy).data]
  have hgone : ∀ S, Item.work w ∉ flightItems (grabQueued cfg c q w) S := by
    rintro S ⟨q', -, hd⟩
    simp [hg.self, workFlags] at hd
  have hworkers : ∀ S, flightWorkers (grabQueued cfg c q w) S = flightWorkers c S := by
    intro S
    unfold flightWorkers
    rw [hg.curr]
  refine ⟨fun S n hS h => ?_, fun S n hS h => ?_, hcount.1, hg.baseRef, hg.insertSeq, hcount.2⟩
  · have hmem : Item.work w ∈ flightItems c S := ⟨q, hS, hq⟩
    refine ⟨Tally.pos_left h hmem, ?_⟩
    unfold InFlight
    rw [hworkers]
    exact Tally.shrink_left h (hitems S) hmem (hgone S)
  · unfold InFlight
    rw [hworkers]
    refine Tally.congr h (fun y => ?_) (fun _ => Iff.rfl)
    by_cases hy : y = .work w
    · subst hy
      refine iff_of_false (hgone S) ?_
      rintro ⟨q', hq', hd⟩
      rw [hq] at hd
      cases hd
      exact hS hq'
    · exact hitems S y hy

/-- What a move does to the works in flight and their counters. -/
inductive FlightStep (cfg : WqConfig P Q G K) (allow : Prop) (c c' : Core P Q G W K T) : Prop where
  | kept (h : FlightKept c c') (hr : ¬ allow → ∀ q, c'.refcnt q - c'.baseRef q = c.refcnt q - c.baseRef q)
  | grown (q : Q) (h : FlightGrown cfg c c' q)
  | shrunk (q : Q) (h : FlightShrunk cfg c c' q)

theorem flightStep_of_move {allow : Prop} (hc : CoreInv cfg c) (hm : CoreMove cfg allow c c') :
    FlightStep cfg allow c c' := by
  cases hm with
  | base q hb =>
    refine .kept ⟨fun S n h => h, rfl, rfl⟩ fun _ q' => ?_
    by_cases hq : q' = q
    · subst hq
      simp only [Function.update_self, hb]
      omega
    · simp only [Function.update_of_ne hq]
  | refcnt ha q v => exact .kept ⟨fun S n h => h, rfl, rfl⟩ fun hna => absurd ha hna
  | @word w f hw hf =>
    refine .kept ⟨fun S n h => inFlight_congr h (fun x q => ?_) (fun _ => Iff.rfl), rfl, rfl⟩ fun _ _ => rfl
    by_cases hx : x = .work w
    · subst hx
      simp only [Core.setFlags, Function.update_self]
      exact iff_of_false (hf q) (hw q)
    · simp only [Core.setFlags, Function.update_of_ne hx]
  | restage hn hlt hle => exact .kept ⟨fun S n h => h, rfl, rfl⟩ fun _ _ => rfl
  | @queue q w n t hw hn =>
    exact .grown q (flightGrown_of_inserted hc (queueInsert_inserted hc hw hn) rfl rfl rfl rfl)
  | @behind q w t hq ht =>
    obtain ⟨pl, -, hi⟩ := insertBarrierBehind_inserted hc hq ht
    exact .grown q (flightGrown_of_inserted hc hi rfl rfl rfl rfl)
  | @front k r t hk ht =>
    exact .grown r.pwq (flightGrown_of_inserted hc (insertBarrierFront_inserted hc hk ht) rfl rfl rfl rfl)
  | pick hp =>
    obtain ⟨h, hr, hb⟩ := flightKept_pick (picks_of_pickWork hc hp).2
    exact .kept h fun _ q => by rw [hr, hb]
  | @called k r hk =>
    refine .kept ⟨fun S n h => inFlight_congr h (fun _ _ => Iff.rfl) (fun k' => ?_), rfl, rfl⟩ fun _ _ => rfl
    by_cases hk' : k' = k
    · subst hk'
      simp [hk]
    · simp [hk']
  | @finish k r hk => exact .shrunk r.pwq (flightShrunk_finish hk)
  | @grab q w hq => exact .shrunk q (flightShrunk_grab hc hq)

end Flight

/-! ## References and sequence numbers -/

/-- `refcnt` is the base reference and one reference for every work in flight. -/
def RefsOk (c : Core P Q G W K T) : Prop := ∀ q, ∃ n : ℕ, InFlight c {q} n ∧ c.refcnt q = c.baseRef q + n

/-- `insert_seq` is ahead of `remove_seq` by the works in flight of the workqueue. -/
def SeqOk (cfg : WqConfig P Q G K) (c : Core P Q G W K T) : Prop :=
  ∀ g, ∃ n : ℕ, InFlight c {q | cfg.wqOf q = g} n ∧ c.insertSeq g - c.removeSeq g = BitVec.ofNat 16 n

section References
variable {cfg : WqConfig P Q G K} {c c' : Core P Q G W K T} {allow : Prop}

theorem refsOk_step (h : RefsOk c) (hs : FlightStep cfg allow c c') (hna : ¬ allow) : RefsOk c' := by
  intro q
  obtain ⟨n, hn, he⟩ := h q
  cases hs with
  | kept hk hr =>
    have := hr hna q
    exact ⟨n, hk.flight _ n hn, by omega⟩
  | grown q' hg =>
    rw [hg.refcnt, hg.baseRef]
    by_cases hq : q = q'
    · subst hq
      refine ⟨n + 1, hg.flight _ n (Set.mem_singleton q) hn, ?_⟩
      rw [Function.update_self, he]
      push_cast
      ring
    · refine ⟨n, hg.other _ n (Ne.symm hq) hn, ?_⟩
      rw [Function.update_of_ne hq, he]
  | shrunk q' hg =>
    rw [hg.refcnt, hg.baseRef]
    by_cases hq : q = q'
    · subst hq
      obtain ⟨hpos, hn'⟩ := hg.flight {q} n (Set.mem_singleton q) hn
      refine ⟨n - 1, hn', ?_⟩
      rw [Function.update_self, he]
      omega
    · refine ⟨n, hg.other _ n (Ne.symm hq) hn, ?_⟩
      rw [Function.update_of_ne hq, he]

theorem ofNat_succ (n : ℕ) : BitVec.ofNat 16 (n + 1) = BitVec.ofNat 16 n + 1 := BitVec.ofNat_add n 1

theorem seqOk_step (h : SeqOk cfg c) (hs : FlightStep cfg allow c c') : SeqOk cfg c' := by
  intro g
  obtain ⟨n, hn, he⟩ := h g
  cases hs with
  | kept hk hr =>
    rw [hk.insertSeq, hk.removeSeq]
    exact ⟨n, hk.flight _ n hn, he⟩
  | grown q hg =>
    rw [hg.insertSeq, hg.removeSeq]
    by_cases hq : cfg.wqOf q = g
    · subst hq
      refine ⟨n + 1, hg.flight _ n rfl hn, ?_⟩
      rw [Function.update_self, ofNat_succ, ← he]
      ring
    · refine ⟨n, hg.other _ n hq hn, ?_⟩
      rw [Function.update_of_ne (Ne.symm hq), he]
  | shrunk q hg =>
    rw [hg.insertSeq, hg.removeSeq]
    by_cases hq : cfg.wqOf q = g
    · subst hq
      obtain ⟨hpos, hn'⟩ := hg.flight {q' | cfg.wqOf q' = cfg.wqOf q} n rfl hn
      refine ⟨n - 1, hn', ?_⟩
      have hsplit : BitVec.ofNat 16 n = BitVec.ofNat 16 (n - 1) + 1 := by
        rw [← ofNat_succ, Nat.sub_add_cancel hpos]
      rw [Function.update_self, ← add_sub_cancel_right (BitVec.ofNat 16 (n - 1)) 1, ← hsplit, ← he]
      ring
    · refine ⟨n, hg.other _ n hq hn, ?_⟩
      rw [Function.update_of_ne (Ne.symm hq), he]

end References

end Skp.Workqueue
