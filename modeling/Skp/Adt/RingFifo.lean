import Skp.Foundations.Refinement
import Skp.Foundations.Unrolled
import Skp.Adt.RingInvariant

/-! # The ring as a queue

`__ringb_do_enqueue` and `__ringb_do_dequeue` executed one after another, with the copy loops as
they are written. A slot index that is not below `size` and a tail that never gets to the old head
end an operation in `none`. -/
namespace Skp.Adt
set_option autoImplicit false
open Skp.Foundations

/-! ## The operations -/

structure RingbHeadtail where
  head : BitVec 32
  tail : BitVec 32

structure Ringb (O : Type) where
  prod : RingbHeadtail
  cons : RingbHeadtail
  ring : ℕ → O

/-- What a move of a head gives: the count, the old and the new head, and the entries it found. -/
structure RingMove where
  n : BitVec 32
  old : BitVec 32
  new : BitVec 32
  entries : BitVec 32

section Model
variable {O : Type}

/-- The count after the test against the entries; `fixed` is `RINGB_Q_FIXED`. -/
def moveCount (n entries : BitVec 32) (fixed : Bool) : BitVec 32 :=
  if entries < n then (if fixed then 0 else entries) else n

/-- `__ringb_move_prod_head`; no one else moves the head, so the compare-and-swap of the
multi-producer mode succeeds. -/
def ringbMoveProdHead (r : RingParams) (s : Ringb O) (n : BitVec 32) (fixed : Bool) : Ringb O × RingMove :=
  let old := s.prod.head
  let free := BitVec.ofNat 32 r.capacity - (old - s.cons.tail)
  let n := moveCount n free fixed
  if n = 0 then (s, { n := 0, old := old, new := old, entries := free })
  else ({ s with prod := { s.prod with head := old + n } },
    { n := n, old := old, new := old + n, entries := free })

def ringbMoveConsHead (s : Ringb O) (n : BitVec 32) (fixed : Bool) : Ringb O × RingMove :=
  let old := s.cons.head
  let entries := s.prod.tail - old
  let n := moveCount n entries fixed
  if n = 0 then (s, { n := 0, old := old, new := old, entries := entries })
  else ({ s with cons := { s.cons with head := old + n } },
    { n := n, old := old, new := old + n, entries := entries })

/-- `__ringb_update_tail`; not `single`, it waits for the tail to be the old head. -/
def ringbUpdateTail (ht : RingbHeadtail) (old new : BitVec 32) (single : Bool) : Option RingbHeadtail :=
  if !single && ht.tail ≠ old then none else some { ht with tail := new }

/-- The loops of `ENQUEUE_PTRS` and `DEQUEUE_PTRS`; `put i idx` is the assignment in them. -/
def copyPtrs {M : Type} (put : ℕ → ℕ → M → Option M) (r : RingParams) (head n : BitVec 32) (m : M) :
    Option M :=
  let idx := head.toNat &&& r.mask
  let size := r.size
  if idx + n.toNat < size then
    let whole := (n &&& ~~~3#32).toNat
    (copyFours put whole whole 0 idx m).bind (copyRest put (n &&& 3#32).toNat whole (idx + whole))
  else (copyRun put (size - idx) 0 idx m).bind (copyRun put (n.toNat - (size - idx)) (size - idx) 0)

def enqueuePtr (r : RingParams) (objs : ℕ → O) (i idx : ℕ) (ring : ℕ → O) : Option (ℕ → O) :=
  if idx < r.size then some (Function.update ring idx (objs i)) else none

def dequeuePtr (r : RingParams) (ring : ℕ → O) (i idx : ℕ) (objs : ℕ → O) : Option (ℕ → O) :=
  if idx < r.size then some (Function.update objs i (ring idx)) else none

/-- `__ringb_do_enqueue`: the ring, the count and `free_space`. -/
def ringbDoEnqueue (r : RingParams) (s : Ringb O) (objs : ℕ → O) (n : BitVec 32) (fixed isSp : Bool) :
    Option (Ringb O × BitVec 32 × BitVec 32) :=
  let (s, mv) := ringbMoveProdHead r s n fixed
  if mv.n = 0 then some (s, 0, mv.entries)
  else
    (copyPtrs (enqueuePtr r objs) r mv.old mv.n s.ring).bind fun ring =>
      (ringbUpdateTail s.prod mv.old mv.new isSp).map fun prod =>
        ({ s with prod := prod, ring := ring }, mv.n, mv.entries - mv.n)

/-- `__ringb_do_dequeue` with the table of the caller: the ring, the table, the count and `available`. -/
def ringbDoDequeue (r : RingParams) (s : Ringb O) (objs : ℕ → O) (n : BitVec 32) (fixed isSc : Bool) :
    Option (Ringb O × (ℕ → O) × BitVec 32 × BitVec 32) :=
  let (s, mv) := ringbMoveConsHead s n fixed
  if mv.n = 0 then some (s, objs, 0, mv.entries)
  else
    (copyPtrs (dequeuePtr r s.ring) r mv.old mv.n objs).bind fun objs =>
      (ringbUpdateTail s.cons mv.old mv.new isSc).map fun cons =>
        ({ s with cons := cons }, objs, mv.n, mv.entries - mv.n)

def ringbCount (r : RingParams) (s : Ringb O) : BitVec 32 :=
  let count := (s.prod.tail - s.cons.tail) &&& BitVec.ofNat 32 r.mask
  if BitVec.ofNat 32 r.capacity < count then BitVec.ofNat 32 r.capacity else count

def ringbFreeCount (r : RingParams) (s : Ringb O) : BitVec 32 := BitVec.ofNat 32 r.capacity - ringbCount r s

/-- All counters of an empty ring have one value, which need not be zero. -/
def ringbAt (c : BitVec 32) (ring : ℕ → O) : Ringb O where
  prod := { head := c, tail := c }
  cons := { head := c, tail := c }
  ring := ring

inductive RingCmd (O : Type) where
  | enqueue (objs : ℕ → O) (n : BitVec 32) (fixed single : Bool)
  | dequeue (objs : ℕ → O) (n : BitVec 32) (fixed single : Bool)
  | count
  | freeCount

inductive RingOut (O : Type) where
  | put (n free : ℕ)
  | got (objs : ℕ → O) (n available : ℕ)
  | number (n : ℕ)

def ringExec (r : RingParams) (s : Ringb O) : RingCmd O → Option (Ringb O × RingOut O)
  | .enqueue objs n fixed single =>
      (ringbDoEnqueue r s objs n fixed single).map fun q => (q.1, .put q.2.1.toNat q.2.2.toNat)
  | .dequeue objs n fixed single =>
      (ringbDoDequeue r s objs n fixed single).map fun q => (q.1, .got q.2.1 q.2.2.1.toNat q.2.2.2.toNat)
  | .count => some (s, .number (ringbCount r s).toNat)
  | .freeCount => some (s, .number (ringbFreeCount r s).toNat)

def ringRun (r : RingParams) : Ringb O → List (RingCmd O) → Option (Ringb O × List (RingOut O))
  | s, [] => some (s, [])
  | s, c :: cs => (ringExec r s c).bind fun q => (ringRun r q.1 cs).map fun t => (t.1, q.2 :: t.2)

/-! ## The queue -/

/-- A queue of at most `capacity` objects. An operation moves what is asked for, or nothing (fixed)
or all there is; a dequeue writes no more of the table than it moves. -/
def fifoExec (capacity : ℕ) (q : List O) : RingCmd O → List O × RingOut O
  | .enqueue objs n fixed _ =>
      let k := ringCount n.toNat (capacity - q.length) fixed
      (q ++ (List.range k).map objs, .put k (capacity - q.length - k))
  | .dequeue objs n fixed _ =>
      let k := ringCount n.toNat q.length fixed
      (q.drop k, .got (fun i => if i < k then q.getD i (objs i) else objs i) k (q.length - k))
  | .count => (q, .number q.length)
  | .freeCount => (q, .number (capacity - q.length))

end Model

/-! ## Copying -/

theorem and_three (n : BitVec 32) : (n &&& 3#32).toNat = n.toNat % 4 := by
  rw [BitVec.toNat_and]
  exact Nat.and_two_pow_sub_one_eq_mod n.toNat 2

theorem and_not_three (n : BitVec 32) : (n &&& ~~~3#32).toNat = 4 * (n.toNat / 4) := by
  have hdisj : (n &&& ~~~3#32) &&& (n &&& 3#32) = 0#32 := by
    ext i hi
    simp only [BitVec.getElem_and, BitVec.getElem_not, BitVec.getElem_zero]
    cases n[i] <;> cases (3#32)[i] <;> rfl
  have hsum : (n &&& ~~~3#32) + (n &&& 3#32) = n := by
    rw [BitVec.add_eq_or_of_and_eq_zero _ _ hdisj]
    ext i hi
    simp only [BitVec.getElem_or, BitVec.getElem_and, BitVec.getElem_not]
    cases n[i] <;> cases (3#32)[i] <;> rfl
  have hnat := congrArg BitVec.toNat hsum
  rw [BitVec.toNat_add_of_and_eq_zero hdisj, and_three] at hnat
  omega

theorem RingParams.and_mask (r : RingParams) (head : BitVec 32) :
    head.toNat &&& r.mask = head.toNat % r.size := by
  have h := ringIndex_eq r head.toNat
  rw [BitVec.ofNat_toNat, BitVec.setWidth_eq] at h
  exact h

theorem RingParams.size_pos (r : RingParams) : 0 < r.size := r.capacity_lt.trans_le' (Nat.zero_le _)

/-- The position `k` after a head that was cut to 32 bits. -/
theorem RingParams.add_mod (r : RingParams) (head : BitVec 32) (k : ℕ) :
    (head + BitVec.ofNat 32 k).toNat % r.size = (head.toNat + k) % r.size := by
  obtain ⟨e, he, hs⟩ := r.size_pow
  have hdvd : r.size ∣ 2 ^ 32 := hs ▸ Nat.pow_dvd_pow 2 (by omega)
  rw [BitVec.toNat_add, BitVec.toNat_ofNat, Nat.mod_mod_of_dvd _ hdvd, Nat.add_mod,
    Nat.mod_mod_of_dvd _ hdvd, ← Nat.add_mod]

section Proofs
variable {M O : Type} {r : RingParams}

/-- Entry `k` is copied to or from the slot `k` after the head, in the unrolled loop as in the split one. -/
theorem copyPtrs_ok {put : ℕ → ℕ → M → Option M} {head n : BitVec 32} (hn : n.toNat ≤ r.size)
    {P : ℕ → M → Prop} {m : M}
    (hstep : ∀ k < n.toNat, ∀ m, P k m → ∃ m', put k ((head.toNat + k) % r.size) m = some m' ∧
      P (k + 1) m') (h0 : P 0 m) :
    ∃ m', copyPtrs put r head n m = some m' ∧ P n.toNat m' := by
  have hidx := Nat.mod_lt head.toNat r.size_pos
  have hslot : ∀ k, (head.toNat + k) % r.size = (head.toNat % r.size + k) % r.size :=
    fun k => (Nat.mod_add_mod _ _ _).symm
  unfold copyPtrs
  dsimp only
  rw [r.and_mask, and_not_three, and_three]
  generalize head.toNat % r.size = idx at hidx hslot
  generalize n.toNat = n at hn hstep
  split
  · rename_i hfits
    have hrun : (copyFours put (0 + 4 * (n / 4)) (4 * (n / 4)) 0 idx m).bind
        (copyRest put (n % 4) (0 + 4 * (n / 4)) (idx + 4 * (n / 4))) = copyRun put n 0 idx m :=
          copyFours_rest (by omega)
    rw [Nat.zero_add] at hrun
    rw [hrun]
    refine copyRun_ok (fun k hk m hP => ?_) h0
    obtain ⟨m', hput, hP'⟩ := hstep k hk m hP
    rw [hslot, Nat.mod_eq_of_lt (by omega)] at hput
    rw [Nat.zero_add]
    exact ⟨m', hput, hP'⟩
  · -- up to the end of the ring, and on from slot zero
    have hfirst : ∃ m₁, copyRun put (r.size - idx) 0 idx m = some m₁ ∧ P (r.size - idx) m₁ := by
      refine copyRun_ok (fun k hk m hP => ?_) h0
      obtain ⟨m', hput, hP'⟩ := hstep k (by omega) m hP
      rw [hslot, Nat.mod_eq_of_lt (by omega)] at hput
      rw [Nat.zero_add]
      exact ⟨m', hput, hP'⟩
    obtain ⟨m₁, hfirst, hP₁⟩ := hfirst
    have hsecond : ∃ m₂, copyRun put (n - (r.size - idx)) (r.size - idx) 0 m₁ = some m₂ ∧
        P (r.size - idx + (n - (r.size - idx))) m₂ := by
      refine copyRun_ok (P := fun k => P (r.size - idx + k)) (fun k hk m hP => ?_) hP₁
      obtain ⟨m', hput, hP'⟩ := hstep (r.size - idx + k) (by omega) m hP
      rw [hslot, Nat.mod_eq_sub_mod (by omega), Nat.mod_eq_of_lt (by omega),
        show idx + (r.size - idx + k) - r.size = 0 + k by omega] at hput
      exact ⟨m', hput, hP'⟩
    obtain ⟨m₂, hsecond, hP₂⟩ := hsecond
    refine ⟨m₂, ?_, ?_⟩
    · rw [hfirst]
      exact hsecond
    · rw [show n = r.size - idx + (n - (r.size - idx)) by omega]
      exact hP₂

/-- `ENQUEUE_PTRS` fills the `n` slots from the head on and no other. -/
theorem enqueuePtrs_ok (objs : ℕ → O) (head : BitVec 32) {n : BitVec 32} (hn : n.toNat ≤ r.size)
    (ring : ℕ → O) :
    ∃ ring', copyPtrs (enqueuePtr r objs) r head n ring = some ring' ∧
      (∀ k < n.toNat, ring' ((head.toNat + k) % r.size) = objs k) ∧
      ∀ x, (∀ k < n.toNat, (head.toNat + k) % r.size ≠ x) → ring' x = ring x := by
  refine copyPtrs_ok (P := fun (k : ℕ) (ring' : ℕ →
    O) => (∀ t < k, ring' ((head.toNat + t) % r.size) = objs t) ∧
    ∀ x, (∀ t < k, (head.toNat + t) % r.size ≠ x) → ring' x = ring x) hn (fun k hk m hP => ?_)
    ⟨fun t ht => absurd ht (Nat.not_lt_zero t), fun x _ => rfl⟩
  refine ⟨_, if_pos (Nat.mod_lt _ r.size_pos), fun t ht => ?_, fun x hx => ?_⟩
  · by_cases htk : t = k
    · rw [htk, Function.update_self]
    · have hne : (head.toNat + t) % r.size ≠ (head.toNat + k) % r.size := by
        intro heq
        have hsame :=
          eq_of_mod_eq_of_window (Nat.le_add_right head.toNat t) (by omega)
            (Nat.le_add_right head.toNat k)
          (by omega) heq
        omega
      rw [Function.update_of_ne hne]
      exact hP.1 t (by omega)
  · rw [Function.update_of_ne (hx k (Nat.lt_succ_self k)).symm]
    exact hP.2 x fun t ht => hx t (by omega)

/-- `DEQUEUE_PTRS` writes the first `n` entries of the table. -/
theorem dequeuePtrs_ok {ring objs : ℕ → O} {head n : BitVec 32} (hn : n.toNat ≤ r.size) :
    copyPtrs (dequeuePtr r ring) r head n objs =
      some fun i => if i < n.toNat then ring ((head.toNat + i) % r.size) else objs i := by
  have hcopied : ∃ objs', copyPtrs (dequeuePtr r ring) r head n objs = some objs' ∧
      ∀ i, objs' i = if i < n.toNat then ring ((head.toNat + i) % r.size) else objs i := by
    refine copyPtrs_ok
      (P := fun (k : ℕ) (objs' : ℕ → O) => ∀ i, objs' i = if i < k then
        ring ((head.toNat + i) % r.size) else objs i) hn
      (fun k hk m hP => ?_) fun i => (if_neg (Nat.not_lt_zero i)).symm
    refine ⟨_, if_pos (Nat.mod_lt _ r.size_pos), fun i => ?_⟩
    by_cases hik : i = k
    · rw [hik, Function.update_self, if_pos (Nat.lt_succ_self k)]
    · rw [Function.update_of_ne hik, hP i]
      by_cases hlt : i < k
      · rw [if_pos hlt, if_pos (by omega)]
      · rw [if_neg hlt, if_neg (by omega)]
  obtain ⟨objs', hrun, hobjs⟩ := hcopied
  rw [hrun, funext hobjs]

/-! ## Refinement -/

/-- Between the operations each side's tail is at its head, and the slots between the two sides hold
the queue. -/
structure RingHolds (r : RingParams) (s : Ringb O) (q : List O) : Prop where
  prod : s.prod.tail = s.prod.head
  cons : s.cons.tail = s.cons.head
  length : q.length ≤ r.capacity
  head : s.prod.head = s.cons.head + BitVec.ofNat 32 q.length
  slot : ∀ (i : ℕ) (hi : i < q.length), s.ring ((s.cons.head.toNat + i) % r.size) = q[i]

theorem moveCount_toNat (n entries : BitVec 32) (fixed : Bool) :
    (moveCount n entries fixed).toNat = ringCount n.toNat entries.toNat fixed := by
  unfold moveCount ringCount
  simp only [BitVec.lt_def]
  split
  · cases fixed <;> rfl
  · rfl

theorem RingParams.shift_mod (r : RingParams) (head : BitVec 32) (k i : ℕ) :
    ((head + BitVec.ofNat 32 k).toNat + i) % r.size = (head.toNat + (k + i)) % r.size := by
  rw [Nat.add_mod, r.add_mod, ← Nat.add_mod, Nat.add_assoc]

section Refine
variable {s : Ringb O} {q : List O}

theorem RingHolds.ofNat_length (h : RingHolds r s q) : (BitVec.ofNat 32 q.length).toNat = q.length :=
  toNat_ofNat_of_lt (h.length.trans_lt r.capacity_lt_turn)

theorem RingHolds.free (h : RingHolds r s q) :
    (BitVec.ofNat 32 r.capacity - (s.prod.head - s.cons.tail)).toNat = r.capacity - q.length := by
  have hlt := r.capacity_lt_turn
  rw [h.head, h.cons, add_sub_cancel_left, ofNat_sub_window h.length, toNat_ofNat_of_lt (by omega)]

theorem RingHolds.available (h : RingHolds r s q) : (s.prod.tail - s.cons.head).toNat = q.length := by
  rw [h.prod, h.head, add_sub_cancel_left, h.ofNat_length]

theorem entries_sub {n entries : BitVec 32} (hle : n.toNat ≤ entries.toNat) :
    (entries - n).toNat = entries.toNat - n.toNat := BitVec.toNat_sub_of_le (BitVec.le_def.mpr hle)

theorem RingHolds.enqueue (h : RingHolds r s q) (objs : ℕ → O) (n : BitVec 32) (fixed isSp : Bool) :
    ∃ s' k free, ringbDoEnqueue r s objs n fixed isSp = some (s', k, free) ∧
      k.toNat = ringCount n.toNat (r.capacity - q.length) fixed ∧
        free.toNat = r.capacity - q.length - k.toNat ∧
      RingHolds r s' (q ++ (List.range k.toNat).map objs) := by
  have hfree := h.free
  have hcount := moveCount_toNat n (BitVec.ofNat 32 r.capacity - (s.prod.head - s.cons.tail)) fixed
  rw [hfree] at hcount
  have hle := ringCount_le_avail n.toNat (r.capacity - q.length) fixed
  unfold ringbDoEnqueue ringbMoveProdHead
  dsimp only
  generalize BitVec.ofNat 32 r.capacity - (s.prod.head - s.cons.tail) = entries at hfree hcount
  generalize moveCount n entries fixed = k at hcount
  by_cases hzero : k = 0
  · rw [if_pos hzero]
    refine ⟨s, 0, entries, if_pos rfl, ?_, ?_, ?_⟩
    · rw [← hcount, hzero]
    · rw [hfree]
      rfl
    · change RingHolds r s (q ++ (List.range 0).map objs)
      rw [List.range_zero, List.map_nil, List.append_nil]
      exact h
  · have hcap := r.capacity_lt
    obtain ⟨ring, hcopy, hput, hkeep⟩ := enqueuePtrs_ok (r := r) (n := k) objs s.prod.head (by omega) s.ring
    have htail : ringbUpdateTail { s.prod with head := s.prod.head + k } s.prod.head (s.prod.head + k) isSp =
        some { head := s.prod.head + k, tail := s.prod.head + k } := by
      rw [ringbUpdateTail, h.prod]
      exact if_neg (by simp)
    rw [if_neg hzero]
    dsimp only
    rw [if_neg hzero, hcopy, Option.bind_some, htail]
    refine ⟨_, _, _, rfl, hcount, ?_, rfl, h.cons, ?_, ?_, fun i hi => ?_⟩
    · rw [entries_sub (by omega), hfree]
    · rw [List.length_append, List.length_map, List.length_range]
      have := h.length
      omega
    · change s.prod.head + k = _
      rw [h.head, List.length_append, List.length_map, List.length_range, BitVec.ofNat_add,
        ← BitVec.add_assoc,
        BitVec.ofNat_toNat, BitVec.setWidth_eq]
    · rw [List.length_append, List.length_map, List.length_range] at hi
      change ring ((s.cons.head.toNat + i) % r.size) = _
      have hlen := h.length
      have hplace : ∀ t, (s.prod.head.toNat + t) % r.size = (s.cons.head.toNat + (q.length + t)) %
          r.size := fun t => by
        rw [h.head, r.shift_mod]
      by_cases hlt : i < q.length
      · rw [List.getElem_append_left hlt, ← h.slot i hlt]
        refine hkeep _ fun t ht heq => ?_
        rw [hplace] at heq
        have hsame := eq_of_mod_eq_of_window (Nat.le_add_right s.cons.head.toNat (q.length + t)) (by omega)
          (Nat.le_add_right s.cons.head.toNat i) (by omega) heq
        omega
      · rw [List.getElem_append_right (not_lt.mp hlt), List.getElem_map, List.getElem_range,
          ← hput (i - q.length) (by omega), hplace, Nat.add_sub_cancel' (not_lt.mp hlt)]

theorem RingHolds.dequeue (h : RingHolds r s q) (objs : ℕ → O) (n : BitVec 32) (fixed isSc : Bool) :
    ∃ s' objs' k available, ringbDoDequeue r s objs n fixed isSc = some (s', objs', k, available) ∧
      k.toNat = ringCount n.toNat q.length fixed ∧ available.toNat = q.length - k.toNat ∧
      (objs' = fun i => if i < k.toNat then q.getD i (objs i) else objs i) ∧
        RingHolds r s' (q.drop k.toNat) := by
  have havail := h.available
  have hcount := moveCount_toNat n (s.prod.tail - s.cons.head) fixed
  rw [havail] at hcount
  have hle := ringCount_le_avail n.toNat q.length fixed
  unfold ringbDoDequeue ringbMoveConsHead
  dsimp only
  generalize s.prod.tail - s.cons.head = entries at havail hcount
  generalize moveCount n entries fixed = k at hcount
  by_cases hzero : k = 0
  · rw [if_pos hzero]
    refine ⟨s, objs, 0, entries, if_pos rfl, ?_, havail, ?_, h⟩
    · rw [← hcount, hzero]
    · funext i
      exact (if_neg (Nat.not_lt_zero i)).symm
  · have hcap := r.capacity_lt
    have hlen := h.length
    have htail : ringbUpdateTail { s.cons with head := s.cons.head + k } s.cons.head (s.cons.head + k) isSc =
        some { head := s.cons.head + k, tail := s.cons.head + k } := by
      rw [ringbUpdateTail, h.cons]
      exact if_neg (by simp)
    have hk : k = BitVec.ofNat 32 k.toNat := by rw [BitVec.ofNat_toNat, BitVec.setWidth_eq]
    rw [if_neg hzero]
    dsimp only
    rw [if_neg hzero, dequeuePtrs_ok (by omega), Option.bind_some, htail]
    refine ⟨_, _, _, _, rfl, hcount, ?_, ?_, h.prod, rfl, ?_, ?_, fun i hi => ?_⟩
    · rw [entries_sub (by omega), havail]
    · funext i
      split
      · rename_i hi
        have hin : i < q.length := by omega
        rw [List.getD_eq_getElem _ _ hin]
        exact h.slot i hin
      · rfl
    · rw [List.length_drop]
      omega
    · change s.prod.head = s.cons.head + k + _
      rw [h.head, List.length_drop, hk, BitVec.add_assoc, ← BitVec.ofNat_add, ← hk,
        Nat.add_sub_cancel' (by omega)]
    · rw [List.length_drop] at hi
      change s.ring (((s.cons.head + k).toNat + i) % r.size) = _
      have hshift := r.shift_mod s.cons.head k.toNat i
      rw [← hk] at hshift
      rw [hshift, List.getElem_drop]
      exact h.slot _ (by omega)

theorem RingHolds.count (h : RingHolds r s q) : (ringbCount r s).toNat = q.length := by
  have hlen := h.length
  have hcap := r.capacity_lt
  have hmask : (s.prod.tail - s.cons.tail) &&& BitVec.ofNat 32 r.mask = BitVec.ofNat 32 q.length := by
    apply BitVec.eq_of_toNat_eq
    have hsize := r.size_le
    have hm := r.mask_eq
    rw [h.cons, BitVec.toNat_and, h.available, toNat_ofNat_of_lt (by omega), h.ofNat_length, hm]
    obtain ⟨e, -, hs⟩ := r.size_pow
    rw [hs, Nat.and_two_pow_sub_one_eq_mod, Nat.mod_eq_of_lt (by omega)]
  unfold ringbCount
  dsimp only
  rw [hmask, if_neg, h.ofNat_length]
  rw [BitVec.lt_def, h.ofNat_length, toNat_ofNat_of_lt r.capacity_lt_turn]
  omega

theorem RingHolds.freeCount (h : RingHolds r s q) : (ringbFreeCount r s).toNat = r.capacity - q.length := by
  rw [ringbFreeCount, entries_sub, h.count, toNat_ofNat_of_lt r.capacity_lt_turn]
  rw [h.count, toNat_ofNat_of_lt r.capacity_lt_turn]
  exact h.length

theorem RingHolds.exec (h : RingHolds r s q) (c : RingCmd O) :
    ∃ s', ringExec r s c = some (s', (fifoExec r.capacity q c).2) ∧
      RingHolds r s' (fifoExec r.capacity q c).1 := by
  cases c with
  | enqueue objs n fixed single =>
    obtain ⟨s', k, free, hrun, hk, hfree, hholds⟩ := h.enqueue objs n fixed single
    refine ⟨s', ?_, ?_⟩
    · rw [ringExec, hrun, Option.map_some, hfree, hk]
      rfl
    · rw [hk] at hholds
      exact hholds
  | dequeue objs n fixed single =>
    obtain ⟨s', objs', k, available, hrun, hk, havail, hobjs, hholds⟩ := h.dequeue objs n fixed single
    refine ⟨s', ?_, ?_⟩
    · rw [ringExec, hrun, Option.map_some, havail, hobjs, hk]
      rfl
    · rw [hk] at hholds
      exact hholds
  | count =>
    refine ⟨s, ?_, h⟩
    rw [ringExec, h.count]
    rfl
  | freeCount =>
    refine ⟨s, ?_, h⟩
    rw [ringExec, h.freeCount]
    rfl

theorem RingHolds.run (cs : List (RingCmd O)) : ∀ {s : Ringb O} {q : List O}, RingHolds r s q →
    ∃ s', ringRun r s cs = some (s', (runCmds (fifoExec r.capacity) q cs).2) ∧
      RingHolds r s' (runCmds (fifoExec r.capacity) q cs).1 := by
  induction cs with
  | nil => exact fun {s q} h => ⟨s, rfl, h⟩
  | cons c cs ih =>
    intro s q h
    obtain ⟨s₁, hexec, h₁⟩ := h.exec c
    obtain ⟨s', hrun, h'⟩ := ih h₁
    refine ⟨s', ?_, h'⟩
    rw [ringRun, hexec, Option.bind_some, hrun]
    rfl

end Refine

/-- From any counter value every sequence of operations goes through, with no access beyond the
slots, and gives the answers of a queue of at most `capacity` objects. -/
theorem ring_fifo (r : RingParams) (c : BitVec 32) (ring : ℕ → O) (cs : List (RingCmd O)) :
    (ringRun r (ringbAt c ring) cs).map Prod.snd = some (runCmds (fifoExec r.capacity) [] cs).2 ∧
      (runCmds (fifoExec r.capacity) [] cs).1.length ≤ r.capacity := by
  have hinit : RingHolds r (ringbAt c ring) [] :=
    ⟨rfl, rfl, Nat.zero_le _, (BitVec.add_zero c).symm, fun i hi => absurd hi (Nat.not_lt_zero i)⟩
  obtain ⟨s', hrun, hholds⟩ := RingHolds.run cs hinit
  rw [hrun]
  exact ⟨rfl, hholds.length⟩

end Proofs

end Skp.Adt
