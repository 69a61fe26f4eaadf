import Skp.Adt.RadixRooted
import Skp.Adt.IdtRefine

/-! # The id map of `src/adt/idr.c`

An id allocator beside a radix tree that leads from an id to its pointer. Both allocators of memory
are parameters of a call: pages of the bitmap and nodes of the tree. -/
namespace Skp.Adt
set_option autoImplicit false
open Skp.Foundations

structure Idr (E : Type) where
  idt : Idt
  rdtree : RadixRoot E

variable {E : Type}

/-- `idr_init_base`; `none` where `idt_init` ends in a `BUG_ON`. -/
def idrInitBase (start stop : ℕ) : Option (Idr E) :=
  (idtInit start stop).map fun t => { idt := t, rdtree := radixInit }

/-- The index of an id, a `uint32_t`. -/
def iidOf (t : Idt) (id : ℤ) : BitVec 64 := BitVec.ofNat 64 ((id - t.offset) % 2 ^ 32).toNat

/-- `idr_alloc`; `none` where its `BUG_ON` fires. -/
def idrAlloc (pageOk nodeOk : ℕ → Bool) (idr : Idr E) : Option E → Option (Idr E × ℤ)
  | none => some (idr, eINVAL)
  | some ptr =>
      let r := idtAlloc pageOk idr.idt
      if r.2 < 0 then some ({ idr with idt := r.1 }, r.2)
      else
        let q := radixTreeInsert nodeOk idr.rdtree (iidOf r.1 r.2) (some ptr)
        if q.2 ≠ 0 then
          if q.2 = eEXIST then none else some ({ idt := (idtRemove r.1 r.2).1, rdtree := q.1 }, eNOMEM)
        else some ({ idt := r.1, rdtree := q.1 }, r.2)

/-- `idr_remove`; `none` where its `BUG_ON` fires. -/
def idrRemove (idr : Idr E) (id : ℤ) : Option (Idr E × Option E) :=
  if !checkIdt idr.idt id then some (idr, none)
  else
    let d := radixTreeDelete idr.rdtree (iidOf idr.idt id)
    match d.2 with
    | none => some ({ idr with rdtree := d.1 }, none)
    | some ptr =>
        let r := idtRemove idr.idt id
        if r.2 then some ({ idt := r.1, rdtree := d.1 }, some ptr) else none

def idrFind (idr : Idr E) (id : ℤ) : Option E :=
  if !checkIdt idr.idt id then none else radixTreeLookup idr.rdtree (iidOf idr.idt id)

/-! ## The map -/

/-- The `n` positions from `start` on lead where `m` says; a position is taken in the bitmap when it
leads somewhere. -/
structure IdrHolds (start n : ℕ) (m : ℕ → Option E) (idr : Idr E) : Prop where
  idt : IdtIs start n (fun i => (m i).isSome) idr.idt.last idr.idt
  rooted : RadixRooted idr.rdtree
  lookup : ∀ i, radixTreeLookup idr.rdtree i = m i.toNat
  beyond : ∀ i, n ≤ i → m i = none

/-- What the positions lead to, whatever the shape of the tree. -/
structure IdrBits (start n : ℕ) (m : ℕ → Option E) (idr : Idr E) : Prop where
  idt : IdtIs start n (fun i => (m i).isSome) idr.idt.last idr.idt
  lookup : ∀ i, radixTreeLookup idr.rdtree i = m i.toNat
  beyond : ∀ i, n ≤ i → m i = none

/-- The first free position from the cursor on. -/
def nextFree (t : Idt) : Option ℕ := (cyclicFrom t.nrBit (idtCursor t.nrBit t.last)).find? fun i => !t.bit i

theorem isSome_update (m : ℕ → Option E) (i : ℕ) (x : Option E) :
    (fun j => (Function.update m i x j).isSome) = Function.update (fun j => (m j).isSome) i x.isSome := by
  funext j
  exact Function.apply_update (fun _ y => Option.isSome y) m i x j

section Operations
variable {start n : ℕ} {m : ℕ → Option E} {idr : Idr E} {e : E}

theorem iidOf_position {t : Idt} {i : ℕ} (hoff : t.offset = start) (hi : i < 2 ^ 32) :
    iidOf t ((i + start : ℕ) : ℤ) = BitVec.ofNat 64 i := by
  have hidx : (((i + start : ℕ) : ℤ) - t.offset) % 2 ^ 32 = i := by
    rw [hoff]
    omega
  rw [iidOf, hidx]
  rfl

theorem ofNat_toNat_position {i : ℕ} (hi : i < 2 ^ 32) : (BitVec.ofNat 64 i).toNat = i := by
  rw [BitVec.toNat_ofNat]
  omega

theorem lookup_update {root root' : RadixRoot E} {i : ℕ} {x : Option E} (hi : i < 2 ^ 32)
    (hold : ∀ j, radixTreeLookup root j = m j.toNat)
    (hnew : radixTreeLookup root' = Function.update (radixTreeLookup root) (BitVec.ofNat 64 i) x)
    (j : BitVec 64) :
    radixTreeLookup root' j = Function.update m i x j.toNat := by
  rw [hnew]
  by_cases hj : j = BitVec.ofNat 64 i
  · rw [hj, Function.update_self, ofNat_toNat_position hi, Function.update_self]
  · have hne : j.toNat ≠ i := fun heq => hj (by rw [← heq, BitVec.ofNat_toNat, BitVec.setWidth_eq])
    rw [Function.update_of_ne hj, Function.update_of_ne hne, hold]

namespace IdrBits

theorem lt (h : IdrBits start n m idr) {i : ℕ} (hi : m i ≠ none) : i < n :=
  not_le.mp fun hge => hi (h.beyond i hge)

theorem update (h : IdrBits start n m idr) {i : ℕ} (hi : i < n) (x : Option E) (j : ℕ) (hj : n ≤ j) :
    Function.update m i x j = none := by
  rw [Function.update_of_ne (by omega)]
  exact h.beyond j hj

theorem nextFree_eq (h : IdrBits start n m idr) :
    nextFree idr.idt = (cyclicFrom n (idtCursor n idr.idt.last)).find? fun i => !(m i).isSome := by
  rw [nextFree, h.idt.nrBit, h.idt.bit]

theorem nextFree_spec (h : IdrBits start n m idr) {i : ℕ} (hn : 0 < n) (hfree : nextFree idr.idt = some i) :
    i < n ∧ m i = none := by
  rw [h.nextFree_eq] at hfree
  have hlt := (mem_cyclicFrom (idtCursor_lt idr.idt.last hn).le).mp (List.mem_of_find?_eq_some hfree)
  have hnone := List.find?_some hfree
  rw [Bool.not_eq_true', Option.isSome_eq_false_iff, Option.isNone_iff_eq_none] at hnone
  exact ⟨hlt, hnone⟩

theorem full_of_nextFree (h : IdrBits start n m idr) (hn : 0 < n)
    (hnone : nextFree idr.idt = none) : ∀ i < n, m i ≠ none := by
  intro i hi hfree
  rw [h.nextFree_eq, List.find?_eq_none] at hnone
  have hset := hnone i ((mem_cyclicFrom (idtCursor_lt idr.idt.last hn).le).mpr hi)
  rw [hfree] at hset
  exact hset rfl

/-- An allocation binds the first free position from the cursor on, or fails for want of a position
or of memory and binds nothing; the tree is as the insertion left it, when there was one. -/
theorem alloc (h : IdrBits start n m idr) (hn : 0 < n) (hsmall : n < s32Max)
    (pageOk nodeOk : ℕ → Bool) (e : E)
    {Q : RadixRoot E → Prop} (hQ : Q idr.rdtree)
    (hinsert : ∀ index, 0 ≤ (idtAlloc pageOk idr.idt).2 →
      index = iidOf (idtAlloc pageOk idr.idt).1 (idtAlloc pageOk idr.idt).2 →
        radixTreeLookup idr.rdtree index = none →
      Q (radixTreeInsert nodeOk idr.rdtree index (some e)).1 ∧
        ((radixTreeInsert nodeOk idr.rdtree index (some e)).2 = 0 ∧
            radixTreeLookup (radixTreeInsert nodeOk idr.rdtree index (some e)).1 =
              Function.update (radixTreeLookup idr.rdtree) index (some e) ∨
          (radixTreeInsert nodeOk idr.rdtree index (some e)).2 = eNOMEM ∧
            radixTreeLookup (radixTreeInsert nodeOk idr.rdtree index (some e)).1 =
              radixTreeLookup idr.rdtree)) :
    ∃ idr' r, idrAlloc pageOk nodeOk idr (some e) = some (idr', r) ∧ Q idr'.rdtree ∧
      ((∃ i, nextFree idr.idt = some i ∧ r = (i + start : ℕ) ∧
        IdrBits start n (Function.update m i (some e)) idr' ∧
          idr'.idt.last = i) ∨
        r < 0 ∧ IdrBits start n m idr' ∧
          (nextFree idr.idt = none ∨ (∃ k, pageOk k = false) ∨
            ∃ index, (radixTreeInsert nodeOk idr.rdtree index (some e)).2 = eNOMEM)) := by
  unfold s32Max at hsmall
  rw [idrAlloc]
  dsimp only
  obtain ⟨i, hfree, hout, his⟩ | ⟨hout, his, hwhy⟩ := idtAlloc_cases pageOk hn h.idt
  · rw [← h.nextFree_eq] at hfree
    obtain ⟨hi, hnone⟩ := h.nextFree_spec hn hfree
    have hpos : ¬ (((i + start : ℕ) : ℤ) < 0) := by omega
    have hiid : iidOf (idtAlloc pageOk idr.idt).1 ((i + start : ℕ) : ℤ) = BitVec.ofNat 64 i :=
      iidOf_position his.offset (by omega)
    have hlook : radixTreeLookup idr.rdtree (BitVec.ofNat 64 i) = none := by
      rw [h.lookup, ofNat_toNat_position (by omega), hnone]
    rw [hout, if_neg hpos, hiid]
    obtain ⟨hkeep, ⟨hok, hnew⟩ | ⟨herr, hsame⟩⟩ := hinsert _ (by omega) (by rw [hout, hiid]) hlook
    · rw [hok, if_neg (not_not.mpr rfl)]
      refine ⟨_, _, rfl, hkeep,
        Or.inl ⟨i, hfree, rfl, ⟨?_, lookup_update (by omega) h.lookup hnew, h.update hi _⟩,
        his.last⟩⟩
      rw [isSome_update, his.last]
      exact his
    · rw [herr, if_pos (by decide), if_neg (by decide)]
      refine ⟨_, _, rfl, hkeep, Or.inr ⟨by decide, ?_, Or.inr (Or.inr ⟨_, herr⟩)⟩⟩
      -- the bit is given back; the cursor stays where it went
      have hback := (idtRemove_used his hi (Function.update_self _ _ _)).2
      rw [Function.update_idem, Function.update_eq_self_iff.mpr (by rw [hnone]; rfl)] at hback
      rw [show ((i + start : ℕ) : ℤ) = (start : ℤ) + i by omega]
      refine ⟨?_, fun j => ?_, h.beyond⟩
      · rw [hback.last]
        exact hback
      · rw [hsame, h.lookup]
  · rw [hout, if_pos (by decide)]
    rw [← h.nextFree_eq] at hwhy
    refine ⟨_, _, rfl, hQ, Or.inr ⟨by decide, ⟨?_, h.lookup, h.beyond⟩, hwhy.imp_right Or.inl⟩⟩
    rw [his.last]
    exact his

/-- A removal unbinds a bound position and gives back its pointer. -/
theorem remove (h : IdrBits start n m idr) (hsmall : n < s32Max) {i : ℕ} (hi : m i = some e)
    (hdelete : ∀ index, radixTreeLookup idr.rdtree index = some e →
      (radixTreeDelete idr.rdtree index).2 = some e ∧
        radixTreeLookup (radixTreeDelete idr.rdtree index).1 =
          Function.update (radixTreeLookup idr.rdtree) index none) :
    ∃ idr', idrRemove idr (start + i) = some (idr', some e) ∧
      idr'.rdtree = (radixTreeDelete idr.rdtree (BitVec.ofNat 64 i)).1 ∧
      IdrBits start n (Function.update m i none) idr' := by
  unfold s32Max at hsmall
  have hin : i < n := h.lt (by rw [hi]; exact Option.some_ne_none e)
  have hcheck : checkIdt idr.idt (start + i) = true := (checkIdt_iff h.idt _).mpr ⟨i, hin, rfl⟩
  have hiid : iidOf idr.idt (start + i) = BitVec.ofNat 64 i := by
    rw [show (start : ℤ) + i = ((i + start : ℕ) : ℤ) by omega]
    exact iidOf_position h.idt.offset (by omega)
  obtain ⟨hout, hnew⟩ := hdelete (BitVec.ofNat 64 i) (by rw [h.lookup, ofNat_toNat_position (by omega), hi])
  obtain ⟨hbit, his⟩ := idtRemove_used h.idt hin (by rw [hi]; rfl)
  rw [idrRemove, hcheck, Bool.not_true, if_neg Bool.false_ne_true, hiid]
  dsimp only
  rw [hout]
  dsimp only
  rw [if_pos hbit]
  refine ⟨_, rfl, rfl, ?_, lookup_update (by omega) h.lookup hnew, h.update hin none⟩
  rw [isSome_update, his.last]
  exact his

theorem find (h : IdrBits start n m idr) (hsmall : n < s32Max) (id : ℤ) :
    idrFind idr id = if (start : ℤ) ≤ id then m (id - start).toNat else none := by
  unfold s32Max at hsmall
  unfold idrFind
  by_cases hcheck : checkIdt idr.idt id = true
  · obtain ⟨i, hi, rfl⟩ := (checkIdt_iff h.idt id).mp hcheck
    have hiid : iidOf idr.idt (start + i) = BitVec.ofNat 64 i := by
      rw [show (start : ℤ) + i = ((i + start : ℕ) : ℤ) by omega]
      exact iidOf_position h.idt.offset (by omega)
    rw [hcheck, Bool.not_true, if_neg Bool.false_ne_true, hiid, h.lookup, ofNat_toNat_position (by omega),
      if_pos (by omega), show ((start : ℤ) + i - start).toNat = i by omega]
  · rw [Bool.eq_false_iff.mpr hcheck, Bool.not_false, if_pos rfl]
    split
    · rename_i hle
      refine (h.beyond _ (not_lt.mp fun hlt => hcheck ?_)).symm
      exact (checkIdt_iff h.idt id).mpr ⟨_, hlt, by omega⟩
    · rfl

end IdrBits

/-! In a tree that keeps its root. -/

theorem IdrHolds.bits (h : IdrHolds start n m idr) : IdrBits start n m idr := ⟨h.idt, h.lookup, h.beyond⟩

theorem IdrBits.holds (h : IdrBits start n m idr) (hrooted : RadixRooted idr.rdtree) :
    IdrHolds start n m idr :=
  ⟨h.idt, hrooted, h.lookup, h.beyond⟩

theorem IdrHolds.nextFree_spec (h : IdrHolds start n m idr) {i : ℕ} (hn : 0 < n)
    (hfree : nextFree idr.idt = some i) :
    i < n ∧ m i = none := h.bits.nextFree_spec hn hfree

theorem IdrHolds.alloc (h : IdrHolds start n m idr) (hn : 0 < n) (hsmall : n < s32Max)
    (pageOk nodeOk : ℕ → Bool) (e : E) :
    ∃ idr' r, idrAlloc pageOk nodeOk idr (some e) = some (idr', r) ∧
      ((∃ i, nextFree idr.idt = some i ∧ r = (i + start : ℕ) ∧
        IdrHolds start n (Function.update m i (some e)) idr' ∧
          idr'.idt.last = i) ∨
        r < 0 ∧ IdrHolds start n m idr') := by
  obtain ⟨idr', r, hrun, hrooted, ⟨i, hfree, hr, hbits, hlast⟩ | ⟨hr, hbits, -⟩⟩ :=
    h.bits.alloc hn hsmall pageOk nodeOk e h.rooted fun index _ _ hlook => h.rooted.insert nodeOk hlook
  · exact ⟨idr', r, hrun, Or.inl ⟨i, hfree, hr, hbits.holds hrooted, hlast⟩⟩
  · exact ⟨idr', r, hrun, Or.inr ⟨hr, hbits.holds hrooted⟩⟩

/-- Another bound position keeps the tree rooted. -/
theorem IdrHolds.remove (h : IdrHolds start n m idr) (hsmall : n < s32Max) {i : ℕ} (hi : m i = some e)
    (hother : ∃ j, j ≠ i ∧ m j ≠ none) :
    ∃ idr', idrRemove idr (start + i) = some (idr', some e) ∧
      IdrHolds start n (Function.update m i none) idr' := by
  obtain ⟨idr', hrun, hroot, hbits⟩ := h.bits.remove hsmall hi fun index hlook =>
    have hdel := h.rooted.delete hlook
    ⟨hdel.1, hdel.2.1⟩
  unfold s32Max at hsmall
  have hin : i < n := h.bits.lt (by rw [hi]; exact Option.some_ne_none e)
  obtain ⟨j, hji, hj⟩ := hother
  have hjn := h.bits.lt hj
  have hlook : radixTreeLookup idr.rdtree (BitVec.ofNat 64 i) = some e := by
    rw [h.lookup, ofNat_toNat_position (by omega), hi]
  refine ⟨idr', hrun, hbits.holds ?_⟩
  rw [hroot]
  refine (h.rooted.delete hlook).2.2 ⟨BitVec.ofNat 64 j, fun heq => hji ?_, ?_⟩
  · have := congrArg BitVec.toNat heq
    rw [ofNat_toNat_position (by omega), ofNat_toNat_position (by omega)] at this
    exact this
  · rw [h.lookup, ofNat_toNat_position (by omega)]
    exact hj

theorem IdrHolds.find (h : IdrHolds start n m idr) (hsmall : n < s32Max) (id : ℤ) :
    idrFind idr id = if (start : ℤ) ≤ id then m (id - start).toNat else none := h.bits.find hsmall id

/-- The first pointer is bound to the first position. -/
theorem idrInitBase_alloc {stop : ℕ} {idr idr' : Idr E} {r : ℤ} {pageOk nodeOk : ℕ → Bool}
    (hinit : idrInitBase start stop = some idr)
    (halloc : idrAlloc pageOk nodeOk idr (some e) = some (idr', r)) (hr : 0 ≤ r) :
    start < stop ∧ stop - start + 1 < s32Max ∧ r = start ∧
      IdrHolds start (stop - start + 1) (Function.update (fun _ => none) 0 (some e)) idr' ∧
        idr'.idt.last = 0 := by
  unfold idrInitBase at hinit
  obtain ⟨t, ht, rfl⟩ := Option.map_eq_some_iff.mp hinit
  obtain ⟨hstop, hsmall, his⟩ := idtInit_is ht
  rw [idrAlloc] at halloc
  dsimp only at halloc
  obtain ⟨i, hfree, hout, his'⟩ | ⟨hout, -, -⟩ := idtAlloc_cases pageOk (Nat.succ_pos _) his
  · have hzero : i = 0 := by
      rw [idtCursor_init (Nat.succ_pos _)] at hfree
      cases hfree
      rfl
    subst hzero
    have hiid : iidOf (idtAlloc pageOk t).1 ((0 + start : ℕ) : ℤ) = 0 :=
      iidOf_position his'.offset (by decide)
    rw [hout, if_neg (by omega), hiid] at halloc
    by_cases hok : (radixTreeInsert nodeOk radixInit 0 (some e)).2 = 0
    · obtain ⟨hrooted, hlook⟩ := radixInit_insert hok
      rw [hok, if_neg (not_not.mpr rfl)] at halloc
      cases halloc
      refine ⟨hstop, hsmall, by omega, ⟨?_, hrooted, fun j => ?_, fun j hj => ?_⟩, his'.last⟩
      · rw [isSome_update, his'.last]
        exact his'
      · rw [hlook]
        by_cases hj : j = 0
        · rw [hj, Function.update_self]
          rfl
        · have hne : j.toNat ≠ 0 := fun h0 => hj (BitVec.eq_of_toNat_eq h0)
          rw [Function.update_of_ne hj, Function.update_of_ne hne]
      · rw [Function.update_of_ne (by omega)]
    · rw [if_pos hok] at halloc
      split at halloc
      · cases halloc
      · cases halloc
        exact absurd hr (by decide)
  · rw [hout, if_pos (by decide)] at halloc
    cases halloc
    exact absurd hr (by decide)

end Operations

end Skp.Adt
