import Skp.Foundations.Runs
import Skp.Adt.IdrModel

/-! # Runs of an id map

While a failed insertion leaves the radix tree as it was, the bitmap and the tree agree, every
pointer is found under the id it was given, and the id map can be taken down. -/
namespace Skp.Adt
set_option autoImplicit false
open Skp.Foundations

variable {E : Type}

/-! ## The operations -/

/-- `__bit2id`. -/
def bit2id (t : Idt) (bit idx : ℕ) : ℤ := ((bit + t.offset + idx * bitsPerPage) % 2 ^ 32 : ℕ)

/-- `for_each_set_bit` over one page of `idr_destroy`, with `n` turns at most; `none` where its
`BUG_ON` fires. -/
def destroyBits (idx size : ℕ) : ℕ → ℕ → Idr E → Option (Idr E)
  | 0, _, idr => some idr
  | n + 1, bit, idr =>
      let bit := findNextBit (Idt.pageBit (idr.idt.idmap idx)) size bit
      if bit < size then
        match idrRemove idr (bit2id idr.idt bit idx) with
        | some (idr, some _) => destroyBits idx size n (bit + 1) idr
        | _ => none
      else some idr

def destroyPage (idx size : ℕ) (idr : Idr E) : Option (Idr E) :=
  if (idr.idt.idmap idx).nrFree = size then some idr else destroyBits idx size size 0 idr

/-- The first `n` pages. -/
def destroyPages : ℕ → Idr E → Option (Idr E)
  | 0, idr => some idr
  | n + 1, idr => (destroyPages n idr).bind (destroyPage n bitsPerPage)

/-- `idr_destroy` up to `idt_destroy`. -/
def idrDestroy (idr : Idr E) : Option (Idr E) :=
  (destroyPages (idr.idt.pages - 1) idr).bind fun idr =>
    (destroyPage (idr.idt.pages - 1) (lastBits idr.idt.nrBit) idr).bind fun idr =>
      if idr.rdtree.rnode.isNull then some idr else none

inductive IdrCmd (E : Type) where
  | alloc (pageOk nodeOk : ℕ → Bool) (ptr : Option E)
  | remove (id : ℤ)
  | find (id : ℤ)

inductive IdrOut (E : Type) where
  | id (r : ℤ)
  | ptr (p : Option E)
deriving DecidableEq

def idrExec (idr : Idr E) : IdrCmd E → Option (Idr E × IdrOut E)
  | .alloc pageOk nodeOk ptr => (idrAlloc pageOk nodeOk idr ptr).map fun r => (r.1, .id r.2)
  | .remove id => (idrRemove idr id).map fun r => (r.1, .ptr r.2)
  | .find id => some (idr, .ptr (idrFind idr id))

def idrRun : Idr E → List (IdrCmd E) → Option (Idr E × List (IdrOut E))
  | idr, [] => some (idr, [])
  | idr, c :: cs => (idrExec idr c).bind fun r => (idrRun r.1 cs).map fun q => (q.1, r.2 :: q.2)

/-! ## The contract -/

/-- The pointers that are bound after a call, by the ids that were given out and taken back. -/
def boundAfter (b : ℤ → Option E) : IdrCmd E → IdrOut E → ℤ → Option E
  | .alloc _ _ ptr, .id r => if 0 ≤ r then Function.update b r ptr else b
  | .remove id, _ => Function.update b id none
  | _, _ => b

def boundBy (b : ℤ → Option E) : List (IdrCmd E) → List (IdrOut E) → ℤ → Option E
  | c :: cs, o :: os => boundBy (boundAfter b c o) cs os
  | _, _ => b

/-- No id of the range is free, or there is no memory. -/
def Exhausted (start stop : ℕ) (b : ℤ → Option E) (pageOk nodeOk : ℕ → Bool) : Prop :=
  (∀ id : ℤ, start ≤ id → id ≤ stop → b id ≠ none) ∨ (∃ k, pageOk k = false) ∨ ∃ k, nodeOk k = false

/-- A new id is a free one of the range, and only a null pointer, a full range or want of memory
leaves a call without one; a removal and a lookup give the bound pointer. -/
def AnswerOk (start stop : ℕ) (b : ℤ → Option E) : IdrCmd E → IdrOut E → Prop
  | .alloc pageOk nodeOk ptr, .id r =>
      (0 ≤ r → ptr.isSome = true ∧ b r = none ∧ start ≤ r ∧ r ≤ stop) ∧
        (r < 0 → ptr = none ∨ Exhausted start stop b pageOk nodeOk)
  | .remove id, .ptr p => p = b id
  | .find id, .ptr p => p = b id
  | _, _ => False

def AnswersOk (start stop : ℕ) : (ℤ → Option E) → List (IdrCmd E) → List (IdrOut E) → Prop
  | _, [], os => os = []
  | b, c :: cs, os =>
      ∃ o rest, os = o :: rest ∧ AnswerOk start stop b c o ∧ AnswersOk start stop (boundAfter b c o) cs rest

/-- The bit of an id is set if and only if the tree has a pointer there, the one that is bound to
the id; nothing else is in the tree. -/
structure IdrAgrees (start n : ℕ) (idr : Idr E) (b : ℤ → Option E) : Prop where
  bit : ∀ i < n, idr.idt.bit i = (radixTreeLookup idr.rdtree (BitVec.ofNat 64 i)).isSome
  pointer : ∀ i < n, radixTreeLookup idr.rdtree (BitVec.ofNat 64 i) = b (start + i)
  beyond : ∀ j : BitVec 64, n ≤ j.toNat → radixTreeLookup idr.rdtree j = none

/-- An insertion that runs out of memory leaves the tree as it was. -/
def FailureLeavesTree (idr : Idr E) : IdrCmd E → Prop
  | .alloc pageOk nodeOk (some ptr) =>
      let r := idtAlloc pageOk idr.idt
      let q := radixTreeInsert nodeOk idr.rdtree (iidOf r.1 r.2) (some ptr)
      0 ≤ r.2 → q.2 = eNOMEM → q.1 = idr.rdtree
  | _ => True

/-- One call, for runs. -/
def idrStep (idr : Idr E) (c : IdrCmd E) : Option (Idr E) := (idrExec idr c).map Prod.fst

/-! ## Insertions that succeed -/

section Succeeds
variable {V : Type} {alloc : ℕ → Bool} {index : BitVec 64} {v : V}

theorem insertWalk_of_ok {h : ℕ} :
    ∀ {s : RadixSlot V} {k : ℕ}, (insertWalk alloc index v h s k).2.1 ≠ eNOMEM →
    insertWalk alloc index v h s k = insertWalk (fun _ => true) index v h s k := by
  induction h with
  | zero => exact fun _ => rfl
  | succ h ih =>
    intro s k hok
    rw [insertWalk] at hok
    rw [insertWalk, insertWalk, Bool.not_true, Bool.and_false, if_neg Bool.false_ne_true]
    split at hok
    · exact absurd rfl hok
    · rename_i hnode
      rw [if_neg hnode]
      dsimp only
      rw [ih hok]

theorem pushRoots_of_ok {tags : Fin 3 → Bool} {m : ℕ} : ∀ {root : RadixRoot V} {k : ℕ},
    (pushRoots alloc tags m root k).2.1 ≠ eNOMEM →
      pushRoots alloc tags m root k = pushRoots (fun _ => true) tags m root k := by
  induction m with
  | zero => exact fun _ => rfl
  | succ m ih =>
    intro root k hok
    rw [pushRoots] at hok
    rw [pushRoots, pushRoots, if_pos rfl]
    split at hok
    · rename_i hk
      rw [if_pos hk, ih hok]
    · exact absurd rfl hok

theorem insertGrown_of_ok {root : RadixRoot V} (hok : (insertGrown alloc root index).2.1 ≠ eNOMEM) :
    insertGrown alloc root index = insertGrown (fun _ => true) root index := by
  unfold insertGrown at hok ⊢
  split
  · rename_i hneed
    rw [if_pos hneed] at hok
    unfold rdtreeExtend at hok ⊢
    split
    · rfl
    · rename_i hnull
      dsimp only at hok
      rw [if_neg hnull] at hok
      exact pushRoots_of_ok hok
  · rfl

/-- When an insertion does not run out of memory, the allocator might as well have given every node. -/
theorem radixTreeInsert_of_ok {root : RadixRoot V}
    (hok : (radixTreeInsert alloc root index (some v)).2 ≠ eNOMEM) :
    radixTreeInsert alloc root index (some v) = radixTreeInsert (fun _ => true) root index (some v) := by
  have hgrown : (insertGrown alloc root index).2.1 ≠ eNOMEM := by
    intro heq
    rw [radixTreeInsert_some, heq, if_pos (by decide)] at hok
    exact hok rfl
  rw [radixTreeInsert_some] at hok
  rw [radixTreeInsert_some, radixTreeInsert_some, ← insertGrown_of_ok hgrown]
  split
  · rfl
  · rename_i hzero
    rw [if_neg hzero] at hok
    dsimp only at hok ⊢
    rw [insertWalk_of_ok hok]

theorem insertWalk_all {h : ℕ} :
    ∀ {s : RadixSlot V} {k : ℕ}, (insertWalk (fun _ => true) index v h s k).2.1 ≠ eNOMEM := by
  induction h with
  | zero =>
    intro s k
    rw [insertWalk]
    split
    · exact (by decide : (0 : ℤ) ≠ eNOMEM)
    · exact (by decide : eEXIST ≠ eNOMEM)
  | succ h ih =>
    intro s k
    rw [insertWalk, Bool.not_true, Bool.and_false, if_neg Bool.false_ne_true]
    exact ih

theorem radixTreeInsert_all (root : RadixRoot V) :
    (radixTreeInsert (fun _ => true) root index (some v)).2 ≠ eNOMEM := by
  have hgrown : (insertGrown (fun _ => true) root index).2.1 = 0 := by
    unfold insertGrown rdtreeExtend
    split
    · split
      · rfl
      · dsimp only
        rw [pushRoots_all (fun _ => true) _ _ fun _ _ => rfl]
    · rfl
  rw [radixTreeInsert_some, if_neg (not_not.mpr hgrown)]
  exact insertWalk_all

theorem exists_of_eNOMEM {root : RadixRoot V}
    (hfail : (radixTreeInsert alloc root index (some v)).2 = eNOMEM) : ∃ k, alloc k = false := by
  by_contra hall
  have hgiven : alloc = fun _ => true := by
    funext k
    exact Bool.not_eq_false _ ▸ fun hk => hall ⟨k, hk⟩
  rw [hgiven] at hfail
  exact radixTreeInsert_all root hfail

end Succeeds

/-! ## The map -/

/-- The positions lead where `m` says, and the tree has no node without items. -/
structure IdrMaps (start n : ℕ) (m : ℕ → Option E) (idr : Idr E) : Prop where
  bits : IdrBits start n m idr
  refines : ∃ M, RadixRefines idr.rdtree M

section Map
variable {start n : ℕ} {m : ℕ → Option E} {idr : Idr E} {e : E}

theorem RadixRefines.insert_cases {root : RadixRoot E} {M : RadixMap E} (hM : RadixRefines root M)
    {nodeOk : ℕ → Bool}
    {index : BitVec 64} (hfree : radixTreeLookup root index = none)
    (hleaves : (radixTreeInsert nodeOk root index (some e)).2 = eNOMEM →
      (radixTreeInsert nodeOk root index (some e)).1 = root) :
    (∃ M', RadixRefines (radixTreeInsert nodeOk root index (some e)).1 M') ∧
      ((radixTreeInsert nodeOk root index (some e)).2 = 0 ∧
          radixTreeLookup (radixTreeInsert nodeOk root index (some e)).1 =
            Function.update (radixTreeLookup root) index (some e) ∨
        (radixTreeInsert nodeOk root index (some e)).2 = eNOMEM ∧
          radixTreeLookup (radixTreeInsert nodeOk root index (some e)).1 = radixTreeLookup root) := by
  by_cases hok : (radixTreeInsert nodeOk root index (some e)).2 = eNOMEM
  · rw [hleaves hok]
    exact ⟨⟨M, hM⟩, Or.inr ⟨hok, rfl⟩⟩
  · have hnew : index ∉ M := by
      rw [← Finmap.lookup_eq_none, ← hM.lookup]
      exact hfree
    have hall : ∀ k, (fun _ : ℕ => true) k = true := fun _ => rfl
    obtain ⟨hzero, hins⟩ := radixTreeInsert_new hM hall e hnew
    rw [radixTreeInsert_of_ok hok]
    refine ⟨⟨_, hins⟩, Or.inl ⟨hzero, ?_⟩⟩
    funext i
    rw [hins.lookup, lookup_insert_eq]
    by_cases hi : i = index
    · rw [if_pos hi, hi, Function.update_self]
    · rw [if_neg hi, Function.update_of_ne hi, hM.lookup]

theorem RadixRefines.delete_cases {root : RadixRoot E} {M : RadixMap E} (hM : RadixRefines root M)
    {index : BitVec 64}
    (hbound : radixTreeLookup root index = some e) :
    (radixTreeDelete root index).2 = some e ∧
      radixTreeLookup (radixTreeDelete root index).1 = Function.update (radixTreeLookup root) index none := by
  obtain ⟨hout, hafter⟩ := radixTreeDelete_present hM ((hM.lookup index).symm.trans hbound)
  refine ⟨hout, ?_⟩
  funext i
  rw [hafter.lookup, lookup_erase_eq]
  by_cases hi : i = index
  · rw [if_pos hi, hi, Function.update_self]
  · rw [if_neg hi, Function.update_of_ne hi, hM.lookup]

namespace IdrMaps

theorem alloc (h : IdrMaps start n m idr) (hn : 0 < n) (hsmall : n < s32Max) {pageOk nodeOk : ℕ → Bool}
    (hleaves : FailureLeavesTree idr (.alloc pageOk nodeOk (some e))) :
    ∃ idr' r, idrAlloc pageOk nodeOk idr (some e) = some (idr', r) ∧
      ((∃ i, i < n ∧ m i = none ∧ r = (i + start : ℕ) ∧ IdrMaps start n (Function.update m i (some e)) idr') ∨
        r < 0 ∧ IdrMaps start n m idr' ∧
          ((∀ i < n, m i ≠ none) ∨ (∃ k, pageOk k = false) ∨ ∃ k, nodeOk k = false)) := by
  obtain ⟨M, hM⟩ := h.refines
  obtain ⟨idr', r, hrun, hrefines, ⟨i, hfree, hr, hbits, -⟩ | ⟨hr, hbits, hwhy⟩⟩ :=
    h.bits.alloc hn hsmall pageOk nodeOk e
    (Q := fun root => ∃ M, RadixRefines root M) ⟨M, hM⟩ fun index hpos hindex hfree =>
      hM.insert_cases hfree (by
      rw [hindex]
      exact hleaves hpos)
  · obtain ⟨hi, hnone⟩ := h.bits.nextFree_spec hn hfree
    exact ⟨idr', r, hrun, Or.inl ⟨i, hi, hnone, hr, hbits, hrefines⟩⟩
  · refine ⟨idr', r, hrun, Or.inr ⟨hr, ⟨hbits, hrefines⟩, ?_⟩⟩
    rcases hwhy with hnone | hpage | ⟨index, hfail⟩
    · exact Or.inl (h.bits.full_of_nextFree hn hnone)
    · exact Or.inr (Or.inl hpage)
    · exact Or.inr (Or.inr (exists_of_eNOMEM hfail))

theorem remove (h : IdrMaps start n m idr) (hsmall : n < s32Max) {i : ℕ} (hi : m i = some e) :
    ∃ idr', idrRemove idr (start + i) = some (idr', some e) ∧
      IdrMaps start n (Function.update m i none) idr' := by
  obtain ⟨M, hM⟩ := h.refines
  obtain ⟨idr', hrun, hroot, hbits⟩ := h.bits.remove hsmall hi fun index hbound => hM.delete_cases hbound
  refine ⟨idr', hrun, hbits, ?_⟩
  have hbound : M.lookup (BitVec.ofNat 64 i) = some e := by
    have hin := h.bits.lt (i := i) (by rw [hi]; exact Option.some_ne_none e)
    unfold s32Max at hsmall
    rw [← hM.lookup, h.bits.lookup, ofNat_toNat_position (by omega), hi]
  rw [hroot]
  exact ⟨_, (radixTreeDelete_present hM hbound).2⟩

/-- A removal of an id that is not bound finds nothing and changes nothing. -/
theorem remove_unbound (h : IdrMaps start n m idr) (hsmall : n < s32Max) {id : ℤ}
    (hid : ∀ i < n, id = start + i → m i = none) :
    idrRemove idr id = some (idr, none) := by
  unfold s32Max at hsmall
  rw [idrRemove]
  by_cases hcheck : checkIdt idr.idt id = true
  · obtain ⟨i, hi, rfl⟩ := (checkIdt_iff h.bits.idt id).mp hcheck
    have hiid : iidOf idr.idt (start + i) = BitVec.ofNat 64 i := by
      rw [show (start : ℤ) + i = ((i + start : ℕ) : ℤ) by omega]
      exact iidOf_position h.bits.idt.offset (by omega)
    have hnone : radixTreeLookup idr.rdtree (BitVec.ofNat 64 i) = none := by
      rw [h.bits.lookup, ofNat_toNat_position (by omega), hid i hi rfl]
    rw [hcheck, Bool.not_true, if_neg Bool.false_ne_true, hiid]
    dsimp only
    rw [radixTreeDelete_absent hnone]
  · rw [Bool.eq_false_iff.mpr hcheck, Bool.not_false, if_pos rfl]

end IdrMaps

/-! ## Taking it down -/

theorem findNextBit_found {f : ℕ → Bool} {n s : ℕ} (hlt : findNextBit f n s < n) :
    f (findNextBit f n s) = true ∧ s ≤ findNextBit f n s ∧ ∀ i, s ≤ i → i < findNextBit f n s →
      f i = false := by
  have hfind := (findNextBit_find? (f := f) (n := n) (s := s)).trans (if_pos hlt)
  obtain ⟨hset, hmem, hbelow⟩ := List.find?_range'_eq_some.mp hfind
  refine ⟨hset, (List.mem_range'_1.mp hmem).1, fun i hs hi => ?_⟩
  exact Bool.not_eq_true' _ ▸ hbelow i hs hi

theorem findNextBit_none {f : ℕ → Bool} {n s : ℕ} (hge : ¬ findNextBit f n s < n) {i : ℕ}
    (hs : s ≤ i) (hi : i < n) :
    f i = false := by
  have hfind := (findNextBit_find? (f := f) (n := n) (s := s)).trans (if_neg hge)
  exact Bool.not_eq_true' _ ▸ List.find?_range'_eq_none.mp hfind i hs (by omega)

theorem IdrMaps.pageBit (h : IdrMaps start n m idr) {p o : ℕ} (ho : o < pageSize n p) :
    Idt.pageBit (idr.idt.idmap p) o = (m (mkId p o)).isSome := h.bits.idt.pageBit_eq ho

/-- The loop over a page unbinds what is bound there from `bit` on. -/
theorem destroyBits_ok (hsmall : n < s32Max) (hfits : start + n < 2 ^ 32) {p : ℕ} :
    ∀ (k bit : ℕ) {m : ℕ → Option E} {idr : Idr E}, IdrMaps start n m idr → pageSize n p ≤ bit + k →
      (∀ o < bit, m (mkId p o) = none) →
      ∃ idr' m', destroyBits p (pageSize n p) k bit idr = some idr' ∧ IdrMaps start n m' idr' ∧
        (∀ o < pageSize n p, m' (mkId p o) = none) ∧ ∀ i, m i = none → m' i = none := by
  intro k
  induction k with
  | zero => exact fun bit m idr h hle hbelow =>
    ⟨idr, m, rfl, h, fun o ho => hbelow o (by omega), fun i hi => hi⟩
  | succ k ih =>
    intro bit m idr h hle hbelow
    rw [destroyBits]
    generalize hnext : findNextBit (Idt.pageBit (idr.idt.idmap p)) (pageSize n p) bit = next
    by_cases hlt : next < pageSize n p
    · obtain ⟨hset, hge, hbetween⟩ := findNextBit_found (hnext ▸ hlt)
      rw [hnext] at hset hge hbetween
      rw [h.pageBit hlt] at hset
      obtain ⟨e, he⟩ := Option.isSome_iff_exists.mp hset
      obtain ⟨idr', hrun, hafter⟩ := h.remove hsmall he
      have hid : bit2id idr.idt next p = start + (mkId p next : ℕ) := by
        have hlow := mkId_lt hlt
        rw [bit2id, h.bits.idt.offset]
        unfold mkId at hlow ⊢
        omega
      have hnone : ∀ o < next + 1, Function.update m (mkId p next) none (mkId p o) = none := by
        intro o ho
        by_cases heq : mkId p o = mkId p next
        · rw [heq, Function.update_self]
        · rw [Function.update_of_ne heq]
          have hne : o ≠ next := fun hoe => heq (by rw [hoe])
          by_cases hlow : o < bit
          · exact hbelow o hlow
          · have hclear := hbetween o (by omega) (by omega)
            rw [h.pageBit (by omega)] at hclear
            exact Option.isNone_iff_eq_none.mp (Option.isSome_eq_false_iff.mp hclear)
      obtain ⟨idr'', m'', hrest, hmaps, hpage, hless⟩ := ih (next + 1) hafter (by omega) hnone
      rw [if_pos hlt, hid, hrun]
      refine ⟨idr'', m'', hrest, hmaps, hpage, fun i hi => hless i ?_⟩
      by_cases heq : i = mkId p next
      · rw [heq, Function.update_self]
      · rw [Function.update_of_ne heq]
        exact hi
    · rw [if_neg hlt]
      refine ⟨idr, m, rfl, h, fun o ho => ?_, fun i hi => hi⟩
      by_cases hlow : o < bit
      · exact hbelow o hlow
      · have hclear := findNextBit_none (hnext ▸ hlt) (not_lt.mp hlow) ho
        rw [h.pageBit ho] at hclear
        exact Option.isNone_iff_eq_none.mp (Option.isSome_eq_false_iff.mp hclear)

theorem destroyPage_ok (hsmall : n < s32Max) (hfits : start + n < 2 ^ 32) {p : ℕ} (hp : p < idtPages n)
    (h : IdrMaps start n m idr) :
    ∃ idr' m', destroyPage p (pageSize n p) idr = some idr' ∧ IdrMaps start n m' idr' ∧
      (∀ o < pageSize n p, m' (mkId p o) = none) ∧ ∀ i, m i = none → m' i = none := by
  unfold destroyPage
  split
  · rename_i hfree
    refine ⟨idr, m, rfl, h, fun o ho => ?_, fun i hi => hi⟩
    have hclear : o ∈ clearBits (Idt.pageBit (idr.idt.idmap p)) (pageSize n p) := by
      rw [h.bits.idt.pageFree p hp] at hfree
      have hall := Finset.eq_of_subset_of_card_le (Finset.filter_subset _ _)
        (by rw [Finset.card_range]; exact hfree.ge)
      rw [clearBits, hall]
      exact Finset.mem_range.mpr ho
    have hbit := (mem_clearBits.mp hclear).2
    rw [h.pageBit ho] at hbit
    exact Option.isNone_iff_eq_none.mp (Option.isSome_eq_false_iff.mp hbit)
  · exact destroyBits_ok hsmall hfits (pageSize n p) 0 h (by omega) fun o ho => absurd ho (Nat.not_lt_zero o)

theorem destroyPages_ok (hsmall : n < s32Max) (hfits : start + n < 2 ^ 32) (hn : 0 < n)
    (h : IdrMaps start n m idr) (k : ℕ)
    (hk : k ≤ idtPages n - 1) :
    ∃ idr' m', destroyPages k idr = some idr' ∧ IdrMaps start n m' idr' ∧
      (∀ p < k, ∀ o < pageSize n p, m' (mkId p o) = none) ∧ ∀ i, m i = none → m' i = none := by
  induction k with
  | zero => exact ⟨idr, m, rfl, h, fun p hp => absurd hp (Nat.not_lt_zero p), fun i hi => hi⟩
  | succ k ih =>
    obtain ⟨idr₁, m₁, hrun, hmaps, hpages, hless⟩ := ih (by omega)
    have hsize := pageSize_of_lt hn (p := k) (by omega)
    rw [if_pos (by omega)] at hsize
    obtain ⟨idr₂, m₂, hpage, hmaps', hclear, hless'⟩ := destroyPage_ok hsmall hfits (p := k) (by omega) hmaps
    rw [← hsize] at hpage
    refine ⟨idr₂, m₂, ?_, hmaps', fun p hp o ho => ?_, fun i hi => hless' i (hless i hi)⟩
    · rw [destroyPages, hrun]
      exact hpage
    · by_cases hpk : p = k
      · subst hpk
        exact hclear o ho
      · exact hless' _ (hpages p (by omega) o ho)

/-- No `BUG_ON` stops `idr_destroy`, and every bit is clear in the end. -/
theorem IdrMaps.destroy (h : IdrMaps start n m idr) (hsmall : n < s32Max)
    (hfits : start + n < 2 ^ 32) (hn : 0 < n) :
    ∃ gone, idrDestroy idr = some gone ∧ gone.idt.nrFree = gone.idt.nrBit := by
  have hpages : idr.idt.pages = idtPages n := by rw [Idt.pages, h.bits.idt.nrBit]
  have hpos : 0 < idtPages n := (div_lt_idtPages hn).trans_le' (Nat.zero_le _)
  obtain ⟨idr₁, m₁, hrun, hmaps, hclear, -⟩ := destroyPages_ok hsmall hfits hn h (idtPages n - 1) le_rfl
  have hsize := pageSize_of_lt hn (p := idtPages n - 1) (by omega)
  rw [if_neg (lt_irrefl _)] at hsize
  obtain ⟨idr₂, m₂, hlast, hmaps', hclear', hless⟩ :=
    destroyPage_ok hsmall hfits (p := idtPages n - 1) (by omega) hmaps
  have hnone : ∀ i, m₂ i = none := by
    intro i
    by_cases hi : i < n
    · have hdiv := div_lt_idtPages hi
      have hmod := mod_lt_pageSize hi
      rw [← mkId_div_mod i]
      by_cases hp : i / bitsPerPage = idtPages n - 1
      · rw [hp] at hmod ⊢
        exact hclear' _ hmod
      · exact hless _ (hclear _ (by omega) _ hmod)
    · exact hmaps'.bits.beyond i (not_lt.mp hi)
  have hempty : ∀ j, radixTreeLookup idr₂.rdtree j = none := fun j => (hmaps'.bits.lookup j).trans (hnone _)
  obtain ⟨M, hM⟩ := hmaps'.refines
  have hM0 : M = ∅ := by
    apply Finmap.ext_lookup
    intro j
    rw [← hM.lookup, hempty, Finmap.lookup_empty]
  rw [hM0] at hM
  refine ⟨idr₂, ?_, ?_⟩
  · rw [idrDestroy, hpages, hrun, Option.bind_some]
    have hpages' : idr₁.idt.pages = idtPages n := by rw [Idt.pages, hmaps.bits.idt.nrBit]
    rw [hpages', hmaps.bits.idt.nrBit, hsize, hlast, Option.bind_some, if_pos hM.isNull_of_empty]
  · rw [hmaps'.bits.idt.total, hmaps'.bits.idt.nrBit]
    have hall : (fun i => (m₂ i).isSome) = fun _ => false := by
      funext i
      rw [hnone i]
      rfl
    rw [hall, clearBits_all_clear]

/-! ## Runs -/

/-- The pointers bound to the ids of the range. -/
def boundOf (start : ℕ) (m : ℕ → Option E) (id : ℤ) : Option E :=
  if (start : ℤ) ≤ id then m (id - start).toNat else none

theorem boundOf_position (m : ℕ → Option E) (i : ℕ) : boundOf start m (start + i) = m i := by
  rw [boundOf, if_pos (by omega), show ((start : ℤ) + i - start).toNat = i by omega]

theorem boundOf_update (m : ℕ → Option E) (i : ℕ) (x : Option E) :
    boundOf start (Function.update m i x) = Function.update (boundOf start m) (start + i) x := by
  funext id
  by_cases hid : id = start + i
  · rw [hid, boundOf_position, Function.update_self, Function.update_self]
  · rw [Function.update_of_ne hid, boundOf, boundOf]
    split
    · rw [Function.update_of_ne (by omega)]
    · rfl

/-- One call answers as the bound pointers say, and leaves the two structures agreed. -/
theorem IdrMaps.exec (h : IdrMaps start n m idr) (hn : 0 < n) (hsmall : n < s32Max) {c : IdrCmd E}
    (hleaves : FailureLeavesTree idr c) :
    ∃ idr' o m', idrExec idr c = some (idr', o) ∧ AnswerOk start (start + n - 1) (boundOf start m) c o ∧
      IdrMaps start n m' idr' ∧ boundOf start m' = boundAfter (boundOf start m) c o := by
  cases c with
  | alloc pageOk nodeOk ptr =>
    cases ptr with
    | none =>
      exact ⟨idr, .id eINVAL, m, rfl, ⟨fun hpos => absurd hpos (by decide), fun _ => Or.inl rfl⟩, h,
        rfl⟩
    | some e =>
      obtain ⟨idr', r, hrun, hres⟩ := h.alloc hn hsmall hleaves
      have hexec : idrExec idr (.alloc pageOk nodeOk (some e)) = some (idr', .id r) := by
        rw [idrExec, hrun]
        rfl
      obtain ⟨i, hi, hnone, rfl, hmaps⟩ | ⟨hneg, hmaps, hwhy⟩ := hres
      · refine ⟨idr', _, _, hexec,
          ⟨fun _ => ⟨rfl, ?_, by omega, by omega⟩, fun hneg => absurd hneg (by omega)⟩, hmaps, ?_⟩
        · rw [Nat.add_comm, Nat.cast_add, boundOf_position, hnone]
        · rw [boundAfter, if_pos (Int.natCast_nonneg _), boundOf_update, Nat.add_comm, Nat.cast_add]
      · refine ⟨idr', _, m, hexec,
          ⟨fun hpos => absurd hneg (not_lt.mpr hpos),
          fun _ => Or.inr (hwhy.imp_left fun hfull id hlow hhigh => ?_)⟩,
          hmaps, ?_⟩
        · obtain ⟨i, rfl⟩ : ∃ i : ℕ, id = start + i := ⟨(id - start).toNat, by omega⟩
          rw [boundOf_position]
          exact hfull i (by omega)
        · rw [boundAfter, if_neg (not_le.mpr hneg)]
  | remove id =>
    by_cases hbound : ∃ i < n, id = start + i ∧ m i ≠ none
    · obtain ⟨i, hi, rfl, hne⟩ := hbound
      obtain ⟨e, he⟩ := Option.ne_none_iff_exists'.mp hne
      obtain ⟨idr', hrun, hmaps⟩ := h.remove hsmall he
      refine ⟨idr', .ptr (some e), _, ?_, ?_, hmaps, boundOf_update m i none⟩
      · rw [idrExec, hrun]
        rfl
      · rw [AnswerOk, boundOf_position, he]
    · have hnone : ∀ i < n, id = start + i → m i = none := fun i hi hid => by
        by_contra hne
        exact hbound ⟨i, hi, hid, hne⟩
      have hfree : boundOf start m id = none := by
        unfold boundOf
        split
        · by_cases hlt : (id - start).toNat < n
          · exact hnone _ hlt (by omega)
          · exact h.bits.beyond _ (not_lt.mp hlt)
        · rfl
      refine ⟨idr, .ptr none, m, ?_, hfree.symm, h, ?_⟩
      · rw [idrExec, h.remove_unbound hsmall hnone]
        rfl
      · exact (Function.update_eq_self_iff.mpr hfree.symm).symm
  | find id => exact ⟨idr, _, m, rfl, h.bits.find hsmall id, h, rfl⟩

theorem IdrMaps.run (hn : 0 < n) (hsmall : n < s32Max) (cs : List (IdrCmd E)) :
    ∀ {m : ℕ → Option E} {idr : Idr E},
    IdrMaps start n m idr → RunMeets idrStep FailureLeavesTree idr cs →
      ∃ idr' outs m', idrRun idr cs = some (idr', outs) ∧
        AnswersOk start (start + n - 1) (boundOf start m) cs outs ∧
        IdrMaps start n m' idr' ∧ boundOf start m' = boundBy (boundOf start m) cs outs := by
  induction cs with
  | nil => exact fun {m idr} h _ => ⟨idr, [], m, rfl, rfl, h, rfl⟩
  | cons c cs ih =>
    intro m idr h hmeets
    obtain ⟨hleaves, hrest⟩ := hmeets
    obtain ⟨idr₁, o, m₁, hexec, hanswer, hmaps, hbound⟩ := h.exec hn hsmall hleaves
    obtain ⟨idr', outs, m', hrun, hanswers, hmaps', hbound'⟩ := ih hmaps (hrest idr₁ (by
      rw [idrStep, hexec]
      rfl))
    rw [hbound] at hanswers hbound'
    refine ⟨idr', o :: outs, m', ?_, ⟨o, outs, rfl, hanswer, hanswers⟩, hmaps', hbound'⟩
    rw [idrRun, hexec, Option.bind_some]
    dsimp only
    rw [hrun]
    rfl

theorem IdrMaps.agrees (h : IdrMaps start n m idr) (hsmall : n < s32Max) :
    IdrAgrees start n idr (boundOf start m) := by
  unfold s32Max at hsmall
  have hlook : ∀ i < n, radixTreeLookup idr.rdtree (BitVec.ofNat 64 i) = m i := fun i hi => by
    rw [h.bits.lookup, ofNat_toNat_position (by omega)]
  refine ⟨fun i hi => ?_, fun i hi => ?_, fun j hj => ?_⟩
  · rw [hlook i hi, h.bits.idt.bit]
  · rw [hlook i hi, boundOf_position]
  · rw [h.bits.lookup, h.bits.beyond _ hj]

end Map

theorem idrInitBase_maps {start stop : ℕ} {idr : Idr E} (hinit : idrInitBase start stop = some idr) :
    stop < s32Max ∧ start < stop ∧ stop - start + 1 < s32Max ∧
      IdrMaps start (stop - start + 1) (fun _ => none) idr := by
  obtain ⟨t, ht, rfl⟩ := Option.map_eq_some_iff.mp hinit
  obtain ⟨hlt, hsmall, his⟩ := idtInit_is ht
  have hstop : stop < s32Max := by
    unfold idtInit at ht
    dsimp only at ht
    split at ht
    · cases ht
    · rename_i hrange
      rw [not_or, not_or, not_or] at hrange
      exact not_le.mp hrange.2.2.1
  refine ⟨hstop, hlt, hsmall, ⟨?_, fun i => radixInit_refines.lookup i, fun _ _ => rfl⟩, ∅, radixInit_refines⟩
  rw [his.last]
  exact his

/-- In every run in which an insertion that runs out of memory leaves the tree, no `BUG_ON` fires,
each answer is that of the bound pointers, bitmap and tree agree on them at the end (so that an
allocation that failed has given its id back), and `idr_destroy` empties both. -/
theorem idr_ok {start stop : ℕ} {idr : Idr E} (hinit : idrInitBase start stop = some idr)
    (cs : List (IdrCmd E))
    (hleaves : RunMeets idrStep FailureLeavesTree idr cs) :
    ∃ idr' outs, idrRun idr cs = some (idr', outs) ∧ AnswersOk start stop (fun _ => none) cs outs ∧
      IdrAgrees start (stop - start + 1) idr' (boundBy (fun _ => none) cs outs) ∧
      ∃ gone, idrDestroy idr' = some gone ∧ gone.idt.nrFree = gone.idt.nrBit := by
  obtain ⟨hstop, hlt, hsmall, hmaps⟩ := idrInitBase_maps hinit
  have hnone : boundOf start (fun _ => (none : Option E)) = fun _ => none := by
    funext id
    exact ite_self _
  obtain ⟨idr', outs, m', hrun, hanswers, hmaps', hbound⟩ :=
    IdrMaps.run (Nat.succ_pos _) hsmall cs hmaps hleaves
  rw [hnone, show start + (stop - start + 1) - 1 = stop by omega] at hanswers
  rw [hnone] at hbound
  refine ⟨idr', outs, hrun, hanswers, ?_, hmaps'.destroy hsmall ?_ (Nat.succ_pos _)⟩
  · rw [← hbound]
    exact hmaps'.agrees hsmall
  · unfold s32Max at hstop
    omega

/-- Two pointers are stored, a null pointer is refused, one is taken back and its id given to another. -/
def storeAndRemove : List (IdrCmd ℕ) :=
  [.alloc (fun _ => true) (fun _ => true) (some 5), .alloc (fun _ => true) (fun _ => true) (some 6),
    .alloc (fun _ => true) (fun _ => true) none, .remove 10, .find 11, .find 10]

theorem idr_ok_storeAndRemove : ∃ (idr idr' : Idr ℕ) (outs : List (IdrOut ℕ)), idrInitBase 10 20 = some idr ∧
    idrRun idr storeAndRemove = some (idr', outs) ∧ AnswersOk 10 20 (fun _ => none) storeAndRemove outs ∧
    outs = [.id 10, .id 11, .id eINVAL, .ptr (some 5), .ptr (some 6), .ptr none] ∧
    IdrAgrees 10 11 idr' (boundBy (fun _ => none) storeAndRemove outs) := by
  have hinit : idrInitBase 10 20 = some ((idrInitBase (E := ℕ) 10 20).get rfl) := rfl
  have hgiven : ∀ (idr : Idr ℕ) (ptr : Option ℕ),
      FailureLeavesTree idr (.alloc (fun _ => true) (fun _ => true) ptr) := by
    intro idr ptr
    cases ptr with
    | none => trivial
    | some e => exact fun _ hfail => absurd hfail (radixTreeInsert_all _)
  obtain ⟨idr', outs, hrun, hanswers, hagrees, -⟩ := idr_ok hinit storeAndRemove
    ⟨hgiven _ _,
      fun _ _ => ⟨hgiven _ _,
      fun _ _ => ⟨hgiven _ _, fun _ _ => ⟨trivial, fun _ _ => ⟨trivial, fun _ _ =>
      ⟨trivial, fun _ _ => trivial⟩⟩⟩⟩⟩⟩
  have houts : (idrRun ((idrInitBase (E := ℕ) 10 20).get rfl) storeAndRemove).map Prod.snd =
      some [.id 10, .id 11, .id eINVAL, .ptr (some 5), .ptr (some 6), .ptr none] := by
    decide +kernel
  rw [hrun] at houts
  exact ⟨_, idr', outs, hinit, hrun, hanswers, Option.some.inj houts, hagrees⟩

end Skp.Adt
