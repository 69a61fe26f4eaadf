import Skp.Adt.IdtScan
import Skp.Foundations.Refinement

/-! # The id allocator is a set of ids with a cursor

The abstract state is the set of ids in use and the last id given out. An allocation takes the first
id that is free, going up cyclically from the one after the last, in every state of the pages and of
their counters. -/
namespace Skp.Adt
set_option autoImplicit false
open Skp.Foundations

/-! ## The set of ids in use -/

structure IdPool where
  used : Finset ℤ
  last : Option ℤ

/-- The ids of a range, going up from `c` and then from `start`. -/
def idsFrom (start stop c : ℤ) : List ℤ :=
  ((List.range (stop - c + 1).toNat).map fun (k : ℕ) => c + (k : ℤ)) ++
    (List.range (c - start).toNat).map fun (k : ℕ) => start + (k : ℤ)

namespace IdPool

/-- The id after the last one given out. -/
def cursor (start stop : ℤ) (P : IdPool) : ℤ :=
  match P.last with
  | none => start
  | some id => if id < stop then id + 1 else start

def firstFree (start stop : ℤ) (P : IdPool) : Option ℤ :=
  (idsFrom start stop (P.cursor start stop)).find? fun id => decide (id ∉ P.used)

end IdPool

/-- Allocation takes the first free id, a removal succeeds on an id in use, and `idt_next` gives the
least id in use at or above an argument in the range. -/
def idtSpec (start stop : ℤ) : Spec IdPool IdtCmd IdtOut where
  legal _ c := match c with
    | .alloc pageOk => ∀ k, pageOk k = true
    | .remove _ => True
    | .next _ => True
  next P c := match c with
    | .alloc _ => match P.firstFree start stop with
      | some id => { used := insert id P.used, last := some id }
      | none => P
    | .remove id => { P with used := P.used.erase id }
    | .next _ => P
  out P c o := match c with
    | .alloc _ => o = .id ((P.firstFree start stop).getD eNOSPC)
    | .remove id => o = .removed (decide (id ∈ P.used))
    | .next id => (start ≤ id ∧ id ≤ stop ∧ ∃ m, IsLeast {x | x ∈ P.used ∧ id ≤ x} m ∧ o = .id m) ∨
        ((start ≤ id → id ≤ stop → ∀ x ∈ P.used, x < id) ∧ o = .id eNOENT)

/-- The counters of an allocator are the numbers of clear bits, in all and page by page. -/
def CountersExact (t : Idt) : Prop :=
  t.nrFree = (clearBits t.bit t.nrBit).card ∧
  ∀ p < t.pages, (t.idmap p).nrFree = (clearBits (Idt.pageBit (t.idmap p)) (t.idmap p).nrBit).card

theorem IdtIs.countersExact {start n last : ℕ} {bits : ℕ → Bool} {t : Idt} (h : IdtIs start n bits last t) :
    CountersExact t := by
  refine ⟨by rw [h.bit, h.nrBit, h.total], fun p hp => ?_⟩
  have hp : p < idtPages n := by
    rw [← h.nrBit]
    exact hp
  rw [h.pageBits p hp, h.pageFree p hp]

/-! ## The relation -/

/-- The state `t` of an allocator of the ids from `start` to `stop` and the abstract state. -/
structure IdtRel (start stop : ℕ) (t : Idt) (P : IdPool) : Prop where
  state : ∃ last bits, IdtIs start (stop - start + 1) bits last t ∧
    (∀ i < stop - start + 1, bits i = decide ((start + i : ℤ) ∈ P.used)) ∧
    (start : ℤ) + idtCursor (stop - start + 1) last = P.cursor start stop
  range : ∀ id ∈ P.used, (start : ℤ) ≤ id ∧ id ≤ stop

theorem idsFrom_eq_map {start stop i : ℕ} (hle : start ≤ stop) (hi : i < stop - start + 1) :
    idsFrom start stop (start + i : ℤ) = (cyclicFrom (stop - start + 1) i).map fun (k : ℕ) =>
  (start : ℤ) + k := by
  have hfirst : ((stop : ℤ) - (start + i) + 1).toNat = stop - start + 1 - i := by omega
  have hsecond : ((start : ℤ) + i - start).toNat = i := by omega
  rw [idsFrom, hfirst, hsecond, cyclicFrom, List.map_append, List.range'_eq_map_range, List.map_map]
  congr 1
  refine List.map_congr_left fun k _ => ?_
  rw [Function.comp_apply]
  push_cast
  ring

theorem IdPool.firstFree_eq {start stop c : ℕ} {P : IdPool} {bits : ℕ → Bool} (hle : start ≤ stop)
    (hc : c < stop - start + 1)
    (hbits : ∀ i < stop - start + 1, bits i = decide ((start + i : ℤ) ∈ P.used))
    (hcur : (start : ℤ) + c = P.cursor start stop) :
    P.firstFree start stop =
      ((cyclicFrom (stop - start + 1) c).find? fun i => !bits i).map fun (k : ℕ) => (start : ℤ) + k := by
  rw [IdPool.firstFree, ← hcur, idsFrom_eq_map hle hc, List.find?_map]
  congr 1
  refine List.find?_congr fun i hi => ?_
  rw [Function.comp_apply, hbits i ((mem_cyclicFrom hc.le).mp hi), decide_not]

theorem mem_idsFrom {start stop c id : ℤ} (hlo : start ≤ c) (hhi : c ≤ stop) :
    id ∈ idsFrom start stop c ↔ start ≤ id ∧ id ≤ stop := by
  simp only [idsFrom, List.mem_append, List.mem_map, List.mem_range]
  constructor
  · rintro (⟨k, hk, rfl⟩ | ⟨k, hk, rfl⟩) <;> omega
  · rintro ⟨h₁, h₂⟩
    by_cases hc : c ≤ id
    · exact Or.inl ⟨(id - c).toNat, by omega, by omega⟩
    · exact Or.inr ⟨(id - start).toNat, by omega, by omega⟩

/-- An allocation gives a free id of the range, and fails only when there is none. -/
def IdPool.Exact (start stop : ℤ) (P : IdPool) : Prop :=
  (∀ id, P.firstFree start stop = some id → id ∉ P.used ∧ start ≤ id ∧ id ≤ stop) ∧
  (P.firstFree start stop = none ↔ ∀ id, start ≤ id → id ≤ stop → id ∈ P.used)

theorem IdPool.exact_of_cursor {start stop : ℤ} {P : IdPool} (hlo : start ≤ P.cursor start stop)
    (hhi : P.cursor start stop ≤ stop) : P.Exact start stop := by
  refine ⟨fun id hid => ⟨?_, (mem_idsFrom hlo hhi).mp (List.mem_of_find?_eq_some hid)⟩, ?_⟩
  · have hfree := List.find?_some hid
    exact of_decide_eq_true hfree
  · rw [IdPool.firstFree, List.find?_eq_none]
    simp only [mem_idsFrom hlo hhi, decide_eq_true_eq, not_not, and_imp]

/-! ## The steps -/

section Steps
variable {start stop : ℕ} {t : Idt} {P : IdPool}

theorem cursor_after {n i : ℕ} (hn : n = stop - start + 1) (hi : i < n) (hsmall : n < s32Max)
    {used : Finset ℤ} :
    (start : ℤ) + idtCursor n i =
      IdPool.cursor start stop { used := used, last := some ((start : ℤ) + i) } := by
  unfold s32Max at hsmall
  change _ = if (start : ℤ) + i < stop then (start : ℤ) + i + 1 else start
  unfold idtCursor
  split_ifs <;> omega

theorem bits_insert {n i : ℕ} {bits : ℕ → Bool} {used : Finset ℤ}
    (hbits : ∀ j < n, bits j = decide ((start + j : ℤ) ∈ used)) :
    ∀ j < n, Function.update bits i true j = decide ((start + j : ℤ) ∈ insert ((start : ℤ) + i) used) := by
  intro j hj
  by_cases hji : j = i
  · subst hji
    rw [Function.update_self]
    exact (decide_eq_true (Finset.mem_insert_self _ _)).symm
  · rw [Function.update_of_ne hji, hbits j hj, decide_eq_decide, Finset.mem_insert]
    have hne : (start : ℤ) + j ≠ start + i := by omega
    simp only [hne, false_or]

theorem bits_erase {n i : ℕ} {bits : ℕ → Bool} {used : Finset ℤ}
    (hbits : ∀ j < n, bits j = decide ((start + j : ℤ) ∈ used)) :
    ∀ j < n, Function.update bits i false j = decide ((start + j : ℤ) ∈ used.erase ((start : ℤ) + i)) := by
  intro j hj
  by_cases hji : j = i
  · subst hji
    rw [Function.update_self]
    exact (decide_eq_false (Finset.notMem_erase _ _)).symm
  · have hne : (start : ℤ) + j ≠ start + i := by omega
    rw [Function.update_of_ne hji, hbits j hj, decide_eq_decide, Finset.mem_erase]
    simp only [ne_eq, hne, not_false_eq_true, true_and]

theorem alloc_step (hstop : start < stop) (hsmall : stop - start + 1 < s32Max) (h : IdtRel start stop t P)
    {pageOk : ℕ → Bool} (hok : ∀ k, pageOk k = true) :
    (idtSpec start stop).out P (.alloc pageOk) (idtExec t (.alloc pageOk)).2 ∧
      IdtRel start stop (idtExec t (.alloc pageOk)).1 ((idtSpec start stop).next P (.alloc pageOk)) := by
  obtain ⟨⟨last, bits, his, hbits, hcur⟩, hrange⟩ := h
  have hn : 0 < stop - start + 1 := by omega
  have hfirst := IdPool.firstFree_eq hstop.le (idtCursor_lt last hn) hbits hcur
  obtain ⟨hsome, hnone⟩ := idtAlloc_spec hok hn his
  simp only [idtSpec, idtExec]
  cases hfind : (cyclicFrom (stop - start + 1) (idtCursor (stop - start + 1) last)).find?
      fun i => !bits i with
  | none =>
    obtain ⟨hout, hafter⟩ := hnone hfind
    rw [hfind, Option.map_none] at hfirst
    rw [hfirst, hout]
    exact ⟨rfl, ⟨last, bits, hafter, hbits, hcur⟩, hrange⟩
  | some i =>
    obtain ⟨hout, hafter⟩ := hsome i hfind
    have hi : i < stop - start + 1 :=
      (mem_cyclicFrom (idtCursor_lt last hn).le).mp (List.mem_of_find?_eq_some hfind)
    rw [hfind, Option.map_some] at hfirst
    rw [hfirst, hout]
    refine ⟨by rw [Option.getD_some, Nat.cast_add, add_comm],
      ⟨i, _, hafter, bits_insert hbits, cursor_after rfl hi hsmall⟩,
      fun id hid => ?_⟩
    rcases Finset.mem_insert.mp hid with rfl | hid
    · omega
    · exact hrange id hid

theorem remove_step (h : IdtRel start stop t P) (id : ℤ) :
    (idtSpec start stop).out P (.remove id) (idtExec t (.remove id)).2 ∧
      IdtRel start stop (idtExec t (.remove id)).1 ((idtSpec start stop).next P (.remove id)) := by
  obtain ⟨⟨last, bits, his, hbits, hcur⟩, hrange⟩ := h
  simp only [idtSpec, idtExec]
  by_cases hid : id ∈ P.used
  · obtain ⟨hlo, hhi⟩ := hrange id hid
    obtain ⟨i, rfl⟩ : ∃ i : ℕ, id = start + i := ⟨(id - start).toNat, by omega⟩
    have hi : i < stop - start + 1 := by omega
    obtain ⟨hout, hafter⟩ := idtRemove_used his hi (by rw [hbits i hi, decide_eq_true hid])
    rw [hout, decide_eq_true hid]
    exact ⟨rfl, ⟨last, _, hafter, bits_erase hbits, hcur⟩,
      fun id hid => hrange id (Finset.mem_of_mem_erase hid)⟩
  · rw [idtRemove_free his, Finset.erase_eq_of_notMem hid, decide_eq_false hid]
    · exact ⟨rfl, ⟨last, bits, his, hbits, hcur⟩, hrange⟩
    · rintro i hi rfl
      rw [hbits i hi, decide_eq_false hid]

theorem next_step (hstop : start < stop) (h : IdtRel start stop t P) (id : ℤ) :
    (idtSpec start stop).out P (.next id) (idtExec t (.next id)).2 ∧
      IdtRel start stop (idtExec t (.next id)).1 ((idtSpec start stop).next P (.next id)) := by
  refine ⟨?_, h⟩
  obtain ⟨⟨last, bits, his, hbits, hcur⟩, hrange⟩ := h
  simp only [idtSpec, idtExec]
  by_cases hid : (start : ℤ) ≤ id ∧ id ≤ stop
  · obtain ⟨i, rfl⟩ : ∃ i : ℕ, id = start + i := ⟨(id - start).toNat, by omega⟩
    have hi : i < stop - start + 1 := by omega
    rw [idtNext_spec his hi]
    cases hfind : (List.range' i (stop - start + 1 - i)).find? bits with
    | none =>
      refine Or.inr ⟨fun _ _ x hx => ?_, rfl⟩
      obtain ⟨hlo, hhi⟩ := hrange x hx
      by_contra hge
      have hclear := List.find?_range'_eq_none.mp hfind (x - start).toNat (by omega) (by omega)
      rw [hbits _ (by omega), show (start : ℤ) + (x - start).toNat = x by omega, decide_eq_true hx] at hclear
      cases hclear
    | some j =>
      obtain ⟨hset, hj, hbelow⟩ := List.find?_range'_eq_some.mp hfind
      rw [List.mem_range'_1] at hj
      refine Or.inl ⟨hid.1, hid.2, (j + start : ℕ), ⟨⟨?_, by omega⟩, ?_⟩, rfl⟩
      · rw [hbits j (by omega), decide_eq_true_eq] at hset
        rwa [Nat.cast_add, add_comm]
      · rintro x ⟨hx, hix⟩
        obtain ⟨hlo, hhi⟩ := hrange x hx
        by_contra hlt
        have hclear := hbelow (x - start).toNat (by omega) (by omega)
        rw [hbits _ (by omega), show (start : ℤ) + (x - start).toNat =
          x by omega, decide_eq_true hx] at hclear
        cases hclear
  · refine Or.inr ⟨fun hlo hhi => absurd ⟨hlo, hhi⟩ hid, ?_⟩
    have hcheck : checkIdt t id = false := Bool.eq_false_iff.mpr fun hcheck => by
      obtain ⟨i, hi, rfl⟩ := (checkIdt_iff his id).mp hcheck
      exact hid ⟨by omega, by omega⟩
    rw [idtNext, hcheck]
    rfl

end Steps

/-! ## Runs -/

/-- What `idt_init` accepts, and the state it leaves. -/
theorem idtInit_is {start stop : ℕ} {t : Idt} (h : idtInit start stop = some t) :
    start < stop ∧ stop - start + 1 < s32Max ∧ IdtIs start (stop - start + 1) (fun _ => false) u32Max t := by
  unfold idtInit at h
  dsimp only at h
  split at h
  · cases h
  · rename_i hrange
    rw [not_or, not_or, not_or] at hrange
    obtain ⟨hstop, -, -, hn⟩ := hrange
    cases h
    have hbits := fun p hp => pageSize_of_lt (n := stop - start + 1) (p := p) (by omega) hp
    refine ⟨by omega, by omega, rfl, rfl, rfl, rfl, fun p hp => hbits p hp, fun p hp => ?_, ?_⟩
    · exact (hbits p hp).trans (clearBits_all_clear _).symm
    · exact (clearBits_all_clear _).symm

theorem idtCursor_init {n : ℕ} (hn : 0 < n) : idtCursor n u32Max = 0 := by
  unfold idtCursor u32Max
  split <;> omega

theorem idtInit_rel {start stop : ℕ} {t : Idt} (h : idtInit start stop = some t) :
    start < stop ∧ stop - start + 1 < s32Max ∧ IdtRel start stop t { used := ∅, last := none } := by
  obtain ⟨hstop, hn, his⟩ := idtInit_is h
  refine ⟨hstop, hn, ⟨u32Max, fun _ => false, his, fun i _ => rfl, ?_⟩, fun id hid => absurd hid (by simp)⟩
  rw [idtCursor_init (Nat.succ_pos _)]
  exact Int.add_zero _

/-- Every run of an allocator whose page allocations succeed answers as the set of ids with a cursor
does, and leaves exact counters; the next allocation gives a free id of the range unless there is
none. -/
theorem idt_conforms {start stop : ℕ} {t : Idt} (hinit : idtInit start stop = some t) (cs : List IdtCmd)
    (hlegal : (idtSpec start stop).LegalRun { used := ∅, last := none } cs) :
    (idtSpec start stop).Conforms { used := ∅, last := none } cs (runCmds idtExec t cs).2 ∧
      CountersExact (runCmds idtExec t cs).1 ∧
      ((idtSpec start stop).after { used := ∅, last := none } cs).Exact start stop := by
  obtain ⟨hstop, hsmall, hrel⟩ := idtInit_rel hinit
  have hstep : ∀ t P c, IdtRel start stop t P → (idtSpec start stop).legal P c →
      (idtSpec start stop).out P c (idtExec t c).2 ∧
        IdtRel start stop (idtExec t c).1 ((idtSpec start stop).next P c) := by
    intro t P c h hl
    cases c with
    | alloc pageOk => exact alloc_step hstop hsmall h hl
    | remove id => exact remove_step h id
    | next id => exact next_step hstop h id
  obtain ⟨hconf, hfin⟩ := Spec.conforms hstep cs t { used := ∅, last := none } hrel hlegal
  obtain ⟨last, _, his, -, hcur⟩ := hfin.state
  have hlt : idtCursor (stop - start + 1) last < stop - start + 1 := idtCursor_lt last (by omega)
  exact ⟨hconf, his.countersExact, IdPool.exact_of_cursor (by omega) (by omega)⟩

/-- Two ids are given out, the first one is given back, and the scan goes on from the second. -/
def idtRun : List IdtCmd :=
  [.alloc fun _ => true, .alloc fun _ => true, .remove 10, .alloc fun _ => true, .next 10]

theorem idt_conforms_ten : ∃ t, idtInit 10 20 = some t ∧
    (runCmds idtExec t idtRun).2 = [.id 10, .id 11, .removed true, .id 12, .id 11] ∧
    (idtSpec 10 20).Conforms { used := ∅, last := none } idtRun (runCmds idtExec t idtRun).2 := by
  have hlegal : (idtSpec (10 : ℕ) (20 : ℕ)).LegalRun { used := ∅, last := none } idtRun :=
    ⟨fun _ => rfl, fun _ => rfl, trivial, fun _ => rfl, trivial, trivial⟩
  exact ⟨_, rfl, by decide, (idt_conforms rfl idtRun hlegal).1⟩

/-- `idt_next` refuses an argument below the range, whatever is in use above it. -/
theorem idt_next_below_range : ∃ t, idtInit 10 20 = some t ∧
    (runCmds idtExec t [.alloc fun _ => true, .next 5]).2 = [.id 10, .id eNOENT] ∧
    IsLeast {x : ℤ | x ∈ ({10} : Finset ℤ) ∧ 5 ≤ x} 10 := by
  refine ⟨_, rfl, by decide, ⟨by simp, by norm_num⟩, ?_⟩
  rintro x ⟨hx, -⟩
  exact (Finset.mem_singleton.mp hx).ge

end Skp.Adt
