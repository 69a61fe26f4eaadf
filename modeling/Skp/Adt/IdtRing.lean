import Skp.Adt.IdtRefine

/-! # Ring mode

With removals that move the cursor back, an allocator gives out the lowest id that is not out. -/
namespace Skp.Adt
set_option autoImplicit false
open Skp.Foundations

/-- `idt_alloc` and `idt_ring_remove`. -/
inductive IdtRingCmd where
  | alloc (pageOk : ℕ → Bool)
  | remove (id : ℤ)

def idtRingExec (t : Idt) : IdtRingCmd → Idt × IdtOut
  | .alloc pageOk => let r := idtAlloc pageOk t; (r.1, .id r.2)
  | .remove id => let r := idtRemove' true t id; (r.1, .removed r.2)

/-! ## The ids that are out -/

def lowestFree (start stop : ℤ) (out : Finset ℤ) : Option ℤ :=
  (idsFrom start stop start).find? fun id => decide (id ∉ out)

/-- The state is the set of the ids given out and not taken back. An allocation gives out the lowest
of the others. -/
def idtRingSpec (start stop : ℤ) : Spec (Finset ℤ) IdtRingCmd IdtOut where
  legal _ c := match c with
    | .alloc pageOk => ∀ k, pageOk k = true
    | .remove _ => True
  next out c := match c with
    | .alloc _ => (lowestFree start stop out).elim out fun id => insert id out
    | .remove id => out.erase id
  out out c o := match c with
    | .alloc _ =>
        (∃ m, lowestFree start stop out = some m ∧
          IsLeast {x | start ≤ x ∧ x ≤ stop ∧ x ∉ out} m ∧ o = .id m) ∨
        ((∀ x, start ≤ x → x ≤ stop → x ∈ out) ∧ o = .id eNOSPC)
    | .remove id => o = .removed (decide (id ∈ out))

/-! ## The cursor -/

/-- The ids at or below the cursor are in use; `U32_MAX` is the cursor with nothing below it. -/
def UsedToCursor (t : Idt) : Prop := t.last ≠ u32Max → ∀ i ≤ t.last, t.bit i = true

/-- The cursor is a position with none but used ones up to it, or the mark of an empty front. -/
structure RingIdt (start n : ℕ) (t : Idt) : Prop where
  is : IdtIs start n t.bit t.last t
  cursor : t.last = u32Max ∨ t.last < n
  used : UsedToCursor t

section Steps
variable {start n : ℕ} {t : Idt}

theorem RingIdt.of_is {bits : ℕ → Bool} {last : ℕ} (his : IdtIs start n bits last t)
    (hcursor : last = u32Max ∨ last < n)
    (hused : last ≠ u32Max → ∀ i ≤ last, bits i = true) : RingIdt start n t := by
  obtain rfl := his.bit
  obtain rfl := his.last
  exact ⟨his, hcursor, hused⟩

theorem RingIdt.lowest (h : RingIdt start n t) (hn : 0 < n) (hsmall : n < s32Max) :
    (cyclicFrom n (idtCursor n t.last)).find? (fun i => !t.bit i) =
      (List.range n).find? fun i => !t.bit i := by
  unfold s32Max at hsmall
  by_cases hmark : t.last = u32Max
  · rw [hmark, idtCursor_init hn]
    exact find?_cyclicFrom (Nat.zero_le n) fun i hi => absurd hi (Nat.not_lt_zero i)
  · have hlast := h.cursor.resolve_left hmark
    have hused := h.used hmark
    by_cases hfull : t.last + 1 < n
    · have hcursor : idtCursor n t.last = t.last + 1 := by
        unfold idtCursor
        rw [Nat.mod_eq_of_lt (by omega), if_neg (by omega)]
      rw [hcursor]
      refine find?_cyclicFrom hfull.le fun i hi => ?_
      rw [hused i (by omega)]
      rfl
    · -- every id is in use
      have hall : ∀ i < n, (!t.bit i) = false := fun i hi => by
        rw [hused i (by omega)]
        rfl
      have hzero : idtCursor n t.last = 0 := by
        unfold idtCursor
        rw [Nat.mod_eq_of_lt (by omega), if_pos (by omega)]
      rw [hzero]
      exact find?_cyclicFrom (Nat.zero_le n) fun i hi => absurd hi (Nat.not_lt_zero i)

theorem RingIdt.alloc (h : RingIdt start n t) (hn : 0 < n) (hsmall : n < s32Max) {pageOk : ℕ → Bool}
    (hok : ∀ k, pageOk k = true) :
    RingIdt start n (idtAlloc pageOk t).1 := by
  obtain ⟨htaken, hfull⟩ := idtAlloc_spec hok hn h.is
  rw [h.lowest hn hsmall] at htaken hfull
  cases hfind : (List.range n).find? fun i => !t.bit i with
  | none => exact .of_is (hfull hfind).2 h.cursor h.used
  | some i =>
    obtain ⟨-, hi, hbelow⟩ := List.find?_range_eq_some.mp hfind
    refine .of_is (htaken i hfind).2 (Or.inr (List.mem_range.mp hi)) fun _ j hj => ?_
    by_cases hji : j = i
    · rw [hji, Function.update_self]
    · rw [Function.update_of_ne hji]
      have hused := hbelow j (by omega)
      rw [Bool.not_not] at hused
      exact hused

theorem RingIdt.remove {i : ℕ} (h : RingIdt start n t) (hsmall : n < s32Max) (hi : i < n)
    (hset : t.bit i = true) :
    RingIdt start n (idtRemove' true t (start + i)).1 := by
  unfold s32Max at hsmall
  refine .of_is (idtRemove'_used true h.is hi hset).2 ?_ ?_
  · rcases h.cursor with hmark | hlast
    · left
      rw [lastAfter, hmark, Bool.true_and, decide_eq_false (fun hand => hand.2 rfl),
        if_neg Bool.false_ne_true]
    · unfold lastAfter u32Max
      split
      · by_cases hzero : i = 0
        · left
          rw [hzero]
          rfl
        · right
          omega
      · exact Or.inr hlast
  · intro hmark j hj
    unfold lastAfter at hmark hj
    split at hmark
    · rename_i hcond
      rw [if_pos hcond] at hj
      rw [Bool.true_and, decide_eq_true_eq] at hcond
      have hpos : i ≠ 0 := by
        rintro rfl
        exact hmark rfl
      unfold u32Max at hj
      rw [Function.update_of_ne (by omega)]
      exact h.used hcond.2 j (by omega)
    · rename_i hcond
      rw [if_neg hcond] at hj
      rw [Bool.true_and, decide_eq_true_eq, not_and_not_right] at hcond
      rw [Function.update_of_ne]
      · exact h.used hmark j hj
      · rintro rfl
        exact hmark (hcond hj)

end Steps

/-! ## The relation -/

structure RingRel (start stop : ℕ) (t : Idt) (out : Finset ℤ) : Prop where
  ring : RingIdt start (stop - start + 1) t
  bits : ∀ i < stop - start + 1, t.bit i = decide ((start + i : ℤ) ∈ out)
  range : ∀ id ∈ out, (start : ℤ) ≤ id ∧ id ≤ stop

section Rel
variable {start stop : ℕ} {t : Idt} {out : Finset ℤ}

theorem lowestFree_eq (hle : start ≤ stop)
    (hbits : ∀ i < stop - start + 1, t.bit i = decide ((start + i : ℤ) ∈ out)) :
    lowestFree start stop out =
      ((List.range (stop - start + 1)).find? fun i => !t.bit i).map fun (k : ℕ) =>
  (start : ℤ) + k := by
  have hids := idsFrom_eq_map (i := 0) hle (Nat.succ_pos _)
  rw [Nat.cast_zero, add_zero] at hids
  rw [lowestFree, hids, List.find?_map, cyclicFrom, Nat.sub_zero, List.range_zero, List.append_nil,
    ← List.range_eq_range']
  congr 1
  refine List.find?_congr fun i hi => ?_
  rw [Function.comp_apply, hbits i (List.mem_range.mp hi), decide_not]

theorem RingRel.alloc (hstop : start < stop) (hsmall : stop - start + 1 < s32Max)
    (h : RingRel start stop t out) {pageOk : ℕ → Bool}
    (hok : ∀ k, pageOk k = true) :
    (idtRingSpec start stop).out out (.alloc pageOk) (idtRingExec t (.alloc pageOk)).2 ∧
      RingRel start stop (idtRingExec t (.alloc pageOk)).1
        ((idtRingSpec start stop).next out (.alloc pageOk)) := by
  obtain ⟨htaken, hfull⟩ := idtAlloc_spec hok (Nat.succ_pos _) h.ring.is
  have hring := h.ring.alloc (Nat.succ_pos _) hsmall hok
  have hlowest := lowestFree_eq hstop.le h.bits
  rw [h.ring.lowest (Nat.succ_pos _) hsmall] at htaken hfull
  simp only [idtRingSpec, idtRingExec]
  cases hfind : (List.range (stop - start + 1)).find? fun i => !t.bit i with
  | none =>
    obtain ⟨hout, hafter⟩ := hfull hfind
    rw [hfind, Option.map_none] at hlowest
    rw [hlowest]
    refine ⟨Or.inr ⟨fun x hlo hhi => ?_, by rw [hout]⟩, hring, fun i hi => ?_, h.range⟩
    · have hused := List.find?_eq_none.mp hfind (x - start).toNat (List.mem_range.mpr (by omega))
      rw [h.bits _ (by omega), show (start : ℤ) + (x - start).toNat = x by omega] at hused
      simpa using hused
    · rw [hafter.bit, h.bits i hi]
      rfl
  | some i =>
    obtain ⟨hout, hafter⟩ := htaken i hfind
    obtain ⟨hfree, hi, hbelow⟩ := List.find?_range_eq_some.mp hfind
    rw [List.mem_range] at hi
    rw [hfind, Option.map_some] at hlowest
    rw [hlowest]
    refine ⟨Or.inl ⟨_, rfl, ⟨⟨by omega, by omega, ?_⟩, ?_⟩, ?_⟩, hring, fun j hj => ?_, fun id hid => ?_⟩
    · rw [h.bits i hi, Bool.not_eq_true', decide_eq_false_iff_not] at hfree
      exact hfree
    · rintro x ⟨hlo, hhi, hx⟩
      by_contra hlt
      have hused := hbelow (x - start).toNat (by omega)
      rw [h.bits _ (by omega), show (start : ℤ) + (x - start).toNat = x by omega, decide_eq_false hx] at hused
      cases hused
    · rw [hout, Nat.cast_add, add_comm]
    · rw [hafter.bit]
      exact bits_insert h.bits j hj
    · rcases Finset.mem_insert.mp hid with rfl | hid
      · omega
      · exact h.range id hid

theorem RingRel.remove (hsmall : stop - start + 1 < s32Max) (h : RingRel start stop t out) (id : ℤ) :
    (idtRingSpec start stop).out out (.remove id) (idtRingExec t (.remove id)).2 ∧
      RingRel start stop (idtRingExec t (.remove id)).1 ((idtRingSpec start stop).next out (.remove id)) := by
  simp only [idtRingSpec, idtRingExec]
  by_cases hid : id ∈ out
  · obtain ⟨hlo, hhi⟩ := h.range id hid
    obtain ⟨i, rfl⟩ : ∃ i : ℕ, id = start + i := ⟨(id - start).toNat, by omega⟩
    have hi : i < stop - start + 1 := by omega
    have hset : t.bit i = true := by rw [h.bits i hi, decide_eq_true hid]
    obtain ⟨hout, hafter⟩ := idtRemove'_used true h.ring.is hi hset
    refine ⟨by rw [hout, decide_eq_true hid], h.ring.remove hsmall hi hset, fun j hj => ?_,
      fun x hx => h.range x (Finset.mem_of_mem_erase hx)⟩
    rw [hafter.bit]
    exact bits_erase h.bits j hj
  · have hfree : idtRemove' true t id = (t, false) := idtRemove'_free true h.ring.is (by
      rintro i hi rfl
      rw [h.bits i hi, decide_eq_false hid])
    rw [hfree, Finset.erase_eq_of_notMem hid, decide_eq_false hid]
    exact ⟨rfl, h⟩

end Rel

theorem idtInit_ring {start stop : ℕ} {t : Idt} (hinit : idtInit start stop = some t) :
    RingRel start stop t ∅ where
  ring := .of_is (idtInit_is hinit).2.2 (Or.inl rfl) fun hmark => absurd rfl hmark
  bits := fun i _ => by rw [(idtInit_is hinit).2.2.bit]; rfl
  range := fun id hid => absurd hid (Finset.notMem_empty id)

/-- In any run of allocations and ring removals each allocation gives out the lowest id that is not
out, or answers `-ENOSPC` when all are, and at its end all the ids up to the cursor are out. -/
theorem idt_ring_lowest {start stop : ℕ} {t : Idt} (hinit : idtInit start stop = some t)
    (cs : List IdtRingCmd)
    (hlegal : (idtRingSpec start stop).LegalRun ∅ cs) :
    (idtRingSpec start stop).Conforms ∅ cs (runCmds idtRingExec t cs).2 ∧
      ((runCmds idtRingExec t cs).1.last ≠ u32Max → ∀ i ≤ (runCmds idtRingExec t cs).1.last,
        (start + i : ℤ) ∈ (idtRingSpec start stop).after ∅ cs) := by
  obtain ⟨hstop, hsmall, -⟩ := idtInit_is hinit
  have hstep : ∀ t out c, RingRel start stop t out → (idtRingSpec start stop).legal out c →
      (idtRingSpec start stop).out out c (idtRingExec t c).2 ∧
        RingRel start stop (idtRingExec t c).1 ((idtRingSpec start stop).next out c) := by
    intro t out c h hl
    cases c with
    | alloc pageOk => exact h.alloc hstop hsmall hl
    | remove id => exact h.remove hsmall id
  obtain ⟨hconf, hfin⟩ := Spec.conforms hstep cs t ∅ (idtInit_ring hinit) hlegal
  refine ⟨hconf, fun hmark i hi => ?_⟩
  have hlast := hfin.ring.cursor.resolve_left hmark
  have hused := hfin.ring.used hmark i hi
  rw [hfin.bits i (by omega), decide_eq_true_eq] at hused
  exact hused

/-- The first id comes back before the others, and moves the cursor to the mark of an empty front. -/
def idtRingRun : List IdtRingCmd :=
  [.alloc fun _ => true, .alloc fun _ => true, .alloc fun _ => true, .remove 11, .remove 10,
    .remove 15, .alloc fun _ => true]

theorem idt_ring_lowest_ten : ∃ t, idtInit 10 20 = some t ∧
    (runCmds idtRingExec t idtRingRun).2 = [.id 10, .id 11, .id 12, .removed true, .removed true,
      .removed false, .id 10] ∧
    (idtRingSpec 10 20).Conforms ∅ idtRingRun (runCmds idtRingExec t idtRingRun).2 ∧
    (10 : ℤ) ∈ (idtRingSpec 10 20).after ∅ idtRingRun := by
  have hlegal : (idtRingSpec (10 : ℕ) (20 : ℕ)).LegalRun ∅ idtRingRun :=
    ⟨fun _ => rfl, fun _ => rfl, fun _ => rfl, trivial, trivial, trivial, fun _ => rfl, trivial⟩
  have h := @idt_ring_lowest 10 20 _ rfl idtRingRun hlegal
  exact ⟨_, rfl, by decide, h.1, h.2 (by decide) 0 (Nat.zero_le _)⟩

end Skp.Adt
