import Skp.Adt.VectorModel

/-! # One call on a vector

The elements of a vector as a list, and what an insertion, a removal and a copy do to it while the
products of a count and the element size do not wrap. -/
namespace Skp.Adt
set_option autoImplicit false
open Skp.Foundations

variable {K : Type*} {ops : VectorOps K} {v v' : Vec} {es i j n : ℕ} {key : K} {a : Malloc}
    {debug : Bool} {bs : List UInt8}

def Vec.elems (v : Vec) : List (List UInt8) := (List.range v.nrElems).map (elemAt v.elemSize v.mem)

structure VecInv (ops : VectorOps K) (es : ℕ) (v : Vec) : Prop where
  elemSize : v.elemSize = es
  start : 0 ≤ v.start
  null : v.start = 0 → v.endAt = 0
  fits : v.start + (v.nrElems * v.elemSize : ℕ) ≤ v.endAt
  small : v.endAt - v.start ≤ 2 ^ 57
  keys : (v.elems.map ops.keyOf).Nodup

/-- The product of the count and the element size is what the loops see. -/
def CountFits (v : Vec) : Prop := v.nrElems * v.elemSize < 2 ^ 32

/-- The bytes of the block that `__expand` leaves. -/
def grown (debug : Bool) (v : Vec) : ℕ :=
  if v.size < v.room then v.room else v.room + vecNrElems debug * v.elemSize % 2 ^ 32

/-- There is room for one element more then, and the count does not wrap. -/
def InsertFits (debug : Bool) (v : Vec) : Prop :=
  v.nrElems + 1 < 2 ^ 32 ∧ (v.nrElems + 1) * v.elemSize ≤ grown debug v

instance (v : Vec) : Decidable (CountFits v) := inferInstanceAs (Decidable (_ < _))

instance (debug : Bool) (v : Vec) : Decidable (InsertFits debug v) := inferInstanceAs (Decidable (_ ∧ _))

/-! ## Access -/

theorem CountFits.size_eq (h : CountFits v) : v.size = v.nrElems * v.elemSize := Nat.mod_eq_of_lt h

theorem VecInv.room_eq (h : VecInv ops es v) : (v.room : ℤ) = v.endAt - v.start := by
  have hfits := h.fits
  rw [Vec.room]
  omega

theorem load_at (v : Vec) {o : ℕ} (ho : v.start + (o + n : ℕ) ≤ v.endAt) :
    v.load (v.start + o) n = some (readBytes v.mem o n) := by
  have hin : v.start ≤ v.start + o ∧ v.start + o + n ≤ v.endAt := by omega
  have hoff : (v.start + o - v.start).toNat = o := by omega
  rw [Vec.load, if_pos hin, hoff]

theorem store_at (v : Vec) {o : ℕ} (ho : v.start + (o + bs.length : ℕ) ≤ v.endAt) :
    v.store (v.start + o) bs = some { v with mem := writeBytes v.mem o bs } := by
  have hin : v.start ≤ v.start + o ∧ v.start + o + bs.length ≤ v.endAt := by omega
  have hoff : (v.start + o - v.start).toNat = o := by omega
  rw [Vec.store, if_pos hin, hoff]

theorem VecInv.load_elem (h : VecInv ops es v) (hi : i < v.nrElems) :
    v.load (v.start + (i * v.elemSize : ℕ)) v.elemSize = some (elemAt v.elemSize v.mem i) := by
  have hfits := h.fits
  have hlt := elem_fits hi v.elemSize
  exact load_at v (by omega)

theorem mem_elems (hi : i < v.nrElems) : elemAt v.elemSize v.mem i ∈ v.elems :=
  List.mem_map_of_mem (List.mem_range.mpr hi)

/-! ## Looking for an element -/

theorem findElem_ok (h : VecInv ops es v) (hes : 1 ≤ es) (hcount : CountFits v) (key : K) (fuel : ℕ)
    (hi : i ≤ v.nrElems)
    (hfuel : v.nrElems < i + fuel) :
    (∃ j, i ≤ j ∧ j < v.nrElems ∧ ops.keyOf (elemAt v.elemSize v.mem j) = key ∧
        findElem ops v key fuel (v.start + (i * v.elemSize : ℕ)) =
          some (v.start + (j * v.elemSize : ℕ), true)) ∨
      ((∀ j, i ≤ j → j < v.nrElems → ops.keyOf (elemAt v.elemSize v.mem j) ≠ key) ∧
        findElem ops v key fuel (v.start + (i * v.elemSize : ℕ)) =
          some (v.start + (v.nrElems * v.elemSize : ℕ), false)) := by
  induction fuel generalizing i with
  | zero => omega
  | succ fuel ih =>
    have hsize : 1 ≤ v.elemSize := h.elemSize ▸ hes
    rw [findElem, hcount.size_eq]
    by_cases hmore : i < v.nrElems
    · have hlt := elem_fits hmore v.elemSize
      have hcond : v.start + (i * v.elemSize : ℕ) < v.start + (v.nrElems * v.elemSize : ℕ) := by omega
      rw [if_pos hcond, h.load_elem hmore, Option.bind_some]
      by_cases hkey : ops.compareElem (elemAt v.elemSize v.mem i) key = 0
      · rw [if_pos hkey]
        exact Or.inl ⟨i, le_refl i, hmore, (ops.compareElem_eq_zero _ _).mp hkey, rfl⟩
      · have hnext : v.start + (i * v.elemSize : ℕ) + (v.elemSize : ℤ) = v.start +
          ((i + 1) * v.elemSize : ℕ) := by
          push_cast
          ring
        have hne : ops.keyOf (elemAt v.elemSize v.mem i) ≠ key :=
          fun heq => hkey ((ops.compareElem_eq_zero _ _).mpr heq)
        rw [if_neg hkey, hnext]
        rcases ih hmore (by omega) with ⟨j, hj, hjn, hjkey, hfind⟩ | ⟨hnone, hfind⟩
        · exact Or.inl ⟨j, by omega, hjn, hjkey, hfind⟩
        · refine Or.inr ⟨fun j hj hjn => ?_, hfind⟩
          rcases Nat.eq_or_lt_of_le hj with rfl | hlt
          · exact hne
          · exact hnone j hlt hjn
    · obtain rfl : i = v.nrElems := by omega
      rw [if_neg (lt_irrefl _)]
      exact Or.inr ⟨fun j hj hjn => by omega, rfl⟩

/-! ## Insertion -/

/-- The vector with the block of `__expand`, and the place behind its elements. -/
structure Expanded (debug : Bool) (v v' : Vec) (offset : ℤ) : Prop where
  nrElems : v'.nrElems = v.nrElems
  elemSize : v'.elemSize = v.elemSize
  start : 0 < v'.start
  endAt : v'.endAt = v'.start + grown debug v
  small : grown debug v ≤ 2 ^ 57
  same : ∀ k, k < v.nrElems → elemAt v.elemSize v'.mem k = elemAt v.elemSize v.mem k
  place : (if v.start + (v.nrElems * v.elemSize : ℕ) = 0 then v'.start
    else v.start + (v.nrElems * v.elemSize : ℕ) + offset) =
    v'.start + (v.nrElems * v.elemSize : ℕ)

theorem copyBlock_ok (h : VecInv ops es v) (new : Vec) (hfits : new.start + v.room ≤ new.endAt) :
    ∃ m, copyBlock v new = some { new with mem := m } ∧
      ∀ k, k < v.nrElems → elemAt v.elemSize m k = elemAt v.elemSize v.mem k := by
  have hroom := h.room_eq
  have hin := h.fits
  rw [copyBlock]
  by_cases hempty : v.room = 0
  · rw [if_neg (not_not.mpr hempty)]
    refine ⟨new.mem, rfl, fun k hk => ?_⟩
    have hlt := elem_fits hk v.elemSize
    have hzero : v.elemSize = 0 := by omega
    rw [hzero]
    rfl
  · have hload := load_at v (o := 0) (n := v.room) (by omega)
    have hend : new.start + (0 + (readBytes v.mem 0 v.room).length : ℕ) ≤ new.endAt := by
      rw [length_readBytes]
      omega
    have hstore := store_at new hend
    rw [Nat.cast_zero, add_zero] at hload hstore
    rw [if_pos hempty, hload, Option.bind_some, hstore]
    refine ⟨_, rfl, fun k hk => ?_⟩
    have hlt := elem_fits hk v.elemSize
    have hcopy : readBytes (copyBytes new.mem 0 v.mem 0 v.room) (0 + k * v.elemSize) v.elemSize =
        readBytes v.mem (0 + k * v.elemSize) v.elemSize := readBytes_copyBytes (by omega)
    rw [Nat.zero_add] at hcopy
    exact hcopy

theorem expand_ok (h : VecInv ops es v) (debug : Bool) (a : Malloc) :
    (a.addr = 0 ∧ expand debug v a = some none) ∨
      ∃ v' offset, expand debug v a = some (some (v', offset)) ∧ Expanded debug v v' offset := by
  have hroom := h.room_eq
  have hfits := h.fits
  have hstart := h.start
  have hnull := h.null
  have hsmall := h.small
  rw [expand]
  by_cases hspare : v.size < v.room
  · have hgrown : grown debug v = v.room := by rw [grown, if_pos hspare]
    have hpos : v.start ≠ 0 := fun hzero => by
      have hend := hnull hzero
      omega
    have hne : v.start + (v.nrElems * v.elemSize : ℕ) ≠ 0 := by omega
    rw [if_pos hspare]
    refine Or.inr ⟨v, 0, rfl, rfl, rfl, by omega, ?_, ?_, fun _ _ => rfl, ?_⟩
    · rw [hgrown]
      omega
    · rw [hgrown]
      omega
    · rw [if_neg hne, add_zero]
  · have hgrown : grown debug v = v.room + vecNrElems debug * v.elemSize % 2 ^ 32 := by
      rw [grown, if_neg hspare]
    have hmod : (v.room + vecNrElems debug * v.elemSize % 2 ^ 32) % 2 ^ 64 = grown debug v := by
      rw [hgrown]
      omega
    rw [if_neg hspare, hmod]
    by_cases hnone : a.addr = 0 ∨ 2 ^ 57 < grown debug v
    · left
      have hasked : grown debug v < 2 ^ 33 := by
        have hsize : v.size < 2 ^ 32 := Nat.mod_lt _ (by omega)
        omega
      refine ⟨hnone.resolve_right (by omega), ?_⟩
      simp only [Malloc.alloc, if_pos hnone]
    · right
      have haddr : a.addr ≠ 0 := fun hzero => hnone (Or.inl hzero)
      have halloc : a.alloc (grown debug v) = some (a.addr : ℤ) := by rw [Malloc.alloc, if_neg hnone]
      have hplace : (if v.start + (v.nrElems * v.elemSize : ℕ) = 0 then (a.addr : ℤ)
          else v.start + (v.nrElems * v.elemSize : ℕ) + (a.addr - v.start)) = a.addr +
          (v.nrElems * v.elemSize : ℕ) := by
        split_ifs with hzero
        · omega
        · omega
      obtain ⟨m, hcopy, hsame⟩ :=
        copyBlock_ok h { v with start := a.addr, endAt := a.addr + grown debug v, mem := a.junk }
          (by simp only; omega)
      simp only [halloc, hcopy, Option.map_some]
      refine ⟨_, _, rfl, rfl, rfl, ?_, rfl, ?_, hsame, hplace⟩
      · simp only
        omega
      · omega

theorem findElem_start (h : VecInv ops es v) (hes : 1 ≤ es) (hcount : CountFits v) (key : K) :
    (∃ j, j < v.nrElems ∧ ops.keyOf (elemAt v.elemSize v.mem j) = key ∧
        findElem ops v key (v.nrElems + 1) v.start = some (v.start + (j * v.elemSize : ℕ), true)) ∨
      ((∀ x, x ∈ v.elems → ops.keyOf x ≠ key) ∧
        findElem ops v key (v.nrElems + 1) v.start =
          some (v.start + (v.nrElems * v.elemSize : ℕ), false)) := by
  have hfind := findElem_ok h hes hcount key (v.nrElems + 1) (Nat.zero_le _) (by omega)
  rw [Nat.zero_mul, Nat.cast_zero, add_zero] at hfind
  rcases hfind with ⟨j, -, hj, hkey, hfound⟩ | ⟨hnone, hfound⟩
  · exact Or.inl ⟨j, hj, hkey, hfound⟩
  · refine Or.inr ⟨fun x hx => ?_, hfound⟩
    obtain ⟨j, hj, rfl⟩ := List.mem_map.mp hx
    exact hnone j (Nat.zero_le _) (List.mem_range.mp hj)

theorem Expanded.append {offset : ℤ} (h : Expanded debug v v' offset) (hinv : VecInv ops es v)
    (hfits : InsertFits debug v)
    (hlen : bs.length = es) (hnew : ∀ x, x ∈ v.elems → ops.keyOf x ≠ ops.keyOf bs) :
    ∃ w, (v'.store (v'.start + (v.nrElems * v.elemSize : ℕ)) bs).map
      (fun v => { v with nrElems := (v.nrElems + 1) % 2 ^ 32 }) = some w ∧
      VecInv ops es w ∧ w.elems = v.elems ++ [bs] := by
  have hstart := h.start
  have hend := h.endAt
  have hroom : v.nrElems * v.elemSize + v.elemSize ≤ grown debug v := by
    rw [← Nat.succ_mul]
    exact hfits.2
  have hlen' : bs.length = v.elemSize := hlen.trans hinv.elemSize.symm
  have hcount : (v.nrElems + 1) % 2 ^ 32 = v.nrElems + 1 := Nat.mod_eq_of_lt hfits.1
  rw [store_at v' (by omega), Option.map_some]
  have helems : (List.range (v.nrElems + 1)).map
      (elemAt v.elemSize (writeBytes v'.mem (v.nrElems * v.elemSize) bs)) =
      v.elems ++ [bs] := by
    rw [List.range_succ, List.map_append, List.map_singleton, elemAt_writeBytes_self hlen', Vec.elems]
    congr 1
    apply List.map_congr_left
    intro k hk
    have hlt := List.mem_range.mp hk
    rw [elemAt_writeBytes_ne hlen' hlt.ne, h.same k hlt]
  simp only [h.nrElems, hcount]
  refine ⟨_, rfl, ?_, ?_⟩
  · constructor
    case elemSize => exact h.elemSize.trans hinv.elemSize
    case start => exact hstart.le
    case null =>
      intro hzero
      exact absurd hzero hstart.ne'
    case fits =>
      simp only [h.elemSize, hend]
      have hmul : (v.nrElems + 1) * v.elemSize = v.nrElems * v.elemSize + v.elemSize := Nat.succ_mul _ _
      omega
    case small =>
      have hsmall := h.small
      simp only [hend]
      omega
    case keys =>
      rw [Vec.elems]
      simp only [h.elemSize, helems, List.map_append, List.map_singleton]
      rw [List.nodup_append]
      refine ⟨hinv.keys, List.nodup_singleton _, ?_⟩
      intro k hk k' hk'
      obtain ⟨x, hx, rfl⟩ := List.mem_map.mp hk
      rw [List.mem_singleton.mp hk']
      exact hnew x hx
  · rw [Vec.elems]
    simp only [h.elemSize, helems]

theorem vectorInsert_ok (h : VecInv ops es v) (hes : 1 ≤ es) (hcount : CountFits v)
    (hlen : bs.length = es) (debug : Bool) (a : Malloc)
    (hfits : (∀ x, x ∈ v.elems → ops.keyOf x ≠ ops.keyOf bs) → InsertFits debug v) :
    (∃ j, j < v.nrElems ∧ ops.keyOf (elemAt v.elemSize v.mem j) = ops.keyOf bs ∧
        vectorInsert ops debug v a (ops.keyOf bs) bs = some (v, .present (v.start + (j * v.elemSize : ℕ)))) ∨
      ((∀ x, x ∈ v.elems → ops.keyOf x ≠ ops.keyOf bs) ∧
        ((a.addr = 0 ∧ vectorInsert ops debug v a (ops.keyOf bs) bs = some (v, .noMemory)) ∨
          ∃ w, vectorInsert ops debug v a (ops.keyOf bs) bs = some (w, .added) ∧ VecInv ops es w ∧
            w.elems = v.elems ++ [bs])) := by
  rw [vectorInsert]
  rcases findElem_start h hes hcount (ops.keyOf bs) with ⟨j, hj, hkey, hfound⟩ | ⟨hnew, hfound⟩
  · rw [hfound, Option.bind_some]
    exact Or.inl ⟨j, hj, hkey, rfl⟩
  · refine Or.inr ⟨hnew, ?_⟩
    rw [hfound, Option.bind_some]
    rcases expand_ok h debug a with ⟨hnull, hexpand⟩ | ⟨v', offset, hexpand, hv'⟩
    · refine Or.inl ⟨hnull, ?_⟩
      rw [hexpand]
      rfl
    · right
      obtain ⟨w, hw, hinv, helems⟩ := hv'.append h (hfits hnew) hlen hnew
      refine ⟨w, ?_, hinv, helems⟩
      rw [hexpand]
      simp only [Bool.false_eq_true, if_false, Option.bind_some, hv'.place]
      cases hstore : v'.store (v'.start + (v.nrElems * v.elemSize : ℕ)) bs with
      | none =>
        rw [hstore] at hw
        cases hw
      | some u =>
        rw [hstore] at hw
        obtain rfl := Option.some.inj hw
        rfl

/-! ## Removal -/

theorem writeBytes_nil (m : ℕ → UInt8) (k : ℕ) : writeBytes m k [] = m := by
  funext i
  apply writeBytes_of_outside
  rw [List.length_nil]
  omega

/-- The elements behind the one at `j` move to its place. -/
theorem elems_move (m : ℕ → UInt8) (j r n : ℕ) :
    (List.range (j + r)).map (elemAt n (copyBytes m (j * n) m ((j + 1) * n) (r * n))) =
      (List.range j).map (elemAt n m) ++ (List.range r).map fun i => elemAt n m (j + 1 + i) := by
  rw [List.range_add, List.map_append, List.map_map]
  congr 1
  · apply List.map_congr_left
    intro k hk
    have hlt := elem_fits (List.mem_range.mp hk) n
    exact readBytes_writeBytes_of_le hlt
  · apply List.map_congr_left
    intro i hi
    have hlt := elem_fits (List.mem_range.mp hi) n
    rw [Function.comp_apply, elemAt, elemAt, Nat.add_mul j i n, Nat.add_mul (j + 1) i n]
    exact readBytes_copyBytes hlt

theorem vectorRemove_ok (h : VecInv ops es v) (hes : 1 ≤ es) (hcount : CountFits v) (key : K) (want : Bool) :
    (∃ xs x ys w, v.elems = xs ++ x :: ys ∧ ops.keyOf x = key ∧
        vectorRemove ops v key want = some (w, some (if want then some x else none)) ∧
          VecInv ops es w ∧ w.elems = xs ++ ys) ∨
      ((∀ x, x ∈ v.elems → ops.keyOf x ≠ key) ∧ vectorRemove ops v key want = some (v, none)) := by
  have hsize := hcount.size_eq
  have hone : 1 ≤ v.elemSize := h.elemSize ▸ hes
  rw [vectorRemove]
  rcases findElem_start h hes hcount key with ⟨j, hj, hkey, hfound⟩ | ⟨hnone, hfound⟩
  · left
    obtain ⟨r, hr⟩ : ∃ r, v.nrElems = j + (1 + r) := ⟨v.nrElems - j - 1, by omega⟩
    have hsplit : v.elems = (List.range j).map (elemAt v.elemSize v.mem) ++
        elemAt v.elemSize v.mem j :: (List.range r).map fun i => elemAt v.elemSize v.mem (j + 1 + i) := by
      rw [Vec.elems, hr, List.range_add, List.map_append, List.map_map, Nat.add_comm 1 r,
        List.range_succ_eq_map, List.map_cons,
        List.map_map]
      congr 2
      apply List.map_congr_left
      intro i _
      simp only [Function.comp_apply]
      congr 1
      omega
    have hload := h.load_elem hj
    have hfits := h.fits
    have hbytes : v.nrElems * v.elemSize = (j + 1) * v.elemSize + r * v.elemSize := by
      rw [hr]
      ring
    have hnext : (j + 1) * v.elemSize = j * v.elemSize + v.elemSize := Nat.succ_mul _ _
    have hlt : v.nrElems * v.elemSize < 2 ^ 32 := hcount
    have hmove : ((v.start + v.size - (v.start + (j * v.elemSize : ℕ) + v.elemSize)) %
        2 ^ 64).toNat = r * v.elemSize := by
      rw [hsize]
      omega
    have hnr : (v.nrElems + 2 ^ 32 - 1) % 2 ^ 32 = j + r := by
      have hle : v.nrElems ≤ v.nrElems * v.elemSize := Nat.le_mul_of_pos_right _ hone
      omega
    have hmem : closeGap v (v.start + (j * v.elemSize : ℕ)) =
        some { v with
          mem := copyBytes v.mem (j * v.elemSize) v.mem ((j + 1) * v.elemSize) (r * v.elemSize) } := by
      simp only [closeGap, hmove]
      by_cases hlast : r * v.elemSize = 0
      · rw [if_neg (not_not.mpr hlast), hlast, copyBytes]
        exact congrArg some (congrArg (fun m => { v with mem := m }) (writeBytes_nil v.mem _).symm)
      · have hsrc : v.start + (j * v.elemSize : ℕ) + (v.elemSize : ℤ) = v.start +
          ((j + 1) * v.elemSize : ℕ) := by
          rw [hnext]
          push_cast
          ring
        rw [if_pos hlast, Vec.move, hsrc, load_at v (by omega), Option.bind_some,
          store_at v (by rw [length_readBytes]; omega), copyBytes]
    refine ⟨_, _, _, { v with
        mem := copyBytes v.mem (j * v.elemSize) v.mem ((j + 1) * v.elemSize) (r * v.elemSize)
        nrElems := j + r },
      hsplit, hkey, ?_, ?_, elems_move _ _ _ _⟩
    · rw [hfound, Option.bind_some]
      simp only [if_true, hmem, hload, Option.map_some, hnr]
      cases want with
      | false => rfl
      | true => rfl
    · have hkeys := h.keys
      rw [hsplit, List.map_append, List.map_cons] at hkeys
      refine ⟨h.elemSize, h.start, h.null, ?_, h.small, ?_⟩
      · have hle : (j + r) * v.elemSize ≤ v.nrElems * v.elemSize := Nat.mul_le_mul_right _ (by omega)
        simp only
        omega
      · rw [Vec.elems]
        simp only [elems_move]
        rw [List.map_append]
        exact (List.nodup_middle.mp hkeys).of_cons
  · rw [hfound, Option.bind_some]
    exact Or.inr ⟨hnone, rfl⟩

/-! ## Copies -/

section Copy
variable {s : ℕ → Vec} {dst src : ℕ}

theorem copyElems_ok (i fuel : ℕ) (s : ℕ → Vec) (h : VecInv ops es (s src)) (hes : 1 ≤ es)
    (hcount : CountFits (s src))
    (hne : dst ≠ src) (hi : i ≤ (s src).nrElems) (hfuel : (s src).nrElems < i + fuel)
    (hroom : (s dst).start + ((s src).nrElems * (s src).elemSize : ℕ) ≤ (s dst).endAt) :
    ∃ m, copyElems dst src fuel s ((s src).start + (i * (s src).elemSize : ℕ))
      ((s dst).start + (i * (s src).elemSize : ℕ)) =
        some (Function.update s dst { s dst with mem := m }) ∧
      (∀ k, k < i → elemAt (s src).elemSize m k = elemAt (s src).elemSize (s dst).mem k) ∧
      ∀ k, i ≤ k → k < (s src).nrElems →
        elemAt (s src).elemSize m k = elemAt (s src).elemSize (s src).mem k := by
  induction fuel generalizing i s with
  | zero => omega
  | succ fuel ih =>
    have hsize : 1 ≤ (s src).elemSize := h.elemSize ▸ hes
    rw [copyElems, hcount.size_eq]
    by_cases hmore : i < (s src).nrElems
    · have hlt := elem_fits hmore (s src).elemSize
      have hcond : (s src).start + (i * (s src).elemSize : ℕ) < (s src).start +
          ((s src).nrElems * (s src).elemSize : ℕ) := by omega
      have hlen : (elemAt (s src).elemSize (s src).mem i).length = (s src).elemSize := length_readBytes
      rw [if_pos hcond, h.load_elem hmore]
      simp only [Option.bind_eq_bind, Option.bind_some]
      rw [store_at (s dst) (by rw [hlen]; omega), Option.bind_some]
      obtain ⟨t, ht⟩ : ∃ t, t = Function.update s dst
          { s dst with
            mem := writeBytes (s dst).mem (i * (s src).elemSize)
              (elemAt (s src).elemSize (s src).mem i) } := ⟨_, rfl⟩
      have hsrc : t src = s src := by rw [ht, Function.update_of_ne hne.symm]
      have hdst : t dst = { s dst with
          mem := writeBytes (s dst).mem (i * (s src).elemSize) (elemAt (s src).elemSize (s src).mem i) } := by
        rw [ht, Function.update_self]
      have hstart : (t dst).start = (s dst).start := by rw [hdst]
      have hend : (t dst).endAt = (s dst).endAt := by rw [hdst]
      have hnext (x : ℤ) : x + (i * (s src).elemSize : ℕ) + ((s src).elemSize : ℤ) = x +
          ((i + 1) * (s src).elemSize : ℕ) := by
        push_cast
        ring
      rw [← ht, hsrc, hnext, hnext]
      have hrec := ih (i + 1) t
      rw [hsrc, hstart, hend] at hrec
      obtain ⟨m, hrun, hlow, hhigh⟩ := hrec h hcount hmore (by omega) hroom
      refine ⟨m, ?_, fun k hk => ?_, fun k hk hlt => ?_⟩
      · rw [hrun, hdst, ht, Function.update_idem]
      · rw [hlow k (by omega), hdst]
        exact elemAt_writeBytes_ne hlen hk.ne
      · by_cases hki : k = i
        · subst hki
          rw [hlow k (Nat.lt_succ_self k), hdst]
          exact elemAt_writeBytes_self hlen
        · exact hhigh k (by omega) hlt
    · obtain rfl : i = (s src).nrElems := by omega
      rw [if_neg (lt_irrefl _)]
      refine ⟨(s dst).mem, ?_, fun _ _ => rfl, fun k hk hlt => by omega⟩
      rw [Function.update_eq_self]

theorem vectorCopy_ok (h : ∀ i, VecInv ops es (s i)) (hes : 1 ≤ es) (hcount : CountFits (s src))
    (hne : dst ≠ src ∨ (s src).nrElems = 0) (a : Malloc) :
    (a.addr = 0 ∧ vectorCopy s dst src a = some (s, false)) ∨
      (∃ s', vectorCopy s dst src a = some (s', true) ∧ (∀ i, i ≠ dst → s' i = s i) ∧ VecInv ops es (s' dst) ∧
        (s' dst).elems = if (s src).elems = [] then (s dst).elems else (s src).elems) := by
  have hsize := hcount.size_eq
  have hone : 1 ≤ (s src).elemSize := (h src).elemSize ▸ hes
  have hnil : (s src).elems = [] ↔ (s src).nrElems = 0 := by
    rw [Vec.elems, List.map_eq_nil_iff, List.range_eq_nil]
  rw [vectorCopy, hsize]
  by_cases hempty : (s src).nrElems = 0
  · have hzero : (s src).nrElems * (s src).elemSize = 0 := by rw [hempty, Nat.zero_mul]
    right
    simp only [hzero, if_true]
    exact ⟨s, rfl, fun _ _ => rfl, h dst, by rw [if_pos (hnil.mpr hempty)]⟩
  · have hpos : (s src).nrElems * (s src).elemSize ≠ 0 := Nat.mul_ne_zero hempty (by omega)
    have hapart : dst ≠ src := hne.resolve_right hempty
    simp only [if_neg hpos]
    by_cases hnone : a.addr = 0 ∨ 2 ^ 57 < (s src).nrElems * (s src).elemSize
    · left
      have hasked : (s src).nrElems * (s src).elemSize < 2 ^ 32 := hcount
      refine ⟨hnone.resolve_right (by omega), ?_⟩
      simp only [Malloc.alloc, if_pos hnone]
    · right
      have halloc : a.alloc ((s src).nrElems * (s src).elemSize) = some (a.addr : ℤ) := by
        rw [Malloc.alloc, if_neg hnone]
      obtain ⟨v, hv⟩ : ∃ v : Vec, v =
          { start := a.addr
            endAt := a.addr + ((s src).nrElems * (s src).elemSize : ℕ)
            nrElems := (s src).nrElems
            elemSize := (s src).elemSize
            mem := a.junk } := ⟨_, rfl⟩
      have hsrc : Function.update s dst v src = s src := Function.update_of_ne hapart.symm v s
      have hdst : Function.update s dst v dst = v := Function.update_self dst v s
      have hstart : v.start = a.addr := by rw [hv]
      have hend : v.endAt = a.addr + ((s src).nrElems * (s src).elemSize : ℕ) := by rw [hv]
      have hrun :=
        copyElems_ok 0 ((s src).nrElems + 1) (Function.update s dst v) (hsrc.symm ▸ h src) hes
          (hsrc.symm ▸ hcount) hapart
      rw [hsrc, hdst, hstart, hend, Nat.zero_mul, Nat.cast_zero, add_zero, add_zero] at hrun
      obtain ⟨m, hcopy, -, hsame⟩ := hrun (Nat.zero_le _) (by omega) (le_refl _)
      simp only [halloc, ← hv, hsrc, hcopy, Option.map_some, Function.update_idem]
      have helems : (List.range (s src).nrElems).map (elemAt (s src).elemSize m) = (s src).elems := by
        apply List.map_congr_left
        intro k hk
        exact hsame k (Nat.zero_le k) (List.mem_range.mp hk)
      refine ⟨_, rfl, fun i hi => ?_, ?_, ?_⟩
      · rw [Function.update_of_ne hi]
      · rw [Function.update_self, hv]
        refine ⟨(h src).elemSize, Int.natCast_nonneg _, ?_, le_refl _, ?_, ?_⟩
        · intro hzero
          simp only at hzero
          omega
        · simp only
          omega
        · rw [Vec.elems]
          simp only [helems]
          exact (h src).keys
      · rw [if_neg fun hnone => hempty (hnil.mp hnone), Function.update_self, Vec.elems, hv]
        exact helems

end Copy

end Skp.Adt
