import Skp.Adt.RadixModel
import Skp.Foundations.Digits

/-! # Walks through the radix tree

What a slot holds at a given height, what the walk of an insertion and of a deletion change, and that they
keep the shape: every node's count is the number of its used slots and positive. -/
namespace Skp.Adt
set_option autoImplicit false
open Skp.Foundations

variable {V : Type}

/-! ## Indices -/

theorem calcOffset_val (idx : BitVec 64) (h : ℕ) :
    (calcOffset idx (h * radixMapShift)).val = idx.toNat / 64 ^ h % 64 := by
  have hpow : (2 : ℕ) ^ (h * radixMapShift) = 64 ^ h := by
    rw [radixMapShift, Nat.mul_comm, pow_mul]
    norm_num
  have hmask : ∀ n : ℕ, n &&& 63 = n % 64 := fun n => Nat.and_two_pow_sub_one_eq_mod n 6
  show ((idx >>> (h * radixMapShift)).toNat &&& 63) % 64 = _
  rw [hmask, Nat.mod_mod, BitVec.toNat_ushiftRight, Nat.shiftRight_eq_div_pow, hpow]

theorem maxindex_toNat {h : ℕ} (hh : h * radixMapShift < 64) : (rdtreeMaxindex h).toNat + 1 = 64 ^ h := by
  have hsmall : h ≤ 10 := by
    unfold radixMapShift at hh
    omega
  unfold rdtreeMaxindex
  rw [if_neg (by omega)]
  interval_cases h <;> decide

theorem not_maxindex_lt {h : ℕ} {i : BitVec 64} : ¬ rdtreeMaxindex h < i ↔ i.toNat < 64 ^ h := by
  rw [BitVec.lt_def]
  by_cases hh : h * radixMapShift < 64
  · have hmax := maxindex_toNat hh
    omega
  · have hi := i.isLt
    have htop : (rdtreeMaxindex h).toNat = 2 ^ 64 - 1 := by
      unfold rdtreeMaxindex
      rw [if_pos (by omega)]
      decide
    have hpow : 2 ^ 64 ≤ 64 ^ h := by
      calc 2 ^ 64 ≤ 2 ^ (6 * h) := Nat.pow_le_pow_right (by decide) (by unfold radixMapShift at hh; omega)
        _ = 64 ^ h := by rw [pow_mul]; norm_num
    constructor
    · intro _
      omega
    · intro _
      omega

/-- Two indices that take the same way down a tree of height `h`. -/
def SamePath (h : ℕ) (i j : BitVec 64) : Prop :=
  ∀ k, k < h → calcOffset i (k * radixMapShift) = calcOffset j (k * radixMapShift)

theorem samePath_succ {h : ℕ} {i j : BitVec 64} :
    SamePath (h + 1) i j ↔ calcOffset i (h * radixMapShift) = calcOffset j (h * radixMapShift) ∧
      SamePath h i j := by
  constructor
  · intro hs
    exact ⟨hs h (Nat.lt_succ_self h), fun k hk => hs k (by omega)⟩
  · intro hs k hk
    by_cases heq : k = h
    · rw [heq]
      exact hs.1
    · exact hs.2 k (by omega)

instance (h : ℕ) (i j : BitVec 64) : Decidable (SamePath h i j) :=
  inferInstanceAs (Decidable (∀ k, k < h → _))

theorem samePath_iff {h : ℕ} {i j : BitVec 64} (hi : i.toNat < 64 ^ h) (hj : j.toNat < 64 ^ h) :
    SamePath h i j ↔ i = j := by
  constructor
  · intro hs
    apply BitVec.eq_of_toNat_eq
    have hmod : i.toNat % 64 ^ h = j.toNat % 64 ^ h := by
      apply mod_pow_eq_of_digits
      intro k hk
      rw [← calcOffset_val i k, ← calcOffset_val j k, hs k hk]
    rw [Nat.mod_eq_of_lt hi, Nat.mod_eq_of_lt hj] at hmod
    exact hmod
  · intro heq _ _
    rw [heq]

theorem calcOffset_eq_zero {h : ℕ} {i : BitVec 64} (hi : i.toNat < 64 ^ (h + 1)) :
    calcOffset i (h * radixMapShift) = 0 ↔ i.toNat < 64 ^ h := by
  rw [← digit_eq_zero_iff hi, ← calcOffset_val, ← Fin.val_eq_zero_iff]

/-! ## Shape -/

/-- The number of used slots. -/
def used (f : Fin 64 → RadixSlot V) : ℕ := ∑ i, if (f i).isNull then 0 else 1

/-- A tree of height `h`: items below the last level only, and on every node the count of its used slots,
which is positive. -/
def RadixWf : ℕ → RadixSlot V → Prop
  | 0, .node _ _ _ => False
  | 0, _ => True
  | _ + 1, .null => True
  | _ + 1, .item _ => False
  | h + 1, .node c _ f => c = used f ∧ 0 < c ∧ ∀ i, RadixWf h (f i)

/-- The items below a slot. -/
def RadixSlot.items : RadixSlot V → ℕ
  | .null => 0
  | .item _ => 1
  | .node _ _ f => ∑ i, (f i).items

/-- The nodes below a slot. -/
def RadixSlot.nodes : RadixSlot V → ℕ
  | .node _ _ f => 1 + ∑ i, (f i).nodes
  | _ => 0

@[simp] theorem isNull_null : (RadixSlot.null : RadixSlot V).isNull = true := rfl

@[simp] theorem isNull_node (c : ℕ) (t : Fin 3 → Fin 64 → Bool) (f : Fin 64 → RadixSlot V) :
    (RadixSlot.node c t f).isNull = false := rfl

@[simp] theorem isNull_item (v : V) : (RadixSlot.item v).isNull = false := rfl

theorem eq_null_of_isNull {s : RadixSlot V} (h : s.isNull = true) : s = .null := by
  cases s with
  | null => rfl
  | item v => cases h
  | node c t f => cases h

theorem radixWf_null (h : ℕ) : RadixWf h (.null : RadixSlot V) := by
  cases h <;> trivial

/-- The slots of a well-shaped slot are well shaped, also those of the zeroed node in place of an
empty one. -/
theorem RadixWf.slots {h : ℕ} {s : RadixSlot V} (hw : RadixWf (h + 1) s) (i : Fin 64) :
    RadixWf h (s.slots i) := by
  cases s with
  | null => exact radixWf_null h
  | item v => exact hw.elim
  | node c t f => exact hw.2.2 i

theorem RadixWf.count_eq {h : ℕ} {s : RadixSlot V} (hw : RadixWf (h + 1) s) : s.count = used s.slots := by
  cases s with
  | null => simp [RadixSlot.count, RadixSlot.slots, used]
  | item v => exact hw.elim
  | node c t f => exact hw.1

theorem used_update (f : Fin 64 → RadixSlot V) (i : Fin 64) (x : RadixSlot V) :
    used (Function.update f i x) + (if (f i).isNull then 0 else 1) = used f + if x.isNull then 0 else 1 :=
  sum_update_add Finset.univ (fun _ s => if RadixSlot.isNull s then 0 else 1) f (Finset.mem_univ i) x

theorem items_pos {h : ℕ} {s : RadixSlot V} (hw : RadixWf h s) (hs : s.isNull = false) : 0 < s.items := by
  induction h generalizing s with
  | zero =>
    cases s with
    | null => cases hs
    | item v => exact Nat.one_pos
    | node c t f => exact hw.elim
  | succ h ih =>
    cases s with
    | null => cases hs
    | item v => exact hw.elim
    | node c t f =>
      obtain ⟨hc, hpos, hall⟩ := hw
      have hex : ∃ i, (f i).isNull = false := by
        by_contra hno
        have hzero : used f = 0 := by
          apply Finset.sum_eq_zero
          intro i _
          rw [if_pos]
          cases hn : (f i).isNull
          · exact absurd ⟨i, hn⟩ hno
          · rfl
        omega
      obtain ⟨i, hi⟩ := hex
      have hle : (f i).items ≤ ∑ j, (f j).items :=
        Finset.single_le_sum (fun j _ => Nat.zero_le (f j).items) (Finset.mem_univ i)
      exact Nat.lt_of_lt_of_le (ih (hall i) hi) hle

/-- A node has 64 slots, so there are at most 64 items to a node. -/
theorem items_le_nodes (s : RadixSlot V) :
    s.items ≤ 64 * s.nodes + 1 ∧ (s.nodes ≠ 0 → s.items ≤ 64 * s.nodes) := by
  induction s with
  | null => simp [RadixSlot.items, RadixSlot.nodes]
  | item v => simp [RadixSlot.items, RadixSlot.nodes]
  | node c t f ih =>
    have hsum : ∑ i, (f i).items ≤ ∑ i, (64 * (f i).nodes + 1) := Finset.sum_le_sum fun i _ => (ih i).1
    rw [Finset.sum_add_distrib, ← Finset.mul_sum, Finset.sum_const, Finset.card_univ,
      Fintype.card_fin] at hsum
    simp only [RadixSlot.items, RadixSlot.nodes]
    have hbound : ∑ i, (f i).items ≤ 64 * (1 + ∑ i, (f i).nodes) := by
      simp only [smul_eq_mul] at hsum
      omega
    exact ⟨by omega, fun _ => hbound⟩

theorem walkSlot_null (index : BitVec 64) (h : ℕ) : walkSlot index h (.null : RadixSlot V) = .null := by
  cases h <;> rfl

theorem walkSlot_succ (index : BitVec 64) (h : ℕ) (s : RadixSlot V) :
    walkSlot index (h + 1) s = walkSlot index h (s.slots (calcOffset index (h * radixMapShift))) := by
  cases s with
  | null => exact (walkSlot_null index h).symm
  | item v => rfl
  | node c t f => rfl

theorem walkSlot_wf {h : ℕ} {s : RadixSlot V} (index : BitVec 64) (hw : RadixWf h s) :
    RadixWf 0 (walkSlot index h s) := by
  induction h generalizing s with
  | zero => exact hw
  | succ h ih =>
    rw [walkSlot_succ]
    exact ih (hw.slots _)

theorem value_eq_none_iff {s : RadixSlot V} (hw : RadixWf 0 s) : s.value = none ↔ s.isNull = true := by
  cases s with
  | null => exact ⟨fun _ => rfl, fun _ => rfl⟩
  | item v => exact ⟨fun h => (Option.some_ne_none v h).elim, fun h => Bool.noConfusion h⟩
  | node c t f => exact hw.elim

theorem node_self {s : RadixSlot V} {h : ℕ} (hw : RadixWf (h + 1) s) (hs : s.isNull = false) :
    RadixSlot.node s.count s.tags s.slots = s := by
  cases s with
  | null => cases hs
  | item v => exact hw.elim
  | node c t f => rfl

theorem items_node (s : RadixSlot V) {h : ℕ} (hw : RadixWf (h + 1) s) : s.items = ∑ i, (s.slots i).items := by
  cases s with
  | null => simp [RadixSlot.items, RadixSlot.slots]
  | item v => exact hw.elim
  | node c t f => rfl

/-! ## One slot exchanged -/

section Exchange
variable {h : ℕ} {s t : RadixSlot V} {off : Fin 64} {c : ℕ} {tags : Fin 3 → Fin 64 → Bool}

theorem radixWf_exchange (hw : RadixWf (h + 1) s) (ht : RadixWf h t)
    (hc : c = used (Function.update s.slots off t))
    (hpos : 0 < c) : RadixWf (h + 1) (.node c tags (Function.update s.slots off t)) := by
  refine ⟨hc, hpos, fun i => ?_⟩
  by_cases hi : i = off
  · rw [hi, Function.update_self]
    exact ht
  · rw [Function.update_of_ne hi]
    exact hw.slots i

theorem walkSlot_exchange (j : BitVec 64) :
    walkSlot j (h + 1) (.node c tags (Function.update s.slots off t)) =
      if calcOffset j (h * radixMapShift) = off then walkSlot j h t else walkSlot j (h + 1) s := by
  rw [walkSlot_succ, walkSlot_succ]
  show walkSlot j h (Function.update s.slots off t _) = _
  split
  · rename_i hj
    rw [hj, Function.update_self]
  · rename_i hj
    rw [Function.update_of_ne hj]

/-- If the new slot differs from the old one on the way of `index` only, so does the whole. -/
theorem walkSlot_exchange_path {index : BitVec 64} {x : RadixSlot V}
    (hoff : calcOffset index (h * radixMapShift) = off)
    (ht : ∀ j, walkSlot j h t = if SamePath h j index then x else walkSlot j h (s.slots off))
    (j : BitVec 64) :
    walkSlot j (h + 1) (.node c tags (Function.update s.slots off t)) =
      if SamePath (h + 1) j index then x else walkSlot j (h + 1) s := by
  rw [walkSlot_exchange, ht j]
  simp only [samePath_succ, hoff]
  by_cases hj : calcOffset j (h * radixMapShift) = off
  · rw [if_pos hj, walkSlot_succ j h s, hj]
    simp only [true_and]
  · rw [if_neg hj, if_neg fun hs => hj hs.1]

theorem items_exchange (hw : RadixWf (h + 1) s) :
    (RadixSlot.node c tags (Function.update s.slots off t)).items + (s.slots off).items =
      s.items + t.items := by
  rw [items_node s hw]
  exact sum_update_add Finset.univ (fun _ => RadixSlot.items) s.slots (Finset.mem_univ off) t

end Exchange

theorem walkSlot_used {index : BitVec 64} {h : ℕ} {s : RadixSlot V}
    (hp : (walkSlot index h s).isNull = false) :
    s.isNull = false := by
  cases hn : s.isNull
  · rfl
  · rw [eq_null_of_isNull hn, walkSlot_null] at hp
    cases hp

theorem RadixWf.count_pos {h : ℕ} {s : RadixSlot V} (hw : RadixWf (h + 1) s) (hs : s.isNull = false) :
    0 < s.count := by
  cases s with
  | null => cases hs
  | item v => exact hw.elim
  | node c t f => exact hw.2.1

/-! ## Insertion -/

theorem insertWalk_present {alloc : ℕ → Bool} {index : BitVec 64} {v : V} {h : ℕ} {s : RadixSlot V} {k : ℕ}
    (hw : RadixWf h s) (hp : (walkSlot index h s).isNull = false) :
    insertWalk alloc index v h s k = (s, eEXIST, k) := by
  induction h generalizing s k with
  | zero =>
    have hs : s.isNull = false := hp
    simp [insertWalk, hs]
  | succ h ih =>
    have hs := walkSlot_used hp
    rw [walkSlot_succ] at hp
    have hrec := ih (k := k) (hw.slots _) hp
    have hchild := walkSlot_used hp
    simp only [insertWalk, hs, hchild, hrec, Bool.false_and, Bool.false_eq_true, if_false,
      Function.update_eq_self]
    rw [node_self hw hs]

/-- A new index: it leads to the item, every other index where it led, and the shape is kept. -/
structure Inserted (index : BitVec 64) (v : V) (h : ℕ) (s t : RadixSlot V) : Prop where
  wf : RadixWf h t
  used : t.isNull = false
  walk : ∀ j, walkSlot j h t = if SamePath h j index then .item v else walkSlot j h s
  items : t.items = s.items + 1

theorem insertWalk_new {alloc : ℕ → Bool} (halloc : ∀ k, alloc k = true) {index : BitVec 64} {v : V} {h : ℕ}
    {s : RadixSlot V} {k : ℕ} (hw : RadixWf h s) (hn : (walkSlot index h s).isNull = true) :
    ∃ t k', insertWalk alloc index v h s k = (t, 0, k') ∧ Inserted index v h s t := by
  induction h generalizing s k with
  | zero =>
    have hs : s.isNull = true := hn
    refine ⟨.item v, k, by simp [insertWalk, hs], trivial, rfl, fun j => ?_, ?_⟩
    · have hpath : SamePath 0 j index := fun k hk => absurd hk (Nat.not_lt_zero k)
      rw [if_pos hpath]
      rfl
    · rw [eq_null_of_isNull hs]
      rfl
  | succ h ih =>
    rw [walkSlot_succ] at hn
    obtain ⟨t, k', heq, hins⟩ := ih (k := if s.isNull then k + 1 else k) (hw.slots _) hn
    have hstep : insertWalk alloc index v (h + 1) s k =
        (.node (if (s.slots (calcOffset index (h * radixMapShift))).isNull
        && !t.isNull then s.count + 1 else s.count) s.tags
        (Function.update s.slots (calcOffset index (h * radixMapShift)) t), 0, k') := by
      simp only [insertWalk, halloc, heq, Bool.not_true, Bool.and_false, Bool.false_eq_true, if_false]
    generalize hoff : calcOffset index (h * radixMapShift) = off at hstep heq hins hn
    -- the new child is counted if the slot was empty
    have hcount : (if (s.slots off).isNull && !t.isNull then s.count + 1 else s.count) =
        used (Function.update s.slots off t) ∧ 0 < used (Function.update s.slots off t) := by
      have hup := used_update s.slots off t
      have hle : (if (s.slots off).isNull then 0 else 1) ≤ used s.slots :=
        Finset.single_le_sum (fun j _ => Nat.zero_le (if (s.slots j).isNull then 0 else 1))
          (Finset.mem_univ off)
      rw [hins.used] at hup ⊢
      rw [hw.count_eq]
      generalize (s.slots off).isNull = b at hup hle ⊢
      cases b
      · simp only [Bool.false_eq_true, if_false, Bool.false_and] at hup hle ⊢
        omega
      · simp only [Bool.false_eq_true, if_true, if_false, Bool.not_false, Bool.and_self] at hup ⊢
        omega
    rw [hcount.1] at hstep
    refine ⟨_, k', hstep, radixWf_exchange hw hins.wf rfl hcount.2, rfl, fun j => ?_, ?_⟩
    · exact walkSlot_exchange_path hoff hins.walk j
    · have hsum : (RadixSlot.node (used (Function.update s.slots off t)) s.tags
        (Function.update s.slots off t)).items +
          (s.slots off).items = s.items + t.items := items_exchange hw
      rw [hins.items] at hsum
      omega

/-! ## Clearing tags -/

/-- The same tree apart from its tag bits. -/
structure SameItems (h : ℕ) (s t : RadixSlot V) : Prop where
  wf : RadixWf h t
  null : t.isNull = s.isNull
  walk : ∀ j, walkSlot j h t = walkSlot j h s
  items : t.items = s.items

theorem SameItems.node {h : ℕ} {s t : RadixSlot V} {off : Fin 64} (hw : RadixWf (h + 1) s)
    (hs : s.isNull = false)
    (ht : SameItems h (s.slots off) t) (tags : Fin 3 → Fin 64 → Bool) :
    SameItems (h + 1) s (.node s.count tags (Function.update s.slots off t)) := by
  have hcount : s.count = used (Function.update s.slots off t) := by
    have hup := used_update s.slots off t
    rw [ht.null] at hup
    rw [hw.count_eq]
    omega
  refine ⟨radixWf_exchange hw ht.wf hcount (hw.count_pos hs), hs.symm, fun j => ?_, ?_⟩
  · rw [walkSlot_exchange, ht.walk j]
    split
    · rename_i hj
      rw [walkSlot_succ j h s, hj]
    · rfl
  · have hsum : (RadixSlot.node s.count tags (Function.update s.slots off t)).items + (s.slots off).items =
        s.items + t.items := items_exchange hw
    rw [ht.items] at hsum
    omega

theorem clearNodeTag_sameItems {index : BitVec 64} (tag : Fin 3) {h : ℕ} {s : RadixSlot V} (hw : RadixWf h s)
    (hp : (walkSlot index h s).isNull = false) : SameItems h s (clearNodeTag index tag h s).1 := by
  induction h generalizing s with
  | zero => exact ⟨hw, rfl, fun _ => rfl, rfl⟩
  | succ h ih =>
    have hs := walkSlot_used hp
    rw [walkSlot_succ] at hp
    have hrec := ih (hw.slots (calcOffset index (h * radixMapShift))) hp
    simp only [clearNodeTag]
    split
    · exact hrec.node hw hs _
    · exact hrec.node hw hs _

theorem SameItems.trans {h : ℕ} {s t u : RadixSlot V} (h1 : SameItems h s t) (h2 : SameItems h t u) :
    SameItems h s u :=
  ⟨h2.wf, h2.null.trans h1.null, fun j => (h2.walk j).trans (h1.walk j), h2.items.trans h1.items⟩

theorem clearTags_sameItems {index : BitVec 64} {h : ℕ} (tags : List (Fin 3)) {s : RadixSlot V}
    (hw : RadixWf h s)
    (hp : (walkSlot index h s).isNull = false) :
    SameItems h s (tags.foldl (fun s tag => (clearNodeTag index tag h s).1) s) := by
  induction tags generalizing s with
  | nil => exact ⟨hw, rfl, fun _ => rfl, rfl⟩
  | cons tag tags ih =>
    have hfirst := clearNodeTag_sameItems tag hw hp
    exact hfirst.trans (ih hfirst.wf (by rw [hfirst.walk]; exact hp))

/-! ## Deletion -/

/-- A present index is emptied: it leads nowhere, every other index where it led, and the shape is kept. -/
structure Pruned (index : BitVec 64) (h : ℕ) (s t : RadixSlot V) : Prop where
  wf : RadixWf h t
  walk : ∀ j, walkSlot j h t = if SamePath h j index then .null else walkSlot j h s
  items : t.items + 1 = s.items

theorem slots_null_of_used {f : Fin 64 → RadixSlot V} (h : used f = 0) (i : Fin 64) : f i = .null := by
  apply eq_null_of_isNull
  have hi : (if (f i).isNull then 0 else 1) = 0 := Finset.sum_eq_zero_iff.mp h i (Finset.mem_univ i)
  cases hn : (f i).isNull
  · rw [hn] at hi
    cases hi
  · rfl

theorem pruneWalk_pruned {index : BitVec 64} {h : ℕ} {s : RadixSlot V} (hw : RadixWf h s)
    (hp : (walkSlot index h s).isNull = false) : Pruned index h s (pruneWalk index h s) := by
  induction h generalizing s with
  | zero =>
    have hs : s.isNull = false := hp
    refine ⟨trivial, fun j => ?_, ?_⟩
    · have hpath : SamePath 0 j index := fun k hk => absurd hk (Nat.not_lt_zero k)
      rw [if_pos hpath]
      rfl
    · cases s with
      | null => cases hs
      | item v => rfl
      | node c t f => exact hw.elim
  | succ h ih =>
    have hs := walkSlot_used hp
    rw [walkSlot_succ] at hp
    have hchild := walkSlot_used hp
    have hrec := ih (hw.slots _) hp
    have hcount := hw.count_eq
    have hpos := hw.count_pos hs
    simp only [pruneWalk]
    generalize hoff : calcOffset index (h * radixMapShift) = off at hp hchild hrec
    generalize pruneWalk index h (s.slots off) = t at hrec
    have hup := used_update s.slots off t
    rw [hchild] at hup
    have hsum : ∀ c, (RadixSlot.node c s.tags (Function.update s.slots off t)).items + (s.slots off).items =
        s.items + t.items := fun c => items_exchange hw
    have hitems := hrec.items
    have hwalk : ∀ c j, walkSlot j (h + 1) (.node c s.tags (Function.update s.slots off t)) =
        if SamePath (h + 1) j index then .null else walkSlot j (h + 1) s :=
      fun c j => walkSlot_exchange_path hoff hrec.walk j
    split
    · rename_i htn
      rw [htn] at hup
      simp only [Bool.false_eq_true, if_false, if_true] at hup
      split
      · -- the last used slot: the node goes
        have hempty : used (Function.update s.slots off t) = 0 := by omega
        have hnull : ∀ i, Function.update s.slots off t i = .null := slots_null_of_used hempty
        refine ⟨radixWf_null _, fun j => ?_, ?_⟩
        · rw [← hwalk s.count j, walkSlot_null, walkSlot_succ]
          show _ = walkSlot j h (Function.update s.slots off t _)
          rw [hnull, walkSlot_null]
        · have hzero : (RadixSlot.node s.count s.tags (Function.update s.slots off t)).items = 0 := by
            apply Finset.sum_eq_zero
            intro i _
            rw [hnull i]
            rfl
          have := hsum s.count
          show 0 + 1 = s.items
          omega
      · refine ⟨radixWf_exchange hw hrec.wf (by omega) (by omega), hwalk _, ?_⟩
        have := hsum (s.count - 1)
        omega
    · rename_i htn
      rw [Bool.not_eq_true] at htn
      rw [htn] at hup
      refine ⟨radixWf_exchange hw hrec.wf (by omega) hpos, hwalk _, ?_⟩
      have := hsum s.count
      omega

-- a sum over 64 slots is not to be unfolded by a unification that gets stuck
attribute [irreducible] used

end Skp.Adt
