import Skp.Adt.RadixGang
import Skp.Foundations.Scans

/-! # What a round of a range lookup returns

A round that goes down from an index returns the items from there up to the index it stops at, which
lies above. -/
namespace Skp.Adt
set_option autoImplicit false
open Skp.Foundations

variable {V : Type}

/-! ## Indices as positions -/

/-- Where a returned index stands; 0 is the end of the 64-bit range. -/
def stopPos (index : BitVec 64) : ℕ := if index = 0 then 2 ^ 64 else index.toNat

theorem stopPos_of_mod {x : BitVec 64} {n : ℕ} (hpos : 0 < n) (hle : n ≤ 2 ^ 64) (hx : x.toNat = n % 2 ^ 64) :
    stopPos x = n := by
  unfold stopPos
  split
  · rename_i h0
    rw [h0] at hx
    change 0 = n % 2 ^ 64 at hx
    omega
  · rename_i h0
    have hne : x.toNat ≠ 0 := fun h => h0 (BitVec.eq_of_toNat_eq h)
    omega

theorem stopPos_le (x : BitVec 64) : stopPos x ≤ 2 ^ 64 := by
  unfold stopPos
  split
  · exact le_refl _
  · exact x.isLt.le

theorem stopPos_pos (x : BitVec 64) : 0 < stopPos x := by
  unfold stopPos
  split
  · decide
  · rename_i h0
    exact Nat.pos_of_ne_zero fun h => h0 (BitVec.eq_of_toNat_eq h)

theorem stopPos_of_ne {x : BitVec 64} (h : x ≠ 0) : stopPos x = x.toNat := if_neg h

theorem shift_eq (h : ℕ) : 2 ^ (h * radixMapShift) = 64 ^ h := by
  rw [radixMapShift, Nat.mul_comm, pow_mul]
  norm_num

theorem pow_shift_dvd {h : ℕ} (hh : h ≤ 10) : 64 ^ h ∣ 2 ^ 64 := by
  rw [← shift_eq]
  exact pow_dvd_pow 2 (by unfold radixMapShift; omega)

theorem alignDown_eq (x : BitVec 64) {shift : ℕ} (hs : shift < 64) :
    alignDown x shift = (x >>> shift) <<< shift := by
  unfold alignDown
  have hmask : ((1 : BitVec 64) <<< shift) - 1 = BitVec.ofNat 64 (2 ^ shift - 1) := by
    have hlt : 2 ^ shift < 2 ^ 64 := Nat.pow_lt_pow_right (by decide) hs
    have hpos : 0 < 2 ^ shift := by positivity
    apply BitVec.eq_of_toNat_eq
    rw [BitVec.toNat_sub_of_le, BitVec.toNat_shiftLeft, BitVec.toNat_ofNat]
    · change (1 <<< shift % 2 ^ 64) - 1 = _
      rw [Nat.one_shiftLeft, Nat.mod_eq_of_lt hlt, Nat.mod_eq_of_lt (by omega)]
    · rw [BitVec.le_def, BitVec.toNat_shiftLeft]
      change 1 ≤ 1 <<< shift % 2 ^ 64
      rw [Nat.one_shiftLeft, Nat.mod_eq_of_lt hlt]
      exact hpos
  rw [hmask]
  ext i hi
  have hbit : (BitVec.ofNat 64 (2 ^ shift - 1))[i] = decide (i < shift) := by
    rw [← BitVec.getLsbD_eq_getElem, BitVec.getLsbD_ofNat, Nat.testBit_two_pow_sub_one,
      decide_eq_true hi, Bool.true_and]
  simp only [BitVec.getElem_and, BitVec.getElem_not, BitVec.getElem_shiftLeft, hbit,
    BitVec.getElem_ushiftRight]
  by_cases hlt : i < shift
  · simp [hlt]
  · have hsub : shift + (i - shift) = i := by omega
    simp [hlt, hsub, BitVec.getLsbD_eq_getElem hi]

theorem alignDown_toNat (x : BitVec 64) {h : ℕ} (hh : h ≤ 10) :
    (alignDown x (h * radixMapShift)).toNat = x.toNat / 64 ^ h * 64 ^ h := by
  rw [alignDown_eq x (by unfold radixMapShift; omega), BitVec.toNat_shiftLeft, BitVec.toNat_ushiftRight,
    Nat.shiftRight_eq_div_pow, Nat.shiftLeft_eq, shift_eq]
  exact Nat.mod_eq_of_lt (lt_of_le_of_lt (Nat.div_mul_le_self _ _) x.isLt)

theorem one_shift_toNat {h : ℕ} (hh : h ≤ 10) : ((1 : BitVec 64) <<< (h * radixMapShift)).toNat = 64 ^ h := by
  rw [BitVec.toNat_shiftLeft]
  change 1 <<< (h * radixMapShift) % 2 ^ 64 = _
  rw [Nat.one_shiftLeft, shift_eq]
  have hlt : 64 ^ h < 2 ^ 64 := by
    rw [← shift_eq]
    exact Nat.pow_lt_pow_right (by decide) (by unfold radixMapShift; omega)
  exact Nat.mod_eq_of_lt hlt

/-- The start of the next slot is at most the end of the range. -/
theorem next_slot_le (x : BitVec 64) {h : ℕ} (hh : h ≤ 10) : (x.toNat / 64 ^ h + 1) * 64 ^ h ≤ 2 ^ 64 := by
  obtain ⟨k, hk⟩ := pow_shift_dvd hh
  have hx := x.isLt
  rw [hk] at hx ⊢
  have hq : x.toNat / 64 ^ h < k := Nat.div_lt_of_lt_mul hx
  rw [Nat.mul_comm]
  exact Nat.mul_le_mul_left _ hq

theorem next_slot_toNat (x : BitVec 64) {h : ℕ} (hh : h ≤ 10) :
    (alignDown x (h * radixMapShift) + (1 : BitVec 64) <<< (h * radixMapShift)).toNat =
      (x.toNat / 64 ^ h + 1) * 64 ^ h % 2 ^ 64 := by
  rw [BitVec.toNat_add, alignDown_toNat x hh, one_shift_toNat hh, Nat.add_mul, Nat.one_mul]

theorem lt_next_slot (x h : ℕ) : x < (x / 64 ^ h + 1) * 64 ^ h := by
  rw [Nat.mul_comm]
  exact Nat.lt_mul_div_succ x (by positivity)

theorem div_pow_succ (x h : ℕ) : x / 64 ^ (h + 1) = x / 64 ^ h / 64 := by
  rw [Nat.div_div_eq_div_mul, pow_succ]

theorem next_slot_le_next_node (x h : ℕ) :
    (x / 64 ^ h + 1) * 64 ^ h ≤ (x / 64 ^ (h + 1) + 1) * 64 ^ (h + 1) := by
  rw [div_pow_succ, pow_succ, Nat.mul_comm (64 ^ h) 64, ← Nat.mul_assoc]
  exact Nat.mul_le_mul_right _ (by omega)

theorem div_of_between {x n h : ℕ} (hx : x ≤ n) (hn : n < (x / 64 ^ h + 1) * 64 ^ h) :
    n / 64 ^ h = x / 64 ^ h :=
  le_antisymm (Nat.lt_succ_iff.mp (Nat.div_lt_of_lt_mul (by rwa [Nat.mul_comm]))) (Nat.div_le_div_right hx)

theorem calcOffset_zero (x : BitVec 64) : (calcOffset x 0).val = x.toNat % 64 := by
  have hval := calcOffset_val x 0
  rwa [Nat.zero_mul, pow_zero, Nat.div_one] at hval

theorem drop_finRange {off : ℕ} (hoff : off < 64) :
    (List.finRange 64).drop off = ⟨off, hoff⟩ :: (List.finRange 64).drop (off + 1) := by
  rw [List.drop_eq_getElem_cons (by rw [List.length_finRange]; exact hoff)]
  rw [List.getElem_finRange]
  rfl

/-! ## The slot loop -/

/-- What the slot loop of a node at height `h + 1` did from `index`: the slots it passed hold
nothing, and it ended behind the slots or at a used one. -/
inductive Skipped (F : ℕ → Option V) (slots : Fin 64 → RadixSlot V) (h : ℕ) (index : BitVec 64) :
    BitVec 64 × Option (Fin 64) → Prop where
  | past {next : BitVec 64} (lt : index.toNat < stopPos next)
      (le : stopPos next ≤ (index.toNat / 64 ^ (h + 1) + 1) * 64 ^ (h + 1))
      (empty : between F index.toNat (stopPos next) = []) : Skipped F slots h index (next, none)
  | stopped {next : BitVec 64} {off : Fin 64} (le : index.toNat ≤ next.toNat)
      (same : next.toNat / 64 ^ (h + 1) = index.toNat / 64 ^ (h + 1))
      (here : calcOffset next (h * radixMapShift) = off) (used : (slots off).isNull = false)
      (empty : between F index.toNat next.toNat = []) : Skipped F slots h index (next, some off)

section Rounds
variable {F : ℕ → Option V} {slots : Fin 64 → RadixSlot V} {h : ℕ} {index : BitVec 64}

theorem Skipped.cons {next : BitVec 64} {r : BitVec 64 × Option (Fin 64)} (hr : Skipped F slots h next r)
    (hle : index.toNat ≤ next.toNat) (hsame : next.toNat / 64 ^ (h + 1) = index.toNat / 64 ^ (h + 1))
    (hempty : between F index.toNat next.toNat = []) : Skipped F slots h index r := by
  cases hr with
  | past lt le empty =>
    refine .past (by omega) (by rwa [← hsame]) ?_
    rw [← between_append hle lt.le, hempty, empty, List.append_nil]
  | stopped le same here used empty =>
    refine .stopped (hle.trans le) (same.trans hsame) here used ?_
    rw [← between_append hle le, hempty, empty, List.append_nil]

theorem skipEmpty_skipped (hh : h ≤ 10) (n : ℕ) {off : ℕ} (hn : off + n = 64)
    (hoff : index.toNat / 64 ^ h % 64 = off)
    (hF : ∀ i : BitVec 64, i.toNat / 64 ^ (h + 1) = index.toNat / 64 ^ (h + 1) →
      (slots (calcOffset i (h * radixMapShift))).isNull = true → F i.toNat = none) :
    Skipped F slots h index (skipEmpty (h * radixMapShift) slots ((List.finRange 64).drop off) index) := by
  induction n generalizing index off with
  | zero => omega
  | succ n ih =>
    have hlt : off < 64 := by omega
    have hhere : calcOffset index (h * radixMapShift) = ⟨off, hlt⟩ := Fin.ext (by rw [calcOffset_val, hoff])
    rw [drop_finRange hlt, skipEmpty]
    split
    · rename_i hnull
      have hnext := next_slot_toNat index hh
      have hend := next_slot_le index hh
      generalize alignDown index (h * radixMapShift) + (1 : BitVec 64) <<< (h * radixMapShift) = next at hnext
      have hstart := lt_next_slot index.toNat h
      have hstop : stopPos next = (index.toNat / 64 ^ h + 1) * 64 ^ h := stopPos_of_mod (by omega) hend hnext
      -- the slot holds nothing, so neither does any index that leads to it
      have hempty : between F index.toNat (stopPos next) = [] := by
        rw [between_eq_nil, hstop]
        intro m hm hmlt
        have hi : (BitVec.ofNat 64 m).toNat = m := by
          rw [BitVec.toNat_ofNat]
          omega
        have hdiv := div_of_between hm hmlt
        have hslot : calcOffset (BitVec.ofNat 64 m) (h * radixMapShift) = ⟨off, hlt⟩ :=
          Fin.ext (by rw [calcOffset_val, hi, hdiv, hoff])
        have hnone :=
          hF (BitVec.ofNat 64 m) (by rw [hi, div_pow_succ, hdiv, div_pow_succ])
            (by rw [hslot]; exact hnull)
        rwa [hi] at hnone
      have hpast : Skipped F slots h index (next, none) :=
        .past (by omega) (by rw [hstop]; exact next_slot_le_next_node _ _) hempty
      dsimp only
      split
      · exact hpast
      · rename_i hne
        cases n with
        | zero =>
          obtain rfl : off = 63 := by omega
          exact hpast
        | succ n =>
          rw [stopPos_of_ne hne] at hstop hempty
          have hdiv : next.toNat / 64 ^ h = index.toNat / 64 ^ h + 1 := by
            rw [hstop, Nat.mul_div_cancel _ (by positivity)]
          have hsame : next.toNat / 64 ^ (h + 1) = index.toNat / 64 ^ (h + 1) := by
            rw [div_pow_succ, div_pow_succ, hdiv]
            omega
          exact (ih (by omega) (by omega) fun i hi => hF i (hi.trans hsame)).cons (by omega) hsame hempty
    · rename_i hused
      exact .stopped le_rfl rfl hhere (Bool.eq_false_iff.mpr hused) (between_of_le le_rfl)

/-! ## A round -/

/-- What a round from `start` returns: all it holds up to where it stops, which is behind its last
item when the wanted number was found. -/
structure ScanRoundOk (F : ℕ → Option V) (maxItems start : ℕ) (r : BitVec 64 × List V) : Prop where
  lt : start < stopPos r.1
  found : r.2 = between F start (stopPos r.1)
  le : r.2.length ≤ maxItems
  full : r.2.length = maxItems → F (stopPos r.1 - 1) ≠ none

theorem ScanRoundOk.cons {maxItems start mid : ℕ} {r : BitVec 64 × List V} (hr : ScanRoundOk F maxItems mid r)
    (hle : start ≤ mid) (hempty : between F start mid = []) : ScanRoundOk F maxItems start r := by
  refine ⟨hle.trans_lt hr.lt, ?_, hr.le, hr.full⟩
  rw [← between_append hle hr.lt.le, hempty, List.nil_append, hr.found]

theorem ScanRoundOk.none_found {maxItems start : ℕ} (hmax : 0 < maxItems) {next : BitVec 64}
    (hlt : start < stopPos next)
    (hempty : between F start (stopPos next) = []) : ScanRoundOk F maxItems start (next, []) :=
  ⟨hlt, hempty.symm, Nat.zero_le _, fun h => absurd h hmax.ne⟩

theorem stopPos_add_one (x : BitVec 64) : stopPos (x + 1) = x.toNat + 1 := by
  refine stopPos_of_mod (Nat.succ_pos _) x.isLt ?_
  rw [BitVec.toNat_add]
  rfl

theorem grabItems_round {maxItems start : ℕ} (n : ℕ) {off : ℕ} (hn : off + n = 64)
    (hoff : index.toNat % 64 = off)
    (hF : ∀ i : BitVec 64, i.toNat / 64 = index.toNat / 64 →
      F i.toNat = (slots (calcOffset i 0)).value) {found : List V}
    (hfound : found = between F start index.toNat) (hstart : start ≤ index.toNat)
    (hlen : found.length < maxItems) :
    ScanRoundOk F maxItems start (grabItems slots maxItems ((List.finRange 64).drop off) index found) ∧
      stopPos (grabItems slots maxItems ((List.finRange 64).drop off) index found).1 ≤
        (index.toNat / 64 + 1) * 64 := by
  induction n generalizing index off found with
  | zero => omega
  | succ n ih =>
    have hlt : off < 64 := by omega
    have hhere : calcOffset index 0 = ⟨off, hlt⟩ := Fin.ext ((calcOffset_zero index).trans hoff)
    have hvalue : F index.toNat = (slots ⟨off, hlt⟩).value := by rw [← hhere]; exact hF index rfl
    have hnext := stopPos_add_one index
    have hsplit : between F start (index.toNat + 1) = found ++ (F index.toNat).toList := by
      rw [← between_append hstart (Nat.le_succ _), between_succ, hfound]
    -- the loop goes on as long as items are wanted
    have hrest : ∀ more : List V, more = between F start (index.toNat + 1) → more.length < maxItems →
        ScanRoundOk F maxItems start
          (grabItems slots maxItems ((List.finRange 64).drop (off + 1)) (index + 1) more) ∧
          stopPos (grabItems slots maxItems ((List.finRange 64).drop (off + 1)) (index + 1) more).1 ≤
            (index.toNat / 64 + 1) * 64 := by
      intro more hmore hshort
      cases n with
      | zero =>
        obtain rfl : off = 63 := by omega
        refine ⟨⟨?_, ?_, hshort.le, fun h => absurd h hshort.ne⟩, ?_⟩
        · change start < stopPos (index + 1)
          omega
        · change more = between F start (stopPos (index + 1))
          rw [hnext, hmore]
        · change stopPos (index + 1) ≤ _
          omega
      | succ n =>
        have hadd : (index + 1).toNat = index.toNat + 1 := by
          rw [← hnext, stopPos_of_ne]
          intro h0
          rw [stopPos, if_pos h0] at hnext
          omega
        have hdiv : (index + 1).toNat / 64 = index.toNat / 64 := by omega
        have hdigit : (index + 1).toNat % 64 = off + 1 := by omega
        have hnode :=
          ih (by omega) hdigit (fun i hi => hF i (hi.trans hdiv)) (by rw [hadd]; exact hmore)
            (by omega) hshort
        rwa [hdiv] at hnode
    rw [drop_finRange hlt, grabItems]
    cases hv : (slots ⟨off, hlt⟩).value with
    | none =>
      refine hrest found ?_ hlen
      rw [hsplit, hvalue, hv, Option.toList_none, List.append_nil]
    | some v =>
      have hmore : found ++ [v] = between F start (index.toNat + 1) := by
        rw [hsplit, hvalue, hv, Option.toList_some]
      dsimp only
      split
      · rename_i hfull
        refine ⟨⟨?_, ?_, ?_, fun _ => ?_⟩, ?_⟩
        · change start < stopPos (index + 1)
          omega
        · change _ = between F start (stopPos (index + 1))
          rw [hnext, hmore]
        · rw [List.length_append]
          exact hfull.le
        · change F (stopPos (index + 1) - 1) ≠ none
          rw [hnext, Nat.add_sub_cancel, hvalue, hv]
          exact Option.some_ne_none v
        · change stopPos (index + 1) ≤ _
          omega
      · rename_i hmiss
        refine hrest _ hmore ?_
        rw [List.length_append]
        change found.length + 1 < maxItems
        omega

/-- A round of `__lookup` in a well-shaped node. -/
theorem lookupWalk_round {maxItems : ℕ} (hmax : 0 < maxItems) (hpos : h ≠ 0) (hh : h ≤ 11) {s : RadixSlot V}
    (hw : RadixWf h s) (hs : s.isNull = false)
    (hF : ∀ i : BitVec 64, i.toNat / 64 ^ h = index.toNat / 64 ^ h → F i.toNat = (walkSlot i h s).value) :
    ∃ r, lookupWalk maxItems h s index = .ok r ∧ ScanRoundOk F maxItems index.toNat r ∧
      stopPos r.1 ≤ (index.toNat / 64 ^ h + 1) * 64 ^ h := by
  induction h generalizing s index with
  | zero => exact absurd rfl hpos
  | succ h ih =>
    have hoff := calcOffset_val index h
    have hskip : Skipped F s.slots h index (skipEmpty (h * radixMapShift) s.slots
        ((List.finRange 64).drop (calcOffset index (h * radixMapShift))) index) := by
      refine skipEmpty_skipped (by omega) (64 - (calcOffset index (h * radixMapShift)).val)
        (by omega) hoff.symm
        fun i hi hnull => ?_
      rw [hF i hi, walkSlot_succ, eq_null_of_isNull hnull, walkSlot_null]
      rfl
    rw [lookupWalk, if_neg (by rw [hs]; exact Bool.false_ne_true)]
    dsimp only
    generalize skipEmpty (h * radixMapShift) s.slots _ index = moved at hskip
    cases hskip with
    | past lt le empty => exact ⟨_, rfl, .none_found hmax lt empty, le⟩
    | @stopped next off le same here used empty =>
      dsimp only
      split
      · rename_i h0
        subst h0
        have hleaf : ∀ i : BitVec 64, i.toNat / 64 = next.toNat / 64 →
            F i.toNat = (s.slots (calcOffset i 0)).value := by
          intro i hi
          rw [hF i (hi.trans same), walkSlot_succ, Nat.zero_mul]
          rfl
        obtain ⟨hround, hle⟩ := grabItems_round (64 - (calcOffset next 0).val) (by omega)
          (calcOffset_zero next).symm hleaf empty.symm le hmax
        exact ⟨_, rfl, hround, hle.trans (by rw [← same]; exact le_rfl)⟩
      · rename_i h0
        have hchild : ∀ i : BitVec 64, i.toNat / 64 ^ h = next.toNat / 64 ^ h →
            F i.toNat = (walkSlot i h (s.slots off)).value := by
          intro i hi
          have hslot : calcOffset i (h * radixMapShift) = off := by
            rw [← here]
            exact Fin.ext (by rw [calcOffset_val, calcOffset_val, hi])
          rw [hF i (by rw [div_pow_succ, hi, ← div_pow_succ, same]), walkSlot_succ, hslot]
        obtain ⟨r, hr, hround, hle⟩ := ih h0 (by omega) (hw.slots off) used hchild
        refine ⟨r, hr, hround.cons le empty, hle.trans ?_⟩
        rw [← same]
        exact next_slot_le_next_node _ _

/-! ## A round for a tag -/

/-- An index that leads to the end of its node, also where that is the end of the range. -/
theorem stopPos_node {x y : BitVec 64} (hh : h ≤ 11)
    (hx : x.toNat = (y.toNat / 64 ^ h + 1) * 64 ^ h % 2 ^ 64) :
    y.toNat < stopPos x ∧ stopPos x ≤ (y.toNat / 64 ^ h + 1) * 64 ^ h := by
  have hlt := lt_next_slot y.toNat h
  by_cases htop : h = 11
  · subst htop
    have hy := y.isLt
    have hzero : y.toNat / 64 ^ 11 = 0 := Nat.div_eq_of_lt (by omega)
    rw [hzero] at hx ⊢
    have hx0 : x = 0 := BitVec.eq_of_toNat_eq hx
    rw [stopPos, if_pos hx0]
    exact ⟨hy, by decide⟩
  · rw [stopPos_of_mod (by omega) (next_slot_le y (by omega)) hx]
    exact ⟨hlt, le_rfl⟩

/-- `index` moved by a number of slots. -/
theorem moved_toNat (x : BitVec 64) (d : ℕ) (h : ℕ) :
    (x + BitVec.ofNat 64 d <<< (h * radixMapShift)).toNat = (x.toNat + d * 64 ^ h) % 2 ^ 64 := by
  rw [BitVec.toNat_add, BitVec.toNat_shiftLeft, BitVec.toNat_ofNat, Nat.shiftLeft_eq, shift_eq,
    Nat.add_mod_mod,
    Nat.add_mod, Nat.mod_mul_mod, ← Nat.add_mod]

theorem align_mod (n : ℕ) {h : ℕ} (hh : h ≤ 10) :
    n % 2 ^ 64 / 64 ^ h * 64 ^ h = n / 64 ^ h * 64 ^ h % 2 ^ 64 := by
  obtain ⟨k, hk⟩ := pow_shift_dvd hh
  rw [hk, Nat.mod_mul_right_div_self, Nat.mul_comm (n / 64 ^ h % k), Nat.mul_comm (n / 64 ^ h),
    Nat.mul_mod_mul_left]

/-- The bits from `j` on up to the one found are clear, and that one is set. -/
theorem findNextBit_tags (bits : Fin 64 → Bool) {j : ℕ} (hj : j < 64) :
    j ≤ findNextBit (tagBit bits) 64 j ∧ findNextBit (tagBit bits) 64 j ≤ 64 ∧
      (∀ off : Fin 64, j ≤ off.val → off.val < findNextBit (tagBit bits) 64 j → bits off = false) ∧
      ∀ hlt : findNextBit (tagBit bits) 64 j < 64, bits ⟨findNextBit (tagBit bits) 64 j, hlt⟩ = true := by
  have hbit : ∀ off : Fin 64, tagBit bits off.val = bits off := fun off => dif_pos off.isLt
  unfold findNextBit
  cases hfind : (List.range' j (64 - j)).find? (tagBit bits) with
  | none =>
    refine ⟨hj.le, le_rfl, fun off hle hlt => ?_, fun hlt => absurd hlt (lt_irrefl 64)⟩
    have hclear := List.find?_eq_none.mp hfind off.val (List.mem_range'_1.mpr (by omega))
    rw [hbit] at hclear
    exact Bool.eq_false_iff.mpr hclear
  | some i =>
    obtain ⟨hset, hi, hbefore⟩ := List.find?_range'_eq_some.mp hfind
    have hmem := List.mem_range'_1.mp hi
    refine ⟨hmem.1, by change i ≤ 64; omega, fun off hle hlt => ?_, fun hlt => ?_⟩
    · have hclear := hbefore off.val hle hlt
      rw [hbit] at hclear
      exact Bool.not_eq_true' _ ▸ hclear
    · exact (hbit ⟨i, hlt⟩).symm.trans hset

theorem tagSkip_skipped {tag : Fin 3} {T : BitVec 64 → Prop} {s : RadixSlot V} (hh : h ≤ 10)
    (hs : TagsAre tag (h + 1) T s)
    (hnode : ∀ i, T i → i.toNat / 64 ^ (h + 1) = index.toNat / 64 ^ (h + 1))
    (hout : ∀ i : BitVec 64, i.toNat / 64 ^ (h + 1) = index.toNat / 64 ^ (h + 1) → ¬ T i →
      F i.toNat = none) {j i : ℕ}
    (hj : j = (calcOffset index (h * radixMapShift)).val) (hi : i = findNextBit (tagBit (s.tags tag)) 64 j) :
    (64 ≤ i → Skipped F s.slots h index
      (alignDown (index + BitVec.ofNat 64 (i - j) <<< (h * radixMapShift)) (h * radixMapShift), none)) ∧
    ∀ hlt : i < 64, Skipped F s.slots h index
      (if i = j then index + BitVec.ofNat 64 (i - j) <<< (h * radixMapShift)
        else alignDown (index + BitVec.ofNat 64 (i - j) <<< (h * radixMapShift))
          (h * radixMapShift), some ⟨i, hlt⟩) := by
  have hj64 : j < 64 := by rw [hj]; exact Fin.isLt _
  obtain ⟨hji, hi64, hclear, hset⟩ := findNextBit_tags (s.tags tag) hj64
  rw [← hi] at hji hi64 hclear
  rw [calcOffset_val] at hj
  have hmoved := moved_toNat index (i - j) h
  have halign := alignDown_toNat (index + BitVec.ofNat 64 (i - j) <<< (h * radixMapShift)) hh
  rw [hmoved, align_mod _ hh, Nat.add_mul_div_right _ _ (by positivity)] at halign
  -- positions of the node before the slot that was found belong to slots without the tag
  have hnone : ∀ m, index.toNat ≤ m → m / 64 ^ (h + 1) = index.toNat / 64 ^ (h + 1) → m < 2 ^ 64 →
      m / 64 ^ h % 64 < i → F m = none := by
    intro m hm hsame hm64 hdigit
    have hto : (BitVec.ofNat 64 m).toNat = m := by rw [BitVec.toNat_ofNat, Nat.mod_eq_of_lt hm64]
    have hq : index.toNat / 64 ^ h ≤ m / 64 ^ h := Nat.div_le_div_right hm
    rw [div_pow_succ, div_pow_succ] at hsame
    have hslot : (calcOffset (BitVec.ofNat 64 m) (h * radixMapShift)).val = m / 64 ^ h % 64 := by
      rw [calcOffset_val, hto]
    have hbit := hclear (calcOffset (BitVec.ofNat 64 m) (h * radixMapShift)) (by omega) (by omega)
    rw [← hto]
    refine hout _ (by rw [hto, div_pow_succ, div_pow_succ, hsame]) fun hT => ?_
    rw [(hs _).1.mpr ⟨_, hT, rfl⟩] at hbit
    cases hbit
  constructor
  · intro h64
    have hnext : index.toNat / 64 ^ h + (i - j) = (index.toNat / 64 ^ (h + 1) + 1) * 64 := by
      rw [div_pow_succ]
      omega
    rw [hnext, Nat.mul_assoc, ← pow_succ'] at halign
    obtain ⟨hlt, hle⟩ := stopPos_node (by omega) halign
    refine .past hlt hle (between_eq_nil.mpr fun m hm hmlt => ?_)
    have hm64 :=
      stopPos_le
        (alignDown (index + BitVec.ofNat 64 (i - j) <<< (h * radixMapShift)) (h * radixMapShift))
    exact hnone m hm (div_of_between hm (hmlt.trans_le hle)) (by omega) (by omega)
  · intro hlt
    subst hi
    obtain ⟨t, hT, ht⟩ := (hs _).1.mp (hset hlt)
    generalize findNextBit (tagBit (s.tags tag)) 64 j = i at *
    have hslot : t.toNat / 64 ^ h % 64 = i := by rw [← calcOffset_val, ht]
    have hsame := hnode t hT
    rw [div_pow_succ, div_pow_succ] at hsame
    have hpos : t.toNat / 64 ^ h = index.toNat / 64 ^ h + (i - j) := by omega
    have hfit : t.toNat / 64 ^ h * 64 ^ h < 2 ^ 64 := (Nat.div_mul_le_self _ _).trans_lt t.isLt
    generalize hnext : (if i = j then index + BitVec.ofNat 64 (i - j) <<< (h * radixMapShift)
        else alignDown (index + BitVec.ofNat 64 (i - j) <<< (h * radixMapShift)) (h * radixMapShift)) = next
    have hto : next.toNat = if i = j then index.toNat else t.toNat / 64 ^ h * 64 ^ h := by
      rw [← hnext]
      split
      · rename_i heq
        rw [hmoved, heq, Nat.sub_self, Nat.zero_mul, Nat.add_zero, Nat.mod_eq_of_lt index.isLt]
      · rw [halign, ← hpos, Nat.mod_eq_of_lt hfit]
    have hdiv : next.toNat / 64 ^ h = t.toNat / 64 ^ h := by
      rw [hto]
      split
      · omega
      · exact Nat.mul_div_cancel _ (by positivity)
    have hle : index.toNat ≤ next.toNat := by
      rw [hto]
      split
      · exact le_rfl
      · have hstart := lt_next_slot index.toNat h
        have hmono : (index.toNat / 64 ^ h + 1) * 64 ^ h ≤ t.toNat / 64 ^ h * 64 ^ h :=
          Nat.mul_le_mul_right _ (by omega)
        omega
    refine .stopped hle ?_ (Fin.ext ?_) ?_ (between_eq_nil.mpr fun m hm hmlt => ?_)
    · rw [div_pow_succ, div_pow_succ, hdiv]
      omega
    · rw [calcOffset_val, hdiv, hslot]
    · cases hn : (s.slots ⟨i, hlt⟩).isNull with
      | false => rfl
      | true => exact absurd ⟨hT, ht⟩ ((hs ⟨i, hlt⟩).2.not_of_null hn t)
    · have hto' := hto
      split at hto'
      · omega
      · have hbefore : m / 64 ^ h < t.toNat / 64 ^ h := Nat.div_lt_of_lt_mul (by rw [Nat.mul_comm]; omega)
        have hq : index.toNat / 64 ^ h ≤ m / 64 ^ h := Nat.div_le_div_right hm
        have hnx := next.isLt
        exact hnone m hm (by rw [div_pow_succ, div_pow_succ]; omega) (by omega) (by omega)

theorem stopPos_node_end (x : BitVec 64) : stopPos (alignDown (x + 64) 6) = (x.toNat / 64 + 1) * 64 := by
  have halign := alignDown_toNat (x + 64) (show 1 ≤ 10 by decide)
  rw [BitVec.toNat_add, align_mod _ (show 1 ≤ 10 by decide), pow_one] at halign
  have hend := next_slot_le x (show 1 ≤ 10 by decide)
  rw [pow_one] at hend
  refine stopPos_of_mod (Nat.succ_pos _) hend (halign.trans ?_)
  change (x.toNat + 64) / 64 * 64 % 2 ^ 64 = _
  rw [Nat.add_div_right _ (by decide)]

theorem grabTagged_round {maxItems start first : ℕ} {bits : Fin 64 → Bool} (hfirst : first = index.toNat % 64)
    (hset : ∀ i : BitVec 64, i.toNat / 64 = index.toNat / 64 → bits (calcOffset i 0) = true →
      F i.toNat ≠ none ∧ F i.toNat = (slots (calcOffset i 0)).value)
    (hclear : ∀ i : BitVec 64, i.toNat / 64 = index.toNat / 64 → bits (calcOffset i 0) = false →
      F i.toNat = none)
    (hstart : start ≤ index.toNat) (n : ℕ) {off : ℕ} (hn : off + n = 64) (hoff : first ≤ off) {found : List V}
    (hfound : found = between F start (index.toNat / 64 * 64 + off)) (hlen : found.length < maxItems) :
    ∃ r, grabTagged slots maxItems index first (((List.finRange 64).drop off).filter bits) found = .ok r ∧
      ScanRoundOk F maxItems start r ∧ stopPos r.1 ≤ (index.toNat / 64 + 1) * 64 := by
  induction n generalizing off found with
  | zero =>
    obtain rfl : off = 64 := by omega
    have hend := stopPos_node_end index
    refine ⟨_, rfl, ⟨?_, ?_, hlen.le, fun h => absurd h hlen.ne⟩, ?_⟩
    · change start < stopPos (alignDown (index + 64) 6)
      omega
    · change found = between F start (stopPos (alignDown (index + 64) 6))
      rw [hend, hfound, Nat.add_mul]
    · exact hend.le
  | succ n ih =>
    have hlt : off < 64 := by omega
    have hx := index.isLt
    have hpos : (BitVec.ofNat 64 (index.toNat / 64 * 64 + off)).toNat = index.toNat / 64 * 64 + off := by
      rw [BitVec.toNat_ofNat]
      omega
    have hhere : calcOffset (BitVec.ofNat 64 (index.toNat / 64 * 64 + off)) 0 = ⟨off, hlt⟩ :=
      Fin.ext (by rw [calcOffset_zero, hpos]; change _ = off; omega)
    have hset := hset (BitVec.ofNat 64 (index.toNat / 64 * 64 + off)) (by omega)
    have hclear := hclear (BitVec.ofNat 64 (index.toNat / 64 * 64 + off)) (by omega)
    rw [hhere, hpos] at hset hclear
    have hsplit : between F start (index.toNat / 64 * 64 + (off + 1)) =
        found ++ (F (index.toNat / 64 * 64 + off)).toList := by
      rw [← Nat.add_assoc,
        ← between_append (b := index.toNat / 64 * 64 + off) (by omega) (Nat.le_succ _),
        between_succ, hfound]
    rw [drop_finRange hlt, List.filter_cons]
    cases hbit : bits ⟨off, hlt⟩ with
    | false =>
      rw [if_neg Bool.false_ne_true]
      refine ih (by omega) (by omega) ?_ hlen
      rw [hsplit, hclear hbit, Option.toList_none, List.append_nil]
    | true =>
      obtain ⟨hsome, hvalue⟩ := hset hbit
      obtain ⟨v, hv⟩ := Option.ne_none_iff_exists'.mp hsome
      rw [if_pos rfl, grabTagged, ← hvalue, hv]
      have hmore : found ++ [v] = between F start (index.toNat / 64 * 64 + (off + 1)) := by
        rw [hsplit, hv, Option.toList_some]
      dsimp only
      split
      · rename_i hfull
        have hstop : stopPos (index + BitVec.ofNat 64 (off - first + 1)) = index.toNat / 64 * 64 +
            (off + 1) := by
          refine stopPos_of_mod (by omega) (by omega) ?_
          rw [BitVec.toNat_add, BitVec.toNat_ofNat]
          omega
        refine ⟨_, rfl, ⟨?_, ?_, ?_, fun _ => ?_⟩, ?_⟩
        · change start < stopPos (index + BitVec.ofNat 64 (off - first + 1))
          omega
        · change _ = between F start (stopPos (index + BitVec.ofNat 64 (off - first + 1)))
          rw [hstop, hmore]
        · rw [List.length_append]
          exact hfull.le
        · change F (stopPos (index + BitVec.ofNat 64 (off - first + 1)) - 1) ≠ none
          rw [hstop, ← Nat.add_assoc, Nat.add_sub_cancel]
          exact hsome
        · change stopPos (index + BitVec.ofNat 64 (off - first + 1)) ≤ _
          omega
      · rename_i hmiss
        refine ih (by omega) (by omega) hmore ?_
        rw [List.length_append]
        change found.length + 1 < maxItems
        omega

/-- A round of `__lookup_tag` in a well-shaped node whose tag bits are those of `T`. -/
theorem lookupTagWalk_round {maxItems : ℕ} (hmax : 0 < maxItems) (hpos : h ≠ 0) (hh : h ≤ 11)
    {s : RadixSlot V}
    {tag : Fin 3} {T : BitVec 64 → Prop} (hw : RadixWf h s) (hs : s.isNull = false)
    (htags : TagsAre tag h T s)
    (hnode : ∀ i, T i → i.toNat / 64 ^ h = index.toNat / 64 ^ h)
    (hin : ∀ i, T i → F i.toNat = (walkSlot i h s).value)
    (hout : ∀ i : BitVec 64, i.toNat / 64 ^ h = index.toNat / 64 ^ h → ¬ T i → F i.toNat = none) :
    ∃ r, lookupTagWalk tag maxItems h s index = .ok r ∧ ScanRoundOk F maxItems index.toNat r ∧
      stopPos r.1 ≤ (index.toNat / 64 ^ h + 1) * 64 ^ h := by
  induction h generalizing s index T with
  | zero => exact absurd rfl hpos
  | succ h ih =>
    obtain ⟨hpast, hstopped⟩ := tagSkip_skipped (F := F) (by omega) htags hnode hout rfl rfl
    rw [lookupTagWalk, if_neg (by rw [hs]; exact Bool.false_ne_true)]
    dsimp only
    generalize (calcOffset index (h * radixMapShift)).val = j at hpast hstopped
    generalize findNextBit (tagBit (s.tags tag)) 64 j = i at hpast hstopped
    split
    · rename_i hlt
      have hskip := hstopped hlt
      generalize (⟨i, hlt⟩ : Fin 64) = off at hskip
      generalize (if i = j then index + BitVec.ofNat 64 (i - j) <<< (h * radixMapShift)
        else alignDown (index + BitVec.ofNat 64 (i - j) <<< (h * radixMapShift))
          (h * radixMapShift)) = next at hskip
      cases hskip with
      | stopped le same here used empty =>
      have hslots : ∀ i, T i →
          F i.toNat = (walkSlot i h (s.slots (calcOffset i (h * radixMapShift)))).value := by
        intro i hi
        rw [hin i hi, walkSlot_succ]
      split
      · rename_i h0
        subst h0
        rw [zero_add, pow_one] at hnode same hout
        have hset : ∀ i : BitVec 64, i.toNat / 64 = next.toNat / 64 → s.tags tag (calcOffset i 0) = true →
            F i.toNat ≠ none ∧ F i.toNat = (s.slots (calcOffset i 0)).value := by
          intro i hi hbit
          obtain ⟨t, hT, ht⟩ := (htags (calcOffset i 0)).1.mp hbit
          obtain rfl : t = i := by
            have hval := congrArg Fin.val ht
            rw [Nat.zero_mul, calcOffset_zero, calcOffset_zero] at hval
            have hdiv := hnode t hT
            exact BitVec.eq_of_toNat_eq (by omega)
          have hvalue := hslots t hT
          rw [Nat.zero_mul] at hvalue
          have hused : (s.slots (calcOffset t 0)).isNull = false := (htags (calcOffset t 0)).2 ⟨t, hT, rfl⟩
          refine ⟨fun hnone => ?_, hvalue⟩
          rw [hvalue] at hnone
          rw [(value_eq_none_iff (hw.slots _)).mp hnone] at hused
          cases hused
        have hclear : ∀ i : BitVec 64, i.toNat / 64 = next.toNat / 64 → s.tags tag (calcOffset i 0) = false →
            F i.toNat = none := by
          intro i hi hbit
          refine hout i (hi.trans same) fun hT => ?_
          rw [(htags (calcOffset i 0)).1.mpr ⟨i, hT, rfl⟩] at hbit
          cases hbit
        have hfound : ([] : List V) =
            between F index.toNat (next.toNat / 64 * 64 + (calcOffset next 0).val) := by
          rw [calcOffset_zero, Nat.div_add_mod']
          exact empty.symm
        obtain ⟨r, hr, hround, hle⟩ := grabTagged_round (calcOffset_zero next) hset hclear le
          (64 - (calcOffset next 0).val) (by omega) le_rfl hfound hmax
        exact ⟨r, hr, hround, hle.trans (by rw [zero_add, pow_one, same])⟩
      · rename_i h0
        -- the child's part of the set
        have hchild : ∀ i, T i ∧ calcOffset i (h * radixMapShift) = off →
            i.toNat / 64 ^ h = next.toNat / 64 ^ h := by
          intro i hi
          have hval := congrArg Fin.val (hi.2.trans here.symm)
          rw [calcOffset_val, calcOffset_val] at hval
          have hdiv := (hnode i hi.1).trans same.symm
          rw [div_pow_succ, div_pow_succ] at hdiv
          omega
        have hsameslot : ∀ i : BitVec 64, i.toNat / 64 ^ h = next.toNat / 64 ^ h →
            calcOffset i (h * radixMapShift) = off := by
          intro i hi
          rw [← here]
          exact Fin.ext (by rw [calcOffset_val, calcOffset_val, hi])
        obtain ⟨r, hr, hround, hle⟩ := ih h0 (by omega) (hw.slots off) used (htags off).2 hchild
          (fun i hi => by rw [hslots i hi.1, hi.2])
          (fun i hi hn => hout i (by rw [div_pow_succ, hi, ← div_pow_succ, same]) fun hT => hn ⟨hT,
            hsameslot i hi⟩)
        refine ⟨r, hr, hround.cons le empty, hle.trans ?_⟩
        rw [← same]
        exact next_slot_le_next_node _ _
    · rename_i hge
      cases hpast (not_lt.mp hge) with
      | past lt le empty => exact ⟨_, rfl, .none_found hmax lt empty, le⟩

end Rounds

end Skp.Adt
