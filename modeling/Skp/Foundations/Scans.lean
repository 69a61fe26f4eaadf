import Mathlib.Data.List.Range
import Mathlib.Tactic
import Mathlib.Data.Finset.Card

/-! # Scans -/

namespace Skp.Foundations
set_option autoImplicit false

/-! ## Scans of an interval

What a partial function holds between two positions, in ascending order. A scan that works in rounds collects
adjacent intervals. -/

section Between
variable {α β : Type*} {f g : ℕ → Option α} {a b c : ℕ}

/-- The values of `f` from `a` on and below `b`. -/
def between (f : ℕ → Option α) (a b : ℕ) : List α := (List.range' a (b - a)).filterMap f

theorem between_append (hab : a ≤ b) (hbc : b ≤ c) : between f a b ++ between f b c = between f a c := by
  have hrange : List.range' a (c - a) = List.range' a (b - a) ++ List.range' b (c - b) := by
    have hsplit : List.range' a (b - a) ++ List.range' (a + (b - a)) (c - b) =
        List.range' a (b - a + (c - b)) :=
      List.range'_append_1
    rw [show a + (b - a) = b by omega, show b - a + (c - b) = c - a by omega] at hsplit
    exact hsplit.symm
  rw [between, between, between, hrange, List.filterMap_append]

theorem between_of_le (h : b ≤ a) : between f a b = [] := by
  rw [between, Nat.sub_eq_zero_of_le h]
  rfl

theorem between_eq_nil : between f a b = [] ↔ ∀ n, a ≤ n → n < b → f n = none := by
  rw [between, List.filterMap_eq_nil_iff]
  constructor
  · intro h n hn hnb
    exact h n (List.mem_range'_1.mpr (by omega))
  · intro h n hn
    have hn := List.mem_range'_1.mp hn
    exact h n hn.1 (by omega)

theorem between_congr (h : ∀ n, a ≤ n → n < b → f n = g n) : between f a b = between g a b := by
  refine List.filterMap_congr fun n hn => ?_
  have hn := List.mem_range'_1.mp hn
  exact h n hn.1 (by omega)

theorem between_succ : between f a (a + 1) = (f a).toList := by
  rw [between, Nat.add_sub_cancel_left]
  change List.filterMap f [a] = _
  cases hf : f a with
  | none => rw [List.filterMap_cons_none hf, List.filterMap_nil, Option.toList_none]
  | some v => rw [List.filterMap_cons_some hf, List.filterMap_nil, Option.toList_some]

theorem mem_between {v : α} : v ∈ between f a b ↔ ∃ n, a ≤ n ∧ n < b ∧ f n = some v := by
  rw [between, List.mem_filterMap]
  constructor
  · rintro ⟨n, hn, hv⟩
    have hn := List.mem_range'_1.mp hn
    exact ⟨n, hn.1, by omega, hv⟩
  · rintro ⟨n, hn, hnb, hv⟩
    exact ⟨n, List.mem_range'_1.mpr (by omega), hv⟩

theorem pairwise_between {R : α → α → Prop}
    (h : ∀ n, a ≤ n → ∀ k, n < k → k < b → ∀ x, f n = some x → ∀ y, f k = some y → R x y) :
    (between f a b).Pairwise R := by
  rw [between, List.pairwise_filterMap]
  refine List.Pairwise.imp_of_mem (fun {n k} hn hk hlt => ?_) List.pairwise_lt_range'
  have hn := List.mem_range'_1.mp hn
  have hk := List.mem_range'_1.mp hk
  exact h n hn.1 k hlt (by omega)

theorem map_between (h : α → β) : (between f a b).map h = between (fun n => (f n).map h) a b := by
  rw [between, between, List.map_filterMap]

/-- A prefix that has the wanted length, or after which nothing comes, is what `take` gives. -/
theorem take_drop_of_prefix {xs ys : List α} {n : ℕ} (hle : xs.length ≤ n) (hfull : xs.length = n ∨ ys = []) :
    (xs ++ ys).take n = xs ∧ (xs ++ ys).drop n = ys := by
  obtain hlen | hnil := hfull
  · rw [← hlen]
    exact ⟨List.take_left, List.drop_left⟩
  · rw [hnil, List.append_nil]
    exact ⟨List.take_of_length_le hle, List.drop_of_length_le hle⟩

end Between

/-! ## Cyclic scans

Going up from a cursor to a bound and on from zero, and the number of clear bits of a bitmap. -/

/-- The positions below `n`, going up from `c` and then from zero. -/
def cyclicFrom (n c : ℕ) : List ℕ := List.range' c (n - c) ++ List.range c

theorem mem_cyclicFrom {n c i : ℕ} (hc : c ≤ n) : i ∈ cyclicFrom n c ↔ i < n := by
  rw [cyclicFrom, List.mem_append, List.mem_range'_1, List.mem_range]
  omega

/-- A scan whose cursor has nothing behind it finds the lowest position. -/
theorem find?_cyclicFrom {n c : ℕ} {p : ℕ → Bool} (hc : c ≤ n) (h : ∀ i < c, p i = false) :
    (cyclicFrom n c).find? p = (List.range n).find? p := by
  have hnone : (List.range c).find? p = none := by
    rw [List.find?_eq_none]
    intro i hi
    rw [h i (List.mem_range.mp hi)]
    exact Bool.false_ne_true
  have hsplit : List.range n = List.range c ++ List.range' c (n - c) := by
    have happend := List.range'_append_1 (s := 0) (m := c) (n := n - c)
    rw [Nat.zero_add, Nat.add_sub_cancel' hc] at happend
    rw [List.range_eq_range', List.range_eq_range', happend]
  rw [cyclicFrom, hsplit, List.find?_append, List.find?_append, hnone, Option.or_none, Option.none_or]

theorem cyclicFrom_eq_map {n c : ℕ} (hc : c < n) :
    cyclicFrom n c = (List.range n).map fun k => (c + k) % n := by
  have hsplit : List.range n = List.range (n - c) ++ (List.range c).map (n - c + ·) := by
    rw [← List.range_add, Nat.sub_add_cancel hc.le]
  rw [cyclicFrom, hsplit, List.map_append, List.map_map, List.range'_eq_map_range]
  congr 1
  · refine List.map_congr_left fun k hk => ?_
    have hlt := List.mem_range.mp hk
    rw [Nat.mod_eq_of_lt (by omega)]
  · conv_lhs => rw [← List.map_id (List.range c)]
    refine List.map_congr_left fun k hk => ?_
    have hlt := List.mem_range.mp hk
    have hsum : c + (n - c + k) = k + n := by omega
    rw [Function.comp_apply, hsum, Nat.add_mod_right, Nat.mod_eq_of_lt (by omega), id]

/-- Places count on without end and stand for the positions below `n` in turn. This is the first one
from `pos` on that stands for `i`. -/
def turnTo (n pos i : ℕ) : ℕ := pos + (i + n - pos % n) % n

theorem le_turnTo (n pos i : ℕ) : pos ≤ turnTo n pos i := Nat.le_add_right pos _

theorem turnTo_mod {n i : ℕ} (pos : ℕ) (hi : i < n) : turnTo n pos i % n = i := by
  have hlt := Nat.mod_lt pos (Nat.zero_lt_of_lt hi)
  have hpos := Nat.div_add_mod pos n
  have hsum : pos + (i + n - pos % n) = n * (pos / n) + i + n := by omega
  rw [turnTo, Nat.add_mod_mod, hsum, Nat.add_mod_right, Nat.mul_add_mod, Nat.mod_eq_of_lt hi]

/-- A cyclic scan ends before it passes a place where something is to be found. -/
theorem find?_cyclicFrom_le {n pos p i : ℕ} {f : ℕ → Bool} (hn : 0 < n)
    (hfind : (cyclicFrom n (pos % n)).find? f = some i) (hp : pos ≤ p) (hf : f (p % n) = true) :
    ∃ q, pos ≤ q ∧ q ≤ p ∧ q % n = i := by
  rw [cyclicFrom_eq_map (Nat.mod_lt pos hn), List.find?_map, Option.map_eq_some_iff] at hfind
  obtain ⟨k, hk, hi⟩ := hfind
  rw [List.find?_range_eq_some] at hk
  rw [Nat.mod_add_mod] at hi
  refine ⟨pos + k, Nat.le_add_right pos k, ?_, hi⟩
  by_contra hlt
  have hnone := hk.2.2 (p - pos) (by omega)
  rw [Function.comp_apply, Nat.mod_add_mod, Nat.add_sub_cancel' hp, hf] at hnone
  cases hnone

/-- Two places less than a turn apart stand for different positions. -/
theorem mod_ne_of_turn {n p q : ℕ} (hlt : p < q) (hturn : q < p + n) : q % n ≠ p % n := by
  intro heq
  have hmod : (q - p) % n = 0 := Nat.sub_mod_eq_zero_of_mod_eq heq
  rw [Nat.mod_eq_of_lt (by omega)] at hmod
  omega

/-- A scan that comes back to a stretch where nothing was found may read it again. -/
theorem find?_append_reread {α : Type*} {xs ys zs : List α} {p : α → Bool} (h : ∀ z ∈ zs, z ∈ xs) :
    (xs ++ ys ++ zs).find? p = (xs ++ ys).find? p := by
  rw [List.find?_append]
  cases hfind : (xs ++ ys).find? p with
  | some a => rfl
  | none =>
    have hnone : zs.find? p = none := by
      rw [List.find?_eq_none] at hfind ⊢
      intro z hz
      exact hfind z (List.mem_append_left ys (h z hz))
    rw [hnone]
    rfl

/-! ## Clear bits -/

def clearBits (f : ℕ → Bool) (n : ℕ) : Finset ℕ := (Finset.range n).filter fun i => f i = false

theorem mem_clearBits {f : ℕ → Bool} {n i : ℕ} : i ∈ clearBits f n ↔ i < n ∧ f i = false := by
  rw [clearBits, Finset.mem_filter, Finset.mem_range]

theorem clearBits_set (f : ℕ → Bool) (n i : ℕ) :
    clearBits (Function.update f i true) n = (clearBits f n).erase i := by
  ext j
  rw [mem_clearBits, Finset.mem_erase, mem_clearBits]
  by_cases h : j = i <;> simp [h]

theorem clearBits_clear (f : ℕ → Bool) {n i : ℕ} (hi : i < n) :
    clearBits (Function.update f i false) n = insert i (clearBits f n) := by
  ext j
  rw [mem_clearBits, Finset.mem_insert, mem_clearBits]
  by_cases h : j = i <;> simp [h, hi]

theorem card_clearBits_set {f : ℕ → Bool} {n i : ℕ} (hi : i < n) (hf : f i = false) :
    (clearBits (Function.update f i true) n).card = (clearBits f n).card - 1 := by
  rw [clearBits_set, Finset.card_erase_of_mem (mem_clearBits.mpr ⟨hi, hf⟩)]

theorem card_clearBits_clear {f : ℕ → Bool} {n i : ℕ} (hi : i < n) (hf : f i = true) :
    (clearBits (Function.update f i false) n).card = (clearBits f n).card + 1 := by
  rw [clearBits_clear f hi, Finset.card_insert_of_notMem]
  intro h
  rw [(mem_clearBits.mp h).2] at hf
  cases hf

theorem clearBits_card_eq_zero {f : ℕ → Bool} {n : ℕ} : (clearBits f n).card = 0 ↔ ∀ i < n, f i = true := by
  rw [Finset.card_eq_zero, Finset.eq_empty_iff_forall_notMem]
  refine forall_congr' fun i => ?_
  rw [mem_clearBits]
  cases f i <;> simp

theorem clearBits_all_clear (n : ℕ) : (clearBits (fun _ => false) n).card = n := by
  rw [clearBits, Finset.filter_true_of_mem (fun _ _ => rfl), Finset.card_range]

end Skp.Foundations
