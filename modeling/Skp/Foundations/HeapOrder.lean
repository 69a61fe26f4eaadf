import Mathlib

/-! # Heaps in arrays

An array is a function on indices. A heap that is wrong at one place only is mended by one exchange
with the greater child after another, and the greatest element of a heap, put behind it, makes a
sorted tail grow. -/
namespace Skp.Foundations
set_option autoImplicit false

/-! ## Rearranged arrays -/

section Rearranged
variable {α : Type*} {a b c : ℕ → α} {n i j : ℕ}

/-- The same elements at the indices below `n`, in another order. -/
def Rearranged (n : ℕ) (a b : ℕ → α) : Prop := ∃ σ : Equiv.Perm ℕ, (∀ i, n ≤ i → σ i = i) ∧ b = a ∘ σ

theorem Rearranged.refl (n : ℕ) (a : ℕ → α) : Rearranged n a a := ⟨Equiv.refl ℕ, fun _ _ => rfl, rfl⟩

theorem Rearranged.trans (h : Rearranged n a b) (h' : Rearranged n b c) : Rearranged n a c := by
  obtain ⟨σ, hσ, rfl⟩ := h
  obtain ⟨τ, hτ, rfl⟩ := h'
  refine ⟨τ.trans σ, fun i hi => ?_, rfl⟩
  rw [Equiv.trans_apply, hτ i hi, hσ i hi]

theorem Rearranged.mono {m : ℕ} (h : Rearranged n a b) (hle : n ≤ m) : Rearranged m a b := by
  obtain ⟨σ, hσ, hb⟩ := h
  exact ⟨σ, fun i hi => hσ i (hle.trans hi), hb⟩

theorem rearranged_swap (a : ℕ → α) (hi : i < n) (hj : j < n) : Rearranged n a (a ∘ Equiv.swap i j) := by
  refine ⟨Equiv.swap i j, fun k hk => ?_, rfl⟩
  exact Equiv.swap_apply_of_ne_of_ne (by omega) (by omega)

theorem Rearranged.apply_of_le (h : Rearranged n a b) (hi : n ≤ i) : b i = a i := by
  obtain ⟨σ, hσ, rfl⟩ := h
  rw [Function.comp_apply, hσ i hi]

/-- An element below `n` comes from below `n`. -/
theorem Rearranged.exists_index (h : Rearranged n a b) (hi : i < n) : ∃ j, j < n ∧ b i = a j := by
  obtain ⟨σ, hσ, rfl⟩ := h
  refine ⟨σ i, ?_, rfl⟩
  by_contra hge
  have hfix := hσ (σ i) (Nat.not_lt.mp hge)
  have heq := σ.injective hfix
  omega

theorem Rearranged.perm (h : Rearranged n a b) : ((List.range n).map b).Perm ((List.range n).map a) := by
  obtain ⟨σ, hσ, rfl⟩ := h
  have hrange : ((List.range n).map σ).Perm (List.range n) := by
    rw [List.perm_ext_iff_of_nodup (List.nodup_range.map σ.injective) List.nodup_range]
    intro i
    rw [List.mem_map, List.mem_range]
    constructor
    · rintro ⟨j, hj, rfl⟩
      by_contra hge
      have heq := σ.injective (hσ (σ j) (Nat.not_lt.mp hge))
      rw [heq] at hge
      exact hge (List.mem_range.mp hj)
    · intro hi
      refine ⟨σ.symm i, ?_, σ.apply_symm_apply i⟩
      rw [List.mem_range]
      by_contra hge
      have heq := hσ _ (Nat.not_lt.mp hge)
      rw [σ.apply_symm_apply] at heq
      omega
  rw [← List.map_map]
  exact hrange.map a

end Rearranged

/-! ## Heaps -/

def IsChild (p c : ℕ) : Prop := c = 2 * p + 1 ∨ c = 2 * p + 2

section Heap
variable {α : Type*} (le : α → α → Prop)

/-- Every parent from `lo` on has no greater child below `n`. -/
def HeapFrom (a : ℕ → α) (lo n : ℕ) : Prop := ∀ p c, lo ≤ p → IsChild p c → c < n → le (a c) (a p)

/-- A heap but for the element at `r`, which may be too small for its children. -/
structure HeapBut (a : ℕ → α) (lo n r : ℕ) : Prop where
  order : ∀ p c, lo ≤ p → p ≠ r → IsChild p c → c < n → le (a c) (a p)
  above : ∀ p c, lo ≤ p → IsChild p r → IsChild r c → c < n → le (a c) (a p)

/-- The elements from `i` on are sorted, and none before is greater. -/
structure SortedTail (a : ℕ → α) (n i : ℕ) : Prop where
  sorted : ∀ j k, i ≤ j → j < k → k < n → le (a j) (a k)
  bound : ∀ j k, j < i → i ≤ k → k < n → le (a j) (a k)

variable {le} {a b : ℕ → α} {lo n r c i : ℕ}

theorem heapFrom_of_half (hlo : n ≤ 2 * lo + 1) : HeapFrom le a lo n := by
  rintro p c hp (rfl | rfl) hc
  · omega
  · omega

theorem HeapFrom.but (h : HeapFrom le a (r + 1) n) : HeapBut le a r n r := by
  constructor
  · intro p c hp hne hchild hc
    exact h p c (by omega) hchild hc
  · rintro p c hp (hr | hr) _ _
    · omega
    · omega

theorem HeapBut.stop (h : HeapBut le a lo n r) (hr : ∀ c, IsChild r c → c < n → le (a c) (a r)) :
    HeapFrom le a lo n := by
  intro p c hp hchild hc
  by_cases hpr : p = r
  · subst hpr
    exact hr c hchild hc
  · exact h.order p c hp hpr hchild hc

/-- The element moves one place down. -/
theorem HeapBut.down (h : HeapBut le a lo n r) (hlo : lo ≤ r) (hchild : IsChild r c) (hc : c < n)
    (hle : le (a r) (a c))
    (hmax : ∀ c', IsChild r c' → c' < n → le (a c') (a c)) : HeapBut le (a ∘ Equiv.swap r c) lo n c := by
  have hlt : r < c := by
    rcases hchild with rfl | rfl <;> omega
  have hself : (a ∘ Equiv.swap r c) r = a c := by rw [Function.comp_apply, Equiv.swap_apply_left]
  have hother (k : ℕ) (hr : k ≠ r) (hk : k ≠ c) : (a ∘ Equiv.swap r c) k = a k := by
    rw [Function.comp_apply, Equiv.swap_apply_of_ne_of_ne hr hk]
  have hdown : (a ∘ Equiv.swap r c) c = a r := by rw [Function.comp_apply, Equiv.swap_apply_right]
  constructor
  · intro p k hp hpc hpk hk
    by_cases hpr : p = r
    · subst hpr
      rw [hself]
      by_cases hkc : k = c
      · rw [hkc, hdown]
        exact hle
      · have hkp : k ≠ p := by
          rcases hpk with rfl | rfl <;> omega
        rw [hother k hkp hkc]
        exact hmax k hpk hk
    · rw [hother p hpr hpc]
      by_cases hkr : k = r
      · subst hkr
        rw [hself]
        exact h.above p c hp hpk hchild hc
      · have hkc : k ≠ c := by
          rintro rfl
          rcases hchild with rfl | rfl <;> rcases hpk with hpk | hpk <;> omega
        rw [hother k hkr hkc]
        exact h.order p k hp hpr hpk hk
  · intro p k hp hpc hck hk
    have hpr : p = r := by
      rcases hchild with rfl | rfl <;> rcases hpc with hpc | hpc <;> omega
    subst hpr
    have hkp : k ≠ p := by
      rcases hck with rfl | rfl <;> omega
    have hkc : k ≠ c := by
      rcases hck with rfl | rfl <;> omega
    rw [hself, hother k hkp hkc]
    exact h.order c k (by omega) (by omega) hck hk

/-- The root of a heap is a greatest element. -/
theorem HeapFrom.le_root (hrefl : ∀ x, le x x) (htrans : ∀ x y z, le x y → le y z → le x z)
    (h : HeapFrom le a 0 n) (hi : i < n) :
    le (a i) (a 0) := by
  induction i using Nat.strong_induction_on with
  | _ i ih =>
    by_cases hzero : i = 0
    · rw [hzero]
      exact hrefl _
    · have hchild : IsChild ((i - 1) / 2) i := by
        rw [IsChild]
        omega
      exact htrans _ _ _ (h _ i (Nat.zero_le _) hchild hi) (ih _ (by omega) (by omega))

/-! ## A tail that grows -/

theorem sortedTail_all (a : ℕ → α) (n : ℕ) : SortedTail le a n n := by
  constructor
  · intro j k hj hjk hk
    omega
  · intro j k _ hk hlt
    omega

theorem SortedTail.rearranged (h : SortedTail le a n i) (hb : Rearranged i a b) : SortedTail le b n i := by
  constructor
  · intro j k hj hjk hk
    rw [hb.apply_of_le hj, hb.apply_of_le (hj.trans hjk.le)]
    exact h.sorted j k hj hjk hk
  · intro j k hj hk hlt
    obtain ⟨j', hj', hbj⟩ := hb.exists_index hj
    rw [hbj, hb.apply_of_le hk]
    exact h.bound j' k hj' hk hlt

/-- The root goes to the end of the heap. -/
theorem SortedTail.grow (hrefl : ∀ x, le x x) (htrans : ∀ x y z, le x y → le y z → le x z)
    (h : SortedTail le a n (i + 1))
    (hheap : HeapFrom le a 0 (i + 1)) : SortedTail le (a ∘ Equiv.swap 0 i) n i := by
  have hb := rearranged_swap a (Nat.succ_pos i) (Nat.lt_succ_self i)
  have hlast : (a ∘ Equiv.swap 0 i) i = a 0 := by rw [Function.comp_apply, Equiv.swap_apply_right]
  have htail := h.rearranged hb
  constructor
  · intro j k hj hjk hk
    by_cases hji : j = i
    · subst hji
      rw [hlast, hb.apply_of_le (by omega)]
      exact h.bound 0 k (by omega) (by omega) hk
    · exact htail.sorted j k (by omega) hjk hk
  · intro j k hj hk hlt
    by_cases hki : k = i
    · subst hki
      obtain ⟨j', hj', hbj⟩ := hb.exists_index (show j < k + 1 by omega)
      rw [hlast, hbj]
      exact hheap.le_root hrefl htrans hj'
    · exact htail.bound j k (by omega) (by omega) hlt

/-- What is left of the heap is one but for its root. -/
theorem HeapFrom.shrink (h : HeapFrom le a 0 (i + 1)) : HeapFrom le (a ∘ Equiv.swap 0 i) 1 i := by
  intro p c hp hchild hc
  have hpc : p < c := by
    rcases hchild with rfl | rfl <;> omega
  have hsame (k : ℕ) (hlow : 1 ≤ k) (hk : k < i) : (a ∘ Equiv.swap 0 i) k = a k := by
    rw [Function.comp_apply, Equiv.swap_apply_of_ne_of_ne (by omega) (by omega)]
  rw [hsame p hp (by omega), hsame c (by omega) hc]
  exact h p c (Nat.zero_le _) hchild (by omega)

theorem SortedTail.pairwise (h : SortedTail le a n i) (hi : i ≤ 1) : ((List.range n).map a).Pairwise le := by
  rw [List.pairwise_map, List.pairwise_iff_getElem]
  intro j k hj hk hjk
  rw [List.length_range] at hj hk
  rw [List.getElem_range, List.getElem_range]
  by_cases hji : j < i
  · exact h.bound j k hji (by omega) hk
  · exact h.sorted j k (by omega) hjk hk

end Heap

end Skp.Foundations
