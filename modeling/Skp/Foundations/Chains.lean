import Mathlib

/-! # Arrays of chains

A chained table is a function from indices to lists. Its load below `size` is the number of elements
of its first `size` chains; changing one chain changes the load by the difference of the lengths. -/
namespace Skp.Foundations
set_option autoImplicit false

variable {N : Type*}

/-- The number of elements in the first `size` chains. -/
def chainLoad (f : ℕ → List N) (size : ℕ) : ℕ := ∑ i ∈ Finset.range size, (f i).length

theorem chainLoad_update (f : ℕ → List N) {size i : ℕ} (hi : i < size) (c : List N) :
    chainLoad (Function.update f i c) size + (f i).length = chainLoad f size + c.length := by
  have hmem : i ∈ Finset.range size := Finset.mem_range.mpr hi
  have hold := Finset.add_sum_erase (Finset.range size) (fun j => (f j).length) hmem
  have hnew := Finset.add_sum_erase (Finset.range size) (fun j => (Function.update f i c j).length) hmem
  have hrest : ∑ j ∈ (Finset.range size).erase i, (Function.update f i c j).length =
      ∑ j ∈ (Finset.range size).erase i, (f j).length := by
    refine Finset.sum_congr rfl fun j hj => ?_
    rw [Function.update_of_ne (Finset.ne_of_mem_erase hj)]
  simp only [Function.update_self] at hnew
  unfold chainLoad
  omega

theorem chainLoad_pos {f : ℕ → List N} {size : ℕ} (h : chainLoad f size ≠ 0) :
    ∃ i, i < size ∧ f i ≠ [] := by
  by_contra hne
  push Not at hne
  exact h (Finset.sum_eq_zero fun i hi => by simp [hne i (Finset.mem_range.mp hi)])

theorem chainLoad_nil (size : ℕ) : chainLoad (fun _ => ([] : List N)) size = 0 := by
  simp [chainLoad]

theorem eq_nil_of_chainLoad_eq_zero {f : ℕ → List N} {size i : ℕ} (h : chainLoad f size = 0)
    (hi : i < size) : f i = [] := by
  have := (Finset.sum_eq_zero_iff.mp h) i (Finset.mem_range.mpr hi)
  exact List.length_eq_zero_iff.mp this

end Skp.Foundations
