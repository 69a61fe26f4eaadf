import Mathlib

/-! # The size of a finite map

How many keys a finite map has after an insertion of a new key or an erasure. -/
namespace Skp.Foundations
set_option autoImplicit false

variable {K N : Type*} [DecidableEq K]

theorem keys_insert_eq (m : Finmap fun _ : K => N) (k : K) (n : N) :
    (m.insert k n).keys = Insert.insert k m.keys := by
  ext x
  rw [Finmap.mem_keys, Finmap.mem_insert, Finset.mem_insert, Finmap.mem_keys]

theorem card_insert_new {m : Finmap fun _ : K => N} {k : K} (n : N) (h : m.lookup k = none) :
    (m.insert k n).keys.card = m.keys.card + 1 := by
  rw [keys_insert_eq, Finset.card_insert_of_notMem]
  rw [Finmap.mem_keys]
  exact Finmap.lookup_eq_none.mp h

theorem card_erase_bound {m : Finmap fun _ : K => N} {k : K} {n : N} (h : m.lookup k = some n) :
    (m.erase k).keys.card + 1 = m.keys.card := by
  rw [Finmap.keys_erase, Finset.card_erase_add_one]
  rw [Finmap.mem_keys]
  exact Finmap.mem_iff.mpr ⟨n, h⟩

theorem lookup_insert_eq (m : Finmap fun _ : K => N) (k j : K) (n : N) :
    (m.insert k n).lookup j = if j = k then some n else m.lookup j := by
  split
  · rename_i h
    rw [h, Finmap.lookup_insert]
  · rename_i h
    exact Finmap.lookup_insert_of_ne m h

theorem lookup_erase_eq (m : Finmap fun _ : K => N) (k j : K) :
    (m.erase k).lookup j = if j = k then none else m.lookup j := by
  split
  · rename_i h
    rw [h, Finmap.lookup_erase]
  · rename_i h
    exact Finmap.lookup_erase_ne h

end Skp.Foundations
