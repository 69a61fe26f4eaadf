import Mathlib

/-! # Counting threads and members -/

namespace Skp.Foundations
set_option autoImplicit false

/-! ## Counting two finite sets together

A counter often stands for the members of two sets, such as the jobs that wait and the servers that are busy.
`Tally A B n` says that `A` and `B` together have `n` members; it also says that both are finite. -/

section Tally
variable {α β : Type*} {A A' : Set α} {B B' : Set β} {n : ℕ} {a : α} {b : β}

def Tally (A : Set α) (B : Set β) (n : ℕ) : Prop := A.encard + B.encard = n

theorem tally_empty : Tally (∅ : Set α) (∅ : Set β) 0 := by
  simp [Tally]

theorem Tally.eq (h : Tally A B n) {m : ℕ} (h' : Tally A B m) : n = m := by
  have : (n : ℕ∞) = m := h.symm.trans h'
  exact_mod_cast this

theorem Tally.insert_left (h : Tally A B n) (ha : a ∉ A) : Tally (insert a A) B (n + 1) := by
  unfold Tally at h ⊢
  rw [Set.encard_insert_of_notMem ha, add_right_comm, h]
  norm_cast

theorem Tally.insert_right (h : Tally A B n) (hb : b ∉ B) : Tally A (insert b B) (n + 1) := by
  unfold Tally at h ⊢
  rw [Set.encard_insert_of_notMem hb, ← add_assoc, h]
  norm_cast

theorem Tally.pos_left (h : Tally A B n) (ha : a ∈ A) : 0 < n := by
  rcases Nat.eq_zero_or_pos n with rfl | hn
  · unfold Tally at h
    rw [Nat.cast_zero, add_eq_zero, Set.encard_eq_zero] at h
    rw [h.1] at ha
    cases ha
  · exact hn

theorem Tally.pos_right (h : Tally A B n) (hb : b ∈ B) : 0 < n := by
  rcases Nat.eq_zero_or_pos n with rfl | hn
  · unfold Tally at h
    rw [Nat.cast_zero, add_eq_zero, Set.encard_eq_zero, Set.encard_eq_zero] at h
    rw [h.2] at hb
    cases hb
  · exact hn

theorem Tally.remove_left (h : Tally A B n) (ha : a ∈ A) : Tally (A \ {a}) B (n - 1) := by
  obtain ⟨m, rfl⟩ : ∃ m, n = m + 1 := ⟨n - 1, by have := h.pos_left ha; omega⟩
  unfold Tally at h ⊢
  rw [← Set.encard_sdiff_singleton_add_one ha, add_right_comm, Nat.cast_add, Nat.cast_one] at h
  exact ENat.add_left_injective_of_ne_top ENat.one_ne_top h

theorem Tally.remove_right (h : Tally A B n) (hb : b ∈ B) : Tally A (B \ {b}) (n - 1) := by
  obtain ⟨m, rfl⟩ : ∃ m, n = m + 1 := ⟨n - 1, by have := h.pos_right hb; omega⟩
  unfold Tally at h ⊢
  rw [← Set.encard_sdiff_singleton_add_one hb, ← add_assoc, Nat.cast_add, Nat.cast_one] at h
  exact ENat.add_left_injective_of_ne_top ENat.one_ne_top h

/-! The same for sets that are given by what changes: all members but one are the same. -/

theorem Tally.grow_left (h : Tally A B n) (hA : ∀ y, y ≠ a → (y ∈ A' ↔ y ∈ A)) (ha : a ∉ A) (ha' : a ∈ A') :
    Tally A' B (n + 1) := by
  have he : A' = insert a A := by
    ext y
    by_cases hy : y = a
    · simp [hy, ha']
    · simp [hy, hA y hy]
  rw [he]
  exact h.insert_left ha

theorem Tally.grow_right (h : Tally A B n) (hB : ∀ y, y ≠ b → (y ∈ B' ↔ y ∈ B)) (hb : b ∉ B) (hb' : b ∈ B') :
    Tally A B' (n + 1) := by
  have he : B' = insert b B := by
    ext y
    by_cases hy : y = b
    · simp [hy, hb']
    · simp [hy, hB y hy]
  rw [he]
  exact h.insert_right hb

theorem Tally.shrink_left (h : Tally A B n) (hA : ∀ y, y ≠ a → (y ∈ A' ↔ y ∈ A)) (ha : a ∈ A) (ha' : a ∉ A') :
    Tally A' B (n - 1) := by
  have he : A' = A \ {a} := by
    ext y
    by_cases hy : y = a
    · simp [hy, ha']
    · simp [hy, hA y hy]
  rw [he]
  exact h.remove_left ha

theorem Tally.shrink_right (h : Tally A B n) (hB : ∀ y, y ≠ b → (y ∈ B' ↔ y ∈ B)) (hb : b ∈ B)
    (hb' : b ∉ B') :
    Tally A B' (n - 1) := by
  have he : B' = B \ {b} := by
    ext y
    by_cases hy : y = b
    · simp [hy, hb']
    · simp [hy, hB y hy]
  rw [he]
  exact h.remove_right hb

theorem Tally.congr (h : Tally A B n) (hA : ∀ y, y ∈ A' ↔ y ∈ A) (hB : ∀ y, y ∈ B' ↔ y ∈ B) :
    Tally A' B' n := by
  rw [Set.ext hA, Set.ext hB]
  exact h

end Tally

/-! ## Counting the threads at some places

`Headcount f pc n` says that `n` threads are at the places that `f` picks, out of any number of
threads. A move of one thread changes the number by what `f` says of its two places. -/

section Headcount
variable {T P : Type*} {f : P → Bool} {pc : T → P} {n : ℕ} {t u : T} {p : P}

def Headcount (f : P → Bool) (pc : T → P) (n : ℕ) : Prop := Tally {t | f (pc t) = true} (∅ : Set Empty) n

theorem headcount_zero (h : ∀ t, f (pc t) = false) : Headcount f pc 0 := by
  have hempty : {t | f (pc t) = true} = ∅ := by
    ext t
    simp [h t]
  rw [Headcount, hempty]
  exact tally_empty

theorem Headcount.le (h : Headcount f pc n) (t : T) : (f (pc t)).toNat ≤ n := by
  cases ht : f (pc t) with
  | false => exact Nat.zero_le n
  | true => exact h.pos_left ht

theorem Headcount.le_card [Fintype T] (h : Headcount f pc n) : n ≤ Fintype.card T := by
  have hle : {t | f (pc t) = true}.encard ≤ Fintype.card T := by
    rw [← ENat.card_eq_coe_fintype_card, ← Set.encard_univ]
    exact Set.encard_le_encard (Set.subset_univ _)
  have heq : {t | f (pc t) = true}.encard = n := by
    simpa [Headcount, Tally] using h
  rw [heq] at hle
  exact_mod_cast hle

theorem Headcount.unique (h : Headcount f pc n) (hn : n ≤ 1) (ht : f (pc t) = true)
    (hu : f (pc u) = true) : t = u := by
  by_contra hne
  have hrest := h.remove_left ht
  have hpos := hrest.pos_left (Set.mem_sdiff_singleton.mpr ⟨hu, fun heq => hne heq.symm⟩)
  omega

theorem Headcount.update [DecidableEq T] (h : Headcount f pc n) (t : T) (p : P) :
    Headcount f (Function.update pc t p) (n + (f p).toNat - (f (pc t)).toNat) := by
  have hothers : ∀ u, u ≠ t →
      (u ∈ {u | f (Function.update pc t p u) = true} ↔ u ∈ {u | f (pc u) = true}) := by
    intro u hu
    rw [Set.mem_ofPred_eq, Set.mem_ofPred_eq, Function.update_of_ne hu]
  have hself : t ∈ {u | f (Function.update pc t p u) = true} ↔ f p = true := by
    rw [Set.mem_ofPred_eq, Function.update_self]
  cases hold : f (pc t) with
  | false =>
    cases hnew : f p with
    | false =>
      refine Tally.congr h (fun u => ?_) fun _ => Iff.rfl
      by_cases hu : u = t
      · subst hu
        rw [hself, Set.mem_ofPred_eq, hold, hnew]
      · exact hothers u hu
    | true => exact h.grow_left hothers (Bool.eq_false_iff.mp hold) (hself.mpr hnew)
  | true =>
    cases hnew : f p with
    | false => exact h.shrink_left hothers hold fun hmem => Bool.eq_false_iff.mp hnew (hself.mp hmem)
    | true =>
      refine Tally.congr h (fun u => ?_) fun _ => Iff.rfl
      by_cases hu : u = t
      · subst hu
        rw [hself, Set.mem_ofPred_eq, hold, hnew]
      · exact hothers u hu

end Headcount

/-! ## Counting threads by their place

Every thread of a finite type is at a place of the code. `census f pc` is the number of threads at
the places that `f` picks; a move of one thread changes it by at most one. -/

section Census
variable {T P : Type*} [Fintype T] {f g h : P → Bool} {pc : T → P} {t : T} {p : P}

def census (f : P → Bool) (pc : T → P) : ℕ := (Finset.univ.filter fun u => f (pc u) = true).card

theorem census_le_card : census f pc ≤ Fintype.card T := Finset.card_le_univ _

theorem census_mono (hfg : ∀ p, f p = true → g p = true) : census f pc ≤ census g pc :=
  Finset.card_le_card fun u hu => by
    rw [Finset.mem_filter] at hu ⊢
    exact ⟨hu.1, hfg _ hu.2⟩

theorem census_eq_zero : census f pc = 0 ↔ ∀ t, f (pc t) = false := by
  simp [census, Finset.filter_eq_empty_iff]

theorem census_pos (ht : f (pc t) = true) : 0 < census f pc :=
  Finset.card_pos.mpr ⟨t, Finset.mem_filter.mpr ⟨Finset.mem_univ t, ht⟩⟩

/-- Places that are picked by one of two. -/
theorem census_split (hor : ∀ p, f p = (g p || h p)) (hand : ∀ p, g p = true → h p = false) :
    census f pc = census g pc + census h pc := by
  classical
  have hdisjoint : Disjoint (Finset.univ.filter fun u => g (pc u) = true)
      (Finset.univ.filter fun u => h (pc u) = true) := by
    rw [Finset.disjoint_filter]
    intro u _ hg
    simp [hand _ hg]
  rw [census, census, census, ← Finset.card_union_of_disjoint hdisjoint, ← Finset.filter_or]
  congr 1
  ext u
  simp [hor]

/-- At most one thread is there if the census says so. -/
theorem census_unique {u : T} (hone : census f pc ≤ 1) (ht : f (pc t) = true)
    (hu : f (pc u) = true) : t = u :=
  Finset.card_le_one.mp hone t (Finset.mem_filter.mpr ⟨Finset.mem_univ t, ht⟩) u
    (Finset.mem_filter.mpr ⟨Finset.mem_univ u, hu⟩)

variable [DecidableEq T]

theorem census_update (f : P → Bool) (pc : T → P) (t : T) (p : P) :
    census f (Function.update pc t p) + (f (pc t)).toNat = census f pc + (f p).toNat := by
  have hothers : ∀ q : P, (Finset.univ.filter fun u => f (Function.update pc t q u) = true) =
      if f q = true then insert t ((Finset.univ.filter fun u => f (pc u) = true).erase t)
      else (Finset.univ.filter fun u => f (pc u) = true).erase t := by
    intro q
    ext u
    by_cases hu : u = t
    · subst hu
      split <;> simp_all
    · split <;> simp [hu]
  have hcard : ∀ q : P, census f (Function.update pc t q) =
      ((Finset.univ.filter fun u => f (pc u) = true).erase t).card + (f q).toNat := by
    intro q
    rw [census, hothers q]
    cases hq : f q with
    | false => simp
    | true => simp
  have hsame := hcard (pc t)
  rw [Function.update_eq_self] at hsame
  have hmoved := hcard p
  omega

end Census

end Skp.Foundations
