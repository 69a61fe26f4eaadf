import Skp.Mm.BuddyModel
import Skp.Foundations.Tiling
import Skp.Foundations.Digits

/-! # What the free lists, the flags and the blocks have to do with each other

`BuddyCore z A S` speaks about a zone with the allocated blocks `A` and the supplied pages `S`: free and
allocated blocks tile the pages of `S` that are not reserved, and on `S` the flag `PG_buddy` marks the heads
of free blocks. A block on its way through the merge loop or through `expand` counts as allocated, so both
loops are made of four moves that keep `BuddyCore`: take a block from its list, put one into a list, join
two halves, split a block. -/
namespace Skp.Mm
set_option autoImplicit false
open Skp.Foundations

variable {z : Zone} {A B : Set (ℕ × ℕ)} {S : Set ℕ} {top : ℕ}

/-- Free blocks, as blocks. -/
def freeBlocks (z : Zone) : Set (ℕ × ℕ) := {b | b.1 ∈ z.freeList b.2}

/-- The supplied pages that are not reserved. -/
def usable (z : Zone) (S : Set ℕ) : Set ℕ := {q | q ∈ S ∧ z.reserved q = false}

structure BuddyCore (top : ℕ) (z : Zone) (A : Set (ℕ × ℕ)) (S : Set ℕ) : Prop where
  tiles : Tiles (A ∪ freeBlocks z) (usable z S)
  apart : ∀ b, b ∈ A → b ∉ freeBlocks z
  alloc_le : ∀ b, b ∈ A → b.2 ≤ top
  free_le : ∀ b, b ∈ freeBlocks z → b.2 ≤ top
  nodup : ∀ k, (z.freeList k).Nodup
  nrFree : ∀ k, z.nrFree k = (z.freeList k).length
  head : ∀ b, b ∈ freeBlocks z → z.buddy b.1 = true ∧ z.order b.1 = b.2
  flag : ∀ q, q ∈ S → z.buddy q = true → ∃ k : ℕ, z.order q = k ∧ (q, k) ∈ freeBlocks z
  noBuddies : ∀ k p, k < top → (p, k) ∈ freeBlocks z → (p ^^^ 2 ^ k, k) ∉ freeBlocks z

/-- The pages of the free blocks, as `nr_free` counts them. -/
def freeSum (top : ℕ) (z : Zone) : ℕ := ∑ k ∈ Finset.range (top + 1), z.nrFree k * 2 ^ k

theorem freeSum_update {top k : ℕ} (hk : k ≤ top) (f : ℕ → ℕ) (x : ℕ) :
    ∑ j ∈ Finset.range (top + 1), Function.update f k x j * 2 ^ j + f k * 2 ^ k =
      ∑ j ∈ Finset.range (top + 1), f j * 2 ^ j + x * 2 ^ k :=
  sum_update_add (Finset.range (top + 1)) (fun j n => n * 2 ^ j) f (Finset.mem_range.mpr (by omega)) x

namespace BuddyCore

theorem eq_of_start (h : BuddyCore top z A S) {b c : ℕ × ℕ} (hb : b ∈ A ∪ freeBlocks z)
    (hc : c ∈ A ∪ freeBlocks z)
    (hin : b.1 ∈ span c) : b = c := h.tiles.order_unique hb hc hin

theorem supplied (h : BuddyCore top z A S) {b : ℕ × ℕ} (hb : b ∈ A ∪ freeBlocks z) {q : ℕ} (hq : q ∈ span b) :
    q ∈ S := (h.tiles.span_subset hb hq).1

/-- A page heads at most one block. -/
theorem order_eq (h : BuddyCore top z A S) {p k l : ℕ} (hk : (p, k) ∈ A ∪ freeBlocks z)
    (hl : (p, l) ∈ A ∪ freeBlocks z) : k = l := by
  have heq := h.eq_of_start hk hl (start_mem_span (p, l))
  exact congrArg Prod.snd heq

/-! ## Take -/

theorem mem_freeBlocks_take (h : BuddyCore top z A S) {p k : ℕ} (b : ℕ × ℕ) :
    b ∈ freeBlocks (takeBlock z p k) ↔ b ∈ freeBlocks z ∧ b ≠ (p, k) := by
  obtain ⟨q, l⟩ := b
  show q ∈ Function.update z.freeList k ((z.freeList k).erase p) l ↔ q ∈ z.freeList l ∧ (q, l) ≠ (p, k)
  by_cases hl : l = k
  · subst hl
    rw [Function.update_self, (h.nodup l).mem_erase_iff]
    simp only [ne_eq, Prod.mk.injEq, and_true]
    exact And.comm
  · rw [Function.update_of_ne hl]
    simp only [ne_eq, Prod.mk.injEq, hl, and_false, not_false_eq_true, and_true]

theorem take (h : BuddyCore top z A S) {p k : ℕ} (hp : (p, k) ∈ freeBlocks z) :
    BuddyCore top (takeBlock z p k) (insert (p, k) A) S := by
  have hmem := h.mem_freeBlocks_take (p := p) (k := k)
  have hsame : insert (p, k) A ∪ freeBlocks (takeBlock z p k) = A ∪ freeBlocks z := by
    ext b
    simp only [Set.mem_union, Set.mem_insert_iff, hmem b]
    by_cases hb : b = (p, k)
    · subst hb
      simp [hp]
    · simp [hb]
  have hne : ∀ b, b ∈ freeBlocks (takeBlock z p k) → b.1 ≠ p := by
    intro b hb heq
    obtain ⟨hbf, hbne⟩ := (hmem b).mp hb
    apply hbne
    have hl : b.2 = k := h.order_eq (p := p) (Or.inr (heq ▸ hbf)) (Or.inr hp)
    rw [← heq, ← hl]
  constructor
  · rw [hsame]
    exact h.tiles
  · intro b hb hbf
    cases hb with
    | inl heq => exact ((hmem b).mp hbf).2 heq
    | inr hb => exact h.apart b hb ((hmem b).mp hbf).1
  · intro b hb
    cases hb with
    | inl heq => exact heq ▸ h.free_le _ hp
    | inr hb => exact h.alloc_le b hb
  · exact fun b hb => h.free_le b ((hmem b).mp hb).1
  · intro l
    by_cases hl : l = k
    · subst hl
      show (Function.update z.freeList l _ l).Nodup
      rw [Function.update_self]
      exact (h.nodup l).erase p
    · show (Function.update z.freeList k _ l).Nodup
      rw [Function.update_of_ne hl]
      exact h.nodup l
  · intro l
    show Function.update z.nrFree k _ l = (Function.update z.freeList k _ l).length
    by_cases hl : l = k
    · subst hl
      rw [Function.update_self, Function.update_self, h.nrFree, List.length_erase_of_mem hp]
    · rw [Function.update_of_ne hl, Function.update_of_ne hl]
      exact h.nrFree l
  · intro b hb
    have hbp := hne b hb
    show Function.update z.buddy p false b.1 = true ∧ Function.update z.order p (-1) b.1 = b.2
    rw [Function.update_of_ne hbp, Function.update_of_ne hbp]
    exact h.head b ((hmem b).mp hb).1
  · intro q hq hbuddy
    have hqp : q ≠ p := by
      intro heq
      rw [heq] at hbuddy
      have : Function.update z.buddy p false p = true := hbuddy
      rw [Function.update_self] at this
      cases this
    have hold : z.buddy q = true := by
      have : Function.update z.buddy p false q = true := hbuddy
      rwa [Function.update_of_ne hqp] at this
    obtain ⟨l, hl, hfree⟩ := h.flag q hq hold
    refine ⟨l, ?_, (hmem _).mpr ⟨hfree, fun heq => hqp (congrArg Prod.fst heq)⟩⟩
    show Function.update z.order p (-1) q = l
    rw [Function.update_of_ne hqp]
    exact hl
  · intro l q hl hq hbq
    exact h.noBuddies l q hl ((hmem _).mp hq).1 ((hmem _).mp hbq).1

/-! ## Put -/

theorem mem_freeBlocks_put {p k : ℕ} {list : List ℕ} (hlist : list.Perm (p :: z.freeList k)) (b : ℕ × ℕ) :
    b ∈ freeBlocks (putBlock z p k list) ↔ b ∈ freeBlocks z ∨ b = (p, k) := by
  obtain ⟨q, l⟩ := b
  show q ∈ Function.update z.freeList k list l ↔ q ∈ z.freeList l ∨ (q, l) = (p, k)
  by_cases hl : l = k
  · subst hl
    rw [Function.update_self, hlist.mem_iff, List.mem_cons]
    simp only [Prod.mk.injEq, and_true]
    exact Or.comm
  · rw [Function.update_of_ne hl]
    simp only [Prod.mk.injEq, hl, and_false, or_false]

theorem put {p k : ℕ} (h : BuddyCore top z (insert (p, k) B) S) (hB : (p, k) ∉ B) {list : List ℕ}
    (hlist : list.Perm (p :: z.freeList k)) (hbuddy : k < top → (p ^^^ 2 ^ k, k) ∉ freeBlocks z) :
    BuddyCore top (putBlock z p k list) B S := by
  have hmem := mem_freeBlocks_put hlist
  have hself : (p, k) ∈ insert (p, k) B := Set.mem_insert _ _
  have hnot : (p, k) ∉ freeBlocks z := h.apart _ hself
  have hsame : B ∪ freeBlocks (putBlock z p k list) = insert (p, k) B ∪ freeBlocks z := by
    ext b
    simp only [Set.mem_union, Set.mem_insert_iff, hmem b]
    tauto
  -- no free block has the same head
  have hne : ∀ b, b ∈ freeBlocks z → b.1 ≠ p := by
    intro b hb heq
    have hl : b.2 = k := h.order_eq (p := p) (Or.inr (heq ▸ hb)) (Or.inl hself)
    apply hnot
    rw [← heq, ← hl]
    exact hb
  constructor
  · rw [hsame]
    exact h.tiles
  · intro b hb hbf
    cases (hmem b).mp hbf with
    | inl hbf => exact h.apart b (Set.mem_insert_of_mem _ hb) hbf
    | inr heq => exact hB (heq ▸ hb)
  · exact fun b hb => h.alloc_le b (Set.mem_insert_of_mem _ hb)
  · intro b hb
    cases (hmem b).mp hb with
    | inl hbf => exact h.free_le b hbf
    | inr heq => exact heq ▸ h.alloc_le _ hself
  · intro l
    show (Function.update z.freeList k list l).Nodup
    by_cases hl : l = k
    · subst hl
      rw [Function.update_self, hlist.nodup_iff, List.nodup_cons]
      exact ⟨hnot, h.nodup l⟩
    · rw [Function.update_of_ne hl]
      exact h.nodup l
  · intro l
    show Function.update z.nrFree k _ l = (Function.update z.freeList k list l).length
    by_cases hl : l = k
    · subst hl
      rw [Function.update_self, Function.update_self, h.nrFree, hlist.length_eq, List.length_cons]
    · rw [Function.update_of_ne hl, Function.update_of_ne hl]
      exact h.nrFree l
  · intro b hb
    show Function.update z.buddy p true b.1 = true ∧ Function.update z.order p (k : ℤ) b.1 = b.2
    cases (hmem b).mp hb with
    | inl hbf =>
      rw [Function.update_of_ne (hne b hbf), Function.update_of_ne (hne b hbf)]
      exact h.head b hbf
    | inr heq =>
      subst heq
      rw [Function.update_self, Function.update_self]
      exact ⟨rfl, rfl⟩
  · intro q hq hflag
    by_cases hqp : q = p
    · subst hqp
      refine ⟨k, ?_, (hmem _).mpr (Or.inr rfl)⟩
      show Function.update z.order q (k : ℤ) q = k
      rw [Function.update_self]
    · have hold : z.buddy q = true := by
        have : Function.update z.buddy p true q = true := hflag
        rwa [Function.update_of_ne hqp] at this
      obtain ⟨l, hl, hfree⟩ := h.flag q hq hold
      refine ⟨l, ?_, (hmem _).mpr (Or.inl hfree)⟩
      show Function.update z.order p (k : ℤ) q = l
      rw [Function.update_of_ne hqp]
      exact hl
  · intro l q hl hq hbq
    cases (hmem _).mp hq with
    | inl hqf =>
      cases (hmem _).mp hbq with
      | inl hbqf => exact h.noBuddies l q hl hqf hbqf
      | inr heq =>
        obtain ⟨hx, hlk⟩ := Prod.mk.injEq _ _ _ _ ▸ heq
        subst hlk
        have hq' : q = p ^^^ 2 ^ l := by rw [← hx, xor_pow_xor_pow]
        exact hbuddy hl (hq' ▸ hqf)
    | inr heq =>
      obtain ⟨hx, hlk⟩ := Prod.mk.injEq _ _ _ _ ▸ heq
      subst hlk
      subst hx
      cases (hmem _).mp hbq with
      | inl hbqf => exact hbuddy hl hbqf
      | inr heq' => exact xor_pow_ne q l (congrArg Prod.fst heq')

/-! ## Split and join -/

theorem retile (h : BuddyCore top z A S) (htiles : Tiles (B ∪ freeBlocks z) (usable z S))
    (happart : ∀ b, b ∈ B → b ∉ freeBlocks z) (hle : ∀ b, b ∈ B → b.2 ≤ top) : BuddyCore top z B S :=
  { h with tiles := htiles, apart := happart, alloc_le := hle }

theorem split {p k : ℕ} (h : BuddyCore top z (insert (p, k + 1) B) S) (hB : (p, k + 1) ∉ B) :
    BuddyCore top z (insert (p, k) (insert (p + 2 ^ k, k) B)) S ∧ (p, k) ∉ insert (p + 2 ^ k, k) B ∧
      (p + 2 ^ k, k) ∉ B := by
  have hself : (p, k + 1) ∈ insert (p, k + 1) B ∪ freeBlocks z := Or.inl (Set.mem_insert _ _)
  have hpos := Nat.two_pow_pos k
  -- the halves are not blocks yet: they would lie inside the block
  have hin : ∀ b : ℕ × ℕ, b.1 ∈ span (p, k + 1) → b.2 = k → b ∉ insert (p, k + 1) B ∪ freeBlocks z := by
    intro b hb hbk hmem
    have heq := congrArg Prod.snd (h.eq_of_start hmem hself hb)
    simp only at heq
    omega
  have hlow : (p, k) ∉ insert (p, k + 1) B ∪ freeBlocks z := hin (p, k) (start_mem_span (p, k + 1)) rfl
  have hhigh : (p + 2 ^ k, k) ∉ insert (p, k + 1) B ∪ freeBlocks z :=
    hin (p + 2 ^ k, k) (mem_span_halves.mpr (Or.inr (start_mem_span (p + 2 ^ k, k)))) rfl
  have hfree : (p, k + 1) ∉ freeBlocks z := h.apart _ (Set.mem_insert _ _)
  have hset : (insert (p, k + 1) B ∪ freeBlocks z) \ {(p, k + 1)} ∪ {(p, k), (p + 2 ^ k, k)} =
      insert (p, k) (insert (p + 2 ^ k, k) B) ∪ freeBlocks z := by
    ext b
    simp only [Set.mem_union, Set.mem_sdiff, Set.mem_insert_iff, Set.mem_singleton_iff]
    by_cases hb : b = (p, k + 1)
    · subst hb
      simp [hB, hfree]
    · tauto
  have hne : (p, k) ≠ (p + 2 ^ k, k) := by
    intro heq
    have := congrArg Prod.fst heq
    simp only at this
    omega
  refine ⟨h.retile ?_ ?_ ?_, ?_, fun hb => hhigh (Or.inl (Set.mem_insert_of_mem _ hb))⟩
  · rw [← hset]
    exact h.tiles.split hself
  · intro b hb hbf
    cases hb with
    | inl heq => exact hlow (Or.inr (heq ▸ hbf))
    | inr hb =>
      cases hb with
      | inl heq => exact hhigh (Or.inr (heq ▸ hbf))
      | inr hb => exact h.apart b (Set.mem_insert_of_mem _ hb) hbf
  · intro b hb
    have htop := h.alloc_le _ (Set.mem_insert (p, k + 1) B)
    simp only at htop
    cases hb with
    | inl heq => rw [heq]; exact Nat.le_of_succ_le htop
    | inr hb =>
      cases hb with
      | inl heq => rw [heq]; exact Nat.le_of_succ_le htop
      | inr hb => exact h.alloc_le b (Set.mem_insert_of_mem _ hb)
  · intro hb
    cases hb with
    | inl heq => exact hne heq
    | inr hb => exact hlow (Or.inl (Set.mem_insert_of_mem _ hb))

theorem join {p k : ℕ} (h : BuddyCore top z (insert (p, k) (insert (p + 2 ^ k, k) B)) S) (hlow : (p, k) ∉ B)
    (hhigh : (p + 2 ^ k, k) ∉ B) (hp : 2 ^ (k + 1) ∣ p) (hk : k < top) :
    BuddyCore top z (insert (p, k + 1) B) S ∧ (p, k + 1) ∉ B := by
  have hl : (p, k) ∈ insert (p, k) (insert (p + 2 ^ k, k) B) := Set.mem_insert _ _
  have hr : (p + 2 ^ k, k) ∈ insert (p, k) (insert (p + 2 ^ k, k) B) :=
    Set.mem_insert_of_mem _ (Set.mem_insert _ _)
  have hnew : (p, k + 1) ∉ insert (p, k) (insert (p + 2 ^ k, k) B) ∪ freeBlocks z := by
    intro hmem
    have := h.order_eq hmem (Or.inl hl)
    omega
  have hset : ((insert (p, k) (insert (p + 2 ^ k, k) B) ∪ freeBlocks z) \ {(p, k)}) \
      {(p + 2 ^ k, k)} ∪ {(p, k + 1)} =
      insert (p, k + 1) B ∪ freeBlocks z := by
    have hlf := h.apart _ hl
    have hrf := h.apart _ hr
    ext b
    simp only [Set.mem_union, Set.mem_sdiff, Set.mem_insert_iff, Set.mem_singleton_iff]
    by_cases hb : b = (p, k)
    · subst hb
      simp [hlow, hlf]
    · by_cases hb' : b = (p + 2 ^ k, k)
      · subst hb'
        simp [hhigh, hrf]
      · tauto
  have hB : (p, k + 1) ∉ B := fun hb => hnew (Or.inl (Set.mem_insert_of_mem _ (Set.mem_insert_of_mem _ hb)))
  refine ⟨h.retile ?_ ?_ ?_, hB⟩
  · rw [← hset]
    exact h.tiles.join (Or.inl hl) (Or.inl hr) hp
  · intro b hb hbf
    cases hb with
    | inl heq => exact hnew (Or.inr (heq ▸ hbf))
    | inr hb => exact h.apart b (Set.mem_insert_of_mem _ (Set.mem_insert_of_mem _ hb)) hbf
  · intro b hb
    cases hb with
    | inl heq => rw [heq]; exact hk
    | inr hb => exact h.alloc_le b (Set.mem_insert_of_mem _ (Set.mem_insert_of_mem _ hb))

end BuddyCore

end Skp.Mm
