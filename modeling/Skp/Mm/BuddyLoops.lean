import Skp.Mm.BuddyCore

/-! # The merge loop and `expand` -/
namespace Skp.Mm
set_option autoImplicit false
open Skp.Foundations

variable {z : Zone} {A B : Set (ℕ × ℕ)} {S : Set ℕ} {top : ℕ}

/-- The supplied pages come in whole blocks of the highest order. -/
def Whole (top : ℕ) (S : Set ℕ) : Prop := ∀ q q', q / 2 ^ top = q' / 2 ^ top → q ∈ S → q' ∈ S

/-- What the moves leave alone. -/
structure SameRest (z z' : Zone) : Prop where
  freePages : z'.freePages = z.freePages
  hasFree : z'.hasFree = z.hasFree
  inited : z'.inited = z.inited
  reserved : z'.reserved = z.reserved

theorem SameRest.refl (z : Zone) : SameRest z z := ⟨rfl, rfl, rfl, rfl⟩

theorem SameRest.trans {z z' z'' : Zone} (h : SameRest z z') (h' : SameRest z' z'') : SameRest z z'' :=
  ⟨h'.freePages.trans h.freePages, h'.hasFree.trans h.hasFree, h'.inited.trans h.inited,
    h'.reserved.trans h.reserved⟩

theorem sameRest_take (z : Zone) (p k : ℕ) : SameRest z (takeBlock z p k) := ⟨rfl, rfl, rfl, rfl⟩

theorem sameRest_put (z : Zone) (p k : ℕ) (list : List ℕ) : SameRest z (putBlock z p k list) :=
  ⟨rfl, rfl, rfl, rfl⟩

theorem freeSum_put {p k : ℕ} (list : List ℕ) (hk : k ≤ top) :
    freeSum top (putBlock z p k list) = freeSum top z + 2 ^ k := by
  have hsum := freeSum_update hk z.nrFree (z.nrFree k + 1)
  rw [Nat.add_mul, Nat.one_mul] at hsum
  show ∑ j ∈ Finset.range (top + 1), Function.update z.nrFree k (z.nrFree k + 1) j * 2 ^ j = _
  unfold freeSum
  omega

theorem freeSum_take (h : BuddyCore top z A S) {p k : ℕ} (hp : (p, k) ∈ freeBlocks z) :
    freeSum top (takeBlock z p k) + 2 ^ k = freeSum top z := by
  have hpos : 0 < z.nrFree k := by
    rw [h.nrFree]
    exact List.length_pos_of_mem hp
  have hsum := freeSum_update (h.free_le _ hp) z.nrFree (z.nrFree k - 1)
  have hmul : z.nrFree k * 2 ^ k = (z.nrFree k - 1) * 2 ^ k + 2 ^ k := by
    nth_rewrite 1 [← Nat.sub_add_cancel hpos]
    rw [Nat.add_mul, Nat.one_mul]
  show ∑ j ∈ Finset.range (top + 1), Function.update z.nrFree k (z.nrFree k - 1) j * 2 ^ j + 2 ^ k = _
  unfold freeSum
  simp only at hsum
  omega

theorem pageOrder_of_free (h : BuddyCore top z A S) {p k : ℕ} (hp : (p, k) ∈ freeBlocks z) :
    pageOrder z p = (k : ℤ) := by
  obtain ⟨hb, ho⟩ := h.head _ hp
  unfold pageOrder
  rw [if_pos hb]
  exact ho

theorem free_of_pageOrder (h : BuddyCore top z A S) {p k : ℕ} (hS : p ∈ S) (ho : pageOrder z p = (k : ℤ)) :
    (p, k) ∈ freeBlocks z := by
  unfold pageOrder at ho
  split at ho
  · rename_i hb
    obtain ⟨l, hl, hfree⟩ := h.flag p hS hb
    have hlk : l = k := by omega
    exact hlk ▸ hfree
  · omega

/-! ## Merging -/

/-- What the merge loop has reached: a block in place of the freed one that can be put into its list. -/
structure Merged (top : ℕ) (z : Zone) (B : Set (ℕ × ℕ)) (S : Set ℕ) (k : ℕ) (m : Zone × ℕ × ℕ) : Prop where
  core : BuddyCore top m.1 (insert (m.2.1, m.2.2) B) S
  fresh : (m.2.1, m.2.2) ∉ B
  order_le : m.2.2 ≤ top
  noBuddy : m.2.2 < top → (m.2.1 ^^^ 2 ^ m.2.2, m.2.2) ∉ freeBlocks m.1
  sum : freeSum top m.1 + 2 ^ m.2.2 = freeSum top z + 2 ^ k
  nrTop : m.1.nrFree top = z.nrFree top
  rest : SameRest z m.1

theorem mergeLoop_merged (n : ℕ) {p k : ℕ} (hn : k + n = top) (h : BuddyCore top z (insert (p, k) B) S)
    (hB : (p, k) ∉ B) (hwhole : Whole top S) : Merged top z B S k (mergeLoop n z p k) := by
  induction n generalizing z p k with
  | zero =>
    exact ⟨h, hB,
      show k ≤
      top by omega, fun hlt => absurd hlt (show ¬ k < top by omega), rfl, rfl, SameRest.refl z⟩
  | succ n ih =>
    have hself : (p, k) ∈ insert (p, k) B ∪ freeBlocks z := Or.inl (Set.mem_insert _ _)
    have haligned : 2 ^ k ∣ p := h.tiles.aligned _ hself
    have hk : k < top := by omega
    simp only [mergeLoop]
    split
    · rename_i ho
      have hS : p ^^^ 2 ^ k ∈ S := by
        apply hwhole p _ (buddy_div hk).symm
        exact h.supplied hself (start_mem_span (p, k))
      have hfree := free_of_pageOrder h hS ho
      have hbB : (p ^^^ 2 ^ k, k) ∉ B := fun hb => h.apart _ (Set.mem_insert_of_mem _ hb) hfree
      have htake := h.take hfree
      have hsum := freeSum_take h hfree
      -- the buddy is the upper or the lower half; either way the pair becomes one block
      have hjoin : BuddyCore top (takeBlock z (p ^^^ 2 ^ k) k) (insert (p &&& (p ^^^ 2 ^ k), k + 1) B) S ∧
          (p &&& (p ^^^ 2 ^ k), k + 1) ∉ B := by
        cases buddy_cases haligned with
        | inl hc =>
          obtain ⟨hdvd, hup, hand⟩ := hc
          rw [hand]
          rw [hup] at htake hbB ⊢
          rw [Set.insert_comm] at htake
          exact htake.join hB hbB hdvd hk
        | inr hc =>
          obtain ⟨hdvd, hdown, hand⟩ := hc
          rw [hand]
          have hpair : (p, k) = ((p ^^^ 2 ^ k) + 2 ^ k, k) := by rw [← hdown]
          have hB' := hB
          rw [hpair] at htake hB'
          exact htake.join hbB hB' hdvd hk
      have hrec := ih (by omega) hjoin.1 hjoin.2
      refine ⟨hrec.core, hrec.fresh, hrec.order_le, hrec.noBuddy, ?_, ?_,
        (sameRest_take z _ k).trans hrec.rest⟩
      · have h1 := hrec.sum
        rw [pow_succ] at h1
        omega
      · rw [hrec.nrTop]
        show Function.update z.nrFree k _ top = _
        rw [Function.update_of_ne (by omega)]
    · rename_i ho
      exact ⟨h, hB,
        show k ≤
        top by omega, fun _ hfree => ho (pageOrder_of_free h hfree), rfl, rfl, SameRest.refl z⟩

/-! ## Splitting -/

structure Expanded (top : ℕ) (z : Zone) (B : Set (ℕ × ℕ)) (S : Set ℕ) (p low high : ℕ) (z' : Zone) :
    Prop where
  core : BuddyCore top z' (insert (p, low) B) S
  fresh : (p, low) ∉ B
  sum : freeSum top z' + 2 ^ low = freeSum top z + 2 ^ high
  nrTop : z'.nrFree top = z.nrFree top
  rest : SameRest z z'

theorem expand_expanded (n : ℕ) {p low : ℕ} (h : BuddyCore top z (insert (p, low + n) B) S)
    (hB : (p, low + n) ∉ B) :
    Expanded top z B S p low (low + n) (expand n z p low) := by
  induction n generalizing z with
  | zero => exact ⟨h, hB, rfl, rfl, SameRest.refl z⟩
  | succ n ih =>
    obtain ⟨hsplit, hlow, hhigh⟩ := BuddyCore.split (k := low + n) h hB
    have htop : low + n + 1 ≤ top := h.alloc_le _ (Set.mem_insert _ _)
    have haligned : 2 ^ (low + n + 1) ∣ p := h.tiles.aligned _ (Or.inl (Set.mem_insert _ _))
    rw [Set.insert_comm] at hsplit
    -- the buddy of the upper half is the lower one, which is not free
    have hbuddy : (p + 2 ^ (low + n)) ^^^ 2 ^ (low + n) = p := add_pow_xor_pow haligned
    have hfresh : (p + 2 ^ (low + n), low + n) ∉ insert (p, low + n) B := by
      intro hmem
      cases hmem with
      | inl heq => exact hlow (Or.inl heq.symm)
      | inr hb => exact hhigh hb
    have hput : BuddyCore top (putTail z (p + 2 ^ (low + n)) (low + n)) (insert (p, low + n) B) S := by
      refine hsplit.put hfresh (List.perm_append_singleton _ _) fun _ hfree => ?_
      rw [hbuddy] at hfree
      exact hsplit.apart _ (Set.mem_insert_of_mem _ (Set.mem_insert _ _)) hfree
    have hrec := ih hput fun hb => hlow (Set.mem_insert_of_mem _ hb)
    refine ⟨hrec.core, hrec.fresh, ?_, ?_, (sameRest_put z _ _ _).trans hrec.rest⟩
    · have hsum := hrec.sum
      have hp2 : freeSum top (putTail z (p + 2 ^ (low + n)) (low + n)) = freeSum top z + 2 ^ (low + n) :=
        freeSum_put _ (by omega)
      show freeSum top (expand n (putTail z _ _) p low) + 2 ^ low = freeSum top z + 2 ^ (low + n + 1)
      rw [pow_succ]
      omega
    · show (expand n (putTail z _ _) p low).nrFree top = _
      rw [hrec.nrTop]
      show Function.update z.nrFree (low + n) _ top = _
      rw [Function.update_of_ne (by omega)]

end Skp.Mm
