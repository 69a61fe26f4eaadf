import Mathlib

/-! # Comparisons and stable merges

A comparison returns a number whose sign orders two values. A merge that prefers the first list
leaves elements that compare equal in their order, so a sort that is put together from such merges
of neighbouring pieces is stable. -/
namespace Skp.Foundations
set_option autoImplicit false

/-- A comparison that is a total preorder: `run x y ≤ 0` says that `x` may stand before `y`. -/
structure Comparison (α : Type*) where
  run : α → α → ℤ
  total : ∀ x y, run x y ≤ 0 ∨ run y x ≤ 0
  trans : ∀ x y z, run x y ≤ 0 → run y z ≤ 0 → run x z ≤ 0

variable {α : Type*} {cmp : Comparison α} {x y z : α} {l l' l'' xs ys : List α}

namespace Comparison
variable (cmp : Comparison α)

def le (x y : α) : Prop := cmp.run x y ≤ 0

instance : DecidableRel cmp.le := fun x y => inferInstanceAs (Decidable (cmp.run x y ≤ 0))

theorem le_refl (x : α) : cmp.le x x := or_self_iff.mp (cmp.total x x)

/-- Each is before the other. -/
def same (x y : α) : Bool := decide (cmp.le x y ∧ cmp.le y x)

def merge (xs ys : List α) : List α := List.merge xs ys fun x y => decide (cmp.le x y)

end Comparison

/-! ## Merges -/

theorem merge_nil_left (ys : List α) : cmp.merge [] ys = ys := List.nil_merge ys

theorem merge_nil_right (xs : List α) : cmp.merge xs [] = xs := List.merge_right xs

theorem merge_cons_le (h : cmp.le x y) : cmp.merge (x :: xs) (y :: ys) = x :: cmp.merge xs (y :: ys) := by
  apply List.cons_merge_cons_pos
  exact decide_eq_true h

theorem merge_cons_lt (h : ¬cmp.le x y) : cmp.merge (x :: xs) (y :: ys) = y :: cmp.merge (x :: xs) ys := by
  apply List.cons_merge_cons_neg
  simpa using h

theorem merge_perm (cmp : Comparison α) (xs ys : List α) : (cmp.merge xs ys).Perm (xs ++ ys) :=
  List.merge_perm_append _

theorem sorted_merge (hxs : xs.Pairwise cmp.le) (hys : ys.Pairwise cmp.le) :
    (cmp.merge xs ys).Pairwise cmp.le := by
  have htrans : ∀ a b c : α, decide (cmp.le a b) = true → decide (cmp.le b c) = true →
      decide (cmp.le a c) = true := by
    intro a b c hab hbc
    rw [decide_eq_true_eq] at hab hbc ⊢
    exact cmp.trans a b c hab hbc
  have htotal : ∀ a b : α, (decide (cmp.le a b) || decide (cmp.le b a)) = true := by
    intro a b
    rw [Bool.or_eq_true, decide_eq_true_eq, decide_eq_true_eq]
    exact cmp.total a b
  have hmerge :=
    List.pairwise_merge htrans htotal xs ys (hxs.imp fun h => decide_eq_true h)
      (hys.imp fun h => decide_eq_true h)
  exact hmerge.imp fun h => of_decide_eq_true h

/-- Elements that compare equal stay in order, those of the first list before those of the second. -/
theorem filter_merge (hxs : xs.Pairwise cmp.le) (ys : List α) (z : α) :
    (cmp.merge xs ys).filter (cmp.same z) = xs.filter (cmp.same z) ++ ys.filter (cmp.same z) := by
  induction xs generalizing ys with
  | nil =>
    rw [merge_nil_left]
    rfl
  | cons x xs ihx =>
    induction ys with
    | nil => rw [merge_nil_right, List.filter_nil, List.append_nil]
    | cons y ys ihy =>
      by_cases hle : cmp.le x y
      · rw [merge_cons_le hle, List.filter_cons, List.filter_cons, ihx hxs.of_cons]
        split_ifs
        · rfl
        · rfl
      · rw [merge_cons_lt hle, List.filter_cons, ihy]
        by_cases hsame : cmp.same z y = true
        · -- what is left of the first list is greater than `y`
          have hnone : (x :: xs).filter (cmp.same z) = [] := by
            rw [List.filter_eq_nil_iff]
            intro w hw hwz
            have hxw : cmp.le x w := by
              rcases List.mem_cons.mp hw with rfl | hw
              · exact cmp.le_refl _
              · exact (List.pairwise_cons.mp hxs).1 w hw
            have hwz' := of_decide_eq_true hwz
            have hyz' := of_decide_eq_true hsame
            exact hle (cmp.trans _ _ _ hxw (cmp.trans _ _ _ hwz'.2 hyz'.1))
          rw [if_pos hsame, hnone, List.nil_append, List.nil_append, List.filter_cons_of_pos hsame]
        · rw [if_neg hsame, List.filter_cons_of_neg hsame]

/-! ## The same elements, equal ones in the same order -/

structure SameOrder (cmp : Comparison α) (l l' : List α) : Prop where
  perm : l'.Perm l
  stable : ∀ z, l'.filter (cmp.same z) = l.filter (cmp.same z)

theorem SameOrder.refl (cmp : Comparison α) (l : List α) : SameOrder cmp l l :=
  ⟨List.Perm.refl l, fun _ => rfl⟩

theorem SameOrder.trans (h : SameOrder cmp l l') (h' : SameOrder cmp l' l'') : SameOrder cmp l l'' :=
  ⟨h'.perm.trans h.perm, fun z => (h'.stable z).trans (h.stable z)⟩

/-- A merge inside a list. -/
theorem sameOrder_merge (hxs : xs.Pairwise cmp.le) (l ys l' : List α) :
    SameOrder cmp (l ++ (xs ++ ys ++ l')) (l ++ (cmp.merge xs ys ++ l')) := by
  constructor
  · exact ((merge_perm cmp xs ys).append_right l').append_left l
  · intro z
    simp only [List.filter_append, filter_merge hxs]

/-! ## Lists at levels -/

/-- The lists at the levels below `n`, the highest level first. -/
def stacked (f : ℕ → List α) : ℕ → List α
  | 0 => []
  | n + 1 => f n ++ stacked f n

variable {f : ℕ → List α} {n i lev : ℕ}

theorem stacked_nil (h : ∀ i, i < n → f i = []) : stacked f n = [] := by
  induction n with
  | zero => rfl
  | succ n ih => rw [stacked, h n n.lt_succ_self, ih fun i hi => h i (Nat.lt_succ_of_lt hi), List.append_nil]

theorem mem_stacked (hi : i < n) (hx : x ∈ f i) : x ∈ stacked f n := by
  induction n with
  | zero => exact absurd hi i.not_lt_zero
  | succ n ih =>
    rcases Nat.lt_succ_iff_lt_or_eq.mp hi with hlt | rfl
    · exact List.mem_append_right _ (ih hlt)
    · exact List.mem_append_left _ hx

/-- The lowest list that is not empty comes last. -/
theorem stacked_split (hbelow : ∀ i, i < lev → f i = []) (hlev : lev < n) :
    stacked f n = stacked (Function.update f lev []) n ++ f lev := by
  induction n with
  | zero => exact absurd hlev lev.not_lt_zero
  | succ n ih =>
    rcases Nat.lt_succ_iff_lt_or_eq.mp hlev with hlt | rfl
    · rw [stacked, stacked, Function.update_of_ne hlt.ne', ih hlt, List.append_assoc]
    · have hbelow' : ∀ i, i < lev → Function.update f lev [] i = [] := by
        intro i hi
        rw [Function.update_of_ne hi.ne]
        exact hbelow i hi
      rw [stacked, stacked, Function.update_self, stacked_nil hbelow, stacked_nil hbelow', List.append_nil]
      rfl

end Skp.Foundations
