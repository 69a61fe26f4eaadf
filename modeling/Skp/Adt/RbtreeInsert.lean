import Skp.Adt.RbtreeShape

/-! # Inserting a node

The loop of `__rb_insert` has a red tree in a hole for a black one: the rules hold but for the
colour of the node above. Each round takes the tree with its parent and grandparent, and either ends
by a rotation or goes on two frames higher. -/
namespace Skp.Adt
set_option autoImplicit false
open Skp.Foundations Skp.Foundations.RbTree

variable {N : Type*} [DecidableEq N]
variable {s : RbRoot N} {q pp : Option N} {fs : List (Frame N)} {ps : List (Piece N)} {d : Side}
variable {a b u t : RbTree N} {x g p : N}

/-- Case 3 on the pieces: what the grandparent has on the parent's side and who the parent's parent is does
not matter, both are overwritten. -/
theorem rbInsertUp_focus (h : Holds s (some g) fs
      [.cell g (.ofSide (above fs) .black d q u.root), .cell p (.ofSide pp .red d a.root b.root),
        .tree (some g) u, .tree (some p) a, .tree (some p) b]) (hb : b.paint .black = b) :
    Focus (rbInsertUp s d p g b.root) fs (sided d .black a p (sided d .red b g u)) := by
  have h1 := h.setChild 0 rfl d b.root
  have h2 := h1.setChild 1 rfl d.other (some g)
  have h3 := h2.recolor 4 rfl (some g) .black
  have h4 := h3.rotate 0 1 (by decide) rfl rfl (by simp) .red
  simp only [List.set_cons_zero, List.set_cons_succ, ofSide_setChild, ofSide_setChild_other, ofSide_color,
    ofSide_setParentColor, hb] at h4
  apply h4.focus
  · rw [root_sided]
  · rw [shape_sided, shape_sided, root_sided]
    exact ⟨h4.cell 1 rfl, h4.tree 3 rfl, h4.cell 0 rfl, h4.tree 4 rfl, h4.tree 2 rfl⟩
  · intro z
    cases d with
    | left =>
      simp [Piece.ids, sided, toList, List.count_append, List.count_cons]
      omega
    | right =>
      simp [Piece.ids, sided, toList, List.count_append, List.count_cons]
      omega

theorem rbInsertRotate_outer (h : Focus s fs (sided d .black (sided d .red t p b) g u))
    (hb : b.paint .black = b)
    (hx : t.root = some x) :
    Focus (rbInsertRotate s d x p g) fs (sided d .black t p (sided d .red b g u)) := by
  have h1 := (Holds.split h 0 rfl).split 1 rfl
  simp only [List.set_cons_zero, List.set_cons_succ, root_sided, List.cons_append, List.nil_append] at h1
  have hp : s.heap p = RbtNode.ofSide (some g) .red d t.root b.root := h1.cell 1 rfl
  have hne : b.root ≠ some x := by
    intro hroot
    exact h1.disjoint (i := 3) (j := 4) rfl rfl (by decide) (mem_of_root hx) (mem_of_root hroot) rfl
  rw [rbInsertRotate, hp, ofSide_child_other, if_neg hne]
  exact rbInsertUp_focus h1 hb

theorem rbInsertRotate_inner (h : Focus s fs (sided d .black (sided d .red b p (sided d .red a x t)) g u))
    (ha : a.paint .black = a) (ht : t.paint .black = t) :
    Focus (rbInsertRotate s d x p g) fs (sided d .black (sided d .red b p a) x (sided d .red t g u)) := by
  have h1 := ((Holds.split h 0 rfl).split 1 rfl).split 4 rfl
  simp only [List.set_cons_zero, List.set_cons_succ, root_sided, List.cons_append, List.nil_append] at h1
  have hp : s.heap p = RbtNode.ofSide (some g) .red d b.root (some x) := h1.cell 1 rfl
  have hx : s.heap x = RbtNode.ofSide (some p) .red d a.root t.root := h1.cell 4 rfl
  have h2 := h1.setChild 1 rfl d.other a.root
  have h3 := h2.setChild 4 rfl d (some p)
  have h4 := h3.recolor 5 rfl (some p) .black
  have h5 := h4.setParentColor 1 rfl (some x) .red
  simp only [List.set_cons_zero, List.set_cons_succ, ofSide_setChild, ofSide_setChild_other,
    ofSide_setParentColor,
    ha] at h5
  -- the parent's tree is whole again, below the node
  have h6 := h5.regroup [.cell g (.ofSide (above fs) .black d (some p) u.root),
      .cell x (.ofSide (some p) .red d (sided d .red b p a).root t.root), .tree (some g) u,
      .tree (some x) (sided d .red b p a), .tree (some x) t] ?_ ?_
  · rw [rbInsertRotate, hp, ofSide_child_other, if_pos rfl, hx, ofSide_child]
    have hchild := h5.cell 4 rfl
    simp only [hchild, ofSide_child_other]
    exact rbInsertUp_focus h6 ht
  · simp only [List.mem_cons, List.not_mem_nil, or_false, forall_eq_or_imp, forall_eq]
    refine ⟨h5.at 0 rfl, ?_, h5.at 2 rfl, ?_, h5.at 6 rfl⟩
    · rw [root_sided]
      exact h5.at 4 rfl
    · exact shape_sided.mpr ⟨h5.cell 1 rfl, h5.tree 3 rfl, h5.tree 5 rfl⟩
  · intro z
    cases d with
    | left =>
      simp [Piece.ids, sided, toList, List.count_append, List.count_cons]
      omega
    | right =>
      simp [Piece.ids, sided, toList, List.count_append, List.count_cons]
      omega

/-- Case 1: the colours of three nodes, and nothing else. -/
theorem rbInsertFlip_focus {d₁ : Side} {y : N} (h : Focus s fs (sided d .black (sided d₁ .red t p b) g u))
    (hu : u.root = some y) :
    Focus (rbInsertFlip s y p g).1 fs (sided d .red (sided d₁ .black t p b) g (u.paint .black)) ∧
      (rbInsertFlip s y p g).2 = above fs := by
  have h1 := (Holds.split h 0 rfl).split 1 rfl
  simp only [List.set_cons_zero, List.set_cons_succ, root_sided, List.cons_append, List.nil_append] at h1
  have h2 := h1.repaint 2 rfl hu (some g) .black
  have h3 := h2.setParentColor 1 rfl (some g) .black
  have hup : ((rbSetParentColor (rbSetParentColor s y (some g) .black) p (some g) .black).heap
      g).parent = above fs := by
    rw [h3.cell 0 rfl, ofSide_parent]
  have h4 := h3.setParentColor 0 rfl (above fs) .red
  simp only [List.set_cons_zero, List.set_cons_succ, ofSide_setParentColor] at h4
  refine ⟨?_, hup⟩
  rw [rbInsertFlip]
  simp only [hup]
  apply h4.focus
  · rw [root_sided]
  · rw [shape_sided, shape_sided, root_sided, root_paint]
    exact ⟨h4.cell 0 rfl, ⟨h4.cell 1 rfl, h4.tree 3 rfl, h4.tree 4 rfl⟩, h4.tree 2 rfl⟩
  · intro z
    cases d <;> cases d₁ <;>
    · simp [Piece.ids, sided, toList, List.count_append, List.count_cons]
      omega

@[simp] theorem rbInsertUp_leftmost (s : RbRoot N) (d : Side) (p g : N) (tmp : Option N) :
    (rbInsertUp s d p g tmp).leftmost = s.leftmost := by
  rw [rbInsertUp, rbRotateSetParents_leftmost]
  exact ifNode_leftmost _ tmp _ fun s t => rbSetParentColor_leftmost s t (some g) .black

@[simp] theorem rbInsertRotate_leftmost (s : RbRoot N) (d : Side) (x p g : N) :
    (rbInsertRotate s d x p g).leftmost = s.leftmost := by
  rw [rbInsertRotate]
  split
  · simp only [rbInsertUp_leftmost, rbSetParentColor_leftmost]
    exact ifNode_leftmost _ _ _ fun s t => rbSetParentColor_leftmost s t (some p) .black
  · exact rbInsertUp_leftmost _ _ _ _ _

theorem Focus.side_eq {d : Side} {c : Color} (h : Focus s (⟨d, c, g, u⟩ :: fs) t) (hp : t.root = some p) :
    (if (s.heap g).right ≠ some p then Side.left else Side.right) = d := by
  have hg : s.heap g = RbtNode.ofSide (above fs) c d t.root u.root := h.hole.1
  cases d with
  | left =>
    have hne : u.root ≠ some p := by
      intro hroot
      refine h.notMem_frames (i := 0) rfl (mem_of_root hp) ?_
      exact List.mem_append_left _ (List.mem_cons_of_mem g (mem_of_root hroot))
    rw [hg, if_pos (by simpa [RbtNode.ofSide] using hne)]
  | right => rw [hg, if_neg (by simp [RbtNode.ofSide, hp])]

/-- The round with a black uncle: a rotation, on whichever side of the parent the node is. -/
theorem rbInsertRotate_ok {d₁ : Side} {n : ℕ} (h : Focus s fs (sided d .black (sided d₁ .red t p b) g u))
    (ht : t.Balanced .red n) (hb : b.Balanced .black n) (hu : u.Balanced .black n) (hx : t.root = some x) :
    ∃ t', Focus (rbInsertRotate s d x p g) fs t' ∧ t'.Balanced .black (n + 1) ∧
      t'.toList = (sided d .black (sided d₁ .red t p b) g u).toList := by
  by_cases hd : d₁ = d
  · subst hd
    refine ⟨_, rbInsertRotate_outer h hb.paint_of_black hx, ?_, ?_⟩
    · exact balanced_sided_black.mpr ⟨rfl, n, .red, .red, rfl, ht, balanced_sided_red.mpr ⟨rfl, hb, hu⟩⟩
    · cases d₁ <;> simp [sided, toList]
  · have hother : d₁ = d.other := by
      cases d <;> cases d₁ <;> first | rfl | exact absurd rfl hd
    obtain ⟨near, y, far, rfl, hnear, hfar⟩ := ht.exists_sided_of_red d
    obtain rfl : y = x := Option.some.inj ((root_sided _ _ _ _ _).symm.trans hx)
    rw [hother, sided_other] at h ⊢
    refine ⟨_, rbInsertRotate_inner h hnear.paint_of_black hfar.paint_of_black, ?_, ?_⟩
    · exact balanced_sided_black.mpr ⟨rfl, n, .red, .red, rfl, balanced_sided_red.mpr ⟨rfl, hb, hnear⟩,
        balanced_sided_red.mpr ⟨rfl, hfar, hu⟩⟩
    · cases d <;> simp [sided, toList]

/-- A red node in a hole for a black tree: the loop gives a tree by the rules with the same sequence. -/
theorem rbInsertLoop_ok (fuel : ℕ) : ∀ (fs : List (Frame N)) (s : RbRoot N) (t : RbTree N) (x : N) (n : ℕ),
    fs.length < fuel → Focus s fs t → t.Balanced .red n → Fits fs .black n → t.root = some x →
      ∃ s' t', rbInsertLoop fuel s x (above fs) = some s' ∧ Focus s' [] t' ∧ t'.toList = (plug fs t).toList ∧
        (∃ m, t'.Balanced .black m) ∧ s'.leftmost = s.leftmost := by
  induction fuel with
  | zero => exact fun fs _ _ _ _ hlt => absurd hlt (Nat.not_lt_zero _)
  | succ fuel ih =>
    intro fs s t x n hlt hfocus ht hfits hx
    cases hfits with
    | root n =>
      refine ⟨_, t.paint .black, rfl, ?_, toList_paint _ t, ⟨_, ht.paint_black⟩, rfl⟩
      have h1 := Holds.repaint hfocus 0 rfl hx none .black
      exact h1.focus (root_paint _ t).symm (h1.tree 0 rfl) fun z => by simp [Piece.ids]
    | @black d p sib fs n c c' hsib hfs =>
      have hp : s.heap p = RbtNode.ofSide (above fs) .black d t.root sib.root := hfocus.hole.1
      refine ⟨s, plug (⟨d, .black, p, sib⟩ :: fs) t, ?_, focus_plug.mp hfocus, rfl, ?_, rfl⟩
      · simp [rbInsertLoop, above, hp]
      · exact (Fits.black hsib hfs).plug ht
    | @red d₁ p sib fs n hsib hfs =>
      -- a red node has a black one above it
      cases hfs with
      | @black d g u fs n c cu hu hfs =>
        have hp : s.heap p = RbtNode.ofSide (some g) .red d₁ t.root sib.root := hfocus.hole.1
        have hg : s.heap g = RbtNode.ofSide (above fs) .black d (some p) u.root := hfocus.hole.2.2.1
        have hparent := focus_cons.mp hfocus
        have hgparent := focus_cons.mp hparent
        have hside := hparent.side_eq (root_sided d₁ .red t p sib)
        have hnone : u.root = none →
            rbInsertLoop (fuel + 1) s x (above (⟨d₁, .red, p, sib⟩ :: ⟨d, .black, g, u⟩ :: fs)) =
            some (rbInsertRotate s d x p g) := by
          intro hu
          simp only [rbInsertLoop, above, hp, ofSide_color, ofSide_parent, hside]
          rw [hg, ofSide_child_other, hu]
          rfl
        have hsome : ∀ y, u.root = some y →
            rbInsertLoop (fuel + 1) s x (above (⟨d₁, .red, p, sib⟩ :: ⟨d, .black, g, u⟩ :: fs)) =
              if (s.heap y).color = .red then rbInsertLoop fuel (rbInsertFlip s y p g).1 g
                (rbInsertFlip s y p g).2
              else some (rbInsertRotate s d x p g) := by
          intro y hu
          simp only [rbInsertLoop, above, hp, ofSide_color, ofSide_parent, hside]
          rw [hg, ofSide_child_other, hu]
          rfl
        -- what a rotation leaves
        have hrotate : u.Balanced .black n → ∃ s' t', some (rbInsertRotate s d x p g) = some s' ∧
            Focus s' [] t' ∧
            t'.toList = (plug (⟨d₁, .red, p, sib⟩ :: ⟨d, .black, g, u⟩ :: fs) t).toList ∧
            (∃ m, t'.Balanced .black m) ∧ s'.leftmost = s.leftmost := by
          intro hu
          obtain ⟨t', hfocus', ht', hlist⟩ := rbInsertRotate_ok hgparent ht hsib hu hx
          refine ⟨_, plug fs t', rfl, focus_plug.mp hfocus', ?_, hfs.plug ht',
            rbInsertRotate_leftmost _ _ _ _ _⟩
          rw [toList_plug, hlist, ← toList_plug]
          rfl
        cases hu with
        | nil =>
          rw [hnone rfl]
          exact hrotate .nil
        | @black l r y m c₁ c₂ hl hr =>
          have hy : (s.heap y).color = .black := by rw [hfocus.hole.2.2.2.1.1]
          rw [hsome y rfl, if_neg (by rw [hy]; decide)]
          exact hrotate (.black hl hr)
        | @red l r y _ hl hr =>
          have hy : (s.heap y).color = .red := by rw [hfocus.hole.2.2.2.1.1]
          obtain ⟨hflip, hup⟩ := rbInsertFlip_focus (y := y) hgparent rfl
          rw [hsome y rfl, if_pos hy, hup]
          have hred : (sided d .red (sided d₁ .black t p sib) g (node .black l y r)).Balanced .red (n + 1) :=
            balanced_sided_red.mpr ⟨rfl, balanced_sided_black.mpr ⟨rfl, n, _, _, rfl, ht, hsib⟩, .black hl hr⟩
          have hlt' : fs.length < fuel := by
            simp only [List.length_cons] at hlt
            omega
          obtain ⟨s', t', hloop, hfocus', hlist, hbal, hleft⟩ :=
            ih fs _ _ g _ hlt' hflip hred hfs (root_sided _ _ _ _ _)
          refine ⟨s', t', hloop, hfocus', ?_, hbal, hleft⟩
          rw [hlist, toList_plug, plug, plug, toList_plug]
          cases d <;> cases d₁ <;> simp [sided, toList, paint]

end Skp.Adt
