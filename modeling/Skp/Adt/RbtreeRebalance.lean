import Skp.Adt.RbtreeInsert

/-! # Rebalancing after a removal

The loop of `__rb_erase_color` has a tree that is one black node short of what its hole asks for. A
round turns a red sibling into a black one, and then ends by a rotation or a change of colour, or
goes on one frame higher. -/
namespace Skp.Adt
set_option autoImplicit false
open Skp.Foundations Skp.Foundations.RbTree

variable {N : Type*} [DecidableEq N]
variable {s : RbRoot N} {q pp : Option N} {fs : List (Frame N)} {d : Side} {c : Color} {n : ℕ}
variable {a t z : RbTree N} {p w y : N}

/-- Case 4 on the pieces: what the parent has on the sibling's side, and the sibling's parent and colour, are
overwritten. -/
theorem rbEraseUp_focus {cy : Color} {pa pz : Option N} (h : Holds s (some p) fs
      [.cell p (.ofSide (above fs) c d t.root q), .tree (some p) t, .cell y (.ofSide pp cy d a.root z.root),
        .tree pa a, .tree pz z]) (hz : z.root = some w) :
    Focus (rbEraseUp s d p y w) fs (sided d c (sided d .black t p a) y (z.paint .black)) := by
  have hy : (s.heap y).child d = a.root := by rw [h.cell 2 rfl, ofSide_child]
  have h1 := h.setChild 0 rfl d.other a.root
  have h2 := h1.setChild 2 rfl d (some p)
  have h3 := h2.repaint 4 rfl hz (some y) .black
  have h4 := h3.reparent 3 rfl (some p)
  have h5 := h4.rotate 0 2 (by decide) rfl rfl (by simp) .black
  simp only [List.set_cons_zero, List.set_cons_succ, ofSide_setChild, ofSide_setChild_other, ofSide_color,
    ofSide_setParentColor] at h5
  rw [rbEraseUp, hy]
  apply h5.focus
  · rw [root_sided]
  · rw [shape_sided, shape_sided, root_sided, root_paint]
    exact ⟨h5.cell 2 rfl, ⟨h5.cell 0 rfl, h5.tree 1 rfl, h5.tree 3 rfl⟩, h5.tree 4 rfl⟩
  · intro x
    cases d with
    | left =>
      simp [Piece.ids, sided, toList, List.count_append, List.count_cons]
      omega
    | right =>
      simp [Piece.ids, sided, toList, List.count_append, List.count_cons]
      omega

/-- Case 1: a red sibling goes up, and its near child is the sibling now. -/
theorem rbEraseRed_focus (h : Focus s fs (sided d c t p (sided d .red a y z))) (ha : a.root = some w) :
    ∃ s', rbEraseRed s d p y = some (s', w) ∧
      Focus s' fs (sided d c (sided d .red t p (a.paint .black)) y z) ∧
      s'.leftmost = s.leftmost := by
  have h1 := (Holds.split h 0 rfl).split 2 rfl
  simp only [List.set_cons_zero, List.set_cons_succ, root_sided, List.cons_append, List.nil_append] at h1
  have hy : (s.heap y).child d = some w := by rw [h1.cell 2 rfl, ofSide_child, ha]
  have h2 := h1.setChild 0 rfl d.other (some w)
  have h3 := h2.setChild 2 rfl d (some p)
  have h4 := h3.repaint 3 rfl ha (some p) .black
  have h5 := h4.rotate 0 2 (by decide) rfl rfl (by simp) .red
  simp only [List.set_cons_zero, List.set_cons_succ, ofSide_setChild, ofSide_setChild_other, ofSide_color,
    ofSide_setParentColor] at h5
  refine ⟨rbRotateSetParents (rbSetParentColor
    (rbSetChild (rbSetChild s p d.other (some w)) y d (some p)) w (some p)
    .black) p y .red, ?_, ?_, rbRotateSetParents_leftmost _ _ _ _⟩
  · rw [rbEraseRed, hy]
    rfl
  · apply h5.focus
    · rw [root_sided]
    · rw [shape_sided, shape_sided, root_sided, root_paint, ha]
      exact ⟨h5.cell 2 rfl, ⟨h5.cell 0 rfl, h5.tree 1 rfl, h5.tree 3 rfl⟩, h5.tree 4 rfl⟩
    · intro x
      cases d with
      | left =>
        simp [Piece.ids, sided, toList, List.count_append, List.count_cons]
        omega
      | right =>
        simp [Piece.ids, sided, toList, List.count_append, List.count_cons]
        omega

/-- Case 2: the sibling turns red. -/
theorem rbEraseFlip_focus (h : Focus s fs (sided d c t p (sided d .black a y z))) :
    Focus (rbSetParentColor s y (some p) .red) fs (sided d c t p (sided d .red a y z)) := by
  have h1 := (Holds.split h 0 rfl).split 2 rfl
  simp only [List.set_cons_zero, List.set_cons_succ, root_sided, List.cons_append, List.nil_append] at h1
  have h2 := h1.setParentColor 2 rfl (some p) .red
  simp only [List.set_cons_zero, List.set_cons_succ, ofSide_setParentColor] at h2
  apply h2.focus
  · rw [root_sided]
  · rw [shape_sided, shape_sided, root_sided]
    exact ⟨h2.cell 0 rfl, h2.tree 1 rfl, h2.cell 2 rfl, h2.tree 3 rfl, h2.tree 4 rfl⟩
  · intro x
    cases d with
    | left =>
      simp [Piece.ids, sided, toList, List.count_append, List.count_cons]
      omega
    | right =>
      simp [Piece.ids, sided, toList, List.count_append, List.count_cons]
      omega

theorem rbSetBlack_focus (h : Focus s fs (sided d c t p z)) :
    Focus (rbSetBlack s p) fs (sided d .black t p z) := by
  have h1 := Holds.split h 0 rfl
  simp only [List.set_cons_zero, root_sided, List.cons_append, List.nil_append] at h1
  have h2 := h1.setBlack 0 rfl
  simp only [List.set_cons_zero, ofSide_setColor] at h2
  apply h2.focus
  · rw [root_sided]
  · rw [shape_sided]
    exact ⟨h2.cell 0 rfl, h2.tree 1 rfl, h2.tree 2 rfl⟩
  · intro x
    cases d with
    | left =>
      simp [Piece.ids, sided, toList, List.count_append, List.count_cons]
      omega
    | right =>
      simp [Piece.ids, sided, toList, List.count_append, List.count_cons]
      omega

omit [DecidableEq N] in
theorem isRed_root {cz : Color} (h : Shape s.heap pp z) (hz : z.Balanced cz n) :
    isRed s z.root = decide (cz = .red) := by
  cases hz with
  | nil => rfl
  | red hl hr => simp [isRed, root, h.1]
  | black hl hr => simp [isRed, root, h.1]

/-- What a round with a black sibling ends with: a tree by the rules, or a shorter tree one frame higher. -/
inductive RoundOk (s : RbRoot N) (xs : List N) (c : Color) (p : N) (fs : List (Frame N)) (n : ℕ) :
    EraseNext N → Prop where
  | done {s' : RbRoot N} (t' : RbTree N) (hfocus : Focus s' [] t') (hlist : t'.toList = xs)
      (hbal : ∃ m, t'.Balanced .black m) (hleft : s'.leftmost = s.leftmost) : RoundOk s xs c p fs n (.done s')
  | again {s' : RbRoot N} {up : N} (t' : RbTree N) (hc : c = .black) (hfocus : Focus s' fs t')
      (hlist : (plug fs t').toList = xs)
      (hbal : t'.Balanced .black (n + 1)) (hfits : Fits fs .black (n + 2)) (hroot : t'.root = some p)
      (hup : above fs = some up) (hleft : s'.leftmost = s.leftmost) : RoundOk s xs c p fs n (.again s' p up)

@[simp] theorem rbEraseUp_leftmost (s : RbRoot N) (d : Side) (p y w : N) :
    (rbEraseUp s d p y w).leftmost = s.leftmost := by
  rw [rbEraseUp, rbRotateSetParents_leftmost]
  exact ifNode_leftmost _ _ _ fun s t => rbSetParent_leftmost s t (some p)

@[simp] theorem rbEraseInner_leftmost (s : RbRoot N) (d : Side) (p y w : N) :
    (rbEraseInner s d p y w).leftmost = s.leftmost := by
  rw [rbEraseInner, rbEraseUp_leftmost]
  exact ifNode_leftmost _ _ _ fun s t => rbSetParentColor_leftmost s t (some y) .black

/-- Case 3 and then 4: the near child of the sibling goes up. -/
theorem rbEraseInner_focus {b₁ b₂ : RbTree N}
    (h : Focus s fs (sided d c t p (sided d .black (sided d .red b₁ w b₂) y z)))
    (hb : b₂.paint .black = b₂) :
    Focus (rbEraseInner s d p y w) fs (sided d c (sided d .black t p b₁) w (sided d .black b₂ y z)) := by
  have h1 := ((Holds.split h 0 rfl).split 2 rfl).split 3 rfl
  simp only [List.set_cons_zero, List.set_cons_succ, root_sided, List.cons_append, List.nil_append] at h1
  have hw : (s.heap w).child d.other = b₂.root := by rw [h1.cell 3 rfl, ofSide_child_other]
  have h2 := h1.setChild 2 rfl d b₂.root
  have h3 := h2.setChild 3 rfl d.other (some y)
  have h4 := h3.setChild 0 rfl d.other (some w)
  have h5 := h4.recolor 6 rfl (some y) .black
  simp only [List.set_cons_zero, List.set_cons_succ, ofSide_setChild, ofSide_setChild_other, hb] at h5
  -- the old sibling's tree is whole, on the far side of the new one
  have h6 := h5.regroup [.cell p (.ofSide (above fs) c d t.root (some w)),
      .tree (some p) t, .cell w (.ofSide (some y) .red d b₁.root (sided d .black b₂ y z).root),
      .tree (some w) b₁,
      .tree (some p) (sided d .black b₂ y z)] ?_ ?_
  · have hup := rbEraseUp_focus h6 (root_sided d .black b₂ y z)
    rw [paint_sided] at hup
    rw [rbEraseInner, hw]
    exact hup
  · simp only [List.mem_cons, List.not_mem_nil, or_false, forall_eq_or_imp, forall_eq]
    refine ⟨h5.at 0 rfl, h5.at 1 rfl, ?_, h5.at 5 rfl, ?_⟩
    · rw [root_sided]
      exact h5.at 3 rfl
    · exact shape_sided.mpr ⟨h5.cell 2 rfl, h5.tree 6 rfl, h5.tree 4 rfl⟩
  · intro x
    cases d with
    | left =>
      simp [Piece.ids, sided, toList, List.count_append, List.count_cons]
      omega
    | right =>
      simp [Piece.ids, sided, toList, List.count_append, List.count_cons]
      omega

omit [DecidableEq N] in
theorem balanced_sided {d : Side} {c : Color} {l r : RbTree N} {x : N} {k : ℕ} (hl : l.Balanced .black k)
    (hr : r.Balanced .black k) : (sided d c l x r).Balanced c (if c = .black then k + 1 else k) := by
  cases c with
  | red => exact balanced_sided_red.mpr ⟨rfl, hl, hr⟩
  | black => exact balanced_sided_black.mpr ⟨rfl, k, .black, .black, rfl, hl, hr⟩

theorem rbEraseBlack_ok {ca cz : Color} (h : Focus s fs (sided d c t p (sided d .black a y z)))
    (ht : t.Balanced .black n)
    (ha : a.Balanced ca n) (hz : z.Balanced cz n) (hfs : Fits fs c (if c = .black then n + 2 else n + 1)) :
    ∃ next, rbEraseBlack s d p y = some next ∧
      RoundOk s (plug fs (sided d c t p (sided d .black a y z))).toList c p fs n next := by
  have h1 := (Holds.split h 0 rfl).split 2 rfl
  simp only [List.set_cons_zero, List.set_cons_succ, root_sided, List.cons_append, List.nil_append] at h1
  have hy : s.heap y = RbtNode.ofSide (some p) .black d a.root z.root := h1.cell 2 rfl
  have hredz : isRed s z.root = decide (cz = .red) := isRed_root (h1.tree 4 rfl) hz
  have hreda : isRed s a.root = decide (ca = .red) := isRed_root (h1.tree 3 rfl) ha
  -- a rotation that ends the loop
  have hdone : ∀ s' t', Focus s' fs t' → t'.Balanced c (if c = .black then n + 2 else n + 1) →
      t'.toList = (sided d c t p (sided d .black a y z)).toList → s'.leftmost = s.leftmost →
      RoundOk s (plug fs (sided d c t p (sided d .black a y z))).toList c p fs n (.done s') := by
    intro s' t' hfocus hbal hlist hleft
    refine .done (plug fs t') (focus_plug.mp hfocus) ?_ (hfs.plug hbal) hleft
    rw [toList_plug, toList_plug, hlist]
  rw [rbEraseBlack, hy, ofSide_child, ofSide_child_other]
  cases cz with
  | red =>
    -- case 4
    obtain ⟨l, w, r, rfl, hl, hr⟩ := hz.exists_sided_of_red d
    refine ⟨.done (rbEraseUp s d p y w), ?_, ?_⟩
    · rw [if_neg (by rw [hredz]; decide), root_sided]
      rfl
    · have hrot := rbEraseUp_focus h1 (root_sided d .red l w r)
      refine hdone _ _ hrot ?_ ?_ (rbEraseUp_leftmost _ _ _ _ _)
      · exact balanced_sided (balanced_sided_black.mpr ⟨rfl, n, _, _, rfl, ht, ha⟩) hz.paint_black
      · cases d <;> simp [sided, toList, paint]
  | black =>
    rw [if_pos (by rw [hredz]; decide)]
    cases ca with
    | red =>
      -- case 3
      obtain ⟨l, w, r, rfl, hl, hr⟩ := ha.exists_sided_of_red d
      refine ⟨.done (rbEraseInner s d p y w), ?_, ?_⟩
      · rw [if_neg (by rw [hreda]; decide), root_sided]
        rfl
      · refine hdone _ _ (rbEraseInner_focus h hr.paint_of_black) ?_ ?_ (rbEraseInner_leftmost _ _ _ _ _)
        · exact balanced_sided (balanced_sided_black.mpr ⟨rfl, n, _, _, rfl, ht, hl⟩)
            (balanced_sided_black.mpr ⟨rfl, n, _, _, rfl, hr, hz⟩)
        · cases d <;> simp [sided, toList]
    | black =>
      -- case 2
      have hflip := rbEraseFlip_focus h
      have hred : (sided d .red a y z).Balanced .red n := balanced_sided_red.mpr ⟨rfl, ha, hz⟩
      have hlist : (plug fs (sided d c t p (sided d .red a y z))).toList =
          (plug fs (sided d c t p (sided d .black a y z))).toList := by
        rw [toList_plug, toList_plug]
        cases d <;> simp [sided, toList]
      have hp : (rbSetParentColor s y (some p) .red).heap p = RbtNode.ofSide (above fs) c d t.root
          (some y) := by
        have hcell := (Holds.split hflip 0 rfl).cell 0 rfl
        rw [root_sided] at hcell
        exact hcell
      rw [if_pos (by rw [hreda]; decide)]
      simp only [hp, ofSide_color, ofSide_parent]
      cases c with
      | red =>
        refine ⟨.done (rbSetBlack (rbSetParentColor s y (some p) .red) p), rfl, ?_⟩
        have hblack := rbSetBlack_focus hflip
        refine .done _ (focus_plug.mp hblack) ?_ ?_ rfl
        · rw [← hlist, toList_plug, toList_plug]
          cases d <;> simp [sided, toList]
        · exact hfs.of_red.plug (balanced_sided_black.mpr ⟨rfl, n, _, _, rfl, ht, hred⟩)
      | black =>
        have hbal : (sided d .black t p (sided d .red a y z)).Balanced .black (n + 1) :=
          balanced_sided_black.mpr ⟨rfl, n, _, _, rfl, ht, hred⟩
        cases hup : above fs with
        | some up =>
          exact ⟨_, rfl, .again _ rfl hflip hlist hbal hfs (root_sided _ _ _ _ _) hup rfl⟩
        | none =>
          cases fs with
          | nil => exact ⟨_, rfl, .done _ hflip hlist ⟨_, hbal⟩ rfl⟩
          | cons f fs => cases hup

theorem Focus.short_side {z : RbTree N} (h : Focus s (⟨d, c, p, z⟩ :: fs) t) (hz : z.root = some y) :
    (if t.root ≠ (s.heap p).right then Side.left else Side.right) = d := by
  have hp : s.heap p = RbtNode.ofSide (above fs) c d t.root z.root := h.hole.1
  cases d with
  | left =>
    have hne : t.root ≠ some y := by
      intro hroot
      refine h.notMem_frames (i := 0) rfl (mem_of_root hroot) ?_
      exact List.mem_append_left _ (List.mem_cons_of_mem p (mem_of_root hz))
    rw [hp, if_pos (by simpa [RbtNode.ofSide, hz] using hne)]
  | right => rw [hp, if_neg (by simp [RbtNode.ofSide])]

theorem rbEraseRound_ok {sib : RbTree N} (h : Focus s (⟨d, c, p, sib⟩ :: fs) t) (ht : t.Balanced .black n)
    (hfits : Fits (⟨d, c, p, sib⟩ :: fs) .black (n + 1)) :
    ∃ next, rbEraseRound s t.root p = some next ∧
      RoundOk s (plug (⟨d, c, p, sib⟩ :: fs) t).toList c p fs n next := by
  have hp : s.heap p = RbtNode.ofSide (above fs) c d t.root sib.root := h.hole.1
  have hfocus := focus_cons.mp h
  -- once the sibling is known to be a node, the side is
  have hround : ∀ y, sib.root = some y → rbEraseRound s t.root p =
      if (s.heap y).color = .red then (rbEraseRed s d p y).bind fun k => rbEraseBlack k.1 d p k.2
      else rbEraseBlack s d p y := by
    intro y hy
    rw [rbEraseRound, h.short_side hy, hp, ofSide_child_other, hy]
    rfl
  have hshape : Shape s.heap (some p) sib := h.hole.2.1
  have hblack : sib.Balanced .black (n + 1) → Fits fs c (if c = .black then n + 2 else n + 1) →
      ∃ next, rbEraseRound s t.root p = some next ∧
        RoundOk s (plug (⟨d, c, p, sib⟩ :: fs) t).toList c p fs n next := by
    intro hsib hfs
    obtain ⟨a, y, z, ca, cz, rfl, ha, hz⟩ := hsib.exists_sided_of_succ d
    have hy : (s.heap y).color = .black := by rw [(shape_sided.mp hshape).1, ofSide_color]
    rw [hround y (root_sided _ _ _ _ _), hy, if_neg (by decide)]
    exact rbEraseBlack_ok hfocus ht ha hz hfs
  cases hfits with
  | red hsib hfs => exact hblack hsib hfs
  | @black _ _ _ _ _ _ c' hsib hfs =>
    cases c' with
    | black => exact hblack hsib hfs
    | red =>
      -- case 1: the sibling's near child is a black node
      obtain ⟨a, y, z, rfl, ha, hz⟩ := hsib.exists_sided_of_red d
      obtain ⟨a₁, w, a₂, c₁, c₂, rfl, ha₁, ha₂⟩ := ha.exists_sided_of_succ d
      have hy : (s.heap y).color = .red := by rw [(shape_sided.mp hshape).1, ofSide_color]
      obtain ⟨s', hred, hfocus', hleft⟩ := rbEraseRed_focus hfocus (root_sided _ _ _ _ _)
      rw [paint_sided] at hfocus'
      have hfits' : Fits (⟨d, .black, y, z⟩ :: fs) .red (n + 1) := .black hz hfs
      obtain ⟨next, hnext, hok⟩ :=
        rbEraseBlack_ok (focus_cons (f := ⟨d, .black, y, z⟩).mpr hfocus') ht ha₁ ha₂ hfits'
      refine ⟨next, ?_, ?_⟩
      · rw [hround y (root_sided _ _ _ _ _), if_pos hy, hred]
        exact hnext
      · cases hok with
        | done t' hf hlist hbal hl =>
          refine .done t' hf ?_ hbal (hl.trans hleft)
          rw [hlist, plug, plug, toList_plug, toList_plug]
          cases d <;> simp [sided, toList]
        | again _ hc => cases hc

/-- A tree that is one black node short: the loop gives a tree by the rules with the same sequence. -/
theorem rbEraseLoop_ok (fuel : ℕ) :
    ∀ (fs : List (Frame N)) (s : RbRoot N) (f : Frame N) (t : RbTree N) (n : ℕ),
    fs.length < fuel → Focus s (f :: fs) t → t.Balanced .black n → Fits (f :: fs) .black (n + 1) →
      ∃ s' t', rbEraseLoop fuel s t.root f.id = some s' ∧ Focus s' [] t' ∧
        t'.toList = (plug (f :: fs) t).toList ∧
        (∃ m, t'.Balanced .black m) ∧ s'.leftmost = s.leftmost := by
  induction fuel with
  | zero => exact fun fs _ _ _ _ hlt => absurd hlt (Nat.not_lt_zero _)
  | succ fuel ih =>
    intro fs s f t n hlt hfocus ht hfits
    obtain ⟨next, hnext, hok⟩ := rbEraseRound_ok hfocus ht hfits
    rw [rbEraseLoop, hnext]
    cases hok with
    | @done s' t' hf hlist hbal hleft => exact ⟨s', t', rfl, hf, hlist, hbal, hleft⟩
    | @again s' up t' _ hf hlist hbal hfits' hroot hup hleft =>
      cases fs with
      | nil => cases hup
      | cons g fs =>
        obtain rfl : g.id = up := Option.some.inj hup
        have hlt' : fs.length < fuel := by
          rw [List.length_cons] at hlt
          omega
        obtain ⟨s'', t'', hloop, hf', hlist', hbal', hleft'⟩ := ih fs s' g t' (n + 1) hlt' hf hbal hfits'
        rw [hroot] at hloop
        exact ⟨s'', t'', hloop, hf', hlist'.trans hlist, hbal', hleft'.trans hleft⟩

end Skp.Adt
