import Skp.Adt.RbtreeRebalance
import Skp.Adt.RbtreeWalk

/-! # Unlinking a node

`__rb_erase_node` takes out a node with one child at most, or puts the successor in the node's
place. Either way one node with no child on one side has left its place: its other child is there
now, or nothing is, and then the place may be one black node short. -/
namespace Skp.Adt
set_option autoImplicit false
open Skp.Foundations Skp.Foundations.RbTree

variable {N : Type*}
variable {s s' : RbRoot N} {q pp : Option N} {fs gs : List (Frame N)} {c : Color} {n : ℕ} {xs : List N}
variable {l r t : RbTree N} {p w x y : N}

/-- The memory after a node is unlinked, with the place to rebalance at. -/
def Unlinked (s s' : RbRoot N) (xs : List N) (rebalance : Option N) : Prop :=
  ∃ gs t, Focus s' gs t ∧ (plug gs t).toList = xs ∧ s'.leftmost = s.leftmost ∧
    ((rebalance = none ∧ ∃ m, (plug gs t).Balanced .black m) ∨
      (∃ f gs', gs = f :: gs' ∧ rebalance = some f.id ∧ t = nil ∧ Fits gs .black 1))

theorem unlinked_of_child (h : Focus s' gs (r.paint .black)) (hfits : Fits gs c n)
    (hbal : (node c nil y r).Balanced c n) (hlist : before gs ++ r.toList ++ after gs = xs)
    (hleft : s'.leftmost = s.leftmost) :
    Unlinked s s' xs (if r.root = none ∧ c = .black then above gs else none) := by
  refine ⟨gs, r.paint .black, h, by rw [toList_plug, toList_paint, hlist], hleft, ?_⟩
  cases hbal with
  | red hnil hr =>
    cases hnil with
    | nil =>
      cases hr with
      | nil => exact Or.inl ⟨rfl, hfits.of_red.plug .nil⟩
  | black hnil hr =>
    cases hnil with
    | nil =>
      cases hr with
      | red hl hr => exact Or.inl ⟨rfl, hfits.plug (.black hl hr)⟩
      | nil =>
        cases gs with
        | nil => exact Or.inl ⟨rfl, 0, .nil⟩
        | cons f gs => exact Or.inr ⟨f, gs, rfl, rfl, rfl, hfits⟩

/-- The only child of a node has the colour it gets there. -/
theorem paint_child (hbal : (node c nil y r).Balanced c n) : r.paint c = r.paint .black := by
  cases hbal with
  | red hnil hr =>
    cases hnil with
    | nil =>
      cases hr with
      | nil => rfl
  | black hnil hr => rfl

/-! ## Case 1 -/

variable [DecidableEq N]

theorem eraseRight_ok (h : Focus s fs (node c nil x r)) (hfits : Fits fs c n)
    (hbal : (node c nil x r).Balanced c n) :
    Unlinked s
      (ifNode r.root (rbChangeChild s x r.root (above fs)) fun s y => rbSetParentColor s y (above fs) c)
      (before fs ++ r.toList ++ after fs) (if r.root = none ∧ c = .black then above fs else none) := by
  have hsided : Focus s fs (sided .left c nil x r) := h
  have h1 := Holds.split hsided 0 rfl
  have h2 := h1.changeChild (by simp [Piece.ids]) r.root
  have h3 := h2.recolor 2 rfl (above fs) c
  refine unlinked_of_child ?_ hfits hbal rfl ?_
  · rw [← paint_child hbal]
    refine h3.focus_of_le (root_paint _ _).symm (h3.tree 2 rfl) fun z => ?_
    simp [Piece.ids, List.count_cons]
    omega
  · rw [ifNode_leftmost _ _ _ fun s y => rbSetParentColor_leftmost s y (above fs) c, rbChangeChild_leftmost]

theorem eraseLeft_ok (h : Focus s fs (node c l x nil)) (hl : l.root = some y) (hfits : Fits fs c n)
    (hbal : (node c l x nil).Balanced c n) :
    Unlinked s (rbChangeChild (rbSetParentColor s y (above fs) c) x (some y) (above fs))
      (before fs ++ l.toList ++ after fs) none := by
  have hsided : Focus s fs (sided .left c l x nil) := h
  have h1 := Holds.split hsided 0 rfl
  have h2 := h1.repaint 1 rfl hl (above fs) c
  have h3 := h2.changeChild (by simp [Piece.ids]) (some y)
  have hpaint := paint_child (hbal.swap)
  have hfocus : Focus (rbChangeChild (rbSetParentColor s y (above fs) c) x (some y) (above fs)) fs
      (l.paint .black) := by
    rw [← hpaint]
    refine h3.focus_of_le (by rw [root_paint, hl]) (h3.tree 1 rfl) fun z => ?_
    simp [Piece.ids, List.count_cons]
    omega
  have hdone := unlinked_of_child (s := s) hfocus hfits (hbal.swap) rfl (by simp)
  rw [if_neg (by simp [hl])] at hdone
  exact hdone

/-! ## Cases 2 and 3 -/

omit [DecidableEq N] in
theorem before_of_left {gs : List (Frame N)} (hside : ∀ f, f ∈ gs → f.side = .left) : before gs = [] := by
  induction gs with
  | nil => rfl
  | cons f gs ih =>
    rw [before, ih fun g hg => hside g (List.mem_cons_of_mem f hg), hside f List.mem_cons_self]
    rfl

omit [DecidableEq N] in
theorem segRoot_concat (gs : List (Frame N)) (q : Option N) (g : Frame N) :
    segRoot q (gs ++ [g]) = some g.id := by
  induction gs generalizing q with
  | nil => rfl
  | cons f gs ih => exact ih (some f.id)

omit [DecidableEq N] in
/-- The loop of case 3, from a left child down: the leftmost node and the one above it. -/
theorem rbSuccessor_ok (t : RbTree N) : ∀ (fuel : ℕ) (pp : Option N) (z w : N), Shape s.heap pp t →
      t.root = some w →
    t.toList.length ≤ fuel → ∃ gs c y r p, t = plug gs (node c nil y r) ∧ (∀ f, f ∈ gs → f.side = .left) ∧
      aboveIn (some z) gs = some p ∧ rbSuccessor fuel s z w = some (p, y) := by
  induction t with
  | nil => exact fun _ _ _ _ _ hw => absurd hw (by simp [root])
  | node c l x r ihl _ =>
    intro fuel pp z w hshape hw hfuel
    obtain rfl : x = w := Option.some.inj hw
    obtain ⟨hrec, hl, -⟩ := hshape
    cases fuel with
    | zero => simp [toList] at hfuel
    | succ fuel =>
      rw [rbSuccessor, hrec]
      cases hroot : l.root with
      | none =>
        cases l with
        | nil => exact ⟨[], c, x, r, z, rfl, fun f hf => absurd hf List.not_mem_nil, rfl, rfl⟩
        | node _ _ _ _ => cases hroot
      | some v =>
        have hlen : l.toList.length ≤ fuel := by
          simp [toList] at hfuel
          omega
        obtain ⟨gs, c', y, r', p, rfl, hside, hup, hsucc⟩ := ihl fuel (some x) x v hl hroot hlen
        refine ⟨gs ++ [⟨.left, c, x, r⟩], c', y, r', p, by rw [plug_append]; rfl, ?_, ?_, hsucc⟩
        · intro f hf
          cases List.mem_append.mp hf with
          | inl hf => exact hside f hf
          | inr hf => rw [List.mem_singleton.mp hf]
        · cases gs with
          | nil => exact hup
          | cons f gs => exact hup

/-- The successor takes the node's place: the node's left subtree goes below it, and its own right child, if
there is one, gets its new parent and turns black. -/
theorem rbReplace_holds {cy : Color} {xr yr py : Option N} {ps : List (Piece N)} (h : Holds s (some x) fs
      (.cell x ⟨above fs, c, l.root, xr⟩ :: .tree (some x) l :: .cell y ⟨pp, cy, none,
        yr⟩ :: .tree py r :: ps))
    (hl : l.root = some w) (p : N) :
    ∃ s', rbReplace s x y p r.root = some (s', if r.root = none ∧ cy = .black then some p else none) ∧
      Holds s' (some y) fs (.cell x ⟨above fs, c, l.root, xr⟩ :: .tree (some y) l ::
        .cell y ⟨above fs, c, l.root, yr⟩ :: .tree (some p) (r.paint .black) :: ps) ∧
          s'.leftmost = s.leftmost := by
  rw [hl] at h ⊢
  have hx : s.heap x = ⟨above fs, c, some w, xr⟩ := h.cell 0 rfl
  have h1 := h.setChild 2 rfl .left (some w)
  have h2 := h1.reparent 1 rfl (some y)
  rw [hl] at h2
  have h3 := h2.changeChild (by simp [Piece.ids]) (some y)
  have hx2 : (rbSetParent (rbSetChild s y .left (some w)) w (some y)).heap x =
      ⟨above fs, c, some w, xr⟩ := h2.cell 0 rfl
  have hy3 : (rbChangeChild (rbSetParent (rbSetChild s y .left (some w)) w (some y)) x (some y)
      (above fs)).heap y =
      ⟨pp, cy, some w, yr⟩ := h3.cell 2 rfl
  have h4 := h3.setParentColor 2 rfl (above fs) c
  have h5 := h4.recolor 3 rfl (some p) .black
  rw [rbReplace, hx]
  refine ⟨ifNode r.root
    (rbSetParentColor (rbChangeChild (rbSetParent (rbSetChild s y .left (some w)) w (some y)) x
    (some y) (above fs)) y (above fs) c) fun s v => rbSetParentColor s v (some p) .black, ?_, h5, ?_⟩
  rotate_left
  · rw [ifNode_leftmost _ _ _ fun s v => rbSetParentColor_leftmost s v (some p) .black]
    simp
  · simp only [Option.bind_some, hx2]
    cases hr : r.root with
    | some v => rfl
    | none =>
      simp only [hy3, true_and]
      rfl

/-- Case 2: the successor is the right child. -/
theorem eraseNear_ok {cy : Color} {m : ℕ} (h : Focus s fs (node c l x (node cy nil y r)))
    (hl : l.root = some w)
    (hfits : Fits (⟨.right, c, x, l⟩ :: fs) cy m) (hbal : (node cy nil y r).Balanced cy m) :
    ∃ s' rebalance, rbReplace s x y y r.root = some (s', rebalance) ∧
      Unlinked s s' (before fs ++ l.toList ++ (y :: r.toList) ++ after fs) rebalance := by
  have hsided : Focus s fs (sided .left c l x (sided .left cy nil y r)) := h
  have h1 := (Holds.split hsided 0 rfl).split 2 rfl
  have h2 :=
    h1.regroup [.cell x ⟨above fs, c, l.root, some y⟩, .tree (some x) l,
      .cell y ⟨some x, cy, none, r.root⟩,
    .tree (some y) r] ?_ ?_
  · obtain ⟨s', hreplace, h3, hleft⟩ := rbReplace_holds h2 hl y
    refine ⟨s', _, hreplace, ?_⟩
    have hfocus : Focus s' (⟨.right, c, y, l⟩ :: fs) (r.paint .black) := by
      rw [focus_cons]
      refine h3.focus_of_le (root_sided _ _ _ _ _).symm ?_ fun z => ?_
      · rw [shape_sided, root_paint]
        exact ⟨h3.cell 2 rfl, h3.tree 3 rfl, h3.tree 1 rfl⟩
      · simp [Piece.ids, sided, toList, List.count_append, List.count_cons]
    have hnil : Fits ([] ++ ⟨.right, c, x, l⟩ :: fs) cy m := hfits
    have hfits' : Fits ([] ++ ⟨.right, c, y, l⟩ :: fs) cy m := hnil.rename
    refine unlinked_of_child hfocus hfits' hbal ?_ hleft
    simp [before, after]
  · simp only [List.mem_cons, List.not_mem_nil, or_false, forall_eq_or_imp, forall_eq]
    exact ⟨h1.at 0 rfl, h1.at 1 rfl, h1.at 2 rfl, h1.at 4 rfl⟩
  · intro z
    simp [Piece.ids, toList, List.count_append, List.count_cons]

/-- Case 3: the successor is deeper in the right subtree. -/
theorem eraseFar_ok {cy : Color} {m : ℕ} {g : Frame N} {gs : List (Frame N)} {v : N}
    (h : Focus s (g :: gs ++ ⟨.right, c, x, l⟩ :: fs) (node cy nil y r)) (hl : l.root = some w)
    (hside : ∀ f, f ∈ g :: gs → f.side = .left) (hv : segRoot (some y) (g :: gs) = some v)
    (hfits : Fits (g :: gs ++ ⟨.right, c, x, l⟩ :: fs) cy m) (hbal : (node cy nil y r).Balanced cy m) :
    ∃ s' rebalance,
      rbReplace
      (rbSetParent (rbSetChild (rbSetChild s g.id .left r.root) y .right (some v)) v (some y))
        x y g.id r.root = some (s', rebalance) ∧
      Unlinked s s' (before fs ++ l.toList ++ (y :: r.toList ++ after (g :: gs)) ++ after fs) rebalance := by
  obtain ⟨hseg, hx, hlshape, hfs⟩ := hole_append.mp h.hole
  have hroot : segRoot (node cy nil y r).root (g :: gs) = some v := hv
  rw [hroot] at hx
  obtain ⟨hy, -, hr⟩ := h.shape
  have h1 : Holds s (some x) fs [.cell x ⟨above fs, c, l.root, some v⟩, .tree (some x) l,
      .cell y ⟨some g.id, cy, none, r.root⟩, .tree (some y) r, .seg (some x) (some y) (g :: gs)] := by
    refine ⟨hfs, ?_, ?_⟩
    · simp only [List.mem_cons, List.not_mem_nil, or_false, forall_eq_or_imp, forall_eq]
      exact ⟨hx, hlshape, hy, hr, hseg⟩
    · apply nodup_of_count h.nodup
      intro z
      simp [Piece.ids, frameIds_append, frameIds, toList, List.count_append, List.count_cons]
      omega
  have h2 := h1.segLink 4 rfl r.root
  rw [hside g List.mem_cons_self] at h2
  have h3 := h2.setChild 2 rfl .right (some v)
  have h4 := h3.segParent 4 rfl (List.cons_ne_nil g gs) hv (some y)
  obtain ⟨s', hreplace, h5, hleft⟩ := rbReplace_holds h4 hl g.id
  refine ⟨s', _, hreplace, ?_⟩
  have hfocus : Focus s' (g :: gs ++ ⟨.right, c, y, l⟩ :: fs) (r.paint .black) := by
    refine ⟨?_, ?_, ?_⟩
    · rw [root_paint, hole_append]
      refine ⟨h5.at 4 rfl, ?_, h5.tree 1 rfl, h5.hole⟩
      have hroot : segRoot r.root (g :: gs) = some v := hv
      rw [hroot]
      exact h5.cell 2 rfl
    · intro pc hpc
      rw [List.mem_singleton.mp hpc]
      exact h5.tree 3 rfl
    · rw [List.nodup_iff_count_le_one]
      intro z
      have hold := List.nodup_iff_count_le_one.mp h5.nodup z
      simp [Piece.ids, frameIds_append, frameIds, List.count_append, List.count_cons] at hold ⊢
      omega
  have hbefore := before_of_left hside
  refine unlinked_of_child hfocus hfits.rename hbal ?_ hleft
  rw [before_append, after_append, hbefore]
  simp [before, after]

theorem rbUnlink_ok (fuel : ℕ) (h : Focus s fs (node c l x r)) (hfits : Fits fs c n)
    (hbal : (node c l x r).Balanced c n) (hfuel : r.toList.length ≤ fuel) :
    ∃ s' rebalance, rbUnlink fuel s x = some (s', rebalance) ∧
      Unlinked s s' (before fs ++ l.toList ++ r.toList ++ after fs) rebalance := by
  obtain ⟨hx, hlshape, hrshape⟩ := h.shape
  rw [rbUnlink, hx]
  cases hl : l.root with
  | none =>
    cases l with
    | node _ _ _ _ => cases hl
    | nil =>
      have hdone := eraseRight_ok h hfits hbal
      rw [show (nil : RbTree N).toList = [] from rfl, List.append_nil]
      cases r with
      | nil =>
        simp only [root, true_and] at hdone
        exact ⟨_, _, rfl, hdone⟩
      | node cr rl v rr =>
        simp only [root, reduceCtorEq, false_and, if_false] at hdone
        exact ⟨_, _, rfl, hdone⟩
  | some w =>
    cases r with
    | nil =>
      rw [show (nil : RbTree N).toList = [] from rfl, List.append_nil]
      exact ⟨_, _, rfl, eraseLeft_ok h hl hfits hbal⟩
    | node cr rl v rr =>
      have hv : s.heap v = ⟨some x, cr, rl.root, rr.root⟩ := hrshape.1
      have hchild : (node cr rl v rr).root = some v := rfl
      simp only [hchild, hv]
      cases hrl : rl.root with
      | none =>
        cases rl with
        | node _ _ _ _ => cases hrl
        | nil =>
          have hplug : (plug [⟨.right, c, x, l⟩] (node cr nil v rr)).Balanced c n := hbal
          obtain ⟨c', m, hfits', hbal'⟩ := hfits.unplug hplug
          obtain rfl := hbal'.color_eq
          obtain ⟨s', rebalance, hreplace, hdone⟩ := eraseNear_ok h hl hfits' hbal'
          exact ⟨s', rebalance, hreplace, hdone⟩
      | some u =>
        have hlen : rl.toList.length ≤ fuel := by
          simp [toList] at hfuel
          omega
        obtain ⟨gs, cy, y, ry, p, rfl, hside, hup, hsucc⟩ :=
          rbSuccessor_ok rl fuel (some v) v u hrshape.2.1 hrl hlen
        -- the frames from the successor up to the right child, which come before that of the node
        have hframes : ∃ g gs', gs ++ [⟨.left, cr, v, rr⟩] = g :: gs' ∧ g.id = p := by
          cases gs with
          | nil => exact ⟨_, [], rfl, Option.some.inj hup⟩
          | cons g gs => exact ⟨g, _, rfl, Option.some.inj hup⟩
        obtain ⟨g, gs', hgs, rfl⟩ := hframes
        have hplug : plug (g :: gs' ++ [⟨.right, c, x, l⟩]) (node cy nil y ry) =
            node c l x (node cr (plug gs (node cy nil y ry)) v rr) := by
          rw [← hgs, plug_append, plug_append]
          rfl
        have hfocus : Focus s (g :: gs' ++ ⟨.right, c, x, l⟩ :: fs) (node cy nil y ry) := by
          have happ : g :: gs' ++ ⟨.right, c, x, l⟩ :: fs = (g :: gs' ++ [⟨.right, c, x, l⟩]) ++ fs := by simp
          rw [happ, focus_append, hplug]
          exact h
        have hbal' : (plug (g :: gs' ++ [⟨.right, c, x, l⟩]) (node cy nil y ry)).Balanced c n := by
          rw [hplug]
          exact hbal
        obtain ⟨c', m, hfits', hy⟩ := hfits.unplug hbal'
        obtain rfl := hy.color_eq
        rw [List.append_assoc, List.singleton_append] at hfits'
        have hsides : ∀ f, f ∈ g :: gs' → f.side = .left := by
          intro f hf
          rw [← hgs] at hf
          cases List.mem_append.mp hf with
          | inl hf => exact hside f hf
          | inr hf => rw [List.mem_singleton.mp hf]
        have hroot : segRoot (some y) (g :: gs') = some v := by
          rw [← hgs]
          exact segRoot_concat gs _ _
        have hyrec : s.heap y = ⟨some g.id, cy, none, ry.root⟩ := hfocus.shape.1
        obtain ⟨s', rebalance, hreplace, hdone⟩ := eraseFar_ok hfocus hl hsides hroot hfits' hy
        refine ⟨s', rebalance, ?_, ?_⟩
        · simp only [hsucc, Option.bind_some, hyrec]
          exact hreplace
        · have hlist : (node cr (plug gs (node cy nil y ry)) v rr).toList = y :: ry.toList ++
            after (g :: gs') := by
            have hwhole : node cr (plug gs (node cy nil y ry)) v rr = plug (g :: gs') (node cy nil y ry) := by
              rw [← hgs, plug_append]
              rfl
            rw [hwhole, toList_plug, before_of_left hsides]
            rfl
          rw [hlist]
          exact hdone

/-! ## The whole removal -/

omit [DecidableEq N] in
theorem Focus.congr (h : Focus s fs t) (hnode : s'.node = s.node)
    (hheap : ∀ y, y ∈ frameIds fs ++ t.toList → s'.heap y = s.heap y) :
    Focus s' fs t := by
  refine ⟨h.hole.congr hnode fun y hy => hheap y (List.mem_append_left _ hy), fun pc hpc => ?_, h.nodup⟩
  apply (h.each pc hpc).congr
  intro y hy
  rw [List.mem_singleton.mp hpc] at hy
  exact hheap y (List.mem_append_right _ hy)

/-- A node is unlinked: the sequence without it is left, by the rules, with its first node as the leftmost. -/
theorem rbtEraseCached_ok {ys : List N} {m fuel : ℕ} (h : Focus s [] t) (hbal : t.Balanced .black m)
    (hlist : t.toList = xs ++ x :: ys) (hleft : s.leftmost = t.toList.head?)
    (hfuel : t.toList.length ≤ fuel) :
    ∃ s' t', rbtEraseCached fuel s x = some s' ∧ Focus s' [] t' ∧ t'.toList = xs ++ ys ∧
      (∃ m, t'.Balanced .black m) ∧
      s'.leftmost = (xs ++ ys).head? := by
  have hnodup := h.toList_nodup
  -- the leftmost node first
  have hstart : ∃ s₁,
      (if s.leftmost = some x then (rbtNext fuel s x).map fun next => { s with leftmost := next }
      else some s) = some s₁ ∧ s₁.heap = s.heap ∧ s₁.node = s.node ∧ s₁.leftmost = (xs ++ ys).head? := by
    rw [(rbtStep_ok h hlist hfuel).1, hleft, hlist]
    cases xs with
    | nil => exact ⟨{ s with leftmost := ys.head? }, by simp, rfl, rfl, rfl⟩
    | cons z zs =>
      have hne : z ≠ x := by
        rw [hlist, List.cons_append, List.nodup_cons] at hnodup
        exact fun heq => hnodup.1 (heq ▸ List.mem_append_right _ List.mem_cons_self)
      refine ⟨s, by simp [hne], rfl, rfl, ?_⟩
      rw [hleft, hlist]
      rfl
  obtain ⟨s₁, hs₁, hheap, hnode, hleft₁⟩ := hstart
  have h₁ : Focus s₁ [] t := h.congr hnode fun y _ => congrFun hheap y
  obtain ⟨fs, c, l, r, rfl, hfocus, rfl, rfl, -⟩ := h₁.zoom hlist
  obtain ⟨c', n, hfits, hnodebal⟩ := (Fits.root m).unplug hbal
  obtain rfl := hnodebal.color_eq
  rw [List.append_nil] at hfits
  have hr : r.toList.length ≤ fuel := by
    rw [toList_plug] at hfuel
    simp [toList] at hfuel
    omega
  obtain ⟨s₂, rebalance, hunlink, gs, t', hfocus', hlist', hleft', hcase⟩ :=
    rbUnlink_ok fuel hfocus hfits hnodebal hr
  have hseq : (plug gs t').toList = before fs ++ l.toList ++ (r.toList ++ after fs) := by
    rw [hlist']
    simp
  rw [rbtEraseCached, rbEraseNode, hs₁, Option.bind_some, hunlink, Option.bind_some]
  rcases hcase with ⟨rfl, hbal'⟩ | ⟨f, gs', rfl, rfl, rfl, hfits'⟩
  · exact ⟨s₂, plug gs t', rfl, focus_plug.mp hfocus', hseq, hbal', hleft'.trans hleft₁⟩
  · have hlen : gs'.length < fuel := by
      have hle := length_le_ids (f :: gs')
      have hseqlen := congrArg List.length hseq
      rw [toList_plug] at hseqlen hfuel
      simp [toList] at hseqlen hfuel hle
      omega
    obtain ⟨s₃, t₃, hloop, hfocus₃, hlist₃, hbal₃, hleft₃⟩ :=
      rbEraseLoop_ok fuel gs' s₂ f nil 0 hlen hfocus' .nil hfits'
    exact ⟨s₃, t₃, hloop, hfocus₃, hlist₃.trans hseq, hbal₃, hleft₃.trans (hleft'.trans hleft₁)⟩

end Skp.Adt
