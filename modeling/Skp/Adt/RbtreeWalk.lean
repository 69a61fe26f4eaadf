import Skp.Adt.RbtreeShape

/-! # Walking the tree

`rbt_first`, `rbt_last`, `rbt_next` and `rbt_prev` on the sequence: the two directions are one by reading the
sequence from the side the walk comes from. -/
namespace Skp.Adt
set_option autoImplicit false
open Skp.Foundations Skp.Foundations.RbTree

variable {N : Type*}
variable {s : RbRoot N} {fs : List (Frame N)} {d : Side} {c : Color} {l r t : RbTree N}
    {p : Option N} {x y : N}

/-- A sequence read from the given side. -/
def readFrom (d : Side) (xs : List N) : List N :=
  match d with
  | .left => xs
  | .right => xs.reverse

@[simp] theorem readFrom_length (d : Side) (xs : List N) : (readFrom d xs).length = xs.length := by
  cases d <;> simp [readFrom]

/-- The subtree on a side of the root. -/
def sub (d : Side) (l r : RbTree N) : RbTree N :=
  match d with
  | .left => l
  | .right => r

/-- What is beyond the hole on a side, nearest first. -/
def beyond (d : Side) (fs : List (Frame N)) : List N :=
  match d with
  | .left => (before fs).reverse
  | .right => after fs

theorem beyond_cons_same (f : Frame N) (fs : List (Frame N)) :
    beyond f.side (f :: fs) = beyond f.side fs := by
  cases hd : f.side with
  | left => simp [beyond, before, hd]
  | right => simp [beyond, after, hd]

theorem beyond_cons_other (f : Frame N) (fs : List (Frame N)) (hd : f.side ≠ d) :
    beyond d (f :: fs) = f.id :: (readFrom d.other f.sib.toList ++ beyond d fs) := by
  cases d with
  | left =>
    have hside : f.side = .right := by
      cases h : f.side with
      | left => exact absurd h hd
      | right => rfl
    simp [beyond, before, hside, readFrom, Side.other]
  | right =>
    have hside : f.side = .left := by
      cases h : f.side with
      | left => rfl
      | right => exact absurd h hd
    simp [beyond, after, hside, readFrom, Side.other]

variable [DecidableEq N]

theorem rbtDescend_ok (t : RbTree N) : ∀ (fuel : ℕ) (p : Option N) (x : N), Shape s.heap p t →
      t.root = some x →
    t.toList.length ≤ fuel → rbtDescend fuel s d x = (readFrom d t.toList).head? := by
  induction t with
  | nil => exact fun _ _ _ _ hx => absurd hx (by simp [root])
  | node c l x r ihl ihr =>
    intro fuel p y hshape hx hfuel
    obtain rfl := Option.some.inj hx
    obtain ⟨hrec, hl, hr⟩ := hshape
    have hlen : (node c l x r).toList.length = l.toList.length + r.toList.length + 1 := by
      simp [toList]
      omega
    cases fuel with
    | zero => omega
    | succ fuel =>
      cases d with
      | left =>
        rw [rbtDescend, hrec, RbtNode.child]
        cases hroot : l.root with
        | none =>
          cases l with
          | nil => simp [readFrom, toList]
          | node _ _ _ _ => cases hroot
        | some z =>
          refine (ihl fuel (some x) z hl hroot (by omega)).trans ?_
          have hne : l.toList ≠ [] := List.ne_nil_of_mem (mem_of_root hroot)
          simp [readFrom, toList, List.head?_append_of_ne_nil _ hne]
      | right =>
        rw [rbtDescend, hrec, RbtNode.child]
        cases hroot : r.root with
        | none =>
          cases r with
          | nil => simp [readFrom, toList]
          | node _ _ _ _ => cases hroot
        | some z =>
          refine (ihr fuel (some x) z hr hroot (by omega)).trans ?_
          have hne : r.toList.reverse ≠ [] := by simpa using List.ne_nil_of_mem (mem_of_root hroot)
          simp [readFrom, toList, List.head?_append_of_ne_nil _ hne]

theorem rbtClimb_ok (fs : List (Frame N)) : ∀ (fuel : ℕ) (t : RbTree N) (x : N), Focus s fs t →
      t.root = some x →
    fs.length < fuel → rbtClimb fuel s d x = some (beyond d fs).head? := by
  induction fs with
  | nil =>
    intro fuel t x h hx hfuel
    cases fuel with
    | zero => exact absurd hfuel (Nat.not_lt_zero _)
    | succ fuel =>
      have hparent : (s.heap x).parent = none := by
        cases t with
        | nil => cases hx
        | node c l y r =>
          obtain rfl := Option.some.inj hx
          rw [h.shape.1]
          rfl
      rw [rbtClimb, hparent]
      cases d <;> rfl
  | cons f fs ih =>
    intro fuel t x h hx hfuel
    cases fuel with
    | zero => exact absurd hfuel (Nat.not_lt_zero _)
    | succ fuel =>
      have hparent : (s.heap x).parent = some f.id := by
        cases t with
        | nil => cases hx
        | node c l y r =>
          obtain rfl := Option.some.inj hx
          rw [h.shape.1]
          rfl
      have hf : s.heap f.id = RbtNode.ofSide (above fs) f.color f.side t.root f.sib.root := h.hole.1
      have hlt : fs.length < fuel := by
        rw [List.length_cons] at hfuel
        omega
      rw [rbtClimb, hparent]
      by_cases hd : f.side = d
      · subst hd
        rw [beyond_cons_same]
        simp only [hf, ofSide_child, hx, if_true]
        exact ih fuel _ f.id (focus_cons.mp h) (root_sided _ _ _ _ _) hlt
      · have hother : d = f.side.other := by
          cases h₁ : f.side <;> cases d <;> first | rfl | exact absurd h₁ hd
        have hne : f.sib.root ≠ some x := by
          intro hroot
          refine h.notMem_frames (i := 0) rfl (mem_of_root hx) ?_
          exact List.mem_append_left _ (List.mem_cons_of_mem f.id (mem_of_root hroot))
        rw [beyond_cons_other f fs hd]
        subst hother
        simp [hf, hne]

/-- A linked node's word is not its own address. -/
theorem Focus.notEmpty (h : Focus s fs (node c l x r)) : rbtEmptyNode s x = false := by
  rw [rbtEmptyNode, h.shape.1, decide_eq_false_iff_not]
  intro hself
  have hup : above fs = some x := hself.1
  cases fs with
  | nil => cases hup
  | cons f fs =>
    refine h.notMem_frames (i := 0) rfl (mem_of_root rfl) ?_
    exact Option.some.inj hup ▸ List.mem_cons_self

theorem rbtStep_focus (fuel : ℕ) (h : Focus s fs (node c l x r)) (hfs : fs.length < fuel)
    (hsub : (sub d l r).toList.length ≤ fuel) :
    rbtStep fuel s d x = some (readFrom d.other (sub d l r).toList ++ beyond d fs).head? := by
  obtain ⟨hrec, hl, hr⟩ := h.shape
  have hchild : (s.heap x).child d = (sub d l r).root := by
    rw [hrec]
    cases d <;> rfl
  have hshape : Shape s.heap (some x) (sub d l r) := by
    cases d with
    | left => exact hl
    | right => exact hr
  rw [rbtStep, h.notEmpty, hchild]
  cases hroot : (sub d l r).root with
  | some z =>
    have hdesc := rbtDescend_ok (sub d l r) (d := d.other) fuel (some x) z hshape hroot hsub
    have hne : readFrom d.other (sub d l r).toList ≠ [] := by
      have hmem := mem_of_root hroot
      intro hnil
      have hlen : (readFrom d.other (sub d l r).toList).length = 0 := by rw [hnil]; rfl
      rw [readFrom_length] at hlen
      exact List.ne_nil_of_mem hmem (List.length_eq_zero_iff.mp hlen)
    rw [List.head?_append_of_ne_nil _ hne, ← hdesc]
    cases hres : rbtDescend fuel s d.other z with
    | none =>
      rw [hres] at hdesc
      exact absurd (List.head?_eq_none_iff.mp hdesc.symm) hne
    | some w => simp [hres]
  | none =>
    have hnil : (sub d l r).toList = [] := by
      cases hsubt : sub d l r with
      | nil => rfl
      | node _ _ _ _ =>
        rw [hsubt] at hroot
        cases hroot
    have hread : readFrom d.other (sub d l r).toList = [] := by
      rw [hnil]
      cases d <;> rfl
    rw [hread, List.nil_append]
    exact rbtClimb_ok fs fuel _ x h rfl hfs

/-! ## On the sequence -/

section Sequence
variable {xs ys : List N} {fuel : ℕ}

omit [DecidableEq N] in
theorem Focus.toList_nodup (h : Focus s [] t) : t.toList.Nodup := by
  have hnodup := Holds.nodup h
  simpa [frameIds, Piece.ids] using hnodup

theorem Focus.zoom (h : Focus s [] t) (hlist : t.toList = xs ++ x :: ys) :
    ∃ fs c l r, t = plug fs (node c l x r) ∧ Focus s fs (node c l x r) ∧ xs = before fs ++ l.toList ∧
      ys = r.toList ++ after fs ∧ fs.length < t.toList.length := by
  have hx : x ∈ t.toList := by
    rw [hlist]
    exact List.mem_append_right _ List.mem_cons_self
  obtain ⟨fs, c, l, r, rfl⟩ := exists_plug hx
  have hnodup := h.toList_nodup
  have hparts : (plug fs (node c l x r)).toList = (before fs ++ l.toList) ++ x :: (r.toList ++ after fs) := by
    rw [toList_plug, toList]
    simp
  -- the node stands once in the sequence
  have heq : (before fs ++ l.toList) ++ x :: (r.toList ++ after fs) = xs ++ x :: ys := hparts.symm.trans hlist
  rw [hparts, List.nodup_append] at hnodup
  have hleft : x ∉ before fs ++ l.toList := fun hmem => hnodup.2.2 x hmem x List.mem_cons_self rfl
  have hright : x ∉ r.toList ++ after fs := (List.nodup_cons.mp hnodup.2.1).1
  obtain ⟨hxs, -, hys⟩ := (List.append_cons_inj_of_notMem hleft hright).mp heq
  refine ⟨fs, c, l, r, rfl, focus_plug.mpr h, hxs.symm, hys.symm, ?_⟩
  have hfs := length_le_ids fs
  rw [toList_plug]
  simp [toList]
  omega

theorem rbtStep_ok (h : Focus s [] t) (hlist : t.toList = xs ++ x :: ys) (hfuel : t.toList.length ≤ fuel) :
    rbtNext fuel s x = some ys.head? ∧ rbtPrev fuel s x = some xs.getLast? := by
  obtain ⟨fs, c, l, r, rfl, hfocus, rfl, rfl, hfs⟩ := h.zoom hlist
  have hlen : l.toList.length + r.toList.length ≤ (plug fs (node c l x r)).toList.length := by
    rw [toList_plug]
    simp [toList]
    omega
  constructor
  · rw [rbtNext, rbtStep_focus fuel hfocus (by omega) (by simp only [sub]; omega)]
    rfl
  · rw [rbtPrev, rbtStep_focus fuel hfocus (by omega) (by simp only [sub]; omega)]
    simp [readFrom, sub, beyond, Side.other, ← List.reverse_append]

theorem rbtEnd_ok (h : Focus s [] t) (hfuel : t.toList.length ≤ fuel) :
    rbtFirst fuel s = some t.toList.head? ∧ rbtLast fuel s = some t.toList.getLast? := by
  have hnode : s.node = t.root := h.hole
  have hends : ∀ d, rbtEnd fuel s d = some (readFrom d t.toList).head? := by
    intro d
    rw [rbtEnd, hnode]
    cases t with
    | nil => cases d <;> rfl
    | node c l x r =>
      have hdesc := rbtDescend_ok (node c l x r) (d := d) fuel none x h.shape rfl hfuel
      have hne : readFrom d (node c l x r).toList ≠ [] := by
        cases d <;> simp [readFrom, toList]
      simp only [root]
      rw [hdesc]
      cases hhead : (readFrom d (node c l x r).toList).head? with
      | none => exact absurd (List.head?_eq_none_iff.mp hhead) hne
      | some w => rfl
  refine ⟨hends .left, (hends .right).trans ?_⟩
  simp [readFrom]

end Sequence

end Skp.Adt
