import Mathlib

/-! # Red-black trees with a hole

A tree taken apart at one of its places is a list of frames, from the place up to the root, and the tree at
that place. A frame knows on which side of its node the way goes down, so the two mirror images of an argument
are one. `Fits` is the red-black rules of a tree with a hole. -/
namespace Skp.Foundations
set_option autoImplicit false

inductive Side where
  | left
  | right
  deriving DecidableEq

def Side.other : Side → Side
  | .left => .right
  | .right => .left

@[simp] theorem Side.other_other (d : Side) : d.other.other = d := by cases d <;> rfl

@[simp] theorem Side.other_ne (d : Side) : d.other ≠ d := by cases d <;> simp [Side.other]

inductive Color where
  | red
  | black
  deriving DecidableEq

inductive RbTree (N : Type*) where
  | nil
  | node (c : Color) (l : RbTree N) (x : N) (r : RbTree N)

structure Frame (N : Type*) where
  side : Side
  color : Color
  id : N
  sib : RbTree N

variable {N : Type*}

namespace RbTree

def root : RbTree N → Option N
  | nil => none
  | node _ _ x _ => some x

def toList : RbTree N → List N
  | nil => []
  | node _ l x r => l.toList ++ x :: r.toList

/-- The node with one subtree on the given side and another on the other side. -/
def sided (d : Side) (c : Color) (near : RbTree N) (x : N) (far : RbTree N) : RbTree N :=
  match d with
  | .left => node c near x far
  | .right => node c far x near

@[simp] theorem root_sided (d : Side) (c : Color) (near : RbTree N) (x : N) (far : RbTree N) :
    (sided d c near x far).root = some x := by cases d <;> rfl

theorem sided_other (d : Side) (c : Color) (near : RbTree N) (x : N) (far : RbTree N) :
    sided d.other c near x far = sided d c far x near := by cases d <;> rfl

theorem mem_of_root {t : RbTree N} {x : N} (h : t.root = some x) : x ∈ t.toList := by
  cases t with
  | nil => cases h
  | node c l y r =>
    obtain rfl := Option.some.inj h
    exact List.mem_append_right _ List.mem_cons_self

/-- The colour of the root, which may be absent. -/
def paint (c : Color) : RbTree N → RbTree N
  | nil => nil
  | node _ l x r => node c l x r

@[simp] theorem paint_sided (d : Side) (c c' : Color) (near : RbTree N) (x : N) (far : RbTree N) :
    (sided d c near x far).paint c' = sided d c' near x far := by cases d <;> rfl

@[simp] theorem toList_paint (c : Color) (t : RbTree N) : (t.paint c).toList = t.toList := by cases t <;> rfl

@[simp] theorem root_paint (c : Color) (t : RbTree N) : (t.paint c).root = t.root := by cases t <;> rfl

/-- The red-black rules: the colour of the root and the number of black nodes on every path. -/
inductive Balanced : RbTree N → Color → ℕ → Prop where
  | nil : Balanced nil .black 0
  | red {l r : RbTree N} {x : N} {n : ℕ} :
      Balanced l .black n → Balanced r .black n → Balanced (node .red l x r) .red n
  | black {l r : RbTree N} {x : N} {n : ℕ} {c c' : Color} : Balanced l c n → Balanced r c' n →
      Balanced (node .black l x r) .black (n + 1)

section Balanced
variable {d : Side} {c : Color} {near far t : RbTree N} {x : N} {n : ℕ}

theorem balanced_sided_red :
    (sided d .red near x far).Balanced c n ↔ c = .red ∧ near.Balanced .black n ∧ far.Balanced .black n := by
  constructor
  · intro h
    cases d with
    | left =>
      cases h with
      | red hl hr => exact ⟨rfl, hl, hr⟩
    | right =>
      cases h with
      | red hl hr => exact ⟨rfl, hr, hl⟩
  · intro h
    obtain ⟨rfl, hnear, hfar⟩ := h
    cases d with
    | left => exact .red hnear hfar
    | right => exact .red hfar hnear

theorem balanced_sided_black :
    (sided d .black near x far).Balanced c n ↔
      c = .black ∧ ∃ m c₁ c₂, n = m + 1 ∧ near.Balanced c₁ m ∧ far.Balanced c₂ m := by
  constructor
  · intro h
    cases d with
    | left =>
      cases h with
      | black hl hr => exact ⟨rfl, _, _, _, rfl, hl, hr⟩
    | right =>
      cases h with
      | black hl hr => exact ⟨rfl, _, _, _, rfl, hr, hl⟩
  · intro h
    obtain ⟨rfl, m, c₁, c₂, rfl, hnear, hfar⟩ := h
    cases d with
    | left => exact .black hnear hfar
    | right => exact .black hfar hnear

/-- A black root, or a tree that is not empty: a node to look at. -/
theorem Balanced.exists_sided_of_succ (h : t.Balanced .black (n + 1)) (d : Side) :
    ∃ near x far c₁ c₂, t = sided d .black near x far ∧ near.Balanced c₁ n ∧ far.Balanced c₂ n := by
  cases h with
  | @black l r x _ c₁ c₂ hl hr =>
    cases d with
    | left => exact ⟨l, x, r, c₁, c₂, rfl, hl, hr⟩
    | right => exact ⟨r, x, l, c₂, c₁, rfl, hr, hl⟩

theorem Balanced.exists_sided_of_red (h : t.Balanced .red n) (d : Side) :
    ∃ near x far, t = sided d .red near x far ∧ near.Balanced .black n ∧ far.Balanced .black n := by
  cases h with
  | @red l r x _ hl hr =>
    cases d with
    | left => exact ⟨l, x, r, rfl, hl, hr⟩
    | right => exact ⟨r, x, l, rfl, hr, hl⟩

theorem Balanced.paint_black (h : t.Balanced .red n) : (t.paint .black).Balanced .black (n + 1) := by
  cases h with
  | red hl hr => exact .black hl hr

theorem Balanced.paint_of_black (h : t.Balanced .black n) : t.paint .black = t := by
  cases h with
  | nil => rfl
  | black hl hr => rfl

theorem Balanced.color_eq {l r : RbTree N} {c' : Color} (h : (node c l x r).Balanced c' n) : c = c' := by
  cases h with
  | red hl hr => rfl
  | black hl hr => rfl

theorem Balanced.swap {l r : RbTree N} (h : (node c l x r).Balanced c n) : (node c r x l).Balanced c n := by
  cases h with
  | red hl hr => exact .red hr hl
  | black hl hr => exact .black hr hl

end Balanced

/-! ## Holes -/

def plug : List (Frame N) → RbTree N → RbTree N
  | [], t => t
  | f :: fs, t => plug fs (sided f.side f.color t f.id f.sib)

theorem plug_append (fs gs : List (Frame N)) (t : RbTree N) : plug (fs ++ gs) t = plug gs (plug fs t) := by
  induction fs generalizing t with
  | nil => rfl
  | cons f fs ih => exact ih _

/-- What stands before the hole, and what after it. -/
def before : List (Frame N) → List N
  | [] => []
  | f :: fs => before fs ++ match f.side with
    | .left => []
    | .right => f.sib.toList ++ [f.id]

def after : List (Frame N) → List N
  | [] => []
  | f :: fs => (match f.side with
    | .left => f.id :: f.sib.toList
    | .right => []) ++ after fs

def frameIds : List (Frame N) → List N
  | [] => []
  | f :: fs => f.id :: f.sib.toList ++ frameIds fs

/-- The node above the hole. -/
def above : List (Frame N) → Option N
  | [] => none
  | f :: _ => some f.id

theorem toList_plug (fs : List (Frame N)) (t : RbTree N) :
    (plug fs t).toList = before fs ++ t.toList ++ after fs := by
  induction fs generalizing t with
  | nil => simp [plug, before, after]
  | cons f fs ih =>
    rw [plug, ih]
    cases hd : f.side with
    | left => simp [before, after, sided, toList, hd]
    | right => simp [before, after, sided, toList, hd]

theorem before_append (fs gs : List (Frame N)) : before (fs ++ gs) = before gs ++ before fs := by
  induction fs with
  | nil => simp [before]
  | cons f fs ih => simp [before, ih]

theorem after_append (fs gs : List (Frame N)) : after (fs ++ gs) = after fs ++ after gs := by
  induction fs with
  | nil => simp [after]
  | cons f fs ih => simp [after, ih]

theorem mem_frameIds {fs : List (Frame N)} {x : N} : x ∈ frameIds fs ↔ x ∈ before fs ∨ x ∈ after fs := by
  induction fs with
  | nil => simp [frameIds, before, after]
  | cons f fs ih =>
    cases hd : f.side with
    | left =>
      simp only [frameIds, before, after, hd, List.cons_append, List.mem_cons, List.mem_append, ih,
        List.not_mem_nil]
      tauto
    | right =>
      simp only [frameIds, before, after, hd, List.cons_append, List.mem_cons, List.mem_append, ih,
        List.not_mem_nil]
      tauto

/-- Every frame brings its node. -/
theorem length_le_ids (fs : List (Frame N)) : fs.length ≤ (before fs).length + (after fs).length := by
  induction fs with
  | nil => simp
  | cons f fs ih =>
    cases hd : f.side with
    | left =>
      simp [before, after, hd]
      omega
    | right =>
      simp [before, after, hd]
      omega

/-- Every node of a tree is at the end of a way down. -/
theorem exists_plug {t : RbTree N} {x : N} (hx : x ∈ t.toList) : ∃ fs c l r, t = plug fs (node c l x r) := by
  induction t with
  | nil => cases hx
  | node c l y r ihl ihr =>
    rw [toList, List.mem_append, List.mem_cons] at hx
    rcases hx with hx | rfl | hx
    · obtain ⟨fs, c', l', r', rfl⟩ := ihl hx
      exact ⟨fs ++ [⟨.left, c, y, r⟩], c', l', r', by rw [plug_append]; rfl⟩
    · exact ⟨[], c, l, r, rfl⟩
    · obtain ⟨fs, c', l', r', rfl⟩ := ihr hx
      exact ⟨fs ++ [⟨.right, c, y, l⟩], c', l', r', by rw [plug_append]; rfl⟩

theorem eq_nil_of_root {t : RbTree N} (h : t.root = none) : t = nil := by
  cases t with
  | nil => rfl
  | node _ _ _ _ => cases h

/-! ### Children first -/

def postorder : RbTree N → List N
  | nil => []
  | node _ l x r => l.postorder ++ (r.postorder ++ [x])

/-- What stands before the hole when children come first, and what after it. -/
def postBefore : List (Frame N) → List N
  | [] => []
  | f :: fs => postBefore fs ++ match f.side with
    | .left => []
    | .right => f.sib.postorder

def postAfter : List (Frame N) → List N
  | [] => []
  | f :: fs => (match f.side with
    | .left => f.sib.postorder
    | .right => []) ++ f.id :: postAfter fs

theorem postorder_perm (t : RbTree N) : t.postorder.Perm t.toList := by
  induction t with
  | nil => exact List.Perm.refl _
  | node c l x r ihl ihr =>
    apply ihl.append
    exact (List.perm_append_singleton x _).trans (ihr.cons x)

theorem postorder_plug (fs : List (Frame N)) (t : RbTree N) :
    (plug fs t).postorder = postBefore fs ++ (t.postorder ++ postAfter fs) := by
  induction fs generalizing t with
  | nil => simp [plug, postBefore, postAfter]
  | cons f fs ih =>
    rw [plug, ih]
    cases hd : f.side with
    | left => simp [postBefore, postAfter, sided, postorder, hd]
    | right => simp [postBefore, postAfter, sided, postorder, hd]

theorem mem_postorder_of_root {t : RbTree N} {x : N} (h : t.root = some x) : x ∈ t.postorder :=
  (postorder_perm t).mem_iff.mpr (mem_of_root h)

/-- The rules of a tree with a hole for a tree of the given colour and black height. -/
inductive Fits : List (Frame N) → Color → ℕ → Prop where
  | root (n : ℕ) : Fits [] .black n
  | red {d : Side} {x : N} {sib : RbTree N} {fs : List (Frame N)} {n : ℕ} :
      sib.Balanced .black n → Fits fs .red n → Fits (⟨d, .red, x, sib⟩ :: fs) .black n
  | black {d : Side} {x : N} {sib : RbTree N} {fs : List (Frame N)} {n : ℕ} {c c' : Color} :
      sib.Balanced c' n → Fits fs .black (n + 1) → Fits (⟨d, .black, x, sib⟩ :: fs) c n

theorem Fits.plug {fs : List (Frame N)} {c : Color} {n : ℕ} (h : Fits fs c n) {t : RbTree N}
    (ht : t.Balanced c n) :
    ∃ m, (RbTree.plug fs t).Balanced .black m := by
  induction h generalizing t with
  | root n => exact ⟨n, ht⟩
  | red hsib _ ih => exact ih (balanced_sided_red.mpr ⟨rfl, ht, hsib⟩)
  | black hsib _ ih => exact ih (balanced_sided_black.mpr ⟨rfl, _, _, _, rfl, ht, hsib⟩)

/-- Where a red tree fits, a black one of the same height does. -/
theorem Fits.of_red {fs : List (Frame N)} {n : ℕ} (h : Fits fs .red n) : Fits fs .black n := by
  cases h with
  | black hsib hfs => exact .black hsib hfs

/-- The rules do not speak about which node is where. -/
theorem Fits.rename {d : Side} {c c' : Color} {x y : N} {l : RbTree N} {n : ℕ} {fs gs : List (Frame N)}
    (h : Fits (gs ++ ⟨d, c, x, l⟩ :: fs) c' n) : Fits (gs ++ ⟨d, c, y, l⟩ :: fs) c' n := by
  induction gs generalizing c' n with
  | nil =>
    cases h with
    | red hsib hfs => exact .red hsib hfs
    | black hsib hfs => exact .black hsib hfs
  | cons g gs ih =>
    cases h with
    | red hsib hfs => exact .red hsib (ih hfs)
    | black hsib hfs => exact .black hsib (ih hfs)

/-- A tree by the rules, taken apart. -/
theorem Fits.unplug {fs gs : List (Frame N)} {t : RbTree N} {c : Color} {n : ℕ} (hfs : Fits fs c n)
    (h : (RbTree.plug gs t).Balanced c n) : ∃ c' m, Fits (gs ++ fs) c' m ∧ t.Balanced c' m := by
  induction gs generalizing t with
  | nil => exact ⟨c, n, hfs, h⟩
  | cons f gs ih =>
    obtain ⟨c', m, hgs, ht⟩ := ih h
    obtain ⟨d, fc, x, sib⟩ := f
    cases fc with
    | red =>
      obtain ⟨rfl, hnear, hfar⟩ := balanced_sided_red.mp ht
      exact ⟨.black, m, .red hfar hgs, hnear⟩
    | black =>
      obtain ⟨rfl, k, c₁, c₂, rfl, hnear, hfar⟩ := balanced_sided_black.mp ht
      exact ⟨c₁, k, .black hfar hgs, hnear⟩

/-! ## Height -/

def height : RbTree N → ℕ
  | nil => 0
  | node _ l _ r => max l.height r.height + 1

/-- On the longest way down every second node is black, and the black ones above any leaf are as many. -/
theorem Balanced.height_le {t : RbTree N} {c : Color} {n : ℕ} (h : t.Balanced c n) :
    t.height ≤ 2 * n + if c = .red then 1 else 0 := by
  induction h with
  | nil => exact Nat.zero_le _
  | red _ _ ihl ihr =>
    simp only [height, reduceCtorEq, if_false, if_true] at ihl ihr ⊢
    omega
  | black _ _ ihl ihr =>
    simp only [height, reduceCtorEq, if_false] at ihl ihr ⊢
    split at ihl <;> split at ihr <;> omega

theorem Balanced.two_pow_le {t : RbTree N} {c : Color} {n : ℕ} (h : t.Balanced c n) :
    2 ^ n ≤ t.toList.length + 1 := by
  induction h with
  | nil => exact le_rfl
  | red _ _ ihl ihr =>
    rw [toList, List.length_append, List.length_cons]
    omega
  | black _ _ ihl ihr =>
    rw [toList, List.length_append, List.length_cons, Nat.pow_succ]
    omega

theorem Balanced.height_le_log {t : RbTree N} {n : ℕ} (h : t.Balanced .black n) :
    t.height ≤ 2 * Nat.log 2 (t.toList.length + 1) := by
  have hheight := h.height_le
  have hlog := Nat.le_log_of_pow_le Nat.one_lt_two h.two_pow_le
  rw [if_neg (by simp)] at hheight
  omega

end RbTree

end Skp.Foundations
