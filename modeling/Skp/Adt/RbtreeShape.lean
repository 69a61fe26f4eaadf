import Skp.Adt.RbtreeModel

/-! # What the memory holds of a tree

`Shape` says that the records of the nodes are those of a tree, `Hole` those of the frames around a
place. While a rotation is under way the tree is in pieces: single records, whole subtrees and the
frames. `Holds` says what each piece is, and that they share no node, so a write to one piece leaves
the others as they are. -/
namespace Skp.Adt
set_option autoImplicit false
open Skp.Foundations Skp.Foundations.RbTree

variable {N : Type*}

/-! ## Records -/

/-- The record with one child on the given side and another on the other side. -/
def RbtNode.ofSide (p : Option N) (c : Color) (d : Side) (near far : Option N) : RbtNode N :=
  match d with
  | .left => ⟨p, c, near, far⟩
  | .right => ⟨p, c, far, near⟩

section Records
variable (p p' : Option N) (c c' : Color) (d : Side) (near far v : Option N)

@[simp] theorem ofSide_parent : (RbtNode.ofSide p c d near far).parent = p := by cases d <;> rfl
@[simp] theorem ofSide_color : (RbtNode.ofSide p c d near far).color = c := by cases d <;> rfl
@[simp] theorem ofSide_child : (RbtNode.ofSide p c d near far).child d = near := by cases d <;> rfl
@[simp] theorem ofSide_child_other : (RbtNode.ofSide p c d near far).child d.other = far := by cases d <;> rfl

@[simp] theorem ofSide_setChild :
    (RbtNode.ofSide p c d near far).setChild d v = RbtNode.ofSide p c d v far := by
  cases d <;> rfl

@[simp] theorem ofSide_setChild_other :
    (RbtNode.ofSide p c d near far).setChild d.other v = RbtNode.ofSide p c d near v := by cases d <;> rfl

@[simp] theorem ofSide_setParent :
    { RbtNode.ofSide p c d near far with parent := p' } = RbtNode.ofSide p' c d near far := by cases d <;> rfl

@[simp] theorem ofSide_setColor :
    { RbtNode.ofSide p c d near far with color := c' } = RbtNode.ofSide p c' d near far := by cases d <;> rfl

@[simp] theorem ofSide_setParentColor :
    { RbtNode.ofSide p c d near far with parent := p', color := c' } = RbtNode.ofSide p' c' d near far := by
  cases d <;> rfl

end Records

/-! ## Trees and frames in memory -/

def Shape (h : N → RbtNode N) : Option N → RbTree N → Prop
  | _, .nil => True
  | p, .node c l x r => h x = ⟨p, c, l.root, r.root⟩ ∧ Shape h (some x) l ∧ Shape h (some x) r

def Hole (s : RbRoot N) (q : Option N) : List (Frame N) → Prop
  | [] => s.node = q
  | f :: fs => s.heap f.id = RbtNode.ofSide (above fs) f.color f.side q f.sib.root ∧
      Shape s.heap (some f.id) f.sib ∧ Hole s (some f.id) fs

theorem shape_sided {h : N → RbtNode N} {p : Option N} {d : Side} {c : Color} {near far : RbTree N} {x : N} :
    Shape h p (sided d c near x far) ↔
      h x = RbtNode.ofSide p c d near.root far.root ∧ Shape h (some x) near ∧ Shape h (some x) far := by
  cases d with
  | left => exact Iff.rfl
  | right => exact and_congr_right fun _ => and_comm

theorem Shape.congr {h h' : N → RbtNode N} {p : Option N} {t : RbTree N} (ht : Shape h p t)
    (heq : ∀ x, x ∈ t.toList → h' x = h x) : Shape h' p t := by
  induction t generalizing p with
  | nil => trivial
  | node c l x r ihl ihr =>
    refine ⟨?_, ihl ht.2.1 fun y hy => ?_, ihr ht.2.2 fun y hy => ?_⟩
    · rw [heq x (List.mem_append_right _ List.mem_cons_self)]
      exact ht.1
    · exact heq y (List.mem_append_left _ hy)
    · exact heq y (List.mem_append_right _ (List.mem_cons_of_mem x hy))

theorem Hole.congr {s s' : RbRoot N} {q : Option N} {fs : List (Frame N)} (hs : Hole s q fs)
    (hnode : s'.node = s.node)
    (heq : ∀ x, x ∈ frameIds fs → s'.heap x = s.heap x) : Hole s' q fs := by
  induction fs generalizing q with
  | nil => exact hnode.trans hs
  | cons f fs ih =>
    refine ⟨?_, hs.2.1.congr fun y hy => ?_, ih hs.2.2 fun y hy => ?_⟩
    · rw [heq f.id List.mem_cons_self]
      exact hs.1
    · exact heq y (List.mem_append_left _ (List.mem_cons_of_mem f.id hy))
    · exact heq y (List.mem_append_right _ hy)

/-- The node above the hole, when the frames stand below a node. -/
def aboveIn (top : Option N) : List (Frame N) → Option N
  | [] => top
  | f :: _ => some f.id

/-- Frames below a node, with a hole at their lower end. -/
def Seg (h : N → RbtNode N) (top q : Option N) : List (Frame N) → Prop
  | [] => True
  | f :: fs => h f.id = RbtNode.ofSide (aboveIn top fs) f.color f.side q f.sib.root ∧
      Shape h (some f.id) f.sib ∧ Seg h top (some f.id) fs

/-- What the node above the frames points to. -/
def segRoot (q : Option N) : List (Frame N) → Option N
  | [] => q
  | f :: fs => segRoot (some f.id) fs

theorem Seg.congr {h h' : N → RbtNode N} {top q : Option N} {fs : List (Frame N)} (hs : Seg h top q fs)
    (heq : ∀ x, x ∈ frameIds fs → h' x = h x) : Seg h' top q fs := by
  induction fs generalizing q with
  | nil => trivial
  | cons f fs ih =>
    refine ⟨?_, hs.2.1.congr fun y hy => ?_, ih hs.2.2 fun y hy => ?_⟩
    · rw [heq f.id List.mem_cons_self]
      exact hs.1
    · exact heq y (List.mem_append_left _ (List.mem_cons_of_mem f.id hy))
    · exact heq y (List.mem_append_right _ hy)

theorem above_append (fs : List (Frame N)) (g : Frame N) (gs : List (Frame N)) :
    above (fs ++ g :: gs) = aboveIn (some g.id) fs := by
  cases fs <;> rfl

theorem hole_append {s : RbRoot N} {q : Option N} {fs : List (Frame N)} {g : Frame N} {gs : List (Frame N)} :
    Hole s q (fs ++ g :: gs) ↔ Seg s.heap (some g.id) q fs ∧ Hole s (segRoot q fs) (g :: gs) := by
  induction fs generalizing q with
  | nil => exact ⟨fun h => ⟨trivial, h⟩, fun h => h.2⟩
  | cons f fs ih =>
    rw [List.cons_append, Hole, Seg, segRoot, ih, above_append]
    tauto

theorem frameIds_append (fs gs : List (Frame N)) : frameIds (fs ++ gs) = frameIds fs ++ frameIds gs := by
  induction fs with
  | nil => rfl
  | cons f fs ih => simp [frameIds, ih]

/-! ## Pieces -/

inductive Piece (N : Type*) where
  | cell (x : N) (r : RbtNode N)
  | tree (p : Option N) (t : RbTree N)
  | seg (top q : Option N) (fs : List (Frame N))

namespace Piece

def ids : Piece N → List N
  | cell x _ => [x]
  | tree _ t => t.toList
  | seg _ _ fs => frameIds fs

def At (h : N → RbtNode N) : Piece N → Prop
  | cell x r => h x = r
  | tree p t => Shape h p t
  | seg top q fs => Seg h top q fs

theorem At.congr {h h' : N → RbtNode N} {pc : Piece N} (hp : pc.At h) (heq : ∀ x, x ∈ pc.ids → h' x = h x) :
    pc.At h' := by
  cases pc with
  | cell x r => exact (heq x List.mem_cons_self).trans hp
  | tree p t => exact Shape.congr hp heq
  | seg top q fs => exact Seg.congr hp heq

end Piece

structure Holds (s : RbRoot N) (q : Option N) (fs : List (Frame N)) (ps : List (Piece N)) : Prop where
  hole : Hole s q fs
  each : ∀ pc, pc ∈ ps → pc.At s.heap
  nodup : (frameIds fs ++ ps.flatMap Piece.ids).Nodup

section Holds
variable {s s' : RbRoot N} {q : Option N} {fs : List (Frame N)} {ps : List (Piece N)} {i : ℕ}

theorem Holds.at (h : Holds s q fs ps) (i : ℕ) {pc : Piece N} (hi : ps[i]? = some pc) : pc.At s.heap :=
  h.each pc (List.mem_of_getElem? hi)

theorem Holds.cell (h : Holds s q fs ps) (i : ℕ) {x : N} {r : RbtNode N} (hi : ps[i]? = some (.cell x r)) :
    s.heap x = r := h.at i hi

theorem Holds.tree (h : Holds s q fs ps) (i : ℕ) {p : Option N} {t : RbTree N}
    (hi : ps[i]? = some (.tree p t)) :
    Shape s.heap p t := h.at i hi

theorem Holds.disjoint (h : Holds s q fs ps) {i j : ℕ} {pc pc' : Piece N} (hi : ps[i]? = some pc)
    (hj : ps[j]? = some pc')
    (hij : i ≠ j) {x y : N} (hx : x ∈ pc.ids) (hy : y ∈ pc'.ids) : x ≠ y := by
  have hps : (ps.flatMap Piece.ids).Nodup := (List.nodup_append.mp h.nodup).2.1
  have hpair := (List.nodup_flatMap.mp hps).2
  obtain ⟨hi', rfl⟩ := List.getElem?_eq_some_iff.mp hi
  obtain ⟨hj', rfl⟩ := List.getElem?_eq_some_iff.mp hj
  rw [List.pairwise_iff_getElem] at hpair
  rcases Nat.lt_or_gt_of_ne hij with hlt | hlt
  · exact fun heq => hpair i j hi' hj' hlt hx (heq ▸ hy)
  · exact fun heq => hpair j i hj' hi' hlt hy (heq ▸ hx)

theorem Holds.notMem_frames (h : Holds s q fs ps) {pc : Piece N} (hi : ps[i]? = some pc) {x : N}
    (hx : x ∈ pc.ids) :
    x ∉ frameIds fs := by
  intro hfs
  exact (List.nodup_append.mp h.nodup).2.2 x hfs x
    (List.mem_flatMap.mpr ⟨pc, List.mem_of_getElem? hi, hx⟩) rfl

theorem Holds.nodup_at (h : Holds s q fs ps) (i : ℕ) {pc : Piece N} (hi : ps[i]? = some pc) : pc.ids.Nodup :=
  (List.nodup_flatMap.mp (List.nodup_append.mp h.nodup).2.1).1 _ (List.mem_of_getElem? hi)

theorem Holds.replace (h : Holds s q fs ps) {pc pc' : Piece N} (hi : ps[i]? = some pc)
    (hids : pc'.ids = pc.ids)
    (hat : pc'.At s'.heap) (hnode : s'.node = s.node) (hheap : ∀ x, x ∉ pc.ids → s'.heap x = s.heap x) :
    Holds s' q fs (ps.set i pc') where
  hole := by
    apply h.hole.congr hnode
    intro x hx
    exact hheap x fun hpc => h.notMem_frames hi hpc hx
  each := by
    intro pc'' hpc''
    obtain ⟨j, hj⟩ := List.mem_iff_getElem?.mp hpc''
    by_cases hij : i = j
    · subst hij
      rw [List.getElem?_set_self (List.getElem?_eq_some_iff.mp hi).1] at hj
      obtain rfl := Option.some.inj hj
      exact hat
    · rw [List.getElem?_set_ne hij] at hj
      apply (h.at j hj).congr
      intro x hx
      exact hheap x fun hpc => h.disjoint hi hj hij hpc hx rfl
  nodup := by
    have hmap : (ps.set i pc').map Piece.ids = ps.map Piece.ids := by
      rw [List.map_set, hids]
      apply List.ext_getElem?
      intro j
      by_cases hij : i = j
      · subst hij
        have hlt := (List.getElem?_eq_some_iff.mp hi).1
        rw [List.getElem?_set_self (by simpa using hlt), List.getElem?_map, hi]
        rfl
      · rw [List.getElem?_set_ne hij]
    rw [List.flatMap_def, hmap, ← List.flatMap_def]
    exact h.nodup

/-! ## Writes -/

variable [DecidableEq N]

theorem put_heap_ne (s : RbRoot N) {x y : N} (r : RbtNode N) (hne : y ≠ x) : (s.put x r).heap y = s.heap y :=
  Function.update_of_ne hne _ _

theorem put_heap_self (s : RbRoot N) (x : N) (r : RbtNode N) : (s.put x r).heap x = r := by
  rw [RbRoot.put]
  exact Function.update_self x r s.heap

theorem Holds.put (h : Holds s q fs ps) (i : ℕ) {x : N} {r : RbtNode N}
    (hi : ps[i]? = some (.cell x r)) (v : RbtNode N) :
    Holds (s.put x v) q fs (ps.set i (.cell x v)) := by
  refine h.replace hi rfl (put_heap_self s x v) rfl fun y hy => put_heap_ne s v ?_
  exact fun heq => hy (heq ▸ List.mem_cons_self)

theorem Holds.setChild (h : Holds s q fs ps) (i : ℕ) {x : N} {r : RbtNode N}
    (hi : ps[i]? = some (.cell x r)) (d : Side)
    (v : Option N) : Holds (rbSetChild s x d v) q fs (ps.set i (.cell x (r.setChild d v))) := by
  have hput := h.put i hi (r.setChild d v)
  rw [← h.cell i hi] at hput ⊢
  exact hput

theorem Holds.setParentColor (h : Holds s q fs ps) (i : ℕ) {x : N} {r : RbtNode N}
    (hi : ps[i]? = some (.cell x r))
    (p : Option N) (c : Color) :
    Holds (rbSetParentColor s x p c) q fs (ps.set i (.cell x { r with parent := p, color := c })) := by
  have hput := h.put i hi { r with parent := p, color := c }
  rw [← h.cell i hi] at hput ⊢
  exact hput

theorem Holds.setBlack (h : Holds s q fs ps) (i : ℕ) {x : N} {r : RbtNode N}
    (hi : ps[i]? = some (.cell x r)) :
    Holds (rbSetBlack s x) q fs (ps.set i (.cell x { r with color := .black })) := by
  have hput := h.put i hi { r with color := .black }
  rw [← h.cell i hi] at hput ⊢
  exact hput

theorem Holds.repaint (h : Holds s q fs ps) (i : ℕ) {p : Option N} {t : RbTree N}
    (hi : ps[i]? = some (.tree p t)) {x : N}
    (hroot : t.root = some x) (p' : Option N) (c : Color) :
    Holds (rbSetParentColor s x p' c) q fs (ps.set i (.tree p' (t.paint c))) := by
  have hnodup : t.toList.Nodup := h.nodup_at i hi
  have hshape := h.tree i hi
  refine h.replace hi (toList_paint c t) ?_ rfl fun y hy => put_heap_ne s _ ?_
  · cases t with
    | nil => cases hroot
    | node c' l y r =>
      obtain rfl := Option.some.inj hroot
      obtain ⟨hy, hl, hr⟩ := hshape
      rw [toList, List.nodup_append] at hnodup
      refine ⟨?_, hl.congr fun z hz => put_heap_ne s _ ?_, hr.congr fun z hz => put_heap_ne s _ ?_⟩
      · rw [rbSetParentColor, put_heap_self, hy]
      · exact hnodup.2.2 z hz y List.mem_cons_self
      · exact fun heq => (List.nodup_cons.mp hnodup.2.1).1 (heq ▸ hz)
  · exact fun heq => hy (heq ▸ mem_of_root hroot)

theorem Holds.recolor (h : Holds s q fs ps) (i : ℕ) {p : Option N} {t : RbTree N}
    (hi : ps[i]? = some (.tree p t))
    (p' : Option N) (c : Color) :
    Holds (ifNode t.root s fun s x => rbSetParentColor s x p' c) q fs (ps.set i (.tree p' (t.paint c))) := by
  cases hroot : t.root with
  | some x => exact h.repaint i hi hroot p' c
  | none =>
    cases t with
    | nil => exact h.replace hi rfl trivial rfl fun _ _ => rfl
    | node c' l y r => cases hroot

theorem Holds.reparent (h : Holds s q fs ps) (i : ℕ) {p : Option N} {t : RbTree N}
    (hi : ps[i]? = some (.tree p t))
    (p' : Option N) : Holds (ifNode t.root s fun s x => rbSetParent s x p') q fs (ps.set i (.tree p' t)) := by
  cases t with
  | nil => exact h.replace hi rfl trivial rfl fun _ _ => rfl
  | node c l x r =>
    have hx : s.heap x = ⟨p, c, l.root, r.root⟩ := (h.tree i hi).1
    have hpaint := h.repaint i hi rfl p' c
    have heq : rbSetParentColor s x p' c = rbSetParent s x p' := by
      rw [rbSetParentColor, rbSetParent, hx]
    rw [heq] at hpaint
    exact hpaint

theorem Holds.segLink (h : Holds s q fs ps) (i : ℕ) {top q' : Option N} {f : Frame N} {gs : List (Frame N)}
    (hi : ps[i]? = some (.seg top q' (f :: gs))) (new : Option N) :
    Holds (rbSetChild s f.id f.side new) q fs (ps.set i (.seg top new (f :: gs))) := by
  obtain ⟨hf, hsib, hgs⟩ := h.at i hi
  have hnodup : (frameIds (f :: gs)).Nodup := h.nodup_at i hi
  rw [frameIds, List.cons_append, List.nodup_cons] at hnodup
  have hne : ∀ x, x ∈ f.sib.toList ++ frameIds gs → x ≠ f.id := fun x hx heq => hnodup.1 (heq ▸ hx)
  refine h.replace hi rfl ?_ rfl fun x hx => put_heap_ne s _ ?_
  · refine ⟨?_, ?_, ?_⟩
    · rw [rbSetChild, put_heap_self, hf, ofSide_setChild]
    · exact hsib.congr fun x hx => put_heap_ne s _ (hne x (List.mem_append_left _ hx))
    · exact Seg.congr hgs fun x hx => put_heap_ne s _ (hne x (List.mem_append_right _ hx))
  · exact fun heq => hx (heq ▸ List.mem_cons_self)

theorem seg_reparent {gs : List (Frame N)} : ∀ {top q : Option N} {w : N}, Seg s.heap top q gs →
      (frameIds gs).Nodup →
    gs ≠ [] → segRoot q gs = some w → ∀ p, Seg (rbSetParent s w p).heap p q gs ∧ w ∈ frameIds gs := by
  induction gs with
  | nil => exact fun _ _ hne => absurd rfl hne
  | cons g gs ih =>
    intro top q w hseg hnodup _ hw p
    obtain ⟨hg, hsib, hrest⟩ := hseg
    rw [frameIds, List.cons_append, List.nodup_cons] at hnodup
    cases gs with
    | nil =>
      obtain rfl : g.id = w := Option.some.inj hw
      refine ⟨⟨?_, ?_, trivial⟩, List.mem_cons_self⟩
      · rw [rbSetParent, put_heap_self, hg, ofSide_setParent]
        rfl
      · refine hsib.congr fun x hx => put_heap_ne s _ fun heq => hnodup.1 ?_
        exact List.mem_append_left _ (heq ▸ hx)
    | cons g' gs =>
      have hnodup' := (List.nodup_append.mp hnodup.2)
      obtain ⟨hseg', hmem⟩ := ih hrest hnodup'.2.1 (List.cons_ne_nil _ _) hw p
      have hgw : g.id ≠ w := by
        intro heq
        rw [heq] at hnodup
        exact hnodup.1 (List.mem_append_right _ hmem)
      refine ⟨⟨?_, ?_, hseg'⟩, List.mem_append_right _ hmem⟩
      · rw [rbSetParent, put_heap_ne s _ hgw, hg]
        rfl
      · refine hsib.congr fun x hx => put_heap_ne s _ ?_
        exact hnodup'.2.2 x hx w hmem

theorem Holds.segParent (h : Holds s q fs ps) (i : ℕ) {top q' : Option N} {gs : List (Frame N)} {w : N}
    (hi : ps[i]? = some (.seg top q' gs)) (hne : gs ≠ []) (hw : segRoot q' gs = some w) (p : Option N) :
    Holds (rbSetParent s w p) q fs (ps.set i (.seg p q' gs)) := by
  obtain ⟨hseg, hmem⟩ := seg_reparent (h.at i hi) (h.nodup_at i hi) hne hw p
  refine h.replace hi rfl hseg rfl fun x hx => put_heap_ne s _ ?_
  exact fun heq => hx (heq ▸ hmem)

theorem Holds.relink {f : Frame N} (h : Holds s q (f :: fs) ps) (new : Option N) :
    Holds (rbSetChild s f.id f.side new) new (f :: fs) ps := by
  obtain ⟨hf, hsib, hfs⟩ := h.hole
  have hnodup := h.nodup
  rw [frameIds, List.cons_append, List.cons_append, List.nodup_cons, List.append_assoc] at hnodup
  have hne : ∀ x, x ∈ f.sib.toList ++ (frameIds fs ++ ps.flatMap Piece.ids) → x ≠ f.id :=
    fun x hx heq => hnodup.1 (heq ▸ hx)
  rw [rbSetChild, hf, ofSide_setChild]
  refine ⟨⟨put_heap_self s f.id _, ?_, ?_⟩, ?_, h.nodup⟩
  · exact hsib.congr fun x hx => put_heap_ne s _ (hne x (List.mem_append_left _ hx))
  · refine hfs.congr rfl fun x hx => put_heap_ne s _ ?_
    exact hne x (List.mem_append_right _ (List.mem_append_left _ hx))
  · intro pc hpc
    apply (h.each pc hpc).congr
    intro x hx
    have hx' : x ∈ ps.flatMap Piece.ids := List.mem_flatMap.mpr ⟨pc, hpc, hx⟩
    exact put_heap_ne s _ (hne x (List.mem_append_right _ (List.mem_append_right _ hx')))

theorem Holds.changeChild {old : N} (h : Holds s (some old) fs ps)
    (hold : old ∈ ps.flatMap Piece.ids) (new : Option N) :
    Holds (rbChangeChild s old new (above fs)) new fs ps := by
  cases fs with
  | nil => exact ⟨rfl, h.each, h.nodup⟩
  | cons f fs =>
    -- the sibling is another node, so the test finds the right side
    have hsibne : f.sib.root ≠ some old := by
      intro hroot
      refine (List.nodup_append.mp h.nodup).2.2 old ?_ old hold rfl
      exact List.mem_append_left _ (List.mem_cons_of_mem f.id (mem_of_root hroot))
    have hset : rbChangeChild s old new (above (f :: fs)) = rbSetChild s f.id f.side new := by
      simp only [above, rbChangeChild, h.hole.1]
      cases hside : f.side with
      | left => simp [RbtNode.ofSide]
      | right => simp [RbtNode.ofSide, hsibne]
    rw [hset]
    exact h.relink new

/-- `rb_rotate_set_parents`: the new node takes the old one's place and colour and becomes its parent. -/
theorem Holds.rotate {old new : N} {r r' : RbtNode N} (h : Holds s (some old) fs ps) (i j : ℕ) (hij : i ≠ j)
    (hi : ps[i]? = some (.cell old r)) (hj : ps[j]? = some (.cell new r'))
    (hup : r.parent = above fs) (c : Color) :
    Holds (rbRotateSetParents s old new c) (some new) fs
      ((ps.set j (.cell new { r' with parent := above fs, color := r.color })).set i
        (.cell old { r with parent := some new, color := c })) := by
  have hold : s.heap old = r := h.cell i hi
  have hnew := h.put j hj { r' with parent := r.parent, color := r.color }
  have hi' : (ps.set j (.cell new { r' with parent := r.parent, color := r.color }))[i]? =
      some (.cell old r) := by
    rw [List.getElem?_set_ne hij.symm, hi]
  have hcolor := hnew.setParentColor i hi' (some new) c
  have hmem : old ∈ ((ps.set j (.cell new { r' with parent := r.parent, color := r.color })).set i
      (.cell old { r with parent := some new, color := c })).flatMap Piece.ids := by
    rw [List.mem_flatMap]
    refine ⟨.cell old { r with parent := some new, color := c }, ?_, List.mem_cons_self⟩
    exact List.mem_iff_getElem?.mpr ⟨i, List.getElem?_set_self (List.getElem?_eq_some_iff.mp hi').1⟩
  have hchange := hcolor.changeChild hmem (some new)
  rw [hup] at hchange
  rw [rbRotateSetParents, hold, h.cell j hj, hup]
  exact hchange

end Holds

/-! ## The leftmost node

Only the operations that mean to touch it do. -/

section Leftmost
variable (s : RbRoot N)

variable [DecidableEq N]

@[simp] theorem put_leftmost (x : N) (r : RbtNode N) : (s.put x r).leftmost = s.leftmost := rfl
@[simp] theorem rbSetParent_leftmost (x : N) (p : Option N) : (rbSetParent s x p).leftmost = s.leftmost := rfl
@[simp] theorem rbSetBlack_leftmost (x : N) : (rbSetBlack s x).leftmost = s.leftmost := rfl

@[simp] theorem rbSetParentColor_leftmost (x : N) (p : Option N) (c : Color) :
    (rbSetParentColor s x p c).leftmost = s.leftmost := rfl

@[simp] theorem rbSetChild_leftmost (x : N) (d : Side) (v : Option N) :
    (rbSetChild s x d v).leftmost = s.leftmost := rfl

@[simp] theorem rbChangeChild_leftmost (old : N) (new parent : Option N) :
    (rbChangeChild s old new parent).leftmost = s.leftmost := by
  unfold rbChangeChild
  split
  · split <;> rfl
  · rfl

@[simp] theorem rbRotateSetParents_leftmost (old new : N) (c : Color) :
    (rbRotateSetParents s old new c).leftmost = s.leftmost := by
  rw [rbRotateSetParents]
  exact rbChangeChild_leftmost _ _ _ _

omit [DecidableEq N] in
theorem ifNode_leftmost (tmp : Option N) (write : RbRoot N → N → RbRoot N)
    (hwrite : ∀ s x, (write s x).leftmost = s.leftmost) : (ifNode tmp s write).leftmost = s.leftmost := by
  cases tmp with
  | none => rfl
  | some x => exact hwrite s x

end Leftmost

/-! ## A tree and a place in it -/

/-- The memory holds the tree that `t` in the frames `fs` is. -/
def Focus (s : RbRoot N) (fs : List (Frame N)) (t : RbTree N) : Prop := Holds s t.root fs [.tree (above fs) t]

section Focus
variable {s : RbRoot N} {q : Option N} {fs : List (Frame N)} {ps : List (Piece N)} {t : RbTree N}

variable [DecidableEq N]

theorem nodup_of_count {l l' : List N} (h : l.Nodup) (hcount : ∀ x, l'.count x = l.count x) : l'.Nodup :=
  (List.perm_iff_count.mpr hcount).nodup_iff.mpr h

theorem Holds.split (h : Holds s q fs ps) (i : ℕ) {p : Option N} {d : Side} {c : Color}
    {near far : RbTree N} {x : N}
    (hi : ps[i]? = some (.tree p (sided d c near x far))) :
    Holds s q fs (ps.set i (.cell x (RbtNode.ofSide p c d near.root far.root)) ++
      [.tree (some x) near, .tree (some x) far]) := by
  obtain ⟨hx, hnear, hfar⟩ := shape_sided.mp (h.tree i hi)
  refine ⟨h.hole, ?_, ?_⟩
  · intro pc hpc
    rw [List.mem_append] at hpc
    rcases hpc with hpc | hpc
    · rcases List.mem_or_eq_of_mem_set hpc with hpc | rfl
      · exact h.each pc hpc
      · exact hx
    · rw [List.mem_cons, List.mem_singleton] at hpc
      rcases hpc with rfl | rfl
      · exact hnear
      · exact hfar
  · apply nodup_of_count h.nodup
    intro y
    obtain ⟨hlt, hget⟩ := List.getElem?_eq_some_iff.mp hi
    have hparts : ps = ps.take i ++ .tree p (sided d c near x far) :: ps.drop (i + 1) := by
      rw [← hget, ← List.drop_eq_getElem_cons hlt, List.take_append_drop]
    have hset : ps.set i (.cell x (RbtNode.ofSide p c d near.root far.root)) =
        ps.take i ++ .cell x (RbtNode.ofSide p c d near.root far.root) :: ps.drop (i + 1) :=
      List.set_eq_take_append_cons_drop.trans (if_pos hlt)
    rw [hset]
    conv_rhs => rw [hparts]
    cases d with
    | left =>
      simp [Piece.ids, sided, toList, List.count_append, List.count_cons]
      omega
    | right =>
      simp [Piece.ids, sided, toList, List.count_append, List.count_cons]
      omega

theorem Holds.regroup (h : Holds s q fs ps) (ps' : List (Piece N)) (heach : ∀ pc, pc ∈ ps' → pc.At s.heap)
    (hcount : ∀ x, (ps'.flatMap Piece.ids).count x = (ps.flatMap Piece.ids).count x) : Holds s q fs ps' := by
  refine ⟨h.hole, heach, nodup_of_count h.nodup fun x => ?_⟩
  rw [List.count_append, List.count_append, hcount x]

theorem Holds.focus_of_le (h : Holds s q fs ps) (hq : q = t.root) (ht : Shape s.heap (above fs) t)
    (hcount : ∀ x, t.toList.count x ≤ (ps.flatMap Piece.ids).count x) : Focus s fs t := by
  subst hq
  refine ⟨h.hole, ?_, ?_⟩
  · intro pc hpc
    rw [List.mem_singleton.mp hpc]
    exact ht
  · rw [List.nodup_iff_count_le_one]
    intro x
    have hold := List.nodup_iff_count_le_one.mp h.nodup x
    have hle := hcount x
    simp only [List.count_append, Piece.ids, List.flatMap_cons, List.flatMap_nil, List.append_nil] at hold ⊢
    omega

theorem Holds.focus (h : Holds s q fs ps) (hq : q = t.root) (ht : Shape s.heap (above fs) t)
    (hcount : ∀ x, t.toList.count x = (ps.flatMap Piece.ids).count x) : Focus s fs t :=
  h.focus_of_le hq ht fun x => (hcount x).le

omit [DecidableEq N] in
theorem Focus.shape (h : Focus s fs t) : Shape s.heap (above fs) t := Holds.tree h 0 rfl

theorem focus_cons {f : Frame N} : Focus s (f :: fs) t ↔ Focus s fs (sided f.side f.color t f.id f.sib) := by
  have hcount : ∀ x, (frameIds (f :: fs) ++ [Piece.tree (some f.id) t].flatMap Piece.ids).count x =
      (frameIds fs ++ [Piece.tree (above fs) (sided f.side f.color t f.id f.sib)].flatMap
        Piece.ids).count x := by
    intro x
    cases f.side with
    | left =>
      simp [frameIds, Piece.ids, sided, toList, List.count_append, List.count_cons]
      omega
    | right =>
      simp [frameIds, Piece.ids, sided, toList, List.count_append, List.count_cons]
      omega
  constructor
  · intro h
    refine ⟨by rw [root_sided]; exact h.hole.2.2, ?_, nodup_of_count h.nodup fun x => (hcount x).symm⟩
    intro pc hpc
    rw [List.mem_singleton.mp hpc]
    exact shape_sided.mpr ⟨h.hole.1, h.shape, h.hole.2.1⟩
  · intro h
    obtain ⟨hid, hnear, hfar⟩ := shape_sided.mp h.shape
    have hhole := h.hole
    rw [root_sided] at hhole
    refine ⟨⟨hid, hfar, hhole⟩, ?_, nodup_of_count h.nodup hcount⟩
    intro pc hpc
    rw [List.mem_singleton.mp hpc]
    exact hnear

theorem focus_append {gs : List (Frame N)} : Focus s (fs ++ gs) t ↔ Focus s gs (plug fs t) := by
  induction fs generalizing t with
  | nil => exact Iff.rfl
  | cons f fs ih => exact focus_cons.trans ih

theorem focus_plug : Focus s fs t ↔ Focus s [] (plug fs t) := by
  have happ : Focus s (fs ++ []) t ↔ Focus s [] (plug fs t) := focus_append
  rw [List.append_nil] at happ
  exact happ

end Focus

end Skp.Adt
