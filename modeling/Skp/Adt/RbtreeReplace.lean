import Skp.Adt.RbtreeRuns
import Skp.Foundations.Walks

/-! # A node in another's place

`rbt_replace_node_cached` gives a node's place to another that compares as it does, without a
rebalance. Among any other calls, the tree stays what it should be, with the new node where the old
one was in the order of insertion as well. -/
namespace Skp.Adt
set_option autoImplicit false
open Skp.Foundations Skp.Foundations.RbTree

variable {N K : Type*}

theorem balanced_plug_rename {fs : List (Frame N)} {c : Color} {l r : RbTree N} {x new : N} {m : ℕ}
    (h : (plug fs (node c l x r)).Balanced .black m) : ∃ m, (plug fs (node c l new r)).Balanced .black m := by
  obtain ⟨c', k, hfits, ht⟩ := Fits.unplug (.root m) h
  rw [List.append_nil] at hfits
  refine hfits.plug (?_ : (node c l new r).Balanced c' k)
  cases ht with
  | red hl hr => exact .red hl hr
  | black hl hr => exact .black hl hr

variable [DecidableEq N]

def rbtReplaceNode (s : RbRoot N) (victim new : N) : RbRoot N :=
  let parent := (s.heap victim).parent
  let s₁ := s.put new (s.heap victim)
  let s₂ := ifNode (s₁.heap victim).left s₁ fun s x => rbSetParent s x (some new)
  let s₃ := ifNode (s₂.heap victim).right s₂ fun s x => rbSetParent s x (some new)
  rbChangeChild s₃ victim (some new) parent

def rbtReplaceNodeCached (s : RbRoot N) (victim new : N) : RbRoot N :=
  if s.leftmost = some victim then { rbtReplaceNode s victim new with leftmost := some new }
    else rbtReplaceNode s victim new

/-! ## The tree after it -/

section Replace
variable {s : RbRoot N} {q : Option N} {fs : List (Frame N)} {ps : List (Piece N)} {c : Color}
    {l r t : RbTree N} {x new : N}

theorem Holds.adopt (h : Holds s q fs ps) (hx : new ∉ frameIds fs ++ ps.flatMap Piece.ids) (v : RbtNode N) :
    Holds (s.put new v) q fs (.cell new v :: ps) where
  hole := h.hole.congr rfl fun y hy => put_heap_ne s v fun heq => hx (heq ▸ List.mem_append_left _ hy)
  each := by
    intro pc hpc
    rcases List.mem_cons.mp hpc with rfl | hpc
    · exact put_heap_self s new v
    · refine (h.each pc hpc).congr fun y hy => put_heap_ne s v fun heq => hx (heq ▸ ?_)
      exact List.mem_append_right _ (List.mem_flatMap.mpr ⟨pc, hpc, hy⟩)
  nodup := by
    rw [List.flatMap_cons]
    have hperm : (frameIds fs ++ new :: ps.flatMap Piece.ids).Perm
        (new :: (frameIds fs ++ ps.flatMap Piece.ids)) := List.perm_middle
    exact hperm.nodup_iff.mpr (List.nodup_cons.mpr ⟨hx, h.nodup⟩)

theorem rbtReplaceNode_focus (h : Focus s fs (node c l x r))
    (hnew : new ∉ frameIds fs ++ (node c l x r).toList) :
    Focus (rbtReplaceNode s x new) fs (node c l new r) := by
  have hrec : s.heap x = ⟨above fs, c, l.root, r.root⟩ := h.shape.1
  have hxn : x ≠ new := by
    rintro rfl
    exact hnew (List.mem_append_right _ (mem_of_root rfl))
  have hsplit := h.split 0 (d := .left) rfl
  have hids : ∀ y, y ∈ [Piece.cell x (RbtNode.ofSide (above fs) c .left l.root r.root),
      .tree (some x) l, .tree (some x) r].flatMap Piece.ids ↔
      y ∈ (node c l x r).toList := by
    intro y
    simp [Piece.ids, toList]
    tauto
  have hadopt := hsplit.adopt (by
    rw [List.mem_append] at hnew ⊢
    exact fun hy => hnew (hy.imp id (hids new).mp)) (s.heap x)
  have hleft := hadopt.reparent 2 rfl (some new)
  have hright := hleft.reparent 3 rfl (some new)
  have hlink : ((s.put new (s.heap x)).heap x).left = l.root := by rw [put_heap_ne s _ hxn, hrec]
  have hrlink : ((ifNode l.root (s.put new (s.heap x)) fun s y => rbSetParent s y (some new)).heap
      x).right = r.root := by
    rw [hleft.cell 1 rfl]
    rfl
  have hchange := hright.changeChild (by simp [Piece.ids] : x ∈ _) (some new)
  have heq : rbtReplaceNode s x new =
      rbChangeChild
      (ifNode r.root (ifNode l.root (s.put new (s.heap x)) fun s y => rbSetParent s y (some new))
      fun s y => rbSetParent s y (some new)) x (some new) (above fs) := by
    rw [rbtReplaceNode, hlink, hrlink, hrec]
  rw [← heq] at hchange
  refine hchange.focus_of_le rfl ⟨?_, hchange.tree 2 rfl, hchange.tree 3 rfl⟩ fun y => ?_
  · exact (hchange.cell 0 rfl).trans hrec
  · simp [Piece.ids, toList, List.count_append, List.count_cons]
    omega

/-- Nothing tells the two nodes apart. -/
structure Alike (ops : RbtreeOps N K) (x y : N) : Prop where
  left : ∀ a, ops.compareNode x a = ops.compareNode y a
  right : ∀ a, ops.compareNode a x = ops.compareNode a y

variable {ops : RbtreeOps N K} {xs ins : List N}

theorem Holding.replace (h : Holding ops xs ins) (halike : Alike ops new x) :
    Holding ops (xs.map fun w => if w = x then new else w) (ins.map fun w => if w = x then new else w) := by
  have hleft : ∀ w a, ops.compareNode (if w = x then new else w) a = ops.compareNode w a := by
    intro w a
    split
    · subst w
      exact halike.left a
    · rfl
  have hright : ∀ w a, ops.compareNode a (if w = x then new else w) = ops.compareNode a w := by
    intro w a
    split
    · subst w
      exact halike.right a
    · rfl
  refine ⟨?_, h.perm.map _, fun a => ?_⟩
  · rw [Sorted, List.pairwise_map]
    exact h.sorted.imp fun {u v} huv => by rw [hleft, hright]; exact huv
  · have hfilter : ∀ zs : List N, (zs.map fun w => if w = x then new else w).filter
      (fun w => decide (ops.compareNode w a = 0)) =
        (zs.filter fun w => decide (ops.compareNode w a = 0)).map fun w => if w = x then new else w := by
      intro zs
      rw [List.filter_map]
      refine congrArg _ (List.filter_congr fun w _ => ?_)
      simp only [Function.comp_apply, hleft]
    rw [hfilter, hfilter, h.stable a]

theorem RbInv.replace (h : RbInv ops s ins t) (hx : x ∈ ins) (hnew : new ∉ ins) (halike : Alike ops new x) :
    ∃ t', RbInv ops (rbtReplaceNodeCached s x new) (ins.map fun w => if w = x then new else w) t' := by
  obtain ⟨fs, c, l, r, rfl⟩ := exists_plug (h.holding.perm.mem_iff.mpr hx)
  have hnodup := h.focus.toList_nodup
  have hlist : (plug fs (node c l x r)).toList = (before fs ++ l.toList) ++ x :: (r.toList ++ after fs) := by
    simp [toList_plug, toList]
  have hlist' : (plug fs (node c l new r)).toList = (plug fs (node c l x r)).toList.map fun w =>
    if w = x then new else w := by
    rw [hlist] at hnodup
    rw [hlist, map_replace (by grind) (by grind)]
    simp [toList_plug, toList]
  have hfocus : Focus s fs (node c l x r) := focus_plug.mpr h.focus
  have hout : new ∉ frameIds fs ++ (node c l x r).toList := by
    intro hmem
    refine hnew (h.holding.perm.mem_iff.mp ?_)
    rw [toList_plug]
    rcases List.mem_append.mp hmem with hmem | hmem
    · rcases mem_frameIds.mp hmem with hmem | hmem
      · exact List.mem_append_left _ (List.mem_append_left _ hmem)
      · exact List.mem_append_right _ hmem
    · exact List.mem_append_left _ (List.mem_append_right _ hmem)
  have hfocus' := focus_plug.mp (rbtReplaceNode_focus hfocus hout)
  obtain ⟨m, hbal⟩ := h.balanced
  have hhead : (if s.leftmost = some x then some new else s.leftmost) =
      (plug fs (node c l new r)).toList.head? := by
    rw [hlist', List.head?_map, ← h.leftmost]
    cases s.leftmost with
    | none => rfl
    | some y =>
      by_cases hy : y = x
      · rw [if_pos (congrArg some hy), Option.map_some, if_pos hy]
      · rw [if_neg fun heq => hy (Option.some.inj heq), Option.map_some, if_neg hy]
  have hleft : (rbtReplaceNode s x new).leftmost = s.leftmost := by
    have hparent : ∀ (s : RbRoot N) (tmp : Option N),
        (ifNode tmp s fun s x => rbSetParent s x (some new)).leftmost = s.leftmost :=
      fun s tmp => ifNode_leftmost s tmp _ fun _ _ => rfl
    rw [rbtReplaceNode, rbChangeChild_leftmost, hparent, hparent, put_leftmost]
  have hroot : ∀ lm, Focus { rbtReplaceNode s x new with leftmost := lm } []
      (plug fs (node c l new r)) := fun _ =>
    ⟨hfocus'.hole, hfocus'.each, hfocus'.nodup⟩
  refine ⟨plug fs (node c l new r), ?_, balanced_plug_rename hbal, ?_, ?_⟩
  · rw [rbtReplaceNodeCached]
    split
    · exact hroot _
    · exact hfocus'
  · rw [hlist']
    exact h.holding.replace halike
  · rw [← hhead, rbtReplaceNodeCached]
    split
    · rfl
    · exact hleft

end Replace

/-! ## Runs -/

/-- A call of the tree's interface, or a replacement. -/
inductive RbUse (N K : Type*) where
  | call (c : RbCall N K)
  | replace (victim new : N)

section Uses
variable (ops : RbtreeOps N K)

def rbUse (fuel : ℕ) (s : RbRoot N) : RbUse N K → Option (RbRoot N)
  | .call c => (rbCall ops fuel s c).map Prod.fst
  | .replace victim new => some (rbtReplaceNodeCached s victim new)

def rbUses (fuel : ℕ) : RbRoot N → List (RbUse N K) → Option (RbRoot N)
  | s, [] => some s
  | s, use :: uses => (rbUse ops fuel s use).bind fun s => rbUses fuel s uses

def linkedUse (ins : List N) : RbUse N K → List N
  | .call c => linked ops ins c
  | .replace victim new => ins.map fun w => if w = victim then new else w

def allowedUse (ins : List N) : RbUse N K → Prop
  | .call c => allowed ins c
  | .replace victim new => victim ∈ ins ∧ new ∉ ins ∧ Alike ops new victim

def allAllowedUses : List N → List (RbUse N K) → Prop
  | _, [] => True
  | ins, use :: uses => allowedUse ops ins use ∧ allAllowedUses (linkedUse ops ins use) uses

variable {ops} {s : RbRoot N} {ins : List N} {t : RbTree N} {fuel : ℕ}

theorem rbUse_ok (hops : CompareOk ops) (h : RbInv ops s ins t) {use : RbUse N K}
    (hallowed : allowedUse ops ins use)
    (hfuel : ins.length < fuel) :
    ∃ s' t', rbUse ops fuel s use = some s' ∧ RbInv ops s' (linkedUse ops ins use) t' := by
  cases use with
  | call c =>
    obtain ⟨s', out, t', hcall, hinv⟩ := rbCall_ok hops h hallowed hfuel
    exact ⟨s', t', by rw [rbUse, hcall]; rfl, hinv⟩
  | replace victim new =>
    obtain ⟨t', hinv⟩ := h.replace hallowed.1 hallowed.2.1 hallowed.2.2
    exact ⟨_, t', rfl, hinv⟩

theorem linkedUse_length (ins : List N) (use : RbUse N K) :
    (linkedUse ops ins use).length ≤ ins.length + 1 := by
  cases use with
  | call c => exact linked_length ops ins c
  | replace victim new => rw [linkedUse, List.length_map]; exact Nat.le_succ _

theorem rbUses_inv (hops : CompareOk ops) (uses : List (RbUse N K)) :
    ∀ (s : RbRoot N) (ins : List N) (t : RbTree N), RbInv ops s ins t →
    allAllowedUses ops ins uses → ins.length + uses.length < fuel →
      ∃ s' t', rbUses ops fuel s uses = some s' ∧ RbInv ops s' (uses.foldl (linkedUse ops) ins) t' ∧
        (uses.foldl (linkedUse ops) ins).length < fuel := by
  induction uses with
  | nil => exact fun s ins t h _ hfuel => ⟨s, t, rfl, h, hfuel⟩
  | cons use uses ih =>
    intro s ins t h hall hfuel
    rw [List.length_cons] at hfuel
    obtain ⟨s', t', huse, hinv⟩ := rbUse_ok hops h hall.1 (by omega : ins.length < fuel)
    have hlen : (linkedUse ops ins use).length ≤ ins.length + 1 := linkedUse_length ins use
    obtain ⟨s'', t'', huses, hrest⟩ := ih s' _ t' hinv hall.2 (by omega)
    exact ⟨s'', t'', by rw [rbUses, huse]; exact huses, hrest⟩

end Uses

/-- After any calls and replacements of nodes by others that compare alike: all of them return, and
the tree is what it should be, with the new nodes in the places of the old ones. -/
theorem rbtree_replace_ok (ops : RbtreeOps N K) (hops : CompareOk ops) (heap : N → RbtNode N)
    (uses : List (RbUse N K))
    (hallowed : allAllowedUses ops [] uses) (fuel : ℕ) (hfuel : uses.length < fuel) :
    ∃ s, rbUses ops fuel (rbInit heap) uses = some s ∧
      RbtreeOk ops fuel s (uses.foldl (linkedUse ops) []) := by
  have hlt : ([] : List N).length + uses.length < fuel := by
    rw [List.length_nil]
    omega
  obtain ⟨s, t, huses, hinv, hlen⟩ :=
    rbUses_inv hops uses (rbInit heap) [] nil (rbInv_init ops heap) hallowed hlt
  exact ⟨s, huses, hinv.ok hops hlen⟩

/-- 6 has the half of 7 and takes its place. -/
def replaceUses : List (RbUse ℕ ℕ) :=
  [.call (.insert 7), .call (.insert 2), .call (.multiInsert 3), .replace 7 6,
    .call (.removeNode 2)]

theorem rbtree_replace_ok_witness : replaceUses.foldl (linkedUse halfOps) [] = [6, 3] ∧
    ∃ s, rbUses halfOps 6 (rbInit fun _ => ⟨none, .red, none, none⟩) replaceUses = some s ∧
      RbtreeOk halfOps 6 s (replaceUses.foldl (linkedUse halfOps) []) := by
  have hops : CompareOk halfOps := by
    constructor <;> simp only [halfOps] <;> omega
  have hallowed : allAllowedUses halfOps [] replaceUses := by
    refine ⟨?_, ?_, ?_, ⟨by decide, by decide, fun a => ?_, fun a => ?_⟩, ?_, trivial⟩
    · show 7 ∉ []
      decide
    · show 2 ∉ _
      decide
    · show 3 ∉ _
      decide
    · simp only [halfOps]
      omega
    · simp only [halfOps]
      omega
    · show 2 ∈ _
      decide
  exact ⟨by decide, rbtree_replace_ok halfOps hops _ replaceUses hallowed 6 (by decide)⟩

end Skp.Adt
