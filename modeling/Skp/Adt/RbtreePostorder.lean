import Skp.Adt.RbtreeWalk

/-! # The tree with children first

`rbt_first_postorder` and `rbt_next_postorder`. The step from a node looks at the node and at nodes
that are still to come, so the caller of `rbtree_postorder_for_each_entry_safe` may free a node as
soon as the next one is known. -/
namespace Skp.Adt
set_option autoImplicit false
open Skp.Foundations Skp.Foundations.RbTree

variable {N : Type*} [DecidableEq N]

def rbLeftDeepestNode : ℕ → RbRoot N → N → Option N
  | 0, _, _ => none
  | fuel + 1, s, n =>
      match (s.heap n).left with
      | some left => rbLeftDeepestNode fuel s left
      | none =>
          match (s.heap n).right with
          | some right => rbLeftDeepestNode fuel s right
          | none => some n

def rbtNextPostorder (fuel : ℕ) (s : RbRoot N) : Option N → Option (Option N)
  | none => some none
  | some n =>
      match (s.heap n).parent with
      | none => some none
      | some parent =>
          if (s.heap parent).left = some n then
            match (s.heap parent).right with
            | some right => (rbLeftDeepestNode fuel s right).map some
            | none => some (some parent)
          else some (some parent)

def rbtFirstPostorder (fuel : ℕ) (s : RbRoot N) : Option (Option N) :=
  match s.node with
  | none => some none
  | some n => (rbLeftDeepestNode fuel s n).map some

/-- The loop of `rbtree_postorder_for_each_entry_safe` from `pos` on, at most `n` rounds; the body
leaves `body pos` in the record of `pos`. -/
def postorderLoop (fuel : ℕ) (body : N → RbtNode N → RbtNode N) : ℕ → RbRoot N → Option N → Option (List N)
  | _, _, none => some []
  | 0, _, some _ => none
  | n + 1, s, some pos =>
      (rbtNextPostorder fuel s (some pos)).bind fun next =>
        (postorderLoop fuel body n (s.put pos (body pos (s.heap pos))) next).map fun visited => pos :: visited

def postorderForEach (fuel : ℕ) (s : RbRoot N) (body : N → RbtNode N → RbtNode N) : Option (List N) :=
  (rbtFirstPostorder fuel s).bind fun first => postorderLoop fuel body fuel s first

variable {s s' : RbRoot N} {fs : List (Frame N)} {c : Color} {l r t : RbTree N} {p : Option N}
    {x y : N} {xs ys : List N} {fuel : ℕ}

/-! ## One step -/

theorem rbLeftDeepestNode_ok (h : Shape s.heap p t) (hx : t.root = some x)
    (hfuel : t.postorder.length ≤ fuel) :
    ∃ y, rbLeftDeepestNode fuel s x = some y ∧ t.postorder.head? = some y := by
  induction t generalizing fuel p x with
  | nil => cases hx
  | node c l z r ihl ihr =>
    obtain rfl := Option.some.inj hx
    obtain ⟨hrec, hl, hr⟩ := h
    have hlen : (node c l z r).postorder.length = l.postorder.length + r.postorder.length + 1 := by
      simp [postorder]
      omega
    cases fuel with
    | zero => omega
    | succ fuel =>
      rw [rbLeftDeepestNode, hrec, postorder]
      cases hleft : l.root with
      | some a =>
        have hlt : l.postorder.length ≤ fuel := by omega
        obtain ⟨y, hy, hhead⟩ := ihl hl hleft hlt
        have hne : l.postorder ≠ [] := List.ne_nil_of_mem (mem_postorder_of_root hleft)
        exact ⟨y, hy, (List.head?_append_of_ne_nil _ hne).trans hhead⟩
      | none =>
        obtain rfl := eq_nil_of_root hleft
        cases hright : r.root with
        | some a =>
          have hlt : r.postorder.length ≤ fuel := by omega
          obtain ⟨y, hy, hhead⟩ := ihr hr hright hlt
          have hne : r.postorder ≠ [] := List.ne_nil_of_mem (mem_postorder_of_root hright)
          exact ⟨y, hy, (List.head?_append_of_ne_nil _ hne).trans hhead⟩
        | none =>
          obtain rfl := eq_nil_of_root hright
          exact ⟨z, rfl, rfl⟩

theorem rbtNextPostorder_focus (h : Focus s fs (node c l x r))
    (hsame : ∀ y, y ∈ x :: postAfter fs → s'.heap y = s.heap y)
    (hfuel : (postAfter fs).length ≤ fuel) :
    rbtNextPostorder fuel s' (some x) = some (postAfter fs).head? := by
  have hx := hsame x List.mem_cons_self
  rw [h.shape.1] at hx
  cases fs with
  | nil =>
    rw [rbtNextPostorder, hx]
    rfl
  | cons f fs =>
    have hid : s'.heap f.id = s.heap f.id := by
      apply hsame
      exact List.mem_cons_of_mem x (List.mem_append_right _ List.mem_cons_self)
    have hf : s.heap f.id = RbtNode.ofSide (above fs) f.color f.side (some x) f.sib.root := h.hole.1
    rw [hf] at hid
    rw [rbtNextPostorder, hx]
    simp only [above]
    cases hd : f.side with
    | left =>
      rw [hd, RbtNode.ofSide] at hid
      simp only [hid, if_true, postAfter, hd]
      cases hsib : f.sib.root with
      | none =>
        have hnil := eq_nil_of_root hsib
        rw [hnil]
        rfl
      | some z =>
        have hshape : Shape s'.heap (some f.id) f.sib := h.hole.2.1.congr fun y hy => by
          apply hsame
          rw [postAfter, hd]
          exact List.mem_cons_of_mem x (List.mem_append_left _ ((postorder_perm f.sib).mem_iff.mpr hy))
        have hlen : f.sib.postorder.length ≤ fuel := by
          simp only [postAfter, hd, List.length_append] at hfuel
          omega
        obtain ⟨y, hy, hhead⟩ := rbLeftDeepestNode_ok hshape hsib hlen
        have hne : f.sib.postorder ≠ [] := List.ne_nil_of_mem (mem_postorder_of_root hsib)
        simp only [hy, Option.map_some, List.head?_append_of_ne_nil _ hne, hhead]
    | right =>
      have hne : f.sib.root ≠ some x := by
        intro hroot
        apply h.notMem_frames (i := 0) rfl (mem_of_root rfl)
        exact List.mem_append_left _ (List.mem_cons_of_mem f.id (mem_of_root hroot))
      rw [hd, RbtNode.ofSide] at hid
      simp only [hid, if_neg hne, postAfter, hd, List.nil_append, List.head?_cons]

/-! ## The loop -/

theorem postorderLoop_ok (h : Focus s [] t) (body : N → RbtNode N → RbtNode N)
    (hlist : t.postorder = xs ++ ys)
    (hsame : ∀ y, y ∈ ys → s'.heap y = s.heap y) (hfuel : t.postorder.length ≤ fuel) {n : ℕ}
    (hn : ys.length ≤ n) :
    postorderLoop fuel body n s' ys.head? = some ys := by
  have hnodup : t.postorder.Nodup := (postorder_perm t).nodup_iff.mpr h.toList_nodup
  induction ys generalizing xs s' n with
  | nil =>
    rw [List.head?_nil, postorderLoop]
  | cons x ys ih =>
    obtain ⟨n, rfl⟩ := Nat.exists_eq_add_of_le' (Nat.lt_of_lt_of_le (Nat.succ_pos _) hn)
    have hmem : x ∈ t.toList := by
      rw [← (postorder_perm t).mem_iff, hlist]
      exact List.mem_append_right _ List.mem_cons_self
    obtain ⟨fs, c, l, r, rfl⟩ := exists_plug hmem
    have hparts : (plug fs (node c l x r)).postorder =
        (postBefore fs ++ (l.postorder ++ r.postorder)) ++ x :: postAfter fs := by
      rw [postorder_plug, postorder]
      simp
    have heq := hparts.symm.trans hlist
    rw [hparts, List.nodup_append] at hnodup
    have hleft : x ∉ postBefore fs ++ (l.postorder ++ r.postorder) :=
      fun hx => hnodup.2.2 x hx x List.mem_cons_self rfl
    have hright : x ∉ postAfter fs := (List.nodup_cons.mp hnodup.2.1).1
    obtain ⟨-, -, rfl⟩ := (List.append_cons_inj_of_notMem hleft hright).mp heq
    have hlen : (postAfter fs).length ≤ fuel := by
      rw [hlist, List.length_append, List.length_cons] at hfuel
      omega
    have hnext := rbtNextPostorder_focus (focus_plug.mpr h) hsame hlen
    have hrest : postorderLoop fuel body n (s'.put x (body x (s'.heap x))) (postAfter fs).head? =
        some (postAfter fs) := by
      apply ih (hlist.trans (List.append_cons _ _ _))
      · intro y hy
        have hne : y ≠ x := fun hyx => hright (hyx ▸ hy)
        rw [put_heap_ne _ _ hne]
        exact hsame y (List.mem_cons_of_mem x hy)
      · exact Nat.le_of_succ_le_succ hn
    rw [List.head?_cons, postorderLoop, hnext, Option.bind_some, hrest, Option.map_some]

omit [DecidableEq N] in
theorem child_before (h : Shape s.heap p t) (hx : x ∈ t.toList) (d : Side)
    (hchild : (s.heap x).child d = some y) :
    [y, x].Sublist t.postorder := by
  induction t generalizing p with
  | nil => cases hx
  | node c l z r ihl ihr =>
    obtain ⟨hrec, hl, hr⟩ := h
    rw [toList, List.mem_append, List.mem_cons] at hx
    rw [postorder]
    rcases hx with hx | rfl | hx
    · exact (ihl hl hx).trans (List.sublist_append_left _ _)
    · rw [hrec] at hchild
      have hbelow : y ∈ l.postorder ++ r.postorder := by
        cases d with
        | left => exact List.mem_append_left _ (mem_postorder_of_root hchild)
        | right => exact List.mem_append_right _ (mem_postorder_of_root hchild)
      rw [← List.append_assoc]
      exact (List.singleton_sublist.mpr hbelow).append (List.Sublist.refl [x])
    · exact ((ihr hr hx).trans (List.sublist_append_left _ _)).trans (List.sublist_append_right _ _)

theorem rbtFirstPostorder_ok (h : Focus s [] t) (hfuel : t.postorder.length ≤ fuel) :
    rbtFirstPostorder fuel s = some t.postorder.head? := by
  have hnode : s.node = t.root := h.hole
  rw [rbtFirstPostorder, hnode]
  cases hroot : t.root with
  | none =>
    rw [eq_nil_of_root hroot]
    rfl
  | some x =>
    obtain ⟨y, hy, hhead⟩ := rbLeftDeepestNode_ok h.shape hroot hfuel
    simp only [hy, Option.map_some, hhead]

/-- The walk ends with every node visited once and after both of its children, also when the body
frees what it visits. -/
theorem postorder_visits (s : RbRoot N) (t : RbTree N) (fuel : ℕ) (body : N → RbtNode N → RbtNode N)
    (h : Focus s [] t)
    (hfuel : t.toList.length ≤ fuel) :
    ∃ visited, postorderForEach fuel s body = some visited ∧ visited.Nodup ∧
      (∀ x, x ∈ visited ↔ x ∈ t.toList) ∧
      ∀ x d y, x ∈ visited → (s.heap x).child d = some y → [y, x].Sublist visited := by
  have hperm := postorder_perm t
  have hlen : t.postorder.length ≤ fuel := hperm.length_eq.trans_le hfuel
  refine ⟨t.postorder, ?_, hperm.nodup_iff.mpr h.toList_nodup, fun x => hperm.mem_iff, ?_⟩
  · rw [postorderForEach, rbtFirstPostorder_ok h hlen, Option.bind_some]
    exact postorderLoop_ok h body (List.nil_append _).symm (fun y _ => rfl) hlen hlen
  · intro x d y hx hchild
    exact child_before h.shape (hperm.mem_iff.mp hx) d hchild

/-- Three nodes, each cleared when it is visited. -/
theorem postorder_visits_three : ∃ s : RbRoot ℕ, ∃ t : RbTree ℕ, Focus s [] t ∧ t.toList = [1, 2, 3] ∧
    ∃ visited, postorderForEach 3 s (fun x _ => ⟨some x, .red, none, none⟩) = some visited ∧ visited.Nodup ∧
      (∀ x, x ∈ visited ↔ x ∈ t.toList) ∧ ∀ x d y, x ∈ visited → (s.heap x).child d = some y →
        [y, x].Sublist visited := by
  let s : RbRoot ℕ :=
    { heap := fun x => if x = 2 then ⟨none, .black, some 1, some 3⟩ else ⟨some 2, .red, none, none⟩,
      node := some 2, leftmost := some 1 }
  let t : RbTree ℕ := .node .black (.node .red .nil 1 .nil) 2 (.node .red .nil 3 .nil)
  have hfocus : Focus s [] t := by
    refine ⟨rfl, fun pc hpc => ?_, by decide⟩
    rw [List.mem_singleton.mp hpc]
    exact ⟨rfl, ⟨rfl, trivial, trivial⟩, rfl, trivial, trivial⟩
  exact ⟨s, t, hfocus, rfl, postorder_visits s t 3 (fun x _ => ⟨some x, .red, none, none⟩) hfocus (by decide)⟩

end Skp.Adt
