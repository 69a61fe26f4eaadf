import Skp.Algorithm.ListSortModel
import Skp.Foundations.StableMerge
import Skp.Foundations.Walks

/-! # The merges of the list sort

Both merge loops write only the links behind the tail and behind the nodes of the two lists, and
they leave the merge of the lists behind the tail. -/
namespace Skp.Algorithm
set_option autoImplicit false
open Skp.Foundations

variable {N : Type*} {cmp : Comparison N} {s : Links N} {m : Merging N} {a b tail v : Option N}
  {cells cells' : Option N → Option N} {l la lb la' lb' : List N} {head t x y : N} {fuel : ℕ}

/-! ## Two lists to merge -/

/-- Two lists that end, without a node in common, and a tail outside them. -/
structure MergeReady (cells : Option N → Option N) (a b tail : Option N) (la lb : List N) : Prop where
  left : Walk (fun x => cells (some x)) a la none
  right : Walk (fun x => cells (some x)) b lb none
  nodup : (la ++ lb).Nodup
  tail : ∀ x, x ∈ la ++ lb → tail ≠ some x

theorem MergeReady.comm (h : MergeReady cells a b tail la lb) : MergeReady cells b a tail lb la :=
  ⟨h.right, h.left, List.nodup_append_comm.mp h.nodup,
    fun x hx => h.tail x (List.perm_append_comm.mem_iff.mp hx)⟩

variable [DecidableEq N]

/-! ## The links a merge writes -/

/-- The link behind a node, and behind the local head. -/
def Merging.nextOf (m : Merging N) : Option N → Option N
  | none => m.first
  | some x => m.links.next x

theorem nextOf_link (m : Merging N) (tail v : Option N) :
    (m.link tail v).nextOf = Function.update m.nextOf tail v := by
  funext p
  cases tail with
  | none =>
    cases p with
    | none => rfl
    | some x => rfl
  | some t =>
    cases p with
    | none => rfl
    | some x =>
      simp only [Merging.nextOf, Merging.link, Links.setNext, Function.update_apply,
        Option.some.injEq]

def Links.nextOf (s : Links N) : Option N → Option N := Merging.nextOf ⟨s, none⟩

theorem nextOf_setNext (s : Links N) (t : N) (v : Option N) :
    (s.setNext t v).nextOf = Function.update s.nextOf (some t) v :=
  nextOf_link ⟨s, none⟩ (some t) v

theorem nextOf_linkBack (s : Links N) (t x : N) :
    (s.linkBack t x).nextOf = Function.update s.nextOf (some t) (some x) :=
  nextOf_setNext s t (some x)

theorem setPrev_self (s : Links N) (x : N) (v : Option N) : (s.setPrev x v).prev x = v := by
  simp [Links.setPrev]

theorem setPrev_of_ne (h : y ≠ x) (s : Links N) (v : Option N) : (s.setPrev x v).prev y = s.prev y := by
  simp [Links.setPrev, h]

/-! ## One round -/

theorem MergeReady.take_left (h : MergeReady cells (some x) b tail (x :: la) lb) :
    MergeReady (Function.update cells tail (some x)) (Function.update cells tail (some x) (some x))
      b (some x) la lb := by
  have hkeep (y : N) (hy : y ∈ x :: la ++ lb) : Function.update cells tail (some x) (some y) =
      cells (some y) :=
    Function.update_of_ne (h.tail y hy).symm (some x) cells
  have hsub (y : N) (hy : y ∈ la ++ lb) : y ∈ x :: la ++ lb := List.mem_cons_of_mem x hy
  constructor
  · rw [hkeep x List.mem_cons_self]
    exact h.left.2.congr fun y hy => hkeep y (hsub y (List.mem_append_left lb hy))
  · exact h.right.congr fun y hy => hkeep y (hsub y (List.mem_append_right la hy))
  · exact (List.nodup_cons.mp h.nodup).2
  · rintro y hy heq
    cases heq
    exact (List.nodup_cons.mp h.nodup).1 hy

theorem MergeReady.take_right (h : MergeReady cells a (some y) tail la (y :: lb)) :
    MergeReady (Function.update cells tail (some y)) a
      (Function.update cells tail (some y) (some y)) (some y) la lb :=
  h.comm.take_left.comm

/-- The merge of `la` and `lb` is behind `tail`, and the other links are kept. -/
structure Merged (cmp : Comparison N) (cells cells' : Option N → Option N) (tail : Option N)
    (la lb : List N) : Prop where
  walk : Walk (fun x => cells' (some x)) (cells' tail) (cmp.merge la lb) none
  frame : ∀ p, p ≠ tail → (∀ x, x ∈ la ++ lb → p ≠ some x) → cells' p = cells p

theorem Merged.stop (hready : MergeReady cells a b tail la lb)
    (hwalk : Walk (fun x => cells (some x)) v l none)
    (hmerge : cmp.merge la lb = l) : Merged cmp cells (Function.update cells tail v) tail la lb := by
  constructor
  · rw [Function.update_self, hmerge]
    apply hwalk.congr
    intro x hx
    have hmem : x ∈ la ++ lb := (merge_perm cmp la lb).mem_iff.mp (hmerge ▸ hx)
    exact Function.update_of_ne (hready.tail x hmem).symm v cells
  · intro p hp _
    exact Function.update_of_ne hp v cells

/-- The node `x` goes behind the tail and is the next tail. -/
theorem Merged.step (hready : MergeReady cells a b tail la lb)
    (h : Merged cmp (Function.update cells tail (some x)) cells' (some x) la' lb')
    (hmerge : cmp.merge la lb = x :: cmp.merge la' lb') : Merged cmp cells cells' tail la lb := by
  have hmem (y : N) (hy : y ∈ x :: (la' ++ lb')) : y ∈ la ++ lb := by
    rw [← (merge_perm cmp la lb).mem_iff, hmerge]
    exact ((merge_perm cmp la' lb').cons x).mem_iff.mpr hy
  have hx : x ∈ la ++ lb := hmem x List.mem_cons_self
  have hsub (y : N) (hy : y ∈ la' ++ lb') : y ∈ la ++ lb := hmem y (List.mem_cons_of_mem x hy)
  constructor
  · rw [hmerge]
    refine ⟨?_, h.walk⟩
    rw [h.frame tail (hready.tail x hx) fun y hy => hready.tail y (hsub y hy), Function.update_self]
  · intro p hp hout
    rw [h.frame p (hout x hx) fun y hy => hout y (hsub y hy), Function.update_of_ne hp]

/-! ## The merge without back links -/

theorem mergeLoop_ok (cmp : Comparison N) (h : MergeReady m.nextOf a b tail la lb)
    (hfuel : la.length + lb.length < fuel) :
    ∃ m', mergeLoop cmp.run fuel m tail a b = some m' ∧ Merged cmp m.nextOf m'.nextOf tail la lb := by
  induction fuel generalizing m tail a b la lb with
  | zero => exact absurd hfuel (Nat.not_lt_zero _)
  | succ fuel ih =>
    cases la with
    | nil =>
      obtain rfl : a = none := h.left
      refine ⟨m.link tail b, ?_, ?_⟩
      · cases b with
        | none => rfl
        | some y => rfl
      · rw [nextOf_link]
        exact Merged.stop h h.right (merge_nil_left lb)
    | cons x la =>
      obtain rfl : a = some x := h.left.1
      cases lb with
      | nil =>
        obtain rfl : b = none := h.right
        refine ⟨m.link tail (some x), rfl, ?_⟩
        rw [nextOf_link]
        exact Merged.stop h h.left (merge_nil_right (x :: la))
      | cons y lb =>
        obtain rfl : b = some y := h.right.1
        simp only [List.length_cons] at hfuel
        rw [mergeLoop]
        by_cases hle : cmp.run x y ≤ 0
        · have hready := h.take_left
          rw [← nextOf_link] at hready
          obtain ⟨m', hm', hmerged⟩ := ih hready (by simp only [List.length_cons]; omega)
          rw [nextOf_link] at hmerged
          rw [if_pos hle]
          exact ⟨m', hm', Merged.step h hmerged (merge_cons_le hle)⟩
        · have hready := h.take_right
          rw [← nextOf_link] at hready
          obtain ⟨m', hm', hmerged⟩ := ih hready (by simp only [List.length_cons]; omega)
          rw [nextOf_link] at hmerged
          rw [if_neg hle]
          exact ⟨m', hm', Merged.step h hmerged (merge_cons_lt hle)⟩

theorem merge_ok (cmp : Comparison N) (ha : Walk s.next a la none) (hb : Walk s.next b lb none)
    (hnodup : (la ++ lb).Nodup)
    (hfuel : la.length + lb.length < fuel) :
    ∃ m, merge cmp.run fuel s a b = some m ∧ Walk m.links.next m.first (cmp.merge la lb) none ∧
      ∀ x, x ∉ la ++ lb → m.links.next x = s.next x := by
  have hready : MergeReady (Merging.nextOf ⟨s, none⟩) a b none la lb :=
    ⟨ha, hb, hnodup, fun x _ => (Option.some_ne_none x).symm⟩
  obtain ⟨m, hm, hmerged⟩ := mergeLoop_ok cmp hready hfuel
  refine ⟨m, hm, hmerged.walk, ?_⟩
  intro x hx
  apply hmerged.frame (some x) (Option.some_ne_none x)
  rintro y hy heq
  cases heq
  exact hx hy

/-! ## The merge that restores the back links -/

/-- Up to the last tail `t` the merge has its back links. -/
structure MergedBack (cmp : Comparison N) (s s' : Links N) (tail t : N) (la lb done rest : List N) :
    Prop where
  merged : Merged cmp s.nextOf s'.nextOf (some tail) la lb
  split : cmp.merge la lb = done ++ rest
  last : lastFrom tail done = t
  back : Back s'.prev tail done
  nonempty : la ++ lb ≠ [] → rest ≠ []
  frame : ∀ x, x ∉ la ++ lb → s'.prev x = s.prev x

theorem MergedBack.stop (hready : MergeReady s.nextOf a b (some t) la lb) (hwalk : Walk s.next v l none)
    (hmerge : cmp.merge la lb = l) : MergedBack cmp s (s.setNext t v) t t la lb [] l := by
  refine ⟨?_, hmerge, rfl, trivial, ?_, fun _ _ => rfl⟩
  · rw [nextOf_setNext]
    exact Merged.stop hready hwalk hmerge
  · rintro hne rfl
    have hperm := merge_perm cmp la lb
    rw [hmerge] at hperm
    exact hne (List.nil_perm.mp hperm)

theorem MergedBack.step {s' : Links N} {tail : N} {done rest : List N}
    (hready : MergeReady s.nextOf a b (some tail) la lb)
    (h : MergedBack cmp (s.linkBack tail x) s' x t la' lb' done rest)
    (hmerge : cmp.merge la lb = x :: cmp.merge la' lb')
    (hrest : la' ++ lb' ≠ []) : MergedBack cmp s s' tail t la lb (x :: done) rest := by
  have hmerged := h.merged
  rw [nextOf_linkBack] at hmerged
  have hperm : (x :: (la' ++ lb')).Perm (la ++ lb) :=
    (((merge_perm cmp la' lb').cons x).symm.trans (hmerge ▸ List.Perm.refl _)).trans (merge_perm cmp la lb)
  have hx : x ∉ la' ++ lb' := (List.nodup_cons.mp (hperm.nodup_iff.mpr hready.nodup)).1
  refine ⟨Merged.step hready hmerged hmerge, ?_, h.last, ⟨?_, h.back⟩, fun _ => h.nonempty hrest, ?_⟩
  · rw [hmerge, h.split]
    rfl
  · rw [h.frame x hx]
    exact setPrev_self _ x (some tail)
  · intro y hy
    rw [← hperm.mem_iff, List.mem_cons, not_or] at hy
    rw [h.frame y hy.2]
    exact setPrev_of_ne hy.1 _ (some tail)

theorem mergeBackLoop_ok (cmp : Comparison N) (h : MergeReady s.nextOf a b (some x) la lb)
    (hfuel : la.length + lb.length < fuel) :
    ∃ s' t done rest, mergeBackLoop cmp.run fuel s x a b = some (s', t) ∧
      MergedBack cmp s s' x t la lb done rest := by
  induction fuel generalizing s x a b la lb with
  | zero => exact absurd hfuel (Nat.not_lt_zero _)
  | succ fuel ih =>
    cases la with
    | nil =>
      obtain rfl : a = none := h.left
      refine ⟨s.setNext x b, x, [], lb, ?_, MergedBack.stop h h.right (merge_nil_left lb)⟩
      cases b with
      | none => rfl
      | some y => rfl
    | cons y la =>
      obtain rfl : a = some y := h.left.1
      cases lb with
      | nil =>
        obtain rfl : b = none := h.right
        exact ⟨s.setNext x (some y), x, [], y :: la, rfl,
          MergedBack.stop h h.left (merge_nil_right (y :: la))⟩
      | cons z lb =>
        obtain rfl : b = some z := h.right.1
        simp only [List.length_cons] at hfuel
        rw [mergeBackLoop]
        by_cases hle : cmp.run y z ≤ 0
        · have hready := h.take_left
          rw [← nextOf_linkBack] at hready
          obtain ⟨s', t, done, rest, hs', hmerged⟩ := ih hready (by simp only [List.length_cons]; omega)
          rw [if_pos hle]
          exact ⟨s', t, y :: done, rest, hs', hmerged.step h (merge_cons_le hle) (by simp)⟩
        · have hready := h.take_right
          rw [← nextOf_linkBack] at hready
          obtain ⟨s', t, done, rest, hs', hmerged⟩ := ih hready (by simp only [List.length_cons]; omega)
          rw [if_neg hle]
          exact ⟨s', t, z :: done, rest, hs', hmerged.step h (merge_cons_lt hle) (by simp)⟩

theorem backLoop_ok (hwalk : Walk s.next (s.next t) l none) (hl : l ≠ []) (hnodup : l.Nodup)
    (hfuel : l.length ≤ fuel) :
    ∃ s', backLoop fuel s t = some (s', lastFrom t l) ∧ s'.next = s.next ∧ Back s'.prev t l ∧
      ∀ x, x ∉ l → s'.prev x = s.prev x := by
  induction fuel generalizing s t l with
  | zero => exact absurd (List.eq_nil_of_length_eq_zero (Nat.le_zero.mp hfuel)) hl
  | succ fuel ih =>
    cases l with
    | nil => exact absurd rfl hl
    | cons x l =>
      rw [backLoop, hwalk.1, Option.bind_some]
      have hx : x ∉ l := (List.nodup_cons.mp hnodup).1
      by_cases hnext : s.next x = none
      · have hnil : l = [] := walk_nil_iff.mp (hnext ▸ hwalk.2)
        subst hnil
        rw [if_pos hnext]
        refine ⟨s.setPrev x (some t), rfl, rfl, ⟨setPrev_self s x (some t), trivial⟩, ?_⟩
        intro y hy
        exact setPrev_of_ne (List.ne_of_not_mem_cons hy) s (some t)
      · have hne : l ≠ [] := by
          rintro rfl
          exact hnext hwalk.2
        rw [if_neg hnext]
        obtain ⟨s', hs', hnext', hback, hframe⟩ :=
          ih (s := s.setPrev x (some t)) hwalk.2 hne (List.nodup_cons.mp hnodup).2
          (Nat.le_of_succ_le_succ hfuel)
        refine ⟨s', hs', hnext', ⟨?_, hback⟩, ?_⟩
        · rw [hframe x hx]
          exact setPrev_self s x (some t)
        · intro y hy
          rw [hframe y (List.not_mem_of_not_mem_cons hy)]
          exact setPrev_of_ne (List.ne_of_not_mem_cons hy) s (some t)

/-! ## The circular list -/

/-- A circular list: the nodes of `l` in both directions. -/
structure Circular (s : Links N) (head : N) (l : List N) : Prop where
  next : Walk s.next (s.next head) l (some head)
  prev : Back s.prev head (l ++ [head])
  nodup : (head :: l).Nodup

theorem mergeAndRestoreBackLinks_ok (cmp : Comparison N) (ha : Walk s.next a la none)
    (hb : Walk s.next b lb none)
    (hnodup : (head :: (la ++ lb)).Nodup) (hne : la ++ lb ≠ []) (hfuel : la.length + lb.length < fuel) :
    ∃ s', mergeAndRestoreBackLinks cmp.run fuel s head a b = some s' ∧
      Circular s' head (cmp.merge la lb) := by
  have hready : MergeReady s.nextOf a b (some head) la lb := by
    refine ⟨ha, hb, (List.nodup_cons.mp hnodup).2, ?_⟩
    rintro x hx heq
    cases heq
    exact (List.nodup_cons.mp hnodup).1 hx
  have hperm := merge_perm cmp la lb
  have hnodup' : (head :: cmp.merge la lb).Nodup := (hperm.cons head).nodup_iff.mpr hnodup
  have hlength := hperm.length_eq
  obtain ⟨s₁, t, done, rest, hs₁, hback⟩ := mergeBackLoop_ok cmp hready hfuel
  have hwalk₁ : Walk s₁.next (s₁.next head) (cmp.merge la lb) none := hback.merged.walk
  rw [hback.split] at hwalk₁ hnodup' hlength ⊢
  obtain ⟨r, hdone, hrest⟩ := walk_append.mp hwalk₁
  rw [← hdone.next_last, hback.last] at hrest
  have hparts := List.nodup_append.mp (List.nodup_cons.mp hnodup').2
  simp only [List.length_append] at hlength
  obtain ⟨s₂, hs₂, hnext₂, hback₂, hframe₂⟩ :=
    backLoop_ok hrest (hback.nonempty hne) hparts.2.1 (by omega : rest.length ≤ fuel)
  have hlast : lastFrom t rest = lastFrom head (done ++ rest) := by rw [lastFrom_append, hback.last]
  refine ⟨(s₂.setNext (lastFrom t rest) (some head)).setPrev head (some (lastFrom t rest)), ?_,
    ?_, ?_, hnodup'⟩
  · rw [mergeAndRestoreBackLinks, hs₁, Option.bind_some, hs₂, Option.map_some]
  · rw [hlast]
    rw [← hnext₂] at hwalk₁
    exact hwalk₁.set_last hnodup' (some head)
  · rw [back_append, ← hlast]
    refine ⟨?_, setPrev_self _ head _, trivial⟩
    have hback' : Back s₂.prev head (done ++ rest) := by
      rw [back_append, hback.last]
      refine ⟨hback.back.congr fun x hx => hframe₂ x ?_, hback₂⟩
      intro hmem
      exact hparts.2.2 x hx x hmem rfl
    apply hback'.congr
    rintro x hx
    have hhead : x ≠ head := by
      rintro rfl
      exact (List.nodup_cons.mp hnodup').1 hx
    exact setPrev_of_ne hhead _ _

end Skp.Algorithm
