import Mathlib

/-! # Lists whose neighbours are tied together

An entry of a list may be tied to the one behind it, and a maximal run of tied entries with the
entry that ends it is moved as one. `ListPath R p l n` says that the relation `R` holds between all
neighbours of the list `l` when `p` stands before it and `n` behind it, `none` being the list's end;
`Link` is the relation for ties that must lead to an entry of the same group and for entries that
need the one before them. -/
namespace Skp.Foundations
set_option autoImplicit false

section Paths
variable {α : Type*}

def ListPath (R : Option α → Option α → Prop) : Option α → List α → Option α → Prop
  | p, [], n => R p n
  | p, x :: l, n => R p (some x) ∧ ListPath R (some x) l n

/-- The last entry of `l`, or what stands before it. -/
def lastOr (p : Option α) : List α → Option α
  | [] => p
  | x :: l => lastOr (some x) l

/-- The first entry of `l`, or what stands behind it. -/
def headOr (n : Option α) : List α → Option α
  | [] => n
  | x :: _ => some x

variable {R R' : Option α → Option α → Prop} {p m m' n : Option α} {a b l : List α} {x : α}

theorem path_append_cons : ListPath R p (a ++ x :: b) n ↔ ListPath R p a (some x) ∧
      ListPath R (some x) b n := by
  induction a generalizing p with
  | nil => exact Iff.rfl
  | cons y a ih =>
    simp only [List.cons_append, ListPath, ih]
    exact and_assoc.symm

theorem ListPath.last (h : ListPath R p a n) : R (lastOr p a) n := by
  induction a generalizing p with
  | nil => exact h
  | cons y a ih => exact ih h.2

theorem ListPath.head (h : ListPath R p a n) : R p (headOr n a) := by
  cases a with
  | nil => exact h
  | cons y a => exact h.1

/-- What stands before a list may be exchanged when the first pair still holds. -/
theorem ListPath.before (h : ListPath R m b n) (hr : R p (headOr n b)) : ListPath R p b n := by
  cases b with
  | nil => exact hr
  | cons y b => exact ⟨hr, h.2⟩

theorem ListPath.join (ha : ListPath R p a m) (hb : ListPath R m' b n) (hr : R (lastOr p a) (headOr n b)) :
    ListPath R p (a ++ b) n := by
  induction a generalizing p with
  | nil => exact hb.before hr
  | cons y a ih => exact ⟨ha.1, ih ha.2 hr⟩

theorem ListPath.imp (h : ListPath R p l n)
    (himp : ∀ u v, (∀ x ∈ u, some x = p ∨ x ∈ l) → (∀ x ∈ v, some x = n ∨ x ∈ l) →
    R u v → R' u v) : ListPath R' p l n := by
  induction l generalizing p with
  | nil =>
    refine himp p n ?_ ?_ h
    · exact fun x hx => Or.inl (Option.mem_def.mp hx).symm
    · exact fun x hx => Or.inl (Option.mem_def.mp hx).symm
  | cons y l ih =>
    refine ⟨?_, ih h.2 ?_⟩
    · refine himp p (some y) ?_ ?_ h.1
      · exact fun x hx => Or.inl (Option.mem_def.mp hx).symm
      · intro x hx
        cases hx
        exact Or.inr List.mem_cons_self
    · intro u v hu hv
      refine himp u v ?_ ?_
      · intro x hx
        rcases hu x hx with hx | hx
        · cases hx
          exact Or.inr List.mem_cons_self
        · exact Or.inr (List.mem_cons_of_mem y hx)
      · intro x hx
        exact (hv x hx).imp id (List.mem_cons_of_mem y)

/-- A list cut at the first occurrence of `x`. -/
theorem exists_cut_at [DecidableEq α] (h : x ∈ l) :
    ∃ a b, l = a ++ x :: b ∧ x ∉ a ∧ (l.takeWhile fun y => decide (y ≠ x)) = a ∧
      (l.dropWhile fun y => decide (y ≠ x)) = x :: b := by
  induction l with
  | nil => cases h
  | cons z l ih =>
    by_cases hz : z = x
    · exact ⟨[], l, by simp [hz], by simp, by simp [hz], by simp [hz]⟩
    · obtain ⟨a, b, he, hxa, ht, hd⟩ := ih ((List.mem_cons.mp h).resolve_left (Ne.symm hz))
      refine ⟨z :: a, b, ?_, ?_, ?_, ?_⟩
      · rw [he, List.cons_append]
      · exact fun hm => (List.mem_cons.mp hm).elim (fun hx => hz hx.symm) hxa
      · rw [List.takeWhile_cons_of_pos (by simp [hz]), ht]
      · rw [List.dropWhile_cons_of_pos (by simp [hz]), hd]

end Paths

section Link
variable {α : Type*}

/-- The first run of tied entries with the entry that ends it, and what is behind it. -/
def splitRun (tied : α → Bool) : List α → List α × List α
  | [] => ([], [])
  | x :: l => if tied x then (x :: (splitRun tied l).1, (splitRun tied l).2) else ([x], l)

/-- A tied entry is followed by one of its group, and an entry that needs it is preceded by a tied one. -/
def Link (tied : α → Bool) (same : α → α → Prop) (needs : α → Prop) (u v : Option α) : Prop :=
  (∀ x, u = some x → tied x = true → ∃ y, v = some y ∧ same x y) ∧
    ∀ y, v = some y → needs y → ∃ x, u = some x ∧ tied x = true ∧ same x y

variable {tied : α → Bool} {same : α → α → Prop} {needs : α → Prop} {u v p : Option α}
    {a b l : List α} {x y : α}

/-- Between an untied entry and one that needs nothing the list can be cut and joined. -/
theorem link_of_gap (hu : ∀ x, u = some x → tied x = false) (hv : ∀ y, v = some y → ¬ needs y) :
    Link tied same needs u v := by
  refine ⟨?_, ?_⟩
  · intro x hx ht
    rw [hu x hx] at ht
    exact Bool.noConfusion ht
  · exact fun y hy hn => absurd hn (hv y hy)

theorem Link.untied_of_none (h : Link tied same needs (some x) none) : tied x = false := by
  refine Bool.eq_false_iff.mpr fun ht => ?_
  obtain ⟨y, hy, -⟩ := h.1 x rfl ht
  cases hy

theorem Link.no_need_of_none (h : Link tied same needs none (some y)) : ¬ needs y := by
  intro hn
  obtain ⟨x, hx, -⟩ := h.2 y rfl hn
  cases hx

theorem Link.no_need_of_untied (h : Link tied same needs (some x) v) (hx : tied x = false) :
    ∀ y, v = some y → ¬ needs y := by
  intro y hy hn
  obtain ⟨z, hz, ht, -⟩ := h.2 y hy hn
  cases hz
  rw [hx] at ht
  exact Bool.noConfusion ht

theorem splitRun_append (l : List α) : (splitRun tied l).1 ++ (splitRun tied l).2 = l := by
  induction l with
  | nil => rfl
  | cons x l ih =>
    by_cases hx : tied x = true
    · simp only [splitRun, if_pos hx, List.cons_append, ih]
    · simp only [splitRun, if_neg hx, List.cons_append, List.nil_append]

theorem splitRun_sublist (l : List α) : (splitRun tied l).1.Sublist l := by
  have h := List.sublist_append_left (splitRun tied l).1 (splitRun tied l).2
  rwa [splitRun_append] at h

theorem mem_splitRun_head (x : α) (l : List α) : x ∈ (splitRun tied (x :: l)).1 := by
  by_cases hx : tied x = true
  · simp [splitRun, hx]
  · simp [splitRun, hx]

theorem splitRun_congr {tied' : α → Bool} (h : ∀ x ∈ l, tied' x = tied x) :
    splitRun tied' l = splitRun tied l := by
  induction l with
  | nil => rfl
  | cons x l ih =>
    rw [splitRun, splitRun, h x List.mem_cons_self, ih fun y hy => h y (List.mem_cons_of_mem x hy)]

/-- Cutting a list behind its first run leaves two well tied lists. -/
theorem path_splitRun (h : ListPath (Link tied same needs) p l none) (hne : l ≠ []) :
    ListPath (Link tied same needs) p (splitRun tied l).1 none ∧
      ListPath (Link tied same needs) none (splitRun tied l).2 none := by
  induction l generalizing p with
  | nil => exact absurd rfl hne
  | cons x l ih =>
    by_cases hx : tied x = true
    · have hl : l ≠ [] := by
        rintro rfl
        rw [Link.untied_of_none h.2] at hx
        exact Bool.noConfusion hx
      obtain ⟨h1, h2⟩ := ih h.2 hl
      simp only [splitRun, if_pos hx]
      exact ⟨⟨h.1, h1⟩, h2⟩
    · have hx' : tied x = false := Bool.eq_false_iff.mpr hx
      have hhead := Link.no_need_of_untied h.2.head hx'
      simp only [splitRun, if_neg hx]
      refine ⟨⟨h.1, link_of_gap ?_ (by simp)⟩, h.2.before (link_of_gap (by simp) hhead)⟩
      intro y hy
      cases hy
      exact hx'

/-- The same list with other ties, groups and needs: what changes must not concern its entries, and fewer
entries may need the one before them. -/
theorem ListPath.relink {tied' : α → Bool} {same' : α → α → Prop} {needs' : α → Prop}
    (h : ListPath (Link tied same needs) p l v) (ht : ∀ x, some x = p ∨ x ∈ l → tied' x = tied x)
    (hs : ∀ x y, some x = p ∨ x ∈ l → some y = v ∨ y ∈ l → same x y → same' x y)
    (hn : ∀ y, some y = v ∨ y ∈ l → needs' y → needs y) : ListPath (Link tied' same' needs') p l v := by
  refine h.imp ?_
  intro u w hu hw hr
  refine ⟨?_, ?_⟩
  · intro x hx htx
    rw [ht x (hu x hx)] at htx
    obtain ⟨y, hy, hxy⟩ := hr.1 x hx htx
    exact ⟨y, hy, hs x y (hu x hx) (hw y hy) hxy⟩
  · intro y hy hny
    obtain ⟨x, hx, htx, hxy⟩ := hr.2 y hy (hn y (hw y hy) hny)
    refine ⟨x, hx, ?_, hs x y (hu x hx) (hw y hy) hxy⟩
    rw [ht x (hu x hx)]
    exact htx

theorem ListPath.untied_last (h : ListPath (Link tied same needs) p l none) :
    ∀ x, lastOr p l = some x → tied x = false := by
  intro x hx
  have hl := h.last
  rw [hx] at hl
  exact hl.untied_of_none

theorem ListPath.no_need_head (h : ListPath (Link tied same needs) none l v) :
    ∀ y, headOr v l = some y → ¬ needs y := by
  intro y hy
  have hh := h.head
  rw [hy] at hh
  exact hh.no_need_of_none

theorem ListPath.concat (ha : ListPath (Link tied same needs) none a none)
    (hb : ListPath (Link tied same needs) none b none) :
    ListPath (Link tied same needs) none (a ++ b) none :=
  ha.join hb (link_of_gap ha.untied_last hb.no_need_head)

/-- Taking the run that starts at `x` out of the list, when no entry before it leads to `x`. -/
theorem path_cut (h : ListPath (Link tied same needs) none (a ++ x :: b) none)
    (ha : ∀ z, lastOr none a = some z → tied z = false) :
    ListPath (Link tied same needs) none (splitRun tied (x :: b)).1 none ∧
      ListPath (Link tied same needs) none (a ++ (splitRun tied (x :: b)).2) none := by
  obtain ⟨h1, h2⟩ := path_append_cons.mp h
  have hx : ¬ needs x := by
    intro hn
    obtain ⟨z, hz, ht, -⟩ := h1.last.2 x rfl hn
    rw [ha z hz] at ht
    exact Bool.noConfusion ht
  have hnone : ListPath (Link tied same needs) none (x :: b) none := by
    refine ⟨link_of_gap (by simp) ?_, h2⟩
    intro y hy
    cases hy
    exact hx
  obtain ⟨hrun, hrest⟩ := path_splitRun hnone (List.cons_ne_nil x b)
  exact ⟨hrun, h1.join hrest (link_of_gap ha hrest.no_need_head)⟩

/-- Taking `x` alone out of the list, when no entry before it leads to `x` and none it leads to needs it. -/
theorem path_remove (h : ListPath (Link tied same needs) none (a ++ x :: b) none)
    (ha : ∀ z, lastOr none a = some z → tied z = false) (hb : ∀ y, tied x = true → same x y → ¬ needs y) :
    ListPath (Link tied same needs) none (a ++ b) none := by
  obtain ⟨h1, h2⟩ := path_append_cons.mp h
  refine h1.join h2 (link_of_gap ha ?_)
  intro y hy hn
  have hh := h2.head
  rw [hy] at hh
  obtain ⟨z, hz, ht, hsame⟩ := hh.2 y rfl hn
  cases hz
  exact hb y ht hsame hn

/-- Putting an entry in front of the list. -/
theorem path_cons (h : ListPath (Link tied same needs) none l none) (ht : tied x = false) (hn : ¬ needs x) :
    ListPath (Link tied same needs) none (x :: l) none := by
  refine ⟨link_of_gap (by simp) ?_, h.before (link_of_gap ?_ h.no_need_head)⟩
  · intro y hy
    cases hy
    exact hn
  · intro y hy
    cases hy
    exact ht

/-- Putting `y` behind `x`: `x` becomes tied and `y` takes over the tie that `x` had. -/
theorem path_insert_behind {tied' : α → Bool} {needs' : α → Prop}
    (h : ListPath (Link tied same needs) none (a ++ x :: b) none)
    (hother : ∀ z, z ∈ a ∨ z ∈ b → tied' z = tied z ∧ (needs' z → needs z))
    (hx : tied' x = true) (hxn : needs' x → needs x) (hy : tied' y = tied x) (hxy : same x y)
    (hsame : ∀ z, same x z ↔ same y z) :
    ListPath (Link tied' same needs') none (a ++ x :: y :: b) none := by
  obtain ⟨h1, h2⟩ := path_append_cons.mp h
  refine path_append_cons.mpr ⟨?_, ?_, ?_⟩
  · refine h1.relink (fun z hz => ?_) (fun _ _ _ _ hs => hs) (fun z hz => ?_)
    · exact (hother z (Or.inl (hz.resolve_left (by simp)))).1
    · rcases hz with hz | hz
      · cases hz
        exact hxn
      · exact (hother z (Or.inl hz)).2
  · refine ⟨?_, ?_⟩
    · intro z hz _
      cases hz
      exact ⟨y, rfl, hxy⟩
    · intro z hz _
      cases hz
      exact ⟨x, rfl, hx, hxy⟩
  · -- the entry behind `x` is now behind `y`, which is tied exactly when `x` was
    cases b with
    | nil =>
      refine ⟨?_, by simp⟩
      intro z hz ht
      cases hz
      rw [hy] at ht
      obtain ⟨w, hw, -⟩ := h2.1 x rfl ht
      cases hw
    | cons w b =>
      refine ⟨⟨?_, ?_⟩, ?_⟩
      · intro z hz ht
        cases hz
        rw [hy] at ht
        obtain ⟨v, hv, hs⟩ := h2.1.1 x rfl ht
        cases hv
        exact ⟨w, rfl, (hsame w).mp hs⟩
      · intro z hz hn
        cases hz
        obtain ⟨v, hv, ht, hs⟩ := h2.1.2 w rfl ((hother w (Or.inr List.mem_cons_self)).2 hn)
        cases hv
        exact ⟨y, rfl, by rw [hy]; exact ht, (hsame w).mp hs⟩
      · refine h2.2.relink (fun z hz => ?_) (fun _ _ _ _ hs => hs) (fun z hz => ?_)
        · rcases hz with hz | hz
          · cases hz
            exact (hother w (Or.inr List.mem_cons_self)).1
          · exact (hother z (Or.inr (List.mem_cons_of_mem w hz))).1
        · exact (hother z (Or.inr (List.mem_cons_of_mem w (hz.resolve_left (by simp))))).2

/-- A run of a well tied list ends in one untied entry, and all its entries are of the group of the first. -/
theorem splitRun_closed (hs : ∀ x y z, same x y → same y z → same x z)
    (h : ListPath (Link tied same needs) p (x :: l) none) :
    ∃ init z, (splitRun tied (x :: l)).1 = init ++ [z] ∧ (∀ y ∈ init, tied y = true) ∧ tied z = false ∧
      ∀ y ∈ (splitRun tied (x :: l)).1, y = x ∨ same x y := by
  induction l generalizing p x with
  | nil =>
    have hx := Link.untied_of_none h.2
    refine ⟨[], x, ?_, by simp, hx, ?_⟩
    · simp [splitRun, hx]
    · intro y hy
      exact Or.inl (by simpa [splitRun, hx] using hy)
  | cons w l ih =>
    by_cases hx : tied x = true
    · obtain ⟨init, z, he, hinit, hz, hall⟩ := ih h.2
      have hxw : same x w := by
        obtain ⟨y, hy, hsame⟩ := h.2.1.1 x rfl hx
        cases hy
        exact hsame
      have hsplit : (splitRun tied (x :: w :: l)).1 = x :: (splitRun tied (w :: l)).1 := by
        rw [splitRun, if_pos hx]
      refine ⟨x :: init, z, ?_, ?_, hz, ?_⟩
      · rw [hsplit, he, List.cons_append]
      · intro y hy
        rcases List.mem_cons.mp hy with rfl | hy
        · exact hx
        · exact hinit y hy
      · intro y hy
        rw [hsplit] at hy
        rcases List.mem_cons.mp hy with rfl | hy
        · exact Or.inl rfl
        · refine Or.inr ?_
          rcases hall y hy with rfl | hwy
          · exact hxw
          · exact hs x w y hxw hwy
    · have hx' : tied x = false := Bool.eq_false_iff.mpr hx
      refine ⟨[], x, ?_, by simp, hx', ?_⟩
      · simp [splitRun, hx']
      · intro y hy
        exact Or.inl (by simpa [splitRun, hx'] using hy)

end Link

end Skp.Foundations
