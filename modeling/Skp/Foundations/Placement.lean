import Mathlib

/-! # Items in places

A family of lists, one for each place, holds every item of a set in exactly one place. Moving items from one
place to another keeps that, as do bringing in new items and taking out all items of a place. -/
namespace Skp.Foundations
set_option autoImplicit false

variable {Pl O : Type*} {objs objs' : Pl → List O} {U U' : Set O}

structure Placed (objs : Pl → List O) (U : Set O) : Prop where
  nodup : ∀ pl, (objs pl).Nodup
  disjoint : ∀ pl pl' o, o ∈ objs pl → o ∈ objs pl' → pl = pl'
  cover : ∀ o, o ∈ U ↔ ∃ pl, o ∈ objs pl

namespace Placed

theorem existsUnique (h : Placed objs U) {o : O} (ho : o ∈ U) : ∃! pl, o ∈ objs pl := by
  obtain ⟨pl, hpl⟩ := (h.cover o).mp ho
  exact ⟨pl, hpl, fun pl' hpl' => h.disjoint pl' pl o hpl' hpl⟩

theorem mem (h : Placed objs U) {pl : Pl} {o : O} (ho : o ∈ objs pl) : o ∈ U := (h.cover o).mpr ⟨pl, ho⟩

/-- The items of `l` go from one place to another. -/
theorem move (h : Placed objs U) (src dst : Pl) (l : List O) (hne : src ≠ dst)
    (hsrc : (objs src).Perm (l ++ objs' src)) (hdst : (objs' dst).Perm (l ++ objs dst))
    (hrest : ∀ pl, pl ≠ src → pl ≠ dst → objs' pl = objs pl) : Placed objs' U := by
  have hboth : (l ++ objs' src).Nodup := hsrc.nodup_iff.mp (h.nodup src)
  have hl : ∀ o, o ∈ l → o ∈ objs src := fun o ho => hsrc.mem_iff.mpr (List.mem_append_left _ ho)
  have hold : ∀ pl, pl ≠ src → ∀ o, o ∈ objs pl → o ∉ l :=
    fun pl hpl o ho hol => hpl (h.disjoint pl src o ho (hl o hol))
  -- where an item is now: moved, or where it was
  have horigin : ∀ pl o, o ∈ objs' pl → (pl = dst ∧ o ∈ l) ∨ (o ∈ objs pl ∧ o ∉ l) := by
    intro pl o ho
    by_cases hs : pl = src
    · subst hs
      right
      refine ⟨hsrc.mem_iff.mpr (List.mem_append_right _ ho), fun hol => ?_⟩
      exact (List.nodup_append.mp hboth).2.2 o hol o ho rfl
    · by_cases hd : pl = dst
      · subst hd
        cases List.mem_append.mp (hdst.mem_iff.mp ho) with
        | inl hol => exact Or.inl ⟨rfl, hol⟩
        | inr hod => exact Or.inr ⟨hod, hold pl hs o hod⟩
      · rw [hrest pl hs hd] at ho
        exact Or.inr ⟨ho, hold pl hs o ho⟩
  constructor
  · intro pl
    by_cases hs : pl = src
    · subst hs
      exact (List.nodup_append.mp hboth).2.1
    · by_cases hd : pl = dst
      · subst hd
        rw [hdst.nodup_iff, List.nodup_append]
        refine ⟨(List.nodup_append.mp hboth).1, h.nodup pl, fun a ha b hb heq => ?_⟩
        exact hold pl hs b hb (heq ▸ ha)
      · rw [hrest pl hs hd]
        exact h.nodup pl
  · intro pl pl' o ho ho'
    cases horigin pl o ho with
    | inl h1 =>
      cases horigin pl' o ho' with
      | inl h2 => rw [h1.1, h2.1]
      | inr h2 => exact absurd h1.2 h2.2
    | inr h1 =>
      cases horigin pl' o ho' with
      | inl h2 => exact absurd h2.2 h1.2
      | inr h2 => exact h.disjoint pl pl' o h1.1 h2.1
  · intro o
    rw [h.cover o]
    constructor
    · intro ho
      obtain ⟨pl, hpl⟩ := ho
      by_cases hol : o ∈ l
      · exact ⟨dst, hdst.mem_iff.mpr (List.mem_append_left _ hol)⟩
      · by_cases hs : pl = src
        · subst hs
          cases List.mem_append.mp (hsrc.mem_iff.mp hpl) with
          | inl hol' => exact absurd hol' hol
          | inr hor => exact ⟨pl, hor⟩
        · by_cases hd : pl = dst
          · subst hd
            exact ⟨pl, hdst.mem_iff.mpr (List.mem_append_right _ hpl)⟩
          · refine ⟨pl, ?_⟩
            rw [hrest pl hs hd]
            exact hpl
    · intro ho
      obtain ⟨pl, hpl⟩ := ho
      cases horigin pl o hpl with
      | inl h1 => exact ⟨src, hl o h1.2⟩
      | inr h1 => exact ⟨pl, h1.1⟩

/-- New items arrive at an empty place. -/
theorem arrive (h : Placed objs U) (dst : Pl) (hempty : objs dst = []) (hnodup : (objs' dst).Nodup)
    (hnew : ∀ o, o ∈ objs' dst → o ∉ U) (hrest : ∀ pl, pl ≠ dst → objs' pl = objs pl)
    (hU : ∀ o, o ∈ U' ↔ o ∈ U ∨ o ∈ objs' dst) : Placed objs' U' := by
  constructor
  · intro pl
    by_cases hd : pl = dst
    · subst hd
      exact hnodup
    · rw [hrest pl hd]
      exact h.nodup pl
  · intro pl pl' o ho ho'
    by_cases hd : pl = dst
    · by_cases hd' : pl' = dst
      · rw [hd, hd']
      · rw [hrest pl' hd'] at ho'
        exact absurd (h.mem ho') (hnew o (hd ▸ ho))
    · rw [hrest pl hd] at ho
      by_cases hd' : pl' = dst
      · exact absurd (h.mem ho) (hnew o (hd' ▸ ho'))
      · rw [hrest pl' hd'] at ho'
        exact h.disjoint pl pl' o ho ho'
  · intro o
    rw [hU o, h.cover o]
    constructor
    · intro ho
      cases ho with
      | inl ho =>
        obtain ⟨pl, hpl⟩ := ho
        have hd : pl ≠ dst := by
          intro heq
          rw [heq, hempty] at hpl
          cases hpl
        exact ⟨pl, by rw [hrest pl hd]; exact hpl⟩
      | inr ho => exact ⟨dst, ho⟩
    · intro ho
      obtain ⟨pl, hpl⟩ := ho
      by_cases hd : pl = dst
      · exact Or.inr (hd ▸ hpl)
      · rw [hrest pl hd] at hpl
        exact Or.inl ⟨pl, hpl⟩

/-- All items of a place leave. -/
theorem leave (h : Placed objs U) (src : Pl) (hempty : objs' src = [])
    (hrest : ∀ pl, pl ≠ src → objs' pl = objs pl)
    (hU : ∀ o, o ∈ U' ↔ o ∈ U ∧ o ∉ objs src) : Placed objs' U' := by
  have hne : ∀ pl o, o ∈ objs' pl → pl ≠ src ∧ o ∈ objs pl := by
    intro pl o ho
    have hs : pl ≠ src := by
      intro heq
      rw [heq, hempty] at ho
      cases ho
    rw [hrest pl hs] at ho
    exact ⟨hs, ho⟩
  constructor
  · intro pl
    by_cases hs : pl = src
    · rw [hs, hempty]
      exact List.nodup_nil
    · rw [hrest pl hs]
      exact h.nodup pl
  · exact fun pl pl' o ho ho' => h.disjoint pl pl' o (hne pl o ho).2 (hne pl' o ho').2
  · intro o
    rw [hU o, h.cover o]
    constructor
    · intro ho
      obtain ⟨⟨pl, hpl⟩, hnot⟩ := ho
      have hs : pl ≠ src := fun heq => hnot (heq ▸ hpl)
      exact ⟨pl, by rw [hrest pl hs]; exact hpl⟩
    · intro ho
      obtain ⟨pl, hpl⟩ := ho
      obtain ⟨hs, hold⟩ := hne pl o hpl
      exact ⟨⟨pl, hold⟩, fun hsrc => hs (h.disjoint pl src o hold hsrc)⟩

end Placed

end Skp.Foundations
