import Mathlib

/-! # A section of the code with at most one thread in it

Every thread is at a place of the code, and `inside` says which places belong to the section.
`HeldBy inside pc owner` says that the thread in the section is `owner`, and that there is none if
`owner` is `none`. -/
namespace Skp.Foundations
set_option autoImplicit false

variable {T P : Type*} {inside : P → Bool} {pc : T → P} {owner : Option T} {t u : T} {p : P}

def HeldBy (inside : P → Bool) (pc : T → P) (owner : Option T) : Prop :=
  ∀ t, inside (pc t) = true ↔ owner = some t

theorem HeldBy.unique (h : HeldBy inside pc owner) (ht : inside (pc t) = true)
    (hu : inside (pc u) = true) : t = u :=
  Option.some.inj (((h t).mp ht).symm.trans ((h u).mp hu))

theorem HeldBy.outside (h : HeldBy inside pc owner) (ht : owner ≠ some t) : inside (pc t) = false := by
  rw [← Bool.not_eq_true, h t]
  exact ht

theorem HeldBy.free (h : HeldBy inside pc none) (t : T) : inside (pc t) = false := h.outside (by simp)

variable [DecidableEq T]

/-- A thread moves within the section or outside it. -/
theorem HeldBy.stay (h : HeldBy inside pc owner) (hp : inside p = inside (pc t)) :
    HeldBy inside (Function.update pc t p) owner := by
  intro u
  by_cases hu : u = t
  · subst hu
    rw [Function.update_self, hp]
    exact h u
  · rw [Function.update_of_ne hu]
    exact h u

theorem HeldBy.enter (h : HeldBy inside pc none) (hp : inside p = true) :
    HeldBy inside (Function.update pc t p) (some t) := by
  intro u
  by_cases hu : u = t
  · subst hu
    simp [hp]
  · rw [Function.update_of_ne hu, h.free]
    simpa using fun heq => hu heq.symm

theorem HeldBy.leave (h : HeldBy inside pc (some t)) (hp : inside p = false) :
    HeldBy inside (Function.update pc t p) none := by
  intro u
  by_cases hu : u = t
  · subst hu
    simp [hp]
  · rw [Function.update_of_ne hu, h.outside (by simpa using fun heq => hu heq.symm)]
    simp

end Skp.Foundations
