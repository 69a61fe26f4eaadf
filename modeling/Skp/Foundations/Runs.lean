import Mathlib

/-! # Runs of a labelled step function

A concurrent component is a partial step function: a label names the thread that moves, the step it
takes and every choice made outside the component, and a label that does not apply gives `none`. A run
is a list of labels. `run_invariant` is the rule all safety results use: what the initial state has and
every step keeps, every state of every run has. The rule takes a condition on steps, so that it also
covers the runs in which each step meets that condition. -/
namespace Skp.Foundations
set_option autoImplicit false

section Runs
variable {S A : Type*} (step : S → A → Option S)

/-- The state after a list of steps, when all of them apply. -/
def runActs : S → List A → Option S
  | s, [] => some s
  | s, a :: as => (step s a).bind fun t => runActs t as

/-- Every step of the run meets the condition in the state it is taken in. -/
def RunMeets (good : S → A → Prop) : S → List A → Prop
  | _, [] => True
  | s, a :: as => good s a ∧ ∀ t, step s a = some t → RunMeets good t as

variable {step}

theorem runActs_cons_eq_some {s s' : S} {a : A} {as : List A} :
    runActs step s (a :: as) = some s' ↔ ∃ t, step s a = some t ∧ runActs step t as = some s' := by
  rw [runActs, Option.bind_eq_some_iff]

theorem runActs_append {s : S} {as bs : List A} :
    runActs step s (as ++ bs) = (runActs step s as).bind fun t => runActs step t bs := by
  induction as generalizing s with
  | nil => rfl
  | cons a as ih =>
    simp only [List.cons_append, runActs, Option.bind_assoc]
    exact congrArg _ (funext fun t => ih)

theorem RunMeets.cons {good : S → A → Prop} {s t : S} {a : A} {as : List A} (hs : step s a = some t)
    (hg : good s a) (hrest : RunMeets step good t as) : RunMeets step good s (a :: as) :=
  ⟨hg, fun _ hu => Option.some.inj (hs.symm.trans hu) ▸ hrest⟩

/-- Runs the steps and tests the condition at each. -/
def runChecks (step : S → A → Option S) (good : S → A → Prop) [∀ s a, Decidable (good s a)] :
    S → List A → Bool
  | _, [] => true
  | s, a :: as => decide (good s a) && (step s a).all fun t => runChecks step good t as

theorem runMeets_of_checks {good : S → A → Prop} [∀ s a, Decidable (good s a)] {s : S} {as : List A}
    (h : runChecks step good s as = true) : RunMeets step good s as := by
  induction as generalizing s with
  | nil => trivial
  | cons a as ih =>
    rw [runChecks, Bool.and_eq_true, decide_eq_true_eq, Option.all_eq_true] at h
    exact ⟨h.1, fun t ht => ih (h.2 t ht)⟩

theorem RunMeets.imp {good good' : S → A → Prop} (himp : ∀ s a, good s a → good' s a) {s : S} {as : List A}
    (h : RunMeets step good s as) : RunMeets step good' s as := by
  induction as generalizing s with
  | nil => trivial
  | cons a as ih => exact ⟨himp s a h.1, fun t ht => ih (h.2 t ht)⟩

theorem runMeets_trivial (as : List A) (s : S) : RunMeets step (fun _ _ => True) s as := by
  induction as generalizing s with
  | nil => trivial
  | cons a as ih => exact ⟨trivial, fun t _ => ih t⟩

/-- What every step that meets the condition keeps holds along every run of such steps. -/
theorem run_invariant {good : S → A → Prop} {Inv : S → Prop}
    (hstep : ∀ s a s', Inv s → good s a → step s a = some s' → Inv s') :
    ∀ (as : List A) (s s' : S), Inv s → RunMeets step good s as → runActs step s as = some s' → Inv s'
  | [], s, s', hs, _, hr => Option.some.inj hr ▸ hs
  | a :: as, s, s', hs, hg, hr => by
      obtain ⟨t, ht, hrest⟩ := runActs_cons_eq_some.mp hr
      exact run_invariant hstep as t s' (hstep s a t hs hg.1 ht) (hg.2 t ht) hrest

end Runs

end Skp.Foundations
