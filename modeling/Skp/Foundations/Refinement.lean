import Mathlib

/-! # Conformance of a command machine to a specification

A machine answers each command with an output and a new state (`exec`). A specification says which
commands are legal, how the abstract state moves, and which outputs are allowed. `Spec.conforms` is
the run rule: a relation kept by every legal command is kept by every legal run, and every output
of the run is one the specification allows. -/
namespace Skp.Foundations
set_option autoImplicit false

/-- The states reached and the outputs given by a list of commands. -/
def runCmds {S C O : Type*} (exec : S → C → S × O) : S → List C → S × List O
  | s, [] => (s, [])
  | s, c :: cs =>
      let r := runCmds exec (exec s c).1 cs
      (r.1, (exec s c).2 :: r.2)

theorem runCmds_append {S C O : Type*} (exec : S → C → S × O) (s : S) (cs ds : List C) :
    (runCmds exec s (cs ++ ds)).1 = (runCmds exec (runCmds exec s cs).1 ds).1 := by
  induction cs generalizing s with
  | nil => rfl
  | cons c cs ih => exact ih (exec s c).1

/-- The same for a machine that may fail to answer. -/
def runCalls {S C O : Type*} (exec : S → C → Option (S × O)) : S → List C → Option (S × List O)
  | s, [] => some (s, [])
  | s, c :: cs => (exec s c).bind fun r => (runCalls exec r.1 cs).map fun q => (q.1, r.2 :: q.2)

/-- An abstract command language: legality, next state, allowed outputs. -/
structure Spec (A C O : Type*) where
  legal : A → C → Prop
  next : A → C → A
  out : A → C → O → Prop

namespace Spec
variable {S A C O : Type*} (P : Spec A C O)

/-- The abstract state after a list of commands. -/
def after : A → List C → A := List.foldl P.next

/-- Every command of the list is legal where it is issued. -/
def LegalRun : A → List C → Prop
  | _, [] => True
  | a, c :: cs => P.legal a c ∧ LegalRun (P.next a c) cs

/-- The outputs answer the commands one by one, each as the specification allows. -/
def Conforms : A → List C → List O → Prop
  | _, [], os => os = []
  | a, c :: cs, os => ∃ o rest, os = o :: rest ∧ P.out a c o ∧ Conforms (P.next a c) cs rest

theorem after_append (a : A) (cs ds : List C) : P.after a (cs ++ ds) = P.after (P.after a cs) ds :=
  List.foldl_append

theorem legalRun_append {a : A} {cs ds : List C} :
    P.LegalRun a (cs ++ ds) ↔ P.LegalRun a cs ∧ P.LegalRun (P.after a cs) ds := by
  induction cs generalizing a with
  | nil => simp [LegalRun, after]
  | cons c cs ih =>
    simp only [List.cons_append, LegalRun, ih, after, List.foldl_cons, and_assoc]

variable {P}

/-- The run rule: a relation kept by each legal command is kept by each legal run. -/
theorem conforms {exec : S → C → S × O} {R : S → A → Prop}
    (hstep : ∀ s a c, R s a → P.legal a c → P.out a c (exec s c).2 ∧ R (exec s c).1 (P.next a c)) :
    ∀ (cs : List C) (s : S) (a : A), R s a → P.LegalRun a cs →
      P.Conforms a cs (runCmds exec s cs).2 ∧ R (runCmds exec s cs).1 (P.after a cs)
  | [], s, a, hR, _ => ⟨rfl, hR⟩
  | c :: cs, s, a, hR, hl => by
      obtain ⟨hc, hcs⟩ := hl
      obtain ⟨ho, hR'⟩ := hstep s a c hR hc
      obtain ⟨hos, hfin⟩ := conforms hstep cs (exec s c).1 (P.next a c) hR' hcs
      exact ⟨⟨_, _, rfl, ho, hos⟩, hfin⟩

/-- The run rule of a machine that may fail: legal runs return. `R n` is the relation while `n`
commands are to come. -/
theorem conforms_calls {exec : S → C → Option (S × O)} (R : ℕ → S → A → Prop)
    (hstep : ∀ n s a c, R (n + 1) s a → P.legal a c →
      ∃ s' o, exec s c = some (s', o) ∧ P.out a c o ∧ R n s' (P.next a c)) (cs : List C) :
    ∀ (s : S) (a : A), R cs.length s a → P.LegalRun a cs →
      ∃ s' os, runCalls exec s cs = some (s', os) ∧ P.Conforms a cs os ∧ R 0 s' (P.after a cs) := by
  induction cs with
  | nil => exact fun s a hR _ => ⟨s, [], rfl, rfl, hR⟩
  | cons c cs ih =>
    intro s a hR hl
    obtain ⟨s', o, hexec, ho, hR'⟩ := hstep cs.length s a c hR hl.1
    obtain ⟨s'', os, hrun, hos, hfin⟩ := ih s' _ hR' hl.2
    refine ⟨s'', o :: os, ?_, ⟨o, os, rfl, ho, hos⟩, hfin⟩
    rw [runCalls, hexec, Option.bind_some, hrun]
    rfl

end Spec

end Skp.Foundations
