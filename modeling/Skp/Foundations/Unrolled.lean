import Mathlib

/-! # Unrolled copy loops

A loop that copies one entry after another, and the same loop with four entries a round and a tail
of at most three. `put i j` copies entry `i` to or from place `j` and may fail. -/
namespace Skp.Foundations
set_option autoImplicit false

variable {M : Type*} (put : ℕ → ℕ → M → Option M)

/-- `n` entries from `i` on, at the places from `j` on. -/
def copyRun : ℕ → ℕ → ℕ → M → Option M
  | 0, _, _, m => some m
  | n + 1, i, j, m => (put i j m).bind (copyRun n (i + 1) (j + 1))

/-- Four entries a round while `i` is below the bound, in at most `rounds` rounds. -/
def copyFours (bound : ℕ) : ℕ → ℕ → ℕ → M → Option M
  | 0, _, _, m => some m
  | rounds + 1, i, j, m =>
      if i < bound then
        (put i j m).bind fun m => (put (i + 1) (j + 1) m).bind fun m => (put (i + 2) (j + 2) m).bind fun m =>
          (put (i + 3) (j + 3) m).bind (copyFours bound rounds (i + 4) (j + 4))
      else some m

/-- The cases 3, 2 and 1, each falling through to the next. -/
def copyRest : ℕ → ℕ → ℕ → M → Option M
  | 3, i, j, m => (put i j m).bind fun m => (put (i + 1) (j + 1) m).bind (put (i + 2) (j + 2))
  | 2, i, j, m => (put i j m).bind (put (i + 1) (j + 1))
  | 1, i, j, m => put i j m
  | _, _, _, m => some m

variable {put}

theorem copyRun_add {a b i j : ℕ} {m : M} :
    copyRun put (a + b) i j m = (copyRun put a i j m).bind (copyRun put b (i + a) (j + a)) := by
  induction a generalizing i j m with
  | zero =>
    rw [Nat.zero_add]
    rfl
  | succ a ih =>
    rw [Nat.succ_add, copyRun, copyRun, Option.bind_assoc]
    congr 1
    funext m
    rw [ih, Nat.succ_add_eq_add_succ, Nat.succ_add_eq_add_succ]

theorem copyFours_eq {rounds k i j : ℕ} {m : M} (hk : k ≤ rounds) :
    copyFours put (i + 4 * k) rounds i j m = copyRun put (4 * k) i j m := by
  induction k generalizing rounds i j m with
  | zero =>
    cases rounds with
    | zero => rfl
    | succ rounds => rw [copyFours, Nat.mul_zero, Nat.add_zero, if_neg (lt_irrefl i)]; rfl
  | succ k ih =>
    cases rounds with
    | zero => exact absurd hk (Nat.not_succ_le_zero k)
    | succ rounds =>
      have hrest : ∀ m, copyFours put (i + 4 * (k + 1)) rounds (i + 4) (j + 4) m =
          copyRun put (4 * k) (i + 4) (j + 4) m :=
        fun m => by
          rw [show i + 4 * (k + 1) = i + 4 + 4 * k by omega]
          exact ih (by omega)
      rw [copyFours, if_pos (by omega), funext hrest, show 4 * (k + 1) = 4 + 4 * k by omega, copyRun_add]
      simp only [copyRun, Option.bind_assoc, Option.bind_some]

theorem copyRun_one {i j : ℕ} : copyRun put 1 i j = put i j := by
  funext m
  exact Option.bind_fun_some _

theorem copyRest_eq {k i j : ℕ} (hk : k < 4) : copyRest put k i j = copyRun put k i j := by
  funext m
  match k with
  | 0 => rfl
  | 1 => exact congrFun copyRun_one.symm m
  | 2 => rw [copyRest, copyRun, copyRun_one]
  | 3 =>
    have hlast : copyRun put 1 (i + 1 + 1) (j + 1 + 1) = put (i + 2) (j + 2) := copyRun_one
    rw [copyRest, ← hlast]
    rfl

/-- The unrolled loop copies the same entries. -/
theorem copyFours_rest {rounds n i j : ℕ} {m : M} (hrounds : n / 4 ≤ rounds) :
    (copyFours put (i + 4 * (n / 4)) rounds i j m).bind
      (copyRest put (n % 4) (i + 4 * (n / 4)) (j + 4 * (n / 4))) =
      copyRun put n i j m := by
  rw [copyFours_eq hrounds, copyRest_eq (Nat.mod_lt n (by decide)), ← copyRun_add, Nat.div_add_mod]

/-- What holds before and is kept by each entry holds after the run, and the run goes through. -/
theorem copyRun_ok {P : ℕ → M → Prop} {n i j : ℕ} {m : M}
    (hstep : ∀ k < n, ∀ m, P k m → ∃ m', put (i + k) (j + k) m = some m' ∧ P (k + 1) m') (h0 : P 0 m) :
    ∃ m', copyRun put n i j m = some m' ∧ P n m' := by
  induction n with
  | zero => exact ⟨m, rfl, h0⟩
  | succ n ih =>
    obtain ⟨m₁, hrun, hP⟩ := ih fun k hk => hstep k (by omega)
    obtain ⟨m₂, hput, hP'⟩ := hstep n (Nat.lt_succ_self n) m₁ hP
    refine ⟨m₂, ?_, hP'⟩
    rw [copyRun_add, hrun, Option.bind_some, copyRun, hput]
    rfl

end Skp.Foundations
