/-
  Meds.Core.Sandwich

  The map `X ↦ A * X * B` on flattened matrices.

  A row of length `m * n` stands for an `m × n` matrix, row by row.  On such
  rows `X ↦ A * X * B` is right multiplication by `sandwich A B`, so a table
  `F` of rows is acted on by `F * sandwich A B`, which commutes with row
  operations on `F` and composes like the pairs `(A, B)`.
-/

import Mathlib.LinearAlgebra.Matrix.Kronecker
import Mathlib.LinearAlgebra.Matrix.NonsingularInverse
import Mathlib.Logic.Equiv.Fin.Basic
import Mathlib.Tactic.Ring

namespace Meds.Core

variable {K : Type} [CommRing K] {m n : Nat}

/-- `X ↦ A * X * B` as a matrix acting on flattened rows from the right. -/
def sandwich (A : Matrix (Fin m) (Fin m) K) (B : Matrix (Fin n) (Fin n) K) :
    Matrix (Fin (m * n)) (Fin (m * n)) K :=
  (Matrix.kroneckerMap (· * ·) A.transpose B).submatrix finProdFinEquiv.symm finProdFinEquiv.symm

/-- Applying `(A', B')` after `(A, B)` is applying `(A' * A, B * B')`. -/
theorem sandwich_mul (A A' : Matrix (Fin m) (Fin m) K) (B B' : Matrix (Fin n) (Fin n) K) :
    sandwich A B * sandwich A' B' = sandwich (A' * A) (B * B') := by
  unfold sandwich
  rw [Matrix.submatrix_mul_equiv, Matrix.transpose_mul, Matrix.mul_kronecker_mul]

theorem sandwich_one :
    sandwich (1 : Matrix (Fin m) (Fin m) K) (1 : Matrix (Fin n) (Fin n) K) = 1 := by
  unfold sandwich
  rw [Matrix.transpose_one, Matrix.one_kronecker_one, Matrix.submatrix_one_equiv]

/-- The flattened position of entry `(a, b)`. -/
def flat (a : Fin m) (b : Fin n) : Fin (m * n) := finProdFinEquiv (a, b)

@[simp] theorem flat_val (a : Fin m) (b : Fin n) : (flat a b : Nat) = b + n * a := rfl

theorem exists_flat (j : Fin (m * n)) : ∃ a b, flat (m := m) (n := n) a b = j :=
  ⟨(finProdFinEquiv.symm j).1, (finProdFinEquiv.symm j).2, finProdFinEquiv.apply_symm_apply j⟩

/-- The action on a table of rows, entry by entry. -/
theorem mul_sandwich_apply {r : Nat} (F : Matrix (Fin r) (Fin (m * n)) K)
    (A : Matrix (Fin m) (Fin m) K) (B : Matrix (Fin n) (Fin n) K) (i : Fin r) (a : Fin m)
    (b : Fin n) :
    (F * sandwich A B) i (flat a b) = ∑ y, (∑ x, A a x * F i (flat x y)) * B y b := by
  rw [Matrix.mul_apply, ← Equiv.sum_comp finProdFinEquiv, Fintype.sum_prod_type_right]
  refine Finset.sum_congr rfl fun y _ => ?_
  rw [Finset.sum_mul]
  refine Finset.sum_congr rfl fun x _ => ?_
  simp only [sandwich, flat, Matrix.submatrix_apply, Equiv.symm_apply_apply,
    Matrix.kroneckerMap_apply, Matrix.transpose_apply]
  ring

end Meds.Core
