/-
  Meds.Core.UnitRows

  Matrices every row of which is a unit vector or zero.

  Such a matrix is given by the column of the one in every row.  Multiplying
  from the left picks rows of the other factor, so products of such matrices
  are composed functions.
-/

import Mathlib.LinearAlgebra.Matrix.NonsingularInverse

namespace Meds.Core

variable {K : Type} [Semiring K] {r c d : Nat} {g h : Nat → Option Nat}

variable (K) in
/-- Row `i` is unit vector `x` where `g i = some x`, and zero where it is `none`. -/
def unitRows (r c : Nat) (g : Nat → Option Nat) : Matrix (Fin r) (Fin c) K :=
  Matrix.of fun i j => if g i = some j.val then 1 else 0

theorem unitRows_apply (g : Nat → Option Nat) (i : Fin r) (j : Fin c) :
    unitRows K r c g i j = if g i = some j.val then 1 else 0 := rfl

theorem unitRows_congr (hgh : ∀ i, i < r → g i = h i) : unitRows K r c g = unitRows K r c h := by
  ext i j
  rw [unitRows_apply, unitRows_apply, hgh i i.isLt]

@[simp] theorem unitRows_some (n : Nat) : unitRows K n n some = 1 := by
  ext i j
  rw [unitRows_apply, Matrix.one_apply]
  exact if_congr (by rw [Option.some.injEq, Fin.ext_iff]) rfl rfl

/-- A unit row picks a row of the other factor. -/
theorem unitRows_mul_of_some {N : Matrix (Fin c) (Fin d) K} {i : Fin r} {x : Nat} (hx : x < c)
    (hg : g i = some x) (j : Fin d) : (unitRows K r c g * N) i j = N ⟨x, hx⟩ j := by
  rw [Matrix.mul_apply, Finset.sum_eq_single ⟨x, hx⟩]
  · rw [unitRows_apply, if_pos hg, one_mul]
  · intro y _ hy
    rw [unitRows_apply, if_neg, zero_mul]
    rw [hg, Option.some.injEq]
    exact fun h => hy (Fin.ext h.symm)
  · exact fun h => absurd (Finset.mem_univ _) h

theorem unitRows_mul_of_none {N : Matrix (Fin c) (Fin d) K} {i : Fin r} (hg : g i = none)
    (j : Fin d) : (unitRows K r c g * N) i j = 0 := by
  rw [Matrix.mul_apply]
  apply Finset.sum_eq_zero
  intro y _
  rw [unitRows_apply, hg, if_neg (by simp), zero_mul]

theorem unitRows_mul_unitRows (hg : ∀ i x, i < r → g i = some x → x < c) :
    unitRows K r c g * unitRows K c d h = unitRows K r d fun i => (g i).bind h := by
  ext i j
  cases hi : g i with
  | none =>
      rw [unitRows_mul_of_none hi, unitRows_apply, hi, if_neg (by simp)]
  | some x =>
      rw [unitRows_mul_of_some (hg i x i.isLt hi) hi, unitRows_apply, unitRows_apply, hi]
      rfl

/-- Different unit vectors are linearly independent. -/
theorem det_unitRows_ne_zero {K : Type} [CommRing K] [Nontrivial K] {n : Nat} {f : Nat → Nat}
    (hlt : ∀ i, i < n → f i < n) (hinj : ∀ i j, i < n → j < n → f i = f j → i = j) :
    (unitRows K n n fun i => some (f i)).det ≠ 0 := by
  -- the transpose is the inverse
  apply Matrix.det_ne_zero_of_right_inverse
    (B := (unitRows K n n fun i => some (f i)).transpose)
  ext i j
  rw [unitRows_mul_of_some (hlt i i.isLt) rfl, Matrix.transpose_apply, unitRows_apply,
    Matrix.one_apply]
  apply if_congr _ rfl rfl
  rw [Option.some.injEq, Fin.ext_iff]
  constructor
  · exact fun h => (hinj j i j.isLt i.isLt h).symm
  · exact fun h => congrArg f h.symm

end Meds.Core
