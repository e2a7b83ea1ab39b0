/-
  Meds.Core.RowChain

  Systems that determine the rows of a matrix from the last one upwards.

  For square matrices P0 and P1, the rows of A are to satisfy
  `A_r P1 = A_{r+1} P0`, the last row of A P1 is to vanish but for its last
  entry, and the last entry of A is given.  The last row is a solution of the
  leading block of P1 without its last row and column, every other row one of
  P1.  So there is exactly one A if and only if both blocks are invertible.
-/

import Mathlib.LinearAlgebra.Matrix.NonsingularInverse
import Mathlib.LinearAlgebra.Matrix.ToLinearEquiv
import Mathlib.Tactic.LinearCombination

namespace Meds.Core

variable {K : Type} [Field K] {n : Nat} {P0 P1 A A' : Matrix (Fin n) (Fin n) K} {amm : K}

/-- The equations for the rows of `A`. -/
structure RowChain (P0 P1 : Matrix (Fin n) (Fin n) K) (amm : K) (A : Matrix (Fin n) (Fin n) K) :
    Prop where
  shift : ∀ r r' j : Fin n, (r' : Nat) = r + 1 → (A * P1) r j = (A * P0) r' j
  last : ∀ r j : Fin n, (r : Nat) + 1 = n → (j : Nat) + 1 < n → (A * P1) r j = 0
  corner : ∀ r : Fin n, (r : Nat) + 1 = n → A r r = amm

/-- The leading block without the last row and column. -/
def leadMinor (F : Matrix (Fin n) (Fin n) K) : Matrix (Fin (n - 1)) (Fin (n - 1)) K :=
  F.submatrix (Fin.castLE (Nat.sub_le n 1)) (Fin.castLE (Nat.sub_le n 1))

/-! ## The differences of solutions -/

theorem RowChain.sub (h : RowChain P0 P1 amm A) (h' : RowChain P0 P1 amm A') :
    RowChain P0 P1 0 (A - A') where
  shift r r' j hr := by
    rw [Matrix.sub_mul, Matrix.sub_mul, Matrix.sub_apply, Matrix.sub_apply, h.shift r r' j hr,
      h'.shift r r' j hr]
  last r j hr hj := by
    rw [Matrix.sub_mul, Matrix.sub_apply, h.last r j hr hj, h'.last r j hr hj, sub_zero]
  corner r hr := by rw [Matrix.sub_apply, h.corner r hr, h'.corner r hr, sub_self]

theorem RowChain.add (h : RowChain P0 P1 amm A) (h' : RowChain P0 P1 0 A') :
    RowChain P0 P1 amm (A + A') where
  shift r r' j hr := by
    rw [Matrix.add_mul, Matrix.add_mul, Matrix.add_apply, Matrix.add_apply, h.shift r r' j hr,
      h'.shift r r' j hr]
  last r j hr hj := by
    rw [Matrix.add_mul, Matrix.add_apply, h.last r j hr hj, h'.last r j hr hj, add_zero]
  corner r hr := by rw [Matrix.add_apply, h.corner r hr, h'.corner r hr, add_zero]

/-! ## Invertible blocks determine the rows -/

/-- A row that an invertible matrix sends to zero is zero. -/
theorem row_eq_zero {F : Matrix (Fin n) (Fin n) K} (hF : F.det ≠ 0) {v : Fin n → K}
    (h : ∀ j, ∑ x, v x * F x j = 0) : v = 0 := by
  have hv : Matrix.vecMul v F = 0 := funext h
  by_contra hne
  exact hF (Matrix.exists_vecMul_eq_zero_iff.mp ⟨v, hne, hv⟩)

/-- The last row of a solution of the homogeneous system vanishes. -/
theorem RowChain.last_row (h : RowChain P0 P1 0 A) (hminor : (leadMinor P1).det ≠ 0) {r : Fin n}
    (hr : (r : Nat) + 1 = n) : A r = 0 := by
  have hcast : n - 1 + 1 = n := by omega
  have hlead : (fun x : Fin (n - 1) => A r (Fin.castLE (Nat.sub_le n 1) x)) = 0 := by
    refine row_eq_zero hminor fun j => ?_
    have hsum := h.last r (Fin.castLE (Nat.sub_le n 1) j) hr (by
      have := j.isLt
      simp only [Fin.val_castLE]
      omega)
    rw [Matrix.mul_apply, ← Equiv.sum_comp (finCongr hcast), Fin.sum_univ_castSucc] at hsum
    have hcorner : A r ((finCongr hcast) (Fin.last (n - 1))) = 0 := by
      have : (finCongr hcast) (Fin.last (n - 1)) = r := by
        ext
        simp only [finCongr_apply, Fin.val_cast, Fin.val_last]
        omega
      rw [this]
      exact h.corner r hr
    rw [hcorner, zero_mul, add_zero] at hsum
    exact hsum
  funext x
  by_cases hx : (x : Nat) + 1 < n
  · exact congrFun hlead ⟨x, by omega⟩
  · obtain rfl : x = r := Fin.ext (by have := x.isLt; omega)
    exact h.corner x hr

/-- With both blocks invertible, the homogeneous system has only the zero solution. -/
theorem RowChain.eq_zero (h : RowChain P0 P1 0 A) (hminor : (leadMinor P1).det ≠ 0)
    (hdet : P1.det ≠ 0) : A = 0 := by
  have key : ∀ d (r : Fin n), (r : Nat) + 1 + d = n → A r = 0 := by
    intro d
    induction d with
    | zero => intro r hr; exact h.last_row hminor hr
    | succ d ih =>
        intro r hr
        have hnext := ih ⟨r + 1, by omega⟩ (by simp only; omega)
        refine row_eq_zero hdet fun j => ?_
        have hj := h.shift r ⟨r + 1, by omega⟩ j rfl
        rw [Matrix.mul_apply, Matrix.mul_apply] at hj
        rw [hj]
        refine Finset.sum_eq_zero fun x _ => ?_
        rw [hnext, Pi.zero_apply, zero_mul]
  funext r
  exact key (n - (r + 1)) r (by have := r.isLt; omega)

/-! ## A singular block leaves a choice -/

/-- The matrix with first row `v` and zeros below. -/
def firstRow (v : Fin n → K) : Matrix (Fin n) (Fin n) K :=
  Matrix.of fun r x => if (r : Nat) = 0 then v x else 0

theorem firstRow_mul (v : Fin n → K) (F : Matrix (Fin n) (Fin n) K) (r j : Fin n) :
    (firstRow v * F) r j = if (r : Nat) = 0 then Matrix.vecMul v F j else 0 := by
  rw [Matrix.mul_apply]
  by_cases h0 : (r : Nat) = 0
  · rw [if_pos h0]
    exact Finset.sum_congr rfl fun x _ => by rw [firstRow, Matrix.of_apply, if_pos h0]
  · rw [if_neg h0]
    exact Finset.sum_eq_zero fun x _ => by rw [firstRow, Matrix.of_apply, if_neg h0, zero_mul]

/-- A row that P1 sends to zero can be added to the first row. -/
theorem exists_rowChain_of_det (P0 : Matrix (Fin n) (Fin n) K) (hn : 2 ≤ n) (hdet : P1.det = 0) :
    ∃ D : Matrix (Fin n) (Fin n) K, D ≠ 0 ∧ RowChain P0 P1 0 D := by
  obtain ⟨v, hv, hker⟩ := Matrix.exists_vecMul_eq_zero_iff.mpr hdet
  refine ⟨firstRow v, fun h => hv ?_, fun r r' j hr => ?_, fun r j hr _ => ?_, fun r hr => ?_⟩
  · funext x
    exact congrFun (congrFun h ⟨0, by omega⟩) x
  · rw [firstRow_mul, firstRow_mul, hker, if_neg (show (r' : Nat) ≠ 0 by omega)]
    split <;> rfl
  · rw [firstRow_mul, if_neg (by omega)]
  · rw [firstRow, Matrix.of_apply, if_neg (by omega)]

/-- The matrix with last row `w`, in which every row is the next one times `Q`. -/
def rowPowers (w : Fin n → K) (Q : Matrix (Fin n) (Fin n) K) : Matrix (Fin n) (Fin n) K :=
  fun r => Matrix.vecMul w (Q ^ (n - 1 - (r : Nat)))

theorem rowPowers_last (w : Fin n → K) (Q : Matrix (Fin n) (Fin n) K) {r : Fin n}
    (hr : (r : Nat) + 1 = n) : rowPowers w Q r = w := by
  rw [rowPowers, show n - 1 - (r : Nat) = 0 by omega, pow_zero, Matrix.vecMul_one]

theorem rowPowers_next (w : Fin n → K) (Q : Matrix (Fin n) (Fin n) K) {r r' : Fin n}
    (hr : (r' : Nat) = r + 1) : rowPowers w Q r = Matrix.vecMul (rowPowers w Q r') Q := by
  have hexp : n - 1 - (r : Nat) = (n - 1 - (r' : Nat)) + 1 := by
    have := r'.isLt
    omega
  rw [rowPowers, rowPowers, hexp, pow_succ, Matrix.vecMul_vecMul]

/-- A row that the leading block sends to zero can be added to the last row, and
    the rows above follow it. -/
theorem exists_rowChain_of_minor (P0 : Matrix (Fin n) (Fin n) K) (hn : 2 ≤ n) (hdet : P1.det ≠ 0)
    (hminor : (leadMinor P1).det = 0) :
    ∃ D : Matrix (Fin n) (Fin n) K, D ≠ 0 ∧ RowChain P0 P1 0 D := by
  obtain ⟨u, hu, hker⟩ := Matrix.exists_vecMul_eq_zero_iff.mpr hminor
  have hcast : n - 1 + 1 = n := by omega
  -- the row in the kernel of the leading minor, with a zero as last entry
  obtain ⟨w, hw⟩ : ∃ w : Fin n → K, w = fun x : Fin n =>
    if h : (x : Nat) < n - 1 then u ⟨x, h⟩ else 0 := ⟨_, rfl⟩
  have hwu : ∀ x : Fin (n - 1), w (Fin.castLE (Nat.sub_le n 1) x) = u x := by
    intro x
    rw [hw]
    exact dif_pos x.isLt
  have hcancel : P0 * P1⁻¹ * P1 = P0 := by
    rw [Matrix.mul_assoc, Matrix.nonsing_inv_mul _ (isUnit_iff_ne_zero.mpr hdet), Matrix.mul_one]
  refine ⟨rowPowers w (P0 * P1⁻¹), fun h => hu ?_, fun r r' j hr => ?_, fun r j hr hj => ?_,
    fun r hr => ?_⟩
  · -- the last row is that row, so the chain is not zero
    have hrow := congrFun h ⟨n - 1, by omega⟩
    rw [rowPowers_last w _ (by simp only; omega)] at hrow
    funext x
    exact (hwu x).symm.trans (congrFun hrow _)
  · rw [Matrix.mul_apply_eq_vecMul, Matrix.mul_apply_eq_vecMul, rowPowers_next w _ hr,
      Matrix.vecMul_vecMul, hcancel]
  · -- the last row times P1 vanishes in the columns of the minor
    rw [Matrix.mul_apply_eq_vecMul, rowPowers_last w _ hr, Matrix.vecMul, dotProduct,
      ← Equiv.sum_comp (finCongr hcast), Fin.sum_univ_castSucc]
    have hcorner : w ((finCongr hcast) (Fin.last (n - 1))) = 0 := by
      rw [hw]
      exact dif_neg (by simp)
    rw [hcorner, zero_mul, add_zero]
    refine (Finset.sum_congr rfl fun x _ => ?_).trans (congrFun hker ⟨j, by omega⟩)
    exact congrArg (· * _) (hwu x)
  · rw [rowPowers_last w _ hr, hw]
    exact dif_neg (by omega)

/-- There is exactly one solution if and only if both blocks are invertible, given
    that the invertible case has one. -/
theorem existsUnique_rowChain_iff (hn : 2 ≤ n)
    (hsol : (leadMinor P1).det ≠ 0 → P1.det ≠ 0 → ∃ A, RowChain P0 P1 amm A) :
    (∃! A, RowChain P0 P1 amm A) ↔ (leadMinor P1).det ≠ 0 ∧ P1.det ≠ 0 := by
  constructor
  · rintro ⟨A, hA, huniq⟩
    have hnone : ∀ D, RowChain P0 P1 0 D → D = 0 := by
      intro D hD
      have := huniq (A + D) (hA.add hD)
      rwa [add_eq_left] at this
    have hdet : P1.det ≠ 0 := by
      intro h0
      obtain ⟨D, hne, hD⟩ := exists_rowChain_of_det P0 hn h0
      exact hne (hnone D hD)
    refine ⟨fun h0 => ?_, hdet⟩
    obtain ⟨D, hne, hD⟩ := exists_rowChain_of_minor P0 hn hdet h0
    exact hne (hnone D hD)
  · rintro ⟨hminor, hdet⟩
    obtain ⟨A, hA⟩ := hsol hminor hdet
    exact ⟨A, hA, fun A' hA' => sub_eq_zero.mp ((hA'.sub hA).eq_zero hminor hdet)⟩

end Meds.Core
