/-
  Meds.Core.Gauss

  Row reduction over a field.

  Matrices are tables `E : Nat → Nat → K`; `block n c E` is the upper left
  `n × c` part as a Mathlib matrix.  `RowEquiv n c E E'` says that `E'` came
  out of row operations on the first `n` rows.  Two facts tie a reduction to
  the leading square block `B` of what it started from: a reduction that
  reaches the identity there has multiplied by `B⁻¹`, and one that meets a
  column without a pivot shows that `B` is singular.
-/

import Mathlib.LinearAlgebra.Matrix.NonsingularInverse
import Mathlib.LinearAlgebra.Matrix.ToLin
import Mathlib.LinearAlgebra.Matrix.Transvection
import Mathlib.LinearAlgebra.Matrix.ToLinearEquiv
import Mathlib.LinearAlgebra.Matrix.SchurComplement
import Mathlib.Tactic.LinearCombination

namespace Meds.Core

section

variable {K : Type} {n c : Nat} {E E' : Nat → Nat → K}

/-- The upper left `n × c` part of a table. -/
def block (n c : Nat) (E : Nat → Nat → K) : Matrix (Fin n) (Fin c) K := Matrix.of fun i j => E i j

@[simp] theorem block_apply (i : Fin n) (j : Fin c) : block n c E i j = E i j := rfl

theorem block_congr (h : ∀ i j, i < n → j < c → E' i j = E i j) : block n c E' = block n c E := by
  ext i j
  exact h i j i.isLt j.isLt

end

variable {K : Type} [Field K] {n c : Nat} {E E' E'' : Nat → Nat → K}

/-- `E'` is `E` after invertible row operations on the first `n` rows. -/
def RowEquiv (n c : Nat) (E E' : Nat → Nat → K) : Prop :=
  ∃ U : Matrix (Fin n) (Fin n) K, IsUnit U.det ∧ block n c E' = U * block n c E

theorem RowEquiv.of_eq (h : ∀ i j, i < n → j < c → E' i j = E i j) : RowEquiv n c E E' :=
  ⟨1, by simp, by rw [Matrix.one_mul, block_congr h]⟩

theorem RowEquiv.refl (n c : Nat) (E : Nat → Nat → K) : RowEquiv n c E E :=
  RowEquiv.of_eq fun _ _ _ _ => rfl

theorem RowEquiv.trans (h : RowEquiv n c E E') (h' : RowEquiv n c E' E'') : RowEquiv n c E E'' := by
  obtain ⟨U, hU, hE'⟩ := h
  obtain ⟨V, hV, hE''⟩ := h'
  refine ⟨V * U, ?_, by rw [hE'', hE', Matrix.mul_assoc]⟩
  rw [Matrix.det_mul]
  exact hV.mul hU

/-- Adding a multiple of one row to another. -/
theorem RowEquiv.addRow {a b : Nat} (x : K) (ha : a < n) (hb : b < n) (hab : a ≠ b)
    (h : ∀ i j, i < n → j < c → E' i j = if i = a then E i j + x * E b j else E i j) :
    RowEquiv n c E E' := by
  have hne : (⟨a, ha⟩ : Fin n) ≠ ⟨b, hb⟩ := fun heq => hab (Fin.mk.inj heq)
  refine ⟨Matrix.transvection ⟨a, ha⟩ ⟨b, hb⟩ x, ?_, ?_⟩
  · rw [Matrix.det_transvection_of_ne _ _ hne]
    exact isUnit_one
  · ext i j
    rw [block_apply, h i j i.isLt j.isLt]
    by_cases hi : (i : Nat) = a
    · obtain rfl : i = ⟨a, ha⟩ := Fin.ext hi
      rw [if_pos rfl, Matrix.transvection_mul_apply_same]
      rfl
    · rw [if_neg hi, Matrix.transvection_mul_apply_of_ne _ _ _ _ fun heq => hi (congrArg Fin.val heq)]
      rfl

/-- Scaling a row by a nonzero factor. -/
theorem RowEquiv.scaleRow {a : Nat} {x : K} (hx : x ≠ 0)
    (h : ∀ i j, i < n → j < c → E' i j = if i = a then x * E i j else E i j) :
    RowEquiv n c E E' := by
  refine ⟨Matrix.diagonal fun i => if (i : Nat) = a then x else 1, ?_, ?_⟩
  · rw [Matrix.det_diagonal, isUnit_iff_ne_zero, Finset.prod_ne_zero_iff]
    intro i _
    split
    · exact hx
    · exact one_ne_zero
  · ext i j
    rw [block_apply, h i j i.isLt j.isLt, Matrix.diagonal_mul]
    by_cases hi : (i : Nat) = a
    · rw [if_pos hi, if_pos hi]
      rfl
    · rw [if_neg hi, if_neg hi, one_mul]
      rfl

/-- Row operations act on the leading square block alike. -/
theorem RowEquiv.lead (hnc : n ≤ c) {U : Matrix (Fin n) (Fin n) K}
    (h : block n c E' = U * block n c E) : block n n E' = U * block n n E := by
  ext i j
  have hij := congrFun (congrFun h i) (Fin.castLE hnc j)
  rw [Matrix.mul_apply] at hij ⊢
  exact hij

/-- A reduction that reaches the identity has multiplied by the inverse of
    the leading block. -/
theorem RowEquiv.systematic (hnc : n ≤ c) (h : RowEquiv n c E E')
    (hI : ∀ i j, i < n → j < n → E' i j = if i = j then 1 else 0) :
    IsUnit (block n n E).det ∧ block n c E' = (block n n E)⁻¹ * block n c E := by
  obtain ⟨U, hU, hE'⟩ := h
  have hone : block n n E' = 1 := by
    ext i j
    rw [block_apply, hI i j i.isLt j.isLt, Matrix.one_apply]
    simp only [Fin.ext_iff]
  have hlead : U * block n n E = 1 := by rw [← RowEquiv.lead hnc hE', hone]
  refine ⟨?_, ?_⟩
  · rw [← Matrix.isUnit_iff_isUnit_det]
    exact IsUnit.of_mul_eq_one_right U hlead
  · rw [hE', ← Matrix.inv_eq_left_inv hlead]

theorem RowEquiv.symm (h : RowEquiv n c E E') : RowEquiv n c E' E := by
  obtain ⟨U, hU, hE'⟩ := h
  refine ⟨U⁻¹, Matrix.isUnit_nonsing_inv_det U hU, ?_⟩
  rw [hE', ← Matrix.mul_assoc, Matrix.nonsing_inv_mul U hU, Matrix.one_mul]

/-- The span of the first `n` rows. -/
def rowSpace (n c : Nat) (E : Nat → Nat → K) : Submodule K (Fin c → K) :=
  Submodule.span K (Set.range (block n c E).row)

theorem RowEquiv.rowSpace_le (h : RowEquiv n c E E') : rowSpace n c E' ≤ rowSpace n c E := by
  obtain ⟨U, -, hE'⟩ := h
  unfold rowSpace
  rw [← range_vecMulLinear, ← range_vecMulLinear, hE']
  rintro _ ⟨v, rfl⟩
  exact ⟨Matrix.vecMul v U, Matrix.vecMul_vecMul v U _⟩

/-- Row operations keep the row space. -/
theorem RowEquiv.rowSpace_eq (h : RowEquiv n c E E') : rowSpace n c E' = rowSpace n c E :=
  le_antisymm h.rowSpace_le h.symm.rowSpace_le

/-- A square block with fewer independent leading columns than it has leading
    columns is singular. -/
theorem det_block_eq_zero {r : Nat} (hr : r < n)
    (hz : ∀ i j, r ≤ i → i < n → j ≤ r → E i j = 0) : (block n n E).det = 0 := by
  have hsmall : (block (r + 1) (r + 1) E).det = 0 :=
    Matrix.det_eq_zero_of_row_eq_zero (Fin.last r) fun j =>
      hz r j (Nat.le_refl _) hr (Nat.le_of_lt_succ j.isLt)
  obtain ⟨v, hv, hker⟩ := Matrix.exists_mulVec_eq_zero_iff.mpr hsmall
  -- a kernel vector of the first columns, padded with zeros, is one of the block
  apply Matrix.exists_mulVec_eq_zero_iff.mp
  refine ⟨fun j => if h : (j : Nat) < r + 1 then v ⟨j, h⟩ else 0, ?_, ?_⟩
  · intro hzero
    apply hv
    funext j
    have := congrFun hzero ⟨j, by omega⟩
    rwa [dif_pos j.isLt] at this
  · funext i
    have hsum : (block n n E).mulVec (fun j => if h : (j : Nat) < r + 1 then v ⟨j, h⟩ else 0) i
        = ∑ j : Fin (r + 1), E i j * v j := by
      rw [Matrix.mulVec, dotProduct]
      rw [← Finset.sum_subset (Finset.subset_univ
        (Finset.univ.map (Fin.castLEEmb (show r + 1 ≤ n by omega))))]
      · rw [Finset.sum_map]
        refine Finset.sum_congr rfl fun j _ => ?_
        rw [block_apply, dif_pos (by exact j.isLt)]
        rfl
      · intro j _ hj
        rw [dif_neg, mul_zero]
        intro hlt
        apply hj
        rw [Finset.mem_map]
        exact ⟨⟨j, hlt⟩, Finset.mem_univ _, Fin.ext rfl⟩
    rw [hsum]
    by_cases hi : (i : Nat) < r + 1
    · have := congrFun hker ⟨i, hi⟩
      rw [Matrix.mulVec, dotProduct] at this
      exact this
    · refine Finset.sum_eq_zero fun j _ => ?_
      rw [hz i j (by omega) i.isLt (Nat.le_of_lt_succ j.isLt), zero_mul]

/-- A reduction that finds no pivot in column `r` started from a singular
    leading block. -/
theorem RowEquiv.singular (hnc : n ≤ c) (h : RowEquiv n c E E') {r : Nat} (hr : r < n)
    (hz : ∀ i j, r ≤ i → i < n → j ≤ r → E' i j = 0) : (block n n E).det = 0 := by
  obtain ⟨U, hU, hE'⟩ := h
  have hdet := det_block_eq_zero hr hz
  rw [RowEquiv.lead hnc hE', Matrix.det_mul] at hdet
  exact (mul_eq_zero.mp hdet).resolve_left hU.ne_zero

theorem det_block_neg_transpose {k : Nat} {E F : Nat → Nat → K}
    (h : ∀ j i, j < k → i < k → E j i = -F i j) :
    (block k k E).det = 0 ↔ (block k k F).det = 0 := by
  have hE : block k k E = -(block k k F).transpose := by
    ext j i
    exact h j i j.isLt i.isLt
  rw [hE, Matrix.det_neg, Matrix.det_transpose, mul_eq_zero]
  exact or_iff_right (pow_ne_zero _ (neg_ne_zero.mpr one_ne_zero))

/-! ## The shape of a reduction in progress -/

/-- Columns `0, …, r - 1` are unit upper triangular. -/
structure Staircase (n r : Nat) (E : Nat → Nat → K) : Prop where
  diag : ∀ i, i < r → E i i = 1
  below : ∀ i j, i < n → j < r → j < i → E i j = 0

/-- Unit upper triangular, and columns `r, …, n - 1` are unit vectors. -/
structure Backed (n r : Nat) (E : Nat → Nat → K) : Prop extends Staircase n n E where
  above : ∀ i j, r ≤ j → j < n → i < j → E i j = 0

theorem Staircase.zero (n : Nat) (E : Nat → Nat → K) : Staircase n 0 E :=
  ⟨fun _ h => absurd h (Nat.not_lt_zero _), fun _ _ _ h => absurd h (Nat.not_lt_zero _)⟩

theorem Staircase.backed (h : Staircase n n E) : Backed n n E :=
  ⟨h, fun _ _ h1 h2 => absurd h2 (by omega)⟩

theorem Backed.identity (h : Backed n 0 E) :
    ∀ i j, i < n → j < n → E i j = if i = j then 1 else 0 := by
  intro i j hi hj
  rcases Nat.lt_trichotomy i j with hlt | rfl | hlt
  · rw [if_neg (by omega), h.above i j (Nat.zero_le _) hj hlt]
  · rw [if_pos rfl, h.diag i hi]
  · rw [if_neg (by omega), h.below i j hi hj hlt]

/-! ## Bordering -/

/-- The determinant of a block with one more row and column, when `y` solves
    the smaller system for the new column. -/
theorem det_block_succ {y : Nat → K}
    (h : ∀ j, j < n → ∑ r ∈ Finset.range n, E j r * y r = E j n) :
    (block (n + 1) (n + 1) E).det
      = (block n n E).det * (E n n - ∑ r ∈ Finset.range n, E n r * y r) := by
  have hE : (block (n + 1) (n + 1) E).submatrix finSumFinEquiv finSumFinEquiv
      = Matrix.fromBlocks (block n n E) (Matrix.of fun i (_ : Fin 1) => E i n)
        (Matrix.of fun (_ : Fin 1) j => E n j) (Matrix.of fun (_ : Fin 1) (_ : Fin 1) => E n n) := by
    ext i j
    rcases i with i | i <;> rcases j with j | j <;> simp [block]
  -- subtract the combination `y` of the first columns from the last one
  have hU : Matrix.fromBlocks (block n n E) (Matrix.of fun i (_ : Fin 1) => E i n)
        (Matrix.of fun (_ : Fin 1) j => E n j) (Matrix.of fun (_ : Fin 1) (_ : Fin 1) => E n n)
      * Matrix.fromBlocks 1 (Matrix.of fun (r : Fin n) (_ : Fin 1) => -y r) 0 1
      = Matrix.fromBlocks (block n n E) 0 (Matrix.of fun (_ : Fin 1) j => E n j)
        (Matrix.of fun (_ : Fin 1) (_ : Fin 1) => E n n - ∑ r ∈ Finset.range n, E n r * y r) := by
    rw [Matrix.fromBlocks_multiply]
    congr 1
    · simp
    · ext i j
      simp only [Matrix.add_apply, Matrix.mul_apply, block_apply, Matrix.of_apply, Matrix.mul_one,
        mul_neg, Finset.sum_neg_distrib, Matrix.zero_apply]
      rw [← h i i.isLt, Finset.sum_range, neg_add_cancel]
    · simp
    · ext i j
      simp only [Matrix.add_apply, Matrix.mul_apply, Matrix.of_apply, Matrix.mul_one, mul_neg,
        Finset.sum_neg_distrib]
      rw [Finset.sum_range]
      ring
  have hdet := congrArg Matrix.det hU
  rw [Matrix.det_mul, Matrix.det_fromBlocks_zero₂₁, Matrix.det_fromBlocks_zero₁₂, Matrix.det_one,
    Matrix.det_one, mul_one, mul_one, ← hE, Matrix.det_submatrix_equiv_self,
    Matrix.det_unique (n := Fin 1)] at hdet
  exact hdet

/-- Solving a bordered system: eliminate the new row with the solutions `y` and
    `x` of the smaller one, then substitute back. -/
theorem bordered_solve {y x z : Nat → K} {b : Nat → K}
    (hy : ∀ j, j < n → ∑ r ∈ Finset.range n, E j r * y r = E j n)
    (hx : ∀ j, j < n → ∑ r ∈ Finset.range n, E j r * x r = b j)
    (hpiv : E n n - ∑ r ∈ Finset.range n, E n r * y r ≠ 0)
    (hlast : z n = (E n n - ∑ r ∈ Finset.range n, E n r * y r)⁻¹
      * (b n - ∑ r ∈ Finset.range n, E n r * x r))
    (hz : ∀ r, r < n → z r = x r - y r * z n) :
    ∀ j, j ≤ n → ∑ r ∈ Finset.range (n + 1), E j r * z r = b j := by
  intro j hj
  have hsum : ∑ r ∈ Finset.range n, E j r * z r
      = ∑ r ∈ Finset.range n, E j r * x r - (∑ r ∈ Finset.range n, E j r * y r) * z n := by
    rw [Finset.sum_mul, ← Finset.sum_sub_distrib]
    refine Finset.sum_congr rfl fun r hr => ?_
    rw [hz r (Finset.mem_range.mp hr)]
    ring
  rw [Finset.sum_range_succ, hsum]
  rcases Nat.lt_or_eq_of_le hj with hlt | rfl
  · rw [hx j hlt, hy j hlt]
    ring
  · have hn : (E j j - ∑ r ∈ Finset.range j, E j r * y r) * z j
        = b j - ∑ r ∈ Finset.range j, E j r * x r := by
      rw [hlast, mul_inv_cancel_left₀ hpiv]
    linear_combination hn

/-! ## The systematic form -/

section

variable (hnc : n ≤ c)

/-- The leading square block of a matrix. -/
def lead (F : Matrix (Fin n) (Fin c) K) : Matrix (Fin n) (Fin n) K :=
  F.submatrix id (Fin.castLE hnc)

/-- The systematic form: the leading block becomes the identity. -/
noncomputable def systematic (F : Matrix (Fin n) (Fin c) K) : Matrix (Fin n) (Fin c) K :=
  (lead hnc F)⁻¹ * F

theorem lead_mul (U : Matrix (Fin n) (Fin n) K) (F : Matrix (Fin n) (Fin c) K) :
    lead hnc (U * F) = U * lead hnc F := by
  ext i j
  rfl

/-- Row operations do not change the systematic form. -/
theorem systematic_mul {U : Matrix (Fin n) (Fin n) K} (hU : IsUnit U.det)
    (F : Matrix (Fin n) (Fin c) K) : systematic hnc (U * F) = systematic hnc F := by
  unfold systematic
  rw [lead_mul, Matrix.mul_inv_rev, Matrix.mul_assoc, ← Matrix.mul_assoc U⁻¹,
    Matrix.nonsing_inv_mul _ hU, Matrix.one_mul]

theorem lead_mul_systematic {F : Matrix (Fin n) (Fin c) K} (hF : IsUnit (lead hnc F).det) :
    lead hnc F * systematic hnc F = F := by
  rw [systematic, ← Matrix.mul_assoc, Matrix.mul_nonsing_inv _ hF, Matrix.one_mul]

/-- A row of the matrix that is a unit vector on the leading block is a row of
    the systematic form. -/
theorem systematic_row {F : Matrix (Fin n) (Fin c) K} (hF : IsUnit (lead hnc F).det) {i : Fin n}
    (hi : ∀ j : Fin n, F i (Fin.castLE hnc j) = if j = i then 1 else 0) (j : Fin c) :
    systematic hnc F i j = F i j := by
  have h := congrFun (congrFun (lead_mul_systematic hnc hF) i) j
  rw [Matrix.mul_apply, Finset.sum_eq_single i] at h
  · rw [← h, lead, Matrix.submatrix_apply, id, hi i, if_pos rfl, one_mul]
  · intro b _ hb
    rw [lead, Matrix.submatrix_apply, id, hi b, if_neg hb, zero_mul]
  · intro hni
    exact absurd (Finset.mem_univ i) hni

end

end Meds.Core
