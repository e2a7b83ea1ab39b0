/-
  Meds.Core.LinearSystem

  Square linear systems and their reduced echelon form.

  A system of `N` equations in `N` unknowns is a table with `N` rows and
  `N + 1` columns, the last of which is the right-hand side.  Its echelon form
  has ones all along the diagonal exactly when the system has one solution,
  and then the last column is that solution.
-/

import Meds.Core.Echelon

namespace Meds.Core

variable {K : Type} [Field K] {N : Nat} {E E' : Nat → Nat → K} {x : Fin N → K}

/-- `x` solves the system `E`. -/
def Solves (N : Nat) (E : Nat → Nat → K) (x : Fin N → K) : Prop :=
  ∀ i : Fin N, ∑ j : Fin N, E i j * x j = E i N

/-- The right-hand side. -/
def lastColumn (N : Nat) (E : Nat → Nat → K) : Fin N → K := fun i => E i N

theorem solves_iff_mulVec : Solves N E x ↔ (block N N E).mulVec x = lastColumn N E :=
  ⟨fun h => funext h, fun h i => congrFun h i⟩

/-- Row operations act on the coefficients and on the right-hand side. -/
theorem RowEquiv.split {U : Matrix (Fin N) (Fin N) K}
    (h : block N (N + 1) E' = U * block N (N + 1) E) :
    block N N E' = U * block N N E ∧ lastColumn N E' = U.mulVec (lastColumn N E) := by
  refine ⟨RowEquiv.lead (Nat.le_succ N) h, funext fun i => ?_⟩
  have hi := congrFun (congrFun h i) (Fin.last N)
  rw [Matrix.mul_apply] at hi
  exact hi

theorem RowEquiv.solves (h : RowEquiv N (N + 1) E E') (hx : Solves N E x) : Solves N E' x := by
  obtain ⟨U, -, hU⟩ := h
  obtain ⟨hlead, hlast⟩ := RowEquiv.split hU
  rw [solves_iff_mulVec] at hx ⊢
  rw [hlead, hlast, ← hx, Matrix.mulVec_mulVec]

theorem RowEquiv.solves_iff (h : RowEquiv N (N + 1) E E') : Solves N E x ↔ Solves N E' x :=
  ⟨h.solves, h.symm.solves⟩

/-- A system with the identity on the left is solved by its right-hand side. -/
theorem solves_iff_of_identity (hI : ∀ i j, i < N → j < N → E i j = if i = j then 1 else 0) :
    Solves N E x ↔ x = lastColumn N E := by
  have hone : block N N E = 1 := by
    ext i j
    rw [block_apply, hI i j i.isLt j.isLt, Matrix.one_apply]
    simp only [Fin.ext_iff]
  rw [solves_iff_mulVec, hone, Matrix.one_mulVec]

/-- With one solution only, the coefficients are invertible. -/
theorem isUnit_det_of_existsUnique (h : ∃! x, Solves N E x) : IsUnit (block N N E).det := by
  obtain ⟨x, hx, huniq⟩ := h
  rw [isUnit_iff_ne_zero]
  intro hdet
  obtain ⟨v, hv, hker⟩ := Matrix.exists_mulVec_eq_zero_iff.mpr hdet
  -- a vector of the kernel can be added to the solution
  have hsum : Solves N E (x + v) := by
    rw [solves_iff_mulVec, Matrix.mulVec_add, hker, add_zero]
    exact solves_iff_mulVec.mp hx
  exact hv (add_eq_left.mp (huniq _ hsum))

variable [DecidableEq K]

/-- The test on the diagonal and the last column decide a square system. -/
theorem echelon_solves (E : Nat → Nat → K) :
    (∀ i, i < N → echelon N (N + 1) E i i = 1) ∧
        (∀ x, Solves N E x ↔ x = lastColumn N (echelon N (N + 1) E)) ∨
      ¬ (∀ i, i < N → echelon N (N + 1) E i i = 1) ∧ ¬ ∃! x, Solves N E x := by
  have hequiv := (echelon_spec N (N + 1) E).2
  rcases echelon_diag (Nat.le_succ N) E with ⟨hdiag, hunit, -⟩ | ⟨hdiag, hdet⟩
  · refine Or.inl ⟨hdiag, fun x => ?_⟩
    rw [hequiv.solves_iff, solves_iff_of_identity hunit]
  · exact Or.inr ⟨hdiag, fun huniq => (isUnit_det_of_existsUnique huniq).ne_zero hdet⟩

end Meds.Core
