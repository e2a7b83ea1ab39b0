/-
  Meds.Ref.SystematicForm

  `pmod_mat_syst_ct` as a function of its matrix.

  Write the matrix as (L | R) with L its leading square block.  The status
  says whether L is invertible.  If it is, the result is (1 | L⁻¹ R); if it is
  not, the rows left behind still span what the rows of the input span.  So
  a matrix with the same row space, T M for an invertible T, is treated alike.
-/

import Meds.Ref.MatrixModSpec

namespace Meds.Ref

open Meds.Core

variable {P : Params} {Mr Mc : Nat} {M : Arr UInt16}

/-- The columns from `Mr` on, of an `Mr × Mc` matrix. -/
def restBlock (P : Params) (Mr Mc : Nat) (M : Arr UInt16) :
    Matrix (Fin Mr) (Fin (Mc - Mr)) (ZMod P.p) :=
  Matrix.of fun i j => ent P Mc M i (Mr + j)

/-- The leading square block. -/
def leadBlock (P : Params) (Mr Mc : Nat) (M : Arr UInt16) : Matrix (Fin Mr) (Fin Mr) (ZMod P.p) :=
  block Mr Mr (ent P Mc M)

section

variable [hprime : Fact P.p.Prime]

/-- The two outcomes of `pmod_mat_syst_ct`. -/
theorem pmodMatSystCt_outcome (hred : Reduced P M (Mc * Mr)) (hle : Mr ≤ Mc) (hp : P.p ≤ 2 ^ 16) :
    (IsUnit (leadBlock P Mr Mc M).det ∧ (pmodMatSystCt P M Mr Mc).1 = 0 ∧
        SystSpec P Mr Mc M (pmodMatSystCt P M Mr Mc).2) ∨
      (¬ IsUnit (leadBlock P Mr Mc M).det ∧ (pmodMatSystCt P M Mr Mc).1 = -1) := by
  rcases pmodMatSystCt_spec Mr Mc hred hle hp with h | ⟨hdet, hret⟩
  · exact Or.inl h
  · refine Or.inr ⟨?_, hret⟩
    rw [leadBlock, hdet]
    exact not_isUnit_zero

/-- On success and on failure, the matrix changes by row operations only. -/
theorem pmodMatSystCt_rowEquiv (hred : Reduced P M (Mc * Mr)) (hle : Mr ≤ Mc) (hp : P.p ≤ 2 ^ 16) :
    RowEquiv Mr Mc (ent P Mc M) (ent P Mc (pmodMatSystCt P M Mr Mc).2) := by
  rcases pmodMatSystCt_outcome hred hle hp with ⟨hunit, -, hS⟩ | ⟨-, hret⟩
  · exact ⟨_, Matrix.isUnit_nonsing_inv_det _ hunit, hS.block_eq⟩
  -- the elimination has stopped at a column without a pivot
  obtain ⟨N, b, hfwd⟩ : ∃ N b, forward P Mr Mc M = (N, b) := ⟨_, _, rfl⟩
  have hspec := forward_spec hred hle hp
  unfold pmodMatSystCt at hret ⊢
  rw [hfwd] at hret hspec ⊢
  cases b with
  | false => exact absurd hret (by simp)
  | true =>
      obtain ⟨hflag, -⟩ | ⟨-, r, -, hF, -⟩ := hspec
      · cases hflag
      · exact hF.equiv

/-- The result on success, in blocks. -/
theorem SystSpec.restBlock_eq {M' : Arr UInt16} (h : SystSpec P Mr Mc M M') :
    restBlock P Mr Mc M' = (leadBlock P Mr Mc M)⁻¹ * restBlock P Mr Mc M := by
  ext i j
  have hj : Mr + (j : Nat) < Mc := by
    have := j.isLt
    omega
  exact congrFun (congrFun h.block_eq i) ⟨Mr + j, hj⟩

theorem SystSpec.leadBlock_eq {M' : Arr UInt16} (h : SystSpec P Mr Mc M M') :
    leadBlock P Mr Mc M' = 1 := by
  ext i j
  rw [leadBlock, block_apply, h.identity i j i.isLt j.isLt, Matrix.one_apply]
  simp only [Fin.ext_iff]

/-- The systematic forms of M and T M agree in every cell. -/
theorem SystSpec.cells_eq {N M' N' : Arr UInt16} {T : Matrix (Fin Mr) (Fin Mr) (ZMod P.p)}
    (hT : IsUnit T.det) (hTM : block Mr Mc (ent P Mc N) = T * block Mr Mc (ent P Mc M))
    (hle : Mr ≤ Mc) (hM : SystSpec P Mr Mc M M') (hN : SystSpec P Mr Mc N N') :
    ∀ idx, idx < Mc * Mr → N'.get idx = M'.get idx := by
  have hblock : block Mr Mc (ent P Mc N') = block Mr Mc (ent P Mc M') := by
    rw [hN.block_eq, hM.block_eq, RowEquiv.lead hle hTM, hTM, Matrix.mul_inv_rev, Matrix.mul_assoc,
      ← Matrix.mul_assoc T⁻¹, Matrix.nonsing_inv_mul T hT, Matrix.one_mul]
  intro idx hidx
  obtain ⟨r, c, hr, hc, rfl⟩ := exists_flat_nat hidx
  exact eq_of_cast_eq (hN.reduced _ hidx) (hM.reduced _ hidx)
    (congrFun (congrFun hblock ⟨r, hr⟩) ⟨c, hc⟩)

/-- What `pmod_mat_syst_ct` computes, and that an invertible factor on the left
    changes neither the status nor the systematic form. -/
theorem pmodMatSystCt_exact (hp : P.p < 2 ^ 16) (hle : Mr ≤ Mc)
    (hred : Reduced P M (Mc * Mr)) :
    ((pmodMatSystCt P M Mr Mc).1 = 0 ↔ IsUnit (leadBlock P Mr Mc M).det) ∧
      ((pmodMatSystCt P M Mr Mc).1 = 0 →
        leadBlock P Mr Mc (pmodMatSystCt P M Mr Mc).2 = 1 ∧
          restBlock P Mr Mc (pmodMatSystCt P M Mr Mc).2
            = (leadBlock P Mr Mc M)⁻¹ * restBlock P Mr Mc M ∧
          Reduced P (pmodMatSystCt P M Mr Mc).2 (Mc * Mr)) ∧
      ((pmodMatSystCt P M Mr Mc).1 ≠ 0 →
        (pmodMatSystCt P M Mr Mc).1 = -1 ∧ ¬ IsUnit (leadBlock P Mr Mc M).det ∧
          rowSpace Mr Mc (ent P Mc (pmodMatSystCt P M Mr Mc).2) = rowSpace Mr Mc (ent P Mc M)) ∧
      ∀ (T : Matrix (Fin Mr) (Fin Mr) (ZMod P.p)) (N : Arr UInt16), IsUnit T.det →
        Reduced P N (Mc * Mr) → block Mr Mc (ent P Mc N) = T * block Mr Mc (ent P Mc M) →
        (pmodMatSystCt P N Mr Mc).1 = (pmodMatSystCt P M Mr Mc).1 ∧
          ((pmodMatSystCt P M Mr Mc).1 = 0 → ∀ idx, idx < Mc * Mr →
            (pmodMatSystCt P N Mr Mc).2.get idx = (pmodMatSystCt P M Mr Mc).2.get idx) := by
  have hp := hp.le
  have hout := pmodMatSystCt_outcome hred hle hp
  refine ⟨?_, fun h0 => ?_, fun h0 => ?_, fun T N hT hN hTM => ?_⟩
  · obtain ⟨hunit, hret, -⟩ | ⟨hnot, hret⟩ := hout
    · exact ⟨fun _ => hunit, fun _ => hret⟩
    · exact ⟨fun h => by rw [hret] at h; exact absurd h (by decide), fun h => absurd h hnot⟩
  · obtain ⟨-, -, hS⟩ | ⟨-, hret⟩ := hout
    · exact ⟨hS.leadBlock_eq, hS.restBlock_eq, hS.reduced⟩
    · rw [hret] at h0
      exact absurd h0 (by decide)
  · obtain ⟨-, hret, -⟩ | ⟨hnot, hret⟩ := hout
    · exact absurd hret h0
    · exact ⟨hret, hnot, (pmodMatSystCt_rowEquiv hred hle hp).rowSpace_eq⟩
  · -- multiplying from the left keeps the leading block invertible or singular
    have hdet : IsUnit (leadBlock P Mr Mc N).det ↔ IsUnit (leadBlock P Mr Mc M).det := by
      rw [leadBlock, RowEquiv.lead hle hTM, Matrix.det_mul, IsUnit.mul_iff, and_iff_right hT, leadBlock]
    obtain ⟨hunit, hret, hS⟩ | ⟨hnot, hret⟩ := hout
    · obtain ⟨-, hret', hS'⟩ | ⟨hnot', -⟩ := pmodMatSystCt_outcome hN hle hp
      · exact ⟨hret'.trans hret.symm, fun _ => hS.cells_eq hT hTM hle hS'⟩
      · exact absurd (hdet.mpr hunit) hnot'
    · obtain ⟨hunit', -, -⟩ | ⟨-, hret'⟩ := pmodMatSystCt_outcome hN hle hp
      · exact absurd (hdet.mp hunit') hnot
      · refine ⟨hret'.trans hret.symm, fun h0 => ?_⟩
        rw [hret] at h0
        exact absurd h0 (by decide)

end

/-- The entries 0 1 2 / 1 2 1 over GF(3). -/
def pivotLess : Arr UInt16 := ⟨[0, 1, 2, 1, 2, 1]⟩

/-- The entries 1 2 0 / 2 1 1: the second row starts with twice the first. -/
def singularLead : Arr UInt16 := ⟨[1, 2, 0, 2, 1, 1]⟩

instance : Fact tiny.p.Prime := ⟨Nat.prime_three⟩

/-- The first matrix needs a row addition for its pivot and a back substitution, and adding
    its second row to the first changes nothing; the second has no systematic form. -/
theorem pmodMatSystCt_exact_pivot :
    (((pmodMatSystCt tiny pivotLess 2 3).1 = 0 ↔ IsUnit (leadBlock tiny 2 3 pivotLess).det) ∧
      (pmodMatSystCt tiny pivotLess 2 3).2.slice 0 6 = [1, 0, 0, 0, 1, 2] ∧
      leadBlock tiny 2 3 (pmodMatSystCt tiny pivotLess 2 3).2 = 1 ∧
      restBlock tiny 2 3 (pmodMatSystCt tiny pivotLess 2 3).2
        = (leadBlock tiny 2 3 pivotLess)⁻¹ * restBlock tiny 2 3 pivotLess ∧
      Reduced tiny (pmodMatSystCt tiny pivotLess 2 3).2 6) ∧
    ((pmodMatSystCt tiny ⟨[1, 0, 0, 1, 2, 1]⟩ 2 3).1 = (pmodMatSystCt tiny pivotLess 2 3).1 ∧
      ∀ idx, idx < 6 → (pmodMatSystCt tiny ⟨[1, 0, 0, 1, 2, 1]⟩ 2 3).2.get idx
        = (pmodMatSystCt tiny pivotLess 2 3).2.get idx) ∧
    ((pmodMatSystCt tiny singularLead 2 3).1 = -1 ∧ ¬ IsUnit (leadBlock tiny 2 3 singularLead).det ∧
      rowSpace 2 3 (ent tiny 3 (pmodMatSystCt tiny singularLead 2 3).2)
        = rowSpace 2 3 (ent tiny 3 singularLead)) := by
  have hred : ∀ M ∈ [pivotLess, singularLead, ⟨[1, 0, 0, 1, 2, 1]⟩], Reduced tiny M (3 * 2) := by
    unfold Reduced
    decide
  have hret : (pmodMatSystCt tiny pivotLess 2 3).1 = 0 := by decide
  have hadd : IsUnit (!![1, 1; 0, 1] : Matrix (Fin 2) (Fin 2) (ZMod tiny.p)).det := by
    rw [Matrix.det_fin_two_of, one_mul, mul_zero, sub_zero]
    exact isUnit_one
  obtain ⟨hiff, hform, -, hleft⟩ := @pmodMatSystCt_exact tiny 2 3 pivotLess _ (by decide)
    (by decide) (hred pivotLess (by simp))
  obtain ⟨-, -, hfail, -⟩ := @pmodMatSystCt_exact tiny 2 3 singularLead _ (by decide)
    (by decide) (hred singularLead (by simp))
  obtain ⟨hstatus, hcells⟩ := hleft !![1, 1; 0, 1] ⟨[1, 0, 0, 1, 2, 1]⟩ hadd (hred _ (by simp))
    (by decide)
  exact ⟨⟨hiff, by decide, hform hret⟩, ⟨hstatus, hcells hret⟩, hfail (by decide)⟩

end Meds.Ref
