/-
  Meds.Ref.SolveExact

  `solve` against the linear system it stands for.

  The system asks for A and B⁻¹ with A P0 = B⁻¹, rows of A P1 equal to the
  next rows of B⁻¹, a last row of A P1 that is zero but for its last entry, and
  a given last entry of A.  `solve` never forms it; it succeeds exactly when
  the system has one solution, and then it returns that.
-/

import Meds.Core.RowChain
import Meds.Ref.KeypairSpec

namespace Meds.Ref

open Meds.Core

variable {P : Params}

section

variable (P)

/-- `solve` with the arrays `A` and `B_inv` that it writes: the status and their contents. -/
def solveInto (A Binv G0prime : Arr UInt16) (Amm : Nat) : Int × Arr UInt16 × Arr UInt16 :=
  let P0prime0 := forUp 0 (P.m * P.n) (fun i M => M.set i (G0prime.get i)) Arr.empty
  let P0prime1 := forUp 0 (P.m * P.n) (fun i M => M.set i (G0prime.get (i + P.m * P.n))) Arr.empty
  let N := solveN P P0prime0
  match solveReduce P (solveM P P0prime0 P0prime1 Amm) with
  | none => (-1, A, Binv)
  | some M =>
    let sol := solveSol P M N P0prime0 Amm
    (0, forUp 0 (P.m * P.m) (fun i A => A.set i (sol.get (i + P.n * P.n))) A,
      forUp 0 (P.n * P.n) (fun i Binv => Binv.set i (sol.get i)) Binv)

/-- Matrix `r` of a generator. -/
def subMatrix (G : Arr UInt16) (r : Nat) : Matrix (Fin P.n) (Fin P.n) (ZMod P.p) :=
  block P.n P.n (subEnt P G r)

/-- The system in `A` and `B_inv`, for P0 and P1 the first two matrices of `G`. -/
structure SolveEquations (G : Arr UInt16) (Amm : Nat)
    (A Binv : Matrix (Fin P.n) (Fin P.n) (ZMod P.p)) : Prop where
  prod : A * subMatrix P G 0 = Binv
  shift : ∀ r r' j : Fin P.n, (r' : Nat) = r + 1 → (A * subMatrix P G 1) r j = Binv r' j
  last : ∀ r j : Fin P.n, (r : Nat) + 1 = P.n → (j : Nat) + 1 < P.n → (A * subMatrix P G 1) r j = 0
  corner : ∀ r : Fin P.n, (r : Nat) + 1 = P.n → A r r = Amm

end

/-! ## The buffers -/

theorem solveInto_none {G : Arr UInt16} {Amm : Nat} (h : solve P G Amm = none) (A Binv : Arr UInt16) :
    solveInto P A Binv G Amm = (-1, A, Binv) := by
  unfold solve at h
  unfold solveInto
  simp only at h ⊢
  split
  · rfl
  · rename_i hred
    rw [hred] at h
    cases h

/-- What a copy loop leaves does not depend on the target. -/
theorem get_copy (len : Nat) (v : Nat → UInt16) (M N : Arr UInt16) {i : Nat} (hi : i < len) :
    (forUp 0 len (fun i M => M.set i (v i)) M).get i
      = (forUp 0 len (fun i M => M.set i (v i)) N).get i := by
  have hget : ∀ M : Arr UInt16, (forUp 0 len (fun i M => M.set i (v i)) M).get i = v i := fun M =>
    (fill_spec 0 len (ι := fun i => i) (g := fun (_ : Arr UInt16) i => v i) (M := M)
      (fun _ _ _ _ _ _ h => h) (fun _ _ _ _ _ => rfl)).1 i (Nat.zero_le i) hi
  rw [hget, hget]

theorem solveInto_some {G A' Binv' : Arr UInt16} {Amm : Nat} (h : solve P G Amm = some (A', Binv'))
    (A Binv : Arr UInt16) :
    (solveInto P A Binv G Amm).1 = 0 ∧
      (∀ i, i < P.m * P.m → (solveInto P A Binv G Amm).2.1.get i = A'.get i) ∧
      ∀ i, i < P.n * P.n → (solveInto P A Binv G Amm).2.2.get i = Binv'.get i := by
  unfold solve at h
  unfold solveInto
  simp only at h ⊢
  split
  · rename_i hred
    rw [hred] at h
    cases h
  · rename_i hred
    rw [hred] at h
    cases h
    exact ⟨rfl, fun i hi => get_copy _ _ _ _ hi, fun i hi => get_copy _ _ _ _ hi⟩

/-! ## The system -/

theorem SolveEquations.rowChain {G : Arr UInt16} {Amm : Nat}
    {A Binv : Matrix (Fin P.n) (Fin P.n) (ZMod P.p)} (h : SolveEquations P G Amm A Binv)
    [Fact P.p.Prime] : RowChain (subMatrix P G 0) (subMatrix P G 1) (Amm : ZMod P.p) A where
  shift r r' j hr := by rw [h.shift r r' j hr, h.prod]
  last := h.last
  corner := h.corner

theorem solveEquations_of_rowChain {G : Arr UInt16} {Amm : Nat}
    {A : Matrix (Fin P.n) (Fin P.n) (ZMod P.p)} [Fact P.p.Prime]
    (h : RowChain (subMatrix P G 0) (subMatrix P G 1) (Amm : ZMod P.p) A) :
    SolveEquations P G Amm A (A * subMatrix P G 0) where
  prod := rfl
  shift := h.shift
  last := h.last
  corner := h.corner

/-- B⁻¹ is determined by A. -/
theorem existsUnique_solveEquations_iff {G : Arr UInt16} {Amm : Nat} [Fact P.p.Prime] :
    (∃! X : Matrix (Fin P.n) (Fin P.n) (ZMod P.p) × Matrix (Fin P.n) (Fin P.n) (ZMod P.p),
        SolveEquations P G Amm X.1 X.2) ↔
      ∃! A, RowChain (subMatrix P G 0) (subMatrix P G 1) (Amm : ZMod P.p) A := by
  constructor
  · rintro ⟨⟨A, Binv⟩, hA, huniq⟩
    refine ⟨A, hA.rowChain, fun A' hA' => ?_⟩
    exact congrArg Prod.fst (huniq (A', _) (solveEquations_of_rowChain hA'))
  · rintro ⟨A, hA, huniq⟩
    refine ⟨(A, _), solveEquations_of_rowChain hA, fun X hX => ?_⟩
    have hfst := huniq X.1 hX.rowChain
    exact Prod.ext hfst (by rw [← hX.prod, hfst])

/-- The matrices that `solve` returns satisfy the equations. -/
theorem SolveSpec.equations {G A Binv : Arr UInt16} {Amm : Nat} [Fact P.p.Prime]
    (h : SolveSpec P G Amm A Binv) : SolveEquations P G Amm (sq P A) (sq P Binv) := by
  have hmul : ∀ (r i j : Nat) (hi : i < P.n) (hj : j < P.n),
      (sq P A * subMatrix P G r) ⟨i, hi⟩ ⟨j, hj⟩
        = ∑ x ∈ Finset.range P.n, ent P P.n A i x * subEnt P G r x j := by
    intro r i j hi hj
    rw [Matrix.mul_apply, Finset.sum_range]
    rfl
  refine ⟨?_, fun r r' j hr => ?_, fun r j hr hj => ?_, fun r hr => ?_⟩
  · ext i j
    exact (hmul 0 i j i.isLt j.isLt).trans (h.binv i j i.isLt j.isLt).symm
  · have hr' := r'.isLt
    rw [hmul 1 r j r.isLt j.isLt, h.shift r j (by omega) j.isLt, ← hr]
    exact (h.binv r' j hr' j.isLt).symm
  · rw [hmul 1 r j r.isLt j.isLt, show (r : Nat) = P.n - 1 by omega]
    exact h.last j hj
  · rw [sq, block_apply, show (r : Nat) = P.n - 1 by omega]
    exact h.corner

/-- `solve` is exact: it succeeds if and only if the system has exactly one
    solution, returns it then, and writes nothing otherwise. -/
theorem solve_exact [Fact P.p.Prime] (hp : P.p < 2 ^ 16) (hm : P.m = P.n) (hn : 2 ≤ P.n)
    {G : Arr UInt16} {Amm : Nat} (hG : Reduced P G (P.n * P.n * 2)) (hAmm : Amm < P.p)
    (A Binv : Arr UInt16) :
    ((solveInto P A Binv G Amm).1 = 0 ↔
        ∃! X : Matrix (Fin P.n) (Fin P.n) (ZMod P.p) × Matrix (Fin P.n) (Fin P.n) (ZMod P.p),
          SolveEquations P G Amm X.1 X.2) ∧
      ((solveInto P A Binv G Amm).1 = 0 →
        SolveEquations P G Amm (sq P (solveInto P A Binv G Amm).2.1)
            (sq P (solveInto P A Binv G Amm).2.2) ∧
          Reduced P (solveInto P A Binv G Amm).2.1 (P.n * P.n) ∧
          Reduced P (solveInto P A Binv G Amm).2.2 (P.n * P.n)) ∧
      ((solveInto P A Binv G Amm).1 ≠ 0 → solveInto P A Binv G Amm = (-1, A, Binv)) := by
  have hexists := @existsUnique_rowChain_iff _ _ _ (subMatrix P G 0) (subMatrix P G 1)
    (Amm : ZMod P.p) hn
  rw [existsUnique_solveEquations_iff]
  rcases solve_spec hm hn hp.le hG hAmm with ⟨hminor, hdet, A', Binv', hsol, hS⟩ | ⟨hor, hnone⟩
  · -- both minors are units: the solution found is the only one
    obtain ⟨hret, hA, hB⟩ := solveInto_some hsol A Binv
    rw [hm] at hA
    have hone := (hexists fun _ _ => ⟨_, hS.equations.rowChain⟩).mpr ⟨hminor, hdet⟩
    refine ⟨⟨fun _ => hone, fun _ => hret⟩, fun _ => ⟨?_, fun i hi => ?_, fun i hi => ?_⟩,
      fun h => absurd hret h⟩
    · rw [sq_congr hA, sq_congr hB]
      exact hS.equations
    · rw [hA i hi]
      exact hS.reducedA i hi
    · rw [hB i hi]
      exact hS.reducedBinv i hi
  · -- a minor vanishes: no solution, or more than one
    have hret := solveInto_none hnone A Binv
    have hnot : ¬ ((leadMinor (subMatrix P G 1)).det ≠ 0 ∧ (subMatrix P G 1).det ≠ 0) := by
      rintro ⟨h1, h2⟩
      exact hor.elim h1 h2
    have hneg : (solveInto P A Binv G Amm).1 ≠ 0 := by
      rw [hret]
      exact (by decide : (-1 : Int) ≠ 0)
    refine ⟨⟨fun h => absurd h hneg, fun h => ?_⟩, fun h => absurd h hneg, fun _ => hret⟩
    exact absurd ((hexists fun h1 h2 => absurd ⟨h1, h2⟩ hnot).mp h) hnot

theorem solve_exact_tiny :
    (solveInto tiny ⟨[9]⟩ ⟨[9]⟩ ⟨[2, 0, 0, 0, 0, 1, 2, 0]⟩ 2).1 = 0 ↔
      ∃! X : Matrix (Fin 2) (Fin 2) (ZMod 3) × Matrix (Fin 2) (Fin 2) (ZMod 3),
        SolveEquations tiny ⟨[2, 0, 0, 0, 0, 1, 2, 0]⟩ 2 X.1 X.2 := by
  have : Fact tiny.p.Prime := ⟨Nat.prime_three⟩
  refine (solve_exact (P := tiny) (by decide) rfl (by decide) (fun idx hidx => ?_) (by decide) _ _).1
  change idx < 8 at hidx
  interval_cases idx <;> decide

end Meds.Ref
