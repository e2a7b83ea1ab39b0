/-
  Meds.Sage.SolversAgree

  The four solvers against each other.

  `solve_symb`, `solve_opt` and `solve` of util.c are exact: each reports the
  solution when there is exactly one, and none otherwise.  `solve_comp` sizes
  its rows with `m^2 + n^2`, which plain Python reads as an exclusive or, so its
  first assignment to a row is out of range.
-/

import Meds.Ref.SolveExact
import Meds.Sage.SolveOpt

namespace Meds.Sage

open Meds.Core Meds.Ref

section

variable {q n : Nat}

/-! ## solve_comp -/

/-- The rows are too short for the first coefficient of `A`. -/
theorem compColumns_le (hn : 2 ≤ n) : compColumns n n ≤ n * n := by
  by_cases hsmall : n < 4
  · obtain rfl | rfl : n = 2 ∨ n = 3 := by omega
    · decide
    · decide
  · obtain ⟨k, hk⟩ : ∃ k, Nat.log 2 (2 + n) = k := ⟨_, rfl⟩
    have hlow : 2 ^ k ≤ 2 + n := hk ▸ Nat.pow_log_le_self 2 (by omega)
    have hhigh : 2 + n < 2 ^ (k + 1) := hk ▸ Nat.lt_pow_succ_log_self (by decide) _
    have hxor : compColumns n n < 2 ^ (k + 1) :=
      Nat.xor_lt_two_pow (Nat.xor_lt_two_pow (by omega) hhigh) (by omega)
    have hsquare : 4 * n ≤ n * n := Nat.mul_le_mul_right n (by omega)
    rw [Nat.pow_succ] at hxor
    omega

theorem compRow_error (hn : 2 ≤ n) (Pj : Nat → Nat → ZMod q) (P : Mat q n n) (Amm : ZMod q) :
    compRow Pj P Amm 0 0 = .error .indexError := by
  have hfirst : setItem (List.replicate (compColumns n n) (0 : ZMod q)) (n * n + 0 * n + 0)
      (-table P 0 0) = .error .indexError := by
    rw [setItem, List.length_replicate, if_neg (by have := compColumns_le hn; omega)]
    rfl
  rw [compRow, forUpM_first (by omega), hfirst]
  rfl

/-- `solve_comp` raises an exception whatever it is given. -/
theorem solveComp_error [Fact q.Prime] (hn : 2 ≤ n) (P0prime0 P0prime1 : Mat q n n) (Amm : ZMod q) :
    solveComp P0prime0 P0prime1 Amm = .error .indexError := by
  rw [solveComp, compRows, forUpM_first (by omega), forUpM_first (by omega), compRow_error hn]
  rfl

end

/-! ## solve of util.c -/

section

variable {P : Params} [Fact P.p.Prime]

/-- What `solve` returns, as matrices. -/
def cAnswer (P : Params) (G0prime : Arr UInt16) (Amm : Nat) : Answer P.p P.n :=
  let ret := solveInto P Arr.empty Arr.empty G0prime Amm
  if ret.1 = 0 then some (sq P ret.2.1, sq P ret.2.2) else none

/-- The system that `solve` is measured by has the same solutions. -/
theorem solveEquations_iff {G : Arr UInt16} {Amm : Nat} {X : Mat P.p P.n P.n × Mat P.p P.n P.n} :
    SolveEquations P G Amm X.1 X.2 ↔
      IsAnswer (subMatrix P G 0) (subMatrix P G 1) (Amm : ZMod P.p) X := by
  constructor
  · exact fun h => ⟨h.rowChain, h.prod.symm⟩
  · rintro ⟨hchain, hprod⟩
    rw [hprod]
    exact solveEquations_of_rowChain hchain

/-- `solve` is exact. -/
theorem cAnswer_exact (hp : P.p < 2 ^ 16) (hm : P.m = P.n) (hn : 2 ≤ P.n) {G : Arr UInt16} {Amm : Nat}
    (hG : Reduced P G (P.n * P.n * 2)) (hAmm : Amm < P.p) :
    Exact (subMatrix P G 0) (subMatrix P G 1) (Amm : ZMod P.p) (cAnswer P G Amm) := by
  obtain ⟨hiff, hsome, -⟩ := solve_exact hp hm hn hG hAmm Arr.empty Arr.empty
  have huniq : (∃! X : Mat P.p P.n P.n × Mat P.p P.n P.n, SolveEquations P G Amm X.1 X.2) ↔
      ∃! X, IsAnswer (subMatrix P G 0) (subMatrix P G 1) (Amm : ZMod P.p) X :=
    existsUnique_congr fun _ => solveEquations_iff
  rw [huniq] at hiff
  by_cases hstatus : (solveInto P Arr.empty Arr.empty G Amm).1 = 0
  · obtain ⟨Y, hY, hY'⟩ := hiff.mp hstatus
    have hsol := solveEquations_iff (X := (_, _)).mp (hsome hstatus).1
    rw [cAnswer, if_pos hstatus]
    intro Z
    refine ⟨fun hZ => (hY' Z hZ).trans (hY' _ hsol).symm, ?_⟩
    rintro rfl
    exact hsol
  · rw [cAnswer, if_neg hstatus]
    exact mt hiff.mpr hstatus

/-! ## The four solvers -/

/-- All four report no solution, or all return the same matrices; `solve` is
    given any generator that starts with the two matrices. -/
def SolversAgree (P : Params) [Fact P.p.Prime] (P0prime0 P0prime1 : Mat P.p P.n P.n)
    (Amm : ZMod P.p) : Prop :=
  ∃ ans, solveSymb P0prime0 P0prime1 Amm = .ok ans ∧ solveOpt P0prime0 P0prime1 Amm = .ok ans ∧
    solveComp P0prime0 P0prime1 Amm = .ok ans ∧
    ∀ G0prime Amm', P.p < 2 ^ 16 → Reduced P G0prime (P.n * P.n * 2) → Amm' < P.p →
      subMatrix P G0prime 0 = P0prime0 → subMatrix P G0prime 1 = P0prime1 → (Amm' : ZMod P.p) = Amm →
      cAnswer P G0prime Amm' = ans

/-- The other three agree, and `solve_comp` raises an exception on every input. -/
theorem not_solversAgree (hm : P.m = P.n) (hn : 2 ≤ P.n) (P0prime0 P0prime1 : Mat P.p P.n P.n)
    (Amm : ZMod P.p) :
    ¬ SolversAgree P P0prime0 P0prime1 Amm ∧
      solveComp P0prime0 P0prime1 Amm = .error .indexError ∧
      ∃ ans, solveSymb P0prime0 P0prime1 Amm = .ok ans ∧ solveOpt P0prime0 P0prime1 Amm = .ok ans ∧
        ∀ G0prime Amm', P.p < 2 ^ 16 → Reduced P G0prime (P.n * P.n * 2) → Amm' < P.p →
          subMatrix P G0prime 0 = P0prime0 → subMatrix P G0prime 1 = P0prime1 →
          (Amm' : ZMod P.p) = Amm → cAnswer P G0prime Amm' = ans := by
  have hcomp := solveComp_error hn P0prime0 P0prime1 Amm
  refine ⟨?_, hcomp, ?_⟩
  · rintro ⟨ans, -, -, hans, -⟩
    rw [hcomp] at hans
    cases hans
  · obtain ⟨ans, hsymb, hexact⟩ := solveSymb_exact (by omega) P0prime0 P0prime1 Amm
    obtain ⟨ans', hopt, hexact'⟩ := solveOpt_exact hn P0prime0 P0prime1 Amm
    obtain rfl := hexact.unique hexact'
    refine ⟨ans, hsymb, hopt, fun G Amm' hp hG hAmm h0 h1 h2 => ?_⟩
    have hC := cAnswer_exact hp hm hn hG hAmm
    rw [h0, h1, h2] at hC
    exact hC.unique hexact

theorem not_solversAgree_tiny :
    have : Fact tiny.p.Prime := ⟨Nat.prime_three⟩
    ¬ SolversAgree tiny 1 0 2 ∧ solveComp (1 : Mat 3 2 2) 0 2 = .error .indexError := by
  have : Fact tiny.p.Prime := ⟨Nat.prime_three⟩
  have h := not_solversAgree (P := tiny) rfl (by decide) 1 0 2
  exact ⟨h.1, h.2.1⟩

/-- Two identities over GF(3). -/
theorem not_solversAgree_identities :
    have : Fact tiny.p.Prime := ⟨Nat.prime_three⟩
    ¬ SolversAgree tiny 1 1 1 := by
  intro _
  rintro ⟨ans, -, -, hans, -⟩
  rw [solveComp_error (show 2 ≤ tiny.n by decide)] at hans
  cases hans

end

end Meds.Sage
