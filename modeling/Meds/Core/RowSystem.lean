/-
  Meds.Core.RowSystem

  The table that all rows of a `RowChain` share.

  Transposed, the equations of a row have the coefficients -P1 and the right-
  hand sides P0 y, where y is the next row.  `RowSystem` is the table of all of
  them, with two more columns for what the last two rows need; once it is
  reduced (`RowReduced`), every row is read off from the next one
  (`RowUnknowns`).  The rows that come out are a solution.
-/

import Meds.Core.Gauss
import Meds.Core.Loop
import Meds.Core.RowChain

namespace Meds.Core

section

variable {K : Type} [CommRing K] {n : Nat} {P0 P1 : Nat → Nat → K} {amm : K}
  {E E' S : Nat → Nat → K}

/-- The table of the equations. -/
structure RowSystem (n : Nat) (P0 P1 : Nat → Nat → K) (amm : K) (E : Nat → Nat → K) : Prop where
  lead : ∀ j i, j < n → i < n → E j i = -P1 i j
  mid : ∀ j i, j < n → i < n → E j (n + i) = P0 i j
  corner : ∀ j, j < n → E j (2 * n) = -(amm * P0 (n - 1) j)
  last : ∀ j, j < n → E j (2 * n + 1) = amm * P1 (n - 1) j

/-- What the reduced table solves, column by column. -/
structure RowReduced (n : Nat) (E E' : Nat → Nat → K) : Prop where
  mid : ∀ j c, j < n → n ≤ c → c ≤ 2 * n → ∑ r ∈ Finset.range n, E j r * E' r c = E j c
  last : ∀ j, j < n - 1 →
    ∑ r ∈ Finset.range (n - 1), E j r * E' r (2 * n + 1) = E j (2 * n + 1)

/-- The unknowns, row by row: rows below `n` are those of A P0, the others those of A. -/
structure RowUnknowns (n : Nat) (E' P0 : Nat → Nat → K) (amm : K) (S : Nat → Nat → K) : Prop where
  corner : S (2 * n - 1) (n - 1) = amm
  last : ∀ i, i < n - 1 → S (2 * n - 1) i = E' i (2 * n + 1)
  second : ∀ i, i < n → S (2 * n - 2) i
    = E' i (2 * n) - ∑ x ∈ Finset.range (n - 1), E' i (n + x) * S (2 * n - 1) x
  upper : ∀ a i, a + 2 < n → i < n → S (n + a) i
    = -∑ x ∈ Finset.range n, E' i (n + x) * S (n + a + 1) x
  prod : ∀ a i, a < n → i < n → S a i = ∑ x ∈ Finset.range n, S (n + a) x * P0 x i

theorem sum_mul_comm (a b : Nat) (Y : Nat → Nat → K) (u q : Nat → K) :
    ∑ r ∈ Finset.range a, (∑ x ∈ Finset.range b, Y r x * u x) * q r
      = ∑ x ∈ Finset.range b, u x * ∑ r ∈ Finset.range a, q r * Y r x := by
  simp only [Finset.sum_mul, Finset.mul_sum]
  rw [Finset.sum_comm]
  refine Finset.sum_congr rfl fun x _ => Finset.sum_congr rfl fun r _ => ?_
  ring

/-- Columns of the reduced table, multiplied by P1. -/
theorem RowReduced.neg (hS : RowSystem n P0 P1 amm E) (hR : RowReduced n E E') {j c : Nat}
    (hj : j < n) (hc1 : n ≤ c) (hc2 : c ≤ 2 * n) :
    ∑ r ∈ Finset.range n, P1 r j * E' r c = -E j c := by
  rw [← hR.mid j c hj hc1 hc2, ← Finset.sum_neg_distrib]
  refine Finset.sum_congr rfl fun r hr => ?_
  rw [hS.lead j r hj (Finset.mem_range.mp hr)]
  ring

/-- A combination of the middle columns, multiplied by P1. -/
theorem RowReduced.neg_mid (hS : RowSystem n P0 P1 amm E) (hR : RowReduced n E E') {j cnt : Nat}
    (hj : j < n) (hcnt : cnt ≤ n) (u : Nat → K) :
    ∑ x ∈ Finset.range cnt, u x * ∑ r ∈ Finset.range n, P1 r j * E' r (n + x)
      = -∑ x ∈ Finset.range cnt, u x * P0 x j := by
  rw [← Finset.sum_neg_distrib]
  refine Finset.sum_congr rfl fun x hx => ?_
  have hx' := Finset.mem_range.mp hx
  rw [hR.neg hS hj (by omega) (by omega), hS.mid j x hj (by omega), mul_neg]

theorem sum_range_eq_pred (hn : 1 ≤ n) (f : Nat → K) :
    ∑ x ∈ Finset.range n, f x = ∑ x ∈ Finset.range (n - 1), f x + f (n - 1) := by
  rw [← Finset.sum_range_succ, Nat.sub_add_cancel hn]

/-- Every row of A is sent by P1 to what P0 makes of the next one. -/
theorem RowUnknowns.shift (hn : 2 ≤ n) (hS : RowSystem n P0 P1 amm E) (hR : RowReduced n E E')
    (h : RowUnknowns n E' P0 amm S) {i j : Nat} (hi : i + 1 < n) (hj : j < n) :
    ∑ x ∈ Finset.range n, S (n + i) x * P1 x j
      = ∑ x ∈ Finset.range n, S (n + (i + 1)) x * P0 x j := by
  by_cases hi2 : i + 2 < n
  · have hrow : ∀ x ∈ Finset.range n, S (n + i) x * P1 x j
        = -((∑ y ∈ Finset.range n, E' x (n + y) * S (n + (i + 1)) y) * P1 x j) := by
      intro x hx
      rw [h.upper i x hi2 (Finset.mem_range.mp hx), neg_mul]
      rfl
    rw [Finset.sum_congr rfl hrow, Finset.sum_neg_distrib,
      sum_mul_comm n n (fun x y => E' x (n + y)), hR.neg_mid hS hj (Nat.le_refl n), neg_neg]
  · -- the second row from below has its own right-hand side
    have hrow : ∀ x ∈ Finset.range n, S (n + i) x * P1 x j = P1 x j * E' x (2 * n)
        - (∑ y ∈ Finset.range (n - 1), E' x (n + y) * S (2 * n - 1) y) * P1 x j := by
      intro x hx
      rw [show n + i = 2 * n - 2 by omega, h.second x (Finset.mem_range.mp hx)]
      ring
    rw [Finset.sum_congr rfl hrow, Finset.sum_sub_distrib,
      sum_mul_comm n (n - 1) (fun x y => E' x (n + y)), hR.neg_mid hS hj (by omega),
      hR.neg hS hj (by omega) (Nat.le_refl _), hS.corner j hj,
      show n + (i + 1) = 2 * n - 1 by omega,
      sum_range_eq_pred (show 1 ≤ n by omega) fun x => S (2 * n - 1) x * P0 x j, h.corner]
    ring

/-- P1 sends the last row of A to zero but for its last entry. -/
theorem RowUnknowns.last_zero (hn : 2 ≤ n) (hS : RowSystem n P0 P1 amm E) (hR : RowReduced n E E')
    (h : RowUnknowns n E' P0 amm S) {j : Nat} (hj : j + 1 < n) :
    ∑ x ∈ Finset.range n, S (n + (n - 1)) x * P1 x j = 0 := by
  rw [sum_range_eq_pred (by omega), show n + (n - 1) = 2 * n - 1 by omega, h.corner,
    ← hS.last j (by omega), ← hR.last j (by omega), ← Finset.sum_add_distrib]
  refine Finset.sum_eq_zero fun r hr => ?_
  have hr' := Finset.mem_range.mp hr
  rw [hS.lead j r (by omega) (by omega), h.last r hr']
  ring

/-! ## Reading off the unknowns -/

/-- Row `R` has `f` times row `R'` subtracted, over the first `cnt` unknowns. -/
structure RowAccum (n R R' cnt : Nat) (f S S' : Nat → Nat → K) : Prop where
  row : ∀ i, i < n → S' R i = S R i - ∑ x ∈ Finset.range cnt, f i x * S R' x
  rest : ∀ R'' i, R'' ≠ R → i < n → S' R'' i = S R'' i

/-- The rows of unknowns that the reduced table holds. -/
structure RowStart (n : Nat) (E' P0 : Nat → Nat → K) (amm : K) (S : Nat → Nat → K) : Prop where
  corner : S (2 * n - 1) (n - 1) = amm
  last : ∀ i, i < n - 1 → S (2 * n - 1) i = E' i (2 * n + 1)
  second : ∀ i, i < n → S (2 * n - 2) i = E' i (2 * n)
  prod : ∀ i, i < n → S (n - 1) i = P0 (n - 1) i * amm
  zero : ∀ R i, R ≠ n - 1 → R + 2 < 2 * n → i < n → S R i = 0

section

variable {σ : Type} {V : σ → Nat → Nat → K} {s : σ}

/-- The rows of A, upwards: each is `f` times the row below it. -/
theorem forUp_upper {f : Nat → Nat → K} {step : Nat → σ → σ} (hn : 2 ≤ n)
    (hstep : ∀ b s, 3 ≤ b → b ≤ n →
      RowAccum n (2 * n - b) (2 * n - b + 1) n f (V s) (V (step b s)))
    (hzero : ∀ a i, a + 2 < n → i < n → V s (n + a) i = 0) :
    (∀ R i, R < n ∨ 2 * n < R + 3 → i < n →
        V (forUp 3 (n + 1) step s) R i = V s R i) ∧
      ∀ a i, a + 2 < n → i < n → V (forUp 3 (n + 1) step s) (n + a) i
        = -∑ x ∈ Finset.range n, f i x * V (forUp 3 (n + 1) step s) (n + a + 1) x := by
  obtain ⟨hkeep, hrow⟩ := forUp_invariant (s := s) (f := step)
    (fun b t => (∀ R i, R < n ∨ 2 * n < R + 3 ∨ R + b ≤ 2 * n → i < n → V t R i = V s R i) ∧
      ∀ a i, n < a + b → a + 2 < n → i < n → V t (n + a) i
        = -∑ x ∈ Finset.range n, f i x * V t (n + a + 1) x)
    (show 3 ≤ n + 1 by omega) (by
      rintro b t hb1 hb2 ⟨hkeep, hrow⟩
      have hA := hstep b t hb1 (by omega)
      refine ⟨fun R i hR hi => ?_, fun a i ha1 ha2 hi => ?_⟩
      · rw [hA.rest R i (by omega) hi, hkeep R i (by omega) hi]
      · -- the sums are over the row below, which this round does not change
        have hsum : ∑ x ∈ Finset.range n, f i x * V (step b t) (n + a + 1) x
            = ∑ x ∈ Finset.range n, f i x * V t (n + a + 1) x :=
          Finset.sum_congr rfl fun x hx => by
            rw [hA.rest _ x (by omega) (Finset.mem_range.mp hx)]
        rw [hsum]
        by_cases hab : a + b = n
        · rw [show n + a = 2 * n - b by omega, hA.row i hi, hkeep _ i (by omega) hi,
            show 2 * n - b = n + a by omega, hzero a i ha2 hi, zero_sub]
        · rw [hA.rest _ i (by omega) hi, hrow a i (by omega) ha2 hi])
    ⟨fun _ _ _ _ => rfl, fun a i h1 h2 => absurd h1 (by omega)⟩
  exact ⟨fun R i hR hi => hkeep R i (by omega) hi, fun a i ha hi => hrow a i (by omega) ha hi⟩

/-- The rows of A P0, upwards. -/
theorem forUp_prod {P0 : Nat → Nat → K} {step : Nat → σ → σ} (hn : 2 ≤ n)
    (hstep : ∀ b s, 2 ≤ b → b ≤ n →
      RowAccum n (n - b) (2 * n - b) n (fun i x => -P0 x i) (V s) (V (step b s)))
    (hzero : ∀ a i, a + 1 < n → i < n → V s a i = 0) :
    (∀ R i, n < R + 2 → i < n → V (forUp 2 (n + 1) step s) R i = V s R i) ∧
      ∀ a i, a + 1 < n → i < n → V (forUp 2 (n + 1) step s) a i
        = ∑ x ∈ Finset.range n, V (forUp 2 (n + 1) step s) (n + a) x * P0 x i := by
  obtain ⟨hkeep, hrow⟩ := forUp_invariant (s := s) (f := step)
    (fun b t => (∀ R i, n < R + 2 ∨ R + b ≤ n → i < n → V t R i = V s R i) ∧
      ∀ a i, n < a + b → a + 1 < n → i < n → V t a i
        = ∑ x ∈ Finset.range n, V t (n + a) x * P0 x i)
    (show 2 ≤ n + 1 by omega) (by
      -- a round fills one row and reads only rows that are final already
      rintro b t hb1 hb2 ⟨hkeep, hrow⟩
      have hA := hstep b t hb1 (by omega)
      refine ⟨fun R i hR hi => ?_, fun a i ha1 ha2 hi => ?_⟩
      · rw [hA.rest R i (by omega) hi, hkeep R i (by omega) hi]
      · have hsum : ∑ x ∈ Finset.range n, V (step b t) (n + a) x * P0 x i
            = ∑ x ∈ Finset.range n, V t (n + a) x * P0 x i :=
          Finset.sum_congr rfl fun x hx => by
            rw [hA.rest _ x (by omega) (Finset.mem_range.mp hx)]
        rw [hsum]
        by_cases hab : a + b = n
        · rw [show a = n - b by omega, hA.row i hi, hkeep _ i (by omega) hi,
            hzero (n - b) i (by omega) hi, zero_sub, ← Finset.sum_neg_distrib]
          refine Finset.sum_congr rfl fun x _ => ?_
          rw [show n + (n - b) = 2 * n - b by omega]
          ring
        · rw [hA.rest _ i (by omega) hi, hrow a i (by omega) ha2 hi])
    ⟨fun _ _ _ _ => rfl, fun a i h1 h2 => absurd h1 (by omega)⟩
  exact ⟨fun R i hR hi => hkeep R i (by omega) hi, fun a i ha hi => hrow a i (by omega) ha hi⟩

/-- The loops over the incomplete and the complete blocks read off all unknowns. -/
theorem RowStart.unknowns {S T : Nat → Nat → K} {upper lower : Nat → σ → σ} (hn : 2 ≤ n)
    (hI : RowStart n E' P0 amm S)
    (h5 : RowAccum n (2 * n - 2) (2 * n - 1) (n - 1) (fun i x => E' i (n + x)) S T)
    (h6 : RowAccum n (n - 1) (2 * n - 1) (n - 1) (fun i x => -P0 x i) T (V s))
    (h7 : ∀ b s, 3 ≤ b → b ≤ n → RowAccum n (2 * n - b) (2 * n - b + 1) n
      (fun i x => E' i (n + x)) (V s) (V (upper b s)))
    (h8 : ∀ b s, 2 ≤ b → b ≤ n → RowAccum n (n - b) (2 * n - b) n
      (fun i x => -P0 x i) (V s) (V (lower b s))) :
    RowUnknowns n E' P0 amm (V (forUp 2 (n + 1) lower (forUp 3 (n + 1) upper s))) := by
  have hs : ∀ R i, R ≠ n - 1 → R + 2 < 2 * n → i < n → V s R i = 0 := by
    intro R i h1 h2 hi
    rw [h6.rest R i h1 hi, h5.rest R i (by omega) hi, hI.zero R i h1 h2 hi]
  obtain ⟨hkeep7, hrow7⟩ := forUp_upper hn h7 fun a i ha hi => hs _ i (by omega) (by omega) hi
  obtain ⟨t, ht⟩ : ∃ t, forUp 3 (n + 1) upper s = t := ⟨_, rfl⟩
  rw [ht] at hkeep7 hrow7 ⊢
  obtain ⟨hkeep8, hrow8⟩ := forUp_prod (s := t) hn h8 fun a i ha hi => by
    rw [hkeep7 _ i (by omega) hi, hs _ i (by omega) (by omega) hi]
  obtain ⟨u, hu⟩ : ∃ u, forUp 2 (n + 1) lower t = u := ⟨_, rfl⟩
  rw [hu] at hkeep8 hrow8 ⊢
  have hlast : ∀ i, i < n → V u (2 * n - 1) i = S (2 * n - 1) i := by
    intro i hi
    rw [hkeep8 _ i (by omega) hi, hkeep7 _ i (by omega) hi, h6.rest _ i (by omega) hi,
      h5.rest _ i (by omega) hi]
  refine ⟨?_, fun i hi => ?_, fun i hi => ?_, fun a i ha hi => ?_, fun a i ha hi => ?_⟩
  · rw [hlast _ (by omega), hI.corner]
  · rw [hlast _ (by omega), hI.last i hi]
  · rw [hkeep8 _ i (by omega) hi, hkeep7 _ i (by omega) hi, h6.rest _ i (by omega) hi, h5.row i hi,
      hI.second i hi]
    refine congrArg _ (Finset.sum_congr rfl fun x hx => ?_)
    rw [hlast x (by have := Finset.mem_range.mp hx; omega)]
  · rw [hkeep8 _ i (by omega) hi, hrow7 a i ha hi]
    refine congrArg _ (Finset.sum_congr rfl fun x hx => ?_)
    rw [hkeep8 _ x (by omega) (Finset.mem_range.mp hx)]
  · by_cases hal : a + 1 < n
    · exact hrow8 a i hal hi
    · -- the last row of A P0 was set up with the last entry of A
      have hsum : ∑ x ∈ Finset.range (n - 1), -P0 x i * T (2 * n - 1) x
          = -∑ x ∈ Finset.range (n - 1), V u (2 * n - 1) x * P0 x i := by
        rw [← Finset.sum_neg_distrib]
        refine Finset.sum_congr rfl fun x hx => ?_
        have hx' := Finset.mem_range.mp hx
        rw [hlast x (by omega), h5.rest _ x (by omega) (by omega)]
        ring
      rw [show a = n - 1 by omega, hkeep8 _ i (by omega) hi, hkeep7 _ i (by omega) hi, h6.row i hi,
        h5.rest _ i (by omega) hi, hI.prod i hi, hsum, sum_range_eq_pred (show 1 ≤ n by omega),
        show n + (n - 1) = 2 * n - 1 by omega, hlast (n - 1) (by omega), hI.corner]
      ring

end

end

/-- The table is reduced by reducing all rows but the last to `F`, eliminating the
    last row with them, and substituting it back. -/
theorem rowReduced_of_bordered {K : Type} [Field K] {n : Nat} {E F E' : Nat → Nat → K} {d : K}
    (hn : 1 ≤ n)
    (hF : ∀ c, c < 2 * n + 2 → ∀ j, j < n - 1 →
      ∑ r ∈ Finset.range (n - 1), E j r * F r c = E j c)
    (hd : d = E (n - 1) (n - 1) - ∑ r ∈ Finset.range (n - 1), E (n - 1) r * F r (n - 1))
    (hpiv : d ≠ 0)
    (hrow : ∀ c, n ≤ c → c ≤ 2 * n → E' (n - 1) c
      = d⁻¹ * (E (n - 1) c - ∑ r ∈ Finset.range (n - 1), E (n - 1) r * F r c))
    (hback : ∀ r c, r < n - 1 → n ≤ c → c ≤ 2 * n →
      E' r c = F r c - F r (n - 1) * E' (n - 1) c)
    (hlast : ∀ r, r < n - 1 → E' r (2 * n + 1) = F r (2 * n + 1)) : RowReduced n E E' := by
  obtain ⟨N, rfl⟩ : ∃ N, n = N + 1 := ⟨n - 1, by omega⟩
  rw [Nat.add_sub_cancel] at *
  refine ⟨fun j c hj hc1 hc2 => ?_, fun j hj => ?_⟩
  · refine bordered_solve (y := fun r => F r N) (x := fun r => F r c) (z := fun r => E' r c)
      (b := fun j => E j c) (hF N (by omega)) (hF c (by omega)) (hd ▸ hpiv) ?_ ?_ j (by omega)
    · rw [hrow c hc1 hc2, ← hd]
    · exact fun r hr => hback r c hr hc1 hc2
  · rw [← hF (2 * (N + 1) + 1) (by omega) j hj]
    refine Finset.sum_congr rfl fun r hr => ?_
    rw [hlast r (Finset.mem_range.mp hr)]

/-- The rows that are read off are a solution. -/
theorem RowUnknowns.rowChain {K : Type} [Field K] {n : Nat} {P0 P1 : Nat → Nat → K} {amm : K}
    {E E' S : Nat → Nat → K} (hn : 2 ≤ n) (hS : RowSystem n P0 P1 amm E) (hR : RowReduced n E E')
    (h : RowUnknowns n E' P0 amm S) :
    RowChain (block n n P0) (block n n P1) amm (block n n fun a => S (n + a)) ∧
      block n n S = block n n (fun a => S (n + a)) * block n n P0 := by
  have hmul : ∀ (F : Nat → Nat → K) (r j : Fin n), (block n n (fun a => S (n + a)) * block n n F) r j
      = ∑ x ∈ Finset.range n, S (n + r) x * F x j := by
    intro F r j
    rw [Matrix.mul_apply, Finset.sum_range]
    rfl
  refine ⟨⟨fun r r' j hr => ?_, fun r j hr hj => ?_, fun r hr => ?_⟩, ?_⟩
  · have hlt := r'.isLt
    rw [hmul, hmul, h.shift hn hS hR (by omega) j.isLt, hr]
  · rw [hmul, show (r : Nat) = n - 1 by omega, h.last_zero hn hS hR hj]
  · rw [block_apply, show n + (r : Nat) = 2 * n - 1 by omega, show (r : Nat) = n - 1 by omega,
      h.corner]
  · ext a j
    rw [hmul, block_apply, h.prod a j a.isLt j.isLt]

end Meds.Core
