/-
  Meds.Sage.SolveSymb

  `solve_symb` is exact.

  The solvers look for A and B⁻¹ with the equations of `IsAnswer`; an exact one
  reports the solution when there is exactly one, and none otherwise.

  A polynomial of degree at most one is evaluated at a vector of values for the
  generators.  The rows of `rsys` say that the polynomials in `eqs` vanish, so
  the vectors that solve `rsys` are the entries of the solutions A, B⁻¹.
-/

import Meds.Sage.Matrices
import Meds.Sage.Solvers

namespace Meds.Sage

open Meds.Core Meds.Ref

section

variable {q n : Nat}

/-! ## Solutions -/

/-- A and B⁻¹ as the solvers want them. -/
structure IsAnswer [Fact q.Prime] (P0prime0 P0prime1 : Mat q n n) (Amm : ZMod q)
    (X : Mat q n n × Mat q n n) : Prop where
  chain : RowChain P0prime0 P0prime1 Amm X.1
  prod : X.2 = X.1 * P0prime0

/-- The only solution is reported, and nothing else. -/
def Exact [Fact q.Prime] (P0prime0 P0prime1 : Mat q n n) (Amm : ZMod q) : Answer q n → Prop
  | some X => ∀ Y, IsAnswer P0prime0 P0prime1 Amm Y ↔ Y = X
  | none => ¬ ∃! Y, IsAnswer P0prime0 P0prime1 Amm Y

theorem Exact.unique [Fact q.Prime] {P0prime0 P0prime1 : Mat q n n} {Amm : ZMod q}
    {a b : Answer q n} (ha : Exact P0prime0 P0prime1 Amm a) (hb : Exact P0prime0 P0prime1 Amm b) :
    a = b := by
  have hsome : ∀ {X}, Exact P0prime0 P0prime1 Amm (some X) → ∃! Y, IsAnswer P0prime0 P0prime1 Amm Y :=
    fun {X} h => ⟨X, (h X).mpr rfl, fun Y hY => (h Y).mp hY⟩
  cases a with
  | none =>
      cases b with
      | none => rfl
      | some Y => exact absurd (hsome hb) ha
  | some X =>
      cases b with
      | none => exact absurd (hsome ha) hb
      | some Y => rw [(hb X).mp ((ha X).mpr rfl)]

theorem leadMinor_eq (P : Mat q n n) : leadMinor P = block (n - 1) (n - 1) (table P) := by
  ext i j
  exact (table_of_lt P (by omega) (by omega)).symm

/-- With both blocks invertible, a solution is the only one. -/
theorem IsAnswer.exact [Fact q.Prime] {P0prime0 P0prime1 : Mat q n n} {Amm : ZMod q}
    {X : Mat q n n × Mat q n n} (hX : IsAnswer P0prime0 P0prime1 Amm X)
    (hminor : (leadMinor P0prime1).det ≠ 0) (hdet : P0prime1.det ≠ 0) :
    Exact P0prime0 P0prime1 Amm (some X) := by
  intro Y
  constructor
  · intro hY
    have hA : Y.1 = X.1 := sub_eq_zero.mp ((hY.chain.sub hX.chain).eq_zero hminor hdet)
    exact Prod.ext hA (by rw [hY.prod, hX.prod, hA])
  · rintro rfl
    exact hX

/-- With a singular block, there is not exactly one solution. -/
theorem exact_none [Fact q.Prime] (hn : 2 ≤ n) {P0prime0 P0prime1 : Mat q n n} {Amm : ZMod q}
    (hor : (leadMinor P0prime1).det = 0 ∨ P0prime1.det = 0) :
    Exact P0prime0 P0prime1 Amm none := by
  have hnot : ¬ ((leadMinor P0prime1).det ≠ 0 ∧ P0prime1.det ≠ 0) := by
    rintro ⟨h1, h2⟩
    exact hor.elim h1 h2
  rintro ⟨Y, hY, huniq⟩
  refine hnot ((existsUnique_rowChain_iff hn fun h1 h2 => absurd ⟨h1, h2⟩ hnot).mp
    ⟨Y.1, hY.chain, fun A hA => ?_⟩)
  exact congrArg Prod.fst (huniq (A, A * P0prime0) ⟨hA, rfl⟩)

/-! ## Values of the polynomials -/

/-- The value of a polynomial at `x`, in the first `N` generators. -/
def evalAt (N : Nat) (x : Nat → ZMod q) : Affine q →ₗ[ZMod q] ZMod q where
  toFun f := ∑ c ∈ Finset.range N, f.1 c * x c + f.2
  map_add' f g := by
    simp only [Prod.fst_add, Pi.add_apply, add_mul, Finset.sum_add_distrib, Prod.snd_add]
    ring
  map_smul' a f := by
    simp only [Prod.smul_fst, Pi.smul_apply, smul_eq_mul, Prod.smul_snd, RingHom.id_apply, mul_add,
      Finset.mul_sum, mul_assoc]

theorem evalAt_apply (N : Nat) (x : Nat → ZMod q) (f : Affine q) :
    evalAt N x f = ∑ c ∈ Finset.range N, f.1 c * x c + f.2 := rfl

theorem evalAt_gen {N k : Nat} (hk : k < N) (x : Nat → ZMod q) : evalAt N x (gen k) = x k := by
  rw [evalAt_apply, gen, add_zero, Finset.sum_eq_single k]
  · dsimp only
    rw [Pi.single_eq_same, one_mul]
  · intro c _ hc
    dsimp only
    rw [Pi.single_eq_of_ne hc, zero_mul]
  · exact fun h => absurd (Finset.mem_range.mpr hk) h

/-- The number of generators without the last one. -/
def unknowns (n : Nat) : Nat := n * n + n * n - 1

/-- The matrix A with the entries of `x`. -/
def matA (n : Nat) (Amm : ZMod q) (x : Nat → ZMod q) (i j : Nat) : ZMod q :=
  if i = n - 1 ∧ j = n - 1 then Amm else x (n * n + i * n + j)

/-- The matrix B⁻¹ with the entries of `x`. -/
def matB (n : Nat) (x : Nat → ZMod q) (i j : Nat) : ZMod q := x (i * n + j)

theorem entry_lt {i j : Nat} (hi : i < n) (hj : j < n) : i * n + j < n * n := by
  have := flat_lt hi hj
  rwa [Nat.mul_comm n i] at this

theorem entry_div_mod (i : Nat) {j : Nat} (hj : j < n) :
    (i * n + j) / n = i ∧ (i * n + j) % n = j := by
  rw [Nat.mul_comm, Nat.mul_add_div (by omega), Nat.div_eq_of_lt hj, Nat.mul_add_mod,
    Nat.mod_eq_of_lt hj]
  exact ⟨rfl, rfl⟩

theorem exists_entry {r : Nat} (hr : r < n * n) : ∃ i j, i < n ∧ j < n ∧ r = i * n + j := by
  obtain ⟨i, j, hi, hj, rfl⟩ := exists_flat_nat hr
  exact ⟨i, j, hi, hj, by rw [Nat.mul_comm]⟩

theorem entry_lt_pred {i j : Nat} (hi : i < n) (hj : j < n) (hne : ¬ (i = n - 1 ∧ j = n - 1)) :
    i * n + j < n * n - 1 := by
  have hlt := entry_lt hi hj
  refine Nat.lt_of_le_of_ne (by omega) fun heq => hne ?_
  have hlast : n * n - 1 = (n - 1) * n + (n - 1) := by
    rw [Nat.sub_mul, Nat.one_mul]
    have := Nat.le_mul_self n
    omega
  rw [hlast, Nat.mul_comm i, Nat.mul_comm (n - 1)] at heq
  exact flat_inj hj (by omega) heq

theorem evalAt_symbA {i j : Nat} (hi : i < n) (hj : j < n) (Amm : ZMod q) (x : Nat → ZMod q) :
    evalAt (unknowns n) x (symbA n Amm i j) = matA n Amm x i j := by
  rw [symbA, matA]
  split
  · exact (congrArg (· + Amm) (Finset.sum_eq_zero fun c _ => zero_mul (x c))).trans (zero_add Amm)
  · rename_i hne
    have := entry_lt_pred hi hj hne
    exact evalAt_gen (by rw [unknowns]; omega) x

theorem evalAt_symbB {i j : Nat} (hi : i < n) (hj : j < n) (x : Nat → ZMod q) :
    evalAt (unknowns n) x (symbB n i j) = matB n x i j := by
  have := entry_lt hi hj
  exact evalAt_gen (by rw [unknowns]; omega) x

/-- What the equation for the entry `(i, j)` says. -/
theorem evalAt_symbEqs (Pj : Nat → Nat → ZMod q) (P : Mat q n n) (Amm : ZMod q) (x : Nat → ZMod q)
    {i j : Nat} (hi : i < n) (hj : j < n) :
    evalAt (unknowns n) x (symbEqs Pj P Amm i j)
      = ∑ y ∈ Finset.range n, Pj i y * matB n x y j
        - (block n n (matA n Amm x) * P) ⟨i, hi⟩ ⟨j, hj⟩ := by
  rw [symbEqs, map_sub, map_sum, map_sum]
  congr 1
  · refine Finset.sum_congr rfl fun y hy => ?_
    rw [map_smul, evalAt_symbB (Finset.mem_range.mp hy) hj, smul_eq_mul]
  · rw [Matrix.mul_apply, Finset.sum_range]
    refine Finset.sum_congr rfl fun y _ => ?_
    rw [map_smul, evalAt_symbA hi y.isLt, table_of_lt _ y.isLt hj, smul_eq_mul, mul_comm]
    rfl

/-- The equations of the identity. -/
theorem sum_pj0 (F : Nat → Nat → ZMod q) {i : Nat} (hi : i < n) (j : Nat) :
    ∑ y ∈ Finset.range n, pj0 i y * F y j = F i j := by
  rw [Finset.sum_eq_single i]
  · rw [pj0, if_pos rfl, one_mul]
  · intro y _ hy
    rw [pj0, if_neg (Ne.symm hy), zero_mul]
  · exact fun h => absurd (Finset.mem_range.mpr hi) h

/-- The equations of the shifted identity. -/
theorem sum_pj1 (F : Nat → Nat → ZMod q) (i j : Nat) :
    ∑ y ∈ Finset.range n, pj1 n i y * F y j = if i + 1 < n then F (i + 1) j else 0 := by
  by_cases hi : i + 1 < n
  · rw [if_pos hi, Finset.sum_eq_single (i + 1)]
    · rw [pj1, if_pos hi, if_pos rfl, one_mul]
    · intro y _ hy
      rw [pj1, if_pos hi, if_neg hy, zero_mul]
    · exact fun h => absurd (Finset.mem_range.mpr hi) h
  · rw [if_neg hi]
    refine Finset.sum_eq_zero fun y _ => ?_
    rw [pj1, if_neg hi, zero_mul]

/-! ## The rows of the system -/

theorem length_coefficients (eqs : Nat → Nat → Affine q) :
    (coefficients n eqs).length = n * n := by
  rw [coefficients, List.length_map, List.length_range]

theorem getD_coefficients (eqs : Nat → Nat → Affine q) {r : Nat} (hr : r < n * n) :
    (coefficients n eqs).getD r 0 = eqs (r / n) (r % n) := by
  rw [List.getD_eq_getElem _ _ (by rwa [length_coefficients])]
  simp only [coefficients, List.getElem_map, List.getElem_range]

/-- The polynomials of `solve_symb`. -/
def symbPolys (P0prime0 P0prime1 : Mat q n n) (Amm : ZMod q) : List (Affine q) :=
  coefficients n (symbEqs pj0 P0prime0 Amm) ++ (coefficients n (symbEqs (pj1 n) P0prime1 Amm)).dropLast

theorem length_symbPolys (hn : 1 ≤ n) (P0prime0 P0prime1 : Mat q n n) (Amm : ZMod q) :
    (symbPolys P0prime0 P0prime1 Amm).length = unknowns n := by
  have := Nat.le_mul_self n
  rw [symbPolys, List.length_append, List.length_dropLast, length_coefficients, length_coefficients,
    unknowns]
  omega

theorem getD_coefficients_entry (eqs : Nat → Nat → Affine q) {i j : Nat} (hi : i < n) (hj : j < n) :
    (coefficients n eqs).getD (i * n + j) 0 = eqs i j := by
  rw [getD_coefficients eqs (entry_lt hi hj), (entry_div_mod i hj).1, (entry_div_mod i hj).2]

theorem getD_symbPolys_left (P0prime0 P0prime1 : Mat q n n) (Amm : ZMod q) {i j : Nat} (hi : i < n)
    (hj : j < n) :
    (symbPolys P0prime0 P0prime1 Amm).getD (i * n + j) 0 = symbEqs pj0 P0prime0 Amm i j := by
  rw [symbPolys, List.getD_append _ _ _ _ (by rw [length_coefficients]; exact entry_lt hi hj),
    getD_coefficients_entry _ hi hj]

theorem getD_symbPolys_right (P0prime0 P0prime1 : Mat q n n) (Amm : ZMod q) {i j : Nat} (hi : i < n)
    (hj : j < n) (hne : ¬ (i = n - 1 ∧ j = n - 1)) :
    (symbPolys P0prime0 P0prime1 Amm).getD (n * n + (i * n + j)) 0
      = symbEqs (pj1 n) P0prime1 Amm i j := by
  have hlen := length_coefficients (n := n) (symbEqs pj0 P0prime0 Amm)
  have hlt := entry_lt_pred hi hj hne
  rw [symbPolys, List.getD_append_right _ _ _ _ (by omega), hlen, Nat.add_sub_cancel_left,
    ← getD_coefficients_entry (symbEqs (pj1 n) P0prime1 Amm) hi hj, List.getD_eq_getElem?_getD,
    List.getD_eq_getElem?_getD, List.getElem?_dropLast, if_pos (by rwa [length_coefficients])]

/-- What holds of all polynomials holds of the entries. -/
theorem forall_symbPolys_iff (hn : 1 ≤ n) (P0prime0 P0prime1 : Mat q n n) (Amm : ZMod q)
    (C : Affine q → Prop) :
    (∀ r, r < unknowns n → C ((symbPolys P0prime0 P0prime1 Amm).getD r 0)) ↔
      (∀ i j, i < n → j < n → C (symbEqs pj0 P0prime0 Amm i j)) ∧
        ∀ i j, i < n → j < n → ¬ (i = n - 1 ∧ j = n - 1) → C (symbEqs (pj1 n) P0prime1 Amm i j) := by
  have hsq := Nat.le_mul_self n
  constructor
  · intro h
    refine ⟨fun i j hi hj => ?_, fun i j hi hj hne => ?_⟩
    · rw [← getD_symbPolys_left P0prime0 P0prime1 Amm hi hj]
      have := entry_lt hi hj
      exact h _ (by rw [unknowns]; omega)
    · rw [← getD_symbPolys_right P0prime0 P0prime1 Amm hi hj hne]
      have := entry_lt_pred hi hj hne
      exact h _ (by rw [unknowns]; omega)
  · rintro ⟨h0, h1⟩ r hr
    rw [unknowns] at hr
    by_cases hlow : r < n * n
    · obtain ⟨i, j, hi, hj, rfl⟩ := exists_entry hlow
      rw [getD_symbPolys_left P0prime0 P0prime1 Amm hi hj]
      exact h0 i j hi hj
    · obtain ⟨i, j, hi, hj, hij⟩ := exists_entry (show r - n * n < n * n by omega)
      have hne : ¬ (i = n - 1 ∧ j = n - 1) := by
        rintro ⟨rfl, rfl⟩
        have : (n - 1) * n + n = n * n := by rw [← Nat.succ_mul]; congr 1; omega
        omega
      rw [show r = n * n + (i * n + j) by omega,
        getD_symbPolys_right P0prime0 P0prime1 Amm hi hj hne]
      exact h1 i j hi hj hne

/-- The table of `rsys`. -/
def symbTable (P0prime0 P0prime1 : Mat q n n) (Amm : ZMod q) (r c : Nat) : ZMod q :=
  (((symbPolys P0prime0 P0prime1 Amm).map fun eq =>
    (List.range (unknowns n)).map eq.1 ++ [-eq.2]).getD r []).getD c 0

theorem symbTable_eq {P0prime0 P0prime1 : Mat q n n} {Amm : ZMod q} {r : Nat}
    (hn : 1 ≤ n) (hr : r < unknowns n) :
    (∀ c, c < unknowns n → symbTable P0prime0 P0prime1 Amm r c
        = ((symbPolys P0prime0 P0prime1 Amm).getD r 0).1 c) ∧
      symbTable P0prime0 P0prime1 Amm r (unknowns n)
        = -((symbPolys P0prime0 P0prime1 Amm).getD r 0).2 := by
  have hlen := length_symbPolys hn P0prime0 P0prime1 Amm
  have hrow : ((symbPolys P0prime0 P0prime1 Amm).map fun eq =>
      (List.range (unknowns n)).map eq.1 ++ [-eq.2]).getD r []
      = (List.range (unknowns n)).map ((symbPolys P0prime0 P0prime1 Amm).getD r 0).1
        ++ [-((symbPolys P0prime0 P0prime1 Amm).getD r 0).2] := by
    rw [List.getD_eq_getElem _ _ (by rw [List.length_map]; omega), List.getElem_map,
      List.getD_eq_getElem _ _ (by omega)]
  refine ⟨fun c hc => ?_, ?_⟩
  · rw [symbTable, hrow, List.getD_append _ _ _ _ (by rwa [List.length_map, List.length_range]),
      List.getD_eq_getElem _ _ (by rwa [List.length_map, List.length_range]), List.getElem_map,
      List.getElem_range]
  · have hcols : ((List.range (unknowns n)).map
        ((symbPolys P0prime0 P0prime1 Amm).getD r 0).1).length = unknowns n := by
      rw [List.length_map, List.length_range]
    rw [symbTable, hrow, List.getD_append_right _ _ _ _ hcols.le, hcols, Nat.sub_self]
    rfl

/-! ## Entries -/

/-- The entries of a solution. -/
def entries (X : Mat q n n × Mat q n n) (c : Nat) : ZMod q :=
  if c < n * n then table X.2 (c / n) (c % n) else table X.1 ((c - n * n) / n) ((c - n * n) % n)

/-- The entries of the matrices that `x` stands for. -/
theorem entries_block (hn : 1 ≤ n) (Amm : ZMod q) (x : Nat → ZMod q) {c : Nat}
    (hc : c < unknowns n) : entries (block n n (matA n Amm x), block n n (matB n x)) c = x c := by
  have hsq := Nat.le_mul_self n
  rw [unknowns] at hc
  rw [entries]
  split
  · rename_i hlow
    obtain ⟨i, j, hi, hj, rfl⟩ := exists_entry hlow
    rw [(entry_div_mod i hj).1, (entry_div_mod i hj).2, table_of_lt _ hi hj]
    rfl
  · obtain ⟨i, j, hi, hj, hij⟩ := exists_entry (show c - n * n < n * n by omega)
    have hne : ¬ (i = n - 1 ∧ j = n - 1) := by
      rintro ⟨rfl, rfl⟩
      have : (n - 1) * n + n = n * n := by rw [← Nat.succ_mul]; congr 1; omega
      omega
    rw [hij, (entry_div_mod i hj).1, (entry_div_mod i hj).2, table_of_lt _ hi hj]
    change matA n Amm x i j = x c
    rw [matA, if_neg hne]
    congr 1
    omega

/-- Vectors that agree stand for the same matrices. -/
theorem block_congr_unknowns (Amm : ZMod q) {x y : Nat → ZMod q}
    (h : ∀ c, c < unknowns n → x c = y c) :
    (block n n (matA n Amm x), block n n (matB n x))
      = (block n n (matA n Amm y), block n n (matB n y)) := by
  refine Prod.ext (block_congr fun i j hi hj => ?_) (block_congr fun i j hi hj => ?_)
  · rw [matA, matA]
    split
    · rfl
    · rename_i hne
      have := entry_lt_pred hi hj hne
      exact h _ (by rw [unknowns]; omega)
  · have := entry_lt hi hj
    exact h _ (by rw [unknowns]; omega)

variable [Fact q.Prime]

/-! ## Solutions of the system -/

/-- A row of `rsys` says that its polynomial vanishes. -/
theorem solves_symbTable (hn : 1 ≤ n) (P0prime0 P0prime1 : Mat q n n) (Amm : ZMod q)
    (x : Nat → ZMod q) :
    Solves (unknowns n) (symbTable P0prime0 P0prime1 Amm) (fun c => x c) ↔
      ∀ r, r < unknowns n →
        evalAt (unknowns n) x ((symbPolys P0prime0 P0prime1 Amm).getD r 0) = 0 := by
  have hrow : ∀ r (hr : r < unknowns n),
      (∑ c : Fin (unknowns n), symbTable P0prime0 P0prime1 Amm r c * x c
          = symbTable P0prime0 P0prime1 Amm r (unknowns n)) ↔
        evalAt (unknowns n) x ((symbPolys P0prime0 P0prime1 Amm).getD r 0) = 0 := by
    intro r hr
    obtain ⟨hcoef, hconst⟩ := @symbTable_eq q n P0prime0 P0prime1 Amm r hn hr
    rw [hconst, evalAt_apply, add_eq_zero_iff_eq_neg, Finset.sum_range,
      Finset.sum_congr rfl fun c _ => by rw [hcoef c c.isLt]]
  exact ⟨fun h r hr => (hrow r hr).mp (h ⟨r, hr⟩), fun h r => (hrow r r.isLt).mpr (h r r.isLt)⟩

/-- The equations, entry by entry. -/
theorem isAnswer_iff (hn : 1 ≤ n) (P0prime0 P0prime1 : Mat q n n) (Amm : ZMod q)
    (x : Nat → ZMod q) :
    IsAnswer P0prime0 P0prime1 Amm (block n n (matA n Amm x), block n n (matB n x)) ↔
      (∀ i j (hi : i < n) (hj : j < n),
        matB n x i j = (block n n (matA n Amm x) * P0prime0) ⟨i, hi⟩ ⟨j, hj⟩) ∧
      ∀ i j (hi : i < n) (hj : j < n), ¬ (i = n - 1 ∧ j = n - 1) →
        (if i + 1 < n then matB n x (i + 1) j else 0)
          = (block n n (matA n Amm x) * P0prime1) ⟨i, hi⟩ ⟨j, hj⟩ := by
  constructor
  · rintro ⟨hchain, hprod⟩
    have hB : ∀ i j (hi : i < n) (hj : j < n),
        matB n x i j = (block n n (matA n Amm x) * P0prime0) ⟨i, hi⟩ ⟨j, hj⟩ := fun i j hi hj =>
      congrFun (congrFun hprod ⟨i, hi⟩) ⟨j, hj⟩
    refine ⟨hB, fun i j hi hj hne => ?_⟩
    -- a row is followed by the next one; the last is sent to zero
    by_cases hnext : i + 1 < n
    · rw [if_pos hnext, hB (i + 1) j hnext hj]
      exact (hchain.shift ⟨i, hi⟩ ⟨i + 1, hnext⟩ ⟨j, hj⟩ rfl).symm
    · rw [if_neg hnext]
      exact (hchain.last ⟨i, hi⟩ ⟨j, hj⟩ (by simp only; omega) (by simp only; omega)).symm
  · rintro ⟨hB, hP1⟩
    refine ⟨⟨fun r r' j hr => ?_, fun r j hr hj => ?_, fun r hr => ?_⟩, ?_⟩
    · have hlt := r'.isLt
      have h1 := hP1 r j r.isLt j.isLt (by omega)
      rw [if_pos (by omega), ← hr] at h1
      exact h1.symm.trans (hB r' j r'.isLt j.isLt)
    · have h1 := hP1 r j r.isLt j.isLt (by omega)
      rw [if_neg (by omega)] at h1
      exact h1.symm
    · exact if_pos (by omega)
    · ext i j
      exact hB i j i.isLt j.isLt

/-- The vectors that solve `rsys` are the entries of the solutions. -/
theorem solves_symbTable_iff (hn : 1 ≤ n) (P0prime0 P0prime1 : Mat q n n) (Amm : ZMod q)
    (x : Nat → ZMod q) :
    Solves (unknowns n) (symbTable P0prime0 P0prime1 Amm) (fun c => x c) ↔
      IsAnswer P0prime0 P0prime1 Amm (block n n (matA n Amm x), block n n (matB n x)) := by
  rw [solves_symbTable hn, isAnswer_iff hn,
    forall_symbPolys_iff hn P0prime0 P0prime1 Amm fun f => evalAt (unknowns n) x f = 0]
  refine and_congr (forall₂_congr fun i j => ?_) (forall₂_congr fun i j => ?_)
  · refine forall₂_congr fun hi hj => ?_
    rw [evalAt_symbEqs pj0 P0prime0 Amm x hi hj, sum_pj0 _ hi, sub_eq_zero]
  · refine forall₂_congr fun hi hj => forall_congr' fun _ => ?_
    rw [evalAt_symbEqs (pj1 n) P0prime1 Amm x hi hj, sum_pj1, sub_eq_zero]

theorem entries_eq {P0prime0 P0prime1 : Mat q n n} {Amm : ZMod q} {X : Mat q n n × Mat q n n}
    (h : IsAnswer P0prime0 P0prime1 Amm X) :
    (block n n (matA n Amm (entries X)), block n n (matB n (entries X))) = X := by
  refine Prod.ext ?_ ?_
  · ext i j
    simp only [block_apply, matA]
    split
    · rename_i hcorner
      have hij : i = j := Fin.ext (hcorner.1.trans hcorner.2.symm)
      have := i.isLt
      rw [← hij, h.chain.corner i (by omega)]
    · rw [entries, if_neg (by omega), Nat.add_assoc, Nat.add_sub_cancel_left, (entry_div_mod _ j.isLt).1,
        (entry_div_mod _ j.isLt).2, table_of_lt _ i.isLt j.isLt]
  · ext i j
    change matB n (entries X) i j = X.2 i j
    rw [matB, entries, if_pos (entry_lt i.isLt j.isLt), (entry_div_mod _ j.isLt).1,
      (entry_div_mod _ j.isLt).2, table_of_lt _ i.isLt j.isLt]

/-- The matrices that are built from the last column. -/
theorem matrixOf_column (Amm : ZMod q) (y : Nat → ZMod q) :
    (matrixOf q n n (((List.range (unknowns n)).map y).drop (n * n) ++ [Amm]),
        matrixOf q n n (((List.range (unknowns n)).map y).take (n * n)))
      = (block n n (matA n Amm y), block n n (matB n y)) := by
  have hlen : ((List.range (unknowns n)).map y).length = unknowns n := by
    rw [List.length_map, List.length_range]
  have hget : ∀ c, c < unknowns n → ((List.range (unknowns n)).map y)[c]? = some (y c) := by
    intro c hc
    rw [List.getElem?_eq_getElem (by rwa [hlen]), List.getElem_map, List.getElem_range]
  have hdrop : (((List.range (unknowns n)).map y).drop (n * n)).length = n * n - 1 := by
    rw [List.length_drop, hlen, unknowns]
    omega
  refine Prod.ext ?_ ?_
  · ext i j
    have hlt := entry_lt i.isLt j.isLt
    change (((List.range (unknowns n)).map y).drop (n * n) ++ [Amm]).getD (i * n + j) 0
      = matA n Amm y i j
    -- the last entry of A is not an unknown but Amm
    by_cases hcorner : (i : Nat) = n - 1 ∧ (j : Nat) = n - 1
    · have hlast : (i : Nat) * n + j = n * n - 1 := by
        have : (n - 1) * n + n = n * n := by
          rw [← Nat.succ_mul]
          congr 1
          omega
        rw [hcorner.1, hcorner.2]
        omega
      rw [matA, if_pos hcorner, hlast, List.getD_append_right _ _ _ _ hdrop.le, hdrop, Nat.sub_self]
      rfl
    · have hne := entry_lt_pred i.isLt j.isLt hcorner
      rw [matA, if_neg hcorner, List.getD_append _ _ _ _ (by rwa [hdrop]), List.getD_eq_getElem?_getD,
        List.getElem?_drop, hget _ (by rw [unknowns]; omega), Nat.add_assoc]
      rfl
  · ext i j
    have hlt := entry_lt i.isLt j.isLt
    change (((List.range (unknowns n)).map y).take (n * n)).getD (i * n + j) 0 = matB n y i j
    rw [List.getD_eq_getElem?_getD, List.getElem?_take, if_pos hlt, hget _ (by rw [unknowns]; omega)]
    rfl

/-- What `solve_symb` returns, in terms of the echelon form. -/
theorem solveSymb_eq (hn : 1 ≤ n) (P0prime0 P0prime1 : Mat q n n) (Amm : ZMod q) :
    let rref := echelon (unknowns n) (unknowns n + 1) (symbTable P0prime0 P0prime1 Amm)
    solveSymb P0prime0 P0prime1 Amm = .ok (if ∀ i, i < unknowns n → rref i i = 1 then
      some (block n n (matA n Amm fun c => rref c (unknowns n)),
        block n n (matB n fun c => rref c (unknowns n))) else none) := by
  have hcols : n * n + n * n = unknowns n + 1 := by
    have := Nat.le_mul_self n
    rw [unknowns]
    omega
  have hsolve : solveSymb P0prime0 P0prime1 Amm = solveRsys (unknowns n + 1)
      ((symbPolys P0prime0 P0prime1 Amm).map fun eq =>
        (List.range (unknowns n)).map eq.1 ++ [-eq.2]) Amm := by
    rw [← hcols]
    rfl
  dsimp only
  rw [hsolve, solveRsys, List.length_map, length_symbPolys hn, if_neg (by omega),
    ← matrixOf_column Amm, Nat.add_sub_cancel]
  by_cases hdiag : ∀ i, i < unknowns n → echelon (unknowns n) (unknowns n + 1)
      (symbTable P0prime0 P0prime1 Amm) i i = 1
  · rw [if_pos hdiag]
    exact if_pos hdiag
  · rw [if_neg hdiag]
    exact if_neg hdiag

/-- `solve_symb` is exact. -/
theorem solveSymb_exact (hn : 1 ≤ n) (P0prime0 P0prime1 : Mat q n n) (Amm : ZMod q) :
    ∃ ans, solveSymb P0prime0 P0prime1 Amm = .ok ans ∧ Exact P0prime0 P0prime1 Amm ans := by
  refine ⟨_, solveSymb_eq hn P0prime0 P0prime1 Amm, ?_⟩
  rcases echelon_solves (symbTable P0prime0 P0prime1 Amm) (N := unknowns n) with
    ⟨hdiag, hsol⟩ | ⟨hdiag, hsol⟩
  · rw [if_pos hdiag]
    intro Y
    constructor
    · intro hY
      have hentries : Solves (unknowns n) (symbTable P0prime0 P0prime1 Amm) fun c => entries Y c := by
        rw [solves_symbTable_iff hn, entries_eq hY]
        exact hY
      have hcol := (hsol _).mp hentries
      rw [← entries_eq hY]
      exact block_congr_unknowns Amm fun c hc => congrFun hcol ⟨c, hc⟩
    · rintro rfl
      exact (solves_symbTable_iff hn P0prime0 P0prime1 Amm _).mp ((hsol _).mpr rfl)
  · rw [if_neg hdiag]
    rintro ⟨Y, hY, huniq⟩
    refine hsol ⟨fun c => entries Y c, ?_, fun x hx => ?_⟩
    · dsimp only
      rw [solves_symbTable_iff hn, entries_eq hY]
      exact hY
    · -- extended by zeros, `x` is the vector of a solution
      obtain ⟨x', hx'⟩ : ∃ x' : Nat → ZMod q, ∀ c : Fin (unknowns n), x' c = x c :=
        ⟨fun c => if h : c < unknowns n then x ⟨c, h⟩ else 0, fun c => dif_pos c.isLt⟩
      obtain rfl : x = fun c : Fin (unknowns n) => x' c := funext fun c => (hx' c).symm
      have hans := (solves_symbTable_iff hn P0prime0 P0prime1 Amm x').mp hx
      funext c
      rw [← huniq _ hans, entries_block hn Amm x' c.isLt]

end

end Meds.Sage
