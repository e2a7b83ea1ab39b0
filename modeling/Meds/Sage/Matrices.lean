/-
  Meds.Sage.Matrices

  The matrix operations of util.py against those of matrixmod.c and util.c.

  `pi` is the same product.  `is_invertible` is what `pmod_mat_syst_ct` tests
  on a square matrix.  `SF` adds up the diagonal of the echelon form in GF(q),
  so it compares the number of leading pivots with the number of rows modulo
  q: with fewer rows than field elements it accepts what `pmod_mat_syst_ct`
  accepts, and then both have multiplied by the inverse of the leading block.
-/

import Meds.Sage.Sampling

namespace Meds.Sage

open Meds.Core Meds.Ref

/-! ## SF -/

section

variable {q r c : Nat}

theorem table_of_lt (M : Mat q r c) {i j : Nat} (hi : i < r) (hj : j < c) :
    table M i j = M ⟨i, hi⟩ ⟨j, hj⟩ :=
  dif_pos ⟨hi, hj⟩

@[simp] theorem block_table (M : Mat q r c) : block r c (table M) = M := by
  ext i j
  exact table_of_lt M i.isLt j.isLt

variable [Fact q.Prime]

/-- `SF` succeeds when the number of leading pivots is the number of rows
    modulo q. -/
theorem sf_spec (M : Mat q r c) (hrc : r ≤ c) :
    ∃ ρ, Leading r c ρ (echelon r c (table M)) ∧
      sf M = if (ρ : ZMod q) = r then some (echelonForm M) else none := by
  obtain ⟨⟨piv, hpiv⟩, -⟩ := echelon_spec r c (table M)
  obtain ⟨ρ, hρ⟩ := hpiv.exists_leading
  refine ⟨ρ, hρ, ?_⟩
  have hdiag : (List.range r).map (fun j => table (echelonForm M) j j)
      = (List.range r).map fun j => echelon r c (table M) j j := by
    apply List.map_congr_left
    intro j hj
    have hj := List.mem_range.mp hj
    rw [table_of_lt _ hj (by omega), echelonForm, block_apply]
  have hsum : ((List.range r).map fun j => table (echelonForm M) j j).sum = (ρ : ZMod q) := by
    rw [hdiag, ← hρ.trace_eq hrc]
    rfl
  simp only [sf, hsum, ne_eq, ite_not]

/-- With fewer rows than field elements, `SF` tests the leading block. -/
theorem sf_eq (M : Mat q r c) (hrc : r ≤ c) (hrq : r < q) :
    (IsUnit (block r r (table M)).det ∧
        sf M = some ((block r r (table M))⁻¹ * M)) ∨
      ((block r r (table M)).det = 0 ∧ sf M = none) := by
  obtain ⟨ρ, hρ, hsf⟩ := sf_spec M hrc
  have hequiv := (echelon_spec r c (table M)).2
  have hle := hρ.le
  -- both counts are below q
  have hiff : (ρ : ZMod q) = r ↔ IsUnit (block r r (table M)).det := by
    rw [← hρ.eq_iff hrc hequiv]
    constructor
    · intro h
      have := congrArg ZMod.val h
      rwa [ZMod.val_natCast_of_lt (by omega), ZMod.val_natCast_of_lt hrq] at this
    · exact fun h => congrArg _ h
  by_cases hunit : IsUnit (block r r (table M)).det
  · have hfull := (hρ.eq_iff hrc hequiv).mpr hunit
    obtain ⟨-, hmul⟩ := hequiv.systematic hrc (hfull ▸ hρ.unit)
    rw [block_table] at hmul
    rw [hsf, if_pos (hiff.mpr hunit), echelonForm, hmul]
    exact Or.inl ⟨hunit, rfl⟩
  · rw [hsf, if_neg (mt hiff.mp hunit)]
    exact Or.inr ⟨by_contra fun h => hunit (isUnit_iff_ne_zero.mpr h), rfl⟩

end

variable {P : Params}

/-- The leading block of what an array holds. -/
theorem block_table_block {r c : Nat} (A : Arr UInt16) (hrc : r ≤ c) :
    block r r (table (block r c (ent P c A))) = block r r (ent P c A) :=
  block_congr fun i j hi hj => by rw [table_of_lt _ hi (by omega), block_apply]

variable [Fact P.p.Prime]

/-- `pmod_mat_syst_ct` and `SF`. -/
theorem pmodMatSystCt_sf (hP : Shared P) {r c : Nat} (hrc : r ≤ c) (hrp : r < P.p) {A : Arr UInt16}
    {M : Mat P.p r c} (hA : Holds A M) :
    ((pmodMatSystCt P A r c).1 = 0 ∧
        ∃ M', sf M = some M' ∧ Holds (pmodMatSystCt P A r c).2 M') ∨
      ((pmodMatSystCt P A r c).1 = -1 ∧ sf M = none) := by
  obtain ⟨rfl, hred⟩ := hA
  have hlead := block_table_block (P := P) A hrc
  rcases sf_eq (block r c (ent P c A)) hrc hrp with ⟨hunit, hsf⟩ | ⟨hdet, hsf⟩
  · rw [hlead] at hunit hsf
    rcases pmodMatSystCt_spec r c hred hrc hP.p_lt.le with ⟨-, hret, hS⟩ | ⟨hdet, -⟩
    · exact Or.inl ⟨hret, _, hsf, hS.block_eq, hS.reduced⟩
    · rw [hdet] at hunit
      exact absurd hunit not_isUnit_zero
  · rw [hlead] at hdet
    rcases pmodMatSystCt_spec r c hred hrc hP.p_lt.le with ⟨hunit, -, -⟩ | ⟨-, hret⟩
    · rw [hdet] at hunit
      exact absurd hunit not_isUnit_zero
    · exact Or.inr ⟨hret, hsf⟩

/-- On a square matrix `pmod_mat_syst_ct` is `is_invertible`. -/
theorem pmodMatSystCt_isInvertible (hP : Shared P) {n : Nat} {A : Arr UInt16} {M : Mat P.p n n}
    (hA : Holds A M) : (pmodMatSystCt P A n n).1 ≠ 0 ↔ isInvertible M = false := by
  obtain ⟨rfl, hred⟩ := hA
  rw [isInvertible, decide_eq_false_iff_not, not_not]
  rcases pmodMatSystCt_spec n n hred (Nat.le_refl n) hP.p_lt.le with ⟨hunit, hret, -⟩ | ⟨hdet, hret⟩
  · rw [hret]
    exact ⟨fun h => absurd rfl h, fun h => absurd (h ▸ hunit) not_isUnit_zero⟩
  · rw [hret]
    exact ⟨fun _ => hdet, fun _ => by decide⟩

/-! ## pi -/

/-- The two products of `pi`, entry by entry. -/
theorem sandwichEntry_cast (hm : P.m = P.n) (A B X : Arr UInt16) (a : Fin P.m) (b : Fin P.n) :
    (sandwichEntry P A B X a b : ZMod P.p)
      = (block P.m P.m (ent P P.m A) * block P.m P.n (ent P P.n X)
          * block P.n P.n (ent P P.n B)) a b := by
  have hrange : Finset.range P.m = Finset.range P.n := by rw [hm]
  rw [sandwichEntry, ZMod.natCast_mod, Nat.cast_sum, Matrix.mul_apply, hrange, Finset.sum_range]
  apply Finset.sum_congr rfl
  intro y _
  rw [Nat.cast_mul, ZMod.natCast_mod, Nat.cast_sum, Matrix.mul_apply, ← hrange, Finset.sum_range]
  simp only [Nat.cast_mul, block_apply, ent]

/-- `pi` of the source and of Sage.  The generator need not be reduced. -/
theorem pi_holds (hP : Shared P) {A B G : Arr UInt16} {MA : Mat P.p P.m P.m} {MB : Mat P.p P.n P.n}
    {MG : Gen P} (hA : Holds A MA) (hB : Holds B MB)
    (hG : block P.k (P.m * P.n) (ent P (P.m * P.n) G) = MG) :
    Holds (Ref.pi P A B G) (pi MA MB MG) := by
  obtain ⟨rfl, -⟩ := hA
  obtain ⟨rfl, -⟩ := hB
  subst hG
  have hget : ∀ i a b, i < P.k → a < P.m → b < P.n →
      ((Ref.pi P A B G).get (P.m * P.n * i + (P.n * a + b))).toNat
        = sandwichEntry P A B (G.view (P.m * P.n * i)) a b := by
    intro i a b hi ha hb
    rw [hP.m_eq] at ha ⊢
    exact pi_get hP.m_eq hP.prime.pos hP.p_lt.le A B G i a b hi ha hb
  constructor
  · ext i x
    obtain ⟨a, b, rfl⟩ := exists_flat x
    -- row i of the generator, cut into a matrix
    have hrow : block P.m P.n (ent P P.n (G.view (P.m * P.n * i)))
        = Matrix.of fun a b => block P.k (P.m * P.n) (ent P (P.m * P.n) G) i (flat a b) := by
      ext a b
      rw [block_apply, Matrix.of_apply, block_apply, ent, ent, pmodMatEntry, pmodMatEntry,
        Arr.get_view, flat_val, Nat.add_comm (b : Nat)]
    rw [block_apply, ent, pmodMatEntry, flat_val, Nat.add_comm (b : Nat),
      hget i a b i.isLt a.isLt b.isLt, sandwichEntry_cast hP.m_eq, hrow, pi, Matrix.of_apply, flat,
      Equiv.symm_apply_apply]
  · apply reduced_of_entry
    intro i x hi hx
    rw [Nat.mul_comm] at hx
    obtain ⟨a, b, ha, hb, rfl⟩ := exists_flat_nat hx
    rw [pmodMatEntry, hget i a b hi ha hb]
    exact Nat.mod_lt _ hP.prime.pos

end Meds.Sage
