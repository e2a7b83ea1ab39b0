/-
  Meds.Ref.SolveSpec

  What `solve` of ref/util.c returns.

  Write A for the unknown matrix and P0, P1 for the first two matrices of
  G0prime.  The unknowns satisfy B⁻¹ = A P0, row i of A P1 is row i + 1 of
  A P0, and the last row of A P1 is zero but for its last entry: with that,
  A P0 B and A P1 B are the identity and the shifted identity.  The system `M`
  is the one all rows of A share; it is reduced once and the rows of A are
  read off from the last one upwards.
-/

import Meds.Core.RowSystem
import Meds.Ref.MatrixModSpec
import Meds.Ref.Util

namespace Meds.Ref

open Meds.Core

variable {P : Params}

/-! ## Cells of reduced arrays -/

/-- Writing one cell, seen in GF(p). -/
theorem ent_set {C i j i' j' : Nat} {M : Arr UInt16} {v : UInt16} (hj : j < C) (hj' : j' < C) :
    ent P C (M.set (C * i + j) v) i' j'
      = if i' = i ∧ j' = j then (v.toNat : ZMod P.p) else ent P C M i' j' := by
  unfold ent pmodMatEntry
  by_cases h : i' = i ∧ j' = j
  · obtain ⟨rfl, rfl⟩ := h
    rw [if_pos ⟨rfl, rfl⟩, Arr.get_set_self]
  · rw [if_neg h, Arr.get_set_ne _ _ fun heq => h (flat_inj hj' hj heq)]

theorem Reduced.set {M : Arr UInt16} {len idx : Nat} {v : UInt16} (h : Reduced P M len)
    (hv : v.toNat < P.p) : Reduced P (M.set idx v) len := by
  intro i hi
  rw [Arr.get_set]
  split
  · exact hv
  · exact h i hi

/-- `(MEDS_p - x) % MEDS_p`. -/
theorem negMod_cast {x : Nat} (hx : x ≤ P.p) : (((P.p - x) % P.p : Nat) : ZMod P.p) = -(x : ZMod P.p) := by
  rw [ZMod.natCast_mod, Nat.cast_sub hx, ZMod.natCast_self, zero_sub]

/-- A loop that fills the first `cnt` cells of row `R`. -/
structure RowFill (P : Params) (C R cnt : Nat) (v : Nat → ZMod P.p) (M M' : Arr UInt16) : Prop where
  row : ∀ i, i < cnt → ent P C M' R i = v i
  tail : ∀ i, cnt ≤ i → i < C → ent P C M' R i = ent P C M R i
  rest : ∀ R' i, R' ≠ R → i < C → ent P C M' R' i = ent P C M R' i

theorem rowFill_spec {C R : Nat} (cnt base : Nat) {g : Nat → UInt16} {v : Nat → ZMod P.p}
    {M : Arr UInt16}
    (hbase : base = C * R) (hcnt : cnt ≤ C)
    (hg : ∀ i, i < cnt → ((g i).toNat : ZMod P.p) = v i) :
    RowFill P C R cnt v M (forUp 0 cnt (fun i M => M.set (base + i) (g i)) M) := by
  subst hbase
  obtain ⟨hin, hout⟩ := fill_spec 0 cnt (ι := fun i => C * R + i)
    (g := fun (_ : Arr UInt16) i => g i) (M := M) (fun a b _ _ _ _ h => by omega)
    (fun _ _ _ _ _ => rfl)
  refine ⟨fun i hi => ?_, fun i h1 h2 => ?_, fun R' i hR hi => ?_⟩
  · rw [ent, pmodMatEntry, hin i (Nat.zero_le _) hi, hg i hi]
  · rw [ent, pmodMatEntry, hout _ fun c _ hc h => by omega]
    rfl
  · rw [ent, pmodMatEntry, hout _ fun c _ hc h => hR (flat_inj (by omega) hi h).1.symm]
    rfl

/-- A loop whose values are reduced leaves a reduced array. -/
theorem forUp_set_reduced {lo hi len : Nat} {ι : Nat → Nat} {g : Nat → UInt16} {M : Arr UInt16}
    (hM : Reduced P M len) (hg : ∀ i, lo ≤ i → i < hi → (g i).toNat < P.p) :
    Reduced P (forUp lo hi (fun i M => M.set (ι i) (g i)) M) len := by
  by_cases hle : lo ≤ hi
  · exact forUp_invariant (fun _ (M : Arr UInt16) => Reduced P M len) hle
      (fun i M h1 h2 hM => hM.set (hg i h1 h2)) hM
  · rw [forUp_of_le (by omega)]
    exact hM

/-! ## The system -/

/-- Entry `(a, b)` of matrix `r` of a generator. -/
def subEnt (P : Params) (G : Arr UInt16) (r a b : Nat) : ZMod P.p :=
  ent P (P.n * P.n) G r (P.n * a + b)

/-- The table `M` that `solve` builds. -/
structure SystemSpec (P : Params) (P0 P1 : Nat → Nat → ZMod P.p) (amm : ZMod P.p) (M : Arr UInt16) :
    Prop where
  lead : ∀ j i, j < P.n → i < P.n → ent P (2 * P.n + 2) M j i = -P1 i j
  mid : ∀ j i, j < P.n → i < P.n → ent P (2 * P.n + 2) M j (P.n + i) = P0 i j
  corner : ∀ j, j < P.n → ent P (2 * P.n + 2) M j (2 * P.n) = -(amm * P0 (P.n - 1) j)
  last : ∀ j, j < P.n → ent P (2 * P.n + 2) M j (2 * P.n + 1) = amm * P1 (P.n - 1) j
  reduced : Reduced P M ((2 * P.n + 2) * P.n)

/-- A column loop of `solve`, over all rows. -/
theorem colFill_spec {C R : Nat} (col : Nat) {ι : Nat → Nat} {g : Nat → UInt16} {M : Arr UInt16}
    (hι : ∀ j, ι j = C * j + col) (hcol : col < C) :
    (∀ j, j < R → ent P C (forUp 0 R (fun j M => M.set (ι j) (g j)) M) j col
        = ((g j).toNat : ZMod P.p)) ∧
      ∀ j c, c < C → c ≠ col →
        ent P C (forUp 0 R (fun j M => M.set (ι j) (g j)) M) j c = ent P C M j c := by
  obtain ⟨hin, hout⟩ := fill_spec 0 R (ι := ι) (g := fun (_ : Arr UInt16) j => g j)
    (M := M) (fun a b _ _ _ _ h => (flat_inj hcol hcol (by rw [← hι, ← hι, h])).1)
    (fun _ _ _ _ _ => rfl)
  refine ⟨fun j hj => ?_, fun j c hc hne => ?_⟩
  · rw [ent, pmodMatEntry, ← hι, hin j (Nat.zero_le _) hj]
  · unfold ent pmodMatEntry
    rw [hout _ fun j' _ _ h => hne (flat_inj hc hcol (by rw [← h, hι])).2]

/-- A block loop of `solve`: entry `(j, i)` goes to column `col + i`. -/
theorem blockFill_spec {C R : Nat} (cnt col : Nat) {ι : Nat → Nat → Nat} {g : Nat → Nat → UInt16}
    {M : Arr UInt16} (hι : ∀ i j, ι i j = C * j + (col + i)) (hcol : col + cnt ≤ C) :
    (∀ j i, j < R → i < cnt →
        ent P C (forUp 0 cnt (fun i M => forUp 0 R (fun j M => M.set (ι i j) (g i j)) M) M) j (col + i)
          = ((g i j).toNat : ZMod P.p)) ∧
      ∀ j c, c < C → (c < col ∨ col + cnt ≤ c) →
        ent P C (forUp 0 cnt (fun i M => forUp 0 R (fun j M => M.set (ι i j) (g i j)) M) M) j c
          = ent P C M j c := by
  obtain ⟨hin, hout⟩ := fill2_spec 0 cnt 0 R (ι := ι) (g := g)
    (M := M) (fun a b a' b' _ ha _ _ _ ha' _ _ h => by
      obtain ⟨h1, h2⟩ := flat_inj (C := C) (show col + a < C by omega) (show col + a' < C by omega)
        (by rw [← hι, ← hι, h])
      exact ⟨by omega, h1⟩)
  refine ⟨fun j i hj hi => ?_, fun j c hc hne => ?_⟩
  · rw [ent, pmodMatEntry, ← hι, hin i j (Nat.zero_le _) hi (Nat.zero_le _) hj]
  · unfold ent pmodMatEntry
    rw [hout _ fun i j' _ hi _ _ h => ?_]
    have := (flat_inj hc (show col + i < C by omega) (by rw [← h, hι])).2
    omega

theorem forUp2_set_reduced {a b len : Nat} {ι : Nat → Nat → Nat} {g : Nat → Nat → UInt16}
    {M : Arr UInt16} (hM : Reduced P M len) (hg : ∀ i j, i < a → j < b → (g i j).toNat < P.p) :
    Reduced P (forUp 0 a (fun i M => forUp 0 b (fun j M => M.set (ι i j) (g i j)) M) M) len :=
  forUp_invariant (fun _ (M : Arr UInt16) => Reduced P M len) (Nat.zero_le a)
    (fun i _ _ hi hM => forUp_set_reduced hM fun j _ hj => hg i j hi hj) hM

theorem solveM_spec (hm : P.m = P.n) (hpos : 0 < P.p) (hp : P.p ≤ 2 ^ 16) {A0 A1 : Arr UInt16}
    {Amm : Nat} (hA0 : Reduced P A0 (P.n * P.n)) (hA1 : Reduced P A1 (P.n * P.n)) (hAmm : Amm < P.p) :
    SystemSpec P (ent P P.n A0) (ent P P.n A1) Amm (solveM P A0 A1 Amm) := by
  have hcell : ∀ {M : Arr UInt16}, Reduced P M (P.n * P.n) → ∀ i j, i < P.n → j < P.n →
      (M.get (i * P.n + j)).toNat < P.p := by
    intro M hM i j hi hj
    rw [Nat.mul_comm]
    exact hM _ (flat_lt hi hj)
  have hmod : ∀ x, (UInt16.ofNat (x % P.p)).toNat = x % P.p := fun x =>
    toNat_ofNat_of_lt hp (Nat.mod_lt _ hpos)
  have hent : ∀ (M : Arr UInt16) i j, ((M.get (i * P.n + j)).toNat : ZMod P.p) = ent P P.n M i j := by
    intro M i j
    rw [Nat.mul_comm]
    rfl
  unfold solveM
  simp only [hm, show P.n + P.n + 2 = 2 * P.n + 2 by omega]
  generalize hM0 : Arr.replicate (P.n * (2 * P.n + 2)) (0 : UInt16) = M0
  have hred0 : Reduced P M0 ((2 * P.n + 2) * P.n) := by
    intro idx _
    rw [← hM0]
    exact (Arr.get_replicate (α := UInt16) _ idx).symm ▸ hpos
  -- the four fills of the source, each on the matrix the one before has left
  generalize hM1 : forUp 0 P.n (fun i M => forUp 0 P.n (fun j M => M.set (j * (2 * P.n + 2) + i)
    (UInt16.ofNat ((P.p - (A1.get (i * P.n + j)).toNat) % P.p))) M) M0 = M1
  generalize hM2 : forUp 0 P.n (fun i M => forUp 0 P.n (fun j M =>
    M.set (j * (2 * P.n + 2) + i + P.n) (A0.get (i * P.n + j))) M) M1 = M2
  generalize hM3 : forUp 0 P.n (fun j M => M.set (j * (2 * P.n + 2) + P.n + P.n) (UInt16.ofNat
    ((A0.get ((P.n - 1) * P.n + j)).toNat * (P.p - Amm) % P.p))) M2 = M3
  have h1 := blockFill_spec P.n 0 (P := P) (C := 2 * P.n + 2) (R := P.n) (M := M0)
    (ι := fun i j => j * (2 * P.n + 2) + i)
    (g := fun i j => UInt16.ofNat ((P.p - (A1.get (i * P.n + j)).toNat) % P.p))
    (fun i j => by rw [Nat.zero_add, Nat.mul_comm]) (by omega)
  have h2 := blockFill_spec P.n P.n (P := P) (C := 2 * P.n + 2) (R := P.n) (M := M1)
    (ι := fun i j => j * (2 * P.n + 2) + i + P.n) (g := fun i j => A0.get (i * P.n + j))
    (fun i j => by rw [Nat.mul_comm j]; omega) (by omega)
  have h3 := colFill_spec (2 * P.n) (P := P) (C := 2 * P.n + 2) (R := P.n) (M := M2)
    (ι := fun j => j * (2 * P.n + 2) + P.n + P.n)
    (g := fun j => UInt16.ofNat ((A0.get ((P.n - 1) * P.n + j)).toNat * (P.p - Amm) % P.p))
    (fun j => by rw [Nat.mul_comm j]; omega) (by omega)
  have h4 := colFill_spec (2 * P.n + 1) (P := P) (C := 2 * P.n + 2) (R := P.n) (M := M3)
    (ι := fun j => j * (2 * P.n + 2) + P.n + P.n + 1)
    (g := fun j => UInt16.ofNat ((A1.get ((P.n - 1) * P.n + j)).toNat * Amm % P.p))
    (fun j => by rw [Nat.mul_comm j]; omega) (by omega)
  rw [hM1] at h1
  rw [hM2] at h2
  rw [hM3] at h3
  -- every cell that is written is reduced
  have hred1 : Reduced P M1 _ := hM1 ▸ forUp2_set_reduced hred0 fun i j _ _ => by
    rw [hmod]; exact Nat.mod_lt _ hpos
  have hred2 : Reduced P M2 _ := hM2 ▸ forUp2_set_reduced hred1 fun i j hi hj => hcell hA0 i j hi hj
  have hred3 : Reduced P M3 _ := hM3 ▸ forUp_set_reduced hred2 fun j _ _ => by
    rw [hmod]; exact Nat.mod_lt _ hpos
  refine ⟨fun j i hj hi => ?_, fun j i hj hi => ?_, fun j hj => ?_, fun j hj => ?_, ?_⟩
  · rw [h4.2 j i (by omega) (by omega), h3.2 j i (by omega) (by omega), h2.2 j i (by omega) (by omega)]
    have := h1.1 j i hj hi
    rw [Nat.zero_add] at this
    rw [this, hmod, negMod_cast (hcell hA1 i j hi hj).le, hent]
  · rw [h4.2 j _ (by omega) (by omega), h3.2 j _ (by omega) (by omega), h2.1 j i hj hi, hent]
  · rw [h4.2 j _ (by omega) (by omega), h3.1 j hj, hmod, ZMod.natCast_mod, Nat.cast_mul,
      Nat.cast_sub hAmm.le, ZMod.natCast_self, hent]
    ring
  · rw [h4.1 j hj, hmod, ZMod.natCast_mod, Nat.cast_mul, hent, mul_comm]
  · exact forUp_set_reduced hred3 fun j _ _ => by rw [hmod]; exact Nat.mod_lt _ hpos

/-! ## The reduction -/

section

variable [hprime : Fact P.p.Prime]

/-- The last row of `M` with the first `r` rows eliminated from it. -/
structure LastRowInv (P : Params) (r : Nat) (M M' : Arr UInt16) : Prop where
  upper : ∀ i c, i < P.n - 1 → c < 2 * P.n + 2 →
    ent P (2 * P.n + 2) M' i c = ent P (2 * P.n + 2) M i c
  row : ∀ c, P.n - 1 ≤ c → c < 2 * P.n + 1 → ent P (2 * P.n + 2) M' (P.n - 1) c
    = ent P (2 * P.n + 2) M (P.n - 1) c
      - ∑ x ∈ Finset.range r, ent P (2 * P.n + 2) M (P.n - 1) x * ent P (2 * P.n + 2) M x c
  todo : ∀ c, r ≤ c → c < P.n - 1 →
    ent P (2 * P.n + 2) M' (P.n - 1) c = ent P (2 * P.n + 2) M (P.n - 1) c
  reduced : Reduced P M' ((2 * P.n + 2) * P.n)

theorem solveLastRow_spec (hm : P.m = P.n) (hn : 1 ≤ P.n) (hp : P.p ≤ 2 ^ 16) {M : Arr UInt16}
    (hred : Reduced P M ((2 * P.n + 2) * P.n)) : LastRowInv P (P.n - 1) M (solveLastRow P M) := by
  unfold solveLastRow
  simp only [hm, show P.n + P.n + 2 = 2 * P.n + 2 by omega, show P.n + P.n + 1 = 2 * P.n + 1 by omega]
  refine forUp_invariant (fun r (M' : Arr UInt16) => LastRowInv P r M M') (Nat.zero_le _) ?_
    ⟨fun _ _ _ _ => rfl, fun c _ _ => by simp, fun _ _ _ => rfl, hred⟩
  intro r M' _ hr hM'
  have hop := subRow_spec (P.n - 1) (P.n - 1) (2 * P.n + 1)
      (pmodMatEntry M' (2 * P.n + 2) (P.n - 1) r) (P := P) (C := 2 * P.n + 2) (r := r) (M := M')
      (by omega)
    (by omega) hp fun c _ hc => hM'.reduced.entry (by omega) (by omega)
  have hfactor : (pmodMatEntry M' (2 * P.n + 2) (P.n - 1) r : ZMod P.p)
      = ent P (2 * P.n + 2) M (P.n - 1) r := hM'.todo r (Nat.le_refl _) hr
  rw [hfactor] at hop
  generalize subRow P (2 * P.n + 2) r (P.n - 1) (P.n - 1) (2 * P.n + 1)
    (pmodMatEntry M' (2 * P.n + 2) (P.n - 1) r) M' = S at hop
  have hset : ∀ i c, c < 2 * P.n + 2 → ¬ (i = P.n - 1 ∧ c = r) →
      ent P (2 * P.n + 2) (pmodMatSetEntry S (2 * P.n + 2) (P.n - 1) r 0) i c
        = ent P (2 * P.n + 2) S i c := by
    intro i c hc hne
    rw [pmodMatSetEntry, ent_set (by omega) hc, if_neg hne]
  refine ⟨fun i c hi hc => ?_, fun c hc1 hc2 => ?_, fun c hc1 hc2 => ?_, ?_⟩
  · rw [hset i c hc (by omega), hop.ent_eq (by omega) hc, if_neg (by omega), hM'.upper i c hi hc]
  · rw [hset _ c (by omega) (by omega), hop.row c hc1 hc2, hM'.row c hc1 hc2,
      hM'.upper r c hr (by omega), Finset.sum_range_succ]
    ring
  · rw [hset _ c (by omega) (by omega), hop.ent_eq (by omega) (by omega), if_neg (by omega),
      hM'.todo c (by omega) hc2]
  · exact (hop.reduced_all hM'.reduced).set hprime.out.pos

/-- The first `r` rows after substituting the last one back. -/
structure BackRowInv (P : Params) (r : Nat) (M M' : Arr UInt16) : Prop where
  done : ∀ i c, i < r → P.n ≤ c → c < 2 * P.n + 1 → ent P (2 * P.n + 2) M' i c
    = ent P (2 * P.n + 2) M i c
      - ent P (2 * P.n + 2) M i (P.n - 1) * ent P (2 * P.n + 2) M (P.n - 1) c
  keep : ∀ i c, i < P.n → c < 2 * P.n + 2 → r ≤ i ∨ c = 2 * P.n + 1 →
    ent P (2 * P.n + 2) M' i c = ent P (2 * P.n + 2) M i c
  reduced : Reduced P M' ((2 * P.n + 2) * P.n)

theorem solveBack_spec (hm : P.m = P.n) (hp : P.p ≤ 2 ^ 16) {M : Arr UInt16}
    (hred : Reduced P M ((2 * P.n + 2) * P.n)) : BackRowInv P (P.n - 1) M (solveBack P M) := by
  unfold solveBack
  simp only [hm, show P.n + P.n + 2 = 2 * P.n + 2 by omega, show P.n + P.n + 1 = 2 * P.n + 1 by omega]
  refine forUp_invariant (fun r (M' : Arr UInt16) => BackRowInv P r M M') (Nat.zero_le _) ?_
    ⟨fun i _ hi => absurd hi (Nat.not_lt_zero i), fun _ _ _ _ _ => rfl, hred⟩
  -- row r minus its factor times the last row; the factor is still that of M
  intro r M' _ hr hM'
  have hop := subRow_spec r P.n (2 * P.n + 1) (pmodMatEntry M' (2 * P.n + 2) r (P.n - 1)) (P := P)
      (C := 2 * P.n + 2) (r := P.n - 1) (M := M') (by omega)
    (by omega) hp fun c _ hc => hM'.reduced.entry (by omega) (by omega)
  have hfactor : (pmodMatEntry M' (2 * P.n + 2) r (P.n - 1) : ZMod P.p)
      = ent P (2 * P.n + 2) M r (P.n - 1) := hM'.keep r _ (by omega) (by omega) (Or.inl (Nat.le_refl _))
  rw [hfactor] at hop
  generalize subRow P (2 * P.n + 2) (P.n - 1) r P.n (2 * P.n + 1)
    (pmodMatEntry M' (2 * P.n + 2) r (P.n - 1)) M' = S at hop
  have hset : ∀ i c, c < 2 * P.n + 2 → ¬ (i = r ∧ c = P.n - 1) →
      ent P (2 * P.n + 2) (pmodMatSetEntry S (2 * P.n + 2) r (P.n - 1) 0) i c
        = ent P (2 * P.n + 2) S i c := by
    intro i c hc hne
    rw [pmodMatSetEntry, ent_set (by omega) hc, if_neg hne]
  refine ⟨fun i c hi hc1 hc2 => ?_, fun i c hi hc hor => ?_, ?_⟩
  · rw [hset i c (by omega) (by omega), hop.ent_eq (by omega) (by omega)]
    by_cases hir : i = r
    · subst hir
      rw [if_pos ⟨rfl, hc1, hc2⟩, hM'.keep i c (by omega) (by omega) (Or.inl (Nat.le_refl _)),
        hM'.keep (P.n - 1) c (by omega) (by omega) (Or.inl (by omega))]
      ring
    · rw [if_neg (by omega), hM'.done i c (by omega) hc1 hc2]
  · rw [hset i c hc (by omega), hop.ent_eq (by omega) hc, if_neg (by omega),
      hM'.keep i c hi hc (by omega)]
  · exact (hop.reduced_all hM'.reduced).set hprime.out.pos

/-- What the reduced system solves, column by column. -/
structure ReduceSpec (P : Params) (M M' : Arr UInt16) : Prop where
  mid : ∀ j c, j < P.n → P.n ≤ c → c ≤ 2 * P.n →
    ∑ r ∈ Finset.range P.n, ent P (2 * P.n + 2) M j r * ent P (2 * P.n + 2) M' r c
      = ent P (2 * P.n + 2) M j c
  last : ∀ j, j < P.n - 1 →
    ∑ r ∈ Finset.range (P.n - 1), ent P (2 * P.n + 2) M j r * ent P (2 * P.n + 2) M' r (2 * P.n + 1)
      = ent P (2 * P.n + 2) M j (2 * P.n + 1)
  reduced : Reduced P M' ((2 * P.n + 2) * P.n)

/-- `solve` reduces exactly the systems whose two leading minors are units. -/
theorem solveReduce_spec (hm : P.m = P.n) (hn : 1 ≤ P.n) (hp : P.p ≤ 2 ^ 16) {M : Arr UInt16}
    (hred : Reduced P M ((2 * P.n + 2) * P.n)) :
    ((block (P.n - 1) (P.n - 1) (ent P (2 * P.n + 2) M)).det ≠ 0 ∧
        (block P.n P.n (ent P (2 * P.n + 2) M)).det ≠ 0 ∧
        ∃ M', solveReduce P M = some M' ∧ ReduceSpec P M M') ∨
      (((block (P.n - 1) (P.n - 1) (ent P (2 * P.n + 2) M)).det = 0 ∨
        (block P.n P.n (ent P (2 * P.n + 2) M)).det = 0) ∧ solveReduce P M = none) := by
  obtain ⟨N, hN⟩ : ∃ N, P.n = N + 1 := ⟨P.n - 1, by omega⟩
  have hN1 : P.n - 1 = N := by omega
  unfold solveReduce
  simp only [hm, show P.n + P.n + 2 = 2 * P.n + 2 by omega, show P.n + P.n + 1 = 2 * P.n + 1 by omega]
  obtain ⟨ret, M1, hsyst⟩ : ∃ ret M1, pmodMatSystCt P M (P.n - 1) (2 * P.n + 2) = (ret, M1) :=
    ⟨_, _, rfl⟩
  have hspec := pmodMatSystCt_spec (P.n - 1) (2 * P.n + 2) (P := P) (M := M)
    (hred.mono (Nat.mul_le_mul_left _ (by omega))) (by omega) hp
  rw [hsyst] at hspec ⊢
  rcases hspec with ⟨hlead, hret, hS⟩ | ⟨hdet, hret⟩
  case inr =>
    refine Or.inr ⟨Or.inl hdet, ?_⟩
    simp only at hret ⊢
    rw [hret]
    rfl
  simp only at hret hS ⊢
  rw [hret, if_neg (by decide)]
  -- `pmod_mat_syst_ct` gets one row less, so the last row is untouched
  have hlast1 : ∀ c, c < 2 * P.n + 2 → ent P (2 * P.n + 2) M1 (P.n - 1) c
      = ent P (2 * P.n + 2) M (P.n - 1) c := by
    intro c _
    unfold ent pmodMatEntry
    rw [hS.rest _ (Nat.le_add_right _ _)]
  -- its result solves the leading system for every column
  have hsys : ∀ c, c < 2 * P.n + 2 → ∀ j, j < N → ∑ r ∈ Finset.range N,
      ent P (2 * P.n + 2) M j r * ent P (2 * P.n + 2) M1 r c = ent P (2 * P.n + 2) M j c := by
    intro c hc j hj
    have hmul : block (P.n - 1) (P.n - 1) (ent P (2 * P.n + 2) M)
        * block (P.n - 1) (2 * P.n + 2) (ent P (2 * P.n + 2) M1)
        = block (P.n - 1) (2 * P.n + 2) (ent P (2 * P.n + 2) M) := by
      rw [hS.block_eq, ← Matrix.mul_assoc, Matrix.mul_nonsing_inv _ hlead, Matrix.one_mul]
    have := congrFun (congrFun hmul ⟨j, by omega⟩) ⟨c, hc⟩
    rw [Matrix.mul_apply] at this
    rw [← hN1, Finset.sum_range]
    exact this
  have hred1 : Reduced P M1 ((2 * P.n + 2) * P.n) := by
    intro idx hidx
    by_cases hlt : idx < (2 * P.n + 2) * (P.n - 1)
    · exact hS.reduced idx hlt
    · rw [hS.rest idx (by omega)]
      exact hred idx hidx
  have hL := solveLastRow_spec hm hn hp hred1
  generalize solveLastRow P M1 = M2 at hL ⊢
  -- the last row after the rows above are subtracted
  have hrow : ∀ c, N ≤ c → c < 2 * P.n + 1 → ent P (2 * P.n + 2) M2 N c
      = ent P (2 * P.n + 2) M N c - ∑ r ∈ Finset.range N,
        ent P (2 * P.n + 2) M N r * ent P (2 * P.n + 2) M1 r c := by
    intro c hc1 hc2
    have := hL.row c (by omega) hc2
    rw [hlast1 c (by omega), hN1] at this
    rw [this]
    refine congrArg _ (Finset.sum_congr rfl fun r hr => ?_)
    have hr' := hlast1 r (by have := Finset.mem_range.mp hr; omega)
    rw [hN1] at hr'
    rw [hr']
  have hdet := det_block_succ (n := N) (E := ent P (2 * P.n + 2) M)
    (y := fun r => ent P (2 * P.n + 2) M1 r N) (hsys N (by omega))
  rw [← hrow N (Nat.le_refl _) (by omega), ← hN, ← hN1] at hdet
  -- the last pivot is the quotient of the two minors
  by_cases hpiv : pmodMatEntry M2 (2 * P.n + 2) (P.n - 1) (P.n - 1) = 0
  · rw [if_pos hpiv]
    refine Or.inr ⟨Or.inr ?_, rfl⟩
    rw [hdet, (ent_eq_zero_iff (by rw [hpiv]; exact hprime.out.pos)).mpr hpiv, mul_zero]
  · rw [if_neg hpiv]
    have hpiv' : ent P (2 * P.n + 2) M2 (P.n - 1) (P.n - 1) ≠ 0 := fun h =>
      hpiv ((ent_eq_zero_iff (hL.reduced.entry (by omega) (by omega))).mp h)
    refine Or.inl ⟨hlead.ne_zero, by rw [hdet]; exact mul_ne_zero hlead.ne_zero hpiv', _, rfl, ?_⟩
    have hop := scaleRow_spec P.n (2 * P.n + 1) (gfInv P
        (pmodMatEntry M2 (2 * P.n + 2) (P.n - 1) (P.n - 1))) (P := P) (C := 2 * P.n + 2)
        (r := P.n - 1) M2
      (by omega) hp
    rw [gfInv_cast hpiv'] at hop
    generalize scaleRow P (2 * P.n + 2) (P.n - 1) P.n (2 * P.n + 1)
      (gfInv P (pmodMatEntry M2 (2 * P.n + 2) (P.n - 1) (P.n - 1))) M2 = M3 at hop ⊢
    have hidx : P.n * (2 * P.n + 2) - 1 = (2 * P.n + 2) * (P.n - 1) + (2 * P.n + 1) := by
      rw [hN, Nat.add_sub_cancel]
      ring_nf
      omega
    rw [hidx, pmodMatSetEntry]
    generalize hM4 : (M3.set ((2 * P.n + 2) * (P.n - 1) + (P.n - 1)) (UInt16.ofNat 1)).set
      ((2 * P.n + 2) * (P.n - 1) + (2 * P.n + 1)) 0 = M4
    -- the two cells written by hand; the others are those of the scaled row
    have hM4ent : ∀ i c, c < 2 * P.n + 2 → ¬ (i = P.n - 1 ∧ (c = P.n - 1 ∨ c = 2 * P.n + 1)) →
        ent P (2 * P.n + 2) M4 i c = ent P (2 * P.n + 2) M3 i c := by
      intro i c hc hne
      rw [← hM4, ent_set (by omega) hc, if_neg (by tauto), ent_set (by omega) hc, if_neg (by tauto)]
    have hred4 : Reduced P M4 ((2 * P.n + 2) * P.n) := by
      rw [← hM4]
      refine Reduced.set (Reduced.set (hop.reduced_all hL.reduced) ?_) hprime.out.pos
      exact hprime.out.one_lt
    have hB := solveBack_spec hm hp hred4
    generalize solveBack P M4 = M5 at hB ⊢
    have hM4up : ∀ r c, r < N → c < 2 * P.n + 2 → ent P (2 * P.n + 2) M4 r c
        = ent P (2 * P.n + 2) M1 r c := by
      intro r c hr hc
      rw [hM4ent r c hc (by omega), hop.ent_eq (by omega) hc, if_neg (by omega),
        hL.upper r c (by omega) hc]
    -- all steps together reduce the bordered system
    have hR : RowReduced P.n (ent P (2 * P.n + 2) M) (ent P (2 * P.n + 2) M5) := by
      refine rowReduced_of_bordered (F := ent P (2 * P.n + 2) M1)
        (d := ent P (2 * P.n + 2) M2 (P.n - 1) (P.n - 1)) hn
        (fun c hc j hj => ?_) ?_ hpiv' (fun c hc1 hc2 => ?_) (fun r c hr hc1 hc2 => ?_) fun r hr => ?_
      · rw [hN1]
        exact hsys c hc j (by omega)
      · rw [hN1]
        exact hrow N (Nat.le_refl _) (by omega)
      · rw [hB.keep (P.n - 1) c (by omega) (by omega) (Or.inl (Nat.le_refl _)),
          hM4ent _ c (by omega) (by omega), hop.row c hc1 (by omega), hN1,
          hrow c (by omega) (by omega)]
        rfl
      · rw [hB.done r c hr hc1 (by omega), hM4up r c (by omega) (by omega),
          hM4up r (P.n - 1) (by omega) (by omega),
          hB.keep (P.n - 1) c (by omega) (by omega) (Or.inl (Nat.le_refl _))]
      · rw [hB.keep r _ (by omega) (by omega) (Or.inr rfl), hM4up r _ (by omega) (by omega)]
    exact ⟨hR.mid, hR.last, hB.reduced⟩

end

/-! ## Reading off the unknowns -/

/-- Row `R` has `f` times row `R'` subtracted, over the first `cnt` unknowns. -/
structure AccumSpec (P : Params) (R R' cnt : Nat) (f : Nat → Nat → ZMod P.p) (sol sol' : Arr UInt16) :
    Prop where
  row : ∀ i, i < P.n → ent P P.n sol' R i
    = ent P P.n sol R i - ∑ x ∈ Finset.range cnt, f i x * ent P P.n sol R' x
  rest : ∀ R'' i, R'' ≠ R → i < P.n → ent P P.n sol' R'' i = ent P P.n sol R'' i
  reduced : ∀ len, Reduced P sol len → Reduced P sol' len

theorem AccumSpec.rows {R R' cnt : Nat} {f : Nat → Nat → ZMod P.p} {sol sol' : Arr UInt16}
    (h : AccumSpec P R R' cnt f sol sol') :
    RowAccum P.n R R' cnt f (ent P P.n sol) (ent P P.n sol') :=
  ⟨h.row, h.rest⟩

theorem solAccum_spec {R : Nat} (R' cnt base : Nat) (coef : Nat → Nat → Nat) (src : Nat → Nat)
    {f : Nat → Nat → ZMod P.p} (hpos : 0 < P.p) (hp : P.p ≤ 2 ^ 16) (hcnt : cnt ≤ P.n)
    (hR : R' ≠ R) (hbase : base = P.n * R)
    (hsrc : ∀ j, j < cnt → src j = P.n * R' + (cnt - 1 - j))
    (hcoef : ∀ i j, i < P.n → j < cnt → (coef i j : ZMod P.p) = f i (cnt - 1 - j))
    (sol : Arr UInt16) : AccumSpec P R R' cnt f sol (solAccum P base cnt coef src sol) := by
  subst hbase
  -- the inner loop changes one cell
  have hinner : ∀ i, i < P.n → ∀ sol : Arr UInt16,
      let sol' := forUp 0 cnt (fun j sol =>
        let tmp := (sol.get (P.n * R + i)).toNat + P.p - coef i j * (sol.get (src j)).toNat % P.p
        sol.set (P.n * R + i) (UInt16.ofNat (tmp % P.p))) sol
      (∀ R'' i', i' < P.n → ent P P.n sol' R'' i' = if R'' = R ∧ i' = i then
          ent P P.n sol R i - ∑ x ∈ Finset.range cnt, f i x * ent P P.n sol R' x
        else ent P P.n sol R'' i') ∧ ∀ len, Reduced P sol len → Reduced P sol' len := by
    intro i hi sol
    have hinv := forUp_invariant (s := sol) (f := fun j sol =>
        let tmp := (sol.get (P.n * R + i)).toNat + P.p - coef i j * (sol.get (src j)).toNat % P.p
        sol.set (P.n * R + i) (UInt16.ofNat (tmp % P.p)))
      (fun j (sol' : Arr UInt16) => (∀ R'' i', i' < P.n →
        ent P P.n sol' R'' i' = if R'' = R ∧ i' = i then ent P P.n sol R i
          - ∑ y ∈ Finset.range j, f i (cnt - 1 - y) * ent P P.n sol R' (cnt - 1 - y)
        else ent P P.n sol R'' i') ∧ ∀ len, Reduced P sol len → Reduced P sol' len)
      (Nat.zero_le cnt) (by
        rintro j sol' - hj ⟨hent, hred⟩
        have hlt := Nat.mod_lt (coef i j * (sol'.get (src j)).toNat) hpos
        have hval : ((UInt16.ofNat (((sol'.get (P.n * R + i)).toNat + P.p
            - coef i j * (sol'.get (src j)).toNat % P.p) % P.p)).toNat : ZMod P.p)
            = ent P P.n sol R i
              - ∑ y ∈ Finset.range (j + 1), f i (cnt - 1 - y) * ent P P.n sol R' (cnt - 1 - y) := by
          rw [toNat_ofNat_of_lt hp (Nat.mod_lt _ hpos), ZMod.natCast_mod, Nat.cast_sub (by omega),
            Nat.cast_add, ZMod.natCast_self, add_zero, ZMod.natCast_mod, Nat.cast_mul,
            hcoef i j hi hj, hsrc j hj, Finset.sum_range_succ]
          have h1 : ((sol'.get (P.n * R + i)).toNat : ZMod P.p) = ent P P.n sol' R i := rfl
          have h2 : ((sol'.get (P.n * R' + (cnt - 1 - j))).toNat : ZMod P.p)
            = ent P P.n sol' R' (cnt - 1 - j) := rfl
          rw [h1, h2, hent R i hi, if_pos ⟨rfl, rfl⟩, hent R' _ (by omega), if_neg (by omega)]
          ring
        refine ⟨fun R'' i' hi' => ?_, fun len h => (hred len h).set ?_⟩
        · rw [ent_set hi hi', hent R'' i' hi']
          by_cases hcell : R'' = R ∧ i' = i
          · rw [if_pos hcell, if_pos hcell]
            exact hval
          · rw [if_neg hcell, if_neg hcell, if_neg hcell]
        · rw [toNat_ofNat_of_lt hp (Nat.mod_lt _ hpos)]
          exact Nat.mod_lt _ hpos)
      ⟨fun R'' i' _ => by
        by_cases hcell : R'' = R ∧ i' = i
        · rw [if_pos hcell, hcell.1, hcell.2, Finset.range_zero, Finset.sum_empty, sub_zero]
        · rw [if_neg hcell], fun _ h => h⟩
    refine ⟨fun R'' i' hi' => ?_, hinv.2⟩
    rw [hinv.1 R'' i' hi',
      Finset.sum_range_reflect (fun x => f i x * ent P P.n sol R' x) cnt]
  unfold solAccum
  have hinv := forUp_invariant (s := sol) (f := fun i sol =>
      forUp 0 cnt (fun j sol =>
        let tmp := (sol.get (P.n * R + i)).toNat + P.p - coef i j * (sol.get (src j)).toNat % P.p
        sol.set (P.n * R + i) (UInt16.ofNat (tmp % P.p))) sol)
    (fun i (sol' : Arr UInt16) => (∀ R'' i', i' < P.n →
      ent P P.n sol' R'' i' = if R'' = R ∧ i' < i then
        ent P P.n sol R i' - ∑ x ∈ Finset.range cnt, f i' x * ent P P.n sol R' x
      else ent P P.n sol R'' i') ∧ ∀ len, Reduced P sol len → Reduced P sol' len)
    (Nat.zero_le _) (by
      rintro i sol' - hi ⟨hent, hred⟩
      obtain ⟨hrow, hred'⟩ := hinner i hi sol'
      refine ⟨fun R'' i' hi' => ?_, fun len h => hred' len (hred len h)⟩
      rw [hrow R'' i' hi', hent R'' i' hi']
      by_cases hcell : R'' = R ∧ i' = i
      · obtain ⟨rfl, rfl⟩ := hcell
        rw [if_pos ⟨rfl, rfl⟩, if_pos ⟨rfl, Nat.lt_succ_self _⟩, hent R'' i' hi', if_neg (by omega)]
        refine congrArg _ (Finset.sum_congr rfl fun x hx => ?_)
        rw [hent R' x (by have := Finset.mem_range.mp hx; omega), if_neg (by omega)]
      · rw [if_neg hcell]
        by_cases hlt : R'' = R ∧ i' < i
        · rw [if_pos hlt, if_pos (by omega)]
        · rw [if_neg hlt, if_neg (by omega)])
    ⟨fun R'' i' _ => by rw [if_neg (by omega)], fun _ h => h⟩
  exact ⟨fun i hi => by rw [hinv.1 R i hi, if_pos ⟨rfl, hi⟩],
    fun R'' i hne hi => by rw [hinv.1 R'' i hi, if_neg (by omega)], hinv.2⟩

/-- The start of the row that is `c` rows from the end of the unknowns. -/
theorem rowStart_eq (n c : Nat) : n * n + n * n - c * n = n * (2 * n - c) := by
  rw [Nat.mul_sub, show n * (2 * n) = n * n + n * n by ring, Nat.mul_comm n c]

/-- Counting backwards from the end of that row. -/
theorem rowEnd_eq {n c j k : Nat} (hc : c + 1 ≤ 2 * n) (hjk : j + k + 1 = n) :
    n * n + n * n - 1 - c * n - j = n * (2 * n - c - 1) + k := by
  have h1 := rowStart_eq n c
  have h2 : n * (2 * n - c) = n * (2 * n - c - 1) + n := by
    rw [← Nat.mul_succ]
    congr 1
    omega
  omega

/-- The matrix `N = -P0ᵀ`. -/
theorem solveN_spec (hm : P.m = P.n) (hpos : 0 < P.p) (hp : P.p ≤ 2 ^ 16) {A0 : Arr UInt16}
    (hA0 : Reduced P A0 (P.n * P.n)) :
    ∀ i x, i < P.n → x < P.n → ent P P.n (solveN P A0) i x = -ent P P.n A0 x i := by
  intro i x hi hx
  unfold solveN
  simp only [hm]
  have h := (blockFill_spec P.n 0 (P := P) (C := P.n) (R := P.n) (M := Arr.empty)
    (ι := fun i j => j * P.n + i)
    (g := fun i j => UInt16.ofNat ((P.p - (A0.get (i * P.n + j)).toNat) % P.p))
    (fun i j => by rw [Nat.zero_add, Nat.mul_comm]) (by omega)).1 i x hi hx
  rw [Nat.zero_add] at h
  have hle : (A0.get (x * P.n + i)).toNat < P.p := by
    rw [Nat.mul_comm]
    exact hA0 _ (flat_lt hx hi)
  rw [h, toNat_ofNat_of_lt hp (Nat.mod_lt _ hpos), negMod_cast hle.le, Nat.mul_comm x]
  rfl

/-- The unknowns as a table of rows: rows below n are those of `B_inv`, the
    others those of `A`. -/
structure SolSpec (P : Params) (M : Arr UInt16) (P0 : Nat → Nat → ZMod P.p) (amm : ZMod P.p)
    (sol : Arr UInt16) : Prop where
  corner : ent P P.n sol (2 * P.n - 1) (P.n - 1) = amm
  last : ∀ i, i < P.n - 1 →
    ent P P.n sol (2 * P.n - 1) i = ent P (2 * P.n + 2) M i (2 * P.n + 1)
  second : ∀ i, i < P.n → ent P P.n sol (2 * P.n - 2) i = ent P (2 * P.n + 2) M i (2 * P.n)
    - ∑ x ∈ Finset.range (P.n - 1),
      ent P (2 * P.n + 2) M i (P.n + x) * ent P P.n sol (2 * P.n - 1) x
  upper : ∀ a i, a + 2 < P.n → i < P.n → ent P P.n sol (P.n + a) i
    = -∑ x ∈ Finset.range P.n, ent P (2 * P.n + 2) M i (P.n + x) * ent P P.n sol (P.n + a + 1) x
  binv : ∀ a i, a < P.n → i < P.n → ent P P.n sol a i
    = ∑ x ∈ Finset.range P.n, ent P P.n sol (P.n + a) x * P0 x i
  reduced : Reduced P sol (P.n * (2 * P.n))

/-- The two rows of unknowns that are read off directly. -/
structure SolInit (P : Params) (M A0 : Arr UInt16) (Amm : Nat) (sol : Arr UInt16) : Prop where
  corner : ent P P.n sol (2 * P.n - 1) (P.n - 1) = Amm
  last : ∀ i, i < P.n - 1 →
    ent P P.n sol (2 * P.n - 1) i = ent P (2 * P.n + 2) M i (2 * P.n + 1)
  second : ∀ i, i < P.n → ent P P.n sol (2 * P.n - 2) i = ent P (2 * P.n + 2) M i (2 * P.n)
  binv : ∀ i, i < P.n → ent P P.n sol (P.n - 1) i = ent P P.n A0 (P.n - 1) i * Amm
  zero : ∀ R i, R ≠ P.n - 1 → R + 2 < 2 * P.n → i < P.n → ent P P.n sol R i = 0
  reduced : Reduced P sol (P.n * (2 * P.n))

theorem solInit_spec (A0 : Arr UInt16) (hn : 2 ≤ P.n) (hpos : 0 < P.p) (hp : P.p ≤ 2 ^ 16)
    {M : Arr UInt16} {Amm : Nat} (hM : Reduced P M ((2 * P.n + 2) * P.n)) (hAmm : Amm < P.p) :
    SolInit P M A0 Amm
      (forUp 0 P.n (fun i sol => sol.set (P.n * P.n - P.n + i)
          (UInt16.ofNat ((A0.get ((P.n - 1) * P.n + i)).toNat * Amm % P.p)))
        (forUp 0 P.n (fun i sol => sol.set (P.n * P.n + P.n * P.n - 2 * P.n + i)
            (M.get ((i + 1) * (2 * P.n + 2) - 2)))
          (forUp 0 (P.n - 1) (fun i sol => sol.set (P.n * P.n + P.n * P.n - P.n + i)
              (M.get ((i + 1) * (2 * P.n + 2) - 1)))
            ((Arr.replicate (P.n * P.n + P.n * P.n) (0 : UInt16)).set
              (P.n * P.n + P.n * P.n - 1) (UInt16.ofNat Amm))))) := by
  -- the last two columns of M, counted from the end of a row as in the source
  have hcell : ∀ i d, d < 2 * P.n + 2 →
      (i + 1) * (2 * P.n + 2) - (d + 1) = (2 * P.n + 2) * i + (2 * P.n + 2 - (d + 1)) := by
    intro i d hd
    rw [Nat.succ_mul, Nat.mul_comm i]
    omega
  have hMred : ∀ i d, i < P.n → d < 2 * P.n + 2 →
      (M.get ((i + 1) * (2 * P.n + 2) - (d + 1))).toNat < P.p := by
    intro i d hi hd
    rw [hcell i d hd]
    exact hM _ (flat_lt hi (by omega))
  have hmod : ∀ x, (UInt16.ofNat (x % P.p)).toNat = x % P.p := fun x =>
    toNat_ofNat_of_lt hp (Nat.mod_lt _ hpos)
  have hend : P.n * P.n + P.n * P.n - 1 = P.n * (2 * P.n - 1) + (P.n - 1) := by
    have := rowEnd_eq (n := P.n) (c := 0) (j := 0) (k := P.n - 1) (by omega) (by omega)
    simpa using this
  have hzero : ∀ R i, ent P P.n (Arr.replicate (P.n * P.n + P.n * P.n) (0 : UInt16)) R i = 0 := by
    intro R i
    unfold ent pmodMatEntry
    rw [show (Arr.replicate (P.n * P.n + P.n * P.n) (0 : UInt16)).get (P.n * R + i) = 0 from
      Arr.get_replicate (α := UInt16) _ _]
    exact Nat.cast_zero
  have hred0 : Reduced P (Arr.replicate (P.n * P.n + P.n * P.n) (0 : UInt16)) (P.n * (2 * P.n)) := by
    intro idx _
    exact (Arr.get_replicate (α := UInt16) _ idx).symm ▸ hpos
  rw [hend]
  -- the corner, then the last three rows, each fill on what the one before has left
  generalize hs1 : (Arr.replicate (P.n * P.n + P.n * P.n) (0 : UInt16)).set
    (P.n * (2 * P.n - 1) + (P.n - 1)) (UInt16.ofNat Amm) = s1
  have h1 : ∀ R i, i < P.n → ent P P.n s1 R i
      = if R = 2 * P.n - 1 ∧ i = P.n - 1 then (Amm : ZMod P.p) else 0 := by
    intro R i hi
    rw [← hs1, ent_set (by omega) hi, hzero, toNat_ofNat_of_lt hp hAmm]
  have hred1 : Reduced P s1 (P.n * (2 * P.n)) := by
    rw [← hs1]
    exact hred0.set (by rw [toNat_ofNat_of_lt hp hAmm]; exact hAmm)
  have h2 := rowFill_spec (P.n - 1) (P.n * P.n + P.n * P.n - P.n) (P := P) (C := P.n)
      (R := 2 * P.n - 1) (g := fun i => M.get ((i + 1) * (2 * P.n + 2) - 1))
    (v := fun i => ent P (2 * P.n + 2) M i (2 * P.n + 1)) (M := s1)
    (by have := rowStart_eq P.n 1; rwa [Nat.one_mul] at this) (by omega)
    (fun i _ => by
      have := hcell i 0 (by omega)
      rw [Nat.zero_add] at this
      rw [this]
      rfl)
  have hred2 : Reduced P (forUp 0 (P.n - 1) (fun i sol => sol.set (P.n * P.n + P.n * P.n - P.n + i)
      (M.get ((i + 1) * (2 * P.n + 2) - 1))) s1) (P.n * (2 * P.n)) :=
    forUp_set_reduced hred1 fun i _ hi => hMred i 0 (by omega) (by omega)
  generalize forUp 0 (P.n - 1) (fun i sol => sol.set (P.n * P.n + P.n * P.n - P.n + i)
      (M.get ((i + 1) * (2 * P.n + 2) - 1))) s1 = s2 at h2 hred2 ⊢
  have h3 := rowFill_spec P.n (P.n * P.n + P.n * P.n - 2 * P.n) (P := P) (C := P.n)
      (R := 2 * P.n - 2) (g := fun i => M.get ((i + 1) * (2 * P.n + 2) - 2))
    (v := fun i => ent P (2 * P.n + 2) M i (2 * P.n)) (M := s2)
    (rowStart_eq P.n 2) (Nat.le_refl _)
    (fun i _ => by
      rw [hcell i 1 (by omega)]
      rfl)
  have hred3 : Reduced P (forUp 0 P.n (fun i sol => sol.set (P.n * P.n + P.n * P.n - 2 * P.n + i)
      (M.get ((i + 1) * (2 * P.n + 2) - 2))) s2) (P.n * (2 * P.n)) :=
    forUp_set_reduced hred2 fun i _ hi => hMred i 1 hi (by omega)
  generalize forUp 0 P.n (fun i sol => sol.set (P.n * P.n + P.n * P.n - 2 * P.n + i)
      (M.get ((i + 1) * (2 * P.n + 2) - 2))) s2 = s3 at h3 hred3 ⊢
  have h4 := rowFill_spec P.n (P.n * P.n - P.n) (P := P) (C := P.n) (R := P.n - 1)
    (g := fun i => UInt16.ofNat ((A0.get ((P.n - 1) * P.n + i)).toNat * Amm % P.p))
    (v := fun i => ent P P.n A0 (P.n - 1) i * Amm) (M := s3) (by rw [Nat.mul_sub, Nat.mul_one])
    (Nat.le_refl _) (fun i _ => by
      rw [hmod, ZMod.natCast_mod, Nat.cast_mul, Nat.mul_comm (P.n - 1)]
      rfl)
  refine ⟨?_, fun i hi => ?_, fun i hi => ?_, h4.row, fun R i h1' h2' hi => ?_, ?_⟩
  · rw [h4.rest _ _ (by omega) (by omega), h3.rest _ _ (by omega) (by omega),
      h2.tail _ (Nat.le_refl _) (by omega), h1 _ _ (by omega), if_pos ⟨rfl, rfl⟩]
  · rw [h4.rest _ _ (by omega) (by omega), h3.rest _ _ (by omega) (by omega), h2.row i hi]
  · rw [h4.rest _ _ (by omega) hi, h3.row i hi]
  · rw [h4.rest _ _ h1' hi, h3.rest _ _ (by omega) hi, h2.rest _ _ (by omega) hi, h1 _ _ hi,
      if_neg (by omega)]
  · exact forUp_set_reduced hred3 fun i _ _ => by rw [hmod]; exact Nat.mod_lt _ hpos

theorem solveSol_spec (hm : P.m = P.n) (hn : 2 ≤ P.n) (hpos : 0 < P.p) (hp : P.p ≤ 2 ^ 16)
    {M N A0 : Arr UInt16} {Amm : Nat} (hM : Reduced P M ((2 * P.n + 2) * P.n)) (hAmm : Amm < P.p)
    (hN : ∀ i x, i < P.n → x < P.n → ent P P.n N i x = -ent P P.n A0 x i) :
    SolSpec P M (ent P P.n A0) Amm (solveSol P M N A0 Amm) := by
  have hI := solInit_spec A0 hn hpos hp hM hAmm
  unfold solveSol
  simp only [hm, show P.n + P.n + 2 = 2 * P.n + 2 by omega]
  generalize forUp 0 P.n _ _ = s4 at hI ⊢
  have hcoefM : ∀ cnt, cnt ≤ P.n → ∀ i j, i < P.n → j < cnt →
      ((M.get (i * (2 * P.n + 2) + P.n + P.n - (P.n - cnt) - 1 - j)).toNat : ZMod P.p)
        = ent P (2 * P.n + 2) M i (P.n + (cnt - 1 - j)) := by
    intro cnt hcnt i j hi hj
    rw [Nat.mul_comm i, show (2 * P.n + 2) * i + P.n + P.n - (P.n - cnt) - 1 - j
      = (2 * P.n + 2) * i + (P.n + (cnt - 1 - j)) by omega]
    rfl
  have hcoefN : ∀ cnt, cnt ≤ P.n → ∀ i j, i < P.n → j < cnt →
      ((N.get (i * P.n + P.n - (P.n - cnt) - 1 - j)).toNat : ZMod P.p)
        = -ent P P.n A0 (cnt - 1 - j) i := by
    intro cnt hcnt i j hi hj
    rw [← hN i _ hi (by omega), Nat.mul_comm i, show P.n * i + P.n - (P.n - cnt) - 1 - j
      = P.n * i + (cnt - 1 - j) by omega]
    rfl
  -- the incomplete blocks
  have h5 := solAccum_spec (2 * P.n - 1) (P.n - 1) (P.n * P.n + P.n * P.n - 2 * P.n)
      (fun i j => (M.get (i * (2 * P.n + 2) + P.n + P.n - 2 - j)).toNat)
      (fun j => P.n * P.n + P.n * P.n - 2 - j) (P := P) (R := 2 * P.n - 2)
    (f := fun i x => ent P (2 * P.n + 2) M i (P.n + x)) hpos hp (by omega) (by omega)
    (rowStart_eq P.n 2)
    (fun j hj => by
      have := rowEnd_eq (n := P.n) (c := 0) (j := j + 1) (k := P.n - 1 - 1 - j) (by omega) (by omega)
      simp only [Nat.zero_mul, Nat.sub_zero] at this
      omega)
    (fun i j hi hj => by
      rw [← hcoefM (P.n - 1) (by omega) i j hi hj]
      congr 3
      omega) s4
  generalize solAccum P (P.n * P.n + P.n * P.n - 2 * P.n) (P.n - 1) _ _ s4 = s5 at h5 ⊢
  have h6 := solAccum_spec (2 * P.n - 1) (P.n - 1) (P.n * P.n - P.n)
      (fun i j => (N.get (i * P.n + P.n - 2 - j)).toNat) (fun j => P.n * P.n + P.n * P.n - 2 - j)
      (P := P) (R := P.n - 1)
    (f := fun i x => -ent P P.n A0 x i) hpos hp (by omega) (by omega)
    (by rw [Nat.mul_sub, Nat.mul_one])
    (fun j hj => by
      have := rowEnd_eq (n := P.n) (c := 0) (j := j + 1) (k := P.n - 1 - 1 - j) (by omega) (by omega)
      simp only [Nat.zero_mul, Nat.sub_zero] at this
      omega)
    (fun i j hi hj => by
      rw [← hcoefN (P.n - 1) (by omega) i j hi hj]
      congr 3
      omega) s5
  generalize solAccum P (P.n * P.n - P.n) (P.n - 1) _ _ s5 = s6 at h6 ⊢
  -- the rows of A and of B⁻¹, upwards
  have h7 : ∀ b sol, 3 ≤ b → b ≤ P.n → AccumSpec P (2 * P.n - b) (2 * P.n - b + 1) P.n
      (fun i x => ent P (2 * P.n + 2) M i (P.n + x)) sol
      (solAccum P (P.n * P.n + P.n * P.n - b * P.n) P.n
        (fun i j => (M.get (i * (2 * P.n + 2) + P.n + P.n - 1 - j)).toNat)
        (fun j => P.n * P.n + P.n * P.n - 1 - (b - 2) * P.n - j) sol) := by
    intro b sol hb1 hb2
    refine solAccum_spec (2 * P.n - b + 1) P.n _ _ _ hpos hp (Nat.le_refl _) (by omega)
      (rowStart_eq P.n b) (fun j hj => ?_) (fun i j hi hj => ?_) sol
    · rw [rowEnd_eq (k := P.n - 1 - j) (by omega) (by omega),
        show 2 * P.n - (b - 2) - 1 = 2 * P.n - b + 1 by omega]
    · rw [← hcoefM P.n (Nat.le_refl _) i j hi hj]
      congr 3
      omega
  have h8 : ∀ b sol, 2 ≤ b → b ≤ P.n → AccumSpec P (P.n - b) (2 * P.n - b) P.n
      (fun i x => -ent P P.n A0 x i) sol
      (solAccum P (P.n * P.n - b * P.n) P.n
        (fun i j => (N.get (i * P.n + P.n - 1 - j)).toNat)
        (fun j => P.n * P.n + P.n * P.n - 1 - (b - 1) * P.n - j) sol) := by
    intro b sol hb1 hb2
    refine solAccum_spec (2 * P.n - b) P.n _ _ _ hpos hp (Nat.le_refl _) (by omega)
      (by rw [Nat.mul_sub, Nat.mul_comm b]) (fun j hj => ?_) (fun i j hi hj => ?_) sol
    · rw [rowEnd_eq (k := P.n - 1 - j) (by omega) (by omega),
        show 2 * P.n - (b - 1) - 1 = 2 * P.n - b by omega]
    · rw [← hcoefN P.n (Nat.le_refl _) i j hi hj]
      congr 3
      omega
  have hS := RowStart.unknowns (V := fun sol : Arr UInt16 => ent P P.n sol) (s := s6) hn
    ⟨hI.corner, hI.last, hI.second, hI.binv, hI.zero⟩ h5.rows h6.rows
    (fun b sol hb1 hb2 => (h7 b sol hb1 hb2).rows) fun b sol hb1 hb2 => (h8 b sol hb1 hb2).rows
  refine ⟨hS.corner, hS.last, hS.second, hS.upper, hS.prod, ?_⟩
  refine forUp_invariant (fun _ (sol : Arr UInt16) => Reduced P sol (P.n * (2 * P.n)))
    (show 2 ≤ P.n + 1 by omega) (fun b sol hb1 hb2 h => (h8 b sol hb1 (by omega)).reduced _ h) ?_
  exact forUp_invariant (fun _ (sol : Arr UInt16) => Reduced P sol (P.n * (2 * P.n)))
    (show 3 ≤ P.n + 1 by omega) (fun b sol hb1 hb2 h => (h7 b sol hb1 (by omega)).reduced _ h)
    (h6.reduced _ (h5.reduced _ hI.reduced))

/-! ## The solution -/

/-- The solution of `solve` for the generator `G` with corner `Amm`. -/
structure SolveSpec (P : Params) (G : Arr UInt16) (Amm : Nat) (A Binv : Arr UInt16) : Prop where
  binv : ∀ i j, i < P.n → j < P.n → ent P P.n Binv i j
    = ∑ x ∈ Finset.range P.n, ent P P.n A i x * subEnt P G 0 x j
  shift : ∀ i j, i + 1 < P.n → j < P.n →
    ∑ x ∈ Finset.range P.n, ent P P.n A i x * subEnt P G 1 x j
      = ∑ x ∈ Finset.range P.n, ent P P.n A (i + 1) x * subEnt P G 0 x j
  last : ∀ j, j + 1 < P.n →
    ∑ x ∈ Finset.range P.n, ent P P.n A (P.n - 1) x * subEnt P G 1 x j = 0
  corner : ent P P.n A (P.n - 1) (P.n - 1) = Amm
  reducedA : Reduced P A (P.n * P.n)
  reducedBinv : Reduced P Binv (P.n * P.n)

/-- The rows of A satisfy the equations of the system. -/
theorem SolSpec.solves (hn : 2 ≤ P.n) {M M' sol : Arr UInt16} {P0 P1 : Nat → Nat → ZMod P.p}
    {amm : ZMod P.p} (hS : SystemSpec P P0 P1 amm M) (hR : ReduceSpec P M M')
    (h : SolSpec P M' P0 amm sol) :
    (∀ i j, i + 1 < P.n → j < P.n →
      ∑ x ∈ Finset.range P.n, ent P P.n sol (P.n + i) x * P1 x j
        = ∑ x ∈ Finset.range P.n, ent P P.n sol (P.n + (i + 1)) x * P0 x j) ∧
    ∀ j, j + 1 < P.n →
      ∑ x ∈ Finset.range P.n, ent P P.n sol (P.n + (P.n - 1)) x * P1 x j = 0 := by
  have hsystem : RowSystem P.n P0 P1 amm (ent P (2 * P.n + 2) M) :=
    ⟨hS.lead, hS.mid, hS.corner, hS.last⟩
  have hreduced : RowReduced P.n (ent P (2 * P.n + 2) M) (ent P (2 * P.n + 2) M') :=
    ⟨hR.mid, hR.last⟩
  have hrows : RowUnknowns P.n (ent P (2 * P.n + 2) M') P0 amm (ent P P.n sol) :=
    ⟨h.corner, h.last, h.second, h.upper, h.binv⟩
  exact ⟨fun i j hi hj => hrows.shift hn hsystem hreduced hi hj,
    fun j hj => hrows.last_zero hn hsystem hreduced hj⟩

section

variable [hprime : Fact P.p.Prime]

/-- `solve` finds the solution exactly when the second matrix of the generator
    and its leading block without the last row and column are invertible. -/
theorem solve_spec (hm : P.m = P.n) (hn : 2 ≤ P.n) (hp : P.p ≤ 2 ^ 16) {G : Arr UInt16} {Amm : Nat}
    (hG : Reduced P G (P.n * P.n * 2)) (hAmm : Amm < P.p) :
    ((block (P.n - 1) (P.n - 1) (subEnt P G 1)).det ≠ 0 ∧ (block P.n P.n (subEnt P G 1)).det ≠ 0 ∧
        ∃ A Binv, solve P G Amm = some (A, Binv) ∧ SolveSpec P G Amm A Binv) ∨
      (((block (P.n - 1) (P.n - 1) (subEnt P G 1)).det = 0 ∨
        (block P.n P.n (subEnt P G 1)).det = 0) ∧ solve P G Amm = none) := by
  have hpos := hprime.out.pos
  unfold solve
  simp only [hm]
  -- A0 and A1 are the first two rows of the generator as square matrices
  have hcopy : ∀ (off : Nat), ∀ idx, idx < P.n * P.n →
      (forUp 0 (P.n * P.n) (fun i M => M.set i (G.get (i + off))) (Arr.empty : Arr UInt16)).get idx
        = G.get (idx + off) := fun off idx hidx =>
    (fill_spec 0 (P.n * P.n) (ι := fun i => i)
      (g := fun (_ : Arr UInt16) i => G.get (i + off)) (M := Arr.empty) (fun _ _ _ _ _ _ h => h)
      (fun _ _ _ _ _ => rfl)).1 idx (Nat.zero_le _) hidx
  have h0 : ∀ idx, idx < P.n * P.n →
      (forUp 0 (P.n * P.n) (fun i M => M.set i (G.get i)) (Arr.empty : Arr UInt16)).get idx
        = G.get idx := hcopy 0
  have h1 := hcopy (P.n * P.n)
  generalize forUp 0 (P.n * P.n) (fun i M => M.set i (G.get i)) Arr.empty = A0 at h0 ⊢
  generalize forUp 0 (P.n * P.n) (fun i M => M.set i (G.get (i + P.n * P.n))) Arr.empty = A1
    at h1 ⊢
  have hA0 : Reduced P A0 (P.n * P.n) := fun idx hidx => by
    rw [h0 idx hidx]
    exact hG idx (by omega)
  have hA1 : Reduced P A1 (P.n * P.n) := fun idx hidx => by
    rw [h1 idx hidx]
    exact hG _ (by omega)
  have hP0 : ∀ x j, x < P.n → j < P.n → ent P P.n A0 x j = subEnt P G 0 x j := by
    intro x j hx hj
    rw [subEnt, ent, ent, pmodMatEntry, pmodMatEntry, h0 _ (flat_lt hx hj), Nat.mul_zero, Nat.zero_add]
  have hP1 : ∀ x j, x < P.n → j < P.n → ent P P.n A1 x j = subEnt P G 1 x j := by
    intro x j hx hj
    rw [subEnt, ent, ent, pmodMatEntry, pmodMatEntry, h1 _ (flat_lt hx hj), Nat.mul_one, Nat.add_comm]
  have hS := solveM_spec hm hpos hp hA0 hA1 hAmm
  generalize solveM P A0 A1 Amm = M at hS ⊢
  -- the leading blocks of the system are those of the second matrix, transposed and negated
  have hd1 := det_block_neg_transpose (k := P.n - 1) (E := ent P (2 * P.n + 2) M)
    (F := subEnt P G 1) fun j i hj hi => by
      rw [hS.lead j i (by omega) (by omega), hP1 i j (by omega) (by omega)]
  have hd2 := det_block_neg_transpose (k := P.n) (E := ent P (2 * P.n + 2) M)
    (F := subEnt P G 1) fun j i hj hi => by rw [hS.lead j i hj hi, hP1 i j hi hj]
  rcases solveReduce_spec hm (by omega) hp hS.reduced with ⟨hne1, hne2, M', hM', hR⟩ | ⟨hor, hnone⟩
  case inr =>
    rw [hd1, hd2] at hor
    exact Or.inr ⟨hor, by rw [hnone]⟩
  refine Or.inl ⟨hd1.not.mp hne1, hd2.not.mp hne2, ?_⟩
  rw [hM']
  simp only
  have hN := solveN_spec hm hpos hp hA0
  have hsol := solveSol_spec hm hn hpos hp hR.reduced hAmm hN
  generalize solveSol P M' (solveN P A0) A0 Amm = sol at hsol ⊢
  obtain ⟨hshift, hlast⟩ := hsol.solves hn hS hR
  -- the solution is copied out: first the inverse of B, behind it A
  have hgetA := (fill_spec 0 (P.n * P.n) (ι := fun i => i)
    (g := fun (_ : Arr UInt16) i => sol.get (i + P.n * P.n)) (M := Arr.empty)
    (fun _ _ _ _ _ _ h => h) (fun _ _ _ _ _ => rfl)).1
  have hgetB := (fill_spec 0 (P.n * P.n) (ι := fun i => i)
    (g := fun (_ : Arr UInt16) i => sol.get i) (M := Arr.empty)
    (fun _ _ _ _ _ _ h => h) (fun _ _ _ _ _ => rfl)).1
  refine ⟨_, _, rfl, ?_⟩
  generalize forUp 0 (P.n * P.n) (fun i A => A.set i (sol.get (i + P.n * P.n))) Arr.empty = A
    at hgetA ⊢
  generalize forUp 0 (P.n * P.n) (fun i Binv => Binv.set i (sol.get i)) Arr.empty = Binv at hgetB ⊢
  have hA : ∀ i x, i < P.n → x < P.n → ent P P.n A i x = ent P P.n sol (P.n + i) x := by
    intro i x hi hx
    unfold ent pmodMatEntry
    rw [hgetA _ (Nat.zero_le _) (flat_lt hi hx), Nat.mul_add]
    congr 3
    omega
  have hB : ∀ i x, i < P.n → x < P.n → ent P P.n Binv i x = ent P P.n sol i x := by
    intro i x hi hx
    unfold ent pmodMatEntry
    rw [hgetB _ (Nat.zero_le _) (flat_lt hi hx)]
  have hdbl : P.n * (2 * P.n) = P.n * P.n + P.n * P.n := by ring
  refine ⟨fun i j hi hj => ?_, fun i j hi hj => ?_, fun j hj => ?_, ?_, fun idx hidx => ?_,
    fun idx hidx => ?_⟩
  · rw [hB i j hi hj, hsol.binv i j hi hj]
    refine Finset.sum_congr rfl fun x hx => ?_
    have hx' := Finset.mem_range.mp hx
    rw [hA i x hi hx', hP0 x j hx' hj]
  · have hl : ∀ x ∈ Finset.range P.n, ent P P.n A i x * subEnt P G 1 x j
        = ent P P.n sol (P.n + i) x * ent P P.n A1 x j := fun x hx => by
      have hx' := Finset.mem_range.mp hx
      rw [hA i x (by omega) hx', hP1 x j hx' hj]
    have hr : ∀ x ∈ Finset.range P.n, ent P P.n A (i + 1) x * subEnt P G 0 x j
        = ent P P.n sol (P.n + (i + 1)) x * ent P P.n A0 x j := fun x hx => by
      have hx' := Finset.mem_range.mp hx
      rw [hA (i + 1) x hi hx', hP0 x j hx' hj]
    rw [Finset.sum_congr rfl hl, Finset.sum_congr rfl hr]
    exact hshift i j hi hj
  · have hl : ∀ x ∈ Finset.range P.n, ent P P.n A (P.n - 1) x * subEnt P G 1 x j
        = ent P P.n sol (P.n + (P.n - 1)) x * ent P P.n A1 x j := fun x hx => by
      have hx' := Finset.mem_range.mp hx
      rw [hA _ x (by omega) hx', hP1 x j hx' (by omega)]
    rw [Finset.sum_congr rfl hl]
    exact hlast j hj
  · rw [hA _ _ (by omega) (by omega), show P.n + (P.n - 1) = 2 * P.n - 1 by omega, hsol.corner]
  · rw [hgetA idx (Nat.zero_le _) hidx]
    exact hsol.reduced _ (by omega)
  · rw [hgetB idx (Nat.zero_le _) hidx]
    exact hsol.reduced _ (by omega)

end

end Meds.Ref
