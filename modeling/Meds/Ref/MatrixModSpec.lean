/-
  Meds.Ref.MatrixModSpec

  What the matrix functions compute over GF(p).

  `pmod_mat_syst_ct` is exact: with `B` the leading square block of the
  matrix, it returns 0 iff `B` is invertible, and then the matrix has become
  `B⁻¹` times what it was.  Each row loop is one row operation (`RowOp`), and
  the elimination keeps a `ForwardInv` from pivot to pivot.
-/

import Meds.Core.Gauss
import Meds.Core.Table
import Meds.Ref.MatrixMod
import Mathlib.FieldTheory.Finite.Basic
import Mathlib.Data.ZMod.Basic

namespace Meds.Ref

open Meds.Core

section

variable (P : Params)

/-- Entry `(i, j)` of an array with `C` columns, in GF(p). -/
def ent (C : Nat) (M : Arr UInt16) (i j : Nat) : ZMod P.p := (pmodMatEntry M C i j : ZMod P.p)

/-- The first `len` entries are reduced. -/
def Reduced (M : Arr UInt16) (len : Nat) : Prop := ∀ idx, idx < len → (M.get idx).toNat < P.p

end

variable {P : Params}

theorem Reduced.mono {M : Arr UInt16} {a b : Nat} (h : Reduced P M b) (hab : a ≤ b) :
    Reduced P M a := fun idx hidx => h idx (by omega)

theorem Reduced.entry {M : Arr UInt16} {R C i j : Nat} (h : Reduced P M (C * R)) (hi : i < R)
    (hj : j < C) : pmodMatEntry M C i j < P.p := h _ (flat_lt hi hj)

/-- Reduced cells with equal values in GF(p) are equal. -/
theorem eq_of_cast_eq {x y : UInt16} (hx : x.toNat < P.p) (hy : y.toNat < P.p)
    (h : (x.toNat : ZMod P.p) = (y.toNat : ZMod P.p)) : x = y := by
  rw [ZMod.natCast_eq_natCast_iff, Nat.ModEq, Nat.mod_eq_of_lt hx, Nat.mod_eq_of_lt hy] at h
  exact UInt16.toNat_inj.mp h

/-! ## Modular arithmetic -/

theorem toNat_ofNat_of_lt {v p : Nat} (hp : p ≤ 2 ^ 16) (hv : v < p) :
    (UInt16.ofNat v).toNat = v := by
  rw [UInt16.toNat_ofNat', Nat.mod_eq_of_lt (by omega)]

theorem subMod_lt {p a b : Nat} (ha : a < p) (hb : b < p) : subMod p a b < p := by
  have hlt : (a : Int) < p := Int.ofNat_lt.mpr ha
  unfold subMod
  simp only
  split <;> omega

theorem subMod_cast {a b : Nat} (ha : a < P.p) (hb : b < P.p) :
    (subMod P.p a b : ZMod P.p) = (a : ZMod P.p) - b := by
  have hlt : (a : Int) < P.p := Int.ofNat_lt.mpr ha
  have hcast : ((subMod P.p a b : Nat) : Int) = a - b + P.p * (if (a : Int) - b < 0 then 1 else 0) := by
    unfold subMod
    simp only
    split <;> omega
  have := congrArg (Int.cast (R := ZMod P.p)) hcast
  simpa using this

/-! ## Inversion in GF(p) -/

section

variable [hprime : Fact P.p.Prime]

/-- A product of two powers of `x` is a power of `x`. -/
theorem mulMod_cast {x : ZMod P.p} {a b m n : Nat} (ha : (a : ZMod P.p) = x ^ m)
    (hb : (b : ZMod P.p) = x ^ n) : ((a * b % P.p : Nat) : ZMod P.p) = x ^ (m + n) := by
  rw [ZMod.natCast_mod, Nat.cast_mul, ha, hb, pow_add]

theorem gfInvChain_cast (val : Nat) :
    (gfInvChain P val : ZMod P.p) = (val : ZMod P.p) ^ 8189 := by
  have h0 : (val : ZMod P.p) = (val : ZMod P.p) ^ 1 := (pow_one _).symm
  have h1 := mulMod_cast h0 h0
  have h2 := mulMod_cast h1 h0
  have h3 := mulMod_cast h2 h1
  have h4 := mulMod_cast h3 h3
  have h5 := mulMod_cast h4 h3
  have h6 := mulMod_cast h5 h5
  have h7 := mulMod_cast h6 h6
  have h8 := mulMod_cast h7 h7
  have h9 := mulMod_cast h8 h8
  have h10 := mulMod_cast h9 h5
  have h11 := mulMod_cast h10 h10
  have h12 := mulMod_cast h11 h11
  have h13 := mulMod_cast h12 h2
  have h14 := mulMod_cast h13 h13
  have h15 := mulMod_cast h14 h14
  have h16 := mulMod_cast h15 h15
  exact mulMod_cast h16 h3

theorem gfInvLoop_cast (e t val : Nat) :
    ((gfInvLoop P (e, t, val)).2.1 : ZMod P.p) = (t : ZMod P.p) * (val : ZMod P.p) ^ e := by
  obtain ⟨hI, hdone⟩ := iterWhile_invariant (fun (s : Nat × Nat × Nat) => s.1 > 0)
    (fun (s : Nat × Nat × Nat) =>
      (s.1 >>> 1, if s.1 &&& 1 ≠ 0 then s.2.1 * s.2.2 % P.p else s.2.1, s.2.2 * s.2.2 % P.p))
    (fun s => (s.2.1 : ZMod P.p) * (s.2.2 : ZMod P.p) ^ s.1 = (t : ZMod P.p) * (val : ZMod P.p) ^ e)
    (fun s => s.1) (by
      rintro ⟨e, t, v⟩ hI hpos
      simp only [gt_iff_lt, decide_eq_true_eq] at hI hpos
      have hhalf : e >>> 1 = e / 2 := by rw [Nat.shiftRight_eq_div_pow]
      simp only [hhalf, Nat.and_one_is_mod]
      refine ⟨?_, by omega⟩
      rw [← hI, ZMod.natCast_mod, Nat.cast_mul, ← pow_two, ← pow_mul]
      rcases Nat.mod_two_eq_zero_or_one e with h0 | h1
      · rw [h0, if_neg (by decide)]
        congr 2
        omega
      · rw [h1, if_pos (by decide), ZMod.natCast_mod, Nat.cast_mul, mul_assoc, ← pow_succ']
        congr 2
        omega)
    (s := (e, t, val)) rfl (Nat.le_refl e)
  have hzero : (gfInvLoop P (e, t, val)).1 = 0 := by
    by_contra hne
    exact hne (hdone (decide_eq_true (Nat.pos_of_ne_zero hne)))
  change ((gfInvLoop P (e, t, val)).2.1 : ZMod P.p) * _ ^ (gfInvLoop P (e, t, val)).1 = _ at hI
  rw [hzero, pow_zero, mul_one] at hI
  exact hI

theorem gfInv_cast_pow (val : Nat) :
    (gfInv P val : ZMod P.p) = (val : ZMod P.p) ^ (P.p - 2) := by
  unfold gfInv
  split
  · rename_i h
    rw [gfInvChain_cast, show P.p - 2 = 8189 by omega]
  · rw [gfInvLoop_cast, Nat.cast_one, one_mul]

/-- `GF_inv` inverts every nonzero residue. -/
theorem gfInv_cast {val : Nat} (h0 : (val : ZMod P.p) ≠ 0) :
    (gfInv P val : ZMod P.p) = (val : ZMod P.p)⁻¹ := by
  have hp2 := hprime.out.two_le
  refine eq_inv_of_mul_eq_one_left ?_
  rw [gfInv_cast_pow, ← pow_succ, show P.p - 2 + 1 = P.p - 1 by omega]
  exact ZMod.pow_card_sub_one_eq_one h0

/-- The result is reduced. -/
theorem gfInv_lt (val : Nat) : gfInv P val < P.p := by
  have hpos := hprime.out.pos
  unfold gfInv
  split
  · exact Nat.mod_lt _ hpos
  · refine (iterWhile_invariant _ _ (fun s : Nat × Nat × Nat => s.2.1 < P.p) (fun s => s.1)
      (fun s hs hc => ⟨?_, ?_⟩) hprime.out.one_lt (Nat.le_refl _)).1
    · simp only
      split
      · exact Nat.mod_lt _ hpos
      · exact hs
    · have hpos : 0 < s.1 := of_decide_eq_true hc
      simp only [Nat.shiftRight_eq_div_pow]
      omega

end

/-! ## Products -/

theorem forUp_add (n : Nat) (f : Nat → Nat) :
    forUp 0 n (fun i val => val + f i) 0 = ∑ i ∈ Finset.range n, f i := by
  induction n with
  | zero => simp
  | succ n ih => rw [forUp_succ (Nat.zero_le n), ih, Finset.sum_range_succ]

/-- What a product leaves in its target: the entries, and nothing else changed. -/
structure MulSpec (P : Params) (Cr Cc Ar Ac Bc : Nat) (A B C C' : Arr UInt16) : Prop where
  entry : ∀ r c, r < Cr → c < Cc → pmodMatEntry C' Cc r c
    = (∑ i ∈ Finset.range Ar, pmodMatEntry A Ac r i * pmodMatEntry B Bc i c) % P.p
  rest : ∀ idx, Cc * Cr ≤ idx → C'.get idx = C.get idx

theorem pmodMatMulRevise_spec (Cr Cc Ar Ac Bc : Nat) {A B : Arr UInt16} (tmp : Arr UInt16)
    (hpos : 0 < P.p)
    (hp : P.p ≤ 2 ^ 16) :
    MulSpec P Cr Cc Ar Ac Bc A B tmp (pmodMatMulRevise P tmp Cr Cc A Ar Ac B Bc) := by
  obtain ⟨hin, hout⟩ := fill2_spec 0 Cc 0 Cr
    (ι := fun c r => Cc * r + c) (M := tmp)
    (g := fun c r => UInt16.ofNat
      ((forUp 0 Ar (fun i val => val + pmodMatEntry A Ac r i * pmodMatEntry B Bc i c) 0) % P.p))
    (fun c r c' r' _ hc _ _ _ hc' _ _ h => (flat_inj hc hc' h).symm)
  constructor
  · intro r c hr hc
    refine (congrArg UInt16.toNat (hin c r (Nat.zero_le _) hc (Nat.zero_le _) hr)).trans ?_
    rw [forUp_add]
    exact toNat_ofNat_of_lt hp (Nat.mod_lt _ hpos)
  · intro idx hidx
    refine hout idx fun c r _ hc _ hr heq => ?_
    have := flat_lt hr hc
    omega

theorem pmodMatMul_spec (Cr Cc Ar Ac Bc : Nat) {A B C : Arr UInt16} (hpos : 0 < P.p)
    (hp : P.p ≤ 2 ^ 16) :
    MulSpec P Cr Cc Ar Ac Bc A B C (pmodMatMul P C Cr Cc A Ar Ac B Bc) := by
  have htmp := pmodMatMulRevise_spec Cr Cc Ar Ac Bc Arr.empty (P := P)
    (A := A) (B := B) hpos hp
  unfold pmodMatMul
  simp only
  generalize pmodMatMulRevise P Arr.empty Cr Cc A Ar Ac B Bc = tmp at htmp ⊢
  obtain ⟨hin, hout⟩ := fill2_spec 0 Cc 0 Cr
    (ι := fun c r => Cc * r + c) (M := C)
    (g := fun c r => UInt16.ofNat (pmodMatEntry tmp Cc r c))
    (fun c r c' r' _ hc _ _ _ hc' _ _ h => (flat_inj hc hc' h).symm)
  constructor
  · intro r c hr hc
    refine (congrArg UInt16.toNat (hin c r (Nat.zero_le _) hc (Nat.zero_le _) hr)).trans ?_
    rw [htmp.entry r c hr hc]
    exact toNat_ofNat_of_lt hp (Nat.mod_lt _ hpos)
  · intro idx hidx
    refine hout idx fun c r _ hc _ hr heq => ?_
    have := flat_lt hr hc
    omega

theorem MulSpec.reduced {Cr Cc Ar Ac Bc : Nat} {A B C C' : Arr UInt16}
    (h : MulSpec P Cr Cc Ar Ac Bc A B C C') (hpos : 0 < P.p) : Reduced P C' (Cc * Cr) := by
  intro idx hidx
  have hC : 0 < Cc := Nat.pos_of_ne_zero (by rintro rfl; simp at hidx)
  have hr : idx / Cc < Cr := (Nat.div_lt_iff_lt_mul hC).mpr (by rwa [Nat.mul_comm])
  have := h.entry (idx / Cc) (idx % Cc) hr (Nat.mod_lt _ hC)
  rw [pmodMatEntry, Nat.div_add_mod] at this
  rw [this]
  exact Nat.mod_lt _ hpos

/-- The product in GF(p). -/
theorem MulSpec.block_eq {Cr Cc Ar Ac Bc : Nat} {A B C C' : Arr UInt16}
    (h : MulSpec P Cr Cc Ar Ac Bc A B C C') :
    block Cr Cc (ent P Cc C') = block Cr Ar (ent P Ac A) * block Ar Cc (ent P Bc B) := by
  ext r c
  rw [Matrix.mul_apply, block_apply, ent, h.entry r c r.isLt c.isLt, ZMod.natCast_mod, Nat.cast_sum,
    ← Fin.sum_univ_eq_sum_range
      (fun i => ((pmodMatEntry A Ac r i * pmodMatEntry B Bc i c : Nat) : ZMod P.p))]
  refine Finset.sum_congr rfl fun i _ => ?_
  rw [Nat.cast_mul]
  rfl

/-! ## One row loop -/

/-- `M'` is `M` with columns `lo, …, hi - 1` of row `a` replaced by `g`. -/
structure RowOp (P : Params) (C a lo hi : Nat) (g : Nat → ZMod P.p) (M M' : Arr UInt16) : Prop where
  row : ∀ c, lo ≤ c → c < hi → ent P C M' a c = g c
  reduced : ∀ c, lo ≤ c → c < hi → (M'.get (C * a + c)).toNat < P.p
  rest : ∀ idx, (∀ c, lo ≤ c → c < hi → C * a + c ≠ idx) → M'.get idx = M.get idx

theorem RowOp.ent_eq {C a lo hi : Nat} {g : Nat → ZMod P.p} {M M' : Arr UInt16}
    (h : RowOp P C a lo hi g M M') (hhi : hi ≤ C) {i j : Nat} (hj : j < C) :
    ent P C M' i j = if i = a ∧ lo ≤ j ∧ j < hi then g j else ent P C M i j := by
  by_cases hin : i = a ∧ lo ≤ j ∧ j < hi
  · obtain ⟨rfl, h1, h2⟩ := hin
    rw [if_pos ⟨rfl, h1, h2⟩, h.row j h1 h2]
  · rw [if_neg hin]
    unfold ent pmodMatEntry
    rw [h.rest]
    intro c h1 h2 heq
    obtain ⟨rfl, rfl⟩ := flat_inj (by omega) hj heq
    exact hin ⟨rfl, h1, h2⟩

theorem RowOp.reduced_all {C a lo hi len : Nat} {g : Nat → ZMod P.p} {M M' : Arr UInt16}
    (h : RowOp P C a lo hi g M M') (hM : Reduced P M len) : Reduced P M' len := by
  intro idx hidx
  by_cases hin : ∃ c, lo ≤ c ∧ c < hi ∧ C * a + c = idx
  · obtain ⟨c, h1, h2, rfl⟩ := hin
    exact h.reduced c h1 h2
  · rw [h.rest idx fun c h1 h2 heq => hin ⟨c, h1, h2, heq⟩]
    exact hM idx hidx

/-- A row operation inside the matrix leaves the cells after it alone. -/
theorem RowOp.rest_of_ge {C R a lo hi : Nat} {g : Nat → ZMod P.p} {M M' : Arr UInt16}
    (h : RowOp P C a lo hi g M M') (hhi : hi ≤ C) (ha : a < R) {idx : Nat} (hidx : C * R ≤ idx) :
    M'.get idx = M.get idx :=
  h.rest idx fun c _ hc heq => by
    have := flat_lt ha (show c < C by omega)
    omega

/-- The general row loop: cell `c` of row `a` becomes `f c` of the row's own
    cell and the cell of another row `b`. -/
theorem rowLoop_spec {C a b lo hi : Nat} {f : Nat → Nat → Nat} {g : Nat → ZMod P.p}
    {M : Arr UInt16} (hhi : hi ≤ C) (hab : a ≠ b) (hp : P.p ≤ 2 ^ 16)
    (hf : ∀ c, lo ≤ c → c < hi → f (pmodMatEntry M C a c) (pmodMatEntry M C b c) < P.p ∧
      (f (pmodMatEntry M C a c) (pmodMatEntry M C b c) : ZMod P.p) = g c) :
    RowOp P C a lo hi g M (forUp lo hi (fun c M =>
      pmodMatSetEntry M C a c (f (pmodMatEntry M C a c) (pmodMatEntry M C b c))) M) := by
  obtain ⟨hin, hout⟩ := fill_spec lo hi (ι := fun c => C * a + c)
    (g := fun (M : Arr UInt16) c =>
      UInt16.ofNat (f (pmodMatEntry M C a c) (pmodMatEntry M C b c)))
    (M := M) (fun x y _ _ _ _ h => by omega) (by
      intro c M' h1 h2 h
      unfold pmodMatEntry
      rw [h (C * a + c) fun x _ _ => by omega, h (C * b + c) fun x hx1 hx2 heq =>
        hab (flat_inj (by omega) (by omega) heq).1])
  have hcell : ∀ c, lo ≤ c → c < hi → ((forUp lo hi (fun c M =>
      pmodMatSetEntry M C a c (f (pmodMatEntry M C a c) (pmodMatEntry M C b c))) M).get
        (C * a + c)).toNat = f (pmodMatEntry M C a c) (pmodMatEntry M C b c) := by
    intro c h1 h2
    refine (congrArg UInt16.toNat (hin c h1 h2)).trans ?_
    exact toNat_ofNat_of_lt hp (hf c h1 h2).1
  refine ⟨fun c h1 h2 => ?_, fun c h1 h2 => ?_, hout⟩
  · rw [ent, pmodMatEntry, hcell c h1 h2]
    exact (hf c h1 h2).2
  · rw [hcell c h1 h2]
    exact (hf c h1 h2).1

section

variable [hprime : Fact P.p.Prime]

/-- The row loop of the normalization. -/
theorem scaleRow_spec {C r : Nat} (lo hi val : Nat) (M : Arr UInt16) (hhi : hi ≤ C)
    (hp : P.p ≤ 2 ^ 16) :
    RowOp P C r lo hi (fun c => (val : ZMod P.p) * ent P C M r c) M (scaleRow P C r lo hi val M) :=
  rowLoop_spec (b := r + 1) (f := fun x _ => x * val % P.p) hhi (by omega) hp fun c _ _ =>
    ⟨Nat.mod_lt _ hprime.out.pos, by rw [ZMod.natCast_mod, Nat.cast_mul, mul_comm]; rfl⟩

/-- The row loop of the elimination and the back substitution. -/
theorem subRow_spec {C r : Nat} (r2 lo hi factor : Nat) {M : Arr UInt16} (hhi : hi ≤ C)
    (hne : r2 ≠ r)
    (hp : P.p ≤ 2 ^ 16) (hred : ∀ c, lo ≤ c → c < hi → pmodMatEntry M C r2 c < P.p) :
    RowOp P C r2 lo hi (fun c => ent P C M r2 c + -(factor : ZMod P.p) * ent P C M r c) M
      (subRow P C r r2 lo hi factor M) :=
  rowLoop_spec (b := r) (f := fun x y => subMod P.p x (y * factor % P.p)) hhi hne hp fun c h1 h2 =>
    have hlt := Nat.mod_lt (pmodMatEntry M C r c * factor) hprime.out.pos
    ⟨subMod_lt (hred c h1 h2) hlt, by
      rw [subMod_cast (hred c h1 h2) hlt, ZMod.natCast_mod, Nat.cast_mul, neg_mul, ← sub_eq_add_neg,
        mul_comm]
      rfl⟩

/-! ## The elimination -/

/-- The elimination of an `Mr × Mc` matrix `M₀` with the columns below `r` done. -/
structure ForwardInv (P : Params) [Fact P.p.Prime] (Mr Mc r : Nat) (M₀ M : Arr UInt16) : Prop where
  equiv : RowEquiv Mr Mc (ent P Mc M₀) (ent P Mc M)
  stair : Staircase Mr r (ent P Mc M)
  reduced : Reduced P M (Mc * Mr)
  rest : ∀ idx, Mc * Mr ≤ idx → M.get idx = M₀.get idx

theorem ForwardInv.of_reduced {Mr Mc : Nat} {M : Arr UInt16} (h : Reduced P M (Mc * Mr)) :
    ForwardInv P Mr Mc 0 M M :=
  ⟨RowEquiv.refl _ _ _, Staircase.zero _ _, h, fun _ _ => rfl⟩

/-- Adding a multiple of row `b` to row `a`, both not above the pivot row `r`. -/
theorem ForwardInv.addRow {Mr Mc r a b : Nat} {x : ZMod P.p} {M₀ M M' : Arr UInt16}
    (h : ForwardInv P Mr Mc r M₀ M) (hle : Mr ≤ Mc) (ha : a < Mr) (hb : b < Mr) (hab : a ≠ b)
    (hra : r ≤ a) (hrb : r ≤ b)
    (hop : RowOp P Mc a r Mc (fun c => ent P Mc M a c + x * ent P Mc M b c) M M') :
    ForwardInv P Mr Mc r M₀ M' := by
  have hent : ∀ i j, i < Mr → j < Mc → ent P Mc M' i j
      = if i = a then ent P Mc M i j + x * ent P Mc M b j else ent P Mc M i j := by
    intro i j _ hj
    rw [hop.ent_eq (Nat.le_refl _) hj]
    by_cases hia : i = a
    · subst hia
      by_cases hjr : r ≤ j
      · rw [if_pos ⟨rfl, hjr, hj⟩, if_pos rfl]
      · rw [if_neg (by omega), if_pos rfl, h.stair.below b j hb (by omega) (by omega), mul_zero,
          add_zero]
    · rw [if_neg (fun hc => hia hc.1), if_neg hia]
  refine ⟨h.equiv.trans (RowEquiv.addRow x ha hb hab hent), ⟨?_, ?_⟩, hop.reduced_all h.reduced,
    fun idx hidx => (hop.rest_of_ge (Nat.le_refl _) ha hidx).trans (h.rest idx hidx)⟩
  · intro i hi
    rw [hent i i (by omega) (by omega), if_neg (by omega)]
    exact h.stair.diag i hi
  · intro i j hi hj hji
    rw [hop.ent_eq (Nat.le_refl _) (by omega), if_neg (by omega)]
    exact h.stair.below i j hi hj hji

/-- Scaling the pivot row. -/
theorem ForwardInv.scale {Mr Mc r : Nat} {x : ZMod P.p} {M₀ M M' : Arr UInt16}
    (h : ForwardInv P Mr Mc r M₀ M) (hle : Mr ≤ Mc) (hr : r < Mr) (hx : x ≠ 0)
    (hop : RowOp P Mc r r Mc (fun c => x * ent P Mc M r c) M M') :
    ForwardInv P Mr Mc r M₀ M' := by
  have hent : ∀ i j, i < Mr → j < Mc → ent P Mc M' i j
      = if i = r then x * ent P Mc M i j else ent P Mc M i j := by
    intro i j hi hj
    rw [hop.ent_eq (Nat.le_refl _) hj]
    by_cases hir : i = r
    · subst hir
      by_cases hjr : i ≤ j
      · rw [if_pos ⟨rfl, hjr, hj⟩, if_pos rfl]
      · rw [if_neg (by omega), if_pos rfl, h.stair.below i j hi (by omega) (by omega), mul_zero]
    · rw [if_neg (fun hc => hir hc.1), if_neg hir]
  refine ⟨h.equiv.trans (RowEquiv.scaleRow hx hent), ⟨?_, ?_⟩, hop.reduced_all h.reduced,
    fun idx hidx => (hop.rest_of_ge (Nat.le_refl _) hr hidx).trans (h.rest idx hidx)⟩
  · intro i hi
    rw [hent i i (by omega) (by omega), if_neg (by omega)]
    exact h.stair.diag i hi
  · intro i j hi hj hji
    rw [hop.ent_eq (Nat.le_refl _) (by omega), if_neg (by omega)]
    exact h.stair.below i j hi hj hji

theorem ent_eq_zero_iff {C i j : Nat} {M : Arr UInt16} (h : pmodMatEntry M C i j < P.p) :
    ent P C M i j = 0 ↔ pmodMatEntry M C i j = 0 := by
  unfold ent
  rw [ZMod.natCast_eq_zero_iff]
  exact ⟨fun hd => Nat.eq_zero_of_dvd_of_lt hd h, fun h0 => h0 ▸ Nat.dvd_zero _⟩

/-- After the swap loop the pivot is zero only if its whole column is. -/
theorem swapStep_spec {Mr Mc r : Nat} {M₀ M : Arr UInt16} (h : ForwardInv P Mr Mc r M₀ M)
    (hle : Mr ≤ Mc) (hr : r < Mr) (hp : P.p ≤ 2 ^ 16) :
    ForwardInv P Mr Mc r M₀ (swapStep P Mr Mc r M) ∧
      (ent P Mc (swapStep P Mr Mc r M) r r = 0 →
        ∀ i, r ≤ i → i < Mr → ent P Mc (swapStep P Mr Mc r M) i r = 0) := by
  -- after the rows up to r2: if the pivot is still zero, so is the column up to there
  have hinv := forUp_invariant
    (f := fun r2 M =>
      let Mrr := pmodMatEntry M Mc r r
      forUp r Mc
        (fun c M =>
          let val := pmodMatEntry M Mc r2 c
          let Mrc := pmodMatEntry M Mc r c
          pmodMatSetEntry M Mc r c ((Mrc + val * (if Mrr = 0 then 1 else 0)) % P.p))
        M)
    (fun r2 M => ForwardInv P Mr Mc r M₀ M ∧
      (ent P Mc M r r = 0 → ∀ i, r ≤ i → i < r2 → ent P Mc M i r = 0)) hr (by
      rintro r2 M h1 h2 ⟨hF, hcol⟩
      have hop : RowOp P Mc r r Mc (fun c => ent P Mc M r c
          + (if pmodMatEntry M Mc r r = 0 then 1 else 0) * ent P Mc M r2 c) M _ :=
        rowLoop_spec (b := r2)
          (f := fun x y => (x + y * (if pmodMatEntry M Mc r r = 0 then 1 else 0)) % P.p)
          (Nat.le_refl _) (by omega) hp fun c _ _ =>
          ⟨Nat.mod_lt _ hprime.out.pos, by
            rw [ZMod.natCast_mod]
            push_cast
            rw [mul_comm]
            rfl⟩
      refine ⟨hF.addRow hle hr h2 (by omega) (Nat.le_refl _) (by omega) hop, ?_⟩
      intro h0 i hi1 hi2
      have hrow := hop.row r (Nat.le_refl _) (by omega)
      rw [h0] at hrow
      by_cases hir : i = r
      · rw [hir]
        exact h0
      rw [hop.ent_eq (Nat.le_refl _) (by omega), if_neg (fun hc => hir hc.1)]
      -- the row is added only while the pivot is zero
      by_cases hz : pmodMatEntry M Mc r r = 0
      · have hrr : ent P Mc M r r = 0 := by rw [ent, hz, Nat.cast_zero]
        by_cases hi : i = r2
        · rw [if_pos hz, hrr, zero_add, one_mul] at hrow
          rw [hi]
          exact hrow.symm
        · exact hcol hrr i hi1 (by omega)
      · rw [if_neg hz, zero_mul, add_zero] at hrow
        exact absurd ((ent_eq_zero_iff (hF.reduced.entry hr (by omega))).mp hrow.symm) hz)
    (s := M) ⟨h, fun h0 i h1 h2 => by
      obtain rfl : i = r := by omega
      exact h0⟩
  exact hinv

/-- One pivot: either it succeeds, or its column has no pivot. -/
theorem forwardStep_spec {Mr Mc r : Nat} {M₀ M : Arr UInt16} (h : ForwardInv P Mr Mc r M₀ M)
    (hle : Mr ≤ Mc) (hr : r < Mr) (hp : P.p ≤ 2 ^ 16) :
    ((forwardStep P Mr Mc r M).2 = false ∧
        ForwardInv P Mr Mc (r + 1) M₀ (forwardStep P Mr Mc r M).1) ∨
      ((forwardStep P Mr Mc r M).2 = true ∧
        ForwardInv P Mr Mc r M₀ (forwardStep P Mr Mc r M).1 ∧
        ∀ i, r ≤ i → i < Mr → ent P Mc (forwardStep P Mr Mc r M).1 i r = 0) := by
  obtain ⟨hS, hcol⟩ := swapStep_spec h hle hr hp
  unfold forwardStep
  generalize swapStep P Mr Mc r M = S at hS hcol ⊢
  have hlt := hS.reduced.entry hr (show r < Mc by omega)
  by_cases h0 : pmodMatEntry S Mc r r = 0
  · refine Or.inr ?_
    simp only [h0, if_true]
    exact ⟨trivial, hS, hcol (by rw [ent, h0, Nat.cast_zero])⟩
  refine Or.inl ?_
  simp only [h0, if_false]
  refine ⟨trivial, ?_⟩
  have hne : ent P Mc S r r ≠ 0 := mt (ent_eq_zero_iff hlt).mp h0
  have hinv : (gfInv P (pmodMatEntry S Mc r r) : ZMod P.p) = (ent P Mc S r r)⁻¹ := gfInv_cast hne
  -- the pivot becomes one
  have hscale := scaleRow_spec r _ (gfInv P (pmodMatEntry S Mc r r)) (r := r) S
    (Nat.le_refl Mc) hp
  have hN := hS.scale hle hr (by rw [hinv]; exact inv_ne_zero hne) hscale
  have hone : ent P Mc (scaleRow P Mc r r Mc (gfInv P (pmodMatEntry S Mc r r)) S) r r = 1 := by
    rw [hscale.row r (Nat.le_refl _) (by omega), hinv]
    exact inv_mul_cancel₀ hne
  generalize scaleRow P Mc r r Mc (gfInv P (pmodMatEntry S Mc r r)) S = N at hN hone ⊢
  -- the rows below lose their entry in column r
  obtain ⟨hF, hrr, hbelow⟩ := forUp_invariant
    (f := fun r2 M => subRow P Mc r r2 r Mc (pmodMatEntry M Mc r2 r) M)
    (fun r2 M => ForwardInv P Mr Mc r M₀ M ∧ ent P Mc M r r = 1 ∧
      ∀ i, r < i → i < r2 → ent P Mc M i r = 0) hr (by
      rintro r2 M h1 h2 ⟨hF, hrr, hbelow⟩
      have hop := subRow_spec r2 r _ (pmodMatEntry M Mc r2 r) (r := r)
        (M := M) (Nat.le_refl Mc) (by omega) hp fun c _ hc => hF.reduced.entry h2 hc
      refine ⟨hF.addRow hle h2 hr (by omega) (by omega) (Nat.le_refl _) hop, ?_, ?_⟩
      · rw [hop.ent_eq (Nat.le_refl _) (by omega), if_neg (by omega)]
        exact hrr
      · intro i hi1 hi2
        by_cases hi : i = r2
        · subst hi
          rw [hop.row r (Nat.le_refl _) (by omega), hrr, mul_one]
          exact add_neg_cancel _
        · rw [hop.ent_eq (Nat.le_refl _) (by omega), if_neg (fun hc => hi hc.1)]
          exact hbelow i hi1 (by omega))
    (s := N) ⟨hN, hone, fun i h1 h2 => absurd h1 (by omega)⟩
  refine ⟨hF.equiv, ⟨?_, ?_⟩, hF.reduced, hF.rest⟩
  · intro i hi
    by_cases hir : i = r
    · rw [hir]
      exact hrr
    · exact hF.stair.diag i (by omega)
  · intro i j hi hj hji
    by_cases hjr : j = r
    · rw [hjr]
      exact hbelow i (by omega) hi
    · exact hF.stair.below i j hi (by omega) hji

/-- The forward phase ends unit upper triangular, or at a column without a pivot. -/
theorem forward_spec {Mr Mc : Nat} {M : Arr UInt16} (hred : Reduced P M (Mc * Mr))
    (hle : Mr ≤ Mc) (hp : P.p ≤ 2 ^ 16) :
    ((forward P Mr Mc M).2 = false ∧ ForwardInv P Mr Mc Mr M (forward P Mr Mc M).1) ∨
      ((forward P Mr Mc M).2 = true ∧ ∃ r, r < Mr ∧
        ForwardInv P Mr Mc r M (forward P Mr Mc M).1 ∧
        ∀ i, r ≤ i → i < Mr → ent P Mc (forward P Mr Mc M).1 i r = 0) := by
  have key : ∀ n r M', r + n = Mr → ForwardInv P Mr Mc r M M' →
      let s := forBreakLoop (fun r (s : Arr UInt16 × Bool) =>
        (forwardStep P Mr Mc r s.1, (forwardStep P Mr Mc r s.1).2)) r n (M', false)
      (s.2 = false ∧ ForwardInv P Mr Mc Mr M s.1) ∨
        (s.2 = true ∧ ∃ r, r < Mr ∧ ForwardInv P Mr Mc r M s.1 ∧
          ∀ i, r ≤ i → i < Mr → ent P Mc s.1 i r = 0) := by
    intro n
    induction n with
    | zero =>
        intro r M' hr hF
        obtain rfl : r = Mr := by omega
        exact Or.inl ⟨rfl, hF⟩
    | succ n ih =>
        intro r M' hr hF
        rw [forBreakLoop]
        rcases forwardStep_spec hF hle (by omega) hp with ⟨hflag, hF'⟩ | ⟨hflag, hF', hcol⟩
        · simp only [hflag]
          rw [show forwardStep P Mr Mc r M' = ((forwardStep P Mr Mc r M').1, false) by
            rw [← hflag]]
          exact ih (r + 1) _ (by omega) hF'
        · simp only [hflag]
          exact Or.inr ⟨trivial, r, by omega, hF', hcol⟩
  exact key Mr 0 M (by omega) (ForwardInv.of_reduced hred)

/-- The back substitution with the columns from `r` on done. -/
structure BackInv (P : Params) [Fact P.p.Prime] (Mr Mc r : Nat) (M₀ M : Arr UInt16) : Prop where
  equiv : RowEquiv Mr Mc (ent P Mc M₀) (ent P Mc M)
  backed : Backed Mr r (ent P Mc M)
  reduced : Reduced P M (Mc * Mr)
  rest : ∀ idx, Mc * Mr ≤ idx → M.get idx = M₀.get idx

/-- Clearing entry `(r2, r)` above the pivot `(r, r)`. -/
theorem backStep_spec {Mr Mc r r2 : Nat} {M₀ M : Arr UInt16} (h : BackInv P Mr Mc (r + 1) M₀ M)
    (hle : Mr ≤ Mc) (hr : r < Mr) (hr2 : r2 < r) (hp : P.p ≤ 2 ^ 16) :
    BackInv P Mr Mc (r + 1) M₀ (backStep P Mr Mc r r2 M) ∧
      ∀ i, i < Mr → ent P Mc (backStep P Mr Mc r r2 M) i r
        = if i = r2 then 0 else ent P Mc M i r := by
  have hone := h.backed.diag r hr
  have hop1 := subRow_spec r2 r (r + 1) (pmodMatEntry M Mc r2 r) (r := r) (M := M)
      (by omega : r + 1 ≤ Mc) (by omega) hp
    fun c _ hc => h.reduced.entry (by omega) (by omega)
  have hred1 := hop1.reduced_all h.reduced
  unfold backStep
  simp only
  generalize hN : subRow P Mc r r2 r (r + 1) (pmodMatEntry M Mc r2 r) M = N at hop1 hred1
  have hop2 := subRow_spec r2 Mr Mc (pmodMatEntry M Mc r2 r) (r := r) (M := N) (Nat.le_refl Mc)
      (by omega) hp
    fun c _ hc => hred1.entry (by omega) hc
  -- the source row is a unit vector in the first `Mr` columns
  have hrow : ∀ j, j < Mr → j ≠ r → ent P Mc M r j = 0 := by
    intro j hj hjr
    rcases Nat.lt_or_gt_of_ne hjr with hlt | hgt
    · exact h.backed.below r j hr hj hlt
    · exact h.backed.above r j (by omega) hj (by omega)
  have hent : ∀ i j, i < Mr → j < Mc →
      ent P Mc (subRow P Mc r r2 Mr Mc (pmodMatEntry M Mc r2 r) N) i j
        = if i = r2 then ent P Mc M i j + -(pmodMatEntry M Mc r2 r : ZMod P.p) * ent P Mc M r j
          else ent P Mc M i j := by
    intro i j hi hj
    rw [hop2.ent_eq (Nat.le_refl _) hj]
    by_cases hi2 : i = r2
    · subst hi2
      rw [if_pos rfl]
      by_cases hjM : Mr ≤ j
      · rw [if_pos ⟨rfl, hjM, hj⟩, hop1.ent_eq (by omega) hj, if_neg (by omega),
          hop1.ent_eq (by omega) hj, if_neg (by omega)]
      · rw [if_neg (by omega), hop1.ent_eq (by omega) hj]
        by_cases hjr : j = r
        · rw [if_pos ⟨rfl, by omega, by omega⟩]
        · rw [if_neg (by omega), hrow j (by omega) hjr, mul_zero, add_zero]
    · rw [if_neg (fun hc => hi2 hc.1), if_neg hi2, hop1.ent_eq (by omega) hj,
        if_neg (fun hc => hi2 hc.1)]
  have hcol : ∀ i j, i < Mr → j < Mr → (j = r → i ≠ r2) →
      ent P Mc (subRow P Mc r r2 Mr Mc (pmodMatEntry M Mc r2 r) N) i j = ent P Mc M i j := by
    intro i j hi hj hne
    rw [hent i j hi (by omega)]
    by_cases hi2 : i = r2
    · rw [if_pos hi2, hrow j hj fun hc => hne hc hi2, mul_zero, add_zero]
    · rw [if_neg hi2]
  refine ⟨⟨h.equiv.trans (RowEquiv.addRow _ (by omega) hr (by omega) hent), ⟨⟨?_, ?_⟩, ?_⟩,
    hop2.reduced_all hred1, fun idx hidx => ?_⟩, ?_⟩
  · intro i hi
    rw [hcol i i hi hi (by omega)]
    exact h.backed.diag i hi
  · intro i j hi hj hji
    rw [hcol i j hi hj (by omega)]
    exact h.backed.below i j hi hj hji
  · intro i j hj1 hj2 hij
    rw [hcol i j (by omega) hj2 (by omega)]
    exact h.backed.above i j hj1 hj2 hij
  · rw [hop2.rest_of_ge (Nat.le_refl _) (by omega) hidx, hop1.rest_of_ge (by omega) (by omega) hidx]
    exact h.rest idx hidx
  · intro i hi
    rw [hent i r hi (by omega)]
    by_cases hi2 : i = r2
    · rw [if_pos hi2, if_pos hi2, hone, mul_one, hi2]
      exact add_neg_cancel _
    · rw [if_neg hi2, if_neg hi2]

/-- What `pmod_mat_syst_ct` does to an `Mr × Mc` matrix of reduced entries. -/
structure SystSpec (P : Params) [Fact P.p.Prime] (Mr Mc : Nat) (M M' : Arr UInt16) : Prop where
  block_eq : block Mr Mc (ent P Mc M')
    = (block Mr Mr (ent P Mc M))⁻¹ * block Mr Mc (ent P Mc M)
  identity : ∀ i j, i < Mr → j < Mr → ent P Mc M' i j = if i = j then 1 else 0
  reduced : Reduced P M' (Mc * Mr)
  rest : ∀ idx, Mc * Mr ≤ idx → M'.get idx = M.get idx

/-- `pmod_mat_syst_ct` succeeds exactly on an invertible leading block. -/
theorem pmodMatSystCt_spec (Mr Mc : Nat) {M : Arr UInt16} (hred : Reduced P M (Mc * Mr))
    (hle : Mr ≤ Mc) (hp : P.p ≤ 2 ^ 16) :
    (IsUnit (block Mr Mr (ent P Mc M)).det ∧ (pmodMatSystCt P M Mr Mc).1 = 0 ∧
        SystSpec P Mr Mc M (pmodMatSystCt P M Mr Mc).2) ∨
      ((block Mr Mr (ent P Mc M)).det = 0 ∧ (pmodMatSystCt P M Mr Mc).1 = -1) := by
  rcases forward_spec hred hle hp with ⟨hflag, hF⟩ | ⟨hflag, r, hr, hF, hcol⟩
  · refine Or.inl ?_
    unfold pmodMatSystCt
    obtain ⟨N, hN⟩ : ∃ N, forward P Mr Mc M = (N, false) :=
      ⟨(forward P Mr Mc M).1, by rw [← hflag]⟩
    rw [hN] at hF ⊢
    simp only [Bool.false_eq_true, if_false]
    -- the back substitution, column by column from the right
    have hback : BackInv P Mr Mc 0 M
        (forDown 0 Mr (fun r M => forUp 0 r (fun r2 M => backStep P Mr Mc r r2 M) M) N) := by
      refine forDown_invariant (fun r M' => BackInv P Mr Mc r M M') (Nat.zero_le _) ?_
        ⟨hF.equiv, hF.stair.backed, hF.reduced, hF.rest⟩
      intro r M' _ hr hB
      obtain ⟨hB', hclear⟩ := forUp_invariant
        (f := fun r2 M => backStep P Mr Mc r r2 M)
        (fun r2 M' => BackInv P Mr Mc (r + 1) M M' ∧ ∀ i, i < r2 → ent P Mc M' i r = 0)
        (Nat.zero_le r) (by
          rintro r2 M' _ hr2 ⟨hB, hclear⟩
          obtain ⟨hB', hcol⟩ := backStep_spec hB hle hr hr2 hp
          refine ⟨hB', fun i hi => ?_⟩
          rw [hcol i (by omega)]
          by_cases hi2 : i = r2
          · rw [if_pos hi2]
          · rw [if_neg hi2]
            exact hclear i (by omega)) ⟨hB, fun i hi => absurd hi (Nat.not_lt_zero _)⟩
      refine ⟨hB'.equiv, ⟨hB'.backed.toStaircase, fun i j hj1 hj2 hij => ?_⟩, hB'.reduced, hB'.rest⟩
      by_cases hjr : j = r
      · subst hjr
        exact hclear i hij
      · exact hB'.backed.above i j (by omega) hj2 hij
    obtain ⟨hunit, hmul⟩ := hback.equiv.systematic hle hback.backed.identity
    exact ⟨hunit, trivial, hmul, hback.backed.identity, hback.reduced, hback.rest⟩
  · -- the column without a pivot makes the leading block singular
    refine Or.inr ⟨hF.equiv.singular hle hr fun i j hri hi hjr => ?_, ?_⟩
    · by_cases hj : j = r
      · subst hj
        exact hcol i hri hi
      · exact hF.stair.below i j hi (by omega) (by omega)
    · unfold pmodMatSystCt
      obtain ⟨N, hN⟩ : ∃ N, forward P Mr Mc M = (N, true) :=
        ⟨(forward P Mr Mc M).1, by rw [← hflag]⟩
      rw [hN]
      rfl

/-! ## The inverse -/

/-- The matrix `(A | I)` that `pmod_mat_inv` reduces. -/
theorem augment_spec {n : Nat} {A : Arr UInt16} :
    ∀ r c, r < n → c < 2 * n → pmodMatEntry (augment A n n) (n * 2) r c
        = if c < n then pmodMatEntry A n r c else if r = c - n then 1 else 0 := by
  have hinv := forUp_invariant
    (f := fun r M =>
      let M := M.blit (r * n * 2) (A.slice (r * n) n)
      forUp 0 n (fun c M => pmodMatSetEntry M (n * 2) r (n + c) (if r = c then 1 else 0)) M)
    (fun i M => ∀ r c, r < i → c < 2 * n → pmodMatEntry M (n * 2) r c
      = if c < n then pmodMatEntry A n r c else if r = c - n then 1 else 0) (Nat.zero_le n) (by
      intro i M _ hi hM r c hr hc
      obtain ⟨hin, hout⟩ := fill_spec 0 n (ι := fun c => n * 2 * i + (n + c))
        (g := fun (_ : Arr UInt16) c => UInt16.ofNat (if i = c then 1 else 0))
        (M := M.blit (i * n * 2) (A.slice (i * n) n)) (fun a b _ _ _ _ h => by omega)
        (fun _ _ _ _ _ => rfl)
      have hbase : i * n * 2 = n * 2 * i := by ring
      simp only [pmodMatEntry, pmodMatSetEntry] at hM ⊢
      -- row i was just written: A on the left, the identity on the right
      by_cases hri : r = i
      · subst hri
        by_cases hcn : c < n
        · rw [if_pos hcn, hout _ fun x _ _ heq => by omega, hbase, Arr.get_blit, Arr.length_slice,
            if_pos (by omega), Nat.add_sub_cancel_left, Arr.getD_slice _ _ _ _ hcn, Nat.mul_comm r n]
        · obtain ⟨d, rfl⟩ : ∃ d, c = n + d := ⟨c - n, by omega⟩
          rw [if_neg hcn, hin d (Nat.zero_le _) (by omega), Nat.add_sub_cancel_left]
          split <;> rfl
      · have hsep : n * 2 * r + c < n * 2 * i := by
          have := flat_lt (C := n * 2) (show r < i by omega) (show c < n * 2 by omega)
          exact this
        rw [hout _ fun x _ _ heq => by omega, hbase, Arr.get_blit_of_lt _ _ hsep]
        exact hM r c (by omega) hc) (s := Arr.empty)
    (fun r c hr => absurd hr (Nat.not_lt_zero _))
  exact hinv

/-- The copy of the right half of the reduced matrix, over whatever `B` held. -/
theorem rightHalf_spec {n : Nat} (N B : Arr UInt16) :
    ∀ r c, r < n → c < n → (forUp 0 n (fun r B => B.blit (r * n) (N.slice (r * n * 2 + n) n))
      B).get (n * r + c) = N.get (n * 2 * r + (n + c)) := by
  refine forUp_invariant (fun i (B : Arr UInt16) => ∀ r c, r < i → c < n →
    B.get (n * r + c) = N.get (n * 2 * r + (n + c))) (Nat.zero_le n) ?_
    (fun r c hr => absurd hr (Nat.not_lt_zero _))
  intro i B _ hi hB r c hr hc
  by_cases hri : r = i
  · subst hri
    rw [Arr.get_blit, Arr.length_slice, Nat.mul_comm r n, if_pos (by omega),
      Nat.add_sub_cancel_left, Arr.getD_slice _ _ _ _ hc]
    congr 1
    ring
  · rw [Arr.get_blit_of_lt _ _ (by
      rw [Nat.mul_comm i n]
      exact flat_lt (show r < i by omega) hc)]
    exact hB r c (by omega) hc

/-- `pmod_mat_inv` inverts exactly the invertible matrices. -/
theorem pmodMatInv_spec {n : Nat} {A : Arr UInt16} (hred : Reduced P A (n * n))
    (hp : P.p ≤ 2 ^ 16) :
    (IsUnit (block n n (ent P n A)).det ∧ ∃ B, pmodMatInv P A n n = some B ∧
        block n n (ent P n B) = (block n n (ent P n A))⁻¹ ∧ Reduced P B (n * n)) ∨
      ((block n n (ent P n A)).det = 0 ∧ pmodMatInv P A n n = none) := by
  have haug := augment_spec (n := n) (A := A)
  unfold pmodMatInv
  generalize augment A n n = M at haug ⊢
  have hredM : Reduced P M (n * 2 * n) := by
    intro idx hidx
    have hn : 0 < n * 2 := by
      rcases Nat.eq_zero_or_pos n with rfl | h
      · simp at hidx
      · omega
    have hr : idx / (n * 2) < n := (Nat.div_lt_iff_lt_mul hn).mpr (by rwa [Nat.mul_comm])
    have hc : idx % (n * 2) < 2 * n := by
      have := Nat.mod_lt idx hn
      omega
    have := haug _ _ hr hc
    rw [pmodMatEntry, Nat.div_add_mod] at this
    rw [this]
    have h2 := hprime.out.two_le
    split
    · rename_i h
      exact hred.entry hr h
    · split <;> omega
  have hlead : block n n (ent P (n * 2) M) = block n n (ent P n A) := by
    refine block_congr fun i j hi hj => ?_
    rw [ent, ent, haug i j hi (by omega), if_pos hj]
  rcases pmodMatSystCt_spec _ _ hredM (by omega) hp with ⟨hunit, hret, hS⟩ | ⟨hdet, hret⟩
  · refine Or.inl ?_
    rw [hlead] at hunit
    refine ⟨hunit, ?_⟩
    obtain ⟨N, hN⟩ : ∃ N, pmodMatSystCt P M n (n * 2) = (0, N) :=
      ⟨(pmodMatSystCt P M n (n * 2)).2, by rw [← hret]⟩
    rw [hN] at hS ⊢
    refine ⟨_, rfl, ?_, ?_⟩
    · -- the right half of `A⁻¹ (A | I)`
      ext i j
      have hij := congrFun (congrFun hS.block_eq i) ⟨n + j, by omega⟩
      rw [block_apply, hlead, Matrix.mul_apply] at hij
      rw [block_apply, ent, pmodMatEntry, rightHalf_spec N Arr.empty i j i.isLt j.isLt]
      refine Eq.trans hij ?_
      rw [Finset.sum_eq_single j]
      · rw [block_apply, ent, haug j (n + j) j.isLt (by omega), if_neg (by omega),
          if_pos (by omega), Nat.cast_one, mul_one]
      · intro x _ hx
        rw [block_apply, ent, haug x (n + j) x.isLt (by omega), if_neg (by omega),
          if_neg (by rw [Nat.add_sub_cancel_left]; exact fun h => hx (Fin.ext h)), Nat.cast_zero,
          mul_zero]
      · exact fun h => absurd (Finset.mem_univ _) h
    · intro idx hidx
      have hn : 0 < n := Nat.pos_of_ne_zero (by rintro rfl; simp at hidx)
      have hr : idx / n < n := (Nat.div_lt_iff_lt_mul hn).mpr hidx
      have hc := Nat.mod_lt idx hn
      have := rightHalf_spec N Arr.empty (idx / n) (idx % n) hr hc
      rw [Nat.div_add_mod] at this
      rw [this]
      exact hS.reduced.entry hr (by omega)
  · refine Or.inr ⟨hlead ▸ hdet, ?_⟩
    obtain ⟨N, hN⟩ : ∃ N, pmodMatSystCt P M n (n * 2) = (-1, N) :=
      ⟨(pmodMatSystCt P M n (n * 2)).2, by rw [← hret]⟩
    rw [hN]
    rfl

end

end Meds.Ref
