/-
  Meds.Ref.GfInverse

  `GF_inv` with the widths of its variables.  Products are taken in
  `uint64_t`, while `val` and the result are `GFq_t`; a value that does not
  fit is a fault here.  No run faults, both branches give `val ^ (p - 2)`,
  and so does the version without the checks that the eliminations use.
-/

import Meds.Ref.MatrixModSpec
import Mathlib.Tactic.NormNum.Prime

namespace Meds.Ref

open Meds.Core

/-- A value that its C type cannot hold. -/
inductive Overflow where
  | wraps
deriving DecidableEq, Repr

/-- Store `v` in an unsigned type of `w` bits. -/
def fits (w v : Nat) : Run Overflow Nat := if v < 2 ^ w then pure v else Run.fail .wraps

theorem fits_of_lt {w v : Nat} (h : v < 2 ^ w) : fits w v = pure v := if_pos h

section

variable (P : Params)

/-- `((uint64_t)a * (uint64_t)b) % MEDS_p`. -/
def mulMod64 (a b : Nat) : Run Overflow Nat := do
  let prod ← fits 64 (a * b)
  pure (prod % P.p)

/-- The branch of `GF_inv` for p = 8191. -/
def gfInvAdditionChain (val : Nat) : Run Overflow Nat := do
  let tmp0 := val
  let tmp1 ← mulMod64 P tmp0 tmp0
  let tmp2 ← mulMod64 P tmp1 tmp0
  let tmp3 ← mulMod64 P tmp2 tmp1
  let tmp4 ← mulMod64 P tmp3 tmp3
  let tmp5 ← mulMod64 P tmp4 tmp3
  let tmp6 ← mulMod64 P tmp5 tmp5
  let tmp7 ← mulMod64 P tmp6 tmp6
  let tmp8 ← mulMod64 P tmp7 tmp7
  let tmp9 ← mulMod64 P tmp8 tmp8
  let tmp10 ← mulMod64 P tmp9 tmp5
  let tmp11 ← mulMod64 P tmp10 tmp10
  let tmp12 ← mulMod64 P tmp11 tmp11
  let tmp13 ← mulMod64 P tmp12 tmp2
  let tmp14 ← mulMod64 P tmp13 tmp13
  let tmp15 ← mulMod64 P tmp14 tmp14
  let tmp16 ← mulMod64 P tmp15 tmp15
  let tmp17 ← mulMod64 P tmp16 tmp3
  fits 16 tmp17

/-- One test and round of the `while` loop of `GF_inv`, on (exponent, t, val). -/
def squareMultiplyRound (s : Nat × Nat × Nat) : Run Overflow (Nat × Nat × Nat ⊕ Nat) :=
  if s.1 > 0 then do
    let t ← (if s.1 &&& 1 ≠ 0 then mulMod64 P s.2.1 s.2.2 else pure s.2.1)
    -- `val` is a `GFq_t`, so the reduced square is cut to 16 bits
    let square ← mulMod64 P s.2.2 s.2.2
    let val ← fits 16 square
    pure (.inl (s.1 >>> 1, t, val))
  else pure (.inr s.2.1)

/-- The branch of `GF_inv` for every other p. -/
def gfInvSquareMultiply (val : Nat) : Run Overflow Nat := do
  let t ← Run.loop (squareMultiplyRound P) (P.p - 2, 1, val)
  fits 16 t

/-- `GF_inv` with its checks. -/
def gfInvChecked (val : UInt16) : Run Overflow UInt16 := do
  let r ← (if P.p = 8191 then gfInvAdditionChain P val.toNat
    else gfInvSquareMultiply P val.toNat)
  pure (UInt16.ofNat r)

/-! ## One product -/

variable {P}

/-- A product of two 16-bit values fits, and its reduction is a 16-bit value again. -/
theorem mulMod64_eq {a b : Nat} (ha : a < 2 ^ 16) (hb : b < 2 ^ 16) :
    mulMod64 P a b = pure (a * b % P.p) := by
  have hprod : a * b < 2 ^ 64 := by
    have := Nat.mul_lt_mul'' ha hb
    omega
  rw [mulMod64, fits_of_lt hprod, pure_bind]

/-- A product of two powers of `x` is a power of `x`, and fits. -/
theorem mulMod64_pow (h1 : 0 < P.p) (hp : P.p < 2 ^ 16) {x a b m n : Nat} (ha : a < 2 ^ 16)
    (hb : b < 2 ^ 16) (hm : a ≡ x ^ m [MOD P.p]) (hn : b ≡ x ^ n [MOD P.p]) :
    ∃ c, mulMod64 P a b = pure c ∧ c < 2 ^ 16 ∧ c ≡ x ^ (m + n) [MOD P.p] := by
  refine ⟨a * b % P.p, mulMod64_eq ha hb, (Nat.mod_lt _ h1).trans hp, ?_⟩
  rw [pow_add]
  exact (Nat.mod_modEq _ _).trans (hm.mul hn)

/-! ## The two branches -/

/-- The loop keeps `t * val ^ exponent` modulo p. -/
theorem squareMultiply_returns (hp : P.p < 2 ^ 16) (e : Nat) {t val : Nat} (ht : t < P.p)
    (hval : val < 2 ^ 16) :
    (Run.loop (squareMultiplyRound P) (e, t, val)).Returns (t * val ^ e % P.p) := by
  induction e using Nat.strong_induction_on generalizing t val with
  | _ e ih =>
      have hpos : 0 < P.p := Nat.zero_lt_of_lt ht
      rcases Nat.eq_zero_or_pos e with rfl | he
      · rw [pow_zero, mul_one, Nat.mod_eq_of_lt ht]
        exact Run.returns_loop_break (by simp [squareMultiplyRound])
      · have hsquare : val * val % P.p < P.p := Nat.mod_lt _ hpos
        -- the accumulator after this round
        obtain ⟨t', ht', hlt', hmod⟩ : ∃ t',
            (if e &&& 1 ≠ 0 then mulMod64 P t val else pure t) = pure t' ∧ t' < P.p ∧
              t' * (val * val % P.p) ^ (e / 2) ≡ t * val ^ e [MOD P.p] := by
          have hpow : (val * val % P.p) ^ (e / 2) ≡ val ^ (2 * (e / 2)) [MOD P.p] := by
            rw [pow_mul, pow_two]
            exact (Nat.mod_modEq _ _).pow _
          rw [Nat.and_one_is_mod]
          rcases Nat.mod_two_eq_zero_or_one e with h0 | h1
          · refine ⟨t, by rw [h0]; rfl, ht, ?_⟩
            have hexp : 2 * (e / 2) = e := by omega
            exact (hexp ▸ hpow).mul_left t
          · refine ⟨t * val % P.p, ?_, Nat.mod_lt _ hpos, ?_⟩
            · rw [h1, if_pos (by decide), mulMod64_eq (ht.trans hp) hval]
            · have hexp : val ^ e = val * val ^ (2 * (e / 2)) := by
                rw [← pow_succ']
                congr 1
                omega
              rw [hexp, ← mul_assoc]
              exact (Nat.mod_modEq _ _).mul hpow
        have hround : (squareMultiplyRound P (e, t, val)).Returns
            (.inl (e >>> 1, t', val * val % P.p)) := by
          simp only [squareMultiplyRound, gt_iff_lt, he, if_true, ht', pure_bind,
            mulMod64_eq hval hval, fits_of_lt (hsquare.trans hp)]
          exact Run.returns_pure.mpr rfl
        refine Run.returns_loop_continue hround ?_
        rw [Nat.shiftRight_eq_div_pow, pow_one, ← show _ = _ from hmod]
        exact ih (e / 2) (by omega) hlt' (hsquare.trans hp)

theorem gfInvSquareMultiply_returns (h2 : 2 ≤ P.p) (hp : P.p < 2 ^ 16) {val : Nat}
    (hval : val < 2 ^ 16) :
    (gfInvSquareMultiply P val).Returns (val ^ (P.p - 2) % P.p) := by
  have hloop := squareMultiply_returns hp (P.p - 2) (t := 1) (by omega) hval
  rw [one_mul] at hloop
  have hlt : val ^ (P.p - 2) % P.p < 2 ^ 16 := (Nat.mod_lt _ (by omega)).trans hp
  exact Run.returns_bind.mpr ⟨_, hloop, by rw [fits_of_lt hlt, Run.returns_pure]⟩

/-- The addition chain reaches the exponent 8189. -/
theorem gfInvAdditionChain_returns (hpos : 0 < P.p) (hp : P.p < 2 ^ 16) {val : Nat}
    (hval : val < 2 ^ 16) : (gfInvAdditionChain P val).Returns (val ^ 8189 % P.p) := by
  have h0 : val ≡ val ^ 1 [MOD P.p] := by rw [pow_one]
  obtain ⟨tmp1, e1, l1, h1⟩ := mulMod64_pow hpos hp hval hval h0 h0
  obtain ⟨tmp2, e2, l2, h2⟩ := mulMod64_pow hpos hp l1 hval h1 h0
  obtain ⟨tmp3, e3, l3, h3⟩ := mulMod64_pow hpos hp l2 l1 h2 h1
  obtain ⟨tmp4, e4, l4, h4⟩ := mulMod64_pow hpos hp l3 l3 h3 h3
  obtain ⟨tmp5, e5, l5, h5⟩ := mulMod64_pow hpos hp l4 l3 h4 h3
  obtain ⟨tmp6, e6, l6, h6⟩ := mulMod64_pow hpos hp l5 l5 h5 h5
  obtain ⟨tmp7, e7, l7, h7⟩ := mulMod64_pow hpos hp l6 l6 h6 h6
  obtain ⟨tmp8, e8, l8, h8⟩ := mulMod64_pow hpos hp l7 l7 h7 h7
  obtain ⟨tmp9, e9, l9, h9⟩ := mulMod64_pow hpos hp l8 l8 h8 h8
  obtain ⟨tmp10, e10, l10, h10⟩ := mulMod64_pow hpos hp l9 l5 h9 h5
  obtain ⟨tmp11, e11, l11, h11⟩ := mulMod64_pow hpos hp l10 l10 h10 h10
  obtain ⟨tmp12, e12, l12, h12⟩ := mulMod64_pow hpos hp l11 l11 h11 h11
  obtain ⟨tmp13, e13, l13, h13⟩ := mulMod64_pow hpos hp l12 l2 h12 h2
  obtain ⟨tmp14, e14, l14, h14⟩ := mulMod64_pow hpos hp l13 l13 h13 h13
  obtain ⟨tmp15, e15, l15, h15⟩ := mulMod64_pow hpos hp l14 l14 h14 h14
  obtain ⟨tmp16, e16, l16, h16⟩ := mulMod64_pow hpos hp l15 l15 h15 h15
  have hlast : mulMod64 P tmp16 tmp3 = pure (val ^ 8189 % P.p) := by
    rw [mulMod64_eq l16 l3, show tmp16 * tmp3 % P.p = _ from h16.mul h3, ← pow_add]
  have hlt : val ^ 8189 % P.p < 2 ^ 16 := (Nat.mod_lt _ hpos).trans hp
  simp only [gfInvAdditionChain, e1, e2, e3, e4, e5, e6, e7, e8, e9, e10, e11, e12, e13, e14, e15,
    e16, hlast, pure_bind, fits_of_lt hlt, Run.returns_pure]

/-! ## The inverse -/

/-- `GF_inv` inverts modulo every prime below `2 ^ 16`: no intermediate value
    leaves its type, the loop gives `val ^ (p - 2) % p`, which is the inverse
    of `val` unless p divides it, and for p = 8191 the chain gives the same. -/
theorem gfInv_inverts (hprime : P.p.Prime) (hp : P.p < 2 ^ 16) (val : UInt16) :
    ∃ r, (gfInvSquareMultiply P val.toNat).Returns r ∧ r = val.toNat ^ (P.p - 2) % P.p ∧
      (¬ P.p ∣ val.toNat → r * val.toNat % P.p = 1 ∧ 0 < r ∧ r < P.p) ∧
      (P.p = 8191 → (gfInvAdditionChain P val.toNat).Returns r) ∧
      (gfInvChecked P val).Returns (UInt16.ofNat r) ∧ gfInv P val.toNat = r := by
  have := Fact.mk hprime
  have hval : val.toNat < 2 ^ 16 := val.toNat_lt
  have hloop := gfInvSquareMultiply_returns hprime.two_le hp hval
  have hchain : P.p = 8191 →
      (gfInvAdditionChain P val.toNat).Returns (val.toNat ^ (P.p - 2) % P.p) := by
    intro h
    have := gfInvAdditionChain_returns hprime.pos hp hval
    rwa [show P.p - 2 = 8189 by omega]
  refine ⟨_, hloop, rfl, fun hndvd => ?_, hchain, ?_, ?_⟩
  · -- Fermat
    have hfermat : val.toNat ^ (P.p - 2) % P.p * val.toNat % P.p = 1 := by
      have hcop : val.toNat.Coprime P.p := (hprime.coprime_iff_not_dvd.mpr hndvd).symm
      have hone := Nat.ModEq.pow_totient hcop
      rw [Nat.totient_prime hprime] at hone
      rw [Nat.mod_mul_mod, ← pow_succ, show P.p - 2 + 1 = P.p - 1 by have := hprime.two_le; omega,
        show _ % P.p = 1 % P.p from hone, Nat.mod_eq_of_lt hprime.one_lt]
    refine ⟨hfermat, Nat.pos_of_ne_zero fun h0 => ?_, Nat.mod_lt _ hprime.pos⟩
    rw [h0, Nat.zero_mul, Nat.zero_mod] at hfermat
    cases hfermat
  · refine Run.returns_bind.mpr ⟨_, ?_, Run.returns_pure.mpr rfl⟩
    -- the addition chain is compiled in for this prime only
    by_cases h : P.p = 8191
    · rw [if_pos h]
      exact hchain h
    · rw [if_neg h]
      exact hloop
  · have hcast : (gfInv P val.toNat : ZMod P.p) = ((val.toNat ^ (P.p - 2) : Nat) : ZMod P.p) := by
      rw [gfInv_cast_pow, Nat.cast_pow]
    rw [← (ZMod.natCast_eq_natCast_iff' _ _ _).mp hcast, Nat.mod_eq_of_lt (gfInv_lt _)]

theorem gfInv_inverts_seven :
    ∃ r, (gfInvSquareMultiply { tiny with p := 8191 } 7).Returns r ∧
      r * 7 % 8191 = 1 ∧ (gfInvAdditionChain { tiny with p := 8191 } 7).Returns r := by
  have hprime : Nat.Prime 8191 := by norm_num
  obtain ⟨r, hloop, -, hinv, hchain, -⟩ :=
    gfInv_inverts (P := { tiny with p := 8191 }) hprime (by decide) 7
  exact ⟨r, hloop, (hinv (by decide)).1, hchain rfl⟩

end

end Meds.Ref
