/-
  Meds.Ref.MatrixMod

  ref/matrixmod.c: matrices over GF(p) as row-major arrays of `GFq_t`.

  Sums and products are taken in `Nat`: the operands are 16-bit values, so
  the 64-bit accumulators of the source do not wrap.  A row update with a
  subtraction goes through a signed value that is corrected by one addition
  of p (`subMod`).  Sizes and indices are natural numbers, for matrices whose
  indices fit an `int`.
-/

import Meds.Params
import Meds.Core.Arr
import Meds.Core.Loop

namespace Meds.Ref

open Meds.Core

/-- `pmod_mat_entry`. -/
def pmodMatEntry (M : Arr UInt16) (Mc r c : Nat) : Nat := (M.get (Mc * r + c)).toNat

/-- `pmod_mat_set_entry`. -/
def pmodMatSetEntry (M : Arr UInt16) (Mc r c v : Nat) : Arr UInt16 :=
  M.set (Mc * r + c) (UInt16.ofNat v)

/-- `val = a - b; val += MEDS_p * (val < 0);` on a signed `val`. -/
def subMod (p a b : Nat) : Nat :=
  let val : Int := a - b
  (val + p * (if val < 0 then 1 else 0)).toNat

section

variable (P : Params)

/-! ## Products -/

/-- The loops of `pmod_mat_mul` that fill `tmp`, also `pmod_mat_mul_revise`. -/
def pmodMatMulRevise (tmp : Arr UInt16) (Cr Cc : Nat) (A : Arr UInt16) (Ar Ac : Nat)
    (B : Arr UInt16) (Bc : Nat) : Arr UInt16 :=
  forUp 0 Cc
    (fun c tmp =>
      forUp 0 Cr
        (fun r tmp =>
          let val :=
            forUp 0 Ar (fun i val => val + pmodMatEntry A Ac r i * pmodMatEntry B Bc i c) 0
          pmodMatSetEntry tmp Cc r c (val % P.p))
        tmp)
    tmp

/-- `pmod_mat_mul`: `A` and `B` may alias `C`, which is written last. -/
def pmodMatMul (C : Arr UInt16) (Cr Cc : Nat) (A : Arr UInt16) (Ar Ac : Nat)
    (B : Arr UInt16) (Bc : Nat) : Arr UInt16 :=
  let tmp := pmodMatMulRevise P Arr.empty Cr Cc A Ar Ac B Bc
  forUp 0 Cc
    (fun c C => forUp 0 Cr (fun r C => pmodMatSetEntry C Cc r c (pmodMatEntry tmp Cc r c)) C) C

/-! ## Inversion in GF(p) -/

/-- The addition chain for p = 8191. -/
def gfInvChain (val : Nat) : Nat :=
  let t0 := val
  let t1 := t0 * t0 % P.p
  let t2 := t1 * t0 % P.p
  let t3 := t2 * t1 % P.p
  let t4 := t3 * t3 % P.p
  let t5 := t4 * t3 % P.p
  let t6 := t5 * t5 % P.p
  let t7 := t6 * t6 % P.p
  let t8 := t7 * t7 % P.p
  let t9 := t8 * t8 % P.p
  let t10 := t9 * t5 % P.p
  let t11 := t10 * t10 % P.p
  let t12 := t11 * t11 % P.p
  let t13 := t12 * t2 % P.p
  let t14 := t13 * t13 % P.p
  let t15 := t14 * t14 % P.p
  let t16 := t15 * t15 % P.p
  t16 * t3 % P.p

/-- The square-and-multiply loop, on (exponent, t, val). -/
def gfInvLoop (s : Nat × Nat × Nat) : Nat × Nat × Nat :=
  iterWhile (fun (exponent, _, _) => exponent > 0)
    (fun (exponent, t, val) =>
      (exponent >>> 1, if exponent &&& 1 ≠ 0 then t * val % P.p else t, val * val % P.p))
    s.1 s

/-- `GF_inv`. -/
def gfInv (val : Nat) : Nat :=
  if P.p = 8191 then gfInvChain P val else (gfInvLoop P (P.p - 2, 1, val)).2.1

/-! ## Elimination -/

/-- Make the pivot `(r, r)` nonzero by adding later rows. -/
def swapStep (Mr Mc r : Nat) (M : Arr UInt16) : Arr UInt16 :=
  forUp (r + 1) Mr
    (fun r2 M =>
      let Mrr := pmodMatEntry M Mc r r
      forUp r Mc
        (fun c M =>
          let val := pmodMatEntry M Mc r2 c
          let Mrc := pmodMatEntry M Mc r c
          pmodMatSetEntry M Mc r c ((Mrc + val * (if Mrr = 0 then 1 else 0)) % P.p))
        M)
    M

/-- Scale row `r` from column `lo` on. -/
def scaleRow (Mc r lo hi val : Nat) (M : Arr UInt16) : Arr UInt16 :=
  forUp lo hi (fun c M => pmodMatSetEntry M Mc r c (pmodMatEntry M Mc r c * val % P.p)) M

/-- Subtract `factor` times row `r` from row `r2` in columns `lo, …, hi - 1`. -/
def subRow (Mc r r2 lo hi factor : Nat) (M : Arr UInt16) : Arr UInt16 :=
  forUp lo hi
    (fun c M =>
      let tmp0 := pmodMatEntry M Mc r c
      let tmp1 := pmodMatEntry M Mc r2 c
      pmodMatSetEntry M Mc r2 c (subMod P.p tmp1 (tmp0 * factor % P.p)))
    M

/-- The forward part of one pivot: swap, normalize, eliminate.  The flag says
    that no pivot was found. -/
def forwardStep (Mr Mc r : Nat) (M : Arr UInt16) : Arr UInt16 × Bool :=
  let M := swapStep P Mr Mc r M
  let val := pmodMatEntry M Mc r r
  if val = 0 then (M, true)
  else
    let M := scaleRow P Mc r r Mc (gfInv P val) M
    let M := forUp (r + 1) Mr (fun r2 M => subRow P Mc r r2 r Mc (pmodMatEntry M Mc r2 r) M) M
    (M, false)

/-- All pivots from the top; stops with `true` at a missing pivot. -/
def forward (Mr Mc : Nat) (M : Arr UInt16) : Arr UInt16 × Bool :=
  forBreak 0 Mr
    (fun r (M, _) =>
      let (M, failed) := forwardStep P Mr Mc r M
      ((M, failed), failed))
    (M, false)

/-- The back substitution of row `r` into row `r2`. -/
def backStep (Mr Mc r r2 : Nat) (M : Arr UInt16) : Arr UInt16 :=
  let factor := pmodMatEntry M Mc r2 r
  let M := subRow P Mc r r2 r (r + 1) factor M
  subRow P Mc r r2 Mr Mc factor M

/-- `pmod_mat_syst_ct`: the status and what is left of the matrix. -/
def pmodMatSystCt (M : Arr UInt16) (Mr Mc : Nat) : Int × Arr UInt16 :=
  let (M, failed) := forward P Mr Mc M
  if failed then (-1, M)
  else (0, forDown 0 Mr (fun r M => forUp 0 r (fun r2 M => backStep P Mr Mc r r2 M) M) M)

/-- The matrix `(A | I)` of `pmod_mat_inv`. -/
def augment (A : Arr UInt16) (Ar Ac : Nat) : Arr UInt16 :=
  forUp 0 Ar
    (fun r M =>
      let M := M.blit (r * Ac * 2) (A.slice (r * Ac) Ac)
      forUp 0 Ac (fun c M => pmodMatSetEntry M (Ac * 2) r (Ac + c) (if r = c then 1 else 0)) M)
    Arr.empty

/-- `pmod_mat_inv`: the contents of `B`, which is not touched on failure. -/
def pmodMatInv (A : Arr UInt16) (Ar Ac : Nat) : Option (Arr UInt16) :=
  let (ret, M) := pmodMatSystCt P (augment A Ar Ac) Ar (Ac * 2)
  if ret = 0 then
    some (forUp 0 Ar (fun r B => B.blit (r * Ac) (M.slice (r * Ac * 2 + Ac) Ac)) Arr.empty)
  else none

end

end Meds.Ref
