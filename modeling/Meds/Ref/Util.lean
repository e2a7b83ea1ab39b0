/-
  Meds.Ref.Util

  ref/util.c: the sampling functions, `parse_hash`, `solve` and `pi`.

  The rejection loops need not end for every XOF, so whatever contains one
  is a `Run`.  An array argument that a function overwrites as a whole appears
  as its result; `solve` and `pmod_mat_inv` write theirs on success only.
-/

import Meds.Core.Run
import Meds.Ref.Fips202
import Meds.Ref.MatrixMod

namespace Meds.Ref

open Meds.Core

/-- `XOF`: absorb the seed once, then squeeze the buffers one after the other. -/
def xof (SHAKE256 : Shake) (seed : List UInt8) (length : List Nat) : List (List UInt8) :=
  (length.foldl
    (fun (bufs, shake) len =>
      let (buf, shake) := shake256Squeeze SHAKE256 len shake
      (bufs ++ [buf], shake))
    (([] : List (List UInt8)), shake256AbsorbOnce seed)).1

/-- `val |= data[i] << (i * 8)` over all of `data`. -/
def leValue (data : List UInt8) : Nat :=
  forUp 0 data.length (fun i val => val ||| (data.getD i 0).toNat <<< (i * 8)) 0

section

variable (P : Params) (SHAKE256 : Shake) {ε : Type}

/-! ## Sampling -/

/-- `rnd_GF`: the value and the state the squeezes leave. -/
def rndGF (shake : KeccakState) : Run ε (Nat × KeccakState) :=
  Run.loop
    (fun (val, shake) =>
      if val ≥ P.p then
        let (data, shake) := shake256Squeeze SHAKE256 2 shake
        pure (.inl (leValue data &&& (1 <<< P.gfqBits - 1), shake))
      else pure (.inr (val, shake)))
    (P.p, shake)

/-- `pmod_mat_set_entry(M, …, r, c, rnd_GF(&shake))`. -/
def rndEntry (Mc r c : Nat) (s : Arr UInt16 × KeccakState) : Run ε (Arr UInt16 × KeccakState) := do
  let (v, shake) ← rndGF P SHAKE256 s.2
  pure (pmodMatSetEntry s.1 Mc r c v, shake)

/-- Set the first `Mr` columns to the identity. -/
def setIdentity (M : Arr UInt16) (Mr Mc : Nat) : Arr UInt16 :=
  forUp 0 Mr
    (fun r M => forUp 0 Mr (fun c M => pmodMatSetEntry M Mc r c (if r = c then 1 else 0)) M) M

/-- `rnd_sys_mat`. -/
def rndSysMat (Mr Mc : Nat) (seed : List UInt8) : Run ε (Arr UInt16) := do
  let (M, _) ←
    forUpM 0 Mr (fun r s => forUpM Mr Mc (fun c s => rndEntry P SHAKE256 Mc r c s) s)
      (Arr.empty, shake256AbsorbOnce seed)
  pure (setIdentity M Mr Mc)

/-- `rnd_inv_matrix`: draw matrices from one stream until one survives the
    forward elimination (the loop body repeats that of `pmod_mat_syst_ct`). -/
def rndInvMatrix (Mr Mc : Nat) (seed : List UInt8) : Run ε (Arr UInt16) :=
  Run.loop
    (fun s => do
      let s ← forUpM 0 Mr (fun r s => forUpM 0 Mc (fun c s => rndEntry P SHAKE256 Mc r c s) s) s
      let (_, failed) := forward P Mr Mc s.1
      if failed then pure (.inl s) else pure (.inr s.1))
    (Arr.empty, shake256AbsorbOnce seed)

/-! ## The challenge -/

/-- The loop of `parse_hash` that draws a nonzero challenge value. -/
def parseVal (shake : KeccakState) : Run ε (Nat × KeccakState) :=
  Run.loop
    (fun (val, shake) =>
      if val < 1 ∨ val > P.s - 1 then
        let (buf, shake) := shake256Squeeze SHAKE256 1 shake
        pure (.inl ((buf.getD 0 0).toNat &&& P.sMask, shake))
      else pure (.inr (val, shake)))
    (0, shake)

/-- One round of the loop of `parse_hash`, on `i`, `h` and the XOF state. -/
def parseRound (s : Nat × Arr UInt8 × KeccakState) :
    Run ε (Nat × Arr UInt8 × KeccakState ⊕ Arr UInt8) :=
  let (i, h, shake) := s
  if i < P.w then
    let (buf, shake) := shake256Squeeze SHAKE256 P.tBytes shake
    let pos := leValue buf &&& P.tMask
    if pos ≥ P.t then pure (.inl (i, h, shake))
    else if h.get pos > 0 then pure (.inl (i, h, shake))
    else do
      let (val, shake) ← parseVal P SHAKE256 shake
      pure (.inl (i + 1, h.set pos (UInt8.ofNat val), shake))
  else pure (.inr h)

/-- `parse_hash`: the status and the challenge. -/
def parseHash (digest : List UInt8) (h : Arr UInt8) (lenH : Nat) : Run ε (Int × Arr UInt8) :=
  if lenH < P.t then pure (-1, h)
  else do
    let shake := shake256Finalize (shake256Absorb shake256Init digest)
    let h := forUp 0 P.t (fun i h => h.set i 0) h
    let h ← Run.loop (parseRound P SHAKE256) (0, h, shake)
    pure (0, h)

end

section

variable (P : Params)

/-! ## Solving for A and B⁻¹ -/

/-- `N = -P0primeᵀ`. -/
def solveN (P0prime0 : Arr UInt16) : Arr UInt16 :=
  forUp 0 P.m
    (fun i N =>
      forUp 0 P.n
        (fun j N =>
          N.set (j * P.m + i)
            (UInt16.ofNat ((P.p - (P0prime0.get (i * P.n + j)).toNat) % P.p)))
        N)
    Arr.empty

/-- The `n × (2m + 2)` system `M` before elimination. -/
def solveM (P0prime0 P0prime1 : Arr UInt16) (Amm : Nat) : Arr UInt16 :=
  let C := P.m + P.m + 2
  let M := Arr.replicate (P.n * C) 0
  let M :=
    forUp 0 P.m
      (fun i M =>
        forUp 0 P.n
          (fun j M =>
            M.set (j * C + i) (UInt16.ofNat ((P.p - (P0prime1.get (i * P.n + j)).toNat) % P.p)))
          M)
      M
  let M :=
    forUp 0 P.m
      (fun i M =>
        forUp 0 P.n (fun j M => M.set (j * C + i + P.n) (P0prime0.get (i * P.n + j))) M)
      M
  let M :=
    forUp 0 P.n
      (fun j M =>
        M.set (j * C + P.m + P.n)
          (UInt16.ofNat ((P0prime0.get ((P.m - 1) * P.n + j)).toNat * (P.p - Amm) % P.p)))
      M
  forUp 0 P.n
    (fun j M =>
      M.set (j * C + P.m + P.n + 1)
        (UInt16.ofNat ((P0prime1.get ((P.m - 1) * P.n + j)).toNat * Amm % P.p)))
    M

/-- Eliminate the last row, all but its last column. -/
def solveLastRow (M : Arr UInt16) : Arr UInt16 :=
  let C := P.m + P.m + 2
  forUp 0 (P.n - 1)
    (fun r M =>
      let factor := pmodMatEntry M C (P.n - 1) r
      let M := subRow P C r (P.n - 1) (P.n - 1) (P.m + P.m + 1) factor M
      pmodMatSetEntry M C (P.n - 1) r 0)
    M

/-- Substitute the last row back into the others, all but their last column. -/
def solveBack (M : Arr UInt16) : Arr UInt16 :=
  let C := P.m + P.m + 2
  forUp 0 (P.n - 1)
    (fun r M =>
      let factor := pmodMatEntry M C r (P.n - 1)
      let M := subRow P C (P.n - 1) r P.n (P.m + P.m + 1) factor M
      pmodMatSetEntry M C r (P.n - 1) 0)
    M

/-- The elimination of `solve`; `none` when there is no solution. -/
def solveReduce (M : Arr UInt16) : Option (Arr UInt16) :=
  let C := P.m + P.m + 2
  let (ret, M) := pmodMatSystCt P M (P.n - 1) C
  if ret < 0 then none
  else
    let M := solveLastRow P M
    let val := pmodMatEntry M C (P.n - 1) (P.n - 1)
    if val = 0 then none
    else
      let M := scaleRow P C (P.n - 1) P.n (P.m + P.m + 1) (gfInv P val) M
      let M := pmodMatSetEntry M C (P.n - 1) (P.n - 1) 1
      let M := M.set (P.n * C - 1) 0
      some (solveBack P M)

/-- `sol[base + i] -= coef(i, j) * sol[src(j)]` for all `i < n`, `j < cnt`. -/
def solAccum (base cnt : Nat) (coef : Nat → Nat → Nat) (src : Nat → Nat) (sol : Arr UInt16) :
    Arr UInt16 :=
  forUp 0 P.n
    (fun i sol =>
      forUp 0 cnt
        (fun j sol =>
          let tmp := (sol.get (base + i)).toNat + P.p - coef i j * (sol.get (src j)).toNat % P.p
          sol.set (base + i) (UInt16.ofNat (tmp % P.p)))
        sol)
    sol

/-- The vector `sol` of all unknowns, from the reduced system. -/
def solveSol (M N P0prime0 : Arr UInt16) (Amm : Nat) : Arr UInt16 :=
  let C := P.m + P.m + 2
  let mm := P.n * P.n + P.m * P.m
  let sol := Arr.replicate mm 0
  let sol := sol.set (mm - 1) (UInt16.ofNat Amm)
  let sol :=
    forUp 0 (P.n - 1) (fun i sol => sol.set (mm - P.n + i) (M.get ((i + 1) * C - 1))) sol
  let sol := forUp 0 P.n (fun i sol => sol.set (mm - 2 * P.n + i) (M.get ((i + 1) * C - 2))) sol
  let sol :=
    forUp 0 P.n
      (fun i sol =>
        sol.set (P.n * P.n - P.n + i)
          (UInt16.ofNat ((P0prime0.get ((P.m - 1) * P.n + i)).toNat * Amm % P.p)))
      sol
  -- incomplete blocks
  let sol :=
    solAccum P (mm - 2 * P.n) (P.n - 1) (fun i j => (M.get (i * C + P.n + P.n - 2 - j)).toNat)
      (fun j => mm - 2 - j) sol
  let sol :=
    solAccum P (P.n * P.n - P.n) (P.n - 1) (fun i j => (N.get (i * P.n + P.m - 2 - j)).toNat)
      (fun j => mm - 2 - j) sol
  -- complete blocks
  let sol :=
    forUp 3 (P.n + 1)
      (fun block sol =>
        solAccum P (mm - block * P.n) P.n (fun i j => (M.get (i * C + P.n + P.n - 1 - j)).toNat)
          (fun j => mm - 1 - (block - 2) * P.n - j) sol)
      sol
  forUp 2 (P.n + 1)
    (fun block sol =>
      solAccum P (P.n * P.n - block * P.n) P.n (fun i j => (N.get (i * P.n + P.m - 1 - j)).toNat)
        (fun j => mm - 1 - (block - 1) * P.n - j) sol)
    sol

/-- `solve`: the contents of `A` and `B_inv`, when there is a solution. -/
def solve (G0prime : Arr UInt16) (Amm : Nat) : Option (Arr UInt16 × Arr UInt16) :=
  let P0prime0 := forUp 0 (P.m * P.n) (fun i M => M.set i (G0prime.get i)) Arr.empty
  let P0prime1 := forUp 0 (P.m * P.n) (fun i M => M.set i (G0prime.get (i + P.m * P.n))) Arr.empty
  let N := solveN P P0prime0
  match solveReduce P (solveM P P0prime0 P0prime1 Amm) with
  | none => none
  | some M =>
    let sol := solveSol P M N P0prime0 Amm
    let A := forUp 0 (P.m * P.m) (fun i A => A.set i (sol.get (i + P.n * P.n))) Arr.empty
    let Binv := forUp 0 (P.n * P.n) (fun i Binv => Binv.set i (sol.get i)) Arr.empty
    some (A, Binv)

/-! ## The action of (A, B) -/

/-- `pi` with distinct `Gout` and `G`: block `i` of the result is `A * G_i * B`. -/
def pi (A B G : Arr UInt16) : Arr UInt16 :=
  forUp 0 P.k
    (fun i Gout =>
      let off := i * P.m * P.n
      let Gout :=
        Gout.modifyFrom off fun sub => pmodMatMul P sub P.m P.n A P.m P.m (G.view off) P.n
      Gout.modifyFrom off fun sub => pmodMatMul P sub P.m P.n sub P.m P.n B P.n)
    Arr.empty

/-- `pi(G, A, B, G)`: the target is the source. -/
def piInPlace (A B G : Arr UInt16) : Arr UInt16 :=
  forUp 0 P.k
    (fun i G =>
      let off := i * P.m * P.n
      let G := G.modifyFrom off fun sub => pmodMatMul P sub P.m P.n A P.m P.m sub P.n
      G.modifyFrom off fun sub => pmodMatMul P sub P.m P.n sub P.m P.n B P.n)
    G

end

end Meds.Ref
