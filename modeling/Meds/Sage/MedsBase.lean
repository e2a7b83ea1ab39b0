/-
  Meds.Sage.MedsBase

  sage-ref/meds.sage: `MEDSbase.crypto_sign_open`.

  Slices past the end of a byte string are shorter, as in Python.  `G_hat` is
  filled from its first entry on, so it is the list of the entries set so far.
  Logarithms are exact, and the addresses fit the four bytes of `to_bytes`.
-/

import Meds.Sage.Util

namespace Meds.Sage

open Meds.Core Meds.Ref

/-- `ceil(len * GF_BITS / 8)`. -/
def packedBytes (q len : Nat) : Nat := ceiling (len * gfBits q) 8

section

variable (P : Params) (SHAKE256 : Shake)

/-- One row of a generator for each matrix of the code. -/
abbrev Gen := Mat P.p P.k (P.m * P.n)

/-- `l_Gi`. -/
def lGi : Nat := packedBytes P.p ((P.k - 2) * (P.m * P.n - P.k) + P.n)

/-- The generators `G[0], …, G[s - 1]`. -/
def openKeys (pk : List UInt8) : Run PyError (List (Gen P)) := do
  let G0 ← expandSystMat SHAKE256 P.p P.k P.m P.n (pk.take P.pubSeedBytes)
  let (G, _) ←
    forUpM 1 P.s
      (fun _ s => do
        let Gi ← ofExcept (decompressG ((pk.drop s.2).take (lGi P)) P.p P.k P.m P.n)
        pure (s.1 ++ [Gi], s.2 + lGi P))
      ([G0], P.pubSeedBytes)
  pure G

/-- What the loop of `crypto_sign_open` works on. -/
structure OpenState where
  fMs : Nat
  sigma : SeedTree
  Ghat : List (Gen P)

variable [Fact P.p.Prime]

/-- The branch of `crypto_sign_open` for `h[i] > 0`, with `G` = `G[h[i]]`. -/
def openResponse (munu : List UInt8) (G : Gen P) (fMs : Nat) : Run PyError (Gen P × Nat) := do
  let mu ← ofExcept (decompress ((munu.drop fMs).take (packedBytes P.p (P.m * P.m))) P.p P.m P.m)
  let fMs := fMs + packedBytes P.p (P.m * P.m)
  let nu ← ofExcept (decompress ((munu.drop fMs).take (packedBytes P.p (P.n * P.n))) P.p P.n P.n)
  let fMs := fMs + packedBytes P.p (P.n * P.n)
  if !isInvertible mu || !isInvertible nu then Run.fail .badSignatureError
  else
    match sf (pi mu nu G) with
    | none => Run.fail .badSignatureError
    | some Ghat => pure (Ghat, fMs)

/-- One round of the `while` loop for `h[i] == 0`. -/
def commitAttempt (G0 : Gen P) (alpha : List UInt8) (i : Nat) (sigma : SeedTree) :
    Run PyError (SeedTree ⊕ SeedTree × Gen P) :=
  match sigma.get i with
  | .bytes seed => do
    let bufs :=
      xofTuple SHAKE256 (alpha ++ seed ++ addrBytes i)
        [P.pubSeedBytes, P.pubSeedBytes, P.stSeedBytes]
    let sigma := sigma.set i (.bytes (bufs.getD 2 []))
    let A ← expandInvMat SHAKE256 P.p P.m (bufs.getD 0 [])
    let B ← expandInvMat SHAKE256 P.p P.n (bufs.getD 1 [])
    match sf (pi A B G0) with
    | none => pure (.inl sigma)
    | some Ghat => pure (.inr (sigma, Ghat))
  | _ => Run.fail .typeError

/-- Round `i` of the loop of `crypto_sign_open`. -/
def openRound (G : List (Gen P)) (munu alpha : List UInt8) (h : List Nat) (i : Nat)
    (s : OpenState P) : Run PyError (OpenState P) :=
  if h.getD i 0 > 0 then do
    let Gi ← Run.ofOption .indexError G[h.getD i 0]?
    let (Ghat, fMs) ← openResponse P munu Gi s.fMs
    pure { s with fMs := fMs, Ghat := s.Ghat ++ [Ghat] }
  else do
    let G0 ← Run.ofOption .indexError G[0]?
    let (sigma, Ghat) ← Run.loop (commitAttempt P SHAKE256 G0 alpha i) s.sigma
    pure { s with sigma := sigma, Ghat := s.Ghat ++ [Ghat] }

/-- The end of `crypto_sign_open`: the digest check. -/
def openCheck (d msg : List UInt8) (Ghat : List (Gen P)) : Run PyError (List UInt8) := do
  let comp ←
    ofExcept (Ghat.foldlM
      (fun comp G => do
        let data ← compress (dropColumns P.k G)
        pure (comp ++ data))
      [])
  if d ≠ hash P SHAKE256 (comp ++ msg) then Run.fail .badSignatureError else pure msg

/-- `crypto_sign_open`. -/
def cryptoSignOpen (pk ms : List UInt8) : Run PyError (List UInt8) := do
  let G ← openKeys P SHAKE256 pk
  let len := (packedBytes P.p (P.m * P.m) + packedBytes P.p (P.n * P.n)) * P.w
  let munu := ms.take len
  let ms := ms.drop len
  let path := ms.take (seedTreeCost P)
  let ms := ms.drop (seedTreeCost P)
  let d := ms.take P.digestBytes
  let ms := ms.drop P.digestBytes
  let alpha := ms.take P.stSaltBytes
  let msg := ms.drop P.stSaltBytes
  let h ← parseHash P SHAKE256 d
  let sigma := pathToSeedTree P SHAKE256 h path alpha
  let s ← forUpM 0 P.t (openRound P SHAKE256 G munu alpha h) { fMs := 0, sigma := sigma, Ghat := [] }
  openCheck P SHAKE256 d msg s.Ghat

end

end Meds.Sage
