/-
  Meds.Sage.MedsSign

  sage-ref/meds.sage: `MEDSbase.crypto_sign_keypair` and
  `MEDSbase.crypto_sign`.

  The bytes that `self.randombytes` returns are the argument `delta`, and a
  message is given as bytes.  `G`, `A_inv` and `B_inv` are filled from index 1
  on and the commitments from index 0 on, so each is the list of the entries set
  so far.  The solver is modelled for m = n, and its `A` is resized to m.
-/

import Meds.Sage.MedsBase
import Meds.Sage.Solvers

namespace Meds.Sage

open Meds.Core Meds.Ref

/-! ## Matrices -/

section

variable {q r c n : Nat}

/-- `matrix(GFq, m, n, M.rows()[i])`, for m = n. -/
def rowMatrix (n : Nat) (M : Mat q r c) (i : Nat) : Mat q n n :=
  Matrix.of fun a b => table M i (a * n + b)

/-- An `n × n` matrix as an `m × m` matrix. -/
def resize (m : Nat) (M : Mat q n n) : Mat q m m := Matrix.of fun a b => table M a b

/-- `M.inverse()`. -/
def inverse (M : Mat q n n) : Mat q n n := M.det⁻¹ • M.adjugate

end

section

variable (P : Params) (SHAKE256 : Shake)

/-- `for x in l: ret += f(x)`. -/
def appendEach {α : Type} (f : α → Except PyError (List UInt8)) (l : List α) (ret : List UInt8) :
    Except PyError (List UInt8) :=
  l.foldlM
    (fun ret x => do
      let data ← f x
      pure (ret ++ data))
    ret

variable [Fact P.p.Prime]

/-! ## crypto_sign_keypair -/

/-- One round of the `while` loop for an index: the next `sigma`, and on success
    also `A_inv[i]`, `B_inv[i]` and `G[i]`. -/
def keypairAttempt (G0 : Gen P) (sigma : List UInt8) :
    Run PyError (List UInt8 ⊕ List UInt8 × Mat P.p P.m P.m × Mat P.p P.n P.n × Gen P) := do
  let bufs := xofTuple SHAKE256 sigma [P.secSeedBytes, P.secSeedBytes, P.secSeedBytes]
  let sigmaAlpha := bufs.getD 0 []
  let sigmaT := bufs.getD 1 []
  let sigma := bufs.getD 2 []
  let Ti ← expandInvMat SHAKE256 P.p P.k sigmaT
  let (Amm, _) ← expandFqs SHAKE256 P.p 1 (shakeOf sigmaAlpha)
  let G0prime := Ti * G0
  let sol ← ofExcept
    (solveSymb (rowMatrix P.n G0prime 0) (rowMatrix P.n G0prime 1) (Amm.getD 0 0))
  match sol with
  | none => pure (.inl sigma)
  | some (A, Binv) =>
    if !isInvertible Binv then pure (.inl sigma)
    else if !isInvertible A then pure (.inl sigma)
    else
      match sf (pi (resize P.m A) (inverse Binv) G0) with
      | none => pure (.inl sigma)
      | some Gi => pure (.inr (sigma, inverse (resize P.m A), Binv, Gi))

/-- `G[1:]`, `A_inv[1:]` and `B_inv[1:]`. -/
structure KeyMatrices where
  G : List (Gen P)
  Ainv : List (Mat P.p P.m P.m)
  Binv : List (Mat P.p P.n P.n)

/-- A round of the `for` loop of `crypto_sign_keypair`. -/
def keypairIndex (G0 : Gen P) (s : List UInt8 × KeyMatrices P) :
    Run PyError (List UInt8 × KeyMatrices P) := do
  let (sigma, Ainv, Binv, Gi) ← Run.loop (keypairAttempt P SHAKE256 G0) s.1
  pure (sigma,
    { G := s.2.G ++ [Gi], Ainv := s.2.Ainv ++ [Ainv], Binv := s.2.Binv ++ [Binv] })

/-- `crypto_sign_keypair` up to the keys: `sigma_G0` and the matrices. -/
def keypairMatrices (delta : List UInt8) : Run PyError (List UInt8 × KeyMatrices P) := do
  let bufs := xofTuple SHAKE256 delta [P.pubSeedBytes, P.secSeedBytes]
  let sigmaG0 := bufs.getD 0 []
  let G0 ← expandSystMat SHAKE256 P.p P.k P.m P.n sigmaG0
  let (_, K) ←
    forUpM 1 P.s (fun _ => keypairIndex P SHAKE256 G0)
      (bufs.getD 1 [], { G := [], Ainv := [], Binv := [] })
  pure (sigmaG0, K)

/-- `crypto_sign_keypair`: the secret and the public key. -/
def cryptoSignKeypair (delta : List UInt8) : Run PyError (List UInt8 × List UInt8) := do
  let (sigmaG0, K) ← keypairMatrices P SHAKE256 delta
  let pk ← ofExcept (appendEach (fun Gi => compressG Gi P.k P.m P.n) K.G sigmaG0)
  let sk ← ofExcept (appendEach compress K.Ainv (delta ++ sigmaG0))
  let sk ← ofExcept (appendEach compress K.Binv sk)
  pure (sk, pk)

/-! ## crypto_sign -/

/-- `A_inv[1:]` or `B_inv[1:]`, from the secret key, and the offset behind them. -/
def readMatrices (sk : List UInt8) (r fSk : Nat) : Run PyError (List (Mat P.p r r) × Nat) :=
  forUpM 1 P.s
    (fun _ s => do
      let M ← ofExcept (decompress ((sk.drop s.2).take (packedBytes P.p (r * r))) P.p r r)
      pure (s.1 ++ [M], s.2 + packedBytes P.p (r * r)))
    ([], fSk)

/-- The first part of `crypto_sign`: `G_0`, and the matrices of the secret key. -/
def loadSecretKey (sk : List UInt8) :
    Run PyError (Gen P × List (Mat P.p P.m P.m) × List (Mat P.p P.n P.n)) := do
  let fSk := P.secSeedBytes
  let sigmaG0 := (sk.drop fSk).take P.pubSeedBytes
  let fSk := fSk + P.pubSeedBytes
  let G0 ← expandSystMat SHAKE256 P.p P.k P.m P.n sigmaG0
  let (Ainv, fSk) ← readMatrices P sk P.m fSk
  let (Binv, _) ← readMatrices P sk P.n fSk
  pure (G0, Ainv, Binv)

/-- One round of the `while` loop for commitment `i`. -/
def signAttempt (G0 : Gen P) (alpha : List UInt8) (i : Nat) (sigma : SeedTree) :
    Run PyError (SeedTree ⊕ SeedTree × Mat P.p P.m P.m × Mat P.p P.n P.n × Gen P) :=
  match sigma.get i with
  | .bytes seed => do
    let bufs :=
      xofTuple SHAKE256 (alpha ++ seed ++ addrBytes i)
        [P.pubSeedBytes, P.pubSeedBytes, P.stSeedBytes]
    let sigma := sigma.set i (.bytes (bufs.getD 2 []))
    let Atilde ← expandInvMat SHAKE256 P.p P.m (bufs.getD 0 [])
    let Btilde ← expandInvMat SHAKE256 P.p P.n (bufs.getD 1 [])
    match sf (pi Atilde Btilde G0) with
    | none => pure (.inl sigma)
    | some Gtilde => pure (.inr (sigma, Atilde, Btilde, Gtilde))
  | _ => Run.fail .typeError

/-- What the commitment loop of `crypto_sign` works on. -/
structure SignState where
  sigma : SeedTree
  Atilde : List (Mat P.p P.m P.m)
  Btilde : List (Mat P.p P.n P.n)
  Gtilde : List (Gen P)

/-- Round `i` of the commitment loop of `crypto_sign`. -/
def signCommit (G0 : Gen P) (alpha : List UInt8) (i : Nat) (s : SignState P) :
    Run PyError (SignState P) := do
  let (sigma, Atilde, Btilde, Gtilde) ← Run.loop (signAttempt P SHAKE256 G0 alpha i) s.sigma
  pure
    { sigma := sigma
      Atilde := s.Atilde ++ [Atilde]
      Btilde := s.Btilde ++ [Btilde]
      Gtilde := s.Gtilde ++ [Gtilde] }

/-- The commitments of `crypto_sign`, over the tree that `rho` grows. -/
def signCommitments (rho alpha : List UInt8) (G0 : Gen P) : Run PyError (SignState P) :=
  forUpM 0 P.t (signCommit P SHAKE256 G0 alpha)
    { sigma := SeedTree.ofRoot P.t rho (hashPair P SHAKE256 alpha)
      Atilde := []
      Btilde := []
      Gtilde := [] }

/-- Round `i` of the response loop of `crypto_sign`; the keys start at index 1. -/
def signResponse (Ainv : List (Mat P.p P.m P.m)) (Binv : List (Mat P.p P.n P.n)) (st : SignState P)
    (h : List Nat) (i : Nat) (ret : List UInt8) : Run PyError (List UInt8) :=
  if h.getD i 0 > 0 then do
    let Atilde ← Run.ofOption .indexError st.Atilde[i]?
    let Ainv ← Run.ofOption .indexError Ainv[h.getD i 0 - 1]?
    let Binv ← Run.ofOption .indexError Binv[h.getD i 0 - 1]?
    let Btilde ← Run.ofOption .indexError st.Btilde[i]?
    let mu ← ofExcept (compress (Atilde * Ainv))
    let nu ← ofExcept (compress (Binv * Btilde))
    pure (ret ++ (mu ++ nu))
  else pure ret

/-- `crypto_sign`. -/
def cryptoSign (delta sk msg : List UInt8) : Run PyError (List UInt8) := do
  let (G0, Ainv, Binv) ← loadSecretKey P SHAKE256 sk
  let bufs := xofTuple SHAKE256 delta [P.stSeedBytes, P.stSaltBytes]
  let rho := bufs.getD 0 []
  let alpha := bufs.getD 1 []
  let st ← signCommitments P SHAKE256 rho alpha G0
  let comp ← ofExcept (appendEach (fun G => compress (dropColumns P.k G)) st.Gtilde [])
  let d := hash P SHAKE256 (comp ++ msg)
  let h ← parseHash P SHAKE256 d
  let ret ← forUpM 0 P.t (signResponse P Ainv Binv st h) []
  let p ← ofExcept (seedTreeToPath P SHAKE256 h rho alpha)
  pure (ret ++ p ++ d ++ alpha ++ msg)

end

end Meds.Sage
