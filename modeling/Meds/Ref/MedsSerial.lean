/-
  Meds.Ref.MedsSerial

  ref/meds_serial.c: `crypto_sign_keypair`, `crypto_sign` and
  `crypto_sign_open`.

  The bytes that `randombytes` returns are the argument `delta`.  Buffers the
  caller owns (`pk`, `sk`, `sm`, `m`) come in with their old contents.  `bs_buf`
  is never initialized in the source, so its old contents are an argument too,
  one buffer for each round.  Objects that are only read are the lists of
  their bytes; reading past their end is a fault.
-/

import Meds.Ref.Bitstream
import Meds.Ref.Seed
import Meds.Ref.Util

namespace Meds.Ref

open Meds.Core

instance {α : Type} : Inhabited (Arr α) := ⟨Arr.empty⟩

section

variable (P : Params) (SHAKE256 : Shake) {ε : Type}

/-! ## crypto_sign_keypair -/

/-- One round of the `while` loop for index `i`: the next `sigma`, and on
    success also `A_inv[i]`, `B_inv[i]` and `G[i]`. -/
def keypairAttempt (G0 : Arr UInt16) (sigma : List UInt8) :
    Run ε (List UInt8 ⊕ List UInt8 × Arr UInt16 × Arr UInt16 × Arr UInt16) := do
  let bufs := xof SHAKE256 sigma [P.secSeedBytes, P.secSeedBytes, P.secSeedBytes]
  let sigmaA := bufs.getD 0 []
  let sigmaTi := bufs.getD 1 []
  let sigma := bufs.getD 2 []
  let Ti ← rndInvMatrix P SHAKE256 P.k P.k sigmaTi
  let (Amm, _) ← rndGF P SHAKE256 (shake256AbsorbOnce sigmaA)
  let G0prime := pmodMatMul P Arr.empty P.k (P.m * P.n) Ti P.k P.k G0 (P.m * P.n)
  match solve P G0prime Amm with
  | none => pure (.inl sigma)
  | some (A, Binv) =>
    match pmodMatInv P Binv P.n P.n with
    | none => pure (.inl sigma)
    | some B =>
      match pmodMatInv P A P.m P.m with
      | none => pure (.inl sigma)
      | some Ainv =>
        let (ret, Gi) := pmodMatSystCt P (pi P A B G0) P.k (P.m * P.n)
        if ret ≠ 0 then pure (.inl sigma) else pure (.inr (sigma, Ainv, Binv, Gi))

/-- The matrices of a key pair, indexed as in the source. -/
structure KeyMatrices where
  G : Arr (Arr UInt16)
  Ainv : Arr (Arr UInt16)
  Binv : Arr (Arr UInt16)

/-- Round `i` of the `for` loop of `crypto_sign_keypair`. -/
def keypairIndex (G0 : Arr UInt16) (i : Nat) (s : List UInt8 × KeyMatrices) :
    Run ε (List UInt8 × KeyMatrices) := do
  let (sigma, Ainv, Binv, Gi) ← Run.loop (keypairAttempt P SHAKE256 G0) s.1
  pure (sigma, { G := s.2.G.set i Gi, Ainv := s.2.Ainv.set i Ainv, Binv := s.2.Binv.set i Binv })

/-- `crypto_sign_keypair` up to the copying: `sigma_G0` and the matrices. -/
def keypairMatrices (delta : List UInt8) : Run ε (List UInt8 × KeyMatrices) := do
  let bufs := xof SHAKE256 delta [P.pubSeedBytes, P.secSeedBytes]
  let sigmaG0 := bufs.getD 0 []
  let sigma := bufs.getD 1 []
  let G0 ← rndSysMat P SHAKE256 P.k (P.m * P.n) sigmaG0
  let (_, K) ←
    forUpM 1 P.s (keypairIndex P SHAKE256 G0)
      (sigma, { G := Arr.empty.set 0 G0, Ainv := Arr.empty, Binv := Arr.empty })
  pure (sigmaG0, K)

/-- `for (j = lo; j < hi; j++) bs_write(&bs, M[off + j], GFq_bits);` -/
def writeEntries (M : Arr UInt16) (off lo hi : Nat) (s : Arr UInt8 × BitstreamT) :
    Arr UInt8 × BitstreamT :=
  forUp lo hi (fun j s => bsPut P.gfqBits s (M.get (off + j)).toNat) s

/-- `bs_finalize(&bs);` -/
def putFinalize (s : Arr UInt8 × BitstreamT) : Arr UInt8 × BitstreamT := (s.1, bsFinalize s.2)

/-- The loop that writes `G[1], …, G[s - 1]` to the public key. -/
def writePkMatrices (G : Arr (Arr UInt16)) (s : Arr UInt8 × BitstreamT) : Arr UInt8 × BitstreamT :=
  forUp 1 P.s
    (fun si s =>
      let s := writeEntries P (G.get si) (P.m * P.n) ((P.m - 1) * P.n) (P.m * P.n) s
      let s :=
        forUp 2 P.k (fun r s => writeEntries P (G.get si) (r * P.m * P.n) P.k (P.m * P.n) s) s
      putFinalize s)
    s

/-- The loop that writes the first `len` entries of matrices `1, …, s - 1`. -/
def writeMatrices (M : Arr (Arr UInt16)) (len : Nat) (s : Arr UInt8 × BitstreamT) :
    Arr UInt8 × BitstreamT :=
  forUp 1 P.s (fun si s => putFinalize (writeEntries P (M.get si) 0 0 len s)) s

/-- `crypto_sign_keypair`: the status, the public and the secret key. -/
def cryptoSignKeypair (delta : List UInt8) (pk sk : Arr UInt8) :
    Run ε (Int × Arr UInt8 × Arr UInt8) := do
  let (sigmaG0, K) ← keypairMatrices P SHAKE256 delta
  -- copy pk data
  let pk := pk.blit 0 sigmaG0
  let (buf, bs) :=
    writePkMatrices P K.G (pk.view P.pubSeedBytes, bsInit (P.pkBytes - P.pubSeedBytes))
  let pk := pk.modifyFrom P.pubSeedBytes fun _ => buf
  if P.pkBytes ≠ P.pubSeedBytes + bs.bytePos + (if bs.bitPos > 0 then 1 else 0) then
    pure (-1, pk, sk)
  else
    -- copy sk data
    let sk := sk.blit 0 delta
    let sk := sk.blit P.secSeedBytes sigmaG0
    let off := P.secSeedBytes + P.pubSeedBytes
    let s := (sk.view off, bsInit (P.skBytes - P.secSeedBytes - P.pubSeedBytes))
    let s := writeMatrices P K.Ainv (P.m * P.m) s
    let s := writeMatrices P K.Binv (P.n * P.n) s
    pure (0, pk, sk.modifyFrom off fun _ => s.1)

/-! ## Commitments -/

/-- Offset of `sigma[i * MEDS_st_seed_bytes]` in `stree`. -/
def sigmaOff (i : Nat) : Nat :=
  P.stSeedBytes * seedTreeAddr P.seedTreeHeight 0 + i * P.stSeedBytes

/-- One round of the `while` loop for commitment `i`, which `crypto_sign` and
    `crypto_sign_open` share.  The leaf seed is replaced in every round. -/
def commitAttempt (G0 : Arr UInt16) (alpha : List UInt8) (i : Nat) (stree : Arr UInt8) :
    Run ε (Arr UInt8 ⊕ Arr UInt8 × Arr UInt16 × Arr UInt16 × Arr UInt16) := do
  let seedBuf := alpha ++ stree.slice (sigmaOff P i) P.stSeedBytes ++ addrBytes i
  let bufs := xof SHAKE256 seedBuf [P.pubSeedBytes, P.pubSeedBytes, P.stSeedBytes]
  let stree := stree.blit (sigmaOff P i) (bufs.getD 2 [])
  let Atilde ← rndInvMatrix P SHAKE256 P.m P.m (bufs.getD 0 [])
  let Btilde ← rndInvMatrix P SHAKE256 P.n P.n (bufs.getD 1 [])
  let (ret, Gtilde) := pmodMatSystCt P (pi P Atilde Btilde G0) P.k (P.m * P.n)
  if ret = 0 then pure (.inr (stree, Atilde, Btilde, Gtilde)) else pure (.inl stree)

/-- `CEILING((MEDS_k * (MEDS_m*MEDS_n - MEDS_k)) * GFq_bits, 8)`. -/
def bsBufLen : Nat := ceiling (P.k * (P.m * P.n - P.k) * P.gfqBits) 8

/-- The contents of `bs_buf` after the non-systematic part of `G` is written to it. -/
def packCommitment (bsBuf : Arr UInt8) (G : Arr UInt16) : List UInt8 :=
  let s :=
    forUp 0 P.k (fun r s => writeEntries P G (r * P.m * P.n) P.k (P.m * P.n) s)
      (bsBuf, bsInit (bsBufLen P))
  s.1.slice 0 (bsBufLen P)

/-! ## crypto_sign -/

/-- `for (j = lo; j < hi; j++) M[off + j] = bs_read(&bs, GFq_bits);` -/
def readEntries (mem : Nat → Option UInt8) (off lo hi : Nat) (s : Arr UInt16 × BitstreamT) :
    Option (Arr UInt16 × BitstreamT) :=
  forUpM lo hi
    (fun j s => do
      let (v, bs) ← bsRead mem s.2 P.gfqBits
      pure (s.1.set (off + j) (UInt16.ofNat v), bs))
    s

/-- The loop that reads the first `len` entries of matrices `1, …, s - 1`. -/
def readMatrices (mem : Nat → Option UInt8) (len : Nat) (bs : BitstreamT) :
    Option (Arr (Arr UInt16) × BitstreamT) :=
  forUpM 1 P.s
    (fun si s => do
      let (M, bs) ← readEntries P mem 0 0 len (Arr.empty, s.2)
      pure (s.1.set si M, bsFinalize bs))
    (Arr.empty, bs)

/-- What the commitment loop of `crypto_sign` works on. -/
structure SignState where
  stree : Arr UInt8
  Atilde : Arr (Arr UInt16)
  Btilde : Arr (Arr UInt16)
  hShake : KeccakState

/-- Round `i` of the commitment loop of `crypto_sign`. -/
def signCommit (bsBuf : Nat → Arr UInt8) (G0 : Arr UInt16) (alpha : List UInt8) (i : Nat)
    (s : SignState) : Run ε SignState := do
  let (stree, Atilde, Btilde, Gtilde) ← Run.loop (commitAttempt P SHAKE256 G0 alpha i) s.stree
  pure
    { stree := stree
      Atilde := s.Atilde.set i Atilde
      Btilde := s.Btilde.set i Btilde
      hShake := shake256Absorb s.hShake (packCommitment P (bsBuf i) Gtilde) }

/-- Write `A * B` for `n × n` matrices, then finalize. -/
def writeProduct (n : Nat) (A B : Arr UInt16) (s : Arr UInt8 × BitstreamT) :
    Arr UInt8 × BitstreamT :=
  let prod := pmodMatMul P Arr.empty n n A n n B n
  putFinalize (writeEntries P prod 0 0 (n * n) s)

/-- Bytes of all responses: where the path starts. -/
def munuBytes : Nat := P.w * (P.matABytes + P.matBBytes)

/-- Round `i` of the response loop of `crypto_sign`. -/
def signResponse (K : KeyMatrices) (st : SignState) (h : Arr UInt8) (i : Nat)
    (s : Arr UInt8 × BitstreamT) : Arr UInt8 × BitstreamT :=
  if h.get i > 0 then
    let s := writeProduct P P.m (st.Atilde.get i) (K.Ainv.get (h.get i).toNat) s
    writeProduct P P.n (K.Binv.get (h.get i).toNat) (st.Btilde.get i) s
  else s

/-- The first part of `crypto_sign`: expand the secret key. -/
def loadSecretKey (sk : List UInt8) : Run Fault KeyMatrices := do
  let mem := fun i => sk[P.secSeedBytes + i]?
  let sigmaG0 ← Run.ofOption .outOfBounds (readBytes mem 0 P.pubSeedBytes)
  let G0 ← rndSysMat P SHAKE256 P.k (P.m * P.n) sigmaG0
  let mem := fun i => sk[P.secSeedBytes + P.pubSeedBytes + i]?
  let bs := bsInit (P.skBytes - P.secSeedBytes - P.pubSeedBytes)
  let (Ainv, bs) ← Run.ofOption .outOfBounds (readMatrices P mem (P.m * P.m) bs)
  let (Binv, _) ← Run.ofOption .outOfBounds (readMatrices P mem (P.n * P.n) bs)
  pure { G := Arr.empty.set 0 G0, Ainv := Ainv, Binv := Binv }

/-- The part of `crypto_sign` up to the digest. -/
def signCommitments (bsBuf : Nat → Arr UInt8) (delta : List UInt8) (G0 : Arr UInt16) :
    Run ε (List UInt8 × SignState) := do
  let bufs := xof SHAKE256 delta [P.stSeedBytes, P.stSaltBytes]
  let rho := bufs.getD 0 []
  let alpha := bufs.getD 1 []
  let stree := Arr.replicate (P.stSeedBytes * P.seedTreeSize) 0
  let stree := stree.blit (P.stSeedBytes * seedTreeAddr 0 0) rho
  let stree := tHash P SHAKE256 alpha stree 0 0
  let st ←
    forUpM 0 P.t (signCommit P SHAKE256 bsBuf G0 alpha)
      { stree := stree, Atilde := Arr.empty, Btilde := Arr.empty, hShake := shake256Init }
  pure (alpha, st)

/-- The rest of `crypto_sign`: the signed message for digest and challenge. -/
def signRespond (K : KeyMatrices) (alpha : List UInt8) (st : SignState) (digest : List UInt8)
    (h : Arr UInt8) (sm : Arr UInt8) (m : List UInt8) : Run Fault (Arr UInt8 × Nat) := do
  let stree := tHash P SHAKE256 alpha st.stree 0 0
  let path ← streeToPath P SHAKE256 stree h sm (munuBytes P) alpha
  let (sm, _) := forUp 0 P.t (signResponse P K st h) (path.path, bsInit (munuBytes P))
  let sm := sm.blit (P.sigBytes - P.digestBytes - P.stSaltBytes) digest
  let sm := sm.blit (P.sigBytes - P.stSaltBytes) alpha
  let sm := sm.blit P.sigBytes m
  pure (sm, P.sigBytes + m.length)

/-- `crypto_sign`: the contents of `sm` and `*smlen`. -/
def cryptoSign (bsBuf : Nat → Arr UInt8) (delta : List UInt8) (sm : Arr UInt8) (m sk : List UInt8) :
    Run Fault (Arr UInt8 × Nat) := do
  let K ← loadSecretKey P SHAKE256 sk
  let (alpha, st) ← signCommitments P SHAKE256 bsBuf delta (K.G.get 0)
  let hShake := shake256Finalize (shake256Absorb st.hShake m)
  let (digest, _) := shake256Squeeze SHAKE256 P.digestBytes hShake
  let (_, h) ← parseHash P SHAKE256 digest Arr.empty P.t
  signRespond P SHAKE256 K alpha st digest h sm m

/-! ## crypto_sign_open -/

/-- `a - b` on values of type `unsigned long`. -/
def ulongSub (a b : Nat) : Nat := if b ≤ a then a - b else a + 2 ^ 64 - b

/-- `G[ii * n + j] = ii + shift == j` for `ii < rows`, from `off` on. -/
def fillIdentity (off rows shift : Nat) (G : Arr UInt16) : Arr UInt16 :=
  forUp 0 rows
    (fun ii G =>
      forUp 0 P.n (fun j G => G.set (off + ii * P.n + j) (if ii + shift = j then 1 else 0)) G)
    G

/-- Round `i` of the loop that rebuilds `G[i]` from the public key. -/
def readPkMatrix (mem : Nat → Option UInt8) (bs : BitstreamT) : Option (Arr UInt16 × BitstreamT) := do
  let G := setIdentity Arr.empty P.k (P.m * P.n)
  let s ← readEntries P mem (P.m * P.n) ((P.m - 1) * P.n) (P.m * P.n) (G, bs)
  let (G, bs) ←
    forUpM 2 P.k (fun r s => readEntries P mem (r * P.m * P.n) P.k (P.m * P.n) s) s
  let G := fillIdentity P 0 P.m 0 G
  let G := fillIdentity P (P.m * P.n) (P.m - 1) 1 G
  pure (G, bsFinalize bs)

/-- The first part of `crypto_sign_open`: the matrices `G[0], …, G[s - 1]`. -/
def loadPublicKey (pk : List UInt8) : Run Fault (Arr (Arr UInt16)) := do
  let sigmaG0 ← Run.ofOption .outOfBounds (readBytes (fun i => pk[i]?) 0 P.pubSeedBytes)
  let G0 ← rndSysMat P SHAKE256 P.k (P.m * P.n) sigmaG0
  let mem := fun i => pk[P.pubSeedBytes + i]?
  let (G, _) ←
    Run.ofOption .outOfBounds
      (forUpM 1 P.s
        (fun i (G, bs) => do
          let (Gi, bs) ← readPkMatrix P mem bs
          pure (G.set i Gi, bs))
        (Arr.empty.set 0 G0, bsInit (P.pkBytes - P.pubSeedBytes)))
  pure G

/-- `for (j = 0; j < n*n; j++) mu[j] = bs_read(&bs, GFq_bits) % MEDS_p; bs_finalize(&bs);` -/
def readResponse (mem : Nat → Option UInt8) (n : Nat) (bs : BitstreamT) :
    Option (Arr UInt16 × BitstreamT) := do
  let (M, bs) ←
    forUpM 0 (n * n)
      (fun j s => do
        let (v, bs) ← bsRead mem s.2 P.gfqBits
        pure (s.1.set j (UInt16.ofNat (v % P.p)), bs))
      (Arr.empty, bs)
  pure (M, bsFinalize bs)

/-- What the loop of `crypto_sign_open` works on. -/
structure OpenState where
  bs : BitstreamT
  stree : Arr UInt8
  shake : KeccakState

/-- The branch of `crypto_sign_open` for `h[i] > 0`, with `G` = `G[h[i]]`; `none`
    where the source returns -1. -/
def openResponse (mem : Nat → Option UInt8) (G : Arr UInt16) (bs : BitstreamT) :
    Run Fault (Option (Arr UInt16 × BitstreamT)) := do
  let (mu, bs) ← Run.ofOption .outOfBounds (readResponse P mem P.m bs)
  let (nu, bs) ← Run.ofOption .outOfBounds (readResponse P mem P.n bs)
  if (pmodMatSystCt P mu P.m P.m).1 ≠ 0 then pure none
  else if (pmodMatSystCt P nu P.n P.n).1 ≠ 0 then pure none
  else
    let (ret, Ghat) := pmodMatSystCt P (pi P mu nu G) P.k (P.m * P.n)
    if ret < 0 then pure none else pure (some (Ghat, bs))

/-- Round `i` of the loop of `crypto_sign_open`; `none` once it has returned -1. -/
def openRound (mem : Nat → Option UInt8) (bsBuf : Nat → Arr UInt8) (G : Arr (Arr UInt16))
    (alpha : List UInt8) (h : Arr UInt8) (i : Nat) :
    Option OpenState → Run Fault (Option OpenState)
  | none => pure none
  | some s =>
    if h.get i > 0 then do
      let r ← openResponse P mem (G.get (h.get i).toNat) s.bs
      match r with
      | none => pure none
      | some (Ghat, bs) =>
        pure (some { s with
          bs := bs
          shake := shake256Absorb s.shake (packCommitment P (bsBuf i) Ghat) })
    else do
      let (stree, _, _, Ghat) ← Run.loop (commitAttempt P SHAKE256 (G.get 0) alpha i) s.stree
      pure (some { s with
        stree := stree
        shake := shake256Absorb s.shake (packCommitment P (bsBuf i) Ghat) })

/-- The part of `crypto_sign_open` that decides: the digest check. -/
def openCheck (mem : Nat → Option UInt8) (smlen : Nat) (digest : List UInt8) (m : Arr UInt8)
    (mlen : Nat) : Option OpenState → Run Fault (Int × Arr UInt8 × Nat)
  | none => pure (-1, m, mlen)
  | some s => do
    let len := ulongSub smlen P.sigBytes
    let msg ← Run.ofOption .outOfBounds (readBytes mem P.sigBytes len)
    let shake := shake256Finalize (shake256Absorb s.shake msg)
    let (check, _) := shake256Squeeze SHAKE256 P.digestBytes shake
    if digest ≠ check then pure (-1, m, mlen)
    else pure (0, m.blit 0 msg, len)

/-- `crypto_sign_open`: the status, the contents of `m` and `*mlen`. -/
def cryptoSignOpen (bsBuf : Nat → Arr UInt8) (m : Arr UInt8) (mlen : Nat) (sm pk : List UInt8) :
    Run Fault (Int × Arr UInt8 × Nat) := do
  let G ← loadPublicKey P SHAKE256 pk
  let mem := fun i => sm[i]?
  let digest ←
    Run.ofOption .outOfBounds
      (readBytes mem (P.sigBytes - P.digestBytes - P.stSaltBytes) P.digestBytes)
  let (_, h) ← parseHash P SHAKE256 digest Arr.empty P.t
  let alpha ← Run.ofOption .outOfBounds (readBytes mem (P.sigBytes - P.stSaltBytes) P.stSaltBytes)
  let stree := Arr.replicate (P.stSeedBytes * P.seedTreeSize) 0
  let st ← pathToStree P SHAKE256 stree h mem (munuBytes P) alpha
  let s ←
    forUpM 0 P.t (openRound P SHAKE256 mem bsBuf G alpha h)
      (some { bs := bsInit (munuBytes P), stree := st.stree, shake := shake256Init })
  openCheck P SHAKE256 mem sm.length digest m mlen s

end

end Meds.Ref
