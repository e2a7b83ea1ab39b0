/-
  Meds.Ref.Stream

  ref/meds_stream.c: key generation and signing on a device that keeps most
  matrices on the host.

  The calls through which the device talks to the host are the fields of a
  `Hal`; so one text of the two functions serves every meaning of these
  calls.  The memory-reduced build (MEDS167717 and MEDS134180), selected by
  `reduced`, keeps G_0 and everything computed from it in one buffer and reads
  G_0 back from the host.  Buffers come from `calloc` and are zero.
-/

import Meds.Ref.MedsSerial

namespace Meds.Ref

open Meds.Core

/-- The calls of the device: the streams of util.c, the computations that may
    not end, and unbounded loops over both. -/
structure Hal (m : Type → Type) where
  putchar : UInt8 → m Unit
  getchar : m UInt8
  writeStream : Arr UInt16 → Nat → m Unit
  readStream : Nat → m (Arr UInt16)
  writeStreamStr : String → List UInt8 → m Unit
  readStreamStr : Nat → m (List UInt8)
  run : {α : Type} → Run Fault α → m α
  loop : {σ α : Type} → (σ → m (σ ⊕ α)) → σ → m α

section

variable {m : Type → Type} [Monad m] (hal : Hal m) (P : Params) (SHAKE256 : Shake) (reduced : Bool)

/-! ## crypto_sign_keypair_streaming -/

/-- The matrices that are computed before the ready byte is sent. -/
structure Solved where
  A : Arr UInt16
  B : Arr UInt16
  Ainv : Arr UInt16
  Binv : Arr UInt16

/-- `solve` and the two inversions; `none` where the source retries. -/
def solveInvert (G0prime : Arr UInt16) (Amm : Nat) : Option Solved :=
  match solve P G0prime Amm with
  | none => none
  | some (A, Binv) =>
    match pmodMatInv P Binv P.n P.n with
    | none => none
    | some B =>
      match pmodMatInv P A P.m P.m with
      | none => none
      | some Ainv => some { A := A, B := B, Ainv := Ainv, Binv := Binv }

/-- G_0' = Ti * G_0, in the build without memory reduction. -/
def tiMul (Ti G0 : Arr UInt16) : Arr UInt16 :=
  pmodMatMul P Arr.empty P.k (P.m * P.n) Ti P.k P.k G0 (P.m * P.n)

/-- G_data = Ti * G_data, through the buffer `tmp`. -/
def tiMulInPlace (Ti G : Arr UInt16) : Arr UInt16 :=
  let tmp :=
    pmodMatMulRevise P (Arr.replicate (P.k * P.m * P.n) 0) P.k (P.m * P.n) Ti P.k P.k G (P.m * P.n)
  forUp 0 (P.m * P.n)
    (fun c G =>
      forUp 0 P.k
        (fun r G => pmodMatSetEntry G (P.m * P.n) r c (tmp.get (r * P.m * P.n + c)).toNat) G)
    G

/-- One round of the `while` loop, on `sigma` and `G_data`.  The build
    without memory reduction keeps G_0 in `G0`. -/
def streamAttempt (G0 : Arr UInt16) (s : List UInt8 × Arr UInt16) :
    m (List UInt8 × Arr UInt16 ⊕ List UInt8 × Arr UInt16) := do
  let bufs := xof SHAKE256 s.1 [P.secSeedBytes, P.secSeedBytes, P.secSeedBytes]
  let sigmaA := bufs.getD 0 []
  let sigmaTi := bufs.getD 1 []
  let sigma := bufs.getD 2 []
  let Ti ← hal.run (rndInvMatrix P SHAKE256 P.k P.k sigmaTi)
  let (Amm, _) ← hal.run (rndGF P SHAKE256 (shake256AbsorbOnce sigmaA))
  let Gdata := if reduced then tiMulInPlace P Ti s.2 else s.2
  let Gprime := if reduced then Gdata else tiMul P Ti G0
  match solveInvert P Gprime Amm with
  | none => pure (.inl (sigma, Gdata))
  | some S => do
    hal.putchar 0
    let Gdata ← if reduced then hal.readStream (P.k * P.m * P.n) else pure Gdata
    let Gdata := if reduced then piInPlace P S.A S.B Gdata else pi P S.A S.B G0
    let (ret, Gdata) := pmodMatSystCt P Gdata P.k (P.m * P.n)
    if ret ≠ 0 then pure (.inl (sigma, Gdata))
    else do
      hal.writeStream S.Ainv (P.m * P.m)
      hal.writeStream S.Binv (P.m * P.m)
      hal.writeStream Gdata (P.k * P.m * P.n)
      let Gdata ← if reduced then hal.readStream (P.k * P.m * P.n) else pure Gdata
      let _ ← hal.getchar
      pure (.inr (sigma, Gdata))

/-- The first part of `crypto_sign_keypair_streaming`: the matrices. -/
def streamMatrices (delta : List UInt8) : m (List UInt8) := do
  let bufs := xof SHAKE256 delta [P.pubSeedBytes, P.secSeedBytes]
  let sigmaG0 := bufs.getD 0 []
  let sigma := bufs.getD 1 []
  let G0 ← hal.run (rndSysMat P SHAKE256 P.k (P.m * P.n) sigmaG0)
  if reduced then do
    hal.putchar 0
    hal.writeStream G0 (P.k * P.m * P.n)
    let _ ← hal.getchar
    pure ()
  else pure ()
  let _ ←
    forUpM 1 P.s (fun _ s => hal.loop (streamAttempt hal P SHAKE256 reduced G0) s)
      (sigma, if reduced then G0 else Arr.empty)
  pure sigmaG0

/-- Read one matrix back and append it to the secret key. -/
def streamSkMatrix (entries : Nat) (s : Arr UInt8 × BitstreamT) : m (Arr UInt8 × BitstreamT) := do
  hal.putchar 0
  let M ← hal.readStream (P.m * P.m)
  let s := putFinalize (writeEntries P M 0 0 entries s)
  let _ ← hal.getchar
  pure s

/-- The part of `crypto_sign_keypair_streaming` that sends the secret key. -/
def streamSecretKey (delta sigmaG0 : List UInt8) : m Unit := do
  let sk := (Arr.replicate P.skBytes 0).blit 0 delta
  let sk := sk.blit P.secSeedBytes sigmaG0
  let off := P.secSeedBytes + P.pubSeedBytes
  let s := (sk.view off, bsInit (P.skBytes - P.secSeedBytes - P.pubSeedBytes))
  let s ← forUpM 1 P.s (fun _ s => streamSkMatrix hal P (P.m * P.m) s) s
  let s ← forUpM 1 P.s (fun _ s => streamSkMatrix hal P (P.n * P.n) s) s
  let sk := sk.modifyFrom off fun _ => s.1
  hal.putchar 0
  hal.writeStreamStr "sk = " (sk.slice 0 P.skBytes)
  let _ ← hal.getchar
  pure ()

/-- Bytes of the buffer `pk`. -/
def pkBufLen : Nat := 2 * (P.k * P.m * P.n)

/-- Round `si` of the loop that sends the public key; the state is `pk`,
    `byte_pos_check` and `bs`. -/
def streamPkMatrix (si : Nat) (s : Arr UInt8 × Nat × BitstreamT) :
    m (Arr UInt8 × Nat × BitstreamT) := do
  let (pk, check, _) := s
  let off := if si = 1 then P.pubSeedBytes else 0
  hal.putchar 0
  let G ← hal.readStream (P.k * P.m * P.n)
  let w :=
    writeEntries P G (P.m * P.n) ((P.m - 1) * P.n) (P.m * P.n)
      (pk.view off, bsInit (pkBufLen P - P.pubSeedBytes))
  let w := forUp 2 P.k (fun r w => writeEntries P G (r * P.m * P.n) P.k (P.m * P.n) w) w
  let (buf, bs) := putFinalize w
  let pk := pk.modifyFrom off fun _ => buf
  hal.writeStreamStr "" (pk.slice 0 (if si = 1 then bs.bytePos + P.pubSeedBytes else bs.bytePos))
  let _ ← hal.getchar
  pure (pk.blit 0 (List.replicate (pkBufLen P) 0), check + bs.bytePos, bs)

/-- The part of `crypto_sign_keypair_streaming` that sends the public key, and
    the status. -/
def streamPublicKey (sigmaG0 : List UInt8) : m Int := do
  let pk := (Arr.replicate (pkBufLen P) 0).blit 0 sigmaG0
  let (_, check, bs) ← forUpM 1 P.s (streamPkMatrix hal P) (pk, 0, bsInit 0)
  if P.pkBytes ≠ P.pubSeedBytes + check + (if bs.bitPos > 0 then 1 else 0) then pure (-1)
  else pure 0

/-- `crypto_sign_keypair_streaming`; the seed from `randombytes` is `delta`. -/
def cryptoSignKeypairStreaming (delta : List UInt8) : m Int := do
  let sigmaG0 ← streamMatrices hal P SHAKE256 reduced delta
  streamSecretKey hal P delta sigmaG0
  streamPublicKey hal P sigmaG0

/-! ## crypto_sign -/

/-- One round of the `while` loop for commitment `i`, on `stree` and
    `G_tilde_ti`. -/
def streamCommitAttempt (G0 : Arr UInt16) (alpha : List UInt8) (i : Nat)
    (s : Arr UInt8 × Arr UInt16) :
    Run Fault (Arr UInt8 × Arr UInt16 ⊕ Arr UInt8 × Arr UInt16 × Arr UInt16 × Arr UInt16) := do
  let seedBuf := alpha ++ s.1.slice (sigmaOff P i) P.stSeedBytes ++ addrBytes i
  let bufs := xof SHAKE256 seedBuf [P.pubSeedBytes, P.pubSeedBytes, P.stSeedBytes]
  let stree := s.1.blit (sigmaOff P i) (bufs.getD 2 [])
  let Atilde ← rndInvMatrix P SHAKE256 P.m P.m (bufs.getD 0 [])
  let Btilde ← rndInvMatrix P SHAKE256 P.n P.n (bufs.getD 1 [])
  let Gtilde := if reduced then piInPlace P Atilde Btilde s.2 else pi P Atilde Btilde G0
  let (ret, Gtilde) := pmodMatSystCt P Gtilde P.k (P.m * P.n)
  if ret = 0 then pure (.inr (stree, Atilde, Btilde, Gtilde)) else pure (.inl (stree, Gtilde))

/-- What the commitment loop of `crypto_sign` works on. -/
structure StreamSignState where
  stree : Arr UInt8
  Gtilde : Arr UInt16
  hShake : KeccakState

/-- Round `i` of the commitment loop. -/
def streamSignCommit (G0 : Arr UInt16) (alpha : List UInt8) (i : Nat) (s : StreamSignState) :
    m StreamSignState := do
  let (stree, Atilde, Btilde, Gtilde) ←
    hal.run (Run.loop (streamCommitAttempt P SHAKE256 reduced G0 alpha i) (s.stree, s.Gtilde))
  let hShake := shake256Absorb s.hShake (packCommitment P Arr.empty Gtilde)
  hal.putchar 0
  hal.writeStream Atilde (P.m * P.m)
  hal.writeStream Btilde (P.m * P.m)
  let Gtilde ← if reduced then hal.readStream (P.k * P.m * P.n) else pure Gtilde
  let _ ← hal.getchar
  pure { stree := stree, Gtilde := Gtilde, hShake := hShake }

/-- Bytes of one response: the part of `sm` before the path. -/
def responseBytes : Nat := P.matABytes + P.matBBytes

/-- Round `i` of the response loop, on the buffer `sm`. -/
def streamResponse (K : KeyMatrices) (h : Arr UInt8) (i : Nat) (sm : Arr UInt8) :
    m (Arr UInt8) := do
  hal.putchar 0
  let Atilde ← hal.readStream (P.m * P.m)
  let Btilde ← hal.readStream (P.m * P.m)
  let s := (sm, bsInit (responseBytes P))
  let s :=
    if h.get i > 0 then
      let s := writeProduct P P.m Atilde (K.Ainv.get (h.get i).toNat) s
      writeProduct P P.n (K.Binv.get (h.get i).toNat) Btilde s
    else s
  hal.writeStreamStr "" (s.1.slice 0 s.2.bytePos)
  let sm := s.1.blit 0 (List.replicate (responseBytes P) 0)
  let _ ← hal.getchar
  pure sm

/-- Bytes of the last chunk without the message. -/
def dataLength : Nat := P.sigBytes - P.w * responseBytes P

/-- The part of `crypto_sign` after the commitments. -/
def streamRespond (K : KeyMatrices) (alpha : List UInt8) (stree : Arr UInt8) (digest : List UInt8)
    (h : Arr UInt8) (msg : List UInt8) : m Nat := do
  let sm := Arr.replicate (responseBytes P + dataLength P + msg.length) 0
  let sm ← forUpM 0 P.t (streamResponse hal P K h) sm
  let stree := tHash P SHAKE256 alpha stree 0 0
  let path ← hal.run (streeToPath P SHAKE256 stree h sm (responseBytes P) alpha)
  let off := responseBytes P + dataLength P
  let sm := path.path.blit (off - P.digestBytes - P.stSaltBytes) digest
  let sm := sm.blit (off - P.stSaltBytes) alpha
  let sm := sm.blit off msg
  hal.putchar 0
  hal.writeStreamStr "" (sm.slice (responseBytes P) (dataLength P + msg.length))
  let _ ← hal.getchar
  pure (P.sigBytes + msg.length)

/-- `crypto_sign` of the streaming build, with the seed `delta` from
    `randombytes`: the value of `*smlen`. -/
def cryptoSignStreaming (delta msg : List UInt8) : m Nat := do
  hal.putchar 0
  let sk ← hal.readStreamStr P.skBytes
  let _ ← hal.getchar
  let K ← hal.run (loadSecretKey P SHAKE256 sk)
  let G0 := K.G.get 0
  let bufs := xof SHAKE256 delta [P.stSeedBytes, P.stSaltBytes]
  let rho := bufs.getD 0 []
  let alpha := bufs.getD 1 []
  let stree := Arr.replicate (P.stSeedBytes * P.seedTreeSize) 0
  let stree := stree.blit (P.stSeedBytes * seedTreeAddr 0 0) rho
  let stree := tHash P SHAKE256 alpha stree 0 0
  if reduced then do
    hal.putchar 0
    hal.writeStream G0 (P.k * P.m * P.n)
    let _ ← hal.getchar
    pure ()
  else pure ()
  let st ←
    forUpM 0 P.t (streamSignCommit hal P SHAKE256 reduced G0 alpha)
      { stree := stree, Gtilde := if reduced then G0 else Arr.empty, hShake := shake256Init }
  let hShake := shake256Finalize (shake256Absorb st.hShake msg)
  let (digest, _) := shake256Squeeze SHAKE256 P.digestBytes hShake
  let (_, h) ← hal.run (parseHash P SHAKE256 digest Arr.empty P.t)
  streamRespond hal P SHAKE256 K alpha st.stree digest h msg

end

end Meds.Ref
