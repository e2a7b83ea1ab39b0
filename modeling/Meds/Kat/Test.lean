/-
  Meds.Kat.Test

  ref/KAT_test.c: `main`.

  The program writes the request file from the generator, reads it back test
  case by test case, and writes the response file: a key pair and a signed
  message for each test case, from a generator that the seed of the test case
  starts.  It then opens the signed message, and stops with
  `KAT_CRYPTO_FAILURE` where that fails.

  Whatever was on the stack before is an argument.  The name of the algorithm
  is one too.
-/

import Meds.Kat.Reading
import Meds.Core.Match
import Meds.Ref.MedsSerial
import Meds.Ref.Randombytes

namespace Meds.Kat

open Meds.Core Meds.Ref

/-! ## fscanf -/

def isDigit (c : UInt8) : Bool := 48 ≤ c.toNat ∧ c.toNat ≤ 57

/-- `fscanf` with `%d` or `%llu`: the number, where there is one, and the rest
    of the file. -/
def fscanfInt (infile : List UInt8) : Option Int × List UInt8 :=
  let l := infile.dropWhile isSpace
  let minus := l.head? = some 45
  let l := if l.head? = some 45 ∨ l.head? = some 43 then l.tail else l
  let digits := l.takeWhile isDigit
  let rest := l.dropWhile isDigit
  if digits = [] then (none, rest)
  else
    let n : Int := Meds.Sage.digitsValue digits
    (some (if minus then -n else n), rest)

/-- `"%d"`. -/
def decimalInt (v : Int) : List UInt8 :=
  if v < 0 then text "-" ++ decimal v.natAbs else decimal v.toNat

/-! ## main -/

def KAT_SUCCESS : Int := 0
def KAT_DATA_ERROR : Int := -3
def KAT_CRYPTO_FAILURE : Int := -4

/-- What stops the program; `overrun` is a write behind the end of `msg`. -/
inductive KatFault where
  | meds (e : Fault)
  | drbg (e : DrbgFault)
  | overrun
deriving DecidableEq, Repr

/-- `unsigned char msg[3300]`. -/
def msgSize : Nat := 3300

/-- The status of `main` and the response file. -/
structure MainEnd where
  status : Int
  rsp : List UInt8
deriving DecidableEq, Repr

section

variable (P : Params) (SHAKE256 : Shake) (AES256 : BlockFunction 16)

/-- The variables of the loop that writes the request file. -/
structure WriteVars where
  req : List UInt8
  seed : Arr UInt8
  msg : Arr UInt8
  ctx : DrbgCtx

/-- `randombytes(msg, mlen)`. -/
def drawMsg (msg : Arr UInt8) (mlen : Nat) (ctx : DrbgCtx) :
    Run KatFault (Int × Arr UInt8 × DrbgCtx) :=
  if mlen ≤ msgSize then Run.mapFault .drbg (randombytes AES256 msg (UInt64.ofNat mlen) ctx)
  else Run.fail .overrun

/-- A round of the loop that writes the request file. -/
def writeRequest (i : Nat) (s : WriteVars) : Run KatFault WriteVars := do
  let req := s.req ++ (text "count = " ++ decimal i ++ [newline])
  let (_, seed, ctx) ← Run.mapFault .drbg (randombytes AES256 s.seed 48 s.ctx)
  let req := req ++ fprintBstr (text "seed = ") (seed.slice 0 48)
  let mlen := 33 * (i + 1)
  let req := req ++ (text "mlen = " ++ decimal mlen ++ [newline])
  let (_, msg, ctx) ← drawMsg AES256 s.msg mlen ctx
  let req := req ++ fprintBstr (text "msg = ") (msg.slice 0 mlen)
  let req := req ++ text "pk =\n"
  let req := req ++ text "sk =\n"
  let req := req ++ text "smlen =\n"
  let req := req ++ text "sm =\n\n"
  pure ⟨req, seed, msg, ctx⟩

/-- `for (int i=0; i<48; i++) entropy_input[i] = i;` -/
def entropyInput : List UInt8 := (List.range 48).map UInt8.ofNat

/-- The request file of `n` test cases. -/
def writeRequests (n : Nat) (seed msg : Arr UInt8) (ctx : DrbgCtx) : Run KatFault WriteVars :=
  let ctx := randombytesInit AES256 ⟨entropyInput⟩ none 256 ctx
  forUpM 0 n (writeRequest AES256) ⟨[], seed, msg, ctx⟩

/-- The variables of the loop that writes the response file. -/
structure MainVars where
  req : List UInt8
  rsp : List UInt8
  count : Int
  seed : Arr UInt8
  mlen : Nat
  mlen1 : Nat
  pk : Arr UInt8
  sk : Arr UInt8
  ctx : DrbgCtx

/-- A test case as it was read. -/
structure TestCase where
  req : List UInt8
  rsp : List UInt8
  count : Int
  seed : Arr UInt8
  mlen : Nat
  m : Arr UInt8

/-- The part of the loop that reads a test case and copies it to the response
    file; the end of `main` where there is none. -/
def readCase (s : MainVars) : MainEnd ⊕ TestCase :=
  match findMarker s.req (text "count = ") with
  | none => .inl ⟨KAT_SUCCESS, s.rsp⟩
  | some req =>
    let (v, req) := fscanfInt req
    let count := v.getD s.count
    let rsp := s.rsp ++ (text "count = " ++ decimalInt count ++ [newline])
    match readHex req s.seed 48 (text "seed = ") with
    | (0, _, _) => .inl ⟨KAT_DATA_ERROR, rsp⟩
    | (_, seed, req) =>
      let rsp := rsp ++ fprintBstr (text "seed = ") (seed.slice 0 48)
      match findMarker req (text "mlen = ") with
      | none => .inl ⟨KAT_DATA_ERROR, rsp⟩
      | some req =>
        let (v, req) := fscanfInt req
        -- `%llu` stores a negative number modulo 2^64
        let mlen := (v.map fun v => (v % 2 ^ 64).toNat).getD s.mlen
        let rsp := rsp ++ (text "mlen = " ++ decimal mlen ++ [newline])
        let m := Arr.replicate mlen 0
        match readHex req m mlen (text "msg = ") with
        | (0, _, _) => .inl ⟨KAT_DATA_ERROR, rsp⟩
        | (_, m, req) =>
          .inr ⟨req, rsp ++ fprintBstr (text "msg = ") (m.slice 0 mlen), count, seed, mlen, m⟩

/-- What `crypto_sign_keypair` and `crypto_sign` draw: `randombytes(delta,
    MEDS_sec_seed_bytes)`. -/
def drawDelta (delta : Arr UInt8) (ctx : DrbgCtx) : Run KatFault (List UInt8 × DrbgCtx) := do
  let (_, delta, ctx) ←
    Run.mapFault .drbg (randombytes AES256 delta (UInt64.ofNat P.secSeedBytes) ctx)
  pure (delta.slice 0 P.secSeedBytes, ctx)

/-- What is on the stack where the calls for a test case keep `delta` and
    `bs_buf`. -/
structure Stack where
  delta₁ : Arr UInt8
  delta₂ : Arr UInt8
  bsBuf : Nat → Arr UInt8
  bsBuf' : Nat → Arr UInt8

/-- The part of the loop that works on the test case. -/
def runCase (stack : Int → Stack) (s : MainVars) (c : TestCase) :
    Run KatFault (MainVars ⊕ MainEnd) := do
  let mem := stack c.count
  let ctx := randombytesInit AES256 c.seed none 256 s.ctx
  let m1 := Arr.replicate (c.mlen + P.sigBytes) 0
  let sm := Arr.replicate (c.mlen + P.sigBytes) 0
  let m := c.m.slice 0 c.mlen
  let (delta, ctx) ← drawDelta P AES256 mem.delta₁ ctx
  let (ret, pk, sk) ← Run.mapFault .meds (cryptoSignKeypair P SHAKE256 delta s.pk s.sk)
  if ret ≠ 0 then pure (.inr ⟨KAT_CRYPTO_FAILURE, c.rsp⟩)
  else
    let rsp := c.rsp ++ fprintBstr (text "pk = ") (pk.slice 0 P.pkBytes)
    let rsp := rsp ++ fprintBstr (text "sk = ") (sk.slice 0 P.skBytes)
    let (delta, ctx) ← drawDelta P AES256 mem.delta₂ ctx
    let (sm, smlen) ←
      Run.mapFault .meds (cryptoSign P SHAKE256 mem.bsBuf delta sm m (sk.slice 0 P.skBytes))
    let rsp := rsp ++ (text "smlen = " ++ decimal smlen ++ [newline])
    let rsp := rsp ++ fprintBstr (text "sm = ") (sm.slice 0 smlen)
    let rsp := rsp ++ [newline]
    let (ret, m1, mlen1) ←
      Run.mapFault .meds
        (cryptoSignOpen P SHAKE256 mem.bsBuf' m1 s.mlen1 (sm.slice 0 smlen) (pk.slice 0 P.pkBytes))
    if ret ≠ 0 then pure (.inr ⟨KAT_CRYPTO_FAILURE, rsp⟩)
    else if c.mlen ≠ mlen1 then pure (.inr ⟨KAT_CRYPTO_FAILURE, rsp⟩)
    else if m ≠ m1.slice 0 c.mlen then pure (.inr ⟨KAT_CRYPTO_FAILURE, rsp⟩)
    else pure (.inl ⟨c.req, rsp, c.count, c.seed, c.mlen, mlen1, pk, sk, ctx⟩)

/-- A round of the `do` loop. -/
def mainRound (stack : Int → Stack) (s : MainVars) : Run KatFault (MainVars ⊕ MainEnd) :=
  match readCase s with
  | .inl e => pure (.inr e)
  | .inr c => runCase P SHAKE256 AES256 stack s c

/-- `main`: the request file, the status and the response file.  The source has
    `n` = 100, which is what `msg` has room for. -/
def main (algname : List UInt8) (n : Nat) (stack : Int → Stack) (msg : Arr UInt8) (s : MainVars) :
    Run KatFault (List UInt8 × MainEnd) := do
  let w ← writeRequests AES256 n s.seed msg s.ctx
  let rsp := text "# " ++ algname ++ text "\n\n"
  let e ←
    Run.loop (mainRound P SHAKE256 AES256 stack)
      { s with req := w.req, rsp := rsp, seed := w.seed, ctx := w.ctx }
  pure (w.req, e)

end

end Meds.Kat
