/-
  Meds.Kat.Device

  ref/KAT_test_Stream.c: `main` on the board, version 1.1 of the serial
  protocol.

  The board prints the requests and then obeys commands.  A command is a code
  of four bytes, high byte first, but the board looks at every byte by itself:
  it shifts the byte into `val` four times and takes the top byte of `val`.
  The three zero bytes in front of a code are commands that do nothing.

  `sm` is freed but never set: `crypto_sign` keeps the buffer to itself.  What
  the pointer happens to hold is a field of the board.
-/

import Meds.Kat.Test
import Meds.Ref.KeygenDialog

namespace Meds.Kat.Device

open Meds.Core Meds.Ref

inductive DeviceFault where
  | kat (e : KatFault)
  | badPointer
deriving DecidableEq, Repr

/-- The board: the names it prints, whether `char` is signed, and what is in
    its memory before. -/
structure Board where
  elfName : List UInt8
  algName : List UInt8
  charSigned : Bool
  seed : Arr UInt8
  ctx : DrbgCtx
  stack : Int → Stack
  sm : Nat

def SEED_CODE : Int := 18
def MSG_CODE : Int := 19
def PK_CODE : Int := 20
def SK_CODE : Int := 21
def SML_CODE : Int := 22
def SM_CODE : Int := 23
def STOP_CODE : Int := 24

/-- A computation of the library. -/
def onBoard {α : Type} (x : Dialog Fault UInt8 α) : Dialog DeviceFault UInt8 α :=
  x.mapFault fun e => .kat (.meds e)

section

variable (P : Params) (SHAKE256 : Shake) (AES256 : BlockFunction 16) (reduced : Bool) (board : Board)

/-! ## do_seedgen -/

/-- The variables of `do_seedgen`. -/
structure SeedgenVars where
  i : Nat
  seed : Arr UInt8
  msg : Arr UInt8
  ctx : DrbgCtx

/-- `randombytes` of `len` bytes. -/
def drawBytes (x : Arr UInt8) (len : Nat) (ctx : DrbgCtx) : Dialog DeviceFault UInt8 (Arr UInt8 × DrbgCtx) := do
  let (_, x, ctx) ←
    Dialog.lift (Run.mapFault (fun e => .kat (.drbg e)) (randombytes AES256 x (UInt64.ofNat len) ctx))
  pure (x, ctx)

/-- A round of `for (int i = 0; i < CntLenght; i++)`. -/
def seedgenRound (cntLength : Nat) (s : SeedgenVars) :
    Dialog DeviceFault UInt8 (SeedgenVars ⊕ Int × SeedgenVars) :=
  if s.i < cntLength then do
    Dialog.putAll (text "count = " ++ decimal s.i ++ [newline])
    let (seed, ctx) ← drawBytes AES256 s.seed 48 s.ctx
    onBoard (writeStreamStr "seed = " (seed.slice 0 48))
    let mlen := 33 * (s.i + 1)
    Dialog.putAll (text "mlen = " ++ decimal mlen ++ [newline])
    let (msg, ctx) ← drawBytes AES256 s.msg mlen ctx
    onBoard (writeStreamStr "msg = " (msg.slice 0 mlen))
    Dialog.putAll (text "pk =\n")
    Dialog.putAll (text "sk =\n")
    Dialog.putAll (text "smlen =\n")
    Dialog.putAll (text "sm =\n\n")
    if s.i = 99 then do
      Dialog.putAll (text "finished\n")
      pure (.inr (0, ⟨s.i, seed, msg, ctx⟩))
    else pure (.inl ⟨s.i + 1, seed, msg, ctx⟩)
  else pure (.inr (-1, s))

/-- `do_seedgen`: what it returns, with the variables at its end. -/
def doSeedgen (seed : Arr UInt8) (cntLength : Nat) (ctx : DrbgCtx) :
    Dialog DeviceFault UInt8 (Int × SeedgenVars) :=
  Session.loop (seedgenRound AES256 cntLength) ⟨0, seed, Arr.replicate 3300 0, ctx⟩

/-! ## The commands -/

/-- The variables of `main` in its loop.  `m` is `none` where the pointer is not
    set or was freed. -/
structure DeviceVars where
  val : BitVec 32
  seed : Arr UInt8
  countPk : Nat
  m : Option (List UInt8)
  ctx : DrbgCtx

/-- `get_char`, promoted to `int`. -/
def charValue (c : UInt8) : BitVec 32 :=
  if board.charSigned then c.toBitVec.signExtend 32 else c.toBitVec.zeroExtend 32

/-- `for (int i = 0; i < 4; i++) val = val << 8 | get_char;` -/
def shiftIn (val : BitVec 32) (c : UInt8) : BitVec 32 :=
  forUp 0 4 (fun _ val => val <<< 8 ||| charValue board c) val

/-- `val >> 3 * 8`. -/
def checkOf (val : BitVec 32) : Int := (val.sshiftRight (3 * 8)).toInt

/-- The branch of `main` for the code `valCheck`; the right side is where `main`
    returns. -/
def execute (st : DeviceVars) (valCheck : Int) : Dialog DeviceFault UInt8 (DeviceVars ⊕ Int) :=
  if valCheck = SEED_CODE then do
    let seed ← onBoard (readStreamStr 48)
    pure (.inl { st with seed := st.seed.blit 0 seed })
  else if valCheck = MSG_CODE then do
    let mlen := 33 * (st.countPk + 1)
    let ctx := randombytesInit AES256 st.seed none 256 st.ctx
    Dialog.put 0
    let m ← onBoard (readStreamStr mlen)
    pure (.inl { st with countPk := st.countPk + 1, m := some m, ctx := ctx })
  else if valCheck = PK_CODE then do
    let (delta, ctx) ←
      Dialog.lift (Run.mapFault .kat (drawDelta P AES256 (board.stack st.countPk).delta₁ st.ctx))
    let ret ← onBoard (cryptoSignKeypairStreaming serialHal P SHAKE256 reduced delta)
    if ret ≠ 0 then do
      Dialog.putAll (text "crypto_sign_keypair returned <" ++ decimalInt ret ++ text ">\n")
      pure (.inr KAT_CRYPTO_FAILURE)
    else do
      Dialog.putAll (text "pk = DONE\n")
      pure (.inl { st with ctx := ctx })
  else if valCheck = SK_CODE then do
    Dialog.putAll (text "sk = DONE\n")
    pure (.inl st)
  else if valCheck = SML_CODE then
    match st.m with
    | none => Dialog.lift (Run.fail .badPointer)
    | some m => do
      let (delta, ctx) ←
        Dialog.lift (Run.mapFault .kat (drawDelta P AES256 (board.stack st.countPk).delta₂ st.ctx))
      let smlen ← onBoard (cryptoSignStreaming serialHal P SHAKE256 reduced delta m)
      Dialog.putAll (text "smlen = " ++ decimal smlen ++ [newline])
      pure (.inl { st with ctx := ctx })
  else if valCheck = SM_CODE then do
    Dialog.putAll (text "sm = DONE\n")
    -- `free(m)`, then `free(sm)`, which does nothing for a null pointer
    match st.m with
    | none => Dialog.lift (Run.fail .badPointer)
    | some _ =>
      if board.sm = 0 then pure (.inl { st with m := none }) else Dialog.lift (Run.fail .badPointer)
  else if valCheck = STOP_CODE then do
    Dialog.putAll (text "finished from C\n")
    pure (.inl st)
  else pure (.inl st)

/-- A round of the `do` loop. -/
def deviceRound (st : DeviceVars) : Dialog DeviceFault UInt8 (DeviceVars ⊕ Int) := do
  let getChar ← Dialog.get
  let val := shiftIn board st.val getChar
  let r ← execute P SHAKE256 AES256 reduced board { st with val := val } (checkOf val)
  match r with
  | .inr ret => pure (.inr ret)
  | .inl st => pure (if getChar = newline then .inr 0 else .inl st)

/-- `main`. -/
def main : Dialog DeviceFault UInt8 Int := do
  let _ ← Dialog.get
  let ctx := randombytesInit AES256 ⟨entropyInput⟩ none 256 board.ctx
  Dialog.putAll
    (text "Send data from \"" ++ board.elfName ++ text "\" - " ++ board.algName ++ [newline])
  let (ret, s) ← doSeedgen AES256 board.seed 100 ctx
  if ret ≠ 0 then do
    Dialog.putAll (text "crypto_seed_keypair returned <" ++ decimalInt ret ++ text ">\n")
    pure KAT_CRYPTO_FAILURE
  else do
    let _ ← Dialog.get
    Session.loop (deviceRound P SHAKE256 AES256 reduced board)
      { val := 0
        seed := s.seed.blit 0 (List.replicate 48 0x00)
        countPk := 0
        m := none
        ctx := s.ctx }

end

end Meds.Kat.Device
