/-
  Meds.Ref.SerialIO

  Version 1.0 of the serial protocol: ref/KAT_test_Serial_IO.c on the device
  and sage-ref/KAT_test_Serial_IO.py on the host.

  The device waits for a byte before it prints anything; the host reads a line
  before it sends anything.  KAT_test_Stream.py, the host of version 1.1, sends
  a first byte; this one does not.
-/

import Meds.Ref.MedsSerial
import Meds.Ref.Wire

namespace Meds.Ref

open Meds.Core

/-! ## The device -/

/-- `randombytes_init(seed, NULL, 256)` and `randombytes`. -/
structure Rng (ρ : Type) where
  init : List UInt8 → ρ
  bytes : ρ → Nat → List UInt8 × ρ

/-- What the board runs besides `main`: the generator, the names it prints and
    whether `char` is signed. -/
structure Board (ρ : Type) where
  rng : Rng ρ
  elfName : List UInt8
  algName : List UInt8
  charSigned : Bool

/-- What the codes stand for, with the bytes that follow them. -/
inductive Command where
  | seed (s : List UInt8)
  | msg (m : List UInt8)
  | pk
  | sk
  | sml
  | sm
  | stop
deriving DecidableEq, Repr

/-- The variables of `main` in the command loop. -/
structure SerialState (ρ : Type) where
  val : BitVec 32
  seed : List UInt8
  countPk : Nat
  m : List UInt8
  sm : Arr UInt8
  smlen : Nat
  pk : Arr UInt8
  sk : Arr UInt8
  rng : ρ

section

variable (P : Params) (SHAKE256 : Shake) {ρ : Type} (board : Board ρ)

/-- `get_char`, promoted to `int`. -/
def charValue (c : UInt8) : BitVec 32 :=
  if board.charSigned then c.toBitVec.signExtend 32 else c.toBitVec.zeroExtend 32

/-- `for (i = 0; i < 4; i++) val = val << 8 | get_char;` -/
def shiftIn (val : BitVec 32) (c : UInt8) : BitVec 32 :=
  forUp 0 4 (fun _ val => val <<< 8 ||| charValue board c) val

/-- Round `i` of the loop that prints the requests. -/
def printRequest (i : Nat) (st : ρ) : Dialog Fault UInt8 ρ := do
  Dialog.putAll (text "count = " ++ decimal i ++ [newline])
  let (seed, st) := board.rng.bytes st 48
  writeStreamStr "seed = " seed
  let mlen := 33 * (i + 1)
  Dialog.putAll (text "mlen = " ++ decimal mlen ++ [newline])
  let (msg, st) := board.rng.bytes st mlen
  writeStreamStr "msg = " msg
  Dialog.putAll (text "pk =\n")
  Dialog.putAll (text "sk =\n")
  Dialog.putAll (text "smlen =\n")
  Dialog.putAll (text "sm =\n\n")
  if i = 99 then Dialog.putAll (text "finished\n") else pure ()
  pure st

/-- The bytes that follow the code `check`. -/
def readPayload (check : Int) (countPk : Nat) : Dialog Fault UInt8 (Option Command) :=
  if check = 18 then do
    let s ← readStreamStr 48
    pure (some (.seed s))
  else if check = 19 then do
    let m ← readStreamStr (33 * (countPk + 1))
    pure (some (.msg m))
  else if check = 20 then pure (some .pk)
  else if check = 21 then pure (some .sk)
  else if check = 22 then pure (some .sml)
  else if check = 23 then pure (some .sm)
  else if check = 24 then pure (some .stop)
  else pure none

/-- What the device does for a command; `.inr` where `main` returns. -/
def execute (st : SerialState ρ) : Command → Dialog Fault UInt8 (SerialState ρ ⊕ Int)
  | .seed s => pure (.inl { st with seed := s })
  | .msg m =>
    pure (.inl { st with
      countPk := st.countPk + 1
      rng := board.rng.init st.seed
      m := m
      sm := Arr.replicate (m.length + P.sigBytes) 0 })
  | .pk => do
    let (delta, rng) := board.rng.bytes st.rng P.secSeedBytes
    let (ret, pk, sk) ← Dialog.lift (cryptoSignKeypair P SHAKE256 delta st.pk st.sk)
    let st := { st with pk := pk, sk := sk, rng := rng }
    if ret ≠ 0 then do
      Dialog.putAll (text "crypto_sign_keypair returned <" ++ text (Int.repr ret) ++ text ">\n")
      pure (.inr (-4))
    else do
      writeStreamStr "pk = " (pk.slice 0 P.pkBytes)
      pure (.inl st)
  | .sk => do
    writeStreamStr "sk = " (st.sk.slice 0 P.skBytes)
    pure (.inl st)
  | .sml => do
    let (delta, rng) := board.rng.bytes st.rng P.secSeedBytes
    let (sm, smlen) ←
      Dialog.lift
        (cryptoSign P SHAKE256 (fun _ => Arr.empty) delta st.sm st.m (st.sk.slice 0 P.skBytes))
    Dialog.putAll (text "smlen = " ++ decimal smlen ++ [newline])
    pure (.inl { st with sm := sm, smlen := smlen, rng := rng })
  | .sm => do
    writeStreamStr "sm = " (st.sm.slice 0 st.smlen)
    pure (.inl st)
  | .stop => do
    Dialog.putAll (text "finished from C\n")
    pure (.inl st)

/-- One round of the command loop, and the command it has executed. -/
def serialRound (st : SerialState ρ) :
    Dialog Fault UInt8 (Option Command × (SerialState ρ ⊕ Int)) := do
  let c ← Dialog.get
  let val := shiftIn board st.val c
  let cmd ← readPayload (val.sshiftRight (3 * 8)).toInt st.countPk
  let st := { st with val := val }
  match cmd with
  | none => pure (none, if c = newline then .inr 0 else .inl st)
  | some cmd => do
    let r ← execute P SHAKE256 board st cmd
    match r with
    | .inr ret => pure (some cmd, .inr ret)
    | .inl st => pure (some cmd, if c = newline then .inr 0 else .inl st)

/-- `main` up to its command loop. -/
def serialSetup : Dialog Fault UInt8 (SerialState ρ) := do
  let _ ← Dialog.get
  let entropyInput := (List.range 48).map UInt8.ofNat
  Dialog.putAll
    (text "Send data from \"" ++ board.elfName ++ text "\" - " ++ board.algName ++ [newline])
  let rng ← forUpM 0 100 (printRequest board) (board.rng.init entropyInput)
  let _ ← Dialog.get
  pure
    { val := 0
      seed := List.replicate 48 0
      countPk := 0
      m := []
      sm := Arr.empty
      smlen := 0
      pk := Arr.empty
      sk := Arr.empty
      rng := rng }

/-- `main` of KAT_test_Serial_IO.c. -/
def serialMain : Dialog Fault UInt8 Int := do
  let st ← serialSetup board
  Session.loop
    (fun st => do
      let (_, r) ← serialRound P SHAKE256 board st
      pure r)
    st

/-- The commands of the first `n` rounds. -/
def serialCommands : Nat → SerialState ρ → Dialog Fault UInt8 (List Command)
  | 0, _ => pure []
  | n + 1, st => do
    let (cmd, r) ← serialRound P SHAKE256 board st
    match r with
    | .inr _ => pure cmd.toList
    | .inl st => do
      let cmds ← serialCommands n st
      pure (cmd.toList ++ cmds)

end

/-! ## The host -/

/-- `x.find(sub) != -1`. -/
def contains (sub x : List UInt8) : Bool := x.tails.any fun t => sub.isPrefixOf t

/-- `x.startswith(p)`. -/
def startsWith (x : List UInt8) (p : String) : Bool := (text p).isPrefixOf x

/-- `x.split(sep)[1].strip()`. -/
def secondField (sep : UInt8) (x : List UInt8) : Dialog PyError UInt8 (List UInt8) :=
  match (x.splitOn sep)[1]? with
  | none => Dialog.lift (Run.fail .indexError)
  | some y => pure (strip y)

/-- `code.to_bytes(4, 'big')`. -/
def codeBytes (code : UInt8) : List UInt8 := [0, 0, 0, code]

/-- STATE_START: the name of the parameter set. -/
def hostStart : Dialog PyError UInt8 (List UInt8) :=
  Session.loop
    (fun _ => do
      let x ← readline
      let parameter ← secondField 45 x
      pure (if contains (text "KAT_test_Serial_IO.elf") x then .inr parameter else .inl ()))
    ()

/-- STATE_READ_RSQ: the lines of the .req file. -/
def hostRequests : Dialog PyError UInt8 (List (List UInt8)) :=
  Session.loop
    (fun file => do
      let x ← readline
      let file := file ++ [x]
      pure (if contains (text "finished\n") x then .inr file else .inl file))
    []

/-- Send a code and write the answer to the .rsp file. -/
def hostAsk (code : UInt8) (rsp : List (List UInt8)) : Dialog PyError UInt8 (List (List UInt8)) := do
  Dialog.putAll (codeBytes code)
  let x ← readline
  pure (rsp ++ [x])

/-- What the host does for one line of the .req file; the state is the .rsp file. -/
def hostLine (rsp : List (List UInt8)) (line : List UInt8) :
    Dialog PyError UInt8 (List (List UInt8)) :=
  let rsp' := rsp ++ [strip line ++ [newline]]
  if startsWith line "count" then pure rsp'
  else if startsWith line "seed" then do
    let seed ← secondField 61 (strip line)
    match fromHex seed with
    | none => Dialog.lift (Run.fail .valueError)
    | some seed => do
      Dialog.putAll (codeBytes 18)
      Dialog.putAll seed
      pure rsp'
  else if startsWith line "mlen" then pure rsp'
  else if startsWith line "msg" then do
    let msg ← secondField 61 (strip line)
    match fromHex msg with
    | none => Dialog.lift (Run.fail .valueError)
    | some msg => do
      Dialog.putAll [19]
      Dialog.putAll msg
      pure rsp'
  else if startsWith line "pk" then hostAsk 20 rsp
  else if startsWith line "sk" then hostAsk 21 rsp
  else if startsWith line "sml" then hostAsk 22 rsp
  else if startsWith line "sm" then hostAsk 23 rsp
  else if startsWith line "finished" then do
    let _ ← hostAsk 24 rsp
    pure rsp
  else pure rsp

/-- The main loop of KAT_test_Serial_IO.py: the .rsp file. -/
def serialHost : Dialog PyError UInt8 (List (List UInt8)) := do
  let parameter ← hostStart
  let file ← hostRequests
  file.foldlM hostLine [text "# " ++ parameter ++ [newline, newline]]

/-! ## The protocol -/

section

variable (P : Params) (SHAKE256 : Shake) {ρ : Type} (board : Board ρ)

/-- The commands for the seeds and messages that the device has asked for. -/
def requestedCommands : List Command :=
  (forUp 0 100
    (fun i (s : List Command × ρ) =>
      let (seed, st) := board.rng.bytes s.2 48
      let (msg, st) := board.rng.bytes st (33 * (i + 1))
      (s.1 ++ [.seed seed, .msg msg, .pk, .sk, .sml, .sm], st))
    ([], board.rng.init ((List.range 48).map UInt8.ofNat))).1 ++ [.stop]

/-- What a process has sent. -/
def sentBytes (T : List (Act UInt8)) : List UInt8 :=
  T.filterMap fun c => match c with
    | .send b => some b
    | .recv _ => none

/-- What version 1.0 is to guarantee: the two sides never wait for each other before
    the device has printed its last line, and the device executes the requested
    commands in order. -/
structure SerialProtocol : Prop where
  deadlockFree : ∀ c, Network.Reachable (serialMain P SHAKE256 board) serialHost c →
    Network.BothWait (serialMain P SHAKE256 board) serialHost c →
    contains (text "finished from C\n") (sentBytes c.left) = true
  commands : ∀ c, Network.Reachable (serialMain P SHAKE256 board) serialHost c →
    ∀ n cmds V, Session.Ends (serialSetup board >>= serialCommands P SHAKE256 board n) c.left cmds V →
      cmds <+: requestedCommands board

end

section

variable {P : Params} {SHAKE256 : Shake} {ρ : Type} {board : Board ρ}

theorem serialMain_stops : (serialMain P SHAKE256 board).Stops [] .recv :=
  Dialog.stops_bind.mpr (Or.inl (Dialog.stops_bind.mpr (Or.inl Dialog.stops_get)))

theorem readline_stops : readline.Stops [] .recv :=
  Dialog.stops_loop.mpr
    (Dialog.stops_bind.mpr (Or.inl (Dialog.stops_bind.mpr (Or.inl Dialog.stops_get))))

theorem serialHost_stops : serialHost.Stops [] .recv :=
  Dialog.stops_bind.mpr (Or.inl (Dialog.stops_loop.mpr
    (Dialog.stops_bind.mpr (Or.inl (Dialog.stops_bind.mpr (Or.inl readline_stops))))))

theorem bothWait_start :
    Network.BothWait (serialMain P SHAKE256 board) serialHost Config.start :=
  ⟨serialMain_stops, serialHost_stops, rfl, rfl⟩

/-- The two programs never get beyond their first reads. -/
theorem serial_reachable_iff {c : Config UInt8} :
    Network.Reachable (serialMain P SHAKE256 board) serialHost c ↔ c = Config.start := by
  constructor
  · intro h
    induction h with
    | refl => rfl
    | tail _ hstep ih =>
        subst ih
        cases hstep with
        | leftSend h => cases serialMain_stops.unique h
        | rightSend h => cases serialHost_stops.unique h
  · rintro rfl
    exact .refl

end

/-- Whatever the seeds, the messages and the build, both sides wait from the start. -/
theorem not_serialProtocol (P : Params) (SHAKE256 : Shake) {ρ : Type} (board : Board ρ) :
    ¬ SerialProtocol P SHAKE256 board := fun h =>
  absurd (h.deadlockFree Config.start (serial_reachable_iff.mpr rfl) bothWait_start) (by decide)

/-- A board whose generator counts. -/
def toyBoard : Board Nat where
  rng := ⟨fun _ => 0, fun k n => ((List.range n).map fun i => UInt8.ofNat (k + i), k + n)⟩
  elfName := text "KAT_test_Serial_IO.elf"
  algName := text "toy"
  charSigned := true

theorem not_serialProtocol_tiny : ¬ SerialProtocol tiny toyShake toyBoard := by
  intro h
  have hend := h.deadlockFree ⟨[], [], [], []⟩ .refl
    ⟨serialMain_stops, serialHost_stops, rfl, rfl⟩
  exact absurd hend (by decide)

end Meds.Ref
