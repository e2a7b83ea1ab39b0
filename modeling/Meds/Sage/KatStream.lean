/-
  Meds.Sage.KatStream

  sage-ref/KAT_test_Stream.py: the host of a KAT run, from the request file on.

  The host keeps what the device sends in three text files and answers the
  device from them: a file is read from its start for every answer, from the
  line of the current count on.  A file that was read to its end is written
  on at its end.  `print` is left out.
-/

import Meds.Core.Lines
import Meds.Ref.KeygenDialog
import Meds.Ref.SerialIO

namespace Meds.Sage

open Meds.Core Meds.Ref

/-! ## Files -/

/-- `for line in FILE:` -/
def fileLines (file : List UInt8) : List (List UInt8) := lines newline file

/-- The line that is written for a matrix of key generation. -/
def fileLine : FileLine → List UInt8
  | .G0 data => text "G0_data = " ++ data
  | .Ainv i data => text "A_inv_data " ++ decimal i ++ text " = " ++ data
  | .Binv i data => text "B_inv_data " ++ decimal i ++ text " = " ++ data
  | .G i data => text "G_data " ++ decimal i ++ text " = " ++ data

/-- `line.startswith(f"count = {count_line}")` -/
def startsCount (countLine : Nat) (line : List UInt8) : Bool :=
  (text "count = " ++ decimal countLine).isPrefixOf line

/-- Send the bytes of `line.strip().split('=')[1].strip()`. -/
def sendField (line : List UInt8) : Dialog Ref.PyError UInt8 Unit := do
  let data ← secondField 61 (strip line)
  sendHex data

/-- The variables of a loop over a file: `found`, the line counter and what the
    device has printed. -/
structure Scan where
  found : Bool
  count : Nat
  replies : List (List UInt8)

/-! ## do_get_data_from_keygen -/

/-- One line of the loops that look for the matrices called `name`. -/
def scanLine (countLine last : Nat) (name : String)
    (reply : Dialog Ref.PyError UInt8 (List (List UInt8))) (s : Scan) (line : List UInt8) :
    Dialog Ref.PyError UInt8 Scan :=
  let found := startsCount countLine line || s.found
  if found && startsWith line name then do
    let _ ← Dialog.get
    sendField line
    let replies ← reply
    Dialog.put one
    pure
      { found := s.count + 1 ≠ last
        count := s.count + 1
        replies := s.replies ++ replies }
  else pure { s with found := found }

/-- `pk = dev.readline().strip().decode('utf-8')` -/
def readReply : Dialog Ref.PyError UInt8 (List (List UInt8)) := do
  let x ← readLine
  pure [x]

/-- `do_get_data_from_keygen`: sk_data, pk_data and the file. -/
def doGetDataFromKeygen (reduced : Bool) (s : Nat) (file : List UInt8) (countLine : Nat) :
    Dialog Ref.PyError UInt8 (List UInt8 × List (List UInt8) × List UInt8) := do
  let recorded ← Ref.doGetDataFromKeygen reduced s
  let file := file ++ unlines newline (recorded.map fileLine)
  let a ←
    (fileLines file).foldlM (scanLine countLine (s - 1) "A_inv_data" (pure []))
      { found := false, count := 0, replies := [] }
  let b ←
    (fileLines file).foldlM (scanLine countLine (s - 1) "B_inv_data" (pure []))
      { found := a.found, count := 0, replies := [] }
  let _ ← Dialog.get
  let sk ← readLine
  Dialog.put one
  let g ←
    (fileLines file).foldlM (scanLine countLine (s - 1) "G_data" readReply)
      { found := b.found, count := 0, replies := [] }
  pure (sk, g.replies, file)

/-! ## do_get_data_from_sig -/

/-- One line of the loop that looks for the secret key; the state is `found`. -/
def skLine (countLine : Nat) (found : Bool) (line : List UInt8) : Dialog Ref.PyError UInt8 Bool :=
  let found := startsCount countLine line || found
  if found && startsWith line "sk = " then do
    let sk ← secondField 61 (strip line)
    let _ ← Dialog.get
    sendHex sk
    Dialog.put one
    pure false
  else pure found

/-- Round `i` of the loop that records the commitment matrices. -/
def sigIndex (reduced : Bool) (G0 : List UInt8) (i : Nat) (file : List UInt8) :
    Dialog Ref.PyError UInt8 (List UInt8) := do
  let _ ← Dialog.get
  let Atilde ← readLine
  let Btilde ← readLine
  sendBack reduced G0
  Dialog.put one
  pure
    (file ++ unlines newline
      [ text "A_tilde_data " ++ decimal i ++ text " = " ++ Atilde,
        text "B_tilde_data " ++ decimal i ++ text " = " ++ Btilde ])

/-- One line of the loop that looks for the commitment matrices. -/
def sigLine (countLine t : Nat) (s : Scan) (line : List UInt8) : Dialog Ref.PyError UInt8 Scan :=
  let found := startsCount countLine line || s.found
  if found then do
    if startsWith line "A_tilde_data" then do
      let _ ← Dialog.get
      sendField line
    else pure ()
    if startsWith line "B_tilde_data" then do
      sendField line
      let sm ← readLine
      Dialog.put one
      -- this many lines are never there
      if s.count + 1 = t + 1 then
        pure { found := false, count := 0, replies := s.replies ++ [sm] }
      else pure { found := true, count := s.count + 1, replies := s.replies ++ [sm] }
    else pure { s with found := true }
  else pure { s with found := false }

/-- `do_get_data_from_sig`: sm_data and the file of the commitment matrices. -/
def doGetDataFromSig (reduced : Bool) (t : Nat) (rsq : List UInt8) (countLine : Nat)
    (file : List UInt8) : Dialog Ref.PyError UInt8 (List (List UInt8) × List UInt8) := do
  let found ← (fileLines rsq).foldlM (skLine countLine) false
  let (G0, recorded) ← hostKeygenStart reduced
  let file := file ++ unlines newline (recorded.map fileLine)
  let file ← forUpM 0 t (sigIndex reduced G0) file
  let s ←
    (fileLines file).foldlM (sigLine countLine t) { found := found, count := 0, replies := [] }
  let _ ← Dialog.get
  let sm ← readLine
  Dialog.put one
  pure (s.replies ++ [sm], file)

/-! ## The main loop -/

/-- The variables of STATE_READ_RSP. -/
structure HostState where
  countLine : Nat
  keygen : List UInt8
  sig : List UInt8
  rsp : List UInt8
  sk : List UInt8
  pk : List (List UInt8)
  sm : List (List UInt8)

/-- `bytes.fromhex(line.split('=')[1].strip())` -/
def hexField (line : List UInt8) : Dialog Ref.PyError UInt8 (List UInt8) := do
  let data ← secondField 61 line
  match fromHex data with
  | none => Dialog.lift (Run.fail .valueError)
  | some data => pure data

/-- What the host does for one line of the request file. -/
def readRspLine (reduced : Bool) (s t : Nat) (st : HostState) (line : List UInt8) :
    Dialog Ref.PyError UInt8 HostState :=
  let copy := strip line ++ [newline]
  if startsWith line "count" then
    pure { st with
      countLine := st.countLine + 1
      keygen := st.keygen ++ copy
      sig := st.sig ++ copy
      rsp := st.rsp ++ copy }
  else if startsWith line "seed" then do
    let seed ← hexField (strip line)
    Dialog.putAll (codeBytes 18)
    Dialog.putAll seed
    pure { st with rsp := st.rsp ++ copy }
  else if startsWith line "mlen" then pure { st with rsp := st.rsp ++ copy }
  else if startsWith line "msg" then do
    let msg ← hexField (strip line)
    Dialog.putAll (codeBytes 19)
    let _ ← Dialog.get
    Dialog.putAll msg
    pure { st with rsp := st.rsp ++ copy }
  else if startsWith line "pk" then do
    Dialog.putAll (codeBytes 20)
    let (sk, pk, keygen) ← doGetDataFromKeygen reduced s st.keygen (st.countLine - 1)
    let _ ← readline
    pure { st with
      keygen := keygen
      rsp := st.rsp ++ text "pk = " ++ pk.flatten ++ [newline]
      sk := sk
      pk := pk }
  else if startsWith line "sk" then do
    Dialog.putAll (codeBytes 21)
    let _ ← readline
    pure { st with rsp := st.rsp ++ st.sk ++ [newline] }
  else if startsWith line "sml" then do
    Dialog.putAll (codeBytes 22)
    let (sm, sig) ← doGetDataFromSig reduced t st.rsp (st.countLine - 1) st.sig
    let sml ← readline
    pure { st with
      sig := sig
      rsp := st.rsp ++ sml
      sm := sm }
  else if startsWith line "sm" then do
    Dialog.putAll (codeBytes 23)
    let _ ← readline
    pure { st with
      rsp := st.rsp ++ text "sm = " ++ (st.sm.filter fun x => 2 < x.length).flatten ++ [newline] }
  else if startsWith line "finished" then do
    Dialog.putAll (codeBytes 24)
    let _ ← readline
    pure st
  else pure st

/-- STATE_READ_RSP, on the contents of the request file. -/
def readRsp (reduced : Bool) (s t : Nat) (parameter req : List UInt8) :
    Dialog Ref.PyError UInt8 HostState :=
  (fileLines req).foldlM (readRspLine reduced s t)
    { countLine := 0
      keygen := []
      sig := []
      rsp := text "# " ++ parameter ++ [newline, newline]
      sk := []
      pk := []
      sm := [] }

end Meds.Sage
