/-
  Meds.Sage.KatMemory

  The host of a KAT run is a memory for the device.

  A `TestCase` is what the device prints while the host handles one count.
  The scripts say what a memory does: every request is answered with the
  matrix that the device has printed under the same count.  The host looks
  for its answers in files that grow with every count.  While it handles
  count `c` no file has a line of a later count, so the first line that
  starts with `count = c` is that of `c`, and every line of a matrix behind
  it was recorded for `c`.
-/

import Meds.Sage.KatText

namespace Meds.Sage

open Meds.Core Meds.Ref

/-! ## What passes on the line -/

/-- A line that the device prints. -/
def recvLine (l : List UInt8) : List (Act UInt8) := (l ++ [newline]).map .recv

/-- Bytes that the device prints as digits. -/
def recvHex (l : List UInt8) : List (Act UInt8) := recvLine (l.flatMap hex2)

def sendBytes (l : List UInt8) : List (Act UInt8) := l.map .send

/-- What the device prints while the host handles one count: the bytes behind
    the digits, chunk `t` of the signed message being the last one.  At least
    one byte of a secret key is printed, as `write_stream_str` does. -/
structure TestCase where
  seed : List UInt8
  msg : List UInt8
  G0 : List UInt8
  Ainv : Nat → List UInt8
  Binv : Nat → List UInt8
  G : Nat → List UInt8
  sk : List UInt8
  sk_ne : sk ≠ []
  pk : Nat → List UInt8
  sigG0 : List UInt8
  Atilde : Nat → List UInt8
  Btilde : Nat → List UInt8
  sm : Nat → List UInt8
  smlen : Nat

section

variable (reduced : Bool)

/-- G_0 from the memory-reduced build. -/
def askG0 (G0 : List UInt8) : List (Act UInt8) :=
  if reduced then [.recv 0] ++ (recvHex G0 ++ [.send one]) else []

/-- G_0 back to the memory-reduced build. -/
def echoG0 (G0 : List UInt8) : List (Act UInt8) := if reduced then sendBytes G0 else []

/-- The matrices of index `i` of a key. -/
def recordKey (d : TestCase) (i : Nat) : List (Act UInt8) :=
  [.recv 0] ++ (echoG0 reduced d.G0 ++ (recvHex (d.Ainv i) ++ (recvHex (d.Binv i) ++
    (recvHex (d.G i) ++ (echoG0 reduced d.G0 ++ [.send one])))))

/-- A request that is answered with the bytes `M`; the device then says `reply`. -/
def answer (M : List UInt8) (reply : List (Act UInt8)) : List (Act UInt8) :=
  [.recv 0] ++ (sendBytes M ++ (reply ++ [.send one]))

/-- Key generation: the matrices are recorded, then asked for. -/
def keysScript (s : Nat) (d : TestCase) : List (Act UInt8) :=
  (askG0 reduced d.G0 ++ (List.range' 1 (s - 1)).flatMap (recordKey reduced d)) ++
    ((List.range' 1 (s - 1)).flatMap (fun i => answer (d.Ainv i) []) ++
      ((List.range' 1 (s - 1)).flatMap (fun i => answer (d.Binv i) []) ++
        ([.recv 0] ++ (recvLine (text "sk = " ++ d.sk.flatMap hex2) ++ ([.send one] ++
          (List.range' 1 (s - 1)).flatMap fun i => answer (d.G i) (recvHex (d.pk i)))))))

/-- The matrices of commitment `i`. -/
def recordSig (d : TestCase) (i : Nat) : List (Act UInt8) :=
  [.recv 0] ++ (recvHex (d.Atilde i) ++ (recvHex (d.Btilde i) ++
    (echoG0 reduced d.sigG0 ++ [.send one])))

/-- A request for the pair of commitment `i`; the device answers with a chunk. -/
def answerSig (d : TestCase) (i : Nat) : List (Act UInt8) :=
  [.recv 0] ++ (sendBytes (d.Atilde i) ++ (sendBytes (d.Btilde i) ++
    (recvHex (d.sm i) ++ [.send one])))

/-- Signing: the secret key is asked for, the commitments are recorded, then
    asked for. -/
def signScript (t : Nat) (d : TestCase) : List (Act UInt8) :=
  answer d.sk [] ++ (askG0 reduced d.sigG0 ++
    ((List.range' 0 t).flatMap (recordSig reduced d) ++
      ((List.range' 0 t).flatMap (answerSig d) ++
        ([.recv 0] ++ (recvHex (d.sm t) ++ [.send one])))))

/-- The requests of a count, one for each line of the request file. -/
def seedScript (d : TestCase) : List (Act UInt8) := sendBytes (codeBytes 18) ++ sendBytes d.seed

def msgScript (d : TestCase) : List (Act UInt8) :=
  sendBytes (codeBytes 19) ++ ([.recv 0] ++ sendBytes d.msg)

def pkScript (s : Nat) (d : TestCase) : List (Act UInt8) :=
  sendBytes (codeBytes 20) ++ (keysScript reduced s d ++ recvLine (text "pk = DONE"))

def skScript : List (Act UInt8) := sendBytes (codeBytes 21) ++ recvLine (text "sk = DONE")

def smlScript (t : Nat) (d : TestCase) : List (Act UInt8) :=
  sendBytes (codeBytes 22) ++
    (signScript reduced t d ++ recvLine (text "smlen = " ++ decimal d.smlen))

def smScript : List (Act UInt8) := sendBytes (codeBytes 23) ++ recvLine (text "sm = DONE")

/-- All that passes for one count. -/
def caseScript (s t : Nat) (d : TestCase) : List (Act UInt8) :=
  seedScript d ++ (msgScript d ++ (pkScript reduced s d ++ (skScript ++
    (smlScript reduced t d ++ smScript))))

/-- The whole run, for the counts below `N`. -/
def runScript (s t : Nat) (cases : Nat → TestCase) (N : Nat) : List (Act UInt8) :=
  (List.range' 0 N).flatMap (fun c => caseScript reduced s t (cases c)) ++
    (sendBytes (codeBytes 24) ++ recvLine (text "finished from C"))

end

/-- The lines of the request file for one count. -/
def requestLines (c : Nat) (d : TestCase) : List (List UInt8) :=
  [ text "count = " ++ decimal c,
    text "seed = " ++ d.seed.flatMap hex2,
    text "mlen = " ++ decimal d.msg.length,
    text "msg = " ++ d.msg.flatMap hex2,
    text "pk =",
    text "sk =",
    text "smlen =",
    text "sm =",
    [] ]

/-- The request file for the counts below `N`, in increasing order. -/
def requests (cases : Nat → TestCase) (N : Nat) : List UInt8 :=
  unlines newline
    ((List.range' 0 N).flatMap (fun c => requestLines c (cases c)) ++ [text "finished"])

/-! ## What the files hold -/

/-- The line of a count. -/
def countLineOf (c : Nat) : List UInt8 := text "count = " ++ decimal c

section

variable (reduced : Bool)

/-- The line of G_0, from the memory-reduced build. -/
def G0Lines (G0 : List UInt8) : List FileLine := if reduced then [.G0 (G0.flatMap hex2)] else []

/-- The lines that are recorded for index `i` of a key. -/
def keyLines (d : TestCase) (i : Nat) : List FileLine :=
  [ .Ainv i ((d.Ainv i).flatMap hex2),
    .Binv i ((d.Binv i).flatMap hex2),
    .G i ((d.G i).flatMap hex2) ]

/-- What is recorded for the key of a count. -/
def keygenLines (s : Nat) (d : TestCase) : List (List UInt8) :=
  (G0Lines reduced d.G0 ++ (List.range' 1 (s - 1)).flatMap (keyLines d)).map fileLine

/-- The lines of commitment `i`. -/
def commitLines (d : TestCase) (i : Nat) : List (List UInt8) :=
  [ text "A_tilde_data " ++ decimal i ++ text " = " ++ (d.Atilde i).flatMap hex2,
    text "B_tilde_data " ++ decimal i ++ text " = " ++ (d.Btilde i).flatMap hex2 ]

/-- What is recorded for the signature of a count. -/
def sigLines (t : Nat) (d : TestCase) : List (List UInt8) :=
  (G0Lines reduced d.sigG0).map fileLine ++ (List.range' 0 t).flatMap (commitLines d)

end

/-- The lines of the response file between the count and the secret key. -/
def rspHead (s : Nat) (d : TestCase) : List (List UInt8) :=
  [ strip (text "seed = " ++ d.seed.flatMap hex2 ++ [newline]),
    strip (text "mlen = " ++ decimal d.msg.length ++ [newline]),
    strip (text "msg = " ++ d.msg.flatMap hex2 ++ [newline]),
    text "pk = " ++ ((List.range' 1 (s - 1)).map fun i => (d.pk i).flatMap hex2).flatten ]

/-- The line of the secret key. -/
def skFileLine (d : TestCase) : List UInt8 := text "sk = " ++ d.sk.flatMap hex2

/-- What the device has sent of the signed message. -/
def smReplies (t : Nat) (d : TestCase) : List (List UInt8) :=
  (List.range' 0 t).map (fun i => (d.sm i).flatMap hex2) ++ [(d.sm t).flatMap hex2]

/-- The lines of the response file behind the count. -/
def rspLines (s t : Nat) (d : TestCase) : List (List UInt8) :=
  rspHead s d ++
    [ skFileLine d,
      text "smlen = " ++ decimal d.smlen,
      text "sm = " ++ ((smReplies t d).filter fun x => 2 < x.length).flatten ]

/-- A file after the counts below `c`, where `r j` was recorded for count `j`. -/
def history (r : Nat → List (List UInt8)) (c : Nat) : List (List UInt8) :=
  (List.range' 0 c).flatMap fun j => countLineOf j :: r j

/-! ## Recorded lines -/

section

variable {reduced : Bool} {c : Nat}

/-- A line of a file that is not that of a count. -/
structure Entry (l : List UInt8) : Prop where
  newline_notMem : newline ∉ l
  not_count : startsWith (l ++ [newline]) "count = " = false

theorem Entry.startsCount {l : List UInt8} (h : Entry l) (c : Nat) :
    startsCount c (l ++ [newline]) = false :=
  startsCount_of_not_startsWith h.not_count c

theorem flatMap_range'_succ {α : Type} (f : Nat → List α) (n : Nat) :
    (List.range' 0 (n + 1)).flatMap f = (List.range' 0 n).flatMap f ++ f n := by
  rw [List.range'_1_concat, List.flatMap_append, List.flatMap_singleton, Nat.zero_add]

theorem history_succ (r : Nat → List (List UInt8)) (c : Nat) :
    history r (c + 1) = history r c ++ countLineOf c :: r c :=
  flatMap_range'_succ _ c

theorem newline_notMem_countLineOf (c : Nat) : newline ∉ countLineOf c :=
  newline_notMem_field (by decide) (newline_notMem_decimal c)

theorem newline_notMem_history {r : Nat → List (List UInt8)} (hr : ∀ j, ∀ l ∈ r j, Entry l) :
    ∀ l ∈ history r c, newline ∉ l := by
  intro l hl
  obtain ⟨j, -, hl⟩ := List.mem_flatMap.mp hl
  rcases List.mem_cons.mp hl with rfl | hl
  · exact newline_notMem_countLineOf j
  · exact (hr j l hl).newline_notMem

/-- No line before count `c` is taken for that of `c`. -/
theorem startsCount_history {r : Nat → List (List UInt8)} (hr : ∀ j, ∀ l ∈ r j, Entry l) :
    ∀ l ∈ history r c, startsCount c (l ++ [newline]) = false := by
  intro l hl
  obtain ⟨j, hj, hl⟩ := List.mem_flatMap.mp hl
  rw [List.mem_range'_1] at hj
  rcases List.mem_cons.mp hl with rfl | hl
  · exact startsCount_of_lt (by omega)
  · exact (hr j l hl).startsCount c

theorem newline_notMem_indexed {name : String} (hname : newline ∉ text name) (i : Nat)
    (l : List UInt8) :
    newline ∉ text name ++ decimal i ++ text " = " ++ l.flatMap hex2 := by
  intro h
  rw [List.append_assoc] at h
  rcases List.mem_append.mp h with h | h
  · exact newline_notMem_field hname (newline_notMem_decimal i) h
  · exact newline_notMem_field (by decide) (newline_notMem_hex2 l) h

theorem entry_Ainv (i : Nat) (l : List UInt8) : Entry (fileLine (.Ainv i (l.flatMap hex2))) :=
  ⟨newline_notMem_indexed (by decide) i l, rfl⟩

theorem entry_Binv (i : Nat) (l : List UInt8) : Entry (fileLine (.Binv i (l.flatMap hex2))) :=
  ⟨newline_notMem_indexed (by decide) i l, rfl⟩

theorem entry_G (i : Nat) (l : List UInt8) : Entry (fileLine (.G i (l.flatMap hex2))) :=
  ⟨newline_notMem_indexed (by decide) i l, rfl⟩

/-- A line of digits behind a text. -/
theorem entry_hex {name : String} (hname : newline ∉ text name)
    (hcount : ∀ x, startsWith (text name ++ x) "count = " = false) (l : List UInt8) :
    Entry (text name ++ l.flatMap hex2) where
  newline_notMem := newline_notMem_field hname (newline_notMem_hex2 l)
  not_count := by
    rw [List.append_assoc]
    exact hcount _

theorem entry_G0 (l : List UInt8) : Entry (fileLine (.G0 (l.flatMap hex2))) :=
  entry_hex (by decide) (fun _ => rfl) l

theorem entry_G0Lines {G0 : List UInt8} : ∀ l ∈ (G0Lines reduced G0).map fileLine, Entry l := by
  intro l hl
  cases reduced with
  | false => exact absurd hl List.not_mem_nil
  | true =>
      obtain rfl := List.mem_singleton.mp hl
      exact entry_G0 G0

end

end Meds.Sage
