/-
  Meds.Ref.Wire

  The bytes on the serial line: the streams of ref/util.c on the device, and
  what the Python scripts of sage-ref do with the line.

  Everything the device prints is ASCII, so a text is the list of its bytes
  and `decode('utf-8')` is the identity on it.
-/

import Mathlib.Tactic.IntervalCases
import Meds.Core.Network
import Meds.Ref.Stream

namespace Meds.Ref

open Meds.Core

/-! ## Texts -/

/-- The bytes of an ASCII text. -/
def text (s : String) : List UInt8 := s.toList.map fun c => UInt8.ofNat c.toNat

/-- `'\n'`. -/
def newline : UInt8 := 10

/-- `"%d"` of a nonnegative number. -/
def decimal (n : Nat) : List UInt8 := text (Nat.repr n)

/-- One digit of `"%X"`. -/
def hexDigit (n : Nat) : UInt8 := UInt8.ofNat (if n < 10 then 48 + n else 55 + n)

/-- `"%02X"`. -/
def hex2 (b : UInt8) : List UInt8 := [hexDigit (b.toNat / 16), hexDigit (b.toNat % 16)]

/-- The two bytes of an entry, high byte first. -/
def entryBytes (v : UInt16) : List UInt8 := [UInt8.ofNat (v.toNat / 256), UInt8.ofNat v.toNat]

/-- `"%04X"`. -/
def hex4 (v : UInt16) : List UInt8 := (entryBytes v).flatMap hex2

/-- The value of one digit for `bytes.fromhex`. -/
def hexValue (c : UInt8) : Option Nat :=
  if 48 ≤ c.toNat ∧ c.toNat ≤ 57 then some (c.toNat - 48)
  else if 65 ≤ c.toNat ∧ c.toNat ≤ 70 then some (c.toNat - 55)
  else if 97 ≤ c.toNat ∧ c.toNat ≤ 102 then some (c.toNat - 87)
  else none

/-- Python's ASCII white space: `\t\n\v\f\r` and the blank. -/
def isSpace (c : UInt8) : Bool := (9 ≤ c.toNat ∧ c.toNat ≤ 13) ∨ c.toNat = 32

/-- `bytes.fromhex`, which skips white space between the bytes; `none` where it
    raises ValueError. -/
def fromHex : List UInt8 → Option (List UInt8)
  | [] => some []
  | c :: cs =>
    if isSpace c then fromHex cs
    else
      match cs with
      | [] => none
      | c' :: cs => do
        let hi ← hexValue c
        let lo ← hexValue c'
        let rest ← fromHex cs
        pure (UInt8.ofNat (16 * hi + lo) :: rest)

/-- `strip()`. -/
def strip (l : List UInt8) : List UInt8 :=
  ((l.dropWhile isSpace).reverse.dropWhile isSpace).reverse

theorem hexValue_hexDigit {n : Nat} (hn : n < 16) : hexValue (hexDigit n) = some n := by
  interval_cases n <;> decide

theorem isSpace_hexDigit {n : Nat} (hn : n < 16) : isSpace (hexDigit n) = false := by
  interval_cases n <;> decide

theorem hexDigit_ne_newline {n : Nat} (hn : n < 16) : hexDigit n ≠ newline := by
  interval_cases n <;> decide

/-- What is printed with `"%02X"` is read back. -/
theorem fromHex_hex2 (l : List UInt8) : fromHex (l.flatMap hex2) = some l := by
  induction l with
  | nil => rfl
  | cons b l ih =>
      have hb := b.toNat_lt
      have hhi : b.toNat / 16 < 16 := by omega
      have hlo : b.toNat % 16 < 16 := by omega
      rw [List.flatMap_cons, hex2, List.cons_append, List.cons_append, List.nil_append, fromHex,
        isSpace_hexDigit hhi]
      simp only [Bool.false_eq_true, if_false, hexValue_hexDigit hhi, hexValue_hexDigit hlo, ih,
        Option.bind_eq_bind, Option.bind_some, Option.pure_def, Nat.div_add_mod, UInt8.ofNat_toNat]

theorem mem_hex2 {l : List UInt8} {c : UInt8} (hc : c ∈ l.flatMap hex2) :
    ∃ n, n < 16 ∧ c = hexDigit n := by
  obtain ⟨b, -, hb⟩ := List.mem_flatMap.mp hc
  have hlt := b.toNat_lt
  simp only [hex2, List.mem_cons, List.not_mem_nil, or_false] at hb
  rcases hb with rfl | rfl
  · exact ⟨_, by omega, rfl⟩
  · exact ⟨_, by omega, rfl⟩

/-- Nothing is stripped from digits but the line break behind them. -/
theorem strip_hex2 (l : List UInt8) : strip (l.flatMap hex2 ++ [newline]) = l.flatMap hex2 := by
  have hnone : ∀ l' : List UInt8, (∀ c ∈ l', ∃ n, n < 16 ∧ c = hexDigit n) →
      l'.dropWhile isSpace = l' := by
    intro l' hl'
    cases l' with
    | nil => rfl
    | cons c l' =>
        obtain ⟨n, hn, rfl⟩ := hl' c List.mem_cons_self
        rw [List.dropWhile_cons, isSpace_hexDigit hn]
        rfl
  have hall : ∀ c ∈ l.flatMap hex2, ∃ n, n < 16 ∧ c = hexDigit n := fun c hc => mem_hex2 hc
  have hfront : (l.flatMap hex2 ++ [newline]).dropWhile isSpace
      = (l.flatMap hex2).dropWhile isSpace ++ if l.flatMap hex2 = [] then [] else [newline] := by
    cases hl : l.flatMap hex2 with
    | nil => rfl
    | cons c l' =>
        obtain ⟨n, hn, rfl⟩ := hall c (by rw [hl]; exact List.mem_cons_self)
        rw [List.cons_append, List.dropWhile_cons, List.dropWhile_cons, isSpace_hexDigit hn]
        rfl
  rw [strip, hfront, hnone _ hall]
  have hback := hnone (l.flatMap hex2).reverse fun c hc => hall c (List.mem_reverse.mp hc)
  split
  · rw [List.append_nil, hback, List.reverse_reverse]
  · rw [List.reverse_append, List.reverse_singleton, List.singleton_append, List.dropWhile_cons,
      if_pos (by decide), hback, List.reverse_reverse]

/-! ## The device -/

/-- `write_stream`. -/
def writeStream (M : Arr UInt16) (L : Nat) : Dialog Fault UInt8 Unit := do
  forUpM 0 L (fun i _ => Dialog.putAll (hex4 (M.get i))) ()
  Dialog.put newline

/-- `read_stream`; the second byte of an entry is read through `data_tmp[1]`. -/
def readStream (L : Nat) : Dialog Fault UInt8 (Arr UInt16) :=
  forUpM 0 L
    (fun i M => do
      let hi ← Dialog.get
      let lo ← Dialog.get
      pure (M.set i (UInt16.ofNat (hi.toNat * 256 ||| lo.toNat))))
    Arr.empty

/-- `write_stream_str` -/
def writeStreamStr (S : String) (A : List UInt8) : Dialog Fault UInt8 Unit := do
  Dialog.putAll (text S)
  Dialog.putAll (if A = [] then text "00" else A.flatMap hex2)
  Dialog.put newline

/-- `read_stream_str`. -/
def readStreamStr (L : Nat) : Dialog Fault UInt8 (List UInt8) :=
  forUpM 0 L
    (fun _ A => do
      let c ← Dialog.get
      pure (A ++ [c]))
    []

/-- The device on the line. -/
def serialHal : Hal (Dialog Fault UInt8) where
  putchar := Dialog.put
  getchar := Dialog.get
  writeStream := writeStream
  readStream := readStream
  writeStreamStr := writeStreamStr
  readStreamStr := readStreamStr
  run := Dialog.lift
  loop := Session.loop

/-- The bytes of a matrix, as the host sends them. -/
def matrixBytes (M : Arr UInt16) (L : Nat) : List UInt8 := (M.slice 0 L).flatMap entryBytes

/-- The line that `write_stream` prints. -/
def matrixLine (M : Arr UInt16) (L : Nat) : List UInt8 := (matrixBytes M L).flatMap hex2

theorem speaks_writeStream (M : Arr UInt16) (L : Nat) :
    (writeStream M L).Speaks ((matrixLine M L ++ [newline]).map .send) () := by
  have hloop := Dialog.speaks_forUpM (ε := Fault)
    (f := fun i (_ : Unit) => Dialog.putAll (hex4 (M.get i))) (fun _ => ())
    (fun i => (hex4 (M.get i)).map .send) (Nat.zero_le L)
    fun i _ _ => Dialog.speaks_putAll (hex4 (M.get i))
  have hline : (List.range' 0 (L - 0)).flatMap (fun i => (hex4 (M.get i)).map Act.send)
      = (matrixLine M L).map .send := by
    rw [Nat.sub_zero, ← List.range_eq_range', matrixLine, matrixBytes, Arr.slice, List.map_flatMap,
      List.flatMap_assoc, List.flatMap_map]
    simp only [Nat.zero_add, hex4, List.map_flatMap]
  rw [hline] at hloop
  rw [List.map_append]
  exact hloop.bind (Dialog.speaks_put newline)

theorem entry_of_bytes (v : UInt16) :
    UInt16.ofNat ((UInt8.ofNat (v.toNat / 256)).toNat * 256 ||| (UInt8.ofNat v.toNat).toNat) = v := by
  have hv := v.toNat_lt
  have hhi : (UInt8.ofNat (v.toNat / 256)).toNat = v.toNat / 256 :=
    UInt8.toNat_ofNat_of_lt' (by simp only [UInt8.size]; omega)
  have hlo : (UInt8.ofNat v.toNat).toNat = v.toNat % 256 := UInt8.toNat_ofNat'
  rw [hhi, hlo, ← Nat.shiftLeft_eq (v.toNat / 256) 8,
    ← Nat.shiftLeft_add_eq_or_of_lt (Nat.mod_lt _ (by decide)), Nat.shiftLeft_eq]
  rw [show v.toNat / 256 * 2 ^ 8 + v.toNat % 256 = v.toNat by omega, UInt16.ofNat_toNat]

theorem setCell_length {α : Type} [Inhabited α] (l : List α) (v : α) :
    Arr.setCell l l.length v = l ++ [v] := by
  induction l with
  | nil => rfl
  | cons x l ih => rw [List.length_cons, Arr.setCell, ih, List.cons_append]

theorem set_slice (M : Arr UInt16) (i : Nat) :
    (⟨M.slice 0 i⟩ : Arr UInt16).set i (M.get i) = ⟨M.slice 0 (i + 1)⟩ := by
  have hset := setCell_length (M.slice 0 i) (M.get i)
  rw [Arr.length_slice] at hset
  rw [Arr.set, hset, Arr.slice_add]
  simp [Arr.slice]

/-- The bytes of a matrix, entry by entry. -/
theorem flatMap_entryBytes (M : Arr UInt16) (L : Nat) :
    (List.range' 0 (L - 0)).flatMap (fun i => (entryBytes (M.get i)).map Act.recv)
      = (matrixBytes M L).map .recv := by
  rw [Nat.sub_zero, ← List.range_eq_range', matrixBytes, Arr.slice, List.map_flatMap,
    List.flatMap_map]
  simp only [Nat.zero_add]

/-- The device reads back what it has sent. -/
theorem speaks_readStream (M : Arr UInt16) (L : Nat) :
    (readStream L).Speaks ((matrixBytes M L).map .recv) ⟨M.slice 0 L⟩ := by
  have hloop := Dialog.speaks_forUpM (ε := Fault)
    (f := fun i (N : Arr UInt16) => do
      let hi ← Dialog.get
      let lo ← Dialog.get
      pure (N.set i (UInt16.ofNat (hi.toNat * 256 ||| lo.toNat))))
    (fun i => ⟨M.slice 0 i⟩) (fun i => (entryBytes (M.get i)).map .recv) (Nat.zero_le L)
    fun i _ _ => by
      refine (Dialog.speaks_get _).bind ((Dialog.speaks_get _).bind_pure ?_)
      rw [entry_of_bytes, set_slice]
      exact Dialog.speaks_pure _
  rwa [flatMap_entryBytes] at hloop

/-! ## The host -/

/-- The exceptions of the Python scripts. -/
inductive PyError where
  | valueError
  | indexError
deriving DecidableEq, Repr

/-- One byte of a line. -/
def readlineRound (acc : List UInt8) : Dialog PyError UInt8 (List UInt8 ⊕ List UInt8) := do
  let c ← Dialog.get
  pure (if c = newline then .inr (acc ++ [c]) else .inl (acc ++ [c]))

/-- `dev.readline()`. -/
def readline : Dialog PyError UInt8 (List UInt8) := Session.loop readlineRound []

/-- `dev.readline().strip().decode('utf-8')`. -/
def readLine : Dialog PyError UInt8 (List UInt8) := do
  let x ← readline
  pure (strip x)

/-- `for byte in bytes.fromhex(s): dev.write(bytes([byte]))`. -/
def sendHex (s : List UInt8) : Dialog PyError UInt8 Unit :=
  match fromHex s with
  | none => Dialog.lift (Run.fail .valueError)
  | some l => Dialog.putAll l

theorem speaks_readlineRound (acc : List UInt8) (c : UInt8) :
    (readlineRound acc).Speaks [.recv c]
      (if c = newline then .inr (acc ++ [c]) else .inl (acc ++ [c])) :=
  (Dialog.speaks_get c).bind_pure (Dialog.speaks_pure _)

theorem speaks_readline {l : List UInt8} (hl : newline ∉ l) :
    readline.Speaks ((l ++ [newline]).map .recv) (l ++ [newline]) := by
  have key : ∀ l acc : List UInt8, newline ∉ l →
      Dialog.Speaks (Session.loop readlineRound acc) ((l ++ [newline]).map .recv)
        (acc ++ l ++ [newline]) := by
    intro l
    induction l with
    | nil =>
        intro acc _
        have hround := speaks_readlineRound acc newline
        rw [if_pos rfl] at hround
        rw [List.append_nil]
        exact Dialog.speaks_loop_break hround
    | cons c l ih =>
        intro acc hl
        obtain ⟨hc, hl⟩ := not_or.mp fun h => hl (List.mem_cons.mpr h)
        have hround := speaks_readlineRound acc c
        rw [if_neg (Ne.symm hc)] at hround
        have := Dialog.speaks_loop_continue hround (ih (acc ++ [c]) hl)
        simpa using this
  have := key l [] hl
  rwa [List.nil_append] at this

theorem newline_notMem_hex2 (l : List UInt8) : newline ∉ l.flatMap hex2 := by
  intro h
  obtain ⟨n, hn, hc⟩ := mem_hex2 h
  exact hexDigit_ne_newline hn hc.symm

/-- The host reads a line of digits. -/
theorem speaks_readLine_hex (l : List UInt8) :
    readLine.Speaks ((l.flatMap hex2 ++ [newline]).map .recv) (l.flatMap hex2) := by
  refine (speaks_readline (newline_notMem_hex2 l)).bind_pure ?_
  rw [strip_hex2]
  exact Dialog.speaks_pure _

/-- The host sends the bytes that digits stand for. -/
theorem speaks_sendHex_hex (l : List UInt8) :
    (sendHex (l.flatMap hex2)).Speaks (l.map .send) () := by
  rw [sendHex, fromHex_hex2]
  exact Dialog.speaks_putAll l

/-- The host reads the line of a matrix. -/
theorem speaks_readLine (M : Arr UInt16) (L : Nat) :
    readLine.Speaks ((matrixLine M L ++ [newline]).map .recv) (matrixLine M L) :=
  speaks_readLine_hex (matrixBytes M L)

/-- The host sends the bytes of a matrix it has read. -/
theorem speaks_sendHex (M : Arr UInt16) (L : Nat) :
    (sendHex (matrixLine M L)).Speaks ((matrixBytes M L).map .send) () :=
  speaks_sendHex_hex (matrixBytes M L)

end Meds.Ref
