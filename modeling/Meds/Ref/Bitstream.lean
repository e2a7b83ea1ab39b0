/-
  Meds.Ref.Bitstream

  ref/bitstream.c.  A `bitstream_t` is a cursor (byte and bit position) over
  a buffer of `bufLen` bytes; the buffer itself is the memory passed beside
  it, a writable array for `bs_write` and the readable cells of an object
  for `bs_read` (`none` is an address outside the object).

  Positions are `uint32_t` in the source.  Buffers stay below 4 GiB, so the
  positions themselves never wrap; the product in the range check does, and
  is taken modulo 2^32.
-/

import Meds.Core.Bits
import Meds.Core.Loop

namespace Meds.Ref

open Meds.Core

/-- `bitstream_t` without its data pointer; both positions are below 2^32. -/
structure BitstreamT where
  bufLen : Nat
  bytePos : Nat
  bitPos : Nat
deriving DecidableEq, Repr

def bsInit (bufLen : Nat) : BitstreamT := ⟨bufLen, 0, 0⟩

/-- Advance to the next byte boundary (the returned byte index is unused). -/
def bsFinalize (bs : BitstreamT) : BitstreamT :=
  { bs with bytePos := bs.bytePos + (if bs.bitPos > 0 then 1 else 0), bitPos := 0 }

/-- The range check shared by `bs_write` and `bs_read`, in `uint32_t` arithmetic. -/
def BitstreamT.exceeds (bs : BitstreamT) (dataLen : Nat) : Bool :=
  (bs.bytePos * 8 + bs.bitPos + dataLen) % 2 ^ 32 > bs.bufLen * 8

/-- The whole-byte loop of `bs_write`: (buffer, byte position, rest of the
    value, rest of the length). -/
def bsWriteBytes (s : Arr UInt8 × Nat × Nat × Nat) : Arr UInt8 × Nat × Nat × Nat :=
  iterWhile (fun (_, _, _, len) => len ≥ 8)
    (fun (buf, bytePos, data, len) =>
      (buf.set bytePos (UInt8.ofNat (data &&& 0xFF)), bytePos + 1, data >>> 8, len - 8))
    s.2.2.2 s

def bsWrite (buf : Arr UInt8) (bs : BitstreamT) (data dataLen : Nat) :
    Int × Arr UInt8 × BitstreamT :=
  if bs.exceeds dataLen then (-1, buf, bs)
  else if bs.bitPos + dataLen < 8 then
    let buf := buf.set bs.bytePos
      (UInt8.ofNat ((buf.get bs.bytePos).toNat ||| data <<< bs.bitPos))
    let bitPos := bs.bitPos + dataLen
    if bitPos > 7 then (0, buf, { bs with bytePos := bs.bytePos + 1, bitPos := 0 })
    else (0, buf, { bs with bitPos := bitPos })
  else
    let (buf, bytePos, data, dataLen) :=
      if bs.bitPos > 0 then
        (buf.set bs.bytePos
            (UInt8.ofNat ((buf.get bs.bytePos).toNat ||| (data <<< bs.bitPos &&& 0xFF))),
          bs.bytePos + 1, data >>> (8 - bs.bitPos), dataLen - (8 - bs.bitPos))
      else (buf, bs.bytePos, data, dataLen)
    let (buf, bytePos, data, dataLen) := bsWriteBytes (buf, bytePos, data, dataLen)
    if dataLen > 0 then
      (0, buf.set bytePos (UInt8.ofNat data), { bs with bytePos := bytePos, bitPos := dataLen })
    else (0, buf, { bs with bytePos := bytePos, bitPos := 0 })

/-- A `bs_write` statement: every caller drops the returned status. -/
def bsPut (dataLen : Nat) (s : Arr UInt8 × BitstreamT) (data : Nat) : Arr UInt8 × BitstreamT :=
  (bsWrite s.1 s.2 data dataLen).2

/-- The whole-byte loop of `bs_read`: value, offset, byte position, length left. -/
def bsReadBytes (mem : Nat → Option UInt8) :
    Nat → Nat × Nat × Nat × Nat → Option (Nat × Nat × Nat × Nat)
  | 0, s => some s
  | fuel + 1, (data, off, bytePos, len) =>
    if len ≥ 8 then do
      let x ← mem bytePos
      bsReadBytes mem fuel (data ||| x.toNat <<< off, off + 8, bytePos + 1, len - 8)
    else some (data, off, bytePos, len)

/-- `bs_read`; `none` when it touches an address outside the object. -/
def bsRead (mem : Nat → Option UInt8) (bs : BitstreamT) (dataLen : Nat) :
    Option (Nat × BitstreamT) :=
  if bs.exceeds dataLen then some (2 ^ 32 - 1, bs)
  else if bs.bitPos + dataLen < 8 then do
    let x ← mem bs.bytePos
    let data := (x.toNat >>> bs.bitPos) &&& (1 <<< dataLen - 1)
    let bitPos := bs.bitPos + dataLen
    if bitPos > 7 then some (data, { bs with bytePos := bs.bytePos + 1, bitPos := 0 })
    else some (data, { bs with bitPos := bitPos })
  else do
    let s ←
      if bs.bitPos > 0 then do
        let x ← mem bs.bytePos
        some (x.toNat >>> bs.bitPos, 8 - bs.bitPos, bs.bytePos + 1, dataLen - (8 - bs.bitPos))
      else some (0, 0, bs.bytePos, dataLen)
    let (data, off, bytePos, dataLen) ← bsReadBytes mem s.2.2.2 s
    if dataLen > 0 then do
      let x ← mem bytePos
      some (data ||| (x.toNat &&& (1 <<< dataLen - 1)) <<< off,
        { bs with bytePos := bytePos, bitPos := dataLen })
    else some (data, { bs with bytePos := bytePos, bitPos := 0 })

end Meds.Ref
