/-
  Meds.Ref.StreamOps

  Runs of the bit stream writer: `bs_write` and `bs_finalize` in any order.

  What such a run is for has nothing to do with memory: every write appends
  the bits of its value, and finalizing pads with zeros to the next byte
  (`StreamOp.extend`).  A buffer `Carries` these bits when they stand in it
  up to the cursor and the rest of the cursor's byte is zero; that rest is
  what the next write ORs into, so the invariant is exactly what keeps stale
  memory out.
-/

import Meds.Ref.BitstreamSpec

namespace Meds.Ref

open Meds.Core

/-- A call of the writer. -/
inductive StreamOp where
  | write (data dataLen : Nat)
  | finalize
deriving DecidableEq, Repr

namespace StreamOp

/-- The call on a buffer and its cursor. -/
def run : Arr UInt8 × BitstreamT → StreamOp → Arr UInt8 × BitstreamT
  | s, write data dataLen => bsPut dataLen s data
  | s, finalize => (s.1, bsFinalize s.2)

/-- The bits in the stream after the call. -/
def extend : List Bool → StreamOp → List Bool
  | bits, write data dataLen => bits ++ (List.range dataLen).map data.testBit
  | bits, finalize => bits ++ List.replicate (8 * byteLen bits.length - bits.length) false

/-- A field as the callers write them: 8 to 24 bits that hold the value. -/
def Wide : StreamOp → Prop
  | write data dataLen => 8 ≤ dataLen ∧ dataLen ≤ 24 ∧ data < 2 ^ dataLen
  | finalize => True

end StreamOp

/-- The calls `ops`, one after the other. -/
def runOps (ops : List StreamOp) (s : Arr UInt8 × BitstreamT) : Arr UInt8 × BitstreamT :=
  ops.foldl StreamOp.run s

/-- The bits that the calls `ops` write. -/
def opsBits (ops : List StreamOp) : List Bool := ops.foldl StreamOp.extend []

theorem opsBits_concat (ops : List StreamOp) (op : StreamOp) :
    opsBits (ops ++ [op]) = op.extend (opsBits ops) := by
  simp [opsBits]

theorem runOps_concat (ops : List StreamOp) (op : StreamOp) (s : Arr UInt8 × BitstreamT) :
    runOps (ops ++ [op]) s = op.run (runOps ops s) := by
  simp [runOps]

/-- A call only makes the stream longer. -/
theorem length_le_extend (bits : List Bool) (op : StreamOp) :
    bits.length ≤ (op.extend bits).length := by
  cases op with
  | write data dataLen => simp [StreamOp.extend]
  | finalize => simp [StreamOp.extend]

theorem length_extend_finalize (bits : List Bool) :
    (StreamOp.finalize.extend bits).length = 8 * byteLen bits.length := by
  have : bits.length ≤ 8 * byteLen bits.length := by
    unfold byteLen
    omega
  rw [StreamOp.extend, List.length_append, List.length_replicate]
  omega

/-! ## The invariant -/

/-- The buffer carries `bits` up to the cursor, and zeros to the end of its byte. -/
structure Carries (bufLen : Nat) (bits : List Bool) (s : Arr UInt8 × BitstreamT) : Prop where
  cursor : s.2 = ⟨bufLen, bits.length / 8, bits.length % 8⟩
  bit : ∀ b, b < 8 * byteLen bits.length → bufBit s.1 b = bits.getD b false

namespace Carries

variable {bufLen : Nat} {bits : List Bool} {s : Arr UInt8 × BitstreamT}

theorem pos_eq (h : Carries bufLen bits s) : s.2.pos = bits.length := by
  rw [h.cursor, BitstreamT.pos]
  exact Nat.div_add_mod bits.length 8

theorem bitPos_lt (h : Carries bufLen bits s) : s.2.bitPos < 8 := by
  rw [h.cursor]
  exact Nat.mod_lt _ (by decide)

/-- A field of at least eight bits can be ORed in, whatever lies behind the cursor. -/
theorem fresh (h : Carries bufLen bits s) {w : Nat} (hw : 8 ≤ w) : Fresh s.1 s.2 w := by
  intro hcase k hk hk8
  have hcur : s.2.bytePos = bits.length / 8 ∧ s.2.bitPos = bits.length % 8 := by
    rw [h.cursor]
    exact ⟨rfl, rfl⟩
  rw [h.bit _ (by unfold byteLen; omega), List.getD_eq_default _ _ (by omega)]

/-- Two buffers that carry the same bits agree up to the end of the cursor's byte. -/
theorem get_eq {bufLen' : Nat} {s' : Arr UInt8 × BitstreamT} (h : Carries bufLen bits s)
    (h' : Carries bufLen' bits s') {i : Nat} (hi : i < byteLen bits.length) :
    s.1.get i = s'.1.get i := by
  apply eq_of_bitAt
  intro k hk
  have hb : 8 * i + k < 8 * byteLen bits.length := by omega
  exact (h.bit _ hb).trans (h'.bit _ hb).symm

end Carries

/-- An empty stream is carried by any buffer. -/
theorem carries_nil (buf : Arr UInt8) (bufLen : Nat) : Carries bufLen [] (buf, bsInit bufLen) where
  cursor := rfl
  bit b hb := absurd hb (by simp [byteLen])

/-! ## One call, and a run -/

theorem carries_write {bufLen : Nat} {bits : List Bool} {s : Arr UInt8 × BitstreamT} {v w : Nat}
    (h : Carries bufLen bits s) (hw : 8 ≤ w) (hv : v < 2 ^ w)
    (hfit : bits.length + w ≤ 8 * bufLen) :
    Carries bufLen (StreamOp.extend bits (.write v w)) (StreamOp.run s (.write v w)) := by
  have hlen : (StreamOp.extend bits (.write v w)).length = bits.length + w := by
    simp [StreamOp.extend]
  have hbuf : s.2.bufLen = bufLen := by rw [h.cursor]
  obtain ⟨buf', hwrite, hfield⟩ := bsWrite_spec s.2 v w h.bitPos_lt hv
    (by rw [h.pos_eq, hbuf]; exact hfit) (h.fresh hw)
  rw [h.pos_eq] at hwrite hfield
  simp only [StreamOp.run, bsPut, hwrite]
  refine ⟨by rw [hlen, hbuf], fun b hb => ?_⟩
  rw [hlen] at hb
  by_cases hold : b < bits.length
  · rw [hfield.below b hold, h.bit b (by unfold byteLen; omega), StreamOp.extend,
      List.getD_append _ _ _ _ hold]
  · obtain ⟨i, rfl⟩ : ∃ i, b = bits.length + i := ⟨b - bits.length, by omega⟩
    rw [StreamOp.extend, List.getD_append_right _ _ _ _ (by omega), Nat.add_sub_cancel_left]
    by_cases hnew : i < w
    · rw [hfield.field i hnew, List.getD_eq_getElem _ _ (by simpa using hnew)]
      simp
    · -- behind the field, in the byte it ends in
      have htail := hfield.tail (by unfold byteLen at hb; omega) ((bits.length + i) % 8)
        (by unfold byteLen at hb; omega) (by omega)
      rw [show 8 * ((bits.length + w) / 8) + (bits.length + i) % 8 = bits.length + i by
        unfold byteLen at hb; omega] at htail
      rw [htail, List.getD_eq_default _ _ (by simpa using hnew)]

theorem carries_finalize {bufLen : Nat} {bits : List Bool} {s : Arr UInt8 × BitstreamT}
    (h : Carries bufLen bits s) :
    Carries bufLen (StreamOp.extend bits .finalize) (StreamOp.run s .finalize) := by
  have hlen := length_extend_finalize bits
  constructor
  · have hfin := bsFinalize_block bufLen 0 bits.length
    rw [Nat.zero_add, Nat.zero_add] at hfin
    rw [hlen, Nat.mul_div_cancel_left _ (by decide), Nat.mul_mod_right, StreamOp.run, h.cursor]
    exact hfin
  · intro b hb
    rw [hlen] at hb
    rw [StreamOp.run, h.bit b (by unfold byteLen at hb ⊢; omega), StreamOp.extend]
    by_cases hold : b < bits.length
    · rw [List.getD_append _ _ _ _ hold]
    · rw [List.getD_append_right _ _ _ _ (by omega), List.getD_eq_default _ _ (by omega)]
      simp [List.getD_eq_getElem?_getD, List.getElem?_replicate]
      split <;> rfl

/-- The bits of a run of wide fields, in any buffer that is long enough. -/
theorem carries_run {bufLen : Nat} {ops : List StreamOp} (hwide : ∀ op ∈ ops, op.Wide)
    (hfit : (opsBits ops).length ≤ 8 * bufLen) (buf : Arr UInt8) :
    Carries bufLen (opsBits ops) (runOps ops (buf, bsInit bufLen)) := by
  induction ops using List.reverseRecOn with
  | nil => exact carries_nil buf bufLen
  | append_singleton ops op ih =>
      rw [opsBits_concat] at hfit ⊢
      rw [runOps_concat]
      have hstep := ih (fun o ho => hwide o (List.mem_append_left _ ho))
        ((length_le_extend _ op).trans hfit)
      have hop := hwide op (by simp)
      cases op with
      | write v w =>
          obtain ⟨hw, -, hv⟩ := hop
          exact carries_write hstep hw hv (by simpa [StreamOp.extend] using hfit)
      | finalize => exact carries_finalize hstep

/-! ## Reading -/

/-- A call of the reader. -/
inductive ReadOp where
  | read (dataLen : Nat)
  | finalize
deriving DecidableEq, Repr

/-- The bit position after a call at position `pos`. -/
def ReadOp.after : Nat → ReadOp → Nat
  | pos, read dataLen => pos + dataLen
  | pos, finalize => 8 * byteLen pos

/-- A width as the callers read it. -/
def ReadOp.Wide : ReadOp → Prop
  | read dataLen => 8 ≤ dataLen ∧ dataLen ≤ 24
  | finalize => True

/-- The bit position after the calls `ops`, from position `pos` on. -/
def readEnd (ops : List ReadOp) (pos : Nat) : Nat := ops.foldl ReadOp.after pos

/-- The values that the calls `ops` return. -/
def readOps (mem : Nat → Option UInt8) : List ReadOp → BitstreamT → Option (List Nat)
  | [], _ => some []
  | .read dataLen :: ops, bs => do
    let (v, bs) ← bsRead mem bs dataLen
    let vs ← readOps mem ops bs
    some (v :: vs)
  | .finalize :: ops, bs => readOps mem ops (bsFinalize bs)

theorem le_readEnd (ops : List ReadOp) (pos : Nat) : pos ≤ readEnd ops pos := by
  induction ops generalizing pos with
  | nil => exact Nat.le_refl pos
  | cons op ops ih =>
      refine Nat.le_trans ?_ (ih (op.after pos))
      cases op with
      | read dataLen => exact Nat.le_add_right pos dataLen
      | finalize =>
          rw [ReadOp.after, byteLen]
          omega

end Meds.Ref
