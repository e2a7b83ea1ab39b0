/-
  Meds.Sage.StreamOps

  The bit streams of bitstream.c and bitstream.py side by side.

  The two keep different states.  The C writer has a cursor over a buffer;
  the class appends to its data and finalizes by setting `bit_pos` to 8, a
  position in the byte it has filled, which the next call has to take for
  the start of the byte after it.  `WritesAlike` and `ReadsAlike` relate the
  states; a call keeps them related.

  As in Ref/Bitstream, the data has less than 4 GiB, so that `byte_pos` of the
  C reader does not wrap; the class has no such bound.
-/

import Meds.Ref.StreamOps
import Meds.Sage.BitStream

namespace Meds.Sage

open Meds.Core Meds.Ref

namespace BitStream

/-- A call of the writer. -/
def runOp (bs : BitStream) : StreamOp → Except PyError BitStream
  | .write data dataLen => bs.write data dataLen
  | .finalize => pure bs.finalize

/-- The calls `ops`, one after the other. -/
def runOps (ops : List StreamOp) (bs : BitStream) : Except PyError BitStream :=
  ops.foldlM runOp bs

/-- The values that the calls `ops` return. -/
def readOps : List ReadOp → BitStream → Except PyError (List Nat)
  | [], _ => pure []
  | .read dataLen :: ops, bs => do
    let (v, bs) ← bs.read dataLen
    let vs ← readOps ops bs
    pure (v :: vs)
  | .finalize :: ops, bs => readOps ops bs.finalize

/-! ## A finalized stream -/

theorem orLast_zero {data : List UInt8} (hne : data ≠ []) : orLast data 0 = pure data := by
  obtain ⟨init, b, rfl⟩ := (List.eq_nil_or_concat data).resolve_left hne
  rw [List.concat_eq_append, orLast, List.getLast?_concat]
  simp only [Nat.or_zero, if_pos (UInt8.toNat_lt b)]
  simp

/-- A wide field at bit 8 of a byte goes where it would go on a byte boundary. -/
theorem write_finalized {data : List UInt8} {bytePos : Option Nat} {v w : Nat} (hw : 8 ≤ w)
    (hne : data ≠ []) : write ⟨data, bytePos, 8⟩ v w = write ⟨data, bytePos, 0⟩ v w := by
  have hlow : v <<< 8 &&& 0xFF = 0 := by
    rw [show (0xFF : Nat) = 2 ^ 8 - 1 from rfl, Nat.and_two_pow_sub_one_eq_mod, Nat.shiftLeft_eq]
    exact Nat.mul_mod_left v (2 ^ 8)
  unfold write
  rw [if_neg (show ¬ 8 + w < 8 by omega), if_neg (show ¬ 0 + w < 8 by omega),
    if_pos (by decide : 8 > 0), if_neg (by decide : ¬ 0 > 0)]
  simp only [hlow, orLast_zero hne, pure_bind, Nat.sub_self, Nat.shiftRight_zero, Nat.sub_zero]

/-- A wide field at bit 8 of a byte is read from the next byte on. -/
theorem read_finalized {data : List UInt8} {i w : Nat} (hw : 8 ≤ w) (hi : i < data.length) :
    read ⟨data, some i, 8⟩ w = read ⟨data, some (i + 1), 0⟩ w := by
  have hbyte : byteAt data i = pure data[i].toNat :=
    byteAt_of_some (List.getElem?_eq_getElem hi)
  have hshift : data[i].toNat >>> 8 = 0 := by
    rw [Nat.shiftRight_eq_div_pow]
    exact Nat.div_eq_of_lt (UInt8.toNat_lt _)
  unfold read
  simp only
  rw [if_neg (show ¬ 8 + w < 8 by omega), if_neg (show ¬ 0 + w < 8 by omega),
    if_pos (by decide : 8 > 0), if_neg (by decide : ¬ 0 > 0), hbyte, pure_bind, hshift]
  rfl

end BitStream

open BitStream

/-! ## Writing -/

/-- The class holds the bytes that the C writer has stored up to its cursor. -/
structure WritesAlike (c : Arr UInt8 × BitstreamT) (py : BitStream) : Prop where
  data : py.data = c.1.slice 0 (byteLen c.2.pos)
  bytePos : py.bytePos = none
  bitPos : py.bitPos = c.2.bitPos ∨ (py.bitPos = 8 ∧ c.2.bitPos = 0 ∧ 0 < c.2.bytePos)

/-- A wide field. -/
theorem WritesAlike.write {c : Arr UInt8 × BitstreamT} {py : BitStream} {v w : Nat}
    (h : WritesAlike c py) (hw : 8 ≤ w) (hv : v < 2 ^ w) (hbit : c.2.bitPos < 8)
    (hfit : c.2.pos + w ≤ 8 * c.2.bufLen) (hpos : (bsPut w c v).2.pos = c.2.pos + w) :
    ∃ py', py.write v w = pure py' ∧ WritesAlike (bsPut w c v) py' := by
  have haligned : py.write v w = BitStream.write ⟨py.data, none, c.2.bitPos⟩ v w := by
    obtain ⟨data, bytePos, bitPos⟩ := py
    obtain ⟨hdata, rfl, rfl | ⟨rfl, hc, hpos'⟩⟩ := h
    · rfl
    · -- finalized: `bit_pos` is 8 and some byte is there
      have hlen : 0 < byteLen c.2.pos := by
        unfold byteLen BitstreamT.pos
        omega
      have hne : data ≠ [] := by
        rintro rfl
        have := congrArg List.length hdata
        rw [Arr.length_slice, List.length_nil] at this
        omega
      rw [hc, write_finalized hw hne]
  refine ⟨_, by rw [haligned, h.data]; exact write_slice (by omega) hv hbit hfit, ?_, rfl, Or.inl rfl⟩
  rw [hpos]

theorem WritesAlike.finalize {c : Arr UInt8 × BitstreamT} {py : BitStream}
    (h : WritesAlike c py) (hbit : c.2.bitPos < 8) :
    WritesAlike (c.1, bsFinalize c.2) py.finalize := by
  have hpos : byteLen (bsFinalize c.2).pos = byteLen c.2.pos := by
    unfold bsFinalize byteLen BitstreamT.pos
    simp only
    split <;> omega
  obtain ⟨hdata, hbyte, hbp⟩ := h
  unfold BitStream.finalize
  by_cases h0 : py.bitPos > 0
  · rw [if_pos h0]
    refine ⟨by rw [hdata, hpos], hbyte, Or.inr ⟨rfl, rfl, ?_⟩⟩
    unfold bsFinalize
    simp only
    split <;> omega
  · rw [if_neg h0]
    exact ⟨by rw [hdata, hpos], hbyte, Or.inl (by unfold bsFinalize; simp only; omega)⟩

/-- A run of wide fields keeps the two writers alike. -/
theorem writesAlike_run {bufLen : Nat} {ops : List StreamOp} (hwide : ∀ op ∈ ops, op.Wide)
    (hfit : (opsBits ops).length ≤ 8 * bufLen) (buf : Arr UInt8) :
    ∃ py, BitStream.runOps ops (new []) = pure py ∧
      WritesAlike (Ref.runOps ops (buf, bsInit bufLen)) py := by
  induction ops using List.reverseRecOn with
  | nil =>
      refine ⟨new [], rfl, ?_, rfl, Or.inl rfl⟩
      simp [new, Ref.runOps, bsInit, BitstreamT.pos, byteLen, Arr.slice]
  | append_singleton ops op ih =>
      have hwide' : ∀ o ∈ ops, o.Wide := fun o ho => hwide o (List.mem_append_left _ ho)
      -- where the C writer stands and what it has written is known from the bits
      have hcarry := carries_run hwide hfit buf
      rw [opsBits_concat] at hfit
      have hfit' := (length_le_extend (opsBits ops) op).trans hfit
      have hcarry' := carries_run hwide' hfit' buf
      obtain ⟨py, hrun, halike⟩ := ih hwide' hfit'
      have hop := hwide op (by simp)
      unfold BitStream.runOps at hrun ⊢
      rw [List.foldlM_append, hrun, pure_bind, runOps_concat]
      cases op with
      | write v w =>
          obtain ⟨hw, -, hv⟩ := hop
          have hlen : (opsBits ops).length + w ≤ 8 * bufLen := by
            simpa [StreamOp.extend] using hfit
          have hpos : (bsPut w (Ref.runOps ops (buf, bsInit bufLen)) v).2.pos
              = (opsBits ops).length + w := by
            have := hcarry.pos_eq
            rwa [runOps_concat, opsBits_concat, StreamOp.extend, List.length_append,
              List.length_map, List.length_range] at this
          obtain ⟨py', hwrite, halike'⟩ := halike.write hw hv hcarry'.bitPos_lt
            (by rw [hcarry'.pos_eq, hcarry'.cursor]; exact hlen) (by rw [hpos, hcarry'.pos_eq])
          exact ⟨py', by rw [List.foldlM_cons, runOp, hwrite, pure_bind, List.foldlM_nil], halike'⟩
      | finalize => exact ⟨_, rfl, halike.finalize hcarry'.bitPos_lt⟩

/-! ## Reading -/

/-- The class reads where the C reader does. -/
structure ReadsAlike (data : List UInt8) (c : BitstreamT) (py : BitStream) : Prop where
  data_eq : py.data = data
  place : (py.bytePos = some c.bytePos ∧ py.bitPos = c.bitPos) ∨
    (py.bitPos = 8 ∧ c.bitPos = 0 ∧ ∃ i, py.bytePos = some i ∧ c.bytePos = i + 1)

theorem readsAlike_new {data : List UInt8} (hne : data ≠ []) (bufLen : Nat) :
    ReadsAlike data (bsInit bufLen) (new data) := by
  rw [new, if_neg (by simpa using hne)]
  exact ⟨rfl, Or.inl ⟨rfl, rfl⟩⟩

/-- A wide field: both readers return it, and stay alike. -/
theorem ReadsAlike.read {data : List UInt8} {c : BitstreamT} {py : BitStream} {w : Nat}
    (h : ReadsAlike data c py) (hw : 8 ≤ w) (hbit : c.bitPos < 8)
    (hbuf : c.bufLen = data.length) (hfit : c.pos + w ≤ 8 * data.length) :
    ∃ v c' py', bsRead (fun i => data[i]?) c w = some (v, c') ∧ py.read w = pure (v, py') ∧
      ReadsAlike data c' py' ∧ c'.bitPos < 8 ∧ c'.bufLen = data.length ∧ c'.pos = c.pos + w := by
  have hread := @bsRead_spec (fun i => data[i]?) (Arr.mk data).get c w hbit
    (show 0 < w by omega) (hbuf ▸ hfit) fun i hi => by
      rw [hbuf] at hi
      rw [List.getElem?_eq_getElem hi, Arr.get_mk, List.getD_eq_getElem _ _ hi]
  have hpy : py.read w = BitStream.read ⟨data, some c.bytePos, c.bitPos⟩ w := by
    obtain ⟨pyData, bytePos, bitPos⟩ := py
    obtain ⟨rfl, ⟨rfl, rfl⟩ | ⟨rfl, hc, i, rfl, hi⟩⟩ := h
    · rfl
    · have hlt : i < pyData.length := by
        have hpos : c.pos = 8 * (i + 1) + c.bitPos := by rw [BitstreamT.pos, hi]
        change c.pos + w ≤ 8 * pyData.length at hfit
        omega
      rw [read_finalized hw hlt, hc, hi]
  refine ⟨_, _, _, hread, hpy.trans (read_of_bsRead (by omega) (exceeds_eq_false (hbuf ▸ hfit)) hread),
    ⟨rfl, Or.inl ⟨rfl, rfl⟩⟩, Nat.mod_lt _ (by decide), hbuf, ?_⟩
  exact Nat.div_add_mod _ 8

theorem ReadsAlike.finalize {data : List UInt8} {c : BitstreamT} {py : BitStream}
    (h : ReadsAlike data c py) : ReadsAlike data (bsFinalize c) py.finalize := by
  obtain ⟨hdata, hplace⟩ := h
  unfold BitStream.finalize
  rcases hplace with ⟨hbyte, hbit⟩ | ⟨hbit, hc, hi⟩
  · by_cases h0 : py.bitPos > 0
    · rw [if_pos h0]
      refine ⟨hdata, Or.inr ⟨rfl, rfl, c.bytePos, hbyte, ?_⟩⟩
      rw [bsFinalize, if_pos (hbit ▸ h0)]
    · rw [if_neg h0]
      refine ⟨hdata, Or.inl ⟨?_, ?_⟩⟩
      · rw [bsFinalize, if_neg (hbit ▸ h0)]
        exact hbyte
      · simp only [bsFinalize]
        omega
  · rw [if_pos (by omega)]
    refine ⟨hdata, Or.inr ⟨rfl, rfl, ?_⟩⟩
    simpa [bsFinalize, hc] using hi

theorem bsFinalize_pos (c : BitstreamT) (hbit : c.bitPos < 8) :
    (bsFinalize c).pos = 8 * byteLen c.pos := by
  unfold bsFinalize byteLen BitstreamT.pos
  simp only
  split <;> omega

/-- A run that stays inside the data. -/
theorem readsAlike_run {data : List UInt8} {ops : List ReadOp} (hwide : ∀ op ∈ ops, op.Wide)
    {c : BitstreamT} {py : BitStream} (h : ReadsAlike data c py) (hbit : c.bitPos < 8)
    (hbuf : c.bufLen = data.length) (hend : readEnd ops c.pos ≤ 8 * data.length) :
    ∃ vs, Ref.readOps (fun i => data[i]?) ops c = some vs ∧ BitStream.readOps ops py = pure vs := by
  induction ops generalizing c py with
  | nil => exact ⟨[], rfl, rfl⟩
  | cons op ops ih =>
      have hop := hwide op (by simp)
      have hwide' : ∀ o ∈ ops, o.Wide := fun o ho => hwide o (List.mem_cons_of_mem _ ho)
      cases op with
      | read w =>
          have hfit : c.pos + w ≤ 8 * data.length := (le_readEnd ops _).trans hend
          obtain ⟨v, c', py', hc, hpy, halike, hbit', hbuf', hpos⟩ := h.read hop.1 hbit hbuf hfit
          obtain ⟨vs, hvs, hvs'⟩ := ih hwide' halike hbit' hbuf' (by rw [hpos]; exact hend)
          refine ⟨v :: vs, ?_, ?_⟩
          · simp only [Ref.readOps, hc, hvs, Option.bind_eq_bind, Option.bind_some]
          · simp only [BitStream.readOps, hpy, hvs', pure_bind]
      | finalize =>
          have hpos := bsFinalize_pos c hbit
          rw [Ref.readOps, BitStream.readOps]
          exact ih hwide' h.finalize (by simp [bsFinalize]) (by simpa [bsFinalize] using hbuf)
            (by rw [hpos]; exact hend)

/-- The two bit streams write the same bytes and read the same values, on data for
    which the `uint32_t` positions of C do not wrap. -/
theorem bitStreams_agree :
    (∀ (ops : List StreamOp) (bufLen : Nat), (∀ op ∈ ops, op.Wide) → bufLen < 2 ^ 28 →
      (opsBits ops).length ≤ 8 * bufLen → ∀ buf : Arr UInt8,
        ∃ py, BitStream.runOps ops (new []) = pure py ∧
          py.data = (Ref.runOps ops (buf, bsInit bufLen)).1.slice 0
            (byteLen (Ref.runOps ops (buf, bsInit bufLen)).2.pos)) ∧
    ∀ (data : List UInt8) (ops : List ReadOp), data ≠ [] → (∀ op ∈ ops, op.Wide) →
      readEnd ops 0 ≤ 8 * data.length →
        ∃ vs, Ref.readOps (fun i => data[i]?) ops (bsInit data.length) = some vs ∧
          BitStream.readOps ops (new data) = pure vs := by
  constructor
  · intro ops bufLen hwide _ hfit buf
    obtain ⟨py, hrun, halike⟩ := writesAlike_run hwide hfit buf
    exact ⟨py, hrun, halike.data⟩
  · intro data ops hne hwide hend
    exact readsAlike_run hwide (readsAlike_new hne _) (Nat.zero_lt_succ 7) rfl hend

/-- Two fields with a finalize between them. -/
theorem bitStreams_agree_tiny :
    ∃ vs, Ref.readOps (fun i => ([0x2c, 0x01, 0x05] : List UInt8)[i]?)
        [.read 9, .finalize, .read 8] (bsInit 3) = some vs ∧
      BitStream.readOps [.read 9, .finalize, .read 8] (new [0x2c, 0x01, 0x05]) = pure vs :=
  bitStreams_agree.2 [0x2c, 0x01, 0x05] _ (by decide)
    (by
      intro op hop
      simp only [List.mem_cons, List.not_mem_nil, or_false] at hop
      rcases hop with rfl | rfl | rfl <;> simp [ReadOp.Wide])
    (by decide)

end Meds.Sage
