/-
  Meds.Ref.BitstreamRoundtrip

  Reading back a bit stream.  A stream is a sequence of blocks, a block a
  sequence of (value, width) fields, and `bs_finalize` closes each block.

  Over a zeroed buffer the writer only ever appends: what is still to be
  written is zero (`Open`), and every later write keeps the bits before the
  cursor (`Extends`).  So a field reads back from any memory that holds the
  bits up to the writer's last position.
-/

import Meds.Ref.BitstreamSpec

namespace Meds.Ref

open Meds.Core

/-- The `len` bytes of a buffer as an object. -/
def bufObject (buf : Arr UInt8) (len : Nat) : Nat → Option UInt8 :=
  fun i => if i < len then some (buf.get i) else none

/-! ## Writing and reading a stream -/

/-- `bs_write` of one (value, width) field. -/
def writeField (s : Arr UInt8 × BitstreamT) (f : Nat × Nat) : Arr UInt8 × BitstreamT :=
  bsPut f.2 s f.1

def writeBlock (s : Arr UInt8 × BitstreamT) (block : List (Nat × Nat)) :
    Arr UInt8 × BitstreamT :=
  let s := block.foldl writeField s
  (s.1, bsFinalize s.2)

def writeBlocks (s : Arr UInt8 × BitstreamT) (blocks : List (List (Nat × Nat))) :
    Arr UInt8 × BitstreamT :=
  blocks.foldl writeBlock s

def readFields (mem : Nat → Option UInt8) (bs : BitstreamT) :
    List Nat → Option (List Nat × BitstreamT)
  | [] => some ([], bs)
  | width :: widths => do
    let (v, bs) ← bsRead mem bs width
    let (vs, bs) ← readFields mem bs widths
    some (v :: vs, bs)

def readBlocks (mem : Nat → Option UInt8) (bs : BitstreamT) :
    List (List Nat) → Option (List (List Nat) × BitstreamT)
  | [] => some ([], bs)
  | widths :: blocks => do
    let (vs, bs) ← readFields mem bs widths
    let (vss, bs) ← readBlocks mem (bsFinalize bs) blocks
    some (vs :: vss, bs)

/-- Bits of a block. -/
def blockBits (block : List (Nat × Nat)) : Nat := (block.map Prod.snd).sum

/-- Bytes of a stream: every block starts on a byte. -/
def streamBytes (blocks : List (List (Nat × Nat))) : Nat :=
  (blocks.map fun block => byteLen (blockBits block)).sum

/-- A value that its width holds. -/
def FieldOk (f : Nat × Nat) : Prop := 1 ≤ f.2 ∧ f.2 ≤ 24 ∧ f.1 < 2 ^ f.2

/-- A value that its width holds, whatever the width. -/
def FieldFits (f : Nat × Nat) : Prop := 1 ≤ f.2 ∧ f.1 < 2 ^ f.2

theorem FieldOk.fits {f : Nat × Nat} (h : FieldOk f) : FieldFits f := ⟨h.1, h.2.2⟩

/-! ## Appending -/

/-- Everything from the cursor on is zero. -/
structure Open (bufLen : Nat) (s : Arr UInt8 × BitstreamT) : Prop where
  bufLen_eq : s.2.bufLen = bufLen
  bitPos_lt : s.2.bitPos < 8
  pos_le : s.2.pos ≤ 8 * bufLen
  zero : ∀ b, s.2.pos ≤ b → b < 8 * bufLen → bufBit s.1 b = false

/-- `s'` is `s` after some more writes. -/
structure Extends (s s' : Arr UInt8 × BitstreamT) : Prop where
  pos_le : s.2.pos ≤ s'.2.pos
  kept : ∀ b, b < s.2.pos → bufBit s'.1 b = bufBit s.1 b

variable {bufLen : Nat}

theorem Extends.refl (s : Arr UInt8 × BitstreamT) : Extends s s :=
  ⟨Nat.le_refl _, fun _ _ => rfl⟩

theorem Extends.trans {s t u : Arr UInt8 × BitstreamT} (h : Extends s t) (h' : Extends t u) :
    Extends s u :=
  ⟨h.pos_le.trans h'.pos_le, fun b hb => by
    rw [h'.kept b (Nat.lt_of_lt_of_le hb h.pos_le), h.kept b hb]⟩

theorem open_init {buf : Arr UInt8} (hzero : ∀ i, i < bufLen → buf.get i = 0) :
    Open bufLen (buf, bsInit bufLen) where
  bufLen_eq := rfl
  bitPos_lt := by simp [bsInit]
  pos_le := by simp [bsInit, BitstreamT.pos]
  zero b _ hb := by
    simp only [bufBit, bitAt]
    rw [hzero _ (by omega)]
    exact Nat.zero_testBit _

/-- One field over zeros: it lands at the cursor and the rest stays zero. -/
theorem writeField_spec {s : Arr UInt8 × BitstreamT} {f : Nat × Nat} (hs : Open bufLen s)
    (hf : FieldFits f) (hfit : s.2.pos + f.2 ≤ 8 * bufLen) :
    Open bufLen (writeField s f) ∧ Extends s (writeField s f) ∧
      (writeField s f).2.pos = s.2.pos + f.2 ∧
      (∀ i, i < f.2 → bufBit (writeField s f).1 (s.2.pos + i) = f.1.testBit i) := by
  obtain ⟨v, w⟩ := f
  obtain ⟨hw, hv⟩ := hf
  simp only at hw hv hfit ⊢
  have hfresh : Fresh s.1 s.2 w := by
    intro hcase k hk hk8
    have hpos : s.2.pos = 8 * s.2.bytePos + s.2.bitPos := rfl
    refine hs.zero _ (by omega) ?_
    -- the byte under the cursor is inside the buffer because the field is
    have := hs.pos_le
    omega
  obtain ⟨buf', hwrite, hw'⟩ := bsWrite_spec s.2 v w hs.bitPos_lt hv
    (by rw [hs.bufLen_eq]; exact hfit) hfresh
  have heq : writeField s (v, w) = (buf', ⟨s.2.bufLen, (s.2.pos + w) / 8, (s.2.pos + w) % 8⟩) := by
    simp [writeField, bsPut, hwrite]
  have hpos : (writeField s (v, w)).2.pos = s.2.pos + w := by
    rw [heq]
    simp only [BitstreamT.pos]
    omega
  refine ⟨⟨?_, ?_, ?_, ?_⟩, ⟨by omega, ?_⟩, hpos, ?_⟩
  · rw [heq]
    exact hs.bufLen_eq
  · rw [heq]
    exact Nat.mod_lt _ (by decide)
  · omega
  · intro b hb hlt
    rw [hpos] at hb
    rw [heq]
    by_cases hbyte : b / 8 = (s.2.pos + w) / 8 ∧ (s.2.pos + w) % 8 ≠ 0
    · have := hw'.tail hbyte.2 (b % 8) (by omega) (by omega)
      rwa [← hbyte.1, Nat.div_add_mod] at this
    · rw [bufBit_congr (hw'.above (b / 8) (by omega))]
      exact hs.zero b (by omega) hlt
  · intro b hb
    rw [heq]
    exact hw'.below b hb
  · intro i hi
    rw [heq]
    exact hw'.field i hi

/-- `bs_finalize` skips zeros. -/
theorem finalize_spec {s : Arr UInt8 × BitstreamT} (hs : Open bufLen s) :
    Open bufLen (s.1, bsFinalize s.2) ∧ Extends s (s.1, bsFinalize s.2) ∧
      (bsFinalize s.2).pos = 8 * byteLen s.2.pos := by
  have hbit := hs.bitPos_lt
  have hle := hs.pos_le
  have hpos : (bsFinalize s.2).pos = 8 * byteLen s.2.pos := by
    simp only [bsFinalize, BitstreamT.pos, byteLen]
    split <;> omega
  have hge : s.2.pos ≤ (bsFinalize s.2).pos := by
    rw [hpos]
    unfold byteLen
    omega
  refine ⟨⟨hs.bufLen_eq, by simp [bsFinalize], ?_, ?_⟩, ⟨hge, fun _ _ => rfl⟩, hpos⟩
  · change (bsFinalize s.2).pos ≤ _
    rw [hpos]
    unfold byteLen
    omega
  · exact fun b hb hlt => hs.zero b (hge.trans hb) hlt

/-! ## Reading back -/

/-- Memory that holds what was written up to the cursor of `s`. -/
structure Holds (bufLen : Nat) (mem : Nat → Option UInt8) (s : Arr UInt8 × BitstreamT) where
  d : Nat → UInt8
  readable : ∀ i, i < bufLen → mem i = some (d i)
  bits : ∀ b, b < s.2.pos → bitAt d b = bufBit s.1 b

theorem bits_get (s : Arr UInt8 × BitstreamT) :
    ∀ b, b < s.2.pos → bitAt s.1.get b = bufBit s.1 b :=
  fun _ _ => rfl

/-- The object itself holds everything. -/
def holds_bufObject (s : Arr UInt8 × BitstreamT) : Holds bufLen (bufObject s.1 bufLen) s where
  d := s.1.get
  readable _ hi := if_pos hi
  bits _ _ := rfl

/-- What holds after later writes holds before them. -/
def Holds.of_extends {mem : Nat → Option UInt8} {s s' : Arr UInt8 × BitstreamT}
    (h : Holds bufLen mem s') (hs : Extends s s') : Holds bufLen mem s where
  d := h.d
  readable := h.readable
  bits b hb := (h.bits b (Nat.lt_of_lt_of_le hb hs.pos_le)).trans (hs.kept b hb)

/-- A field reads back, and the reader's cursor follows the writer's. -/
theorem bsRead_writeField {mem : Nat → Option UInt8} {s : Arr UInt8 × BitstreamT} {f : Nat × Nat}
    (hs : Open bufLen s) (hf : FieldFits f) (hfit : s.2.pos + f.2 ≤ 8 * bufLen)
    (hmem : Holds bufLen mem (writeField s f)) :
    bsRead mem s.2 f.2 = some (f.1, (writeField s f).2) := by
  obtain ⟨hopen, -, hpos, hbits⟩ := writeField_spec hs hf hfit
  obtain ⟨v, w⟩ := f
  obtain ⟨hw, hv⟩ := hf
  simp only at hw hv hfit hbits hpos ⊢
  -- reader and writer advance by the same number of bits
  have hcursor : (writeField s (v, w)).2
      = ⟨s.2.bufLen, (s.2.pos + w) / 8, (s.2.pos + w) % 8⟩ := by
    have h1 := hopen.bitPos_lt
    have h2 := hopen.bufLen_eq
    rw [← hs.bufLen_eq] at h2
    rw [← hpos, ← h2]
    generalize (writeField s (v, w)).2 = bs at h1 ⊢
    obtain ⟨n, i, j⟩ := bs
    simp only at h1
    simp only [BitstreamT.pos, BitstreamT.mk.injEq, true_and]
    omega
  rw [bsRead_spec hs.bitPos_lt hw (by rw [hs.bufLen_eq]; exact hfit)
    (by rw [hs.bufLen_eq]; exact hmem.readable), hcursor]
  -- bit by bit the value that was written, and zeros above its width
  have hval : (Nat.ofBits fun i : Fin w => bitAt hmem.d (s.2.pos + i)) = v := by
    apply Nat.eq_of_testBit_eq
    intro i
    by_cases hi : i < w
    · rw [Nat.testBit_ofBits_lt _ _ hi]
      exact (hmem.bits _ (by omega)).trans (hbits i hi)
    · have hpow : 2 ^ w ≤ 2 ^ i := Nat.pow_le_pow_right (by decide) (by omega)
      rw [Nat.testBit_lt_two_pow (Nat.lt_of_lt_of_le (Nat.ofBits_lt_two_pow _) hpow),
        Nat.testBit_lt_two_pow (Nat.lt_of_lt_of_le hv hpow)]
  rw [hval]

/-- The fields of a block, one after the other. -/
theorem writeFields_spec {block : List (Nat × Nat)} {s : Arr UInt8 × BitstreamT}
    (hs : Open bufLen s) (hok : ∀ f ∈ block, FieldFits f)
    (hfit : s.2.pos + blockBits block ≤ 8 * bufLen) :
    let s' := block.foldl writeField s
    Open bufLen s' ∧ Extends s s' ∧ s'.2.pos = s.2.pos + blockBits block ∧
      ∀ mem, Holds bufLen mem s' →
        readFields mem s.2 (block.map Prod.snd) = some (block.map Prod.fst, s'.2) := by
  induction block generalizing s with
  | nil => exact ⟨hs, Extends.refl s, by simp [blockBits], fun mem _ => rfl⟩
  | cons f block ih =>
      have hcons : blockBits (f :: block) = f.2 + blockBits block := by simp [blockBits]
      rw [hcons] at hfit ⊢
      have hf := hok f List.mem_cons_self
      obtain ⟨hopen, hext, hpos, -⟩ := writeField_spec hs hf (by omega)
      obtain ⟨hopen', hext', hpos', hread⟩ := ih hopen
        (fun g hg => hok g (List.mem_cons_of_mem _ hg)) (by omega)
      refine ⟨hopen', hext.trans hext', ?_, fun mem hmem => ?_⟩
      · rw [List.foldl_cons, hpos', hpos]
        omega
      · rw [List.foldl_cons] at hmem
        simp only [List.map_cons, readFields]
        rw [bsRead_writeField hs hf (by omega) (hmem.of_extends hext')]
        simp only [Option.bind_eq_bind, Option.bind_some, hread mem hmem, List.foldl_cons]

/-- A whole stream, from a byte boundary on. -/
theorem writeBlocks_spec {blocks : List (List (Nat × Nat))} {s : Arr UInt8 × BitstreamT} {o : Nat}
    (hs : Open bufLen s) (hstart : s.2.pos = 8 * o)
    (hok : ∀ block ∈ blocks, ∀ f ∈ block, FieldOk f) (hfit : o + streamBytes blocks ≤ bufLen) :
    let s' := writeBlocks s blocks
    Open bufLen s' ∧ Extends s s' ∧ s'.2.pos = 8 * (o + streamBytes blocks) ∧
      ∀ mem, Holds bufLen mem s' →
        readBlocks mem s.2 (blocks.map (List.map Prod.snd))
          = some (blocks.map (List.map Prod.fst), s'.2) := by
  induction blocks generalizing s o with
  | nil => exact ⟨hs, Extends.refl s, by simp [writeBlocks, streamBytes, hstart], fun mem _ => rfl⟩
  | cons block blocks ih =>
      have hcons : streamBytes (block :: blocks)
          = byteLen (blockBits block) + streamBytes blocks := by simp [streamBytes]
      rw [hcons] at hfit ⊢
      -- a block starts at a byte, so its length is rounded up once
      have hlen : byteLen (8 * o + blockBits block) = o + byteLen (blockBits block) := by
        unfold byteLen
        omega
      obtain ⟨hopen, hext, hpos, hread⟩ := writeFields_spec hs
        (fun f hf => (hok block List.mem_cons_self f hf).fits)
        (by unfold byteLen at hlen; rw [hstart]; unfold byteLen at hfit; omega)
      obtain ⟨hopen', hext', hpos'⟩ := finalize_spec hopen
      rw [hpos, hstart, hlen] at hpos'
      -- the rest of the stream starts behind the finalized block
      obtain ⟨hopen'', hext'', hpos'', hread''⟩ := ih hopen' hpos'
        (fun b hb => hok b (List.mem_cons_of_mem _ hb)) (by omega)
      refine ⟨hopen'', hext.trans (hext'.trans hext''), ?_, fun mem hmem => ?_⟩
      · change (writeBlocks (writeBlock s block) blocks).2.pos = _
        rw [← Nat.add_assoc]
        exact hpos''
      · -- later writes leave the block as it is, so it is read back from the final buffer
        change Holds bufLen mem (writeBlocks (writeBlock s block) blocks) at hmem
        simp only [List.map_cons, readBlocks]
        rw [hread mem (hmem.of_extends (hext'.trans hext''))]
        simp only [Option.bind_eq_bind, Option.bind_some]
        have := hread'' mem hmem
        simp only at this
        rw [this]
        rfl

/-! ## The end of the buffer -/

/-- The buffer and cursor states that a program can reach from `bs_init` with
    writes, reads and finalizes of fields of 1 to 24 bits. -/
inductive Reached (bufLen : Nat) (buf : Arr UInt8) : Arr UInt8 × BitstreamT → Prop
  | init : Reached bufLen buf (buf, bsInit bufLen)
  | write {s : Arr UInt8 × BitstreamT} {data dataLen : Nat} (h : Reached bufLen buf s)
      (hlen : 1 ≤ dataLen ∧ dataLen ≤ 24) : Reached bufLen buf (bsWrite s.1 s.2 data dataLen).2
  | read {s : Arr UInt8 × BitstreamT} {data dataLen : Nat} {bs : BitstreamT}
      (h : Reached bufLen buf s) (hlen : 1 ≤ dataLen ∧ dataLen ≤ 24)
      (hread : bsRead (bufObject s.1 bufLen) s.2 dataLen = some (data, bs)) :
      Reached bufLen buf (s.1, bs)
  | finalize {s : Arr UInt8 × BitstreamT} (h : Reached bufLen buf s) :
      Reached bufLen buf (s.1, bsFinalize s.2)

/-- The cursor points into the buffer or right behind it. -/
structure CursorOk (bufLen : Nat) (bs : BitstreamT) : Prop where
  bufLen_eq : bs.bufLen = bufLen
  bitPos_lt : bs.bitPos < 8
  pos_le : bs.pos ≤ 8 * bufLen

theorem cursorOk_advance {len n : Nat} (h : n + len ≤ 8 * bufLen) :
    CursorOk bufLen ⟨bufLen, (n + len) / 8, (n + len) % 8⟩ :=
  ⟨rfl, Nat.mod_lt _ (by decide), by simp only [BitstreamT.pos]; omega⟩

/-- Below 2^28 bytes the range check is the one on the integers. -/
theorem exceeds_iff {bs : BitstreamT} {len : Nat} (hbuf : bufLen < 2 ^ 28)
    (hbs : CursorOk bufLen bs) (hlen : len ≤ 24) :
    bs.exceeds len = true ↔ 8 * bufLen < bs.pos + len := by
  obtain ⟨h1, h2, h3⟩ := hbs
  unfold BitstreamT.exceeds
  unfold BitstreamT.pos at h3 ⊢
  rw [Nat.mod_eq_of_lt (by omega), h1]
  simp only [gt_iff_lt, decide_eq_true_eq]
  omega

/-- A write that passes the check advances the cursor by its width. -/
theorem bsWrite_cursor (buf : Arr UInt8) {bs : BitstreamT} (data len : Nat)
    (hbs : CursorOk bufLen bs) (hfit : bs.pos + len ≤ 8 * bufLen) :
    (bsWrite buf bs data len).2.2 = ⟨bufLen, (bs.pos + len) / 8, (bs.pos + len) % 8⟩ := by
  obtain ⟨hn, hbit, -⟩ := hbs
  rw [bsWrite, exceeds_eq_false (by rw [hn]; exact hfit)]
  obtain ⟨n, bytePos, bitPos⟩ := bs
  simp only [BitstreamT.pos] at hn hbit ⊢
  subst hn
  simp only [Bool.false_eq_true, if_false]
  by_cases hnarrow : bitPos + len < 8
  · rw [if_pos hnarrow, if_neg (by omega)]
    simp only [BitstreamT.mk.injEq, true_and]
    omega
  · rw [if_neg hnarrow]
    by_cases h0 : bitPos > 0
    · simp only [if_pos h0]
      obtain ⟨buf', heq, -⟩ := bsWriteBytes_spec
        (buf.set bytePos (UInt8.ofNat ((buf.get bytePos).toNat ||| (data <<< bitPos &&& 0xFF))))
        (bytePos + 1) (data >>> (8 - bitPos)) (len - (8 - bitPos))
      simp only [heq]
      split <;> simp only [BitstreamT.mk.injEq, true_and] <;> omega
    · simp only [if_neg h0]
      obtain ⟨buf', heq, -⟩ := bsWriteBytes_spec buf bytePos data len
      simp only [heq]
      split <;> simp only [BitstreamT.mk.injEq, true_and] <;> omega

/-- What a refused write and a refused read do: nothing. -/
theorem refused {s : Arr UInt8 × BitstreamT} (data : Nat) {len : Nat} (hbuf : bufLen < 2 ^ 28)
    (hbs : CursorOk bufLen s.2) (hlen : len ≤ 24) (hend : 8 * bufLen < s.2.pos + len) :
    bsWrite s.1 s.2 data len = (-1, s.1, s.2) ∧
      ∀ mem, bsRead mem s.2 len = some (2 ^ 32 - 1, s.2) := by
  have hex := (exceeds_iff hbuf hbs hlen).mpr hend
  refine ⟨?_, fun mem => ?_⟩
  · rw [bsWrite, if_pos hex]
  · rw [bsRead, if_pos hex]

/-- The cursor stays in range along every program. -/
theorem Reached.cursorOk {buf : Arr UInt8} {s : Arr UInt8 × BitstreamT} (hbuf : bufLen < 2 ^ 28)
    (h : Reached bufLen buf s) : CursorOk bufLen s.2 := by
  induction h with
  | init => exact ⟨rfl, by simp [bsInit], by simp [bsInit, BitstreamT.pos]⟩
  | @write s data dataLen _ hlen ih =>
      by_cases hfit : s.2.pos + dataLen ≤ 8 * bufLen
      · rw [bsWrite_cursor s.1 data dataLen ih hfit]
        exact cursorOk_advance hfit
      · rw [(refused data hbuf ih hlen.2 (by omega)).1]
        exact ih
  | @read s data dataLen bs _ hlen hread ih =>
      by_cases hfit : s.2.pos + dataLen ≤ 8 * bufLen
      · have hobj : ∀ i, i < s.2.bufLen → bufObject s.1 bufLen i = some (s.1.get i) :=
          fun i hi => if_pos (by rwa [ih.bufLen_eq] at hi)
        rw [bsRead_spec ih.bitPos_lt hlen.1 (by rw [ih.bufLen_eq]; exact hfit) hobj,
          ih.bufLen_eq] at hread
        obtain ⟨-, rfl⟩ := Prod.mk.inj (Option.some.inj hread)
        exact cursorOk_advance hfit
      · rw [(refused data hbuf ih hlen.2 (by omega)).2] at hread
        obtain ⟨-, rfl⟩ := Prod.mk.inj (Option.some.inj hread)
        exact ih
  | @finalize s _ ih =>
      obtain ⟨h1, h2, h3⟩ := ih
      refine ⟨h1, by simp [bsFinalize], ?_⟩
      simp only [bsFinalize, BitstreamT.pos] at h3 ⊢
      split <;> omega

/-- Bit streams round trip, and stop at the end of their buffer: fields
    written over a zeroed buffer read back as they were, and from every state
    that writes, reads and finalizes reach, an access past the end is refused
    and changes nothing. -/
theorem bitstream_roundtrip {bufLen : Nat} (hbuf : bufLen < 2 ^ 28) (buf : Arr UInt8) :
    (∀ blocks : List (List (Nat × Nat)), (∀ i, i < bufLen → buf.get i = 0) →
      (∀ block ∈ blocks, ∀ f ∈ block, FieldOk f) → streamBytes blocks ≤ bufLen →
      let s := writeBlocks (buf, bsInit bufLen) blocks
      readBlocks (bufObject s.1 bufLen) (bsInit bufLen) (blocks.map (List.map Prod.snd))
        = some (blocks.map (List.map Prod.fst), s.2)) ∧
    (∀ s, Reached bufLen buf s → ∀ data dataLen, 1 ≤ dataLen → dataLen ≤ 24 →
      8 * bufLen < s.2.pos + dataLen →
      bsWrite s.1 s.2 data dataLen = (-1, s.1, s.2) ∧
        bsRead (bufObject s.1 bufLen) s.2 dataLen = some (2 ^ 32 - 1, s.2)) := by
  refine ⟨fun blocks hzero hok hfit => ?_, fun s hs data dataLen _ hlen hend => ?_⟩
  · obtain ⟨-, -, -, hread⟩ := writeBlocks_spec (o := 0) (open_init hzero)
      (by simp [bsInit, BitstreamT.pos]) hok (by omega)
    exact hread _ (holds_bufObject _)
  · obtain ⟨hw, hr⟩ := refused data hbuf (hs.cursorOk hbuf) hlen hend
    exact ⟨hw, hr _⟩

/-- Two blocks of 3 + 13 and 9 bits in four bytes, and a ninth bit too many. -/
theorem bitstream_roundtrip_four :
    let s := writeBlocks (⟨[]⟩, bsInit 4) [[(5, 3), (4099, 13)], [(257, 9)]]
    readBlocks (bufObject s.1 4) (bsInit 4) [[3, 13], [9]] = some ([[5, 4099], [257]], s.2) ∧
      bsWrite ⟨[]⟩ (bsInit 0) 1 9 = (-1, ⟨[]⟩, bsInit 0) := by
  have h4 := (bitstream_roundtrip (by decide : 4 < 2 ^ 28) ⟨[]⟩).1
    [[(5, 3), (4099, 13)], [(257, 9)]] (fun i _ => rfl) (by unfold FieldOk; decide) (by decide)
  have h0 := (bitstream_roundtrip (by decide : 0 < 2 ^ 28) ⟨[]⟩).2 _ .init 1 9 (by decide)
    (by decide) (by decide)
  exact ⟨h4, h0.1⟩

end Meds.Ref
