/-
  Meds.Sage.BitStream

  sage-ref/bitstream.py: the class `BitStream`.

  `data` is a `bytearray` that grows at its end while a stream is written and
  is read by position otherwise.  `byte_pos` exists only on a stream that was
  made from data.  For fields of at least eight bits the methods do what
  `bs_write` and `bs_read` of bitstream.c do, byte for byte.
-/

import Meds.Ref.PackSpec

namespace Meds.Sage

open Meds.Core Meds.Ref

/-- The exceptions that the code can raise. -/
inductive PyError where
  | badSignatureError
  | indexError
  | valueError
  | attributeError
  | typeError
deriving DecidableEq, Repr

/-- The class `BitStream`. -/
structure BitStream where
  data : List UInt8
  bytePos : Option Nat
  bitPos : Nat
deriving DecidableEq, Repr

namespace BitStream

/-- `BitStream(data)`; empty data counts as none. -/
def new (data : List UInt8) : BitStream :=
  if data.isEmpty then ⟨[], none, 0⟩ else ⟨data, some 0, 0⟩

def finalize (bs : BitStream) : BitStream :=
  if bs.bitPos > 0 then { bs with bitPos := 8 } else bs

/-! ## write -/

/-- `self.data[len(self.data) - 1] |= v`. -/
def orLast (data : List UInt8) (v : Nat) : Except PyError (List UInt8) :=
  match data.getLast? with
  | none => throw .indexError
  | some b =>
    if b.toNat ||| v < 256 then
      pure (data.set (data.length - 1) (UInt8.ofNat (b.toNat ||| v)))
    else throw .valueError

/-- `self.data.append(v)`. -/
def append (data : List UInt8) (v : Nat) : Except PyError (List UInt8) :=
  if v < 256 then pure (data ++ [UInt8.ofNat v]) else throw .valueError

/-- `while (data_len >= 8)`: append whole bytes. -/
def writeWhole (s : List UInt8 × Nat × Nat) : List UInt8 × Nat × Nat :=
  iterWhile (fun s => s.2.2 ≥ 8)
    (fun s => (s.1 ++ [UInt8.ofNat (s.2.1 &&& 0xFF)], s.2.1 >>> 8, s.2.2 - 8))
    s.2.2 s

/-- `self.byte_pos += 1`. -/
def incBytePos (bs : BitStream) : Except PyError BitStream :=
  match bs.bytePos with
  | none => throw .attributeError
  | some i => pure { bs with bytePos := some (i + 1) }

/-- The end of `write`, from a byte boundary on: the data and `bit_pos`. -/
def writeRest (buf : List UInt8) (data dataLen : Nat) : Except PyError (List UInt8 × Nat) := do
  let (buf, data, dataLen) := writeWhole (buf, data, dataLen)
  if dataLen > 0 then do
    let buf ← append buf data
    pure (buf, dataLen)
  else pure (buf, 0)

def write (bs : BitStream) (data dataLen : Nat) : Except PyError BitStream :=
  if bs.bitPos + dataLen < 8 then do
    let buf ← orLast bs.data (data <<< bs.bitPos)
    let bitPos := bs.bitPos + dataLen
    if bitPos = 7 then incBytePos { bs with data := buf, bitPos := 0 }
    else pure { bs with data := buf, bitPos := bitPos }
  else do
    let (buf, bitPos) ←
      if bs.bitPos > 0 then do
        let buf ← orLast bs.data (data <<< bs.bitPos &&& 0xFF)
        writeRest buf (data >>> (8 - bs.bitPos)) (dataLen - (8 - bs.bitPos))
      else writeRest bs.data data dataLen
    pure { bs with data := buf, bitPos := bitPos }

/-! ## read -/

/-- `self.data[i]`. -/
def byteAt (data : List UInt8) (i : Nat) : Except PyError Nat :=
  match data[i]? with
  | none => throw .indexError
  | some b => pure b.toNat

/-- `while (data_len >= 8)`: value, offset, byte position, length left. -/
def readWhole (bytes : List UInt8) :
    Nat → Nat × Nat × Nat × Nat → Except PyError (Nat × Nat × Nat × Nat)
  | 0, s => pure s
  | fuel + 1, (data, off, bytePos, dataLen) =>
    if dataLen ≥ 8 then do
      let x ← byteAt bytes bytePos
      readWhole bytes fuel (data ||| x <<< off, off + 8, bytePos + 1, dataLen - 8)
    else pure (data, off, bytePos, dataLen)

/-- The end of `read`, from a byte boundary on. -/
def readRest (bs : BitStream) (s : Nat × Nat × Nat × Nat) : Except PyError (Nat × BitStream) := do
  let (data, off, bytePos, dataLen) ← readWhole bs.data s.2.2.2 s
  if dataLen > 0 then do
    let x ← byteAt bs.data bytePos
    pure (data ||| (x &&& (1 <<< dataLen - 1)) <<< off,
      { bs with bytePos := some bytePos, bitPos := dataLen })
  else pure (data, { bs with bytePos := some bytePos, bitPos := 0 })

def read (bs : BitStream) (dataLen : Nat) : Except PyError (Nat × BitStream) :=
  match bs.bytePos with
  | none => throw .attributeError
  | some bytePos =>
    if bs.bitPos + dataLen < 8 then do
      let x ← byteAt bs.data bytePos
      let data := (x >>> bs.bitPos) &&& (1 <<< dataLen - 1)
      let bitPos := bs.bitPos + dataLen
      if bitPos = 7 then pure (data, { bs with bytePos := some (bytePos + 1), bitPos := 0 })
      else pure (data, { bs with bitPos := bitPos })
    else if bs.bitPos > 0 then do
      let x ← byteAt bs.data bytePos
      readRest bs (x >>> bs.bitPos, 8 - bs.bitPos, bytePos + 1, dataLen - (8 - bs.bitPos))
    else readRest bs (0, 0, bytePos, dataLen)

end BitStream

/-! ## Writing fields -/

theorem slice_succ (M : Arr UInt8) (n : Nat) : M.slice 0 (n + 1) = M.slice 0 n ++ [M.get n] := by
  rw [Arr.slice_add, Nat.zero_add]
  simp [Arr.slice]

/-- Appending a byte to the first `n` bytes of a buffer. -/
theorem slice_set_succ (M : Arr UInt8) (n : Nat) (x : UInt8) :
    (M.set n x).slice 0 (n + 1) = M.slice 0 n ++ [x] := by
  rw [slice_succ, Arr.get_set_self]
  congr 1
  apply Arr.slice_congr
  intro i hi
  exact Arr.get_set_ne _ _ (by omega)

namespace BitStream

theorem orLast_slice (M : Arr UInt8) (n v : Nat) (hv : v < 256) :
    orLast (M.slice 0 (n + 1)) v
      = pure ((M.set n (UInt8.ofNat ((M.get n).toNat ||| v))).slice 0 (n + 1)) := by
  have hlt : (M.get n).toNat ||| v < 256 := Nat.or_lt_two_pow (n := 8) (UInt8.toNat_lt _) hv
  rw [slice_set_succ, slice_succ, orLast, List.getLast?_concat]
  simp only [if_pos hlt]
  rw [List.length_append, Arr.length_slice, List.length_singleton, Nat.add_sub_cancel,
    List.set_append_right _ _ (by rw [Arr.length_slice])]
  simp

/-- Appending whole bytes is storing them behind what is there. -/
theorem writeWhole_slice (M : Arr UInt8) (pos data len : Nat) :
    writeWhole (M.slice 0 pos, data, len)
      = ((bsWriteBytes (M, pos, data, len)).1.slice 0 (bsWriteBytes (M, pos, data, len)).2.1,
        (bsWriteBytes (M, pos, data, len)).2.2) := by
  rw [writeWhole, bsWriteBytes]
  generalize hm : (M.slice 0 pos, data, len).2.2 = m
  generalize hn : (M, pos, data, len).2.2.2 = n
  obtain rfl : m = n := hm.symm.trans hn
  clear hm hn
  induction m generalizing M pos data len with
  | zero => rfl
  | succ m ih =>
      simp only [iterWhile]
      by_cases h8 : len ≥ 8
      · simp only [h8, decide_true, if_true]
        rw [← slice_set_succ]
        exact ih _ _ _ _
      · simp only [h8, decide_false, Bool.false_eq_true, if_false]

theorem append_slice (M : Arr UInt8) (n : Nat) {v : Nat} (hv : v < 256) :
    append (M.slice 0 n) v = pure ((M.set n (UInt8.ofNat v)).slice 0 (n + 1)) := by
  rw [append, if_pos hv, slice_set_succ]

/-- From a byte boundary on, the stream appends what `bs_write` stores. -/
theorem writeRest_slice {M : Arr UInt8} {p d l : Nat} (hd : d < 2 ^ l) :
    ∃ M', bsWriteBytes (M, p, d, l) = (M', p + l / 8, d >>> (8 * (l / 8)), l % 8) ∧
      writeRest (M.slice 0 p) d l
        = pure (if l % 8 > 0 then
            ((M'.set (p + l / 8) (UInt8.ofNat (d >>> (8 * (l / 8))))).slice 0 (p + l / 8 + 1), l % 8)
          else (M'.slice 0 (p + l / 8), 0)) := by
  obtain ⟨M', hM', -, -⟩ := bsWriteBytes_spec M p d l
  refine ⟨M', hM', ?_⟩
  rw [writeRest, writeWhole_slice, hM']
  simp only
  by_cases hl : l % 8 > 0
  · have hlt : d >>> (8 * (l / 8)) < 256 := by
      rw [Nat.shiftRight_eq_div_pow, Nat.div_lt_iff_lt_mul (Nat.two_pow_pos _),
        show (256 : Nat) = 2 ^ 8 from rfl, ← Nat.pow_add]
      exact Nat.lt_of_lt_of_le hd (Nat.pow_le_pow_right (by decide) (by omega))
    rw [if_pos hl, if_pos hl, append_slice _ _ hlt, pure_bind]
  · rw [if_neg hl, if_neg hl]

/-- One field that fills the current byte: the stream holds the bytes that
    `bs_write` has stored up to its position. -/
theorem write_slice {M : Arr UInt8} {bs : BitstreamT} {v w : Nat} (hw : 8 ≤ bs.bitPos + w)
    (hv : v < 2 ^ w) (hbit : bs.bitPos < 8) (hfit : bs.pos + w ≤ 8 * bs.bufLen) :
    write ⟨M.slice 0 (byteLen bs.pos), none, bs.bitPos⟩ v w
      = pure ⟨(bsPut w (M, bs) v).1.slice 0 (byteLen (bs.pos + w)), none,
          (bsPut w (M, bs) v).2.bitPos⟩ := by
  have hpos : bs.pos = 8 * bs.bytePos + bs.bitPos := rfl
  have hexc := exceeds_eq_false hfit
  have hwide : ¬ bs.bitPos + w < 8 := by omega
  -- the last byte of the stream is filled up first
  by_cases hb : bs.bitPos > 0
  · have hand : v <<< bs.bitPos &&& 0xFF < 256 := Nat.lt_of_le_of_lt Nat.and_le_right (by decide)
    have hv' : v >>> (8 - bs.bitPos) < 2 ^ (w - (8 - bs.bitPos)) := by
      rw [Nat.shiftRight_eq_div_pow, Nat.div_lt_iff_lt_mul (Nat.two_pow_pos _), ← Nat.pow_add]
      exact Nat.lt_of_lt_of_le hv (Nat.pow_le_pow_right (by decide) (by omega))
    obtain ⟨M', hM', hrest⟩ := writeRest_slice (p := bs.bytePos + 1)
      (M := M.set bs.bytePos (UInt8.ofNat ((M.get bs.bytePos).toNat ||| v <<< bs.bitPos &&& 0xFF)))
      hv'
    rw [write, if_neg hwide, if_pos hb, show byteLen bs.pos = bs.bytePos + 1 by unfold byteLen; omega,
      orLast_slice _ _ _ hand, pure_bind, hrest, pure_bind]
    simp only [bsPut, bsWrite, hexc, hwide, hb, hM', if_true, if_false, Bool.false_eq_true]
    -- a byte more where bits remain
    by_cases hl : (w - (8 - bs.bitPos)) % 8 > 0
    · simp only [hl, if_true]
      rw [show byteLen (bs.pos + w) = bs.bytePos + 1 + (w - (8 - bs.bitPos)) / 8 + 1 by
        unfold byteLen; omega]
    · simp only [hl, if_false]
      rw [show byteLen (bs.pos + w) = bs.bytePos + 1 + (w - (8 - bs.bitPos)) / 8 by
        unfold byteLen; omega]
  · obtain ⟨M', hM', hrest⟩ := writeRest_slice (M := M) (p := bs.bytePos) hv
    rw [write, if_neg hwide, if_neg hb, show byteLen bs.pos = bs.bytePos by unfold byteLen; omega,
      hrest, pure_bind]
    simp only [bsPut, bsWrite, hexc, hwide, hb, hM', if_false, Bool.false_eq_true]
    by_cases hl : w % 8 > 0
    · simp only [hl, if_true]
      rw [show byteLen (bs.pos + w) = bs.bytePos + w / 8 + 1 by unfold byteLen; omega]
    · simp only [hl, if_false]
      rw [show byteLen (bs.pos + w) = bs.bytePos + w / 8 by unfold byteLen; omega]

/-- Writing a list of fields packs it. -/
theorem write_list {w : Nat} {l : List Nat} (hw : 8 ≤ w) (hlt : ∀ v ∈ l, v < 2 ^ w) :
    l.foldlM (fun bs v => write bs v w) (new [])
      = pure ⟨packBytes w l, none, w * l.length % 8⟩ := by
  induction l using List.reverseRecOn with
  | nil => simp [new, packBytes, byteLen]
  | append_singleton l v ih =>
      have hlen : w * (l ++ [v]).length = w * l.length + w := by simp [Nat.mul_succ]
      have hltl : ∀ x ∈ l, x < 2 ^ w := fun x hx => hlt x (List.mem_append_left _ hx)
      have hpos : (BitstreamT.mk (w * l.length + w) (w * l.length / 8) (w * l.length % 8)).pos
          = w * l.length := by
        simp only [BitstreamT.pos]
        omega
      -- a C buffer in which the fields so far are packed
      obtain ⟨M, hM, hblock⟩ := @bsPut_list Arr.empty (w * l.length + w) 0 w l
        (by omega : 0 < w) hltl (by omega) (Or.inl hw)
      obtain ⟨M', hM', hblock'⟩ := @bsPut_list Arr.empty (w * l.length + w) 0 w
        (l ++ [v]) (by omega : 0 < w) hlt (by omega) (Or.inl hw)
      have hpack : ∀ {N : Arr UInt8} {l' : List Nat}, WroteBlock Arr.empty N 0 w l' →
          N.slice 0 (byteLen (w * l'.length)) = packBytes w l' := by
        intro N l' hN
        rw [Arr.slice_congr (N := Arr.empty.blit 0 (packBytes w l')) (b := 0)
          (fun i _ => hN.get_eq _), ← length_packBytes, Arr.slice_blit]
      rw [List.foldlM_append, ih hltl, pure_bind, List.foldlM_cons]
      rw [List.foldl_append, hM, Nat.zero_add] at hM'
      have hroom : w * l.length + w ≤ 8 * (w * l.length + w) := by omega
      have hstep := write_slice (M := M) (hw.trans (Nat.le_add_left w _)) (hlt v (by simp))
        (Nat.mod_lt (w * l.length) (by decide : 0 < 8)) (by rwa [hpos])
      rw [hpos, hpack hblock] at hstep
      simp only [List.foldl_cons, List.foldl_nil] at hM'
      rw [hstep, hM', pure_bind, List.foldlM_nil, hlen, ← hpack hblock', hlen]

/-! ## Reading fields -/

theorem byteAt_of_some {data : List UInt8} {i : Nat} {x : UInt8} (h : data[i]? = some x) :
    byteAt data i = pure x.toNat := by
  rw [byteAt, h]

theorem readWhole_of_bsReadBytes {data : List UInt8} {fuel : Nat} {s r : Nat × Nat × Nat × Nat}
    (h : bsReadBytes (fun i => data[i]?) fuel s = some r) : readWhole data fuel s = pure r := by
  induction fuel generalizing s with
  | zero =>
      rw [bsReadBytes] at h
      rw [readWhole, Option.some.inj h]
  | succ fuel ih =>
      rw [bsReadBytes] at h
      rw [readWhole]
      by_cases h8 : s.2.2.2 ≥ 8
      · rw [if_pos h8] at h ⊢
        obtain ⟨x, hx, h⟩ := Option.bind_eq_some_iff.mp h
        rw [byteAt_of_some hx, pure_bind]
        exact ih h
      · rw [if_neg h8] at h ⊢
        rw [← Option.some.inj h]

theorem readRest_of {bs : BitStream} {s r : Nat × Nat × Nat × Nat}
    (h : bsReadBytes (fun i => bs.data[i]?) s.2.2.2 s = some r) :
    readRest bs s
      = if r.2.2.2 > 0 then do
          let x ← byteAt bs.data r.2.2.1
          pure (r.1 ||| (x &&& (1 <<< r.2.2.2 - 1)) <<< r.2.1,
            { bs with bytePos := some r.2.2.1, bitPos := r.2.2.2 })
        else pure (r.1, { bs with bytePos := some r.2.2.1, bitPos := 0 }) := by
  rw [readRest, readWhole_of_bsReadBytes h, pure_bind]

/-- Where `bs_read` reads a field to the end of the current byte, so does `read`. -/
theorem read_of_bsRead {data : List UInt8} {bs bs' : BitstreamT} {v w : Nat}
    (hw : 8 ≤ bs.bitPos + w) (hexc : bs.exceeds w = false)
    (h : bsRead (fun i => data[i]?) bs w = some (v, bs')) :
    read ⟨data, some bs.bytePos, bs.bitPos⟩ w
      = pure (v, ⟨data, some bs'.bytePos, bs'.bitPos⟩) := by
  have hwide : ¬ bs.bitPos + w < 8 := by omega
  -- the last step is the same in both: some more bits, or a byte boundary
  have hlast : ∀ r : Nat × Nat × Nat × Nat,
      (if r.2.2.2 > 0 then do
          let x ← data[r.2.2.1]?
          some (r.1 ||| (x.toNat &&& (1 <<< r.2.2.2 - 1)) <<< r.2.1,
            ({ bs with bytePos := r.2.2.1, bitPos := r.2.2.2 } : BitstreamT))
        else some (r.1, { bs with bytePos := r.2.2.1, bitPos := 0 })) = some (v, bs') →
      (if r.2.2.2 > 0 then do
          let x ← byteAt data r.2.2.1
          pure (r.1 ||| (x &&& (1 <<< r.2.2.2 - 1)) <<< r.2.1,
            (⟨data, some r.2.2.1, r.2.2.2⟩ : BitStream))
        else pure (r.1, ⟨data, some r.2.2.1, 0⟩) : Except PyError _)
        = pure (v, ⟨data, some bs'.bytePos, bs'.bitPos⟩) := by
    intro r h
    by_cases hl : r.2.2.2 > 0
    · rw [if_pos hl] at h ⊢
      obtain ⟨x, hx, h⟩ := Option.bind_eq_some_iff.mp h
      rw [byteAt_of_some hx, pure_bind]
      cases h
      rfl
    · rw [if_neg hl] at h ⊢
      cases h
      rfl
  rw [bsRead, if_neg (by simp [hexc]), if_neg hwide] at h
  by_cases hb : bs.bitPos > 0
  · simp only [hb, if_true] at h
    obtain ⟨x, hx, h⟩ := Option.bind_eq_some_iff.mp h
    obtain ⟨s, hs, h⟩ := Option.bind_eq_some_iff.mp h
    cases hs
    obtain ⟨r, hr, h⟩ := Option.bind_eq_some_iff.mp h
    simp only [read, hwide, hb, if_true, if_false]
    rw [byteAt_of_some hx, pure_bind, @readRest_of ⟨data, _, _⟩ _ _ hr]
    exact hlast r h
  · simp only [hb, if_false] at h
    obtain ⟨s, hs, h⟩ := Option.bind_eq_some_iff.mp h
    cases hs
    obtain ⟨r, hr, h⟩ := Option.bind_eq_some_iff.mp h
    simp only [read, hwide, hb, if_false]
    rw [@readRest_of ⟨data, _, _⟩ _ _ hr]
    exact hlast r h

/-- Field `i` of a stream. -/
theorem read_field {data : List UInt8} {w i : Nat} (hw : 8 ≤ w)
    (hfit : w * (i + 1) ≤ 8 * data.length) :
    read ⟨data, some (w * i / 8), w * i % 8⟩ w
      = pure (unpackAt (Arr.mk data).get 0 w i, ⟨data, some (w * (i + 1) / 8), w * (i + 1) % 8⟩) := by
  have hread := @bsRead_field (fun i => data[i]?) (Arr.mk data).get
    data.length 0 w i (by omega) (by omega) fun j hj => by
      rw [List.getElem?_eq_getElem hj, Arr.get_mk, List.getD_eq_getElem _ _ hj]
  rw [Nat.zero_add, Nat.zero_add] at hread
  refine read_of_bsRead (hw.trans (Nat.le_add_left w _)) (exceeds_eq_false ?_) hread
  rw [Nat.mul_succ] at hfit
  simp only [BitstreamT.pos]
  omega

end BitStream

end Meds.Sage
