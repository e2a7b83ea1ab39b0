/-
  Meds.Sage.BitStreamNarrow

  The class `BitStream` on fields of any width.

  A field that ends inside the current byte takes a branch of its own, and
  this branch goes wrong in two ways.  It ORs into the last byte even on a
  byte boundary, where the last byte is full; and it leaves the byte when
  seven bits of it are used, counting in `byte_pos`, which a writer does not
  have.  Fields that stay clear of both are stored as bitstream.c stores
  them, and read back (`Clear`); a list with any other field does not round
  trip, because the data comes out shorter than its fields are long.
-/

import Meds.Core.Guarded
import Meds.Ref.BitstreamRoundtrip
import Meds.Sage.BitStream

namespace Meds.Sage

open Meds.Core Meds.Ref

namespace BitStream

/-- `write` for every (value, width) pair. -/
def writeAll (fields : List (Nat × Nat)) (bs : BitStream) : Except PyError BitStream :=
  fields.foldlM (fun bs f => bs.write f.1 f.2) bs

/-- `read` for every width: the values. -/
def readAll : List Nat → BitStream → Except PyError (List Nat)
  | [], _ => pure []
  | width :: widths, bs => do
    let (v, bs) ← bs.read width
    let vs ← readAll widths bs
    pure (v :: vs)

/-- Write the fields to a fresh stream, and read them from its data. -/
def roundTrip (fields : List (Nat × Nat)) : Except PyError (List Nat) := do
  let bs ← writeAll fields (new [])
  readAll (fields.map Prod.snd) (new bs.data)

/-- No exception, and the values come back. -/
def RoundTrips (fields : List (Nat × Nat)) : Prop :=
  roundTrip fields = .ok (fields.map Prod.fst)

instance (fields : List (Nat × Nat)) : Decidable (RoundTrips fields) :=
  inferInstanceAs (Decidable (_ = _))

/-- From bit position `pos` on, every field that starts on a byte boundary has
    at least eight bits, and none ends at bit 7 of the byte that it starts in. -/
def Clear : Nat → List Nat → Prop
  | _, [] => True
  | pos, width :: widths =>
    (pos % 8 = 0 → 8 ≤ width) ∧ pos % 8 + width ≠ 7 ∧ Clear (pos + width) widths

instance decidableClear : (pos : Nat) → (widths : List Nat) → Decidable (Clear pos widths)
  | _, [] => isTrue trivial
  | pos, width :: widths =>
    have := decidableClear (pos + width) widths
    inferInstanceAs (Decidable (_ ∧ _ ∧ _))

/-! ## Clear fields -/

/-- One clear field: the stream holds the bytes that `bs_write` has stored. -/
theorem write_slice_clear {M : Arr UInt8} {bs : BitstreamT} {v w : Nat} (h0 : bs.bitPos = 0 → 8 ≤ w)
    (h7 : bs.bitPos + w ≠ 7) (hv : v < 2 ^ w) (hbit : bs.bitPos < 8)
    (hfit : bs.pos + w ≤ 8 * bs.bufLen) :
    write ⟨M.slice 0 (byteLen bs.pos), none, bs.bitPos⟩ v w
      = pure ⟨(bsPut w (M, bs) v).1.slice 0 (byteLen (bs.pos + w)), none,
          (bsPut w (M, bs) v).2.bitPos⟩ := by
  by_cases hnarrow : bs.bitPos + w < 8
  · have hpos : bs.pos = 8 * bs.bytePos + bs.bitPos := rfl
    have hlt : v <<< bs.bitPos < 256 := by
      rw [Nat.shiftLeft_eq]
      calc v * 2 ^ bs.bitPos < 2 ^ w * 2 ^ bs.bitPos :=
            Nat.mul_lt_mul_of_pos_right hv (Nat.two_pow_pos _)
        _ = 2 ^ (bs.bitPos + w) := by rw [← Nat.pow_add, Nat.add_comm]
        _ ≤ 256 := Nat.pow_le_pow_right (by decide) (by omega : bs.bitPos + w ≤ 8)
    have hlen : byteLen bs.pos = bs.bytePos + 1 ∧ byteLen (bs.pos + w) = bs.bytePos + 1 := by
      unfold byteLen
      omega
    rw [write, if_pos hnarrow, hlen.1, orLast_slice _ _ _ hlt, pure_bind, if_neg h7, hlen.2]
    simp only [bsPut, bsWrite, exceeds_eq_false hfit, hnarrow, if_true, Bool.false_eq_true,
      if_false, if_neg (show ¬ bs.bitPos + w > 7 by omega)]
  · exact write_slice (by omega) hv hbit hfit

/-- One field that does not end at bit 7: `read` does what `bs_read` does. -/
theorem read_of_bsRead_clear {data : List UInt8} {bs bs' : BitstreamT} {v w : Nat}
    (h7 : bs.bitPos + w ≠ 7) (hexc : bs.exceeds w = false)
    (h : bsRead (fun i => data[i]?) bs w = some (v, bs')) :
    read ⟨data, some bs.bytePos, bs.bitPos⟩ w
      = pure (v, ⟨data, some bs'.bytePos, bs'.bitPos⟩) := by
  by_cases hnarrow : bs.bitPos + w < 8
  · rw [bsRead, if_neg (by simp [hexc]), if_pos hnarrow] at h
    obtain ⟨x, hx, h⟩ := Option.bind_eq_some_iff.mp h
    rw [if_neg (by omega)] at h
    obtain ⟨rfl, rfl⟩ := Prod.mk.inj (Option.some.inj h)
    simp only [read]
    rw [if_pos hnarrow, byteAt_of_some hx, pure_bind, if_neg h7]
  · exact read_of_bsRead (by omega) hexc h

theorem bitPos_eq {bs : BitstreamT} (hbit : bs.bitPos < 8) : bs.bitPos = bs.pos % 8 := by
  unfold BitstreamT.pos
  omega

/-- Clear fields are stored as `bs_write` stores them over zeros. -/
theorem writeAll_clear {bufLen : Nat} {fields : List (Nat × Nat)} {s : Arr UInt8 × BitstreamT}
    (hs : Open bufLen s) (hok : ∀ f ∈ fields, FieldFits f)
    (hfit : s.2.pos + blockBits fields ≤ 8 * bufLen)
    (hclear : Clear s.2.pos (fields.map Prod.snd)) :
    writeAll fields ⟨s.1.slice 0 (byteLen s.2.pos), none, s.2.bitPos⟩
      = pure ⟨(fields.foldl writeField s).1.slice 0 (byteLen (fields.foldl writeField s).2.pos), none,
          (fields.foldl writeField s).2.bitPos⟩ := by
  induction fields generalizing s with
  | nil => rfl
  | cons f fields ih =>
      have hcons : blockBits (f :: fields) = f.2 + blockBits fields := by simp [blockBits]
      rw [hcons] at hfit
      have hf := hok f List.mem_cons_self
      obtain ⟨hopen, -, hpos, -⟩ := writeField_spec hs hf (by omega)
      obtain ⟨h0, h7, hrest⟩ := hclear
      rw [← bitPos_eq hs.bitPos_lt] at h0 h7
      have hstep := write_slice_clear (M := s.1) h0 h7 hf.2 hs.bitPos_lt
        (by rw [hs.bufLen_eq]; omega)
      have hrec := ih hopen (fun g hg => hok g (List.mem_cons_of_mem _ hg)) (by omega)
        (by rw [hpos]; exact hrest)
      unfold writeAll at hrec ⊢
      rw [List.foldlM_cons, hstep, pure_bind, ← hpos]
      exact hrec

/-- What was stored for clear fields reads back. -/
theorem readAll_clear {bufLen : Nat} {fields : List (Nat × Nat)} {s : Arr UInt8 × BitstreamT}
    {data : List UInt8} (hs : Open bufLen s) (hok : ∀ f ∈ fields, FieldFits f)
    (hfit : s.2.pos + blockBits fields ≤ 8 * bufLen)
    (hclear : Clear s.2.pos (fields.map Prod.snd))
    (hmem : Holds bufLen (fun i => data[i]?) (fields.foldl writeField s)) :
    readAll (fields.map Prod.snd) ⟨data, some s.2.bytePos, s.2.bitPos⟩
      = pure (fields.map Prod.fst) := by
  induction fields generalizing s with
  | nil => rfl
  | cons f fields ih =>
      have hcons : blockBits (f :: fields) = f.2 + blockBits fields := by simp [blockBits]
      rw [hcons] at hfit
      have hf := hok f List.mem_cons_self
      have hok' : ∀ g ∈ fields, FieldFits g := fun g hg => hok g (List.mem_cons_of_mem _ hg)
      obtain ⟨hopen, -, hpos, -⟩ := writeField_spec hs hf (by omega)
      obtain ⟨-, h7, hrest⟩ := hclear
      rw [← bitPos_eq hs.bitPos_lt] at h7
      obtain ⟨-, hext, -, -⟩ := writeFields_spec hopen hok' (by omega)
      have hread := bsRead_writeField hs hf (by omega) (hmem.of_extends hext)
      have hexc : s.2.exceeds f.2 = false :=
        exceeds_eq_false (by rw [hs.bufLen_eq]; omega)
      have hrec := ih hopen hok' (by omega) (by rw [hpos]; exact hrest) hmem
      simp only [List.map_cons, readAll]
      rw [read_of_bsRead_clear h7 hexc hread, pure_bind]
      simp only [hrec, pure_bind]

/-- The bytes that were stored hold everything. -/
def holds_slice {bufLen : Nat} (s : Arr UInt8 × BitstreamT) :
    Holds bufLen (fun i => (s.1.slice 0 bufLen)[i]?) s where
  d := s.1.get
  readable i hi := by rw [Arr.getElem?_slice _ hi, Nat.zero_add]
  bits := bits_get s

theorem new_slice (M : Arr UInt8) {n : Nat} (hn : 0 < n) :
    new (M.slice 0 n) = ⟨M.slice 0 n, some 0, 0⟩ := by
  have hne : M.slice 0 n ≠ [] := by
    intro h
    have := congrArg List.length h
    rw [Arr.length_slice, List.length_nil] at this
    omega
  rw [new, if_neg (by simpa using hne)]

theorem roundTrips_of_clear {fields : List (Nat × Nat)} (hok : ∀ f ∈ fields, FieldFits f)
    (hclear : Clear 0 (fields.map Prod.snd)) : RoundTrips fields := by
  -- a cleared buffer of just the right length
  have hopen : Open (byteLen (blockBits fields)) (Arr.empty, bsInit (byteLen (blockBits fields))) :=
    open_init fun i _ => Arr.get_empty i
  have hstart : (bsInit (byteLen (blockBits fields))).pos = 0 := rfl
  have hfit : (bsInit (byteLen (blockBits fields))).pos + blockBits fields
      ≤ 8 * byteLen (blockBits fields) := by
    rw [hstart, byteLen]
    omega
  obtain ⟨-, -, hpos, -⟩ := writeFields_spec hopen hok hfit
  have hwrite := writeAll_clear hopen hok hfit hclear
  have hempty : (Arr.empty : Arr UInt8).slice 0 (byteLen 0) = [] := rfl
  rw [hstart, hempty] at hwrite
  unfold RoundTrips roundTrip
  rw [show new [] = ⟨[], none, (bsInit (byteLen (blockBits fields))).bitPos⟩ from rfl, hwrite,
    pure_bind]
  rw [hstart, Nat.zero_add] at hpos
  simp only [hpos]
  cases fields with
  | nil => rfl
  | cons f fields =>
      have hlen : 0 < byteLen (blockBits (f :: fields)) := by
        have := (hok f List.mem_cons_self).1
        rw [show blockBits (f :: fields) = f.2 + blockBits fields by simp [blockBits], byteLen]
        omega
      rw [new_slice _ hlen]
      exact readAll_clear hopen hok hfit hclear (holds_slice _)

/-! ## The other fields

What every successful call does to lengths and positions, whatever it
stores: a field that is not clear leaves the data a byte short, and nothing
makes up for it. -/

theorem orLast_length {data data' : List UInt8} {v : Nat} (h : orLast data v = .ok data') :
    data'.length = data.length := by
  unfold orLast at h
  split at h
  · cases h
  · split at h
    · cases h
      rw [List.length_set]
    · cases h

/-- From a byte boundary on, a field takes as many bytes as it has begun. -/
theorem writeRest_length {data data' : List UInt8} {v w b : Nat}
    (h : writeRest data v w = .ok (data', b)) :
    data'.length = data.length + byteLen w ∧ b = w % 8 := by
  have hself : (Arr.mk data).slice 0 data.length = data := by
    apply List.ext_getElem (Arr.length_slice _ _ _)
    intro i h1 h2
    rw [Arr.getElem_slice, Nat.zero_add, Arr.get_mk, List.getD_eq_getElem _ _ h2]
  obtain ⟨M', hM', -, -⟩ := bsWriteBytes_spec (Arr.mk data) data.length v w
  have hwhole := writeWhole_slice (Arr.mk data) data.length v w
  rw [hself, hM'] at hwhole
  rw [writeRest, hwhole] at h
  simp only at h
  split at h
  · obtain ⟨buf, happ, h⟩ := except_bind_eq_ok.mp h
    unfold append at happ
    split at happ
    · cases happ
      cases h
      rw [List.length_append, Arr.length_slice, List.length_singleton, byteLen]
      omega
    · cases happ
  · cases h
    rw [Arr.length_slice, byteLen]
    omega

/-- The bytes that the fields lack: one for every short field on a byte boundary. -/
def missing : Nat → List Nat → Nat
  | _, [] => 0
  | pos, width :: widths =>
    (if pos % 8 = 0 ∧ width < 8 then 1 else 0) + missing (pos + width) widths

/-- None of the fields ends at bit 7 of the byte that it starts in. -/
def Leaves : Nat → List Nat → Prop
  | _, [] => True
  | pos, width :: widths => pos % 8 + width ≠ 7 ∧ Leaves (pos + width) widths

theorem clear_iff (pos : Nat) (widths : List Nat) :
    Clear pos widths ↔ Leaves pos widths ∧ missing pos widths = 0 := by
  induction widths generalizing pos with
  | nil => simp [Clear, Leaves, missing]
  | cons width widths ih =>
      simp only [Clear, Leaves, missing, ih]
      by_cases hmiss : pos % 8 = 0 ∧ width < 8
      · rw [if_pos hmiss]
        constructor
        · rintro ⟨h0, -⟩
          exact absurd (h0 hmiss.1) (by omega)
        · rintro ⟨-, hsum⟩
          omega
      · rw [if_neg hmiss, Nat.zero_add]
        have h0 : pos % 8 = 0 → 8 ≤ width := by omega
        constructor
        · rintro ⟨-, h7, hleaves, hrest⟩
          exact ⟨⟨h7, hleaves⟩, hrest⟩
        · rintro ⟨⟨h7, hleaves⟩, hrest⟩
          exact ⟨h0, h7, hleaves, hrest⟩

/-- A successful `write` at bit position `pos`. -/
theorem write_inv {data : List UInt8} {bs : BitStream} {pos v w : Nat} (hw : 1 ≤ w)
    (h : write ⟨data, none, pos % 8⟩ v w = .ok bs) :
    bs.bytePos = none ∧ bs.bitPos = (pos + w) % 8 ∧ pos % 8 + w ≠ 7 ∧
      bs.data.length + (if pos % 8 = 0 ∧ w < 8 then 1 else 0) + byteLen pos
        = data.length + byteLen (pos + w) := by
  unfold write at h
  simp only at h
  split at h
  · -- inside the current byte
    rename_i hnarrow
    obtain ⟨buf, hbuf, h⟩ := except_bind_eq_ok.mp h
    have hlen := orLast_length hbuf
    split at h
    · cases h
    · rename_i h7
      cases h
      refine ⟨rfl, by simp only; omega, h7, ?_⟩
      simp only [hlen]
      split <;> unfold byteLen <;> omega
  · rename_i hwide
    split at h
    · rename_i hb
      obtain ⟨buf, hor, h⟩ := except_bind_eq_ok.mp h
      obtain ⟨⟨buf', b⟩, hrest, h⟩ := except_bind_eq_ok.mp h
      obtain ⟨hlen, rfl⟩ := writeRest_length hrest
      cases h
      rw [orLast_length hor] at hlen
      refine ⟨rfl, by simp only; omega, by omega, ?_⟩
      simp only [hlen]
      rw [if_neg (by omega)]
      unfold byteLen
      omega
    · rename_i hb
      obtain ⟨⟨buf', b⟩, hrest, h⟩ := except_bind_eq_ok.mp h
      obtain ⟨hlen, rfl⟩ := writeRest_length hrest
      cases h
      refine ⟨rfl, by simp only; omega, by omega, ?_⟩
      simp only [hlen]
      rw [if_neg (by omega)]
      unfold byteLen
      omega

/-- A list of fields that could be written. -/
theorem writeAll_inv {fields : List (Nat × Nat)} {data : List UInt8} {bs : BitStream} {pos : Nat}
    (hok : ∀ f ∈ fields, FieldFits f)
    (h : writeAll fields ⟨data, none, pos % 8⟩ = .ok bs) :
    Leaves pos (fields.map Prod.snd) ∧
      bs.data.length + missing pos (fields.map Prod.snd) + byteLen pos
        = data.length + byteLen (pos + blockBits fields) := by
  induction fields generalizing data pos with
  | nil =>
      cases h
      simp [Leaves, missing, blockBits]
  | cons f fields ih =>
      have hcons : blockBits (f :: fields) = f.2 + blockBits fields := by simp [blockBits]
      unfold writeAll at h
      rw [List.foldlM_cons] at h
      obtain ⟨⟨data', bytePos', bitPos'⟩, hwrite, h⟩ := except_bind_eq_ok.mp h
      obtain ⟨rfl, rfl, h7, hlen⟩ := write_inv (hok f List.mem_cons_self).1 hwrite
      obtain ⟨hleaves, hlen'⟩ := ih (fun g hg => hok g (List.mem_cons_of_mem _ hg)) h
      refine ⟨⟨h7, hleaves⟩, ?_⟩
      simp only [List.map_cons, missing]
      rw [hcons, ← Nat.add_assoc pos]
      simp only at hlen
      omega

theorem byteAt_inv {data : List UInt8} {i x : Nat} (h : byteAt data i = .ok x) :
    i < data.length := by
  unfold byteAt at h
  split at h
  · cases h
  · rename_i hx
    exact (List.getElem?_eq_some_iff.mp hx).1

theorem readWhole_inv {bytes : List UInt8} {fuel v off i w : Nat} {r : Nat × Nat × Nat × Nat}
    (hfuel : w ≤ fuel) (h : readWhole bytes fuel (v, off, i, w) = .ok r) :
    r.2.2 = (i + w / 8, w % 8) ∧ (w < 8 ∨ i + w / 8 ≤ bytes.length) := by
  induction fuel generalizing v off i w with
  | zero =>
      cases h
      simp only [Prod.mk.injEq]
      omega
  | succ fuel ih =>
      rw [readWhole] at h
      split at h
      · obtain ⟨x, hx, h⟩ := except_bind_eq_ok.mp h
        have hi := byteAt_inv hx
        obtain ⟨hr, hlen⟩ := ih (by omega) h
        rw [hr, Prod.mk.injEq]
        omega
      · cases h
        simp only [Prod.mk.injEq]
        omega

/-- From a byte boundary on, a field is read from as many bytes as it has begun. -/
theorem readRest_inv {bs bs' : BitStream} {v off i w v' : Nat}
    (h : readRest bs (v, off, i, w) = .ok (v', bs')) :
    bs' = ⟨bs.data, some (i + w / 8), w % 8⟩ ∧ (w = 0 ∨ i + byteLen w ≤ bs.data.length) := by
  obtain ⟨⟨d, o, i', w'⟩, hwhole, h⟩ := except_bind_eq_ok.mp h
  obtain ⟨hr, hlen⟩ := readWhole_inv (Nat.le_refl w) hwhole
  obtain ⟨rfl, rfl⟩ := Prod.mk.inj hr
  simp only at h
  split at h
  · obtain ⟨x, hx, h⟩ := except_bind_eq_ok.mp h
    have hi := byteAt_inv hx
    cases h
    refine ⟨rfl, ?_⟩
    unfold byteLen
    omega
  · cases h
    refine ⟨by rw [show w % 8 = 0 by omega], ?_⟩
    unfold byteLen
    omega

/-- A successful `read` at byte `i`, bit `b`. -/
theorem read_inv {data : List UInt8} {bs : BitStream} {i b v w : Nat} (hb : b < 8)
    (h7 : b + w ≠ 7) (h : read ⟨data, some i, b⟩ w = .ok (v, bs)) :
    ∃ i' b', bs = ⟨data, some i', b'⟩ ∧ b' < 8 ∧ 8 * i' + b' = 8 * i + b + w ∧
      8 * i + b + w ≤ 8 * data.length := by
  unfold read at h
  simp only at h
  split at h
  · rename_i hnarrow
    obtain ⟨x, hx, h⟩ := except_bind_eq_ok.mp h
    have hi := byteAt_inv hx
    cases h
    exact ⟨i, b + w, rfl, hnarrow, by omega, by omega⟩
  · split at h
    · obtain ⟨x, hx, h⟩ := except_bind_eq_ok.mp h
      have hi := byteAt_inv hx
      obtain ⟨rfl, hlen⟩ := readRest_inv h
      simp only [byteLen] at hlen
      exact ⟨_, _, rfl, by omega, by omega, by omega⟩
    · obtain ⟨rfl, hlen⟩ := readRest_inv h
      simp only [byteLen] at hlen
      exact ⟨_, _, rfl, by omega, by omega, by omega⟩

/-- Fields that could be read lie inside the data. -/
theorem readAll_inv {widths : List Nat} {data : List UInt8} {i b : Nat} {vs : List Nat}
    (hb : b < 8) (hleaves : Leaves (8 * i + b) widths)
    (hpos : 8 * i + b ≤ 8 * data.length) (h : readAll widths ⟨data, some i, b⟩ = .ok vs) :
    8 * i + b + widths.sum ≤ 8 * data.length := by
  induction widths generalizing i b vs with
  | nil => simpa using hpos
  | cons w widths ih =>
      obtain ⟨h7, hleaves⟩ := hleaves
      obtain ⟨⟨v, bs⟩, hread, h⟩ := except_bind_eq_ok.mp h
      obtain ⟨vs', hvs, -⟩ := except_bind_eq_ok.mp h
      obtain ⟨i', b', rfl, hb', heq, hend⟩ :=
        read_inv hb (by omega) hread
      have := ih hb' (by rw [heq]; exact hleaves) (by omega) hvs
      rw [List.sum_cons]
      omega

theorem clear_of_roundTrips {fields : List (Nat × Nat)} (hok : ∀ f ∈ fields, FieldFits f)
    (h : RoundTrips fields) : Clear 0 (fields.map Prod.snd) := by
  obtain ⟨bs, hwrite, hread⟩ := except_bind_eq_ok.mp h
  have hfresh : new [] = ⟨[], none, 0 % 8⟩ := rfl
  rw [hfresh] at hwrite
  obtain ⟨hleaves, hlen⟩ := writeAll_inv hok hwrite
  rw [clear_iff]
  refine ⟨hleaves, ?_⟩
  by_cases hne : bs.data = []
  · -- a stream without data is not readable
    cases fields with
    | nil => rfl
    | cons f fields =>
        rw [hne] at hread
        cases hread
  · rw [new, if_neg (by simpa using hne)] at hread
    have hsum := readAll_inv (by decide) hleaves (Nat.zero_le _) hread
    simp only [blockBits, byteLen, List.length_nil] at hlen
    omega

/-- A list of fields round trips iff all of its fields are clear. -/
theorem roundTrips_iff (fields : List (Nat × Nat)) (hok : ∀ f ∈ fields, 1 ≤ f.2 ∧ f.1 < 2 ^ f.2) :
    RoundTrips fields ↔ Clear 0 (fields.map Prod.snd) :=
  ⟨clear_of_roundTrips hok, roundTrips_of_clear hok⟩

/-- A short field behind a wide one. -/
theorem roundTrips_iff_short :
    RoundTrips [(6001, 13), (2, 2)] ↔ Clear 0 [13, 2] :=
  roundTrips_iff [(6001, 13), (2, 2)] (by decide)

/-- One bit into a fresh stream: there is no last byte. -/
theorem not_roundTrips_bit : ¬ RoundTrips [(1, 1)] := by decide

end BitStream

end Meds.Sage
