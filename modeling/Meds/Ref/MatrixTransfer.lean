/-
  Meds.Ref.MatrixTransfer

  A matrix on its way to the host and back, with the local buffer `data_tmp`
  of `read_stream`.

  The values survive the two encodings.  But the buffer is declared with one
  byte and used with two, so the first entry that is read back is the first
  access outside of it.
-/

import Meds.Ref.Wire

namespace Meds.Ref

open Meds.Core

/-- An access outside `data_tmp`. -/
inductive TmpFault where
  | dataTmp
deriving DecidableEq, Repr

/-- The declared length of `data_tmp` in `read_stream`. -/
def dataTmpLen : Nat := 1

/-- `data_tmp[i] = v` in a buffer of `len` bytes. -/
def storeTmp (len : Nat) (tmp : Arr UInt8) (i : Nat) (v : UInt8) : Run TmpFault (Arr UInt8) :=
  if i < len then pure (tmp.set i v) else Run.fail .dataTmp

/-- `data_tmp[i]` in a buffer of `len` bytes. -/
def loadTmp (len : Nat) (tmp : Arr UInt8) (i : Nat) : Run TmpFault UInt8 :=
  if i < len then pure (tmp.get i) else Run.fail .dataTmp

/-- One round of `read_stream`, on `data_tmp` and the array. -/
def readStreamRound (len i : Nat) (s : Arr UInt8 × Arr UInt16) :
    Dialog TmpFault UInt8 (Arr UInt8 × Arr UInt16) := do
  let c ← Dialog.get
  let tmp ← Dialog.lift (storeTmp len s.1 0 c)
  let c ← Dialog.get
  let tmp ← Dialog.lift (storeTmp len tmp 1 c)
  let hi ← Dialog.lift (loadTmp len tmp 0)
  let lo ← Dialog.lift (loadTmp len tmp 1)
  pure (tmp, s.2.set i (UInt16.ofNat (hi.toNat * 256 ||| lo.toNat)))

/-- `read_stream` with a buffer of `len` bytes. -/
def readStreamBuffered (len L : Nat) : Dialog TmpFault UInt8 (Arr UInt16) := do
  let s ← forUpM 0 L (readStreamRound len) (Arr.empty, Arr.empty)
  pure s.2

/-- The host reads a line and sends the bytes it stands for. -/
def hostReturn : Dialog PyError UInt8 Unit := do
  let line ← readLine
  sendHex line

/-- The round trip of `L` entries: what the device prints is what the host
    reads, what the host sends is what the device reads, two bytes an entry,
    and the device gets its entries back without leaving a buffer of `len` bytes. -/
def MatrixTransfer (len : Nat) (M : Arr UInt16) (L : Nat) : Prop :=
  ∃ line bytes : List UInt8,
    (writeStream M L).Speaks (line.map .send) () ∧
    hostReturn.Speaks (line.map .recv ++ bytes.map .send) () ∧ bytes.length = 2 * L ∧
    (readStreamBuffered len L).Speaks (bytes.map .recv) ⟨M.slice 0 L⟩

/-! ## One round -/

theorem speaks_storeTmp {len i : Nat} (hi : i < len) (tmp : Arr UInt8) (v : UInt8) :
    (Dialog.lift (storeTmp len tmp i v) : Dialog TmpFault UInt8 _).Speaks [] (tmp.set i v) :=
  Dialog.speaks_lift (by rw [storeTmp, if_pos hi, Run.returns_pure])

theorem speaks_loadTmp {len i : Nat} (hi : i < len) (tmp : Arr UInt8) :
    (Dialog.lift (loadTmp len tmp i) : Dialog TmpFault UInt8 _).Speaks [] (tmp.get i) :=
  Dialog.speaks_lift (by rw [loadTmp, if_pos hi, Run.returns_pure])

/-- With two bytes a round reads one entry. -/
theorem speaks_readStreamRound {len : Nat} (hlen : 2 ≤ len) (i : Nat) (tmp : Arr UInt8)
    (N : Arr UInt16) (v : UInt16) :
    (readStreamRound len i (tmp, N)).Speaks ((entryBytes v).map .recv)
      ((tmp.set 0 (UInt8.ofNat (v.toNat / 256))).set 1 (UInt8.ofNat v.toNat), N.set i v) := by
  have h0 : 0 < len := by omega
  have h1 : 1 < len := by omega
  refine (Dialog.speaks_get _).bind ((speaks_storeTmp h0 _ _).bind_nil
    ((Dialog.speaks_get _).bind_pure ((speaks_storeTmp h1 _ _).bind_nil
      ((speaks_loadTmp h0 _).bind_nil ((speaks_loadTmp h1 _).bind_nil ?_)))))
  rw [Arr.get_set_self, Arr.get_set_ne _ _ (by decide), Arr.get_set_self, entry_of_bytes]
  exact Dialog.speaks_pure _

theorem stops_storeTmp {len i : Nat} (hi : ¬ i < len) (tmp : Arr UInt8) (v : UInt8)
    (T : List (Act UInt8)) :
    (Dialog.lift (storeTmp len tmp i v) : Dialog TmpFault UInt8 _).Stops T (.fault .dataTmp) := by
  rw [storeTmp, if_neg hi]
  exact Run.faults_bind.mpr (Or.inl (Run.faults_mapFault.mpr ⟨_, Run.faults_fail.mpr rfl, rfl⟩))

/-- With less a round stops at its second store, or at its first. -/
theorem stops_readStreamRound {len : Nat} (hlen : len < 2) (i : Nat) (s : Arr UInt8 × Arr UInt16)
    (hi lo : UInt8) (T : List (Act UInt8)) :
    (readStreamRound len i s).Stops (.recv hi :: .recv lo :: T) (.fault .dataTmp) := by
  refine ((Dialog.speaks_get hi).stops_bind (q := .recv lo :: T)).mpr ?_
  by_cases h0 : 0 < len
  · refine ((speaks_storeTmp h0 s.1 hi).stops_bind (q := .recv lo :: T)).mpr ?_
    refine ((Dialog.speaks_get lo).stops_bind (q := T)).mpr ?_
    exact Dialog.stops_bind.mpr (Or.inl (stops_storeTmp (Nat.not_lt.mpr (by omega)) _ lo T))
  · exact Dialog.stops_bind.mpr (Or.inl (stops_storeTmp h0 _ hi _))

/-! ## The transfer -/

@[simp] theorem length_matrixBytes (M : Arr UInt16) (L : Nat) :
    (matrixBytes M L).length = 2 * L := by
  rw [matrixBytes, List.length_flatMap]
  simp [entryBytes, Nat.mul_comm]

theorem speaks_hostReturn (M : Arr UInt16) (L : Nat) :
    hostReturn.Speaks ((matrixLine M L ++ [newline]).map .recv ++ (matrixBytes M L).map .send) () :=
  (speaks_readLine M L).bind (speaks_sendHex M L)

/-- What `data_tmp` holds before round `i`: the bytes of the entry before. -/
def tmpBefore (M : Arr UInt16) : Nat → Arr UInt8
  | 0 => Arr.empty
  | i + 1 =>
    ((tmpBefore M i).set 0 (UInt8.ofNat ((M.get i).toNat / 256))).set 1 (UInt8.ofNat (M.get i).toNat)

/-- With two bytes the device restores what it has sent, for every length. -/
theorem speaks_readStreamBuffered {len : Nat} (hlen : 2 ≤ len) (M : Arr UInt16) (L : Nat) :
    (readStreamBuffered len L).Speaks ((matrixBytes M L).map .recv) ⟨M.slice 0 L⟩ := by
  have hloop := Dialog.speaks_forUpM (f := readStreamRound len)
    (fun i => (tmpBefore M i, ⟨M.slice 0 i⟩)) (fun i => (entryBytes (M.get i)).map .recv)
    (Nat.zero_le L) fun i _ _ => by
      rw [← set_slice]
      exact speaks_readStreamRound hlen i (tmpBefore M i) _ (M.get i)
  rw [flatMap_entryBytes] at hloop
  exact hloop.bind_pure (Dialog.speaks_pure _)

/-- A shorter buffer is too short for the first entry. -/
theorem not_speaks_readStreamBuffered {len L : Nat} (hshort : len < 2) (hL : 0 < L)
    {bytes : List UInt8} (hlen : bytes.length = 2 * L) (N : Arr UInt16) :
    ¬ (readStreamBuffered len L).Speaks (bytes.map .recv) N := by
  intro h
  match bytes, hlen with
  | [], hlen => simp at hlen; omega
  | [_], hlen => simp at hlen; omega
  | hi :: lo :: bytes, _ =>
      have hstop : (readStreamBuffered len L).Stops
          ((hi :: lo :: bytes).map .recv) (.fault .dataTmp) := by
        rw [readStreamBuffered, forUpM_first hL]
        exact Dialog.stops_bind.mpr (Or.inl (Dialog.stops_bind.mpr (Or.inl
          (stops_readStreamRound hshort 0 _ hi lo _))))
      exact h.not_stops hstop

/-- A matrix comes back from the host within a buffer of `len` bytes exactly when it
    has no entries or two bytes fit. -/
theorem matrixTransfer_len_iff {len : Nat} (M : Arr UInt16) (L : Nat) :
    MatrixTransfer len M L ↔ L = 0 ∨ 2 ≤ len := by
  constructor
  · rintro ⟨line, bytes, -, -, hlen, hread⟩
    by_contra hne
    exact not_speaks_readStreamBuffered (by omega) (by omega) hlen _ hread
  · intro h
    refine ⟨matrixLine M L ++ [newline], matrixBytes M L, speaks_writeStream M L,
      speaks_hostReturn M L, length_matrixBytes M L, ?_⟩
    rcases h with rfl | h2
    · rw [readStreamBuffered, forUpM_self, pure_bind]
      exact Dialog.speaks_pure _
    · exact speaks_readStreamBuffered h2 M L

/-- For the buffer of `read_stream` only the first is possible. -/
theorem matrixTransfer_iff (M : Arr UInt16) (L : Nat) : MatrixTransfer dataTmpLen M L ↔ L = 0 :=
  (matrixTransfer_len_iff M L).trans (or_iff_left (by decide))

/-- One entry already leaves the buffer. -/
theorem not_matrixTransfer_one : ¬ ∀ (M : Arr UInt16) (L : Nat), MatrixTransfer dataTmpLen M L := by
  intro h
  obtain ⟨line, bytes, -, -, hlen, hread⟩ := h ⟨[0x1234]⟩ 1
  exact not_speaks_readStreamBuffered (show dataTmpLen < 2 by decide) Nat.one_pos hlen _ hread

end Meds.Ref
