/-
  Meds.Ref.PackSpec

  The loops of ref/meds_serial.c that move matrices through a bit stream.

  A matrix goes out as one block: its entries at GFq_bits each, then a
  `bs_finalize`.  Blocks are byte aligned, so a sequence of them is the
  concatenation of the packed byte strings, and reading entry `j` of a block
  back is `unpackAt` at the block's first byte.
-/

import Meds.Core.Table
import Meds.Ref.BitstreamSpec
import Meds.Ref.MedsSerial

namespace Meds.Ref

open Meds.Core

/-! ## Concatenations of equally long lists -/

section

variable {β : Type} {f : Nat → List β} {lo cnt c : Nat}

theorem length_flatMap_range' (hlen : ∀ i, lo ≤ i → i < lo + cnt → (f i).length = c) :
    ((List.range' lo cnt).flatMap f).length = c * cnt := by
  induction cnt generalizing lo with
  | zero => rfl
  | succ cnt ih =>
      rw [List.range'_succ, List.flatMap_cons, List.length_append,
        ih fun i h1 h2 => hlen i (by omega) (by omega), hlen lo (Nat.le_refl _) (by omega),
        Nat.mul_succ, Nat.add_comm]

theorem getD_flatMap_range' (hlen : ∀ i, lo ≤ i → i < lo + cnt → (f i).length = c) {q x : Nat}
    (hq : q < cnt) (hx : x < c) (d : β) :
    ((List.range' lo cnt).flatMap f).getD (c * q + x) d = (f (lo + q)).getD x d := by
  induction cnt generalizing lo q with
  | zero => omega
  | succ cnt ih =>
      have h0 := hlen lo (Nat.le_refl _) (by omega)
      rw [List.range'_succ, List.flatMap_cons]
      cases q with
      | zero =>
          rw [Nat.mul_zero, Nat.zero_add, List.getD_append _ _ _ _ (by omega), Nat.add_zero]
      | succ q =>
          rw [Nat.mul_succ, List.getD_append_right _ _ _ _ (by omega), h0,
            show c * q + c + x - c = c * q + x by omega,
            ih (fun i h1 h2 => hlen i (by omega) (by omega)) (by omega),
            show lo + 1 + q = lo + (q + 1) by omega]

end

/-! ## Cursors -/

/-- The cursor after `i` fields of width `w`, from byte `o` on. -/
def cursor (bufLen o w i : Nat) : BitstreamT := ⟨bufLen, o + w * i / 8, w * i % 8⟩

@[simp] theorem cursor_zero (bufLen o w : Nat) : cursor bufLen o w 0 = ⟨bufLen, o, 0⟩ := by
  simp [cursor]

theorem bsFinalize_cursor (bufLen o w i : Nat) :
    bsFinalize (cursor bufLen o w i) = cursor bufLen (o + byteLen (w * i)) w 0 := by
  rw [cursor_zero]
  exact bsFinalize_block _ _ _

theorem ceiling_eight (n : Nat) : ceiling n 8 = byteLen n := by
  unfold ceiling byteLen
  omega

/-! ## Writing blocks -/

/-- Write the values of a block and finalize. -/
def putBlock (w : Nat) (s : Arr UInt8 × BitstreamT) (l : List Nat) : Arr UInt8 × BitstreamT :=
  putFinalize (l.foldl (bsPut w) s)

/-- Bytes of a sequence of blocks. -/
def blocksLen (w : Nat) (L : List (List Nat)) : Nat := (L.map fun l => byteLen (w * l.length)).sum

@[simp] theorem length_packBlocks (w : Nat) (L : List (List Nat)) :
    (L.flatMap (packBytes w)).length = blocksLen w L := by
  rw [blocksLen, List.length_flatMap]
  congr 1
  exact List.map_congr_left fun l _ => length_packBytes w l

theorem blocksLen_append (w : Nat) (L L' : List (List Nat)) :
    blocksLen w (L ++ L') = blocksLen w L + blocksLen w L' := by
  simp [blocksLen]

theorem get_blit_congr {M N : Arr UInt8} (h : ∀ i, M.get i = N.get i) (o : Nat) (l : List UInt8)
    (i : Nat) : (M.blit o l).get i = (N.blit o l).get i := by
  rw [Arr.get_blit, Arr.get_blit, h]

/-- A sequence of blocks is the concatenation of their packings. -/
theorem putBlocks_spec (buf : Arr UInt8) (bufLen : Nat) {o w : Nat} {L : List (List Nat)}
    (hw : 0 < w)
    (hlt : ∀ l ∈ L, ∀ v ∈ l, v < 2 ^ w) (hfit : o + blocksLen w L ≤ bufLen)
    (hzero : 8 ≤ w ∨ ∀ i, o ≤ i → i < o + blocksLen w L → buf.get i = 0) :
    (∀ i, (L.foldl (putBlock w) (buf, cursor bufLen o w 0)).1.get i
        = (buf.blit o (L.flatMap (packBytes w))).get i) ∧
      (L.foldl (putBlock w) (buf, cursor bufLen o w 0)).2 = cursor bufLen (o + blocksLen w L) w 0 := by
  induction L generalizing buf o with
  | nil => exact ⟨fun _ => rfl, rfl⟩
  | cons l L ih =>
      have hsum : blocksLen w (l :: L) = byteLen (w * l.length) + blocksLen w L := by
        simp [blocksLen]
      rw [hsum] at hfit hzero ⊢
      obtain ⟨hget, hbs⟩ := bsPut_block buf bufLen (o := o) (w := w) (l := l) hw
        (hlt l List.mem_cons_self) (by omega)
        (hzero.imp_right fun hz i h1 h2 => hz i h1 (by omega))
      have hblock : putBlock w (buf, cursor bufLen o w 0) l
          = ((l.foldl (bsPut w) (buf, ⟨bufLen, o, 0⟩)).1,
            cursor bufLen (o + byteLen (w * l.length)) w 0) := by
        rw [putBlock, putFinalize, cursor_zero, hbs, cursor_zero]
      rw [List.foldl_cons, hblock]
      generalize (l.foldl (bsPut w) (buf, ⟨bufLen, o, 0⟩)).1 = buf1 at hget ⊢
      obtain ⟨hget', hbs'⟩ := ih buf1 (o := o + byteLen (w * l.length))
        (fun l hl => hlt l (List.mem_cons_of_mem _ hl)) (by omega)
        (hzero.imp_right fun hz i h1 h2 => by
          rw [hget, Arr.get_blit_of_ge _ _ (by rw [length_packBytes]; omega)]
          exact hz i (by omega) (by omega))
      refine ⟨fun i => ?_, by rw [hbs', Nat.add_assoc]⟩
      rw [hget', get_blit_congr hget, List.flatMap_cons, Arr.blit_append, length_packBytes]

/-- The values a `writeEntries` loop writes. -/
def entries (M : Arr UInt16) (off lo hi : Nat) : List Nat :=
  (List.range' lo (hi - lo)).map fun j => (M.get (off + j)).toNat

@[simp] theorem length_entries (M : Arr UInt16) (off lo hi : Nat) :
    (entries M off lo hi).length = hi - lo := by
  simp [entries]

/-- The values depend on the cells of their range. -/
theorem entries_eq_of_get {M N : Arr UInt16} {off lo hi : Nat}
    (h : ∀ j, lo ≤ j → j < hi → M.get (off + j) = N.get (off + j)) :
    entries M off lo hi = entries N off lo hi := by
  apply List.map_congr_left
  intro j hj
  rw [List.mem_range'_1] at hj
  rw [h j hj.1 (by omega)]

theorem getD_entries (M : Arr UInt16) (off : Nat) {lo hi j : Nat} (h1 : lo ≤ j) (h2 : j < hi) :
    (entries M off lo hi).getD (j - lo) 0 = (M.get (off + j)).toNat := by
  have hlt : j - lo < (entries M off lo hi).length := by
    rw [length_entries]
    omega
  rw [List.getD_eq_getElem _ _ hlt]
  simp only [entries, List.getElem_map, List.getElem_range']
  rw [show off + (lo + 1 * (j - lo)) = off + j by omega]

section

variable {P : Params}

theorem writeEntries_eq (M : Arr UInt16) (off lo hi : Nat) (s : Arr UInt8 × BitstreamT) :
    writeEntries P M off lo hi s = (entries M off lo hi).foldl (bsPut P.gfqBits) s :=
  forUp_eq_foldl lo hi (fun j => (M.get (off + j)).toNat) (bsPut P.gfqBits) s

theorem writeMatrices_eq (M : Arr (Arr UInt16)) (len : Nat) (s : Arr UInt8 × BitstreamT) :
    writeMatrices P M len s
      = ((List.range' 1 (P.s - 1)).map fun si => entries (M.get si) 0 0 len).foldl
          (putBlock P.gfqBits) s := by
  rw [← forUp_eq_foldl 1 P.s]
  unfold writeMatrices
  refine forUp_congr (fun si s _ _ => ?_) s
  rw [writeEntries_eq]
  rfl

/-- The rows `r, …` of a generator without their first `k` entries. -/
def rowEntries (P : Params) (G : Arr UInt16) (lo hi : Nat) : List Nat :=
  (List.range' lo (hi - lo)).flatMap fun r => entries G (r * P.m * P.n) P.k (P.m * P.n)

theorem writeRows_eq (G : Arr UInt16) (lo hi : Nat) (s : Arr UInt8 × BitstreamT) :
    forUp lo hi (fun r s => writeEntries P G (r * P.m * P.n) P.k (P.m * P.n) s) s
      = (rowEntries P G lo hi).foldl (bsPut P.gfqBits) s := by
  rw [rowEntries, ← forUp_foldl lo hi]
  exact forUp_congr (fun r s _ _ => writeEntries_eq _ _ _ _ _) s

@[simp] theorem length_rowEntries (G : Arr UInt16) (lo hi : Nat) :
    (rowEntries P G lo hi).length = (P.m * P.n - P.k) * (hi - lo) :=
  length_flatMap_range' fun _ _ _ => length_entries _ _ _ _

theorem getD_rowEntries (G : Arr UInt16) (lo hi : Nat) {r j : Nat} (h1 : lo ≤ r) (h2 : r < hi)
    (hj1 : P.k ≤ j) (hj2 : j < P.m * P.n) :
    (rowEntries P G lo hi).getD ((P.m * P.n - P.k) * (r - lo) + (j - P.k)) 0
      = (G.get (r * P.m * P.n + j)).toNat := by
  rw [rowEntries, getD_flatMap_range' (c := P.m * P.n - P.k) (fun _ _ _ => length_entries _ _ _ _)
    (by omega) (by omega), getD_entries G _ hj1 hj2, show lo + (r - lo) = r by omega]

/-- What the public key stores of one generator. -/
def pkBlock (P : Params) (G : Arr UInt16) : List Nat :=
  entries G (P.m * P.n) ((P.m - 1) * P.n) (P.m * P.n) ++ rowEntries P G 2 P.k

theorem writePkMatrices_eq (G : Arr (Arr UInt16)) (s : Arr UInt8 × BitstreamT) :
    writePkMatrices P G s
      = ((List.range' 1 (P.s - 1)).map fun si => pkBlock P (G.get si)).foldl
          (putBlock P.gfqBits) s := by
  rw [← forUp_eq_foldl 1 P.s]
  unfold writePkMatrices
  refine forUp_congr (fun si s _ _ => ?_) s
  simp only
  rw [writeEntries_eq, writeRows_eq, ← List.foldl_append]
  rfl

/-- `bs_buf` holds the packed rows, whatever it held before. -/
theorem packCommitment_eq {bsBuf : Arr UInt8} {G : Arr UInt16} (hw : 0 < P.gfqBits)
    (hlt : ∀ v ∈ rowEntries P G 0 P.k, v < 2 ^ P.gfqBits)
    (hzero : 8 ≤ P.gfqBits ∨ ∀ i, bsBuf.get i = 0) :
    packCommitment P bsBuf G = packBytes P.gfqBits (rowEntries P G 0 P.k) := by
  have hlen : bsBufLen P = byteLen (P.gfqBits * (rowEntries P G 0 P.k).length) := by
    rw [bsBufLen, ceiling_eight, length_rowEntries, Nat.sub_zero, Nat.mul_comm _ P.gfqBits,
      Nat.mul_comm P.k]
  obtain ⟨hget, -⟩ := bsPut_block bsBuf (bsBufLen P) (o := 0) hw hlt
    (by rw [hlen, Nat.zero_add]) (hzero.imp_right fun hz i _ _ => hz i)
  unfold packCommitment
  simp only
  rw [writeRows_eq, bsInit, Arr.slice_congr (N := bsBuf.blit 0 (packBytes P.gfqBits
    (rowEntries P G 0 P.k))) (b := 0) (fun i _ => hget _), hlen, ← length_packBytes, Arr.slice_blit]

/-! ## Reading blocks -/

/-- `hi - lo` fields of a bit stream, from field `i` on, in consecutive cells. -/
structure ReadInto (d : Nat → UInt8) (o w i off lo hi : Nat) (f : Nat → UInt16)
    (M M' : Arr UInt16) : Prop where
  cell : ∀ j, lo ≤ j → j < hi → M'.get (off + j) = f (unpackAt d o w (i + (j - lo)))
  rest : ∀ idx, idx < off + lo ∨ off + hi ≤ idx → M'.get idx = M.get idx

theorem readLoop_spec {mem : Nat → Option UInt8} {d : Nat → UInt8} {bufLen o w i : Nat}
    (off lo hi : Nat)
    {ι : Nat → Nat} {f : Nat → UInt16} (hι : ∀ j, ι j = off + j) (hw : 0 < w) (hle : lo ≤ hi)
    (hfit : 8 * o + w * (i + (hi - lo)) ≤ 8 * bufLen)
    (hmem : ∀ j, j < bufLen → mem j = some (d j)) (M : Arr UInt16) :
    ∃ M', forUpM lo hi (fun j (s : Arr UInt16 × BitstreamT) => do
          let (v, bs) ← bsRead mem s.2 w
          pure (s.1.set (ι j) (f v), bs)) (M, cursor bufLen o w i)
        = some (M', cursor bufLen o w (i + (hi - lo))) ∧
      ReadInto d o w i off lo hi f M M' := by
  induction hi, hle using Nat.le_induction with
  | base =>
      refine ⟨M, by rw [forUpM_self, Nat.sub_self]; rfl, fun j h1 h2 => absurd h1 (by omega),
        fun _ _ => rfl⟩
  | succ hi hle ih =>
      have hmono : w * (i + (hi - lo)) ≤ w * (i + (hi + 1 - lo)) :=
        Nat.mul_le_mul_left _ (by omega)
      obtain ⟨M', hM', hread⟩ := ih (by omega)
      rw [forUpM_succ hle, hM']
      have hfield := bsRead_field (o := o) (i := i + (hi - lo)) hw
        (by rw [show i + (hi - lo) + 1 = i + (hi + 1 - lo) by omega]; exact hfit) hmem
      refine ⟨M'.set (off + hi) (f (unpackAt d o w (i + (hi - lo)))), ?_, fun j h1 h2 => ?_,
        fun idx hidx => ?_⟩
      · change (bsRead mem (cursor bufLen o w (i + (hi - lo))) w >>= _) = _
        rw [cursor, hfield, show i + (hi - lo) + 1 = i + (hi + 1 - lo) by omega, ← hι]
        rfl
      · -- the field just read, or one read before
        by_cases hj : j = hi
        · subst hj
          rw [Arr.get_set_self]
        · rw [Arr.get_set_ne _ _ (by omega)]
          exact hread.cell j h1 (by omega)
      · rw [Arr.get_set_ne _ _ (by omega)]
        exact hread.rest idx (by omega)

section

variable {mem : Nat → Option UInt8} {d : Nat → UInt8} {bufLen o : Nat}

theorem readEntries_spec {i : Nat} (off lo hi : Nat) (hw : 0 < P.gfqBits) (hle : lo ≤ hi)
    (hfit : 8 * o + P.gfqBits * (i + (hi - lo)) ≤ 8 * bufLen)
    (hmem : ∀ j, j < bufLen → mem j = some (d j)) (M : Arr UInt16) :
    ∃ M', readEntries P mem off lo hi (M, cursor bufLen o P.gfqBits i)
        = some (M', cursor bufLen o P.gfqBits (i + (hi - lo))) ∧
      ReadInto d o P.gfqBits i off lo hi UInt16.ofNat M M' :=
  readLoop_spec _ _ _ (fun _ => rfl) hw hle hfit hmem M

/-- Reading one response reduces its entries. -/
theorem readResponse_spec {n : Nat} (hw : 0 < P.gfqBits)
    (hfit : o + byteLen (P.gfqBits * (n * n)) ≤ bufLen)
    (hmem : ∀ j, j < bufLen → mem j = some (d j)) :
    ∃ M, readResponse P mem n (cursor bufLen o P.gfqBits 0)
        = some (M, cursor bufLen (o + byteLen (P.gfqBits * (n * n))) P.gfqBits 0) ∧
      ∀ j, j < n * n → M.get j = UInt16.ofNat (unpackAt d o P.gfqBits j % P.p) := by
  obtain ⟨M, hM, hread⟩ := readLoop_spec 0 0 (n * n) (ι := fun j => j)
    (i := 0) (o := o) (f := fun v => UInt16.ofNat (v % P.p))
    (fun j => (Nat.zero_add j).symm) hw (Nat.zero_le _)
    (by unfold byteLen at hfit; rw [Nat.zero_add, Nat.sub_zero]; omega) hmem Arr.empty
  refine ⟨M, ?_, fun j hj => ?_⟩
  · unfold readResponse
    rw [hM]
    simp only [Nat.sub_zero, Nat.zero_add, Option.bind_eq_bind, Option.bind_some, bsFinalize_cursor]
    rfl
  · have := hread.cell j (Nat.zero_le _) hj
    simpa using this

/-- The rows of a generator from field `i` on. -/
theorem readRows_spec {i : Nat} (lo hi : Nat) (hw : 0 < P.gfqBits) (hle : lo ≤ hi)
    (hk : P.k ≤ P.m * P.n)
    (hfit : 8 * o + P.gfqBits * (i + (P.m * P.n - P.k) * (hi - lo)) ≤ 8 * bufLen)
    (hmem : ∀ j, j < bufLen → mem j = some (d j)) (M : Arr UInt16) :
    ∃ M', forUpM lo hi (fun r s => readEntries P mem (r * P.m * P.n) P.k (P.m * P.n) s)
          (M, cursor bufLen o P.gfqBits i)
        = some (M', cursor bufLen o P.gfqBits (i + (P.m * P.n - P.k) * (hi - lo))) ∧
      (∀ r j, lo ≤ r → r < hi → P.k ≤ j → j < P.m * P.n → M'.get (P.m * P.n * r + j)
        = UInt16.ofNat (unpackAt d o P.gfqBits (i + ((P.m * P.n - P.k) * (r - lo) + (j - P.k))))) ∧
      ∀ r j, r < lo ∨ hi ≤ r ∨ j < P.k → j < P.m * P.n →
        M'.get (P.m * P.n * r + j) = M.get (P.m * P.n * r + j) := by
  induction hi, hle using Nat.le_induction with
  | base =>
      refine ⟨M, by rw [forUpM_self, Nat.sub_self]; rfl, fun r j h1 h2 => absurd h1 (by omega),
        fun _ _ _ _ => rfl⟩
  | succ hi hle ih =>
      have hstep : (P.m * P.n - P.k) * (hi + 1 - lo)
          = (P.m * P.n - P.k) * (hi - lo) + (P.m * P.n - P.k) := by
        rw [show hi + 1 - lo = (hi - lo) + 1 by omega, Nat.mul_succ]
      rw [hstep] at hfit
      have hmono : P.gfqBits * (i + (P.m * P.n - P.k) * (hi - lo))
          ≤ P.gfqBits * (i + ((P.m * P.n - P.k) * (hi - lo) + (P.m * P.n - P.k))) :=
        Nat.mul_le_mul_left _ (by omega)
      obtain ⟨M', hM', hcell, hrest⟩ := ih (by omega)
      obtain ⟨M'', hM'', hread⟩ := readEntries_spec (hi * P.m * P.n) P.k (P.m * P.n) (o := o)
        (i := i + (P.m * P.n - P.k) * (hi - lo)) hw hk (by rw [Nat.add_assoc]; exact hfit) hmem M'
      have hoff : hi * P.m * P.n = P.m * P.n * hi := by rw [Nat.mul_assoc, Nat.mul_comm]
      -- the new row does not touch the cells of another row
      have hother : ∀ r j, r ≠ hi ∨ j < P.k → j < P.m * P.n →
          M''.get (P.m * P.n * r + j) = M'.get (P.m * P.n * r + j) := by
        intro r j hrj hj
        refine hread.rest _ ?_
        rw [hoff]
        rcases Nat.lt_trichotomy r hi with hlt | rfl | hlt
        · have := flat_lt hlt hj
          omega
        · omega
        · have := Nat.mul_le_mul_left (P.m * P.n) (Nat.succ_le_of_lt hlt)
          rw [Nat.mul_succ] at this
          omega
      refine ⟨M'', ?_, fun r j h1 h2 hj1 hj2 => ?_, fun r j hrj hj => ?_⟩
      · rw [forUpM_succ hle, hM', hstep, ← Nat.add_assoc]
        exact hM''
      · -- the row just read, or one read before
        by_cases hr : r = hi
        · subst hr
          have := hread.cell j hj1 hj2
          rw [hoff, Nat.add_assoc] at this
          exact this
        · rw [hother r j (Or.inl hr) hj2]
          exact hcell r j h1 (by omega) hj1 hj2
      · rw [hother r j (by omega) hj]
        exact hrest r j (by omega) hj

/-- Matrices `1, …, s - 1`, one block after the other. -/
theorem readMatrices_spec (len : Nat) (hs : 1 ≤ P.s) (hw : 0 < P.gfqBits)
    (hfit : o + byteLen (P.gfqBits * len) * (P.s - 1) ≤ bufLen)
    (hmem : ∀ j, j < bufLen → mem j = some (d j)) :
    ∃ M, readMatrices P mem len (cursor bufLen o P.gfqBits 0)
        = some (M, cursor bufLen (o + byteLen (P.gfqBits * len) * (P.s - 1)) P.gfqBits 0) ∧
      ∀ si j, 1 ≤ si → si < P.s → j < len → (M.get si).get j
        = UInt16.ofNat (unpackAt d (o + byteLen (P.gfqBits * len) * (si - 1)) P.gfqBits j) := by
  unfold readMatrices
  generalize P.s = hi at hs hfit ⊢
  induction hi, hs using Nat.le_induction with
  | base =>
      refine ⟨Arr.empty, by rw [forUpM_self, Nat.sub_self]; rfl, fun si j h1 h2 => ?_⟩
      exact absurd h1 (by omega)
  | succ hi hle ih =>
      rw [show hi + 1 - 1 = (hi - 1) + 1 by omega, Nat.mul_succ] at hfit ⊢
      obtain ⟨M, hM, hcell⟩ := ih (by omega)
      obtain ⟨Mi, hMi, hread⟩ := readEntries_spec 0 0 len (P := P)
        (o := o + byteLen (P.gfqBits * len) * (hi - 1)) (i := 0) hw
        (Nat.zero_le _) (by
          have : P.gfqBits * len ≤ 8 * byteLen (P.gfqBits * len) := by
            unfold byteLen
            omega
          rw [Nat.zero_add, Nat.sub_zero]
          omega) hmem Arr.empty
      refine ⟨M.set hi Mi, ?_, fun si j h1 h2 hj => ?_⟩
      · rw [forUpM_succ hle, hM]
        change (readEntries P mem 0 0 len
          (Arr.empty, cursor bufLen (o + byteLen (P.gfqBits * len) * (hi - 1)) P.gfqBits 0) >>= _) = _
        rw [hMi]
        simp only [Option.bind_eq_bind, Option.bind_some, bsFinalize_cursor, Nat.zero_add, Nat.sub_zero,
          Nat.add_assoc]
        rfl
      · -- the matrix just read, or one read before
        by_cases hsi : si = hi
        · subst hsi
          rw [Arr.get_set_self]
          have := hread.cell j (Nat.zero_le _) hj
          simpa using this
        · rw [Arr.get_set_ne _ _ hsi]
          exact hcell si j h1 (by omega) hj

end

end

/-- Reading a field of a block that lies among others of the same length. -/
theorem unpackAt_blocks {d : Nat → UInt8} {o w : Nat} (lo cnt : Nat) {c : Nat} {v : Nat → List Nat}
    (hlen : ∀ i, lo ≤ i → i < lo + cnt → (v i).length = c)
    (hd : ∀ i, i < byteLen (w * c) * cnt →
      d (o + i) = (((List.range' lo cnt).map v).flatMap (packBytes w)).getD i default)
    {q j : Nat} (hq : q < cnt) (hj : j < c) (hlt : (v (lo + q)).getD j 0 < 2 ^ w) :
    unpackAt d (o + byteLen (w * c) * q) w j = (v (lo + q)).getD j 0 := by
  have hq' := hlen (lo + q) (by omega) (by omega)
  refine unpackAt_packBytes (fun i hi => ?_) (by rw [hq']; exact hj) hlt
  rw [hq'] at hi
  rw [Nat.add_assoc, hd _ (flat_lt hq hi), List.flatMap_map,
    getD_flatMap_range' (c := byteLen (w * c))
      (fun i h1 h2 => by rw [length_packBytes, hlen i h1 h2]) hq hi]

end Meds.Ref
