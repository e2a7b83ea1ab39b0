/-
  Meds.Sage.Coding

  `Compress`, `Decompress` and `DecompressG` against the loops of
  meds_serial.c over `bs_write` and `bs_read`.

  C reads fields at running positions of one buffer, Sage from a slice that
  starts at the same byte.  A field may encode a value from q on: Sage
  reduces it at once, C keeps it in the generators of the public key and
  reduces it in the responses, so the entries agree in GF(q).
-/

import Meds.Ref.PublicKey
import Meds.Sage.Matrices

namespace Meds.Sage

open Meds.Core Meds.Ref

/-! ## Fields of a byte string -/

/-- Field `i` of `b`, of `w` bits. -/
def field (b : List UInt8) (w i : Nat) : Nat := unpackAt (Arr.mk b).get 0 w i

/-- The stream over `b` that stands before field `i`. -/
def streamAt (b : List UInt8) (w i : Nat) : BitStream := ⟨b, some (w * i / 8), w * i % 8⟩

theorem new_eq_streamAt {b : List UInt8} (hb : b ≠ []) (w : Nat) :
    BitStream.new b = streamAt b w 0 := by
  cases b with
  | nil => exact absurd rfl hb
  | cons x b => simp [BitStream.new, streamAt]

theorem readGF_streamAt {q : Nat} {b : List UInt8} {i : Nat} (hw : 8 ≤ gfBits q)
    (hfit : gfBits q * (i + 1) ≤ 8 * b.length) :
    readGF q (streamAt b (gfBits q) i)
      = pure (((field b (gfBits q) i : Nat) : ZMod q), streamAt b (gfBits q) (i + 1)) := by
  rw [readGF, streamAt, BitStream.read_field hw hfit, pure_bind]
  rfl

/-- A slice has the fields of the buffer from its first byte on. -/
theorem unpackAt_eq_field {d : Nat → UInt8} {o w j : Nat} {b : List UInt8}
    (hd : ∀ i, i < b.length → d (o + i) = b.getD i 0) (hfit : w * (j + 1) ≤ 8 * b.length) :
    unpackAt d o w j = field b w j := by
  apply unpackAt_congr
  intro i _ hi
  rw [hd _ (by omega), Nat.zero_add, Arr.get_mk]
  rfl

/-! ## Compress -/

section

variable {q r c : Nat}

theorem entriesOf_eq (M : Mat q r c) :
    entriesOf M = (List.range r).flatMap fun i => (List.range c).map fun j => (table M i j).val := by
  unfold entriesOf
  rw [← List.map_coe_finRange_eq_range, ← List.map_coe_finRange_eq_range, List.flatMap_map]
  congr 1
  funext i
  rw [List.map_map]
  apply List.map_congr_left
  intro j _
  simp only [Function.comp_apply]
  rw [table_of_lt M i.isLt j.isLt]

theorem compress_eq [Fact q.Prime] (hw : 8 ≤ gfBits q) (M : Mat q r c) :
    compress M = pure (packBytes (gfBits q) (entriesOf M)) := by
  have hlt : ∀ v ∈ entriesOf M, v < 2 ^ gfBits q := by
    intro v hv
    rw [entriesOf_eq] at hv
    simp only [List.mem_flatMap, List.mem_map] at hv
    obtain ⟨i, -, j, -, rfl⟩ := hv
    exact (ZMod.val_lt _).trans_le (Nat.le_pow_clog (by decide) q)
  rw [compress, BitStream.write_list hw hlt, pure_bind]

end

variable {P : Params}

/-- What is left of a row without the identity block. -/
theorem entriesOf_dropColumns {A : Arr UInt16} {M : Gen P} (h : Holds A M) :
    entriesOf (dropColumns P.k M) = rowEntries P A 0 P.k := by
  obtain ⟨rfl, hred⟩ := h
  rw [entriesOf_eq, rowEntries, Nat.sub_zero, ← List.range_eq_range']
  apply List.flatMap_congr
  intro i hi
  have hi := List.mem_range.mp hi
  rw [entries, List.range'_eq_map_range, List.map_map]
  apply List.map_congr_left
  intro j hj
  have hj := List.mem_range.mp hj
  have hcell : (A.get (P.m * P.n * i + (P.k + j))).toNat < P.p := hred _ (flat_lt hi (by omega))
  simp only [Function.comp_apply]
  rw [table_of_lt _ hi hj, dropColumns, Matrix.of_apply, block_apply, ent, pmodMatEntry,
    ZMod.val_natCast_of_lt hcell, Nat.mul_assoc i, Nat.mul_comm i]

/-- What C hashes of a commitment is `Compress` of it. -/
theorem packCommitment_compress [Fact P.p.Prime] (hP : Shared P) (bsBuf : Arr UInt8)
    {A : Arr UInt16} {M : Gen P} (h : Holds A M) : compress (dropColumns P.k M) = pure (packCommitment P bsBuf A) := by
  have hlt : ∀ v ∈ rowEntries P A 0 P.k, v < 2 ^ P.gfqBits := by
    intro v hv
    rw [← entriesOf_dropColumns h, entriesOf_eq] at hv
    simp only [List.mem_flatMap, List.mem_map] at hv
    obtain ⟨i, -, j, -, rfl⟩ := hv
    exact (ZMod.val_lt _).trans_le hP.p_le
  rw [compress_eq (hP.gfBits_eq ▸ hP.eight_le), entriesOf_dropColumns h, hP.gfBits_eq,
    packCommitment_eq hP.gfqBits_pos hlt (Or.inl hP.eight_le)]

/-! ## Decompress -/

theorem decompress_eq {q : Nat} {b : List UInt8} {r c : Nat} (hw : 8 ≤ gfBits q) (hpos : 0 < r * c)
    (hfit : gfBits q * (r * c) ≤ 8 * b.length) :
    decompress b q r c
      = pure (Matrix.of fun (i : Fin r) (j : Fin c) =>
          ((field b (gfBits q) (i * c + j) : Nat) : ZMod q)) := by
  have hb : b ≠ [] := by
    rintro rfl
    have := Nat.mul_le_mul hw hpos
    simp only [List.length_nil] at hfit
    omega
  rw [decompress, new_eq_streamAt hb (gfBits q), forUpM_pure
    (fun i => ((List.range i).map fun j => ((field b (gfBits q) j : Nat) : ZMod q),
      streamAt b (gfBits q) i)) (Nat.zero_le _) ?_ (by rfl), pure_bind]
  · simp only
    congr 1
    ext i j
    have hlt : i * c + j < r * c := by
      have := flat_lt (C := c) i.isLt j.isLt
      rwa [Nat.mul_comm c, Nat.mul_comm c] at this
    rw [matrixOf, Matrix.of_apply, Matrix.of_apply, List.getD_eq_getElem _ _ (by simpa using hlt),
      List.getElem_map, List.getElem_range]
  · intro i _ hi
    have hmono : gfBits q * (i + 1) ≤ gfBits q * (r * c) := Nat.mul_le_mul_left _ hi
    simp only
    rw [readGF_streamAt hw (hmono.trans hfit), pure_bind, List.range_succ, List.map_append]
    rfl

/-- Reading a response and `Decompress`. -/
theorem readResponse_decompress (hP : Shared P) {n : Nat} (hn : 0 < n) {mem : Nat → Option UInt8}
    {d : Nat → UInt8} {bufLen o : Nat} {b : List UInt8}
    (hfit : o + byteLen (P.gfqBits * (n * n)) ≤ bufLen)
    (hmem : ∀ j, j < bufLen → mem j = some (d j))
    (hlen : b.length = byteLen (P.gfqBits * (n * n)))
    (hd : ∀ i, i < b.length → d (o + i) = b.getD i 0) :
    ∃ A M, readResponse P mem n (cursor bufLen o P.gfqBits 0)
        = some (A, cursor bufLen (o + byteLen (P.gfqBits * (n * n))) P.gfqBits 0) ∧
      decompress b P.p n n = pure M ∧ Holds A M := by
  have hbits : P.gfqBits * (n * n) ≤ 8 * b.length := by
    rw [hlen, byteLen]
    omega
  obtain ⟨A, hA, hcell⟩ := readResponse_spec hP.gfqBits_pos hfit hmem
  have hM := decompress_eq (q := P.p) (b := b) (r := n) (c := n) (hP.gfBits_eq ▸ hP.eight_le)
    (Nat.mul_pos hn hn) (hP.gfBits_eq ▸ hbits)
  have hget : ∀ i j, i < n → j < n → pmodMatEntry A n i j = field b P.gfqBits (i * n + j) % P.p := by
    intro i j hi hj
    have hlt : n * i + j < n * n := flat_lt hi hj
    have hmono : P.gfqBits * (n * i + j + 1) ≤ P.gfqBits * (n * n) := Nat.mul_le_mul_left _ hlt
    rw [pmodMatEntry, hcell _ hlt, unpackAt_eq_field hd (hmono.trans hbits),
      toNat_ofNat_of_lt hP.p_lt.le (Nat.mod_lt _ hP.prime.pos), Nat.mul_comm n]
  refine ⟨A, _, hA, hM, ?_, reduced_of_entry fun i j hi hj => ?_⟩
  · ext i j
    rw [block_apply, ent, hget i j i.isLt j.isLt, ZMod.natCast_mod, Matrix.of_apply, hP.gfBits_eq]
  · rw [hget i j hi hj]
    exact Nat.mod_lt _ hP.prime.pos

/-! ## DecompressG -/

section

variable {q r c : Nat}

/-- Entries of row `a` set to one value. -/
theorem setLoop_spec {lo hi a : Nat} (ι : Nat → Nat) (v : ZMod q) (G : Mat q r c) (hle : lo ≤ hi)
    (i : Fin r) (j : Fin c) :
    (∀ x, lo ≤ x → x < hi → i.val = a → j.val = ι x →
      forUp lo hi (fun x G => setEntry G a (ι x) v) G i j = v) ∧
    ((∀ x, lo ≤ x → x < hi → ¬ (i.val = a ∧ j.val = ι x)) →
      forUp lo hi (fun x G => setEntry G a (ι x) v) G i j = G i j) := by
  induction hi, hle using Nat.le_induction with
  | base =>
      rw [forUp_self]
      exact ⟨fun x h1 h2 => absurd h1 (by omega), fun _ => rfl⟩
  | succ hi hle ih =>
      rw [forUp_succ hle, setEntry, Matrix.of_apply]
      constructor
      · intro x h1 h2 ha hj
        by_cases hlast : i.val = a ∧ j.val = ι hi
        · rw [if_pos hlast]
        · have hxh : x ≠ hi := fun h => hlast ⟨ha, h ▸ hj⟩
          rw [if_neg hlast]
          exact ih.1 x h1 (by omega) ha hj
      · intro hne
        rw [if_neg (hne hi hle (by omega))]
        exact ih.2 fun x h1 h2 => hne x h1 (by omega)

/-- Columns `lo, …, hi - 1` of row `a` hold the fields of `b` from `f` on. -/
def storeRow (b : List UInt8) (f a lo hi : Nat) (G : Mat q r c) : Mat q r c :=
  Matrix.of fun i j =>
    if i.val = a ∧ lo ≤ j.val ∧ j.val < hi then (field b (gfBits q) (f + (j - lo)) : ZMod q)
    else G i j

theorem storeRow_self (b : List UInt8) (f a lo : Nat) (G : Mat q r c) :
    storeRow b f a lo lo G = G := by
  ext i j
  rw [storeRow, Matrix.of_apply, if_neg (by omega)]

theorem storeRow_succ (b : List UInt8) (f a : Nat) {lo hi : Nat} (hle : lo ≤ hi) (G : Mat q r c) :
    setEntry (storeRow b f a lo hi G) a hi ((field b (gfBits q) (f + (hi - lo)) : Nat) : ZMod q)
      = storeRow b f a lo (hi + 1) G := by
  ext i j
  simp only [setEntry, storeRow, Matrix.of_apply]
  by_cases hlast : i.val = a ∧ j.val = hi
  · rw [if_pos hlast, if_pos (by omega), hlast.2]
  · rw [if_neg hlast]
    by_cases hold : i.val = a ∧ lo ≤ j.val ∧ j.val < hi
    · rw [if_pos hold, if_pos (by omega)]
    · rw [if_neg hold, if_neg (by omega)]

/-- Rows `2, …, hi - 1` hold the fields of `b` from `f` on, behind their first
    `k` columns. -/
def storeRows (b : List UInt8) (f k hi : Nat) (G : Mat q r c) : Mat q r c :=
  Matrix.of fun i j =>
    if 2 ≤ i.val ∧ i.val < hi ∧ k ≤ j.val then
      (field b (gfBits q) (f + ((i - 2) * (c - k) + (j - k))) : ZMod q)
    else G i j

theorem storeRows_succ (b : List UInt8) (f k : Nat) {hi : Nat} (hle : 2 ≤ hi) (G : Mat q r c) :
    storeRow b (f + (hi - 2) * (c - k)) hi k c (storeRows b f k hi G)
      = storeRows b f k (hi + 1) G := by
  ext i j
  have hj := j.isLt
  simp only [storeRow, storeRows, Matrix.of_apply]
  by_cases hlast : i.val = hi ∧ k ≤ j.val
  · rw [if_pos (by omega), if_pos (by omega), hlast.1, Nat.add_assoc]
  · rw [if_neg (by omega)]
    by_cases hold : 2 ≤ i.val ∧ i.val < hi ∧ k ≤ j.val
    · rw [if_pos hold, if_pos (by omega)]
    · rw [if_neg hold, if_neg (by omega)]

end

/-- The generator before its entries are read. -/
def blankG (q k m n : Nat) : Mat q k (m * n) :=
  forUp 1 (m - 1) (fun i G => setEntry G 1 (i * (n + 1) + 1) 1)
    (forUp 1 m (fun i G => setEntry G 0 (i * (n + 1)) 1) (augmentIdentity 0))

theorem decompressG_eq {q : Nat} {b : List UInt8} {k m n : Nat} (hw : 8 ≤ gfBits q) (hn : 0 < n)
    (hm : 0 < m) (hk2 : 2 ≤ k) (hk : k ≤ m * n)
    (hfit : gfBits q * (n + (k - 2) * (m * n - k)) ≤ 8 * b.length) :
    decompressG b q k m n
      = pure (storeRows b n k k (storeRow b 0 1 (m * n - n) (m * n) (blankG q k m n))) := by
  have hb : b ≠ [] := by
    rintro rfl
    have := Nat.mul_le_mul hw (show 1 ≤ n + (k - 2) * (m * n - k) by omega)
    simp only [List.length_nil] at hfit
    omega
  have hnn : n ≤ m * n := Nat.le_mul_of_pos_left n hm
  have hroom : ∀ i, i ≤ n + (k - 2) * (m * n - k) → gfBits q * i ≤ 8 * b.length :=
    fun i hi => (Nat.mul_le_mul_left _ hi).trans hfit
  rw [decompressG]
  -- the last row of the second matrix
  rw [new_eq_streamAt hb (gfBits q), forUpM_pure
    (fun i => (storeRow b 0 1 (m * n - n) (m * n - n + i) (blankG q k m n),
      streamAt b (gfBits q) i)) (Nat.zero_le n) ?_ (by rw [Nat.add_zero, storeRow_self]; rfl),
    pure_bind]
  · -- the other matrices
    rw [forUpM_pure
      (fun i => (storeRows b n k i (storeRow b 0 1 (m * n - n) (m * n) (blankG q k m n)),
        streamAt b (gfBits q) (n + (i - 2) * (m * n - k)))) hk2 ?_ ?_, pure_bind]
    · intro i h1 h2
      have hrow : n + (i - 2) * (m * n - k) + (m * n - k) = n + (i + 1 - 2) * (m * n - k) := by
        rw [show i + 1 - 2 = (i - 2) + 1 by omega, Nat.add_mul, Nat.one_mul, Nat.add_assoc]
      have hlast : n + (i + 1 - 2) * (m * n - k) ≤ n + (k - 2) * (m * n - k) :=
        Nat.add_le_add_left (Nat.mul_le_mul_right _ (by omega)) _
      rw [forUpM_pure
        (fun j => (storeRow b (n + (i - 2) * (m * n - k)) i k j
            (storeRows b n k i (storeRow b 0 1 (m * n - n) (m * n) (blankG q k m n))),
          streamAt b (gfBits q) (n + (i - 2) * (m * n - k) + (j - k)))) hk ?_
        (by rw [Nat.sub_self, Nat.add_zero, storeRow_self]), storeRows_succ b n k h1, hrow]
      intro j h3 h4
      simp only
      rw [readGF_streamAt hw (hroom _ (by omega)), pure_bind]
      simp only
      rw [storeRow_succ _ _ _ h3, show j + 1 - k = j - k + 1 by omega, Nat.add_assoc]
    · simp only [Nat.sub_self, Nat.zero_mul, Nat.add_zero, Nat.sub_add_cancel hnn]
      congr 1
      ext i j
      rw [storeRows, Matrix.of_apply, if_neg (by omega)]
  · intro i _ hi
    simp only
    rw [readGF_streamAt hw (hroom _ (by omega)), pure_bind]
    simp only
    have hstore := storeRow_succ b 0 1 (Nat.le_add_right (m * n - n) i) (blankG q k m n)
    rw [Nat.zero_add, Nat.add_sub_cancel_left] at hstore
    rw [hstore, Nat.add_assoc]

/-- Row `ρ` after its ones are set, where the identity block is in place. -/
theorem diagLoop_apply {q k n ρ : Nat} (hρ : ρ < n) (G : Mat q k (n * n))
    {i : Fin k} (hi : i.val = ρ) (hG : ∀ j, G i j = if i.val = j.val then 1 else 0)
    {a b : Nat} (ha : a + ρ < n) (hb : b < n) {j : Fin (n * n)} (hj : j.val = n * a + b) :
    forUp 1 (n - ρ) (fun x G => setEntry G ρ (x * (n + 1) + ρ) 1) G i j
      = if a + ρ = b then 1 else 0 := by
  obtain ⟨hset, hkeep⟩ := setLoop_spec (fun x => x * (n + 1) + ρ) (1 : ZMod q) G
    (show 1 ≤ n - ρ by omega) (a := ρ) i j
  have hflat : ∀ x, x * (n + 1) + ρ = n * x + (x + ρ) := fun x => by ring
  by_cases hab : a + ρ = b
  · rw [if_pos hab]
    by_cases ha0 : a = 0
    · -- the identity block has this one
      subst ha0
      rw [hkeep fun x h1 h2 h => ?_, hG, if_pos (by omega)]
      rw [hj, hflat] at h
      have := (flat_inj hb (show x + ρ < n by omega) h.2).1
      omega
    · exact hset a (by omega) (by omega) hi (by rw [hj, hflat, hab])
  · rw [if_neg hab, hkeep fun x h1 h2 h => ?_, hG, if_neg fun h => ?_]
    · rw [hi, hj] at h
      have := @flat_inj n 0 ρ a b hρ hb (by omega)
      omega
    · rw [hj, hflat] at h
      have := flat_inj hb (show x + ρ < n by omega) h.2
      omega

/-- Loops on other rows leave a row alone. -/
theorem diagLoop_other {q k n ρ hi : Nat} (h1 : 1 ≤ hi) (G : Mat q k (n * n)) {i : Fin k}
    (hi' : i.val ≠ ρ) (j : Fin (n * n)) (ι : Nat → Nat) :
    forUp 1 hi (fun x G => setEntry G ρ (ι x) 1) G i j = G i j :=
  (setLoop_spec ι (1 : ZMod q) G h1 i j).2 fun _ _ _ h => hi' h.1

/-- The constant entries of a generator. -/
def blankEntry (k n r a b : Nat) : Nat :=
  if r = 0 then (if a = b then 1 else 0)
  else if r = 1 then (if a + 1 = b then 1 else 0)
  else if n * a + b < k ∧ r = n * a + b then 1 else 0

theorem blankG_apply {q n : Nat} (hn : 2 ≤ n) (i : Fin n) {a b : Nat} (ha : a < n) (hb : b < n)
    (hlast : i.val = 1 → a + 1 < n) {j : Fin (n * n)} (hj : j.val = n * a + b) :
    blankG q n n n i j = (blankEntry n n i a b : ZMod q) := by
  have hid : ∀ (i : Fin n) (j : Fin (n * n)),
      (augmentIdentity 0 : Mat q n (n * n)) i j = if i.val = j.val then 1 else 0 := by
    intro i j
    rw [augmentIdentity, Matrix.of_apply]
    by_cases hjn : j.val < n
    · rw [dif_pos hjn]
    · rw [dif_neg hjn, if_neg (by omega)]
      rfl
  unfold blankG blankEntry
  -- row 0 has a diagonal of its own, row 1 the one next to it, the others none
  by_cases h0 : i.val = 0
  · have hdiag := @diagLoop_apply q n n 0 (by omega) (augmentIdentity 0) i h0 (hid i) a b
      (by omega) hb j hj
    rw [diagLoop_other (by omega) _ (by omega) _ (fun x => x * (n + 1) + 1), if_pos h0]
    simp only [Nat.add_zero, Nat.sub_zero] at hdiag
    rw [hdiag]
    split <;> simp
  · rw [if_neg h0]
    have hinner : ∀ j, forUp 1 n (fun x G => setEntry G 0 (x * (n + 1)) 1)
        (augmentIdentity 0 : Mat q n (n * n)) i j = if i.val = j.val then 1 else 0 := fun j => by
      rw [diagLoop_other (by omega) _ h0 _ (fun x => x * (n + 1)), hid]
    by_cases h1 : i.val = 1
    · rw [if_pos h1, diagLoop_apply (by omega) _ h1 hinner (hlast h1) hb hj]
      split <;> simp
    · rw [if_neg h1, diagLoop_other (by omega) _ h1 _ (fun x => x * (n + 1) + 1), hinner, hj]
      have hi := i.isLt
      by_cases heq : i.val = n * a + b
      · rw [if_pos heq, if_pos ⟨by omega, heq⟩, Nat.cast_one]
      · rw [if_neg heq, if_neg fun h => heq h.2, Nat.cast_zero]

/-- The entries of `DecompressG`: the constant ones, and the fields behind them. -/
structure Decoded (b : List UInt8) {q k c : Nat} (n : Nat) (M : Mat q k c) : Prop where
  const : ∀ (i : Fin k) (j : Fin c) a a', a < n → a' < n → j.val = n * a + a' →
    (i.val = 1 → a + 1 < n) → (2 ≤ i.val → j.val < n) → M i j = (blankEntry n n i a a' : ZMod q)
  row1 : ∀ (i : Fin k) (j : Fin c), i.val = 1 → (n - 1) * n ≤ j.val →
    M i j = (field b (gfBits q) (j - (n - 1) * n) : ZMod q)
  rows : ∀ (i : Fin k) (j : Fin c), 2 ≤ i.val → n ≤ j.val →
    M i j = (field b (gfBits q) (n + ((i - 2) * (n * n - n) + (j - n))) : ZMod q)

theorem decompressG_decoded {q k m n : Nat} (hm : m = n) (hk : k = n) (hn : 2 ≤ n) {b : List UInt8}
    (hw : 8 ≤ gfBits q) (hfit : gfBits q * (n + (n - 2) * (n * n - n)) ≤ 8 * b.length) :
    ∃ M : Mat q k (m * n), decompressG b q k m n = pure M ∧ Decoded b n M := by
  subst hm hk
  have hnn : k ≤ k * k := Nat.le_mul_self k
  have hsub : (k - 1) * k = k * k - k := by rw [Nat.sub_mul, Nat.one_mul]
  refine ⟨_, decompressG_eq hw (by omega) (by omega) hn hnn hfit, ?_, ?_, ?_⟩
  · intro i j a a' ha ha' hj hlast hrest
    rw [storeRows, Matrix.of_apply, if_neg (by omega), storeRow, Matrix.of_apply, if_neg,
      blankG_apply hn i ha ha' hlast hj]
    rintro ⟨h1, h2, -⟩
    -- the last row of the second matrix is not constant
    have hrow := Nat.mul_le_mul_left k (show a + 1 ≤ k - 1 by have := hlast h1; omega)
    rw [Nat.mul_add, Nat.mul_one, Nat.mul_comm k (k - 1), hsub] at hrow
    omega
  · intro i j h1 h2
    have hj := j.isLt
    rw [storeRows, Matrix.of_apply, if_neg (by omega), storeRow, Matrix.of_apply,
      if_pos ⟨h1, by omega, hj⟩, Nat.zero_add, hsub]
  · intro i j h1 h2
    rw [storeRows, Matrix.of_apply, if_pos ⟨h1, i.isLt, h2⟩]

theorem pkEntries_eq (hP : Shared P) : P.pkEntries = P.n + (P.n - 2) * (P.n * P.n - P.n) := by
  rw [← length_pkBlock hP.toSquare Arr.empty, pkBlock, List.length_append, length_entries,
    length_rowEntries, hP.m_eq, hP.k_eq, Nat.sub_mul, Nat.one_mul, Nat.mul_comm (P.n - 2),
    Nat.sub_sub_self (le_sq P)]

/-- Reading a generator and `DecompressG`.  What C reads need not be reduced. -/
theorem readPkMatrix_decompressG (hP : Shared P) {mem : Nat → Option UInt8} {d : Nat → UInt8}
    {bufLen o : Nat} {b : List UInt8} (hfit : o + byteLen (P.gfqBits * P.pkEntries) ≤ bufLen)
    (hmem : ∀ j, j < bufLen → mem j = some (d j))
    (hlen : b.length = byteLen (P.gfqBits * P.pkEntries))
    (hd : ∀ i, i < b.length → d (o + i) = b.getD i 0) :
    ∃ G M, readPkMatrix P mem (cursor bufLen o P.gfqBits 0)
        = some (G, cursor bufLen (o + byteLen (P.gfqBits * P.pkEntries)) P.gfqBits 0) ∧
      decompressG b P.p P.k P.m P.n = pure M ∧
      block P.k (P.m * P.n) (ent P (P.m * P.n) G) = M := by
  have hm := hP.m_eq
  have hk := hP.k_eq
  have hn := hP.two_le_n
  have hentries := pkEntries_eq hP
  have hbits : P.gfqBits * P.pkEntries ≤ 8 * b.length := by
    rw [hlen, byteLen]
    omega
  obtain ⟨M, hM, hdec⟩ := @decompressG_decoded P.p P.k P.m P.n hm hk hn b
    (hP.gfBits_eq ▸ hP.eight_le) (by rw [hP.gfBits_eq, ← hentries]; exact hbits)
  obtain ⟨G1, G2, hG, hread1, hread2, hrest2⟩ := readPkMatrix_returns hP.toSquare hfit hmem
  obtain ⟨hid, -⟩ := setIdentity_spec P.k (P.m * P.n) (by rw [hm, hk]; exact le_sq P)
    (M := Arr.empty)
  obtain ⟨hin3, hout3⟩ := fillIdentity_spec 0 P.m 0 (P := P) (G := G2)
  obtain ⟨hin4, hout4⟩ := fillIdentity_spec (P.m * P.n) (P.m - 1) 1 (P := P)
    (G := fillIdentity P 0 P.m 0 G2)
  refine ⟨_, M, hG, hM, ?_⟩
  -- a field is kept as it is, a constant entry is 0 or 1
  have hfield : ∀ f, f < P.pkEntries →
      ((UInt16.ofNat (unpackAt d o P.gfqBits f)).toNat : ZMod P.p)
        = (field b (gfBits P.p) f : ZMod P.p) := by
    intro f hf
    have hroom : P.gfqBits * (f + 1) ≤ 8 * b.length := (Nat.mul_le_mul_left _ hf).trans hbits
    rw [toNat_ofNat_of_lt (Nat.pow_le_pow_right (by decide) hP.gfqBits_le) (unpackAt_lt _ _ _ _),
      unpackAt_eq_field hd hroom, hP.gfBits_eq]
  have hbit : ∀ (c : Prop) [Decidable c], ((if c then (1 : UInt16) else 0).toNat : ZMod P.p)
      = ((if c then 1 else 0 : Nat) : ZMod P.p) := by
    intro c _
    split <;> rfl
  ext i j
  have hi := i.isLt
  have hj := j.isLt
  rw [block_apply, ent, pmodMatEntry]
  simp only [hm, hk] at hid hread1 hread2 hrest2 hin3 hout3 hin4 hout4 hi hj ⊢
  have hsub : (P.n - 1) * P.n = P.n * P.n - P.n := by rw [Nat.sub_mul, Nat.one_mul]
  have hsub' : P.n * (P.n - 1) = P.n * P.n - P.n := by rw [Nat.mul_comm, hsub]
  have hnn : P.n ≤ P.n * P.n := le_sq P
  obtain ⟨a, a', ha, ha', hja⟩ := exists_flat_nat hj
  rcases Nat.lt_trichotomy i.val 1 with h0 | h1 | h2
  · -- the first row is the identity matrix
    have h0 : i.val = 0 := by omega
    rw [hdec.const i j a a' ha ha' hja.symm (by omega) (by omega), blankEntry, if_pos h0, h0,
      Nat.mul_zero, Nat.zero_add, hout4 _ (by omega), ← hja, ← Nat.zero_add (P.n * a + a'),
      hin3 a a' ha ha', hbit, Nat.add_zero]
  · by_cases hlast : j.val < P.n * (P.n - 1)
    · -- the shifted identity
      have hrow : a + 1 < P.n := by
        by_contra hno
        obtain rfl : a = P.n - 1 := by omega
        omega
      rw [hdec.const i j a a' ha ha' hja.symm (fun _ => hrow) (by omega), blankEntry,
        if_neg (by omega), if_pos h1, h1, Nat.mul_one, ← hja, hin4 a a' (by omega) ha', hbit]
    · -- the stored entries of the second row
      have hcell := hread1.cell j (by omega) hj
      rw [hdec.row1 i j h1 (by omega), h1, hout4 _ (by omega), hout3 _ (by omega),
        hrest2 1 j (by omega) hj, Nat.mul_one, hcell, Nat.zero_add, hfield _ (by omega)]
  · have hrow : P.n * P.n * 2 ≤ P.n * P.n * i.val := Nat.mul_le_mul_left _ h2
    rw [hout4 _ (by omega), hout3 _ (by omega)]
    by_cases hjn : j.val < P.n
    · -- the identity block
      rw [hdec.const i j a a' ha ha' hja.symm (by omega) (fun _ => hjn), blankEntry,
        if_neg (by omega), if_neg (by omega), hrest2 i j (by omega) hj, hread1.rest _ (by omega),
        hid i j hi hjn, hbit, ← hja]
      congr 2
      exact propext ⟨fun h => ⟨by omega, h⟩, fun h => h.2⟩
    · -- the stored entries of the other rows
      have hlt : (i.val - 2) * (P.n * P.n - P.n) + (j.val - P.n)
          < (P.n - 2) * (P.n * P.n - P.n) := by
        have := flat_lt (R := P.n - 2) (C := P.n * P.n - P.n) (i := i.val - 2) (j := j.val - P.n)
          (by omega) (by omega)
        rwa [Nat.mul_comm (P.n * P.n - P.n), Nat.mul_comm (P.n * P.n - P.n)] at this
      rw [hdec.rows i j h2 (by omega), hread2 i j h2 hi (by omega) hj, hsub,
        Nat.sub_sub_self hnn, Nat.mul_comm (P.n * P.n - P.n) (i.val - 2), hfield _ (by omega)]

end Meds.Sage
