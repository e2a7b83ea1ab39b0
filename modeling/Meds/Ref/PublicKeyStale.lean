/-
  Meds.Ref.PublicKeyStale

  Decoding the public key, by what its buffer held before.

  `bs_write` ORs a field of less than 8 bits into the first byte it touches, and
  `crypto_sign_keypair` does not clear `pk`.  With such fields a byte ff under the
  first entry of G[1] stays, and the decoder reads a value above `MEDS_p`.  So
  decoding undoes the encoding in every buffer exactly from 8 bits on.
-/

import Meds.Ref.ChunkedKeys
import Meds.Ref.PublicKey

namespace Meds.Ref

open Meds.Core

variable {P : Params} {SHAKE256 : Shake}

/-! ## Narrow fields keep old bits -/

/-- Fewer than 8 bits leave nothing to the whole-byte loop. -/
theorem bsWriteBytes_of_lt {s : Arr UInt8 × Nat × Nat × Nat} (h : s.2.2.2 < 8) :
    bsWriteBytes s = s := by
  obtain ⟨buf, pos, data, len⟩ := s
  have hlen : ¬ len ≥ 8 := Nat.not_le.mpr h
  unfold bsWriteBytes
  cases len with
  | zero => rfl
  | succ len => simp only [iterWhile, hlen, decide_false, Bool.false_eq_true, if_false]

theorem or_ones (x : Nat) : UInt8.ofNat (255 ||| x) = 255 := by
  have hlt : 255 ||| x % 2 ^ 8 < 2 ^ 8 := Nat.or_lt_two_pow (by decide) (Nat.mod_lt x (by decide))
  have hle : 255 ≤ 255 ||| x % 2 ^ 8 := Nat.left_le_or
  have hmod : 255 % 2 ^ 8 = 255 := rfl
  have h255 : (255 : UInt8).toNat = 255 := rfl
  apply UInt8.toNat_inj.mp
  rw [UInt8.toNat_ofNat', Nat.or_mod_two_pow, hmod, h255]
  omega

/-- The buffer has all bits set in byte 0; the positions are those of another run. -/
def OnesUnder (s s' : Arr UInt8 × BitstreamT) : Prop := s.1.get 0 = 255 ∧ s.2 = s'.2

/-- A byte that is ORed into the buffer. -/
theorem get_zero_or {buf : Arr UInt8} (hones : buf.get 0 = 255) (pos x : Nat) :
    (buf.set pos (UInt8.ofNat ((buf.get pos).toNat ||| x))).get 0 = 255 := by
  rw [Arr.get_set]
  split
  · next h0 =>
      rw [← h0, hones]
      exact or_ones x
  · exact hones

theorem OnesUnder.bsPut {w : Nat} (hw : w < 8) {s s' : Arr UInt8 × BitstreamT} (h : OnesUnder s s')
    (v : Nat) : OnesUnder (bsPut w s v) (bsPut w s' v) := by
  obtain ⟨buf, bs⟩ := s
  obtain ⟨buf', bs'⟩ := s'
  obtain ⟨hones, rfl⟩ := h
  have hones : buf.get 0 = 255 := hones
  unfold OnesUnder Ref.bsPut bsWrite
  by_cases hexceeds : bs.exceeds w
  · rw [if_pos hexceeds, if_pos hexceeds]
    exact ⟨hones, rfl⟩
  rw [if_neg hexceeds, if_neg hexceeds]
  by_cases hshort : bs.bitPos + w < 8
  · -- the field ends within the byte
    rw [if_pos hshort, if_pos hshort]
    have hkeep := get_zero_or hones bs.bytePos (v <<< bs.bitPos)
    simp only
    split <;> exact ⟨hkeep, rfl⟩
  · -- the rest of the field goes to the next byte
    have hbit : bs.bitPos > 0 := by omega
    have hkeep := get_zero_or hones bs.bytePos (v <<< bs.bitPos &&& 0xFF)
    have hrest : w - (8 - bs.bitPos) < 8 := by omega
    rw [if_neg hshort, if_neg hshort]
    simp only [if_pos hbit, bsWriteBytes_of_lt (s := (_, _, _, w - (8 - bs.bitPos))) hrest]
    split
    · refine ⟨?_, rfl⟩
      rw [Arr.get_set_ne _ _ (by omega)]
      exact hkeep
    · exact ⟨hkeep, rfl⟩

theorem OnesUnder.puts {w : Nat} (hw : w < 8) {s s' : Arr UInt8 × BitstreamT} (h : OnesUnder s s')
    (l : List Nat) : OnesUnder (l.foldl (Ref.bsPut w) s) (l.foldl (Ref.bsPut w) s') := by
  induction l generalizing s s' with
  | nil => exact h
  | cons v l ih => exact ih (h.bsPut hw v)

theorem OnesUnder.putBlock {w : Nat} (hw : w < 8) {s s' : Arr UInt8 × BitstreamT}
    (h : OnesUnder s s') (l : List Nat) : OnesUnder (putBlock w s l) (putBlock w s' l) := by
  have hputs := h.puts hw l
  unfold Ref.putBlock putFinalize
  exact ⟨hputs.1, congrArg bsFinalize hputs.2⟩

theorem OnesUnder.putBlocks {w : Nat} (hw : w < 8) {s s' : Arr UInt8 × BitstreamT}
    (h : OnesUnder s s') (L : List (List Nat)) :
    OnesUnder (L.foldl (Ref.putBlock w) s) (L.foldl (Ref.putBlock w) s') := by
  induction L generalizing s s' with
  | nil => exact h
  | cons l L ih => exact ih (h.putBlock hw l)

/-! ## What keygen leaves, and what is read from it -/

/-- All bits of byte 0 set: so are those of the first field. -/
theorem unpackAt_ones {d : Nat → UInt8} {w : Nat} (hw : w < 8) (hd : d 0 = 255) :
    unpackAt d 0 w 0 = 2 ^ w - 1 := by
  apply Nat.eq_of_testBit_eq
  intro i
  rw [Nat.testBit_two_pow_sub_one]
  by_cases hi : i < w
  · have h255 : (255 : UInt8).toNat = 2 ^ 8 - 1 := rfl
    rw [unpackAt, Nat.testBit_ofBits_lt _ _ hi, bitAt]
    simp only [Nat.mul_zero, Nat.zero_add]
    rw [show i / 8 = 0 by omega, hd, h255, Nat.testBit_two_pow_sub_one, Nat.mod_eq_of_lt (by omega),
      decide_eq_true hi, decide_eq_true (by omega)]
  · rw [Nat.testBit_lt_two_pow ((unpackAt_lt d 0 w 0).trans_le
      (Nat.pow_le_pow_right (by decide) (Nat.le_of_not_lt hi))), decide_eq_false hi]

/-- The first stored entry of G[1]. -/
def firstEntry (P : Params) : Nat := P.m * P.n + (P.m - 1) * P.n

theorem firstEntry_lt (hP : P.Square) : firstEntry P < P.n * P.n * P.n := by
  have hn := hP.two_le_n
  have h1 : P.n * P.n * 2 ≤ P.n * P.n * P.n := Nat.mul_le_mul_left _ hn
  have h2 : (P.n - 1) * P.n + P.n = P.n * P.n := by
    rw [← Nat.succ_mul]
    congr 1
    omega
  rw [firstEntry, hP.m_eq]
  omega

/-- Whatever the buffer holds, the matrices are read, and the first stored entry of
    G[1] is the first field. -/
theorem readPkLoop_first (hP : P.Square) (G0 : Arr UInt16) {mem : Nat → Option UInt8}
    {d : Nat → UInt8} {bufLen : Nat}
    (hfit : byteLen (P.gfqBits * P.pkEntries) * (P.s - 1) ≤ bufLen)
    (hmem : ∀ j, j < bufLen → mem j = some (d j)) {hi : Nat} (h1 : 1 ≤ hi) (hhi : hi ≤ P.s) :
    ∃ G, forUpM 1 hi
          (fun i (s : Arr (Arr UInt16) × BitstreamT) => do
            let (Gi, bs) ← readPkMatrix P mem s.2
            pure (s.1.set i Gi, bs))
          (Arr.empty.set 0 G0, cursor bufLen 0 P.gfqBits 0)
        = some (G, cursor bufLen (byteLen (P.gfqBits * P.pkEntries) * (hi - 1)) P.gfqBits 0) ∧
      (1 < hi → (G.get 1).get (firstEntry P) = UInt16.ofNat (unpackAt d 0 P.gfqBits 0)) := by
  induction hi, h1 using Nat.le_induction with
  | base =>
      refine ⟨Arr.empty.set 0 G0, ?_, fun h => absurd h (by omega)⟩
      rw [forUpM_self, Nat.sub_self]
      rfl
  | succ hi hle ih =>
      obtain ⟨G, hG, hfirst⟩ := ih (by omega)
      have hroom : byteLen (P.gfqBits * P.pkEntries) * (hi - 1) + byteLen (P.gfqBits * P.pkEntries)
          ≤ byteLen (P.gfqBits * P.pkEntries) * (P.s - 1) := by
        rw [← Nat.mul_succ]
        exact Nat.mul_le_mul_left _ (by omega)
      obtain ⟨G1, G2, hGi, hread1, -, hrest2⟩ := readPkMatrix_returns hP
        (o := byteLen (P.gfqBits * P.pkEntries) * (hi - 1)) (by omega) hmem
      refine ⟨G.set hi (fillIdentity P (P.m * P.n) (P.m - 1) 1 (fillIdentity P 0 P.m 0 G2)), ?_,
        fun _ => ?_⟩
      · rw [forUpM_succ hle, hG]
        change (readPkMatrix P mem
          (cursor bufLen (byteLen (P.gfqBits * P.pkEntries) * (hi - 1)) P.gfqBits 0) >>= _) = _
        rw [hGi, show hi + 1 - 1 = (hi - 1) + 1 by omega, Nat.mul_succ]
        rfl
      · by_cases hih : hi = 1
        · -- the constant entries of the first two rows end before it
          subst hih
          have hn := hP.two_le_n
          have hlast : (P.m - 1) * P.n < P.m * P.n := by
            rw [hP.m_eq]
            exact Nat.mul_lt_mul_of_pos_right (by omega) (by omega)
          obtain ⟨-, hout3⟩ := fillIdentity_spec 0 P.m 0 (P := P) (G := G2)
          obtain ⟨-, hout4⟩ := fillIdentity_spec (P.m * P.n) (P.m - 1) 1 (P := P)
            (G := fillIdentity P 0 P.m 0 G2)
          have hcell := hread1.cell ((P.m - 1) * P.n) (Nat.le_refl _) hlast
          have hrow := hrest2 1 ((P.m - 1) * P.n) (Or.inl (by decide)) hlast
          rw [Nat.mul_one] at hrow
          rw [Nat.sub_self, Nat.mul_zero] at hcell
          have hafter : 0 + P.n * P.m ≤ firstEntry P := by
            rw [firstEntry, Nat.mul_comm P.n, Nat.zero_add]
            exact Nat.le_add_right _ _
          rw [Arr.get_set_self, hout4 _ (Or.inr (by rw [firstEntry, Nat.mul_comm P.n])),
            hout3 _ (Or.inr hafter), firstEntry, hrow, hcell, Nat.sub_self]
        · rw [Arr.get_set_ne _ _ (Ne.symm hih)]
          exact hfirst (by omega)

/-- The keys are copied whatever `pk` holds, and a byte ff under the first narrow field
    stays. -/
theorem copyKeys_ones (hP : P.Square) (hpk : P.pkBytes = P.pkSize) [Fact P.p.Prime]
    (h8 : P.gfqBits < 8) (delta : List UInt8) {sigmaG0 : List UInt8} {K : KeyMatrices}
    {G0 : Arr UInt16} (hlen : sigmaG0.length = P.pubSeedBytes) (hspec : KeyMatricesSpec P G0 K)
    {pk : Arr UInt8} (hones : pk.get P.pubSeedBytes = 255) (sk : Arr UInt8) :
    ∃ pk' sk', copyKeys P delta sigmaG0 K pk sk = (0, pk', sk') ∧ pk'.get P.pubSeedBytes = 255 ∧
      ∀ i, i < P.pubSeedBytes → pk'.get i = sigmaG0.getD i default := by
  have hsize := pkSize_eq P
  -- the positions are those of a run over zeros
  obtain ⟨buf₀, hwrite₀, -⟩ := putAll_spec Arr.empty (P.pkBytes - P.pubSeedBytes) (P := P) (o := 0)
    hP.gfqBits_pos (fun i _ _ => length_pkBlock hP (K.G.get i))
    (fun i h1 h2 => lt_of_mem_pkBlock hP (hspec.pair i h1 h2).reduced) (by omega)
    (Or.inr fun i _ _ => rfl)
  have hstart : OnesUnder
      ((pk.blit 0 sigmaG0).view P.pubSeedBytes, bsInit (P.pkBytes - P.pubSeedBytes))
      (Arr.empty, bsInit (P.pkBytes - P.pubSeedBytes)) := by
    refine ⟨?_, rfl⟩
    rw [Arr.get_view, Arr.get_blit_of_ge _ _ (by omega)]
    exact hones
  have hrun := hstart.putBlocks h8 ((List.range' 1 (P.s - 1)).map fun si => pkBlock P (K.G.get si))
  rw [← writePkMatrices_eq] at hrun
  unfold copyKeys
  dsimp only
  generalize writePkMatrices P K.G ((pk.blit 0 sigmaG0).view P.pubSeedBytes,
    bsInit (P.pkBytes - P.pubSeedBytes)) = s at hrun ⊢
  rw [cursor_zero] at hwrite₀
  rw [bsInit, hwrite₀, cursor_zero] at hrun
  obtain ⟨buf, bs⟩ := s
  obtain ⟨hbyte, rfl⟩ := hrun
  simp only
  rw [if_neg (by simp only [ne_eq, not_not, Nat.lt_irrefl, if_false, gt_iff_lt]; omega)]
  refine ⟨_, _, rfl, ?_, fun i hi => ?_⟩
  · rw [Arr.get_modifyFrom, if_neg (Nat.lt_irrefl _), Nat.sub_self]
    exact hbyte
  · rw [Arr.get_modifyFrom, if_pos hi, Arr.get_blit, if_pos (by omega), Nat.sub_zero]

/-! ## When decoding undoes encoding -/

/-- From the public key that key generation leaves in `pk`, `crypto_sign_open` rebuilds
    the generators that key generation held. -/
def Rebuilds (P : Params) (SHAKE256 : Shake) (delta : List UInt8) (pk sk : Arr UInt8) : Prop :=
  ∀ pk' sk', (cryptoSignKeypair P SHAKE256 delta pk sk : Run Fault _).Returns (0, pk', sk') →
    ∃ sigmaG0 K G, (keypairMatrices P SHAKE256 delta : Run Fault _).Returns (sigmaG0, K) ∧
      (loadPublicKey P SHAKE256 (pk'.slice 0 P.pkBytes)).Returns G ∧
      ∀ i, i < P.s → ∀ idx, idx < P.k * P.m * P.n → (G.get i).get idx = (K.G.get i).get idx

/-- Nothing of the buffer is ORed into the public key. -/
def CleanBuffer (P : Params) (pk : Arr UInt8) : Prop :=
  8 ≤ P.gfqBits ∨ ∀ i, P.pubSeedBytes ≤ i → i < P.pkBytes → pk.get i = 0

/-- The entry read behind a byte ff is 2^GFq_bits - 1, which is no element of GF(p). -/
theorem not_rebuilds_ones (hP : P.Square) (hs : 2 ≤ P.s) (hpk : P.pkBytes = P.pkSize)
    (hw : 2 ≤ P.gfqBits) (h8 : P.gfqBits < 8) {delta sigmaG0 : List UInt8} {K : KeyMatrices}
    (hK : (keypairMatrices P SHAKE256 delta : Run Fault _).Returns (sigmaG0, K)) {pk : Arr UInt8}
    (hones : pk.get P.pubSeedBytes = 255) (sk : Arr UInt8) : ¬ Rebuilds P SHAKE256 delta pk sk := by
  intro hrebuilds
  have : Fact P.p.Prime := ⟨hP.prime⟩
  have hsize := pkSize_eq P
  have hlt : P.p < 2 ^ P.gfqBits :=
    hP.p_le.lt_of_ne fun h => Nat.Prime.not_prime_pow hw (h ▸ hP.prime)
  obtain ⟨hlen, G0, hG0, hspec⟩ := keypairMatrices_returns hP (by omega) hK
  obtain ⟨pk', sk', hcopy, hbyte, hseedcells⟩ := copyKeys_ones hP hpk h8 delta hlen hspec hones sk
  have hret : (cryptoSignKeypair P SHAKE256 delta pk sk : Run Fault _).Returns (0, pk', sk') := by
    rw [cryptoSignKeypair_eq_copyKeys]
    exact Run.returns_bind.mpr ⟨_, hK, Run.returns_pure.mpr hcopy.symm⟩
  obtain ⟨_, _, G, hK', hload, hall⟩ := hrebuilds pk' sk' hret
  cases hK'.unique hK
  -- what `crypto_sign_open` reads
  have hmem : ∀ j, j < P.pkBytes - P.pubSeedBytes →
      (pk'.slice 0 P.pkBytes)[P.pubSeedBytes + j]? = some (pk'.get (P.pubSeedBytes + j)) :=
    fun j hj => by rw [Arr.getElem?_slice _ (by omega), Nat.zero_add]
  obtain ⟨G', hG', hfirst⟩ := readPkLoop_first (d := fun j => pk'.get (P.pubSeedBytes + j)) hP G0
    (by omega) hmem (by omega) (Nat.le_refl P.s)
  have hseed : readBytes (fun i => (pk'.slice 0 P.pkBytes)[i]?) 0 P.pubSeedBytes
      = some sigmaG0 := by
    rw [← hlen]
    refine readBytes_eq_some _ _ fun j hj => ?_
    rw [Nat.zero_add, Arr.getElem?_slice _ (by omega), Nat.zero_add, hseedcells j (by omega)]
    rfl
  have hload' : (loadPublicKey P SHAKE256 (pk'.slice 0 P.pkBytes)).Returns G' := by
    unfold loadPublicKey
    rw [hseed, Run.ofOption_some, pure_bind, Run.returns_bind]
    refine ⟨G0, hG0, ?_⟩
    rw [cursor_zero] at hG'
    simp only [bsInit]
    rw [hG']
    exact Run.returns_pure.mpr rfl
  cases hload.unique hload'
  have hentry := hall 1 (by omega) (firstEntry P) (by
    rw [hP.k_eq, hP.m_eq]
    exact firstEntry_lt hP)
  have hreduced := (hspec.pair 1 (Nat.le_refl 1) (by omega)).reduced _ (firstEntry_lt hP)
  have hpow : 2 ^ P.gfqBits ≤ 2 ^ 16 := Nat.pow_le_pow_right (by decide) hP.gfqBits_le
  rw [← hentry, hfirst (by omega), unpackAt_ones h8 hbyte, UInt16.toNat_ofNat',
    Nat.mod_eq_of_lt (by omega)] at hreduced
  omega

/-- Decoding undoes the encoding where nothing of the buffer stays.  Asked of every
    buffer, that is from 8 bits on: below, each run of keygen has a buffer for which the
    matrices differ. -/
theorem loadPublicKey_keypair_iff (hP : P.Square) (hs : 1 ≤ P.s) (hpk : P.pkBytes = P.pkSize)
    (delta : List UInt8) :
    (∀ pk sk, CleanBuffer P pk → Rebuilds P SHAKE256 delta pk sk) ∧
      (2 ≤ P.s → 2 ≤ P.gfqBits → (∃ r, (keypairMatrices P SHAKE256 delta : Run Fault _).Returns r) →
        ((∀ pk sk, Rebuilds P SHAKE256 delta pk sk) ↔ 8 ≤ P.gfqBits)) := by
  have hclean : ∀ pk sk, CleanBuffer P pk → Rebuilds P SHAKE256 delta pk sk :=
    fun pk sk hbuf pk' sk' h => loadPublicKey_keypair hP hs hpk delta hbuf h
  refine ⟨hclean, fun hs hw ⟨⟨sigmaG0, K⟩, hK⟩ =>
    ⟨fun h => ?_, fun h8 pk sk => hclean pk sk (Or.inl h8)⟩⟩
  by_contra h8
  have hones : (Arr.empty.set P.pubSeedBytes (255 : UInt8)).get P.pubSeedBytes = 255 :=
    Arr.get_set_self _ _ _
  exact not_rebuilds_ones hP hs hpk hw (by omega) hK hones Arr.empty (h _ _)

/-- The small parameters with fields of 2 bits. -/
def tinyNarrow : Params := { tiny with gfqBits := 2, pkBytes := 2, skBytes := 4, sigBytes := 5 }

theorem tinyNarrow_valid : tinyNarrow.Valid where
  m_eq := rfl
  k_eq := rfl
  two_le_n := by decide
  prime := Nat.prime_three
  p_le := by decide
  gfqBits_le := by decide
  two_le_s := by decide
  s_le := by decide
  one_le_w := by decide
  w_le := by decide
  height := by decide
  treeSize := by decide
  pathLen := by decide
  tMask_eq := by decide
  sMask_eq := by decide
  pk_eq := by decide
  sk_eq := by decide
  sig_eq := by decide

theorem tinyNarrow_keypair :
    ∃ r, (keypairMatrices tinyNarrow toyShake [1] : Run Fault _).Returns r :=
  Run.exists_returns_of_run (n := 30) (by decide +kernel)

theorem loadPublicKey_keypair_iff_narrow :
    (∀ pk sk, CleanBuffer tinyNarrow pk → Rebuilds tinyNarrow toyShake [1] pk sk) ∧
      ((∀ pk sk, Rebuilds tinyNarrow toyShake [1] pk sk) ↔ 8 ≤ 2) :=
  ⟨(loadPublicKey_keypair_iff tinyNarrow_valid.toSquare (by decide) (by decide) [1]).1,
    (loadPublicKey_keypair_iff tinyNarrow_valid.toSquare (by decide) (by decide) [1]).2 (by decide)
      (by decide) tinyNarrow_keypair⟩

/-- In a buffer of bytes ff the stored entries 1, 1 of G[1] come back as 3, 3. -/
theorem not_rebuilds_narrow : ¬ Rebuilds tinyNarrow toyShake [1] ⟨[255, 255]⟩ Arr.empty := by
  obtain ⟨r, hr⟩ := tinyNarrow_keypair
  exact not_rebuilds_ones tinyNarrow_valid.toSquare (by decide) (by decide) (by decide) (by decide)
    hr rfl Arr.empty

end Meds.Ref
