/-
  Meds.Ref.ChunkedKeys

  The keys that `crypto_sign_keypair_streaming` assembles, against the keys
  of `crypto_sign_keypair`.

  meds_serial.c runs one bit stream over all matrices of a key.  The device
  has one matrix at a time: it appends the matrices of the secret key to one
  buffer as they come back from the host, and starts a new stream for every
  matrix of the public key, in a buffer that it clears in between.  Blocks
  are byte aligned, so both give the concatenation of the packed matrices.
-/

import Meds.Ref.Sizes
import Meds.Ref.StreamSign

namespace Meds.Ref

open Meds.Core

variable {P : Params} {SHAKE256 : Shake} {ε : Type}

/-! ## The two programs from the matrices on -/

/-- `crypto_sign_keypair` from the copying on: the status and the keys. -/
def copyKeys (P : Params) (delta sigmaG0 : List UInt8) (K : KeyMatrices) (pk sk : Arr UInt8) :
    Int × Arr UInt8 × Arr UInt8 :=
  -- copy pk data
  let pk := pk.blit 0 sigmaG0
  let (buf, bs) :=
    writePkMatrices P K.G (pk.view P.pubSeedBytes, bsInit (P.pkBytes - P.pubSeedBytes))
  let pk := pk.modifyFrom P.pubSeedBytes fun _ => buf
  if P.pkBytes ≠ P.pubSeedBytes + bs.bytePos + (if bs.bitPos > 0 then 1 else 0) then (-1, pk, sk)
  else
    -- copy sk data
    let sk := sk.blit 0 delta
    let sk := sk.blit P.secSeedBytes sigmaG0
    let off := P.secSeedBytes + P.pubSeedBytes
    let s := (sk.view off, bsInit (P.skBytes - P.secSeedBytes - P.pubSeedBytes))
    let s := writeMatrices P K.Ainv (P.m * P.m) s
    let s := writeMatrices P K.Binv (P.n * P.n) s
    (0, pk, sk.modifyFrom off fun _ => s.1)

theorem cryptoSignKeypair_eq_copyKeys (delta : List UInt8) (pk sk : Arr UInt8) :
    (cryptoSignKeypair P SHAKE256 delta pk sk : Run ε _)
      = keypairMatrices P SHAKE256 delta >>= fun r => pure (copyKeys P delta r.1 r.2 pk sk) := by
  rw [cryptoSignKeypair]
  refine congrArg _ (funext fun r => ?_)
  rw [copyKeys]
  exact (apply_ite pure _ _ _).symm

/-- `crypto_sign_keypair_streaming` once the matrices are on the host. -/
def streamKeys {m : Type → Type} [Monad m] (hal : Hal m) (P : Params) (delta sigmaG0 : List UInt8) :
    m Int := do
  streamSecretKey hal P delta sigmaG0
  streamPublicKey hal P sigmaG0

theorem cryptoSignKeypairStreaming_eq_streamKeys {m : Type → Type} [Monad m] (hal : Hal m)
    (reduced : Bool) (delta : List UInt8) :
    cryptoSignKeypairStreaming hal P SHAKE256 reduced delta
      = streamMatrices hal P SHAKE256 reduced delta >>= streamKeys hal P delta :=
  rfl

/-- Parameters for which the two buffers of the device are large enough. -/
structure ChunkFit (P : Params) : Prop extends Sized P where
  two_le_s : 2 ≤ P.s
  n_le_m : P.n ≤ P.m
  eight_le : 8 ≤ P.gfqBits
  chunk_le : P.pubSeedBytes + byteLen (P.gfqBits * pkCoeffs P) ≤ pkBufLen P

theorem byteLen_pos {x : Nat} (h : 0 < x) : 0 < byteLen x := by
  unfold byteLen
  omega

/-- A packed matrix takes at least a byte. -/
theorem ChunkFit.matrix_pos (hP : ChunkFit P) : 0 < byteLen (P.gfqBits * (P.m * P.m)) := by
  have h8 := hP.eight_le
  have hm := hP.one_le_m
  exact byteLen_pos (Nat.mul_pos (by omega) (Nat.mul_pos (by omega) (by omega)))

/-- A packed generator takes at least a byte. -/
theorem ChunkFit.generator_pos (hP : ChunkFit P) : 0 < byteLen (P.gfqBits * pkCoeffs P) := by
  have h8 := hP.eight_le
  have hk2 := hP.two_le_k
  have hk := hP.k_le
  have hn : P.n ≠ 0 := by
    intro h
    rw [h, Nat.mul_zero] at hk
    omega
  have hle : P.n ≤ pkCoeffs P := Nat.le_add_right _ _
  exact byteLen_pos (Nat.mul_pos (by omega) (by omega))

/-- Matrices whose entries fit their fields. -/
structure EntriesFit (P : Params) (K : KeyMatrices) : Prop where
  Ainv : ∀ i j, 1 ≤ i → i < P.s → j < P.m * P.m → ((K.Ainv.get i).get j).toNat < 2 ^ P.gfqBits
  Binv : ∀ i j, 1 ≤ i → i < P.s → j < P.n * P.n → ((K.Binv.get i).get j).toNat < 2 ^ P.gfqBits
  G : ∀ i j, 1 ≤ i → i < P.s → j < P.k * P.m * P.n → ((K.G.get i).get j).toNat < 2 ^ P.gfqBits

/-- What the host sends for request `j`: the inverses `A`, the inverses `B`,
    then the generators. -/
def keyMatrix (P : Params) (K : KeyMatrices) (j : Nat) : Arr UInt16 :=
  if j < P.s - 1 then K.Ainv.get (j + 1)
  else if j < 2 * (P.s - 1) then K.Binv.get (j - (P.s - 1) + 1)
  else K.G.get (j - 2 * (P.s - 1) + 1)

/-! ## The blocks of a generator -/

theorem pkBlock_congr (hP : Sized P) {G H : Arr UInt16} (h : SameCells (P.k * P.m * P.n) G H) :
    pkBlock P G = pkBlock P H := by
  have hk2 := hP.two_le_k
  have hcell : ∀ r j, r < P.k → j < P.m * P.n → G.get (r * P.m * P.n + j)
      = H.get (r * P.m * P.n + j) := by
    intro r j hr hj
    apply h
    rw [Nat.mul_assoc, Nat.mul_assoc, Nat.mul_comm r, Nat.mul_comm P.k]
    exact flat_lt hr hj
  rw [pkBlock, pkBlock]
  congr 1
  · apply entries_eq_of_get
    intro j _ hj
    have := hcell 1 j (by omega) hj
    rwa [Nat.one_mul] at this
  · apply List.flatMap_congr
    intro r hr
    rw [List.mem_range'_1] at hr
    apply entries_eq_of_get
    intro j _ hj
    exact hcell r j (by omega) hj

theorem length_pkBlock_eq (hP : Sized P) (G : Arr UInt16) : (pkBlock P G).length = pkCoeffs P := by
  rw [pkBlock, List.length_append, length_entries, length_rowEntries, length_lastRow hP.one_le_m,
    pkCoeffs]

theorem pkBlock_lt (hP : Sized P) {G : Arr UInt16}
    (hG : ∀ j, j < P.k * P.m * P.n → (G.get j).toNat < 2 ^ P.gfqBits) :
    ∀ v ∈ pkBlock P G, v < 2 ^ P.gfqBits := by
  have hk2 := hP.two_le_k
  have hcell : ∀ r j, r < P.k → j < P.m * P.n →
      (G.get (P.m * P.n * r + j)).toNat < 2 ^ P.gfqBits := by
    intro r j hr hj
    apply hG
    rw [show P.k * P.m * P.n = P.m * P.n * P.k by rw [Nat.mul_assoc, Nat.mul_comm]]
    exact flat_lt hr hj
  intro v hv
  rcases List.mem_append.mp hv with hv | hv
  · apply lt_of_mem_entries ?_ v hv
    intro j _ hj
    have := hcell 1 j (by omega) hj
    rwa [Nat.mul_one] at this
  · apply lt_of_mem_rowEntries ?_ v hv
    intro r j _ hr hj
    exact hcell r j hr hj

/-! ## The keys of meds_serial.c -/

/-- A seed, and the bytes that were written behind it. -/
theorem slice_modifyFrom {M N buf : Arr UInt8} {seed l : List UInt8}
    (hseed : ∀ i, i < seed.length → M.get i = seed.getD i default)
    (hbuf : ∀ i, buf.get i = (N.blit 0 l).get i) :
    (M.modifyFrom seed.length fun _ => buf).slice 0 (seed.length + l.length) = seed ++ l := by
  rw [Arr.slice_add, Nat.zero_add]
  congr 1
  · apply List.ext_getElem (Arr.length_slice _ _ _)
    intro i _ hi
    rw [Arr.getElem_slice, Arr.get_modifyFrom, Nat.zero_add, if_pos hi, hseed i hi,
      List.getD_eq_getElem _ _ hi]
  · calc (M.modifyFrom seed.length fun _ => buf).slice seed.length l.length
        = (N.blit 0 l).slice 0 l.length := by
          apply Arr.slice_congr
          intro i _
          rw [Arr.get_modifyFrom, if_neg (by omega), Nat.add_sub_cancel_left, Nat.zero_add, hbuf]
      _ = l := Arr.slice_blit N 0 l

theorem getD_blit_zero (M : Arr UInt8) (l : List UInt8) {i : Nat} (hi : i < l.length) :
    (M.blit 0 l).get i = l.getD i default := by
  rw [Arr.get_blit, if_pos (by omega), Nat.sub_zero]

/-- The blocks of the two loops of the secret key. -/
def skBlocks (P : Params) (K : KeyMatrices) : List UInt8 :=
  packAll P (fun si => entries (K.Ainv.get si) 0 0 (P.m * P.m))
    ++ packAll P fun si => entries (K.Binv.get si) 0 0 (P.n * P.n)

section

variable (hP : Sized P) (h8 : 8 ≤ P.gfqBits) {K : KeyMatrices} (hK : EntriesFit P K)
  {delta sigmaG0 : List UInt8} (hdelta : delta.length = P.secSeedBytes)
  (hsigma : sigmaG0.length = P.pubSeedBytes)

include hP

theorem length_skBlocks (K : KeyMatrices) :
    (skBlocks P K).length = P.skBytes - P.secSeedBytes - P.pubSeedBytes := by
  rw [skBlocks, List.length_append, length_packAll (fun _ _ _ => length_entries _ _ _ _),
    length_packAll (fun _ _ _ => length_entries _ _ _ _), hP.skBuffer, Nat.sub_zero, Nat.sub_zero]

include h8 hK

/-- The two loops of the secret key leave the concatenation of the blocks. -/
theorem writeMatrices_sk (buf : Arr UInt8) :
    ∀ i, (writeMatrices P K.Binv (P.n * P.n) (writeMatrices P K.Ainv (P.m * P.m)
        (buf, bsInit (P.skBytes - P.secSeedBytes - P.pubSeedBytes)))).1.get i
      = (buf.blit 0 (skBlocks P K)).get i := by
  have hw : 0 < P.gfqBits := Nat.lt_of_lt_of_le (by decide) h8
  have hlen : ∀ M : Arr (Arr UInt16), ∀ d i, 1 ≤ i → i < P.s →
      (entries (M.get i) 0 0 d).length = d := fun _ _ _ _ _ => length_entries _ _ _ _
  have hsize := hP.skBuffer
  obtain ⟨buf1, hwrite1, hget1⟩ := putAll_spec buf (P.skBytes - P.secSeedBytes - P.pubSeedBytes)
    (P := P) (o := 0) hw (hlen K.Ainv (P.m * P.m))
    (fun i h1 h2 => lt_of_mem_entries fun j _ hj => by
      rw [Nat.zero_add]
      exact hK.Ainv i j h1 h2 hj) (by omega) (Or.inl h8)
  obtain ⟨buf2, hwrite2, hget2⟩ := putAll_spec buf1 (P.skBytes - P.secSeedBytes - P.pubSeedBytes)
    (P := P) (o := 0 + byteLen (P.gfqBits * (P.m * P.m)) * (P.s - 1)) hw (hlen K.Binv (P.n * P.n))
    (fun i h1 h2 => lt_of_mem_entries fun j _ hj => by
      rw [Nat.zero_add]
      exact hK.Binv i j h1 h2 hj) (by omega) (Or.inl h8)
  intro i
  rw [writeMatrices_eq, writeMatrices_eq, cursor_bsInit _ P.gfqBits, hwrite1, hwrite2, hget2,
    skBlocks, Arr.blit_append, length_packAll (hlen K.Ainv (P.m * P.m))]
  exact get_blit_congr hget1 _ _ i

include hdelta hsigma

/-- A secret key, in whatever memory it is built. -/
theorem slice_sk (sk : Arr UInt8) :
    (((sk.blit 0 delta).blit P.secSeedBytes sigmaG0).modifyFrom (P.secSeedBytes + P.pubSeedBytes)
        fun _ => (writeMatrices P K.Binv (P.n * P.n) (writeMatrices P K.Ainv (P.m * P.m)
          (((sk.blit 0 delta).blit P.secSeedBytes sigmaG0).view (P.secSeedBytes + P.pubSeedBytes),
            bsInit (P.skBytes - P.secSeedBytes - P.pubSeedBytes)))).1).slice 0 P.skBytes
      = delta ++ sigmaG0 ++ skBlocks P K := by
  have hseed : (sk.blit 0 delta).blit P.secSeedBytes sigmaG0 = sk.blit 0 (delta ++ sigmaG0) := by
    rw [Arr.blit_append, hdelta, Nat.zero_add]
  have hoff : P.secSeedBytes + P.pubSeedBytes = (delta ++ sigmaG0).length := by
    rw [List.length_append, hdelta, hsigma]
  have hlen : P.skBytes = (delta ++ sigmaG0).length + (skBlocks P K).length := by
    rw [length_skBlocks hP, ← hoff, Nat.sub_sub, hP.skBytes_eq]
    omega
  rw [hseed]
  generalize hbuf : writeMatrices P K.Binv (P.n * P.n) _ = s
  rw [hoff, hlen]
  apply slice_modifyFrom (fun i hi => getD_blit_zero sk _ hi)
    (N := (sk.blit 0 (delta ++ sigmaG0)).view (P.secSeedBytes + P.pubSeedBytes))
  intro i
  rw [← hbuf]
  exact writeMatrices_sk hP h8 hK _ i

omit h8 hK hdelta hsigma

theorem length_pkBlocks (K : KeyMatrices) :
    (packAll P fun si => pkBlock P (K.G.get si)).length = P.pkBytes - P.pubSeedBytes := by
  rw [length_packAll fun i _ _ => length_pkBlock_eq hP (K.G.get i), hP.pkBuffer]

include h8 hK

/-- The loop of the public key leaves the concatenation of the blocks. -/
theorem writePkMatrices_pk (buf : Arr UInt8) :
    ∃ buf', writePkMatrices P K.G (buf, bsInit (P.pkBytes - P.pubSeedBytes))
        = (buf', cursor (P.pkBytes - P.pubSeedBytes) (P.pkBytes - P.pubSeedBytes) P.gfqBits 0) ∧
      ∀ i, buf'.get i = (buf.blit 0 (packAll P fun si => pkBlock P (K.G.get si))).get i := by
  have hw : 0 < P.gfqBits := Nat.lt_of_lt_of_le (by decide) h8
  have hsize := hP.pkBuffer
  obtain ⟨buf', hwrite, hget⟩ := putAll_spec buf (P.pkBytes - P.pubSeedBytes) (P := P) (o := 0) hw
    (fun i _ _ => length_pkBlock_eq hP (K.G.get i))
    (fun i h1 h2 => pkBlock_lt hP fun j hj => hK.G i j h1 h2 hj) (by omega)
    (Or.inl h8)
  refine ⟨buf', ?_, hget⟩
  rw [writePkMatrices_eq, cursor_bsInit _ P.gfqBits, hwrite, Nat.zero_add, ← hsize]

include hdelta hsigma

/-- `crypto_sign_keypair` succeeds and leaves these bytes. -/
theorem copyKeys_packed (pk sk : Arr UInt8) :
    ∃ pk' sk', copyKeys P delta sigmaG0 K pk sk = (0, pk', sk') ∧
      pk'.slice 0 P.pkBytes = sigmaG0 ++ packAll P (fun si => pkBlock P (K.G.get si)) ∧
      sk'.slice 0 P.skBytes = delta ++ sigmaG0 ++ skBlocks P K := by
  obtain ⟨buf, hwrite, hget⟩ := writePkMatrices_pk hP h8 hK ((pk.blit 0 sigmaG0).view P.pubSeedBytes)
  have hle : P.pubSeedBytes ≤ P.pkBytes := by
    rw [hP.pkBytes_eq]
    omega
  have hlen : P.pkBytes = sigmaG0.length + (packAll P fun si => pkBlock P (K.G.get si)).length := by
    rw [length_pkBlocks hP, hsigma]
    omega
  refine ⟨(pk.blit 0 sigmaG0).modifyFrom P.pubSeedBytes fun _ => buf, _, ?_, ?_,
    slice_sk hP h8 hK hdelta hsigma sk⟩
  · simp only [copyKeys, hwrite, cursor_zero]
    rw [if_neg (by simp only [gt_iff_lt, Nat.lt_irrefl, if_false]; omega)]
  · rw [hlen, ← hsigma]
    apply slice_modifyFrom (fun i hi => getD_blit_zero pk _ hi)
    exact hget

end

/-- The same for parameters that the device takes. -/
theorem copyKeys_bytes (hP : ChunkFit P) {K : KeyMatrices} (hK : EntriesFit P K)
    {delta sigmaG0 : List UInt8} (hdelta : delta.length = P.secSeedBytes)
    (hsigma : sigmaG0.length = P.pubSeedBytes) (pk sk : Arr UInt8) :
    ∃ pk' sk', copyKeys P delta sigmaG0 K pk sk = (0, pk', sk') ∧
      pk'.slice 0 P.pkBytes = sigmaG0 ++ packAll P (fun si => pkBlock P (K.G.get si)) ∧
      sk'.slice 0 P.skBytes = delta ++ sigmaG0 ++ skBlocks P K :=
  copyKeys_packed hP.toSized hP.eight_le hK hdelta hsigma pk sk

/-! ## The secret key of the device -/

section

variable {answer : List (Arr UInt16) → Nat → Arr UInt16} {hostSk : List UInt8} {e : Echo}

theorem streamSkMatrix_ends {len : Nat} {M : Arr UInt16} (hlen : len ≤ P.m * P.m)
    (hM : answer e.sent e.reads = M) (s : Arr UInt8 × BitstreamT) :
    Session.Ends (streamSkMatrix (echoHal answer hostSk) P len s) e
      (putFinalize (writeEntries P M 0 0 len s)) { e with reads := e.reads + 1 } := by
  have hread := @ends_readStream answer hostSk e (P.m * P.m)
  rw [hM] at hread
  have hsame : writeEntries P ⟨M.slice 0 (P.m * P.m)⟩ 0 0 len s = writeEntries P M 0 0 len s := by
    rw [writeEntries_eq, writeEntries_eq, entries_congr fun j hj =>
      sameCells_slice M (P.m * P.m) j (Nat.lt_of_lt_of_le hj hlen)]
  rw [← hsame]
  exact (ends_putchar 0).bind (hread.bind (ends_getchar.bind (Session.ends_pure _ _)))

/-- The matrices come back one at a time and are appended as the one-shot loop
    appends them. -/
theorem streamSkMatrices_ends {len : Nat} {M : Arr (Arr UInt16)} (hs : 1 ≤ P.s)
    (hlen : len ≤ P.m * P.m)
    (hM : ∀ i, 1 ≤ i → i < P.s → answer e.sent (e.reads + (i - 1)) = M.get i)
    (s : Arr UInt8 × BitstreamT) :
    Session.Ends (forUpM 1 P.s (fun _ s => streamSkMatrix (echoHal answer hostSk) P len s) s) e
      (writeMatrices P M len s) { e with reads := e.reads + (P.s - 1) } := by
  refine Session.forUpM_ends_forUp (fun i => ({ e with reads := e.reads + (i - 1) } : Echo)) hs
    (fun i s h1 h2 => ?_) s
  have h := @streamSkMatrix_ends P answer hostSk { e with reads := e.reads + (i - 1) } len
    (M.get i) hlen (hM i h1 h2) s
  rwa [show e.reads + (i - 1) + 1 = e.reads + (i + 1 - 1) by omega] at h

section

variable (hP : ChunkFit P) {K : KeyMatrices} (hK : EntriesFit P K) {delta sigmaG0 : List UInt8}
  (hdelta : delta.length = P.secSeedBytes) (hsigma : sigmaG0.length = P.pubSeedBytes)

include hP hK hdelta hsigma

/-- The chunk of the secret key. -/
theorem streamSecretKey_ends
    (hhost : ∀ j, j < 2 * (P.s - 1) → answer e.sent (e.reads + j) = keyMatrix P K j) :
    Session.Ends (streamSecretKey (echoHal answer hostSk) P delta sigmaG0) e ()
      { e with
        reads := e.reads + 2 * (P.s - 1)
        chunks := e.chunks ++ [delta ++ sigmaG0 ++ skBlocks P K] } := by
  have hs := hP.one_le_s
  have hsame := slice_sk hP.toSized hP.eight_le hK hdelta hsigma (Arr.replicate P.skBytes 0)
  -- the chunk is not empty, so it is sent as hex digits
  have hne : delta ++ sigmaG0 ++ skBlocks P K ≠ [] := by
    rw [← hsame]
    apply List.ne_nil_of_length_pos
    rw [Arr.length_slice, hP.skBytes_eq]
    have := Nat.mul_pos hP.matrix_pos (Nat.sub_pos_of_lt hP.two_le_s)
    omega
  -- the host is asked for all A first, then for all B
  have hA : ∀ i, 1 ≤ i → i < P.s → answer e.sent (e.reads + (i - 1)) = K.Ainv.get i := by
    intro i h1 h2
    rw [hhost _ (by omega), keyMatrix, if_pos (by omega), Nat.sub_add_cancel h1]
  have hB : ∀ i, 1 ≤ i → i < P.s →
      answer e.sent (e.reads + (P.s - 1) + (i - 1)) = K.Binv.get i := by
    intro i h1 h2
    rw [Nat.add_assoc, hhost _ (by omega), keyMatrix, if_neg (by omega), if_pos (by omega),
      show P.s - 1 + (i - 1) - (P.s - 1) + 1 = i by omega]
  have hloopA := @streamSkMatrices_ends P answer hostSk e _ _ hs (Nat.le_refl _) hA
  have hloopB := @streamSkMatrices_ends P answer hostSk { e with reads := e.reads + (P.s - 1) } _ _
    hs (Nat.mul_le_mul hP.n_le_m hP.n_le_m) hB
  have hend := @ends_writeStreamStr answer hostSk
    { e with reads := e.reads + (P.s - 1) + (P.s - 1) } "sk = " (delta ++ sigmaG0 ++ skBlocks P K)
  rw [if_neg hne, ← hsame] at hend
  rw [Nat.two_mul, ← Nat.add_assoc, ← hsame]
  exact (hloopA _).bind ((hloopB _).bind
    ((ends_putchar 0).bind (hend.bind (ends_getchar.bind (Session.ends_pure () _)))))

end

end

/-! ## The public key of the device -/

/-- Chunk `si` of the public key: the seed goes with the first one. -/
def pkChunk (P : Params) (sigmaG0 : List UInt8) (K : KeyMatrices) (si : Nat) : List UInt8 :=
  (if si = 1 then sigmaG0 else []) ++ packBytes P.gfqBits (pkBlock P (K.G.get si))

/-- What the loop of the public key works on before round `si`. -/
structure PkProgress (P : Params) (sigmaG0 : List UInt8) (si : Nat)
    (s : Arr UInt8 × Nat × BitstreamT) : Prop where
  seed : si = 1 → ∀ i, i < sigmaG0.length → s.1.get i = sigmaG0.getD i default
  check : s.2.1 = byteLen (P.gfqBits * pkCoeffs P) * (si - 1)
  aligned : s.2.2.bitPos = 0

/-- The log before round `si`. -/
def pkLog (P : Params) (sigmaG0 : List UInt8) (K : KeyMatrices) (e : Echo) (si : Nat) : Echo :=
  { e with
    reads := e.reads + (si - 1)
    chunks := e.chunks ++ (List.range' 1 (si - 1)).map (pkChunk P sigmaG0 K) }

theorem pkLog_one {sigmaG0 : List UInt8} {K : KeyMatrices} (e : Echo) :
    pkLog P sigmaG0 K e 1 = e := by
  simp [pkLog]

theorem pkLog_succ {sigmaG0 : List UInt8} {K : KeyMatrices} (e : Echo) {si : Nat} (h1 : 1 ≤ si) :
    { pkLog P sigmaG0 K e si with
      reads := (pkLog P sigmaG0 K e si).reads + 1
      chunks := (pkLog P sigmaG0 K e si).chunks ++ [pkChunk P sigmaG0 K si] }
      = pkLog P sigmaG0 K e (si + 1) := by
  obtain ⟨i, rfl⟩ : ∃ i, si = i + 1 := ⟨si - 1, by omega⟩
  have hmap : (List.range' 1 (i + 1)).map (pkChunk P sigmaG0 K)
      = (List.range' 1 i).map (pkChunk P sigmaG0 K) ++ [pkChunk P sigmaG0 K (i + 1)] := by
    rw [List.range'_1_concat, List.map_append, List.map_singleton, Nat.add_comm 1 i]
  simp only [pkLog, Nat.add_sub_cancel]
  rw [hmap, List.append_assoc, Nat.add_assoc]

section

variable {answer : List (Arr UInt16) → Nat → Arr UInt16} {hostSk : List UInt8} {e : Echo}
  (hP : ChunkFit P) {K : KeyMatrices} (hK : EntriesFit P K) {sigmaG0 : List UInt8}
  (hsigma : sigmaG0.length = P.pubSeedBytes)

include hP hK

/-- One generator in its own stream, at the start of a buffer. -/
theorem writeGenerator (buf : Arr UInt8) {si : Nat} (h1 : 1 ≤ si) (h2 : si < P.s) :
    ∃ buf', putFinalize (forUp 2 P.k
          (fun r w => writeEntries P ⟨(K.G.get si).slice 0 (P.k * P.m * P.n)⟩ (r * P.m * P.n) P.k
            (P.m * P.n) w)
          (writeEntries P ⟨(K.G.get si).slice 0 (P.k * P.m * P.n)⟩ (P.m * P.n) ((P.m - 1) * P.n)
            (P.m * P.n) (buf, bsInit (pkBufLen P - P.pubSeedBytes))))
        = (buf', ⟨pkBufLen P - P.pubSeedBytes, byteLen (P.gfqBits * pkCoeffs P), 0⟩) ∧
      ∀ i, buf'.get i = (buf.blit 0 (packBytes P.gfqBits (pkBlock P (K.G.get si)))).get i := by
  have hw : 0 < P.gfqBits := Nat.lt_of_lt_of_le (by decide) hP.eight_le
  have hlen := length_pkBlock_eq hP.toSized (K.G.get si)
  have hchunk := hP.chunk_le
  obtain ⟨hget, hbs⟩ := bsPut_block buf (pkBufLen P - P.pubSeedBytes) (o := 0) hw
    (pkBlock_lt hP.toSized fun j hj => hK.G si j h1 h2 hj)
    (by rw [hlen]; omega) (Or.inl hP.eight_le)
  rw [hlen, Nat.zero_add] at hbs
  refine ⟨_, ?_, hget⟩
  rw [writeRows_eq, writeEntries_eq, ← List.foldl_append]
  change putFinalize ((pkBlock P ⟨(K.G.get si).slice 0 (P.k * P.m * P.n)⟩).foldl _ _) = _
  rw [pkBlock_congr hP.toSized (sameCells_slice (K.G.get si) _), putFinalize, bsInit, hbs]

omit hK in
theorem pkChunk_ne_nil (sigmaG0 : List UInt8) (K : KeyMatrices) (si : Nat) :
    pkChunk P sigmaG0 K si ≠ [] := by
  apply List.ne_nil_of_length_pos
  have := hP.generator_pos
  rw [pkChunk, List.length_append, length_packBytes, length_pkBlock_eq hP.toSized]
  omega

include hsigma

omit hK in
/-- The part of the buffer that round `si` sends. -/
theorem slice_pkChunk {pk buf N : Arr UInt8} {si : Nat}
    (hseed : si = 1 → ∀ i, i < sigmaG0.length → pk.get i = sigmaG0.getD i default)
    (hget : ∀ i, buf.get i = (N.blit 0 (packBytes P.gfqBits (pkBlock P (K.G.get si)))).get i) :
    (pk.modifyFrom (if si = 1 then P.pubSeedBytes else 0) fun _ => buf).slice 0
        (if si = 1 then byteLen (P.gfqBits * pkCoeffs P) + P.pubSeedBytes
          else byteLen (P.gfqBits * pkCoeffs P))
      = pkChunk P sigmaG0 K si := by
  have hlen : byteLen (P.gfqBits * pkCoeffs P)
      = (packBytes P.gfqBits (pkBlock P (K.G.get si))).length := by
    rw [length_packBytes, length_pkBlock_eq hP.toSized]
  rw [pkChunk, hlen]
  by_cases hsi : si = 1
  · rw [if_pos hsi, if_pos hsi, if_pos hsi, ← hsigma, Nat.add_comm]
    exact slice_modifyFrom (hseed hsi) hget
  · rw [if_neg hsi, if_neg hsi, if_neg hsi]
    have h := @slice_modifyFrom pk N buf [] _ (fun i hi => absurd hi (Nat.not_lt_zero i)) hget
    rwa [List.length_nil, Nat.zero_add] at h

/-- One round of the loop sends one chunk. -/
theorem streamPkMatrix_ends {si : Nat} (h1 : 1 ≤ si) (h2 : si < P.s)
    {s : Arr UInt8 × Nat × BitstreamT} (hs : PkProgress P sigmaG0 si s)
    (hG : answer e.sent e.reads = K.G.get si) :
    ∃ s', Session.Ends (streamPkMatrix (echoHal answer hostSk) P si s) e s'
        { e with reads := e.reads + 1, chunks := e.chunks ++ [pkChunk P sigmaG0 K si] } ∧
      PkProgress P sigmaG0 (si + 1) s' := by
  obtain ⟨pk, check, bs⟩ := s
  have hcheck : check = byteLen (P.gfqBits * pkCoeffs P) * (si - 1) := hs.check
  obtain ⟨off, hoff⟩ : ∃ off, (if si = 1 then P.pubSeedBytes else 0) = off := ⟨_, rfl⟩
  obtain ⟨buf, hwrite, hget⟩ := writeGenerator hP hK (pk.view off) h1 h2
  have hslice := slice_pkChunk hP hsigma hs.seed hget
  have hread := @ends_readStream answer hostSk e (P.k * P.m * P.n)
  have hsend := @ends_writeStreamStr answer hostSk { e with reads := e.reads + 1 } ""
    (pkChunk P sigmaG0 K si)
  rw [hoff] at hslice
  rw [hG] at hread
  rw [if_neg (pkChunk_ne_nil hP sigmaG0 K si)] at hsend
  refine ⟨((pk.modifyFrom off fun _ => buf).blit 0 (List.replicate (pkBufLen P) 0),
      check + byteLen (P.gfqBits * pkCoeffs P),
      ⟨pkBufLen P - P.pubSeedBytes, byteLen (P.gfqBits * pkCoeffs P), 0⟩),
    (ends_putchar 0).bind (hread.bind ?_), fun h => absurd h (by omega), ?_, rfl⟩
  · simp only [hoff, hwrite]
    rw [hslice]
    exact hsend.bind (ends_getchar.bind (Session.ends_pure _ _))
  · change check + _ = _
    rw [hcheck, ← Nat.mul_succ, show (si - 1).succ = si + 1 - 1 by omega]

/-- The chunks of the public key, and the size check behind the loop. -/
theorem streamPublicKey_ends
    (hhost : ∀ j, j < P.s - 1 →
      answer e.sent (e.reads + j) = keyMatrix P K (2 * (P.s - 1) + j)) :
    Session.Ends (streamPublicKey (echoHal answer hostSk) P sigmaG0) e 0
      (pkLog P sigmaG0 K e P.s) := by
  have hstep : ∀ si s e', 1 ≤ si → si < P.s →
      PkProgress P sigmaG0 si s ∧ e' = pkLog P sigmaG0 K e si →
      ∃ s' e'', Session.Ends (streamPkMatrix (echoHal answer hostSk) P si s) e' s' e'' ∧
        PkProgress P sigmaG0 (si + 1) s' ∧ e'' = pkLog P sigmaG0 K e (si + 1) := by
    rintro si s e' h1 h2 ⟨hs, rfl⟩
    have hG : answer e.sent (e.reads + (si - 1)) = K.G.get si := by
      rw [hhost _ (by omega), keyMatrix, if_neg (by omega), if_neg (by omega),
        Nat.add_sub_cancel_left, Nat.sub_add_cancel h1]
    obtain ⟨s', hround, hs'⟩ := @streamPkMatrix_ends P answer hostSk (pkLog P sigmaG0 K e si) hP K hK
      sigmaG0 hsigma si h1 h2 s hs hG
    exact ⟨s', _, hround, hs', pkLog_succ e h1⟩
  have hstart : PkProgress P sigmaG0 1
      ((Arr.replicate (pkBufLen P) 0).blit 0 sigmaG0, 0, bsInit 0) :=
    ⟨fun _ i hi => getD_blit_zero _ _ hi, rfl, rfl⟩
  obtain ⟨⟨pk, check, bs⟩, e', hloop, hs, rfl⟩ := Session.forUpM_ends
    (fun si s e' => PkProgress P sigmaG0 si s ∧ e' = pkLog P sigmaG0 K e si) hP.one_le_s hstep
    ⟨hstart, (pkLog_one e).symm⟩
  have hcheck : check = byteLen (P.gfqBits * pkCoeffs P) * (P.s - 1) := hs.check
  have hbit : bs.bitPos = 0 := hs.aligned
  refine hloop.bind ?_
  simp only
  rw [if_neg (by rw [hP.pkBytes_eq, hcheck, hbit]; simp)]
  exact Session.ends_pure _ _

end

/-! ## The parameter sets -/

/-- The sets of params.py, which share the lengths of their seeds. -/
def paramSet (digestBytes stSeedBytes q n s t w : Nat) : Param where
  digestBytes := digestBytes
  pubSeedBytes := 32
  secSeedBytes := 32
  stSeedBytes := stSeedBytes
  stSaltBytes := 32
  q := q
  n := n
  m := n
  s := s
  t := t
  w := w
  k := n

/-- `params` of params.py. -/
def params : List Param :=
  [ paramSet 32 16 4093 14 4 1152 14,
    paramSet 32 16 4093 14 5 192 20,
    paramSet 32 24 4093 22 4 608 26,
    paramSet 32 24 4093 22 5 160 36,
    paramSet 32 32 2039 30 5 192 52,
    paramSet 32 32 2039 30 6 112 66,
    paramSet 16 16 8191 10 4 16 6 ]

instance (P : Params) : Decidable (Sized P) :=
  decidable_of_iff
    (1 ≤ P.m ∧ 2 ≤ P.k ∧ P.k ≤ P.m * P.n ∧ 1 ≤ P.s ∧
      P.pkBytes = P.pubSeedBytes + byteLen (P.gfqBits * pkCoeffs P) * (P.s - 1) ∧
      P.skBytes = P.secSeedBytes + P.pubSeedBytes
        + (byteLen (P.gfqBits * (P.m * P.m)) * (P.s - 1)
          + byteLen (P.gfqBits * (P.n * P.n)) * (P.s - 1)))
    ⟨by
      rintro ⟨h1, h2, h3, h4, h5, h6⟩
      exact ⟨h1, h2, h3, h4, h5, h6⟩, by
      rintro ⟨h1, h2, h3, h4, h5, h6⟩
      exact ⟨h1, h2, h3, h4, h5, h6⟩⟩

instance (P : Params) : Decidable (ChunkFit P) :=
  decidable_of_iff
    (Sized P ∧ 2 ≤ P.s ∧ P.n ≤ P.m ∧ 8 ≤ P.gfqBits ∧
      P.pubSeedBytes + byteLen (P.gfqBits * pkCoeffs P) ≤ pkBufLen P)
    ⟨by
      rintro ⟨h1, h2, h3, h4, h5⟩
      exact ⟨h1, h2, h3, h4, h5⟩, by
      rintro ⟨h1, h2, h3, h4, h5⟩
      exact ⟨h1, h2, h3, h4, h5⟩⟩

/-- The buffers are large enough for every shipped set. -/
theorem params_chunkFit : ∀ par ∈ params, ChunkFit par.genParam := by
  decide +kernel

/-! ## The chunks are the keys -/

/-- The chunks of the public key, put together. -/
theorem flatten_pkChunks (hs : 2 ≤ P.s) (sigmaG0 : List UInt8) (K : KeyMatrices) :
    ((List.range' 1 (P.s - 1)).map (pkChunk P sigmaG0 K)).flatten
      = sigmaG0 ++ packAll P fun si => pkBlock P (K.G.get si) := by
  obtain ⟨r, hr⟩ : ∃ r, P.s - 1 = r + 1 := ⟨P.s - 2, by omega⟩
  have hrest : ((List.range' 2 r).map (pkChunk P sigmaG0 K)).flatten
      = ((List.range' 2 r).map fun si => pkBlock P (K.G.get si)).flatMap (packBytes P.gfqBits) := by
    rw [List.flatMap_map, List.flatMap_def]
    congr 1
    apply List.map_congr_left
    intro si hsi
    rw [List.mem_range'_1] at hsi
    rw [pkChunk, if_neg (by omega), List.nil_append]
  rw [packAll, hr, List.range'_succ, List.map_cons, List.map_cons, List.flatten_cons,
    List.flatMap_cons, hrest, pkChunk, if_pos rfl, List.append_assoc]

/-- Once the host answers every request with the matrix that is asked for, the
    device sends the secret key of `crypto_sign_keypair` as one chunk and its
    public key as `s - 1` chunks, the seed in the first one. -/
theorem chunkedKeys_eq (hP : ChunkFit P) {K : KeyMatrices} (hK : EntriesFit P K)
    {delta sigmaG0 : List UInt8} (hdelta : delta.length = P.secSeedBytes)
    (hsigma : sigmaG0.length = P.pubSeedBytes) (pk sk : Arr UInt8)
    {answer : List (Arr UInt16) → Nat → Arr UInt16} (hostSk : List UInt8) {e : Echo}
    (hhost : ∀ j, j < 3 * (P.s - 1) → answer e.sent (e.reads + j) = keyMatrix P K j) :
    ∃ pk' sk' chunks, copyKeys P delta sigmaG0 K pk sk = (0, pk', sk') ∧
      Session.Ends (streamKeys (echoHal answer hostSk) P delta sigmaG0) e 0
        { e with
          reads := e.reads + 3 * (P.s - 1)
          chunks := e.chunks ++ sk'.slice 0 P.skBytes :: chunks } ∧
      chunks.length = P.s - 1 ∧ sigmaG0 <+: chunks.headD [] ∧
      chunks.flatten = pk'.slice 0 P.pkBytes := by
  have hs := hP.two_le_s
  obtain ⟨pk', sk', hcopy, hpk', hsk'⟩ := copyKeys_bytes hP hK hdelta hsigma pk sk
  have hsec := @streamSecretKey_ends P answer hostSk e hP K hK delta sigmaG0 hdelta hsigma
    fun j hj => hhost j (by omega)
  have hpub := @streamPublicKey_ends P answer hostSk { e with
      reads := e.reads + 2 * (P.s - 1)
      chunks := e.chunks ++ [delta ++ sigmaG0 ++ skBlocks P K] } hP K hK sigmaG0 hsigma
    fun j hj => by
      rw [← hhost (2 * (P.s - 1) + j) (by omega), Nat.add_assoc]
  -- the chunks of both loops, in the order in which they are sent
  have hlog : pkLog P sigmaG0 K { e with
        reads := e.reads + 2 * (P.s - 1)
        chunks := e.chunks ++ [delta ++ sigmaG0 ++ skBlocks P K] } P.s
      = { e with
          reads := e.reads + 3 * (P.s - 1)
          chunks := e.chunks ++ sk'.slice 0 P.skBytes
            :: (List.range' 1 (P.s - 1)).map (pkChunk P sigmaG0 K) } := by
    rw [hsk', pkLog]
    simp only [List.append_assoc, List.singleton_append]
    rw [Nat.add_assoc, ← Nat.succ_mul]
  rw [hlog] at hpub
  refine ⟨pk', sk', (List.range' 1 (P.s - 1)).map (pkChunk P sigmaG0 K), hcopy, hsec.bind hpub,
    by simp, ?_, by rw [flatten_pkChunks hs, hpk']⟩
  obtain ⟨r, hr⟩ : ∃ r, P.s - 1 = r + 1 := ⟨P.s - 2, by omega⟩
  rw [hr, List.range'_succ, List.map_cons, List.headD_cons, pkChunk, if_pos rfl]
  exact List.prefix_append _ _

/-- Two generators, so that the second chunk starts at the front of the buffer. -/
def threeKeys : Params := { tiny with s := 3, pkBytes := 5, skBytes := 18 }

/-- Matrices of a key pair for `threeKeys`. -/
def threeMatrices : KeyMatrices where
  G := ⟨[⟨[]⟩, ⟨[1, 0, 2, 1, 0, 1, 1, 2]⟩, ⟨[1, 0, 1, 1, 0, 1, 255, 7]⟩]⟩
  Ainv := ⟨[⟨[]⟩, ⟨[1, 2, 0, 1]⟩, ⟨[2, 0, 0, 1]⟩]⟩
  Binv := ⟨[⟨[]⟩, ⟨[0, 1, 1, 0]⟩, ⟨[1, 1, 2, 1]⟩]⟩

theorem threeMatrices_fit : EntriesFit threeKeys threeMatrices where
  Ainv i j _ h2 hj :=
    (by decide : ∀ i < 3, ∀ j < 4, ((threeMatrices.Ainv.get i).get j).toNat < 2 ^ 8) i h2 j hj
  Binv i j _ h2 hj :=
    (by decide : ∀ i < 3, ∀ j < 4, ((threeMatrices.Binv.get i).get j).toNat < 2 ^ 8) i h2 j hj
  G i j _ h2 hj :=
    (by decide : ∀ i < 3, ∀ j < 8, ((threeMatrices.G.get i).get j).toNat < 2 ^ 8) i h2 j hj

theorem chunkedKeys_eq_three : ∃ pk sk chunks,
    copyKeys threeKeys [7] [9] threeMatrices Arr.empty Arr.empty = (0, pk, sk) ∧
      Session.Ends (streamKeys (echoHal (fun _ => keyMatrix threeKeys threeMatrices) []) threeKeys
        [7] [9]) Echo.start 0
        { Echo.start with
          reads := 0 + 3 * 2
          chunks := [] ++ sk.slice 0 18 :: chunks } ∧
      chunks.length = 2 ∧ [9] <+: chunks.headD [] ∧ chunks.flatten = pk.slice 0 5 :=
  chunkedKeys_eq (by decide) threeMatrices_fit rfl rfl Arr.empty Arr.empty [] fun j _ => by
    rw [show Echo.start.reads + j = j from Nat.zero_add j]

end Meds.Ref
