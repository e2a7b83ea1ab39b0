/-
  Meds.Ref.StreamSignStale

  Signing on the device against meds_serial.c, by what the stack held before.

  meds_serial.c packs every commitment into a `bs_buf` that it does not clear;
  the device allocates its buffer with calloc.  Fields of less than 8 bits are
  ORed into the first byte they touch, so a byte ff stays and is hashed.  Then
  the two sides agree only if SHAKE256 gives both strings the same digest.
-/

import Meds.Ref.PublicKeyStale
import Meds.Ref.StreamSignSmall

namespace Meds.Ref

open Meds.Core

variable {P : Params} {SHAKE256 : Shake} {ε : Type}

/-! ## A byte ff in `bs_buf` -/

theorem length_packCommitment (bsBuf : Arr UInt8) (G : Arr UInt16) :
    (packCommitment P bsBuf G).length = bsBufLen P := Arr.length_slice _ _ _

theorem bsBufLen_pos (hP : P.Square) : 0 < bsBufLen P := by
  have hn := hP.two_le_n
  have hw := hP.gfqBits_pos
  have hsq : P.n * 2 ≤ P.n * P.n := Nat.mul_le_mul_left _ hn
  have hpos : 0 < P.k * (P.m * P.n - P.k) * P.gfqBits := by
    rw [hP.k_eq, hP.m_eq]
    exact Nat.mul_pos (Nat.mul_pos (by omega) (by omega)) hw
  rw [bsBufLen, ceiling_eight, byteLen]
  omega

/-- A byte ff stays under narrow fields. -/
theorem packCommitment_ones (hP : P.Square) (h8 : P.gfqBits < 8) {bsBuf : Arr UInt8}
    (hones : bsBuf.get 0 = 255) (G : Arr UInt16) : (packCommitment P bsBuf G)[0]? = some 255 := by
  have hstart : OnesUnder (bsBuf, bsInit (bsBufLen P)) (bsBuf, bsInit (bsBufLen P)) := ⟨hones, rfl⟩
  have hrun := hstart.puts h8 (rowEntries P G 0 P.k)
  rw [packCommitment, writeRows_eq, Arr.getElem?_slice _ (bsBufLen_pos hP), Nat.zero_add]
  exact congrArg some hrun.1

/-- The first byte of a packed matrix over GF(p) is not ff. -/
theorem commitBytes_ne_ones (hP : P.Square) (hw : 2 ≤ P.gfqBits) (h8 : P.gfqBits < 8)
    {G : Arr UInt16} (hG : Reduced P G (P.n * P.n * P.n)) : (commitBytes P G)[0]? ≠ some 255 := by
  intro hbyte
  have hn := hP.two_le_n
  have hlt : P.p < 2 ^ P.gfqBits :=
    hP.p_le.lt_of_ne fun h => Nat.Prime.not_prime_pow hw (h ▸ hP.prime)
  have hsq : P.n * 2 ≤ P.n * P.n := Nat.mul_le_mul_left _ hn
  have hlen : 0 < (rowEntries P G 0 P.k).length := by
    rw [length_rowEntries, hP.k_eq, hP.m_eq]
    exact Nat.mul_pos (by omega) (by omega)
  have hentry : (rowEntries P G 0 P.k).getD 0 0 < P.p := by
    rw [List.getD_eq_getElem _ _ hlen]
    refine lt_of_mem_rowEntries (fun r j _ hr hj => ?_) _ (List.getElem_mem hlen)
    rw [hP.m_eq] at hj ⊢
    rw [hP.k_eq] at hr
    exact hG _ (flat_lt hr hj)
  have hfield := unpackAt_packBytes (d := (Arr.mk (commitBytes P G)).get) (o := 0)
    (w := P.gfqBits) (l := rowEntries P G 0 P.k) (fun i _ => by rw [Nat.zero_add]; rfl) hlen
    (hentry.trans hlt)
  have hfirst : (Arr.mk (commitBytes P G)).get 0 = 255 := by
    change (commitBytes P G).getD 0 default = 255
    rw [List.getD_eq_getElem?_getD, hbyte]
    rfl
  rw [unpackAt_ones h8 hfirst] at hfield
  omega

/-- The stale byte is hashed. -/
theorem packCommitment_stale (hP : P.Square) (hw : 2 ≤ P.gfqBits) (h8 : P.gfqBits < 8)
    {bsBuf : Arr UInt8} (hones : bsBuf.get 0 = 255) {G : Arr UInt16}
    (hG : Reduced P G (P.n * P.n * P.n)) :
    packCommitment P bsBuf G ≠ packCommitment P Arr.empty G := by
  intro hsame
  have hbyte := packCommitment_ones hP h8 hones G
  rw [hsame, packCommitment_reduced hP hG (Or.inr fun i => Arr.get_empty i)] at hbyte
  exact commitBytes_ne_ones hP hw h8 hG hbyte

/-! ## The two signatures -/

/-- `bs_buf` with a byte ff in front, in every round. -/
def staleBuf : Nat → Arr UInt8 := fun _ => ⟨[255]⟩

/-- `crypto_sign` before commitment `i`, in clean buffers and in stale ones: from the first
    commitment on they differ in what is hashed. -/
structure StaleStep (i : Nat) (st st' : SignState) : Prop where
  tree : st'.stree = st.stree
  length : st'.hShake.absorbed.length = st.hShake.absorbed.length
  differ : 0 < i → st'.hShake.absorbed ≠ st.hShake.absorbed

section

variable [hprime : Fact P.p.Prime]

theorem signCommit_stale (hP : P.Square) (hw : 2 ≤ P.gfqBits) (h8 : P.gfqBits < 8)
    {alpha : List UInt8} {G0 : Arr UInt16} {i : Nat} (hH : i < 2 ^ P.seedTreeHeight)
    {st st' t : SignState} (hR : StaleStep i st t)
    (h : (signCommit P SHAKE256 (fun _ => Arr.empty) G0 alpha i st : Run ε _).Returns st') :
    ∃ t', (signCommit P SHAKE256 staleBuf G0 alpha i t : Run ε _).Returns t' ∧
      StaleStep (i + 1) st' t' := by
  rw [signCommit, Run.returns_bind] at h
  obtain ⟨⟨stree, A, B, G⟩, hloop, hst'⟩ := h
  rw [Run.returns_pure] at hst'
  subst hst'
  obtain ⟨rfl, -, hC⟩ := commitLoop_returns hP hH hloop
  obtain ⟨-, -, hred⟩ := commitG_spec hP hC.systematic
  have hones : (staleBuf i).get 0 = 255 := rfl
  have hpack := packCommitment_stale hP hw h8 hones hred
  rw [← hR.tree] at hloop
  refine ⟨_, Run.returns_bind.mpr ⟨_, hloop, Run.returns_pure.mpr rfl⟩, rfl, ?_, fun _ hsame => ?_⟩
  · simp only [shake256Absorb, List.length_append, hR.length, length_packCommitment]
  · exact hpack (List.append_inj_right hsame hR.length)

/-- With stale buffers the commitments are the same, but other bytes are hashed. -/
theorem signCommitments_stale (hP : P.Valid) (hw : 2 ≤ P.gfqBits) (h8 : P.gfqBits < 8)
    {delta alpha : List UInt8} {G0 : Arr UInt16} {st : SignState}
    (h : (signCommitments P SHAKE256 (fun _ => Arr.empty) delta G0 : Run ε _).Returns (alpha, st)) :
    ∃ st', (signCommitments P SHAKE256 staleBuf delta G0 : Run ε _).Returns (alpha, st') ∧
      StaleStep P.t st st' := by
  have htH : P.t ≤ 2 ^ P.seedTreeHeight := hP.height ▸ Nat.le_pow_clog (by decide) P.t
  rw [signCommitments, Run.returns_bind] at h
  obtain ⟨u, hloop, hst⟩ := h
  obtain ⟨rfl, rfl⟩ := Prod.mk.inj (Run.returns_pure.mp hst)
  obtain ⟨st', hloop', hR⟩ := Run.forUpM_simulation StaleStep (Nat.zero_le P.t)
    (fun i st t st' _ hi hR hstep => signCommit_stale hP.toSquare hw h8 (by omega) hR hstep)
    ⟨rfl, rfl, fun h0 => absurd h0 (by omega)⟩ hloop
  refine ⟨st', ?_, hR⟩
  rw [signCommitments]
  exact Run.returns_bind.mpr ⟨st', hloop', Run.returns_pure.mpr rfl⟩

end

/-- The digest of a message behind the commitments. -/
def signDigest (P : Params) (SHAKE256 : Shake) (st : SignState) (msg : List UInt8) : List UInt8 :=
  (shake256Squeeze SHAKE256 P.digestBytes (shake256Finalize (shake256Absorb st.hShake msg))).1

theorem length_signDigest (st : SignState) (msg : List UInt8) :
    (signDigest P SHAKE256 st msg).length = P.digestBytes :=
  length_streamSlice _ _ _

/-- The digest lies in the signed message, at a fixed place. -/
theorem cryptoSign_digest (hP : P.Valid) {bsBuf : Nat → Arr UInt8} {delta msg sk : List UInt8}
    {sm : Arr UInt8} {smlen : Nat}
    (h : (cryptoSign P SHAKE256 bsBuf delta (Arr.replicate (P.sigBytes + msg.length) 0) msg
      sk).Returns (sm, smlen)) :
    ∃ K alpha st, (loadSecretKey P SHAKE256 sk).Returns K ∧
      (signCommitments P SHAKE256 bsBuf delta (K.G.get 0) : Run Fault _).Returns (alpha, st) ∧
      P.sigBytes ≤ smlen ∧
      sm.slice (P.sigBytes - P.digestBytes - P.stSaltBytes) P.digestBytes
        = signDigest P SHAKE256 st msg := by
  rw [cryptoSign] at h
  simp only [Run.returns_bind] at h
  obtain ⟨K, hK, ⟨alpha, st⟩, hst, ⟨ret, ch⟩, hch, h⟩ := h
  have hchal := parseHash_returns (by have := hP.two_le_s; omega) hch
  change (signRespond P SHAKE256 K alpha st (signDigest P SHAKE256 st msg) ch _ msg).Returns _ at h
  obtain ⟨rfl, sm1, -, rfl⟩ := signRespond_blits hP
    (Or.inr fun i _ => Arr.get_replicate _ i) hchal.weight h
  refine ⟨K, alpha, st, hK, hst, Nat.le_add_right _ _, ?_⟩
  -- salt and message are copied behind the digest
  have hsig := sigBytes_eq hP
  have hlen : (signDigest P SHAKE256 st msg).length = P.digestBytes := length_signDigest st msg
  rw [Arr.slice_blit_of_disjoint _ _ _ _ _ (Or.inl (by omega)),
    Arr.slice_blit_of_disjoint _ _ _ _ _ (Or.inl (by omega)), ← hlen, Arr.slice_blit]

/-- The strings hashed in clean and in stale buffers differ and have one digest. -/
def StaleCollision (P : Params) (SHAKE256 : Shake) (delta msg sk : List UInt8) : Prop :=
  ∃ K alpha st st', (loadSecretKey P SHAKE256 sk).Returns K ∧
    (signCommitments P SHAKE256 (fun _ => Arr.empty) delta (K.G.get 0) : Run Fault _).Returns
      (alpha, st) ∧
    (signCommitments P SHAKE256 staleBuf delta (K.G.get 0) : Run Fault _).Returns (alpha, st') ∧
    st'.hShake.absorbed ≠ st.hShake.absorbed ∧
    signDigest P SHAKE256 st' msg = signDigest P SHAKE256 st msg

/-- Where device and host agree with `crypto_sign` in two buffers, these give one signed message. -/
theorem signed_eq_of_refines {bsBuf bsBuf' : Nat → Arr UInt8} {delta msg sk : List UInt8}
    (h : SmallSignRefines P SHAKE256 bsBuf delta msg sk)
    (h' : SmallSignRefines P SHAKE256 bsBuf' delta msg sk) {sm sm' : Arr UInt8} {smlen smlen' : Nat}
    (hsm : (cryptoSign P SHAKE256 bsBuf delta (Arr.replicate (P.sigBytes + msg.length) 0) msg
      sk).Returns (sm, smlen))
    (hsm' : (cryptoSign P SHAKE256 bsBuf' delta (Arr.replicate (P.sigBytes + msg.length) 0) msg
      sk).Returns (sm', smlen')) : sm'.slice 0 smlen' = sm.slice 0 smlen := by
  obtain ⟨e, he, htext⟩ := h.signed sm smlen hsm
  obtain ⟨e', he', htext'⟩ := h'.signed sm' smlen' hsm'
  obtain ⟨-, rfl⟩ := he.unique he'
  exact Option.some.inj (htext'.symm.trans htext)

/-- Narrow fields and agreement in every buffer need a collision. -/
theorem staleCollision_of_refines (hP : P.Valid) (hw : 2 ≤ P.gfqBits) (h8 : P.gfqBits < 8)
    {delta msg sk : List UInt8} {smlen : Nat} {e : Echo}
    (hends : Session.Ends (cryptoSignStreaming (echoHal replayHost sk) P SHAKE256 false delta msg)
      Echo.start smlen e)
    (h : ∀ bsBuf, SmallSignRefines P SHAKE256 bsBuf delta msg sk) :
    StaleCollision P SHAKE256 delta msg sk := by
  have : Fact P.p.Prime := ⟨hP.prime⟩
  have ht1 : 1 ≤ P.t := hP.one_le_w.trans hP.w_le
  obtain ⟨sm, hsm⟩ := (h fun _ => Arr.empty).ends smlen e hends
  obtain ⟨sm', hsm'⟩ := (h staleBuf).ends smlen e hends
  have hsame := signed_eq_of_refines (h fun _ => Arr.empty) (h staleBuf) hsm hsm'
  obtain ⟨K, alpha, st, hK, hst, hle, hdigest⟩ := cryptoSign_digest hP hsm
  obtain ⟨K', alpha', st', hK', hst', -, hdigest'⟩ := cryptoSign_digest hP hsm'
  obtain rfl := hK.unique hK'
  obtain ⟨stale, hstale, hR⟩ := signCommitments_stale hP hw h8 hst
  obtain ⟨rfl, rfl⟩ := Prod.mk.inj (hst'.unique hstale)
  have hsig := sigBytes_eq hP
  have hpart := Arr.slice_of_slice (a := P.sigBytes - P.digestBytes - P.stSaltBytes)
    (b := P.digestBytes) hsame (by omega)
  exact ⟨K, alpha', st, st', hK, hst, hst', hR.differ ht1,
    hdigest'.symm.trans (hpart.trans hdigest)⟩

/-- Streaming sign and the assembly on the host equal `crypto_sign` where nothing of
    `bs_buf` is hashed and the last chunk is not a single byte.  Asked of every `bs_buf`,
    a run of the device agrees exactly from 8 bits on, unless two strings collide. -/
theorem small_sign_refines_iff (hP : P.Valid) {delta msg sk : List UInt8}
    (hsk : sk.length = P.skBytes) :
    (∀ bsBuf : Nat → Arr UInt8, 8 ≤ P.gfqBits ∨ (∀ i j, (bsBuf i).get j = 0) →
      (SmallSignRefines P SHAKE256 bsBuf delta msg sk ↔
        ((∃ r, (cryptoSign P SHAKE256 bsBuf delta (Arr.replicate (P.sigBytes + msg.length) 0) msg
          sk).Returns r) → dataLength P + msg.length ≠ 1))) ∧
    (2 ≤ P.gfqBits → (∃ smlen e, Session.Ends
        (cryptoSignStreaming (echoHal replayHost sk) P SHAKE256 false delta msg) Echo.start smlen
        e) →
      ¬ StaleCollision P SHAKE256 delta msg sk →
      ((∀ bsBuf, SmallSignRefines P SHAKE256 bsBuf delta msg sk) ↔
        8 ≤ P.gfqBits ∧ dataLength P + msg.length ≠ 1)) := by
  refine ⟨fun bsBuf hbs => small_sign_clean_iff hP hsk hbs, fun hw ⟨smlen, e, hends⟩ hcol => ?_⟩
  constructor
  · intro h
    obtain ⟨sm, hsm⟩ := (h fun _ => Arr.empty).ends smlen e hends
    refine ⟨?_, (small_sign_clean_iff hP hsk (Or.inr fun _ j => Arr.get_empty j)).mp
      (h fun _ => Arr.empty) ⟨_, hsm⟩⟩
    by_contra h8
    exact hcol (staleCollision_of_refines hP hw (by omega) hends h)
  · rintro ⟨h8, hone⟩ bsBuf
    exact (small_sign_clean_iff hP hsk (Or.inl h8)).mpr fun _ => hone

/-! ## Fields of 2 bits -/

/-- A secret key of the parameters `tinyNarrow`. -/
def narrowSk : List UInt8 := [1, 4, 25, 169]

theorem cryptoSign_narrow_clean :
    (cryptoSign tinyNarrow toyShake (fun _ => Arr.empty) [2] (Arr.replicate 8 0) [1, 2, 3]
      narrowSk).Returns (⟨[154, 36, 1, 14, 27, 1, 2, 3]⟩, 8) :=
  Run.returns_of_run (n := 60) (by decide +kernel)

theorem cryptoSign_narrow_stale :
    (cryptoSign tinyNarrow toyShake staleBuf [2] (Arr.replicate 8 0) [1, 2, 3]
      narrowSk).Returns (⟨[82, 26, 20, 5, 27, 1, 2, 3]⟩, 8) :=
  Run.returns_of_run (n := 60) (by decide +kernel)

/-- The digests are 14 and 5. -/
theorem not_staleCollision_narrow :
    ¬ StaleCollision tinyNarrow toyShake [2] [1, 2, 3] narrowSk := by
  rintro ⟨K, alpha, st, st', hK, hst, hst', -, hcol⟩
  obtain ⟨K₁, alpha₁, st₁, hK₁, hst₁, -, hclean⟩ :=
    cryptoSign_digest tinyNarrow_valid cryptoSign_narrow_clean
  obtain ⟨K₂, alpha₂, st₂, hK₂, hst₂, -, hstale⟩ :=
    cryptoSign_digest tinyNarrow_valid cryptoSign_narrow_stale
  obtain rfl := hK.unique hK₁
  obtain rfl := hK.unique hK₂
  obtain ⟨-, rfl⟩ := Prod.mk.inj (hst.unique hst₁)
  obtain ⟨-, rfl⟩ := Prod.mk.inj (hst'.unique hst₂)
  rw [← hclean, ← hstale] at hcol
  exact absurd hcol (by decide)

theorem device_narrow_ends : ∃ smlen e, Session.Ends
    (cryptoSignStreaming (echoHal replayHost narrowSk) tinyNarrow toyShake false [2] [1, 2, 3])
    Echo.start smlen e := by
  obtain ⟨e, he, -⟩ := @small_signed tinyNarrow toyShake tinyNarrow_valid _ [2] [1, 2, 3] narrowSk
    rfl (Or.inr fun _ j => Arr.get_empty j) _ _ cryptoSign_narrow_clean
  exact ⟨8, e, he⟩

theorem small_sign_refines_iff_narrow :
    (∀ bsBuf : Nat → Arr UInt8, 8 ≤ tinyNarrow.gfqBits ∨ (∀ i j, (bsBuf i).get j = 0) →
      (SmallSignRefines tinyNarrow toyShake bsBuf [2] [1, 2, 3] narrowSk ↔
        ((∃ r, (cryptoSign tinyNarrow toyShake bsBuf [2] (Arr.replicate 8 0) [1, 2, 3]
          narrowSk).Returns r) → dataLength tinyNarrow + 3 ≠ 1))) ∧
    ((∀ bsBuf, SmallSignRefines tinyNarrow toyShake bsBuf [2] [1, 2, 3] narrowSk) ↔
      8 ≤ tinyNarrow.gfqBits ∧ dataLength tinyNarrow + 3 ≠ 1) :=
  ⟨(@small_sign_refines_iff tinyNarrow toyShake tinyNarrow_valid [2] [1, 2, 3] narrowSk rfl).1,
    (small_sign_refines_iff tinyNarrow_valid rfl).2 (by decide) device_narrow_ends
      not_staleCollision_narrow⟩

/-- With bytes ff in `bs_buf`, `crypto_sign` signs with another challenge than the device. -/
theorem not_small_sign_refines_stale :
    ¬ SmallSignRefines tinyNarrow toyShake staleBuf [2] [1, 2, 3] narrowSk := by
  intro hstale
  have hclean : SmallSignRefines tinyNarrow toyShake (fun _ => Arr.empty) [2] [1, 2, 3] narrowSk :=
    (small_sign_clean_iff tinyNarrow_valid rfl (Or.inr fun _ j => Arr.get_empty j)).mpr
      fun _ => by decide
  exact absurd (signed_eq_of_refines hclean hstale cryptoSign_narrow_clean cryptoSign_narrow_stale)
    (by decide)

end Meds.Ref
