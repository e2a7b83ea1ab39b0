/-
  Meds.Ref.SignLeftover

  Which bytes of the signed message `crypto_sign` does not write.

  The path field has room for `MEDS_max_path_len` seeds, `stree_to_path`
  writes as many as the challenge needs, and nothing clears the rest.  So two
  runs that start with different contents of `sm` end in the same signed
  message exactly when those contents agree on the unused part of the field.
  `bs_buf` starts uninitialized too, but fields of a byte or more overwrite
  whatever it held.
-/

import Meds.Ref.SignSpec

namespace Meds.Ref

open Meds.Core

variable {P : Params} {SHAKE256 : Shake} {ε : Type}

section

variable (P SHAKE256)

/-- The challenge that `crypto_sign` draws. -/
def signChallenge (bsBuf : Nat → Arr UInt8) (delta m sk : List UInt8) : Run Fault (Arr UInt8) := do
  let K ← loadSecretKey P SHAKE256 sk
  let (_, st) ← signCommitments P SHAKE256 bsBuf delta (K.G.get 0)
  let hShake := shake256Finalize (shake256Absorb st.hShake m)
  let (digest, _) := shake256Squeeze SHAKE256 P.digestBytes hShake
  let (_, h) ← parseHash P SHAKE256 digest Arr.empty P.t
  pure h

/-- The signed message does not depend on what the memory held before. -/
def SignDetermined (delta m sk : List UInt8) : Prop :=
  ∀ bsBuf bsBuf' sm0 sm0' sm sm' smlen smlen',
    (cryptoSign P SHAKE256 bsBuf delta sm0 m sk).Returns (sm, smlen) →
    (cryptoSign P SHAKE256 bsBuf' delta sm0' m sk).Returns (sm', smlen') →
    smlen = smlen' ∧ sm.slice 0 smlen = sm'.slice 0 smlen'

end

/-- `crypto_sign` comes to its end once it has a challenge. -/
theorem exists_cryptoSign (hP : P.Valid) {bsBuf : Nat → Arr UInt8} {delta m sk : List UInt8}
    (h : ∃ ch, (signChallenge P SHAKE256 bsBuf delta m sk).Returns ch) (sm : Arr UInt8) :
    ∃ r, (cryptoSign P SHAKE256 bsBuf delta sm m sk).Returns r := by
  obtain ⟨ch, h⟩ := h
  unfold signChallenge at h
  simp only [Run.returns_bind] at h
  obtain ⟨K, hK, ⟨alpha, st⟩, hst, ⟨ret, ch⟩, hparse, -⟩ := h
  have hcount := (parseHash_returns (by have := hP.two_le_s; omega) hparse).weight
  obtain ⟨r, hr⟩ := @exists_signRespond P SHAKE256 hP ch hcount K alpha st
    (shake256Squeeze SHAKE256 P.digestBytes (shake256Finalize (shake256Absorb st.hShake m))).1 sm m
  rw [cryptoSign]
  simp only [Run.returns_bind]
  exact ⟨r, K, hK, (alpha, st), hst, (ret, ch), hparse, hr⟩

/-- A stream that is the same for every input gives every message the same challenge. -/
theorem signChallenge_const (h : ∀ x y, SHAKE256 x = SHAKE256 y) (bsBuf : Nat → Arr UInt8)
    (delta m sk : List UInt8) :
    signChallenge P SHAKE256 bsBuf delta m sk = signChallenge P SHAKE256 bsBuf delta [] sk := by
  have hconst : SHAKE256 = fun _ => SHAKE256 [] := funext fun x => h x []
  rw [hconst]
  rfl

/-! ## The commitment buffer -/

section

variable [hprime : Fact P.p.Prime]

theorem signCommit_bsBuf (hP : P.Square) (h8 : 8 ≤ P.gfqBits) {bsBuf : Nat → Arr UInt8}
    (bsBuf' : Nat → Arr UInt8) {G0 : Arr UInt16} {alpha : List UInt8} {i : Nat}
    {st st' : SignState} (hi : i < 2 ^ P.seedTreeHeight)
    (h : (signCommit P SHAKE256 bsBuf G0 alpha i st : Run ε _).Returns st') :
    (signCommit P SHAKE256 bsBuf' G0 alpha i st : Run ε _).Returns st' := by
  unfold signCommit at h ⊢
  rw [Run.returns_bind] at h ⊢
  obtain ⟨⟨stree, A, B, G⟩, hloop, h⟩ := h
  rw [Run.returns_pure] at h
  refine ⟨_, hloop, Run.returns_pure.mpr ?_⟩
  obtain ⟨rfl, -, hC⟩ := commitLoop_returns hP hi hloop
  obtain ⟨-, -, hred⟩ := commitG_spec hP hC.systematic
  rw [packCommitment_reduced hP hred (Or.inl h8)] at h ⊢
  exact h

theorem signCommitments_bsBuf (hP : P.Valid) (h8 : 8 ≤ P.gfqBits) {bsBuf : Nat → Arr UInt8}
    (bsBuf' : Nat → Arr UInt8) {delta : List UInt8} {G0 : Arr UInt16}
    {r : List UInt8 × SignState}
    (h : (signCommitments P SHAKE256 bsBuf delta G0 : Run ε _).Returns r) :
    (signCommitments P SHAKE256 bsBuf' delta G0 : Run ε _).Returns r := by
  have htH : P.t ≤ 2 ^ P.seedTreeHeight := hP.height ▸ Nat.le_pow_clog (by decide) P.t
  unfold signCommitments at h ⊢
  rw [Run.returns_bind] at h ⊢
  obtain ⟨st, hloop, h⟩ := h
  obtain ⟨st', hloop', rfl⟩ := Run.forUpM_simulation (fun _ s t => t = s) (Nat.zero_le P.t)
    (fun i s t s' _ hi hst hs => ⟨s', hst ▸ signCommit_bsBuf hP.toSquare h8 bsBuf'
      (Nat.lt_of_lt_of_le hi htH) hs, rfl⟩) rfl hloop
  exact ⟨_, hloop', h⟩

end

/-! ## The path field -/

/-- Responses, path, digest, salt and message overwrite all but the bytes
    between path and digest. -/
theorem slice_signed_eq_iff {sm0 sm0' sm1 sm1' : Arr UInt8}
    (bytes pb digest alpha m : List UInt8) {d a l : Nat}
    (hda : d + digest.length = a) (hal : a + alpha.length = l)
    (hsm1 : ∀ i, sm1.get i = ((sm0.blit bytes.length pb).blit 0 bytes).get i)
    (hsm1' : ∀ i, sm1'.get i = ((sm0'.blit bytes.length pb).blit 0 bytes).get i) :
    ((((sm1'.blit d digest).blit a alpha).blit l m).slice 0 (l + m.length)
        = (((sm1.blit d digest).blit a alpha).blit l m).slice 0 (l + m.length)) ↔
      ∀ i, bytes.length + pb.length ≤ i → i < d → sm0'.get i = sm0.get i := by
  -- a byte between path and digest is the one the buffer held
  have hkept : ∀ {sm0 sm1 : Arr UInt8},
      (∀ i, sm1.get i = ((sm0.blit bytes.length pb).blit 0 bytes).get i) →
      ∀ i, bytes.length + pb.length ≤ i → i < d →
        (((sm1.blit d digest).blit a alpha).blit l m).get i = sm0.get i := by
    intro sm0 sm1 hsm1 i hlo hhi
    rw [Arr.get_blit_of_lt _ _ (by omega), Arr.get_blit_of_lt _ _ (by omega),
      Arr.get_blit_of_lt _ _ hhi, hsm1, Arr.get_blit_of_ge _ _ (by omega),
      Arr.get_blit_of_ge _ _ hlo]
  constructor
  · intro h i hlo hhi
    rw [← hkept hsm1 i hlo hhi, ← hkept hsm1' i hlo hhi]
    have hcell := congrArg (fun l : List UInt8 => l.getD i default) h
    rwa [Arr.getD_slice _ _ _ _ (by omega), Arr.getD_slice _ _ _ _ (by omega), Nat.zero_add]
      at hcell
  · intro h
    refine Arr.slice_congr fun i hi => ?_
    rw [Nat.zero_add]
    by_cases hin : bytes.length + pb.length ≤ i ∧ i < d
    · rw [hkept hsm1 i hin.1 hin.2, hkept hsm1' i hin.1 hin.2]
      exact h i hin.1 hin.2
    · simp only [Arr.get_blit, hsm1, hsm1']
      split_ifs <;> first | rfl | omega

/-- Two runs of the last part of `crypto_sign` on different contents of `sm`. -/
theorem signRespond_same_iff (hP : P.Valid) (h8 : 8 ≤ P.gfqBits) {K : KeyMatrices}
    {alpha digest m : List UInt8} {st : SignState} {h sm0 sm : Arr UInt8} {smlen : Nat}
    (halpha : alpha.length = P.stSaltBytes) (hdigest : digest.length = P.digestBytes)
    (hcount : (excluded P h).length = P.w)
    (hr : (signRespond P SHAKE256 K alpha st digest h sm0 m).Returns (sm, smlen))
    (sm0' : Arr UInt8) :
    ∃ sm', (signRespond P SHAKE256 K alpha st digest h sm0' m).Returns (sm', smlen) ∧
      (sm'.slice 0 smlen = sm.slice 0 smlen ↔
        ∀ j, (visited P h).length * P.stSeedBytes ≤ j → j < P.maxPathLen * P.stSeedBytes →
          sm0'.get (munuBytes P + j) = sm0.get (munuBytes P + j)) := by
  have : Fact P.p.Prime := ⟨hP.prime⟩
  have hsig := sigBytes_eq hP
  obtain ⟨hlen, sm1, hsm1, hsm⟩ := signRespond_blits hP (Or.inl h8) hcount hr
  obtain ⟨⟨sm', smlen'⟩, hr'⟩ := @exists_signRespond P SHAKE256 hP h hcount K alpha st digest sm0' m
  obtain ⟨hlen', sm1', hsm1', hsm'⟩ := signRespond_blits hP (Or.inl h8) hcount hr'
  -- path, digest and salt do not depend on what sm held
  obtain rfl := hlen.trans hlen'.symm
  refine ⟨sm', hr', ?_⟩
  have hpblen := length_pathBytes_le hP hcount (tHash P SHAKE256 alpha st.stree 0 0)
  have hpb := length_pathBytes P (tHash P SHAKE256 alpha st.stree 0 0) (visited P h)
  generalize pathBytes P (tHash P SHAKE256 alpha st.stree 0 0) (visited P h) = pb
    at hsm1 hsm1' hpblen hpb
  have hblen : ((allBlocks P K st h P.t).flatMap (packBytes P.gfqBits)).length = munuBytes P := by
    rw [length_packBlocks, blocksLen_all hP.toSquare K st hcount]
  rw [hsm, hsm', hlen', slice_signed_eq_iff
    ((allBlocks P K st h P.t).flatMap (packBytes P.gfqBits)) pb digest alpha m (by omega)
    (by omega) (by rwa [hblen]) (by rwa [hblen]), hblen, hpb]
  constructor
  · exact fun hall j h1 h2 => hall _ (by omega) (by omega)
  · intro hall i h1 h2
    have := hall (i - munuBytes P) (by omega) (by omega)
    rwa [Nat.add_sub_cancel' (by omega)] at this

/-- Two runs of `crypto_sign` leave the same signed message if and only if the
    two contents of `sm` agree on the bytes of the path field behind the seeds
    that `stree_to_path` writes for the challenge. -/
theorem cryptoSign_same_iff (hP : P.Valid) (h8 : 8 ≤ P.gfqBits) {bsBuf : Nat → Arr UInt8}
    (bsBuf' : Nat → Arr UInt8) {delta m sk : List UInt8} {h sm0 sm : Arr UInt8}
    (sm0' : Arr UInt8) {smlen : Nat} (hh : (signChallenge P SHAKE256 bsBuf delta m sk).Returns h)
    (hr : (cryptoSign P SHAKE256 bsBuf delta sm0 m sk).Returns (sm, smlen)) :
    ∃ sm', (cryptoSign P SHAKE256 bsBuf' delta sm0' m sk).Returns (sm', smlen) ∧
      (sm'.slice 0 smlen = sm.slice 0 smlen ↔
        ∀ j, (visited P h).length * P.stSeedBytes ≤ j → j < P.maxPathLen * P.stSeedBytes →
          sm0'.get (munuBytes P + j) = sm0.get (munuBytes P + j)) := by
  have : Fact P.p.Prime := ⟨hP.prime⟩
  unfold cryptoSign at hr
  unfold signChallenge at hh
  simp only [Run.returns_bind, Run.returns_pure] at hr hh
  obtain ⟨K, hK, ⟨alpha, st⟩, hst, ⟨shake, h'⟩, hparse, hr⟩ := hr
  obtain ⟨K', hK', ⟨alpha', st'⟩, hst', ⟨shake', h''⟩, hparse', rfl⟩ := hh
  obtain rfl := hK.unique hK'
  obtain ⟨rfl, rfl⟩ := Prod.mk.inj (hst.unique hst')
  obtain ⟨-, rfl⟩ := Prod.mk.inj (hparse.unique hparse')
  obtain ⟨halpha, -⟩ := signCommitments_returns hP h8 hst
  have hchal := parseHash_returns (by have := hP.two_le_s; omega) hparse
  obtain ⟨sm', hr', hiff⟩ := signRespond_same_iff hP h8 halpha
    (length_shake256Squeeze _ _ _) hchal.weight hr sm0'
  refine ⟨sm', ?_, hiff⟩
  unfold cryptoSign
  simp only [Run.returns_bind]
  exact ⟨K, hK, (alpha, st), signCommitments_bsBuf hP h8 bsBuf' hst, (shake, h'), hparse, hr'⟩

/-! ## Three rounds -/

/-- Three rounds with one response: a path of one or two seeds. -/
def threeRounds : Params :=
  { tiny with
    t := 3
    seedTreeHeight := 2
    seedTreeSize := 7
    maxPathLen := 2
    tMask := 3
    sigBytes := 12 }

theorem threeRounds_valid : threeRounds.Valid where
  m_eq := rfl
  k_eq := rfl
  two_le_n := by decide
  prime := Nat.prime_three
  p_le := by decide
  gfqBits_le := by decide
  two_le_s := by decide
  s_le := by decide
  one_le_w := by decide
  w_le := by decide
  height := by decide
  treeSize := by decide
  pathLen := by decide
  tMask_eq := by decide
  sMask_eq := by decide
  pk_eq := by decide
  sk_eq := by decide
  sig_eq := by decide

/-- A secret key of these parameters. -/
def threeSk : List UInt8 := [0, 1, 2, 2, 2, 1, 2, 1, 1, 1]

theorem threeRounds_challenge :
    (signChallenge threeRounds toyShake (fun _ => Arr.empty) [177] [1, 2, 3] threeSk).Returns
      ⟨[0, 0, 1]⟩ :=
  Run.returns_of_run (n := 60) (by decide +kernel)

theorem threeRounds_sign :
    (cryptoSign threeRounds toyShake (fun _ => Arr.empty) [177] ⟨List.replicate 15 0⟩
      [1, 2, 3] threeSk).Returns (⟨[0, 2, 1, 2, 1, 2, 1, 1, 15, 0, 27, 29, 1, 2, 3]⟩, 15) :=
  Run.returns_of_run (n := 60) (by decide +kernel)

/-- The tenth byte of the signed message is the one the buffer held. -/
theorem not_signDetermined : ¬ SignDetermined threeRounds toyShake [177] [1, 2, 3] threeSk := by
  intro h
  have hnines : (cryptoSign threeRounds toyShake (fun _ => Arr.empty) [177] ⟨List.replicate 15 9⟩
      [1, 2, 3] threeSk).Returns (⟨[0, 2, 1, 2, 1, 2, 1, 1, 15, 9, 27, 29, 1, 2, 3]⟩, 15) :=
    Run.returns_of_run (n := 60) (by decide +kernel)
  obtain ⟨-, heq⟩ := h _ _ _ _ _ _ _ _ threeRounds_sign hnines
  exact absurd heq (by decide)

theorem cryptoSign_same_iff_threeRounds :
    ∃ sm', (cryptoSign threeRounds toyShake (fun _ => Arr.empty) [177] ⟨List.replicate 15 9⟩
        [1, 2, 3] threeSk).Returns (sm', 15) ∧
      (sm'.slice 0 15 = [0, 2, 1, 2, 1, 2, 1, 1, 15, 0, 27, 29, 1, 2, 3] ↔
        ∀ j, 1 ≤ j → j < 2 → (Arr.mk (List.replicate 15 (9 : UInt8))).get (8 + j)
          = (Arr.mk (List.replicate 15 0)).get (8 + j)) :=
  cryptoSign_same_iff threeRounds_valid (by decide) (fun _ => Arr.empty) _ threeRounds_challenge
    threeRounds_sign

end Meds.Ref
