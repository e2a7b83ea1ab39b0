/-
  Meds.Ref.SignedOpens

  What a signer leaves behind, and what a verifier makes of it.

  `Signed` is what key generation and signing establish about a public key and
  a signed message: matrices, commitments and challenge that the bytes stand
  for.  It is all that the verifier needs (`Signed.opens`), so programs that
  hand the bytes on may be reasoned about without the rejection loops.
-/

import Meds.Core.Match
import Meds.Ref.ChunkedKeys
import Meds.Ref.Completeness

namespace Meds.Ref

open Meds.Core

variable {P : Params} {SHAKE256 : Shake}

section

variable [hprime : Fact P.p.Prime]

/-- The first `smlen` bytes of `sm` are a signed message for `m` under the key
    in `pk`. -/
structure Signed (P : Params) [Fact P.p.Prime] (SHAKE256 : Shake) (pk sm : Arr UInt8) (smlen : Nat)
    (m sigmaG0 alpha digest : List UInt8) (G0 : Arr UInt16) (K₀ K : KeyMatrices) (T : Arr UInt8)
    (st : SignState) (h : Arr UInt8) (ret : Int) : Prop where
  seedLength : sigmaG0.length = P.pubSeedBytes
  expanded : (rndSysMat P SHAKE256 P.k (P.m * P.n) sigmaG0 : Run Fault _).Returns G0
  keys : KeyMatricesSpec P G0 K₀
  pkLayout : PkLayout P sigmaG0 K₀ pk
  inverses : ∀ si j, 1 ≤ si → si < P.s → j < P.n * P.n →
    (K.Ainv.get si).get j = (K₀.Ainv.get si).get j ∧ (K.Binv.get si).get j = (K₀.Binv.get si).get j
  saltLength : alpha.length = P.stSaltBytes
  commits : Commitments P SHAKE256 Fault G0 alpha T P.t st
  leafs : 1 < P.t → ∀ j, j < P.t →
    seedAt P (tHash P SHAKE256 alpha st.stree 0 0) P.seedTreeHeight j = seedAt P T P.seedTreeHeight j
  hashed : (shake256Squeeze SHAKE256 P.digestBytes
    (shake256Finalize (shake256Absorb st.hShake m))).1 = digest
  challenge : (parseHash P SHAKE256 digest Arr.empty P.t : Run Fault _).Returns (ret, h)
  length : smlen = P.sigBytes + m.length
  smLayout : SmLayout P (allBlocks P K st h P.t)
    (pathBytes P (tHash P SHAKE256 alpha st.stree 0 0) (visited P h)) digest alpha m sm

/-- Key generation and signing. -/
theorem signed_of_returns (hP : P.Valid) (h8 : 8 ≤ P.gfqBits) {delta delta' m : List UInt8}
    {pk sk sm pk' sk' sm' : Arr UInt8} {bsBuf : Nat → Arr UInt8} {ret : Int} {smlen : Nat}
    (hkey : (cryptoSignKeypair P SHAKE256 delta pk sk : Run Fault _).Returns (ret, pk', sk'))
    (hsign : (cryptoSign P SHAKE256 bsBuf delta' sm m (sk'.slice 0 P.skBytes)).Returns
      (sm', smlen)) :
    ret = 0 ∧ ∃ sigmaG0 alpha digest G0 K₀ K T st h ret',
      Signed P SHAKE256 pk' sm' smlen m sigmaG0 alpha digest G0 K₀ K T st h ret' := by
  have hs1 : 1 ≤ P.s := Nat.le_of_succ_le hP.two_le_s
  obtain ⟨hret, sigmaG0, K₀, G0, -, hG0, hseed, hK₀, hpk, hsk⟩ :=
    cryptoSignKeypair_returns hP.toSquare hs1 hP.pk_eq (Or.inl h8) hkey
  unfold cryptoSign at hsign
  rw [Run.returns_bind] at hsign
  obtain ⟨K, hload, hsign⟩ := hsign
  -- the signer loads what key generation stored
  obtain ⟨hKG, hinv⟩ := loadSecretKey_returns hP.toSquare hs1 hP.sk_eq hseed hG0 hK₀
    (hsk hP.sk_eq h8) hload
  rw [hKG, Run.returns_bind] at hsign
  obtain ⟨⟨alpha, st⟩, hcommit, hsign⟩ := hsign
  obtain ⟨halpha, T, hC, htree⟩ := signCommitments_returns hP h8 hcommit
  rw [Run.returns_bind] at hsign
  obtain ⟨⟨ret', h⟩, hparse, hsign⟩ := hsign
  -- the challenge has weight w, so the responses fill their field
  have hchal := parseHash_returns hs1 hparse
  obtain ⟨hsmlen, hlay⟩ := signRespond_returns hP h8 halpha
    (length_shake256Squeeze SHAKE256 P.digestBytes _) hchal.weight hsign
  exact ⟨hret, sigmaG0, alpha, _, G0, K₀, K, T, st, h, ret',
    { seedLength := hseed
      expanded := hG0
      keys := hK₀
      pkLayout := hpk
      inverses := hinv
      saltLength := halpha
      commits := hC
      leafs := htree
      hashed := rfl
      challenge := hparse
      length := hsmlen
      smLayout := hlay }⟩

section

variable {pk sm : Arr UInt8} {smlen : Nat} {m sigmaG0 alpha digest : List UInt8} {G0 : Arr UInt16}
  {K₀ K : KeyMatrices} {T : Arr UInt8} {st : SignState} {h : Arr UInt8} {ret : Int}

/-- The fields of the signed message are where the verifier reads them. -/
theorem Signed.reads (hP : P.Valid)
    (hS : Signed P SHAKE256 pk sm smlen m sigmaG0 alpha digest G0 K₀ K T st h ret) :
    let mem := fun i => (sm.slice 0 smlen)[i]?
    readBytes mem (P.sigBytes - P.digestBytes - P.stSaltBytes) P.digestBytes = some digest ∧
      readBytes mem (P.sigBytes - P.stSaltBytes) P.stSaltBytes = some alpha ∧
      readBytes mem P.sigBytes m.length = some m := by
  have hlen := hS.length
  have hsig : P.sigBytes
      = P.digestBytes + munuBytes P + P.maxPathLen * P.stSeedBytes + P.stSaltBytes := hP.sig_eq
  have hdigest : digest.length = P.digestBytes := hS.hashed ▸ length_shake256Squeeze _ _ _
  refine ⟨?_, ?_, ?_⟩
  · rw [← hdigest]
    exact readBytes_slice smlen _ (by omega) fun i hi => hdigest ▸ hS.smLayout.digest i (by omega)
  · rw [← hS.saltLength]
    have := hS.saltLength
    exact readBytes_slice smlen _ (by omega) fun i hi => by
      rw [this]
      exact hS.smLayout.alpha i (by omega)
  · exact readBytes_slice smlen _ (by omega) fun i hi => hS.smLayout.msg i hi

/-- The verifier's tree has the signer's unchallenged leaves. -/
theorem Signed.path (hP : P.Valid)
    (hS : Signed P SHAKE256 pk sm smlen m sigmaG0 alpha digest G0 K₀ K T st h ret) :
    ∃ path, (pathToStree P SHAKE256 (Arr.replicate (P.stSeedBytes * P.seedTreeSize) 0) h
          (fun i => (sm.slice 0 smlen)[i]?) (munuBytes P) alpha : Run Fault _).Returns path ∧
      OpenInv P G0 K T st h 0
        { bs := bsInit (munuBytes P), stree := path.stree, shake := shake256Init } := by
  have hlen := hS.length
  have ht1 : 1 ≤ P.t := hP.one_le_w.trans hP.w_le
  have htH : P.t ≤ 2 ^ P.seedTreeHeight := hP.height ▸ Nat.le_pow_clog (by decide) P.t
  have hsig : P.sigBytes
      = P.digestBytes + munuBytes P + P.maxPathLen * P.stSeedBytes + P.stSaltBytes := hP.sig_eq
  have hweight := (parseHash_returns (Nat.le_of_succ_le hP.two_le_s) hS.challenge).weight
  have hpathLen : (visited P h).length * P.stSeedBytes ≤ P.maxPathLen * P.stSeedBytes := by
    have hvisited := length_visited_le P h hP.height hweight
    rw [← hP.pathLen] at hvisited
    exact Nat.mul_le_mul_right _ (by omega)
  obtain ⟨path, hpath, -, hfree, -⟩ := pathToStree_returns P SHAKE256 ht1 htH hP.one_le_w hweight
    (derived_tHash P SHAKE256 alpha st.stree ht1) (Arr.replicate (P.stSeedBytes * P.seedTreeSize) 0)
    (fun i => (sm.slice 0 smlen)[i]?) (munuBytes P) (by
      intro j hj
      rw [Arr.getElem?_slice _ (by omega), Nat.zero_add,
        hS.smLayout.path j (by rw [length_pathBytes]; exact hj)]
      rfl)
  refine ⟨path, hpath, (cursor_zero _ _ _).symm, fun j _ hj h0 => ?_, rfl⟩
  rw [hfree j hj h0]
  exact hS.leafs (one_lt_t hP.one_le_w hweight hj h0) j hj

/-- The verifier accepts it and copies the message. -/
theorem Signed.opens (hP : P.Valid) (h8 : 8 ≤ P.gfqBits)
    (hS : Signed P SHAKE256 pk sm smlen m sigmaG0 alpha digest G0 K₀ K T st h ret)
    (bsBuf : Nat → Arr UInt8) (mbuf : Arr UInt8) (mlen : Nat) :
    (cryptoSignOpen P SHAKE256 bsBuf mbuf mlen (sm.slice 0 smlen) (pk.slice 0 P.pkBytes)).Returns
      (0, mbuf.blit 0 m, m.length) := by
  have hlen := hS.length
  have hs1 : 1 ≤ P.s := Nat.le_of_succ_le hP.two_le_s
  have htH : P.t ≤ 2 ^ P.seedTreeHeight := hP.height ▸ Nat.le_pow_clog (by decide) P.t
  have hsig : P.sigBytes
      = P.digestBytes + munuBytes P + P.maxPathLen * P.stSeedBytes + P.stSaltBytes := hP.sig_eq
  have hchal := parseHash_returns hs1 hS.challenge
  obtain ⟨hread1, hread2, hread3⟩ := hS.reads hP
  obtain ⟨G, hpub, hGzero, hG⟩ := loadPublicKey_returns hP.toSquare hs1 hP.pk_eq hS.seedLength
    hS.expanded hS.keys hS.pkLayout
  obtain ⟨path, hpath, hI⟩ := hS.path hP
  -- what the loop of the verifier may rely on
  have hsetup : OpenSetup P SHAKE256 G0 K₀ K alpha T st h G (fun i => (sm.slice 0 smlen)[i]?) sm :=
    { keys := hS.keys
      G_zero := hGzero
      G_eq := hG
      inv_eq := hS.inverses
      commits := hS.commits
      weight := hchal.weight
      values := hchal.values
      mem_eq := fun i hi => by rw [Arr.getElem?_slice _ (by omega), Nat.zero_add]
      munu := hS.smLayout.munu }
  obtain ⟨s, hloop, hfin⟩ :=
    openLoop_returns hP.toSquare h8 htH hsetup bsBuf hI (Nat.le_refl _)
  unfold cryptoSignOpen
  rw [Run.returns_bind]
  refine ⟨G, hpub, ?_⟩
  simp only [hread1, hread2, Run.ofOption_some, pure_bind, Run.returns_bind]
  refine ⟨(ret, h), hS.challenge, path, hpath, some s, hloop, ?_⟩
  -- the commitments hash to the digest that was signed
  have hmlen : ulongSub (sm.slice 0 smlen).length P.sigBytes = m.length := by
    rw [Arr.length_slice, ulongSub, if_pos (by omega), hlen, Nat.add_sub_cancel_left]
  have hshake : s.shake = st.hShake := hfin.hash.trans hS.commits.hash.symm
  unfold openCheck
  simp only [hmlen, hread3, Run.ofOption_some, pure_bind, hshake, hS.hashed]
  rw [if_neg (by simp)]
  exact Run.returns_pure.mpr rfl

end

/-- `crypto_sign_keypair`, `crypto_sign` and `crypto_sign_open` one after the
    other. -/
theorem signed_opens (hP : P.Valid) (h8 : 8 ≤ P.gfqBits) {delta delta' m : List UInt8}
    {pk sk sm pk' sk' sm' : Arr UInt8} {bsBuf : Nat → Arr UInt8} {ret : Int} {smlen : Nat}
    (hkey : (cryptoSignKeypair P SHAKE256 delta pk sk : Run Fault _).Returns (ret, pk', sk'))
    (hsign : (cryptoSign P SHAKE256 bsBuf delta' sm m (sk'.slice 0 P.skBytes)).Returns (sm', smlen))
    (bsBuf' : Nat → Arr UInt8) (mbuf : Arr UInt8) (mlen : Nat) :
    ret = 0 ∧ (cryptoSignOpen P SHAKE256 bsBuf' mbuf mlen (sm'.slice 0 smlen)
        (pk'.slice 0 P.pkBytes)).Returns (0, mbuf.blit 0 m, m.length) := by
  obtain ⟨hret, _, _, _, _, _, _, _, _, _, _, hS⟩ := signed_of_returns hP h8 hkey hsign
  exact ⟨hret, hS.opens hP h8 bsBuf' mbuf mlen⟩

/-! ## The bytes of the keys -/

omit hprime in
theorem sized_of_valid (hP : P.Valid) : Sized P where
  one_le_m := hP.m_eq ▸ Nat.le_of_succ_le hP.two_le_n
  two_le_k := hP.k_eq ▸ hP.two_le_n
  k_le := by
    rw [hP.k_eq, hP.m_eq]
    exact le_sq P
  one_le_s := Nat.le_of_succ_le hP.two_le_s
  pkBytes_eq := by
    have hm : 1 ≤ P.m := hP.m_eq ▸ Nat.le_of_succ_le hP.two_le_n
    have hcoeffs : P.pkEntries = pkCoeffs P := by
      rw [← length_pkBlock hP.toSquare Arr.empty, pkBlock, List.length_append, length_entries,
        length_rowEntries, length_lastRow hm, pkCoeffs]
    rw [hP.pk_eq, pkSize_eq, hcoeffs, Nat.add_comm]
  skBytes_eq := by
    rw [hP.sk_eq, skSize_eq hP.toSquare, hP.m_eq]
    omega

theorem KeyMatricesSpec.entriesFit (hP : P.Square) {G0 : Arr UInt16} {K : KeyMatrices}
    (h : KeyMatricesSpec P G0 K) : EntriesFit P K where
  Ainv i j h1 h2 hj :=
    ((h.pair i h1 h2).reducedAinv j (by rwa [← hP.m_eq])).trans_le hP.p_le
  Binv i j h1 h2 hj := ((h.pair i h1 h2).reducedBinv j hj).trans_le hP.p_le
  G i j h1 h2 hj :=
    ((h.pair i h1 h2).reduced j (by rwa [hP.k_eq, hP.m_eq] at hj)).trans_le hP.p_le

/-- Whatever the arrays of the keys hold before, the bytes of the keys are the same. -/
theorem cryptoSignKeypair_alike {ε : Type} (hP : P.Valid) (h8 : 8 ≤ P.gfqBits) {delta : List UInt8}
    (hdelta : delta.length = P.secSeedBytes) (pk sk pk₁ sk₁ : Arr UInt8) :
    Run.Matches
      (Run.Alike fun r r' =>
        (cryptoSignKeypair P SHAKE256 delta pk sk : Run ε _).Returns r ∧ r.1 = 0 ∧
          r.2.1.slice 0 P.pkBytes = r'.2.1.slice 0 P.pkBytes ∧
          r.2.2.slice 0 P.skBytes = r'.2.2.slice 0 P.skBytes)
      (cryptoSignKeypair P SHAKE256 delta pk sk : Run ε _)
      (cryptoSignKeypair P SHAKE256 delta pk₁ sk₁ : Run ε _) := by
  rw [cryptoSignKeypair_eq_copyKeys, cryptoSignKeypair_eq_copyKeys]
  apply (Run.Matches.alike_self (keypairMatrices P SHAKE256 delta : Run ε _)).bind_alike
  rintro ⟨sigmaG0, K⟩ _ ⟨hK, rfl⟩
  obtain ⟨hlen, _, -, hspec⟩ :=
    keypairMatrices_returns hP.toSquare (Nat.le_of_succ_le hP.two_le_s) hK
  have hfit := hspec.entriesFit hP.toSquare
  obtain ⟨_, _, hcopy, hpk, hsk⟩ := copyKeys_packed (sized_of_valid hP) h8 hfit hdelta hlen pk sk
  obtain ⟨_, _, hcopy₁, hpk₁, hsk₁⟩ := copyKeys_packed (sized_of_valid hP) h8 hfit hdelta hlen pk₁ sk₁
  refine Run.Matches.alike ⟨Run.returns_bind.mpr ⟨_, hK, Run.returns_pure.mpr rfl⟩, ?_⟩
  dsimp only
  rw [hcopy, hcopy₁]
  exact ⟨rfl, hpk.trans hpk₁.symm, hsk.trans hsk₁.symm⟩

end

end Meds.Ref
