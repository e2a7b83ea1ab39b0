/-
  Meds.Ref.Completeness

  `crypto_sign_open` accepts what `crypto_sign` made, and returns the message.

  The verifier holds the public matrices of the key, a tree with the signer's
  unchallenged leaves, and the responses.  Round by round it hashes the bytes
  the signer hashed: a free round replays the commitment, a challenged one
  reaches the same systematic form from G[h[i]].
-/

import Meds.Ref.SignSpec

namespace Meds.Ref

open Meds.Core

variable {P : Params} {SHAKE256 : Shake}

section

variable [hprime : Fact P.p.Prime]

/-- What the verifier has when it starts the loop: the facts that link its
    view to the signer's. -/
structure OpenSetup (P : Params) [Fact P.p.Prime] (SHAKE256 : Shake) (G0 : Arr UInt16)
    (K₀ K : KeyMatrices) (alpha : List UInt8) (T : Arr UInt8) (st : SignState) (h : Arr UInt8)
    (G : Arr (Arr UInt16)) (mem : Nat → Option UInt8) (sm : Arr UInt8) : Prop where
  keys : KeyMatricesSpec P G0 K₀
  G_zero : G.get 0 = G0
  G_eq : ∀ i idx, i < P.s → idx < P.n * P.n * P.n → (G.get i).get idx = (K₀.G.get i).get idx
  inv_eq : ∀ si j, 1 ≤ si → si < P.s → j < P.n * P.n →
    (K.Ainv.get si).get j = (K₀.Ainv.get si).get j ∧ (K.Binv.get si).get j = (K₀.Binv.get si).get j
  commits : Commitments P SHAKE256 Fault G0 alpha T P.t st
  weight : (excluded P h).length = P.w
  values : ∀ j, j < P.t → (h.get j).toNat < P.s
  mem_eq : ∀ i, i < munuBytes P → mem i = some (sm.get i)
  munu : ∀ i, i < munuBytes P →
    sm.get i = ((allBlocks P K st h P.t).flatMap (packBytes P.gfqBits)).getD i default

/-- The verifier's state before round `i`. -/
structure OpenInv (P : Params) (G0 : Arr UInt16) (K : KeyMatrices) (T : Arr UInt8) (st : SignState)
    (h : Arr UInt8) (i : Nat) (s : OpenState) : Prop where
  bs : s.bs = cursor (munuBytes P) (blocksLen P.gfqBits (allBlocks P K st h i)) P.gfqBits 0
  leaf : ∀ j, i ≤ j → j < P.t → h.get j = 0 →
    seedAt P s.stree P.seedTreeHeight j = seedAt P T P.seedTreeHeight j
  hash : s.shake = ⟨(List.range i).flatMap fun j =>
    commitBytes P (commitG P G0 (st.Atilde.get j) (st.Btilde.get j)), 0⟩

omit hprime in
/-- The blocks before, of and after round `i`. -/
theorem allBlocks_split (K : KeyMatrices) (st : SignState) (h : Arr UInt8) {i : Nat} (hi : i < P.t) :
    ∃ R, allBlocks P K st h P.t = allBlocks P K st h i ++ (responseBlocks P K st h i ++ R) := by
  obtain ⟨d, hd⟩ : ∃ d, P.t = i + 1 + d := ⟨P.t - (i + 1), by omega⟩
  refine ⟨((List.range d).map (i + 1 + ·)).flatMap (responseBlocks P K st h), ?_⟩
  rw [← List.append_assoc, ← allBlocks_succ, hd, allBlocks, allBlocks, List.range_add,
    List.flatMap_append]

omit hprime in
/-- Reading back a reduced `n × n` matrix that lies packed at byte `o`. -/
theorem readResponse_packed (hP : P.Square) {mem : Nat → Option UInt8} {sm : Arr UInt8} {o : Nat}
    {M : Arr UInt16} (hM : Reduced P M (P.n * P.n)) (hfit : o + matBytes P ≤ munuBytes P)
    (hmem : ∀ i, i < munuBytes P → mem i = some (sm.get i))
    (hd : ∀ x, x < matBytes P →
      sm.get (o + x) = (packBytes P.gfqBits (entries M 0 0 (P.n * P.n))).getD x default) :
    ∃ M', readResponse P mem P.n (cursor (munuBytes P) o P.gfqBits 0)
        = some (M', cursor (munuBytes P) (o + matBytes P) P.gfqBits 0) ∧
      ∀ j, j < P.n * P.n → M'.get j = M.get j := by
  obtain ⟨M', hM', hget⟩ := readResponse_spec (P := P) (n := P.n) (d := sm.get) (o := o)
    hP.gfqBits_pos hfit hmem
  refine ⟨M', hM', fun j hj => ?_⟩
  -- field j is entry j, which the reduction of the reader leaves alone
  have hval : (entries M 0 0 (P.n * P.n)).getD j 0 = (M.get j).toNat := by
    have := getD_entries M 0 (Nat.zero_le j) hj
    rwa [Nat.sub_zero, Nat.zero_add] at this
  have hunpack := unpackAt_packBytes (d := sm.get) (o := o) (w := P.gfqBits)
    (l := entries M 0 0 (P.n * P.n)) (by rw [length_entries]; exact hd) (j := j)
    (by rw [length_entries]; exact hj)
    (by rw [hval]; exact Nat.lt_of_lt_of_le (hM j hj) hP.p_le)
  rw [hget j hj, hunpack, hval, Nat.mod_eq_of_lt (hM j hj), UInt16.ofNat_toNat]

theorem pmodMatSystCt_square (hP : P.Square) {M : Arr UInt16} (hM : Reduced P M (P.n * P.n))
    (hunit : IsUnit (sq P M).det) : (pmodMatSystCt P M P.n P.n).1 = 0 := by
  rcases pmodMatSystCt_spec P.n P.n (P := P) hM (Nat.le_refl _) hP.p_le_16 with
    ⟨-, hret, -⟩ | ⟨hdet, -⟩
  · exact hret
  · exact absurd (hdet ▸ hunit) not_isUnit_zero

/-- A challenged round: the response leads to the committed generator. -/
theorem openResponse_returns (hP : P.Square) {G0 : Arr UInt16} {K₀ K : KeyMatrices}
    {alpha : List UInt8} {T : Arr UInt8} {st : SignState} {h : Arr UInt8} {G : Arr (Arr UInt16)}
    {mem : Nat → Option UInt8} {sm : Arr UInt8}
    (hS : OpenSetup P SHAKE256 G0 K₀ K alpha T st h G mem sm) {i : Nat} (hi : i < P.t)
    (hpos : h.get i > 0) :
    ∃ Ghat, (openResponse P mem (G.get (h.get i).toNat)
          (cursor (munuBytes P) (blocksLen P.gfqBits (allBlocks P K st h i)) P.gfqBits 0)).Returns
        (some (Ghat, cursor (munuBytes P) (blocksLen P.gfqBits (allBlocks P K st h (i + 1)))
          P.gfqBits 0)) ∧
      Reduced P Ghat (P.n * P.n * P.n) ∧
      ∀ idx, idx < P.n * P.n * P.n →
        Ghat.get idx = (commitG P G0 (st.Atilde.get i) (st.Btilde.get i)).get idx := by
  obtain ⟨c, hc⟩ : ∃ c, c = (h.get i).toNat := ⟨_, rfl⟩
  have hc1 : 1 ≤ c := by
    rw [hc]
    exact UInt8.lt_iff_toNat_lt.mp hpos
  have hcs : c < P.s := hc ▸ hS.values i hi
  have hC := hS.commits.commit i hi
  -- the two matrices of the response, and where their bytes lie
  obtain ⟨hmu, hredmu⟩ := product_spec hP (st.Atilde.get i) (K.Ainv.get c)
  obtain ⟨hnu, hrednu⟩ := product_spec hP (K.Binv.get c) (st.Btilde.get i)
  have hblocks : responseBlocks P K st h i
      = [entries (mu P K st h i) 0 0 (P.n * P.n), entries (nu P K st h i) 0 0 (P.n * P.n)] := by
    rw [responseBlocks, if_pos hpos]
  have hmuEq : mu P K st h i = product P P.n (st.Atilde.get i) (K.Ainv.get c) := by rw [mu, ← hc]
  have hnuEq : nu P K st h i = product P P.n (K.Binv.get c) (st.Btilde.get i) := by rw [nu, ← hc]
  rw [hmuEq, hnuEq] at hblocks
  obtain ⟨R, hsplit⟩ := allBlocks_split K st h hi
  have hlen : blocksLen P.gfqBits (allBlocks P K st h i) + (matBytes P + matBytes P)
      ≤ munuBytes P := by
    have h1 := blocksLen_all hP K st hS.weight
    rw [hsplit, blocksLen_append, blocksLen_append, blocksLen_responseBlocks, if_pos hpos] at h1
    omega
  have hsucc : blocksLen P.gfqBits (allBlocks P K st h (i + 1))
      = blocksLen P.gfqBits (allBlocks P K st h i) + matBytes P + matBytes P := by
    rw [allBlocks_succ, blocksLen_append, blocksLen_responseBlocks, if_pos hpos, Nat.add_assoc]
  rw [hsucc]
  have hmunu := hS.munu
  rw [hsplit, hblocks] at hmunu
  simp only [List.flatMap_append, List.flatMap_cons, List.flatMap_nil, List.append_nil] at hmunu
  generalize hprod1 : product P P.n (st.Atilde.get i) (K.Ainv.get c) = m1 at hmu hredmu hmunu
  generalize hprod2 : product P P.n (K.Binv.get c) (st.Btilde.get i) = m2 at hnu hrednu hmunu
  generalize hoff : blocksLen P.gfqBits (allBlocks P K st h i) = off at hlen ⊢
  have hpre : ((allBlocks P K st h i).flatMap (packBytes P.gfqBits)).length = off := by
    rw [length_packBlocks, hoff]
  have hpk : ∀ M : Arr UInt16,
      (packBytes P.gfqBits (entries M 0 0 (P.n * P.n))).length = matBytes P := fun M => by
    rw [length_packBytes, length_entries]
    rfl
  -- both are read back as they were written
  obtain ⟨mu', hread1, hmu'⟩ := readResponse_packed hP hredmu (o := off) (by omega) hS.mem_eq
    fun x hx => by
      rw [hmunu _ (by omega), List.getD_append_right _ _ _ _ (by omega), hpre,
        Nat.add_sub_cancel_left, List.append_assoc,
        List.getD_append _ _ _ _ (by rw [hpk]; exact hx)]
  obtain ⟨nu', hread2, hnu'⟩ := readResponse_packed hP hrednu (o := off + matBytes P) (by omega)
    hS.mem_eq fun x hx => by
      rw [hmunu _ (by omega), List.getD_append_right _ _ _ _ (by omega), hpre, List.append_assoc,
        List.getD_append_right _ _ _ _ (by rw [hpk]; omega), hpk,
        show off + matBytes P + x - off - matBytes P = x by omega,
        List.getD_append _ _ _ _ (by rw [hpk]; exact hx)]
  -- with the key matrices they take G[c] to the commitment
  have hsqA : sq P (K.Ainv.get c) = sq P (K₀.Ainv.get c) :=
    sq_congr fun j hj => (hS.inv_eq c j hc1 hcs hj).1
  have hsqB : sq P (K.Binv.get c) = sq P (K₀.Binv.get c) :=
    sq_congr fun j hj => (hS.inv_eq c j hc1 hcs hj).2
  obtain ⟨hunit1, hunit2, hret, hcells⟩ := response_commitG hP (hS.keys.pair c hc1 hcs) hC.unitA
    hC.unitB hC.systematic (gen_congr fun idx hidx => hS.G_eq c idx hcs hidx)
    (show sq P mu' = _ by rw [sq_congr hmu', hmu, hsqA])
    (show sq P nu' = _ by rw [sq_congr hnu', hnu, hsqB])
  obtain ⟨-, -, hredG⟩ := commitG_spec hP hret
  refine ⟨commitG P (G.get c) mu' nu', ?_, hredG, hcells⟩
  have hred1 : Reduced P mu' (P.n * P.n) := fun j hj => by rw [hmu' j hj]; exact hredmu j hj
  have hred2 : Reduced P nu' (P.n * P.n) := fun j hj => by rw [hnu' j hj]; exact hrednu j hj
  -- so none of the three tests rejects
  unfold openResponse
  rw [← hc, hP.m_eq, hread1, Run.ofOption_some, pure_bind]
  simp only
  rw [hread2, Run.ofOption_some, pure_bind]
  simp only
  rw [pmodMatSystCt_square hP hred1 hunit1, pmodMatSystCt_square hP hred2 hunit2,
    if_neg (by decide), if_neg (by decide)]
  rw [hP.m_eq] at hret
  rw [hret, if_neg (by decide), commitG, hP.m_eq]
  exact Run.returns_pure.mpr rfl

/-- One round of the verifier's loop. -/
theorem openRound_returns (hP : P.Square) (h8 : 8 ≤ P.gfqBits) (htH : P.t ≤ 2 ^ P.seedTreeHeight)
    {G0 : Arr UInt16} {K₀ K : KeyMatrices} {alpha : List UInt8} {T : Arr UInt8} {st : SignState}
    {h : Arr UInt8} {G : Arr (Arr UInt16)} {mem : Nat → Option UInt8} {sm : Arr UInt8}
    (hS : OpenSetup P SHAKE256 G0 K₀ K alpha T st h G mem sm) (bsBuf : Nat → Arr UInt8) {i : Nat}
    (hi : i < P.t) {s : OpenState} (hI : OpenInv P G0 K T st h i s) :
    ∃ s', (openRound P SHAKE256 mem bsBuf G alpha h i (some s)).Returns (some s') ∧
      OpenInv P G0 K T st h (i + 1) s' := by
  -- the bytes hashed depend on the cells of the generator only
  have hhash : ∀ Ghat : Arr UInt16, Reduced P Ghat (P.n * P.n * P.n) →
      (∀ idx, idx < P.n * P.n * P.n →
        Ghat.get idx = (commitG P G0 (st.Atilde.get i) (st.Btilde.get i)).get idx) →
      shake256Absorb s.shake (packCommitment P (bsBuf i) Ghat)
        = ⟨(List.range (i + 1)).flatMap fun j =>
          commitBytes P (commitG P G0 (st.Atilde.get j) (st.Btilde.get j)), 0⟩ := by
    intro Ghat hred hcells
    rw [hI.hash, packCommitment_reduced hP hred (Or.inl h8), commitBytes_congr hP hcells]
    simp [shake256Absorb, List.range_succ]
  by_cases hpos : h.get i > 0
  · obtain ⟨Ghat, hr, hred, hcells⟩ := openResponse_returns hP hS hi hpos
    refine ⟨{ s with
      bs := cursor (munuBytes P) (blocksLen P.gfqBits (allBlocks P K st h (i + 1))) P.gfqBits 0
      shake := shake256Absorb s.shake (packCommitment P (bsBuf i) Ghat) }, ?_, rfl,
      fun j hj => hI.leaf j (by omega), hhash Ghat hred hcells⟩
    rw [openRound, if_pos hpos, hI.bs, Run.returns_bind]
    exact ⟨_, hr, Run.returns_pure.mpr rfl⟩
  · -- the leaf is that of the signer, so the rejection loop draws what it drew
    have hzero : h.get i = 0 := by
      rw [gt_iff_lt, UInt8.lt_iff_toNat_lt] at hpos
      exact UInt8.toNat_inj.mp (Nat.eq_zero_of_not_pos hpos)
    have hC := hS.commits.commit i hi
    obtain ⟨stree, hloop⟩ := hC.replay s.stree (hI.leaf i (Nat.le_refl _) hi hzero)
    obtain ⟨-, hsame, -⟩ := commitLoop_returns hP (by omega) hloop
    obtain ⟨-, -, hred⟩ := commitG_spec hP hC.systematic
    refine ⟨{ s with
      stree := stree
      shake := shake256Absorb s.shake (packCommitment P (bsBuf i)
        (commitG P G0 (st.Atilde.get i) (st.Btilde.get i))) }, ?_, ?_, fun j hj hjt h0 => ?_,
      hhash _ hred fun _ _ => rfl⟩
    · rw [openRound, if_neg hpos, hS.G_zero, Run.returns_bind]
      exact ⟨_, hloop, Run.returns_pure.mpr rfl⟩
    · rw [hI.bs, allBlocks_succ, blocksLen_append, blocksLen_responseBlocks, if_neg hpos,
        Nat.add_zero]
    · rw [hsame _ j (by omega) (by omega)]
      exact hI.leaf j (by omega) hjt h0

/-- The verifier's loop never returns -1 and hashes what the signer hashed. -/
theorem openLoop_returns (hP : P.Square) (h8 : 8 ≤ P.gfqBits) (htH : P.t ≤ 2 ^ P.seedTreeHeight)
    {G0 : Arr UInt16} {K₀ K : KeyMatrices} {alpha : List UInt8} {T : Arr UInt8} {st : SignState}
    {h : Arr UInt8} {G : Arr (Arr UInt16)} {mem : Nat → Option UInt8} {sm : Arr UInt8}
    (hS : OpenSetup P SHAKE256 G0 K₀ K alpha T st h G mem sm) (bsBuf : Nat → Arr UInt8)
    {s : OpenState} (hI : OpenInv P G0 K T st h 0 s) {i : Nat} (hi : i ≤ P.t) :
    ∃ s', (forUpM 0 i (openRound P SHAKE256 mem bsBuf G alpha h) (some s)).Returns (some s') ∧
      OpenInv P G0 K T st h i s' := by
  induction i with
  | zero => exact ⟨s, by rw [forUpM_self]; exact Run.returns_pure.mpr rfl, hI⟩
  | succ i ih =>
      obtain ⟨s', hs', hI'⟩ := ih (by omega)
      obtain ⟨s'', hs'', hI''⟩ := openRound_returns hP h8 htH hS bsBuf (by omega) hI'
      refine ⟨s'', ?_, hI''⟩
      rw [forUpM_succ (Nat.zero_le i), Run.returns_bind]
      exact ⟨_, hs', hs''⟩

end

/-! ## The whole run -/

/-- Every byte of a buffer that is handed over whole can be read. -/
theorem readBytes_slice {M : Arr UInt8} (len off : Nat) {l : List UInt8}
    (hlen : off + l.length ≤ len) (h : ∀ i, i < l.length → M.get (off + i) = l.getD i default) :
    readBytes (fun i => (M.slice 0 len)[i]?) off l.length = some l := by
  refine readBytes_eq_some _ _ fun j hj => ?_
  rw [Arr.getElem?_slice _ (by omega), Nat.zero_add, h j hj]
  rfl

/-- A challenge that leaves some round free has at least two rounds. -/
theorem one_lt_t {h : Arr UInt8} (hw : 1 ≤ P.w) (hcount : (excluded P h).length = P.w) {j : Nat}
    (hj : j < P.t) (h0 : h.get j = 0) : 1 < P.t := by
  obtain ⟨x, hx⟩ := List.exists_mem_of_length_pos (l := excluded P h) (by omega)
  obtain ⟨hxt, hxpos⟩ := mem_excluded.mp hx
  refine Nat.lt_of_not_le fun hle => ?_
  rw [show x = j by omega, h0] at hxpos
  exact absurd hxpos (by decide)

/-- Completeness: whatever keys and signature come out of the rejection loops,
    `crypto_sign_open` accepts the signed message and returns the message. -/
theorem cryptoSignOpen_complete (hP : P.Valid) (h8 : 8 ≤ P.gfqBits)
    (SHAKE256 : Shake) (delta delta' : List UInt8) (pk sk sm mbuf : Arr UInt8) (mlen : Nat)
    (m : List UInt8) (bsBuf bsBuf' : Nat → Arr UInt8) {ret : Int} {pk' sk' sm' : Arr UInt8}
    {smlen : Nat}
    (hkey : (cryptoSignKeypair P SHAKE256 delta pk sk : Run Fault _).Returns (ret, pk', sk'))
    (hsign : (cryptoSign P SHAKE256 bsBuf delta' sm m (sk'.slice 0 P.skBytes)).Returns
      (sm', smlen)) :
    ∃ m', (cryptoSignOpen P SHAKE256 bsBuf' mbuf mlen (sm'.slice 0 smlen)
        (pk'.slice 0 P.pkBytes)).Returns (0, m', m.length) ∧
      m'.slice 0 m.length = m := by
  have : Fact P.p.Prime := ⟨hP.prime⟩
  have hs1 : 1 ≤ P.s := Nat.le_of_succ_le hP.two_le_s
  have ht1 : 1 ≤ P.t := hP.one_le_w.trans hP.w_le
  have htH : P.t ≤ 2 ^ P.seedTreeHeight := hP.height ▸ Nat.le_pow_clog (by decide) P.t
  have hsig : P.sigBytes
      = P.digestBytes + munuBytes P + P.maxPathLen * P.stSeedBytes + P.stSaltBytes := hP.sig_eq
  obtain ⟨-, sigmaG0, K₀, G0, -, hG0, hseed, hK₀, hpk, hsk⟩ :=
    cryptoSignKeypair_returns hP.toSquare hs1 hP.pk_eq (Or.inl h8) hkey
  -- the signer
  unfold cryptoSign at hsign
  rw [Run.returns_bind] at hsign
  obtain ⟨K, hload, hsign⟩ := hsign
  obtain ⟨hKG, hinv⟩ := loadSecretKey_returns hP.toSquare hs1 hP.sk_eq hseed hG0 hK₀
    (hsk hP.sk_eq h8) hload
  rw [hKG, Run.returns_bind] at hsign
  obtain ⟨⟨alpha, st⟩, hcommit, hsign⟩ := hsign
  obtain ⟨halpha, T, hC, htree⟩ := signCommitments_returns hP h8 hcommit
  simp only at hsign
  have hdigest := length_shake256Squeeze SHAKE256 P.digestBytes
    (shake256Finalize (shake256Absorb st.hShake m))
  generalize hdg : (shake256Squeeze SHAKE256 P.digestBytes
    (shake256Finalize (shake256Absorb st.hShake m))).1 = digest at hsign hdigest
  rw [Run.returns_bind] at hsign
  obtain ⟨⟨ret', h⟩, hparse, hsign⟩ := hsign
  have hchal := parseHash_returns hs1 hparse
  obtain ⟨hsmlen, hlay⟩ := signRespond_returns hP h8 halpha hdigest hchal.weight hsign
  -- the verifier
  obtain ⟨G, hpub, hGzero, hG⟩ := loadPublicKey_returns hP.toSquare hs1
    hP.pk_eq hseed hG0 hK₀ hpk
  have hmem : ∀ i, i < smlen → (sm'.slice 0 smlen)[i]? = some (sm'.get i) := fun i hi => by
    rw [Arr.getElem?_slice _ hi, Nat.zero_add]
  -- digest, salt and message lie where they were copied to
  have hread1 := readBytes_slice smlen (P.sigBytes - P.digestBytes - P.stSaltBytes) (M := sm')
      (l := digest) (by omega)
    (fun i hi => hlay.digest i (by omega))
  have hread2 := readBytes_slice smlen (P.sigBytes - P.stSaltBytes) (M := sm') (l := alpha)
      (by omega) (fun i hi => hlay.alpha i (by omega))
  have hread3 := readBytes_slice smlen P.sigBytes (M := sm') (l := m)
    (by omega) (fun i hi => hlay.msg i hi)
  rw [hdigest] at hread1
  rw [halpha] at hread2
  -- the path gives the leaves of the unchallenged rounds
  have hpathLen : (visited P h).length * P.stSeedBytes ≤ P.maxPathLen * P.stSeedBytes := by
    have h1 := length_visited_le P h hP.height hchal.weight
    rw [← hP.pathLen] at h1
    exact Nat.mul_le_mul_right _ (by omega)
  obtain ⟨path, hpath, -, hfree, -⟩ := pathToStree_returns P SHAKE256 ht1 htH hP.one_le_w
    hchal.weight (derived_tHash P SHAKE256 alpha st.stree ht1)
    (Arr.replicate (P.stSeedBytes * P.seedTreeSize) 0) (fun i => (sm'.slice 0 smlen)[i]?)
    (munuBytes P) (by
      intro j hj
      rw [hmem _ (by omega), hlay.path j (by rw [length_pathBytes]; exact hj)]
      rfl)
  -- the invariant of the rounds holds before the first
  have hS : OpenSetup P SHAKE256 G0 K₀ K alpha T st h G (fun i => (sm'.slice 0 smlen)[i]?) sm' :=
    { keys := hK₀
      G_zero := hGzero
      G_eq := hG
      inv_eq := hinv
      commits := hC
      weight := hchal.weight
      values := hchal.values
      mem_eq := fun i hi => hmem i (by omega)
      munu := hlay.munu }
  have hI : OpenInv P G0 K T st h 0
      { bs := bsInit (munuBytes P), stree := path.stree, shake := shake256Init } :=
    { bs := (cursor_zero _ _ _).symm
      leaf := fun j _ hj h0 => by
        rw [hfree j hj h0]
        exact htree (one_lt_t hP.one_le_w hchal.weight hj h0) j hj
      hash := rfl }
  obtain ⟨s, hloop, hfin⟩ :=
    openLoop_returns hP.toSquare h8 htH hS bsBuf' hI (Nat.le_refl _)
  -- after the last the same string was hashed, so the digests agree
  refine ⟨mbuf.blit 0 m, ?_, Arr.slice_blit _ _ _⟩
  unfold cryptoSignOpen
  rw [Run.returns_bind]
  refine ⟨G, hpub, ?_⟩
  simp only [hread1, hread2, Run.ofOption_some, pure_bind, Run.returns_bind]
  refine ⟨(ret', h), hparse, path, hpath, some s, hloop, ?_⟩
  have hlen : ulongSub (sm'.slice 0 smlen).length P.sigBytes = m.length := by
    rw [Arr.length_slice, ulongSub, if_pos (by omega), hsmlen, Nat.add_sub_cancel_left]
  have hshake : s.shake = st.hShake := hfin.hash.trans hC.hash.symm
  unfold openCheck
  simp only [hlen, hread3, Run.ofOption_some, pure_bind, hshake, hdg]
  rw [if_neg (by simp)]
  exact Run.returns_pure.mpr rfl

theorem tiny_sign :
    (cryptoSign tiny toyShake (fun _ => Arr.empty) [7] Arr.empty [1, 2, 3]
      ((Arr.mk [0, 1, 2, 2, 2, 1, 2, 1, 1, 1]).slice 0 tiny.skBytes)).Returns
      (⟨[1, 0, 1, 2, 0, 1, 1, 1, 20, 24, 17, 1, 2, 3]⟩, 14) :=
  Run.returns_of_run (n := 60) (by decide +kernel)

theorem cryptoSignOpen_complete_tiny :
    ∃ m', (cryptoSignOpen tiny toyShake (fun _ => Arr.empty) Arr.empty 0
        ((Arr.mk [1, 0, 1, 2, 0, 1, 1, 1, 20, 24, 17, 1, 2, 3]).slice 0 14)
        ((Arr.mk [1, 2, 2]).slice 0 tiny.pkBytes)).Returns (0, m', 3) ∧ m'.slice 0 3 = [1, 2, 3] :=
  cryptoSignOpen_complete tiny_valid (by decide) toyShake [0] [7] Arr.empty Arr.empty Arr.empty
    Arr.empty 0 [1, 2, 3] (fun _ => Arr.empty) (fun _ => Arr.empty) tiny_keypair tiny_sign

end Meds.Ref
