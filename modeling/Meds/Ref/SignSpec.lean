/-
  Meds.Ref.SignSpec

  What `crypto_sign` does: the secret key it expands, the commitments it
  hashes, and where the parts of the signature end up in `sm`.
-/

import Meds.Ref.Commit

namespace Meds.Ref

open Meds.Core

variable {P : Params} {SHAKE256 : Shake} {ε : Type}

/-! ## The secret key -/

/-- What `loadSecretKey` makes of a secret key in its layout. -/
theorem loadSecretKey_returns [Fact P.p.Prime] (hP : P.Square) (hs : 1 ≤ P.s)
    (hsk : P.skBytes = P.skSize) {sigmaG0 : List UInt8} {G0 : Arr UInt16} {K K' : KeyMatrices}
    {sk : Arr UInt8} (hlen : sigmaG0.length = P.pubSeedBytes)
    (hG0 : (rndSysMat P SHAKE256 P.k (P.m * P.n) sigmaG0 : Run Fault _).Returns G0)
    (hK : KeyMatricesSpec P G0 K) (hlay : SkLayout P sigmaG0 K sk)
    (h : (loadSecretKey P SHAKE256 (sk.slice 0 P.skBytes)).Returns K') :
    K'.G.get 0 = G0 ∧ ∀ si j, 1 ≤ si → si < P.s → j < P.n * P.n →
      (K'.Ainv.get si).get j = (K.Ainv.get si).get j ∧
        (K'.Binv.get si).get j = (K.Binv.get si).get j := by
  have hw := hP.gfqBits_pos
  have hsize := skSize_eq hP
  have hmem : ∀ off j, off + j < P.skBytes →
      (sk.slice 0 P.skBytes)[off + j]? = some (sk.get (off + j)) := fun off j hj => by
    rw [Arr.getElem?_slice _ hj, Nat.zero_add]
  have hmemSk : ∀ j, j < P.skBytes - P.secSeedBytes - P.pubSeedBytes →
      (sk.slice 0 P.skBytes)[P.secSeedBytes + P.pubSeedBytes + j]?
        = some (sk.get (P.secSeedBytes + P.pubSeedBytes + j)) := fun j hj => hmem _ _ (by omega)
  -- the seed of G_0 is read from the key and expanded again
  have hseed : readBytes (fun i => (sk.slice 0 P.skBytes)[P.secSeedBytes + i]?) 0 P.pubSeedBytes
      = some sigmaG0 := by
    rw [← hlen]
    refine readBytes_eq_some _ _ fun j hj => ?_
    rw [Nat.zero_add, hmem _ _ (by omega), hlay.seed j (by omega)]
    rfl
  obtain ⟨A, hA, hAget⟩ := readMatrices_spec (P.n * P.n) (o := 0) hs hw (by omega) hmemSk
  obtain ⟨B, hB, hBget⟩ := readMatrices_spec (P.n * P.n)
    (o := 0 + byteLen (P.gfqBits * (P.n * P.n)) * (P.s - 1)) hs hw (by omega) hmemSk
  rw [cursor_zero] at hA
  unfold loadSecretKey at h
  simp only at h
  rw [hseed, Run.ofOption_some, pure_bind, Run.returns_bind] at h
  obtain ⟨G0', hG0', h⟩ := h
  simp only [bsInit, hP.m_eq, hA, hB, Run.ofOption_some, pure_bind, Run.returns_pure] at h
  subst h
  -- both blocks of matrices read back what key generation packed
  have hcell : ∀ (M : Arr (Arr UInt16)) (o : Nat) si j, 1 ≤ si → si < P.s → j < P.n * P.n →
      Reduced P (M.get si) (P.n * P.n) →
      (∀ i, i < byteLen (P.gfqBits * (P.n * P.n)) * (P.s - 1) →
        sk.get (P.secSeedBytes + P.pubSeedBytes + (o + i))
          = (packAll P fun si => entries (M.get si) 0 0 (P.n * P.n)).getD i default) →
      UInt16.ofNat (unpackAt (fun i => sk.get (P.secSeedBytes + P.pubSeedBytes + i))
        (o + byteLen (P.gfqBits * (P.n * P.n)) * (si - 1)) P.gfqBits j) = (M.get si).get j := by
    intro M o si j h1 h2 hj hred hd
    have hidx : 1 + (si - 1) = si := by omega
    have hval : (entries (M.get (1 + (si - 1))) 0 0 (P.n * P.n)).getD j 0
        = ((M.get si).get j).toNat := by
      have := getD_entries (M.get si) 0 (Nat.zero_le j) hj
      rw [hidx]
      rwa [Nat.sub_zero, Nat.zero_add] at this
    have := unpackAt_blocks 1 (P.s - 1) (d := fun i => sk.get
        (P.secSeedBytes + P.pubSeedBytes + i)) (o := o)
      (w := P.gfqBits) (c := P.n * P.n)
      (v := fun si => entries (M.get si) 0 0 (P.n * P.n)) (fun i _ _ => length_entries _ _ _ _) hd
      (q := si - 1) (by omega) hj
      (by rw [hval]; exact Nat.lt_of_lt_of_le (hred j hj) hP.p_le)
    rw [this, hval, UInt16.ofNat_toNat]
  refine ⟨by rw [Arr.get_set_self]; exact hG0'.unique hG0, fun si j h1 h2 hj => ⟨?_, ?_⟩⟩
  · rw [hAget si j h1 h2 hj]
    exact hcell K.Ainv 0 si j h1 h2 hj (hK.pair si h1 h2).reducedAinv fun i hi => by
      rw [Nat.zero_add]
      exact hlay.ainv i hi
  · rw [hBget si j h1 h2 hj]
    exact hcell K.Binv _ si j h1 h2 hj (hK.pair si h1 h2).reducedBinv fun i hi => by
      rw [Nat.zero_add, ← Nat.add_assoc]
      exact hlay.binv i hi

/-! ## The commitments -/

section

variable [hprime : Fact P.p.Prime]

/-- The bytes a commitment contributes to the hash. -/
def commitBytes (P : Params) (G : Arr UInt16) : List UInt8 :=
  packBytes P.gfqBits (rowEntries P G 0 P.k)

omit hprime in
theorem commitBytes_congr (hP : P.Square) {G H : Arr UInt16}
    (h : ∀ idx, idx < P.n * P.n * P.n → G.get idx = H.get idx) :
    commitBytes P G = commitBytes P H := by
  unfold commitBytes rowEntries entries
  refine congrArg _ (List.flatMap_congr fun r hr => List.map_congr_left fun j hj => ?_)
  rw [List.mem_range'_1] at hr hj
  rw [hP.k_eq] at hr
  rw [hP.k_eq, hP.m_eq] at hj
  rw [hP.m_eq, Nat.mul_assoc, Nat.mul_comm r, h _ (flat_lt (by omega) (by omega))]

omit hprime in
theorem packCommitment_reduced (hP : P.Square) {G : Arr UInt16}
    (hG : Reduced P G (P.n * P.n * P.n)) {bsBuf : Arr UInt8}
    (hzero : 8 ≤ P.gfqBits ∨ ∀ i, bsBuf.get i = 0) : packCommitment P bsBuf G = commitBytes P G :=
  packCommitment_eq hP.gfqBits_pos (lt_of_mem_rowEntries fun r j _ hr hj => by
    rw [hP.m_eq] at hj ⊢
    rw [hP.k_eq] at hr
    exact Nat.lt_of_lt_of_le (hG _ (flat_lt hr hj)) hP.p_le) hzero

/-- The commitments `0, …, i - 1` of a signature over the tree `T`. -/
structure Commitments (P : Params) [Fact P.p.Prime] (SHAKE256 : Shake) (ε : Type) (G0 : Arr UInt16)
    (alpha : List UInt8) (T : Arr UInt8) (i : Nat) (st : SignState) : Prop where
  commit : ∀ j, j < i → Commitment P SHAKE256 ε G0 alpha j (seedAt P T P.seedTreeHeight j)
    (st.Atilde.get j) (st.Btilde.get j)
  hash : st.hShake = ⟨(List.range i).flatMap fun j =>
    commitBytes P (commitG P G0 (st.Atilde.get j) (st.Btilde.get j)), 0⟩
  frame : ∀ h' i', i' < 2 ^ h' → ¬ (h' = P.seedTreeHeight ∧ i' < i) →
    seedAt P st.stree h' i' = seedAt P T h' i'

theorem signCommit_returns (hP : P.Square) (h8 : 8 ≤ P.gfqBits) {bsBuf : Nat → Arr UInt8}
    {G0 : Arr UInt16} {alpha : List UInt8} {T : Arr UInt8} {i : Nat} {st st' : SignState}
    (hi : i < 2 ^ P.seedTreeHeight) (hst : Commitments P SHAKE256 ε G0 alpha T i st)
    (h : (signCommit P SHAKE256 bsBuf G0 alpha i st : Run ε _).Returns st') :
    Commitments P SHAKE256 ε G0 alpha T (i + 1) st' := by
  unfold signCommit at h
  rw [Run.returns_bind] at h
  obtain ⟨⟨stree, A, B, G⟩, hloop, h⟩ := h
  rw [Run.returns_pure] at h
  obtain ⟨rfl, hsame, hC⟩ := commitLoop_returns hP hi hloop
  rw [hst.frame _ i hi (by omega)] at hC
  obtain ⟨-, -, hred⟩ := commitG_spec hP hC.systematic
  subst h
  have hother : ∀ (M : Arr (Arr UInt16)) X j, j < i → (M.set i X).get j = M.get j :=
    fun M X j hj => Arr.get_set_ne _ _ (by omega)
  refine ⟨fun j hj => ?_, ?_, fun h' i' hi' hne => ?_⟩
  · by_cases hji : j = i
    · subst hji
      simp only [Arr.get_set_self]
      exact hC
    · simp only [hother _ _ j (show j < i by omega)]
      exact hst.commit j (by omega)
  · simp only [hst.hash, shake256Absorb, List.range_succ, List.flatMap_append, List.flatMap_cons,
      List.flatMap_nil, List.append_nil, Arr.get_set_self, packCommitment_reduced hP hred (Or.inl h8),
      KeccakState.mk.injEq, and_true]
    refine congrArg (· ++ _) (List.flatMap_congr fun j hj => ?_)
    rw [hother _ _ j (List.mem_range.mp hj), hother _ _ j (List.mem_range.mp hj)]
  · rw [hsame h' i' hi' (by omega)]
    exact hst.frame h' i' hi' (by omega)

/-- The commitment part of `crypto_sign`: the salt, and a tree all of whose
    leaves the commitments were derived from. -/
theorem signCommitments_returns (hP : P.Valid) (h8 : 8 ≤ P.gfqBits) {bsBuf : Nat → Arr UInt8}
    {delta alpha : List UInt8} {G0 : Arr UInt16} {st : SignState}
    (h : (signCommitments P SHAKE256 bsBuf delta G0 : Run ε _).Returns (alpha, st)) :
    alpha.length = P.stSaltBytes ∧ ∃ T, Commitments P SHAKE256 ε G0 alpha T P.t st ∧
      (1 < P.t → ∀ j, j < P.t → seedAt P (tHash P SHAKE256 alpha st.stree 0 0) P.seedTreeHeight j
        = seedAt P T P.seedTreeHeight j) := by
  have hw1 := hP.one_le_w
  have hwt := hP.w_le
  have htH : P.t ≤ 2 ^ P.seedTreeHeight := hP.height ▸ Nat.le_pow_clog (by decide) P.t
  unfold signCommitments at h
  rw [Run.returns_bind] at h
  obtain ⟨st', hloop, h⟩ := h
  rw [Run.returns_pure, Prod.mk.injEq] at h
  obtain ⟨rfl, rfl⟩ := h
  refine ⟨by rw [xof_two]; simp, ?_⟩
  generalize (xof SHAKE256 delta [P.stSeedBytes, P.stSaltBytes]).getD 1 [] = alpha at hloop ⊢
  generalize (Arr.replicate (P.stSeedBytes * P.seedTreeSize) (0 : UInt8)).blit
    (P.stSeedBytes * seedTreeAddr 0 0)
    ((xof SHAKE256 delta [P.stSeedBytes, P.stSaltBytes]).getD 0 []) = S at hloop
  have hC := Run.forUpM_invariant
    (fun i st => Commitments P SHAKE256 ε G0 alpha (tHash P SHAKE256 alpha S 0 0) i st)
    (Nat.zero_le P.t)
    (fun i s s' _ hi hs hstep => signCommit_returns hP.toSquare h8 (by omega) hs hstep)
    ⟨fun j hj => absurd hj (Nat.not_lt_zero j), rfl, fun _ _ _ _ => rfl⟩ hloop
  refine ⟨_, hC, fun ht1 j hj => ?_⟩
  have hH : 0 < P.seedTreeHeight := by
    refine Nat.pos_of_ne_zero fun h0 => ?_
    rw [h0] at htH
    omega
  -- both trees grow from the same root
  have hleaf : ∀ X, Derived P SHAKE256 alpha X → seedAt P X P.seedTreeHeight j
      = subtreeSeed P SHAKE256 alpha 0 (seedAt P X 0 0) P.seedTreeHeight j := by
    intro X hX
    have := hX 0 P.seedTreeHeight j (by omega) (by rw [Nat.zero_add]; omega)
      (by rw [Nat.zero_add, Nat.sub_self, Nat.pow_zero, Nat.mul_one]; exact hj)
    rwa [Nat.zero_add, Nat.div_eq_of_lt (show j < 2 ^ P.seedTreeHeight by omega)] at this
  have hroot : ∀ X, seedAt P (tHash P SHAKE256 alpha X 0 0) 0 0 = seedAt P X 0 0 := by
    intro X
    rw [seedAt_tHash P SHAKE256 alpha X (by simp) (by rw [Nat.zero_mul]; omega) (Nat.zero_le _)
      (by simp), if_neg (by omega)]
  rw [hleaf _ (derived_tHash P SHAKE256 alpha _ (by omega)),
    hleaf _ (derived_tHash P SHAKE256 alpha S (by omega)), hroot,
    hC.frame 0 0 (by simp) (by omega)]

end

/-! ## The responses -/

section

variable (P)

/-- `A * B`, as `writeProduct` computes it. -/
def product (n : Nat) (A B : Arr UInt16) : Arr UInt16 := pmodMatMul P Arr.empty n n A n n B n

/-- The response matrices of round `i`. -/
def mu (K : KeyMatrices) (st : SignState) (h : Arr UInt8) (i : Nat) : Arr UInt16 :=
  product P P.n (st.Atilde.get i) (K.Ainv.get (h.get i).toNat)

def nu (K : KeyMatrices) (st : SignState) (h : Arr UInt8) (i : Nat) : Arr UInt16 :=
  product P P.n (K.Binv.get (h.get i).toNat) (st.Btilde.get i)

/-- The blocks that round `i` writes. -/
def responseBlocks (K : KeyMatrices) (st : SignState) (h : Arr UInt8) (i : Nat) : List (List Nat) :=
  if h.get i > 0 then
    [entries (mu P K st h i) 0 0 (P.n * P.n), entries (nu P K st h i) 0 0 (P.n * P.n)]
  else []

/-- The blocks of rounds `0, …, i - 1`. -/
def allBlocks (K : KeyMatrices) (st : SignState) (h : Arr UInt8) (i : Nat) : List (List Nat) :=
  (List.range i).flatMap (responseBlocks P K st h)

end

theorem signResponse_eq (hP : P.Square) (K : KeyMatrices) (st : SignState) (h : Arr UInt8) (i : Nat)
    (s : Arr UInt8 × BitstreamT) :
    signResponse P K st h i s = (responseBlocks P K st h i).foldl (putBlock P.gfqBits) s := by
  unfold signResponse responseBlocks
  split
  · simp only [writeProduct, writeEntries_eq, hP.m_eq, List.foldl_cons, List.foldl_nil]
    rfl
  · rfl

theorem signResponses_eq (hP : P.Square) (K : KeyMatrices) (st : SignState) (h : Arr UInt8)
    (s : Arr UInt8 × BitstreamT) :
    forUp 0 P.t (signResponse P K st h) s
      = (allBlocks P K st h P.t).foldl (putBlock P.gfqBits) s := by
  rw [allBlocks, List.range_eq_range']
  refine (forUp_congr (fun i s _ _ => signResponse_eq hP K st h i s) s).trans ?_
  exact forUp_foldl 0 P.t (responseBlocks P K st h) (putBlock P.gfqBits) s

/-- Bytes of a packed `n × n` matrix. -/
abbrev matBytes (P : Params) : Nat := byteLen (P.gfqBits * (P.n * P.n))

theorem matABytes_eq (hP : P.Square) : P.matABytes = matBytes P := by
  rw [Params.matABytes, ceiling_eight, hP.m_eq, Nat.mul_comm]

theorem matBBytes_eq : P.matBBytes = matBytes P := by
  rw [Params.matBBytes, ceiling_eight, Nat.mul_comm]

theorem blocksLen_responseBlocks (K : KeyMatrices) (st : SignState) (h : Arr UInt8) (i : Nat) :
    blocksLen P.gfqBits (responseBlocks P K st h i)
      = if h.get i > 0 then matBytes P + matBytes P else 0 := by
  unfold responseBlocks
  split <;> simp [blocksLen, matBytes]

theorem allBlocks_succ (K : KeyMatrices) (st : SignState) (h : Arr UInt8) (i : Nat) :
    allBlocks P K st h (i + 1) = allBlocks P K st h i ++ responseBlocks P K st h i := by
  simp [allBlocks, List.range_succ]

/-- The responses before round `i` fill as many bytes as there are of them. -/
theorem blocksLen_allBlocks (K : KeyMatrices) (st : SignState) (h : Arr UInt8) (i : Nat) :
    blocksLen P.gfqBits (allBlocks P K st h i)
      = ((List.range i).filter fun j => h.get j > 0).length * (matBytes P + matBytes P) := by
  induction i with
  | zero => simp [allBlocks, blocksLen]
  | succ i ih =>
      rw [allBlocks_succ, blocksLen_append, ih, blocksLen_responseBlocks, List.range_succ,
        List.filter_append, List.length_append, Nat.add_mul]
      congr 1
      by_cases hi : h.get i > 0
      · simp [hi]
      · simp [hi]

theorem blocksLen_all (hP : P.Square) (K : KeyMatrices) (st : SignState) {h : Arr UInt8}
    (hcount : (excluded P h).length = P.w) :
    blocksLen P.gfqBits (allBlocks P K st h P.t) = munuBytes P := by
  rw [blocksLen_allBlocks, munuBytes, matABytes_eq hP, matBBytes_eq, ← hcount]
  rfl

theorem product_spec (hP : P.Square) [hprime : Fact P.p.Prime] (A B : Arr UInt16) :
    sq P (product P P.n A B) = sq P A * sq P B ∧ Reduced P (product P P.n A B) (P.n * P.n) := by
  have h := pmodMatMul_spec P.n P.n P.n P.n P.n (P := P)
    (A := A) (B := B) (C := Arr.empty) hprime.out.pos hP.p_le_16
  exact ⟨h.block_eq, h.reduced hprime.out.pos⟩

/-- The entries of the responses have `GFq_bits` bits. -/
theorem lt_of_mem_allBlocks (hP : P.Square) [hprime : Fact P.p.Prime] (K : KeyMatrices)
    (st : SignState) (h : Arr UInt8) (i : Nat) :
    ∀ l ∈ allBlocks P K st h i, ∀ v ∈ l, v < 2 ^ P.gfqBits := by
  intro l hl
  obtain ⟨j, -, hj⟩ := List.mem_flatMap.mp hl
  unfold responseBlocks at hj
  split at hj
  · simp only [List.mem_cons, List.not_mem_nil, or_false] at hj
    rcases hj with rfl | rfl
    · exact (product_spec hP _ _).2.lt_of_mem hP
    · exact (product_spec hP _ _).2.lt_of_mem hP
  · cases hj

/-- Where the parts of the signed message lie. -/
structure SmLayout (P : Params) (blocks : List (List Nat)) (path digest alpha m : List UInt8)
    (sm : Arr UInt8) : Prop where
  munu : ∀ i, i < munuBytes P → sm.get i = (blocks.flatMap (packBytes P.gfqBits)).getD i default
  path : ∀ i, i < path.length → sm.get (munuBytes P + i) = path.getD i default
  digest : ∀ i, i < P.digestBytes →
    sm.get (P.sigBytes - P.digestBytes - P.stSaltBytes + i) = digest.getD i default
  alpha : ∀ i, i < P.stSaltBytes → sm.get (P.sigBytes - P.stSaltBytes + i) = alpha.getD i default
  msg : ∀ i, i < m.length → sm.get (P.sigBytes + i) = m.getD i default

/-- Responses, path, digest, salt and message, copied one after the other, lie
    where the layout wants them. -/
theorem smLayout_of_blits {blocks : List (List Nat)} {pb digest alpha m : List UInt8}
    {sm0 sm1 : Arr UInt8}
    (hsig : P.sigBytes
      = P.digestBytes + munuBytes P + P.maxPathLen * P.stSeedBytes + P.stSaltBytes)
    (hblen : (blocks.flatMap (packBytes P.gfqBits)).length = munuBytes P)
    (hpblen : pb.length ≤ P.maxPathLen * P.stSeedBytes)
    (halpha : alpha.length = P.stSaltBytes) (hdigest : digest.length = P.digestBytes)
    (hget : ∀ i, sm1.get i
      = ((sm0.blit (munuBytes P) pb).blit 0 (blocks.flatMap (packBytes P.gfqBits))).get i) :
    SmLayout P blocks pb digest alpha m (((sm1.blit (P.sigBytes - P.digestBytes - P.stSaltBytes)
      digest).blit (P.sigBytes - P.stSaltBytes) alpha).blit P.sigBytes m) := by
  refine ⟨fun i hi => ?_, fun i hi => ?_, fun i hi => ?_, fun i hi => ?_, fun i hi => ?_⟩
  · rw [Arr.get_blit_of_lt _ _ (by omega), Arr.get_blit_of_lt _ _ (by omega),
      Arr.get_blit_of_lt _ _ (by omega), hget, Arr.get_blit, if_pos (by omega), Nat.sub_zero]
  · rw [Arr.get_blit_of_lt _ _ (by omega), Arr.get_blit_of_lt _ _ (by omega),
      Arr.get_blit_of_lt _ _ (by omega), hget, Arr.get_blit_of_ge _ _ (by omega), Arr.get_blit,
      if_pos (by omega), Nat.add_sub_cancel_left]
  · rw [Arr.get_blit_of_lt _ _ (by omega), Arr.get_blit_of_lt _ _ (by omega), Arr.get_blit,
      if_pos (by omega), Nat.add_sub_cancel_left]
  · rw [Arr.get_blit_of_lt _ _ (by omega), Arr.get_blit, if_pos (by omega),
      Nat.add_sub_cancel_left]
  · rw [Arr.get_blit, if_pos (by omega), Nat.add_sub_cancel_left]

/-- The blits that `signRespond` comes down to. -/
theorem signRespond_blits (hP : P.Valid) {K : KeyMatrices} {alpha digest m : List UInt8}
    {st : SignState} {h : Arr UInt8} {sm sm' : Arr UInt8} {smlen : Nat}
    (hzero : 8 ≤ P.gfqBits ∨ ∀ i, i < munuBytes P → sm.get i = 0)
    (hcount : (excluded P h).length = P.w)
    (hr : (signRespond P SHAKE256 K alpha st digest h sm m).Returns (sm', smlen)) :
    smlen = P.sigBytes + m.length ∧ ∃ sm1 : Arr UInt8,
      (∀ i, sm1.get i = ((sm.blit (munuBytes P) (pathBytes P (tHash P SHAKE256 alpha st.stree 0 0)
        (visited P h))).blit 0 ((allBlocks P K st h P.t).flatMap (packBytes P.gfqBits))).get i) ∧
      sm' = ((sm1.blit (P.sigBytes - P.digestBytes - P.stSaltBytes) digest).blit
        (P.sigBytes - P.stSaltBytes) alpha).blit P.sigBytes m := by
  have : Fact P.p.Prime := ⟨hP.prime⟩
  have htH : P.t ≤ 2 ^ P.seedTreeHeight := hP.height ▸ Nat.le_pow_clog (by decide) P.t
  have ht1 : 1 ≤ P.t := hP.one_le_w.trans hP.w_le
  unfold signRespond at hr
  rw [Run.returns_bind] at hr
  obtain ⟨path, hpath, hr⟩ := hr
  obtain rfl := hpath.unique
    (streeToPath_returns P SHAKE256 ht1 htH hP.one_le_w hcount _ sm (munuBytes P) alpha)
  rw [Run.returns_pure, Prod.mk.injEq] at hr
  obtain ⟨hsm, hlen⟩ := hr
  generalize pathBytes P (tHash P SHAKE256 alpha st.stree 0 0) (visited P h) = pb at hsm ⊢
  -- the responses go in front of the path, whose bytes they do not touch
  obtain ⟨hget, -⟩ := putBlocks_spec (sm.blit (munuBytes P) pb) (munuBytes P)
    (o := 0) (w := P.gfqBits) (L := allBlocks P K st h P.t) hP.gfqBits_pos
    (lt_of_mem_allBlocks hP.toSquare K st h P.t)
    (by rw [blocksLen_all hP.toSquare K st hcount, Nat.zero_add])
    (hzero.imp_right fun hz i _ hi => by
      rw [blocksLen_all hP.toSquare K st hcount, Nat.zero_add] at hi
      rw [Arr.get_blit_of_lt _ _ hi]
      exact hz i hi)
  rw [cursor_zero] at hget
  rw [signResponses_eq hP.toSquare, bsInit] at hsm
  exact ⟨hlen, _, hget, hsm⟩

/-- Behind the challenge, `crypto_sign` comes to its end. -/
theorem exists_signRespond (hP : P.Valid) {h : Arr UInt8} (hcount : (excluded P h).length = P.w)
    (K : KeyMatrices) (alpha : List UInt8) (st : SignState) (digest : List UInt8) (sm : Arr UInt8)
    (m : List UInt8) : ∃ r, (signRespond P SHAKE256 K alpha st digest h sm m).Returns r := by
  have htH : P.t ≤ 2 ^ P.seedTreeHeight := hP.height ▸ Nat.le_pow_clog (by decide) P.t
  have ht1 : 1 ≤ P.t := hP.one_le_w.trans hP.w_le
  have hpath := streeToPath_returns P SHAKE256 ht1 htH hP.one_le_w hcount
    (tHash P SHAKE256 alpha st.stree 0 0) sm (munuBytes P) alpha
  exact ⟨_, Run.returns_bind.mpr ⟨_, hpath, Run.returns_pure.mpr rfl⟩⟩

/-- The path fits between the responses and the digest. -/
theorem length_pathBytes_le (hP : P.Valid) {h : Arr UInt8}
    (hcount : (excluded P h).length = P.w) (T : Arr UInt8) :
    (pathBytes P T (visited P h)).length ≤ P.maxPathLen * P.stSeedBytes := by
  rw [length_pathBytes]
  have h1 := length_visited_le P h hP.height hcount
  rw [← hP.pathLen] at h1
  exact Nat.mul_le_mul_right _ (by omega)

theorem sigBytes_eq (hP : P.Valid) : P.sigBytes
    = P.digestBytes + munuBytes P + P.maxPathLen * P.stSeedBytes + P.stSaltBytes := hP.sig_eq

theorem signRespond_returns (hP : P.Valid) (h8 : 8 ≤ P.gfqBits) {K : KeyMatrices}
    {alpha digest m : List UInt8} {st : SignState} {h : Arr UInt8} {sm sm' : Arr UInt8} {smlen : Nat}
    (halpha : alpha.length = P.stSaltBytes) (hdigest : digest.length = P.digestBytes)
    (hcount : (excluded P h).length = P.w)
    (hr : (signRespond P SHAKE256 K alpha st digest h sm m).Returns (sm', smlen)) :
    smlen = P.sigBytes + m.length ∧
      SmLayout P (allBlocks P K st h P.t)
        (pathBytes P (tHash P SHAKE256 alpha st.stree 0 0) (visited P h)) digest alpha m sm' := by
  obtain ⟨hlen, sm1, hget, hsm⟩ := signRespond_blits hP (Or.inl h8) hcount hr
  refine ⟨hlen, ?_⟩
  rw [hsm]
  exact smLayout_of_blits (sigBytes_eq hP)
    (by rw [length_packBlocks, blocksLen_all hP.toSquare K st hcount])
    (length_pathBytes_le hP hcount _) halpha hdigest hget

end Meds.Ref
