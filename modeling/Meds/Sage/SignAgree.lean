/-
  Meds.Sage.SignAgree

  `crypto_sign` of meds_serial.c and of meds.sage.

  The secret key is arbitrary: C keeps a field from p on as it is and Sage
  reduces it, which the products with the commitments forget.  C writes the
  parts of the signature to their places in `sm`, Sage appends them, so the
  bytes behind a short path are those that `sm` held before.
-/

import Meds.Sage.KeypairAgree

namespace Meds.Sage

open Meds.Core Meds.Ref

variable {P : Params} {SHAKE256 : Shake} {ε : Type}

/-! ## The secret key -/

/-- The array as a matrix over GF(p); its entries need not be reduced. -/
def Encodes (P : Params) {r c : Nat} (A : Arr UInt16) (M : Mat P.p r c) : Prop :=
  block r c (ent P c A) = M

/-- The bytes of matrix `i` of the secret key, when those of matrix 1 start
    `o` bytes behind the seeds. -/
def keyBytes (P : Params) (sk : List UInt8) (o i : Nat) : List UInt8 :=
  (sk.drop (P.secSeedBytes + P.pubSeedBytes + (o + matBytes P * (i - 1)))).take (matBytes P)

/-- What `Decompress` makes of them. -/
def keyMatrix (P : Params) (sk : List UInt8) (o r i : Nat) : Mat P.p r r :=
  Matrix.of fun a b => ((field (keyBytes P sk o i) P.gfqBits (a.val * r + b.val) : Nat) : ZMod P.p)

section

variable {sk : List UInt8} {o r i : Nat}

/-- Both kinds of matrices lie within the secret key. -/
theorem keyBytes_fit (hP : Shared P) (hsk : sk.length = P.skBytes)
    (hfit : o + matBytes P * (P.s - 1) ≤ P.skBytes - P.secSeedBytes - P.pubSeedBytes) (h1 : 1 ≤ i)
    (h2 : i < P.s) :
    P.secSeedBytes + P.pubSeedBytes + (o + matBytes P * (i - 1)) + matBytes P ≤ sk.length := by
  have hsize := skSize_eq hP.toSquare
  have hnext := Nat.mul_le_mul_left (matBytes P) (show i - 1 + 1 ≤ P.s - 1 by omega)
  rw [← hP.sk_eq] at hsize
  rw [Nat.mul_succ] at hnext
  omega

theorem length_keyBytes (hP : Shared P) (hsk : sk.length = P.skBytes)
    (hfit : o + matBytes P * (P.s - 1) ≤ P.skBytes - P.secSeedBytes - P.pubSeedBytes) (h1 : 1 ≤ i)
    (h2 : i < P.s) : (keyBytes P sk o i).length = matBytes P := by
  have := keyBytes_fit hP hsk hfit h1 h2
  rw [keyBytes, List.length_take, List.length_drop]
  omega

/-- Every field of a matrix lies within its bytes. -/
theorem keyBytes_bits (hP : Shared P) (hsk : sk.length = P.skBytes) (hr : r = P.n)
    (hfit : o + matBytes P * (P.s - 1) ≤ P.skBytes - P.secSeedBytes - P.pubSeedBytes) (h1 : 1 ≤ i)
    (h2 : i < P.s) : P.gfqBits * (r * r) ≤ 8 * (keyBytes P sk o i).length := by
  rw [length_keyBytes hP hsk hfit h1 h2, hr, matBytes, byteLen]
  omega

theorem decompress_keyBytes (hP : Shared P) (hsk : sk.length = P.skBytes) (hr : r = P.n)
    (hfit : o + matBytes P * (P.s - 1) ≤ P.skBytes - P.secSeedBytes - P.pubSeedBytes) (h1 : 1 ≤ i)
    (h2 : i < P.s) : decompress (keyBytes P sk o i) P.p r r = pure (keyMatrix P sk o r i) := by
  have hn := hP.two_le_n
  have hbits := keyBytes_bits hP hsk hr hfit h1 h2
  rw [decompress_eq (hP.gfBits_eq ▸ hP.eight_le) (Nat.mul_pos (by omega) (by omega))
    (hP.gfBits_eq ▸ hbits), keyMatrix, hP.gfBits_eq]

/-- The fields of a matrix, as `bs_read` finds them, and as Sage reduces them. -/
theorem encodes_keyMatrix (hP : Shared P) (hsk : sk.length = P.skBytes) (hr : r = P.n)
    (hfit : o + matBytes P * (P.s - 1) ≤ P.skBytes - P.secSeedBytes - P.pubSeedBytes) (h1 : 1 ≤ i)
    (h2 : i < P.s) {A : Arr UInt16}
    (hA : ∀ j, j < r * r → A.get j = UInt16.ofNat (unpackAt
      (fun i => sk.getD (P.secSeedBytes + P.pubSeedBytes + i) 0) (o + matBytes P * (i - 1))
      P.gfqBits j)) :
    Encodes P A (keyMatrix P sk o r i) := by
  have hroom := keyBytes_fit hP hsk hfit h1 h2
  have hlen := length_keyBytes hP hsk hfit h1 h2
  ext a b
  have hlt : r * a.val + b < r * r := flat_lt a.isLt b.isLt
  have hbits : P.gfqBits * (r * a.val + b + 1) ≤ 8 * (keyBytes P sk o i).length :=
    (Nat.mul_le_mul_left _ hlt).trans (keyBytes_bits hP hsk hr hfit h1 h2)
  have hd : ∀ x, x < (keyBytes P sk o i).length →
      sk.getD (P.secSeedBytes + P.pubSeedBytes + (o + matBytes P * (i - 1) + x)) 0
        = (keyBytes P sk o i).getD x 0 := by
    intro x hx
    rw [List.getD_eq_getElem _ _ (by omega), List.getD_eq_getElem _ _ hx]
    simp only [keyBytes, List.getElem_take, List.getElem_drop]
    congr 1
    omega
  rw [block_apply, ent, pmodMatEntry, hA _ hlt,
    toNat_ofNat_of_lt (Nat.pow_le_pow_right (by decide) hP.gfqBits_le) (unpackAt_lt _ _ _ _),
    unpackAt_eq_field hd hbits, keyMatrix, Matrix.of_apply, Nat.mul_comm r]

/-- Reading `MEDS_s - 1` matrices of either kind from the secret key. -/
theorem readMatrices_agree (hP : Shared P) (hsk : sk.length = P.skBytes) (hr : r = P.n)
    (hfit : o + matBytes P * (P.s - 1) ≤ P.skBytes - P.secSeedBytes - P.pubSeedBytes) :
    ∃ A l, Ref.readMatrices P (fun i => sk[P.secSeedBytes + P.pubSeedBytes + i]?) (r * r)
          (cursor (P.skBytes - P.secSeedBytes - P.pubSeedBytes) o P.gfqBits 0)
        = some (A, cursor (P.skBytes - P.secSeedBytes - P.pubSeedBytes)
            (o + matBytes P * (P.s - 1)) P.gfqBits 0) ∧
      readMatrices P sk r (P.secSeedBytes + P.pubSeedBytes + o)
        = pure (l, P.secSeedBytes + P.pubSeedBytes + (o + matBytes P * (P.s - 1))) ∧
      Listed (Encodes P) 1 P.s A (l : List (Mat P.p r r)) := by
  have hs := hP.sized.one_le_s
  have hsize := skSize_eq hP.toSquare
  rw [← hP.sk_eq] at hsize
  have hbytes : byteLen (P.gfqBits * (r * r)) = matBytes P := by rw [hr, matBytes]
  obtain ⟨A, hA, hcell⟩ := @readMatrices_spec P
    (fun i => sk[P.secSeedBytes + P.pubSeedBytes + i]?)
    (fun i => sk.getD (P.secSeedBytes + P.pubSeedBytes + i) 0)
    (P.skBytes - P.secSeedBytes - P.pubSeedBytes) o (r * r) hs hP.gfqBits_pos
    (by rw [hbytes]; exact hfit) fun j hj => by
      rw [List.getD_eq_getElem _ _ (by omega), List.getElem?_eq_getElem (by omega)]
  rw [hbytes] at hA hcell
  refine ⟨A, (List.range' 1 (P.s - 1)).map (keyMatrix P sk o r), hA, ?_, ?_, fun i hi => ?_⟩
  · -- Sage cuts the bytes of the next matrix out and decodes them by themselves
    rw [readMatrices, matBytes_eq hP hr, forUpM_pure
      (fun i => ((List.range' 1 (i - 1)).map (keyMatrix P sk o r),
        P.secSeedBytes + P.pubSeedBytes + (o + matBytes P * (i - 1)))) hs ?_
      (by rw [Nat.sub_self, Nat.mul_zero]; rfl)]
    intro i h1 h2
    have hdec := decompress_keyBytes hP hsk hr hfit h1 h2
    have hnext : P.secSeedBytes + P.pubSeedBytes + (o + (matBytes P * (i - 1) + matBytes P))
        = P.secSeedBytes + P.pubSeedBytes + (o + matBytes P * (i - 1)) + matBytes P := by omega
    rw [keyBytes] at hdec
    simp only
    rw [hdec, show i + 1 - 1 = i - 1 + 1 by omega, Nat.mul_succ, List.range'_1_concat,
      List.map_append, Nat.add_sub_cancel' h1, hnext]
    rfl
  · rw [List.length_map, List.length_range']
    omega
  · rw [List.length_map, List.length_range'] at hi
    rw [List.getElem_map, List.getElem_range'_1]
    exact encodes_keyMatrix hP hsk hr hfit (by omega) (by omega)
      fun j hj => hcell _ j (by omega) (by omega) hj

/-- The matrices that both programs take from a secret key. -/
structure SecretKeyAgree (P : Params) (K : Ref.KeyMatrices)
    (K' : Gen P × List (Mat P.p P.m P.m) × List (Mat P.p P.n P.n)) : Prop where
  G : Holds (K.G.get 0) K'.1
  Ainv : Listed (Encodes P) 1 P.s K.Ainv K'.2.1
  Binv : Listed (Encodes P) 1 P.s K.Binv K'.2.2

/-- Behind the expansion of `G[0]`, both programs take fixed matrices from the key. -/
theorem loadSecretKey_eq [Fact P.p.Prime] (hP : Shared P) (hsk : sk.length = P.skBytes) :
    ∃ sigmaG0 A B lA lB,
      Ref.loadSecretKey P SHAKE256 sk = (do
        let G0 ← rndSysMat P SHAKE256 P.k (P.m * P.n) sigmaG0
        pure { G := Arr.empty.set 0 G0, Ainv := A, Binv := B }) ∧
      loadSecretKey P SHAKE256 sk = (do
        let G0 ← expandSystMat SHAKE256 P.p P.k P.m P.n sigmaG0
        pure (G0, lA, lB)) ∧
      Listed (Encodes P) 1 P.s A (lA : List (Mat P.p P.m P.m)) ∧
      Listed (Encodes P) 1 P.s B (lB : List (Mat P.p P.n P.n)) := by
  have hsize := skSize_eq hP.toSquare
  rw [← hP.sk_eq] at hsize
  change P.skBytes = matBytes P * _ + matBytes P * _ + _ + _ at hsize
  obtain ⟨A, lA, hA, hlA, hAagree⟩ := @readMatrices_agree P sk 0 P.m hP hsk hP.m_eq (by omega)
  obtain ⟨B, lB, hB, hlB, hBagree⟩ := @readMatrices_agree P sk (0 + matBytes P * (P.s - 1)) P.n hP
    hsk rfl (by omega)
  rw [cursor_zero] at hA
  rw [Nat.add_zero] at hlA
  -- the seed is a slice of the key for both
  have hseed : readBytes (fun i => sk[P.secSeedBytes + i]?) 0 P.pubSeedBytes
      = some ((sk.drop P.secSeedBytes).take P.pubSeedBytes) := by
    have := @readBytes_take (sk.drop P.secSeedBytes) 0 P.pubSeedBytes
      (by rw [List.length_drop]; omega)
    rw [List.drop_zero] at this
    rw [← this]
    congr 1
    funext i
    rw [List.getElem?_drop]
  refine ⟨(sk.drop P.secSeedBytes).take P.pubSeedBytes, A, B, lA, lB, ?_, ?_, hAagree, hBagree⟩
  · unfold Ref.loadSecretKey
    simp only [bsInit]
    rw [hseed, Run.ofOption_some, pure_bind]
    refine bind_congr fun G0 => ?_
    rw [hA, Run.ofOption_some, pure_bind]
    simp only
    rw [hB, Run.ofOption_some, pure_bind]
  · unfold loadSecretKey
    refine bind_congr fun G0 => ?_
    rw [hlA, pure_bind]
    simp only
    rw [hlB, pure_bind]

/-- Both programs expand the same secret key. -/
theorem loadSecretKey_matches [Fact P.p.Prime] (hP : Shared P) (hsk : sk.length = P.skBytes) :
    Run.Matches (Run.Values (SecretKeyAgree P)) (Ref.loadSecretKey P SHAKE256 sk)
      (loadSecretKey P SHAKE256 sk) := by
  obtain ⟨sigmaG0, A, B, lA, lB, href, hsage, hA, hB⟩ :=
    @loadSecretKey_eq P SHAKE256 sk _ hP hsk
  rw [href, hsage]
  apply (rndSysMat_matches hP P.k P.m P.n hP.sized.k_le _).bind_values
  intro G0 M0 h0
  exact Run.Matches.values ⟨by rw [Arr.get_set_self]; exact h0, hA, hB⟩

end

/-! ## The commitments -/

/-- Both signers before round `i` of the commitment loop.  Only a tree of one
    leaf loses its root. -/
structure SignAgree (P : Params) (rho : List UInt8) (i : Nat) (s : Ref.SignState) (s' : SignState P) :
    Prop where
  seeds : SeedsAgree P Arr.empty i s.stree s'.sigma
  root : 0 < P.seedTreeHeight → seedAt P s.stree 0 0 = rho
  Atilde : Listed Holds 0 i s.Atilde s'.Atilde
  Btilde : Listed Holds 0 i s.Btilde s'.Btilde
  comp : compressAll P s'.Gtilde = pure s.hShake.absorbed

section

variable [Fact P.p.Prime]

theorem signCommit_matches (hP : Shared P) (hkp : P.k < P.p) (bsBuf : Nat → Arr UInt8)
    {G0 : Arr UInt16} {M0 : Gen P} (h0 : Holds G0 M0) {rho alpha : List UInt8} {i : Nat}
    (hi : i < P.t) {s : Ref.SignState} {s' : SignState P} (hs : SignAgree P rho i s s') :
    Run.Matches (Run.Values (SignAgree P rho (i + 1)))
      (Ref.signCommit P SHAKE256 bsBuf G0 alpha i s : Run ε _)
      (signCommit P SHAKE256 M0 alpha i s') := by
  have hloop := Run.Matches.loop
    (R := fun stree sigma => SeedsAgree P Arr.empty i stree sigma ∧ SameButLeaf P i s.stree stree)
    (fun _ _ hR => @signAttempt_matches P SHAKE256 ε _ hP hkp _ _ h0 alpha Arr.empty i hi rfl
      s.stree _ _ hR.1 hR.2)
    ⟨hs.seeds, fun _ _ _ _ => rfl⟩
  unfold Ref.signCommit signCommit
  apply hloop.bind_values
  rintro ⟨stree, A, B, G⟩ ⟨sigma, MA, MB, M⟩ ⟨⟨hseeds, hsame⟩, hA, hB, hG⟩
  refine Run.Matches.values ⟨⟨hseeds.leafs, fun j hj => hseeds.get j (Nat.le_of_succ_le hj)⟩,
    fun hH => ?_, hs.Atilde.concat hA, hs.Btilde.concat hB, compressAll_concat hP hs.comp _ hG⟩
  -- the root is not the leaf of this round
  rw [hsame 0 0 (Nat.two_pow_pos 0) fun h => hH.ne h.1]
  exact hs.root hH

theorem signCommitments_matches (hP : Shared P) (hkp : P.k < P.p) (bsBuf : Nat → Arr UInt8)
    {G0 : Arr UInt16} {M0 : Gen P} (h0 : Holds G0 M0) {delta rho alpha : List UInt8}
    (hdelta : xof SHAKE256 delta [P.stSeedBytes, P.stSaltBytes] = [rho, alpha])
    (hrho : rho.length = P.stSeedBytes) :
    Run.Matches (Run.Values fun r s' => r.1 = alpha ∧ SignAgree P rho P.t r.2 s')
      (Ref.signCommitments P SHAKE256 bsBuf delta G0 : Run ε _)
      (signCommitments P SHAKE256 rho alpha M0) := by
  have ht : 1 ≤ P.t := hP.one_le_w.trans hP.w_le
  obtain ⟨S, hS⟩ : ∃ S, S = (Arr.replicate (P.stSeedBytes * P.seedTreeSize) (0 : UInt8)).blit
    (P.stSeedBytes * seedTreeAddr 0 0) rho := ⟨_, rfl⟩
  have hroot : seedAt P S 0 0 = rho := by
    rw [seedAt, hS, ← hrho]
    exact Arr.slice_blit _ _ _
  -- before the first commitment: the same leaves, and the root of the tree
  have hstart : SignAgree P rho 0
      { stree := tHash P SHAKE256 alpha S 0 0, Atilde := Arr.empty, Btilde := Arr.empty,
        hShake := shake256Init }
      { sigma := SeedTree.ofRoot P.t rho (hashPair P SHAKE256 alpha), Atilde := [], Btilde := [],
        Gtilde := [] } := by
    refine ⟨⟨rfl, fun j _ hj _ => ?_⟩, fun _ => ?_, Listed.nil 0 _, Listed.nil 0 _, rfl⟩
    · rw [← hroot]
      exact ofRoot_get ht hP.height S hj
    · rw [seedAt_tHash P SHAKE256 alpha S (by simp) (by rw [Nat.zero_mul]; exact ht) (Nat.zero_le _)
        (by simp), if_neg (by omega), hroot]
  unfold Ref.signCommitments signCommitments
  simp only [hdelta, List.getD_cons_zero, List.getD_cons_succ, ← hS]
  rw [← bind_pure (forUpM 0 P.t (signCommit P SHAKE256 M0 alpha) _)]
  apply (Run.Matches.forUpM_values (fun i => SignAgree P rho i) (Nat.zero_le P.t)
    (fun i s s' _ hi hs => signCommit_matches hP hkp bsBuf h0 hi hs) hstart).bind_values
  intro s s' hs
  exact Run.Matches.values ⟨rfl, hs⟩

/-! ## The responses -/

section

variable {K : Ref.KeyMatrices} {K' : Gen P × List (Mat P.p P.m P.m) × List (Mat P.p P.n P.n)}
  {rho : List UInt8} {st : Ref.SignState} {st' : SignState P} {h : Arr UInt8}

/-- Both programs write the same two blocks for a challenged round. -/
theorem signResponse_blocks (hP : Shared P) (hK : SecretKeyAgree P K K')
    (hst : SignAgree P rho P.t st st') {i : Nat} (hi : i < P.t) (hvalue : (h.get i).toNat < P.s)
    (ret : List UInt8) :
    signResponse P K'.2.1 K'.2.2 st' (challengeList P h) i ret
      = pure (ret ++ (responseBlocks P K st h i).flatMap (packBytes P.gfqBits)) := by
  have hiff : h.get i > 0 ↔ (h.get i).toNat > 0 := UInt8.lt_iff_toNat_lt
  rw [signResponse, responseBlocks, getD_challengeList hi]
  by_cases hpos : h.get i > 0
  · obtain ⟨MA, hMA, hA⟩ := hst.Atilde.getElem? (Nat.zero_le i) hi
    obtain ⟨MB, hMB, hB⟩ := hst.Btilde.getElem? (Nat.zero_le i) hi
    obtain ⟨MAinv, hMAinv, hAinv⟩ := hK.Ainv.getElem? (hiff.mp hpos) hvalue
    obtain ⟨MBinv, hMBinv, hBinv⟩ := hK.Binv.getElem? (hiff.mp hpos) hvalue
    have hmu : Holds (mu P K st h i) (MA * MAinv) := by
      rw [mu, product, ← hP.m_eq]
      exact pmodMatMul_holds hP hA.eq hAinv
    have hnu : Holds (nu P K st h i) (MBinv * MB) := pmodMatMul_holds hP hBinv hB.eq
    have hcmu : compress (MA * MAinv)
        = pure (packBytes P.gfqBits (Ref.entries (mu P K st h i) 0 0 (P.n * P.n))) := by
      rw [compress_holds hP hmu, hP.m_eq]
    rw [if_pos (hiff.mp hpos), if_pos hpos]
    rw [Nat.sub_zero] at hMA hMB
    simp only [hMA, hMB, hMAinv, hMBinv, Run.ofOption_some, pure_bind, hcmu, compress_holds hP hnu,
      List.flatMap_cons, List.flatMap_nil, List.append_nil]
    rfl
  · rw [if_neg (mt hiff.mpr hpos), if_neg hpos, List.flatMap_nil, List.append_nil]

/-- The responses of Sage are the blocks that C writes. -/
theorem signResponses_blocks (hP : Shared P) (hK : SecretKeyAgree P K K')
    (hst : SignAgree P rho P.t st st') (hvalues : ∀ j, j < P.t → (h.get j).toNat < P.s) :
    forUpM 0 P.t (signResponse P K'.2.1 K'.2.2 st' (challengeList P h)) []
      = pure ((allBlocks P K st h P.t).flatMap (packBytes P.gfqBits)) := by
  apply forUpM_pure (fun i => (allBlocks P K st h i).flatMap (packBytes P.gfqBits)) (Nat.zero_le _)
    (fun i _ hi => ?_) rfl
  rw [signResponse_blocks hP hK hst hi (hvalues i hi), allBlocks_succ, List.flatMap_append]

end

end

/-! ## The path -/

/-- With a single round, which is challenged, no node is visited. -/
theorem visited_single (hH : P.seedTreeHeight = 0) (ht : P.t ≤ 1) (hw : 1 ≤ P.w) {h : Arr UInt8}
    (hcount : (excluded P h).length = P.w) : visited P h = [] := by
  obtain ⟨j, hj⟩ := List.exists_mem_of_length_pos (hcount ▸ hw)
  have hlt := (mem_excluded.mp hj).1
  rw [visited, hH]
  exact cover_leaf_of_hits ⟨j, hj, by omega⟩

/-- A tree with a given root. -/
theorem exists_root {rho : List UInt8} (hrho : rho.length = P.stSeedBytes) :
    ∃ S : Arr UInt8, seedAt P S 0 0 = rho := by
  refine ⟨Arr.empty.blit (P.stSeedBytes * seedTreeAddr 0 0) rho, ?_⟩
  rw [seedAt, ← hrho]
  exact Arr.slice_blit _ _ _

/-- The path of Sage, and the seeds that C copies from its tree. -/
theorem seedTreeToPath_sign (hP : Shared P) {rho alpha : List UInt8}
    (hrho : rho.length = P.stSeedBytes) {st : Ref.SignState} {st' : SignState P} {i : Nat}
    (hst : SignAgree P rho i st st') {h : Arr UInt8} (hcount : (excluded P h).length = P.w) :
    seedTreeToPath P SHAKE256 (challengeList P h) rho alpha
      = pure (pathBytes P (tHash P SHAKE256 alpha st.stree 0 0) (visited P h)
          ++ List.replicate (seedTreeCost P
            - (pathBytes P (tHash P SHAKE256 alpha st.stree 0 0) (visited P h)).length) 0) := by
  have ht : 1 ≤ P.t := hP.one_le_w.trans hP.w_le
  rcases Nat.eq_zero_or_pos P.seedTreeHeight with h0 | hpos
  · -- the only leaf is the root, and C has replaced it
    have hpow := Nat.le_pow_clog (b := 2) (by decide) P.t
    rw [← hP.height, h0] at hpow
    obtain ⟨S, hS⟩ := exists_root hrho
    have := @seedTreeToPath_eq P SHAKE256 alpha ht hP.height S h
    rw [hS, visited_single h0 hpow hP.one_le_w hcount] at this
    rw [this, visited_single h0 hpow hP.one_le_w hcount]
    rfl
  · rw [← hst.root hpos]
    exact seedTreeToPath_eq ht hP.height st.stree h

/-! ## The signed message -/

/-- The parts of the signed message in their order, with zeros behind the path. -/
theorem slice_signed (hP : Shared P) {blocks : List (List Nat)} {path digest alpha m : List UInt8}
    {sm : Arr UInt8} (hlay : SmLayout P blocks path digest alpha m sm)
    (hblocks : (blocks.flatMap (packBytes P.gfqBits)).length = munuBytes P)
    (hpath : path.length ≤ P.maxPathLen * P.stSeedBytes) (hdigest : digest.length = P.digestBytes)
    (halpha : alpha.length = P.stSaltBytes)
    (hgap : ∀ i, munuBytes P + path.length ≤ i → i < P.sigBytes - P.digestBytes - P.stSaltBytes →
      sm.get i = 0) :
    sm.slice 0 (P.sigBytes + m.length)
      = blocks.flatMap (packBytes P.gfqBits)
        ++ (path ++ List.replicate (P.maxPathLen * P.stSeedBytes - path.length) 0)
        ++ digest ++ alpha ++ m := by
  have hsig := sigBytes_eq hP.toValid
  have hpart : ∀ (off : Nat) (l : List UInt8),
      (∀ i, i < l.length → sm.get (off + i) = l.getD i default) → sm.slice off l.length = l := by
    intro off l h
    apply List.ext_getElem (Arr.length_slice _ _ _)
    intro i h1 h2
    rw [Arr.getElem_slice, h i h2, List.getD_eq_getElem _ _ h2]
  have hmunu := hpart 0 (blocks.flatMap (packBytes P.gfqBits)) fun i hi => by
    rw [Nat.zero_add, hlay.munu i (hblocks ▸ hi)]
  have hseeds := hpart (munuBytes P) path hlay.path
  have hzero := hpart (munuBytes P + path.length)
    (List.replicate (P.maxPathLen * P.stSeedBytes - path.length) 0) fun i hi => by
      have hlt := hi
      rw [List.length_replicate] at hlt
      rw [hgap _ (by omega) (by omega), List.getD_eq_getElem _ _ hi, List.getElem_replicate]
  have hd := hpart (P.sigBytes - P.digestBytes - P.stSaltBytes) digest fun i hi =>
    hlay.digest i (hdigest ▸ hi)
  have ha := hpart (P.sigBytes - P.stSaltBytes) alpha fun i hi => hlay.alpha i (halpha ▸ hi)
  have hm := hpart P.sigBytes m hlay.msg
  rw [hblocks] at hmunu
  rw [List.length_replicate] at hzero
  -- cut behind every part
  have hlen : P.sigBytes + m.length = munuBytes P + (path.length
      + (P.maxPathLen * P.stSeedBytes - path.length)) + digest.length + alpha.length + m.length := by
    omega
  rw [hlen, Arr.slice_add, Arr.slice_add, Arr.slice_add, Arr.slice_add, Arr.slice_add]
  simp only [Nat.zero_add]
  rw [hmunu, hseeds, hzero,
    show munuBytes P + (path.length + (P.maxPathLen * P.stSeedBytes - path.length))
      = P.sigBytes - P.digestBytes - P.stSaltBytes by omega, hd,
    show P.sigBytes - P.digestBytes - P.stSaltBytes + digest.length
      = P.sigBytes - P.stSaltBytes by omega, ha,
    show P.sigBytes - P.stSaltBytes + alpha.length = P.sigBytes by omega, hm]

/-- The signed message that C writes to a buffer of zeros. -/
theorem signRespond_bytes (hP : Shared P) {K : Ref.KeyMatrices} {alpha digest m : List UInt8}
    {st : Ref.SignState} {h : Arr UInt8} {sm : Arr UInt8} (hsm : ∀ i, sm.get i = 0)
    (hcount : (excluded P h).length = P.w) (hdigest : digest.length = P.digestBytes)
    (halpha : alpha.length = P.stSaltBytes) :
    ∃ sm', (signRespond P SHAKE256 K alpha st digest h sm m).Returns (sm', P.sigBytes + m.length) ∧
      sm'.slice 0 (P.sigBytes + m.length)
        = (allBlocks P K st h P.t).flatMap (packBytes P.gfqBits)
          ++ (pathBytes P (tHash P SHAKE256 alpha st.stree 0 0) (visited P h)
            ++ List.replicate (P.maxPathLen * P.stSeedBytes
              - (pathBytes P (tHash P SHAKE256 alpha st.stree 0 0) (visited P h)).length) 0)
          ++ digest ++ alpha ++ m := by
  have hsig := sigBytes_eq hP.toValid
  have hblocks : ((allBlocks P K st h P.t).flatMap (packBytes P.gfqBits)).length = munuBytes P := by
    rw [length_packBlocks, blocksLen_all hP.toSquare K st hcount]
  have hpath := length_pathBytes_le hP.toValid hcount (tHash P SHAKE256 alpha st.stree 0 0)
  obtain ⟨⟨sm', smlen⟩, hr⟩ :=
    @exists_signRespond P SHAKE256 hP.toValid h hcount K alpha st digest sm m
  obtain ⟨rfl, sm1, hget, hsm'⟩ := signRespond_blits hP.toValid (Or.inl hP.eight_le) hcount hr
  refine ⟨sm', hr, slice_signed hP ?_ hblocks hpath hdigest halpha fun i h1 h2 => ?_⟩
  · rw [hsm']
    exact smLayout_of_blits hsig hblocks hpath halpha hdigest hget
  · -- nothing is written between the path and the digest
    rw [hsm', Arr.get_blit_of_lt _ _ (by omega), Arr.get_blit_of_lt _ _ (by omega),
      Arr.get_blit_of_lt _ _ h2, hget, Arr.get_blit_of_ge _ _ (by omega),
      Arr.get_blit_of_ge _ _ h1, hsm]

/-! ## crypto_sign -/

/-- The two signers, on every secret key of `MEDS_SK_BYTES` bytes, every message
    and the same random bytes. -/
theorem cryptoSign_matches [Fact P.p.Prime] (hP : Shared P) (hkp : P.k < P.p)
    (bsBuf : Nat → Arr UInt8) (delta : List UInt8) {sm : Arr UInt8} (hsm : ∀ i, sm.get i = 0)
    (m : List UInt8) {sk : List UInt8} (hsk : sk.length = P.skBytes) :
    Run.Matches (Run.Values fun r r' => r.1.slice 0 r.2 = r')
      (Ref.cryptoSign P SHAKE256 bsBuf delta sm m sk) (cryptoSign P SHAKE256 delta sk m) := by
  have hcost : seedTreeCost P = P.maxPathLen * P.stSeedBytes := by
    rw [seedTreeCost, ← hP.pathLen, Int.toNat_natCast]
  unfold Ref.cryptoSign cryptoSign
  apply (loadSecretKey_matches hP hsk).bind_values
  rintro K ⟨M0, Ainv, Binv⟩ hK
  simp only [xofTuple_eq]
  obtain ⟨rho, alpha, hxof, hrho, halpha⟩ : ∃ rho alpha,
      xof SHAKE256 delta [P.stSeedBytes, P.stSaltBytes] = [rho, alpha] ∧
        rho.length = P.stSeedBytes ∧ alpha.length = P.stSaltBytes :=
    ⟨_, _, xof_two _ _ _, length_streamSlice _ _ _, length_streamSlice _ _ _⟩
  simp only [hxof, List.getD_cons_zero, List.getD_cons_succ]
  apply (signCommitments_matches hP hkp bsBuf hK.G hxof hrho).bind_values
  rintro ⟨_, st⟩ st' ⟨rfl, hst⟩
  -- the same digest, so the same challenge
  have hcomp : appendEach (fun G => compress (dropColumns P.k G)) st'.Gtilde []
      = pure st.hShake.absorbed := hst.comp
  have hdigest : (shake256Squeeze SHAKE256 P.digestBytes
      (shake256Finalize (shake256Absorb st.hShake m))).1
      = hash P SHAKE256 (st.hShake.absorbed ++ m) := rfl
  have hlen : (hash P SHAKE256 (st.hShake.absorbed ++ m)).length = P.digestBytes :=
    length_streamSlice _ _ _
  rw [hcomp]
  change Run.Matches _ _ (parseHash P SHAKE256 (hash P SHAKE256 (st.hShake.absorbed ++ m)) >>= _)
  simp only [hdigest]
  apply (parseHash_matches hP.challengeSizes _ Arr.empty).reached.bind
  rintro _ _ ⟨hr, ⟨ret, h⟩, hl, rfl, rfl, hret, hh⟩
  obtain rfl : ret = 0 := hret
  have hchallenge := parseHash_returns (Nat.le_of_succ_le hP.two_le_s) hr
  obtain rfl := hh.eq_challengeList
  obtain ⟨sm', hsign, hbytes⟩ := @signRespond_bytes P SHAKE256 hP K _ _ m st h sm hsm
    hchallenge.weight hlen halpha
  simp only [Run.resume_ok]
  rw [signResponses_blocks hP hK hst hchallenge.values, pure_bind,
    seedTreeToPath_sign hP hrho hst hchallenge.weight]
  apply Run.Matches.congr_left _ hsign.equiv
  refine Run.Matches.values ?_
  rw [hbytes, hcost]

/-! ## A key pair and a signature -/

section

variable (P : Params) (SHAKE256 : Shake)

/-- `crypto_sign_keypair` and then `crypto_sign` of meds_serial.c: the public key,
    the secret key and the signed message.  The two calls of `randombytes`
    return `delta₁` and `delta₂`. -/
def refKeypairSign (bsBuf : Nat → Arr UInt8) (delta₁ delta₂ m : List UInt8) (pk sk sm : Arr UInt8) :
    Run Fault (List UInt8 × List UInt8 × List UInt8) := do
  let (_, pk, sk) ← Ref.cryptoSignKeypair P SHAKE256 delta₁ pk sk
  let (sm, smlen) ← Ref.cryptoSign P SHAKE256 bsBuf delta₂ sm m (sk.slice 0 P.skBytes)
  pure (pk.slice 0 P.pkBytes, sk.slice 0 P.skBytes, sm.slice 0 smlen)

variable [Fact P.p.Prime]

/-- `crypto_sign_keypair` and then `crypto_sign` of meds.sage. -/
def sageKeypairSign (delta₁ delta₂ m : List UInt8) :
    Run PyError (List UInt8 × List UInt8 × List UInt8) := do
  let (sk, pk) ← cryptoSignKeypair P SHAKE256 delta₁
  let sm ← cryptoSign P SHAKE256 delta₂ sk m
  pure (pk, sk, sm)

/-- On the same random bytes, and with `sm` all zero, both programs come to the
    same keys and the same signed message, or neither comes to an end. -/
def SignersAgree : Prop :=
  ∀ (SHAKE256 : Shake) (bsBuf : Nat → Arr UInt8) (delta₁ delta₂ m : List UInt8)
    (pk sk sm : Arr UInt8), delta₁.length = P.secSeedBytes → delta₂.length = P.secSeedBytes →
    (∀ i, sm.get i = 0) →
      Run.Matches (Run.Values Eq) (refKeypairSign P SHAKE256 bsBuf delta₁ delta₂ m pk sk sm)
        (sageKeypairSign P SHAKE256 delta₁ delta₂ m)

/-- On the same random bytes, with the same secret key of `MEDS_SK_BYTES` bytes and with
    `sm` all zero, both programs come to the same signed message, or neither does. -/
def SignaturesAgree : Prop :=
  ∀ (SHAKE256 : Shake) (bsBuf : Nat → Arr UInt8) (delta m sk : List UInt8) (sm : Arr UInt8),
    sk.length = P.skBytes → (∀ i, sm.get i = 0) →
      Run.Matches (Run.Values fun r r' => r.1.slice 0 r.2 = r')
        (Ref.cryptoSign P SHAKE256 bsBuf delta sm m sk) (cryptoSign P SHAKE256 delta sk m)

end

theorem signersAgree_of_lt [Fact P.p.Prime] (hP : Shared P) (hkp : P.k < P.p) : SignersAgree P := by
  intro SHAKE256 bsBuf delta₁ delta₂ m pk sk sm hdelta _ hsm
  unfold refKeypairSign sageKeypairSign
  apply (cryptoSignKeypair_matches hP hkp hdelta pk sk).bind_values
  rintro ⟨_, pk', sk'⟩ ⟨_, _⟩ ⟨-, rfl, rfl⟩
  apply (cryptoSign_matches hP hkp bsBuf delta₂ hsm m (Arr.length_slice _ _ _)).bind_values
  rintro ⟨sm', smlen⟩ _ rfl
  exact Run.Matches.values rfl

end Meds.Sage
