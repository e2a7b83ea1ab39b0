/-
  Meds.Sage.SignersDiffer

  The two key generators and signers agree exactly for codes with fewer rows
  than the field has elements.

  For other codes the stream of `StartsWide` tells them apart.  Every round of
  the key generator of Sage succeeds, and so does every commitment, so Sage
  comes to a signature.  Every commitment of C draws the same two matrices and
  fails its test, so C draws forever.
-/

import Meds.Sage.WideSign

namespace Meds.Sage

open Meds.Core Meds.Ref

variable {P : Params} {S : Nat → UInt8}

/-! ## The key generator -/

theorem isWide_wideCode (P : Params) : IsWide (P.n - P.p) (wideCode P) := wideCode_flat

theorem wideWord_zero (n ρ : Nat) : wideWord n ρ 0 = 1 := by
  rw [wideWord, Nat.zero_div, Nat.zero_div, Nat.zero_mod, Nat.zero_mod]
  rfl

/-- Row `i` of the transformed generator is the matrix that `turn` picks. -/
theorem rowMatrix_wide (hP : Shared P) {i : Nat} (hi : i < P.k) :
    rowMatrix P.n (turnMat P.p P.k * wideCode P) i
      = unitRows (ZMod P.p) P.n P.n (wideRow P.n (P.n - P.p) (turn P.k i)) := by
  ext a c
  have hn : 0 < P.n := Nat.zero_lt_of_lt c.isLt
  have hk2 : 2 ≤ P.k := hP.k_eq ▸ hP.two_le_n
  have hlt : a.val * P.n + c.val < P.m * P.n := by
    have := flat_lt a.isLt c.isLt
    rw [hP.m_eq]
    rwa [Nat.mul_comm a.val]
  have hrow : (a.val * P.n + c.val) / P.n = a := by
    rw [Nat.mul_comm, Nat.mul_add_div hn, Nat.div_eq_of_lt c.isLt, Nat.add_zero]
  have hcol : (a.val * P.n + c.val) % P.n = c := by
    rw [Nat.mul_comm, Nat.mul_add_mod, Nat.mod_eq_of_lt c.isLt]
  rw [rowMatrix, Matrix.of_apply, table_of_lt _ hi hlt, turnMat,
    unitRows_mul_of_some (turn_lt hk2 hi) rfl, wideCode, Matrix.of_apply, unitRows_apply]
  simp only [hrow, hcol]

/-! ## Compressing -/

theorem appendEach_pure {α : Type} {f : α → Except PyError (List UInt8)} {g : α → List UInt8}
    (h : ∀ x, f x = pure (g x)) (l : List α) (ret : List UInt8) :
    appendEach f l ret = pure (ret ++ l.flatMap g) := by
  induction l generalizing ret with
  | nil => simp [appendEach]
  | cons x l ih =>
      have := ih (ret ++ g x)
      rw [appendEach] at this ⊢
      rw [List.foldlM_cons, h, pure_bind, pure_bind, this, List.flatMap_cons, List.append_assoc]

/-- Every matrix takes the same number of bytes. -/
theorem length_flatMap_compress (hP : Shared P) {r : Nat} (hr : r = P.n) (l : List (Mat P.p r r)) :
    (l.flatMap fun M => packBytes (gfBits P.p) (entriesOf M)).length = matBytes P * l.length := by
  have hbytes : byteLen (P.gfqBits * (r * r)) = matBytes P := by rw [hr, matBytes]
  induction l with
  | nil => rfl
  | cons M l ih =>
      have hlen : (entriesOf M).length = r * r := by
        simp [entriesOf]
      rw [List.flatMap_cons, List.length_append, ih, length_packBytes, hlen, hP.gfBits_eq, hbytes,
        List.length_cons, Nat.mul_succ, Nat.add_comm]

section

variable [Fact P.p.Prime]

/-- Every round of the key generator succeeds. -/
theorem keypairAttempt_wide (hP : Shared P) (hwide : P.p ≤ P.k) (hS : StartsWide P S)
    (sigma : List UInt8) :
    ∃ r, (keypairAttempt P (fun _ => S) (wideCode P) sigma).Returns (.inr r) := by
  have hn := hP.wide_le hwide
  have hk := hP.k_eq
  have hlen : 0 + 1 ≤ wideLength P.n := by
    have := wideLength_room hP hwide (show 1 ≤ 2 by decide)
    have := Nat.le_mul_of_pos_left P.n (show 0 < P.n by omega)
    omega
  -- the system of `turn`
  have h0 : rowMatrix P.n (turnMat P.p P.k * wideCode P) 0 = turnMat P.p P.n := by
    rw [rowMatrix_wide hP (by omega), turn_zero, hk]
    exact unitRows_congr fun a _ => wideRow_last (by omega) a
  have h1 : rowMatrix P.n (turnMat P.p P.k * wideCode P) 1 = turnNext P.p P.n := by
    rw [rowMatrix_wide hP (by omega), hk]
    exact unitRows_congr fun a _ => wideRow_shifted (by omega) a
  have hAmm : (wideWords P 0 1).getD 0 0 = 1 := by
    rw [getD_wideWords Nat.one_pos, Nat.add_zero, wideWord_zero, Nat.cast_one]
  obtain ⟨Gi, hGi⟩ := sf_wideKey hP.m_eq hk (by omega) (isWide_wideCode P)
    (B := inverse (turnMat P.p P.n)) (by
      rw [inverse_eq]
      exact (Matrix.isUnit_nonsing_inv_det _ (det_turnMat (by omega)).isUnit).ne_zero)
  have hturn : isInvertible (turnMat P.p P.n) = true := isInvertible_turnMat (by omega)
  have hone : isInvertible (1 : Mat P.p P.n P.n) = true := by
    rw [isInvertible, decide_eq_true_eq, Matrix.det_one]
    exact one_ne_zero
  refine ⟨((xofTuple (fun _ => S) sigma [P.secSeedBytes, P.secSeedBytes, P.secSeedBytes]).getD 2 [],
    inverse (resize P.m (1 : Mat P.p P.n P.n)), turnMat P.p P.n, Gi), ?_⟩
  unfold keypairAttempt
  refine Run.returns_bind.mpr ⟨_, expandInvMat_wide hP hwide hS hk _, ?_⟩
  refine Run.returns_bind.mpr ⟨_, expandFqs_wide hP hS _ 0 1 hlen, ?_⟩
  simp only [h0, h1, hAmm]
  rw [solveSymb_turn (by omega)]
  change (if _ then _ else if _ then _ else _ : Run PyError _).Returns _
  rw [hturn, hone, if_neg (by decide), if_neg (by decide), hGi, Run.returns_pure]

/-- The matrices of `i - 1` rounds. -/
structure KeyLengths (P : Params) (i : Nat) (K : KeyMatrices P) : Prop where
  Ainv : 1 + K.Ainv.length = i
  Binv : 1 + K.Binv.length = i

theorem keypairMatrices_wide (hP : Shared P) (hwide : P.p ≤ P.k) (hS : StartsWide P S)
    (delta : List UInt8) :
    ∃ r, (keypairMatrices P (fun _ => S) delta).Returns r ∧ r.1.length = P.pubSeedBytes ∧
      KeyLengths P P.s r.2 := by
  unfold keypairMatrices
  simp only [xofTuple_eq]
  obtain ⟨⟨sigma, K⟩, hloop, hK⟩ := @Run.forUpM_returns _ _ 1 P.s
    (fun _ => keypairIndex P (fun _ => S) (wideCode P)) (fun i s => KeyLengths P i s.2)
    hP.sized.one_le_s (fun i s _ _ hs => by
      obtain ⟨⟨sigma, Ainv, Binv, Gi⟩, hr⟩ := keypairAttempt_wide hP hwide hS s.1
      have hA := hs.Ainv
      have hB := hs.Binv
      refine ⟨_, Run.returns_bind.mpr ⟨_, Run.returns_loop_break hr, Run.returns_pure.mpr rfl⟩,
        ?_, ?_⟩
      · simp only [List.length_append, List.length_singleton]
        omega
      · simp only [List.length_append, List.length_singleton]
        omega)
    ((xof (fun _ => S) delta [P.pubSeedBytes, P.secSeedBytes]).getD 1 [],
      { G := [], Ainv := [], Binv := [] }) ⟨rfl, rfl⟩
  refine ⟨_, Run.returns_bind.mpr ⟨_, expandSystMat_wide hP hwide hS _, Run.returns_bind.mpr
    ⟨_, hloop, Run.returns_pure.mpr rfl⟩⟩, ?_, hK⟩
  rw [xof_two]
  exact length_streamSlice _ _ _

/-- The keys of Sage. -/
theorem cryptoSignKeypair_wide (hP : Shared P) (hwide : P.p ≤ P.k) (hS : StartsWide P S)
    {delta : List UInt8} (hdelta : delta.length = P.secSeedBytes) :
    ∃ sk pk, (cryptoSignKeypair P (fun _ => S) delta).Returns (sk, pk) ∧ sk.length = P.skBytes := by
  have hw : 8 ≤ gfBits P.p := hP.gfBits_eq ▸ hP.eight_le
  obtain ⟨⟨sigmaG0, K⟩, hr, hlen, hK⟩ := keypairMatrices_wide hP hwide hS delta
  refine ⟨delta ++ sigmaG0 ++ K.Ainv.flatMap (fun M => packBytes (gfBits P.p) (entriesOf M))
      ++ K.Binv.flatMap (fun M => packBytes (gfBits P.p) (entriesOf M)),
    sigmaG0 ++ K.G.flatMap (fun M => packBytes (gfBits P.p) (genEntries M P.k P.m P.n)),
    Run.returns_bind.mpr ⟨_, hr, ?_⟩, ?_⟩
  · change (ofExcept _ >>= fun pk => ofExcept _ >>= fun sk => ofExcept _ >>= fun sk => pure (sk, pk)
      : Run PyError _).Returns _
    rw [appendEach_pure fun M => compressG_eq hw M _ _ _, appendEach_pure (compress_eq hw)]
    simp only [appendEach_pure (compress_eq hw)]
    exact Run.returns_pure.mpr rfl
  · have hA : 1 + K.Ainv.length = P.s := hK.Ainv
    have hB : 1 + K.Binv.length = P.s := hK.Binv
    have hsize := skSize_eq hP.toSquare
    rw [← hP.sk_eq] at hsize
    rw [List.length_append, List.length_append, List.length_append,
      length_flatMap_compress hP hP.m_eq, length_flatMap_compress hP rfl, hdelta, hlen,
      show K.Ainv.length = P.s - 1 by omega, show K.Binv.length = P.s - 1 by omega, hsize, matBytes]
    omega

/-! ## The commitments -/

/-- The number of leading pivots, modulo p. -/
theorem wide_cast (hP : Shared P) (hwide : P.p ≤ P.k) :
    ((P.n - P.p : Nat) : ZMod P.p) = (P.k : ZMod P.p) := by
  rw [hP.k_eq, Nat.cast_sub (hP.k_eq ▸ hwide), ZMod.natCast_self, sub_zero]

/-- Every commitment is taken by Sage and rejected by C. -/
theorem sf_commit_wide (hP : Shared P) (hwide : P.p ≤ P.k) :
    (∃ M', sf (pi (turnMat P.p P.m) (turnMat P.p P.n) (wideCode P)) = some M') ∧
      (block P.k P.k (table (pi (turnMat P.p P.m) (turnMat P.p P.n) (wideCode P)))).det = 0 := by
  have hn := hP.wide_le hwide
  have hp := hP.lt_p
  have hp8 : 2 ^ 8 ≤ 2 ^ P.gfqBits := Nat.pow_le_pow_right (by decide) hP.eight_le
  exact sf_wideCommit hP.m_eq hP.k_eq (by omega) (wide_cast hP hwide) (isWide_wideCode P)

/-- What the commitment loop of Sage has come to before round `i`. -/
structure Committed (P : Params) (i : Nat) (s : SignState P) : Prop where
  seeds : ∃ stree, SeedsAgree P Arr.empty i stree s.sigma
  Atilde : s.Atilde.length = i
  Btilde : s.Btilde.length = i

theorem signCommit_wide (hP : Shared P) (hwide : P.p ≤ P.k) (hS : StartsWide P S)
    (alpha : List UInt8) {i : Nat} (hi : i < P.t) {s : SignState P} (hs : Committed P i s) :
    ∃ s', (signCommit P (fun _ => S) (wideCode P) alpha i s).Returns s' ∧
      Committed P (i + 1) s' := by
  obtain ⟨⟨Gtilde, hsf⟩, -⟩ := sf_commit_wide hP hwide
  obtain ⟨stree, hseeds⟩ := hs.seeds
  obtain ⟨seed, hlen, hset⟩ : ∃ seed : List UInt8, seed.length = P.stSeedBytes ∧
      (signAttempt P (fun _ => S) (wideCode P) alpha i s.sigma).Returns
        (.inr (s.sigma.set i (.bytes seed), turnMat P.p P.m, turnMat P.p P.n, Gtilde)) := by
    refine ⟨(xof (fun _ => S) (alpha ++ seedAt P stree P.seedTreeHeight i ++ addrBytes i)
      [P.pubSeedBytes, P.pubSeedBytes, P.stSeedBytes]).getD 2 [], ?_, ?_⟩
    · rw [xof_three]
      exact length_streamSlice _ _ _
    · unfold signAttempt
      rw [hseeds.get i (Nat.le_refl i) hi rfl]
      simp only [xofTuple_eq]
      refine Run.returns_bind.mpr ⟨_, expandInvMat_wide hP hwide hS hP.m_eq _,
        Run.returns_bind.mpr ⟨_, expandInvMat_wide hP hwide hS rfl _, ?_⟩⟩
      rw [hsf]
      exact Run.returns_pure.mpr rfl
  have hnext := hseeds.set hP hi hlen
  refine ⟨_, Run.returns_bind.mpr ⟨_, Run.returns_loop_break hset, Run.returns_pure.mpr rfl⟩,
    ⟨_, hnext.leafs, fun j hj => hnext.get j (Nat.le_of_succ_le hj)⟩, ?_, ?_⟩
  · rw [List.length_append, List.length_singleton, hs.Atilde]
  · rw [List.length_append, List.length_singleton, hs.Btilde]

theorem signCommitments_wide (hP : Shared P) (hwide : P.p ≤ P.k) (hS : StartsWide P S)
    {rho : List UInt8} (hrho : rho.length = P.stSeedBytes) (alpha : List UInt8) :
    ∃ s, (signCommitments P (fun _ => S) rho alpha (wideCode P)).Returns s ∧ Committed P P.t s := by
  have ht : 1 ≤ P.t := hP.one_le_w.trans hP.w_le
  obtain ⟨T, hT⟩ := exists_root hrho
  refine Run.forUpM_returns (Committed P) (Nat.zero_le P.t)
    (fun i s _ hi hs => signCommit_wide hP hwide hS alpha hi hs)
    ⟨⟨tHash P (fun _ => S) alpha T 0 0, rfl, fun j _ hj _ => ?_⟩, rfl, rfl⟩
  rw [← hT]
  exact ofRoot_get ht hP.height T hj

/-- C draws forever. -/
theorem commitLoop_wide {ε : Type} (hP : Shared P) (hwide : P.p ≤ P.k) (hS : StartsWide P S)
    {G0 : Arr UInt16} (h0 : Holds G0 (wideCode P)) (alpha : List UInt8) (i : Nat)
    (stree : Arr UInt8) :
    (Run.loop (Ref.commitAttempt P (fun _ => S) G0 alpha i) stree : Run ε _).Diverges := by
  have hk : P.k ≤ P.m * P.n := hP.sized.k_le
  refine Run.diverges_loop (I := fun _ => True) (fun stree _ => ?_) trivial
  have hxof := @xof_three (fun _ => S)
    (alpha ++ seedAt P stree P.seedTreeHeight i ++ addrBytes i) P.pubSeedBytes P.pubSeedBytes
    P.stSeedBytes
  obtain ⟨A, hA, hMA⟩ := (rndInvMatrix_matches hP.fieldSize P.m _).exists_of_returns
    (expandInvMat_wide hP hwide hS hP.m_eq _)
  obtain ⟨B, hB, hMB⟩ := (rndInvMatrix_matches hP.fieldSize P.n _).exists_of_returns
    (expandInvMat_wide hP hwide hS rfl _)
  have hpi := pi_holds hP hMA hMB h0.eq
  have hret : (pmodMatSystCt P (Ref.pi P A B G0) P.k (P.m * P.n)).1 = -1 := by
    rcases pmodMatSystCt_spec P.k (P.m * P.n) hpi.reduced hk hP.p_lt.le with
      ⟨hunit, -, -⟩ | ⟨-, hret⟩
    · rw [← block_table_block _ hk, hpi.eq, (sf_commit_wide hP hwide).2] at hunit
      exact absurd hunit not_isUnit_zero
    · exact hret
  refine ⟨stree.blit (sigmaOff P i)
      (streamSlice S (P.pubSeedBytes + P.pubSeedBytes) P.stSeedBytes),
    commitAttempt_returns.mpr ⟨_, _, _, A, B, hxof, length_streamSlice _ _ _, hA, hB, ?_⟩, trivial⟩
  rw [hret, if_neg (by decide)]

/-! ## The signer of C -/

/-- C does not come to a signature with any key. -/
theorem cryptoSign_wide_diverges (hP : Shared P) (hwide : P.p ≤ P.k) (hS : StartsWide P S)
    (bsBuf : Nat → Arr UInt8) (delta : List UInt8) (sm : Arr UInt8) (m : List UInt8)
    {sk : List UInt8} (hsk : sk.length = P.skBytes) :
    (Ref.cryptoSign P (fun _ => S) bsBuf delta sm m sk).Diverges := by
  have ht : 0 < P.t := Nat.lt_of_lt_of_le hP.one_le_w hP.w_le
  obtain ⟨sigmaG0, A, B, -, -, hload, -⟩ := @loadSecretKey_eq P (fun _ => S) sk _ hP hsk
  unfold Ref.cryptoSign
  rw [hload, bind_assoc]
  refine Run.diverges_bind (rndSysMat_safe _ _ _) fun G0 hG0 => ?_
  -- the expanded generator is the code
  obtain ⟨_, hM0, _, M0, heq, rfl, h0⟩ :=
    (rndSysMat_matches hP P.k P.m P.n hP.sized.k_le sigmaG0).forth _ hG0
  obtain rfl := Except.ok.inj heq
  rw [Run.Returns.unique hM0 (expandSystMat_wide hP hwide hS sigmaG0)] at h0
  rw [pure_bind]
  apply Run.Diverges.bind
  simp only [Arr.get_set_self]
  unfold Ref.signCommitments
  apply Run.Diverges.bind
  -- the first round of the commitment loop
  rw [forUpM_first ht]
  exact Run.Diverges.bind (Run.Diverges.bind (commitLoop_wide hP hwide hS h0 _ _ _) _) _

/-- C does not come to a signature with a new key either. -/
theorem refKeypairSign_wide (hP : Shared P) (hwide : P.p ≤ P.k) (hS : StartsWide P S)
    (bsBuf : Nat → Arr UInt8) (delta₁ delta₂ m : List UInt8) (pk sk sm : Arr UInt8) :
    (refKeypairSign P (fun _ => S) bsBuf delta₁ delta₂ m pk sk sm).Diverges := by
  unfold refKeypairSign
  rw [cryptoSignKeypair_eq_copyKeys]
  refine Run.diverges_bind (Run.safe_bind (keypairMatrices_safe _) fun _ _ => Run.safe_pure _)
    fun ⟨_, pk', sk'⟩ _ => ?_
  exact Run.Diverges.bind (cryptoSign_wide_diverges hP hwide hS bsBuf delta₂ sm m
    (Arr.length_slice _ _ _)) _

/-! ## The signer of Sage -/

/-- The matrices of the secret key are there for every challenge. -/
theorem signResponse_wide (hP : Shared P) {Ainv : List (Mat P.p P.m P.m)}
    {Binv : List (Mat P.p P.n P.n)} (hA : 1 + Ainv.length = P.s) (hB : 1 + Binv.length = P.s)
    {st : SignState P} (hst : Committed P P.t st) {h : Arr UInt8} {i : Nat} (hi : i < P.t)
    (hvalue : (h.get i).toNat < P.s) (ret : List UInt8) :
    ∃ ret', (signResponse P Ainv Binv st (challengeList P h) i ret).Returns ret' := by
  have hw : 8 ≤ gfBits P.p := hP.gfBits_eq ▸ hP.eight_le
  have hAt := hst.Atilde
  have hBt := hst.Btilde
  rw [signResponse, getD_challengeList hi]
  by_cases hpos : (h.get i).toNat > 0
  · rw [if_pos hpos, List.getElem?_eq_getElem (show i < st.Atilde.length by omega),
      List.getElem?_eq_getElem (show i < st.Btilde.length by omega),
      List.getElem?_eq_getElem (show (h.get i).toNat - 1 < Ainv.length by omega),
      List.getElem?_eq_getElem (show (h.get i).toNat - 1 < Binv.length by omega)]
    simp only [Run.ofOption_some, pure_bind, compress_eq hw]
    exact ⟨_, Run.returns_pure.mpr rfl⟩
  · rw [if_neg hpos]
    exact ⟨ret, Run.returns_pure.mpr rfl⟩

/-- Sage comes to a signature with every key, if the challenge is drawn to the end. -/
theorem cryptoSign_wide (hP : Shared P) (hwide : P.p ≤ P.k) (hS : StartsWide P S)
    (hparse : ∀ digest, ∃ h, (parseHash P (fun _ => S) digest).Returns h) (delta m : List UInt8)
    {sk : List UInt8} (hsk : sk.length = P.skBytes) :
    ∃ sm, (cryptoSign P (fun _ => S) delta sk m).Returns sm := by
  have ht : 1 ≤ P.t := hP.one_le_w.trans hP.w_le
  obtain ⟨sigmaG0, _, _, Ainv, Binv, -, hload, hA, hB⟩ :=
    @loadSecretKey_eq P (fun _ => S) sk _ hP hsk
  have hrho := length_streamSlice S 0 P.stSeedBytes
  obtain ⟨st, hst, hcommitted⟩ := signCommitments_wide hP hwide hS hrho
    (streamSlice S P.stSeedBytes P.stSaltBytes)
  obtain ⟨comp, hcomp⟩ := compressAll_pure hP st.Gtilde
  -- the challenge of Sage is the one of C
  obtain ⟨l, hl⟩ := hparse (hash P (fun _ => S) (comp ++ m))
  obtain ⟨⟨ret, h⟩, hh, -, hlist⟩ := (parseHash_matches (ε := Fault) hP.challengeSizes _
    Arr.empty).exists_of_returns hl
  have hvalues := (parseHash_returns (Nat.le_of_succ_le hP.two_le_s) hh).values
  obtain rfl := hlist.eq_challengeList
  obtain ⟨resp, hresp, -⟩ := Run.forUpM_returns (fun _ _ => True) (Nat.zero_le P.t)
    (fun i ret _ hi _ => by
      obtain ⟨ret', hr⟩ := signResponse_wide hP hA.length hB.length hcommitted hi (hvalues i hi) ret
      exact ⟨ret', hr, trivial⟩) (s := ([] : List UInt8)) trivial
  obtain ⟨p, hp⟩ : ∃ p, seedTreeToPath P (fun _ => S) (challengeList P h)
      (streamSlice S 0 P.stSeedBytes) (streamSlice S P.stSeedBytes P.stSaltBytes) = pure p := by
    obtain ⟨T, hT⟩ := exists_root hrho
    rw [← hT]
    exact ⟨_, seedTreeToPath_eq ht hP.height T h⟩
  refine ⟨resp ++ p ++ hash P (fun _ => S) (comp ++ m)
    ++ streamSlice S P.stSeedBytes P.stSaltBytes ++ m, ?_⟩
  unfold cryptoSign
  rw [hload, bind_assoc]
  refine Run.returns_bind.mpr ⟨_, expandSystMat_wide hP hwide hS sigmaG0, ?_⟩
  simp only [pure_bind, xofTuple_eq, xof_two, List.getD_cons_zero, List.getD_cons_succ]
  refine Run.returns_bind.mpr ⟨st, hst, ?_⟩
  change (ofExcept (compressAll P st.Gtilde) >>= _ : Run PyError _).Returns _
  rw [hcomp]
  refine Run.returns_bind.mpr ⟨comp, Run.returns_pure.mpr rfl, Run.returns_bind.mpr ⟨_, hl, ?_⟩⟩
  refine Run.returns_bind.mpr ⟨resp, hresp, ?_⟩
  rw [hp]
  exact Run.returns_bind.mpr ⟨_, Run.returns_pure.mpr rfl, Run.returns_pure.mpr rfl⟩

/-! ## When the signers agree -/

/-- Sage comes to a key pair and a signature from which C does not. -/
theorem sageKeypairSign_wide (hP : Shared P) (hwide : P.p ≤ P.k) (hS : StartsWide P S)
    (hparse : ∀ digest, ∃ h, (parseHash P (fun _ => S) digest).Returns h)
    {delta₁ : List UInt8} (hdelta : delta₁.length = P.secSeedBytes) (delta₂ m : List UInt8) :
    ∃ r, (sageKeypairSign P (fun _ => S) delta₁ delta₂ m).Returns r := by
  obtain ⟨sk, pk, hkeys, hsk⟩ := cryptoSignKeypair_wide hP hwide hS hdelta
  obtain ⟨sm, hsm⟩ := cryptoSign_wide hP hwide hS hparse delta₂ m hsk
  unfold sageKeypairSign
  exact ⟨(pk, sk, sm), Run.returns_bind.mpr ⟨_, hkeys, Run.returns_bind.mpr ⟨sm, hsm,
    Run.returns_pure.mpr rfl⟩⟩⟩

theorem not_signersAgree (hP : Shared P) (hwide : P.p ≤ P.k) : ¬ SignersAgree P := by
  intro h
  -- the code, and behind it whatever the challenge needs
  obtain ⟨S, hS, hparse⟩ := exists_parseHash hP.challengeSizes hP.w_le (2 * wideLength P.n)
    (wideBytes P.n (P.n - P.p))
  have hdelta : (List.replicate P.secSeedBytes (0 : UInt8)).length = P.secSeedBytes :=
    List.length_replicate
  obtain ⟨r', hr'⟩ := sageKeypairSign_wide hP hwide hS hparse hdelta
    (List.replicate P.secSeedBytes 0) []
  obtain ⟨r, hr, -⟩ := (h (fun _ => S) (fun _ => Arr.empty) _ _ [] Arr.empty Arr.empty Arr.empty
    hdelta hdelta fun _ => rfl).exists_of_returns hr'
  exact refKeypairSign_wide hP hwide hS (fun _ => Arr.empty) _ _ [] Arr.empty Arr.empty Arr.empty
    _ hr

/-- The two key generators and signers agree exactly for codes with fewer rows
    than the field has elements. -/
theorem signersAgree_iff (hP : Shared P) : SignersAgree P ↔ P.k < P.p := by
  constructor
  · intro h
    by_contra hwide
    exact not_signersAgree hP (Nat.le_of_not_lt hwide) h
  · exact signersAgree_of_lt hP

/-- So do the two signers by themselves, asked for every secret key. -/
theorem signaturesAgree_iff (hP : Shared P) : SignaturesAgree P ↔ P.k < P.p := by
  constructor
  · intro h
    by_contra hwide
    obtain ⟨S, hS, hparse⟩ := exists_parseHash hP.challengeSizes hP.w_le (2 * wideLength P.n)
      (wideBytes P.n (P.n - P.p))
    have hsk : (List.replicate P.skBytes (0 : UInt8)).length = P.skBytes := List.length_replicate
    obtain ⟨sm', hsm'⟩ := cryptoSign_wide hP (Nat.le_of_not_lt hwide) hS hparse [] [] hsk
    obtain ⟨r, hr, -⟩ := (h (fun _ => S) (fun _ => Arr.empty) [] [] _ Arr.empty hsk
      fun _ => rfl).exists_of_returns hsm'
    exact cryptoSign_wide_diverges hP (Nat.le_of_not_lt hwide) hS _ [] Arr.empty [] hsk _ hr
  · intro hkp SHAKE256 bsBuf delta m sk sm hsk hsm
    exact cryptoSign_matches hP hkp bsBuf delta hsm m hsk

end

theorem signersAgree_iff_two : SignersAgree (rows257 2) ↔ 2 < 257 :=
  signersAgree_iff (rows257_shared (Nat.le_refl 2))

theorem signaturesAgree_iff_two : SignaturesAgree (rows257 2) ↔ 2 < 257 :=
  signaturesAgree_iff (rows257_shared (Nat.le_refl 2))

/-! ## 257 rows over GF(257) -/

/-- The bytes that are taken as a value are at even places, and there are two of
    them behind the first byte. -/
theorem wideBytes_257 :
    (∀ q, ¬ Rejected (rows257 257) (valOf (rows257 257) (wideBytes 257 0 q)) → q % 2 = 0) ∧
      ∃ q₁ q₂, 1 ≤ q₁ ∧ q₁ + 2 ≤ q₂ ∧
        ¬ Rejected (rows257 257) (valOf (rows257 257) (wideBytes 257 0 q₁)) ∧
        ¬ Rejected (rows257 257) (valOf (rows257 257) (wideBytes 257 0 q₂)) := by
  refine ⟨fun q hq => ?_, 2 * (257 * 257 + 256), 2 * (257 * 257 + 2 * 257), by decide, by decide,
    ?_, ?_⟩
  · by_contra hodd
    rw [wideBytes, if_neg hodd] at hq
    exact hq (by decide)
  · decide +kernel
  · decide +kernel

/-- The first byte gives position 1, and the byte behind a value gives position 0. -/
theorem parseHash_257 (digest : List UInt8) :
    ∃ h, (parseHash (rows257 257) (fun _ => wideBytes 257 0) digest).Returns h := by
  obtain ⟨heven, q₁, q₂, h1, h12, htake₁, htake₂⟩ := wideBytes_257
  have hs : numBytes (rows257 257).s = 1 := by decide
  have ht : numBytes (rows257 257).t = 1 := by decide
  obtain ⟨p₁, hlo₁, hhi₁, hval₁, hr₁⟩ := exists_drawn hs digest h1 htake₁
  obtain ⟨p₂, hlo₂, hhi₂, hval₂, hr₂⟩ := exists_drawn hs digest
    (show p₁ + 2 ≤ q₂ by omega) htake₂
  have hfirst : posOf (rows257 257) (wideBytes 257 0) 0 = 1 := by decide +kernel
  have hsecond : posOf (rows257 257) (wideBytes 257 0) (p₁ + 1) = 0 := by
    have hodd : ¬ (p₁ + 1) % 2 = 0 := by
      have := heven p₁ hval₁
      omega
    have hzero : streamSlice (wideBytes 257 0) (p₁ + 1) 1 = [0] := by
      simp [streamSlice, wideBytes, hodd]
    rw [posOf, ht, hzero]
    decide
  rw [parseHash_eq]
  refine ⟨_, hashLoop_take (by decide) (by rw [hfirst]; decide) (by rw [hfirst]; decide)
    (by rw [ht]; exact hr₁) (hashLoop_take (by decide) (by rw [hsecond]; decide) ?_
      (by rw [ht]; exact hr₂) (hashLoop_done (by decide)))⟩
  rw [hsecond, hfirst]
  exact Nat.lt_irrefl 0

/-- With 257 rows over GF(257), random bytes from which C runs forever and Sage comes
    to keys and a signature. -/
theorem signers_differ_257 :
    (refKeypairSign (rows257 257) (fun _ => wideBytes 257 0) (fun _ => Arr.empty) [0] [0] []
        Arr.empty Arr.empty Arr.empty).Diverges ∧
      (∃ r, (sageKeypairSign (rows257 257) (fun _ => wideBytes 257 0) [0] [0] []).Returns r) ∧
      ¬ SignersAgree (rows257 257) :=
  have hP := rows257_shared (show 2 ≤ 257 by decide)
  have hS : StartsWide (rows257 257) (wideBytes 257 0) := SameUpTo.refl _ _
  ⟨refKeypairSign_wide hP (Nat.le_refl 257) hS _ _ _ _ _ _ _,
    sageKeypairSign_wide hP (Nat.le_refl 257) hS parseHash_257 rfl _ _,
    not_signersAgree hP (Nat.le_refl 257)⟩

end Meds.Sage
