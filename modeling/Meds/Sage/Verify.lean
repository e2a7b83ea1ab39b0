/-
  Meds.Sage.Verify

  `crypto_sign_open` of meds_serial.c and of meds.sage.

  C walks through one buffer with a bit stream, Sage cuts slices off its front,
  so before every round the stream of C stands where the next slice of Sage
  starts (`OpenAgree`).  A round either ends both programs in rejection or
  leaves the same commitment: C has hashed what Sage will compress at the end.
  With fewer rows than field elements the tests of the two programs agree.
-/

import Meds.Ref.Commit
import Meds.Sage.Challenge
import Meds.Sage.Coding
import Meds.Sage.MedsSign
import Meds.Sage.SeedTreeAgree

namespace Meds.Sage

open Meds.Core Meds.Ref

variable {P : Params} {SHAKE256 : Shake} {ε : Type}

/-! ## The public key -/

theorem packedBytes_eq (hP : Shared P) (len : Nat) :
    packedBytes P.p len = byteLen (P.gfqBits * len) := by
  rw [packedBytes, hP.gfBits_eq, Nat.mul_comm len]
  unfold ceiling byteLen
  omega

theorem lGi_eq (hP : Shared P) : lGi P = byteLen (P.gfqBits * P.pkEntries) := by
  rw [lGi, packedBytes_eq hP, pkEntries_eq hP, hP.m_eq, hP.k_eq, Nat.add_comm]

/-- The bytes of generator `i`. -/
def genBytes (P : Params) (pk : List UInt8) (i : Nat) : List UInt8 :=
  (pk.drop (P.pubSeedBytes + lGi P * (i - 1))).take (lGi P)

/-- The array of generators and the list of Sage, which decodes them from the
    public key.  `G[0]` is reduced. -/
structure KeysAgree (P : Params) (pk : List UInt8) (hi : Nat) (G : Arr (Arr UInt16))
    (l : List (Gen P)) : Prop where
  length : l.length = hi
  get : ∀ i (h : i < l.length), block P.k (P.m * P.n) (ent P (P.m * P.n) (G.get i)) = l[i]
  zero : ∀ h : 0 < l.length, Holds (G.get 0) l[0]
  decoded : ∀ i (h : i < l.length), 1 ≤ i →
    decompressG (genBytes P pk i) P.p P.k P.m P.n = pure l[i]

theorem KeysAgree.concat {pk : List UInt8} {hi : Nat} (h1 : 1 ≤ hi) {G : Arr (Arr UInt16)}
    {l : List (Gen P)} (h : KeysAgree P pk hi G l) {Gi : Arr UInt16} {M : Gen P}
    (hM : block P.k (P.m * P.n) (ent P (P.m * P.n) Gi) = M)
    (hdec : decompressG (genBytes P pk hi) P.p P.k P.m P.n = pure M) :
    KeysAgree P pk (hi + 1) (G.set hi Gi) (l ++ [M]) := by
  obtain ⟨hlen, hget, hzero, hold⟩ := h
  refine ⟨by rw [List.length_append, hlen, List.length_singleton], fun i hi' => ?_, fun h0 => ?_,
    fun i hi' hi1 => ?_⟩
  · by_cases hih : i = hi
    · subst hih
      rw [Arr.get_set_self, List.getElem_append_right (by omega)]
      simpa [hlen] using hM
    · have hlt : i < l.length := by
        rw [List.length_append, List.length_singleton] at hi'
        omega
      rw [Arr.get_set_ne _ _ hih, List.getElem_append_left hlt]
      exact hget i hlt
  · rw [Arr.get_set_ne _ _ (by omega), List.getElem_append_left (by omega)]
    exact hzero (by omega)
  · by_cases hih : i = hi
    · subst hih
      rw [List.getElem_append_right (by omega)]
      simpa [hlen] using hdec
    · have hlt : i < l.length := by
        rw [List.length_append, List.length_singleton] at hi'
        omega
      rw [List.getElem_append_left hlt]
      exact hold i hlt hi1

/-- Both loops over the generators of the public key. -/
theorem readKeys_agree (hP : Shared P) {pk : List UInt8} (hpk : pk.length = P.pkBytes)
    {G0 : Arr UInt16} {M0 : Gen P} (h0 : Holds G0 M0) {hi : Nat} (h1 : 1 ≤ hi) (hhi : hi ≤ P.s) :
    ∃ G l, forUpM 1 hi
          (fun i (s : Arr (Arr UInt16) × BitstreamT) => do
            let (Gi, bs) ← readPkMatrix P (fun i => pk[P.pubSeedBytes + i]?) s.2
            pure (s.1.set i Gi, bs))
          (Arr.empty.set 0 G0, cursor (P.pkBytes - P.pubSeedBytes) 0 P.gfqBits 0)
        = some (G, cursor (P.pkBytes - P.pubSeedBytes)
            (byteLen (P.gfqBits * P.pkEntries) * (hi - 1)) P.gfqBits 0) ∧
      (forUpM 1 hi
          (fun _ (s : List (Gen P) × Nat) => do
            let Gi ← ofExcept (decompressG ((pk.drop s.2).take (lGi P)) P.p P.k P.m P.n)
            pure (s.1 ++ [Gi], s.2 + lGi P))
          ([M0], P.pubSeedBytes) : Run PyError _)
        = pure (l, P.pubSeedBytes + byteLen (P.gfqBits * P.pkEntries) * (hi - 1)) ∧
      KeysAgree P pk hi G l := by
  have hsize := pkSize_eq P
  rw [← hP.pk_eq] at hsize
  obtain ⟨L, hL⟩ : ∃ L, L = byteLen (P.gfqBits * P.pkEntries) := ⟨_, rfl⟩
  rw [← hL] at hsize ⊢
  induction hi, h1 using Nat.le_induction with
  | base =>
      refine ⟨Arr.empty.set 0 G0, [M0], by rw [forUpM_self, Nat.sub_self, Nat.mul_zero]; rfl,
        by rw [forUpM_self, Nat.sub_self, Nat.mul_zero, Nat.add_zero], rfl, ?_, fun _ => ?_, ?_⟩
      · intro i hi
        obtain rfl : i = 0 := by simpa using hi
        rw [Arr.get_set_self]
        exact h0.eq
      · rw [Arr.get_set_self]
        exact h0
      · intro i hi hi1
        obtain rfl : i = 0 := by simpa using hi
        exact absurd hi1 (by decide)
  | succ hi hle ih =>
      obtain ⟨G, l, hG, hl, hK⟩ := ih (by omega)
      have hroom : L * (hi - 1) + L ≤ L * (P.s - 1) := by
        rw [← Nat.mul_succ]
        exact Nat.mul_le_mul_left _ (by omega)
      have hnext : L * (hi + 1 - 1) = L * (hi - 1) + L := by
        rw [← Nat.mul_succ, Nat.succ_eq_add_one, Nat.sub_add_cancel hle, Nat.add_sub_cancel]
      -- the slice that Sage decompresses is the block that C reads
      have hslice : ((pk.drop (P.pubSeedBytes + L * (hi - 1))).take (lGi P)).length = L := by
        rw [lGi_eq hP, ← hL, List.length_take, List.length_drop]
        omega
      obtain ⟨Gi, M, hread, hdec, hM⟩ := @readPkMatrix_decompressG P hP
        (fun i => pk[P.pubSeedBytes + i]?) (fun i => pk.getD (P.pubSeedBytes + i) 0)
        (P.pkBytes - P.pubSeedBytes) (L * (hi - 1)) _ (by rw [← hL]; omega)
        (fun j hj => by
          rw [List.getD_eq_getElem _ _ (by omega), List.getElem?_eq_getElem (by omega)])
        (by rw [← hL]; exact hslice)
        (fun i hi => by
          rw [List.getD_eq_getElem _ _ hi, List.getElem_take, List.getElem_drop,
            List.getD_eq_getElem _ _ (by omega)]
          congr 1
          omega)
      have hbytes : genBytes P pk hi = (pk.drop (P.pubSeedBytes + L * (hi - 1))).take (lGi P) := by
        rw [genBytes, lGi_eq hP, ← hL]
      refine ⟨G.set hi Gi, l ++ [M], ?_, ?_, hK.concat hle hM (by rw [hbytes]; exact hdec)⟩
      · rw [forUpM_succ hle, hG]
        change (readPkMatrix P _ _ >>= _) = _
        rw [hread, hnext, ← hL]
        rfl
      · rw [forUpM_succ hle, hl, pure_bind]
        simp only
        rw [hdec, hnext, lGi_eq hP, ← hL, ← Nat.add_assoc]
        rfl

/-- `readBytes` on the front of a list. -/
theorem readBytes_take {l : List UInt8} {off len : Nat} (h : off + len ≤ l.length) :
    readBytes (fun i => l[i]?) off len = some ((l.drop off).take len) := by
  have hlen : ((l.drop off).take len).length = len := by
    rw [List.length_take, List.length_drop]
    omega
  have := readBytes_eq_some (fun i => l[i]?) off (l := (l.drop off).take len) fun j hj => by
    rw [List.getD_eq_getElem _ _ hj, List.getElem_take, List.getElem_drop,
      List.getElem?_eq_getElem (by omega)]
  rwa [hlen] at this

/-- Both programs rebuild the same generators. -/
theorem loadPublicKey_matches [Fact P.p.Prime] (hP : Shared P) {pk : List UInt8}
    (hpk : pk.length = P.pkBytes) :
    Run.Matches (Run.Values (KeysAgree P pk P.s)) (loadPublicKey P SHAKE256 pk)
      (openKeys P SHAKE256 pk) := by
  have hsize := pkSize_eq P
  rw [← hP.pk_eq] at hsize
  have hk : P.k ≤ P.m * P.n := by
    rw [hP.k_eq, hP.m_eq]
    exact le_sq P
  unfold loadPublicKey openKeys
  rw [readBytes_take (by omega), Run.ofOption_some, pure_bind, List.drop_zero]
  apply (rndSysMat_matches hP P.k P.m P.n hk _).bind_values
  intro G0 M0 h0
  obtain ⟨G, l, hG, hl, hK⟩ := readKeys_agree hP hpk h0 (Nat.le_of_succ_le hP.two_le_s)
    (Nat.le_refl P.s)
  rw [cursor_zero] at hG
  simp only [bsInit]
  rw [hG, hl]
  exact Run.Matches.values hK

/-! ## A response -/

/-- Both programs reject a response, or both go on with the same generator
    behind it. -/
def ResponseAgree (P : Params) (o : Nat)
    (r : Except Fault (Option (Arr UInt16 × BitstreamT))) (r' : Except PyError (Gen P × Nat)) :
    Prop :=
  (r = .ok none ∧ r' = .error .badSignatureError) ∨
    ∃ Ghat Ghat', r = .ok (some (Ghat, cursor (munuBytes P) o P.gfqBits 0)) ∧
      r' = .ok (Ghat', o) ∧ Holds Ghat Ghat'

theorem matBytes_eq (hP : Shared P) {r : Nat} (hr : r = P.n) :
    packedBytes P.p (r * r) = matBytes P := by
  rw [packedBytes_eq hP, hr, matBytes]

/-- Reading one matrix of a response, of either order. -/
theorem readMatrix_agree (hP : Shared P) {sm : List UInt8} (hsm : munuBytes P ≤ sm.length) {r : Nat}
    (hr : r = P.n) {x : Nat} (hx : x + matBytes P ≤ munuBytes P) :
    ∃ (A : Arr UInt16) (M : Mat P.p r r),
      readResponse P (fun i => sm[i]?) r (cursor (munuBytes P) x P.gfqBits 0)
          = some (A, cursor (munuBytes P) (x + matBytes P) P.gfqBits 0) ∧
        decompress (((sm.take (munuBytes P)).drop x).take (matBytes P)) P.p r r = pure M ∧
        Holds A M := by
  have hn := hP.two_le_n
  have hbytes : byteLen (P.gfqBits * (r * r)) = matBytes P := by rw [hr, matBytes]
  have hlen : (((sm.take (munuBytes P)).drop x).take (matBytes P)).length = matBytes P := by
    rw [List.length_take, List.length_drop, List.length_take]
    omega
  have := @readResponse_decompress P hP r (by omega) (fun i => sm[i]?) (fun i => sm.getD i 0)
    (munuBytes P) x _ (by rw [hbytes]; exact hx)
    (fun j hj => by rw [List.getD_eq_getElem _ _ (by omega), List.getElem?_eq_getElem (by omega)])
    (by rw [hbytes]; exact hlen)
    (fun i hi => by
      rw [List.getD_eq_getElem _ _ hi, List.getElem_take, List.getElem_drop, List.getElem_take,
        List.getD_eq_getElem])
  rwa [hbytes] at this

theorem openResponse_matches [Fact P.p.Prime] (hP : Shared P) (hkp : P.k < P.p) {sm : List UInt8}
    (hsm : munuBytes P ≤ sm.length) {o : Nat}
    (hfit : o + (matBytes P + matBytes P) ≤ munuBytes P) {G : Arr UInt16} {M : Gen P}
    (hG : block P.k (P.m * P.n) (ent P (P.m * P.n) G) = M) :
    Run.Matches (ResponseAgree P (o + (matBytes P + matBytes P)))
      (Ref.openResponse P (fun i => sm[i]?) G (cursor (munuBytes P) o P.gfqBits 0))
      (openResponse P (sm.take (munuBytes P)) M o) := by
  obtain ⟨mu, MA, hmu, hMA, hA⟩ := readMatrix_agree hP hsm hP.m_eq (x := o) (by omega)
  obtain ⟨nu, MB, hnu, hMB, hB⟩ := readMatrix_agree hP hsm rfl (x := o + matBytes P) (by omega)
  have hk : P.k ≤ P.m * P.n := by
    rw [hP.k_eq, hP.m_eq]
    exact le_sq P
  -- every rejection of C is a BadSignatureError of Sage
  have hreject : Run.Matches (ResponseAgree P (o + (matBytes P + matBytes P)))
      (pure none : Run Fault (Option (Arr UInt16 × BitstreamT)))
      (Run.fail PyError.badSignatureError : Run PyError (Gen P × Nat)) :=
    Run.Matches.pure_fail (Or.inl ⟨rfl, rfl⟩)
  unfold Ref.openResponse openResponse
  rw [hmu, matBytes_eq hP hP.m_eq, matBytes_eq hP rfl, hMA, Run.ofOption_some, pure_bind]
  change Run.Matches _ (Run.ofOption _ (readResponse P _ P.n _) >>= _) (ofExcept (decompress _ _ _ _) >>= _)
  rw [hnu, hMB, Run.ofOption_some, pure_bind]
  change Run.Matches _ (if _ then _ else _) (if _ then _ else _)
  have hmuInv := pmodMatSystCt_isInvertible hP hA
  have hnuInv := pmodMatSystCt_isInvertible hP hB
  by_cases hmu0 : (pmodMatSystCt P mu P.m P.m).1 ≠ 0
  · rw [if_pos hmu0, hmuInv.mp hmu0]
    exact hreject
  by_cases hnu0 : (pmodMatSystCt P nu P.n P.n).1 ≠ 0
  · rw [if_neg hmu0, if_pos hnu0, hnuInv.mp hnu0, Bool.not_false, Bool.or_true]
    exact hreject
  -- mu and nu are invertible for both; what is left is the systematic form
  have hmuTrue : isInvertible MA = true := Bool.not_eq_false _ ▸ mt hmuInv.mpr hmu0
  have hnuTrue : isInvertible MB = true := Bool.not_eq_false _ ▸ mt hnuInv.mpr hnu0
  rw [if_neg hmu0, if_neg hnu0, hmuTrue, hnuTrue, if_neg (by decide)]
  rcases pmodMatSystCt_sf hP hk hkp (pi_holds hP hA hB hG) with ⟨hret, Ghat, hsf, hGhat⟩ | ⟨hret, hsf⟩
  · simp only [hret, hsf]
    rw [if_neg (by decide)]
    exact Run.Matches.pure (Or.inr ⟨_, _, by rw [← Nat.add_assoc], by rw [← Nat.add_assoc], hGhat⟩)
  · simp only [hret, hsf]
    rw [if_pos (by decide)]
    exact hreject

/-! ## A commitment -/

/-- The leaves from `i` on that are not challenged hold the same seeds. -/
structure SeedsAgree (P : Params) (h : Arr UInt8) (i : Nat) (stree : Arr UInt8) (sigma : SeedTree) :
    Prop where
  leafs : sigma.leafs = P.t
  get : ∀ j, i ≤ j → j < P.t → h.get j = 0 →
    sigma.get j = .bytes (seedAt P stree P.seedTreeHeight j)

/-- Both programs replace a leaf. -/
theorem SeedsAgree.set (hP : Shared P) {h : Arr UInt8} {i : Nat} {stree : Arr UInt8}
    {sigma : SeedTree} (hS : SeedsAgree P h i stree sigma) (hi : i < P.t) {seed : List UInt8}
    (hlen : seed.length = P.stSeedBytes) :
    SeedsAgree P h i (stree.blit (sigmaOff P i) seed) (sigma.set i (.bytes seed)) := by
  have hpow : P.t ≤ 2 ^ Nat.clog 2 P.t := Nat.le_pow_clog (by decide) P.t
  have hleaf := seedAt_blit_sigmaOff (P := P) stree (i := i) (by rw [hP.height]; omega) seed hlen
  refine ⟨hS.leafs, fun j h1 h2 h3 => ?_⟩
  have hget : (sigma.set i (.bytes seed)).get j = if j = i then .bytes seed else sigma.get j :=
    Node.get_set sigma.root _ (by rw [hS.leafs]; omega) (by rw [hS.leafs]; omega)
  rw [hget]
  by_cases hji : j = i
  · rw [if_pos hji, hji, hleaf.1]
  · rw [if_neg hji, hleaf.2 _ _ (by rw [hP.height]; omega) (fun h => hji h.2), hS.get j h1 h2 h3]

/-- One round of the loop for a commitment of `crypto_sign`.  Only leaf `i` of
    the tree changes. -/
theorem signAttempt_matches [Fact P.p.Prime] (hP : Shared P) (hkp : P.k < P.p) {G0 : Arr UInt16}
    {M0 : Gen P} (h0 : Holds G0 M0) (alpha : List UInt8) {h : Arr UInt8} {i : Nat} (hi : i < P.t)
    (hfree : h.get i = 0) {T stree : Arr UInt8} {sigma : SeedTree} (hS : SeedsAgree P h i stree sigma)
    (hT : SameButLeaf P i T stree) :
    Run.Matches (Run.Matches.Round (fun s s' => SeedsAgree P h i s s' ∧ SameButLeaf P i T s)
        (Run.Values fun r r' => (SeedsAgree P h i r.1 r'.1 ∧ SameButLeaf P i T r.1) ∧
          Holds r.2.1 r'.2.1 ∧ Holds r.2.2.1 r'.2.2.1 ∧ Holds r.2.2.2 r'.2.2.2))
      (Ref.commitAttempt P SHAKE256 G0 alpha i stree : Run ε _)
      (signAttempt P SHAKE256 M0 alpha i sigma) := by
  have hk : P.k ≤ P.m * P.n := by
    rw [hP.k_eq, hP.m_eq]
    exact le_sq P
  have hslice : stree.slice (sigmaOff P i) P.stSeedBytes = seedAt P stree P.seedTreeHeight i := by
    rw [sigmaOff_eq]
    rfl
  have hlen : ((xof SHAKE256 (alpha ++ seedAt P stree P.seedTreeHeight i ++ addrBytes i)
      [P.pubSeedBytes, P.pubSeedBytes, P.stSeedBytes]).getD 2 []).length = P.stSeedBytes := by
    rw [xof_three]
    exact length_streamSlice _ _ _
  have hpow : P.t ≤ 2 ^ P.seedTreeHeight := hP.height ▸ Nat.le_pow_clog (by decide) P.t
  unfold Ref.commitAttempt signAttempt
  rw [hS.get i (Nat.le_refl i) hi hfree, hslice]
  simp only [xofTuple_eq]
  apply (rndInvMatrix_matches hP.fieldSize P.m _).bind_values
  intro A MA hA
  apply (rndInvMatrix_matches hP.fieldSize P.n _).bind_values
  intro B MB hB
  -- the leaf is replaced whether the round succeeds or not
  have hset := hS.set hP hi hlen
  have hsame := hT.trans (seedAt_blit_sigmaOff stree (hi.trans_le hpow) _ hlen).2
  rcases pmodMatSystCt_sf hP hk hkp (pi_holds hP hA hB h0.eq) with ⟨hret, Ghat, hsf, hGhat⟩ | ⟨hret, hsf⟩
  · simp only [hret, hsf]
    rw [if_pos trivial]
    exact Run.Matches.round_break ⟨_, _, rfl, rfl, ⟨hset, hsame⟩, hA, hB, hGhat⟩
  · simp only [hret, hsf]
    rw [if_neg (by decide)]
    exact Run.Matches.round_continue ⟨hset, hsame⟩

/-- The loop for a commitment of `crypto_sign_open` forgets the two matrices. -/
theorem commitAttempt_eq [Fact P.p.Prime] (G0 : Gen P) (alpha : List UInt8) (i : Nat)
    (sigma : SeedTree) : commitAttempt P SHAKE256 G0 alpha i sigma
      = signAttempt P SHAKE256 G0 alpha i sigma >>= fun r =>
          pure (r.map id fun q => (q.1, q.2.2.2)) := by
  unfold commitAttempt signAttempt
  cases sigma.get i with
  | bytes seed =>
      simp only [bind_assoc]
      refine bind_congr fun A => bind_congr fun B => ?_
      cases sf (pi A B G0) <;> rfl
  | none => rfl
  | object => rfl

/-- One round of the loop for a commitment of `crypto_sign_open`. -/
theorem commitAttempt_matches [Fact P.p.Prime] (hP : Shared P) (hkp : P.k < P.p) {G0 : Arr UInt16}
    {M0 : Gen P} (h0 : Holds G0 M0) (alpha : List UInt8) {h : Arr UInt8} {i : Nat} (hi : i < P.t)
    (hfree : h.get i = 0) {stree : Arr UInt8} {sigma : SeedTree} (hS : SeedsAgree P h i stree sigma) :
    Run.Matches (Run.Matches.Round (SeedsAgree P h i)
        (Run.Values fun r r' => SeedsAgree P h i r.1 r'.1 ∧ Holds r.2.2.2 r'.2))
      (Ref.commitAttempt P SHAKE256 G0 alpha i stree : Run Fault _)
      (commitAttempt P SHAKE256 M0 alpha i sigma) := by
  rw [commitAttempt_eq]
  apply (signAttempt_matches hP hkp h0 alpha hi hfree hS fun _ _ _ _ => rfl).map_right
  rintro _ _ (⟨s, s', rfl, rfl, hs, -⟩ | ⟨_, _, hr, hr', ⟨r, r', rfl, rfl, ⟨hs, -⟩, -, -, hG⟩⟩)
  · exact Or.inl ⟨s, s', rfl, rfl, hs⟩
  · exact Or.inr ⟨_, _, hr, Run.roundEnd_map hr', r, (r'.1, r'.2.2.2), rfl, rfl, hs, hG⟩

/-! ## The rounds -/

/-- What Sage compresses at the end. -/
def compressAll (P : Params) (Ghat : List (Gen P)) : Except PyError (List UInt8) :=
  Ghat.foldlM
    (fun comp G => do
      let data ← compress (dropColumns P.k G)
      pure (comp ++ data))
    []

theorem compressAll_concat [Fact P.p.Prime] (hP : Shared P) {l : List (Gen P)} {comp : List UInt8}
    (hl : compressAll P l = pure comp) (bsBuf : Arr UInt8) {A : Arr UInt16} {M : Gen P}
    (h : Holds A M) : compressAll P (l ++ [M]) = pure (comp ++ packCommitment P bsBuf A) := by
  rw [compressAll] at hl ⊢
  rw [List.foldlM_append, hl, pure_bind, List.foldlM_cons, packCommitment_compress hP bsBuf h,
    pure_bind]
  rfl

/-- Both programs before round `i`. -/
structure OpenAgree (P : Params) (h : Arr UInt8) (i : Nat) (s : Ref.OpenState) (s' : OpenState P) :
    Prop where
  bs : s.bs = cursor (munuBytes P) s'.fMs P.gfqBits 0
  fMs : s'.fMs = challenged h i * (matBytes P + matBytes P)
  seeds : SeedsAgree P h i s.stree s'.sigma
  comp : compressAll P s'.Ghat = pure s.shake.absorbed

/-- Both have rejected, or both go on. -/
def OpenOutcome (P : Params) (h : Arr UInt8) (i : Nat) (r : Except Fault (Option Ref.OpenState))
    (r' : Except PyError (OpenState P)) : Prop :=
  (r = .ok none ∧ r' = .error .badSignatureError) ∨
    ∃ s s', r = .ok (some s) ∧ r' = .ok s' ∧ OpenAgree P h i s s'

section

variable [Fact P.p.Prime] {pk sm : List UInt8} {G : Arr (Arr UInt16)} {l : List (Gen P)}
  {h : Arr UInt8} {i : Nat} {s : Ref.OpenState} {s' : OpenState P}

/-- A challenged round. -/
theorem openRound_challenged (hP : Shared P) (hkp : P.k < P.p) (hsm : munuBytes P ≤ sm.length)
    (bsBuf : Arr UInt8) (hK : KeysAgree P pk P.s G l) (hcount : (excluded P h).length = P.w)
    (hvalue : (h.get i).toNat < P.s) (hi : i < P.t) (hpos : h.get i > 0)
    (hs : OpenAgree P h i s s') :
    Run.Matches (OpenOutcome P h (i + 1))
      (do
        let r ← Ref.openResponse P (fun i => sm[i]?) (G.get (h.get i).toNat) s.bs
        match r with
        | none => pure none
        | some (Ghat, bs) =>
          pure (some { s with
            bs := bs
            shake := shake256Absorb s.shake (packCommitment P bsBuf Ghat) }))
      (do
        let Gi ← Run.ofOption .indexError l[(h.get i).toNat]?
        let (Ghat, fMs) ← openResponse P (sm.take (munuBytes P)) Gi s'.fMs
        pure { s' with fMs := fMs, Ghat := s'.Ghat ++ [Ghat] }) := by
  have hsucc := challenged_succ h i
  rw [if_pos hpos] at hsucc
  -- the response lies within the field
  have hroom : s'.fMs + (matBytes P + matBytes P) ≤ munuBytes P := by
    have hle : challenged h (i + 1) ≤ P.w := hcount ▸ challenged_le h (show i + 1 ≤ P.t by omega)
    rw [hs.fMs, munuBytes, matABytes_eq hP.toSquare, matBBytes_eq, ← Nat.succ_mul]
    exact Nat.mul_le_mul_right _ (by omega)
  have hval : (h.get i).toNat < l.length := by
    rw [hK.length]
    exact hvalue
  rw [List.getElem?_eq_getElem hval, Run.ofOption_some, pure_bind, hs.bs]
  apply (openResponse_matches hP hkp hsm hroom (hK.get _ hval)).bind
  rintro _ _ (⟨rfl, rfl⟩ | ⟨Ghat, Ghat', rfl, rfl, hGhat⟩)
  · exact Run.Matches.pure_fail (Or.inl ⟨rfl, rfl⟩)
  · refine Run.Matches.pure (Or.inr ⟨_, _, rfl, rfl, ?_⟩)
    refine ⟨rfl, ?_, ⟨hs.seeds.leafs, fun j hj => hs.seeds.get j (by omega)⟩,
      compressAll_concat hP hs.comp bsBuf hGhat⟩
    simp only
    rw [hs.fMs, hsucc, Nat.add_mul, Nat.one_mul]

/-- A round that is not challenged. -/
theorem openRound_free (hP : Shared P) (hkp : P.k < P.p) (bsBuf : Arr UInt8)
    (hK : KeysAgree P pk P.s G l) (alpha : List UInt8) (hi : i < P.t) (hfree : h.get i = 0)
    (hs : OpenAgree P h i s s') :
    Run.Matches (OpenOutcome P h (i + 1))
      (do
        let (stree, _, _, Ghat) ←
          Run.loop (Ref.commitAttempt P SHAKE256 (G.get 0) alpha i) s.stree
        pure (some { s with
          stree := stree
          shake := shake256Absorb s.shake (packCommitment P bsBuf Ghat) }))
      (do
        let G0 ← Run.ofOption .indexError l[0]?
        let (sigma, Ghat) ← Run.loop (commitAttempt P SHAKE256 G0 alpha i) s'.sigma
        pure { s' with sigma := sigma, Ghat := s'.Ghat ++ [Ghat] }) := by
  have hsucc := challenged_succ h i
  rw [hfree, if_neg (by decide), Nat.add_zero] at hsucc
  have hval : 0 < l.length := by
    rw [hK.length]
    exact Nat.lt_of_succ_lt hP.two_le_s
  rw [List.getElem?_eq_getElem hval, Run.ofOption_some, pure_bind]
  -- the commitment is regenerated from the leaf, with the same retries
  have hloop := Run.Matches.loop (R := SeedsAgree P h i)
    (fun _ _ hS => @commitAttempt_matches P SHAKE256 _ hP hkp _ _ (hK.zero hval) alpha h i hi hfree
      _ _ hS) hs.seeds
  apply hloop.bind_values
  rintro ⟨stree, _, _, Ghat⟩ ⟨sigma, Ghat'⟩ ⟨hS, hGhat⟩
  refine Run.Matches.pure (Or.inr ⟨_, _, rfl, rfl, ?_⟩)
  refine ⟨hs.bs, ?_, ⟨hS.leafs, fun j hj => hS.get j (by omega)⟩,
    compressAll_concat hP hs.comp bsBuf hGhat⟩
  rw [hsucc]
  exact hs.fMs

/-- One round, from the outcome of the ones before. -/
theorem openRound_matches (hP : Shared P) (hkp : P.k < P.p) (hsm : munuBytes P ≤ sm.length)
    (bsBuf : Nat → Arr UInt8) (hK : KeysAgree P pk P.s G l) (alpha : List UInt8) {hl : List Nat}
    (hh : HoldsChallenge P h hl) (hcount : (excluded P h).length = P.w)
    (hvalues : ∀ j, j < P.t → (h.get j).toNat < P.s) (hi : i < P.t)
    {r : Except Fault (Option Ref.OpenState)} {r' : Except PyError (OpenState P)}
    (hr : OpenOutcome P h i r r') :
    Run.Matches (OpenOutcome P h (i + 1))
      (Run.resume (Ref.openRound P SHAKE256 (fun i => sm[i]?) bsBuf G alpha h i) r)
      (Run.resume (openRound P SHAKE256 l (sm.take (munuBytes P)) alpha hl i) r') := by
  obtain ⟨rfl, rfl⟩ | ⟨s, s', rfl, rfl, hs⟩ := hr
  · -- both have rejected
    exact Run.Matches.pure_fail (Or.inl ⟨rfl, rfl⟩)
  have hiff : h.get i > 0 ↔ (h.get i).toNat > 0 := UInt8.lt_iff_toNat_lt
  rw [Run.resume_ok, Run.resume_ok, Ref.openRound, openRound, ← hh.get i hi]
  by_cases hpos : h.get i > 0
  · rw [if_pos hpos, if_pos (hiff.mp hpos)]
    exact openRound_challenged hP hkp hsm (bsBuf i) hK hcount (hvalues i hi) hi hpos hs
  · have hfree : h.get i = 0 := by
      rw [gt_iff_lt, UInt8.lt_iff_toNat_lt] at hpos
      exact UInt8.toNat_inj.mp (Nat.eq_zero_of_not_pos hpos)
    rw [if_neg hpos, if_neg (mt hiff.mpr hpos)]
    exact openRound_free hP hkp (bsBuf i) hK alpha hi hfree hs

end

/-! ## crypto_sign_open -/

theorem getD_challengeList {h : Arr UInt8} {i : Nat} (hi : i < P.t) :
    (challengeList P h).getD i 0 = (h.get i).toNat := by
  rw [challengeList, List.getD_eq_getElem _ _ (by simpa using hi)]
  simp

/-- The list of Sage is the challenge of C. -/
theorem HoldsChallenge.eq_challengeList {h : Arr UInt8} {l : List Nat} (hh : HoldsChallenge P h l) :
    l = challengeList P h := by
  apply List.ext_getElem (by rw [hh.length, challengeList, List.length_map, List.length_range])
  intro j h1 h2
  have hj : j < P.t := hh.length ▸ h1
  rw [← List.getD_eq_getElem _ 0 h1, ← List.getD_eq_getElem _ 0 h2, ← hh.get j hj,
    getD_challengeList hj]

/-- The same verdict: -1 and an exception, or 0 and the message. -/
def Verdict (m : Arr UInt8) (mlen : Nat) (r : Except Fault (Int × Arr UInt8 × Nat))
    (r' : Except PyError (List UInt8)) : Prop :=
  (r = .ok (-1, m, mlen) ∧ r' = .error .badSignatureError) ∨
    ∃ msg, r = .ok (0, m.blit 0 msg, msg.length) ∧ r' = .ok msg

/-- The digest check, from the outcome of the rounds. -/
theorem openCheck_matches (m : Arr UInt8) (mlen : Nat) {sm : List UInt8}
    (hsm : P.sigBytes ≤ sm.length) (d : List UInt8) {h : Arr UInt8} {i : Nat}
    {r : Except Fault (Option Ref.OpenState)} {r' : Except PyError (OpenState P)}
    (hr : OpenOutcome P h i r r') :
    Run.Matches (Verdict m mlen)
      (Run.resume (Ref.openCheck P SHAKE256 (fun i => sm[i]?) sm.length d m mlen) r)
      (Run.resume (fun s => openCheck P SHAKE256 d (sm.drop P.sigBytes) s.Ghat) r') := by
  obtain ⟨rfl, rfl⟩ | ⟨s, s', rfl, rfl, hs⟩ := hr
  · exact Run.Matches.pure_fail (Or.inl ⟨rfl, rfl⟩)
  have hmsg : (sm.drop P.sigBytes).take (sm.length - P.sigBytes) = sm.drop P.sigBytes := by
    rw [List.take_of_length_le (by rw [List.length_drop])]
  have hhash : (shake256Squeeze SHAKE256 P.digestBytes
      (shake256Finalize (shake256Absorb s.shake (sm.drop P.sigBytes)))).1
      = hash P SHAKE256 (s.shake.absorbed ++ sm.drop P.sigBytes) := rfl
  have hcomp := hs.comp
  rw [compressAll] at hcomp
  rw [Run.resume_ok, Run.resume_ok, Ref.openCheck, openCheck, hcomp]
  simp only [ulongSub, if_pos hsm, readBytes_take (show P.sigBytes + (sm.length - P.sigBytes)
    ≤ sm.length by omega), Run.ofOption_some, pure_bind, hmsg, hhash]
  change Run.Matches _ _ (if _ then _ else _)
  by_cases hd : d ≠ hash P SHAKE256 (s.shake.absorbed ++ sm.drop P.sigBytes)
  · rw [if_pos hd, if_pos hd]
    exact Run.Matches.pure_fail (Or.inl ⟨rfl, rfl⟩)
  · rw [if_neg hd, if_neg hd]
    exact Run.Matches.pure (Or.inr ⟨_, by rw [List.length_drop], rfl⟩)

/-- The two verifiers, on every public key and every signed message that is long
    enough. -/
theorem cryptoSignOpen_matches [Fact P.p.Prime] (hP : Shared P) (hkp : P.k < P.p)
    {pk sm : List UInt8} (hpk : pk.length = P.pkBytes) (hsm : P.sigBytes ≤ sm.length)
    (bsBuf : Nat → Arr UInt8) (m : Arr UInt8) (mlen : Nat) :
    Run.Matches (Verdict m mlen) (Ref.cryptoSignOpen P SHAKE256 bsBuf m mlen sm pk)
      (cryptoSignOpen P SHAKE256 pk sm) := by
  have hmunu : (packedBytes P.p (P.m * P.m) + packedBytes P.p (P.n * P.n)) * P.w = munuBytes P := by
    rw [matBytes_eq hP hP.m_eq, matBytes_eq hP rfl, munuBytes, matABytes_eq hP.toSquare,
      matBBytes_eq, Nat.mul_comm]
  have hcost : seedTreeCost P = P.maxPathLen * P.stSeedBytes := by
    rw [seedTreeCost, ← hP.pathLen, Int.toNat_natCast]
  have hsig : P.sigBytes
      = P.digestBytes + munuBytes P + P.maxPathLen * P.stSeedBytes + P.stSaltBytes := hP.sig_eq
  have hd : (((sm.drop (munuBytes P)).drop (seedTreeCost P)).take P.digestBytes)
      = (sm.drop (P.sigBytes - P.digestBytes - P.stSaltBytes)).take P.digestBytes := by
    rw [List.drop_drop, hcost]
    congr 2
    omega
  have halpha : ((((sm.drop (munuBytes P)).drop (seedTreeCost P)).drop P.digestBytes).take
      P.stSaltBytes) = (sm.drop (P.sigBytes - P.stSaltBytes)).take P.stSaltBytes := by
    rw [List.drop_drop, List.drop_drop, hcost]
    congr 2
    omega
  have hmsg : (((sm.drop (munuBytes P)).drop (seedTreeCost P)).drop P.digestBytes).drop P.stSaltBytes
      = sm.drop P.sigBytes := by
    rw [List.drop_drop, List.drop_drop, List.drop_drop, hcost]
    congr 1
    omega
  unfold Ref.cryptoSignOpen cryptoSignOpen
  simp only [hmunu, hd, halpha, hmsg]
  apply (loadPublicKey_matches hP hpk).bind_values
  intro G l hK
  rw [readBytes_take (by omega), readBytes_take (by omega), Run.ofOption_some, Run.ofOption_some,
    pure_bind]
  apply (parseHash_matches hP.challengeSizes _ Arr.empty).reached.bind
  rintro _ _ ⟨hr, ⟨ret, h⟩, hl, rfl, rfl, hret, hh⟩
  obtain rfl : ret = 0 := hret
  have hchallenge := parseHash_returns (by have := hP.two_le_s; omega) hr
  -- the same leaves, from the same bytes of the path
  have hlist := hh.eq_challengeList
  have hvisited : (visited P h).length ≤ P.maxPathLen := by
    have := length_visited_le P h hP.height hchallenge.weight
    rw [← hP.pathLen] at this
    omega
  have hpath : ((sm.drop (munuBytes P)).take (seedTreeCost P)).length
      = P.maxPathLen * P.stSeedBytes := by
    rw [List.length_take, List.length_drop, hcost]
    omega
  obtain ⟨st, hst, hleaf⟩ := @pathToStree_agrees P SHAKE256
    ((sm.drop (P.sigBytes - P.stSaltBytes)).take P.stSaltBytes) (hP.one_le_w.trans hP.w_le) hP.height
    hP.one_le_w h hchallenge.weight ((sm.drop (munuBytes P)).take (seedTreeCost P))
    (fun i => sm[i]?) (munuBytes P)
    (fun i hi => by
      rw [hpath] at hi
      rw [List.getElem?_take_of_lt (by omega), List.getElem?_drop])
    (by rw [hpath]; exact Nat.mul_le_mul_right _ hvisited)
    (Arr.replicate (P.stSeedBytes * P.seedTreeSize) 0)
  simp only [Run.resume_ok]
  apply Run.Matches.congr_left _ (hst.bind_equiv _)
  have hstart : OpenOutcome P h 0
      (.ok (some { bs := bsInit (munuBytes P), stree := st.stree, shake := shake256Init }))
      (.ok { fMs := 0
             sigma := pathToSeedTree P SHAKE256 hl ((sm.drop (munuBytes P)).take (seedTreeCost P))
               ((sm.drop (P.sigBytes - P.stSaltBytes)).take P.stSaltBytes)
             Ghat := [] }) := by
    refine Or.inr ⟨_, _, rfl, rfl, ?_, ?_, ⟨?_, fun j _ hj h0 => ?_⟩, rfl⟩
    · rw [cursor_zero]
      rfl
    · simp [challenged]
    · exact pathToSeedTree_leafs _ _
    · rw [hlist]
      exact hleaf j hj h0
  apply (Run.Matches.forUpM (OpenOutcome P h) (Nat.zero_le P.t)
    (fun i r r' _ hi hr => openRound_matches hP hkp (by omega) bsBuf hK _ hh hchallenge.weight
      hchallenge.values hi hr) hstart).bind
  intro r r' hr
  exact openCheck_matches m mlen hsm _ hr

/-! ## The verdicts -/

/-- Two runs that decide alike: 0 with a message against the message, -1 against
    the exception, and no end against no end. -/
structure SameVerdict (x : Run Fault (Int × Arr UInt8 × Nat)) (y : Run PyError (List UInt8)) :
    Prop where
  accepts : ∀ msg : List UInt8,
    (∃ m, x.Returns (0, m, msg.length) ∧ m.slice 0 msg.length = msg) ↔ y.Returns msg
  rejects : (∃ m mlen, x.Returns (-1, m, mlen)) ↔ y.Faults .badSignatureError
  diverges : x.Diverges ↔ y.Diverges

theorem SameVerdict.of_matches {m : Arr UInt8} {mlen : Nat}
    {x : Run Fault (Int × Arr UInt8 × Nat)} {y : Run PyError (List UInt8)}
    (h : Run.Matches (Verdict m mlen) x y) : SameVerdict x y := by
  refine ⟨fun msg => ⟨?_, fun hy => ?_⟩, ⟨?_, fun hy => ?_⟩, h.diverges_iff⟩
  · rintro ⟨m', hx, hslice⟩
    obtain ⟨r', hy, ⟨hr, -⟩ | ⟨msg', hr, rfl⟩⟩ := h.forth _ hx
    · cases hr
    · -- the message is what C has copied
      rw [Except.ok.injEq, Prod.mk.injEq, Prod.mk.injEq] at hr
      obtain ⟨-, rfl, hlen⟩ := hr
      rw [hlen, Arr.slice_blit] at hslice
      exact hslice ▸ hy
  · obtain ⟨r, hx, ⟨-, hr⟩ | ⟨msg', rfl, hr⟩⟩ := h.back _ hy
    · cases hr
    · cases hr
      exact ⟨_, hx, Arr.slice_blit m 0 msg⟩
  · rintro ⟨m', l, hx⟩
    obtain ⟨r', hy, ⟨-, rfl⟩ | ⟨msg', hr, -⟩⟩ := h.forth _ hx
    · exact hy
    · cases hr
  · obtain ⟨r, hx, ⟨rfl, -⟩ | ⟨msg', -, hr⟩⟩ := h.back _ hy
    · exact ⟨m, mlen, hx⟩
    · cases hr

/-- The two verifiers decide alike on every public key of `MEDS_PK_BYTES` bytes
    and every signed message of at least `MEDS_SIG_BYTES`. -/
def VerifiersAgree (P : Params) [Fact P.p.Prime] : Prop :=
  ∀ (SHAKE256 : Shake) (pk sm : List UInt8) (bsBuf : Nat → Arr UInt8) (m : Arr UInt8) (mlen : Nat),
    pk.length = P.pkBytes → P.sigBytes ≤ sm.length →
      SameVerdict (Ref.cryptoSignOpen P SHAKE256 bsBuf m mlen sm pk)
        (cryptoSignOpen P SHAKE256 pk sm)

theorem verifiersAgree_of_lt [Fact P.p.Prime] (hP : Shared P) (hkp : P.k < P.p) :
    VerifiersAgree P :=
  fun _ _ _ bsBuf m mlen hpk hsm =>
    SameVerdict.of_matches (cryptoSignOpen_matches hP hkp hpk hsm bsBuf m mlen)

end Meds.Sage
