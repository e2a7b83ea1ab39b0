/-
  Meds.Ref.SpecialSound

  Two runs of the verifier that meet in one systematic matrix.

  The verifier is run with a log that keeps, for each round, the challenge,
  the transformation and the systematic matrix.  Every entry of the log has
  invertible transformations, and the generators that the public key decodes
  to are systematic whatever bytes it holds.  So where two entries agree in
  the matrix, undoing one transformation after the other leads from one
  generator of the public key to the other.
-/

import Meds.Ref.Commit

namespace Meds.Ref

open Meds.Core

variable {P : Params} {SHAKE256 : Shake}

/-! ## Undoing a transformation -/

/-- If two tables of rows, the second one systematic, have the same systematic form
    under (A, B) and under (A', B'), then undoing (A', B') after (A, B) takes the
    first to the second. -/
theorem systematic_undo {K : Type} [Field K] {n m c : Nat} (hnc : n ≤ m * c)
    {F F' : Matrix (Fin n) (Fin (m * c)) K} {A A' : Matrix (Fin m) (Fin m) K}
    {B B' : Matrix (Fin c) (Fin c) K} (hF' : lead hnc F' = 1) (hA' : IsUnit A'.det)
    (hB' : IsUnit B'.det) (hlead : IsUnit (lead hnc (F * sandwich A B)).det)
    (hlead' : IsUnit (lead hnc (F' * sandwich A' B')).det)
    (h : systematic hnc (F * sandwich A B) = systematic hnc (F' * sandwich A' B')) :
    IsUnit (lead hnc (F * sandwich (A'⁻¹ * A) (B * B'⁻¹))).det ∧
      systematic hnc (F * sandwich (A'⁻¹ * A) (B * B'⁻¹)) = F' := by
  obtain ⟨L, hL⟩ : ∃ L, L = lead hnc (F * sandwich A B) * (lead hnc (F' * sandwich A' B'))⁻¹ :=
    ⟨_, rfl⟩
  have hunit : IsUnit L.det := by
    rw [hL, Matrix.det_mul]
    exact hlead.mul (Matrix.isUnit_nonsing_inv_det _ hlead')
  -- both sides are the systematic form times their leading block
  have hrows : F * sandwich A B = L * (F' * sandwich A' B') := by
    rw [hL, Matrix.mul_assoc, ← systematic, ← h, lead_mul_systematic hnc hlead]
  have hundo : F * sandwich (A'⁻¹ * A) (B * B'⁻¹) = L * F' := by
    rw [← sandwich_mul, ← Matrix.mul_assoc, hrows, Matrix.mul_assoc, Matrix.mul_assoc, sandwich_mul,
      Matrix.nonsing_inv_mul _ hA', Matrix.mul_nonsing_inv _ hB', sandwich_one, Matrix.mul_one]
  rw [hundo, systematic_mul hnc hunit, lead_mul, hF', Matrix.mul_one]
  refine ⟨hunit, ?_⟩
  rw [systematic, hF', inv_one, Matrix.one_mul]

/-! ## The generators of a public key -/

section

/-- Reading entries leaves all other cells alone, whatever the memory is. -/
theorem readEntries_frame {mem : Nat → Option UInt8} {off lo hi : Nat} (hle : lo ≤ hi)
    {s s' : Arr UInt16 × BitstreamT} (h : readEntries P mem off lo hi s = some s') :
    ∀ idx, idx < off + lo ∨ off + hi ≤ idx → s'.1.get idx = s.1.get idx := by
  unfold readEntries at h
  intro idx hidx
  refine forUpM_option_invariant
    (fun _ (t : Arr UInt16 × BitstreamT) => t.1.get idx = s.1.get idx) hle ?_ rfl h
  intro j t t' h1 h2 ht hstep
  obtain ⟨⟨v, bs⟩, -, hstep⟩ := Option.bind_eq_some_iff.mp hstep
  obtain rfl := Option.some.inj hstep
  change (t.1.set (off + j) _).get idx = _
  rw [Arr.get_set_ne _ _ (by omega), ht]

/-- The leading block that `crypto_sign_open` gives a generator is the identity,
    whatever the bytes of the public key are. -/
theorem readPkMatrix_identity (hP : P.Square) {mem : Nat → Option UInt8} {bs bs' : BitstreamT}
    {G : Arr UInt16} (h : readPkMatrix P mem bs = some (G, bs')) :
    ∀ r j, r < P.n → j < P.n → G.get (P.n * P.n * r + j) = if r = j then 1 else 0 := by
  have hn := hP.two_le_n
  have hsq := le_sq P
  unfold readPkMatrix at h
  obtain ⟨⟨G1, bs1⟩, h1, h⟩ := Option.bind_eq_some_iff.mp h
  obtain ⟨⟨G2, bs2⟩, h2, h⟩ := Option.bind_eq_some_iff.mp h
  obtain ⟨rfl, -⟩ := Prod.mk.inj (Option.some.inj h)
  rw [hP.m_eq, hP.k_eq] at h1 h2
  rw [hP.m_eq]
  intro r j hr hj
  obtain ⟨hrow0, hout0⟩ := fillIdentity_spec (P := P) 0 P.n 0 (G := G2)
  obtain ⟨hrow1, hout1⟩ := fillIdentity_spec (P := P) (P.n * P.n) (P.n - 1) 1
    (G := fillIdentity P 0 P.n 0 G2)
  have hlast : P.n * (P.n - 1) ≤ P.n * P.n := Nat.mul_le_mul_left _ (Nat.sub_le _ _)
  rcases Nat.lt_or_ge r 2 with hr2 | hr2
  · interval_cases r
    · rw [hout1 _ (Or.inl (by omega))]
      have := hrow0 0 j (by omega) hj
      simp only [Nat.mul_zero, Nat.zero_add] at this ⊢
      exact this
    · have := hrow1 0 j (by omega) hj
      simp only [Nat.mul_zero, Nat.zero_add, Nat.mul_one] at this ⊢
      exact this
  · have hge : P.n * P.n * 2 ≤ P.n * P.n * r := Nat.mul_le_mul_left _ hr2
    rw [hout1 _ (Or.inr (by omega)), hout0 _ (Or.inr (by omega))]
    have hloop : G2.get (P.n * P.n * r + j) = G1.get (P.n * P.n * r + j) := by
      refine forUpM_option_invariant (fun _ (t : Arr UInt16 × BitstreamT) =>
        t.1.get (P.n * P.n * r + j) = G1.get (P.n * P.n * r + j)) hn ?_ rfl h2
      intro i t t' _ _ ht hstep
      rw [readEntries_frame hsq hstep _ ?_, ht]
      rw [show i * P.n * P.n = P.n * P.n * i by ring]
      -- row `r` starts before, at or behind the row that is read
      rcases Nat.lt_trichotomy r i with hlt | rfl | hlt
      · have := Nat.mul_le_mul_left (P.n * P.n) (Nat.succ_le_of_lt hlt)
        rw [Nat.mul_succ] at this
        omega
      · omega
      · have := Nat.mul_le_mul_left (P.n * P.n) (Nat.succ_le_of_lt hlt)
        rw [Nat.mul_succ] at this
        omega
    rw [hloop, readEntries_frame (Nat.mul_le_mul_right _ (Nat.sub_le _ _)) h1 _
      (Or.inr (by omega))]
    exact (setIdentity_spec P.n (P.n * P.n) hsq).1 r j hr hj

variable [hprime : Fact P.p.Prime]

theorem lead_gen_eq_one {G : Arr UInt16}
    (h : ∀ r j, r < P.n → j < P.n → (G.get (P.n * P.n * r + j)).toNat = if r = j then 1 else 0) :
    lead (le_sq P) (gen P G) = 1 := by
  ext i j
  rw [lead, Matrix.submatrix_apply, id, gen, block_apply, ent, pmodMatEntry, Fin.val_castLE,
    h i j i.isLt j.isLt, Matrix.one_apply]
  simp only [Fin.ext_iff]
  split <;> simp

/-- Every generator that `crypto_sign_open` works with is systematic. -/
theorem loadPublicKey_systematic (hP : P.Square) (hs : 1 ≤ P.s) {pk : List UInt8}
    {G : Arr (Arr UInt16)} (h : (loadPublicKey P SHAKE256 pk).Returns G) {c : Nat} (hc : c < P.s) :
    lead (le_sq P) (gen P (G.get c)) = 1 := by
  unfold loadPublicKey at h
  simp only [Run.returns_bind] at h
  obtain ⟨sigmaG0, -, G0, hG0, ⟨G', bs⟩, hloop, h⟩ := h
  rw [Run.returns_pure] at h
  subst h
  have hfirst : lead (le_sq P) (gen P G0) = 1 := by
    rw [hP.k_eq, hP.m_eq] at hG0
    have hid := (rndSysMat_returns (le_sq P) hP.p_le_16 hprime.out.one_lt hG0).2
    exact lead_gen_eq_one fun r j hr hj => hid r j hr hj
  refine forUpM_option_invariant
    (fun i (t : Arr (Arr UInt16) × BitstreamT) => ∀ c, c < i →
      lead (le_sq P) (gen P (t.1.get c)) = 1) hs (fun i t t' h1 h2 ht hstep c hc => ?_)
    (fun c hc => ?_) (Run.returns_ofOption.mp hloop) c hc
  · obtain ⟨⟨Gi, bs'⟩, hread, hstep⟩ := Option.bind_eq_some_iff.mp hstep
    obtain rfl := Option.some.inj hstep
    have hid := readPkMatrix_identity hP hread
    -- the matrix just read has the identity filled in
    by_cases hci : c = i
    · subst hci
      rw [Arr.get_set_self]
      refine lead_gen_eq_one fun r j hr hj => ?_
      rw [hid r j hr hj]
      split <;> rfl
    · rw [Arr.get_set_ne _ _ hci]
      exact ht c (by omega)
  · obtain rfl : c = 0 := by omega
    rw [Arr.get_set_self]
    exact hfirst

end

/-! ## The verifier with a log -/

/-- What a round of `crypto_sign_open` works with: the challenge, the transformation
    and the systematic matrix that it hashes. -/
structure OpenRecord where
  challenge : UInt8
  mu : Arr UInt16
  nu : Arr UInt16
  Ghat : Arr UInt16
deriving DecidableEq

deriving instance DecidableEq for OpenState

/-- `crypto_sign_open` up to the digest check. -/
structure OpenLog where
  G : Arr (Arr UInt16)
  digest : List UInt8
  h : Arr UInt8
  state : Option OpenState
  log : List OpenRecord
deriving DecidableEq

section

variable (P SHAKE256)

/-- `openResponse`, which keeps `mu` and `nu`. -/
def openResponseLog (mem : Nat → Option UInt8) (G : Arr UInt16) (bs : BitstreamT) :
    Run Fault (Option (Arr UInt16 × Arr UInt16 × Arr UInt16 × BitstreamT)) := do
  let (mu, bs) ← Run.ofOption .outOfBounds (readResponse P mem P.m bs)
  let (nu, bs) ← Run.ofOption .outOfBounds (readResponse P mem P.n bs)
  if (pmodMatSystCt P mu P.m P.m).1 ≠ 0 then pure none
  else if (pmodMatSystCt P nu P.n P.n).1 ≠ 0 then pure none
  else
    let (ret, Ghat) := pmodMatSystCt P (pi P mu nu G) P.k (P.m * P.n)
    if ret < 0 then pure none else pure (some (mu, nu, Ghat, bs))

/-- `openRound`, which adds the record of the round to the log. -/
def openRoundLog (mem : Nat → Option UInt8) (bsBuf : Nat → Arr UInt8) (G : Arr (Arr UInt16))
    (alpha : List UInt8) (h : Arr UInt8) (i : Nat) :
    Option OpenState × List OpenRecord → Run Fault (Option OpenState × List OpenRecord)
  | (none, log) => pure (none, log)
  | (some s, log) =>
    if h.get i > 0 then do
      let r ← openResponseLog P mem (G.get (h.get i).toNat) s.bs
      match r with
      | none => pure (none, log)
      | some (mu, nu, Ghat, bs) =>
        pure (some { s with
          bs := bs
          shake := shake256Absorb s.shake (packCommitment P (bsBuf i) Ghat) },
          log ++ [⟨h.get i, mu, nu, Ghat⟩])
    else do
      let (stree, A, B, Ghat) ← Run.loop (commitAttempt P SHAKE256 (G.get 0) alpha i) s.stree
      pure (some { s with
        stree := stree
        shake := shake256Absorb s.shake (packCommitment P (bsBuf i) Ghat) },
        log ++ [⟨h.get i, A, B, Ghat⟩])

/-- `crypto_sign_open` up to the digest check, with its log. -/
def openLog (bsBuf : Nat → Arr UInt8) (sm pk : List UInt8) : Run Fault OpenLog := do
  let G ← loadPublicKey P SHAKE256 pk
  let mem := fun i => sm[i]?
  let digest ←
    Run.ofOption .outOfBounds
      (readBytes mem (P.sigBytes - P.digestBytes - P.stSaltBytes) P.digestBytes)
  let (_, h) ← parseHash P SHAKE256 digest Arr.empty P.t
  let alpha ← Run.ofOption .outOfBounds (readBytes mem (P.sigBytes - P.stSaltBytes) P.stSaltBytes)
  let stree := Arr.replicate (P.stSeedBytes * P.seedTreeSize) 0
  let st ← pathToStree P SHAKE256 stree h mem (munuBytes P) alpha
  let (s, log) ←
    forUpM 0 P.t (openRoundLog P SHAKE256 mem bsBuf G alpha h)
      (some { bs := bsInit (munuBytes P), stree := st.stree, shake := shake256Init }, [])
  pure ⟨G, digest, h, s, log⟩

end

theorem openResponseLog_forget (mem : Nat → Option UInt8) (G : Arr UInt16) (bs : BitstreamT) :
    openResponse P mem G bs
      = (openResponseLog P mem G bs >>= fun r => pure (r.map fun r => (r.2.2.1, r.2.2.2))) := by
  unfold openResponse openResponseLog
  simp only [bind_assoc]
  refine bind_congr fun mu => bind_congr fun nu => ?_
  split
  · rw [pure_bind, Option.map_none]
  · split
    · rw [pure_bind, Option.map_none]
    · split <;> rw [pure_bind] <;> rfl

theorem openRoundLog_forget (mem : Nat → Option UInt8) (bsBuf : Nat → Arr UInt8)
    (G : Arr (Arr UInt16)) (alpha : List UInt8) (h : Arr UInt8) (i : Nat) (s : Option OpenState)
    (log : List OpenRecord) :
    (openRoundLog P SHAKE256 mem bsBuf G alpha h i (s, log) >>= fun r => pure r.1)
      = openRound P SHAKE256 mem bsBuf G alpha h i s := by
  cases s with
  | none => exact pure_bind _ _
  | some s =>
      unfold openRoundLog openRound
      simp only
      split
      · rw [openResponseLog_forget, bind_assoc, bind_assoc]
        refine bind_congr fun r => ?_
        rw [pure_bind]
        cases r <;> exact pure_bind _ _
      · rw [bind_assoc]
        exact bind_congr fun r => pure_bind _ _

/-- The log changes nothing: `crypto_sign_open` is the logged loop and the digest check. -/
theorem cryptoSignOpen_eq_openLog (bsBuf : Nat → Arr UInt8) (m : Arr UInt8) (mlen : Nat)
    (sm pk : List UInt8) :
    cryptoSignOpen P SHAKE256 bsBuf m mlen sm pk
      = (openLog P SHAKE256 bsBuf sm pk >>= fun L =>
          openCheck P SHAKE256 (fun i => sm[i]?) sm.length L.digest m mlen L.state) := by
  unfold cryptoSignOpen openLog
  simp only [bind_assoc]
  refine bind_congr fun G => bind_congr fun digest => bind_congr fun h => bind_congr fun alpha =>
    bind_congr fun st => ?_
  rw [← forUpM_forget (openRoundLog_forget (fun i => sm[i]?) bsBuf G alpha h.2) _ [], bind_assoc]
  refine bind_congr fun r => ?_
  rw [pure_bind, pure_bind]

/-! ## What a record certifies -/

/-- The transformation of a record is invertible, and the matrix that the round
    hashed is the systematic form of G[challenge] under it. -/
structure OpenRecord.Certified (P : Params) [Fact P.p.Prime] (G : Arr (Arr UInt16))
    (r : OpenRecord) : Prop where
  unitMu : IsUnit (sq P r.mu).det
  unitNu : IsUnit (sq P r.nu).det
  systematic : (pmodMatSystCt P (pi P r.mu r.nu (G.get r.challenge.toNat)) P.k (P.m * P.n)).1 = 0
  Ghat_eq : r.Ghat = commitG P (G.get r.challenge.toNat) r.mu r.nu

section

variable [hprime : Fact P.p.Prime]

theorem readResponse_reduced (hp : P.p ≤ 2 ^ 16) {mem : Nat → Option UInt8} {n : Nat}
    {bs bs' : BitstreamT} {M : Arr UInt16} (h : readResponse P mem n bs = some (M, bs')) :
    Reduced P M (n * n) := by
  unfold readResponse at h
  obtain ⟨⟨N, bs1⟩, hloop, h⟩ := Option.bind_eq_some_iff.mp h
  obtain ⟨rfl, -⟩ := Prod.mk.inj (Option.some.inj h)
  refine forUpM_option_invariant
    (fun i (t : Arr UInt16 × BitstreamT) => Reduced P t.1 i) (Nat.zero_le _)
    (fun i t t' _ _ ht hstep j hj => ?_) (fun j hj => absurd hj (Nat.not_lt_zero j)) hloop
  obtain ⟨⟨v, bs2⟩, -, hstep⟩ := Option.bind_eq_some_iff.mp hstep
  obtain rfl := Option.some.inj hstep
  by_cases hji : j = i
  · have hv := Nat.mod_lt v hprime.out.pos
    rw [hji, Arr.get_set_self, UInt16.toNat_ofNat_of_lt' (hv.trans_le hp)]
    exact hv
  · rw [Arr.get_set_ne _ _ hji]
    exact ht j (by omega)

/-- `pmod_mat_syst_ct` finds exactly the invertible among the reduced squares. -/
theorem isUnit_of_syst_zero (hP : P.Square) {M : Arr UInt16} (hM : Reduced P M (P.n * P.n))
    (h : (pmodMatSystCt P M P.n P.n).1 = 0) : IsUnit (sq P M).det := by
  rcases pmodMatSystCt_spec P.n P.n hM (Nat.le_refl _) hP.p_le_16 with ⟨hunit, -, -⟩ | ⟨-, hret⟩
  · exact hunit
  · rw [hret] at h
    exact absurd h (by decide)

theorem syst_nonneg (hP : P.Square) (A B G : Arr UInt16)
    (h : ¬ (pmodMatSystCt P (pi P A B G) P.k (P.m * P.n)).1 < 0) :
    (pmodMatSystCt P (pi P A B G) P.k (P.m * P.n)).1 = 0 := by
  have hp := hP.p_le_16
  have hpi := pi_spec hP.m_eq hP.k_eq hprime.out.pos hp A B G
  rw [hP.k_eq, hP.m_eq] at h ⊢
  rcases pmodMatSystCt_spec P.n (P.n * P.n) hpi.reduced (le_sq P) hp with ⟨-, hret, -⟩ | ⟨-, hret⟩
  · exact hret
  · rw [hret] at h
    exact absurd (by decide) h

/-- A response that is not rejected. -/
theorem openResponseLog_returns (hP : P.Square) {mem : Nat → Option UInt8}
    {G mu nu Ghat : Arr UInt16} {bs bs' : BitstreamT}
    (h : (openResponseLog P mem G bs).Returns (some (mu, nu, Ghat, bs'))) :
    IsUnit (sq P mu).det ∧ IsUnit (sq P nu).det ∧
      (pmodMatSystCt P (pi P mu nu G) P.k (P.m * P.n)).1 = 0 ∧ Ghat = commitG P G mu nu := by
  -- what is read is reduced modulo p
  have hread : ∀ {n bs} {r : Arr UInt16 × BitstreamT},
      (Run.ofOption Fault.outOfBounds (readResponse P mem n bs)).Returns r →
        Reduced P r.1 (n * n) := by
    intro n bs r hr
    cases ho : readResponse P mem n bs with
    | none =>
        rw [ho] at hr
        exact absurd hr Run.returns_fail
    | some r' =>
        rw [ho, Run.ofOption_some, Run.returns_pure] at hr
        exact hr ▸ readResponse_reduced hP.p_le_16 ho
  unfold openResponseLog at h
  simp only [Run.returns_bind] at h
  obtain ⟨⟨mu', bs1⟩, hmu, ⟨nu', bs2⟩, hnu, h⟩ := h
  have hredmu := hread hmu
  have hrednu := hread hnu
  rw [hP.m_eq] at hredmu
  -- the three rejections: mu, nu, and the systematic form
  split at h
  · exact absurd (Run.returns_pure.mp h) (by simp)
  · rename_i hsystmu
    split at h
    · exact absurd (Run.returns_pure.mp h) (by simp)
    · rename_i hsystnu
      split at h
      · exact absurd (Run.returns_pure.mp h) (by simp)
      · rename_i hret
        obtain ⟨rfl, rfl, rfl, rfl⟩ : mu = mu' ∧ nu = nu' ∧ Ghat = commitG P G mu' nu' ∧ bs' = bs2 := by
          simpa [commitG] using Run.returns_pure.mp h
        rw [hP.m_eq] at hsystmu
        exact ⟨isUnit_of_syst_zero hP hredmu (not_not.mp hsystmu),
          isUnit_of_syst_zero hP hrednu (not_not.mp hsystnu), syst_nonneg hP _ _ _ hret, rfl⟩

/-- A round that is not rejected adds a certified record. -/
theorem openRoundLog_returns (hP : P.Square) {mem : Nat → Option UInt8} {bsBuf : Nat → Arr UInt8}
    {G : Arr (Arr UInt16)} {alpha : List UInt8} {h : Arr UInt8} {i : Nat} {s s' : Option OpenState}
    {log log' : List OpenRecord}
    (hr : (openRoundLog P SHAKE256 mem bsBuf G alpha h i (s, log)).Returns (s', log'))
    (hs' : s'.isSome) :
    s.isSome ∧ ∃ r, log' = log ++ [r] ∧ r.challenge = h.get i ∧ r.Certified P G := by
  cases s with
  | none =>
      obtain ⟨rfl, rfl⟩ := Prod.mk.inj (Run.returns_pure.mp hr)
      cases hs'
  | some s =>
      refine ⟨rfl, ?_⟩
      unfold openRoundLog at hr
      simp only at hr
      split at hr
      · -- a challenged round certifies what it has read
        rw [Run.returns_bind] at hr
        obtain ⟨r, hresp, hr⟩ := hr
        cases r with
        | none =>
            obtain ⟨rfl, rfl⟩ := Prod.mk.inj (Run.returns_pure.mp hr)
            cases hs'
        | some r =>
            obtain ⟨mu, nu, Ghat, bs⟩ := r
            obtain ⟨-, rfl⟩ := Prod.mk.inj (Run.returns_pure.mp hr)
            obtain ⟨h1, h2, h3, h4⟩ := openResponseLog_returns hP hresp
            exact ⟨_, rfl, rfl, h1, h2, h3, h4⟩
      · -- an unchallenged one uses the generator 0 and the matrices of the commitment
        rename_i hzero
        have hzero : h.get i = 0 := UInt8.le_antisymm (UInt8.not_lt.mp hzero) (UInt8.zero_le)
        rw [Run.returns_bind] at hr
        obtain ⟨⟨stree, A, B, Ghat⟩, hloop, hr⟩ := hr
        obtain ⟨-, rfl⟩ := Prod.mk.inj (Run.returns_pure.mp hr)
        obtain ⟨hG, -, -, hA, hB, hsyst⟩ := commitLoop_matrices hP hloop
        refine ⟨_, rfl, rfl, hA, hB, ?_, ?_⟩
        · rw [hzero]
          exact hsyst
        · rw [hzero]
          exact hG

/-- In a run that is not rejected, every round has left a certified record. -/
theorem openLog_certified (hP : P.Square) {bsBuf : Nat → Arr UInt8} {sm pk : List UInt8}
    {L : OpenLog} (hL : (openLog P SHAKE256 bsBuf sm pk).Returns L) (hacc : L.state.isSome)
    {i : Nat} (hi : i < P.t) :
    ∃ r, L.log[i]? = some r ∧ r.challenge = L.h.get i ∧ r.Certified P L.G := by
  unfold openLog at hL
  simp only [Run.returns_bind] at hL
  obtain ⟨G, -, digest, -, ⟨ret, h⟩, -, alpha, -, st, -, ⟨s, log⟩, hloop, hL⟩ := hL
  obtain rfl := Run.returns_pure.mp hL
  have hinv := Run.forUpM_invariant
    (fun i (s : Option OpenState × List OpenRecord) => s.1.isSome →
      s.2.length = i ∧ ∀ j, j < i →
        ∃ r, s.2[j]? = some r ∧ r.challenge = h.get j ∧ r.Certified P G)
    (Nat.zero_le P.t) (fun i s s' _ _ hI hstep hs' => ?_)
    (fun _ => ⟨rfl, fun j hj => absurd hj (Nat.not_lt_zero j)⟩) hloop
  · exact (hinv hacc).2 i hi
  · obtain ⟨hsome, r, hlog, hr⟩ := openRoundLog_returns hP hstep hs'
    obtain ⟨hlen, hall⟩ := hI hsome
    rw [hlog, List.length_append, hlen]
    refine ⟨rfl, fun j hj => ?_⟩
    rcases Nat.lt_succ_iff_lt_or_eq.mp hj with hlt | rfl
    · obtain ⟨r', hr', hrest⟩ := hall j hlt
      exact ⟨r', by rw [List.getElem?_append_left (by omega), hr'], hrest⟩
    · exact ⟨r, by rw [List.getElem?_append_right (by omega), hlen, Nat.sub_self]; rfl, hr⟩

omit hprime in
/-- The generators and the challenge of a logged run. -/
theorem openLog_parts {bsBuf : Nat → Arr UInt8} {sm pk : List UInt8} {L : OpenLog}
    (hL : (openLog P SHAKE256 bsBuf sm pk).Returns L) :
    (loadPublicKey P SHAKE256 pk).Returns L.G ∧
      ∃ ret, (parseHash P SHAKE256 L.digest Arr.empty P.t : Run Fault _).Returns (ret, L.h) := by
  unfold openLog at hL
  simp only [Run.returns_bind] at hL
  obtain ⟨G, hG, digest, -, ⟨ret, h⟩, hparse, alpha, -, st, -, ⟨s, log⟩, -, hL⟩ := hL
  obtain rfl := Run.returns_pure.mp hL
  exact ⟨hG, ret, hparse⟩

omit hprime in
theorem openLog_challenge_lt (hs : 1 ≤ P.s) {bsBuf : Nat → Arr UInt8} {sm pk : List UInt8}
    {L : OpenLog} (hL : (openLog P SHAKE256 bsBuf sm pk).Returns L) {i : Nat} (hi : i < P.t) :
    (L.h.get i).toNat < P.s := by
  by_cases h256 : P.s ≤ 256
  · obtain ⟨-, ret, hparse⟩ := openLog_parts hL
    exact (parseHash_returns hs hparse).values i hi
  · have := (L.h.get i).toNat_lt
    omega

/-- `pi` and `pmod_mat_syst_ct` on a transformation that is known in GF(p). -/
theorem commitG_of_lead (hP : P.Square) {G A B : Arr UInt16}
    (h : IsUnit (lead (le_sq P) (gen P G * sandwich (sq P A) (sq P B))).det) :
    (pmodMatSystCt P (pi P A B G) P.k (P.m * P.n)).1 = 0 := by
  have hpi := pi_spec hP.m_eq hP.k_eq hprime.out.pos hP.p_le_16 A B G
  have hgen : gen P (pi P A B G) = gen P G * sandwich (sq P A) (sq P B) := hpi.block_eq
  rw [← hgen] at h
  rw [hP.k_eq, hP.m_eq]
  rcases pmodMatSystCt_spec P.n (P.n * P.n) hpi.reduced (le_sq P) hP.p_le_16 with
    ⟨-, hret, -⟩ | ⟨hdet, -⟩
  · exact hret
  · exact absurd (hdet ▸ h) not_isUnit_zero

end

/-- Special soundness of the verification relation.  Two runs of `crypto_sign_open` on
    one public key that are not rejected in the loop have used, at every index, invertible
    pairs (mu, nu) and (mu', nu'); and where they agree in the systematic matrix, the
    systematic form of pi(mu'^-1 mu, nu nu'^-1, G[a]) exists and is G[b]. -/
theorem openLog_specialSound (hP : P.Square) (hs : 1 ≤ P.s) {bsBuf bsBuf' : Nat → Arr UInt8}
    {sm sm' pk : List UInt8} {L L' : OpenLog}
    (hL : (openLog P SHAKE256 bsBuf sm pk).Returns L)
    (hL' : (openLog P SHAKE256 bsBuf' sm' pk).Returns L') (hacc : L.state.isSome)
    (hacc' : L'.state.isSome) {i : Nat} (hi : i < P.t) :
    L.G = L'.G ∧ ∃ r r', L.log[i]? = some r ∧ L'.log[i]? = some r' ∧
      r.challenge = L.h.get i ∧ r'.challenge = L'.h.get i ∧
      IsUnit (sq P r.mu).det ∧ IsUnit (sq P r.nu).det ∧
      IsUnit (sq P r'.mu).det ∧ IsUnit (sq P r'.nu).det ∧
      (gen P r.Ghat = gen P r'.Ghat →
        ∀ A B : Arr UInt16, sq P A = (sq P r'.mu)⁻¹ * sq P r.mu →
          sq P B = sq P r.nu * (sq P r'.nu)⁻¹ →
          (pmodMatSystCt P (pi P A B (L.G.get r.challenge.toNat)) P.k (P.m * P.n)).1 = 0 ∧
            gen P (commitG P (L.G.get r.challenge.toNat) A B)
              = gen P (L.G.get r'.challenge.toNat)) := by
  have : Fact P.p.Prime := ⟨hP.prime⟩
  obtain ⟨r, hr, hchal, hc⟩ := openLog_certified hP hL hacc hi
  obtain ⟨r', hr', hchal', hc'⟩ := openLog_certified hP hL' hacc' hi
  have hG : L.G = L'.G := (openLog_parts hL).1.unique (openLog_parts hL').1
  refine ⟨hG, r, r', hr, hr', hchal, hchal', hc.unitMu, hc.unitNu, hc'.unitMu, hc'.unitNu,
    fun heq A B hA hB => ?_⟩
  obtain ⟨hlead, hgen, -⟩ := commitG_spec hP hc.systematic
  obtain ⟨hlead', hgen', -⟩ := commitG_spec hP hc'.systematic
  -- both pairs lead to one systematic matrix
  have hsame : systematic (le_sq P) (gen P (L.G.get r.challenge.toNat)
        * sandwich (sq P r.mu) (sq P r.nu))
      = systematic (le_sq P) (gen P (L'.G.get r'.challenge.toNat)
        * sandwich (sq P r'.mu) (sq P r'.nu)) := by
    rw [← hgen, ← hgen', ← hc.Ghat_eq, ← hc'.Ghat_eq, heq]
  have hlt := openLog_challenge_lt hs hL' hi
  rw [← hchal'] at hlt
  -- so the second pair can be undone behind the first
  obtain ⟨hunit, hsyst⟩ := systematic_undo (le_sq P)
    (loadPublicKey_systematic hP hs (openLog_parts hL').1 hlt) hc'.unitMu hc'.unitNu hlead hlead'
    hsame
  rw [← hA, ← hB] at hunit hsyst
  have hret := commitG_of_lead hP hunit
  refine ⟨hret, ?_⟩
  rw [(commitG_spec hP hret).2.1, hsyst, hG]

/-- The log of a signed message of `tiny` whose challenge is 1, 0. -/
def tinyLog : OpenLog where
  G := ⟨[⟨[1, 0, 0, 0, 0, 1, 2, 0]⟩, ⟨[1, 0, 0, 1, 0, 1, 2, 2]⟩]⟩
  digest := [24]
  h := ⟨[1, 0]⟩
  state := some ⟨⟨8, 8, 0⟩, ⟨[0, 0, 24]⟩, ⟨[0, 0, 2, 0, 2, 1, 2, 1], 0⟩⟩
  log := [⟨1, ⟨[1, 0, 1, 2]⟩, ⟨[0, 1, 1, 1]⟩, ⟨[1, 0, 0, 0, 0, 1, 2, 0]⟩⟩,
    ⟨0, ⟨[2, 0, 0, 1]⟩, ⟨[1, 2, 1, 1]⟩, ⟨[1, 0, 2, 1, 0, 1, 2, 1]⟩⟩]

/-- The log of one whose challenge is 0, 1, with the same matrix at index 1. -/
def tinyLogOther : OpenLog where
  G := tinyLog.G
  digest := [0]
  h := ⟨[0, 1]⟩
  state := some ⟨⟨8, 8, 0⟩, ⟨[0, 15, 0]⟩, ⟨[2, 1, 2, 1, 2, 1, 2, 1], 0⟩⟩
  log := [⟨0, ⟨[1, 1, 0, 2]⟩, ⟨[1, 2, 1, 1]⟩, ⟨[1, 0, 2, 1, 0, 1, 2, 1]⟩⟩,
    ⟨1, ⟨[0, 1, 1, 2]⟩, ⟨[0, 1, 1, 0]⟩, ⟨[1, 0, 2, 1, 0, 1, 2, 1]⟩⟩]

theorem tinyLog_returns :
    (openLog tiny toyShake (fun _ => Arr.empty) [1, 0, 1, 2, 0, 1, 1, 1, 20, 24, 17, 1, 2, 3]
      [1, 2, 2]).Returns tinyLog :=
  Run.returns_of_run (n := 60) (by decide +kernel)

theorem tinyLogOther_returns :
    (openLog tiny toyShake (fun _ => Arr.empty) [0, 1, 1, 2, 0, 1, 1, 0, 20, 0, 17, 1, 2, 3]
      [1, 2, 2]).Returns tinyLogOther :=
  Run.returns_of_run (n := 60) (by decide +kernel)

/-- The pair extracted at index 1 takes G[0] of `tiny` to G[1]. -/
theorem openLog_specialSound_tiny :
    (pmodMatSystCt tiny (pi tiny ⟨[2, 1, 2, 0]⟩ ⟨[2, 1, 1, 1]⟩ (tinyLog.G.get 0)) 2 4).1 = 0 ∧
      gen tiny (commitG tiny (tinyLog.G.get 0) ⟨[2, 1, 2, 0]⟩ ⟨[2, 1, 1, 1]⟩)
        = gen tiny (tinyLog.G.get 1) := by
  obtain ⟨-, r, r', hr, hr', -, -, -, -, hmu, hnu, hall⟩ :=
    openLog_specialSound tiny_valid.toSquare (by decide) tinyLog_returns tinyLogOther_returns rfl
      rfl (i := 1) (by decide)
  obtain rfl := Option.some.inj hr
  obtain rfl := Option.some.inj hr'
  refine hall rfl ⟨[2, 1, 2, 0]⟩ ⟨[2, 1, 1, 1]⟩ ?_ ?_
  · have hmul : sq tiny ⟨[0, 1, 1, 2]⟩ * sq tiny ⟨[2, 1, 2, 0]⟩ = sq tiny ⟨[2, 0, 0, 1]⟩ := by
      decide +kernel
    rw [← hmul]
    exact (Matrix.nonsing_inv_mul_cancel_left _ _ hmu).symm
  · have hmul : sq tiny ⟨[2, 1, 1, 1]⟩ * sq tiny ⟨[0, 1, 1, 0]⟩ = sq tiny ⟨[1, 2, 1, 1]⟩ := by
      decide +kernel
    rw [← hmul]
    exact (Matrix.mul_nonsing_inv_cancel_right _ _ hnu).symm

end Meds.Ref
