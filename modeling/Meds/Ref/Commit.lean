/-
  Meds.Ref.Commit

  The commitment loop that `crypto_sign` and `crypto_sign_open` share.

  What a round computes depends on the tree only through its own leaf, and
  changes only this leaf, however often it retries.  So a verifier that holds
  the same leaf arrives at the same matrices (`Commitment.replay`).  The
  generator it hashes is the systematic form of G[0] under (A_tilde, B_tilde),
  which any representative of the same row space leads to as well.
-/

import Meds.Ref.PublicKey

namespace Meds.Ref

open Meds.Core

variable {P : Params} {SHAKE256 : Shake} {ε : Type}

/-! ## The leaf of a round -/

theorem sigmaOff_eq (i : Nat) :
    sigmaOff P i = P.stSeedBytes * seedTreeAddr P.seedTreeHeight i := by
  rw [sigmaOff, seedTreeAddr_eq, seedTreeAddr_eq, Nat.add_zero, Nat.mul_add, Nat.mul_comm i]

/-- The trees `s` and `s'` hold the same seeds except at leaf `i`. -/
def SameButLeaf (P : Params) (i : Nat) (s s' : Arr UInt8) : Prop :=
  ∀ h' i', i' < 2 ^ h' → ¬ (h' = P.seedTreeHeight ∧ i' = i) → seedAt P s' h' i' = seedAt P s h' i'

theorem SameButLeaf.trans {i : Nat} {s s' s'' : Arr UInt8} (h : SameButLeaf P i s s')
    (h' : SameButLeaf P i s' s'') : SameButLeaf P i s s'' := fun h₁ i₁ hi hne =>
  (h' h₁ i₁ hi hne).trans (h h₁ i₁ hi hne)

theorem seedAt_blit_sigmaOff (s : Arr UInt8) {i : Nat} (hi : i < 2 ^ P.seedTreeHeight)
    (seed : List UInt8) (hlen : seed.length = P.stSeedBytes) :
    seedAt P (s.blit (sigmaOff P i) seed) P.seedTreeHeight i = seed ∧
      SameButLeaf P i s (s.blit (sigmaOff P i) seed) := by
  rw [sigmaOff_eq]
  constructor
  · rw [seedAt_blit_node P s hi hi seed hlen, if_pos ⟨rfl, rfl⟩]
  · intro h' i' hi' hne
    rw [seedAt_blit_node P s hi hi' seed hlen, if_neg hne]

/-- The generator that a round hashes. -/
def commitG (P : Params) (G0 A B : Arr UInt16) : Arr UInt16 :=
  (pmodMatSystCt P (pi P A B G0) P.k (P.m * P.n)).2

/-- One round, as a function of its leaf. -/
theorem commitAttempt_returns {G0 : Arr UInt16} {alpha : List UInt8} {i : Nat} {stree : Arr UInt8}
    {r : Arr UInt8 ⊕ Arr UInt8 × Arr UInt16 × Arr UInt16 × Arr UInt16} :
    (commitAttempt P SHAKE256 G0 alpha i stree : Run ε _).Returns r ↔
      ∃ seed seedA seedB A B, xof SHAKE256 (alpha ++ seedAt P stree P.seedTreeHeight i ++ addrBytes i)
          [P.pubSeedBytes, P.pubSeedBytes, P.stSeedBytes] = [seedA, seedB, seed] ∧
        seed.length = P.stSeedBytes ∧
        (rndInvMatrix P SHAKE256 P.m P.m seedA : Run ε _).Returns A ∧
        (rndInvMatrix P SHAKE256 P.n P.n seedB : Run ε _).Returns B ∧
        r = if (pmodMatSystCt P (pi P A B G0) P.k (P.m * P.n)).1 = 0 then
            .inr (stree.blit (sigmaOff P i) seed, A, B, commitG P G0 A B)
          else .inl (stree.blit (sigmaOff P i) seed) := by
  have hslice : stree.slice (sigmaOff P i) P.stSeedBytes = seedAt P stree P.seedTreeHeight i := by
    rw [sigmaOff_eq]
    rfl
  unfold commitAttempt
  simp only [hslice, xof_three, Run.returns_bind, List.getD_cons_zero, List.getD_cons_succ]
  constructor
  · -- both branches put the next seed into the tree
    rintro ⟨A, hA, B, hB, h⟩
    refine ⟨_, _, _, A, B, rfl, length_streamSlice _ _ _, hA, hB, ?_⟩
    split at h
    · rename_i hret
      rw [if_pos hret]
      exact Run.returns_pure.mp h
    · rename_i hret
      rw [if_neg hret]
      exact Run.returns_pure.mp h
  · rintro ⟨seed, seedA, seedB, A, B, hxof, -, hA, hB, rfl⟩
    simp only [List.cons.injEq, and_true] at hxof
    obtain ⟨rfl, rfl, rfl⟩ := hxof
    refine ⟨A, hA, B, hB, ?_⟩
    split <;> exact Run.returns_pure.mpr rfl

/-- Reduced generators with the same matrix in GF(p) agree in every cell. -/
theorem get_eq_of_gen_eq {G H : Arr UInt16} (hG : Reduced P G (P.n * P.n * P.n))
    (hH : Reduced P H (P.n * P.n * P.n)) (h : gen P G = gen P H) :
    ∀ idx, idx < P.n * P.n * P.n → G.get idx = H.get idx := by
  intro idx hidx
  obtain ⟨r, j, hr, hj, rfl⟩ := exists_flat_nat hidx
  exact eq_of_cast_eq (hG _ hidx) (hH _ hidx) (congrFun (congrFun h ⟨r, hr⟩) ⟨j, hj⟩)

section

variable [hprime : Fact P.p.Prime]

/-- What the commitment loop of round `i` yields from a tree with leaf `seed`. -/
structure Commitment (P : Params) [Fact P.p.Prime] (SHAKE256 : Shake) (ε : Type) (G0 : Arr UInt16)
    (alpha : List UInt8) (i : Nat) (seed : List UInt8) (A B : Arr UInt16) : Prop where
  reducedA : Reduced P A (P.n * P.n)
  reducedB : Reduced P B (P.n * P.n)
  unitA : IsUnit (sq P A).det
  unitB : IsUnit (sq P B).det
  systematic : (pmodMatSystCt P (pi P A B G0) P.k (P.m * P.n)).1 = 0
  replay : ∀ stree : Arr UInt8, seedAt P stree P.seedTreeHeight i = seed →
    ∃ stree', (Run.loop (commitAttempt P SHAKE256 G0 alpha i) stree : Run ε _).Returns
      (stree', A, B, commitG P G0 A B)

/-- The matrices of a commitment loop, wherever its leaf lies. -/
theorem commitLoop_matrices (hP : P.Square) {G0 : Arr UInt16} {alpha : List UInt8} {i : Nat}
    {stree stree' : Arr UInt8} {A B G : Arr UInt16}
    (h : (Run.loop (commitAttempt P SHAKE256 G0 alpha i) stree : Run ε _).Returns
      (stree', A, B, G)) :
    G = commitG P G0 A B ∧ Reduced P A (P.n * P.n) ∧ Reduced P B (P.n * P.n) ∧
      IsUnit (sq P A).det ∧ IsUnit (sq P B).det ∧
      (pmodMatSystCt P (pi P A B G0) P.k (P.m * P.n)).1 = 0 := by
  have hp := hP.p_le_16
  refine Run.loop_invariant (I := fun _ => True)
    (Q := fun r : Arr UInt8 × Arr UInt16 × Arr UInt16 × Arr UInt16 =>
      r.2.2.2 = commitG P G0 r.2.1 r.2.2.1 ∧ Reduced P r.2.1 (P.n * P.n) ∧
        Reduced P r.2.2.1 (P.n * P.n) ∧ IsUnit (sq P r.2.1).det ∧ IsUnit (sq P r.2.2.1).det ∧
        (pmodMatSystCt P (pi P r.2.1 r.2.2.1 G0) P.k (P.m * P.n)).1 = 0)
    (fun _ _ _ _ => trivial) ?_ trivial h
  intro s r _ hr
  obtain ⟨seed, seedA, seedB, A, B, -, -, hA, hB, hr⟩ := commitAttempt_returns.mp hr
  rw [hP.m_eq] at hA
  obtain ⟨hredA, hunitA⟩ := rndInvMatrix_returns hp hA
  obtain ⟨hredB, hunitB⟩ := rndInvMatrix_returns hp hB
  split at hr
  · rename_i hret
    cases hr
    exact ⟨rfl, hredA, hredB, hunitA, hunitB, hret⟩
  · cases hr

/-- The commitment loop changes only its own leaf and can be replayed. -/
theorem commitLoop_returns (hP : P.Square) {G0 : Arr UInt16} {alpha : List UInt8} {i : Nat}
    (hi : i < 2 ^ P.seedTreeHeight) {stree stree' : Arr UInt8} {A B G : Arr UInt16}
    (h : (Run.loop (commitAttempt P SHAKE256 G0 alpha i) stree : Run ε _).Returns
      (stree', A, B, G)) :
    G = commitG P G0 A B ∧ SameButLeaf P i stree stree' ∧
      Commitment P SHAKE256 ε G0 alpha i (seedAt P stree P.seedTreeHeight i) A B := by
  obtain ⟨hG, hredA, hredB, hunitA, hunitB, hret⟩ := commitLoop_matrices hP h
  have hsame : SameButLeaf P i stree stree' := by
    refine Run.loop_invariant (I := fun s => SameButLeaf P i stree s)
      (Q := fun r : Arr UInt8 × Arr UInt16 × Arr UInt16 × Arr UInt16 =>
        SameButLeaf P i stree r.1) ?_ ?_ (fun _ _ _ _ => rfl) h
    · intro s s' hs hr
      obtain ⟨seed, seedA, seedB, A, B, -, hlen, -, -, hr⟩ := commitAttempt_returns.mp hr
      split at hr
      · cases hr
      · cases hr
        intro h' i' hi' hne
        rw [(seedAt_blit_sigmaOff s hi seed hlen).2 h' i' hi' hne, hs h' i' hi' hne]
    · intro s r hs hr
      obtain ⟨seed, seedA, seedB, A, B, -, hlen, -, -, hr⟩ := commitAttempt_returns.mp hr
      split at hr
      · cases hr
        intro h' i' hi' hne
        rw [(seedAt_blit_sigmaOff s hi seed hlen).2 h' i' hi' hne, hs h' i' hi' hne]
      · cases hr
  refine ⟨hG, hsame, hredA, hredB, hunitA, hunitB, hret, fun t ht => ?_⟩
  -- rounds on trees with the same leaf stay in step
  obtain ⟨⟨t', A', B', G'⟩, hloop, heq⟩ := Run.loop_simulation
    (commitAttempt P SHAKE256 G0 alpha i)
    (R := fun s t => seedAt P t P.seedTreeHeight i = seedAt P s P.seedTreeHeight i)
    (S := fun r r' : Arr UInt8 × Arr UInt16 × Arr UInt16 × Arr UInt16 => r'.2 = r.2)
    (by
      intro s t s' hst hs
      obtain ⟨seed, seedA, seedB, A, B, hxof, hlen, hA, hB, hr⟩ := commitAttempt_returns.mp hs
      split at hr
      · cases hr
      · rename_i hret
        cases hr
        refine ⟨t.blit (sigmaOff P i) seed, commitAttempt_returns.mpr
          ⟨seed, seedA, seedB, A, B, by rw [hst]; exact hxof, hlen, hA, hB, by rw [if_neg hret]⟩, ?_⟩
        rw [(seedAt_blit_sigmaOff t hi seed hlen).1, (seedAt_blit_sigmaOff s hi seed hlen).1]) (by
      intro s t r hst hs
      obtain ⟨seed, seedA, seedB, A, B, hxof, hlen, hA, hB, hr⟩ := commitAttempt_returns.mp hs
      split at hr
      · rename_i hret
        cases hr
        exact ⟨(t.blit (sigmaOff P i) seed, A, B, commitG P G0 A B), commitAttempt_returns.mpr
          ⟨seed, seedA, seedB, A, B, by rw [hst]; exact hxof, hlen, hA, hB, by rw [if_pos hret]⟩, rfl⟩
      · cases hr) ht h
  simp only [Prod.mk.injEq] at heq
  obtain ⟨rfl, rfl, rfl⟩ := heq
  exact ⟨t', hG ▸ hloop⟩

/-! ## Responses -/

/-- The systematic form that `pmod_mat_syst_ct` leaves, when it succeeds. -/
theorem commitG_spec (hP : P.Square) {G0 A B : Arr UInt16}
    (h : (pmodMatSystCt P (pi P A B G0) P.k (P.m * P.n)).1 = 0) :
    IsUnit (lead (le_sq P) (gen P G0 * sandwich (sq P A) (sq P B))).det ∧
      gen P (commitG P G0 A B) = systematic (le_sq P) (gen P G0 * sandwich (sq P A) (sq P B)) ∧
      Reduced P (commitG P G0 A B) (P.n * P.n * P.n) := by
  have hp := hP.p_le_16
  have hpi := pi_spec hP.m_eq hP.k_eq hprime.out.pos hp A B G0
  have hgen : gen P (pi P A B G0) = gen P G0 * sandwich (sq P A) (sq P B) := hpi.block_eq
  unfold commitG
  rw [hP.k_eq, hP.m_eq] at h ⊢
  rcases pmodMatSystCt_spec P.n (P.n * P.n) (P := P) hpi.reduced (le_sq P) hp with
    ⟨hlead, -, hS⟩ | ⟨-, hret⟩
  · rw [← hgen]
    exact ⟨hlead, hS.block_eq, hS.reduced⟩
  · rw [hret] at h
    exact absurd h (by decide)

/-- The response `(A_tilde * A_inv, B_inv * B_tilde)` takes G[h] to the generator
    that was committed to. -/
theorem response_commitG (hP : P.Square) {G0 Gh Ainv Binv A B mu nu G : Arr UInt16}
    (hK : KeyPair P G0 Gh Ainv Binv) (hunitA : IsUnit (sq P A).det) (hunitB : IsUnit (sq P B).det)
    (hret : (pmodMatSystCt P (pi P A B G0) P.k (P.m * P.n)).1 = 0)
    (hG : gen P G = gen P Gh) (hmu : sq P mu = sq P A * sq P Ainv)
    (hnu : sq P nu = sq P Binv * sq P B) :
    IsUnit (sq P mu).det ∧ IsUnit (sq P nu).det ∧
      (pmodMatSystCt P (pi P mu nu G) P.k (P.m * P.n)).1 = 0 ∧
      ∀ idx, idx < P.n * P.n * P.n →
        (commitG P G mu nu).get idx = (commitG P G0 A B).get idx := by
  have hp := hP.p_le_16
  obtain ⟨X, Y, hX, hY, hleadF, hgenh⟩ := hK.orbit
  obtain ⟨hleadT, hgenT, hredT⟩ := commitG_spec hP hret
  have hunitmu : IsUnit (sq P mu).det := by
    rw [hmu, Matrix.det_mul]
    exact hunitA.mul (IsUnit.of_mul_eq_one _ (by rw [← Matrix.det_mul, hX, Matrix.det_one]))
  have hunitnu : IsUnit (sq P nu).det := by
    rw [hnu, Matrix.det_mul]
    refine IsUnit.mul (IsUnit.of_mul_eq_one (Y.det) ?_) hunitB
    rw [mul_comm, ← Matrix.det_mul, hY, Matrix.det_one]
  -- the two actions differ by row operations only
  have hgenpi : gen P G * sandwich (sq P mu) (sq P nu)
      = (lead (le_sq P) (gen P G0 * sandwich X Y))⁻¹
        * (gen P G0 * sandwich (sq P A) (sq P B)) := by
    have hXmu : sq P mu * X = sq P A := by rw [hmu, Matrix.mul_assoc, hX, Matrix.mul_one]
    have hYnu : Y * sq P nu = sq P B := by rw [hnu, ← Matrix.mul_assoc, hY, Matrix.one_mul]
    rw [hG, hgenh, systematic, Matrix.mul_assoc, Matrix.mul_assoc, sandwich_mul, hXmu, hYnu]
  have hunitU : IsUnit (lead (le_sq P) (gen P G0 * sandwich X Y))⁻¹.det :=
    Matrix.isUnit_nonsing_inv_det _ hleadF
  have hpi := pi_spec hP.m_eq hP.k_eq hprime.out.pos hp mu nu G
  have hgen : gen P (pi P mu nu G) = gen P G * sandwich (sq P mu) (sq P nu) := hpi.block_eq
  have hlead : IsUnit (lead (le_sq P) (gen P (pi P mu nu G))).det := by
    rw [hgen, hgenpi, lead_mul, Matrix.det_mul]
    exact hunitU.mul hleadT
  have hret' : (pmodMatSystCt P (pi P mu nu G) P.k (P.m * P.n)).1 = 0 := by
    rw [hP.k_eq, hP.m_eq]
    rcases pmodMatSystCt_spec P.n (P.n * P.n) (P := P) hpi.reduced (le_sq P) hp with
      ⟨-, hret, -⟩ | ⟨hdet, -⟩
    · exact hret
    · exact absurd (hdet ▸ hlead) not_isUnit_zero
  obtain ⟨-, hgenR, hredR⟩ := commitG_spec hP hret'
  refine ⟨hunitmu, hunitnu, hret', get_eq_of_gen_eq hredR hredT ?_⟩
  rw [hgenR, hgenT, hgenpi, systematic_mul (le_sq P) hunitU]

end

end Meds.Ref
