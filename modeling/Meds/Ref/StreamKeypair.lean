/-
  Meds.Ref.StreamKeypair

  Key generation on the memory-reduced device against meds_serial.c.

  G_0, Ti * G_0 and G[i] share the buffer G_data.  A round that finds its
  matrices leaves G_0 there, read back from the host; a round that fails
  leaves something else, and the next one starts from that.  So the device
  follows meds_serial.c as long as every index succeeds at its first attempt.
-/

import Meds.Ref.Echo

namespace Meds.Ref

open Meds.Core

variable {P : Params} {SHAKE256 : Shake} {ε : Type}

/-- The host answers with the first matrix it has received, G_0. -/
def keypairHost (sent : List (Arr UInt16)) (_ : Nat) : Arr UInt16 := sent.headD Arr.empty

section

variable (P SHAKE256)

/-- The matrices sent for index `i`, when `K` has been computed. -/
def sentFor (K : KeyMatrices) (i : Nat) : List (Arr UInt16) :=
  [⟨(K.Ainv.get i).slice 0 (P.m * P.m)⟩, ⟨(K.Binv.get i).slice 0 (P.m * P.m)⟩,
    ⟨(K.G.get i).slice 0 (P.k * P.m * P.n)⟩]

/-- G_0 and the matrices of indices `1, …, i - 1`. -/
def keypairLog (K : KeyMatrices) (i : Nat) : List (Arr UInt16) :=
  ⟨(K.G.get 0).slice 0 (P.k * P.m * P.n)⟩ :: (List.range' 1 (i - 1)).flatMap (sentFor P K)

/-- Whatever matrices `crypto_sign_keypair` computes, the device sends them. -/
def KeypairRefines (delta : List UInt8) : Prop :=
  ∀ sigmaG0 K, (keypairMatrices P SHAKE256 delta : Run Fault _).Returns (sigmaG0, K) →
    ∃ e, Session.Ends (streamMatrices (echoHal keypairHost []) P SHAKE256 true delta) Echo.start
      sigmaG0 e ∧ e.sent = keypairLog P K P.s

/-- `sigma_G0`. -/
def keypairSeed (delta : List UInt8) : List UInt8 :=
  (xof SHAKE256 delta [P.pubSeedBytes, P.secSeedBytes]).getD 0 []

/-- `sigma` after `i` rounds. -/
def keypairSigma (delta : List UInt8) : Nat → List UInt8
  | 0 => (xof SHAKE256 delta [P.pubSeedBytes, P.secSeedBytes]).getD 1 []
  | i + 1 =>
    (xof SHAKE256 (keypairSigma delta i) [P.secSeedBytes, P.secSeedBytes, P.secSeedBytes]).getD 2 []

/-- Every index finds its matrices at the first attempt. -/
def KeypairFirstTry (delta : List UInt8) : Prop :=
  ∀ G0, (rndSysMat P SHAKE256 P.k (P.m * P.n) (keypairSeed P SHAKE256 delta) : Run Fault _).Returns
      G0 →
    ∀ i, 1 ≤ i → i < P.s →
      ∃ r, (keypairAttempt P SHAKE256 G0 (keypairSigma P SHAKE256 delta (i - 1)) :
        Run Fault _).Returns (.inr r)

end

/-- The matrices of a round that succeeds. -/
theorem keypairAttempt_inr {G0 Ainv Binv Gi : Arr UInt16} {sigma sigma' : List UInt8}
    (h : (keypairAttempt P SHAKE256 G0 sigma : Run ε _).Returns (.inr (sigma', Ainv, Binv, Gi))) :
    ∃ bufs, bufs = xof SHAKE256 sigma [P.secSeedBytes, P.secSeedBytes, P.secSeedBytes] ∧
      sigma' = bufs.getD 2 [] ∧
      ∃ Ti Amm shake S, (rndInvMatrix P SHAKE256 P.k P.k (bufs.getD 1 []) : Run ε _).Returns Ti ∧
        (rndGF P SHAKE256 (shake256AbsorbOnce (bufs.getD 0 [])) : Run ε _).Returns (Amm, shake) ∧
        solveInvert P (tiMul P Ti G0) Amm = some S ∧
        (pmodMatSystCt P (pi P S.A S.B G0) P.k (P.m * P.n)).1 = 0 ∧ Ainv = S.Ainv ∧
        Binv = S.Binv ∧ Gi = (pmodMatSystCt P (pi P S.A S.B G0) P.k (P.m * P.n)).2 := by
  unfold keypairAttempt at h
  simp only [Run.returns_bind] at h
  obtain ⟨Ti, hTi, ⟨Amm, shake⟩, hAmm, h⟩ := h
  refine ⟨_, rfl, ?_⟩
  simp only at h
  have hmul : pmodMatMul P Arr.empty P.k (P.m * P.n) Ti P.k P.k G0 (P.m * P.n) = tiMul P Ti G0 :=
    rfl
  rw [hmul] at h
  -- each of the four tests that fail leads to another round
  cases hsol : solve P (tiMul P Ti G0) Amm with
  | none =>
      rw [hsol, Run.returns_pure] at h
      cases h
  | some AB =>
      obtain ⟨A, Binv'⟩ := AB
      rw [hsol] at h
      simp only at h
      cases hB : pmodMatInv P Binv' P.n P.n with
      | none =>
          rw [hB, Run.returns_pure] at h
          cases h
      | some B =>
          rw [hB] at h
          simp only at h
          cases hA : pmodMatInv P A P.m P.m with
          | none =>
              rw [hA, Run.returns_pure] at h
              cases h
          | some Ainv' =>
              rw [hA] at h
              simp only at h
              split at h
              · rw [Run.returns_pure] at h
                cases h
              · rename_i hret
                rw [Run.returns_pure] at h
                cases h
                exact ⟨rfl, Ti, Amm, shake, ⟨A, B, Ainv, Binv⟩, hTi, hAmm,
                  by simp only [solveInvert, hsol, hB, hA], not_not.mp hret, rfl, rfl, rfl⟩

section

variable [hprime : Fact P.p.Prime]

/-- A round that succeeds sends its matrices and leaves G_0 in the buffer. -/
theorem streamAttempt_ends (hP : P.Square) (Gbuf : Arr UInt16)
    {G0 Gdata Ainv Binv Gi : Arr UInt16} {sigma sigma' : List UInt8} {e : Echo} {rest : List (Arr UInt16)}
    (hG : SameCells (P.n * P.n * P.n) Gdata G0)
    (hfirst : e.sent = ⟨G0.slice 0 (P.k * P.m * P.n)⟩ :: rest)
    (h : (keypairAttempt P SHAKE256 G0 sigma : Run Fault _).Returns
      (.inr (sigma', Ainv, Binv, Gi))) :
    ∃ Gdata' e', Session.Ends
        (streamAttempt (echoHal keypairHost []) P SHAKE256 true Gbuf (sigma, Gdata)) e
        (.inr (sigma', Gdata')) e' ∧
      SameCells (P.n * P.n * P.n) Gdata' G0 ∧
      e'.sent = e.sent ++ [⟨Ainv.slice 0 (P.m * P.m)⟩, ⟨Binv.slice 0 (P.m * P.m)⟩,
        ⟨Gi.slice 0 (P.k * P.m * P.n)⟩] := by
  obtain ⟨bufs, hbufs, rfl, Ti, Amm, shake, S, hTi, hAmm, hsol, hret, rfl, rfl, rfl⟩ :=
    keypairAttempt_inr h
  have hlen := genLen_eq hP
  have h2 : P.m * P.n + P.m * P.n ≤ P.n * P.n * P.n := by
    have := Nat.mul_le_mul_left (P.n * P.n) hP.two_le_n
    rw [hP.m_eq]
    omega
  have hsol' : solveInvert P (tiMulInPlace P Ti Gdata) Amm = some S := by
    rw [← hsol]
    exact solveInvert_congr (fun i hi => tiMulInPlace_same hP hG i (by omega)) Amm
  -- every read gives G_0
  have hback : ∀ sent k, e.sent <+: sent →
      SameCells (P.n * P.n * P.n) ⟨(keypairHost sent k).slice 0 (P.k * P.m * P.n)⟩ G0 := by
    rintro sent k ⟨more, rfl⟩ idx hidx
    rw [← hlen] at hidx
    rw [sameCells_slice _ _ idx hidx, keypairHost, hfirst]
    exact sameCells_slice G0 _ idx hidx
  obtain ⟨hret', hsame⟩ :=
    systCt_piInPlace hP S.A S.B (hback e.sent e.reads (List.prefix_refl _)) hret
  rw [← hlen] at hsame
  obtain ⟨sent, hsent⟩ : ∃ sent, sent = e.sent ++ [⟨S.Ainv.slice 0 (P.m * P.m)⟩] ++
      [⟨S.Binv.slice 0 (P.m * P.m)⟩] ++ [⟨(pmodMatSystCt P (piInPlace P S.A S.B
        ⟨(keypairHost e.sent e.reads).slice 0 (P.k * P.m * P.n)⟩) P.k
          (P.m * P.n)).2.slice 0 (P.k * P.m * P.n)⟩] := ⟨_, rfl⟩
  refine ⟨⟨(keypairHost sent (e.reads + 1)).slice 0 (P.k * P.m * P.n)⟩,
    ⟨sent, e.reads + 1 + 1, e.chunks⟩, ?ends, hback sent _ ?more, ?log⟩
  case ends =>
    subst hsent
    unfold streamAttempt
    simp only [← hbufs, if_true]
    refine (ends_run hTi).bind ((ends_run hAmm).bind ?_)
    simp only [hsol']
    refine (ends_putchar 0).bind ((ends_readStream _).bind ?_)
    rw [if_neg (not_not.mpr hret')]
    exact (ends_writeStream _ _).bind ((ends_writeStream _ _).bind ((ends_writeStream _ _).bind
      ((ends_readStream _).bind (ends_getchar.bind (Session.ends_pure _ _)))))
  case more =>
    rw [hsent, List.append_assoc, List.append_assoc]
    exact List.prefix_append _ _
  case log =>
    rw [hsent, hsame.slice_eq, List.append_assoc, List.append_assoc]
    rfl

/-- The device before index `i`, beside `crypto_sign_keypair` before index `i`. -/
structure KeypairStep (P : Params) (SHAKE256 : Shake) (delta : List UInt8) (G0 : Arr UInt16) (i : Nat)
    (s : List UInt8 × KeyMatrices) (t : List UInt8 × Arr UInt16) (e : Echo) : Prop where
  sigma : s.1 = keypairSigma P SHAKE256 delta (i - 1)
  same : t.1 = s.1
  buffer : SameCells (P.n * P.n * P.n) t.2 G0
  zero : s.2.G.get 0 = G0
  log : e.sent = keypairLog P s.2 i

omit hprime in
theorem keypairLog_set {K : KeyMatrices} {i : Nat} (hi : 1 ≤ i) (Gi Ainv Binv : Arr UInt16) :
    keypairLog P { G := K.G.set i Gi, Ainv := K.Ainv.set i Ainv, Binv := K.Binv.set i Binv } (i + 1)
      = keypairLog P K i ++ [⟨Ainv.slice 0 (P.m * P.m)⟩, ⟨Binv.slice 0 (P.m * P.m)⟩,
          ⟨Gi.slice 0 (P.k * P.m * P.n)⟩] := by
  have hrange : List.range' 1 (i + 1 - 1) = List.range' 1 (i - 1) ++ [i] := by
    rw [show i + 1 - 1 = (i - 1) + 1 by omega, List.range'_concat,
      show 1 + 1 * (i - 1) = i by omega]
  unfold keypairLog
  rw [hrange, List.flatMap_append, Arr.get_set_ne _ _ (show 0 ≠ i by omega), List.cons_append]
  refine congrArg _ (congrArg₂ _ (List.flatMap_congr fun j hj => ?_) ?_)
  · rw [List.mem_range'_1] at hj
    unfold sentFor
    simp only [Arr.get_set_ne _ _ (show j ≠ i by omega)]
  · simp [sentFor]

theorem keypairIndex_step (hP : P.Square) {delta : List UInt8} {G0 Gbuf : Arr UInt16} {i : Nat}
    {s s' : List UInt8 × KeyMatrices} {t : List UInt8 × Arr UInt16} {e : Echo} (hi : 1 ≤ i)
    (hfirst : ∃ r, (keypairAttempt P SHAKE256 G0 (keypairSigma P SHAKE256 delta (i - 1)) :
      Run Fault _).Returns (.inr r))
    (hR : KeypairStep P SHAKE256 delta G0 i s t e)
    (h : (keypairIndex P SHAKE256 G0 i s : Run Fault _).Returns s') :
    ∃ t' e', Session.Ends ((echoHal keypairHost []).loop
        (streamAttempt (echoHal keypairHost []) P SHAKE256 true Gbuf) t) e t' e' ∧
      KeypairStep P SHAKE256 delta G0 (i + 1) s' t' e' := by
  obtain ⟨sigma, K⟩ := s
  obtain ⟨sigma', Gdata⟩ := t
  obtain ⟨⟨sigma₁, Ainv, Binv, Gi⟩, hr⟩ := hfirst
  obtain rfl := hR.sigma
  obtain rfl := hR.same
  obtain ⟨Gdata', e', hends, hsame, hsent⟩ :=
    streamAttempt_ends hP Gbuf hR.buffer (by rw [hR.log, keypairLog, hR.zero]) hr
  unfold keypairIndex at h
  rw [Run.returns_bind] at h
  obtain ⟨r, hloop, hs'⟩ := h
  obtain rfl := hloop.unique (Run.returns_loop_break hr)
  rw [Run.returns_pure] at hs'
  refine ⟨_, e', Session.ends_loop_break hends, ?_⟩
  subst hs'
  refine ⟨?_, rfl, hsame, ?_, ?_⟩
  · obtain ⟨bufs, rfl, hsigma, -⟩ := keypairAttempt_inr hr
    obtain ⟨j, rfl⟩ : ∃ j, i = j + 1 := ⟨i - 1, by omega⟩
    exact hsigma
  · exact (Arr.get_set_ne _ _ (by omega)).trans hR.zero
  · rw [hsent, hR.log, keypairLog_set hi]

end

/-- Without a failed attempt the device sends the matrices of `crypto_sign_keypair`. -/
theorem keypairRefines_of_firstTry (hP : P.Valid) {delta : List UInt8}
    (h : KeypairFirstTry P SHAKE256 delta) : KeypairRefines P SHAKE256 delta := by
  have : Fact P.p.Prime := ⟨hP.prime⟩
  intro sigmaG0 K hK
  unfold keypairMatrices at hK
  simp only [Run.returns_bind] at hK
  obtain ⟨G0, hG0, ⟨sigma, K'⟩, hloop, hK⟩ := hK
  rw [Run.returns_pure, Prod.mk.injEq] at hK
  obtain ⟨rfl, rfl⟩ := hK
  unfold streamMatrices
  simp only [if_true]
  obtain ⟨t, e, hends, hR⟩ := Session.forUpM_simulation
    (g := fun _ s => (echoHal keypairHost []).loop
      (streamAttempt (echoHal keypairHost []) P SHAKE256 true G0) s)
    (KeypairStep P SHAKE256 delta G0) (show 1 ≤ P.s from hP.two_le_s.trans' (by decide))
    (fun i s t e s' h1 h2 hR hstep => keypairIndex_step hP.toSquare h1 (h G0 hG0 i h1 h2) hR hstep)
    (t := (keypairSigma P SHAKE256 delta 0, G0))
    (e := { Echo.start with sent := [⟨G0.slice 0 (P.k * P.m * P.n)⟩] })
    ⟨rfl, rfl, fun _ _ => rfl, Arr.get_set_self _ _ _, by simp [keypairLog]⟩ hloop
  exact ⟨e, (ends_run hG0).bind ((ends_putchar 0).bind ((ends_writeStream _ _).bind
    (ends_getchar.bind (hends.bind (Session.ends_pure _ _))))), hR.log⟩

set_option synthInstance.maxSize 400 in
/-- With the seed 4, the only index succeeds at once. -/
theorem keypairRefines_four : KeypairRefines tiny toyShake [4] := by
  refine keypairRefines_of_firstTry tiny_valid ?_
  intro G0 hG0 i h1 h2
  obtain rfl : i = 1 := by
    change i < 2 at h2
    omega
  obtain rfl := hG0.unique (Run.returns_of_run (n := 60) (a := ⟨[1, 0, 2, 0, 0, 1, 1, 2]⟩)
    (by decide +kernel))
  exact ⟨([7], ⟨[2, 0, 0, 2]⟩, ⟨[1, 2, 1, 1]⟩, ⟨[1, 0, 0, 1, 0, 1, 2, 1]⟩),
    Run.returns_of_run (n := 60) (by decide +kernel)⟩

/-- With the seed 0 the first `solve` fails, and the device ends up sending other matrices. -/
theorem not_keypairRefines_zero : ¬ KeypairRefines tiny toyShake [0] := by
  intro h
  obtain ⟨e, hends, hlog⟩ := h [1]
    { G := ⟨[⟨[1, 0, 0, 0, 0, 1, 2, 0]⟩, ⟨[1, 0, 0, 1, 0, 1, 2, 2]⟩]⟩
      Ainv := ⟨[⟨[]⟩, ⟨[2, 2, 2, 1]⟩]⟩
      Binv := ⟨[⟨[]⟩, ⟨[2, 1, 1, 1]⟩]⟩ }
    (Run.returns_of_run (n := 60) (by decide +kernel))
  have hdevice : Session.Ends (streamMatrices (echoHal keypairHost []) tiny toyShake true [0])
      Echo.start [1]
      { sent := [⟨[1, 0, 0, 0, 0, 1, 2, 0]⟩, ⟨[1, 1, 2, 1]⟩, ⟨[2, 2, 1, 2]⟩,
          ⟨[1, 0, 0, 1, 0, 1, 2, 2]⟩]
        reads := 2
        chunks := [] } :=
    Run.returns_of_run (n := 60) (by decide +kernel)
  obtain ⟨-, rfl⟩ := hends.unique hdevice
  exact absurd hlog (by decide +kernel)

end Meds.Ref
