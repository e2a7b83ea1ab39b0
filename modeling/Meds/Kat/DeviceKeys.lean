/-
  Meds.Kat.DeviceKeys

  Key generation on the line, for builds without memory reduction.

  What is sent and received is the script of the host, seen from the other
  side.  The matrices that the host keeps are those of `crypto_sign_keypair`,
  and the lines of the key are its bytes, as long as no round fails after the
  ready byte.
-/

import Meds.Ref.KeygenDialog
import Meds.Ref.SignedOpens
import Meds.Sage.KatMemory

namespace Meds.Kat.Device

open Meds.Core Meds.Ref
open Meds.Sage (recvLine recvHex sendBytes recordKey answer keysScript askG0 echoG0)

variable {P : Params} {SHAKE256 : Shake}

/-! ## The host's scripts from the other side -/

theorem dual_map_send (l : List UInt8) : Network.dual (l.map .send) = l.map .recv := by
  simp [Network.dual, Act.dual]

theorem dual_sendBytes (l : List UInt8) : Network.dual (sendBytes l) = l.map .recv := dual_map_send l

theorem dual_recvLine (l : List UInt8) : Network.dual (recvLine l) = (l ++ [newline]).map .send := by
  simp [Network.dual, recvLine, Act.dual]

theorem dual_recvHex (l : List UInt8) :
    Network.dual (recvHex l) = (l.flatMap hex2 ++ [newline]).map .send := dual_recvLine _

theorem dual_flatMap {α : Type} (l : List α) (p : α → List (Act UInt8)) :
    Network.dual (l.flatMap p) = l.flatMap fun i => Network.dual (p i) := List.map_flatMap ..

/-! ## Rounds -/

section

variable {G0 Ainv Binv Gi : Arr UInt16} {sigma : List UInt8}

/-- Apart from the ready byte, a round is that of meds_serial.c. -/
theorem keypairAttempt_eq (G0 : Arr UInt16) (s : List UInt8 × Arr UInt16) :
    (keypairAttempt P SHAKE256 G0 s.1 : Run Fault _)
      = streamPrepare P SHAKE256 false G0 s >>= fun r => pure
          (match r.2.2 with
          | none => .inl r.1
          | some S =>
            if (foundG P false G0 S).1 ≠ 0 then .inl r.1
            else .inr (r.1, S.Ainv, S.Binv, (foundG P false G0 S).2)) := by
  unfold keypairAttempt streamPrepare
  simp only [bind_assoc, pure_bind]
  refine bind_congr fun Ti => bind_congr fun Amm => ?_
  simp only [Bool.false_eq_true, if_false, tiMul, solveInvert]
  cases solve P (pmodMatMul P Arr.empty P.k (P.m * P.n) Ti P.k P.k G0 (P.m * P.n)) Amm.1 with
  | none => rfl
  | some r =>
      obtain ⟨A, Binv⟩ := r
      dsimp only
      cases pmodMatInv P Binv P.n P.n with
      | none => rfl
      | some B =>
          dsimp only
          cases pmodMatInv P A P.m P.m with
          | none => rfl
          | some Ainv => exact (apply_ite pure _ _ _).symm

/-- A round that fails, fails before the ready byte. -/
theorem keygenRound_inl {s : List UInt8 × Arr UInt16}
    (h : (keypairAttempt P SHAKE256 G0 s.1 : Run Fault _).Returns (.inl sigma))
    (hlate : ¬ (keygenRound P SHAKE256 false G0 s).Faults .late) :
    ∃ Gdata, (keygenRound P SHAKE256 false G0 s).Returns (.inl (sigma, Gdata)) := by
  rw [keypairAttempt_eq] at h
  obtain ⟨⟨sigma', Gdata, o⟩, hprep, h⟩ := Run.returns_bind.mp h
  have h := Run.returns_pure.mp h
  cases o with
  | none =>
      obtain rfl := Sum.inl.inj h
      exact ⟨Gdata, keygenRound_returns.mpr ⟨_, _, _, hprep, rfl⟩⟩
  | some S =>
      by_cases hret : (foundG P false G0 S).1 = 0
      · simp [hret] at h
      · refine absurd (Run.faults_bind.mpr (Or.inr ⟨_, Run.returns_mapFault.mpr hprep, ?_⟩)) hlate
        simp only
        rw [if_pos hret]
        exact Run.faults_fail.mpr rfl

/-- A round that finds its matrices finds those of meds_serial.c. -/
theorem keygenRound_inr {s : List UInt8 × Arr UInt16}
    (h : (keypairAttempt P SHAKE256 G0 s.1 : Run Fault _).Returns (.inr (sigma, Ainv, Binv, Gi))) :
    ∃ S, (keygenRound P SHAKE256 false G0 s).Returns (.inr ((sigma, Gi), S)) ∧ S.Ainv = Ainv ∧
      S.Binv = Binv ∧ (foundG P false G0 S).2 = Gi := by
  rw [keypairAttempt_eq] at h
  obtain ⟨⟨sigma', Gdata, o⟩, hprep, h⟩ := Run.returns_bind.mp h
  have h := Run.returns_pure.mp h
  cases o with
  | none => cases h
  | some S =>
      by_cases hret : (foundG P false G0 S).1 = 0
      · simp only [hret, ne_eq, not_true, if_false, Sum.inr.injEq, Prod.mk.injEq] at h
        obtain ⟨rfl, rfl, rfl, rfl⟩ := h
        exact ⟨S, keygenRound_returns.mpr ⟨_, _, _, hprep, hret, rfl⟩, rfl, rfl, rfl⟩
      · simp [hret] at h

/-- The rounds of one index, with any number of retries. -/
theorem keygenLoop_returns {s : List UInt8 × Arr UInt16}
    (h : (Run.loop (keypairAttempt P SHAKE256 G0) s.1 : Run Fault _).Returns (sigma, Ainv, Binv, Gi))
    (hlate : ¬ (Run.loop (keygenRound P SHAKE256 false G0) s).Faults .late) :
    ∃ S, (Run.loop (keygenRound P SHAKE256 false G0) s).Returns ((sigma, Gi), S) ∧ S.Ainv = Ainv ∧
      S.Binv = Binv ∧ (foundG P false G0 S).2 = Gi := by
  -- on the rounds of meds_serial.c
  have key : ∀ Gdata, ¬ (Run.loop (keygenRound P SHAKE256 false G0) (s.1, Gdata)).Faults .late →
      ∃ S, (Run.loop (keygenRound P SHAKE256 false G0) (s.1, Gdata)).Returns ((sigma, Gi), S) ∧
        S.Ainv = Ainv ∧ S.Binv = Binv ∧ (foundG P false G0 S).2 = Gi := by
    refine Run.loop_induction (P := fun sigma₀ => ∀ Gdata,
      ¬ (Run.loop (keygenRound P SHAKE256 false G0) (sigma₀, Gdata)).Faults .late →
      ∃ S, (Run.loop (keygenRound P SHAKE256 false G0) (sigma₀, Gdata)).Returns ((sigma, Gi), S) ∧
        S.Ainv = Ainv ∧ S.Binv = Binv ∧ (foundG P false G0 S).2 = Gi)
      (fun sigma₀ hfound Gdata _ => ?_) (fun sigma₀ sigma₁ hfail _ ih Gdata hlate => ?_) h
    · obtain ⟨S, hround, hS⟩ := keygenRound_inr (s := (sigma₀, Gdata)) hfound
      exact ⟨S, Run.returns_loop_break hround, hS⟩
    · obtain ⟨Gdata₁, hround⟩ := keygenRound_inl (s := (sigma₀, Gdata)) hfail
        fun hf => hlate (Run.faults_loop.mpr (Or.inl hf))
      obtain ⟨S, hloop, hS⟩ := ih Gdata₁ fun hf => hlate (Run.faults_loop.mpr (Or.inr ⟨_, hround, hf⟩))
      exact ⟨S, Run.returns_loop_continue hround hloop, hS⟩
  exact key s.2 hlate

end

/-! ## The matrices -/

/-- A test case of the host has the key of `K`. -/
structure KeysOf (P : Params) (delta sigmaG0 : List UInt8) (K : KeyMatrices) (d : Sage.TestCase) :
    Prop where
  Ainv : ∀ i, d.Ainv i = matrixBytes (K.Ainv.get i) (P.m * P.m)
  Binv : ∀ i, d.Binv i = matrixBytes (K.Binv.get i) (P.m * P.m)
  G : ∀ i, d.G i = matrixBytes (K.G.get i) (P.k * P.m * P.n)
  sk : d.sk = delta ++ sigmaG0 ++ skBlocks P K
  pk : ∀ i, d.pk i = pkChunk P sigmaG0 K i

/-- The matrices of one index. -/
theorem indexScript_eq {G0 : Arr UInt16} {S : Solved} {d : Sage.TestCase} {i : Nat}
    (hA : d.Ainv i = matrixBytes S.Ainv (P.m * P.m)) (hB : d.Binv i = matrixBytes S.Binv (P.m * P.m))
    (hG : d.G i = matrixBytes (foundG P false G0 S).2 (P.k * P.m * P.n)) :
    indexScript P false G0 S = Network.dual (recordKey false d i) := by
  simp only [recordKey, Network.dual_append, dual_recvHex, hA, hB, hG]
  rfl

theorem forUpM_faults_of_part {ε σ : Type} {lo mid hi : Nat} {f : Nat → σ → Run ε σ} {s : σ} {e : ε}
    (h1 : lo ≤ mid) (h2 : mid ≤ hi) (h : (forUpM lo mid f s).Faults e) : (forUpM lo hi f s).Faults e := by
  rw [forUpM_split h1 h2]
  exact Run.faults_bind.mpr (Or.inl h)

/-- The indices exchange the matrices of meds_serial.c. -/
theorem speaks_keyMatrices {delta sigmaG0 : List UInt8} {K : KeyMatrices} (hs : 1 ≤ P.s)
    (h : (keypairMatrices P SHAKE256 delta : Run Fault _).Returns (sigmaG0, K))
    (hlate : NoLateFailure P SHAKE256 false delta) {d : Sage.TestCase} (hd : KeysOf P delta sigmaG0 K d) :
    (streamMatrices serialHal P SHAKE256 false delta).Speaks
      ((List.range' 1 (P.s - 1)).flatMap fun i => Network.dual (recordKey false d i)) sigmaG0 := by
  obtain ⟨G0, hG0, h⟩ := Run.returns_bind.mp h
  obtain ⟨⟨sigma, K'⟩, hloop, h⟩ := Run.returns_bind.mp h
  cases Run.returns_pure.mp h
  have hlate := hlate G0 hG0
  -- the matrices of the first indices are those of the device
  have key := Run.forUpM_invariant (fun i (s : List UInt8 × KeyMatrices) =>
    ∀ d : Sage.TestCase, (∀ j, 1 ≤ j → j < i → d.Ainv j = matrixBytes (s.2.Ainv.get j) (P.m * P.m) ∧
        d.Binv j = matrixBytes (s.2.Binv.get j) (P.m * P.m) ∧
        d.G j = matrixBytes (s.2.G.get j) (P.k * P.m * P.n)) →
      ∃ Gdata Ss, (keygenIndices P SHAKE256 false delta G0 i).Returns ((s.1, Gdata), Ss) ∧
        Ss.flatMap (indexScript P false G0)
          = (List.range' 1 (i - 1)).flatMap fun j => Network.dual (recordKey false d j)) hs
    (fun i s s' h1 h2 hI hstep d hd => ?_) (fun d _ => ⟨Arr.empty, [], ?_, rfl⟩) hloop
  · obtain ⟨Gdata, Ss, hret, hscript⟩ := key d fun j _ _ => ⟨hd.Ainv j, hd.Binv j, hd.G j⟩
    rw [streamMatrices_eq, ← hscript]
    exact (Dialog.speaks_lift hG0).bind_nil ((Dialog.speaks_pure ()).bind_nil
      ((speaks_indices hs hret).1.bind_pure (Dialog.speaks_pure _)))
  · obtain ⟨⟨sigma₁, Ainv, Binv, Gi⟩, hround, hs'⟩ := Run.returns_bind.mp hstep
    obtain rfl := Run.returns_pure.mp hs'
    obtain ⟨Gdata, Ss, hret, hscript⟩ := hI d fun j h1 hj => by
      have := hd j h1 (by omega)
      simpa only [Arr.get_set_ne _ _ (Nat.ne_of_lt hj)] using this
    obtain ⟨hA, hB, hG⟩ := hd i h1 (Nat.lt_succ_self i)
    simp only [Arr.get_set_self] at hA hB hG
    have hnext : ¬ (Run.loop (keygenRound P SHAKE256 false G0) (s.1, Gdata)).Faults .late := by
      intro hf
      refine hlate (forUpM_faults_of_part (Nat.le_succ_of_le h1) (Nat.succ_le_of_lt h2) ?_)
      rw [forUpM_succ h1]
      exact Run.faults_bind.mpr (Or.inr ⟨_, hret, Run.faults_bind.mpr (Or.inl hf)⟩)
    obtain ⟨S, hfound, rfl, rfl, rfl⟩ := keygenLoop_returns hround hnext
    refine ⟨(foundG P false G0 S).2, Ss ++ [S], ?_, ?_⟩
    · rw [keygenIndices, forUpM_succ h1]
      exact Run.returns_bind.mpr ⟨_, hret, Run.returns_bind.mpr ⟨_, hfound, Run.returns_pure.mpr rfl⟩⟩
    · rw [List.flatMap_append, hscript, List.flatMap_singleton, indexScript_eq hA hB hG,
        show i + 1 - 1 = (i - 1) + 1 by omega, List.range'_1_concat, List.flatMap_append,
        List.flatMap_singleton, Nat.add_sub_cancel' h1]
  · rw [keygenIndices, forUpM_self]
    exact Run.returns_pure.mpr rfl

/-! ## The secret key -/

theorem dual_answer (M : List UInt8) (reply : List (Act UInt8)) :
    Network.dual (answer M reply) = [.send 0] ++ (M.map .recv ++ (Network.dual reply ++ [.recv one])) := by
  simp only [answer, Network.dual_append, dual_sendBytes]
  rfl

/-- A matrix is read back and appended. -/
theorem speaks_skMatrix {len : Nat} (hlen : len ≤ P.m * P.m) (M : Arr UInt16) (s : Arr UInt8 × BitstreamT) :
    (streamSkMatrix serialHal P len s).Speaks (Network.dual (answer (matrixBytes M (P.m * P.m)) []))
      (putFinalize (writeEntries P M 0 0 len s)) := by
  have hsame : writeEntries P ⟨M.slice 0 (P.m * P.m)⟩ 0 0 len s = writeEntries P M 0 0 len s := by
    rw [writeEntries_eq, writeEntries_eq, entries_congr fun j hj =>
      sameCells_slice M (P.m * P.m) j (Nat.lt_of_lt_of_le hj hlen)]
  rw [dual_answer, ← hsame]
  exact (Dialog.speaks_put 0).bind ((speaks_readStream M _).bind
    ((Dialog.speaks_get one).bind_pure (Dialog.speaks_pure _)))

theorem speaks_skMatrices {len : Nat} (hs : 1 ≤ P.s) (hlen : len ≤ P.m * P.m) (M : Arr (Arr UInt16))
    (s : Arr UInt8 × BitstreamT) :
    Dialog.Speaks (forUpM 1 P.s (fun _ s => streamSkMatrix serialHal P len s) s)
      ((List.range' 1 (P.s - 1)).flatMap fun i =>
        Network.dual (answer (matrixBytes (M.get i) (P.m * P.m)) []))
      (writeMatrices P M len s) := by
  have hloop := Dialog.speaks_forUpM (f := fun _ s => streamSkMatrix serialHal P len s)
    (fun i => forUp 1 i (fun si s => putFinalize (writeEntries P (M.get si) 0 0 len s)) s)
    (fun i => Network.dual (answer (matrixBytes (M.get i) (P.m * P.m)) [])) hs fun i h1 _ => by
      rw [forUp_succ h1]
      exact speaks_skMatrix hlen (M.get i) _
  rwa [forUp_self] at hloop

/-- The line that `write_stream_str` prints. -/
theorem speaks_line {S : String} {A : List UInt8} (hA : A ≠ []) :
    (writeStreamStr S A).Speaks ((text S ++ A.flatMap hex2 ++ [newline]).map .send) () := by
  rw [List.map_append, List.map_append, List.append_assoc, writeStreamStr, if_neg hA]
  exact (Dialog.speaks_putAll _).bind ((Dialog.speaks_putAll _).bind (Dialog.speaks_put newline))

section

variable (hP : ChunkFit P) {K : KeyMatrices} (hK : EntriesFit P K) {delta sigmaG0 : List UInt8}
  (hsigma : sigmaG0.length = P.pubSeedBytes) {d : Sage.TestCase} (hd : KeysOf P delta sigmaG0 K d)

include hP hK hsigma hd

/-- The matrices come back, and the secret key is printed. -/
theorem speaks_secretKey (hdelta : delta.length = P.secSeedBytes) :
    (streamSecretKey serialHal P delta sigmaG0).Speaks
      ((List.range' 1 (P.s - 1)).flatMap (fun i => Network.dual (answer (d.Ainv i) [])) ++
        ((List.range' 1 (P.s - 1)).flatMap (fun i => Network.dual (answer (d.Binv i) [])) ++
          ([.send 0] ++ ((text "sk = " ++ d.sk.flatMap hex2 ++ [newline]).map .send ++ [.recv one])))) () := by
  have hs := hP.one_le_s
  have hbytes := slice_sk hP.toSized hP.eight_le hK hdelta hsigma (Arr.replicate P.skBytes 0)
  have hA := @speaks_skMatrices P _ hs (Nat.le_refl (P.m * P.m)) K.Ainv
  have hB := @speaks_skMatrices P _ hs (Nat.mul_le_mul hP.n_le_m hP.n_le_m) K.Binv
  simp only [← hd.Ainv] at hA
  simp only [← hd.Binv] at hB
  refine (hA _).bind ((hB _).bind ((Dialog.speaks_put 0).bind ?_))
  have hsk := hbytes.trans hd.sk.symm
  rw [← hsk]
  exact (speaks_line (by rw [hsk]; exact d.sk_ne)).bind
    ((Dialog.speaks_get one).bind_pure (Dialog.speaks_pure ()))

/-! ## The public key -/

/-- A generator comes back, and its chunk is printed. -/
theorem speaks_pkMatrix {si : Nat} (h1 : 1 ≤ si) (h2 : si < P.s) {s : Arr UInt8 × Nat × BitstreamT}
    (hs : PkProgress P sigmaG0 si s) :
    ∃ s', (streamPkMatrix serialHal P si s).Speaks
        (Network.dual (answer (d.G si) (recvHex (d.pk si)))) s' ∧
      PkProgress P sigmaG0 (si + 1) s' := by
  obtain ⟨pk, check, bs⟩ := s
  have hcheck : check = byteLen (P.gfqBits * pkCoeffs P) * (si - 1) := hs.check
  obtain ⟨off, hoff⟩ : ∃ off, (if si = 1 then P.pubSeedBytes else 0) = off := ⟨_, rfl⟩
  obtain ⟨buf, hwrite, hget⟩ := writeGenerator hP hK (pk.view off) h1 h2
  have hslice := slice_pkChunk hP hsigma hs.seed hget
  rw [hoff] at hslice
  have hline := @speaks_line "" _ (pkChunk_ne_nil hP sigmaG0 K si)
  rw [dual_answer, dual_recvHex, hd.G, hd.pk]
  refine ⟨((pk.modifyFrom off fun _ => buf).blit 0 (List.replicate (pkBufLen P) 0),
      check + byteLen (P.gfqBits * pkCoeffs P),
      ⟨pkBufLen P - P.pubSeedBytes, byteLen (P.gfqBits * pkCoeffs P), 0⟩),
    (Dialog.speaks_put 0).bind ((speaks_readStream (K.G.get si) _).bind ?_),
    fun h => absurd h (by omega), ?_, rfl⟩
  · simp only [hoff, hwrite]
    rw [hslice]
    exact hline.bind ((Dialog.speaks_get one).bind_pure (Dialog.speaks_pure _))
  · change check + _ = _
    rw [hcheck, ← Nat.mul_succ, show (si - 1).succ = si + 1 - 1 by omega]

/-- The generators come back, the chunks of the public key are printed, and its
    length is right. -/
theorem speaks_publicKey :
    (streamPublicKey serialHal P sigmaG0).Speaks
      ((List.range' 1 (P.s - 1)).flatMap fun i =>
        Network.dual (answer (d.G i) (recvHex (d.pk i)))) 0 := by
  have hstart : PkProgress P sigmaG0 1
      ((Arr.replicate (pkBufLen P) 0).blit 0 sigmaG0, 0, bsInit 0) :=
    ⟨fun _ i hi => getD_blit_zero _ _ hi, rfl, rfl⟩
  obtain ⟨⟨pk, check, bs⟩, hloop, hs⟩ := Dialog.speaks_forUpM_invariant (PkProgress P sigmaG0) _
    hP.one_le_s (fun si s h1 h2 hs => speaks_pkMatrix hP hK hsigma hd h1 h2 hs) hstart
  have hcheck : check = byteLen (P.gfqBits * pkCoeffs P) * (P.s - 1) := hs.check
  have hbit : bs.bitPos = 0 := hs.aligned
  refine hloop.bind_pure ?_
  simp only
  rw [if_neg (by rw [hP.pkBytes_eq, hcheck, hbit]; simp)]
  exact Dialog.speaks_pure 0

end

/-- Key generation answers the script of the host, and its status is 0. -/
theorem speaks_keys (hP : ChunkFit P) {delta sigmaG0 : List UInt8} {K : KeyMatrices}
    (hK : EntriesFit P K) (hdelta : delta.length = P.secSeedBytes)
    (hsigma : sigmaG0.length = P.pubSeedBytes)
    (h : (keypairMatrices P SHAKE256 delta : Run Fault _).Returns (sigmaG0, K))
    (hlate : NoLateFailure P SHAKE256 false delta) {d : Sage.TestCase}
    (hd : KeysOf P delta sigmaG0 K d) :
    (cryptoSignKeypairStreaming serialHal P SHAKE256 false delta).Speaks
      (Network.dual (keysScript false P.s d)) 0 := by
  have hscript : Network.dual (keysScript false P.s d)
      = ((List.range' 1 (P.s - 1)).flatMap fun i => Network.dual (recordKey false d i)) ++
        (((List.range' 1 (P.s - 1)).flatMap (fun i => Network.dual (answer (d.Ainv i) [])) ++
          ((List.range' 1 (P.s - 1)).flatMap (fun i => Network.dual (answer (d.Binv i) [])) ++
            ([.send 0] ++ ((text "sk = " ++ d.sk.flatMap hex2 ++ [newline]).map .send
              ++ [.recv one])))) ++
          ((List.range' 1 (P.s - 1)).flatMap fun i =>
            Network.dual (answer (d.G i) (recvHex (d.pk i))))) := by
    simp only [keysScript, Network.dual_append, dual_flatMap, dual_recvLine, List.append_assoc]
    rfl
  rw [hscript, cryptoSignKeypairStreaming_eq_streamKeys]
  exact (speaks_keyMatrices hP.one_le_s h hlate hd).bind
    ((speaks_secretKey hP hK hsigma hd hdelta).bind (speaks_publicKey hP hK hsigma hd))

end Meds.Kat.Device
