/-
  Meds.Ref.KeygenDialog

  The matrices of key generation on the line: the first part of
  `crypto_sign_keypair_streaming` against `do_get_data_from_keygen`.

  A round that fails before the ready byte says nothing.  A round that fails
  after it has told the host to go on, and the two fall out of step.  As long
  as no round does, each index is one exchange that the host mirrors, whatever
  the number of silent rounds before it, and even if they never end.
-/

import Meds.Ref.StreamKeypair
import Meds.Ref.Wire

namespace Meds.Ref

open Meds.Core

/-! ## The host -/

deriving instance DecidableEq for Solved

/-- A line of the file of key generation. -/
inductive FileLine where
  | G0 (data : List UInt8)
  | Ainv (i : Nat) (data : List UInt8)
  | Binv (i : Nat) (data : List UInt8)
  | G (i : Nat) (data : List UInt8)
deriving DecidableEq

/-- The byte `'1'`. -/
def one : UInt8 := 0x31

/-- G_0 goes back to the memory-reduced build. -/
def sendBack (reduced : Bool) (G0 : List UInt8) : Dialog PyError UInt8 Unit :=
  if reduced then sendHex G0 else pure ()

/-- Round `i` of the loop that records the matrices. -/
def hostKeygenIndex (reduced : Bool) (G0 : List UInt8) (i : Nat) (file : List FileLine) :
    Dialog PyError UInt8 (List FileLine) := do
  let _ ← Dialog.get
  sendBack reduced G0
  let Ainv ← readLine
  let Binv ← readLine
  let G ← readLine
  sendBack reduced G0
  Dialog.put one
  pure (file ++ [.Ainv i Ainv, .Binv i Binv, .G i G])

/-- The line of G_0, which only the memory-reduced build sends. -/
def hostKeygenStart (reduced : Bool) : Dialog PyError UInt8 (List UInt8 × List FileLine) :=
  if reduced then do
    let _ ← Dialog.get
    let G0 ← readLine
    Dialog.put one
    pure (G0, [.G0 G0])
  else pure ([], [])

/-- The first part of `do_get_data_from_keygen`: the lines it has recorded. -/
def doGetDataFromKeygen (reduced : Bool) (s : Nat) : Dialog PyError UInt8 (List FileLine) := do
  let (G0, file) ← hostKeygenStart reduced
  forUpM 1 s (hostKeygenIndex reduced G0) file

/-! ## The rounds of the device -/

section

variable (P : Params) (SHAKE256 : Shake) (reduced : Bool)

/-- What a round computes before it sends the ready byte. -/
def streamPrepare (G0 : Arr UInt16) (s : List UInt8 × Arr UInt16) :
    Run Fault (List UInt8 × Arr UInt16 × Option Solved) := do
  let bufs := xof SHAKE256 s.1 [P.secSeedBytes, P.secSeedBytes, P.secSeedBytes]
  let sigmaA := bufs.getD 0 []
  let sigmaTi := bufs.getD 1 []
  let sigma := bufs.getD 2 []
  let Ti ← rndInvMatrix P SHAKE256 P.k P.k sigmaTi
  let (Amm, _) ← rndGF P SHAKE256 (shake256AbsorbOnce sigmaA)
  let Gdata := if reduced then tiMulInPlace P Ti s.2 else s.2
  let Gprime := if reduced then Gdata else tiMul P Ti G0
  pure (sigma, Gdata, solveInvert P Gprime Amm)

/-- G_0 as it comes back from the host. -/
def echoedG0 (G0 : Arr UInt16) : Arr UInt16 := ⟨G0.slice 0 (P.k * P.m * P.n)⟩

/-- The systematic-form test behind the ready byte. -/
def foundG (G0 : Arr UInt16) (S : Solved) : Int × Arr UInt16 :=
  pmodMatSystCt P (if reduced then piInPlace P S.A S.B (echoedG0 P G0) else pi P S.A S.B G0) P.k
    (P.m * P.n)

/-- What `G_data` holds after index `i`. -/
def keptG (G0 : Arr UInt16) (S : Solved) : Arr UInt16 :=
  if reduced then echoedG0 P G0 else (foundG P reduced G0 S).2

/-- How a round can go wrong: it fails after the ready byte, or inside a computation. -/
inductive RoundFault where
  | late
  | fault (e : Fault)
deriving DecidableEq

/-- A round, as far as the device alone is concerned; a failure after the ready byte
    is a fault. -/
def keygenRound (G0 : Arr UInt16) (s : List UInt8 × Arr UInt16) :
    Run RoundFault (List UInt8 × Arr UInt16 ⊕ (List UInt8 × Arr UInt16) × Solved) := do
  let (sigma, Gdata, o) ← (streamPrepare P SHAKE256 reduced G0 s).mapFault .fault
  match o with
  | none => pure (.inl (sigma, Gdata))
  | some S =>
    if (foundG P reduced G0 S).1 ≠ 0 then Run.fail .late
    else pure (.inr ((sigma, keptG P reduced G0 S), S))

/-- The matrices of the indices below `hi`, with what the next round starts from. -/
def keygenIndices (delta : List UInt8) (G0 : Arr UInt16) (hi : Nat) :
    Run RoundFault ((List UInt8 × Arr UInt16) × List Solved) :=
  forUpM 1 hi
    (fun _ s => do
      let (st, S) ← Run.loop (keygenRound P SHAKE256 reduced G0) s.1
      pure (st, s.2 ++ [S]))
    ((keypairSigma P SHAKE256 delta 0, if reduced then G0 else Arr.empty), [])

/-- No round of the device fails after it has sent the ready byte. -/
def NoLateFailure (delta : List UInt8) : Prop :=
  ∀ G0, (rndSysMat P SHAKE256 P.k (P.m * P.n) (keypairSeed P SHAKE256 delta) :
      Run Fault _).Returns G0 →
    ¬ (keygenIndices P SHAKE256 reduced delta G0 P.s).Faults .late

/-! ## The device on the line -/

/-- G_0 comes back from the host, in the memory-reduced build. -/
def readBack (G : Arr UInt16) : Dialog Fault UInt8 (Arr UInt16) :=
  if reduced then readStream (P.k * P.m * P.n) else pure G

/-- The rest of a round: the ready byte, the test and the matrices. -/
def streamFinish (G0 : Arr UInt16) :
    List UInt8 × Arr UInt16 × Option Solved →
      Dialog Fault UInt8 (List UInt8 × Arr UInt16 ⊕ List UInt8 × Arr UInt16)
  | (sigma, Gdata, none) => pure (.inl (sigma, Gdata))
  | (sigma, Gdata, some S) => do
    Dialog.put 0
    let Gdata ← readBack P reduced Gdata
    let Gdata := if reduced then piInPlace P S.A S.B Gdata else pi P S.A S.B G0
    let (ret, Gdata) := pmodMatSystCt P Gdata P.k (P.m * P.n)
    if ret ≠ 0 then pure (.inl (sigma, Gdata))
    else do
      writeStream S.Ainv (P.m * P.m)
      writeStream S.Binv (P.m * P.m)
      writeStream Gdata (P.k * P.m * P.n)
      let Gdata ← readBack P reduced Gdata
      let _ ← Dialog.get
      pure (.inr (sigma, Gdata))

theorem streamAttempt_eq (G0 : Arr UInt16) (s : List UInt8 × Arr UInt16) :
    streamAttempt serialHal P SHAKE256 reduced G0 s
      = (Dialog.lift (streamPrepare P SHAKE256 reduced G0 s) >>= streamFinish P reduced G0) := by
  unfold streamAttempt streamPrepare
  simp only [Dialog.lift_bind, Dialog.lift_pure, bind_assoc, pure_bind]
  refine bind_congr fun Ti => bind_congr fun Amm => ?_
  cases solveInvert P _ Amm.1 with
  | none => rfl
  | some S => cases reduced <;> rfl

/-! ## The exchange of one index -/

/-- The line that is sent for a matrix. -/
def lineScript (M : Arr UInt16) (L : Nat) : List (Act UInt8) :=
  (matrixLine M L ++ [newline]).map .send

/-- G_0 comes back from the host, in the memory-reduced build. -/
def echoScript (G0 : Arr UInt16) : List (Act UInt8) :=
  if reduced then (matrixBytes G0 (P.k * P.m * P.n)).map .recv else []

/-- What passes for an index, as the device sees it. -/
def indexScript (G0 : Arr UInt16) (S : Solved) : List (Act UInt8) :=
  [.send 0] ++ (echoScript P reduced G0 ++ (lineScript S.Ainv (P.m * P.m) ++
    (lineScript S.Binv (P.m * P.m) ++ (lineScript (foundG P reduced G0 S).2 (P.k * P.m * P.n) ++
      (echoScript P reduced G0 ++ [.recv one])))))

/-- What passes before the first index. -/
def startScript (G0 : Arr UInt16) : List (Act UInt8) :=
  if reduced then [.send 0] ++ (lineScript G0 (P.k * P.m * P.n) ++ [.recv one]) else []

/-- The whole exchange. -/
def keygenScript (G0 : Arr UInt16) (Ss : List Solved) : List (Act UInt8) :=
  startScript P reduced G0 ++ Ss.flatMap (indexScript P reduced G0)

/-- The line of G_0 that the host keeps. -/
def hostG0 (G0 : Arr UInt16) : List UInt8 :=
  if reduced then matrixLine G0 (P.k * P.m * P.n) else []

/-- The lines the host is to record for an index. -/
def indexLines (G0 : Arr UInt16) (i : Nat) (S : Solved) : List FileLine :=
  [.Ainv i (matrixLine S.Ainv (P.m * P.m)), .Binv i (matrixLine S.Binv (P.m * P.m)),
    .G i (matrixLine (foundG P reduced G0 S).2 (P.k * P.m * P.n))]

/-- The lines the host is to record for the matrices `Ss` of the indices from 1 on. -/
def keygenFile (G0 : Arr UInt16) (Ss : List Solved) : List FileLine :=
  (if reduced then [.G0 (matrixLine G0 (P.k * P.m * P.n))] else []) ++
    (Ss.zipIdx 1).flatMap fun r => indexLines P reduced G0 r.2 r.1

end

section

variable {P : Params} {SHAKE256 : Shake} {reduced : Bool} {G0 : Arr UInt16}

/-- The device reads G_0 back. -/
theorem speaks_echo_device (G : Arr UInt16) :
    (readBack P reduced G).Speaks (echoScript P reduced G0)
      (if reduced then echoedG0 P G0 else G) := by
  cases reduced with
  | false => exact Dialog.speaks_pure G
  | true => exact speaks_readStream G0 _

/-- The host sends G_0 back. -/
theorem speaks_echo_host :
    (sendBack reduced (hostG0 P reduced G0)).Speaks (Network.dual (echoScript P reduced G0)) () := by
  cases reduced with
  | false => exact Dialog.speaks_pure ()
  | true =>
      have hdual : Network.dual (echoScript P true G0)
          = (matrixBytes G0 (P.k * P.m * P.n)).map .send := by
        simp [Network.dual, echoScript, Act.dual]
      rw [hdual]
      exact speaks_sendHex G0 _

theorem dual_lineScript (M : Arr UInt16) (L : Nat) :
    Network.dual (lineScript M L) = (matrixLine M L ++ [newline]).map .recv := by
  simp [Network.dual, lineScript, Act.dual]

theorem echoed_pi (Gdata : Arr UInt16) (S : Solved) :
    (if reduced then piInPlace P S.A S.B (if reduced then echoedG0 P G0 else Gdata)
        else pi P S.A S.B G0)
      = if reduced then piInPlace P S.A S.B (echoedG0 P G0) else pi P S.A S.B G0 := by
  cases reduced <;> rfl

/-- A round that has passed the test completes the exchange of its index. -/
theorem speaks_streamFinish {sigma : List UInt8} {Gdata : Arr UInt16} {S : Solved}
    (h : (foundG P reduced G0 S).1 = 0) :
    (streamFinish P reduced G0 (sigma, Gdata, some S)).Speaks (indexScript P reduced G0 S)
      (.inr (sigma, keptG P reduced G0 S)) := by
  refine (Dialog.speaks_put 0).bind ((speaks_echo_device Gdata).bind ?_)
  simp only [echoed_pi]
  change Dialog.Speaks (if (foundG P reduced G0 S).1 ≠ 0 then _ else _) _ _
  rw [if_neg (not_not.mpr h)]
  refine (speaks_writeStream _ _).bind ((speaks_writeStream _ _).bind
    ((speaks_writeStream _ _).bind ((speaks_echo_device _).bind
      ((Dialog.speaks_get one).bind_pure (Dialog.speaks_pure _)))))

/-- The host mirrors the exchange of an index. -/
theorem speaks_hostKeygenIndex (S : Solved) (i : Nat) (file : List FileLine) :
    (hostKeygenIndex reduced (hostG0 P reduced G0) i file).Speaks
      (Network.dual (indexScript P reduced G0 S)) (file ++ indexLines P reduced G0 i S) := by
  simp only [indexScript, Network.dual_append, dual_lineScript]
  exact (Dialog.speaks_get 0).bind ((speaks_echo_host).bind ((speaks_readLine _ _).bind
    ((speaks_readLine _ _).bind ((speaks_readLine _ _).bind ((speaks_echo_host).bind
      ((Dialog.speaks_put one).bind_pure (Dialog.speaks_pure _)))))))

/-! ## The rounds of one index -/

/-- A round that comes to an end without a late failure. -/
theorem keygenRound_returns {s : List UInt8 × Arr UInt16}
    {r : List UInt8 × Arr UInt16 ⊕ (List UInt8 × Arr UInt16) × Solved} :
    (keygenRound P SHAKE256 reduced G0 s).Returns r ↔
      ∃ sigma Gdata o, (streamPrepare P SHAKE256 reduced G0 s).Returns (sigma, Gdata, o) ∧
        match o with
        | none => r = .inl (sigma, Gdata)
        | some S => (foundG P reduced G0 S).1 = 0 ∧ r = .inr ((sigma, keptG P reduced G0 S), S) := by
  unfold keygenRound
  rw [Run.returns_bind]
  constructor
  · rintro ⟨⟨sigma, Gdata, o⟩, hprep, h⟩
    refine ⟨sigma, Gdata, o, Run.returns_mapFault.mp hprep, ?_⟩
    cases o with
    | none => exact Run.returns_pure.mp h
    | some S =>
        simp only at h
        split at h
        · exact absurd h Run.returns_fail
        · rename_i hret
          exact ⟨not_not.mp hret, Run.returns_pure.mp h⟩
  · rintro ⟨sigma, Gdata, o, hprep, h⟩
    refine ⟨(sigma, Gdata, o), Run.returns_mapFault.mpr hprep, ?_⟩
    cases o with
    | none => exact Run.returns_pure.mpr h
    | some S =>
        simp only
        rw [if_neg (not_not.mpr h.1)]
        exact Run.returns_pure.mpr h.2

/-- A round that fails before the ready byte says nothing. -/
theorem speaks_round_inl {s s' : List UInt8 × Arr UInt16}
    (h : (keygenRound P SHAKE256 reduced G0 s).Returns (.inl s')) :
    Dialog.Speaks (streamAttempt serialHal P SHAKE256 reduced G0 s) [] (.inl s') := by
  obtain ⟨sigma, Gdata, o, hprep, hr⟩ := keygenRound_returns.mp h
  rw [streamAttempt_eq]
  refine (Dialog.speaks_lift hprep).bind_nil ?_
  cases o with
  | none =>
      obtain rfl := Sum.inl.inj hr
      exact Dialog.speaks_pure _
  | some S => cases hr.2

/-- A round that finds its matrices exchanges them. -/
theorem speaks_round_inr {s st : List UInt8 × Arr UInt16} {S : Solved}
    (h : (keygenRound P SHAKE256 reduced G0 s).Returns (.inr (st, S))) :
    Dialog.Speaks (streamAttempt serialHal P SHAKE256 reduced G0 s) (indexScript P reduced G0 S)
      (.inr st) := by
  obtain ⟨sigma, Gdata, o, hprep, hr⟩ := keygenRound_returns.mp h
  rw [streamAttempt_eq]
  refine (Dialog.speaks_lift hprep).bind_nil ?_
  cases o with
  | none => cases hr
  | some S' =>
      obtain ⟨hret, hr⟩ := hr
      cases hr
      exact speaks_streamFinish hret

/-- A round that does not come to an end is silent. -/
theorem stuck_round {s : List UInt8 × Arr UInt16}
    (hlate : ¬ (keygenRound P SHAKE256 reduced G0 s).Faults .late)
    (h : ∀ r, ¬ (keygenRound P SHAKE256 reduced G0 s).Returns r) :
    Dialog.Stuck (streamAttempt serialHal P SHAKE256 reduced G0 s) [] := by
  rw [streamAttempt_eq]
  refine Dialog.Stuck.bind_left (Dialog.stuck_lift ?_) _
  rintro ⟨sigma, Gdata, o⟩ hprep
  cases o with
  | none => exact h _ (keygenRound_returns.mpr ⟨_, _, _, hprep, rfl⟩)
  | some S =>
      by_cases hret : (foundG P reduced G0 S).1 = 0
      · exact h _ (keygenRound_returns.mpr ⟨_, _, _, hprep, hret, rfl⟩)
      · refine hlate (Run.faults_bind.mpr (Or.inr ⟨_, Run.returns_mapFault.mpr hprep, ?_⟩))
        simp only
        rw [if_pos hret]
        exact Run.faults_fail.mpr rfl

/-- An index that finds its matrices, after any number of silent rounds. -/
theorem speaks_index {s st : List UInt8 × Arr UInt16} {S : Solved}
    (h : (Run.loop (keygenRound P SHAKE256 reduced G0) s).Returns (st, S)) :
    Dialog.Speaks (Session.loop (streamAttempt serialHal P SHAKE256 reduced G0) s)
      (indexScript P reduced G0 S) st := by
  refine Run.loop_induction (P := fun s =>
    Dialog.Speaks (Session.loop (streamAttempt serialHal P SHAKE256 reduced G0) s)
      (indexScript P reduced G0 S) st) (fun s hs => ?_) (fun s s' hs _ ih => ?_) h
  · exact Dialog.speaks_loop_break (speaks_round_inr hs)
  · have := Dialog.speaks_loop_continue (speaks_round_inl hs) ih
    rwa [List.nil_append] at this

/-- An index that never finds them is silent for ever. -/
theorem stuck_index {s : List UInt8 × Arr UInt16}
    (hlate : ¬ (Run.loop (keygenRound P SHAKE256 reduced G0) s).Faults .late)
    (h : ∀ r, ¬ (Run.loop (keygenRound P SHAKE256 reduced G0) s).Returns r) :
    Dialog.Stuck (Session.loop (streamAttempt serialHal P SHAKE256 reduced G0) s) [] := by
  refine Dialog.stuck_loop (fun s => (¬ (Run.loop (keygenRound P SHAKE256 reduced G0) s).Faults .late) ∧
    ∀ r, ¬ (Run.loop (keygenRound P SHAKE256 reduced G0) s).Returns r) (fun s hs => ?_) ⟨hlate, h⟩
  by_cases hround : ∃ r, (keygenRound P SHAKE256 reduced G0 s).Returns r
  · obtain ⟨r, hr⟩ := hround
    cases r with
    | inl s' =>
        refine Or.inl ⟨s', ⟨fun hf => hs.1 (Run.faults_loop.mpr (Or.inr ⟨s', hr, hf⟩)),
          fun r' hr' => hs.2 r' (Run.returns_loop_continue hr hr')⟩, speaks_round_inl hr⟩
    | inr r => exact absurd (Run.returns_loop_break hr) (hs.2 r)
  · exact Or.inr (stuck_round (fun hf => hs.1 (Run.faults_loop.mpr (Or.inl hf)))
      fun r hr => hround ⟨r, hr⟩)

/-! ## The two programs in step -/

section

variable (P SHAKE256 reduced)

/-- What the device sends before the first index. -/
def deviceStart (G0 : Arr UInt16) : Dialog Fault UInt8 Unit :=
  if reduced then do
    Dialog.put 0
    writeStream G0 (P.k * P.m * P.n)
    let _ ← Dialog.get
    pure ()
  else pure ()

/-- The loop of the device over the indices below `hi`. -/
def deviceIndices (delta : List UInt8) (G0 : Arr UInt16) (hi : Nat) :
    Dialog Fault UInt8 (List UInt8 × Arr UInt16) :=
  forUpM 1 hi (fun _ s => Session.loop (streamAttempt serialHal P SHAKE256 reduced G0) s)
    (keypairSigma P SHAKE256 delta 0, if reduced then G0 else Arr.empty)

theorem streamMatrices_eq (delta : List UInt8) :
    streamMatrices serialHal P SHAKE256 reduced delta
      = (Dialog.lift (rndSysMat P SHAKE256 P.k (P.m * P.n) (keypairSeed P SHAKE256 delta)) >>=
          fun G0 => deviceStart P reduced G0 >>= fun _ =>
            deviceIndices P SHAKE256 reduced delta G0 P.s >>= fun _ =>
              pure (keypairSeed P SHAKE256 delta)) := by
  cases reduced with
  | false => rfl
  | true =>
      refine bind_congr fun G0 => ?_
      simp only [deviceStart, if_true, bind_assoc, pure_bind]
      rfl

end

theorem speaks_deviceStart :
    (deviceStart P reduced G0).Speaks (startScript P reduced G0) () := by
  cases reduced with
  | false => exact Dialog.speaks_pure ()
  | true =>
      exact (Dialog.speaks_put 0).bind ((speaks_writeStream G0 _).bind
        ((Dialog.speaks_get one).bind_pure (Dialog.speaks_pure ())))

theorem speaks_hostKeygenStart :
    (hostKeygenStart reduced).Speaks (Network.dual (startScript P reduced G0))
      (hostG0 P reduced G0, keygenFile P reduced G0 []) := by
  cases reduced with
  | false => exact Dialog.speaks_pure _
  | true =>
      simp only [startScript, if_true, Network.dual_append, dual_lineScript]
      exact (Dialog.speaks_get 0).bind ((speaks_readLine G0 _).bind
        ((Dialog.speaks_put one).bind_pure (Dialog.speaks_pure _)))

/-- The exchanges of all indices below `hi`, on both sides. -/
theorem speaks_indices {delta : List UInt8} {hi : Nat} (hhi : 1 ≤ hi)
    {st : List UInt8 × Arr UInt16} {Ss : List Solved}
    (h : (keygenIndices P SHAKE256 reduced delta G0 hi).Returns (st, Ss)) :
    (deviceIndices P SHAKE256 reduced delta G0 hi).Speaks (Ss.flatMap (indexScript P reduced G0)) st ∧
      Dialog.Speaks
        (forUpM 1 hi (hostKeygenIndex reduced (hostG0 P reduced G0)) (keygenFile P reduced G0 []))
        (Network.dual (Ss.flatMap (indexScript P reduced G0))) (keygenFile P reduced G0 Ss) := by
  -- both sides and the number of solutions found so far, index by index
  have key := Run.forUpM_invariant
    (fun i (s : (List UInt8 × Arr UInt16) × List Solved) =>
      s.2.length = i - 1 ∧
      (deviceIndices P SHAKE256 reduced delta G0 i).Speaks
        (s.2.flatMap (indexScript P reduced G0)) s.1 ∧
      Dialog.Speaks
        (forUpM 1 i (hostKeygenIndex reduced (hostG0 P reduced G0)) (keygenFile P reduced G0 []))
        (Network.dual (s.2.flatMap (indexScript P reduced G0))) (keygenFile P reduced G0 s.2)) hhi
    (fun i s s' h1 h2 hI hstep => ?_) ?_ h
  · exact key.2
  · obtain ⟨hlen, hdev, hhost⟩ := hI
    obtain ⟨⟨st', S⟩, hloop, hs'⟩ := Run.returns_bind.mp hstep
    obtain rfl := Run.returns_pure.mp hs'
    refine ⟨by simp only [List.length_append, List.length_singleton]; omega, ?_, ?_⟩
    · rw [deviceIndices, forUpM_succ h1, List.flatMap_append, List.flatMap_singleton]
      exact hdev.bind (speaks_index hloop)
    · -- the host's file grows by the lines of this index
      have hfile : keygenFile P reduced G0 (s.2 ++ [S])
          = keygenFile P reduced G0 s.2 ++ indexLines P reduced G0 i S := by
        rw [keygenFile, keygenFile, List.zipIdx_append, List.flatMap_append, List.append_assoc,
          hlen, show 1 + (i - 1) = i by omega]
        simp
      rw [forUpM_succ h1, List.flatMap_append, List.flatMap_singleton, Network.dual_append, hfile]
      exact hhost.bind (speaks_hostKeygenIndex S i _)
  · refine ⟨rfl, ?_, ?_⟩
    · rw [deviceIndices, forUpM_self]
      exact Dialog.speaks_pure _
    · rw [forUpM_self]
      exact Dialog.speaks_pure _

/-- Either all indices find their matrices, or one is silent for ever. -/
theorem keygenIndices_dichotomy {delta : List UInt8} {hi : Nat} (hhi : 1 ≤ hi)
    (hlate : ¬ (keygenIndices P SHAKE256 reduced delta G0 hi).Faults .late) :
    ∃ j st Ss, 1 ≤ j ∧ j ≤ hi ∧ (keygenIndices P SHAKE256 reduced delta G0 j).Returns (st, Ss) ∧
      (j < hi → Dialog.Stuck (Session.loop (streamAttempt serialHal P SHAKE256 reduced G0) st) []) := by
  induction hi, hhi using Nat.le_induction with
  | base =>
      refine ⟨1, (keypairSigma P SHAKE256 delta 0, if reduced then G0 else Arr.empty), [],
        Nat.le_refl _, Nat.le_refl _, ?_, fun h => absurd h (Nat.lt_irrefl _)⟩
      rw [keygenIndices, forUpM_self]
      exact Run.returns_pure.mpr rfl
  | succ hi hhi ih =>
      rw [keygenIndices, forUpM_succ hhi] at hlate
      obtain ⟨j, st, Ss, h1, h2, hret, hstuck⟩ :=
        ih fun hf => hlate (Run.faults_bind.mpr (Or.inl hf))
      rcases Nat.lt_or_ge j hi with hlt | hge
      · exact ⟨j, st, Ss, h1, by omega, hret, fun _ => hstuck hlt⟩
      · obtain rfl : j = hi := by omega
        have hloop : ¬ (Run.loop (keygenRound P SHAKE256 reduced G0) st).Faults .late := fun hf =>
          hlate (Run.faults_bind.mpr (Or.inr ⟨_, hret, Run.faults_bind.mpr (Or.inl hf)⟩))
        by_cases hr : ∃ r, (Run.loop (keygenRound P SHAKE256 reduced G0) st).Returns r
        · obtain ⟨⟨st', S⟩, hr⟩ := hr
          refine ⟨j + 1, st', Ss ++ [S], by omega, Nat.le_refl _, ?_, fun h => absurd h (by omega)⟩
          rw [keygenIndices, forUpM_succ h1]
          exact Run.returns_bind.mpr ⟨_, hret, Run.returns_bind.mpr ⟨_, hr, Run.returns_pure.mpr rfl⟩⟩
        · exact ⟨j, st, Ss, h1, by omega, hret,
            fun _ => stuck_index hloop fun r hret' => hr ⟨r, hret'⟩⟩

/-- The matrices of the first indices are found first. -/
theorem keygenIndices_prefix {delta : List UInt8} {i j : Nat} (hi : 1 ≤ i) (hij : i ≤ j)
    {st : List UInt8 × Arr UInt16} {Ss : List Solved}
    (h : (keygenIndices P SHAKE256 reduced delta G0 j).Returns (st, Ss)) :
    ∃ st' Ss', (keygenIndices P SHAKE256 reduced delta G0 i).Returns (st', Ss') ∧ Ss' <+: Ss := by
  rw [keygenIndices, forUpM_split hi hij] at h
  obtain ⟨⟨st', Ss'⟩, hi', hrest⟩ := Run.returns_bind.mp h
  refine ⟨st', Ss', hi', ?_⟩
  exact Run.forUpM_invariant
    (fun _ (s : (List UInt8 × Arr UInt16) × List Solved) => Ss' <+: s.2) hij
    (fun _ s s' _ _ hs hstep => by
      obtain ⟨⟨st, S⟩, -, hs'⟩ := Run.returns_bind.mp hstep
      obtain rfl := Run.returns_pure.mp hs'
      exact hs.trans (List.prefix_append _ _)) List.prefix_rfl hrest

/-- The host up to index `hi`, on the exchanges of the indices below `j`. -/
theorem speaks_host {delta : List UInt8} {j : Nat} (hj : 1 ≤ j) {st : List UInt8 × Arr UInt16}
    {Ss : List Solved} (h : (keygenIndices P SHAKE256 reduced delta G0 j).Returns (st, Ss)) :
    (doGetDataFromKeygen reduced j).Speaks (Network.dual (keygenScript P reduced G0 Ss))
      (keygenFile P reduced G0 Ss) := by
  rw [keygenScript, Network.dual_append]
  exact speaks_hostKeygenStart.bind (speaks_indices hj h).2

theorem host_split {j hi : Nat} (hj : 1 ≤ j) (hjhi : j ≤ hi) (G0 : List UInt8)
    (file : List FileLine) :
    forUpM 1 hi (hostKeygenIndex reduced G0) file
      = forUpM 1 j (hostKeygenIndex reduced G0) file >>= forUpM j hi (hostKeygenIndex reduced G0) :=
  forUpM_split hj hjhi _ _

/-- Beyond these the host goes on with the next index. -/
theorem host_waits {delta : List UInt8} {j hi : Nat} (hj : 1 ≤ j) (hjhi : j < hi)
    {st : List UInt8 × Arr UInt16} {Ss : List Solved}
    (h : (keygenIndices P SHAKE256 reduced delta G0 j).Returns (st, Ss)) {q : List (Act UInt8)}
    (hnext : (hostKeygenIndex reduced (hostG0 P reduced G0) j (keygenFile P reduced G0 Ss)).Waits q) :
    (doGetDataFromKeygen reduced hi).Waits (Network.dual (keygenScript P reduced G0 Ss) ++ q) := by
  unfold doGetDataFromKeygen
  simp only [host_split hj (Nat.le_of_lt hjhi)]
  rw [keygenScript, Network.dual_append, List.append_assoc]
  refine speaks_hostKeygenStart.bind_waits ((speaks_indices hj h).2.bind_waits ?_)
  rw [forUpM_first hjhi]
  exact hnext.bind_left _

/-! ## Every interleaving -/

section

variable (P SHAKE256 reduced)

/-- The device, with a loop over the indices below `hi`. -/
def keygenDevice (delta : List UInt8) (hi : Nat) : Dialog Fault UInt8 (List UInt8) :=
  Dialog.lift (rndSysMat P SHAKE256 P.k (P.m * P.n) (keypairSeed P SHAKE256 delta)) >>= fun G0 =>
    deviceStart P reduced G0 >>= fun _ =>
      deviceIndices P SHAKE256 reduced delta G0 hi >>= fun _ => pure (keypairSeed P SHAKE256 delta)

/-- The file `file` holds the matrices that the device has computed for the indices
    up to `i`. -/
def RecordsIndices (delta : List UInt8) (i : Nat) (file : List FileLine) : Prop :=
  ∃ G0 st Ss,
    (rndSysMat P SHAKE256 P.k (P.m * P.n) (keypairSeed P SHAKE256 delta) : Run Fault _).Returns G0 ∧
    (keygenIndices P SHAKE256 reduced delta G0 (i + 1)).Returns (st, Ss) ∧
    file = keygenFile P reduced G0 Ss

/-- A script that both sides follow, and behind which the device does not wait. -/
structure KeygenScript (delta : List UInt8) (hi : Nat) (T : List (Act UInt8)) : Prop where
  device : (keygenDevice P SHAKE256 reduced delta hi).Follows T
  device_send : ∀ b, ¬ (keygenDevice P SHAKE256 reduced delta hi).Stops T (.send b)
  device_recv : ¬ (keygenDevice P SHAKE256 reduced delta hi).Stops T .recv
  host : (doGetDataFromKeygen reduced hi).Follows (Network.dual T)
  host_send : ∀ b, ¬ (doGetDataFromKeygen reduced hi).Stops (Network.dual T) (.send b)
  records : ∀ q, q <+: Network.dual T → ∀ i file V, 1 ≤ i → i < hi →
    (doGetDataFromKeygen reduced (i + 1)).Ends q file V →
      RecordsIndices P SHAKE256 reduced delta i file

end

/-- The first thing the host does is to wait. -/
theorem host_first {hi : Nat} (hhi : reduced = true ∨ 1 < hi) :
    (doGetDataFromKeygen reduced hi).Stops [] .recv := by
  cases reduced with
  | true => exact Dialog.stops_bind.mpr (Or.inl (Dialog.stops_bind.mpr (Or.inl Dialog.stops_get)))
  | false =>
      have h1 : 1 < hi := hhi.resolve_left (by decide)
      have hloop : Dialog.Stops (forUpM 1 hi (hostKeygenIndex false []) []) [] .recv := by
        rw [forUpM_first h1]
        exact Dialog.stops_bind.mpr (Or.inl (Dialog.stops_bind.mpr (Or.inl Dialog.stops_get)))
      exact ((Dialog.speaks_pure _).stops_bind (q := [])).mpr hloop

/-- A prefix of a script at which the host has come to the end of index `i`. -/
theorem records_of_ends {delta : List UInt8} {i j : Nat} (hj : 1 ≤ j)
    (hG0 : (rndSysMat P SHAKE256 P.k (P.m * P.n) (keypairSeed P SHAKE256 delta) :
      Run Fault _).Returns G0) {st : List UInt8 × Arr UInt16} {Ss : List Solved}
    (hret : (keygenIndices P SHAKE256 reduced delta G0 j).Returns (st, Ss)) {q : List (Act UInt8)}
    (hq : q <+: Network.dual (keygenScript P reduced G0 Ss)) {file : List FileLine}
    {V : List (Act UInt8)} (h : (doGetDataFromKeygen reduced (i + 1)).Ends q file V) :
    RecordsIndices P SHAKE256 reduced delta i file := by
  rcases Nat.lt_or_ge j (i + 1) with hlt | hge
  · -- the host has not come that far
    obtain ⟨hfollows, hstops⟩ := host_waits hj hlt hret (Dialog.waits_get.bind_left _)
    rw [List.append_nil] at hfollows hstops
    obtain ⟨r, hr⟩ := hq
    cases r with
    | nil =>
        rw [List.append_nil] at hr
        exact absurd h (hr ▸ hstops).not_ends
    | cons c r => exact absurd h (hfollows q c r hr.symm).not_ends
  · obtain ⟨st', Ss', hret', hpre⟩ := keygenIndices_prefix (by omega) hge hret
    have hspeaks := speaks_host (by omega) hret'
    have hscript : Network.dual (keygenScript P reduced G0 Ss')
        <+: Network.dual (keygenScript P reduced G0 Ss) := by
      obtain ⟨rest, rfl⟩ := hpre
      simp only [keygenScript, List.flatMap_append, Network.dual_append, ← List.append_assoc]
      exact List.prefix_append _ _
    rcases List.prefix_or_prefix_of_prefix hscript hq with ⟨W, hW⟩ | ⟨r, hr⟩
    · rw [← hW] at h
      obtain ⟨hfile, -⟩ := h.unique (hspeaks.ends W)
      exact ⟨G0, st', Ss', hG0, hret', hfile⟩
    · cases r with
      | nil =>
          rw [List.append_nil] at hr
          have hends := hspeaks.ends []
          rw [List.append_nil, ← hr] at hends
          exact ⟨G0, st', Ss', hG0, hret', (h.unique hends).1⟩
      | cons c r => exact absurd h (hspeaks.follows q c r hr.symm).not_ends

/-- The script of a run in which no round fails late. -/
theorem exists_keygenScript (P : Params) (SHAKE256 : Shake) (reduced : Bool) (delta : List UInt8)
    {hi : Nat} (hhi : 1 ≤ hi)
    (hlate : ∀ G0, (rndSysMat P SHAKE256 P.k (P.m * P.n) (keypairSeed P SHAKE256 delta) :
        Run Fault _).Returns G0 →
      ¬ (keygenIndices P SHAKE256 reduced delta G0 hi).Faults .late) :
    ∃ T, KeygenScript P SHAKE256 reduced delta hi T := by
  by_cases hG0 : ∃ G0, (rndSysMat P SHAKE256 P.k (P.m * P.n) (keypairSeed P SHAKE256 delta) :
      Run Fault _).Returns G0
  case neg =>
    have hstuck : (keygenDevice P SHAKE256 reduced delta hi).Stuck [] :=
      (Dialog.stuck_lift fun G0 h => hG0 ⟨G0, h⟩).bind_left _
    refine ⟨[], hstuck.follows, hstuck.no_send, hstuck.no_recv, Dialog.follows_nil _, ?_, ?_⟩
    · intro b hb
      by_cases hfirst : reduced = true ∨ 1 < hi
      · cases (host_first hfirst).unique hb
      · obtain ⟨hr, h1⟩ := not_or.mp hfirst
        obtain rfl : hi = 1 := by omega
        obtain rfl : reduced = false := Bool.eq_false_iff.mpr hr
        exact Dialog.not_stops_pure (((Dialog.speaks_pure _).stops_bind (q := [])).mp hb)
    · intro q hq i file V h1 h2 hends
      obtain rfl := List.prefix_nil.mp hq
      exact absurd hends (host_first (Or.inr (by omega))).not_ends
  case pos =>
    obtain ⟨G0, hG0⟩ := hG0
    obtain ⟨j, st, Ss, h1, h2, hret, hstuck⟩ := keygenIndices_dichotomy hhi (hlate G0 hG0)
    have hdev := (speaks_indices h1 hret).1
    have hrecords := fun q (hq : q <+: Network.dual (keygenScript P reduced G0 Ss)) i file V
      (_ : 1 ≤ i) (_ : i < hi) (h : (doGetDataFromKeygen reduced (i + 1)).Ends q file V) =>
      records_of_ends h1 hG0 hret hq h
    rcases Nat.lt_or_ge j hi with hlt | hge
    · -- the loop over index `j` is silent for ever
      have hrest : (deviceIndices P SHAKE256 reduced delta G0 hi).Stuck
          (Ss.flatMap (indexScript P reduced G0)) := by
        rw [deviceIndices, forUpM_split h1 (Nat.le_of_lt hlt)]
        have := hdev.bind_stuck (f := forUpM j hi fun _ s =>
          Session.loop (streamAttempt serialHal P SHAKE256 reduced G0) s) (q := []) (by
            rw [forUpM_first hlt]
            exact (hstuck hlt).bind_left _)
        rwa [List.append_nil] at this
      have hdevice : (keygenDevice P SHAKE256 reduced delta hi).Stuck (keygenScript P reduced G0 Ss) :=
        (Dialog.speaks_lift hG0).bind_stuck (speaks_deviceStart.bind_stuck (hrest.bind_left _))
      obtain ⟨hfollows, hwaits⟩ := host_waits h1 hlt hret (Dialog.waits_get.bind_left _)
      rw [List.append_nil] at hfollows hwaits
      refine ⟨_, hdevice.follows, hdevice.no_send, hdevice.no_recv, hfollows, fun b hb => ?_, hrecords⟩
      cases hwaits.unique hb
    · obtain rfl : j = hi := by omega
      have hdevice : (keygenDevice P SHAKE256 reduced delta j).Speaks (keygenScript P reduced G0 Ss)
          (keypairSeed P SHAKE256 delta) :=
        (Dialog.speaks_lift hG0).bind_nil (speaks_deviceStart.bind
          (hdev.bind_pure (Dialog.speaks_pure _)))
      have hends := hdevice.ends []
      have hhost := speaks_host h1 hret
      have hhends := hhost.ends []
      rw [List.append_nil] at hends hhends
      exact ⟨_, hdevice.follows, fun b hb => hb.not_ends hends, fun hr => hr.not_ends hends,
        hhost.follows, fun b hb => hb.not_ends hhends, hrecords⟩

/-- Loops that start behind their end are empty. -/
theorem forUpM_zero {m : Type → Type} [Monad m] {σ : Type} (f : Nat → σ → m σ) :
    forUpM 1 0 f = forUpM 1 1 f := by
  funext s
  rw [forUpM_of_le (by decide), forUpM_self]

end

/-- No interleaving of device and host comes to a state in which both wait, and what the
    host has recorded at the end of an index are the matrices the device has computed
    for it. -/
def KeygenInStep (P : Params) (SHAKE256 : Shake) (reduced : Bool) (delta : List UInt8) : Prop :=
  ∀ c, Network.Reachable (streamMatrices serialHal P SHAKE256 reduced delta)
      (doGetDataFromKeygen reduced P.s) c →
    ¬ Network.BothWait (streamMatrices serialHal P SHAKE256 reduced delta)
        (doGetDataFromKeygen reduced P.s) c ∧
      ∀ i file V, 1 ≤ i → i < P.s → (doGetDataFromKeygen reduced (i + 1)).Ends c.right file V →
        RecordsIndices P SHAKE256 reduced delta i file

/-- Device and host keep in step as long as no round fails after the ready byte. -/
theorem keygen_in_step (P : Params) (SHAKE256 : Shake) (reduced : Bool) (delta : List UInt8)
    (hlate : NoLateFailure P SHAKE256 reduced delta) : KeygenInStep P SHAKE256 reduced delta := by
  intro c hc
  have key : ∃ T, KeygenScript P SHAKE256 reduced delta P.s T := by
    rcases Nat.eq_zero_or_pos P.s with h0 | hpos
    · obtain ⟨T, hT⟩ := exists_keygenScript P SHAKE256 reduced delta (Nat.le_refl 1)
        fun G0 hG0 => by
          have := hlate G0 hG0
          rwa [h0, keygenIndices, forUpM_zero] at this
      refine ⟨T, ?_⟩
      have hdev : keygenDevice P SHAKE256 reduced delta 0 = keygenDevice P SHAKE256 reduced delta 1 := by
        unfold keygenDevice deviceIndices
        simp only [forUpM_zero]
      have hhost : doGetDataFromKeygen reduced 0 = doGetDataFromKeygen reduced 1 := by
        unfold doGetDataFromKeygen
        simp only [forUpM_zero]
      rw [h0]
      exact ⟨hdev ▸ hT.device, hdev ▸ hT.device_send, hdev ▸ hT.device_recv, hhost ▸ hT.host,
        hhost ▸ hT.host_send, fun q hq i file V h1 h2 => absurd h2 (Nat.not_lt_zero i)⟩
    · exact exists_keygenScript P SHAKE256 reduced delta hpos hlate
  obtain ⟨T, hT⟩ := key
  rw [streamMatrices_eq] at hc ⊢
  have halong := hc.along hT.device hT.host hT.device_send hT.host_send
  exact ⟨fun hwait => hT.device_recv (halong.end_of_bothWait hT.device hT.host hwait).1,
    hT.records c.right halong.right_prefix⟩

theorem keygen_in_step_tiny : KeygenInStep tiny toyShake true [4] := by
  refine keygen_in_step tiny toyShake true [4] fun G0 hG0 => ?_
  have hseed : (rndSysMat tiny toyShake tiny.k (tiny.m * tiny.n) (keypairSeed tiny toyShake [4]) :
      Run Fault _).Returns ⟨[1, 0, 2, 0, 0, 1, 1, 2]⟩ :=
    Run.returns_of_run (n := 60) (by decide +kernel)
  obtain rfl := hG0.unique hseed
  obtain ⟨r, hr⟩ : ∃ r, (keygenIndices tiny toyShake true [4] ⟨[1, 0, 2, 0, 0, 1, 1, 2]⟩ tiny.s).Returns
      r := Run.exists_returns_of_run (n := 60) (by decide +kernel)
  exact hr.not_faults

/-! ## A late failure -/

section

variable {P : Params} {SHAKE256 : Shake} {reduced : Bool} {G0 : Arr UInt16}

/-- Rounds that fail before the ready byte. -/
def SilentRounds (P : Params) (SHAKE256 : Shake) (reduced : Bool) (G0 : Arr UInt16) :
    List UInt8 × Arr UInt16 → List UInt8 × Arr UInt16 → Prop :=
  Relation.ReflTransGen fun s s' => (keygenRound P SHAKE256 reduced G0 s).Returns (.inl s')

/-- A round that fails late has sent the ready byte and taken G_0. -/
theorem speaks_round_late {s : List UInt8 × Arr UInt16} {sigma : List UInt8} {Gdata : Arr UInt16}
    {S : Solved} (h : (streamPrepare P SHAKE256 reduced G0 s).Returns (sigma, Gdata, some S))
    (hret : (foundG P reduced G0 S).1 ≠ 0) :
    Dialog.Speaks (streamAttempt serialHal P SHAKE256 reduced G0 s)
      ([.send 0] ++ echoScript P reduced G0) (.inl (sigma, (foundG P reduced G0 S).2)) := by
  rw [streamAttempt_eq]
  refine (Dialog.speaks_lift h).bind_nil ((Dialog.speaks_put 0).bind
    ((speaks_echo_device Gdata).bind_pure ?_))
  simp only [echoed_pi]
  change Dialog.Speaks (if (foundG P reduced G0 S).1 ≠ 0 then _ else _) _ _
  rw [if_pos hret]
  exact Dialog.speaks_pure _

/-- Silent rounds before the device waits. -/
theorem waits_of_silent {s s' : List UInt8 × Arr UInt16} {p : List (Act UInt8)}
    (hs : SilentRounds P SHAKE256 reduced G0 s s')
    (h : Dialog.Waits (Session.loop (streamAttempt serialHal P SHAKE256 reduced G0) s') p) :
    Dialog.Waits (Session.loop (streamAttempt serialHal P SHAKE256 reduced G0) s) p := by
  induction hs using Relation.ReflTransGen.head_induction_on with
  | refl => exact h
  | head hround _ ih => exact .of_rounds ((speaks_round_inl hround).bind_waits ih)

/-- In the memory-reduced build a round that has sent the ready byte waits for G_0. -/
theorem waits_round {s : List UInt8 × Arr UInt16} {sigma : List UInt8} {Gdata : Arr UInt16}
    {S : Solved} (hlen : 0 < P.k * P.m * P.n)
    (h : (streamPrepare P SHAKE256 true G0 s).Returns (sigma, Gdata, some S)) :
    Dialog.Waits (streamAttempt serialHal P SHAKE256 true G0 s) [.send 0] := by
  have hread : (readStream (P.k * P.m * P.n)).Waits [] := by
    rw [readStream, forUpM_first hlen]
    exact (Dialog.waits_get.bind_left _).bind_left _
  rw [streamAttempt_eq]
  exact (Dialog.speaks_lift h).bind_waits ((Dialog.speaks_put 0).bind_waits (hread.bind_left _))

/-- A ready byte where the host reads a line leaves it waiting for the line break. -/
theorem readLine_waits : readLine.Waits [.recv 0] := by
  have hround : (readlineRound []).Speaks [.recv 0] (.inl [0]) := speaks_readlineRound [] 0
  have hnext : Dialog.Waits (Session.loop readlineRound [0]) [] :=
    .of_rounds ((Dialog.waits_get.bind_left _).bind_left _)
  exact (Dialog.Waits.of_rounds (hround.bind_waits hnext)).bind_left _

/-- The deadlock of the memory-reduced build: once a round has failed late, the next
    round that finds its matrices waits for G_0, and the host for a line. -/
theorem keygen_deadlock {delta : List UInt8} {i : Nat} (h1 : 1 ≤ i) (hi : i < P.s)
    (hlen : 0 < P.k * P.m * P.n)
    (hG0 : (rndSysMat P SHAKE256 P.k (P.m * P.n) (keypairSeed P SHAKE256 delta) :
      Run Fault _).Returns G0)
    {st s s' : List UInt8 × Arr UInt16} {Ss : List Solved}
    (hret : (keygenIndices P SHAKE256 true delta G0 i).Returns (st, Ss))
    (hs : SilentRounds P SHAKE256 true G0 st s) {sigma sigma' : List UInt8}
    {Gdata Gdata' : Arr UInt16} {S S' : Solved}
    (hlate : (streamPrepare P SHAKE256 true G0 s).Returns (sigma, Gdata, some S))
    (hfail : (foundG P true G0 S).1 ≠ 0)
    (hs' : SilentRounds P SHAKE256 true G0 (sigma, (foundG P true G0 S).2) s')
    (hnext : (streamPrepare P SHAKE256 true G0 s').Returns (sigma', Gdata', some S')) :
    ∃ c, Network.Reachable (streamMatrices serialHal P SHAKE256 true delta)
        (doGetDataFromKeygen true P.s) c ∧
      Network.BothWait (streamMatrices serialHal P SHAKE256 true delta)
        (doGetDataFromKeygen true P.s) c := by
  -- a round that fails late, silent rounds, and a round that announces its matrices
  have hloop : Dialog.Waits (Session.loop (streamAttempt serialHal P SHAKE256 true G0) st)
      ([.send 0] ++ echoScript P true G0 ++ [.send 0]) :=
    waits_of_silent hs (.of_rounds ((speaks_round_late hlate hfail).bind_waits
      (waits_of_silent hs' (.of_rounds ((waits_round hlen hnext).bind_left _)))))
  have hindices : (deviceIndices P SHAKE256 true delta G0 P.s).Waits
      (Ss.flatMap (indexScript P true G0) ++ ([.send 0] ++ echoScript P true G0 ++ [.send 0])) := by
    rw [deviceIndices, forUpM_split h1 (Nat.le_of_lt hi)]
    refine (speaks_indices h1 hret).1.bind_waits ?_
    rw [forUpM_first hi]
    exact hloop.bind_left _
  have hdevice : (streamMatrices serialHal P SHAKE256 true delta).Waits
      (keygenScript P true G0 Ss ++ ([.send 0] ++ echoScript P true G0 ++ [.send 0])) := by
    rw [streamMatrices_eq, keygenScript, List.append_assoc]
    exact (Dialog.speaks_lift hG0).bind_waits
      (speaks_deviceStart.bind_waits (hindices.bind_left _))
  -- the host takes the second zero byte for the start of a line
  have hhost : (doGetDataFromKeygen true P.s).Waits
      (Network.dual (keygenScript P true G0 Ss ++ ([.send 0] ++ echoScript P true G0 ++ [.send 0]))) := by
    rw [Network.dual_append]
    refine host_waits h1 hi hret ?_
    simp only [Network.dual_append, List.append_assoc]
    exact (Dialog.speaks_get 0).bind_waits (speaks_echo_host.bind_waits (readLine_waits.bind_left _))
  exact ⟨_, Network.reachable_of_follows hdevice.follows hhost.follows,
    hdevice.stops, hhost.stops, rfl, rfl⟩

end

/-- `tiny` with 3 x 3 matrices. -/
def tinyThree : Params := { tiny with m := 3, n := 3, k := 3 }

/-- For this seed the second round fails late and the fourth finds its matrices. -/
theorem not_keygenInStep : ¬ KeygenInStep tinyThree toyShake true [130] := by
  have hG0 : (rndSysMat tinyThree toyShake tinyThree.k (tinyThree.m * tinyThree.n)
      (keypairSeed tinyThree toyShake [130]) : Run Fault _).Returns
        ⟨[1, 0, 0, 1, 1, 0, 1, 0, 2, 0, 1, 0, 2, 0, 1, 0, 1, 1, 0, 0, 1, 1, 2, 0, 1, 1, 2]⟩ :=
    Run.returns_of_run (n := 60) (by decide +kernel)
  generalize hgen : (⟨[1, 0, 0, 1, 1, 0, 1, 0, 2, 0, 1, 0, 2, 0, 1, 0, 1, 1, 0, 0, 1, 1, 2, 0, 1, 1,
    2]⟩ : Arr UInt16) = G0 at hG0
  -- the four rounds of the loop, each evaluated once
  have hround : ∀ {s s'}, (streamPrepare tinyThree toyShake true G0 s).Returns
      (s'.1, s'.2, none) → SilentRounds tinyThree toyShake true G0 s s' := fun h =>
    .single (keygenRound_returns.mpr ⟨_, _, _, h, rfl⟩)
  have hret : (keygenIndices tinyThree toyShake true [130] G0 1).Returns (([7], G0), []) := by
    rw [keygenIndices, forUpM_self, Run.returns_pure]
    rfl
  have h1 : (streamPrepare tinyThree toyShake true G0 ([7], G0)).Returns ([30],
      ⟨[2, 1, 2, 0, 0, 1, 1, 0, 0, 0, 1, 2, 1, 1, 1, 2, 0, 2, 2, 2, 2, 2, 0, 2, 1, 1, 1]⟩, none) := by
    subst hgen
    exact Run.returns_of_run (n := 60) (by decide +kernel)
  have h2 : (streamPrepare tinyThree toyShake true G0 ([30],
      ⟨[2, 1, 2, 0, 0, 1, 1, 0, 0, 0, 1, 2, 1, 1, 1, 2, 0, 2, 2, 2, 2, 2, 0, 2, 1, 1, 1]⟩)).Returns
      ([15], ⟨[0, 2, 1, 2, 2, 2, 1, 0, 1, 0, 2, 0, 1, 0, 2, 0, 2, 2, 1, 2, 0, 2, 1, 2, 1, 2, 1]⟩,
        some ⟨⟨[0, 1, 1, 0, 1, 2, 2, 0, 1]⟩, ⟨[1, 0, 1, 2, 0, 0, 1, 1, 2]⟩,
          ⟨[2, 1, 2, 2, 2, 0, 2, 1, 0]⟩, ⟨[0, 2, 0, 1, 2, 1, 1, 1, 0]⟩⟩) := by
    subst hgen
    exact Run.returns_of_run (n := 60) (by decide +kernel)
  have hfail : foundG tinyThree true G0 ⟨⟨[0, 1, 1, 0, 1, 2, 2, 0, 1]⟩, ⟨[1, 0, 1, 2, 0, 0, 1, 1, 2]⟩,
      ⟨[2, 1, 2, 2, 2, 0, 2, 1, 0]⟩, ⟨[0, 2, 0, 1, 2, 1, 1, 1, 0]⟩⟩ = (-1,
        ⟨[1, 0, 0, 0, 2, 0, 1, 1, 0, 0, 1, 0, 0, 0, 1, 2, 2, 1, 0, 0, 0, 0, 2, 0, 2, 2, 1]⟩) := by
    subst hgen
    decide +kernel
  have h3 : (streamPrepare tinyThree toyShake true G0 ([15],
      ⟨[1, 0, 0, 0, 2, 0, 1, 1, 0, 0, 1, 0, 0, 0, 1, 2, 2, 1, 0, 0, 0, 0, 2, 0, 2, 2, 1]⟩)).Returns
      ([28], ⟨[2, 0, 0, 0, 2, 0, 0, 0, 2, 1, 2, 0, 0, 2, 2, 2, 2, 2, 1, 1, 0, 0, 2, 1, 0, 0, 1]⟩,
        none) := by
    subst hgen
    exact Run.returns_of_run (n := 60) (by decide +kernel)
  have h4 : (streamPrepare tinyThree toyShake true G0 ([28],
      ⟨[2, 0, 0, 0, 2, 0, 0, 0, 2, 1, 2, 0, 0, 2, 2, 2, 2, 2, 1, 1, 0, 0, 2, 1, 0, 0, 1]⟩)).Returns
      ([0], ⟨[2, 2, 0, 0, 2, 2, 1, 1, 1, 2, 0, 0, 0, 2, 0, 0, 0, 2, 1, 1, 0, 0, 2, 1, 0, 0, 1]⟩,
        some ⟨⟨[0, 2, 0, 2, 2, 2, 0, 0, 1]⟩, ⟨[2, 0, 1, 0, 1, 0, 1, 2, 0]⟩,
          ⟨[1, 2, 2, 2, 0, 0, 0, 0, 1]⟩, ⟨[0, 1, 1, 0, 1, 0, 1, 1, 1]⟩⟩) := by
    subst hgen
    exact Run.returns_of_run (n := 60) (by decide +kernel)
  obtain ⟨c, hc, hwait⟩ := keygen_deadlock (Nat.le_refl 1) (by decide) (by decide) hG0 hret
    (hround h1) h2 (by rw [hfail]; decide) (hround (by rw [hfail]; exact h3)) h4
  exact fun hall => (hall c hc).1 hwait

end Meds.Ref
