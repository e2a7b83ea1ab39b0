/-
  Meds.Ref.StaleMemory

  Packing does not depend on what the buffer held before.

  `crypto_sign` and `crypto_sign_open` pack every commitment into a stack
  buffer that is never cleared, and hash the buffer.  Fields of at least
  eight bits overwrite all of it, so the two programs are the same for any
  two stacks.
-/

import Meds.Core.Checked
import Meds.Ref.SignSpec
import Meds.Ref.SpecialSound
import Meds.Ref.StreamOps

namespace Meds.Ref

open Meds.Core

variable {P : Params} {SHAKE256 : Shake} {ε : Type}

/-- Wide fields leave the same bytes in any two buffers. -/
theorem runOps_unstale {ops : List StreamOp} {bufLen : Nat} (hwide : ∀ op ∈ ops, op.Wide)
    (hfit : (opsBits ops).length ≤ 8 * bufLen) (buf buf' : Arr UInt8) :
    (runOps ops (buf, bsInit bufLen)).2 = (runOps ops (buf', bsInit bufLen)).2 ∧
      (runOps ops (buf, bsInit bufLen)).1.slice 0
          (byteLen (runOps ops (buf, bsInit bufLen)).2.pos) =
        (runOps ops (buf', bsInit bufLen)).1.slice 0
          (byteLen (runOps ops (buf', bsInit bufLen)).2.pos) := by
  have h := carries_run hwide hfit buf
  have h' := carries_run hwide hfit buf'
  refine ⟨h.cursor.trans h'.cursor.symm, ?_⟩
  rw [h.pos_eq, h'.pos_eq]
  apply Arr.slice_congr
  intro i hi
  rw [Nat.zero_add]
  exact h.get_eq h' hi

/-- The packed commitment is a function of the matrix. -/
theorem packCommitment_unstale (h8 : 8 ≤ P.gfqBits) {G : Arr UInt16}
    (hG : ∀ r j, r < P.k → j < P.m * P.n → (G.get (P.m * P.n * r + j)).toNat < 2 ^ P.gfqBits)
    (bsBuf bsBuf' : Arr UInt8) : packCommitment P bsBuf G = packCommitment P bsBuf' G := by
  have hlt : ∀ v ∈ rowEntries P G 0 P.k, v < 2 ^ P.gfqBits :=
    lt_of_mem_rowEntries fun r j _ => hG r j
  rw [packCommitment_eq (by omega) hlt (Or.inl h8), packCommitment_eq (by omega) hlt (Or.inl h8)]

/-! ## The signer and the verifier -/

section

variable [hprime : Fact P.p.Prime]

/-- The systematic form that a round hashes is packed the same way from any buffer. -/
theorem packCommitment_commitG (hP : P.Square) (h8 : 8 ≤ P.gfqBits) {G A B : Arr UInt16}
    (h : (pmodMatSystCt P (pi P A B G) P.k (P.m * P.n)).1 = 0) (bsBuf bsBuf' : Arr UInt8) :
    packCommitment P bsBuf (commitG P G A B) = packCommitment P bsBuf' (commitG P G A B) := by
  obtain ⟨-, -, hred⟩ := commitG_spec hP h
  rw [packCommitment_reduced hP hred (Or.inl h8), packCommitment_reduced hP hred (Or.inl h8)]

theorem signCommit_unstale (hP : P.Square) (h8 : 8 ≤ P.gfqBits) (bsBuf bsBuf' : Nat → Arr UInt8) :
    (signCommit P SHAKE256 bsBuf : Arr UInt16 → List UInt8 → Nat → SignState → Run ε SignState)
      = signCommit P SHAKE256 bsBuf' := by
  funext G0 alpha i s
  apply Run.bind_congr_returns
  rintro ⟨stree, A, B, G⟩ hloop
  obtain ⟨rfl, -, -, -, -, hsyst⟩ := commitLoop_matrices hP hloop
  simp only [packCommitment_commitG hP h8 hsyst (bsBuf i) (bsBuf' i)]

theorem cryptoSign_unstale (hP : P.Square) (h8 : 8 ≤ P.gfqBits) (bsBuf bsBuf' : Nat → Arr UInt8) :
    cryptoSign P SHAKE256 bsBuf = cryptoSign P SHAKE256 bsBuf' := by
  funext delta sm m sk
  unfold cryptoSign signCommitments
  rw [signCommit_unstale hP h8 bsBuf bsBuf']

/-- What a response that is not rejected makes the verifier hash. -/
theorem openResponse_returns_commitG (hP : P.Square) {mem : Nat → Option UInt8}
    {G Ghat : Arr UInt16} {bs bs' : BitstreamT}
    (h : (openResponse P mem G bs).Returns (some (Ghat, bs'))) :
    ∃ mu nu, (pmodMatSystCt P (pi P mu nu G) P.k (P.m * P.n)).1 = 0 ∧ Ghat = commitG P G mu nu := by
  rw [openResponseLog_forget, Run.returns_bind] at h
  obtain ⟨r, hr, h⟩ := h
  cases r with
  | none => exact absurd (Run.returns_pure.mp h) (by simp)
  | some r =>
      obtain ⟨mu, nu, Ghat', bs1⟩ := r
      obtain ⟨rfl, rfl⟩ : Ghat = Ghat' ∧ bs' = bs1 := by simpa using Run.returns_pure.mp h
      obtain ⟨-, -, hsyst, hG⟩ := openResponseLog_returns hP hr
      exact ⟨mu, nu, hsyst, hG⟩

theorem openRound_unstale (hP : P.Square) (h8 : 8 ≤ P.gfqBits) (bsBuf bsBuf' : Nat → Arr UInt8)
    (mem : Nat → Option UInt8) (G : Arr (Arr UInt16)) (alpha : List UInt8) (h : Arr UInt8) :
    openRound P SHAKE256 mem bsBuf G alpha h = openRound P SHAKE256 mem bsBuf' G alpha h := by
  funext i s
  cases s with
  | none => rfl
  | some s =>
      unfold openRound
      simp only
      by_cases hi : h.get i > 0
      · rw [if_pos hi, if_pos hi]
        apply Run.bind_congr_returns
        intro r hr
        cases r with
        | none => rfl
        | some r =>
            obtain ⟨Ghat, bs⟩ := r
            obtain ⟨mu, nu, hsyst, rfl⟩ := openResponse_returns_commitG hP hr
            simp only [packCommitment_commitG hP h8 hsyst (bsBuf i) (bsBuf' i)]
      · rw [if_neg hi, if_neg hi]
        apply Run.bind_congr_returns
        rintro ⟨stree, A, B, Ghat⟩ hloop
        obtain ⟨rfl, -, -, -, -, hsyst⟩ := commitLoop_matrices hP hloop
        simp only [packCommitment_commitG hP h8 hsyst (bsBuf i) (bsBuf' i)]

theorem cryptoSignOpen_unstale (hP : P.Square) (h8 : 8 ≤ P.gfqBits)
    (bsBuf bsBuf' : Nat → Arr UInt8) :
    cryptoSignOpen P SHAKE256 bsBuf = cryptoSignOpen P SHAKE256 bsBuf' := by
  funext m mlen sm pk
  unfold cryptoSignOpen
  simp only [openRound_unstale hP h8 bsBuf bsBuf']

end

/-- Neither a run of the writer, nor a packed commitment, nor the signer or
    the verifier depends on the old contents of a buffer. -/
theorem packing_unstale (SHAKE256 : Shake) :
    (∀ (ops : List StreamOp) (bufLen : Nat), (∀ op ∈ ops, op.Wide) → bufLen < 2 ^ 28 →
      (opsBits ops).length ≤ 8 * bufLen → ∀ buf buf' : Arr UInt8,
        (runOps ops (buf, bsInit bufLen)).2 = (runOps ops (buf', bsInit bufLen)).2 ∧
          (runOps ops (buf, bsInit bufLen)).1.slice 0
              (byteLen (runOps ops (buf, bsInit bufLen)).2.pos) =
            (runOps ops (buf', bsInit bufLen)).1.slice 0
              (byteLen (runOps ops (buf', bsInit bufLen)).2.pos)) ∧
    (∀ (P : Params) (G : Arr UInt16), 8 ≤ P.gfqBits →
      (∀ r j, r < P.k → j < P.m * P.n → (G.get (P.m * P.n * r + j)).toNat < 2 ^ P.gfqBits) →
      ∀ bsBuf bsBuf' : Arr UInt8, packCommitment P bsBuf G = packCommitment P bsBuf' G) ∧
    ∀ P : Params, P.Square → 8 ≤ P.gfqBits → ∀ bsBuf bsBuf' : Nat → Arr UInt8,
      cryptoSign P SHAKE256 bsBuf = cryptoSign P SHAKE256 bsBuf' ∧
        cryptoSignOpen P SHAKE256 bsBuf = cryptoSignOpen P SHAKE256 bsBuf' := by
  refine ⟨fun ops bufLen hwide _ hfit buf buf' => runOps_unstale hwide hfit buf buf',
    fun P G h8 hG bsBuf bsBuf' => packCommitment_unstale h8 hG bsBuf bsBuf',
    fun P hP h8 bsBuf bsBuf' => ?_⟩
  have : Fact P.p.Prime := ⟨hP.prime⟩
  exact ⟨cryptoSign_unstale hP h8 bsBuf bsBuf', cryptoSignOpen_unstale hP h8 bsBuf bsBuf'⟩

/-- A cleared buffer and one that is not. -/
theorem packing_unstale_tiny :
    ((runOps [.write 300 9, .finalize, .write 5 8] (Arr.empty, bsInit 4)).1.slice 0
        (byteLen (runOps [.write 300 9, .finalize, .write 5 8] (Arr.empty, bsInit 4)).2.pos) =
      (runOps [.write 300 9, .finalize, .write 5 8] (⟨[255, 254, 253, 252]⟩, bsInit 4)).1.slice 0
        (byteLen (runOps [.write 300 9, .finalize, .write 5 8]
          (⟨[255, 254, 253, 252]⟩, bsInit 4)).2.pos)) ∧
    cryptoSign tiny toyShake (fun _ => Arr.empty)
      = cryptoSign tiny toyShake (fun i => ⟨[255, UInt8.ofNat i]⟩) :=
  ⟨((packing_unstale toyShake).1 _ 4
      (by
        intro op hop
        simp only [List.mem_cons, List.not_mem_nil, or_false] at hop
        rcases hop with rfl | rfl | rfl <;> simp [StreamOp.Wide])
      (by decide) (by decide) _ _).2,
    ((packing_unstale toyShake).2.2 tiny tiny_valid.toSquare (by decide) _ _).1⟩

end Meds.Ref
