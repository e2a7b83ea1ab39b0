/-
  Meds.Ref.StreamSignSmall

  Signing on the device without memory reduction, put together by the host,
  against meds_serial.c.

  The device keeps G_0 apart from G_tilde, so every round of a commitment is
  the round of meds_serial.c, retried or not.  The signed message arrives as
  t + 1 lines of hex digits.  A round without a response sends `00`, the text
  of a zero byte; the host drops what has at most two characters.  A response
  never has exactly one byte, and the last chunk has one only without path,
  digest and salt.
-/

import Meds.Ref.StreamSign
import Meds.Ref.Wire

namespace Meds.Ref

open Meds.Core

variable {P : Params} {SHAKE256 : Shake} {ε : Type}

/-! ## The host -/

/-- The host sends the commitment matrices back in the order in which they came. -/
def replayHost (sent : List (Arr UInt16)) (k : Nat) : Arr UInt16 := sent.getD k Arr.empty

/-- The line of `write_stream_str("", A, L)`, without its break. -/
def chunkLine (A : List UInt8) : List UInt8 := if A = [] then text "00" else A.flatMap hex2

/-- What the host writes behind `sm = `. -/
def smText (lines : List (List UInt8)) : List UInt8 :=
  (lines.filter fun sm_data => sm_data.length > 2).flatten

/-- The line is what the device prints. -/
theorem speaks_chunkLine (A : List UInt8) :
    (writeStreamStr "" A).Speaks ((chunkLine A ++ [newline]).map .send) () := by
  rw [List.map_append]
  exact (Dialog.speaks_putAll (ε := Fault) (text "")).bind
    ((Dialog.speaks_putAll (chunkLine A)).bind (Dialog.speaks_put newline))

/-- An empty chunk looks like a zero byte. -/
theorem chunkLine_eq (A : List UInt8) : chunkLine A = (if A = [] then [0] else A).flatMap hex2 := by
  rw [chunkLine]
  split <;> rfl

theorem length_hex2 (A : List UInt8) : (A.flatMap hex2).length = 2 * A.length := by
  induction A with
  | nil => rfl
  | cons b A ih =>
      rw [List.flatMap_cons, List.length_append, ih, List.length_cons, hex2, List.length_cons,
        List.length_cons, List.length_nil]
      omega

/-- Only the lines of empty chunks and of single bytes are dropped. -/
theorem smText_chunkLine {chunks : List (List UInt8)} (h : ∀ A ∈ chunks, A.length ≠ 1) :
    smText (chunks.map chunkLine) = chunks.flatten.flatMap hex2 := by
  rw [smText]
  induction chunks with
  | nil => rfl
  | cons A chunks ih =>
      have hA := h A List.mem_cons_self
      have hrest := ih fun B hB => h B (List.mem_cons_of_mem A hB)
      rw [List.map_cons, List.flatten_cons, List.flatMap_append, ← hrest, List.filter_cons]
      by_cases hnil : A = []
      · subst hnil
        rw [if_neg (by decide), List.flatMap_nil, List.nil_append]
      · have hpos := List.length_pos_iff.mpr hnil
        have hline : chunkLine A = A.flatMap hex2 := if_neg hnil
        rw [hline, if_pos (by rw [length_hex2]; exact decide_eq_true (by omega)), List.flatten_cons]

theorem smText_append (lines lines' : List (List UInt8)) :
    smText (lines ++ lines') = smText lines ++ smText lines' := by
  rw [smText, smText, smText, List.filter_append, List.flatten_append]

/-- The text of a single byte is taken for that of no byte. -/
theorem smText_byte {A : List UInt8} (h : A.length = 1) : smText [chunkLine A] = [] := by
  have hne : A ≠ [] := fun hnil => by simp [hnil] at h
  have hline : chunkLine A = A.flatMap hex2 := if_neg hne
  have htwo := length_hex2 A
  rw [h] at htwo
  rw [smText, List.filter_cons, hline, if_neg (by rw [htwo]; decide)]
  rfl

/-- The lines of the device: `t` responses, none of one byte, and the last chunk. -/
def ChunkLines (P : Params) (msg signed : List UInt8) (lines : List (List UInt8)) : Prop :=
  ∃ responses last, lines = (responses ++ [last]).map chunkLine ∧
    signed = responses.flatten ++ last ∧ (∀ A ∈ responses, A.length ≠ 1) ∧
    last.length = dataLength P + msg.length

/-- The host decodes the signed message unless the last chunk is a single byte. -/
theorem ChunkLines.decodes_iff {msg signed : List UInt8} {lines : List (List UInt8)}
    (h : ChunkLines P msg signed lines) :
    fromHex (smText lines) = some signed ↔ dataLength P + msg.length ≠ 1 := by
  obtain ⟨responses, last, rfl, rfl, hone, hlast⟩ := h
  rw [← hlast]
  constructor
  · intro hdec hbyte
    rw [List.map_append, smText_append, smText_chunkLine hone, List.map_singleton,
      smText_byte hbyte, List.append_nil, fromHex_hex2] at hdec
    have hlen := congrArg List.length (Option.some.inj hdec)
    rw [List.length_append] at hlen
    omega
  · intro hbyte
    have hall : ∀ A ∈ responses ++ [last], A.length ≠ 1 := by
      intro A hA
      rcases List.mem_append.mp hA with hA | hA
      · exact hone A hA
      · exact List.mem_singleton.mp hA ▸ hbyte
    rw [smText_chunkLine hall, fromHex_hex2, List.flatten_append, List.flatten_singleton]

section

variable (P SHAKE256)

/-- The device and the host produce the signed message of `crypto_sign` in a
    zero-filled buffer, and they end only if it does. -/
structure SmallSignRefines (bsBuf : Nat → Arr UInt8) (delta msg sk : List UInt8) : Prop where
  signed : ∀ sm smlen, (cryptoSign P SHAKE256 bsBuf delta (Arr.replicate (P.sigBytes + msg.length) 0)
      msg sk).Returns (sm, smlen) →
    ∃ e, Session.Ends (cryptoSignStreaming (echoHal replayHost sk) P SHAKE256 false delta msg)
        Echo.start smlen e ∧
      fromHex (smText (e.chunks.map fun c => c.flatMap hex2)) = some (sm.slice 0 smlen)
  ends : ∀ smlen e,
    Session.Ends (cryptoSignStreaming (echoHal replayHost sk) P SHAKE256 false delta msg)
      Echo.start smlen e →
    ∃ sm, (cryptoSign P SHAKE256 bsBuf delta (Arr.replicate (P.sigBytes + msg.length) 0)
      msg sk).Returns (sm, smlen)

end

/-! ## The commitments -/

/-- G_0 is not touched: apart from G_tilde, a round is that of meds_serial.c. -/
theorem streamCommitAttempt_forget (G0 : Arr UInt16) (alpha : List UInt8) (i : Nat)
    (s : Arr UInt8 × Arr UInt16) :
    (streamCommitAttempt P SHAKE256 false G0 alpha i s >>= fun r => pure (r.map Prod.fst id))
      = commitAttempt P SHAKE256 G0 alpha i s.1 := by
  rw [streamCommitAttempt, commitAttempt]
  simp only [bind_assoc, Bool.false_eq_true, if_false]
  apply bind_congr
  intro A
  apply bind_congr
  intro B
  split <;> rw [pure_bind] <;> rfl

theorem commitAttempt_returns_iff {G0 : Arr UInt16} {alpha : List UInt8} {i : Nat}
    {s : Arr UInt8 × Arr UInt16} {r : Arr UInt8 ⊕ Arr UInt8 × Arr UInt16 × Arr UInt16 × Arr UInt16} :
    (commitAttempt P SHAKE256 G0 alpha i s.1 : Run Fault _).Returns r ↔
      ∃ r', (streamCommitAttempt P SHAKE256 false G0 alpha i s).Returns r' ∧
        r = r'.map Prod.fst id := by
  rw [← streamCommitAttempt_forget, Run.returns_bind]
  exact exists_congr fun r' => and_congr_right fun _ => Run.returns_pure

/-- The commitment loop is that of meds_serial.c, with any number of retries. -/
theorem streamCommit_iff {G0 Gtilde : Arr UInt16} {alpha : List UInt8} {i : Nat}
    {stree : Arr UInt8} {r : Arr UInt8 × Arr UInt16 × Arr UInt16 × Arr UInt16} :
    (Run.loop (streamCommitAttempt P SHAKE256 false G0 alpha i) (stree, Gtilde)).Returns r ↔
      (Run.loop (commitAttempt P SHAKE256 G0 alpha i) stree : Run Fault _).Returns r := by
  constructor
  · intro h
    -- a retry changes the tree only; the buffer is formed anew in every round
    have hcont : ∀ (s : Arr UInt8 × Arr UInt16) (t : Arr UInt8) (s' : Arr UInt8 × Arr UInt16),
        s.1 = t → (streamCommitAttempt P SHAKE256 false G0 alpha i s).Returns (.inl s') →
        ∃ t', (commitAttempt P SHAKE256 G0 alpha i t : Run Fault _).Returns (.inl t') ∧ s'.1 = t' := by
      rintro s t s' rfl hr
      exact ⟨s'.1, commitAttempt_returns_iff.mpr ⟨_, hr, rfl⟩, rfl⟩
    obtain ⟨r', hr', rfl⟩ := Run.loop_simulation _ (S := Eq) hcont
      (fun s t a hst hr => ⟨a, by rw [← hst]; exact commitAttempt_returns_iff.mpr ⟨_, hr, rfl⟩, rfl⟩)
      rfl h
    exact hr'
  · intro h
    have hcont : ∀ (s : Arr UInt8) (t : Arr UInt8 × Arr UInt16) (s' : Arr UInt8),
        t.1 = s → (commitAttempt P SHAKE256 G0 alpha i s : Run Fault _).Returns (.inl s') →
        ∃ t', (streamCommitAttempt P SHAKE256 false G0 alpha i t).Returns (.inl t') ∧ t'.1 = s' := by
      rintro s t s' rfl hr
      obtain ⟨r', hr', heq⟩ := commitAttempt_returns_iff.mp hr
      cases r' with
      | inl t' => exact ⟨t', hr', (Sum.inl.inj heq).symm⟩
      | inr b => cases heq
    have hstop : ∀ (s : Arr UInt8) (t : Arr UInt8 × Arr UInt16)
        (a : Arr UInt8 × Arr UInt16 × Arr UInt16 × Arr UInt16),
        t.1 = s → (commitAttempt P SHAKE256 G0 alpha i s : Run Fault _).Returns (.inr a) →
        ∃ a', (streamCommitAttempt P SHAKE256 false G0 alpha i t).Returns (.inr a') ∧ a = a' := by
      rintro s t a rfl hr
      obtain ⟨r', hr', heq⟩ := commitAttempt_returns_iff.mp hr
      cases r' with
      | inl t' => cases heq
      | inr b => exact ⟨b, hr', Sum.inr.inj heq⟩
    obtain ⟨r', hr', rfl⟩ := Run.loop_simulation _ hcont hstop (t := (stree, Gtilde)) rfl h
    exact hr'

/-- The matrices sent by the commitments `0, …, i - 1`. -/
def sentLog (P : Params) (st : SignState) (i : Nat) : List (Arr UInt16) :=
  (List.range i).flatMap fun j =>
    [⟨(st.Atilde.get j).slice 0 (P.m * P.m)⟩, ⟨(st.Btilde.get j).slice 0 (P.m * P.m)⟩]

theorem sentLog_set (st : SignState) (stree : Arr UInt8) (hShake : KeccakState) (i : Nat)
    (A B : Arr UInt16) :
    sentLog P ⟨stree, st.Atilde.set i A, st.Btilde.set i B, hShake⟩ (i + 1)
      = sentLog P st i ++ [⟨A.slice 0 (P.m * P.m)⟩, ⟨B.slice 0 (P.m * P.m)⟩] :=
  List.tail_eq_of_cons_eq (commitLog_set Arr.empty st stree hShake i A B)

theorem sentLog_getD (st : SignState) {t i x : Nat} (hi : i < t) (hx : x < 2) (d : Arr UInt16) :
    (sentLog P st t).getD (2 * i + x) d
      = [⟨(st.Atilde.get i).slice 0 (P.m * P.m)⟩, ⟨(st.Btilde.get i).slice 0 (P.m * P.m)⟩].getD
          x d := by
  rw [← commitLog_getD Arr.empty st hi hx d, Nat.add_comm 1, commitLog, List.getD_cons_succ]
  rfl

/-- The device before commitment `i`, beside `crypto_sign` before commitment `i`. -/
structure SmallCommitStep (P : Params) (i : Nat) (st : SignState) (s : StreamSignState) (e : Echo) :
    Prop where
  tree : s.stree = st.stree
  hash : s.hShake = st.hShake
  log : e.sent = sentLog P st i
  reads : e.reads = 0
  chunks : e.chunks = []

section

variable [hprime : Fact P.p.Prime]

theorem smallCommit_step (hP : P.Square) {bsBuf : Nat → Arr UInt8} {sk alpha : List UInt8}
    {G0 : Arr UInt16} {i : Nat} {st st' : SignState} {s : StreamSignState} {e : Echo}
    (hzero : 8 ≤ P.gfqBits ∨ ∀ i j, (bsBuf i).get j = 0) (hH : i < 2 ^ P.seedTreeHeight)
    (hR : SmallCommitStep P i st s e)
    (h : (signCommit P SHAKE256 bsBuf G0 alpha i st : Run Fault _).Returns st') :
    ∃ s' e', Session.Ends (streamSignCommit (echoHal replayHost sk) P SHAKE256 false G0 alpha i s)
        e s' e' ∧
      SmallCommitStep P (i + 1) st' s' e' := by
  rw [signCommit, Run.returns_bind] at h
  obtain ⟨⟨stree, A, B, G⟩, hloop, hst'⟩ := h
  rw [Run.returns_pure] at hst'
  subst hst'
  obtain ⟨rfl, -, hC⟩ := commitLoop_returns hP hH hloop
  have hpack := packCommitment_same hP (bsBuf i) (hzero.imp_right fun hz => hz i)
    hC.systematic fun idx _ => rfl
  rw [← hR.tree] at hloop
  refine ⟨_, _, (ends_run (streamCommit_iff.mpr hloop)).bind ((ends_putchar 0).bind
      ((ends_writeStream _ _).bind ((ends_writeStream _ _).bind
        ((Session.ends_pure _ _).bind (ends_getchar.bind (Session.ends_pure _ _)))))),
    rfl, ?hash, ?log, hR.reads, hR.chunks⟩
  case hash => rw [hpack, hR.hash]
  case log =>
    rw [sentLog_set, ← hR.log]
    exact List.append_assoc _ _ _

end

/-- A commitment of the device ends only where that of `crypto_sign` does. -/
theorem smallCommit_back {bsBuf : Nat → Arr UInt8} {sk alpha : List UInt8} {G0 : Arr UInt16}
    {i : Nat} {st : SignState} {s s' : StreamSignState} {e e' : Echo}
    (hR : SmallCommitStep P i st s e)
    (h : Session.Ends (streamSignCommit (echoHal replayHost sk) P SHAKE256 false G0 alpha i s)
      e s' e') :
    ∃ st', (signCommit P SHAKE256 bsBuf G0 alpha i st : Run Fault _).Returns st' := by
  rw [streamSignCommit] at h
  obtain ⟨r, e₁, hr, -⟩ := Session.ends_bind.mp h
  have hloop := streamCommit_iff.mp (Session.returns_of_ends_lift hr)
  rw [hR.tree] at hloop
  rw [signCommit]
  exact ⟨_, Run.returns_bind.mpr ⟨r, hloop, Run.returns_pure.mpr rfl⟩⟩

/-! ## The responses -/

/-- The device before response `i`. -/
structure SmallResponseStep (P : Params) (K : KeyMatrices) (st : SignState) (h : Arr UInt8) (i : Nat)
    (sm : Arr UInt8) (e : Echo) : Prop where
  zero : ∀ j, sm.get j = 0
  log : e.sent = sentLog P st P.t
  reads : e.reads = 2 * i
  lines : e.chunks.map (fun c => c.flatMap hex2)
    = ((List.range i).map (responseChunk P K st h)).map chunkLine

theorem smallResponse_step (hP : P.Square) [hprime : Fact P.p.Prime] {K : KeyMatrices}
    {st : SignState} {h sm : Arr UInt8} {sk : List UInt8} {i : Nat} {e : Echo} (hi : i < P.t)
    (hR : SmallResponseStep P K st h i sm e) :
    ∃ sm' e', Session.Ends (streamResponse (echoHal replayHost sk) P K h i sm) e sm' e' ∧
      SmallResponseStep P K st h (i + 1) sm' e' := by
  have hnn : P.m * P.m = P.n * P.n := by rw [hP.m_eq]
  have hA : SameCells (P.n * P.n) (replayHost e.sent e.reads) (st.Atilde.get i) := by
    intro idx hidx
    rw [replayHost, hR.log, hR.reads, ← Nat.add_zero (2 * i), sentLog_getD st hi (by omega), hnn]
    exact sameCells_slice _ _ idx hidx
  have hB : SameCells (P.n * P.n) (replayHost e.sent (e.reads + 1)) (st.Btilde.get i) := by
    intro idx hidx
    rw [replayHost, hR.log, hR.reads, sentLog_getD st hi (by omega), hnn]
    exact sameCells_slice _ _ idx hidx
  obtain ⟨sm', hends, hzero⟩ := streamResponse_ends hP (K := K) hA hB hR.zero
  refine ⟨sm', _, hends, hzero, hR.log, ?reads, ?lines⟩
  case reads =>
    change e.reads + 1 + 1 = _
    rw [hR.reads]
    omega
  case lines =>
    rw [List.map_append, hR.lines, List.range_succ, List.map_append, List.map_append,
      List.map_singleton, List.map_singleton, List.map_singleton, chunkLine_eq]

/-! ## The signed message -/

/-- The lines of the device are the signed message in chunks. -/
theorem smallRespond_ends (hP : P.Valid) (sk : List UInt8) {K : KeyMatrices}
    {alpha digest msg : List UInt8} {st : SignState} {h sm : Arr UInt8} {smlen : Nat} {e : Echo}
    (hcount : (excluded P h).length = P.w)
    (hR : SmallResponseStep P K st h 0
      (Arr.replicate (responseBytes P + dataLength P + msg.length) 0) e)
    (hr : (signRespond P SHAKE256 K alpha st digest h (Arr.replicate (P.sigBytes + msg.length) 0)
      msg).Returns (sm, smlen)) :
    ∃ e', Session.Ends (streamRespond (echoHal replayHost sk) P SHAKE256 K alpha st.stree digest h
        msg) e smlen e' ∧
      ChunkLines P msg (sm.slice 0 smlen) (e'.chunks.map fun c => c.flatMap hex2) := by
  have : Fact P.p.Prime := ⟨hP.prime⟩
  obtain ⟨sm', e', hends, hR'⟩ := Session.forUpM_ends
    (g := streamResponse (echoHal replayHost sk) P K h) (SmallResponseStep P K st h)
    (Nat.zero_le P.t) (fun i sm e _ hi hR => smallResponse_step hP.toSquare hi hR) hR
  obtain ⟨last, hlast, hlen, hslice⟩ := streamRespond_last hP hcount hends hR'.zero hr
  refine ⟨_, hlast, (List.range P.t).map (responseChunk P K st h), last, ?_, ?_, ?_, hlen⟩
  · rw [List.map_append, hR'.lines, List.map_append, List.map_singleton, List.map_singleton,
      chunkLine_eq]
  · rw [hslice, allBlocks, List.flatMap_assoc]
    rfl
  · intro A hA
    obtain ⟨i, -, rfl⟩ := List.mem_map.mp hA
    exact (length_responseChunk hP.toSquare K st h i).1

/-- The first state of the commitments. -/
def smallStart (P : Params) (SHAKE256 : Shake) (delta : List UInt8) : StreamSignState :=
  ⟨signTree P SHAKE256 delta, Arr.empty, shake256Init⟩

theorem smallCommitments_ends (hP : P.Valid) (sk : List UInt8) {bsBuf : Nat → Arr UInt8}
    {delta alpha : List UInt8} {G0 : Arr UInt16} {st : SignState}
    (hbs : 8 ≤ P.gfqBits ∨ ∀ i j, (bsBuf i).get j = 0)
    (h : (signCommitments P SHAKE256 bsBuf delta G0 : Run Fault _).Returns (alpha, st)) :
    alpha = signSalt P SHAKE256 delta ∧ ∃ s e,
      Session.Ends (forUpM 0 P.t
        (streamSignCommit (echoHal replayHost sk) P SHAKE256 false G0 (signSalt P SHAKE256 delta))
        (smallStart P SHAKE256 delta)) Echo.start s e ∧
      SmallCommitStep P P.t st s e := by
  have : Fact P.p.Prime := ⟨hP.prime⟩
  have htH : P.t ≤ 2 ^ P.seedTreeHeight := hP.height ▸ Nat.le_pow_clog (by decide) P.t
  rw [signCommitments, Run.returns_bind] at h
  obtain ⟨st', hloop, hst⟩ := h
  obtain ⟨rfl, rfl⟩ := Prod.mk.inj (Run.returns_pure.mp hst)
  exact ⟨rfl, Session.forUpM_simulation (fun i st s e => SmallCommitStep P i st s e)
    (Nat.zero_le P.t)
    (fun i st s e st' _ hi hR hstep => smallCommit_step hP.toSquare hbs (by omega) hR hstep)
    ⟨rfl, rfl, rfl, rfl, rfl⟩ hloop⟩

theorem smallCommitments_back (hP : P.Valid) (bsBuf : Nat → Arr UInt8) {delta sk : List UInt8}
    {G0 : Arr UInt16} {s : StreamSignState} {e : Echo}
    (hbs : 8 ≤ P.gfqBits ∨ ∀ i j, (bsBuf i).get j = 0)
    (h : Session.Ends (forUpM 0 P.t
      (streamSignCommit (echoHal replayHost sk) P SHAKE256 false G0 (signSalt P SHAKE256 delta))
      (smallStart P SHAKE256 delta)) Echo.start s e) :
    ∃ r, (signCommitments P SHAKE256 bsBuf delta G0 : Run Fault _).Returns r := by
  have : Fact P.p.Prime := ⟨hP.prime⟩
  have htH : P.t ≤ 2 ^ P.seedTreeHeight := hP.height ▸ Nat.le_pow_clog (by decide) P.t
  obtain ⟨st, hst⟩ := Session.forUpM_converse
    (f := signCommit P SHAKE256 bsBuf G0 (signSalt P SHAKE256 delta))
    (fun i st s e => SmallCommitStep P i st s e) (Nat.zero_le P.t)
    (fun i st s e st' _ hi hR hstep => smallCommit_step hP.toSquare hbs (by omega) hR hstep)
    (fun i st s e s' e' _ _ hR hends => smallCommit_back hR hends)
    (s := ⟨signTree P SHAKE256 delta, Arr.empty, Arr.empty, shake256Init⟩)
    ⟨rfl, rfl, rfl, rfl, rfl⟩ h
  rw [signCommitments]
  exact ⟨_, Run.returns_bind.mpr ⟨st, hst, Run.returns_pure.mpr rfl⟩⟩

/-- Before the commitments the device only reads the secret key. -/
theorem ends_readKey {sk : List UInt8} (hsk : sk.length = P.skBytes) :
    Session.Ends ((echoHal replayHost sk).readStreamStr P.skBytes) Echo.start sk Echo.start := by
  have h : Session.Ends ((echoHal replayHost sk).readStreamStr P.skBytes) Echo.start
      (sk.take P.skBytes) Echo.start := ends_readStreamStr P.skBytes
  rwa [List.take_of_length_le (by omega)] at h

/-- `crypto_sign` ends with a signed message: so do device and host. -/
theorem small_signed (hP : P.Valid) {bsBuf : Nat → Arr UInt8} {delta msg sk : List UInt8}
    (hsk : sk.length = P.skBytes)
    (hbs : 8 ≤ P.gfqBits ∨ ∀ i j, (bsBuf i).get j = 0) {sm : Arr UInt8} {smlen : Nat}
    (h : (cryptoSign P SHAKE256 bsBuf delta (Arr.replicate (P.sigBytes + msg.length) 0) msg
      sk).Returns (sm, smlen)) :
    ∃ e, Session.Ends (cryptoSignStreaming (echoHal replayHost sk) P SHAKE256 false delta msg)
        Echo.start smlen e ∧
      ChunkLines P msg (sm.slice 0 smlen) (e.chunks.map fun c => c.flatMap hex2) := by
  rw [cryptoSign] at h
  simp only [Run.returns_bind] at h
  obtain ⟨K, hK, ⟨alpha, st⟩, hst, ⟨ret, ch⟩, hch, h⟩ := h
  obtain ⟨rfl, s, e, hends, hR⟩ := smallCommitments_ends hP sk hbs hst
  have hchal := parseHash_returns (by have := hP.two_le_s; omega) hch
  have hR0 : SmallResponseStep P K st ch 0
      (Arr.replicate (responseBytes P + dataLength P + msg.length) 0) e :=
    ⟨fun j => Arr.get_replicate _ j, hR.log, hR.reads, by rw [hR.chunks]; rfl⟩
  obtain ⟨e', hends', hlines⟩ := smallRespond_ends hP sk hchal.weight hR0 h
  refine ⟨e', ?_, hlines⟩
  rw [cryptoSignStreaming]
  apply (ends_putchar 0).bind
  apply (ends_readKey hsk).bind
  apply ends_getchar.bind
  apply (ends_run hK).bind
  simp only [Bool.false_eq_true, if_false]
  apply hends.bind
  rw [hR.hash, hR.tree]
  exact (ends_run hch).bind hends'

/-- The device ends only where `crypto_sign` does. -/
theorem small_ends (hP : P.Valid) (bsBuf : Nat → Arr UInt8) {delta msg sk : List UInt8}
    (hsk : sk.length = P.skBytes) (hbs : 8 ≤ P.gfqBits ∨ ∀ i j, (bsBuf i).get j = 0) {smlen : Nat}
    {e : Echo}
    (h : Session.Ends (cryptoSignStreaming (echoHal replayHost sk) P SHAKE256 false delta msg)
      Echo.start smlen e) :
    ∃ r, (cryptoSign P SHAKE256 bsBuf delta (Arr.replicate (P.sigBytes + msg.length) 0) msg
      sk).Returns r := by
  have htH : P.t ≤ 2 ^ P.seedTreeHeight := hP.height ▸ Nat.le_pow_clog (by decide) P.t
  have ht1 : 1 ≤ P.t := hP.one_le_w.trans hP.w_le
  rw [cryptoSignStreaming] at h
  have h := ((h.rest (ends_putchar 0)).rest (ends_readKey hsk)).rest ends_getchar
  obtain ⟨K, e₀, hrun, h⟩ := Session.ends_bind.mp h
  have hK := Session.returns_of_ends_lift hrun
  obtain ⟨-, rfl⟩ := hrun.unique (ends_run hK)
  simp only [Bool.false_eq_true, if_false] at h
  obtain ⟨s, e₁, hloop, h⟩ := Session.ends_bind.mp h
  obtain ⟨⟨alpha, st⟩, hst⟩ := smallCommitments_back hP bsBuf hbs hloop
  obtain ⟨rfl, s', e₁', hloop', hR⟩ := smallCommitments_ends hP sk hbs hst
  obtain ⟨rfl, rfl⟩ := hloop'.unique hloop
  obtain ⟨⟨ret, ch⟩, e₂, hparse, -⟩ := Session.ends_bind.mp h
  have hch := Session.returns_of_ends_lift hparse
  rw [hR.hash] at hch
  have hcount := (parseHash_returns (by have := hP.two_le_s; omega) hch).weight
  -- the rest of `crypto_sign` cannot fail
  obtain ⟨r, hr⟩ := @exists_signRespond P SHAKE256 hP ch hcount K (signSalt P SHAKE256 delta) st
    (shake256Squeeze SHAKE256 P.digestBytes (shake256Finalize (shake256Absorb st.hShake msg))).1
    (Arr.replicate (P.sigBytes + msg.length) 0) msg
  rw [cryptoSign]
  simp only [Run.returns_bind]
  exact ⟨r, K, hK, (_, st), hst, (ret, ch), hch, hr⟩

/-- In a clean `bs_buf`, streaming sign and the assembly on the host equal `crypto_sign`
    unless the last chunk is a single byte. -/
theorem small_sign_clean_iff (hP : P.Valid) {bsBuf : Nat → Arr UInt8} {delta msg sk : List UInt8}
    (hsk : sk.length = P.skBytes) (hbs : 8 ≤ P.gfqBits ∨ ∀ i j, (bsBuf i).get j = 0) :
    SmallSignRefines P SHAKE256 bsBuf delta msg sk ↔
      ((∃ r, (cryptoSign P SHAKE256 bsBuf delta (Arr.replicate (P.sigBytes + msg.length) 0) msg
        sk).Returns r) → dataLength P + msg.length ≠ 1) := by
  constructor
  · rintro h ⟨⟨sm, smlen⟩, hsm⟩
    obtain ⟨e, he, hlines⟩ := small_signed hP hsk hbs hsm
    obtain ⟨e', he', htext⟩ := h.signed sm smlen hsm
    obtain ⟨-, rfl⟩ := he'.unique he
    exact hlines.decodes_iff.mp htext
  · refine fun hone => ⟨fun sm smlen hsm => ?_, fun smlen e he => ?_⟩
    · obtain ⟨e, he, hlines⟩ := small_signed hP hsk hbs hsm
      exact ⟨e, he, hlines.decodes_iff.mpr (hone ⟨_, hsm⟩)⟩
    · obtain ⟨⟨sm, smlen'⟩, hsm⟩ := small_ends hP bsBuf hsk hbs he
      obtain ⟨e', he', -⟩ := small_signed hP hsk hbs hsm
      obtain ⟨rfl, -⟩ := he'.unique he
      exact ⟨sm, hsm⟩

-- with the seed 3 the first commitment is retried
example : SmallSignRefines tiny toyShake (fun _ => Arr.empty) [3] [1, 2, 3] tinySk :=
  (small_sign_clean_iff tiny_valid rfl (Or.inl (by decide))).mpr fun _ => by decide

end Meds.Ref
