/-
  Meds.Kat.DeviceSign

  Signing on the line, for builds without memory reduction.

  The commitment matrices that the host keeps are those of `crypto_sign`, and
  it sends back what it keeps.  The lines with the responses and the last line
  are the signed message of `crypto_sign` in a zero-filled buffer.  What they
  hold is known from the device and the echoing host; here they are followed
  on the line.
-/

import Meds.Kat.DeviceKeys
import Meds.Ref.StreamSignSmall

namespace Meds.Kat.Device

open Meds.Core Meds.Ref
open Meds.Sage (recvHex sendBytes recordSig answer answerSig signScript smReplies)

variable {P : Params} {SHAKE256 : Shake}

/-! ## The secret key -/

theorem flatMap_recv (l : List UInt8) :
    (List.range' 0 (l.length - 0)).flatMap (fun i => [Act.recv (l.getD i default)]) = l.map .recv := by
  rw [Nat.sub_zero, ← List.range_eq_range', ← List.map_eq_flatMap]
  refine List.ext_getElem (by simp) fun i h1 h2 => ?_
  simp only [List.length_map] at h2
  simp [List.getElem?_eq_getElem h2]

/-- `read_stream_str` takes as many bytes as it asks for. -/
theorem speaks_readStreamStr (l : List UInt8) : (readStreamStr l.length).Speaks (l.map .recv) l := by
  have hloop := Dialog.speaks_forUpM (ε := Fault)
    (f := fun _ (A : List UInt8) => do
      let c ← Dialog.get
      pure (A ++ [c]))
    (fun i => l.take i) (fun i => [.recv (l.getD i default)]) (Nat.zero_le l.length)
    fun i _ hi => by
      have hnext : l.take (i + 1) = l.take i ++ [l.getD i default] := by
        rw [List.take_add_one, List.getD_eq_getElem?_getD, List.getElem?_eq_getElem hi]
        rfl
      rw [hnext]
      exact (Dialog.speaks_get _).bind_pure (Dialog.speaks_pure _)
  rwa [flatMap_recv, List.take_length] at hloop

/-! ## The commitments -/

/-- The matrices of the first `i` commitments are those that the host keeps. -/
def CommitsOf (P : Params) (st : SignState) (i : Nat) (d : Sage.TestCase) : Prop :=
  ∀ j, j < i → d.Atilde j = matrixBytes (st.Atilde.get j) (P.m * P.m) ∧
    d.Btilde j = matrixBytes (st.Btilde.get j) (P.m * P.m)

section

variable [hprime : Fact P.p.Prime]

/-- A commitment prints its matrices. -/
theorem speaks_commit (hP : P.Square) {bsBuf : Nat → Arr UInt8} {alpha : List UInt8}
    {G0 : Arr UInt16} {i : Nat} {st st' : SignState} {s : StreamSignState}
    (hzero : 8 ≤ P.gfqBits ∨ ∀ i j, (bsBuf i).get j = 0) (hH : i < 2 ^ P.seedTreeHeight)
    (htree : s.stree = st.stree) (hhash : s.hShake = st.hShake)
    (h : (signCommit P SHAKE256 bsBuf G0 alpha i st : Run Fault _).Returns st') {d : Sage.TestCase}
    (hA : d.Atilde i = matrixBytes (st'.Atilde.get i) (P.m * P.m))
    (hB : d.Btilde i = matrixBytes (st'.Btilde.get i) (P.m * P.m)) :
    ∃ s', (streamSignCommit serialHal P SHAKE256 false G0 alpha i s).Speaks
        (Network.dual (recordSig false d i)) s' ∧
      s'.stree = st'.stree ∧ s'.hShake = st'.hShake := by
  rw [signCommit, Run.returns_bind] at h
  obtain ⟨⟨stree, A, B, G⟩, hloop, hst'⟩ := h
  rw [Run.returns_pure] at hst'
  subst hst'
  simp only [Arr.get_set_self] at hA hB
  obtain ⟨rfl, -, hC⟩ := commitLoop_returns hP hH hloop
  -- a clean `bs_buf` is hashed as the buffer of calloc
  have hpack := packCommitment_same hP (bsBuf i) (hzero.imp_right fun hz => hz i)
    hC.systematic fun idx _ => rfl
  rw [← htree] at hloop
  -- a zero byte, both matrices as lines, and the host acknowledges
  have hscript : Network.dual (recordSig false d i)
      = [.send 0] ++ ((matrixLine A (P.m * P.m) ++ [newline]).map .send ++
          ((matrixLine B (P.m * P.m) ++ [newline]).map .send ++ [.recv one])) := by
    simp only [recordSig, Network.dual_append, dual_recvHex, hA, hB]
    rfl
  rw [hscript]
  refine ⟨_, (Dialog.speaks_lift (streamCommit_iff.mpr hloop)).bind_nil
    ((Dialog.speaks_put 0).bind ((speaks_writeStream A _).bind ((speaks_writeStream B _).bind
      ((Dialog.speaks_pure _).bind_nil ((Dialog.speaks_get one).bind_pure
        (Dialog.speaks_pure _)))))), rfl, ?_⟩
  rw [hpack, hhash]

/-- The commitments print the matrices of `crypto_sign`. -/
theorem speaks_commits (hP : P.Valid) {bsBuf : Nat → Arr UInt8} {alpha : List UInt8}
    {G0 : Arr UInt16} (hzero : 8 ≤ P.gfqBits ∨ ∀ i j, (bsBuf i).get j = 0) {st st' : SignState}
    {s : StreamSignState} (htree : s.stree = st.stree) (hhash : s.hShake = st.hShake)
    (h : (forUpM 0 P.t (signCommit P SHAKE256 bsBuf G0 alpha) st : Run Fault _).Returns st')
    {d : Sage.TestCase} (hd : CommitsOf P st' P.t d) :
    ∃ s', (forUpM 0 P.t (streamSignCommit serialHal P SHAKE256 false G0 alpha) s).Speaks
        ((List.range' 0 P.t).flatMap fun i => Network.dual (recordSig false d i)) s' ∧
      s'.stree = st'.stree ∧ s'.hShake = st'.hShake := by
  have htH : P.t ≤ 2 ^ P.seedTreeHeight := hP.height ▸ Nat.le_pow_clog (by decide) P.t
  -- the matrices of the first commitments stay where they are
  have key := Run.forUpM_invariant (fun i st' => ∀ d : Sage.TestCase, CommitsOf P st' i d →
      ∃ s', (forUpM 0 i (streamSignCommit serialHal P SHAKE256 false G0 alpha) s).Speaks
          ((List.range' 0 i).flatMap fun i => Network.dual (recordSig false d i)) s' ∧
        s'.stree = st'.stree ∧ s'.hShake = st'.hShake)
    (Nat.zero_le P.t) (fun i st₁ st₂ _ hi hI hstep d hd => ?_) (fun d _ => ?_) h
  · exact key d hd
  · have hold : CommitsOf P st₁ i d := fun j hj => by
      rw [signCommit, Run.returns_bind] at hstep
      obtain ⟨r, -, hst₂⟩ := hstep
      obtain rfl := Run.returns_pure.mp hst₂
      have := hd j (Nat.lt_succ_of_lt hj)
      simpa only [Arr.get_set_ne _ _ (Nat.ne_of_lt hj)] using this
    obtain ⟨s₁, hs₁, htree₁, hhash₁⟩ := hI d hold
    obtain ⟨hA, hB⟩ := hd i (Nat.lt_succ_self i)
    obtain ⟨s₂, hs₂, h₂⟩ := speaks_commit hP.toSquare hzero (by omega) htree₁ hhash₁ hstep hA hB
    refine ⟨s₂, ?_, h₂⟩
    rw [forUpM_succ (Nat.zero_le i), Sage.flatMap_range'_succ]
    exact hs₁.bind hs₂
  · rw [forUpM_self]
    exact ⟨s, Dialog.speaks_pure s, htree, hhash⟩

end

/-! ## The responses -/

/-- The host that sends back the pairs of commitment matrices. -/
def pairHost (st : SignState) (_ : List (Arr UInt16)) (k : Nat) : Arr UInt16 :=
  if k % 2 = 0 then st.Atilde.get (k / 2) else st.Btilde.get (k / 2)

theorem pairHost_even (st : SignState) (sent : List (Arr UInt16)) (i : Nat) :
    pairHost st sent (2 * i) = st.Atilde.get i := by
  rw [pairHost, if_pos (Nat.mul_mod_right 2 i), Nat.mul_div_cancel_left i Nat.two_pos]

theorem pairHost_odd (st : SignState) (sent : List (Arr UInt16)) (i : Nat) :
    pairHost st sent (2 * i + 1) = st.Btilde.get i := by
  rw [pairHost, if_neg (by omega), show (2 * i + 1) / 2 = i by omega]

/-- The line that goes with a chunk. -/
def lineBytes (A : List UInt8) : List UInt8 := if A = [] then [0] else A

theorem chunkLine_of_lineBytes {A B : List UInt8} (h : lineBytes A = lineBytes B) :
    chunkLine A = chunkLine B := by
  rw [chunkLine_eq, chunkLine_eq]
  exact congrArg (List.flatMap hex2) h

/-- A test case of the host has the commitments and the responses of a signature. -/
structure ResponsesOf (P : Params) (K : KeyMatrices) (st : SignState) (h : Arr UInt8)
    (d : Sage.TestCase) : Prop where
  commits : CommitsOf P st P.t d
  chunk : ∀ i, i < P.t → d.sm i = lineBytes (responseChunk P K st h i)

theorem dual_answerSig (d : Sage.TestCase) (i : Nat) :
    Network.dual (answerSig d i) = [.send 0] ++ ((d.Atilde i).map .recv ++ ((d.Btilde i).map .recv ++
      (((d.sm i).flatMap hex2 ++ [newline]).map .send ++ [.recv one]))) := by
  simp only [answerSig, Network.dual_append, dual_sendBytes, dual_recvHex]
  rfl

section

variable [hprime : Fact P.p.Prime]

/-- A pair comes back, and its response is printed.  The buffer is that of the
    echoing host. -/
theorem speaks_response (hP : P.Square) {K : KeyMatrices} {st : SignState} {h sm : Arr UInt8}
    {d : Sage.TestCase} (hd : ResponsesOf P K st h d) {i : Nat} (hi : i < P.t)
    (hzero : ∀ j, sm.get j = 0) (chunks : List (List UInt8)) :
    ∃ sm', Session.Ends (streamResponse (echoHal (pairHost st) []) P K h i sm) ⟨[], 2 * i, chunks⟩ sm'
        ⟨[], 2 * (i + 1), chunks ++ [lineBytes (responseChunk P K st h i)]⟩ ∧
      (∀ j, sm'.get j = 0) ∧
      (streamResponse serialHal P K h i sm).Speaks (Network.dual (answerSig d i)) sm' := by
  have hA : SameCells (P.n * P.n) (pairHost st [] (2 * i)) (st.Atilde.get i) := by
    rw [pairHost_even]
    exact fun _ _ => rfl
  have hB : SameCells (P.n * P.n) (pairHost st [] (2 * i + 1)) (st.Btilde.get i) := by
    rw [pairHost_odd]
    exact fun _ _ => rfl
  obtain ⟨sm', hends, hzero'⟩ : ∃ sm',
      Session.Ends (streamResponse (echoHal (pairHost st) []) P K h i sm) ⟨[], 2 * i, chunks⟩ sm'
        ⟨[], 2 * (i + 1), chunks ++ [lineBytes (responseChunk P K st h i)]⟩ ∧
      ∀ j, sm'.get j = 0 := streamResponse_ends hP hA hB hzero
  refine ⟨sm', hends, hzero', ?_⟩
  -- the same computation, on the matrices that the line carries
  obtain ⟨s, hs⟩ : ∃ s, s =
      (if h.get i > 0 then
        writeProduct P P.n (K.Binv.get (h.get i).toNat) ⟨(st.Btilde.get i).slice 0 (P.m * P.m)⟩
          (writeProduct P P.m ⟨(st.Atilde.get i).slice 0 (P.m * P.m)⟩ (K.Ainv.get (h.get i).toNat)
            (sm, bsInit (responseBytes P)))
      else (sm, bsInit (responseBytes P))) := ⟨_, rfl⟩
  have hecho : Session.Ends (streamResponse (echoHal (pairHost st) []) P K h i sm)
      ⟨[], 2 * i, chunks⟩ (s.1.blit 0 (List.replicate (responseBytes P) 0))
      ⟨[], 2 * (i + 1), chunks ++ [lineBytes (s.1.slice 0 s.2.bytePos)]⟩ := by
    unfold streamResponse
    refine (ends_putchar 0).bind ((ends_readStream _).bind ((ends_readStream _).bind ?_))
    simp only [pairHost_even, pairHost_odd, ← hs]
    exact (ends_writeStreamStr _ _).bind (ends_getchar.bind (Session.ends_pure _ _))
  obtain ⟨rfl, hsent⟩ := hends.unique hecho
  have hline : lineBytes (responseChunk P K st h i) = lineBytes (s.1.slice 0 s.2.bytePos) :=
    List.singleton_inj.mp (List.append_cancel_left (congrArg Echo.chunks hsent))
  obtain ⟨hA, hB⟩ := hd.commits i hi
  rw [dual_answerSig, hA, hB, hd.chunk i hi, lineBytes, ← chunkLine_eq, chunkLine_of_lineBytes hline]
  unfold streamResponse
  refine (Dialog.speaks_put 0).bind ((speaks_readStream _ _).bind ((speaks_readStream _ _).bind ?_))
  simp only [← hs]
  exact (speaks_chunkLine _).bind ((Dialog.speaks_get one).bind_pure (Dialog.speaks_pure _))

/-- The pairs come back, and the responses are printed. -/
theorem speaks_responses (hP : P.Square) {K : KeyMatrices} {st : SignState} {h sm : Arr UInt8}
    {d : Sage.TestCase} (hd : ResponsesOf P K st h d)
    (hzero : ∀ j, sm.get j = 0) :
    ∃ sm' e, Session.Ends (forUpM 0 P.t (streamResponse (echoHal (pairHost st) []) P K h) sm)
        Echo.start sm' e ∧
      (∀ j, sm'.get j = 0) ∧
      (forUpM 0 P.t (streamResponse serialHal P K h) sm).Speaks
        ((List.range' 0 P.t).flatMap fun i => Network.dual (answerSig d i)) sm' := by
  -- both loops together, from the first response to each
  obtain ⟨sm', hloop, ⟨chunks, hends⟩, hzero'⟩ := Dialog.speaks_forUpM_invariant
    (f := streamResponse serialHal P K h)
    (fun i sm₁ => (∃ chunks, Session.Ends
        (forUpM 0 i (streamResponse (echoHal (pairHost st) []) P K h) sm) Echo.start sm₁
        ⟨[], 2 * i, chunks⟩) ∧ ∀ j, sm₁.get j = 0)
    (fun i => Network.dual (answerSig d i)) (Nat.zero_le P.t)
    (fun i sm₁ _ hi hI => by
      obtain ⟨⟨chunks, hends⟩, hzero₁⟩ := hI
      obtain ⟨sm₂, hround, hzero₂, hspeaks⟩ := speaks_response hP hd hi hzero₁ chunks
      refine ⟨sm₂, hspeaks, ⟨chunks ++ [lineBytes (responseChunk P K st h i)], ?_⟩, hzero₂⟩
      rw [forUpM_succ (Nat.zero_le i)]
      exact hends.bind hround)
    ⟨⟨[], by rw [forUpM_self]; exact Session.ends_pure _ _⟩, hzero⟩
  exact ⟨sm', _, hends, hzero', hloop⟩

/-- Behind the responses the rest of the signed message is printed. -/
theorem speaks_respond (hP : P.Valid) {K : KeyMatrices} {alpha digest msg : List UInt8}
    {st : SignState} {h sm : Arr UInt8} {smlen : Nat} (hcount : (excluded P h).length = P.w)
    (hr : (signRespond P SHAKE256 K alpha st digest h (Arr.replicate (P.sigBytes + msg.length) 0)
      msg).Returns (sm, smlen)) {d : Sage.TestCase} (hd : ResponsesOf P K st h d) :
    ∃ last, last.length = dataLength P + msg.length ∧
      sm.slice 0 smlen = (allBlocks P K st h P.t).flatMap (packBytes P.gfqBits) ++ last ∧
      (d.sm P.t = lineBytes last →
        (streamRespond serialHal P SHAKE256 K alpha st.stree digest h msg).Speaks
          (((List.range' 0 P.t).flatMap fun i => Network.dual (answerSig d i)) ++
            ([.send 0] ++ (((d.sm P.t).flatMap hex2 ++ [newline]).map .send ++ [.recv one]))) smlen) := by
  have hzeros : ∀ j, (Arr.replicate (responseBytes P + dataLength P + msg.length) (0 : UInt8)).get j = 0 :=
    fun j => Arr.get_replicate _ j
  obtain ⟨sm', e, hends, hzero, hloop⟩ := speaks_responses hP.toSquare hd hzeros
  obtain ⟨last, hlast, hlen, hslice⟩ := streamRespond_last hP hcount hends hzero hr
  refine ⟨last, hlen, hslice, fun hline => ?_⟩
  have htH : P.t ≤ 2 ^ P.seedTreeHeight := hP.height ▸ Nat.le_pow_clog (by decide) P.t
  have hpath := streeToPath_returns P SHAKE256 (hP.one_le_w.trans hP.w_le) htH hP.one_le_w hcount
    (tHash P SHAKE256 alpha st.stree 0 0) sm' (responseBytes P) alpha
  obtain ⟨path, hpath⟩ : ∃ path, (streeToPath P SHAKE256 (tHash P SHAKE256 alpha st.stree 0 0) h sm'
    (responseBytes P) alpha).Returns path := ⟨_, hpath⟩
  obtain ⟨A, hA⟩ : ∃ A, A = (((path.path.blit (responseBytes P + dataLength P - P.digestBytes
      - P.stSaltBytes) digest).blit (responseBytes P + dataLength P - P.stSaltBytes) alpha).blit
        (responseBytes P + dataLength P) msg).slice (responseBytes P) (dataLength P + msg.length) :=
    ⟨_, rfl⟩
  -- the echoing host gets the same last chunk
  have hecho := hlast.rest hends |>.rest (ends_run hpath)
  simp only [← hA] at hecho
  obtain ⟨rfl, hsent⟩ := hecho.unique ((ends_putchar 0).bind ((ends_writeStreamStr _ _).bind
    (ends_getchar.bind (Session.ends_pure _ _))))
  have hchunk : lineBytes last = lineBytes A :=
    List.singleton_inj.mp (List.append_cancel_left (congrArg Echo.chunks hsent))
  rw [hline, lineBytes, ← chunkLine_eq, chunkLine_of_lineBytes hchunk]
  unfold streamRespond
  refine hloop.bind ((Dialog.speaks_lift hpath).bind_nil ?_)
  simp only [← hA]
  exact (Dialog.speaks_put 0).bind ((speaks_chunkLine A).bind
    ((Dialog.speaks_get one).bind_pure (Dialog.speaks_pure _)))

end

/-! ## The signed message -/

/-- What the host keeps of a signature. -/
def withSignature (d : Sage.TestCase) (Atilde Btilde sm : Nat → List UInt8) : Sage.TestCase :=
  { d with Atilde := Atilde, Btilde := Btilde, sm := sm }

/-- What the host makes of the chunks. -/
theorem smReplies_text {K : KeyMatrices} {st : SignState} {h : Arr UInt8} (hP : P.Square)
    {last : List UInt8} (hlast : last.length ≠ 1) {d : Sage.TestCase} (hd : ResponsesOf P K st h d)
    (hline : d.sm P.t = lineBytes last) :
    ((smReplies P.t d).filter fun x => 2 < x.length).flatten
      = ((allBlocks P K st h P.t).flatMap (packBytes P.gfqBits) ++ last).flatMap hex2 := by
  have hlines : smReplies P.t d
      = ((List.range P.t).map (responseChunk P K st h) ++ [last]).map chunkLine := by
    rw [smReplies, hline, List.map_append, List.map_map, List.map_singleton, chunkLine_eq,
      List.range_eq_range']
    refine congrArg (· ++ _) (List.map_congr_left fun i hi => ?_)
    rw [hd.chunk i (by simpa using hi), Function.comp_apply, chunkLine_eq]
    rfl
  have hone : ∀ A ∈ (List.range P.t).map (responseChunk P K st h) ++ [last], A.length ≠ 1 := by
    intro A hA
    rcases List.mem_append.mp hA with hA | hA
    · obtain ⟨i, -, rfl⟩ := List.mem_map.mp hA
      exact (length_responseChunk hP K st h i).1
    · rw [List.mem_singleton.mp hA]
      exact hlast
  have htext := smText_chunkLine hone
  rw [smText, ← hlines] at htext
  rw [htext, List.flatten_append, List.flatten_singleton, allBlocks, List.flatMap_assoc]
  rfl

/-- Where `crypto_sign` returns, signing answers the script of the host, and the
    host has the signed message. -/
theorem speaks_sign (hP : P.Valid) (hdigest : 1 ≤ P.digestBytes) (hsalt : 1 ≤ P.stSaltBytes)
    {bsBuf : Nat → Arr UInt8} {delta msg sk : List UInt8} (hsk : sk.length = P.skBytes)
    (hbs : 8 ≤ P.gfqBits ∨ ∀ i j, (bsBuf i).get j = 0) {sm : Arr UInt8} {smlen : Nat}
    (h : (cryptoSign P SHAKE256 bsBuf delta (Arr.replicate (P.sigBytes + msg.length) 0) msg
      sk).Returns (sm, smlen)) (d₀ : Sage.TestCase) (hd₀ : d₀.sk = sk) :
    ∃ A B S, (cryptoSignStreaming serialHal P SHAKE256 false delta msg).Speaks
        (Network.dual (signScript false P.t (withSignature d₀ A B S))) smlen ∧
      ((smReplies P.t (withSignature d₀ A B S)).filter fun x => 2 < x.length).flatten
        = (sm.slice 0 smlen).flatMap hex2 := by
  have : Fact P.p.Prime := ⟨hP.prime⟩
  rw [cryptoSign] at h
  simp only [Run.returns_bind] at h
  obtain ⟨K, hK, ⟨alpha, st⟩, hst, ⟨ret, ch⟩, hch, h⟩ := h
  have hchal := parseHash_returns (by have := hP.two_le_s; omega) hch
  rw [signCommitments, Run.returns_bind] at hst
  obtain ⟨st', hcommit, hst⟩ := hst
  obtain ⟨rfl, rfl⟩ := Prod.mk.inj (Run.returns_pure.mp hst)
  -- the last chunk is what is left of the signed message
  obtain ⟨d, hd⟩ : ∃ d, d = withSignature d₀ (fun i => matrixBytes (st.Atilde.get i) (P.m * P.m))
      (fun i => matrixBytes (st.Btilde.get i) (P.m * P.m))
      (fun i => if i < P.t then lineBytes (responseChunk P K st ch i)
        else lineBytes ((sm.slice 0 smlen).drop
          ((allBlocks P K st ch P.t).flatMap (packBytes P.gfqBits)).length)) := ⟨_, rfl⟩
  have hresp : ResponsesOf P K st ch d := by
    rw [hd]
    exact ⟨fun _ _ => ⟨rfl, rfl⟩, fun i hi => if_pos hi⟩
  obtain ⟨s, hcommits, htree, hhash⟩ := speaks_commits hP hbs (s := smallStart P SHAKE256 delta) rfl rfl
    hcommit hresp.commits
  obtain ⟨last, hlen, hslice, hspeaks⟩ := speaks_respond hP hchal.weight h hresp
  have hline : d.sm P.t = lineBytes last := by
    have hdrop : (sm.slice 0 smlen).drop
        ((allBlocks P K st ch P.t).flatMap (packBytes P.gfqBits)).length = last := by
      rw [hslice, List.drop_left]
    rw [hd]
    exact (if_neg (Nat.lt_irrefl _)).trans (congrArg lineBytes hdrop)
  have hdata := le_dataLength hP
  refine ⟨_, _, _, ?_, (smReplies_text hP.toSquare (by omega) (hd ▸ hresp) (hd ▸ hline)).trans
    (by rw [hslice])⟩
  rw [← hd]
  have hsk' : d.sk = sk := by rw [hd]; exact hd₀
  have hscript : Network.dual (signScript false P.t d)
      = [.send 0] ++ (sk.map .recv ++ ([.recv one] ++
        (((List.range' 0 P.t).flatMap fun i => Network.dual (recordSig false d i)) ++
          (((List.range' 0 P.t).flatMap fun i => Network.dual (answerSig d i)) ++
            ([.send 0] ++ (((d.sm P.t).flatMap hex2 ++ [newline]).map .send ++ [.recv one])))))) := by
    simp only [signScript, Network.dual_append, dual_flatMap, dual_recvHex, dual_answer, hsk',
      List.append_assoc]
    rfl
  rw [hscript, cryptoSignStreaming]
  refine (Dialog.speaks_put 0).bind (Dialog.Speaks.bind (hsk ▸ speaks_readStreamStr sk)
    ((Dialog.speaks_get one).bind ((Dialog.speaks_lift hK).bind_nil ?_)))
  simp only [Bool.false_eq_true, if_false]
  refine Dialog.Speaks.bind hcommits ?_
  rw [hhash, htree]
  exact (Dialog.speaks_lift hch).bind_nil (hspeaks hline)

end Meds.Kat.Device
