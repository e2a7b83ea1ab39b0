/-
  Meds.Ref.StreamSign

  Signing on the memory-reduced device against meds_serial.c.

  G_0 and G_tilde share one buffer.  A round that passes the systematic test
  reads G_0 back; a round that fails it leaves the partly eliminated matrix,
  and `pi` is then applied to that.  So the chunks are those of the signed
  message of meds_serial.c as long as every round passes at its first attempt.
-/

import Meds.Ref.Echo

namespace Meds.Ref

open Meds.Core

variable {P : Params} {SHAKE256 : Shake} {ε : Type}

section

variable (P SHAKE256)

/-- The host answers with G_0 during the commitments, then with the commitment
    matrices in their order. -/
def signHost (sent : List (Arr UInt16)) (k : Nat) : Arr UInt16 :=
  if k < P.t then sent.headD Arr.empty else sent.getD (1 + (k - P.t)) Arr.empty

/-- The chunks without the one-byte `00`. -/
def dataChunks (chunks : List (List UInt8)) : List (List UInt8) := chunks.filter (· ≠ [0])

/-- The chunks of the device add up to the signed message that `crypto_sign`
    leaves in a zero-filled buffer. -/
def SignRefines (bsBuf : Nat → Arr UInt8) (delta msg sk : List UInt8) : Prop :=
  ∀ sm smlen, (cryptoSign P SHAKE256 bsBuf delta (Arr.replicate (P.sigBytes + msg.length) 0) msg
      sk).Returns (sm, smlen) →
    ∃ e, Session.Ends (cryptoSignStreaming (echoHal (signHost P) sk) P SHAKE256 true delta msg)
        Echo.start smlen e ∧
      (dataChunks e.chunks).flatten = sm.slice 0 smlen

/-- The salt. -/
def signSalt (delta : List UInt8) : List UInt8 :=
  (xof SHAKE256 delta [P.stSeedBytes, P.stSaltBytes]).getD 1 []

/-- The seed tree before the commitments. -/
def signTree (delta : List UInt8) : Arr UInt8 :=
  tHash P SHAKE256 (signSalt P SHAKE256 delta)
    ((Arr.replicate (P.stSeedBytes * P.seedTreeSize) 0).blit (P.stSeedBytes * seedTreeAddr 0 0)
      ((xof SHAKE256 delta [P.stSeedBytes, P.stSaltBytes]).getD 0 [])) 0 0

/-- Every commitment passes the systematic test at the first attempt. -/
def SignFirstTry (delta sk : List UInt8) : Prop :=
  ∀ K, (loadSecretKey P SHAKE256 sk).Returns K → ∀ i, i < P.t →
    ∃ r, (commitAttempt P SHAKE256 (K.G.get 0) (signSalt P SHAKE256 delta) i
      (signTree P SHAKE256 delta) : Run Fault _).Returns (.inr r)

end

/-! ## The commitments -/

section

variable [hprime : Fact P.p.Prime]

/-- A round that passes computes the same matrices, though in place. -/
theorem streamCommitAttempt_returns (hP : P.Square) (Gbuf : Arr UInt16)
    {G0 Gtilde A B G : Arr UInt16}
    {alpha : List UInt8} {i : Nat} {stree stree' : Arr UInt8}
    (hG : SameCells (P.n * P.n * P.n) Gtilde G0)
    (h : (commitAttempt P SHAKE256 G0 alpha i stree : Run Fault _).Returns
      (.inr (stree', A, B, G))) :
    ∃ G', (streamCommitAttempt P SHAKE256 true Gbuf alpha i (stree, Gtilde)).Returns
        (.inr (stree', A, B, G')) ∧
      SameCells (P.n * P.n * P.n) G' G := by
  unfold commitAttempt at h
  simp only [Run.returns_bind] at h
  obtain ⟨A', hA, B', hB, h⟩ := h
  split at h
  case isFalse =>
    rw [Run.returns_pure] at h
    cases h
  rename_i hret
  rw [Run.returns_pure] at h
  cases h
  obtain ⟨hret', hsame⟩ := systCt_piInPlace hP A B hG hret
  refine ⟨_, ?_, hsame⟩
  unfold streamCommitAttempt
  simp only [Run.returns_bind, if_true]
  refine ⟨A, hA, B, hB, ?_⟩
  rw [if_pos hret', Run.returns_pure]

omit hprime in
/-- Whether the first attempt of a round passes depends on its leaf alone. -/
theorem commitAttempt_inr_congr {G0 : Arr UInt16} {alpha : List UInt8} {i : Nat}
    {stree T : Arr UInt8}
    (hleaf : seedAt P stree P.seedTreeHeight i = seedAt P T P.seedTreeHeight i)
    (h : ∃ r, (commitAttempt P SHAKE256 G0 alpha i T : Run ε _).Returns (.inr r)) :
    ∃ r, (commitAttempt P SHAKE256 G0 alpha i stree : Run ε _).Returns (.inr r) := by
  obtain ⟨r, hr⟩ := h
  obtain ⟨seed, seedA, seedB, A, B, hxof, hlen, hA, hB, hr⟩ := commitAttempt_returns.mp hr
  split at hr
  · rename_i hret
    exact ⟨_, commitAttempt_returns.mpr
      ⟨seed, seedA, seedB, A, B, by rw [hleaf]; exact hxof, hlen, hA, hB, by rw [if_pos hret]⟩⟩
  · cases hr

/-- The matrices sent by the commitments `0, …, i - 1`. -/
def commitLog (P : Params) (G0 : Arr UInt16) (st : SignState) (i : Nat) : List (Arr UInt16) :=
  ⟨G0.slice 0 (P.k * P.m * P.n)⟩ :: (List.range i).flatMap fun j =>
    [⟨(st.Atilde.get j).slice 0 (P.m * P.m)⟩, ⟨(st.Btilde.get j).slice 0 (P.m * P.m)⟩]

/-- The device before commitment `i`, beside `crypto_sign` before commitment `i`. -/
structure CommitStep (P : Params) (T : Arr UInt8) (G0 : Arr UInt16) (i : Nat) (st : SignState)
    (s : StreamSignState) (e : Echo) : Prop where
  tree : s.stree = st.stree
  hash : s.hShake = st.hShake
  buffer : SameCells (P.n * P.n * P.n) s.Gtilde G0
  leaf : ∀ j, i ≤ j → j < P.t → seedAt P st.stree P.seedTreeHeight j = seedAt P T P.seedTreeHeight j
  log : e.sent = commitLog P G0 st i
  reads : e.reads = i
  chunks : e.chunks = []

omit hprime in
theorem commitLog_set (G0 : Arr UInt16) (st : SignState) (stree : Arr UInt8) (hShake : KeccakState)
    (i : Nat) (A B : Arr UInt16) :
    commitLog P G0 ⟨stree, st.Atilde.set i A, st.Btilde.set i B, hShake⟩ (i + 1)
      = commitLog P G0 st i ++ [⟨A.slice 0 (P.m * P.m)⟩, ⟨B.slice 0 (P.m * P.m)⟩] := by
  unfold commitLog
  rw [List.range_succ, List.flatMap_append, List.cons_append]
  refine congrArg _ (congrArg₂ _ (List.flatMap_congr fun j hj => ?_) ?_)
  · have hji : j ≠ i := (List.mem_range.mp hj).ne
    simp only [Arr.get_set_ne _ _ hji]
  · simp

/-- `bs_buf` gets the same bytes from either buffer. -/
theorem packCommitment_same (hP : P.Square) {G0 A B G' : Arr UInt16} (bsBuf : Arr UInt8)
    (hzero : 8 ≤ P.gfqBits ∨ ∀ i, bsBuf.get i = 0)
    (hret : (pmodMatSystCt P (pi P A B G0) P.k (P.m * P.n)).1 = 0)
    (hsame : SameCells (P.n * P.n * P.n) G' (commitG P G0 A B)) :
    packCommitment P Arr.empty G' = packCommitment P bsBuf (commitG P G0 A B) := by
  obtain ⟨-, -, hred⟩ := commitG_spec hP hret
  have hred' : Reduced P G' (P.n * P.n * P.n) := fun idx hidx => by
    rw [hsame idx hidx]
    exact hred idx hidx
  rw [packCommitment_reduced hP hred' (Or.inr fun i => Arr.get_empty i),
    packCommitment_reduced hP hred hzero, commitBytes_congr hP hsame]

theorem signCommit_step (hP : P.Square) {bsBuf : Nat → Arr UInt8} {sk alpha : List UInt8}
    {T : Arr UInt8} {G0 Gbuf : Arr UInt16} {i : Nat} {st st' : SignState} {s : StreamSignState}
    {e : Echo} (hzero : 8 ≤ P.gfqBits ∨ ∀ i j, (bsBuf i).get j = 0)
    (hi : i < P.t) (hH : i < 2 ^ P.seedTreeHeight) (htH : P.t ≤ 2 ^ P.seedTreeHeight)
    (hfirst : ∃ r, (commitAttempt P SHAKE256 G0 alpha i T : Run Fault _).Returns (.inr r))
    (hR : CommitStep P T G0 i st s e)
    (h : (signCommit P SHAKE256 bsBuf G0 alpha i st : Run Fault _).Returns st') :
    ∃ s' e', Session.Ends (streamSignCommit (echoHal (signHost P) sk) P SHAKE256 true Gbuf alpha i s)
        e s' e' ∧
      CommitStep P T G0 (i + 1) st' s' e' := by
  -- the first attempt succeeds, so G_0 is not needed again once it is overwritten
  obtain ⟨⟨stree, A, B, G⟩, hr⟩ := commitAttempt_inr_congr (hR.leaf i (Nat.le_refl i) hi) hfirst
  have hloop := Run.returns_loop_break hr
  unfold signCommit at h
  rw [Run.returns_bind] at h
  obtain ⟨r, hloop', hst'⟩ := h
  obtain rfl := hloop'.unique hloop
  rw [Run.returns_pure] at hst'
  obtain ⟨rfl, hframe, hC⟩ := commitLoop_returns hP hH hloop
  obtain ⟨G', hr', hsame⟩ := streamCommitAttempt_returns hP Gbuf hR.buffer hr
  have hpack := packCommitment_same hP (bsBuf i) (hzero.imp_right fun hz => hz i)
    hC.systematic hsame
  have hlen := genLen_eq hP
  rw [← hR.tree] at hr'
  subst hst'
  refine ⟨⟨stree, ⟨(signHost P (e.sent ++ [⟨A.slice 0 (P.m * P.m)⟩] ++ [⟨B.slice 0 (P.m * P.m)⟩])
      e.reads).slice 0 (P.k * P.m * P.n)⟩,
      shake256Absorb s.hShake (packCommitment P Arr.empty G')⟩,
    ⟨e.sent ++ [⟨A.slice 0 (P.m * P.m)⟩] ++ [⟨B.slice 0 (P.m * P.m)⟩], e.reads + 1, e.chunks⟩,
    ?ends, ⟨rfl, ?hash, ?buffer, ?leaf, ?log, ?reads, hR.chunks⟩⟩
  case ends =>
    unfold streamSignCommit
    simp only [if_true]
    exact (ends_run (Run.returns_loop_break hr')).bind ((ends_putchar 0).bind
      ((ends_writeStream _ _).bind ((ends_writeStream _ _).bind ((ends_readStream _).bind
        (ends_getchar.bind (Session.ends_pure _ _))))))
  case hash => rw [hpack, hR.hash]
  case buffer =>
    -- the answer of the host is G_0 again
    intro idx hidx
    rw [← hlen] at hidx
    rw [sameCells_slice _ _ idx hidx, signHost, if_pos (by rw [hR.reads]; exact hi), hR.log]
    exact sameCells_slice G0 _ idx hidx
  case leaf =>
    intro j hj1 hj2
    rw [hframe _ j (by omega) (by omega)]
    exact hR.leaf j (by omega) hj2
  case log =>
    rw [commitLog_set, hR.log, List.append_assoc]
    rfl
  case reads => rw [hR.reads]

end

/-! ## The responses -/

theorem commitLog_getD (G0 : Arr UInt16) (st : SignState) {t i x : Nat} (hi : i < t) (hx : x < 2)
    (d : Arr UInt16) : (commitLog P G0 st t).getD (1 + (2 * i + x)) d
      = [⟨(st.Atilde.get i).slice 0 (P.m * P.m)⟩, ⟨(st.Btilde.get i).slice 0 (P.m * P.m)⟩].getD x d := by
  unfold commitLog
  rw [Nat.add_comm 1, List.getD_cons_succ, List.range_eq_range',
    getD_flatMap_range' (c := 2) (fun _ _ _ => rfl) hi hx, Nat.zero_add]

/-- A product depends on the cells of its factors. -/
theorem product_congr (hP : P.Square) {A A' B B' : Arr UInt16} (hA : SameCells (P.n * P.n) A A')
    (hB : SameCells (P.n * P.n) B B') :
    SameCells (P.n * P.n) (product P P.n A B) (product P P.n A' B') := by
  have hpos := hP.prime.pos
  have h := pmodMatMul_spec P.n P.n P.n P.n P.n (P := P) (A := A) (B := B) (C := Arr.empty) hpos
    hP.p_le_16
  have h' := pmodMatMul_spec P.n P.n P.n P.n P.n (P := P) (A := A') (B := B') (C := Arr.empty) hpos
    hP.p_le_16
  intro idx hidx
  obtain ⟨r, c, hr, hc, rfl⟩ := exists_flat_nat hidx
  refine UInt16.toNat_inj.mp ((h.entry r c hr hc).trans (Eq.trans ?_ (h'.entry r c hr hc).symm))
  refine congrArg (· % P.p) (Finset.sum_congr rfl fun i hi => ?_)
  have hi := Finset.mem_range.mp hi
  rw [pmodMatEntry, pmodMatEntry, pmodMatEntry, pmodMatEntry, hA _ (flat_lt hr hi),
    hB _ (flat_lt hi hc)]

theorem entries_congr {M N : Arr UInt16} {len : Nat} (h : SameCells len M N) :
    entries M 0 0 len = entries N 0 0 len :=
  entries_eq_of_get fun j _ hj => by
    rw [Nat.zero_add]
    exact h j hj

/-- A chunk of another length than one is not dropped. -/
theorem flatten_dataChunks (chunks : List (List UInt8)) {bytes : List UInt8}
    (h : bytes.length ≠ 1) :
    (dataChunks (chunks ++ [if bytes = [] then [0] else bytes])).flatten
      = (dataChunks chunks).flatten ++ bytes := by
  unfold dataChunks
  rw [List.filter_append, List.flatten_append]
  refine congrArg _ ?_
  by_cases hnil : bytes = []
  · simp [hnil]
  · have hkeep : bytes ≠ [0] := by
      rintro rfl
      exact h rfl
    simp [hnil, hkeep]

/-- A round with commitment matrices of the same cells writes the same blocks. -/
theorem streamBlocks_eq (hP : P.Square) (K : KeyMatrices) {st : SignState} (h : Arr UInt8) {i : Nat}
    {A B : Arr UInt16} (hA : SameCells (P.n * P.n) A (st.Atilde.get i))
    (hB : SameCells (P.n * P.n) B (st.Btilde.get i)) (s : Arr UInt8 × BitstreamT) :
    (if h.get i > 0 then
        writeProduct P P.n (K.Binv.get (h.get i).toNat) B
          (writeProduct P P.m A (K.Ainv.get (h.get i).toNat) s)
      else s) = (responseBlocks P K st h i).foldl (putBlock P.gfqBits) s := by
  have hmu := entries_congr (product_congr hP hA
    (fun idx _ => rfl : SameCells _ (K.Ainv.get (h.get i).toNat) (K.Ainv.get (h.get i).toNat)))
  have hnu := entries_congr (product_congr hP
    (fun idx _ => rfl : SameCells _ (K.Binv.get (h.get i).toNat) (K.Binv.get (h.get i).toNat)) hB)
  unfold product at hmu hnu
  unfold responseBlocks
  split
  · simp only [writeProduct, writeEntries_eq, hP.m_eq, List.foldl_cons, List.foldl_nil, hmu, hnu]
    rfl
  · rfl

/-- The device before response `i`. -/
structure ResponseStep (P : Params) (K : KeyMatrices) (st : SignState) (G0 : Arr UInt16)
    (h : Arr UInt8) (i : Nat) (sm : Arr UInt8) (e : Echo) : Prop where
  zero : ∀ j, sm.get j = 0
  log : e.sent = commitLog P G0 st P.t
  reads : e.reads = P.t + 2 * i
  data : (dataChunks e.chunks).flatten = (allBlocks P K st h i).flatMap (packBytes P.gfqBits)

theorem matBytes_pos (hP : P.Square) : 0 < matBytes P := by
  have h1 := hP.gfqBits_pos
  have h2 : 0 < P.n * P.n := Nat.mul_pos (by have := hP.two_le_n; omega) (by have := hP.two_le_n; omega)
  have := Nat.mul_pos h1 h2
  unfold matBytes byteLen
  omega

/-- The bytes of response `i`. -/
def responseChunk (P : Params) (K : KeyMatrices) (st : SignState) (h : Arr UInt8) (i : Nat) :
    List UInt8 :=
  (responseBlocks P K st h i).flatMap (packBytes P.gfqBits)

/-- A response has no bytes or two matrices. -/
theorem length_responseChunk (hP : P.Square) (K : KeyMatrices) (st : SignState) (h : Arr UInt8)
    (i : Nat) :
    (responseChunk P K st h i).length ≠ 1 ∧ (responseChunk P K st h i).length ≤ responseBytes P := by
  have hmat := matBytes_pos hP
  have hresp : responseBytes P = matBytes P + matBytes P := by
    rw [responseBytes, matABytes_eq hP, matBBytes_eq]
  rw [responseChunk, length_packBlocks, blocksLen_responseBlocks K st h i, hresp]
  split <;> omega

/-- A round that reads the commitment matrices back sends the response and
    clears the buffer. -/
theorem streamResponse_ends (hP : P.Square) [hprime : Fact P.p.Prime]
    {answer : List (Arr UInt16) → Nat → Arr UInt16} {K : KeyMatrices} {st : SignState}
    {h sm : Arr UInt8} {sk : List UInt8} {i : Nat} {e : Echo}
    (hA : SameCells (P.n * P.n) (answer e.sent e.reads) (st.Atilde.get i))
    (hB : SameCells (P.n * P.n) (answer e.sent (e.reads + 1)) (st.Btilde.get i))
    (hzero : ∀ j, sm.get j = 0) :
    ∃ sm', Session.Ends (streamResponse (echoHal answer sk) P K h i sm) e sm'
        ⟨e.sent, e.reads + 1 + 1, e.chunks
          ++ [if responseChunk P K st h i = [] then [0] else responseChunk P K st h i]⟩ ∧
      ∀ j, sm'.get j = 0 := by
  obtain ⟨A, hA'⟩ : ∃ A : Arr UInt16, A = ⟨(answer e.sent e.reads).slice 0 (P.m * P.m)⟩ := ⟨_, rfl⟩
  obtain ⟨B, hB'⟩ : ∃ B : Arr UInt16, B = ⟨(answer e.sent (e.reads + 1)).slice 0 (P.m * P.m)⟩ :=
    ⟨_, rfl⟩
  have hnn : P.m * P.m = P.n * P.n := by rw [hP.m_eq]
  have hsameA : SameCells (P.n * P.n) A (st.Atilde.get i) := fun idx hidx => by
    rw [hA', hnn, sameCells_slice _ _ idx hidx, hA idx hidx]
  have hsameB : SameCells (P.n * P.n) B (st.Btilde.get i) := fun idx hidx => by
    rw [hB', hnn, sameCells_slice _ _ idx hidx, hB idx hidx]
  -- the device packs the products that meds_serial.c packs
  have hblocks := streamBlocks_eq hP K h hsameA hsameB (sm, bsInit (responseBytes P))
  obtain ⟨bytes, hbytes⟩ : ∃ bytes, bytes = responseChunk P K st h i := ⟨_, rfl⟩
  have hone := (length_responseChunk hP K st h i).2
  have hbyteslen : bytes.length = blocksLen P.gfqBits (responseBlocks P K st h i) := by
    rw [hbytes, responseChunk, length_packBlocks]
  rw [← hbytes] at hone ⊢
  obtain ⟨hget, hbs⟩ := putBlocks_spec sm (responseBytes P) (o := 0) (w := P.gfqBits)
    (L := responseBlocks P K st h i) hP.gfqBits_pos
    (fun l hl => lt_of_mem_allBlocks hP K st h (i + 1) l (by
      rw [allBlocks_succ]
      exact List.mem_append_right _ hl))
    (by rwa [Nat.zero_add, ← hbyteslen]) (Or.inr fun j _ _ => hzero j)
  rw [cursor_zero] at hget hbs
  rw [Nat.zero_add, ← hbyteslen, cursor_zero] at hbs
  rw [← responseChunk, ← hbytes] at hget
  rw [bsInit] at hblocks
  obtain ⟨⟨buf, bs⟩, hs⟩ : ∃ s, s = (responseBlocks P K st h i).foldl (putBlock P.gfqBits)
    (sm, ⟨responseBytes P, 0, 0⟩) := ⟨_, rfl⟩
  rw [← hs] at hget hbs hblocks
  -- the buffer was zero, so the chunk is exactly the packed response
  have hchunk : buf.slice 0 bs.bytePos = bytes := by
    rw [show bs.bytePos = bytes.length from congrArg BitstreamT.bytePos hbs,
      Arr.slice_congr (N := sm.blit 0 bytes) (b := 0) fun j _ => hget _, Arr.slice_blit]
  refine ⟨buf.blit 0 (List.replicate (responseBytes P) 0), ?ends, ?zero⟩
  case ends =>
    unfold streamResponse
    refine (ends_putchar 0).bind ((ends_readStream _).bind ((ends_readStream _).bind ?_))
    simp only [bsInit, ← hA', ← hB', hblocks, hchunk]
    exact (ends_writeStreamStr _ _).bind (ends_getchar.bind (Session.ends_pure _ _))
  case zero =>
    intro j
    -- cleared, or never written
    by_cases hj : j < responseBytes P
    · rw [Arr.get_blit, if_pos (by simp only [List.length_replicate]; omega)]
      simp only [List.getD_eq_getElem?_getD, List.getElem?_replicate]
      split <;> rfl
    · rw [Arr.get_blit_of_ge _ _ (by simp only [List.length_replicate]; omega), hget,
        Arr.get_blit_of_ge _ _ (by omega), hzero]

theorem streamResponse_step (hP : P.Square) [hprime : Fact P.p.Prime] {K : KeyMatrices}
    {st : SignState} {G0 : Arr UInt16} {h sm : Arr UInt8} {sk : List UInt8} {i : Nat} {e : Echo}
    (hi : i < P.t) (hR : ResponseStep P K st G0 h i sm e) :
    ∃ sm' e', Session.Ends (streamResponse (echoHal (signHost P) sk) P K h i sm) e sm' e' ∧
      ResponseStep P K st G0 h (i + 1) sm' e' := by
  have hnn : P.m * P.m = P.n * P.n := by rw [hP.m_eq]
  have hA : SameCells (P.n * P.n) (signHost P e.sent e.reads) (st.Atilde.get i) := by
    intro idx hidx
    rw [signHost, if_neg (by rw [hR.reads]; omega), hR.log,
      show 1 + (e.reads - P.t) = 1 + (2 * i + 0) by rw [hR.reads]; omega,
      commitLog_getD G0 st hi (by omega), hnn]
    exact sameCells_slice _ _ idx hidx
  have hB : SameCells (P.n * P.n) (signHost P e.sent (e.reads + 1)) (st.Btilde.get i) := by
    intro idx hidx
    rw [signHost, if_neg (by rw [hR.reads]; omega), hR.log,
      show 1 + (e.reads + 1 - P.t) = 1 + (2 * i + 1) by rw [hR.reads]; omega,
      commitLog_getD G0 st hi (by omega), hnn]
    exact sameCells_slice _ _ idx hidx
  obtain ⟨sm', hends, hzero⟩ := streamResponse_ends hP (K := K) hA hB hR.zero
  refine ⟨sm', _, hends, hzero, hR.log, ?reads, ?data⟩
  case reads =>
    change e.reads + 1 + 1 = _
    rw [hR.reads]
    omega
  case data =>
    rw [flatten_dataChunks _ (length_responseChunk hP K st h i).1, hR.data, allBlocks_succ,
      List.flatMap_append, responseChunk]

/-! ## The last chunk -/

/-- Copying to the same place relative to two bases. -/
theorem get_blit_shift {M N : Arr UInt8} {a b j : Nat} (off : Nat) (vs : List UInt8)
    (h : M.get (a + j) = N.get (b + j)) :
    (M.blit (a + off) vs).get (a + j) = (N.blit (b + off) vs).get (b + j) := by
  rw [Arr.get_blit, Arr.get_blit]
  by_cases hj : off ≤ j ∧ j < off + vs.length
  · rw [if_pos (by omega), if_pos (by omega), Nat.add_sub_add_left, Nat.add_sub_add_left]
  · rw [if_neg (by omega), if_neg (by omega), h]

/-- The signed message is the responses and the last chunk. -/
theorem slice_signedMessage (b : Nat) (digest alpha m : List UInt8) (L d r : Nat) {munu : Nat}
    {bytes pb : List UInt8} {sm0 sm1 sm : Arr UInt8} (hlen : bytes.length = munu)
    (hsm0 : ∀ i, sm0.get i = 0) (hsm : ∀ i, sm.get i = 0)
    (hsm1 : ∀ i, sm1.get i = ((sm0.blit munu pb).blit 0 bytes).get i) :
    (((sm1.blit (munu + (L - d - r)) digest).blit (munu + (L - r)) alpha).blit (munu + L) m).slice 0
        (munu + (L + m.length))
      = bytes ++ ((((sm.blit b pb).blit (b + (L - d - r)) digest).blit (b + (L - r)) alpha).blit
          (b + L) m).slice b (L + m.length) := by
  rw [Arr.slice_add, Nat.zero_add]
  refine congrArg₂ _ ?_ (Arr.slice_congr fun j _ => ?_)
  · rw [Arr.slice_congr (N := sm0.blit 0 bytes) (b := 0) fun j hj => ?_, ← hlen, Arr.slice_blit]
    rw [Arr.get_blit_of_lt _ _ (by omega), Arr.get_blit_of_lt _ _ (by omega),
      Arr.get_blit_of_lt _ _ (by omega), hsm1, Arr.get_blit, if_pos (by omega), Arr.get_blit,
      if_pos (by omega)]
  · refine get_blit_shift _ _ (get_blit_shift _ _ (get_blit_shift _ _ ?_))
    rw [hsm1, Arr.get_blit_of_ge _ _ (by omega)]
    exact get_blit_shift 0 pb (by rw [hsm0, hsm])

/-- After the responses the device sends the rest of the signed message. -/
theorem streamRespond_last (hP : P.Valid) {answer : List (Arr UInt16) → Nat → Arr UInt16}
    {K : KeyMatrices} {alpha digest msg sk : List UInt8} {st : SignState} {h : Arr UInt8}
    {sm sm' : Arr UInt8} {smlen : Nat} {e e' : Echo} (hcount : (excluded P h).length = P.w)
    (hends : Session.Ends (forUpM 0 P.t (streamResponse (echoHal answer sk) P K h)
      (Arr.replicate (responseBytes P + dataLength P + msg.length) 0)) e sm' e')
    (hzero : ∀ j, sm'.get j = 0)
    (hr : (signRespond P SHAKE256 K alpha st digest h (Arr.replicate (P.sigBytes + msg.length) 0)
      msg).Returns (sm, smlen)) :
    ∃ last, Session.Ends (streamRespond (echoHal answer sk) P SHAKE256 K alpha st.stree digest h msg)
        e smlen { e' with chunks := e'.chunks ++ [if last = [] then [0] else last] } ∧
      last.length = dataLength P + msg.length ∧
      sm.slice 0 smlen = (allBlocks P K st h P.t).flatMap (packBytes P.gfqBits) ++ last := by
  have htH : P.t ≤ 2 ^ P.seedTreeHeight := hP.height ▸ Nat.le_pow_clog (by decide) P.t
  have ht1 : 1 ≤ P.t := hP.one_le_w.trans hP.w_le
  obtain ⟨rfl, sm1, hsm1, rfl⟩ := signRespond_blits hP
    (Or.inr fun i _ => Arr.get_replicate _ i) hcount hr
  have hpath := streeToPath_returns P SHAKE256 ht1 htH hP.one_le_w hcount
    (tHash P SHAKE256 alpha st.stree 0 0) sm' (responseBytes P) alpha
  have hsig := sigBytes_eq hP
  have hmunu : munuBytes P = P.w * responseBytes P := rfl
  have hL : dataLength P = P.sigBytes - munuBytes P := by rw [dataLength, hmunu]
  have hblen : ((allBlocks P K st h P.t).flatMap (packBytes P.gfqBits)).length = munuBytes P := by
    rw [length_packBlocks, blocksLen_all hP.toSquare K st hcount]
  obtain ⟨pb, hpb⟩ : ∃ pb, pb = pathBytes P (tHash P SHAKE256 alpha st.stree 0 0) (visited P h) :=
    ⟨_, rfl⟩
  rw [← hpb] at hpath hsm1
  -- offsets count from the end of the responses here, from the start of sm there
  have hslice := slice_signedMessage (responseBytes P) digest alpha msg (dataLength P) P.digestBytes
    P.stSaltBytes hblen (fun i => Arr.get_replicate _ i) hzero hsm1
  rw [show P.sigBytes - P.digestBytes - P.stSaltBytes
      = munuBytes P + (dataLength P - P.digestBytes - P.stSaltBytes) by omega,
    show P.sigBytes - P.stSaltBytes = munuBytes P + (dataLength P - P.stSaltBytes) by omega,
    show P.sigBytes = munuBytes P + dataLength P by omega, Nat.add_assoc, hslice]
  generalize hlast : ((((sm'.blit (responseBytes P) pb).blit (responseBytes P +
    (dataLength P - P.digestBytes - P.stSaltBytes)) digest).blit (responseBytes P +
      (dataLength P - P.stSaltBytes)) alpha).blit (responseBytes P + dataLength P) msg).slice
        (responseBytes P) (dataLength P + msg.length) = last
  refine ⟨last, ?_, by rw [← hlast, Arr.length_slice], rfl⟩
  unfold streamRespond
  refine hends.bind ((ends_run hpath).bind ?_)
  simp only
  rw [show responseBytes P + dataLength P - P.digestBytes - P.stSaltBytes
      = responseBytes P + (dataLength P - P.digestBytes - P.stSaltBytes) by omega,
    show responseBytes P + dataLength P - P.stSaltBytes
      = responseBytes P + (dataLength P - P.stSaltBytes) by omega, hlast,
    show munuBytes P + (dataLength P + msg.length) = P.sigBytes + msg.length by omega]
  exact (ends_putchar 0).bind ((ends_writeStreamStr _ _).bind
    (ends_getchar.bind (Session.ends_pure _ _)))

theorem le_dataLength (hP : P.Valid) : P.digestBytes + P.stSaltBytes ≤ dataLength P := by
  have hsig := sigBytes_eq hP
  have hmunu : munuBytes P = P.w * responseBytes P := rfl
  rw [dataLength, ← hmunu]
  omega

theorem streamRespond_ends (hP : P.Valid) (hd : 2 ≤ P.digestBytes + P.stSaltBytes)
    {K : KeyMatrices} {G0 : Arr UInt16} {alpha digest msg sk : List UInt8} {st : SignState}
    {h : Arr UInt8} {sm : Arr UInt8} {smlen : Nat} {e : Echo}
    (hcount : (excluded P h).length = P.w)
    (hR : ResponseStep P K st G0 h 0 (Arr.replicate (responseBytes P + dataLength P + msg.length) 0) e)
    (hr : (signRespond P SHAKE256 K alpha st digest h (Arr.replicate (P.sigBytes + msg.length) 0)
      msg).Returns (sm, smlen)) :
    ∃ e', Session.Ends (streamRespond (echoHal (signHost P) sk) P SHAKE256 K alpha st.stree digest h
        msg) e smlen e' ∧
      (dataChunks e'.chunks).flatten = sm.slice 0 smlen := by
  have : Fact P.p.Prime := ⟨hP.prime⟩
  obtain ⟨sm', e', hends, hR'⟩ := Session.forUpM_ends
    (g := streamResponse (echoHal (signHost P) sk) P K h) (ResponseStep P K st G0 h)
    (Nat.zero_le P.t) (fun i sm e _ hi hR => streamResponse_step hP.toSquare hi hR) hR
  obtain ⟨last, hlast, hlen, hslice⟩ := streamRespond_last hP hcount hends hR'.zero hr
  have hdata := le_dataLength hP
  exact ⟨_, hlast, by rw [flatten_dataChunks _ (by omega), hR'.data, hslice]⟩

/-! ## The signed message -/

/-- When every commitment passes at its first attempt, the chunks are the signed message. -/
theorem signRefines_of_firstTry (hP : P.Valid) (hd : 2 ≤ P.digestBytes + P.stSaltBytes)
    {bsBuf : Nat → Arr UInt8} {delta msg sk : List UInt8} (hsk : sk.length = P.skBytes)
    (hbs : 8 ≤ P.gfqBits ∨ ∀ i j, (bsBuf i).get j = 0)
    (h : SignFirstTry P SHAKE256 delta sk) : SignRefines P SHAKE256 bsBuf delta msg sk := by
  have : Fact P.p.Prime := ⟨hP.prime⟩
  have htH : P.t ≤ 2 ^ P.seedTreeHeight := hP.height ▸ Nat.le_pow_clog (by decide) P.t
  intro sm smlen hsm
  unfold cryptoSign at hsm
  simp only [Run.returns_bind] at hsm
  obtain ⟨K, hK, ⟨alpha, st⟩, hst, ⟨ret, ch⟩, hch, hsm⟩ := hsm
  unfold signCommitments at hst
  rw [Run.returns_bind] at hst
  obtain ⟨st', hloop, hst⟩ := hst
  rw [Run.returns_pure, Prod.mk.injEq] at hst
  obtain ⟨rfl, rfl⟩ := hst
  -- the commitments, in step with those of meds_serial.c
  obtain ⟨s, e, hends, hR⟩ := Session.forUpM_simulation
    (g := streamSignCommit (echoHal (signHost P) sk) P SHAKE256 true (K.G.get 0)
      (signSalt P SHAKE256 delta))
    (CommitStep P (signTree P SHAKE256 delta) (K.G.get 0)) (Nat.zero_le P.t)
    (fun i st s e st' _ hi hR hstep => signCommit_step hP.toSquare hbs hi (by omega) htH
      (h K hK i hi) hR hstep)
    (t := ⟨signTree P SHAKE256 delta, K.G.get 0, shake256Init⟩)
    (e := { Echo.start with sent := [⟨(K.G.get 0).slice 0 (P.k * P.m * P.n)⟩] })
    ⟨rfl, rfl, fun _ _ => rfl, fun _ _ _ => rfl, rfl, rfl, rfl⟩ hloop
  have hchal := parseHash_returns (by have := hP.two_le_s; omega) hch
  have hR0 : ResponseStep P K st (K.G.get 0) ch 0
      (Arr.replicate (responseBytes P + dataLength P + msg.length) 0) e :=
    ⟨fun j => Arr.get_replicate _ j, hR.log, hR.reads, by rw [hR.chunks]; rfl⟩
  obtain ⟨e', hends', hdata⟩ := streamRespond_ends hP hd hchal.weight hR0 hsm
  refine ⟨e', ?_, hdata⟩
  unfold cryptoSignStreaming
  -- then the dialog from its start: the key, the commitments, the responses
  have hread : Session.Ends ((echoHal (signHost P) sk).readStreamStr P.skBytes) Echo.start sk
      Echo.start := by
    have h : Session.Ends ((echoHal (signHost P) sk).readStreamStr P.skBytes) Echo.start
        (sk.take P.skBytes) Echo.start := ends_readStreamStr P.skBytes
    rwa [List.take_of_length_le (by omega)] at h
  refine (ends_putchar 0).bind (hread.bind (ends_getchar.bind ((ends_run hK).bind ?_)))
  simp only [if_true]
  refine (ends_putchar 0).bind ((ends_writeStream _ _).bind (ends_getchar.bind (hends.bind ?_)))
  rw [hR.hash, hR.tree]
  exact (ends_run hch).bind hends'

/-- A secret key of the parameters `tiny`. -/
def tinySk : List UInt8 := [0, 1, 2, 2, 2, 1, 2, 1, 1, 1]

theorem loadSecretKey_tinySk : (loadSecretKey tiny toyShake tinySk).Returns
    { G := ⟨[⟨[1, 0, 0, 0, 0, 1, 2, 0]⟩]⟩
      Ainv := ⟨[⟨[]⟩, ⟨[2, 2, 2, 1]⟩]⟩
      Binv := ⟨[⟨[]⟩, ⟨[2, 1, 1, 1]⟩]⟩ } :=
  Run.returns_of_run (n := 60) (by decide +kernel)

set_option synthInstance.maxSize 400 in
/-- With the seed 0, both commitments pass at once. -/
theorem signRefines_zero :
    SignRefines tiny toyShake (fun _ => Arr.empty) [0] [1, 2, 3] tinySk := by
  refine signRefines_of_firstTry tiny_valid (by decide) rfl (Or.inl (by decide)) ?_
  intro K hK i hi
  obtain rfl := hK.unique loadSecretKey_tinySk
  change i < 2 at hi
  interval_cases i
  · exact ⟨(⟨[1, 11, 6]⟩, ⟨[1, 2, 0, 2]⟩, ⟨[1, 1, 0, 1]⟩, ⟨[1, 0, 2, 2, 0, 1, 1, 1]⟩),
      Run.returns_of_run (n := 60) (by decide +kernel)⟩
  · exact ⟨(⟨[1, 2, 23]⟩, ⟨[2, 1, 2, 0]⟩, ⟨[2, 0, 2, 1]⟩, ⟨[1, 0, 1, 0, 0, 1, 1, 1]⟩),
      Run.returns_of_run (n := 60) (by decide +kernel)⟩

/-- With the seed 3 the first commitment is retried, and the device signs something else. -/
theorem not_signRefines_three :
    ¬ SignRefines tiny toyShake (fun _ => Arr.empty) [3] [1, 2, 3] tinySk := by
  intro h
  obtain ⟨e, hends, hdata⟩ := h ⟨[1, 0, 2, 1, 2, 0, 2, 2, 1, 30, 31, 1, 2, 3]⟩ 14
    (Run.returns_of_run (n := 60) (by decide +kernel))
  have hdevice : Session.Ends
      (cryptoSignStreaming (echoHal (signHost tiny) tinySk) tiny toyShake true [3] [1, 2, 3])
      Echo.start 14
      { sent := [⟨[1, 0, 0, 0, 0, 1, 2, 0]⟩, ⟨[0, 1, 2, 1]⟩, ⟨[1, 1, 1, 0]⟩, ⟨[1, 1, 0, 1]⟩,
          ⟨[0, 1, 2, 1]⟩]
        reads := 6
        chunks := [[2, 1, 0, 2, 0, 2, 2, 1], [0], [14, 9, 31, 1, 2, 3]] } :=
    Run.returns_of_run (n := 60) (by decide +kernel)
  obtain ⟨-, rfl⟩ := hends.unique hdevice
  exact absurd hdata (by decide +kernel)

end Meds.Ref
