/-
  Meds.Kat.DeviceCommands

  The commands of the board, one test case after the other.

  The board takes every byte for a command of its own.  The bytes of a code
  are three commands that do nothing and the one that is meant, whatever `val`
  held before and whether `char` is signed or not.  The states between the
  commands of a test case are named by what the next command needs.
-/

import Meds.Kat.Device
import Meds.Kat.DeviceSign
import Meds.Kat.Responses

namespace Meds.Kat.Device

open Meds.Core Meds.Ref
open Meds.Sage (recvLine sendBytes keysScript signScript smReplies caseScript)

variable {P : Params} {SHAKE256 : Shake} {AES256 : BlockFunction 16} {board : Board}

/-! ## Codes -/

/-- Four bytes push out what `val` held before. -/
theorem shiftIn_eq (val : BitVec 32) (c : UInt8) : shiftIn board val c = shiftIn board 0 c := by
  have hfour : ∀ v, shiftIn board v c
      = (((v <<< 8 ||| charValue board c) <<< 8 ||| charValue board c) <<< 8 ||| charValue board c)
          <<< 8 ||| charValue board c := fun _ => rfl
  rw [hfour, hfour]
  simp only [BitVec.shiftLeft_or_distrib, ← BitVec.shiftLeft_add]
  rw [@BitVec.shiftLeft_eq_zero 32 val (8 + 8 + 8 + 8) (by decide),
    @BitVec.shiftLeft_eq_zero 32 0 (8 + 8 + 8 + 8) (by decide)]

theorem shiftIn_zero : shiftIn board 0 0 = 0 := by
  have hchar : charValue board 0 = 0 := by
    unfold charValue
    split <;> rfl
  simp only [shiftIn, hchar]
  rfl

/-- The bytes of the codes. -/
def codes : List UInt8 := [18, 19, 20, 21, 22, 23, 24]

theorem checkOf_shiftIn {c : UInt8} (hc : c ∈ (0 : UInt8) :: codes) (val : BitVec 32) :
    checkOf (shiftIn board val c) = c.toNat := by
  rw [shiftIn_eq]
  have key : ∀ signed : Bool, ∀ c ∈ (0 : UInt8) :: codes,
      checkOf (shiftIn ⟨[], [], signed, Arr.empty, ⟨Arr.empty, Arr.empty, 0⟩, fun _ => toyStack 0, 0⟩ 0 c)
        = c.toNat := by decide +kernel
  exact key board.charSigned c hc

/-- A byte whose command says `p`. -/
theorem speaks_deviceRound {c : UInt8} (hc : c ∈ (0 : UInt8) :: codes) {p : List (Act UInt8)}
    {st st' : DeviceVars}
    (h : (execute P SHAKE256 AES256 false board { st with val := shiftIn board st.val c } c.toNat).Speaks
      p (.inl st')) :
    (deviceRound P SHAKE256 AES256 false board st).Speaks ([.recv c] ++ p) (.inl st') := by
  have hne : c ≠ newline := by
    rintro rfl
    exact absurd hc (by decide)
  rw [← @checkOf_shiftIn board _ hc st.val] at h
  refine (Dialog.speaks_get c).bind (h.bind_pure ?_)
  simp only
  rw [if_neg hne]
  exact Dialog.speaks_pure _

/-- The bytes in front of a code do nothing. -/
theorem speaks_zero (st : DeviceVars) :
    (deviceRound P SHAKE256 AES256 false board st).Speaks [.recv 0]
      (.inl { st with val := shiftIn board st.val 0 }) :=
  speaks_deviceRound (p := []) (by decide) (Dialog.speaks_pure _)

/-- A code, whatever `val` holds before. -/
theorem rounds_code {c : UInt8} (hc : c ∈ codes) {I J : DeviceVars → Prop} {p : List (Act UInt8)}
    (h : ∀ st val, I st → ∃ st', J st' ∧
      (execute P SHAKE256 AES256 false board { st with val := val } c.toNat).Speaks p (.inl st')) :
    Dialog.Rounds (deviceRound P SHAKE256 AES256 false board) I J
      (Network.dual (sendBytes (codeBytes c)) ++ p) := by
  intro st hst
  obtain ⟨st', hst', hp⟩ := h st (shiftIn board (shiftIn board (shiftIn board
    (shiftIn board st.val 0) 0) 0) c) hst
  refine ⟨st', hst', fun q hq => ?_⟩
  -- the code comes behind three zero bytes
  have hround := (@speaks_deviceRound P SHAKE256 AES256 board c (List.mem_cons_of_mem _ hc) p
    { st with val := shiftIn board (shiftIn board (shiftIn board st.val 0) 0) 0 } st' hp).loop_waits hq
  exact (speaks_zero st).loop_waits ((speaks_zero _).loop_waits ((speaks_zero _).loop_waits hround))

/-! ## Between the commands of a test case -/

/-- Before test case `i`. -/
def Ready (i : Nat) (st : DeviceVars) : Prop := st.countPk = i

/-- The seed has come. -/
structure Seeded (i : Nat) (seed : List UInt8) (st : DeviceVars) : Prop where
  countPk : st.countPk = i
  seed : st.seed.slice 0 48 = seed

/-- The message has come, and the generator is at `g`. -/
structure Loaded (i : Nat) (msg : List UInt8) (g : CtrDrbg) (st : DeviceVars) : Prop where
  countPk : st.countPk = i + 1
  m : st.m = some msg
  ctx : st.ctx.Holds g

theorem text_line {name line : String} (h : text line = text name ++ [newline]) :
    (text line).map Act.send = Network.dual (recvLine (text name)) := by
  rw [h, dual_recvLine]

/-- What the library says, the board says. -/
theorem speaks_onBoard {α : Type} {x : Dialog Fault UInt8 α} {p : List (Act UInt8)} {a : α}
    (h : x.Speaks p a) : (onBoard x).Speaks p a := h.mapFault _

section

variable {i : Nat}

theorem rounds_seed {seed : List UInt8} (hseed : seed.length = 48) :
    Dialog.Rounds (deviceRound P SHAKE256 AES256 false board) (Ready i) (Seeded i seed)
      (Network.dual (sendBytes (codeBytes 18)) ++ Network.dual (sendBytes seed)) := by
  rw [dual_sendBytes seed]
  have hread := speaks_readStreamStr seed
  have hslice : ∀ x : Arr UInt8, (x.blit 0 seed).slice 0 seed.length = seed := fun x =>
    Arr.slice_blit _ _ _
  rw [hseed] at hread hslice
  exact rounds_code (by decide) fun st val hst =>
    ⟨{ st with val := val, seed := st.seed.blit 0 seed }, ⟨hst, hslice _⟩,
      (speaks_onBoard hread).bind_pure (Dialog.speaks_pure _)⟩

theorem rounds_msg {seed msg : List UInt8} (hmsg : msg.length = 33 * (i + 1)) :
    Dialog.Rounds (deviceRound P SHAKE256 AES256 false board) (Seeded i seed)
      (Loaded i msg (CtrDrbg.init AES256 32 3 seed))
      (Network.dual (sendBytes (codeBytes 19)) ++ ([.send 0] ++ Network.dual (sendBytes msg))) := by
  rw [dual_sendBytes msg]
  refine rounds_code (by decide) fun st val hst => ?_
  have hinit := @randombytesInit_holds AES256 st.seed 256 st.ctx
  rw [hst.seed] at hinit
  have hread := speaks_readStreamStr msg
  rw [hmsg, ← hst.countPk] at hread
  refine ⟨{ st with
      val := val
      countPk := st.countPk + 1
      m := some msg
      ctx := randombytesInit AES256 st.seed none 256 st.ctx },
    ⟨congrArg (· + 1) hst.countPk, rfl, hinit⟩, (Dialog.speaks_put 0).bind ?_⟩
  exact (speaks_onBoard hread).bind_pure (Dialog.speaks_pure _)

/-- A key pair, where the generator is at `g`. -/
theorem rounds_pk (hsec : P.secSeedBytes ≤ intMax) {msg : List UInt8} {g : CtrDrbg}
    (hcount : g.reseedCounter < intMax) {d : Sage.TestCase}
    (hkeys : (cryptoSignKeypairStreaming serialHal P SHAKE256 false
      (g.generate AES256 32 3 P.secSeedBytes).1).Speaks (Network.dual (keysScript false P.s d)) 0) :
    Dialog.Rounds (deviceRound P SHAKE256 AES256 false board) (Loaded i msg g)
      (Loaded i msg (g.generate AES256 32 3 P.secSeedBytes).2)
      (Network.dual (sendBytes (codeBytes 20)) ++ (Network.dual (keysScript false P.s d) ++
        Network.dual (recvLine (text "pk = DONE")))) := by
  refine rounds_code (by decide) fun st val hst => ?_
  obtain ⟨ctx, hdraw, hctx⟩ := @drawDelta_returns P AES256 hsec _ _ hst.ctx hcount
    (board.stack st.countPk).delta₁
  refine ⟨{ st with val := val, ctx := ctx }, ⟨hst.countPk, hst.m, hctx⟩, ?_⟩
  refine (Dialog.speaks_lift (Run.returns_mapFault.mpr hdraw)).bind_nil
    ((speaks_onBoard hkeys).bind ?_)
  rw [if_neg (by decide), ← @text_line "pk = DONE" "pk = DONE\n" (by decide)]
  exact (Dialog.speaks_putAll _).bind_pure (Dialog.speaks_pure _)

theorem rounds_sk {msg : List UInt8} {g : CtrDrbg} :
    Dialog.Rounds (deviceRound P SHAKE256 AES256 false board) (Loaded i msg g) (Loaded i msg g)
      (Network.dual (sendBytes (codeBytes 21)) ++ Network.dual (recvLine (text "sk = DONE"))) := by
  refine rounds_code (by decide) fun st val hst => ⟨{ st with val := val }, ⟨hst.countPk, hst.m, hst.ctx⟩, ?_⟩
  rw [← @text_line "sk = DONE" "sk = DONE\n" (by decide)]
  exact (Dialog.speaks_putAll _).bind_pure (Dialog.speaks_pure _)

/-- A signed message, where the generator is at `g`. -/
theorem rounds_sml (hsec : P.secSeedBytes ≤ intMax) {msg : List UInt8} {g : CtrDrbg}
    (hcount : g.reseedCounter < intMax) {d : Sage.TestCase}
    (hsign : (cryptoSignStreaming serialHal P SHAKE256 false
      (g.generate AES256 32 3 P.secSeedBytes).1 msg).Speaks (Network.dual (signScript false P.t d))
      d.smlen) :
    Dialog.Rounds (deviceRound P SHAKE256 AES256 false board) (Loaded i msg g)
      (Loaded i msg (g.generate AES256 32 3 P.secSeedBytes).2)
      (Network.dual (sendBytes (codeBytes 22)) ++ (Network.dual (signScript false P.t d) ++
        Network.dual (recvLine (text "smlen = " ++ decimal d.smlen)))) := by
  refine rounds_code (by decide) fun st val hst => ?_
  obtain ⟨ctx, hdraw, hctx⟩ := @drawDelta_returns P AES256 hsec _ _ hst.ctx hcount
    (board.stack st.countPk).delta₂
  refine ⟨{ st with val := val, ctx := ctx }, ⟨hst.countPk, hst.m, hctx⟩, ?_⟩
  obtain ⟨v, seed, countPk, m, c⟩ := st
  obtain rfl : m = some msg := hst.m
  rw [dual_recvLine]
  exact (Dialog.speaks_lift (Run.returns_mapFault.mpr hdraw)).bind_nil
    ((speaks_onBoard hsign).bind ((Dialog.speaks_putAll _).bind_pure (Dialog.speaks_pure _)))

/-- The buffers are freed. -/
theorem rounds_sm (hsm : board.sm = 0) {msg : List UInt8} {g : CtrDrbg} :
    Dialog.Rounds (deviceRound P SHAKE256 AES256 false board) (Loaded i msg g) (Ready (i + 1))
      (Network.dual (sendBytes (codeBytes 23)) ++ Network.dual (recvLine (text "sm = DONE"))) := by
  refine rounds_code (by decide) fun st val hst => ⟨{ st with val := val, m := none }, hst.countPk, ?_⟩
  obtain ⟨v, seed, countPk, m, c⟩ := st
  obtain rfl : m = some msg := hst.m
  rw [← @text_line "sm = DONE" "sm = DONE\n" (by decide)]
  refine (Dialog.speaks_putAll _).bind_pure ?_
  dsimp only
  rw [if_pos hsm]
  exact Dialog.speaks_pure _

theorem rounds_stop :
    Dialog.Rounds (deviceRound P SHAKE256 AES256 false board) (Ready i) (Ready i)
      (Network.dual (sendBytes (codeBytes 24)) ++
        Network.dual (recvLine (text "finished from C"))) := by
  refine rounds_code (by decide) fun st val hst => ⟨{ st with val := val }, hst, ?_⟩
  rw [← @text_line "finished from C" "finished from C\n" (by decide)]
  exact (Dialog.speaks_putAll _).bind_pure (Dialog.speaks_pure _)

end

/-! ## A test case -/

/-- Parameters whose buffers on the board are large enough. -/
structure BoardFit (P : Params) : Prop extends P.Valid where
  eight_le : 8 ≤ P.gfqBits
  sec_le : P.secSeedBytes ≤ intMax
  digest_pos : 1 ≤ P.digestBytes
  salt_pos : 1 ≤ P.stSaltBytes
  chunk_le : P.pubSeedBytes + byteLen (P.gfqBits * pkCoeffs P) ≤ pkBufLen P

theorem BoardFit.chunkFit [Fact P.p.Prime] (hP : BoardFit P) : ChunkFit P :=
  { sized_of_valid hP.toValid with
    two_le_s := hP.two_le_s
    n_le_m := hP.m_eq.ge
    eight_le := hP.eight_le
    chunk_le := hP.chunk_le }

/-- What the host has when the answer to a test case is `a`. -/
structure AnswerOf (P : Params) (seed msg : List UInt8) (a : List UInt8 × List UInt8 × List UInt8)
    (d : Sage.TestCase) : Prop where
  seed : d.seed = seed
  msg : d.msg = msg
  pk : ((List.range' 1 (P.s - 1)).map d.pk).flatten = a.1
  sk : d.sk = a.2.1
  smlen : d.smlen = a.2.2.length
  sm : ((smReplies P.t d).filter fun x => 2 < x.length).flatten = a.2.2.flatMap hex2

/-- A key pair and a signed message on the line: the host has those of
    meds_serial.c. -/
theorem speaks_answer (hP : BoardFit P) (seed : List UInt8) {bsBuf : Nat → Arr UInt8}
    {delta₁ delta₂ msg : List UInt8} (hdelta : delta₁.length = P.secSeedBytes) {pk sk : Arr UInt8}
    {a : List UInt8 × List UInt8 × List UInt8}
    (h : (Sage.refKeypairSign P SHAKE256 bsBuf delta₁ delta₂ msg pk sk
      (Arr.replicate (P.sigBytes + msg.length) 0)).Returns a)
    (hlate : NoLateFailure P SHAKE256 false delta₁) :
    ∃ d, AnswerOf P seed msg a d ∧
      (cryptoSignKeypairStreaming serialHal P SHAKE256 false delta₁).Speaks
        (Network.dual (keysScript false P.s d)) 0 ∧
      (cryptoSignStreaming serialHal P SHAKE256 false delta₂ msg).Speaks
        (Network.dual (signScript false P.t d)) d.smlen := by
  have : Fact P.p.Prime := ⟨hP.prime⟩
  have hfit := hP.chunkFit
  obtain ⟨⟨ret, pk', sk'⟩, hkey, h⟩ := Run.returns_bind.mp h
  obtain ⟨⟨sm, smlen⟩, hsign, h⟩ := Run.returns_bind.mp h
  obtain rfl := Run.returns_pure.mp h
  rw [cryptoSignKeypair_eq_copyKeys] at hkey
  obtain ⟨⟨sigmaG0, K⟩, hK, hkey⟩ := Run.returns_bind.mp hkey
  obtain ⟨hsigma, _, -, hspec⟩ :=
    keypairMatrices_returns hP.toSquare (Nat.le_of_succ_le hP.two_le_s) hK
  have hentries := hspec.entriesFit hP.toSquare
  obtain ⟨pk₁, sk₁, hcopy, hpkBytes, hskBytes⟩ :=
    copyKeys_bytes hfit hentries hdelta hsigma pk sk
  obtain ⟨rfl, rfl, rfl⟩ : ret = 0 ∧ pk' = pk₁ ∧ sk' = sk₁ := by
    simpa [hcopy] using Run.returns_pure.mp hkey
  have hsklen : (sk'.slice 0 P.skBytes).length = P.skBytes := Arr.length_slice ..
  have hskpos : 0 < P.skBytes := by
    rw [hfit.skBytes_eq]
    have := Nat.mul_pos hfit.matrix_pos (Nat.sub_pos_of_lt hP.two_le_s)
    omega
  -- the key on the line, and then the signature
  obtain ⟨A, B, S, hsm, htext⟩ := speaks_sign hP.toValid hP.digest_pos hP.salt_pos hsklen
    (Or.inl hP.eight_le) hsign
    { seed := seed
      msg := msg
      G0 := []
      Ainv := fun i => matrixBytes (K.Ainv.get i) (P.m * P.m)
      Binv := fun i => matrixBytes (K.Binv.get i) (P.m * P.m)
      G := fun i => matrixBytes (K.G.get i) (P.k * P.m * P.n)
      sk := sk'.slice 0 P.skBytes
      sk_ne := List.ne_nil_of_length_pos (by omega)
      pk := pkChunk P sigmaG0 K
      sigG0 := []
      Atilde := fun _ => []
      Btilde := fun _ => []
      sm := fun _ => []
      smlen := smlen } rfl
  refine ⟨_, ⟨rfl, rfl, ?_, rfl, (Arr.length_slice ..).symm, htext⟩, ?_, hsm⟩
  · exact (flatten_pkChunks hP.two_le_s sigmaG0 K).trans hpkBytes.symm
  · exact speaks_keys hfit hentries hdelta hsigma hK hlate
      ⟨fun _ => rfl, fun _ => rfl, fun _ => rfl, hskBytes, fun _ => rfl⟩

theorem dual_caseScript (s t : Nat) (d : Sage.TestCase) :
    Network.dual (caseScript false s t d)
      = (Network.dual (sendBytes (codeBytes 18)) ++ Network.dual (sendBytes d.seed)) ++
        ((Network.dual (sendBytes (codeBytes 19)) ++ ([.send 0] ++ Network.dual (sendBytes d.msg))) ++
        ((Network.dual (sendBytes (codeBytes 20)) ++ (Network.dual (keysScript false s d) ++
          Network.dual (recvLine (text "pk = DONE")))) ++
        ((Network.dual (sendBytes (codeBytes 21)) ++ Network.dual (recvLine (text "sk = DONE"))) ++
        ((Network.dual (sendBytes (codeBytes 22)) ++ (Network.dual (signScript false t d) ++
          Network.dual (recvLine (text "smlen = " ++ decimal d.smlen)))) ++
        (Network.dual (sendBytes (codeBytes 23)) ++ Network.dual (recvLine (text "sm = DONE"))))))) := by
  simp only [caseScript, Sage.seedScript, Sage.msgScript, Sage.pkScript, Sage.skScript,
    Sage.smlScript, Sage.smScript, Network.dual_append]
  rfl

/-- The commands of a test case that meds_serial.c answers with `a`. -/
theorem rounds_case (hP : BoardFit P) (hsm : board.sm = 0) {stack : Int → Stack} {pk sk : Arr UInt8}
    {i : Nat} {a : List UInt8 × List UInt8 × List UInt8}
    (h : (answerCase P SHAKE256 AES256 stack pk sk i).Returns a)
    (hlate : NoLateFailure P SHAKE256 false (keypairDelta P AES256 (requestSeed AES256 i))) :
    ∃ d, AnswerOf P (requestSeed AES256 i) (requestMsg AES256 i) a d ∧
      Dialog.Rounds (deviceRound P SHAKE256 AES256 false board) (Ready i) (Ready (i + 1))
        (Network.dual (caseScript false P.s P.t d)) := by
  have hmsg := @length_requestMsg AES256 i
  have h := Run.returns_mapFault.mp h
  rw [Nat.add_comm, ← hmsg] at h
  obtain ⟨d, hd, hkeys, hsign⟩ :=
    speaks_answer hP (requestSeed AES256 i) (length_keypairDelta _) h hlate
  refine ⟨d, hd, ?_⟩
  rw [dual_caseScript, hd.seed, hd.msg]
  have h₁ : (CtrDrbg.init AES256 32 3 (requestSeed AES256 i)).reseedCounter = 1 := rfl
  exact (rounds_seed (length_requestSeed i)).trans ((rounds_msg hmsg).trans
    ((rounds_pk hP.sec_le (h₁.trans_lt (by decide)) hkeys).trans (rounds_sk.trans
      ((rounds_sml hP.sec_le (by
        rw [CtrDrbg.reseedCounter_generate, h₁]
        decide) hsign).trans (rounds_sm hsm)))))

/-! ## The requests -/

theorem speaks_drawBytes {ctx : DrbgCtx} {g : CtrDrbg} (hctx : ctx.Holds g) (x : Arr UInt8) {len : Nat}
    (hlen : len ≤ intMax) (hcount : g.reseedCounter < intMax) :
    ∃ x' ctx', (drawBytes AES256 x len ctx).Speaks [] (x', ctx') ∧
      x'.slice 0 len = (g.generate AES256 32 3 len).1 ∧ ctx'.Holds (g.generate AES256 32 3 len).2 := by
  have hmax : intMax = 2 ^ 31 - 1 := rfl
  have hnat : (UInt64.ofNat len).toNat = len := by
    rw [UInt64.toNat_ofNat']
    omega
  obtain ⟨x', ctx', hrandom, hx, hctx'⟩ := @randombytes_returns AES256 _ _ hctx x (UInt64.ofNat len)
    (hnat.trans_le hlen) hcount
  rw [hnat] at hx hctx'
  exact ⟨x', ctx', (Dialog.speaks_lift (Run.returns_mapFault.mpr hrandom)).bind_nil
    (Dialog.speaks_pure _), hx, hctx'⟩

/-- `write_stream_str` prints what `fprintBstr` writes. -/
theorem speaks_writeStreamStr (S : String) (A : List UInt8) :
    (onBoard (writeStreamStr S A)).Speaks ((fprintBstr (text S) A).map .send) () := by
  rw [fprintBstr, List.map_append, List.map_append, List.append_assoc]
  exact speaks_onBoard ((Dialog.speaks_putAll _).bind ((Dialog.speaks_putAll _).bind
    (Dialog.speaks_put newline)))

/-- A round prints a test case; the last one also prints that it is the last. -/
theorem speaks_seedgenRound {i : Nat} (hi : i < 100) {s : SeedgenVars} (hs : s.i = i)
    (hctx : s.ctx.Holds (requestState AES256 i)) :
    ∃ s', s'.i = (if i = 99 then 99 else i + 1) ∧ s'.ctx.Holds (requestState AES256 (i + 1)) ∧
      (seedgenRound AES256 100 s).Speaks
        ((requestText i (requestSeed AES256 i) (requestMsg AES256 i)).map .send ++
          if i = 99 then (text "finished\n").map .send else [])
        (if i = 99 then .inr (0, s') else .inl s') := by
  have hmax : intMax = 2 ^ 31 - 1 := rfl
  have hcount := @reseedCounter_requestState AES256 i
  obtain ⟨seed, ctx₁, hdraw₁, hseed, hctx₁⟩ := speaks_drawBytes hctx s.seed
    (show 48 ≤ intMax by decide) (by omega)
  obtain ⟨msg, ctx₂, hdraw₂, hmsg, hctx₂⟩ := @speaks_drawBytes AES256 _ _ hctx₁ s.msg (33 * (i + 1))
    (by omega) (by rw [CtrDrbg.reseedCounter_generate]; omega)
  -- the lines of a test case, in the order in which they are printed
  have hscript : (requestText i (requestSeed AES256 i) (requestMsg AES256 i)).map Act.send
      = (text "count = " ++ decimal i ++ [newline]).map .send ++
        ((fprintBstr (text "seed = ") (requestSeed AES256 i)).map .send ++
        ((text "mlen = " ++ decimal (33 * (i + 1)) ++ [newline]).map .send ++
        ((fprintBstr (text "msg = ") (requestMsg AES256 i)).map .send ++
        ((text "pk =\n").map .send ++ ((text "sk =\n").map .send ++ ((text "smlen =\n").map .send ++
          (text "sm =\n\n").map .send)))))) := by
    simp only [requestText, requestFields, emptyFields, List.map_append, List.append_assoc]
  refine ⟨⟨if i = 99 then 99 else i + 1, seed, msg, ctx₂⟩, rfl, hctx₂, ?_⟩
  have hseed' : seed.slice 0 48 = requestSeed AES256 i := hseed
  have hmsg' : msg.slice 0 (33 * (i + 1)) = requestMsg AES256 i := hmsg
  rw [seedgenRound, hs, if_pos hi, hscript, ← hseed', ← hmsg']
  simp only [List.append_assoc]
  refine (Dialog.speaks_putAll _).bind (hdraw₁.bind_nil ((speaks_writeStreamStr _ _).bind
    ((Dialog.speaks_putAll _).bind (hdraw₂.bind_nil ((speaks_writeStreamStr _ _).bind
      ((Dialog.speaks_putAll _).bind ((Dialog.speaks_putAll _).bind ((Dialog.speaks_putAll _).bind
        ((Dialog.speaks_putAll _).bind ?_)))))))))
  -- after the last test case the line "finished" is sent
  by_cases hlast : i = 99
  · rw [if_pos hlast, if_pos hlast, if_pos hlast, if_pos hlast, ← hlast]
    exact (Dialog.speaks_putAll _).bind_pure (Dialog.speaks_pure _)
  · rw [if_neg hlast, if_neg hlast, if_neg hlast, if_neg hlast]
    exact Dialog.speaks_pure _

/-- The board prints the request file. -/
theorem speaks_doSeedgen (seed : Arr UInt8) {ctx : DrbgCtx}
    (hctx : ctx.Holds (requestState AES256 0)) :
    ∃ s, (doSeedgen AES256 seed 100 ctx).Speaks
      ((requestFile AES256 100 ++ text "finished\n").map .send) (0, s) := by
  -- backwards from the last test case
  have key : ∀ k i, i + k = 99 → ∀ s : SeedgenVars, s.i = i → s.ctx.Holds (requestState AES256 i) →
      ∃ s', Dialog.Speaks (Session.loop (seedgenRound AES256 100) s)
        ((requestsFrom AES256 100 i ++ text "finished\n").map .send) (0, s') := by
    intro k
    induction k with
    | zero =>
        intro i hi s hs hctx
        obtain rfl : i = 99 := by omega
        obtain ⟨s', -, -, hround⟩ := speaks_seedgenRound (by decide) hs hctx
        rw [if_pos rfl, if_pos rfl, ← List.map_append] at hround
        refine ⟨s', Dialog.speaks_loop_break ?_⟩
        rwa [requestsFrom_of_lt (by decide), requestsFrom_self, List.append_nil, ← requestText]
    | succ k ih =>
        intro i hi s hs hctx
        obtain ⟨s₁, hi₁, hctx₁, hround⟩ := speaks_seedgenRound (show i < 100 by omega) hs hctx
        rw [if_neg (by omega)] at hi₁ hround
        rw [if_neg (by omega), List.append_nil] at hround
        obtain ⟨s', hloop⟩ := ih (i + 1) (by omega) s₁ hi₁ hctx₁
        refine ⟨s', ?_⟩
        rw [requestsFrom_of_lt (show i < 100 by omega), ← List.append_assoc, ← requestText,
          List.append_assoc, List.map_append]
        exact Dialog.speaks_loop_continue hround hloop
  rw [requestFile_eq]
  exact key 99 0 rfl _ rfl hctx

/-! ## main -/

/-- The first line of the board. -/
def greeting (board : Board) : List UInt8 :=
  text "Send data from \"" ++ board.elfName ++ text "\" - " ++ board.algName ++ [newline]

/-- The session from the side of the board, with the test cases `d`. -/
def boardScript (P : Params) (AES256 : BlockFunction 16) (board : Board) (d : Nat → Sage.TestCase) :
    List (Act UInt8) :=
  [.recv one] ++ ((greeting board).map .send ++
    ((requestFile AES256 100 ++ text "finished\n").map .send ++
      Network.dual (Sage.runScript false P.s P.t d 100)))

/-- The board prints the requests, answers every test case, and waits. -/
theorem main_waits {d : Nat → Sage.TestCase}
    (h : ∀ i, i < 100 → Dialog.Rounds (deviceRound P SHAKE256 AES256 false board) (Ready i)
      (Ready (i + 1)) (Network.dual (caseScript false P.s P.t (d i)))) :
    (main P SHAKE256 AES256 false board).Waits (boardScript P AES256 board d) := by
  have hinit := @randombytesInit_holds AES256 ⟨entropyInput⟩ 256 board.ctx
  rw [Meds.Sage.slice_mk (by decide : entropyInput.length = 48)] at hinit
  obtain ⟨s, hseedgen⟩ := speaks_doSeedgen board.seed hinit
  have hrun : Network.dual (Sage.runScript false P.s P.t d 100)
      = (List.range' 0 100).flatMap (fun i => Network.dual (caseScript false P.s P.t (d i))) ++
        (Network.dual (sendBytes (codeBytes 24)) ++
          Network.dual (recvLine (text "finished from C"))) := by
    rw [Sage.runScript, Network.dual_append, dual_flatMap, Network.dual_append]
  obtain ⟨st, hst⟩ : ∃ st : DeviceVars, st =
      { val := 0, seed := s.seed.blit 0 (List.replicate 48 0x00), countPk := 0, m := none, ctx := s.ctx } :=
    ⟨_, rfl⟩
  have hloop : Dialog.Waits (Session.loop (deviceRound P SHAKE256 AES256 false board) st)
      (Network.dual (Sage.runScript false P.s P.t d 100)) := by
    rw [hrun]
    exact ((Dialog.Rounds.range h).trans rounds_stop).waits
      (fun st _ => Dialog.waits_get.bind_left _) (show Ready 0 st by rw [hst]; rfl)
  -- the first byte is taken before the loop, where it would have done nothing
  obtain ⟨rest, hrest⟩ : ∃ rest, Network.dual (Sage.runScript false P.s P.t d 100) = .recv 0 :: rest :=
    ⟨_, rfl⟩
  rw [hrest] at hloop
  have hzero := @speaks_zero P SHAKE256 AES256 board st
  have hsame : { st with val := shiftIn board st.val 0 } = st := by
    rw [hst]
    exact congrArg (fun v => DeviceVars.mk v _ _ _ _) shiftIn_zero
  rw [hsame] at hzero
  have htail := hzero.waits_of_loop hloop
  rw [boardScript, hrest]
  refine (Dialog.speaks_get one).bind_waits ((Dialog.speaks_putAll _).bind_waits
    (hseedgen.bind_waits ?_))
  simp only
  rw [if_neg (by decide), ← hst]
  exact Dialog.Speaks.bind_waits (p := [.recv 0]) (Dialog.speaks_get 0) htail

end Meds.Kat.Device
