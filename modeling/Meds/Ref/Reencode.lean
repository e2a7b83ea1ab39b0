/-
  Meds.Ref.Reencode

  What `crypto_sign_open` makes of a signed message, written out again.

  The verifier reduces every response field modulo p, skips the bits that
  fill up a response block, and reads only as much of the path field as the
  walk consumes.  So it accepts a signed message exactly when it accepts the
  re-encoding of what it decoded, and the two are the same bytes only if none
  of these three freedoms was used.
-/

import Meds.Ref.OpenSafe

namespace Meds.Ref

open Meds.Core

variable {P : Params} {SHAKE256 : Shake}

/-! ## Decoding and encoding -/

/-- What `crypto_sign_open` reads out of a signed message. -/
structure Decoded where
  responses : List (Arr UInt16 × Arr UInt16)
  path : List UInt8
  digest : List UInt8
  alpha : List UInt8
  msg : List UInt8
deriving DecidableEq

section

variable (P SHAKE256)

/-- The pairs `mu`, `nu` in the order the loop of `crypto_sign_open` reads them. -/
def decodeResponses (mem : Nat → Option UInt8) (h : Arr UInt8) :
    Option (List (Arr UInt16 × Arr UInt16) × BitstreamT) :=
  forUpM 0 P.t
    (fun i s =>
      if h.get i > 0 then do
        let (mu, bs) ← readResponse P mem P.m s.2
        let (nu, bs) ← readResponse P mem P.n bs
        pure (s.1 ++ [(mu, nu)], bs)
      else pure s)
    ([], bsInit (munuBytes P))

/-- The reads of `crypto_sign_open`, without its checks: the challenge and the
    decoded content.  The path seeds are those the walk has consumed. -/
def decode (sm : List UInt8) : Run Fault (Arr UInt8 × Decoded) := do
  let mem := fun i => sm[i]?
  let digest ←
    Run.ofOption .outOfBounds
      (readBytes mem (P.sigBytes - P.digestBytes - P.stSaltBytes) P.digestBytes)
  let (_, h) ← parseHash P SHAKE256 digest Arr.empty P.t
  let alpha ← Run.ofOption .outOfBounds (readBytes mem (P.sigBytes - P.stSaltBytes) P.stSaltBytes)
  let stree := Arr.replicate (P.stSeedBytes * P.seedTreeSize) 0
  let st ← pathToStree P SHAKE256 stree h mem (munuBytes P) alpha
  let path ← Run.ofOption .outOfBounds (readBytes mem (munuBytes P) (st.pos - munuBytes P))
  let (responses, _) ← Run.ofOption .outOfBounds (decodeResponses P mem h)
  let msg ← Run.ofOption .outOfBounds (readBytes mem P.sigBytes (ulongSub sm.length P.sigBytes))
  pure (h, ⟨responses, path, digest, alpha, msg⟩)

/-- `crypto_sign`'s way of writing one response. -/
def writeResponse (s : Arr UInt8 × BitstreamT) (r : Arr UInt16 × Arr UInt16) :
    Arr UInt8 × BitstreamT :=
  let s := putFinalize (writeEntries P r.1 0 0 (P.m * P.m) s)
  putFinalize (writeEntries P r.2 0 0 (P.n * P.n) s)

/-- The layout of `crypto_sign`, into a zeroed buffer. -/
def encode (D : Decoded) : List UInt8 :=
  let sm := (Arr.replicate (P.sigBytes + D.msg.length) 0).blit (munuBytes P) D.path
  let (sm, _) := D.responses.foldl (writeResponse P) (sm, bsInit (munuBytes P))
  let sm := sm.blit (P.sigBytes - P.digestBytes - P.stSaltBytes) D.digest
  let sm := sm.blit (P.sigBytes - P.stSaltBytes) D.alpha
  let sm := sm.blit P.sigBytes D.msg
  sm.slice 0 (P.sigBytes + D.msg.length)

end

/-! ## Reading responses -/

/-- The matrix that `bs_read` and `% MEDS_p` make of the fields from byte `o` on. -/
def residues (P : Params) (d : Nat → UInt8) (o : Nat) : Arr UInt16 :=
  forUp 0 (P.n * P.n) (fun j M => M.set j (UInt16.ofNat (unpackAt d o P.gfqBits j % P.p))) Arr.empty

theorem residues_congr {d e : Nat → UInt8} {o : Nat}
    (h : ∀ j, j < P.n * P.n → unpackAt d o P.gfqBits j % P.p = unpackAt e o P.gfqBits j % P.p) :
    residues P d o = residues P e o :=
  forUp_congr (fun j M _ hj => by rw [h j hj]) _

theorem residues_get (P : Params) (d : Nat → UInt8) (o : Nat) {j : Nat} (hj : j < P.n * P.n) :
    (residues P d o).get j = UInt16.ofNat (unpackAt d o P.gfqBits j % P.p) := by
  unfold residues
  refine forUp_invariant (fun i (M : Arr UInt16) => ∀ j, j < i →
    M.get j = UInt16.ofNat (unpackAt d o P.gfqBits j % P.p)) (Nat.zero_le _)
    (fun i M _ _ hM j hj => ?_) (fun j hj => absurd hj (Nat.not_lt_zero j)) j hj
  by_cases hji : j = i
  · rw [hji, Arr.get_set_self]
  · rw [Arr.get_set_ne _ _ hji]
    exact hM j (by omega)

theorem readResponse_eq (hw : 0 < P.gfqBits) {mem : Nat → Option UInt8} {d : Nat → UInt8}
    {bufLen o : Nat} (hfit : o + matBytes P ≤ bufLen)
    (hmem : ∀ i, i < bufLen → mem i = some (d i)) :
    readResponse P mem P.n (cursor bufLen o P.gfqBits 0)
      = some (residues P d o, cursor bufLen (o + matBytes P) P.gfqBits 0) := by
  -- the loop over the entries, as a loop that cannot fail
  have hloop : ∀ i, i ≤ P.n * P.n →
      forUpM 0 i (fun j (s : Arr UInt16 × BitstreamT) =>
          bsRead mem s.2 P.gfqBits >>= fun r => pure (s.1.set j (UInt16.ofNat (r.1 % P.p)), r.2))
          (Arr.empty, cursor bufLen o P.gfqBits 0)
        = some (forUp 0 i (fun j M => M.set j (UInt16.ofNat (unpackAt d o P.gfqBits j % P.p)))
            Arr.empty, cursor bufLen o P.gfqBits i) := by
    intro i hi
    induction i with
    | zero => rfl
    | succ i ih =>
        have hle : P.gfqBits * (i + 1) ≤ 8 * matBytes P := by
          have := Nat.mul_le_mul_left P.gfqBits hi
          unfold matBytes byteLen
          omega
        have hfield := bsRead_field (o := o) (i := i) hw (by omega) hmem
        rw [forUpM_succ (Nat.zero_le _), ih (by omega), forUp_succ (Nat.zero_le _)]
        change (bsRead mem (cursor bufLen o P.gfqBits i) P.gfqBits >>= _) = _
        rw [cursor, hfield]
        rfl
  calc readResponse P mem P.n (cursor bufLen o P.gfqBits 0)
      = _ >>= fun s : Arr UInt16 × BitstreamT => pure (s.1, bsFinalize s.2) := rfl
    _ = some (residues P d o, bsFinalize (cursor bufLen o P.gfqBits (P.n * P.n))) := by
        rw [hloop _ (Nat.le_refl _)]
        rfl
    _ = some (residues P d o, cursor bufLen (o + matBytes P) P.gfqBits 0) := by
        rw [bsFinalize_cursor]

/-- The response pair number `q`. -/
def responsePair (P : Params) (d : Nat → UInt8) (q : Nat) : Arr UInt16 × Arr UInt16 :=
  (residues P d (q * (matBytes P + matBytes P)),
    residues P d (q * (matBytes P + matBytes P) + matBytes P))

theorem decodeResponses_eq (hP : P.Square) {mem : Nat → Option UInt8} {d : Nat → UInt8}
    {h : Arr UInt8} (hcount : (excluded P h).length = P.w)
    (hmem : ∀ i, i < munuBytes P → mem i = some (d i)) :
    decodeResponses P mem h = some ((List.range P.w).map (responsePair P d),
      cursor (munuBytes P) (munuBytes P) P.gfqBits 0) := by
  have hmunu : munuBytes P = P.w * (matBytes P + matBytes P) := by
    rw [munuBytes, matABytes_eq hP, matBBytes_eq]
  -- after i rounds, as many pairs are read as rounds were challenged
  have hloop : ∀ i, i ≤ P.t →
      forUpM 0 i (fun i (s : List (Arr UInt16 × Arr UInt16) × BitstreamT) =>
          if h.get i > 0 then do
            let (mu, bs) ← readResponse P mem P.m s.2
            let (nu, bs) ← readResponse P mem P.n bs
            pure (s.1 ++ [(mu, nu)], bs)
          else pure s) ([], cursor (munuBytes P) 0 P.gfqBits 0)
        = some ((List.range (challenged h i)).map (responsePair P d),
          cursor (munuBytes P) (challenged h i * (matBytes P + matBytes P)) P.gfqBits 0) := by
    intro i hi
    induction i with
    | zero => simp [challenged, forUpM_self]
    | succ i ih =>
        have hsucc := challenged_succ h i
        rw [forUpM_succ (Nat.zero_le _), ih (by omega)]
        simp only [Option.bind_eq_bind, Option.bind_some]
        by_cases hpos : h.get i > 0
        · rw [if_pos hpos] at hsucc
          -- the pair lies within the field of w pairs
          have hroom : challenged h i * (matBytes P + matBytes P) + (matBytes P + matBytes P)
              ≤ munuBytes P := by
            have hle : challenged h (i + 1) ≤ P.w := hcount ▸ challenged_le h hi
            rw [hmunu, ← Nat.succ_mul]
            exact Nat.mul_le_mul_right _ (by omega)
          rw [if_pos hpos, hP.m_eq, readResponse_eq hP.gfqBits_pos (by omega) hmem]
          simp only [Option.bind_some]
          rw [readResponse_eq hP.gfqBits_pos (by omega) hmem, hsucc, List.range_succ,
            List.map_append, Nat.succ_mul, Nat.add_assoc]
          rfl
        · rw [if_neg hpos, Nat.add_zero] at hsucc
          rw [if_neg hpos, hsucc]
          rfl
  have hall : challenged h P.t = P.w := hcount
  have := hloop P.t (Nat.le_refl _)
  rw [hall, ← hmunu] at this
  rw [decodeResponses, bsInit, ← this, cursor_zero]

/-! ## Messages that read the same -/

/-- Where a response block starts. -/
def IsBlock (P : Params) (o : Nat) : Prop :=
  ∃ q, q < P.w ∧ (o = q * (matBytes P + matBytes P) ∨ o = q * (matBytes P + matBytes P) + matBytes P)

/-- `M'` reads like `M` for a verifier whose challenge is `h`, in a message of
    `len` bytes. -/
structure SameReads (P : Params) (h : Arr UInt8) (len : Nat) (M M' : Arr UInt8) : Prop where
  block : ∀ o, IsBlock P o → residues P M'.get o = residues P M.get o
  path : ∀ j, j < (visited P h).length * P.stSeedBytes →
    M'.get (munuBytes P + j) = M.get (munuBytes P + j)
  rest : ∀ i, munuBytes P + P.maxPathLen * P.stSeedBytes ≤ i → i < len → M'.get i = M.get i

theorem readBytes_mk {l : List UInt8} {off len : Nat} (h : off + len ≤ l.length) :
    readBytes (fun i => l[i]?) off len = some ((Arr.mk l).slice off len) := by
  have := readBytes_eq_some (fun i => l[i]?) off (l := (Arr.mk l).slice off len) fun j hj => by
    rw [Arr.length_slice] at hj
    have hget : l[off + j]? = some ((Arr.mk l).get (off + j)) := by
      rw [List.getElem?_eq_getElem (by omega), Arr.get_mk, List.getD_eq_getElem _ _ (by omega)]
    rw [hget]
    exact congrArg some (Arr.getD_slice (Arr.mk l) off len j hj).symm
  rwa [Arr.length_slice] at this

theorem readBytes_congr {mem mem' : Nat → Option UInt8} {off len : Nat}
    (h : ∀ j, j < len → mem' (off + j) = mem (off + j)) :
    readBytes mem' off len = readBytes mem off len := by
  unfold readBytes
  have hmem : ∀ j ∈ List.range len, mem' (off + j) = mem (off + j) :=
    fun j hj => h j (List.mem_range.mp hj)
  generalize List.range len = l at hmem
  induction l with
  | nil => rfl
  | cons x l ih =>
      rw [List.mapM_cons, List.mapM_cons, hmem x List.mem_cons_self,
        ih fun j hj => hmem j (List.mem_cons_of_mem _ hj)]

/-- Rebuilding the tree reads the seeds of the visited nodes and nothing else. -/
theorem visitAll_pathToStree_congr {mem mem' : Nat → Option UInt8} {salt : List UInt8}
    (nodes : List (Nat × Nat)) (st : PathState)
    (h : ∀ j, j < nodes.length * P.stSeedBytes → mem' (st.pos + j) = mem (st.pos + j)) :
    visitAll (visitNode P SHAKE256 .pathToStree mem' salt) nodes st
      = visitAll (visitNode P SHAKE256 .pathToStree mem salt) nodes st := by
  induction nodes generalizing st with
  | nil => rfl
  | cons node nodes ih =>
      rw [List.length_cons, Nat.succ_mul] at h
      unfold visitAll at ih ⊢
      rw [List.foldlM_cons, List.foldlM_cons, visitNode, visitNode,
        readBytes_congr fun j hj => h j (by omega)]
      simp only [bind_assoc, pure_bind]
      refine bind_congr fun seed => ih _ fun j hj => ?_
      simp only
      rw [Nat.add_assoc]
      exact h _ (by omega)

theorem visitAll_pathToStree_pos {mem : Nat → Option UInt8} {salt : List UInt8}
    {nodes : List (Nat × Nat)} {st st' : PathState}
    (h : (visitAll (visitNode P SHAKE256 .pathToStree mem salt) nodes st).Returns st') :
    st'.pos = st.pos + nodes.length * P.stSeedBytes := by
  induction nodes generalizing st with
  | nil =>
      rw [visitAll, List.foldlM_nil, Run.returns_pure] at h
      rw [h, List.length_nil, Nat.zero_mul, Nat.add_zero]
  | cons node nodes ih =>
      rw [visitAll, List.foldlM_cons, Run.returns_bind] at h
      obtain ⟨st1, h1, h2⟩ := h
      rw [visitNode, Run.returns_bind] at h1
      obtain ⟨seed, -, h1⟩ := h1
      rw [Run.returns_pure] at h1
      rw [ih h2, h1, List.length_cons, Nat.succ_mul]
      simp only
      omega

section

variable {h : Arr UInt8} {sm sm' : List UInt8}

theorem length_visited_mul_le (hP : P.Valid) (hcount : (excluded P h).length = P.w) :
    (visited P h).length * P.stSeedBytes ≤ P.maxPathLen * P.stSeedBytes := by
  have h1 := length_visited_le P h hP.height hcount
  rw [← hP.pathLen] at h1
  exact Nat.mul_le_mul_right _ (by omega)

theorem pathToStree_iff_visits (hP : P.Valid) (hcount : (excluded P h).length = P.w)
    (stree : Arr UInt8) (mem : Nat → Option UInt8) (pos : Nat) (salt : List UInt8)
    (st : PathState) :
    (pathToStree P SHAKE256 stree h mem pos salt).Returns st ↔
      (visitAll (visitNode P SHAKE256 .pathToStree mem salt) (visited P h)
        ⟨stree, Arr.empty, pos⟩).Returns st :=
  (walk_equiv P (hP.one_le_w.trans hP.w_le) (hP.height ▸ Nat.le_pow_clog (by decide) P.t)
    hP.one_le_w hcount _ _).returns st

/-- Every byte of the responses lies in a block. -/
theorem exists_block (hP : P.Square) {i : Nat} (hi : i < munuBytes P) :
    ∃ o x, IsBlock P o ∧ x < matBytes P ∧ i = o + x := by
  rw [munuBytes, matABytes_eq hP, matBBytes_eq, Nat.mul_comm] at hi
  obtain ⟨q, x, hq, hx, rfl⟩ := exists_flat_nat hi
  rw [Nat.mul_comm]
  by_cases hlow : x < matBytes P
  · exact ⟨_, x, ⟨q, hq, Or.inl rfl⟩, hlow, rfl⟩
  · exact ⟨_, x - matBytes P, ⟨q, hq, Or.inr rfl⟩, by omega, by omega⟩

theorem IsBlock.le (hP : P.Square) {o : Nat} (ho : IsBlock P o) : o + matBytes P ≤ munuBytes P := by
  obtain ⟨q, hq, ho⟩ := ho
  have := Nat.mul_le_mul_right (matBytes P + matBytes P) (Nat.succ_le_of_lt hq)
  rw [Nat.succ_mul] at this
  rw [munuBytes, matABytes_eq hP, matBBytes_eq]
  omega

/-- A response block of a message of at least `MEDS_SIG_BYTES` bytes. -/
theorem readResponse_mk (hP : P.Square) (hlen : munuBytes P ≤ sm.length) {o : Nat}
    (ho : IsBlock P o) :
    readResponse P (fun i => sm[i]?) P.n (cursor (munuBytes P) o P.gfqBits 0)
      = some (residues P (Arr.mk sm).get o,
        cursor (munuBytes P) (o + matBytes P) P.gfqBits 0) :=
  readResponse_eq hP.gfqBits_pos (ho.le hP) fun i hi => by
    rw [List.getElem?_eq_getElem (by omega), Arr.get_mk, List.getD_eq_getElem _ _ (by omega)]

theorem openResponse_congr (hP : P.Square) (hlen : munuBytes P ≤ sm.length)
    (hlen' : munuBytes P ≤ sm'.length)
    (hS : SameReads P h sm.length (Arr.mk sm) (Arr.mk sm')) (G : Arr UInt16) {q : Nat}
    (hq : q < P.w) :
    openResponse P (fun i => sm'[i]?) G
        (cursor (munuBytes P) (q * (matBytes P + matBytes P)) P.gfqBits 0)
      = openResponse P (fun i => sm[i]?) G
        (cursor (munuBytes P) (q * (matBytes P + matBytes P)) P.gfqBits 0) := by
  have h1 : IsBlock P (q * (matBytes P + matBytes P)) := ⟨q, hq, Or.inl rfl⟩
  have h2 : IsBlock P (q * (matBytes P + matBytes P) + matBytes P) := ⟨q, hq, Or.inr rfl⟩
  unfold openResponse
  rw [hP.m_eq, readResponse_mk hP hlen h1, readResponse_mk hP hlen' h1, hS.block _ h1]
  simp only [Run.ofOption_some, pure_bind]
  rw [readResponse_mk hP hlen h2, readResponse_mk hP hlen' h2, hS.block _ h2]

theorem openRound_congr (hP : P.Square) (hlen : munuBytes P ≤ sm.length)
    (hlen' : munuBytes P ≤ sm'.length)
    (hS : SameReads P h sm.length (Arr.mk sm) (Arr.mk sm'))
    (hcount : (excluded P h).length = P.w) (bsBuf : Nat → Arr UInt8) (G : Arr (Arr UInt16))
    (alpha : List UInt8) {i : Nat} (hi : i < P.t) {s : Option OpenState} (hs : OpenAt P h i s) :
    openRound P SHAKE256 (fun i => sm'[i]?) bsBuf G alpha h i s
      = openRound P SHAKE256 (fun i => sm[i]?) bsBuf G alpha h i s := by
  cases s with
  | none => rfl
  | some s =>
      unfold openRound
      simp only
      split
      case isTrue hpos =>
        have hsucc := challenged_succ h i
        rw [if_pos hpos] at hsucc
        have hle : challenged h (i + 1) ≤ P.w := hcount ▸ challenged_le h (show i + 1 ≤ P.t by omega)
        rw [show s.bs = _ from hs, openResponse_congr hP hlen hlen' hS _ (by omega)]
      case isFalse => rfl

/-- The verifier does the same on messages that read the same. -/
theorem cryptoSignOpen_congr (hP : P.Valid) (hsm : P.sigBytes ≤ sm.length)
    (hlen : sm'.length = sm.length) {ret : Int}
    (hparse : (parseHash P SHAKE256 ((Arr.mk sm).slice
      (P.sigBytes - P.digestBytes - P.stSaltBytes) P.digestBytes) Arr.empty P.t :
        Run Fault _).Returns (ret, h))
    (hS : SameReads P h sm.length (Arr.mk sm) (Arr.mk sm')) {bsBuf : Nat → Arr UInt8}
    {m : Arr UInt8} {mlen : Nat} {pk : List UInt8} {r : Int × Arr UInt8 × Nat}
    (hopen : (cryptoSignOpen P SHAKE256 bsBuf m mlen sm pk).Returns r) :
    (cryptoSignOpen P SHAKE256 bsBuf m mlen sm' pk).Returns r := by
  have hs1 : 1 ≤ P.s := Nat.le_of_succ_le hP.two_le_s
  have hsig := sigBytes_eq hP
  have hcount := (parseHash_returns hs1 hparse).weight
  have hvis := length_visited_mul_le hP hcount
  -- digest, salt and message lie behind the fields that may differ
  have hslice : ∀ off len, munuBytes P + P.maxPathLen * P.stSeedBytes ≤ off →
      off + len ≤ sm.length → (Arr.mk sm').slice off len = (Arr.mk sm).slice off len :=
    fun off len h1 h2 => Arr.slice_congr fun i hi => hS.rest _ (by omega) (by omega)
  have hget : ∀ {l : List UInt8} {i}, i < l.length → l[i]? = some ((Arr.mk l).get i) := by
    intro l i hi
    rw [List.getElem?_eq_getElem hi, Arr.get_mk, List.getD_eq_getElem _ _ hi]
  unfold cryptoSignOpen at hopen ⊢
  rw [Run.returns_bind] at hopen ⊢
  obtain ⟨G, hG, hopen⟩ := hopen
  refine ⟨G, hG, ?_⟩
  simp only at hopen ⊢
  rw [readBytes_mk (by omega), readBytes_mk (by omega)] at hopen
  rw [readBytes_mk (by omega), readBytes_mk (by omega), hslice _ _ (by omega) (by omega),
    hslice _ _ (by omega) (by omega)]
  simp only [Run.ofOption_some, pure_bind] at hopen ⊢
  rw [Run.returns_bind] at hopen ⊢
  obtain ⟨⟨ret', h'⟩, hparse', hopen⟩ := hopen
  obtain ⟨rfl, rfl⟩ := Prod.mk.inj (hparse'.unique hparse)
  refine ⟨_, hparse', ?_⟩
  simp only at hopen ⊢
  rw [Run.returns_bind] at hopen ⊢
  obtain ⟨st, hst, hopen⟩ := hopen
  refine ⟨st, ?_, ?_⟩
  · -- the path is read only as far as nodes are visited
    have hpath : ∀ j, j < (visited P h').length * P.stSeedBytes →
        sm'[munuBytes P + j]? = sm[munuBytes P + j]? := fun j hj => by
      rw [hget (by omega), hget (by omega), hS.path j hj]
    rw [pathToStree_iff_visits hP hcount] at hst ⊢
    rw [visitAll_pathToStree_congr (visited P h') _ hpath]
    exact hst
  · rw [Run.returns_bind] at hopen ⊢
    obtain ⟨s, hloop, hcheck⟩ := hopen
    have hmem : ∀ i, i < munuBytes P → sm[i]? = some ((Arr.mk sm).get i) :=
      fun i hi => hget (by omega)
    -- both loops go through the same states
    obtain ⟨s', hloop', rfl, -⟩ := Run.forUpM_simulation
      (g := openRound P SHAKE256 (fun i => sm'[i]?) bsBuf G
        ((Arr.mk sm).slice (P.sigBytes - P.stSaltBytes) P.stSaltBytes) h')
      (fun i s s' => s' = s ∧ OpenAt P h' i s) (Nat.zero_le P.t)
      (fun i s s' u _ hi hR hu => by
        obtain ⟨rfl, hat⟩ := hR
        refine ⟨u, ?_, rfl, (openRound_safe SHAKE256 hP.toSquare hcount hmem bsBuf G _ hi hat).2 _ hu⟩
        rw [openRound_congr hP.toSquare (by omega) (by omega) hS hcount bsBuf G _ hi hat]
        exact hu)
      ⟨rfl, by
        rw [OpenAt, challenged, List.range_zero, List.filter_nil, List.length_nil, Nat.zero_mul,
          cursor_zero]
        rfl⟩ hloop
    refine ⟨s', hloop', ?_⟩
    cases s' with
    | none => exact hcheck
    | some s' =>
        unfold openCheck at hcheck ⊢
        simp only [ulongSub, hlen, if_pos hsm] at hcheck ⊢
        rw [readBytes_mk (by omega)] at hcheck
        rw [readBytes_mk (by omega), hslice _ _ (by omega) (by omega)]
        exact hcheck

/-- What is decoded from a message that is long enough. -/
def decoded (P : Params) (h : Arr UInt8) (sm : List UInt8) : Decoded where
  responses := (List.range P.w).map (responsePair P (Arr.mk sm).get)
  path := (Arr.mk sm).slice (munuBytes P) ((visited P h).length * P.stSeedBytes)
  digest := (Arr.mk sm).slice (P.sigBytes - P.digestBytes - P.stSaltBytes) P.digestBytes
  alpha := (Arr.mk sm).slice (P.sigBytes - P.stSaltBytes) P.stSaltBytes
  msg := (Arr.mk sm).slice P.sigBytes (sm.length - P.sigBytes)

theorem decode_returns (hP : P.Valid) (hsm : P.sigBytes ≤ sm.length) {ret : Int}
    (hparse : (parseHash P SHAKE256 ((Arr.mk sm).slice
      (P.sigBytes - P.digestBytes - P.stSaltBytes) P.digestBytes) Arr.empty P.t :
        Run Fault _).Returns (ret, h)) :
    (decode P SHAKE256 sm).Returns (h, decoded P h sm) := by
  have hs1 : 1 ≤ P.s := Nat.le_of_succ_le hP.two_le_s
  have hsig := sigBytes_eq hP
  have hcount := (parseHash_returns hs1 hparse).weight
  have hvis := length_visited_mul_le hP hcount
  have hfit : munuBytes P + P.maxPathLen * P.stSeedBytes ≤ sm.length := by omega
  obtain ⟨st, hst⟩ := pathToStree_exists hP hcount hfit
    (Arr.replicate (P.stSeedBytes * P.seedTreeSize) 0)
    ((Arr.mk sm).slice (P.sigBytes - P.stSaltBytes) P.stSaltBytes)
  have hpos := visitAll_pathToStree_pos ((pathToStree_iff_visits hP hcount _ _ _ _ _).mp hst)
  simp only at hpos
  unfold decode
  simp only
  rw [readBytes_mk (by omega), readBytes_mk (by omega)]
  simp only [Run.ofOption_some, pure_bind, Run.returns_bind]
  refine ⟨_, hparse, st, hst, ?_⟩
  rw [hpos, Nat.add_sub_cancel_left, readBytes_mk (by omega),
    decodeResponses_eq hP.toSquare hcount (d := (Arr.mk sm).get) fun i hi => by
      rw [List.getElem?_eq_getElem (by omega), Arr.get_mk, List.getD_eq_getElem _ _ (by omega)],
    ulongSub, if_pos hsm, readBytes_mk (by omega)]
  simp only [Run.ofOption_some, Run.returns_pure, exists_eq_left]
  rfl

/-- Messages that read the same decode to the same content. -/
theorem decoded_congr (hP : P.Valid) (hsm : P.sigBytes ≤ sm.length) (hlen : sm'.length = sm.length)
    (hS : SameReads P h sm.length (Arr.mk sm) (Arr.mk sm')) : decoded P h sm' = decoded P h sm := by
  have hsig := sigBytes_eq hP
  have hslice : ∀ off len, munuBytes P + P.maxPathLen * P.stSeedBytes ≤ off →
      off + len ≤ sm.length → (Arr.mk sm').slice off len = (Arr.mk sm).slice off len :=
    fun off len h1 h2 => Arr.slice_congr fun i hi => hS.rest _ (by omega) (by omega)
  have hresp : (List.range P.w).map (responsePair P (Arr.mk sm').get)
      = (List.range P.w).map (responsePair P (Arr.mk sm).get) :=
    List.map_congr_left fun q hq => by
      have hq := List.mem_range.mp hq
      rw [responsePair, responsePair, hS.block _ ⟨q, hq, Or.inl rfl⟩,
        hS.block _ ⟨q, hq, Or.inr rfl⟩]
  simp only [decoded, Decoded.mk.injEq]
  refine ⟨hresp, Arr.slice_congr fun j hj => hS.path j hj, hslice _ _ (by omega) (by omega),
    hslice _ _ (by omega) (by omega), ?_⟩
  rw [hlen]
  exact hslice _ _ (by omega) (by omega)

end

/-! ## The re-encoding -/

/-- The two blocks of a response. -/
def pairBlocks (P : Params) (r : Arr UInt16 × Arr UInt16) : List (List Nat) :=
  [entries r.1 0 0 (P.n * P.n), entries r.2 0 0 (P.n * P.n)]

theorem length_pairBytes (P : Params) (r : Arr UInt16 × Arr UInt16) :
    ((pairBlocks P r).flatMap (packBytes P.gfqBits)).length = matBytes P + matBytes P := by
  rw [length_packBlocks]
  simp [pairBlocks, blocksLen, matBytes]

theorem foldl_writeResponse (hP : P.Square) (l : List (Arr UInt16 × Arr UInt16))
    (s : Arr UInt8 × BitstreamT) :
    l.foldl (writeResponse P) s = (l.flatMap (pairBlocks P)).foldl (putBlock P.gfqBits) s := by
  rw [List.foldl_flatMap]
  refine congrArg (fun f => List.foldl f s l) ?_
  funext s r
  simp only [writeResponse, writeEntries_eq, hP.m_eq, pairBlocks, List.foldl_cons, List.foldl_nil]
  rfl

section

variable [hprime : Fact P.p.Prime]

theorem residues_reduced (hP : P.Square) (d : Nat → UInt8) (o : Nat) :
    Reduced P (residues P d o) (P.n * P.n) := by
  intro j hj
  have hlt := Nat.mod_lt (unpackAt d o P.gfqBits j) hprime.out.pos
  rw [residues_get P d o hj, toNat_ofNat_of_lt hP.p_le_16 hlt]
  exact hlt

theorem residues_toNat (hP : P.Square) (d : Nat → UInt8) (o : Nat) {j : Nat} (hj : j < P.n * P.n) :
    ((residues P d o).get j).toNat = unpackAt d o P.gfqBits j % P.p := by
  rw [residues_get P d o hj,
    toNat_ofNat_of_lt hP.p_le_16 (Nat.mod_lt _ hprime.out.pos)]

theorem getD_residues (hP : P.Square) (d : Nat → UInt8) (o : Nat) {j : Nat} (hj : j < P.n * P.n) :
    (entries (residues P d o) 0 0 (P.n * P.n)).getD j 0 = unpackAt d o P.gfqBits j % P.p := by
  have := getD_entries (residues P d o) 0 (Nat.zero_le j) hj
  rwa [Nat.sub_zero, Nat.zero_add, residues_toNat hP d o hj] at this

/-- Bytes of the block at `o` once its fields are reduced. -/
def blockBytes (P : Params) (d : Nat → UInt8) (o : Nat) : List UInt8 :=
  packBytes P.gfqBits (entries (residues P d o) 0 0 (P.n * P.n))

omit hprime in
@[simp] theorem length_blockBytes (P : Params) (d : Nat → UInt8) (o : Nat) :
    (blockBytes P d o).length = matBytes P := by
  rw [blockBytes, length_packBytes, length_entries]
  rfl

/-- The blocks of all responses. -/
def decodedBlocks (P : Params) (d : Nat → UInt8) : List (List Nat) :=
  ((List.range P.w).map (responsePair P d)).flatMap (pairBlocks P)

omit hprime in
theorem decodedBytes_eq (P : Params) (d : Nat → UInt8) :
    (decodedBlocks P d).flatMap (packBytes P.gfqBits)
      = (List.range' 0 P.w).flatMap fun q =>
          (pairBlocks P (responsePair P d q)).flatMap (packBytes P.gfqBits) := by
  rw [decodedBlocks, List.flatMap_map, List.flatMap_assoc, List.range_eq_range']

omit hprime in
theorem length_decodedBytes (hP : P.Square) (d : Nat → UInt8) :
    ((decodedBlocks P d).flatMap (packBytes P.gfqBits)).length = munuBytes P := by
  rw [decodedBytes_eq, length_flatMap_range' (c := matBytes P + matBytes P)
    fun q _ _ => length_pairBytes P _, munuBytes, matABytes_eq hP, matBBytes_eq, Nat.mul_comm]

omit hprime in
/-- The response bytes of an encoding, block by block. -/
theorem getD_decodedBytes (P : Params) (d : Nat → UInt8) {o x : Nat} (ho : IsBlock P o)
    (hx : x < matBytes P) :
    ((decodedBlocks P d).flatMap (packBytes P.gfqBits)).getD (o + x) default
      = (blockBytes P d o).getD x default := by
  have hpair : ∀ q, (pairBlocks P (responsePair P d q)).flatMap (packBytes P.gfqBits)
      = blockBytes P d (q * (matBytes P + matBytes P))
        ++ blockBytes P d (q * (matBytes P + matBytes P) + matBytes P) := fun q => by
    simp only [pairBlocks, responsePair, blockBytes, List.flatMap_cons, List.flatMap_nil,
      List.append_nil]
  obtain ⟨q, hq, ho⟩ := ho
  rw [decodedBytes_eq]
  rcases ho with rfl | rfl
  · rw [Nat.mul_comm q, getD_flatMap_range' (fun q _ _ => length_pairBytes P _) hq (by omega),
      Nat.zero_add, hpair, List.getD_append _ _ _ _ (by rw [length_blockBytes]; exact hx),
      Nat.mul_comm q]
  · rw [Nat.mul_comm q, Nat.add_assoc, getD_flatMap_range' (fun q _ _ => length_pairBytes P _) hq
      (by omega), Nat.zero_add, hpair, List.getD_append_right _ _ _ _ (by
        rw [length_blockBytes]; omega), length_blockBytes, Nat.add_sub_cancel_left, Nat.mul_comm q]

/-- The re-encoding lays out its parts like `crypto_sign`, and clears the rest of
    the path field. -/
theorem encode_layout (hP : P.Valid) (d : Nat → UInt8) (path digest alpha msg : List UInt8)
    (hpath : path.length ≤ P.maxPathLen * P.stSeedBytes)
    (halpha : alpha.length = P.stSaltBytes) (hdigest : digest.length = P.digestBytes) :
    ∃ M : Arr UInt8,
      encode P ⟨(List.range P.w).map (responsePair P d), path, digest, alpha, msg⟩
        = M.slice 0 (P.sigBytes + msg.length) ∧
      SmLayout P (decodedBlocks P d) path digest alpha msg M ∧
      ∀ j, path.length ≤ j → j < P.maxPathLen * P.stSeedBytes → M.get (munuBytes P + j) = 0 := by
  have hsig := sigBytes_eq hP
  have hblen := length_decodedBytes hP.toSquare d
  -- the residues fit into their fields
  have hlt : ∀ l ∈ decodedBlocks P d, ∀ v ∈ l, v < 2 ^ P.gfqBits := by
    intro l hl
    obtain ⟨r, hr, hl⟩ := List.mem_flatMap.mp hl
    obtain ⟨q, -, rfl⟩ := List.mem_map.mp hr
    simp only [pairBlocks, responsePair, List.mem_cons, List.not_mem_nil, or_false] at hl
    rcases hl with rfl | rfl
    · exact (residues_reduced hP.toSquare d _).lt_of_mem hP.toSquare
    · exact (residues_reduced hP.toSquare d _).lt_of_mem hP.toSquare
  obtain ⟨hget, -⟩ := putBlocks_spec
    ((Arr.replicate (P.sigBytes + msg.length) (0 : UInt8)).blit (munuBytes P) path) (munuBytes P)
    (o := 0) (w := P.gfqBits) (L := decodedBlocks P d) hP.gfqBits_pos hlt
    (by rw [← length_packBlocks, hblen, Nat.zero_add])
    (Or.inr fun i _ hi => by
      rw [← length_packBlocks, hblen, Nat.zero_add] at hi
      rw [Arr.get_blit_of_lt _ _ hi]
      exact Arr.get_replicate _ _)
  rw [cursor_zero, decodedBlocks, ← foldl_writeResponse hP.toSquare] at hget
  refine ⟨_, rfl, smLayout_of_blits hsig hblen hpath halpha hdigest hget, fun j h1 h2 => ?_⟩
  -- nothing else is written into the path field
  rw [Arr.get_blit_of_lt _ _ (by omega), Arr.get_blit_of_lt _ _ (by omega),
    Arr.get_blit_of_lt _ _ (by omega)]
  refine (hget _).trans ?_
  rw [Arr.get_blit_of_ge _ _ (by change _ + List.length ((decodedBlocks P d).flatMap _) ≤ _; omega),
    Arr.get_blit_of_ge _ _ (by omega)]
  exact Arr.get_replicate _ _

/-! ## The three freedoms -/

/-- The block at `o` holds the packing of its residues if and only if its fields
    are reduced and the bits behind them are zero. -/
theorem blockBytes_eq_iff (hP : P.Square) (d : Nat → UInt8) (o : Nat) :
    (∀ x, x < matBytes P → d (o + x) = (blockBytes P d o).getD x default) ↔
      (∀ j, j < P.n * P.n → unpackAt d o P.gfqBits j < P.p) ∧
        ∀ b, P.gfqBits * (P.n * P.n) ≤ b → b < 8 * matBytes P → bitAt d (8 * o + b) = false := by
  have hw := hP.gfqBits_pos
  have hlen := length_entries (residues P d o) 0 0 (P.n * P.n)
  rw [Nat.sub_zero] at hlen
  constructor
  · intro hd
    -- a packed block has reduced fields and zeros behind them
    refine ⟨fun j hj => ?_, fun b hb hb8 => ?_⟩
    · have hval := getD_residues hP d o hj
      have hmod := Nat.mod_lt (unpackAt d o P.gfqBits j) hprime.out.pos
      have hunpack := unpackAt_packBytes (d := d) (o := o) (w := P.gfqBits)
        (l := entries (residues P d o) 0 0 (P.n * P.n)) (by rw [hlen]; exact hd) (j := j)
        (by rw [hlen]; exact hj) (by rw [hval]; exact Nat.lt_of_lt_of_le hmod hP.p_le)
      rw [hunpack, hval]
      exact hmod
    · have hx : b / 8 < matBytes P := by omega
      have hbit := testBit_packBytes P.gfqBits (entries (residues P d o) 0 0 (P.n * P.n))
        (j := b / 8) (k := b % 8) (by rw [hlen]; exact hx) (Nat.mod_lt _ (by decide))
      rw [show 8 * o + b = 8 * (o + b / 8) + b % 8 by omega,
        bitAt_byte _ (Nat.mod_lt _ (by decide)), hd _ hx, blockBytes, hbit, Nat.div_add_mod, packBit,
        hlen, decide_eq_false (by omega), Bool.false_and]
  · rintro ⟨hred, hpad⟩ x hx
    -- bit by bit: inside a field, or behind the last one
    apply byte_ext
    intro k hk
    rw [blockBytes, testBit_packBytes _ _ (by rw [hlen]; exact hx) hk, ← bitAt_byte d hk,
      show 8 * (o + x) + k = 8 * o + (8 * x + k) by omega, packBit, hlen]
    generalize hb : 8 * x + k = b
    by_cases hin : b < P.gfqBits * (P.n * P.n)
    · have hj : b / P.gfqBits < P.n * P.n := (Nat.div_lt_iff_lt_mul hw).mpr (by rwa [Nat.mul_comm])
      rw [getD_residues hP d o hj, Nat.mod_eq_of_lt (hred _ hj), decide_eq_true hin, Bool.true_and,
        unpackAt, Nat.testBit_ofBits_lt _ _ (Nat.mod_lt _ hw)]
      simp only [Nat.add_assoc, Nat.div_add_mod]
    · rw [hpad b (by omega) (by omega), decide_eq_false hin, Bool.false_and]

/-- The re-encoded block reads as the block it came from. -/
theorem residues_of_blockBytes (hP : P.Square) {d e : Nat → UInt8} {o : Nat}
    (he : ∀ x, x < matBytes P → e (o + x) = (blockBytes P d o).getD x default) :
    residues P e o = residues P d o := by
  have hlen := length_entries (residues P d o) 0 0 (P.n * P.n)
  rw [Nat.sub_zero] at hlen
  refine residues_congr fun j hj => ?_
  have hval := getD_residues hP d o hj
  have hmod := Nat.mod_lt (unpackAt d o P.gfqBits j) hprime.out.pos
  have hunpack := unpackAt_packBytes (d := e) (o := o) (w := P.gfqBits)
    (l := entries (residues P d o) 0 0 (P.n * P.n)) (by rw [hlen]; exact he) (j := j)
    (by rw [hlen]; exact hj) (by rw [hval]; exact Nat.lt_of_lt_of_le hmod hP.p_le)
  rw [hunpack, hval, Nat.mod_mod]

end

/-- A signed message in which no field, no padding bit and no unused byte of the
    path field is anything but what `crypto_sign` writes there. -/
structure Tight (P : Params) (h : Arr UInt8) (sm : List UInt8) : Prop where
  reduced : ∀ o j, IsBlock P o → j < P.n * P.n → unpackAt (Arr.mk sm).get o P.gfqBits j < P.p
  padding : ∀ o b, IsBlock P o → P.gfqBits * (P.n * P.n) ≤ b → b < 8 * matBytes P →
    bitAt (Arr.mk sm).get (8 * o + b) = false
  path : ∀ j, (visited P h).length * P.stSeedBytes ≤ j → j < P.maxPathLen * P.stSeedBytes →
    (Arr.mk sm).get (munuBytes P + j) = 0

/-- `M` holds the re-encoding of `sm`. -/
structure Reencoded (P : Params) (h : Arr UInt8) (sm : List UInt8) (M : Arr UInt8) : Prop where
  block : ∀ o x, IsBlock P o → x < matBytes P →
    M.get (o + x) = (blockBytes P (Arr.mk sm).get o).getD x default
  path : ∀ j, j < (visited P h).length * P.stSeedBytes →
    M.get (munuBytes P + j) = (Arr.mk sm).get (munuBytes P + j)
  tail : ∀ j, (visited P h).length * P.stSeedBytes ≤ j → j < P.maxPathLen * P.stSeedBytes →
    M.get (munuBytes P + j) = 0
  rest : ∀ i, munuBytes P + P.maxPathLen * P.stSeedBytes ≤ i → i < sm.length →
    M.get i = (Arr.mk sm).get i

section

variable [hprime : Fact P.p.Prime] {h : Arr UInt8} {sm : List UInt8}

theorem encode_decoded (hP : P.Valid) (hsm : P.sigBytes ≤ sm.length)
    (hcount : (excluded P h).length = P.w) :
    ∃ M, encode P (decoded P h sm) = M.slice 0 sm.length ∧ Reencoded P h sm M := by
  have hsig := sigBytes_eq hP
  have hvis := length_visited_mul_le hP hcount
  obtain ⟨M, hM, hlay, htail⟩ := encode_layout hP (Arr.mk sm).get (decoded P h sm).path
    (decoded P h sm).digest (decoded P h sm).alpha (decoded P h sm).msg
    (by rwa [decoded, Arr.length_slice]) (Arr.length_slice _ _ _) (Arr.length_slice _ _ _)
  have hmsg : (decoded P h sm).msg.length = sm.length - P.sigBytes := Arr.length_slice _ _ _
  have hpath : (decoded P h sm).path.length = (visited P h).length * P.stSeedBytes :=
    Arr.length_slice _ _ _
  rw [hmsg, Nat.add_sub_cancel' hsm] at hM
  rw [hpath] at htail
  refine ⟨M, hM, fun o x ho hx => ?_, fun j hj => ?_, htail, fun i h1 h2 => ?_⟩
  · have := ho.le hP.toSquare
    rw [hlay.munu _ (by omega), getD_decodedBytes P _ ho hx]
  · rw [hlay.path j (by rwa [hpath]), decoded, Arr.getD_slice _ _ _ _ hj]
  · by_cases hd : i < P.sigBytes - P.stSaltBytes
    · have := hlay.digest (i - (P.sigBytes - P.digestBytes - P.stSaltBytes)) (by omega)
      rwa [decoded, Arr.getD_slice _ _ _ _ (by omega), Nat.add_sub_cancel' (by omega)] at this
    · by_cases ha : i < P.sigBytes
      · have := hlay.alpha (i - (P.sigBytes - P.stSaltBytes)) (by omega)
        rwa [decoded, Arr.getD_slice _ _ _ _ (by omega), Nat.add_sub_cancel' (by omega)] at this
      · have := hlay.msg (i - P.sigBytes) (by omega)
        rwa [decoded, Arr.getD_slice _ _ _ _ (by omega), Nat.add_sub_cancel' (by omega)] at this

omit hprime in
theorem get_mk_slice (M : Arr UInt8) {i len : Nat} (hi : i < len) :
    (Arr.mk (M.slice 0 len)).get i = M.get i := by
  rw [Arr.get_mk, Arr.getD_slice _ _ _ _ hi, Nat.zero_add]

theorem Reencoded.sameReads (hP : P.Valid) (hsm : P.sigBytes ≤ sm.length)
    (hcount : (excluded P h).length = P.w) {M : Arr UInt8} (hM : Reencoded P h sm M) :
    SameReads P h sm.length (Arr.mk sm) (Arr.mk (M.slice 0 sm.length)) := by
  have hsig := sigBytes_eq hP
  have hvis := length_visited_mul_le hP hcount
  refine ⟨fun o ho => residues_of_blockBytes hP.toSquare fun x hx => ?_, fun j hj => ?_,
    fun i h1 h2 => ?_⟩
  · have := ho.le hP.toSquare
    rw [get_mk_slice M (by omega), hM.block o x ho hx]
  · rw [get_mk_slice M (by omega), hM.path j hj]
  · rw [get_mk_slice M h2, hM.rest i h1 h2]

/-- The re-encoding is the message itself if and only if the message is tight. -/
theorem Reencoded.eq_iff (hP : P.Valid) (hsm : P.sigBytes ≤ sm.length)
    (hcount : (excluded P h).length = P.w) {M : Arr UInt8} (hM : Reencoded P h sm M) :
    M.slice 0 sm.length = sm ↔ Tight P h sm := by
  have hsig := sigBytes_eq hP
  have hvis := length_visited_mul_le hP hcount
  constructor
  · intro heq
    have hcell : ∀ i, i < sm.length → (Arr.mk sm).get i = M.get i := fun i hi => by
      rw [← get_mk_slice M hi, heq]
    have hiff := fun o (ho : IsBlock P o) =>
      (blockBytes_eq_iff hP.toSquare (Arr.mk sm).get o).mp fun x hx => by
        have := ho.le hP.toSquare
        rw [hcell _ (by omega), hM.block o x ho hx]
    refine ⟨fun o j ho hj => (hiff o ho).1 j hj, fun o b ho h1 h2 => (hiff o ho).2 b h1 h2,
      fun j h1 h2 => ?_⟩
    rw [hcell _ (by omega)]
    exact hM.tail j h1 h2
  · intro ht
    have hcell : ∀ i, i < sm.length → M.get i = (Arr.mk sm).get i := by
      intro i hi
      -- the cell lies in a block, in the path, behind the path, or behind the field
      by_cases h1 : i < munuBytes P
      · obtain ⟨o, x, ho, hx, rfl⟩ := exists_block hP.toSquare h1
        rw [hM.block o x ho hx, (blockBytes_eq_iff hP.toSquare (Arr.mk sm).get o).mpr
          ⟨fun j hj => ht.reduced o j ho hj, fun b hb => ht.padding o b ho hb⟩ x hx]
      · obtain ⟨j, rfl⟩ : ∃ j, i = munuBytes P + j := ⟨i - munuBytes P, by omega⟩
        by_cases h2 : j < (visited P h).length * P.stSeedBytes
        · exact hM.path j h2
        · by_cases h3 : j < P.maxPathLen * P.stSeedBytes
          · rw [ht.path j (by omega) h3]
            exact hM.tail j (by omega) h3
          · exact hM.rest _ (by omega) hi
    apply List.ext_getElem (Arr.length_slice _ _ _)
    intro i h1 h2
    rw [Arr.getElem_slice, Nat.zero_add, hcell i h2, Arr.get_mk, List.getD_eq_getElem _ _ h2]

end

/-- An accepted signed message decodes to the same content as its re-encoding,
    which is accepted too; and the two are the same bytes if and only if the
    response fields are reduced, the bits behind them zero and the unused part of
    the path field zero. -/
theorem cryptoSignOpen_reencode (hP : P.Valid) (hfields : 0 < P.digestBytes + P.stSaltBytes)
    {bsBuf : Nat → Arr UInt8} {m m' : Arr UInt8} {mlen mlen' : Nat} {sm pk : List UInt8}
    (hopen : (cryptoSignOpen P SHAKE256 bsBuf m mlen sm pk).Returns (0, m', mlen')) :
    ∃ h D, (decode P SHAKE256 sm).Returns (h, D) ∧
      (decode P SHAKE256 (encode P D)).Returns (h, D) ∧
      (cryptoSignOpen P SHAKE256 bsBuf m mlen (encode P D) pk).Returns (0, m', mlen') ∧
      (encode P D = sm ↔ Tight P h sm) := by
  have : Fact P.p.Prime := ⟨hP.prime⟩
  have hsig := sigBytes_eq hP
  have hsm : P.sigBytes ≤ sm.length :=
    Nat.le_of_not_lt fun hlt => cryptoSignOpen_short hP hfields hlt bsBuf m mlen _ hopen
  -- a run that accepts has parsed the challenge
  obtain ⟨ret, h, hparse⟩ : ∃ ret h, (parseHash P SHAKE256 ((Arr.mk sm).slice
      (P.sigBytes - P.digestBytes - P.stSaltBytes) P.digestBytes) Arr.empty P.t :
        Run Fault _).Returns (ret, h) := by
    have hrun := hopen
    unfold cryptoSignOpen at hrun
    rw [Run.returns_bind] at hrun
    obtain ⟨G, -, hrun⟩ := hrun
    simp only at hrun
    rw [readBytes_mk (by omega), Run.ofOption_some, pure_bind, Run.returns_bind] at hrun
    obtain ⟨⟨ret, h⟩, hparse, -⟩ := hrun
    exact ⟨ret, h, hparse⟩
  have hcount := (parseHash_returns (Nat.le_of_succ_le hP.two_le_s) hparse).weight
  obtain ⟨M, hM, hre⟩ := encode_decoded hP hsm hcount
  have hlen : (M.slice 0 sm.length).length = sm.length := Arr.length_slice _ _ _
  have hS := hre.sameReads hP hsm hcount
  refine ⟨h, decoded P h sm, decode_returns hP hsm hparse, ?_⟩
  rw [hM]
  refine ⟨?_, cryptoSignOpen_congr hP hsm hlen hparse hS hopen, hre.eq_iff hP hsm hcount⟩
  -- the re-encoding keeps the digest, so its challenge is the same
  have hdigest : (Arr.mk (M.slice 0 sm.length)).slice
      (P.sigBytes - P.digestBytes - P.stSaltBytes) P.digestBytes
      = (Arr.mk sm).slice (P.sigBytes - P.digestBytes - P.stSaltBytes) P.digestBytes :=
    Arr.slice_congr fun i hi => hS.rest _ (by omega) (by omega)
  rw [← decoded_congr hP hsm hlen hS]
  exact decode_returns hP (hsm.trans_eq hlen.symm) (by rwa [hdigest])

/-- Whatever is accepted is the encoding of its content. -/
def AcceptedCanonical (P : Params) (SHAKE256 : Shake) : Prop :=
  ∀ bsBuf m m' mlen mlen' sm pk,
    (cryptoSignOpen P SHAKE256 bsBuf m mlen sm pk).Returns (0, m', mlen') →
    ∀ h D, (decode P SHAKE256 sm).Returns (h, D) → encode P D = sm

/-- An honest signed message of `tiny` with the entry 0 of `mu` written as 3. -/
def tinyUnreduced : List UInt8 := [1, 3, 1, 2, 0, 1, 1, 1, 20, 24, 17, 1, 2, 3]

theorem tinyUnreduced_open :
    (cryptoSignOpen tiny toyShake (fun _ => Arr.empty) Arr.empty 0 tinyUnreduced [1, 2, 2]).Returns
      (0, ⟨[1, 2, 3]⟩, 3) :=
  Run.returns_of_run (n := 60) (by decide +kernel)

theorem not_acceptedCanonical : ¬ AcceptedCanonical tiny toyShake := by
  intro hall
  have hdec : (decode tiny toyShake tinyUnreduced).Returns (⟨[1, 0]⟩,
      { responses := [(⟨[1, 0, 1, 2]⟩, ⟨[0, 1, 1, 1]⟩)]
        path := [20]
        digest := [24]
        alpha := [17]
        msg := [1, 2, 3] }) :=
    Run.returns_of_run (n := 60) (by decide +kernel)
  exact absurd (hall _ _ _ _ _ _ _ tinyUnreduced_open _ _ hdec) (by decide)

theorem cryptoSignOpen_reencode_tiny :
    ∃ h D, (decode tiny toyShake tinyUnreduced).Returns (h, D) ∧
      (decode tiny toyShake (encode tiny D)).Returns (h, D) ∧
      (cryptoSignOpen tiny toyShake (fun _ => Arr.empty) Arr.empty 0 (encode tiny D)
        [1, 2, 2]).Returns (0, ⟨[1, 2, 3]⟩, 3) ∧
      (encode tiny D = tinyUnreduced ↔ Tight tiny h tinyUnreduced) :=
  cryptoSignOpen_reencode tiny_valid (by decide) tinyUnreduced_open

end Meds.Ref
