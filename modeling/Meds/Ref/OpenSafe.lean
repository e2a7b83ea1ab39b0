/-
  Meds.Ref.OpenSafe

  Which bytes of the signed message `crypto_sign_open` reads.

  The sampling loops and the challenge never touch it.  The path walk reads at
  most `MEDS_max_path_len` seeds, the responses one block for each of the w
  challenged rounds; so everything read lies below `MEDS_SIG_BYTES`, except for
  the message, whose length is an unsigned difference.
-/

import Meds.Ref.Completeness

namespace Meds.Ref

open Meds.Core

variable {P : Params} {SHAKE256 : Shake} {ε : Type}

/-! ## Sampling never faults -/

theorem rndGF_safe (shake : KeccakState) : (rndGF P SHAKE256 shake : Run ε _).Safe := by
  refine Run.loop_safe (I := fun _ => True) (fun _ _ _ _ => trivial) ?_ trivial
  rintro ⟨val, shake⟩ -
  dsimp only
  split <;> exact Run.safe_pure _

theorem rndEntry_safe (Mc r c : Nat) (s : Arr UInt16 × KeccakState) :
    (rndEntry P SHAKE256 Mc r c s : Run ε _).Safe :=
  Run.safe_bind (rndGF_safe s.2) fun _ _ => Run.safe_pure _

/-- Drawing all entries of some columns. -/
theorem rndFill_safe (Mr lo Mc : Nat) (s : Arr UInt16 × KeccakState) :
    (forUpM 0 Mr (fun r s => forUpM lo Mc (fun c s => rndEntry P SHAKE256 Mc r c s) s) s :
      Run ε _).Safe :=
  Run.forUpM_safe (fun _ _ => True) (fun _ _ _ _ _ _ _ => trivial)
    (fun r _ _ _ _ => Run.forUpM_safe (fun _ _ => True) (fun _ _ _ _ _ _ _ => trivial)
      (fun c s _ _ _ => rndEntry_safe Mc r c s) trivial) trivial

theorem rndSysMat_safe (Mr Mc : Nat) (seed : List UInt8) :
    (rndSysMat P SHAKE256 Mr Mc seed : Run ε _).Safe :=
  Run.safe_bind (rndFill_safe Mr Mr Mc _) fun _ _ => Run.safe_pure _

theorem rndInvMatrix_safe (Mr Mc : Nat) (seed : List UInt8) :
    (rndInvMatrix P SHAKE256 Mr Mc seed : Run ε _).Safe := by
  refine Run.loop_safe (I := fun _ => True) (fun _ _ _ _ => trivial) (fun s _ => ?_) trivial
  refine Run.safe_bind (rndFill_safe Mr 0 Mc s) fun s' _ => ?_
  dsimp only
  split <;> exact Run.safe_pure _

theorem parseVal_safe (shake : KeccakState) : (parseVal P SHAKE256 shake : Run ε _).Safe := by
  refine Run.loop_safe (I := fun _ => True) (fun _ _ _ _ => trivial) ?_ trivial
  rintro ⟨val, shake⟩ -
  dsimp only
  split <;> exact Run.safe_pure _

theorem parseRound_safe (s : Nat × Arr UInt8 × KeccakState) :
    (parseRound P SHAKE256 s : Run ε _).Safe := by
  unfold parseRound
  dsimp only
  split
  · split
    · exact Run.safe_pure _
    · split
      · exact Run.safe_pure _
      · exact Run.safe_bind (parseVal_safe _) fun _ _ => Run.safe_pure _
  · exact Run.safe_pure _

theorem parseHash_safe (digest : List UInt8) (h : Arr UInt8) (lenH : Nat) :
    (parseHash P SHAKE256 digest h lenH : Run ε _).Safe := by
  unfold parseHash
  split
  · exact Run.safe_pure _
  · exact Run.safe_bind
      (Run.loop_safe (I := fun _ => True) (fun _ _ _ _ => trivial) (fun s _ => parseRound_safe s)
        trivial) fun _ _ => Run.safe_pure _

theorem commitLoop_safe (G0 : Arr UInt16) (alpha : List UInt8) (i : Nat) (stree : Arr UInt8) :
    (Run.loop (commitAttempt P SHAKE256 G0 alpha i) stree : Run ε _).Safe := by
  refine Run.loop_safe (I := fun _ => True) (fun _ _ _ _ => trivial) (fun s _ => ?_) trivial
  refine Run.safe_bind (rndInvMatrix_safe _ _ _) fun A _ => ?_
  refine Run.safe_bind (rndInvMatrix_safe _ _ _) fun B _ => ?_
  dsimp only
  split <;> exact Run.safe_pure _

/-- A try of the key generator. -/
theorem keypairAttempt_safe (G0 : Arr UInt16) (sigma : List UInt8) :
    (keypairAttempt P SHAKE256 G0 sigma : Run ε _).Safe := by
  refine Run.safe_bind (rndInvMatrix_safe _ _ _) fun Ti _ => ?_
  refine Run.safe_bind (rndGF_safe _) fun ⟨Amm, _⟩ _ => ?_
  dsimp only
  split
  · exact Run.safe_pure _
  split
  · exact Run.safe_pure _
  split
  · exact Run.safe_pure _
  split <;> exact Run.safe_pure _

theorem keypairMatrices_safe (delta : List UInt8) :
    (keypairMatrices P SHAKE256 delta : Run ε _).Safe := by
  refine Run.safe_bind (rndSysMat_safe _ _ _) fun G0 _ => Run.safe_bind ?_ fun _ _ => Run.safe_pure _
  refine Run.forUpM_safe (fun _ _ => True) (fun _ _ _ _ _ _ _ => trivial) (fun i s _ _ _ => ?_) trivial
  exact Run.safe_bind (Run.loop_safe (I := fun _ => True) (fun _ _ _ _ => trivial)
    (fun sigma _ => keypairAttempt_safe G0 sigma) trivial) fun _ _ => Run.safe_pure _

/-! ## The keys -/

/-- Reading the generators stays inside the public key. -/
theorem readPkLoop_returns (hP : P.Square) {mem : Nat → Option UInt8} {d : Nat → UInt8}
    {bufLen : Nat} (hfit : byteLen (P.gfqBits * P.pkEntries) * (P.s - 1) ≤ bufLen)
    (hmem : ∀ j, j < bufLen → mem j = some (d j)) (G0 : Arr UInt16) {hi : Nat} (h1 : 1 ≤ hi)
    (hhi : hi ≤ P.s) :
    ∃ G, forUpM 1 hi
          (fun i (s : Arr (Arr UInt16) × BitstreamT) => do
            let (Gi, bs) ← readPkMatrix P mem s.2
            pure (s.1.set i Gi, bs))
          (Arr.empty.set 0 G0, cursor bufLen 0 P.gfqBits 0)
        = some (G, cursor bufLen (byteLen (P.gfqBits * P.pkEntries) * (hi - 1)) P.gfqBits 0) := by
  induction hi, h1 using Nat.le_induction with
  | base => exact ⟨_, by rw [forUpM_self, Nat.sub_self]; rfl⟩
  | succ hi hle ih =>
      obtain ⟨G, hG⟩ := ih (by omega)
      have hroom : byteLen (P.gfqBits * P.pkEntries) * (hi - 1) + byteLen (P.gfqBits * P.pkEntries)
          ≤ byteLen (P.gfqBits * P.pkEntries) * (P.s - 1) := by
        rw [← Nat.mul_succ]
        exact Nat.mul_le_mul_left _ (by omega)
      obtain ⟨G1, G2, hread, -⟩ := readPkMatrix_returns hP
        (o := byteLen (P.gfqBits * P.pkEntries) * (hi - 1)) (by omega) hmem
      refine ⟨G.set hi (fillIdentity P (P.m * P.n) (P.m - 1) 1 (fillIdentity P 0 P.m 0 G2)), ?_⟩
      rw [forUpM_succ hle, hG]
      change (readPkMatrix P _ _ >>= _) = _
      rw [hread, show hi + 1 - 1 = (hi - 1) + 1 by omega, Nat.mul_succ]
      rfl

/-- Expanding a public key of `MEDS_PK_BYTES` bytes stays inside it. -/
theorem loadPublicKey_safe (hP : P.Square) (hs : 1 ≤ P.s) (hpk : P.pkBytes = P.pkSize)
    {pk : List UInt8} (hlen : pk.length = P.pkBytes) : (loadPublicKey P SHAKE256 pk).Safe := by
  have hsize := pkSize_eq P
  have hmem : ∀ i, i < P.pkBytes → pk[i]? = some (pk.getD i default) := fun i hi => by
    rw [List.getD_eq_getElem?_getD, List.getElem?_eq_getElem (by omega)]
    rfl
  have hmemPk : ∀ j, j < P.pkBytes - P.pubSeedBytes →
      pk[P.pubSeedBytes + j]? = some (pk.getD (P.pubSeedBytes + j) default) :=
    fun j hj => hmem _ (by omega)
  have hseed : readBytes (fun i => pk[i]?) 0 (pk.take P.pubSeedBytes).length
      = some (pk.take P.pubSeedBytes) := readBytes_eq_some _ _ fun j hj => by
    rw [List.length_take] at hj
    rw [Nat.zero_add, hmem j (by omega), List.getD_eq_getElem?_getD, List.getD_eq_getElem?_getD,
      List.getElem?_take_of_lt (by omega)]
    rfl
  rw [List.length_take_of_le (by omega)] at hseed
  unfold loadPublicKey
  rw [hseed, Run.ofOption_some, pure_bind]
  refine Run.safe_bind (rndSysMat_safe _ _ _) fun G0 _ => ?_
  obtain ⟨G, hG⟩ := readPkLoop_returns hP (by omega) hmemPk G0 hs (Nat.le_refl _)
  rw [cursor_zero] at hG
  simp only [bsInit]
  rw [hG]
  exact Run.safe_pure _

/-! ## The signature -/

/-- A fault-free read of `len` bytes needs every one of them. -/
theorem readBytes_eq_none {mem : Nat → Option UInt8} {off len j : Nat} (hj : j < len)
    (h : mem (off + j) = none) : readBytes mem off len = none := by
  unfold readBytes
  have hmem : j ∈ List.range len := List.mem_range.mpr hj
  generalize List.range len = l at hmem
  induction l with
  | nil => cases hmem
  | cons x l ih =>
      rw [List.mapM_cons]
      rcases List.mem_cons.mp hmem with rfl | hmem
      · rw [h]
        rfl
      · rw [ih hmem]
        cases mem (off + x) <;> rfl

/-- The bytes of a buffer can be read up to its end. -/
theorem readBytes_isSome {l : List UInt8} (off len : Nat) (h : off + len ≤ l.length) :
    ∃ v, readBytes (fun i => l[i]?) off len = some v := by
  have hlen : ((l.drop off).take len).length = len := by
    rw [List.length_take, List.length_drop]
    omega
  have := readBytes_eq_some (fun i => l[i]?) off (l := (l.drop off).take len)
    fun j hj => by
      rw [List.getD_eq_getElem _ _ hj, List.getElem_take, List.getElem_drop,
        List.getElem?_eq_getElem (by omega)]
  rw [hlen] at this
  exact ⟨_, this⟩

/-- Rebuilding the tree reads one seed for each visited node. -/
theorem visitAll_pathToStree_pure (P : Params) (SHAKE256 : Shake) (mem : Nat → Option UInt8)
    (salt : List UInt8) (nodes : List (Nat × Nat)) (st : PathState)
    (hmem : ∀ j, j < nodes.length → ∃ seed,
      readBytes mem (st.pos + j * P.stSeedBytes) P.stSeedBytes = some seed) :
    ∃ st', visitAll (visitNode P SHAKE256 .pathToStree mem salt) nodes st = pure st' := by
  induction nodes generalizing st with
  | nil => exact ⟨st, rfl⟩
  | cons node nodes ih =>
      obtain ⟨seed, hseed⟩ := hmem 0 (by simp)
      rw [Nat.zero_mul, Nat.add_zero] at hseed
      obtain ⟨st', hst'⟩ := ih
        { st with
          stree := tHash P SHAKE256 salt
            (st.stree.blit (P.stSeedBytes * seedTreeAddr node.1 node.2) seed) node.1 node.2
          pos := st.pos + P.stSeedBytes } fun j hj => by
            have := hmem (j + 1) (by rw [List.length_cons]; omega)
            rwa [Nat.succ_mul, Nat.add_comm (j * _), ← Nat.add_assoc] at this
      refine ⟨st', ?_⟩
      rw [visitAll, List.foldlM_cons, visitNode, hseed, Run.ofOption_some, pure_bind, pure_bind]
      exact hst'

theorem pathToStree_exists (hP : P.Valid) {h : Arr UInt8} (hcount : (excluded P h).length = P.w)
    {sm : List UInt8} {pos : Nat} (hfit : pos + P.maxPathLen * P.stSeedBytes ≤ sm.length)
    (stree : Arr UInt8) (salt : List UInt8) :
    ∃ st, (pathToStree P SHAKE256 stree h (fun i => sm[i]?) pos salt).Returns st := by
  have hlen : (visited P h).length ≤ P.maxPathLen := by
    have h1 := length_visited_le P h hP.height hcount
    rw [← hP.pathLen] at h1
    omega
  obtain ⟨st', hst'⟩ := visitAll_pathToStree_pure P SHAKE256 (fun i => sm[i]?) salt
    (visited P h) ⟨stree, Arr.empty, pos⟩ fun j hj =>
      readBytes_isSome _ _ (by
        have := Nat.mul_le_mul_right P.stSeedBytes (show j + 1 ≤ P.maxPathLen by omega)
        rw [Nat.succ_mul] at this
        simp only
        omega)
  refine ⟨st', ((walk_equiv P (hP.one_le_w.trans hP.w_le)
    (hP.height ▸ Nat.le_pow_clog (by decide) P.t) hP.one_le_w hcount _ _).returns _).mpr ?_⟩
  rw [hst', Run.returns_pure]

theorem pathToStree_safe (hP : P.Valid) {h : Arr UInt8} (hcount : (excluded P h).length = P.w)
    {sm : List UInt8} {pos : Nat} (hfit : pos + P.maxPathLen * P.stSeedBytes ≤ sm.length)
    (stree : Arr UInt8) (salt : List UInt8) :
    (pathToStree P SHAKE256 stree h (fun i => sm[i]?) pos salt).Safe := by
  obtain ⟨st, hst⟩ := pathToStree_exists hP hcount hfit stree salt
  exact fun e he => hst.not_faults he

/-- Responses among the rounds before `i`. -/
def challenged (h : Arr UInt8) (i : Nat) : Nat := ((List.range i).filter fun j => h.get j > 0).length

theorem challenged_succ (h : Arr UInt8) (i : Nat) :
    challenged h (i + 1) = challenged h i + if h.get i > 0 then 1 else 0 := by
  rw [challenged, List.range_succ, List.filter_append, List.length_append]
  by_cases hi : h.get i > 0 <;> simp [hi, challenged]

theorem challenged_le (h : Arr UInt8) {i j : Nat} (hij : i ≤ j) : challenged h i ≤ challenged h j := by
  induction j, hij using Nat.le_induction with
  | base => exact Nat.le_refl _
  | succ j _ ih =>
      rw [challenged_succ]
      omega

/-- A challenged round reads the next two blocks. -/
theorem openResponse_safe (hP : P.Square) {mem : Nat → Option UInt8} {d : Nat → UInt8}
    (hmem : ∀ i, i < munuBytes P → mem i = some (d i)) {o : Nat}
    (hfit : o + (matBytes P + matBytes P) ≤ munuBytes P) (G : Arr UInt16) :
    (openResponse P mem G (cursor (munuBytes P) o P.gfqBits 0)).Safe ∧
      ∀ Ghat bs, (openResponse P mem G (cursor (munuBytes P) o P.gfqBits 0)).Returns
        (some (Ghat, bs)) →
        bs = cursor (munuBytes P) (o + (matBytes P + matBytes P)) P.gfqBits 0 := by
  obtain ⟨mu, hmu, -⟩ := readResponse_spec (P := P) (n := P.n) (d := d) (o := o)
    hP.gfqBits_pos (by rw [← Nat.add_assoc] at hfit; exact Nat.le_of_add_right_le hfit) hmem
  obtain ⟨nu, hnu, -⟩ := readResponse_spec (P := P) (n := P.n) (d := d) (o := o + matBytes P)
    hP.gfqBits_pos (by rw [← Nat.add_assoc] at hfit; exact hfit) hmem
  unfold openResponse
  rw [hP.m_eq, hmu, Run.ofOption_some, pure_bind]
  simp only
  rw [hnu, Run.ofOption_some, pure_bind]
  simp only
  split
  · exact ⟨Run.safe_pure _, fun _ _ h => by rw [Run.returns_pure] at h; cases h⟩
  · split
    · exact ⟨Run.safe_pure _, fun _ _ h => by rw [Run.returns_pure] at h; cases h⟩
    · split
      · exact ⟨Run.safe_pure _, fun _ _ h => by rw [Run.returns_pure] at h; cases h⟩
      · refine ⟨Run.safe_pure _, fun Ghat bs h => ?_⟩
        rw [Run.returns_pure, Option.some.injEq, Prod.mk.injEq] at h
        rw [h.2, ← Nat.add_assoc]

/-- Where the response stream stands before round `i`. -/
def OpenAt (P : Params) (h : Arr UInt8) (i : Nat) : Option OpenState → Prop
  | none => True
  | some s => s.bs
      = cursor (munuBytes P) (challenged h i * (matBytes P + matBytes P)) P.gfqBits 0

theorem openRound_safe (SHAKE256 : Shake) (hP : P.Square) {h : Arr UInt8}
    (hcount : (excluded P h).length = P.w) {mem : Nat → Option UInt8} {d : Nat → UInt8}
    (hmem : ∀ i, i < munuBytes P → mem i = some (d i))
    (bsBuf : Nat → Arr UInt8) (G : Arr (Arr UInt16)) (alpha : List UInt8) {i : Nat} (hi : i < P.t)
    {s : Option OpenState} (hs : OpenAt P h i s) :
    (openRound P SHAKE256 mem bsBuf G alpha h i s).Safe ∧
      ∀ s', (openRound P SHAKE256 mem bsBuf G alpha h i s).Returns s' → OpenAt P h (i + 1) s' := by
  cases s with
  | none =>
      refine ⟨Run.safe_pure _, fun s' hr => ?_⟩
      rw [openRound, Run.returns_pure] at hr
      exact hr ▸ trivial
  | some s =>
      have hsucc := challenged_succ h i
      by_cases hpos : h.get i > 0
      · rw [if_pos hpos] at hsucc
        -- at most w rounds are challenged, so both matrices lie within the field
        have hroom : challenged h i * (matBytes P + matBytes P) + (matBytes P + matBytes P)
            ≤ munuBytes P := by
          have hle : challenged h (i + 1) ≤ P.w := hcount ▸ challenged_le h (show i + 1 ≤ P.t by omega)
          rw [munuBytes, matABytes_eq hP, matBBytes_eq, ← Nat.succ_mul]
          exact Nat.mul_le_mul_right _ (by omega)
        obtain ⟨hsafe, hbs⟩ := openResponse_safe hP hmem hroom (G.get (h.get i).toNat)
        rw [openRound, if_pos hpos, show s.bs = _ from hs]
        refine ⟨Run.safe_bind hsafe fun r _ => ?_, fun s' hr => ?_⟩
        · cases r <;> exact Run.safe_pure _
        · obtain ⟨r, hr1, hr2⟩ := Run.returns_bind.mp hr
          cases r with
          | none =>
              rw [Run.returns_pure] at hr2
              exact hr2 ▸ trivial
          | some r =>
              rw [Run.returns_pure] at hr2
              subst hr2
              simp only [OpenAt, hbs _ _ hr1, hsucc, Nat.succ_mul]
      · rw [if_neg hpos, Nat.add_zero] at hsucc
        rw [openRound, if_neg hpos]
        refine ⟨Run.safe_bind (commitLoop_safe _ _ _ _) fun _ _ => Run.safe_pure _, fun s' hr => ?_⟩
        obtain ⟨_, -, hr2⟩ := Run.returns_bind.mp hr
        rw [Run.returns_pure] at hr2
        subst hr2
        rw [OpenAt, hsucc]
        exact hs

/-- A signed message that is long enough is only read below its length. -/
theorem cryptoSignOpen_safe (hP : P.Valid) {pk sm : List UInt8} (hpk : pk.length = P.pkBytes)
    (hsm : P.sigBytes ≤ sm.length) (bsBuf : Nat → Arr UInt8) (m : Arr UInt8) (mlen : Nat) :
    (cryptoSignOpen P SHAKE256 bsBuf m mlen sm pk).Safe := by
  have hs1 : 1 ≤ P.s := Nat.le_of_succ_le hP.two_le_s
  have hsig : P.sigBytes
      = P.digestBytes + munuBytes P + P.maxPathLen * P.stSeedBytes + P.stSaltBytes := hP.sig_eq
  -- the three fields that are read directly end below sigBytes and the length
  obtain ⟨digest, hdigest⟩ := readBytes_isSome (P.sigBytes - P.digestBytes - P.stSaltBytes)
      P.digestBytes (l := sm) (by omega)
  obtain ⟨alpha, halpha⟩ := readBytes_isSome (P.sigBytes - P.stSaltBytes) P.stSaltBytes (l := sm)
      (by omega)
  obtain ⟨msg, hmsg⟩ := readBytes_isSome P.sigBytes (sm.length - P.sigBytes) (l := sm) (by omega)
  unfold cryptoSignOpen
  refine Run.safe_bind (loadPublicKey_safe hP.toSquare hs1 hP.pk_eq hpk) fun G _ => ?_
  simp only [hdigest, halpha, Run.ofOption_some, pure_bind]
  refine Run.safe_bind (parseHash_safe _ _ _) fun r hr => ?_
  obtain ⟨ret, h⟩ := r
  have hcount := (parseHash_returns hs1 hr).weight
  refine Run.safe_bind (pathToStree_safe hP hcount (by omega) _ _) fun st _ => ?_
  have hmem : ∀ i, i < munuBytes P → sm[i]? = some (sm.getD i 0) := fun i hi => by
    rw [List.getD_eq_getElem _ _ (by omega), List.getElem?_eq_getElem (by omega)]
  have hround := fun i (s : Option OpenState) (_ : 0 ≤ i) (hi : i < P.t) (hI : OpenAt P h i s) =>
    openRound_safe SHAKE256 hP.toSquare hcount hmem bsBuf G alpha hi hI
  -- a round is safe where the stream stands behind the responses before it
  refine Run.safe_bind (Run.forUpM_safe (OpenAt P h)
    (fun i s s' h1 h2 hI hr => (hround i s h1 h2 hI).2 s' hr)
    (fun i s h1 h2 hI => (hround i s h1 h2 hI).1) ?_) fun s _ => ?_
  · rw [OpenAt, challenged, List.range_zero, List.filter_nil, List.length_nil, Nat.zero_mul,
      cursor_zero]
    rfl
  · cases s with
    | none => exact Run.safe_pure _
    | some s =>
        simp only [openCheck, ulongSub, if_pos hsm, hmsg, Run.ofOption_some, pure_bind]
        split <;> exact Run.safe_pure _

/-- A signed message that is too short is never rejected in an orderly way. -/
theorem cryptoSignOpen_short (hP : P.Valid) (hfields : 0 < P.digestBytes + P.stSaltBytes)
    {pk sm : List UInt8} (hsm : sm.length < P.sigBytes) (bsBuf : Nat → Arr UInt8) (m : Arr UInt8)
    (mlen : Nat) (r : Int × Arr UInt8 × Nat) :
    ¬ (cryptoSignOpen P SHAKE256 bsBuf m mlen sm pk).Returns r := by
  have hsig : P.sigBytes
      = P.digestBytes + munuBytes P + P.maxPathLen * P.stSeedBytes + P.stSaltBytes := hP.sig_eq
  intro hr
  unfold cryptoSignOpen at hr
  obtain ⟨G, -, hr⟩ := Run.returns_bind.mp hr
  simp only at hr
  obtain ⟨digest, hdigest, hr⟩ := Run.returns_bind.mp hr
  obtain ⟨⟨ret, h⟩, -, hr⟩ := Run.returns_bind.mp hr
  simp only at hr
  obtain ⟨alpha, halpha, -⟩ := Run.returns_bind.mp hr
  -- the last byte of the signature belongs to the salt or to the digest
  by_cases hsalt : 0 < P.stSaltBytes
  · rw [readBytes_eq_none (j := P.stSaltBytes - 1) (by omega)
      (List.getElem?_eq_none (by omega)), Run.ofOption_none] at halpha
    exact Run.returns_fail halpha
  · rw [readBytes_eq_none (j := P.digestBytes - 1) (by omega)
      (List.getElem?_eq_none (by omega)), Run.ofOption_none] at hdigest
    exact Run.returns_fail hdigest

/-- Verification of `sm` is safe: it reads `sm` only below its length, and a
    message too short for a signature is rejected with `m` and `*mlen` untouched. -/
def SafeOpen (P : Params) (SHAKE256 : Shake) (pk sm : List UInt8) : Prop :=
  ∀ (bsBuf : Nat → Arr UInt8) (m : Arr UInt8) (mlen : Nat),
    (cryptoSignOpen P SHAKE256 bsBuf m mlen sm pk).Safe ∧
      (sm.length < P.sigBytes →
        (cryptoSignOpen P SHAKE256 bsBuf m mlen sm pk).Returns (-1, m, mlen))

/-- `crypto_sign_open` does not check `smlen`: it is safe exactly on signed
    messages that hold a whole signature. -/
theorem safeOpen_iff (hP : P.Valid) (hfields : 0 < P.digestBytes + P.stSaltBytes)
    (SHAKE256 : Shake) (pk sm : List UInt8) (hpk : pk.length = P.pkBytes) :
    SafeOpen P SHAKE256 pk sm ↔ P.sigBytes ≤ sm.length := by
  constructor
  · intro h
    refine Nat.le_of_not_lt fun hlt => ?_
    exact cryptoSignOpen_short hP hfields hlt (fun _ => Arr.empty) Arr.empty 0 _
      ((h (fun _ => Arr.empty) Arr.empty 0).2 hlt)
  · intro hsm bsBuf m mlen
    exact ⟨cryptoSignOpen_safe hP hpk hsm bsBuf m mlen, fun hlt => absurd hlt (by omega)⟩

/-- The empty string is a signed message that `crypto_sign_open` reads past. -/
theorem not_safeOpen_nil : ¬ SafeOpen tiny toyShake [1, 2, 2] [] := by
  intro h
  exact (h (fun _ => Arr.empty) Arr.empty 0).1 .outOfBounds
    ⟨60, by decide +kernel⟩

theorem safeOpen_iff_tiny :
    SafeOpen tiny toyShake [1, 2, 2] (List.replicate 11 0) ↔ 11 ≤ (List.replicate 11 (0 : UInt8)).length :=
  safeOpen_iff tiny_valid (by decide) toyShake [1, 2, 2] (List.replicate 11 0) rfl

end Meds.Ref
