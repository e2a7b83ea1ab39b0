/-
  Meds.Ref.ChallengeShape

  The weight of the challenge keeps every access that it indexes in bounds.

  The programs below are those of ref/meds_serial.c and ref/seed.c with one
  change: they stop where `A_inv[h[i]]`, `B_inv[h[i]]` or `G[h[i]]` lies
  outside the key arrays, where `indices[idx++]` lies behind `MEDS_w`
  entries, where the stream over the responses refuses a field, and where the
  responses do not end at the path.  For a challenge of `parse_hash` they run
  as the source does.
-/

import Meds.Ref.CheckedStream

namespace Meds.Ref

open Meds.Core

/-- The faults of a bounded program. -/
inductive AccessFault where
  | keyIndex
  | indicesEnd
  | munuEnd
  | stream (f : StreamFault)
deriving DecidableEq, Repr

def AccessFault.ofFault (f : Fault) : AccessFault := .stream (.fault f)

section

variable (P : Params) (SHAKE256 : Shake)

/-- `A[h[i]]` for an array of `MEDS_s` matrices. -/
def keyAt (A : Arr (Arr UInt16)) (v : UInt8) : Run AccessFault (Arr UInt16) :=
  if v.toNat < P.s then pure (A.get v.toNat) else Run.fail .keyIndex

/-- The stream over the responses has come to the path. -/
def atPath (bs : BitstreamT) : Run AccessFault Unit :=
  if bs.bytePos = munuBytes P ∧ bs.bitPos = 0 then pure () else Run.fail .munuEnd

/-- The loop that fills `indices`, an array of `MEDS_w` entries. -/
def walkIndicesBounded (hDigest : Arr UInt8) : Run AccessFault (Arr Nat) := do
  let s ←
    forUpM 0 P.t
      (fun i s =>
        if hDigest.get i > 0 then
          if s.2 < P.w then pure (s.1.set s.2 i, s.2 + 1) else Run.fail .indicesEnd
        else pure s)
      (Arr.replicate P.w 0, 0)
  pure s.1

/-- `stree_to_path_to_stree`, bounded. -/
def streeToPathToStreeBounded (mode : Mode) (mem : Nat → Option UInt8) (hDigest : Arr UInt8)
    (salt : List UInt8) (st : PathState) : Run AccessFault PathState := do
  let indices ← walkIndicesBounded P hDigest
  (Run.loop (walkRound P indices (visitNode P SHAKE256 mode mem salt)) (⟨0, 0, 0⟩, st)).mapFault
    .ofFault

/-- Round `i` of the response loop of `crypto_sign`, bounded. -/
def signResponseBounded (K : KeyMatrices) (st : SignState) (h : Arr UInt8) (i : Nat)
    (s : Arr UInt8 × BitstreamT) : Run AccessFault (Arr UInt8 × BitstreamT) :=
  if h.get i > 0 then do
    let Ainv ← keyAt P K.Ainv (h.get i)
    let s ← (writeProductChecked P P.m (st.Atilde.get i) Ainv s).mapFault .stream
    let Binv ← keyAt P K.Binv (h.get i)
    (writeProductChecked P P.n Binv (st.Btilde.get i) s).mapFault .stream
  else pure s

def signRespondBounded (K : KeyMatrices) (alpha : List UInt8) (st : SignState)
    (digest : List UInt8) (h : Arr UInt8) (sm : Arr UInt8) (m : List UInt8) :
    Run AccessFault (Arr UInt8 × Nat) := do
  let stree := tHash P SHAKE256 alpha st.stree 0 0
  let path ←
    streeToPathToStreeBounded P SHAKE256 .streeToPath (fun _ => none) h alpha
      ⟨stree, sm, munuBytes P⟩
  let s ← forUpM 0 P.t (signResponseBounded P K st h) (path.path, bsInit (munuBytes P))
  atPath P s.2
  let sm := s.1.blit (P.sigBytes - P.digestBytes - P.stSaltBytes) digest
  let sm := sm.blit (P.sigBytes - P.stSaltBytes) alpha
  let sm := sm.blit P.sigBytes m
  pure (sm, P.sigBytes + m.length)

/-- `crypto_sign`, bounded. -/
def cryptoSignBounded (bsBuf : Nat → Arr UInt8) (delta : List UInt8) (sm : Arr UInt8)
    (m sk : List UInt8) : Run AccessFault (Arr UInt8 × Nat) := do
  let K ← (loadSecretKey P SHAKE256 sk).mapFault .ofFault
  let (alpha, st) ←
    (signCommitments P SHAKE256 bsBuf delta (K.G.get 0) : Run Fault _).mapFault .ofFault
  let hShake := shake256Finalize (shake256Absorb st.hShake m)
  let (digest, _) := shake256Squeeze SHAKE256 P.digestBytes hShake
  let (_, h) ← (parseHash P SHAKE256 digest Arr.empty P.t : Run Fault _).mapFault .ofFault
  signRespondBounded P SHAKE256 K alpha st digest h sm m

/-- Round `i` of the loop of `crypto_sign_open`, bounded. -/
def openRoundBounded (mem : Nat → Option UInt8) (bsBuf : Nat → Arr UInt8) (G : Arr (Arr UInt16))
    (alpha : List UInt8) (h : Arr UInt8) (i : Nat) :
    Option OpenState → Run AccessFault (Option OpenState)
  | none => pure none
  | some s =>
    if h.get i > 0 then do
      let Gi ← keyAt P G (h.get i)
      let r ← (openResponseChecked P mem Gi s.bs).mapFault .stream
      match r with
      | none => pure none
      | some (Ghat, bs) =>
        pure (some { s with
          bs := bs
          shake := shake256Absorb s.shake (packCommitment P (bsBuf i) Ghat) })
    else (openRound P SHAKE256 mem bsBuf G alpha h i (some s)).mapFault .ofFault

/-- `crypto_sign_open`, bounded. -/
def cryptoSignOpenBounded (bsBuf : Nat → Arr UInt8) (m : Arr UInt8) (mlen : Nat)
    (sm pk : List UInt8) : Run AccessFault (Int × Arr UInt8 × Nat) := do
  let G ← (loadPublicKey P SHAKE256 pk).mapFault .ofFault
  let mem := fun i => sm[i]?
  let digest ←
    (Run.ofOption .outOfBounds
      (readBytes mem (P.sigBytes - P.digestBytes - P.stSaltBytes) P.digestBytes)).mapFault .ofFault
  let (_, h) ← (parseHash P SHAKE256 digest Arr.empty P.t : Run Fault _).mapFault .ofFault
  let alpha ←
    (Run.ofOption .outOfBounds
      (readBytes mem (P.sigBytes - P.stSaltBytes) P.stSaltBytes)).mapFault .ofFault
  let stree := Arr.replicate (P.stSeedBytes * P.seedTreeSize) 0
  let st ←
    streeToPathToStreeBounded P SHAKE256 .pathToStree mem h alpha ⟨stree, Arr.empty, munuBytes P⟩
  let r ←
    forUpM 0 P.t (openRoundBounded P SHAKE256 mem bsBuf G alpha h)
      (some { bs := bsInit (munuBytes P), stree := st.stree, shake := shake256Init })
  if let some s := r then atPath P s.bs
  (openCheck P SHAKE256 mem sm.length digest m mlen r).mapFault .ofFault

end

variable {P : Params} {SHAKE256 : Shake}

/-! ## Bounded accesses -/

theorem keyAt_of_lt (A : Arr (Arr UInt16)) {v : UInt8} (hv : v.toNat < P.s) :
    keyAt P A v = pure (A.get v.toNat) := if_pos hv

/-- A challenge fills no more than `MEDS_w` entries of `indices`. -/
theorem walkIndicesBounded_eq {h : Arr UInt8} (hcount : challenged h P.t ≤ P.w) :
    walkIndicesBounded P h = pure (walkIndices P h) := by
  have hloop : Run.Checked AccessFault.ofFault
      (pure (forUp 0 P.t (fun i s => if h.get i > 0 then (s.1.set s.2 i, s.2 + 1) else s)
        (Arr.replicate P.w 0, 0)))
      (forUpM 0 P.t
        (fun i s =>
          if h.get i > 0 then
            if s.2 < P.w then pure (s.1.set s.2 i, s.2 + 1) else Run.fail .indicesEnd
          else pure s)
        (Arr.replicate P.w 0, 0))
      fun _ => True := by
    rw [Run.pure_forUp]
    apply (Run.Checked.forUpM (fun j (s : Arr Nat × Nat) => s.2 = challenged h j) (Nat.zero_le _)
      _ rfl).mono fun _ _ => trivial
    rintro i ⟨indices, idx⟩ _ hi hidx
    obtain rfl : idx = challenged h i := hidx
    have hle : challenged h (i + 1) ≤ challenged h P.t := challenged_le h hi
    rw [challenged_succ] at hle ⊢
    by_cases hpos : h.get i > 0
    · rw [if_pos hpos] at hle
      simp only [if_pos hpos, if_pos (show challenged h i < P.w by omega)]
      exact Run.Checked.pure rfl
    · simp only [if_neg hpos]
      exact Run.Checked.pure rfl
  rw [walkIndicesBounded, hloop.of_pure.1, pure_bind]
  rfl

theorem streeToPathToStreeBounded_eq (mode : Mode) (mem : Nat → Option UInt8) {h : Arr UInt8}
    (salt : List UInt8) (st : PathState) (hcount : challenged h P.t ≤ P.w) :
    streeToPathToStreeBounded P SHAKE256 mode mem h salt st =
      (streeToPathToStree P SHAKE256 mode mem h salt st).mapFault .ofFault := by
  rw [streeToPathToStreeBounded, walkIndicesBounded_eq hcount, pure_bind]
  rfl

/-! ## The responses -/

/-- After all rounds the responses end at the path. -/
theorem atPath_munuCursor {h : Arr UInt8} (hcount : challenged h P.t = P.w) :
    atPath P (munuCursor P h P.t) = pure () := by
  apply if_pos
  rw [munuCursor, hcount, munuBytes_eq]
  exact ⟨by simp [cursor], by simp [cursor]⟩

theorem signResponse_bounded (K : KeyMatrices) (st : SignState) {h : Arr UInt8}
    (hh : PartialChallenge P P.w h) {j : Nat} (hj : j < P.t) {s : Arr UInt8 × BitstreamT}
    (hs : s.2 = munuCursor P h j) :
    Run.Checked .ofFault (pure (signResponse P K st h j s)) (signResponseBounded P K st h j s)
      fun s' => s'.2 = munuCursor P h (j + 1) := by
  have hbound : signResponseBounded P K st h j s =
      (signResponseChecked P K st h j s).mapFault .stream := by
    rw [signResponseBounded, signResponseChecked]
    by_cases hpos : h.get j > 0
    · rw [if_pos hpos, if_pos hpos, keyAt_of_lt _ (hh.values j hj), keyAt_of_lt _ (hh.values j hj),
        Run.mapFault_bind]
      rfl
    · rw [if_neg hpos, if_neg hpos]
      rfl
  rw [hbound]
  exact (signResponse_checked K st hh.weight hj hs).mapFault

theorem signRespond_bounded (K : KeyMatrices) (alpha : List UInt8) (st : SignState)
    (digest : List UInt8) {h : Arr UInt8} (hh : PartialChallenge P P.w h) (sm : Arr UInt8)
    (m : List UInt8) :
    Run.Checked .ofFault (signRespond P SHAKE256 K alpha st digest h sm m)
      (signRespondBounded P SHAKE256 K alpha st digest h sm m) fun _ => True := by
  rw [signRespond, signRespondBounded]
  simp only
  rw [streeToPathToStreeBounded_eq _ _ _ _ hh.weight.le]
  apply (Run.Checked.unchecked _).bind
  intro path _
  have hloop : Run.Checked AccessFault.ofFault
      (pure (forUp 0 P.t (signResponse P K st h) (path.path, bsInit (munuBytes P))))
      (forUpM 0 P.t (signResponseBounded P K st h) (path.path, bsInit (munuBytes P)))
      fun s' => s'.2 = munuCursor P h P.t := by
    rw [Run.pure_forUp]
    apply Run.Checked.forUpM (fun j (s : Arr UInt8 × BitstreamT) => s.2 = munuCursor P h j)
      (Nat.zero_le _)
    · intro j s _ hj hs
      exact signResponse_bounded K st hh hj hs
    · exact (munuCursor_zero P h).symm
  obtain ⟨heq, hend⟩ := hloop.of_pure
  rw [heq, pure_bind, hend, atPath_munuCursor hh.weight, pure_bind]
  exact Run.Checked.pure trivial

theorem openRound_bounded (mem : Nat → Option UInt8) (bsBuf : Nat → Arr UInt8)
    (G : Arr (Arr UInt16)) (alpha : List UInt8) {h : Arr UInt8} (hh : PartialChallenge P P.w h)
    {j : Nat} (hj : j < P.t) {r : Option OpenState}
    (hr : ∀ s, r = some s → s.bs = munuCursor P h j) :
    Run.Checked .ofFault (openRound P SHAKE256 mem bsBuf G alpha h j r)
      (openRoundBounded P SHAKE256 mem bsBuf G alpha h j r)
      fun r' => ∀ s, r' = some s → s.bs = munuCursor P h (j + 1) := by
  cases r with
  | none => exact Run.Checked.pure fun _ h => by cases h
  | some s =>
      have hs := hr s rfl
      rw [openRoundBounded]
      by_cases hpos : h.get j > 0
      · rw [openRound, if_pos hpos, if_pos hpos, munuCursor_challenged hpos,
          keyAt_of_lt _ (hh.values j hj), pure_bind]
        apply (openResponse_checked mem (G.get (h.get j).toNat) hs
          (munu_room hh.weight hj hpos)).mapFault.bind
        intro r' hr'
        cases r' with
        | none => exact Run.Checked.pure fun _ h => by cases h
        | some x =>
            apply Run.Checked.pure
            rintro s' h'
            rw [← Option.some.inj h']
            exact hr' x.1 x.2 rfl
      · rw [if_neg hpos, munuCursor_free hpos]
        apply (Run.Checked.unchecked _).mono
        -- a free round does not touch the stream
        intro r' hr' s' hs'
        rw [openRound, if_neg hpos, Run.returns_bind] at hr'
        obtain ⟨x, -, hx⟩ := hr'
        rw [Run.returns_pure, hs', Option.some.injEq] at hx
        rw [hx]
        exact hs

/-! ## The programs -/

theorem cryptoSign_bounded (SHAKE256 : Shake) (hs : 1 ≤ P.s) (bsBuf : Nat → Arr UInt8)
    (delta : List UInt8) (sm : Arr UInt8) (m sk : List UInt8) :
    Run.Checked .ofFault (cryptoSign P SHAKE256 bsBuf delta sm m sk)
      (cryptoSignBounded P SHAKE256 bsBuf delta sm m sk) fun _ => True := by
  rw [cryptoSign, cryptoSignBounded]
  apply (Run.Checked.unchecked _).bind
  intro K _
  apply (Run.Checked.unchecked _).bind
  rintro ⟨alpha, st⟩ -
  apply (Run.Checked.unchecked _).bind
  rintro ⟨ret, h⟩ hparse
  exact signRespond_bounded K alpha st _ (parseHash_returns hs hparse) sm m

theorem cryptoSignOpen_bounded (SHAKE256 : Shake) (hs : 1 ≤ P.s) (bsBuf : Nat → Arr UInt8)
    (m : Arr UInt8) (mlen : Nat) (sm pk : List UInt8) :
    Run.Checked .ofFault (cryptoSignOpen P SHAKE256 bsBuf m mlen sm pk)
      (cryptoSignOpenBounded P SHAKE256 bsBuf m mlen sm pk) fun _ => True := by
  rw [cryptoSignOpen, cryptoSignOpenBounded]
  apply (Run.Checked.unchecked _).bind
  intro G _
  apply (Run.Checked.unchecked _).bind
  intro digest _
  apply (Run.Checked.unchecked _).bind
  rintro ⟨ret, h⟩ hparse
  -- from here on the weight and the values of the challenge are known
  have hh := parseHash_returns hs hparse
  apply (Run.Checked.unchecked _).bind
  intro alpha _
  simp only
  rw [streeToPathToStreeBounded_eq _ _ _ _ hh.weight.le]
  apply (Run.Checked.unchecked _).bind
  intro st _
  apply (Run.Checked.forUpM
    (fun j (r : Option OpenState) => ∀ s, r = some s → s.bs = munuCursor P h j) (Nat.zero_le _)
    (fun j r _ hj hr => openRound_bounded _ bsBuf G alpha hh hj hr) ?_).bind
  · intro r hr
    cases r with
    | none => exact (Run.Checked.unchecked _).mono fun _ _ => trivial
    | some s =>
        simp only
        -- all w responses are read, and the path starts right behind them
        rw [hr s rfl, atPath_munuCursor hh.weight, pure_bind]
        exact (Run.Checked.unchecked _).mono fun _ _ => trivial
  · intro s hs
    rw [← Option.some.inj hs, munuCursor_zero]

/-- A longer array changes nothing. -/
theorem parseHash_of_le {ε : Type} (digest : List UInt8) (h : Arr UInt8) {lenH : Nat}
    (hlen : P.t ≤ lenH) :
    (parseHash P SHAKE256 digest h lenH : Run ε _) = parseHash P SHAKE256 digest h P.t := by
  rw [parseHash, parseHash, if_neg (by omega), if_neg (Nat.lt_irrefl _)]

/-- The status of `parse_hash`. -/
theorem parseHash_status {ε : Type} {digest : List UInt8} {h h' : Arr UInt8} {ret : Int}
    (hr : (parseHash P SHAKE256 digest h P.t : Run ε _).Returns (ret, h')) : ret = 0 := by
  rw [parseHash, if_neg (Nat.lt_irrefl _), Run.returns_bind] at hr
  obtain ⟨h'', -, hr⟩ := hr
  rw [Run.returns_pure] at hr
  exact congrArg Prod.fst hr

/-- What `parse_hash` returns from its loop has exactly `MEDS_w` nonzero
    entries, all below `MEDS_s`, and with that nothing it indexes is out of
    bounds and the responses fill their field. -/
theorem challenge_shape (P : Params) (SHAKE256 : Shake) (hs : 2 ≤ P.s) :
    (∀ (digest : List UInt8) (h₀ : Arr UInt8) (lenH : Nat) (ret : Int) (h : Arr UInt8),
      P.t ≤ lenH → (parseHash P SHAKE256 digest h₀ lenH : Run Fault _).Returns (ret, h) →
        ret = 0 ∧ ((List.range P.t).filter fun j => h.get j ≠ 0).length = P.w ∧
          ∀ j, j < P.t → h.get j = 0 ∨ 1 ≤ (h.get j).toNat ∧ (h.get j).toNat ≤ P.s - 1) ∧
    (∀ (mode : Mode) (mem : Nat → Option UInt8) (h : Arr UInt8) (salt : List UInt8) (st : PathState),
      ((List.range P.t).filter fun j => h.get j ≠ 0).length = P.w →
        streeToPathToStreeBounded P SHAKE256 mode mem h salt st =
          (streeToPathToStree P SHAKE256 mode mem h salt st).mapFault .ofFault) ∧
    (∀ (bsBuf : Nat → Arr UInt8) (delta : List UInt8) (sm : Arr UInt8) (m sk : List UInt8),
      cryptoSignBounded P SHAKE256 bsBuf delta sm m sk =
        (cryptoSign P SHAKE256 bsBuf delta sm m sk).mapFault .ofFault) ∧
    ∀ (bsBuf : Nat → Arr UInt8) (m : Arr UInt8) (mlen : Nat) (sm pk : List UInt8),
      cryptoSignOpenBounded P SHAKE256 bsBuf m mlen sm pk =
        (cryptoSignOpen P SHAKE256 bsBuf m mlen sm pk).mapFault .ofFault := by
  have hpos : ∀ v : UInt8, v ≠ 0 ↔ v > 0 := fun v => UInt8.pos_iff_ne_zero.symm
  simp only [hpos]
  refine ⟨?_, ?_, ?_, ?_⟩
  · intro digest h₀ lenH ret h hlen hr
    rw [parseHash_of_le _ _ hlen] at hr
    have hh := parseHash_returns (by omega) hr
    refine ⟨parseHash_status hr, hh.weight, fun j hj => ?_⟩
    have hlt := hh.values j hj
    -- a value other than zero was accepted by the rejection loop
    by_cases h0 : h.get j = 0
    · exact Or.inl h0
    · have hv : 0 < (h.get j).toNat := UInt8.lt_iff_toNat_lt.mp ((hpos _).mp h0)
      exact Or.inr ⟨hv, by omega⟩
  · intro mode mem h salt st hcount
    exact streeToPathToStreeBounded_eq mode mem salt st (le_of_eq hcount)
  · intro bsBuf delta sm m sk
    exact (cryptoSign_bounded SHAKE256 (by omega) bsBuf delta sm m sk).eq
  · intro bsBuf m mlen sm pk
    exact (cryptoSignOpen_bounded SHAKE256 (by omega) bsBuf m mlen sm pk).eq

/-- The challenge of the digest 24 responds in round 0: the path is walked, and the signed
    message is written and opened, without a fault. -/
theorem challenge_shape_tiny :
    ((0 : Int) = 0 ∧ ((List.range 2).filter fun j => (⟨[1, 0]⟩ : Arr UInt8).get j ≠ 0).length = 1 ∧
      ∀ j, j < 2 → (⟨[1, 0]⟩ : Arr UInt8).get j = 0 ∨ 1 ≤ ((⟨[1, 0]⟩ : Arr UInt8).get j).toNat ∧
        ((⟨[1, 0]⟩ : Arr UInt8).get j).toNat ≤ 1) ∧
    (streeToPathToStreeBounded tiny toyShake .streeToPath (fun _ => none) ⟨[1, 0]⟩ [17]
      ⟨⟨[3, 4, 5]⟩, Arr.empty, 8⟩).Returns ⟨⟨[3, 4, 5]⟩, ⟨[0, 0, 0, 0, 0, 0, 0, 0, 5]⟩, 9⟩ ∧
    (cryptoSignBounded tiny toyShake (fun _ => Arr.empty) [7] Arr.empty [1, 2, 3]
      [0, 1, 2, 2, 2, 1, 2, 1, 1, 1]).Returns
        (⟨[1, 0, 1, 2, 0, 1, 1, 1, 20, 24, 17, 1, 2, 3]⟩, 14) ∧
    (cryptoSignOpenBounded tiny toyShake (fun _ => Arr.empty) Arr.empty 0
      [1, 0, 1, 2, 0, 1, 1, 1, 20, 24, 17, 1, 2, 3] [1, 2, 2]).Returns (0, ⟨[1, 2, 3]⟩, 3) := by
  obtain ⟨hparse, hpath, hsign, hopen⟩ := challenge_shape tiny toyShake (by decide)
  refine ⟨hparse [24] Arr.empty 2 0 ⟨[1, 0]⟩ (by decide)
    (Run.returns_of_run (n := 60) (by decide +kernel)), ?_, ?_, ?_⟩
  · rw [hpath _ _ _ _ _ (by decide), Run.returns_mapFault]
    exact Run.returns_of_run (n := 60) rfl
  · rw [hsign, Run.returns_mapFault]
    exact Run.returns_of_run (n := 60) (by decide +kernel)
  · rw [hopen, Run.returns_mapFault]
    exact Run.returns_of_run (n := 60) (by decide +kernel)

end Meds.Ref
