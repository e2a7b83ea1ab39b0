/-
  Meds.Ref.CheckedStream

  The programs of ref/meds_serial.c with one change: they stop where a call of
  `bs_write` or `bs_read` would print its error, whose status every caller of
  the source drops.

  Positions do not depend on the data.  Each loop below is followed with its
  cursor, and none of its calls is refused when its fields fit; so a macro set
  whose sizes are the sums of its fields runs the programs of the source.
-/

import Meds.Core.Checked
import Meds.Ref.BitstreamRoundtrip
import Meds.Ref.OpenSafe

namespace Meds.Ref

open Meds.Core

/-! ## Programs that stop at the end of a buffer -/

/-- The faults of a checked program. -/
inductive StreamFault where
  | bufferEnd
  | fault (f : Fault)
deriving DecidableEq, Repr

section

variable (P : Params) (SHAKE256 : Shake)

/-- A `bs_write` statement that looks at the status. -/
def bsPutChecked (dataLen : Nat) (s : Arr UInt8 × BitstreamT) (data : Nat) :
    Run StreamFault (Arr UInt8 × BitstreamT) :=
  if (bsWrite s.1 s.2 data dataLen).1 < 0 then Run.fail .bufferEnd else pure (bsPut dataLen s data)

/-- A `bs_read` that looks at the range check. -/
def bsReadChecked (mem : Nat → Option UInt8) (bs : BitstreamT) (dataLen : Nat) :
    Run StreamFault (Nat × BitstreamT) :=
  if bs.exceeds dataLen then Run.fail .bufferEnd
  else (Run.ofOption .outOfBounds (bsRead mem bs dataLen)).mapFault .fault

def writeEntriesChecked (M : Arr UInt16) (off lo hi : Nat) (s : Arr UInt8 × BitstreamT) :
    Run StreamFault (Arr UInt8 × BitstreamT) :=
  forUpM lo hi (fun j s => bsPutChecked P.gfqBits s (M.get (off + j)).toNat) s

def writePkMatricesChecked (G : Arr (Arr UInt16)) (s : Arr UInt8 × BitstreamT) :
    Run StreamFault (Arr UInt8 × BitstreamT) :=
  forUpM 1 P.s
    (fun si s => do
      let s ← writeEntriesChecked P (G.get si) (P.m * P.n) ((P.m - 1) * P.n) (P.m * P.n) s
      let s ←
        forUpM 2 P.k
          (fun r s => writeEntriesChecked P (G.get si) (r * P.m * P.n) P.k (P.m * P.n) s) s
      pure (putFinalize s))
    s

def writeMatricesChecked (M : Arr (Arr UInt16)) (len : Nat) (s : Arr UInt8 × BitstreamT) :
    Run StreamFault (Arr UInt8 × BitstreamT) :=
  forUpM 1 P.s
    (fun si s => do
      let s ← writeEntriesChecked P (M.get si) 0 0 len s
      pure (putFinalize s))
    s

/-- `crypto_sign_keypair`, checked. -/
def cryptoSignKeypairChecked (delta : List UInt8) (pk sk : Arr UInt8) :
    Run StreamFault (Int × Arr UInt8 × Arr UInt8) := do
  let (sigmaG0, K) ← (keypairMatrices P SHAKE256 delta : Run Fault _).mapFault .fault
  let pk := pk.blit 0 sigmaG0
  let (buf, bs) ←
    writePkMatricesChecked P K.G (pk.view P.pubSeedBytes, bsInit (P.pkBytes - P.pubSeedBytes))
  let pk := pk.modifyFrom P.pubSeedBytes fun _ => buf
  if P.pkBytes ≠ P.pubSeedBytes + bs.bytePos + (if bs.bitPos > 0 then 1 else 0) then
    pure (-1, pk, sk)
  else
    let sk := sk.blit 0 delta
    let sk := sk.blit P.secSeedBytes sigmaG0
    let off := P.secSeedBytes + P.pubSeedBytes
    let s := (sk.view off, bsInit (P.skBytes - P.secSeedBytes - P.pubSeedBytes))
    let s ← writeMatricesChecked P K.Ainv (P.m * P.m) s
    let s ← writeMatricesChecked P K.Binv (P.n * P.n) s
    pure (0, pk, sk.modifyFrom off fun _ => s.1)

def packCommitmentChecked (bsBuf : Arr UInt8) (G : Arr UInt16) : Run StreamFault (List UInt8) := do
  let s ←
    forUpM 0 P.k (fun r s => writeEntriesChecked P G (r * P.m * P.n) P.k (P.m * P.n) s)
      (bsBuf, bsInit (bsBufLen P))
  pure (s.1.slice 0 (bsBufLen P))

def readEntriesChecked (mem : Nat → Option UInt8) (off lo hi : Nat) (s : Arr UInt16 × BitstreamT) :
    Run StreamFault (Arr UInt16 × BitstreamT) :=
  forUpM lo hi
    (fun j s => do
      let (v, bs) ← bsReadChecked mem s.2 P.gfqBits
      pure (s.1.set (off + j) (UInt16.ofNat v), bs))
    s

def readMatricesChecked (mem : Nat → Option UInt8) (len : Nat) (bs : BitstreamT) :
    Run StreamFault (Arr (Arr UInt16) × BitstreamT) :=
  forUpM 1 P.s
    (fun si s => do
      let (M, bs) ← readEntriesChecked P mem 0 0 len (Arr.empty, s.2)
      pure (s.1.set si M, bsFinalize bs))
    (Arr.empty, bs)

def signCommitChecked (bsBuf : Nat → Arr UInt8) (G0 : Arr UInt16) (alpha : List UInt8) (i : Nat)
    (s : SignState) : Run StreamFault SignState := do
  let (stree, Atilde, Btilde, Gtilde) ←
    (Run.loop (commitAttempt P SHAKE256 G0 alpha i) s.stree : Run Fault _).mapFault .fault
  let buf ← packCommitmentChecked P (bsBuf i) Gtilde
  pure
    { stree := stree
      Atilde := s.Atilde.set i Atilde
      Btilde := s.Btilde.set i Btilde
      hShake := shake256Absorb s.hShake buf }

def writeProductChecked (n : Nat) (A B : Arr UInt16) (s : Arr UInt8 × BitstreamT) :
    Run StreamFault (Arr UInt8 × BitstreamT) := do
  let s ← writeEntriesChecked P (pmodMatMul P Arr.empty n n A n n B n) 0 0 (n * n) s
  pure (putFinalize s)

def signResponseChecked (K : KeyMatrices) (st : SignState) (h : Arr UInt8) (i : Nat)
    (s : Arr UInt8 × BitstreamT) : Run StreamFault (Arr UInt8 × BitstreamT) :=
  if h.get i > 0 then do
    let s ← writeProductChecked P P.m (st.Atilde.get i) (K.Ainv.get (h.get i).toNat) s
    writeProductChecked P P.n (K.Binv.get (h.get i).toNat) (st.Btilde.get i) s
  else pure s

def loadSecretKeyChecked (sk : List UInt8) : Run StreamFault KeyMatrices := do
  let mem := fun i => sk[P.secSeedBytes + i]?
  let sigmaG0 ←
    (Run.ofOption .outOfBounds (readBytes mem 0 P.pubSeedBytes)).mapFault .fault
  let G0 ← (rndSysMat P SHAKE256 P.k (P.m * P.n) sigmaG0 : Run Fault _).mapFault .fault
  let mem := fun i => sk[P.secSeedBytes + P.pubSeedBytes + i]?
  let bs := bsInit (P.skBytes - P.secSeedBytes - P.pubSeedBytes)
  let (Ainv, bs) ← readMatricesChecked P mem (P.m * P.m) bs
  let (Binv, _) ← readMatricesChecked P mem (P.n * P.n) bs
  pure { G := Arr.empty.set 0 G0, Ainv := Ainv, Binv := Binv }

def signCommitmentsChecked (bsBuf : Nat → Arr UInt8) (delta : List UInt8) (G0 : Arr UInt16) :
    Run StreamFault (List UInt8 × SignState) := do
  let bufs := xof SHAKE256 delta [P.stSeedBytes, P.stSaltBytes]
  let rho := bufs.getD 0 []
  let alpha := bufs.getD 1 []
  let stree := Arr.replicate (P.stSeedBytes * P.seedTreeSize) 0
  let stree := stree.blit (P.stSeedBytes * seedTreeAddr 0 0) rho
  let stree := tHash P SHAKE256 alpha stree 0 0
  let st ←
    forUpM 0 P.t (signCommitChecked P SHAKE256 bsBuf G0 alpha)
      { stree := stree, Atilde := Arr.empty, Btilde := Arr.empty, hShake := shake256Init }
  pure (alpha, st)

def signRespondChecked (K : KeyMatrices) (alpha : List UInt8) (st : SignState)
    (digest : List UInt8) (h : Arr UInt8) (sm : Arr UInt8) (m : List UInt8) :
    Run StreamFault (Arr UInt8 × Nat) := do
  let stree := tHash P SHAKE256 alpha st.stree 0 0
  let path ← (streeToPath P SHAKE256 stree h sm (munuBytes P) alpha).mapFault .fault
  let (sm, _) ← forUpM 0 P.t (signResponseChecked P K st h) (path.path, bsInit (munuBytes P))
  let sm := sm.blit (P.sigBytes - P.digestBytes - P.stSaltBytes) digest
  let sm := sm.blit (P.sigBytes - P.stSaltBytes) alpha
  let sm := sm.blit P.sigBytes m
  pure (sm, P.sigBytes + m.length)

/-- `crypto_sign`, checked. -/
def cryptoSignChecked (bsBuf : Nat → Arr UInt8) (delta : List UInt8) (sm : Arr UInt8)
    (m sk : List UInt8) : Run StreamFault (Arr UInt8 × Nat) := do
  let K ← loadSecretKeyChecked P SHAKE256 sk
  let (alpha, st) ← signCommitmentsChecked P SHAKE256 bsBuf delta (K.G.get 0)
  let hShake := shake256Finalize (shake256Absorb st.hShake m)
  let (digest, _) := shake256Squeeze SHAKE256 P.digestBytes hShake
  let (_, h) ← (parseHash P SHAKE256 digest Arr.empty P.t : Run Fault _).mapFault .fault
  signRespondChecked P SHAKE256 K alpha st digest h sm m

def readPkMatrixChecked (mem : Nat → Option UInt8) (bs : BitstreamT) :
    Run StreamFault (Arr UInt16 × BitstreamT) := do
  let G := setIdentity Arr.empty P.k (P.m * P.n)
  let s ← readEntriesChecked P mem (P.m * P.n) ((P.m - 1) * P.n) (P.m * P.n) (G, bs)
  let (G, bs) ←
    forUpM 2 P.k (fun r s => readEntriesChecked P mem (r * P.m * P.n) P.k (P.m * P.n) s) s
  let G := fillIdentity P 0 P.m 0 G
  let G := fillIdentity P (P.m * P.n) (P.m - 1) 1 G
  pure (G, bsFinalize bs)

def loadPublicKeyChecked (pk : List UInt8) : Run StreamFault (Arr (Arr UInt16)) := do
  let sigmaG0 ←
    (Run.ofOption .outOfBounds (readBytes (fun i => pk[i]?) 0 P.pubSeedBytes)).mapFault .fault
  let G0 ← (rndSysMat P SHAKE256 P.k (P.m * P.n) sigmaG0 : Run Fault _).mapFault .fault
  let mem := fun i => pk[P.pubSeedBytes + i]?
  let (G, _) ←
    forUpM 1 P.s
      (fun i (G, bs) => do
        let (Gi, bs) ← readPkMatrixChecked P mem bs
        pure (G.set i Gi, bs))
      (Arr.empty.set 0 G0, bsInit (P.pkBytes - P.pubSeedBytes))
  pure G

def readResponseChecked (mem : Nat → Option UInt8) (n : Nat) (bs : BitstreamT) :
    Run StreamFault (Arr UInt16 × BitstreamT) := do
  let (M, bs) ←
    forUpM 0 (n * n)
      (fun j s => do
        let (v, bs) ← bsReadChecked mem s.2 P.gfqBits
        pure (s.1.set j (UInt16.ofNat (v % P.p)), bs))
      (Arr.empty, bs)
  pure (M, bsFinalize bs)

def openResponseChecked (mem : Nat → Option UInt8) (G : Arr UInt16) (bs : BitstreamT) :
    Run StreamFault (Option (Arr UInt16 × BitstreamT)) := do
  let (mu, bs) ← readResponseChecked P mem P.m bs
  let (nu, bs) ← readResponseChecked P mem P.n bs
  if (pmodMatSystCt P mu P.m P.m).1 ≠ 0 then pure none
  else if (pmodMatSystCt P nu P.n P.n).1 ≠ 0 then pure none
  else
    let (ret, Ghat) := pmodMatSystCt P (pi P mu nu G) P.k (P.m * P.n)
    if ret < 0 then pure none else pure (some (Ghat, bs))

def openRoundChecked (mem : Nat → Option UInt8) (bsBuf : Nat → Arr UInt8) (G : Arr (Arr UInt16))
    (alpha : List UInt8) (h : Arr UInt8) (i : Nat) :
    Option OpenState → Run StreamFault (Option OpenState)
  | none => pure none
  | some s =>
    if h.get i > 0 then do
      let r ← openResponseChecked P mem (G.get (h.get i).toNat) s.bs
      match r with
      | none => pure none
      | some (Ghat, bs) => do
        let buf ← packCommitmentChecked P (bsBuf i) Ghat
        pure (some { s with bs := bs, shake := shake256Absorb s.shake buf })
    else do
      let (stree, _, _, Ghat) ←
        (Run.loop (commitAttempt P SHAKE256 (G.get 0) alpha i) s.stree : Run Fault _).mapFault
          .fault
      let buf ← packCommitmentChecked P (bsBuf i) Ghat
      pure (some { s with stree := stree, shake := shake256Absorb s.shake buf })

/-- `crypto_sign_open`, checked. -/
def cryptoSignOpenChecked (bsBuf : Nat → Arr UInt8) (m : Arr UInt8) (mlen : Nat)
    (sm pk : List UInt8) : Run StreamFault (Int × Arr UInt8 × Nat) := do
  let G ← loadPublicKeyChecked P SHAKE256 pk
  let mem := fun i => sm[i]?
  let digest ←
    (Run.ofOption .outOfBounds
      (readBytes mem (P.sigBytes - P.digestBytes - P.stSaltBytes) P.digestBytes)).mapFault .fault
  let (_, h) ← (parseHash P SHAKE256 digest Arr.empty P.t : Run Fault _).mapFault .fault
  let alpha ←
    (Run.ofOption .outOfBounds
      (readBytes mem (P.sigBytes - P.stSaltBytes) P.stSaltBytes)).mapFault .fault
  let stree := Arr.replicate (P.stSeedBytes * P.seedTreeSize) 0
  let st ← (pathToStree P SHAKE256 stree h mem (munuBytes P) alpha).mapFault .fault
  let s ←
    forUpM 0 P.t (openRoundChecked P SHAKE256 mem bsBuf G alpha h)
      (some { bs := bsInit (munuBytes P), stree := st.stree, shake := shake256Init })
  (openCheck P SHAKE256 mem sm.length digest m mlen s).mapFault .fault

end

/-! ## Positions -/

theorem pos_cursor (L o w i : Nat) : (cursor L o w i).pos = 8 * o + w * i := by
  simp only [cursor, BitstreamT.pos]
  omega

/-- One more field of width `w`. -/
theorem cursor_next (L o w i : Nat) :
    (⟨L, ((cursor L o w i).pos + w) / 8, ((cursor L o w i).pos + w) % 8⟩ : BitstreamT)
      = cursor L o w (i + 1) := by
  rw [pos_cursor, cursor, Nat.mul_succ, Nat.add_assoc]
  simp only [BitstreamT.mk.injEq, true_and]
  omega

theorem bsWrite_status (buf : Arr UInt8) {bs : BitstreamT} (data len : Nat)
    (h : bs.exceeds len = false) : (bsWrite buf bs data len).1 = 0 := by
  rw [bsWrite, h]
  simp only [Bool.false_eq_true, if_false]
  split_ifs <;> rfl

/-- The whole-byte loop of `bs_read` moves on by whole bytes. -/
theorem bsReadBytes_end {mem : Nat → Option UInt8} {fuel data off bytePos len : Nat}
    {r : Nat × Nat × Nat × Nat} (hfuel : len / 8 ≤ fuel)
    (h : bsReadBytes mem fuel (data, off, bytePos, len) = some r) :
    r.2.2.1 = bytePos + len / 8 ∧ r.2.2.2 = len % 8 := by
  induction fuel generalizing data off bytePos len with
  | zero =>
      obtain rfl := Option.some.inj h
      exact ⟨by simp only; omega, by simp only; omega⟩
  | succ fuel ih =>
      rw [bsReadBytes] at h
      split at h
      · obtain ⟨x, -, h⟩ := Option.bind_eq_some_iff.mp h
        obtain ⟨h1, h2⟩ := ih (by omega) h
        exact ⟨by rw [h1]; omega, by rw [h2]; omega⟩
      · obtain rfl := Option.some.inj h
        exact ⟨by simp only; omega, by simp only; omega⟩

/-- The end of `bs_read`: whole bytes, then the low bits of one more. -/
theorem bsRead_tail {mem : Nat → Option UInt8} {n data off bytePos len v : Nat} {bs' : BitstreamT}
    (h : (bsReadBytes mem len (data, off, bytePos, len) >>= fun r =>
      if r.2.2.2 > 0 then
        mem r.2.2.1 >>= fun x => some (r.1 ||| (x.toNat &&& (1 <<< r.2.2.2 - 1)) <<< r.2.1,
          (⟨n, r.2.2.1, r.2.2.2⟩ : BitstreamT))
      else some (r.1, ⟨n, r.2.2.1, 0⟩)) = some (v, bs')) :
    bs' = ⟨n, bytePos + len / 8, len % 8⟩ := by
  obtain ⟨⟨d', off', b', l'⟩, hbytes, h⟩ := Option.bind_eq_some_iff.mp h
  obtain ⟨h1, h2⟩ := bsReadBytes_end (Nat.div_le_self _ _) hbytes
  simp only at h1 h2 h
  split at h
  · obtain ⟨x, -, h⟩ := Option.bind_eq_some_iff.mp h
    obtain ⟨-, rfl⟩ := Prod.mk.inj (Option.some.inj h)
    rw [h1, h2]
  · obtain ⟨-, rfl⟩ := Prod.mk.inj (Option.some.inj h)
    simp only [BitstreamT.mk.injEq, true_and]
    omega

/-- A read that passes the check advances the cursor by its width, whatever
    the memory holds. -/
theorem bsRead_cursor {mem : Nat → Option UInt8} {bs bs' : BitstreamT} {len v : Nat}
    (hbit : bs.bitPos < 8) (hfit : bs.pos + len ≤ 8 * bs.bufLen)
    (h : bsRead mem bs len = some (v, bs')) :
    bs' = ⟨bs.bufLen, (bs.pos + len) / 8, (bs.pos + len) % 8⟩ := by
  rw [bsRead, exceeds_eq_false hfit] at h
  obtain ⟨n, bytePos, bitPos⟩ := bs
  simp only [BitstreamT.pos] at hbit ⊢
  simp only [Bool.false_eq_true, if_false] at h
  by_cases hnarrow : bitPos + len < 8
  · rw [if_pos hnarrow] at h
    obtain ⟨x, -, h⟩ := Option.bind_eq_some_iff.mp h
    simp only [show ¬ bitPos + len > 7 by omega, if_false] at h
    obtain ⟨-, rfl⟩ := Prod.mk.inj (Option.some.inj h)
    congr 1 <;> omega
  · rw [if_neg hnarrow] at h
    by_cases h0 : bitPos > 0
    · rw [if_pos h0] at h
      obtain ⟨x, -, h⟩ := Option.bind_eq_some_iff.mp h
      rw [bsRead_tail h]
      simp only [BitstreamT.mk.injEq, true_and]
      omega
    · rw [if_neg h0] at h
      rw [bsRead_tail h]
      simp only [BitstreamT.mk.injEq, true_and]
      omega

section

variable {P : Params} {L o w i : Nat}

/-- A field that fits is written. -/
theorem bsPut_checked {s : Arr UInt8 × BitstreamT} (v : Nat) (hs : s.2 = cursor L o w i)
    (hfit : 8 * o + w * (i + 1) ≤ 8 * L) :
    Run.Checked StreamFault.fault (pure (bsPut w s v)) (bsPutChecked w s v)
      fun s' => s'.2 = cursor L o w (i + 1) := by
  have hpos : s.2.pos + w ≤ 8 * L := by
    rw [hs, pos_cursor, Nat.add_assoc, ← Nat.mul_succ]
    exact hfit
  have hL : s.2.bufLen = L := by rw [hs]; rfl
  have hbit : s.2.bitPos < 8 := by rw [hs]; exact Nat.mod_lt _ (by decide)
  rw [bsPutChecked, bsWrite_status _ _ _ (exceeds_eq_false (by rw [hL]; exact hpos)),
    if_neg (by decide)]
  apply Run.Checked.pure
  rw [bsPut, bsWrite_cursor s.1 v w ⟨hL, hbit, by omega⟩ hpos, hs, cursor_next]

/-- A field that fits is read, or lies outside the object. -/
theorem bsRead_checked (mem : Nat → Option UInt8) {bs : BitstreamT} (hbs : bs = cursor L o w i)
    (hfit : 8 * o + w * (i + 1) ≤ 8 * L) :
    Run.Checked StreamFault.fault (Run.ofOption .outOfBounds (bsRead mem bs w))
      (bsReadChecked mem bs w) fun r => r.2 = cursor L o w (i + 1) := by
  have hpos : bs.pos + w ≤ 8 * bs.bufLen := by
    rw [hbs, pos_cursor, Nat.add_assoc, ← Nat.mul_succ]
    exact hfit
  have hbit : bs.bitPos < 8 := by rw [hbs]; exact Nat.mod_lt _ (by decide)
  rw [bsReadChecked, exceeds_eq_false hpos]
  apply (Run.Checked.unchecked _).mono
  rintro ⟨v, bs'⟩ hr
  rw [bsRead_cursor hbit hpos (Run.returns_ofOption.mp hr), hbs]
  exact cursor_next L o w i

theorem mul_advance_le {c a b : Nat} (h : a ≤ b) (hfit : 8 * o + w * (i + c * b) ≤ 8 * L) :
    8 * o + w * (i + c * a) ≤ 8 * L := by
  have := Nat.mul_le_mul_left w (Nat.add_le_add_left (Nat.mul_le_mul_left c h) i)
  omega

/-- A loop whose rounds advance the cursor by `c` fields. -/
theorem loop_checked {σ : Type} {lo hi : Nat} (c : Nat)
    {f : Nat → σ × BitstreamT → Run Fault (σ × BitstreamT)}
    {g : Nat → σ × BitstreamT → Run StreamFault (σ × BitstreamT)} (hle : lo ≤ hi)
    (hstep : ∀ j i s, s.2 = cursor L o w i → 8 * o + w * (i + c) ≤ 8 * L →
      Run.Checked .fault (f j s) (g j s) fun s' => s'.2 = cursor L o w (i + c))
    {s : σ × BitstreamT} (hs : s.2 = cursor L o w i)
    (hfit : 8 * o + w * (i + c * (hi - lo)) ≤ 8 * L) :
    Run.Checked .fault (forUpM lo hi f s) (forUpM lo hi g s)
      fun s' => s'.2 = cursor L o w (i + c * (hi - lo)) := by
  apply Run.Checked.forUpM (fun j (s : σ × BitstreamT) => s.2 = cursor L o w (i + c * (j - lo))) hle
  · intro j s h1 h2 hs
    have hnext : i + c * (j + 1 - lo) = i + c * (j - lo) + c := by
      rw [show j + 1 - lo = j - lo + 1 by omega, Nat.mul_succ, Nat.add_assoc]
    rw [hnext]
    apply hstep j _ s hs
    rw [← hnext]
    exact mul_advance_le (by omega) hfit
  · rw [hs, Nat.sub_self, Nat.mul_zero, Nat.add_zero]

/-- A loop over matrices 1, …, s - 1 whose rounds move a block of `len` fields. -/
theorem blocks_checked {σ : Type} (len : Nat)
    {f : Nat → σ × BitstreamT → Run Fault (σ × BitstreamT)}
    {g : Nat → σ × BitstreamT → Run StreamFault (σ × BitstreamT)} (hs : 1 ≤ P.s)
    (hstep : ∀ j o s, s.2 = cursor L o w 0 → 8 * o + w * len ≤ 8 * L →
      Run.Checked .fault (f j s) (g j s) fun s' => s'.2 = cursor L (o + byteLen (w * len)) w 0)
    {s : σ × BitstreamT} (h0 : s.2 = cursor L o w 0)
    (hfit : o + byteLen (w * len) * (P.s - 1) ≤ L) :
    Run.Checked .fault (forUpM 1 P.s f s) (forUpM 1 P.s g s)
      fun s' => s'.2 = cursor L (o + byteLen (w * len) * (P.s - 1)) w 0 := by
  apply Run.Checked.forUpM
    (fun j (s : σ × BitstreamT) => s.2 = cursor L (o + byteLen (w * len) * (j - 1)) w 0) hs
  · intro j s h1 h2 hs
    rw [show j + 1 - 1 = (j - 1) + 1 by omega, Nat.mul_succ, ← Nat.add_assoc]
    apply hstep j _ s hs
    have hnext := Nat.mul_le_mul_left (byteLen (w * len)) (show j - 1 + 1 ≤ P.s - 1 by omega)
    have hbits : w * len ≤ 8 * byteLen (w * len) := by
      rw [byteLen]
      omega
    rw [Nat.mul_succ] at hnext
    omega
  · rw [h0, Nat.sub_self, Nat.mul_zero, Nat.add_zero]

/-! ## Writing -/

theorem writeEntries_checked {s : Arr UInt8 × BitstreamT} (M : Arr UInt16) (off : Nat) {lo hi : Nat}
    (hle : lo ≤ hi) (hs : s.2 = cursor L o P.gfqBits i)
    (hfit : 8 * o + P.gfqBits * (i + (hi - lo)) ≤ 8 * L) :
    Run.Checked .fault (pure (writeEntries P M off lo hi s)) (writeEntriesChecked P M off lo hi s)
      fun s' => s'.2 = cursor L o P.gfqBits (i + (hi - lo)) := by
  rw [writeEntries, writeEntriesChecked, Run.pure_forUp, ← Nat.one_mul (hi - lo)]
  rw [← Nat.one_mul (hi - lo)] at hfit
  exact loop_checked 1 hle (fun j i s hs hfit => bsPut_checked _ hs hfit) hs hfit

/-- Rows of a generator without their first `k` entries. -/
theorem writeRows_checked {s : Arr UInt8 × BitstreamT} (G : Arr UInt16) {lo hi : Nat}
    (hle : lo ≤ hi) (hk : P.k ≤ P.m * P.n) (hs : s.2 = cursor L o P.gfqBits i)
    (hfit : 8 * o + P.gfqBits * (i + (P.m * P.n - P.k) * (hi - lo)) ≤ 8 * L) :
    Run.Checked .fault
      (pure (forUp lo hi (fun r s => writeEntries P G (r * P.m * P.n) P.k (P.m * P.n) s) s))
      (forUpM lo hi (fun r s => writeEntriesChecked P G (r * P.m * P.n) P.k (P.m * P.n) s) s)
      fun s' => s'.2 = cursor L o P.gfqBits (i + (P.m * P.n - P.k) * (hi - lo)) := by
  rw [Run.pure_forUp]
  exact loop_checked _ hle (fun r i s hs hfit => writeEntries_checked G _ hk hs hfit) hs hfit

/-- Finalizing a block leads to the next byte. -/
theorem putFinalize_checked {x : Arr UInt8 × BitstreamT}
    {y : Run StreamFault (Arr UInt8 × BitstreamT)}
    (h : Run.Checked (ε := Fault) .fault (pure x) y fun s => s.2 = cursor L o w i) :
    Run.Checked (ε := Fault) .fault (pure (putFinalize x)) (y >>= fun s => pure (putFinalize s))
      fun s => s.2 = cursor L (o + byteLen (w * i)) w 0 := by
  obtain ⟨rfl, hx⟩ := h.of_pure
  rw [pure_bind]
  exact Run.Checked.pure (by rw [putFinalize, hx, bsFinalize_cursor])

/-- The loop of the secret key. -/
theorem writeMatrices_checked {s : Arr UInt8 × BitstreamT} (M : Arr (Arr UInt16)) (len : Nat)
    (hs1 : 1 ≤ P.s) (hs : s.2 = cursor L o P.gfqBits 0)
    (hfit : o + byteLen (P.gfqBits * len) * (P.s - 1) ≤ L) :
    Run.Checked .fault (pure (writeMatrices P M len s)) (writeMatricesChecked P M len s)
      fun s' => s'.2 = cursor L (o + byteLen (P.gfqBits * len) * (P.s - 1)) P.gfqBits 0 := by
  rw [writeMatrices, writeMatricesChecked, Run.pure_forUp]
  apply blocks_checked len hs1 ?_ hs hfit
  intro j o s hs hfit
  have hentries := writeEntries_checked (i := 0) (M.get j) 0 (Nat.zero_le len) hs
    (by rwa [Nat.sub_zero, Nat.zero_add])
  rw [Nat.sub_zero, Nat.zero_add] at hentries
  exact putFinalize_checked hentries

theorem length_lastRow (hm : 1 ≤ P.m) : P.m * P.n - (P.m - 1) * P.n = P.n := by
  rw [← Nat.sub_mul, show P.m - (P.m - 1) = 1 by omega, Nat.one_mul]

/-- Coefficients that the public key stores of one generator. -/
def pkCoeffs (P : Params) : Nat := P.n + (P.m * P.n - P.k) * (P.k - 2)

/-- The loop of the public key. -/
theorem writePkMatrices_checked {s : Arr UInt8 × BitstreamT} (G : Arr (Arr UInt16)) (hm : 1 ≤ P.m)
    (hk2 : 2 ≤ P.k) (hk : P.k ≤ P.m * P.n) (hs1 : 1 ≤ P.s) (hs : s.2 = cursor L o P.gfqBits 0)
    (hfit : o + byteLen (P.gfqBits * pkCoeffs P) * (P.s - 1) ≤ L) :
    Run.Checked .fault (pure (writePkMatrices P G s)) (writePkMatricesChecked P G s)
      fun s' => s'.2 = cursor L (o + byteLen (P.gfqBits * pkCoeffs P) * (P.s - 1)) P.gfqBits 0 := by
  rw [writePkMatrices, writePkMatricesChecked, Run.pure_forUp]
  apply blocks_checked (pkCoeffs P) hs1 ?_ hs hfit
  intro j o s hs hfit
  have hrow := length_lastRow (P := P) hm
  have hfirst := writeEntries_checked (i := 0) (G.get j) (P.m * P.n)
    (Nat.mul_le_mul_right P.n (Nat.sub_le P.m 1)) hs (by
      rw [hrow, Nat.zero_add]
      have := Nat.mul_le_mul_left P.gfqBits (show P.n ≤ pkCoeffs P from Nat.le_add_right _ _)
      omega)
  rw [hrow, Nat.zero_add] at hfirst
  -- the two loops of a block, then its end
  obtain ⟨heq, hs'⟩ := hfirst.of_pure
  rw [heq, pure_bind]
  exact putFinalize_checked (writeRows_checked (G.get j) hk2 hk hs' hfit)

/-- What a macro set has to satisfy for its bit streams. -/
structure Sized (P : Params) : Prop where
  one_le_m : 1 ≤ P.m
  two_le_k : 2 ≤ P.k
  k_le : P.k ≤ P.m * P.n
  one_le_s : 1 ≤ P.s
  pkBytes_eq : P.pkBytes = P.pubSeedBytes + byteLen (P.gfqBits * pkCoeffs P) * (P.s - 1)
  skBytes_eq : P.skBytes = P.secSeedBytes + P.pubSeedBytes
    + (byteLen (P.gfqBits * (P.m * P.m)) * (P.s - 1)
      + byteLen (P.gfqBits * (P.n * P.n)) * (P.s - 1))

/-- The buffer of the secret key is the field of its two loops. -/
theorem Sized.skBuffer (hP : Sized P) : P.skBytes - P.secSeedBytes - P.pubSeedBytes
    = byteLen (P.gfqBits * (P.m * P.m)) * (P.s - 1)
      + byteLen (P.gfqBits * (P.n * P.n)) * (P.s - 1) := by
  rw [hP.skBytes_eq, Nat.sub_sub, Nat.add_sub_cancel_left]

/-- The buffer of the public key is the field of its loop. -/
theorem Sized.pkBuffer (hP : Sized P) :
    P.pkBytes - P.pubSeedBytes = byteLen (P.gfqBits * pkCoeffs P) * (P.s - 1) := by
  rw [hP.pkBytes_eq, Nat.add_sub_cancel_left]

theorem cursor_bsInit (L w : Nat) : bsInit L = cursor L 0 w 0 := (cursor_zero L 0 w).symm

/-- `bs_buf` holds the packed rows exactly. -/
theorem packCommitment_checked (hP : Sized P) (bsBuf : Arr UInt8) (G : Arr UInt16) :
    Run.Checked .fault (pure (packCommitment P bsBuf G)) (packCommitmentChecked P bsBuf G)
      fun _ => True := by
  rw [packCommitment, packCommitmentChecked]
  have hrows := writeRows_checked (s := (bsBuf, bsInit (bsBufLen P))) G (Nat.zero_le P.k) hP.k_le
    (cursor_bsInit _ _) (by
      rw [bsBufLen, ceiling_eight, byteLen, Nat.sub_zero, Nat.zero_add, Nat.mul_comm P.k,
        Nat.mul_comm _ P.gfqBits, Nat.zero_add]
      omega)
  rw [hrows.of_pure.1, pure_bind]
  exact Run.Checked.pure trivial

/-- `crypto_sign_keypair` is never refused, and its size check never fails. -/
theorem cryptoSignKeypair_checked (SHAKE256 : Shake) (hP : Sized P) (delta : List UInt8)
    (pk sk : Arr UInt8) :
    Run.Checked .fault (cryptoSignKeypair P SHAKE256 delta pk sk)
      (cryptoSignKeypairChecked P SHAKE256 delta pk sk) fun r => r.1 = 0 := by
  rw [cryptoSignKeypair, cryptoSignKeypairChecked]
  apply (Run.Checked.unchecked _).bind
  rintro ⟨sigmaG0, K⟩ -
  simp only
  obtain ⟨heq, hbs⟩ := (writePkMatrices_checked (s := (_, bsInit (P.pkBytes - P.pubSeedBytes))) K.G
    hP.one_le_m hP.two_le_k hP.k_le hP.one_le_s (cursor_bsInit _ _)
    (by rw [hP.pkBuffer, Nat.zero_add])).of_pure
  have hcheck : ¬ P.pkBytes ≠ P.pubSeedBytes
      + (cursor (P.pkBytes - P.pubSeedBytes) (0 + byteLen (P.gfqBits * pkCoeffs P) * (P.s - 1))
          P.gfqBits 0).bytePos
      + (if (cursor (P.pkBytes - P.pubSeedBytes) (0 + byteLen (P.gfqBits * pkCoeffs P) * (P.s - 1))
          P.gfqBits 0).bitPos > 0 then 1 else 0) := by
    rw [cursor_zero, if_neg (Nat.lt_irrefl 0), hP.pkBytes_eq, Nat.zero_add]
    exact not_not_intro rfl
  rw [heq, pure_bind, hbs, if_neg hcheck, if_neg hcheck]
  obtain ⟨heqA, hsA⟩ := (writeMatrices_checked
    (s := (_, bsInit (P.skBytes - P.secSeedBytes - P.pubSeedBytes))) K.Ainv (P.m * P.m) hP.one_le_s
    (cursor_bsInit _ _) (by rw [hP.skBuffer, Nat.zero_add]; exact Nat.le_add_right _ _)).of_pure
  obtain ⟨heqB, -⟩ := (writeMatrices_checked K.Binv (P.n * P.n) hP.one_le_s hsA
    (by rw [hP.skBuffer, Nat.zero_add])).of_pure
  rw [heqA, pure_bind, heqB, pure_bind]
  exact Run.Checked.pure rfl

/-! ## Signing -/

/-- A field loop over entries: what it stores may depend on the round. -/
theorem readLoop_checked (mem : Nat → Option UInt8) (g : Nat → Nat → Arr UInt16 → Arr UInt16)
    {lo hi : Nat} (hle : lo ≤ hi) {s : Arr UInt16 × BitstreamT} (hs : s.2 = cursor L o w i)
    (hfit : 8 * o + w * (i + (hi - lo)) ≤ 8 * L) :
    Run.Checked .fault
      (Run.ofOption .outOfBounds (forUpM lo hi
        (fun j s => bsRead mem s.2 w >>= fun r => pure (g j r.1 s.1, r.2)) s))
      (forUpM lo hi (fun j s => bsReadChecked mem s.2 w >>= fun r => pure (g j r.1 s.1, r.2)) s)
      fun s' => s'.2 = cursor L o w (i + (hi - lo)) := by
  rw [Run.ofOption_forUpM, ← Nat.one_mul (hi - lo)]
  rw [← Nat.one_mul (hi - lo)] at hfit
  apply loop_checked 1 hle ?_ hs hfit
  intro j i s hs hfit
  rw [Run.ofOption_bind]
  exact (bsRead_checked mem hs hfit).bind fun r hr => Run.Checked.pure hr

theorem readEntries_checked (mem : Nat → Option UInt8) (off : Nat) {lo hi : Nat} (hle : lo ≤ hi)
    {s : Arr UInt16 × BitstreamT} (hs : s.2 = cursor L o P.gfqBits i)
    (hfit : 8 * o + P.gfqBits * (i + (hi - lo)) ≤ 8 * L) :
    Run.Checked .fault (Run.ofOption .outOfBounds (readEntries P mem off lo hi s))
      (readEntriesChecked P mem off lo hi s)
      fun s' => s'.2 = cursor L o P.gfqBits (i + (hi - lo)) :=
  readLoop_checked mem (fun j v M => M.set (off + j) (UInt16.ofNat v)) hle hs hfit

/-- The loops that read the secret key. -/
theorem readMatrices_checked (mem : Nat → Option UInt8) (len : Nat) (hs1 : 1 ≤ P.s)
    {bs : BitstreamT} (hbs : bs = cursor L o P.gfqBits 0)
    (hfit : o + byteLen (P.gfqBits * len) * (P.s - 1) ≤ L) :
    Run.Checked .fault (Run.ofOption .outOfBounds (readMatrices P mem len bs))
      (readMatricesChecked P mem len bs)
      fun s' => s'.2 = cursor L (o + byteLen (P.gfqBits * len) * (P.s - 1)) P.gfqBits 0 := by
  rw [readMatrices, readMatricesChecked, Run.ofOption_forUpM]
  apply blocks_checked len hs1 ?_ hbs hfit
  intro j o s hs hfit
  rw [Run.ofOption_bind]
  apply (readEntries_checked (i := 0) mem 0 (Nat.zero_le len) hs
    (by rwa [Nat.sub_zero, Nat.zero_add])).bind
  rintro ⟨M, bs'⟩ hbs'
  obtain rfl : bs' = _ := hbs'
  apply Run.Checked.pure
  rw [bsFinalize_cursor, Nat.sub_zero, Nat.zero_add]

theorem loadSecretKey_checked (SHAKE256 : Shake) (hP : Sized P) (sk : List UInt8) :
    Run.Checked .fault (loadSecretKey P SHAKE256 sk) (loadSecretKeyChecked P SHAKE256 sk)
      fun _ => True := by
  rw [loadSecretKey, loadSecretKeyChecked]
  apply (Run.Checked.unchecked _).bind
  intro sigmaG0 _
  apply (Run.Checked.unchecked _).bind
  intro G0 _
  apply (readMatrices_checked _ (P.m * P.m) hP.one_le_s (cursor_bsInit _ _)
    (by rw [hP.skBuffer, Nat.zero_add]; exact Nat.le_add_right _ _)).bind
  rintro ⟨Ainv, bs⟩ hbs
  apply (readMatrices_checked _ (P.n * P.n) hP.one_le_s hbs (by rw [hP.skBuffer, Nat.zero_add])).bind
  rintro ⟨Binv, bs'⟩ -
  exact Run.Checked.pure trivial

theorem signCommit_checked (SHAKE256 : Shake) (hP : Sized P) (bsBuf : Nat → Arr UInt8)
    (G0 : Arr UInt16) (alpha : List UInt8) (j : Nat) (s : SignState) :
    Run.Checked .fault (signCommit P SHAKE256 bsBuf G0 alpha j s)
      (signCommitChecked P SHAKE256 bsBuf G0 alpha j s) fun _ => True := by
  rw [signCommit, signCommitChecked]
  apply (Run.Checked.unchecked _).bind
  rintro ⟨stree, Atilde, Btilde, Gtilde⟩ -
  simp only
  rw [(packCommitment_checked hP (bsBuf j) Gtilde).of_pure.1, pure_bind]
  exact Run.Checked.pure trivial

theorem bits_le_byteLen (n : Nat) : n ≤ 8 * byteLen n := by
  rw [byteLen]
  omega

theorem writeProduct_checked (n : Nat) (A B : Arr UInt16) {s : Arr UInt8 × BitstreamT}
    (hs : s.2 = cursor L o P.gfqBits 0) (hfit : o + byteLen (P.gfqBits * (n * n)) ≤ L) :
    Run.Checked .fault (pure (writeProduct P n A B s)) (writeProductChecked P n A B s)
      fun s' => s'.2 = cursor L (o + byteLen (P.gfqBits * (n * n))) P.gfqBits 0 := by
  have hbits := bits_le_byteLen (P.gfqBits * (n * n))
  have hentries := writeEntries_checked (i := 0) (pmodMatMul P Arr.empty n n A n n B n) 0
    (Nat.zero_le (n * n)) hs (by rw [Nat.sub_zero, Nat.zero_add]; omega)
  rw [Nat.sub_zero, Nat.zero_add] at hentries
  exact putFinalize_checked hentries

/-- Bytes of one response. -/
def munuLen (P : Params) : Nat :=
  byteLen (P.gfqBits * (P.m * P.m)) + byteLen (P.gfqBits * (P.n * P.n))

theorem munuBytes_eq (P : Params) : munuBytes P = P.w * munuLen P := by
  rw [munuBytes, munuLen, Params.matABytes, Params.matBBytes, ceiling_eight, ceiling_eight,
    Nat.mul_comm (P.m * P.m), Nat.mul_comm (P.n * P.n)]

/-- Where the responses stand after the rounds before `j`. -/
def munuCursor (P : Params) (h : Arr UInt8) (j : Nat) : BitstreamT :=
  cursor (munuBytes P) (challenged h j * munuLen P) P.gfqBits 0

theorem munuCursor_zero (P : Params) (h : Arr UInt8) : munuCursor P h 0 = bsInit (munuBytes P) := by
  rw [munuCursor, challenged, List.range_zero, List.filter_nil, List.length_nil, Nat.zero_mul,
    cursor_zero]
  rfl

/-- A free round leaves the cursor alone. -/
theorem munuCursor_free {h : Arr UInt8} {j : Nat} (hj : ¬ h.get j > 0) :
    munuCursor P h (j + 1) = munuCursor P h j := by
  rw [munuCursor, munuCursor, challenged_succ, if_neg hj, Nat.add_zero]

/-- A challenged round moves past the two blocks of a response. -/
theorem munuCursor_challenged {h : Arr UInt8} {j : Nat} (hj : h.get j > 0) :
    munuCursor P h (j + 1) = cursor (munuBytes P) (challenged h j * munuLen P
      + byteLen (P.gfqBits * (P.m * P.m)) + byteLen (P.gfqBits * (P.n * P.n))) P.gfqBits 0 := by
  rw [munuCursor, challenged_succ, if_pos hj, Nat.succ_mul,
    Nat.add_assoc (challenged h j * munuLen P)]
  rfl

/-- Among w responses there is room for the next. -/
theorem munu_room {h : Arr UInt8} (hcount : challenged h P.t = P.w) {j : Nat} (hj : j < P.t)
    (hpos : h.get j > 0) : challenged h j * munuLen P + munuLen P ≤ munuBytes P := by
  have hle : challenged h (j + 1) ≤ challenged h P.t := challenged_le h hj
  rw [challenged_succ, if_pos hpos, hcount] at hle
  rw [munuBytes_eq, ← Nat.succ_mul]
  exact Nat.mul_le_mul_right _ hle

/-- A round of the response loop of `crypto_sign`. -/
theorem signResponse_checked (K : KeyMatrices) (st : SignState) {h : Arr UInt8}
    (hcount : challenged h P.t = P.w) {j : Nat} (hj : j < P.t) {s : Arr UInt8 × BitstreamT}
    (hs : s.2 = munuCursor P h j) :
    Run.Checked .fault (pure (signResponse P K st h j s)) (signResponseChecked P K st h j s)
      fun s' => s'.2 = munuCursor P h (j + 1) := by
  rw [signResponse, signResponseChecked]
  by_cases hpos : h.get j > 0
  · rw [if_pos hpos, if_pos hpos, munuCursor_challenged hpos]
    have hroom : challenged h j * munuLen P
        + (byteLen (P.gfqBits * (P.m * P.m)) + byteLen (P.gfqBits * (P.n * P.n))) ≤ munuBytes P :=
      munu_room hcount hj hpos
    obtain ⟨heq, hmu⟩ := (writeProduct_checked P.m (st.Atilde.get j) (K.Ainv.get (h.get j).toNat) hs
      (by omega)).of_pure
    rw [heq, pure_bind]
    exact writeProduct_checked P.n _ _ hmu (by omega)
  · rw [if_neg hpos, if_neg hpos, munuCursor_free hpos]
    exact Run.Checked.pure hs

/-- The response loop of `crypto_sign` fills its field. -/
theorem signResponses_checked (K : KeyMatrices) (st : SignState) {h : Arr UInt8}
    (hcount : challenged h P.t = P.w) (buf : Arr UInt8) :
    Run.Checked .fault (pure (forUp 0 P.t (signResponse P K st h) (buf, bsInit (munuBytes P))))
      (forUpM 0 P.t (signResponseChecked P K st h) (buf, bsInit (munuBytes P)))
      fun s' => s'.2 = munuCursor P h P.t := by
  rw [Run.pure_forUp]
  apply Run.Checked.forUpM (fun j (s : Arr UInt8 × BitstreamT) => s.2 = munuCursor P h j)
    (Nat.zero_le _)
  · intro j s _ hj hs
    exact signResponse_checked K st hcount hj hs
  · exact (munuCursor_zero P h).symm

/-- `crypto_sign` is never refused. -/
theorem cryptoSign_checked (SHAKE256 : Shake) (hP : Sized P) (bsBuf : Nat → Arr UInt8)
    (delta : List UInt8) (sm : Arr UInt8) (m sk : List UInt8) :
    Run.Checked .fault (cryptoSign P SHAKE256 bsBuf delta sm m sk)
      (cryptoSignChecked P SHAKE256 bsBuf delta sm m sk) fun _ => True := by
  rw [cryptoSign, cryptoSignChecked]
  apply (loadSecretKey_checked SHAKE256 hP sk).bind
  intro K _
  have hcommit : Run.Checked .fault (signCommitments P SHAKE256 bsBuf delta (K.G.get 0))
      (signCommitmentsChecked P SHAKE256 bsBuf delta (K.G.get 0)) fun _ => True := by
    rw [signCommitments, signCommitmentsChecked]
    apply Run.Checked.bind (Q := fun _ => True)
    · apply Run.Checked.forUpM (fun _ _ => True) (Nat.zero_le _) _ trivial
      intro j s _ _ _
      exact signCommit_checked SHAKE256 hP bsBuf _ _ j s
    · intro st _
      exact Run.Checked.pure trivial
  apply hcommit.bind
  rintro ⟨alpha, st⟩ -
  apply (Run.Checked.unchecked _).bind
  rintro ⟨ret, h⟩ hparse
  have hcount : challenged h P.t = P.w :=
    (parseHash_returns (Nat.lt_of_lt_of_le Nat.zero_lt_one hP.one_le_s) hparse).weight
  simp only
  rw [signRespond, signRespondChecked]
  apply (Run.Checked.unchecked _).bind
  intro path _
  rw [(signResponses_checked K st hcount path.path).of_pure.1, pure_bind]
  exact Run.Checked.pure trivial

/-! ## Opening -/

theorem readRows_checked (mem : Nat → Option UInt8) {lo hi : Nat} (hle : lo ≤ hi)
    (hk : P.k ≤ P.m * P.n) {s : Arr UInt16 × BitstreamT} (hs : s.2 = cursor L o P.gfqBits i)
    (hfit : 8 * o + P.gfqBits * (i + (P.m * P.n - P.k) * (hi - lo)) ≤ 8 * L) :
    Run.Checked .fault
      (Run.ofOption .outOfBounds
        (forUpM lo hi (fun r s => readEntries P mem (r * P.m * P.n) P.k (P.m * P.n) s) s))
      (forUpM lo hi (fun r s => readEntriesChecked P mem (r * P.m * P.n) P.k (P.m * P.n) s) s)
      fun s' => s'.2 = cursor L o P.gfqBits (i + (P.m * P.n - P.k) * (hi - lo)) := by
  rw [Run.ofOption_forUpM]
  exact loop_checked _ hle (fun r i s hs hfit => readEntries_checked mem _ hk hs hfit) hs hfit

/-- A round of the loop that reads the public key. -/
theorem readPkMatrix_checked (hP : Sized P) (mem : Nat → Option UInt8) {bs : BitstreamT}
    (hbs : bs = cursor L o P.gfqBits 0) (hfit : 8 * o + P.gfqBits * pkCoeffs P ≤ 8 * L) :
    Run.Checked .fault (Run.ofOption .outOfBounds (readPkMatrix P mem bs))
      (readPkMatrixChecked P mem bs)
      fun r => r.2 = cursor L (o + byteLen (P.gfqBits * pkCoeffs P)) P.gfqBits 0 := by
  have hrow := length_lastRow (P := P) hP.one_le_m
  rw [readPkMatrix, readPkMatrixChecked, Run.ofOption_bind]
  apply (readEntries_checked (i := 0) mem (P.m * P.n)
    (Nat.mul_le_mul_right P.n (Nat.sub_le P.m 1)) hbs (by
      rw [hrow, Nat.zero_add]
      have := Nat.mul_le_mul_left P.gfqBits (show P.n ≤ pkCoeffs P from Nat.le_add_right _ _)
      omega)).bind
  intro s hs
  rw [hrow, Nat.zero_add] at hs
  rw [Run.ofOption_bind]
  apply (readRows_checked mem hP.two_le_k hP.k_le hs hfit).bind
  rintro ⟨G, bs'⟩ hbs'
  obtain rfl : bs' = _ := hbs'
  apply Run.Checked.pure
  rw [bsFinalize_cursor]
  rfl

/-- The loop of `crypto_sign_open` over the public key. -/
def readPkMatrices (P : Params) (mem : Nat → Option UInt8) (s : Arr (Arr UInt16) × BitstreamT) :
    Option (Arr (Arr UInt16) × BitstreamT) :=
  forUpM 1 P.s (fun j s => readPkMatrix P mem s.2 >>= fun r => pure (s.1.set j r.1, r.2)) s

theorem readPkMatrices_checked (hP : Sized P) (mem : Nat → Option UInt8)
    {s : Arr (Arr UInt16) × BitstreamT} (hs : s.2 = cursor L o P.gfqBits 0)
    (hfit : o + byteLen (P.gfqBits * pkCoeffs P) * (P.s - 1) ≤ L) :
    Run.Checked .fault
      (Run.ofOption .outOfBounds (readPkMatrices P mem s))
      (forUpM 1 P.s
        (fun j s => readPkMatrixChecked P mem s.2 >>= fun r => pure (s.1.set j r.1, r.2)) s)
      fun s' => s'.2 = cursor L (o + byteLen (P.gfqBits * pkCoeffs P) * (P.s - 1)) P.gfqBits 0 := by
  rw [readPkMatrices, Run.ofOption_forUpM]
  apply blocks_checked (pkCoeffs P) hP.one_le_s ?_ hs hfit
  intro j o s hs hfit
  rw [Run.ofOption_bind]
  exact (readPkMatrix_checked hP mem hs hfit).bind fun r hr => Run.Checked.pure hr

theorem loadPublicKey_checked (SHAKE256 : Shake) (hP : Sized P) (pk : List UInt8) :
    Run.Checked .fault (loadPublicKey P SHAKE256 pk) (loadPublicKeyChecked P SHAKE256 pk)
      fun _ => True := by
  rw [loadPublicKey, loadPublicKeyChecked]
  apply (Run.Checked.unchecked _).bind
  intro sigmaG0 _
  apply (Run.Checked.unchecked _).bind
  intro G0 _
  apply (readPkMatrices_checked hP _ (s := (_, bsInit (P.pkBytes - P.pubSeedBytes)))
    (cursor_bsInit _ _)
    (by rw [hP.pkBuffer, Nat.zero_add])).bind
  rintro ⟨G, bs⟩ -
  exact Run.Checked.pure trivial

theorem readResponse_checked (mem : Nat → Option UInt8) (n : Nat) {bs : BitstreamT}
    (hbs : bs = cursor L o P.gfqBits 0) (hfit : o + byteLen (P.gfqBits * (n * n)) ≤ L) :
    Run.Checked .fault (Run.ofOption .outOfBounds (readResponse P mem n bs))
      (readResponseChecked P mem n bs)
      fun r => r.2 = cursor L (o + byteLen (P.gfqBits * (n * n))) P.gfqBits 0 := by
  have hbits := bits_le_byteLen (P.gfqBits * (n * n))
  rw [readResponse, readResponseChecked, Run.ofOption_bind]
  apply (readLoop_checked mem (fun j v M => M.set j (UInt16.ofNat (v % P.p))) (Nat.zero_le (n * n))
    (i := 0) hbs (by rw [Nat.sub_zero, Nat.zero_add]; omega)).bind
  rintro ⟨M, bs'⟩ hbs'
  obtain rfl : bs' = _ := hbs'
  apply Run.Checked.pure
  rw [bsFinalize_cursor, Nat.sub_zero, Nat.zero_add]

/-- The challenged branch of `crypto_sign_open`. -/
theorem openResponse_checked (mem : Nat → Option UInt8) (G : Arr UInt16) {bs : BitstreamT}
    (hbs : bs = cursor L o P.gfqBits 0) (hfit : o + munuLen P ≤ L) :
    Run.Checked .fault (openResponse P mem G bs) (openResponseChecked P mem G bs)
      fun r => ∀ Ghat bs', r = some (Ghat, bs') →
        bs' = cursor L (o + byteLen (P.gfqBits * (P.m * P.m)) + byteLen (P.gfqBits * (P.n * P.n)))
          P.gfqBits 0 := by
  rw [munuLen] at hfit
  rw [openResponse, openResponseChecked]
  apply (readResponse_checked mem P.m hbs (by omega)).bind
  rintro ⟨mu, bs1⟩ hmu
  apply (readResponse_checked mem P.n hmu (by omega)).bind
  rintro ⟨nu, bs2⟩ hnu
  simp only
  split_ifs
  · exact Run.Checked.pure fun _ _ h => by cases h
  · exact Run.Checked.pure fun _ _ h => by cases h
  · exact Run.Checked.pure fun _ _ h => by cases h
  · apply Run.Checked.pure
    rintro Ghat bs' h
    obtain ⟨-, rfl⟩ := Prod.mk.inj (Option.some.inj h)
    exact hnu

/-- A round of the loop of `crypto_sign_open`. -/
theorem openRound_checked (SHAKE256 : Shake) (hP : Sized P) (mem : Nat → Option UInt8)
    (bsBuf : Nat → Arr UInt8) (G : Arr (Arr UInt16)) (alpha : List UInt8) {h : Arr UInt8}
    (hcount : challenged h P.t = P.w) {j : Nat} (hj : j < P.t) {r : Option OpenState}
    (hr : ∀ s, r = some s → s.bs = munuCursor P h j) :
    Run.Checked .fault (openRound P SHAKE256 mem bsBuf G alpha h j r)
      (openRoundChecked P SHAKE256 mem bsBuf G alpha h j r)
      fun r' => ∀ s, r' = some s → s.bs = munuCursor P h (j + 1) := by
  cases r with
  | none => exact Run.Checked.pure fun _ h => by cases h
  | some s =>
      have hs := hr s rfl
      rw [openRound, openRoundChecked]
      -- a challenged round reads its response, a free one reads nothing
      by_cases hpos : h.get j > 0
      · rw [if_pos hpos, if_pos hpos, munuCursor_challenged hpos]
        apply (openResponse_checked mem (G.get (h.get j).toNat) hs (munu_room hcount hj hpos)).bind
        intro r' hr'
        cases r' with
        | none => exact Run.Checked.pure fun _ h => by cases h
        | some x =>
            obtain ⟨Ghat, bs⟩ := x
            simp only
            rw [(packCommitment_checked hP (bsBuf j) Ghat).of_pure.1, pure_bind]
            apply Run.Checked.pure
            rintro s' h'
            rw [← Option.some.inj h']
            exact hr' Ghat bs rfl
      · rw [if_neg hpos, if_neg hpos, munuCursor_free hpos]
        apply (Run.Checked.unchecked _).bind
        rintro ⟨stree, A, B, Ghat⟩ -
        simp only
        rw [(packCommitment_checked hP (bsBuf j) Ghat).of_pure.1, pure_bind]
        apply Run.Checked.pure
        rintro s' h'
        rw [← Option.some.inj h']
        exact hs

theorem openRounds_checked (SHAKE256 : Shake) (hP : Sized P) (mem : Nat → Option UInt8)
    (bsBuf : Nat → Arr UInt8) (G : Arr (Arr UInt16)) (alpha : List UInt8) {h : Arr UInt8}
    (hcount : challenged h P.t = P.w) (stree : Arr UInt8) (shake : KeccakState) :
    Run.Checked .fault
      (forUpM 0 P.t (openRound P SHAKE256 mem bsBuf G alpha h)
        (some ⟨bsInit (munuBytes P), stree, shake⟩))
      (forUpM 0 P.t (openRoundChecked P SHAKE256 mem bsBuf G alpha h)
        (some ⟨bsInit (munuBytes P), stree, shake⟩))
      fun r => ∀ s, r = some s → s.bs = munuCursor P h P.t := by
  apply Run.Checked.forUpM
    (fun j (r : Option OpenState) => ∀ s, r = some s → s.bs = munuCursor P h j) (Nat.zero_le _)
  · intro j r _ hj hr
    exact openRound_checked SHAKE256 hP mem bsBuf G alpha hcount hj hr
  · intro s hs
    rw [← Option.some.inj hs, munuCursor_zero]

/-- `crypto_sign_open` is never refused. -/
theorem cryptoSignOpen_checked (SHAKE256 : Shake) (hP : Sized P) (bsBuf : Nat → Arr UInt8)
    (m : Arr UInt8) (mlen : Nat) (sm pk : List UInt8) :
    Run.Checked .fault (cryptoSignOpen P SHAKE256 bsBuf m mlen sm pk)
      (cryptoSignOpenChecked P SHAKE256 bsBuf m mlen sm pk) fun _ => True := by
  rw [cryptoSignOpen, cryptoSignOpenChecked]
  apply (loadPublicKey_checked SHAKE256 hP pk).bind
  intro G _
  apply (Run.Checked.unchecked _).bind
  intro digest _
  apply (Run.Checked.unchecked _).bind
  rintro ⟨ret, h⟩ hparse
  have hcount : challenged h P.t = P.w :=
    (parseHash_returns (Nat.lt_of_lt_of_le Nat.zero_lt_one hP.one_le_s) hparse).weight
  apply (Run.Checked.unchecked _).bind
  intro alpha _
  apply (Run.Checked.unchecked _).bind
  intro st _
  apply (openRounds_checked SHAKE256 hP _ bsBuf G alpha hcount st.stree shake256Init).bind
  intro r _
  exact (Run.Checked.unchecked _).mono fun _ _ => trivial

end

end Meds.Ref
