/-
  Meds.Ref.Sizes

  The sizes of include/params.py against the bit streams of
  ref/meds_serial.c: every loop ends where params.py says its field ends, no
  call of `bs_write` or `bs_read` is refused, and the size check of
  `crypto_sign_keypair` never fails.  The logarithms of params.py are exact
  here, as its doubles are for q, t and w below 2^29.
-/

import Meds.Ref.CheckedStream

namespace Meds.Ref

open Meds.Core

/-! ## include/params.py -/

/-- The dataclass `Param`. -/
structure Param where
  digestBytes : Nat
  pubSeedBytes : Nat
  secSeedBytes : Nat
  stSeedBytes : Nat
  stSaltBytes : Nat
  q : Nat
  n : Nat
  m : Nat
  s : Nat
  t : Nat
  w : Nat
  k : Nat

namespace Param

/-- `ceil(x / 8)` on Python's integers. -/
def ceil8 (x : Int) : Int := -(-x / 8)

variable (par : Param)

/-- `ceil(log2(q))`. -/
def qBits : Nat := Nat.clog 2 par.q

def pkSize : Int :=
  let s : Int := par.s
  let k : Int := par.k
  let m : Int := par.m
  let n : Int := par.n
  (s - 1) * ceil8 ((k * (m * n - k) - (m * n - k + (m - 1) * n - k)) * par.qBits) + par.pubSeedBytes

def matBytes (i j : Int) : Int := ceil8 (i * j * par.qBits)

def skSize : Int :=
  (par.s - 1) * (par.matBytes par.m par.m + par.matBytes par.n par.n) + par.secSeedBytes
    + par.pubSeedBytes

def seedTreeCost : Int := seedMaxTreeLen par.t par.w * par.stSeedBytes

def sigSize : Int :=
  par.digestBytes + par.w * (par.matBytes par.m par.m + par.matBytes par.n par.n)
    + par.seedTreeCost + par.stSaltBytes

/-- `gen_param`: the macros of params.h. -/
def genParam : Params where
  digestBytes := par.digestBytes
  pubSeedBytes := par.pubSeedBytes
  secSeedBytes := par.secSeedBytes
  stSeedBytes := par.stSeedBytes
  stSaltBytes := par.stSaltBytes
  p := par.q
  gfqBits := par.qBits
  m := par.m
  n := par.n
  k := par.k
  s := par.s
  t := par.t
  w := par.w
  seedTreeHeight := Nat.clog 2 par.t
  seedTreeSize := 2 ^ (Nat.clog 2 par.t + 1) - 1
  maxPathLen := (seedMaxTreeLen par.t par.w).toNat
  tMask := 2 ^ Nat.clog 2 par.t - 1
  tBytes := Nat.clog 256 (par.t - 1)
  sMask := 2 ^ Nat.clog 2 par.s - 1
  pkBytes := par.pkSize.toNat
  skBytes := par.skSize.toNat
  sigBytes := par.sigSize.toNat

/-- The tuples under consideration.  Below 2^28 bytes no product of the range
    checks leaves `uint32_t`. -/
structure InRange : Prop where
  two_le_q : 2 ≤ par.q
  q_le : par.q ≤ 2 ^ 16
  two_le_m : 2 ≤ par.m
  two_le_n : 2 ≤ par.n
  two_le_k : 2 ≤ par.k
  k_le : par.k ≤ par.m * par.n
  one_le_s : 1 ≤ par.s
  one_le_w : 1 ≤ par.w
  w_le : par.w ≤ par.t
  pkSize_lt : par.pkSize < 2 ^ 28
  skSize_lt : par.skSize < 2 ^ 28
  sigSize_lt : par.sigSize < 2 ^ 28
  bsBufLen_lt : bsBufLen par.genParam < 2 ^ 28

theorem ceil8_natCast (x : Nat) : ceil8 x = byteLen x := by
  rw [ceil8, byteLen]
  omega

variable {par}

/-- The difference of products of params.py counts the coefficients. -/
theorem InRange.pkCoeffs_eq (h : par.InRange) :
    (par.k * (par.m * par.n - par.k)
      - (par.m * par.n - par.k + (par.m - 1) * par.n - par.k)   : Int) = pkCoeffs par.genParam := by
  have hk := h.two_le_k
  have hmn := h.k_le
  simp only [pkCoeffs, genParam]
  push_cast [Nat.cast_sub hmn, Nat.cast_sub hk]
  ring

theorem InRange.pkSize_eq (h : par.InRange) :
    par.pkSize = par.pubSeedBytes
      + byteLen (par.qBits * pkCoeffs par.genParam) * (par.s - 1 : Nat) := by
  have hs := h.one_le_s
  simp only [pkSize]
  rw [h.pkCoeffs_eq, ← Nat.cast_mul, ceil8_natCast, Nat.mul_comm (pkCoeffs par.genParam)]
  push_cast [Nat.cast_sub hs]
  ring

theorem matBytes_self (par : Param) (i : Nat) :
    par.matBytes i i = byteLen (par.qBits * (i * i)) := by
  rw [matBytes, ← Nat.cast_mul, ← Nat.cast_mul, ceil8_natCast, Nat.mul_comm (i * i)]

theorem InRange.skSize_eq (h : par.InRange) :
    par.skSize = par.secSeedBytes + par.pubSeedBytes
      + (byteLen (par.qBits * (par.m * par.m)) * (par.s - 1 : Nat)
        + byteLen (par.qBits * (par.n * par.n)) * (par.s - 1 : Nat)) := by
  have hs := h.one_le_s
  rw [skSize, matBytes_self, matBytes_self]
  push_cast [Nat.cast_sub hs]
  ring

/-- A path has no negative number of nodes. -/
theorem InRange.seedMaxTreeLen_nonneg (h : par.InRange) : 0 ≤ seedMaxTreeLen par.t par.w := by
  have hle : Nat.clog 2 par.w ≤ Nat.clog 2 par.t := Nat.clog_mono_right 2 h.w_le
  have hw : par.w ≤ 2 ^ Nat.clog 2 par.w := Nat.le_pow_clog (by decide) _
  have hw' : (par.w : Int) ≤ 2 ^ Nat.clog 2 par.w := by exact_mod_cast hw
  have hmul : (par.w : Int) * ((Nat.clog 2 par.t : Int) - Nat.clog 2 par.w) ≥ 0 :=
    Int.mul_nonneg (by omega) (by omega)
  rw [seedMaxTreeLen, Int.mul_sub, Int.mul_one]
  omega

end Param

/-! ## The declared sizes -/

theorem Param.InRange.sized {par : Param} (h : par.InRange) : Sized par.genParam where
  one_le_m := Nat.le_of_succ_le h.two_le_m
  two_le_k := h.two_le_k
  k_le := h.k_le
  one_le_s := h.one_le_s
  pkBytes_eq := by
    have := h.pkSize_eq
    simp only [Param.genParam] at this ⊢
    omega
  skBytes_eq := by
    have := h.skSize_eq
    simp only [Param.genParam] at this ⊢
    omega

theorem Param.InRange.sigSize_eq {par : Param} (h : par.InRange) :
    par.sigSize = munuBytes par.genParam + (par.digestBytes
      + par.genParam.maxPathLen * par.stSeedBytes + par.stSaltBytes : Nat) := by
  have hlen : ((seedMaxTreeLen par.t par.w).toNat : Int) = seedMaxTreeLen par.t par.w :=
    Int.toNat_of_nonneg h.seedMaxTreeLen_nonneg
  rw [munuBytes_eq, munuLen, Param.sigSize, Param.seedTreeCost, Param.matBytes_self,
    Param.matBytes_self]
  simp only [Param.genParam]
  push_cast [hlen]
  ring

/-- A stream that ends on a byte boundary where, together with the fixed
    fields, `size` bytes are reached. -/
structure EndsAt (bs : BitstreamT) (fixed : Nat) (size : Int) : Prop where
  bitPos_eq : bs.bitPos = 0
  bytes_eq : (bs.bytePos : Int) + fixed = size

theorem EndsAt.of_cursor {bs : BitstreamT} {L o w fixed : Nat} {size : Int}
    (hbs : bs = cursor L o w 0) (h : (o : Int) + fixed = size) : EndsAt bs fixed size := by
  rw [hbs, cursor_zero]
  exact ⟨rfl, h⟩

/-- The sizes of params.py are those of the fields, and no bit stream is refused. -/
structure SizesMatch (SHAKE256 : Shake) (par : Param) (P : Params) : Prop where
  pk_written : ∀ G buf,
    EndsAt (writePkMatrices P G (buf, bsInit (P.pkBytes - P.pubSeedBytes))).2
      P.pubSeedBytes par.pkSize
  pk_read : ∀ mem G s,
    readPkMatrices P mem (G, bsInit (P.pkBytes - P.pubSeedBytes)) = some s →
    EndsAt s.2 P.pubSeedBytes par.pkSize
  sk_written : ∀ Ainv Binv buf,
    EndsAt (writeMatrices P Binv (P.n * P.n) (writeMatrices P Ainv (P.m * P.m)
        (buf, bsInit (P.skBytes - P.secSeedBytes - P.pubSeedBytes)))).2
      (P.secSeedBytes + P.pubSeedBytes) par.skSize
  sk_read : ∀ mem sA sB,
    readMatrices P mem (P.m * P.m) (bsInit (P.skBytes - P.secSeedBytes - P.pubSeedBytes))
      = some sA →
    readMatrices P mem (P.n * P.n) sA.2 = some sB →
    EndsAt sB.2 (P.secSeedBytes + P.pubSeedBytes) par.skSize
  munu_written : ∀ K st h buf, challenged h P.t = P.w →
    EndsAt (forUp 0 P.t (signResponse P K st h) (buf, bsInit (munuBytes P))).2
      (P.digestBytes + P.maxPathLen * P.stSeedBytes + P.stSaltBytes) par.sigSize
  munu_read : ∀ mem bsBuf G alpha h stree shake s, challenged h P.t = P.w →
    (forUpM 0 P.t (openRound P SHAKE256 mem bsBuf G alpha h)
      (some ⟨bsInit (munuBytes P), stree, shake⟩)).Returns (some s) →
    EndsAt s.bs (P.digestBytes + P.maxPathLen * P.stSeedBytes + P.stSaltBytes) par.sigSize
  macros : (P.pkBytes : Int) = par.pkSize ∧ (P.skBytes : Int) = par.skSize
    ∧ (P.sigBytes : Int) = par.sigSize
  no_wrap : ∀ L ∈ [P.pkBytes - P.pubSeedBytes, P.skBytes - P.secSeedBytes - P.pubSeedBytes,
    munuBytes P, bsBufLen P], 8 * L < 2 ^ 32
  keypair : ∀ delta pk sk, cryptoSignKeypairChecked P SHAKE256 delta pk sk
    = (cryptoSignKeypair P SHAKE256 delta pk sk).mapFault .fault
  keypair_status : ∀ delta pk sk r,
    (cryptoSignKeypair P SHAKE256 delta pk sk : Run Fault _).Returns r → r.1 = 0
  sign : ∀ bsBuf delta sm m sk, cryptoSignChecked P SHAKE256 bsBuf delta sm m sk
    = (cryptoSign P SHAKE256 bsBuf delta sm m sk).mapFault .fault
  signOpen : ∀ bsBuf m mlen sm pk, cryptoSignOpenChecked P SHAKE256 bsBuf m mlen sm pk
    = (cryptoSignOpen P SHAKE256 bsBuf m mlen sm pk).mapFault .fault

section

variable {par : Param} (h : par.InRange)
include h

theorem Param.InRange.pkBytes_cast : (par.genParam.pkBytes : Int) = par.pkSize := by
  apply Int.toNat_of_nonneg
  rw [h.pkSize_eq]
  positivity

theorem Param.InRange.skBytes_cast : (par.genParam.skBytes : Int) = par.skSize := by
  apply Int.toNat_of_nonneg
  rw [h.skSize_eq]
  positivity

theorem Param.InRange.sigBytes_cast : (par.genParam.sigBytes : Int) = par.sigSize := by
  apply Int.toNat_of_nonneg
  rw [h.sigSize_eq]
  positivity

/-- A stream at the end of the public key. -/
theorem Param.InRange.pk_end {bs : BitstreamT} {L w : Nat}
    (hbs : bs = cursor L (0 + byteLen (par.genParam.gfqBits * pkCoeffs par.genParam)
      * (par.genParam.s - 1)) w 0) :
    EndsAt bs par.genParam.pubSeedBytes par.pkSize := by
  apply EndsAt.of_cursor hbs
  rw [← h.pkBytes_cast, h.sized.pkBytes_eq, Nat.zero_add, Nat.add_comm]
  exact (Nat.cast_add _ _).symm

/-- A stream at the end of the secret key. -/
theorem Param.InRange.sk_end {bs : BitstreamT} {L w : Nat}
    (hbs : bs = cursor L (0
      + byteLen (par.genParam.gfqBits * (par.genParam.m * par.genParam.m)) * (par.genParam.s - 1)
      + byteLen (par.genParam.gfqBits * (par.genParam.n * par.genParam.n)) * (par.genParam.s - 1))
        w 0) :
    EndsAt bs (par.genParam.secSeedBytes + par.genParam.pubSeedBytes) par.skSize := by
  apply EndsAt.of_cursor hbs
  rw [← h.skBytes_cast, h.sized.skBytes_eq, Nat.zero_add, Nat.add_comm _ (_ + _)]
  exact (Nat.cast_add _ _).symm

/-- A stream behind w responses. -/
theorem Param.InRange.munu_end {bs : BitstreamT} {c : Arr UInt8}
    (hcount : challenged c par.genParam.t = par.genParam.w)
    (hbs : bs = munuCursor par.genParam c par.genParam.t) :
    EndsAt bs (par.genParam.digestBytes + par.genParam.maxPathLen * par.genParam.stSeedBytes
      + par.genParam.stSaltBytes) par.sigSize := by
  apply EndsAt.of_cursor hbs
  rw [hcount, ← munuBytes_eq]
  exact h.sigSize_eq.symm

theorem Param.InRange.no_wrap : ∀ L ∈ [par.genParam.pkBytes - par.genParam.pubSeedBytes,
    par.genParam.skBytes - par.genParam.secSeedBytes - par.genParam.pubSeedBytes,
    munuBytes par.genParam, bsBufLen par.genParam], 8 * L < 2 ^ 32 := by
  have hpk := h.pkBytes_cast ▸ h.pkSize_lt
  have hsk := h.skBytes_cast ▸ h.skSize_lt
  have hsig := h.sigSize_eq ▸ h.sigSize_lt
  have hbuf := h.bsBufLen_lt
  intro L hL
  simp only [List.mem_cons, List.not_mem_nil, or_false] at hL
  rcases hL with rfl | rfl | rfl | rfl <;> omega

end

/-- The declared sizes match what is encoded, for every tuple of parameters. -/
theorem sizes_match (SHAKE256 : Shake) (par : Param) (h : par.InRange) :
    SizesMatch SHAKE256 par par.genParam where
  pk_written G buf := h.pk_end (writePkMatrices_checked (s := (buf, bsInit _)) G h.sized.one_le_m
    h.two_le_k h.k_le h.one_le_s (cursor_bsInit _ _)
    (by rw [h.sized.pkBuffer, Nat.zero_add])).of_pure.2
  pk_read mem G s hs := h.pk_end ((readPkMatrices_checked (s := (G, bsInit _)) h.sized mem
    (cursor_bsInit _ _) (by rw [h.sized.pkBuffer, Nat.zero_add])).post s (Run.returns_ofOption.mpr hs))
  sk_written Ainv Binv buf := by
    have hA := (writeMatrices_checked (P := par.genParam)
      (s := (buf, bsInit (par.genParam.skBytes - par.genParam.secSeedBytes
        - par.genParam.pubSeedBytes)))
      Ainv (par.genParam.m * par.genParam.m) h.one_le_s (cursor_bsInit _ _)
      (by rw [h.sized.skBuffer, Nat.zero_add]; exact Nat.le_add_right _ _)).of_pure.2
    exact h.sk_end (writeMatrices_checked Binv (par.genParam.n * par.genParam.n) h.one_le_s hA
      (by rw [h.sized.skBuffer, Nat.zero_add])).of_pure.2
  sk_read mem sA sB hsA hsB := by
    have hA := (readMatrices_checked (P := par.genParam) mem (par.genParam.m * par.genParam.m)
      h.one_le_s (cursor_bsInit _ _)
      (by rw [h.sized.skBuffer, Nat.zero_add]; exact Nat.le_add_right _ _)).post sA
      (Run.returns_ofOption.mpr hsA)
    exact h.sk_end ((readMatrices_checked mem (par.genParam.n * par.genParam.n) h.one_le_s hA
      (by rw [h.sized.skBuffer, Nat.zero_add])).post sB (Run.returns_ofOption.mpr hsB))
  munu_written K st c buf hc := h.munu_end hc (signResponses_checked K st hc buf).of_pure.2
  munu_read mem bsBuf G alpha c stree shake s hc hs := h.munu_end hc
    ((openRounds_checked SHAKE256 h.sized mem bsBuf G alpha hc stree shake).post _ hs s rfl)
  macros := ⟨h.pkBytes_cast, h.skBytes_cast, h.sigBytes_cast⟩
  no_wrap := h.no_wrap
  keypair delta pk sk := (cryptoSignKeypair_checked SHAKE256 h.sized delta pk sk).eq
  keypair_status delta pk sk r hr :=
    (cryptoSignKeypair_checked SHAKE256 h.sized delta pk sk).post r hr
  sign bsBuf delta sm m sk := (cryptoSign_checked SHAKE256 h.sized bsBuf delta sm m sk).eq
  signOpen bsBuf m mlen sm pk := (cryptoSignOpen_checked SHAKE256 h.sized bsBuf m mlen sm pk).eq

/-- A tuple with rectangular matrices. -/
def narrow : Param where
  digestBytes := 16
  pubSeedBytes := 32
  secSeedBytes := 32
  stSeedBytes := 16
  stSaltBytes := 32
  q := 5
  n := 3
  m := 2
  s := 3
  t := 4
  w := 2
  k := 5

theorem sizes_match_narrow : SizesMatch toyShake narrow narrow.genParam :=
  sizes_match toyShake narrow
    ⟨by decide, by decide, by decide, by decide, by decide, by decide, by decide, by decide,
      by decide, by decide, by decide, by decide, by decide⟩

end Meds.Ref
