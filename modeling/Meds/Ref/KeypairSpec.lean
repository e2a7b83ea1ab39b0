/-
  Meds.Ref.KeypairSpec

  What `crypto_sign_keypair` puts into the keys.

  Every G[i] is the systematic form of G[0] under some (A, B) whose inverses
  go into the secret key, and `solve` has made its first two rows constant up
  to the last n entries of the second one.  So the public key, which omits
  these entries and the identity block, still determines G[i].
-/

import Meds.Ref.PackSpec
import Meds.Ref.SolveSpec
import Meds.Ref.UtilSpec

namespace Meds.Ref

open Meds.Core

variable {P : Params} {SHAKE256 : Shake} {ε : Type}

/-! ## The matrices in GF(p) -/

section

variable (P)

/-- A generator as a table of `n` flattened matrices. -/
def gen (G : Arr UInt16) : Matrix (Fin P.n) (Fin (P.n * P.n)) (ZMod P.p) :=
  block P.n (P.n * P.n) (ent P (P.n * P.n) G)

/-- An `n × n` array as a matrix. -/
def sq (M : Arr UInt16) : Matrix (Fin P.n) (Fin P.n) (ZMod P.p) := block P.n P.n (ent P P.n M)

/-- `n ≤ n * n`, for the leading block of a generator. -/
theorem le_sq : P.n ≤ P.n * P.n := Nat.le_mul_self P.n

end

/-- The matrices of an array depend on its cells only. -/
theorem sq_congr {M N : Arr UInt16} (h : ∀ j, j < P.n * P.n → M.get j = N.get j) :
    sq P M = sq P N := by
  refine block_congr fun i j hi hj => ?_
  unfold ent pmodMatEntry
  rw [h _ (flat_lt hi hj)]

theorem gen_congr {M N : Arr UInt16} (h : ∀ j, j < P.n * P.n * P.n → M.get j = N.get j) :
    gen P M = gen P N := by
  refine block_congr fun i j hi hj => ?_
  unfold ent pmodMatEntry
  rw [h _ (flat_lt hi hj)]

theorem gen_apply (G : Arr UInt16) (i a b : Fin P.n) :
    gen P G i (flat a b) = subEnt P G i a b := by
  rw [gen, block_apply, flat_val, Nat.add_comm]
  rfl

section

variable [hprime : Fact P.p.Prime]

/-- What the generator of index `i` is to `G0`, `A_inv[i]` and `B_inv[i]`. -/
structure KeyPair (P : Params) [Fact P.p.Prime] (G0 Gi Ainv Binv : Arr UInt16) : Prop where
  orbit : ∃ A B, sq P Ainv * A = 1 ∧ B * sq P Binv = 1 ∧
    IsUnit (lead (le_sq P) (gen P G0 * sandwich A B)).det ∧
    gen P Gi = systematic (le_sq P) (gen P G0 * sandwich A B)
  identity : ∀ i j, i < P.n → j < P.n → ent P (P.n * P.n) Gi i j = if i = j then 1 else 0
  row0 : ∀ a b, a < P.n → b < P.n → subEnt P Gi 0 a b = if a = b then 1 else 0
  row1 : ∀ a b, a + 1 < P.n → b < P.n → subEnt P Gi 1 a b = if a + 1 = b then 1 else 0
  reduced : Reduced P Gi (P.n * P.n * P.n)
  reducedAinv : Reduced P Ainv (P.n * P.n)
  reducedBinv : Reduced P Binv (P.n * P.n)

/-- `A P0 B` is the identity, and `A P1 B` the shifted one but for its last row. -/
theorem SolveSpec.codewords (hn : 2 ≤ P.n) {G A Binv : Arr UInt16} {Amm : Nat}
    (h : SolveSpec P G Amm A Binv) {B : Matrix (Fin P.n) (Fin P.n) (ZMod P.p)}
    (hB : sq P Binv * B = 1) :
    (∀ a b : Fin P.n, (gen P G * sandwich (sq P A) B) ⟨0, by omega⟩ (flat a b)
        = if (a : Nat) = b then 1 else 0) ∧
      ∀ a b : Fin P.n, (a : Nat) + 1 < P.n →
        (gen P G * sandwich (sq P A) B) ⟨1, by omega⟩ (flat a b)
          = if (a : Nat) + 1 = b then 1 else 0 := by
  -- B is the inverse of what `solve` returns, entry by entry
  have hone : ∀ (a b : Fin P.n), ∑ y : Fin P.n, ent P P.n Binv a y * B y b
      = if (a : Nat) = b then 1 else 0 := by
    intro a b
    have := congrFun (congrFun hB a) b
    rw [Matrix.mul_apply, Matrix.one_apply] at this
    simp only [Fin.ext_iff] at this
    exact this
  constructor
  · intro a b
    rw [mul_sandwich_apply, ← hone a b]
    refine Finset.sum_congr rfl fun y _ => ?_
    rw [h.binv a y a.isLt y.isLt, Finset.sum_range]
    refine congrArg (· * _) (Finset.sum_congr rfl fun x _ => ?_)
    rw [gen_apply]
    rfl
  · intro a b ha
    rw [mul_sandwich_apply, ← hone ⟨a + 1, ha⟩ b]
    refine Finset.sum_congr rfl fun y _ => ?_
    rw [h.binv _ y ha y.isLt, ← h.shift a y ha y.isLt, Finset.sum_range]
    refine congrArg (· * _) (Finset.sum_congr rfl fun x _ => ?_)
    rw [gen_apply]
    rfl

/-- A codeword of the generator that is a flattened matrix with first row
    `e_i` is row `i` of the systematic form. -/
theorem systematic_codeword {F : Matrix (Fin P.n) (Fin (P.n * P.n)) (ZMod P.p)} (hn : 2 ≤ P.n)
    (hF : IsUnit (lead (le_sq P) F).det) {i : Fin P.n}
    (hi : ∀ b : Fin P.n, F i (flat ⟨0, by omega⟩ b) = if b = i then 1 else 0) (j : Fin (P.n * P.n)) :
    systematic (le_sq P) F i j = F i j := by
  refine systematic_row (le_sq P) hF (fun b => ?_) j
  exact hi b

/-- A successful round of keygen yields a key pair. -/
theorem keypairAttempt_returns (hP : P.Square) {G0 Ainv Binv Gi : Arr UInt16}
    {sigma sigma' : List UInt8}
    (h : (keypairAttempt P SHAKE256 G0 sigma : Run ε _).Returns (.inr (sigma', Ainv, Binv, Gi))) :
    KeyPair P G0 Gi Ainv Binv := by
  have hp := hP.p_le_16
  have hn := hP.two_le_n
  have hpos := hprime.out.pos
  unfold keypairAttempt at h
  simp only [hP.m_eq, hP.k_eq] at h
  rw [Run.returns_bind] at h
  obtain ⟨Ti, hTi, h⟩ := h
  rw [Run.returns_bind] at h
  obtain ⟨⟨Amm, shake⟩, hAmm, h⟩ := h
  obtain ⟨hredTi, hdetTi⟩ := rndInvMatrix_returns hp hTi
  change IsUnit (sq P Ti).det at hdetTi
  have hmul := pmodMatMul_spec P.n (P.n * P.n) P.n P.n (P.n * P.n) (P := P) (A := Ti) (B := G0)
      (C := Arr.empty) hpos hp
  have hredH := hmul.reduced hpos
  have hH : gen P _ = sq P Ti * gen P G0 := hmul.block_eq
  generalize pmodMatMul P Arr.empty P.n (P.n * P.n) Ti P.n P.n G0 (P.n * P.n) = H at h hredH hH
  simp only at h
  rcases solve_spec hP.m_eq hn hp (hredH.mono (Nat.mul_le_mul_left _ hn)) (rndGF_lt hAmm) with
    ⟨-, -, A, Binv', hsol, hS⟩ | ⟨-, hnone⟩
  case inr =>
    rw [hnone, Run.returns_pure] at h
    cases h
  rw [hsol] at h
  simp only at h
  rcases pmodMatInv_spec hS.reducedBinv hp with ⟨hunitB, B, hB, hBinv, hredB⟩ | ⟨-, hnone⟩
  case inr =>
    rw [hnone, Run.returns_pure] at h
    cases h
  rw [hB] at h
  simp only at h
  rcases pmodMatInv_spec hS.reducedA hp with ⟨hunitA, Ainv', hA, hAinv, hredA⟩ | ⟨-, hnone⟩
  case inr =>
    rw [hnone, Run.returns_pure] at h
    cases h
  rw [hA] at h
  simp only at h
  have hpi := pi_spec hP.m_eq hP.k_eq hpos hp A B G0
  have hsyst := pmodMatSystCt_spec P.n (P.n * P.n) (P := P) hpi.reduced (le_sq P) hp
  rcases hsyst with ⟨hlead, hret, hspec⟩ | ⟨-, hret⟩
  case inr =>
    rw [hret, if_pos (by decide), Run.returns_pure] at h
    cases h
  rw [hret, if_neg (by decide), Run.returns_pure] at h
  cases h
  have hinvA : sq P Ainv * sq P A = 1 := by
    rw [sq, hAinv]
    exact Matrix.nonsing_inv_mul _ hunitA
  have hinvB : sq P B * sq P Binv = 1 := by
    rw [sq, hBinv]
    exact Matrix.nonsing_inv_mul _ hunitB
  have hinvB' : sq P Binv * sq P B = 1 := by
    rw [sq, sq, hBinv]
    exact Matrix.mul_nonsing_inv _ hunitB
  have hpiG : gen P (pi P A B G0) = gen P G0 * sandwich (sq P A) (sq P B) := hpi.block_eq
  have hleadF : IsUnit (lead (le_sq P) (gen P G0 * sandwich (sq P A) (sq P B))).det := by
    rw [← hpiG]
    exact hlead
  have hGi : gen P (pmodMatSystCt P (pi P A B G0) P.n (P.n * P.n)).2
      = systematic (le_sq P) (gen P G0 * sandwich (sq P A) (sq P B)) := by
    rw [← hpiG]
    exact hspec.block_eq
  -- the systematic form is also that of the generator `solve` has seen
  have hleadH : IsUnit (lead (le_sq P) (gen P H * sandwich (sq P A) (sq P B))).det := by
    rw [hH, Matrix.mul_assoc, lead_mul, Matrix.det_mul]
    exact hdetTi.mul hleadF
  have hGiH : gen P (pmodMatSystCt P (pi P A B G0) P.n (P.n * P.n)).2
      = systematic (le_sq P) (gen P H * sandwich (sq P A) (sq P B)) := by
    rw [hGi, hH, Matrix.mul_assoc, systematic_mul (le_sq P) hdetTi]
  obtain ⟨hrow0, hrow1⟩ := hS.codewords hn hinvB'
  refine ⟨⟨_, _, hinvA, hinvB, hleadF, hGi⟩, hspec.identity, fun a b ha hb => ?_,
    fun a b ha hb => ?_, hspec.reduced, hredA, hS.reducedBinv⟩
  · have := gen_apply (pmodMatSystCt P (pi P A B G0) P.n (P.n * P.n)).2 ⟨0, by omega⟩ ⟨a, ha⟩ ⟨b, hb⟩
    rw [← this, hGiH, systematic_codeword hn hleadH, hrow0]
    intro b
    rw [hrow0]
    simp only [Fin.ext_iff, eq_comm]
  · have := gen_apply (pmodMatSystCt P (pi P A B G0) P.n (P.n * P.n)).2 ⟨1, by omega⟩
      ⟨a, by omega⟩ ⟨b, hb⟩
    rw [← this, hGiH, systematic_codeword hn hleadH, hrow1 _ _ ha]
    intro b
    rw [hrow1 _ _ (by simp only; omega)]
    simp only [Fin.ext_iff, eq_comm, Nat.zero_add]

/-- The matrices that keygen holds when it writes the keys. -/
structure KeyMatricesSpec (P : Params) [Fact P.p.Prime] (G0 : Arr UInt16) (K : KeyMatrices) :
    Prop where
  G_zero : K.G.get 0 = G0
  pair : ∀ i, 1 ≤ i → i < P.s → KeyPair P G0 (K.G.get i) (K.Ainv.get i) (K.Binv.get i)

theorem keypairMatrices_returns (hP : P.Square) (hs : 1 ≤ P.s) {delta sigmaG0 : List UInt8}
    {K : KeyMatrices} (h : (keypairMatrices P SHAKE256 delta : Run ε _).Returns (sigmaG0, K)) :
    sigmaG0.length = P.pubSeedBytes ∧
      ∃ G0, (rndSysMat P SHAKE256 P.k (P.m * P.n) sigmaG0 : Run ε _).Returns G0 ∧
        KeyMatricesSpec P G0 K := by
  unfold keypairMatrices at h
  rw [Run.returns_bind] at h
  obtain ⟨G0, hG0, h⟩ := h
  rw [Run.returns_bind] at h
  obtain ⟨⟨sigma, K'⟩, hloop, h⟩ := h
  rw [Run.returns_pure, Prod.mk.injEq] at h
  obtain ⟨rfl, rfl⟩ := h
  refine ⟨by rw [xof_two]; simp, G0, hG0, ?_⟩
  obtain ⟨h0, hpair⟩ := Run.forUpM_invariant (fun i (s : List UInt8 × KeyMatrices) =>
    s.2.G.get 0 = G0 ∧ ∀ j, 1 ≤ j → j < i →
      KeyPair P G0 (s.2.G.get j) (s.2.Ainv.get j) (s.2.Binv.get j)) hs (by
    rintro i s s' hi1 hi2 ⟨h0, hpair⟩ hstep
    unfold keypairIndex at hstep
    rw [Run.returns_bind] at hstep
    obtain ⟨⟨sigma, Ainv, Binv, Gi⟩, hround, hstep⟩ := hstep
    rw [Run.returns_pure] at hstep
    -- the loop ends in a round that has found a pair
    have hKP : KeyPair P G0 Gi Ainv Binv :=
      Run.loop_invariant (I := fun _ => True)
        (Q := fun r : List UInt8 × Arr UInt16 × Arr UInt16 × Arr UInt16 =>
          KeyPair P G0 r.2.2.2 r.2.1 r.2.2.1) (fun _ _ _ _ => trivial)
        (fun s r _ hr => keypairAttempt_returns hP hr) trivial hround
    rw [hstep]
    refine ⟨by rw [Arr.get_set_ne _ _ (by omega), h0], fun j hj1 hj2 => ?_⟩
    -- the entries of the other indices stay
    by_cases hji : j = i
    · subst hji
      rw [Arr.get_set_self, Arr.get_set_self, Arr.get_set_self]
      exact hKP
    · rw [Arr.get_set_ne _ _ hji, Arr.get_set_ne _ _ hji, Arr.get_set_ne _ _ hji]
      exact hpair j hj1 (by omega)) ⟨by rw [Arr.get_set_self], fun j h1 h2 => absurd h1 (by omega)⟩ hloop
  exact ⟨h0, hpair⟩

end

/-! ## The layout of the keys -/

/-- The entries of one generator that the public key stores. -/
theorem length_pkBlock (hP : P.Square) (G : Arr UInt16) :
    (pkBlock P G).length = P.pkEntries := by
  have hn := hP.two_le_n
  rw [Params.pkEntries, pkBlock, List.length_append, length_entries, length_rowEntries, hP.m_eq, hP.k_eq]
  have h1 : (P.n - 1) * P.n = P.n * P.n - P.n := by rw [Nat.sub_mul, Nat.one_mul]
  have h2 : P.n * (P.n * P.n - P.n) = (P.n * P.n - P.n) * (P.n - 2) + 2 * (P.n * P.n - P.n) := by
    rw [Nat.mul_comm P.n, Nat.mul_comm 2, ← Nat.mul_add, Nat.sub_add_cancel hn]
  have h3 : P.n * 2 ≤ P.n * P.n := Nat.mul_le_mul_left _ hn
  omega

theorem pkSize_eq (P : Params) :
    P.pkSize = byteLen (P.gfqBits * P.pkEntries) * (P.s - 1) + P.pubSeedBytes := by
  rw [Params.pkSize, ceiling_eight, Nat.mul_comm (P.s - 1), Nat.mul_comm _ P.gfqBits]

theorem skSize_eq (hP : P.Square) : P.skSize
    = byteLen (P.gfqBits * (P.n * P.n)) * (P.s - 1) + byteLen (P.gfqBits * (P.n * P.n)) * (P.s - 1)
      + P.secSeedBytes + P.pubSeedBytes := by
  rw [Params.skSize, Params.matABytes, Params.matBBytes, ceiling_eight, ceiling_eight, hP.m_eq,
    Nat.mul_comm (P.n * P.n) P.gfqBits, Nat.mul_comm (P.s - 1), Nat.add_mul]

/-- Blocks of equal length. -/
theorem blocksLen_range' {w lo cnt c : Nat} {v : Nat → List Nat}
    (hlen : ∀ i, lo ≤ i → i < lo + cnt → (v i).length = c) :
    blocksLen w ((List.range' lo cnt).map v) = byteLen (w * c) * cnt := by
  rw [← length_packBlocks, List.flatMap_map]
  exact length_flatMap_range' fun i h1 h2 => by rw [length_packBytes, hlen i h1 h2]

theorem lt_of_mem_entries {M : Arr UInt16} {off lo hi b : Nat}
    (h : ∀ j, lo ≤ j → j < hi → (M.get (off + j)).toNat < b) : ∀ v ∈ entries M off lo hi, v < b := by
  intro v hv
  obtain ⟨j, hj, rfl⟩ := List.mem_map.mp hv
  rw [List.mem_range'_1] at hj
  exact h j hj.1 (by omega)

theorem lt_of_mem_rowEntries {G : Arr UInt16} {lo hi b : Nat}
    (h : ∀ r j, lo ≤ r → r < hi → j < P.m * P.n → (G.get (P.m * P.n * r + j)).toNat < b) :
    ∀ v ∈ rowEntries P G lo hi, v < b := by
  intro v hv
  obtain ⟨r, hr, hv⟩ := List.mem_flatMap.mp hv
  rw [List.mem_range'_1] at hr
  refine lt_of_mem_entries (fun j _ hj => ?_) v hv
  have := h r j hr.1 (by omega) hj
  rwa [Nat.mul_comm, ← Nat.mul_assoc] at this

/-- Reduced generators have entries of `GFq_bits` bits. -/
theorem lt_of_mem_pkBlock (hP : P.Square) {G : Arr UInt16}
    (hG : Reduced P G (P.n * P.n * P.n)) : ∀ v ∈ pkBlock P G, v < 2 ^ P.gfqBits := by
  have hn := hP.two_le_n
  have hlt : ∀ r j, r < P.n → j < P.n * P.n → (G.get (P.n * P.n * r + j)).toNat < 2 ^ P.gfqBits :=
    fun r j hr hj => Nat.lt_of_lt_of_le (hG _ (flat_lt hr hj)) hP.p_le
  intro v hv
  rcases List.mem_append.mp hv with hv | hv
  · refine lt_of_mem_entries (fun j _ hj => ?_) v hv
    rw [hP.m_eq] at hj ⊢
    have := hlt 1 j (by omega) hj
    rwa [Nat.mul_one] at this
  · refine lt_of_mem_rowEntries (fun r j _ hr hj => ?_) v hv
    rw [hP.m_eq] at hj ⊢
    rw [hP.k_eq] at hr
    exact hlt r j hr hj

/-- The blocks of matrices `1, …, s - 1`, one after the other. -/
def packAll (P : Params) (v : Nat → List Nat) : List UInt8 :=
  ((List.range' 1 (P.s - 1)).map v).flatMap (packBytes P.gfqBits)

theorem length_packAll {v : Nat → List Nat} {c : Nat}
    (hlen : ∀ i, 1 ≤ i → i < P.s → (v i).length = c) :
    (packAll P v).length = byteLen (P.gfqBits * c) * (P.s - 1) := by
  rw [packAll, length_packBlocks]
  exact blocksLen_range' fun i h1 h2 => hlen i h1 (by omega)

/-- Writing the blocks of matrices `1, …, s - 1` at byte `o`. -/
theorem putAll_spec (buf : Arr UInt8) (bufLen : Nat) {o c : Nat} {v : Nat → List Nat}
    (hw : 0 < P.gfqBits)
    (hlen : ∀ i, 1 ≤ i → i < P.s → (v i).length = c)
    (hlt : ∀ i, 1 ≤ i → i < P.s → ∀ x ∈ v i, x < 2 ^ P.gfqBits)
    (hfit : o + byteLen (P.gfqBits * c) * (P.s - 1) ≤ bufLen)
    (hzero : 8 ≤ P.gfqBits ∨ ∀ i, o ≤ i → i < bufLen → buf.get i = 0) :
    ∃ buf', ((List.range' 1 (P.s - 1)).map v).foldl (putBlock P.gfqBits)
          (buf, cursor bufLen o P.gfqBits 0)
        = (buf', cursor bufLen (o + byteLen (P.gfqBits * c) * (P.s - 1)) P.gfqBits 0) ∧
      ∀ i, buf'.get i = (buf.blit o (packAll P v)).get i := by
  have hsum : blocksLen P.gfqBits ((List.range' 1 (P.s - 1)).map v)
      = byteLen (P.gfqBits * c) * (P.s - 1) :=
    blocksLen_range' fun i h1 h2 => hlen i h1 (by omega)
  have hmem : ∀ l ∈ (List.range' 1 (P.s - 1)).map v, ∀ x ∈ l, x < 2 ^ P.gfqBits := by
    intro l hl
    obtain ⟨i, hi, rfl⟩ := List.mem_map.mp hl
    rw [List.mem_range'_1] at hi
    exact hlt i hi.1 (by omega)
  obtain ⟨hget, hbs⟩ := putBlocks_spec buf bufLen (o := o) hw hmem
    (by rw [hsum]; exact hfit)
    (hzero.imp_right fun hz i h1 h2 => hz i h1 (by rw [hsum] at h2; omega))
  rw [hsum] at hbs
  exact ⟨_, Prod.ext rfl hbs, hget⟩

/-- Where the parts of the public key lie. -/
structure PkLayout (P : Params) (sigmaG0 : List UInt8) (K : KeyMatrices) (pk : Arr UInt8) : Prop where
  seed : ∀ i, i < P.pubSeedBytes → pk.get i = sigmaG0.getD i default
  blocks : ∀ i, i < byteLen (P.gfqBits * P.pkEntries) * (P.s - 1) →
    pk.get (P.pubSeedBytes + i) = (packAll P fun si => pkBlock P (K.G.get si)).getD i default

/-- Where the parts of the secret key lie. -/
structure SkLayout (P : Params) (sigmaG0 : List UInt8) (K : KeyMatrices) (sk : Arr UInt8) : Prop where
  seed : ∀ i, i < P.pubSeedBytes → sk.get (P.secSeedBytes + i) = sigmaG0.getD i default
  ainv : ∀ i, i < byteLen (P.gfqBits * (P.n * P.n)) * (P.s - 1) →
    sk.get (P.secSeedBytes + P.pubSeedBytes + i)
      = (packAll P fun si => entries (K.Ainv.get si) 0 0 (P.n * P.n)).getD i default
  binv : ∀ i, i < byteLen (P.gfqBits * (P.n * P.n)) * (P.s - 1) →
    sk.get (P.secSeedBytes + P.pubSeedBytes + byteLen (P.gfqBits * (P.n * P.n)) * (P.s - 1) + i)
      = (packAll P fun si => entries (K.Binv.get si) 0 0 (P.n * P.n)).getD i default

theorem Reduced.lt_of_mem (hP : P.Square) {M : Arr UInt16} {len : Nat} (hM : Reduced P M len) :
    ∀ x ∈ entries M 0 0 len, x < 2 ^ P.gfqBits :=
  lt_of_mem_entries fun j _ hj => by
    rw [Nat.zero_add]
    exact Nat.lt_of_lt_of_le (hM j hj) hP.p_le

section

variable [hprime : Fact P.p.Prime]

/-- `crypto_sign_keypair` succeeds and leaves both keys in their layout. -/
theorem cryptoSignKeypair_returns (hP : P.Square) (hs : 1 ≤ P.s) (hpk : P.pkBytes = P.pkSize)
    {delta : List UInt8} {pk sk pk' sk' : Arr UInt8} {ret : Int}
    (hpkbuf : 8 ≤ P.gfqBits ∨ ∀ i, P.pubSeedBytes ≤ i → i < P.pkBytes → pk.get i = 0)
    (h : (cryptoSignKeypair P SHAKE256 delta pk sk : Run ε _).Returns (ret, pk', sk')) :
    ret = 0 ∧ ∃ sigmaG0 K G0, (keypairMatrices P SHAKE256 delta : Run ε _).Returns (sigmaG0, K) ∧
      (rndSysMat P SHAKE256 P.k (P.m * P.n) sigmaG0 : Run ε _).Returns G0 ∧
      sigmaG0.length = P.pubSeedBytes ∧ KeyMatricesSpec P G0 K ∧ PkLayout P sigmaG0 K pk' ∧
      (P.skBytes = P.skSize → 8 ≤ P.gfqBits → SkLayout P sigmaG0 K sk') := by
  have hw := hP.gfqBits_pos
  unfold cryptoSignKeypair at h
  rw [Run.returns_bind] at h
  obtain ⟨⟨sigmaG0, K⟩, hK, h⟩ := h
  obtain ⟨hlen, G0, hG0, hspec⟩ := keypairMatrices_returns hP hs hK
  have hpkLen : ∀ i, 1 ≤ i → i < P.s → (pkBlock P (K.G.get i)).length = P.pkEntries :=
    fun i _ _ => length_pkBlock hP _
  have hsize := pkSize_eq P
  obtain ⟨buf, hwrite, hbuf⟩ := putAll_spec ((pk.blit 0 sigmaG0).view P.pubSeedBytes)
      (P.pkBytes - P.pubSeedBytes) (P := P) (o := 0) hw hpkLen
    (fun i h1 h2 => lt_of_mem_pkBlock hP (hspec.pair i h1 h2).reduced)
    (by omega)
    (hpkbuf.imp_right fun hz i _ hi => by
      rw [Arr.get_view, Arr.get_blit_of_ge _ _ (by omega)]
      exact hz _ (by omega) (by omega))
  rw [cursor_zero] at hwrite
  simp only [writePkMatrices_eq, bsInit, hwrite, cursor_zero, Nat.zero_add] at h
  -- the size check: both streams end where their buffer ends
  rw [if_neg (by simp only [ne_eq, not_not, Nat.lt_irrefl, if_false, gt_iff_lt]; omega),
    Run.returns_pure, Prod.mk.injEq, Prod.mk.injEq] at h
  obtain ⟨hret, hpk', hsk'⟩ := h
  refine ⟨hret, sigmaG0, K, G0, hK, hG0, hlen, hspec, ⟨fun i hi => ?_, fun i hi => ?_⟩,
    fun hsk h8 => ?_⟩
  · rw [hpk', Arr.get_modifyFrom, if_pos hi, Arr.get_blit, if_pos (by omega), Nat.sub_zero]
  · rw [hpk', Arr.get_modifyFrom, if_neg (by omega), Nat.add_sub_cancel_left, hbuf, Arr.get_blit,
      length_packAll hpkLen, if_pos (by omega), Nat.sub_zero]
  · -- the secret key: the two blocks of matrices one behind the other
    have hsize' := skSize_eq hP
    have hmatLen : ∀ M : Arr (Arr UInt16), ∀ i, 1 ≤ i → i < P.s →
        (entries (M.get i) 0 0 (P.n * P.n)).length = P.n * P.n := fun M i _ _ => length_entries _ _ _ _
    generalize hsk0 : (sk.blit 0 delta).blit P.secSeedBytes sigmaG0 = sk0 at hsk'
    obtain ⟨buf1, hwrite1, hbuf1⟩ := putAll_spec (sk0.view (P.secSeedBytes + P.pubSeedBytes))
        (P.skBytes - P.secSeedBytes - P.pubSeedBytes) (P := P) (o := 0) hw (hmatLen K.Ainv)
      (fun i h1 h2 => (hspec.pair i h1 h2).reducedAinv.lt_of_mem hP) (by omega) (Or.inl h8)
    obtain ⟨buf2, hwrite2, hbuf2⟩ := putAll_spec buf1
        (P.skBytes - P.secSeedBytes - P.pubSeedBytes) (P := P)
      (o := 0 + byteLen (P.gfqBits * (P.n * P.n)) * (P.s - 1)) hw (hmatLen K.Binv)
      (fun i h1 h2 => (hspec.pair i h1 h2).reducedBinv.lt_of_mem hP) (by omega) (Or.inl h8)
    rw [cursor_zero] at hwrite1
    rw [writeMatrices_eq, writeMatrices_eq, hP.m_eq, hwrite1, hwrite2] at hsk'
    simp only [Nat.zero_add] at hbuf2
    have hget : ∀ i, sk'.get (P.secSeedBytes + P.pubSeedBytes + i) = buf2.get i := by
      intro i
      rw [hsk', Arr.get_modifyFrom, if_neg (by omega), Nat.add_sub_cancel_left]
    refine ⟨fun i hi => ?_, fun i hi => ?_, fun i hi => ?_⟩
    · rw [hsk', Arr.get_modifyFrom, if_pos (by omega), ← hsk0, Arr.get_blit, if_pos (by omega),
        Nat.add_sub_cancel_left]
    · rw [hget, hbuf2, Arr.get_blit_of_lt _ _ hi, hbuf1, Arr.get_blit, length_packAll (hmatLen _),
        if_pos (by omega), Nat.sub_zero]
    · rw [Nat.add_assoc, hget, hbuf2, Arr.get_blit, length_packAll (hmatLen _), if_pos (by omega),
        Nat.add_sub_cancel_left]

end

end Meds.Ref
