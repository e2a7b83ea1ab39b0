/-
  Meds.Ref.PublicKey

  Decoding undoes the lossy encoding of the public key.

  `crypto_sign_open` reads the stored entries back and fills in the identity
  block, the first row and the first n(m - 1) entries of the second row.
  The filled-in entries are those keygen held (`KeyPair`), so the matrices
  agree cell by cell.
-/

import Meds.Ref.KeypairSpec
import Meds.Ref.SeedPath

namespace Meds.Ref

open Meds.Core

variable {P : Params} {SHAKE256 : Shake}

/-! ## Filling in the constant entries -/

theorem fillIdentity_spec (off rows shift : Nat) {G : Arr UInt16} :
    (∀ a b, a < rows → b < P.n → (fillIdentity P off rows shift G).get (off + (P.n * a + b))
        = if a + shift = b then 1 else 0) ∧
      ∀ idx, idx < off ∨ off + P.n * rows ≤ idx →
        (fillIdentity P off rows shift G).get idx = G.get idx := by
  obtain ⟨hin, hout⟩ := fill2_spec 0 rows 0 P.n (M := G)
    (ι := fun a b => off + a * P.n + b) (g := fun a b => if a + shift = b then (1 : UInt16) else 0)
    (fun a b a' b' _ _ _ hb _ _ _ hb' h => by
      rw [Nat.mul_comm a, Nat.mul_comm a'] at h
      exact flat_inj hb hb' (by omega))
  constructor
  · intro a b ha hb
    have := hin a b (Nat.zero_le _) ha (Nat.zero_le _) hb
    rw [Nat.mul_comm a, Nat.add_assoc] at this
    exact this
  · intro idx hidx
    refine hout idx fun a b _ ha _ hb h => ?_
    rw [Nat.mul_comm a] at h
    have := flat_lt ha hb
    omega

theorem setIdentity_spec (Mr Mc : Nat) (hle : Mr ≤ Mc) {M : Arr UInt16} :
    (∀ r c, r < Mr → c < Mr → (setIdentity M Mr Mc).get (Mc * r + c) = if r = c then 1 else 0) ∧
      ∀ r c, Mr ≤ c → c < Mc → (setIdentity M Mr Mc).get (Mc * r + c) = M.get (Mc * r + c) := by
  obtain ⟨hin, hout⟩ := fill2_spec 0 Mr 0 Mr
    (ι := fun r c => Mc * r + c) (M := M) (g := fun r c => UInt16.ofNat (if r = c then 1 else 0))
    (fun r c r' c' _ _ _ hc _ _ _ hc' h => flat_inj (by omega) (by omega) h)
  constructor
  · intro r c hr hc
    refine (hin r c (Nat.zero_le _) hr (Nat.zero_le _) hc).trans ?_
    by_cases hrc : r = c
    · rw [if_pos hrc, if_pos hrc]
      rfl
    · rw [if_neg hrc, if_neg hrc]
      rfl
  · intro r c hc1 hc2
    refine hout _ fun r' c' _ _ _ hc' h => ?_
    have := (flat_inj (by omega) hc2 h).2
    omega

/-- Reading one generator stays inside the buffer, whatever the bytes are. -/
theorem readPkMatrix_returns (hP : P.Square) {mem : Nat → Option UInt8} {d : Nat → UInt8}
    {bufLen o : Nat} (hfit : o + byteLen (P.gfqBits * P.pkEntries) ≤ bufLen)
    (hmem : ∀ j, j < bufLen → mem j = some (d j)) :
    ∃ G1 G2, readPkMatrix P mem (cursor bufLen o P.gfqBits 0)
        = some (fillIdentity P (P.m * P.n) (P.m - 1) 1 (fillIdentity P 0 P.m 0 G2),
            cursor bufLen (o + byteLen (P.gfqBits * P.pkEntries)) P.gfqBits 0) ∧
      ReadInto d o P.gfqBits 0 (P.m * P.n) ((P.m - 1) * P.n) (P.m * P.n) UInt16.ofNat
        (setIdentity Arr.empty P.k (P.m * P.n)) G1 ∧
      (∀ r j, 2 ≤ r → r < P.k → P.k ≤ j → j < P.m * P.n → G2.get (P.m * P.n * r + j)
        = UInt16.ofNat (unpackAt d o P.gfqBits (P.m * P.n - (P.m - 1) * P.n
            + ((P.m * P.n - P.k) * (r - 2) + (j - P.k))))) ∧
      ∀ r j, r < 2 ∨ P.k ≤ r ∨ j < P.k → j < P.m * P.n →
        G2.get (P.m * P.n * r + j) = G1.get (P.m * P.n * r + j) := by
  have hw := hP.gfqBits_pos
  have hlen := length_pkBlock hP Arr.empty
  rw [pkBlock, List.length_append, length_entries, length_rowEntries] at hlen
  have hbits : P.gfqBits * P.pkEntries ≤ 8 * byteLen (P.gfqBits * P.pkEntries) := by
    unfold byteLen
    omega
  have hfirst : P.gfqBits * (P.m * P.n - (P.m - 1) * P.n) ≤ P.gfqBits * P.pkEntries :=
    Nat.mul_le_mul_left _ (by omega)
  -- the end of the second row, then the rows from the third on
  obtain ⟨G1, hG1, hread1⟩ := readEntries_spec (P.m * P.n) ((P.m - 1) * P.n) (P.m * P.n)
    (o := o) (i := 0) hw (Nat.mul_le_mul_right _ (Nat.sub_le _ _)) (by rw [Nat.zero_add]; omega) hmem
    (setIdentity Arr.empty P.k (P.m * P.n))
  rw [Nat.zero_add] at hG1
  obtain ⟨G2, hG2, hread2, hrest2⟩ := readRows_spec 2 P.k (o := o)
    (i := P.m * P.n - (P.m - 1) * P.n) hw
    (by rw [hP.k_eq]; exact hP.two_le_n)
    (by rw [hP.m_eq, hP.k_eq]; exact le_sq P) (by rw [hlen]; omega) hmem G1
  rw [hlen] at hG2
  refine ⟨G1, G2, ?_, hread1, hread2, hrest2⟩
  rw [readPkMatrix, hG1, Option.bind_eq_bind, Option.bind_some, hG2]
  simp only [Option.bind_some, bsFinalize_cursor]
  rfl

section

variable [hprime : Fact P.p.Prime]

/-- A cell that is 0 or 1 in GF(p) holds 0 or 1. -/
theorem eq_ite_of_cast {x : UInt16} {c : Prop} [Decidable c] (hx : x.toNat < P.p)
    (h : (x.toNat : ZMod P.p) = if c then 1 else 0) : x = if c then 1 else 0 := by
  have hone := hprime.out.one_lt
  by_cases hc : c
  · rw [if_pos hc] at h ⊢
    exact eq_of_cast_eq hx hone (by rw [h]; exact Nat.cast_one.symm)
  · rw [if_neg hc] at h ⊢
    exact eq_of_cast_eq hx hprime.out.pos (by rw [h]; exact Nat.cast_zero.symm)

/-- Reading one generator back. -/
theorem readPkMatrix_spec (hP : P.Square) {G0 Gi Ainv Binv : Arr UInt16}
    (hG : KeyPair P G0 Gi Ainv Binv) {mem : Nat → Option UInt8} {d : Nat → UInt8} {bufLen o : Nat}
    (hfit : o + byteLen (P.gfqBits * P.pkEntries) ≤ bufLen)
    (hmem : ∀ j, j < bufLen → mem j = some (d j))
    (hd : ∀ j, j < P.pkEntries → unpackAt d o P.gfqBits j = (pkBlock P Gi).getD j 0) :
    ∃ G, readPkMatrix P mem (cursor bufLen o P.gfqBits 0)
        = some (G, cursor bufLen (o + byteLen (P.gfqBits * P.pkEntries)) P.gfqBits 0) ∧
      ∀ idx, idx < P.n * P.n * P.n → G.get idx = Gi.get idx := by
  have hlen := length_pkBlock hP Gi
  rw [pkBlock, List.length_append, length_entries, length_rowEntries] at hlen
  obtain ⟨hid, -⟩ := setIdentity_spec P.k (P.m * P.n)
    (by rw [hP.m_eq, hP.k_eq]; exact le_sq P) (M := Arr.empty)
  obtain ⟨G1, G2, hG2, hread1, hread2, hrest2⟩ := readPkMatrix_returns hP hfit hmem
  obtain ⟨hin3, hout3⟩ := fillIdentity_spec 0 P.m 0 (P := P) (G := G2)
  obtain ⟨hin4, hout4⟩ := fillIdentity_spec (P.m * P.n) (P.m - 1) 1 (P := P)
    (G := fillIdentity P 0 P.m 0 G2)
  refine ⟨_, hG2, fun idx hidx => ?_⟩
  simp only [hP.m_eq, hP.k_eq] at hid hread1 hread2 hrest2 hin3 hout3 hin4 hout4 hlen ⊢
  obtain ⟨r, j, hr, hj, rfl⟩ := exists_flat_nat hidx
  have hcell : (Gi.get (P.n * P.n * r + j)).toNat < P.p := hG.reduced _ (flat_lt hr hj)
  have hsub : (P.n - 1) * P.n = P.n * P.n - P.n := by rw [Nat.sub_mul, Nat.one_mul]
  have hsub' : P.n * (P.n - 1) = P.n * P.n - P.n := by rw [Nat.mul_sub, Nat.mul_one]
  have hnn : P.n ≤ P.n * P.n := le_sq P
  rcases Nat.lt_trichotomy r 1 with hr0 | rfl | hr2
  · -- the first row is the identity matrix
    obtain rfl : r = 0 := by omega
    obtain ⟨a, b, ha, hb, rfl⟩ := exists_flat_nat hj
    rw [Nat.mul_zero] at hcell ⊢
    rw [hout4 _ (by omega), hin3 a b ha hb]
    refine (eq_ite_of_cast hcell ?_).symm
    rw [Nat.add_zero, ← hG.row0 a b ha hb, subEnt, ent, pmodMatEntry, Nat.mul_zero]
  · by_cases hj1 : j < P.n * (P.n - 1)
    · -- the shifted identity
      obtain ⟨a, b, ha, hb, rfl⟩ := exists_flat_nat hj1
      rw [Nat.mul_one] at hcell ⊢
      rw [hin4 a b ha hb]
      refine (eq_ite_of_cast hcell ?_).symm
      rw [← hG.row1 a b (by omega) hb, subEnt, ent, pmodMatEntry, Nat.mul_one]
    · -- the stored entries of the second row
      have hget := hread1.cell j (by omega) hj
      rw [Nat.zero_add, hd _ (by omega), pkBlock, hP.m_eq, List.getD_append _ _ _ _
        (by rw [length_entries]; omega), getD_entries Gi _ (by omega) hj, UInt16.ofNat_toNat] at hget
      rw [hout4 _ (by omega), hout3 _ (by omega), hrest2 1 j (by omega) hj, Nat.mul_one]
      exact hget
  · have hrow : P.n * P.n * 2 ≤ P.n * P.n * r := Nat.mul_le_mul_left _ hr2
    rw [hout4 _ (by omega), hout3 _ (by omega)]
    by_cases hjk : j < P.n
    · -- the identity block
      rw [hrest2 r j (by omega) hj, hread1.rest _ (by omega), hid r j hr hjk]
      refine (eq_ite_of_cast hcell ?_).symm
      rw [← hG.identity r j hr hjk, ent, pmodMatEntry]
    · -- the stored entries of the other rows
      have hpos := flat_lt (R := P.n - 2) (C := P.n * P.n - P.n) (i := r - 2) (j := j - P.n)
        (by omega) (by omega)
      have hrowget := getD_rowEntries Gi 2 P.k (r := r) (j := j) hr2
        (by rw [hP.k_eq]; exact hr) (by rw [hP.k_eq]; omega) (by rw [hP.m_eq]; exact hj)
      rw [hP.m_eq, hP.k_eq] at hrowget
      rw [hread2 r j hr2 hr (by omega) hj, hd _ (by omega), pkBlock, hP.m_eq, hP.k_eq,
        List.getD_append_right _ _ _ _ (by rw [length_entries]; omega), length_entries,
        Nat.add_sub_cancel_left, hrowget, UInt16.ofNat_toNat, Nat.mul_assoc, Nat.mul_comm r]

/-- The loop over all generators. -/
theorem readPkLoop_spec (hP : P.Square) {G0 : Arr UInt16} {K : KeyMatrices}
    (hK : KeyMatricesSpec P G0 K) {mem : Nat → Option UInt8} {d : Nat → UInt8} {bufLen : Nat}
    (hfit : byteLen (P.gfqBits * P.pkEntries) * (P.s - 1) ≤ bufLen)
    (hmem : ∀ j, j < bufLen → mem j = some (d j))
    (hd : ∀ i, i < byteLen (P.gfqBits * P.pkEntries) * (P.s - 1) →
      d i = (packAll P fun si => pkBlock P (K.G.get si)).getD i default) {hi : Nat} (h1 : 1 ≤ hi)
    (hhi : hi ≤ P.s) :
    ∃ G, forUpM 1 hi
          (fun i (s : Arr (Arr UInt16) × BitstreamT) => do
            let (Gi, bs) ← readPkMatrix P mem s.2
            pure (s.1.set i Gi, bs))
          (Arr.empty.set 0 G0, cursor bufLen 0 P.gfqBits 0)
        = some (G, cursor bufLen (byteLen (P.gfqBits * P.pkEntries) * (hi - 1)) P.gfqBits 0) ∧
      G.get 0 = G0 ∧
      ∀ i idx, i < hi → idx < P.n * P.n * P.n → (G.get i).get idx = (K.G.get i).get idx := by
  induction hi, h1 using Nat.le_induction with
  | base =>
      refine ⟨Arr.empty.set 0 G0, by rw [forUpM_self, Nat.sub_self]; rfl, Arr.get_set_self _ _ _,
        fun i idx hi _ => ?_⟩
      obtain rfl : i = 0 := by omega
      rw [Arr.get_set_self, hK.G_zero]
  | succ hi hle ih =>
      obtain ⟨G, hG, hzero, hget⟩ := ih (by omega)
      have hpair := hK.pair hi hle (by omega)
      have hroom : byteLen (P.gfqBits * P.pkEntries) * (hi - 1) + byteLen (P.gfqBits * P.pkEntries)
          ≤ byteLen (P.gfqBits * P.pkEntries) * (P.s - 1) := by
        rw [← Nat.mul_succ]
        exact Nat.mul_le_mul_left _ (by omega)
      obtain ⟨Gi, hGi, hgeti⟩ := readPkMatrix_spec hP hpair
        (o := byteLen (P.gfqBits * P.pkEntries) * (hi - 1)) (by omega) hmem fun j hj => by
          -- field j of the block of index hi, which fits its width
          have hv : (pkBlock P (K.G.get (1 + (hi - 1)))).getD j 0 < 2 ^ P.gfqBits := by
            rw [show 1 + (hi - 1) = hi by omega, List.getD_eq_getElem _ _
              (by rw [length_pkBlock hP]; exact hj)]
            exact lt_of_mem_pkBlock hP hpair.reduced _ (List.getElem_mem _)
          have := unpackAt_blocks 1 (P.s - 1) (d := d) (o := 0) (w := P.gfqBits)
            (c := P.pkEntries) (v := fun si => pkBlock P (K.G.get si))
            (fun i _ _ => length_pkBlock hP _)
            (fun i hi => by rw [Nat.zero_add]; exact hd i hi) (q := hi - 1) (by omega) hj hv
          rw [Nat.zero_add, show 1 + (hi - 1) = hi by omega] at this
          exact this
      refine ⟨G.set hi Gi, ?_, (Arr.get_set_ne _ _ (by omega)).trans hzero,
        fun i idx hi' hidx => ?_⟩
      · rw [forUpM_succ hle, hG]
        change (readPkMatrix P mem
          (cursor bufLen (byteLen (P.gfqBits * P.pkEntries) * (hi - 1)) P.gfqBits 0) >>= _) = _
        rw [hGi, show hi + 1 - 1 = (hi - 1) + 1 by omega, Nat.mul_succ]
        rfl
      · -- the matrix just read, or one read before
        by_cases hih : i = hi
        · subst hih
          rw [Arr.get_set_self]
          exact hgeti idx hidx
        · rw [Arr.get_set_ne _ _ hih]
          exact hget i idx (by omega) hidx

/-- What `loadPublicKey` makes of a public key in its layout. -/
theorem loadPublicKey_returns (hP : P.Square) (hs : 1 ≤ P.s) (hpk : P.pkBytes = P.pkSize)
    {sigmaG0 : List UInt8} {G0 : Arr UInt16} {K : KeyMatrices} {pk : Arr UInt8}
    (hlen : sigmaG0.length = P.pubSeedBytes)
    (hG0 : (rndSysMat P SHAKE256 P.k (P.m * P.n) sigmaG0 : Run Fault _).Returns G0)
    (hK : KeyMatricesSpec P G0 K) (hlay : PkLayout P sigmaG0 K pk) :
    ∃ G, (loadPublicKey P SHAKE256 (pk.slice 0 P.pkBytes)).Returns G ∧ G.get 0 = G0 ∧
      ∀ i idx, i < P.s → idx < P.n * P.n * P.n → (G.get i).get idx = (K.G.get i).get idx := by
  have hsize := pkSize_eq P
  have hmem : ∀ j, j < P.pkBytes - P.pubSeedBytes →
      (pk.slice 0 P.pkBytes)[P.pubSeedBytes + j]? = some (pk.get (P.pubSeedBytes + j)) :=
    fun j hj => by rw [Arr.getElem?_slice _ (by omega), Nat.zero_add]
  obtain ⟨G, hG, hzero, hget⟩ := readPkLoop_spec hP hK (by omega) hmem hlay.blocks hs (Nat.le_refl _)
  have hseed : readBytes (fun i => (pk.slice 0 P.pkBytes)[i]?) 0 P.pubSeedBytes = some sigmaG0 := by
    rw [← hlen]
    refine readBytes_eq_some _ _ fun j hj => ?_
    rw [Nat.zero_add, Arr.getElem?_slice _ (by omega), Nat.zero_add, hlay.seed j (by omega)]
    rfl
  refine ⟨G, ?_, hzero, hget⟩
  unfold loadPublicKey
  rw [hseed, Run.ofOption_some, pure_bind, Run.returns_bind]
  refine ⟨G0, hG0, ?_⟩
  rw [cursor_zero] at hG
  simp only [bsInit]
  rw [hG]
  exact Run.returns_pure.mpr rfl

end

/-- The generators that `crypto_sign_open` rebuilds from the public key of
    `crypto_sign_keypair` are the ones that key generation held. -/
theorem loadPublicKey_keypair (hP : P.Square) (hs : 1 ≤ P.s) (hpk : P.pkBytes = P.pkSize)
    (delta : List UInt8) {pk sk pk' sk' : Arr UInt8}
    (hbuf : 8 ≤ P.gfqBits ∨ ∀ i, P.pubSeedBytes ≤ i → i < P.pkBytes → pk.get i = 0)
    (h : (cryptoSignKeypair P SHAKE256 delta pk sk : Run Fault _).Returns (0, pk', sk')) :
    ∃ sigmaG0 K G, (keypairMatrices P SHAKE256 delta : Run Fault _).Returns (sigmaG0, K) ∧
      (loadPublicKey P SHAKE256 (pk'.slice 0 P.pkBytes)).Returns G ∧
      ∀ i, i < P.s → ∀ idx, idx < P.k * P.m * P.n → (G.get i).get idx = (K.G.get i).get idx := by
  have : Fact P.p.Prime := ⟨hP.prime⟩
  obtain ⟨-, sigmaG0, K, G0, hK, hG0, hlen, hspec, hlay, -⟩ :=
    cryptoSignKeypair_returns hP hs hpk hbuf h
  obtain ⟨G, hG, -, hget⟩ := loadPublicKey_returns hP hs hpk hlen hG0 hspec hlay
  refine ⟨sigmaG0, K, G, hK, hG, fun i hi idx hidx => hget i idx hi ?_⟩
  rwa [hP.m_eq, hP.k_eq] at hidx

theorem tiny_keypair :
    (cryptoSignKeypair tiny toyShake [0] Arr.empty Arr.empty : Run Fault _).Returns
      (0, ⟨[1, 2, 2]⟩, ⟨[0, 1, 2, 2, 2, 1, 2, 1, 1, 1]⟩) :=
  Run.returns_of_run (n := 60) (by decide +kernel)

end Meds.Ref
