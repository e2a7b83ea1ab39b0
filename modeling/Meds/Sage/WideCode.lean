/-
  Meds.Sage.WideCode

  Codes with at least as many rows as the field has elements.

  `SF` sees the number of leading pivots only modulo q, so with `k - q` of them
  it accepts a matrix that `pmod_mat_syst_ct` rejects.  A public key and a
  signature bring such a matrix about: every response is the cyclic shift, the
  last row of each matrix of the code is a unit vector or zero, and the XOF
  gives the same bytes whatever it absorbs, so the digest fits.
-/

import Mathlib.LinearAlgebra.Matrix.Permutation
import Mathlib.Logic.Equiv.Fin.Rotate
import Mathlib.Tactic.NormNum.Prime
import Meds.Sage.Verify

namespace Meds.Sage

open Meds.Core Meds.Ref

/-- Unpacking a list that is given entry by entry. -/
theorem field_packBytes {w len i : Nat} {g : Nat → Nat} (hi : i < len) (hg : g i < 2 ^ w) :
    field (packBytes w ((List.range len).map g)) w i = g i := by
  have hget : ((List.range len).map g).getD i 0 = g i := by
    rw [List.getD_eq_getElem _ _ (by simpa using hi), List.getElem_map, List.getElem_range]
  have h := @unpackAt_packBytes (Arr.mk (packBytes w ((List.range len).map g))).get 0 w _
    (fun j _ => by rw [Nat.zero_add, Arr.get_mk]) i (by simpa using hi) (by rwa [hget])
  rwa [hget] at h

/-! ## The responses -/

section

variable {q n : Nat}

/-- Row 0 is the last unit vector, row `i + 1` is unit vector `i`. -/
def rotation (q n : Nat) : Mat q n n := Equiv.Perm.permMatrix (ZMod q) (finRotate n).symm

theorem finRotate_val (i : Fin n) : (finRotate n i).val = (i.val + 1) % n := by
  cases n with
  | zero => exact i.elim0
  | succ n =>
      rw [coe_finRotate]
      by_cases hi : i = Fin.last n
      · rw [if_pos hi, hi, Fin.val_last, Nat.mod_self]
      · have := Fin.val_lt_last hi
        rw [if_neg hi, Nat.mod_eq_of_lt (by omega)]

theorem isInvertible_rotation [Fact q.Prime] : isInvertible (rotation q n) = true := by
  rw [isInvertible, decide_eq_true_eq, rotation, Matrix.det_permutation]
  rcases Int.units_eq_one_or (Equiv.Perm.sign (finRotate n).symm) with h | h <;> rw [h] <;> simp

/-- The stored entries of the shift. -/
def rotationEntry (n f : Nat) : Nat := if (f % n + 1) % n = f / n then 1 else 0

theorem rotation_apply (i j : Fin n) :
    rotation q n i j = (rotationEntry n (i * n + j) : ZMod q) := by
  have hn : 0 < n := Nat.zero_lt_of_lt i.isLt
  have hmod : (i.val * n + j) % n = j := by
    rw [Nat.add_comm, Nat.add_mul_mod_self_right, Nat.mod_eq_of_lt j.isLt]
  have hdiv : (i.val * n + j) / n = i := by
    rw [Nat.add_comm, Nat.add_mul_div_right _ _ hn, Nat.div_eq_of_lt j.isLt, Nat.zero_add]
  have hiff : j = (finRotate n).symm i ↔ (j.val + 1) % n = i := by
    rw [Equiv.eq_symm_apply, Fin.ext_iff, finRotate_val]
  rw [rotation, Equiv.Perm.permMatrix, PEquiv.toMatrix_toPEquiv_apply, Pi.single_apply,
    rotationEntry, hmod, hdiv]
  by_cases h : (j.val + 1) % n = i
  · rw [if_pos (hiff.mpr h), if_pos h, Nat.cast_one]
  · rw [if_neg (mt hiff.mp h), if_neg h, Nat.cast_zero]

/-- One response matrix, as the signature stores it. -/
def shift (w n : Nat) : List UInt8 := packBytes w ((List.range (n * n)).map (rotationEntry n))

theorem rotationEntry_lt {w : Nat} (hw : 0 < w) (n f : Nat) : rotationEntry n f < 2 ^ w := by
  have := Nat.one_lt_two_pow hw.ne'
  unfold rotationEntry
  split <;> omega

theorem decompress_shift (hw : 8 ≤ gfBits q) (hn : 0 < n) {r : Nat} (hr : r = n) :
    decompress (shift (gfBits q) n) q r r = pure (rotation q r) := by
  subst hr
  have hlen : (shift (gfBits q) r).length = byteLen (gfBits q * (r * r)) := by
    rw [shift, length_packBytes, List.length_map, List.length_range]
  rw [decompress_eq hw (Nat.mul_pos hn hn) (by rw [hlen, byteLen]; omega)]
  congr 1
  ext i j
  have hlt : i.val * r + j < r * r := by
    have := flat_lt (C := r) i.isLt j.isLt
    rwa [Nat.mul_comm r] at this
  rw [Matrix.of_apply, shift, field_packBytes hlt (rotationEntry_lt (by omega) r _), rotation_apply]

/-- What `pi` does with two shifts. -/
theorem pi_rotation {k : Nat} (M : Mat q k (n * n)) (i : Fin k) (a b : Fin n) :
    pi (rotation q n) (rotation q n) M i (flat a b)
      = M i (flat ((finRotate n).symm a) (finRotate n b)) := by
  rw [pi, Matrix.of_apply, flat, Equiv.symm_apply_apply, rotation, Equiv.Perm.permMatrix,
    PEquiv.toMatrix_toPEquiv_mul, PEquiv.mul_toMatrix_toPEquiv]
  rfl

end

/-! ## The code -/

section

variable {q k m n ρ : Nat}

/-- The stored entries.  The last row of matrix `i + 2` is unit vector `i + 1` for
    `i < ρ`; all others are zero. -/
def wideEntry (n ρ f : Nat) : Nat :=
  if ∃ i < ρ, f = n + (i * (n * n - n) + (n * (n - 1) + (i + 1) - n)) then 1 else 0

theorem wideEntry_lt {w : Nat} (hw : 0 < w) (n ρ f : Nat) : wideEntry n ρ f < 2 ^ w := by
  have := Nat.one_lt_two_pow hw.ne'
  unfold wideEntry
  split <;> omega

theorem wideEntry_row1 {f : Nat} (hf : f < n) : wideEntry n ρ f = 0 := by
  rw [wideEntry, if_neg]
  rintro ⟨i, -, h⟩
  omega

theorem wideEntry_rows (hn : 2 ≤ n) (hρ : ρ < n) (i : Nat) {b : Nat} (hb : b < n) :
    wideEntry n ρ (n + (i * (n * n - n) + (n * (n - 1) + b - n)))
      = if i < ρ ∧ b = i + 1 then 1 else 0 := by
  have hlast : n * (n - 1) = n * n - n := by rw [Nat.mul_sub, Nat.mul_one]
  have hroom : n ≤ n * (n - 1) := Nat.le_mul_of_pos_right n (by omega)
  rw [wideEntry]
  apply if_congr _ rfl rfl
  constructor
  · rintro ⟨i', hi', h⟩
    rw [← hlast, Nat.mul_comm i, Nat.mul_comm i'] at h
    have := flat_inj (show n * (n - 1) + b - n < n * (n - 1) by omega)
      (show n * (n - 1) + (i' + 1) - n < n * (n - 1) by omega) (Nat.add_left_cancel h)
    omega
  · rintro ⟨hi, rfl⟩
    exact ⟨i, hi, rfl⟩

/-- Columns `0, …, ρ` of the code between two shifts. -/
theorem wide_lead (hm : m = n) (hk : k = n) (hρ : ρ + 3 ≤ n) {M : Mat q k (m * n)} {b : List UInt8}
    (hM : Decoded b n M)
    (hb : ∀ f, f < n + (n - 2) * (n * n - n) → field b (gfBits q) f = wideEntry n ρ f) {i x : Nat}
    (hi : i < k) (hx : x ≤ ρ) :
    table (pi (rotation q m) (rotation q n) M) i x
      = if 2 ≤ i ∧ i - 2 < ρ ∧ x = i - 2 then 1 else 0 := by
  subst hm hk
  have hlast : k * (k - 1) = k * k - k := by rw [Nat.mul_sub, Nat.mul_one]
  have hroom : k ≤ k * (k - 1) := Nat.le_mul_of_pos_right k (by omega)
  have hxk : x < k * k := by omega
  have hfirst : (⟨x, hxk⟩ : Fin (k * k)) = flat ⟨0, by omega⟩ ⟨x, by omega⟩ := by
    ext
    simp
  have hrow : ((finRotate k).symm ⟨0, by omega⟩ : Fin k) = ⟨k - 1, by omega⟩ := by
    rw [Equiv.symm_apply_eq, Fin.ext_iff, finRotate_val]
    simp only
    rw [Nat.sub_add_cancel (by omega), Nat.mod_self]
  obtain ⟨j, hj⟩ : ∃ j : Fin (k * k), j = flat ((finRotate k).symm ⟨0, by omega⟩)
      (finRotate k ⟨x, by omega⟩) := ⟨_, rfl⟩
  have hval : j.val = k * (k - 1) + (x + 1) := by
    rw [hj, flat_val, hrow, finRotate_val, Nat.mod_eq_of_lt (by simp only; omega), Nat.add_comm]
  rw [table_of_lt _ hi hxk, hfirst, pi_rotation, ← hj]
  rcases Nat.lt_trichotomy i 1 with h0 | h1 | h2
  · -- the last row of the identity matrix
    obtain rfl : i = 0 := by omega
    rw [hM.const ⟨0, hi⟩ j (k - 1) (x + 1) (by omega) (by omega) hval (fun h => absurd h (by simp))
      (fun h => absurd h (by simp)), blankEntry, if_pos rfl, if_neg (by omega), if_neg (by omega),
      Nat.cast_zero]
  · -- the stored row of the second matrix
    subst h1
    have hidx : j.val - (k - 1) * k = x + 1 := by rw [hval, Nat.mul_comm (k - 1)]; omega
    rw [hM.row1 ⟨1, hi⟩ j rfl (by rw [hval, Nat.mul_comm (k - 1)]; omega), hidx, hb _ (by omega),
      wideEntry_row1 (by omega), if_neg (by omega), Nat.cast_zero]
  · have hlt : (i - 2) * (k * k - k) + (j - k) < (k - 2) * (k * k - k) := by
      have := flat_lt (R := k - 2) (C := k * k - k) (i := i - 2) (j := j - k) (by omega) (by omega)
      rwa [Nat.mul_comm (k * k - k), Nat.mul_comm (k * k - k)] at this
    rw [hM.rows ⟨i, hi⟩ j h2 (by omega), hb _ (by simp only; omega), hval,
      wideEntry_rows (by omega) (by omega) _ (by omega)]
    by_cases h : i - 2 < ρ ∧ x = i - 2
    · rw [if_pos (by simp only; omega), if_pos ⟨by omega, h⟩, Nat.cast_one]
    · rw [if_neg (by simp only; omega), if_neg fun h' => h h'.2, Nat.cast_zero]

/-- `SF` accepts a matrix with as many leading pivots as rows modulo q, although
    its leading block is singular. -/
theorem sf_of_lead [Fact q.Prime] {c : Nat} (hkc : k ≤ c) (hρ : ρ + 3 ≤ k)
    (hcast : (ρ : ZMod q) = (k : ZMod q)) {M : Mat q k c}
    (hlead : ∀ {i x}, i < k → x ≤ ρ →
      table M i x = if 2 ≤ i ∧ i - 2 < ρ ∧ x = i - 2 then 1 else 0) :
    (∃ M', sf M = some M') ∧ (block k k (table M)).det = 0 := by
  have hcol : ∀ i, i < k → table M i ρ = 0 := by
    intro i hi
    rw [hlead hi (Nat.le_refl ρ), if_neg (by omega)]
  constructor
  · obtain ⟨r, hr, hsf⟩ := sf_spec M hkc
    have hrank : r = ρ := by
      apply hr.eq_of_columns (echelon_spec k c _).2 (by omega) (by omega) hcol
      intro j hj
      refine ⟨j + 2, by omega, fun x hx => ?_⟩
      rw [hlead (by omega) (by omega)]
      exact if_congr (by omega) rfl rfl
    rw [hsf, hrank, if_pos hcast]
    exact ⟨_, rfl⟩
  · exact Matrix.det_eq_zero_of_column_eq_zero ⟨ρ, by omega⟩ fun i => hcol i i.isLt

/-- `SF` accepts the code between two shifts, whose leading block is singular. -/
theorem sf_wide [Fact q.Prime] (hm : m = n) (hk : k = n) (hρ : ρ + 3 ≤ n)
    (hcast : (ρ : ZMod q) = (k : ZMod q)) {M : Mat q k (m * n)} {b : List UInt8}
    (hM : Decoded b n M)
    (hb : ∀ f, f < n + (n - 2) * (n * n - n) → field b (gfBits q) f = wideEntry n ρ f) :
    (∃ M', sf (pi (rotation q m) (rotation q n) M) = some M') ∧
      (block k k (table (pi (rotation q m) (rotation q n) M))).det = 0 := by
  have hkc : k ≤ m * n := by
    rw [hk, hm]
    exact Nat.le_mul_self n
  exact sf_of_lead hkc (by omega) hcast fun hi hx => wide_lead hm hk hρ hM hb hi hx

end

/-! ## The XOF -/

section

variable {P : Params} {SHAKE256 : Shake}

/-- A stream that ends in zeros gives a field element from every position on. -/
theorem drawFq_returns (hP : Shared P) {bound : Nat} {shake : KeccakState}
    (hzero : ∀ i, bound ≤ i → SHAKE256 shake.absorbed i = 0) :
    ∃ r, (drawFq SHAKE256 P.p shake).Returns r ∧ r.2.absorbed = shake.absorbed := by
  obtain ⟨absorbed, pos⟩ := shake
  -- by induction on the draws before the zeros
  suffices h : ∀ d pos, bound ≤ pos + 2 * d →
      ∃ r, (drawFq SHAKE256 P.p ⟨absorbed, pos⟩).Returns r ∧ r.2.absorbed = absorbed from
    h bound pos (by omega)
  intro d
  induction d with
  | zero =>
      intro pos hpos
      have hslice : streamSlice (SHAKE256 absorbed) pos 2 = [0, 0] := by
        change [SHAKE256 absorbed (pos + 0), SHAKE256 absorbed (pos + 1)] = _
        rw [hzero (pos + 0) (by omega), hzero (pos + 1) (by omega)]
      refine ⟨(0, ⟨absorbed, pos + 2⟩), Run.returns_loop_break ?_, rfl⟩
      have hval : leValue [0, 0] = 0 := by decide
      simp only [drawInt_eq hP.fieldSize, shake256Squeeze, hslice, hval, Nat.zero_and, if_pos hP.prime.pos,
        Run.returns_pure]
  | succ d ih =>
      intro pos hpos
      obtain ⟨v, hv⟩ : ∃ v, drawInt SHAKE256 P.p ⟨absorbed, pos⟩ = (v, ⟨absorbed, pos + 2⟩) :=
        ⟨_, drawInt_eq hP.fieldSize _⟩
      by_cases hlt : v < P.p
      · refine ⟨(v, ⟨absorbed, pos + 2⟩), Run.returns_loop_break ?_, rfl⟩
        simp only [hv, if_pos hlt, Run.returns_pure]
      · obtain ⟨r, hr, habs⟩ := ih (pos + 2) (by omega)
        refine ⟨r, ?_, habs⟩
        unfold drawFq at hr ⊢
        refine Run.returns_loop_continue ?_ hr
        simp only [hv, if_neg hlt, Run.returns_pure]

theorem expandFqs_returns (hP : Shared P) {bound : Nat} {seed : List UInt8}
    (hzero : ∀ i, bound ≤ i → SHAKE256 seed i = 0) (num : Nat) :
    ∃ r, (expandFqs SHAKE256 P.p num (shakeOf seed)).Returns r := by
  unfold expandFqs
  refine (Run.forUpM_returns (fun _ s => s.2.absorbed = seed) (Nat.zero_le num) ?_ rfl).imp
    fun _ h => h.1
  intro i s _ _ hs
  obtain ⟨r, hr, habs⟩ := @drawFq_returns P SHAKE256 hP bound s.2 (by rw [hs]; exact hzero)
  exact ⟨_, Run.returns_bind.mpr ⟨r, hr, Run.returns_pure.mpr rfl⟩, habs.trans hs⟩

theorem expandSystMat_returns (hP : Shared P) {bound : Nat} {seed : List UInt8}
    (hzero : ∀ i, bound ≤ i → SHAKE256 seed i = 0) (k m n : Nat) :
    ∃ M, (expandSystMat SHAKE256 P.p k m n seed).Returns M := by
  obtain ⟨r, hr⟩ := expandFqs_returns hP hzero (k * (m * n - k))
  exact ⟨_, Run.returns_bind.mpr ⟨r, hr, Run.returns_pure.mpr rfl⟩⟩

/-- With the generator expanded, a public key of `MEDS_PK_BYTES` bytes is read. -/
theorem openKeys_returns [Fact P.p.Prime] (hP : Shared P) {pk : List UInt8}
    (hpk : pk.length = P.pkBytes) {M0 : Gen P}
    (h0 : (expandSystMat SHAKE256 P.p P.k P.m P.n (pk.take P.pubSeedBytes)).Returns M0) :
    ∃ l, (openKeys P SHAKE256 pk).Returns l := by
  have hk : P.k ≤ P.m * P.n := by
    rw [hP.k_eq, hP.m_eq]
    exact le_sq P
  obtain ⟨G0, -, hG0⟩ := (rndSysMat_matches (ε := Fault) hP P.k P.m P.n hk _).exists_of_returns h0
  obtain ⟨G, l, -, hl, -⟩ := readKeys_agree hP hpk hG0 (Nat.le_of_succ_le hP.two_le_s)
    (Nat.le_refl P.s)
  refine ⟨l, Run.returns_bind.mpr ⟨M0, h0, ?_⟩⟩
  rw [hl, pure_bind]
  exact Run.returns_pure.mpr rfl

/-- Bytes that draw the positions `0, …, MEDS_w - 1`, and then zeros. -/
def wideStream (P : Params) (i : Nat) : UInt8 :=
  if i < P.w * (numBytes P.t + 1) then drawStream (numBytes P.t) (List.range P.w) i else 0

theorem parseHash_wide (hP : Shared P) (digest : List UInt8) :
    (parseHash P (fun _ => wideStream P) digest).Returns (drawn P.t (List.range P.w) P.w) :=
  parseHash_drawStream hP.two_le_s hP.s_le List.length_range List.nodup_range
    (fun _ hp => (List.mem_range.mp hp).trans_le hP.w_le) fun _ hi => if_pos hi

theorem getD_drawn_range {t w j : Nat} (hj : j < t) :
    (drawn t (List.range w) w).getD j 0 = if j < w then 1 else 0 := by
  rw [getD_drawn _ _ _ hj, List.take_of_length_le (by rw [List.length_range])]
  simp

end

/-! ## The input -/

section

variable (P : Params)

/-- A generator of the public key. -/
def wideGen : List UInt8 :=
  packBytes P.gfqBits ((List.range P.pkEntries).map (wideEntry P.n (P.n - P.p)))

/-- The public key: a seed, and the same generator `MEDS_s - 1` times. -/
def widePk : List UInt8 :=
  List.replicate P.pubSeedBytes 0 ++ (List.replicate (P.s - 1) (wideGen P)).flatten

/-- The responses, two matrices each. -/
def wideMunu : List UInt8 := (List.replicate (P.w + P.w) (shift P.gfqBits P.n)).flatten

/-- What `H` gives for everything. -/
def wideDigest : List UInt8 := streamSlice (wideStream P) 0 P.digestBytes

/-- A signature of the empty message. -/
def wideSm : List UInt8 :=
  wideMunu P ++ (List.replicate (P.maxPathLen * P.stSeedBytes) 0 ++
    (wideDigest P ++ List.replicate P.stSaltBytes 0))

end

/-- A slice of a repeated block. -/
theorem slice_flatten_replicate {b : List UInt8} {c i : Nat} (hi : i < c) :
    ((List.replicate c b).flatten.drop (b.length * i)).take b.length = b := by
  induction i generalizing c with
  | zero =>
      obtain ⟨c, rfl⟩ : ∃ c', c = c' + 1 := ⟨c - 1, by omega⟩
      rw [Nat.mul_zero, List.drop_zero, List.replicate_succ, List.flatten_cons, List.take_left]
  | succ i ih =>
      obtain ⟨c, rfl⟩ : ∃ c', c = c' + 1 := ⟨c - 1, by omega⟩
      rw [List.replicate_succ, List.flatten_cons, Nat.mul_succ, Nat.add_comm, ← List.drop_drop,
        List.drop_left]
      exact ih (by omega)

theorem length_flatten_replicate (b : List UInt8) (c : Nat) :
    (List.replicate c b).flatten.length = b.length * c := by
  rw [List.length_flatten, List.map_replicate, List.sum_replicate, smul_eq_mul, Nat.mul_comm]

section

variable {P : Params}

theorem length_wideGen (hP : Shared P) : (wideGen P).length = lGi P := by
  rw [wideGen, length_packBytes, List.length_map, List.length_range, lGi_eq hP]

theorem length_widePk (hP : Shared P) : (widePk P).length = P.pkBytes := by
  rw [widePk, List.length_append, List.length_replicate, length_flatten_replicate,
    length_wideGen hP, lGi_eq hP, hP.pk_eq, pkSize_eq, Nat.add_comm]

theorem genBytes_widePk (hP : Shared P) {i : Nat} (h1 : 1 ≤ i) (hi : i < P.s) :
    genBytes P (widePk P) i = wideGen P := by
  rw [genBytes, widePk, ← List.drop_drop, List.drop_left' List.length_replicate,
    ← length_wideGen hP, slice_flatten_replicate (by omega)]

theorem length_shift (P : Params) : (shift P.gfqBits P.n).length = matBytes P := by
  rw [shift, length_packBytes, List.length_map, List.length_range, matBytes]

theorem length_wideMunu (hP : Shared P) : (wideMunu P).length = munuBytes P := by
  rw [wideMunu, length_flatten_replicate, length_shift, munuBytes, matABytes_eq hP.toSquare,
    matBBytes_eq]
  ring

theorem length_wideSm (hP : Shared P) : (wideSm P).length = P.sigBytes := by
  have hsig : P.sigBytes
      = P.digestBytes + munuBytes P + P.maxPathLen * P.stSeedBytes + P.stSaltBytes := hP.sig_eq
  rw [wideSm, List.length_append, List.length_append, List.length_append, List.length_replicate,
    List.length_replicate, length_wideMunu hP, wideDigest, length_streamSlice]
  omega

/-- Every block of the responses is a shift. -/
theorem slice_wideMunu (hP : Shared P) {j : Nat} (hj : j < P.w + P.w) :
    ((wideMunu P).drop (matBytes P * j)).take (matBytes P) = shift (gfBits P.p) P.n := by
  rw [wideMunu, ← length_shift P, slice_flatten_replicate hj, hP.gfBits_eq]

variable [Fact P.p.Prime]

/-- The generator that both programs take from the key, between two shifts. -/
theorem sf_widePk (hP : Shared P) (hwide : P.p ≤ P.k) {G : Arr (Arr UInt16)} {l : List (Gen P)}
    (hK : KeysAgree P (widePk P) P.s G l) (h1 : 1 < l.length) :
    (∃ M', sf (pi (rotation P.p P.m) (rotation P.p P.n) l[1]) = some M') ∧
      (block P.k P.k (table (pi (rotation P.p P.m) (rotation P.p P.n) l[1]))).det = 0 := by
  have hlen := length_wideGen hP
  rw [lGi_eq hP, byteLen, pkEntries_eq hP] at hlen
  obtain ⟨M, hM, hdec⟩ := @decompressG_decoded P.p P.k P.m P.n hP.m_eq hP.k_eq hP.two_le_n
    (wideGen P) (hP.gfBits_eq ▸ hP.eight_le) (by rw [hP.gfBits_eq]; omega)
  have hl := hK.decoded 1 h1 (Nat.le_refl 1)
  rw [genBytes_widePk hP (Nat.le_refl 1) hP.two_le_s, hM] at hl
  obtain rfl : M = l[1] := Except.ok.inj hl
  have hkn := hP.k_eq
  have hp := hP.lt_p
  refine @sf_wide P.p P.k P.m P.n (P.n - P.p) _ hP.m_eq hP.k_eq (by omega) ?_ _ _ hdec ?_
  · rw [Nat.cast_sub (by omega), ZMod.natCast_self, sub_zero, hkn]
  · intro f hf
    rw [hP.gfBits_eq, wideGen, field_packBytes (by rw [pkEntries_eq hP]; exact hf)
      (wideEntry_lt hP.gfqBits_pos _ _ _)]

/-- Sage accepts a response. -/
theorem openResponse_wide (hP : Shared P) {M : Gen P}
    (hM : ∃ M', sf (pi (rotation P.p P.m) (rotation P.p P.n) M) = some M') {i : Nat} (hi : i < P.w) :
    ∃ Ghat, openResponse P (wideMunu P) M (i * (matBytes P + matBytes P))
      = pure (Ghat, (i + 1) * (matBytes P + matBytes P)) := by
  obtain ⟨M', hM'⟩ := hM
  have hw : 8 ≤ gfBits P.p := hP.gfBits_eq ▸ hP.eight_le
  have hn : 0 < P.n := Nat.lt_of_lt_of_le Nat.two_pos hP.two_le_n
  have h1 : i * (matBytes P + matBytes P) = matBytes P * (i + i) := by ring
  have h2 : matBytes P * (i + i) + matBytes P = matBytes P * (i + i + 1) := by ring
  have h3 : matBytes P * (i + i + 1) + matBytes P = (i + 1) * (matBytes P + matBytes P) := by ring
  refine ⟨M', ?_⟩
  unfold openResponse
  rw [matBytes_eq hP hP.m_eq, matBytes_eq hP rfl, h1, slice_wideMunu hP (by omega),
    decompress_shift hw hn hP.m_eq]
  change (ofExcept (decompress _ P.p P.n P.n) >>= _) = _
  rw [h2, slice_wideMunu hP (by omega), decompress_shift hw hn rfl]
  change (if _ then _ else _) = _
  rw [isInvertible_rotation, isInvertible_rotation, if_neg (by decide), hM', h3]

theorem compressAll_pure (hP : Shared P) (l : List (Gen P)) : ∃ comp, compressAll P l = pure comp := by
  induction l using List.reverseRecOn with
  | nil => exact ⟨[], rfl⟩
  | append_singleton l M ih =>
      obtain ⟨comp, hcomp⟩ := ih
      rw [compressAll] at hcomp ⊢
      rw [List.foldlM_append, hcomp, pure_bind, List.foldlM_cons,
        compress_eq (hP.gfBits_eq ▸ hP.eight_le), pure_bind]
      exact ⟨_, rfl⟩

/-- A commitment is never rejected. -/
theorem commitLoop_not_faults (hP : Shared P) (SHAKE256 : Shake) (G0 : Gen P) (alpha : List UInt8)
    (i : Nat) (sigma : SeedTree) :
    ¬ (Run.loop (commitAttempt P SHAKE256 G0 alpha i) sigma).Faults .badSignatureError := by
  refine Run.loop_not_faults (I := fun _ => True) (fun _ _ _ _ => trivial) (fun sigma _ => ?_) trivial
  unfold commitAttempt
  cases sigma.get i with
  | bytes seed =>
      simp only
      rw [Run.faults_bind]
      rintro (h | ⟨A, -, h⟩)
      · exact (rndInvMatrix_matches (ε := Fault) hP.fieldSize _ _).not_faults _ h
      rw [Run.faults_bind] at h
      obtain h | ⟨B, -, h⟩ := h
      · exact (rndInvMatrix_matches (ε := Fault) hP.fieldSize _ _).not_faults _ h
      cases hsf : sf (pi A B G0) with
      | none =>
          rw [hsf] at h
          exact Run.faults_pure h
      | some Ghat =>
          rw [hsf] at h
          exact Run.faults_pure h
  | none => simp
  | object => simp

/-- The digest fits every message. -/
theorem openCheck_wide (hP : Shared P) (msg : List UInt8) (Ghat : List (Gen P)) :
    openCheck P (fun _ => wideStream P) (wideDigest P) msg Ghat = pure msg := by
  obtain ⟨comp, hcomp⟩ := compressAll_pure hP Ghat
  rw [compressAll] at hcomp
  rw [openCheck, hcomp]
  exact if_neg fun hne => hne rfl

/-- Where Sage stands before round `i`. -/
def WideAt (P : Params) (i : Nat) (s : OpenState P) : Prop :=
  s.fMs = min i P.w * (matBytes P + matBytes P)

section

variable {G : Arr (Arr UInt16)} {l : List (Gen P)} {alpha : List UInt8} {i : Nat} {s : OpenState P}

/-- A challenged round of Sage. -/
theorem openRound_wide_challenged (hP : Shared P) (hwide : P.p ≤ P.k)
    (hK : KeysAgree P (widePk P) P.s G l) (hi : i < P.t) (hiw : i < P.w) (hs : WideAt P i s) :
    ∃ s', openRound P (fun _ => wideStream P) l (wideMunu P) alpha
      (drawn P.t (List.range P.w) P.w) i s = pure s' ∧ WideAt P (i + 1) s' := by
  have h1 : 1 < l.length := hK.length ▸ hP.two_le_s
  obtain ⟨Ghat, hG⟩ := openResponse_wide hP (sf_widePk hP hwide hK h1).1 hiw
  rw [WideAt, Nat.min_eq_left hiw.le] at hs
  rw [openRound, getD_drawn_range hi, if_pos hiw, if_pos Nat.one_pos, List.getElem?_eq_getElem h1,
    Run.ofOption_some, pure_bind, hs, hG, pure_bind]
  exact ⟨_, rfl, by rw [WideAt, Nat.min_eq_left hiw]⟩

/-- A round of Sage behind the challenged ones. -/
theorem openRound_wide_free (hP : Shared P) (hK : KeysAgree P (widePk P) P.s G l) (hi : i < P.t)
    (hiw : ¬ i < P.w) (hs : WideAt P i s) :
    ¬ (openRound P (fun _ => wideStream P) l (wideMunu P) alpha (drawn P.t (List.range P.w) P.w) i
        s).Faults .badSignatureError ∧
      ∀ s', (openRound P (fun _ => wideStream P) l (wideMunu P) alpha
        (drawn P.t (List.range P.w) P.w) i s).Returns s' → WideAt P (i + 1) s' := by
  have h1 : 1 < l.length := hK.length ▸ hP.two_le_s
  rw [WideAt, Nat.min_eq_right (by omega)] at hs
  rw [openRound, getD_drawn_range hi, if_neg hiw, if_neg (Nat.lt_irrefl 0),
    List.getElem?_eq_getElem (by omega), Run.ofOption_some, pure_bind]
  constructor
  · rw [Run.faults_bind]
    rintro (h | ⟨_, -, h⟩)
    · exact commitLoop_not_faults hP _ _ _ _ _ h
    · exact Run.faults_pure h
  · intro s' hr
    obtain ⟨_, -, hr⟩ := Run.returns_bind.mp hr
    rw [Run.returns_pure] at hr
    rw [hr, WideAt, Nat.min_eq_right (by omega)]
    exact hs

end

/-- What Sage cuts the signature into. -/
theorem cryptoSignOpen_wideSm (hP : Shared P) (SHAKE256 : Shake) (pk : List UInt8) :
    cryptoSignOpen P SHAKE256 pk (wideSm P) = (do
      let G ← openKeys P SHAKE256 pk
      let h ← parseHash P SHAKE256 (wideDigest P)
      let s ← forUpM 0 P.t
        (openRound P SHAKE256 G (wideMunu P) (List.replicate P.stSaltBytes 0) h)
        { fMs := 0
          sigma := pathToSeedTree P SHAKE256 h (List.replicate (P.maxPathLen * P.stSeedBytes) 0)
            (List.replicate P.stSaltBytes 0)
          Ghat := [] }
      openCheck P SHAKE256 (wideDigest P) [] s.Ghat) := by
  have hmunu : (packedBytes P.p (P.m * P.m) + packedBytes P.p (P.n * P.n)) * P.w
      = (wideMunu P).length := by
    rw [length_wideMunu hP, matBytes_eq hP hP.m_eq, matBytes_eq hP rfl, munuBytes,
      matABytes_eq hP.toSquare, matBBytes_eq, Nat.mul_comm]
  have hcost : seedTreeCost P = P.maxPathLen * P.stSeedBytes := by
    rw [seedTreeCost, ← hP.pathLen, Int.toNat_natCast]
  have hdigest : (wideDigest P).length = P.digestBytes := length_streamSlice _ _ _
  have hsalt : (List.replicate P.stSaltBytes (0 : UInt8)).length = P.stSaltBytes :=
    List.length_replicate
  unfold cryptoSignOpen
  simp only [hmunu, hcost, wideSm, List.take_left, List.drop_left,
    List.take_left' List.length_replicate, List.drop_left' List.length_replicate,
    List.take_left' hdigest, List.drop_left' hdigest, List.take_of_length_le hsalt.le,
    List.drop_of_length_le hsalt.le]

/-- Sage does not reject the signature. -/
theorem cryptoSignOpen_wide_accepts (hP : Shared P) (hwide : P.p ≤ P.k) :
    ¬ (cryptoSignOpen P (fun _ => wideStream P) (widePk P) (wideSm P)).Faults
      .badSignatureError := by
  rw [cryptoSignOpen_wideSm hP, Run.faults_bind]
  rintro (h | ⟨l, hl, h⟩)
  · exact (loadPublicKey_matches hP (length_widePk hP)).not_faults _ h
  obtain ⟨G, -, hK⟩ := (loadPublicKey_matches hP (length_widePk hP)).exists_of_returns hl
  rw [Run.faults_bind] at h
  obtain h | ⟨h', hh, h⟩ := h
  · exact (parseHash_matches (ε := Fault) hP.challengeSizes _ Arr.empty).not_faults _ h
  obtain rfl := hh.unique (parseHash_wide hP _)
  rw [Run.faults_bind] at h
  obtain h | ⟨s, -, h⟩ := h
  · refine Run.forUpM_not_faults (WideAt P) (fun i s s' _ hi hs hr => ?_)
      (fun i s _ hi hs => ?_) ?_ h
    · by_cases hiw : i < P.w
      · obtain ⟨t, ht, hI⟩ := openRound_wide_challenged hP hwide hK hi hiw hs
        rw [ht, Run.returns_pure] at hr
        exact hr ▸ hI
      · exact (openRound_wide_free hP hK hi hiw hs).2 s' hr
    · by_cases hiw : i < P.w
      · obtain ⟨t, ht, -⟩ := openRound_wide_challenged hP hwide hK hi hiw hs
        rw [ht]
        exact Run.faults_pure
      · exact (openRound_wide_free hP hK hi hiw hs).1
    · rw [WideAt, Nat.zero_min, Nat.zero_mul]
  · rw [openCheck_wide hP] at h
    exact Run.faults_pure h

theorem openKeys_wide (hP : Shared P) :
    ∃ l, (openKeys P (fun _ => wideStream P) (widePk P)).Returns l := by
  obtain ⟨M0, hM0⟩ := @expandSystMat_returns P (fun _ => wideStream P) hP _
    ((widePk P).take P.pubSeedBytes) (fun _ hi => if_neg (Nat.not_lt.mpr hi)) P.k P.m P.n
  exact openKeys_returns hP (length_widePk hP) hM0

/-- When every round is challenged, Sage returns the empty message. -/
theorem cryptoSignOpen_wide_returns (hP : Shared P) (hwide : P.p ≤ P.k) (hwt : P.w = P.t) :
    (cryptoSignOpen P (fun _ => wideStream P) (widePk P) (wideSm P)).Returns [] := by
  obtain ⟨l, hl⟩ := openKeys_wide hP
  obtain ⟨G, -, hK⟩ := (loadPublicKey_matches hP (length_widePk hP)).exists_of_returns hl
  rw [cryptoSignOpen_wideSm hP]
  refine Run.returns_bind.mpr ⟨l, hl, Run.returns_bind.mpr ⟨_, parseHash_wide hP _, ?_⟩⟩
  obtain ⟨s, hs, -⟩ := Run.forUpM_returns
    (f := openRound P (fun _ => wideStream P) l (wideMunu P) (List.replicate P.stSaltBytes 0)
      (drawn P.t (List.range P.w) P.w)) (WideAt P) (Nat.zero_le P.t)
    (fun i s _ hi hs => by
      obtain ⟨s', hs', hI⟩ := openRound_wide_challenged hP hwide hK hi (hwt ▸ hi) hs
      exact ⟨s', by rw [hs', Run.returns_pure], hI⟩)
    (s := { fMs := 0
            sigma := pathToSeedTree P (fun _ => wideStream P) (drawn P.t (List.range P.w) P.w)
              (List.replicate (P.maxPathLen * P.stSeedBytes) 0) (List.replicate P.stSaltBytes 0)
            Ghat := [] })
    (by rw [WideAt, Nat.zero_min, Nat.zero_mul])
  refine Run.returns_bind.mpr ⟨s, hs, ?_⟩
  rw [openCheck_wide hP]
  exact Run.returns_pure.mpr rfl

/-- C rejects the first response. -/
theorem openResponse_wide_rejects (hP : Shared P) (hwide : P.p ≤ P.k) {G : Arr (Arr UInt16)}
    {l : List (Gen P)} (hK : KeysAgree P (widePk P) P.s G l) :
    Ref.openResponse P (fun i => (wideSm P)[i]?) (G.get 1) (bsInit (munuBytes P)) = pure none := by
  have h1 : 1 < l.length := hK.length ▸ hP.two_le_s
  have hw : 8 ≤ gfBits P.p := hP.gfBits_eq ▸ hP.eight_le
  have hn : 0 < P.n := Nat.lt_of_lt_of_le Nat.two_pos hP.two_le_n
  have hk : P.k ≤ P.m * P.n := by
    rw [hP.k_eq, hP.m_eq]
    exact le_sq P
  have hsm : munuBytes P ≤ (wideSm P).length := by
    rw [← length_wideMunu hP, wideSm, List.length_append]
    exact Nat.le_add_right _ _
  have htake : (wideSm P).take (munuBytes P) = wideMunu P := by
    rw [← length_wideMunu hP]
    exact List.take_left
  have hroom : matBytes P + matBytes P ≤ munuBytes P := by
    rw [munuBytes, matABytes_eq hP.toSquare, matBBytes_eq]
    exact Nat.le_mul_of_pos_left _ hP.one_le_w
  obtain ⟨mu, MA, hmu, hMA, hA⟩ := readMatrix_agree hP hsm hP.m_eq (x := 0) (by omega)
  obtain ⟨nu, MB, hnu, hMB, hB⟩ := readMatrix_agree hP hsm rfl (x := 0 + matBytes P) (by omega)
  have hw1 := hP.one_le_w
  -- mu and nu are rotations, so they are invertible
  have hMA' := slice_wideMunu hP (j := 0) (by omega)
  have hMB' := slice_wideMunu hP (j := 1) (by omega)
  rw [Nat.mul_zero] at hMA'
  rw [Nat.mul_one] at hMB'
  rw [htake, hMA', decompress_shift hw hn hP.m_eq] at hMA
  rw [htake, Nat.zero_add, hMB', decompress_shift hw hn rfl] at hMB
  obtain rfl := Except.ok.inj hMA
  obtain rfl := Except.ok.inj hMB
  have hpi := pi_holds hP hA hB (hK.get 1 h1)
  -- the leading block of the transformed generator is singular
  have hret : (pmodMatSystCt P (Ref.pi P mu nu (G.get 1)) P.k (P.m * P.n)).1 = -1 := by
    rcases pmodMatSystCt_spec P.k (P.m * P.n) hpi.reduced hk hP.p_lt.le with
      ⟨hunit, -, -⟩ | ⟨-, hret⟩
    · rw [← block_table_block _ hk, hpi.eq, (sf_widePk hP hwide hK h1).2] at hunit
      exact absurd hunit not_isUnit_zero
    · exact hret
  have hmu0 : ¬ (pmodMatSystCt P mu P.m P.m).1 ≠ 0 := by
    rw [pmodMatSystCt_isInvertible hP hA, isInvertible_rotation]
    decide
  have hnu0 : ¬ (pmodMatSystCt P nu P.n P.n).1 ≠ 0 := by
    rw [pmodMatSystCt_isInvertible hP hB, isInvertible_rotation]
    decide
  have hinit : bsInit (munuBytes P) = cursor (munuBytes P) 0 P.gfqBits 0 := by
    rw [cursor_zero]
    rfl
  unfold Ref.openResponse
  rw [hinit, hmu, Run.ofOption_some, pure_bind]
  change (Run.ofOption _ (readResponse P _ P.n _) >>= _) = _
  rw [hnu, Run.ofOption_some, pure_bind]
  change (if _ then _ else _) = _
  rw [if_neg hmu0, if_neg hnu0]
  simp only [hret]
  rw [if_pos (by decide)]

/-- Round 0 of C rejects, and the other rounds do nothing. -/
theorem openRounds_wide (hP : Shared P) (hwide : P.p ≤ P.k) {G : Arr (Arr UInt16)} {l : List (Gen P)}
    (hK : KeysAgree P (widePk P) P.s G l) (bsBuf : Nat → Arr UInt8) (alpha : List UInt8)
    {h : Arr UInt8} (hfirst : (h.get 0).toNat = 1) (SHAKE256 : Shake) (stree : Arr UInt8) :
    forUpM 0 P.t (Ref.openRound P SHAKE256 (fun i => (wideSm P)[i]?) bsBuf G alpha h)
      (some { bs := bsInit (munuBytes P), stree := stree, shake := shake256Init }) = pure none := by
  have ht : 0 < P.t := Nat.lt_of_lt_of_le hP.one_le_w hP.w_le
  have hpos : h.get 0 > 0 := by
    rw [gt_iff_lt, UInt8.lt_iff_toNat_lt, hfirst]
    decide
  have hround : Ref.openRound P SHAKE256 (fun i => (wideSm P)[i]?) bsBuf G alpha h 0
      (some { bs := bsInit (munuBytes P), stree := stree, shake := shake256Init }) = pure none := by
    rw [Ref.openRound, if_pos hpos, hfirst]
    simp only
    rw [openResponse_wide_rejects hP hwide hK, pure_bind]
  rw [forUpM_first ht, hround, pure_bind]
  apply forUpM_pure (fun _ => none) ht _ rfl
  intro i _ _
  rfl

/-- C rejects the signature. -/
theorem cryptoSignOpen_wide_rejects (hP : Shared P) (hwide : P.p ≤ P.k) (bsBuf : Nat → Arr UInt8)
    (m : Arr UInt8) (mlen : Nat) :
    (Ref.cryptoSignOpen P (fun _ => wideStream P) bsBuf m mlen (wideSm P) (widePk P)).Returns
      (-1, m, mlen) := by
  have hlen := length_wideSm hP
  have hsig : P.sigBytes
      = P.digestBytes + munuBytes P + P.maxPathLen * P.stSeedBytes + P.stSaltBytes := hP.sig_eq
  have hs1 : 1 ≤ P.s := Nat.le_of_succ_le hP.two_le_s
  have ht : 0 < P.t := Nat.lt_of_lt_of_le hP.one_le_w hP.w_le
  -- the public key, the challenge and the path are read to the end
  obtain ⟨l, hl⟩ := openKeys_wide hP
  obtain ⟨G, hG, hK⟩ := (loadPublicKey_matches hP (length_widePk hP)).exists_of_returns hl
  obtain ⟨digest, hdigest⟩ := readBytes_isSome (P.sigBytes - P.digestBytes - P.stSaltBytes)
    P.digestBytes (l := wideSm P) (by omega)
  obtain ⟨alpha, halpha⟩ := readBytes_isSome (P.sigBytes - P.stSaltBytes) P.stSaltBytes
    (l := wideSm P) (by omega)
  obtain ⟨⟨ret, h⟩, hparse, -, hh⟩ := (parseHash_matches (ε := Fault) hP.challengeSizes digest
    Arr.empty).exists_of_returns (parseHash_wide hP digest)
  obtain ⟨st, hst⟩ := @pathToStree_exists P (fun _ => wideStream P) hP.toValid h
    (parseHash_returns hs1 hparse).weight (wideSm P) (munuBytes P) (by omega)
    (Arr.replicate (P.stSeedBytes * P.seedTreeSize) 0) alpha
  have hfirst : (h.get 0).toNat = 1 := by
    rw [hh.get 0 ht, getD_drawn_range ht]
    exact if_pos hP.one_le_w
  unfold Ref.cryptoSignOpen
  refine Run.returns_bind.mpr ⟨G, hG, ?_⟩
  simp only [hdigest, halpha, Run.ofOption_some, pure_bind]
  refine Run.returns_bind.mpr ⟨_, hparse, Run.returns_bind.mpr ⟨_, hst, ?_⟩⟩
  rw [openRounds_wide hP hwide hK bsBuf alpha hfirst, pure_bind]
  exact Run.returns_pure.mpr rfl

/-! ## When the verifiers agree -/

theorem not_verifiersAgree (hP : Shared P) (hwide : P.p ≤ P.k) : ¬ VerifiersAgree P := by
  intro h
  have hv := h (fun _ => wideStream P) (widePk P) (wideSm P) (fun _ => Arr.empty) Arr.empty 0
    (length_widePk hP) (length_wideSm hP).ge
  exact cryptoSignOpen_wide_accepts hP hwide (hv.rejects.mp
    ⟨_, _, cryptoSignOpen_wide_rejects hP hwide (fun _ => Arr.empty) Arr.empty 0⟩)

/-- The two verifiers decide alike exactly for codes with fewer rows than the
    field has elements. -/
theorem verifiersAgree_iff (hP : Shared P) : VerifiersAgree P ↔ P.k < P.p := by
  constructor
  · intro h
    by_contra hwide
    exact not_verifiersAgree hP (Nat.le_of_not_lt hwide) h
  · exact verifiersAgree_of_lt hP

end

/-- Small sizes for codes of `n` rows over GF(257), with every round challenged. -/
def rows257 (n : Nat) : Params :=
  let P := { tiny with p := 257, gfqBits := 9, m := n, n := n, k := n, w := 2, maxPathLen := 0 }
  { P with pkBytes := P.pkSize, skBytes := P.skSize, sigBytes := P.sigSize }

instance rows257_prime (n : Nat) : Fact (rows257 n).p.Prime :=
  ⟨show Nat.Prime 257 by norm_num⟩

theorem rows257_shared {n : Nat} (hn : 2 ≤ n) : Shared (rows257 n) where
  m_eq := rfl
  k_eq := rfl
  two_le_n := hn
  prime := (rows257_prime n).out
  p_le := show 257 ≤ 2 ^ 9 by decide
  gfqBits_le := show 9 ≤ 16 by decide
  two_le_s := tiny_valid.two_le_s
  s_le := tiny_valid.s_le
  one_le_w := show 1 ≤ 2 by decide
  w_le := Nat.le_refl 2
  height := tiny_valid.height
  treeSize := tiny_valid.treeSize
  pathLen := show (0 : Int) = seedMaxTreeLen 2 2 by decide
  tMask_eq := tiny_valid.tMask_eq
  sMask_eq := tiny_valid.sMask_eq
  pk_eq := rfl
  sk_eq := rfl
  sig_eq := rfl
  lt_p := show 2 ^ 8 < 257 by decide
  p_lt := show 257 < 2 ^ 16 by decide
  gfqBits_eq := show 9 = Nat.clog 2 257 by decide
  tBytes_eq := show 1 = numBytes 2 by decide

theorem verifiersAgree_iff_two : VerifiersAgree (rows257 2) ↔ 2 < 257 :=
  verifiersAgree_iff (rows257_shared (Nat.le_refl 2))

/-- With 257 rows over GF(257), a signature that Sage accepts and C rejects. -/
theorem verifiers_differ_257 :
    (Ref.cryptoSignOpen (rows257 257) (fun _ => wideStream (rows257 257)) (fun _ => Arr.empty)
        Arr.empty 0 (wideSm (rows257 257)) (widePk (rows257 257))).Returns (-1, Arr.empty, 0) ∧
      (cryptoSignOpen (rows257 257) (fun _ => wideStream (rows257 257)) (widePk (rows257 257))
        (wideSm (rows257 257))).Returns [] ∧
      ¬ VerifiersAgree (rows257 257) :=
  have hP := rows257_shared (show 2 ≤ 257 by decide)
  ⟨cryptoSignOpen_wide_rejects hP (Nat.le_refl 257) _ _ _,
    cryptoSignOpen_wide_returns hP (Nat.le_refl 257) rfl, not_verifiersAgree hP (Nat.le_refl 257)⟩

end Meds.Sage
