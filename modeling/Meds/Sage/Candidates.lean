/-
  Meds.Sage.Candidates

  The matrices that `rnd_inv_matrix` and `ExpandInvMat` look at.

  The output of SHAKE256 is a sequence of two-byte values.  The values below
  p, taken `n * n` at a time, are the candidates; both samplers return the
  first one that is invertible, and go on forever when there is none.
-/

import Mathlib.Tactic.NormNum.Prime
import Meds.Core.Rejection
import Meds.Sage.Sampling

namespace Meds.Sage

open Meds.Core Meds.Ref

section

variable (P : Params)

/-- Value `j` of a stream: two bytes, little-endian, masked. -/
def drawnValue (stream : Nat → UInt8) (j : Nat) : Nat :=
  ((stream (2 * j)).toNat + 256 * (stream (2 * j + 1)).toNat) % 2 ^ P.gfqBits

/-- Candidate `k` of a stream: `n * n` successive values below p. -/
def IsCandidate (stream : Nat → UInt8) (n k : Nat) (v : List Nat) : Prop :=
  IsBlock (fun val => decide (val < P.p)) (drawnValue P stream) (n * n) k v

/-- The matrix of a candidate, row by row. -/
def candidateMatrix (n : Nat) (v : List Nat) : Mat P.p n n :=
  matrixOf P.p n n (v.map fun val : Nat => (val : ZMod P.p))

/-- `v` is the first invertible candidate. -/
structure FirstInvertible (stream : Nat → UInt8) (n : Nat) (v : List Nat) : Prop where
  candidate : ∃ k, IsCandidate P stream n k v ∧
    ∀ k' v', k' < k → IsCandidate P stream n k' v' → ¬ IsUnit (candidateMatrix P n v')
  invertible : IsUnit (candidateMatrix P n v)

variable {P} {SHAKE256 : Shake}

/-! ## Draws -/

/-- The state of SHAKE256 after `j` draws. -/
def afterDraws (seed : List UInt8) (j : Nat) : KeccakState := ⟨seed, 2 * j⟩

theorem leValue_two (a b : UInt8) : leValue [a, b] = a.toNat + 256 * b.toNat := by
  have hlt : a.toNat < 2 ^ 8 := a.toNat_lt
  have hone : leValue [a] = a.toNat := by
    change 0 ||| a.toNat <<< (0 * 8) = _
    simp
  rw [show [a, b] = [a] ++ [b] from rfl, leValue_concat, hone, List.length_singleton, Nat.one_mul,
    Nat.or_comm, ← Nat.shiftLeft_add_eq_or_of_lt hlt, Nat.shiftLeft_eq]
  omega

theorem drawInt_afterDraws (hP : FieldSize P) (seed : List UInt8) (j : Nat) :
    drawInt SHAKE256 P.p (afterDraws seed j)
      = (drawnValue P (SHAKE256 seed) j, afterDraws seed (j + 1)) := by
  have hbytes : streamSlice (SHAKE256 seed) (2 * j) 2
      = [SHAKE256 seed (2 * j), SHAKE256 seed (2 * j + 1)] := by
    simp [streamSlice, List.range_succ]
  rw [drawInt_eq hP]
  simp only [afterDraws, shake256Squeeze, hbytes, leValue_two, drawnValue, Nat.one_shiftLeft,
    Nat.and_two_pow_sub_one_eq_mod, Nat.mul_add, Nat.mul_one]

/-- `drawFq` returns the next value below p. -/
theorem drawFq_returns_iff (hP : FieldSize P) (seed : List UInt8) {j : Nat} {r : Nat × KeccakState} :
    (drawFq SHAKE256 P.p (afterDraws seed j)).Returns r ↔
      ∃ i, FirstFrom (fun val => decide (val < P.p)) (drawnValue P (SHAKE256 seed)) j i ∧
        r = (drawnValue P (SHAKE256 seed) i, afterDraws seed (i + 1)) := by
  refine Run.returns_rejection (afterDraws seed) _ fun j => ?_
  simp only [drawInt_afterDraws hP, decide_eq_true_eq]

/-- The values accepted among the first `j` draws. -/
abbrev acceptedValues (P : Params) (stream : Nat → UInt8) (j : Nat) : List Nat :=
  accepted (fun val => decide (val < P.p)) (drawnValue P stream) j

/-! ## Blocks -/

theorem accepted_of_expandFqs (hP : FieldSize P) (seed : List UInt8) {num j : Nat}
    {r : List (ZMod P.p) × KeccakState}
    (h : (expandFqs SHAKE256 P.p num (afterDraws seed j)).Returns r) :
    ∃ j' v, acceptedValues P (SHAKE256 seed) j' = acceptedValues P (SHAKE256 seed) j ++ v ∧
      v.length = num ∧ r = (v.map fun val : Nat => (val : ZMod P.p), afterDraws seed j') := by
  refine Run.forUpM_invariant (fun i (s : List (ZMod P.p) × KeccakState) => ∃ j' v,
    acceptedValues P (SHAKE256 seed) j' = acceptedValues P (SHAKE256 seed) j ++ v ∧
      v.length = i ∧ s = (v.map fun val : Nat => (val : ZMod P.p), afterDraws seed j'))
    (Nat.zero_le num) ?_ ⟨j, [], by simp, rfl, rfl⟩ h
  rintro i _ s' - - ⟨j', v, hacc, hlen, rfl⟩ hs'
  obtain ⟨r, hr, hs'⟩ := Run.returns_bind.mp hs'
  obtain ⟨x, hx, rfl⟩ := (drawFq_returns_iff hP seed).mp hr
  obtain rfl := Run.returns_pure.mp hs'
  refine ⟨x + 1, v ++ [drawnValue P (SHAKE256 seed) x], ?_, ?_, ?_⟩
  · exact hx.accepted_eq.trans (by rw [← List.append_assoc]; exact congrArg (· ++ _) hacc)
  · rw [List.length_append, hlen, List.length_singleton]
  · rw [List.map_append, List.map_singleton]

theorem exists_expandFqs_returns (hP : FieldSize P) (seed : List UInt8) {num j m : Nat}
    (hm : (acceptedValues P (SHAKE256 seed) j).length + num
      ≤ (acceptedValues P (SHAKE256 seed) m).length) :
    ∃ r, (expandFqs SHAKE256 P.p num (afterDraws seed j)).Returns r := by
  have hloop : ∃ r, (expandFqs SHAKE256 P.p num (afterDraws seed j)).Returns r ∧
      ∃ j', r.2 = afterDraws seed j' ∧ (acceptedValues P (SHAKE256 seed) j').length
        = (acceptedValues P (SHAKE256 seed) j).length + num := by
    refine Run.forUpM_returns (fun i (s : List (ZMod P.p) × KeccakState) =>
      ∃ j', s.2 = afterDraws seed j' ∧ (acceptedValues P (SHAKE256 seed) j').length
        = (acceptedValues P (SHAKE256 seed) j).length + i) (Nat.zero_le num) ?_ ⟨j, rfl, rfl⟩
    rintro i ⟨l, shake⟩ - hi ⟨j', rfl, hlen⟩
    obtain ⟨x, hx⟩ := exists_firstFrom
      (show (acceptedValues P (SHAKE256 seed) j').length
        < (acceptedValues P (SHAKE256 seed) m).length by omega)
    refine ⟨_, Run.returns_bind.mpr ⟨_, (drawFq_returns_iff hP seed).mpr ⟨x, hx, rfl⟩,
      Run.returns_pure.mpr rfl⟩, x + 1, rfl, ?_⟩
    refine (congrArg List.length hx.accepted_eq).trans ?_
    rw [List.length_append]
    exact congrArg (· + 1) hlen
  obtain ⟨r, hr, -⟩ := hloop
  exact ⟨r, hr⟩

/-! ## The first invertible candidate -/

theorem isUnit_iff_isInvertible [Fact P.p.Prime] {n : Nat} (M : Mat P.p n n) :
    IsUnit M ↔ isInvertible M = true := by
  rw [Matrix.isUnit_iff_isUnit_det, isUnit_iff_ne_zero, isInvertible, decide_eq_true_eq]

/-- One round of `ExpandInvMat`. -/
def invMatRound (SHAKE256 : Shake) (q n : Nat) (shake : KeccakState) :
    Run PyError (KeccakState ⊕ Mat q n n) := do
  let r ← expandFqs SHAKE256 q (n * n) shake
  if isInvertible (matrixOf q n n r.1) then pure (.inr (matrixOf q n n r.1)) else pure (.inl r.2)

theorem expandInvMat_eq (q n : Nat) (seed : List UInt8) :
    expandInvMat SHAKE256 q n seed = Run.loop (invMatRound SHAKE256 q n) (afterDraws seed 0) := rfl

/-- The round after `k` candidates looks at candidate `k`. -/
theorem invMatRound_returns (hP : FieldSize P) {n k j : Nat} {seed : List UInt8}
    (hj : (acceptedValues P (SHAKE256 seed) j).length = k * (n * n))
    {r : KeccakState ⊕ Mat P.p n n}
    (h : (invMatRound SHAKE256 P.p n (afterDraws seed j)).Returns r) :
    ∃ j' v, IsCandidate P (SHAKE256 seed) n k v ∧
      (acceptedValues P (SHAKE256 seed) j').length = (k + 1) * (n * n) ∧
      (IsUnit (candidateMatrix P n v) ∧ r = .inr (candidateMatrix P n v) ∨
        ¬ IsUnit (candidateMatrix P n v) ∧ r = .inl (afterDraws seed j')) := by
  have := Fact.mk hP.prime
  obtain ⟨s, hs, hr⟩ := Run.returns_bind.mp h
  obtain ⟨j', v, hacc, hlen, rfl⟩ := accepted_of_expandFqs hP seed hs
  refine ⟨j', v, isBlock_of_accepted hj hacc hlen, ?_, ?_⟩
  · rw [hacc, List.length_append, hj, hlen, Nat.succ_mul]
  · change (if isInvertible (candidateMatrix P n v) = true
      then pure (.inr (candidateMatrix P n v)) else pure (.inl (afterDraws seed j')) :
        Run PyError (KeccakState ⊕ Mat P.p n n)).Returns r at hr
    rw [isUnit_iff_isInvertible]
    by_cases hinv : isInvertible (candidateMatrix P n v) = true
    · rw [if_pos hinv, Run.returns_pure] at hr
      exact Or.inl ⟨hinv, hr⟩
    · rw [if_neg hinv, Run.returns_pure] at hr
      exact Or.inr ⟨hinv, hr⟩

/-- While a later candidate exists, the round comes to an end. -/
theorem exists_invMatRound_returns (hP : FieldSize P) {n k₀ k j : Nat} {seed : List UInt8}
    {v : List Nat} (hcand : IsCandidate P (SHAKE256 seed) n k v)
    (hj : (acceptedValues P (SHAKE256 seed) j).length = k₀ * (n * n)) (hk : k₀ ≤ k) :
    ∃ r, (invMatRound SHAKE256 P.p n (afterDraws seed j)).Returns r := by
  obtain ⟨m, hm, -⟩ := hcand
  have hroom : (acceptedValues P (SHAKE256 seed) j).length + n * n
      ≤ (acceptedValues P (SHAKE256 seed) m).length := by
    rw [hj, ← Nat.succ_mul]
    exact (Nat.mul_le_mul_right _ (Nat.succ_le_succ hk)).trans hm
  obtain ⟨s, hs⟩ := exists_expandFqs_returns hP seed hroom
  by_cases hinv : isInvertible (matrixOf P.p n n s.1) = true
  · exact ⟨.inr (matrixOf P.p n n s.1), Run.returns_bind.mpr
      ⟨s, hs, by rw [if_pos hinv]; exact Run.returns_pure.mpr rfl⟩⟩
  · exact ⟨.inl s.2, Run.returns_bind.mpr
      ⟨s, hs, by rw [if_neg hinv]; exact Run.returns_pure.mpr rfl⟩⟩

/-- What `ExpandInvMat` returns is the first invertible candidate. -/
theorem expandInvMat_first (hP : FieldSize P) {n : Nat} {seed : List UInt8} {M : Mat P.p n n}
    (h : (expandInvMat SHAKE256 P.p n seed).Returns M) :
    ∃ v, FirstInvertible P (SHAKE256 seed) n v ∧ M = candidateMatrix P n v := by
  rw [expandInvMat_eq] at h
  -- along the rounds: all candidates before the current one are singular
  refine Run.loop_induction (P := fun shake => ∀ j k, shake = afterDraws seed j →
      (acceptedValues P (SHAKE256 seed) j).length = k * (n * n) →
      (∀ k' v', k' < k → IsCandidate P (SHAKE256 seed) n k' v' → ¬ IsUnit (candidateMatrix P n v')) →
      ∃ v, FirstInvertible P (SHAKE256 seed) n v ∧ M = candidateMatrix P n v) ?_ ?_ h 0 0 rfl
    (by simp [accepted]) fun k' v' hk' => absurd hk' (Nat.not_lt_zero _)
  · rintro _ hb j k rfl hj hsing
    obtain ⟨j', v, hcand, -, ⟨hunit, hr⟩ | ⟨-, hr⟩⟩ := invMatRound_returns hP hj hb
    · exact ⟨v, ⟨⟨k, hcand, hsing⟩, hunit⟩, Sum.inr.inj hr⟩
    · cases hr
  · rintro _ shake' hb - ih j k rfl hj hsing
    obtain ⟨j', v, hcand, hj', ⟨-, hr⟩ | ⟨hunit, hr⟩⟩ := invMatRound_returns hP hj hb
    · cases hr
    · refine ih j' (k + 1) (Sum.inl.inj hr) hj' fun k' v' hk' hcand' => ?_
      rcases Nat.eq_or_lt_of_le (Nat.le_of_lt_succ hk') with rfl | hlt
      · rwa [hcand'.unique hcand]
      · exact hsing k' v' hlt hcand'

/-- `ExpandInvMat` returns when a candidate is invertible. -/
theorem exists_expandInvMat_returns (hP : FieldSize P) {n k : Nat} {seed : List UInt8} {v : List Nat}
    (hcand : IsCandidate P (SHAKE256 seed) n k v) (hunit : IsUnit (candidateMatrix P n v)) :
    ∃ M, (expandInvMat SHAKE256 P.p n seed).Returns M := by
  -- from candidate `k₀` on, by induction on the number of candidates up to `k`
  have key : ∀ d k₀ j, k = k₀ + d → (acceptedValues P (SHAKE256 seed) j).length = k₀ * (n * n) →
      ∃ M, (Run.loop (invMatRound SHAKE256 P.p n) (afterDraws seed j)).Returns M := by
    intro d
    induction d with
    | zero =>
        intro k₀ j hk hj
        obtain ⟨r, hr⟩ := exists_invMatRound_returns hP hcand hj (by omega)
        obtain ⟨j', v', hcand', -, ⟨-, hr'⟩ | ⟨hunit', -⟩⟩ := invMatRound_returns hP hj hr
        · exact ⟨_, Run.returns_loop_break (hr' ▸ hr)⟩
        · rw [show k = k₀ by omega] at hcand
          exact absurd (hcand.unique hcand' ▸ hunit) hunit'
    | succ d ih =>
        intro k₀ j hk hj
        obtain ⟨r, hr⟩ := exists_invMatRound_returns hP hcand hj (by omega)
        obtain ⟨j', v', hcand', hj', ⟨-, hr'⟩ | ⟨-, hr'⟩⟩ := invMatRound_returns hP hj hr
        · exact ⟨_, Run.returns_loop_break (hr' ▸ hr)⟩
        · obtain ⟨M, hM⟩ := ih (k₀ + 1) j' (by omega) hj'
          exact ⟨M, Run.returns_loop_continue (hr' ▸ hr) hM⟩
  rw [expandInvMat_eq]
  exact key k 0 0 (by omega) (by simp [accepted])

/-- An array that holds a candidate has its values as cells. -/
theorem Holds.cells_eq {n : Nat} {stream : Nat → UInt8} {k : Nat} {v : List Nat}
    {M : Arr UInt16} (hcand : IsCandidate P stream n k v) (h : Holds M (candidateMatrix P n v)) :
    (M.slice 0 (n * n)).map UInt16.toNat = v := by
  have hlen : v.length = n * n := hcand.length
  apply List.ext_getElem (by rw [List.length_map, Arr.length_slice, hlen])
  intro idx h1 h2
  rw [List.length_map, Arr.length_slice] at h1
  have hn : 0 < n := Nat.pos_of_ne_zero (by rintro rfl; simp at h1)
  have hr : idx / n < n := (Nat.div_lt_iff_lt_mul hn).mpr h1
  have hc : idx % n < n := Nat.mod_lt _ hn
  have hdiv : idx / n * n + idx % n = idx := by rw [Nat.mul_comm, Nat.div_add_mod]
  have hcell := congrFun (congrFun h.eq ⟨idx / n, hr⟩) ⟨idx % n, hc⟩
  simp only [block_apply, ent, pmodMatEntry, candidateMatrix, matrixOf, Matrix.of_apply,
    Nat.mul_comm n, hdiv] at hcell
  have hget : (v.map fun val : Nat => (val : ZMod P.p)).getD idx 0 = ((v[idx] : Nat) : ZMod P.p) := by
    rw [List.getD_eq_getElem _ _ (by rw [List.length_map]; exact h2), List.getElem_map]
  rw [hget, ZMod.natCast_eq_natCast_iff'] at hcell
  have hlt : v[idx] < P.p := of_decide_eq_true (hcand.accepts _ (List.getElem_mem h2))
  rw [Nat.mod_eq_of_lt (h.reduced idx h1), Nat.mod_eq_of_lt hlt] at hcell
  rw [List.getElem_map, Arr.getElem_slice, Nat.zero_add]
  exact hcell

/-- `rnd_inv_matrix` samples as specified: it returns exactly when some
    candidate is invertible, and then the first such candidate, which is what
    `ExpandInvMat` returns, has reduced entries, and is inverted by
    `pmod_mat_inv`. -/
theorem rndInvMatrix_first (hP : FieldSize P) {n : Nat} (seed : List UInt8) :
    ((∃ M, (rndInvMatrix P SHAKE256 n n seed : Run Fault _).Returns M) ↔
      ∃ k v, IsCandidate P (SHAKE256 seed) n k v ∧ IsUnit (candidateMatrix P n v)) ∧
    ∀ M, (rndInvMatrix P SHAKE256 n n seed : Run Fault _).Returns M →
      FirstInvertible P (SHAKE256 seed) n ((M.slice 0 (n * n)).map UInt16.toNat) ∧
      (expandInvMat SHAKE256 P.p n seed).Returns (block n n (ent P n M)) ∧
      Reduced P M (n * n) ∧ ∃ B, pmodMatInv P M n n = some B := by
  have := Fact.mk hP.prime
  have hmatch := @rndInvMatrix_matches P SHAKE256 Fault _ hP n seed
  -- C returns what Sage returns, and Sage takes the first candidate that is invertible
  have hfirst : ∀ M, (rndInvMatrix P SHAKE256 n n seed : Run Fault _).Returns M →
      ∃ v, FirstInvertible P (SHAKE256 seed) n v ∧ Holds M (candidateMatrix P n v) ∧
        (expandInvMat SHAKE256 P.p n seed).Returns (candidateMatrix P n v) := by
    intro M hM
    obtain ⟨-, hN, M', N, hM', rfl, hholds⟩ := hmatch.forth (.ok M) hM
    obtain rfl := Except.ok.inj hM'
    obtain ⟨v, hv, rfl⟩ := expandInvMat_first hP hN
    exact ⟨v, hv, hholds, hN⟩
  refine ⟨⟨?_, ?_⟩, fun M hM => ?_⟩
  · rintro ⟨M, hM⟩
    obtain ⟨v, ⟨⟨k, hcand, -⟩, hunit⟩, -⟩ := hfirst M hM
    exact ⟨k, v, hcand, hunit⟩
  · rintro ⟨k, v, hcand, hunit⟩
    obtain ⟨N, hN⟩ := exists_expandInvMat_returns hP hcand hunit
    obtain ⟨M, hM, -⟩ := hmatch.exists_of_returns hN
    exact ⟨M, hM⟩
  · obtain ⟨v, hv, hholds, hexp⟩ := hfirst M hM
    obtain ⟨k, hcand, -⟩ := hv.candidate
    rw [hholds.cells_eq hcand, hholds.eq]
    refine ⟨hv, hexp, hholds.reduced, ?_⟩
    rcases pmodMatInv_spec hholds.reduced hP.p_lt.le with ⟨-, B, hB, -⟩ | ⟨hdet, -⟩
    · exact ⟨B, hB⟩
    · rw [hholds.eq] at hdet
      have hdet' := (Matrix.isUnit_iff_isUnit_det _).mp hv.invertible
      rw [hdet] at hdet'
      exact absurd hdet' not_isUnit_zero

end

/-- Sizes for GF(257). -/
def field257 : Params := { tiny with p := 257, gfqBits := 9 }

theorem field257_fieldSize : FieldSize field257 where
  prime := show Nat.Prime 257 by norm_num
  lt_p := show 2 ^ 8 < 257 by decide
  p_lt := show 257 < 2 ^ 16 by decide
  gfqBits_eq := show 9 = Nat.clog 2 257 by decide

/-- The values 511, 0 and 3: one is too large, one is singular. -/
def thirdDraw : Shake := fun _ j => [255, 1, 0, 0, 3, 0].getD j 0

theorem rndInvMatrix_first_thirdDraw :
    ∃ M, (rndInvMatrix field257 thirdDraw 1 1 [] : Run Fault _).Returns M ∧
      FirstInvertible field257 (thirdDraw []) 1 ((M.slice 0 (1 * 1)).map UInt16.toNat) := by
  have hunit : IsUnit (candidateMatrix field257 1 [3]) := by
    have := Fact.mk field257_fieldSize.prime
    rw [Matrix.isUnit_iff_isUnit_det, Matrix.det_fin_one, isUnit_iff_ne_zero]
    change ((3 : Nat) : ZMod 257) ≠ 0
    decide
  obtain ⟨hiff, hfirst⟩ := @rndInvMatrix_first field257 thirdDraw field257_fieldSize 1 []
  obtain ⟨M, hM⟩ := hiff.mpr ⟨1, [3], ⟨3, by decide, by decide⟩, hunit⟩
  exact ⟨M, hM, (hfirst M hM).1⟩

end Meds.Sage
