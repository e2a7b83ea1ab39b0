/-
  Meds.Sage.WideSign

  Key pairs and signatures of codes with at least as many rows as the field has
  elements.

  The XOF gives the same stream whatever it absorbs.  Read as field elements,
  the stream is a code whose matrices have unit vectors and zeros as rows
  (`wideRow`); read as square matrices, it starts with a singular one, and the
  one behind it is the permutation `turn`.  The key generator takes the first
  try; every commitment has `k - q` leading pivots, so Sage signs and C tries
  forever.
-/

import Meds.Core.UnitRows
import Meds.Sage.Candidates
import Meds.Sage.ChallengeEnds
import Meds.Sage.SignAgree
import Meds.Sage.WideCode

namespace Meds.Sage

open Meds.Core Meds.Ref

/-! ## The code -/

/-- The permutation `0 ↦ n - 1`, `1 ↦ n - 2`, `i ↦ i - 2`. -/
def turn (n i : Nat) : Nat := if i = 0 then n - 1 else if i = 1 then n - 2 else i - 2

/-- The row behind row `a`, and row 0 behind the last one. -/
def nextRow (n a : Nat) : Nat := if a + 1 = n then 0 else a + 1

/-- The column of the one in row `a` of matrix `b`, if the row is not zero.
    Matrix `n - 1` is `turn`, and matrix `n - 2` is shifted up against it. -/
def wideRow (n ρ b a : Nat) : Option Nat :=
  if a = 0 then some b
  else if b = 0 then (if a = 1 then some 0 else none)
  else if b = 1 then (if a = 1 then none else some (turn n (a - 2)))
  else if b = n - 1 then some (turn n a)
  else if b = n - 2 then some (turn n (nextRow n a))
  else if b = 2 ∧ a = 1 then some (turn n (n - 2))
  else if b = 2 ∧ a = 2 then some (turn n (n - 1))
  else if a = n - 1 ∧ b < ρ + 2 then some b
  else none

section

variable {n ρ : Nat}

theorem turn_lt (hn : 2 ≤ n) {i : Nat} (hi : i < n) : turn n i < n := by
  unfold turn
  split_ifs <;> omega

theorem turn_inj (hn : 2 ≤ n) {i j : Nat} (hi : i < n) (hj : j < n) (h : turn n i = turn n j) :
    i = j := by
  unfold turn at h
  split_ifs at h <;> omega

theorem nextRow_of_lt {a : Nat} (ha : a + 1 < n) : nextRow n a = a + 1 := if_neg (by omega)

theorem nextRow_last {a : Nat} (ha : a + 1 = n) : nextRow n a = 0 := if_pos ha

theorem nextRow_lt {a : Nat} (ha : a < n) : nextRow n a < n := by
  unfold nextRow
  split <;> omega

theorem nextRow_inj {a b : Nat} (h : nextRow n a = nextRow n b) : a = b := by
  unfold nextRow at h
  split_ifs at h <;> omega

theorem wideRow_lt (hn : 3 ≤ n) {b a x : Nat} (hb : b < n) (ha : a < n)
    (h : wideRow n ρ b a = some x) : x < n := by
  have hturn : ∀ i, i < n → turn n i = x → x < n := fun i hi h => h ▸ turn_lt (by omega) hi
  unfold wideRow at h
  split_ifs at h
  · exact Option.some.inj h ▸ hb
  · rw [← Option.some.inj h]
    omega
  · exact hturn _ (by omega) (Option.some.inj h)
  · exact hturn _ ha (Option.some.inj h)
  · exact hturn _ (nextRow_lt ha) (Option.some.inj h)
  · exact hturn _ (by omega) (Option.some.inj h)
  · exact hturn _ (by omega) (Option.some.inj h)
  · exact Option.some.inj h ▸ hb

/-- Matrix `n - 1`. -/
theorem wideRow_last (hn : 4 ≤ n) (a : Nat) : wideRow n ρ (n - 1) a = some (turn n a) := by
  unfold wideRow
  by_cases ha : a = 0
  · rw [if_pos ha, ha]
    rfl
  · rw [if_neg ha, if_neg (by omega), if_neg (by omega), if_pos rfl]

/-- Matrix `n - 2`. -/
theorem wideRow_shifted (hn : 4 ≤ n) (a : Nat) :
    wideRow n ρ (n - 2) a = some (turn n (nextRow n a)) := by
  unfold wideRow
  by_cases ha : a = 0
  · rw [if_pos ha, ha, nextRow_of_lt (by omega)]
    rfl
  · rw [if_neg ha, if_neg (by omega), if_neg (by omega), if_neg (by omega), if_pos rfl]

theorem turn_zero (n : Nat) : turn n 0 = n - 1 := if_pos rfl

theorem turn_of_two_le {i : Nat} (hi : 2 ≤ i) : turn n i = i - 2 := by
  rw [turn, if_neg (by omega), if_neg (by omega)]

/-- What a commitment leaves of the last row of a matrix, in columns `0, …, ρ`. -/
theorem wideRow_lead (hρ : ρ + 8 ≤ n) {b x : Nat} (hx : x ≤ ρ) :
    (wideRow n ρ b (n - 1)).map (turn n) = some x ↔ 2 ≤ b ∧ b - 2 < ρ ∧ x = b - 2 := by
  by_cases h0 : b = 0
  · rw [wideRow, if_neg (by omega), if_pos h0, if_neg (by omega)]
    simp only [Option.map_none, reduceCtorEq, false_iff]
    omega
  by_cases h1 : b = 1
  · rw [wideRow, if_neg (by omega), if_neg h0, if_pos h1, if_neg (by omega),
      turn_of_two_le (by omega), Option.map_some, turn_of_two_le (by omega), Option.some.injEq]
    omega
  by_cases h2 : b = n - 1
  · rw [h2, wideRow_last (by omega), turn_of_two_le (by omega), Option.map_some,
      turn_of_two_le (by omega), Option.some.injEq]
    omega
  by_cases h3 : b = n - 2
  · rw [h3, wideRow_shifted (by omega), nextRow_last (by omega), turn_zero, Option.map_some,
      turn_of_two_le (by omega), Option.some.injEq]
    omega
  rw [wideRow, if_neg (by omega), if_neg h0, if_neg h1, if_neg h2, if_neg h3, if_neg (by omega),
    if_neg (by omega)]
  by_cases h4 : n - 1 = n - 1 ∧ b < ρ + 2
  · rw [if_pos h4, Option.map_some, turn_of_two_le (by omega), Option.some.injEq]
    omega
  · rw [if_neg h4]
    simp only [Option.map_none, reduceCtorEq, false_iff]
    omega

/-! ## The stream -/

/-- Field element `f` of the stream: an entry of the code behind its identity block. -/
def wideWord (n ρ f : Nat) : Nat :=
  if wideRow n ρ (f / n / (n - 1)) (f / n % (n - 1) + 1) = some (f % n) then 1 else 0

/-- The beginning of the stream, two bytes for each element. -/
def wideBytes (n ρ i : Nat) : UInt8 := if i % 2 = 0 then UInt8.ofNat (wideWord n ρ (i / 2)) else 0

/-- How many elements the code has. -/
def wideLength (n : Nat) : Nat := n * (n * n - n)

theorem wideWord_le (n ρ f : Nat) : wideWord n ρ f ≤ 1 := by
  unfold wideWord
  split <;> omega

/-- The element for an entry behind row 0. -/
theorem wideWord_entry (hn : 2 ≤ n) {b a c : Nat} (h1 : 1 ≤ a) (ha : a < n) (hc : c < n) :
    wideWord n ρ (b * (n * n - n) + (n * a + c - n))
      = if wideRow n ρ b a = some c then 1 else 0 := by
  obtain ⟨a, rfl⟩ : ∃ a', a = a' + 1 := ⟨a - 1, by omega⟩
  have hsq : n * n - n = n * (n - 1) := by rw [Nat.mul_sub, Nat.mul_one]
  have hidx : b * (n * n - n) + (n * (a + 1) + c - n) = n * ((n - 1) * b + a) + c := by
    rw [hsq, Nat.mul_succ, Nat.mul_add, Nat.mul_comm b, Nat.mul_assoc]
    omega
  have hdiv : (n * ((n - 1) * b + a) + c) / n = (n - 1) * b + a := by
    rw [Nat.mul_add_div (by omega), Nat.div_eq_of_lt hc, Nat.add_zero]
  have hcol : (n * ((n - 1) * b + a) + c) % n = c := by rw [Nat.mul_add_mod, Nat.mod_eq_of_lt hc]
  rw [hidx, wideWord, hdiv, hcol, Nat.mul_add_div (by omega), Nat.div_eq_of_lt (by omega),
    Nat.add_zero, Nat.mul_add_mod, Nat.mod_eq_of_lt (by omega)]

/-- The elements of the two matrices at the beginning, row by row. -/
theorem wideWord_square {x i j : Nat} (hj : j < n) :
    wideWord n ρ (x * (n * n) + (i * n + j))
      = if wideRow n ρ ((x * n + i) / (n - 1)) ((x * n + i) % (n - 1) + 1) = some j then 1 else 0 := by
  have hn : 0 < n := Nat.zero_lt_of_lt hj
  have hidx : x * (n * n) + (i * n + j) = n * (x * n + i) + j := by ring
  rw [wideWord, hidx, Nat.mul_add_div hn, Nat.div_eq_of_lt hj, Nat.add_zero, Nat.mul_add_mod,
    Nat.mod_eq_of_lt hj]

/-- A row of the first matrix is zero. -/
theorem wideWord_first (hn : 3 ≤ n) {j : Nat} (hj : j < n) : wideWord n ρ (1 * n + j) = 0 := by
  have h := @wideWord_square n ρ 0 1 j hj
  rw [Nat.zero_mul, Nat.zero_add, Nat.zero_mul, Nat.zero_add, Nat.div_eq_of_lt (by omega),
    Nat.mod_eq_of_lt (by omega)] at h
  rw [h, if_neg]
  unfold wideRow
  simp

/-- The second matrix is `turn`. -/
theorem wideWord_second (hn : 5 ≤ n) {i j : Nat} (hi : i < n) (hj : j < n) :
    wideWord n ρ (1 * (n * n) + (i * n + j)) = if turn n i = j then 1 else 0 := by
  rw [wideWord_square hj, Nat.one_mul]
  have hrow : wideRow n ρ ((n + i) / (n - 1)) ((n + i) % (n - 1) + 1) = some (turn n i) := by
    by_cases h1 : i + 2 < n
    · -- rows 2, …, n - 1 of matrix 1
      have hidx : n + i = (n - 1) * 1 + (i + 1) := by omega
      rw [hidx, Nat.mul_add_div (by omega), Nat.mul_add_mod, Nat.div_eq_of_lt (by omega),
        Nat.mod_eq_of_lt (by omega), wideRow, if_neg (by omega), if_neg (by omega), if_pos (by omega),
        if_neg (by omega), show i + 1 + 1 - 2 = i by omega]
    · -- rows 1 and 2 of matrix 2
      have hidx : n + i = (n - 1) * 2 + (i + 2 - n) := by omega
      rw [hidx, Nat.mul_add_div (by omega), Nat.mul_add_mod, Nat.div_eq_of_lt (by omega),
        Nat.mod_eq_of_lt (by omega), wideRow, if_neg (by omega), if_neg (by omega), if_neg (by omega),
        if_neg (by omega), if_neg (by omega)]
      by_cases h2 : i = n - 2
      · rw [if_pos (by omega), h2]
      · rw [if_neg (by omega), if_pos (by omega), show n - 1 = i by omega]
  rw [hrow]
  exact if_congr (by rw [Option.some.injEq]) rfl rfl

end

/-! ## What is drawn -/

section

variable {P : Params} {S : Nat → UInt8}

/-- The stream begins with the code. -/
def StartsWide (P : Params) (S : Nat → UInt8) : Prop :=
  SameUpTo (2 * wideLength P.n) (wideBytes P.n (P.n - P.p)) S

/-- Elements `j, …, j + num - 1` of the code. -/
def wideWords (P : Params) (j num : Nat) : List (ZMod P.p) :=
  (List.range' j num).map fun f => (wideWord P.n (P.n - P.p) f : ZMod P.p)

theorem getD_wideWords {j num i : Nat} (hi : i < num) :
    (wideWords P j num).getD i 0 = (wideWord P.n (P.n - P.p) (j + i) : ZMod P.p) := by
  rw [wideWords, List.getD_eq_getElem _ _ (by simpa using hi), List.getElem_map,
    List.getElem_range'_1]

theorem drawnValue_wide (hP : Shared P) (hS : StartsWide P S) {j : Nat} (hj : j < wideLength P.n) :
    drawnValue P S j = wideWord P.n (P.n - P.p) j := by
  have hle := wideWord_le P.n (P.n - P.p) j
  have hbits := Nat.one_lt_two_pow hP.gfqBits_pos.ne'
  have heven : S (2 * j) = UInt8.ofNat (wideWord P.n (P.n - P.p) j) := by
    rw [hS _ (by omega), wideBytes, if_pos (by omega), Nat.mul_div_cancel_left _ Nat.two_pos]
  have hodd : S (2 * j + 1) = 0 := by rw [hS _ (by omega), wideBytes, if_neg (by omega)]
  rw [drawnValue, heven, hodd, UInt8.toNat_ofNat', Nat.mod_eq_of_lt (show _ < 2 ^ 8 by omega)]
  exact Nat.mod_eq_of_lt (by simp; omega)

/-- Every element is below p, so none is passed over. -/
theorem drawFq_wide (hP : Shared P) (hS : StartsWide P S) (seed : List UInt8) {j : Nat}
    (hj : j < wideLength P.n) :
    (drawFq (fun _ => S) P.p (afterDraws seed j)).Returns
      (wideWord P.n (P.n - P.p) j, afterDraws seed (j + 1)) := by
  have hle := wideWord_le P.n (P.n - P.p) j
  have hp := hP.prime.one_lt
  have hval := drawnValue_wide hP hS hj
  refine (drawFq_returns_iff hP.fieldSize seed).mpr ⟨j, ⟨Nat.le_refl j, ?_, fun x h1 h2 => ?_⟩, ?_⟩
  · rw [hval, decide_eq_true_eq]
    omega
  · omega
  · rw [hval]

theorem expandFqs_wide (hP : Shared P) (hS : StartsWide P S) (seed : List UInt8) (j num : Nat)
    (hj : j + num ≤ wideLength P.n) :
    (expandFqs (fun _ => S) P.p num (afterDraws seed j)).Returns
      (wideWords P j num, afterDraws seed (j + num)) := by
  have hloop : ∃ r, (expandFqs (fun _ => S) P.p num (afterDraws seed j)).Returns r ∧
      r = (wideWords P j num, afterDraws seed (j + num)) := by
    refine Run.forUpM_returns (fun i (s : List (ZMod P.p) × KeccakState) =>
      s = (wideWords P j i, afterDraws seed (j + i))) (Nat.zero_le num) ?_ rfl
    rintro i _ - hi rfl
    refine ⟨_, Run.returns_bind.mpr ⟨_, drawFq_wide hP hS seed (by omega), Run.returns_pure.mpr rfl⟩,
      ?_⟩
    rw [wideWords, wideWords, List.range'_1_concat, List.map_append]
    rfl
  obtain ⟨r, hr, rfl⟩ := hloop
  exact hr

/-- The second matrix of the stream. -/
def turnMat (q n : Nat) : Mat q n n := unitRows (ZMod q) n n fun i => some (turn n i)

theorem det_turnMat {q n : Nat} [Fact q.Prime] (hn : 2 ≤ n) : (turnMat q n).det ≠ 0 :=
  det_unitRows_ne_zero (fun _ hi => turn_lt hn hi) fun _ _ hi hj h => turn_inj hn hi hj h

theorem isInvertible_turnMat {q n : Nat} [Fact q.Prime] (hn : 2 ≤ n) :
    isInvertible (turnMat q n) = true := decide_eq_true (det_turnMat hn)

theorem Shared.wide_le (hP : Shared P) (hwide : P.p ≤ P.k) : 257 ≤ P.n := by
  have hp := hP.lt_p
  have hk := hP.k_eq
  omega

theorem wideLength_room (hP : Shared P) (hwide : P.p ≤ P.k) {x : Nat} (hx : x ≤ 2) :
    x * (P.n * P.n) ≤ wideLength P.n := by
  have hn := hP.wide_le hwide
  have hsq : P.n * P.n - P.n = P.n * (P.n - 1) := by rw [Nat.mul_sub, Nat.mul_one]
  rw [wideLength, hsq, ← Nat.mul_assoc P.n P.n, Nat.mul_comm x]
  exact Nat.mul_le_mul_left _ (by omega)

/-- The first matrix of the stream is singular, the second one is taken. -/
theorem expandInvMat_wide (hP : Shared P) (hwide : P.p ≤ P.k) (hS : StartsWide P S) {d : Nat}
    (hd : d = P.n) (seed : List UInt8) :
    (expandInvMat (fun _ => S) P.p d seed).Returns (turnMat P.p d) := by
  have : Fact P.p.Prime := ⟨hP.prime⟩
  subst hd
  have hn := hP.wide_le hwide
  have hroom := wideLength_room hP hwide (Nat.le_refl 2)
  rw [Nat.two_mul] at hroom
  have hfirst := expandFqs_wide hP hS seed 0 (P.n * P.n) (by omega)
  have hsecond := expandFqs_wide hP hS seed (P.n * P.n) (P.n * P.n) hroom
  have hlt : ∀ i j : Fin P.n, i.val * P.n + j < P.n * P.n := by
    intro i j
    have := flat_lt (C := P.n) i.isLt j.isLt
    rwa [Nat.mul_comm P.n] at this
  -- the second row is zero
  have hsing : isInvertible (matrixOf P.p P.n P.n (wideWords P 0 (P.n * P.n))) = false := by
    rw [isInvertible, decide_eq_false_iff_not, not_not]
    apply Matrix.det_eq_zero_of_row_eq_zero ⟨1, by omega⟩
    intro j
    rw [matrixOf, Matrix.of_apply, getD_wideWords (hlt ⟨1, by omega⟩ j), Nat.zero_add,
      wideWord_first (by omega) j.isLt, Nat.cast_zero]
  -- the next words are those of a permutation
  have hturn : matrixOf P.p P.n P.n (wideWords P (P.n * P.n) (P.n * P.n)) = turnMat P.p P.n := by
    ext i j
    have hword := @wideWord_second P.n (P.n - P.p) (by omega) i j i.isLt j.isLt
    rw [Nat.one_mul] at hword
    rw [matrixOf, Matrix.of_apply, getD_wideWords (hlt i j), hword, turnMat, unitRows_apply]
    by_cases h : turn P.n i = j
    · rw [if_pos h, if_pos (congrArg some h), Nat.cast_one]
    · rw [if_neg h, if_neg (mt Option.some.inj h), Nat.cast_zero]
  rw [expandInvMat_eq]
  apply @Run.returns_loop_continue _ _ _ _ _ (afterDraws seed (P.n * P.n))
  · refine Run.returns_bind.mpr ⟨_, hfirst, ?_⟩
    simp only [hsing, Bool.false_eq_true, if_false, Nat.zero_add, Run.returns_pure]
  · apply Run.returns_loop_break
    refine Run.returns_bind.mpr ⟨_, hsecond, ?_⟩
    simp only [hturn, isInvertible_turnMat (show 2 ≤ P.n by omega), if_true, Run.returns_pure]

/-- The code: matrix `b` has the rows `wideRow b`. -/
def wideCode (P : Params) : Gen P :=
  Matrix.of fun b x => if wideRow P.n (P.n - P.p) b (x / P.n) = some (x % P.n) then 1 else 0

theorem wideCode_flat (b : Fin P.k) (a : Fin P.m) (c : Fin P.n) :
    wideCode P b (flat a c) = unitRows (ZMod P.p) P.m P.n (wideRow P.n (P.n - P.p) b) a c := by
  have hn : 0 < P.n := Nat.zero_lt_of_lt c.isLt
  rw [wideCode, Matrix.of_apply, flat_val, Nat.add_mul_div_left _ _ hn, Nat.div_eq_of_lt c.isLt,
    Nat.zero_add, Nat.add_mul_mod_self_left, Nat.mod_eq_of_lt c.isLt, unitRows_apply]

/-- `G[0]` is the code. -/
theorem expandSystMat_wide (hP : Shared P) (hwide : P.p ≤ P.k) (hS : StartsWide P S)
    (seed : List UInt8) :
    (expandSystMat (fun _ => S) P.p P.k P.m P.n seed).Returns (wideCode P) := by
  have hn := hP.wide_le hwide
  have hk := hP.k_eq
  have hsize : P.m * P.n - P.k = P.n * P.n - P.n := by rw [hP.m_eq, hk]
  have hlen : P.k * (P.m * P.n - P.k) = wideLength P.n := by rw [hsize, hk, wideLength]
  have hdraw := expandFqs_wide hP hS seed 0 (P.k * (P.m * P.n - P.k)) (by omega)
  refine Run.returns_bind.mpr ⟨_, hdraw, Run.returns_pure.mpr ?_⟩
  ext b x
  obtain ⟨a, c, rfl⟩ := exists_flat x
  have hb : b.val < P.n := hk ▸ b.isLt
  have ha : a.val < P.n := hP.m_eq ▸ a.isLt
  have hc := c.isLt
  have hval : (flat a c).val = c + P.n * a := flat_val a c
  rw [wideCode_flat, unitRows_apply, augmentIdentity, Matrix.of_apply]
  by_cases ha0 : a.val = 0
  · -- the identity block
    rw [ha0, Nat.mul_zero, Nat.add_zero] at hval
    rw [dif_pos (by omega), hval, ha0, wideRow, if_pos rfl]
    exact if_congr (by rw [Option.some.injEq]) rfl rfl
  · have hrow : P.n ≤ P.n * a := Nat.le_mul_of_pos_right _ (by omega)
    have hidx : b.val * (P.m * P.n - P.k) + (c.val + P.n * a - P.k)
        = b.val * (P.n * P.n - P.n) + (P.n * a + c - P.n) := by
      rw [hsize, Nat.add_comm c.val]
      omega
    have hlt : b.val * (P.m * P.n - P.k) + (c.val + P.n * a - P.k) < P.k * (P.m * P.n - P.k) := by
      have h1 := flat_lt (C := P.m * P.n - P.k) b.isLt (j := c.val + P.n * a - P.k) (by
        have h2 := flat_lt (C := P.n) a.isLt hc
        rw [Nat.mul_comm P.m]
        omega)
      rwa [Nat.mul_comm b.val, Nat.mul_comm P.k]
    rw [dif_neg (by omega), matrixOf, Matrix.of_apply]
    simp only [hval]
    rw [getD_wideWords hlt, Nat.zero_add, hidx, wideWord_entry (by omega) (by omega) ha hc]
    split <;> simp

end

/-! ## The system of the key generator -/

section

variable {q n : Nat} [Fact q.Prime]

/-- `turn`, shifted up. -/
def turnNext (q n : Nat) : Mat q n n := unitRows (ZMod q) n n fun a => some (turn n (nextRow n a))

theorem det_turnNext (hn : 2 ≤ n) : (turnNext q n).det ≠ 0 :=
  det_unitRows_ne_zero (fun _ hi => turn_lt hn (nextRow_lt hi)) fun _ _ hi hj h =>
    nextRow_inj (turn_inj hn (nextRow_lt hi) (nextRow_lt hj) h)

theorem det_leadMinor_turnNext (hn : 3 ≤ n) : (leadMinor (turnNext q n)).det ≠ 0 := by
  have hminor : leadMinor (turnNext q n)
      = unitRows (ZMod q) (n - 1) (n - 1) fun a => some (turn n (a + 1)) := by
    ext a c
    have ha := a.isLt
    rw [leadMinor, Matrix.submatrix_apply, turnNext, unitRows_apply, unitRows_apply,
      Fin.val_castLE, Fin.val_castLE, nextRow_of_lt (by omega)]
  rw [hminor]
  refine det_unitRows_ne_zero (fun a ha => ?_) fun a b ha hb h => ?_
  · -- row 0 is the only one with its one in the last column
    unfold turn
    rw [if_neg (by omega)]
    split <;> omega
  · exact Nat.succ.inj (turn_inj (by omega) (by omega) (by omega) h)

/-- With A the identity and B⁻¹ = `turn`, row `i` of the second product is row
    `i + 1` of the first. -/
theorem isAnswer_turn (hn : 2 ≤ n) : IsAnswer (turnMat q n) (turnNext q n) 1 (1, turnMat q n) where
  chain :=
    { shift := fun r r' j hr => by
        have hr' := r'.isLt
        rw [Matrix.one_mul, Matrix.one_mul, turnMat, turnNext, unitRows_apply, unitRows_apply,
          nextRow_of_lt (by omega), hr]
      last := fun r j hr hj => by
        rw [Matrix.one_mul, turnNext, unitRows_apply, nextRow_last hr, turn_zero, if_neg]
        rw [Option.some.injEq]
        omega
      corner := fun r _ => Matrix.one_apply_eq r }
  prod := (Matrix.one_mul _).symm

theorem solveSymb_turn (hn : 3 ≤ n) :
    solveSymb (turnMat q n) (turnNext q n) 1 = pure (some (1, turnMat q n)) := by
  obtain ⟨ans, hsymb, hexact⟩ := solveSymb_exact (by omega) (turnMat q n) (turnNext q n) 1
  have hsome := (isAnswer_turn (by omega)).exact (det_leadMinor_turnNext hn) (det_turnNext (q := q) (by omega))
  rw [hsymb, hexact.unique hsome]
  rfl

end

/-! ## The systematic forms -/

section

variable {q k m n ρ : Nat}

/-- The matrices of `M` have the rows `wideRow`. -/
def IsWide (ρ : Nat) (M : Mat q k (m * n)) : Prop :=
  ∀ b a c, M b (flat a c) = unitRows (ZMod q) m n (wideRow n ρ b) a c

/-- `pi` of the code, matrix by matrix. -/
theorem IsWide.pi_flat {M : Mat q k (m * n)} (hM : IsWide ρ M) (A : Mat q m m) (B : Mat q n n)
    (b : Fin k) (a : Fin m) (c : Fin n) :
    pi A B M b (flat a c) = (A * unitRows (ZMod q) m n (wideRow n ρ b) * B) a c := by
  have hslab : (Matrix.of fun a c => M b (flat a c)) = unitRows (ZMod q) m n (wideRow n ρ b) := by
    ext a c
    exact hM b a c
  rw [pi, Matrix.of_apply, flat, Equiv.symm_apply_apply]
  exact congrArg (fun X => (A * X * B) a c) hslab

/-- The columns of the leading block are those of row 0 of every matrix. -/
theorem table_lead {M : Mat q k (m * n)} (hm : 0 < m) {i x : Nat} (hi : i < k) (hx : x < n) :
    table M i x = M ⟨i, hi⟩ (flat ⟨0, hm⟩ ⟨x, hx⟩) := by
  have hlt : x < m * n := hx.trans_le (Nat.le_mul_of_pos_left n hm)
  rw [table_of_lt _ hi hlt]
  exact congrArg (M ⟨i, hi⟩) (Fin.ext (by simp))

variable [Fact q.Prime]

theorem sf_of_isUnit {c : Nat} {M : Mat q k c} (hkc : k ≤ c)
    (hunit : IsUnit (block k k (table M)).det) : ∃ M', sf M = some M' := by
  obtain ⟨r, hr, hsf⟩ := sf_spec M hkc
  have hrank := (hr.eq_iff hkc (echelon_spec k c _).2).mpr hunit
  rw [hsf, hrank, if_pos rfl]
  exact ⟨_, rfl⟩

/-- Row 0 of matrix `b` is unit vector `b`, so the leading block of the public key is `B`. -/
theorem sf_wideKey (hm : m = n) (hk : k = n) (hn : 0 < n) {M : Mat q k (m * n)} (hM : IsWide ρ M)
    {B : Mat q n n} (hB : B.det ≠ 0) : ∃ M', sf (pi (resize m (1 : Mat q n n)) B M) = some M' := by
  subst hm hk
  apply sf_of_isUnit (Nat.le_mul_self k)
  have hlead : block k k (table (pi (resize k (1 : Mat q k k)) B M)) = B := by
    ext b x
    rw [block_apply, table_lead hn b.isLt x.isLt, hM.pi_flat, resize_self, Matrix.one_mul,
      unitRows_mul_of_some (x := b) b.isLt (if_pos rfl)]
  rw [hlead]
  exact hB.isUnit

/-- A commitment has `ρ` leading pivots. -/
theorem sf_wideCommit (hm : m = n) (hk : k = n) (hρ : ρ + 8 ≤ n)
    (hcast : (ρ : ZMod q) = (k : ZMod q)) {M : Mat q k (m * n)} (hM : IsWide ρ M) :
    (∃ M', sf (pi (turnMat q m) (turnMat q n) M) = some M') ∧
      (block k k (table (pi (turnMat q m) (turnMat q n) M))).det = 0 := by
  subst hm hk
  have hpos : 0 < k := by omega
  -- every row is moved twice
  have hprod : ∀ b, b < k → turnMat q k * unitRows (ZMod q) k k (wideRow k ρ b) * turnMat q k
      = unitRows (ZMod q) k k fun a => (wideRow k ρ b (turn k a)).map (turn k) := by
    intro b hb
    have hleft : turnMat q k * unitRows (ZMod q) k k (wideRow k ρ b)
        = unitRows (ZMod q) k k fun a => wideRow k ρ b (turn k a) :=
      unitRows_mul_unitRows fun a y ha hy => Option.some.inj hy ▸ turn_lt (by omega) ha
    rw [hleft, turnMat, unitRows_mul_unitRows fun a y ha hy =>
      wideRow_lt (by omega) hb (turn_lt (by omega) ha) hy]
    exact unitRows_congr fun a _ => (Option.map_eq_bind ..).symm
  refine sf_of_lead (Nat.le_mul_self k) (by omega) hcast fun {i x} hi hx => ?_
  rw [table_lead hpos hi (by omega), hM.pi_flat, hprod i hi, unitRows_apply]
  exact if_congr (wideRow_lead hρ hx) rfl rfl

end

end Meds.Sage
