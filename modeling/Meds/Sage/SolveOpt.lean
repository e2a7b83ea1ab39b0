/-
  Meds.Sage.SolveOpt

  `solve_opt` is exact.

  `M` is the table that all rows share.  `solve_opt` reduces all rows but the
  last, eliminates the last row and substitutes it back, so it gives up exactly
  when one of the two leading minors vanishes.  The unknowns are then read off
  in rows of `n`, from the last one upwards, as in `solve` of util.c.
-/

import Meds.Ref.SolveSpec
import Meds.Sage.SolveSymb

namespace Meds.Sage

open Meds.Core Meds.Ref

section

variable {q n : Nat}

/-! ## The table -/

/-- A loop that fills column `col`. -/
theorem forUp_setEnt (R col : Nat) (v : Nat → ZMod q) (M : Nat → Nat → ZMod q) (a b : Nat) :
    forUp 0 R (fun j M => setEnt j col (v j) M) M a b
      = if a < R ∧ b = col then v a else M a b := by
  induction R with
  | zero => rw [forUp_self, if_neg (by omega)]
  | succ R ih =>
      rw [forUp_succ (Nat.zero_le R), setEnt]
      by_cases hlast : a = R ∧ b = col
      · rw [if_pos hlast, if_pos (by omega), hlast.1]
      · rw [if_neg hlast, ih]
        by_cases hin : a < R ∧ b = col
        · rw [if_pos hin, if_pos (by omega)]
        · rw [if_neg hin, if_neg (by omega)]

/-- A loop that fills the columns from `col` on with the transpose of `v`. -/
theorem forUp2_setEnt (R cnt col : Nat) {ι : Nat → Nat} (hι : ∀ i, ι i = col + i)
    (v : Nat → Nat → ZMod q) (M : Nat → Nat → ZMod q) (a b : Nat) :
    forUp 0 cnt (fun i M => forUp 0 R (fun j M => setEnt j (ι i) (v i j) M) M) M a b
      = if a < R ∧ col ≤ b ∧ b < col + cnt then v (b - col) a else M a b := by
  induction cnt with
  | zero => rw [forUp_self, if_neg (by omega)]
  | succ cnt ih =>
      rw [forUp_succ (Nat.zero_le cnt), forUp_setEnt, hι]
      by_cases hlast : a < R ∧ b = col + cnt
      · rw [if_pos hlast, if_pos (by omega), hlast.2, Nat.add_sub_cancel_left]
      · rw [if_neg hlast, ih]
        by_cases hin : a < R ∧ col ≤ b ∧ b < col + cnt
        · rw [if_pos hin, if_pos (by omega)]
        · rw [if_neg hin, if_neg (by omega)]

theorem optM_rowSystem (P0prime0 P0prime1 : Mat q n n) (Amm : ZMod q) :
    RowSystem n (table P0prime0) (table P0prime1) Amm (optM P0prime0 P0prime1 Amm) := by
  have hlead := forUp2_setEnt n n 0 (ι := fun i => i) (fun i => (Nat.zero_add i).symm)
    (fun i j => -table P0prime1 i j) (fun _ _ => (0 : ZMod q))
  have hmid := forUp2_setEnt n n n (ι := fun i => i + n) (fun i => Nat.add_comm i n)
    (fun i j => table P0prime0 i j)
  refine ⟨fun j i hj hi => ?_, fun j i hj hi => ?_, fun j hj => ?_, fun j hj => ?_⟩
  · simp only [optM]
    rw [forUp_setEnt, if_neg (by omega), forUp_setEnt, if_neg (by omega), hmid, if_neg (by omega),
      hlead, if_pos (by omega), Nat.sub_zero]
  · simp only [optM]
    rw [forUp_setEnt, if_neg (by omega), forUp_setEnt, if_neg (by omega), hmid, if_pos (by omega),
      Nat.add_sub_cancel_left]
  · simp only [optM]
    rw [forUp_setEnt, if_neg (by omega), forUp_setEnt, if_pos (by omega)]
    ring
  · simp only [optM]
    rw [forUp_setEnt, if_pos (by omega), mul_comm]

/-! ## The reduction -/

/-- The last row loses its first entries, when the rows above are unit vectors there. -/
theorem eliminate_spec {N : Nat} {M : Nat → Nat → ZMod q}
    (hunit : ∀ i j, i < N → j < N → M i j = if i = j then 1 else 0) :
    (∀ i c, i ≠ N → forUp 0 N (fun i M => addMultipleOfRow N i (-M N i) M) M i c = M i c) ∧
      ∀ c, forUp 0 N (fun i M => addMultipleOfRow N i (-M N i) M) M N c
        = M N c - ∑ x ∈ Finset.range N, M N x * M x c := by
  refine forUp_invariant (fun r (M' : Nat → Nat → ZMod q) => (∀ i c, i ≠ N → M' i c = M i c) ∧
    ∀ c, M' N c = M N c - ∑ x ∈ Finset.range r, M N x * M x c) (Nat.zero_le N) ?_
    ⟨fun _ _ _ => rfl, fun c => by rw [Finset.range_zero, Finset.sum_empty, sub_zero]⟩
  rintro r M' - hr ⟨hkeep, hrow⟩
  have hfactor : M' N r = M N r := by
    rw [hrow, Finset.sum_eq_zero, sub_zero]
    intro x hx
    have hx' := Finset.mem_range.mp hx
    rw [hunit x r (by omega) hr, if_neg (by omega), mul_zero]
  refine ⟨fun i c hi => ?_, fun c => ?_⟩
  · rw [addMultipleOfRow, if_neg hi, hkeep i c hi]
  · rw [addMultipleOfRow, if_pos rfl, hfactor, hkeep r c (by omega), hrow, Finset.sum_range_succ]
    ring

/-- The rows above lose their multiple of the last one. -/
theorem substitute_spec (N : Nat) (M : Nat → Nat → ZMod q) :
    (∀ i c, i < N → forUp 0 N (fun i M => addMultipleOfRow i N (-M i N) M) M i c
        = M i c - M i N * M N c) ∧
      ∀ c, forUp 0 N (fun i M => addMultipleOfRow i N (-M i N) M) M N c = M N c := by
  have hinv := forUp_invariant (s := M) (f := fun i M => addMultipleOfRow i N (-M i N) M)
    (fun r M' => (∀ i c, i < r → M' i c = M i c - M i N * M N c) ∧
      ∀ i c, r ≤ i → M' i c = M i c) (Nat.zero_le N) (by
      rintro r M' - hr ⟨hdone, hkeep⟩
      refine ⟨fun i c hi => ?_, fun i c hi => ?_⟩
      · rw [addMultipleOfRow]
        by_cases hir : i = r
        · subst hir
          rw [if_pos rfl, hkeep i c (Nat.le_refl i), hkeep i N (Nat.le_refl i), hkeep N c (by omega)]
          ring
        · rw [if_neg hir, hdone i c (by omega)]
      · rw [addMultipleOfRow, if_neg (by omega), hkeep i c (by omega)])
    ⟨fun _ _ hi => absurd hi (Nat.not_lt_zero _), fun _ _ _ => rfl⟩
  exact ⟨hinv.1, fun c => hinv.2 N c (Nat.le_refl N)⟩

/-- `solve_opt` reduces exactly the tables whose two leading minors are units. -/
theorem optReduce_spec [Fact q.Prime] (hn : 1 ≤ n) (E : Nat → Nat → ZMod q) :
    ((block (n - 1) (n - 1) E).det ≠ 0 ∧ (block n n E).det ≠ 0 ∧
        ∃ M, optReduce n E = some M ∧ RowReduced n E M) ∨
      (((block (n - 1) (n - 1) E).det = 0 ∨ (block n n E).det = 0) ∧ optReduce n E = none) := by
  have hequiv := (echelon_spec (n - 1) (n + n + 2) E).2
  simp only [optReduce]
  rcases echelon_diag (show n - 1 ≤ n + n + 2 by omega) E with ⟨hdiag, hunit, hminor⟩ | ⟨hdiag, hminor⟩
  case inr => exact Or.inr ⟨Or.inl hminor, if_pos hdiag⟩
  rw [if_neg (not_not_intro hdiag)]
  obtain ⟨F, hF⟩ : ∃ F, echelon (n - 1) (n + n + 2) E = F := ⟨_, rfl⟩
  rw [hF] at hequiv hunit ⊢
  have hsys : ∀ c, c < 2 * n + 2 → ∀ j, j < n - 1 →
      ∑ r ∈ Finset.range (n - 1), E j r * F r c = E j c := by
    intro c hc j hj
    obtain ⟨hlead, hmul⟩ := hequiv.systematic (by omega) hunit
    have hback : block (n - 1) (n - 1) E * block (n - 1) (n + n + 2) F
        = block (n - 1) (n + n + 2) E := by
      rw [hmul, ← Matrix.mul_assoc, Matrix.mul_nonsing_inv _ hlead, Matrix.one_mul]
    have hentry := congrFun (congrFun hback ⟨j, hj⟩) ⟨c, by omega⟩
    rw [Matrix.mul_apply] at hentry
    rw [Finset.sum_range]
    exact hentry
  -- the last row, with the others eliminated from it
  obtain ⟨M1, hM1⟩ : ∃ M1 : Nat → Nat → ZMod q, M1 = fun i j => if i < n - 1 then F i j else E i j :=
    ⟨_, rfl⟩
  rw [← hM1]
  have hup1 : ∀ i c, i < n - 1 → M1 i c = F i c := fun i c hi => by rw [hM1]; exact if_pos hi
  have hlast1 : ∀ c, M1 (n - 1) c = E (n - 1) c := fun c => by
    rw [hM1]
    exact if_neg (Nat.lt_irrefl _)
  obtain ⟨hup2, hrow2⟩ := eliminate_spec (N := n - 1) (M := M1) fun i j hi hj => by
    rw [hup1 i j hi, hunit i j hi hj]
  obtain ⟨M2, hM2⟩ : ∃ M2, forUp 0 (n - 1) (fun i M => addMultipleOfRow (n - 1) i (-M (n - 1) i) M) M1
      = M2 := ⟨_, rfl⟩
  rw [hM2] at hup2 hrow2 ⊢
  have hrow : ∀ c, M2 (n - 1) c
      = E (n - 1) c - ∑ r ∈ Finset.range (n - 1), E (n - 1) r * F r c := by
    intro c
    rw [hrow2, hlast1]
    refine congrArg _ (Finset.sum_congr rfl fun r hr => ?_)
    rw [hlast1, hup1 r c (Finset.mem_range.mp hr)]
  have hdet : (block n n E).det = (block (n - 1) (n - 1) E).det * M2 (n - 1) (n - 1) := by
    have h := det_block_succ (n := n - 1) (E := E) (hsys (n - 1) (by omega))
    rwa [← hrow, Nat.sub_add_cancel hn] at h
  by_cases hpiv : M2 (n - 1) (n - 1) = 0
  · rw [if_pos hpiv]
    exact Or.inr ⟨Or.inr (by rw [hdet, hpiv, mul_zero]), rfl⟩
  rw [if_neg hpiv]
  refine Or.inl ⟨hminor, hdet ▸ mul_ne_zero hminor hpiv, _, rfl, ?_⟩
  -- the last row, scaled, and zero in the last column
  obtain ⟨M4, hM4⟩ : ∃ M4, setEnt (n - 1) (n + n + 1) 0
      (setRowToMultipleOfRow (n - 1) (n - 1) (1 / M2 (n - 1) (n - 1)) M2) = M4 := ⟨_, rfl⟩
  rw [hM4]
  have hup4 : ∀ i c, i < n - 1 → M4 i c = F i c := by
    intro i c hi
    rw [← hM4, setEnt, if_neg (by omega), setRowToMultipleOfRow, if_neg (by omega),
      hup2 i c (by omega), hup1 i c hi]
  have hlast4 : ∀ c, c ≤ 2 * n → M4 (n - 1) c = (M2 (n - 1) (n - 1))⁻¹ * M2 (n - 1) c := by
    intro c hc
    rw [← hM4, setEnt, if_neg (by omega), setRowToMultipleOfRow, if_pos rfl, one_div]
  have hzero4 : M4 (n - 1) (2 * n + 1) = 0 := by
    rw [← hM4, setEnt, if_pos (by omega)]
  obtain ⟨hup5, hlast5⟩ := substitute_spec (n - 1) M4
  refine rowReduced_of_bordered (F := F) hn hsys (hrow _) hpiv (fun c hc1 hc2 => ?_)
    (fun r c hr hc1 hc2 => ?_) fun r hr => ?_
  · rw [hlast5, hlast4 c hc2, hrow c]
  · rw [hup5 r c hr, hup4 r c hr, hup4 r _ hr, hlast5]
  · rw [hup5 r _ hr, hzero4, mul_zero, sub_zero, hup4 r _ hr]

/-! ## Reading off the unknowns -/

/-- The unknowns in rows of `n`. -/
def rows (n : Nat) (sol : Nat → ZMod q) (R i : Nat) : ZMod q := sol (n * R + i)

/-- A loop that fills the first `cnt` cells of row `R`. -/
theorem rows_fill {R base : Nat} (cnt : Nat) (hbase : base = n * R) (hcnt : cnt ≤ n)
    (v : Nat → ZMod q) (sol : Nat → ZMod q) {R' i : Nat} (hi : i < n) :
    rows n (forUp 0 cnt (fun i sol => Function.update sol (base + i) (v i)) sol) R' i
      = if R' = R ∧ i < cnt then v i else rows n sol R' i := by
  subst hbase
  induction cnt with
  | zero => rw [forUp_self, if_neg (by omega)]
  | succ cnt ih =>
      rw [forUp_succ (Nat.zero_le cnt), rows]
      by_cases hcell : R' = R ∧ i = cnt
      · obtain ⟨rfl, rfl⟩ := hcell
        rw [Function.update_self, if_pos ⟨rfl, Nat.lt_succ_self i⟩]
      · rw [Function.update_of_ne fun h => hcell (flat_inj hi (by omega) h)]
        refine (ih (by omega)).trans ?_
        by_cases hin : R' = R ∧ i < cnt
        · rw [if_pos hin, if_pos (by omega)]
        · rw [if_neg hin, if_neg (by omega)]

theorem addTo_apply (k₀ : Nat) (v : ZMod q) (sol : Nat → ZMod q) (k : Nat) :
    addTo k₀ v sol k = sol k + if k = k₀ then v else 0 := by
  rw [addTo, Function.update_apply]
  by_cases hk : k = k₀
  · rw [if_pos hk, if_pos hk, hk]
  · rw [if_neg hk, if_neg hk, add_zero]

/-- Nested loops that add multiples of the cells `src j`, none of which they change. -/
theorem forUp2_add {a cnt : Nat} {f : Nat → Nat → (Nat → ZMod q) → Nat → ZMod q}
    {w : Nat → Nat → Nat → ZMod q} (src : Nat → Nat)
    (hf : ∀ i j sol k, i < a → j < cnt → f i j sol k = sol k + w i j k * sol (src j))
    (hw : ∀ i j j', i < a → j < cnt → j' < cnt → w i j (src j') = 0) (sol : Nat → ZMod q)
    (k : Nat) :
    forUp 0 a (fun i sol => forUp 0 cnt (f i) sol) sol k
      = sol k + ∑ i ∈ Finset.range a, ∑ j ∈ Finset.range cnt, w i j k * sol (src j) := by
  -- the sources keep their values, so the added multiples sum up
  have hinner : ∀ i, i < a → ∀ sol k, forUp 0 cnt (f i) sol k
      = sol k + ∑ j ∈ Finset.range cnt, w i j k * sol (src j) := by
    intro i hi sol
    refine forUp_invariant (fun c (sol' : Nat → ZMod q) => ∀ k, sol' k
      = sol k + ∑ j ∈ Finset.range c, w i j k * sol (src j)) (Nat.zero_le cnt) ?_
      fun k => by rw [Finset.range_zero, Finset.sum_empty, add_zero]
    intro c sol' _ hc hsol' k
    have hsame : sol' (src c) = sol (src c) := by
      rw [hsol', Finset.sum_eq_zero, add_zero]
      intro j hj
      rw [hw i j c hi ((Finset.mem_range.mp hj).trans hc) hc, zero_mul]
    rw [hf i c sol' k hi hc, hsame, hsol', Finset.sum_range_succ, add_assoc]
  refine forUp_invariant (fun c (sol' : Nat → ZMod q) => ∀ k, sol' k
    = sol k + ∑ i ∈ Finset.range c, ∑ j ∈ Finset.range cnt, w i j k * sol (src j))
    (Nat.zero_le a) ?_ (fun k => by rw [Finset.range_zero, Finset.sum_empty, add_zero]) k
  intro c sol' _ hc hsol' k
  have hsame : ∀ j ∈ Finset.range cnt, w c j k * sol' (src j) = w c j k * sol (src j) := by
    intro j hj
    rw [hsol', Finset.sum_eq_zero, add_zero]
    intro i hi
    refine Finset.sum_eq_zero fun j' hj' => ?_
    rw [hw i j' j ((Finset.mem_range.mp hi).trans hc) (Finset.mem_range.mp hj')
      (Finset.mem_range.mp hj), zero_mul]
  rw [hinner c hc, Finset.sum_congr rfl hsame, hsol', Finset.sum_range_succ, add_assoc]

/-- The coefficients of a loop that adds `c i j` times cell `src j` to cell `base + i`. -/
def weight (base : Nat) (c : Nat → Nat → ZMod q) (i j k : Nat) : ZMod q :=
  if k = base + i then c i j else 0

theorem addTo_weight (base : Nat) (c : Nat → Nat → ZMod q) (src : Nat → Nat) (i j : Nat)
    (sol : Nat → ZMod q) (k : Nat) :
    addTo (base + i) (c i j * sol (src j)) sol k = sol k + weight base c i j k * sol (src j) := by
  rw [addTo_apply, weight, ite_mul, zero_mul]

/-- The loop nest of a complete block. -/
def addBlock (n cnt base : Nat) (c : Nat → Nat → ZMod q) (src : Nat → Nat) (sol : Nat → ZMod q) :
    Nat → ZMod q :=
  forUp 0 n (fun i sol => forUp 0 cnt (fun j sol => addTo (base + i) (c i j * sol (src j)) sol) sol) sol

theorem addBlock_apply (cnt base : Nat) (c : Nat → Nat → ZMod q) (src : Nat → Nat)
    (hsrc : ∀ i j, i < n → j < cnt → src j ≠ base + i) (sol : Nat → ZMod q) (k : Nat) :
    addBlock n cnt base c src sol k
      = sol k + ∑ i ∈ Finset.range n, ∑ j ∈ Finset.range cnt, weight base c i j k * sol (src j) :=
  forUp2_add src (fun i j sol k _ _ => addTo_weight base c src i j sol k)
    (fun i _ j' hi _ hj' => if_neg (hsrc i j' hi hj')) sol k

/-- A block subtracts a combination of one row from another. -/
theorem addBlock_rows {R : Nat} (R' cnt base : Nat) (c : Nat → Nat → ZMod q) (src : Nat → Nat)
    {f : Nat → Nat → ZMod q} (hcnt : cnt ≤ n) (hR : R' ≠ R) (hbase : base = n * R)
    (hsrc : ∀ j, j < cnt → src j = n * R' + (cnt - 1 - j))
    (hc : ∀ i j, i < n → j < cnt → c i j = -f i (cnt - 1 - j)) (sol : Nat → ZMod q) :
    RowAccum n R R' cnt f (rows n sol) (rows n (addBlock n cnt base c src sol)) := by
  subst hbase
  have happly := fun k => addBlock_apply (n := n) cnt (n * R) c src
    (fun i j hi hj h => hR (flat_inj (by omega) hi ((hsrc j hj).symm.trans h)).1) sol k
  refine ⟨fun i hi => ?_, fun R'' i hR'' hi => ?_⟩
  · rw [rows, happly, Finset.sum_eq_single i]
    · -- the source counts its columns downwards
      rw [← Finset.sum_range_reflect (fun x => f i x * rows n sol R' x) cnt, sub_eq_add_neg,
        ← Finset.sum_neg_distrib]
      refine congrArg _ (Finset.sum_congr rfl fun j hj => ?_)
      have hj' := Finset.mem_range.mp hj
      rw [weight, if_pos rfl, hc i j hi hj', hsrc j hj', neg_mul]
      rfl
    · intro i' _ hne
      refine Finset.sum_eq_zero fun j _ => ?_
      rw [weight, if_neg (by omega), zero_mul]
    · exact fun h => absurd (Finset.mem_range.mpr hi) h
  · rw [rows, happly, Finset.sum_eq_zero, add_zero]
    · rfl
    · intro i' hi'
      refine Finset.sum_eq_zero fun j _ => ?_
      rw [weight, if_neg fun h => hR'' (flat_inj hi (Finset.mem_range.mp hi') h).1, zero_mul]

/-- Two blocks with the same source rows, in one loop nest or one after the other. -/
theorem addBlock_interleaved (cnt base base' : Nat) (c c' : Nat → Nat → ZMod q) (src : Nat → Nat)
    (hsrc : ∀ i j, i < n → j < cnt → src j ≠ base + i)
    (hsrc' : ∀ i j, i < n → j < cnt → src j ≠ base' + i) (sol : Nat → ZMod q) :
    forUp 0 n
        (fun i sol =>
          forUp 0 cnt
            (fun j sol =>
              let sol := addTo (base + i) (c i j * sol (src j)) sol
              addTo (base' + i) (c' i j * sol (src j)) sol)
            sol)
        sol
      = addBlock n cnt base' c' src (addBlock n cnt base c src sol) := by
  have hzero : ∀ i j, i < n → j < cnt → ∀ j', j' < cnt → weight base c i j (src j') = 0 :=
    fun i _ hi _ j' hj' => if_neg (hsrc i j' hi hj')
  have hsame : ∀ j, j < cnt → addBlock n cnt base c src sol (src j) = sol (src j) := by
    intro j hj
    rw [addBlock_apply cnt base c src hsrc, Finset.sum_eq_zero, add_zero]
    intro i hi
    refine Finset.sum_eq_zero fun j' hj' => ?_
    rw [hzero i j' (Finset.mem_range.mp hi) (Finset.mem_range.mp hj') j hj, zero_mul]
  funext k
  -- one loop nest adds both weights at once
  have hboth := forUp2_add src (a := n) (w := fun i j k => weight base c i j k + weight base' c' i j k)
    (f := fun i j sol => addTo (base' + i)
      (c' i j * addTo (base + i) (c i j * sol (src j)) sol (src j))
      (addTo (base + i) (c i j * sol (src j)) sol))
    (fun i j sol k hi hj => by
      rw [addTo_weight base c src i j sol (src j), hzero i j hi hj j hj, zero_mul, add_zero,
        addTo_apply, addTo_weight, add_mul, add_assoc, weight, weight, ite_mul, zero_mul, ite_mul,
        zero_mul])
    (fun i j j' hi hj hj' => by
      rw [hzero i j hi hj j' hj', zero_add]
      exact if_neg (hsrc' i j' hi hj')) sol k
  refine hboth.trans ?_
  rw [addBlock_apply cnt base' c' src hsrc', addBlock_apply cnt base c src hsrc, add_assoc, ← Finset.sum_add_distrib]
  refine congrArg _ (Finset.sum_congr rfl fun i _ => ?_)
  rw [← Finset.sum_add_distrib]
  refine Finset.sum_congr rfl fun j hj => ?_
  -- the sources have their old values when the second block is added
  rw [hsame j (Finset.mem_range.mp hj), add_mul]

/-- `sol` before the blocks. -/
def optStart (P0prime0 : Mat q n n) (M : Nat → Nat → ZMod q) (Amm : ZMod q) : Nat → ZMod q :=
  forUp 0 n (fun i sol => Function.update sol (n * n - n + i) (table P0prime0 (n - 1) i * Amm))
    (forUp 0 n (fun i sol => Function.update sol (n * n + n * n - 2 * n + i) (M i (n + n)))
      (forUp 0 (n - 1)
        (fun i sol => Function.update sol (n * n + n * n - n + i) (M i (n + n + 1)))
        (Function.update (fun _ => 0) (n * n + n * n - 1) Amm)))

theorem optStart_spec (hn : 2 ≤ n) (P0prime0 : Mat q n n) (M : Nat → Nat → ZMod q) (Amm : ZMod q) :
    RowStart n M (table P0prime0) Amm (rows n (optStart P0prime0 M Amm)) := by
  have hend : n * n + n * n - 1 = n * (2 * n - 1) + (n - 1) := by
    have := rowEnd_eq (n := n) (c := 0) (j := 0) (k := n - 1) (by omega) (by omega)
    simpa using this
  have hrow1 : n * n + n * n - n = n * (2 * n - 1) := by
    have := rowStart_eq n 1
    rwa [Nat.one_mul] at this
  have hrow : ∀ R i, i < n → rows n (optStart P0prime0 M Amm) R i
      = if R = n - 1 ∧ i < n then table P0prime0 (n - 1) i * Amm
        else if R = 2 * n - 2 ∧ i < n then M i (n + n)
        else if R = 2 * n - 1 ∧ i < n - 1 then M i (n + n + 1)
        else if R = 2 * n - 1 ∧ i = n - 1 then Amm else 0 := by
    intro R i hi
    rw [optStart,
      rows_fill (R := n - 1) n (by rw [Nat.mul_sub, Nat.mul_one]) (Nat.le_refl n) _ _ hi,
      rows_fill n (rowStart_eq n 2) (Nat.le_refl n) _ _ hi,
      rows_fill (n - 1) hrow1 (Nat.sub_le n 1) _ _ hi, rows, hend, Function.update_apply]
    by_cases hcell : R = 2 * n - 1 ∧ i = n - 1
    · rw [if_pos hcell, hcell.1, hcell.2, if_pos rfl]
    · rw [if_neg hcell, if_neg fun h => hcell (flat_inj hi (by omega) h)]
  refine ⟨?_, fun i hi => ?_, fun i hi => ?_, fun i hi => ?_, fun R i h1 h2 hi => ?_⟩
  · rw [hrow _ _ (by omega), if_neg (by omega), if_neg (by omega), if_neg (by omega),
      if_pos ⟨rfl, rfl⟩]
  · rw [hrow _ _ (by omega), if_neg (by omega), if_neg (by omega), if_pos ⟨rfl, hi⟩,
      show n + n + 1 = 2 * n + 1 by omega]
  · rw [hrow _ _ hi, if_neg (by omega), if_pos ⟨rfl, hi⟩, show n + n = 2 * n by omega]
  · rw [hrow _ _ hi, if_pos ⟨rfl, hi⟩]
  · rw [hrow _ _ hi, if_neg (by omega), if_neg (by omega), if_neg (by omega), if_neg (by omega)]

/-- `sol`, row by row. -/
theorem optSol_rows (hn : 2 ≤ n) (P0prime0 : Mat q n n) (M : Nat → Nat → ZMod q) (Amm : ZMod q) :
    RowUnknowns n M (table P0prime0) Amm (rows n (optSol P0prime0 M Amm)) := by
  have hprod : n * n - n = n * (n - 1) := by rw [Nat.mul_sub, Nat.mul_one]
  -- the incomplete blocks read the last row of A without its last entry
  have hsrc : ∀ j, j < n - 1 → n * n + n * n - 2 - j = n * (2 * n - 1) + (n - 1 - 1 - j) := by
    intro j hj
    have := rowEnd_eq (n := n) (c := 0) (j := j + 1) (k := n - 1 - 1 - j) (by omega) (by omega)
    simp only [Nat.zero_mul, Nat.sub_zero] at this
    omega
  have hne : ∀ R, R ≠ 2 * n - 1 → ∀ i j, i < n → j < n - 1 →
      n * n + n * n - 2 - j ≠ n * R + i := by
    intro R hR i j hi hj h
    exact hR (flat_inj (by omega) hi ((hsrc j hj).symm.trans h)).1.symm
  have hblocks := addBlock_interleaved (n := n) (n - 1) (n * n + n * n - 2 * n) (n * n - n)
    (fun i j => -M i (n + n - 2 - j)) (fun i j => - -table P0prime0 (n - 2 - j) i)
    (fun j => n * n + n * n - 2 - j)
    (by rw [rowStart_eq n 2]; exact hne _ (by omega)) (by rw [hprod]; exact hne _ (by omega))
    (optStart P0prime0 M Amm)
  have h5 := addBlock_rows (n := n) (R := 2 * n - 2) (2 * n - 1) (n - 1) (n * n + n * n - 2 * n)
    (fun i j => -M i (n + n - 2 - j)) (fun j => n * n + n * n - 2 - j)
    (f := fun i x => M i (n + x)) (by omega) (by omega) (rowStart_eq n 2) hsrc
    (fun i j _ hj => by
      rw [show n + (n - 1 - 1 - j) = n + n - 2 - j by omega]) (optStart P0prime0 M Amm)
  obtain ⟨s5, hs5⟩ : ∃ s5, addBlock n (n - 1) (n * n + n * n - 2 * n)
      (fun i j => -M i (n + n - 2 - j)) (fun j => n * n + n * n - 2 - j) (optStart P0prime0 M Amm)
      = s5 := ⟨_, rfl⟩
  rw [hs5] at h5 hblocks
  have h6 := addBlock_rows (n := n) (R := n - 1) (2 * n - 1) (n - 1) (n * n - n)
    (fun i j => - -table P0prime0 (n - 2 - j) i) (fun j => n * n + n * n - 2 - j)
    (f := fun i x => -table P0prime0 x i) (by omega) (by omega) hprod hsrc
    (fun i j _ hj => by rw [show n - 1 - 1 - j = n - 2 - j by omega]) s5
  have h7 : ∀ b sol, 3 ≤ b → b ≤ n → RowAccum n (2 * n - b) (2 * n - b + 1) n
      (fun i x => M i (n + x)) (rows n sol)
      (rows n (addBlock n n (n * n + n * n - b * n) (fun i j => -M i (n + n - 1 - j))
        (fun j => n * n + n * n - 1 - (b - 2) * n - j) sol)) := by
    intro b sol hb1 hb2
    refine addBlock_rows (2 * n - b + 1) n _ _ _ (Nat.le_refl n) (by omega) (rowStart_eq n b)
      (fun j hj => ?_) (fun i j _ hj => ?_) sol
    · rw [rowEnd_eq (k := n - 1 - j) (by omega) (by omega),
        show 2 * n - (b - 2) - 1 = 2 * n - b + 1 by omega]
    · rw [show n + (n - 1 - j) = n + n - 1 - j by omega]
  have h8 : ∀ b sol, 2 ≤ b → b ≤ n → RowAccum n (n - b) (2 * n - b) n
      (fun i x => -table P0prime0 x i) (rows n sol)
      (rows n (addBlock n n (n * n - b * n) (fun i j => - -table P0prime0 (n - 1 - j) i)
        (fun j => n * n + n * n - 1 - (b - 1) * n - j) sol)) := by
    intro b sol hb1 hb2
    refine addBlock_rows (2 * n - b) n _ _ _ (Nat.le_refl n) (by omega)
      (by rw [Nat.mul_sub, Nat.mul_comm b]) (fun j hj => ?_) (fun _ _ _ _ => rfl) sol
    rw [rowEnd_eq (k := n - 1 - j) (by omega) (by omega),
      show 2 * n - (b - 1) - 1 = 2 * n - b by omega]
  have hS := RowStart.unknowns (V := rows n) hn (optStart_spec hn P0prime0 M Amm) h5 h6 h7 h8
  rw [← hblocks] at hS
  exact hS

/-! ## Exactness -/

/-- The unknowns of a row table, as matrices. -/
theorem isAnswer_of_rows [Fact q.Prime] (hn : 2 ≤ n) {P0prime0 P0prime1 : Mat q n n} {Amm : ZMod q}
    {M : Nat → Nat → ZMod q} {sol : Nat → ZMod q}
    (hR : RowReduced n (optM P0prime0 P0prime1 Amm) M)
    (hS : RowUnknowns n M (table P0prime0) Amm (rows n sol)) :
    IsAnswer P0prime0 P0prime1 Amm
      (Matrix.of fun i j => sol (n * n + (i * n + j)), Matrix.of fun i j => sol (i * n + j)) := by
  obtain ⟨hchain, hprod⟩ := hS.rowChain hn (optM_rowSystem P0prime0 P0prime1 Amm) hR
  rw [block_table, block_table] at hchain
  rw [block_table] at hprod
  have hA : (Matrix.of fun i j => sol (n * n + (i * n + j)) : Mat q n n)
      = block n n fun a => rows n sol (n + a) := by
    ext i j
    change sol _ = sol _
    rw [Nat.mul_add, Nat.add_assoc, Nat.mul_comm n i]
  have hB : (Matrix.of fun i j => sol (i * n + j) : Mat q n n) = block n n (rows n sol) := by
    ext i j
    change sol _ = sol _
    rw [Nat.mul_comm n i]
  rw [hA, hB]
  exact ⟨hchain, hprod⟩

/-- `solve_opt` is exact. -/
theorem solveOpt_exact [Fact q.Prime] (hn : 2 ≤ n) (P0prime0 P0prime1 : Mat q n n) (Amm : ZMod q) :
    ∃ ans, solveOpt P0prime0 P0prime1 Amm = .ok ans ∧ Exact P0prime0 P0prime1 Amm ans := by
  have hS := optM_rowSystem P0prime0 P0prime1 Amm
  have hminor := det_block_neg_transpose (k := n - 1) (F := table P0prime1) fun j i hj hi =>
    hS.lead j i (by omega) (by omega)
  have hdet := det_block_neg_transpose (k := n) (F := table P0prime1) hS.lead
  rw [← leadMinor_eq] at hminor
  rw [block_table] at hdet
  rcases optReduce_spec (show 1 ≤ n by omega) (optM P0prime0 P0prime1 Amm) with
    ⟨hne1, hne2, M, hM, hR⟩ | ⟨hor, hnone⟩
  · refine ⟨_, by rw [solveOpt, hM]; rfl, ?_⟩
    exact (isAnswer_of_rows hn hR (optSol_rows hn P0prime0 M Amm)).exact (hminor.not.mp hne1)
      (hdet.not.mp hne2)
  · refine ⟨none, by rw [solveOpt, hnone]; rfl, exact_none hn ?_⟩
    rwa [hminor, hdet] at hor

end

end Meds.Sage
