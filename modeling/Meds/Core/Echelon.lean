/-
  Meds.Core.Echelon

  The reduced echelon form, column by column.

  `Gauss` treats the eliminations of the source, which stop at the first
  column without a pivot.  Here a column without a pivot is passed over, as in
  a computer algebra system.  The invariant is the list of pivot columns so
  far.  A matrix with an invertible leading block ends up systematic; with a
  singular one, from some row on every diagonal entry is zero
  (`exists_leading`), so the trace counts the leading pivots.
-/

import Meds.Core.Gauss
import Meds.Core.Loop

namespace Meds.Core

variable {K : Type} [Field K] {n c : Nat} {E E' : Nat → Nat → K}

/-- Add row `i` to row `r`. -/
def addRowTo (r i : Nat) (E : Nat → Nat → K) : Nat → Nat → K :=
  fun a x => if a = r then E a x + 1 * E i x else E a x

/-- Scale row `r` to a one in column `j`. -/
def normalizeRow (r j : Nat) (E : Nat → Nat → K) : Nat → Nat → K :=
  fun a x => if a = r then (E r j)⁻¹ * E a x else E a x

/-- Clear column `j` of the rows before `m`, other than row `r`. -/
def clearColumn (r j m : Nat) (E : Nat → Nat → K) : Nat → Nat → K :=
  fun a x => if a < m ∧ a ≠ r then E a x - E a j * E r x else E a x

section

variable [DecidableEq K]

/-- Column `j`: make row `s.1` its pivot row, if a row from there on has a
    nonzero entry. -/
def pivotStep (n j : Nat) (s : Nat × (Nat → Nat → K)) : Nat × (Nat → Nat → K) :=
  match (List.range n).find? fun i => decide (s.1 ≤ i ∧ s.2 i j ≠ 0) with
  | none => s
  | some i =>
    let E := if i = s.1 then s.2 else addRowTo s.1 i s.2
    (s.1 + 1, clearColumn s.1 j n (normalizeRow s.1 j E))

/-- The reduced echelon form of an `n × c` matrix. -/
def echelon (n c : Nat) (E : Nat → Nat → K) : Nat → Nat → K := (forUp 0 c (pivotStep n) (0, E)).2

end

/-! ## Row operations -/

theorem RowEquiv.addRowTo {r i : Nat} (hr : r < n) (hi : i < n) (hne : r ≠ i) :
    RowEquiv n c E (addRowTo r i E) :=
  RowEquiv.addRow 1 hr hi hne fun _ _ _ _ => rfl

theorem RowEquiv.normalizeRow {r j : Nat} (h : E r j ≠ 0) : RowEquiv n c E (normalizeRow r j E) :=
  RowEquiv.scaleRow (inv_ne_zero h) fun _ _ _ _ => rfl

theorem RowEquiv.clearColumn {r j m : Nat} (hr : r < n) (hm : m ≤ n) :
    RowEquiv n c E (clearColumn r j m E) := by
  induction m with
  | zero => exact RowEquiv.of_eq fun a x _ _ => if_neg (by omega)
  | succ m ih =>
      apply (ih (by omega)).trans
      by_cases hmr : m = r
      · apply RowEquiv.of_eq
        intro a x _ _
        have : (a < m + 1 ∧ a ≠ r) ↔ a < m ∧ a ≠ r := by omega
        simp only [Core.clearColumn, this]
      · -- row `m` loses its multiple of row `r`, which no round changes
        apply RowEquiv.addRow (a := m) (b := r) (-E m j) (by omega) hr hmr
        intro a x _ _
        by_cases ha : a = m
        · subst ha
          simp only [Core.clearColumn]
          rw [if_pos ⟨by omega, hmr⟩, if_true, if_neg (by omega), if_neg (by omega)]
          ring
        · have : (a < m + 1 ∧ a ≠ r) ↔ a < m ∧ a ≠ r := by omega
          simp only [Core.clearColumn, this, if_neg ha]

/-! ## Pivots -/

/-- Columns `0, …, j - 1` are in reduced echelon form with the pivots `piv`. -/
structure Echelon (n j : Nat) (piv : List Nat) (E : Nat → Nat → K) : Prop where
  length_le : piv.length ≤ n
  sorted : piv.Pairwise (· < ·)
  lt : ∀ x ∈ piv, x < j
  unit : ∀ a x, piv[a]? = some x → ∀ i, i < n → E i x = if i = a then 1 else 0
  before : ∀ a x, piv[a]? = some x → ∀ y, y < x → E a y = 0
  rest : ∀ i, piv.length ≤ i → i < n → ∀ y, y < j → E i y = 0

theorem Echelon.zero (n : Nat) (E : Nat → Nat → K) : Echelon n 0 [] E where
  length_le := Nat.zero_le n
  sorted := List.Pairwise.nil
  lt _ h := absurd h List.not_mem_nil
  unit _ _ h := absurd h (by simp)
  before _ _ h := absurd h (by simp)
  rest _ _ _ _ h := absurd h (Nat.not_lt_zero _)

/-- A column without a pivot is passed over. -/
theorem Echelon.skip {j : Nat} {piv : List Nat} (h : Echelon n j piv E)
    (hj : ∀ i, piv.length ≤ i → i < n → E i j = 0) : Echelon n (j + 1) piv E where
  length_le := h.length_le
  sorted := h.sorted
  lt x hx := (h.lt x hx).trans (Nat.lt_succ_self j)
  unit := h.unit
  before := h.before
  rest i h1 h2 y hy := by
    by_cases hyj : y = j
    · rw [hyj]
      exact hj i h1 h2
    · exact h.rest i h1 h2 y (by omega)

/-- A column with a pivot becomes a unit column; earlier columns stay, as the
    pivot row is zero there. -/
theorem Echelon.pivot {j : Nat} {piv : List Nat} (h : Echelon n j piv E) (hr : piv.length < n)
    (hrow : E piv.length j ≠ 0) :
    Echelon n (j + 1) (piv ++ [j])
      (clearColumn piv.length j n (normalizeRow piv.length j E)) := by
  obtain ⟨r, hr₀⟩ : ∃ r, piv.length = r := ⟨_, rfl⟩
  rw [hr₀] at hr hrow ⊢
  -- left of the pivot the row is zero, so nothing changes there
  have hold : ∀ i y, y < j → clearColumn r j n (normalizeRow r j E) i y = E i y := by
    intro i y hy
    have hz : E r y = 0 := h.rest r (by omega) hr y hy
    simp only [clearColumn, normalizeRow]
    by_cases hir : i = r
    · subst hir
      simp [hz]
    · simp [hir, hz]
  -- the column itself is cleared outside of its row
  have hnew : ∀ i, i < n → clearColumn r j n (normalizeRow r j E) i j = if i = r then 1 else 0 := by
    intro i hi
    simp only [clearColumn, normalizeRow]
    by_cases hir : i = r
    · subst hir
      simp [hrow]
    · simp [hir, hi, hrow]
  have hcases : ∀ a x, (piv ++ [j])[a]? = some x → piv[a]? = some x ∨ a = r ∧ x = j := by
    intro a x hx
    rcases Nat.lt_trichotomy a piv.length with hlt | heq | hgt
    · rw [List.getElem?_append_left hlt] at hx
      exact Or.inl hx
    · rw [heq, List.getElem?_concat_length] at hx
      exact Or.inr ⟨by omega, (Option.some.inj hx).symm⟩
    · rw [List.getElem?_eq_none (by simp; omega)] at hx
      cases hx
  have hltj : ∀ a x, piv[a]? = some x → x < j := fun a x hx => h.lt x (List.mem_of_getElem? hx)
  -- every field holds for the old pivots by `hold`, for the new one by `hnew`
  constructor
  · simp only [List.length_append, List.length_singleton]
    omega
  · rw [List.pairwise_append]
    refine ⟨h.sorted, List.pairwise_singleton _ _, ?_⟩
    intro x hx y hy
    rw [List.mem_singleton.mp hy]
    exact h.lt x hx
  · intro x hx
    rcases List.mem_append.mp hx with hx | hx
    · exact (h.lt x hx).trans (Nat.lt_succ_self j)
    · rw [List.mem_singleton.mp hx]
      exact Nat.lt_succ_self j
  · intro a x hx i hi
    rcases hcases a x hx with hx | ⟨rfl, rfl⟩
    · rw [hold i x (hltj a x hx)]
      exact h.unit a x hx i hi
    · exact hnew i hi
  · intro a x hx y hy
    rcases hcases a x hx with hx | ⟨rfl, rfl⟩
    · rw [hold a y (hy.trans (hltj a x hx))]
      exact h.before a x hx y hy
    · rw [hold a y hy]
      exact h.rest a (by omega) hr y hy
  · intro i h1 h2 y hy
    rw [List.length_append, List.length_singleton] at h1
    by_cases hyj : y = j
    · rw [hyj, hnew i h2, if_neg (by omega)]
    · rw [hold i y (by omega)]
      exact h.rest i (by omega) h2 y (by omega)

section

variable [DecidableEq K]

/-- One column. -/
theorem pivotStep_spec {j : Nat} {piv : List Nat} (h : Echelon n j piv E) :
    ∃ piv', (pivotStep n j (piv.length, E)).1 = piv'.length ∧
      Echelon n (j + 1) piv' (pivotStep n j (piv.length, E)).2 ∧
      RowEquiv n c E (pivotStep n j (piv.length, E)).2 := by
  rw [pivotStep]
  split
  · rename_i hnone
    rw [List.find?_range_eq_none] at hnone
    refine ⟨piv, rfl, h.skip fun i h1 h2 => ?_, RowEquiv.refl n c E⟩
    have := hnone i h2
    simp only [Bool.not_eq_true', decide_eq_false_iff_not, not_and_or, not_not] at this
    exact this.resolve_left (by omega)
  · rename_i i hsome
    obtain ⟨hi, hin, hmin⟩ := List.find?_range_eq_some.mp hsome
    rw [decide_eq_true_eq] at hi
    obtain ⟨hri, hne⟩ := hi
    have hin : i < n := List.mem_range.mp hin
    have hr : piv.length < n := by omega
    by_cases hir : i = piv.length
    · simp only [if_pos hir]
      subst hir
      refine ⟨piv ++ [j], by simp, h.pivot hr hne, ?_⟩
      apply (RowEquiv.normalizeRow hne).trans
      exact RowEquiv.clearColumn hr (Nat.le_refl n)
    · simp only [if_neg hir]
      -- row `i` is the first with an entry, so the pivot row had none
      have hzero : E piv.length j = 0 := by
        have := hmin piv.length (by omega)
        simp only [Bool.not_eq_true', decide_eq_false_iff_not, not_and_or, not_not] at this
        exact this.resolve_left (by omega)
      have hadd : Echelon n j piv (addRowTo piv.length i E) := by
        have hsame : ∀ a y, y < j → a < n → addRowTo piv.length i E a y = E a y := by
          intro a y hy ha
          simp only [addRowTo]
          split
          · rw [h.rest i hri hin y hy]
            ring
          · rfl
        refine ⟨h.length_le, h.sorted, h.lt, fun a x hx b hb => ?_, fun a x hx y hy => ?_,
          fun b h1 h2 y hy => ?_⟩
        · rw [hsame b x (h.lt x (List.mem_of_getElem? hx)) hb]
          exact h.unit a x hx b hb
        · have ha : a < piv.length := (List.getElem?_eq_some_iff.mp hx).1
          rw [hsame a y (hy.trans (h.lt x (List.mem_of_getElem? hx))) (by omega)]
          exact h.before a x hx y hy
        · rw [hsame b y hy h2]
          exact h.rest b h1 h2 y hy
      have hrow : addRowTo piv.length i E piv.length j ≠ 0 := by
        simp only [addRowTo, if_true, hzero, zero_add, one_mul]
        exact hne
      refine ⟨piv ++ [j], by simp, hadd.pivot hr hrow, ?_⟩
      apply (RowEquiv.addRowTo hr hin (Ne.symm hir)).trans
      apply (RowEquiv.normalizeRow hrow).trans
      exact RowEquiv.clearColumn hr (Nat.le_refl n)

/-- The result is in reduced echelon form and has the rows' span. -/
theorem echelon_spec (n c : Nat) (E : Nat → Nat → K) :
    (∃ piv, Echelon n c piv (echelon n c E)) ∧ RowEquiv n c E (echelon n c E) := by
  have h := forUp_invariant (f := pivotStep n)
    (fun j (s : Nat × (Nat → Nat → K)) =>
      ∃ piv : List Nat, s.1 = piv.length ∧ Echelon n j piv s.2 ∧ RowEquiv n c E s.2)
    (Nat.zero_le c)
    (by
      rintro j ⟨r, F⟩ _ _ ⟨piv, rfl, hF, hrow⟩
      obtain ⟨piv', hlen, hF', hrow'⟩ := pivotStep_spec (c := c) hF
      exact ⟨piv', hlen, hF', hrow.trans hrow'⟩)
    (s := (0, E)) ⟨[], rfl, Echelon.zero n E, RowEquiv.refl n c E⟩
  obtain ⟨piv, -, hF, hrow⟩ := h
  exact ⟨⟨piv, hF⟩, hrow⟩

end

/-! ## The leading pivots -/

/-- A sorted list grows at least as fast as its index. -/
theorem add_le_of_sorted {l : List Nat} (h : l.Pairwise (· < ·)) {a b x y : Nat} (hab : a ≤ b)
    (hx : l[a]? = some x) (hy : l[b]? = some y) : x + (b - a) ≤ y := by
  induction b, hab using Nat.le_induction generalizing y with
  | base =>
      rw [hx] at hy
      obtain rfl := Option.some.inj hy
      omega
  | succ b hab ih =>
      obtain ⟨hb, hy'⟩ := List.getElem?_eq_some_iff.mp hy
      have hz : l[b]? = some l[b] := List.getElem?_eq_getElem (by omega)
      have hlt : l[b] < y := by
        rw [← hy']
        exact List.pairwise_iff_getElem.mp h b (b + 1) (by omega) hb (by omega)
      have := ih hz
      omega

/-- The diagonal starts with `r` unit columns, and row `r` and the rows after it
    are zero up to the diagonal. -/
structure Leading (n c r : Nat) (E : Nat → Nat → K) : Prop where
  le : r ≤ n
  unit : ∀ i j, i < n → j < r → E i j = if i = j then 1 else 0
  zero : ∀ i j, r ≤ i → i < n → j ≤ i → j < c → E i j = 0

theorem Echelon.exists_leading {piv : List Nat} (h : Echelon n c piv E) :
    ∃ r, Leading n c r E := by
  by_cases hall : ∀ a, a < piv.length → piv[a]? = some a
  · refine ⟨piv.length, h.length_le, fun i j hi hj => h.unit j j (hall j hj) i hi,
      fun i j h1 h2 _ hj => h.rest i h1 h2 j hj⟩
  · -- the first pivot off the diagonal
    have hex : ∃ a, a < piv.length ∧ piv[a]? ≠ some a := by
      simpa only [not_forall, exists_prop] using hall
    classical
    obtain ⟨hlen, hoff⟩ := Nat.find_spec hex
    have hmin : ∀ a, a < Nat.find hex → piv[a]? = some a := by
      intro a ha
      by_contra hne
      exact Nat.find_min hex ha ⟨by omega, hne⟩
    obtain ⟨r, hr⟩ : ∃ r, Nat.find hex = r := ⟨_, rfl⟩
    rw [hr] at hlen hoff hmin
    have hge : ∀ a x : Nat, piv[a]? = some x → a ≤ x := by
      intro a x hx
      have h0 : 0 < piv.length := Nat.lt_of_le_of_lt (Nat.zero_le a) (List.getElem?_eq_some_iff.mp hx).1
      have := add_le_of_sorted h.sorted (Nat.zero_le a) (List.getElem?_eq_getElem h0) hx
      omega
    have hpr : piv[r]? = some piv[r] := List.getElem?_eq_getElem hlen
    have hgt : r + 1 ≤ piv[r] := by
      have hle := hge r _ hpr
      have hne : piv[r] ≠ r := fun heq => hoff (by rw [hpr, heq])
      omega
    have hle := h.length_le
    refine ⟨r, by omega, fun i j hi hj => h.unit j j (hmin j hj) i hi, fun i j h1 h2 hji hj => ?_⟩
    by_cases hi : i < piv.length
    · have hpi : piv[i]? = some piv[i] := List.getElem?_eq_getElem hi
      have := add_le_of_sorted h.sorted h1 hpr hpi
      exact h.before i _ hpi j (by omega)
    · exact h.rest i (by omega) h2 j hj

/-- The trace counts the leading pivots. -/
theorem Leading.trace_eq {r : Nat} (h : Leading n c r E) (hnc : n ≤ c) :
    ∑ j ∈ Finset.range n, E j j = (r : K) := by
  have hone : ∀ j ∈ Finset.range r, E j j = 1 := by
    intro j hj
    have hj := Finset.mem_range.mp hj
    rw [h.unit j j (hj.trans_le h.le) hj, if_pos rfl]
  rw [← Finset.sum_subset (Finset.range_mono h.le), Finset.sum_congr rfl hone]
  · simp
  · intro j hj hjr
    have hj := Finset.mem_range.mp hj
    exact h.zero j j (by simpa using hjr) hj (Nat.le_refl j) (by omega)

/-- All diagonal entries are pivots exactly when the leading block of the
    matrix one started from is invertible. -/
theorem Leading.eq_iff {r : Nat} (h : Leading n c r E') (hnc : n ≤ c) (hE : RowEquiv n c E E') :
    r = n ↔ IsUnit (block n n E).det := by
  constructor
  · rintro rfl
    exact (hE.systematic hnc h.unit).1
  · intro hunit
    by_contra hne
    have hlt : r < n := Nat.lt_of_le_of_ne h.le hne
    have hdet := hE.singular hnc hlt fun i j h1 h2 h3 => h.zero i j h1 h2 (by omega) (by omega)
    rw [hdet] at hunit
    exact not_isUnit_zero hunit

/-- The test on the diagonal: the leading block becomes the identity, or it is singular. -/
theorem echelon_diag [DecidableEq K] (hnc : n ≤ c) (E : Nat → Nat → K) :
    (∀ i, i < n → echelon n c E i i = 1) ∧
        (∀ i j, i < n → j < n → echelon n c E i j = if i = j then 1 else 0) ∧
        (block n n E).det ≠ 0 ∨
      ¬ (∀ i, i < n → echelon n c E i i = 1) ∧ (block n n E).det = 0 := by
  obtain ⟨⟨piv, hpiv⟩, hequiv⟩ := echelon_spec n c E
  obtain ⟨r, hr⟩ := hpiv.exists_leading
  by_cases hfull : r = n
  · subst hfull
    refine Or.inl ⟨fun i hi => ?_, hr.unit, ((hr.eq_iff hnc hequiv).mp rfl).ne_zero⟩
    rw [hr.unit i i hi hi, if_pos rfl]
  · have hlt : r < n := Nat.lt_of_le_of_ne hr.le hfull
    refine Or.inr ⟨fun hdiag => ?_, by_contra fun h => ?_⟩
    · have hzero := hr.zero r r (Nat.le_refl r) hlt (Nat.le_refl r) (by omega)
      exact one_ne_zero ((hdiag r hlt).symm.trans hzero)
    · exact hfull ((hr.eq_iff hnc hequiv).mpr (isUnit_iff_ne_zero.mpr h))

/-- A matrix whose first `ρ` columns hold unit vectors, in some of its rows, and
    whose next column is zero has `ρ` leading pivots. -/
theorem Leading.eq_of_columns {r ρ : Nat} (h : Leading n c r E') (hE : RowEquiv n c E E')
    (hn : ρ < n) (hc : ρ < c) (hzero : ∀ i, i < n → E i ρ = 0)
    (hunit : ∀ j, j < ρ → ∃ i, i < n ∧ ∀ x, x < ρ → E i x = if x = j then 1 else 0) : r = ρ := by
  apply Nat.le_antisymm
  · -- row operations keep the zero column, so it is no unit column
    by_contra hlt
    obtain ⟨U, -, hU⟩ := hE
    have hentry := congrFun (congrFun hU ⟨ρ, hn⟩) ⟨ρ, hc⟩
    rw [block_apply, h.unit ρ ρ hn (by omega), if_pos rfl, Matrix.mul_apply,
      Finset.sum_eq_zero fun x _ => by rw [block_apply, hzero x x.isLt, mul_zero]] at hentry
    exact one_ne_zero hentry
  · -- a row of `E` is a combination of the pivot rows, with its own entries as coefficients
    by_contra hlt
    obtain ⟨i, hi, hrow⟩ := hunit r (by omega)
    obtain ⟨V, -, hV⟩ := hE.symm
    have hentry : ∀ x (hx : x < c), E i x = ∑ a : Fin n, V ⟨i, hi⟩ a * E' a x := by
      intro x hx
      have := congrFun (congrFun hV ⟨i, hi⟩) ⟨x, hx⟩
      rwa [Matrix.mul_apply] at this
    have hcoef : ∀ a : Fin n, a.val < r → V ⟨i, hi⟩ a = 0 := by
      intro a ha
      have := hentry a (by omega)
      rw [hrow a (by omega), if_neg (by omega), Finset.sum_eq_single a] at this
      · rw [this, h.unit a a a.isLt ha, if_pos rfl, mul_one]
      · intro b _ hb
        rw [h.unit b a b.isLt ha, if_neg (Fin.val_ne_of_ne hb), mul_zero]
      · exact fun hne => absurd (Finset.mem_univ a) hne
    have hone := hentry r (by omega)
    rw [hrow r (by omega), if_pos rfl, Finset.sum_eq_zero] at hone
    · exact one_ne_zero hone
    · intro a _
      by_cases ha : a.val < r
      · rw [hcoef a ha, zero_mul]
      · rw [h.zero a r (by omega) a.isLt (by omega) (by omega), mul_zero]

end Meds.Core
