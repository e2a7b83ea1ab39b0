/-
  Meds.Core.Table

  Loops that fill an array: what stands where afterwards.

  `fill_spec _ _` is a single loop that writes cell `ι c` in round `c`, from a
  value that may depend on the cells not written yet; `fill2_spec _ _ _ _` is a pair
  of nested loops whose values do not depend on the array.
-/

import Meds.Core.Arr
import Meds.Core.Loop

namespace Meds.Core

variable {α : Type} [Inhabited α]

/-- One loop, writing cell `ι c` in round `c`. -/
theorem fill_spec (lo hi : Nat) {ι : Nat → Nat} {g : Arr α → Nat → α} {M : Arr α}
    (hι : ∀ a b, lo ≤ a → a < hi → lo ≤ b → b < hi → ι a = ι b → a = b)
    (hg : ∀ c M', lo ≤ c → c < hi →
      (∀ idx, (∀ b, lo ≤ b → b < c → ι b ≠ idx) → M'.get idx = M.get idx) → g M' c = g M c) :
    (∀ c, lo ≤ c → c < hi →
      (forUp lo hi (fun c M => M.set (ι c) (g M c)) M).get (ι c) = g M c) ∧
    ∀ idx, (∀ c, lo ≤ c → c < hi → ι c ≠ idx) →
      (forUp lo hi (fun c M => M.set (ι c) (g M c)) M).get idx = M.get idx := by
  by_cases hle : lo ≤ hi
  case neg =>
    rw [forUp_of_le (by omega)]
    exact ⟨fun c h1 h2 => absurd h1 (by omega), fun _ _ => rfl⟩
  refine forUp_invariant (fun i (M' : Arr α) => (∀ c, lo ≤ c → c < i → M'.get (ι c) = g M c) ∧
      ∀ idx, (∀ c, lo ≤ c → c < i → ι c ≠ idx) → M'.get idx = M.get idx) hle ?_
    ⟨fun c h1 h2 => absurd h1 (by omega), fun _ _ => rfl⟩
  rintro i M' h1 h2 ⟨hin, hout⟩
  rw [hg i M' h1 h2 hout]
  constructor
  · intro c hc1 hc2
    by_cases hci : c = i
    · subst hci
      exact Arr.get_set_self _ _ _
    · rw [Arr.get_set_ne _ _ fun h => hci (hι c i hc1 (by omega) h1 h2 h)]
      exact hin c hc1 (by omega)
  · intro idx hidx
    rw [Arr.get_set_ne _ _ fun h => hidx i h1 (by omega) h.symm]
    exact hout idx fun c hc1 hc2 => hidx c hc1 (by omega)

/-- Nested loops, writing cell `ι a b` in round `(a, b)`. -/
theorem fill2_spec (lo1 hi1 lo2 hi2 : Nat) {ι : Nat → Nat → Nat} {g : Nat → Nat → α} {M : Arr α}
    (hι : ∀ a b a' b', lo1 ≤ a → a < hi1 → lo2 ≤ b → b < hi2 → lo1 ≤ a' → a' < hi1 → lo2 ≤ b' →
      b' < hi2 → ι a b = ι a' b' → a = a' ∧ b = b') :
    (∀ a b, lo1 ≤ a → a < hi1 → lo2 ≤ b → b < hi2 →
      (forUp lo1 hi1 (fun a M => forUp lo2 hi2 (fun b M => M.set (ι a b) (g a b)) M) M).get (ι a b)
        = g a b) ∧
    ∀ idx, (∀ a b, lo1 ≤ a → a < hi1 → lo2 ≤ b → b < hi2 → ι a b ≠ idx) →
      (forUp lo1 hi1 (fun a M => forUp lo2 hi2 (fun b M => M.set (ι a b) (g a b)) M) M).get idx
        = M.get idx := by
  by_cases hle : lo1 ≤ hi1
  case neg =>
    rw [forUp_of_le (by omega)]
    exact ⟨fun a b h1 h2 => absurd h1 (by omega), fun _ _ => rfl⟩
  -- the rows written so far hold their cells; nothing else has changed
  refine forUp_invariant (fun i (M' : Arr α) =>
      (∀ a b, lo1 ≤ a → a < i → lo2 ≤ b → b < hi2 → M'.get (ι a b) = g a b) ∧
      ∀ idx, (∀ a b, lo1 ≤ a → a < i → lo2 ≤ b → b < hi2 → ι a b ≠ idx) →
        M'.get idx = M.get idx) hle ?_
    ⟨fun a b h1 h2 => absurd h1 (by omega), fun _ _ => rfl⟩
  rintro i M' h1 h2 ⟨hin, hout⟩
  obtain ⟨hrow, hrest⟩ := fill_spec lo2 hi2 (ι := ι i) (g := fun _ b => g i b)
    (M := M') (fun b b' hb1 hb2 hb1' hb2' h => (hι i b i b' h1 h2 hb1 hb2 h1 h2 hb1' hb2' h).2)
    (fun _ _ _ _ _ => rfl)
  constructor
  · intro a b ha1 ha2 hb1 hb2
    -- row i was just written; no cell of it lies in an earlier row
    by_cases hai : a = i
    · subst hai
      exact hrow b hb1 hb2
    · rw [hrest _ fun b' hb1' hb2' h =>
        hai (hι i b' a b h1 h2 hb1' hb2' ha1 (by omega) hb1 hb2 h).1.symm]
      exact hin a b ha1 (by omega) hb1 hb2
  · intro idx hidx
    rw [hrest idx fun b hb1 hb2 => hidx i b h1 (by omega) hb1 hb2]
    exact hout idx fun a b ha1 ha2 => hidx a b ha1 (by omega)

/-- Row-major positions are distinct. -/
theorem flat_inj {C i j i' j' : Nat} (hj : j < C) (hj' : j' < C) (h : C * i + j = C * i' + j') :
    i = i' ∧ j = j' := by
  have hpos : 0 < C := by omega
  have h1 := congrArg (· / C) h
  have h2 := congrArg (· % C) h
  simp only [Nat.mul_add_div hpos, Nat.div_eq_of_lt hj, Nat.div_eq_of_lt hj', Nat.mul_add_mod,
    Nat.mod_eq_of_lt hj, Nat.mod_eq_of_lt hj', Nat.add_zero] at h1 h2
  exact ⟨h1, h2⟩

/-- A row-major position of an `R × C` matrix lies inside it. -/
theorem flat_lt {R C i j : Nat} (hi : i < R) (hj : j < C) : C * i + j < C * R := by
  have := Nat.mul_le_mul_left C hi
  rw [Nat.mul_succ] at this
  omega

/-- Every position of an `R × C` matrix is row-major. -/
theorem exists_flat_nat {R C idx : Nat} (h : idx < C * R) :
    ∃ i j, i < R ∧ j < C ∧ C * i + j = idx := by
  have hC : 0 < C := Nat.pos_of_ne_zero (by rintro rfl; simp at h)
  exact ⟨idx / C, idx % C, (Nat.div_lt_iff_lt_mul hC).mpr (by rwa [Nat.mul_comm]),
    Nat.mod_lt _ hC, Nat.div_add_mod idx C⟩

end Meds.Core
