/-
  Meds.Core.TreeCover

  Covering the leaves of a binary tree by maximal subtrees.

  A node of height `d` and index `i` stands over the leaves `j` with
  `j / 2 ^ d = i`.  Given a list `ex` of excluded leaves and a leaf count
  `t` (the tree may be cut off on the right), `cover t ex d h i` lists from
  left to right the maximal subtrees below node `(h, i)` that start before
  leaf `t` and contain no excluded leaf.  Its length is bounded level by
  level: every listed node hangs below a node over an excluded leaf, and
  level `l` has at most `min (2 ^ l) e` of those.
-/

import Mathlib.Data.Nat.Log
import Mathlib.Data.List.Count
import Mathlib.Algebra.Order.BigOperators.Group.Finset
import Mathlib.Algebra.BigOperators.Intervals
import Mathlib.Tactic.Ring

namespace Meds.Core

/-- Some excluded leaf lies below the node of height `d` and index `i`. -/
def Hits (ex : List Nat) (d i : Nat) : Prop := ∃ j ∈ ex, j / 2 ^ d = i

instance (ex : List Nat) (d i : Nat) : Decidable (Hits ex d i) :=
  inferInstanceAs (Decidable (∃ j ∈ ex, j / 2 ^ d = i))

/-- The maximal subtrees below node `(h, i)` of height `d`, left to right. -/
def cover (t : Nat) (ex : List Nat) : Nat → Nat → Nat → List (Nat × Nat)
  | 0, h, i => if i * 2 ^ 0 ≥ t ∨ Hits ex 0 i then [] else [(h, i)]
  | d + 1, h, i =>
    if i * 2 ^ (d + 1) ≥ t then []
    else if Hits ex (d + 1) i then
      cover t ex d (h + 1) (2 * i) ++ cover t ex d (h + 1) (2 * i + 1)
    else [(h, i)]

/-! ## Nodes and their children -/

theorem div_two_pow_succ (j d : Nat) : j / 2 ^ (d + 1) = j / 2 ^ d / 2 := by
  rw [Nat.pow_succ, Nat.div_div_eq_div_mul]

/-- A leaf below a node is below exactly one of its children. -/
theorem below_succ_iff (j d i : Nat) :
    j / 2 ^ (d + 1) = i ↔ j / 2 ^ d = 2 * i ∨ j / 2 ^ d = 2 * i + 1 := by
  rw [div_two_pow_succ]
  omega

/-! ## What the cover contains -/

theorem cover_of_ge {t : Nat} {ex : List Nat} {d h i : Nat} (hi : i * 2 ^ d ≥ t) :
    cover t ex d h i = [] := by
  cases d with
  | zero => rw [cover, if_pos (Or.inl hi)]
  | succ d => rw [cover, if_pos hi]

theorem cover_of_not_hits {t : Nat} {ex : List Nat} {d h i : Nat} (hi : i * 2 ^ d < t)
    (hn : ¬ Hits ex d i) : cover t ex d h i = [(h, i)] := by
  cases d with
  | zero => rw [cover, if_neg (fun h => h.elim (fun h => by omega) hn)]
  | succ d => rw [cover, if_neg (by omega), if_neg hn]

theorem cover_leaf_of_hits {t : Nat} {ex : List Nat} {h i : Nat} (hh : Hits ex 0 i) :
    cover t ex 0 h i = [] := by
  rw [cover, if_pos (Or.inr hh)]

theorem cover_succ_of_hits {t : Nat} {ex : List Nat} {d h i : Nat} (hh : Hits ex (d + 1) i) :
    cover t ex (d + 1) h i
      = cover t ex d (h + 1) (2 * i) ++ cover t ex d (h + 1) (2 * i + 1) := by
  by_cases hi : i * 2 ^ (d + 1) ≥ t
  · have h0 : 2 * i * 2 ^ d ≥ t := by
      rw [Nat.pow_succ] at hi
      calc t ≤ i * (2 ^ d * 2) := hi
        _ = 2 * i * 2 ^ d := by ring
    have h1 : (2 * i + 1) * 2 ^ d ≥ t := by
      rw [Nat.add_mul]
      omega
    rw [cover_of_ge hi, cover_of_ge h0, cover_of_ge h1]
    rfl
  · rw [cover, if_neg hi, if_pos hh]

/-- The node `(h', i')`, of height `d'`, is a maximal subtree below `(h, i)`:
    it starts before leaf `t`, contains no excluded leaf, and every proper
    ancestor of it up to `(h, i)` contains one. -/
structure MaximalFree (t : Nat) (ex : List Nat) (d h i d' h' i' : Nat) : Prop where
  depth : h' + d' = h + d
  height_le : d' ≤ d
  below : i' / 2 ^ (d - d') = i
  starts : i' * 2 ^ d' < t
  free : ¬ Hits ex d' i'
  ancestors : ∀ g, 0 < g → d' + g ≤ d → Hits ex (d' + g) (i' / 2 ^ g)

theorem MaximalFree.of_not_hits {t : Nat} {ex : List Nat} {d h i d' h' i' : Nat}
    (hm : MaximalFree t ex d h i d' h' i') (hn : ¬ Hits ex d i) : h' = h ∧ i' = i := by
  have hd : d' = d := by
    by_contra hne
    have hle := hm.height_le
    have hanc := hm.ancestors (d - d') (by omega) (by omega)
    rw [hm.below, show d' + (d - d') = d by omega] at hanc
    exact hn hanc
  have hdepth := hm.depth
  have hbelow := hm.below
  subst hd
  rw [Nat.sub_self, Nat.pow_zero, Nat.div_one] at hbelow
  omega

/-- Below a node over an excluded leaf, the maximal subtrees are those of its children. -/
theorem maximalFree_succ_iff {t : Nat} {ex : List Nat} {d h i d' h' i' : Nat}
    (hh : Hits ex (d + 1) i) :
    MaximalFree t ex (d + 1) h i d' h' i' ↔
      MaximalFree t ex d (h + 1) (2 * i) d' h' i' ∨
        MaximalFree t ex d (h + 1) (2 * i + 1) d' h' i' := by
  constructor
  · intro hm
    -- the node itself is not free, so the subtree lies below one of its children
    have hd : d' ≤ d := by
      by_contra hgt
      have hle := hm.height_le
      have hbelow := hm.below
      have hfree := hm.free
      rw [show d' = d + 1 by omega] at hbelow hfree
      rw [Nat.sub_self, Nat.pow_zero, Nat.div_one] at hbelow
      exact hfree (hbelow ▸ hh)
    have hbelow := hm.below
    rw [show d + 1 - d' = (d - d') + 1 by omega, div_two_pow_succ] at hbelow
    have hdepth := hm.depth
    have hchild : i' / 2 ^ (d - d') = 2 * i ∨ i' / 2 ^ (d - d') = 2 * i + 1 := by omega
    rcases hchild with hc | hc
    · exact Or.inl ⟨by omega, hd, hc, hm.starts, hm.free,
        fun g h0 h1 => hm.ancestors g h0 (by omega)⟩
    · exact Or.inr ⟨by omega, hd, hc, hm.starts, hm.free,
        fun g h0 h1 => hm.ancestors g h0 (by omega)⟩
  · -- one ancestor more than for the child, and it is not free
    have hlift : ∀ i1, i1 / 2 = i → MaximalFree t ex d (h + 1) i1 d' h' i' →
        MaximalFree t ex (d + 1) h i d' h' i' := by
      intro i1 hi1 hm
      have hd := hm.height_le
      have hdepth := hm.depth
      have hbelow : i' / 2 ^ (d + 1 - d') = i := by
        rw [show d + 1 - d' = (d - d') + 1 by omega, div_two_pow_succ, hm.below, hi1]
      refine ⟨by omega, by omega, hbelow, hm.starts, hm.free, ?_⟩
      intro g h0 h1
      by_cases hg : d' + g ≤ d
      · exact hm.ancestors g h0 hg
      · rw [show d' + g = d + 1 by omega, show g = d + 1 - d' by omega, hbelow]
        exact hh
    rintro (hm | hm)
    · exact hlift (2 * i) (by omega) hm
    · exact hlift (2 * i + 1) (by omega) hm

/-- Membership in the cover. -/
theorem mem_cover_iff {t : Nat} {ex : List Nat} {d h i h' i' : Nat} :
    (h', i') ∈ cover t ex d h i ↔ ∃ d', MaximalFree t ex d h i d' h' i' := by
  induction d generalizing h i with
  -- a leaf is its own cover, unless it is excluded or beyond t
  | zero =>
      by_cases hi : i * 2 ^ 0 ≥ t ∨ Hits ex 0 i
      · rw [cover, if_pos hi]
        simp only [List.not_mem_nil, false_iff, not_exists]
        intro d' hm
        have hd : d' = 0 := by
          have := hm.height_le
          omega
        have hbelow := hm.below
        subst hd
        rw [Nat.sub_self, Nat.pow_zero, Nat.div_one] at hbelow
        subst hbelow
        rcases hi with hge | hh
        · exact absurd hm.starts (by omega)
        · exact hm.free hh
      · rw [cover, if_neg hi]
        simp only [List.mem_singleton, Prod.mk.injEq]
        constructor
        · rintro ⟨rfl, rfl⟩
          exact ⟨0, rfl, Nat.le_refl _, by simp, by omega, fun h => hi (Or.inr h),
            fun g h0 h1 => absurd h1 (by omega)⟩
        · rintro ⟨d', hm⟩
          exact hm.of_not_hits fun h => hi (Or.inr h)
  | succ d ih =>
      -- over an excluded leaf both halves are covered; else the node alone, if it starts below t
      by_cases hh : Hits ex (d + 1) i
      · rw [cover_succ_of_hits hh, List.mem_append, ih, ih, ← exists_or]
        simp only [maximalFree_succ_iff hh]
      · by_cases hi : i * 2 ^ (d + 1) ≥ t
        · rw [cover_of_ge hi]
          simp only [List.not_mem_nil, false_iff, not_exists]
          intro d' hm
          obtain ⟨rfl, rfl⟩ := hm.of_not_hits hh
          have hdepth := hm.depth
          rw [show d' = d + 1 by omega] at hm
          exact absurd hm.starts (by omega)
        · rw [cover_of_not_hits (by omega) hh]
          simp only [List.mem_singleton, Prod.mk.injEq]
          constructor
          · rintro ⟨rfl, rfl⟩
            exact ⟨d + 1, rfl, Nat.le_refl _, by simp, by omega, hh,
              fun g h0 h1 => absurd h1 (by omega)⟩
          · rintro ⟨d', hm⟩
            exact hm.of_not_hits hh

/-- Every leaf that is not excluded is below a node of the cover. -/
theorem exists_maximalFree {t : Nat} {ex : List Nat} {d h i j : Nat} (hj : j / 2 ^ d = i)
    (hlt : j < t) (hn : j ∉ ex) :
    ∃ d' h' i', MaximalFree t ex d h i d' h' i' ∧ j / 2 ^ d' = i' := by
  induction d generalizing h i with
  | zero =>
      rw [Nat.pow_zero, Nat.div_one] at hj
      subst hj
      refine ⟨0, h, j, ⟨rfl, Nat.le_refl _, by simp, by omega, ?_, fun g h0 h1 => by omega⟩, by simp⟩
      rintro ⟨j', hj', heq⟩
      rw [Nat.pow_zero, Nat.div_one] at heq
      exact hn (heq ▸ hj')
  | succ d ih =>
      by_cases hh : Hits ex (d + 1) i
      · simp only [maximalFree_succ_iff hh]
        rcases (below_succ_iff j d i).mp hj with hc | hc
        · obtain ⟨d', h', i', hm, hb⟩ := ih (h := h + 1) hc
          exact ⟨d', h', i', Or.inl hm, hb⟩
        · obtain ⟨d', h', i', hm, hb⟩ := ih (h := h + 1) hc
          exact ⟨d', h', i', Or.inr hm, hb⟩
      · refine ⟨d + 1, h, i, ⟨rfl, Nat.le_refl _, by simp, ?_, hh, fun g h0 h1 => by omega⟩, hj⟩
        have := Nat.div_mul_le_self j (2 ^ (d + 1))
        rw [hj] at this
        omega

/-! ## Order -/

/-- Every node of the cover of `(h, i)` stands over leaves of `(h, i)`. -/
theorem MaximalFree.bounds {t : Nat} {ex : List Nat} {d h i d' h' i' : Nat}
    (hm : MaximalFree t ex d h i d' h' i') :
    i * 2 ^ d ≤ i' * 2 ^ d' ∧ (i' + 1) * 2 ^ d' ≤ (i + 1) * 2 ^ d := by
  have hpow : 2 ^ d = 2 ^ (d - d') * 2 ^ d' := by
    rw [← Nat.pow_add]
    congr 1
    have := hm.height_le
    omega
  have hbelow := hm.below
  have hlow : i * 2 ^ (d - d') ≤ i' := by
    rw [← hbelow]
    exact Nat.div_mul_le_self _ _
  have hhigh : i' + 1 ≤ (i + 1) * 2 ^ (d - d') := by
    rw [← hbelow]
    have := Nat.lt_div_mul_add (a := i') (Nat.two_pow_pos (d - d'))
    rw [Nat.add_mul, Nat.one_mul]
    omega
  rw [hpow, ← Nat.mul_assoc, ← Nat.mul_assoc]
  exact ⟨Nat.mul_le_mul_right _ hlow, Nat.mul_le_mul_right _ hhigh⟩

/-- Node `a` ends before node `b` starts; `H` is the height of the tree. -/
def EndsBefore (H : Nat) (a b : Nat × Nat) : Prop :=
  (a.2 + 1) * 2 ^ (H - a.1) ≤ b.2 * 2 ^ (H - b.1)

/-- The cover lists its nodes from left to right. -/
theorem pairwise_cover (t : Nat) (ex : List Nat) (H : Nat) {d h i : Nat} (hd : h + d = H) :
    (cover t ex d h i).Pairwise (EndsBefore H) := by
  induction d generalizing h i with
  | zero =>
      rw [cover]
      split <;> simp
  | succ d ih =>
      by_cases hh : Hits ex (d + 1) i
      · rw [cover_succ_of_hits hh, List.pairwise_append]
        refine ⟨ih (by omega), ih (by omega), ?_⟩
        rintro ⟨ha, ia⟩ hamem ⟨hb, ib⟩ hbmem
        obtain ⟨da, hma⟩ := mem_cover_iff.mp hamem
        obtain ⟨db, hmb⟩ := mem_cover_iff.mp hbmem
        have h1 := hma.bounds.2
        have h2 := hmb.bounds.1
        have hda := hma.depth
        have hdb := hmb.depth
        unfold EndsBefore
        rw [show H - ha = da by omega, show H - hb = db by omega]
        exact Nat.le_trans h1 h2
      · by_cases hi : i * 2 ^ (d + 1) ≥ t
        · rw [cover_of_ge hi]
          exact List.Pairwise.nil
        · rw [cover_of_not_hits (by omega) hh]
          simp

/-! ## Size -/

/-- Excluded leaves below a node. -/
def hitCount (ex : List Nat) (d i : Nat) : Nat := ex.countP fun j => j / 2 ^ d = i

theorem hitCount_eq_zero {ex : List Nat} {d i : Nat} (h : ¬ Hits ex d i) : hitCount ex d i = 0 := by
  unfold hitCount
  rw [List.countP_eq_zero]
  intro j hj hd
  exact h ⟨j, hj, by simpa using hd⟩

theorem hitCount_pos {ex : List Nat} {d i : Nat} (h : Hits ex d i) : 0 < hitCount ex d i := by
  obtain ⟨j, hj, hd⟩ := h
  exact List.countP_pos_iff.mpr ⟨j, hj, by simpa using hd⟩

theorem hitCount_succ (ex : List Nat) (d i : Nat) :
    hitCount ex (d + 1) i = hitCount ex d (2 * i) + hitCount ex d (2 * i + 1) := by
  unfold hitCount
  induction ex with
  | nil => rfl
  | cons j ex ih =>
      rw [List.countP_cons, List.countP_cons, List.countP_cons, ih]
      simp only [decide_eq_true_eq, below_succ_iff]
      by_cases h0 : j / 2 ^ d = 2 * i
      · rw [if_pos (Or.inl h0), if_pos h0, if_neg (by omega)]
        omega
      · by_cases h1 : j / 2 ^ d = 2 * i + 1
        · rw [if_pos (Or.inr h1), if_neg h0, if_pos h1]
          omega
        · rw [if_neg (fun h => h.elim h0 h1), if_neg h0, if_neg h1]
          simp only [Nat.add_zero]

/-- At most this many nodes of height above the leaves stand over one of `e`
    leaves in a tree of height `d`. -/
def spine (d e : Nat) : Nat := ∑ l ∈ Finset.range d, min (2 ^ l) e

theorem spine_succ (d e a b : Nat) (he : e = a + b) (hpos : 0 < e) :
    1 + spine d a + spine d b ≤ spine (d + 1) e := by
  have hlevel : ∀ l ∈ Finset.range d, min (2 ^ l) a + min (2 ^ l) b ≤ min (2 ^ (l + 1)) e := by
    intro l _
    rw [Nat.pow_succ]
    omega
  have hsum : spine d a + spine d b ≤ ∑ l ∈ Finset.range d, min (2 ^ (l + 1)) e := by
    unfold spine
    rw [← Finset.sum_add_distrib]
    exact Finset.sum_le_sum hlevel
  unfold spine at hsum ⊢
  rw [Finset.sum_range_succ' _ d, Nat.pow_zero, Nat.min_eq_left hpos]
  omega

/-- The cover is no longer than the number of inner nodes over an excluded
    leaf, less one for each such leaf but the first. -/
theorem length_cover_add_le (t : Nat) (ex : List Nat) (hnd : ex.Nodup) (d h i : Nat) :
    (cover t ex d h i).length + hitCount ex d i ≤ spine d (hitCount ex d i) + 1 := by
  induction d generalizing h i with
  | zero =>
      by_cases hh : Hits ex 0 i
      · have hone : hitCount ex 0 i ≤ 1 := by
          have := List.nodup_iff_count_le_one.mp hnd i
          simp only [hitCount, Nat.pow_zero, Nat.div_one]
          exact this
        rw [cover_leaf_of_hits hh]
        simp only [List.length_nil]
        omega
      · rw [hitCount_eq_zero hh, cover]
        split <;> simp [spine]
  | succ d ih =>
      by_cases hh : Hits ex (d + 1) i
      · have hl := ih (h + 1) (2 * i)
        have hr := ih (h + 1) (2 * i + 1)
        have hs := spine_succ d _ _ _ (hitCount_succ ex d i) (hitCount_pos hh)
        rw [cover_succ_of_hits hh, List.length_append]
        rw [hitCount_succ] at hs ⊢
        omega
      · rw [hitCount_eq_zero hh]
        by_cases hi : i * 2 ^ (d + 1) ≥ t
        · rw [cover_of_ge hi]
          simp
        · rw [cover_of_not_hits (by omega) hh]
          simp

/-- The closed form of `spine`: full levels up to `⌈log₂ e⌉`, then `e` per level. -/
theorem spine_eq {d e : Nat} (hd : Nat.clog 2 e ≤ d) :
    spine d e + 1 = 2 ^ Nat.clog 2 e + e * (d - Nat.clog 2 e) := by
  induction d, hd using Nat.le_induction with
  | base =>
      have hfull : ∀ l ∈ Finset.range (Nat.clog 2 e), min (2 ^ l) e = 2 ^ l := by
        intro l hl
        exact Nat.min_eq_left (Nat.le_of_lt ((Nat.lt_clog_iff_pow_lt (by decide)).mp
          (Finset.mem_range.mp hl)))
      have hgeom : ∀ c, (∑ l ∈ Finset.range c, 2 ^ l) + 1 = 2 ^ c := by
        intro c
        induction c with
        | zero => rfl
        | succ c ih =>
            rw [Finset.sum_range_succ, Nat.pow_succ]
            omega
      rw [spine, Finset.sum_congr rfl hfull, hgeom, Nat.sub_self, Nat.mul_zero, Nat.add_zero]
  | succ d hd ih =>
      have hmin : min (2 ^ d) e = e := Nat.min_eq_right
        (Nat.le_trans (Nat.le_pow_clog (by decide) e) (Nat.pow_le_pow_right (by decide) hd))
      unfold spine at ih ⊢
      rw [Finset.sum_range_succ, hmin, show d + 1 - Nat.clog 2 e = (d - Nat.clog 2 e) + 1 by omega,
        Nat.mul_succ]
      omega

end Meds.Core
