/-
  Meds.Ref.SeedPath

  What `t_hash` leaves in the tree, and that the path of a challenge carries
  exactly the seeds from which the unchallenged leaves regrow.

  `t_hash` at a node derives the seed of every node below it from the seed
  of the parent and the node's address alone (`subtreeSeed`).  So regrowing
  a subtree from an inner node gives what growing it from the root gave,
  whatever the tree held before and however it is cut off on the right.
-/

import Meds.Ref.SeedWalk
import Mathlib.Tactic.Linarith
import Mathlib.Tactic.Zify

namespace Meds.Ref

open Meds.Core

/-! ## Addresses -/

theorem seedTreeAddr_eq (h i : Nat) : seedTreeAddr h i = 2 ^ h - 1 + i := by
  rw [seedTreeAddr, Nat.shiftLeft_eq, Nat.one_mul]

/-- Nodes of different levels are stored apart. -/
theorem seedTreeAddr_lt {h h' i i' : Nat} (hh : h < h') (hi : i < 2 ^ h) :
    seedTreeAddr h i < seedTreeAddr h' i' := by
  rw [seedTreeAddr_eq, seedTreeAddr_eq]
  have h1 : 2 ^ (h + 1) ≤ 2 ^ h' := Nat.pow_le_pow_right (by decide) hh
  rw [Nat.pow_succ] at h1
  omega

theorem seedTreeAddr_inj {h h' i i' : Nat} (hi : i < 2 ^ h) (hi' : i' < 2 ^ h')
    (heq : seedTreeAddr h i = seedTreeAddr h' i') : h = h' ∧ i = i' := by
  rcases Nat.lt_trichotomy h h' with hlt | rfl | hlt
  · exact absurd heq (Nat.ne_of_lt (seedTreeAddr_lt hlt hi))
  · rw [seedTreeAddr_eq, seedTreeAddr_eq] at heq
    omega
  · exact absurd heq.symm (Nat.ne_of_lt (seedTreeAddr_lt hlt hi'))

section

variable (P : Params) (SHAKE256 : Shake)

/-! ## Writing seeds -/

/-- A block of `c` seeds copied to address `a`. -/
theorem seedAt_blit (stree : Arr UInt8) (a c : Nat) (bytes : List UInt8)
    (hlen : bytes.length = P.stSeedBytes * c) (h i : Nat) :
    seedAt P (stree.blit (P.stSeedBytes * a) bytes) h i =
      if a ≤ seedTreeAddr h i ∧ seedTreeAddr h i < a + c then
        (bytes.drop (P.stSeedBytes * (seedTreeAddr h i - a))).take P.stSeedBytes
      else seedAt P stree h i := by
  unfold seedAt
  by_cases hin : a ≤ seedTreeAddr h i ∧ seedTreeAddr h i < a + c
  · rw [if_pos hin]
    -- the b-th seed of the block
    obtain ⟨b, hb⟩ : ∃ b, seedTreeAddr h i = a + b := ⟨seedTreeAddr h i - a, by omega⟩
    have hroom : P.stSeedBytes * b + P.stSeedBytes ≤ P.stSeedBytes * c := by
      rw [← Nat.mul_succ]
      exact Nat.mul_le_mul_left _ (by omega)
    rw [hb, Nat.add_sub_cancel_left, Nat.mul_add]
    apply List.ext_getElem
    · simp only [Arr.length_slice, List.length_take, List.length_drop]
      omega
    · intro x h1 h2
      rw [Arr.length_slice] at h1
      rw [Arr.getElem_slice, Arr.get_blit, if_pos (by omega), List.getElem_take, List.getElem_drop,
        List.getD_eq_getElem _ _ (by omega)]
      congr 1
      omega
  · rw [if_neg hin]
    apply Arr.slice_blit_of_disjoint
    rw [hlen, ← Nat.mul_add]
    -- the seed ends before the block or starts behind it
    have hcase : seedTreeAddr h i + 1 ≤ a ∨ a + c ≤ seedTreeAddr h i := by omega
    rcases hcase with hlt | hge
    · refine Or.inl ?_
      rw [← Nat.mul_succ]
      exact Nat.mul_le_mul_left _ hlt
    · exact Or.inr (Nat.mul_le_mul_left _ hge)

/-- One seed copied to a node. -/
theorem seedAt_blit_node (stree : Arr UInt8) {h i h' i' : Nat} (hi : i < 2 ^ h) (hi' : i' < 2 ^ h')
    (seed : List UInt8) (hlen : seed.length = P.stSeedBytes) :
    seedAt P (stree.blit (P.stSeedBytes * seedTreeAddr h i) seed) h' i' =
      if h' = h ∧ i' = i then seed else seedAt P stree h' i' := by
  rw [seedAt_blit P stree _ 1 seed (by rw [hlen, Nat.mul_one])]
  by_cases heq : h' = h ∧ i' = i
  · obtain ⟨rfl, rfl⟩ := heq
    rw [if_pos (by omega), if_pos ⟨rfl, rfl⟩, Nat.sub_self, Nat.mul_zero, List.drop_zero,
      List.take_of_length_le (by omega)]
  · rw [if_neg (fun h => heq (seedTreeAddr_inj hi' hi (by omega))), if_neg heq]

/-! ## What `t_hash` derives -/

/-- The seed of node `(h, i)` derived from the seed of its parent. -/
def childSeed (salt : List UInt8) (h i : Nat) (seed : List UInt8) : List UInt8 :=
  streamSlice (SHAKE256 (salt ++ seed ++ addrBytes (seedTreeAddr (h - 1) (i / 2))))
    (P.stSeedBytes * (i % 2)) P.stSeedBytes

/-- The seed of the node of index `i`, `d` levels below a node of level `h`. -/
def subtreeSeed (salt : List UInt8) (h : Nat) (seed : List UInt8) : Nat → Nat → List UInt8
  | 0, _ => seed
  | d + 1, i => childSeed P SHAKE256 salt (h + d + 1) i (subtreeSeed salt h seed d (i / 2))

/-- Regrowing from an inner node continues what was grown above it. -/
theorem subtreeSeed_add (salt : List UInt8) (h : Nat) (seed : List UInt8) (a d i : Nat) :
    subtreeSeed P SHAKE256 salt h seed (a + d) i
      = subtreeSeed P SHAKE256 salt (h + a)
          (subtreeSeed P SHAKE256 salt h seed a (i / 2 ^ d)) d i := by
  induction d generalizing i with
  | zero => simp [subtreeSeed]
  | succ d ih =>
      rw [← Nat.add_assoc, subtreeSeed, subtreeSeed, ih, Nat.div_div_eq_div_mul, ← Nat.pow_succ',
        Nat.add_assoc h a d]

/-- Expanding one node. -/
theorem seedAt_tHashNode (salt : List UInt8) (stree : Arr UInt8) {h i h' i' : Nat} (hh : 0 < h)
    (heven : i % 2 = 0) (hi : i < 2 ^ h) (hi' : i' < 2 ^ h') :
    seedAt P (tHashNode P SHAKE256 salt stree h i) h' i' =
      if h' = h ∧ (i' = i ∨ i' = i + 1 ∧ i' * 2 ^ (P.seedTreeHeight - h) < P.t) then
        childSeed P SHAKE256 salt h i' (seedAt P stree (h - 1) (i / 2))
      else seedAt P stree h' i' := by
  have hpow : 2 ^ h % 2 = 0 := by
    obtain ⟨g, rfl⟩ : ∃ g, h = g + 1 := ⟨h - 1, by omega⟩
    rw [Nat.pow_succ, Nat.mul_mod_left]
  have hi1 : i + 1 < 2 ^ h := by omega
  have haddr : seedTreeAddr h (i + 1) = seedTreeAddr h i + 1 := by
    rw [seedTreeAddr_eq, seedTreeAddr_eq]
    omega
  have hinj : ∀ x, x < 2 ^ h → (seedTreeAddr h' i' = seedTreeAddr h x ↔ h' = h ∧ i' = x) :=
    fun x hx => ⟨seedTreeAddr_inj hi' hx, by rintro ⟨rfl, rfl⟩; rfl⟩
  have h0 := hinj i hi
  have h1 := hinj (i + 1) hi1
  simp only [tHashNode, shake256Squeeze, shake256Finalize, shake256Absorb, shake256Init,
    List.nil_append, Nat.shiftRight_eq_div_pow, Nat.pow_one, Nat.shiftLeft_eq]
  -- the right child starts beyond t: only one seed is written
  by_cases hcut : (i + 1) * 2 ^ (P.seedTreeHeight - h) ≥ P.t
  · rw [if_pos hcut, seedAt_blit P stree _ 1 _ (by simp)]
    by_cases heq : h' = h ∧ i' = i
    · obtain ⟨rfl, rfl⟩ := heq
      rw [if_pos (by omega), if_pos ⟨rfl, Or.inl rfl⟩, Nat.sub_self, Nat.mul_zero, List.drop_zero,
        List.take_of_length_le (by simp), childSeed, heven, Nat.mul_zero]
    · rw [if_neg (by omega), if_neg]
      rintro ⟨rfl, rfl | ⟨rfl, hlt⟩⟩
      · exact heq ⟨rfl, rfl⟩
      · omega
  · rw [if_neg hcut, seedAt_blit P stree _ 2 _ (by simp [Nat.mul_comm])]
    by_cases heq : h' = h ∧ i' = i
    · obtain ⟨rfl, rfl⟩ := heq
      rw [if_pos (by omega), if_pos ⟨rfl, Or.inl rfl⟩, Nat.sub_self, Nat.mul_zero, List.drop_zero,
        take_streamSlice _ _ (by omega), childSeed, heven, Nat.mul_zero]
    · -- the second half of the stream goes to the right child
      by_cases heq1 : h' = h ∧ i' = i + 1
      · obtain ⟨rfl, rfl⟩ := heq1
        rw [if_pos (by omega), if_pos ⟨rfl, Or.inr ⟨rfl, by omega⟩⟩, haddr,
          Nat.add_sub_cancel_left, Nat.mul_one, Nat.two_mul, streamSlice_add,
          List.drop_left' (length_streamSlice ..), List.take_of_length_le (by simp), childSeed,
          show (i + 1) % 2 = 1 by omega, show (i + 1) / 2 = i / 2 by omega, Nat.mul_one,
          Nat.zero_add]
      · rw [if_neg (by omega), if_neg]
        rintro ⟨rfl, rfl | ⟨rfl, -⟩⟩
        · exact heq ⟨rfl, rfl⟩
        · exact heq1 ⟨rfl, rfl⟩

/-- Expanding one level below a node: the children of the nodes `start / 2, …`. -/
theorem seedAt_tHashLevel (salt : List UInt8) (stree : Arr UInt8) {h start c h' i' : Nat}
    (hh : 0 < h) (heven : start % 2 = 0) (hstop : start + 2 * c ≤ 2 ^ h) (hi' : i' < 2 ^ h') :
    seedAt P (tHashLevel P SHAKE256 salt h start (start + 2 * c) stree) h' i' =
      if h' = h ∧ start ≤ i' ∧ i' < start + 2 * c ∧ i' * 2 ^ (P.seedTreeHeight - h) < P.t then
        childSeed P SHAKE256 salt h i' (seedAt P stree (h - 1) (i' / 2))
      else seedAt P stree h' i' := by
  -- once a child starts beyond t all later ones do, so the break is a guard in every round
  have hguard := forBreak_eq_guarded 0 c
    (fun q stree =>
      if (start + 2 * q) <<< (P.seedTreeHeight - h) ≥ P.t then (stree, true)
      else (tHashNode P SHAKE256 salt stree h (start + 2 * q), false))
    (c := fun q => decide ((start + 2 * q) * 2 ^ (P.seedTreeHeight - h) < P.t))
    (f := fun q stree => tHashNode P SHAKE256 salt stree h (start + 2 * q))
    (by
      intro q hq
      have hmono : (start + 2 * q) * 2 ^ (P.seedTreeHeight - h)
          ≤ (start + 2 * (q + 1)) * 2 ^ (P.seedTreeHeight - h) :=
        Nat.mul_le_mul_right _ (by omega)
      simp only [decide_eq_false_iff_not, not_lt] at hq ⊢
      omega)
    (by
      intro q s
      simp only [Nat.shiftLeft_eq, ge_iff_le, decide_eq_true_eq]
      by_cases hq : (start + 2 * q) * 2 ^ (P.seedTreeHeight - h) < P.t
      · rw [if_neg (by omega), if_pos hq]
      · rw [if_pos (by omega), if_neg hq]) stree
  rw [tHashLevel, show (start + 2 * c - start + 1) / 2 = c by omega, hguard]
  refine forUp_invariant (fun q s => ∀ h' i', i' < 2 ^ h' → seedAt P s h' i' =
      if h' = h ∧ start ≤ i' ∧ i' < start + 2 * q ∧ i' * 2 ^ (P.seedTreeHeight - h) < P.t then
        childSeed P SHAKE256 salt h i' (seedAt P stree (h - 1) (i' / 2))
      else seedAt P stree h' i') (Nat.zero_le c) ?_ ?_ h' i' hi'
  · intro q s _ hq hI g x hx
    simp only [decide_eq_true_eq]
    -- the parents lie one level up, which the loop does not write
    have hpar : seedAt P s (h - 1) ((start + 2 * q) / 2) = seedAt P stree (h - 1) ((start + 2 * q) / 2) := by
      rw [hI (h - 1) _ ?_, if_neg (by omega)]
      obtain ⟨g, rfl⟩ : ∃ g, h = g + 1 := ⟨h - 1, by omega⟩
      rw [Nat.pow_succ] at hstop
      rw [Nat.add_sub_cancel]
      omega
    by_cases hlt : (start + 2 * q) * 2 ^ (P.seedTreeHeight - h) < P.t
    · rw [if_pos hlt, seedAt_tHashNode P SHAKE256 salt s hh (by omega) (by omega) hx, hI g x hx, hpar]
      -- a child of this node is new; for any other the bounds q and q + 1 say the same
      by_cases hnode : g = h ∧ (x = start + 2 * q ∨
          x = start + 2 * q + 1 ∧ x * 2 ^ (P.seedTreeHeight - h) < P.t)
      · rw [if_pos hnode, if_pos]
        · rw [show (start + 2 * q) / 2 = x / 2 by omega]
        · obtain ⟨rfl, rfl | ⟨hx1, hx2⟩⟩ := hnode
          · exact ⟨rfl, by omega, by omega, hlt⟩
          · exact ⟨rfl, by omega, by omega, hx2⟩
      · rw [if_neg hnode]
        congr 1
        apply propext
        constructor
        · rintro ⟨rfl, h1, h2, h3⟩
          exact ⟨rfl, h1, by omega, h3⟩
        · rintro ⟨rfl, h1, h2, h3⟩
          refine ⟨rfl, h1, ?_, h3⟩
          by_contra hge
          exact hnode ⟨rfl, by omega⟩
    · rw [if_neg hlt, hI g x hx]
      congr 1
      apply propext
      constructor
      · rintro ⟨rfl, h1, h2, h3⟩
        exact ⟨rfl, h1, by omega, h3⟩
      · rintro ⟨rfl, h1, h2, h3⟩
        refine ⟨rfl, h1, ?_, h3⟩
        by_contra hge
        have hmono := Nat.mul_le_mul_right (2 ^ (P.seedTreeHeight - g))
          (show start + 2 * q ≤ x by omega)
        omega
  · intro g x _
    rw [if_neg (by omega)]

/-- The loop of `t_hash` at node `(h, i)` before level `g`: the levels below
    the node are expanded up to `g`, and nothing else has changed. -/
structure LevelsDone (salt : List UInt8) (stree : Arr UInt8) (h i g : Nat)
    (s : Nat × Nat × Arr UInt8) : Prop where
  start : s.1 = i * 2 ^ (g - 1 - h)
  stop : s.2.1 = (i + 1) * 2 ^ (g - 1 - h)
  seeds : ∀ h' i', i' < 2 ^ h' → seedAt P s.2.2 h' i' =
    if h < h' ∧ h' < g ∧ i' / 2 ^ (h' - h) = i ∧ i' * 2 ^ (P.seedTreeHeight - h') < P.t then
      subtreeSeed P SHAKE256 salt h (seedAt P stree h i) (h' - h) i'
    else seedAt P stree h' i'

/-- The descendants of node `(h, i)` at level `g` are the nodes the loop visits. -/
theorem descendant_iff {h i g : Nat} (hg : h < g) (x : Nat) :
    x / 2 ^ (g - h) = i ↔
      i * 2 ^ (g - 1 - h) * 2 ≤ x ∧ x < i * 2 ^ (g - 1 - h) * 2 + 2 * 2 ^ (g - 1 - h) := by
  have hpos := Nat.two_pow_pos (g - 1 - h)
  rw [show g - h = (g - 1 - h) + 1 by omega, Nat.div_eq_iff (Nat.two_pow_pos _), Nat.pow_succ,
    ← Nat.mul_assoc]
  omega

/-- The seed the loop derives at level `g` is the subtree's seed. -/
theorem LevelsDone.child {salt : List UInt8} {stree : Arr UInt8} {h i d y : Nat}
    {s : Nat × Nat × Arr UInt8} (hs : LevelsDone P SHAKE256 salt stree h i (h + d + 1) s)
    (hH : h + d + 1 ≤ P.seedTreeHeight) (hy : y < 2 ^ (h + d + 1)) (hi : y / 2 ^ (d + 1) = i)
    (hstart : y * 2 ^ (P.seedTreeHeight - (h + d + 1)) < P.t) :
    seedAt P s.2.2 (h + d) (y / 2) = subtreeSeed P SHAKE256 salt h (seedAt P stree h i) d (y / 2) := by
  rw [Nat.pow_succ] at hy
  rw [div_two_pow_succ] at hi
  rw [hs.seeds _ _ (by omega)]
  cases d with
  | zero =>
      rw [Nat.pow_zero, Nat.div_one] at hi
      rw [if_neg (by omega), subtreeSeed, hi]
      rfl
  | succ d =>
      rw [if_pos, show h + (d + 1) - h = d + 1 by omega]
      refine ⟨by omega, by omega, ?_, ?_⟩
      · rw [show h + (d + 1) - h = d + 1 by omega, Nat.div_div_eq_div_mul, Nat.mul_comm,
          ← Nat.div_div_eq_div_mul]
        exact hi
      · refine Nat.lt_of_le_of_lt ?_ hstart
        rw [show P.seedTreeHeight - (h + (d + 1))
          = (P.seedTreeHeight - (h + (d + 1) + 1)) + 1 by omega, Nat.pow_succ', ← Nat.mul_assoc]
        exact Nat.mul_le_mul_right _ (Nat.div_mul_le_self y 2)

/-- One round of the loop of `t_hash`. -/
theorem LevelsDone.step {salt : List UInt8} {stree : Arr UInt8} {h i g : Nat}
    {s : Nat × Nat × Arr UInt8} (hi : i < 2 ^ h) (hg : h < g)
    (hgH : g ≤ P.seedTreeHeight) (hs : LevelsDone P SHAKE256 salt stree h i g s) :
    LevelsDone P SHAKE256 salt stree h i (g + 1) (s.1 <<< 1, s.2.1 <<< 1,
      tHashLevel P SHAKE256 salt g (s.1 <<< 1) (s.2.1 <<< 1) s.2.2) := by
  have hdouble : ∀ x, x * 2 ^ (g - 1 - h) * 2 = x * 2 ^ (g + 1 - 1 - h) := fun x => by
    rw [show g + 1 - 1 - h = (g - 1 - h) + 1 by omega, Nat.pow_succ, Nat.mul_assoc]
  have hwidth : (i + 1) * 2 ^ (g - 1 - h) * 2
      = i * 2 ^ (g - 1 - h) * 2 + 2 * 2 ^ (g - 1 - h) := by ring
  have hroom : i * 2 ^ (g - 1 - h) * 2 + 2 * 2 ^ (g - 1 - h) ≤ 2 ^ g := by
    rw [← hwidth, Nat.mul_assoc, ← Nat.pow_succ,
      show 2 ^ g = 2 ^ h * 2 ^ (g - 1 - h + 1) by rw [← Nat.pow_add]; congr 1; omega]
    exact Nat.mul_le_mul_right _ hi
  simp only [Nat.shiftLeft_eq, Nat.pow_one, hs.start, hs.stop]
  refine ⟨hdouble i, hdouble (i + 1), fun x y hy => ?_⟩
  rw [hwidth, seedAt_tHashLevel P SHAKE256 salt s.2.2 (by omega) (Nat.mul_mod_left _ _) hroom hy,
    hs.seeds x y hy]
  by_cases hxg : x = g
  · -- the level of this round
    subst hxg
    by_cases hc : y / 2 ^ (x - h) = i ∧ y * 2 ^ (P.seedTreeHeight - x) < P.t
    · have hb := (descendant_iff hg y).mp hc.1
      rw [if_pos ⟨rfl, hb.1, hb.2, hc.2⟩, if_pos ⟨by omega, by omega, hc.1, hc.2⟩]
      obtain ⟨d, rfl⟩ : ∃ d, x = h + d + 1 := ⟨x - h - 1, by omega⟩
      rw [show h + d + 1 - h = d + 1 by omega] at hc ⊢
      rw [subtreeSeed, Nat.add_sub_cancel, hs.child P SHAKE256 hgH hy hc.1 hc.2]
    · rw [if_neg, if_neg (by omega), if_neg]
      · exact fun hh => hc ⟨hh.2.2.1, hh.2.2.2⟩
      · exact fun hh => hc ⟨(descendant_iff hg y).mpr ⟨hh.2.1, hh.2.2.1⟩, hh.2.2.2⟩
  · rw [if_neg (fun hh => hxg hh.1)]
    congr 1
    apply propext
    constructor
    · rintro ⟨a, b, c⟩
      exact ⟨a, by omega, c⟩
    · rintro ⟨a, b, c⟩
      exact ⟨a, by omega, c⟩

/-- `t_hash` at node `(h, i)` derives every node below it that starts before
    leaf `t`, and touches nothing else, below the leaves included. -/
theorem seedAt_tHash_below (salt : List UInt8) (stree : Arr UInt8) {h i h' i' : Nat}
    (hi : i < 2 ^ h) (hstart : i * 2 ^ (P.seedTreeHeight - h) < P.t) (hi' : i' < 2 ^ h') :
    seedAt P (tHash P SHAKE256 salt stree h i) h' i' =
      if h < h' ∧ h' < P.seedTreeHeight + 1 ∧ i' / 2 ^ (h' - h) = i ∧
          i' * 2 ^ (P.seedTreeHeight - h') < P.t then
        subtreeSeed P SHAKE256 salt h (seedAt P stree h i) (h' - h) i'
      else seedAt P stree h' i' := by
  by_cases hH : h ≤ P.seedTreeHeight
  case neg =>
    rw [if_neg (by omega), tHash, forBreak, show P.seedTreeHeight + 1 - (h + 1) = 0 by omega]
    rfl
  have h0 : LevelsDone P SHAKE256 salt stree h i (h + 1) (i, i + 1, stree) := by
    refine ⟨by simp, by simp, fun x y _ => ?_⟩
    rw [if_neg (by omega)]
  have hedge : ∀ g, h < g → g ≤ P.seedTreeHeight →
      i * 2 ^ (g - 1 - h) * 2 * 2 ^ (P.seedTreeHeight - g) = i * 2 ^ (P.seedTreeHeight - h) := by
    intro g hg hgH
    rw [Nat.mul_assoc, ← Nat.pow_succ', Nat.mul_assoc, ← Nat.pow_add]
    congr 2
    omega
  unfold tHash
  refine (forBreak_invariant (LevelsDone P SHAKE256 salt stree h i) (by omega)
    (fun g s h1 h2 hs => ?_) h0).seeds h' i' hi'
  -- the first node of the level starts before leaf `t`, so the loop goes on
  have hlt : s.1 <<< 1 <<< (P.seedTreeHeight - g) < P.t := by
    simp only [Nat.shiftLeft_eq, Nat.pow_one, hs.start]
    rw [hedge g h1 (by omega)]
    exact hstart
  simp only [ge_iff_le, not_le.mpr hlt, if_false]
  exact ⟨trivial, hs.step P SHAKE256 hi h1 (by omega)⟩

theorem seedAt_tHash (salt : List UInt8) (stree : Arr UInt8) {h i h' i' : Nat}
    (hi : i < 2 ^ h) (hstart : i * 2 ^ (P.seedTreeHeight - h) < P.t) (hle : h' ≤ P.seedTreeHeight)
    (hi' : i' < 2 ^ h') :
    seedAt P (tHash P SHAKE256 salt stree h i) h' i' =
      if h < h' ∧ i' / 2 ^ (h' - h) = i ∧ i' * 2 ^ (P.seedTreeHeight - h') < P.t then
        subtreeSeed P SHAKE256 salt h (seedAt P stree h i) (h' - h) i'
      else seedAt P stree h' i' := by
  rw [seedAt_tHash_below P SHAKE256 salt stree hi hstart hi']
  simp only [Nat.lt_succ_of_le hle, true_and]

/-! ## Writing the path -/

/-- The seeds of a list of nodes, one after the other. -/
def pathBytes (stree : Arr UInt8) (nodes : List (Nat × Nat)) : List UInt8 :=
  nodes.flatMap fun node => seedAt P stree node.1 node.2

@[simp] theorem length_seedAt (stree : Arr UInt8) (h i : Nat) :
    (seedAt P stree h i).length = P.stSeedBytes := Arr.length_slice _ _ _

@[simp] theorem length_pathBytes (stree : Arr UInt8) (nodes : List (Nat × Nat)) :
    (pathBytes P stree nodes).length = nodes.length * P.stSeedBytes := by
  induction nodes with
  | nil => simp [pathBytes]
  | cons node nodes ih =>
      rw [pathBytes, List.flatMap_cons, List.length_append, length_seedAt, List.length_cons,
        Nat.succ_mul, Nat.add_comm]
      exact congrArg (· + P.stSeedBytes) ih

theorem visitAll_streeToPath (mem : Nat → Option UInt8) (salt : List UInt8)
    (nodes : List (Nat × Nat)) (st : PathState) :
    visitAll (visitNode P SHAKE256 .streeToPath mem salt) nodes st
      = pure ⟨st.stree, st.path.blit st.pos (pathBytes P st.stree nodes),
          st.pos + nodes.length * P.stSeedBytes⟩ := by
  induction nodes generalizing st with
  | nil => simp [visitAll, pathBytes, Arr.blit]
  | cons node nodes ih =>
      rw [visitAll, List.foldlM_cons, visitNode, pure_bind]
      refine (ih _).trans ?_
      simp only [pathBytes, List.flatMap_cons, Arr.blit_append, length_seedAt, List.length_cons]
      rw [Nat.succ_mul, Nat.add_assoc, Nat.add_comm P.stSeedBytes]

/-- What `stree_to_path` writes. -/
theorem streeToPath_returns {hDigest : Arr UInt8} (ht : 1 ≤ P.t) (htH : P.t ≤ 2 ^ P.seedTreeHeight)
    (hw : 1 ≤ P.w) (hcount : (excluded P hDigest).length = P.w) (stree path : Arr UInt8) (pos : Nat)
    (salt : List UInt8) :
    (streeToPath P SHAKE256 stree hDigest path pos salt).Returns
      ⟨stree, path.blit pos (pathBytes P stree (visited P hDigest)),
        pos + (visited P hDigest).length * P.stSeedBytes⟩ := by
  refine ((walk_equiv P ht htH hw hcount _ _).returns _).mpr ?_
  rw [visitAll_streeToPath, Run.returns_pure]

/-- The number of visited nodes is within `seed_max_tree_len`. -/
theorem length_visited_le (hDigest : Arr UInt8) (hH : P.seedTreeHeight = Nat.clog 2 P.t)
    (hcount : (excluded P hDigest).length = P.w) :
    ((visited P hDigest).length : Int) ≤ seedMaxTreeLen P.t P.w := by
  have htH : P.t ≤ 2 ^ P.seedTreeHeight := hH ▸ Nat.le_pow_clog (by decide) P.t
  have hwt : P.w ≤ P.t := by
    rw [← hcount]
    exact (List.length_filter_le _ _).trans (by simp)
  have hroot : hitCount (excluded P hDigest) P.seedTreeHeight 0 = P.w := by
    rw [hitCount, ← hcount, List.countP_eq_length]
    intro j hj
    have hlt : j < 2 ^ P.seedTreeHeight := Nat.lt_of_lt_of_le (mem_excluded.mp hj).1 htH
    simpa only [decide_eq_true_eq] using Nat.div_eq_of_lt hlt
  have hlen := length_cover_add_le P.t (excluded P hDigest) (nodup_excluded P hDigest)
    P.seedTreeHeight 0 0
  have hclog : Nat.clog 2 P.w ≤ P.seedTreeHeight := hH ▸ Nat.clog_mono_right 2 hwt
  have hspine := spine_eq hclog
  rw [hroot] at hlen
  have hnat : (visited P hDigest).length + P.w
      ≤ 2 ^ Nat.clog 2 P.w + P.w * (P.seedTreeHeight - Nat.clog 2 P.w) := by
    rw [← hspine]
    exact hlen
  unfold seedMaxTreeLen
  rw [← hH]
  zify [hclog] at hnat
  linarith [mul_sub (P.w : Int) ((P.seedTreeHeight : Int) - Nat.clog 2 P.w) 1]

/-- The walk makes one visit for each node. -/
theorem walk_count {hDigest : Arr UInt8} (ht : 1 ≤ P.t) (htH : P.t ≤ 2 ^ P.seedTreeHeight)
    (hw : 1 ≤ P.w) (hcount : (excluded P hDigest).length = P.w) :
    (walk P hDigest (fun _ _ n => pure (n + 1)) 0 : Run Fault Nat).Returns
      (visited P hDigest).length := by
  refine ((walk_equiv P ht htH hw hcount _ _).returns _).mpr ?_
  rw [visitAll_pure, Run.returns_pure]
  have hcnt : ∀ (nodes : List (Nat × Nat)) (n : Nat),
      nodes.foldl (fun n _ => n + 1) n = n + nodes.length := by
    intro nodes
    induction nodes with
    | nil => simp
    | cons node nodes ih => intro n; simp [ih]; omega
  rw [hcnt, Nat.zero_add]

/-- `stree_to_path` writes at most `MEDS_max_path_len` seeds, all of them
    before the fields that follow the path. -/
theorem streeToPath_length_le (hDigest : Arr UInt8) (hH : P.seedTreeHeight = Nat.clog 2 P.t)
    (ht : 1 ≤ P.t) (hw : 1 ≤ P.w) (hcount : (excluded P hDigest).length = P.w)
    (stree path : Arr UInt8) (pos : Nat) (salt : List UInt8) :
    ∃ (seeds : Nat) (st : PathState),
      (walk P hDigest (fun _ _ n => pure (n + 1)) 0 : Run Fault Nat).Returns seeds ∧
      (streeToPath P SHAKE256 stree hDigest path pos salt).Returns st ∧
      st.pos = pos + seeds * P.stSeedBytes ∧
      (seeds : Int) ≤ seedMaxTreeLen P.t P.w ∧
      ∀ j, (j < pos ∨ pos + (seedMaxTreeLen P.t P.w).toNat * P.stSeedBytes ≤ j) →
        st.path.get j = path.get j := by
  have htH : P.t ≤ 2 ^ P.seedTreeHeight := hH ▸ Nat.le_pow_clog (by decide) P.t
  have hle := length_visited_le P _ hH hcount
  refine ⟨(visited P hDigest).length, _, walk_count P ht htH hw hcount,
    streeToPath_returns P SHAKE256 ht htH hw hcount stree path pos salt, rfl, hle, ?_⟩
  rintro j (hj | hj)
  · exact Arr.get_blit_of_lt _ _ hj
  · refine Arr.get_blit_of_ge _ _ (Nat.le_trans ?_ hj)
    rw [length_pathBytes]
    exact Nat.add_le_add_left (Nat.mul_le_mul_right _ (by omega)) _

theorem streeToPath_length_le_fiveLeaves :
    ∃ (seeds : Nat) (st : PathState),
      (walk fiveLeaves ⟨[0, 1, 0, 0, 2]⟩ (fun _ _ n => pure (n + 1)) 0 : Run Fault Nat).Returns
        seeds ∧
      (streeToPath fiveLeaves toyShake Arr.empty ⟨[0, 1, 0, 0, 2]⟩ Arr.empty 4 [9]).Returns st ∧
      st.pos = 4 + seeds * 1 ∧ (seeds : Int) ≤ seedMaxTreeLen 5 2 := by
  obtain ⟨seeds, st, hwalk, hpath, hpos, hle, -⟩ :=
    streeToPath_length_le fiveLeaves toyShake ⟨[0, 1, 0, 0, 2]⟩ (by decide)
      (by decide) (by decide) (by decide) Arr.empty Arr.empty 4 [9]
  exact ⟨seeds, st, hwalk, hpath, hpos, hle⟩

/-! ## Rebuilding the tree -/

theorem mapM_eq_some_map {α β : Type} {l : List α} {f : α → Option β} {g : α → β}
    (h : ∀ x ∈ l, f x = some (g x)) : l.mapM f = some (l.map g) := by
  induction l with
  | nil => rfl
  | cons x l ih =>
      rw [List.mapM_cons, h x List.mem_cons_self, ih fun y hy => h y (List.mem_cons_of_mem _ hy)]
      rfl

theorem readBytes_eq_some (mem : Nat → Option UInt8) (off : Nat) {l : List UInt8}
    (h : ∀ j, j < l.length → mem (off + j) = some (l.getD j 0)) :
    readBytes mem off l.length = some l := by
  unfold readBytes
  rw [mapM_eq_some_map (g := fun j => l.getD j 0) fun j hj => h j (List.mem_range.mp hj)]
  congr 1
  apply List.ext_getElem (by simp)
  intro i h1 h2
  rw [List.getElem_map, List.getElem_range, List.getD_eq_getElem _ _ h2]

/-- A tree in which every node that starts before leaf `t` holds the seed
    derived from any node above it. -/
def Derived (salt : List UInt8) (stree : Arr UInt8) : Prop :=
  ∀ h d i, h + d ≤ P.seedTreeHeight → i < 2 ^ (h + d) →
    i * 2 ^ (P.seedTreeHeight - (h + d)) < P.t →
    seedAt P stree (h + d) i
      = subtreeSeed P SHAKE256 salt h (seedAt P stree h (i / 2 ^ d)) d i

/-- The tree that `t_hash` grows from the root is derived. -/
theorem derived_tHash (salt : List UInt8) (stree : Arr UInt8) (ht : 1 ≤ P.t) :
    Derived P SHAKE256 salt (tHash P SHAKE256 salt stree 0 0) := by
  have hroot : ∀ h i, h ≤ P.seedTreeHeight → i < 2 ^ h → i * 2 ^ (P.seedTreeHeight - h) < P.t →
      seedAt P (tHash P SHAKE256 salt stree 0 0) h i
        = subtreeSeed P SHAKE256 salt 0 (seedAt P stree 0 0) h i := by
    intro h i hh hi hlt
    rw [seedAt_tHash P SHAKE256 salt stree (by simp) (by rw [Nat.zero_mul]; exact ht) hh hi]
    by_cases h0 : h = 0
    · subst h0
      obtain rfl : i = 0 := by simpa using hi
      rw [if_neg (by omega), subtreeSeed]
    · rw [if_pos ⟨by omega, Nat.div_eq_of_lt (by simpa using hi), hlt⟩, Nat.sub_zero]
  intro h d i hle hi hlt
  have hpar : i / 2 ^ d < 2 ^ h := by
    rw [Nat.div_lt_iff_lt_mul (Nat.two_pow_pos _), ← Nat.pow_add]
    exact hi
  have hparlt : i / 2 ^ d * 2 ^ (P.seedTreeHeight - h) < P.t := by
    refine Nat.lt_of_le_of_lt ?_ hlt
    rw [show P.seedTreeHeight - h = d + (P.seedTreeHeight - (h + d)) by omega, Nat.pow_add,
      ← Nat.mul_assoc]
    exact Nat.mul_le_mul_right _ (Nat.div_mul_le_self _ _)
  rw [hroot _ _ hle hi hlt, hroot _ _ (by omega) hpar hparlt, subtreeSeed_add, Nat.zero_add]

/-- Reading the seeds of `nodes` off the path and regrowing below each of
    them restores every node below one of them, and nothing else. -/
theorem visitAll_pathToStree {salt : List UInt8} {T : Arr UInt8} (hT : Derived P SHAKE256 salt T)
    (mem : Nat → Option UInt8) (nodes : List (Nat × Nat))
    (hnodes : ∀ node ∈ nodes, node.1 ≤ P.seedTreeHeight ∧ node.2 < 2 ^ node.1 ∧
      node.2 * 2 ^ (P.seedTreeHeight - node.1) < P.t) (st : PathState)
    (hmem : ∀ j, j < (pathBytes P T nodes).length →
      mem (st.pos + j) = some ((pathBytes P T nodes).getD j 0)) :
    ∃ st', visitAll (visitNode P SHAKE256 .pathToStree mem salt) nodes st = pure st' ∧
      st'.pos = st.pos + nodes.length * P.stSeedBytes ∧
      ∀ h i, h ≤ P.seedTreeHeight → i < 2 ^ h → i * 2 ^ (P.seedTreeHeight - h) < P.t →
        seedAt P st'.stree h i =
          if ∃ node ∈ nodes, node.1 ≤ h ∧ i / 2 ^ (h - node.1) = node.2 then seedAt P T h i
          else seedAt P st.stree h i := by
  induction nodes generalizing st with
  | nil =>
      refine ⟨st, rfl, by simp, fun h i _ _ _ => ?_⟩
      rw [if_neg (by simp)]
  | cons node nodes ih =>
      obtain ⟨g, x⟩ := node
      obtain ⟨hg, hx, hxt⟩ := hnodes (g, x) List.mem_cons_self
      simp only at hg hx hxt
      have hbytes : pathBytes P T ((g, x) :: nodes) = seedAt P T g x ++ pathBytes P T nodes := rfl
      -- the next seed of the path is the one of this node
      have hread : readBytes mem st.pos P.stSeedBytes = some (seedAt P T g x) := by
        have := readBytes_eq_some mem st.pos (l := seedAt P T g x) (by
          intro j hj
          rw [hmem j (by rw [hbytes, List.length_append]; omega), hbytes,
            List.getD_append _ _ _ _ hj])
        rwa [length_seedAt] at this
      obtain ⟨st', hrun, hpos, hseeds⟩ := ih
        (fun node hn => hnodes node (List.mem_cons_of_mem _ hn))
        { st with
          stree := tHash P SHAKE256 salt
            (st.stree.blit (P.stSeedBytes * seedTreeAddr g x) (seedAt P T g x)) g x
          pos := st.pos + P.stSeedBytes } (by
          intro j hj
          have := hmem (P.stSeedBytes + j) (by rw [hbytes, List.length_append, length_seedAt]; omega)
          rw [hbytes, List.getD_append_right _ _ _ _ (by rw [length_seedAt]; omega), length_seedAt,
            Nat.add_sub_cancel_left, ← Nat.add_assoc] at this
          exact this)
      refine ⟨st', ?_, ?_, ?_⟩
      · rw [visitAll, List.foldlM_cons, visitNode, hread, Run.ofOption_some, pure_bind, pure_bind]
        exact hrun
      · rw [hpos, List.length_cons, Nat.succ_mul, Nat.add_assoc, Nat.add_comm P.stSeedBytes]
      · have hroot : seedAt P (st.stree.blit (P.stSeedBytes * seedTreeAddr g x) (seedAt P T g x)) g x
            = seedAt P T g x := by
          rw [seedAt_blit_node P _ hx hx _ (length_seedAt P T g x), if_pos ⟨rfl, rfl⟩]
        intro h i hh hi hlt
        rw [hseeds h i hh hi hlt]
        -- later nodes have the last word; else the node is below (g, x) or untouched
        by_cases hrest : ∃ node ∈ nodes, node.1 ≤ h ∧ i / 2 ^ (h - node.1) = node.2
        · obtain ⟨node, hn, hb⟩ := hrest
          rw [if_pos ⟨node, hn, hb⟩, if_pos ⟨node, List.mem_cons_of_mem _ hn, hb⟩]
        · rw [if_neg hrest, seedAt_tHash P SHAKE256 salt _ hx hxt hh hi, hroot,
            seedAt_blit_node P _ hx hi _ (length_seedAt P T g x)]
          by_cases hbelow : g ≤ h ∧ i / 2 ^ (h - g) = x
          · rw [if_pos (⟨(g, x), List.mem_cons_self, hbelow⟩ :
              ∃ node ∈ (g, x) :: nodes, node.1 ≤ h ∧ i / 2 ^ (h - node.1) = node.2)]
            obtain ⟨hgh, hix⟩ := hbelow
            by_cases heq : h = g
            · subst heq
              rw [Nat.sub_self, Nat.pow_zero, Nat.div_one] at hix
              rw [if_neg (by omega), if_pos ⟨rfl, hix⟩, hix]
            · rw [if_pos ⟨by omega, hix, hlt⟩]
              -- in the derived tree the seed below follows from the one at (g, x)
              have hd := hT g (h - g) i (by omega) (by rwa [show g + (h - g) = h by omega])
                (by rwa [show g + (h - g) = h by omega])
              rw [show g + (h - g) = h by omega, hix] at hd
              exact hd.symm
          · rw [if_neg (fun hc => hbelow ⟨by omega, hc.2.1⟩), if_neg, if_neg]
            · rintro ⟨node, hn, hb⟩
              rcases List.mem_cons.mp hn with rfl | hn
              · exact hbelow hb
              · exact hrest ⟨node, hn, hb⟩
            · rintro ⟨rfl, rfl⟩
              exact hbelow ⟨Nat.le_refl _, by simp⟩

/-- Visiting a node of the path: the leaves below it grow from the seed read there. -/
theorem seedAt_visit (salt : List UInt8) (stree : Arr UInt8) {node : Nat × Nat}
    {seed : List UInt8} (hlen : seed.length = P.stSeedBytes) (hh : node.1 ≤ P.seedTreeHeight)
    (hi : node.2 < 2 ^ node.1) (hlt : node.2 * 2 ^ (P.seedTreeHeight - node.1) < P.t) {j : Nat}
    (hj : j < P.t) (hjH : j < 2 ^ P.seedTreeHeight) :
    seedAt P (tHash P SHAKE256 salt
        (stree.blit (P.stSeedBytes * seedTreeAddr node.1 node.2) seed) node.1 node.2)
        P.seedTreeHeight j =
      if Below P node j then subtreeSeed P SHAKE256 salt node.1 seed (P.seedTreeHeight - node.1) j
      else seedAt P stree P.seedTreeHeight j := by
  have hroot : seedAt P (stree.blit (P.stSeedBytes * seedTreeAddr node.1 node.2) seed) node.1 node.2
      = seed := by
    rw [seedAt_blit_node P _ hi hi _ hlen, if_pos ⟨rfl, rfl⟩]
  rw [seedAt_tHash P SHAKE256 salt _ hi hlt (Nat.le_refl _) hjH, hroot,
    seedAt_blit_node P _ hi hjH _ hlen]
  by_cases hb : Below P node j
  · rw [if_pos hb]
    by_cases hleaf : P.seedTreeHeight = node.1
    · have hj' : j = node.2 := by
        rw [Below, hleaf, Nat.sub_self, Nat.pow_zero, Nat.div_one] at hb
        exact hb
      rw [if_neg (by omega), if_pos ⟨hleaf, hj'⟩, hleaf, Nat.sub_self, subtreeSeed]
    · rw [if_pos ⟨by omega, hb, by simpa using hj⟩]
  · rw [if_neg hb, if_neg fun h => hb h.2.1, if_neg]
    rintro ⟨hleaf, rfl⟩
    apply hb
    rw [Below, hleaf, Nat.sub_self, Nat.pow_zero, Nat.div_one]

/-- Regrowing below nodes that have no leaf in common, from whatever seeds are read. -/
theorem visitAll_pathToStree_seeds (htH : P.t ≤ 2 ^ P.seedTreeHeight) (salt : List UInt8)
    (mem : Nat → Option UInt8) {nodes : List (Nat × Nat)} {seeds : List (List UInt8)}
    (hlen : seeds.length = nodes.length) (hseed : ∀ seed ∈ seeds, seed.length = P.stSeedBytes)
    (hnodes : ∀ node ∈ nodes, node.1 ≤ P.seedTreeHeight ∧ node.2 < 2 ^ node.1 ∧
      node.2 * 2 ^ (P.seedTreeHeight - node.1) < P.t)
    (hdisj : nodes.Pairwise fun a b => ∀ j, Below P a j → ¬ Below P b j) (st : PathState)
    (hmem : ∀ k, k < nodes.length →
      readBytes mem (st.pos + k * P.stSeedBytes) P.stSeedBytes = some (seeds.getD k [])) :
    ∃ st', visitAll (visitNode P SHAKE256 .pathToStree mem salt) nodes st = pure st' ∧
      st'.pos = st.pos + nodes.length * P.stSeedBytes ∧
      (∀ p ∈ nodes.zip seeds, ∀ j, j < P.t → Below P p.1 j →
        seedAt P st'.stree P.seedTreeHeight j
          = subtreeSeed P SHAKE256 salt p.1.1 p.2 (P.seedTreeHeight - p.1.1) j) ∧
      ∀ j, j < P.t → (∀ node ∈ nodes, ¬ Below P node j) →
        seedAt P st'.stree P.seedTreeHeight j = seedAt P st.stree P.seedTreeHeight j := by
  induction nodes generalizing seeds st with
  | nil => exact ⟨st, rfl, by simp, fun p hp => absurd hp (by simp), fun j _ _ => rfl⟩
  | cons node nodes ih =>
      obtain ⟨seed, seeds, rfl⟩ : ∃ s l, seeds = s :: l := by
        cases seeds with
        | nil => cases hlen
        | cons s l => exact ⟨s, l, rfl⟩
      obtain ⟨hh, hi, hlt⟩ := hnodes node List.mem_cons_self
      obtain ⟨hhead, hdisj⟩ := List.pairwise_cons.mp hdisj
      have hread := hmem 0 (by simp)
      rw [Nat.zero_mul, Nat.add_zero, List.getD_cons_zero] at hread
      obtain ⟨st', hrun, hpos, hgrown, hkept⟩ := @ih seeds
        (by simpa using hlen) (fun s hs => hseed s (List.mem_cons_of_mem _ hs))
        (fun n hn => hnodes n (List.mem_cons_of_mem _ hn)) hdisj
        { st with
          stree := tHash P SHAKE256 salt
            (st.stree.blit (P.stSeedBytes * seedTreeAddr node.1 node.2) seed) node.1 node.2
          pos := st.pos + P.stSeedBytes } (by
          intro k hk
          have := hmem (k + 1) (by rw [List.length_cons]; omega)
          rwa [Nat.succ_mul, Nat.add_comm (k * _), ← Nat.add_assoc, List.getD_cons_succ] at this)
      have hvisit : ∀ j, j < P.t → _ := fun j hj =>
        seedAt_visit P SHAKE256 salt st.stree (hseed seed List.mem_cons_self) hh hi hlt hj
          (hj.trans_le htH)
      refine ⟨st', ?_, ?_, ?_, ?_⟩
      · rw [visitAll, List.foldlM_cons, visitNode, hread, Run.ofOption_some, pure_bind, pure_bind]
        exact hrun
      · rw [hpos, List.length_cons, Nat.succ_mul, Nat.add_assoc, Nat.add_comm P.stSeedBytes]
      · intro p hp j hj hb
        rw [List.zip_cons_cons, List.mem_cons] at hp
        rcases hp with rfl | hp
        · -- no later node stands over this leaf
          rw [hkept j hj fun n hn => hhead n hn j hb, hvisit j hj, if_pos hb]
        · exact hgrown p hp j hj hb
      · intro j hj hnone
        rw [hkept j hj fun n hn => hnone n (List.mem_cons_of_mem _ hn), hvisit j hj,
          if_neg (hnone node List.mem_cons_self)]

/-- What `path_to_stree` makes of the path of a derived tree. -/
theorem pathToStree_returns {hDigest : Arr UInt8} (ht : 1 ≤ P.t)
    (htH : P.t ≤ 2 ^ P.seedTreeHeight) (hw : 1 ≤ P.w) (hcount : (excluded P hDigest).length = P.w)
    {salt : List UInt8} {T : Arr UInt8} (hT : Derived P SHAKE256 salt T) (stree : Arr UInt8)
    (mem : Nat → Option UInt8) (pos : Nat)
    (hmem : ∀ j, j < (visited P hDigest).length * P.stSeedBytes →
      mem (pos + j) = some ((pathBytes P T (visited P hDigest)).getD j 0)) :
    ∃ st, (pathToStree P SHAKE256 stree hDigest mem pos salt).Returns st ∧
      st.pos = pos + (visited P hDigest).length * P.stSeedBytes ∧
      (∀ j, j < P.t → hDigest.get j = 0 →
        seedAt P st.stree P.seedTreeHeight j = seedAt P T P.seedTreeHeight j) ∧
      ∀ j, j < P.t → hDigest.get j > 0 →
        seedAt P st.stree P.seedTreeHeight j = seedAt P stree P.seedTreeHeight j := by
  obtain ⟨st, hrun, hpos, hseeds⟩ := visitAll_pathToStree P SHAKE256 hT mem
    (visited P hDigest)
    (fun node hn =>
      have hf := (mem_visited_iff.mp hn).1
      ⟨hf.level, hf.index, hf.starts⟩)
    ⟨stree, Arr.empty, pos⟩ (by rw [length_pathBytes]; exact hmem)
  -- a leaf is restored if and only if it lies below a visited node
  have hleaf : ∀ j, j < P.t → seedAt P st.stree P.seedTreeHeight j =
      if ∃ node ∈ visited P hDigest, Below P node j then seedAt P T P.seedTreeHeight j
      else seedAt P stree P.seedTreeHeight j := by
    intro j hj
    rw [hseeds P.seedTreeHeight j (Nat.le_refl _) (by omega) (by simpa using hj)]
    congr 1
    apply propext
    constructor
    · rintro ⟨node, hn, -, hb⟩
      exact ⟨node, hn, hb⟩
    · rintro ⟨node, hn, hb⟩
      exact ⟨node, hn, (mem_visited_iff.mp hn).1.level, hb⟩
  refine ⟨st, ((walk_equiv P ht htH hw hcount _ _).returns _).mpr ?_, hpos, ?_, ?_⟩
  · rw [hrun, Run.returns_pure]
  · intro j hj h0
    rw [hleaf j hj, if_pos (exists_visited P htH hj h0)]
  · intro j hj hpos
    rw [hleaf j hj, if_neg]
    rintro ⟨node, hn, hb⟩
    exact (mem_visited_iff.mp hn).1.free j hj hpos hb

/-- The path of a challenge restores the leaves that are not challenged, and
    only those: what the signer's `stree_to_path` writes, the verifier's
    `path_to_stree` consumes to the last seed, and the two trees agree on
    every unchallenged leaf while the challenged ones stay zero. -/
theorem pathToStree_recovers (hDigest : Arr UInt8) (ht : 1 ≤ P.t)
    (htH : P.t ≤ 2 ^ P.seedTreeHeight) (hw : 1 ≤ P.w) (hcount : (excluded P hDigest).length = P.w)
    (salt : List UInt8) (stree path : Arr UInt8) (pos : Nat) :
    ∃ sent rebuilt : PathState,
      (streeToPath P SHAKE256 (tHash P SHAKE256 salt stree 0 0) hDigest path pos salt).Returns
        sent ∧
      (pathToStree P SHAKE256 (Arr.replicate (P.stSeedBytes * P.seedTreeSize) 0) hDigest
        (fun i => if pos ≤ i ∧ i < sent.pos then some (sent.path.get i) else none) pos salt).Returns
        rebuilt ∧
      rebuilt.pos = sent.pos ∧
      (∀ j, j < P.t → hDigest.get j = 0 →
        seedAt P rebuilt.stree P.seedTreeHeight j
          = seedAt P (tHash P SHAKE256 salt stree 0 0) P.seedTreeHeight j) ∧
      ∀ j, j < P.t → hDigest.get j > 0 →
        seedAt P rebuilt.stree P.seedTreeHeight j = List.replicate P.stSeedBytes 0 := by
  -- the verifier reads what the signer has blitted behind `pos`
  obtain ⟨st, hrun, hpos, hfree, hzero⟩ := pathToStree_returns P SHAKE256 ht htH hw hcount
    (derived_tHash P SHAKE256 salt stree ht) (Arr.replicate (P.stSeedBytes * P.seedTreeSize) 0)
    (fun i => if pos ≤ i ∧ i < pos + (visited P hDigest).length * P.stSeedBytes
      then some ((path.blit pos (pathBytes P (tHash P SHAKE256 salt stree 0 0)
        (visited P hDigest))).get i) else none) pos (by
      intro j hj
      rw [if_pos (by omega), Arr.get_blit, length_pathBytes, if_pos (by omega),
        Nat.add_sub_cancel_left]
      rfl)
  refine ⟨_, st, streeToPath_returns P SHAKE256 ht htH hw hcount _ path pos salt, hrun, hpos, hfree,
    fun j hj hpos => ?_⟩
  rw [hzero j hj hpos]
  apply List.ext_getElem (by simp)
  intro x h1 h2
  simp only [seedAt, Arr.getElem_slice, List.getElem_replicate]
  exact Arr.get_replicate _ _

theorem pathToStree_recovers_fiveLeaves :
    ∃ sent rebuilt : PathState,
      (streeToPath fiveLeaves toyShake (tHash fiveLeaves toyShake [9] ⟨[5]⟩ 0 0) ⟨[0, 1, 0, 0, 2]⟩
        Arr.empty 0 [9]).Returns sent ∧
      (pathToStree fiveLeaves toyShake (Arr.replicate 15 0) ⟨[0, 1, 0, 0, 2]⟩
        (fun i => if 0 ≤ i ∧ i < sent.pos then some (sent.path.get i) else none) 0 [9]).Returns
        rebuilt ∧
      rebuilt.pos = sent.pos ∧
      ∀ j, j < 5 → (Arr.mk [0, 1, 0, 0, 2] : Arr UInt8).get j = 0 →
        seedAt fiveLeaves rebuilt.stree 3 j
          = seedAt fiveLeaves (tHash fiveLeaves toyShake [9] ⟨[5]⟩ 0 0) 3 j := by
  obtain ⟨sent, rebuilt, hsent, hrebuilt, hpos, hfree, -⟩ :=
    pathToStree_recovers fiveLeaves toyShake ⟨[0, 1, 0, 0, 2]⟩ (by decide)
      (by decide) (by decide) (by decide) [9] ⟨[5]⟩ Arr.empty 0
  exact ⟨sent, rebuilt, hsent, hrebuilt, hpos, hfree⟩

end

end Meds.Ref
