/-
  Meds.Ref.SeedWalk

  The walk of `stree_to_path_to_stree` visits the maximal subtrees without
  an excluded leaf.

  The loop holds one pending excluded leaf only.  What makes that enough is
  the order: at the top of every round the pending leaf is the first one at
  or after the first leaf of the current node (`Pending`), so it is below
  the node as soon as any excluded leaf is.  From there the walk through a
  subtree is the fold of `visit` over its `cover` followed by the step to the
  next subtree, by induction on the height.
-/

import Meds.Core.TreeCover
import Meds.Ref.Seed

namespace Meds.Ref

open Meds.Core

section

variable (P : Params)

/-- The excluded leaves, in increasing order. -/
def excluded (hDigest : Arr UInt8) : List Nat :=
  (List.range P.t).filter fun j => hDigest.get j > 0

theorem mem_excluded {P : Params} {hDigest : Arr UInt8} {j : Nat} :
    j ∈ excluded P hDigest ↔ j < P.t ∧ hDigest.get j > 0 := by
  simp [excluded]

theorem nodup_excluded (hDigest : Arr UInt8) : (excluded P hDigest).Nodup :=
  List.nodup_range.filter _

theorem pairwise_excluded (hDigest : Arr UInt8) : (excluded P hDigest).Pairwise (· < ·) :=
  List.pairwise_lt_range.filter _

/-- The array `indices` holds the excluded leaves. -/
theorem walkIndices_get (hDigest : Arr UInt8) {j : Nat} (hj : j < (excluded P hDigest).length) :
    (walkIndices P hDigest).get j = (excluded P hDigest).getD j 0 := by
  have hinv := forUp_invariant (f := fun i (s : Arr Nat × Nat) =>
      if hDigest.get i > 0 then (s.1.set s.2 i, s.2 + 1) else (s.1, s.2))
    (fun i s => s.2 = ((List.range i).filter fun j => hDigest.get j > 0).length ∧
      ∀ j, j < s.2 → s.1.get j = ((List.range i).filter fun j => hDigest.get j > 0).getD j 0)
    (Nat.zero_le P.t) (by
      rintro i ⟨arr, idx⟩ _ _ ⟨hidx, hget⟩
      simp only at hidx hget
      rw [List.range_succ, List.filter_append]
      by_cases hd : hDigest.get i > 0
      · simp only [hd, if_true, List.filter_cons_of_pos, List.filter_nil, decide_true]
        refine ⟨by simp [hidx], ?_⟩
        intro j hj
        by_cases hji : j = idx
        · subst hji
          rw [Arr.get_set_self, hidx, List.getD_append_right _ _ _ _ (Nat.le_refl _), Nat.sub_self]
          rfl
        · rw [Arr.get_set_ne _ _ hji, hget j (by omega),
            List.getD_append _ _ _ _ (by omega)]
      · simp only [hd, if_false, List.filter_cons_of_neg, List.filter_nil, decide_false,
          Bool.false_eq_true, not_false_eq_true, List.append_nil]
        exact ⟨hidx, hget⟩)
    (s := (Arr.replicate P.w 0, 0)) ⟨rfl, fun j hj => absurd hj (Nat.not_lt_zero j)⟩
  exact hinv.2 j (hinv.1 ▸ hj)

/-! ## The pending leaf -/

/-- `id` points at the first excluded leaf from `start` on, or at the last
    one when there is none left. -/
structure Pending (ex : List Nat) (start id : Nat) : Prop where
  lt : id < ex.length
  before : ∀ j, j < id → ex.getD j 0 < start
  here : start ≤ ex.getD id 0 ∨ id + 1 = ex.length

theorem getD_lt_of_lt {ex : List Nat} (hs : ex.Pairwise (· < ·)) {a b : Nat} (hab : a < b)
    (hb : b < ex.length) : ex.getD a 0 < ex.getD b 0 := by
  rw [List.getD_eq_getElem _ _ (by omega), List.getD_eq_getElem _ _ hb]
  exact List.pairwise_iff_getElem.mp hs a b _ hb hab

/-- A node is over an excluded leaf iff it is over the pending one. -/
theorem Pending.hits_iff {ex : List Nat} {d i id : Nat} (hs : ex.Pairwise (· < ·))
    (hp : Pending ex (i * 2 ^ d) id) : Hits ex d i ↔ ex.getD id 0 / 2 ^ d = i := by
  have hpos := Nat.two_pow_pos d
  constructor
  · rintro ⟨j, hj, hji⟩
    obtain ⟨a, ha, rfl⟩ := List.getElem_of_mem hj
    rw [Nat.div_eq_iff hpos] at hji
    have hget : ex.getD a 0 = ex[a] := List.getD_eq_getElem _ _ ha
    have hge : id ≤ a := by
      by_contra hlt
      have := hp.before a (by omega)
      omega
    rcases hp.here with hstart | hlast
    · by_cases hida : id = a
      · subst hida
        rw [Nat.div_eq_iff hpos]
        omega
      · have := getD_lt_of_lt hs (show id < a by omega) ha
        rw [Nat.div_eq_iff hpos]
        omega
    · obtain rfl : id = a := by omega
      rw [Nat.div_eq_iff hpos]
      omega
  · intro h
    exact ⟨ex.getD id 0, by rw [List.getD_eq_getElem _ _ hp.lt]; exact List.getElem_mem _, h⟩

/-- A node without excluded leaves is skipped as a whole. -/
theorem Pending.skip {ex : List Nat} {d i id : Nat} (hs : ex.Pairwise (· < ·))
    (hp : Pending ex (i * 2 ^ d) id) (hn : ¬ Hits ex d i) : Pending ex ((i + 1) * 2 ^ d) id := by
  have hpos := Nat.two_pow_pos d
  have hne := mt (hp.hits_iff hs).mpr hn
  rw [Nat.div_eq_iff hpos] at hne
  rw [Nat.add_mul, Nat.one_mul]
  refine ⟨hp.lt, fun j hj => ?_, ?_⟩
  · have := hp.before j hj
    omega
  · rcases hp.here with h | h
    · exact Or.inl (by omega)
    · exact Or.inr h

/-- After an excluded leaf the next one is pending. -/
theorem Pending.leaf {ex : List Nat} {i id : Nat} (hs : ex.Pairwise (· < ·))
    (hp : Pending ex (i * 2 ^ 0) id) (hh : Hits ex 0 i) :
    Pending ex ((i + 1) * 2 ^ 0) (if id + 1 < ex.length then id + 1 else id) := by
  have heq := (hp.hits_iff hs).mp hh
  simp only [Nat.pow_zero, Nat.div_one, Nat.mul_one] at heq hp ⊢
  have hlt := hp.lt
  by_cases h : id + 1 < ex.length
  · rw [if_pos h]
    have hnext : ex.getD id 0 < ex.getD (id + 1) 0 := getD_lt_of_lt hs (Nat.lt_succ_self id) h
    refine ⟨h, fun j hj => ?_, Or.inl (by omega)⟩
    by_cases hj' : j = id
    · subst hj'
      omega
    · have := hp.before j (by omega)
      omega
  · rw [if_neg h]
    refine ⟨hlt, fun j hj => ?_, Or.inr (by omega)⟩
    have := hp.before j hj
    omega

/-! ## The inner loops -/

variable {ε τ : Type}

theorem backtrack_even (h i : Nat) : (backtrack (h, 2 * i) : Run ε _).Returns (h, 2 * i) := by
  apply Run.returns_loop_break
  simp only [Nat.and_one_is_mod, show 2 * i % 2 ≠ 1 by omega, if_false, Run.returns_pure]

theorem backtrack_odd (h i : Nat) :
    (backtrack (h + 1, 2 * i + 1) : Run ε _).Equiv (backtrack (h, i)) := by
  apply Run.loop_step_equiv
  simp only [Nat.and_one_is_mod, show (2 * i + 1) % 2 = 1 by omega, if_true, Nat.add_sub_cancel,
    show (2 * i + 1) >>> 1 = i by rw [Nat.shiftRight_eq_div_pow]; omega]

/-- Backtracking keeps the position of the node's right edge. -/
theorem backtrack_returns {H h i : Nat} (hh : h ≤ H) (hi : i < 2 ^ h) :
    ∃ h' i', (backtrack (h, i) : Run ε _).Returns (h', i') ∧ h' ≤ H ∧ i' + 1 ≤ 2 ^ h' ∧
      (i' + 1) * 2 ^ (H - h') = (i + 1) * 2 ^ (H - h) := by
  induction h generalizing i with
  | zero =>
      obtain rfl : i = 0 := by omega
      exact ⟨0, 0, backtrack_even 0 0, hh, by simp, rfl⟩
  | succ h ih =>
      rcases Nat.even_or_odd' i with ⟨j, rfl | rfl⟩
      · exact ⟨h + 1, 2 * j, backtrack_even _ _, hh, hi, rfl⟩
      · rw [Nat.pow_succ] at hi
        obtain ⟨h', i', hr, hle, hlt, hedge⟩ := ih (i := j) (by omega) (by omega)
        refine ⟨h', i', ((backtrack_odd h j).returns _).mpr hr, hle, hlt, ?_⟩
        rw [hedge, show H - h = (H - (h + 1)) + 1 by omega, Nat.pow_succ]
        ring

theorem descend_stop {indices : Arr Nat} {pos : WalkPos}
    (h : indices.get pos.id / 2 ^ (P.seedTreeHeight - pos.h) ≠ pos.i) :
    (descend P indices pos : Run ε _).Returns (pos, false) := by
  apply Run.returns_loop_break
  rw [Nat.shiftRight_eq_div_pow, if_neg h, Run.returns_pure]

theorem descend_leaf {indices : Arr Nat} {i id : Nat} (h : indices.get id = i) :
    (descend P indices ⟨P.seedTreeHeight, i, id⟩ : Run ε _).Returns
      (⟨P.seedTreeHeight, i, if id + 1 < P.w then id + 1 else id⟩, true) := by
  apply Run.returns_loop_break
  simp only [Nat.sub_self, Nat.shiftRight_zero, h, if_true, gt_iff_lt,
    Nat.lt_succ_self, Nat.add_sub_cancel, Nat.shiftLeft_shiftRight]
  exact Run.returns_pure.mpr rfl

theorem descend_child {indices : Arr Nat} {h i id : Nat} (hh : h < P.seedTreeHeight)
    (hb : indices.get id / 2 ^ (P.seedTreeHeight - h) = i) :
    (descend P indices ⟨h, i, id⟩ : Run ε _).Equiv (descend P indices ⟨h + 1, 2 * i, id⟩) := by
  apply Run.loop_step_equiv
  simp only [Nat.shiftRight_eq_div_pow, hb, if_true, show ¬ h + 1 > P.seedTreeHeight by omega,
    if_false, Nat.shiftLeft_eq, Nat.pow_one, Nat.mul_comm i 2]

/-! ## The walk through a subtree -/

/-- What the loop does once node `pos` is dealt with. -/
def afterNode (indices : Arr Nat) (visit : Nat → Nat → τ → Run ε τ) (pos : WalkPos) (acc : τ) :
    Run ε τ :=
  nextNode P pos acc >>= Sum.elim (Run.loop (walkRound P indices visit)) pure

/-- The visits to a list of nodes. -/
def visitAll (visit : Nat → Nat → τ → Run ε τ) (nodes : List (Nat × Nat)) (acc : τ) : Run ε τ :=
  nodes.foldlM (fun acc node => visit node.1 node.2 acc) acc

theorem afterNode_left {indices : Arr Nat} {visit : Nat → Nat → τ → Run ε τ} {h i id : Nat}
    {acc : τ} (hlt : (2 * i + 1) * 2 ^ (P.seedTreeHeight - h) < P.t) :
    (afterNode P indices visit ⟨h, 2 * i, id⟩ acc).Equiv
      (Run.loop (walkRound P indices visit) (⟨h, 2 * i + 1, id⟩, acc)) := by
  unfold afterNode nextNode
  rw [bind_assoc]
  refine ((backtrack_even h i).bind_equiv _).trans ?_
  simp only [Nat.shiftLeft_eq, ge_iff_le, not_le.mpr hlt, if_false, pure_bind, Sum.elim_inl]
  exact Run.Equiv.refl _

theorem afterNode_right {indices : Arr Nat} {visit : Nat → Nat → τ → Run ε τ} {h i id : Nat}
    {acc : τ} : (afterNode P indices visit ⟨h + 1, 2 * i + 1, id⟩ acc).Equiv
      (afterNode P indices visit ⟨h, i, id⟩ acc) := by
  unfold afterNode nextNode
  rw [bind_assoc, bind_assoc]
  exact (backtrack_odd h i).bind fun _ _ => Run.Equiv.refl _

/-- Past the last leaf the walk is over. -/
theorem afterNode_done {indices : Arr Nat} {visit : Nat → Nat → τ → Run ε τ} {h i id : Nat}
    {acc : τ} (hh : h ≤ P.seedTreeHeight) (hi : i < 2 ^ h)
    (hge : P.t ≤ (i + 1) * 2 ^ (P.seedTreeHeight - h)) :
    (afterNode P indices visit ⟨h, i, id⟩ acc).Equiv (pure acc) := by
  obtain ⟨h', i', hr, -, -, hedge⟩ := backtrack_returns (ε := ε) hh hi
  unfold afterNode nextNode
  rw [bind_assoc]
  refine (hr.bind_equiv _).trans ?_
  simp only [Nat.shiftLeft_eq, hedge, ge_iff_le, hge, if_true, pure_bind, Sum.elim_inr]
  exact Run.Equiv.refl _

/-- A round at a node whose subtree is free visits it and moves on. -/
theorem walkRound_free {indices : Arr Nat} {visit : Nat → Nat → τ → Run ε τ} {pos : WalkPos}
    {acc : τ} (h : indices.get pos.id / 2 ^ (P.seedTreeHeight - pos.h) ≠ pos.i) :
    (Run.loop (walkRound P indices visit) (pos, acc)).Equiv
      (visit pos.h pos.i acc >>= afterNode P indices visit pos) := by
  refine (Run.loop_equiv _ _).trans ?_
  unfold walkRound
  rw [bind_assoc]
  refine ((descend_stop P h).bind_equiv _).trans ?_
  simp only [Bool.false_eq_true, if_false, bind_assoc]
  exact Run.Equiv.refl _

/-- A round at an excluded leaf moves on without a visit. -/
theorem walkRound_leaf {indices : Arr Nat} {visit : Nat → Nat → τ → Run ε τ} {i id : Nat}
    {acc : τ} (h : indices.get id = i) :
    (Run.loop (walkRound P indices visit) (⟨P.seedTreeHeight, i, id⟩, acc)).Equiv
      (afterNode P indices visit ⟨P.seedTreeHeight, i, if id + 1 < P.w then id + 1 else id⟩ acc) := by
  refine (Run.loop_equiv _ _).trans ?_
  unfold walkRound
  rw [bind_assoc]
  refine ((descend_leaf P h).bind_equiv _).trans ?_
  simp only [if_true, pure_bind]
  exact Run.Equiv.refl _

/-- A round at a node over an excluded leaf is a round at its left child. -/
theorem walkRound_child {indices : Arr Nat} {visit : Nat → Nat → τ → Run ε τ} {h i id : Nat}
    {acc : τ} (hh : h < P.seedTreeHeight)
    (hb : indices.get id / 2 ^ (P.seedTreeHeight - h) = i) :
    (Run.loop (walkRound P indices visit) (⟨h, i, id⟩, acc)).Equiv
      (Run.loop (walkRound P indices visit) (⟨h + 1, 2 * i, id⟩, acc)) := by
  refine (Run.loop_equiv _ _).trans ((Run.Equiv.bind ?_ fun _ _ => Run.Equiv.refl _).trans
    (Run.loop_equiv _ _).symm)
  unfold walkRound
  exact (descend_child P hh hb).bind fun _ _ => Run.Equiv.refl _

/-- Walking through the subtree of a node visits its cover and then leaves
    the node, with the pending leaf moved past it. -/
theorem walk_subtree {ex : List Nat} {indices : Arr Nat} (visit : Nat → Nat → τ → Run ε τ)
    (hs : ex.Pairwise (· < ·)) (hlen : ex.length = P.w) (hlt : ∀ j, j < ex.length → ex.getD j 0 < P.t)
    (hidx : ∀ j, j < ex.length → indices.get j = ex.getD j 0) (d : Nat) :
    ∀ h i id, h + d = P.seedTreeHeight → i < 2 ^ h → i * 2 ^ d < P.t →
      Pending ex (i * 2 ^ d) id →
      ∃ id', Pending ex ((i + 1) * 2 ^ d) id' ∧
        ∀ acc, (Run.loop (walkRound P indices visit) (⟨h, i, id⟩, acc)).Equiv
          (visitAll visit (cover P.t ex d h i) acc >>= afterNode P indices visit ⟨h, i, id'⟩) := by
  induction d with
  | zero =>
      intro h i id hd hi hstart hp
      obtain rfl : h = P.seedTreeHeight := by omega
      have hget := hidx id hp.lt
      -- an excluded leaf is passed, a free one visited
      by_cases hh : Hits ex 0 i
      · have heq := (hp.hits_iff hs).mp hh
        rw [Nat.pow_zero, Nat.div_one, ← hget] at heq
        refine ⟨_, hp.leaf hs hh, fun acc => ?_⟩
        rw [cover_leaf_of_hits hh, hlen]
        exact walkRound_leaf P heq
      · refine ⟨id, hp.skip hs hh, fun acc => ?_⟩
        rw [cover_of_not_hits hstart hh]
        refine (walkRound_free P ?_).trans ?_
        · rw [hget, Nat.sub_self]
          exact mt (hp.hits_iff hs).mpr hh
        · simp only [visitAll, List.foldlM_cons, List.foldlM_nil, bind_pure]
          exact Run.Equiv.refl _
  | succ d ih =>
      intro h i id hd hi hstart hp
      have hget := hidx id hp.lt
      have hheight : P.seedTreeHeight - h = d + 1 := by omega
      by_cases hh : Hits ex (d + 1) i
      · have heq := (hp.hits_iff hs).mp hh
        have hleft : 2 * i * 2 ^ d = i * 2 ^ (d + 1) := by
          rw [Nat.pow_succ]
          ring
        have hright : (2 * i + 1 + 1) * 2 ^ d = (i + 1) * 2 ^ (d + 1) := by
          rw [Nat.pow_succ]
          ring
        obtain ⟨id1, hp1, hw1⟩ := ih (h + 1) (2 * i) id (by omega)
          (by rw [Nat.pow_succ]; omega) (by omega) (by rwa [hleft])
        -- an excluded leaf below: the walk goes down to the left child
        have henter : ∀ acc, (Run.loop (walkRound P indices visit) (⟨h, i, id⟩, acc)).Equiv
            (visitAll visit (cover P.t ex d (h + 1) (2 * i)) acc >>=
              afterNode P indices visit ⟨h + 1, 2 * i, id1⟩) := fun acc =>
          (walkRound_child P (by omega) (by rw [hget, hheight]; exact heq)).trans (hw1 acc)
        -- the right child is walked too, unless it starts beyond t
        by_cases hcut : (2 * i + 1) * 2 ^ d < P.t
        · obtain ⟨id2, hp2, hw2⟩ := ih (h + 1) (2 * i + 1) id1 (by omega)
            (by rw [Nat.pow_succ]; omega) hcut hp1
          refine ⟨id2, hright ▸ hp2, fun acc => (henter acc).trans ?_⟩
          rw [cover_succ_of_hits hh, visitAll, visitAll, List.foldlM_append, bind_assoc]
          refine Run.Equiv.bind (Run.Equiv.refl _) fun acc1 _ => ?_
          refine (afterNode_left P ?_).trans ((hw2 acc1).trans ?_)
          · rw [show P.seedTreeHeight - (h + 1) = d by omega]
            exact hcut
          · exact Run.Equiv.bind (Run.Equiv.refl _) fun _ _ => afterNode_right P
        · refine ⟨id1, ?_, fun acc => (henter acc).trans ?_⟩
          · have hge : (2 * i + 1) * 2 ^ d ≤ (i + 1) * 2 ^ (d + 1) := by
              rw [← hright]
              exact Nat.mul_le_mul_right _ (by omega)
            refine ⟨hp1.lt, fun j hj => Nat.lt_of_lt_of_le (hp1.before j hj) hge, Or.inr ?_⟩
            -- the pending leaf is not beyond t, so it is the last one already passed
            have hlast := hlt id1 hp1.lt
            rcases hp1.here with h1 | h1
            · omega
            · exact h1
          · rw [cover_succ_of_hits hh, cover_of_ge (i := 2 * i + 1) (by omega), List.append_nil]
            refine Run.Equiv.bind (Run.Equiv.refl _) fun acc1 _ => ?_
            refine (afterNode_done P (by omega) (by rw [Nat.pow_succ]; omega) ?_).trans
              (afterNode_done P (by omega) hi ?_).symm
            · rw [show P.seedTreeHeight - (h + 1) = d by omega]
              omega
            · rw [hheight, ← hright, Nat.add_mul (2 * i + 1)]
              omega
      · refine ⟨id, hp.skip hs hh, fun acc => ?_⟩
        rw [cover_of_not_hits hstart hh]
        refine (walkRound_free P ?_).trans ?_
        · rw [hget, hheight]
          exact mt (hp.hits_iff hs).mpr hh
        · simp only [visitAll, List.foldlM_cons, List.foldlM_nil, bind_pure]
          exact Run.Equiv.refl _

/-- The subtrees the walk visits for a challenge. -/
def visited (hDigest : Arr UInt8) : List (Nat × Nat) :=
  cover P.t (excluded P hDigest) P.seedTreeHeight 0 0

/-- The loop of `stree_to_path_to_stree` is the visits to its cover, whatever
    is done there. -/
theorem walk_equiv {hDigest : Arr UInt8} (ht : 1 ≤ P.t) (htH : P.t ≤ 2 ^ P.seedTreeHeight)
    (hw : 1 ≤ P.w) (hcount : (excluded P hDigest).length = P.w)
    (visit : Nat → Nat → τ → Run ε τ) (acc : τ) :
    (walk P hDigest visit acc).Equiv (visitAll visit (visited P hDigest) acc) := by
  have hlt : ∀ j, j < (excluded P hDigest).length → (excluded P hDigest).getD j 0 < P.t := by
    intro j hj
    rw [List.getD_eq_getElem _ _ hj]
    exact (mem_excluded.mp (List.getElem_mem hj)).1
  obtain ⟨id', -, hwalk⟩ := walk_subtree P visit (pairwise_excluded P hDigest) hcount hlt
    (fun j hj => walkIndices_get P hDigest hj) P.seedTreeHeight 0 0 0 (by omega) (by simp) (by omega)
    ⟨by omega, fun j hj => absurd hj (Nat.not_lt_zero j), Or.inl (by omega)⟩
  refine (hwalk acc).trans ?_
  refine (Run.Equiv.bind (Run.Equiv.refl _) fun acc1 _ =>
    afterNode_done P (Nat.zero_le _) (by simp) (by simpa using htH)).trans ?_
  rw [bind_pure]
  exact Run.Equiv.refl _

/-! ## The visited nodes are the maximal free subtrees -/

/-- Leaf `j` lies below the node. -/
def Below (node : Nat × Nat) (j : Nat) : Prop := j / 2 ^ (P.seedTreeHeight - node.1) = node.2

instance (node : Nat × Nat) (j : Nat) : Decidable (Below P node j) :=
  inferInstanceAs (Decidable (j / 2 ^ (P.seedTreeHeight - node.1) = node.2))

/-- A node of the tree that starts before leaf `t` and has no challenged leaf below it. -/
structure FreeSubtree (hDigest : Arr UInt8) (node : Nat × Nat) : Prop where
  level : node.1 ≤ P.seedTreeHeight
  index : node.2 < 2 ^ node.1
  starts : node.2 * 2 ^ (P.seedTreeHeight - node.1) < P.t
  free : ∀ j, j < P.t → hDigest.get j > 0 → ¬ Below P node j

/-- A free subtree that is not part of a larger one. -/
def MaximalSubtree (hDigest : Arr UInt8) (node : Nat × Nat) : Prop :=
  FreeSubtree P hDigest node ∧
    ∀ a, FreeSubtree P hDigest a → a.1 ≤ node.1 → node.2 / 2 ^ (node.1 - a.1) = a.2 → a = node

theorem not_hits_excluded_iff {P : Params} {hDigest : Arr UInt8} {d i : Nat} :
    ¬ Hits (excluded P hDigest) d i ↔ ∀ j, j < P.t → hDigest.get j > 0 → ¬ j / 2 ^ d = i := by
  simp only [Hits, mem_excluded, not_exists, not_and]
  exact ⟨fun h j h1 h2 => h j ⟨h1, h2⟩, fun h j hj => h j hj.1 hj.2⟩

theorem mem_visited_iff {P : Params} {hDigest : Arr UInt8} {node : Nat × Nat} :
    node ∈ visited P hDigest ↔ MaximalSubtree P hDigest node := by
  obtain ⟨h, i⟩ := node
  rw [visited, mem_cover_iff]
  constructor
  · rintro ⟨d, hm⟩
    have hdepth := hm.depth
    have hd : P.seedTreeHeight - h = d := by omega
    have hbelow := hm.below
    rw [Nat.div_eq_iff (Nat.two_pow_pos _), show P.seedTreeHeight - d = h by omega] at hbelow
    have hpos := Nat.two_pow_pos h
    refine ⟨⟨by omega, by simp only; omega, by rw [hd]; exact hm.starts, ?_⟩, ?_⟩
    · intro j h1 h2 h3
      unfold Below at h3
      rw [hd] at h3
      exact not_hits_excluded_iff.mp hm.free j h1 h2 h3
    · -- a free node above it would be one of the ancestors, all of which are hit
      rintro ⟨g, a⟩ ha hle hanc
      simp only at hle hanc
      by_cases hg : g = h
      · subst hg
        rw [Nat.sub_self, Nat.pow_zero, Nat.div_one] at hanc
        rw [hanc]
      · have hhit := hm.ancestors (h - g) (by omega) (by omega)
        rw [hanc, show d + (h - g) = P.seedTreeHeight - g by omega] at hhit
        exact absurd hhit (not_hits_excluded_iff.mpr ha.free)
  · rintro ⟨hf, hmax⟩
    have hlevel := hf.level
    have hindex := hf.index
    simp only at hlevel hindex
    refine ⟨P.seedTreeHeight - h, by omega, by omega, ?_, hf.starts,
      not_hits_excluded_iff.mpr hf.free, ?_⟩
    · rw [Nat.div_eq_iff (Nat.two_pow_pos _),
        show P.seedTreeHeight - (P.seedTreeHeight - h) = h by omega]
      omega
    · intro g hg hle
      -- an ancestor that is not hit would be a larger free subtree
      by_contra hn
      have hheight : P.seedTreeHeight - (h - g) = P.seedTreeHeight - h + g := by omega
      have heq := hmax (h - g, i / 2 ^ g) ⟨by simp only; omega, ?_, ?_, ?_⟩ (by simp only; omega)
        (by simp only; rw [show h - (h - g) = g by omega])
      · have := congrArg Prod.fst heq
        simp only at this
        omega
      · simp only
        rw [Nat.div_lt_iff_lt_mul (Nat.two_pow_pos _), ← Nat.pow_add]
        rwa [show h - g + g = h by omega]
      · refine Nat.lt_of_le_of_lt ?_ hf.starts
        simp only
        rw [hheight, Nat.add_comm, Nat.pow_add, ← Nat.mul_assoc]
        exact Nat.mul_le_mul_right _ (Nat.div_mul_le_self _ _)
      · unfold Below
        rw [hheight]
        exact not_hits_excluded_iff.mp hn

theorem pairwise_visited (hDigest : Arr UInt8) :
    (visited P hDigest).Pairwise (EndsBefore P.seedTreeHeight) :=
  pairwise_cover _ _ _ (Nat.zero_add _)

theorem not_endsBefore_of_below {P : Params} {a b : Nat × Nat} {j : Nat} (ha : Below P a j)
    (hb : Below P b j) : ¬ EndsBefore P.seedTreeHeight a b := by
  intro h
  unfold EndsBefore at h
  unfold Below at ha hb
  rw [Nat.div_eq_iff (Nat.two_pow_pos _)] at ha hb
  have := Nat.two_pow_pos (P.seedTreeHeight - a.1)
  rw [Nat.add_mul, Nat.one_mul] at h
  omega

theorem nodup_visited (hDigest : Arr UInt8) : (visited P hDigest).Nodup :=
  (pairwise_visited P hDigest).imp fun {a b} h hab => by
    subst hab
    have hself : Below P a (a.2 * 2 ^ (P.seedTreeHeight - a.1)) :=
      Nat.mul_div_cancel _ (Nat.two_pow_pos _)
    exact not_endsBefore_of_below hself hself h

/-- A leaf has at most one visited node above it. -/
theorem visited_unique {hDigest : Arr UInt8} {a b : Nat × Nat} {j : Nat}
    (ha : a ∈ visited P hDigest) (hb : b ∈ visited P hDigest) (haj : Below P a j)
    (hbj : Below P b j) : a = b := by
  obtain ⟨x, hx, rfl⟩ := List.getElem_of_mem ha
  obtain ⟨y, hy, rfl⟩ := List.getElem_of_mem hb
  have hp := List.pairwise_iff_getElem.mp (pairwise_visited P hDigest)
  rcases Nat.lt_trichotomy x y with h | h | h
  · exact absurd (hp x y hx hy h) (not_endsBefore_of_below haj hbj)
  · subst h
    rfl
  · exact absurd (hp y x hy hx h) (not_endsBefore_of_below hbj haj)

/-- A leaf that is not challenged has a visited node above it. -/
theorem exists_visited {hDigest : Arr UInt8} {j : Nat} (htH : P.t ≤ 2 ^ P.seedTreeHeight)
    (hj : j < P.t) (h0 : hDigest.get j = 0) : ∃ node ∈ visited P hDigest, Below P node j := by
  have hn : j ∉ excluded P hDigest := by
    rw [mem_excluded, h0]
    exact fun h => absurd h.2 (by decide)
  obtain ⟨d, h, i, hm, hb⟩ := exists_maximalFree (h := 0) (d := P.seedTreeHeight)
    (Nat.div_eq_of_lt (by omega)) hj hn
  refine ⟨(h, i), mem_cover_iff.mpr ⟨d, hm⟩, ?_⟩
  have := hm.depth
  unfold Below
  rw [show P.seedTreeHeight - h = d by omega]
  exact hb

theorem visitAll_pure {f : Nat → Nat → τ → τ} (nodes : List (Nat × Nat)) (acc : τ) :
    visitAll (fun h i acc => (pure (f h i acc) : Run ε τ)) nodes acc
      = pure (nodes.foldl (fun acc node => f node.1 node.2 acc) acc) := by
  induction nodes generalizing acc with
  | nil => rfl
  | cons node nodes ih =>
      rw [visitAll, List.foldlM_cons, pure_bind]
      exact ih _

/-- The walk of `stree_to_path_to_stree` ends, and the nodes it visits are
    exactly the maximal subtrees without a challenged leaf, once each and from
    left to right. -/
theorem walk_visits_exact_cover (hDigest : Arr UInt8) (ht : 1 ≤ P.t)
    (htH : P.t ≤ 2 ^ P.seedTreeHeight) (hw : 1 ≤ P.w)
    (hcount : (excluded P hDigest).length = P.w) :
    ∃ nodes : List (Nat × Nat),
      (walk P hDigest (fun h i log => pure (log ++ [(h, i)])) [] : Run Fault _).Returns nodes ∧
      (∀ (τ : Type) (visit : Nat → Nat → τ → Run Fault τ) (acc : τ),
        (walk P hDigest visit acc).Equiv (visitAll visit nodes acc)) ∧
      nodes.Pairwise (EndsBefore P.seedTreeHeight) ∧ nodes.Nodup ∧
      (∀ node, node ∈ nodes ↔ MaximalSubtree P hDigest node) ∧
      (∀ node ∈ nodes, ∀ j, j < P.t → hDigest.get j > 0 → ¬ Below P node j) ∧
      ∀ j, j < P.t → hDigest.get j = 0 → ∃! node, node ∈ nodes ∧ Below P node j := by
  refine ⟨visited P hDigest, ?_, fun τ visit acc => walk_equiv P ht htH hw hcount visit acc,
    pairwise_visited P hDigest, nodup_visited P hDigest, fun node => mem_visited_iff, ?_, ?_⟩
  · refine ((walk_equiv P ht htH hw hcount _ _).returns _).mpr ?_
    rw [visitAll_pure, Run.returns_pure]
    have hlog : ∀ (nodes log : List (Nat × Nat)),
        nodes.foldl (fun acc node => acc ++ [(node.1, node.2)]) log = log ++ nodes := by
      intro nodes
      induction nodes with
      | nil => simp
      | cons node nodes ih => intro log; simp [ih]
    rw [hlog, List.nil_append]
  · intro node hnode
    exact (mem_visited_iff.mp hnode).1.free
  · intro j hj h0
    obtain ⟨node, hmem, hb⟩ := exists_visited P htH hj h0
    exact ⟨node, ⟨hmem, hb⟩, fun node' h' => visited_unique P h'.1 hmem h'.2 hb⟩

/-- Five leaves in a tree of height 3, two of them challenged. -/
def fiveLeaves : Params := { tiny with t := 5, w := 2, seedTreeHeight := 3, seedTreeSize := 15 }

theorem walk_visits_exact_cover_fiveLeaves :
    ∃ nodes : List (Nat × Nat),
      (walk fiveLeaves ⟨[0, 1, 0, 0, 2]⟩ (fun h i log => pure (log ++ [(h, i)])) [] :
        Run Fault _).Returns nodes ∧
      nodes.Nodup ∧ ∀ node, node ∈ nodes ↔ MaximalSubtree fiveLeaves ⟨[0, 1, 0, 0, 2]⟩ node := by
  obtain ⟨nodes, hwalk, -, -, hnodup, hmax, -⟩ :=
    walk_visits_exact_cover fiveLeaves ⟨[0, 1, 0, 0, 2]⟩ (by decide) (by decide)
      (by decide) (by decide)
  exact ⟨nodes, hwalk, hnodup, hmax⟩

example : visited fiveLeaves ⟨[0, 1, 0, 0, 2]⟩ = [(3, 0), (2, 1)] := by decide

end

end Meds.Ref
