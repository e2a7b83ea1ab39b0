/-
  Meds.Ref.WalkBounds

  The walk of ref/seed.c with the checks that its `int` level and its array
  accesses call for.  `h` is signed here, so a climb above the root is seen;
  the walk stops where `h` leaves 0, …, H, where `SEED_TREE_ADDR(h, i)` lies
  behind the tree, and where `id` or `idx` lies behind `MEDS_w` entries.

  None of this happens, whatever the array `indices` holds.  A round descends
  without moving the first leaf of the current subtree, and the step to the
  next node moves it on by at least one leaf, so the distance of that leaf
  from `t` goes down in every round.
-/

import Meds.Ref.ChallengeShape

namespace Meds.Ref

open Meds.Core

/-- The faults of the checked walk; `access` are those of the bounded
    programs and of the visits. -/
inductive WalkFault where
  | level
  | address
  | indices
  | access (f : AccessFault)
deriving DecidableEq, Repr

def WalkFault.ofFault (f : Fault) : WalkFault := .access (.ofFault f)

/-- `h`, `i` and `id`, with the sign of `h`. -/
structure IntPos where
  h : Int
  i : Nat
  id : Nat
deriving DecidableEq, Repr

/-- A position of the walk as the source holds it. -/
def WalkPos.toInt (pos : WalkPos) : IntPos := ⟨pos.h, pos.i, pos.id⟩

section

variable (P : Params)

/-- The shift count `MEDS_seed_tree_height - h`. -/
def levelShift (h : Int) : Run WalkFault Nat :=
  if 0 ≤ h ∧ h ≤ P.seedTreeHeight then pure (P.seedTreeHeight - h.toNat) else Run.fail .level

/-- `SEED_TREE_ADDR(h, i)` within the tree. -/
def treeAddr (h : Int) (i : Nat) : Run WalkFault Nat :=
  if 0 ≤ h ∧ h ≤ P.seedTreeHeight then
    if seedTreeAddr h.toNat i < 2 ^ (P.seedTreeHeight + 1) - 1 then pure (seedTreeAddr h.toNat i)
    else Run.fail .address
  else Run.fail .level

/-- `indices[id]`. -/
def indexAt (indices : Arr Nat) (id : Nat) : Run WalkFault Nat :=
  if id < P.w then pure (indices.get id) else Run.fail .indices

variable {τ : Type}

/-- One test and round of `descend`, checked. -/
def descendRound (indices : Arr Nat) (pos : IntPos) :
    Run WalkFault (IntPos ⊕ IntPos × Bool) := do
  let index ← indexAt P indices pos.id
  let shift ← levelShift P pos.h
  if index >>> shift = pos.i then
    let h := pos.h + 1
    let i := pos.i <<< 1
    if h > P.seedTreeHeight then
      pure (.inr (⟨h - 1, i >>> 1, if pos.id + 1 < P.w then pos.id + 1 else pos.id⟩, true))
    else pure (.inl ⟨h, i, pos.id⟩)
  else pure (.inr (pos, false))

/-- `descend`, checked. -/
def descendChecked (indices : Arr Nat) : IntPos → Run WalkFault (IntPos × Bool) :=
  Run.loop (descendRound P indices)

/-- `backtrack`, checked. -/
def backtrackChecked : Int × Nat → Run WalkFault (Int × Nat) :=
  Run.loop fun s =>
    if s.2 &&& 1 = 1 then
      if 0 ≤ s.1 - 1 then pure (.inl (s.1 - 1, s.2 >>> 1)) else Run.fail .level
    else pure (.inr s)

/-- `nextNode`, checked. -/
def nextNodeChecked (pos : IntPos) (acc : τ) : Run WalkFault (IntPos × τ ⊕ τ) := do
  let s ← backtrackChecked (pos.h, pos.i)
  let i := s.2 + 1
  let shift ← levelShift P s.1
  if i <<< shift ≥ P.t then pure (.inr acc) else pure (.inl (⟨s.1, i, pos.id⟩, acc))

/-- `walkRound`, checked; the visit comes after its address. -/
def walkRoundChecked (indices : Arr Nat) (visit : Nat → Nat → τ → Run Fault τ) (s : IntPos × τ) :
    Run WalkFault (IntPos × τ ⊕ τ) := do
  let d ← descendChecked P indices s.1
  let acc ← (if d.2 then pure s.2 else do
    let _ ← treeAddr P d.1.h d.1.i
    (visit d.1.h.toNat d.1.i s.2).mapFault .ofFault)
  nextNodeChecked P d.1 acc

/-- `walk`, checked. -/
def walkChecked (hDigest : Arr UInt8) (visit : Nat → Nat → τ → Run Fault τ) (acc : τ) :
    Run WalkFault τ := do
  let indices ← (walkIndicesBounded P hDigest).mapFault .access
  Run.loop (walkRoundChecked P indices visit) (⟨0, 0, 0⟩, acc)

/-- `stree_to_path_to_stree`, checked. -/
def streeToPathToStreeChecked (SHAKE256 : Shake) (mode : Mode) (mem : Nat → Option UInt8)
    (hDigest : Arr UInt8) (salt : List UInt8) (st : PathState) : Run WalkFault PathState :=
  walkChecked P hDigest (visitNode P SHAKE256 mode mem salt) st

/-! ## Positions in the tree -/

/-- A position of the walk: a node of the tree that starts before leaf `t`,
    and an entry of `indices`. -/
structure InTree (pos : WalkPos) : Prop where
  level : pos.h ≤ P.seedTreeHeight
  index : pos.i < 2 ^ pos.h
  id_lt : pos.id < P.w

/-- The first leaf below a position. -/
def firstLeaf (pos : WalkPos) : Nat := pos.i * 2 ^ (P.seedTreeHeight - pos.h)

variable {P}

theorem levelShift_eq {h : Nat} (hh : h ≤ P.seedTreeHeight) :
    levelShift P (h : Int) = pure (P.seedTreeHeight - h) :=
  if_pos ⟨Int.natCast_nonneg h, Int.ofNat_le.mpr hh⟩

theorem treeAddr_eq {h i : Nat} (hh : h ≤ P.seedTreeHeight) (hi : i < 2 ^ h) :
    treeAddr P (h : Int) i = pure (seedTreeAddr h i) := by
  have hbound : seedTreeAddr h i < 2 ^ (P.seedTreeHeight + 1) - 1 := by
    rw [seedTreeAddr_eq]
    have hpow : 2 ^ (h + 1) ≤ 2 ^ (P.seedTreeHeight + 1) :=
      Nat.pow_le_pow_right (by decide) (Nat.succ_le_succ hh)
    rw [Nat.pow_succ] at hpow
    omega
  rw [treeAddr, if_pos ⟨Int.natCast_nonneg h, Int.ofNat_le.mpr hh⟩, Int.toNat_natCast,
    if_pos hbound]

theorem indexAt_eq (indices : Arr Nat) {id : Nat} (h : id < P.w) :
    indexAt P indices id = pure (indices.get id) := if_pos h

/-! ## The loops -/

section

variable {indices : Arr Nat} {h i id : Nat}

theorem descendRound_eq (hh : h ≤ P.seedTreeHeight) (hid : id < P.w) :
    descendRound P indices ⟨h, i, id⟩ =
      if indices.get id / 2 ^ (P.seedTreeHeight - h) = i then
        if h = P.seedTreeHeight then
          pure (.inr (⟨h, i, if id + 1 < P.w then id + 1 else id⟩, true))
        else pure (.inl ⟨(h + 1 : Nat), 2 * i, id⟩)
      else pure (.inr (⟨h, i, id⟩, false)) := by
  rw [descendRound, indexAt_eq indices hid, pure_bind, levelShift_eq hh, pure_bind,
    Nat.shiftRight_eq_div_pow]
  by_cases hleaf : h = P.seedTreeHeight
  · have hgt : (h : Int) + 1 > P.seedTreeHeight := by omega
    simp only [hgt, if_true, if_pos hleaf, Int.add_sub_cancel, Nat.shiftLeft_shiftRight]
  · have hle : ¬ (h : Int) + 1 > P.seedTreeHeight := by omega
    simp only [hle, if_false, if_neg hleaf, Nat.shiftLeft_eq, Nat.pow_one, Nat.mul_comm i 2,
      Int.natCast_add, Int.cast_ofNat_Int]

/-- The descent ends within the tree and keeps the first leaf. -/
theorem descend_returns {pos : WalkPos} (hpos : InTree P pos) :
    ∃ pos' leaf, (descend P indices pos : Run Fault _).Returns (pos', leaf) ∧
      (descendChecked P indices pos.toInt).Returns (pos'.toInt, leaf) ∧ InTree P pos' ∧
      firstLeaf P pos' = firstLeaf P pos := by
  obtain ⟨d, hd⟩ : ∃ d, P.seedTreeHeight - pos.h = d := ⟨_, rfl⟩
  -- induction on the height of the current node
  induction d generalizing pos with
  | zero =>
      obtain ⟨h, i, id⟩ := pos
      have hround := @descendRound_eq P indices _ i _ hpos.level hpos.id_lt
      simp only at hd hround
      obtain rfl : h = P.seedTreeHeight := Nat.le_antisymm hpos.level (by omega)
      rw [Nat.sub_self, Nat.pow_zero, Nat.div_one, if_pos rfl] at hround
      by_cases hhit : indices.get id = i
      · -- the level goes one too far and comes back
        rw [if_pos hhit] at hround
        have hid : (if id + 1 < P.w then id + 1 else id) < P.w := by
          have := hpos.id_lt
          split <;> assumption
        exact ⟨_, true, descend_leaf P hhit,
          Run.returns_loop_break (hround ▸ Run.returns_pure.mpr rfl),
          ⟨hpos.level, hpos.index, hid⟩, rfl⟩
      · rw [if_neg hhit] at hround
        refine ⟨⟨P.seedTreeHeight, i, id⟩, false, descend_stop P ?_,
          Run.returns_loop_break (hround ▸ Run.returns_pure.mpr rfl), hpos, rfl⟩
        simpa using hhit
  | succ d ih =>
      obtain ⟨h, i, id⟩ := pos
      have hround := @descendRound_eq P indices _ i _ hpos.level hpos.id_lt
      have hindex := hpos.index
      simp only at hd hround hindex
      have hlt : h < P.seedTreeHeight := by omega
      rw [if_neg (Nat.ne_of_lt hlt)] at hround
      by_cases hhit : indices.get id / 2 ^ (P.seedTreeHeight - h) = i
      · -- on to the left child
        rw [if_pos hhit] at hround
        have hchild : 2 * i < 2 ^ (h + 1) := by
          rw [Nat.pow_succ]
          omega
        obtain ⟨pos', leaf, hrun, hchecked, htree, hfirst⟩ := @ih ⟨h + 1, 2 * i, id⟩
          ⟨hlt, hchild, hpos.id_lt⟩ (by simp only; omega)
        refine ⟨pos', leaf, ((descend_child P hlt hhit).returns _).mpr hrun,
          Run.returns_loop_continue (hround ▸ Run.returns_pure.mpr rfl) hchecked, htree, ?_⟩
        rw [hfirst, firstLeaf, firstLeaf,
          show P.seedTreeHeight - h = (P.seedTreeHeight - (h + 1)) + 1 by omega, Nat.pow_succ]
        ring
      · rw [if_neg hhit] at hround
        exact ⟨⟨h, i, id⟩, false, descend_stop P hhit,
          Run.returns_loop_break (hround ▸ Run.returns_pure.mpr rfl), hpos, rfl⟩

/-- The climb stays at or below the root and keeps the right edge. -/
theorem backtrackChecked_returns {H : Nat} (hh : h ≤ H) (hi : i < 2 ^ h) :
    ∃ h' i', (backtrack (h, i) : Run Fault _).Returns (h', i') ∧
      (backtrackChecked ((h : Int), i)).Returns ((h' : Int), i') ∧ h' ≤ H ∧ i' + 1 ≤ 2 ^ h' ∧
      (i' + 1) * 2 ^ (H - h') = (i + 1) * 2 ^ (H - h) := by
  have heven : ∀ g j, (backtrackChecked ((g : Int), 2 * j)).Returns ((g : Int), 2 * j) := by
    intro g j
    apply Run.returns_loop_break
    simp only [Nat.and_one_is_mod, show 2 * j % 2 ≠ 1 by omega, if_false, Run.returns_pure]
  induction h generalizing i with
  | zero =>
      -- the root is a left child, so the climb stops there at the latest
      obtain rfl : i = 0 := by omega
      exact ⟨0, 0, backtrack_even 0 0, heven 0 0, hh, by simp, rfl⟩
  | succ h ih =>
      rcases Nat.even_or_odd' i with ⟨j, rfl | rfl⟩
      · exact ⟨h + 1, 2 * j, backtrack_even _ _, heven _ _, hh, hi, rfl⟩
      · rw [Nat.pow_succ] at hi
        obtain ⟨h', i', hr, hrc, hle, hlt, hedge⟩ := @ih j (by omega) (by omega)
        have hround : (if (2 * j + 1) &&& 1 = 1 then
            if 0 ≤ ((h + 1 : Nat) : Int) - 1 then
              (pure (Sum.inl (((h + 1 : Nat) : Int) - 1, (2 * j + 1) >>> 1)) :
                Run WalkFault (Int × Nat ⊕ Int × Nat))
            else Run.fail .level
          else pure (Sum.inr (((h + 1 : Nat) : Int), 2 * j + 1)))
            = pure (Sum.inl ((h : Int), j)) := by
          rw [if_pos (by rw [Nat.and_one_is_mod]; omega), if_pos (by omega),
            show ((h + 1 : Nat) : Int) - 1 = h by omega,
            show (2 * j + 1) >>> 1 = j by rw [Nat.shiftRight_eq_div_pow]; omega]
        refine ⟨h', i', ((backtrack_odd h j).returns _).mpr hr,
          Run.returns_loop_continue (hround ▸ Run.returns_pure.mpr rfl) hrc, hle, hlt, ?_⟩
        rw [hedge, show H - h = (H - (h + 1)) + 1 by omega, Nat.pow_succ]
        ring

end

/-! ## The walk -/

/-- The step to the next node ends the walk or moves the first leaf on. -/
theorem nextNode_returns (htH : P.t ≤ 2 ^ P.seedTreeHeight) {pos : WalkPos} (hpos : InTree P pos) :
    (∀ (τ : Type) (acc : τ), (nextNode P pos acc : Run Fault _).Returns (.inr acc) ∧
        (nextNodeChecked P pos.toInt acc).Returns (.inr acc)) ∨
      ∃ pos', (∀ (τ : Type) (acc : τ),
          (nextNode P pos acc : Run Fault _).Returns (.inl (pos', acc)) ∧
          (nextNodeChecked P pos.toInt acc).Returns (.inl (pos'.toInt, acc))) ∧
        InTree P pos' ∧ firstLeaf P pos < firstLeaf P pos' ∧ firstLeaf P pos' < P.t := by
  obtain ⟨h, i, hr, hrc, hle, hlt, hedge⟩ := backtrackChecked_returns hpos.level hpos.index
  by_cases hend : (i + 1) <<< (P.seedTreeHeight - h) ≥ P.t
  · refine Or.inl fun τ acc => ⟨Run.returns_bind.mpr ⟨_, hr, ?_⟩, Run.returns_bind.mpr ⟨_, hrc, ?_⟩⟩
    · simp only [hend, if_true]
      exact Run.returns_pure.mpr rfl
    · simp only [levelShift_eq hle, pure_bind, hend, if_true]
      exact Run.returns_pure.mpr rfl
  · refine Or.inr ⟨⟨h, i + 1, pos.id⟩, fun τ acc => ⟨Run.returns_bind.mpr ⟨_, hr, ?_⟩,
      Run.returns_bind.mpr ⟨_, hrc, ?_⟩⟩, ⟨hle, ?_, hpos.id_lt⟩, ?_, ?_⟩
    · simp only [hend, if_false]
      exact Run.returns_pure.mpr rfl
    · simp only [levelShift_eq hle, pure_bind, hend, if_false]
      exact Run.returns_pure.mpr rfl
    · -- a node that starts before leaf `t` is one of its level
      rw [Nat.shiftLeft_eq] at hend
      have hpow : 2 ^ h * 2 ^ (P.seedTreeHeight - h) = 2 ^ P.seedTreeHeight := by
        rw [← Nat.pow_add, Nat.add_sub_cancel' hle]
      have hmul : (i + 1) * 2 ^ (P.seedTreeHeight - h) < 2 ^ h * 2 ^ (P.seedTreeHeight - h) := by
        omega
      exact Nat.lt_of_mul_lt_mul_right hmul
    · rw [firstLeaf, firstLeaf, hedge]
      exact Nat.mul_lt_mul_of_pos_right (Nat.lt_succ_self _) (Nat.two_pow_pos _)
    · rw [firstLeaf, ← Nat.shiftLeft_eq]
      exact Nat.lt_of_not_le hend

/-- From a position on, both walks are the visits to a list of nodes of the tree. -/
theorem walkRound_visits (htH : P.t ≤ 2 ^ P.seedTreeHeight) (indices : Arr Nat) {pos : WalkPos}
    (hpos : InTree P pos) (hstart : firstLeaf P pos < P.t) :
    ∃ nodes : List (Nat × Nat), (∀ node ∈ nodes, node.1 ≤ P.seedTreeHeight ∧ node.2 < 2 ^ node.1) ∧
      ∀ (τ : Type) (visit : Nat → Nat → τ → Run Fault τ) (acc : τ),
        (Run.loop (walkRound P indices visit) (pos, acc)).Equiv (visitAll visit nodes acc) ∧
        (Run.loop (walkRoundChecked P indices visit) (pos.toInt, acc)).Equiv
          ((visitAll visit nodes acc).mapFault .ofFault) := by
  obtain ⟨d, hd⟩ : ∃ d, P.t - firstLeaf P pos = d := ⟨_, rfl⟩
  -- induction on the leaves that are left
  induction d using Nat.strong_induction_on generalizing pos with
  | _ d ih =>
      obtain ⟨pos', leaf, hrun, hchecked, htree, hfirst⟩ := @descend_returns P indices _ hpos
      -- what follows the visit of this round
      obtain ⟨rest, hrest, hafter⟩ : ∃ rest : List (Nat × Nat),
          (∀ node ∈ rest, node.1 ≤ P.seedTreeHeight ∧ node.2 < 2 ^ node.1) ∧
          ∀ (τ : Type) (visit : Nat → Nat → τ → Run Fault τ) (acc : τ),
            (nextNode P pos' acc >>= Sum.elim (Run.loop (walkRound P indices visit)) pure).Equiv
              (visitAll visit rest acc) ∧
            (nextNodeChecked P pos'.toInt acc >>=
                Sum.elim (Run.loop (walkRoundChecked P indices visit)) pure).Equiv
              ((visitAll visit rest acc).mapFault .ofFault) := by
        rcases nextNode_returns htH htree with hend | ⟨pos'', hnext, htree', hadvance, hlt⟩
        · exact ⟨[], by simp, fun τ visit acc =>
            ⟨(hend τ acc).1.bind_equiv _, (hend τ acc).2.bind_equiv _⟩⟩
        · obtain ⟨nodes, hnodes, hvisits⟩ :=
            ih (P.t - firstLeaf P pos'') (by omega) htree' hlt rfl
          exact ⟨nodes, hnodes, fun τ visit acc =>
            ⟨((hnext τ acc).1.bind_equiv _).trans (hvisits τ visit acc).1,
              ((hnext τ acc).2.bind_equiv _).trans (hvisits τ visit acc).2⟩⟩
      cases leaf with
      | true =>
          refine ⟨rest, hrest, fun τ visit acc => ⟨?_, ?_⟩⟩
          · refine (Run.loop_equiv _ _).trans ?_
            rw [walkRound, bind_assoc]
            exact (hrun.bind_equiv _).trans (hafter τ visit acc).1
          · refine (Run.loop_equiv _ _).trans ?_
            rw [walkRoundChecked, bind_assoc]
            exact (hchecked.bind_equiv _).trans (hafter τ visit acc).2
      | false =>
          refine ⟨(pos'.h, pos'.i) :: rest, ?_, fun τ visit acc => ⟨?_, ?_⟩⟩
          · intro node hnode
            rcases List.mem_cons.mp hnode with rfl | hnode
            · exact ⟨htree.level, htree.index⟩
            · exact hrest node hnode
          · refine (Run.loop_equiv _ _).trans ?_
            rw [walkRound, bind_assoc, visitAll, List.foldlM_cons]
            refine (hrun.bind_equiv _).trans ?_
            simp only [Bool.false_eq_true, if_false, bind_assoc]
            exact Run.Equiv.bind (Run.Equiv.refl _) fun acc' _ => (hafter τ visit acc').1
          · refine (Run.loop_equiv _ _).trans ?_
            rw [walkRoundChecked, bind_assoc, visitAll, List.foldlM_cons, Run.mapFault_bind]
            refine (hchecked.bind_equiv _).trans ?_
            simp only [WalkPos.toInt, Bool.false_eq_true, if_false,
              treeAddr_eq htree.level htree.index, pure_bind, Int.toNat_natCast, bind_assoc]
            exact Run.Equiv.bind (Run.Equiv.refl _) fun acc' _ => (hafter τ visit acc').2

/-- Visits that always return make a run that returns. -/
theorem visitAll_returns {τ : Type} {visit : Nat → Nat → τ → Run Fault τ} {nodes : List (Nat × Nat)}
    (hvisit : ∀ node ∈ nodes, ∀ acc, ∃ acc', (visit node.1 node.2 acc).Returns acc') (acc : τ) :
    ∃ acc', (visitAll visit nodes acc).Returns acc' := by
  induction nodes generalizing acc with
  | nil => exact ⟨acc, Run.returns_pure.mpr rfl⟩
  | cons node nodes ih =>
      obtain ⟨acc₁, h₁⟩ := hvisit node List.mem_cons_self acc
      obtain ⟨acc', h'⟩ := ih (fun n hn => hvisit n (List.mem_cons_of_mem _ hn)) acc₁
      exact ⟨acc', by rw [visitAll, List.foldlM_cons, Run.returns_bind]; exact ⟨acc₁, h₁, h'⟩⟩

theorem visitNode_returns (SHAKE256 : Shake) {mode : Mode} {mem : Nat → Option UInt8}
    (hmem : mode = .streeToPath ∨ ∀ x, (mem x).isSome) (salt : List UInt8) (h i : Nat)
    (st : PathState) : ∃ st', (visitNode P SHAKE256 mode mem salt h i st).Returns st' := by
  cases mode with
  | streeToPath => exact ⟨_, Run.returns_pure.mpr rfl⟩
  | pathToStree =>
      have hread : readBytes mem st.pos P.stSeedBytes
          = some ((List.range P.stSeedBytes).map fun j => (mem (st.pos + j)).getD 0) := by
        refine mapM_eq_some_map fun j _ => ?_
        obtain ⟨v, hv⟩ := Option.isSome_iff_exists.mp
          (hmem.resolve_left (by simp) (st.pos + j))
        rw [hv, Option.getD_some]
      rw [visitNode, hread, Run.ofOption_some, pure_bind]
      exact ⟨_, Run.returns_pure.mpr rfl⟩

/-- The path walk ends and stays inside the tree for every challenge of at
    most `w` nonzero entries: the checked walk is the walk of the source, its
    only faults are those of the visits, and it returns when they do. -/
theorem walkChecked_returns (SHAKE256 : Shake) (ht : 1 ≤ P.t) (htH : P.t ≤ 2 ^ P.seedTreeHeight)
    (hw : 1 ≤ P.w) (hDigest : Arr UInt8) (hcount : challenged hDigest P.t ≤ P.w) :
    (∃ nodes : List (Nat × Nat),
      (∀ node ∈ nodes, node.1 ≤ P.seedTreeHeight ∧ node.2 < 2 ^ node.1) ∧
      ∀ (τ : Type) (visit : Nat → Nat → τ → Run Fault τ) (acc : τ),
        (walk P hDigest visit acc).Equiv (visitAll visit nodes acc) ∧
        (walkChecked P hDigest visit acc).Equiv ((walk P hDigest visit acc).mapFault .ofFault)) ∧
    ∀ mode mem salt st, mode = .streeToPath ∨ (∀ x, (mem x).isSome) →
      ∃ st', (streeToPathToStreeChecked P SHAKE256 mode mem hDigest salt st).Returns st' ∧
        (streeToPathToStree P SHAKE256 mode mem hDigest salt st).Returns st' := by
  have hroot : InTree P ⟨0, 0, 0⟩ := ⟨Nat.zero_le _, Nat.one_pos, hw⟩
  obtain ⟨nodes, hnodes, hvisits⟩ := walkRound_visits htH (walkIndices P hDigest) hroot
    (by rw [firstLeaf, Nat.zero_mul]; exact ht)
  have hchecked : ∀ (τ : Type) (visit : Nat → Nat → τ → Run Fault τ) (acc : τ),
      (walkChecked P hDigest visit acc).Equiv ((walk P hDigest visit acc).mapFault .ofFault) := by
    intro τ visit acc
    obtain ⟨hwalk, hwalkChecked⟩ := hvisits τ visit acc
    rw [walkChecked, walkIndicesBounded_eq hcount, Run.mapFault_pure, pure_bind]
    exact hwalkChecked.trans hwalk.symm.mapFault
  refine ⟨⟨nodes, hnodes, fun τ visit acc => ⟨(hvisits τ visit acc).1, hchecked τ visit acc⟩⟩,
    fun mode mem salt st hmem => ?_⟩
  obtain ⟨st', hret⟩ := @visitAll_returns _ _ nodes
    (fun node _ => visitNode_returns SHAKE256 hmem salt node.1 node.2) st
  have hrun := ((hvisits _ _ st).1.returns st').mpr hret
  exact ⟨st', ((hchecked _ _ st).returns st').mpr (Run.returns_mapFault.mpr hrun), hrun⟩

/-- One challenged leaf where two entries of `indices` are kept for them. -/
theorem walkChecked_returns_fiveLeaves : ∃ st',
    (streeToPathToStreeChecked fiveLeaves toyShake .streeToPath (fun _ => none) ⟨[0, 0, 0, 7, 0]⟩
      [9] ⟨⟨[5]⟩, Arr.empty, 0⟩).Returns st' := by
  obtain ⟨-, hreturns⟩ := walkChecked_returns (P := fiveLeaves) toyShake (by decide) (by decide)
    (by decide) ⟨[0, 0, 0, 7, 0]⟩ (by decide)
  obtain ⟨st', hret, -⟩ := hreturns .streeToPath (fun _ => none) [9] ⟨⟨[5]⟩, Arr.empty, 0⟩
    (Or.inl rfl)
  exact ⟨st', hret⟩

end

end Meds.Ref
