/-
  Meds.Ref.SeedRegrow

  `t_hash` regrows a subtree in place.  Seen byte by byte: it writes inside
  the proper descendants of its node only, each descendant that starts before
  leaf `t` gets the seed derived from the node, and the ones past leaf `t`
  keep their bytes.  A tree grown from the root is therefore a fixed point of
  `t_hash` at every node, and the leaves a signer has overwritten come back
  when it grows the tree once more.
-/

import Meds.Ref.SeedPath

namespace Meds.Ref

open Meds.Core

section

variable (P : Params) (SHAKE256 : Shake)

/-- `node'` lies strictly below `node` in a tree of height `H`. -/
structure ProperDescendant (H : Nat) (node node' : Nat × Nat) : Prop where
  level : node.1 < node'.1
  height : node'.1 ≤ H
  index : node'.2 < 2 ^ node'.1
  below : node'.2 / 2 ^ (node'.1 - node.1) = node.2

/-- Byte `x` of the tree belongs to the seed of `node`. -/
def InNode (node : Nat × Nat) (x : Nat) : Prop :=
  P.stSeedBytes * seedTreeAddr node.1 node.2 ≤ x ∧
    x < P.stSeedBytes * seedTreeAddr node.1 node.2 + P.stSeedBytes

variable {P} in
theorem InNode.get_eq {T T' : Arr UInt8} {node : Nat × Nat} {x : Nat} (hx : InNode P node x)
    (heq : seedAt P T node.1 node.2 = seedAt P T' node.1 node.2) : T.get x = T'.get x := by
  obtain ⟨j, hj⟩ := Nat.exists_eq_add_of_le hx.1
  have hlt : j < P.stSeedBytes := by
    have := hx.2
    omega
  have hbyte := congrArg (fun seed => seed.getD j default) heq
  simp only [seedAt, Arr.getD_slice _ _ _ _ hlt, ← hj] at hbyte
  exact hbyte

/-- Every address is the address of some node. -/
theorem exists_seedTreeAddr_eq (a : Nat) : ∃ h i, i < 2 ^ h ∧ seedTreeAddr h i = a := by
  have hlow : 2 ^ Nat.log 2 (a + 1) ≤ a + 1 := Nat.pow_log_le_self 2 (Nat.succ_ne_zero a)
  have hhigh : a + 1 < 2 ^ Nat.log 2 (a + 1) * 2 := by
    rw [← Nat.pow_succ]
    exact Nat.lt_pow_succ_log_self (by decide) _
  have hone : 1 ≤ 2 ^ Nat.log 2 (a + 1) := Nat.one_le_two_pow
  refine ⟨Nat.log 2 (a + 1), a + 1 - 2 ^ Nat.log 2 (a + 1), by omega, ?_⟩
  rw [seedTreeAddr_eq]
  omega

/-- Every byte belongs to some node, of a level below the leaves when it lies
    behind the tree. -/
theorem exists_inNode (hpos : 0 < P.stSeedBytes) (x : Nat) :
    ∃ node : Nat × Nat, node.2 < 2 ^ node.1 ∧ InNode P node x := by
  obtain ⟨h, i, hi, haddr⟩ := exists_seedTreeAddr_eq (x / P.stSeedBytes)
  refine ⟨(h, i), hi, ?_⟩
  simp only [InNode, haddr]
  exact ⟨Nat.mul_div_le x _, Nat.lt_mul_div_succ x hpos⟩

/-- A byte belongs to one node only. -/
theorem InNode.unique {P : Params} {node node' : Nat × Nat} {x : Nat} (hx : InNode P node x)
    (hx' : InNode P node' x) (hi : node.2 < 2 ^ node.1) (hi' : node'.2 < 2 ^ node'.1) :
    node = node' := by
  have haddr : seedTreeAddr node.1 node.2 = seedTreeAddr node'.1 node'.2 := by
    have hlt : ∀ a b : Nat × Nat, InNode P a x → InNode P b x →
        seedTreeAddr a.1 a.2 < seedTreeAddr b.1 b.2 + 1 := by
      intro a b ha hb
      have hmul := Nat.lt_of_le_of_lt ha.1 hb.2
      rw [← Nat.mul_succ] at hmul
      exact Nat.lt_of_mul_lt_mul_left hmul
    have h1 := hlt node node' hx hx'
    have h2 := hlt node' node hx' hx
    omega
  obtain ⟨h1, h2⟩ := seedTreeAddr_inj hi hi' haddr
  exact Prod.ext h1 h2

/-! ## What stays -/

/-- Without seed bytes nothing is written. -/
theorem tHash_of_stSeedBytes_eq_zero (hzero : P.stSeedBytes = 0) (salt : List UInt8)
    (stree : Arr UInt8) (h i : Nat) : tHash P SHAKE256 salt stree h i = stree := by
  have hlevel : ∀ g a b T, tHashLevel P SHAKE256 salt g a b T = T := by
    intro g a b T
    refine forBreak_preserves (fun T' => T' = T) (fun q T' hT' => ?_) rfl
    by_cases hcut : (a + 2 * q) <<< (P.seedTreeHeight - g) ≥ P.t
    · rw [if_pos hcut]
      exact hT'
    · rw [if_neg hcut, ← hT']
      simp [tHashNode, hzero, shake256Squeeze, streamSlice, Arr.blit]
  unfold tHash
  refine forBreak_preserves (fun s : Nat × Nat × Arr UInt8 => s.2.2 = stree) (fun g s hs => ?_) rfl
  by_cases hcut : s.1 <<< 1 <<< (P.seedTreeHeight - g) ≥ P.t
  · simp only [hcut, if_true]
    exact hs
  · simp only [hcut, if_false]
    rw [hlevel]
    exact hs

/-- A byte changes only where a proper descendant starts before leaf `t`. -/
theorem get_tHash_of_kept (salt : List UInt8) (stree : Arr UInt8) {h i x : Nat} (hi : i < 2 ^ h)
    (hstart : i * 2 ^ (P.seedTreeHeight - h) < P.t)
    (hkept : ∀ node, ProperDescendant P.seedTreeHeight (h, i) node → InNode P node x →
      P.t ≤ node.2 * 2 ^ (P.seedTreeHeight - node.1)) :
    (tHash P SHAKE256 salt stree h i).get x = stree.get x := by
  rcases Nat.eq_zero_or_pos P.stSeedBytes with hzero | hpos
  · rw [tHash_of_stSeedBytes_eq_zero P SHAKE256 hzero]
  · obtain ⟨node, hnode, hx⟩ := exists_inNode P hpos x
    refine hx.get_eq ?_
    rw [seedAt_tHash_below P SHAKE256 salt stree hi hstart hnode, if_neg]
    rintro ⟨hlevel, hheight, hbelow, hlt⟩
    have := hkept node ⟨hlevel, Nat.le_of_lt_succ hheight, hnode, hbelow⟩ hx
    omega

/-! ## Growing again -/

/-- Two trees whose seeds agree at every node agree on every byte. -/
theorem get_eq_of_seedAt_eq {T T' : Arr UInt8} (hzero : P.stSeedBytes = 0 → T = T')
    (heq : ∀ h i, i < 2 ^ h → seedAt P T h i = seedAt P T' h i) (x : Nat) : T.get x = T'.get x := by
  rcases Nat.eq_zero_or_pos P.stSeedBytes with h0 | hpos
  · rw [hzero h0]
  · obtain ⟨node, hnode, hx⟩ := exists_inNode P hpos x
    exact hx.get_eq (heq node.1 node.2 hnode)

/-- A derived tree stays as it is when a subtree is grown again. -/
theorem get_tHash_of_derived {salt : List UInt8} {T : Arr UInt8} (hT : Derived P SHAKE256 salt T)
    {h i : Nat} (hi : i < 2 ^ h) (hstart : i * 2 ^ (P.seedTreeHeight - h) < P.t) (x : Nat) :
    (tHash P SHAKE256 salt T h i).get x = T.get x := by
  refine get_eq_of_seedAt_eq P (fun h0 => tHash_of_stSeedBytes_eq_zero P SHAKE256 h0 _ _ _ _)
    (fun h' i' hi' => ?_) x
  rw [seedAt_tHash_below P SHAKE256 salt T hi hstart hi']
  by_cases hc : h < h' ∧ h' < P.seedTreeHeight + 1 ∧ i' / 2 ^ (h' - h) = i ∧
      i' * 2 ^ (P.seedTreeHeight - h') < P.t
  · obtain ⟨hlevel, hheight, hbelow, hlt⟩ := hc
    have hsum : h + (h' - h) = h' := by omega
    have hd := hT h (h' - h) i' (by omega) (by rwa [hsum]) (by rwa [hsum])
    rw [hsum, hbelow] at hd
    rw [if_pos ⟨hlevel, hheight, hbelow, hlt⟩, hd]
  · rw [if_neg hc]

/-- Growing from the root brings back the leaves before `t`, whatever they hold. -/
theorem get_tHash_root_of_overwritten {salt : List UInt8} {T T' : Arr UInt8}
    (hT : Derived P SHAKE256 salt T) (hH : 1 ≤ P.seedTreeHeight) (ht : 1 ≤ P.t)
    (htH : P.t ≤ 2 ^ P.seedTreeHeight)
    (hover : ∀ x, (∀ j, j < P.t → ¬ InNode P (P.seedTreeHeight, j) x) → T'.get x = T.get x)
    (x : Nat) : (tHash P SHAKE256 salt T' 0 0).get x = T.get x := by
  have hroot : seedAt P T' 0 0 = seedAt P T 0 0 := by
    refine Arr.slice_congr fun j hj => hover _ fun l hl hx => ?_
    -- the root is not a leaf
    have h0 : InNode P (0, 0) (P.stSeedBytes * seedTreeAddr 0 0 + j) :=
      ⟨Nat.le_add_right _ _, Nat.add_lt_add_left hj _⟩
    have heq := h0.unique hx (by simp) (Nat.lt_of_lt_of_le hl htH)
    have := congrArg Prod.fst heq
    simp only at this
    omega
  have hstart : 0 * 2 ^ (P.seedTreeHeight - 0) < P.t := by
    rw [Nat.zero_mul]
    exact ht
  rw [← get_tHash_of_derived P SHAKE256 hT (h := 0) (i := 0) (by simp) hstart x]
  rcases Nat.eq_zero_or_pos P.stSeedBytes with hzero | hpos
  · rw [tHash_of_stSeedBytes_eq_zero P SHAKE256 hzero, tHash_of_stSeedBytes_eq_zero P SHAKE256 hzero]
    refine hover x fun j _ hx => ?_
    have := hx.2
    have := hx.1
    omega
  · obtain ⟨node, hnode, hx⟩ := exists_inNode P hpos x
    refine hx.get_eq ?_
    rw [seedAt_tHash_below P SHAKE256 salt T' (by simp) hstart hnode,
      seedAt_tHash_below P SHAKE256 salt T (by simp) hstart hnode, hroot]
    by_cases hc : 0 < node.1 ∧ node.1 < P.seedTreeHeight + 1 ∧ node.2 / 2 ^ (node.1 - 0) = 0 ∧
        node.2 * 2 ^ (P.seedTreeHeight - node.1) < P.t
    · rw [if_pos hc, if_pos hc]
    · rw [if_neg hc, if_neg hc]
      -- a node that is not grown is not an overwritten leaf either
      refine Arr.slice_congr fun j hj => hover _ fun l hl hxl => hc ?_
      have hself : InNode P node (P.stSeedBytes * seedTreeAddr node.1 node.2 + j) :=
        ⟨Nat.le_add_right _ _, Nat.add_lt_add_left hj _⟩
      obtain rfl := hself.unique hxl hnode (Nat.lt_of_lt_of_le hl htH)
      exact ⟨hH, Nat.lt_succ_self _, Nat.div_eq_of_lt hnode, by simpa using hl⟩

/-- `t_hash` at a node regrows the subtree below it and nothing else, from the
    seed at the node, the salt and the addresses alone; on a tree grown from
    the root it changes nothing, and from the root it brings back the leaves
    before `t` after any overwriting of them. -/
theorem tHash_regrows (salt : List UInt8) (stree : Arr UInt8) (hH : 1 ≤ P.seedTreeHeight)
    (ht : 1 ≤ P.t) (htH : P.t ≤ 2 ^ P.seedTreeHeight) :
    (∀ h i, h ≤ P.seedTreeHeight → i <<< (P.seedTreeHeight - h) < P.t →
      (∀ x, (∀ node, ProperDescendant P.seedTreeHeight (h, i) node → ¬ InNode P node x) →
        (tHash P SHAKE256 salt stree h i).get x = stree.get x) ∧
      (∀ node, ProperDescendant P.seedTreeHeight (h, i) node →
        (node.2 <<< (P.seedTreeHeight - node.1) < P.t →
          seedAt P (tHash P SHAKE256 salt stree h i) node.1 node.2
            = subtreeSeed P SHAKE256 salt h (seedAt P stree h i) (node.1 - h) node.2) ∧
        (P.t ≤ node.2 <<< (P.seedTreeHeight - node.1) → ∀ x, InNode P node x →
          (tHash P SHAKE256 salt stree h i).get x = stree.get x)) ∧
      ∀ x, (tHash P SHAKE256 salt (tHash P SHAKE256 salt stree 0 0) h i).get x
        = (tHash P SHAKE256 salt stree 0 0).get x) ∧
    ∀ stree' : Arr UInt8,
      (∀ x, (∀ j, j < P.t → ¬ InNode P (P.seedTreeHeight, j) x) →
        stree'.get x = (tHash P SHAKE256 salt stree 0 0).get x) →
      ∀ x, (tHash P SHAKE256 salt stree' 0 0).get x = (tHash P SHAKE256 salt stree 0 0).get x := by
  have hgrown := derived_tHash P SHAKE256 salt stree ht
  refine ⟨fun h i hh hlt => ?_, fun stree' hover =>
    get_tHash_root_of_overwritten P SHAKE256 hgrown hH ht htH hover⟩
  simp only [Nat.shiftLeft_eq] at hlt ⊢
  -- a node that starts below t exists
  have hi : i < 2 ^ h := by
    have hmul : i * 2 ^ (P.seedTreeHeight - h) < 2 ^ h * 2 ^ (P.seedTreeHeight - h) := by
      rw [← Nat.pow_add, Nat.add_sub_cancel' hh]
      exact Nat.lt_of_lt_of_le hlt htH
    exact Nat.lt_of_mul_lt_mul_right hmul
  refine ⟨fun x hout => ?_, fun node hnode => ⟨fun hstart => ?_, fun hge x hx => ?_⟩,
    get_tHash_of_derived P SHAKE256 hgrown hi hlt⟩
  · exact get_tHash_of_kept P SHAKE256 salt stree hi hlt fun node hd hx => absurd hx (hout node hd)
  · rw [seedAt_tHash P SHAKE256 salt stree hi hlt hnode.height hnode.index,
      if_pos ⟨hnode.level, hnode.below, hstart⟩]
  · refine get_tHash_of_kept P SHAKE256 salt stree hi hlt fun node' hd hx' => ?_
    obtain rfl := hx.unique hx' hnode.index hd.index
    exact hge

theorem tHash_regrows_fiveLeaves :
    (∀ x, (tHash fiveLeaves toyShake [9] (tHash fiveLeaves toyShake [9] ⟨[5]⟩ 0 0) 1 1).get x
      = (tHash fiveLeaves toyShake [9] ⟨[5]⟩ 0 0).get x) ∧
    ∀ stree' : Arr UInt8,
      (∀ x, (∀ j, j < 5 → ¬ InNode fiveLeaves (3, j) x) →
        stree'.get x = (tHash fiveLeaves toyShake [9] ⟨[5]⟩ 0 0).get x) →
      ∀ x, (tHash fiveLeaves toyShake [9] stree' 0 0).get x
        = (tHash fiveLeaves toyShake [9] ⟨[5]⟩ 0 0).get x := by
  obtain ⟨hnodes, hroot⟩ :=
    tHash_regrows fiveLeaves toyShake [9] ⟨[5]⟩ (by decide) (by decide) (by decide)
  exact ⟨(hnodes 1 1 (by decide) (by decide)).2.2, hroot⟩

end

end Meds.Ref
