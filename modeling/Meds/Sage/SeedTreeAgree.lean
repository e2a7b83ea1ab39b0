/-
  Meds.Sage.SeedTreeAgree

  The seed tree of seed.c and the class `SeedTree` hold the same seeds.

  Both derive the seed of a node from the seed of its parent and the
  parent's address, the array cut off at leaf `t` and the class in full
  (`subtreeSeed`).  The walk of `stree_to_path_to_stree` visits the cover of
  the unchallenged leaves; `path` and `patch` meet the same nodes in the same
  order.
-/

import Meds.Ref.SeedPath
import Meds.Sage.Util

namespace Meds.Sage

open Meds.Core Meds.Ref

section

variable {P : Params} {SHAKE256 : Shake} {salt : List UInt8}

/-! ## Growing -/

/-- `hash_pair` at a node gives the seeds of its children. -/
theorem hashPair_eq (salt seed : List UInt8) (h i : Nat) :
    hashPair P SHAKE256 salt seed (1 <<< h + i - 1)
      = (childSeed P SHAKE256 salt (h + 1) (2 * i) seed,
        childSeed P SHAKE256 salt (h + 1) (2 * i + 1) seed) := by
  have haddr : 1 <<< h + i - 1 = seedTreeAddr h i := by
    have := Nat.one_le_two_pow (n := h)
    rw [seedTreeAddr_eq, Nat.shiftLeft_eq]
    omega
  rw [haddr, childSeed, childSeed, Nat.add_sub_cancel, show 2 * i / 2 = i by omega,
    show (2 * i + 1) / 2 = i by omega, show 2 * i % 2 = 0 by omega,
    show (2 * i + 1) % 2 = 1 by omega, Nat.mul_zero, Nat.mul_one]
  simp only [hashPair, shakeOf, shakeRead, shake256Squeeze, shake256AbsorbOnce_absorbed,
    shake256AbsorbOnce_pos, Nat.zero_add]

/-- The values below a node, level by level. -/
def seedValue (P : Params) (SHAKE256 : Shake) (salt : List UInt8) (g : Nat) (seed : List UInt8)
    (h i : Nat) : Value :=
  .bytes (subtreeSeed P SHAKE256 salt g seed (h - g) i)

/-- A tree grown from the seed of node `(h, i)`. -/
theorem grow_hashPair (d : Nat) (seed : List UInt8) (h i : Nat) :
    Node.grow .bytes (hashPair P SHAKE256 salt) d seed h i
      = cut (seedValue P SHAKE256 salt h seed) [] d h i := by
  have hgrow : ∀ d g i, h ≤ g →
      Node.grow .bytes (hashPair P SHAKE256 salt) d (subtreeSeed P SHAKE256 salt h seed (g - h) i) g i
        = cut (seedValue P SHAKE256 salt h seed) [] d g i := by
    intro d
    induction d with
    | zero =>
        intro g i _
        rw [Node.grow, cut, if_neg (not_hits_nil 0 i), seedValue]
    | succ d ih =>
        intro g i hg
        have hchild : ∀ x, x / 2 = i → childSeed P SHAKE256 salt (g + 1) x
            (subtreeSeed P SHAKE256 salt h seed (g - h) i)
              = subtreeSeed P SHAKE256 salt h seed (g + 1 - h) x := by
          intro x hx
          rw [show g + 1 - h = g - h + 1 by omega, subtreeSeed, hx, show h + (g - h) = g by omega]
        have hdouble : i <<< 1 = 2 * i := by rw [Nat.shiftLeft_eq, Nat.pow_one, Nat.mul_comm]
        rw [Node.grow, cut, if_neg (not_hits_nil (d + 1) i), hashPair_eq, hdouble,
          hchild _ (by omega), hchild _ (by omega)]
        simp only
        rw [ih _ _ (by omega), ih _ _ (by omega), seedValue]
  have := hgrow d h i (Nat.le_refl h)
  rwa [Nat.sub_self] at this

theorem growsTo_hashPair : GrowsTo (hashPair P SHAKE256 salt)
    (fun h seed d j => subtreeSeed P SHAKE256 salt h seed d j) := by
  intro d seed h i key hkey
  rw [grow_hashPair, get_cut hkey List.not_mem_nil, seedValue, Nat.add_sub_cancel_left]

/-- The tree of a root seed. -/
theorem ofRoot_eq (t : Nat) (root : List UInt8) :
    SeedTree.ofRoot t root (hashPair P SHAKE256 salt)
      = ⟨t, cut (seedValue P SHAKE256 salt 0 root) [] _ 0 0⟩ := by
  rw [SeedTree.ofRoot, grow_hashPair]

/-! ## Deleting the challenged leaves -/

/-- The challenge as the list that the class gets. -/
def challengeList (P : Params) (hDigest : Arr UInt8) : List Nat :=
  (List.range P.t).map fun j => (hDigest.get j).toNat

theorem deleteChallenged_cut {val : Nat → Nat → Value} (hDigest : Arr UInt8) :
    deleteChallenged (challengeList P hDigest) ⟨P.t, cut val [] _ 0 0⟩
      = ⟨P.t, cut val (excluded P hDigest) _ 0 0⟩ := by
  -- after c rounds the challenged leaves below c are gone
  have hloop : ∀ c, c ≤ P.t →
      forUp 0 c (fun i seeds =>
          if (challengeList P hDigest).getD i 0 > 0 then seeds.delete i else seeds)
        (⟨P.t, cut val [] _ 0 0⟩ : SeedTree)
        = ⟨P.t, cut val ((List.range c).filter fun j => hDigest.get j > 0) _ 0 0⟩ := by
    intro c hc
    induction c with
    | zero => rfl
    | succ c ih =>
        have hget : (challengeList P hDigest).getD c 0 = (hDigest.get c).toNat := by
          rw [challengeList, List.getD_eq_getElem _ _ (by simpa using hc)]
          simp
        have hkey : c < 2 ^ Nat.clog 2 P.t :=
          Nat.lt_of_lt_of_le (by omega) (Nat.le_pow_clog (by decide) P.t)
        rw [forUp_succ (Nat.zero_le c), ih (by omega), hget, List.range_succ, List.filter_append,
          List.filter_singleton]
        by_cases h0 : hDigest.get c > 0
        · have hpos : (hDigest.get c).toNat > 0 := h0
          rw [if_pos hpos, SeedTree.delete, delete_cut hkey, Nat.zero_mul, Nat.zero_add]
          simp only [h0, decide_true, cond_true, SeedTree.mk.injEq, heq_eq_eq, true_and]
          apply cut_congr
          intro j
          rw [List.mem_cons, List.mem_append, List.mem_singleton, or_comm]
        · have hpos : ¬ (hDigest.get c).toNat > 0 := h0
          rw [if_neg hpos]
          simp only [h0, decide_false, cond_false, List.append_nil]
  have hlen : (challengeList P hDigest).length = P.t := by simp [challengeList]
  rw [deleteChallenged, hlen]
  exact hloop P.t (Nat.le_refl _)

/-! ## Leaves and path -/

theorem seedAt_tHash_root (ht : 1 ≤ P.t) (stree : Arr UInt8) {h i : Nat} (hh : h ≤ P.seedTreeHeight)
    (hi : i < 2 ^ h) (hlt : i * 2 ^ (P.seedTreeHeight - h) < P.t) :
    .bytes (seedAt P (tHash P SHAKE256 salt stree 0 0) h i)
      = seedValue P SHAKE256 salt 0 (seedAt P stree 0 0) h i := by
  rw [seedAt_tHash P SHAKE256 salt stree (by simp) (by rw [Nat.zero_mul]; exact ht) hh hi, seedValue]
  by_cases h0 : h = 0
  · subst h0
    obtain rfl : i = 0 := by simpa using hi
    rw [if_neg (by omega), subtreeSeed]
  · rw [if_pos ⟨by omega, Nat.div_eq_of_lt (by simpa using hi), hlt⟩]

/-- Leaf `j` of the two trees of a root seed. -/
theorem ofRoot_get (ht : 1 ≤ P.t) (hH : P.seedTreeHeight = Nat.clog 2 P.t) (stree : Arr UInt8)
    {j : Nat} (hj : j < P.t) :
    (SeedTree.ofRoot P.t (seedAt P stree 0 0) (hashPair P SHAKE256 salt)).get j
      = .bytes (seedAt P (tHash P SHAKE256 salt stree 0 0) P.seedTreeHeight j) := by
  have hpow : j < 2 ^ Nat.clog 2 P.t := Nat.lt_of_lt_of_le hj (Nat.le_pow_clog (by decide) P.t)
  rw [seedAt_tHash_root ht stree (Nat.le_refl _) (hH ▸ hpow) (by simpa using hj), ofRoot_eq,
    SeedTree.get, get_cut hpow List.not_mem_nil, Nat.zero_mul, Nat.zero_add, Nat.zero_add, hH]

/-- The seeds of a path, from the array. -/
def pathSeeds (P : Params) (stree hDigest : Arr UInt8) : List (List UInt8) :=
  (visited P hDigest).map fun node => seedAt P stree node.1 node.2

theorem flatten_pathSeeds (stree hDigest : Arr UInt8) :
    (pathSeeds P stree hDigest).flatten = pathBytes P stree (visited P hDigest) := rfl

theorem visited_eq_cover (hH : P.seedTreeHeight = Nat.clog 2 P.t) (hDigest : Arr UInt8) :
    visited P hDigest = cover P.t (excluded P hDigest) (Nat.clog 2 P.t) 0 0 := by
  rw [visited, hH]

/-- Every seed below the root has the length of the root. -/
theorem length_rootSeed (stree : Arr UInt8) (h i : Nat) :
    (subtreeSeed P SHAKE256 salt 0 (seedAt P stree 0 0) h i).length = P.stSeedBytes := by
  cases h with
  | zero => exact length_seedAt P stree 0 0
  | succ h => exact length_streamSlice _ _ _

/-- The path of the class, after the challenged leaves are deleted. -/
theorem path_deleteChallenged (ht : 1 ≤ P.t) (hH : P.seedTreeHeight = Nat.clog 2 P.t)
    (hseed : 1 ≤ P.stSeedBytes) (stree hDigest : Arr UInt8) :
    (deleteChallenged (challengeList P hDigest)
        (SeedTree.ofRoot P.t (seedAt P stree 0 0) (hashPair P SHAKE256 salt))).path
      = (pathSeeds P (tHash P SHAKE256 salt stree 0 0) hDigest).map .bytes := by
  have hval : ∀ h i, seedValue P SHAKE256 salt 0 (seedAt P stree 0 0) h i
      = .bytes (subtreeSeed P SHAKE256 salt 0 (seedAt P stree 0 0) h i) := fun _ _ => rfl
  have htruthy : ∀ h i, (seedValue P SHAKE256 salt 0 (seedAt P stree 0 0) h i).truthy = true := by
    intro h i
    have hne := @length_rootSeed P SHAKE256 salt stree h i
    rw [hval, Value.truthy, Bool.not_eq_true', List.isEmpty_eq_false_iff]
    intro hnil
    rw [hnil, List.length_nil] at hne
    omega
  rw [ofRoot_eq, deleteChallenged_cut, SeedTree.path, path_cut htruthy,
    ← visited_eq_cover hH, pathSeeds, List.map_map]
  apply List.map_congr_left
  intro node hnode
  have hfree := (mem_visited_iff.mp hnode).1
  exact (seedAt_tHash_root ht stree hfree.level hfree.index hfree.starts).symm

theorem joinPath_bytes (seeds : List (List UInt8)) :
    joinPath (seeds.map .bytes) = pure seeds.flatten := by
  induction seeds with
  | nil => rfl
  | cons seed seeds ih =>
      rw [List.map_cons, joinPath, ih, pure_bind, List.flatten_cons]

/-- `SeedTreeToPath` of the root that the array holds.  Seeds of no bytes are
    left out of the path, which does not change the bytes. -/
theorem seedTreeToPath_eq (ht : 1 ≤ P.t) (hH : P.seedTreeHeight = Nat.clog 2 P.t)
    (stree hDigest : Arr UInt8) :
    seedTreeToPath P SHAKE256 (challengeList P hDigest) (seedAt P stree 0 0) salt
      = pure (pathBytes P (tHash P SHAKE256 salt stree 0 0) (visited P hDigest)
          ++ List.replicate (seedTreeCost P
            - (pathBytes P (tHash P SHAKE256 salt stree 0 0) (visited P hDigest)).length) 0) := by
  have hjoin : joinPath (deleteChallenged (challengeList P hDigest)
        (SeedTree.ofRoot P.t (seedAt P stree 0 0) (hashPair P SHAKE256 salt))).path
      = pure (pathBytes P (tHash P SHAKE256 salt stree 0 0) (visited P hDigest)) := by
    rcases Nat.eq_zero_or_pos P.stSeedBytes with h0 | hpos
    · have hnil : ∀ seed : List UInt8, seed.length = P.stSeedBytes → seed = [] := fun seed h =>
        List.length_eq_zero_iff.mp (h.trans h0)
      have hfalsy : ∀ h i, (seedValue P SHAKE256 salt 0 (seedAt P stree 0 0) h i).truthy = false := by
        intro h i
        rw [seedValue, hnil _ (length_rootSeed stree _ i)]
        rfl
      have hbytes : pathBytes P (tHash P SHAKE256 salt stree 0 0) (visited P hDigest) = [] := by
        apply List.length_eq_zero_iff.mp
        rw [length_pathBytes, h0, Nat.mul_zero]
      rw [ofRoot_eq, deleteChallenged_cut, SeedTree.path, path_cut_falsy hfalsy, hbytes]
      rfl
    · rw [path_deleteChallenged ht hH hpos, joinPath_bytes, flatten_pathSeeds]
  rw [seedTreeToPath, hjoin, pure_bind]

/-! ## Rebuilding -/

theorem parsePath_eq (count : Nat) (path : List UInt8) :
    parsePath P count path
      = (List.range count).map fun k => (path.drop (k * P.stSeedBytes)).take P.stSeedBytes := by
  have hloop : ∀ c, forUp 0 c
      (fun _ s => (s.1 ++ [s.2.take P.stSeedBytes], s.2.drop P.stSeedBytes))
      (([] : List (List UInt8)), path)
      = ((List.range c).map fun k => (path.drop (k * P.stSeedBytes)).take P.stSeedBytes,
        path.drop (c * P.stSeedBytes)) := by
    intro c
    induction c with
    | zero =>
        rw [Nat.zero_mul]
        rfl
    | succ c ih =>
        rw [forUp_succ (Nat.zero_le c), ih, List.range_succ, List.map_append, List.drop_drop,
          Nat.succ_mul]
        rfl
  rw [parsePath, hloop]

/-- The tree that the class patches together: leaf `j` grows from the seed of
    the node of the cover that it lies below. -/
theorem pathToSeedTree_get (hH : P.seedTreeHeight = Nat.clog 2 P.t) (hDigest : Arr UInt8)
    (path : List UInt8) {p : (Nat × Nat) × List UInt8}
    (hp : p ∈ (visited P hDigest).zip (parsePath P (visited P hDigest).length path)) {j : Nat}
    (hj : Below P p.1 j) :
    (pathToSeedTree P SHAKE256 (challengeList P hDigest) path salt).get j
      = .bytes (subtreeSeed P SHAKE256 salt p.1.1 p.2 (P.seedTreeHeight - p.1.1) j) := by
  have htree : deleteChallenged (challengeList P hDigest) (SeedTree.new P.t)
      = ⟨P.t, cut blanks (excluded P hDigest) _ 0 0⟩ := by
    rw [SeedTree.new, blank_eq_cut, deleteChallenged_cut]
  have hpath : (⟨P.t, cut blanks (excluded P hDigest) _ 0 0⟩ : SeedTree).path.length
      = (visited P hDigest).length := by
    rw [SeedTree.path, path_cut (fun _ _ => rfl), List.length_map, visited_eq_cover hH]
  have hlen : (parsePath P (visited P hDigest).length path).length
      = (cover P.t (excluded P hDigest) (Nat.clog 2 P.t) 0 0).length := by
    rw [parsePath_eq, List.length_map, List.length_range, visited_eq_cover hH]
  have hunfold : pathToSeedTree P SHAKE256 (challengeList P hDigest) path salt
      = (deleteChallenged (challengeList P hDigest) (SeedTree.new P.t)).patch
          (parsePath P
            (deleteChallenged (challengeList P hDigest) (SeedTree.new P.t)).path.length path)
          (hashPair P SHAKE256 salt) := rfl
  have hgrows : GrowsTo (hashPair P SHAKE256 salt) _ := growsTo_hashPair
  obtain ⟨-, hget⟩ := @patch_cut _ _ hgrows _ _ _ _ _ _ [] hlen (fun _ => rfl)
  rw [List.append_nil, ← visited_eq_cover hH] at hget
  have hleaf := hget p hp j (by rw [Nat.zero_add, ← hH]; exact hj)
  rw [Nat.zero_mul, Nat.sub_zero, Nat.zero_add] at hleaf
  rw [hunfold, htree, hpath, hH]
  exact hleaf

theorem pathToSeedTree_leafs (h : List Nat) (path : List UInt8) :
    (pathToSeedTree P SHAKE256 h path salt).leafs = P.t :=
  forUp_invariant (fun _ (seeds : SeedTree) => seeds.leafs = P.t) (Nat.zero_le _)
    (fun i seeds _ _ hs => by split <;> exact hs) rfl

/-- Seed `k` of the path, as the walk reads it. -/
theorem readBytes_parsePath {count : Nat} {path : List UInt8} {mem : Nat → Option UInt8} {pos : Nat}
    (hmem : ∀ i, i < path.length → mem (pos + i) = path[i]?)
    (hlen : count * P.stSeedBytes ≤ path.length) {k : Nat} (hk : k < count) :
    readBytes mem (pos + k * P.stSeedBytes) P.stSeedBytes
      = some ((parsePath P count path).getD k []) := by
  have hroom := Nat.mul_le_mul_right P.stSeedBytes (show k + 1 ≤ count from hk)
  rw [Nat.succ_mul] at hroom
  have hseed : ((path.drop (k * P.stSeedBytes)).take P.stSeedBytes).length = P.stSeedBytes := by
    rw [List.length_take, List.length_drop]
    omega
  have := readBytes_eq_some mem (pos + k * P.stSeedBytes)
    (l := (path.drop (k * P.stSeedBytes)).take P.stSeedBytes) fun j hj => by
      rw [List.getD_eq_getElem _ _ hj, List.getElem_take, List.getElem_drop, Nat.add_assoc,
        hmem _ (by omega), List.getElem?_eq_getElem (by omega)]
  rw [hseed] at this
  rw [this, parsePath_eq, List.getD_eq_getElem _ _ (by simpa using hk), List.getElem_map,
    List.getElem_range]

theorem length_of_mem_parsePath {count : Nat} {path seed : List UInt8}
    (hlen : count * P.stSeedBytes ≤ path.length) (hseed : seed ∈ parsePath P count path) :
    seed.length = P.stSeedBytes := by
  rw [parsePath_eq] at hseed
  obtain ⟨k, hk, rfl⟩ := List.mem_map.mp hseed
  have hroom := Nat.mul_le_mul_right P.stSeedBytes (show k + 1 ≤ count from List.mem_range.mp hk)
  rw [Nat.succ_mul] at hroom
  rw [List.length_take, List.length_drop]
  omega

/-- `path_to_stree` and `PathToSeedTree` on the same bytes. -/
theorem pathToStree_agrees (ht : 1 ≤ P.t) (hH : P.seedTreeHeight = Nat.clog 2 P.t) (hw : 1 ≤ P.w)
    {hDigest : Arr UInt8} (hcount : (excluded P hDigest).length = P.w) {path : List UInt8}
    {mem : Nat → Option UInt8} {pos : Nat}
    (hmem : ∀ i, i < path.length → mem (pos + i) = path[i]?)
    (hlen : (visited P hDigest).length * P.stSeedBytes ≤ path.length) (stree : Arr UInt8) :
    ∃ st, (pathToStree P SHAKE256 stree hDigest mem pos salt).Returns st ∧
      ∀ j, j < P.t → hDigest.get j = 0 →
        (pathToSeedTree P SHAKE256 (challengeList P hDigest) path salt).get j
          = .bytes (seedAt P st.stree P.seedTreeHeight j) := by
  have htH : P.t ≤ 2 ^ P.seedTreeHeight := hH ▸ Nat.le_pow_clog (by decide) P.t
  have hcnt : (parsePath P (visited P hDigest).length path).length = (visited P hDigest).length := by
    rw [parsePath_eq, List.length_map, List.length_range]
  obtain ⟨st, hrun, -, hgrown, -⟩ := visitAll_pathToStree_seeds P SHAKE256 htH salt
    mem hcnt (fun seed hs => length_of_mem_parsePath hlen hs)
    (fun node hn =>
      have hf := (mem_visited_iff.mp hn).1
      ⟨hf.level, hf.index, hf.starts⟩)
    ((pairwise_visited P hDigest).imp fun hab j ha hb => not_endsBefore_of_below ha hb hab)
    ⟨stree, Arr.empty, pos⟩ (fun k hk => readBytes_parsePath hmem hlen hk)
  refine ⟨st, ((walk_equiv P ht htH hw hcount _ _).returns _).mpr ?_, fun j hj h0 => ?_⟩
  · rw [hrun, Run.returns_pure]
  · obtain ⟨node, hnode, hb⟩ := exists_visited P htH hj h0
    obtain ⟨k, hk, rfl⟩ := List.getElem_of_mem hnode
    have hp : ((visited P hDigest)[k], (parsePath P (visited P hDigest).length path)[k]) ∈
        (visited P hDigest).zip (parsePath P (visited P hDigest).length path) := by
      rw [← List.getElem_zip (h := by rw [List.length_zip, hcnt, Nat.min_self]; exact hk)]
      exact List.getElem_mem _
    rw [pathToSeedTree_get hH hDigest path hp hb, hgrown _ hp j hj hb]

/-- The array seed tree and the class `SeedTree`: their leaves, their paths,
    and the leaves that they rebuild from the bytes of a path. -/
theorem seedTrees_agree (P : Params) (SHAKE256 : Shake) (ht : 1 ≤ P.t)
    (hH : P.seedTreeHeight = Nat.clog 2 P.t) (hseed : 1 ≤ P.stSeedBytes) (salt : List UInt8) :
    (∀ (stree : Arr UInt8) (j : Nat), j < P.t →
      (SeedTree.ofRoot P.t (seedAt P stree 0 0) (hashPair P SHAKE256 salt)).get j
        = .bytes (seedAt P (tHash P SHAKE256 salt stree 0 0) P.seedTreeHeight j)) ∧
    ∀ hDigest : Arr UInt8, 1 ≤ P.w → (excluded P hDigest).length = P.w →
      (∀ (stree path : Arr UInt8) (pos : Nat), ∃ (st : PathState) (seeds : List (List UInt8)),
        (streeToPath P SHAKE256 (tHash P SHAKE256 salt stree 0 0) hDigest path pos salt).Returns st ∧
        (deleteChallenged (challengeList P hDigest)
            (SeedTree.ofRoot P.t (seedAt P stree 0 0) (hashPair P SHAKE256 salt))).path
          = seeds.map .bytes ∧
        (∀ seed ∈ seeds, seed.length = P.stSeedBytes) ∧
        st.pos = pos + seeds.length * P.stSeedBytes ∧
        st.path.slice pos (seeds.length * P.stSeedBytes) = seeds.flatten ∧
        seedTreeToPath P SHAKE256 (challengeList P hDigest) (seedAt P stree 0 0) salt
          = pure (seeds.flatten
            ++ List.replicate (seedTreeCost P - seeds.length * P.stSeedBytes) 0)) ∧
      ∀ (path : List UInt8) (n : Nat),
        (walk P hDigest (fun _ _ n => pure (n + 1)) 0 : Run Fault Nat).Returns n →
        n * P.stSeedBytes ≤ path.length → ∀ stree : Arr UInt8, ∃ st : PathState,
          (pathToStree P SHAKE256 stree hDigest (fun i => path[i]?) 0 salt).Returns st ∧
          ∀ j, j < P.t → hDigest.get j = 0 →
            (pathToSeedTree P SHAKE256 (challengeList P hDigest) path salt).get j
              = .bytes (seedAt P st.stree P.seedTreeHeight j) := by
  have htH : P.t ≤ 2 ^ P.seedTreeHeight := hH ▸ Nat.le_pow_clog (by decide) P.t
  refine ⟨fun stree j hj => ofRoot_get ht hH stree hj, fun hDigest hw hcount => ⟨?_, ?_⟩⟩
  · intro stree path pos
    have hpath := @path_deleteChallenged P SHAKE256 salt ht hH hseed stree hDigest
    -- the path is the concatenation of its seeds
    have hlen : (pathSeeds P (tHash P SHAKE256 salt stree 0 0) hDigest).flatten.length
        = (pathSeeds P (tHash P SHAKE256 salt stree 0 0) hDigest).length * P.stSeedBytes := by
      rw [flatten_pathSeeds, length_pathBytes, pathSeeds, List.length_map]
    refine ⟨_, _, streeToPath_returns P SHAKE256 ht htH hw hcount _ path pos salt, hpath, ?_, ?_, ?_, ?_⟩
    · intro seed hs
      obtain ⟨node, -, rfl⟩ := List.mem_map.mp hs
      exact length_seedAt P _ _ _
    · simp only [pathSeeds, List.length_map]
    · rw [← hlen, flatten_pathSeeds]
      exact Arr.slice_blit _ _ _
    · rw [seedTreeToPath, hpath, joinPath_bytes, pure_bind, hlen]
  · intro path n hn hlen stree
    rw [(walk_count P ht htH hw hcount).unique hn |>.symm] at hlen
    exact pathToStree_agrees ht hH hw hcount (fun i _ => by rw [Nat.zero_add]) hlen stree

/-- Five leaves, two of them challenged. -/
theorem seedTrees_agree_fiveLeaves :
    ∃ (st : PathState) (seeds : List (List UInt8)),
      (streeToPath fiveLeaves toyShake (tHash fiveLeaves toyShake [9] ⟨[5]⟩ 0 0) ⟨[0, 1, 0, 0, 2]⟩
        Arr.empty 0 [9]).Returns st ∧
      (deleteChallenged (challengeList fiveLeaves ⟨[0, 1, 0, 0, 2]⟩)
          (SeedTree.ofRoot 5 (seedAt fiveLeaves ⟨[5]⟩ 0 0) (hashPair fiveLeaves toyShake [9]))).path
        = seeds.map .bytes ∧
      st.pos = 0 + seeds.length * 1 := by
  obtain ⟨st, seeds, hsent, hpath, -, hpos, -⟩ :=
    ((seedTrees_agree fiveLeaves toyShake (by decide) (by decide) (by decide) [9]).2
      ⟨[0, 1, 0, 0, 2]⟩ (by decide) (by decide)).1 ⟨[5]⟩ Arr.empty 0
  exact ⟨st, seeds, hsent, hpath, hpos⟩

end

end Meds.Sage
