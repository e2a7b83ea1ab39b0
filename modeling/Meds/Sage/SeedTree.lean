/-
  Meds.Sage.SeedTree

  sage-ref/seedtree.py: the classes `Node` and `SeedTree`.

  A tree is perfect, so its height is part of its type.  A deleted node has
  the value `None`; a node of a tree that was made without a root value holds
  the class `object`.  The verifier deletes the challenged leaves of such a
  tree (`cut`): the nodes of its path are the cover of the remaining leaves,
  and `patch` grows each of them from its seed.  The assertions on keys hold
  for every key below the number of leaves and are left out.

  The height is the exact logarithm, which `math.log` gives for less than
  2^29 leaves, and then the addresses fit four bytes.
-/

import Meds.Core.TreeCover
import Meds.Core.Loop

namespace Meds.Sage

open Meds.Core

/-- What a node can hold. -/
inductive Value where
  | none
  | object
  | bytes (b : List UInt8)
deriving DecidableEq, Repr

/-- `bool(value)`. -/
def Value.truthy : Value → Bool
  | .none => false
  | .object => true
  | .bytes b => !b.isEmpty

/-- The class `Node`, indexed by `height`. -/
inductive Node : Nat → Type where
  | leaf (value : Value) : Node 0
  | inner {height : Nat} (value : Value) (left right : Node height) : Node (height + 1)

namespace Node

/-- `Node(height, value, f, h, i)` and `update`: `f` derives the children of a
    node from its value and its address. -/
def grow {α : Type} (wrap : α → Value) (f : α → Nat → α × α) :
    (height : Nat) → α → Nat → Nat → Node height
  | 0, value, _, _ => .leaf (wrap value)
  | height + 1, value, h, i =>
    let r := f value (1 <<< h + i - 1)
    .inner (wrap value) (grow wrap f height r.1 (h + 1) (i <<< 1))
      (grow wrap f height r.2 (h + 1) (i <<< 1 + 1))

/-- A node without a value of its own: `value = object`, `f = lambda a, b : (a, a)`. -/
def blank (height : Nat) : Node height :=
  grow (fun _ : Unit => .object) (fun a _ => (a, a)) height () 0 0

/-- `__getitem__`. -/
def get : {height : Nat} → Node height → Nat → Value
  | _, .leaf value, _ => value
  | height + 1, .inner _ left right, key =>
    if key < 2 ^ height then left.get key else right.get (key &&& (1 <<< height - 1))

/-- `__setitem__`. -/
def set : {height : Nat} → Node height → Nat → Value → Node height
  | _, .leaf _, _, value => .leaf value
  | height + 1, .inner _ left right, key, value =>
    if key < 2 ^ height then .inner .none (left.set key value) right
    else .inner .none left (right.set (key &&& (1 <<< height - 1)) value)

def delete : {height : Nat} → Node height → Nat → Node height
  | _, .leaf _, _ => .leaf .none
  | height + 1, .inner _ left right, key =>
    if key < 2 ^ height then .inner .none (left.delete key) right
    else .inner .none left (right.delete (key &&& (1 <<< height - 1)))

/-- `path`; `offset < leafs / (1 << lshift)` without the division. -/
def path (leafs : Nat) : {height : Nat} → Node height → Nat → Nat → List Value
  | _, .leaf value, lshift, offset =>
    if !value.truthy then []
    else if offset * 1 <<< lshift < leafs then [value] else []
  | _, .inner value left right, lshift, offset =>
    if !value.truthy then
      path leafs left (lshift - 1) (offset <<< 1) ++ path leafs right (lshift - 1) (offset <<< 1 + 1)
    else if offset * 1 <<< lshift < leafs then [value] else []

/-- `patch`: the node and the rest of the path; `path[0]` of an empty path
    raises an `IndexError`, which is ignored. -/
def patch (f : List UInt8 → Nat → List UInt8 × List UInt8) :
    {height : Nat} → Node height → List (List UInt8) → Nat → Nat →
      Node height × List (List UInt8)
  | _, .leaf value, path, h, i =>
    if !value.truthy then (.leaf value, path)
    else
      match path with
      | [] => (.leaf value, [])
      | seed :: path => (grow .bytes f 0 seed h i, path)
  | height + 1, .inner value left right, path, h, i =>
    if !value.truthy then
      let l := patch f left path (h + 1) (i <<< 1)
      let r := patch f right l.2 (h + 1) (i <<< 1 + 1)
      (.inner value l.1 r.1, r.2)
    else
      match path with
      | [] => (.inner value left right, [])
      | seed :: path => (grow .bytes f (height + 1) seed h i, path)

end Node

/-- The class `SeedTree`; `height = math.ceil(math.log(leafs,2))`. -/
structure SeedTree where
  leafs : Nat
  root : Node (Nat.clog 2 leafs)

namespace SeedTree

/-- `SeedTree(leafs)`. -/
def new (leafs : Nat) : SeedTree := ⟨leafs, Node.blank _⟩

/-- `SeedTree(leafs, value, f)`. -/
def ofRoot (leafs : Nat) (value : List UInt8)
    (f : List UInt8 → Nat → List UInt8 × List UInt8) : SeedTree :=
  ⟨leafs, Node.grow .bytes f _ value 0 0⟩

def get (tree : SeedTree) (key : Nat) : Value := tree.root.get key

def set (tree : SeedTree) (key : Nat) (value : Value) : SeedTree :=
  { tree with root := tree.root.set key value }

def delete (tree : SeedTree) (key : Nat) : SeedTree := { tree with root := tree.root.delete key }

def path (tree : SeedTree) : List Value :=
  tree.root.path tree.leafs (Nat.clog 2 tree.leafs) 0

def patch (tree : SeedTree) (path : List (List UInt8))
    (f : List UInt8 → Nat → List UInt8 × List UInt8) : SeedTree :=
  { tree with root := (tree.root.patch f path 0 0).1 }

end SeedTree

/-! ## Leaves -/

namespace Node

theorem and_two_pow_sub_one {key height : Nat} (h1 : 2 ^ height ≤ key) (h2 : key < 2 ^ (height + 1)) :
    key &&& (1 <<< height - 1) = key - 2 ^ height := by
  rw [Nat.one_shiftLeft, Nat.and_two_pow_sub_one_eq_mod]
  rw [Nat.pow_succ] at h2
  rw [Nat.mod_eq_sub_mod h1, Nat.mod_eq_of_lt (by omega)]

/-- Setting a leaf changes this leaf only. -/
theorem get_set {height : Nat} (node : Node height) {key key' : Nat} (value : Value)
    (hkey : key < 2 ^ height) (hkey' : key' < 2 ^ height) :
    (node.set key value).get key' = if key' = key then value else node.get key' := by
  induction node generalizing key key' with
  | leaf v =>
      rw [Nat.pow_zero] at hkey hkey'
      rw [if_pos (by omega)]
      rfl
  | @inner height v left right ihl ihr =>
      rw [set]
      by_cases hk : key < 2 ^ height
      · rw [if_pos hk, get, get]
        by_cases hk' : key' < 2 ^ height
        · rw [if_pos hk', if_pos hk']
          exact ihl hk hk'
        · rw [if_neg hk', if_neg hk', if_neg (by omega)]
      · rw [if_neg hk, get, get]
        by_cases hk' : key' < 2 ^ height
        · rw [if_pos hk', if_pos hk', if_neg (by omega)]
        · have hpow := Nat.pow_succ 2 height
          rw [if_neg hk', if_neg hk', and_two_pow_sub_one (by omega) hkey,
            and_two_pow_sub_one (by omega) hkey', ihr (by omega) (by omega)]
          congr 1
          apply propext
          omega

end Node

/-! ## Deleting leaves -/

/-- The subtree of node `(h, i)`, of height `d`, in a tree with the values `val`
    from which the leaves `ex` are deleted. -/
def cut (val : Nat → Nat → Value) (ex : List Nat) : (d : Nat) → Nat → Nat → Node d
  | 0, h, i => .leaf (if Hits ex 0 i then .none else val h i)
  | d + 1, h, i =>
    .inner (if Hits ex (d + 1) i then .none else val h i) (cut val ex d (h + 1) (2 * i))
      (cut val ex d (h + 1) (2 * i + 1))

/-- The values of a blank tree. -/
def blanks : Nat → Nat → Value := fun _ _ => .object

section

variable {val : Nat → Nat → Value}

theorem not_hits_nil (d i : Nat) : ¬ Hits [] d i := by
  rintro ⟨j, hj, -⟩
  exact absurd hj List.not_mem_nil

theorem hits_cons_iff (j : Nat) (ex : List Nat) (d i : Nat) :
    Hits (j :: ex) d i ↔ j / 2 ^ d = i ∨ Hits ex d i := by
  simp only [Hits, List.mem_cons, exists_eq_or_imp]

/-- A tree grown with `f` has the values of any family that `f` steps through. -/
theorem grow_eq_cut {α : Type} {wrap : α → Value} {f : α → Nat → α × α} {seed : Nat → Nat → α}
    (hf : ∀ h i, f (seed h i) (1 <<< h + i - 1) = (seed (h + 1) (2 * i), seed (h + 1) (2 * i + 1)))
    (d h i : Nat) :
    Node.grow wrap f d (seed h i) h i = cut (fun h i => wrap (seed h i)) [] d h i := by
  induction d generalizing h i with
  | zero => rw [Node.grow, cut, if_neg (not_hits_nil 0 i)]
  | succ d ih =>
      rw [Node.grow, cut, if_neg (not_hits_nil (d + 1) i)]
      have hdouble : i <<< 1 = 2 * i := by rw [Nat.shiftLeft_eq, Nat.pow_one, Nat.mul_comm]
      simp only [hf, hdouble, ih]

theorem blank_eq_cut (d : Nat) : Node.blank d = cut blanks [] d 0 0 :=
  @grow_eq_cut Unit (fun _ => .object) (fun a _ => (a, a)) (fun _ _ => ()) (fun _ _ => rfl) d 0 0

theorem cut_congr {ex ex' : List Nat} (h : ∀ j, j ∈ ex ↔ j ∈ ex') (d g i : Nat) :
    cut val ex d g i = cut val ex' d g i := by
  have hits : ∀ d i, Hits ex d i ↔ Hits ex' d i := by
    intro d i
    simp only [Hits, h]
  induction d generalizing g i with
  | zero => simp only [cut, hits]
  | succ d ih => simp only [cut, hits, ih]

theorem cut_cons_of_ne {j : Nat} {ex : List Nat} {d g i : Nat} (h : j / 2 ^ d ≠ i) :
    cut val (j :: ex) d g i = cut val ex d g i := by
  induction d generalizing g i with
  | zero => simp only [cut, hits_cons_iff, h, false_or]
  | succ d ih =>
      have hsplit := below_succ_iff j d i
      rw [cut, cut, ih (by omega), ih (by omega)]
      simp only [hits_cons_iff, h, false_or]

/-- Deleting one more leaf. -/
theorem delete_cut {ex : List Nat} {d h i key : Nat} (hkey : key < 2 ^ d) :
    (cut val ex d h i).delete key = cut val ((i * 2 ^ d + key) :: ex) d h i := by
  induction d generalizing h i key with
  | zero =>
      rw [Nat.pow_zero] at hkey
      rw [cut, cut, Node.delete, if_pos]
      rw [hits_cons_iff, Nat.pow_zero, Nat.div_one]
      omega
  | succ d ih =>
      have hpow := Nat.pow_succ 2 d
      have hi : i * 2 ^ (d + 1) = 2 * i * 2 ^ d := by
        rw [hpow]
        ring
      have hi' : 2 * i * 2 ^ d + 2 ^ d = (2 * i + 1) * 2 ^ d := by ring
      have hhit : Hits ((i * 2 ^ (d + 1) + key) :: ex) (d + 1) i := by
        rw [hits_cons_iff]
        refine Or.inl ?_
        rw [Nat.mul_comm, Nat.mul_add_div (Nat.two_pow_pos _), Nat.div_eq_of_lt hkey, Nat.add_zero]
      rw [cut, cut, Node.delete, if_pos hhit]
      -- the leaf lies on the left, or on the right with its high bit taken off
      by_cases hk : key < 2 ^ d
      · rw [if_pos hk, ih hk, hi]
        congr 1
        refine (cut_cons_of_ne ?_).symm
        rw [Nat.mul_comm, Nat.mul_add_div (Nat.two_pow_pos _), Nat.div_eq_of_lt hk]
        omega
      · obtain ⟨x, rfl⟩ : ∃ x, key = 2 ^ d + x := ⟨key - 2 ^ d, by omega⟩
        rw [if_neg hk, Node.and_two_pow_sub_one (by omega) hkey, Nat.add_sub_cancel_left,
          ih (by omega), hi, ← Nat.add_assoc, hi']
        congr 1
        refine (cut_cons_of_ne ?_).symm
        rw [Nat.mul_comm, Nat.mul_add_div (Nat.two_pow_pos _), Nat.div_eq_of_lt (by omega)]
        omega

/-- A leaf that was not deleted keeps its value. -/
theorem get_cut {ex : List Nat} {d h i key : Nat} (hkey : key < 2 ^ d)
    (hex : i * 2 ^ d + key ∉ ex) :
    (cut val ex d h i).get key = val (h + d) (i * 2 ^ d + key) := by
  induction d generalizing h i key with
  | zero =>
      rw [Nat.pow_zero] at hkey
      obtain rfl : key = 0 := by omega
      rw [Nat.pow_zero, Nat.mul_one, Nat.add_zero] at hex ⊢
      rw [cut, if_neg]
      · rfl
      · rintro ⟨j, hj, hji⟩
        rw [Nat.pow_zero, Nat.div_one] at hji
        exact hex (hji ▸ hj)
  | succ d ih =>
      have hpow := Nat.pow_succ 2 d
      have hleft : i * 2 ^ (d + 1) = 2 * i * 2 ^ d := by
        rw [hpow]
        ring
      have hright : 2 * i * 2 ^ d + 2 ^ d = (2 * i + 1) * 2 ^ d := by ring
      have hheight : h + (d + 1) = h + 1 + d := by omega
      rw [hleft] at hex
      rw [cut, Node.get, hleft, hheight]
      by_cases hk : key < 2 ^ d
      · rw [if_pos hk]
        exact ih hk hex
      · obtain ⟨x, rfl⟩ : ∃ x, key = 2 ^ d + x := ⟨key - 2 ^ d, by omega⟩
        rw [← Nat.add_assoc, hright] at hex ⊢
        rw [if_neg hk, Node.and_two_pow_sub_one (by omega) hkey, Nat.add_sub_cancel_left]
        exact ih (by omega) hex

/-! ## The path -/

theorem truthy_none : Value.none.truthy = false := rfl

/-- The path of a cut tree has one node for each subtree of the cover. -/
theorem path_cut (hval : ∀ h i, (val h i).truthy = true) (t : Nat) (ex : List Nat) (d h i : Nat) :
    (cut val ex d h i).path t d i = (cover t ex d h i).map fun node => val node.1 node.2 := by
  induction d generalizing h i with
  | zero =>
      rw [cut, Node.path]
      by_cases hh : Hits ex 0 i
      · simp only [if_pos hh, truthy_none, Bool.not_false, if_true]
        rw [cover_leaf_of_hits hh]
        rfl
      · simp only [if_neg hh, hval, Bool.not_true, Bool.false_eq_true, if_false]
        by_cases hi : i * 2 ^ 0 < t
        · rw [if_pos (by rw [Nat.one_shiftLeft]; exact hi), cover_of_not_hits hi hh]
          rfl
        · rw [if_neg (by rw [Nat.one_shiftLeft]; exact hi), cover_of_ge (by omega)]
          rfl
  | succ d ih =>
      rw [cut, Node.path]
      by_cases hh : Hits ex (d + 1) i
      · simp only [if_pos hh, truthy_none, Bool.not_false, if_true]
        rw [cover_succ_of_hits hh, List.map_append, Nat.add_sub_cancel, Nat.shiftLeft_eq, Nat.pow_one,
          Nat.mul_comm i 2, ih (h + 1), ih (h + 1)]
      · simp only [if_neg hh, hval, Bool.not_true, Bool.false_eq_true, if_false]
        by_cases hi : i * 2 ^ (d + 1) < t
        · rw [if_pos (by rw [Nat.one_shiftLeft]; exact hi), cover_of_not_hits hi hh]
          rfl
        · rw [if_neg (by rw [Nat.one_shiftLeft]; exact hi), cover_of_ge (by omega)]
          rfl

/-- Empty seeds are passed over like deleted ones. -/
theorem path_cut_falsy (hval : ∀ h i, (val h i).truthy = false) (t : Nat) (ex : List Nat)
    (d h i l o : Nat) : (cut val ex d h i).path t l o = [] := by
  have hnode : ∀ (c : Prop) [Decidable c] (h i : Nat),
      (if c then Value.none else val h i).truthy = false := by
    intro c _ h i
    split
    · rfl
    · exact hval h i
  induction d generalizing h i l o with
  | zero => rw [cut, Node.path, hnode, Bool.not_false, if_pos rfl]
  | succ d ih => rw [cut, Node.path, hnode, Bool.not_false, if_pos rfl, ih, ih, List.append_nil]

end

/-! ## Patching -/

/-- Leaf `j` of the subtree of height `d` that `f` grows from the seed of node
    `(h, i)` is `leafOf h seed d j`. -/
def GrowsTo (f : List UInt8 → Nat → List UInt8 × List UInt8)
    (leafOf : Nat → List UInt8 → Nat → Nat → List UInt8) : Prop :=
  ∀ d seed h i key, key < 2 ^ d →
    (Node.grow .bytes f d seed h i).get key = .bytes (leafOf h seed d (i * 2 ^ d + key))

/-- The leaves below a node of the cover lie below its root. -/
theorem div_of_mem_cover {t : Nat} {ex : List Nat} {d h i j : Nat} {node : Nat × Nat}
    (h1 : node ∈ cover t ex d h i) (h2 : j / 2 ^ (h + d - node.1) = node.2) : j / 2 ^ d = i := by
  obtain ⟨d', hm⟩ := mem_cover_iff.mp h1
  have hdepth := hm.depth
  have hle := hm.height_le
  rw [show h + d - node.1 = d' by omega] at h2
  rw [← hm.below, ← h2, Nat.div_div_eq_div_mul, ← Nat.pow_add, Nat.add_sub_cancel' hle]

section

variable (f : List UInt8 → Nat → List UInt8 × List UInt8) {d : Nat} (h i : Nat)

theorem patch_leaf_none (path : List (List UInt8)) :
    Node.patch f (.leaf .none) path h i = (.leaf .none, path) := rfl

theorem patch_leaf_object_nil : Node.patch f (.leaf .object) [] h i = (.leaf .object, []) := rfl

theorem patch_leaf_object_cons (seed : List UInt8) (path : List (List UInt8)) :
    Node.patch f (.leaf .object) (seed :: path) h i = (Node.grow .bytes f 0 seed h i, path) := rfl

theorem patch_inner_none (left right : Node d) (path : List (List UInt8)) :
    Node.patch f (.inner .none left right) path h i
      = (.inner .none (left.patch f path (h + 1) (i <<< 1)).1
          (right.patch f (left.patch f path (h + 1) (i <<< 1)).2 (h + 1) (i <<< 1 + 1)).1,
        (right.patch f (left.patch f path (h + 1) (i <<< 1)).2 (h + 1) (i <<< 1 + 1)).2) := rfl

theorem patch_inner_object_nil (left right : Node d) :
    Node.patch f (.inner .object left right) [] h i = (.inner .object left right, []) := rfl

theorem patch_inner_object_cons (left right : Node d) (seed : List UInt8)
    (path : List (List UInt8)) :
    Node.patch f (.inner .object left right) (seed :: path) h i
      = (Node.grow .bytes f (d + 1) seed h i, path) := rfl

end

/-- A cut tree takes one seed for each node of its cover and grows the leaves
    below it from this seed. -/
theorem patch_cut {f : List UInt8 → Nat → List UInt8 × List UInt8}
    {leafOf : Nat → List UInt8 → Nat → Nat → List UInt8} (hf : GrowsTo f leafOf) {t : Nat}
    {ex : List Nat} {d h i : Nat} {seeds rest : List (List UInt8)}
    (hlen : seeds.length = (cover t ex d h i).length)
    (hrest : t < (i + 1) * 2 ^ d → rest = []) :
    ((cut blanks ex d h i).patch f (seeds ++ rest) h i).2 = rest ∧
      ∀ p ∈ (cover t ex d h i).zip seeds, ∀ j, j / 2 ^ (h + d - p.1.1) = p.1.2 →
        ((cut blanks ex d h i).patch f (seeds ++ rest) h i).1.get (j - i * 2 ^ d)
          = .bytes (leafOf p.1.1 p.2 (h + d - p.1.1) j) := by
  -- a node that is not deleted takes its seed, unless it starts past the last leaf
  have hfree : ∀ {d h i : Nat} {seeds rest : List (List UInt8)},
      seeds.length = (cover t ex d h i).length → (t < (i + 1) * 2 ^ d → rest = []) →
      ¬ Hits ex d i →
      (seeds ++ rest = [] ∧ i * 2 ^ d ≥ t) ∨
        ∃ seed, seeds = [seed] ∧ cover t ex d h i = [(h, i)] := by
    intro d h i seeds rest hlen hrest hh
    by_cases hi : i * 2 ^ d < t
    · rw [cover_of_not_hits hi hh] at hlen ⊢
      obtain ⟨seed, hseed⟩ := List.length_eq_one_iff.mp hlen
      exact Or.inr ⟨seed, hseed, rfl⟩
    · rw [cover_of_ge (by omega)] at hlen
      have hpos := Nat.two_pow_pos d
      rw [Nat.add_mul] at hrest
      rw [List.length_eq_zero_iff.mp hlen, hrest (by omega)]
      exact Or.inl ⟨rfl, by omega⟩
  have hgrown : ∀ {d h i : Nat} (seed : List UInt8),
      ∀ p ∈ ([(h, i)] : List (Nat × Nat)).zip [seed], ∀ j, j / 2 ^ (h + d - p.1.1) = p.1.2 →
        (Node.grow .bytes f d seed h i).get (j - i * 2 ^ d)
          = .bytes (leafOf p.1.1 p.2 (h + d - p.1.1) j) := by
    intro d h i seed p hp j hj
    obtain rfl : p = ((h, i), seed) := by simpa using hp
    simp only [Nat.add_sub_cancel_left] at hj ⊢
    rw [Nat.div_eq_iff (Nat.two_pow_pos _)] at hj
    have hpos := Nat.two_pow_pos d
    rw [hf d seed h i _ (by omega), show i * 2 ^ d + (j - i * 2 ^ d) = j by omega]
  induction d generalizing h i seeds rest with
  | zero =>
      rw [cut]
      by_cases hh : Hits ex 0 i
      · rw [cover_leaf_of_hits hh] at hlen ⊢
        rw [if_pos hh, List.length_eq_zero_iff.mp hlen, List.nil_append, patch_leaf_none]
        exact ⟨rfl, fun p hp => absurd hp (by simp)⟩
      · rw [if_neg hh, blanks]
        rcases hfree hlen hrest hh with ⟨hnil, hge⟩ | ⟨seed, rfl, hcover⟩
        · rw [hnil, cover_of_ge hge, patch_leaf_object_nil]
          exact ⟨(List.append_eq_nil_iff.mp hnil).2.symm, fun p hp => absurd hp (by simp)⟩
        · rw [hcover, List.singleton_append, patch_leaf_object_cons]
          exact ⟨rfl, hgrown seed⟩
  | succ d ih =>
      rw [cut]
      by_cases hh : Hits ex (d + 1) i
      · have hleft : i * 2 ^ (d + 1) = 2 * i * 2 ^ d := by
          rw [Nat.pow_succ]
          ring
        have hright : (i + 1) * 2 ^ (d + 1) = (2 * i + 1 + 1) * 2 ^ d := by
          rw [Nat.pow_succ]
          ring
        have hmid : 2 * i * 2 ^ d + 2 ^ d = (2 * i + 1) * 2 ^ d := by ring
        have hmid' : (2 * i + 1) * 2 ^ d + 2 ^ d = (2 * i + 1 + 1) * 2 ^ d := by ring
        rw [cover_succ_of_hits hh, List.length_append] at hlen
        obtain ⟨s1, s2, hs1, rfl⟩ : ∃ s1 s2,
            s1.length = (cover t ex d (h + 1) (2 * i)).length ∧ seeds = s1 ++ s2 :=
          ⟨seeds.take _, seeds.drop _, List.length_take_of_le (by omega),
            (List.take_append_drop _ _).symm⟩
        rw [List.length_append] at hlen
        have hs2 : s2.length = (cover t ex d (h + 1) (2 * i + 1)).length := by omega
        -- the left subtree leaves the seeds of the right one
        obtain ⟨hl1, hl2⟩ := @ih (h + 1) (2 * i) s1 (s2 ++ rest) hs1 (by
          intro hlt
          rw [cover_of_ge (i := 2 * i + 1) (by omega)] at hs2
          have hle := Nat.mul_le_mul_right (2 ^ d) (Nat.le_succ (2 * i + 1))
          rw [List.length_eq_zero_iff.mp hs2, hrest (by rw [hright]; exact hlt.trans_le hle)]
          rfl)
        obtain ⟨hr1, hr2⟩ := @ih (h + 1) (2 * i + 1) s2 rest hs2
          (by rw [← hright]; exact hrest)
        rw [if_pos hh, patch_inner_none, List.append_assoc, Nat.shiftLeft_eq, Nat.pow_one,
          Nat.mul_comm i 2, hl1]
        refine ⟨hr1, fun p hp j hj => ?_⟩
        rw [cover_succ_of_hits hh, List.zip_append hs1.symm] at hp
        rw [show h + (d + 1) - p.1.1 = h + 1 + d - p.1.1 by omega] at hj ⊢
        rw [Node.get, hleft]
        rcases List.mem_append.mp hp with hp | hp
        · have hbelow := div_of_mem_cover (List.of_mem_zip hp).1 hj
          rw [Nat.div_eq_iff (Nat.two_pow_pos _)] at hbelow
          have hpos := Nat.two_pow_pos d
          rw [if_pos (by omega)]
          exact hl2 p hp j hj
        · have hbelow := div_of_mem_cover (List.of_mem_zip hp).1 hj
          rw [Nat.div_eq_iff (Nat.two_pow_pos _)] at hbelow
          have hpow := Nat.pow_succ 2 d
          have hpos := Nat.two_pow_pos d
          rw [if_neg (by omega), Node.and_two_pow_sub_one (by omega) (by omega),
            show j - 2 * i * 2 ^ d - 2 ^ d = j - (2 * i + 1) * 2 ^ d by omega]
          exact hr2 p hp j hj
      · rw [if_neg hh, blanks]
        rcases hfree hlen hrest hh with ⟨hnil, hge⟩ | ⟨seed, rfl, hcover⟩
        · rw [hnil, cover_of_ge hge, patch_inner_object_nil]
          exact ⟨(List.append_eq_nil_iff.mp hnil).2.symm, fun p hp => absurd hp (by simp)⟩
        · rw [hcover, List.singleton_append, patch_inner_object_cons]
          exact ⟨rfl, hgrown seed⟩

end Meds.Sage
