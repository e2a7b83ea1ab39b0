/-
  Meds.Ref.Seed

  ref/seed.c: the seed tree, stored level by level in one byte array, its
  expansion `t_hash`, and the walk `stree_to_path_to_stree` that writes the
  path of a challenge or rebuilds the tree from it.

  Heights, node numbers and offsets are natural numbers.  A tree whose
  offsets fit the `int`s of the source has node numbers of four bytes.
-/

import Meds.Params
import Meds.Core.Arr
import Meds.Core.Loop
import Meds.Ref.Fips202

namespace Meds.Ref

open Meds.Core

/-- An access outside an object. -/
inductive Fault where
  | outOfBounds
deriving DecidableEq, Repr

/-- `len` bytes of an object from offset `off`; `none` when one lies outside. -/
def readBytes (mem : Nat → Option UInt8) (off len : Nat) : Option (List UInt8) :=
  (List.range len).mapM fun j => mem (off + j)

/-- `SEED_TREE_ADDR`. -/
def seedTreeAddr (h i : Nat) : Nat := 1 <<< h - 1 + i

/-- The four address bytes of a hash input. -/
def addrBytes (a : Nat) : List UInt8 :=
  (List.range 4).map fun j => UInt8.ofNat ((a >>> (j * 8)) &&& 0xFF)

section

variable (P : Params) (SHAKE256 : Shake)

/-- The seed stored at a tree node. -/
def seedAt (stree : Arr UInt8) (h i : Nat) : List UInt8 :=
  stree.slice (P.stSeedBytes * seedTreeAddr h i) P.stSeedBytes

/-- The body of the inner loop of `t_hash`: expand the parent of `(h, i)`. -/
def tHashNode (salt : List UInt8) (stree : Arr UInt8) (h i : Nat) : Arr UInt8 :=
  let buf := salt ++ seedAt P stree (h - 1) (i >>> 1) ++ addrBytes (seedTreeAddr (h - 1) (i >>> 1))
  let shake := shake256Finalize (shake256Absorb shake256Init buf)
  let len :=
    if (i + 1) <<< (P.seedTreeHeight - h) ≥ P.t then P.stSeedBytes else 2 * P.stSeedBytes
  stree.blit (P.stSeedBytes * seedTreeAddr h i) (shake256Squeeze SHAKE256 len shake).1

/-- `for (i = start; i < end; i += 2)`, cut off at the last leaf. -/
def tHashLevel (salt : List UInt8) (h start stop : Nat) (stree : Arr UInt8) : Arr UInt8 :=
  forBreak 0 ((stop - start + 1) / 2)
    (fun q stree =>
      if (start + 2 * q) <<< (P.seedTreeHeight - h) ≥ P.t then (stree, true)
      else (tHashNode P SHAKE256 salt stree h (start + 2 * q), false))
    stree

/-- `t_hash`: expand the subtree of node `(h, i)`. -/
def tHash (salt : List UInt8) (stree : Arr UInt8) (h i : Nat) : Arr UInt8 :=
  (forBreak (h + 1) (P.seedTreeHeight + 1)
    (fun h (start, stop, stree) =>
      let start := start <<< 1
      let stop := stop <<< 1
      if start <<< (P.seedTreeHeight - h) ≥ P.t then ((start, stop, stree), true)
      else ((start, stop, tHashLevel P SHAKE256 salt h start stop stree), false))
    (i, i + 1, stree)).2.2

/-- The positions of the nonzero challenges, in the array `indices`. -/
def walkIndices (hDigest : Arr UInt8) : Arr Nat :=
  (forUp 0 P.t
    (fun i (indices, idx) =>
      if hDigest.get i > 0 then (indices.set idx i, idx + 1) else (indices, idx))
    (Arr.replicate P.w 0, 0)).1

/-- Where the walk stands: level, index, and the next excluded leaf. -/
structure WalkPos where
  h : Nat
  i : Nat
  id : Nat
deriving DecidableEq, Repr

variable {ε τ : Type}

/-- The inner loop that descends while the next excluded leaf is below the
    node.  The flag is `index_leaf`. -/
def descend (indices : Arr Nat) : WalkPos → Run ε (WalkPos × Bool) :=
  Run.loop fun pos =>
    if indices.get pos.id >>> (P.seedTreeHeight - pos.h) = pos.i then
      let h := pos.h + 1
      let i := pos.i <<< 1
      if h > P.seedTreeHeight then
        pure (.inr (⟨h - 1, i >>> 1, if pos.id + 1 < P.w then pos.id + 1 else pos.id⟩, true))
      else pure (.inl ⟨h, i, pos.id⟩)
    else pure (.inr (pos, false))

/-- The loop that climbs out of right children. -/
def backtrack : Nat × Nat → Run ε (Nat × Nat) :=
  Run.loop fun (h, i) =>
    if i &&& 1 = 1 then pure (.inl (h - 1, i >>> 1)) else pure (.inr (h, i))

/-- Backtrack, step to the next node, and return once it starts past the last leaf. -/
def nextNode (pos : WalkPos) (acc : τ) : Run ε (WalkPos × τ ⊕ τ) := do
  let (h, i) ← backtrack (pos.h, pos.i)
  let i := i + 1
  if i <<< (P.seedTreeHeight - h) ≥ P.t then pure (.inr acc) else pure (.inl (⟨h, i, pos.id⟩, acc))

/-- One round of the loop of `stree_to_path_to_stree`; `visit` is the branch
    taken at a node with `index_leaf == 0`. -/
def walkRound (indices : Arr Nat) (visit : Nat → Nat → τ → Run ε τ) (s : WalkPos × τ) :
    Run ε (WalkPos × τ ⊕ τ) := do
  let (pos, indexLeaf) ← descend P indices s.1
  let acc ← if indexLeaf then pure s.2 else visit pos.h pos.i s.2
  nextNode P pos acc

/-- The loop of `stree_to_path_to_stree`. -/
def walk (hDigest : Arr UInt8) (visit : Nat → Nat → τ → Run ε τ) (acc : τ) : Run ε τ :=
  Run.loop (walkRound P (walkIndices P hDigest) visit) (⟨0, 0, 0⟩, acc)

inductive Mode where
  | streeToPath
  | pathToStree
deriving DecidableEq, Repr

/-- What the walk works on: the tree, the memory behind `path`, and the path pointer. -/
structure PathState where
  stree : Arr UInt8
  path : Arr UInt8
  pos : Nat

/-- The two branches at a node with `index_leaf == 0`.  Reading the path goes
    through `mem`, the readable bytes of the object the path lies in. -/
def visitNode (mode : Mode) (mem : Nat → Option UInt8) (salt : List UInt8) (h i : Nat)
    (st : PathState) : Run Fault PathState :=
  match mode with
  | .streeToPath =>
      pure { st with
        path := st.path.blit st.pos (seedAt P st.stree h i)
        pos := st.pos + P.stSeedBytes }
  | .pathToStree => do
      let seed ← Run.ofOption .outOfBounds (readBytes mem st.pos P.stSeedBytes)
      let stree := st.stree.blit (P.stSeedBytes * seedTreeAddr h i) seed
      pure { st with stree := tHash P SHAKE256 salt stree h i, pos := st.pos + P.stSeedBytes }

def streeToPathToStree (mode : Mode) (mem : Nat → Option UInt8) (hDigest : Arr UInt8)
    (salt : List UInt8) (st : PathState) : Run Fault PathState :=
  walk P hDigest (visitNode P SHAKE256 mode mem salt) st

/-- `stree_to_path`: write the path to `path` from `pos` on. -/
def streeToPath (stree hDigest path : Arr UInt8) (pos : Nat) (salt : List UInt8) :
    Run Fault PathState :=
  streeToPathToStree P SHAKE256 .streeToPath (fun _ => none) hDigest salt ⟨stree, path, pos⟩

/-- `path_to_stree`: read the path from `mem` at `pos` on. -/
def pathToStree (stree hDigest : Arr UInt8) (mem : Nat → Option UInt8) (pos : Nat)
    (salt : List UInt8) : Run Fault PathState :=
  streeToPathToStree P SHAKE256 .pathToStree mem hDigest salt ⟨stree, Arr.empty, pos⟩

end

end Meds.Ref
