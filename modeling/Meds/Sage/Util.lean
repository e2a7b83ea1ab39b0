/-
  Meds.Sage.Util

  sage-ref/util.py.

  GF(q) is `ZMod q` and a Sage matrix is a Mathlib matrix.  Products,
  determinants and the echelon form are exact.  A SHAKE256 object is what
  `keccak_state` is, the bytes fed to it and the number of bytes read.  The
  field order, the dimensions and the sizes are those of `Params`.
-/

import Mathlib.Algebra.Field.ZMod
import Meds.Core.Echelon
import Meds.Core.Match
import Meds.Core.Sandwich
import Meds.Ref.Util
import Meds.Sage.BitStream
import Meds.Sage.SeedTree

namespace Meds.Sage

open Meds.Core Meds.Ref

/-- A matrix over GF(q). -/
abbrev Mat (q r c : Nat) := Matrix (Fin r) (Fin c) (ZMod q)

/-- An operation that may raise, as a program. -/
def ofExcept {α : Type} : Except PyError α → Run PyError α
  | .ok a => pure a
  | .error e => Run.fail e

/-- `ceil(log(q, 2))`. -/
def gfBits (q : Nat) : Nat := Nat.clog 2 q

/-- `ceil(log(q, 2) / 8)`. -/
def numBytes (q : Nat) : Nat := ceiling (Nat.clog 2 q) 8

/-! ## SHAKE256 objects -/

/-- `SHAKE256.new()`, then `update(data)`. -/
def shakeOf (data : List UInt8) : KeccakState := shake256AbsorbOnce data

/-- `shake.read(length)`. -/
def shakeRead (SHAKE256 : Shake) (shake : KeccakState) (length : Nat) : List UInt8 × KeccakState :=
  shake256Squeeze SHAKE256 length shake

/-- `for i in range(n): val += ord(shake.read(1)) << (i*8)`. -/
def readInt (SHAKE256 : Shake) (n : Nat) (shake : KeccakState) : Nat × KeccakState :=
  forUp 0 n
    (fun i s =>
      let r := shakeRead SHAKE256 s.2 1
      (s.1 + (r.1.getD 0 0).toNat <<< (i * 8), r.2))
    (0, shake)

/-! ## Matrices -/

section

variable {q r c : Nat}

/-- `matrix(GFq, r, c, data)`. -/
def matrixOf (q r c : Nat) (data : List (ZMod q)) : Mat q r c :=
  Matrix.of fun i j => data.getD (i * c + j) 0

/-- `[j for v in M.rows() for j in v]`, as integers. -/
def entriesOf (M : Mat q r c) : List Nat :=
  (List.finRange r).flatMap fun i => (List.finRange c).map fun j => (M i j).val

/-- `I_k.augment(M)`. -/
def augmentIdentity {k : Nat} (M : Mat q k (c - k)) : Mat q k c :=
  Matrix.of fun i j => if h : j < k then (if i.val = j then 1 else 0) else M i ⟨j - k, by omega⟩

/-- `M[:, k:]`. -/
def dropColumns (k : Nat) (M : Mat q r c) : Mat q r (c - k) :=
  Matrix.of fun i j => M i ⟨k + j, by omega⟩

/-- `M[a, b] = v`. -/
def setEntry (M : Mat q r c) (a b : Nat) (v : ZMod q) : Mat q r c :=
  Matrix.of fun i j => if i.val = a ∧ j.val = b then v else M i j

/-- `M.is_invertible()`. -/
def isInvertible {n : Nat} (M : Mat q n n) : Bool := decide (M.det ≠ 0)

/-- The entries of a matrix, and zeros. -/
def table (M : Mat q r c) (i j : Nat) : ZMod q :=
  if h : i < r ∧ j < c then M ⟨i, h.1⟩ ⟨j, h.2⟩ else 0

/-- `M.echelon_form()`. -/
def echelonForm [Fact q.Prime] (M : Mat q r c) : Mat q r c := block r c (echelon r c (table M))

/-- `SF`: the echelon form, if the sum of its diagonal is the number of rows. -/
def sf [Fact q.Prime] (M : Mat q r c) : Option (Mat q r c) :=
  let M := echelonForm M
  if ((List.range r).map fun j => table M j j).sum ≠ (r : ZMod q) then none else some M

/-- `pi`: row `i` of `G`, as an `m × n` matrix, becomes `A * G_i * B`. -/
def pi {m n k : Nat} (A : Mat q m m) (B : Mat q n n) (G : Mat q k (m * n)) : Mat q k (m * n) :=
  Matrix.of fun i x =>
    (A * (Matrix.of fun a b => G i (flat a b)) * B) (finProdFinEquiv.symm x).1
      (finProdFinEquiv.symm x).2

/-! ## Compression -/

/-- `Compress`. -/
def compress (M : Mat q r c) : Except PyError (List UInt8) := do
  let bs ← (entriesOf M).foldlM (fun bs v => bs.write v (gfBits q)) (BitStream.new [])
  pure bs.data

/-- `CompressG`. -/
def compressG (M : Mat q r c) (k m n : Nat) : Except PyError (List UInt8) := do
  let bs ←
    forUpM 0 n (fun i bs => bs.write (table M 1 (m * n - n + i)).val (gfBits q)) (BitStream.new [])
  let bs ←
    forUpM 2 k
      (fun i bs => forUpM k (m * n) (fun j bs => bs.write (table M i j).val (gfBits q)) bs) bs
  pure bs.data

/-- `GFq(bs.read(GF_BITS))`. -/
def readGF (q : Nat) (bs : BitStream) : Except PyError (ZMod q × BitStream) := do
  let (v, bs) ← bs.read (gfBits q)
  pure ((v : ZMod q), bs)

/-- `Decompress`. -/
def decompress (b : List UInt8) (q r c : Nat) : Except PyError (Mat q r c) := do
  let (data, _) ←
    forUpM 0 (r * c)
      (fun _ s => do
        let (v, bs) ← readGF q s.2
        pure (s.1 ++ [v], bs))
      ([], BitStream.new b)
  pure (matrixOf q r c data)

/-- `DecompressG`. -/
def decompressG (b : List UInt8) (q k m n : Nat) : Except PyError (Mat q k (m * n)) := do
  let G : Mat q k (m * n) := augmentIdentity 0
  let G := forUp 1 m (fun i G => setEntry G 0 (i * (n + 1)) 1) G
  let G := forUp 1 (m - 1) (fun i G => setEntry G 1 (i * (n + 1) + 1) 1) G
  let s ←
    forUpM 0 n
      (fun i s => do
        let (v, bs) ← readGF q s.2
        pure (setEntry s.1 1 (m * n - n + i) v, bs))
      (G, BitStream.new b)
  let (G, _) ←
    forUpM 2 k
      (fun i s =>
        forUpM k (m * n)
          (fun j s => do
            let (v, bs) ← readGF q s.2
            pure (setEntry s.1 i j v, bs))
          s)
      s
  pure G

end

/-! ## Sampling -/

section

variable (SHAKE256 : Shake)

/-- One draw of `ExpandFqs`: the masked integer. -/
def drawInt (q : Nat) (shake : KeccakState) : Nat × KeccakState :=
  let (val, shake) := readInt SHAKE256 (numBytes q) shake
  (val &&& (1 <<< gfBits q - 1), shake)

/-- The `while` loop of `ExpandFqs`. -/
def drawFq (q : Nat) (shake : KeccakState) : Run PyError (Nat × KeccakState) :=
  Run.loop
    (fun shake =>
      let (val, shake) := drawInt SHAKE256 q shake
      if val < q then pure (.inr (val, shake)) else pure (.inl shake))
    shake

/-- `ExpandFqs` on a SHAKE256 object, which it leaves advanced. -/
def expandFqs (q num : Nat) (shake : KeccakState) : Run PyError (List (ZMod q) × KeccakState) :=
  forUpM 0 num
    (fun _ s => do
      let (val, shake) ← drawFq SHAKE256 q s.2
      pure (s.1 ++ [(val : ZMod q)], shake))
    ([], shake)

/-- `ExpandInvMat`. -/
def expandInvMat (q n : Nat) (seed : List UInt8) : Run PyError (Mat q n n) :=
  Run.loop
    (fun shake => do
      let (data, shake) ← expandFqs SHAKE256 q (n * n) shake
      let M := matrixOf q n n data
      if isInvertible M then pure (.inr M) else pure (.inl shake))
    (shakeOf seed)

/-- `ExpandSystMat`. -/
def expandSystMat (q k m n : Nat) (seed : List UInt8) : Run PyError (Mat q k (m * n)) := do
  let (data, _) ← expandFqs SHAKE256 q (k * (m * n - k)) (shakeOf seed)
  pure (augmentIdentity (matrixOf q k (m * n - k) data))

/-- `XOF` on a list of lengths. -/
def xofTuple (seed : List UInt8) (length : List Nat) : List (List UInt8) :=
  let data := (shakeRead SHAKE256 (shakeOf seed) length.sum).1
  (List.range length.length).map fun i =>
    (data.drop (length.take i).sum).take (length.getD i 0)

end

section

variable (P : Params) (SHAKE256 : Shake)

/-- `H(params)`. -/
def hash (m : List UInt8) : List UInt8 := (shakeRead SHAKE256 (shakeOf m) P.digestBytes).1

/-- `G(params, salt)`. -/
def hashPair (salt value : List UInt8) (addr : Nat) : List UInt8 × List UInt8 :=
  let shake := shakeOf (salt ++ value ++ addrBytes addr)
  let (left, shake) := shakeRead SHAKE256 shake P.stSeedBytes
  let (right, _) := shakeRead SHAKE256 shake P.stSeedBytes
  (left, right)

/-- `params.seed_tree_cost`. -/
def seedTreeCost : Nat := (seedMaxTreeLen P.t P.w).toNat * P.stSeedBytes

/-- `for i, h_i in enumerate(h): if h_i > 0: seeds.delete(i)`. -/
def deleteChallenged (h : List Nat) (seeds : SeedTree) : SeedTree :=
  forUp 0 h.length (fun i seeds => if h.getD i 0 > 0 then seeds.delete i else seeds) seeds

/-- `b"".join(path)`. -/
def joinPath : List Value → Except PyError (List UInt8)
  | [] => pure []
  | .bytes b :: path => do
    let ret ← joinPath path
    pure (b ++ ret)
  | _ :: _ => throw .typeError

/-- `SeedTreeToPath`. -/
def seedTreeToPath (h : List Nat) (root salt : List UInt8) : Except PyError (List UInt8) := do
  let seeds := deleteChallenged h (SeedTree.ofRoot P.t root (hashPair P SHAKE256 salt))
  let ret ← joinPath seeds.path
  pure (ret ++ List.replicate (seedTreeCost P - ret.length) 0)

/-- The seeds that `PathToSeedTree` cuts off the front of the path. -/
def parsePath (count : Nat) (path : List UInt8) : List (List UInt8) :=
  (forUp 0 count
    (fun _ s => (s.1 ++ [s.2.take P.stSeedBytes], s.2.drop P.stSeedBytes))
    (([] : List (List UInt8)), path)).1

/-- `PathToSeedTree`. -/
def pathToSeedTree (h : List Nat) (path salt : List UInt8) : SeedTree :=
  let seeds :=
    forUp 0 h.length (fun i seeds => if h.getD i 0 > 0 then seeds.delete i else seeds)
      (SeedTree.new P.t)
  seeds.patch (parsePath P seeds.path.length path) (hashPair P SHAKE256 salt)

/-! ## The challenge -/

/-- The loop of `PaseHash` that draws a nonzero challenge value. -/
def drawVal (shake : KeccakState) : Run PyError (Nat × KeccakState) :=
  Run.loop
    (fun (val, shake) =>
      if val < 1 ∨ val > P.s - 1 then
        let (val, shake) := readInt SHAKE256 (numBytes P.s) shake
        pure (.inl (val &&& (1 <<< Nat.clog 2 P.s - 1), shake))
      else pure (.inr (val, shake)))
    (0, shake)

/-- `PaseHash`. -/
def parseHash (digest : List UInt8) : Run PyError (List Nat) :=
  Run.loop
    (fun s : Nat × List Nat × KeccakState =>
      let (num, h, shake) := s
      if num < P.w then
        let (pos, shake) := readInt SHAKE256 (numBytes P.t) shake
        let pos := pos &&& (1 <<< Nat.clog 2 P.t - 1)
        if pos ≥ P.t then pure (.inl (num, h, shake))
        else if h.getD pos 0 > 0 then pure (.inl (num, h, shake))
        else do
          let (val, shake) ← drawVal P SHAKE256 shake
          pure (.inl (num + 1, h.set pos val, shake))
      else pure (.inr h))
    (0, List.replicate P.t 0, shakeOf digest)

end

end Meds.Sage
