/-
  Meds.Params

  The macros of include/params.h, and the relations between them under which
  include/params.py generates them, with exact logarithms; what its doubles
  make of the masks is in Sage/ChallengeMasks.  `GFq_t` is `uint16_t` where
  256 < p, so in every set that is shipped, and stays fixed here.
-/

import Mathlib.Algebra.Order.Ring.Int
import Mathlib.Data.Nat.Log
import Mathlib.Data.Nat.Prime.Defs

namespace Meds

/-- One parameter set of params.h. -/
structure Params where
  digestBytes : Nat
  pubSeedBytes : Nat
  secSeedBytes : Nat
  stSeedBytes : Nat
  stSaltBytes : Nat
  p : Nat
  gfqBits : Nat
  m : Nat
  n : Nat
  k : Nat
  s : Nat
  t : Nat
  w : Nat
  seedTreeHeight : Nat
  seedTreeSize : Nat
  maxPathLen : Nat
  tMask : Nat
  tBytes : Nat
  sMask : Nat
  pkBytes : Nat
  skBytes : Nat
  sigBytes : Nat
deriving DecidableEq, Repr

/-- The `CEILING` macro. -/
def ceiling (x y : Nat) : Nat := (x + y - 1) / y

/-- Bytes of a packed `m × m` matrix. -/
def Params.matABytes (P : Params) : Nat := ceiling (P.m * P.m * P.gfqBits) 8

/-- Bytes of a packed `n × n` matrix. -/
def Params.matBBytes (P : Params) : Nat := ceiling (P.n * P.n * P.gfqBits) 8

/-- Entries of one generator that the public key stores. -/
def Params.pkEntries (P : Params) : Nat :=
  P.k * (P.m * P.n - P.k) - (P.m * P.n - P.k + (P.m - 1) * P.n - P.k)

/-- `pk_size` of params.py. -/
def Params.pkSize (P : Params) : Nat :=
  (P.s - 1) * ceiling (P.pkEntries * P.gfqBits) 8 + P.pubSeedBytes

/-- `sk_size` of params.py. -/
def Params.skSize (P : Params) : Nat :=
  (P.s - 1) * (P.matABytes + P.matBBytes) + P.secSeedBytes + P.pubSeedBytes

/-- `sig_size` of params.py. -/
def Params.sigSize (P : Params) : Nat :=
  P.digestBytes + P.w * (P.matABytes + P.matBBytes) + P.maxPathLen * P.stSeedBytes + P.stSaltBytes

/-- `seed_max_tree_len` of params.py. -/
def seedMaxTreeLen (t w : Nat) : Int :=
  2 ^ Nat.clog 2 w + (w : Int) * ((Nat.clog 2 t : Int) - Nat.clog 2 w - 1)

/-- The part of a parameter set that the matrices depend on. -/
structure Params.Square (P : Params) : Prop where
  m_eq : P.m = P.n
  k_eq : P.k = P.n
  two_le_n : 2 ≤ P.n
  prime : P.p.Prime
  p_le : P.p ≤ 2 ^ P.gfqBits
  gfqBits_le : P.gfqBits ≤ 16

/-- A parameter set as params.py generates it. -/
structure Params.Valid (P : Params) : Prop extends P.Square where
  two_le_s : 2 ≤ P.s
  s_le : P.s ≤ 256
  one_le_w : 1 ≤ P.w
  w_le : P.w ≤ P.t
  height : P.seedTreeHeight = Nat.clog 2 P.t
  treeSize : P.seedTreeSize = 2 ^ (Nat.clog 2 P.t + 1) - 1
  pathLen : (P.maxPathLen : Int) = seedMaxTreeLen P.t P.w
  tMask_eq : P.tMask = 2 ^ Nat.clog 2 P.t - 1
  sMask_eq : P.sMask = 2 ^ Nat.clog 2 P.s - 1
  pk_eq : P.pkBytes = P.pkSize
  sk_eq : P.skBytes = P.skSize
  sig_eq : P.sigBytes = P.sigSize

theorem Params.Square.p_le_16 {P : Params} (h : P.Square) : P.p ≤ 2 ^ 16 :=
  h.p_le.trans (Nat.pow_le_pow_right (by decide) h.gfqBits_le)

theorem Params.Square.gfqBits_pos {P : Params} (h : P.Square) : 0 < P.gfqBits := by
  refine Nat.pos_of_ne_zero fun h0 => ?_
  have := h.p_le
  rw [h0] at this
  exact absurd h.prime.two_le (by omega)

/-- A parameter set small enough to run every algorithm on. -/
def tiny : Params where
  digestBytes := 1
  pubSeedBytes := 1
  secSeedBytes := 1
  stSeedBytes := 1
  stSaltBytes := 1
  p := 3
  gfqBits := 8
  m := 2
  n := 2
  k := 2
  s := 2
  t := 2
  w := 1
  seedTreeHeight := 1
  seedTreeSize := 3
  maxPathLen := 1
  tMask := 1
  tBytes := 1
  sMask := 1
  pkBytes := 3
  skBytes := 10
  sigBytes := 11

theorem tiny_valid : tiny.Valid where
  m_eq := rfl
  k_eq := rfl
  two_le_n := by decide
  prime := Nat.prime_three
  p_le := by decide
  gfqBits_le := by decide
  two_le_s := by decide
  s_le := by decide
  one_le_w := by decide
  w_le := by decide
  height := by decide
  treeSize := by decide
  pathLen := by decide
  tMask_eq := by decide
  sMask_eq := by decide
  pk_eq := by decide
  sk_eq := by decide
  sig_eq := by decide

end Meds
