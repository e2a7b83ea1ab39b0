/-
  Meds.Core.KeccakString

  Keccak on bit strings: the padding `pad10*1`, the sponge over Keccak-f[1600],
  and the functions SHAKE128, SHAKE256, SHA3-256 and SHA3-512.

  Strings are lists of bits, the least significant bit of a byte first
  (`bitsOf`).  A message is padded, cut into blocks and absorbed block by
  block; the output is a stream of bits.
-/

import Meds.Core.Bits
import Meds.Core.KeccakF
import Mathlib.Data.List.GetD
import Mathlib.Logic.Function.Iterate

namespace Meds.Core.KeccakF

/-! ## Strings -/

/-- A list cut into blocks; what does not fill a block is left out. -/
def blocks {α : Type} (r : Nat) (l : List α) : List (List α) :=
  (List.range (l.length / r)).map fun i => (l.drop (i * r)).take r

/-- The bits of bytes. -/
def bitsOf (l : List UInt8) : List Bool := l.flatMap fun b => (List.range 8).map b.toNat.testBit

/-- Byte `k` of a stream of bits. -/
def byteOf (f : Nat → Bool) (k : Nat) : UInt8 :=
  UInt8.ofNat (BitVec.ofBoolListLE ((List.range 8).map fun j => f (8 * k + j))).toNat

/-- Xor a string into a state. -/
def xorString (A : State) (P : List Bool) : State := fun x y z =>
  A x y z ^^ P.getD (64 * (5 * y.val + x.val) + z.val) false

/-! ## The sponge -/

/-- `pad10*1`. -/
def pad101 (x m : Nat) : List Bool :=
  true :: (List.replicate ((-(m : Int) - 2) % (x : Int)).toNat false ++ [true])

def absorbString (A : State) (P : List (List Bool)) : State :=
  P.foldl (fun A block => keccakF (xorString A block)) A

/-- KECCAK[c], as the stream of its output. -/
def keccak (c : Nat) (N : List Bool) : Nat → Bool :=
  let r := 1600 - c
  let A := absorbString (fun _ _ _ => false) (blocks r (N ++ pad101 r N.length))
  fun i => stringBit (keccakF^[i / r] A) (i % r)

def SHAKE128 (M : List Bool) : Nat → Bool := keccak 256 (M ++ [true, true, true, true])

def SHAKE256 (M : List Bool) : Nat → Bool := keccak 512 (M ++ [true, true, true, true])

def SHA3_256 (M : List Bool) : List Bool :=
  (List.range 256).map (keccak 512 (M ++ [false, true]))

def SHA3_512 (M : List Bool) : List Bool :=
  (List.range 512).map (keccak 1024 (M ++ [false, true]))

/-! ## Blocks -/

theorem length_of_mem_blocks {α : Type} {r : Nat} {l block : List α} (h : block ∈ blocks r l) :
    block.length = r := by
  obtain ⟨i, hi, rfl⟩ := List.mem_map.mp h
  have hi : i < l.length / r := List.mem_range.mp hi
  have hr : 0 < r := by
    rcases Nat.eq_zero_or_pos r with rfl | hr
    · rw [Nat.div_zero] at hi
      exact absurd hi (Nat.not_lt_zero i)
    · exact hr
  have := (Nat.le_div_iff_mul_le hr).mp hi
  rw [Nat.succ_mul] at this
  rw [List.length_take, List.length_drop]
  omega

theorem blocks_append {α : Type} {r : Nat} (hr : 0 < r) {b : List α} (hb : b.length = r)
    (l : List α) : blocks r (b ++ l) = b :: blocks r l := by
  rw [blocks, List.length_append, hb, Nat.add_div_left _ hr, List.range_succ_eq_map, List.map_cons,
    List.map_map, blocks, Nat.zero_mul, List.drop_zero, List.take_left' hb]
  congr 1
  refine List.map_congr_left fun i _ => ?_
  rw [Function.comp_apply, Nat.succ_mul, Nat.add_comm, ← List.drop_drop, List.drop_left' hb]

/-- A list of whole blocks is its blocks. -/
theorem flatten_blocks {α : Type} {r : Nat} (hr : 0 < r) {l : List α} (h : l.length % r = 0) :
    (blocks r l).flatten = l := by
  obtain ⟨n, hn⟩ : ∃ n, l.length = n * r :=
    ⟨l.length / r, (Nat.div_mul_cancel (Nat.dvd_of_mod_eq_zero h)).symm⟩
  clear h
  induction n generalizing l with
  | zero =>
      rw [Nat.zero_mul] at hn
      rw [List.eq_nil_of_length_eq_zero hn, blocks, List.length_nil, Nat.zero_div]
      rfl
  | succ n ih =>
      rw [Nat.succ_mul] at hn
      have htake : (l.take r).length = r := by
        rw [List.length_take]
        omega
      conv_lhs => rw [← List.take_append_drop r l]
      rw [blocks_append hr htake, List.flatten_cons, ih (by rw [List.length_drop]; omega),
        List.take_append_drop]

/-! ## Bits of bytes -/

@[simp] theorem bitsOf_nil : bitsOf [] = [] := rfl

theorem bitsOf_append (l l' : List UInt8) : bitsOf (l ++ l') = bitsOf l ++ bitsOf l' :=
  List.flatMap_append ..

theorem bitsOf_cons (b : UInt8) (l : List UInt8) : bitsOf (b :: l) = bitsOf [b] ++ bitsOf l :=
  bitsOf_append [b] l

@[simp] theorem length_bitsOf (l : List UInt8) : (bitsOf l).length = 8 * l.length := by
  induction l with
  | nil => rfl
  | cons b l ih =>
      rw [bitsOf_cons, List.length_append, ih, List.length_cons, Nat.mul_succ, Nat.add_comm]
      rfl

/-- The bits of bytes are the bits of memory. -/
theorem getD_bitsOf (l : List UInt8) (i : Nat) :
    (bitsOf l).getD i false = bitAt (fun k => l.getD k 0) i := by
  induction l generalizing i with
  | nil =>
      rw [bitAt]
      simp
  | cons b l ih =>
      by_cases hi : i < 8
      · rw [bitsOf_cons, List.getD_append _ _ _ _ (by rw [length_bitsOf]; exact hi), bitAt,
          Nat.div_eq_of_lt hi, Nat.mod_eq_of_lt hi]
        simp [bitsOf, List.getD_eq_getElem?_getD, hi]
      · rw [bitsOf_cons, List.getD_append_right _ _ _ _ (by rw [length_bitsOf]; exact Nat.le_of_not_lt hi),
          length_bitsOf, ih, bitAt, bitAt, List.length_singleton, Nat.mul_one,
          show i / 8 = (i - 8) / 8 + 1 by omega, show i % 8 = (i - 8) % 8 by omega,
          List.getD_cons_succ]

theorem testBit_byteOf (f : Nat → Bool) (k : Nat) {j : Nat} (hj : j < 8) :
    (byteOf f k).toNat.testBit j = f (8 * k + j) := by
  rw [byteOf, testBit_uint8, decide_eq_true hj, Bool.true_and]
  change (BitVec.ofBoolListLE _).getLsbD j = _
  rw [BitVec.getLsbD_ofBoolListLE, List.getD_eq_getElem?_getD]
  simp [hj]

/-- A stream of bytes has the bits of its bytes. -/
theorem bitsOf_range_byteOf (f : Nat → Bool) (n : Nat) :
    bitsOf ((List.range n).map (byteOf f)) = (List.range (8 * n)).map f := by
  induction n with
  | zero => rfl
  | succ n ih =>
      rw [List.range_succ, List.map_append, bitsOf_append, ih, Nat.mul_succ, List.range_add,
        List.map_append, List.map_map]
      congr 1
      rw [List.map_singleton, bitsOf, List.flatMap_singleton]
      exact List.map_congr_left fun j hj => testBit_byteOf f n (List.mem_range.mp hj)

theorem bitsOf_replicate (n : Nat) : bitsOf (List.replicate n 0) = List.replicate (8 * n) false := by
  induction n with
  | zero => rfl
  | succ n ih =>
      rw [List.replicate_succ, bitsOf_cons, ih, Nat.mul_succ, Nat.add_comm, List.replicate_add]
      rfl

/-- The blocks of the bits are the bits of the blocks. -/
theorem blocks_bitsOf {r : Nat} (hr : 0 < r) {l : List UInt8} (h : l.length % r = 0) :
    blocks (8 * r) (bitsOf l) = (blocks r l).map bitsOf := by
  conv_lhs => rw [← flatten_blocks hr h]
  have hlen : ∀ block ∈ blocks r l, block.length = r := fun _ => length_of_mem_blocks
  generalize blocks r l = bs at hlen
  induction bs with
  | nil =>
      rw [List.flatten_nil, bitsOf_nil, blocks, List.length_nil, Nat.zero_div]
      rfl
  | cons b bs ih =>
      rw [List.flatten_cons, bitsOf_append, blocks_append (by omega)
        (by rw [length_bitsOf, hlen b List.mem_cons_self]),
        ih fun b' hb' => hlen b' (List.mem_cons_of_mem _ hb'), List.map_cons]

end Meds.Core.KeccakF
