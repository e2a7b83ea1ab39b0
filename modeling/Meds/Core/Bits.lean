/-
  Meds.Core.Bits

  Little-endian bit view of byte memory: bit `b` is bit `b % 8` of byte
  `b / 8`.  `packBytes w l` is the abstract fixed-width packing of the
  values `l` (value `j` occupies bits `[w * j, w * (j + 1))`, the last byte
  is filled up with zero bits) and `unpackAt` reads one value back.
-/

import Meds.Core.Arr
import Mathlib.Data.Nat.Init
import Mathlib.Data.Nat.Bitwise

namespace Meds.Core

/-! ## Bytes and their bits -/

theorem testBit_uint8 (n k : Nat) :
    (UInt8.ofNat n).toNat.testBit k = (decide (k < 8) && n.testBit k) := by
  rw [UInt8.toNat_ofNat', Nat.testBit_mod_two_pow]

theorem testBit_byte_of_ge (x : UInt8) {k : Nat} (h : 8 ≤ k) : x.toNat.testBit k = false :=
  Nat.testBit_lt_two_pow (Nat.lt_of_lt_of_le x.toNat_lt (Nat.pow_le_pow_right (by decide) h))

/-- A byte is determined by its eight bits. -/
theorem byte_ext {x y : UInt8} (h : ∀ k, k < 8 → x.toNat.testBit k = y.toNat.testBit k) : x = y := by
  apply UInt8.toNat_inj.mp
  apply Nat.eq_of_testBit_eq
  intro k
  by_cases hk : k < 8
  · exact h k hk
  · rw [testBit_byte_of_ge x (by omega), testBit_byte_of_ge y (by omega)]

/-- Bit `b` of byte memory. -/
def bitAt (d : Nat → UInt8) (b : Nat) : Bool := (d (b / 8)).toNat.testBit (b % 8)

theorem bitAt_byte (d : Nat → UInt8) {i k : Nat} (hk : k < 8) :
    bitAt d (8 * i + k) = (d i).toNat.testBit k := by
  unfold bitAt
  rw [show (8 * i + k) / 8 = i by omega, show (8 * i + k) % 8 = k by omega]

/-- Byte memories agree where their bits do. -/
theorem eq_of_bitAt {d e : Nat → UInt8} {i : Nat}
    (h : ∀ k, k < 8 → bitAt d (8 * i + k) = bitAt e (8 * i + k)) : d i = e i := by
  apply byte_ext
  intro k hk
  rw [← bitAt_byte d hk, ← bitAt_byte e hk]
  exact h k hk

theorem bitAt_congr {d e : Nat → UInt8} {b : Nat} (h : d (b / 8) = e (b / 8)) :
    bitAt d b = bitAt e b := by
  unfold bitAt
  rw [h]

/-! ## Fixed-width packing -/

/-- Bytes needed for `n` bits. -/
def byteLen (n : Nat) : Nat := (n + 7) / 8

/-- Bit `b` of the packing of `l` at width `w`. -/
def packBit (w : Nat) (l : List Nat) (b : Nat) : Bool :=
  decide (b < w * l.length) && (l.getD (b / w) 0).testBit (b % w)

/-- The packing of `l` at width `w`, in bytes. -/
def packBytes (w : Nat) (l : List Nat) : List UInt8 :=
  (List.range (byteLen (w * l.length))).map fun j =>
    UInt8.ofNat (Nat.ofBits fun k : Fin 8 => packBit w l (8 * j + k))

@[simp] theorem length_packBytes (w : Nat) (l : List Nat) :
    (packBytes w l).length = byteLen (w * l.length) := by
  simp [packBytes]

theorem testBit_packBytes (w : Nat) (l : List Nat) {j k : Nat} (hj : j < byteLen (w * l.length))
    (hk : k < 8) :
    ((packBytes w l).getD j default).toNat.testBit k = packBit w l (8 * j + k) := by
  simp only [packBytes, List.getD_eq_getElem?_getD, List.getElem?_map, List.getElem?_range hj,
    Option.map_some, Option.getD_some]
  rw [testBit_uint8, Nat.testBit_ofBits_lt _ _ hk]
  simp [hk]

/-- Value `j` of the width-`w` field sequence that starts at byte `o`. -/
def unpackAt (d : Nat → UInt8) (o w j : Nat) : Nat :=
  Nat.ofBits fun i : Fin w => bitAt d (8 * o + w * j + i)

theorem unpackAt_lt (d : Nat → UInt8) (o w j : Nat) : unpackAt d o w j < 2 ^ w :=
  Nat.ofBits_lt_two_pow _

/-- Reading depends only on the bytes the field covers. -/
theorem unpackAt_congr {d e : Nat → UInt8} {o o' w j : Nat}
    (h : ∀ b, w * j ≤ b → b < w * (j + 1) → d (o + b / 8) = e (o' + b / 8)) :
    unpackAt d o w j = unpackAt e o' w j := by
  unfold unpackAt
  congr 1
  funext i
  have hb := h (w * j + i) (by omega) (by rw [Nat.mul_add, Nat.mul_one]; omega)
  unfold bitAt
  rw [show (8 * o + w * j + ↑i) / 8 = o + (w * j + ↑i) / 8 by omega,
    show (8 * o' + w * j + ↑i) / 8 = o' + (w * j + ↑i) / 8 by omega, hb]
  congr 1
  omega

/-- Unpacking undoes packing. -/
theorem unpackAt_packBytes {d : Nat → UInt8} {o w : Nat} {l : List Nat}
    (hd : ∀ i, i < byteLen (w * l.length) → d (o + i) = (packBytes w l).getD i default)
    {j : Nat} (hj : j < l.length) (hlt : l.getD j 0 < 2 ^ w) :
    unpackAt d o w j = l.getD j 0 := by
  apply Nat.eq_of_testBit_eq
  intro i
  by_cases hi : i < w
  · have hmul : w * j + w ≤ w * l.length := by
      rw [← Nat.mul_succ]
      exact Nat.mul_le_mul_left w hj
    have hpos : 0 < w := by omega
    unfold unpackAt
    rw [Nat.testBit_ofBits_lt _ _ hi]
    change bitAt d (8 * o + w * j + i) = _
    have hbyte : (w * j + i) / 8 < byteLen (w * l.length) := by
      unfold byteLen
      omega
    unfold bitAt
    rw [show (8 * o + w * j + i) / 8 = o + (w * j + i) / 8 by omega,
      show (8 * o + w * j + i) % 8 = (w * j + i) % 8 by omega, hd _ hbyte,
      testBit_packBytes w l hbyte (Nat.mod_lt _ (by decide)), Nat.div_add_mod]
    unfold packBit
    rw [show (w * j + i) / w = j by rw [Nat.mul_add_div hpos, Nat.div_eq_of_lt hi, Nat.add_zero],
      show (w * j + i) % w = i by rw [Nat.mul_add_mod, Nat.mod_eq_of_lt hi]]
    simp only [show w * j + i < w * l.length by omega, decide_true, Bool.true_and]
  · have hpow : 2 ^ w ≤ 2 ^ i := Nat.pow_le_pow_right (by decide) (by omega)
    rw [Nat.testBit_lt_two_pow (Nat.lt_of_lt_of_le (unpackAt_lt d o w j) hpow),
      Nat.testBit_lt_two_pow (Nat.lt_of_lt_of_le hlt hpow)]

end Meds.Core
