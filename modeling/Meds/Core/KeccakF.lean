/-
  Meds.Core.KeccakF

  The permutation Keccak-f[1600].

  A state is a 5 × 5 array of lanes of 64 bits, and a round is five step
  mappings, given here bit by bit.  The offsets of `rho` and the round
  constants are those of their defining walks.

  A program computes on lanes as words (`Lanes`).  Each step mapping has its
  version on words, which acts on every bit as the mapping does (`bits_round`).
-/

import Mathlib.Algebra.Ring.Nat
import Mathlib.Data.Nat.Init
import Mathlib.Data.Fin.Basic
import Mathlib.Tactic.Common

namespace Meds.Core.KeccakF

/-- The bits of a state: bit `z` of lane `(x, y)`. -/
abbrev State := Fin 5 → Fin 5 → Fin 64 → Bool

/-! ## The step mappings -/

/-- Every bit takes the parities of two columns. -/
def theta (A : State) : State :=
  let C := fun x z => A x 0 z ^^ A x 1 z ^^ A x 2 z ^^ A x 3 z ^^ A x 4 z
  fun x y z => A x y z ^^ (C (x - 1) z ^^ C (x + 1) (z - 1))

/-- The lane after `t` steps of the walk of `rho`. -/
def rhoLane : Nat → Fin 5 × Fin 5
  | 0 => (1, 0)
  | t + 1 => ((rhoLane t).2, 2 * (rhoLane t).1 + 3 * (rhoLane t).2)

/-- The offset of a lane; lane `(0, 0)` is not on the walk. -/
def rhoOffset (x y : Fin 5) : Nat :=
  match (List.range 24).find? fun t => rhoLane t = (x, y) with
  | some t => (t + 1) * (t + 2) / 2 % 64
  | none => 0

/-- Rotate every lane. -/
def rho (A : State) : State := fun x y z => A x y (z - Fin.ofNat 64 (rhoOffset x y))

/-- Move the lanes. -/
def pi (A : State) : State := fun x y z => A (x + 3 * y) x z

/-- Combine the bits of a row. -/
def chi (A : State) : State := fun x y z => A x y z ^^ (!A (x + 1) y z && A (x + 2) y z)

/-- The shift register of the round constants, after `t` steps. -/
def register : Nat → Nat
  | 0 => 1
  | t + 1 =>
    let r := register t <<< 1
    if r.testBit 8 then r ^^^ 0x171 else r

/-- Bit 0 of the register; its period is 255. -/
def rc (t : Nat) : Bool := (register (t % 255)).testBit 0

/-- The constant of round `ir` has its bits at the positions `2^j - 1`. -/
def roundConstant (ir : Nat) : Nat :=
  (List.range 7).foldl (fun v j => if rc (j + 7 * ir) then v ||| 1 <<< (2 ^ j - 1) else v) 0

/-- Add the round constant to lane `(0, 0)`. -/
def iota (ir : Nat) (A : State) : State := fun x y z =>
  if x = 0 ∧ y = 0 then A x y z ^^ (roundConstant ir).testBit z else A x y z

def round (ir : Nat) (A : State) : State := iota ir (chi (pi (rho (theta A))))

/-- The permutation: rounds 0 to 23. -/
def keccakF (A : State) : State := (List.range 24).foldl (fun A ir => round ir A) A

/-- Bit `i` of a state as a string. -/
def stringBit (A : State) (i : Nat) : Bool :=
  A (Fin.ofNat 5 (i / 64)) (Fin.ofNat 5 (i / 320)) (Fin.ofNat 64 i)

/-! ## On words -/

/-- The lanes of a state as words. -/
abbrev Lanes := Fin 5 → Fin 5 → UInt64

/-- Bit `z` of a word. -/
def bit (v : UInt64) (z : Fin 64) : Bool := v.toBitVec.getLsbD z

/-- The bits of all lanes. -/
def bits (L : Lanes) : State := fun x y z => bit (L x y) z

theorem eq_of_bit {v w : UInt64} (h : ∀ z, bit v z = bit w z) : v = w :=
  UInt64.toBitVec_inj.mp (BitVec.eq_of_getLsbD_eq fun z hz => h ⟨z, hz⟩)

@[simp] theorem bit_xor (v w : UInt64) (z : Fin 64) : bit (v ^^^ w) z = (bit v z ^^ bit w z) := by
  simp [bit]

@[simp] theorem bit_and (v w : UInt64) (z : Fin 64) : bit (v &&& w) z = (bit v z && bit w z) := by
  simp [bit]

@[simp] theorem bit_not (v : UInt64) (z : Fin 64) : bit (~~~v) z = !bit v z := by
  simp [bit]

/-- Rotate a word. -/
def rotl (v : UInt64) (n : Nat) : UInt64 := ⟨v.toBitVec.rotateLeft n⟩

theorem bit_rotl (v : UInt64) {n : Nat} (hn : n < 64) (z : Fin 64) :
    bit (rotl v n) z = bit v (z - Fin.ofNat 64 n) := by
  have hz := z.isLt
  have hval : (z - Fin.ofNat 64 n).val = (64 - n + z) % 64 := by
    rw [Fin.sub_def, Fin.val_ofNat, Nat.mod_eq_of_lt hn]
  rw [bit, bit, hval, rotl, BitVec.getLsbD_rotateLeft_of_le hn]
  by_cases hlt : z.val < n
  · rw [decide_eq_true hlt, cond_true, Nat.mod_eq_of_lt (by omega)]
  · rw [decide_eq_false hlt, cond_false, decide_eq_true hz, Bool.true_and, show 64 - n + z.val = z - n + 64 by omega,
      Nat.add_mod_right, Nat.mod_eq_of_lt (by omega)]

@[simp] theorem rotl_zero (v : UInt64) : rotl v 0 = v := by
  refine eq_of_bit fun z => ?_
  rw [bit_rotl v (by decide)]
  exact congrArg (bit v) ((show ∀ z : Fin 64, z - Fin.ofNat 64 0 = z by decide) z)

def thetaLanes (L : Lanes) : Lanes :=
  let C := fun x => L x 0 ^^^ L x 1 ^^^ L x 2 ^^^ L x 3 ^^^ L x 4
  fun x y => L x y ^^^ (C (x - 1) ^^^ rotl (C (x + 1)) 1)

def rhoLanes (L : Lanes) : Lanes := fun x y => rotl (L x y) (rhoOffset x y)

def piLanes (L : Lanes) : Lanes := fun x y => L (x + 3 * y) x

def chiLanes (L : Lanes) : Lanes := fun x y => L x y ^^^ (~~~L (x + 1) y &&& L (x + 2) y)

def iotaLanes (c : UInt64) (L : Lanes) : Lanes := fun x y =>
  if x = 0 ∧ y = 0 then L x y ^^^ c else L x y

def roundLanes (c : UInt64) (L : Lanes) : Lanes :=
  iotaLanes c (chiLanes (piLanes (rhoLanes (thetaLanes L))))

theorem bits_theta (L : Lanes) : bits (thetaLanes L) = theta (bits L) := by
  funext x y z
  simp only [bits, thetaLanes, theta, bit_xor, bit_rotl _ (show 1 < 64 by decide)]
  rfl

theorem rhoOffset_lt (x y : Fin 5) : rhoOffset x y < 64 := by
  unfold rhoOffset
  split
  · exact Nat.mod_lt _ (by decide)
  · decide

theorem bits_rho (L : Lanes) : bits (rhoLanes L) = rho (bits L) := by
  funext x y z
  exact bit_rotl _ (rhoOffset_lt x y) z

theorem bits_pi (L : Lanes) : bits (piLanes L) = pi (bits L) := rfl

theorem bits_chi (L : Lanes) : bits (chiLanes L) = chi (bits L) := by
  funext x y z
  simp only [bits, chiLanes, chi, bit_xor, bit_and, bit_not]

theorem bits_iota {c : UInt64} {ir : Nat} (hc : c.toNat = roundConstant ir) (L : Lanes) :
    bits (iotaLanes c L) = iota ir (bits L) := by
  funext x y z
  have hbit : bit c z = (roundConstant ir).testBit z := by
    rw [← hc]
    rfl
  simp only [bits, iotaLanes, iota]
  split
  · rw [bit_xor, hbit]
  · rfl

/-- A round on words is a round on their bits. -/
theorem bits_round {c : UInt64} {ir : Nat} (hc : c.toNat = roundConstant ir) (L : Lanes) :
    bits (roundLanes c L) = round ir (bits L) := by
  rw [roundLanes, bits_iota hc, bits_chi, bits_pi, bits_rho, bits_theta, round]

end Meds.Core.KeccakF
