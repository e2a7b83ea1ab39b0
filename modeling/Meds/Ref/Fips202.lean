/-
  Meds.Ref.Fips202

  The interface of ref/fips202.c that the scheme uses.  SHAKE256 itself is a
  parameter: any function from byte strings to infinite byte streams.
  Absorbing appends to the input, squeezing reads the next piece of the
  stream of what was absorbed.
-/

import Mathlib.Data.List.Basic

namespace Meds.Ref

/-- An extendable-output function. -/
abbrev Shake := List UInt8 → Nat → UInt8

/-- `keccak_state`: the bytes absorbed and the number of bytes squeezed. -/
structure KeccakState where
  absorbed : List UInt8
  pos : Nat
deriving DecidableEq, Repr

def shake256Init : KeccakState := ⟨[], 0⟩

def shake256Absorb (state : KeccakState) (input : List UInt8) : KeccakState :=
  { state with absorbed := state.absorbed ++ input }

def shake256Finalize (state : KeccakState) : KeccakState := { state with pos := 0 }

def shake256AbsorbOnce (input : List UInt8) : KeccakState :=
  shake256Finalize (shake256Absorb shake256Init input)

/-- Bytes `pos, …, pos + outlen - 1` of the output stream. -/
def streamSlice (stream : Nat → UInt8) (pos outlen : Nat) : List UInt8 :=
  (List.range outlen).map fun i => stream (pos + i)

def shake256Squeeze (SHAKE256 : Shake) (outlen : Nat) (state : KeccakState) :
    List UInt8 × KeccakState :=
  (streamSlice (SHAKE256 state.absorbed) state.pos outlen,
    { state with pos := state.pos + outlen })

@[simp] theorem length_streamSlice (stream : Nat → UInt8) (pos outlen : Nat) :
    (streamSlice stream pos outlen).length = outlen := by
  simp [streamSlice]

/-- Successive squeezes are successive pieces of the stream. -/
theorem streamSlice_add (stream : Nat → UInt8) (pos a b : Nat) :
    streamSlice stream pos (a + b)
      = streamSlice stream pos a ++ streamSlice stream (pos + a) b := by
  simp [streamSlice, List.range_add, Nat.add_assoc]

/-- A shorter squeeze is a prefix of a longer one. -/
theorem take_streamSlice (stream : Nat → UInt8) (pos : Nat) {a b : Nat} (h : a ≤ b) :
    (streamSlice stream pos b).take a = streamSlice stream pos a := by
  obtain ⟨c, rfl⟩ := Nat.exists_eq_add_of_le h
  rw [streamSlice_add, List.take_left' (length_streamSlice ..)]

@[simp] theorem shake256AbsorbOnce_absorbed (input : List UInt8) :
    (shake256AbsorbOnce input).absorbed = input := rfl

@[simp] theorem shake256AbsorbOnce_pos (input : List UInt8) :
    (shake256AbsorbOnce input).pos = 0 := rfl

theorem length_shake256Squeeze (SHAKE256 : Shake) (outlen : Nat) (shake : KeccakState) :
    (shake256Squeeze SHAKE256 outlen shake).1.length = outlen := length_streamSlice _ _ _

/-- A stand-in for SHAKE256 to run the algorithms with. -/
def toyShake : Shake := fun input pos =>
  UInt8.ofNat ((input.foldl (fun a b => (31 * a + b.toNat + 7) % 251) 1 + 1)
    * (pos * pos + 3 * pos + 5) % 251 % 64 / 2)

end Meds.Ref
