/-
  Meds.Ref.Keccak

  ref/fips202.c: the sponge functions, on the 25 words of the state.

  The interface the scheme uses stands in `Meds.Ref.Fips202`, with SHAKE256 as
  a parameter; here are the functions behind it.  Input is xored into the
  words byte by byte or, where a whole block is absorbed at once, word by
  word; `pos` is the place in the current block.
-/

import Meds.Core.Sponge
import Meds.Ref.KeccakPermute

namespace Meds.Ref.Keccak

open Meds.Core

/-- `uint64_t s[25]`. -/
abbrev Words := Vector UInt64 25

def load64 (x : List UInt8) : UInt64 :=
  forUp 0 8 (fun i r => r ||| (x.getD i 0).toUInt64 <<< UInt64.ofNat (8 * i)) 0

def store64 (u : UInt64) : List UInt8 :=
  (List.range 8).map fun i => (u >>> UInt64.ofNat (8 * i)).toUInt8

/-- `s[w] ^= x`. -/
def xorWord (s : Words) (w : Nat) (x : UInt64) : Words := s.setIfInBounds w (s.getD w 0 ^^^ x)

/-- `s[i/8] ^= (uint64_t)b << 8*(i%8)`. -/
def xorByte (s : Words) (i : Nat) (b : UInt8) : Words :=
  xorWord s (i / 8) (b.toUInt64 <<< UInt64.ofNat (8 * (i % 8)))

/-- `(uint8_t)(s[i/8] >> 8*(i%8))`. -/
def byteAt (s : Words) (i : Nat) : UInt8 :=
  (s.getD (i / 8) 0 >>> UInt64.ofNat (8 * (i % 8))).toUInt8

def keccakInit : Words := Vector.replicate 25 0

/-! ## Absorbing -/

/-- `for(i=lo;i<hi;i++) s[i/8] ^= (uint64_t)*in++ << 8*(i%8);` -/
def xorIn (lo hi : Nat) (s : Words) (inp : List UInt8) : Words × List UInt8 :=
  forUp lo hi (fun i t => (xorByte t.1 i (t.2.headD 0), t.2.tail)) (s, inp)

/-- The variables of `keccak_absorb`; `inlen` is the length of what is left of
    `in`. -/
structure Absorbing where
  s : Words
  pos : Nat
  inp : List UInt8

/-- A round of the `while` loop fills the current block. -/
def absorbBlock (r : Nat) (a : Absorbing) : Absorbing :=
  let t := xorIn a.pos r a.s a.inp
  ⟨keccakF1600StatePermute t.1, 0, t.2⟩

def keccakAbsorb (s : Words) (pos r : Nat) (inp : List UInt8) : Words × Nat :=
  let a := iterWhile (fun a => decide (a.pos + a.inp.length ≥ r)) (absorbBlock r) (inp.length + 1)
    ⟨s, pos, inp⟩
  let t := xorIn a.pos (a.pos + a.inp.length) a.s a.inp
  (t.1, a.pos + a.inp.length)

def keccakFinalize (s : Words) (pos r : Nat) (p : UInt8) : Words :=
  let s := xorByte s pos p
  xorWord s (r / 8 - 1) ((1 : UInt64) <<< 63)

/-- `for(i=0;i<r/8;i++) s[i] ^= load64(in+8*i);` -/
def xorBlock (r : Nat) (s : Words) (inp : List UInt8) : Words :=
  forUp 0 (r / 8) (fun i s => xorWord s i (load64 (inp.drop (8 * i)))) s

def keccakAbsorbOnce (r : Nat) (inp : List UInt8) (p : UInt8) : Words :=
  let a := iterWhile (fun a : Words × List UInt8 => decide (a.2.length ≥ r))
    (fun a => (keccakF1600StatePermute (xorBlock r a.1 a.2), a.2.drop r)) (inp.length + 1)
    (keccakInit, inp)
  let s := forUp 0 a.2.length (fun i s => xorByte s i (a.2.getD i 0)) a.1
  let s := xorByte s a.2.length p
  xorWord s ((r - 1) / 8) ((1 : UInt64) <<< 63)

/-! ## Squeezing -/

/-- The variables of `keccak_squeeze`; `out` is what was written. -/
structure Squeezing where
  out : List UInt8
  outlen : Nat
  s : Words
  pos : Nat

/-- A round of the `while` loop takes what is left of the block. -/
def squeezeBlock (r : Nat) (q : Squeezing) : Squeezing :=
  let (s, pos) := if q.pos = r then (keccakF1600StatePermute q.s, 0) else (q.s, q.pos)
  -- `i` runs from `pos` to here
  let i := min r (pos + q.outlen)
  ⟨forUp pos i (fun i out => out ++ [byteAt s i]) q.out, q.outlen - (i - pos), s, i⟩

def keccakSqueeze (outlen : Nat) (s : Words) (pos r : Nat) : List UInt8 × Words × Nat :=
  let q := iterWhile (fun q => decide (q.outlen ≠ 0)) (squeezeBlock r) outlen ⟨[], outlen, s, pos⟩
  (q.out, q.s, q.pos)

/-- `for(i=0;i<n;i++) store64(out+8*i, s[i]);` -/
def storeWords (n : Nat) (s : Words) : List UInt8 :=
  forUp 0 n (fun i out => out ++ store64 (s.getD i 0)) []

def keccakSqueezeblocks (nblocks : Nat) (s : Words) (r : Nat) : List UInt8 × Words :=
  forUp 0 nblocks
    (fun _ t =>
      let s := keccakF1600StatePermute t.2
      (t.1 ++ storeWords (r / 8) s, s))
    ([], s)

/-! ## SHAKE and SHA3 -/

def SHAKE128_RATE : Nat := 168
def SHAKE256_RATE : Nat := 136
def SHA3_256_RATE : Nat := 136
def SHA3_512_RATE : Nat := 72

/-- `keccak_state`. -/
structure State where
  s : Words
  pos : Nat

/-- The bodies that `shake128_*` and `shake256_*` share. -/
def shakeInit : State := ⟨keccakInit, 0⟩

def shakeAbsorb (rate : Nat) (state : State) (inp : List UInt8) : State :=
  let t := keccakAbsorb state.s state.pos rate inp
  ⟨t.1, t.2⟩

def shakeFinalize (rate : Nat) (state : State) : State :=
  ⟨keccakFinalize state.s state.pos rate 0x1F, rate⟩

def shakeSqueeze (rate outlen : Nat) (state : State) : List UInt8 × State :=
  let t := keccakSqueeze outlen state.s state.pos rate
  (t.1, ⟨t.2.1, t.2.2⟩)

def shakeAbsorbOnce (rate : Nat) (inp : List UInt8) : State :=
  ⟨keccakAbsorbOnce rate inp 0x1F, rate⟩

def shakeSqueezeblocks (rate nblocks : Nat) (state : State) : List UInt8 × State :=
  let t := keccakSqueezeblocks nblocks state.s rate
  (t.1, { state with s := t.2 })

def shake (rate outlen : Nat) (inp : List UInt8) : List UInt8 :=
  let state := shakeAbsorbOnce rate inp
  let nblocks := outlen / rate
  let (blocks, state) := shakeSqueezeblocks rate nblocks state
  let outlen := outlen - nblocks * rate
  blocks ++ (shakeSqueeze rate outlen state).1

def shake128Init : State := shakeInit
def shake128Absorb : State → List UInt8 → State := shakeAbsorb SHAKE128_RATE
def shake128Finalize : State → State := shakeFinalize SHAKE128_RATE
def shake128Squeeze : Nat → State → List UInt8 × State := shakeSqueeze SHAKE128_RATE
def shake128AbsorbOnce : List UInt8 → State := shakeAbsorbOnce SHAKE128_RATE
def shake128Squeezeblocks : Nat → State → List UInt8 × State := shakeSqueezeblocks SHAKE128_RATE
def shake128 : Nat → List UInt8 → List UInt8 := shake SHAKE128_RATE

def shake256Init : State := shakeInit
def shake256Absorb : State → List UInt8 → State := shakeAbsorb SHAKE256_RATE
def shake256Finalize : State → State := shakeFinalize SHAKE256_RATE
def shake256Squeeze : Nat → State → List UInt8 × State := shakeSqueeze SHAKE256_RATE
def shake256AbsorbOnce : List UInt8 → State := shakeAbsorbOnce SHAKE256_RATE
def shake256Squeezeblocks : Nat → State → List UInt8 × State := shakeSqueezeblocks SHAKE256_RATE
def shake256 : Nat → List UInt8 → List UInt8 := shake SHAKE256_RATE

/-- The body that `sha3_256` and `sha3_512` share; `words` is the length of
    the digest. -/
def sha3 (rate words : Nat) (inp : List UInt8) : List UInt8 :=
  let s := keccakAbsorbOnce rate inp 0x06
  let s := keccakF1600StatePermute s
  storeWords words s

def sha3_256 : List UInt8 → List UInt8 := sha3 SHA3_256_RATE 4
def sha3_512 : List UInt8 → List UInt8 := sha3 SHA3_512_RATE 8

/-! ## Bits of bytes and words -/

theorem shift_toNat {j : Nat} (hj : j < 8) : ((UInt64.ofNat (8 * j)).toBitVec % 64).toNat = 8 * j := by
  rw [BitVec.toNat_umod, UInt64.toNat_toBitVec, UInt64.toNat_ofNat_of_lt' (by
    change 8 * j < 2 ^ 64
    omega)]
  exact Nat.mod_eq_of_lt (by change 8 * j < 64; omega)

/-- A byte shifted to place `j` of a word. -/
theorem bit_shiftByte (b : UInt8) {j : Nat} (hj : j < 8) (z : Fin 64) :
    KeccakF.bit (b.toUInt64 <<< UInt64.ofNat (8 * j)) z
      = (decide (z.val / 8 = j) && b.toNat.testBit (z % 8)) := by
  have hz := z.isLt
  rw [KeccakF.bit, UInt64.toBitVec_shiftLeft, BitVec.shiftLeft_eq', shift_toNat hj,
    BitVec.getLsbD_shiftLeft, UInt8.toBitVec_toUInt64, BitVec.getLsbD_setWidth]
  change _ = (_ && b.toBitVec.getLsbD (z % 8))
  rcases Nat.lt_trichotomy (z.val / 8) j with hlt | heq | hgt
  · simp [show z.val < 8 * j by omega, show ¬ z.val / 8 = j by omega]
  · simp [show ¬ z.val < 8 * j by omega, heq, show z.val - 8 * j = z % 8 by omega]
    omega
  · rw [BitVec.getLsbD_of_ge _ (z.val - 8 * j) (by omega)]
    simp [show ¬ z.val / 8 = j by omega]

theorem testBit_shiftWord (u : UInt64) {i j : Nat} (hi : i < 8) (hj : j < 8) :
    (u >>> UInt64.ofNat (8 * i)).toUInt8.toNat.testBit j = KeccakF.bit u ⟨8 * i + j, by omega⟩ := by
  change (u >>> UInt64.ofNat (8 * i)).toUInt8.toBitVec.getLsbD j = _
  rw [UInt64.toBitVec_toUInt8, BitVec.getLsbD_setWidth, UInt64.toBitVec_shiftRight,
    BitVec.ushiftRight_eq', shift_toNat hi, BitVec.getLsbD_ushiftRight, KeccakF.bit]
  simp [hj]

/-- `load64` puts every byte to its place. -/
theorem bit_load64 (x : List UInt8) (z : Fin 64) :
    KeccakF.bit (load64 x) z = (x.getD (z / 8) 0).toNat.testBit (z % 8) := by
  have hz := z.isLt
  have h : KeccakF.bit (load64 x) z
      = (decide (z.val / 8 < 8) && (x.getD (z / 8) 0).toNat.testBit (z % 8)) := by
    refine forUp_invariant (fun i r => KeccakF.bit r z
      = (decide (z.val / 8 < i) && (x.getD (z / 8) 0).toNat.testBit (z % 8))) (Nat.zero_le 8) ?_ ?_
    · intro i r _ hi hr
      have hor : ∀ a b : UInt64, KeccakF.bit (a ||| b) z = (KeccakF.bit a z || KeccakF.bit b z) := by
        intro a b
        simp [KeccakF.bit]
      rw [hor, hr, bit_shiftByte _ hi]
      by_cases heq : z.val / 8 = i
      · subst heq
        simp
      · rw [decide_eq_false heq, Bool.false_and, Bool.or_false]
        congr 2
        exact propext (by omega)
    · simp [KeccakF.bit]
  rw [h, decide_eq_true (by omega), Bool.true_and]

/-! ## The sponge of bytes -/

theorem getD_eq (s : Words) {w : Nat} (hw : w < 25) : s.getD w 0 = s[w] := by
  simp [Vector.getD, hw]

theorem getD_xorWord (s : Words) {w v : Nat} (x : UInt64) (hv : v < 25) :
    (xorWord s w x).getD v 0 = if w = v then s.getD v 0 ^^^ x else s.getD v 0 := by
  rw [getD_eq _ hv, xorWord, Vector.getElem_setIfInBounds hv]
  split
  · rename_i h
    rw [h]
  · rw [getD_eq _ hv]

theorem xorWord_xorWord (s : Words) (w : Nat) (x y : UInt64) :
    xorWord (xorWord s w x) w y = xorWord s w (x ^^^ y) := by
  apply Vector.ext
  intro v hv
  rw [← getD_eq _ hv, ← getD_eq _ hv, getD_xorWord _ _ hv, getD_xorWord _ _ hv, getD_xorWord _ _ hv]
  split
  · rw [UInt64.xor_assoc]
  · rfl

theorem xorWord_zero (s : Words) (w : Nat) : xorWord s w 0 = s := by
  apply Vector.ext
  intro v hv
  rw [← getD_eq _ hv, ← getD_eq _ hv, getD_xorWord _ _ hv, UInt64.xor_zero, ite_self]

/-- The state as a sponge of bytes, for a rate in bytes. -/
def sponge (r : Nat) (hr : 0 < r) : Sponge Words where
  rate := r
  permute := keccakF1600StatePermute
  xorByte := xorByte
  byteAt := byteAt
  rate_pos := hr
  xor_zero s i := by
    rw [xorByte, show (0 : UInt8).toUInt64 = 0 from rfl, UInt64.zero_shiftLeft, xorWord_zero]
  xor_xor s i a b := by
    rw [xorByte, xorByte, xorWord_xorWord, ← UInt64.shiftLeft_xor, ← UInt8.toUInt64_xor, xorByte]

end Meds.Ref.Keccak
