/-
  Meds.Ref.BitstreamSpec

  What `bs_write` and `bs_read` do to the bits of the buffer.

  One write of a `len`-bit field at bit position `pos` stores the field at
  bits `[pos, pos + len)`, keeps every bit below `pos`, and leaves the rest
  of the last byte it touched zero.  The writer ORs into the current byte,
  so this needs the unwritten part of that byte to be zero already
  (`Fresh`): after a wide field it always is, whatever the buffer held.
-/

import Meds.Ref.Bitstream
import Mathlib.Data.List.Induction

namespace Meds.Ref

open Meds.Core

/-- The running bit position. -/
def BitstreamT.pos (bs : BitstreamT) : Nat := 8 * bs.bytePos + bs.bitPos

/-- Bit `b` of a writable buffer. -/
abbrev bufBit (buf : Arr UInt8) (b : Nat) : Bool := bitAt buf.get b

theorem bufBit_byte (buf : Arr UInt8) {i k : Nat} (hk : k < 8) :
    bufBit buf (8 * i + k) = (buf.get i).toNat.testBit k := bitAt_byte _ hk

/-- A field of `len` bits can be ORed in at the cursor: the bits of the
    current byte it may touch are zero. -/
def Fresh (buf : Arr UInt8) (bs : BitstreamT) (len : Nat) : Prop :=
  0 < bs.bitPos ∨ len < 8 →
    ∀ k, bs.bitPos ≤ k → k < 8 → bufBit buf (8 * bs.bytePos + k) = false

/-! ## The range check -/

/-- A field that fits passes the check, whatever the product wraps to. -/
theorem exceeds_eq_false {bs : BitstreamT} {len : Nat} (h : bs.pos + len ≤ 8 * bs.bufLen) :
    bs.exceeds len = false := by
  unfold BitstreamT.exceeds
  unfold BitstreamT.pos at h
  have := Nat.mod_le (bs.bytePos * 8 + bs.bitPos + len) (2 ^ 32)
  simp only [gt_iff_lt, decide_eq_false_iff_not, not_lt]
  omega

/-! ## The whole-byte loops -/

theorem bsWriteBytes_spec (buf : Arr UInt8) (bytePos data len : Nat) :
    ∃ buf', bsWriteBytes (buf, bytePos, data, len)
        = (buf', bytePos + len / 8, data >>> (8 * (len / 8)), len % 8) ∧
      (∀ i, i < bytePos ∨ bytePos + len / 8 ≤ i → buf'.get i = buf.get i) ∧
      ∀ i k, i < len / 8 → k < 8 →
        (buf'.get (bytePos + i)).toNat.testBit k = data.testBit (8 * i + k) := by
  -- induction on the rounds; each writes the low byte and shifts the data by eight
  unfold bsWriteBytes
  generalize hn : (buf, bytePos, data, len).2.2.2 = n
  replace hn : len ≤ n := by simpa using le_of_eq hn
  induction n generalizing buf bytePos data len with
  | zero =>
      obtain rfl : len = 0 := by omega
      exact ⟨buf, by simp [iterWhile], fun i _ => rfl, fun i k hi => absurd hi (by omega)⟩
  | succ n ih =>
      rw [iterWhile]
      by_cases h8 : len ≥ 8
      · rw [if_pos (by simpa using h8)]
        obtain ⟨buf', heq, hout, hin⟩ := ih (buf.set bytePos (UInt8.ofNat (data &&& 0xFF)))
          (bytePos + 1) (data >>> 8) (len - 8) (by omega)
        have hdiv : (len - 8) / 8 = len / 8 - 1 := by omega
        have hpos : 1 ≤ len / 8 := by omega
        refine ⟨buf', ?_, ?_, ?_⟩
        · rw [heq, hdiv, ← Nat.shiftRight_add]
          simp only [Prod.mk.injEq, true_and]
          refine ⟨by omega, ?_, by omega⟩
          congr 1
          omega
        · intro i hi
          rw [hout i (by omega), Arr.get_set_ne _ _ (by omega)]
        · intro i k hi hk
          cases i with
          | zero =>
              rw [Nat.add_zero, hout bytePos (by omega), Arr.get_set_self, testBit_uint8]
              rw [show (0xFF : Nat) = 2 ^ 8 - 1 from rfl, Nat.and_two_pow_sub_one_eq_mod,
                Nat.testBit_mod_two_pow]
              simp [hk]
          | succ i =>
              rw [show bytePos + (i + 1) = bytePos + 1 + i by omega, hin i k (by omega) hk,
                Nat.testBit_shiftRight]
              congr 1
              omega
      · rw [if_neg (by simpa using h8)]
        have hdiv : len / 8 = 0 := by omega
        refine ⟨buf, ?_, fun i _ => rfl, fun i k hi => absurd hi (by omega)⟩
        rw [hdiv, Nat.mul_zero, Nat.shiftRight_zero, Nat.mod_eq_of_lt (by omega), Nat.add_zero]

theorem bsReadBytes_spec (mem : Nat → Option UInt8) {d : Nat → UInt8} {P fuel : Nat}
    (data off bytePos len : Nat) (hfuel : len ≤ fuel)
    (hmem : ∀ i, bytePos ≤ i → i < bytePos + len / 8 → mem i = some (d i))
    (hpos : 8 * bytePos = P + off)
    (hdata : ∀ i, data.testBit i = (decide (i < off) && bitAt d (P + i))) :
    ∃ data', bsReadBytes mem fuel (data, off, bytePos, len)
        = some (data', off + 8 * (len / 8), bytePos + len / 8, len % 8) ∧
      ∀ i, data'.testBit i = (decide (i < off + 8 * (len / 8)) && bitAt d (P + i)) := by
  -- each round ORs a byte in above the `off` bits that are read
  induction fuel generalizing data off bytePos len with
  | zero =>
      obtain rfl : len = 0 := by omega
      exact ⟨data, by simp [bsReadBytes], by simpa using hdata⟩
  | succ fuel ih =>
      rw [bsReadBytes]
      by_cases h8 : len ≥ 8
      · rw [if_pos h8, hmem bytePos (by omega) (by omega)]
        obtain ⟨data', heq, hbits⟩ := ih (data ||| (d bytePos).toNat <<< off) (off + 8)
          (bytePos + 1) (len - 8) (by omega)
          (fun i h1 h2 => hmem i (by omega) (by omega)) (by omega) (by
            intro i
            rw [Nat.testBit_or, hdata, Nat.testBit_shiftLeft]
            by_cases hi : i < off
            · simp [hi, show i < off + 8 by omega, show ¬ off ≤ i by omega]
            · by_cases hi' : i < off + 8
              · have hb := bitAt_byte d (i := bytePos) (k := i - off) (by omega)
                rw [show 8 * bytePos + (i - off) = P + i by omega] at hb
                simp [hi, hi', show off ≤ i by omega, hb]
              · simp [hi, hi', testBit_byte_of_ge (d bytePos) (show 8 ≤ i - off by omega)])
        refine ⟨data', ?_, ?_⟩
        · simp only [Option.bind_eq_bind, Option.bind_some]
          rw [heq]
          simp only [Option.some.injEq, Prod.mk.injEq, true_and]
          omega
        · intro i
          rw [hbits i]
          congr 2
          apply propext
          omega
      · rw [if_neg h8]
        have hdiv : len / 8 = 0 := by omega
        refine ⟨data, ?_, ?_⟩
        · rw [hdiv, Nat.mod_eq_of_lt (by omega)]
          simp
        · intro i
          rw [hdata i, hdiv]
          simp

/-! ## One field -/

/-- The effect of a write of `len` bits of `data` at bit position `pos`. -/
structure WroteField (buf buf' : Arr UInt8) (pos len data : Nat) : Prop where
  below : ∀ b, b < pos → bufBit buf' b = bufBit buf b
  field : ∀ i, i < len → bufBit buf' (pos + i) = data.testBit i
  tail : (pos + len) % 8 ≠ 0 → ∀ k, (pos + len) % 8 ≤ k → k < 8 →
    bufBit buf' (8 * ((pos + len) / 8) + k) = false
  above : ∀ i, pos + len ≤ 8 * i → buf'.get i = buf.get i

theorem bufBit_congr {buf buf' : Arr UInt8} {b : Nat} (h : buf'.get (b / 8) = buf.get (b / 8)) :
    bufBit buf' b = bufBit buf b := bitAt_congr h

/-- Writing byte-aligned at `bytePos`: the whole bytes, then the tail byte. -/
theorem wrote_aligned {buf buf' : Arr UInt8} {bytePos data len : Nat}
    (hout : ∀ i, i < bytePos ∨ bytePos + len / 8 ≤ i → buf'.get i = buf.get i)
    (hin : ∀ i k, i < len / 8 → k < 8 →
      (buf'.get (bytePos + i)).toNat.testBit k = data.testBit (8 * i + k))
    (hd : data < 2 ^ len) :
    WroteField buf
      (if len % 8 > 0 then buf'.set (bytePos + len / 8) (UInt8.ofNat (data >>> (8 * (len / 8))))
       else buf') (8 * bytePos) len data := by
  have hhigh : ∀ i, len ≤ i → data.testBit i = false := fun i hi =>
    Nat.testBit_lt_two_pow (Nat.lt_of_lt_of_le hd (Nat.pow_le_pow_right (by decide) hi))
  by_cases hm : len % 8 > 0
  · rw [if_pos hm]
    constructor
    · intro b hb
      apply bufBit_congr
      rw [Arr.get_set_ne _ _ (by omega), hout _ (by omega)]
    · intro i hi
      obtain ⟨j, k, hk, rfl⟩ : ∃ j k, k < 8 ∧ i = 8 * j + k := ⟨i / 8, i % 8, by omega, by omega⟩
      rw [show 8 * bytePos + (8 * j + k) = 8 * (bytePos + j) + k by omega, bufBit_byte _ hk]
      -- the bit lies in the tail byte or in one of the whole bytes
      by_cases hj : j = len / 8
      · subst hj
        rw [Arr.get_set_self, testBit_uint8, Nat.testBit_shiftRight]
        simp [hk]
      · rw [Arr.get_set_ne _ _ (by omega), hin j k (by omega) hk]
    · intro _ k hk hk8
      rw [show (8 * bytePos + len) / 8 = bytePos + len / 8 by omega, bufBit_byte _ hk8,
        Arr.get_set_self, testBit_uint8, Nat.testBit_shiftRight, hhigh _ (by omega),
        Bool.and_false]
    · intro i hi
      rw [Arr.get_set_ne _ _ (by omega), hout i (by omega)]
  · rw [if_neg hm]
    constructor
    · intro b hb
      apply bufBit_congr
      rw [hout _ (by omega)]
    · intro i hi
      obtain ⟨j, k, hk, rfl⟩ : ∃ j k, k < 8 ∧ i = 8 * j + k := ⟨i / 8, i % 8, by omega, by omega⟩
      rw [show 8 * bytePos + (8 * j + k) = 8 * (bytePos + j) + k by omega, bufBit_byte _ hk,
        hin j k (by omega) hk]
    · intro h0
      exact absurd h0 (by omega)
    · intro i hi
      rw [hout i (by omega)]

/-- ORing the low part of a field into the current byte, then writing the
    rest byte-aligned, writes the field. -/
theorem wrote_split {buf buf1 buf2 : Arr UInt8} {bytePos bitPos len data : Nat}
    (hb0 : 0 < bitPos) (hb8 : bitPos < 8) (hlen : 8 ≤ bitPos + len)
    (hfresh : ∀ k, bitPos ≤ k → k < 8 → bufBit buf (8 * bytePos + k) = false)
    (hset : buf1 = buf.set bytePos
      (UInt8.ofNat ((buf.get bytePos).toNat ||| (data <<< bitPos &&& 0xFF))))
    (hrest : WroteField buf1 buf2 (8 * (bytePos + 1)) (len - (8 - bitPos))
      (data >>> (8 - bitPos))) :
    WroteField buf buf2 (8 * bytePos + bitPos) len data := by
  -- the current byte keeps its low bits and gets the field above them
  have hfirst : ∀ k, k < 8 → bufBit buf1 (8 * bytePos + k)
      = if k < bitPos then bufBit buf (8 * bytePos + k) else data.testBit (k - bitPos) := by
    intro k hk
    rw [bufBit_byte _ hk, hset, Arr.get_set_self, testBit_uint8, Nat.testBit_or,
      show (0xFF : Nat) = 2 ^ 8 - 1 from rfl, Nat.and_two_pow_sub_one_eq_mod,
      Nat.testBit_mod_two_pow, Nat.testBit_shiftLeft, ← bufBit_byte _ hk]
    by_cases hkb : k < bitPos
    · simp [hk, hkb, show ¬ bitPos ≤ k by omega]
    · rw [hfresh k (by omega) hk]
      simp [hk, hkb, show bitPos ≤ k by omega]
  have hlast : 8 * (bytePos + 1) + (len - (8 - bitPos)) = 8 * bytePos + bitPos + len := by omega
  constructor
  · intro b hb
    rw [hrest.below b (by omega)]
    by_cases hlow : b < 8 * bytePos
    · apply bufBit_congr
      rw [hset, Arr.get_set_ne _ _ (by omega)]
    · obtain ⟨k, rfl⟩ : ∃ k, b = 8 * bytePos + k := ⟨b - 8 * bytePos, by omega⟩
      rw [hfirst k (by omega), if_pos (by omega)]
  · intro i hi
    -- the bit lies in the current byte or in those written behind it
    by_cases h : i < 8 - bitPos
    · rw [hrest.below _ (by omega), Nat.add_assoc, hfirst _ (by omega), if_neg (by omega)]
      congr 1
      omega
    · have := hrest.field (i - (8 - bitPos)) (by omega)
      rw [Nat.testBit_shiftRight] at this
      rw [show 8 * bytePos + bitPos + i = 8 * (bytePos + 1) + (i - (8 - bitPos)) by omega, this]
      congr 1
      omega
  · rw [← hlast]
    exact hrest.tail
  · intro i hi
    rw [hrest.above i (by omega), hset, Arr.get_set_ne _ _ (by omega)]

/-- A field that ends inside the current byte. -/
theorem wrote_narrow {buf : Arr UInt8} {bytePos bitPos len data : Nat}
    (hlen : bitPos + len < 8) (hd : data < 2 ^ len)
    (hfresh : ∀ k, bitPos ≤ k → k < 8 → bufBit buf (8 * bytePos + k) = false) :
    WroteField buf
      (buf.set bytePos (UInt8.ofNat ((buf.get bytePos).toNat ||| data <<< bitPos)))
      (8 * bytePos + bitPos) len data := by
  have hhigh : ∀ i, len ≤ i → data.testBit i = false := fun i hi =>
    Nat.testBit_lt_two_pow (Nat.lt_of_lt_of_le hd (Nat.pow_le_pow_right (by decide) hi))
  -- only the current byte changes
  have hbit : ∀ k, k < 8 → bufBit
      (buf.set bytePos (UInt8.ofNat ((buf.get bytePos).toNat ||| data <<< bitPos)))
      (8 * bytePos + k)
      = if k < bitPos then bufBit buf (8 * bytePos + k) else data.testBit (k - bitPos) := by
    intro k hk
    rw [bufBit_byte _ hk, Arr.get_set_self, testBit_uint8, Nat.testBit_or, Nat.testBit_shiftLeft,
      ← bufBit_byte _ hk]
    by_cases hkb : k < bitPos
    · simp [hk, hkb, show ¬ bitPos ≤ k by omega]
    · rw [hfresh k (by omega) hk]
      simp [hk, hkb, show bitPos ≤ k by omega]
  constructor
  · intro b hb
    by_cases hlow : b < 8 * bytePos
    · apply bufBit_congr
      rw [Arr.get_set_ne _ _ (by omega)]
    · obtain ⟨k, rfl⟩ : ∃ k, b = 8 * bytePos + k := ⟨b - 8 * bytePos, by omega⟩
      rw [hbit k (by omega), if_pos (by omega)]
  · intro i hi
    rw [Nat.add_assoc, hbit _ (by omega), if_neg (by omega)]
    congr 1
    omega
  · intro _ k hk hk8
    rw [show (8 * bytePos + bitPos + len) / 8 = bytePos by omega, hbit k hk8, if_neg (by omega),
      hhigh _ (by omega)]
  · intro i hi
    -- nothing was written where position and length are both zero
    by_cases h : i = bytePos
    · subst h
      obtain ⟨rfl, rfl⟩ : bitPos = 0 ∧ len = 0 := by omega
      apply eq_of_bitAt
      intro k hk
      have := hbit k hk
      rw [if_neg (by omega), hhigh _ (by omega)] at this
      exact this.trans (hfresh k (by omega) hk).symm
    · rw [Arr.get_set_ne _ _ h]

/-- `bs_write` of a field that fits. -/
theorem bsWrite_spec {buf : Arr UInt8} (bs : BitstreamT) (data len : Nat) (hbit : bs.bitPos < 8)
    (hd : data < 2 ^ len) (hfit : bs.pos + len ≤ 8 * bs.bufLen) (hfresh : Fresh buf bs len) :
    ∃ buf', bsWrite buf bs data len
        = (0, buf', ⟨bs.bufLen, (bs.pos + len) / 8, (bs.pos + len) % 8⟩) ∧
      WroteField buf buf' bs.pos len data := by
  obtain ⟨bufLen, bytePos, bitPos⟩ := bs
  simp only [BitstreamT.pos, Fresh] at *
  rw [bsWrite, exceeds_eq_false (by simpa [BitstreamT.pos] using hfit)]
  simp only [Bool.false_eq_true, if_false]
  -- the three branches of the source: inside one byte, from its middle on, from its start on
  by_cases hnarrow : bitPos + len < 8
  · rw [if_pos hnarrow, if_neg (by omega)]
    refine ⟨_, ?_, wrote_narrow hnarrow hd (hfresh (by omega))⟩
    simp only [Prod.mk.injEq, BitstreamT.mk.injEq, true_and]
    omega
  · rw [if_neg hnarrow]
    by_cases h0 : bitPos > 0
    · simp only [if_pos h0]
      obtain ⟨buf', heq, hout, hin⟩ := bsWriteBytes_spec
        (buf.set bytePos (UInt8.ofNat ((buf.get bytePos).toNat ||| (data <<< bitPos &&& 0xFF))))
        (bytePos + 1) (data >>> (8 - bitPos)) (len - (8 - bitPos))
      simp only [heq]
      have hd' : data >>> (8 - bitPos) < 2 ^ (len - (8 - bitPos)) := by
        rw [Nat.shiftRight_eq_div_pow]
        apply Nat.div_lt_of_lt_mul
        rw [← Nat.pow_add]
        rwa [show 8 - bitPos + (len - (8 - bitPos)) = len by omega]
      have hw := wrote_split h0 hbit (by omega) (hfresh (by omega)) rfl
        (wrote_aligned hout hin hd')
      by_cases hm : (len - (8 - bitPos)) % 8 > 0
      · rw [if_pos hm] at hw ⊢
        refine ⟨_, ?_, hw⟩
        simp only [Prod.mk.injEq, BitstreamT.mk.injEq, true_and]
        omega
      · rw [if_neg hm] at hw ⊢
        refine ⟨_, ?_, hw⟩
        simp only [Prod.mk.injEq, BitstreamT.mk.injEq, true_and]
        omega
    · simp only [if_neg h0]
      obtain rfl : bitPos = 0 := by omega
      obtain ⟨buf', heq, hout, hin⟩ := bsWriteBytes_spec buf bytePos data len
      simp only [heq]
      have hw := wrote_aligned hout hin hd
      by_cases hm : len % 8 > 0
      · rw [if_pos hm] at hw ⊢
        refine ⟨_, ?_, hw⟩
        simp only [Prod.mk.injEq, BitstreamT.mk.injEq, true_and]
        omega
      · rw [if_neg hm] at hw ⊢
        refine ⟨_, ?_, hw⟩
        simp only [Prod.mk.injEq, BitstreamT.mk.injEq, true_and]
        omega

/-- `bs_read` of a field that fits and whose bytes are readable. -/
theorem bsRead_spec {mem : Nat → Option UInt8} {d : Nat → UInt8} {bs : BitstreamT} {len : Nat}
    (hbit : bs.bitPos < 8) (hlen : 0 < len) (hfit : bs.pos + len ≤ 8 * bs.bufLen)
    (hmem : ∀ i, i < bs.bufLen → mem i = some (d i)) :
    bsRead mem bs len
      = some (Nat.ofBits fun i : Fin len => bitAt d (bs.pos + i),
          ⟨bs.bufLen, (bs.pos + len) / 8, (bs.pos + len) % 8⟩) := by
  obtain ⟨bufLen, bytePos, bitPos⟩ := bs
  simp only [BitstreamT.pos] at *
  have hofBits : ∀ v : Nat,
      (∀ i, v.testBit i = (decide (i < len) && bitAt d (8 * bytePos + bitPos + i))) →
      v = Nat.ofBits fun i : Fin len => bitAt d (8 * bytePos + bitPos + i) := by
    intro v hv
    apply Nat.eq_of_testBit_eq
    intro i
    rw [hv i, Nat.testBit_ofBits]
    by_cases hi : i < len <;> simp [hi]
  have hmask : ∀ x n i : Nat, (x &&& (1 <<< n - 1)).testBit i = (decide (i < n) && x.testBit i) := by
    intro x n i
    rw [Nat.shiftLeft_eq, Nat.one_mul, Nat.and_two_pow_sub_one_eq_mod, Nat.testBit_mod_two_pow]
  rw [bsRead, exceeds_eq_false (by simpa [BitstreamT.pos] using hfit)]
  simp only [Bool.false_eq_true, if_false]
  -- the branches of the source, as in `bs_write`
  by_cases hnarrow : bitPos + len < 8
  · rw [if_pos hnarrow, hmem bytePos (by omega)]
    simp only [Option.bind_eq_bind, Option.bind_some]
    rw [if_neg (by omega)]
    simp only [Option.some.injEq, Prod.mk.injEq, BitstreamT.mk.injEq, true_and]
    refine ⟨hofBits _ ?_, by omega, by omega⟩
    intro i
    rw [hmask, Nat.testBit_shiftRight]
    by_cases hi : i < len
    · rw [Nat.add_assoc, bitAt_byte d (by omega)]
    · simp [hi]
  · rw [if_neg hnarrow]
    by_cases h0 : bitPos > 0
    · rw [if_pos h0, hmem bytePos (by omega)]
      simp only [Option.bind_eq_bind, Option.bind_some]
      obtain ⟨v, heq, hv⟩ := bsReadBytes_spec mem ((d bytePos).toNat >>> bitPos) (8 - bitPos)
        (bytePos + 1) (len - (8 - bitPos)) (d := d) (P := 8 * bytePos + bitPos) (Nat.le_refl _)
        (fun i h1 h2 => hmem i (by omega)) (by omega) (by
          intro i
          rw [Nat.testBit_shiftRight]
          by_cases hi : i < 8 - bitPos
          · rw [Nat.add_assoc, bitAt_byte d (by omega)]
            simp [hi]
          · simp [hi, testBit_byte_of_ge (d bytePos) (show 8 ≤ bitPos + i by omega)])
      rw [heq]
      simp only [Option.bind_some]
      by_cases hm : (len - (8 - bitPos)) % 8 > 0
      · rw [if_pos hm, hmem _ (by omega)]
        simp only [Option.bind_some, Option.some.injEq, Prod.mk.injEq, BitstreamT.mk.injEq,
          true_and]
        refine ⟨hofBits _ ?_, by omega, by omega⟩
        intro i
        rw [Nat.testBit_or, hv, Nat.testBit_shiftLeft, hmask]
        -- a bit of the whole bytes, of the tail byte, or above the field
        by_cases hi : i < 8 - bitPos + 8 * ((len - (8 - bitPos)) / 8)
        · simp [hi, show i < len by omega,
            show ¬ 8 - bitPos + 8 * ((len - (8 - bitPos)) / 8) ≤ i by omega]
        · by_cases hi' : i < len
          · have hb := bitAt_byte d (i := bytePos + 1 + (len - (8 - bitPos)) / 8)
              (k := i - (8 - bitPos + 8 * ((len - (8 - bitPos)) / 8))) (by omega)
            rw [← hb, show 8 * (bytePos + 1 + (len - (8 - bitPos)) / 8)
              + (i - (8 - bitPos + 8 * ((len - (8 - bitPos)) / 8)))
              = 8 * bytePos + bitPos + i by omega]
            simp [hi, hi', show 8 - bitPos + 8 * ((len - (8 - bitPos)) / 8) ≤ i by omega]
            omega
          · simp [hi, hi']
            omega
      · rw [if_neg hm]
        simp only [Option.some.injEq, Prod.mk.injEq, BitstreamT.mk.injEq, true_and]
        refine ⟨hofBits _ ?_, by omega, by omega⟩
        intro i
        rw [hv i]
        congr 2
        apply propext
        omega
    · rw [if_neg h0]
      obtain rfl : bitPos = 0 := by omega
      simp only [Option.bind_eq_bind, Option.bind_some]
      obtain ⟨v, heq, hv⟩ := bsReadBytes_spec mem 0 0 bytePos len (d := d)
        (P := 8 * bytePos + 0) (Nat.le_refl _) (fun i h1 h2 => hmem i (by omega)) (by omega) (by simp)
      rw [heq]
      simp only [Option.bind_some]
      by_cases hm : len % 8 > 0
      · rw [if_pos hm, hmem _ (by omega)]
        simp only [Option.bind_some, Option.some.injEq, Prod.mk.injEq, BitstreamT.mk.injEq,
          true_and]
        refine ⟨hofBits _ ?_, by omega, by omega⟩
        intro i
        rw [Nat.testBit_or, hv, Nat.testBit_shiftLeft, hmask]
        by_cases hi : i < 0 + 8 * (len / 8)
        · simp [show i < len by omega, show i < 8 * (len / 8) by omega]
        · by_cases hi' : i < len
          · have hb := bitAt_byte d (i := bytePos + len / 8) (k := i - (0 + 8 * (len / 8)))
              (by omega)
            rw [← hb, show 8 * (bytePos + len / 8) + (i - (0 + 8 * (len / 8)))
              = 8 * bytePos + 0 + i by omega]
            simp [hi', show 8 * (len / 8) ≤ i by omega, show ¬ i < 8 * (len / 8) by omega,
              show i - 8 * (len / 8) < len % 8 by omega]
          · simp [hi', show ¬ i < 8 * (len / 8) by omega]
            omega
      · rw [if_neg hm]
        simp only [Option.some.injEq, Prod.mk.injEq, BitstreamT.mk.injEq, true_and]
        refine ⟨hofBits _ ?_, by omega, by omega⟩
        intro i
        rw [hv i]
        congr 2
        apply propext
        omega

/-! ## Blocks of equally wide fields

The callers write whole matrices, one field per entry, and finalize.  Such a
block lands as `packBytes` of its entries, over any buffer when the fields
are at least a byte wide and over a zeroed one otherwise. -/

/-- The values `l` stand at width `w` from byte `o` on; the rest of `buf` is
    as it was, except that the last byte is filled up with zeros. -/
structure WroteBlock (buf buf' : Arr UInt8) (o w : Nat) (l : List Nat) : Prop where
  below : ∀ i, i < o → buf'.get i = buf.get i
  bits : ∀ b, b < w * l.length → bufBit buf' (8 * o + b) = packBit w l b
  tail : (w * l.length) % 8 ≠ 0 → ∀ k, (w * l.length) % 8 ≤ k → k < 8 →
    bufBit buf' (8 * (o + w * l.length / 8) + k) = false
  above : ∀ i, 8 * o + w * l.length ≤ 8 * i → buf'.get i = buf.get i

theorem packBit_append_left {w : Nat} {l : List Nat} (v : Nat) {b : Nat} (h : b < w * l.length) :
    packBit w (l ++ [v]) b = packBit w l b := by
  have hw : 0 < w := Nat.pos_of_ne_zero (by rintro rfl; simp at h)
  have hdiv : b / w < l.length := (Nat.div_lt_iff_lt_mul hw).mpr (by rwa [Nat.mul_comm])
  unfold packBit
  rw [List.getD_append _ _ _ _ hdiv, List.length_append, List.length_singleton, Nat.mul_succ]
  simp [h, show b < w * l.length + w by omega]

theorem packBit_append_right {w : Nat} {l : List Nat} (v : Nat) {i : Nat} (h : i < w) :
    packBit w (l ++ [v]) (w * l.length + i) = v.testBit i := by
  unfold packBit
  rw [Nat.mul_add_div (by omega), Nat.div_eq_of_lt h, Nat.add_zero, Nat.mul_add_mod,
    Nat.mod_eq_of_lt h, List.getD_append_right _ _ _ _ (Nat.le_refl _), List.length_append,
    List.length_singleton, Nat.mul_succ]
  simp [h]

theorem bsPut_list {buf : Arr UInt8} {bufLen o w : Nat} {l : List Nat} (hw : 0 < w)
    (hlt : ∀ v ∈ l, v < 2 ^ w) (hfit : 8 * o + w * l.length ≤ 8 * bufLen)
    (hzero : 8 ≤ w ∨ ∀ i, o ≤ i → i < o + byteLen (w * l.length) → buf.get i = 0) :
    ∃ buf', l.foldl (bsPut w) (buf, ⟨bufLen, o, 0⟩)
        = (buf', ⟨bufLen, o + w * l.length / 8, (w * l.length) % 8⟩) ∧
      WroteBlock buf buf' o w l := by
  induction l using List.reverseRecOn with
  | nil =>
      refine ⟨buf, by simp, fun i _ => rfl, fun b hb => absurd hb (by simp),
        fun h => absurd h (by simp), fun i _ => rfl⟩
  | append_singleton l v ih =>
      have hlen : w * (l ++ [v]).length = w * l.length + w := by simp [Nat.mul_succ]
      rw [hlen] at hfit hzero
      obtain ⟨buf', heq, hbelow, hbits, htail, habove⟩ := ih
        (fun x hx => hlt x (List.mem_append_left _ hx)) (by omega)
        (hzero.imp id fun h i h1 h2 => h i h1 (by unfold byteLen at *; omega))
      have hpos : (BitstreamT.mk bufLen (o + w * l.length / 8) ((w * l.length) % 8)).pos
          = 8 * o + w * l.length := by
        simp only [BitstreamT.pos]
        omega
      -- the byte written to next is zero from the cursor on
      have hfresh : Fresh buf' ⟨bufLen, o + w * l.length / 8, (w * l.length) % 8⟩ w := by
        intro hcase k hk hk8
        simp only at hcase hk ⊢
        by_cases h0 : (w * l.length) % 8 = 0
        · rw [bufBit_byte _ hk8, habove _ (by omega)]
          rcases hzero with h8 | hz
          · omega
          · rw [hz _ (by omega) (by unfold byteLen; omega)]
            exact Nat.zero_testBit k
        · exact htail h0 k hk hk8
      have hroom : 8 * o + w * l.length + w ≤ 8 * bufLen := by omega
      obtain ⟨buf'', hwrite, hw'⟩ := bsWrite_spec
        ⟨bufLen, o + w * l.length / 8, (w * l.length) % 8⟩ v w (Nat.mod_lt _ (by decide))
        (hlt v (by simp)) (by rwa [hpos]) hfresh
      rw [hpos] at hwrite hw'
      refine ⟨buf'', ?_, ?_, ?_, ?_, ?_⟩
      · rw [List.foldl_append, heq, hlen]
        simp only [List.foldl_cons, List.foldl_nil, bsPut, hwrite, Prod.mk.injEq,
          BitstreamT.mk.injEq, true_and]
        omega
      · intro i hi
        rw [← hbelow i hi]
        apply eq_of_bitAt
        intro k hk
        exact hw'.below _ (by omega)
      · intro b hb
        rw [hlen] at hb
        -- the bit belongs to an earlier field or to the one just written
        by_cases h : b < w * l.length
        · rw [hw'.below _ (by omega), hbits b h, packBit_append_left v h]
        · obtain ⟨i, rfl⟩ : ∃ i, b = w * l.length + i := ⟨b - w * l.length, by omega⟩
          rw [← Nat.add_assoc, hw'.field i (by omega), packBit_append_right v (by omega)]
      · rw [hlen]
        intro h0 k hk hk8
        have := hw'.tail (by omega) k (by omega) hk8
        rwa [show (8 * o + w * l.length + w) / 8 = o + (w * l.length + w) / 8 by omega] at this
      · intro i hi
        rw [hlen] at hi
        rw [hw'.above i (by omega), habove i (by omega)]

/-- A finished block is `packBytes` of its entries, copied to byte `o`. -/
theorem WroteBlock.get_eq {buf buf' : Arr UInt8} {o w : Nat} {l : List Nat}
    (h : WroteBlock buf buf' o w l) (i : Nat) :
    buf'.get i = (buf.blit o (packBytes w l)).get i := by
  rw [Arr.get_blit, length_packBytes]
  by_cases hin : o ≤ i ∧ i < o + byteLen (w * l.length)
  · rw [if_pos hin]
    apply byte_ext
    intro k hk
    rw [testBit_packBytes w l (by omega) hk, ← bufBit_byte _ hk]
    by_cases hb : 8 * (i - o) + k < w * l.length
    · rw [← h.bits _ hb]
      congr 1
      omega
    · have h1 : (w * l.length) % 8 ≠ 0 := by
        unfold byteLen at hin
        omega
      have h2 : i = o + w * l.length / 8 := by
        unfold byteLen at hin
        omega
      rw [h2, h.tail h1 k (by omega) hk]
      simp only [packBit, Bool.false_eq, Bool.and_eq_false_iff, decide_eq_false_iff_not]
      exact Or.inl (by omega)
  · rw [if_neg hin]
    by_cases hlow : i < o
    · exact h.below i hlow
    · refine h.above i ?_
      unfold byteLen at hin
      omega

/-- The position after a block and `bs_finalize`. -/
theorem bsFinalize_block (bufLen o n : Nat) :
    bsFinalize ⟨bufLen, o + n / 8, n % 8⟩ = ⟨bufLen, o + byteLen n, 0⟩ := by
  simp only [bsFinalize, byteLen, BitstreamT.mk.injEq, true_and, and_true]
  split <;> omega

/-- Writing a block and finalizing. -/
theorem bsPut_block (buf : Arr UInt8) (bufLen : Nat) {o w : Nat} {l : List Nat} (hw : 0 < w)
    (hlt : ∀ v ∈ l, v < 2 ^ w) (hfit : o + byteLen (w * l.length) ≤ bufLen)
    (hzero : 8 ≤ w ∨ ∀ i, o ≤ i → i < o + byteLen (w * l.length) → buf.get i = 0) :
    (∀ i, (l.foldl (bsPut w) (buf, ⟨bufLen, o, 0⟩)).1.get i
        = (buf.blit o (packBytes w l)).get i) ∧
      bsFinalize (l.foldl (bsPut w) (buf, ⟨bufLen, o, 0⟩)).2
        = ⟨bufLen, o + byteLen (w * l.length), 0⟩ := by
  have hbits : 8 * o + w * l.length ≤ 8 * bufLen := by
    unfold byteLen at hfit
    omega
  obtain ⟨buf', heq, hb⟩ := bsPut_list hw hlt hbits hzero
  rw [heq]
  exact ⟨hb.get_eq, bsFinalize_block _ _ _⟩

/-- The `bs_read` loop of a block: `cnt` fields of width `w`, one after the other. -/
theorem bsRead_field {mem : Nat → Option UInt8} {d : Nat → UInt8} {bufLen o w i : Nat} (hw : 0 < w)
    (hfit : 8 * o + w * (i + 1) ≤ 8 * bufLen) (hmem : ∀ j, j < bufLen → mem j = some (d j)) :
    bsRead mem ⟨bufLen, o + w * i / 8, w * i % 8⟩ w
      = some (unpackAt d o w i, ⟨bufLen, o + w * (i + 1) / 8, w * (i + 1) % 8⟩) := by
  have hpos : (BitstreamT.mk bufLen (o + w * i / 8) (w * i % 8)).pos = 8 * o + w * i := by
    simp only [BitstreamT.pos]
    omega
  rw [Nat.mul_succ] at hfit ⊢
  have hroom : 8 * o + w * i + w ≤ 8 * bufLen := by omega
  rw [bsRead_spec (d := d) (Nat.mod_lt _ (by decide)) hw (by rwa [hpos]) hmem, hpos]
  simp only [Option.some.injEq, Prod.mk.injEq, BitstreamT.mk.injEq, true_and]
  refine ⟨rfl, ?_, ?_⟩ <;> omega

end Meds.Ref
