/-
  Meds.Core.CtrDrbg

  The counter-mode generator of random bytes.

  A block function in counter mode turns a key and a counter into a stream of
  blocks.  The generator answers a request with the first bytes of the stream
  and then takes a new key and a new counter from the blocks behind them.

  A counter is a number; `counterBytes` is how a block holds it, and `ripple`
  is how a program counts in place: from the last byte on, bytes 0xff become
  0 until one is incremented.
-/

import Mathlib.Algebra.Ring.Nat
import Mathlib.Data.List.Basic
import Mathlib.Data.List.GetD
import Mathlib.Data.List.Induction
import Mathlib.Order.Nat
import Mathlib.Tactic.Common

namespace Meds.Core

/-! ## Counters -/

/-- The `b` bytes of a counter, most significant byte first. -/
def counterBytes : Nat → Nat → List UInt8
  | 0, _ => []
  | b + 1, v => counterBytes b (v / 256) ++ [UInt8.ofNat v]

/-- The value of a list of bytes, most significant byte first. -/
def counterValue (l : List UInt8) : Nat := l.foldl (fun v x => 256 * v + x.toNat) 0

/-- Count in place: the last `n` bytes to look at are those below index `n`. -/
def ripple : Nat → List UInt8 → List UInt8
  | 0, l => l
  | n + 1, l => if l.getD n 0 = 0xff then ripple n (l.set n 0) else l.set n (l.getD n 0 + 1)

@[simp] theorem length_counterBytes (b v : Nat) : (counterBytes b v).length = b := by
  induction b generalizing v with
  | zero => rfl
  | succ b ih => rw [counterBytes, List.length_append, ih, List.length_singleton]

theorem counterBytes_zero (b : Nat) : counterBytes b 0 = List.replicate b 0 := by
  induction b with
  | zero => rfl
  | succ b ih => rw [counterBytes, Nat.zero_div, ih, List.replicate_succ']; rfl

theorem counterValue_concat (l : List UInt8) (x : UInt8) :
    counterValue (l ++ [x]) = 256 * counterValue l + x.toNat := by
  simp [counterValue]

theorem counterBytes_counterValue {b : Nat} {l : List UInt8} (h : l.length = b) :
    counterBytes b (counterValue l) = l := by
  induction l using List.reverseRecOn generalizing b with
  | nil =>
      subst h
      rfl
  | append_singleton l x ih =>
      have hx : x.toNat < 256 := x.toNat_lt
      rw [List.length_append, List.length_singleton] at h
      subst h
      rw [counterBytes, counterValue_concat,
        show (256 * counterValue l + x.toNat) / 256 = counterValue l by omega, ih rfl]
      congr 2
      rw [← UInt8.toNat_inj, UInt8.toNat_ofNat']
      omega

/-- A block holds the counter up to the number of its bytes. -/
theorem counterValue_counterBytes (b v : Nat) : counterValue (counterBytes b v) = v % 256 ^ b := by
  induction b generalizing v with
  | zero => simp [counterBytes, counterValue, Nat.mod_one]
  | succ b ih =>
      have hmod : v % 256 ^ (b + 1) = v % 256 + 256 * (v / 256 % 256 ^ b) := by
        rw [Nat.pow_succ', Nat.mod_mul]
      rw [counterBytes, counterValue_concat, ih, UInt8.toNat_ofNat', hmod, Nat.add_comm]

/-- Byte `j` of a counter. -/
theorem getD_counterBytes {b j : Nat} (v : Nat) (hj : j < b) :
    (counterBytes b v).getD j 0 = UInt8.ofNat (v / 256 ^ (b - 1 - j)) := by
  induction b generalizing v with
  | zero => exact absurd hj (Nat.not_lt_zero j)
  | succ b ih =>
      have hlen : (counterBytes b (v / 256)).length = b := length_counterBytes _ _
      rw [counterBytes]
      by_cases hlt : j < b
      · have hexp : (b - 1 - j).succ = b + 1 - 1 - j := by omega
        rw [List.getD_append _ _ _ _ (hlen.symm ▸ hlt), ih _ hlt, Nat.div_div_eq_div_mul,
          ← Nat.pow_succ', hexp]
      · obtain rfl : j = b := by omega
        rw [List.getD_append_right _ _ _ _ hlen.le, hlen, Nat.sub_self, Nat.add_sub_cancel, Nat.sub_self,
          Nat.pow_zero, Nat.div_one]
        rfl

theorem ripple_append {n : Nat} {l : List UInt8} (h : n ≤ l.length) (r : List UInt8) :
    ripple n (l ++ r) = ripple n l ++ r := by
  induction n generalizing l with
  | zero => rfl
  | succ n ih =>
      rw [ripple, ripple, List.getD_append _ _ _ _ h, List.set_append_left _ _ h,
        List.set_append_left _ _ h, ih (by rw [List.length_set]; omega)]
      split <;> rfl

/-- Counting in place adds one, whatever the number of 0xff bytes at the end. -/
theorem ripple_counterBytes (b v : Nat) :
    ripple b (counterBytes b v) = counterBytes b (v + 1) := by
  induction b generalizing v with
  | zero => rfl
  | succ b ih =>
      have hlen : (counterBytes b (v / 256)).length = b := length_counterBytes _ _
      have hlast : (counterBytes (b + 1) v).getD b 0 = UInt8.ofNat v := by
        rw [counterBytes, List.getD_append_right _ _ _ _ hlen.le, hlen, Nat.sub_self]
        rfl
      have hset : ∀ x, (counterBytes (b + 1) v).set b x = counterBytes b (v / 256) ++ [x] := by
        intro x
        rw [counterBytes, List.set_append_right _ _ hlen.le, hlen, Nat.sub_self]
        rfl
      rw [ripple, hlast, hset, hset, counterBytes]
      by_cases hff : v % 256 = 255
      · have hcarry : (v + 1) / 256 = v / 256 + 1 := by omega
        rw [if_pos (by rw [← UInt8.toNat_inj, UInt8.toNat_ofNat']; exact hff),
          ripple_append hlen.ge, ih, hcarry]
        congr 2
        rw [← UInt8.toNat_inj, UInt8.toNat_ofNat']
        change 0 = (v + 1) % 256
        omega
      · have hkeep : (v + 1) / 256 = v / 256 := by omega
        rw [if_neg (by rw [← UInt8.toNat_inj, UInt8.toNat_ofNat']; exact hff), hkeep,
          UInt8.ofNat_add]
        rfl

/-! ## The generator -/

/-- A function from a key and a block to a block of `b` bytes. -/
abbrev BlockFunction (b : Nat) : Type := List UInt8 → List UInt8 → Vector UInt8 b

section

variable {b : Nat} (E : BlockFunction b)

/-- The first `k` blocks behind counter `v`. -/
def keystream (key : List UInt8) (v k : Nat) : List UInt8 :=
  (List.range k).flatMap fun i => (E key (counterBytes b (v + 1 + i))).toList

/-- The number of blocks for `len` bytes. -/
def blocks (b len : Nat) : Nat := (len + (b - 1)) / b

/-- The first `len` bytes behind counter `v`. -/
def ctrBytes (key : List UInt8) (v len : Nat) : List UInt8 :=
  (keystream E key v (blocks b len)).take len

/-- A key, a counter, and the number of requests since the key was seeded. -/
structure CtrDrbg where
  key : List UInt8
  v : Nat
  reseedCounter : Nat

namespace CtrDrbg

/-- The next key and counter, of `κ` and `b` bytes, from `n` blocks and the
    data provided. -/
def update (κ n : Nat) (provided : Option (List UInt8)) (s : CtrDrbg) : CtrDrbg :=
  let stream := keystream E s.key s.v n
  let temp := match provided with
    | some data => List.zipWith (· ^^^ ·) stream data
    | none => stream
  { s with key := temp.take κ, v := counterValue ((temp.drop κ).take b) }

/-- A generator seeded with `entropy`. -/
def init (κ n : Nat) (entropy : List UInt8) : CtrDrbg :=
  update E κ n (some entropy) ⟨List.replicate κ 0, 0, 1⟩

/-- The answer to a request of `len` bytes, and the generator after it. -/
def generate (κ n len : Nat) (s : CtrDrbg) : List UInt8 × CtrDrbg :=
  (ctrBytes E s.key s.v len,
    update E κ n none { s with v := s.v + blocks b len, reseedCounter := s.reseedCounter + 1 })

/-- The answers to a list of requests, each with the generator after it. -/
def session (κ n : Nat) : List Nat → CtrDrbg → List (List UInt8 × CtrDrbg)
  | [], _ => []
  | len :: lens, s => generate E κ n len s :: session κ n lens (generate E κ n len s).2

@[simp] theorem reseedCounter_update (κ n : Nat) (provided : Option (List UInt8)) (s : CtrDrbg) :
    (update E κ n provided s).reseedCounter = s.reseedCounter := rfl

@[simp] theorem reseedCounter_generate (κ n len : Nat) (s : CtrDrbg) :
    (generate E κ n len s).2.reseedCounter = s.reseedCounter + 1 := rfl

end CtrDrbg

theorem keystream_zero (key : List UInt8) (v : Nat) : keystream E key v 0 = [] := rfl

theorem keystream_succ (key : List UInt8) (v k : Nat) :
    keystream E key v (k + 1)
      = keystream E key v k ++ (E key (counterBytes b (v + 1 + k))).toList := by
  simp [keystream, List.range_succ, List.flatMap_append]

theorem keystream_succ' (key : List UInt8) (v k : Nat) :
    keystream E key v (k + 1)
      = (E key (counterBytes b (v + 1))).toList ++ keystream E key (v + 1) k := by
  rw [keystream, List.range_succ_eq_map, List.flatMap_cons, List.flatMap_map]
  congr 1
  apply List.flatMap_congr
  intro i _
  rw [Nat.add_right_comm (v + 1) 1 i]
  rfl

@[simp] theorem length_keystream (key : List UInt8) (v k : Nat) :
    (keystream E key v k).length = k * b := by
  induction k with
  | zero => rw [keystream_zero, List.length_nil, Nat.zero_mul]
  | succ k ih => rw [keystream_succ, List.length_append, ih, Vector.length_toList, Nat.succ_mul]

/-! ## Requests block by block -/

theorem blocks_zero (hb : 0 < b) : blocks b 0 = 0 := Nat.div_eq_of_lt (by omega)

theorem blocks_of_le {len : Nat} (h0 : 0 < len) (hle : len ≤ b) : blocks b len = 1 := by
  rw [blocks, Nat.div_eq_of_lt_le] <;> omega

theorem blocks_of_ge {len : Nat} (hb : 0 < b) (hle : b ≤ len) :
    blocks b len = blocks b (len - b) + 1 := by
  rw [blocks, blocks, ← Nat.add_div_right _ hb]
  congr 1
  omega

/-- The last block of a request. -/
theorem ctrBytes_of_le {len : Nat} (h0 : 0 < len) (hle : len ≤ b) (key : List UInt8) (v : Nat) :
    ctrBytes E key v len = (E key (counterBytes b (v + 1))).toList.take len := by
  rw [ctrBytes, blocks_of_le h0 hle, keystream_succ', keystream_zero, List.append_nil]

/-- A full block of a request. -/
theorem ctrBytes_of_ge {len : Nat} (hb : 0 < b) (hle : b ≤ len) (key : List UInt8) (v : Nat) :
    ctrBytes E key v len
      = (E key (counterBytes b (v + 1))).toList ++ ctrBytes E key (v + 1) (len - b) := by
  have hlen : (E key (counterBytes b (v + 1))).toList.length = b := Vector.length_toList
  rw [ctrBytes, blocks_of_ge hb hle, keystream_succ', List.take_append, hlen,
    List.take_of_length_le (by omega), ctrBytes]

theorem le_blocks_mul (hb : 0 < b) (len : Nat) : len ≤ blocks b len * b := by
  have h := Nat.div_add_mod (len + (b - 1)) b
  have hmod := Nat.mod_lt (len + (b - 1)) hb
  rw [Nat.mul_comm] at h
  rw [blocks]
  omega

@[simp] theorem length_ctrBytes (hb : 0 < b) (key : List UInt8) (v len : Nat) :
    (ctrBytes E key v len).length = len := by
  rw [ctrBytes, List.length_take, length_keystream]
  exact Nat.min_eq_left (le_blocks_mul hb len)

end

end Meds.Core
