/-
  Meds.Core.Sponge

  Sponges over bytes.

  A state has bytes that can be read and xored into, the first `rate` of them
  from outside, and a permutation.  Input is xored in byte after byte, and the
  state is permuted when the rate is full; output is read byte after byte, and
  the state is permuted before the byte that does not fit.  How a program cuts
  its input and its output into pieces is then immaterial (`absorb_append`,
  `squeeze_add`), and the output is a stream (`squeeze_after`).  Output needs no
  xor, so it is that of a `BlockStream`.

  `finalize` pads in place.  It amounts to absorbing the padding
  (`absorb_pad`), so the stream is that of a padded message taken block by
  block (`stream_finalize`).
-/

import Mathlib.Data.List.Induction
import Mathlib.Data.Nat.Init
import Mathlib.Logic.Function.Iterate
import Mathlib.Tactic.Common

namespace Meds.Core

/-- A state of bytes, `rate` of which are read, and what the next state is. -/
structure BlockStream (σ : Type) where
  rate : Nat
  permute : σ → σ
  byteAt : σ → Nat → UInt8
  rate_pos : 0 < rate

/-- A state of bytes with a permutation.  Xoring does what it should. -/
structure Sponge (σ : Type) extends BlockStream σ where
  xorByte : σ → Nat → UInt8 → σ
  xor_zero : ∀ s i, xorByte s i 0 = s
  xor_xor : ∀ s i a b, xorByte (xorByte s i a) i b = xorByte s i (a ^^^ b)

/-- The last byte of a block. -/
theorem div_mod_succ_full {r k : Nat} (h : k % r + 1 = r) :
    (k + 1) / r = k / r + 1 ∧ (k + 1) % r = 0 := by
  have hk := Nat.div_add_mod k r
  refine (Nat.div_mod_unique (by omega)).mpr ⟨?_, by omega⟩
  rw [Nat.mul_succ]
  omega

theorem div_mod_succ_lt {r k : Nat} (h : k % r + 1 < r) :
    (k + 1) / r = k / r ∧ (k + 1) % r = k % r + 1 := by
  have hk := Nat.div_add_mod k r
  exact (Nat.div_mod_unique (by omega)).mpr ⟨by omega, h⟩

namespace BlockStream

variable {σ : Type} (K : BlockStream σ)

/-! ## Squeezing -/

/-- The next byte of the output.  The position is the number of bytes read
    since the last permutation. -/
def squeezeByte (s : σ × Nat) : UInt8 × (σ × Nat) :=
  let s := if s.2 = K.rate then (K.permute s.1, 0) else s
  (K.byteAt s.1 s.2, (s.1, s.2 + 1))

def squeeze : Nat → σ × Nat → List UInt8 × (σ × Nat)
  | 0, s => ([], s)
  | n + 1, s =>
    let r := squeeze n (K.squeezeByte s).2
    ((K.squeezeByte s).1 :: r.1, r.2)

/-- Output may be taken in pieces. -/
theorem squeeze_add (n m : Nat) (s : σ × Nat) :
    K.squeeze (n + m) s
      = ((K.squeeze n s).1 ++ (K.squeeze m (K.squeeze n s).2).1, (K.squeeze m (K.squeeze n s).2).2) := by
  induction n generalizing s with
  | zero => rw [Nat.zero_add]; rfl
  | succ n ih => rw [Nat.add_right_comm, squeeze, ih, squeeze]; rfl

/-- Bytes `pos, …, pos + n - 1` of the state. -/
def bytes (s : σ) (pos n : Nat) : List UInt8 := (List.range n).map fun i => K.byteAt s (pos + i)

/-- Output from the rest of the rate. -/
theorem squeeze_within (s : σ) {pos n : Nat} (h : pos + n ≤ K.rate) :
    K.squeeze n (s, pos) = (K.bytes s pos n, (s, pos + n)) := by
  induction n generalizing pos with
  | zero => rfl
  | succ n ih =>
      have hbyte : K.squeezeByte (s, pos) = (K.byteAt s pos, (s, pos + 1)) := by
        rw [squeezeByte, if_neg (by simp only; omega)]
      rw [squeeze, hbyte, ih (by omega), bytes, bytes, List.range_succ_eq_map, List.map_cons,
        List.map_map]
      simp only [Function.comp_def, Nat.succ_eq_add_one, Nat.add_assoc, Nat.add_comm 1]
      rfl

/-- With nothing left of the rate the state is permuted first. -/
theorem squeeze_turn (s : σ) {n : Nat} (hn : 0 < n) :
    K.squeeze n (s, K.rate) = K.squeeze n (K.permute s, 0) := by
  obtain ⟨n, rfl⟩ : ∃ n', n = n' + 1 := ⟨n - 1, by omega⟩
  have hbyte : K.squeezeByte (s, K.rate) = K.squeezeByte (K.permute s, 0) := by
    rw [squeezeByte, squeezeByte, if_pos rfl, if_neg (Nat.ne_of_lt K.rate_pos)]
  rw [squeeze, squeeze, hbyte]

/-- The output stream of a state with a full rate. -/
def stream (s : σ) (k : Nat) : UInt8 := K.byteAt (K.permute^[k / K.rate + 1] s) (k % K.rate)

/-- The state after `k` bytes of output. -/
def after (s : σ) (k : Nat) : σ × Nat :=
  if k = 0 then (s, K.rate) else (K.permute^[(k - 1) / K.rate + 1] s, (k - 1) % K.rate + 1)

theorem squeezeByte_after (s : σ) (k : Nat) :
    K.squeezeByte (K.after s k) = (K.stream s k, K.after s (k + 1)) := by
  have hr := K.rate_pos
  have hnext : K.after s (k + 1) = (K.permute^[k / K.rate + 1] s, k % K.rate + 1) := by
    rw [after, if_neg (Nat.succ_ne_zero k), Nat.add_sub_cancel]
  rw [hnext]
  cases k with
  | zero =>
      rw [squeezeByte, after, if_pos rfl, if_pos rfl, stream, Nat.zero_div, Nat.zero_mod]
      rfl
  | succ k =>
      have hlt := Nat.mod_lt k hr
      rw [squeezeByte, after, if_neg (Nat.succ_ne_zero k), Nat.add_sub_cancel, stream]
      by_cases hfull : k % K.rate + 1 = K.rate
      · -- the byte before was the last of its block
        obtain ⟨hdiv, hmod⟩ := div_mod_succ_full hfull
        rw [if_pos hfull, hdiv, hmod, Function.iterate_succ_apply' K.permute (k / K.rate + 1)]
      · obtain ⟨hdiv, hmod⟩ := div_mod_succ_lt (Nat.lt_of_le_of_ne hlt hfull)
        rw [if_neg hfull, hdiv, hmod]

/-- Squeezing reads the stream, from wherever it has come to. -/
theorem squeeze_after (s : σ) (k n : Nat) :
    K.squeeze n (K.after s k) = ((List.range n).map fun i => K.stream s (k + i), K.after s (k + n)) := by
  induction n generalizing k with
  | zero => rfl
  | succ n ih =>
      rw [squeeze, squeezeByte_after, ih, List.range_succ_eq_map, List.map_cons, List.map_map]
      simp only [Function.comp_def, Nat.succ_eq_add_one, Nat.add_assoc, Nat.add_comm 1]
      rfl

theorem after_pos_le (s : σ) (k : Nat) : (K.after s k).2 ≤ K.rate := by
  rw [after]
  split
  · exact Nat.le_refl _
  · exact Nat.mod_lt _ K.rate_pos

/-- After whole blocks the rate is full. -/
theorem after_pos_full (s : σ) {k : Nat} (hk : k % K.rate = 0) : (K.after s k).2 = K.rate := by
  rw [after]
  split
  · rfl
  · obtain ⟨m, hm⟩ := Nat.dvd_of_mod_eq_zero hk
    obtain ⟨m, rfl⟩ : ∃ m', m = m' + 1 := Nat.exists_eq_succ_of_ne_zero (by
      rintro rfl
      exact ‹k ≠ 0› hm)
    have hr := K.rate_pos
    change (k - 1) % K.rate + 1 = K.rate
    rw [hm, Nat.mul_succ, Nat.add_sub_assoc hr, Nat.mul_add_mod, Nat.mod_eq_of_lt (by omega)]
    omega

end BlockStream

namespace Sponge

variable {σ : Type} (K : Sponge σ)

/-! ## Absorbing -/

/-- Xor bytes into the state, from byte `pos` on. -/
def xorBytes (s : σ) (pos : Nat) : List UInt8 → σ
  | [] => s
  | b :: l => xorBytes (K.xorByte s pos b) (pos + 1) l

/-- The next byte of the input.  The position is the number of bytes since the
    last permutation. -/
def absorbByte (s : σ × Nat) (b : UInt8) : σ × Nat :=
  if s.2 + 1 = K.rate then (K.permute (K.xorByte s.1 s.2 b), 0)
  else (K.xorByte s.1 s.2 b, s.2 + 1)

def absorb (s : σ × Nat) (l : List UInt8) : σ × Nat := l.foldl K.absorbByte s

@[simp] theorem absorb_nil (s : σ × Nat) : K.absorb s [] = s := rfl

theorem absorb_cons (s : σ × Nat) (b : UInt8) (l : List UInt8) :
    K.absorb s (b :: l) = K.absorb (K.absorbByte s b) l := rfl

/-- Input may come in pieces. -/
theorem absorb_append (s : σ × Nat) (l l' : List UInt8) :
    K.absorb s (l ++ l') = K.absorb (K.absorb s l) l' := List.foldl_append ..

theorem absorb_pos_lt {s : σ × Nat} (hs : s.2 < K.rate) (l : List UInt8) :
    (K.absorb s l).2 < K.rate := by
  induction l generalizing s with
  | nil => exact hs
  | cons b l ih =>
      rw [absorb_cons]
      apply ih
      rw [absorbByte]
      split
      · exact K.rate_pos
      · exact Nat.lt_of_le_of_ne hs ‹_›

theorem xorBytes_append (s : σ) (pos : Nat) (l l' : List UInt8) :
    K.xorBytes s pos (l ++ l') = K.xorBytes (K.xorBytes s pos l) (pos + l.length) l' := by
  induction l generalizing s pos with
  | nil => rfl
  | cons b l ih =>
      rw [List.cons_append, xorBytes, ih, xorBytes, List.length_cons, Nat.add_right_comm,
        Nat.add_assoc]

theorem xorBytes_replicate (s : σ) (pos n : Nat) : K.xorBytes s pos (List.replicate n 0) = s := by
  induction n generalizing pos with
  | zero => rfl
  | succ n ih => rw [List.replicate_succ, xorBytes, K.xor_zero, ih]

/-- Input that does not fill the rate. -/
theorem absorb_within (s : σ) {pos : Nat} {l : List UInt8} (h : pos + l.length < K.rate) :
    K.absorb (s, pos) l = (K.xorBytes s pos l, pos + l.length) := by
  induction l generalizing s pos with
  | nil => rfl
  | cons b l ih =>
      rw [List.length_cons] at h ⊢
      rw [absorb_cons, absorbByte, if_neg (by simp only; omega), ih _ (by omega), xorBytes,
        Nat.add_right_comm, Nat.add_assoc]

/-- Input that fills the rate. -/
theorem absorb_full (s : σ) {pos : Nat} {l : List UInt8} (hpos : pos < K.rate)
    (h : pos + l.length = K.rate) :
    K.absorb (s, pos) l = (K.permute (K.xorBytes s pos l), 0) := by
  obtain ⟨l, b, rfl⟩ : ∃ l' b, l = l' ++ [b] := by
    refine ⟨l.dropLast, l.getLast ?_, (List.dropLast_concat_getLast _).symm⟩
    rintro rfl
    exact absurd h (Nat.ne_of_lt hpos)
  rw [List.length_append, List.length_singleton] at h
  rw [absorb_append, K.absorb_within s (by omega), absorb_cons, absorbByte, if_pos (by omega),
    xorBytes_append]
  rfl

/-! ## Padding -/

/-- What is appended to `n` bytes: the suffix, zeros, and the last bit of the
    rate.  The suffix and the bit may share a byte. -/
def padding (rate : Nat) (suffix : UInt8) (n : Nat) : List UInt8 :=
  if n % rate + 1 = rate then [suffix ^^^ 0x80]
  else suffix :: (List.replicate (rate - 2 - n % rate) 0 ++ [0x80])

def pad (suffix : UInt8) (l : List UInt8) : List UInt8 := l ++ padding K.rate suffix l.length

/-- Padding in place. -/
def finalize (suffix : UInt8) (s : σ × Nat) : σ :=
  K.xorByte (K.xorByte s.1 s.2 suffix) (K.rate - 1) 0x80

theorem length_padding {n : Nat} (hr : 0 < K.rate) (suffix : UInt8) :
    n % K.rate + (padding K.rate suffix n).length = K.rate := by
  have := Nat.mod_lt n hr
  rw [padding]
  split
  · exact ‹_›
  · rw [List.length_cons, List.length_append, List.length_replicate, List.length_singleton]
    omega

/-- A padded message is made of whole blocks. -/
theorem length_pad_mod (suffix : UInt8) (l : List UInt8) :
    (K.pad suffix l).length % K.rate = 0 := by
  have h := K.length_padding (n := l.length) K.rate_pos suffix
  rw [pad, List.length_append, Nat.add_mod, ← Nat.mod_mod l.length, ← Nat.add_mod, h, Nat.mod_self]

theorem absorb_pos (s : σ) (l : List UInt8) : (K.absorb (s, 0) l).2 = l.length % K.rate := by
  induction l using List.reverseRecOn with
  | nil => rw [absorb_nil, List.length_nil, Nat.zero_mod]
  | append_singleton l b ih =>
      have hlt := Nat.mod_lt l.length K.rate_pos
      rw [absorb_append, absorb_cons, absorb_nil, absorbByte, ih, List.length_append,
        List.length_singleton]
      by_cases hfull : l.length % K.rate + 1 = K.rate
      · rw [if_pos hfull, (div_mod_succ_full hfull).2]
      · rw [if_neg hfull, (div_mod_succ_lt (Nat.lt_of_le_of_ne hlt hfull)).2]

/-- Padding in place and permuting is absorbing the padding. -/
theorem absorb_pad (s : σ) (suffix : UInt8) (l : List UInt8) :
    K.absorb (s, 0) (K.pad suffix l) = (K.permute (K.finalize suffix (K.absorb (s, 0) l)), 0) := by
  have hlen := K.length_padding (n := l.length) K.rate_pos suffix
  have hpos := K.absorb_pos s l
  have hlt := Nat.mod_lt l.length K.rate_pos
  obtain ⟨t, pos, ht⟩ : ∃ t pos, K.absorb (s, 0) l = (t, pos) := ⟨_, _, rfl⟩
  rw [ht] at hpos
  obtain rfl : pos = l.length % K.rate := hpos
  rw [pad, absorb_append, ht, K.absorb_full t hlt hlen, finalize]
  congr 2
  rw [padding]
  by_cases hlast : l.length % K.rate + 1 = K.rate
  · rw [if_pos hlast, xorBytes, xorBytes, show K.rate - 1 = l.length % K.rate by omega, K.xor_xor]
  · rw [if_neg hlast, xorBytes, xorBytes_append, xorBytes_replicate, List.length_replicate, xorBytes,
      xorBytes, show l.length % K.rate + 1 + (K.rate - 2 - l.length % K.rate) = K.rate - 1 by omega]

/-- The blocks of a message, one permutation for each. -/
def absorbBlocks (s : σ) (blocks : List (List UInt8)) : σ :=
  blocks.foldl (fun s block => K.permute (K.xorBytes s 0 block)) s

theorem absorb_blocks (s : σ) {blocks : List (List UInt8)}
    (h : ∀ block ∈ blocks, block.length = K.rate) :
    K.absorb (s, 0) blocks.flatten = (K.absorbBlocks s blocks, 0) := by
  induction blocks generalizing s with
  | nil => rfl
  | cons block blocks ih =>
      rw [List.flatten_cons, absorb_append, K.absorb_full s K.rate_pos
        (by rw [Nat.zero_add, h block List.mem_cons_self]),
        ih _ fun b hb => h b (List.mem_cons_of_mem _ hb)]
      rfl

/-- The stream of a finalized state is that of the padded message, absorbed
    block by block. -/
theorem stream_finalize (s : σ) (suffix : UInt8) (l : List UInt8) {blocks : List (List UInt8)}
    (hflat : blocks.flatten = K.pad suffix l) (hlen : ∀ block ∈ blocks, block.length = K.rate)
    (k : Nat) :
    K.stream (K.finalize suffix (K.absorb (s, 0) l)) k
      = K.byteAt (K.permute^[k / K.rate] (K.absorbBlocks s blocks)) (k % K.rate) := by
  have h := K.absorb_pad s suffix l
  rw [← hflat, K.absorb_blocks s hlen] at h
  have hperm : K.absorbBlocks s blocks = K.permute (K.finalize suffix (K.absorb (s, 0) l)) :=
    congrArg Prod.fst h
  rw [BlockStream.stream, Function.iterate_succ_apply, hperm]

end Sponge

end Meds.Core
