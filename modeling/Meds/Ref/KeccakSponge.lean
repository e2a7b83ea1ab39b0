/-
  Meds.Ref.KeccakSponge

  The loops of ref/fips202.c are the sponge that takes and gives one byte at a
  time, whatever blocks they work on.

  So the place where a caller cuts its input or its output does not matter,
  and the functions that absorb a whole message at once or give whole blocks
  compute what the incremental ones do.
-/

import Meds.Ref.Keccak
import Mathlib.Data.List.GetD

namespace Meds.Ref.Keccak

open Meds.Core

variable {r : Nat} (hr : 0 < r)

/-! ## Input -/

theorem xorIn_eq (s : Words) {lo hi : Nat} {inp : List UInt8} (h : hi - lo ≤ inp.length) :
    xorIn lo hi s inp
      = ((sponge r hr).xorBytes s lo (inp.take (hi - lo)), inp.drop (hi - lo)) := by
  unfold xorIn forUp
  generalize hi - lo = n at h ⊢
  induction n generalizing lo s inp with
  | zero => rfl
  | succ n ih =>
      cases inp with
      | nil => exact absurd h (Nat.not_succ_le_zero n)
      | cons b inp =>
          rw [forLoop]
          exact ih (xorByte s lo b) (Nat.le_of_succ_le_succ h)

/-- `keccak_absorb` absorbs byte after byte. -/
theorem keccakAbsorb_eq (s : Words) {pos : Nat} (hpos : pos < r) (inp : List UInt8) :
    keccakAbsorb s pos r inp = (sponge r hr).absorb (s, pos) inp := by
  obtain ⟨⟨hlt, habs⟩, hend⟩ := iterWhile_invariant
    (fun a : Absorbing => decide (a.pos + a.inp.length ≥ r)) (absorbBlock r)
    (fun a => a.pos < r ∧
      (sponge r hr).absorb (a.s, a.pos) a.inp = (sponge r hr).absorb (s, pos) inp)
    (fun a => a.inp.length)
    (by
      rintro ⟨t, p, l⟩ ⟨hp, hI⟩ hc
      have hc : r ≤ p + l.length := of_decide_eq_true hc
      simp only at hp hI
      -- the round takes the bytes that fill the block
      have hfull : p + (l.take (r - p)).length = r := by
        rw [List.length_take]
        omega
      simp only [absorbBlock]
      rw [xorIn_eq hr t (show r - p ≤ l.length by omega)]
      refine ⟨⟨hr, ?_⟩, ?_⟩
      · rw [← hI]
        conv_rhs => rw [← List.take_append_drop (r - p) l, Sponge.absorb_append,
          (sponge r hr).absorb_full t hp hfull]
        rfl
      · simp only [List.length_drop]
        omega)
    (s := ⟨s, pos, inp⟩) ⟨hpos, rfl⟩ (Nat.le_succ inp.length)
  rw [keccakAbsorb]
  generalize iterWhile _ _ _ _ = a at hlt habs hend
  -- what is left does not fill the block
  have hleft : a.pos + a.inp.length < r := by
    by_contra hge
    have := hend (decide_eq_true (Nat.le_of_not_lt hge))
    omega
  rw [← habs, (sponge r hr).absorb_within a.s hleft,
    xorIn_eq hr a.s (show a.pos + a.inp.length - a.pos ≤ a.inp.length by omega),
    Nat.add_sub_cancel_left, List.take_length]

/-- The last bit of the rate. -/
theorem xorByte_last {r : Nat} (hr : 0 < r) (s : Words) (h8 : 8 ∣ r) :
    xorByte s (r - 1) 0x80 = xorWord s ((r - 1) / 8) ((1 : UInt64) <<< 63) := by
  rw [xorByte, show (r - 1) % 8 = 7 by omega]
  congr 1

theorem keccakFinalize_eq (s : Words) (pos : Nat) (p : UInt8) (h8 : 8 ∣ r) :
    keccakFinalize s pos r p = (sponge r hr).finalize p (s, pos) := by
  rw [keccakFinalize, show r / 8 - 1 = (r - 1) / 8 by omega, ← xorByte_last hr _ h8]
  rfl

/-! ## Whole blocks -/

theorem bit_xorByte (s : Words) (i : Nat) (b : UInt8) {w : Nat} (hw : w < 25) (z : Fin 64) :
    KeccakF.bit ((xorByte s i b).getD w 0) z
      = (KeccakF.bit (s.getD w 0) z ^^ (decide (8 * w + z.val / 8 = i) && b.toNat.testBit (z % 8))) := by
  have hz := z.isLt
  rw [xorByte, getD_xorWord _ _ hw]
  by_cases hi : i / 8 = w
  · rw [if_pos hi, KeccakF.bit_xor, bit_shiftByte _ (Nat.mod_lt _ (by decide))]
    congr 3
    exact propext (by omega)
  · rw [if_neg hi, decide_eq_false (by omega), Bool.false_and, Bool.xor_false]

/-- Every bit of the state is xored with the bit of the input at its place. -/
theorem bit_xorBytes (s : Words) (pos : Nat) (l : List UInt8) {w : Nat} (hw : w < 25) (z : Fin 64) :
    KeccakF.bit (((sponge r hr).xorBytes s pos l).getD w 0) z
      = (KeccakF.bit (s.getD w 0) z ^^ (decide (pos ≤ 8 * w + z.val / 8)
          && (l.getD (8 * w + z.val / 8 - pos) 0).toNat.testBit (z % 8))) := by
  induction l generalizing s pos with
  | nil => simp [Sponge.xorBytes]
  | cons b l ih =>
      rw [Sponge.xorBytes, ih]
      change (KeccakF.bit ((xorByte s pos b).getD w 0) z ^^ _) = _
      rw [bit_xorByte _ _ _ hw]
      rcases Nat.lt_trichotomy (8 * w + z.val / 8) pos with hlt | heq | hgt
      · simp [show ¬ 8 * w + z.val / 8 = pos by omega, show ¬ pos + 1 ≤ 8 * w + z.val / 8 by omega,
          show ¬ pos ≤ 8 * w + z.val / 8 by omega]
      · simp [heq]
      · rw [show 8 * w + z.val / 8 - pos = 8 * w + z.val / 8 - (pos + 1) + 1 by omega]
        simp [show ¬ 8 * w + z.val / 8 = pos by omega, show pos + 1 ≤ 8 * w + z.val / 8 by omega,
          show pos ≤ 8 * w + z.val / 8 by omega]

theorem ext_bit {s t : Words}
    (h : ∀ w < 25, ∀ z, KeccakF.bit (s.getD w 0) z = KeccakF.bit (t.getD w 0) z) : s = t := by
  apply Vector.ext
  intro w hw
  rw [← getD_eq _ hw, ← getD_eq _ hw]
  exact KeccakF.eq_of_bit (h w hw)

/-- A word that is loaded is eight bytes. -/
theorem xorWord_load64 (s : Words) (i : Nat) (x : List UInt8) :
    xorWord s i (load64 x) = (sponge r hr).xorBytes s (8 * i) (x.take 8) := by
  refine ext_bit fun w hw z => ?_
  have hz := z.isLt
  rw [getD_xorWord _ _ hw, bit_xorBytes hr _ _ _ hw]
  by_cases hi : i = w
  · subst hi
    rw [if_pos rfl, KeccakF.bit_xor, bit_load64, decide_eq_true (by omega), Bool.true_and,
      Nat.add_sub_cancel_left]
    congr 2
    simp [List.getD_eq_getElem?_getD, show z.val / 8 < 8 by omega]
  · rw [if_neg hi]
    -- no byte of the word is among the eight
    by_cases hle : 8 * i ≤ 8 * w + z.val / 8
    · rw [List.getD_eq_default _ _ (by rw [List.length_take]; omega)]
      simp
    · simp [hle]

theorem xorBlock_eq (s : Words) (inp : List UInt8) (h8 : 8 ∣ r) :
    xorBlock r s inp = (sponge r hr).xorBytes s 0 (inp.take r) := by
  have h := forUp_invariant (f := fun i s => xorWord s i (load64 (inp.drop (8 * i))))
    (fun i t => t = (sponge r hr).xorBytes s 0 (inp.take (8 * i))) (Nat.zero_le (r / 8))
    (by
      rintro i _ _ _ rfl
      by_cases hlen : 8 * i ≤ inp.length
      · rw [xorWord_load64 hr, Nat.mul_succ, List.take_add, Sponge.xorBytes_append, Nat.zero_add,
          List.length_take, Nat.min_eq_left hlen]
      · -- past the end of the input nothing is left to add
        have hdrop : inp.drop (8 * i) = [] := List.drop_eq_nil_of_le (by omega)
        have hi1 : inp.take (8 * (i + 1)) = inp := List.take_of_length_le (by omega)
        have hi0 : inp.take (8 * i) = inp := List.take_of_length_le (by omega)
        rw [xorWord_load64 hr, hdrop, hi1, hi0]
        rfl)
    (s := s) (by rw [Nat.mul_zero]; rfl)
  rwa [Nat.mul_div_cancel' h8] at h

/-- A loop that xors in the bytes of a list. -/
theorem forUp_xorByte (s : Words) (l : List UInt8) :
    forUp 0 l.length (fun i s => xorByte s i (l.getD i 0)) s = (sponge r hr).xorBytes s 0 l := by
  have h := forUp_invariant (f := fun i s => xorByte s i (l.getD i 0))
    (fun i t => t = (sponge r hr).xorBytes s 0 (l.take i)) (Nat.zero_le l.length)
    (by
      rintro i _ _ hi rfl
      rw [List.take_succ_eq_append_getElem hi, Sponge.xorBytes_append, List.length_take,
        Nat.min_eq_left (Nat.le_of_lt hi), Nat.zero_add, List.getD_eq_getElem _ _ hi]
      rfl)
    (s := s) rfl
  rwa [List.take_length] at h

/-- `keccak_absorb_once` is the incremental functions one after the other. -/
theorem keccakAbsorbOnce_eq (inp : List UInt8) (p : UInt8) (h8 : 8 ∣ r) :
    keccakAbsorbOnce r inp p
      = (sponge r hr).finalize p ((sponge r hr).absorb (keccakInit, 0) inp) := by
  obtain ⟨habs, hend⟩ := iterWhile_invariant
    (fun a : Words × List UInt8 => decide (a.2.length ≥ r))
    (fun a => (keccakF1600StatePermute (xorBlock r a.1 a.2), a.2.drop r))
    (fun a => (sponge r hr).absorb (a.1, 0) a.2 = (sponge r hr).absorb (keccakInit, 0) inp)
    (fun a => a.2.length)
    (by
      -- a full block is absorbed with its permutation; what is left is shorter
      rintro ⟨t, l⟩ hI hc
      have hc : r ≤ l.length := of_decide_eq_true hc
      have hfull : 0 + (l.take r).length = r := by
        rw [List.length_take]
        omega
      refine ⟨?_, ?_⟩
      · rw [← hI]
        conv_rhs => rw [← List.take_append_drop r l, Sponge.absorb_append,
          (sponge r hr).absorb_full t hr hfull]
        rw [xorBlock_eq hr t l h8]
        rfl
      · simp only [List.length_drop]
        omega)
    (s := (keccakInit, inp)) rfl (Nat.le_succ inp.length)
  rw [keccakAbsorbOnce]
  generalize iterWhile _ _ _ _ = a at habs hend
  -- the loop stops with less than a block, which gets the suffix and the last bit
  have hleft : 0 + a.2.length < r := by
    by_contra hge
    have := hend (decide_eq_true (by omega))
    omega
  rw [← habs, (sponge r hr).absorb_within a.1 hleft, forUp_xorByte hr, ← xorByte_last hr _ h8,
    Nat.zero_add]
  rfl

/-! ## Output -/

theorem forUp_bytes (s : Words) {lo hi : Nat} (out : List UInt8) (h : lo ≤ hi) :
    forUp lo hi (fun i out => out ++ [byteAt s i]) out
      = out ++ (sponge r hr).bytes s lo (hi - lo) := by
  induction hi, h using Nat.le_induction with
  | base => simp [BlockStream.bytes]
  | succ hi h ih =>
      rw [forUp_succ h, ih, List.append_assoc, Nat.succ_sub h, BlockStream.bytes, BlockStream.bytes,
        List.range_succ, List.map_append, List.map_singleton, Nat.add_sub_cancel' h]
      rfl

/-- A round of the loop of `keccak_squeeze`. -/
theorem squeezeBlock_eq (q : Squeezing) (hpos : q.pos ≤ r) (hlen : q.outlen ≠ 0) :
    ∃ n, 0 < n ∧ n ≤ q.outlen ∧ (squeezeBlock r q).outlen = q.outlen - n ∧
      (squeezeBlock r q).pos ≤ r ∧
      (squeezeBlock r q).out = q.out ++ ((sponge r hr).squeeze n (q.s, q.pos)).1 ∧
      ((squeezeBlock r q).s, (squeezeBlock r q).pos) = ((sponge r hr).squeeze n (q.s, q.pos)).2 := by
  -- permuting first changes nothing about what is squeezed
  obtain ⟨s, pos, hturn, hlt, hsame⟩ : ∃ s pos,
      (if q.pos = r then (keccakF1600StatePermute q.s, 0) else (q.s, q.pos)) = (s, pos) ∧ pos < r ∧
        ∀ n, 0 < n → (sponge r hr).squeeze n (q.s, q.pos) = (sponge r hr).squeeze n (s, pos) := by
    by_cases hfull : q.pos = r
    · refine ⟨_, _, if_pos hfull, hr, fun n hn => ?_⟩
      rw [hfull]
      exact (sponge r hr).squeeze_turn q.s hn
    · exact ⟨_, _, if_neg hfull, Nat.lt_of_le_of_ne hpos hfull, fun _ _ => rfl⟩
  have hle : pos + (min r (pos + q.outlen) - pos) ≤ r := by omega
  refine ⟨min r (pos + q.outlen) - pos, by omega, by omega, ?_, ?_, ?_, ?_⟩
  · simp only [squeezeBlock, hturn]
  · simp only [squeezeBlock, hturn]
    omega
  · rw [hsame _ (by omega), (sponge r hr).squeeze_within s hle]
    simp only [squeezeBlock, hturn]
    exact forUp_bytes hr s q.out (by omega)
  · rw [hsame _ (by omega), (sponge r hr).squeeze_within s hle]
    simp only [squeezeBlock, hturn, Prod.mk.injEq, true_and]
    omega

/-- `keccak_squeeze` squeezes byte after byte. -/
theorem keccakSqueeze_eq (outlen : Nat) (s : Words) {pos : Nat} (hpos : pos ≤ r) :
    keccakSqueeze outlen s pos r = (sponge r hr).squeeze outlen (s, pos) := by
  obtain ⟨⟨-, hsq⟩, hend⟩ := iterWhile_invariant
    (fun q : Squeezing => decide (q.outlen ≠ 0)) (squeezeBlock r)
    (fun q => q.pos ≤ r ∧ (sponge r hr).squeeze outlen (s, pos)
      = (q.out ++ ((sponge r hr).squeeze q.outlen (q.s, q.pos)).1,
          ((sponge r hr).squeeze q.outlen (q.s, q.pos)).2))
    (fun q => q.outlen)
    (by
      rintro q ⟨hq, hI⟩ hc
      have hc : q.outlen ≠ 0 := of_decide_eq_true hc
      obtain ⟨n, hn, hle, hlen, hq', hout, hst⟩ := squeezeBlock_eq hr q hq hc
      refine ⟨⟨hq', ?_⟩, by omega⟩
      rw [hI, hlen, hout, hst, List.append_assoc]
      conv_lhs => rw [← Nat.add_sub_cancel' hle, BlockStream.squeeze_add])
    (s := ⟨[], outlen, s, pos⟩) ⟨hpos, rfl⟩ (Nat.le_refl outlen)
  rw [keccakSqueeze]
  generalize iterWhile _ _ _ _ = q at hsq hend
  have hdone : q.outlen = 0 := by
    by_contra hne
    exact hne (hend (decide_eq_true hne))
  rw [hsq, hdone]
  simp [BlockStream.squeeze]

/-- Words that are stored are the bytes of the state. -/
theorem storeWords_eq (n : Nat) (s : Words) : storeWords n s = (sponge r hr).bytes s 0 (8 * n) := by
  have hstore : ∀ i, store64 (s.getD i 0) = (sponge r hr).bytes s (8 * i) 8 := by
    intro i
    refine List.map_congr_left fun j hj => ?_
    have hj : j < 8 := List.mem_range.mp hj
    change _ = byteAt s (8 * i + j)
    rw [byteAt, show (8 * i + j) / 8 = i by omega, show (8 * i + j) % 8 = j by omega]
  rw [storeWords]
  induction n with
  | zero => rfl
  | succ n ih =>
      rw [forUp_succ (Nat.zero_le n), ih, hstore, Nat.mul_succ, BlockStream.bytes, BlockStream.bytes,
        BlockStream.bytes, List.range_add, List.map_append, List.map_map]
      congr 1
      refine List.map_congr_left fun j _ => ?_
      rw [Function.comp_apply, Nat.zero_add]

/-- `keccak_squeezeblocks` squeezes whole blocks, where none was begun. -/
theorem keccakSqueezeblocks_eq (nblocks : Nat) (s : Words) (h8 : 8 ∣ r) :
    (keccakSqueezeblocks nblocks s r).1 = ((sponge r hr).squeeze (nblocks * r) (s, r)).1 ∧
      ((keccakSqueezeblocks nblocks s r).2, r) = ((sponge r hr).squeeze (nblocks * r) (s, r)).2 := by
  have h := forUp_invariant
    (f := fun _ t =>
      let s := keccakF1600StatePermute t.2
      (t.1 ++ storeWords (r / 8) s, s))
    (fun n t => (t.1, (t.2, r)) = (sponge r hr).squeeze (n * r) (s, r)) (Nat.zero_le nblocks)
    (by
      intro n t _ _ hI
      have hturn : (sponge r hr).squeeze r (t.2, r)
          = ((sponge r hr).bytes (keccakF1600StatePermute t.2) 0 r,
              (keccakF1600StatePermute t.2, r)) := by
        have h : 0 + r ≤ (sponge r hr).rate := Nat.le_of_eq (Nat.zero_add r)
        calc (sponge r hr).squeeze r (t.2, r)
            = (sponge r hr).squeeze r (keccakF1600StatePermute t.2, 0) :=
              (sponge r hr).squeeze_turn t.2 hr
          _ = _ := by rw [(sponge r hr).squeeze_within _ h, Nat.zero_add]
      rw [Nat.succ_mul, BlockStream.squeeze_add, ← hI, hturn]
      simp only
      rw [storeWords_eq hr, Nat.mul_div_cancel' h8])
    (s := (([] : List UInt8), s)) (by rw [Nat.zero_mul]; rfl)
  rw [← h]
  exact ⟨rfl, rfl⟩

end Meds.Ref.Keccak
