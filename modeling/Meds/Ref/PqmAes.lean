/-
  Meds.Ref.PqmAes

  include/pqm_common/aes.c: the AES of the board.

  Two blocks at a time are encrypted in assembly, which is a parameter here.
  Where there is no second block, the routine encrypts whatever lies in a local
  buffer.  A counter is a word of a machine that keeps the low byte first, so
  it is swapped before and after counting.

  `aes*_ecb` and `aes*_ctr` come to the same as block by block (`ecb_eq`,
  `ctr_returns`).
-/

import Meds.Core.Bits
import Meds.Ref.SeedExpander
import Mathlib.Tactic.IntervalCases

namespace Meds.Ref.PqmAes

open Meds.Core

/-- The routines `aes*_keyschedule_ffs` and `aes*_encrypt_ffs`. -/
structure Ffs where
  keyschedule : List UInt8 → List UInt32
  encrypt : List UInt32 → List UInt8 → List UInt8 → Vector UInt8 16 × Vector UInt8 16

/-- Each of two blocks is encrypted for itself. -/
def Ffs.Computes (A : Ffs) (keyBytes : Nat) (E : BlockFunction 16) : Prop :=
  ∀ key p p' : List UInt8, key.length = keyBytes → p.length = 16 → p'.length = 16 →
    A.encrypt (A.keyschedule key) p p' = (E key p, E key p')

/-! ## aes.c -/

section

variable (A : Ffs)

/-- `br_swap32`. -/
def brSwap32 (x : UInt32) : UInt32 :=
  let x := ((x &&& 0x00FF00FF) <<< 8) ||| ((x >>> 8) &&& 0x00FF00FF)
  (x <<< 16) ||| (x >>> 16)

/-- `*x` for a word at byte `off`. -/
def getWord (M : Arr UInt8) (off : Nat) : UInt32 :=
  (M.get off).toUInt32 ||| (M.get (off + 1)).toUInt32 <<< 8 ||| (M.get (off + 2)).toUInt32 <<< 16
    ||| (M.get (off + 3)).toUInt32 <<< 24

/-- `*x = w` for a word at byte `off`. -/
def putWord (M : Arr UInt8) (off : Nat) (w : UInt32) : Arr UInt8 :=
  M.blit off [w.toUInt8, (w >>> 8).toUInt8, (w >>> 16).toUInt8, (w >>> 24).toUInt8]

/-- The body that `inc1_be` and `inc2_be` share. -/
def incBe (n : UInt32) (M : Arr UInt8) (off : Nat) : Arr UInt8 :=
  let t := brSwap32 (getWord M off) + n
  putWord M off (brSwap32 t)

def inc1Be (M : Arr UInt8) (off : Nat) : Arr UInt8 := incBe 1 M off
def inc2Be (M : Arr UInt8) (off : Nat) : Arr UInt8 := incBe 2 M off

/-- The loop of `aes128_ecb` and `aes256_ecb`, from `out + o` and `in + i` on.
    `buf1` is not initialised. -/
def ecb (skExp : List UInt32) (inp buf1 : Arr UInt8) : Nat → Nat → Nat → Arr UInt8 → Arr UInt8
  | 0, _, _, out => out
  | 1, o, i, out =>
    -- the second block goes to `buf0`
    out.blit o (A.encrypt skExp (inp.slice i 16) (buf1.slice 0 16)).1.toList
  | nblocks + 2, o, i, out =>
    let c := A.encrypt skExp (inp.slice i 16) (inp.slice (i + 16) 16)
    ecb skExp inp buf1 nblocks (o + 32) (i + 32)
      ((out.blit o c.1.toList).blit (o + 16) c.2.toList)

/-- The variables of the loop of `aes128_ctr` and `aes256_ctr`; `pos` is how far
    `out` has moved. -/
structure CtrVars where
  out : Arr UInt8
  pos : Nat
  outlen : Nat
  ivw1 : Arr UInt8
  ivw2 : Arr UInt8

/-- A round of `while (outlen > 2*AES_BLOCKBYTES)`. -/
def ctrRound {ε : Type} (skExp : List UInt32) (s : CtrVars) : Run ε (CtrVars ⊕ CtrVars) :=
  if s.outlen > 2 * 16 then
    let c := A.encrypt skExp (s.ivw1.slice 0 16) (s.ivw2.slice 0 16)
    pure (.inl ⟨(s.out.blit s.pos c.1.toList).blit (s.pos + 16) c.2.toList, s.pos + 32, s.outlen - 32,
      inc2Be s.ivw1 12, inc2Be s.ivw2 12⟩)
  else pure (.inr s)

/-- `for (i = 0; i < outlen; i++) out[i] = buf[i];` -/
def copyOut (out : Arr UInt8) (pos outlen : Nat) (buf : Arr UInt8) : Arr UInt8 :=
  forUp 0 outlen (fun i out => out.set (pos + i) (buf.get i)) out

/-- What comes behind the loop. -/
def ctrLast (skExp : List UInt32) (s : CtrVars) : Arr UInt8 :=
  let c := A.encrypt skExp (s.ivw1.slice 0 16) (s.ivw2.slice 0 16)
  if s.outlen ≥ 16 then
    copyOut (s.out.blit s.pos c.1.toList) (s.pos + 16) (s.outlen - 16) ⟨c.2.toList⟩
  else if s.outlen > 0 then copyOut s.out s.pos s.outlen ⟨c.1.toList⟩
  else s.out

/-- The body that `aes128_ctr` and `aes256_ctr` share. -/
def ctr {ε : Type} (skExp : List UInt32) (out : Arr UInt8) (outlen : Nat) (iv : Arr UInt8) :
    Run ε (Arr UInt8) := do
  let ivw1 := (Arr.replicate 16 0).blit 0 (iv.slice 0 12)
  let ivw2 := (Arr.replicate 16 0).blit 0 (iv.slice 0 12)
  let s ← Run.loop (ctrRound A skExp) ⟨out, 0, outlen, ivw1, inc1Be ivw2 12⟩
  pure (ctrLast A skExp s)

def aes128EcbKeyexp (key : Arr UInt8) : List UInt32 := A.keyschedule (key.slice 0 16)
def aes128CtrKeyexp (key : Arr UInt8) : List UInt32 := A.keyschedule (key.slice 0 16)
def aes256EcbKeyexp (key : Arr UInt8) : List UInt32 := A.keyschedule (key.slice 0 32)
def aes256CtrKeyexp (key : Arr UInt8) : List UInt32 := A.keyschedule (key.slice 0 32)

def aes128Ecb (out : Arr UInt8) (o : Nat) (inp : Arr UInt8) (i nblocks : Nat) (ctx : List UInt32)
    (buf1 : Arr UInt8) : Arr UInt8 :=
  ecb A ctx inp buf1 nblocks o i out

def aes256Ecb (out : Arr UInt8) (o : Nat) (inp : Arr UInt8) (i nblocks : Nat) (ctx : List UInt32)
    (buf1 : Arr UInt8) : Arr UInt8 :=
  ecb A ctx inp buf1 nblocks o i out

def aes128Ctr {ε : Type} (out : Arr UInt8) (outlen : Nat) (iv : Arr UInt8) (ctx : List UInt32) :
    Run ε (Arr UInt8) :=
  ctr A ctx out outlen iv

def aes256Ctr {ε : Type} (out : Arr UInt8) (outlen : Nat) (iv : Arr UInt8) (ctx : List UInt32) :
    Run ε (Arr UInt8) :=
  ctr A ctx out outlen iv

end

/-! ## Words -/

theorem testBit_brSwap32 (w : UInt32) {k : Nat} (hk : k < 32) :
    (brSwap32 w).toNat.testBit k = w.toNat.testBit (24 - 8 * (k / 8) + k % 8) := by
  have hmask : (0x00FF00FF : UInt32).toNat = 0x00FF00FF := rfl
  simp only [brSwap32, UInt32.toNat_or, UInt32.toNat_shiftLeft, UInt32.toNat_shiftRight,
    UInt32.toNat_and, Nat.testBit_or, Nat.testBit_mod_two_pow, Nat.testBit_shiftLeft,
    Nat.testBit_shiftRight, Nat.testBit_and, hmask]
  interval_cases k <;> simp [Nat.testBit]

theorem testBit_getWord (M : Arr UInt8) (off : Nat) {k : Nat} (hk : k < 32) :
    (getWord M off).toNat.testBit k = (M.get (off + k / 8)).toNat.testBit (k % 8) := by
  simp only [getWord, UInt32.toNat_or, UInt32.toNat_shiftLeft, UInt8.toNat_toUInt32, Nat.testBit_or,
    Nat.testBit_mod_two_pow, Nat.testBit_shiftLeft]
  interval_cases k <;> simp [testBit_byte_of_ge]

theorem testBit_putWord (M : Arr UInt8) (off : Nat) (w : UInt32) {j k : Nat} (hj : j < 4)
    (hk : k < 8) :
    ((putWord M off w).get (off + j)).toNat.testBit k = w.toNat.testBit (8 * j + k) := by
  have hbyte : ∀ n : Nat, (n % 256).testBit k = n.testBit k := fun n =>
    (Nat.testBit_mod_two_pow n 8 k).trans (by rw [decide_eq_true hk, Bool.true_and])
  rw [putWord, Arr.get_blit, if_pos (by simp; omega)]
  interval_cases j <;> simp [hbyte, Nat.testBit_shiftRight]

/-- A word is determined by its bits. -/
theorem word_ext {x y : UInt32} (h : ∀ k, k < 32 → x.toNat.testBit k = y.toNat.testBit k) :
    x = y := by
  apply UInt32.toNat_inj.mp
  apply Nat.eq_of_testBit_eq
  intro k
  by_cases hk : k < 32
  · exact h k hk
  · have hpow : 2 ^ 32 ≤ 2 ^ k := Nat.pow_le_pow_right (by decide) (by omega)
    rw [Nat.testBit_lt_two_pow (x.toNat_lt.trans_le hpow),
      Nat.testBit_lt_two_pow (y.toNat_lt.trans_le hpow)]

theorem testBit_word (n : Nat) {k : Nat} (hk : k < 32) :
    (UInt32.ofNat n).toNat.testBit k = n.testBit k := by
  rw [UInt32.toNat_ofNat', Nat.testBit_mod_two_pow, decide_eq_true hk, Bool.true_and]

/-! ## Counters -/

/-- Bit `k` of byte `j` of a counter. -/
theorem testBit_counterBytes (n : Nat) {j k : Nat} (hj : j < 4) (hk : k < 8) :
    ((counterBytes 4 n).getD j 0).toNat.testBit k = n.testBit (8 * (3 - j) + k) := by
  have h256 : (256 : Nat) ^ (4 - 1 - j) = 2 ^ (8 * (3 - j)) := by rw [Nat.pow_mul]
  rw [getD_counterBytes n hj, testBit_uint8, decide_eq_true hk, Bool.true_and, h256,
    Nat.testBit_div_two_pow, Nat.add_comm]

/-- The swapped word is the counter. -/
theorem brSwap32_getWord {M : Arr UInt8} {off n : Nat} (h : M.slice off 4 = counterBytes 4 n) :
    brSwap32 (getWord M off) = UInt32.ofNat n := by
  refine word_ext fun k hk => ?_
  have hget := Arr.getD_slice M off 4 (3 - k / 8) (by omega)
  have hk' : k = 8 * (3 - (3 - k / 8)) + k % 8 := by omega
  rw [h] at hget
  rw [testBit_brSwap32 _ hk, testBit_getWord _ _ (by omega), testBit_word n hk,
    show (24 - 8 * (k / 8) + k % 8) / 8 = 3 - k / 8 by omega,
    show (24 - 8 * (k / 8) + k % 8) % 8 = k % 8 by omega]
  conv_rhs => rw [hk']
  rw [← testBit_counterBytes n (by omega) (Nat.mod_lt _ (by decide))]
  exact congrArg (fun x : UInt8 => x.toNat.testBit (k % 8)) hget.symm

/-- A counter is stored as a swapped word. -/
theorem slice_putWord (M : Arr UInt8) (off n : Nat) :
    (putWord M off (brSwap32 (UInt32.ofNat n))).slice off 4 = counterBytes 4 n := by
  apply List.ext_getElem (by simp)
  intro j hj hj'
  rw [Arr.length_slice] at hj
  rw [Arr.getElem_slice, ← List.getD_eq_getElem _ 0 hj']
  refine byte_ext fun k hk => ?_
  rw [testBit_putWord _ _ _ hj hk, testBit_brSwap32 _ (by omega), testBit_word n (by omega),
    testBit_counterBytes n hj hk]
  exact congrArg _ (by omega)

theorem slice_incBe {M : Arr UInt8} {nonce : List UInt8} {c : Nat} (hnonce : nonce.length = 12)
    (h : M.slice 0 16 = nonce ++ counterBytes 4 c) (n : Nat) :
    (incBe (UInt32.ofNat n) M 12).slice 0 16 = nonce ++ counterBytes 4 (c + n) := by
  have hsplit : ∀ N : Arr UInt8, N.slice 0 16 = N.slice 0 12 ++ N.slice 12 4 :=
    fun N => N.slice_add 0 12 4
  rw [hsplit] at h
  obtain ⟨hfirst, hlast⟩ := List.append_inj h (by rw [Arr.length_slice, hnonce])
  have hkeep : (incBe (UInt32.ofNat n) M 12).slice 0 12 = M.slice 0 12 :=
    Arr.slice_blit_of_disjoint _ _ _ _ _ (.inl (Nat.le_refl 12))
  rw [hsplit, hkeep, hfirst, incBe, brSwap32_getWord hlast, ← UInt32.ofNat_add, slice_putWord]

/-! ## Block by block -/

section

variable {A : Ffs} {keyBytes : Nat} {E : BlockFunction 16} {key : List UInt8}

/-- Two blocks at a time, and an odd one with anything, are all the blocks. -/
theorem ecb_eq (hA : A.Computes keyBytes E) (hkey : key.length = keyBytes) (inp buf1 : Arr UInt8)
    (nblocks o i : Nat) (out : Arr UInt8) :
    ecb A (A.keyschedule key) inp buf1 nblocks o i out
      = out.blit o
        ((List.range nblocks).flatMap fun b => (E key (inp.slice (i + 16 * b) 16)).toList) := by
  induction nblocks using Nat.twoStepInduction generalizing o i out with
  | zero => rfl
  | one =>
      rw [ecb, hA key _ _ hkey (Arr.length_slice ..) (Arr.length_slice ..)]
      simp
  | more nblocks ih _ =>
      -- the two blocks of a round, and those behind them
      have hsplit : (List.range (nblocks + 2)).flatMap
            (fun b => (E key (inp.slice (i + 16 * b) 16)).toList)
          = (E key (inp.slice i 16)).toList ++ ((E key (inp.slice (i + 16) 16)).toList
            ++ (List.range nblocks).flatMap fun b =>
              (E key (inp.slice (i + 32 + 16 * b) 16)).toList) := by
        rw [List.range_succ_eq_map, List.flatMap_cons, List.flatMap_map, List.range_succ_eq_map,
          List.flatMap_cons, List.flatMap_map]
        refine congrArg _ (congrArg _ (List.flatMap_congr fun b _ => ?_))
        rw [show i + 16 * (b + 1 + 1) = i + 32 + 16 * b by omega]
      rw [ecb, hA key _ _ hkey (Arr.length_slice ..) (Arr.length_slice ..)]
      dsimp only
      rw [ih, hsplit, Arr.blit_append, Arr.blit_append, Vector.length_toList, Vector.length_toList]

/-- The stream in counter mode: the blocks of counters 0, 1, … behind a nonce. -/
def ctrStream (E : BlockFunction 16) (key nonce : List UInt8) (k : Nat) : UInt8 :=
  (E key (nonce ++ counterBytes 4 (k / 16))).toList.getD (k % 16) 0

theorem slice_ctrStream (nonce : List UInt8) (c : Nat) {n : Nat} (hn : n ≤ 16) :
    streamSlice (ctrStream E key nonce) (16 * c) n
      = (E key (nonce ++ counterBytes 4 c)).toList.take n := by
  have hlen : (E key (nonce ++ counterBytes 4 c)).toList.length = 16 := Vector.length_toList
  apply List.ext_getElem (by rw [length_streamSlice, List.length_take, hlen, Nat.min_eq_left hn])
  intro j hj _
  rw [length_streamSlice] at hj
  have hdiv : (16 * c + j) / 16 = c := by omega
  have hmod : (16 * c + j) % 16 = j := by omega
  simp only [streamSlice, List.getElem_map, List.getElem_range, List.getElem_take]
  rw [ctrStream, hdiv, hmod, List.getD_eq_getElem _ _ (by rw [hlen]; omega)]

theorem slice_ctrStream_block (nonce : List UInt8) (c : Nat) :
    streamSlice (ctrStream E key nonce) (16 * c) 16 = (E key (nonce ++ counterBytes 4 c)).toList := by
  rw [slice_ctrStream nonce c (Nat.le_refl 16), List.take_of_length_le (Vector.length_toList).le]

/-- The copying loop copies the first bytes. -/
theorem copyOut_eq (out : Arr UInt8) (pos : Nat) {outlen : Nat} {l : List UInt8}
    (h : outlen ≤ l.length) :
    copyOut out pos outlen ⟨l⟩ = out.blit pos (l.take outlen) := by
  induction outlen with
  | zero => rfl
  | succ n ih =>
      have hn : n < l.length := h
      rw [copyOut, forUp_succ (Nat.zero_le n), ← copyOut, ih (Nat.le_of_lt hn),
        List.take_succ_eq_append_getElem hn, Arr.blit_append, List.length_take,
        Nat.min_eq_left hn.le, Arr.get_mk, List.getD_eq_getElem _ _ hn]
      rfl

/-- Behind the loop at most two blocks are left. -/
theorem ctrLast_eq (hA : A.Computes keyBytes E) (hkey : key.length = keyBytes) {nonce : List UInt8}
    (hnonce : nonce.length = 12) {s : CtrVars} {c : Nat} (hlen : s.outlen ≤ 32)
    (hpos : s.pos = 16 * c)
    (h₁ : s.ivw1.slice 0 16 = nonce ++ counterBytes 4 c)
    (h₂ : s.ivw2.slice 0 16 = nonce ++ counterBytes 4 (c + 1)) :
    ctrLast A (A.keyschedule key) s
      = s.out.blit s.pos (streamSlice (ctrStream E key nonce) s.pos s.outlen) := by
  have hE := hA key (nonce ++ counterBytes 4 c) (nonce ++ counterBytes 4 (c + 1)) hkey
    (by simp [hnonce]) (by simp [hnonce])
  have hblock : ∀ c, (E key (nonce ++ counterBytes 4 c)).toList.length = 16 :=
    fun c => Vector.length_toList
  rw [ctrLast, h₁, h₂, hE, hpos]
  dsimp only
  split
  · next hle =>
      -- a block, and the beginning of the second one
      obtain ⟨n, hn⟩ : ∃ n, s.outlen = 16 + n := ⟨s.outlen - 16, by omega⟩
      rw [hn, Nat.add_sub_cancel_left, copyOut_eq _ _ (by rw [hblock]; omega), streamSlice_add,
        slice_ctrStream_block, Arr.blit_append, hblock, ← slice_ctrStream nonce (c + 1) (by omega)]
      rfl
  · next hlt =>
      split
      · rw [copyOut_eq _ _ (by rw [hblock]; omega), slice_ctrStream nonce c (by omega)]
      · next hzero =>
          rw [show s.outlen = 0 by omega]
          rfl

/-- A round of the loop writes the next two blocks. -/
theorem ctrRound_returns {ε : Type} (hA : A.Computes keyBytes E) (hkey : key.length = keyBytes)
    {nonce : List UInt8} (hnonce : nonce.length = 12) {s : CtrVars} {c : Nat}
    (hlen : s.outlen > 2 * 16) (hpos : s.pos = 16 * c)
    (h₁ : s.ivw1.slice 0 16 = nonce ++ counterBytes 4 c)
    (h₂ : s.ivw2.slice 0 16 = nonce ++ counterBytes 4 (c + 1)) :
    (ctrRound A (A.keyschedule key) s : Run ε _).Returns (.inl
      ⟨s.out.blit s.pos (streamSlice (ctrStream E key nonce) s.pos (16 + 16)), s.pos + 32,
        s.outlen - 32, inc2Be s.ivw1 12, inc2Be s.ivw2 12⟩) := by
  have hE := hA key (nonce ++ counterBytes 4 c) (nonce ++ counterBytes 4 (c + 1)) hkey
    (by simp [hnonce]) (by simp [hnonce])
  have hnext : 16 * c + 16 = 16 * (c + 1) := rfl
  rw [ctrRound, if_pos hlen, h₁, h₂, hE, Run.returns_pure, hpos, streamSlice_add,
    slice_ctrStream_block, hnext, slice_ctrStream_block, Arr.blit_append, Vector.length_toList]
  rfl

/-- The loop, with what comes behind it. -/
theorem ctrLoop_returns {ε : Type} (hA : A.Computes keyBytes E) (hkey : key.length = keyBytes)
    {nonce : List UInt8} (hnonce : nonce.length = 12) {s : CtrVars} {c : Nat} (hpos : s.pos = 16 * c)
    (h₁ : s.ivw1.slice 0 16 = nonce ++ counterBytes 4 c)
    (h₂ : s.ivw2.slice 0 16 = nonce ++ counterBytes 4 (c + 1)) :
    ∃ s', (Run.loop (ctrRound A (A.keyschedule key) (ε := ε)) s).Returns s' ∧
      ctrLast A (A.keyschedule key) s'
        = s.out.blit s.pos (streamSlice (ctrStream E key nonce) s.pos s.outlen) := by
  induction hm : s.outlen using Nat.strong_induction_on generalizing s c with
  | _ m ih =>
      subst hm
      by_cases hlen : s.outlen > 2 * 16
      · have hround := @ctrRound_returns A keyBytes E key ε hA hkey nonce hnonce s c hlen hpos h₁ h₂
        obtain ⟨s', hloop, hlast⟩ := @ih (s.outlen - 32) (by omega)
          ⟨s.out.blit s.pos (streamSlice (ctrStream E key nonce) s.pos (16 + 16)), s.pos + 32,
            s.outlen - 32, inc2Be s.ivw1 12, inc2Be s.ivw2 12⟩ (c + 2) (by dsimp only; omega)
          (slice_incBe hnonce h₁ 2) (slice_incBe hnonce h₂ 2) rfl
        refine ⟨s', Run.returns_loop_continue hround hloop, hlast.trans ?_⟩
        obtain ⟨n, hn⟩ : ∃ n, s.outlen = 16 + 16 + n := ⟨s.outlen - 32, by omega⟩
        have hsub : s.outlen - 32 = n := by omega
        dsimp only
        rw [hsub, hn, streamSlice_add _ _ (16 + 16) n, Arr.blit_append, length_streamSlice]
      · refine ⟨s, Run.returns_loop_break ?_, ctrLast_eq hA hkey hnonce (by omega) hpos h₁ h₂⟩
        rw [ctrRound, if_neg hlen]
        exact Run.returns_pure.mpr rfl

/-- For every length, the bytes of the stream and nothing beyond them. -/
theorem ctr_returns {ε : Type} (hA : A.Computes keyBytes E) (hkey : key.length = keyBytes)
    (out : Arr UInt8) (outlen : Nat) (iv : Arr UInt8) :
    (ctr A (A.keyschedule key) out outlen iv : Run ε _).Returns
      (out.blit 0 (streamSlice (ctrStream E key (iv.slice 0 12)) 0 outlen)) := by
  have hnonce : (iv.slice 0 12).length = 12 := Arr.length_slice ..
  have hiv : ((Arr.replicate 16 0).blit 0 (iv.slice 0 12)).slice 0 16
      = iv.slice 0 12 ++ counterBytes 4 0 := by
    have hblit := Arr.slice_blit (Arr.replicate 16 0) 0 (iv.slice 0 12)
    rw [hnonce] at hblit
    rw [Arr.slice_add _ 0 12 4, hblit,
      Arr.slice_blit_of_disjoint _ _ _ _ _ (.inr (by rw [hnonce])), counterBytes_zero]
    rfl
  obtain ⟨s', hloop, hlast⟩ := ctrLoop_returns (ε := ε) hA hkey hnonce
    (s := ⟨out, 0, outlen, (Arr.replicate 16 0).blit 0 (iv.slice 0 12),
      inc1Be ((Arr.replicate 16 0).blit 0 (iv.slice 0 12)) 12⟩) (c := 0) rfl hiv
    (slice_incBe hnonce hiv 1)
  exact Run.returns_bind.mpr ⟨s', hloop, Run.returns_pure.mpr hlast.symm⟩

/-- What is read from the seed expander piece by piece is what one call of
    `aes256_ctr` writes. -/
theorem aes256Ctr_expander {ε : Type} (hA : A.Computes 32 E) (ctx : AesXof)
    (seed diversifier iv : Arr UInt8) {maxlen : Nat} (hmax : maxlen < 2 ^ 32)
    (hiv : iv.slice 0 12 = diversifier.slice 0 8 ++ counterBytes 4 maxlen)
    (rs : List (Arr UInt8 × Nat)) (hsum : (rs.map Prod.snd).sum < maxlen) (out : Arr UInt8) :
    ∃ pieces : List (List UInt8),
      (seedexpanderCalls E (rs.map fun r => ⟨some r.1, r.2⟩)
        (seedexpanderInit ctx seed diversifier maxlen).2 : Run ε _).Returns
          (pieces.map fun l => (rngSuccess, some l)) ∧
      (aes256Ctr A out (rs.map Prod.snd).sum iv (aes256CtrKeyexp A seed) : Run ε _).Returns
        (out.blit 0 pieces.flatten) := by
  have hcalls := @initCalls_returns ε E ctx seed diversifier maxlen hmax
    (rs.map fun r => ⟨some r.1, r.2⟩)
  obtain ⟨pieces, hanswers, hflat⟩ := streamAnswers_pieces
    (expanderStream E seed diversifier maxlen) rs ((Nat.zero_add _).trans_lt hsum)
  have hstream : expanderStream E seed diversifier maxlen
      = ctrStream E (seed.slice 0 32) (iv.slice 0 12) := by
    funext k
    rw [expanderStream, ctrStream, hiv]
  have hctr := @ctr_returns A 32 E (seed.slice 0 32) ε hA (Arr.length_slice ..) out
    (rs.map Prod.snd).sum iv
  rw [hanswers] at hcalls
  rw [← hstream, ← hflat] at hctr
  exact ⟨pieces, hcalls, hctr⟩

end

/-! ## A small cipher -/

/-- Add the key. -/
def toyCipher : BlockFunction 16 := fun key p =>
  Vector.ofFn fun j : Fin 16 => p.getD j 0 + key.getD j 0

def toyFfs : Ffs where
  keyschedule key := key.map UInt8.toUInt32
  encrypt skExp p p' :=
    (Vector.ofFn fun j : Fin 16 => p.getD j 0 + (skExp.getD j 0).toUInt8,
      Vector.ofFn fun j : Fin 16 => p'.getD j 0 + (skExp.getD j 0).toUInt8)

theorem toyFfs_computes (keyBytes : Nat) : toyFfs.Computes keyBytes toyCipher := by
  intro key p p' _ _ _
  have hkey : ∀ j : Nat, ((key.map UInt8.toUInt32).getD j 0).toUInt8 = key.getD j 0 := fun j => by
    simp only [List.getD_eq_getElem?_getD, List.getElem?_map]
    cases key[j]? <;> simp
  simp only [toyFfs, toyCipher, hkey]

/-- 35 bytes in two pieces. -/
theorem aes256Ctr_expander_pieces : ∃ pieces : List (List UInt8),
    (seedexpanderCalls toyCipher [⟨some Arr.empty, 5⟩, ⟨some Arr.empty, 30⟩]
      (seedexpanderInit ⟨Arr.empty, 0, 0, Arr.empty, Arr.empty⟩ Arr.empty
        ⟨[1, 2, 3, 4, 5, 6, 7, 8]⟩ 40).2 : Run DrbgFault _).Returns (pieces.map fun l => (rngSuccess, some l)) ∧
    (aes256Ctr toyFfs Arr.empty 35 ⟨[1, 2, 3, 4, 5, 6, 7, 8, 0, 0, 0, 40]⟩
      (aes256CtrKeyexp toyFfs Arr.empty) : Run DrbgFault _).Returns
        (Arr.empty.blit 0 pieces.flatten) :=
  aes256Ctr_expander (toyFfs_computes 32) _ _ ⟨[1, 2, 3, 4, 5, 6, 7, 8]⟩
    ⟨[1, 2, 3, 4, 5, 6, 7, 8, 0, 0, 0, 40]⟩ (by decide) (by decide) [(Arr.empty, 5), (Arr.empty, 30)]
    (by decide) Arr.empty

end Meds.Ref.PqmAes
