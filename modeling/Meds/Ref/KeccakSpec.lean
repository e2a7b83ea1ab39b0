/-
  Meds.Ref.KeccakSpec

  ref/fips202.c computes the functions of the standard.

  A state of 25 words is a state of 1600 bits, and every step on bytes is the
  step on bits: padding in place is `pad10*1`, a block is xored as a string,
  and a byte of output is eight bits of the stream.

  The interface that the scheme works with takes SHAKE256 as a parameter.
  Every sequence of calls that the functions allow has the outputs of the
  interface at the SHAKE256 of the standard (`shake_calls`).
-/

import Meds.Core.KeccakString
import Meds.Ref.Fips202
import Meds.Ref.KeccakSponge

namespace Meds.Ref.Keccak

open Meds.Core

/-! ## Bits of the state -/

def stateBits (s : Words) : KeccakF.State := KeccakF.bits (lanesOf s)

theorem stateBits_apply (s : Words) (x y : Fin 5) (z : Fin 64) :
    stateBits s x y z = KeccakF.bit (s.getD (5 * y.val + x.val) 0) z := by
  have := x.isLt
  have := y.isLt
  rw [getD_eq s (show 5 * y.val + x.val < 25 by omega)]
  rfl

theorem stateBits_init : stateBits keccakInit = fun _ _ _ => false := by
  funext x y z
  have := x.isLt
  have := y.isLt
  rw [stateBits_apply, getD_eq _ (show 5 * y.val + x.val < 25 by omega), keccakInit,
    Vector.getElem_replicate, KeccakF.bit]
  simp

theorem stateBits_permute_iterate (s : Words) (n : Nat) :
    stateBits (keccakF1600StatePermute^[n] s) = KeccakF.keccakF^[n] (stateBits s) :=
  (show Function.Semiconj stateBits keccakF1600StatePermute KeccakF.keccakF from
    keccakF1600StatePermute_eq).iterate_right n s

section
variable {r : Nat} (hr : 0 < r)

/-- A block of bytes is xored as a string. -/
theorem stateBits_xorBytes (s : Words) (l : List UInt8) :
    stateBits ((sponge r hr).xorBytes s 0 l) = KeccakF.xorString (stateBits s) (KeccakF.bitsOf l) := by
  funext x y z
  have := x.isLt
  have := y.isLt
  have := z.isLt
  rw [stateBits_apply, bit_xorBytes hr s 0 l (show 5 * y.val + x.val < 25 by omega), KeccakF.xorString,
    stateBits_apply, KeccakF.getD_bitsOf, bitAt, decide_eq_true (Nat.zero_le _), Bool.true_and,
    Nat.sub_zero,
    show (64 * (5 * y.val + x.val) + z.val) / 8 = 8 * (5 * y.val + x.val) + z.val / 8 by omega,
    show (64 * (5 * y.val + x.val) + z.val) % 8 = z.val % 8 by omega]

theorem stateBits_absorbBlocks (s : Words) (bs : List (List UInt8)) :
    stateBits ((sponge r hr).absorbBlocks s bs)
      = KeccakF.absorbString (stateBits s) (bs.map KeccakF.bitsOf) := by
  induction bs generalizing s with
  | nil => rfl
  | cons b bs ih =>
      have hblock : stateBits (keccakF1600StatePermute ((sponge r hr).xorBytes s 0 b))
          = KeccakF.keccakF (KeccakF.xorString (stateBits s) (KeccakF.bitsOf b)) := by
        rw [← stateBits_xorBytes hr]
        exact keccakF1600StatePermute_eq _
      rw [Sponge.absorbBlocks, List.foldl_cons, List.map_cons, KeccakF.absorbString, List.foldl_cons,
        ← hblock]
      exact ih _

end

/-- A byte of the state is eight bits of the string. -/
theorem testBit_byteAt (s : Words) {i j : Nat} (hi : i < 200) (hj : j < 8) :
    (byteAt s i).toNat.testBit j = KeccakF.stringBit (stateBits s) (8 * i + j) := by
  rw [byteAt, testBit_shiftWord _ (Nat.mod_lt _ (by decide)) hj, KeccakF.stringBit, stateBits_apply]
  simp only [Fin.val_ofNat]
  rw [show 5 * ((8 * i + j) / 320 % 5) + (8 * i + j) / 64 % 5 = i / 8 by omega]
  congr 1
  apply Fin.ext
  simp only [Fin.val_ofNat]
  omega

/-! ## Padding -/

/-- The byte `p` appends the bits `d` and the first bit of the padding. -/
structure IsSuffix (p : UInt8) (d : List Bool) : Prop where
  bits : KeccakF.bitsOf [p] = d ++ true :: List.replicate (7 - d.length) false
  last : KeccakF.bitsOf [p ^^^ 0x80] = d ++ true :: (List.replicate (6 - d.length) false ++ [true])
  length_le : d.length ≤ 6

theorem isSuffix_shake : IsSuffix 0x1F [true, true, true, true] := by
  constructor <;> decide

theorem isSuffix_sha3 : IsSuffix 0x06 [false, true] := by
  constructor <;> decide

/-- The number of zeros of `pad10*1`. -/
theorem pad101_zeros {r n e : Nat} (hr : 0 < r) (he : e ≤ 6) :
    ((-((8 * n + e : Nat) : Int) - 2) % ((8 * r : Nat) : Int)).toNat = 8 * (r - 1 - n % r) + (6 - e) := by
  have hlt := Nat.mod_lt n hr
  have hdiv := Nat.div_add_mod n r
  have hval : (-((8 * n + e : Nat) : Int) - 2)
      = ((8 * (r - 1 - n % r) + (6 - e) : Nat) : Int) + ((8 * r : Nat) : Int) * (-(n / r + 1 : Nat) : Int) := by
    have h1 : (8 * r) * (n / r + 1) = 8 * (r * (n / r)) + 8 * r := by
      rw [Nat.mul_succ, Nat.mul_assoc]
    have h2 : ((8 * r : Nat) : Int) * (-(n / r + 1 : Nat) : Int)
        = -((8 * (r * (n / r)) + 8 * r : Nat) : Int) := by
      rw [Int.mul_neg, ← Int.natCast_mul, h1]
    rw [h2]
    omega
  rw [hval, Int.add_mul_emod_self_left, Int.emod_eq_of_lt (Int.natCast_nonneg _) (by omega),
    Int.toNat_natCast]

/-- Padding in place is `pad10*1`. -/
theorem bitsOf_pad {r : Nat} (hr : 0 < r) {p : UInt8} {d : List Bool} (hp : IsSuffix p d)
    (l : List UInt8) :
    KeccakF.bitsOf ((sponge r hr).pad p l)
      = (KeccakF.bitsOf l ++ d)
          ++ KeccakF.pad101 (8 * r) (KeccakF.bitsOf l ++ d).length := by
  have he := hp.length_le
  have hlt := Nat.mod_lt l.length hr
  rw [Sponge.pad, KeccakF.bitsOf_append, List.append_assoc, KeccakF.pad101, List.length_append,
    KeccakF.length_bitsOf, pad101_zeros hr he]
  congr 1
  change KeccakF.bitsOf (Sponge.padding r p l.length) = _
  rw [Sponge.padding]
  by_cases hlast : l.length % r + 1 = r
  · -- the suffix and the last bit share a byte
    rw [if_pos hlast, hp.last, show r - 1 - l.length % r = 0 by omega, Nat.mul_zero, Nat.zero_add]
  · have hz : 8 * (r - 1 - l.length % r) + (6 - d.length)
        = (7 - d.length) + (8 * (r - 2 - l.length % r) + 7) := by omega
    have h80 : KeccakF.bitsOf [0x80] = List.replicate 7 false ++ [true] := by decide
    rw [if_neg hlast, KeccakF.bitsOf_cons, hp.bits, KeccakF.bitsOf_append,
      KeccakF.bitsOf_replicate, h80, hz, List.replicate_add, List.replicate_add]
    simp only [List.append_assoc, List.cons_append]

/-! ## The output -/

/-- The stream of bytes that `fips202.c` gives for a message. -/
def outputStream (r : Nat) (hr : 0 < r) (p : UInt8) (inp : List UInt8) : Nat → UInt8 :=
  (sponge r hr).stream ((sponge r hr).finalize p ((sponge r hr).absorb (keccakInit, 0) inp))

theorem mul8_add_divMod {r k j : Nat} (hr : 0 < r) (hj : j < 8) :
    (8 * k + j) / (8 * r) = k / r ∧ (8 * k + j) % (8 * r) = 8 * (k % r) + j := by
  have hlt := Nat.mod_lt k hr
  have hk := Nat.div_add_mod k r
  refine (Nat.div_mod_unique (by omega)).mpr ⟨?_, by omega⟩
  rw [Nat.mul_assoc]
  omega

/-- Its bytes are those of KECCAK[c] for the capacity `c = 1600 - 8 r`. -/
theorem outputStream_eq {r : Nat} (hr : 0 < r) (hle : r ≤ 200) {p : UInt8} {d : List Bool}
    (hp : IsSuffix p d) (inp : List UInt8) :
    outputStream r hr p inp = KeccakF.byteOf (KeccakF.keccak (1600 - 8 * r) (KeccakF.bitsOf inp ++ d)) := by
  funext k
  apply byte_ext
  intro j hj
  obtain ⟨hdiv, hmod⟩ := mul8_add_divMod (k := k) hr hj
  have hlt := Nat.mod_lt k hr
  have hpad := (sponge r hr).length_pad_mod p inp
  have hflat := KeccakF.flatten_blocks hr hpad
  rw [KeccakF.testBit_byteOf _ _ hj, outputStream, (sponge r hr).stream_finalize keccakInit p inp hflat
    fun _ hb => KeccakF.length_of_mem_blocks hb]
  change (byteAt (keccakF1600StatePermute^[k / r] _) (k % r)).toNat.testBit j = _
  rw [testBit_byteAt _ (by omega) hj, stateBits_permute_iterate, stateBits_absorbBlocks,
    ← KeccakF.blocks_bitsOf hr hpad, bitsOf_pad hr hp, stateBits_init, KeccakF.keccak]
  simp only [show 1600 - (1600 - 8 * r) = 8 * r by omega, hdiv, hmod]

/-- The same, where input and output are given at once. -/
theorem bytes_eq_outputStream {r : Nat} (hr : 0 < r) (h8 : 8 ∣ r) (inp : List UInt8) (p : UInt8)
    (n : Nat) :
    ((sponge r hr).squeeze n (keccakAbsorbOnce r inp p, r)).1
      = (List.range n).map (outputStream r hr p inp) := by
  have h := (sponge r hr).squeeze_after (keccakAbsorbOnce r inp p) 0 n
  rw [BlockStream.after, if_pos rfl] at h
  rw [keccakAbsorbOnce_eq hr inp p h8] at h ⊢
  change ((sponge r hr).squeeze n (_, (sponge r hr).rate)).1 = _
  rw [h]
  exact List.map_congr_left fun i _ => by rw [Nat.zero_add]; rfl

theorem shake_eq {rate : Nat} (hr : 0 < rate) (h8 : 8 ∣ rate) (outlen : Nat) (inp : List UInt8) :
    shake rate outlen inp = (List.range outlen).map (outputStream rate hr 0x1F inp) := by
  obtain ⟨hout, hst⟩ := keccakSqueezeblocks_eq hr (outlen / rate) (keccakAbsorbOnce rate inp 0x1F) h8
  rw [← bytes_eq_outputStream hr h8]
  conv_rhs => rw [← Nat.add_sub_cancel' (Nat.div_mul_le_self outlen rate), BlockStream.squeeze_add, ← hst]
  simp only [shake, shakeAbsorbOnce, shakeSqueezeblocks, shakeSqueeze]
  rw [hout, keccakSqueeze_eq hr _ _ (Nat.le_refl rate)]

theorem sha3_eq {rate words : Nat} (hr : 0 < rate) (h8 : 8 ∣ rate) (hw : 8 * words ≤ rate)
    (inp : List UInt8) :
    sha3 rate words inp = (List.range (8 * words)).map (outputStream rate hr 0x06 inp) := by
  have hwithin : 0 + 8 * words ≤ (sponge rate hr).rate := by
    rw [Nat.zero_add]
    exact hw
  rw [← bytes_eq_outputStream hr h8, sha3, storeWords_eq hr]
  rcases Nat.eq_zero_or_pos words with rfl | hpos
  · rfl
  · have hturn := (sponge rate hr).squeeze_turn (n := 8 * words) (keccakAbsorbOnce rate inp 0x06)
      (by omega)
    change _ = ((sponge rate hr).squeeze (8 * words) (_, (sponge rate hr).rate)).1
    rw [hturn, (sponge rate hr).squeeze_within _ hwithin]
    rfl

theorem bitsOf_shake {rate : Nat} (hr : 0 < rate) (h8 : 8 ∣ rate) (hle : rate ≤ 200) (outlen : Nat)
    (inp : List UInt8) :
    KeccakF.bitsOf (shake rate outlen inp)
      = (List.range (8 * outlen)).map
          (KeccakF.keccak (1600 - 8 * rate) (KeccakF.bitsOf inp ++ [true, true, true, true])) := by
  rw [shake_eq hr h8, outputStream_eq hr hle isSuffix_shake, KeccakF.bitsOf_range_byteOf]

theorem bitsOf_sha3 {rate words : Nat} (hr : 0 < rate) (h8 : 8 ∣ rate) (hle : rate ≤ 200)
    (hw : 8 * words ≤ rate) (inp : List UInt8) :
    KeccakF.bitsOf (sha3 rate words inp)
      = (List.range (8 * (8 * words))).map
          (KeccakF.keccak (1600 - 8 * rate) (KeccakF.bitsOf inp ++ [false, true])) := by
  rw [sha3_eq hr h8 hw, outputStream_eq hr hle isSuffix_sha3, KeccakF.bitsOf_range_byteOf]

/-- The four functions on whole messages, bit by bit. -/
theorem fips202_functions (inp : List UInt8) (outlen : Nat) :
    KeccakF.bitsOf (shake128 outlen inp)
        = (List.range (8 * outlen)).map (KeccakF.SHAKE128 (KeccakF.bitsOf inp)) ∧
      KeccakF.bitsOf (shake256 outlen inp)
        = (List.range (8 * outlen)).map (KeccakF.SHAKE256 (KeccakF.bitsOf inp)) ∧
      KeccakF.bitsOf (sha3_256 inp) = KeccakF.SHA3_256 (KeccakF.bitsOf inp) ∧
      KeccakF.bitsOf (sha3_512 inp) = KeccakF.SHA3_512 (KeccakF.bitsOf inp) :=
  ⟨@bitsOf_shake 168 (by decide) (by decide) (by decide) outlen inp,
    @bitsOf_shake 136 (by decide) (by decide) (by decide) outlen inp,
    @bitsOf_sha3 136 4 (by decide) (by decide) (by decide) (by decide) inp,
    @bitsOf_sha3 72 8 (by decide) (by decide) (by decide) (by decide) inp⟩

/-! ## The incremental functions -/

/-- A call of the incremental functions. -/
inductive Call where
  | init
  | absorb (inp : List UInt8)
  | finalize
  | absorbOnce (inp : List UInt8)
  | squeeze (outlen : Nat)
  | squeezeblocks (nblocks : Nat)

/-- What a call does to the state, and its output. -/
def Call.run (rate : Nat) : Call → State → List UInt8 × State
  | init, _ => ([], shakeInit)
  | absorb inp, state => ([], shakeAbsorb rate state inp)
  | finalize, state => ([], shakeFinalize rate state)
  | absorbOnce inp, _ => ([], shakeAbsorbOnce rate inp)
  | squeeze outlen, state => shakeSqueeze rate outlen state
  | squeezeblocks nblocks, state => shakeSqueezeblocks rate nblocks state

/-- The same call of the interface. -/
def Call.spec (SHAKE : Shake) (rate : Nat) : Call → KeccakState → List UInt8 × KeccakState
  | init, _ => ([], Ref.shake256Init)
  | absorb inp, state => ([], Ref.shake256Absorb state inp)
  | finalize, state => ([], Ref.shake256Finalize state)
  | absorbOnce inp, _ => ([], Ref.shake256AbsorbOnce inp)
  | squeeze outlen, state => Ref.shake256Squeeze SHAKE outlen state
  | squeezeblocks nblocks, state => Ref.shake256Squeeze SHAKE (nblocks * rate) state

/-- What a state has been used for. -/
inductive Phase where
  | fresh
  | absorbing
  | squeezing (pos : Nat)

/-- The phase after a call.  Input ends with `finalize`, output begins with
    it, and `squeezeblocks` wants a block that is not begun. -/
def Call.next (rate : Nat) : Phase → Call → Option Phase
  | _, init => some .absorbing
  | _, absorbOnce _ => some (.squeezing 0)
  | .absorbing, absorb _ => some .absorbing
  | .absorbing, finalize => some (.squeezing 0)
  | .squeezing pos, squeeze outlen => some (.squeezing (pos + outlen))
  | .squeezing pos, squeezeblocks nblocks =>
    if pos % rate = 0 then some (.squeezing (pos + nblocks * rate)) else none
  | _, _ => none

/-- The outputs of a sequence of calls. -/
def outputs {σ : Type} (run : Call → σ → List UInt8 × σ) : List Call → σ → List (List UInt8)
  | [], _ => []
  | c :: calls, state => (run c state).1 :: outputs run calls (run c state).2

/-- The SHAKE that `fips202.c` computes for a rate in bytes. -/
def shakeOf (rate : Nat) : Shake := fun inp =>
  KeccakF.byteOf (KeccakF.keccak (1600 - 8 * rate) (KeccakF.bitsOf inp ++ [true, true, true, true]))

/-- The state of `fips202.c` stands for a state of the interface. -/
def Stands (rate : Nat) (hr : 0 < rate) : Phase → State → KeccakState → Prop
  | .fresh, _, _ => True
  | .absorbing, state, k => (sponge rate hr).absorb (keccakInit, 0) k.absorbed = (state.s, state.pos)
  | .squeezing pos, state, k => k.pos = pos ∧
      (sponge rate hr).after ((sponge rate hr).finalize 0x1F
        ((sponge rate hr).absorb (keccakInit, 0) k.absorbed)) pos = (state.s, state.pos)

section
variable {rate : Nat} (hr : 0 < rate)

theorem stands_absorb {state : State} {k : KeccakState} (h : Stands rate hr .absorbing state k)
    (inp : List UInt8) :
    Stands rate hr .absorbing (shakeAbsorb rate state inp) (Ref.shake256Absorb k inp) := by
  have hpos : state.pos < rate := by
    have := (sponge rate hr).absorb_pos_lt (s := (keccakInit, 0)) hr k.absorbed
    rwa [show (sponge rate hr).absorb (keccakInit, 0) k.absorbed = _ from h] at this
  change (sponge rate hr).absorb _ (k.absorbed ++ inp) = _
  rw [Sponge.absorb_append, show (sponge rate hr).absorb (keccakInit, 0) k.absorbed = _ from h,
    ← keccakAbsorb_eq hr _ hpos]
  rfl

theorem stands_finalize (h8 : 8 ∣ rate) {state : State} {k : KeccakState} (h : Stands rate hr .absorbing state k) :
    Stands rate hr (.squeezing 0) (shakeFinalize rate state) (Ref.shake256Finalize k) := by
  refine ⟨rfl, ?_⟩
  change (sponge rate hr).after ((sponge rate hr).finalize 0x1F
    ((sponge rate hr).absorb (keccakInit, 0) k.absorbed)) 0 = _
  rw [show (sponge rate hr).absorb (keccakInit, 0) k.absorbed = _ from h, ← keccakFinalize_eq hr _ _ _ h8,
    BlockStream.after, if_pos rfl]
  rfl

theorem stands_absorbOnce (h8 : 8 ∣ rate) (inp : List UInt8) :
    Stands rate hr (.squeezing 0) (shakeAbsorbOnce rate inp) (Ref.shake256AbsorbOnce inp) := by
  refine ⟨rfl, ?_⟩
  change (sponge rate hr).after ((sponge rate hr).finalize 0x1F
    ((sponge rate hr).absorb (keccakInit, 0) inp)) 0 = _
  rw [← keccakAbsorbOnce_eq hr _ _ h8, BlockStream.after, if_pos rfl]
  rfl

/-- Squeezing `n` bytes in a state that stands for `k`, with any function that
    squeezes the sponge. -/
theorem stands_squeeze (hle : rate ≤ 200) {pos n : Nat} {state : State} {k : KeccakState}
    (h : Stands rate hr (.squeezing pos) state k) :
    ((sponge rate hr).squeeze n (state.s, state.pos)).1
        = (Ref.shake256Squeeze (shakeOf rate) n k).1 ∧
      Stands rate hr (.squeezing (pos + n))
        ⟨((sponge rate hr).squeeze n (state.s, state.pos)).2.1,
          ((sponge rate hr).squeeze n (state.s, state.pos)).2.2⟩
        (Ref.shake256Squeeze (shakeOf rate) n k).2 := by
  obtain ⟨rfl, hst⟩ := h
  rw [← hst, BlockStream.squeeze_after]
  refine ⟨?_, rfl, rfl⟩
  change (List.range n).map (fun i => outputStream rate hr 0x1F k.absorbed (k.pos + i)) = _
  rw [outputStream_eq hr hle isSuffix_shake]
  rfl

/-- One call. -/
theorem stands_step (h8 : 8 ∣ rate) (hle : rate ≤ 200) {phase phase' : Phase} {c : Call}
    (hc : c.next rate phase = some phase') {state : State} {k : KeccakState} (h : Stands rate hr phase state k) :
    (c.run rate state).1 = (c.spec (shakeOf rate) rate k).1 ∧
      Stands rate hr phase' (c.run rate state).2 (c.spec (shakeOf rate) rate k).2 := by
  cases c with
  | init =>
      obtain rfl : Phase.absorbing = phase' := Option.some.inj hc
      exact ⟨rfl, rfl⟩
  | absorbOnce inp =>
      obtain rfl : Phase.squeezing 0 = phase' := Option.some.inj hc
      exact ⟨rfl, stands_absorbOnce hr h8 inp⟩
  | absorb inp =>
      cases phase with
      | absorbing =>
          obtain rfl : Phase.absorbing = phase' := Option.some.inj hc
          exact ⟨rfl, stands_absorb hr h inp⟩
      | fresh => cases hc
      | squeezing pos => cases hc
  | finalize =>
      cases phase with
      | absorbing =>
          obtain rfl : Phase.squeezing 0 = phase' := Option.some.inj hc
          exact ⟨rfl, stands_finalize hr h8 h⟩
      | fresh => cases hc
      | squeezing pos => cases hc
  | squeeze outlen =>
      cases phase with
      | squeezing pos =>
          obtain rfl : Phase.squeezing (pos + outlen) = phase' := Option.some.inj hc
          have hpos : state.pos ≤ rate := by
            have := (sponge rate hr).after_pos_le ((sponge rate hr).finalize 0x1F
              ((sponge rate hr).absorb (keccakInit, 0) k.absorbed)) pos
            rwa [h.2] at this
          simp only [Call.run, shakeSqueeze, keccakSqueeze_eq hr _ _ hpos]
          exact stands_squeeze hr hle h
      | fresh => cases hc
      | absorbing => cases hc
  | squeezeblocks nblocks =>
      cases phase with
      | squeezing pos =>
          simp only [Call.next] at hc
          split at hc
          · rename_i hmod
            obtain rfl : Phase.squeezing (pos + nblocks * rate) = phase' := Option.some.inj hc
            -- no block is begun, so `pos` stands at the end of the last one
            have hpos : state.pos = rate := by
              have := (sponge rate hr).after_pos_full ((sponge rate hr).finalize 0x1F
                ((sponge rate hr).absorb (keccakInit, 0) k.absorbed)) hmod
              rwa [h.2] at this
            obtain ⟨hout, hst⟩ := keccakSqueezeblocks_eq hr nblocks state.s h8
            have hsq := stands_squeeze (n := nblocks * rate) hr hle h
            rw [hpos, ← hout, ← hst] at hsq
            refine ⟨hsq.1, ?_⟩
            have : (Call.squeezeblocks nblocks).run rate state
                = ((keccakSqueezeblocks nblocks state.s rate).1,
                    ⟨(keccakSqueezeblocks nblocks state.s rate).2, rate⟩) := by
              simp only [Call.run, shakeSqueezeblocks, hpos]
            rw [this]
            exact hsq.2
          · cases hc
      | fresh => cases hc
      | absorbing => cases hc

/-- Every allowed sequence of calls, from any memory, has the outputs of the
    interface. -/
theorem shake_calls {rate : Nat} (hr : 0 < rate) (h8 : 8 ∣ rate) (hle : rate ≤ 200)
    {calls : List Call} (hc : (calls.foldlM (Call.next rate) .fresh).isSome) (state : State)
    (k : KeccakState) :
    outputs (Call.run rate) calls state = outputs (Call.spec (shakeOf rate) rate) calls k := by
  have hrun : ∀ (phase : Phase) (calls : List Call), (calls.foldlM (Call.next rate) phase).isSome →
      ∀ state k, Stands rate hr phase state k →
        outputs (Call.run rate) calls state = outputs (Call.spec (shakeOf rate) rate) calls k := by
    intro phase calls
    induction calls generalizing phase with
    | nil => intro _ _ _ _; rfl
    | cons c calls ih =>
        intro hc state k h
        rw [List.foldlM_cons] at hc
        obtain ⟨phase', hnext⟩ : ∃ phase', c.next rate phase = some phase' := by
          cases hn : c.next rate phase with
          | none =>
              rw [hn] at hc
              cases hc
          | some phase' => exact ⟨phase', rfl⟩
        rw [hnext] at hc
        obtain ⟨hout, hst⟩ := stands_step hr h8 hle hnext h
        rw [outputs, outputs, hout, ih phase' hc _ _ hst]
  exact hrun .fresh calls hc state k trivial

end

/-- A message in two pieces, a block of output and a few bytes more. -/
theorem shake_calls_pieces :
    ([Call.init, .absorb [1], .absorb [2, 3], .finalize, .squeezeblocks 1, .squeeze 5].foldlM
        (Call.next 136) .fresh).isSome ∧
      outputs (Call.run 136)
          [Call.init, .absorb [1], .absorb [2, 3], .finalize, .squeezeblocks 1, .squeeze 5]
          ⟨keccakInit, 0⟩
        = outputs (Call.spec (shakeOf 136) 136)
            [Call.init, .absorb [1], .absorb [2, 3], .finalize, .squeezeblocks 1, .squeeze 5]
            ⟨[], 0⟩ :=
  ⟨by decide,
    shake_calls (by decide) (by decide) (by decide) (by decide) ⟨keccakInit, 0⟩ ⟨[], 0⟩⟩

end Meds.Ref.Keccak
