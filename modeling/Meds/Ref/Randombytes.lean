/-
  Meds.Ref.Randombytes

  The generator of ref/randombytes.c.

  `AES256` is the block function of `AES256_ECB`.  Key, V and the buffer of
  the caller are arrays written in place.  The offset into the buffer and the
  reseed counter are of type `int`, the length of a request is an
  `unsigned long long`.  `randombytes` returns exactly when neither `int`
  overflows, and then it has answered as the generator in counter mode does.
-/

import Meds.Core.CtrDrbg
import Meds.Ref.MatrixMulShapes

namespace Meds.Ref

open Meds.Core

/-- `AES256_CTR_DRBG_struct`. -/
structure DrbgCtx where
  key : Arr UInt8
  v : Arr UInt8
  reseedCounter : Nat
deriving DecidableEq, Repr

inductive DrbgFault where
  | intOverflow
deriving DecidableEq, Repr

def rngSuccess : Int := 0

section

variable (AES256 : BlockFunction 16)

/-- `AES256_ECB`: the 16 bytes of `buffer`. -/
def aes256Ecb (key ctr : Arr UInt8) : List UInt8 :=
  (AES256 (key.slice 0 32) (ctr.slice 0 16)).toList

/-- `for (int j=15; j>=0; j--)` of "increment V": `n` bytes are left to look at. -/
def incrementV : Nat → Arr UInt8 → Arr UInt8
  | 0, v => v
  | j + 1, v => if v.get j = 0xff then incrementV j (v.set j 0x00) else v.set j (v.get j + 1)

/-- `for (int i=0; i<48; i++) temp[i] ^= data[i]`. -/
def xorData (temp data : Arr UInt8) : Arr UInt8 :=
  forUp 0 48 (fun i temp => temp.set i (temp.get i ^^^ data.get i)) temp

/-- One block of `AES256_CTR_DRBG_Update`: `temp` and V. -/
def updateRound (key : Arr UInt8) (i : Nat) (s : Arr UInt8 × Arr UInt8) : Arr UInt8 × Arr UInt8 :=
  let v := incrementV 16 s.2
  (s.1.blit (16 * i) (aes256Ecb AES256 key v), v)

/-- `AES256_CTR_DRBG_Update`: Key and V as it leaves them. -/
def aes256CtrDrbgUpdate (providedData : Option (Arr UInt8)) (key v : Arr UInt8) :
    Arr UInt8 × Arr UInt8 :=
  let s := forUp 0 3 (updateRound AES256 key) (Arr.empty, v)
  let temp := match providedData with
    | some data => xorData s.1 data
    | none => s.1
  (key.blit 0 (temp.slice 0 32), s.2.blit 0 (temp.slice 32 16))

/-- `randombytes_init`. -/
def randombytesInit (entropyInput : Arr UInt8) (personalizationString : Option (Arr UInt8))
    (_securityStrength : Int) (ctx : DrbgCtx) : DrbgCtx :=
  let seedMaterial := Arr.empty.blit 0 (entropyInput.slice 0 48)
  let seedMaterial := match personalizationString with
    | some s => xorData seedMaterial s
    | none => seedMaterial
  let key := ctx.key.blit 0 (List.replicate 32 0x00)
  let v := ctx.v.blit 0 (List.replicate 16 0x00)
  let s := aes256CtrDrbgUpdate AES256 (some seedMaterial) key v
  ⟨s.1, s.2, 1⟩

/-- The variables of the loop of `randombytes`. -/
structure RandombytesLoop where
  x : Arr UInt8
  xlen : Nat
  i : Nat
  v : Arr UInt8

/-- One block of `randombytes`. -/
def randombytesRound (key : Arr UInt8) (s : RandombytesLoop) :
    Run DrbgFault (RandombytesLoop ⊕ RandombytesLoop) :=
  if s.xlen > 0 then
    let v := incrementV 16 s.v
    let block := aes256Ecb AES256 key v
    if s.xlen > 15 then
      if s.i + 16 ≤ intMax then pure (.inl ⟨s.x.blit s.i block, s.xlen - 16, s.i + 16, v⟩)
      else Run.fail .intOverflow
    else pure (.inl ⟨s.x.blit s.i (block.take s.xlen), 0, s.i, v⟩)
  else pure (.inr s)

/-- `randombytes`: what it returns, the buffer and the state of the generator. -/
def randombytes (x : Arr UInt8) (xlen : UInt64) (ctx : DrbgCtx) :
    Run DrbgFault (Int × Arr UInt8 × DrbgCtx) := do
  let s ← Run.loop (randombytesRound AES256 ctx.key) ⟨x, xlen.toNat, 0, ctx.v⟩
  let u := aes256CtrDrbgUpdate AES256 none ctx.key s.v
  if ctx.reseedCounter + 1 ≤ intMax then
    pure (rngSuccess, s.x, ⟨u.1, u.2, ctx.reseedCounter + 1⟩)
  else Run.fail .intOverflow

/-- What is seen after a call: the bytes returned, Key, V and the reseed counter. -/
structure DrbgView where
  bytes : List UInt8
  key : List Nat
  v : List Nat
  reseedCounter : Nat
deriving DecidableEq, Repr

def DrbgCtx.view (ctx : DrbgCtx) (bytes : List UInt8) : DrbgView where
  bytes := bytes
  key := (ctx.key.slice 0 32).map UInt8.toNat
  v := (ctx.v.slice 0 16).map UInt8.toNat
  reseedCounter := ctx.reseedCounter

/-- The arguments of a call of `randombytes`. -/
structure Request where
  x : Arr UInt8
  xlen : UInt64

/-- Calls of `randombytes` one after the other. -/
def randombytesCalls : List Request → DrbgCtx → Run DrbgFault (List DrbgView)
  | [], _ => pure []
  | r :: rs, ctx => do
      let (_, x, ctx) ← randombytes AES256 r.x r.xlen ctx
      let later ← randombytesCalls rs ctx
      pure (ctx.view (x.slice 0 r.xlen.toNat) :: later)

/-- `randombytes_init` without personalization string, then the calls. -/
def drbgSession (entropyInput : Arr UInt8) (rs : List Request) (ctx : DrbgCtx) :
    Run DrbgFault (List DrbgView) := do
  let ctx := randombytesInit AES256 entropyInput none 256 ctx
  let later ← randombytesCalls AES256 rs ctx
  pure (ctx.view [] :: later)

end

/-! ## Key and V -/

/-- Counting in the array counts in the bytes it holds. -/
theorem slice_incrementV {n len : Nat} (h : n ≤ len) (v : Arr UInt8) :
    (incrementV n v).slice 0 len = ripple n (v.slice 0 len) := by
  induction n generalizing v with
  | zero => rfl
  | succ n ih =>
      have hget : (v.slice 0 len).getD n 0 = v.get n := by
        have := Arr.getD_slice v 0 len n h
        rwa [Nat.zero_add] at this
      have hset : ∀ x, (v.set n x).slice 0 len = (v.slice 0 len).set n x := by
        intro x
        apply List.ext_getElem (by simp)
        intro i _ _
        rw [List.getElem_set, Arr.getElem_slice, Arr.getElem_slice, Nat.zero_add, Arr.get_set]
        simp only [eq_comm]
      rw [incrementV, ripple, hget, ← hset, ← hset]
      split
      · exact ih (by omega) _
      · rfl

theorem slice_incrementV_counter {v : Arr UInt8} {c : Nat} (h : v.slice 0 16 = counterBytes 16 c) :
    (incrementV 16 v).slice 0 16 = counterBytes 16 (c + 1) := by
  rw [slice_incrementV (Nat.le_refl 16), h, ripple_counterBytes]

/-- Every 16 bytes are those of a counter. -/
theorem slice_eq_counter (v : Arr UInt8) :
    v.slice 0 16 = counterBytes 16 (counterValue (v.slice 0 16)) :=
  (counterBytes_counterValue (Arr.length_slice _ _ _)).symm

theorem slice_xorData (temp data : Arr UInt8) :
    (xorData temp data).slice 0 48
      = List.zipWith (· ^^^ ·) (temp.slice 0 48) (data.slice 0 48) := by
  have key : ∀ j, (xorData temp data).get j
      = if j < 48 then temp.get j ^^^ data.get j else temp.get j := by
    refine forUp_invariant (fun n (t : Arr UInt8) => ∀ j, t.get j
      = if j < n then temp.get j ^^^ data.get j else temp.get j) (Nat.zero_le 48) ?_ fun j => ?_
    · intro i t _ _ ht j
      rw [Arr.get_set]
      by_cases hj : j = i
      · subst hj
        rw [if_pos rfl, if_pos (Nat.lt_succ_self _), ht, if_neg (Nat.lt_irrefl _)]
      · rw [if_neg hj, ht]
        exact if_congr (by omega) rfl rfl
    · rw [if_neg (Nat.not_lt_zero j)]
  apply List.ext_getElem (by simp)
  intro i h1 _
  rw [Arr.length_slice] at h1
  rw [List.getElem_zipWith, Arr.getElem_slice, Arr.getElem_slice, Arr.getElem_slice, key, Nat.zero_add,
    if_pos h1]

/-! ## The state of the generator -/

/-- The state holds the key and the counter of `s`. -/
structure DrbgCtx.Holds (ctx : DrbgCtx) (s : CtrDrbg) : Prop where
  key : ctx.key.slice 0 32 = s.key
  v : ctx.v.slice 0 16 = counterBytes 16 s.v
  reseedCounter : ctx.reseedCounter = s.reseedCounter

variable {AES256 : BlockFunction 16}

theorem aes256Ecb_eq {key v : Arr UInt8} {c : Nat} (h : v.slice 0 16 = counterBytes 16 c) :
    aes256Ecb AES256 key v = (AES256 (key.slice 0 32) (counterBytes 16 c)).toList := by
  rw [aes256Ecb, h]

@[simp] theorem length_aes256Ecb (key v : Arr UInt8) : (aes256Ecb AES256 key v).length = 16 :=
  Vector.length_toList

/-- The blocks that the rounds leave in `temp`. -/
theorem updateRounds {key v : Arr UInt8} {c : Nat} (hv : v.slice 0 16 = counterBytes 16 c)
    (temp : Arr UInt8) (n : Nat) :
    let s := forUp 0 n (updateRound AES256 key) (temp, v)
    s.1.slice 0 (16 * n) = keystream AES256 (key.slice 0 32) c n ∧
      s.2.slice 0 16 = counterBytes 16 (c + n) := by
  refine forUp_invariant (fun i (s : Arr UInt8 × Arr UInt8) =>
    s.1.slice 0 (16 * i) = keystream AES256 (key.slice 0 32) c i ∧
      s.2.slice 0 16 = counterBytes 16 (c + i)) (Nat.zero_le n) ?_ ⟨rfl, hv⟩
  rintro i ⟨t, w⟩ - - ⟨ht, hw⟩
  have hw' := slice_incrementV_counter hw
  have hblock := Arr.slice_blit t (16 * i) (aes256Ecb AES256 key (incrementV 16 w))
  rw [length_aes256Ecb, aes256Ecb_eq hw'] at hblock
  refine ⟨?_, hw'⟩
  dsimp only [updateRound]
  rw [Nat.mul_succ, Arr.slice_add, Arr.slice_blit_of_disjoint _ _ _ _ _ (by omega), ht,
    keystream_succ, Nat.zero_add, aes256Ecb_eq hw', hblock, Nat.add_right_comm c 1 i]

/-- Key and V are taken from the 48 bytes of `temp`. -/
theorem slice_newKey (key v temp : Arr UInt8) :
    (key.blit 0 (temp.slice 0 32)).slice 0 32 = (temp.slice 0 48).take 32 ∧
      (v.blit 0 (temp.slice 32 16)).slice 0 16
        = counterBytes 16 (counterValue (((temp.slice 0 48).drop 32).take 16)) := by
  have hsplit : temp.slice 0 48 = temp.slice 0 32 ++ temp.slice 32 16 := temp.slice_add 0 32 16
  have hkey := Arr.slice_blit key 0 (temp.slice 0 32)
  have hv := Arr.slice_blit v 0 (temp.slice 32 16)
  rw [Arr.length_slice] at hkey hv
  rw [hkey, hv, hsplit, List.take_left' (Arr.length_slice _ _ _),
    List.drop_left' (Arr.length_slice _ _ _), List.take_of_length_le (Arr.length_slice _ _ _).le]
  exact ⟨rfl, (counterBytes_counterValue (Arr.length_slice _ _ _)).symm⟩

/-- `AES256_CTR_DRBG_Update` takes the next key and counter from the stream. -/
theorem aes256CtrDrbgUpdate_holds (providedData : Option (Arr UInt8)) {key v : Arr UInt8}
    {s : CtrDrbg} (hkey : key.slice 0 32 = s.key) (hv : v.slice 0 16 = counterBytes 16 s.v) :
    let u := aes256CtrDrbgUpdate AES256 providedData key v
    let s' := s.update AES256 32 3 (providedData.map fun data => data.slice 0 48)
    u.1.slice 0 32 = s'.key ∧ u.2.slice 0 16 = counterBytes 16 s'.v := by
  obtain ⟨htemp, -⟩ := @updateRounds AES256 key v _ hv Arr.empty 3
  rw [hkey] at htemp
  cases providedData with
  | none =>
      dsimp only [aes256CtrDrbgUpdate, CtrDrbg.update, Option.map_none]
      rw [← htemp]
      exact slice_newKey _ _ _
  | some data =>
      dsimp only [aes256CtrDrbgUpdate, CtrDrbg.update, Option.map_some]
      rw [← htemp, ← slice_xorData]
      exact slice_newKey _ _ _

/-- `randombytes_init` seeds the generator. -/
theorem randombytesInit_holds (entropyInput : Arr UInt8) (securityStrength : Int) (ctx : DrbgCtx) :
    (randombytesInit AES256 entropyInput none securityStrength ctx).Holds
      (CtrDrbg.init AES256 32 3 (entropyInput.slice 0 48)) := by
  have hkey := Arr.slice_blit ctx.key 0 (List.replicate 32 0)
  have hv := Arr.slice_blit ctx.v 0 (List.replicate 16 0)
  have hdata := Arr.slice_blit Arr.empty 0 (entropyInput.slice 0 48)
  rw [Arr.length_slice] at hdata
  have h := @aes256CtrDrbgUpdate_holds AES256
    (some (Arr.empty.blit 0 (entropyInput.slice 0 48))) _ _ ⟨List.replicate 32 0, 0, 1⟩ hkey
    (hv.trans (counterBytes_zero 16).symm)
  rw [Option.map_some, hdata] at h
  exact ⟨h.1, h.2, rfl⟩

/-! ## Requests -/

/-- A copy to the end of what has been written. -/
theorem slice_blit_end (x : Arr UInt8) (i : Nat) (l : List UInt8) :
    (x.blit i l).slice 0 (i + l.length) = x.slice 0 i ++ l := by
  rw [Arr.slice_add, Arr.slice_blit_of_disjoint _ _ _ _ _ (by omega), Nat.zero_add, Arr.slice_blit]

theorem randombytesRound_full (key : Arr UInt8) {xlen : Nat} (h : xlen > 15) (x : Arr UInt8) (i : Nat)
    (v : Arr UInt8) :
    randombytesRound AES256 key ⟨x, xlen, i, v⟩ =
      if i + 16 ≤ intMax then
        pure (.inl ⟨x.blit i (aes256Ecb AES256 key (incrementV 16 v)), xlen - 16, i + 16,
          incrementV 16 v⟩)
      else Run.fail .intOverflow := by
  rw [randombytesRound, if_pos (show xlen > 0 by omega)]
  exact if_pos h

theorem randombytesRound_last (key : Arr UInt8) {xlen : Nat} (h0 : xlen > 0) (h : ¬ xlen > 15)
    (x : Arr UInt8) (i : Nat) (v : Arr UInt8) :
    randombytesRound AES256 key ⟨x, xlen, i, v⟩ =
      pure (.inl ⟨x.blit i ((aes256Ecb AES256 key (incrementV 16 v)).take xlen), 0, i,
        incrementV 16 v⟩) := by
  rw [randombytesRound, if_pos h0]
  exact if_neg h

/-- The loop appends the bytes of the request to what lies below `i`. -/
theorem randombytesLoop_returns {key : Arr UInt8} {s : RandombytesLoop} {c : Nat}
    (hv : s.v.slice 0 16 = counterBytes 16 c) (hi : s.i + 16 * (s.xlen / 16) ≤ intMax) :
    ∃ s', (Run.loop (randombytesRound AES256 key) s).Returns s' ∧
      s'.v.slice 0 16 = counterBytes 16 (c + blocks 16 s.xlen) ∧
      s'.x.slice 0 (s.i + s.xlen)
        = s.x.slice 0 s.i ++ ctrBytes AES256 (key.slice 0 32) c s.xlen := by
  obtain ⟨n, hn⟩ : ∃ n, s.xlen = n := ⟨_, rfl⟩
  -- induction on the number of bytes that are left
  induction n using Nat.strong_induction_on generalizing s c with
  | _ n ih =>
      obtain ⟨x, xlen, i, v⟩ := s
      obtain rfl : xlen = n := hn
      have hv' := slice_incrementV_counter hv
      rcases Nat.eq_zero_or_pos xlen with rfl | hpos
      · refine ⟨_, Run.returns_loop_break (Run.returns_pure.mpr rfl), ?_, ?_⟩
        · rwa [blocks_zero (by decide)]
        · rw [ctrBytes, blocks_zero (by decide), keystream_zero]
          exact (List.append_nil _).symm
      · by_cases hfull : xlen > 15
        · have hnext : i + 16 + 16 * ((xlen - 16) / 16) ≤ intMax := by
            have : xlen / 16 = (xlen - 16) / 16 + 1 := by omega
            dsimp only at hi
            omega
          have hround := @randombytesRound_full AES256 key _ hfull x i v
          rw [if_pos (by omega)] at hround
          obtain ⟨s', hs', hcount, hbytes⟩ := @ih (xlen - 16) (by omega)
            ⟨x.blit i (aes256Ecb AES256 key (incrementV 16 v)), xlen - 16, i + 16, incrementV 16 v⟩
            _ hv' hnext rfl
          refine ⟨s', Run.returns_loop_continue (hround ▸ Run.returns_pure.mpr rfl) hs', ?_, ?_⟩
          · rw [hcount, blocks_of_ge (by decide) (show 16 ≤ xlen by omega), Nat.add_right_comm,
              Nat.add_assoc]
          · have hend := slice_blit_end x i (aes256Ecb AES256 key (incrementV 16 v))
            rw [length_aes256Ecb] at hend
            dsimp only at hbytes
            rw [hend, show i + 16 + (xlen - 16) = i + xlen by omega, aes256Ecb_eq hv'] at hbytes
            rw [hbytes, ctrBytes_of_ge AES256 (by decide) (show 16 ≤ xlen by omega),
              List.append_assoc]
        · have hround := @randombytesRound_last AES256 key _ hpos hfull x i v
          refine ⟨_, Run.returns_loop_continue (hround ▸ Run.returns_pure.mpr rfl)
            (Run.returns_loop_break (Run.returns_pure.mpr rfl)), ?_, ?_⟩
          · rw [blocks_of_le hpos (by omega)]
            exact hv'
          · have hend := slice_blit_end x i ((aes256Ecb AES256 key (incrementV 16 v)).take xlen)
            rw [List.length_take, length_aes256Ecb, Nat.min_eq_left (by omega)] at hend
            rw [ctrBytes_of_le AES256 hpos (by omega), hend, aes256Ecb_eq hv']

/-- The offset of a long request overflows. -/
theorem randombytesLoop_faults {key : Arr UInt8} {s : RandombytesLoop} (hi : s.i ≤ intMax)
    (hlong : intMax < s.i + 16 * (s.xlen / 16)) :
    (Run.loop (randombytesRound AES256 key) s).Faults .intOverflow := by
  obtain ⟨n, hn⟩ : ∃ n, s.xlen = n := ⟨_, rfl⟩
  induction n using Nat.strong_induction_on generalizing s with
  | _ n ih =>
      obtain ⟨x, xlen, i, v⟩ := s
      obtain rfl : xlen = n := hn
      dsimp only at hi hlong
      rw [Run.faults_loop, randombytesRound_full key (show xlen > 15 by omega)]
      by_cases hfits : i + 16 ≤ intMax
      · rw [if_pos hfits]
        have hmore : intMax < i + 16 + 16 * ((xlen - 16) / 16) := by omega
        exact Or.inr ⟨_, Run.returns_pure.mpr rfl, @ih (xlen - 16) (by omega)
          ⟨x.blit i (aes256Ecb AES256 key (incrementV 16 v)), xlen - 16, i + 16, incrementV 16 v⟩
          hfits hmore rfl⟩
      · rw [if_neg hfits]
        exact Or.inl (Run.faults_fail.mpr rfl)

/-- The end of `randombytes`: Update and the reseed counter. -/
theorem randombytes_equiv {ctx : DrbgCtx} {x : Arr UInt8} {xlen : UInt64} {t : RandombytesLoop}
    (ht : (Run.loop (randombytesRound AES256 ctx.key) ⟨x, xlen.toNat, 0, ctx.v⟩).Returns t) :
    (randombytes AES256 x xlen ctx).Equiv
      (if ctx.reseedCounter + 1 ≤ intMax then
        pure (rngSuccess, t.x, ⟨(aes256CtrDrbgUpdate AES256 none ctx.key t.v).1,
          (aes256CtrDrbgUpdate AES256 none ctx.key t.v).2, ctx.reseedCounter + 1⟩)
      else Run.fail .intOverflow) :=
  ht.bind_equiv _

/-- A request whose `int` variables do not overflow is answered. -/
theorem randombytes_returns {ctx : DrbgCtx} {s : CtrDrbg} (hctx : ctx.Holds s) (x : Arr UInt8)
    {xlen : UInt64} (hxlen : xlen.toNat ≤ intMax) (hcount : s.reseedCounter < intMax) :
    ∃ x' ctx', (randombytes AES256 x xlen ctx).Returns (rngSuccess, x', ctx') ∧
      x'.slice 0 xlen.toNat = (s.generate AES256 32 3 xlen.toNat).1 ∧
      ctx'.Holds (s.generate AES256 32 3 xlen.toNat).2 := by
  obtain ⟨t, ht, hv, hx⟩ := @randombytesLoop_returns AES256 ctx.key ⟨x, xlen.toNat, 0, ctx.v⟩ _ hctx.v
    (by dsimp only; omega)
  have hupdate := @aes256CtrDrbgUpdate_holds AES256 none ctx.key t.v
    { s with v := s.v + blocks 16 xlen.toNat, reseedCounter := s.reseedCounter + 1 } hctx.key hv
  have hreturns := ((randombytes_equiv ht).returns _).mpr
    (by rw [if_pos (by rw [hctx.reseedCounter]; exact hcount)]; exact Run.returns_pure.mpr rfl)
  refine ⟨_, _, hreturns, ?_, hupdate.1, hupdate.2, ?_⟩
  · rw [CtrDrbg.generate, ← hctx.key]
    rwa [Nat.zero_add, show x.slice 0 0 = [] from rfl, List.nil_append] at hx
  · rw [CtrDrbg.reseedCounter_generate, hctx.reseedCounter]

theorem randombytes_faults {ctx : DrbgCtx} (x : Arr UInt8) {xlen : UInt64}
    (h : intMax < xlen.toNat ∨ intMax ≤ ctx.reseedCounter) :
    (randombytes AES256 x xlen ctx).Faults .intOverflow := by
  have hmax : intMax = 2 ^ 31 - 1 := rfl
  by_cases hlong : intMax < xlen.toNat
  · refine Run.faults_bind.mpr (Or.inl (randombytesLoop_faults (Nat.zero_le _) ?_))
    dsimp only
    omega
  · obtain ⟨t, ht, -⟩ := @randombytesLoop_returns AES256 ctx.key ⟨x, xlen.toNat, 0, ctx.v⟩ _
      (slice_eq_counter ctx.v) (by dsimp only; omega)
    refine ((randombytes_equiv ht).faults _).mpr ?_
    rw [if_neg (by omega)]
    exact Run.faults_fail.mpr rfl

/-! ## Sessions -/

/-- What is to be seen of a generator in counter mode. -/
def ctrView (r : List UInt8 × CtrDrbg) : DrbgView where
  bytes := r.1
  key := r.2.key.map UInt8.toNat
  v := (counterBytes 16 r.2.v).map UInt8.toNat
  reseedCounter := r.2.reseedCounter

theorem DrbgCtx.Holds.view {ctx : DrbgCtx} {s : CtrDrbg} (h : ctx.Holds s) (bytes : List UInt8) :
    ctx.view bytes = ctrView (bytes, s) := by
  rw [DrbgCtx.view, ctrView, h.key, h.v, h.reseedCounter]

/-- The session of the generator in counter mode. -/
def ctrSession (AES256 : BlockFunction 16) (entropyInput : List UInt8) (lens : List Nat) :
    List DrbgView :=
  let s := CtrDrbg.init AES256 32 3 entropyInput
  (([], s) :: CtrDrbg.session AES256 32 3 lens s).map ctrView

/-- No `int` overflows: every request is short, and there are few of them. -/
def SmallSession (rs : List Request) : Prop :=
  (∀ r ∈ rs, r.xlen.toNat < 2 ^ 31) ∧ rs.length < 2 ^ 31 - 1

theorem randombytesCalls_returns {rs : List Request} {ctx : DrbgCtx} {s : CtrDrbg}
    (hctx : ctx.Holds s) (hshort : ∀ r ∈ rs, r.xlen.toNat ≤ intMax)
    (hfew : s.reseedCounter + rs.length ≤ intMax) :
    (randombytesCalls AES256 rs ctx).Returns
      ((CtrDrbg.session AES256 32 3 (rs.map fun r => r.xlen.toNat) s).map ctrView) := by
  induction rs generalizing ctx s with
  | nil => exact Run.returns_pure.mpr rfl
  | cons r rs ih =>
      rw [List.length_cons] at hfew
      obtain ⟨x', ctx', hcall, hbytes, hctx'⟩ := @randombytes_returns AES256 ctx s hctx r.x r.xlen
        (hshort r List.mem_cons_self) (by omega)
      have hlater := ih hctx' (fun r' hr' => hshort r' (List.mem_cons_of_mem r hr'))
        (by rw [CtrDrbg.reseedCounter_generate]; omega)
      refine Run.returns_bind.mpr ⟨_, hcall, Run.returns_bind.mpr ⟨_, hlater, ?_⟩⟩
      rw [Run.returns_pure, hctx'.view, hbytes]
      rfl

/-- A session with a long request, or too many of them, overflows. -/
theorem randombytesCalls_faults {rs : List Request} {ctx : DrbgCtx} {s : CtrDrbg}
    (hctx : ctx.Holds s) (hcount : s.reseedCounter ≤ intMax)
    (h : ¬ ((∀ r ∈ rs, r.xlen.toNat ≤ intMax) ∧ s.reseedCounter + rs.length ≤ intMax)) :
    (randombytesCalls AES256 rs ctx).Faults .intOverflow := by
  induction rs generalizing ctx s with
  | nil => exact absurd ⟨nofun, hcount⟩ h
  | cons r rs ih =>
      by_cases hr : r.xlen.toNat ≤ intMax ∧ s.reseedCounter < intMax
      · obtain ⟨x', ctx', hcall, -, hctx'⟩ := @randombytes_returns AES256 ctx s hctx r.x r.xlen hr.1 hr.2
        refine Run.faults_bind.mpr (Or.inr ⟨_, hcall, Run.faults_bind.mpr (Or.inl ?_)⟩)
        refine ih hctx' (by rw [CtrDrbg.reseedCounter_generate]; omega) fun hrest => h ⟨?_, ?_⟩
        · exact List.forall_mem_cons.mpr ⟨hr.1, hrest.1⟩
        · have := hrest.2
          rw [CtrDrbg.reseedCounter_generate] at this
          rw [List.length_cons]
          omega
      · refine Run.faults_bind.mpr (Or.inl (randombytes_faults r.x ?_))
        rw [hctx.reseedCounter]
        omega

theorem smallSession_iff (rs : List Request) :
    SmallSession rs ↔ (∀ r ∈ rs, r.xlen.toNat ≤ intMax) ∧ 1 + rs.length ≤ intMax := by
  have hmax : intMax = 2 ^ 31 - 1 := rfl
  refine and_congr (forall₂_congr fun r _ => ?_) ?_ <;> omega

/-- A session of C is the session of the generator in counter mode exactly
    when no `int` overflows. -/
theorem drbgSession_outcome (entropyInput : Arr UInt8) (rs : List Request) (ctx : DrbgCtx) :
    (drbgSession AES256 entropyInput rs ctx).Returns
        (ctrSession AES256 (entropyInput.slice 0 48) (rs.map fun r => r.xlen.toNat)) ∧
        SmallSession rs ∨
      (drbgSession AES256 entropyInput rs ctx).Faults .intOverflow ∧ ¬ SmallSession rs := by
  have hinit := @randombytesInit_holds AES256 entropyInput 256 ctx
  by_cases hsmall : SmallSession rs
  · obtain ⟨hshort, hfew⟩ := (smallSession_iff rs).mp hsmall
    refine Or.inl ⟨Run.returns_bind.mpr ⟨_, randombytesCalls_returns hinit hshort hfew, ?_⟩, hsmall⟩
    rw [Run.returns_pure, hinit.view]
    rfl
  · refine Or.inr ⟨Run.faults_bind.mpr (Or.inl (randombytesCalls_faults hinit ?_ ?_)), hsmall⟩
    · change 1 ≤ intMax
      decide
    · exact fun h => hsmall ((smallSession_iff rs).mpr h)

end Meds.Ref
