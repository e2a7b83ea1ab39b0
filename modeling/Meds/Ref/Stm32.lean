/-
  Meds.Ref.Stm32

  ref/randombytes.c as the board builds it (STM32F4).

  The round keys are a global that is written before every use.  The generator
  encrypts one block at a time, so beside each block an uninitialised buffer is
  encrypted, and dropped.  What lies in it may be another at every call, so the
  calls are counted.  The sessions are those of the other build.
-/

import Meds.Core.Match
import Meds.Ref.PqmAes

namespace Meds.Ref.Stm32

open Meds.Core Meds.Ref.PqmAes

/-- `DRBG_ctx` and `ctx256_ecb`, and how often `aes256_ecb` was called. -/
structure Globals where
  drbg : DrbgCtx
  ctx256Ecb : List UInt32
  ecbCalls : Nat

section

-- `buf1 n` is what lies in the local buffer of `aes256_ecb` at its call `n`
variable (A : Ffs) (buf1 : Nat → Arr UInt8)

/-- One block of `AES256_CTR_DRBG_Update`: `temp` and V. -/
def updateRound (ctx256Ecb : List UInt32) (ecbCalls i : Nat) (s : Arr UInt8 × Arr UInt8) :
    Arr UInt8 × Arr UInt8 :=
  let v := incrementV 16 s.2
  (PqmAes.aes256Ecb A s.1 (16 * i) v 0 1 ctx256Ecb (buf1 (ecbCalls + i)), v)

/-- `AES256_CTR_DRBG_Update`: Key, V and the round keys as it leaves them. -/
def aes256CtrDrbgUpdate (providedData : Option (Arr UInt8)) (key v : Arr UInt8) (ecbCalls : Nat) :
    (Arr UInt8 × Arr UInt8) × List UInt32 :=
  let ctx256Ecb := aes256EcbKeyexp A key
  let s := forUp 0 3 (updateRound A buf1 ctx256Ecb ecbCalls) (Arr.empty, v)
  let temp := match providedData with
    | some data => xorData s.1 data
    | none => s.1
  ((key.blit 0 (temp.slice 0 32), s.2.blit 0 (temp.slice 32 16)), ctx256Ecb)

/-- `randombytes_init`. -/
def randombytesInit (entropyInput : Arr UInt8) (personalizationString : Option (Arr UInt8))
    (_securityStrength : Int) (g : Globals) : Globals :=
  let seedMaterial := Arr.empty.blit 0 (entropyInput.slice 0 48)
  let seedMaterial := match personalizationString with
    | some s => xorData seedMaterial s
    | none => seedMaterial
  let key := g.drbg.key.blit 0 (List.replicate 32 0x00)
  let v := g.drbg.v.blit 0 (List.replicate 16 0x00)
  let (s, ctx256Ecb) := aes256CtrDrbgUpdate A buf1 (some seedMaterial) key v g.ecbCalls
  ⟨⟨s.1, s.2, 1⟩, ctx256Ecb, g.ecbCalls + 3⟩

/-- The variables of the loop of `randombytes`, and the globals it writes. -/
structure BoardLoop extends RandombytesLoop where
  ctx256Ecb : List UInt32
  ecbCalls : Nat

/-- One block of `randombytes`. -/
def randombytesRound (key : Arr UInt8) (s : BoardLoop) : Run DrbgFault (BoardLoop ⊕ BoardLoop) :=
  if s.xlen > 0 then
    let v := incrementV 16 s.v
    let ctx256Ecb := aes256EcbKeyexp A key
    let block := (PqmAes.aes256Ecb A Arr.empty 0 v 0 1 ctx256Ecb (buf1 s.ecbCalls)).slice 0 16
    if s.xlen > 15 then
      if s.i + 16 ≤ intMax then
        pure (.inl ⟨⟨s.x.blit s.i block, s.xlen - 16, s.i + 16, v⟩, ctx256Ecb, s.ecbCalls + 1⟩)
      else Run.fail .intOverflow
    else
      pure (.inl ⟨⟨s.x.blit s.i (block.take s.xlen), 0, s.i, v⟩, ctx256Ecb, s.ecbCalls + 1⟩)
  else pure (.inr s)

/-- `randombytes`: what it returns, the buffer and the globals. -/
def randombytes (x : Arr UInt8) (xlen : UInt64) (g : Globals) :
    Run DrbgFault (Int × Arr UInt8 × Globals) := do
  let s ←
    Run.loop (randombytesRound A buf1 g.drbg.key)
      ⟨⟨x, xlen.toNat, 0, g.drbg.v⟩, g.ctx256Ecb, g.ecbCalls⟩
  let (u, ctx256Ecb) := aes256CtrDrbgUpdate A buf1 none g.drbg.key s.v s.ecbCalls
  if g.drbg.reseedCounter + 1 ≤ intMax then
    pure (rngSuccess, s.x, ⟨⟨u.1, u.2, g.drbg.reseedCounter + 1⟩, ctx256Ecb, s.ecbCalls + 3⟩)
  else Run.fail .intOverflow

/-- Calls of `randombytes` one after the other. -/
def randombytesCalls : List Request → Globals → Run DrbgFault (List DrbgView)
  | [], _ => pure []
  | r :: rs, g => do
      let (_, x, g) ← randombytes A buf1 r.x r.xlen g
      let later ← randombytesCalls rs g
      pure (g.drbg.view (x.slice 0 r.xlen.toNat) :: later)

/-- `randombytes_init` without personalization string, then the calls. -/
def drbgSession (entropyInput : Arr UInt8) (rs : List Request) (g : Globals) :
    Run DrbgFault (List DrbgView) := do
  let g := randombytesInit A buf1 entropyInput none 256 g
  let later ← randombytesCalls A buf1 rs g
  pure (g.drbg.view [] :: later)

end

/-! ## The generator of the other build -/

section

variable {A : Ffs} {E : BlockFunction 16}

/-- One block is `AES256_ECB`. -/
theorem aes256Ecb_one (hA : A.Computes 32 E) (key out : Arr UInt8) (o : Nat) (v buf : Arr UInt8) :
    PqmAes.aes256Ecb A out o v 0 1 (aes256EcbKeyexp A key) buf
      = out.blit o (Ref.aes256Ecb E key v) := by
  rw [PqmAes.aes256Ecb, aes256EcbKeyexp, ecb_eq hA (Arr.length_slice ..)]
  simp [Ref.aes256Ecb]

variable (buf1 : Nat → Arr UInt8)

theorem aes256CtrDrbgUpdate_eq (hA : A.Computes 32 E) (providedData : Option (Arr UInt8))
    (key v : Arr UInt8) (ecbCalls : Nat) :
    aes256CtrDrbgUpdate A buf1 providedData key v ecbCalls
      = (Ref.aes256CtrDrbgUpdate E providedData key v, aes256EcbKeyexp A key) := by
  have hround : updateRound A buf1 (aes256EcbKeyexp A key) ecbCalls = Ref.updateRound E key := by
    funext i s
    rw [updateRound, aes256Ecb_one hA]
    rfl
  dsimp only [aes256CtrDrbgUpdate]
  rw [hround]
  rfl

theorem randombytesInit_drbg (hA : A.Computes 32 E) (entropyInput : Arr UInt8)
    (personalizationString : Option (Arr UInt8)) (strength : Int) (g : Globals) :
    (randombytesInit A buf1 entropyInput personalizationString strength g).drbg
      = Ref.randombytesInit E entropyInput personalizationString strength g.drbg := by
  dsimp only [randombytesInit]
  rw [aes256CtrDrbgUpdate_eq buf1 hA]
  rfl

/-- A call leaves the same buffer, Key and V. -/
theorem randombytes_alike (hA : A.Computes 32 E) (x : Arr UInt8) (xlen : UInt64) (g : Globals) :
    Run.Matches (Run.Alike fun r r' => r.1 = r'.1 ∧ r.2.1 = r'.2.1 ∧ r.2.2.drbg = r'.2.2)
      (randombytes A buf1 x xlen g) (Ref.randombytes E x xlen g.drbg) := by
  have hblock : ∀ v buf : Arr UInt8, (PqmAes.aes256Ecb A Arr.empty 0 v 0 1
      (aes256EcbKeyexp A g.drbg.key) buf).slice 0 16 = Ref.aes256Ecb E g.drbg.key v := by
    intro v buf
    have hslice := Arr.slice_blit Arr.empty 0 (Ref.aes256Ecb E g.drbg.key v)
    rw [length_aes256Ecb] at hslice
    rw [aes256Ecb_one hA, hslice]
  -- the loops differ in the globals
  have hloop : Run.Matches (Run.Alike fun (s : BoardLoop) t => s.toRandombytesLoop = t)
      (Run.loop (randombytesRound A buf1 g.drbg.key)
        ⟨⟨x, xlen.toNat, 0, g.drbg.v⟩, g.ctx256Ecb, g.ecbCalls⟩)
      (Run.loop (Ref.randombytesRound E g.drbg.key) ⟨x, xlen.toNat, 0, g.drbg.v⟩) := by
    refine Run.Matches.loop (R := fun (s : BoardLoop) t => s.toRandombytesLoop = t) ?_ rfl
    rintro s _ rfl
    rw [randombytesRound, Ref.randombytesRound]
    simp only [hblock]
    split
    · split
      · split
        · exact Run.Matches.round_continue rfl
        · exact Run.Matches.ofOutcomes (Run.ends_fail.mpr rfl) (Run.ends_fail.mpr rfl)
            (Or.inr ⟨_, _, rfl, rfl, .faults _⟩)
      · exact Run.Matches.round_continue rfl
    · exact Run.Matches.round_break (.values rfl)
  refine hloop.bind_alike ?_
  rintro s _ rfl
  rw [aes256CtrDrbgUpdate_eq buf1 hA]
  dsimp only
  split
  · exact Run.Matches.alike ⟨rfl, rfl, rfl⟩
  · exact Run.Matches.ofOutcomes (Run.ends_fail.mpr rfl) (Run.ends_fail.mpr rfl) (.faults _)

theorem randombytesCalls_alike (hA : A.Computes 32 E) (rs : List Request) (g : Globals) :
    Run.Matches (Run.Alike Eq) (randombytesCalls A buf1 rs g)
      (Ref.randombytesCalls E rs g.drbg) := by
  induction rs generalizing g with
  | nil => exact Run.Matches.alike rfl
  | cons r rs ih =>
      refine (randombytes_alike buf1 hA r.x r.xlen g).bind_alike ?_
      rintro ⟨ret, x, g'⟩ ⟨ret', x', ctx'⟩ ⟨-, hx, hctx⟩
      dsimp only at hx hctx ⊢
      subst hx hctx
      refine (ih g').bind_alike ?_
      rintro later _ rfl
      exact Run.Matches.alike rfl

/-- On the board every session of the generator is that of the other build,
    whatever the round keys hold before, and the local buffer at every call. -/
theorem boardSession_equiv (hA : A.Computes 32 E) (entropyInput : Arr UInt8) (rs : List Request)
    (g : Globals) :
    (drbgSession A buf1 entropyInput rs g).Equiv (Ref.drbgSession E entropyInput rs g.drbg) := by
  have hinit := randombytesInit_drbg buf1 hA entropyInput none 256 g
  have hcalls := randombytesCalls_alike buf1 hA rs (randombytesInit A buf1 entropyInput none 256 g)
  rw [hinit] at hcalls
  refine (hcalls.bind_alike ?_).equiv
  rintro later _ rfl
  rw [hinit]
  exact Run.Matches.alike rfl

end

/-- With a cipher that adds the key, and two requests. -/
theorem boardSession_equiv_toy :
    (drbgSession toyFfs (fun n => ⟨[UInt8.ofNat n]⟩) ⟨(List.range 48).map UInt8.ofNat⟩
        [⟨Arr.empty, 5⟩, ⟨Arr.empty, 40⟩] ⟨⟨Arr.empty, Arr.empty, 0⟩, [], 0⟩).Equiv
      (Ref.drbgSession toyCipher ⟨(List.range 48).map UInt8.ofNat⟩ [⟨Arr.empty, 5⟩, ⟨Arr.empty, 40⟩]
        ⟨Arr.empty, Arr.empty, 0⟩) :=
  boardSession_equiv _ (toyFfs_computes 32) _ _ _

end Meds.Ref.Stm32
