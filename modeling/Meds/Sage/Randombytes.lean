/-
  Meds.Sage.Randombytes

  The generator of sage-ref/randombytes.py, beside that of ref/randombytes.c.

  Key and V are lists of integers, `[0]*32` and `[0]*16` to begin with and
  bytearrays afterwards; V is counted in place.  The integers of Python do not
  overflow, so a session of calls always comes to its end, and it is the
  session of the generator in counter mode.
-/

import Meds.Ref.Randombytes

namespace Meds.Sage

open Meds.Core Meds.Ref

/-- The exceptions of randombytes.py. -/
inductive DrbgError where
  | assertionError
  | indexError
  | typeError
  | valueError
deriving DecidableEq, Repr

/-- `DRBG_ctx_key`, `DRBG_ctx_v` and `DRBG_ctx_reseed_counter`. -/
structure DrbgGlobals where
  key : List Nat
  v : List Nat
  reseedCounter : Nat
deriving DecidableEq, Repr

/-- `l[i]`. -/
def item {α : Type} (l : List α) (i : Nat) : Run DrbgError α :=
  match l[i]? with
  | some x => pure x
  | none => Run.fail .indexError

/-- `bytes(l)`. -/
def bytesOf (l : List Nat) : Run DrbgError (List UInt8) :=
  if ∀ x ∈ l, x < 256 then pure (l.map UInt8.ofNat) else Run.fail .valueError

section

variable (AES256 : BlockFunction 16)

/-- `AES.new(key, AES.MODE_ECB).encrypt(data)`, for one block under a key of AES-256. -/
def ecbEncrypt (key data : List UInt8) : Run DrbgError (List UInt8) :=
  if key.length = 32 ∧ data.length = 16 then pure (AES256 key data).toList else Run.fail .valueError

/-- `for j in range(15, -1, -1)`: `n` entries of V are left to look at. -/
def incrementV : Nat → List Nat → Run DrbgError (List Nat)
  | 0, v => pure v
  | j + 1, v => do
      let x ← item v j
      if x = 0xff then incrementV j (v.set j 0x00) else pure (v.set j (x + 1))

/-- `for i in range(48): temp[i] ^= provided_data[i]`. -/
def xorData (temp providedData : List UInt8) : Run DrbgError (List UInt8) :=
  forUpM 0 48
    (fun i temp => do
      let x ← item temp i
      let y ← item providedData i
      pure (temp.set i (x ^^^ y)))
    temp

/-- One block of `AES256_CTR_DRBG_Update`: `temp` and V. -/
def updateRound (key : List Nat) (s : List UInt8 × List Nat) :
    Run DrbgError (List UInt8 × List Nat) := do
  let v ← incrementV 16 s.2
  let k ← bytesOf key
  let data ← bytesOf v
  let block ← ecbEncrypt AES256 k data
  pure (s.1 ++ block, v)

/-- `AES256_CTR_DRBG_Update`. -/
def aes256CtrDrbgUpdate (providedData : Option (List UInt8)) (key v : List Nat) :
    Run DrbgError (List Nat × List Nat) := do
  let s ← forUpM 0 3 (fun _ => updateRound AES256 key) ([], v)
  let temp ← (match providedData with
    | some data => xorData s.1 data
    | none => pure s.1)
  pure ((temp.take 32).map UInt8.toNat, ((temp.drop 32).take 16).map UInt8.toNat)

/-- `assert c`. -/
def assertThat (c : Prop) [Decidable c] : Run DrbgError Unit :=
  if c then pure () else Run.fail .assertionError

/-- `for i in range(48): seed_material[i] ^= personalization_string[i]`: an entry
    of a `bytes` object cannot be assigned. -/
def personalize (personalizationString : Option (List UInt8)) (seedMaterial : List UInt8) :
    Run DrbgError (List UInt8) :=
  match personalizationString with
  | some (_ :: _) => Run.fail .typeError
  | _ => pure seedMaterial

/-- `randombytes_init`. -/
def randombytesInit (entropyInput : List Nat) (personalizationString : Option (List UInt8))
    (securityStrength : Int) : Run DrbgError DrbgGlobals := do
  assertThat (entropyInput.length = 48)
  assertThat (securityStrength = 256)
  let seedMaterial ← bytesOf entropyInput
  let seedMaterial ← personalize personalizationString seedMaterial
  let s ← aes256CtrDrbgUpdate AES256 (some seedMaterial) (List.replicate 32 0)
    (List.replicate 16 0)
  pure ⟨s.1, s.2, 1⟩

/-- The variables of the loop of `randombytes`. -/
structure RandombytesLoop where
  ret : List UInt8
  xlen : Nat
  v : List Nat

/-- One block of `randombytes`. -/
def randombytesRound (key : List Nat) (s : RandombytesLoop) :
    Run DrbgError (RandombytesLoop ⊕ RandombytesLoop) :=
  if s.xlen > 0 then do
    let v ← incrementV 16 s.v
    let k ← bytesOf key
    let data ← bytesOf v
    let block ← ecbEncrypt AES256 k data
    if s.xlen > 15 then pure (.inl ⟨s.ret ++ block, s.xlen - 16, v⟩)
    else pure (.inl ⟨s.ret ++ block.take s.xlen, 0, v⟩)
  else pure (.inr s)

/-- `randombytes`: what it returns, and the globals after it. -/
def randombytes (xlen : Nat) (g : DrbgGlobals) : Run DrbgError (List UInt8 × DrbgGlobals) := do
  let s ← Run.loop (randombytesRound AES256 g.key) ⟨[], xlen, g.v⟩
  let u ← aes256CtrDrbgUpdate AES256 none g.key s.v
  pure (s.ret, ⟨u.1, u.2, g.reseedCounter + 1⟩)

def DrbgGlobals.view (g : DrbgGlobals) (bytes : List UInt8) : DrbgView :=
  ⟨bytes, g.key, g.v, g.reseedCounter⟩

/-- Calls of `randombytes` one after the other. -/
def randombytesCalls : List Nat → DrbgGlobals → Run DrbgError (List DrbgView)
  | [], _ => pure []
  | xlen :: xlens, g => do
      let (ret, g) ← randombytes AES256 xlen g
      let later ← randombytesCalls xlens g
      pure (g.view ret :: later)

/-- `randombytes_init` without personalization string, then the calls. -/
def drbgSession (entropyInput : List Nat) (xlens : List Nat) : Run DrbgError (List DrbgView) := do
  let g ← randombytesInit AES256 entropyInput none 256
  let later ← randombytesCalls AES256 xlens g
  pure (g.view [] :: later)

end

/-! ## Key and V -/

/-- The integers of a list of bytes. -/
def ints (l : List UInt8) : List Nat := l.map UInt8.toNat

@[simp] theorem length_ints (l : List UInt8) : (ints l).length = l.length := List.length_map _

theorem ints_set (l : List UInt8) (i : Nat) (x : UInt8) :
    (ints l).set i x.toNat = ints (l.set i x) := by
  rw [ints, ints, List.map_set]

theorem ints_replicate (n : Nat) : ints (List.replicate n 0) = List.replicate n 0 := by
  rw [ints, List.map_replicate]
  rfl

theorem item_eq {α : Type} {l : List α} {i : Nat} (h : i < l.length) : item l i = pure l[i] := by
  rw [item, List.getElem?_eq_getElem h]

theorem bytesOf_ints (l : List UInt8) : bytesOf (ints l) = pure l := by
  have hlt : ∀ x ∈ ints l, x < 256 := by
    intro x hx
    obtain ⟨y, -, rfl⟩ := List.mem_map.mp hx
    exact y.toNat_lt
  rw [bytesOf, if_pos hlt, ints, List.map_map]
  congr 1
  calc l.map (UInt8.ofNat ∘ UInt8.toNat) = l.map id := List.map_congr_left fun x _ => UInt8.ofNat_toNat
    _ = l := List.map_id l

theorem incrementV_ints {n : Nat} {l : List UInt8} (h : n ≤ l.length) :
    incrementV n (ints l) = pure (ints (ripple n l)) := by
  induction n generalizing l with
  | zero => rfl
  | succ n ih =>
      have hget : l.getD n 0 = l[n] := List.getD_eq_getElem _ _ h
      have hitem : item (ints l) n = pure l[n].toNat := by
        rw [item_eq (by rwa [length_ints])]
        exact congrArg pure (List.getElem_map _)
      rw [incrementV, hitem, pure_bind, ripple, hget]
      by_cases hff : l[n] = 0xff
      · have hval : l[n].toNat = 0xff := congrArg UInt8.toNat hff
        rw [if_pos hff, if_pos hval]
        exact (congrArg (incrementV n) (ints_set l n 0)).trans (ih (by rw [List.length_set]; omega))
      · have hval : l[n].toNat ≠ 0xff := fun hx => hff (UInt8.toNat_inj.mp hx)
        have hsucc : (l[n] + 1).toNat = l[n].toNat + 1 := by
          have := l[n].toNat_lt
          rw [UInt8.toNat_add]
          change (l[n].toNat + 1) % 256 = _
          omega
        rw [if_neg hff, if_neg hval, ← hsucc, ints_set]

theorem incrementV_counter (c : Nat) :
    incrementV 16 (ints (counterBytes 16 c)) = pure (ints (counterBytes 16 (c + 1))) := by
  rw [incrementV_ints (length_counterBytes 16 c).ge, ripple_counterBytes]

theorem xorData_eq {temp data : List UInt8} (htemp : temp.length = 48) (hdata : data.length = 48) :
    xorData temp data = pure (List.zipWith (· ^^^ ·) temp data) := by
  -- after `i` rounds the first `i` bytes are done
  refine (forUpM_pure (fun i => (List.zipWith (· ^^^ ·) temp data).take i ++ temp.drop i)
    (Nat.zero_le 48) ?_ (by simp)).trans ?_
  · intro i _ hi
    have htake : ((List.zipWith (· ^^^ ·) temp data).take i).length = i := by
      rw [List.length_take, List.length_zipWith]
      omega
    have hdrop : temp.drop i = temp[i] :: temp.drop (i + 1) := List.drop_eq_getElem_cons (by omega)
    have hitem : item ((List.zipWith (· ^^^ ·) temp data).take i ++ temp.drop i) i = pure temp[i] := by
      rw [item, List.getElem?_append_right htake.le, htake, Nat.sub_self, hdrop,
        List.getElem?_cons_zero]
    rw [hitem, pure_bind, item_eq (by omega), pure_bind, List.set_append_right _ _ htake.le, htake,
      Nat.sub_self, hdrop, List.set_cons_zero,
      ← List.take_append_getElem (show i < (List.zipWith (· ^^^ ·) temp data).length by
        rw [List.length_zipWith]; omega), List.getElem_zipWith, List.append_assoc]
    rfl
  · rw [List.take_of_length_le (by rw [List.length_zipWith]; omega),
      List.drop_of_length_le (by omega), List.append_nil]

/-! ## The state of the generator -/

variable {AES256 : BlockFunction 16}

/-- The globals that hold the key and the counter of `s`. -/
def ofCtr (s : CtrDrbg) : DrbgGlobals := ⟨ints s.key, ints (counterBytes 16 s.v), s.reseedCounter⟩

theorem ofCtr_view (s : CtrDrbg) (bytes : List UInt8) :
    (ofCtr s).view bytes = ctrView (bytes, s) := by
  rw [DrbgGlobals.view, ofCtr, ctrView, ints, ints]

theorem ecbEncrypt_counter {key : List UInt8} (hkey : key.length = 32) (c : Nat) :
    ecbEncrypt AES256 key (counterBytes 16 c) = pure (AES256 key (counterBytes 16 c)).toList := by
  rw [ecbEncrypt, if_pos ⟨hkey, length_counterBytes 16 c⟩]

theorem updateRound_eq {key : List UInt8} (hkey : key.length = 32) (temp : List UInt8) (c : Nat) :
    updateRound AES256 (ints key) (temp, ints (counterBytes 16 c))
      = pure (temp ++ (AES256 key (counterBytes 16 (c + 1))).toList,
          ints (counterBytes 16 (c + 1))) := by
  rw [updateRound, incrementV_counter, pure_bind, bytesOf_ints, pure_bind, bytesOf_ints, pure_bind,
    ecbEncrypt_counter hkey, pure_bind]

/-- `AES256_CTR_DRBG_Update` takes the next key and counter from the stream. -/
theorem aes256CtrDrbgUpdate_eq {providedData : Option (List UInt8)}
    (hdata : ∀ data ∈ providedData, data.length = 48) {s : CtrDrbg} (hkey : s.key.length = 32) :
    aes256CtrDrbgUpdate AES256 providedData (ints s.key) (ints (counterBytes 16 s.v))
      = pure (ints (s.update AES256 32 3 providedData).key,
          ints (counterBytes 16 (s.update AES256 32 3 providedData).v)) := by
  have hloop : forUpM 0 3 (fun _ => updateRound AES256 (ints s.key))
      ([], ints (counterBytes 16 s.v))
      = pure (keystream AES256 s.key s.v 3, ints (counterBytes 16 (s.v + 3))) :=
    forUpM_pure (fun i => (keystream AES256 s.key s.v i, ints (counterBytes 16 (s.v + i))))
      (Nat.zero_le 3) (fun i _ _ => by
        rw [updateRound_eq hkey, keystream_succ, Nat.add_right_comm s.v 1 i, Nat.add_assoc s.v i 1])
      rfl
  have hlen : (keystream AES256 s.key s.v 3).length = 48 := length_keystream _ _ _ _
  -- the last 16 bytes of `temp` are V
  have hv : ∀ temp : List UInt8, temp.length = 48 →
      counterBytes 16 (counterValue ((temp.drop 32).take 16)) = (temp.drop 32).take 16 := by
    intro temp htemp
    apply counterBytes_counterValue
    rw [List.length_take, List.length_drop, htemp]
    rfl
  rw [aes256CtrDrbgUpdate, hloop, pure_bind]
  cases providedData with
  | none =>
      dsimp only [CtrDrbg.update]
      rw [pure_bind, hv _ hlen]
      rfl
  | some data =>
      have hd := hdata data rfl
      dsimp only [CtrDrbg.update]
      rw [xorData_eq hlen hd, pure_bind, hv _ (by rw [List.length_zipWith, hlen, hd, Nat.min_self])]
      rfl

theorem length_update {s : CtrDrbg} {providedData : Option (List UInt8)}
    (hdata : ∀ data ∈ providedData, data.length = 48) :
    (s.update AES256 32 3 providedData).key.length = 32 := by
  have hlen : (keystream AES256 s.key s.v 3).length = 48 := length_keystream _ _ _ _
  cases providedData with
  | none =>
      dsimp only [CtrDrbg.update]
      rw [List.length_take, hlen, Nat.min_eq_left (by decide)]
  | some data =>
      dsimp only [CtrDrbg.update]
      rw [List.length_take, List.length_zipWith, hlen, hdata data rfl, Nat.min_self,
        Nat.min_eq_left (by decide)]

theorem personalize_none (seedMaterial : List UInt8) :
    personalize none seedMaterial = pure seedMaterial := rfl

theorem randombytesInit_eq {entropyInput : List UInt8} (h : entropyInput.length = 48) :
    randombytesInit AES256 (ints entropyInput) none 256
      = pure (ofCtr (CtrDrbg.init AES256 32 3 entropyInput)) := by
  have hupdate := @aes256CtrDrbgUpdate_eq AES256 (some entropyInput)
    (fun data hdata => Option.some.inj hdata ▸ h) ⟨List.replicate 32 0, 0, 1⟩
    (List.length_replicate)
  dsimp only at hupdate
  rw [counterBytes_zero, ints_replicate, ints_replicate] at hupdate
  rw [randombytesInit, assertThat, if_pos (by rwa [length_ints]), pure_bind, assertThat, if_pos rfl,
    pure_bind, bytesOf_ints, pure_bind, personalize_none, pure_bind, hupdate, pure_bind, ofCtr,
    CtrDrbg.init, CtrDrbg.reseedCounter_update]

/-! ## Requests -/

/-- The loop appends the bytes of the request to `ret`. -/
theorem randombytesLoop_returns {key : List UInt8} (hkey : key.length = 32) (ret : List UInt8)
    (xlen c : Nat) :
    (Run.loop (randombytesRound AES256 (ints key)) ⟨ret, xlen, ints (counterBytes 16 c)⟩).Returns
      ⟨ret ++ ctrBytes AES256 key c xlen, 0, ints (counterBytes 16 (c + blocks 16 xlen))⟩ := by
  -- induction on the number of bytes that are left
  induction xlen using Nat.strong_induction_on generalizing ret c with
  | _ xlen ih =>
      rcases Nat.eq_zero_or_pos xlen with rfl | hpos
      · refine Run.returns_loop_break (Run.returns_pure.mpr ?_)
        rw [ctrBytes, blocks_zero (by decide), keystream_zero, List.take_nil, List.append_nil,
          Nat.add_zero]
      · have hround : randombytesRound AES256 (ints key) ⟨ret, xlen, ints (counterBytes 16 c)⟩
            = if xlen > 15 then
                pure (.inl ⟨ret ++ (AES256 key (counterBytes 16 (c + 1))).toList, xlen - 16,
                  ints (counterBytes 16 (c + 1))⟩)
              else pure (.inl ⟨ret ++ (AES256 key (counterBytes 16 (c + 1))).toList.take xlen, 0,
                ints (counterBytes 16 (c + 1))⟩) := by
          rw [randombytesRound, if_pos hpos, incrementV_counter, pure_bind, bytesOf_ints, pure_bind,
            bytesOf_ints, pure_bind, ecbEncrypt_counter hkey, pure_bind]
        by_cases hfull : xlen > 15
        · rw [if_pos hfull] at hround
          refine Run.returns_loop_continue (hround ▸ Run.returns_pure.mpr rfl) ?_
          have hrest := ih (xlen - 16) (by omega)
            (ret ++ (AES256 key (counterBytes 16 (c + 1))).toList) (c + 1)
          rw [ctrBytes_of_ge AES256 (by decide) (show 16 ≤ xlen by omega),
            blocks_of_ge (by decide) (show 16 ≤ xlen by omega), ← List.append_assoc,
            Nat.add_comm (blocks 16 (xlen - 16)) 1, ← Nat.add_assoc]
          exact hrest
        · rw [if_neg hfull] at hround
          refine Run.returns_loop_continue (hround ▸ Run.returns_pure.mpr rfl)
            (Run.returns_loop_break (Run.returns_pure.mpr ?_))
          rw [ctrBytes_of_le AES256 hpos (by omega), blocks_of_le hpos (by omega)]

/-- `randombytes` answers as the generator in counter mode does. -/
theorem randombytes_returns {s : CtrDrbg} (hkey : s.key.length = 32) (xlen : Nat) :
    (randombytes AES256 xlen (ofCtr s)).Returns
      ((s.generate AES256 32 3 xlen).1, ofCtr (s.generate AES256 32 3 xlen).2) := by
  have hloop := @randombytesLoop_returns AES256 s.key hkey [] xlen s.v
  have hupdate := @aes256CtrDrbgUpdate_eq AES256 none nofun
    { s with v := s.v + blocks 16 xlen, reseedCounter := s.reseedCounter + 1 } hkey
  dsimp only at hupdate
  rw [randombytes, ofCtr]
  dsimp only
  rw [Run.returns_bind]
  refine ⟨_, hloop, ?_⟩
  dsimp only
  rw [hupdate, pure_bind, Run.returns_pure, CtrDrbg.generate, ofCtr, CtrDrbg.reseedCounter_update,
    List.nil_append]

/-! ## Sessions -/

theorem randombytesCalls_returns {s : CtrDrbg} (hkey : s.key.length = 32) (xlens : List Nat) :
    (randombytesCalls AES256 xlens (ofCtr s)).Returns
      ((CtrDrbg.session AES256 32 3 xlens s).map ctrView) := by
  induction xlens generalizing s with
  | nil => exact Run.returns_pure.mpr rfl
  | cons xlen xlens ih =>
      refine Run.returns_bind.mpr ⟨_, randombytes_returns hkey xlen, Run.returns_bind.mpr
        ⟨_, ih (length_update nofun), ?_⟩⟩
      rw [Run.returns_pure, ofCtr_view]
      rfl

/-- A session of Python is the session of the generator in counter mode. -/
theorem drbgSession_returns {entropyInput : List UInt8} (h : entropyInput.length = 48)
    (xlens : List Nat) :
    (drbgSession AES256 (ints entropyInput) xlens).Returns (ctrSession AES256 entropyInput xlens) := by
  have hkey : (CtrDrbg.init AES256 32 3 entropyInput).key.length = 32 :=
    length_update fun data hdata => Option.some.inj hdata ▸ h
  rw [drbgSession, randombytesInit_eq h, pure_bind]
  refine Run.returns_bind.mpr ⟨_, randombytesCalls_returns hkey xlens, ?_⟩
  rw [Run.returns_pure, ofCtr_view]
  rfl

/-- Both programs come to the end of the session, and after each call they have
    returned the same bytes and have the same Key, V and reseed counter. -/
def SessionsAgree (AES256 : BlockFunction 16) (entropyInput : List UInt8) (rs : List Request)
    (ctx : DrbgCtx) : Prop :=
  ∃ views, (Ref.drbgSession AES256 ⟨entropyInput⟩ rs ctx).Returns views ∧
    (drbgSession AES256 (ints entropyInput) (rs.map fun r => r.xlen.toNat)).Returns views

theorem slice_mk {l : List UInt8} {n : Nat} (h : l.length = n) : (Arr.mk l).slice 0 n = l := by
  apply List.ext_getElem (by rw [Arr.length_slice, h])
  intro i _ h2
  rw [Arr.getElem_slice, Arr.get_mk, Nat.zero_add, List.getD_eq_getElem _ _ h2]

theorem sessionsAgree_of_small {entropyInput : List UInt8} (h : entropyInput.length = 48)
    {rs : List Request} (hsmall : SmallSession rs) (ctx : DrbgCtx) :
    SessionsAgree AES256 entropyInput rs ctx := by
  rcases @drbgSession_outcome AES256 ⟨entropyInput⟩ rs ctx with ⟨hreturns, -⟩ | ⟨-, hnot⟩
  · rw [slice_mk h] at hreturns
    exact ⟨_, hreturns, drbgSession_returns h _⟩
  · exact absurd hsmall hnot

theorem not_sessionsAgree {rs : List Request} (hsmall : ¬ SmallSession rs)
    (entropyInput : List UInt8) (ctx : DrbgCtx) : ¬ SessionsAgree AES256 entropyInput rs ctx := by
  rintro ⟨views, hviews, -⟩
  rcases @drbgSession_outcome AES256 ⟨entropyInput⟩ rs ctx with ⟨-, hsmall'⟩ | ⟨hfaults, -⟩
  · exact hsmall hsmall'
  · exact hviews.not_faults hfaults

/-- The generators agree over a session exactly when no request is of 2^31
    bytes or more and there are fewer than 2^31 - 1 of them. -/
theorem sessionsAgree_iff (AES256 : BlockFunction 16) {entropyInput : List UInt8}
    (h : entropyInput.length = 48) (rs : List Request) (ctx : DrbgCtx) :
    SessionsAgree AES256 entropyInput rs ctx ↔ SmallSession rs := by
  constructor
  · intro hagree
    by_contra hsmall
    exact not_sessionsAgree hsmall entropyInput ctx hagree
  · intro hsmall
    exact sessionsAgree_of_small h hsmall ctx

/-- The block function that returns the counter. -/
def echoBlock : BlockFunction 16 := fun _ v => Vector.ofFn fun j : Fin 16 => v.getD j 0

theorem sessionsAgree_iff_threeCalls :
    SessionsAgree echoBlock (List.replicate 48 0xff)
      [⟨Arr.empty, 0⟩, ⟨Arr.empty, 5⟩, ⟨Arr.empty, 40⟩] ⟨Arr.empty, Arr.empty, 0⟩ :=
  (sessionsAgree_iff echoBlock List.length_replicate _ _).mpr ⟨by decide, by decide⟩

/-- One request of 2^31 bytes. -/
theorem not_sessionsAgree_long :
    ¬ SessionsAgree echoBlock (List.replicate 48 0xff) [⟨Arr.empty, 2147483648⟩]
      ⟨Arr.empty, Arr.empty, 0⟩ :=
  not_sessionsAgree (fun h => absurd (h.1 _ List.mem_cons_self) (by decide)) _ _

end Meds.Sage
