/-
  Meds.Ref.SeedExpander

  ref/randombytes.c: `seedexpander_init` and `seedexpander`.

  The expander keeps a block and how far it has been read.  Its counter is the
  last four bytes of `ctr`; the others are the diversifier and `maxlen`.  Calls
  of any lengths read one stream, and never `maxlen` bytes of it: a request for
  all that remains is refused.
-/

import Meds.Core.Sponge
import Meds.Ref.Fips202
import Meds.Ref.Randombytes

namespace Meds.Ref

open Meds.Core

/-- `AES_XOF_struct`. -/
structure AesXof where
  buffer : Arr UInt8
  bufferPos : Nat
  lengthRemaining : Nat
  key : Arr UInt8
  ctr : Arr UInt8

def rngBadMaxlen : Int := -1
def rngBadOutbuf : Int := -2
def rngBadReqLen : Int := -3

section

variable (AES256 : BlockFunction 16)

/-- `seedexpander_init`. -/
def seedexpanderInit (ctx : AesXof) (seed diversifier : Arr UInt8) (maxlen : Nat) : Int × AesXof :=
  if maxlen ≥ 0x100000000 then (rngBadMaxlen, ctx)
  else
    let key := ctx.key.blit 0 (seed.slice 0 32)
    let ctr := ctx.ctr.blit 0 (diversifier.slice 0 8)
    let ctr := ctr.set 11 (UInt8.ofNat (maxlen % 256))
    let maxlen₁ := maxlen >>> 8
    let ctr := ctr.set 10 (UInt8.ofNat (maxlen₁ % 256))
    let maxlen₂ := maxlen₁ >>> 8
    let ctr := ctr.set 9 (UInt8.ofNat (maxlen₂ % 256))
    let maxlen₃ := maxlen₂ >>> 8
    let ctr := ctr.set 8 (UInt8.ofNat (maxlen₃ % 256))
    let ctr := ctr.blit 12 (List.replicate 4 0x00)
    (rngSuccess, ⟨ctx.buffer.blit 0 (List.replicate 16 0x00), 16, maxlen, key, ctr⟩)

/-- `for (int i=15; i>=12; i--)` of "increment the counter": `n` bytes are left
    to look at. -/
def incrementCtr : Nat → Arr UInt8 → Arr UInt8
  | 0, ctr => ctr
  | n + 1, ctr =>
    if ctr.get (12 + n) = 0xff then incrementCtr n (ctr.set (12 + n) 0x00)
    else ctr.set (12 + n) (ctr.get (12 + n) + 1)

/-- The variables of the loop of `seedexpander`. -/
structure ExpandVars where
  ctx : AesXof
  x : Arr UInt8
  xlen : Nat
  offset : Nat

/-- A round of `while ( xlen > 0 )`. -/
def expandRound {ε : Type} (s : ExpandVars) : Run ε (ExpandVars ⊕ (Arr UInt8 × AesXof)) :=
  if s.xlen > 0 then
    let left := 16 - s.ctx.bufferPos
    if s.xlen ≤ left then
      -- buffer has what we need
      pure (.inr (s.x.blit s.offset (s.ctx.buffer.slice s.ctx.bufferPos s.xlen),
        { s.ctx with bufferPos := s.ctx.bufferPos + s.xlen }))
    else
      -- take what's in the buffer
      let x := s.x.blit s.offset (s.ctx.buffer.slice s.ctx.bufferPos left)
      let buffer := s.ctx.buffer.blit 0 (aes256Ecb AES256 s.ctx.key s.ctx.ctr)
      let ctr := incrementCtr 4 s.ctx.ctr
      pure (.inl ⟨{ s.ctx with buffer := buffer, bufferPos := 0, ctr := ctr }, x, s.xlen - left,
        s.offset + left⟩)
  else pure (.inr (s.x, s.ctx))

/-- `seedexpander`; `x` may be a null pointer. -/
def seedexpander {ε : Type} (ctx : AesXof) (x : Option (Arr UInt8)) (xlen : Nat) :
    Run ε (Int × Option (Arr UInt8) × AesXof) :=
  match x with
  | none => pure (rngBadOutbuf, none, ctx)
  | some x =>
    if xlen ≥ ctx.lengthRemaining then pure (rngBadReqLen, some x, ctx)
    else do
      let ctx := { ctx with lengthRemaining := ctx.lengthRemaining - xlen }
      let (x, ctx) ← Run.loop (expandRound AES256) ⟨ctx, x, xlen, 0⟩
      pure (rngSuccess, some x, ctx)

/-- The arguments of a call. -/
structure ExpandRequest where
  x : Option (Arr UInt8)
  xlen : Nat

/-- Calls one after the other: the status of each, and what `x` holds after it. -/
def seedexpanderCalls {ε : Type} : List ExpandRequest → AesXof → Run ε (List (Int × Option (List UInt8)))
  | [], _ => pure []
  | r :: rs, ctx => do
    let (ret, x, ctx) ← seedexpander AES256 ctx r.x r.xlen
    let later ← seedexpanderCalls rs ctx
    pure ((ret, x.map fun x => x.slice 0 r.xlen) :: later)

end

/-! ## What the calls are for -/

/-- Answers from a stream of which `used` bytes have been given: an error leaves
    everything as it is. -/
def streamAnswers (stream : Nat → UInt8) (maxlen : Nat) :
    List ExpandRequest → Nat → List (Int × Option (List UInt8))
  | [], _ => []
  | r :: rs, used =>
    match r.x with
    | none => (rngBadOutbuf, none) :: streamAnswers stream maxlen rs used
    | some x =>
      if used + r.xlen < maxlen then
        (rngSuccess, some (streamSlice stream used r.xlen)) :: streamAnswers stream maxlen rs (used + r.xlen)
      else (rngBadReqLen, some (x.slice 0 r.xlen)) :: streamAnswers stream maxlen rs used

/-- The stream of a seed and a diversifier: the blocks of counters 0, 1, … behind
    the diversifier and `maxlen`. -/
def expanderStream (AES256 : BlockFunction 16) (seed diversifier : Arr UInt8) (maxlen k : Nat) : UInt8 :=
  (AES256 (seed.slice 0 32) (diversifier.slice 0 8 ++ counterBytes 4 maxlen ++ counterBytes 4 (k / 16))).toList.getD
    (k % 16) 0

/-! ## The counter -/

/-- The loop counts in the bytes from index 12 on. -/
theorem view_incrementCtr (n : Nat) (ctr : Arr UInt8) :
    (incrementCtr n ctr).view 12 = incrementV n (ctr.view 12) := by
  induction n generalizing ctr with
  | zero => rfl
  | succ n ih =>
      rw [incrementCtr, incrementV, Arr.get_view]
      split
      · rw [ih, Arr.view_set]
      · rw [Arr.view_set]

theorem get_incrementCtr_of_lt (n : Nat) (ctr : Arr UInt8) {i : Nat} (hi : i < 12) :
    (incrementCtr n ctr).get i = ctr.get i := by
  induction n generalizing ctr with
  | zero => rfl
  | succ n ih =>
      have hne : i ≠ 12 + n := by omega
      rw [incrementCtr]
      split
      · rw [ih, Arr.get_set_ne _ _ hne]
      · rw [Arr.get_set_ne _ _ hne]

theorem slice_incrementCtr {ctr : Arr UInt8} {base : List UInt8} {c : Nat} (hbase : base.length = 12)
    (h : ctr.slice 0 16 = base ++ counterBytes 4 c) :
    (incrementCtr 4 ctr).slice 0 16 = base ++ counterBytes 4 (c + 1) := by
  have hview : ∀ M : Arr UInt8, M.slice 12 4 = (M.view 12).slice 0 4 := fun M =>
    Arr.slice_congr fun i _ => by rw [Arr.get_view, Nat.zero_add]
  have hsplit : ∀ M : Arr UInt8, M.slice 0 16 = M.slice 0 12 ++ M.slice 12 4 :=
    fun M => Arr.slice_add M 0 12 4
  rw [hsplit] at h
  obtain ⟨hfirst, hlast⟩ := List.append_inj h (by rw [Arr.length_slice, hbase])
  have hkeep : (incrementCtr 4 ctr).slice 0 12 = ctr.slice 0 12 :=
    Arr.slice_congr fun i hi => get_incrementCtr_of_lt 4 ctr (by omega)
  rw [hsplit, hkeep, hfirst, hview, view_incrementCtr, slice_incrementV (Nat.le_refl 4), ← hview, hlast,
    ripple_counterBytes]

/-! ## The loop -/

section

variable (AES256 : BlockFunction 16) (key base : List UInt8)

/-- The blocks of the expander: a block, and the counter of the next one. -/
def expander : BlockStream (List UInt8 × Nat) where
  rate := 16
  permute s := ((AES256 key (base ++ counterBytes 4 s.2)).toList, s.2 + 1)
  byteAt s i := s.1.getD i default
  rate_pos := by decide

/-- `ctx` holds a block that was read up to a position, and the counter. -/
structure AesXof.Holds (key base : List UInt8) (ctx : AesXof) (s : (List UInt8 × Nat) × Nat) : Prop where
  buffer : ctx.buffer.slice 0 16 = s.1.1
  ctr : ctx.ctr.slice 0 16 = base ++ counterBytes 4 s.1.2
  key : ctx.key.slice 0 32 = key
  pos : ctx.bufferPos = s.2

variable {AES256 key base}

theorem slice_buffer {ctx : AesXof} {s : List UInt8 × Nat} {pos n : Nat} (h : ctx.Holds key base (s, pos))
    (hle : pos + n ≤ 16) : ctx.buffer.slice pos n = (expander AES256 key base).bytes s pos n := by
  refine List.map_congr_left fun i hi => ?_
  have hi : i < n := List.mem_range.mp hi
  have hget := Arr.getD_slice ctx.buffer 0 16 (pos + i) (by omega)
  rw [h.buffer, Nat.zero_add] at hget
  exact hget.symm

/-- The loop takes the next bytes of the stream, whatever was read before. -/
theorem expandLoop_returns {ε : Type} (hbase : base.length = 12) {ctx : AesXof} {s : List UInt8 × Nat}
    {pos : Nat} (h : ctx.Holds key base (s, pos)) (hpos : pos ≤ 16) (x : Arr UInt8) (xlen offset : Nat) :
    ∃ ctx', (Run.loop (expandRound AES256 (ε := ε)) ⟨ctx, x, xlen, offset⟩).Returns
        (x.blit offset ((expander AES256 key base).squeeze xlen (s, pos)).1, ctx') ∧
      ctx'.Holds key base ((expander AES256 key base).squeeze xlen (s, pos)).2 ∧
      ctx'.lengthRemaining = ctx.lengthRemaining := by
  -- a turn of the buffer takes 16 from `xlen + pos`
  induction hm : xlen + pos using Nat.strong_induction_on generalizing ctx s pos x xlen offset with
  | _ m ih =>
      subst hm
      by_cases hzero : xlen = 0
      · subst hzero
        refine ⟨ctx, Run.returns_loop_break ?_, h, rfl⟩
        rw [expandRound, if_neg (Nat.lt_irrefl 0), Run.returns_pure]
        rfl
      by_cases hleft : xlen ≤ 16 - pos
      · -- the rest of the block is enough
        have hsq := (expander AES256 key base).squeeze_within s (show pos + xlen ≤ 16 by omega)
        refine ⟨{ ctx with bufferPos := ctx.bufferPos + xlen }, Run.returns_loop_break ?_, ?_, rfl⟩
        · rw [expandRound]
          simp only [h.pos]
          rw [if_pos (by omega), if_pos hleft, Run.returns_pure, hsq,
            ← slice_buffer h (show pos + xlen ≤ 16 by omega)]
        · rw [hsq]
          exact ⟨h.buffer, h.ctr, h.key, by rw [h.pos]⟩
      · have hnext : AesXof.Holds key base
            { ctx with
              buffer := ctx.buffer.blit 0 (aes256Ecb AES256 ctx.key ctx.ctr)
              bufferPos := 0
              ctr := incrementCtr 4 ctx.ctr }
            ((expander AES256 key base).permute s, 0) := by
          refine ⟨?_, slice_incrementCtr hbase h.ctr, h.key, rfl⟩
          have hblock : aes256Ecb AES256 ctx.key ctx.ctr
              = (AES256 key (base ++ counterBytes 4 s.2)).toList := by rw [aes256Ecb, h.key, h.ctr]
          have hlen : (aes256Ecb AES256 ctx.key ctx.ctr).length = 16 := Vector.length_toList
          have hblit := Arr.slice_blit ctx.buffer 0 (aes256Ecb AES256 ctx.key ctx.ctr)
          rw [hlen] at hblit
          exact hblit.trans hblock
        obtain ⟨ctx', hloop, hctx', hrem⟩ := ih (xlen - (16 - pos) + 0) (by omega) hnext (by decide)
          (x.blit offset (ctx.buffer.slice pos (16 - pos))) (xlen - (16 - pos)) (offset + (16 - pos)) rfl
        -- the bytes that are left of the block, and then those of the next one
        have hsq : (expander AES256 key base).squeeze xlen (s, pos)
            = (ctx.buffer.slice pos (16 - pos)
                ++ ((expander AES256 key base).squeeze (xlen - (16 - pos))
                    ((expander AES256 key base).permute s, 0)).1,
              ((expander AES256 key base).squeeze (xlen - (16 - pos))
                ((expander AES256 key base).permute s, 0)).2) := by
          have hwithin :=
            (expander AES256 key base).squeeze_within s (show pos + (16 - pos) ≤ 16 by omega)
          have hturn :=
            (expander AES256 key base).squeeze_turn s (show 0 < xlen - (16 - pos) by omega)
          have hfull : pos + (16 - pos) = (expander AES256 key base).rate := Nat.add_sub_cancel' hpos
          conv_lhs => rw [show xlen = 16 - pos + (xlen - (16 - pos)) by omega]
          rw [BlockStream.squeeze_add, hwithin, hfull, hturn, ← slice_buffer h (by omega)]
        refine ⟨ctx', ?_, hsq ▸ hctx', hrem⟩
        rw [hsq, Arr.blit_append, Arr.length_slice]
        refine Run.returns_loop_continue ?_ hloop
        rw [expandRound]
        simp only [h.pos]
        rw [if_pos (by omega), if_neg hleft, Run.returns_pure]

/-! ## The calls -/

theorem iterate_permute (n : Nat) (s : List UInt8 × Nat) :
    (expander AES256 key base).permute^[n + 1] s
      = ((AES256 key (base ++ counterBytes 4 (s.2 + n))).toList, s.2 + n + 1) := by
  induction n with
  | zero => rfl
  | succ n ih =>
      rw [Function.iterate_succ_apply', ih]
      rfl

/-- Calls after `used` bytes of the stream. -/
theorem seedexpanderCalls_returns {ε : Type} (hbase : base.length = 12) {maxlen used : Nat} {ctx : AesXof}
    {s : List UInt8 × Nat} (h : ctx.Holds key base ((expander AES256 key base).after s used))
    (hrem : ctx.lengthRemaining = maxlen - used) (hused : used ≤ maxlen) (rs : List ExpandRequest) :
    (seedexpanderCalls AES256 rs ctx : Run ε _).Returns
      (streamAnswers ((expander AES256 key base).stream s) maxlen rs used) := by
  induction rs generalizing ctx used with
  | nil => exact Run.returns_pure.mpr rfl
  | cons r rs ih =>
      obtain ⟨x, xlen⟩ := r
      cases x with
      | none =>
          exact Run.returns_bind.mpr ⟨_, Run.returns_pure.mpr rfl,
            Run.returns_bind.mpr ⟨_, ih h hrem hused, Run.returns_pure.mpr rfl⟩⟩
      | some x =>
          rw [streamAnswers]
          by_cases hlen : used + xlen < maxlen
          · -- the request is answered
            have hpos := (expander AES256 key base).after_pos_le s used
            have hsq := (expander AES256 key base).squeeze_after s used xlen
            have hctx : AesXof.Holds key base { ctx with lengthRemaining := ctx.lengthRemaining - xlen }
                ((expander AES256 key base).after s used) := ⟨h.buffer, h.ctr, h.key, h.pos⟩
            obtain ⟨⟨block, pos⟩, hafter⟩ :
                ∃ q, (expander AES256 key base).after s used = q := ⟨_, rfl⟩
            rw [hafter] at hpos hsq hctx
            obtain ⟨ctx', hloop, hctx', hrem'⟩ :=
              @expandLoop_returns AES256 key base ε hbase _ _ _ hctx hpos x xlen 0
            rw [hsq] at hloop hctx'
            have hslice := Arr.slice_blit x 0
              (streamSlice ((expander AES256 key base).stream s) used xlen)
            rw [length_streamSlice] at hslice
            have hcall : (seedexpander AES256 ctx (some x) xlen : Run ε _).Returns (rngSuccess,
                some (x.blit 0 (streamSlice ((expander AES256 key base).stream s) used xlen)), ctx') := by
              rw [seedexpander, if_neg (by omega)]
              exact Run.returns_bind.mpr ⟨_, hloop, Run.returns_pure.mpr rfl⟩
            simp only [if_pos hlen]
            refine Run.returns_bind.mpr ⟨_, hcall, Run.returns_bind.mpr
              ⟨_, ih hctx' (by rw [hrem', hrem]; dsimp only; omega) (Nat.le_of_lt hlen), ?_⟩⟩
            rw [Run.returns_pure, Option.map_some, hslice]
          · -- the request is refused
            have hcall : (seedexpander AES256 ctx (some x) xlen : Run ε _).Returns
                (rngBadReqLen, some x, ctx) := by
              rw [seedexpander, if_pos (by omega)]
              exact Run.returns_pure.mpr rfl
            simp only [if_neg hlen]
            exact Run.returns_bind.mpr ⟨_, hcall, Run.returns_bind.mpr
              ⟨_, ih h hrem hused, Run.returns_pure.mpr rfl⟩⟩

end

/-- `maxlen` is written back to front. -/
theorem counterBytes_four (n : Nat) :
    counterBytes 4 n = [UInt8.ofNat (n >>> 8 >>> 8 >>> 8 % 256), UInt8.ofNat (n >>> 8 >>> 8 % 256),
      UInt8.ofNat (n >>> 8 % 256), UInt8.ofNat (n % 256)] := by
  have hmod : ∀ m : Nat, UInt8.ofNat (m % 256) = UInt8.ofNat m := fun m =>
    UInt8.toNat_inj.mp (by simp)
  simp only [counterBytes, hmod, Nat.shiftRight_eq_div_pow]
  rfl

/-- The expander after `seedexpander_init`: a block that has been read to its
    end, and the counter of the first one. -/
theorem seedexpanderInit_holds (ctx : AesXof) (seed diversifier : Arr UInt8) {maxlen : Nat}
    (hmax : maxlen < 2 ^ 32) :
    ∃ ctx', seedexpanderInit ctx seed diversifier maxlen = (rngSuccess, ctx') ∧
      ctx'.Holds (seed.slice 0 32) (diversifier.slice 0 8 ++ counterBytes 4 maxlen)
        ((List.replicate 16 0, 0), 16) ∧ ctx'.lengthRemaining = maxlen := by
  refine ⟨_, by rw [seedexpanderInit, if_neg (by omega)], ⟨?_, ?_, ?_, rfl⟩, rfl⟩
  · have hblit := Arr.slice_blit ctx.buffer 0 (List.replicate 16 (0 : UInt8))
    rwa [List.length_replicate] at hblit
  · -- the diversifier, `maxlen` and a counter of 0
    have hD := Arr.slice_blit ctx.ctr 0 (diversifier.slice 0 8)
    have hzero : ∀ M : Arr UInt8, (M.blit 12 (List.replicate 4 0x00)).slice 12 4 = counterBytes 4 0 :=
      fun M => (Arr.slice_blit M 12 (List.replicate 4 (0x00 : UInt8))).trans (counterBytes_zero 4).symm
    rw [Arr.length_slice] at hD
    rw [Arr.slice_add _ 0 12 4, Arr.slice_add _ 0 8 4, hzero]
    refine congrArg (· ++ counterBytes 4 0) (congrArg₂ (· ++ ·) ?_ ?_)
    · refine (Arr.slice_congr fun i hi => ?_).trans hD
      rw [Arr.get_blit_of_lt _ _ (by omega), Arr.get_set_ne _ _ (by omega), Arr.get_set_ne _ _ (by omega),
        Arr.get_set_ne _ _ (by omega), Arr.get_set_ne _ _ (by omega)]
    · rw [Arr.slice_blit_of_disjoint _ _ _ _ _ (.inl (Nat.le_refl 12)), counterBytes_four]
      simp [Arr.slice, List.range_succ, Arr.get_set]
  · have hblit := Arr.slice_blit ctx.key 0 (seed.slice 0 32)
    rwa [Arr.length_slice] at hblit

/-- Calls on what `seedexpander_init` leaves. -/
theorem initCalls_returns {ε : Type} (AES256 : BlockFunction 16) (ctx : AesXof)
    (seed diversifier : Arr UInt8) {maxlen : Nat} (hmax : maxlen < 2 ^ 32) (rs : List ExpandRequest) :
    (seedexpanderCalls AES256 rs (seedexpanderInit ctx seed diversifier maxlen).2 : Run ε _).Returns
      (streamAnswers (expanderStream AES256 seed diversifier maxlen) maxlen rs 0) := by
  obtain ⟨ctx', hinit, hctx', hrem⟩ := seedexpanderInit_holds ctx seed diversifier hmax
  have hbase : (diversifier.slice 0 8 ++ counterBytes 4 maxlen).length = 12 := by simp
  have hcalls := @seedexpanderCalls_returns AES256 _ _ ε hbase maxlen 0 ctx' (List.replicate 16 0, 0)
    (by rw [BlockStream.after, if_pos rfl]; exact hctx') hrem (Nat.zero_le _) rs
  have hstream : (expander AES256 (seed.slice 0 32)
      (diversifier.slice 0 8 ++ counterBytes 4 maxlen)).stream (List.replicate 16 0, 0) = expanderStream AES256 seed diversifier maxlen := by
    funext k
    have hrate : (expander AES256 (seed.slice 0 32)
      (diversifier.slice 0 8 ++ counterBytes 4 maxlen)).rate = 16 := rfl
    rw [BlockStream.stream, hrate, iterate_permute, Nat.zero_add]
    rfl
  rw [hinit]
  exact hstream ▸ hcalls

/-- Requests within `maxlen`, one after the other, are answered with the stream. -/
theorem streamAnswers_pieces (stream : Nat → UInt8) {maxlen : Nat} (rs : List (Arr UInt8 × Nat))
    {used : Nat} (h : used + (rs.map Prod.snd).sum < maxlen) :
    ∃ pieces : List (List UInt8), streamAnswers stream maxlen (rs.map fun r => ⟨some r.1, r.2⟩) used
        = pieces.map (fun l => (rngSuccess, some l)) ∧
      pieces.flatten = streamSlice stream used (rs.map Prod.snd).sum := by
  induction rs generalizing used with
  | nil => exact ⟨[], rfl, rfl⟩
  | cons r rs ih =>
      rw [List.map_cons, List.sum_cons] at h
      obtain ⟨pieces, hanswers, hflat⟩ := @ih (used + r.2) (by omega)
      refine ⟨streamSlice stream used r.2 :: pieces, ?_, ?_⟩
      · rw [List.map_cons, streamAnswers, List.map_cons, ← hanswers]
        exact if_pos (by dsimp only; omega)
      · rw [List.flatten_cons, hflat, List.map_cons, List.sum_cons, streamSlice_add]

/-- Calls of `seedexpander` after `seedexpander_init`, of any lengths and with
    null pointers among them: together they read the stream, a request that
    would come to `maxlen` bytes is refused, and an error changes nothing. -/
theorem seedexpander_calls {ε : Type} (AES256 : BlockFunction 16) (ctx : AesXof)
    (seed diversifier : Arr UInt8) {maxlen : Nat} (hmax : maxlen < 2 ^ 32) (rs : List ExpandRequest) :
    (seedexpanderInit ctx seed diversifier maxlen).1 = rngSuccess ∧
      (seedexpanderCalls AES256 rs (seedexpanderInit ctx seed diversifier maxlen).2 : Run ε _).Returns
        (streamAnswers (expanderStream AES256 seed diversifier maxlen) maxlen rs 0) := by
  obtain ⟨ctx', hinit, -, -⟩ := seedexpanderInit_holds ctx seed diversifier hmax
  exact ⟨by rw [hinit], initCalls_returns AES256 ctx seed diversifier hmax rs⟩

/-- Under a block function that answers with the counter block, 40 bytes are
    announced.  The last of them is never given. -/
theorem seedexpander_calls_pieces :
    (seedexpanderCalls (fun _ v => Vector.ofFn fun j : Fin 16 => v.getD j 0)
        [⟨some Arr.empty, 5⟩, ⟨none, 3⟩, ⟨some Arr.empty, 14⟩, ⟨some Arr.empty, 21⟩, ⟨some Arr.empty, 20⟩]
        (seedexpanderInit ⟨Arr.empty, 0, 0, Arr.empty, Arr.empty⟩ Arr.empty ⟨[1, 2, 3, 4, 5, 6, 7, 8]⟩ 40).2 :
      Run DrbgFault _).Returns
      [(0, some [1, 2, 3, 4, 5]), (-2, none),
        (0, some [6, 7, 8, 0, 0, 0, 40, 0, 0, 0, 0, 1, 2, 3]),
        (-3, some (List.replicate 21 0)),
        (0, some [4, 5, 6, 7, 8, 0, 0, 0, 40, 0, 0, 0, 1, 1, 2, 3, 4, 5, 6, 7])] :=
  (@seedexpander_calls DrbgFault _ _ _ _ 40 (by decide) _).2

end Meds.Ref
