/-
  Meds.Kat.Requests

  The request file: what is written, and that the test cases are read back.

  Between two test cases the file has the empty fields of the first, and none
  of their bytes starts a marker, so `FindMarker` goes to the next count.
-/

import Meds.Kat.Test
import Meds.Sage.KatMain
import Meds.Sage.Randombytes

namespace Meds.Kat

open Meds.Core Meds.Ref

/-! ## Numbers -/

theorem isDigit_decimal {n : Nat} {x : UInt8} (h : x ∈ decimal n) : isDigit x = true := by
  obtain ⟨h1, h2⟩ := Meds.Sage.mem_decimal h
  simp [isDigit, h1, h2]

/-- `fscanf` reads a number up to the line break behind it. -/
theorem fscanfInt_decimal (n : Nat) (rest : List UInt8) :
    fscanfInt (decimal n ++ newline :: rest) = (some (n : Int), newline :: rest) := by
  obtain ⟨x, l, hl⟩ := List.exists_cons_of_ne_nil (Meds.Sage.decimal_ne_nil n)
  obtain ⟨h1, h2⟩ := Meds.Sage.mem_decimal (show x ∈ decimal n by rw [hl]; exact List.mem_cons_self)
  have hspace : (decimal n ++ newline :: rest).dropWhile isSpace = decimal n ++ newline :: rest := by
    rw [hl, List.cons_append, List.dropWhile_cons_of_neg]
    simp [isSpace]
    omega
  have hhead : (decimal n ++ newline :: rest).head? = some x := by rw [hl]; rfl
  have hne : ∀ y : UInt8, y.toNat < 48 → ¬ (some x = some y) := by
    intro y hy h
    rw [Option.some.inj h] at h1
    omega
  have htake : (decimal n ++ newline :: rest).takeWhile isDigit = decimal n := by
    rw [List.takeWhile_append_of_pos fun y hy => isDigit_decimal hy, List.takeWhile_cons_of_neg (by decide),
      List.append_nil]
  have hdrop : (decimal n ++ newline :: rest).dropWhile isDigit = newline :: rest := by
    rw [List.dropWhile_append_of_pos fun y hy => isDigit_decimal hy, List.dropWhile_cons_of_neg (by decide)]
  rw [fscanfInt]
  simp only [hspace, hhead, if_neg (not_or.mpr ⟨hne 45 (by decide), hne 43 (by decide)⟩), htake, hdrop,
    if_neg (Meds.Sage.decimal_ne_nil n), if_neg (hne 45 (by decide)), Meds.Sage.digitsValue_decimal]

@[simp] theorem decimalInt_natCast (n : Nat) : decimalInt n = decimal n := by
  rw [decimalInt, if_neg (by omega), Int.toNat_natCast]

/-! ## What the generator draws -/

section

variable (AES256 : BlockFunction 16)

/-- The generator before test case `i` is drawn. -/
def requestState : Nat → CtrDrbg
  | 0 => CtrDrbg.init AES256 32 3 entropyInput
  | i + 1 =>
    (((requestState i).generate AES256 32 3 48).2.generate AES256 32 3 (33 * (i + 1))).2

/-- The seed of test case `i`. -/
def requestSeed (i : Nat) : List UInt8 := ((requestState AES256 i).generate AES256 32 3 48).1

/-- The message of test case `i`. -/
def requestMsg (i : Nat) : List UInt8 :=
  (((requestState AES256 i).generate AES256 32 3 48).2.generate AES256 32 3 (33 * (i + 1))).1

end

/-- What a test case asks for. -/
def requestFields (i : Nat) (seed msg : List UInt8) : List UInt8 :=
  (text "count = " ++ decimal i ++ [newline]) ++ fprintBstr (text "seed = ") seed
    ++ (text "mlen = " ++ decimal (33 * (i + 1)) ++ [newline]) ++ fprintBstr (text "msg = ") msg

/-- The fields that are left to the response file. -/
def emptyFields : List UInt8 := text "pk =\n" ++ text "sk =\n" ++ text "smlen =\n" ++ text "sm =\n\n"

/-- A test case of the request file. -/
def requestText (i : Nat) (seed msg : List UInt8) : List UInt8 := requestFields i seed msg ++ emptyFields

/-- The request file of `n` test cases. -/
def requestFile (AES256 : BlockFunction 16) (n : Nat) : List UInt8 :=
  (List.range n).flatMap fun i => requestText i (requestSeed AES256 i) (requestMsg AES256 i)

variable {AES256 : BlockFunction 16}

theorem length_requestSeed (i : Nat) : (requestSeed AES256 i).length = 48 :=
  length_ctrBytes AES256 (by decide) _ _ _

theorem length_requestMsg (i : Nat) : (requestMsg AES256 i).length = 33 * (i + 1) :=
  length_ctrBytes AES256 (by decide) _ _ _

theorem reseedCounter_requestState (i : Nat) :
    (requestState AES256 i).reseedCounter = 1 + 2 * i := by
  induction i with
  | zero => rfl
  | succ i ih =>
      rw [requestState, CtrDrbg.reseedCounter_generate, CtrDrbg.reseedCounter_generate, ih]
      omega

/-! ## Writing -/

theorem writeRequest_returns {i : Nat} (hi : i < 100) {s : WriteVars}
    (hs : s.ctx.Holds (requestState AES256 i)) :
    ∃ s', (writeRequest AES256 i s).Returns s' ∧ s'.ctx.Holds (requestState AES256 (i + 1)) ∧
      s'.req = s.req ++ requestText i (requestSeed AES256 i) (requestMsg AES256 i) := by
  have hmax : intMax = 2 ^ 31 - 1 := rfl
  have hcount := @reseedCounter_requestState AES256 i
  have hlen : (UInt64.ofNat (33 * (i + 1))).toNat = 33 * (i + 1) := by
    rw [UInt64.toNat_ofNat']
    omega
  obtain ⟨seed, ctx₁, h₁, hseed, hctx₁⟩ := @randombytes_returns AES256 _ _ hs s.seed 48 (by decide)
    (by omega)
  obtain ⟨msg, ctx₂, h₂, hmsg, hctx₂⟩ := @randombytes_returns AES256 _ _ hctx₁ s.msg
    (UInt64.ofNat (33 * (i + 1))) (by rw [hlen]; omega)
    (by rw [CtrDrbg.reseedCounter_generate]; omega)
  rw [hlen] at hmsg hctx₂
  have hroom : 33 * (i + 1) ≤ msgSize := by
    unfold msgSize
    omega
  have hdraw : (drawMsg AES256 s.msg (33 * (i + 1)) ctx₁).Returns (rngSuccess, msg, ctx₂) := by
    rw [drawMsg, if_pos hroom]
    exact Run.returns_mapFault.mpr h₂
  refine ⟨_, Run.returns_bind.mpr ⟨_, Run.returns_mapFault.mpr h₁, Run.returns_bind.mpr
    ⟨_, hdraw, Run.returns_pure.mpr rfl⟩⟩, hctx₂, ?_⟩
  have hseed' : seed.slice 0 48 = requestSeed AES256 i := hseed
  have hmsg' : msg.slice 0 (33 * (i + 1)) = requestMsg AES256 i := hmsg
  simp only [hseed', hmsg', requestText, requestFields, emptyFields, List.append_assoc]

/-- The request file. -/
theorem writeRequests_returns {n : Nat} (hn : n ≤ 100) (seed msg : Arr UInt8) (ctx : DrbgCtx) :
    ∃ w, (writeRequests AES256 n seed msg ctx).Returns w ∧ w.req = requestFile AES256 n := by
  have hinit := @randombytesInit_holds AES256 ⟨entropyInput⟩ 256 ctx
  rw [Meds.Sage.slice_mk (by decide : entropyInput.length = 48)] at hinit
  obtain ⟨w, hw, -, hreq⟩ := Run.forUpM_returns
    (f := writeRequest AES256)
    (fun i (s : WriteVars) => s.ctx.Holds (requestState AES256 i) ∧ s.req = requestFile AES256 i)
    (Nat.zero_le n)
    (fun i s _ hi hI => by
      obtain ⟨s', hs', hctx, hreq⟩ := writeRequest_returns (by omega) hI.1
      refine ⟨s', hs', hctx, ?_⟩
      rw [hreq, hI.2, requestFile, requestFile, List.range_succ, List.flatMap_append,
        List.flatMap_singleton])
    (s := ⟨[], seed, msg, randombytesInit AES256 ⟨entropyInput⟩ none 256 ctx⟩) ⟨hinit, rfl⟩
  exact ⟨w, hw, hreq⟩

/-! ## Reading -/

theorem findMarker_none {m : List UInt8} {c : UInt8} {infile : List UInt8} (h : c ∉ infile) :
    findMarker infile (c :: m) = none := by
  cases hfound : findMarker infile (c :: m) with
  | none => rfl
  | some rest =>
      obtain ⟨pre, hfirst, -⟩ := (findMarker_eq _ _ _).mp hfound
      refine absurd ?_ h
      rw [hfirst]
      exact List.mem_append_left _ (List.mem_append_right _ List.mem_cons_self)

/-- The loop ends where there is no further count. -/
theorem readCase_end {s : MainVars} (h : 99 ∉ s.req) : readCase s = .inl ⟨KAT_SUCCESS, s.rsp⟩ := by
  have hmarker : text "count = " = 99 :: text "ount = " := by decide
  rw [readCase, hmarker, findMarker_none h]

/-- What `%llu` stores. -/
theorem toNat_stored {n : Nat} (h : n ≤ intMax) : ((n : Int) % 2 ^ 64).toNat = n := by
  have hmax : intMax = 2 ^ 31 - 1 := rfl
  omega

/-- A test case is read back, and its fields are copied to the response file. -/
theorem readCase_request {i : Nat} {seed msg junk rest : List UInt8} (hjunk : 99 ∉ junk)
    (hseed : seed.length = 48) (hmsg : msg.length = 33 * (i + 1)) (hlen : msg.length ≤ intMax)
    {s : MainVars} (hreq : s.req = junk ++ (requestFields i seed msg ++ rest)) :
    ∃ seed' m, readCase s
        = .inr ⟨rest, s.rsp ++ requestFields i seed msg, i, seed', msg.length, m⟩ ∧
      seed'.slice 0 48 = seed ∧ m.slice 0 msg.length = msg := by
  -- each marker is found by its first byte
  have hcount : text "count = " = 99 :: text "ount = " := by decide
  have hseedMarker : text "seed = " = 115 :: text "eed = " := by decide
  have hmlen : text "mlen = " = 109 :: text "len = " := by decide
  have hmsgMarker : text "msg = " = 109 :: text "sg = " := by decide
  have h₁ := @findMarker_behind junk 99 (text "ount = ") hjunk (by decide) (decimal i ++ newline ::
    (fprintBstr (text "seed = ") seed ++ ((text "mlen = " ++ decimal (33 * (i + 1)) ++ [newline])
      ++ fprintBstr (text "msg = ") msg ++ rest)))
  obtain ⟨seed', h₂, hseed'⟩ := @readHex_fprintBstr [newline] (text "eed = ") seed 115 (by decide)
    (by decide) (List.ne_nil_of_length_pos (by omega))
    ((text "mlen = " ++ decimal (33 * (i + 1)) ++ [newline]) ++ fprintBstr (text "msg = ") msg ++ rest)
    s.seed
  have h₃ := @findMarker_behind [] 109 (text "len = ") (by decide) (by decide)
    (decimal (33 * (i + 1)) ++ newline :: (fprintBstr (text "msg = ") msg ++ rest))
  obtain ⟨m, h₄, hm⟩ := @readHex_fprintBstr [newline] (text "sg = ") msg 109 (by decide) (by decide)
    (List.ne_nil_of_length_pos (by omega)) rest (Arr.replicate msg.length 0)
  rw [← hcount] at h₁
  rw [← hseedMarker, hseed] at h₂
  rw [← hmlen] at h₃
  rw [← hmsgMarker] at h₄
  rw [hseed] at hseed'
  rw [← hmsg] at h₁ h₂ h₃
  have hstored := toNat_stored hlen
  simp only [List.append_assoc, List.cons_append, List.nil_append] at h₁ h₂ h₃ h₄
  refine ⟨seed', m, ?_, hseed', hm⟩
  rw [readCase, hreq, requestFields, ← hmsg]
  simp only [List.append_assoc, List.cons_append, List.nil_append, h₁, fscanfInt_decimal, h₂, h₃,
    Option.map_some, Option.getD_some, hstored, h₄, hseed', hm, decimalInt_natCast]

end Meds.Kat
