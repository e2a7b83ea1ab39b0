/-
  Meds.Kat.SageResponses

  The two programs write the same files.

  The script, too, comes to a counted loop over the test cases, and what it has
  signed is opened (`sage_opens`).  A test case is answered by both programs
  with the same bytes, or by neither.
-/

import Meds.Kat.Responses
import Meds.Kat.SageTest
import Meds.Sage.WideCode

namespace Meds.Kat.Sage

open Meds.Core Meds.Ref Meds.Sage

variable {P : Params} {SHAKE256 : Shake} {AES256 : BlockFunction 16}

/-! ## The request file -/

theorem length_key_requestState (i : Nat) : (requestState AES256 i).key.length = 32 := by
  cases i with
  | zero => exact length_update fun data hdata => Option.some.inj hdata ▸ (by decide)
  | succ i => exact length_update nofun

theorem writeRequest_returns (i : Nat) (req : List UInt8) :
    (writeRequest AES256 i (req, ofCtr (requestState AES256 i))).Returns
      (req ++ requestText i (requestSeed AES256 i) (requestMsg AES256 i),
        ofCtr (requestState AES256 (i + 1))) := by
  have hseed : requestSeed AES256 i ≠ [] :=
    List.ne_nil_of_length_pos (by rw [length_requestSeed]; decide)
  have hmsg : requestMsg AES256 i ≠ [] :=
    List.ne_nil_of_length_pos (by rw [length_requestMsg]; omega)
  have hkey : ((requestState AES256 i).generate AES256 32 3 48).2.key.length = 32 := length_update nofun
  refine Run.returns_bind.mpr ⟨_, Meds.Sage.randombytes_returns (length_key_requestState i) 48,
    Run.returns_bind.mpr ⟨_, Meds.Sage.randombytes_returns hkey (33 * (i + 1)), ?_⟩⟩
  rw [Run.returns_pure, requestText, requestFields, emptyFields, fprintBstr_eq_hexLine hseed,
    fprintBstr_eq_hexLine hmsg]
  simp only [requestSeed, requestMsg, requestState, List.append_assoc]

theorem writeRequests_returns (n : Nat) :
    ∃ g, (writeRequests AES256 n).Returns (requestFile AES256 n, g) := by
  have hentropy : List.range 48 = ints entropyInput := by decide
  have hinit := @randombytesInit_eq AES256 entropyInput (by decide)
  obtain ⟨⟨req, g⟩, hloop, hend⟩ := Run.forUpM_returns (f := writeRequest AES256)
    (fun i s => s = (requestFile AES256 i, ofCtr (requestState AES256 i))) (Nat.zero_le n)
    (fun i s _ _ hs => by
      refine ⟨_, hs ▸ writeRequest_returns i _, ?_⟩
      rw [requestFile, requestFile, List.range_succ, List.flatMap_append, List.flatMap_singleton])
    (s := ([], ofCtr (requestState AES256 0))) rfl
  rw [Prod.mk.injEq] at hend
  refine ⟨g, ?_⟩
  rw [writeRequests, hentropy, hinit, pure_bind]
  exact hend.1 ▸ hloop

/-! ## What was signed is opened -/

section

variable [Fact P.p.Prime]

theorem sage_opens (hP : Shared P) (hkp : P.k < P.p) {delta delta' m pk sk sm : List UInt8}
    (hdelta : delta.length = P.secSeedBytes)
    (h : (sageKeypairSign P SHAKE256 delta delta' m).Returns (pk, sk, sm)) :
    (Meds.Sage.cryptoSignOpen P SHAKE256 pk sm).Returns m ∧ pk.length = P.pkBytes ∧
      sk.length = P.skBytes ∧ sm.length = P.sigBytes + m.length := by
  unfold sageKeypairSign at h
  obtain ⟨⟨sk', pk'⟩, hkey, h⟩ := Run.returns_bind.mp h
  obtain ⟨sm', hsign, h⟩ := Run.returns_bind.mp h
  rw [Run.returns_pure, Prod.mk.injEq, Prod.mk.injEq] at h
  obtain ⟨rfl, rfl, rfl⟩ := h
  -- the C program makes the same keys and signs alike
  obtain ⟨⟨ret, pkArr, skArr⟩, hkeyC, -, hpk, hsk⟩ :=
    (cryptoSignKeypair_matches (ε := Fault) hP hkp hdelta Arr.empty Arr.empty).exists_of_returns hkey
  dsimp only at hpk hsk
  have hpklen : pk.length = P.pkBytes := hpk ▸ Arr.length_slice _ _ _
  have hsklen : sk.length = P.skBytes := hsk ▸ Arr.length_slice _ _ _
  obtain ⟨⟨smArr, smlen⟩, hsignC, hsm⟩ :=
    (cryptoSign_matches hP hkp (fun _ => Arr.empty) delta' Arr.get_empty m hsklen).exists_of_returns hsign
  rw [← hsk] at hsignC
  obtain ⟨-, _, _, _, _, _, _, _, _, _, _, hS⟩ := signed_of_returns hP.toValid hP.eight_le hkeyC hsignC
  have hsmlen : sm.length = P.sigBytes + m.length := by
    rw [← hsm, Arr.length_slice]
    exact hS.length
  obtain ⟨-, hopen⟩ := signed_opens hP.toValid hP.eight_le hkeyC hsignC (fun _ => Arr.empty) Arr.empty 0
  rw [hpk, hsm] at hopen
  have hverdict := SameVerdict.of_matches (@cryptoSignOpen_matches P SHAKE256 _ hP hkp _ _ hpklen
    (hsmlen ▸ Nat.le_add_right _ _) (fun _ => Arr.empty) Arr.empty 0)
  exact ⟨(hverdict.accepts m).mp ⟨_, hopen, Arr.slice_blit _ _ _⟩, hpklen, hsklen, hsmlen⟩

end

/-! ## A test case -/

/-- Neither key is empty. -/
theorem keys_pos (hP : Shared P) : 0 < P.pkBytes ∧ 0 < P.skBytes := by
  have hs := hP.two_le_s
  have hn := hP.two_le_n
  have hw := hP.gfqBits_pos
  have hpk : 0 < byteLen (P.gfqBits * pkCoeffs P) * (P.s - 1) := by
    have hle : P.n ≤ pkCoeffs P := Nat.le_add_right _ _
    exact Nat.mul_pos (byteLen_pos (Nat.mul_pos hw (by omega))) (by omega)
  have hsk : 0 < byteLen (P.gfqBits * (P.n * P.n)) * (P.s - 1) :=
    Nat.mul_pos (byteLen_pos (Nat.mul_pos hw (Nat.mul_pos (by omega) (by omega)))) (by omega)
  have hpkeq := hP.sized.pkBytes_eq
  have hskeq := hP.sized.skBytes_eq
  omega

/-- A name without a value. -/
theorem readField_empty {c d : UInt8} {a : List UInt8} (hc : isSpace c = false) (hd : isSpace d = false)
    (hline : newline ∉ c :: a ++ [d]) (rest : List UInt8) :
    readField (c :: a ++ [d] ++ newline :: rest) (c :: a ++ [d]) = pure ([], rest) := by
  rw [readField, readline_line hline]
  have hstrip := strip_line hc a (l := [d]) (List.cons_ne_nil _ _)
    (fun x hx => List.mem_singleton.mp hx ▸ hd)
  simp only [hstrip]
  have h := removePrefix_append (c :: a ++ [d]) []
  rw [List.append_nil] at h
  rw [h, pure_bind]

/-- The script reads a test case back. -/
theorem readField_hex {c : UInt8} {a : List UInt8} (hc : isSpace c = false) (ha : newline ∉ c :: a)
    {data : List UInt8} (hne : data ≠ []) (rest : List UInt8) :
    readField (fprintBstr (c :: a) data ++ rest) (c :: a) = pure (data.flatMap hex2, rest) := by
  rw [fprintBstr, if_neg hne]
  simp only [List.append_assoc, List.singleton_append]
  exact readField_line hc ha (hex2_ne_nil hne) (fun x hx => isSpace_of_mem_hex hx) rest

theorem skipFields_emptyFields (rest : List UInt8) : skipFields (emptyFields ++ rest) = pure rest := by
  have hname : ∀ {c d : UInt8} {a : List UInt8} (name : String), text name = c :: a ++ [d] →
      isSpace c = false → isSpace d = false → newline ∉ c :: a ++ [d] → ∀ rest,
      readField (text name ++ newline :: rest) (text name) = pure ([], rest) := by
    intro c d a name hname hc hd hline rest
    rw [hname]
    exact readField_empty hc hd hline rest
  have hfields : emptyFields = text "pk =" ++ newline :: (text "sk =" ++ newline ::
      (text "smlen =" ++ newline :: (text "sm =" ++ newline :: [newline]))) := by decide
  rw [skipFields, hfields]
  simp only [List.append_assoc, List.cons_append, List.nil_append]
  rw [hname (c := 112) (d := 61) (a := [107, 32]) "pk =" (by decide) (by decide) (by decide) (by decide),
    pure_bind]
  dsimp only
  rw [hname (c := 115) (d := 61) (a := [107, 32]) "sk =" (by decide) (by decide) (by decide) (by decide),
    pure_bind]
  dsimp only
  rw [hname (c := 115) (d := 61) (a := [109, 108, 101, 110, 32]) "smlen =" (by decide) (by decide)
    (by decide) (by decide), pure_bind]
  dsimp only
  rw [hname (c := 115) (d := 61) (a := [109, 32]) "sm =" (by decide) (by decide) (by decide) (by decide),
    pure_bind]
  rfl

/-- What the script reads of a test case: a step for each line. -/
structure Reads (i : Nat) (seed msg rest req F₁ F₂ F₃ : List UInt8) : Prop where
  count : readline req = (text "count = " ++ decimal i ++ [newline], F₁)
  seed : readField F₁ (text "seed = ") = pure (seed.flatMap hex2, F₂)
  mlen : readField F₂ (text "mlen = ") = pure (decimal msg.length, F₃)
  msg : readField F₃ (text "msg = ") = pure (msg.flatMap hex2, emptyFields ++ rest)

theorem reads_request {i : Nat} {seed msg : List UInt8} (hseed : seed ≠ []) (hmsg : msg ≠ [])
    (hlen : msg.length = 33 * (i + 1)) (rest : List UInt8) :
    ∃ F₁ F₂ F₃, Reads i seed msg rest (requestFields i seed msg ++ (emptyFields ++ rest)) F₁ F₂ F₃ := by
  have hcount : newline ∉ text "count = " ++ decimal i :=
    newline_notMem_field (by decide) (newline_notMem_decimal i)
  have h₁ := readline_line hcount (fprintBstr (text "seed = ") seed ++ (text "mlen = " ++
    (decimal msg.length ++ newline :: (fprintBstr (text "msg = ") msg ++ (emptyFields ++ rest)))))
  have h₂ := readField_hex (a := text "eed = ") (show isSpace 115 = false by decide) (by decide) hseed
    (text "mlen = " ++ (decimal msg.length ++ newline :: (fprintBstr (text "msg = ") msg ++
      (emptyFields ++ rest))))
  have h₃ := readField_line (a := text "len = ") (show isSpace 109 = false by decide) (by decide)
    (decimal_ne_nil msg.length) (fun x hx => isSpace_of_mem_decimal hx)
    (fprintBstr (text "msg = ") msg ++ (emptyFields ++ rest))
  have h₄ := readField_hex (a := text "sg = ") (show isSpace 109 = false by decide) (by decide) hmsg
    (emptyFields ++ rest)
  rw [show 115 :: text "eed = " = text "seed = " by decide] at h₂
  rw [show 109 :: text "len = " = text "mlen = " by decide] at h₃
  rw [show 109 :: text "sg = " = text "msg = " by decide] at h₄
  refine ⟨_, _, _, ?_, h₂, h₃, h₄⟩
  rw [← h₁, requestFields, ← hlen]
  simp only [List.append_assoc, List.cons_append, List.nil_append]

section

variable [Fact P.p.Prime]

/-- What two requests of `len` bytes take from the generator of a test case. -/
theorem draws_returns {seed : List UInt8} (hseed : seed.length = 48) (len : Nat) :
    let g := CtrDrbg.init AES256 32 3 seed
    let g' := (g.generate AES256 32 3 len).2
    (Meds.Sage.randombytes AES256 len (ofCtr g)).Returns ((g.generate AES256 32 3 len).1, ofCtr g') ∧
      (Meds.Sage.randombytes AES256 len (ofCtr g')).Returns
        ((g'.generate AES256 32 3 len).1, ofCtr (g'.generate AES256 32 3 len).2) := by
  have hkey₁ : (CtrDrbg.init AES256 32 3 seed).key.length = 32 :=
    length_update fun data hdata => Option.some.inj hdata ▸ hseed
  have hkey₂ : ((CtrDrbg.init AES256 32 3 seed).generate AES256 32 3 len).2.key.length = 32 :=
    length_update nofun
  exact ⟨Meds.Sage.randombytes_returns hkey₁ len, Meds.Sage.randombytes_returns hkey₂ len⟩

/-- A test case ends with its keys and its signed message in the response file,
    and the next one is read. -/
theorem scriptRound_alike (hP : Shared P) (hkp : P.k < P.p) {i : Nat} {seed msg rest : List UInt8}
    (hseed : seed.length = 48) (hmsg : msg.length = 33 * (i + 1)) {s : ScriptVars}
    (hreq : s.req = requestFields i seed msg ++ (emptyFields ++ rest)) :
    Run.Matches
      (Run.Alike fun r a => ∃ s', r = .inl s' ∧ s'.req = rest ∧
        s'.rsp = s.rsp ++ requestFields i seed msg ++ answerText a)
      (scriptRound P SHAKE256 AES256 s)
      (Run.mapFault .meds
        (sageKeypairSign P SHAKE256 (keypairDelta P AES256 seed) (signDelta P AES256 seed) msg)) := by
  have hseedne : seed ≠ [] := List.ne_nil_of_length_pos (by omega)
  have hmsgne : msg ≠ [] := List.ne_nil_of_length_pos (by omega)
  obtain ⟨F₁, F₂, F₃, hread⟩ := reads_request hseedne hmsgne hmsg rest
  rw [← hreq] at hread
  have hcount : strip (text "count = " ++ decimal i ++ [newline]) = text "count = " ++ decimal i :=
    strip_countLineOf i
  have hne : text "count = " ++ decimal i ≠ [] :=
    List.append_ne_nil_of_right_ne_nil _ (decimal_ne_nil i)
  -- the generator of the test case
  obtain ⟨hdraw₁, hdraw₂⟩ := @draws_returns AES256 seed hseed P.secSeedBytes
  simp only [scriptRound, hread.count, hcount, if_neg hne, removePrefix_append, pure_bind, intOf_decimal,
    hread.seed, unhexlify_hex, Run.ofOption_some, randombytesInit_eq hseed, Run.mapFault_pure, hread.mlen,
    hread.msg, decimalInt_natCast]
  refine Run.Matches.congr_left ?_ ((Run.returns_mapFault.mpr hdraw₁).bind_equiv _)
  simp only [sageKeypairSign, Run.mapFault_bind]
  apply ((Run.Matches.alike_self _).mapFault ScriptError.meds).bind_alike
  rintro ⟨sk, pk⟩ _ ⟨hkey, rfl⟩
  refine Run.Matches.congr_left ?_ ((Run.returns_mapFault.mpr hdraw₂).bind_equiv _)
  apply ((Run.Matches.alike_self _).mapFault ScriptError.meds).bind_alike
  rintro sm _ ⟨hsign, rfl⟩
  -- what was signed is opened
  obtain ⟨hopen, hpk, hsk, hsm⟩ := sage_opens hP hkp (length_keypairDelta seed)
    (Run.returns_bind.mpr ⟨_, hkey, Run.returns_bind.mpr ⟨_, hsign, Run.returns_pure.mpr rfl⟩⟩)
  have hpkne : pk ≠ [] := List.ne_nil_of_length_pos (hpk ▸ (keys_pos hP).1)
  have hskne : sk ≠ [] := List.ne_nil_of_length_pos (hsk ▸ (keys_pos hP).2)
  have hsmne : sm ≠ [] := List.ne_nil_of_length_pos (by omega)
  refine Run.Matches.congr_left ?_ ((Run.returns_mapFault.mpr hopen).bind_equiv _)
  simp only [ne_eq, not_true, if_false, skipFields_emptyFields, pure_bind]
  refine Run.Matches.alike ⟨_, rfl, rfl, ?_⟩
  simp only [requestFields, answerText, fprintBstr_eq_hexLine hseedne, fprintBstr_eq_hexLine hmsgne,
    fprintBstr_eq_hexLine hpkne, fprintBstr_eq_hexLine hskne, fprintBstr_eq_hexLine hsmne, hmsg,
    List.append_assoc]

/-! ## The loop -/

/-- The keys and the signed message of test case `i`. -/
def answerCase (P : Params) [Fact P.p.Prime] (SHAKE256 : Shake) (AES256 : BlockFunction 16) (i : Nat) :
    Run ScriptError (List UInt8 × List UInt8 × List UInt8) :=
  Run.mapFault .meds
    (sageKeypairSign P SHAKE256 (keypairDelta P AES256 (requestSeed AES256 i))
      (signDelta P AES256 (requestSeed AES256 i)) (requestMsg AES256 i))

/-- The script, too, writes the request file and the keys and the signed message
    of every test case; no assertion fails. -/
theorem script_equiv (hP : Shared P) (hkp : P.k < P.p) (name : List UInt8) (n : Nat) :
    (main P SHAKE256 AES256 name n).Equiv
      (responses AES256 name n (answerCase P SHAKE256 AES256) >>= fun rsp =>
        pure (requestFile AES256 n, rsp)) := by
  obtain ⟨g, hw⟩ := @writeRequests_returns AES256 n
  refine Run.Equiv.trans ((Run.returns_mapFault.mpr hw).bind_equiv _) ?_
  apply Run.Matches.equiv
  -- the next test case of the request file is answered and its lines are consumed
  have hround : ∀ i (s : ScriptVars) rsp, i < n → (s.rsp = rsp ∧ s.req = requestsFrom AES256 n i) →
      Run.Matches
        (Run.Alike fun r rsp' => ∃ s', r = .inl s' ∧
          (s'.rsp = rsp' ∧ s'.req = requestsFrom AES256 n (i + 1)))
        (scriptRound P SHAKE256 AES256 s)
        (answerCase P SHAKE256 AES256 i >>= fun a =>
          pure (rsp ++ requestFields i (requestSeed AES256 i) (requestMsg AES256 i) ++ answerText a)) := by
    rintro i s _ hi ⟨rfl, hreq⟩
    rw [requestsFrom_of_lt hi] at hreq
    apply (scriptRound_alike hP hkp (length_requestSeed i) (length_requestMsg i) hreq).map_right
    intro r r' hr
    cases hr with
    | faults e => exact .faults e
    | values hr =>
        obtain ⟨s', rfl, hreq', hrsp'⟩ := hr
        exact .values ⟨s', rfl, hrsp', hreq'⟩
  -- behind the last test case the next line is empty and the script stops
  have hlast : ∀ (s : ScriptVars) rsp, (s.rsp = rsp ∧ s.req = requestsFrom AES256 n n) →
      ∃ a, scriptRound P SHAKE256 AES256 s = pure (.inr a) ∧ a = rsp := by
    rintro s _ ⟨rfl, hreq⟩
    rw [requestsFrom_self] at hreq
    refine ⟨_, ?_, rfl⟩
    rw [scriptRound, hreq]
    rfl
  have hloop := Run.Matches.loop_forUpM _ hround hlast (Nat.zero_le n)
    (s := ⟨requestFile AES256 n, text "# " ++ name ++ text "\n\n", g⟩) ⟨rfl, requestFile_eq n⟩
  apply hloop.bind_alike
  rintro rsp _ rfl
  exact Run.Matches.alike rfl

/-! ## Both programs -/

omit [Fact P.p.Prime] in
theorem length_signDelta (seed : List UInt8) : (signDelta P AES256 seed).length = P.secSeedBytes :=
  length_ctrBytes AES256 (by decide) _ _ _

theorem answerCase_matches (hP : Shared P) (hkp : P.k < P.p) (stack : Int → Stack) (pk sk : Arr UInt8)
    (i : Nat) :
    Run.Matches (Run.Values Eq) (Kat.answerCase P SHAKE256 AES256 stack pk sk i)
      (answerCase P SHAKE256 AES256 i) :=
  (signersAgree_of_lt hP hkp SHAKE256 _ _ _ _ pk sk _ (length_keypairDelta _) (length_signDelta _)
    fun _ => Arr.get_replicate ..).mapFault_left.mapFault_right

theorem responses_match (hP : Shared P) (hkp : P.k < P.p) (name : List UInt8) (n : Nat)
    (stack : Int → Stack) (pk sk : Arr UInt8) :
    Run.Matches (Run.Values Eq) (responses AES256 name n (Kat.answerCase P SHAKE256 AES256 stack pk sk))
      (responses AES256 name n (answerCase P SHAKE256 AES256)) := by
  refine Run.Matches.forUpM_values (fun _ => Eq) (Nat.zero_le n) ?_ rfl
  rintro i rsp _ - - rfl
  apply (answerCase_matches hP hkp stack pk sk i).bind_values
  rintro a _ rfl
  exact Run.Matches.values rfl

/-- Both programs write the same request file and the same response file, or
    neither comes to an end. -/
theorem mains_match (hP : Shared P) (hkp : P.k < P.p) (hsec : P.secSeedBytes ≤ intMax) {n : Nat}
    (hn : n ≤ 100) (name : List UInt8) (stack : Int → Stack) (msg : Arr UInt8) (s : MainVars) :
    Run.Matches (Run.Values fun r r' => r = (r'.1, ⟨KAT_SUCCESS, r'.2⟩))
      (Kat.main P SHAKE256 AES256 name n stack msg s) (main P SHAKE256 AES256 name n) := by
  have hmatch : Run.Matches (Run.Values fun r r' => r = (r'.1, ⟨KAT_SUCCESS, r'.2⟩))
      (responses AES256 name n (Kat.answerCase P SHAKE256 AES256 stack s.pk s.sk) >>= fun rsp =>
        (pure (requestFile AES256 n, ⟨KAT_SUCCESS, rsp⟩) : Run KatFault (List UInt8 × MainEnd)))
      (responses AES256 name n (answerCase P SHAKE256 AES256) >>= fun rsp =>
        (pure (requestFile AES256 n, rsp) : Run ScriptError _)) := by
    apply (responses_match hP hkp name n stack s.pk s.sk).bind_values
    rintro rsp _ rfl
    exact Run.Matches.values rfl
  have hmain := @Kat.main_alike P SHAKE256 AES256 hP.toValid hP.eight_le hsec n hn name stack msg s
    s.pk s.sk
  exact ((hmatch.congr_left hmain.equiv).symm.congr_left (script_equiv hP hkp name n)).symm

end

theorem mains_match_two :
    Run.Matches (Run.Values fun r r' => r = (r'.1, ⟨KAT_SUCCESS, r'.2⟩))
      (Kat.main (rows257 2) toyShake echoBlock (text "two") 2 toyStack Arr.empty toyVars)
      (main (rows257 2) toyShake echoBlock (text "two") 2) :=
  mains_match (rows257_shared (Nat.le_refl 2)) (by decide) (by decide) (by decide) _ _ _ _

end Meds.Kat.Sage
