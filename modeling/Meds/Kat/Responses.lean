/-
  Meds.Kat.Responses

  The response file: the keys and the signed message of every test case, and
  nothing that the program had in memory before.

  The loop over the request file comes to the same as a counted loop over the
  test cases (`main_equiv`): each test case is found and read, and what was
  signed is opened again, so `main` never stops at a test case.
-/

import Meds.Kat.Requests
import Meds.Ref.SignedOpens
import Meds.Sage.SignAgree

namespace Meds.Kat

open Meds.Core Meds.Ref

/-! ## The file -/

/-- The keys and the signed message of a test case. -/
def answerText (a : List UInt8 × List UInt8 × List UInt8) : List UInt8 :=
  fprintBstr (text "pk = ") a.1 ++ fprintBstr (text "sk = ") a.2.1
    ++ (text "smlen = " ++ decimal a.2.2.length ++ [newline]) ++ fprintBstr (text "sm = ") a.2.2
    ++ [newline]

/-- The response file of test cases with seeds, messages and answers. -/
def responseFile (name : List UInt8) (n : Nat) (seed msg : Nat → List UInt8)
    (a : Nat → List UInt8 × List UInt8 × List UInt8) : List UInt8 :=
  text "# " ++ name ++ text "\n\n"
    ++ (List.range n).flatMap fun i => requestFields i (seed i) (msg i) ++ answerText (a i)

section

variable (P : Params) (SHAKE256 : Shake) (AES256 : BlockFunction 16)

/-- What key generation draws where `seed` starts the generator. -/
def keypairDelta (seed : List UInt8) : List UInt8 :=
  ((CtrDrbg.init AES256 32 3 seed).generate AES256 32 3 P.secSeedBytes).1

/-- What signing draws after that. -/
def signDelta (seed : List UInt8) : List UInt8 :=
  (((CtrDrbg.init AES256 32 3 seed).generate AES256 32 3 P.secSeedBytes).2.generate AES256 32 3
    P.secSeedBytes).1

/-- The response file of `n` test cases that are answered by `answer`. -/
def responses {ε : Type} (algname : List UInt8) (n : Nat)
    (answer : Nat → Run ε (List UInt8 × List UInt8 × List UInt8)) : Run ε (List UInt8) :=
  forUpM 0 n
    (fun i rsp => do
      let a ← answer i
      pure (rsp ++ requestFields i (requestSeed AES256 i) (requestMsg AES256 i) ++ answerText a))
    (text "# " ++ algname ++ text "\n\n")

/-- The keys and the signed message of test case `i`, from arrays `pk` and `sk`. -/
def answerCase (stack : Int → Stack) (pk sk : Arr UInt8) (i : Nat) :
    Run KatFault (List UInt8 × List UInt8 × List UInt8) :=
  Run.mapFault .meds
    (Meds.Sage.refKeypairSign P SHAKE256 (stack i).bsBuf (keypairDelta P AES256 (requestSeed AES256 i))
      (signDelta P AES256 (requestSeed AES256 i)) (requestMsg AES256 i) pk sk
      (Arr.replicate (33 * (i + 1) + P.sigBytes) 0))

end

variable {P : Params} {SHAKE256 : Shake} {AES256 : BlockFunction 16}

theorem length_keypairDelta (seed : List UInt8) :
    (keypairDelta P AES256 seed).length = P.secSeedBytes :=
  length_ctrBytes AES256 (by decide) _ _ _

theorem responseFile_succ (name : List UInt8) (n : Nat) (seed msg : Nat → List UInt8)
    (a : Nat → List UInt8 × List UInt8 × List UInt8) :
    responseFile name (n + 1) seed msg a
      = responseFile name n seed msg a ++ requestFields n (seed n) (msg n) ++ answerText (a n) := by
  simp only [responseFile, List.range_succ, List.flatMap_append, List.flatMap_singleton,
    List.append_assoc]

theorem responseFile_congr {n : Nat} {a a' : Nat → List UInt8 × List UInt8 × List UInt8}
    (h : ∀ i, i < n → a i = a' i) (name : List UInt8) (seed msg : Nat → List UInt8) :
    responseFile name n seed msg a = responseFile name n seed msg a' := by
  rw [responseFile, responseFile, List.flatMap_congr fun i hi => by rw [h i (List.mem_range.mp hi)]]

/-- A response file is that of the answers. -/
theorem responses_returns_iff {ε : Type} {algname : List UInt8} {n : Nat}
    {answer : Nat → Run ε (List UInt8 × List UInt8 × List UInt8)} {f : List UInt8} :
    (responses AES256 algname n answer).Returns f ↔
      ∃ a, (∀ i, i < n → (answer i).Returns (a i)) ∧
        f = responseFile algname n (requestSeed AES256) (requestMsg AES256) a := by
  induction n generalizing f with
  | zero => simp [responses, responseFile]
  | succ n ih =>
      rw [responses, forUpM_succ (Nat.zero_le n), Run.returns_bind]
      simp only [Run.returns_bind, Run.returns_pure]
      constructor
      · rintro ⟨f', hf', b, hb, rfl⟩
        obtain ⟨a, ha, rfl⟩ := ih.mp hf'
        refine ⟨Function.update a n b, fun i hi => ?_, ?_⟩
        · by_cases hin : i = n
          · rw [hin, Function.update_self]
            exact hb
          · rw [Function.update_of_ne hin]
            exact ha i (by omega)
        · rw [responseFile_succ, Function.update_self, responseFile_congr fun i hi =>
            (Function.update_of_ne (Nat.ne_of_lt hi) b a).symm]
      · rintro ⟨a, ha, rfl⟩
        exact ⟨_, ih.mpr ⟨a, fun i hi => ha i (by omega), rfl⟩, a n, ha n (Nat.lt_succ_self n),
          responseFile_succ ..⟩

/-! ## A test case -/

theorem drawDelta_returns (hsec : P.secSeedBytes ≤ intMax) {ctx : DrbgCtx} {d : CtrDrbg}
    (hctx : ctx.Holds d) (hcount : d.reseedCounter < intMax) (delta : Arr UInt8) :
    ∃ ctx', (drawDelta P AES256 delta ctx).Returns
        ((d.generate AES256 32 3 P.secSeedBytes).1, ctx') ∧
      ctx'.Holds (d.generate AES256 32 3 P.secSeedBytes).2 := by
  have hmax : intMax = 2 ^ 31 - 1 := rfl
  have hlen : (UInt64.ofNat P.secSeedBytes).toNat = P.secSeedBytes := by
    rw [UInt64.toNat_ofNat']
    omega
  obtain ⟨delta', ctx', hrandom, hdelta, hctx'⟩ := @randombytes_returns AES256 _ _ hctx delta
    (UInt64.ofNat P.secSeedBytes) (hlen.trans_le hsec) hcount
  rw [hlen] at hdelta hctx'
  exact ⟨ctx', Run.returns_bind.mpr ⟨_, Run.returns_mapFault.mpr hrandom,
    Run.returns_pure.mpr (by rw [hdelta])⟩, hctx'⟩

/-- A test case ends with its keys and its signed message in the response file,
    and the next one is read. -/
theorem runCase_alike (hP : P.Valid) (h8 : 8 ≤ P.gfqBits) (hsec : P.secSeedBytes ≤ intMax)
    (stack : Int → Stack) (s : MainVars) {c : TestCase} {seed msg : List UInt8}
    (hseed : c.seed.slice 0 48 = seed) (hmlen : c.mlen = msg.length)
    (hm : c.m.slice 0 msg.length = msg) (pk sk : Arr UInt8) :
    Run.Matches
      (Run.Alike fun r a => ∃ s', r = .inl s' ∧ s'.req = c.req ∧ s'.rsp = c.rsp ++ answerText a)
      (runCase P SHAKE256 AES256 stack s c)
      (Run.mapFault .meds
        (Meds.Sage.refKeypairSign P SHAKE256 (stack c.count).bsBuf (keypairDelta P AES256 seed)
          (signDelta P AES256 seed) msg pk sk (Arr.replicate (msg.length + P.sigBytes) 0))) := by
  have : Fact P.p.Prime := ⟨hP.prime⟩
  have hinit := @randombytesInit_holds AES256 c.seed 256 s.ctx
  rw [hseed] at hinit
  obtain ⟨ctx₁, hdraw₁, hctx₁⟩ := drawDelta_returns hsec hinit (show 1 < intMax by decide) (stack c.count).delta₁
  obtain ⟨ctx₂, hdraw₂, -⟩ := drawDelta_returns hsec hctx₁ (show 2 < intMax by decide) (stack c.count).delta₂
  refine Run.Matches.congr_left ?_ (hdraw₁.bind_equiv _)
  simp only [Meds.Sage.refKeypairSign, Run.mapFault_bind, hmlen, hm]
  apply ((cryptoSignKeypair_alike hP h8 (length_keypairDelta seed) s.pk s.sk pk sk).mapFault
    KatFault.meds).bind_alike
  rintro ⟨ret, pk', sk'⟩ ⟨ret₁, pk₁, sk₁⟩ ⟨hkey, rfl, hpk, hsk⟩
  dsimp only at hpk hsk ⊢
  rw [if_neg (by decide)]
  refine Run.Matches.congr_left ?_ (hdraw₂.bind_equiv _)
  rw [← hpk, ← hsk]
  apply ((Run.Matches.alike_self _).mapFault KatFault.meds).bind_alike
  rintro ⟨sm, smlen⟩ _ ⟨hsign, rfl⟩
  -- what was signed is opened
  obtain ⟨-, hopen⟩ := signed_opens hP h8 hkey hsign (stack c.count).bsBuf'
    (Arr.replicate (msg.length + P.sigBytes) 0) s.mlen1
  refine Run.Matches.congr_left ?_ ((Run.returns_mapFault.mpr hopen).bind_equiv _)
  have hcopy : ((Arr.replicate (msg.length + P.sigBytes) 0).blit 0 msg).slice 0 msg.length = msg :=
    Arr.slice_blit _ _ _
  simp only [hcopy, ne_eq, not_true, if_false]
  refine Run.Matches.alike ⟨_, rfl, rfl, ?_⟩
  simp only [answerText, Arr.length_slice, List.append_assoc]

/-! ## The loop -/

/-- The request file from test case `i` on. -/
def requestsFrom (AES256 : BlockFunction 16) (n i : Nat) : List UInt8 :=
  (List.range' i (n - i)).flatMap fun j => requestText j (requestSeed AES256 j) (requestMsg AES256 j)

theorem requestsFrom_of_lt {n i : Nat} (hi : i < n) :
    requestsFrom AES256 n i
      = requestFields i (requestSeed AES256 i) (requestMsg AES256 i)
        ++ (emptyFields ++ requestsFrom AES256 n (i + 1)) := by
  rw [requestsFrom, show n - i = n - (i + 1) + 1 by omega, List.range'_succ, List.flatMap_cons,
    requestText, List.append_assoc, requestsFrom]

theorem requestFile_eq (n : Nat) : requestFile AES256 n = requestsFrom AES256 n 0 := by
  rw [requestFile, requestsFrom, List.range_eq_range', Nat.sub_zero]

/-- The state of the loop before test case `i`: what is left of the test case
    before it has no further count. -/
def Before (AES256 : BlockFunction 16) (n i : Nat) (s : MainVars) (rsp : List UInt8) : Prop :=
  s.rsp = rsp ∧ ∃ junk, (99 : UInt8) ∉ junk ∧ s.req = junk ++ requestsFrom AES256 n i

theorem mainRound_alike (hP : P.Valid) (h8 : 8 ≤ P.gfqBits) (hsec : P.secSeedBytes ≤ intMax) {n : Nat}
    (hn : n ≤ 100) (stack : Int → Stack) (pk sk : Arr UInt8) {i : Nat} (hi : i < n) {s : MainVars}
    {rsp : List UInt8} (h : Before AES256 n i s rsp) :
    Run.Matches (Run.Alike fun r rsp' => ∃ s', r = .inl s' ∧ Before AES256 n (i + 1) s' rsp')
      (mainRound P SHAKE256 AES256 stack s)
      (answerCase P SHAKE256 AES256 stack pk sk i >>= fun a =>
        pure (rsp ++ requestFields i (requestSeed AES256 i) (requestMsg AES256 i) ++ answerText a)) := by
  obtain ⟨hrsp, junk, hjunk, hreq⟩ := h
  have hmsg := @length_requestMsg AES256 i
  have hmax : intMax = 2 ^ 31 - 1 := rfl
  rw [requestsFrom_of_lt hi] at hreq
  obtain ⟨seed', m, hread, hseed, hm⟩ := readCase_request hjunk (length_requestSeed i) hmsg (by omega)
    hreq
  have hcase := @runCase_alike P SHAKE256 AES256 hP h8 hsec stack s
    ⟨emptyFields ++ requestsFrom AES256 n (i + 1), s.rsp ++ requestFields i (requestSeed AES256 i)
      (requestMsg AES256 i), i, seed', (requestMsg AES256 i).length, m⟩ _ _ hseed rfl hm pk sk
  rw [mainRound, hread, answerCase, ← hmsg]
  apply hcase.map_right
  intro r r' hr
  cases hr with
  | faults e => exact .faults e
  | values hr =>
      obtain ⟨s', rfl, hreq', hrsp'⟩ := hr
      exact .values ⟨s', rfl, by rw [hrsp', ← hrsp], emptyFields, by decide, hreq'⟩

theorem requestsFrom_self (n : Nat) : requestsFrom AES256 n n = [] := by
  rw [requestsFrom, Nat.sub_self]
  rfl

theorem mainRound_last {n : Nat} (stack : Int → Stack) {s : MainVars} {rsp : List UInt8}
    (h : Before AES256 n n s rsp) :
    mainRound P SHAKE256 AES256 stack s = pure (.inr ⟨KAT_SUCCESS, rsp⟩) := by
  obtain ⟨rfl, junk, hjunk, hreq⟩ := h
  rw [requestsFrom_self, List.append_nil] at hreq
  rw [mainRound, readCase_end (by rwa [hreq])]

theorem main_alike (hP : P.Valid) (h8 : 8 ≤ P.gfqBits) (hsec : P.secSeedBytes ≤ intMax) {n : Nat}
    (hn : n ≤ 100) (algname : List UInt8) (stack : Int → Stack) (msg : Arr UInt8) (s : MainVars)
    (pk sk : Arr UInt8) :
    Run.Matches (Run.Alike Eq) (main P SHAKE256 AES256 algname n stack msg s)
      (responses AES256 algname n (answerCase P SHAKE256 AES256 stack pk sk) >>= fun rsp =>
        pure (requestFile AES256 n, ⟨KAT_SUCCESS, rsp⟩)) := by
  obtain ⟨w, hw, hreq⟩ := @writeRequests_returns AES256 n hn s.seed msg s.ctx
  refine Run.Matches.congr_left ?_ (hw.bind_equiv _)
  rw [hreq]
  have hloop := Run.Matches.loop_forUpM (Before AES256 n) (S := fun e rsp => e = ⟨KAT_SUCCESS, rsp⟩)
    (fun i s rsp hi h => mainRound_alike hP h8 hsec hn stack pk sk hi h)
    (fun s rsp h => ⟨_, @mainRound_last P SHAKE256 _ _ stack _ _ h, rfl⟩) (Nat.zero_le n)
    (s := { s with
      req := requestFile AES256 n, rsp := text "# " ++ algname ++ text "\n\n", seed := w.seed, ctx := w.ctx })
    (t := text "# " ++ algname ++ text "\n\n") ⟨rfl, [], List.not_mem_nil, requestFile_eq n⟩
  apply hloop.bind_alike
  rintro _ rsp rfl
  exact Run.Matches.alike rfl

/-- `main` writes the request file and the keys and the signed message of every
    test case.  It has neither a `KAT_DATA_ERROR` nor a `KAT_CRYPTO_FAILURE`, and
    it stops at a fault, or goes on forever, only where a key generation or a
    signing does. -/
theorem main_equiv (hP : P.Valid) (h8 : 8 ≤ P.gfqBits) (hsec : P.secSeedBytes ≤ intMax) {n : Nat}
    (hn : n ≤ 100) (algname : List UInt8) (stack : Int → Stack) (msg : Arr UInt8) (s : MainVars)
    (pk sk : Arr UInt8) :
    (main P SHAKE256 AES256 algname n stack msg s).Equiv
      (responses AES256 algname n (answerCase P SHAKE256 AES256 stack pk sk) >>= fun rsp =>
        pure (requestFile AES256 n, ⟨KAT_SUCCESS, rsp⟩)) :=
  (main_alike hP h8 hsec hn algname stack msg s pk sk).equiv

/-- What is in memory before a small run. -/
def toyVars : MainVars :=
  ⟨[], [], 0, Arr.empty, 0, 0, Arr.empty, Arr.empty, ⟨Arr.empty, Arr.empty, 0⟩⟩

def toyStack : Int → Stack := fun _ => ⟨Arr.empty, Arr.empty, fun _ => Arr.empty, fun _ => Arr.empty⟩

def toyShake : Shake := fun _ j => UInt8.ofNat (7 * j)

def zeroBlock : BlockFunction 16 := fun _ _ => Vector.replicate 16 0

theorem main_equiv_tiny :
    (main tiny toyShake Meds.Sage.echoBlock (text "tiny") 2 toyStack Arr.empty toyVars).Equiv
      (responses Meds.Sage.echoBlock (text "tiny") 2
        (answerCase tiny toyShake Meds.Sage.echoBlock toyStack Arr.empty Arr.empty) >>= fun rsp =>
          pure (requestFile Meds.Sage.echoBlock 2, ⟨KAT_SUCCESS, rsp⟩)) :=
  main_equiv tiny_valid (by decide) (by decide) (by decide) _ _ _ _ _ _

end Meds.Kat
