/-
  Meds.Kat.SerialSession

  The board and the script on the line: together they do what KAT_test.c does
  alone.

  The board speaks first, the script answers with a session of its own, and
  the two sessions are dual.  So no interleaving blocks, and the script ends
  with the response file of KAT_test.c without its blank lines.  For
  KAT_check.sage that is the same file.
-/

import Meds.Kat.DeviceCommands
import Meds.Kat.Host
import Meds.Kat.SageCheck

namespace Meds.Kat.Serial

open Meds.Core Meds.Ref
open Meds.Sage (requestLines requests rspFile rspLines rspHead skFileLine history countLineOf smReplies)
open Meds.Kat.Device (BoardFit AnswerOf Board)
open Meds.Kat.Sage (fieldLines entryLines Filled)

variable {P : Params} {SHAKE256 : Shake} {AES256 : BlockFunction 16}

/-! ## The response file of a session -/

/-- The response file without the blank lines behind the test cases. -/
def streamFile (name : List UInt8) (n : Nat) (seed msg : Nat → List UInt8)
    (a : Nat → List UInt8 × List UInt8 × List UInt8) : List UInt8 :=
  text "# " ++ name ++ text "\n\n"
    ++ (List.range n).flatMap fun i => requestFields i (seed i) (msg i) ++ (answerText (a i)).dropLast

section

variable {seed msg : Nat → List UInt8} {a : Nat → List UInt8 × List UInt8 × List UInt8} {n : Nat}
  {name : List UInt8}

theorem unlines_fieldLines {i : Nat} (h : Filled seed msg a i) :
    requestFields i (seed i) (msg i) ++ (answerText (a i)).dropLast
      = unlines newline (fieldLines i (seed i) (msg i) (a i)) := by
  -- the last byte of the answer is the break of the blank line
  have hall := Sage.unlines_entryLines h
  have hne : answerText (a i) ≠ [] := List.append_ne_nil_of_right_ne_nil _ (List.cons_ne_nil _ _)
  rw [entryLines, unlines_append, unlines_singleton, List.nil_append] at hall
  rw [← List.dropLast_append_of_ne_nil hne, hall, List.dropLast_concat]

theorem streamFile_eq (h : ∀ i, i < n → Filled seed msg a i) :
    streamFile name n seed msg a
      = unlines newline ([text "# " ++ name, []] ++ (List.range n).flatMap fun i =>
          fieldLines i (seed i) (msg i) (a i)) := by
  rw [streamFile, unlines_append, Sage.unlines_heading, unlines, List.flatMap_assoc]
  exact congrArg _ (List.flatMap_congr fun i hi => unlines_fieldLines (h i (List.mem_range.mp hi)))

/-- KAT_check.sage reads the same test cases from both files. -/
theorem readTasks_streamFile (hname : newline ∉ name) (h : ∀ i, i < n → Filled seed msg a i) :
    Sage.readTasks (streamFile name n seed msg a) = Sage.readTasks (responseFile name n seed msg a) := by
  rw [Sage.readTasks_responseFile hname h, streamFile_eq h]
  exact Sage.readTasks_unlines hname (fun i => Sage.newline_notMem_fieldLines _ _ _ _)
    (fun i => Sage.readLine_fieldLines _ _ _ _) n

end

/-! ## The files of the script -/

section

variable {seed msg : List UInt8} {a : List UInt8 × List UInt8 × List UInt8} {d : Meds.Sage.TestCase}
  {i : Nat}

/-- A line of digits is left as it is. -/
theorem strip_hexLine {c : UInt8} (hc : isSpace c = false) (name : List UInt8) {l : List UInt8}
    (hl : l ≠ []) :
    strip (c :: name ++ l.flatMap hex2 ++ [newline]) = c :: name ++ l.flatMap hex2 := by
  -- only a line without digits would lose its blank before them
  refine Meds.Sage.strip_line hc name (fun h => hl ?_) fun _ hx => Meds.Sage.isSpace_of_mem_hex hx
  have hlen := congrArg List.length h
  rw [length_hex2, List.length_nil] at hlen
  exact List.length_eq_zero_iff.mp (by omega)

/-- What the script writes for a test case. -/
theorem rspLines_eq (h : AnswerOf P seed msg a d) (hseed : seed ≠ []) (hmsg : msg ≠ [])
    (hlen : msg.length = 33 * (i + 1)) :
    countLineOf i :: rspLines P.s P.t d = fieldLines i seed msg a := by
  -- three lines come from the board and are stripped
  have hmlen : strip (text "mlen = " ++ decimal msg.length ++ [newline])
      = text "mlen = " ++ decimal msg.length :=
    Meds.Sage.strip_line (by decide) [108, 101, 110, 32, 61, 32] (Meds.Sage.decimal_ne_nil _)
      fun _ hx => Meds.Sage.isSpace_of_mem_decimal hx
  have hseedLine : strip (text "seed = " ++ seed.flatMap hex2 ++ [newline])
      = text "seed = " ++ seed.flatMap hex2 :=
    strip_hexLine (by decide) [101, 101, 100, 32, 61, 32] hseed
  have hmsgLine : strip (text "msg = " ++ msg.flatMap hex2 ++ [newline])
      = text "msg = " ++ msg.flatMap hex2 := strip_hexLine (by decide) [115, 103, 32, 61, 32] hmsg
  -- the public key comes in chunks
  have hpk : ((List.range' 1 (P.s - 1)).map fun i => (d.pk i).flatMap hex2).flatten
      = a.1.flatMap hex2 := by
    rw [← h.pk, ← List.flatMap_def, ← List.flatMap_def, List.flatMap_assoc]
  rw [rspLines, rspHead, skFileLine, h.seed, h.msg, h.sk, h.smlen, h.sm, hpk, hmlen, hseedLine,
    hmsgLine, hlen]
  rfl

/-- What the script reads for a test case. -/
theorem requestLines_eq (hd : d.seed = seed) (hd' : d.msg = msg) (hseed : seed ≠ []) (hmsg : msg ≠ [])
    (hlen : msg.length = 33 * (i + 1)) :
    unlines newline (requestLines i d) = requestText i seed msg := by
  rw [requestLines, requestText, requestFields, emptyFields, Sage.fprintBstr_eq_hexLine hseed,
    Sage.fprintBstr_eq_hexLine hmsg, hd, hd', hlen]
  have hpk : text "pk =\n" = text "pk =" ++ [newline] := by decide
  have hsk : text "sk =\n" = text "sk =" ++ [newline] := by decide
  have hsmlen : text "smlen =\n" = text "smlen =" ++ [newline] := by decide
  have hsm : text "sm =\n\n" = text "sm =" ++ [newline] ++ [newline] := by decide
  simp only [unlines, Sage.hexLine, hpk, hsk, hsmlen, hsm, List.flatMap_cons, List.flatMap_nil,
    List.append_assoc, List.append_nil, List.nil_append]

end

section

variable {d : Nat → Meds.Sage.TestCase} {a : Nat → List UInt8 × List UInt8 × List UInt8} {n : Nat}

theorem request_ne_nil (i : Nat) : requestSeed AES256 i ≠ [] ∧ requestMsg AES256 i ≠ [] := by
  have hseed := @length_requestSeed AES256 i
  have hmsg := @length_requestMsg AES256 i
  exact ⟨List.ne_nil_of_length_pos (by omega), List.ne_nil_of_length_pos (by omega)⟩

/-- The script copies the requests of the board. -/
theorem requests_eq
    (hd : ∀ i, i < n → AnswerOf P (requestSeed AES256 i) (requestMsg AES256 i) (a i) (d i)) :
    requests d n = requestFile AES256 n ++ text "finished\n" := by
  -- case by case; the break behind `finished` is that of the last line
  have hlast : text "finished\n" = text "finished" ++ [newline] := by decide
  rw [requests, unlines_append, unlines_singleton, hlast, requestFile, unlines, List.flatMap_assoc,
    ← List.range_eq_range']
  refine congrArg (· ++ _) (List.flatMap_congr fun i hi => ?_)
  have h := hd i (List.mem_range.mp hi)
  exact requestLines_eq h.seed h.msg (request_ne_nil i).1 (request_ne_nil i).2 (length_requestMsg i)

/-- The script writes the answers of the board. -/
theorem rspFile_eq {name : List UInt8}
    (hd : ∀ i, i < n → AnswerOf P (requestSeed AES256 i) (requestMsg AES256 i) (a i) (d i))
    (hfilled : ∀ i, i < n → Filled (requestSeed AES256) (requestMsg AES256) a i) :
    unlines newline (rspFile P.s P.t name d n)
      = streamFile name n (requestSeed AES256) (requestMsg AES256) a := by
  rw [streamFile_eq hfilled, rspFile, history, ← List.range_eq_range']
  refine congrArg (fun l => unlines newline (_ ++ l)) (List.flatMap_congr fun i hi => ?_)
  exact rspLines_eq (hd i (List.mem_range.mp hi)) (request_ne_nil i).1 (request_ne_nil i).2
    (length_requestMsg i)

end

/-! ## The session -/

/-- No field of an answer is empty. -/
theorem filled_of_answerCase (hP : BoardFit P) {stack : Int → Stack} {pk sk : Arr UInt8}
    {a : Nat → List UInt8 × List UInt8 × List UInt8} {i : Nat}
    (h : (answerCase P SHAKE256 AES256 stack pk sk i).Returns (a i)) :
    Filled (requestSeed AES256) (requestMsg AES256) a i := by
  have : Fact P.p.Prime := ⟨hP.prime⟩
  -- both keys hold at least one matrix, and a message has 33 bytes or more
  have hfit := hP.chunkFit
  have hmat := Nat.mul_pos hfit.matrix_pos (Nat.sub_pos_of_lt hP.two_le_s)
  have hgen := Nat.mul_pos hfit.generator_pos (Nat.sub_pos_of_lt hP.two_le_s)
  have hmsg := @length_requestMsg AES256 i
  obtain ⟨⟨ret, pk', sk'⟩, hkey, h⟩ := Run.returns_bind.mp (Run.returns_mapFault.mp h)
  obtain ⟨⟨sm, smlen⟩, hsign, h⟩ := Run.returns_bind.mp h
  obtain ⟨-, _, _, _, _, _, _, _, _, _, _, hS⟩ := signed_of_returns hP.toValid hP.eight_le hkey hsign
  have hlen := hS.length
  have ha := Run.returns_pure.mp h
  refine ⟨(request_ne_nil i).1, (request_ne_nil i).2, ?_, ?_, ?_⟩
  all_goals
    rw [ha]
    refine List.ne_nil_of_length_pos ?_
    rw [Arr.length_slice]
  · rw [hfit.pkBytes_eq]
    omega
  · rw [hfit.skBytes_eq]
    omega
  · omega

variable {board : Board}

/-- Where KAT_test.c answers every test case, the session ends. -/
theorem session_completes (hP : BoardFit P) (hname : Host.Named board.elfName board.algName)
    (hbuild : Host.memoryReduced board.algName = false) (hsm : board.sm = 0)
    (hlate : ∀ i, i < 100 →
      NoLateFailure P SHAKE256 false (keypairDelta P AES256 (requestSeed AES256 i)))
    {stack : Int → Stack} {pk sk : Arr UInt8} {a : Nat → List UInt8 × List UInt8 × List UInt8}
    (ha : ∀ i, i < 100 → (answerCase P SHAKE256 AES256 stack pk sk i).Returns (a i)) :
    Network.Completes (Device.main P SHAKE256 AES256 false board) (Host.main P.s P.t)
      (streamFile board.algName 100 (requestSeed AES256) (requestMsg AES256) a) := by
  -- what the board says in test case i determines what the script answers
  have : Nonempty Meds.Sage.TestCase := ⟨Meds.Sage.toyCase 0⟩
  choose! d hd hrounds using fun i hi =>
    @Device.rounds_case P SHAKE256 AES256 board hP hsm stack pk sk i (a i) (ha i hi) (hlate i hi)
  have hhost := @Host.speaks_main _ _ hname P.s P.t hP.two_le_s d 100
  rw [Host.hostScript, requests_eq hd, hbuild,
    rspFile_eq hd fun i hi => filled_of_answerCase hP (ha i hi)] at hhost
  -- the two scripts are dual
  have hdual : Network.dual (Device.boardScript P AES256 board d)
      = [.send one] ++ ((Host.greeting board.elfName board.algName ++ [newline]).map .recv ++
          ((requestFile AES256 100 ++ text "finished\n").map .recv ++
            Meds.Sage.runScript false P.s P.t d 100)) := by
    simp only [Device.boardScript, Network.dual_append, Device.dual_map_send, Network.dual_dual]
    rfl
  -- a board that waits for its answers and a script that gives them end together
  refine Network.completes_of_waits (Device.main_waits hrounds) ?_
  rw [hdual]
  exact hhost

/-- A stream that is the same for every input, so that one run shows them all. -/
def quadShake : Shake := fun _ j => UInt8.ofNat ((4 * j * j + 11 * j + 2) % 251)

def toyBoard : Board where
  elfName := text "KAT_test_Stream.elf"
  algName := text "tiny"
  charSigned := true
  seed := Arr.empty
  ctx := ⟨Arr.empty, Arr.empty, 0⟩
  stack := toyStack
  sm := 0

theorem toyBoard_named : Host.Named toyBoard.elfName toyBoard.algName where
  stream := List.infix_refl _
  newline_notMem := by decide
  minus_notMem := by decide
  one_field := by decide
  one_word := by decide +kernel

theorem tiny_boardFit : BoardFit tiny :=
  { tiny_valid with
    eight_le := by decide
    sec_le := by decide
    digest_pos := by decide
    salt_pos := by decide
    chunk_le := by decide }

/-- Signing ends for every message. -/
theorem quadShake_signs (sm : Arr UInt8) (msg : List UInt8) :
    ∃ r, (cryptoSign tiny quadShake (fun _ => Arr.empty) [0] sm msg [0, 2, 1, 0, 2, 2, 2, 2, 1, 0]).Returns
      r := by
  apply exists_cryptoSign tiny_valid
  rw [signChallenge_const fun _ _ => rfl]
  exact ⟨⟨[1, 0]⟩, Run.returns_of_run (n := 60) (by decide +kernel)⟩

/-- Every test case is answered. -/
theorem quadShake_answers (i : Nat) :
    ∃ a, (answerCase tiny quadShake zeroBlock toyStack Arr.empty Arr.empty i).Returns a := by
  have hkey : (cryptoSignKeypair tiny quadShake [0] Arr.empty Arr.empty : Run Fault _).Returns
      (0, ⟨[2, 2, 2]⟩, ⟨[0, 2, 1, 0, 2, 2, 2, 2, 1, 0]⟩) :=
    Run.returns_of_run (n := 60) (by decide +kernel)
  obtain ⟨⟨sm, smlen⟩, hsign⟩ :=
    quadShake_signs (Arr.replicate (33 * (i + 1) + tiny.sigBytes) 0) (requestMsg zeroBlock i)
  exact ⟨_, Run.returns_mapFault.mpr (Run.returns_bind.mpr ⟨_, hkey, Run.returns_bind.mpr
    ⟨_, hsign, Run.returns_pure.mpr rfl⟩⟩)⟩

/-- No round of the only key fails late. -/
theorem quadShake_noLateFailure : NoLateFailure tiny quadShake false [0] := by
  intro G0 hG0
  obtain rfl := hG0.unique (Run.returns_of_run (n := 60) (a := ⟨[1, 0, 2, 2, 0, 1, 1, 0]⟩)
    (by decide +kernel))
  obtain ⟨r, hr⟩ : ∃ r, (keygenIndices tiny quadShake false [0] ⟨[1, 0, 2, 2, 0, 1, 1, 0]⟩
      tiny.s).Returns r :=
    Run.exists_returns_of_run (n := 60) (by decide +kernel)
  exact hr.not_faults

end Meds.Kat.Serial
