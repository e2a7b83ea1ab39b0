/-
  Meds.Kat.SageCheck

  sage-ref/KAT_check.sage: a response file is checked.

  Every test case is worked on again from its seed and its message, and what
  comes out is compared with the file.  Where a comparison fails, the text of
  the assertion names a variable that there is not, so `check` ends in
  `except NameError` and reports ` ERROR!`.  The checks run in processes of their
  own; their results are printed in order.  The parameter set is the default one.
-/

import Meds.Core.Lines
import Meds.Kat.SageResponses
import Meds.Ref.SignLeftover

namespace Meds.Kat.Sage

open Meds.Core Meds.Ref Meds.Sage

/-! ## The file -/

/-- What the program may raise. -/
inductive CheckError where
  | meds (e : Meds.Sage.PyError)
  | drbg (e : DrbgError)
  | attributeError
  | valueError
deriving DecidableEq, Repr

/-- The class `Task`; an attribute that was not set is `none`. -/
structure Task where
  count : Option (List UInt8)
  seed : Option (List UInt8)
  pk : Option (List UInt8)
  sk : Option (List UInt8)
  msg : Option (List UInt8)
  sm : Option (List UInt8)
deriving DecidableEq, Repr

/-- `set` an attribute of `t` to `binascii.unhexlify(line[off:].strip())`. -/
def setAttribute (t : Option Task) (line : List UInt8) (off : Nat) (set : List UInt8 → Task → Task) :
    Run CheckError (Option Task) := do
  let data ← Run.ofOption .valueError (unhexlify (strip (line.drop off)))
  let t ← Run.ofOption .attributeError t
  pure (some (set data t))

/-- A round of the loop over the lines, on `t` and the tasks that were started. -/
def readLine (s : Option Task × List Task) (line : List UInt8) : Run CheckError (Option Task × List Task) :=
  if startsWith line "#" then pure s
  else do
    let t := if startsWith line "count " then some ⟨some (strip line), none, none, none, none, none⟩ else s.1
    let t ← if startsWith line "seed " then setAttribute t line 7 fun x t => { t with seed := some x }
      else pure t
    let t ← if startsWith line "pk " then setAttribute t line 5 fun x t => { t with pk := some x }
      else pure t
    let t ← if startsWith line "sk " then setAttribute t line 5 fun x t => { t with sk := some x }
      else pure t
    let t ← if startsWith line "msg " then setAttribute t line 6 fun x t => { t with msg := some x }
      else pure t
    if startsWith line "sm " then do
      let t ← setAttribute t line 5 fun x t => { t with sm := some x }
      pure (t, s.2 ++ t.toList)
    else pure (t, s.2)

/-- The tasks of a response file. -/
def readTasks (rsp : List UInt8) : Run CheckError (List Task) := do
  let (_, tasks) ← (fileLines rsp).foldlM readLine (none, [])
  pure tasks

/-! ## check -/

section

variable (P : Params) [Fact P.p.Prime] (SHAKE256 : Shake) (AES256 : BlockFunction 16)

/-- `check`: the line that is printed. -/
def check (t : Task) : Run CheckError (List UInt8) := do
  let ret ← Run.ofOption .attributeError t.count
  let seed ← Run.ofOption .attributeError t.seed
  let g ← Run.mapFault .drbg (Meds.Sage.randombytesInit AES256 (ints seed) none 256)
  let (delta, g) ← Run.mapFault .drbg (Meds.Sage.randombytes AES256 P.secSeedBytes g)
  let (sk, pk) ← Run.mapFault .meds (Meds.Sage.cryptoSignKeypair P SHAKE256 delta)
  let pk' ← Run.ofOption .attributeError t.pk
  if pk' ≠ pk then pure (ret ++ text " ERROR!")
  else do
    let sk' ← Run.ofOption .attributeError t.sk
    if sk' ≠ sk then pure (ret ++ text " ERROR!")
    else do
      let msg ← Run.ofOption .attributeError t.msg
      let (delta, _) ← Run.mapFault .drbg (Meds.Sage.randombytes AES256 P.secSeedBytes g)
      let tmp ← Run.mapFault .meds (Meds.Sage.cryptoSign P SHAKE256 delta sk msg)
      let sm ← Run.ofOption .attributeError t.sm
      if tmp ≠ sm then pure (ret ++ text " ERROR!")
      else do
        let tmp ← Run.mapFault .meds (Meds.Sage.cryptoSignOpen P SHAKE256 pk sm)
        if tmp ≠ msg then pure (ret ++ text " ERROR!")
        else pure (ret ++ text " ok")

/-- The program: the lines it prints. -/
def katCheck (rsp : List UInt8) : Run CheckError (List (List UInt8)) := do
  let tasks ← readTasks rsp
  tasks.mapM (check P SHAKE256 AES256)

end

/-! ## The tasks of a response file -/

/-- The task of a test case. -/
def taskOf (i : Nat) (seed msg : List UInt8) (a : List UInt8 × List UInt8 × List UInt8) : Task :=
  ⟨some (text "count = " ++ decimal i), some seed, some a.1, some a.2.1, some msg, some a.2.2⟩

/-- A line that starts with `name`, and with none of the other names that the
    program looks for. -/
structure Only (name : String) (line : List UInt8) : Prop where
  comment : startsWith line "#" = decide (name = "#")
  count : startsWith line "count " = decide (name = "count ")
  seed : startsWith line "seed " = decide (name = "seed ")
  pk : startsWith line "pk " = decide (name = "pk ")
  sk : startsWith line "sk " = decide (name = "sk ")
  msg : startsWith line "msg " = decide (name = "msg ")
  sm : startsWith line "sm " = decide (name = "sm ")

/-- Which parts of a round a line takes. -/
theorem readLine_of_only {name : String} {line : List UInt8} (h : Only name line)
    (s : Option Task × List Task) :
    readLine s line = (
      if name = "#" then pure s
      else do
        let t := if name = "count " then some ⟨some (strip line), none, none, none, none, none⟩ else s.1
        let t ← if name = "seed " then setAttribute t line 7 fun x t => { t with seed := some x }
          else pure t
        let t ← if name = "pk " then setAttribute t line 5 fun x t => { t with pk := some x } else pure t
        let t ← if name = "sk " then setAttribute t line 5 fun x t => { t with sk := some x } else pure t
        let t ← if name = "msg " then setAttribute t line 6 fun x t => { t with msg := some x }
          else pure t
        if name = "sm " then do
          let t ← setAttribute t line 5 fun x t => { t with sm := some x }
          pure (t, s.2 ++ t.toList)
        else pure (t, s.2)) := by
  simp only [readLine, h.comment, h.count, h.seed, h.pk, h.sk, h.msg, h.sm, decide_eq_true_eq]

theorem strip_newline {l : List UInt8} (h : ∀ c ∈ l, isSpace c = false) : strip (l ++ [newline]) = l := by
  cases l with
  | nil => decide
  | cons c l =>
      have hc := h c List.mem_cons_self
      rw [List.cons_append, strip_cons hc, rstrip_newline, ← strip_cons hc, strip_of_noSpace h]

/-- The bytes of a line are read back. -/
theorem setAttribute_hexLine {name : List UInt8} {off : Nat} (hoff : name.length = off) (data : List UInt8)
    (t : Task) (set : List UInt8 → Task → Task) :
    setAttribute (some t) (hexLine name data) off set = pure (some (set data t)) := by
  have hdrop : (hexLine name data).drop off = data.flatMap hex2 ++ [newline] := by
    rw [hexLine, List.append_assoc, ← hoff, List.drop_left]
  rw [setAttribute, hdrop, strip_newline fun c hc => isSpace_of_mem_hex hc, unhexlify_hex]
  rfl

section

variable (t : Option Task) (u : Task) (tasks : List Task) (data : List UInt8)

theorem readLine_comment {line : List UInt8} (h : Only "#" line) : readLine (t, tasks) line = pure (t, tasks) := by
  rw [readLine_of_only h]
  rfl

/-- The other lines are passed over. -/
theorem readLine_other {line : List UInt8} (h : Only "" line) : readLine (t, tasks) line = pure (t, tasks) := by
  rw [readLine_of_only h]
  simp

theorem readLine_count (i : Nat) : readLine (t, tasks) (text "count = " ++ decimal i ++ [newline])
    = pure (some ⟨some (text "count = " ++ decimal i), none, none, none, none, none⟩, tasks) := by
  have h : Only "count " (text "count = " ++ decimal i ++ [newline]) := ⟨rfl, rfl, rfl, rfl, rfl, rfl, rfl⟩
  have hstrip : strip (text "count = " ++ decimal i ++ [newline]) = text "count = " ++ decimal i :=
    strip_countLineOf i
  rw [readLine_of_only h, hstrip]
  simp

theorem readLine_seed : readLine (some u, tasks) (hexLine (text "seed = ") data)
    = pure (some { u with seed := some data }, tasks) := by
  have h : Only "seed " (hexLine (text "seed = ") data) := ⟨rfl, rfl, rfl, rfl, rfl, rfl, rfl⟩
  rw [readLine_of_only h]
  simp [setAttribute_hexLine (show (text "seed = ").length = 7 by decide)]

theorem readLine_pk : readLine (some u, tasks) (hexLine (text "pk = ") data)
    = pure (some { u with pk := some data }, tasks) := by
  have h : Only "pk " (hexLine (text "pk = ") data) := ⟨rfl, rfl, rfl, rfl, rfl, rfl, rfl⟩
  rw [readLine_of_only h]
  simp [setAttribute_hexLine (show (text "pk = ").length = 5 by decide)]

theorem readLine_sk : readLine (some u, tasks) (hexLine (text "sk = ") data)
    = pure (some { u with sk := some data }, tasks) := by
  have h : Only "sk " (hexLine (text "sk = ") data) := ⟨rfl, rfl, rfl, rfl, rfl, rfl, rfl⟩
  rw [readLine_of_only h]
  simp [setAttribute_hexLine (show (text "sk = ").length = 5 by decide)]

theorem readLine_msg : readLine (some u, tasks) (hexLine (text "msg = ") data)
    = pure (some { u with msg := some data }, tasks) := by
  have h : Only "msg " (hexLine (text "msg = ") data) := ⟨rfl, rfl, rfl, rfl, rfl, rfl, rfl⟩
  rw [readLine_of_only h]
  simp [setAttribute_hexLine (show (text "msg = ").length = 6 by decide)]

/-- The task is started. -/
theorem readLine_sm : readLine (some u, tasks) (hexLine (text "sm = ") data)
    = pure (some { u with sm := some data }, tasks ++ [{ u with sm := some data }]) := by
  have h : Only "sm " (hexLine (text "sm = ") data) := ⟨rfl, rfl, rfl, rfl, rfl, rfl, rfl⟩
  rw [readLine_of_only h]
  simp [setAttribute_hexLine (show (text "sm = ").length = 5 by decide)]

end

/-- The lines of a test case. -/
def fieldLines (i : Nat) (seed msg : List UInt8) (a : List UInt8 × List UInt8 × List UInt8) :
    List (List UInt8) :=
  [text "count = " ++ decimal i, text "seed = " ++ seed.flatMap hex2,
    text "mlen = " ++ decimal (33 * (i + 1)), text "msg = " ++ msg.flatMap hex2,
    text "pk = " ++ a.1.flatMap hex2, text "sk = " ++ a.2.1.flatMap hex2,
    text "smlen = " ++ decimal a.2.2.length, text "sm = " ++ a.2.2.flatMap hex2]

/-- The lines of a test case, and the blank one behind it. -/
def entryLines (i : Nat) (seed msg : List UInt8) (a : List UInt8 × List UInt8 × List UInt8) :
    List (List UInt8) :=
  fieldLines i seed msg a ++ [[]]

/-- The lines of a test case come to its task. -/
theorem readLine_fieldLines (i : Nat) (seed msg : List UInt8) (a : List UInt8 × List UInt8 × List UInt8)
    (t : Option Task) (tasks : List Task) :
    ((fieldLines i seed msg a).map fun l => l ++ [newline]).foldlM readLine (t, tasks)
      = pure (some (taskOf i seed msg a), tasks ++ [taskOf i seed msg a]) := by
  have hlines : ((fieldLines i seed msg a).map fun l => l ++ [newline])
      = [text "count = " ++ decimal i ++ [newline], hexLine (text "seed = ") seed,
        text "mlen = " ++ decimal (33 * (i + 1)) ++ [newline], hexLine (text "msg = ") msg,
        hexLine (text "pk = ") a.1, hexLine (text "sk = ") a.2.1,
        text "smlen = " ++ decimal a.2.2.length ++ [newline], hexLine (text "sm = ") a.2.2] := rfl
  have hmlen : Only "" (text "mlen = " ++ decimal (33 * (i + 1)) ++ [newline]) :=
    ⟨rfl, rfl, rfl, rfl, rfl, rfl, rfl⟩
  have hsmlen : Only "" (text "smlen = " ++ decimal a.2.2.length ++ [newline]) :=
    ⟨rfl, rfl, rfl, rfl, rfl, rfl, rfl⟩
  rw [hlines]
  simp only [List.foldlM_cons, List.foldlM_nil, readLine_count, readLine_seed, readLine_other _ _ hmlen,
    readLine_msg, readLine_pk, readLine_sk, readLine_other _ _ hsmlen, readLine_sm, pure_bind, taskOf]

theorem only_blank : Only "" [newline] := ⟨rfl, rfl, rfl, rfl, rfl, rfl, rfl⟩

theorem readLine_entryLines (i : Nat) (seed msg : List UInt8) (a : List UInt8 × List UInt8 × List UInt8)
    (t : Option Task) (tasks : List Task) :
    ((entryLines i seed msg a).map fun l => l ++ [newline]).foldlM readLine (t, tasks)
      = pure (some (taskOf i seed msg a), tasks ++ [taskOf i seed msg a]) := by
  rw [entryLines, List.map_append, List.foldlM_append, readLine_fieldLines, pure_bind]
  simp only [List.map_cons, List.map_nil, List.nil_append, List.foldlM_cons, List.foldlM_nil,
    readLine_other _ _ only_blank, pure_bind]

variable {name : List UInt8} {n : Nat} {seed msg : Nat → List UInt8}
  {a : Nat → List UInt8 × List UInt8 × List UInt8}

/-- No field of a test case is empty. -/
structure Filled (seed msg : Nat → List UInt8) (a : Nat → List UInt8 × List UInt8 × List UInt8) (i : Nat) :
    Prop where
  seed : seed i ≠ []
  msg : msg i ≠ []
  pk : (a i).1 ≠ []
  sk : (a i).2.1 ≠ []
  sm : (a i).2.2 ≠ []

theorem unlines_entryLines {i : Nat} (h : Filled seed msg a i) :
    requestFields i (seed i) (msg i) ++ answerText (a i)
      = unlines newline (entryLines i (seed i) (msg i) (a i)) := by
  rw [requestFields, answerText, fprintBstr_eq_hexLine h.seed, fprintBstr_eq_hexLine h.msg,
    fprintBstr_eq_hexLine h.pk, fprintBstr_eq_hexLine h.sk, fprintBstr_eq_hexLine h.sm]
  simp [hexLine, entryLines, fieldLines, unlines]

theorem newline_notMem_fieldLines (i : Nat) (seed msg : List UInt8)
    (a : List UInt8 × List UInt8 × List UInt8) : ∀ l ∈ fieldLines i seed msg a, newline ∉ l := by
  simp only [fieldLines, List.forall_mem_cons]
  exact ⟨newline_notMem_field (by decide) (newline_notMem_decimal _),
    newline_notMem_field (by decide) (newline_notMem_hex2 _),
    newline_notMem_field (by decide) (newline_notMem_decimal _),
    newline_notMem_field (by decide) (newline_notMem_hex2 _),
    newline_notMem_field (by decide) (newline_notMem_hex2 _),
    newline_notMem_field (by decide) (newline_notMem_hex2 _),
    newline_notMem_field (by decide) (newline_notMem_decimal _),
    newline_notMem_field (by decide) (newline_notMem_hex2 _), nofun⟩

theorem newline_notMem_entryLines (i : Nat) (seed msg : List UInt8)
    (a : List UInt8 × List UInt8 × List UInt8) : ∀ l ∈ entryLines i seed msg a, newline ∉ l := by
  intro l hl
  rcases List.mem_append.mp hl with hl | hl
  · exact newline_notMem_fieldLines i seed msg a l hl
  · rw [List.mem_singleton.mp hl]
    exact List.not_mem_nil

section

variable {entry : Nat → List (List UInt8)} {task : Nat → Task}

/-- Lines that come to one task each. -/
theorem readLine_entries
    (hread : ∀ i t tasks, ((entry i).map fun l => l ++ [newline]).foldlM readLine (t, tasks)
      = pure (some (task i), tasks ++ [task i])) (n : Nat) (t : Option Task) (tasks : List Task) :
    ∃ t', (((List.range n).flatMap entry).map fun l => l ++ [newline]).foldlM readLine (t, tasks)
      = pure (t', tasks ++ (List.range n).map task) := by
  induction n with
  | zero => exact ⟨t, by simp⟩
  | succ n ih =>
      obtain ⟨t', ht'⟩ := ih
      refine ⟨some (task n), ?_⟩
      rw [List.range_succ, List.flatMap_append, List.flatMap_singleton, List.map_append, List.foldlM_append,
        ht', pure_bind, hread, List.map_append, List.map_singleton, List.append_assoc]

/-- The tasks of a file with a heading and such lines. -/
theorem readTasks_unlines (hname : newline ∉ name) (hentry : ∀ i, ∀ l ∈ entry i, newline ∉ l)
    (hread : ∀ i t tasks, ((entry i).map fun l => l ++ [newline]).foldlM readLine (t, tasks)
      = pure (some (task i), tasks ++ [task i])) (n : Nat) :
    readTasks (unlines newline ([text "# " ++ name, []] ++ (List.range n).flatMap entry))
      = pure ((List.range n).map task) := by
  have hlines : ∀ l ∈ [text "# " ++ name, []] ++ (List.range n).flatMap entry, newline ∉ l := by
    intro l hl
    rcases List.mem_append.mp hl with hl | hl
    · rcases List.mem_cons.mp hl with rfl | hl
      · exact newline_notMem_field (by decide) hname
      · rw [List.mem_singleton.mp hl]
        exact List.not_mem_nil
    · obtain ⟨i, -, hl⟩ := List.mem_flatMap.mp hl
      exact hentry i l hl
  have hcomment : Only "#" (text "# " ++ name ++ [newline]) := ⟨rfl, rfl, rfl, rfl, rfl, rfl, rfl⟩
  obtain ⟨t', ht'⟩ := readLine_entries hread n none []
  rw [readTasks, fileLines, lines_unlines hlines, List.map_append, List.foldlM_append]
  simp only [List.map_cons, List.map_nil, List.foldlM_cons, List.foldlM_nil, readLine_comment _ _ hcomment,
    List.nil_append, readLine_other _ _ only_blank, pure_bind, ht']

end

/-- The heading of a response file. -/
theorem unlines_heading (name : List UInt8) :
    unlines newline [text "# " ++ name, []] = text "# " ++ name ++ text "\n\n" := by
  have hhead : text "\n\n" = [newline, newline] := by decide
  simp [unlines, hhead]

/-- The tasks of a response file are its test cases. -/
theorem readTasks_responseFile (hname : newline ∉ name) (h : ∀ i, i < n → Filled seed msg a i) :
    readTasks (responseFile name n seed msg a)
      = pure ((List.range n).map fun i => taskOf i (seed i) (msg i) (a i)) := by
  have hfile : responseFile name n seed msg a
      = unlines newline ([text "# " ++ name, []] ++ (List.range n).flatMap fun i =>
          entryLines i (seed i) (msg i) (a i)) := by
    rw [responseFile, unlines_append, unlines_heading, unlines, List.flatMap_assoc]
    exact congrArg _ (List.flatMap_congr fun i hi => unlines_entryLines (h i (List.mem_range.mp hi)))
  rw [hfile]
  exact readTasks_unlines hname (fun i => newline_notMem_entryLines _ _ _ _)
    (fun i => readLine_entryLines _ _ _ _) n

/-! ## What is accepted -/

section

variable {P : Params} [Fact P.p.Prime] {SHAKE256 : Shake} {AES256 : BlockFunction 16}

/-- What is printed for a test case that passes. -/
def okLine (i : Nat) : List UInt8 := text "count = " ++ decimal i ++ text " ok"

theorem error_ne_ok (ret : List UInt8) : ret ++ text " ok" ≠ ret ++ text " ERROR!" :=
  fun h => absurd (List.append_cancel_left h) (by decide)

/-- A test case passes where its keys and its signed message are what its seed
    and its message come to. -/
theorem check_returns_iff (hP : Shared P) (hkp : P.k < P.p) (i : Nat) {seed msg : List UInt8}
    (hseed : seed.length = 48) (a : List UInt8 × List UInt8 × List UInt8) :
    (check P SHAKE256 AES256 (taskOf i seed msg a)).Returns (okLine i) ↔
      (sageKeypairSign P SHAKE256 (keypairDelta P AES256 seed) (signDelta P AES256 seed) msg).Returns a := by
  obtain ⟨hdraw₁, hdraw₂⟩ := @draws_returns AES256 seed hseed P.secSeedBytes
  simp only [check, taskOf, Run.ofOption_some, pure_bind, randombytesInit_eq hseed, Run.mapFault_pure]
  rw [((Run.returns_mapFault.mpr hdraw₁).bind_equiv _).returns, Run.returns_bind]
  constructor
  · rintro ⟨⟨sk, pk⟩, hkey, h⟩
    rw [Run.returns_mapFault] at hkey
    dsimp only at h
    -- where the line is "ok", none of the three comparisons has failed
    by_cases hpk : a.1 ≠ pk
    · rw [if_pos hpk, Run.returns_pure] at h
      exact absurd h (error_ne_ok _)
    rw [if_neg hpk] at h
    by_cases hsk : a.2.1 ≠ sk
    · rw [if_pos hsk, Run.returns_pure] at h
      exact absurd h (error_ne_ok _)
    rw [if_neg hsk, ((Run.returns_mapFault.mpr hdraw₂).bind_equiv _).returns, Run.returns_bind] at h
    obtain ⟨sm, hsign, h⟩ := h
    rw [Run.returns_mapFault] at hsign
    by_cases hsm : sm ≠ a.2.2
    · rw [if_pos hsm, Run.returns_pure] at h
      exact absurd h (error_ne_ok _)
    obtain rfl := not_not.mp hpk
    obtain rfl := not_not.mp hsk
    obtain rfl := not_not.mp hsm
    exact Run.returns_bind.mpr ⟨_, hkey, Run.returns_bind.mpr ⟨_, hsign, Run.returns_pure.mpr rfl⟩⟩
  · intro h
    -- the keys and the signed message are the script's own, and it opens what it signs
    obtain ⟨⟨sk, pk⟩, hkey, h'⟩ := Run.returns_bind.mp h
    obtain ⟨sm, hsign, h'⟩ := Run.returns_bind.mp h'
    obtain rfl := Run.returns_pure.mp h'
    obtain ⟨hopen, -⟩ := sage_opens hP hkp (length_keypairDelta seed) h
    refine ⟨_, Run.returns_mapFault.mpr hkey, ?_⟩
    dsimp only
    rw [if_neg (not_not.mpr rfl), if_neg (not_not.mpr rfl),
      ((Run.returns_mapFault.mpr hdraw₂).bind_equiv _).returns, Run.returns_bind]
    refine ⟨sm, Run.returns_mapFault.mpr hsign, ?_⟩
    rw [if_neg (not_not.mpr rfl), Run.returns_bind]
    refine ⟨msg, Run.returns_mapFault.mpr hopen, ?_⟩
    rw [if_neg (not_not.mpr rfl), Run.returns_pure, okLine]

/-- Every test case of a response file passes where all are what their seeds and
    messages come to. -/
theorem katCheck_returns_iff (hP : Shared P) (hkp : P.k < P.p) (hname : newline ∉ name)
    (hseed : ∀ i, i < n → (seed i).length = 48) (h : ∀ i, i < n → Filled seed msg a i) :
    (katCheck P SHAKE256 AES256 (responseFile name n seed msg a)).Returns ((List.range n).map okLine) ↔
      ∀ i, i < n → (sageKeypairSign P SHAKE256 (keypairDelta P AES256 (seed i))
        (signDelta P AES256 (seed i)) (msg i)).Returns (a i) := by
  rw [katCheck, readTasks_responseFile hname h, pure_bind, Run.returns_mapM]
  simp only [List.mem_range]
  exact forall₂_congr fun i hi => check_returns_iff hP hkp i (hseed i hi) (a i)

theorem filled_of_answer (hP : Shared P) (hkp : P.k < P.p) {b : Nat → List UInt8 × List UInt8 × List UInt8}
    {i : Nat} (h : (answerCase P SHAKE256 AES256 i).Returns (b i)) :
    Filled (requestSeed AES256) (requestMsg AES256) b i := by
  obtain ⟨-, hpk, hsk, hsm⟩ := sage_opens hP hkp (length_keypairDelta _) (Run.returns_mapFault.mp h)
  have hseed := @length_requestSeed AES256 i
  have hmsg := @length_requestMsg AES256 i
  have hsmpos : 0 < (b i).2.2.length := by
    rw [hsm, hmsg]
    omega
  exact ⟨List.ne_nil_of_length_pos (by omega), List.ne_nil_of_length_pos (by omega),
    List.ne_nil_of_length_pos (hpk ▸ (keys_pos hP).1), List.ne_nil_of_length_pos (hsk ▸ (keys_pos hP).2),
    List.ne_nil_of_length_pos hsmpos⟩

omit [Fact P.p.Prime] in
/-- A response file has the answers of one run only. -/
theorem responseFile_injective {b : Nat → List UInt8 × List UInt8 × List UInt8} (hname : newline ∉ name)
    (ha : ∀ i, i < n → Filled seed msg a i) (hb : ∀ i, i < n → Filled seed msg b i)
    (h : responseFile name n seed msg a = responseFile name n seed msg b) {i : Nat} (hi : i < n) :
    a i = b i := by
  have htasks := readTasks_responseFile hname ha
  rw [h, readTasks_responseFile hname hb] at htasks
  have hmap := Run.returns_pure.mp (htasks ▸ Run.returns_pure.mpr rfl)
  have htask := List.map_inj_left.mp hmap i (List.mem_range.mpr hi)
  simp only [taskOf, Task.mk.injEq, Option.some.injEq] at htask
  obtain ⟨-, -, hpk, hsk, -, hsm⟩ := htask
  exact (Prod.ext hpk (Prod.ext hsk hsm)).symm

/-- What `main` of KAT_test.c writes, in terms of the signer of the script. -/
theorem main_returns_iff (hP : Shared P) (hkp : P.k < P.p) (hsec : P.secSeedBytes ≤ intMax)
    (hn : n ≤ 100) (stack : Int → Stack) (buf : Arr UInt8) (s : MainVars) {f : List UInt8} :
    (Kat.main P SHAKE256 AES256 name n stack buf s).Returns
        (requestFile AES256 n, ⟨KAT_SUCCESS, f⟩) ↔
      (responses AES256 name n (answerCase P SHAKE256 AES256)).Returns f := by
  have hmatch := @responses_match P SHAKE256 AES256 _ hP hkp name n stack s.pk s.sk
  rw [(@Kat.main_alike P SHAKE256 AES256 hP.toValid hP.eight_le hsec n hn name stack buf s
    s.pk s.sk).equiv.returns]
  constructor
  · intro h
    obtain ⟨f', hf', h⟩ := Run.returns_bind.mp h
    obtain ⟨r, hsage, g, _, hg, rfl, rfl⟩ := hmatch.forth (.ok f') hf'
    cases hg
    cases Run.returns_pure.mp h
    exact hsage
  · intro h
    obtain ⟨f', hf', rfl⟩ := hmatch.exists_of_returns h
    exact Run.returns_bind.mpr ⟨f', hf', Run.returns_pure.mpr rfl⟩

end

/-- A stream over GF(257): every second byte is zero, so every element is below p. -/
def evenShake : Shake :=
  fun _ j => UInt8.ofNat (if j % 2 = 1 then 0 else (4 * j * j + 11 * j + 3) % 251)

/-- The signer of the script answers every test case. -/
theorem evenShake_answers (i : Nat) :
    ∃ a, (answerCase (rows257 2) evenShake zeroBlock i).Returns a := by
  have hP := rows257_shared (Nat.le_refl 2)
  have hkey : (Ref.cryptoSignKeypair (rows257 2) evenShake [0] Arr.empty Arr.empty :
      Run Fault _).Returns (0, ⟨[3, 103, 98, 0]⟩, ⟨[0, 3, 181, 8, 129, 56, 2, 253, 168, 172, 2, 0]⟩) :=
    Run.returns_of_run (n := 60) (by decide +kernel)
  have hsign : ∃ r, (Ref.cryptoSign (rows257 2) evenShake (fun _ => Arr.empty) [0] Arr.empty
      (requestMsg zeroBlock i) [0, 3, 181, 8, 129, 56, 2, 253, 168, 172, 2, 0]).Returns r := by
    apply exists_cryptoSign hP.toValid
    rw [signChallenge_const fun _ _ => rfl]
    exact ⟨⟨[1, 1]⟩, Run.returns_of_run (n := 60) (by decide +kernel)⟩
  obtain ⟨⟨sm, smlen⟩, hsm⟩ := hsign
  have href : (refKeypairSign (rows257 2) evenShake (fun _ => Arr.empty) [0] [0]
      (requestMsg zeroBlock i) Arr.empty Arr.empty Arr.empty).Returns _ :=
    Run.returns_bind.mpr ⟨_, hkey, Run.returns_bind.mpr ⟨_, hsm, Run.returns_pure.mpr rfl⟩⟩
  obtain ⟨_, hsage, _, r', -, rfl, -⟩ := (signersAgree_of_lt hP (by decide) evenShake
    (fun _ => Arr.empty) [0] [0] (requestMsg zeroBlock i) Arr.empty Arr.empty Arr.empty rfl rfl
    fun _ => rfl).forth _ href
  exact ⟨r', Run.returns_mapFault.mpr hsage⟩

end Meds.Kat.Sage
