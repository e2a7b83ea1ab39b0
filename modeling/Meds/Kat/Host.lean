/-
  Meds.Kat.Host

  sage-ref/KAT_test_Stream.py: the main loop up to STATE_CLOSE_RSP.

  The script asks the board for its name until the board runs the stream test,
  copies the requests to a file, and goes through that file.  Of the files it
  leaves, only the response file is kept.  The numbers s and t come from the
  parameters that the header api.h names; whether G_0 is expected on the line is
  decided by the name that the board prints.
-/

import Meds.Ref.SerialIO
import Meds.Sage.KatMain

namespace Meds.Kat.Host

open Meds.Core Meds.Ref
open Meds.Sage (HostState readRspLine fileLines requestLines requests runScript rspFile Kept)

/-! ## The script -/

/-- KAT_FILE_TEST. -/
def katFileTest : List UInt8 := text "KAT_test_Stream.elf"

/-- `(PARAMETER == "MEDS167717") or (PARAMETER == "MEDS134180")`. -/
def memoryReduced (parameter : List UInt8) : Bool :=
  parameter = text "MEDS167717" ∨ parameter = text "MEDS134180"

/-- STATE_START: the name of the parameter set. -/
def hostStart : Dialog PyError UInt8 (List UInt8) :=
  Session.loop
    (fun _ => do
      Dialog.put one
      let x ← readline
      let parameter ← secondField 45 x
      pure (if contains katFileTest x then .inr parameter else .inl ()))
    ()

/-- STATE_READ_RSP, which is left where the request file has a line that starts
    with `finished`; the state is `count_line`. -/
def readRspRound (s t : Nat) (parameter req : List UInt8) (countLine : Nat) :
    Dialog PyError UInt8 (Nat ⊕ List UInt8) := do
  let st ←
    (fileLines req).foldlM (readRspLine (memoryReduced parameter) s t)
      { countLine := countLine
        keygen := []
        sig := []
        rsp := text "# " ++ parameter ++ [newline, newline]
        sk := []
        pk := []
        sm := [] }
  pure (if (fileLines req).any fun line => startsWith line "finished" then .inr st.rsp
    else .inl st.countLine)

/-- The main loop: the response file. -/
def main (s t : Nat) : Dialog PyError UInt8 (List UInt8) := do
  let parameter ← hostStart
  -- STATE_READ_RSQ, which KAT_test_Serial_IO.py has too
  let file ← hostRequests
  Session.loop (readRspRound s t parameter file.flatten) 0

/-! ## The name of the board -/

theorem contains_append (sub pre post : List UInt8) : contains sub (pre ++ (sub ++ post)) = true := by
  rw [contains, List.any_eq_true]
  exact ⟨sub ++ post, (List.mem_tails _ _).mpr (List.suffix_append _ _),
    List.isPrefixOf_iff_prefix.mpr (List.prefix_append _ _)⟩

/-- What is found has its bytes in the text. -/
theorem contains_eq_false {sub x : List UInt8} {c : UInt8} (hc : c ∈ sub) (hx : c ∉ x) :
    contains sub x = false := by
  rw [contains, List.any_eq_false]
  intro t ht hp
  exact hx (((List.mem_tails _ _).mp ht).subset ((List.isPrefixOf_iff_prefix.mp hp).subset hc))

/-- A board that the script takes, under a name that it reads as one. -/
structure Named (elfName algName : List UInt8) : Prop where
  stream : katFileTest <:+: elfName
  newline_notMem : newline ∉ elfName
  minus_notMem : 45 ∉ elfName
  one_field : 45 ∉ algName
  one_word : ∀ c ∈ algName, isSpace c = false

/-- The first line of a board. -/
def greeting (elfName algName : List UInt8) : List UInt8 :=
  text "Send data from \"" ++ elfName ++ text "\" - " ++ algName

section

variable {elfName algName : List UInt8}

theorem Named.newline_notMem_greeting (h : Named elfName algName) :
    newline ∉ greeting elfName algName := by
  have halg : newline ∉ algName := fun hmem => absurd (h.one_word _ hmem) (by decide)
  have h1 : newline ∉ text "Send data from \"" := by decide
  have h2 : newline ∉ text "\" - " := by decide
  simp only [greeting, List.mem_append, not_or]
  exact ⟨⟨⟨h1, h.newline_notMem⟩, h2⟩, halg⟩

/-- The name is what stands behind the sign. -/
theorem Named.secondField (h : Named elfName algName) :
    secondField 45 (greeting elfName algName ++ [newline]) = pure algName := by
  have hhead : (45 : UInt8) ∉ text "Send data from \"" ++ elfName ++ text "\" " := by
    have h1 : (45 : UInt8) ∉ text "Send data from \"" := by decide
    have h2 : (45 : UInt8) ∉ text "\" " := by decide
    simp only [List.mem_append, not_or]
    exact ⟨⟨h1, h.minus_notMem⟩, h2⟩
  have htail : (45 : UInt8) ∉ 32 :: (algName ++ [newline]) := by
    have h1 : ¬ (45 : UInt8) = 32 := by decide
    have h2 : ¬ (45 : UInt8) = newline := by decide
    simp only [List.mem_cons, List.mem_append, List.not_mem_nil, or_false, not_or]
    exact ⟨h1, h.one_field, h2⟩
  have hsplit : greeting elfName algName ++ [newline]
      = (text "Send data from \"" ++ elfName ++ text "\" ") ++ 45 :: 32 :: (algName ++ [newline]) := by
    have hsign : text "\" - " = text "\" " ++ [45, 32] := by decide
    simp only [greeting, hsign, List.append_assoc, List.cons_append, List.nil_append]
  have hstrip : strip (32 :: (algName ++ [newline])) = algName := by
    have hblank : isSpace 32 = true := by decide
    have hall : ∀ c ∈ algName.reverse, isSpace c = false := fun c hc =>
      h.one_word c (List.mem_reverse.mp hc)
    rw [strip, List.dropWhile_cons, if_pos hblank]
    rcases algName with _ | ⟨c, l⟩
    · decide
    · rw [List.cons_append, List.dropWhile_cons, if_neg (by rw [h.one_word c List.mem_cons_self]; decide),
        ← List.cons_append, List.reverse_append, List.reverse_singleton, List.singleton_append,
        List.dropWhile_cons, if_pos (by decide), Meds.Sage.dropWhile_of_noSpace hall, List.reverse_reverse]
  rw [Ref.secondField, hsplit, List.splitOn_append_cons_self_of_not_mem hhead,
    List.splitOn_eq_singleton htail]
  exact congrArg pure hstrip

/-- The first line is enough. -/
theorem Named.speaks_hostStart (h : Named elfName algName) :
    hostStart.Speaks ([.send one] ++ (greeting elfName algName ++ [newline]).map .recv) algName := by
  have hcontains : contains katFileTest (greeting elfName algName ++ [newline]) = true := by
    obtain ⟨pre, post, hname⟩ := h.stream
    have hsplit : greeting elfName algName ++ [newline]
        = (text "Send data from \"" ++ pre) ++ (katFileTest ++
          (post ++ text "\" - " ++ algName ++ [newline])) := by
      simp only [greeting, ← hname, List.append_assoc]
    rw [hsplit]
    exact contains_append _ _ _
  refine Dialog.speaks_loop_break ((Dialog.speaks_put one).bind
    ((speaks_readline h.newline_notMem_greeting).bind_pure ?_))
  rw [h.secondField, pure_bind, if_pos hcontains]
  exact Dialog.speaks_pure _

end

/-! ## The request file -/

/-- The lines up to the last one are copied. -/
theorem speaks_hostRequests {ls : List (List UInt8)} (h : ∀ l ∈ ls, newline ∉ l ∧ (102 : UInt8) ∉ l) :
    hostRequests.Speaks ((unlines newline (ls ++ [text "finished"])).map .recv)
      ((ls ++ [text "finished"]).map fun l => l ++ [newline]) := by
  -- with what the file holds already, by induction on the lines to come
  have key : ∀ ls file : List (List UInt8), (∀ l ∈ ls, newline ∉ l ∧ (102 : UInt8) ∉ l) →
      Dialog.Speaks (Session.loop
          (fun file => do
            let x ← readline
            let file := file ++ [x]
            pure (if contains (text "finished\n") x then .inr file else .inl file)) file)
        ((unlines newline (ls ++ [text "finished"])).map .recv)
        (file ++ (ls ++ [text "finished"]).map fun l => l ++ [newline]) := by
    intro ls
    induction ls with
    | nil =>
        intro file _
        have hround := speaks_readline (l := text "finished") (by decide)
        exact Dialog.speaks_loop_break (hround.bind_pure (Dialog.speaks_pure _))
    | cons l ls ih =>
        intro file hls
        obtain ⟨hnewline, hfinished⟩ := hls l List.mem_cons_self
        -- no other line has the byte f of "finished"
        have hno : contains (text "finished\n") (l ++ [newline]) = false := by
          refine contains_eq_false (c := 102) (by decide) fun hmem => ?_
          rcases List.mem_append.mp hmem with hmem | hmem
          · exact hfinished hmem
          · exact absurd hmem (by decide)
        have hrest := ih (file ++ [l ++ [newline]]) fun l' hl' => hls l' (List.mem_cons_of_mem _ hl')
        have hround := (speaks_readline hnewline).bind_pure
          (f := fun x => (pure (if contains (text "finished\n") x then .inr (file ++ [x])
            else .inl (file ++ [x])) : Dialog PyError UInt8 (List (List UInt8) ⊕ List (List UInt8))))
          (Dialog.speaks_pure _)
        rw [hno, if_neg Bool.false_ne_true] at hround
        have := Dialog.speaks_loop_continue hround hrest
        rw [List.append_assoc] at this
        simpa [unlines] using this
  exact key ls [] h

/-- The lines of a test case that is asked for. -/
theorem requestLines_copied (c : Nat) (d : Meds.Sage.TestCase) :
    ∀ l ∈ requestLines c d, newline ∉ l ∧ (102 : UInt8) ∉ l := by
  have hdigits : ∀ n, (102 : UInt8) ∉ decimal n := by
    intro n h
    exact absurd (Meds.Sage.mem_decimal h).2 (by decide)
  have hhex : ∀ l : List UInt8, (102 : UInt8) ∉ l.flatMap hex2 := by
    intro l h
    obtain ⟨n, hn, h⟩ := mem_hex2 h
    exact absurd h (by interval_cases n <;> decide)
  have hfield : ∀ {name : String} {l : List UInt8}, (102 : UInt8) ∉ text name → (102 : UInt8) ∉ l →
      (102 : UInt8) ∉ text name ++ l := fun h h' hmem => (List.mem_append.mp hmem).elim h h'
  intro l hl
  refine ⟨Meds.Sage.newline_notMem_requestLines d l hl, ?_⟩
  simp only [requestLines, List.mem_cons, List.not_mem_nil, or_false] at hl
  rcases hl with rfl | rfl | rfl | rfl | rfl | rfl | rfl | rfl | rfl
  · exact hfield (by decide) (hdigits c)
  · exact hfield (by decide) (hhex _)
  · exact hfield (by decide) (hdigits _)
  · exact hfield (by decide) (hhex _)
  · decide
  · decide
  · decide
  · decide
  · exact List.not_mem_nil

/-- STATE_READ_RSP goes through the script of the run, once. -/
theorem speaks_readRspRound {s t : Nat} (hs : 2 ≤ s) {parameter : List UInt8} (hp : newline ∉ parameter)
    (cases : Nat → Meds.Sage.TestCase) (N : Nat) :
    (readRspRound s t parameter (requests cases N) 0).Speaks
      (runScript (memoryReduced parameter) s t cases N)
      (.inr (unlines newline (rspFile s t parameter cases N))) := by
  have hlines : ∀ l ∈ (List.range' 0 N).flatMap (fun c => requestLines c (cases c))
      ++ [text "finished"], newline ∉ l := by
    intro l hl
    rcases List.mem_append.mp hl with hl | hl
    · obtain ⟨c, -, hl⟩ := List.mem_flatMap.mp hl
      exact Meds.Sage.newline_notMem_requestLines (cases c) l hl
    · obtain rfl := List.mem_singleton.mp hl
      decide
  obtain ⟨st, hrun, hkept⟩ := Dialog.speaks_foldlM_invariant
    (g := fun c => requestLines c (cases c)) (Kept (memoryReduced parameter) s t parameter cases)
    (fun c st _ _ h => h.step hs hp) (n := N) (Meds.Sage.kept_start _ s t parameter cases)
  have hend := (@Meds.Sage.speaks_finishedRequest (memoryReduced parameter) s t st).foldlM_cons
    (Dialog.speaks_foldlM_nil (Meds.Sage.onLine (readRspLine (memoryReduced parameter) s t)) st)
  have hfinished : (fileLines (requests cases N)).any (fun line => startsWith line "finished") = true := by
    rw [requests, fileLines, lines_unlines hlines, List.any_eq_true]
    exact ⟨text "finished" ++ [newline], List.mem_map.mpr ⟨_, List.mem_append_right _ List.mem_cons_self, rfl⟩,
      rfl⟩
  rw [List.append_nil] at hend
  have hall := hrun.foldlM_append hend
  rw [← Meds.Sage.foldlM_fileLines hlines] at hall
  refine hall.bind_pure ?_
  rw [if_pos hfinished, hkept.rsp, Nat.zero_add]
  exact Dialog.speaks_pure _

/-- The session from the side of the script. -/
def hostScript (elfName algName : List UInt8) (reduced : Bool) (s t : Nat) (cases : Nat → Meds.Sage.TestCase)
    (N : Nat) : List (Act UInt8) :=
  [.send one] ++ ((greeting elfName algName ++ [newline]).map .recv ++
    ((requests cases N).map .recv ++ runScript reduced s t cases N))

/-- The script copies the requests, goes through them, and ends with what it was
    told. -/
theorem speaks_main {elfName algName : List UInt8} (h : Named elfName algName) {s t : Nat} (hs : 2 ≤ s)
    (cases : Nat → Meds.Sage.TestCase) (N : Nat) :
    (main s t).Speaks (hostScript elfName algName (memoryReduced algName) s t cases N)
      (unlines newline (rspFile s t algName cases N)) := by
  have hp : newline ∉ algName := fun hmem => absurd (h.one_word _ hmem) (by decide)
  have hcopied : ∀ l ∈ (List.range' 0 N).flatMap fun c => requestLines c (cases c),
      newline ∉ l ∧ (102 : UInt8) ∉ l := fun l hl => by
    obtain ⟨c, -, hl⟩ := List.mem_flatMap.mp hl
    exact requestLines_copied c (cases c) l hl
  have hreq := speaks_hostRequests hcopied
  have hfile : (((List.range' 0 N).flatMap (fun c => requestLines c (cases c)) ++ [text "finished"]).map
      fun l => l ++ [newline]).flatten = requests cases N := List.flatMap_def.symm
  rw [hostScript, ← List.append_assoc]
  refine h.speaks_hostStart.bind (hreq.bind ?_)
  rw [hfile]
  exact Dialog.speaks_loop_break (speaks_readRspRound hs hp cases N)

end Meds.Kat.Host
