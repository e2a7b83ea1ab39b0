/-
  Meds.Sage.KatMain

  Whole KAT runs, line after line of the request file.

  Between two counts every file holds what was recorded for the counts so
  far, and nothing else (`Kept`).  The lines of one count go through its
  script and add its own lines to the files.
-/

import Meds.Sage.KatSign

namespace Meds.Sage

open Meds.Core Meds.Ref

variable {reduced : Bool} {s t c : Nat}

theorem unlines_concat (ls : List (List UInt8)) (l : List UInt8) :
    unlines newline (ls ++ [l]) = unlines newline ls ++ (l ++ [newline]) := by
  rw [unlines_append, unlines_singleton]

/-! ## The lines of the request file -/

section

variable {st : HostState} {R : List (List UInt8)}

theorem decimal_ne_nil (n : Nat) : decimal n ≠ [] := by
  rw [decimal_eq]
  exact fun h => Nat.toDigits_ne_nil (List.map_eq_nil_iff.mp h)

theorem isSpace_of_mem_decimal {n : Nat} {x : UInt8} (h : x ∈ decimal n) : isSpace x = false := by
  have := mem_decimal h
  simp only [isSpace, decide_eq_false_iff_not]
  omega

theorem strip_countLineOf (c : Nat) : strip (countLineOf c ++ [newline]) = countLineOf c :=
  strip_line (by decide) [111, 117, 110, 116, 32, 61, 32] (decimal_ne_nil c)
    fun _ hx => isSpace_of_mem_decimal hx

/-- A new count. -/
theorem speaks_countRequest (st : HostState) (c : Nat) :
    (onLine (readRspLine reduced s t) st (countLineOf c)).Speaks []
      { st with
        countLine := st.countLine + 1
        keygen := st.keygen ++ (countLineOf c ++ [newline])
        sig := st.sig ++ (countLineOf c ++ [newline])
        rsp := st.rsp ++ (countLineOf c ++ [newline]) } := by
  have hline : onLine (readRspLine reduced s t) st (countLineOf c) = pure
      { st with
        countLine := st.countLine + 1
        keygen := st.keygen ++ (strip (countLineOf c ++ [newline]) ++ [newline])
        sig := st.sig ++ (strip (countLineOf c ++ [newline]) ++ [newline])
        rsp := st.rsp ++ (strip (countLineOf c ++ [newline]) ++ [newline]) } := rfl
  rw [hline, strip_countLineOf]
  exact Dialog.speaks_pure _

/-- A field of digits. -/
theorem speaks_hexField {c : UInt8} {a : List UInt8} (hc : isSpace c = false)
    (ha : 61 ∉ c :: a) (l : List UInt8) :
    (hexField (strip (c :: a ++ 61 :: 32 :: (l.flatMap hex2 ++ [newline])))).Speaks [] l := by
  rw [hexField, secondField_strip hc ha, pure_bind, fromHex_hex2]
  exact Dialog.speaks_pure l

theorem speaks_seedRequest (st : HostState) (l : List UInt8) :
    (onLine (readRspLine reduced s t) st (text "seed = " ++ l.flatMap hex2)).Speaks
      (sendBytes (codeBytes 18) ++ sendBytes l)
      { st with
        rsp := st.rsp ++ (strip (text "seed = " ++ l.flatMap hex2 ++ [newline]) ++ [newline]) } :=
  (@speaks_hexField 115 [101, 101, 100, 32] (by decide) (by decide) l).bind_nil
    ((Dialog.speaks_putAll (codeBytes 18)).bind ((Dialog.speaks_putAll l).bind_pure
      (Dialog.speaks_pure _)))

theorem speaks_mlenRequest (st : HostState) (n : Nat) :
    (onLine (readRspLine reduced s t) st (text "mlen = " ++ decimal n)).Speaks []
      { st with
        rsp := st.rsp ++ (strip (text "mlen = " ++ decimal n ++ [newline]) ++ [newline]) } :=
  Dialog.speaks_pure _

theorem speaks_msgRequest (st : HostState) (l : List UInt8) :
    (onLine (readRspLine reduced s t) st (text "msg = " ++ l.flatMap hex2)).Speaks
      (sendBytes (codeBytes 19) ++ ([.recv 0] ++ sendBytes l))
      { st with
        rsp := st.rsp ++ (strip (text "msg = " ++ l.flatMap hex2 ++ [newline]) ++ [newline]) } :=
  (@speaks_hexField 109 [115, 103, 32] (by decide) (by decide) l).bind_nil
    ((Dialog.speaks_putAll (codeBytes 19)).bind ((Dialog.speaks_get 0).bind
      ((Dialog.speaks_putAll l).bind_pure (Dialog.speaks_pure _))))

/-- The digits of the public key that came with the key of count `c`. -/
def pkReplies (s : Nat) (d : TestCase) : List (List UInt8) :=
  (List.range' 1 (s - 1)).map fun i => (d.pk i).flatMap hex2

theorem speaks_pkRequest (hs : 2 ≤ s) (cases : Nat → TestCase) (hcount : st.countLine = c + 1)
    (hkeygen : st.keygen = unlines newline (keygenFile reduced s cases c ++ [countLineOf c])) :
    (onLine (readRspLine reduced s t) st (text "pk =")).Speaks
      (sendBytes (codeBytes 20) ++ (keysScript reduced s (cases c) ++ recvLine (text "pk = DONE")))
      { st with
        keygen := unlines newline (keygenFile reduced s cases (c + 1))
        rsp := st.rsp ++ text "pk = " ++ (pkReplies s (cases c)).flatten ++ [newline]
        sk := skFileLine (cases c)
        pk := pkReplies s (cases c) } := by
  have hkeys := @speaks_doGetDataFromKeygen reduced s c hs cases
  rw [← hkeygen, show c = st.countLine - 1 by omega] at hkeys
  rw [show c = st.countLine - 1 by omega]
  exact (Dialog.speaks_putAll (codeBytes 20)).bind (hkeys.bind
    ((speaks_readline (by decide)).bind_pure (Dialog.speaks_pure _)))

theorem speaks_skRequest (st : HostState) :
    (onLine (readRspLine reduced s t) st (text "sk =")).Speaks
      (sendBytes (codeBytes 21) ++ recvLine (text "sk = DONE"))
      { st with rsp := st.rsp ++ st.sk ++ [newline] } :=
  (Dialog.speaks_putAll (codeBytes 21)).bind
    ((speaks_readline (by decide)).bind_pure (Dialog.speaks_pure _))

theorem newline_notMem_smlen (d : TestCase) : newline ∉ text "smlen = " ++ decimal d.smlen :=
  newline_notMem_field (by decide) (newline_notMem_decimal _)

theorem speaks_smlRequest (cases : Nat → TestCase) {old : List (List UInt8)}
    (hnewline : ∀ l ∈ old, newline ∉ l)
    (hold : ∀ l ∈ old, startsCount c (l ++ [newline]) = false) (hcount : st.countLine = c + 1)
    (hsig : st.sig = unlines newline (sigFile reduced t cases c ++ [countLineOf c]))
    (hrsp : st.rsp = unlines newline
      (old ++ countLineOf c :: (rspHead s (cases c) ++ [skFileLine (cases c)]))) :
    (onLine (readRspLine reduced s t) st (text "smlen =")).Speaks
      (sendBytes (codeBytes 22) ++ (signScript reduced t (cases c)
        ++ recvLine (text "smlen = " ++ decimal (cases c).smlen)))
      { st with
        sig := unlines newline (sigFile reduced t cases (c + 1))
        rsp := st.rsp ++ (text "smlen = " ++ decimal (cases c).smlen ++ [newline])
        sm := smReplies t (cases c) } := by
  have hsign := @speaks_doGetDataFromSig reduced s t c cases old hnewline hold
  rw [← hsig, ← hrsp, show c = st.countLine - 1 by omega] at hsign
  rw [show c = st.countLine - 1 by omega]
  exact (Dialog.speaks_putAll (codeBytes 22)).bind (hsign.bind
    ((speaks_readline (newline_notMem_smlen _)).bind_pure (Dialog.speaks_pure _)))

theorem speaks_smRequest (st : HostState) :
    (onLine (readRspLine reduced s t) st (text "sm =")).Speaks
      (sendBytes (codeBytes 23) ++ recvLine (text "sm = DONE"))
      { st with
        rsp := st.rsp ++ text "sm = " ++ (st.sm.filter fun x => 2 < x.length).flatten
          ++ [newline] } :=
  (Dialog.speaks_putAll (codeBytes 23)).bind
    ((speaks_readline (by decide)).bind_pure (Dialog.speaks_pure _))

/-- A blank line. -/
theorem speaks_blankRequest (st : HostState) : (onLine (readRspLine reduced s t) st []).Speaks [] st :=
  Dialog.speaks_pure st

theorem speaks_finishedRequest (st : HostState) :
    (onLine (readRspLine reduced s t) st (text "finished")).Speaks
      (sendBytes (codeBytes 24) ++ recvLine (text "finished from C")) st :=
  (Dialog.speaks_putAll (codeBytes 24)).bind
    ((speaks_readline (by decide)).bind_pure (Dialog.speaks_pure st))

end

theorem newline_notMem_smReplies (d : TestCase) : ∀ x ∈ smReplies t d, newline ∉ x := by
  intro x hx
  rcases List.mem_append.mp hx with hx | hx
  · obtain ⟨i, -, rfl⟩ := List.mem_map.mp hx
    exact newline_notMem_hex2 _
  · obtain rfl := List.mem_singleton.mp hx
    exact newline_notMem_hex2 _

/-! ## One count -/

/-- The response file before count `c`. -/
def rspFile (s t : Nat) (parameter : List UInt8) (cases : Nat → TestCase) (c : Nat) :
    List (List UInt8) :=
  [text "# " ++ parameter, []] ++ history (fun j => rspLines s t (cases j)) c

/-- What the files hold before count `c`. -/
structure Kept (reduced : Bool) (s t : Nat) (parameter : List UInt8) (cases : Nat → TestCase)
    (c : Nat) (st : HostState) : Prop where
  countLine : st.countLine = c
  keygen : st.keygen = unlines newline (keygenFile reduced s cases c)
  sig : st.sig = unlines newline (sigFile reduced t cases c)
  rsp : st.rsp = unlines newline (rspFile s t parameter cases c)

theorem entry_rspLines (d : TestCase) : ∀ l ∈ rspLines s t d, Entry l := by
  intro l hl
  rcases List.mem_append.mp hl with hl | hl
  · exact (entry_rspHead d l hl).1
  · simp only [List.mem_cons, List.not_mem_nil, or_false] at hl
    rcases hl with rfl | rfl | rfl
    · exact entry_skFileLine d
    · exact ⟨newline_notMem_smlen d, rfl⟩
    · refine ⟨newline_notMem_field (by decide) fun h => ?_, rfl⟩
      obtain ⟨x, hx, h⟩ := List.mem_flatten.mp h
      exact newline_notMem_smReplies d x (List.mem_filter.mp hx).1 h

section

variable {parameter : List UInt8} {cases : Nat → TestCase} {st : HostState}

theorem newline_notMem_rspFile (hp : newline ∉ parameter) :
    ∀ l ∈ rspFile s t parameter cases c, newline ∉ l := by
  intro l hl
  rcases List.mem_append.mp hl with hl | hl
  · simp only [List.mem_cons, List.not_mem_nil, or_false] at hl
    rcases hl with rfl | rfl
    · exact newline_notMem_field (by decide) hp
    · exact List.not_mem_nil
  · exact newline_notMem_history (fun j => entry_rspLines (cases j)) l hl

theorem rspFile_succ : rspFile s t parameter cases (c + 1)
    = rspFile s t parameter cases c ++ countLineOf c :: rspLines s t (cases c) := by
  rw [rspFile, rspFile, history_succ, List.append_assoc]

/-- Nothing in the response file is taken for the line of count `c` before it is
    written. -/
theorem startsCount_rspFile :
    ∀ l ∈ rspFile s t parameter cases c, startsCount c (l ++ [newline]) = false := by
  intro l hl
  rcases List.mem_append.mp hl with hl | hl
  · apply startsCount_of_not_startsWith
    simp only [List.mem_cons, List.not_mem_nil, or_false] at hl
    rcases hl with rfl | rfl <;> rfl
  · exact startsCount_history (fun j => entry_rspLines (cases j)) l hl

/-- The lines of one count go through its script and leave its lines behind. -/
theorem Kept.step (hs : 2 ≤ s) (hp : newline ∉ parameter)
    (h : Kept reduced s t parameter cases c st) :
    ∃ st', Dialog.Speaks
        ((requestLines c (cases c)).foldlM (onLine (readRspLine reduced s t)) st)
        (caseScript reduced s t (cases c)) st' ∧
      Kept reduced s t parameter cases (c + 1) st' := by
  have hnewline := @newline_notMem_rspFile s t c parameter cases hp
  have hold := @startsCount_rspFile s t c parameter cases
  have hlast : unlines newline (rspFile s t parameter cases (c + 1))
      = st.rsp ++ unlines newline (countLineOf c :: rspLines s t (cases c)) := by
    rw [rspFile_succ, unlines_append, h.rsp]
  -- the lines of a case, each with what the host says for it
  have hscript : caseScript reduced s t (cases c)
      = [] ++ (seedScript (cases c) ++ ([] ++ (msgScript (cases c) ++
          (pkScript reduced s (cases c) ++ (skScript ++
            (smlScript reduced t (cases c) ++ (smScript ++ ([] ++ [])))))))) := by
    simp only [List.nil_append, List.append_nil]
    rfl
  rw [hscript]
  refine ⟨_, (speaks_countRequest _ _).foldlM_cons ((speaks_seedRequest _ _).foldlM_cons
    ((speaks_mlenRequest _ _).foldlM_cons ((speaks_msgRequest _ _).foldlM_cons
    ((speaks_pkRequest hs cases ?_ ?_).foldlM_cons ((speaks_skRequest _).foldlM_cons
    ((speaks_smlRequest cases hnewline hold ?_ ?_ ?_).foldlM_cons
    ((speaks_smRequest _).foldlM_cons ((speaks_blankRequest _).foldlM_cons
    (Dialog.speaks_foldlM_nil _ _))))))))), ?_⟩
  · exact congrArg (· + 1) h.countLine
  · change st.keygen ++ _ = _
    rw [unlines_concat, ← h.keygen]
  · exact congrArg (· + 1) h.countLine
  · change st.sig ++ _ = _
    rw [unlines_concat, ← h.sig]
  · rw [unlines_append, ← h.rsp]
    simp [unlines, rspHead, pkReplies]
  · -- what is left behind is the file with one case more
    refine ⟨congrArg (· + 1) h.countLine, rfl, rfl, ?_⟩
    refine Eq.trans ?_ hlast.symm
    simp [unlines, rspLines, rspHead, pkReplies]

end

/-! ## The run -/

theorem newline_notMem_requestLines (d : TestCase) : ∀ l ∈ requestLines c d, newline ∉ l := by
  intro l hl
  simp only [requestLines, List.mem_cons, List.not_mem_nil, or_false] at hl
  rcases hl with rfl | rfl | rfl | rfl | rfl | rfl | rfl | rfl | rfl
  · exact newline_notMem_countLineOf c
  · exact newline_notMem_field (by decide) (newline_notMem_hex2 _)
  · exact newline_notMem_field (by decide) (newline_notMem_decimal _)
  · exact newline_notMem_field (by decide) (newline_notMem_hex2 _)
  · decide
  · decide
  · decide
  · decide
  · exact List.not_mem_nil

theorem kept_start (reduced : Bool) (s t : Nat) (parameter : List UInt8) (cases : Nat → TestCase) :
    Kept reduced s t parameter cases 0
      { countLine := 0
        keygen := []
        sig := []
        rsp := text "# " ++ parameter ++ [newline, newline]
        sk := []
        pk := []
        sm := [] } where
  countLine := rfl
  keygen := rfl
  sig := rfl
  rsp := by simp [rspFile, history, unlines]

/-- The host goes through the script of every run. -/
theorem speaks_readRsp (hs : 2 ≤ s) {parameter : List UInt8} (hp : newline ∉ parameter)
    (cases : Nat → TestCase) (N : Nat) :
    ∃ st, (readRsp reduced s t parameter (requests cases N)).Speaks
      (runScript reduced s t cases N) st := by
  have hlines : ∀ l ∈ (List.range' 0 N).flatMap (fun c => requestLines c (cases c))
      ++ [text "finished"], newline ∉ l := by
    intro l hl
    rcases List.mem_append.mp hl with hl | hl
    · obtain ⟨c, -, hl⟩ := List.mem_flatMap.mp hl
      exact newline_notMem_requestLines (cases c) l hl
    · obtain rfl := List.mem_singleton.mp hl
      decide
  obtain ⟨st, hrun, -⟩ := Dialog.speaks_foldlM_invariant
    (g := fun c => requestLines c (cases c)) (Kept reduced s t parameter cases)
    (fun c st _ _ h => h.step hs hp) (n := N) (kept_start reduced s t parameter cases)
  have hend := (@speaks_finishedRequest reduced s t st).foldlM_cons
    (Dialog.speaks_foldlM_nil (onLine (readRspLine reduced s t)) st)
  refine ⟨st, ?_⟩
  rw [readRsp, requests, foldlM_fileLines hlines]
  rw [List.append_nil] at hend
  exact hrun.foldlM_append hend

/-- The host is a memory for the device: whatever the device has printed for the
    counts so far, every request is answered with what it has printed for the
    same count.  With a device that does anything else in between, the host
    keeps to this as long as what it has received is that of the run. -/
theorem readRsp_memory (reduced : Bool) {s : Nat} (hs : 2 ≤ s) (t : Nat) {parameter : List UInt8}
    (hp : newline ∉ parameter) (cases : Nat → TestCase) (N : Nat) :
    (∃ st, (readRsp reduced s t parameter (requests cases N)).Speaks
        (runScript reduced s t cases N) st) ∧
      ∀ {ε α : Type} (device : Dialog ε UInt8 α) (c : Config UInt8),
        Network.Reachable device (readRsp reduced s t parameter (requests cases N)) c →
        Network.received c.right <+: Network.received (runScript reduced s t cases N) →
        c.right <+: runScript reduced s t cases N := by
  obtain ⟨st, hspeaks⟩ := @speaks_readRsp reduced s t hs parameter hp cases N
  exact ⟨⟨st, hspeaks⟩, fun _ _ hc hr => hc.right_prefix hspeaks hr⟩

/-- A small case, different for every count. -/
def toyCase (c : Nat) : TestCase where
  seed := [UInt8.ofNat c]
  msg := []
  G0 := [1, UInt8.ofNat c]
  Ainv i := [UInt8.ofNat c, UInt8.ofNat i]
  Binv i := [UInt8.ofNat c, UInt8.ofNat i, 0]
  G _ := []
  sk := [UInt8.ofNat c]
  sk_ne := List.cons_ne_nil _ _
  pk i := [UInt8.ofNat i]
  sigG0 := [UInt8.ofNat c, 2]
  Atilde i := [UInt8.ofNat i, UInt8.ofNat c]
  Btilde _ := [255]
  sm _ := [0]
  smlen := c

/-- Eleven counts: the line of count 10 starts with that of count 1. -/
theorem readRsp_memory_eleven :
    ∃ st, (readRsp true 3 2 (text "MEDS167717") (requests toyCase 11)).Speaks
      (runScript true 3 2 toyCase 11) st :=
  (readRsp_memory true (by decide) 2 (by decide) toyCase 11).1

end Meds.Sage
