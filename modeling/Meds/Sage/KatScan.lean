/-
  Meds.Sage.KatScan

  The loops of the host over its files, line by line.

  A loop does nothing before the line of the current count (`found` is off
  and stays so) and nothing for lines of other matrices; for a line it looks
  for it answers one request.  After the last of them `found` is off again,
  as the next loop expects it.
-/

import Meds.Sage.KatMemory

namespace Meds.Sage

open Meds.Core Meds.Ref

/-- A line without its line break. -/
def onLine {σ : Type} (f : σ → List UInt8 → Dialog Ref.PyError UInt8 σ) (s : σ) (l : List UInt8) :
    Dialog Ref.PyError UInt8 σ :=
  f s (l ++ [newline])

/-- A loop over a file of whole lines. -/
theorem foldlM_fileLines {σ : Type} {f : σ → List UInt8 → Dialog Ref.PyError UInt8 σ}
    {ls : List (List UInt8)} (h : ∀ l ∈ ls, newline ∉ l) (s : σ) :
    (fileLines (unlines newline ls)).foldlM f s = ls.foldlM (onLine f) s := by
  rw [fileLines, lines_unlines h, List.foldlM_map]
  rfl

/-- The host sends the bytes of a line with a name and an index. -/
theorem speaks_sendField {name : String} {c : UInt8} {a : List UInt8} (hname : text name = c :: a)
    (hc : isSpace c = false) (ha : 61 ∉ c :: a) (i : Nat) (l : List UInt8) :
    (sendField (text name ++ decimal i ++ text " = " ++ l.flatMap hex2 ++ [newline])).Speaks
      (sendBytes l) () := by
  have hline : text name ++ decimal i ++ text " = " ++ l.flatMap hex2 ++ [newline]
      = c :: (a ++ decimal i ++ [32]) ++ 61 :: 32 :: (l.flatMap hex2 ++ [newline]) := by
    rw [hname, show text " = " = [32, 61, 32] from rfl]
    simp
  have hno : 61 ∉ c :: (a ++ decimal i ++ [32]) := by
    intro h
    rw [← List.cons_append, ← List.cons_append, List.mem_append, List.mem_append,
      List.mem_singleton] at h
    rcases h with (h | h) | h
    · exact ha h
    · exact absurd (mem_decimal h).2 (by decide)
    · exact absurd h (by decide)
  rw [hline, sendField, secondField_strip hc hno, pure_bind]
  exact speaks_sendHex_hex l

/-! ## The loops of key generation -/

section

variable {c last : Nat} {name : String} {reply : Dialog Ref.PyError UInt8 (List (List UInt8))}
  {s : Scan} {line : List UInt8}

/-- A line in front of the count, or of another matrix. -/
theorem speaks_scanLine_skip (hcount : startsCount c (line ++ [newline]) = false)
    (h : s.found = false ∨ startsWith (line ++ [newline]) name = false) :
    (onLine (scanLine c last name reply) s line).Speaks [] s := by
  have hno : (s.found && startsWith (line ++ [newline]) name) = false := by
    rcases h with h | h
    · rw [h, Bool.false_and]
    · rw [h, Bool.and_false]
  simp only [onLine, scanLine, hcount, Bool.false_or, hno, Bool.false_eq_true, if_false]
  exact Dialog.speaks_pure s

/-- The line of the count. -/
theorem speaks_scanLine_count (hcount : startsCount c (line ++ [newline]) = true)
    (h : startsWith (line ++ [newline]) name = false) :
    (onLine (scanLine c last name reply) s line).Speaks [] { s with found := true } := by
  simp only [onLine, scanLine, hcount, Bool.true_or, h, Bool.and_false, Bool.false_eq_true,
    if_false]
  exact Dialog.speaks_pure _

/-- A line that is looked for. -/
theorem speaks_scanLine_hit {M : List UInt8} {q : List (Act UInt8)} {r : List (List UInt8)}
    (hcount : startsCount c (line ++ [newline]) = false) (hfound : s.found = true)
    (h : startsWith (line ++ [newline]) name = true)
    (hfield : (sendField (line ++ [newline])).Speaks (sendBytes M) ()) (hreply : reply.Speaks q r) :
    (onLine (scanLine c last name reply) s line).Speaks (answer M q)
      { found := s.count + 1 ≠ last, count := s.count + 1, replies := s.replies ++ r } := by
  simp only [onLine, scanLine, hcount, hfound, h, Bool.false_or, Bool.and_self, if_true]
  exact (Dialog.speaks_get 0).bind (hfield.bind (hreply.bind
    ((Dialog.speaks_put one).bind_pure (Dialog.speaks_pure _))))

end

/-- Lines that a loop of key generation passes over, once it has found its count. -/
def Passed (c : Nat) (name : String) (l : List UInt8) : Prop :=
  startsCount c (l ++ [newline]) = false ∧ startsWith (l ++ [newline]) name = false

/-- A line that a loop of key generation answers with `M`. -/
structure Hit (c : Nat) (name : String) (M l : List UInt8) : Prop where
  other : startsCount c (l ++ [newline]) = false
  starts : startsWith (l ++ [newline]) name = true
  field : (sendField (l ++ [newline])).Speaks (sendBytes M) ()

/-- One of the lines is answered with `M`, the others are passed over. -/
def OneHit (c : Nat) (name : String) (M : List UInt8) (ls : List (List UInt8)) : Prop :=
  ∃ before l after, ls = before ++ l :: after ∧ (∀ x ∈ before, Passed c name x) ∧
    Hit c name M l ∧ ∀ x ∈ after, Passed c name x

section

variable {c n : Nat} {name : String} {reply : Dialog Ref.PyError UInt8 (List (List UInt8))}
  {M : Nat → List UInt8} {q : Nat → List (Act UInt8)} {r : Nat → List (List UInt8)}

/-- The variables of a loop before index `i`. -/
def scanAt (n : Nat) (r : Nat → List (List UInt8)) (i : Nat) : Scan where
  found := i ≠ n + 1
  count := i - 1
  replies := (List.range' 1 (i - 1)).flatMap r

/-- Lines that are passed over leave everything as it is. -/
theorem speaks_passed {last : Nat} (s : Scan) {ls : List (List UInt8)}
    (h : ∀ l ∈ ls, Passed c name l) :
    Dialog.Speaks (ls.foldlM (onLine (scanLine c last name reply)) s) [] s :=
  Dialog.speaks_foldlM_skip fun l hl => speaks_scanLine_skip (h l hl).1 (Or.inr (h l hl).2)

/-- The lines of one index. -/
theorem speaks_scanIndex {i : Nat} (h1 : 1 ≤ i) (hn : i ≤ n) (hreply : reply.Speaks (q i) (r i))
    {ls : List (List UInt8)} (hls : OneHit c name (M i) ls) :
    Dialog.Speaks (ls.foldlM (onLine (scanLine c n name reply)) (scanAt n r i))
      (answer (M i) (q i)) (scanAt n r (i + 1)) := by
  obtain ⟨before, l, after, rfl, hbefore, hl, hafter⟩ := hls
  have hfound : (scanAt n r i).found = true := decide_eq_true (by omega)
  have hnext : ({ found := (scanAt n r i).count + 1 ≠ n
                  count := (scanAt n r i).count + 1
                  replies := (scanAt n r i).replies ++ r i } : Scan) = scanAt n r (i + 1) := by
    obtain ⟨j, rfl⟩ : ∃ j, i = j + 1 := ⟨i - 1, by omega⟩
    simp [scanAt, List.range'_1_concat, Nat.add_comm 1 j]
  have hhit := @speaks_scanLine_hit c n name reply _ l (M i) _ _ hl.other hfound hl.starts hl.field
    hreply
  rw [hnext] at hhit
  have := (speaks_passed _ hbefore).foldlM_append (hhit.foldlM_cons (speaks_passed _ hafter))
  rwa [List.nil_append, List.append_nil] at this

/-- A loop of key generation over a file whose last count is `c`. -/
theorem speaks_scan (hn : 1 ≤ n) (hreply : ∀ i, 1 ≤ i → i ≤ n → reply.Speaks (q i) (r i))
    {old head : List (List UInt8)} {g : Nat → List (List UInt8)}
    (hold : ∀ l ∈ old, startsCount c (l ++ [newline]) = false)
    (hname : startsWith (countLineOf c ++ [newline]) name = false)
    (hhead : ∀ l ∈ head, Passed c name l)
    (hg : ∀ i, 1 ≤ i → i ≤ n → OneHit c name (M i) (g i)) :
    Dialog.Speaks ((old ++ countLineOf c :: (head ++ (List.range' 1 n).flatMap g)).foldlM
        (onLine (scanLine c n name reply)) { found := false, count := 0, replies := [] })
      ((List.range' 1 n).flatMap fun i => answer (M i) (q i))
      { found := false, count := n, replies := (List.range' 1 n).flatMap r } := by
  have hstart : ({ found := true, count := 0, replies := [] } : Scan) = scanAt n r 1 := by
    simp only [scanAt, Nat.sub_self, List.range'_zero, List.flatMap_nil, Scan.mk.injEq, and_true]
    exact (decide_eq_true (by omega)).symm
  have hend : scanAt n r (1 + n)
      = { found := false, count := n, replies := (List.range' 1 n).flatMap r } := by
    simp [scanAt, Nat.add_comm 1 n]
  -- before the count, its line, the lines in front of the first index, the indices
  have hskip : Dialog.Speaks (old.foldlM (onLine (scanLine c n name reply))
      { found := false, count := 0, replies := [] }) []
      { found := false, count := 0, replies := [] } :=
    Dialog.speaks_foldlM_skip fun l hl => speaks_scanLine_skip (hold l hl) (Or.inl rfl)
  have hcount := @speaks_scanLine_count c n name reply
    { found := false, count := 0, replies := [] } (countLineOf c) (startsCount_self c [newline])
    hname
  have hmain : Dialog.Speaks (((List.range' 1 n).flatMap g).foldlM
      (onLine (scanLine c n name reply)) (scanAt n r 1))
      ((List.range' 1 n).flatMap fun i => answer (M i) (q i)) (scanAt n r (1 + n)) :=
    Dialog.speaks_foldlM_flatMap (scanAt n r) fun i h1 h2 =>
      speaks_scanIndex h1 (by omega) (hreply i h1 (by omega)) (hg i h1 (by omega))
  rw [hend] at hmain
  rw [hstart] at hcount
  exact hskip.foldlM_append (hcount.foldlM_cons ((speaks_passed _ hhead).foldlM_append hmain))

end

/-! ## The loop that looks for the secret key -/

section

variable {c : Nat} {found : Bool} {line : List UInt8}

theorem speaks_skLine_skip (hcount : startsCount c (line ++ [newline]) = false)
    (h : found = false ∨ startsWith (line ++ [newline]) "sk = " = false) :
    (onLine (skLine c) found line).Speaks [] found := by
  have hno : (found && startsWith (line ++ [newline]) "sk = ") = false := by
    rcases h with h | h
    · rw [h, Bool.false_and]
    · rw [h, Bool.and_false]
  simp only [onLine, skLine, hcount, Bool.false_or, hno, Bool.false_eq_true, if_false]
  exact Dialog.speaks_pure found

theorem speaks_skLine_count (hcount : startsCount c (line ++ [newline]) = true)
    (h : startsWith (line ++ [newline]) "sk = " = false) :
    (onLine (skLine c) found line).Speaks [] true := by
  simp only [onLine, skLine, hcount, Bool.true_or, h, Bool.and_false, Bool.false_eq_true, if_false]
  exact Dialog.speaks_pure true

theorem speaks_skLine_hit (hcount : startsCount c (line ++ [newline]) = false)
    (h : startsWith (line ++ [newline]) "sk = " = true) {M : List UInt8}
    (hfield : secondField 61 (strip (line ++ [newline])) = pure (M.flatMap hex2)) :
    (onLine (skLine c) true line).Speaks (answer M []) false := by
  simp only [onLine, skLine, hcount, h, Bool.false_or, Bool.and_self, if_true, hfield, pure_bind]
  exact (Dialog.speaks_get 0).bind ((speaks_sendHex_hex M).bind
    ((Dialog.speaks_put one).bind_pure (Dialog.speaks_pure false)))

/-- The loop over a response file that ends with the secret key of count `c`. -/
theorem speaks_skScan {old head : List (List UInt8)} {sk : List UInt8} {M : List UInt8}
    (hold : ∀ l ∈ old, startsCount c (l ++ [newline]) = false)
    (hhead : ∀ l ∈ head, Passed c "sk = " l)
    (hcount : startsCount c (sk ++ [newline]) = false)
    (h : startsWith (sk ++ [newline]) "sk = " = true)
    (hfield : secondField 61 (strip (sk ++ [newline])) = pure (M.flatMap hex2)) :
    Dialog.Speaks ((old ++ countLineOf c :: (head ++ [sk])).foldlM (onLine (skLine c)) false)
      (answer M []) false := by
  have hskip : Dialog.Speaks (old.foldlM (onLine (skLine c)) false) [] false :=
    Dialog.speaks_foldlM_skip fun l hl => speaks_skLine_skip (hold l hl) (Or.inl rfl)
  have hpass : Dialog.Speaks (head.foldlM (onLine (skLine c)) true) [] true :=
    Dialog.speaks_foldlM_skip fun l hl => speaks_skLine_skip (hhead l hl).1 (Or.inr (hhead l hl).2)
  have hstart := @speaks_skLine_count c false (countLineOf c) (startsCount_self c [newline]) rfl
  have hend := (speaks_skLine_hit hcount h hfield).foldlM_cons (Dialog.speaks_foldlM_nil _ _)
  rw [List.append_nil] at hend
  exact hskip.foldlM_append (hstart.foldlM_cons (hpass.foldlM_append hend))

end

/-! ## The loop that looks for the commitments -/

section

variable {c t : Nat} {s : Scan} {line : List UInt8}

theorem speaks_sigLine_skip (hcount : startsCount c (line ++ [newline]) = false)
    (hfound : s.found = false) : (onLine (sigLine c t) s line).Speaks [] s := by
  obtain ⟨found, count, replies⟩ := s
  obtain rfl : found = false := hfound
  simp only [onLine, sigLine, hcount, Bool.false_or, Bool.false_eq_true, if_false]
  exact Dialog.speaks_pure _

/-- The line of the count, and lines behind it that are of no matrix. -/
theorem speaks_sigLine_pass
    (hfound : (startsCount c (line ++ [newline]) || s.found) = true)
    (hA : startsWith (line ++ [newline]) "A_tilde_data" = false)
    (hB : startsWith (line ++ [newline]) "B_tilde_data" = false) :
    (onLine (sigLine c t) s line).Speaks [] { s with found := true } := by
  simp only [onLine, sigLine, hfound, hA, hB, Bool.false_eq_true, if_false, if_true]
  exact Dialog.speaks_pure _

theorem speaks_sigLine_A (hfound : s.found = true)
    (hA : startsWith (line ++ [newline]) "A_tilde_data" = true)
    (hB : startsWith (line ++ [newline]) "B_tilde_data" = false) {M : List UInt8}
    (hfield : (sendField (line ++ [newline])).Speaks (sendBytes M) ()) :
    (onLine (sigLine c t) s line).Speaks ([.recv 0] ++ sendBytes M) s := by
  obtain ⟨found, count, replies⟩ := s
  obtain rfl : found = true := hfound
  simp only [onLine, sigLine, Bool.or_true, hA, hB, Bool.false_eq_true, if_false, if_true]
  exact (Dialog.speaks_get 0).bind (hfield.bind_pure (Dialog.speaks_pure _))

theorem speaks_sigLine_B (hfound : s.found = true) (hlast : s.count < t)
    (hA : startsWith (line ++ [newline]) "A_tilde_data" = false)
    (hB : startsWith (line ++ [newline]) "B_tilde_data" = true) {M m : List UInt8}
    (hfield : (sendField (line ++ [newline])).Speaks (sendBytes M) ()) :
    (onLine (sigLine c t) s line).Speaks (sendBytes M ++ (recvHex m ++ [.send one]))
      { s with count := s.count + 1, replies := s.replies ++ [m.flatMap hex2] } := by
  obtain ⟨found, count, replies⟩ := s
  obtain rfl : found = true := hfound
  have hne : count + 1 ≠ t + 1 := by
    have : count < t := hlast
    omega
  simp only [onLine, sigLine, Bool.or_true, hA, hB, Bool.false_eq_true, if_false, if_true, hne]
  exact hfield.bind ((speaks_readLine_hex m).bind
    ((Dialog.speaks_put one).bind_pure (Dialog.speaks_pure _)))

/-- The variables of the loop before commitment `i`. -/
def sigAt (d : TestCase) (i : Nat) : Scan where
  found := true
  count := i
  replies := (List.range' 0 i).map fun j => (d.sm j).flatMap hex2

/-- The two lines of a commitment. -/
theorem speaks_sigIndex (d : TestCase) {i : Nat} (hi : i < t) :
    Dialog.Speaks ((commitLines d i).foldlM (onLine (sigLine c t)) (sigAt d i)) (answerSig d i)
      (sigAt d (i + 1)) := by
  have hA : (onLine (sigLine c t) (sigAt d i) (text "A_tilde_data " ++ decimal i ++ text " = "
      ++ (d.Atilde i).flatMap hex2)).Speaks ([.recv 0] ++ sendBytes (d.Atilde i)) (sigAt d i) :=
    speaks_sigLine_A rfl rfl rfl (speaks_sendField rfl (by decide) (by decide) i (d.Atilde i))
  have hB : (onLine (sigLine c t) (sigAt d i) (text "B_tilde_data " ++ decimal i ++ text " = "
      ++ (d.Btilde i).flatMap hex2)).Speaks
      (sendBytes (d.Btilde i) ++ (recvHex (d.sm i) ++ [.send one]))
      { sigAt d i with
        count := (sigAt d i).count + 1
        replies := (sigAt d i).replies ++ [(d.sm i).flatMap hex2] } :=
    speaks_sigLine_B rfl hi rfl rfl (speaks_sendField rfl (by decide) (by decide) i (d.Btilde i))
  have hnext : { sigAt d i with
        count := (sigAt d i).count + 1
        replies := (sigAt d i).replies ++ [(d.sm i).flatMap hex2] } = sigAt d (i + 1) := by
    simp [sigAt, List.range'_1_concat]
  rw [hnext] at hB
  have hscript : ([.recv 0] ++ sendBytes (d.Atilde i)) ++
      ((sendBytes (d.Btilde i) ++ (recvHex (d.sm i) ++ [.send one])) ++ []) = answerSig d i := by
    rw [answerSig, List.append_nil, List.append_assoc]
  rw [← hscript]
  exact hA.foldlM_cons (hB.foldlM_cons (Dialog.speaks_foldlM_nil _ _))

/-- The loop over a file of commitments whose last count is `c`. -/
theorem speaks_sigScan (d : TestCase) {old head : List (List UInt8)}
    (hold : ∀ l ∈ old, startsCount c (l ++ [newline]) = false)
    (hhead : ∀ l ∈ head, startsWith (l ++ [newline]) "A_tilde_data" = false ∧
      startsWith (l ++ [newline]) "B_tilde_data" = false) :
    Dialog.Speaks ((old ++ countLineOf c :: (head ++ (List.range' 0 t).flatMap
        (commitLines d))).foldlM (onLine (sigLine c t)) { found := false, count := 0, replies := [] })
      ((List.range' 0 t).flatMap (answerSig d)) (sigAt d t) := by
  have hskip : Dialog.Speaks (old.foldlM (onLine (sigLine c t))
      { found := false, count := 0, replies := [] }) []
      { found := false, count := 0, replies := [] } :=
    Dialog.speaks_foldlM_skip fun l hl => speaks_sigLine_skip (hold l hl) rfl
  have hcount := @speaks_sigLine_pass c t { found := false, count := 0, replies := [] }
    (countLineOf c) (by rw [countLineOf, startsCount_self, Bool.true_or]) rfl rfl
  have hpass : Dialog.Speaks (head.foldlM (onLine (sigLine c t)) (sigAt d 0)) [] (sigAt d 0) :=
    Dialog.speaks_foldlM_skip fun l hl =>
      speaks_sigLine_pass (Bool.or_true _) (hhead l hl).1 (hhead l hl).2
  have hmain : Dialog.Speaks (((List.range' 0 t).flatMap (commitLines d)).foldlM
      (onLine (sigLine c t)) (sigAt d 0)) ((List.range' 0 t).flatMap (answerSig d))
      (sigAt d (0 + t)) :=
    Dialog.speaks_foldlM_flatMap (sigAt d) fun i _ hi => speaks_sigIndex d (by omega)
  rw [Nat.zero_add] at hmain
  exact hskip.foldlM_append (hcount.foldlM_cons (hpass.foldlM_append hmain))

end

end Meds.Sage
