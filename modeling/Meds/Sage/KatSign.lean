/-
  Meds.Sage.KatSign

  Signing for one count: the secret key comes from the response file, which
  already has it for every earlier count; the commitment matrices are
  recorded and sent back from the file that they were recorded in.
-/

import Meds.Sage.KatKeygen

namespace Meds.Sage

open Meds.Core Meds.Ref

variable {reduced : Bool} {s t c : Nat}

/-! ## Recording -/

theorem speaks_recordSig (d : TestCase) (i : Nat) (file : List UInt8) :
    (sigIndex reduced (keptG0 reduced d.sigG0) i file).Speaks (recordSig reduced d i)
      (file ++ unlines newline (commitLines d i)) :=
  (Dialog.speaks_get 0).bind ((speaks_readLine_hex (d.Atilde i)).bind
    ((speaks_readLine_hex (d.Btilde i)).bind ((speaks_echoG0 reduced d.sigG0).bind
      ((Dialog.speaks_put one).bind_pure (Dialog.speaks_pure _)))))

/-- The loop of `do_get_data_from_sig` records one commitment after the other. -/
theorem speaks_recordSigs (d : TestCase) (file : List UInt8) :
    Dialog.Speaks (forUpM 0 t (sigIndex reduced (keptG0 reduced d.sigG0)) file)
      ((List.range' 0 t).flatMap (recordSig reduced d))
      (file ++ unlines newline ((List.range' 0 t).flatMap (commitLines d))) := by
  have hloop := Dialog.speaks_forUpM
    (f := sigIndex reduced (keptG0 reduced d.sigG0))
    (fun i => file ++ unlines newline ((List.range' 0 i).flatMap (commitLines d)))
    (recordSig reduced d) (Nat.zero_le t) fun i _ _ => by
      have := @speaks_recordSig reduced d i
        (file ++ unlines newline ((List.range' 0 i).flatMap (commitLines d)))
      rwa [List.append_assoc, ← unlines_append, ← flatMap_range'_succ] at this
  have hnil : file ++ unlines newline ((List.range' 0 0).flatMap (commitLines d)) = file :=
    List.append_nil file
  rwa [hnil] at hloop

/-! ## The lines of a signature -/

theorem entry_commitLines (d : TestCase) (i : Nat) : ∀ l ∈ commitLines d i, Entry l := by
  intro l hl
  simp only [commitLines, List.mem_cons, List.not_mem_nil, or_false] at hl
  rcases hl with rfl | rfl
  · exact ⟨newline_notMem_indexed (by decide) i _, rfl⟩
  · exact ⟨newline_notMem_indexed (by decide) i _, rfl⟩

theorem entry_sigLines (d : TestCase) : ∀ l ∈ sigLines reduced t d, Entry l := by
  intro l hl
  rcases List.mem_append.mp hl with hl | hl
  · exact entry_G0Lines l hl
  · obtain ⟨i, -, hl⟩ := List.mem_flatMap.mp hl
    exact entry_commitLines d i l hl

/-- The line of G_0 is that of no commitment. -/
theorem G0_not_commit {G0 : List UInt8} : ∀ l ∈ (G0Lines reduced G0).map fileLine,
    startsWith (l ++ [newline]) "A_tilde_data" = false ∧
      startsWith (l ++ [newline]) "B_tilde_data" = false := by
  intro l hl
  cases reduced with
  | false => exact absurd hl List.not_mem_nil
  | true =>
      obtain rfl := List.mem_singleton.mp hl
      exact ⟨rfl, rfl⟩

/-- A line of the request file that is copied. -/
theorem entry_field {c : UInt8} (hc : isSpace c = false) (a : List UInt8) {l : List UInt8}
    (hl : newline ∉ l) (ha : newline ∉ c :: a)
    (hcount : ∀ x, startsWith (c :: a ++ 61 :: x) "count = " = false)
    (hsk : ∀ x, startsWith (c :: a ++ 61 :: x) "sk = " = false) :
    Entry (strip (c :: a ++ 61 :: 32 :: l ++ [newline])) ∧
      startsWith (strip (c :: a ++ 61 :: 32 :: l ++ [newline]) ++ [newline]) "sk = " = false := by
  have hline : strip (c :: a ++ 61 :: 32 :: l ++ [newline]) = c :: a ++ 61 :: rstrip (32 :: l) := by
    rw [List.append_assoc, @List.cons_append _ _ _ [newline], strip_append_cons hc (by decide),
      rstrip_newline]
  rw [hline]
  refine ⟨⟨fun h => ?_, ?_⟩, ?_⟩
  · rcases List.mem_append.mp h with h | h
    · exact ha h
    · rcases List.mem_cons.mp h with h | h
      · exact absurd h (by decide)
      · rcases List.mem_cons.mp (rstrip_subset _ h) with h | h
        · exact absurd h (by decide)
        · exact hl h
  · rw [List.append_assoc, List.cons_append]
    exact hcount _
  · rw [List.append_assoc, List.cons_append]
    exact hsk _

/-- The lines of the response file in front of the secret key. -/
theorem entry_rspHead (d : TestCase) : ∀ l ∈ rspHead s d,
    Entry l ∧ startsWith (l ++ [newline]) "sk = " = false := by
  intro l hl
  simp only [rspHead, List.mem_cons, List.not_mem_nil, or_false] at hl
  rcases hl with rfl | rfl | rfl | rfl
  · exact entry_field (by decide) [101, 101, 100, 32] (newline_notMem_hex2 d.seed) (by decide)
      (fun _ => rfl) fun _ => rfl
  · exact entry_field (by decide) [108, 101, 110, 32] (newline_notMem_decimal _) (by decide)
      (fun _ => rfl) fun _ => rfl
  · exact entry_field (by decide) [115, 103, 32] (newline_notMem_hex2 d.msg) (by decide)
      (fun _ => rfl) fun _ => rfl
  · refine ⟨⟨newline_notMem_field (by decide) fun h => ?_, rfl⟩, rfl⟩
    obtain ⟨l, hl, h⟩ := List.mem_flatten.mp h
    obtain ⟨i, -, rfl⟩ := List.mem_map.mp hl
    exact newline_notMem_hex2 _ h

/-! ## One signature -/

/-- The file of the commitments before count `c`. -/
def sigFile (reduced : Bool) (t : Nat) (cases : Nat → TestCase) : Nat → List (List UInt8) :=
  history fun j => sigLines reduced t (cases j)

/-- `do_get_data_from_sig` for count `c` sends the secret key of `c`, records
    the commitments and answers every request with them. -/
theorem speaks_doGetDataFromSig (cases : Nat → TestCase) {old : List (List UInt8)}
    (hnewline : ∀ l ∈ old, newline ∉ l)
    (hold : ∀ l ∈ old, startsCount c (l ++ [newline]) = false) :
    (doGetDataFromSig reduced t
        (unlines newline (old ++ countLineOf c :: (rspHead s (cases c) ++ [skFileLine (cases c)])))
        c (unlines newline (sigFile reduced t cases c ++ [countLineOf c]))).Speaks
      (signScript reduced t (cases c))
      (smReplies t (cases c), unlines newline (sigFile reduced t cases (c + 1))) := by
  -- no line of the response file has a line break inside
  have hrsp : ∀ l ∈ old ++ countLineOf c :: (rspHead s (cases c) ++ [skFileLine (cases c)]),
      newline ∉ l := by
    intro l hl
    rcases List.mem_append.mp hl with hl | hl
    · exact hnewline l hl
    · rcases List.mem_cons.mp hl with rfl | hl
      · exact newline_notMem_countLineOf c
      · rcases List.mem_append.mp hl with hl | hl
        · exact (entry_rspHead (cases c) l hl).1.newline_notMem
        · obtain rfl := List.mem_singleton.mp hl
          exact (entry_skFileLine (cases c)).newline_notMem
  have hfield : secondField 61 (strip (skFileLine (cases c) ++ [newline]))
      = pure ((cases c).sk.flatMap hex2) :=
    @secondField_strip [107, 32] 115 (by decide) (by decide) (cases c).sk
  -- the secret key stands behind the line of this count
  have hsk := @speaks_skScan c old (rspHead s (cases c)) (skFileLine (cases c)) (cases c).sk hold
    (fun l hl => ⟨(entry_rspHead (cases c) l hl).1.startsCount c, (entry_rspHead (cases c) l hl).2⟩)
    ((entry_skFileLine (cases c)).startsCount c) rfl hfield
  rw [← foldlM_fileLines hrsp] at hsk
  have hr : ∀ j, ∀ l ∈ sigLines reduced t (cases j), Entry l := fun j => entry_sigLines _
  have hfile : unlines newline (sigFile reduced t cases c ++ [countLineOf c])
      ++ unlines newline ((G0Lines reduced (cases c).sigG0).map fileLine)
      ++ unlines newline ((List.range' 0 t).flatMap (commitLines (cases c)))
      = unlines newline (sigFile reduced t cases (c + 1)) := by
    rw [← unlines_append, ← unlines_append, sigFile, history_succ, List.append_assoc,
      List.append_assoc]
    rfl
  -- the requests are answered from the file that has just been written
  have hscan := @speaks_sigScan c t (cases c) (history (fun j => sigLines reduced t (cases j)) c)
    ((G0Lines reduced (cases c).sigG0).map fileLine) (startsCount_history hr) G0_not_commit
  have hlast : history (fun j => sigLines reduced t (cases j)) c ++ countLineOf c ::
      ((G0Lines reduced (cases c).sigG0).map fileLine
        ++ (List.range' 0 t).flatMap (commitLines (cases c)))
      = sigFile reduced t cases (c + 1) := by
    rw [sigFile, history_succ]
    rfl
  rw [hlast, sigFile, ← foldlM_fileLines (newline_notMem_history hr)] at hscan
  have hrec := @speaks_recordSigs reduced t (cases c)
    (unlines newline (sigFile reduced t cases c ++ [countLineOf c])
      ++ unlines newline ((G0Lines reduced (cases c).sigG0).map fileLine))
  rw [hfile] at hrec
  exact hsk.bind ((speaks_askG0 reduced (cases c).sigG0).bind (hrec.bind (hscan.bind
    ((Dialog.speaks_get 0).bind ((speaks_readLine_hex ((cases c).sm t)).bind
      ((Dialog.speaks_put one).bind_pure (Dialog.speaks_pure _)))))))

end Meds.Sage
