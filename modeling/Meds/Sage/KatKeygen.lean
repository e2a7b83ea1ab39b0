/-
  Meds.Sage.KatKeygen

  Key generation for one count: the matrices of a key are recorded and sent
  back from the file that they were recorded in.
-/

import Meds.Sage.KatScan

namespace Meds.Sage

open Meds.Core Meds.Ref

variable {reduced : Bool} {s t c : Nat}

/-! ## Recording -/

/-- The digits of G_0, which the host keeps for the memory-reduced build. -/
def keptG0 (reduced : Bool) (G0 : List UInt8) : List UInt8 :=
  if reduced then G0.flatMap hex2 else []

theorem speaks_askG0 (reduced : Bool) (G0 : List UInt8) :
    (hostKeygenStart reduced).Speaks (askG0 reduced G0) (keptG0 reduced G0, G0Lines reduced G0) := by
  cases reduced with
  | false => exact Dialog.speaks_pure _
  | true =>
      exact (Dialog.speaks_get 0).bind ((speaks_readLine_hex G0).bind
        ((Dialog.speaks_put one).bind_pure (Dialog.speaks_pure _)))

theorem speaks_echoG0 (reduced : Bool) (G0 : List UInt8) :
    (sendBack reduced (keptG0 reduced G0)).Speaks (echoG0 reduced G0) () := by
  cases reduced with
  | false => exact Dialog.speaks_pure ()
  | true => exact speaks_sendHex_hex G0

theorem speaks_recordKey (d : TestCase) (i : Nat) (file : List FileLine) :
    (hostKeygenIndex reduced (keptG0 reduced d.G0) i file).Speaks (recordKey reduced d i)
      (file ++ keyLines d i) :=
  (Dialog.speaks_get 0).bind ((speaks_echoG0 reduced d.G0).bind
    ((speaks_readLine_hex (d.Ainv i)).bind ((speaks_readLine_hex (d.Binv i)).bind
      ((speaks_readLine_hex (d.G i)).bind ((speaks_echoG0 reduced d.G0).bind
        ((Dialog.speaks_put one).bind_pure (Dialog.speaks_pure _)))))))

/-- The first part of `do_get_data_from_keygen` records one key. -/
theorem speaks_recordKeys (hs : 1 ≤ s) (d : TestCase) :
    (Ref.doGetDataFromKeygen reduced s).Speaks
      (askG0 reduced d.G0 ++ (List.range' 1 (s - 1)).flatMap (recordKey reduced d))
      (G0Lines reduced d.G0 ++ (List.range' 1 (s - 1)).flatMap (keyLines d)) := by
  have hloop := Dialog.speaks_forUpM
    (f := hostKeygenIndex reduced (keptG0 reduced d.G0))
    (fun i => G0Lines reduced d.G0 ++ (List.range' 1 (i - 1)).flatMap (keyLines d))
    (recordKey reduced d) hs fun i h1 _ => by
      obtain ⟨j, rfl⟩ : ∃ j, i = j + 1 := ⟨i - 1, by omega⟩
      have := @speaks_recordKey reduced d (j + 1)
        (G0Lines reduced d.G0 ++ (List.range' 1 j).flatMap (keyLines d))
      rwa [List.append_assoc, ← List.flatMap_singleton (keyLines d) (j + 1), ← List.flatMap_append,
        Nat.add_comm j 1, ← List.range'_1_concat, Nat.add_comm 1 j] at this
  have hnil : G0Lines reduced d.G0 ++ (List.range' 1 (1 - 1)).flatMap (keyLines d)
      = G0Lines reduced d.G0 := List.append_nil _
  rw [hnil] at hloop
  exact (speaks_askG0 reduced d.G0).bind hloop

/-! ## The lines of key generation -/

theorem keygenLines_eq (reduced : Bool) (s : Nat) (d : TestCase) :
    keygenLines reduced s d = (G0Lines reduced d.G0).map fileLine
      ++ (List.range' 1 (s - 1)).flatMap fun i => (keyLines d i).map fileLine := by
  rw [keygenLines, List.map_append, List.map_flatMap]

theorem entry_keygenLines (d : TestCase) : ∀ l ∈ keygenLines reduced s d, Entry l := by
  intro l hl
  rw [keygenLines_eq] at hl
  rcases List.mem_append.mp hl with hl | hl
  · exact entry_G0Lines l hl
  · obtain ⟨i, -, hl⟩ := List.mem_flatMap.mp hl
    simp only [keyLines, List.map_cons, List.map_nil, List.mem_cons, List.not_mem_nil, or_false] at hl
    rcases hl with rfl | rfl | rfl
    · exact entry_Ainv i _
    · exact entry_Binv i _
    · exact entry_G i _

/-- The lines of G_0 are passed over. -/
theorem passed_G0 {name : String} (hname : ∀ x, startsWith (text "G0_data = " ++ x) name = false)
    {G0 : List UInt8} : ∀ l ∈ (G0Lines reduced G0).map fileLine, Passed c name l := by
  intro l hl
  cases reduced with
  | false => exact absurd hl List.not_mem_nil
  | true =>
      obtain rfl := List.mem_singleton.mp hl
      exact ⟨(entry_G0 G0).startsCount c, by
        rw [fileLine, List.append_assoc]
        exact hname _⟩

/-- The three matrices of an index; each loop looks for one of them. -/
theorem hit_Ainv (d : TestCase) (i : Nat) :
    OneHit c "A_inv_data" (d.Ainv i) ((keyLines d i).map fileLine) := by
  refine ⟨[], _, _, rfl, by simp, ⟨(entry_Ainv i _).startsCount c, rfl,
    speaks_sendField rfl (by decide) (by decide) i (d.Ainv i)⟩, ?_⟩
  intro x hx
  simp only [List.map_cons, List.map_nil, List.mem_cons, List.not_mem_nil, or_false] at hx
  rcases hx with rfl | rfl
  · exact ⟨(entry_Binv i _).startsCount c, rfl⟩
  · exact ⟨(entry_G i _).startsCount c, rfl⟩

theorem hit_Binv (d : TestCase) (i : Nat) :
    OneHit c "B_inv_data" (d.Binv i) ((keyLines d i).map fileLine) := by
  refine ⟨[fileLine (.Ainv i ((d.Ainv i).flatMap hex2))], _, _, rfl, ?_,
    ⟨(entry_Binv i _).startsCount c, rfl,
      speaks_sendField rfl (by decide) (by decide) i (d.Binv i)⟩, ?_⟩
  · intro x hx
    obtain rfl := List.mem_singleton.mp hx
    exact ⟨(entry_Ainv i _).startsCount c, rfl⟩
  · intro x hx
    obtain rfl := List.mem_singleton.mp hx
    exact ⟨(entry_G i _).startsCount c, rfl⟩

theorem hit_G (d : TestCase) (i : Nat) :
    OneHit c "G_data" (d.G i) ((keyLines d i).map fileLine) := by
  refine ⟨[fileLine (.Ainv i ((d.Ainv i).flatMap hex2)),
      fileLine (.Binv i ((d.Binv i).flatMap hex2))], _, [], rfl, ?_,
    ⟨(entry_G i _).startsCount c, rfl,
      speaks_sendField rfl (by decide) (by decide) i (d.G i)⟩, by simp⟩
  intro x hx
  simp only [List.mem_cons, List.not_mem_nil, or_false] at hx
  rcases hx with rfl | rfl
  · exact ⟨(entry_Ainv i _).startsCount c, rfl⟩
  · exact ⟨(entry_Binv i _).startsCount c, rfl⟩

/-! ## One key -/

/-- The file of key generation before count `c`. -/
def keygenFile (reduced : Bool) (s : Nat) (cases : Nat → TestCase) : Nat → List (List UInt8) :=
  history fun j => keygenLines reduced s (cases j)

theorem hex2_ne_nil {l : List UInt8} (h : l ≠ []) : l.flatMap hex2 ≠ [] := by
  obtain ⟨b, l, rfl⟩ := List.exists_cons_of_ne_nil h
  exact List.cons_ne_nil _ _

theorem entry_skFileLine (d : TestCase) : Entry (skFileLine d) :=
  entry_hex (by decide) (fun _ => rfl) d.sk

/-- The host reads the line of the secret key. -/
theorem speaks_readLine_sk (d : TestCase) :
    readLine.Speaks (recvLine (skFileLine d)) (skFileLine d) := by
  have hstrip : strip (skFileLine d ++ [newline]) = skFileLine d :=
    strip_line (by decide) [107, 32, 61, 32] (hex2_ne_nil d.sk_ne)
      fun c hc => isSpace_of_mem_hex hc
  refine (speaks_readline (entry_skFileLine d).newline_notMem).bind_pure ?_
  rw [hstrip]
  exact Dialog.speaks_pure _

section

variable (hs : 2 ≤ s) (cases : Nat → TestCase)

include hs

/-- One of the loops over the file of key generation, which ends with count `c`. -/
theorem speaks_keyScan {name : String} {reply : Dialog Ref.PyError UInt8 (List (List UInt8))}
    {M : Nat → List UInt8} {q : Nat → List (Act UInt8)} {r : Nat → List (List UInt8)}
    (hreply : ∀ i, reply.Speaks (q i) (r i))
    (hname : startsWith (countLineOf c ++ [newline]) name = false)
    (hG0 : ∀ x, startsWith (text "G0_data = " ++ x) name = false)
    (hhit : ∀ i, OneHit c name (M i) ((keyLines (cases c) i).map fileLine)) :
    Dialog.Speaks
      ((fileLines (unlines newline (keygenFile reduced s cases (c + 1)))).foldlM
        (scanLine c (s - 1) name reply) { found := false, count := 0, replies := [] })
      ((List.range' 1 (s - 1)).flatMap fun i => answer (M i) (q i))
      { found := false, count := s - 1, replies := (List.range' 1 (s - 1)).flatMap r } := by
  have hr : ∀ j, ∀ l ∈ keygenLines reduced s (cases j), Entry l := fun j => entry_keygenLines _
  rw [keygenFile, foldlM_fileLines (newline_notMem_history hr), history_succ, keygenLines_eq]
  exact speaks_scan (by omega) (fun i _ _ => hreply i) (startsCount_history hr) hname
    (passed_G0 hG0) fun i _ _ => hhit i

/-- `do_get_data_from_keygen` for count `c` records the matrices of its key and
    answers every request with them. -/
theorem speaks_doGetDataFromKeygen :
    (doGetDataFromKeygen reduced s
        (unlines newline (keygenFile reduced s cases c ++ [countLineOf c])) c).Speaks
      (keysScript reduced s (cases c))
      (skFileLine (cases c), (List.range' 1 (s - 1)).map fun i => ((cases c).pk i).flatMap hex2,
        unlines newline (keygenFile reduced s cases (c + 1))) := by
  have hfile : unlines newline (keygenFile reduced s cases c ++ [countLineOf c])
      ++ unlines newline (keygenLines reduced s (cases c))
      = unlines newline (keygenFile reduced s cases (c + 1)) := by
    rw [← unlines_append, keygenFile, history_succ, List.append_assoc]
    rfl
  have hA := @speaks_keyScan reduced s c hs cases "A_inv_data" (pure []) _ _ (fun _ => [])
    (fun _ => Dialog.speaks_pure []) rfl (fun _ => rfl) (hit_Ainv (cases c))
  have hB := @speaks_keyScan reduced s c hs cases "B_inv_data" (pure []) _ _ (fun _ => [])
    (fun _ => Dialog.speaks_pure []) rfl (fun _ => rfl) (hit_Binv (cases c))
  have hreply : ∀ i, readReply.Speaks (recvHex ((cases c).pk i)) [((cases c).pk i).flatMap hex2] :=
    fun i => (speaks_readLine_hex ((cases c).pk i)).bind_pure (Dialog.speaks_pure _)
  have hG := @speaks_keyScan reduced s c hs cases "G_data" readReply _ _ _ hreply rfl
    (fun _ => rfl) (hit_G (cases c))
  have hmap : (List.range' 1 (s - 1)).flatMap (fun i => [((cases c).pk i).flatMap hex2])
      = (List.range' 1 (s - 1)).map fun i => ((cases c).pk i).flatMap hex2 := by
    rw [List.map_eq_flatMap]
  rw [hmap] at hG
  rw [← hfile] at hA hB hG ⊢
  refine (speaks_recordKeys (by omega) (cases c)).bind (hA.bind (hB.bind ((Dialog.speaks_get 0).bind
    ((speaks_readLine_sk (cases c)).bind ?_))))
  exact (Dialog.speaks_put one).bind (hG.bind_pure (Dialog.speaks_pure _))

end

end Meds.Sage
