/-
  Meds.Sage.Sampling

  The samplers of util.py draw what those of util.c draw.

  An integer that Sage adds up byte by byte is the one that C assembles with
  `|`, so the rejection loops consume the same bytes of the stream.  The
  nested loops of C and the flat list of Sage go through the entries of a
  matrix in the same order.
-/

import Meds.Ref.OpenSafe
import Meds.Sage.MedsBase

namespace Meds.Sage

open Meds.Core Meds.Ref

/-- The parameter sets for which both programs are meant. -/
structure Shared (P : Params) : Prop extends P.Valid where
  lt_p : 2 ^ 8 < P.p
  p_lt : P.p < 2 ^ 16
  gfqBits_eq : P.gfqBits = Nat.clog 2 P.p
  tBytes_eq : P.tBytes = numBytes P.t

/-- The part of it that drawing from a stream depends on. -/
structure FieldSize (P : Params) : Prop where
  prime : P.p.Prime
  lt_p : 2 ^ 8 < P.p
  p_lt : P.p < 2 ^ 16
  gfqBits_eq : P.gfqBits = Nat.clog 2 P.p

variable {P : Params} {SHAKE256 : Shake} {ε : Type}

theorem Shared.fieldSize (hP : Shared P) : FieldSize P := ⟨hP.prime, hP.lt_p, hP.p_lt, hP.gfqBits_eq⟩

theorem Shared.gfBits_eq (hP : Shared P) : gfBits P.p = P.gfqBits := hP.gfqBits_eq.symm

theorem Shared.eight_le (hP : Shared P) : 8 ≤ P.gfqBits := by
  rw [hP.gfqBits_eq]
  exact Nat.le_of_lt ((Nat.lt_clog_iff_pow_lt (by decide)).mpr hP.lt_p)

/-- A field element takes two bytes of a stream. -/
theorem FieldSize.numBytes_p (hP : FieldSize P) : numBytes P.p = 2 := by
  have h1 : 8 < Nat.clog 2 P.p := (Nat.lt_clog_iff_pow_lt (by decide)).mpr hP.lt_p
  have h2 : Nat.clog 2 P.p ≤ 16 := Nat.clog_le_of_le_pow hP.p_lt.le
  unfold numBytes ceiling
  omega

/-! ## Integers -/

theorem leValue_concat (l : List UInt8) (x : UInt8) :
    leValue (l ++ [x]) = leValue l ||| x.toNat <<< (l.length * 8) := by
  rw [leValue, List.length_append, List.length_singleton, forUp_succ (Nat.zero_le _)]
  have hlast : (l ++ [x]).getD l.length 0 = x := by simp
  rw [hlast, leValue]
  congr 1
  apply forUp_congr
  intro i s _ hi
  rw [List.getD_append _ _ _ _ hi]

theorem leValue_lt (l : List UInt8) : leValue l < 2 ^ (l.length * 8) := by
  induction l using List.reverseRecOn with
  | nil => simp [leValue]
  | append_singleton l x ih =>
      rw [leValue_concat, List.length_append, List.length_singleton, Nat.add_mul, Nat.one_mul]
      apply Nat.or_lt_two_pow
      · exact ih.trans_le (Nat.pow_le_pow_right (by decide) (by omega))
      · rw [Nat.shiftLeft_eq, Nat.pow_add, Nat.mul_comm]
        exact Nat.mul_lt_mul_of_pos_left (UInt8.toNat_lt x) (Nat.two_pow_pos _)

/-- Adding up the bytes is assembling them. -/
theorem readInt_eq (n : Nat) (shake : KeccakState) :
    readInt SHAKE256 n shake
      = (leValue (shake256Squeeze SHAKE256 n shake).1, (shake256Squeeze SHAKE256 n shake).2) := by
  unfold readInt
  induction n with
  | zero => rfl
  | succ n ih =>
      have hbyte : streamSlice (SHAKE256 shake.absorbed) (shake.pos + n) 1
          = [SHAKE256 shake.absorbed (shake.pos + n)] := by
        simp [streamSlice]
      have hlt := leValue_lt (streamSlice (SHAKE256 shake.absorbed) shake.pos n)
      rw [length_streamSlice] at hlt
      rw [forUp_succ (Nat.zero_le _), ih]
      simp only [shakeRead, shake256Squeeze, streamSlice_add, hbyte]
      rw [leValue_concat, length_streamSlice, Nat.or_comm, Nat.shiftLeft_eq, Nat.shiftLeft_eq,
        Nat.mul_comm _ (2 ^ (n * 8)), Nat.mul_comm _ (2 ^ (n * 8)),
        ← Nat.two_pow_add_eq_or_of_lt hlt, Nat.add_comm, Nat.add_assoc]
      rfl

/-! ## XOF -/

/-- A slice of what was squeezed at once. -/
theorem slice_streamSlice (s : Nat → UInt8) {a b n : Nat} (h : a + b ≤ n) :
    ((streamSlice s 0 n).drop a).take b = streamSlice s a b := by
  obtain ⟨c, rfl⟩ := Nat.exists_eq_add_of_le h
  rw [streamSlice_add, streamSlice_add, Nat.zero_add, List.append_assoc,
    List.drop_left' (length_streamSlice s 0 a), List.take_left' (length_streamSlice s a b)]

/-- Squeezing the buffers in turn, and cutting one long output. -/
theorem xofTuple_eq (seed : List UInt8) (length : List Nat) :
    xofTuple SHAKE256 seed length = xof SHAKE256 seed length := by
  have hturn : length.foldl
      (fun (s : List (List UInt8) × KeccakState) len =>
        (s.1 ++ [(shake256Squeeze SHAKE256 len s.2).1], (shake256Squeeze SHAKE256 len s.2).2))
      ([], shake256AbsorbOnce seed)
      = ((List.range length.length).map fun i =>
          streamSlice (SHAKE256 seed) (length.take i).sum (length.getD i 0),
        ⟨seed, length.sum⟩) := by
    induction length using List.reverseRecOn with
    | nil => rfl
    | append_singleton l len ih =>
        rw [List.foldl_append, ih, List.foldl_cons, List.foldl_nil, List.length_append,
          List.length_singleton, List.range_succ, List.map_append, List.map_singleton,
          List.take_left, List.sum_append, List.sum_singleton]
        refine Prod.ext (congrArg₂ _ (List.map_congr_left fun i hi => ?_) ?_) rfl
        · have hi := List.mem_range.mp hi
          rw [List.take_append_of_le_length hi.le, List.getD_append _ _ _ _ hi]
        · rw [List.getD_append_right _ _ _ _ (Nat.le_refl _), Nat.sub_self]
          rfl
  have hlong : ∀ i, i < length.length → (length.take i).sum + length.getD i 0 ≤ length.sum := by
    intro i hi
    rw [List.getD_eq_getElem _ _ hi, ← List.sum_take_succ length i hi]
    exact (List.take_sublist (i + 1) length).sum_le_sum fun _ _ => Nat.zero_le _
  refine Eq.trans ?_ (congrArg Prod.fst hturn).symm
  apply List.map_congr_left
  intro i hi
  exact slice_streamSlice _ (hlong i (List.mem_range.mp hi))

/-! ## Field elements -/

theorem drawInt_eq (hP : FieldSize P) (shake : KeccakState) :
    drawInt SHAKE256 P.p shake
      = (leValue (shake256Squeeze SHAKE256 2 shake).1 &&& (1 <<< P.gfqBits - 1),
          (shake256Squeeze SHAKE256 2 shake).2) := by
  rw [drawInt, hP.numBytes_p, readInt_eq, gfBits, ← hP.gfqBits_eq]

/-- `rnd_GF` tests before it draws and starts with a value that fails. -/
theorem rndGF_equiv (hP : FieldSize P) (shake : KeccakState) :
    (rndGF P SHAKE256 shake : Run ε _).Equiv
      (Run.loop
        (fun s =>
          if (drawInt SHAKE256 P.p s).1 ≥ P.p then pure (.inl (drawInt SHAKE256 P.p s).2)
          else pure (.inr (drawInt SHAKE256 P.p s))) shake) := by
  have h := @Run.loop_test_first ε _ _ (fun v => v ≥ P.p) _ (drawInt SHAKE256 P.p) P.p
    (Nat.le_refl _) shake
  have hdraw := funext (@drawInt_eq P SHAKE256 hP)
  rw [hdraw] at h ⊢
  exact h

theorem rndGF_matches (hP : FieldSize P) (shake : KeccakState) :
    Run.Matches (Run.Values fun a b => a = b ∧ a.1 < P.p) (rndGF P SHAKE256 shake : Run ε _)
      (drawFq SHAKE256 P.p shake) := by
  apply Run.Matches.congr_left _ (rndGF_equiv hP shake)
  unfold drawFq
  apply Run.Matches.loop (R := fun s t => s = t) _ rfl
  rintro s _ rfl
  obtain ⟨r, hr⟩ : ∃ r, drawInt SHAKE256 P.p s = r := ⟨_, rfl⟩
  simp only [hr]
  by_cases h : r.1 < P.p
  · rw [if_neg (by omega), if_pos h]
    exact Run.Matches.round_break ⟨_, _, rfl, rfl, rfl, h⟩
  · rw [if_pos (by omega), if_neg h]
    exact Run.Matches.round_continue rfl

/-! ## Matrices of field elements -/

/-- Rounds that do not look at their index. -/
theorem forUpM_shift {σ : Type} {m : Type → Type} [Monad m] (f : σ → m σ) (a b c : Nat) (s : σ) :
    forUpM a (a + c) (fun _ => f) s = forUpM b (b + c) (fun _ => f) s := by
  have h : ∀ i j n s, forLoopM (fun _ => f) i n s = forLoopM (fun _ => f) j n s := by
    intro i j n
    induction n generalizing i j with
    | zero => intro s; rfl
    | succ n ih =>
        intro s
        rw [forLoopM, forLoopM]
        congr 1
        funext s
        exact ih _ _ _
  rw [forUpM, forUpM, Nat.add_sub_cancel_left, Nat.add_sub_cancel_left]
  exact h _ _ _ _

/-- Row after row. -/
theorem forUpM_rows {σ : Type} (f : σ → Run ε σ) (r lo w : Nat) (s : σ) :
    forUpM 0 (r * w) (fun _ => f) s
      = forUpM 0 r (fun _ s => forUpM lo (lo + w) (fun _ => f) s) s := by
  induction r with
  | zero => rw [Nat.zero_mul, forUpM_self, forUpM_self]
  | succ r ih =>
      rw [forUpM_succ (Nat.zero_le r), ← ih, Nat.succ_mul,
        forUpM_split (Nat.zero_le _) (Nat.le_add_right (r * w) w)]
      congr 1
      funext s
      exact forUpM_shift _ _ _ _ _

section

variable [Fact P.p.Prime]

/-- Columns `lo, …` of the first `i` rows, and of row `i` up to column `x`, hold
    what was drawn. -/
structure Drawn (lo Mc i x : Nat) (s : Arr UInt16 × KeccakState)
    (t : List (ZMod P.p) × KeccakState) : Prop where
  shake : s.2 = t.2
  length : t.1.length = i * (Mc - lo) + (x - lo)
  lt : ∀ r c, lo ≤ c → c < Mc → r < i ∨ r = i ∧ c < x → pmodMatEntry s.1 Mc r c < P.p
  cell : ∀ r c, lo ≤ c → c < Mc → r < i ∨ r = i ∧ c < x →
    ent P Mc s.1 r c = t.1.getD (r * (Mc - lo) + (c - lo)) 0

theorem Drawn.entry (hP : FieldSize P) {lo Mc i x : Nat} {s : Arr UInt16 × KeccakState}
    {t : List (ZMod P.p) × KeccakState} (h : Drawn lo Mc i x s t) (hx : lo ≤ x) (hxc : x < Mc)
    {v : Nat} (hv : v < P.p) (shake : KeccakState) :
    Drawn lo Mc i (x + 1) (pmodMatSetEntry s.1 Mc i x v, shake)
      (t.1 ++ [(v : ZMod P.p)], shake) := by
  have hlen := h.length
  have hset : ∀ r c, c < Mc → pmodMatEntry (pmodMatSetEntry s.1 Mc i x v) Mc r c
      = if r = i ∧ c = x then v else pmodMatEntry s.1 Mc r c := by
    intro r c hc
    unfold pmodMatEntry pmodMatSetEntry
    -- the entry just drawn, or one before it in row order
    by_cases hcell : r = i ∧ c = x
    · obtain ⟨rfl, rfl⟩ := hcell
      rw [if_pos ⟨rfl, rfl⟩, Arr.get_set_self, toNat_ofNat_of_lt hP.p_lt.le hv]
    · rw [if_neg hcell, Arr.get_set_ne _ _ fun h => hcell (flat_inj hc hxc h)]
  refine ⟨rfl, ?_, fun r c h1 h2 h3 => ?_, fun r c h1 h2 h3 => ?_⟩
  · rw [List.length_append, List.length_singleton, hlen]
    omega
  · rw [hset r c h2]
    by_cases hcell : r = i ∧ c = x
    · rw [if_pos hcell]
      exact hv
    · rw [if_neg hcell]
      exact h.lt r c h1 h2 (by omega)
  · rw [ent, hset r c h2]
    by_cases hcell : r = i ∧ c = x
    · obtain ⟨rfl, rfl⟩ := hcell
      rw [if_pos ⟨rfl, rfl⟩, List.getD_append_right _ _ _ _ (by omega), hlen, Nat.sub_self]
      rfl
    · have hold : r < i ∨ r = i ∧ c < x := by omega
      rw [if_neg hcell, ← ent, h.cell r c h1 h2 hold, List.getD_append]
      rw [hlen]
      rcases hold with hlt | ⟨rfl, hlt⟩
      · have := Nat.mul_le_mul_right (Mc - lo) (show r + 1 ≤ i from hlt)
        rw [Nat.add_mul] at this
        omega
      · omega

theorem rndEntry_matches (hP : FieldSize P) {lo Mc i x : Nat} (hx : lo ≤ x) (hxc : x < Mc)
    {s : Arr UInt16 × KeccakState} {t : List (ZMod P.p) × KeccakState} (h : Drawn lo Mc i x s t) :
    Run.Matches (Run.Values (Drawn lo Mc i (x + 1))) (rndEntry P SHAKE256 Mc i x s : Run ε _)
      (do
        let (val, shake) ← drawFq SHAKE256 P.p t.2
        pure (t.1 ++ [(val : ZMod P.p)], shake)) := by
  rw [rndEntry, h.shake]
  apply (rndGF_matches hP t.2).bind_values
  rintro v _ ⟨rfl, hv⟩
  exact Run.Matches.values (h.entry hP hx hxc hv _)

/-- The nested loops of C and the list of Sage. -/
theorem rndFill_matches (hP : FieldSize P) {Mr lo Mc : Nat} (hlo : lo ≤ Mc)
    (s : Arr UInt16 × KeccakState) :
    Run.Matches (Run.Values (Drawn lo Mc Mr lo))
      (forUpM 0 Mr (fun r s => forUpM lo Mc (fun c s => rndEntry P SHAKE256 Mc r c s) s) s : Run ε _)
      (expandFqs SHAKE256 P.p (Mr * (Mc - lo)) s.2) := by
  unfold expandFqs
  rw [forUpM_rows _ Mr lo (Mc - lo), show lo + (Mc - lo) = Mc by omega]
  apply Run.Matches.forUpM_values (fun i s t => Drawn lo Mc i lo s t) (Nat.zero_le _)
  · intro i s t _ _ h
    have hrow : Run.Matches (Run.Values (Drawn lo Mc i Mc))
        (forUpM lo Mc (fun c s => rndEntry P SHAKE256 Mc i c s) s : Run ε _) _ :=
      Run.Matches.forUpM_values (fun x s t => Drawn lo Mc i x s t) hlo
        (fun x s t h1 h2 h => rndEntry_matches hP h1 h2 h) h
    apply hrow.imp
    -- a full row is the start of the next one
    rintro _ _ ⟨s, t, rfl, rfl, h⟩
    refine ⟨s, t, rfl, rfl, h.shake, ?_, fun r c h1 h2 h3 => ?_, fun r c h1 h2 h3 => ?_⟩
    · rw [h.length, Nat.add_mul]
      omega
    · exact h.lt r c h1 h2 (by omega)
    · exact h.cell r c h1 h2 (by omega)
  · exact ⟨rfl, by simp, fun r c h1 h2 h3 => absurd h3 (by omega),
      fun r c h1 h2 h3 => absurd h3 (by omega)⟩

/-- The array holds the matrix, row by row, with reduced entries. -/
structure Holds {r c : Nat} (A : Arr UInt16) (M : Mat P.p r c) : Prop where
  eq : block r c (ent P c A) = M
  reduced : Reduced P A (c * r)

theorem Drawn.holds {n : Nat} {s : Arr UInt16 × KeccakState} {t : List (ZMod P.p) × KeccakState}
    (h : Drawn 0 n n 0 s t) : Holds s.1 (matrixOf P.p n n t.1) := by
  constructor
  · ext i j
    rw [block_apply, h.cell i j (Nat.zero_le _) j.isLt (Or.inl i.isLt), matrixOf, Matrix.of_apply,
      Nat.sub_zero, Nat.sub_zero]
  · exact reduced_of_entry fun r c hr hc => h.lt r c (Nat.zero_le _) hc (Or.inl hr)

/-- `rnd_inv_matrix` and `ExpandInvMat`: the eliminations of C reject the
    singular matrices. -/
theorem rndInvMatrix_matches (hP : FieldSize P) (n : Nat) (seed : List UInt8) :
    Run.Matches (Run.Values Holds) (rndInvMatrix P SHAKE256 n n seed : Run ε _)
      (expandInvMat SHAKE256 P.p n seed) := by
  unfold rndInvMatrix expandInvMat
  apply Run.Matches.loop (R := fun s shake => s.2 = shake) _ rfl
  rintro s _ rfl
  have hfill := @rndFill_matches P SHAKE256 ε _ hP n 0 n (Nat.zero_le n) s
  rw [Nat.sub_zero] at hfill
  apply hfill.bind_values
  intro s t h
  have hM := h.holds
  have hiff := forward_failed_iff hM.reduced (Nat.le_refl n) hP.p_lt.le
  rw [hM.eq] at hiff
  obtain ⟨N, failed, hF⟩ : ∃ N failed, forward P n n s.1 = (N, failed) := ⟨_, _, rfl⟩
  rw [hF] at hiff
  simp only [hF, isInvertible, ne_eq, ← hiff]
  cases failed with
  | true => exact Run.Matches.round_continue h.shake
  | false => exact Run.Matches.round_break ⟨_, _, rfl, rfl, hM⟩

/-- `rnd_sys_mat` and `ExpandSystMat`. -/
theorem rndSysMat_matches (hP : Shared P) (k m n : Nat) (hk : k ≤ m * n) (seed : List UInt8) :
    Run.Matches (Run.Values Holds) (rndSysMat P SHAKE256 k (m * n) seed : Run ε _)
      (expandSystMat SHAKE256 P.p k m n seed) := by
  unfold rndSysMat expandSystMat
  apply (rndFill_matches hP.fieldSize hk (Arr.empty, shake256AbsorbOnce seed)).bind_values
  intro s t h
  apply Run.Matches.values
  obtain ⟨hid, hrest⟩ := setIdentity_spec k (m * n) hk (M := s.1)
  have hp := hP.prime.one_lt
  constructor
  · ext i j
    rw [block_apply, ent, pmodMatEntry, augmentIdentity, Matrix.of_apply]
    -- a column of the identity, or a drawn one
    by_cases hj : j.val < k
    · rw [hid i j i.isLt hj, dif_pos hj]
      by_cases hij : i.val = j
      · rw [if_pos hij, if_pos hij]
        exact Nat.cast_one
      · rw [if_neg hij, if_neg hij]
        exact Nat.cast_zero
    · rw [hrest i j (by omega) j.isLt, dif_neg hj, matrixOf, Matrix.of_apply,
        ← h.cell i j (by omega) j.isLt (Or.inl i.isLt), ent, pmodMatEntry]
  · apply reduced_of_entry
    intro r c hr hc
    unfold pmodMatEntry
    by_cases hck : c < k
    · rw [hid r c hr hck]
      split
      · exact hp
      · exact hP.prime.pos
    · rw [hrest r c (by omega) hc]
      exact h.lt r c (by omega) hc (Or.inl hr)

end

end Meds.Sage
