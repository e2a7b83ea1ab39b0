/-
  Meds.Sage.KeypairAgree

  `crypto_sign_keypair` of meds_serial.c and of meds.sage.

  A round of either `while` loop draws the same matrix, solves the same system
  and tests the same blocks, so both accept the same round and hold the same
  matrices after it.  C packs them through one bit stream, finalized behind
  every matrix; Sage packs each into a stream of its own and concatenates.
-/

import Meds.Ref.ChunkedKeys
import Meds.Sage.MedsSign
import Meds.Sage.SolversAgree
import Meds.Sage.Verify

namespace Meds.Sage

open Meds.Core Meds.Ref

variable {P : Params} {SHAKE256 : Shake} {ε : Type}

/-! ## Lists of matrices -/

/-- Cells `lo, …, hi - 1` of the array against the entries of the list. -/
structure Listed {α β : Type} [Inhabited α] (R : α → β → Prop) (lo hi : Nat) (A : Arr α)
    (l : List β) : Prop where
  length : lo + l.length = hi
  get : ∀ i (h : i < l.length), R (A.get (lo + i)) l[i]

section

variable {α β : Type} [Inhabited α] {R : α → β → Prop} {lo hi : Nat} {A : Arr α} {l : List β}

theorem Listed.nil (lo : Nat) (A : Arr α) : Listed R lo lo A [] :=
  ⟨rfl, fun _ h => absurd h (Nat.not_lt_zero _)⟩

theorem Listed.concat (h : Listed R lo hi A l) {a : α} {b : β} (hab : R a b) :
    Listed R lo (hi + 1) (A.set hi a) (l ++ [b]) := by
  have hlen := h.length
  refine ⟨by rw [List.length_append, List.length_singleton, ← hlen, Nat.add_assoc], fun i hi' => ?_⟩
  rw [List.length_append, List.length_singleton] at hi'
  by_cases hil : i = l.length
  · subst hil
    rw [hlen, Arr.get_set_self, List.getElem_append_right (Nat.le_refl _)]
    simpa using hab
  · rw [Arr.get_set_ne _ _ (by omega), List.getElem_append_left (by omega)]
    exact h.get i (by omega)

/-- The entry of the list for cell `i`. -/
theorem Listed.getElem? (h : Listed R lo hi A l) {i : Nat} (h1 : lo ≤ i) (h2 : i < hi) :
    ∃ b, l[i - lo]? = some b ∧ R (A.get i) b := by
  have hlen := h.length
  have hlt : i - lo < l.length := by omega
  refine ⟨l[i - lo], List.getElem?_eq_getElem hlt, ?_⟩
  have := h.get (i - lo) hlt
  rwa [show lo + (i - lo) = i by omega] at this

end

/-! ## Packing -/

/-- The entries of a matrix that an array holds, in the order of the source. -/
theorem entriesOf_holds {r c : Nat} {A : Arr UInt16} {M : Mat P.p r c} (h : Holds A M) :
    entriesOf M = Ref.entries A 0 0 (c * r) := by
  obtain ⟨rfl, hred⟩ := h
  rw [entriesOf_eq, @List.range_eq_range' r]
  have hlen : ∀ i, 0 ≤ i → i < 0 + r →
      ((List.range c).map fun j => (table (block r c (ent P c A)) i j).val).length = c := by
    intro i _ _
    rw [List.length_map, List.length_range]
  apply List.ext_getElem (by rw [length_flatMap_range' hlen, length_entries, Nat.sub_zero])
  intro f h1 h2
  rw [length_flatMap_range' hlen] at h1
  have hc : 0 < c := Nat.pos_of_ne_zero (by rintro rfl; simp at h1)
  have hr : f / c < r := (Nat.div_lt_iff_lt_mul hc).mpr (by rwa [Nat.mul_comm])
  have hx := Nat.mod_lt f hc
  have hget := getD_flatMap_range' hlen hr hx 0
  rw [Nat.div_add_mod, List.getD_eq_getElem _ _ (by rw [length_flatMap_range' hlen]; exact h1),
    Nat.zero_add, List.getD_eq_getElem _ _ (by simpa using hx), List.getElem_map,
    List.getElem_range, table_of_lt _ hr hx, block_apply, ent, pmodMatEntry, Nat.div_add_mod,
    ZMod.val_natCast_of_lt (hred f h1)] at hget
  rw [hget]
  simp [Ref.entries]

theorem Shared.sized (hP : Shared P) : Sized P where
  one_le_m := by
    have := hP.two_le_n
    rw [hP.m_eq]
    omega
  two_le_k := hP.k_eq ▸ hP.two_le_n
  k_le := by
    rw [hP.k_eq, hP.m_eq]
    exact le_sq P
  one_le_s := Nat.le_of_succ_le hP.two_le_s
  pkBytes_eq := by
    rw [hP.pk_eq, pkSize_eq, pkEntries_eq hP, pkCoeffs, hP.m_eq, hP.k_eq, Nat.mul_comm (P.n - 2),
      Nat.add_comm P.pubSeedBytes]
  skBytes_eq := by
    rw [hP.sk_eq, skSize_eq hP.toSquare, hP.m_eq]
    omega

theorem compress_holds [Fact P.p.Prime] (hP : Shared P) {r : Nat} {A : Arr UInt16}
    {M : Mat P.p r r} (h : Holds A M) :
    compress M = pure (packBytes P.gfqBits (Ref.entries A 0 0 (r * r))) := by
  rw [compress_eq (hP.gfBits_eq ▸ hP.eight_le), entriesOf_holds h, hP.gfBits_eq]

/-- The fields that `CompressG` writes. -/
def genEntries {q r c : Nat} (M : Mat q r c) (k m n : Nat) : List Nat :=
  ((List.range' 0 n).map fun i => (table M 1 (m * n - n + i)).val) ++
    (List.range' 2 (k - 2)).flatMap fun i =>
      (List.range' k (m * n - k)).map fun j => (table M i j).val

theorem compressG_eq {q : Nat} [Fact q.Prime] {r c : Nat} (hw : 8 ≤ gfBits q) (M : Mat q r c)
    (k m n : Nat) : compressG M k m n = pure (packBytes (gfBits q) (genEntries M k m n)) := by
  have hlt : ∀ v ∈ genEntries M k m n, v < 2 ^ gfBits q := by
    have hval : ∀ x : ZMod q, x.val < 2 ^ gfBits q := fun x =>
      (ZMod.val_lt x).trans_le (Nat.le_pow_clog (by decide) q)
    intro v hv
    simp only [genEntries, List.mem_append, List.mem_flatMap, List.mem_map] at hv
    rcases hv with ⟨i, -, rfl⟩ | ⟨i, -, j, -, rfl⟩
    · exact hval _
    · exact hval _
  have hrow : ∀ (bs : BitStream) (i : Nat),
      forUpM k (m * n) (fun j bs => bs.write (table M i j).val (gfBits q)) bs
        = ((List.range' k (m * n - k)).map fun j => (table M i j).val).foldlM
            (fun bs v => bs.write v (gfBits q)) bs :=
    fun bs i => forUpM_eq_foldlM k (m * n) (fun j => (table M i j).val)
      (fun bs v => bs.write v (gfBits q)) bs
  have hfirst : forUpM 0 n (fun i bs => bs.write (table M 1 (m * n - n + i)).val (gfBits q))
        (BitStream.new [])
      = ((List.range' 0 n).map fun i => (table M 1 (m * n - n + i)).val).foldlM
          (fun bs v => bs.write v (gfBits q)) (BitStream.new []) :=
    forUpM_eq_foldlM 0 n (fun i => (table M 1 (m * n - n + i)).val)
      (fun bs v => bs.write v (gfBits q)) (BitStream.new [])
  have hlist := BitStream.write_list hw hlt
  rw [genEntries, List.foldlM_append] at hlist
  simp only [compressG, hfirst, hrow, forUpM_foldlM]
  rw [← bind_assoc, hlist, pure_bind, genEntries]

/-- An entry of a generator as an integer. -/
theorem Holds.table_val {A : Arr UInt16} {M : Gen P} (h : Holds A M) {i j : Nat} (hi : i < P.k)
    (hj : j < P.m * P.n) : (table M i j).val = (A.get (P.m * P.n * i + j)).toNat := by
  obtain ⟨rfl, hred⟩ := h
  rw [table_of_lt _ hi hj, block_apply, ent, pmodMatEntry,
    ZMod.val_natCast_of_lt (hred _ (flat_lt hi hj))]

/-- `CompressG` writes what the loop of the public key writes. -/
theorem genEntries_holds (hP : Sized P) {A : Arr UInt16} {M : Gen P} (h : Holds A M) :
    genEntries M P.k P.m P.n = pkBlock P A := by
  have hlast : (P.m - 1) * P.n = P.m * P.n - P.n := by rw [Nat.sub_mul, Nat.one_mul]
  have hroom : P.n ≤ P.m * P.n := Nat.le_mul_of_pos_left _ hP.one_le_m
  have hk2 := hP.two_le_k
  rw [genEntries, pkBlock, rowEntries]
  congr 1
  · rw [Ref.entries, length_lastRow hP.one_le_m, List.range'_eq_map_range, List.range'_eq_map_range,
      List.map_map, List.map_map]
    apply List.map_congr_left
    intro i hi
    have hi := List.mem_range.mp hi
    simp only [Function.comp_apply]
    rw [h.table_val (by omega) (by omega), Nat.mul_one, Nat.zero_add, hlast]
  · apply List.flatMap_congr
    intro i hi
    rw [List.mem_range'_1] at hi
    rw [Ref.entries]
    apply List.map_congr_left
    intro j hj
    rw [List.mem_range'_1] at hj
    rw [h.table_val (by omega) (by omega), Nat.mul_assoc i, Nat.mul_comm i]

theorem compressG_holds [Fact P.p.Prime] (hP : Shared P) {A : Arr UInt16} {M : Gen P}
    (h : Holds A M) : compressG M P.k P.m P.n = pure (packBytes P.gfqBits (pkBlock P A)) := by
  rw [compressG_eq (hP.gfBits_eq ▸ hP.eight_le), genEntries_holds hP.sized h, hP.gfBits_eq]

/-- Appending packed matrices one after the other. -/
theorem appendEach_eq {α : Type} {f : α → Except PyError (List UInt8)} {g : Nat → List UInt8}
    {l : List α} {lo : Nat} (h : ∀ i (hi : i < l.length), f l[i] = pure (g (lo + i)))
    (ret : List UInt8) :
    appendEach f l ret = pure (ret ++ (List.range' lo l.length).flatMap g) := by
  induction l generalizing lo ret with
  | nil => simp [appendEach]
  | cons x l ih =>
      have hx : f x = pure (g lo) := h 0 (Nat.zero_lt_succ _)
      have hl : ∀ i (hi : i < l.length), f l[i] = pure (g (lo + 1 + i)) := by
        intro i hi
        have := h (i + 1) (Nat.succ_lt_succ hi)
        rwa [List.getElem_cons_succ, Nat.add_comm i, ← Nat.add_assoc] at this
      have := ih hl (ret ++ g lo)
      rw [appendEach] at this ⊢
      rw [List.foldlM_cons, hx, pure_bind, pure_bind, this, List.length_cons, List.range'_succ,
        List.flatMap_cons, List.append_assoc]

/-- Sage's concatenation of packed matrices is what one bit stream of C leaves. -/
theorem appendEach_listed {r c : Nat} {A : Arr (Arr UInt16)} {l : List (Mat P.p r c)}
    (hl : Listed Holds 1 P.s A l) {f : Mat P.p r c → Except PyError (List UInt8)}
    {v : Arr UInt16 → List Nat}
    (hf : ∀ {A M}, Holds A M → f M = pure (packBytes P.gfqBits (v A))) (ret : List UInt8) :
    appendEach f l ret = pure (ret ++ packAll P fun si => v (A.get si)) := by
  have hlen : l.length = P.s - 1 := by
    have := hl.length
    omega
  rw [@appendEach_eq _ f (fun si => packBytes P.gfqBits (v (A.get si))) l 1
    (fun i hi => hf (hl.get i hi)), packAll, List.flatMap_map, hlen]

/-! ## The solver -/

section

variable {q n : Nat}

@[simp] theorem resize_self (M : Mat q n n) : resize n M = M := by
  ext i j
  rw [resize, Matrix.of_apply, table_of_lt _ i.isLt j.isLt]

theorem isInvertible_resize {m : Nat} (h : m = n) (M : Mat q n n) :
    isInvertible (resize m M) = isInvertible M := by
  subst h
  rw [resize_self]

theorem inverse_eq [Fact q.Prime] (M : Mat q n n) : inverse M = M⁻¹ := by
  rw [inverse, Matrix.inv_def, Ring.inverse_eq_inv']

end

/-- The array that holds an `n × n` matrix holds it as an `m × m` matrix. -/
theorem Holds.resize (hm : P.m = P.n) {A : Arr UInt16} {M : Mat P.p P.n P.n} (h : Holds A M) :
    Holds A (resize P.m M) := by
  obtain ⟨rfl, hred⟩ := h
  refine ⟨?_, by rwa [hm]⟩
  ext i j
  have hi : i.val < P.n := hm ▸ i.isLt
  have hj : j.val < P.n := hm ▸ j.isLt
  rw [Meds.Sage.resize, Matrix.of_apply, table_of_lt _ hi hj, block_apply, block_apply]
  exact congrArg (fun c => ent P c A i j) hm

/-- The first two rows of a generator, as Sage cuts them. -/
theorem subMatrix_eq (hP : Shared P) {G : Arr UInt16} {M : Gen P} (hG : Holds G M) {r : Nat}
    (hr : r < P.k) : subMatrix P G r = rowMatrix P.n M r := by
  obtain ⟨rfl, -⟩ := hG
  ext a b
  have hsize : P.n * P.n = P.m * P.n := by rw [hP.m_eq]
  have hlt : a.val * P.n + b.val < P.m * P.n := by
    rw [← hsize, Nat.mul_comm a.val]
    exact flat_lt a.isLt b.isLt
  rw [rowMatrix, Matrix.of_apply, table_of_lt _ hr hlt, subMatrix, block_apply, subEnt, block_apply]
  simp only
  rw [Nat.mul_comm a.val, hsize]

section

variable [Fact P.p.Prime]

/-- `pmod_mat_inv`, and `is_invertible` followed by `inverse`. -/
theorem pmodMatInv_inverse (hP : Shared P) {n : Nat} {A : Arr UInt16} {M : Mat P.p n n}
    (h : Holds A M) :
    (isInvertible M = true ∧ ∃ B, pmodMatInv P A n n = some B ∧ Holds B (inverse M)) ∨
      (isInvertible M = false ∧ pmodMatInv P A n n = none) := by
  obtain ⟨rfl, hred⟩ := h
  rcases pmodMatInv_spec hred hP.p_lt.le with ⟨hunit, B, hB, hinv, hredB⟩ | ⟨hdet, hnone⟩
  · refine Or.inl ⟨?_, B, hB, ?_, hredB⟩
    · rw [isInvertible, decide_eq_true_eq]
      exact hunit.ne_zero
    · rw [inverse_eq, hinv]
  · refine Or.inr ⟨?_, hnone⟩
    rw [isInvertible, decide_eq_false_iff_not, not_not, hdet]

/-- `solve` and `solve_symb` on the same generator. -/
theorem solve_solveSymb (hP : Shared P) {G : Arr UInt16} {M : Gen P} (hG : Holds G M) {Amm : Nat}
    (hAmm : Amm < P.p) :
    (solve P G Amm = none ∧
        solveSymb (rowMatrix P.n M 0) (rowMatrix P.n M 1) (Amm : ZMod P.p) = pure none) ∨
      ∃ A Binv MA MB, solve P G Amm = some (A, Binv) ∧
        solveSymb (rowMatrix P.n M 0) (rowMatrix P.n M 1) (Amm : ZMod P.p) = pure (some (MA, MB)) ∧
        Holds A MA ∧ Holds Binv MB := by
  have hn := hP.two_le_n
  have hk := hP.k_eq
  have hred : Reduced P G (P.n * P.n * 2) := by
    intro idx hidx
    apply hG.reduced
    have := Nat.mul_le_mul_left (P.n * P.n) (hk ▸ hn : 2 ≤ P.k)
    rw [hP.m_eq]
    omega
  -- both report the only solution
  obtain ⟨ans, hsymb, hexact⟩ := solveSymb_exact (n := P.n) (by omega) (rowMatrix P.n M 0)
    (rowMatrix P.n M 1) (Amm : ZMod P.p)
  have hC := cAnswer_exact hP.p_lt hP.m_eq hn hred hAmm
  rw [subMatrix_eq hP hG (by omega), subMatrix_eq hP hG (by omega)] at hC
  obtain rfl := hC.unique hexact
  rcases solve_spec hP.m_eq hn hP.p_lt.le hred hAmm with ⟨-, -, A, Binv, hsolve, hspec⟩ | ⟨-, hsolve⟩
  · obtain ⟨hret, hA, hB⟩ := solveInto_some hsolve Arr.empty Arr.empty
    rw [hP.m_eq] at hA
    have hans : cAnswer P G Amm = some (sq P A, sq P Binv) := by
      rw [cAnswer, if_pos hret, sq_congr hA, sq_congr hB]
    rw [hans] at hsymb
    exact Or.inr ⟨A, Binv, _, _, hsolve, hsymb, ⟨rfl, hspec.reducedA⟩, ⟨rfl, hspec.reducedBinv⟩⟩
  · have hans : cAnswer P G Amm = none := by
      rw [cAnswer, solveInto_none hsolve, if_neg (by decide)]
    rw [hans] at hsymb
    exact Or.inl ⟨hsolve, hsymb⟩

/-! ## One round -/

/-- `pmod_mat_mul`, where the number of rows of the first factor is its number
    of columns. -/
theorem pmodMatMul_holds (hP : Shared P) {r c : Nat} {A B C : Arr UInt16} {MA : Mat P.p r r}
    {MB : Mat P.p r c} (hA : block r r (ent P r A) = MA) (hB : block r c (ent P c B) = MB) :
    Holds (pmodMatMul P C r c A r r B c) (MA * MB) := by
  have hmul := pmodMatMul_spec r c r r c (P := P) (A := A) (B := B) (C := C) hP.prime.pos
    hP.p_lt.le
  exact ⟨by rw [hmul.block_eq, hA, hB], hmul.reduced hP.prime.pos⟩

/-- A single field element from a fresh stream. -/
theorem expandFqs_one (seed : List UInt8) :
    expandFqs SHAKE256 P.p 1 (shakeOf seed) = (do
      let (val, shake) ← drawFq SHAKE256 P.p (shakeOf seed)
      pure ([(val : ZMod P.p)], shake)) := by
  rw [expandFqs, forUpM_succ (Nat.zero_le 0), forUpM_self, pure_bind]
  rfl

/-- What both programs hold after a successful round. -/
structure AttemptAgree (P : Params) (r : List UInt8 × Arr UInt16 × Arr UInt16 × Arr UInt16)
    (r' : List UInt8 × Mat P.p P.m P.m × Mat P.p P.n P.n × Gen P) : Prop where
  sigma : r.1 = r'.1
  Ainv : Holds r.2.1 r'.2.1
  Binv : Holds r.2.2.1 r'.2.2.1
  G : Holds r.2.2.2 r'.2.2.2

theorem keypairAttempt_matches (hP : Shared P) (hkp : P.k < P.p) {G0 : Arr UInt16} {M0 : Gen P}
    (h0 : Holds G0 M0) (sigma : List UInt8) :
    Run.Matches (Run.Matches.Round Eq (Run.Values (AttemptAgree P)))
      (Ref.keypairAttempt P SHAKE256 G0 sigma : Run ε _) (keypairAttempt P SHAKE256 M0 sigma) := by
  have hk : P.k ≤ P.m * P.n := hP.sized.k_le
  unfold Ref.keypairAttempt keypairAttempt
  simp only [xofTuple_eq]
  apply (rndInvMatrix_matches hP.fieldSize P.k _).bind_values
  intro Ti MT hT
  rw [expandFqs_one, bind_assoc]
  apply (rndGF_matches hP.fieldSize _).bind_values
  rintro ⟨Amm, shake⟩ _ ⟨rfl, hAmm⟩
  rw [pure_bind]
  have hG0prime := @pmodMatMul_holds P _ hP P.k (P.m * P.n) Ti G0 Arr.empty MT M0 hT.eq h0.eq
  simp only [List.getD_cons_zero]
  -- the rejections stand in the same order
  rcases solve_solveSymb hP hG0prime hAmm with ⟨hC, hS⟩ | ⟨A, Binv, MA, MB, hC, hS, hA, hB⟩
  · rw [hC, hS]
    exact Run.Matches.round_continue rfl
  rw [hC, hS]
  change Run.Matches _ _ (if _ then _ else _)
  rcases pmodMatInv_inverse hP hB with ⟨hBtrue, B, hBinv, hBM⟩ | ⟨hBfalse, hBnone⟩
  case inr =>
    rw [hBfalse, Bool.not_false, if_pos rfl]
    simp only [hBnone]
    exact Run.Matches.round_continue rfl
  have hA' := hA.resize hP.m_eq
  rcases pmodMatInv_inverse hP hA' with ⟨hAtrue, Ainv, hAinv, hAM⟩ | ⟨hAfalse, hAnone⟩
  case inr =>
    rw [isInvertible_resize hP.m_eq] at hAfalse
    rw [hBtrue, if_neg (by decide), hAfalse, Bool.not_false, if_pos rfl]
    simp only [hBinv, hAnone]
    exact Run.Matches.round_continue rfl
  rw [isInvertible_resize hP.m_eq] at hAtrue
  rw [hBtrue, if_neg (by decide), hAtrue, if_neg (by decide)]
  simp only [hBinv, hAinv]
  rcases pmodMatSystCt_sf hP hk hkp (pi_holds hP hA' hBM h0.eq) with
    ⟨hret, Gi, hsf, hGi⟩ | ⟨hret, hsf⟩
  · simp only [hret, hsf]
    rw [if_neg (by decide)]
    exact Run.Matches.round_break ⟨_, _, rfl, rfl, rfl, hAM, hB, hGi⟩
  · simp only [hret, hsf]
    rw [if_pos (by decide)]
    exact Run.Matches.round_continue rfl

/-! ## The matrices of a key pair -/

/-- The arrays of C and the lists of Sage, up to index `hi - 1`. -/
structure KeysHold (P : Params) (hi : Nat) (K : Ref.KeyMatrices) (K' : KeyMatrices P) : Prop where
  G : Listed Holds 1 hi K.G K'.G
  Ainv : Listed Holds 1 hi K.Ainv K'.Ainv
  Binv : Listed Holds 1 hi K.Binv K'.Binv

theorem keypairIndex_matches (hP : Shared P) (hkp : P.k < P.p) {G0 : Arr UInt16} {M0 : Gen P}
    (h0 : Holds G0 M0) {i : Nat} {s : List UInt8 × Ref.KeyMatrices} {s' : List UInt8 × KeyMatrices P}
    (hsigma : s.1 = s'.1) (hK : KeysHold P i s.2 s'.2) :
    Run.Matches (Run.Values fun s s' => s.1 = s'.1 ∧ KeysHold P (i + 1) s.2 s'.2)
      (Ref.keypairIndex P SHAKE256 G0 i s : Run ε _) (keypairIndex P SHAKE256 M0 s') := by
  unfold Ref.keypairIndex keypairIndex
  have hround : ∀ sigma sigma', sigma = sigma' →
      Run.Matches (Run.Matches.Round Eq (Run.Values (AttemptAgree P)))
        (Ref.keypairAttempt P SHAKE256 G0 sigma : Run ε _)
        (keypairAttempt P SHAKE256 M0 sigma') := by
    rintro sigma _ rfl
    exact keypairAttempt_matches hP hkp h0 sigma
  apply (Run.Matches.loop hround hsigma).bind_values
  intro r r' hr
  exact Run.Matches.values ⟨hr.sigma, hK.G.concat hr.G, hK.Ainv.concat hr.Ainv,
    hK.Binv.concat hr.Binv⟩

theorem keypairMatrices_matches (hP : Shared P) (hkp : P.k < P.p) (delta : List UInt8) :
    Run.Matches (Run.Values fun r r' => r.1 = r'.1 ∧ r.1.length = P.pubSeedBytes ∧
        KeysHold P P.s r.2 r'.2)
      (Ref.keypairMatrices P SHAKE256 delta : Run ε _) (keypairMatrices P SHAKE256 delta) := by
  unfold Ref.keypairMatrices keypairMatrices
  simp only [xofTuple_eq]
  have hlen : ((xof SHAKE256 delta [P.pubSeedBytes, P.secSeedBytes]).getD 0 []).length
      = P.pubSeedBytes := by
    rw [xof_two]
    exact length_streamSlice _ _ _
  apply (rndSysMat_matches hP P.k P.m P.n hP.sized.k_le _).bind_values
  intro G0 M0 h0
  have hloop := Run.Matches.forUpM_values
    (f := (Ref.keypairIndex P SHAKE256 G0 : Nat → _ → Run ε _)) (g := fun _ => keypairIndex P SHAKE256 M0)
    (fun i s s' => s.1 = s'.1 ∧ KeysHold P i s.2 s'.2) hP.sized.one_le_s
    (fun i s s' _ _ h => keypairIndex_matches hP hkp h0 h.1 h.2)
    (s := ((xof SHAKE256 delta [P.pubSeedBytes, P.secSeedBytes]).getD 1 [],
      { G := Arr.empty.set 0 G0, Ainv := Arr.empty, Binv := Arr.empty }))
    (t := ((xof SHAKE256 delta [P.pubSeedBytes, P.secSeedBytes]).getD 1 [],
      { G := [], Ainv := [], Binv := [] }))
    ⟨rfl, Listed.nil 1 _, Listed.nil 1 _, Listed.nil 1 _⟩
  apply hloop.bind_values
  rintro ⟨sigma, K⟩ ⟨sigma', K'⟩ ⟨-, hK⟩
  exact Run.Matches.values ⟨rfl, hlen, hK⟩

/-! ## The keys -/

omit [Fact P.p.Prime] in
theorem KeysHold.entriesFit (hP : Shared P) {K : Ref.KeyMatrices} {K' : KeyMatrices P}
    (h : KeysHold P P.s K K') : EntriesFit P K where
  Ainv i j h1 h2 hj := by
    obtain ⟨M, -, hM⟩ := h.Ainv.getElem? h1 h2
    exact (hM.reduced j hj).trans_le hP.p_le
  Binv i j h1 h2 hj := by
    obtain ⟨M, -, hM⟩ := h.Binv.getElem? h1 h2
    exact (hM.reduced j hj).trans_le hP.p_le
  G i j h1 h2 hj := by
    obtain ⟨M, -, hM⟩ := h.G.getElem? h1 h2
    apply (hM.reduced j _).trans_le hP.p_le
    rwa [Nat.mul_comm, ← Nat.mul_assoc]

/-- The status, and the bytes of both keys. -/
def SameKeys (P : Params) (r : Int × Arr UInt8 × Arr UInt8) (r' : List UInt8 × List UInt8) : Prop :=
  r.1 = 0 ∧ r.2.1.slice 0 P.pkBytes = r'.2 ∧ r.2.2.slice 0 P.skBytes = r'.1

/-- The two key generators, on the same random bytes. -/
theorem cryptoSignKeypair_matches (hP : Shared P) (hkp : P.k < P.p) {delta : List UInt8}
    (hdelta : delta.length = P.secSeedBytes) (pk sk : Arr UInt8) :
    Run.Matches (Run.Values (SameKeys P)) (Ref.cryptoSignKeypair P SHAKE256 delta pk sk : Run ε _)
      (cryptoSignKeypair P SHAKE256 delta) := by
  rw [cryptoSignKeypair_eq_copyKeys, cryptoSignKeypair]
  apply (keypairMatrices_matches hP hkp delta).bind_values
  rintro ⟨sigmaG0, K⟩ ⟨_, K'⟩ ⟨rfl, hlen, hK⟩
  obtain ⟨pk', sk', hcopy, hpk, hsk⟩ := copyKeys_packed hP.sized hP.eight_le
    (hK.entriesFit hP) hdelta hlen pk sk
  simp only
  rw [hcopy, appendEach_listed hK.G (compressG_holds hP), appendEach_listed hK.Ainv
    (compress_holds hP)]
  change Run.Matches _ _ (ofExcept (appendEach _ _ _) >>= _)
  rw [appendEach_listed hK.Binv (compress_holds hP)]
  refine Run.Matches.values ⟨rfl, hpk, ?_⟩
  rw [hsk, skBlocks, List.append_assoc (delta ++ sigmaG0)]

end

end Meds.Sage
