/-
  Meds.Sage.ChallengeEnds

  Every beginning of a stream goes on to a stream from which `PaseHash` draws
  its challenge.

  While the reader is within the given bytes it takes what it finds, and every
  round of either loop moves it on.  Behind them the next bytes can be chosen:
  a position that is still free, or the value 1.  Bytes that have been read are
  not changed afterwards (`SameUpTo`).
-/

import Meds.Sage.Challenge

namespace Meds.Sage

open Meds.Core Meds.Ref

/-- The streams agree on their first `n` bytes. -/
def SameUpTo (n : Nat) (S S' : Nat → UInt8) : Prop := ∀ i, i < n → S' i = S i

section

variable {n n' : Nat} {S S' S'' : Nat → UInt8}

theorem SameUpTo.refl (n : Nat) (S : Nat → UInt8) : SameUpTo n S S := fun _ _ => rfl

theorem SameUpTo.mono (h : SameUpTo n S S') (hle : n' ≤ n) : SameUpTo n' S S' :=
  fun i hi => h i (hi.trans_le hle)

theorem SameUpTo.trans (h : SameUpTo n S S') (h' : SameUpTo n S' S'') : SameUpTo n S S'' :=
  fun i hi => (h' i hi).trans (h i hi)

theorem SameUpTo.slice (h : SameUpTo n S S') {pos len : Nat} (hle : pos + len ≤ n) :
    streamSlice S' pos len = streamSlice S pos len :=
  List.map_congr_left fun j hj => h _ (by have := List.mem_range.mp hj; omega)

/-- The stream with the bytes `l` from `pos` on. -/
def overlay (S : Nat → UInt8) (pos : Nat) (l : List UInt8) (i : Nat) : UInt8 :=
  if pos ≤ i ∧ i < pos + l.length then l.getD (i - pos) 0 else S i

theorem sameUpTo_overlay (S : Nat → UInt8) (pos : Nat) (l : List UInt8) :
    SameUpTo pos S (overlay S pos l) :=
  fun i hi => if_neg (by omega)

theorem slice_overlay (S : Nat → UInt8) (pos : Nat) (l : List UInt8) :
    streamSlice (overlay S pos l) pos l.length = l := by
  apply List.ext_getElem (length_streamSlice _ _ _)
  intro i h1 h2
  simp only [streamSlice, List.getElem_map, List.getElem_range]
  rw [overlay, if_pos (by omega), Nat.add_sub_cancel_left, List.getD_eq_getElem _ _ h2]

end

variable {P : Params}

/-! ## Values -/

/-- The value that `drawVal` takes from a byte. -/
def valOf (P : Params) (b : UInt8) : Nat := b.toNat &&& (1 <<< Nat.clog 2 P.s - 1)

theorem valOf_one (hs : 2 ≤ P.s) : valOf P 1 = 1 := by
  have hc : 0 < Nat.clog 2 P.s := (Nat.lt_clog_iff_pow_lt (by decide)).mpr hs
  change 1 &&& (1 <<< Nat.clog 2 P.s - 1) = 1
  rw [Nat.one_shiftLeft, Nat.and_two_pow_sub_one_eq_mod, Nat.mod_eq_of_lt (Nat.one_lt_two_pow hc.ne')]

/-- A value that the loop of `drawVal` rejects. -/
abbrev Rejected (P : Params) (val : Nat) : Prop := val < 1 ∨ val > P.s - 1

/-- The loop of `drawVal`, from the value `val` on. -/
def valLoop (P : Params) (SHAKE256 : Shake) (val : Nat) (shake : KeccakState) :
    Run PyError (Nat × KeccakState) :=
  Run.loop
    (fun (val, shake) =>
      if Rejected P val then
        let (val, shake) := readInt SHAKE256 (numBytes P.s) shake
        pure (.inl (val &&& (1 <<< Nat.clog 2 P.s - 1), shake))
      else pure (.inr (val, shake)))
    (val, shake)

theorem drawVal_eq (SHAKE256 : Shake) (shake : KeccakState) :
    drawVal P SHAKE256 shake = valLoop P SHAKE256 0 shake := rfl

section

variable {S : Nat → UInt8} {digest : List UInt8} {pos val : Nat}

theorem valLoop_accept {r : Nat × KeccakState} (h : ¬ Rejected P r.1) :
    (valLoop P (fun _ => S) r.1 r.2).Returns r := by
  apply Run.returns_loop_break
  simp only [if_neg h, Run.returns_pure]

/-- A rejected value is replaced by the one that the next byte gives. -/
theorem valLoop_reject (hs : numBytes P.s = 1) (h : Rejected P val) {r : Nat × KeccakState}
    (hr : (valLoop P (fun _ => S) (valOf P (S pos)) ⟨digest, pos + 1⟩).Returns r) :
    (valLoop P (fun _ => S) val ⟨digest, pos⟩).Returns r := by
  have hread : readInt (fun _ => S) (numBytes P.s) ⟨digest, pos⟩
      = ((S pos).toNat, ⟨digest, pos + 1⟩) := by
    rw [hs, readInt_eq]
    simp [shake256Squeeze, streamSlice, leValue, forUp, forLoop]
  apply Run.returns_loop_continue _ hr
  simp only [if_pos h, hread, Run.returns_pure]
  rfl

end

/-- The loop of `drawVal` ends behind the first byte that it takes. -/
theorem exists_drawn (hs : numBytes P.s = 1) {S : Nat → UInt8} (digest : List UInt8) {pos q : Nat}
    (hle : pos ≤ q) (htake : ¬ Rejected P (valOf P (S q))) :
    ∃ q', pos ≤ q' ∧ q' ≤ q ∧ ¬ Rejected P (valOf P (S q')) ∧
      (drawVal P (fun _ => S) ⟨digest, pos⟩).Returns (valOf P (S q'), ⟨digest, q' + 1⟩) := by
  -- by induction on the bytes up to `q`
  suffices h : ∀ d pos val, q = pos + d → Rejected P val → ∃ q', pos ≤ q' ∧ q' ≤ q ∧
      ¬ Rejected P (valOf P (S q')) ∧
        (valLoop P (fun _ => S) val ⟨digest, pos⟩).Returns (valOf P (S q'), ⟨digest, q' + 1⟩) from
    h (q - pos) pos 0 (by omega) (Or.inl Nat.one_pos)
  intro d
  induction d with
  | zero =>
      intro pos val hq hval
      rw [Nat.add_zero] at hq
      subst hq
      exact ⟨q, Nat.le_refl q, Nat.le_refl q, htake,
        valLoop_reject hs hval (valLoop_accept (r := (_, ⟨digest, q + 1⟩)) htake)⟩
  | succ d ih =>
      intro pos val hq hval
      by_cases hnext : Rejected P (valOf P (S pos))
      · obtain ⟨q', hlo, hhi, htake', hr⟩ := ih (pos + 1) _ (by omega) hnext
        exact ⟨q', by omega, hhi, htake', valLoop_reject hs hval hr⟩
      · exact ⟨pos, Nat.le_refl pos, by omega, hnext,
          valLoop_reject hs hval (valLoop_accept (r := (_, ⟨digest, pos + 1⟩)) hnext)⟩

/-- The bytes behind `S` up to `pos'` decide what `drawVal` returns at `pos`. -/
def DrawsVal (P : Params) (S : Nat → UInt8) (pos v pos' : Nat) : Prop :=
  ∀ S', SameUpTo pos' S S' → ∀ digest,
    (drawVal P (fun _ => S') ⟨digest, pos⟩).Returns (v, ⟨digest, pos'⟩)

/-- The loop of `drawVal` can be ended behind every beginning of `n` bytes. -/
theorem exists_drawVal (hP : ChallengeSizes P) (n : Nat) (S : Nat → UInt8) (pos : Nat) :
    ∃ S' v pos', SameUpTo (max n pos) S S' ∧ 0 < v ∧ pos < pos' ∧ DrawsVal P S' pos v pos' := by
  have hs := hP.two_le_s
  -- by induction on the bytes of the beginning that are left
  suffices h : ∀ d pos val, n ≤ pos + d → Rejected P val →
      ∃ S' v pos', SameUpTo (max n pos) S S' ∧ 0 < v ∧ pos < pos' ∧
        ∀ S'', SameUpTo pos' S' S'' → ∀ digest,
          (valLoop P (fun _ => S'') val ⟨digest, pos⟩).Returns (v, ⟨digest, pos'⟩) from
    h n pos 0 (Nat.le_add_left n pos) (Or.inl Nat.one_pos)
  intro d
  induction d with
  | zero =>
      intro pos val hd hval
      have hone : overlay S pos [1] pos = 1 := by simp [overlay]
      refine ⟨overlay S pos [1], 1, pos + 1, (sameUpTo_overlay S pos [1]).mono (by omega),
        Nat.one_pos, Nat.lt_succ_self pos, fun S'' hsame digest =>
          valLoop_reject hP.numBytes_s hval ?_⟩
      rw [hsame pos (Nat.lt_succ_self pos), hone, valOf_one hs]
      exact valLoop_accept (r := (1, ⟨digest, pos + 1⟩)) (by omega)
  | succ d ih =>
      intro pos val hd hval
      by_cases hnext : Rejected P (valOf P (S pos))
      · obtain ⟨S', v, pos', hsame, hv, hlt, hr⟩ := ih (pos + 1) _ (by omega) hnext
        refine ⟨S', v, pos', hsame.mono (by omega), hv, by omega, fun S'' hsame' digest =>
          valLoop_reject hP.numBytes_s hval ?_⟩
        rw [hsame' pos (by omega), hsame pos (by omega)]
        exact hr S'' hsame' digest
      · refine ⟨S, valOf P (S pos), pos + 1, SameUpTo.refl _ S, by omega, Nat.lt_succ_self pos,
          fun S'' hsame digest => valLoop_reject hP.numBytes_s hval ?_⟩
        rw [hsame pos (Nat.lt_succ_self pos)]
        exact valLoop_accept (r := (valOf P (S pos), ⟨digest, pos + 1⟩)) hnext

/-! ## Positions -/

/-- The position that `PaseHash` takes from the bytes at `pos`. -/
def posOf (P : Params) (S : Nat → UInt8) (pos : Nat) : Nat :=
  leValue (streamSlice S pos (numBytes P.t)) &&& (1 <<< Nat.clog 2 P.t - 1)

theorem SameUpTo.posOf {n : Nat} {S S' : Nat → UInt8} (h : SameUpTo n S S') {pos : Nat}
    (hle : pos + numBytes P.t ≤ n) : posOf P S' pos = posOf P S pos := by
  rw [Sage.posOf, Sage.posOf, h.slice hle]

/-- Any position can be written. -/
theorem posOf_overlay (S : Nat → UInt8) (pos : Nat) {f : Nat} (hf : f < P.t) :
    posOf P (overlay S pos ((List.range (numBytes P.t)).map fun j => UInt8.ofNat (f >>> (j * 8))))
      pos = f := by
  have hpow : P.t ≤ 2 ^ Nat.clog 2 P.t := Nat.le_pow_clog (by decide) _
  have hbits : Nat.clog 2 P.t ≤ numBytes P.t * 8 := by
    unfold numBytes ceiling
    omega
  have hslice := slice_overlay S pos
    ((List.range (numBytes P.t)).map fun j => UInt8.ofNat (f >>> (j * 8)))
  rw [List.length_map, List.length_range] at hslice
  rw [posOf, hslice, leValue_bytes, Nat.one_shiftLeft, Nat.and_two_pow_sub_one_eq_mod,
    Nat.mod_eq_of_lt (hf.trans_le (hpow.trans (Nat.pow_le_pow_right (by decide) hbits))),
    Nat.mod_eq_of_lt (hf.trans_le hpow)]

/-- The loop of `PaseHash`, from a state on. -/
def hashLoop (P : Params) (SHAKE256 : Shake) (s : Nat × List Nat × KeccakState) :
    Run PyError (List Nat) :=
  Run.loop
    (fun s : Nat × List Nat × KeccakState =>
      let (num, h, shake) := s
      if num < P.w then
        let (pos, shake) := readInt SHAKE256 (numBytes P.t) shake
        let pos := pos &&& (1 <<< Nat.clog 2 P.t - 1)
        if pos ≥ P.t then pure (.inl (num, h, shake))
        else if h.getD pos 0 > 0 then pure (.inl (num, h, shake))
        else do
          let (val, shake) ← drawVal P SHAKE256 shake
          pure (.inl (num + 1, h.set pos val, shake))
      else pure (.inr h))
    s

theorem parseHash_eq (SHAKE256 : Shake) (digest : List UInt8) :
    parseHash P SHAKE256 digest
      = hashLoop P SHAKE256 (0, List.replicate P.t 0, ⟨digest, 0⟩) := rfl

section

variable {S : Nat → UInt8} {digest : List UInt8} {num pos : Nat} {h r : List Nat}

theorem readInt_pos : readInt (fun _ => S) (numBytes P.t) ⟨digest, pos⟩
    = (leValue (streamSlice S pos (numBytes P.t)), ⟨digest, pos + numBytes P.t⟩) := readInt_eq _ _

theorem hashLoop_done (hnum : ¬ num < P.w) :
    (hashLoop P (fun _ => S) (num, h, ⟨digest, pos⟩)).Returns h := by
  apply Run.returns_loop_break
  simp only [if_neg hnum, Run.returns_pure]

/-- A position that is too large or taken is skipped. -/
theorem hashLoop_skip (hnum : num < P.w) (hbad : posOf P S pos ≥ P.t ∨ h.getD (posOf P S pos) 0 > 0)
    (hr : (hashLoop P (fun _ => S) (num, h, ⟨digest, pos + numBytes P.t⟩)).Returns r) :
    (hashLoop P (fun _ => S) (num, h, ⟨digest, pos⟩)).Returns r := by
  apply Run.returns_loop_continue _ hr
  simp only [if_pos hnum, readInt_pos]
  change (if posOf P S pos ≥ P.t then _ else if h.getD (posOf P S pos) 0 > 0 then _ else _
    : Run PyError _).Returns _
  by_cases hlarge : posOf P S pos ≥ P.t
  · rw [if_pos hlarge, Run.returns_pure]
  · rw [if_neg hlarge, if_pos (hbad.resolve_left hlarge), Run.returns_pure]

/-- A free position gets the value that is drawn behind it. -/
theorem hashLoop_take (hnum : num < P.w) (hlt : posOf P S pos < P.t)
    (hfree : ¬ h.getD (posOf P S pos) 0 > 0) {v pos' : Nat}
    (hv : (drawVal P (fun _ => S) ⟨digest, pos + numBytes P.t⟩).Returns (v, ⟨digest, pos'⟩))
    (hr : (hashLoop P (fun _ => S) (num + 1, h.set (posOf P S pos) v, ⟨digest, pos'⟩)).Returns r) :
    (hashLoop P (fun _ => S) (num, h, ⟨digest, pos⟩)).Returns r := by
  apply Run.returns_loop_continue _ hr
  simp only [if_pos hnum, readInt_pos]
  change (if posOf P S pos ≥ P.t then _ else if h.getD (posOf P S pos) 0 > 0 then _ else _
    : Run PyError _).Returns _
  rw [if_neg (Nat.not_le.mpr hlt), if_neg hfree]
  exact Run.returns_bind.mpr ⟨_, hv, Run.returns_pure.mpr rfl⟩

end

/-! ## The challenge -/

/-- At most `num` of the `MEDS_t` entries are taken. -/
structure Taken (P : Params) (num : Nat) (h : List Nat) : Prop where
  length : h.length = P.t
  count : h.countP (fun v => v > 0) ≤ num

theorem Taken.exists_free {num : Nat} {h : List Nat} (hh : Taken P num h) (hnum : num < P.t) :
    ∃ f, f < P.t ∧ ¬ h.getD f 0 > 0 := by
  by_contra hno
  push Not at hno
  have hall : h.countP (fun v => v > 0) = h.length := by
    rw [List.countP_eq_length]
    intro v hv
    obtain ⟨f, hf, rfl⟩ := List.getElem_of_mem hv
    have := hno f (hh.length ▸ hf)
    rw [List.getD_eq_getElem _ _ hf] at this
    exact decide_eq_true this
  have := hh.count
  rw [hall, hh.length] at this
  omega

theorem Taken.set {num : Nat} {h : List Nat} (hh : Taken P num h) (f v : Nat) :
    Taken P (num + 1) (h.set f v) := by
  refine ⟨by rw [List.length_set, hh.length], ?_⟩
  by_cases hf : f < h.length
  · have := hh.count
    rw [List.countP_set hf]
    split <;> split <;> omega
  · rw [List.set_eq_of_length_le (by omega)]
    exact hh.count.trans (Nat.le_succ num)

/-- A position that is skipped takes bytes: a challenge of one entry, whose
    positions take none, is never skipped. -/
theorem Taken.numBytes_pos {num : Nat} {h : List Nat} (hh : Taken P num h) (hnum : num < P.t)
    {S : Nat → UInt8} {pos : Nat} (hbad : posOf P S pos ≥ P.t ∨ h.getD (posOf P S pos) 0 > 0) :
    0 < numBytes P.t := by
  refine Nat.pos_of_ne_zero fun hzero => ?_
  have hclog : Nat.clog 2 P.t = 0 := by
    unfold numBytes ceiling at hzero
    omega
  have ht := Nat.le_pow_clog (b := 2) (by decide) P.t
  have hpos : posOf P S pos = 0 := by
    rw [posOf, hclog]
    exact Nat.and_zero _
  rw [hclog] at ht
  obtain ⟨f, hf, hfree⟩ := hh.exists_free hnum
  obtain rfl : f = 0 := by omega
  rw [hpos] at hbad
  exact hbad.elim (by omega) hfree

/-- Every beginning goes on to a stream from which `PaseHash` returns. -/
theorem exists_hashLoop (hP : ChallengeSizes P) (hwt : P.w ≤ P.t) (n : Nat) :
    ∀ e d (S : Nat → UInt8) (num : Nat) (h : List Nat) (pos : Nat), P.w ≤ num + e → n ≤ pos + d →
      Taken P num h → ∃ S', SameUpTo (max n pos) S S' ∧
        ∀ digest, ∃ r, (hashLoop P (fun _ => S') (num, h, ⟨digest, pos⟩)).Returns r := by
  intro e
  induction e with
  | zero =>
      intro d S num h pos he _ _
      exact ⟨S, SameUpTo.refl _ S, fun digest => ⟨h, hashLoop_done (by omega)⟩⟩
  | succ e ihe =>
      -- what a round does that finds a free position
      have htake : ∀ (S : Nat → UInt8) (num : Nat) (h : List Nat) (pos : Nat),
          P.w ≤ num + (e + 1) → num < P.w → Taken P num h → posOf P S pos < P.t →
          ¬ h.getD (posOf P S pos) 0 > 0 →
          ∃ S', SameUpTo (max n (pos + numBytes P.t)) S S' ∧
            ∀ digest, ∃ r, (hashLoop P (fun _ => S') (num, h, ⟨digest, pos⟩)).Returns r := by
        intro S num h pos he hnum hh hlt hfree
        obtain ⟨S₁, v, pos', hS₁, -, hpos', hv⟩ := exists_drawVal hP n S (pos + numBytes P.t)
        obtain ⟨S₂, hS₂, hr⟩ := ihe n S₁ (num + 1) (h.set (posOf P S pos) v) pos' (by omega) (by omega)
          (hh.set _ v)
        have hsame : SameUpTo (max n (pos + numBytes P.t)) S S₂ := hS₁.trans (hS₂.mono (by omega))
        refine ⟨S₂, hsame, fun digest => ?_⟩
        obtain ⟨r, hr⟩ := hr digest
        have hword : posOf P S₂ pos = posOf P S pos := hsame.posOf (by omega)
        refine ⟨r, hashLoop_take hnum (hword ▸ hlt) (by rwa [hword])
          (hv S₂ (hS₂.mono (by omega)) digest) (by rwa [hword])⟩
      intro d
      induction d with
      | zero =>
          intro S num h pos he hd hh
          by_cases hnum : num < P.w
          · -- the position is chosen
            obtain ⟨f, hf, hfree⟩ := hh.exists_free (by omega)
            have hword := posOf_overlay S pos hf
            obtain ⟨S', hS', hr⟩ := htake (overlay S pos ((List.range (numBytes P.t)).map
              fun j => UInt8.ofNat (f >>> (j * 8)))) num h pos he hnum hh (by rwa [hword])
              (by rwa [hword])
            exact ⟨S', ((sameUpTo_overlay S pos _).mono (by omega)).trans (hS'.mono (by omega)), hr⟩
          · exact ⟨S, SameUpTo.refl _ S, fun digest => ⟨h, hashLoop_done hnum⟩⟩
      | succ d ihd =>
          intro S num h pos he hd hh
          by_cases hnum : num < P.w
          · by_cases hbad : posOf P S pos ≥ P.t ∨ h.getD (posOf P S pos) 0 > 0
            · have hbytes := hh.numBytes_pos (by omega) hbad
              obtain ⟨S', hS', hr⟩ := ihd S num h (pos + numBytes P.t) he (by omega) hh
              have hword : posOf P S' pos = posOf P S pos := hS'.posOf (by omega)
              refine ⟨S', hS'.mono (by omega), fun digest => ?_⟩
              obtain ⟨r, hr⟩ := hr digest
              exact ⟨r, hashLoop_skip hnum (by rwa [hword]) hr⟩
            · push Not at hbad
              obtain ⟨S', hS', hr⟩ := htake S num h pos he hnum hh hbad.1 (by omega)
              exact ⟨S', hS'.mono (by omega), hr⟩
          · exact ⟨S, SameUpTo.refl _ S, fun digest => ⟨h, hashLoop_done hnum⟩⟩

/-- Some stream with the given first bytes is drawn to the end, whatever is hashed. -/
theorem exists_parseHash (hP : ChallengeSizes P) (hwt : P.w ≤ P.t) (n : Nat) (S : Nat → UInt8) :
    ∃ S', SameUpTo n S S' ∧ ∀ digest, ∃ r, (parseHash P (fun _ => S') digest).Returns r := by
  have hstart : Taken P 0 (List.replicate P.t 0) := by
    refine ⟨List.length_replicate, ?_⟩
    rw [List.countP_replicate]
    simp
  obtain ⟨S', hS', hr⟩ := exists_hashLoop hP hwt n P.w n S 0 (List.replicate P.t 0) 0 (by omega)
    (by omega) hstart
  exact ⟨S', hS'.mono (Nat.le_max_left n 0), hr⟩

end Meds.Sage
