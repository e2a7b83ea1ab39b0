/-
  Meds.Sage.ChallengeMasks

  When `parse_hash` and `PaseHash` agree, by what gen_param of params.py
  prints.

  util.py takes the logarithm of t exactly.  gen_param takes `math.log` in
  doubles, which can be too large for a power of two (30 bits for t = 2^29),
  and for the number of bytes it takes the logarithm of t - 1 (one byte for
  t = 257).  The parsers agree exactly where neither changes what is drawn.
  What `math.log` comes to is a parameter.

  Where it does, a stream shows it that ends in zeros: Sage needs just the
  bytes before them, and C, which spends one byte more, waits for a value
  forever.
-/

import Meds.Sage.ChallengeEnds

namespace Meds.Sage

open Meds.Core Meds.Ref

variable {P : Params} {SHAKE256 : Shake} {ε : Type}

/-! ## The bytes that C spends -/

section

variable {S : Nat → UInt8} {digest : List UInt8} {N x : Nat}

/-- A value is taken from one byte; the bytes before it are rejected. -/
theorem parseVal_returns {pos : Nat} {r : Nat × KeccakState}
    (h : (parseVal P (fun _ => S) ⟨digest, pos⟩ : Run ε _).Returns r) :
    ∃ q, pos ≤ q ∧ r = ((S q).toNat &&& P.sMask, ⟨digest, q + 1⟩) ∧ ¬ Rejected P r.1 := by
  have hread : ∀ q, shake256Squeeze (fun _ => S) 1 ⟨digest, q⟩ = ([S q], ⟨digest, q + 1⟩) :=
    fun _ => rfl
  refine Run.loop_invariant
    (I := fun s : Nat × KeccakState => ∃ q, pos ≤ q ∧ s.2 = ⟨digest, q⟩ ∧
      (s.1 = 0 ∨ ∃ q', pos ≤ q' ∧ q = q' + 1 ∧ s.1 = (S q').toNat &&& P.sMask))
    (Q := fun r => ∃ q, pos ≤ q ∧ r = ((S q).toNat &&& P.sMask, ⟨digest, q + 1⟩) ∧ ¬ Rejected P r.1)
    ?cont ?stop ⟨pos, Nat.le_refl pos, rfl, Or.inl rfl⟩ h
  case cont =>
    rintro ⟨val, _⟩ s' ⟨q, hq, rfl, -⟩ hr
    simp only [hread] at hr
    split_ifs at hr with hval
    · obtain rfl := Sum.inl.inj (Run.returns_pure.mp hr)
      exact ⟨q + 1, by omega, rfl, Or.inr ⟨q, hq, rfl, rfl⟩⟩
    · cases Run.returns_pure.mp hr
  case stop =>
    rintro ⟨val, _⟩ b ⟨q, hq, rfl, hlast⟩ hr
    simp only [hread] at hr hlast
    split_ifs at hr with hval
    · cases Run.returns_pure.mp hr
    · obtain rfl := Sum.inr.inj (Run.returns_pure.mp hr)
      obtain rfl | ⟨q', hq', rfl, rfl⟩ := hlast
      · exact absurd (Or.inl Nat.one_pos) hval
      · exact ⟨q', hq', rfl, hval⟩

/-- What a round of `parse_hash` does: the position is not taken, or it is and gets a value,
    or all are drawn. -/
theorem parseRound_cases {i pos : Nat} {h : Arr UInt8}
    {r : Nat × Arr UInt8 × KeccakState ⊕ Arr UInt8}
    (hr : (parseRound P (fun _ => S) (i, h, ⟨digest, pos⟩) : Run ε _).Returns r) :
    r = .inl (i, h, ⟨digest, pos + P.tBytes⟩) ∨
      (leValue (streamSlice S pos P.tBytes) &&& P.tMask < P.t ∧
        ∃ h' q, pos + P.tBytes ≤ q ∧ ¬ Rejected P ((S q).toNat &&& P.sMask) ∧
          r = .inl (i + 1, h', ⟨digest, q + 1⟩)) ∨
      P.w ≤ i ∧ r = .inr h := by
  unfold parseRound at hr
  simp only at hr
  split_ifs at hr with hi hlarge
  · exact Or.inl (Run.returns_pure.mp hr)
  · exact Or.inl (Run.returns_pure.mp hr)
  · obtain ⟨r', hval, hr⟩ := Run.returns_bind.mp hr
    obtain ⟨q, hq, rfl, hacc⟩ := parseVal_returns hval
    exact Or.inr (Or.inl ⟨Nat.lt_of_not_le hlarge, _, q, hq, hacc, Run.returns_pure.mp hr⟩)
  · exact Or.inr (Or.inr ⟨Nat.le_of_not_lt hi, Run.returns_pure.mp hr⟩)

/-- A byte that is taken is not zero. -/
theorem lt_of_accepted (hzero : ∀ i, N ≤ i → S i = 0) {q : Nat}
    (h : ¬ Rejected P ((S q).toNat &&& P.sMask)) : q < N := by
  by_contra hge
  refine h (Or.inl ?_)
  rw [hzero q (Nat.le_of_not_lt hge)]
  exact (Nat.zero_and _).trans_lt Nat.one_pos

/-- After `i` draws of `parse_hash`, `x` bytes more than these need are spent,
    all before byte `N`. -/
def Spent (P : Params) (digest : List UInt8) (N x : Nat) (s : Nat × Arr UInt8 × KeccakState) :
    Prop :=
  ∃ pos, s.2.2 = ⟨digest, pos⟩ ∧ x + s.1 * (P.tBytes + 1) ≤ pos ∧ x + s.1 * (P.tBytes + 1) ≤ N

/-- What a round leaves. -/
abbrev SpentAfter (P : Params) (digest : List UInt8) (N x : Nat) :
    Nat × Arr UInt8 × KeccakState ⊕ Arr UInt8 → Prop :=
  Sum.elim (Spent P digest N x) fun _ => x + P.w * (P.tBytes + 1) ≤ N

theorem parseRound_spent (hzero : ∀ i, N ≤ i → S i = 0) {s : Nat × Arr UInt8 × KeccakState}
    (hs : Spent P digest N x s) {r : Nat × Arr UInt8 × KeccakState ⊕ Arr UInt8}
    (hr : (parseRound P (fun _ => S) s : Run ε _).Returns r) : SpentAfter P digest N x r := by
  obtain ⟨i, h, _⟩ := s
  obtain ⟨pos, rfl, hpos, hN⟩ := hs
  rcases parseRound_cases hr with rfl | ⟨-, h', q, hq, hacc, rfl⟩ | ⟨hi, rfl⟩
  · exact ⟨pos + P.tBytes, rfl, hpos.trans (Nat.le_add_right _ _), hN⟩
  · have hlt := lt_of_accepted hzero hacc
    have hnext : x + (i + 1) * (P.tBytes + 1) ≤ q + 1 := by
      simp only at hpos
      rw [Nat.succ_mul]
      omega
    exact ⟨q + 1, rfl, hnext, hnext.trans hlt⟩
  · exact (Nat.add_le_add_left (Nat.mul_le_mul_right (P.tBytes + 1) hi) x).trans hN

/-- A challenge of C spends its bytes before the zeros of the stream. -/
theorem parseHash_spent (hzero : ∀ i, N ≤ i → S i = 0)
    (hfirst : ∀ h r, (parseRound P (fun _ => S) (0, h, ⟨digest, 0⟩) : Run ε _).Returns r →
      SpentAfter P digest N x r) {h₀ : Arr UInt8} {r : Int × Arr UInt8}
    (hr : (Ref.parseHash P (fun _ => S) digest h₀ P.t : Run ε _).Returns r) :
    x + P.w * (P.tBytes + 1) ≤ N := by
  unfold Ref.parseHash at hr
  rw [if_neg (Nat.lt_irrefl _), Run.returns_bind] at hr
  obtain ⟨h, hloop, -⟩ := hr
  have hround : ∀ (s : Nat × Arr UInt8 × KeccakState) (r : _ ⊕ Arr UInt8),
      ((∃ h, s = (0, h, ⟨digest, 0⟩)) ∨ Spent P digest N x s) →
      (parseRound P (fun _ => S) s : Run ε _).Returns r → SpentAfter P digest N x r := by
    rintro s r (⟨h, rfl⟩ | hs) hr
    · exact hfirst h r hr
    · exact parseRound_spent hzero hs hr
  exact Run.loop_invariant
    (I := fun s => (∃ h, s = (0, h, ⟨digest, 0⟩)) ∨ Spent P digest N x s)
    (Q := fun _ => x + P.w * (P.tBytes + 1) ≤ N)
    (fun s s' hs hr => Or.inr (hround s (.inl s') hs hr)) (fun s b hs hr => hround s (.inr b) hs hr)
    (Or.inl ⟨_, rfl⟩) hloop

/-- A position that no drawn bytes come to stays free. -/
theorem parseHash_beyond {h₀ h : Arr UInt8} {ret : Int} {j : Nat} (hj : j < P.t)
    (hbeyond : ∀ x, x < 2 ^ (P.tBytes * 8) → x &&& P.tMask ≠ j)
    (hr : (Ref.parseHash P SHAKE256 digest h₀ P.t : Run ε _).Returns (ret, h)) : h.get j = 0 := by
  unfold Ref.parseHash at hr
  rw [if_neg (Nat.lt_irrefl _), Run.returns_bind] at hr
  obtain ⟨h', hloop, hr⟩ := hr
  rw [Run.returns_pure, Prod.mk.injEq] at hr
  obtain ⟨-, rfl⟩ := hr
  obtain ⟨hzero, -⟩ := fill_spec 0 P.t (ι := fun i => i) (M := h₀)
    (g := fun (_ : Arr UInt8) _ => (0 : UInt8)) (fun a b _ _ _ _ h => h) (fun _ _ _ _ _ => rfl)
  have hround : ∀ (s : Nat × Arr UInt8 × KeccakState) (r : _ ⊕ Arr UInt8), s.2.1.get j = 0 →
      (parseRound P SHAKE256 s : Run ε _).Returns r →
        (Sum.elim (fun s => s.2.1) id r).get j = 0 := by
    rintro ⟨i, h, shake⟩ r h0 hr
    unfold parseRound at hr
    simp only at hr h0
    -- the round may set a position, but not j
    have hne : leValue (shake256Squeeze SHAKE256 P.tBytes shake).1 &&& P.tMask ≠ j := by
      have := leValue_lt (shake256Squeeze SHAKE256 P.tBytes shake).1
      rw [length_shake256Squeeze] at this
      exact hbeyond _ this
    split_ifs at hr
    · rw [Run.returns_pure.mp hr]
      exact h0
    · rw [Run.returns_pure.mp hr]
      exact h0
    · obtain ⟨⟨v, shake'⟩, -, hr⟩ := Run.returns_bind.mp hr
      rw [Run.returns_pure.mp hr]
      exact (Arr.get_set_ne _ _ hne.symm).trans h0
    · rw [Run.returns_pure.mp hr]
      exact h0
  exact Run.loop_invariant (I := fun s : Nat × Arr UInt8 × KeccakState => s.2.1.get j = 0)
    (Q := fun h : Arr UInt8 => h.get j = 0) (fun s s' hs h => hround s (.inl s') hs h)
    (fun s b hs h => hround s (.inr b) hs h) (hzero j (Nat.zero_le _) hj) hloop

end

/-! ## The bytes that Sage needs -/

/-- Where position `j` is the word of draw `j`, and its value is taken at once, `PaseHash`
    returns. -/
theorem parseHash_in_order (hs : numBytes P.s = 1) (hwt : P.w ≤ P.t) {S : Nat → UInt8}
    (hpos : ∀ j, j < P.w → posOf P S (j * (numBytes P.t + 1)) = j)
    (hval : ∀ j, j < P.w →
      ¬ Rejected P (valOf P (S (j * (numBytes P.t + 1) + numBytes P.t)))) (digest : List UInt8) :
    ∃ l, (parseHash P (fun _ => S) digest).Returns l := by
  rw [parseHash_eq]
  -- by induction on the draws that are left
  suffices h : ∀ d i l, i + d = P.w → (∀ j, i ≤ j → l.getD j 0 = 0) →
      ∃ r, (hashLoop P (fun _ => S) (i, l, ⟨digest, i * (numBytes P.t + 1)⟩)).Returns r by
    have := h P.w 0 (List.replicate P.t 0) (Nat.zero_add _) fun j _ => by
      simp [List.getD_eq_getElem?_getD, List.getElem?_replicate]
      split <;> rfl
    rwa [Nat.zero_mul] at this
  intro d
  induction d with
  | zero =>
      intro i l hi _
      exact ⟨l, hashLoop_done (by omega)⟩
  | succ d ih =>
      intro i l hi hfree
      have hword := hpos i (by omega)
      obtain ⟨r, hr⟩ := ih (i + 1) (l.set i (valOf P (S (i * (numBytes P.t + 1) + numBytes P.t))))
        (by omega) fun j hj => by
          rw [List.getD_eq_getElem?_getD, List.getElem?_set_ne (by omega),
            ← List.getD_eq_getElem?_getD]
          exact hfree j (by omega)
      have hdraw : (drawVal P (fun _ => S) ⟨digest, i * (numBytes P.t + 1) + numBytes P.t⟩).Returns
          (valOf P (S (i * (numBytes P.t + 1) + numBytes P.t)),
            ⟨digest, (i + 1) * (numBytes P.t + 1)⟩) := by
        rw [drawVal_eq, Nat.succ_mul, ← Nat.add_assoc]
        exact valLoop_reject hs (Or.inl Nat.one_pos)
          (valLoop_accept (r := (_, _)) (hval i (by omega)))
      exact ⟨r, hashLoop_take (by omega) (by omega)
        (by rw [hword, hfree i (Nat.le_refl i)]; exact Nat.lt_irrefl 0) hdraw
        (by rw [hword]; exact hr)⟩

/-- The words `w₀`, 1, 2, … with the values `v₀`, 1, 1, …, as many as are drawn, and zeros
    behind them. -/
def shownStream (B w w₀ : Nat) (v₀ : UInt8) (i : Nat) : UInt8 :=
  if w * (B + 1) ≤ i then 0
  else if i = B then v₀
  else drawStream B (w₀ :: List.range' 1 (w - 1)) i

section

variable {w₀ : Nat} {v₀ : UInt8} {B w j : Nat}

theorem shownStream_zero (i : Nat) (hi : w * (B + 1) ≤ i) : shownStream B w w₀ v₀ i = 0 := if_pos hi

theorem shownStream_room (hj : j < w) : j * (B + 1) + (B + 1) ≤ w * (B + 1) := by
  rw [← Nat.succ_mul]
  exact Nat.mul_le_mul_right _ hj

theorem slice_shownStream (hj : j < w) :
    streamSlice (shownStream B w w₀ v₀) (j * (B + 1)) B
      = (List.range B).map fun k => UInt8.ofNat ((if j = 0 then w₀ else j) >>> (k * 8)) := by
  have hroom := shownStream_room (B := B) hj
  have hslice : streamSlice (shownStream B w w₀ v₀) (j * (B + 1)) B
      = streamSlice (drawStream B (w₀ :: List.range' 1 (w - 1))) (j * (B + 1)) B := by
    refine List.map_congr_left fun k hk => ?_
    have hk := List.mem_range.mp hk
    have hne : j * (B + 1) + k ≠ B := by
      rcases Nat.eq_zero_or_pos j with rfl | hpos
      · omega
      · have := Nat.le_mul_of_pos_left (B + 1) hpos
        omega
    rw [shownStream, if_neg (by omega), if_neg hne]
  have hword : (w₀ :: List.range' 1 (w - 1)).getD j 0 = if j = 0 then w₀ else j := by
    cases j with
    | zero => rfl
    | succ j =>
        rw [List.getD_cons_succ, List.getD_eq_getElem _ _ (by rw [List.length_range']; omega),
          List.getElem_range'_1, if_neg (Nat.succ_ne_zero j), Nat.add_comm]
  rw [hslice, streamSlice_drawStream, hword]

theorem shownStream_value (hj : j < w) :
    shownStream B w w₀ v₀ (j * (B + 1) + B) = if j = 0 then v₀ else 1 := by
  have hroom := shownStream_room (B := B) hj
  rw [shownStream, if_neg (by omega)]
  rcases Nat.eq_zero_or_pos j with rfl | hpos
  · rw [if_pos (by omega), if_pos rfl]
  · have := Nat.le_mul_of_pos_left (B + 1) hpos
    rw [if_neg (by omega), if_neg (by omega), drawStream_last]

end

/-- Sage draws the positions 0, 1, 2, … from the stream. -/
theorem parseHash_shown (hs : 2 ≤ P.s) (hs' : P.s ≤ 256) (hwt : P.w ≤ P.t) {w₀ : Nat} {v₀ : UInt8}
    (hw₀ : w₀ % 2 ^ Nat.clog 2 P.t = 0) (hv₀ : ¬ Rejected P (valOf P v₀)) (digest : List UInt8) :
    ∃ l, (parseHash P (fun _ => shownStream (numBytes P.t) P.w w₀ v₀) digest).Returns l := by
  have hpow : P.t ≤ 2 ^ Nat.clog 2 P.t := Nat.le_pow_clog (by decide) _
  have hbits : Nat.clog 2 P.t ≤ numBytes P.t * 8 := by
    unfold numBytes ceiling
    omega
  have hone : valOf P 1 = 1 := valOf_one hs
  refine parseHash_in_order (numBytes_s hs hs') hwt (fun j hj => ?_) (fun j hj => ?_) digest
  · rw [posOf, slice_shownStream hj, leValue_bytes, Nat.one_shiftLeft,
      Nat.and_two_pow_sub_one_eq_mod, Nat.mod_mod_of_dvd _ (Nat.pow_dvd_pow 2 hbits)]
    split
    · next h => rw [hw₀, h]
    · exact Nat.mod_eq_of_lt (by omega)
  · rw [shownStream_value hj]
    split
    · exact hv₀
    · rw [hone]
      omega

/-! ## What gen_param prints -/

/-- The challenge sizes as gen_param of params.py prints them, where `ceilLog x` is
    `ceil(math.log(x, 2))` in doubles. -/
structure Generated (ceilLog : Nat → Nat) (P : Params) : Prop where
  two_le_t : 2 ≤ P.t
  two_le_s : 2 ≤ P.s
  s_le : P.s ≤ 256
  one_le_w : 1 ≤ P.w
  w_le : P.w ≤ P.t
  tMask_eq : P.tMask = 2 ^ ceilLog P.t - 1
  tBytes_eq : P.tBytes = ceiling (ceilLog (P.t - 1)) 8
  sMask_eq : P.sMask = 2 ^ ceilLog P.s - 1

/-- What is printed draws the bytes and bits of the exact logarithms. -/
structure SameDraws (ceilLog : Nat → Nat) (t s : Nat) : Prop where
  bytes : ceiling (ceilLog (t - 1)) 8 = numBytes t
  posBits : min (ceilLog t) (numBytes t * 8) = Nat.clog 2 t
  valBits : min (ceilLog s) 8 = Nat.clog 2 s

/-- The byte count of t - 1 falls short exactly behind the powers of 256. -/
theorem numBytes_pred_iff {t : Nat} (ht : 2 ≤ t) :
    numBytes (t - 1) = numBytes t ↔ ∀ j, t ≠ 256 ^ j + 1 := by
  have hle : ∀ x b : Nat, numBytes x ≤ b ↔ x ≤ 256 ^ b := by
    intro x b
    have h256 : 256 ^ b = 2 ^ (8 * b) := by rw [pow_mul]; rfl
    rw [h256, ← Nat.clog_le_iff_le_pow (by decide)]
    unfold numBytes ceiling
    omega
  constructor
  · rintro heq j rfl
    have h1 : numBytes (256 ^ j + 1) ≤ j := by
      rw [← heq, hle, Nat.add_sub_cancel]
    rw [hle] at h1
    omega
  · intro hne
    apply le_antisymm
    · rw [hle]
      exact (Nat.sub_le t 1).trans ((hle t _).mp le_rfl)
    · rw [hle]
      have h1 := (hle (t - 1) _).mp le_rfl
      have h2 := hne (numBytes (t - 1))
      omega

/-- With exact logarithms only the byte count is left. -/
theorem sameDraws_of_exact {ceilLog : Nat → Nat} {t s : Nat} (ht : 2 ≤ t) (hs : s ≤ 256)
    (hlog : ∀ x, x = t - 1 ∨ x = t ∨ x = s → ceilLog x = Nat.clog 2 x) :
    SameDraws ceilLog t s ↔ ∀ k, t ≠ 256 ^ k + 1 := by
  have hs8 : Nat.clog 2 s ≤ 8 := Nat.clog_le_of_le_pow hs
  have hbits : Nat.clog 2 t ≤ numBytes t * 8 := by
    unfold numBytes ceiling
    omega
  rw [← numBytes_pred_iff ht]
  constructor
  · intro h
    have := h.bytes
    rwa [hlog _ (Or.inl rfl)] at this
  · intro h
    refine ⟨by rw [hlog _ (Or.inl rfl)]; exact h, ?_, ?_⟩
    · rw [hlog _ (Or.inr (Or.inl rfl)), Nat.min_eq_left hbits]
    · rw [hlog _ (Or.inr (Or.inr rfl)), Nat.min_eq_left hs8]

/-- Bits of a mask that the drawn bytes do not have are not used. -/
theorem and_mask {x a l : Nat} (hx : x < 2 ^ l) : x &&& (2 ^ a - 1) = x % 2 ^ min a l := by
  rw [Nat.and_two_pow_sub_one_eq_mod]
  rcases Nat.le_total a l with h | h
  · rw [Nat.min_eq_left h]
  · rw [Nat.min_eq_right h, Nat.mod_eq_of_lt hx,
      Nat.mod_eq_of_lt (hx.trans_le (Nat.pow_le_pow_right (by decide) h))]

/-! ## When the two agree -/

/-- `parse_hash` and `PaseHash` agree on every XOF and digest. -/
def ParsesAlike (P : Params) : Prop :=
  ∀ (SHAKE256 : Shake) (digest : List UInt8) (h₀ : Arr UInt8),
    Run.Matches (Run.Values fun r l => r.1 = 0 ∧ HoldsChallenge P r.2 l)
      (Ref.parseHash P SHAKE256 digest h₀ P.t : Run Fault _) (parseHash P SHAKE256 digest)

/-- Every position can be drawn. -/
def Drawable (P : Params) : Prop :=
  ∀ j, j < P.t → ∃ (SHAKE256 : Shake) (digest : List UInt8) (h : Arr UInt8),
    (Ref.parseHash P SHAKE256 digest Arr.empty P.t : Run Fault _).Returns (0, h) ∧ h.get j ≠ 0

theorem drawable_of_sizes (hP : ChallengeSizes P) (hw : 1 ≤ P.w) (hwt : P.w ≤ P.t) :
    Drawable P := by
  intro j hj
  obtain ⟨ps, hlen, hnd, hps, hmem⟩ := exists_positions hw hwt hj
  have hsage := @parseHash_drawStream P (fun _ => drawStream (numBytes P.t) ps) hP.two_le_s hP.s_le
    ps hlen hnd hps [] fun _ _ => rfl
  obtain ⟨⟨_, h⟩, hr, rfl, hh⟩ :=
    (parseHash_matches (ε := Fault) hP [] Arr.empty).exists_of_returns hsage
  refine ⟨_, [], h, hr, fun h0 => ?_⟩
  have hget := hh.get j hj
  rw [getD_drawn _ _ _ hj, if_pos (by rwa [List.take_of_length_le hlen.le]), h0]
    at hget
  exact absurd hget (by decide)

/-- The parsers do not agree where C spends more bytes than Sage on the stream. -/
theorem ParsesAlike.spends (halike : ParsesAlike P) (hs : 2 ≤ P.s) (hs' : P.s ≤ 256)
    (hwt : P.w ≤ P.t) {w₀ x : Nat} {v₀ : UInt8} (hw₀ : w₀ % 2 ^ Nat.clog 2 P.t = 0) (hv₀ : ¬ Rejected P (valOf P v₀))
    (hfirst : ∀ h r, (parseRound P (fun _ => shownStream (numBytes P.t) P.w w₀ v₀)
      (0, h, ⟨[], 0⟩) : Run Fault _).Returns r →
        SpentAfter P [] (P.w * (numBytes P.t + 1)) x r) :
    x + P.w * (P.tBytes + 1) ≤ P.w * (numBytes P.t + 1) := by
  obtain ⟨l, hl⟩ := parseHash_shown hs hs' hwt hw₀ hv₀ []
  obtain ⟨_, hr, -⟩ := (halike _ [] Arr.empty).exists_of_returns hl
  exact parseHash_spent shownStream_zero hfirst hr

variable {ceilLog : Nat → Nat}

theorem Generated.challengeSizes (hP : Generated ceilLog P) (h : SameDraws ceilLog P.t P.s) :
    ChallengeSizes P where
  two_le_s := hP.two_le_s
  s_le := hP.s_le
  tBytes_eq := hP.tBytes_eq.trans h.bytes
  tMask_and x hx := by
    have hbits := h.posBits
    rw [← h.bytes, ← hP.tBytes_eq] at hbits
    rw [hP.tMask_eq, and_mask hx, hbits, Nat.one_shiftLeft, Nat.and_two_pow_sub_one_eq_mod]
  sMask_and x hx := by
    rw [hP.sMask_eq, and_mask hx, h.valBits, Nat.one_shiftLeft, Nat.and_two_pow_sub_one_eq_mod]

/-- With too few bits or bytes the last position is out of reach of C, not of Sage. -/
theorem Generated.not_alike (hP : Generated ceilLog P)
    (hbits : min (ceilLog P.t) (P.tBytes * 8) < Nat.clog 2 P.t) :
    ¬ ParsesAlike P ∧ ¬ Drawable P := by
  have hlt : P.t - 1 < P.t := Nat.sub_lt (Nat.zero_lt_two.trans_le hP.two_le_t) Nat.one_pos
  have hpow := (Nat.lt_clog_iff_pow_lt (by decide)).mp hbits
  have hbeyond : ∀ x, x < 2 ^ (P.tBytes * 8) → x &&& P.tMask ≠ P.t - 1 := by
    intro x hx
    have := Nat.mod_lt x (Nat.two_pow_pos (min (ceilLog P.t) (P.tBytes * 8)))
    rw [hP.tMask_eq, and_mask hx]
    omega
  constructor
  · intro halike
    obtain ⟨ps, hlen, hnd, hps, hmem⟩ := exists_positions hP.one_le_w hP.w_le hlt
    obtain ⟨⟨_, h⟩, hr, -, hh⟩ := (halike _ [] Arr.empty).exists_of_returns
      (@parseHash_drawStream P (fun _ => drawStream (numBytes P.t) ps) hP.two_le_s hP.s_le ps hlen
        hnd hps [] fun _ _ => rfl)
    have hget := hh.get (P.t - 1) hlt
    rw [getD_drawn _ _ _ hlt, if_pos (by rwa [List.take_of_length_le hlen.le]),
      parseHash_beyond hlt hbeyond hr] at hget
    exact absurd hget (by decide)
  · intro hdraw
    obtain ⟨SHAKE256, digest, h, hr, hne⟩ := hdraw (P.t - 1) hlt
    exact hne (parseHash_beyond hlt hbeyond hr)

/-- No byte is a value for Sage and none for C: as the first value it would cost C one more. -/
theorem Generated.value_taken (hP : Generated ceilLog P) (halike : ParsesAlike P)
    (hbytes : P.tBytes = numBytes P.t) (hpos : 1 ≤ P.tBytes) {v₀ : UInt8}
    (hv₀ : ¬ Rejected P (valOf P v₀)) : ¬ Rejected P (v₀.toNat &&& P.sMask) := by
  intro hrej
  have hw := hP.one_le_w
  have hle : P.tBytes + 1 ≤ P.w * (P.tBytes + 1) := Nat.le_mul_of_pos_left _ hw
  have h : 1 + P.w * (P.tBytes + 1) ≤ P.w * (numBytes P.t + 1) := by
    refine halike.spends hP.two_le_s hP.s_le hP.w_le (Nat.zero_mod _) hv₀ fun h r hr => ?_
    rcases parseRound_cases hr with rfl | ⟨-, h', q, hq, hacc, rfl⟩ | ⟨hi, -⟩
    · exact ⟨P.tBytes, by simp, by simp; omega, by rw [← hbytes]; simp; omega⟩
    · have hlt := lt_of_accepted shownStream_zero hacc
      have hne : q ≠ P.tBytes := by
        rintro rfl
        have hvalue := @shownStream_value 0 v₀ (numBytes P.t) P.w 0 hw
        rw [Nat.zero_mul, Nat.zero_add, if_pos rfl] at hvalue
        rw [hbytes, hvalue] at hacc
        exact hacc hrej
      have hnext : 1 + (0 + 1) * (P.tBytes + 1) ≤ q + 1 := by
        rw [Nat.zero_add] at hq
        omega
      exact ⟨q + 1, rfl, hnext, hnext.trans hlt⟩
    · omega
  rw [← hbytes] at h
  omega

/-- Parsers that agree draw the same bytes and bits. -/
theorem Generated.sameDraws (hP : Generated ceilLog P) (halike : ParsesAlike P) :
    SameDraws ceilLog P.t P.s := by
  have hs := hP.two_le_s
  have hs' := hP.s_le
  have hw := hP.one_le_w
  have hc : 0 < Nat.clog 2 P.t := (Nat.lt_clog_iff_pow_lt (by decide)).mpr hP.two_le_t
  have hsc : 0 < Nat.clog 2 P.s := (Nat.lt_clog_iff_pow_lt (by decide)).mpr hs
  have hsc' : Nat.clog 2 P.s ≤ 8 := Nat.clog_le_of_le_pow hs'
  have hspow : P.s ≤ 2 ^ Nat.clog 2 P.s := Nat.le_pow_clog (by decide) _
  have hpow : P.t ≤ 2 ^ Nat.clog 2 P.t := Nat.le_pow_clog (by decide) _
  have hone : ¬ Rejected P (valOf P 1) := by
    rw [valOf_one hs]
    omega
  have hmin : Nat.clog 2 P.t ≤ min (ceilLog P.t) (P.tBytes * 8) :=
    Nat.le_of_not_lt fun h => (hP.not_alike h).1 halike
  -- a byte more for every position
  have hbytes : P.tBytes = numBytes P.t := by
    apply le_antisymm
    · have h : 0 + P.w * (P.tBytes + 1) ≤ P.w * (numBytes P.t + 1) :=
        halike.spends hs hs' hP.w_le (Nat.zero_mod _) hone fun h r hr =>
          parseRound_spent shownStream_zero ⟨0, rfl, by simp, by simp⟩ hr
      rw [Nat.zero_add] at h
      exact Nat.le_of_succ_le_succ (Nat.le_of_mul_le_mul_left h hw)
    · unfold numBytes ceiling
      omega
  have hpos : 1 ≤ P.tBytes := by omega
  have hle : P.tBytes + 1 ≤ P.w * (P.tBytes + 1) := Nat.le_mul_of_pos_left _ hw
  refine ⟨hP.tBytes_eq ▸ hbytes, ?posBits, ?valBits⟩
  case posBits =>
    rw [← hbytes]
    by_contra hne
    have hA : Nat.clog 2 P.t < min (ceilLog P.t) (P.tBytes * 8) := by omega
    -- the first word has a bit that C keeps and Sage does not
    have h : P.tBytes + P.w * (P.tBytes + 1) ≤ P.w * (numBytes P.t + 1) := by
      refine halike.spends hs hs' hP.w_le (Nat.mod_self (2 ^ Nat.clog 2 P.t)) hone fun h r hr => ?_
      rcases parseRound_cases hr with rfl | ⟨hlt, -⟩ | ⟨hi, -⟩
      · exact ⟨P.tBytes, by simp, by simp, by rw [← hbytes]; simp; omega⟩
      · have hslice := @slice_shownStream (2 ^ Nat.clog 2 P.t) 1 (numBytes P.t) P.w 0 hw
        rw [Nat.zero_mul, if_pos rfl] at hslice
        rw [hbytes, hslice, leValue_bytes, hP.tMask_eq, Nat.and_two_pow_sub_one_eq_mod,
          Nat.mod_eq_of_lt (Nat.pow_lt_pow_right (by decide) (by omega)),
          Nat.mod_eq_of_lt (Nat.pow_lt_pow_right (by decide) (by omega))] at hlt
        omega
      · omega
    rw [← hbytes] at h
    omega
  case valBits =>
    have hof : ∀ v, v < 256 → (UInt8.ofNat v).toNat = v := fun v hv =>
      (UInt8.toNat_ofNat').trans (Nat.mod_eq_of_lt hv)
    have hval : ∀ v, v < 256 → valOf P (UInt8.ofNat v) = v % 2 ^ Nat.clog 2 P.s := fun v hv => by
      rw [valOf, hof v hv, Nat.one_shiftLeft, Nat.and_two_pow_sub_one_eq_mod]
    have htaken : ∀ v, v < 256 → ¬ Rejected P (v % 2 ^ Nat.clog 2 P.s) →
        ¬ Rejected P (v % 2 ^ ceilLog P.s) := fun v hv h => by
      have hkept : ¬ Rejected P ((UInt8.ofNat v).toNat &&& P.sMask) :=
        hP.value_taken halike hbytes hpos (by rwa [hval v hv])
      rwa [hof v hv, hP.sMask_eq, Nat.and_two_pow_sub_one_eq_mod] at hkept
    by_contra hne
    rcases Nat.lt_or_ge (ceilLog P.s) (Nat.clog 2 P.s) with hlt | hge
    · -- C cannot draw the value 2^ceilLog s
      have hvalue := (Nat.lt_clog_iff_pow_lt (by decide)).mp hlt
      refine htaken (2 ^ ceilLog P.s) (by omega) ?_ (Or.inl ?_)
      · have := Nat.two_pow_pos (ceilLog P.s)
        rw [Nat.mod_eq_of_lt (Nat.pow_lt_pow_right (by decide) hlt)]
        omega
      · rw [Nat.mod_self]
        exact Nat.one_pos
    · -- C keeps a bit of 2^clog s + 1 that Sage does not
      have hlt : Nat.clog 2 P.s < ceilLog P.s := by omega
      have hlt8 : Nat.clog 2 P.s < 8 := by omega
      have h1 : 2 ^ Nat.clog 2 P.s * 2 ≤ 2 ^ ceilLog P.s := by
        rw [← pow_succ]
        exact Nat.pow_le_pow_right (by decide) hlt
      have h2 : 2 ^ Nat.clog 2 P.s * 2 ≤ 2 ^ 8 := by
        rw [← pow_succ]
        exact Nat.pow_le_pow_right (by decide) hlt8
      refine htaken (2 ^ Nat.clog 2 P.s + 1) (by omega) ?_ (Or.inr ?_)
      · rw [Nat.add_mod_left, Nat.mod_eq_of_lt (by omega)]
        omega
      · rw [Nat.mod_eq_of_lt (by omega)]
        omega

/-- The two parsers agree, and every position can be drawn, exactly where gen_param's
    logarithms draw the bytes and bits of the exact ones.  With logarithms that are
    rounded right these are the sizes that do not lie one behind a power of 256; there
    both halves fail. -/
theorem parseHash_alike_iff (hP : Generated ceilLog P) :
    (ParsesAlike P ∧ Drawable P ↔ SameDraws ceilLog P.t P.s) ∧
      ((∀ x, x = P.t - 1 ∨ x = P.t ∨ x = P.s → ceilLog x = Nat.clog 2 x) →
        (ParsesAlike P ∧ Drawable P ↔ ∀ k, P.t ≠ 256 ^ k + 1) ∧
          (¬ (∀ k, P.t ≠ 256 ^ k + 1) → ¬ ParsesAlike P ∧ ¬ Drawable P)) := by
  have hiff : ParsesAlike P ∧ Drawable P ↔ SameDraws ceilLog P.t P.s := by
    refine ⟨fun h => hP.sameDraws h.1, fun h => ?_⟩
    have hsizes := hP.challengeSizes h
    exact ⟨fun _ digest h₀ => parseHash_matches hsizes digest h₀,
      drawable_of_sizes hsizes hP.one_le_w hP.w_le⟩
  refine ⟨hiff, fun hlog =>
    ⟨hiff.trans (sameDraws_of_exact hP.two_le_t hP.s_le hlog), fun hk => ?_⟩⟩
  -- the positions have a byte too few
  apply hP.not_alike
  rw [← numBytes_pred_iff hP.two_le_t] at hk
  have hle : Nat.clog 2 (P.t - 1) ≤ Nat.clog 2 P.t := Nat.clog_mono_right 2 (Nat.sub_le _ _)
  have hbytes := hP.tBytes_eq
  rw [hlog _ (Or.inl rfl)] at hbytes
  unfold numBytes ceiling at hk
  unfold ceiling at hbytes
  omega

/-- Sizes with 257 rounds. -/
def rounds257 : Params := { tiny with t := 257, tMask := 511, tBytes := 1 }

theorem rounds257_generated : Generated (Nat.clog 2) rounds257 where
  two_le_t := by decide
  two_le_s := by decide
  s_le := by decide
  one_le_w := by decide
  w_le := by decide
  tMask_eq := by decide
  tBytes_eq := by decide
  sMask_eq := by decide

theorem parseHash_alike_iff_rounds257 :
    (ParsesAlike rounds257 ∧ Drawable rounds257 ↔ SameDraws (Nat.clog 2) 257 2) ∧
      (ParsesAlike rounds257 ∧ Drawable rounds257 ↔ ∀ k, 257 ≠ 256 ^ k + 1) ∧
        (¬ (∀ k, 257 ≠ 256 ^ k + 1) → ¬ ParsesAlike rounds257 ∧ ¬ Drawable rounds257) :=
  ⟨(parseHash_alike_iff rounds257_generated).1,
    (parseHash_alike_iff rounds257_generated).2 fun _ _ => rfl⟩

/-- Of the 257 positions C cannot draw the last one. -/
theorem not_parsesAlike_rounds257 :
    ¬ ∀ P : Params, Generated (Nat.clog 2) P → ParsesAlike P ∧ Drawable P := by
  intro h
  have hbytes := (rounds257_generated.sameDraws (h rounds257 rounds257_generated).1).bytes
  exact absurd hbytes (by decide)

/-- Nor do the parsers agree on 2^29 rounds, for which the double is above 29. -/
theorem not_parsesAlike_power29 {ceilLog : Nat → Nat} (hlog : ceilLog (2 ^ 29) = 30)
    (hP : Generated ceilLog P) (ht : P.t = 2 ^ 29) : ¬ ParsesAlike P := by
  intro h
  have hbits := (hP.sameDraws h).posBits
  rw [ht, hlog, numBytes, Nat.clog_pow 2 29 (by decide)] at hbits
  exact absurd hbits (by decide)

end Meds.Sage
