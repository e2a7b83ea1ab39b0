/-
  Meds.Ref.UtilSpec

  What the sampling functions, `parse_hash` and `pi` of ref/util.c return.

  The samplers only promise something once they return: reduced entries, an
  identity block, an invertible matrix, a challenge of weight w.  `pi` is
  total; in GF(p) it multiplies the table of rows by `sandwich A B`.
-/

import Meds.Core.Sandwich
import Meds.Ref.MatrixModSpec
import Meds.Ref.SeedWalk
import Meds.Ref.Util

namespace Meds.Ref

open Meds.Core

variable {P : Params} {SHAKE256 : Shake} {ε : Type}

/-! ## XOF -/

theorem xof_two (seed : List UInt8) (a b : Nat) :
    xof SHAKE256 seed [a, b]
      = [streamSlice (SHAKE256 seed) 0 a, streamSlice (SHAKE256 seed) a b] := by
  simp [xof, shake256Squeeze]

theorem xof_three (seed : List UInt8) (a b c : Nat) :
    xof SHAKE256 seed [a, b, c]
      = [streamSlice (SHAKE256 seed) 0 a, streamSlice (SHAKE256 seed) a b,
          streamSlice (SHAKE256 seed) (a + b) c] := by
  simp [xof, shake256Squeeze]

/-! ## Field elements and matrices -/

/-- `rnd_GF` returns residues. -/
theorem rndGF_lt {shake shake' : KeccakState} {v : Nat}
    (h : (rndGF P SHAKE256 shake : Run ε _).Returns (v, shake')) : v < P.p := by
  refine Run.loop_invariant (I := fun _ => True) (Q := fun r : Nat × KeccakState => r.1 < P.p)
    (fun _ _ _ _ => trivial) ?_ trivial h
  rintro ⟨val, s⟩ ⟨b, s'⟩ _ hb
  by_cases hval : val ≥ P.p
  · simp only [hval, if_true, Run.returns_pure] at hb
    cases hb
  · simp only [hval, if_false, Run.returns_pure, Sum.inr.injEq, Prod.mk.injEq] at hb
    obtain ⟨rfl, -⟩ := hb
    omega

theorem rndEntry_returns {Mc r c : Nat} {s s' : Arr UInt16 × KeccakState}
    (h : (rndEntry P SHAKE256 Mc r c s : Run ε _).Returns s') :
    ∃ v, v < P.p ∧ s'.1 = pmodMatSetEntry s.1 Mc r c v := by
  rw [rndEntry, Run.returns_bind] at h
  obtain ⟨⟨v, shake⟩, hv, hs⟩ := h
  rw [Run.returns_pure] at hs
  exact ⟨v, rndGF_lt hv, by rw [hs]⟩

/-- The nested loops that draw columns `lo, …, Mc - 1` of every row. -/
theorem rndFill_reduced {Mr lo Mc : Nat} (hlo : lo ≤ Mc) (hp : P.p ≤ 2 ^ 16)
    {s s' : Arr UInt16 × KeccakState}
    (h : (forUpM 0 Mr (fun r s => forUpM lo Mc (fun c s => rndEntry P SHAKE256 Mc r c s) s) s :
      Run ε _).Returns s') :
    ∀ r c, r < Mr → lo ≤ c → c < Mc → pmodMatEntry s'.1 Mc r c < P.p := by
  refine Run.forUpM_invariant (fun i (s : Arr UInt16 × KeccakState) =>
    ∀ r c, r < i → lo ≤ c → c < Mc → pmodMatEntry s.1 Mc r c < P.p) (Nat.zero_le Mr) ?_
    (fun r c hr => absurd hr (Nat.not_lt_zero _)) h
  intro i s s' _ hi hs hrow r c hr hc1 hc2
  -- within a row: the rows above and the entries drawn so far are reduced
  have hinv := Run.forUpM_invariant (fun x (s : Arr UInt16 × KeccakState) =>
    (∀ r c, r < i → lo ≤ c → c < Mc → pmodMatEntry s.1 Mc r c < P.p) ∧
      ∀ c, lo ≤ c → c < x → pmodMatEntry s.1 Mc i c < P.p) hlo (by
      rintro x s s' hx1 hx2 ⟨hold, hnew⟩ hstep
      obtain ⟨v, hv, heq⟩ := rndEntry_returns hstep
      rw [heq]
      have hset : ∀ r c, c < Mc → (pmodMatEntry s.1 Mc r c < P.p ∨ r = i ∧ c = x) →
          pmodMatEntry (pmodMatSetEntry s.1 Mc i x v) Mc r c < P.p := by
        intro r c hc hor
        unfold pmodMatEntry pmodMatSetEntry
        by_cases hcell : r = i ∧ c = x
        · obtain ⟨rfl, rfl⟩ := hcell
          rw [Arr.get_set_self, toNat_ofNat_of_lt hp hv]
          exact hv
        · rw [Arr.get_set_ne _ _ fun h => hcell (flat_inj hc hx2 h)]
          exact hor.resolve_right hcell
      refine ⟨fun r c hr hc1 hc2 => hset r c hc2 (Or.inl (hold r c hr hc1 hc2)), fun c hc1 hc2 => ?_⟩
      refine hset i c (by omega) ?_
      by_cases hcx : c = x
      · exact Or.inr ⟨rfl, hcx⟩
      · exact Or.inl (hnew c hc1 (by omega)))
    ⟨hs, fun c h1 h2 => absurd h1 (by omega)⟩ hrow
  by_cases hri : r = i
  · rw [hri]
    exact hinv.2 c hc1 hc2
  · exact hinv.1 r c (by omega) hc1 hc2

/-- Rows and columns of a row-major array. -/
theorem reduced_of_entry {M : Arr UInt16} {Mr Mc : Nat}
    (h : ∀ r c, r < Mr → c < Mc → pmodMatEntry M Mc r c < P.p) : Reduced P M (Mc * Mr) := by
  intro idx hidx
  have hpos : 0 < Mc := Nat.pos_of_ne_zero (by rintro rfl; simp at hidx)
  have hr : idx / Mc < Mr := (Nat.div_lt_iff_lt_mul hpos).mpr (by rwa [Nat.mul_comm])
  have := h _ _ hr (Nat.mod_lt idx hpos)
  rwa [pmodMatEntry, Nat.div_add_mod] at this

/-- `rnd_sys_mat` returns a reduced systematic matrix. -/
theorem rndSysMat_returns {Mr Mc : Nat} {seed : List UInt8} {M : Arr UInt16} (hle : Mr ≤ Mc)
    (hp : P.p ≤ 2 ^ 16) (h1 : 1 < P.p)
    (h : (rndSysMat P SHAKE256 Mr Mc seed : Run ε _).Returns M) :
    Reduced P M (Mc * Mr) ∧
      ∀ r c, r < Mr → c < Mr → pmodMatEntry M Mc r c = if r = c then 1 else 0 := by
  rw [rndSysMat, Run.returns_bind] at h
  obtain ⟨⟨N, shake⟩, hN, hM⟩ := h
  rw [Run.returns_pure] at hM
  have hred := rndFill_reduced hle hp hN
  obtain ⟨hin, hout⟩ := fill2_spec 0 Mr 0 Mr
    (ι := fun r c => Mc * r + c) (M := N) (g := fun r c => UInt16.ofNat (if r = c then 1 else 0))
    (fun r c r' c' _ _ _ hc _ _ _ hc' h => flat_inj (by omega) (by omega) h)
  have hid : ∀ r c, r < Mr → c < Mr → pmodMatEntry M Mc r c = if r = c then 1 else 0 := by
    intro r c hr hc
    subst hM
    refine (congrArg UInt16.toNat (hin r c (Nat.zero_le _) hr (Nat.zero_le _) hc)).trans ?_
    split <;> rfl
  refine ⟨reduced_of_entry fun r c hr hc => ?_, hid⟩
  by_cases hcr : c < Mr
  · rw [hid r c hr hcr]
    split <;> omega
  · have hkeep : pmodMatEntry M Mc r c = pmodMatEntry N Mc r c := by
      subst hM
      refine congrArg UInt16.toNat (hout _ fun r' c' _ _ _ hc' h => ?_)
      have := (flat_inj (by omega) hc h).2
      omega
    rw [hkeep]
    exact hred r c hr (by omega) hc

section

variable [hprime : Fact P.p.Prime]

/-- The forward elimination alone decides whether the leading block is invertible. -/
theorem forward_failed_iff {Mr Mc : Nat} {M : Arr UInt16} (hred : Reduced P M (Mc * Mr))
    (hle : Mr ≤ Mc) (hp : P.p ≤ 2 ^ 16) :
    (forward P Mr Mc M).2 = true ↔ (block Mr Mr (ent P Mc M)).det = 0 := by
  have hstatus : (pmodMatSystCt P M Mr Mc).1 = if (forward P Mr Mc M).2 = true then -1 else 0 := by
    unfold pmodMatSystCt
    obtain ⟨N, b⟩ := forward P Mr Mc M
    cases b <;> rfl
  rcases pmodMatSystCt_spec _ _ hred hle hp with ⟨hunit, hret, -⟩ | ⟨hdet, hret⟩
  · constructor
    · intro h
      rw [hstatus, if_pos h] at hret
      exact absurd hret (by decide)
    · intro h
      exact absurd (h ▸ hunit) not_isUnit_zero
  · refine ⟨fun _ => hdet, fun _ => ?_⟩
    by_contra h
    rw [hstatus, if_neg h] at hret
    exact absurd hret (by decide)

/-- `rnd_inv_matrix` returns a reduced invertible matrix. -/
theorem rndInvMatrix_returns {n : Nat} {seed : List UInt8} {M : Arr UInt16} (hp : P.p ≤ 2 ^ 16)
    (h : (rndInvMatrix P SHAKE256 n n seed : Run ε _).Returns M) :
    Reduced P M (n * n) ∧ IsUnit (block n n (ent P n M)).det := by
  refine Run.loop_invariant (I := fun _ => True)
    (Q := fun M => Reduced P M (n * n) ∧ IsUnit (block n n (ent P n M)).det)
    (fun _ _ _ _ => trivial) ?_ trivial h
  intro s M _ hM
  rw [Run.returns_bind] at hM
  obtain ⟨s', hs', hM⟩ := hM
  have hred := reduced_of_entry fun r c hr hc =>
    rndFill_reduced (Nat.zero_le n) hp hs' r c hr (Nat.zero_le c) hc
  have hiff := forward_failed_iff hred (Nat.le_refl n) hp
  obtain ⟨N, b, hfwd⟩ : ∃ N b, forward P n n s'.1 = (N, b) := ⟨_, _, rfl⟩
  simp only [hfwd] at hiff hM
  cases b with
  | true =>
      rw [if_pos rfl, Run.returns_pure] at hM
      cases hM
  | false =>
      rw [if_neg Bool.false_ne_true, Run.returns_pure, Sum.inr.injEq] at hM
      rw [hM]
      refine ⟨hred, isUnit_iff_ne_zero.mpr fun h0 => ?_⟩
      exact absurd (hiff.mpr h0) (by simp)

end

/-! ## The challenge -/

/-- The value loop of `parse_hash` returns a challenge value, which is a byte. -/
theorem parseVal_returns {shake shake' : KeccakState} {v : Nat}
    (h : (parseVal P SHAKE256 shake : Run ε _).Returns (v, shake')) :
    1 ≤ v ∧ v ≤ P.s - 1 ∧ v < 2 ^ 8 := by
  apply Run.loop_invariant (I := fun s : Nat × KeccakState => s.1 < 2 ^ 8)
    (Q := fun r : Nat × KeccakState => 1 ≤ r.1 ∧ r.1 ≤ P.s - 1 ∧ r.1 < 2 ^ 8) ?_ ?_ (Nat.two_pow_pos 8) h
  · rintro ⟨val, s⟩ ⟨b, s'⟩ _ hb
    by_cases hval : val < 1 ∨ val > P.s - 1
    · simp only [hval, if_true, Run.returns_pure, Sum.inl.injEq, Prod.mk.injEq] at hb
      -- the mask of a byte
      rw [hb.1]
      exact Nat.lt_of_le_of_lt Nat.and_le_left (UInt8.toNat_lt _)
    · simp only [hval, if_false, Run.returns_pure] at hb
      cases hb
  · rintro ⟨val, s⟩ ⟨b, s'⟩ hlt hb
    by_cases hval : val < 1 ∨ val > P.s - 1
    · simp only [hval, if_true, Run.returns_pure] at hb
      cases hb
    · simp only [hval, if_false, Run.returns_pure, Sum.inr.injEq, Prod.mk.injEq] at hb
      obtain ⟨rfl, -⟩ := hb
      exact ⟨by omega, by omega, hlt⟩

/-- A challenge under construction: `i` nonzero values, all below s. -/
structure PartialChallenge (P : Params) (i : Nat) (h : Arr UInt8) : Prop where
  weight : (excluded P h).length = i
  values : ∀ j, j < P.t → (h.get j).toNat < P.s

theorem length_excluded_set {h : Arr UInt8} {pos : Nat} {v : UInt8} (hpos : pos < P.t)
    (h0 : h.get pos = 0) (hv : 0 < v) :
    (excluded P (h.set pos v)).length = (excluded P h).length + 1 := by
  unfold excluded
  rw [← List.countP_eq_length_filter, ← List.countP_eq_length_filter]
  generalize hl : P.t = t at hpos
  clear hl
  induction t with
  | zero => omega
  | succ t ih =>
      rw [List.range_succ, List.countP_append, List.countP_append]
      by_cases hpt : pos = t
      · subst hpt
        have hsame : (List.range pos).countP (fun j => decide ((h.set pos v).get j > 0))
            = (List.range pos).countP (fun j => decide (h.get j > 0)) := by
          refine List.countP_congr fun j hj => ?_
          rw [Arr.get_set_ne _ _ (by have := List.mem_range.mp hj; omega)]
        rw [hsame]
        simp [h0, hv]
      · rw [ih (by omega)]
        simp only [List.countP_singleton, Arr.get_set_ne _ _ (show t ≠ pos by omega)]
        omega

/-- One round of `parse_hash` leaves a partial challenge. -/
theorem parseRound_returns {i : Nat} {h : Arr UInt8}
    {shake : KeccakState} (hi : i ≤ P.w) (hp : PartialChallenge P i h)
    {r : Nat × Arr UInt8 × KeccakState ⊕ Arr UInt8}
    (hr : (parseRound P SHAKE256 (i, h, shake) : Run ε _).Returns r) :
    match r with
    | .inl (i', h', _) => i' ≤ P.w ∧ PartialChallenge P i' h'
    | .inr h' => i = P.w ∧ h' = h := by
  unfold parseRound at hr
  by_cases hiw : i < P.w
  · simp only [hiw, if_true] at hr
    -- the position is out of range, is taken, or gets a value
    split at hr
    · rw [Run.returns_pure] at hr
      subst hr
      exact ⟨hi, hp⟩
    · rename_i hpos
      split at hr
      · rw [Run.returns_pure] at hr
        subst hr
        exact ⟨hi, hp⟩
      · rename_i hfree
        rw [Run.returns_bind] at hr
        obtain ⟨⟨v, shake'⟩, hv, hr⟩ := hr
        rw [Run.returns_pure] at hr
        subst hr
        -- the value is accepted, so it is not zero and fits into a byte
        have hrange := parseVal_returns hv
        have hnat : (UInt8.ofNat v).toNat = v := by
          rw [UInt8.toNat_ofNat', Nat.mod_eq_of_lt hrange.2.2]
        refine ⟨hiw, ?_, ?_⟩
        · rw [length_excluded_set (by omega) ?_ ?_, hp.weight]
          · rw [gt_iff_lt, UInt8.lt_iff_toNat_lt] at hfree
            exact UInt8.toNat_inj.mp (Nat.eq_zero_of_not_pos hfree)
          · rw [UInt8.lt_iff_toNat_lt, hnat]
            exact hrange.1
        · intro j hj
          rw [Arr.get_set]
          split
          · rw [hnat]
            omega
          · exact hp.values j hj
  · simp only [hiw, if_false, Run.returns_pure] at hr
    subst hr
    exact ⟨by omega, rfl⟩

/-- A challenge of `parse_hash` has exactly w nonzero entries, all below s. -/
theorem parseHash_returns (hs0 : 0 < P.s) {digest : List UInt8}
    {h h' : Arr UInt8} {ret : Int}
    (hr : (parseHash P SHAKE256 digest h P.t : Run ε _).Returns (ret, h')) :
    PartialChallenge P P.w h' := by
  unfold parseHash at hr
  rw [if_neg (Nat.lt_irrefl _), Run.returns_bind] at hr
  obtain ⟨h'', hloop, hr⟩ := hr
  rw [Run.returns_pure, Prod.mk.injEq] at hr
  obtain ⟨-, rfl⟩ := hr
  obtain ⟨hzero, -⟩ := fill_spec 0 P.t (ι := fun i => i) (M := h)
    (g := fun (_ : Arr UInt8) _ => (0 : UInt8)) (fun a b _ _ _ _ h => h) (fun _ _ _ _ _ => rfl)
  refine Run.loop_invariant
    (I := fun s : Nat × Arr UInt8 × KeccakState => s.1 ≤ P.w ∧ PartialChallenge P s.1 s.2.1)
    (Q := fun h => PartialChallenge P P.w h) ?_ ?_ ⟨Nat.zero_le _, ?_, ?_⟩ hloop
  · rintro ⟨i, h, shake⟩ ⟨i', h', shake'⟩ ⟨hi, hp⟩ hround
    exact parseRound_returns hi hp hround
  · rintro ⟨i, h, shake⟩ b ⟨hi, hp⟩ hround
    obtain ⟨h1, h2⟩ := parseRound_returns hi hp hround
    rw [h2, ← h1]
    exact hp
  · rw [List.length_eq_zero_iff]
    refine List.filter_eq_nil_iff.mpr fun j hj => ?_
    rw [hzero j (Nat.zero_le _) (List.mem_range.mp hj)]
    decide
  · intro j hj
    rw [hzero j (Nat.zero_le _) hj]
    exact hs0

/-! ## The action of (A, B) -/

/-- Entry `(a, b)` of `A * X * B` as the two products of `pi` leave it. -/
def sandwichEntry (P : Params) (A B X : Arr UInt16) (a b : Nat) : Nat :=
  (∑ y ∈ Finset.range P.m,
    ((∑ x ∈ Finset.range P.m, pmodMatEntry A P.m a x * pmodMatEntry X P.n x y) % P.p)
      * pmodMatEntry B P.n y b) % P.p

theorem sandwichEntry_congr {A B X Y : Arr UInt16} (hm : P.m = P.n)
    (h : ∀ x y, x < P.m → y < P.n → pmodMatEntry X P.n x y = pmodMatEntry Y P.n x y) (a b : Nat) :
    sandwichEntry P A B X a b = sandwichEntry P A B Y a b := by
  unfold sandwichEntry
  refine congrArg (· % P.p) (Finset.sum_congr rfl fun y hy => ?_)
  refine congrArg (· % P.p * _) (Finset.sum_congr rfl fun x hx => ?_)
  rw [h x y (Finset.mem_range.mp hx) (hm ▸ Finset.mem_range.mp hy)]

/-- The two products of one round of `pi`, where `X` is the source block and
    `S` holds what the first product left. -/
theorem mulTwice_spec (hm : P.m = P.n) (hpos : 0 < P.p) (hp : P.p ≤ 2 ^ 16) {A B X C S : Arr UInt16}
    (hS : ∀ i, S.get i = (pmodMatMul P C P.m P.n A P.m P.m X P.n).get i) :
    (∀ a b, a < P.m → b < P.n →
      pmodMatEntry (pmodMatMul P S P.m P.n S P.m P.n B P.n) P.n a b = sandwichEntry P A B X a b) ∧
      ∀ idx, P.n * P.m ≤ idx → (pmodMatMul P S P.m P.n S P.m P.n B P.n).get idx = C.get idx := by
  have h1 := pmodMatMul_spec P.m P.n P.m P.m P.n (P := P) (A := A) (B := X) (C := C) hpos hp
  have h2 := pmodMatMul_spec P.m P.n P.m P.n P.n (P := P) (A := S) (B := B) (C := S) hpos hp
  constructor
  · intro a b ha hb
    refine (h2.entry a b ha hb).trans ?_
    unfold sandwichEntry
    refine congrArg (· % P.p) (Finset.sum_congr rfl fun y hy => ?_)
    rw [← h1.entry a y ha (hm ▸ Finset.mem_range.mp hy), pmodMatEntry, hS]
    rfl
  · intro idx hidx
    rw [h2.rest idx hidx, hS, h1.rest idx hidx]

/-- What one round of `pi` does to its block, where `X` is the source block. -/
theorem piBlock_spec (hm : P.m = P.n) (hpos : 0 < P.p) (hp : P.p ≤ 2 ^ 16) {A B G X : Arr UInt16}
    {o : Nat} {f : Arr UInt16 → Arr UInt16}
    (hf : f (G.view o) = pmodMatMul P (G.view o) P.m P.n A P.m P.m X P.n) :
    let G' := (G.modifyFrom o f).modifyFrom o
      fun sub => pmodMatMul P sub P.m P.n sub P.m P.n B P.n
    (∀ a b, a < P.m → b < P.n → (G'.get (o + (P.n * a + b))).toNat = sandwichEntry P A B X a b) ∧
      ∀ idx, idx < o ∨ o + P.n * P.m ≤ idx → G'.get idx = G.get idx := by
  intro G'
  obtain ⟨S, hS⟩ : ∃ S, S = (G.modifyFrom o f).view o := ⟨_, rfl⟩
  obtain ⟨hin, hout⟩ := mulTwice_spec hm hpos hp (A := A) (B := B) (X := X) (C := G.view o) (S := S)
    (by
      intro i
      rw [hS, Arr.get_view, Arr.get_modifyFrom, if_neg (by omega), Nat.add_sub_cancel_left, hf])
  constructor
  · intro a b ha hb
    rw [Arr.get_modifyFrom, if_neg (by omega), Nat.add_sub_cancel_left, ← hS]
    exact hin a b ha hb
  · intro idx hidx
    rw [Arr.get_modifyFrom]
    rcases hidx with hlt | hge
    · rw [if_pos hlt, Arr.get_modifyFrom, if_pos hlt]
    · rw [if_neg (by omega), ← hS, hout _ (by omega), Arr.get_view,
        show o + (idx - o) = idx by omega]

/-- Block `i` of a generator array with blocks of `m * n` entries. -/
theorem blockOff_eq (hm : P.m = P.n) (i : Nat) : i * P.m * P.n = P.n * P.n * i := by
  rw [hm]
  ring

/-- The entries of `pi`. -/
theorem pi_get (hm : P.m = P.n) (hpos : 0 < P.p) (hp : P.p ≤ 2 ^ 16) (A B G : Arr UInt16) :
    ∀ i a b, i < P.k → a < P.n → b < P.n →
      ((pi P A B G).get (P.n * P.n * i + (P.n * a + b))).toNat
        = sandwichEntry P A B (G.view (P.n * P.n * i)) a b := by
  unfold pi
  refine forUp_invariant (fun i (Gout : Arr UInt16) => ∀ i' a b, i' < i → a < P.n → b < P.n →
    (Gout.get (P.n * P.n * i' + (P.n * a + b))).toNat
      = sandwichEntry P A B (G.view (P.n * P.n * i')) a b) (Nat.zero_le P.k) ?_
    (fun i a b hi => absurd hi (Nat.not_lt_zero _))
  intro i Gout _ hi hG i' a b hi' ha hb
  obtain ⟨hin, hout⟩ := piBlock_spec hm hpos hp (A := A) (B := B) (G := Gout)
    (X := G.view (i * P.m * P.n)) (o := i * P.m * P.n)
    (f := fun sub => pmodMatMul P sub P.m P.n A P.m P.m (G.view (i * P.m * P.n)) P.n) rfl
  by_cases hii : i' = i
  · subst hii
    simp only [blockOff_eq hm] at hin ⊢
    exact hin a b (hm ▸ ha) hb
  · rw [hout _ (Or.inl ?_)]
    · exact hG i' a b (by omega) ha hb
    · rw [blockOff_eq hm]
      exact flat_lt (show i' < i by omega) (flat_lt ha hb)

/-- In place, `pi` leaves the same blocks: block `i` is read before it is written. -/
theorem piInPlace_get (hm : P.m = P.n) (hpos : 0 < P.p) (hp : P.p ≤ 2 ^ 16) (A B G : Arr UInt16) :
    ∀ i a b, i < P.k → a < P.n → b < P.n →
      ((piInPlace P A B G).get (P.n * P.n * i + (P.n * a + b))).toNat
        = sandwichEntry P A B (G.view (P.n * P.n * i)) a b := by
  unfold piInPlace
  refine (forUp_invariant (fun i (G' : Arr UInt16) => (∀ i' a b, i' < i → a < P.n → b < P.n →
    (G'.get (P.n * P.n * i' + (P.n * a + b))).toNat
      = sandwichEntry P A B (G.view (P.n * P.n * i')) a b) ∧
    ∀ idx, P.n * P.n * i ≤ idx → G'.get idx = G.get idx) (Nat.zero_le P.k) ?_
    ⟨fun i a b hi => absurd hi (Nat.not_lt_zero _), fun _ _ => rfl⟩).1
  rintro i G' _ hi ⟨hG, hrest⟩
  obtain ⟨hin, hout⟩ := piBlock_spec hm hpos hp (A := A) (B := B) (G := G')
    (X := G'.view (i * P.m * P.n)) (o := i * P.m * P.n)
    (f := fun sub => pmodMatMul P sub P.m P.n A P.m P.m sub P.n) rfl
  constructor
  · intro i' a b hi' ha hb
    -- block i was still that of G when it was read
    by_cases hii : i' = i
    · subst hii
      simp only [blockOff_eq hm] at hin ⊢
      refine (hin a b (hm ▸ ha) hb).trans (sandwichEntry_congr hm (fun x y _ _ => ?_) a b)
      unfold pmodMatEntry
      rw [Arr.get_view, Arr.get_view, hrest _ (by omega)]
    · refine (congrArg UInt16.toNat (hout _ (Or.inl ?_))).trans (hG i' a b (by omega) ha hb)
      rw [blockOff_eq hm]
      exact flat_lt (show i' < i by omega) (flat_lt ha hb)
  · intro idx hidx
    rw [Nat.mul_succ] at hidx
    refine (hout idx (Or.inr ?_)).trans (hrest idx (by omega))
    rw [blockOff_eq hm, hm]
    exact hidx

/-- The result of `pi` in GF(p). -/
structure PiSpec (P : Params) (A B G G' : Arr UInt16) : Prop where
  block_eq : block P.n (P.n * P.n) (ent P (P.n * P.n) G')
    = block P.n (P.n * P.n) (ent P (P.n * P.n) G)
      * sandwich (block P.n P.n (ent P P.n A)) (block P.n P.n (ent P P.n B))
  reduced : Reduced P G' (P.n * P.n * P.n)

/-- The entries of the sandwiched blocks, as one matrix product. -/
theorem block_eq_sandwich (hm : P.m = P.n) {r : Nat} {A B G G' : Arr UInt16}
    (h : ∀ i a b, i < r → a < P.n → b < P.n →
      (G'.get (P.n * P.n * i + (P.n * a + b))).toNat
        = sandwichEntry P A B (G.view (P.n * P.n * i)) a b) :
    block r (P.n * P.n) (ent P (P.n * P.n) G') = block r (P.n * P.n) (ent P (P.n * P.n) G)
      * sandwich (block P.n P.n (ent P P.n A)) (block P.n P.n (ent P P.n B)) := by
  ext i j
  obtain ⟨a, b, rfl⟩ := exists_flat j
  rw [mul_sandwich_apply, block_apply, ent, pmodMatEntry, flat_val, Nat.add_comm b,
    h i a b i.isLt a.isLt b.isLt, sandwichEntry, ZMod.natCast_mod, Nat.cast_sum, hm,
    Finset.sum_range]
  refine Finset.sum_congr rfl fun y _ => ?_
  rw [Nat.cast_mul, ZMod.natCast_mod, Nat.cast_sum, Finset.sum_range]
  refine congrArg (· * _) (Finset.sum_congr rfl fun x _ => ?_)
  rw [Nat.cast_mul, block_apply, block_apply, ent, ent, pmodMatEntry, pmodMatEntry, pmodMatEntry,
    Arr.get_view, flat_val, Nat.add_comm (y : Nat)]

theorem reduced_of_sandwich (hpos : 0 < P.p) {r : Nat} {A B G G' : Arr UInt16}
    (h : ∀ i a b, i < r → a < P.n → b < P.n →
      (G'.get (P.n * P.n * i + (P.n * a + b))).toNat
        = sandwichEntry P A B (G.view (P.n * P.n * i)) a b) : Reduced P G' (P.n * P.n * r) := by
  refine reduced_of_entry fun i c hi hc => ?_
  have hn : 0 < P.n := Nat.pos_of_ne_zero (by rintro h0; simp [h0] at hc)
  have ha : c / P.n < P.n := (Nat.div_lt_iff_lt_mul hn).mpr hc
  have := h i (c / P.n) (c % P.n) hi ha (Nat.mod_lt _ hn)
  rw [Nat.div_add_mod] at this
  rw [pmodMatEntry, this]
  exact Nat.mod_lt _ hpos

theorem PiSpec.of_get (hm : P.m = P.n) (hk : P.k = P.n) (hpos : 0 < P.p) {A B G G' : Arr UInt16}
    (h : ∀ i a b, i < P.k → a < P.n → b < P.n →
      (G'.get (P.n * P.n * i + (P.n * a + b))).toNat
        = sandwichEntry P A B (G.view (P.n * P.n * i)) a b) : PiSpec P A B G G' := by
  rw [hk] at h
  exact ⟨block_eq_sandwich hm h, reduced_of_sandwich hpos h⟩

theorem pi_spec (hm : P.m = P.n) (hk : P.k = P.n) (hpos : 0 < P.p) (hp : P.p ≤ 2 ^ 16)
    (A B G : Arr UInt16) : PiSpec P A B G (pi P A B G) :=
  PiSpec.of_get hm hk hpos (pi_get hm hpos hp A B G)

theorem piInPlace_spec (hm : P.m = P.n) (hk : P.k = P.n) (hpos : 0 < P.p) (hp : P.p ≤ 2 ^ 16)
    (A B G : Arr UInt16) : PiSpec P A B G (piInPlace P A B G) :=
  PiSpec.of_get hm hk hpos (piInPlace_get hm hpos hp A B G)

end Meds.Ref
