/-
  Meds.Sage.Challenge

  `parse_hash` of util.c and `PaseHash` of util.py.

  Both draw a position, reject it when it is too large or taken, and then draw
  a nonzero value.  C takes the number of bytes and the masks from params.h,
  Sage from the logarithms of t and s; where these draw the same bytes and bits
  (`ChallengeSizes`), the two come to the same challenge.

  The sizes are an `int` in the source, so `MEDS_t` is below 2^31; the mask
  drops what the shift of a fourth byte puts above bit 30.
-/

import Meds.Sage.Sampling

namespace Meds.Sage

open Meds.Core Meds.Ref

variable {P : Params} {SHAKE256 : Shake} {ε : Type}

/-- The challenge sizes for which both programs draw the same bytes. -/
structure ChallengeSizes (P : Params) : Prop where
  two_le_s : 2 ≤ P.s
  s_le : P.s ≤ 256
  tBytes_eq : P.tBytes = numBytes P.t
  tMask_and : ∀ x, x < 2 ^ (P.tBytes * 8) → x &&& P.tMask = x &&& (1 <<< Nat.clog 2 P.t - 1)
  sMask_and : ∀ x, x < 2 ^ 8 → x &&& P.sMask = x &&& (1 <<< Nat.clog 2 P.s - 1)

theorem Shared.challengeSizes (hP : Shared P) : ChallengeSizes P where
  two_le_s := hP.two_le_s
  s_le := hP.s_le
  tBytes_eq := hP.tBytes_eq
  tMask_and x _ := by rw [hP.tMask_eq, Nat.one_shiftLeft]
  sMask_and x _ := by rw [hP.sMask_eq, Nat.one_shiftLeft]

/-- A challenge value takes one byte. -/
theorem numBytes_s (hs : 2 ≤ P.s) (hs' : P.s ≤ 256) : numBytes P.s = 1 := by
  have h1 : 0 < Nat.clog 2 P.s := (Nat.lt_clog_iff_pow_lt (by decide)).mpr hs
  have h2 : Nat.clog 2 P.s ≤ 8 := Nat.clog_le_of_le_pow hs'
  unfold numBytes ceiling
  omega

theorem ChallengeSizes.numBytes_s (hP : ChallengeSizes P) : numBytes P.s = 1 :=
  Sage.numBytes_s hP.two_le_s hP.s_le

/-! ## The same challenge -/

/-- The list holds the challenge. -/
structure HoldsChallenge (P : Params) (h : Arr UInt8) (l : List Nat) : Prop where
  length : l.length = P.t
  get : ∀ j, j < P.t → (h.get j).toNat = l.getD j 0

theorem HoldsChallenge.set {h : Arr UInt8} {l : List Nat} (hh : HoldsChallenge P h l) (pos : Nat)
    {v : Nat} (hv : v < 2 ^ 8) :
    HoldsChallenge P (h.set pos (UInt8.ofNat v)) (l.set pos v) := by
  have hlen := hh.length
  refine ⟨by rw [List.length_set, hlen], fun j hj => ?_⟩
  rw [Arr.get_set, List.getD_eq_getElem?_getD, List.getElem?_set]
  by_cases hjp : j = pos
  · rw [if_pos hjp, if_pos hjp.symm, if_pos (by omega), UInt8.toNat_ofNat', Nat.mod_eq_of_lt hv]
    rfl
  · rw [if_neg hjp, if_neg (Ne.symm hjp), ← List.getD_eq_getElem?_getD]
    exact hh.get j hj

theorem HoldsChallenge.pos_iff {h : Arr UInt8} {l : List Nat} (hh : HoldsChallenge P h l) {j : Nat}
    (hj : j < P.t) : h.get j > 0 ↔ l.getD j 0 > 0 := by
  rw [← hh.get j hj, gt_iff_lt, UInt8.lt_iff_toNat_lt]
  exact Iff.rfl

theorem parseVal_matches (hP : ChallengeSizes P) (shake : KeccakState) :
    Run.Matches (Run.Values fun a b => a = b ∧ a.1 < 2 ^ 8) (parseVal P SHAKE256 shake : Run ε _)
      (drawVal P SHAKE256 shake) := by
  have hbyte : ∀ s : KeccakState, readInt SHAKE256 (numBytes P.s) s
      = ((((shake256Squeeze SHAKE256 1 s).1).getD 0 0).toNat, (shake256Squeeze SHAKE256 1 s).2) := by
    intro s
    rw [hP.numBytes_s, readInt_eq]
    simp [shake256Squeeze, streamSlice, leValue, forUp, forLoop]
  have hmask : ∀ b : UInt8, b.toNat &&& (1 <<< Nat.clog 2 P.s - 1) = b.toNat &&& P.sMask :=
    fun b => (hP.sMask_and _ (UInt8.toNat_lt b)).symm
  unfold parseVal drawVal
  apply Run.Matches.loop (R := fun s t => s = t ∧ s.1 < 2 ^ 8) _ ⟨rfl, Nat.two_pow_pos 8⟩
  rintro ⟨val, s⟩ _ ⟨rfl, hlt⟩
  simp only [hbyte, hmask]
  by_cases hval : val < 1 ∨ val > P.s - 1
  · rw [if_pos hval, if_pos hval]
    exact Run.Matches.round_continue ⟨rfl, Nat.lt_of_le_of_lt Nat.and_le_left (UInt8.toNat_lt _)⟩
  · rw [if_neg hval, if_neg hval]
    exact Run.Matches.round_break ⟨_, _, rfl, rfl, rfl, hlt⟩

/-- `parse_hash` and `PaseHash`. -/
theorem parseHash_matches (hP : ChallengeSizes P) (digest : List UInt8) (h₀ : Arr UInt8) :
    Run.Matches (Run.Values fun r l => r.1 = 0 ∧ HoldsChallenge P r.2 l)
      (Ref.parseHash P SHAKE256 digest h₀ P.t : Run ε _) (parseHash P SHAKE256 digest) := by
  -- both draw the same number of bytes for a position, and the masks cut off alike
  have hpos : ∀ s : KeccakState, readInt SHAKE256 (numBytes P.t) s
      = (leValue (shake256Squeeze SHAKE256 P.tBytes s).1,
          (shake256Squeeze SHAKE256 P.tBytes s).2) := by
    intro s
    rw [← hP.tBytes_eq, readInt_eq]
  have hmask : ∀ s : KeccakState,
      leValue (shake256Squeeze SHAKE256 P.tBytes s).1 &&& (1 <<< Nat.clog 2 P.t - 1)
        = leValue (shake256Squeeze SHAKE256 P.tBytes s).1 &&& P.tMask := by
    intro s
    have hlt := leValue_lt (shake256Squeeze SHAKE256 P.tBytes s).1
    rw [length_shake256Squeeze] at hlt
    exact (hP.tMask_and _ hlt).symm
  obtain ⟨hzero, -⟩ := fill_spec 0 P.t (ι := fun i => i) (M := h₀)
    (g := fun (_ : Arr UInt8) _ => (0 : UInt8)) (fun a b _ _ _ _ h => h) (fun _ _ _ _ _ => rfl)
  have hstart : HoldsChallenge P (forUp 0 P.t (fun i h => h.set i 0) h₀)
      (List.replicate P.t 0) := by
    refine ⟨List.length_replicate, fun j hj => ?_⟩
    rw [hzero j (Nat.zero_le _) hj]
    simp
  unfold Ref.parseHash parseHash
  rw [if_neg (Nat.lt_irrefl _)]
  rw [← bind_pure (Run.loop _ (0, List.replicate P.t 0, shakeOf digest))]
  apply Run.Matches.bind_values (R := HoldsChallenge P)
  · apply Run.Matches.loop
      (R := fun s t => s.1 = t.1 ∧ HoldsChallenge P s.2.1 t.2.1 ∧ s.2.2 = t.2.2) _
      ⟨rfl, hstart, rfl⟩
    rintro ⟨i, h, shake⟩ ⟨_, l, _⟩ ⟨rfl, hl, rfl⟩
    simp only [parseRound, hpos, hmask] at hl ⊢
    generalize leValue (shake256Squeeze SHAKE256 P.tBytes shake).1 &&& P.tMask = pos
    generalize (shake256Squeeze SHAKE256 P.tBytes shake).2 = shake
    -- the rounds decide the same: enough, out of range, taken, or a value
    by_cases hi : i < P.w
    · rw [if_pos hi, if_pos hi]
      by_cases ht : pos ≥ P.t
      · rw [if_pos ht, if_pos ht]
        exact Run.Matches.round_continue ⟨rfl, hl, rfl⟩
      · have hiff := hl.pos_iff (show pos < P.t by omega)
        rw [if_neg ht, if_neg ht]
        by_cases hset : h.get pos > 0
        · rw [if_pos hset, if_pos (hiff.mp hset)]
          exact Run.Matches.round_continue ⟨rfl, hl, rfl⟩
        · rw [if_neg hset, if_neg (mt hiff.mpr hset)]
          apply (parseVal_matches hP shake).bind_values
          rintro v _ ⟨rfl, hv⟩
          exact Run.Matches.round_continue ⟨rfl, hl.set pos hv, rfl⟩
    · rw [if_neg hi, if_neg hi]
      exact Run.Matches.round_break ⟨_, _, rfl, rfl, hl⟩
  · intro h l hl
    exact Run.Matches.values ⟨rfl, hl⟩

/-! ## Streams that draw given positions -/

theorem leValue_bytes (v B : Nat) :
    leValue ((List.range B).map fun j => UInt8.ofNat (v >>> (j * 8))) = v % 2 ^ (B * 8) := by
  induction B with
  | zero => rw [Nat.zero_mul, pow_zero, Nat.mod_one]; rfl
  | succ B ih =>
      rw [List.range_succ, List.map_append, List.map_singleton, leValue_concat, ih, List.length_map,
        List.length_range, UInt8.toNat_ofNat', Nat.shiftLeft_eq, Nat.or_comm, Nat.mul_comm,
        ← Nat.two_pow_add_eq_or_of_lt (Nat.mod_lt _ (Nat.two_pow_pos _)), Nat.succ_mul, pow_add,
        Nat.mod_mul, Nat.shiftRight_eq_div_pow, Nat.add_comm]

/-- The bytes that draw the positions `ps` in turn, of `B` bytes each, with value 1. -/
def drawStream (B : Nat) (ps : List Nat) (i : Nat) : UInt8 :=
  if i % (B + 1) < B then UInt8.ofNat (ps.getD (i / (B + 1)) 0 >>> (i % (B + 1) * 8)) else 1

theorem streamSlice_drawStream (B : Nat) (ps : List Nat) (i : Nat) :
    streamSlice (drawStream B ps) (i * (B + 1)) B
      = (List.range B).map fun j => UInt8.ofNat (ps.getD i 0 >>> (j * 8)) := by
  apply List.map_congr_left
  intro j hj
  have hlt : j < B + 1 := Nat.lt_succ_of_lt (List.mem_range.mp hj)
  rw [drawStream, Nat.mul_comm, Nat.mul_add_mod, Nat.mod_eq_of_lt hlt,
    Nat.mul_add_div (Nat.succ_pos B), Nat.div_eq_of_lt hlt, Nat.add_zero,
    if_pos (List.mem_range.mp hj)]

theorem drawStream_last (B : Nat) (ps : List Nat) (i : Nat) :
    drawStream B ps (i * (B + 1) + B) = 1 := by
  rw [drawStream, Nat.mul_comm, Nat.mul_add_mod, Nat.mod_eq_of_lt (Nat.lt_succ_self B),
    if_neg (Nat.lt_irrefl B)]

/-- The list after the first `i` draws. -/
def drawn (t : Nat) (ps : List Nat) (i : Nat) : List Nat :=
  (List.range t).map fun j => if j ∈ ps.take i then 1 else 0

theorem getD_drawn (t : Nat) (ps : List Nat) (i : Nat) {j : Nat} (hj : j < t) :
    (drawn t ps i).getD j 0 = if j ∈ ps.take i then 1 else 0 := by
  simp [drawn, List.getD_eq_getElem?_getD, hj]

theorem drawn_zero (t : Nat) (ps : List Nat) : drawn t ps 0 = List.replicate t 0 := by
  simp [drawn, List.map_const']

theorem drawn_succ (t : Nat) {ps : List Nat} {i : Nat} (hi : i < ps.length) :
    drawn t ps (i + 1) = (drawn t ps i).set (ps.getD i 0) 1 := by
  rw [List.getD_eq_getElem _ _ hi]
  apply List.ext_getElem (by simp [drawn])
  intro j h1 h2
  rw [List.getElem_set]
  simp only [drawn, List.getElem_map, List.getElem_range, List.take_succ_eq_append_getElem hi,
    List.mem_append, List.mem_singleton]
  by_cases hji : ps[i] = j
  · simp [hji]
  · simp [hji, Ne.symm hji]

theorem getElem_notMem_take {ps : List Nat} (hnd : ps.Nodup) {i : Nat} (hi : i < ps.length) :
    ps[i] ∉ ps.take i := by
  intro hmem
  obtain ⟨k, hk, heq⟩ := List.getElem_of_mem hmem
  rw [List.length_take] at hk
  rw [List.getElem_take, hnd.getElem_inj_iff] at heq
  omega

/-- A value byte of 1 is taken at once. -/
theorem drawVal_one (hs : 2 ≤ P.s) (hs' : P.s ≤ 256) {shake : KeccakState}
    (h : SHAKE256 shake.absorbed shake.pos = 1) :
    (drawVal P SHAKE256 shake).Returns (1, { shake with pos := shake.pos + 1 }) := by
  have hc : 0 < Nat.clog 2 P.s := (Nat.lt_clog_iff_pow_lt (by decide)).mpr hs
  have hbytes := numBytes_s hs hs'
  have hmask : 1 &&& (1 <<< Nat.clog 2 P.s - 1) = 1 := by
    rw [Nat.one_shiftLeft, Nat.and_two_pow_sub_one_eq_mod, Nat.mod_eq_of_lt (Nat.one_lt_two_pow hc.ne')]
  have hread : readInt SHAKE256 (numBytes P.s) shake = (1, { shake with pos := shake.pos + 1 }) := by
    rw [hbytes, readInt_eq]
    simp [shake256Squeeze, streamSlice, leValue, forUp, forLoop, h]
  apply @Run.returns_loop_continue _ _ _ _ _ (1, { shake with pos := shake.pos + 1 })
  · simp [hread, hmask]
  · apply Run.returns_loop_break
    have hstop : ¬ (1 < 1 ∨ 1 > P.s - 1) := by omega
    simp only [if_neg hstop, Run.returns_pure]

/-- `PaseHash` on a stream that draws `MEDS_w` different positions. -/
theorem parseHash_drawStream (hs : 2 ≤ P.s) (hs' : P.s ≤ 256) {ps : List Nat}
    (hlen : ps.length = P.w) (hnd : ps.Nodup) (hps : ∀ p ∈ ps, p < P.t) {digest : List UInt8}
    (hstream : ∀ i, i < P.w * (numBytes P.t + 1) →
      SHAKE256 digest i = drawStream (numBytes P.t) ps i) :
    (parseHash P SHAKE256 digest).Returns (drawn P.t ps P.w) := by
  obtain ⟨B, hB⟩ : ∃ B, B = numBytes P.t := ⟨_, rfl⟩
  rw [← hB] at hstream
  have hbits : Nat.clog 2 P.t ≤ B * 8 := by
    rw [hB]
    unfold numBytes ceiling
    omega
  have hpow : P.t ≤ 2 ^ Nat.clog 2 P.t := Nat.le_pow_clog (by decide) _
  unfold parseHash
  rw [← drawn_zero P.t ps]
  -- by induction on the draws that are left
  suffices h : ∀ d i, i + d = P.w →
      (Run.loop _ (i, drawn P.t ps i, (⟨digest, i * (B + 1)⟩ : KeccakState))).Returns
        (drawn P.t ps P.w) by
    have := h P.w 0 (Nat.zero_add _)
    rw [Nat.zero_mul] at this
    exact this
  intro d
  induction d with
  | zero =>
      rintro i rfl
      apply Run.returns_loop_break
      simp
  | succ d ih =>
      intro i hi
      have hlt : i < ps.length := by omega
      have hp : ps.getD i 0 < P.t := by
        rw [List.getD_eq_getElem _ _ hlt]
        exact hps _ (List.getElem_mem hlt)
      refine Run.returns_loop_continue ?_ (ih (i + 1) (by omega))
      have hroom : i * (B + 1) + (B + 1) ≤ P.w * (B + 1) := by
        rw [← Nat.succ_mul]
        exact Nat.mul_le_mul_right _ (by omega)
      have hslice : streamSlice (SHAKE256 digest) (i * (B + 1)) B
          = streamSlice (drawStream B ps) (i * (B + 1)) B :=
        List.map_congr_left fun j hj => hstream _ (by have := List.mem_range.mp hj; omega)
      have hpos : readInt SHAKE256 (numBytes P.t) ⟨digest, i * (B + 1)⟩
          = (ps.getD i 0, ⟨digest, i * (B + 1) + B⟩) := by
        rw [← hB, readInt_eq, shake256Squeeze, hslice, streamSlice_drawStream, leValue_bytes,
          Nat.mod_eq_of_lt]
        exact hp.trans_le (hpow.trans (Nat.pow_le_pow_right (by decide) hbits))
      have hmask : ps.getD i 0 &&& (1 <<< Nat.clog 2 P.t - 1) = ps.getD i 0 := by
        rw [Nat.one_shiftLeft, Nat.and_two_pow_sub_one_eq_mod, Nat.mod_eq_of_lt (hp.trans_le hpow)]
      have hfree : ¬ (drawn P.t ps i).getD (ps.getD i 0) 0 > 0 := by
        rw [getD_drawn _ _ _ hp, if_neg]
        · exact Nat.lt_irrefl 0
        · rw [List.getD_eq_getElem _ _ hlt]
          exact getElem_notMem_take hnd hlt
      have hval := @drawVal_one P SHAKE256 hs hs' ⟨digest, i * (B + 1) + B⟩
        ((hstream _ (show i * (B + 1) + B < P.w * (B + 1) by omega)).trans (drawStream_last B ps i))
      simp only [hpos, hmask]
      rw [if_pos (by omega), if_neg (by omega), if_neg hfree, Run.returns_bind]
      refine ⟨_, hval, ?_⟩
      rw [Run.returns_pure, ← drawn_succ P.t hlt, Nat.add_mul, Nat.one_mul, Nat.add_assoc]

/-- Different positions, as many as are drawn, with a given one among them. -/
theorem exists_positions {t w j : Nat} (hw : 1 ≤ w) (hwt : w ≤ t) (hj : j < t) :
    ∃ ps : List Nat, ps.length = w ∧ ps.Nodup ∧ (∀ p ∈ ps, p < t) ∧ j ∈ ps := by
  have hmem : j ∈ List.range t := List.mem_range.mpr hj
  refine ⟨j :: ((List.range t).erase j).take (w - 1), ?_, ?_, ?_, List.mem_cons_self⟩
  · rw [List.length_cons, List.length_take, List.length_erase_of_mem hmem, List.length_range]
    omega
  · refine List.nodup_cons.mpr ⟨fun h => ?_, (List.nodup_range.erase j).sublist (List.take_sublist _ _)⟩
    exact List.Nodup.not_mem_erase List.nodup_range (List.mem_of_mem_take h)
  · intro p hp
    obtain rfl | hp := List.mem_cons.mp hp
    · exact hj
    · exact List.mem_range.mp (List.mem_of_mem_erase (List.mem_of_mem_take hp))

end Meds.Sage
