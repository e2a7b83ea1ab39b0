/-
  Meds.Ref.PiAction

  `pi` of ref/util.c is a group action on generators that commutes with row
  operations.

  In GF(p) the result of `pi` is the generator times `sandwich A B`, so its
  laws are those of matrix products; reduced cells make them equalities of
  arrays.  `piChecked` runs the source on the heap, with one array for `Gout`
  and `G` or with two: every block is read before it is written, and no later
  block is read from what an earlier round wrote.
-/

import Meds.Ref.MatrixMulShapes
import Meds.Ref.UtilSpec

namespace Meds.Ref

open Meds.Core

variable {P : Params}

/-! ## Laws -/

/-- Reduced arrays with the same matrix in GF(p) agree in every cell. -/
theorem get_eq_of_block_eq {r c : Nat} {G H : Arr UInt16} (hG : Reduced P G (c * r))
    (hH : Reduced P H (c * r)) (h : block r c (ent P c G) = block r c (ent P c H)) :
    ∀ idx, idx < c * r → G.get idx = H.get idx := by
  intro idx hidx
  obtain ⟨i, j, hi, hj, rfl⟩ := exists_flat_nat hidx
  exact eq_of_cast_eq (hG _ hidx) (hH _ hidx) (congrFun (congrFun h ⟨i, hi⟩) ⟨j, hj⟩)

section

variable (hm : P.m = P.n) (hpos : 0 < P.p) (hp : P.p ≤ 2 ^ 16)
include hm hpos hp

theorem pi_block_eq (A B G : Arr UInt16) :
    block P.k (P.n * P.n) (ent P (P.n * P.n) (pi P A B G)) =
      block P.k (P.n * P.n) (ent P (P.n * P.n) G)
        * sandwich (block P.n P.n (ent P P.n A)) (block P.n P.n (ent P P.n B)) :=
  block_eq_sandwich hm (pi_get hm hpos hp A B G)

theorem pi_reduced (A B G : Arr UInt16) : Reduced P (pi P A B G) (P.n * P.n * P.k) :=
  reduced_of_sandwich hpos (pi_get hm hpos hp A B G)

/-- Acting twice is acting with the products. -/
theorem pi_pi (A₁ A₂ B₁ B₂ G C₁ C₂ : Arr UInt16) :
    ∀ idx, idx < P.n * P.n * P.k → (pi P A₁ B₁ (pi P A₂ B₂ G)).get idx =
      (pi P (pmodMatMul P C₁ P.m P.m A₁ P.m P.m A₂ P.m) (pmodMatMul P C₂ P.n P.n B₂ P.n P.n B₁ P.n)
        G).get idx := by
  apply get_eq_of_block_eq (pi_reduced hm hpos hp _ _ _) (pi_reduced hm hpos hp _ _ _)
  have hA := (pmodMatMul_spec P.m P.m P.m P.m P.m (A := A₁) (B := A₂) (C := C₁) hpos hp).block_eq
  have hB := (pmodMatMul_spec P.n P.n P.n P.n P.n (A := B₂) (B := B₁) (C := C₂) hpos hp).block_eq
  rw [hm] at hA
  rw [pi_block_eq hm hpos hp, pi_block_eq hm hpos hp, pi_block_eq hm hpos hp, hm, hA, hB,
    Matrix.mul_assoc, sandwich_mul]

/-- Row operations pass through the action. -/
theorem pi_pmodMatMul (A B T G C₁ C₂ : Arr UInt16) :
    ∀ idx, idx < P.n * P.n * P.k →
      (pi P A B (pmodMatMul P C₁ P.k (P.m * P.n) T P.k P.k G (P.m * P.n))).get idx =
        (pmodMatMul P C₂ P.k (P.m * P.n) T P.k P.k (pi P A B G) (P.m * P.n)).get idx := by
  have h₁ := pmodMatMul_spec P.k (P.m * P.n) P.k P.k (P.m * P.n) (A := T) (B := G) (C := C₁) hpos hp
  have h₂ := pmodMatMul_spec P.k (P.m * P.n) P.k P.k (P.m * P.n) (A := T) (B := pi P A B G) (C := C₂)
    hpos hp
  rw [hm] at h₁ h₂ ⊢
  apply get_eq_of_block_eq (pi_reduced hm hpos hp _ _ _) (h₂.reduced hpos)
  rw [pi_block_eq hm hpos hp, h₁.block_eq, h₂.block_eq, pi_block_eq hm hpos hp, Matrix.mul_assoc]

/-- The model of the in-place call leaves the same cells. -/
theorem piInPlace_pi (A B G : Arr UInt16) :
    ∀ idx, idx < P.n * P.n * P.k → (piInPlace P A B G).get idx = (pi P A B G).get idx := by
  intro idx hidx
  obtain ⟨i, j, hi, hj, rfl⟩ := exists_flat_nat hidx
  obtain ⟨a, b, ha, hb, rfl⟩ := exists_flat_nat hj
  apply UInt16.toNat_inj.mp
  rw [pi_get hm hpos hp A B G i a b hi ha hb, piInPlace_get hm hpos hp A B G i a b hi ha hb]

end

/-! ## The source on the heap -/

instance : Inhabited Ptr := ⟨⟨.tmp, 0⟩⟩

def Ptr.add (q : Ptr) (i : Nat) : Ptr := ⟨q.obj, q.off + i⟩

section

variable (P : Params)

/-- `G_mat_init`. -/
def gMatInit (G : Ptr) : Except MulFault (Arr Ptr) :=
  forUpM 0 P.k
    (fun i Gsub => do
      let row ← cInt (i * P.m)
      let off ← cInt (row * P.n)
      pure (Gsub.set i (G.add off)))
    Arr.empty

/-- `pi` with pointers. -/
def piChecked (H : Heap) (Gout A B G : Ptr) : Except MulFault Heap := do
  let G0sub ← gMatInit P G
  let Gsub ← gMatInit P Gout
  forUpM 0 P.k
    (fun i H => do
      let H ← pmodMatMulChecked P H (Gsub.get i) P.m P.n A P.m P.m (G0sub.get i) P.m P.n
      pmodMatMulChecked P H (Gsub.get i) P.m P.n (Gsub.get i) P.m P.n B P.n P.n)
    H

/-- Where the operands of `pi` lie: in arrays of the caller whose sizes are
    `int`s, with `Gout` and `G` the same array or in two. -/
structure PiArrays (H : Heap) (Gout A B G : Ptr) : Prop where
  outCaller : Gout.obj ≠ .tmp
  leftCaller : A.obj ≠ .tmp
  rightCaller : B.obj ≠ .tmp
  genCaller : G.obj ≠ .tmp
  out : H.Fits Gout (P.n * P.n * P.k)
  left : H.Fits A (P.n * P.n)
  right : H.Fits B (P.n * P.n)
  gen : H.Fits G (P.n * P.n * P.k)
  leftApart : A.obj ≠ Gout.obj
  rightApart : B.obj ≠ Gout.obj
  oneOrTwo : G = Gout ∨ G.obj ≠ Gout.obj
  square_le : P.n * P.n ≤ intMax
  gen_le : P.n * P.n * P.k ≤ intMax

end

theorem gMatInit_guarded (G : Ptr) :
    Guarded (gMatInit P G)
      (∀ i, 0 ≤ i → i < P.k → i * P.m ≤ intMax ∧ i * P.m * P.n ≤ intMax)
      (fun Gsub : Arr Ptr => ∀ i, i < P.k → Gsub.get i = G.add (i * P.m * P.n)) := by
  refine Guarded.forUpM (fun j (Gsub : Arr Ptr) => ∀ i, i < j → Gsub.get i = G.add (i * P.m * P.n))
    (Nat.zero_le P.k) ?_ fun i hi => absurd hi (Nat.not_lt_zero i)
  intro j Gsub _ _ hG
  refine (cInt_guarded (j * P.m)).bind ?_
  rintro row rfl
  refine ((cInt_guarded (j * P.m * P.n)).bind (d := True) ?_).iff (by rw [and_true])
  rintro off rfl
  refine Guarded.pure fun i hi => ?_
  by_cases heq : i = j
  · rw [heq, Arr.get_set_self]
  · rw [Arr.get_set_ne _ _ heq]
    exact hG i (by omega)

theorem Heap.view_add (H : Heap) (q : Ptr) (o : Nat) : H.view (q.add o) = (H.view q).view o := by
  rw [Heap.view, Heap.view, Ptr.add, Arr.view, Arr.view, Arr.view, List.drop_drop]

theorem Heap.inRange_of_fits {H : Heap} {q : Ptr} {len i : Nat} (h : H.Fits q len)
    (hlen : len ≤ intMax) (hi : i < len) : H.InRange q i := ⟨by omega, by omega⟩

/-- A product of square matrices runs through. -/
theorem pmodMatMulChecked_square {H : Heap} {C A B : Ptr} {n : Nat} (hC : C.obj ≠ .tmp)
    (hA : A.obj ≠ .tmp) (hB : B.obj ≠ .tmp) (hn : n * n ≤ intMax) (hCf : H.Fits C (n * n))
    (hAf : H.Fits A (n * n)) (hBf : H.Fits B (n * n)) :
    ∃ H', pmodMatMulChecked P H C n n A n n B n n = .ok H' ∧ H.Outside C H' ∧
      H'.view C = pmodMatMul P (H.view C) n n (H.view A) n n (H.view B) n := by
  have hle : n ≤ intMax := (Nat.le_mul_self n).trans hn
  have hsize : (H.allocTmp (n * n)).size .tmp = n * n := by simp [Heap.allocTmp]
  have htmp : (H.allocTmp (n * n)).Fits ⟨.tmp, 0⟩ (n * n) := by rw [Heap.Fits, hsize, Nat.zero_add]
  have hAt : (H.allocTmp (n * n)).Fits A (n * n) := by rwa [Heap.Fits, H.size_allocTmp _ hA]
  have hBt : (H.allocTmp (n * n)).Fits B (n * n) := by rwa [Heap.Fits, H.size_allocTmp _ hB]
  refine (pmodMatMulChecked_guarded P H hC hA hB n n n n n hle).ok ⟨hn, ?_, ?_⟩
  · intro c _ hc r _ hr
    refine ⟨fun i _ hi => ⟨?_, ?_⟩, ?_⟩
    · exact Heap.inRange_of_fits hAt hn (flat_lt hr hi)
    · exact Heap.inRange_of_fits hBt hn (flat_lt hi hc)
    · exact Heap.inRange_of_fits htmp hn (flat_lt hr hc)
  · intro c _ hc r _ hr
    exact ⟨Heap.inRange_of_fits htmp hn (flat_lt hr hc), Heap.inRange_of_fits hCf hn (flat_lt hr hc)⟩

/-- After `i` rounds: the first `i` blocks are done, the others as before. -/
structure PiRounds (P : Params) (H : Heap) (Gout A B G : Ptr) (i : Nat) (H' : Heap) : Prop where
  outside : H.Outside Gout H'
  done : ∀ i' a b, i' < i → a < P.n → b < P.n →
    ((H'.view Gout).get (P.n * P.n * i' + (P.n * a + b))).toNat =
      sandwichEntry P (H.view A) (H.view B) ((H.view G).view (P.n * P.n * i')) a b
  todo : ∀ idx, P.n * P.n * i ≤ idx → (H'.view Gout).get idx = (H.view Gout).get idx

theorem Heap.Outside.fits {H H' : Heap} {q a : Ptr} {len : Nat} (h : H.Outside q H')
    (ha : a.obj ≠ .tmp) (hf : H.Fits a len) : H'.Fits a len := by
  obtain ⟨obj, off⟩ := a
  cases obj with
  | tmp => exact absurd rfl ha
  | array id => rwa [Heap.Fits, h.size id]

theorem Heap.Outside.view {H H' : Heap} {q a : Ptr} (h : H.Outside q H') (ha : a.obj ≠ .tmp)
    (hne : a.obj ≠ q.obj) : H'.view a = H.view a := by
  obtain ⟨obj, off⟩ := a
  cases obj with
  | tmp => exact absurd rfl ha
  | array id => rw [Heap.view, Heap.view, h.other id hne]

/-- What a write from `q + o` on leaves of the cells seen from `q`. -/
theorem Heap.Outside.view_below {H H' : Heap} {q : Ptr} {o : Nat} (h : H.Outside (q.add o) H')
    {i : Nat} (hi : i < o) : (H'.view q).get i = (H.view q).get i := by
  rw [Heap.view, Heap.view, Arr.get_view, Arr.get_view]
  exact h.below (q.off + i) (by simp only [Ptr.add]; omega)

theorem Heap.Outside.trans_add {H H₁ H₂ : Heap} {q : Ptr} {o : Nat} (h : H.Outside q H₁)
    (h' : H₁.Outside (q.add o) H₂) : H.Outside q H₂ := by
  refine ⟨fun id => (h'.size id).trans (h.size id), fun id hid => ?_, fun i hi => ?_⟩
  · exact (h'.other id hid).trans (h.other id hid)
  · exact (h'.below i (by simp only [Ptr.add]; omega)).trans (h.below i hi)

/-- Block `i` of `G` is still what it was, also where `G` is the target. -/
theorem PiRounds.source {H H' : Heap} {Gout A B G : Ptr} {i : Nat} (hA : PiArrays P H Gout A B G)
    (h : PiRounds P H Gout A B G i H') (j : Nat) :
    (H'.view (G.add (P.n * P.n * i))).get j = ((H.view G).view (P.n * P.n * i)).get j := by
  rw [Heap.view_add, Arr.get_view, Arr.get_view]
  obtain heq | hne := hA.oneOrTwo
  · rw [heq]
    exact h.todo _ (by omega)
  · rw [h.outside.view hA.genCaller hne]

theorem PiRounds.step (hm : P.m = P.n) (hpos : 0 < P.p) (hp : P.p ≤ 2 ^ 16) {H H' : Heap}
    {Gout A B G : Ptr} {i : Nat} (hA : PiArrays P H Gout A B G) (hi : i < P.k)
    (h : PiRounds P H Gout A B G i H') :
    ∃ H₁ H₂, pmodMatMulChecked P H' (Gout.add (P.n * P.n * i)) P.n P.n A P.n P.n
        (G.add (P.n * P.n * i)) P.n P.n = .ok H₁ ∧
      pmodMatMulChecked P H₁ (Gout.add (P.n * P.n * i)) P.n P.n (Gout.add (P.n * P.n * i)) P.n P.n
        B P.n P.n = .ok H₂ ∧
      PiRounds P H Gout A B G (i + 1) H₂ := by
  obtain ⟨o, ho⟩ : ∃ o, o = P.n * P.n * i := ⟨_, rfl⟩
  have hlast : o + P.n * P.n ≤ P.n * P.n * P.k := by
    rw [ho, ← Nat.mul_succ]
    exact Nat.mul_le_mul_left _ hi
  have hout : ∀ {q : Ptr}, H.Fits q (P.n * P.n * P.k) → H.Fits (q.add o) (P.n * P.n) := by
    intro q hq
    simp only [Heap.Fits, Ptr.add] at hq ⊢
    omega
  rw [← ho]
  -- first A times the slice of G, into the slice of the result
  obtain ⟨H₁, hrun₁, hout₁, hview₁⟩ := pmodMatMulChecked_square (P := P) (H := H')
    (C := Gout.add o) (A := A) (B := G.add o) hA.outCaller hA.leftCaller hA.genCaller hA.square_le
    (h.outside.fits hA.outCaller (hout hA.out)) (h.outside.fits hA.leftCaller hA.left)
    (h.outside.fits hA.genCaller (hout hA.gen))
  have houts := h.outside.trans_add hout₁
  -- then, in place, times B
  obtain ⟨H₂, hrun₂, hout₂, hview₂⟩ := pmodMatMulChecked_square (P := P) (H := H₁)
    (C := Gout.add o) (A := Gout.add o) (B := B) hA.outCaller hA.outCaller hA.rightCaller
    hA.square_le (houts.fits hA.outCaller (hout hA.out)) (houts.fits hA.outCaller (hout hA.out))
    (houts.fits hA.rightCaller hA.right)
  refine ⟨H₁, H₂, hrun₁, hrun₂, houts.trans_add hout₂, ?_, ?_⟩
  all_goals
    rw [houts.view hA.rightCaller hA.rightApart] at hview₂
    rw [h.outside.view hA.leftCaller hA.leftApart] at hview₁
    obtain ⟨hin, hrest⟩ := mulTwice_spec hm hpos hp (A := H.view A) (B := H.view B)
      (X := H'.view (G.add o)) (C := H'.view (Gout.add o)) (S := H₁.view (Gout.add o))
      (by rw [hm]; exact fun j => congrArg (Arr.get · j) hview₁)
    rw [hm, ← hview₂] at hin hrest
    rw [Heap.view_add] at hin hrest
  · intro i' a b hi' ha hb
    -- slice i was just written; the slices before it lie below
    by_cases heq : i' = i
    · rw [heq, ← ho, ← Arr.get_view]
      refine (hin a b ha hb).trans (sandwichEntry_congr hm (fun x y _ _ => ?_) a b)
      rw [pmodMatEntry, pmodMatEntry, ho]
      exact congrArg UInt16.toNat (h.source hA _)
    · have hlt : P.n * P.n * i' + (P.n * a + b) < o := by
        rw [ho]
        exact flat_lt (show i' < i by omega) (flat_lt ha hb)
      rw [hout₂.view_below hlt, hout₁.view_below hlt]
      exact h.done i' a b (by omega) ha hb
  · intro idx hidx
    rw [Nat.mul_succ, ← ho] at hidx
    have hget := hrest (idx - o) (by omega)
    rw [Heap.view_add, Arr.get_view, Arr.get_view, Nat.add_sub_cancel' (by omega)] at hget
    rw [hget]
    exact h.todo idx (by rw [← ho]; omega)

/-- The offsets of the blocks are `int`s. -/
theorem PiArrays.offsets {H : Heap} {Gout A B G : Ptr} (hm : P.m = P.n)
    (h : PiArrays P H Gout A B G) :
    ∀ i, 0 ≤ i → i < P.k → i * P.m ≤ intMax ∧ i * P.m * P.n ≤ intMax := by
  intro i _ hi
  have hoff : i * P.m * P.n ≤ intMax := by
    rw [blockOff_eq hm]
    exact (Nat.mul_le_mul_left _ hi.le).trans h.gen_le
  refine ⟨?_, hoff⟩
  obtain h0 | hn := Nat.eq_zero_or_pos P.n
  · rw [hm, h0]
    exact Nat.zero_le _
  · exact (Nat.le_mul_of_pos_right _ hn).trans hoff

/-- The source on the heap computes `pi`, with one array or with two. -/
theorem piChecked_returns (hm : P.m = P.n) (hpos : 0 < P.p) (hp : P.p ≤ 2 ^ 16) {H : Heap}
    {Gout A B G : Ptr} (hA : PiArrays P H Gout A B G) :
    ∃ H', piChecked P H Gout A B G = .ok H' ∧ H.Outside Gout H' ∧
      ∀ idx, idx < P.n * P.n * P.k →
        (H'.view Gout).get idx = (pi P (H.view A) (H.view B) (H.view G)).get idx := by
  have hrun : Guarded (piChecked P H Gout A B G)
      (True ∧ True ∧ ∀ i, 0 ≤ i → i < P.k → True) (PiRounds P H Gout A B G P.k) := by
    refine ((gMatInit_guarded G).of_true (hA.offsets hm)).bind fun G0sub hG0 => ?_
    refine ((gMatInit_guarded Gout).of_true (hA.offsets hm)).bind fun Gsub hG => ?_
    refine Guarded.forUpM (PiRounds P H Gout A B G) (Nat.zero_le P.k) ?_
      ⟨⟨fun _ => rfl, fun _ _ => rfl, fun _ _ => rfl⟩, fun i' a b hi => absurd hi (Nat.not_lt_zero _),
        fun _ _ => rfl⟩
    intro i H₀ _ hi hI
    obtain ⟨H₁, H₂, hrun₁, hrun₂, hI'⟩ := hI.step hm hpos hp hA hi
    refine Guarded.of_ok ⟨H₂, ?_, hI'⟩
    rw [hG0 i hi, hG i hi, blockOff_eq hm, hm, hrun₁]
    exact hrun₂
  obtain ⟨H', hok, hrounds⟩ := hrun.ok ⟨trivial, trivial, fun _ _ _ => trivial⟩
  refine ⟨H', hok, hrounds.outside, fun idx hidx => ?_⟩
  obtain ⟨i, j, hi, hj, rfl⟩ := exists_flat_nat hidx
  obtain ⟨a, b, ha, hb, rfl⟩ := exists_flat_nat hj
  apply UInt16.toNat_inj.mp
  rw [pi_get hm hpos hp _ _ _ i a b hi ha hb, hrounds.done i a b hi ha hb]

/-- The laws of `pi`, and its calls with one array or with two. -/
theorem pi_action (hm : P.m = P.n) (hpos : 1 ≤ P.p) (hp : P.p ≤ 2 ^ 16) :
    (∀ A₁ A₂ B₁ B₂ G C₁ C₂ : Arr UInt16, ∀ idx, idx < P.n * P.n * P.k →
      (pi P A₁ B₁ (pi P A₂ B₂ G)).get idx =
        (pi P (pmodMatMul P C₁ P.m P.m A₁ P.m P.m A₂ P.m) (pmodMatMul P C₂ P.n P.n B₂ P.n P.n B₁ P.n)
          G).get idx) ∧
    (∀ A B T G C₁ C₂ : Arr UInt16, ∀ idx, idx < P.n * P.n * P.k →
      (pi P A B (pmodMatMul P C₁ P.k (P.m * P.n) T P.k P.k G (P.m * P.n))).get idx =
        (pmodMatMul P C₂ P.k (P.m * P.n) T P.k P.k (pi P A B G) (P.m * P.n)).get idx) ∧
    (∀ A B G : Arr UInt16, ∀ idx, idx < P.n * P.n * P.k → ((pi P A B G).get idx).toNat < P.p) ∧
    (∀ A B G : Arr UInt16, ∀ idx, idx < P.n * P.n * P.k →
      (piInPlace P A B G).get idx = (pi P A B G).get idx) ∧
    ∀ (H : Heap) (Gout A B G : Ptr), PiArrays P H Gout A B G →
      ∃ H', piChecked P H Gout A B G = .ok H' ∧ H.Outside Gout H' ∧
        ∀ idx, idx < P.n * P.n * P.k →
          (H'.view Gout).get idx = (pi P (H.view A) (H.view B) (H.view G)).get idx :=
  ⟨pi_pi hm hpos hp, pi_pmodMatMul hm hpos hp, pi_reduced hm hpos hp, piInPlace_pi hm hpos hp,
    fun _ _ _ _ _ h => piChecked_returns hm hpos hp h⟩

/-- A call in place, as the streaming signer makes it. -/
theorem pi_action_tiny :
    ∃ H', piChecked tiny (heapOf [1, 2, 0, 1] [2, 2, 1, 0] [1, 0, 2, 1, 0, 1, 1, 2] [])
        ⟨.array 2, 0⟩ ⟨.array 0, 0⟩ ⟨.array 1, 0⟩ ⟨.array 2, 0⟩ = .ok H' ∧
      (heapOf [1, 2, 0, 1] [2, 2, 1, 0] [1, 0, 2, 1, 0, 1, 1, 2] []).Outside ⟨.array 2, 0⟩ H' ∧
      ∀ idx, idx < 8 → (H'.view ⟨.array 2, 0⟩).get idx =
        (pi tiny ⟨[1, 2, 0, 1]⟩ ⟨[2, 2, 1, 0]⟩ ⟨[1, 0, 2, 1, 0, 1, 1, 2]⟩).get idx :=
  (pi_action (P := tiny) rfl (by decide) (by decide)).2.2.2.2 _ _ _ _ _
    ⟨by decide, by decide, by decide, by decide, by decide, by decide, by decide, by decide,
      by decide, by decide, Or.inl rfl, by decide, by decide⟩

end Meds.Ref
