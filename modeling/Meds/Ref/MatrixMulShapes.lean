/-
  Meds.Ref.MatrixMulShapes

  The matrix product of ref/matrixmod.c on operands of every shape.

  `pmodMatMulChecked` runs the source on a memory of arrays and stops at a
  read or write outside an array, at an `int` that overflows and at an
  accumulator that wraps.  Its operands are pointers, so the output may be
  any part of the arrays of the inputs.

  The inner loop of the source runs to `A_r`, the number of rows of `A`,
  where the product runs to `A_c`.  So a product with `A_r < A_c` is cut
  short, one with `A_r > A_c` goes on into what lies behind the rows, and
  the result is right exactly when those terms add up to a multiple of p.
-/

import Meds.Core.Guarded
import Meds.Ref.MatrixModSpec
import Mathlib.Algebra.BigOperators.Intervals

namespace Meds.Ref

open Meds.Core

/-! ## Memory -/

/-- An array of the caller, or the local array of `pmod_mat_mul`. -/
inductive Obj where
  | array (id : Nat)
  | tmp
deriving DecidableEq, Repr

theorem Obj.array_ne_tmp (id : Nat) : Obj.array id ≠ .tmp := by simp

/-- Arrays of 16-bit cells. -/
structure Heap where
  size : Obj → Nat
  cells : Obj → Arr UInt16

/-- The pointer `obj + off`. -/
structure Ptr where
  obj : Obj
  off : Nat
deriving DecidableEq, Repr

inductive MulFault where
  | outOfBounds
  | intOverflow
  | wrap
deriving DecidableEq, Repr

namespace Heap

/-- The array seen through a pointer. -/
def view (H : Heap) (q : Ptr) : Arr UInt16 := (H.cells q.obj).view q.off

/-- The array behind `q` has at least `len` cells from `q` on. -/
abbrev Fits (H : Heap) (q : Ptr) (len : Nat) : Prop := q.off + len ≤ H.size q.obj

def put (H : Heap) (q : Ptr) (i : Nat) (v : UInt16) : Heap :=
  { H with cells := Function.update H.cells q.obj ((H.cells q.obj).set (q.off + i) v) }

def load (H : Heap) (q : Ptr) (i : Nat) : Except MulFault UInt16 := do
  require (q.off + i < H.size q.obj) .outOfBounds
  pure ((H.view q).get i)

def store (H : Heap) (q : Ptr) (i : Nat) (v : UInt16) : Except MulFault Heap := do
  require (q.off + i < H.size q.obj) .outOfBounds
  pure (H.put q i v)

/-- The local array `tmp[len]`. -/
def allocTmp (H : Heap) (len : Nat) : Heap where
  size := Function.update H.size .tmp len
  cells := Function.update H.cells .tmp Arr.empty

end Heap

def intMax : Nat := 2 ^ 31 - 1

/-- The value of an `int` expression. -/
def cInt (v : Nat) : Except MulFault Nat := do
  require (v ≤ intMax) .intOverflow
  pure v

/-- The value of a `uint64_t` expression that should not wrap. -/
def cUint64 (v : Nat) : Except MulFault Nat := do
  require (v < 2 ^ 64) .wrap
  pure v

/-- The index `(M_c)*(r)+(c)` of the entry macros. -/
def entryIndex (Mc r c : Nat) : Except MulFault Nat := do
  let row ← cInt (Mc * r)
  cInt (row + c)

/-- `pmod_mat_entry` on the heap. -/
def pmodMatEntryChecked (H : Heap) (M : Ptr) (Mc r c : Nat) : Except MulFault UInt16 := do
  let i ← entryIndex Mc r c
  H.load M i

/-- `pmod_mat_set_entry` on the heap. -/
def pmodMatSetEntryChecked (H : Heap) (M : Ptr) (Mc r c : Nat) (v : UInt16) :
    Except MulFault Heap := do
  let i ← entryIndex Mc r c
  H.store M i v

section

variable (P : Params)

/-- `pmod_mat_mul_revise`. -/
def pmodMatMulReviseChecked (H : Heap) (tmp : Ptr) (Cr Cc : Nat) (A : Ptr) (Ar Ac : Nat) (B : Ptr)
    (_Br Bc : Nat) : Except MulFault Heap :=
  forUpM 0 Cc
    (fun c H =>
      forUpM 0 Cr
        (fun r H => do
          let val ←
            forUpM 0 Ar
              (fun i val => do
                let a ← pmodMatEntryChecked H A Ac r i
                let b ← pmodMatEntryChecked H B Bc i c
                cUint64 (val + a.toNat * b.toNat))
              0
          pmodMatSetEntryChecked H tmp Cc r c (UInt16.ofNat (val % P.p)))
        H)
    H

/-- `pmod_mat_mul`. -/
def pmodMatMulChecked (H : Heap) (C : Ptr) (Cr Cc : Nat) (A : Ptr) (Ar Ac : Nat) (B : Ptr)
    (Br Bc : Nat) : Except MulFault Heap := do
  let len ← cInt (Cr * Cc)
  let H := H.allocTmp len
  let H ← pmodMatMulReviseChecked P H ⟨.tmp, 0⟩ Cr Cc A Ar Ac B Br Bc
  forUpM 0 Cc
    (fun c H =>
      forUpM 0 Cr
        (fun r H => do
          let v ← pmodMatEntryChecked H ⟨.tmp, 0⟩ Cc r c
          pmodMatSetEntryChecked H C Cc r c v)
        H)
    H

end

/-! ## What a write changes -/

/-- `H'` differs from `H` only behind the pointer `q`. -/
structure Heap.Frame (H : Heap) (q : Ptr) (H' : Heap) : Prop where
  size : H'.size = H.size
  other : ∀ o, o ≠ q.obj → H'.cells o = H.cells o
  below : ∀ i, i < q.off → (H'.cells q.obj).get i = (H.cells q.obj).get i

theorem Heap.cells_put_self (H : Heap) (q : Ptr) (i : Nat) (v : UInt16) :
    (H.put q i v).cells q.obj = (H.cells q.obj).set (q.off + i) v := Function.update_self _ _ _

theorem Heap.cells_put_ne (H : Heap) {q : Ptr} (i : Nat) (v : UInt16) {o : Obj} (ho : o ≠ q.obj) :
    (H.put q i v).cells o = H.cells o := Function.update_of_ne ho _ _

theorem Heap.Frame.refl (q : Ptr) (H : Heap) : H.Frame q H :=
  ⟨rfl, fun _ _ => rfl, fun _ _ => rfl⟩

theorem Heap.Frame.put {q : Ptr} {H H' : Heap} (h : H.Frame q H') (i : Nat) (v : UInt16) :
    H.Frame q (H'.put q i v) := by
  refine ⟨h.size, fun o ho => ?_, fun j hj => ?_⟩
  · rw [Heap.cells_put_ne H' i v ho]
    exact h.other o ho
  · rw [Heap.cells_put_self, Arr.get_set_ne _ _ (by omega)]
    exact h.below j hj

/-- A pointer into another array reads what it read before. -/
theorem Heap.Frame.view {q a : Ptr} {H H' : Heap} (h : H.Frame q H') (ha : a.obj ≠ q.obj) :
    H'.view a = H.view a := by
  rw [Heap.view, Heap.view, h.other a.obj ha]

theorem Heap.view_put (H : Heap) (q : Ptr) (i : Nat) (v : UInt16) :
    (H.put q i v).view q = (H.view q).set i v := by
  rw [Heap.view, Heap.cells_put_self, Arr.view_set]
  rfl

theorem Heap.cells_allocTmp (H : Heap) (len : Nat) {o : Obj} (ho : o ≠ .tmp) :
    (H.allocTmp len).cells o = H.cells o := Function.update_of_ne ho _ _

theorem Heap.view_allocTmp (H : Heap) (len : Nat) {q : Ptr} (hq : q.obj ≠ .tmp) :
    (H.allocTmp len).view q = H.view q := by
  rw [Heap.view, H.cells_allocTmp len hq, Heap.view]

theorem Heap.size_allocTmp (H : Heap) (len : Nat) {o : Obj} (ho : o ≠ .tmp) :
    (H.allocTmp len).size o = H.size o := Function.update_of_ne ho _ _

/-! ## The checks of one access -/

/-- The index is an `int` and lies in the array. -/
def Heap.InRange (H : Heap) (q : Ptr) (i : Nat) : Prop := i ≤ intMax ∧ q.off + i < H.size q.obj

theorem cInt_guarded (v : Nat) : Guarded (cInt v) (v ≤ intMax) (· = v) :=
  Guarded.require_pure fun _ => rfl

theorem cUint64_guarded (v : Nat) : Guarded (cUint64 v) (v < 2 ^ 64) (· = v) :=
  Guarded.require_pure fun _ => rfl

theorem entryIndex_guarded (Mc r c : Nat) :
    Guarded (entryIndex Mc r c) (Mc * r + c ≤ intMax) (· = Mc * r + c) := by
  refine ((cInt_guarded (Mc * r)).bind (d := Mc * r + c ≤ intMax) ?_).iff ?_
  · rintro row rfl
    exact cInt_guarded _
  · exact ⟨And.right, fun h => ⟨by omega, h⟩⟩

theorem pmodMatEntryChecked_guarded (H : Heap) (M : Ptr) (Mc r c : Nat) :
    Guarded (pmodMatEntryChecked H M Mc r c) (H.InRange M (Mc * r + c))
      (fun v => v.toNat = pmodMatEntry (H.view M) Mc r c) := by
  refine (entryIndex_guarded Mc r c).bind ?_
  rintro i rfl
  exact Guarded.require_pure fun _ => rfl

theorem pmodMatSetEntryChecked_guarded (H : Heap) (M : Ptr) (Mc r c : Nat) (v : UInt16) :
    Guarded (pmodMatSetEntryChecked H M Mc r c v) (H.InRange M (Mc * r + c))
      (· = H.put M (Mc * r + c) v) := by
  refine (entryIndex_guarded Mc r c).bind ?_
  rintro i rfl
  exact Guarded.require_pure fun _ => rfl

/-! ## The checks of a product -/

/-- One term of an entry of the product. -/
def mulTerm (A : Arr UInt16) (Ac : Nat) (B : Arr UInt16) (Bc r c i : Nat) : Nat :=
  pmodMatEntry A Ac r i * pmodMatEntry B Bc i c

theorem mulTerm_lt (A : Arr UInt16) (Ac : Nat) (B : Arr UInt16) (Bc r c i : Nat) :
    mulTerm A Ac B Bc r c i < 2 ^ 32 :=
  (Nat.mul_lt_mul'' (UInt16.toNat_lt _) (UInt16.toNat_lt _)).trans_eq (by norm_num)

/-- A sum over an `int` range does not wrap. -/
theorem sum_mulTerm_lt (A : Arr UInt16) (Ac : Nat) (B : Arr UInt16) (Bc r c : Nat) {len : Nat}
    (hlen : len ≤ intMax) : ∑ i ∈ Finset.range len, mulTerm A Ac B Bc r c i < 2 ^ 64 := by
  have hsum : ∑ i ∈ Finset.range len, mulTerm A Ac B Bc r c i ≤ len * 2 ^ 32 := by
    have h := Finset.sum_le_card_nsmul (Finset.range len) (mulTerm A Ac B Bc r c) (2 ^ 32)
      fun i _ => (mulTerm_lt A Ac B Bc r c i).le
    rwa [Finset.card_range, smul_eq_mul] at h
  have : intMax = 2 ^ 31 - 1 := rfl
  omega

theorem mulLoop_guarded (H : Heap) (A : Ptr) (Ac : Nat) (B : Ptr) (Bc r c : Nat) {Ar : Nat}
    (hAr : Ar ≤ intMax) :
    Guarded
      (forUpM 0 Ar
        (fun i val => do
          let a ← pmodMatEntryChecked H A Ac r i
          let b ← pmodMatEntryChecked H B Bc i c
          cUint64 (val + a.toNat * b.toNat))
        0)
      (∀ i, 0 ≤ i → i < Ar → H.InRange A (Ac * r + i) ∧ H.InRange B (Bc * i + c))
      (· = ∑ i ∈ Finset.range Ar, mulTerm (H.view A) Ac (H.view B) Bc r c i) := by
  refine Guarded.forUpM
    (fun j val => val = ∑ i ∈ Finset.range j, mulTerm (H.view A) Ac (H.view B) Bc r c i)
    (Nat.zero_le Ar) ?_ rfl
  rintro i val - hi rfl
  refine (pmodMatEntryChecked_guarded H A Ac r i).bind fun a ha => ?_
  refine ((pmodMatEntryChecked_guarded H B Bc i c).bind (d := True) fun b hb => ?_).iff
    ⟨And.left, fun h => ⟨h, trivial⟩⟩
  rw [ha, hb, ← mulTerm, ← Finset.sum_range_succ]
  exact (cUint64_guarded _).of_true (sum_mulTerm_lt _ _ _ _ r c (by omega))

/-- Nested loops that fill the matrix at `q`, row by row index `Cc * r + c`. -/
theorem fillLoop_guarded {τ : Type} (H : Heap) (q : Ptr) (Cr Cc : Nat)
    {f : Nat → Nat → Heap → Except MulFault τ} {g : τ → UInt16} {d : Nat → Nat → Prop}
    {w : Nat → Nat → UInt16}
    (hf : ∀ r c H', r < Cr → c < Cc → H.Frame q H' →
      Guarded (f r c H') (d r c) (fun v => g v = w r c)) :
    Guarded
      (forUpM 0 Cc
        (fun c H =>
          forUpM 0 Cr
            (fun r H => do
              let v ← f r c H
              pmodMatSetEntryChecked H q Cc r c (g v))
            H)
        H)
      (∀ c, 0 ≤ c → c < Cc → ∀ r, 0 ≤ r → r < Cr → d r c ∧ H.InRange q (Cc * r + c))
      (fun H' => H.Frame q H' ∧
        H'.view q = forUp 0 Cc
          (fun c M => forUp 0 Cr (fun r M => M.set (Cc * r + c) (w r c)) M) (H.view q)) := by
  refine Guarded.forUpM
    (fun j H' => H.Frame q H' ∧ H'.view q = forUp 0 j
      (fun c M => forUp 0 Cr (fun r M => M.set (Cc * r + c) (w r c)) M) (H.view q))
    (Nat.zero_le Cc) ?_ ⟨Heap.Frame.refl q H, rfl⟩
  -- only the matrix at q changes, so `f` may still be asked in the new heap
  rintro c H₁ - hc ⟨hframe, hview⟩
  rw [forUp_succ (Nat.zero_le c), ← hview]
  refine Guarded.forUpM
    (fun j H' => H.Frame q H' ∧
      H'.view q = forUp 0 j (fun r M => M.set (Cc * r + c) (w r c)) (H₁.view q))
    (Nat.zero_le Cr) ?_ ⟨hframe, rfl⟩
  rintro r H₂ - hr ⟨hframe, hview⟩
  refine (hf r c H₂ hr hc hframe).bind fun v hv => ?_
  rw [hv, Heap.InRange, ← hframe.size]
  refine (pmodMatSetEntryChecked_guarded H₂ q Cc r c (w r c)).mono ?_
  rintro H₃ rfl
  refine ⟨hframe.put _ _, ?_⟩
  rw [Heap.view_put, hview, forUp_succ (Nat.zero_le r)]

section

variable (P : Params)

/-- The checks of the loops that fill `tmp`. -/
def MulInRange (H : Heap) (tmp : Ptr) (Cr Cc : Nat) (A : Ptr) (Ar Ac : Nat) (B : Ptr) (Bc : Nat) :
    Prop :=
  ∀ c, 0 ≤ c → c < Cc → ∀ r, 0 ≤ r → r < Cr →
    (∀ i, 0 ≤ i → i < Ar → H.InRange A (Ac * r + i) ∧ H.InRange B (Bc * i + c)) ∧
      H.InRange tmp (Cc * r + c)

theorem pmodMatMulReviseChecked_guarded (H : Heap) {tmp A B : Ptr} (hA : A.obj ≠ tmp.obj)
    (hB : B.obj ≠ tmp.obj) (Cr Cc Ac Br Bc : Nat) {Ar : Nat} (hAr : Ar ≤ intMax) :
    Guarded (pmodMatMulReviseChecked P H tmp Cr Cc A Ar Ac B Br Bc)
      (MulInRange H tmp Cr Cc A Ar Ac B Bc)
      (fun H' => H.Frame tmp H' ∧
        H'.view tmp = pmodMatMulRevise P (H.view tmp) Cr Cc (H.view A) Ar Ac (H.view B) Bc) := by
  refine fillLoop_guarded H tmp Cr Cc (g := fun val => UInt16.ofNat (val % P.p)) ?_
  intro r c H' _ _ hframe
  have h := mulLoop_guarded H' A Ac B Bc r c hAr
  rw [hframe.view hA, hframe.view hB] at h
  simp only [Heap.InRange, hframe.size] at h
  refine h.mono ?_
  rintro val rfl
  rw [forUp_add]
  rfl

/-- The arrays of the caller are as before, the one of `q` from `q` on apart. -/
structure Heap.Outside (H : Heap) (q : Ptr) (H' : Heap) : Prop where
  size : ∀ id, H'.size (.array id) = H.size (.array id)
  other : ∀ id, .array id ≠ q.obj → H'.cells (.array id) = H.cells (.array id)
  below : ∀ i, i < q.off → (H'.cells q.obj).get i = (H.cells q.obj).get i

theorem pmodMatMulChecked_guarded (H : Heap) {C A B : Ptr} (hC : C.obj ≠ .tmp) (hA : A.obj ≠ .tmp)
    (hB : B.obj ≠ .tmp) (Cr Cc Ac Br Bc : Nat) {Ar : Nat} (hAr : Ar ≤ intMax) :
    Guarded (pmodMatMulChecked P H C Cr Cc A Ar Ac B Br Bc)
      (Cr * Cc ≤ intMax ∧ MulInRange (H.allocTmp (Cr * Cc)) ⟨.tmp, 0⟩ Cr Cc A Ar Ac B Bc ∧
        ∀ c, 0 ≤ c → c < Cc → ∀ r, 0 ≤ r → r < Cr →
          (H.allocTmp (Cr * Cc)).InRange ⟨.tmp, 0⟩ (Cc * r + c) ∧ H.InRange C (Cc * r + c))
      (fun H' => H.Outside C H' ∧
        H'.view C = pmodMatMul P (H.view C) Cr Cc (H.view A) Ar Ac (H.view B) Bc) := by
  refine (cInt_guarded (Cr * Cc)).bind ?_
  rintro len rfl
  have hmul := @pmodMatMulReviseChecked_guarded P (H.allocTmp (Cr * Cc)) ⟨.tmp, 0⟩ A B hA hB
    Cr Cc Ac Br Bc Ar hAr
  rw [H.view_allocTmp _ hA, H.view_allocTmp _ hB] at hmul
  refine hmul.bind ?_
  rintro H₁ ⟨hframe₁, hview₁⟩
  -- the local array is read back as it was left by the first loops
  have hcopy := fillLoop_guarded H₁ C Cr Cc
    (f := fun r c H' => pmodMatEntryChecked H' ⟨.tmp, 0⟩ Cc r c) (g := id)
    (d := fun r c => (H.allocTmp (Cr * Cc)).InRange ⟨.tmp, 0⟩ (Cc * r + c))
    (w := fun r c => UInt16.ofNat (pmodMatEntry (H₁.view ⟨.tmp, 0⟩) Cc r c)) ?_
  · have hsize : ∀ i, H₁.InRange C i ↔ H.InRange C i := by
      intro i
      rw [Heap.InRange, hframe₁.size, H.size_allocTmp _ hC, Heap.InRange]
    simp only [hsize] at hcopy
    refine hcopy.mono ?_
    rintro H₂ ⟨hframe₂, hview₂⟩
    refine ⟨⟨fun id => ?_, fun id hid => ?_, fun i hi => ?_⟩, ?_⟩
    · rw [hframe₂.size, hframe₁.size, H.size_allocTmp _ (Obj.array_ne_tmp id)]
    · rw [hframe₂.other _ hid, hframe₁.other _ (Obj.array_ne_tmp id)]
      exact H.cells_allocTmp _ (Obj.array_ne_tmp id)
    · rw [hframe₂.below i hi, hframe₁.other _ hC, H.cells_allocTmp _ hC]
    · rw [hview₂, hview₁, hframe₁.view hC, H.view_allocTmp _ hC]
      rfl
  · intro r c H' _ _ hframe₂
    have hread := pmodMatEntryChecked_guarded H' ⟨.tmp, 0⟩ Cc r c
    rw [hframe₂.view hC.symm] at hread
    simp only [Heap.InRange, hframe₂.size, hframe₁.size] at hread
    refine hread.mono ?_
    rintro v hv
    rw [← hv, UInt16.ofNat_toNat]
    rfl

/-! ## When the product is right -/

/-- Dimensions of a product, each a positive `int`. -/
structure MulDims (Cr Cc Ar Ac Br Bc : Nat) : Prop where
  inner : Ac = Br
  rows : Cr = Ar
  cols : Cc = Bc
  rows_pos : 1 ≤ Ar
  inner_pos : 1 ≤ Ac
  cols_pos : 1 ≤ Bc
  rows_le : Ar ≤ intMax
  inner_le : Ac ≤ intMax
  cols_le : Bc ≤ intMax

/-- Where the operands lie: in arrays of the caller that are large enough,
    `C` anywhere, `tmp` in an array of its own. -/
structure MulArrays (H : Heap) (C : Ptr) (Cr Cc : Nat) (A : Ptr) (Ar Ac : Nat) (B : Ptr)
    (Br Bc : Nat) (tmp : Ptr) : Prop where
  outCaller : C.obj ≠ .tmp
  leftCaller : A.obj ≠ .tmp
  rightCaller : B.obj ≠ .tmp
  out : H.Fits C (Cr * Cc)
  left : H.Fits A (Ar * Ac)
  right : H.Fits B (Br * Bc)
  scratch : H.Fits tmp (Cr * Cc)
  leftApart : A.obj ≠ tmp.obj
  rightApart : B.obj ≠ tmp.obj

/-- `pmod_mat_mul` leaves the product of `A` and `B` in `C`, and
    `pmod_mat_mul_revise` leaves it in `tmp`, with no fault on the way. -/
structure Multiplies (H : Heap) (C : Ptr) (Cr Cc : Nat) (A : Ptr) (Ar Ac : Nat) (B : Ptr)
    (Br Bc : Nat) (tmp : Ptr) : Prop where
  mul : ∃ H', pmodMatMulChecked P H C Cr Cc A Ar Ac B Br Bc = .ok H' ∧ H.Outside C H' ∧
    MulSpec P Cr Cc Ac Ac Bc (H.view A) (H.view B) (H.view C) (H'.view C)
  revise : ∃ H', pmodMatMulReviseChecked P H tmp Cr Cc A Ar Ac B Br Bc = .ok H' ∧ H.Frame tmp H' ∧
    MulSpec P Cr Cc Ac Ac Bc (H.view A) (H.view B) (H.view tmp) (H'.view tmp)

/-- The size of the local array is an `int`, the last entries that the inner
    loop reaches lie in their arrays, and the terms between `A_r` and `A_c`
    add up to a multiple of p. -/
structure MulExact (H : Heap) (A : Ptr) (Ar Ac : Nat) (B : Ptr) (Bc : Nat) : Prop where
  len : Ar * Bc ≤ intMax
  left : H.InRange A (Ac * (Ar - 1) + (Ar - 1))
  right : H.InRange B (Bc * (Ar - 1) + (Bc - 1))
  excess : ∀ r c, r < Ar → c < Bc →
    ∑ i ∈ Finset.Ico (min Ar Ac) (max Ar Ac), mulTerm (H.view A) Ac (H.view B) Bc r c i
      ≡ 0 [MOD P.p]

end

variable {P : Params}

/-- Two sums from 0 agree modulo p iff the terms between their ends add up to 0. -/
theorem sum_range_modEq_iff (f : Nat → Nat) (a b p : Nat) :
    ∑ i ∈ Finset.range a, f i ≡ ∑ i ∈ Finset.range b, f i [MOD p] ↔
      ∑ i ∈ Finset.Ico (min a b) (max a b), f i ≡ 0 [MOD p] := by
  wlog hab : a ≤ b generalizing a b with hwlog
  · rw [Nat.ModEq.comm, min_comm, max_comm]
    exact hwlog b a (by omega)
  · rw [min_eq_left hab, max_eq_right hab, ← Finset.sum_range_add_sum_Ico f hab,
      Nat.ModEq.comm, Nat.add_modEq_left_iff, Nat.modEq_zero_iff_dvd]

theorem Heap.InRange.mono {H : Heap} {q : Ptr} {i j : Nat} (h : H.InRange q j) (hij : i ≤ j) :
    H.InRange q i := ⟨hij.trans h.1, by have := h.2; omega⟩

/-- The largest indices decide about the checks of the first loops. -/
theorem mulInRange_iff {H : Heap} {tmp A B : Ptr} {Ar Ac Bc : Nat} (hr : 1 ≤ Ar) (hc : 1 ≤ Bc)
    (hlen : Ar * Bc ≤ intMax) (htmp : H.Fits tmp (Ar * Bc)) :
    MulInRange H tmp Ar Bc A Ar Ac B Bc ↔
      H.InRange A (Ac * (Ar - 1) + (Ar - 1)) ∧ H.InRange B (Bc * (Ar - 1) + (Bc - 1)) := by
  constructor
  · intro h
    obtain ⟨hread, -⟩ := h (Bc - 1) (Nat.zero_le _) (by omega) (Ar - 1) (Nat.zero_le _) (by omega)
    exact hread (Ar - 1) (Nat.zero_le _) (by omega)
  · rintro ⟨hA, hB⟩ c - hc' r - hr'
    refine ⟨fun i _ hi => ⟨hA.mono ?_, hB.mono ?_⟩, ?_⟩
    · exact Nat.add_le_add (Nat.mul_le_mul_left _ (by omega)) (by omega)
    · exact Nat.add_le_add (Nat.mul_le_mul_left _ (by omega)) (by omega)
    · have hlt := flat_lt hr' hc'
      rw [Nat.mul_comm Bc Ar] at hlt
      exact ⟨by omega, by unfold Heap.Fits at htmp; omega⟩

/-- The inner loop to `A_r` leaves the product iff the excess terms cancel. -/
theorem MulSpec.inner_iff {Ar Ac Bc : Nat} {A B C C' : Arr UInt16}
    (h : MulSpec P Ar Bc Ar Ac Bc A B C C') :
    MulSpec P Ar Bc Ac Ac Bc A B C C' ↔ ∀ r c, r < Ar → c < Bc →
      ∑ i ∈ Finset.Ico (min Ar Ac) (max Ar Ac), mulTerm A Ac B Bc r c i ≡ 0 [MOD P.p] := by
  constructor
  · intro h' r c hr hc
    rw [← sum_range_modEq_iff]
    exact (h.entry r c hr hc).symm.trans (h'.entry r c hr hc)
  · intro hex
    refine ⟨fun r c hr hc => (h.entry r c hr hc).trans ?_, h.rest⟩
    exact (sum_range_modEq_iff (mulTerm A Ac B Bc r c) Ar Ac P.p).mpr (hex r c hr hc)

/-- The checks of `pmod_mat_mul`, from the largest indices. -/
theorem mulChecks_iff {H : Heap} {C A B tmp : Ptr} {Ar Ac Bc : Nat}
    (hd : MulDims Ar Bc Ar Ac Ac Bc) (h : MulArrays H C Ar Bc A Ar Ac B Ac Bc tmp) :
    (Ar * Bc ≤ intMax ∧ MulInRange (H.allocTmp (Ar * Bc)) ⟨.tmp, 0⟩ Ar Bc A Ar Ac B Bc ∧
        ∀ c, 0 ≤ c → c < Bc → ∀ r, 0 ≤ r → r < Ar →
          (H.allocTmp (Ar * Bc)).InRange ⟨.tmp, 0⟩ (Bc * r + c) ∧ H.InRange C (Bc * r + c)) ↔
      Ar * Bc ≤ intMax ∧ H.InRange A (Ac * (Ar - 1) + (Ar - 1)) ∧
        H.InRange B (Bc * (Ar - 1) + (Bc - 1)) := by
  have hsize : (H.allocTmp (Ar * Bc)).size .tmp = Ar * Bc := by simp [Heap.allocTmp]
  have htmp : (H.allocTmp (Ar * Bc)).Fits ⟨.tmp, 0⟩ (Ar * Bc) := by
    rw [Heap.Fits, hsize, Nat.zero_add]
  refine and_congr_right fun hlen => ?_
  rw [mulInRange_iff hd.rows_pos hd.cols_pos hlen htmp, Heap.InRange, Heap.InRange,
    H.size_allocTmp _ h.leftCaller, H.size_allocTmp _ h.rightCaller]
  refine and_iff_left ?_
  intro c _ hc r _ hr
  have hlt := flat_lt hr hc
  have hout := h.out
  unfold Heap.Fits at hout
  rw [Nat.mul_comm Bc Ar] at hlt
  refine ⟨⟨by omega, ?_⟩, by omega, by omega⟩
  rwa [hsize, Nat.zero_add]

/-- Exactly when the routines compute the product. -/
theorem multiplies_iff (hp0 : 1 ≤ P.p) (hp : P.p ≤ 2 ^ 16) {H : Heap} {C A B tmp : Ptr}
    {Cr Cc Ar Ac Br Bc : Nat} (hd : MulDims Cr Cc Ar Ac Br Bc)
    (h : MulArrays H C Cr Cc A Ar Ac B Br Bc tmp) :
    Multiplies P H C Cr Cc A Ar Ac B Br Bc tmp ↔ MulExact P H A Ar Ac B Bc := by
  obtain ⟨rfl, rfl, rfl⟩ : Ac = Br ∧ Cr = Ar ∧ Cc = Bc := ⟨hd.inner, hd.rows, hd.cols⟩
  have hmul := (pmodMatMulChecked_guarded P H h.outCaller h.leftCaller h.rightCaller Cr Cc Ac Ac Cc
    hd.rows_le).iff (mulChecks_iff hd h)
  have hspec := (pmodMatMul_spec Cr Cc Cr Ac Cc (A := H.view A) (B := H.view B) (C := H.view C)
    hp0 hp).inner_iff
  constructor
  · rintro ⟨⟨H', hrun, -, hprod⟩, -⟩
    obtain ⟨hlen, hleft, hright⟩ := hmul.returns_iff.mp ⟨H', hrun⟩
    rw [(hmul.post hrun).2] at hprod
    exact ⟨hlen, hleft, hright, hspec.mp hprod⟩
  · rintro ⟨hlen, hleft, hright, hex⟩
    have hrevise := (pmodMatMulReviseChecked_guarded P H h.leftApart h.rightApart Cr Cc Ac Ac Cc
      hd.rows_le).iff (mulInRange_iff hd.rows_pos hd.cols_pos hlen h.scratch)
    constructor
    · obtain ⟨H', hrun, hout, hview⟩ := hmul.ok ⟨hlen, hleft, hright⟩
      refine ⟨H', hrun, hout, ?_⟩
      rw [hview]
      exact hspec.mpr hex
    · obtain ⟨H', hrun, hframe, hview⟩ := hrevise.ok ⟨hleft, hright⟩
      refine ⟨H', hrun, hframe, ?_⟩
      rw [hview]
      exact (pmodMatMulRevise_spec Cr Cc Cr Ac Cc (H.view tmp) hp0 hp).inner_iff.mpr hex

/-- Four arrays of the caller. -/
def heapOf (a b c t : List UInt16) : Heap where
  size := fun
    | .array 0 => a.length
    | .array 1 => b.length
    | .array 2 => c.length
    | .array 3 => t.length
    | _ => 0
  cells := fun
    | .array 0 => ⟨a⟩
    | .array 1 => ⟨b⟩
    | .array 2 => ⟨c⟩
    | .array 3 => ⟨t⟩
    | _ => Arr.empty

/-- A square product in place. -/
theorem multiplies_iff_inPlace :
    Multiplies tiny (heapOf [1, 2, 0, 1] [2, 2, 1, 0] [] [0, 0, 0, 0]) ⟨.array 0, 0⟩ 2 2
        ⟨.array 0, 0⟩ 2 2 ⟨.array 1, 0⟩ 2 2 ⟨.array 3, 0⟩ ↔
      MulExact tiny (heapOf [1, 2, 0, 1] [2, 2, 1, 0] [] [0, 0, 0, 0]) ⟨.array 0, 0⟩ 2 2
        ⟨.array 1, 0⟩ 2 :=
  multiplies_iff (by decide) (by decide)
    ⟨rfl, rfl, rfl, by decide, by decide, by decide, by decide, by decide, by decide⟩
    ⟨by decide, by decide, by decide, by decide, by decide, by decide, by decide, by decide,
      by decide⟩

/-- The row (1, 1) times the column (1, 1): the source leaves 1 for 2. -/
theorem not_multiplies_row :
    ¬ ∀ (P : Params) (H : Heap) (C A B tmp : Ptr) (Cr Cc Ar Ac Br Bc : Nat), 1 ≤ P.p →
      P.p ≤ 2 ^ 16 → MulDims Cr Cc Ar Ac Br Bc → MulArrays H C Cr Cc A Ar Ac B Br Bc tmp →
      Multiplies P H C Cr Cc A Ar Ac B Br Bc tmp := by
  intro h
  obtain ⟨⟨H', hrun, -, hspec⟩, -⟩ :=
    h tiny (heapOf [1, 1] [1, 1] [0] [0]) ⟨.array 2, 0⟩ ⟨.array 0, 0⟩ ⟨.array 1, 0⟩ ⟨.array 3, 0⟩
      1 1 1 2 2 1 (by decide) (by decide)
      ⟨rfl, rfl, rfl, by decide, by decide, by decide, by decide, by decide, by decide⟩
      ⟨by decide, by decide, by decide, by decide, by decide, by decide, by decide, by decide,
        by decide⟩
  have hval : (pmodMatMulChecked tiny (heapOf [1, 1] [1, 1] [0] [0]) ⟨.array 2, 0⟩ 1 1 ⟨.array 0, 0⟩
      1 2 ⟨.array 1, 0⟩ 2 1).map (fun H' => pmodMatEntry (H'.view ⟨.array 2, 0⟩) 1 0 0) = .ok 1 :=
    rfl
  rw [hrun] at hval
  have hone : pmodMatEntry (H'.view ⟨.array 2, 0⟩) 1 0 0 = 1 := Except.ok.inj hval
  have hentry := hspec.entry 0 0 (by decide) (by decide)
  rw [hone] at hentry
  revert hentry
  decide

end Meds.Ref
