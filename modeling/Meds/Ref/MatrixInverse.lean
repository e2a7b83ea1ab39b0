/-
  Meds.Ref.MatrixInverse

  `pmod_mat_inv` on a memory of arrays.  Input and output are pointers, so
  they may be the same array or overlap in part.  The elimination works on a
  local copy, and the output is written only after it has succeeded: the
  inverse is that of what `A` held before the call, and a call that fails
  leaves every array as it was.  Indices fit an `int`, as in Ref/MatrixMod.
-/

import Meds.Ref.MatrixMulShapes

namespace Meds.Ref

open Meds.Core

namespace Heap

/-- `memcpy(&q[i], cells, …)`. -/
def blit (H : Heap) (q : Ptr) (i : Nat) (cells : List UInt16) : Heap :=
  { H with cells := Function.update H.cells q.obj ((H.cells q.obj).blit (q.off + i) cells) }

/-- Cell `i` of `o` is one of the `len` cells from `q` on. -/
def Covers (q : Ptr) (len : Nat) (o : Obj) (i : Nat) : Prop :=
  o = q.obj ∧ q.off ≤ i ∧ i < q.off + len

theorem cells_blit_self (H : Heap) (q : Ptr) (i : Nat) (cells : List UInt16) :
    (H.blit q i cells).cells q.obj = (H.cells q.obj).blit (q.off + i) cells :=
  Function.update_self _ _ _

theorem cells_blit_ne (H : Heap) {q : Ptr} (i : Nat) (cells : List UInt16) {o : Obj}
    (ho : o ≠ q.obj) : (H.blit q i cells).cells o = H.cells o := Function.update_of_ne ho _ _

theorem get_blit_of_not_covers (H : Heap) {q : Ptr} {i len : Nat} {cells : List UInt16}
    (hlen : i + cells.length ≤ len) {o : Obj} {j : Nat} (hj : ¬ Covers q len o j) :
    ((H.blit q i cells).cells o).get j = (H.cells o).get j := by
  by_cases ho : o = q.obj
  · subst ho
    rw [cells_blit_self, Arr.get_blit, if_neg]
    exact fun hin => hj ⟨rfl, by omega, by omega⟩
  · rw [cells_blit_ne H i cells ho]

end Heap

theorem Heap.view_blit (H : Heap) (q : Ptr) (i : Nat) (cells : List UInt16) :
    (H.blit q i cells).view q = (H.view q).blit i cells := by
  rw [Heap.view, Heap.cells_blit_self, Heap.view]
  generalize H.cells q.obj = M
  induction cells generalizing M i with
  | nil => rfl
  | cons v cells ih => rw [Arr.blit, Arr.blit, Nat.add_assoc, ih, Arr.view_set]

section

variable (P : Params)

/-- `pmod_mat_inv` on the heap; `B` is `none` for a null pointer. -/
def pmodMatInvHeap (H : Heap) (B : Option Ptr) (A : Ptr) (Ar Ac : Nat) : Int × Heap :=
  let (ret, M) := pmodMatSystCt P (augment (H.view A) Ar Ac) Ar (Ac * 2)
  match B with
  | none => (ret, H)
  | some B =>
    if ret = 0 then
      (ret, forUp 0 Ar (fun r H => H.blit B (r * Ac) (M.slice (r * Ac * 2 + Ac) Ac)) H)
    else (ret, H)

/-- `pmod_mat_inv` at `A` and `B` inverts the `n × n` matrix that `A` holds,
    or says that there is no inverse. -/
structure Inverts (H : Heap) (B A : Ptr) (n : Nat) (ret : Int) (H' : Heap) : Prop where
  zero_iff : ret = 0 ↔ IsUnit (block n n (ent P n (H.view A)))
  mul_left : ret = 0 → block n n (ent P n (H'.view B)) * block n n (ent P n (H.view A)) = 1
  mul_right : ret = 0 → block n n (ent P n (H.view A)) * block n n (ent P n (H'.view B)) = 1
  reduced : ret = 0 → Reduced P (H'.view B) (n * n)
  failed : ret ≠ 0 → ret = -1 ∧ H' = H
  frame : ∀ o i, ¬ Heap.Covers B (n * n) o i → (H'.cells o).get i = (H.cells o).get i

variable {P}

/-- The copy of the result, seen through the output pointer. -/
theorem view_copyRows (H : Heap) (B : Ptr) (n : Nat) (M : Arr UInt16) :
    (forUp 0 n (fun r H => H.blit B (r * n) (M.slice (r * n * 2 + n) n)) H).view B
      = forUp 0 n (fun r B => B.blit (r * n) (M.slice (r * n * 2 + n) n)) (H.view B) := by
  refine forUp_relation (fun _ (H : Heap) (C : Arr UInt16) => H.view B = C) (Nat.zero_le n) ?_ rfl
  rintro r H' C - - rfl
  exact Heap.view_blit H' B _ _

/-- The copy of the result stays within the output. -/
theorem get_copyRows (H : Heap) (B : Ptr) (n : Nat) (M : Arr UInt16) {o : Obj} {i : Nat}
    (h : ¬ Heap.Covers B (n * n) o i) :
    ((forUp 0 n (fun r H => H.blit B (r * n) (M.slice (r * n * 2 + n) n)) H).cells o).get i
      = (H.cells o).get i := by
  refine forUp_invariant (fun _ (H' : Heap) => (H'.cells o).get i = (H.cells o).get i)
    (Nat.zero_le n) (fun r H' _ hr hH' => ?_) rfl
  have hroom : r * n + n ≤ n * n := by
    rw [← Nat.succ_mul]
    exact Nat.mul_le_mul_right n hr
  rw [Heap.get_blit_of_not_covers H' (by rw [Arr.length_slice]; exact hroom) h, hH']

/-- Two copies over different arrays agree on the matrix. -/
theorem get_rightHalf {n : Nat} (N B B' : Arr UInt16) {idx : Nat} (hidx : idx < n * n) :
    (forUp 0 n (fun r B => B.blit (r * n) (N.slice (r * n * 2 + n) n)) B).get idx
      = (forUp 0 n (fun r B => B.blit (r * n) (N.slice (r * n * 2 + n) n)) B').get idx := by
  have hn : 0 < n := Nat.pos_of_ne_zero (by rintro rfl; simp at hidx)
  have hr : idx / n < n := (Nat.div_lt_iff_lt_mul hn).mpr hidx
  have hc := Nat.mod_lt idx hn
  rw [← Nat.div_add_mod idx n, rightHalf_spec N B _ _ hr hc, rightHalf_spec N B' _ _ hr hc]

/-- `pmod_mat_inv` is exact and atomic, wherever its operands lie. -/
theorem pmodMatInvHeap_inverts (hprime : P.p.Prime) (hp : P.p < 2 ^ 16) {n : Nat} (H : Heap)
    (B A : Ptr) (hA : Reduced P (H.view A) (n * n)) :
    Inverts P H B A n (pmodMatInvHeap P H (some B) A n n).1
      (pmodMatInvHeap P H (some B) A n n).2 := by
  have := Fact.mk hprime
  have hspec := pmodMatInv_spec hA hp.le
  have hout : ∀ ret M, pmodMatSystCt P (augment (H.view A) n n) n (n * 2) = (ret, M) →
      pmodMatInvHeap P H (some B) A n n = if ret = 0 then
        (ret, forUp 0 n (fun r H => H.blit B (r * n) (M.slice (r * n * 2 + n) n)) H)
      else (ret, H) := by
    intro ret M hrun
    simp only [pmodMatInvHeap, hrun]
  unfold pmodMatInv at hspec
  cases hrun : pmodMatSystCt P (augment (H.view A) n n) n (n * 2) with
  | mk ret M =>
      rw [hout ret M hrun]
      rw [hrun] at hspec
      simp only at hspec
      rcases hspec with ⟨hunit, C, hC, hinv, hred⟩ | ⟨hdet, hnone⟩
      · -- the elimination has succeeded
        obtain rfl : ret = 0 := by
          by_contra hne
          rw [if_neg hne] at hC
          cases hC
        rw [if_pos rfl, Option.some.injEq] at hC
        subst hC
        rw [if_pos rfl]
        generalize hH' : forUp 0 n (fun r H => H.blit B (r * n) (M.slice (r * n * 2 + n) n)) H = H'
        have hcell : ∀ idx, idx < n * n → (H'.view B).get idx
            = (forUp 0 n (fun r B => B.blit (r * n) (M.slice (r * n * 2 + n) n)) Arr.empty).get
              idx := by
          intro idx hidx
          rw [← hH', view_copyRows]
          exact get_rightHalf M _ _ hidx
        have hblock : block n n (ent P n (H'.view B)) = (block n n (ent P n (H.view A)))⁻¹ := by
          rw [← hinv]
          refine block_congr fun i j hi hj => ?_
          rw [ent, ent, pmodMatEntry, pmodMatEntry, hcell _ (flat_lt hi hj)]
        refine ⟨⟨fun _ => (Matrix.isUnit_iff_isUnit_det _).mpr hunit, fun _ => rfl⟩, fun _ => ?_,
          fun _ => ?_, fun _ idx hidx => ?_, fun h => absurd rfl h, fun o i h => ?_⟩
        · rw [hblock, Matrix.nonsing_inv_mul _ hunit]
        · rw [hblock, Matrix.mul_nonsing_inv _ hunit]
        · rw [hcell idx hidx]
          exact hred idx hidx
        · rw [← hH']
          exact get_copyRows H B n M h
      · -- a missing pivot
        have hne : ret ≠ 0 := by
          rintro rfl
          rw [if_pos rfl] at hnone
          cases hnone
        have hret : ret = -1 := by
          have hcode : (pmodMatSystCt P (augment (H.view A) n n) n (n * 2)).1 = 0 ∨
              (pmodMatSystCt P (augment (H.view A) n n) n (n * 2)).1 = -1 := by
            simp only [pmodMatSystCt]
            split
            · exact Or.inr rfl
            · exact Or.inl rfl
          rw [hrun] at hcode
          exact hcode.resolve_left hne
        rw [if_neg hne]
        have hsing : ¬ IsUnit (block n n (ent P n (H.view A))) := by
          rw [Matrix.isUnit_iff_isUnit_det, hdet]
          exact not_isUnit_zero
        exact ⟨⟨fun h => absurd h hne, fun h => absurd h hsing⟩, fun h => absurd h hne,
          fun h => absurd h hne, fun h => absurd h hne, fun _ => ⟨hret, rfl⟩, fun _ _ _ => rfl⟩

/-- A matrix modulo 3 that is inverted in place. -/
theorem pmodMatInvHeap_inverts_inPlace :
    Inverts tiny (heapOf [1, 2, 0, 1] [] [] []) ⟨.array 0, 0⟩ ⟨.array 0, 0⟩ 2 0
      (pmodMatInvHeap tiny (heapOf [1, 2, 0, 1] [] [] []) (some ⟨.array 0, 0⟩) ⟨.array 0, 0⟩
        2 2).2 :=
  pmodMatInvHeap_inverts (P := tiny) (by decide) (by decide) (heapOf [1, 2, 0, 1] [] [] [])
    ⟨.array 0, 0⟩ ⟨.array 0, 0⟩ (by unfold Reduced; decide)

end

end Meds.Ref
