/-
  Meds.Core.Arr

  Zero-default arrays: the memory behind a C pointer, stored as the list of
  cells written so far.  Reading past the stored cells gives the default
  value and writing there extends the list, so `get`/`set` obey the two
  array laws with no bounds side condition, while a closed program over
  `Arr` still evaluates (the cells are data, not a chain of closures).

  A pointer `base + off` is the pair of views `Arr.view` (what is read
  through it) and `Arr.modifyFrom` (what writing through it does to `base`).
-/

import Mathlib.Data.List.Basic
import Mathlib.Data.List.GetD
import Mathlib.Tactic.Common

namespace Meds.Core

/-- The cells of an array; cells past the end hold `default`. -/
structure Arr (α : Type) where
  cells : List α
deriving DecidableEq, Repr

namespace Arr

variable {α : Type} [Inhabited α]

/-- Overwrite one position of a cell list, padding with `default`. -/
def setCell : List α → Nat → α → List α
  | [], 0, v => [v]
  | [], n + 1, v => default :: setCell [] n v
  | _ :: xs, 0, v => v :: xs
  | x :: xs, n + 1, v => x :: setCell xs n v

def empty : Arr α := ⟨[]⟩

/-- `n` cells holding `v`. -/
def replicate (n : Nat) (v : α) : Arr α := ⟨List.replicate n v⟩

def get (M : Arr α) (i : Nat) : α := M.cells.getD i default

def set (M : Arr α) (i : Nat) (v : α) : Arr α := ⟨setCell M.cells i v⟩

/-- The memory seen through the pointer `M + off`. -/
def view (M : Arr α) (off : Nat) : Arr α := ⟨M.cells.drop off⟩

/-- Run a writer `f` through the pointer `M + off`. -/
def modifyFrom (M : Arr α) (off : Nat) (f : Arr α → Arr α) : Arr α :=
  ⟨M.cells.take off ++ (List.replicate (off - M.cells.length) default ++ (f (M.view off)).cells)⟩

/-- The `len` cells starting at `off`, as a list. -/
def slice (M : Arr α) (off len : Nat) : List α := (List.range len).map fun i => M.get (off + i)

/-- `memcpy` of a list of cells to offset `off`. -/
def blit (M : Arr α) (off : Nat) : List α → Arr α
  | [] => M
  | v :: vs => (M.set off v).blit (off + 1) vs

/-! ## Reading after writing -/

theorem getD_setCell (l : List α) (i j : Nat) (v : α) :
    (setCell l i v).getD j default = if j = i then v else l.getD j default := by
  induction l, i, v using setCell.induct generalizing j with
  | case1 v => cases j <;> simp [setCell]
  | case2 n v ih =>
      cases j with
      | zero => simp [setCell]
      | succ j => simpa [setCell] using ih j
  | case3 x xs v => cases j <;> simp [setCell]
  | case4 x xs n v ih =>
      cases j with
      | zero => simp [setCell]
      | succ j => simpa [setCell] using ih j

theorem get_set (M : Arr α) (i j : Nat) (v : α) :
    (M.set i v).get j = if j = i then v else M.get j :=
  getD_setCell M.cells i j v

@[simp] theorem get_set_self (M : Arr α) (i : Nat) (v : α) : (M.set i v).get i = v := by
  rw [get_set, if_pos rfl]

theorem get_set_ne (M : Arr α) {i j : Nat} (v : α) (h : j ≠ i) :
    (M.set i v).get j = M.get j := by
  rw [get_set, if_neg h]

@[simp] theorem get_empty (i : Nat) : (empty : Arr α).get i = default := rfl

@[simp] theorem get_replicate (n i : Nat) :
    (replicate n (default : α)).get i = default := by
  simp [get, replicate, List.getD_eq_getElem?_getD, List.getElem?_replicate]
  split <;> rfl

@[simp] theorem get_mk (l : List α) (i : Nat) : (Arr.mk l).get i = l.getD i default := rfl

@[simp] theorem get_view (M : Arr α) (off i : Nat) : (M.view off).get i = M.get (off + i) := by
  simp [view, get, List.getD_eq_getElem?_getD, List.getElem?_drop]

theorem drop_setCell (l : List α) (off i : Nat) (v : α) :
    (setCell l (off + i) v).drop off = setCell (l.drop off) i v := by
  induction off generalizing l with
  | zero => simp
  | succ off ih =>
      rw [Nat.add_right_comm]
      cases l with
      | nil => simpa [setCell] using ih []
      | cons x xs => simpa [setCell] using ih xs

/-- Writing through the pointer `M + off`. -/
theorem view_set (M : Arr α) (off i : Nat) (v : α) :
    (M.set (off + i) v).view off = (M.view off).set i v :=
  congrArg Arr.mk (drop_setCell M.cells off i v)

theorem get_modifyFrom (M : Arr α) (off : Nat) (f : Arr α → Arr α) (j : Nat) :
    (M.modifyFrom off f).get j = if j < off then M.get j else (f (M.view off)).get (j - off) := by
  have hlen : (M.cells.take off ++
      List.replicate (off - M.cells.length) (default : α)).length = off := by
    simp only [List.length_append, List.length_take, List.length_replicate]
    omega
  unfold modifyFrom get
  rw [← List.append_assoc]
  by_cases hj : j < off
  · rw [if_pos hj, List.getD_append _ _ _ _ (by omega)]
    by_cases hm : j < M.cells.length
    · rw [List.getD_append _ _ _ _ (by simp; omega)]
      simp [List.getD_eq_getElem?_getD, hj]
    · rw [List.getD_append_right _ _ _ _ (by simp; omega), List.getD_eq_default M.cells _ (by omega)]
      simp [List.getD_eq_getElem?_getD, List.getElem?_replicate]
      split <;> rfl
  · rw [if_neg hj, List.getD_append_right _ _ _ _ (by omega), hlen]

/-! ## Slices and block copies -/

@[simp] theorem length_slice (M : Arr α) (off len : Nat) : (M.slice off len).length = len := by
  simp [slice]

theorem getD_slice (M : Arr α) (off len i : Nat) (h : i < len) :
    (M.slice off len).getD i default = M.get (off + i) := by
  simp [slice, List.getD_eq_getElem?_getD, h]

theorem getElem_slice (M : Arr α) (off len i : Nat) (h : i < (M.slice off len).length) :
    (M.slice off len)[i] = M.get (off + i) := by
  simp [slice]

theorem getElem?_slice (M : Arr α) {off len i : Nat} (h : i < len) :
    (M.slice off len)[i]? = some (M.get (off + i)) := by
  rw [List.getElem?_eq_getElem (by rwa [length_slice]), getElem_slice]

/-- Two slices agree as soon as the cells below them do. -/
theorem slice_congr {M N : Arr α} {a b len : Nat}
    (h : ∀ i, i < len → M.get (a + i) = N.get (b + i)) : M.slice a len = N.slice b len := by
  apply List.map_congr_left
  intro i hi
  exact h i (List.mem_range.mp hi)

/-- Equal slices have equal parts. -/
theorem slice_of_slice {M N : Arr α} {len a b : Nat} (h : M.slice 0 len = N.slice 0 len)
    (hab : a + b ≤ len) : M.slice a b = N.slice a b := by
  apply slice_congr
  intro i hi
  have hcell := congrArg (fun l => l.getD (a + i) default) h
  simp only [getD_slice _ 0 len _ (show a + i < len by omega), Nat.zero_add] at hcell
  exact hcell

theorem slice_add (M : Arr α) (off a b : Nat) :
    M.slice off (a + b) = M.slice off a ++ M.slice (off + a) b := by
  simp [slice, List.range_add, Nat.add_assoc]

theorem get_blit (M : Arr α) (off : Nat) (vs : List α) (j : Nat) :
    (M.blit off vs).get j =
      if off ≤ j ∧ j < off + vs.length then vs.getD (j - off) default else M.get j := by
  induction vs generalizing M off with
  | nil => rw [blit, if_neg (by simp only [List.length_nil]; omega)]
  | cons v vs ih =>
      rw [blit, ih]
      by_cases h1 : off + 1 ≤ j ∧ j < off + 1 + vs.length
      · rw [if_pos h1, if_pos (by simp only [List.length_cons]; omega)]
        obtain ⟨d, rfl⟩ : ∃ d, j = off + 1 + d := ⟨j - (off + 1), by omega⟩
        rw [show off + 1 + d - (off + 1) = d by omega, show off + 1 + d - off = d + 1 by omega]
        simp
      · rw [if_neg h1]
        by_cases h2 : j = off
        · subst h2
          simp
        · rw [get_set_ne _ _ h2, if_neg (by simp only [List.length_cons]; omega)]

theorem get_blit_of_lt (M : Arr α) {off j : Nat} (vs : List α) (h : j < off) :
    (M.blit off vs).get j = M.get j := by
  rw [get_blit, if_neg (by omega)]

theorem get_blit_of_ge (M : Arr α) {off j : Nat} (vs : List α) (h : off + vs.length ≤ j) :
    (M.blit off vs).get j = M.get j := by
  rw [get_blit, if_neg (by omega)]

/-- Two adjacent copies are one. -/
theorem blit_append (M : Arr α) (off : Nat) (vs ws : List α) :
    M.blit off (vs ++ ws) = (M.blit off vs).blit (off + vs.length) ws := by
  induction vs generalizing M off with
  | nil => rfl
  | cons v vs ih =>
      rw [List.cons_append, blit, blit, ih, List.length_cons,
        show off + 1 + vs.length = off + (vs.length + 1) by omega]

/-- What was copied is what is read back. -/
theorem slice_blit (M : Arr α) (off : Nat) (vs : List α) :
    (M.blit off vs).slice off vs.length = vs := by
  apply List.ext_getElem (by simp)
  intro i h1 h2
  rw [getElem_slice, get_blit, if_pos (by omega), show off + i - off = i by omega,
    List.getD_eq_getElem vs default h2]

/-- Copying elsewhere leaves a slice alone. -/
theorem slice_blit_of_disjoint (M : Arr α) (off : Nat) (vs : List α) (a len : Nat)
    (h : a + len ≤ off ∨ off + vs.length ≤ a) :
    (M.blit off vs).slice a len = M.slice a len := by
  apply slice_congr
  intro i hi
  rw [get_blit, if_neg (by omega)]

end Arr

end Meds.Core
