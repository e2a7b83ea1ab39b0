/-
  Meds.Sage.Solvers

  `solve_symb`, `solve_opt` and `solve_comp` of sage-ref/util.py, for m = n.

  All three solve for A and B⁻¹ with A P0 = B⁻¹, A P1 equal to the shifted B⁻¹
  but for its last entry, and a given last entry of A.  `solve_symb` writes the
  equations down with polynomials, `solve_comp` with a table of coefficients,
  and `solve_opt` reduces the small system of one row.
-/

import Meds.Core.LinearSystem
import Meds.Core.RowSystem
import Meds.Sage.Util

namespace Meds.Sage

open Meds.Core Meds.Ref

section

variable {q n : Nat}

/-- What a solver reports: no solution, or A and B⁻¹. -/
abbrev Answer (q n : Nat) := Option (Mat q n n × Mat q n n)

/-- `Pj[0]`. -/
def pj0 (i j : Nat) : ZMod q := if i = j then 1 else 0

/-- `Pj[1]`: row `i` is the unit vector `i + 1`, the last row is zero. -/
def pj1 (m i j : Nat) : ZMod q := if i + 1 < m then (if j = i + 1 then 1 else 0) else 0

/-- The echelon form of `rsys`, the test on its diagonal, and A and B⁻¹ from its last column. -/
def solveRsys [Fact q.Prime] (ncols : Nat) (rsys : List (List (ZMod q))) (Amm : ZMod q) :
    Except PyError (Answer q n) :=
  let rref := echelon rsys.length ncols fun i j => (rsys.getD i []).getD j 0
  if ncols < rsys.length then throw .indexError
  else if ∀ i, i < rsys.length → rref i i = 1 then
    let sol := (List.range rsys.length).map fun i => rref i (ncols - 1)
    pure (some (matrixOf q n n (sol.drop (n * n) ++ [Amm]), matrixOf q n n (sol.take (n * n))))
  else pure none

/-! ## solve_symb -/

/-- A polynomial of degree at most one: the coefficients of the generators of
    `R`, by their numbers, and the constant coefficient. -/
abbrev Affine (q : Nat) := (Nat → ZMod q) × ZMod q

/-- Generator `k` of `R`; the `b` come before the `a`. -/
def gen (k : Nat) : Affine q := (Pi.single k 1, 0)

/-- `A`, with `Amm` in its last entry. -/
def symbA (n : Nat) (Amm : ZMod q) (i j : Nat) : Affine q :=
  if i = n - 1 ∧ j = n - 1 then (0, Amm) else gen (n * n + i * n + j)

/-- `B_inv`. -/
def symbB (n i j : Nat) : Affine q := gen (i * n + j)

/-- `Pj * B_inv - A*P0prime`. -/
def symbEqs (Pj : Nat → Nat → ZMod q) (P : Mat q n n) (Amm : ZMod q) (i j : Nat) : Affine q :=
  ∑ x ∈ Finset.range n, Pj i x • symbB n x j - ∑ x ∈ Finset.range n, table P x j • symbA n Amm i x

/-- `eqs.coefficients()`: the entries row by row. -/
def coefficients (n : Nat) (eqs : Nat → Nat → Affine q) : List (Affine q) :=
  (List.range (n * n)).map fun r => eqs (r / n) (r % n)

/-- `solve_symb`. -/
def solveSymb [Fact q.Prime] (P0prime0 P0prime1 : Mat q n n) (Amm : ZMod q) :
    Except PyError (Answer q n) :=
  let m := n
  let eqs1 := symbEqs pj0 P0prime0 Amm
  let eqs2 := symbEqs (pj1 m) P0prime1 Amm
  let eqs := coefficients n eqs1 ++ (coefficients n eqs2).dropLast
  let gens := List.range (n * n + m * m - 1)
  solveRsys (n * n + m * m) (eqs.map fun eq => gens.map eq.1 ++ [-eq.2]) Amm

/-! ## solve_comp -/

/-- `m^2 + n^2` in plain Python: `^` is exclusive or, and `+` binds tighter. -/
def compColumns (m n : Nat) : Nat := m ^^^ (2 + n) ^^^ 2

/-- `tmp[i] = v`. -/
def setItem (tmp : List (ZMod q)) (i : Nat) (v : ZMod q) : Except PyError (List (ZMod q)) :=
  if i < tmp.length then pure (tmp.set i v) else throw .indexError

/-- The row `tmp` for the entry `(l, j)` of `Pj * B_inv = A*P0prime`. -/
def compRow (Pj : Nat → Nat → ZMod q) (P : Mat q n n) (Amm : ZMod q) (l j : Nat) :
    Except PyError (List (ZMod q)) := do
  let m := n
  let tmp := List.replicate (compColumns m n) 0
  let tmp ← forUpM 0 m (fun i tmp => setItem tmp (m * m + l * m + i) (-table P i j)) tmp
  let tmp ← forUpM 0 n (fun i tmp => setItem tmp (i * n + j) (Pj l i)) tmp
  if l = n - 1 then setItem tmp (m * m + n * n - 1) (Amm * table P (n - 1) j) else pure tmp

/-- The rows of one of the two products, appended to `rsys`; `cols l` of them for row `l`. -/
def compRows (Pj : Nat → Nat → ZMod q) (P : Mat q n n) (Amm : ZMod q) (cols : Nat → Nat)
    (rsys : List (List (ZMod q))) : Except PyError (List (List (ZMod q))) :=
  forUpM 0 n
    (fun l rsys =>
      forUpM 0 (cols l)
        (fun j rsys => do
          let tmp ← compRow Pj P Amm l j
          pure (rsys ++ [tmp]))
        rsys)
    rsys

/-- `solve_comp`. -/
def solveComp [Fact q.Prime] (P0prime0 P0prime1 : Mat q n n) (Amm : ZMod q) :
    Except PyError (Answer q n) := do
  let m := n
  let rsys ← compRows pj0 P0prime0 Amm (fun _ => m) []
  let rsys ← compRows (pj1 m) P0prime1 Amm (fun l => if l < n - 1 then m else m - 1) rsys
  solveRsys (compColumns m n) rsys Amm

/-! ## solve_opt -/

/-- `M[a, b] = v`. -/
def setEnt (a b : Nat) (v : ZMod q) (M : Nat → Nat → ZMod q) : Nat → Nat → ZMod q :=
  fun i j => if i = a ∧ j = b then v else M i j

/-- `M.add_multiple_of_row(a, b, s)`. -/
def addMultipleOfRow (a b : Nat) (s : ZMod q) (M : Nat → Nat → ZMod q) : Nat → Nat → ZMod q :=
  fun i j => if i = a then M i j + s * M b j else M i j

/-- `M.set_row_to_multiple_of_row(a, b, s)`. -/
def setRowToMultipleOfRow (a b : Nat) (s : ZMod q) (M : Nat → Nat → ZMod q) : Nat → Nat → ZMod q :=
  fun i j => if i = a then s * M b j else M i j

/-- `M` before it is reduced. -/
def optM (P0prime0 P0prime1 : Mat q n n) (Amm : ZMod q) : Nat → Nat → ZMod q :=
  let m := n
  let M : Nat → Nat → ZMod q := fun _ _ => 0
  let M := forUp 0 m (fun i M => forUp 0 n (fun j M => setEnt j i (-table P0prime1 i j) M) M) M
  let M := forUp 0 m (fun i M => forUp 0 n (fun j M => setEnt j (i + n) (table P0prime0 i j) M) M) M
  let M := forUp 0 n (fun j M => setEnt j (m + n) (-table P0prime0 (m - 1) j * Amm) M) M
  forUp 0 n (fun j M => setEnt j (m + n + 1) (table P0prime1 (m - 1) j * Amm) M) M

/-- The reduction of `M`; `none` when there is no solution. -/
def optReduce [Fact q.Prime] (n : Nat) (M : Nat → Nat → ZMod q) : Option (Nat → Nat → ZMod q) :=
  let m := n
  let Ms := echelon (n - 1) (m + m + 2) M
  let M := fun i j => if i < n - 1 then Ms i j else M i j
  if ¬ ∀ i, i < n - 1 → Ms i i = 1 then none
  else
    let M := forUp 0 (n - 1) (fun i M => addMultipleOfRow (n - 1) i (-M (n - 1) i) M) M
    if M (n - 1) (n - 1) = 0 then none
    else
      let M := setRowToMultipleOfRow (n - 1) (n - 1) (1 / M (n - 1) (n - 1)) M
      let M := setEnt (n - 1) (m + m + 1) 0 M
      some (forUp 0 (n - 1) (fun i M => addMultipleOfRow i (n - 1) (-M i (n - 1)) M) M)

/-- `sol[k] += v`. -/
def addTo (k : Nat) (v : ZMod q) (sol : Nat → ZMod q) : Nat → ZMod q :=
  Function.update sol k (sol k + v)

/-- `sol`, from the reduced `M`. -/
def optSol (P0prime0 : Mat q n n) (M : Nat → Nat → ZMod q) (Amm : ZMod q) : Nat → ZMod q :=
  let m := n
  let N := fun i j => -table P0prime0 j i
  let len := n * n + m * m
  let sol : Nat → ZMod q := fun _ => 0
  let sol := Function.update sol (len - 1) Amm
  let sol := forUp 0 (n - 1)
    (fun i sol => Function.update sol (len - n + i) (M i (m + m + 1))) sol
  let sol := forUp 0 n (fun i sol => Function.update sol (len - 2 * n + i) (M i (m + m))) sol
  let sol := forUp 0 n
    (fun i sol => Function.update sol (n * n - n + i) (table P0prime0 (m - 1) i * Amm)) sol
  -- incomplete blocks
  let sol := forUp 0 n
    (fun i sol =>
      forUp 0 (n - 1)
        (fun j sol =>
          let sol := addTo (len - 2 * n + i) (-M i (n + n - 2 - j) * sol (len - 2 - j)) sol
          addTo (n * n - n + i) (-N i (m - 2 - j) * sol (len - 2 - j)) sol)
        sol)
    sol
  -- complete blocks
  let sol := forUp 3 (n + 1)
    (fun block sol =>
      forUp 0 n
        (fun i sol =>
          forUp 0 n
            (fun j sol => addTo (len - block * n + i)
              (-M i (n + n - 1 - j) * sol (len - 1 - (block - 2) * n - j)) sol)
            sol)
        sol)
    sol
  forUp 2 (n + 1)
    (fun block sol =>
      forUp 0 n
        (fun i sol =>
          forUp 0 n
            (fun j sol => addTo (n * n - block * n + i)
              (-N i (m - 1 - j) * sol (len - 1 - (block - 1) * n - j)) sol)
            sol)
        sol)
    sol

/-- `solve_opt`. -/
def solveOpt [Fact q.Prime] (P0prime0 P0prime1 : Mat q n n) (Amm : ZMod q) :
    Except PyError (Answer q n) :=
  match optReduce n (optM P0prime0 P0prime1 Amm) with
  | none => pure none
  | some M =>
    let sol := optSol P0prime0 M Amm
    pure (some (Matrix.of fun i j => sol (n * n + (i * n + j)), Matrix.of fun i j => sol (i * n + j)))

end

end Meds.Sage
