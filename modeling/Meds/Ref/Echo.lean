/-
  Meds.Ref.Echo

  A device and a host that stores every matrix it receives.

  The log of a session is what the host has: the matrices in the order they
  came, how many it has sent back, and the byte strings.  Which matrix a read
  is answered with is the script `answer`.  The rest of the module is what
  the memory-reduced build needs to be compared with meds_serial.c: its
  buffer holds the same cells as G_0, though not the same object.
-/

import Meds.Core.Session
import Meds.Ref.SignSpec
import Meds.Ref.Stream

namespace Meds.Ref

open Meds.Core

/-- What has passed between device and host. -/
structure Echo where
  sent : List (Arr UInt16)
  reads : Nat
  chunks : List (List UInt8)
deriving DecidableEq

/-- Nothing has passed yet. -/
def Echo.start : Echo := { sent := [], reads := 0, chunks := [] }

/-- The host answers read `k` with `answer sent k` and holds the secret key. -/
def echoHal (answer : List (Arr UInt16) → Nat → Arr UInt16) (sk : List UInt8) :
    Hal (Session Echo Fault) where
  putchar _ := pure ()
  getchar := pure 0x31
  writeStream M L := Session.emit fun e => { e with sent := e.sent ++ [⟨M.slice 0 L⟩] }
  readStream L := fun e =>
    pure (⟨(answer e.sent e.reads).slice 0 L⟩, { e with reads := e.reads + 1 })
  writeStreamStr _ A :=
    Session.emit fun e => { e with chunks := e.chunks ++ [if A = [] then [0] else A] }
  readStreamStr L := pure (sk.take L)
  run := Session.lift
  loop := Session.loop

section

variable {answer : List (Arr UInt16) → Nat → Arr UInt16} {sk : List UInt8} {e : Echo}

theorem ends_putchar (c : UInt8) : Session.Ends ((echoHal answer sk).putchar c) e () e :=
  Session.ends_pure () e

theorem ends_getchar : Session.Ends (echoHal answer sk).getchar e 0x31 e :=
  Session.ends_pure 0x31 e

theorem ends_writeStream (M : Arr UInt16) (L : Nat) :
    Session.Ends ((echoHal answer sk).writeStream M L) e ()
      { e with sent := e.sent ++ [⟨M.slice 0 L⟩] } :=
  Session.ends_emit _ e

theorem ends_readStream (L : Nat) :
    Session.Ends ((echoHal answer sk).readStream L) e ⟨(answer e.sent e.reads).slice 0 L⟩
      { e with reads := e.reads + 1 } :=
  Run.returns_pure.mpr rfl

theorem ends_writeStreamStr (S : String) (A : List UInt8) :
    Session.Ends ((echoHal answer sk).writeStreamStr S A) e ()
      { e with chunks := e.chunks ++ [if A = [] then [0] else A] } :=
  Session.ends_emit _ e

theorem ends_readStreamStr (L : Nat) :
    Session.Ends ((echoHal answer sk).readStreamStr L) e (sk.take L) e :=
  Session.ends_pure _ e

theorem ends_run {α : Type} {x : Run Fault α} {a : α} (h : x.Returns a) :
    Session.Ends ((echoHal answer sk).run x) e a e :=
  Session.ends_lift h e

end

deriving instance DecidableEq for KeyMatrices

/-! ## Buffers with the same cells -/

variable {P : Params}

/-- The first `len` cells of two buffers agree. -/
def SameCells (len : Nat) (G H : Arr UInt16) : Prop := ∀ idx, idx < len → G.get idx = H.get idx

theorem SameCells.slice_eq {len : Nat} {G H : Arr UInt16} (h : SameCells len G H) :
    G.slice 0 len = H.slice 0 len :=
  Arr.slice_congr fun i hi => by rw [Nat.zero_add]; exact h i hi

/-- A matrix that was sent keeps its cells. -/
theorem sameCells_slice (M : Arr UInt16) (len : Nat) : SameCells len ⟨M.slice 0 len⟩ M := by
  intro idx hidx
  rw [Arr.get_mk, Arr.getD_slice _ _ _ _ hidx, Nat.zero_add]

theorem genLen_eq (hP : P.Square) : P.k * P.m * P.n = P.n * P.n * P.n := by
  rw [hP.k_eq, hP.m_eq]

/-- `solve` looks at the first two rows only. -/
theorem solve_congr {G H : Arr UInt16} (h : SameCells (P.m * P.n + P.m * P.n) G H) (Amm : Nat) :
    solve P G Amm = solve P H Amm := by
  have h0 : forUp 0 (P.m * P.n) (fun i M => M.set i (G.get i)) Arr.empty
      = forUp 0 (P.m * P.n) (fun i M => M.set i (H.get i)) Arr.empty :=
    forUp_congr (fun i M _ hi => by rw [h i (by omega)]) _
  have h1 : forUp 0 (P.m * P.n) (fun i M => M.set i (G.get (i + P.m * P.n))) Arr.empty
      = forUp 0 (P.m * P.n) (fun i M => M.set i (H.get (i + P.m * P.n))) Arr.empty :=
    forUp_congr (fun i M _ hi => by rw [h (i + P.m * P.n) (by omega)]) _
  unfold solve
  rw [h0, h1]

theorem solveInvert_congr {G H : Arr UInt16} (h : SameCells (P.m * P.n + P.m * P.n) G H)
    (Amm : Nat) : solveInvert P G Amm = solveInvert P H Amm := by
  rw [solveInvert, solveInvert, solve_congr h]

section

variable [hprime : Fact P.p.Prime]

/-- In place, the product with Ti leaves what `pmod_mat_mul` computes. -/
theorem tiMulInPlace_same (hP : P.Square) {Ti G0 G : Arr UInt16}
    (h : SameCells (P.n * P.n * P.n) G G0) :
    SameCells (P.n * P.n * P.n) (tiMulInPlace P Ti G) (tiMul P Ti G0) := by
  have hp := hP.p_le_16
  have hmul := pmodMatMul_spec P.k (P.m * P.n) P.k P.k (P.m * P.n) (P := P)
    (A := Ti) (B := G0) (C := Arr.empty) hprime.out.pos hp
  have htmp := pmodMatMulRevise_spec P.k (P.m * P.n) P.k P.k (P.m * P.n) (P := P)
    (A := Ti) (B := G) (Arr.replicate (P.k * P.m * P.n) 0) hprime.out.pos hp
  unfold tiMulInPlace tiMul
  simp only
  generalize pmodMatMulRevise P (Arr.replicate (P.k * P.m * P.n) 0) P.k (P.m * P.n) Ti P.k P.k G
    (P.m * P.n) = tmp at htmp ⊢
  -- the product is formed in a temporary and copied back column by column
  obtain ⟨hin, -⟩ := fill2_spec 0 (P.m * P.n) 0 P.k
    (ι := fun c r => P.m * P.n * r + c) (M := G)
    (g := fun c r => UInt16.ofNat (tmp.get (r * P.m * P.n + c)).toNat)
    (fun c r c' r' _ hc _ _ _ hc' _ _ h => (flat_inj hc hc' h).symm)
  intro idx hidx
  obtain ⟨r, c, hr, hc, rfl⟩ := exists_flat_nat hidx
  have hmn : P.n * P.n = P.m * P.n := by rw [hP.m_eq]
  rw [← hP.k_eq] at hr
  rw [hmn] at hc ⊢
  have hcell := hin c r (Nat.zero_le _) hc (Nat.zero_le _) hr
  have hoff : r * P.m * P.n = P.m * P.n * r := by rw [Nat.mul_assoc, Nat.mul_comm]
  rw [UInt16.ofNat_toNat, hoff] at hcell
  -- the two products sum up the same entries
  have heq : pmodMatEntry tmp (P.m * P.n) r c
      = pmodMatEntry (pmodMatMul P Arr.empty P.k (P.m * P.n) Ti P.k P.k G0 (P.m * P.n))
          (P.m * P.n) r c := by
    rw [htmp.entry r c hr hc, hmul.entry r c hr hc]
    refine congrArg (· % P.p) (Finset.sum_congr rfl fun i hi => ?_)
    rw [pmodMatEntry, pmodMatEntry, pmodMatEntry, h _ ?_]
    rw [hmn]
    exact flat_lt (hP.k_eq ▸ Finset.mem_range.mp hi) hc
  exact hcell.trans (UInt16.toNat_inj.mp heq)

/-- `pi` in place and `pmod_mat_syst_ct`, against `pi` from G_0. -/
theorem systCt_piInPlace (hP : P.Square) (A B : Arr UInt16) {G0 G : Arr UInt16}
    (h : SameCells (P.n * P.n * P.n) G G0)
    (hret : (pmodMatSystCt P (pi P A B G0) P.k (P.m * P.n)).1 = 0) :
    (pmodMatSystCt P (piInPlace P A B G) P.k (P.m * P.n)).1 = 0 ∧
      SameCells (P.n * P.n * P.n) (pmodMatSystCt P (piInPlace P A B G) P.k (P.m * P.n)).2
        (pmodMatSystCt P (pi P A B G0) P.k (P.m * P.n)).2 := by
  have hp := hP.p_le_16
  have hpi := pi_spec hP.m_eq hP.k_eq hprime.out.pos hp A B G0
  have hin := piInPlace_spec hP.m_eq hP.k_eq hprime.out.pos hp A B G
  -- both are G_0 times the same matrix
  have hgen : gen P (piInPlace P A B G) = gen P (pi P A B G0) := by
    rw [gen, gen, hpi.block_eq, hin.block_eq]
    exact congrArg (· * _) (gen_congr h)
  have hsame := get_eq_of_gen_eq hin.reduced hpi.reduced hgen
  rw [hP.k_eq, hP.m_eq] at hret ⊢
  have hlead : block P.n P.n (ent P (P.n * P.n) (piInPlace P A B G))
      = block P.n P.n (ent P (P.n * P.n) (pi P A B G0)) := by
    ext i j
    rw [block_apply, block_apply, ent, ent, pmodMatEntry, pmodMatEntry,
      hsame _ (flat_lt i.isLt (j.isLt.trans_le (le_sq P)))]
  rcases pmodMatSystCt_spec P.n (P.n * P.n) (P := P) hpi.reduced (le_sq P) hp with
    ⟨hunit, -, hS⟩ | ⟨-, hbad⟩
  case inr =>
    rw [hbad] at hret
    exact absurd hret (by decide)
  rcases pmodMatSystCt_spec P.n (P.n * P.n) (P := P) hin.reduced (le_sq P) hp with
    ⟨-, hret', hS'⟩ | ⟨hdet, -⟩
  case inr =>
    rw [hlead] at hdet
    exact absurd (hdet ▸ hunit) not_isUnit_zero
  refine ⟨hret', get_eq_of_gen_eq hS'.reduced hS.reduced ?_⟩
  rw [gen, gen, hS'.block_eq, hS.block_eq, hlead]
  exact congrArg (_ * ·) hgen

end

end Meds.Ref
