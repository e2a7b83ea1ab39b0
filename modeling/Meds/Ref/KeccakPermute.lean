/-
  Meds.Ref.KeccakPermute

  ref/fips202.c: `KeccakF1600_StatePermute`.

  The source keeps the 25 lanes in variables and writes two rounds out, the
  second with the names of the first exchanged; here a round is one function,
  and the loop runs two of them.  It is Keccak-f[1600]: every assignment of a
  round combines the five lanes that `pi` and `chi` bring together
  (`keccakRound_lanes`), and the table holds the round constants.
-/

import Meds.Core.KeccakF
import Meds.Core.Loop
import Mathlib.Data.Fintype.Basic
import Mathlib.Tactic.FinCases
import Mathlib.Tactic.IntervalCases

namespace Meds.Ref

open Meds.Core

/-- `NROUNDS`. -/
def nrounds : Nat := 24

/-- `ROL(a, offset)`. -/
def rol (a : UInt64) (offset : Nat) : UInt64 :=
  (a <<< UInt64.ofNat offset) ^^^ (a >>> UInt64.ofNat (64 - offset))

def keccakFRoundConstants : List UInt64 :=
  [0x0000000000000001, 0x0000000000008082, 0x800000000000808a, 0x8000000080008000,
    0x000000000000808b, 0x0000000080000001, 0x8000000080008081, 0x8000000000008009,
    0x000000000000008a, 0x0000000000000088, 0x0000000080008009, 0x000000008000000a,
    0x000000008000808b, 0x800000000000008b, 0x8000000000008089, 0x8000000000008003,
    0x8000000000008002, 0x8000000000000080, 0x000000000000800a, 0x800000008000000a,
    0x8000000080008081, 0x8000000000008080, 0x0000000080000001, 0x8000000080008008]

/-- The variables `Aba, …, Asu`, and `Eba, …, Esu`. -/
structure KeccakVars where
  (ba be bi bo bu : UInt64)
  (ga ge gi go gu : UInt64)
  (ka ke ki ko ku : UInt64)
  (ma me mi mo mu : UInt64)
  (sa se si so su : UInt64)

/-- `copyFromState(A, state)`. -/
def copyFromState (state : Vector UInt64 25) : KeccakVars where
  ba := state[0]
  be := state[1]
  bi := state[2]
  bo := state[3]
  bu := state[4]
  ga := state[5]
  ge := state[6]
  gi := state[7]
  go := state[8]
  gu := state[9]
  ka := state[10]
  ke := state[11]
  ki := state[12]
  ko := state[13]
  ku := state[14]
  ma := state[15]
  me := state[16]
  mi := state[17]
  mo := state[18]
  mu := state[19]
  sa := state[20]
  se := state[21]
  si := state[22]
  so := state[23]
  su := state[24]

/-- `copyToState(state, A)`. -/
def copyToState (A : KeccakVars) : Vector UInt64 25 :=
  #v[A.ba, A.be, A.bi, A.bo, A.bu,
    A.ga, A.ge, A.gi, A.go, A.gu,
    A.ka, A.ke, A.ki, A.ko, A.ku,
    A.ma, A.me, A.mi, A.mo, A.mu,
    A.sa, A.se, A.si, A.so, A.su]

/-- One round, from the variables `A` to the variables `E`. -/
def keccakRound (rc : UInt64) (A : KeccakVars) : KeccakVars :=
  -- prepareTheta
  let BCa := A.ba ^^^ A.ga ^^^ A.ka ^^^ A.ma ^^^ A.sa
  let BCe := A.be ^^^ A.ge ^^^ A.ke ^^^ A.me ^^^ A.se
  let BCi := A.bi ^^^ A.gi ^^^ A.ki ^^^ A.mi ^^^ A.si
  let BCo := A.bo ^^^ A.go ^^^ A.ko ^^^ A.mo ^^^ A.so
  let BCu := A.bu ^^^ A.gu ^^^ A.ku ^^^ A.mu ^^^ A.su
  -- thetaRhoPiChiIotaPrepareTheta
  let Da := BCu ^^^ rol BCe 1
  let De := BCa ^^^ rol BCi 1
  let Di := BCe ^^^ rol BCo 1
  let Do := BCi ^^^ rol BCu 1
  let Du := BCo ^^^ rol BCa 1
  let Aba := A.ba ^^^ Da
  let BCa := Aba
  let Age := A.ge ^^^ De
  let BCe := rol Age 44
  let Aki := A.ki ^^^ Di
  let BCi := rol Aki 43
  let Amo := A.mo ^^^ Do
  let BCo := rol Amo 21
  let Asu := A.su ^^^ Du
  let BCu := rol Asu 14
  let Eba := BCa ^^^ (~~~BCe &&& BCi)
  let Eba := Eba ^^^ rc
  let Ebe := BCe ^^^ (~~~BCi &&& BCo)
  let Ebi := BCi ^^^ (~~~BCo &&& BCu)
  let Ebo := BCo ^^^ (~~~BCu &&& BCa)
  let Ebu := BCu ^^^ (~~~BCa &&& BCe)
  let Abo := A.bo ^^^ Do
  let BCa := rol Abo 28
  let Agu := A.gu ^^^ Du
  let BCe := rol Agu 20
  let Aka := A.ka ^^^ Da
  let BCi := rol Aka 3
  let Ame := A.me ^^^ De
  let BCo := rol Ame 45
  let Asi := A.si ^^^ Di
  let BCu := rol Asi 61
  let Ega := BCa ^^^ (~~~BCe &&& BCi)
  let Ege := BCe ^^^ (~~~BCi &&& BCo)
  let Egi := BCi ^^^ (~~~BCo &&& BCu)
  let Ego := BCo ^^^ (~~~BCu &&& BCa)
  let Egu := BCu ^^^ (~~~BCa &&& BCe)
  let Abe := A.be ^^^ De
  let BCa := rol Abe 1
  let Agi := A.gi ^^^ Di
  let BCe := rol Agi 6
  let Ako := A.ko ^^^ Do
  let BCi := rol Ako 25
  let Amu := A.mu ^^^ Du
  let BCo := rol Amu 8
  let Asa := A.sa ^^^ Da
  let BCu := rol Asa 18
  let Eka := BCa ^^^ (~~~BCe &&& BCi)
  let Eke := BCe ^^^ (~~~BCi &&& BCo)
  let Eki := BCi ^^^ (~~~BCo &&& BCu)
  let Eko := BCo ^^^ (~~~BCu &&& BCa)
  let Eku := BCu ^^^ (~~~BCa &&& BCe)
  let Abu := A.bu ^^^ Du
  let BCa := rol Abu 27
  let Aga := A.ga ^^^ Da
  let BCe := rol Aga 36
  let Ake := A.ke ^^^ De
  let BCi := rol Ake 10
  let Ami := A.mi ^^^ Di
  let BCo := rol Ami 15
  let Aso := A.so ^^^ Do
  let BCu := rol Aso 56
  let Ema := BCa ^^^ (~~~BCe &&& BCi)
  let Eme := BCe ^^^ (~~~BCi &&& BCo)
  let Emi := BCi ^^^ (~~~BCo &&& BCu)
  let Emo := BCo ^^^ (~~~BCu &&& BCa)
  let Emu := BCu ^^^ (~~~BCa &&& BCe)
  let Abi := A.bi ^^^ Di
  let BCa := rol Abi 62
  let Ago := A.go ^^^ Do
  let BCe := rol Ago 55
  let Aku := A.ku ^^^ Du
  let BCi := rol Aku 39
  let Ama := A.ma ^^^ Da
  let BCo := rol Ama 41
  let Ase := A.se ^^^ De
  let BCu := rol Ase 2
  let Esa := BCa ^^^ (~~~BCe &&& BCi)
  let Ese := BCe ^^^ (~~~BCi &&& BCo)
  let Esi := BCi ^^^ (~~~BCo &&& BCu)
  let Eso := BCo ^^^ (~~~BCu &&& BCa)
  let Esu := BCu ^^^ (~~~BCa &&& BCe)
  { ba := Eba, be := Ebe, bi := Ebi, bo := Ebo, bu := Ebu,
    ga := Ega, ge := Ege, gi := Egi, go := Ego, gu := Egu,
    ka := Eka, ke := Eke, ki := Eki, ko := Eko, ku := Eku,
    ma := Ema, me := Eme, mi := Emi, mo := Emo, mu := Emu,
    sa := Esa, se := Ese, si := Esi, so := Eso, su := Esu }

def keccakF1600StatePermute (state : Vector UInt64 25) : Vector UInt64 25 :=
  copyToState (forUp 0 (nrounds / 2)
    (fun i A =>
      let round := 2 * i
      keccakRound (keccakFRoundConstants.getD (round + 1) 0)
        (keccakRound (keccakFRoundConstants.getD round 0) A))
    (copyFromState state))

/-! ## A round -/

theorem rol_eq {a : UInt64} {offset : Nat} (h1 : 0 < offset) (h2 : offset < 64) :
    rol a offset = KeccakF.rotl a offset := by
  -- both shifts are by less than 64
  have hshift : ∀ n, n < 64 → ((UInt64.ofNat n).toBitVec % 64).toNat = n := by
    intro n hn
    rw [BitVec.toNat_umod, UInt64.toNat_toBitVec, UInt64.toNat_ofNat_of_lt' (by
      change n < 2 ^ 64
      omega)]
    exact Nat.mod_eq_of_lt hn
  apply UInt64.toBitVec_inj.mp
  rw [rol, UInt64.toBitVec_xor, UInt64.toBitVec_shiftLeft, UInt64.toBitVec_shiftRight,
    BitVec.shiftLeft_eq', BitVec.ushiftRight_eq', hshift _ h2, hshift _ (by omega), KeccakF.rotl]
  apply BitVec.eq_of_getLsbD_eq
  intro z hz
  rw [BitVec.getLsbD_rotateLeft_of_le h2, BitVec.getLsbD_xor, BitVec.getLsbD_shiftLeft,
    BitVec.getLsbD_ushiftRight]
  by_cases hlt : z < offset
  · simp [hlt, hz]
  · rw [BitVec.getLsbD_of_ge _ (64 - offset + z) (by omega)]
    simp [hlt, hz]

/-- The lanes of a state, row after row. -/
def lanesOf (state : Vector UInt64 25) : KeccakF.Lanes := fun x y => state[5 * y.val + x.val]

theorem rhoOffset_table (x y : Fin 5) :
    KeccakF.rhoOffset x y = [0, 1, 62, 28, 27, 36, 44, 6, 55, 20, 3, 10, 43, 25, 39, 41, 45, 15, 21,
      8, 18, 2, 61, 56, 14].getD (5 * y.val + x.val) 0 := by
  revert x y
  decide

/-- The round of the source is the round on words. -/
theorem keccakRound_lanes (rc : UInt64) (A : KeccakVars) :
    lanesOf (copyToState (keccakRound rc A)) = KeccakF.roundLanes rc (lanesOf (copyToState A)) := by
  have hrol : ∀ a o, 0 < o → o < 64 → rol a o = KeccakF.rotl a o := fun _ _ h1 h2 => rol_eq h1 h2
  funext x y
  unfold KeccakF.roundLanes KeccakF.iotaLanes KeccakF.chiLanes KeccakF.piLanes KeccakF.rhoLanes
  simp only [rhoOffset_table]
  unfold keccakRound
  simp (disch := decide) only [hrol]
  -- the source does not rotate `Aba`
  rw [← KeccakF.rotl_zero (A.ba ^^^ (_ ^^^ KeccakF.rotl _ 1))]
  fin_cases x <;> fin_cases y <;> rfl

theorem copyToState_copyFromState (state : Vector UInt64 25) :
    copyToState (copyFromState state) = state := by
  ext i hi
  interval_cases i <;> rfl

/-- The table of the source holds the round constants. -/
theorem keccakFRoundConstants_eq {ir : Nat} (h : ir < 24) :
    (keccakFRoundConstants.getD ir 0).toNat = KeccakF.roundConstant ir := by
  revert ir
  decide +kernel

/-- Two rounds for every round of the loop. -/
theorem permuteLoop_lanes (A : KeccakVars) {n : Nat} (hn : 2 * n ≤ nrounds) :
    KeccakF.bits (lanesOf (copyToState (forUp 0 n
        (fun i A =>
          let round := 2 * i
          keccakRound (keccakFRoundConstants.getD (round + 1) 0)
            (keccakRound (keccakFRoundConstants.getD round 0) A)) A)))
      = (List.range (2 * n)).foldl (fun A ir => KeccakF.round ir A)
          (KeccakF.bits (lanesOf (copyToState A))) := by
  induction n with
  | zero => rfl
  | succ n ih =>
      have hn' : 2 * n + 2 ≤ 24 := hn
      rw [forUp_succ (Nat.zero_le n)]
      simp only
      rw [keccakRound_lanes, KeccakF.bits_round (keccakFRoundConstants_eq (by omega)),
        keccakRound_lanes, KeccakF.bits_round (keccakFRoundConstants_eq (by omega)),
        ih (show 2 * n ≤ 24 by omega), Nat.mul_succ, List.range_succ, List.range_succ,
        List.foldl_append, List.foldl_append]
      rfl

/-- `KeccakF1600_StatePermute` is Keccak-f[1600], for every state. -/
theorem keccakF1600StatePermute_eq (state : Vector UInt64 25) :
    KeccakF.bits (lanesOf (keccakF1600StatePermute state))
      = KeccakF.keccakF (KeccakF.bits (lanesOf state)) := by
  rw [keccakF1600StatePermute, permuteLoop_lanes _ (show 2 * (nrounds / 2) ≤ nrounds by decide),
    copyToState_copyFromState]
  rfl

end Meds.Ref
