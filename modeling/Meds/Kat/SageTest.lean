/-
  Meds.Kat.SageTest

  sage-ref/KAT_test.sage: the script.

  The script writes the same two files.  It reads the request file line by line
  and takes a line apart with `remove_prefix`, where the C program looks for a
  marker.  The files are ASCII and have no `\r`.  Logging, the arguments and the
  standard output are left out.
-/

import Meds.Kat.Requests
import Meds.Sage.MedsSign

namespace Meds.Kat.Sage

open Meds.Core Meds.Ref Meds.Sage

/-! ## Lines and numbers -/

/-- What the script may raise. -/
inductive ScriptError where
  | meds (e : Meds.Sage.PyError)
  | drbg (e : DrbgError)
  | assertionError
  | valueError
deriving DecidableEq, Repr

/-- `readline()`: a line, and the rest of the file. -/
def readline : List UInt8 → List UInt8 × List UInt8
  | [] => ([], [])
  | c :: file => if c = newline then ([c], file) else (c :: (readline file).1, (readline file).2)

/-- `remove_prefix`. -/
def removePrefix (txt pre : List UInt8) : Run ScriptError (List UInt8) :=
  if pre.isPrefixOf txt then pure (txt.drop pre.length) else Run.fail .assertionError

/-- The digits of `int`; a `_` may stand between two of them. -/
def intDigits : List UInt8 → Nat → Bool → Option Nat
  | [], n, digit => if digit then some n else none
  | c :: l, n, digit =>
    if isDigit c then intDigits l (10 * n + (c.toNat - 48)) true
    else if c = 95 ∧ digit then intDigits l n false
    else none

/-- `int` of a text. -/
def intOf (txt : List UInt8) : Run ScriptError Int :=
  let l := strip txt
  let digits := if l.head? = some 45 ∨ l.head? = some 43 then l.tail else l
  match intDigits digits 0 false with
  | none => Run.fail .valueError
  | some n => pure (if l.head? = some 45 then -(n : Int) else n)

/-- `binascii.unhexlify`. -/
def unhexlify : List UInt8 → Option (List UInt8)
  | [] => some []
  | [_] => none
  | a :: b :: l => do
    let x ← hexValue a
    let y ← hexValue b
    let data ← unhexlify l
    some (UInt8.ofNat (16 * x + y) :: data)

/-- `remove_prefix(req.readline().strip(), name)`, and the rest of the file. -/
def readField (req name : List UInt8) : Run ScriptError (List UInt8 × List UInt8) := do
  let (line, req) := readline req
  let data ← removePrefix (strip line) name
  pure (data, req)

/-- The lines behind a test case: four fields without a value, and an empty line. -/
def skipFields (req : List UInt8) : Run ScriptError (List UInt8) := do
  let (_, req) ← readField req (text "pk =")
  let (_, req) ← readField req (text "sk =")
  let (_, req) ← readField req (text "smlen =")
  let (_, req) ← readField req (text "sm =")
  let (_, req) := readline req
  pure req

/-- The line of bytes `data` in hexadecimal. -/
def hexLine (name data : List UInt8) : List UInt8 := name ++ data.flatMap hex2 ++ [newline]

/-! ## The script -/

section

variable (P : Params) (SHAKE256 : Shake) (AES256 : BlockFunction 16)

/-- A round of the loop that writes the request file. -/
def writeRequest (count : Nat) (s : List UInt8 × DrbgGlobals) :
    Run DrbgError (List UInt8 × DrbgGlobals) := do
  let req := s.1 ++ (text "count = " ++ decimal count ++ [newline])
  let (seed, g) ← Meds.Sage.randombytes AES256 48 s.2
  let req := req ++ hexLine (text "seed = ") seed
  let mlen := 33 * (count + 1)
  let req := req ++ (text "mlen = " ++ decimal mlen ++ [newline])
  let (msg, g) ← Meds.Sage.randombytes AES256 mlen g
  let req := req ++ hexLine (text "msg = ") msg
  let req := req ++ text "pk =\n"
  let req := req ++ text "sk =\n"
  let req := req ++ text "smlen =\n"
  let req := req ++ text "sm =\n\n"
  pure (req, g)

/-- The request file of `count` test cases. -/
def writeRequests (count : Nat) : Run DrbgError (List UInt8 × DrbgGlobals) := do
  let g ← Meds.Sage.randombytesInit AES256 (List.range 48) none 256
  forUpM 0 count (writeRequest AES256) ([], g)

/-- The request file that is left, the response file and the generator. -/
structure ScriptVars where
  req : List UInt8
  rsp : List UInt8
  g : DrbgGlobals

variable [Fact P.p.Prime]

/-- A round of the loop that writes the response file. -/
def scriptRound (s : ScriptVars) : Run ScriptError (ScriptVars ⊕ List UInt8) :=
  let (line, req) := readline s.req
  let line := strip line
  if line = [] then pure (.inr s.rsp)
  else do
    let count ← removePrefix line (text "count = ")
    let count ← intOf count
    let rsp := s.rsp ++ (text "count = " ++ decimalInt count ++ [newline])
    let (seed, req) ← readField req (text "seed = ")
    let seed ← Run.ofOption .valueError (unhexlify seed)
    let rsp := rsp ++ hexLine (text "seed = ") seed
    let g ← Run.mapFault .drbg (Meds.Sage.randombytesInit AES256 (ints seed) none 256)
    let (mlen, req) ← readField req (text "mlen = ")
    let mlen ← intOf mlen
    let rsp := rsp ++ (text "mlen = " ++ decimalInt mlen ++ [newline])
    let (msg, req) ← readField req (text "msg = ")
    let msg ← Run.ofOption .valueError (unhexlify msg)
    let rsp := rsp ++ hexLine (text "msg = ") msg
    let (delta, g) ← Run.mapFault .drbg (Meds.Sage.randombytes AES256 P.secSeedBytes g)
    let (sk, pk) ← Run.mapFault .meds (Meds.Sage.cryptoSignKeypair P SHAKE256 delta)
    let rsp := rsp ++ hexLine (text "pk = ") pk
    let rsp := rsp ++ hexLine (text "sk = ") sk
    let (delta, g) ← Run.mapFault .drbg (Meds.Sage.randombytes AES256 P.secSeedBytes g)
    let sm ← Run.mapFault .meds (Meds.Sage.cryptoSign P SHAKE256 delta sk msg)
    let rsp := rsp ++ (text "smlen = " ++ decimal sm.length ++ [newline])
    let rsp := rsp ++ hexLine (text "sm = ") sm ++ [newline]
    let msg1 ← Run.mapFault .meds (Meds.Sage.cryptoSignOpen P SHAKE256 pk sm)
    if msg.length ≠ msg1.length then Run.fail .assertionError
    else if msg ≠ msg1 then Run.fail .assertionError
    else do
      let req ← skipFields req
      pure (.inl ⟨req, rsp, g⟩)

/-- The script: the request file and the response file. -/
def main (name : List UInt8) (count : Nat) : Run ScriptError (List UInt8 × List UInt8) := do
  let (req, g) ← Run.mapFault .drbg (writeRequests AES256 count)
  let rsp ←
    Run.loop (scriptRound P SHAKE256 AES256) ⟨req, text "# " ++ name ++ text "\n\n", g⟩
  pure (req, rsp)

end

/-! ## What the lines hold -/

theorem readline_line {l : List UInt8} (hl : newline ∉ l) (rest : List UInt8) :
    readline (l ++ newline :: rest) = (l ++ [newline], rest) := by
  induction l with
  | nil => rfl
  | cons c l ih =>
      obtain ⟨hc, hl⟩ := not_or.mp fun h => hl (List.mem_cons.mpr h)
      rw [List.cons_append, readline, if_neg (Ne.symm hc), ih hl]
      rfl

theorem removePrefix_append (pre data : List UInt8) : removePrefix (pre ++ data) pre = pure data := by
  rw [removePrefix, if_pos (List.isPrefixOf_iff_prefix.mpr (List.prefix_append _ _)), List.drop_left]

/-- A line of a name and of what has no white space. -/
theorem readField_line {c : UInt8} {a : List UInt8} (hc : isSpace c = false) (ha : newline ∉ c :: a)
    {data : List UInt8} (hne : data ≠ []) (hdata : ∀ x ∈ data, isSpace x = false) (rest : List UInt8) :
    readField (c :: a ++ (data ++ newline :: rest)) (c :: a) = pure (data, rest) := by
  have hline : newline ∉ c :: a ++ data := by
    rw [List.mem_append, not_or]
    exact ⟨ha, fun h => absurd (hdata _ h) (by decide)⟩
  have hread := readline_line hline rest
  rw [List.append_assoc] at hread
  rw [readField, hread]
  simp only [strip_line hc a hne hdata, removePrefix_append, pure_bind]

theorem intDigits_digits {l : List UInt8} (hl : ∀ x ∈ l, isDigit x = true) (n : Nat) :
    intDigits l n true = some (l.foldl (fun n c => 10 * n + (c.toNat - 48)) n) := by
  induction l generalizing n with
  | nil => rfl
  | cons c l ih =>
      rw [intDigits, if_pos (hl c List.mem_cons_self), ih fun x hx => hl x (List.mem_cons_of_mem c hx)]
      rfl

/-- `int` reads a number back. -/
theorem intOf_decimal (n : Nat) : intOf (decimal n) = pure (n : Int) := by
  obtain ⟨c, l, hl⟩ := List.exists_cons_of_ne_nil (decimal_ne_nil n)
  have hdigit : ∀ x ∈ c :: l, isDigit x = true := fun x hx => isDigit_decimal (n := n) (hl ▸ hx)
  obtain ⟨h1, h2⟩ := mem_decimal (show c ∈ decimal n by rw [hl]; exact List.mem_cons_self)
  have hne : ∀ y : UInt8, y.toNat < 48 → ¬ ((c :: l).head? = some y) := by
    intro y hy h
    rw [List.head?_cons, Option.some.injEq] at h
    rw [h] at h1
    omega
  have hvalue : intDigits (c :: l) 0 false = some n := by
    rw [intDigits, if_pos (hdigit c List.mem_cons_self),
      intDigits_digits fun x hx => hdigit x (List.mem_cons_of_mem c hx)]
    rw [← digitsValue_decimal n, hl]
    rfl
  rw [intOf, strip_of_noSpace fun x hx => isSpace_of_mem_decimal hx]
  simp only [hl, if_neg (not_or.mpr ⟨hne 45 (by decide), hne 43 (by decide)⟩), hvalue,
    if_neg (hne 45 (by decide))]

/-- `unhexlify` reads bytes back. -/
theorem unhexlify_hex (l : List UInt8) : unhexlify (l.flatMap hex2) = some l := by
  induction l with
  | nil => rfl
  | cons x l ih =>
      have hx := x.toNat_lt
      have hbyte : UInt8.ofNat (16 * (x.toNat / 16) + x.toNat % 16) = x := by
        rw [Nat.div_add_mod, UInt8.ofNat_toNat]
      rw [List.flatMap_cons, hex2]
      change unhexlify (_ :: _ :: l.flatMap hex2) = _
      rw [unhexlify, hexValue_hexDigit (show x.toNat / 16 < 16 by omega),
        hexValue_hexDigit (Nat.mod_lt x.toNat (by decide)), ih]
      change some (_ :: l) = _
      rw [hbyte]

/-- The two programs write a field that is not empty the same way. -/
theorem fprintBstr_eq_hexLine {data : List UInt8} (h : data ≠ []) (name : List UInt8) :
    fprintBstr name data = hexLine name data := by
  rw [fprintBstr, if_neg h, hexLine]

end Meds.Kat.Sage
