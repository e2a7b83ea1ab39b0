/-
  Meds.Kat.Reading

  ref/KAT_test.c: `FindMarker`, `ReadHex`, `fprintBstr`, and `fscanf` as it is
  used there.

  A file is the list of its bytes; one that is read is what has not been read
  of it.  `FindMarker` keeps a window of the length of the marker and finds its
  first occurrence.  `ReadHex` shifts each digit into the whole array, so it
  reads a number modulo the size of the array.
-/

import Meds.Core.CtrDrbg
import Meds.Sage.KatText
import Mathlib.Tactic.Linarith
import Mathlib.Tactic.Ring

namespace Meds.Kat

open Meds.Core Meds.Ref

/-! ## FindMarker -/

/-- `MAX_MARKER_LEN`. -/
def maxMarkerLen : Nat := 50

/-- `while ( 1 )` of `FindMarker`; `none` where it returns 0 at the end of the
    file. -/
def findMarkerLoop (marker : List UInt8) : List UInt8 → List UInt8 → Option (List UInt8)
  | infile, line =>
    if line = marker then some infile
    else
      match infile with
      | [] => none
      | c :: infile => findMarkerLoop marker infile (line.tail ++ [c])

/-- `FindMarker`: the rest of the file behind the marker. -/
def findMarker (infile marker : List UInt8) : Option (List UInt8) :=
  let marker := marker.take (maxMarkerLen - 1)
  if infile.length < marker.length then none
  else findMarkerLoop marker (infile.drop marker.length) (infile.take marker.length)

/-- `l` has `m` behind `pre`, and not before. -/
def FirstAt (m l pre rest : List UInt8) : Prop :=
  l = pre ++ m ++ rest ∧ ∀ pre' rest', l = pre' ++ m ++ rest' → pre.length ≤ pre'.length

theorem firstAt_start {m l pre rest : List UInt8} :
    FirstAt m (m ++ l) pre rest ↔ pre = [] ∧ rest = l := by
  constructor
  · rintro ⟨h, hfirst⟩
    obtain rfl : pre = [] :=
      List.eq_nil_of_length_eq_zero (Nat.le_zero.mp (hfirst [] l rfl))
    exact ⟨rfl, (List.append_cancel_left h).symm⟩
  · rintro ⟨rfl, rfl⟩
    exact ⟨rfl, fun _ _ _ => Nat.zero_le _⟩

/-- Where the first bytes are not the marker, it is looked for from the next
    byte on. -/
theorem firstAt_next {m line l pre rest : List UInt8} {x : UInt8} (hlen : (x :: line).length = m.length)
    (hne : x :: line ≠ m) :
    FirstAt m (x :: line ++ l) pre rest ↔ ∃ pre', pre = x :: pre' ∧ FirstAt m (line ++ l) pre' rest := by
  have hstart : ∀ pre rest, x :: line ++ l = pre ++ m ++ rest → ∃ pre', pre = x :: pre' := by
    intro pre rest h
    cases pre with
    | nil => exact absurd (List.append_inj_left h hlen) hne
    | cons y pre =>
        rw [List.cons_append, List.cons_append, List.cons_append, List.cons.injEq] at h
        exact ⟨pre, by rw [h.1]⟩
  constructor
  · rintro ⟨h, hfirst⟩
    obtain ⟨pre', rfl⟩ := hstart pre rest h
    refine ⟨pre', rfl, (List.cons.inj h).2, fun pre'' rest' h' => ?_⟩
    exact Nat.le_of_succ_le_succ (hfirst (x :: pre'') rest' (congrArg (List.cons x) h'))
  · rintro ⟨pre', rfl, h, hfirst⟩
    refine ⟨congrArg (List.cons x) h, fun pre'' rest' h' => ?_⟩
    obtain ⟨pre'', rfl⟩ := hstart pre'' rest' h'
    exact Nat.succ_le_succ (hfirst pre'' rest' (List.cons.inj h').2)

theorem findMarkerLoop_eq (m : List UInt8) {infile line : List UInt8} (hlen : line.length = m.length)
    (rest : List UInt8) :
    findMarkerLoop m infile line = some rest ↔ ∃ pre, FirstAt m (line ++ infile) pre rest := by
  have hfound : ∀ infile, some infile = some rest ↔ ∃ pre, FirstAt m (m ++ infile) pre rest := by
    intro infile
    constructor
    · rintro h
      exact ⟨[], firstAt_start.mpr ⟨rfl, (Option.some.inj h).symm⟩⟩
    · rintro ⟨pre, h⟩
      rw [(firstAt_start.mp h).2]
  -- induction on the file: the window moves by one byte
  induction infile generalizing line with
  | nil =>
      rw [findMarkerLoop]
      by_cases heq : line = m
      · rw [if_pos heq, heq]
        exact hfound []
      · rw [if_neg heq]
        refine ⟨nofun, ?_⟩
        rintro ⟨pre, h, -⟩
        have hlen' := congrArg List.length h
        simp only [List.append_nil, List.length_append] at hlen'
        rw [List.eq_nil_of_length_eq_zero (show pre.length = 0 by omega),
          List.eq_nil_of_length_eq_zero (show rest.length = 0 by omega)] at h
        simp only [List.append_nil, List.nil_append] at h
        exact absurd h heq
  | cons c infile ih =>
      rw [findMarkerLoop]
      by_cases heq : line = m
      · rw [if_pos heq, heq]
        exact hfound (c :: infile)
      · rw [if_neg heq]
        cases line with
        | nil => exact absurd (List.eq_nil_of_length_eq_zero hlen.symm).symm heq
        | cons x line =>
            simp only [List.tail_cons, firstAt_next hlen heq, ih (show (line ++ [c]).length = m.length by
              simpa using hlen), List.append_assoc, List.singleton_append]
            exact ⟨fun ⟨pre, h⟩ => ⟨x :: pre, pre, rfl, h⟩, fun ⟨_, pre, _, h⟩ => ⟨pre, h⟩⟩

/-- `FindMarker` finds the first occurrence of what it compares of the marker. -/
theorem findMarker_eq (infile marker rest : List UInt8) :
    findMarker infile marker = some rest
      ↔ ∃ pre, FirstAt (marker.take (maxMarkerLen - 1)) infile pre rest := by
  rw [findMarker]
  generalize marker.take (maxMarkerLen - 1) = m
  by_cases hlen : infile.length < m.length
  · rw [if_pos hlen]
    refine ⟨nofun, ?_⟩
    rintro ⟨pre, rfl, -⟩
    simp only [List.length_append] at hlen
    omega
  · rw [if_neg hlen, findMarkerLoop_eq m (by rw [List.length_take]; omega), List.take_append_drop]

/-- A marker behind bytes without its first byte. -/
theorem findMarker_behind {pre : List UInt8} {c : UInt8} {m : List UInt8} (hpre : c ∉ pre)
    (hm : (c :: m).length < maxMarkerLen) (rest : List UInt8) :
    findMarker (pre ++ (c :: m) ++ rest) (c :: m) = some rest := by
  rw [findMarker_eq, List.take_of_length_le (Nat.le_sub_one_of_lt hm)]
  refine ⟨pre, rfl, fun pre' rest' h => ?_⟩
  by_contra hlt
  -- an earlier occurrence would have its first byte in `pre`
  have hget := congrArg (fun l => l[pre'.length]?) h
  simp only [List.append_assoc, List.cons_append] at hget
  rw [List.getElem?_append_left (Nat.lt_of_not_le hlt), List.getElem?_append_right (Nat.le_refl _),
    Nat.sub_self, List.getElem?_cons_zero] at hget
  exact hpre (List.mem_of_getElem? hget)

/-! ## ReadHex -/

/-- The loop that shifts a digit into `A`. -/
def shiftDigit (Length : Nat) (A : Arr UInt8) (ich : UInt8) : Arr UInt8 :=
  let A := forUp 0 (Length - 1) (fun i A => A.set i (A.get i <<< 4 ||| A.get (i + 1) >>> 4)) A
  A.set (Length - 1) (A.get (Length - 1) <<< 4 ||| ich)

/-- `while ( (ch = fgetc(infile)) != EOF )` of `ReadHex`: `A`, and the rest of
    the file. -/
def readHexLoop (Length : Nat) : List UInt8 → Bool → Arr UInt8 → Arr UInt8 × List UInt8
  | [], _, A => (A, [])
  | ch :: infile, started, A =>
    match hexValue ch with
    | some ich => readHexLoop Length infile true (shiftDigit Length A (UInt8.ofNat ich))
    | none =>
      if started then (A, infile)
      else if ch = newline then (A, infile)
      else readHexLoop Length infile false A

/-- `ReadHex`: what it returns, `A`, and the rest of the file. -/
def readHex (infile : List UInt8) (A : Arr UInt8) (Length : Nat) (str : List UInt8) :
    Int × Arr UInt8 × List UInt8 :=
  if Length = 0 then (1, A.set 0 0x00, infile)
  else
    let A := A.blit 0 (List.replicate Length 0x00)
    match findMarker infile str with
    | some infile =>
      let r := readHexLoop Length infile false A
      (1, r.1, r.2)
    | none => (0, A, [])

/-- What `fprintBstr` writes. -/
def fprintBstr (S A : List UInt8) : List UInt8 :=
  S ++ (if A = [] then text "00" else A.flatMap hex2) ++ [newline]

theorem counterValue_cons (a : UInt8) (l : List UInt8) :
    counterValue (a :: l) = a.toNat * 256 ^ l.length + counterValue l := by
  induction l using List.reverseRecOn with
  | nil => simp [counterValue]
  | append_singleton l x ih =>
      rw [← List.cons_append, counterValue_concat, counterValue_concat, ih, List.length_append,
        List.length_singleton, Nat.pow_succ, Nat.mul_add, Nat.add_assoc, Nat.mul_left_comm 256,
        Nat.mul_comm 256]

theorem counterValue_lt (l : List UInt8) : counterValue l < 256 ^ l.length := by
  have h := counterBytes_counterValue (l := l) rfl
  have hmod := counterValue_counterBytes l.length (counterValue l)
  rw [h] at hmod
  rw [hmod]
  exact Nat.mod_lt _ (Nat.pow_pos (by decide))

/-- The upper half of the next byte comes in from the right. -/
theorem toNat_shiftByte (a b : UInt8) :
    (a <<< 4 ||| b >>> 4).toNat = 16 * (a.toNat % 16) + b.toNat / 16 := by
  have hb := b.toNat_lt
  have hl : (a <<< 4).toNat = (a.toNat % 16) <<< 4 := by
    rw [UInt8.toNat_shiftLeft, Nat.shiftLeft_eq, Nat.shiftLeft_eq]
    change a.toNat * 2 ^ 4 % 2 ^ 8 = a.toNat % 16 * 2 ^ 4
    omega
  have hr : (b >>> 4).toNat = b.toNat / 16 := by
    rw [UInt8.toNat_shiftRight, Nat.shiftRight_eq_div_pow]
    rfl
  rw [UInt8.toNat_or, hl, hr, ← Nat.shiftLeft_add_eq_or_of_lt (by omega), Nat.shiftLeft_eq]
  omega

/-- The same on a list of bytes. -/
def shiftList (ich : UInt8) : List UInt8 → List UInt8
  | [] => []
  | [a] => [a <<< 4 ||| ich]
  | a :: b :: l => (a <<< 4 ||| b >>> 4) :: shiftList ich (b :: l)

theorem length_shiftList (ich : UInt8) (l : List UInt8) : (shiftList ich l).length = l.length := by
  fun_induction shiftList ich l with
  | case1 => rfl
  | case2 a => rfl
  | case3 a b l ih => rw [List.length_cons, ih, List.length_cons, List.length_cons, List.length_cons]

/-- A number of two bytes and more below is shifted by half a byte. -/
theorem shift_mod {N W d x y : Nat} (hW : W < N) (hd : d < 16) (hy : y < 256) :
    (16 * (x % 16) + y / 16) * (N * 256) + (16 * (y * N + W) + d) % (N * 256)
      = (16 * (x * (N * 256) + (y * N + W)) + d) % (N * 256 * 256) := by
  obtain ⟨s, t, ht, rfl⟩ : ∃ s t, t < 16 ∧ x = 16 * s + t :=
    ⟨x / 16, x % 16, Nat.mod_lt _ (by decide), (Nat.div_add_mod x 16).symm⟩
  obtain ⟨u, v, hv, rfl⟩ : ∃ u v, v < 16 ∧ y = 16 * u + v :=
    ⟨y / 16, y % 16, Nat.mod_lt _ (by decide), (Nat.div_add_mod y 16).symm⟩
  have hu : u < 16 := by omega
  have hlow : v * (16 * N) + (16 * W + d) < N * 256 := by nlinarith
  have hhigh : (16 * t + u) * (N * 256) + (v * (16 * N) + (16 * W + d)) < N * 256 * 256 := by nlinarith
  have h1 : 16 * ((16 * u + v) * N + W) + d = v * (16 * N) + (16 * W + d) + N * 256 * u := by ring
  have h2 : 16 * ((16 * s + t) * (N * 256) + ((16 * u + v) * N + W)) + d
      = (16 * t + u) * (N * 256) + (v * (16 * N) + (16 * W + d)) + N * 256 * 256 * s := by ring
  rw [h2, Nat.add_mul_mod_self_left, Nat.mod_eq_of_lt hhigh, h1, Nat.add_mul_mod_self_left,
    Nat.mod_eq_of_lt hlow, Nat.mul_add_mod, Nat.mod_eq_of_lt ht,
    show (16 * u + v) / 16 = u by omega]

/-- The number is multiplied by 16, and the digit is added. -/
theorem counterValue_shiftList {d : Nat} (hd : d < 16) (l : List UInt8) :
    counterValue (shiftList (UInt8.ofNat d) l) = (16 * counterValue l + d) % 256 ^ l.length := by
  fun_induction shiftList (UInt8.ofNat d) l with
  | case1 => simp [counterValue, Nat.mod_one]
  | case2 a =>
      -- the digit is the upper half of a byte
      have hdigit : (UInt8.ofNat (16 * d)) >>> 4 = UInt8.ofNat d := by
        revert hd
        revert d
        decide
      have hval : counterValue [a <<< 4 ||| UInt8.ofNat d] = (a <<< 4 ||| UInt8.ofNat d).toNat := by
        simp [counterValue]
      have ha : counterValue [a] = a.toNat := by simp [counterValue]
      rw [hval, ha, ← hdigit, toNat_shiftByte, UInt8.toNat_ofNat', List.length_singleton, Nat.pow_one]
      omega
  | case3 a b l ih =>
      rw [counterValue_cons, ih, length_shiftList, toNat_shiftByte, counterValue_cons a,
        counterValue_cons b, List.length_cons, List.length_cons, List.length_cons, Nat.pow_succ,
        Nat.pow_succ]
      exact shift_mod (counterValue_lt l) hd b.toNat_lt

theorem getD_shiftList (ich : UInt8) {l : List UInt8} {j : Nat} (hj : j < l.length) :
    (shiftList ich l).getD j 0
      = l.getD j 0 <<< 4 ||| (if j + 1 < l.length then l.getD (j + 1) 0 >>> 4 else ich) := by
  fun_induction shiftList ich l generalizing j with
  | case1 => exact absurd hj (Nat.not_lt_zero j)
  | case2 a =>
      obtain rfl : j = 0 := by simpa using hj
      rfl
  | case3 a b l ih =>
      cases j with
      | zero =>
          rw [if_pos (by simp)]
          rfl
      | succ j =>
          rw [List.getD_cons_succ, List.getD_cons_succ, List.getD_cons_succ,
            ih (Nat.lt_of_succ_lt_succ hj), List.length_cons (a := a)]
          simp only [Nat.add_lt_add_iff_right]

theorem slice_shiftDigit {L : Nat} (hL : 0 < L) (A : Arr UInt8) (ich : UInt8) :
    (shiftDigit L A ich).slice 0 L = shiftList ich (A.slice 0 L) := by
  -- entry `i + 1` is still the old one when it is shifted into entry `i`
  have hloop : ∀ j, (forUp 0 (L - 1)
      (fun i A => A.set i (A.get i <<< 4 ||| A.get (i + 1) >>> 4)) A).get j
        = if j < L - 1 then A.get j <<< 4 ||| A.get (j + 1) >>> 4 else A.get j := by
    refine forUp_invariant (fun n (B : Arr UInt8) => ∀ j, B.get j
      = if j < n then A.get j <<< 4 ||| A.get (j + 1) >>> 4 else A.get j) (Nat.zero_le (L - 1)) ?_
      fun j => (if_neg (Nat.not_lt_zero j)).symm
    intro i B _ _ hB j
    rw [Arr.get_set]
    by_cases hj : j = i
    · rw [if_pos hj, if_pos (by omega), hj, hB i, hB (i + 1), if_neg (Nat.lt_irrefl i),
        if_neg (show ¬ i + 1 < i by omega)]
    · rw [if_neg hj, hB j]
      exact if_congr (by omega) rfl rfl
  apply List.ext_getElem (by rw [length_shiftList, Arr.length_slice, Arr.length_slice])
  intro j h1 _
  rw [Arr.length_slice] at h1
  have hslice : ∀ i, i < L → (A.slice 0 L).getD i 0 = A.get i := by
    intro i hi
    have := Arr.getD_slice A 0 L i hi
    rwa [Nat.zero_add] at this
  rw [Arr.getElem_slice, Nat.zero_add, ← List.getD_eq_getElem _ 0,
    getD_shiftList ich (by rwa [Arr.length_slice]), Arr.length_slice, hslice j h1, shiftDigit,
    Arr.get_set, hloop, hloop]
  by_cases hlast : j + 1 < L
  · rw [if_neg (show j ≠ L - 1 by omega), if_pos (by omega), if_pos hlast, hslice _ hlast]
  · rw [if_pos (show j = L - 1 by omega), if_neg (by omega), if_neg hlast,
      show L - 1 = j by omega]

/-- A digit is shifted in. -/
theorem counterValue_shiftDigit {L : Nat} (hL : 0 < L) (A : Arr UInt8) {d : Nat} (hd : d < 16) :
    counterValue ((shiftDigit L A (UInt8.ofNat d)).slice 0 L)
      = (16 * counterValue (A.slice 0 L) + d) % 256 ^ L := by
  rw [slice_shiftDigit hL, counterValue_shiftList hd, Arr.length_slice]

/-- The number of `digits` behind that of `n`. -/
def hexFrom (n : Nat) (digits : List UInt8) : Nat :=
  digits.foldl (fun n c => 16 * n + (hexValue c).getD 0) n

/-- The number that hexadecimal digits stand for. -/
def hexNumber (digits : List UInt8) : Nat := hexFrom 0 digits

/-- `isxdigit`. -/
def isHexDigit (c : UInt8) : Bool := (hexValue c).isSome

theorem hexValue_lt {c : UInt8} {d : Nat} (h : hexValue c = some d) : d < 16 := by
  rw [hexValue] at h
  split at h
  · obtain rfl := Option.some.inj h
    omega
  · split at h
    · obtain rfl := Option.some.inj h
      omega
    · split at h
      · obtain rfl := Option.some.inj h
        omega
      · exact nomatch h

theorem hexValue_of_not_digit {c : UInt8} (h : ¬ isHexDigit c = true) : hexValue c = none := by
  simpa [isHexDigit] using h

/-- Digits are shifted in until something else comes, which is read as well. -/
theorem readHexLoop_started {L : Nat} (hL : 0 < L) (l : List UInt8) (A : Arr UInt8) {n : Nat}
    (hA : counterValue (A.slice 0 L) = n % 256 ^ L) :
    ∃ A', readHexLoop L l true A = (A', (l.dropWhile isHexDigit).tail) ∧
      counterValue (A'.slice 0 L) = hexFrom n (l.takeWhile isHexDigit) % 256 ^ L := by
  induction l generalizing A n with
  | nil => exact ⟨A, rfl, hA⟩
  | cons x l ih =>
      by_cases hx : isHexDigit x = true
      · obtain ⟨d, hd⟩ := Option.isSome_iff_exists.mp hx
        have hstep : counterValue ((shiftDigit L A (UInt8.ofNat d)).slice 0 L)
            = (16 * n + d) % 256 ^ L := by
          rw [counterValue_shiftDigit hL A (hexValue_lt hd), hA, Nat.add_mod, Nat.mul_mod,
            Nat.mod_mod, ← Nat.mul_mod, ← Nat.add_mod]
        obtain ⟨A', hread, hval⟩ := ih _ hstep
        refine ⟨A', ?_, ?_⟩
        · rw [readHexLoop, hd, List.dropWhile_cons_of_pos hx]
          exact hread
        · rw [List.takeWhile_cons_of_pos hx, hexFrom, List.foldl_cons, hd]
          exact hval
      · refine ⟨A, ?_, ?_⟩
        · rw [readHexLoop, hexValue_of_not_digit hx, List.dropWhile_cons_of_neg hx]
          rfl
        · rw [List.takeWhile_cons_of_neg hx]
          exact hA

/-- What is left where the first digit is looked for: not beyond a line break. -/
def atDigits (l : List UInt8) : List UInt8 := l.dropWhile fun c => !isHexDigit c && c != newline

theorem readHexLoop_start {L : Nat} (hL : 0 < L) (l : List UInt8) (A : Arr UInt8)
    (hA : counterValue (A.slice 0 L) = 0) :
    ∃ A', readHexLoop L l false A = (A', ((atDigits l).dropWhile isHexDigit).tail) ∧
      counterValue (A'.slice 0 L) = hexNumber ((atDigits l).takeWhile isHexDigit) % 256 ^ L := by
  have hzero : counterValue (A.slice 0 L) = 0 % 256 ^ L := by rw [hA, Nat.zero_mod]
  induction l with
  | nil => exact ⟨A, rfl, hzero⟩
  | cons c l ih =>
      by_cases hc : isHexDigit c = true
      · -- the first digit does not differ from the others
        have hsame : readHexLoop L (c :: l) false A = readHexLoop L (c :: l) true A := by
          obtain ⟨d, hd⟩ := Option.isSome_iff_exists.mp hc
          rw [readHexLoop, readHexLoop, hd]
        rw [hsame, atDigits, List.dropWhile_cons_of_neg (by simp [hc])]
        exact readHexLoop_started hL (c :: l) A hzero
      · rw [readHexLoop, hexValue_of_not_digit hc]
        simp only [Bool.false_eq_true, if_false]
        by_cases hnl : c = newline
        · subst hnl
          rw [if_pos rfl, atDigits, List.dropWhile_cons_of_neg (by simp), List.dropWhile_cons_of_neg hc,
            List.takeWhile_cons_of_neg hc]
          exact ⟨A, rfl, hzero⟩
        · rw [if_neg hnl, atDigits, List.dropWhile_cons_of_pos (by simp [hc, hnl])]
          exact ih

/-- The array is cleared first. -/
theorem counterValue_cleared (L : Nat) (A : Arr UInt8) :
    counterValue ((A.blit 0 (List.replicate L 0x00)).slice 0 L) = 0 := by
  have h := Arr.slice_blit A 0 (List.replicate L (0x00 : UInt8))
  rw [List.length_replicate] at h
  rw [h, ← counterBytes_zero, counterValue_counterBytes, Nat.zero_mod]

theorem readHex_found {L : Nat} (hL : 0 < L) {infile marker pre behind : List UInt8}
    (h : FirstAt (marker.take (maxMarkerLen - 1)) infile pre behind) (A : Arr UInt8) :
    ∃ A', readHex infile A L marker = (1, A', ((atDigits behind).dropWhile isHexDigit).tail) ∧
      counterValue (A'.slice 0 L) = hexNumber ((atDigits behind).takeWhile isHexDigit) % 256 ^ L := by
  obtain ⟨A', hread, hval⟩ := readHexLoop_start hL behind _ (counterValue_cleared L A)
  refine ⟨A', ?_, hval⟩
  rw [readHex, if_neg (Nat.ne_of_gt hL), (findMarker_eq _ _ _).mpr ⟨pre, h⟩]
  simp only [hread]

/-- `ReadHex` on any file.  Behind the first occurrence of the marker it skips to
    the first hexadecimal digit of the line, and reads the digits as a number
    modulo the size of the array, and the byte behind them.  Without a digit in
    the line the array is zero. -/
theorem readHex_spec {L : Nat} (hL : 0 < L) (infile marker : List UInt8) (A : Arr UInt8) :
    ((∀ pre behind, ¬ FirstAt (marker.take (maxMarkerLen - 1)) infile pre behind) →
      readHex infile A L marker = (0, A.blit 0 (List.replicate L 0), [])) ∧
    ∀ pre behind, FirstAt (marker.take (maxMarkerLen - 1)) infile pre behind →
      ∃ A', readHex infile A L marker = (1, A', ((atDigits behind).dropWhile isHexDigit).tail) ∧
        counterValue (A'.slice 0 L) = hexNumber ((atDigits behind).takeWhile isHexDigit) % 256 ^ L := by
  refine ⟨fun hnone => ?_, fun pre behind h => readHex_found hL h A⟩
  rw [readHex, if_neg (Nat.ne_of_gt hL)]
  cases hfound : findMarker infile marker with
  | none => rfl
  | some rest =>
      obtain ⟨pre, h⟩ := (findMarker_eq _ _ _).mp hfound
      exact absurd h (hnone pre rest)

/-- Of `4aB` behind the second marker an array of one byte keeps the last two digits. -/
theorem readHex_spec_short :
    ((∀ pre behind, ¬ FirstAt ((text "b = ").take (maxMarkerLen - 1)) (text "a = 1\nb =  4aB,c") pre behind) →
      readHex (text "a = 1\nb =  4aB,c") Arr.empty 1 (text "b = ") = (0, Arr.empty.blit 0 [0], [])) ∧
    ∀ pre behind, FirstAt ((text "b = ").take (maxMarkerLen - 1)) (text "a = 1\nb =  4aB,c") pre behind →
      ∃ A', readHex (text "a = 1\nb =  4aB,c") Arr.empty 1 (text "b = ")
          = (1, A', ((atDigits behind).dropWhile isHexDigit).tail) ∧
        counterValue (A'.slice 0 1) = hexNumber ((atDigits behind).takeWhile isHexDigit) % 256 ^ 1 :=
  readHex_spec (by decide) _ _ _

/-! ## What was printed is read back -/

theorem hexNumber_hex2 (l : List UInt8) : hexNumber (l.flatMap hex2) = counterValue l := by
  induction l using List.reverseRecOn with
  | nil => rfl
  | append_singleton l x ih =>
      have hx := x.toNat_lt
      rw [hexNumber, hexFrom] at ih
      rw [List.flatMap_append, List.flatMap_singleton, hexNumber, hexFrom, List.foldl_append, ih,
        counterValue_concat, hex2]
      simp only [List.foldl_cons, List.foldl_nil, hexValue_hexDigit (show x.toNat / 16 < 16 by omega),
        hexValue_hexDigit (Nat.mod_lt x.toNat (show 0 < 16 by decide)), Option.getD_some]
      omega

/-- `ReadHex` reads back what `fprintBstr` wrote, up to the line break. -/
theorem readHex_fprintBstr {pre m B : List UInt8} {c : UInt8} (hpre : c ∉ pre)
    (hm : (c :: m).length < maxMarkerLen) (hB : B ≠ []) (rest : List UInt8) (A : Arr UInt8) :
    ∃ A', readHex (pre ++ fprintBstr (c :: m) B ++ rest) A B.length (c :: m) = (1, A', rest) ∧
      A'.slice 0 B.length = B := by
  have hfile : pre ++ fprintBstr (c :: m) B ++ rest
      = pre ++ (c :: m) ++ ([] ++ (B.flatMap hex2 ++ newline :: rest)) := by
    rw [fprintBstr, if_neg hB]
    simp only [List.append_assoc, List.nil_append, List.singleton_append]
  have hfound := findMarker_behind hpre hm ([] ++ (B.flatMap hex2 ++ newline :: rest))
  rw [← hfile] at hfound
  obtain ⟨pre', hfirst⟩ := (findMarker_eq _ _ _).mp hfound
  have hdigits : ∀ x ∈ B.flatMap hex2, isHexDigit x = true := by
    intro x hx
    obtain ⟨n, hn, rfl⟩ := mem_hex2 hx
    rw [isHexDigit, hexValue_hexDigit hn]
    rfl
  have hat : atDigits (B.flatMap hex2 ++ newline :: rest) = B.flatMap hex2 ++ newline :: rest := by
    obtain ⟨b, B, rfl⟩ := List.exists_cons_of_ne_nil hB
    rw [List.flatMap_cons, hex2, atDigits]
    exact List.dropWhile_cons_of_neg (by simp [hdigits _ (List.mem_flatMap.mpr
      ⟨b, List.mem_cons_self, List.mem_cons_self⟩)])
  have hnl : ¬ isHexDigit newline = true := by decide
  obtain ⟨A', hread, hval⟩ := readHex_found (List.length_pos_iff.mpr hB) hfirst A
  rw [List.nil_append, hat, List.dropWhile_append_of_pos hdigits, List.dropWhile_cons_of_neg hnl,
    List.tail_cons] at hread
  refine ⟨A', hread, ?_⟩
  rw [List.nil_append, hat, List.takeWhile_append_of_pos hdigits, List.takeWhile_cons_of_neg hnl,
    List.append_nil, hexNumber_hex2, Nat.mod_eq_of_lt (counterValue_lt B)] at hval
  rw [← counterBytes_counterValue (Arr.length_slice A' 0 B.length), hval, counterBytes_counterValue rfl]

end Meds.Kat
