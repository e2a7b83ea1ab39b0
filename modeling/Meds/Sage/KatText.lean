/-
  Meds.Sage.KatText

  The texts of a KAT run: which lines start with which text, and what
  `strip` and `split` leave of them.

  Counts are looked for by the text `count = c`, which is also the start of
  the line of every count whose digits start with those of `c`.  Such a count
  is never smaller than `c`.
-/

import Meds.Sage.KatStream

namespace Meds.Sage

open Meds.Core Meds.Ref

/-! ## Decimal numbers -/

/-- The number that decimal digits stand for. -/
def digitsValue (l : List UInt8) : Nat := l.foldl (fun n c => 10 * n + (c.toNat - 48)) 0

theorem le_foldl_digits (l : List UInt8) (n : Nat) :
    n ≤ l.foldl (fun n c => 10 * n + (c.toNat - 48)) n := by
  induction l generalizing n with
  | nil => exact Nat.le_refl n
  | cons c l ih =>
      have h : n ≤ 10 * n + (c.toNat - 48) := by omega
      exact h.trans (ih _)

/-- More digits make no smaller number. -/
theorem digitsValue_le_of_prefix {l l' : List UInt8} (h : l <+: l') :
    digitsValue l ≤ digitsValue l' := by
  obtain ⟨r, rfl⟩ := h
  rw [digitsValue, digitsValue, List.foldl_append]
  exact le_foldl_digits r _

theorem toNat_digit {c : Char} (h : c.isDigit) :
    48 ≤ (UInt8.ofNat c.toNat).toNat ∧ (UInt8.ofNat c.toNat).toNat ≤ 57 ∧
      (UInt8.ofNat c.toNat).toNat = c.toNat := by
  obtain ⟨h1, h2⟩ : 48 ≤ c.toNat ∧ c.toNat ≤ 57 := by
    simpa [Char.isDigit, UInt32.le_iff_toNat_le] using h
  have heq : (UInt8.ofNat c.toNat).toNat = c.toNat :=
    UInt8.toNat_ofNat_of_lt' (by simp only [UInt8.size]; omega)
  omega

theorem decimal_eq (n : Nat) :
    decimal n = (Nat.toDigits 10 n).map fun c => UInt8.ofNat c.toNat := by
  rw [decimal, text, Nat.toList_repr]

/-- Decimal digits are digits. -/
theorem mem_decimal {n : Nat} {x : UInt8} (h : x ∈ decimal n) : 48 ≤ x.toNat ∧ x.toNat ≤ 57 := by
  rw [decimal_eq] at h
  obtain ⟨c, hc, rfl⟩ := List.mem_map.mp h
  have hdigit := toNat_digit (Nat.isDigit_of_mem_toDigits (by decide) (by decide) hc)
  exact ⟨hdigit.1, hdigit.2.1⟩

theorem digitsValue_decimal (n : Nat) : digitsValue (decimal n) = n := by
  have key : ∀ (l : List Char) (a : Nat), (∀ c ∈ l, c.isDigit) →
      (l.map fun c => UInt8.ofNat c.toNat).foldl (fun n c => 10 * n + (c.toNat - 48)) a
        = Nat.ofDigitChars 10 l a := by
    intro l
    induction l with
    | nil => intro a _; rfl
    | cons c l ih =>
        intro a hl
        rw [List.map_cons, List.foldl_cons, Nat.ofDigitChars_cons,
          (toNat_digit (hl c List.mem_cons_self)).2.2]
        exact ih _ fun c' hc' => hl c' (List.mem_cons_of_mem _ hc')
  rw [digitsValue, decimal_eq,
    key _ 0 fun c hc => Nat.isDigit_of_mem_toDigits (by decide) (by decide) hc]
  exact Nat.ofDigitChars_ten_toDigits

theorem newline_notMem_decimal (n : Nat) : newline ∉ decimal n := fun h =>
  absurd (mem_decimal h).1 (by decide)

/-- A line is one line. -/
theorem newline_notMem_field {name : String} (hname : newline ∉ text name) {l : List UInt8}
    (hl : newline ∉ l) : newline ∉ text name ++ l := by
  intro h
  rcases List.mem_append.mp h with h | h
  · exact hname h
  · exact hl h

/-- The digits of `c` only start the line of a count that is at least `c`. -/
theorem le_of_decimal_prefix {c j : Nat} (h : decimal c <+: decimal j ++ [newline]) : c ≤ j := by
  rcases List.prefix_concat_iff.mp h with heq | h
  · have hmem : newline ∈ decimal c := by
      rw [heq]
      exact List.mem_append_right _ List.mem_cons_self
    exact absurd hmem (newline_notMem_decimal c)
  · have := digitsValue_le_of_prefix h
    rwa [digitsValue_decimal, digitsValue_decimal] at this

/-! ## Lines that start with a text -/

/-- The line of the count itself. -/
theorem startsCount_self (c : Nat) (rest : List UInt8) :
    startsCount c (text "count = " ++ decimal c ++ rest) = true := by
  rw [startsCount, List.isPrefixOf_iff_prefix]
  exact List.prefix_append _ _

/-- No line of a smaller count is taken for that of `c`. -/
theorem startsCount_of_lt {c j : Nat} (h : j < c) :
    startsCount c (text "count = " ++ decimal j ++ [newline]) = false := by
  rw [startsCount, Bool.eq_false_iff]
  intro hp
  rw [List.isPrefixOf_iff_prefix, List.append_assoc, List.prefix_append_right_inj] at hp
  have := le_of_decimal_prefix hp
  omega

/-- A line that does not start with `count = ` is that of no count. -/
theorem startsCount_of_not_startsWith {line : List UInt8}
    (h : startsWith line "count = " = false) (c : Nat) : startsCount c line = false := by
  rw [startsCount, Bool.eq_false_iff]
  intro hp
  rw [startsWith, Bool.eq_false_iff] at h
  rw [List.isPrefixOf_iff_prefix] at hp
  exact h (List.isPrefixOf_iff_prefix.mpr ((List.prefix_append _ _).trans hp))

/-! ## Fields -/

/-- `rstrip()` -/
def rstrip (l : List UInt8) : List UInt8 := (l.reverse.dropWhile isSpace).reverse

theorem rstrip_append_cons {c : UInt8} (hc : isSpace c = false) (x y : List UInt8) :
    rstrip (x ++ c :: y) = x ++ c :: rstrip y := by
  rw [rstrip, rstrip, List.reverse_append, List.reverse_cons, List.append_assoc,
    List.dropWhile_append, List.singleton_append]
  split
  case isTrue h =>
    rw [List.isEmpty_iff] at h
    rw [h, List.dropWhile_cons, if_neg (by rw [hc]; decide)]
    simp
  case isFalse =>
    simp

theorem strip_cons {c : UInt8} (hc : isSpace c = false) (l : List UInt8) :
    strip (c :: l) = c :: rstrip l := by
  rw [strip, List.dropWhile_cons, if_neg (by rw [hc]; decide)]
  exact rstrip_append_cons hc [] l

/-- The first word of a line stays in front. -/
theorem strip_append_cons {c d : UInt8} (hc : isSpace c = false) (hd : isSpace d = false)
    (a l : List UInt8) : strip (c :: a ++ d :: l) = c :: a ++ d :: rstrip l := by
  rw [List.cons_append, strip_cons hc, rstrip_append_cons hd]
  rfl

theorem rstrip_newline (l : List UInt8) : rstrip (l ++ [newline]) = rstrip l := by
  rw [rstrip, List.reverse_append, List.reverse_singleton, List.singleton_append,
    List.dropWhile_cons, if_pos (by decide)]
  rfl

theorem rstrip_of_noSpace {l : List UInt8} (hl : l ≠ []) (h : ∀ c ∈ l, isSpace c = false)
    (x : List UInt8) : rstrip (x ++ l ++ [newline]) = x ++ l := by
  obtain ⟨y, d, rfl⟩ := (List.eq_nil_or_concat l).resolve_left hl
  have hend : rstrip [newline] = [] := by decide
  rw [List.concat_eq_append] at h ⊢
  have hd : isSpace d = false := h d (List.mem_append_right y List.mem_cons_self)
  rw [show x ++ (y ++ [d]) ++ [newline] = (x ++ y) ++ d :: [newline] by simp,
    rstrip_append_cons hd, hend, List.append_assoc]

/-- A line that ends with digits only loses its line break. -/
theorem strip_line {c : UInt8} (hc : isSpace c = false) (a : List UInt8) {l : List UInt8}
    (hl : l ≠ []) (h : ∀ c ∈ l, isSpace c = false) :
    strip (c :: a ++ l ++ [newline]) = c :: a ++ l := by
  rw [List.cons_append, List.cons_append, strip_cons hc, rstrip_of_noSpace hl h]

theorem rstrip_subset (l : List UInt8) : rstrip l ⊆ l := by
  intro c hc
  exact List.mem_reverse.mp ((List.dropWhile_suffix _).mem (List.mem_reverse.mp hc))

theorem isSpace_of_mem_hex {l : List UInt8} {c : UInt8} (h : c ∈ l.flatMap hex2) :
    isSpace c = false := by
  obtain ⟨n, hn, rfl⟩ := mem_hex2 h
  exact isSpace_hexDigit hn

theorem dropWhile_of_noSpace {l : List UInt8} (h : ∀ c ∈ l, isSpace c = false) :
    l.dropWhile isSpace = l := by
  cases l with
  | nil => rfl
  | cons c l => rw [List.dropWhile_cons, if_neg (by rw [h c List.mem_cons_self]; decide)]

theorem strip_of_noSpace {l : List UInt8} (h : ∀ c ∈ l, isSpace c = false) : strip l = l := by
  rw [strip, dropWhile_of_noSpace h,
    dropWhile_of_noSpace fun c hc => h c (List.mem_reverse.mp hc), List.reverse_reverse]

/-- The digits behind `= ` and before the line break. -/
theorem strip_rstrip_hex (l : List UInt8) :
    strip (rstrip (32 :: (l.flatMap hex2 ++ [newline]))) = l.flatMap hex2 := by
  have hnone : ∀ c ∈ l.flatMap hex2, isSpace c = false := fun c hc => isSpace_of_mem_hex hc
  generalize l.flatMap hex2 = x at hnone ⊢
  rcases List.eq_nil_or_concat x with rfl | ⟨h, c, rfl⟩
  · decide
  · rw [List.concat_eq_append] at hnone ⊢
    have hend : rstrip [newline] = [] := by decide
    have hline : 32 :: (h ++ [c] ++ [newline]) = (32 :: h) ++ c :: [newline] := by simp
    rw [hline, rstrip_append_cons (hnone c (by simp)), hend, List.cons_append, strip,
      List.dropWhile_cons, if_pos (by decide)]
    exact strip_of_noSpace hnone

/-- `line.strip().split('=')[1].strip()` is the part behind the equals sign. -/
theorem secondField_strip {a : List UInt8} {c : UInt8} (hc : isSpace c = false)
    (ha : 61 ∉ c :: a) (l : List UInt8) :
    secondField 61 (strip (c :: a ++ 61 :: 32 :: (l.flatMap hex2 ++ [newline])))
      = pure (l.flatMap hex2) := by
  have heq : isSpace 61 = false := by decide
  have hno : 61 ∉ rstrip (32 :: (l.flatMap hex2 ++ [newline])) := by
    intro h
    have h := rstrip_subset _ h
    rw [List.mem_cons, List.mem_append, List.mem_singleton] at h
    rcases h with h | h | h
    · exact absurd h (by decide)
    · obtain ⟨n, hn, h⟩ := mem_hex2 h
      exact absurd h (by interval_cases n <;> decide)
    · exact absurd h (by decide)
  rw [List.cons_append, strip_cons hc, rstrip_append_cons heq, ← List.cons_append, secondField,
    List.splitOn_append_cons_self_of_not_mem ha, List.splitOn_eq_singleton hno]
  exact congrArg pure (strip_rstrip_hex l)

end Meds.Sage
