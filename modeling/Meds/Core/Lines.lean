/-
  Meds.Core.Lines

  Texts that are read line by line.

  `lines` splits a text behind every separator; `unlines` is the text that a
  sequence of writes of whole lines leaves.  The fold rules run a process over
  the lines of a text, part by part.
-/

import Meds.Core.Dialog

namespace Meds.Core

variable {β : Type}

/-! ## Lines -/

section

variable [DecidableEq β]

/-- The lines of a text, each with its separator, where `acc` has been read. -/
def linesFrom (sep : β) : List β → List β → List (List β)
  | acc, [] => if acc.isEmpty then [] else [acc]
  | acc, c :: cs =>
    if c = sep then (acc ++ [c]) :: linesFrom sep [] cs else linesFrom sep (acc ++ [c]) cs

def lines (sep : β) (l : List β) : List (List β) := linesFrom sep [] l

theorem linesFrom_line {sep : β} {acc l : List β} (hl : sep ∉ l) (rest : List β) :
    linesFrom sep acc (l ++ sep :: rest) = (acc ++ l ++ [sep]) :: linesFrom sep [] rest := by
  induction l generalizing acc with
  | nil => rw [List.nil_append, linesFrom, if_pos rfl, List.append_nil]
  | cons c l ih =>
      obtain ⟨hc, hl⟩ := not_or.mp fun h => hl (List.mem_cons.mpr h)
      rw [List.cons_append, linesFrom, if_neg (Ne.symm hc), ih hl, List.append_assoc acc]
      rfl

end

/-- The text of whole lines. -/
def unlines (sep : β) (ls : List (List β)) : List β := ls.flatMap fun l => l ++ [sep]

theorem unlines_append (sep : β) (ls ls' : List (List β)) :
    unlines sep (ls ++ ls') = unlines sep ls ++ unlines sep ls' :=
  List.flatMap_append

theorem unlines_singleton (sep : β) (l : List β) : unlines sep [l] = l ++ [sep] :=
  List.flatMap_singleton _ _

/-- What was written line by line is read line by line. -/
theorem lines_unlines [DecidableEq β] {sep : β} {ls : List (List β)} (h : ∀ l ∈ ls, sep ∉ l) :
    lines sep (unlines sep ls) = ls.map fun l => l ++ [sep] := by
  induction ls with
  | nil => rfl
  | cons l ls ih =>
      have hl := h l List.mem_cons_self
      have hrest := ih fun l' hl' => h l' (List.mem_cons_of_mem _ hl')
      rw [lines] at hrest ⊢
      rw [unlines, List.flatMap_cons, List.append_assoc, List.singleton_append, linesFrom_line hl,
        List.nil_append, List.map_cons, ← hrest]
      rfl

/-! ## Going through the lines -/

namespace Dialog

variable {ε α σ : Type}

theorem Speaks.foldlM_append {f : σ → α → Dialog ε β σ} {l l' : List α} {s s₁ s₂ : σ}
    {p q : List (Act β)} (h : Speaks (l.foldlM f s) p s₁) (h' : Speaks (l'.foldlM f s₁) q s₂) :
    Speaks ((l ++ l').foldlM f s) (p ++ q) s₂ := by
  rw [List.foldlM_append]
  exact h.bind h'

theorem Speaks.foldlM_cons {f : σ → α → Dialog ε β σ} {x : α} {l : List α} {s s₁ s₂ : σ}
    {p q : List (Act β)} (h : Speaks (f s x) p s₁) (h' : Speaks (l.foldlM f s₁) q s₂) :
    Speaks ((x :: l).foldlM f s) (p ++ q) s₂ := by
  rw [List.foldlM_cons]
  exact h.bind h'

theorem speaks_foldlM_nil (f : σ → α → Dialog ε β σ) (s : σ) : Speaks ([].foldlM f s) [] s :=
  speaks_pure s

/-- Lines that nothing is done for. -/
theorem speaks_foldlM_skip {f : σ → α → Dialog ε β σ} {l : List α} {s : σ}
    (h : ∀ x ∈ l, Speaks (f s x) [] s) : Speaks (l.foldlM f s) [] s := by
  induction l with
  | nil => exact speaks_pure s
  | cons x l ih =>
      exact (h x List.mem_cons_self).foldlM_cons (ih fun y hy => h y (List.mem_cons_of_mem _ hy))

/-- Groups of lines, one for each index, that keep an invariant. -/
theorem speaks_foldlM_invariant {f : σ → α → Dialog ε β σ} {lo n : Nat} {g : Nat → List α}
    {p : Nat → List (Act β)} (I : Nat → σ → Prop)
    (hstep : ∀ i s, lo ≤ i → i < lo + n → I i s →
      ∃ s', Speaks ((g i).foldlM f s) (p i) s' ∧ I (i + 1) s') {s : σ} (h0 : I lo s) :
    ∃ s', Speaks (((List.range' lo n).flatMap g).foldlM f s) ((List.range' lo n).flatMap p) s' ∧
      I (lo + n) s' := by
  induction n with
  | zero => exact ⟨s, speaks_pure s, h0⟩
  | succ n ih =>
      obtain ⟨s₁, h₁, hI⟩ := ih fun i s h1 h2 => hstep i s h1 (by omega)
      obtain ⟨s₂, h₂, hI'⟩ := hstep (lo + n) s₁ (by omega) (by omega) hI
      refine ⟨s₂, ?_, hI'⟩
      rw [List.range'_concat, List.flatMap_append, List.flatMap_append, List.flatMap_singleton,
        List.flatMap_singleton, Nat.one_mul]
      exact h₁.foldlM_append h₂

/-- Groups of lines, one for each index, from known states. -/
theorem speaks_foldlM_flatMap {f : σ → α → Dialog ε β σ} {lo n : Nat} {g : Nat → List α}
    {p : Nat → List (Act β)} (st : Nat → σ)
    (hstep : ∀ i, lo ≤ i → i < lo + n → Speaks ((g i).foldlM f (st i)) (p i) (st (i + 1))) :
    Speaks (((List.range' lo n).flatMap g).foldlM f (st lo)) ((List.range' lo n).flatMap p)
      (st (lo + n)) := by
  obtain ⟨s', h, rfl⟩ := speaks_foldlM_invariant (fun i s => s = st i)
    (fun i s h1 h2 hs => ⟨st (i + 1), hs ▸ hstep i h1 h2, rfl⟩) rfl
  exact h

end Dialog

end Meds.Core
