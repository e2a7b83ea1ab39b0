/-
  Meds.Core.Guarded

  Programs that stop at their first failed check.

  `Guarded x c Q` says exactly when `x` runs through: iff the condition `c`
  holds, and then what it returns satisfies `Q`.  The condition is about the
  inputs only, so the checks of a whole loop are the conjunction of those of
  its rounds, whatever the rounds compute.
-/

import Meds.Core.Loop

namespace Meds.Core

variable {ε α β σ : Type}

theorem except_bind_eq_ok {x : Except ε α} {f : α → Except ε β} {b : β} :
    x >>= f = .ok b ↔ ∃ a, x = .ok a ∧ f a = .ok b := by
  cases x with
  | error e => exact ⟨fun h => absurd h nofun, fun ⟨a, ha, _⟩ => absurd ha nofun⟩
  | ok a => exact ⟨fun h => ⟨a, rfl, h⟩, fun ⟨a', ha, h⟩ => Except.ok.inj ha ▸ h⟩

/-- `x` ends with a value iff `c` holds, and that value satisfies `Q`. -/
structure Guarded (x : Except ε α) (c : Prop) (Q : α → Prop) : Prop where
  ok : c → ∃ a, x = .ok a ∧ Q a
  error : ¬ c → ∃ e, x = .error e

/-- A check. -/
def require (c : Prop) [Decidable c] (e : ε) : Except ε Unit := if c then pure () else throw e

namespace Guarded

variable {x : Except ε α} {f : α → Except ε β} {c d : Prop} {Q Q' : α → Prop} {R : β → Prop}

/-- A program returns a value iff its condition holds. -/
theorem returns_iff (h : Guarded x c Q) : (∃ a, x = .ok a) ↔ c := by
  constructor
  · rintro ⟨a, ha⟩
    by_contra hc
    obtain ⟨e, he⟩ := h.error hc
    rw [ha] at he
    cases he
  · intro hc
    obtain ⟨a, ha, -⟩ := h.ok hc
    exact ⟨a, ha⟩

/-- What a program returned satisfies its postcondition. -/
theorem post {a : α} (h : Guarded x c Q) (ha : x = .ok a) : Q a := by
  obtain ⟨b, hb, hQ⟩ := h.ok (h.returns_iff.mp ⟨a, ha⟩)
  rw [ha] at hb
  cases hb
  exact hQ

/-- A program that runs through has no condition. -/
theorem of_ok (h : ∃ a, x = .ok a ∧ Q a) : Guarded x True Q :=
  ⟨fun _ => h, fun hn => absurd trivial hn⟩

theorem pure {a : α} (h : Q a) : Guarded (Pure.pure a : Except ε α) True Q :=
  of_ok ⟨a, rfl, h⟩

theorem iff (h : Guarded x c Q) (hcd : c ↔ d) : Guarded x d Q :=
  ⟨fun hd => h.ok (hcd.mpr hd), fun hd => h.error fun hc => hd (hcd.mp hc)⟩

theorem mono (h : Guarded x c Q) (hQ : ∀ a, Q a → Q' a) : Guarded x c Q' := by
  refine ⟨fun hc => ?_, h.error⟩
  obtain ⟨a, ha, hq⟩ := h.ok hc
  exact ⟨a, ha, hQ a hq⟩

/-- A condition that is met needs no mention. -/
theorem of_true (h : Guarded x c Q) (hc : c) : Guarded x True Q :=
  h.iff (iff_true_intro hc)

theorem bind (h : Guarded x c Q) (hf : ∀ a, Q a → Guarded (f a) d R) :
    Guarded (x >>= f) (c ∧ d) R := by
  constructor
  · rintro ⟨hc, hd⟩
    obtain ⟨a, rfl, hQ⟩ := h.ok hc
    exact (hf a hQ).ok hd
  · intro hcd
    by_cases hc : c
    · obtain ⟨a, rfl, hQ⟩ := h.ok hc
      exact (hf a hQ).error fun hd => hcd ⟨hc, hd⟩
    · obtain ⟨e, rfl⟩ := h.error hc
      exact ⟨e, rfl⟩

/-- A check in front of a program. -/
theorem require_bind [Decidable c] {e : ε} {y : Except ε β} (h : c → Guarded y d R) :
    Guarded (Meds.Core.require c e >>= fun _ => y) (c ∧ d) R := by
  constructor
  · rintro ⟨hc, hd⟩
    obtain ⟨b, hb, hR⟩ := (h hc).ok hd
    rw [Meds.Core.require, if_pos hc]
    exact ⟨b, hb, hR⟩
  · intro hcd
    by_cases hc : c
    · rw [Meds.Core.require, if_pos hc]
      exact (h hc).error fun hd => hcd ⟨hc, hd⟩
    · rw [Meds.Core.require, if_neg hc]
      exact ⟨e, rfl⟩

/-- A check in front of a value. -/
theorem require_pure [Decidable c] {e : ε} {b : β} (h : c → R b) :
    Guarded (Meds.Core.require c e >>= fun _ => (Pure.pure b : Except ε β)) c R :=
  (require_bind fun hc => pure (h hc)).iff ⟨And.left, fun hc => ⟨hc, trivial⟩⟩

/-- Loop rule: the checks of the loop are those of its rounds. -/
theorem forUpM {lo hi : Nat} {f : Nat → σ → Except ε σ} {c : Nat → Prop} (I : Nat → σ → Prop)
    (hle : lo ≤ hi)
    (hstep : ∀ i s, lo ≤ i → i < hi → I i s → Guarded (f i s) (c i) (I (i + 1)))
    {s : σ} (h0 : I lo s) :
    Guarded (Meds.Core.forUpM lo hi f s) (∀ i, lo ≤ i → i < hi → c i) (I hi) := by
  induction hi, hle using Nat.le_induction with
  | base =>
      rw [forUpM_self]
      exact (pure h0).iff ⟨fun _ i h1 h2 => absurd h1 (by omega), fun _ => trivial⟩
  | succ hi hle ih =>
      rw [forUpM_succ hle]
      refine ((ih fun i s h1 h2 => hstep i s h1 (by omega)).bind
        fun t ht => hstep hi t hle (by omega) ht).iff ?_
      constructor
      · rintro ⟨hlo, hhi⟩ i h1 h2
        by_cases heq : i = hi
        · rwa [heq]
        · exact hlo i h1 (by omega)
      · intro h
        exact ⟨fun i h1 h2 => h i h1 (by omega), h hi hle (by omega)⟩

end Guarded

end Meds.Core
