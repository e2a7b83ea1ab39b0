/-
  Meds.Core.Checked

  A program and its checked version, which stops with faults of its own where
  a check fails.  `Checked c x y Q` says that no check of `y` fails: `y` is
  `x` with its faults renamed by `c`, and what `x` returns satisfies `Q`.
-/

import Meds.Core.Dialog

namespace Meds.Core.Run

variable {ε ε' α β σ : Type} {c : ε → ε'}

/-! ## Renaming faults -/

@[simp] theorem mapFault_pure (a : α) : mapFault c (pure a) = pure a := rfl

theorem mapFault_bind (x : Run ε α) (f : α → Run ε β) :
    mapFault c (x >>= f) = mapFault c x >>= fun a => mapFault c (f a) := by
  ext1 n
  simp only [mapFault, run_bind]
  cases x.run n with
  | none => rfl
  | some r => cases r <;> rfl

theorem mapFault_mapFault {ε'' : Type} (d : ε' → ε'') (x : Run ε α) :
    mapFault d (mapFault c x) = mapFault (fun e => d (c e)) x := by
  ext1 n
  simp only [mapFault]
  cases x.run n with
  | none => rfl
  | some r => cases r <;> rfl

/-- Programs that agree on what the first one returns. -/
theorem bind_congr_returns {x : Run ε α} {f g : α → Run ε β}
    (h : ∀ a, x.Returns a → f a = g a) : x >>= f = x >>= g := by
  ext1 n
  rw [run_bind, run_bind]
  cases hx : x.run n with
  | none => rfl
  | some r =>
      cases r with
      | error e => rfl
      | ok a =>
          simp only
          rw [h a ⟨n, hx⟩]

theorem ofOption_bind (e : ε) (x : Option α) (f : α → Option β) :
    ofOption e (x >>= f) = ofOption e x >>= fun a => ofOption e (f a) := by
  cases x <;> rfl

theorem ofOption_forUpM (e : ε) (lo hi : Nat) (f : Nat → σ → Option σ) (s : σ) :
    ofOption e (forUpM lo hi f s) = forUpM lo hi (fun i s => ofOption e (f i s)) s := by
  by_cases hle : lo ≤ hi
  · induction hi, hle using Nat.le_induction with
    | base =>
        rw [forUpM_self, forUpM_self]
        rfl
    | succ hi hle ih => rw [forUpM_succ hle, forUpM_succ hle, ofOption_bind, ih]
  · rw [forUpM_of_le (by omega), forUpM_of_le (by omega)]
    rfl

theorem pure_forUp (lo hi : Nat) (f : Nat → σ → σ) (s : σ) :
    (pure (forUp lo hi f s) : Run ε σ) = forUpM lo hi (fun i s => pure (f i s)) s := by
  by_cases hle : lo ≤ hi
  · induction hi, hle using Nat.le_induction with
    | base => rw [forUp_self, forUpM_self]
    | succ hi hle ih => rw [forUp_succ hle, forUpM_succ hle, ← ih, pure_bind]
  · rw [forUp_of_le (by omega), forUpM_of_le (by omega)]

/-! ## Checked programs -/

/-- No check of `y` fails, and what `x` returns satisfies `Q`. -/
structure Checked (c : ε → ε') (x : Run ε α) (y : Run ε' α) (Q : α → Prop) : Prop where
  eq : y = mapFault c x
  post : ∀ a, x.Returns a → Q a

namespace Checked

variable {x : Run ε α} {y : Run ε' α} {f : α → Run ε β} {g : α → Run ε' β}
  {Q Q' : α → Prop} {R : β → Prop}

theorem pure {a : α} (h : Q a) : Checked c (Pure.pure a) (Pure.pure a) Q :=
  ⟨rfl, fun b hb => by rwa [returns_pure.mp hb]⟩

/-- A program without checks. -/
theorem unchecked (x : Run ε α) : Checked c x (mapFault c x) x.Returns := ⟨rfl, fun _ h => h⟩

theorem mono (h : Checked c x y Q) (hQ : ∀ a, Q a → Q' a) : Checked c x y Q' :=
  ⟨h.eq, fun a ha => hQ a (h.post a ha)⟩

/-- The faults of a checked program may be renamed again. -/
theorem mapFault {ε'' : Type} {d : ε' → ε''} (h : Checked c x y Q) :
    Checked (fun e => d (c e)) x (Run.mapFault d y) Q :=
  ⟨by rw [h.eq, mapFault_mapFault], h.post⟩

theorem bind (h : Checked c x y Q) (hf : ∀ a, Q a → Checked c (f a) (g a) R) :
    Checked c (x >>= f) (y >>= g) R := by
  refine ⟨?_, fun b hb => ?_⟩
  · rw [mapFault_bind, h.eq]
    apply bind_congr_returns
    intro a ha
    exact (hf a (h.post a (returns_mapFault.mp ha))).eq
  · obtain ⟨a, ha, hb⟩ := returns_bind.mp hb
    exact (hf a (h.post a ha)).post b hb

/-- The checked version of a step that cannot fail without its checks. -/
theorem of_pure {a : α} (h : Checked c (Pure.pure a) y Q) : y = Pure.pure a ∧ Q a :=
  ⟨h.eq, h.post a (returns_pure.mpr rfl)⟩

/-- Loop rule: the invariant keeps every check of the next round satisfied. -/
theorem forUpM {lo hi : Nat} {f : Nat → σ → Run ε σ} {g : Nat → σ → Run ε' σ}
    (I : Nat → σ → Prop) (hle : lo ≤ hi)
    (hstep : ∀ i s, lo ≤ i → i < hi → I i s → Checked c (f i s) (g i s) (I (i + 1)))
    {s : σ} (h0 : I lo s) :
    Checked c (Meds.Core.forUpM lo hi f s) (Meds.Core.forUpM lo hi g s) (I hi) := by
  induction hi, hle using Nat.le_induction with
  | base =>
      rw [forUpM_self, forUpM_self]
      exact pure h0
  | succ hi hle ih =>
      rw [forUpM_succ hle, forUpM_succ hle]
      exact (ih fun i s h1 h2 => hstep i s h1 (by omega)).bind
        fun t ht => hstep hi t hle (by omega) ht

end Checked

end Meds.Core.Run
