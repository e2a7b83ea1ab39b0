/-
  Meds.Core.Session

  Partial computations that keep a log of what they exchanged.

  A `Session ω ε α` is a `Run ε` that threads a log of type `ω`.
  `x.Ends e a e'` says that from log `e` it ends with value `a` and log
  `e'`.  The rules run a session forward: one for `bind`, one for the first
  round of an unbounded loop, and one for a counted loop that is to keep in
  step with a program that has no log.
-/

import Meds.Core.Loop

namespace Meds.Core

/-- A computation over `Run` with a log. -/
abbrev Session (ω ε : Type) : Type → Type := StateT ω (Run ε)

namespace Session

variable {ω ε ε' α β σ τ : Type}

/-- From log `e` the session ends with value `a` and log `e'`. -/
def Ends (x : Session ω ε α) (e : ω) (a : α) (e' : ω) : Prop := Run.Returns (x e) (a, e')

theorem Ends.unique {x : Session ω ε α} {e e₁ e₂ : ω} {a b : α} (h₁ : x.Ends e a e₁)
    (h₂ : x.Ends e b e₂) : a = b ∧ e₁ = e₂ :=
  Prod.mk.inj (Run.Returns.unique h₁ h₂)

theorem ends_pure (a : α) (e : ω) : (pure a : Session ω ε α).Ends e a e := Run.returns_pure.mpr rfl

theorem Ends.bind {x : Session ω ε α} {f : α → Session ω ε β} {e e₁ e₂ : ω} {a : α} {b : β}
    (hx : x.Ends e a e₁) (hf : (f a).Ends e₁ b e₂) : (x >>= f).Ends e b e₂ :=
  Run.returns_bind.mpr ⟨(a, e₁), hx, hf⟩

theorem ends_bind {x : Session ω ε α} {f : α → Session ω ε β} {e e₂ : ω} {b : β} :
    (x >>= f).Ends e b e₂ ↔ ∃ a e₁, x.Ends e a e₁ ∧ (f a).Ends e₁ b e₂ := by
  refine ⟨fun h => ?_, fun ⟨a, e₁, hx, hf⟩ => hx.bind hf⟩
  obtain ⟨⟨a, e₁⟩, hx, hf⟩ := Run.returns_bind.mp h
  exact ⟨a, e₁, hx, hf⟩

/-- A first step that is known to end leaves the rest of the session to end. -/
theorem Ends.rest {x : Session ω ε α} {f : α → Session ω ε β} {e e₁ e₂ : ω} {a : α} {b : β}
    (h : (x >>= f).Ends e b e₂) (hx : x.Ends e a e₁) : (f a).Ends e₁ b e₂ := by
  obtain ⟨a', e₁', hx', hf⟩ := ends_bind.mp h
  obtain ⟨rfl, rfl⟩ := hx'.unique hx
  exact hf

/-- A program that has no log. -/
def lift (x : Run ε α) : Session ω ε α := fun e => x >>= fun a => pure (a, e)

theorem ends_lift {x : Run ε α} {a : α} (h : x.Returns a) (e : ω) : (lift x).Ends e a e :=
  Run.returns_bind.mpr ⟨a, h, Run.returns_pure.mpr rfl⟩

theorem returns_of_ends_lift {x : Run ε α} {a : α} {e e' : ω} (h : (lift x).Ends e a e') :
    x.Returns a := by
  obtain ⟨a', ha', h⟩ := Run.returns_bind.mp h
  obtain ⟨rfl, -⟩ := Prod.mk.inj (Run.returns_pure.mp h)
  exact ha'

/-- Change the log. -/
def emit (f : ω → ω) : Session ω ε Unit := fun e => pure ((), f e)

theorem ends_emit (f : ω → ω) (e : ω) : (emit f : Session ω ε Unit).Ends e () (f e) :=
  Run.returns_pure.mpr rfl

/-- The next state of a loop, or its result, beside the log. -/
def settle : (σ ⊕ α) × ω → (σ × ω) ⊕ (α × ω)
  | (.inl s, e) => .inl (s, e)
  | (.inr a, e) => .inr (a, e)

/-- `while (1 == 1)` over sessions. -/
def loop (body : σ → Session ω ε (σ ⊕ α)) (s : σ) : Session ω ε α :=
  fun e => Run.loop (fun c => body c.1 c.2 >>= fun r => pure (settle r)) (s, e)

theorem ends_loop_break {body : σ → Session ω ε (σ ⊕ α)} {s : σ} {a : α} {e e' : ω}
    (h : (body s).Ends e (.inr a) e') : (loop body s).Ends e a e' :=
  Run.returns_loop_break (Run.returns_bind.mpr ⟨_, h, Run.returns_pure.mpr rfl⟩)

/-- A counted loop of sessions keeps in step with one of plain programs. -/
theorem forUpM_simulation {lo hi : Nat} {f : Nat → σ → Run ε' σ} {g : Nat → τ → Session ω ε τ}
    (R : Nat → σ → τ → ω → Prop) (hle : lo ≤ hi)
    (hstep : ∀ i s t e s', lo ≤ i → i < hi → R i s t e → (f i s).Returns s' →
      ∃ t' e', (g i t).Ends e t' e' ∧ R (i + 1) s' t' e') {s s' : σ} {t : τ} {e : ω}
    (h0 : R lo s t e) (h : (forUpM lo hi f s).Returns s') :
    ∃ t' e', Ends (forUpM lo hi g t) e t' e' ∧ R hi s' t' e' := by
  induction hi, hle using Nat.le_induction generalizing s' with
  | base =>
      rw [forUpM_self, Run.returns_pure] at h
      subst h
      rw [forUpM_self]
      exact ⟨t, e, ends_pure t e, h0⟩
  | succ hi hle ih =>
      rw [forUpM_succ hle, Run.returns_bind] at h
      obtain ⟨u, hu, hs'⟩ := h
      obtain ⟨v, e₁, hv, huv⟩ := ih (fun i s t e s' h1 h2 => hstep i s t e s' h1 (by omega)) hu
      obtain ⟨t', e₂, ht', hR⟩ := hstep hi u v e₁ s' hle (by omega) huv hs'
      rw [forUpM_succ hle]
      exact ⟨t', e₂, hv.bind ht', hR⟩

/-- The converse: where a round of the sessions can only end when the round of
    the plain programs does, the sessions end only when those do. -/
theorem forUpM_converse {lo hi : Nat} {f : Nat → σ → Run ε' σ} {g : Nat → τ → Session ω ε τ}
    (R : Nat → σ → τ → ω → Prop) (hle : lo ≤ hi)
    (hstep : ∀ i s t e s', lo ≤ i → i < hi → R i s t e → (f i s).Returns s' →
      ∃ t' e', (g i t).Ends e t' e' ∧ R (i + 1) s' t' e')
    (hback : ∀ i s t e t' e', lo ≤ i → i < hi → R i s t e → (g i t).Ends e t' e' →
      ∃ s', (f i s).Returns s') {s : σ} {t t' : τ} {e e' : ω}
    (h0 : R lo s t e) (h : Ends (forUpM lo hi g t) e t' e') :
    ∃ s', (forUpM lo hi f s).Returns s' := by
  induction hi, hle using Nat.le_induction generalizing t' e' with
  | base => exact ⟨s, by rw [forUpM_self]; exact Run.returns_pure.mpr rfl⟩
  | succ hi hle ih =>
      rw [forUpM_succ hle] at h
      obtain ⟨v, e₁, hv, hlast⟩ := ends_bind.mp h
      obtain ⟨u, hu⟩ := ih (fun i s t e s' h1 h2 => hstep i s t e s' h1 (by omega))
        (fun i s t e t' e' h1 h2 => hback i s t e t' e' h1 (by omega)) hv
      -- the rounds so far are in step, so the last one can be turned around
      obtain ⟨v', e₁', hv', hR⟩ := forUpM_simulation R hle
        (fun i s t e s' h1 h2 => hstep i s t e s' h1 (by omega)) h0 hu
      obtain ⟨rfl, rfl⟩ := hv'.unique hv
      obtain ⟨s', hs'⟩ := hback hi u v' e₁' t' e' hle (by omega) hR hlast
      exact ⟨s', by rw [forUpM_succ hle]; exact Run.returns_bind.mpr ⟨u, hu, hs'⟩⟩

/-- A counted loop of sessions whose rounds end and keep an invariant. -/
theorem forUpM_ends {lo hi : Nat} {g : Nat → τ → Session ω ε τ} (I : Nat → τ → ω → Prop)
    (hle : lo ≤ hi)
    (hstep : ∀ i t e, lo ≤ i → i < hi → I i t e →
      ∃ t' e', (g i t).Ends e t' e' ∧ I (i + 1) t' e') {t : τ} {e : ω} (h0 : I lo t e) :
    ∃ t' e', Ends (forUpM lo hi g t) e t' e' ∧ I hi t' e' := by
  induction hi, hle using Nat.le_induction with
  | base =>
      rw [forUpM_self]
      exact ⟨t, e, ends_pure t e, h0⟩
  | succ hi hle ih =>
      obtain ⟨v, e₁, hv, hI⟩ := ih fun i t e h1 h2 => hstep i t e h1 (by omega)
      obtain ⟨t', e₂, ht', hI'⟩ := hstep hi v e₁ hle (by omega) hI
      rw [forUpM_succ hle]
      exact ⟨t', e₂, hv.bind ht', hI'⟩

/-- A counted loop of sessions that computes a counted loop of functions, where
    the log before a round depends on its index only. -/
theorem forUpM_ends_forUp {lo hi : Nat} {g : Nat → τ → Session ω ε τ} {f : Nat → τ → τ}
    (log : Nat → ω) (hle : lo ≤ hi)
    (hstep : ∀ i t, lo ≤ i → i < hi → (g i t).Ends (log i) (f i t) (log (i + 1))) (t : τ) :
    Ends (forUpM lo hi g t) (log lo) (forUp lo hi f t) (log hi) := by
  induction hi, hle using Nat.le_induction with
  | base =>
      rw [forUpM_self, forUp_self]
      exact ends_pure t _
  | succ hi hle ih =>
      rw [forUpM_succ hle, forUp_succ hle]
      exact (ih fun i t h1 h2 => hstep i t h1 (by omega)).bind (hstep hi _ hle (by omega))

end Session

end Meds.Core
