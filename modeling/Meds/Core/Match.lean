/-
  Meds.Core.Match

  Two partial programs side by side.

  `x.Ends r` says that `x` comes to the outcome `r`, a value or a fault.
  `Matches Q x y` says that every outcome of `x` is met by an outcome of `y`
  that `Q` relates to it, and the other way round, so one of them goes on
  forever only when the other does.  `Q` ranges over outcomes, not values: a
  status that one program returns may stand for an exception of the other.
-/

import Meds.Core.Dialog

namespace Meds.Core

namespace Run

variable {ε ε' α β γ δ σ τ : Type}

/-! ## Outcomes -/

/-- The computation comes to the outcome `r`. -/
def Ends (x : Run ε α) (r : Except ε α) : Prop := ∃ n, x.run n = some r

/-- The computation goes on forever. -/
def Diverges (x : Run ε α) : Prop := ∀ r, ¬ x.Ends r

@[simp] theorem ends_pure {a : α} {r : Except ε α} : (pure a : Run ε α).Ends r ↔ r = .ok a := by
  constructor
  · rintro ⟨n, hn⟩
    exact (Option.some.inj hn).symm
  · rintro rfl
    exact ⟨0, rfl⟩

@[simp] theorem ends_fail {e : ε} {r : Except ε α} :
    (fail e : Run ε α).Ends r ↔ r = .error e := by
  constructor
  · rintro ⟨n, hn⟩
    exact (Option.some.inj hn).symm
  · rintro rfl
    exact ⟨0, rfl⟩

theorem Ends.unique {x : Run ε α} {r r' : Except ε α} (h : x.Ends r) (h' : x.Ends r') : r = r' := by
  obtain ⟨n, hn⟩ := h
  obtain ⟨m, hm⟩ := h'
  have h1 := x.mono (Nat.le_max_left n m) hn
  have h2 := x.mono (Nat.le_max_right n m) hm
  rw [h1] at h2
  exact Option.some.inj h2

/-- Programs with the same results and faults have the same outcomes. -/
theorem Equiv.ends {x y : Run ε α} (h : x.Equiv y) (r : Except ε α) : x.Ends r ↔ y.Ends r := by
  cases r with
  | error e => exact h.faults e
  | ok a => exact h.returns a

/-- What follows an outcome: a fault is passed on. -/
def resume (f : α → Run ε β) : Except ε α → Run ε β
  | .ok a => f a
  | .error e => fail e

@[simp] theorem resume_ok (f : α → Run ε β) (a : α) : resume f (.ok a) = f a := rfl

@[simp] theorem resume_error (f : α → Run ε β) (e : ε) : resume f (.error e) = fail e := rfl

theorem ends_bind {x : Run ε α} {f : α → Run ε β} {r : Except ε β} :
    (x >>= f).Ends r ↔ ∃ q, x.Ends q ∧ (resume f q).Ends r := by
  constructor
  · rintro ⟨n, hn⟩
    rw [run_bind] at hn
    cases hx : x.run n with
    | none => simp [hx] at hn
    | some q =>
        rw [hx] at hn
        cases q with
        | error e => exact ⟨.error e, ⟨n, hx⟩, 0, hn⟩
        | ok a => exact ⟨.ok a, ⟨n, hx⟩, n, hn⟩
  · rintro ⟨q, ⟨n, hn⟩, m, hm⟩
    refine ⟨max n m, ?_⟩
    rw [run_bind, x.mono (Nat.le_max_left n m) hn]
    cases q with
    | error e => exact hm
    | ok a => exact (f a).mono (Nat.le_max_right n m) hm

/-! ## Outcomes of loops -/

/-- The outcome of a loop whose last round came to this one; `none` when the
    loop goes on. -/
def roundEnd : Except ε (σ ⊕ α) → Option (Except ε α)
  | .error e => some (.error e)
  | .ok (.inl _) => none
  | .ok (.inr a) => some (.ok a)

theorem roundEnd_map {g : α → β} {r : Except ε (σ ⊕ α)} {q : Except ε α} (h : roundEnd r = some q) :
    roundEnd (r.map (Sum.map id g)) = some (q.map g) := by
  match r, h with
  | .error e, h => exact congrArg some (congrArg (Except.map g) (Option.some.inj h))
  | .ok (.inr a), h => exact congrArg some (congrArg (Except.map g) (Option.some.inj h))

theorem ends_loop {body : σ → Run ε (σ ⊕ α)} {s : σ} {r : Except ε α} :
    (loop body s).Ends r ↔
      ∃ q, (body s).Ends q ∧ (resume (Sum.elim (loop body) pure) q).Ends r := by
  rw [(loop_equiv body s).ends, ends_bind]

theorem ends_loop_last {body : σ → Run ε (σ ⊕ α)} {s : σ} {q : Except ε (σ ⊕ α)}
    {r : Except ε α} (h : (body s).Ends q) (hr : roundEnd q = some r) : (loop body s).Ends r := by
  rw [ends_loop]
  refine ⟨q, h, ?_⟩
  match q, hr with
  | .error e, hr => exact ends_fail.mpr (Option.some.inj hr).symm
  | .ok (.inr a), hr => exact ends_pure.mpr (Option.some.inj hr).symm

theorem ends_loop_continue {body : σ → Run ε (σ ⊕ α)} {s s' : σ} {r : Except ε α}
    (h : (body s).Ends (.ok (.inl s'))) (h' : (loop body s').Ends r) : (loop body s).Ends r :=
  ends_loop.mpr ⟨_, h, h'⟩

/-- Induction along the rounds of a loop that comes to an outcome. -/
theorem ends_loop_induction {body : σ → Run ε (σ ⊕ α)} {r : Except ε α} {P : σ → Prop}
    (hlast : ∀ s q, (body s).Ends q → roundEnd q = some r → P s)
    (hcont : ∀ s s', (body s).Ends (.ok (.inl s')) → (loop body s').Ends r → P s' → P s)
    {s : σ} (h : (loop body s).Ends r) : P s := by
  obtain ⟨n, hn⟩ := h
  have key : ∀ k s, loopRounds body n k s = some r → P s := by
    intro k
    induction k with
    | zero => intro s hk; cases hk
    | succ k ih =>
        intro s hk
        rw [loopRounds] at hk
        cases hb : (body s).run n with
        | none => simp [hb] at hk
        | some q =>
            rw [hb] at hk
            rcases q with e | s' | a
            · exact hlast s _ ⟨n, hb⟩ hk
            · exact hcont s s' ⟨n, hb⟩
                ⟨max n k, loopRounds_mono body (by omega) (by omega) hk⟩ (ih s' hk)
            · exact hlast s _ ⟨n, hb⟩ hk
  exact key n s hn

/-! ## Programs that go on forever -/

theorem Diverges.bind {x : Run ε α} (hx : x.Diverges) (f : α → Run ε β) : (x >>= f).Diverges := by
  intro r hr
  obtain ⟨q, hq, -⟩ := ends_bind.mp hr
  exact hx q hq

/-- What follows goes on forever, and no fault comes before it. -/
theorem diverges_bind {x : Run ε α} {f : α → Run ε β} (hx : x.Safe)
    (hf : ∀ a, x.Returns a → (f a).Diverges) : (x >>= f).Diverges := by
  intro r hr
  obtain ⟨q, hq, hr⟩ := ends_bind.mp hr
  cases q with
  | error e => exact hx e hq
  | ok a => exact hf a hq r hr

/-- A loop in which every round asks for another one. -/
theorem diverges_loop {body : σ → Run ε (σ ⊕ α)} {I : σ → Prop}
    (hround : ∀ s, I s → ∃ s', (body s).Returns (.inl s') ∧ I s') {s : σ} (hs : I s) :
    (loop body s).Diverges := by
  intro r hr
  refine ends_loop_induction (P := fun s => ¬ I s) ?_ ?_ hr hs
  · intro s q hq hlast hs
    obtain ⟨s', hs', -⟩ := hround s hs
    rw [Ends.unique hq hs'] at hlast
    cases hlast
  · intro s s' hs' _ ih hs
    obtain ⟨s'', hs'', hI⟩ := hround s hs
    cases Ends.unique hs' hs''
    exact ih hI

/-! ## Loops that draw -/

/-- A loop that tests first and starts with a rejected value is a loop that
    draws first. -/
theorem loop_test_first {bad : α → Prop} [DecidablePred bad] (draw : σ → α × σ) {a : α}
    (ha : bad a) (s : σ) :
    (loop (fun v : α × σ => if bad v.1 then pure (.inl (draw v.2)) else pure (.inr v))
        (a, s) : Run ε (α × σ)).Equiv
      (loop (fun s : σ =>
        if bad (draw s).1 then pure (.inl (draw s).2) else pure (.inr (draw s))) s) := by
  -- by induction on the run of the loop that tests first; a good value is returned at once
  have forth : ∀ (r : Except ε (α × σ)) (v : α × σ),
      (loop (fun v : α × σ => if bad v.1 then pure (.inl (draw v.2)) else pure (.inr v)) v).Ends r →
      if bad v.1 then
        (loop (fun s : σ =>
          if bad (draw s).1 then pure (.inl (draw s).2) else pure (.inr (draw s))) v.2).Ends r
      else r = .ok v := by
    intro r v h
    refine ends_loop_induction (P := fun v : α × σ => if bad v.1 then
        (loop (fun s : σ =>
          if bad (draw s).1 then pure (.inl (draw s).2) else pure (.inr (draw s))) v.2).Ends r
      else r = .ok v) ?_ ?_ h
    · intro v q hq hr
      by_cases hv : bad v.1
      · rw [if_pos hv, ends_pure] at hq
        rw [hq] at hr
        cases hr
      · rw [if_neg hv, ends_pure] at hq
        rw [hq] at hr
        rw [if_neg hv]
        exact (Option.some.inj hr).symm
    · intro v v' hq _ ih
      by_cases hv : bad v.1
      · rw [if_pos hv, ends_pure] at hq
        obtain rfl : v' = draw v.2 := by
          cases hq
          rfl
        rw [if_pos hv]
        by_cases hd : bad (draw v.2).1
        · rw [if_pos hd] at ih
          exact ends_loop_continue (by rw [if_pos hd, ends_pure]) ih
        · rw [if_neg hd] at ih
          exact ends_loop_last (q := .ok (.inr (draw v.2))) (by rw [if_neg hd, ends_pure])
            (by rw [ih]; rfl)
      · rw [if_neg hv, ends_pure] at hq
        cases hq
  -- by induction on the run of the loop that draws first, from any bad value
  have back : ∀ (r : Except ε (α × σ)) (s : σ),
      (loop (fun s : σ =>
        if bad (draw s).1 then pure (.inl (draw s).2) else pure (.inr (draw s))) s).Ends r →
      ∀ a, bad a →
        (loop (fun v : α × σ => if bad v.1 then pure (.inl (draw v.2)) else pure (.inr v))
          (a, s)).Ends r := by
    intro r s h
    refine ends_loop_induction (P := fun s => ∀ a, bad a →
        (loop (fun v : α × σ => if bad v.1 then pure (.inl (draw v.2)) else pure (.inr v))
          (a, s)).Ends r) ?_ ?_ h
    · intro s q hq hr a ha
      refine @ends_loop_continue _ _ _ _ (a, s) (draw s) _ (by rw [if_pos ha, ends_pure]) ?_
      by_cases hd : bad (draw s).1
      · rw [if_pos hd, ends_pure] at hq
        rw [hq] at hr
        cases hr
      · rw [if_neg hd, ends_pure] at hq
        rw [hq] at hr
        exact ends_loop_last (q := .ok (.inr (draw s))) (by rw [if_neg hd, ends_pure]) hr
    · intro s s' hq _ ih a ha
      refine @ends_loop_continue _ _ _ _ (a, s) (draw s) _ (by rw [if_pos ha, ends_pure]) ?_
      by_cases hd : bad (draw s).1
      · rw [if_pos hd, ends_pure] at hq
        obtain rfl : s' = (draw s).2 := by
          cases hq
          rfl
        exact ih _ hd
      · rw [if_neg hd, ends_pure] at hq
        cases hq
  constructor
  · intro b
    refine ⟨fun h => ?_, fun h => back (.ok b) s h a ha⟩
    have := forth (.ok b) (a, s) h
    rwa [if_pos ha] at this
  · intro e
    refine ⟨fun h => ?_, fun h => back (.error e) s h a ha⟩
    have := forth (.error e) (a, s) h
    rwa [if_pos ha] at this

/-! ## Matching programs -/

/-- The outcomes of `x` and `y` are related both ways. -/
structure Matches (Q : Except ε α → Except ε' β → Prop) (x : Run ε α) (y : Run ε' β) : Prop where
  forth : ∀ r, x.Ends r → ∃ r', y.Ends r' ∧ Q r r'
  back : ∀ r', y.Ends r' → ∃ r, x.Ends r ∧ Q r r'

/-- Both come to a value, and the values are related. -/
def Values (R : α → β → Prop) (r : Except ε α) (r' : Except ε' β) : Prop :=
  ∃ a b, r = .ok a ∧ r' = .ok b ∧ R a b

namespace Matches

variable {Q Q' : Except ε α → Except ε' β → Prop} {x x' : Run ε α} {y y' : Run ε' β}

theorem symm (h : Matches Q x y) : Matches (fun r' r => Q r r') y x := ⟨h.back, h.forth⟩

theorem imp (h : Matches Q x y) (hQ : ∀ r r', Q r r' → Q' r r') : Matches Q' x y := by
  constructor
  · intro r hr
    obtain ⟨r', hr', hq⟩ := h.forth r hr
    exact ⟨r', hr', hQ _ _ hq⟩
  · intro r' hr'
    obtain ⟨r, hr, hq⟩ := h.back r' hr'
    exact ⟨r, hr, hQ _ _ hq⟩

theorem congr_left (h : Matches Q x y) (hx : x'.Equiv x) : Matches Q x' y := by
  constructor
  · intro r hr
    exact h.forth r ((hx.ends r).mp hr)
  · intro r' hr'
    obtain ⟨r, hr, hq⟩ := h.back r' hr'
    exact ⟨r, (hx.ends r).mpr hr, hq⟩

/-- The related outcomes are outcomes of `x`. -/
theorem reached (h : Matches Q x y) : Matches (fun r r' => x.Ends r ∧ Q r r') x y := by
  constructor
  · intro r hr
    obtain ⟨r', hr', hQ⟩ := h.forth r hr
    exact ⟨r', hr', hr, hQ⟩
  · intro r' hr'
    obtain ⟨r, hr, hQ⟩ := h.back r' hr'
    exact ⟨r, hr, hr, hQ⟩

/-- One goes on forever exactly when the other does. -/
theorem diverges_iff (h : Matches Q x y) : x.Diverges ↔ y.Diverges := by
  constructor
  · intro hx r' hr'
    obtain ⟨r, hr, -⟩ := h.back r' hr'
    exact hx r hr
  · intro hy r hr
    obtain ⟨r', hr', -⟩ := h.forth r hr
    exact hy r' hr'

theorem ofOutcomes {r : Except ε α} {r' : Except ε' β} (hx : x.Ends r) (hy : y.Ends r')
    (h : Q r r') : Matches Q x y := by
  constructor
  · intro q hq
    exact ⟨r', hy, by rw [hq.unique hx]; exact h⟩
  · intro q hq
    exact ⟨r, hx, by rw [hq.unique hy]; exact h⟩

theorem pure {a : α} {b : β} (h : Q (.ok a) (.ok b)) :
    Matches Q (Pure.pure a : Run ε α) (Pure.pure b : Run ε' β) :=
  ofOutcomes (ends_pure.mpr rfl) (ends_pure.mpr rfl) h

/-- A value against an exception. -/
theorem pure_fail {a : α} {e : ε'} (h : Q (.ok a) (.error e)) :
    Matches Q (Pure.pure a : Run ε α) (fail e : Run ε' β) :=
  ofOutcomes (ends_pure.mpr rfl) (ends_fail.mpr rfl) h

theorem values {R : α → β → Prop} {a : α} {b : β} (h : R a b) :
    Matches (Values R) (Pure.pure a : Run ε α) (Pure.pure b : Run ε' β) :=
  pure ⟨a, b, rfl, rfl, h⟩

theorem bind {f : α → Run ε γ} {g : β → Run ε' δ} {Q' : Except ε γ → Except ε' δ → Prop}
    (h : Matches Q x y) (hf : ∀ r r', Q r r' → Matches Q' (resume f r) (resume g r')) :
    Matches Q' (x >>= f) (y >>= g) := by
  constructor
  · intro r hr
    obtain ⟨q, hq, hr⟩ := ends_bind.mp hr
    obtain ⟨q', hq', hQ⟩ := h.forth q hq
    obtain ⟨r', hr', hQ'⟩ := (hf q q' hQ).forth r hr
    exact ⟨r', ends_bind.mpr ⟨q', hq', hr'⟩, hQ'⟩
  · intro r' hr'
    obtain ⟨q', hq', hr'⟩ := ends_bind.mp hr'
    obtain ⟨q, hq, hQ⟩ := h.back q' hq'
    obtain ⟨r, hr, hQ'⟩ := (hf q q' hQ).back r' hr'
    exact ⟨r, ends_bind.mpr ⟨q, hq, hr⟩, hQ'⟩

theorem bind_values {R : α → β → Prop} {f : α → Run ε γ} {g : β → Run ε' δ}
    {Q' : Except ε γ → Except ε' δ → Prop} (h : Matches (Values R) x y)
    (hf : ∀ a b, R a b → Matches Q' (f a) (g b)) : Matches Q' (x >>= f) (y >>= g) := by
  apply h.bind
  rintro _ _ ⟨a, b, rfl, rfl, hR⟩
  exact hf a b hR

/-- A function of the value of the second program. -/
theorem map_right {f : β → δ} {Q' : Except ε α → Except ε' δ → Prop} (h : Matches Q x y)
    (hQ : ∀ r r', Q r r' → Q' r (r'.map f)) : Matches Q' x (y >>= fun b => Pure.pure (f b)) := by
  have hends : ∀ r', (resume (fun b => (Pure.pure (f b) : Run ε' δ)) r').Ends (r'.map f) := by
    intro r'
    cases r' with
    | ok b => exact ends_pure.mpr rfl
    | error e => exact ends_fail.mpr rfl
  constructor
  · intro r hr
    obtain ⟨r', hr', hq⟩ := h.forth r hr
    exact ⟨_, ends_bind.mpr ⟨r', hr', hends r'⟩, hQ _ _ hq⟩
  · intro q hq
    obtain ⟨r', hr', hq⟩ := ends_bind.mp hq
    obtain ⟨r, hr, hQ'⟩ := h.back r' hr'
    rw [hq.unique (hends r')]
    exact ⟨r, hr, hQ _ _ hQ'⟩

/-- Programs that come to related values do not fault. -/
theorem not_faults {R : α → β → Prop} (h : Matches (Values R) x y) (e : ε') : ¬ y.Faults e := by
  intro he
  obtain ⟨-, -, -, b, -, hb, -⟩ := h.back (.error e) he
  cases hb

theorem exists_of_returns {R : α → β → Prop} (h : Matches (Values R) x y) {b : β}
    (hb : y.Returns b) : ∃ a, x.Returns a ∧ R a b := by
  obtain ⟨-, hx, a, b', rfl, hb', hR⟩ := h.back (.ok b) hb
  obtain rfl := Except.ok.inj hb'
  exact ⟨a, hx, hR⟩

/-- What one round of two loops may come to. -/
def Round (R : σ → τ → Prop) (Q : Except ε α → Except ε' β → Prop) (r : Except ε (σ ⊕ α))
    (r' : Except ε' (τ ⊕ β)) : Prop :=
  (∃ s t, r = .ok (.inl s) ∧ r' = .ok (.inl t) ∧ R s t) ∨
    ∃ q q', roundEnd r = some q ∧ roundEnd r' = some q' ∧ Q q q'

theorem round_continue {R : σ → τ → Prop} {s : σ} {t : τ} (h : R s t) :
    Matches (Round R Q) (Pure.pure (.inl s)) (Pure.pure (.inl t)) :=
  pure (Or.inl ⟨s, t, rfl, rfl, h⟩)

theorem round_break {R : σ → τ → Prop} {a : α} {b : β} (h : Q (.ok a) (.ok b)) :
    Matches (Round R Q) (Pure.pure (.inr a)) (Pure.pure (.inr b)) :=
  pure (Or.inr ⟨_, _, rfl, rfl, h⟩)

theorem loop_forth {body : σ → Run ε (σ ⊕ α)} {body' : τ → Run ε' (τ ⊕ β)} {R : σ → τ → Prop}
    (hbody : ∀ s t, R s t → Matches (Round R Q) (body s) (body' t)) {s : σ} {t : τ} (hR : R s t)
    {r : Except ε α} (h : (Run.loop body s).Ends r) :
    ∃ r', (Run.loop body' t).Ends r' ∧ Q r r' := by
  refine ends_loop_induction
    (P := fun s => ∀ t, R s t → ∃ r', (Run.loop body' t).Ends r' ∧ Q r r') ?_ ?_ h t hR
  · intro s q hq hr t hR
    obtain ⟨q', hq', ⟨s', _, hs', -, -⟩ | ⟨r₀, r', hr₀, hr', hQ⟩⟩ := (hbody s t hR).forth q hq
    · rw [hs'] at hr
      cases hr
    · obtain rfl : r₀ = r := Option.some.inj (hr₀.symm.trans hr)
      exact ⟨r', ends_loop_last hq' hr', hQ⟩
  · intro s s' hq _ ih t hR
    obtain ⟨q', hq', ⟨s₁, t', hs', ht', hR'⟩ | ⟨r₀, -, hr₀, -, -⟩⟩ := (hbody s t hR).forth _ hq
    · cases hs'
      obtain ⟨r', hr', hQ⟩ := ih t' hR'
      rw [ht'] at hq'
      exact ⟨r', ends_loop_continue hq' hr', hQ⟩
    · cases hr₀

/-- Loops match when their rounds do. -/
theorem loop {body : σ → Run ε (σ ⊕ α)} {body' : τ → Run ε' (τ ⊕ β)} {R : σ → τ → Prop}
    (hbody : ∀ s t, R s t → Matches (Round R Q) (body s) (body' t)) {s : σ} {t : τ}
    (hR : R s t) : Matches Q (Run.loop body s) (Run.loop body' t) := by
  constructor
  · intro r hr
    exact loop_forth hbody hR hr
  · intro r' hr'
    refine loop_forth (R := fun t s => R s t) (Q := fun r' r => Q r r') (fun t s hR => ?_) hR hr'
    apply (hbody s t hR).symm.imp
    rintro _ _ (⟨s, t, hs, ht, hR⟩ | ⟨q, q', hq, hq', hQ⟩)
    · exact Or.inl ⟨t, s, ht, hs, hR⟩
    · exact Or.inr ⟨q', q, hq', hq, hQ⟩

/-- Counted loops match when their rounds do; a round starts from the outcome
    of the one before. -/
theorem forUpM {lo hi : Nat} {f : Nat → σ → Run ε σ} {g : Nat → τ → Run ε' τ}
    (Q : Nat → Except ε σ → Except ε' τ → Prop) (hle : lo ≤ hi)
    (hstep : ∀ i r r', lo ≤ i → i < hi → Q i r r' →
      Matches (Q (i + 1)) (resume (f i) r) (resume (g i) r'))
    {s : σ} {t : τ} (h0 : Q lo (.ok s) (.ok t)) :
    Matches (Q hi) (Core.forUpM lo hi f s) (Core.forUpM lo hi g t) := by
  induction hi, hle using Nat.le_induction with
  | base =>
      rw [forUpM_self, forUpM_self]
      exact pure h0
  | succ hi hle ih =>
      rw [forUpM_succ hle, forUpM_succ hle]
      apply (ih fun i r r' h1 h2 => hstep i r r' h1 (by omega)).bind
      intro r r' hQ
      exact hstep hi r r' hle (by omega) hQ

/-- Counted loops whose rounds all come to values. -/
theorem forUpM_values {lo hi : Nat} {f : Nat → σ → Run ε σ} {g : Nat → τ → Run ε' τ}
    (R : Nat → σ → τ → Prop) (hle : lo ≤ hi)
    (hstep : ∀ i s t, lo ≤ i → i < hi → R i s t → Matches (Values (R (i + 1))) (f i s) (g i t))
    {s : σ} {t : τ} (h0 : R lo s t) :
    Matches (Values (R hi)) (Core.forUpM lo hi f s) (Core.forUpM lo hi g t) := by
  apply forUpM (fun i => Values (R i)) hle _ ⟨s, t, rfl, rfl, h0⟩
  rintro i _ _ h1 h2 ⟨s, t, rfl, rfl, hR⟩
  exact hstep i s t h1 h2 hR

end Matches

/-! ## Faults of a larger program -/

theorem ends_mapFault {f : ε → ε'} {x : Run ε α} {r : Except ε' α} :
    (mapFault f x).Ends r ↔ ∃ q, x.Ends q ∧ r = q.mapError f := by
  cases r with
  | ok a =>
      refine (@returns_mapFault _ _ _ f x a).trans ⟨fun h => ⟨.ok a, h, rfl⟩, ?_⟩
      rintro ⟨q, hq, hr⟩
      cases q with
      | ok b => exact Except.ok.inj hr ▸ hq
      | error e => cases hr
  | error e' =>
      refine (@faults_mapFault _ _ _ f x e').trans ⟨?_, ?_⟩
      · rintro ⟨e, he, rfl⟩
        exact ⟨.error e, he, rfl⟩
      · rintro ⟨q, hq, hr⟩
        cases q with
        | ok b => cases hr
        | error e => exact ⟨e, hq, (Except.error.inj hr).symm⟩

theorem Matches.mapFault_left {ε₂ : Type} {f : ε → ε₂} {x : Run ε α} {y : Run ε' β} {R : α → β → Prop}
    (h : Matches (Values R) x y) : Matches (Values R) (mapFault f x) y := by
  constructor
  · intro r hr
    obtain ⟨q, hq, rfl⟩ := ends_mapFault.mp hr
    obtain ⟨r', hr', a, b, rfl, rfl, hR⟩ := h.forth q hq
    exact ⟨_, hr', a, b, rfl, rfl, hR⟩
  · intro r' hr'
    obtain ⟨-, hq, a, b, rfl, rfl, hR⟩ := h.back r' hr'
    exact ⟨.ok a, ends_mapFault.mpr ⟨_, hq, rfl⟩, a, b, rfl, rfl, hR⟩

theorem Matches.mapFault_right {ε₂ : Type} {f : ε' → ε₂} {x : Run ε α} {y : Run ε' β} {R : α → β → Prop}
    (h : Matches (Values R) x y) : Matches (Values R) x (mapFault f y) := by
  have hsymm : Matches (Values fun b a => R a b) y x := by
    apply h.symm.imp
    rintro _ _ ⟨a, b, rfl, rfl, hR⟩
    exact ⟨b, a, rfl, rfl, hR⟩
  apply (@Matches.mapFault_left _ _ _ _ _ f _ _ _ hsymm).symm.imp
  rintro _ _ ⟨b, a, rfl, rfl, hR⟩
  exact ⟨a, b, rfl, rfl, hR⟩

/-! ## Programs with the same faults -/

/-- Related values, or the same fault. -/
inductive Alike (R : α → β → Prop) : Except ε α → Except ε β → Prop
  | values {a : α} {b : β} (h : R a b) : Alike R (.ok a) (.ok b)
  | faults (e : ε) : Alike R (.error e) (.error e)

namespace Matches

theorem alike {R : α → β → Prop} {a : α} {b : β} (h : R a b) :
    Matches (Alike R) (Pure.pure a : Run ε α) (Pure.pure b : Run ε β) :=
  pure (.values h)

/-- A program is like itself. -/
theorem alike_self (x : Run ε α) : Matches (Alike fun a b => x.Returns a ∧ a = b) x x := by
  have hself : ∀ r, x.Ends r → Alike (fun a b => x.Returns a ∧ a = b) r r := by
    intro r hr
    cases r with
    | ok a => exact .values ⟨hr, rfl⟩
    | error e => exact .faults e
  exact ⟨fun r hr => ⟨r, hr, hself r hr⟩, fun r hr => ⟨r, hr, hself r hr⟩⟩

theorem bind_alike {x : Run ε α} {y : Run ε β} {R : α → β → Prop} {S : γ → δ → Prop}
    {f : α → Run ε γ} {g : β → Run ε δ} (h : Matches (Alike R) x y)
    (hf : ∀ a b, R a b → Matches (Alike S) (f a) (g b)) :
    Matches (Alike S) (x >>= f) (y >>= g) := by
  apply h.bind
  intro r r' hr
  cases hr with
  | values h => exact hf _ _ h
  | faults e => exact ofOutcomes (ends_fail.mpr rfl) (ends_fail.mpr rfl) (.faults e)

theorem mapFault {x : Run ε α} {y : Run ε β} {R : α → β → Prop} (h : Matches (Alike R) x y)
    (f : ε → ε') : Matches (Alike R) (Run.mapFault f x) (Run.mapFault f y) := by
  have hmap : ∀ q q', Alike R q q' → Alike R (q.mapError f) (q'.mapError f) := by
    intro q q' hq
    cases hq with
    | values h => exact .values h
    | faults e => exact .faults (f e)
  constructor
  · intro r hr
    obtain ⟨q, hq, rfl⟩ := ends_mapFault.mp hr
    obtain ⟨q', hq', hQ⟩ := h.forth q hq
    exact ⟨_, ends_mapFault.mpr ⟨q', hq', rfl⟩, hmap q q' hQ⟩
  · intro r' hr'
    obtain ⟨q', hq', rfl⟩ := ends_mapFault.mp hr'
    obtain ⟨q, hq, hQ⟩ := h.back q' hq'
    exact ⟨_, ends_mapFault.mpr ⟨q, hq, rfl⟩, hmap q q' hQ⟩

/-- Programs with the same values and the same faults. -/
theorem equiv {x y : Run ε α} (h : Matches (Alike Eq) x y) : x.Equiv y := by
  have hends : ∀ r, x.Ends r ↔ y.Ends r := by
    intro r
    constructor
    · intro hr
      obtain ⟨r', hr', hQ⟩ := h.forth r hr
      cases hQ with
      | values h => exact h ▸ hr'
      | faults e => exact hr'
    · intro hr
      obtain ⟨r', hr', hQ⟩ := h.back r hr
      cases hQ with
      | values h => exact h ▸ hr'
      | faults e => exact hr'
  exact ⟨fun a => hends (.ok a), fun e => hends (.error e)⟩

/-- A loop whose rounds are those of a counted loop, and which ends after them. -/
theorem loop_forUpM {body : σ → Run ε (σ ⊕ α)} {g : Nat → τ → Run ε τ} (R : Nat → σ → τ → Prop)
    {S : α → τ → Prop} {n : Nat}
    (hround : ∀ i s t, i < n → R i s t →
      Matches (Alike fun r t' => ∃ s', r = .inl s' ∧ R (i + 1) s' t') (body s) (g i t))
    (hlast : ∀ s t, R n s t → ∃ a, body s = Pure.pure (.inr a) ∧ S a t) {i : Nat} (hi : i ≤ n)
    {s : σ} {t : τ} (h : R i s t) :
    Matches (Alike S) (Run.loop body s) (Core.forUpM i n g t) := by
  -- induction on the rounds that are left
  induction hi using Nat.decreasingInduction generalizing s t with
  | self =>
      obtain ⟨a, ha, hS⟩ := hlast s t h
      refine congr_left ?_ (loop_equiv body s)
      rw [ha, pure_bind, forUpM_self]
      exact alike hS
  | of_succ i hi ih =>
      refine congr_left ?_ (loop_equiv body s)
      rw [forUpM_first hi]
      apply (hround i s t hi h).bind_alike
      rintro _ t' ⟨s', rfl, hs'⟩
      exact ih hs'

end Matches

end Run

end Meds.Core
