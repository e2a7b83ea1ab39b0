/-
  Meds.Core.Run

  Partial computations with faults.

  `Run ε α` is a program that may return a value, stop with a fault `ε`
  (an access outside an object), or go on forever.  It is given by its
  finite approximations: `run n` is what has happened once every loop has
  been allowed `n` rounds.  Monotonicity in `n` is a field, so no program
  built from `pure`, `bind`, `fail` and `loop` ever has to re-prove it, and
  the fuel disappears from statements: `x.Returns a` and `x.Faults e` say
  that some approximation has settled.
-/

import Mathlib.Tactic.Common

namespace Meds.Core

/-- A fuel-indexed computation whose settled results never change. -/
structure Run (ε α : Type) where
  run : Nat → Option (Except ε α)
  mono : ∀ {n m : Nat} {r : Except ε α}, n ≤ m → run n = some r → run m = some r

namespace Run

variable {ε α β σ τ : Type}

@[ext] theorem ext {x y : Run ε α} (h : ∀ n, x.run n = y.run n) : x = y := by
  cases x with
  | mk rx mx =>
      cases y with
      | mk ry my =>
          have : rx = ry := funext h
          subst this
          rfl

/-- The computation ends with value `a`. -/
def Returns (x : Run ε α) (a : α) : Prop := ∃ n, x.run n = some (.ok a)

/-- The computation ends with fault `e`. -/
def Faults (x : Run ε α) (e : ε) : Prop := ∃ n, x.run n = some (.error e)

/-- The computation never faults (it may still diverge). -/
def Safe (x : Run ε α) : Prop := ∀ e, ¬ x.Faults e

protected def pure (a : α) : Run ε α where
  run _ := some (.ok a)
  mono _ h := h

/-- Stop with a fault. -/
def fail (e : ε) : Run ε α where
  run _ := some (.error e)
  mono _ h := h

protected def bind (x : Run ε α) (f : α → Run ε β) : Run ε β where
  run n :=
    match x.run n with
    | none => none
    | some (.error e) => some (.error e)
    | some (.ok a) => (f a).run n
  mono := by
    intro n m r hnm h
    cases hx : x.run n with
    | none => simp [hx] at h
    | some v =>
        rw [x.mono hnm hx]
        rw [hx] at h
        cases v with
        | error e => exact h
        | ok a => exact (f a).mono hnm h

instance : Monad (Run ε) where
  pure := Run.pure
  bind := Run.bind

@[simp] theorem run_pure (a : α) (n : Nat) : (pure a : Run ε α).run n = some (.ok a) := rfl

theorem run_bind (x : Run ε α) (f : α → Run ε β) (n : Nat) :
    (x >>= f).run n =
      match x.run n with
      | none => none
      | some (.error e) => some (.error e)
      | some (.ok a) => (f a).run n := rfl

instance : LawfulMonad (Run ε) := by
  refine LawfulMonad.mk' (Run ε) ?_ ?_ ?_
  · intro α x
    ext1 n
    change (x >>= fun a => pure a).run n = x.run n
    rw [run_bind]
    cases x.run n with
    | none => rfl
    | some v => cases v <;> rfl
  · intro α β a f
    rfl
  · intro α β γ x f g
    ext1 n
    simp only [run_bind]
    cases x.run n with
    | none => rfl
    | some v => cases v <;> rfl

/-- A partial lookup, faulting with `e` when it has no value. -/
def ofOption (e : ε) : Option α → Run ε α
  | some a => pure a
  | none => fail e

/-! ## Results are unique -/

theorem Returns.unique {x : Run ε α} {a b : α} (ha : x.Returns a) (hb : x.Returns b) : a = b := by
  obtain ⟨n, hn⟩ := ha
  obtain ⟨m, hm⟩ := hb
  have h1 := x.mono (Nat.le_max_left n m) hn
  have h2 := x.mono (Nat.le_max_right n m) hm
  rw [h1] at h2
  exact Except.ok.inj (Option.some.inj h2)

theorem Returns.not_faults {x : Run ε α} {a : α} {e : ε} (ha : x.Returns a) : ¬ x.Faults e := by
  rintro ⟨m, hm⟩
  obtain ⟨n, hn⟩ := ha
  have h1 := x.mono (Nat.le_max_left n m) hn
  have h2 := x.mono (Nat.le_max_right n m) hm
  rw [h1] at h2
  cases h2

/-- An approximation that has settled on a value is a return. -/
theorem returns_of_run {x : Run ε α} {n : Nat} {a : α} (h : x.run n = some (.ok a)) :
    x.Returns a := ⟨n, h⟩

/-! ## Rules for `pure`, `fail`, `ofOption` and `bind` -/

/-- Some approximation has settled on a value. -/
def settles (x : Run ε α) (n : Nat) : Bool :=
  match x.run n with
  | some (.ok _) => true
  | _ => false

theorem exists_returns_of_run {x : Run ε α} {n : Nat} (h : x.settles n = true) :
    ∃ a, x.Returns a := by
  unfold settles at h
  cases hx : x.run n with
  | none =>
      rw [hx] at h
      cases h
  | some r =>
      cases r with
      | error e =>
          rw [hx] at h
          cases h
      | ok a => exact ⟨a, n, hx⟩

@[simp] theorem returns_pure {a b : α} : (pure a : Run ε α).Returns b ↔ b = a := by
  constructor
  · rintro ⟨n, hn⟩
    exact (Except.ok.inj (Option.some.inj hn)).symm
  · rintro rfl
    exact ⟨0, rfl⟩

@[simp] theorem faults_pure {a : α} {e : ε} : ¬ (pure a : Run ε α).Faults e := by
  rintro ⟨n, hn⟩
  cases hn

@[simp] theorem returns_fail {e : ε} {a : α} : ¬ (fail e : Run ε α).Returns a := by
  rintro ⟨n, hn⟩
  cases hn

@[simp] theorem faults_fail {e e' : ε} : (fail e : Run ε α).Faults e' ↔ e' = e := by
  constructor
  · rintro ⟨n, hn⟩
    exact (Except.error.inj (Option.some.inj hn)).symm
  · rintro rfl
    exact ⟨0, rfl⟩

@[simp] theorem returns_bind {x : Run ε α} {f : α → Run ε β} {b : β} :
    (x >>= f).Returns b ↔ ∃ a, x.Returns a ∧ (f a).Returns b := by
  constructor
  · rintro ⟨n, hn⟩
    rw [run_bind] at hn
    cases hx : x.run n with
    | none => simp [hx] at hn
    | some v =>
        rw [hx] at hn
        cases v with
        | error e => cases hn
        | ok a => exact ⟨a, ⟨n, hx⟩, n, hn⟩
  · rintro ⟨a, ⟨n, hn⟩, m, hm⟩
    refine ⟨max n m, ?_⟩
    rw [run_bind, x.mono (Nat.le_max_left n m) hn]
    exact (f a).mono (Nat.le_max_right n m) hm

@[simp] theorem returns_ofOption {e : ε} {x : Option α} {a : α} :
    (ofOption e x).Returns a ↔ x = some a := by
  cases x with
  | none => simp [ofOption]
  | some b => simp [ofOption, eq_comm]

/-- A list of programs, one after the other. -/
theorem returns_mapM {γ : Type} {f : β → Run ε γ} {h : α → β} {g : α → γ} {l : List α} :
    ((l.map h).mapM f).Returns (l.map g) ↔ ∀ a ∈ l, (f (h a)).Returns (g a) := by
  induction l with
  | nil => simp
  | cons a l ih =>
      simp only [List.map_cons, List.mapM_cons, returns_bind, returns_pure, List.cons.injEq,
        List.forall_mem_cons]
      constructor
      · rintro ⟨c, hc, cs, hcs, rfl, rfl⟩
        exact ⟨hc, ih.mp hcs⟩
      · rintro ⟨hc, hl⟩
        exact ⟨_, hc, _, ih.mpr hl, rfl, rfl⟩

theorem faults_bind {x : Run ε α} {f : α → Run ε β} {e : ε} :
    (x >>= f).Faults e ↔ x.Faults e ∨ ∃ a, x.Returns a ∧ (f a).Faults e := by
  constructor
  · rintro ⟨n, hn⟩
    rw [run_bind] at hn
    cases hx : x.run n with
    | none => simp [hx] at hn
    | some v =>
        rw [hx] at hn
        cases v with
        | error e' =>
            cases hn
            exact Or.inl ⟨n, hx⟩
        | ok a => exact Or.inr ⟨a, ⟨n, hx⟩, n, hn⟩
  · rintro (⟨n, hn⟩ | ⟨a, ⟨n, hn⟩, m, hm⟩)
    · refine ⟨n, ?_⟩
      rw [run_bind, hn]
    · refine ⟨max n m, ?_⟩
      rw [run_bind, x.mono (Nat.le_max_left n m) hn]
      exact (f a).mono (Nat.le_max_right n m) hm

theorem safe_pure (a : α) : (pure a : Run ε α).Safe := fun _ => faults_pure

theorem safe_bind {x : Run ε α} {f : α → Run ε β} (hx : x.Safe)
    (hf : ∀ a, x.Returns a → (f a).Safe) : (x >>= f).Safe := by
  intro e he
  rcases faults_bind.mp he with h | ⟨a, ha, h⟩
  · exact hx e h
  · exact hf a ha e h

@[simp] theorem ofOption_some (e : ε) (a : α) : ofOption e (some a) = pure a := rfl

@[simp] theorem ofOption_none (e : ε) : (ofOption e none : Run ε α) = fail e := rfl

/-! ## Unbounded loops -/

/-- `k` rounds of a loop whose body is given `n` units of fuel each round. -/
def loopRounds (body : σ → Run ε (σ ⊕ α)) (n : Nat) : Nat → σ → Option (Except ε α)
  | 0, _ => none
  | k + 1, s =>
    match (body s).run n with
    | none => none
    | some (.error e) => some (.error e)
    | some (.ok (.inl s')) => loopRounds body n k s'
    | some (.ok (.inr a)) => some (.ok a)

theorem loopRounds_mono (body : σ → Run ε (σ ⊕ α)) {n m k j : Nat} {s : σ} {r : Except ε α}
    (hnm : n ≤ m) (hkj : k ≤ j) (h : loopRounds body n k s = some r) :
    loopRounds body m j s = some r := by
  induction k generalizing j s with
  | zero => cases h
  | succ k ih =>
      obtain ⟨j, rfl⟩ : ∃ j', j = j' + 1 := ⟨j - 1, by omega⟩
      unfold loopRounds at h ⊢
      cases hb : (body s).run n with
      | none => simp [hb] at h
      | some v =>
          rw [(body s).mono hnm hb]
          rw [hb] at h
          match v, h with
          | .error e, h => exact h
          | .ok (.inl s'), h => exact ih (by omega) h
          | .ok (.inr a), h => exact h

/-- `while (1 == 1)`: run `body` until it breaks with a value (`inr`); `inl`
    starts the next round. -/
def loop (body : σ → Run ε (σ ⊕ α)) (s : σ) : Run ε α where
  run n := loopRounds body n n s
  mono hnm h := loopRounds_mono body hnm hnm h

/-- One round of a loop, then the rest of it. -/
theorem returns_loop {body : σ → Run ε (σ ⊕ α)} {s : σ} {a : α} :
    (loop body s).Returns a ↔
      ∃ r, (body s).Returns r ∧
        match r with
        | .inl s' => (loop body s').Returns a
        | .inr b => a = b := by
  constructor
  · rintro ⟨n, hn⟩
    cases n with
    | zero => cases hn
    | succ n =>
        change loopRounds body (n + 1) (n + 1) s = _ at hn
        unfold loopRounds at hn
        cases hb : (body s).run (n + 1) with
        | none => simp [hb] at hn
        | some v =>
            rw [hb] at hn
            match v, hb, hn with
            | .error e, _, hn => cases hn
            -- the remaining rounds have less fuel, which does not matter to a result
            | .ok (.inl s'), hb, hn =>
                exact ⟨.inl s', ⟨n + 1, hb⟩, n + 1, loopRounds_mono body (Nat.le_refl _) (by omega) hn⟩
            | .ok (.inr b), hb, hn =>
                exact ⟨.inr b, ⟨n + 1, hb⟩, (Except.ok.inj (Option.some.inj hn)).symm⟩
  · rintro ⟨r, ⟨n, hn⟩, hr⟩
    match r, hn, hr with
    | .inl s', hn, ⟨m, hm⟩ =>
        -- fuel for the round and for the rest
        refine ⟨max n m + 1, ?_⟩
        change loopRounds body (max n m + 1) (max n m + 1) s = _
        rw [loopRounds, (body s).mono (by omega : n ≤ max n m + 1) hn]
        exact loopRounds_mono body (by omega) (by omega) hm
    | .inr b, hn, hab =>
        subst hab
        refine ⟨n + 1, ?_⟩
        change loopRounds body (n + 1) (n + 1) s = _
        rw [loopRounds, (body s).mono (by omega : n ≤ n + 1) hn]

theorem faults_loop {body : σ → Run ε (σ ⊕ α)} {s : σ} {e : ε} :
    (loop body s).Faults e ↔
      (body s).Faults e ∨ ∃ s', (body s).Returns (.inl s') ∧ (loop body s').Faults e := by
  constructor
  · rintro ⟨n, hn⟩
    cases n with
    | zero => cases hn
    | succ n =>
        change loopRounds body (n + 1) (n + 1) s = _ at hn
        unfold loopRounds at hn
        cases hb : (body s).run (n + 1) with
        | none => simp [hb] at hn
        | some v =>
            rw [hb] at hn
            match v, hb, hn with
            | .error e', hb, hn =>
                cases hn
                exact Or.inl ⟨n + 1, hb⟩
            | .ok (.inl s'), hb, hn =>
                exact Or.inr ⟨s', ⟨n + 1, hb⟩, n + 1,
                  loopRounds_mono body (Nat.le_refl _) (by omega) hn⟩
            | .ok (.inr b), _, hn => cases hn
  · rintro (⟨n, hn⟩ | ⟨s', ⟨n, hn⟩, m, hm⟩)
    · refine ⟨n + 1, ?_⟩
      change loopRounds body (n + 1) (n + 1) s = _
      rw [loopRounds, (body s).mono (by omega : n ≤ n + 1) hn]
    · -- fuel for the round and for the rest
      refine ⟨max n m + 1, ?_⟩
      change loopRounds body (max n m + 1) (max n m + 1) s = _
      rw [loopRounds, (body s).mono (by omega : n ≤ max n m + 1) hn]
      exact loopRounds_mono body (by omega) (by omega) hm

/-- A round that breaks ends the loop. -/
theorem returns_loop_break {body : σ → Run ε (σ ⊕ α)} {s : σ} {a : α}
    (h : (body s).Returns (.inr a)) : (loop body s).Returns a :=
  returns_loop.mpr ⟨.inr a, h, rfl⟩

/-- A round that continues leaves the rest of the loop to run. -/
theorem returns_loop_continue {body : σ → Run ε (σ ⊕ α)} {s s' : σ} {a : α}
    (h : (body s).Returns (.inl s')) (h' : (loop body s').Returns a) : (loop body s).Returns a :=
  returns_loop.mpr ⟨.inl s', h, h'⟩

/-- Induction along the rounds of a loop that returns. -/
theorem loop_induction {body : σ → Run ε (σ ⊕ α)} {a : α} {P : σ → Prop}
    (hbreak : ∀ s, (body s).Returns (.inr a) → P s)
    (hcont : ∀ s s', (body s).Returns (.inl s') → (loop body s').Returns a → P s' → P s)
    {s : σ} (h : (loop body s).Returns a) : P s := by
  obtain ⟨n, hn⟩ := h
  have key : ∀ k s, loopRounds body n k s = some (.ok a) → P s := by
    intro k
    induction k with
    | zero => intro s hk; cases hk
    | succ k ih =>
        intro s hk
        unfold loopRounds at hk
        cases hb : (body s).run n with
        | none => simp [hb] at hk
        | some v =>
            rw [hb] at hk
            match v, hb, hk with
            | .error e, _, hk => cases hk
            | .ok (.inl s'), hb, hk =>
                exact hcont s s' ⟨n, hb⟩
                  ⟨max n k, loopRounds_mono body (by omega) (by omega) hk⟩ (ih s' hk)
            | .ok (.inr b), hb, hk =>
                cases hk
                exact hbreak s ⟨n, hb⟩
  exact key n s hn

/-- Partial correctness of a loop from an invariant. -/
theorem loop_invariant {body : σ → Run ε (σ ⊕ α)} {I : σ → Prop} {Q : α → Prop}
    (hcont : ∀ s s', I s → (body s).Returns (.inl s') → I s')
    (hbreak : ∀ s b, I s → (body s).Returns (.inr b) → Q b)
    {s : σ} {a : α} (hI : I s) (h : (loop body s).Returns a) : Q a := by
  refine loop_induction (P := fun s => I s → Q a) ?_ ?_ h hI
  · intro s hb hs
    exact hbreak s a hs hb
  · intro s s' hb _ ih hs
    exact ih (hcont s s' hs hb)

/-- A loop whose rounds never end in the fault `e` does not either. -/
theorem loop_not_faults {body : σ → Run ε (σ ⊕ α)} {I : σ → Prop} {e : ε}
    (hcont : ∀ s s', I s → (body s).Returns (.inl s') → I s')
    (hbody : ∀ s, I s → ¬ (body s).Faults e) {s : σ} (hI : I s) : ¬ (loop body s).Faults e := by
  rintro ⟨n, hn⟩
  have key : ∀ k s, I s → loopRounds body n k s ≠ some (.error e) := by
    intro k
    induction k with
    | zero => intro s _ hk; cases hk
    | succ k ih =>
        intro s hs hk
        unfold loopRounds at hk
        cases hb : (body s).run n with
        | none => simp [hb] at hk
        | some v =>
            rw [hb] at hk
            match v, hb, hk with
            | .error e', hb, hk =>
                cases hk
                exact hbody s hs ⟨n, hb⟩
            | .ok (.inl s'), hb, hk => exact ih s' (hcont s s' hs ⟨n, hb⟩) hk
            | .ok (.inr b), _, hk => cases hk
  exact key n s hI hn

/-- A loop whose rounds are safe under an invariant is safe. -/
theorem loop_safe {body : σ → Run ε (σ ⊕ α)} {I : σ → Prop}
    (hcont : ∀ s s', I s → (body s).Returns (.inl s') → I s')
    (hsafe : ∀ s, I s → (body s).Safe) {s : σ} (hI : I s) : (loop body s).Safe :=
  fun e => loop_not_faults hcont (fun s hs => hsafe s hs e) hI

/-- Forward simulation: if related rounds end in related results, related
    loops do. -/
theorem loop_simulation {ε' α' : Type} {body : σ → Run ε (σ ⊕ α)} (body' : τ → Run ε' (τ ⊕ α'))
    {R : σ → τ → Prop} {S : α → α' → Prop}
    (hcont : ∀ s t s', R s t → (body s).Returns (.inl s') →
      ∃ t', (body' t).Returns (.inl t') ∧ R s' t')
    (hbreak : ∀ s t a, R s t → (body s).Returns (.inr a) →
      ∃ a', (body' t).Returns (.inr a') ∧ S a a')
    {s : σ} {t : τ} {a : α} (hR : R s t) (h : (loop body s).Returns a) :
    ∃ a', (loop body' t).Returns a' ∧ S a a' := by
  refine loop_induction (P := fun s => ∀ t, R s t → ∃ a', (loop body' t).Returns a' ∧ S a a')
    ?_ ?_ h t hR
  · intro s hb t hst
    obtain ⟨a', ha', hS⟩ := hbreak s t a hst hb
    exact ⟨a', returns_loop_break ha', hS⟩
  · intro s s' hb _ ih t hst
    obtain ⟨t', ht', hR'⟩ := hcont s t s' hst hb
    obtain ⟨a', ha', hS⟩ := ih t' hR'
    exact ⟨a', returns_loop_continue ht' ha', hS⟩

/-! ## Programs with the same outcomes -/

/-- Two programs have the same results and the same faults. -/
structure Equiv (x y : Run ε α) : Prop where
  returns : ∀ a, x.Returns a ↔ y.Returns a
  faults : ∀ e, x.Faults e ↔ y.Faults e

theorem Equiv.refl (x : Run ε α) : x.Equiv x := ⟨fun _ => Iff.rfl, fun _ => Iff.rfl⟩

theorem Equiv.symm {x y : Run ε α} (h : x.Equiv y) : y.Equiv x :=
  ⟨fun a => (h.returns a).symm, fun e => (h.faults e).symm⟩

theorem Equiv.trans {x y z : Run ε α} (h : x.Equiv y) (h' : y.Equiv z) : x.Equiv z :=
  ⟨fun a => (h.returns a).trans (h'.returns a), fun e => (h.faults e).trans (h'.faults e)⟩

/-- A program that returns is as good as its value. -/
theorem Returns.equiv {x : Run ε α} {a : α} (h : x.Returns a) : x.Equiv (pure a) where
  returns b := by
    rw [returns_pure]
    exact ⟨fun hb => hb.unique h, fun hb => hb ▸ h⟩
  faults e := ⟨fun he => absurd he h.not_faults, fun he => absurd he faults_pure⟩

theorem Equiv.bind {x x' : Run ε α} {f f' : α → Run ε β} (hx : x.Equiv x')
    (hf : ∀ a, x.Returns a → (f a).Equiv (f' a)) : (x >>= f).Equiv (x' >>= f') where
  returns b := by
    rw [returns_bind, returns_bind]
    constructor
    · rintro ⟨a, ha, hb⟩
      exact ⟨a, (hx.returns a).mp ha, ((hf a ha).returns b).mp hb⟩
    · rintro ⟨a, ha, hb⟩
      have ha' := (hx.returns a).mpr ha
      exact ⟨a, ha', ((hf a ha').returns b).mpr hb⟩
  faults e := by
    rw [faults_bind, faults_bind]
    constructor
    · rintro (h | ⟨a, ha, he⟩)
      · exact Or.inl ((hx.faults e).mp h)
      · exact Or.inr ⟨a, (hx.returns a).mp ha, ((hf a ha).faults e).mp he⟩
    · rintro (h | ⟨a, ha, he⟩)
      · exact Or.inl ((hx.faults e).mpr h)
      · have ha' := (hx.returns a).mpr ha
        exact Or.inr ⟨a, ha', ((hf a ha').faults e).mpr he⟩

/-- Sequencing after a program that returns. -/
theorem Returns.bind_equiv {x : Run ε α} {a : α} (h : x.Returns a) (f : α → Run ε β) :
    (x >>= f).Equiv (f a) :=
  Equiv.bind h.equiv fun _ _ => Equiv.refl _

/-- Unrolling a loop once. -/
theorem loop_equiv (body : σ → Run ε (σ ⊕ α)) (s : σ) :
    (loop body s).Equiv (body s >>= Sum.elim (loop body) pure) where
  returns a := by
    rw [returns_loop, returns_bind]
    constructor
    · rintro ⟨r, hr, h⟩
      cases r with
      | inl s' => exact ⟨.inl s', hr, h⟩
      | inr b => exact ⟨.inr b, hr, returns_pure.mpr h⟩
    · rintro ⟨r, hr, h⟩
      cases r with
      | inl s' => exact ⟨.inl s', hr, h⟩
      | inr b => exact ⟨.inr b, hr, returns_pure.mp h⟩
  faults e := by
    rw [faults_loop, faults_bind]
    constructor
    · rintro (h | ⟨s', hs, h⟩)
      · exact Or.inl h
      · exact Or.inr ⟨.inl s', hs, h⟩
    · rintro (h | ⟨r, hr, h⟩)
      · exact Or.inl h
      · cases r with
        | inl s' => exact Or.inr ⟨s', hr, h⟩
        | inr b => exact absurd h faults_pure

/-- A round that is known to continue can be skipped. -/
theorem loop_step_equiv {body : σ → Run ε (σ ⊕ α)} {s s' : σ} (h : body s = pure (.inl s')) :
    (loop body s).Equiv (loop body s') := by
  refine (loop_equiv body s).trans ?_
  rw [h, pure_bind, Sum.elim_inl]
  exact Equiv.refl _

end Run

end Meds.Core
