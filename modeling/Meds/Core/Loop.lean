/-
  Meds.Core.Loop

  The counted loops of C and Python.

  `forUp lo hi f s` is `for (i = lo; i < hi; i++) s = f(i, s)`, `forDown` the
  same range from the top, `forUpM` the upward loop of a monadic body, and
  `iterWhile` a `while` whose number of rounds is bounded by a fuel the
  caller can show to be enough.  Each comes with the equation for its last
  (or first) round and with an invariant rule.
-/

import Meds.Core.Run
import Mathlib.Data.Nat.Init
import Mathlib.Order.Basic

namespace Meds.Core

variable {σ τ : Type}

/-- `n` rounds of `f` at `i, i + 1, …`. -/
def forLoop (f : Nat → σ → σ) : Nat → Nat → σ → σ
  | _, 0, s => s
  | i, n + 1, s => forLoop f (i + 1) n (f i s)

/-- `for (i = lo; i < hi; i++)`. -/
def forUp (lo hi : Nat) (f : Nat → σ → σ) (s : σ) : σ := forLoop f lo (hi - lo) s

/-- `for (i = hi - 1; i >= lo; i--)`. -/
def forDown (lo hi : Nat) (f : Nat → σ → σ) (s : σ) : σ :=
  forUp 0 (hi - lo) (fun d => f (hi - 1 - d)) s

theorem forLoop_add (f : Nat → σ → σ) (i n m : Nat) (s : σ) :
    forLoop f i (n + m) s = forLoop f (i + n) m (forLoop f i n s) := by
  induction n generalizing i s with
  | zero => simp [forLoop]
  | succ n ih =>
      rw [show n + 1 + m = (n + m) + 1 by omega, forLoop, forLoop, ih]
      rw [show i + 1 + n = i + (n + 1) by omega]

@[simp] theorem forUp_self (lo : Nat) (f : Nat → σ → σ) (s : σ) : forUp lo lo f s = s := by
  simp [forUp, forLoop]

theorem forUp_of_le {lo hi : Nat} (h : hi ≤ lo) (f : Nat → σ → σ) (s : σ) :
    forUp lo hi f s = s := by
  rw [forUp, show hi - lo = 0 by omega, forLoop]

/-- The last round comes last. -/
theorem forUp_succ {lo hi : Nat} (h : lo ≤ hi) (f : Nat → σ → σ) (s : σ) :
    forUp lo (hi + 1) f s = f hi (forUp lo hi f s) := by
  rw [forUp, show hi + 1 - lo = (hi - lo) + 1 by omega, forLoop_add, forUp,
    show lo + (hi - lo) = hi by omega]
  rfl

/-- Invariant rule: what every round preserves holds after the loop. -/
theorem forUp_invariant {lo hi : Nat} {f : Nat → σ → σ} (I : Nat → σ → Prop) (hle : lo ≤ hi)
    (hstep : ∀ i s, lo ≤ i → i < hi → I i s → I (i + 1) (f i s)) {s : σ} (h0 : I lo s) :
    I hi (forUp lo hi f s) := by
  induction hi, hle using Nat.le_induction with
  | base => simpa using h0
  | succ hi hle ih =>
      rw [forUp_succ hle]
      exact hstep hi _ hle (by omega) (ih fun i s h1 h2 => hstep i s h1 (by omega))

/-- Two loops whose rounds keep a relation end in related states. -/
theorem forUp_relation {lo hi : Nat} {f : Nat → σ → σ} {g : Nat → τ → τ} (R : Nat → σ → τ → Prop)
    (hle : lo ≤ hi)
    (hstep : ∀ i s t, lo ≤ i → i < hi → R i s t → R (i + 1) (f i s) (g i t)) {s : σ} {t : τ}
    (h0 : R lo s t) : R hi (forUp lo hi f s) (forUp lo hi g t) := by
  induction hi, hle using Nat.le_induction with
  | base => simpa using h0
  | succ hi hle ih =>
      rw [forUp_succ hle, forUp_succ hle]
      exact hstep hi _ _ hle (by omega) (ih fun i s t h1 h2 => hstep i s t h1 (by omega))

theorem forUp_congr {lo hi : Nat} {f g : Nat → σ → σ}
    (h : ∀ i s, lo ≤ i → i < hi → f i s = g i s) (s : σ) : forUp lo hi f s = forUp lo hi g s := by
  by_cases hle : lo ≤ hi
  · refine forUp_relation (fun _ a b => a = b) hle ?_ rfl
    rintro i s t h1 h2 rfl
    exact h i s h1 h2
  · rw [forUp_of_le (by omega), forUp_of_le (by omega)]

/-- Invariant rule of the downward loop. -/
theorem forDown_invariant {lo hi : Nat} {f : Nat → σ → σ} (I : Nat → σ → Prop) (hle : lo ≤ hi)
    (hstep : ∀ i s, lo ≤ i → i < hi → I (i + 1) s → I i (f i s)) {s : σ} (h0 : I hi s) :
    I lo (forDown lo hi f s) := by
  have h := forUp_invariant (f := fun d => f (hi - 1 - d)) (fun d s => I (hi - d) s)
    (Nat.zero_le (hi - lo)) (by
      intro d s _ hd hI
      have := hstep (hi - 1 - d) s (by omega) (by omega)
        (by rw [show hi - 1 - d + 1 = hi - d by omega]; exact hI)
      rw [show hi - (d + 1) = hi - 1 - d by omega]
      exact this) (s := s) (by simpa using h0)
  rw [show hi - (hi - lo) = lo by omega] at h
  exact h

/-! ## Loops with a `break` -/

/-- `n` rounds of `body` at `i, i + 1, …`; a round that returns `true` is the last. -/
def forBreakLoop (body : Nat → σ → σ × Bool) : Nat → Nat → σ → σ
  | _, 0, s => s
  | i, n + 1, s =>
    match body i s with
    | (s', true) => s'
    | (s', false) => forBreakLoop body (i + 1) n s'

/-- `for (i = lo; i < hi; i++)` whose body may `break`. -/
def forBreak (lo hi : Nat) (body : Nat → σ → σ × Bool) (s : σ) : σ :=
  forBreakLoop body lo (hi - lo) s

/-- Invariant rule of a loop whose rounds never break. -/
theorem forBreak_invariant {lo hi : Nat} {body : Nat → σ → σ × Bool} (I : Nat → σ → Prop)
    (hle : lo ≤ hi)
    (hstep : ∀ i s, lo ≤ i → i < hi → I i s → (body i s).2 = false ∧ I (i + 1) (body i s).1)
    {s : σ} (h0 : I lo s) : I hi (forBreak lo hi body s) := by
  unfold forBreak
  obtain ⟨n, hn⟩ : ∃ n, hi - lo = n := ⟨_, rfl⟩
  rw [hn]
  induction n generalizing lo s with
  | zero =>
      obtain rfl : lo = hi := by omega
      exact h0
  | succ n ih =>
      obtain ⟨hb, hI⟩ := hstep lo s (Nat.le_refl _) (by omega) h0
      obtain ⟨s', hs⟩ : ∃ s', body lo s = (s', false) := ⟨(body lo s).1, by rw [← hb]⟩
      rw [forBreakLoop, hs]
      rw [hs] at hI
      exact ih (by omega) (fun i s h1 h2 => hstep i s (by omega) h2) hI (by omega)

/-- What every round keeps, the last one included, a loop with a `break` keeps. -/
theorem forBreak_preserves {lo hi : Nat} {body : Nat → σ → σ × Bool} (I : σ → Prop)
    (hstep : ∀ i s, I s → I (body i s).1) {s : σ} (h0 : I s) : I (forBreak lo hi body s) := by
  unfold forBreak
  induction hi - lo generalizing lo s with
  | zero => exact h0
  | succ n ih =>
      have hI := hstep lo s h0
      rw [forBreakLoop]
      cases hb : body lo s with
      | mk s' done =>
          rw [hb] at hI
          cases done with
          | true => exact hI
          | false => exact ih hI

/-- Breaking once a condition fails for good is the same as skipping from there on. -/
theorem forBreak_eq_guarded (lo hi : Nat) (body : Nat → σ → σ × Bool) {c : Nat → Bool}
    {f : Nat → σ → σ} (hc : ∀ i, c i = false → c (i + 1) = false)
    (hbody : ∀ i s, body i s = if c i then (f i s, false) else (s, true)) (s : σ) :
    forBreak lo hi body s = forUp lo hi (fun i s => if c i then f i s else s) s := by
  have hskip : ∀ n i s, c i = false →
      forLoop (fun i s => if c i then f i s else s) i n s = s := by
    intro n
    induction n with
    | zero => intro i s _; rfl
    | succ n ih =>
        intro i s hi
        rw [forLoop, hi]
        exact ih (i + 1) s (hc i hi)
  unfold forBreak forUp
  induction hi - lo generalizing lo s with
  | zero => rfl
  | succ n ih =>
      rw [forBreakLoop, forLoop, hbody]
      by_cases h : c lo = true
      · rw [if_pos h, if_pos h]
        exact ih (lo + 1) _
      · rw [if_neg h, if_neg h, hskip n (lo + 1) s (hc lo (by simpa using h))]

/-! ## Loops over lists of values

A loop that consumes one value a round is a fold over the list of values;
nested loops consume the concatenation. -/

theorem forUp_eq_foldl {α : Type} (lo hi : Nat) (v : Nat → α) (f : σ → α → σ) (s : σ) :
    forUp lo hi (fun i s => f s (v i)) s = ((List.range' lo (hi - lo)).map v).foldl f s := by
  unfold forUp
  induction hi - lo generalizing lo s with
  | zero => rfl
  | succ n ih =>
      rw [forLoop, ih]
      rfl

theorem forUp_foldl {α : Type} (lo hi : Nat) (l : Nat → List α) (f : σ → α → σ) (s : σ) :
    forUp lo hi (fun i s => (l i).foldl f s) s
      = ((List.range' lo (hi - lo)).flatMap l).foldl f s := by
  unfold forUp
  induction hi - lo generalizing lo s with
  | zero => rfl
  | succ n ih =>
      rw [forLoop, ih]
      simp [List.range'_succ, List.flatMap_cons, List.foldl_append]

/-! ## Monadic bodies -/

section Monadic

variable {m : Type → Type} [Monad m]

def forLoopM (f : Nat → σ → m σ) : Nat → Nat → σ → m σ
  | _, 0, s => pure s
  | i, n + 1, s => do
    let s' ← f i s
    forLoopM f (i + 1) n s'

/-- `for (i = lo; i < hi; i++)` with a monadic body. -/
def forUpM (lo hi : Nat) (f : Nat → σ → m σ) (s : σ) : m σ := forLoopM f lo (hi - lo) s

@[simp] theorem forUpM_self (lo : Nat) (f : Nat → σ → m σ) (s : σ) :
    forUpM lo lo f s = pure s := by
  simp [forUpM, forLoopM]

theorem forUpM_of_le {lo hi : Nat} (h : hi ≤ lo) (f : Nat → σ → m σ) (s : σ) :
    forUpM lo hi f s = pure s := by
  rw [forUpM, show hi - lo = 0 by omega, forLoopM]

theorem forUpM_first {lo hi : Nat} (h : lo < hi) (f : Nat → σ → m σ) (s : σ) :
    forUpM lo hi f s = f lo s >>= forUpM (lo + 1) hi f := by
  rw [forUpM, show hi - lo = (hi - (lo + 1)) + 1 by omega, forLoopM]
  rfl

theorem forLoopM_succ [LawfulMonad m] (f : Nat → σ → m σ) (i n : Nat) (s : σ) :
    forLoopM f i (n + 1) s = forLoopM f i n s >>= f (i + n) := by
  induction n generalizing i s with
  | zero => simp [forLoopM]
  | succ n ih =>
      change (f i s >>= fun s' => forLoopM f (i + 1) (n + 1) s') =
        (f i s >>= fun s' => forLoopM f (i + 1) n s') >>= f (i + (n + 1))
      rw [bind_assoc]
      refine bind_congr fun s' => ?_
      rw [ih, show i + 1 + n = i + (n + 1) by omega]

theorem forUpM_succ [LawfulMonad m] {lo hi : Nat} (h : lo ≤ hi) (f : Nat → σ → m σ) (s : σ) :
    forUpM lo (hi + 1) f s = forUpM lo hi f s >>= f hi := by
  rw [forUpM, show hi + 1 - lo = (hi - lo) + 1 by omega, forLoopM_succ, forUpM,
    show lo + (hi - lo) = hi by omega]

theorem forUpM_split [LawfulMonad m] {lo mid hi : Nat} (h1 : lo ≤ mid) (h2 : mid ≤ hi)
    (f : Nat → σ → m σ) (s : σ) :
    forUpM lo hi f s = forUpM lo mid f s >>= forUpM mid hi f := by
  induction hi, h2 using Nat.le_induction with
  | base =>
      have hself : forUpM mid mid f = pure := funext fun t => forUpM_self mid f t
      rw [hself, bind_pure]
  | succ hi h2 ih =>
      rw [forUpM_succ (Nat.le_trans h1 h2), ih, bind_assoc]
      exact bind_congr fun t => (forUpM_succ h2 f t).symm

/-- A loop that consumes one value a round is a fold. -/
theorem forUpM_eq_foldlM {α : Type} (lo hi : Nat) (v : Nat → α) (f : σ → α → m σ) (s : σ) :
    forUpM lo hi (fun i s => f s (v i)) s = ((List.range' lo (hi - lo)).map v).foldlM f s := by
  unfold forUpM
  induction hi - lo generalizing lo s with
  | zero => rfl
  | succ n ih =>
      rw [forLoopM, List.range'_succ, List.map_cons, List.foldlM_cons]
      exact bind_congr fun s' => ih (lo + 1) s'

/-- Nested loops are a fold over the concatenation. -/
theorem forUpM_foldlM [LawfulMonad m] {α : Type} (lo hi : Nat) (l : Nat → List α) (f : σ → α → m σ)
    (s : σ) :
    forUpM lo hi (fun i s => (l i).foldlM f s) s
      = ((List.range' lo (hi - lo)).flatMap l).foldlM f s := by
  unfold forUpM
  induction hi - lo generalizing lo s with
  | zero => rfl
  | succ n ih =>
      rw [forLoopM, List.range'_succ, List.flatMap_cons, List.foldlM_append]
      exact bind_congr fun s' => ih (lo + 1) s'

/-- A loop that goes along `g`. -/
theorem forUpM_pure [LawfulMonad m] {lo hi : Nat} {f : Nat → σ → m σ} (g : Nat → σ) (hle : lo ≤ hi)
    (hstep : ∀ i, lo ≤ i → i < hi → f i (g i) = pure (g (i + 1))) {s : σ} (h0 : g lo = s) :
    forUpM lo hi f s = pure (g hi) := by
  induction hi, hle using Nat.le_induction with
  | base => rw [forUpM_self, h0]
  | succ hi hle ih =>
      rw [forUpM_succ hle, ih fun i h1 h2 => hstep i h1 (by omega), pure_bind]
      exact hstep hi hle (by omega)

/-- A loop that keeps a log beside its state runs like the loop without it. -/
theorem forUpM_forget [LawfulMonad m] {lo hi : Nat} {f : Nat → σ → m σ}
    {g : Nat → σ × τ → m (σ × τ)}
    (h : ∀ i s l, (g i (s, l) >>= fun r => pure r.1) = f i s) (s : σ) (l : τ) :
    (forUpM lo hi g (s, l) >>= fun r => pure r.1) = forUpM lo hi f s := by
  by_cases hle : lo ≤ hi
  · induction hi, hle using Nat.le_induction with
    | base => rw [forUpM_self, forUpM_self, pure_bind]
    | succ hi hle ih =>
        rw [forUpM_succ hle, forUpM_succ hle, ← ih, bind_assoc, bind_assoc]
        refine bind_congr fun r => ?_
        rw [pure_bind]
        exact h hi r.1 r.2
  · rw [forUpM_of_le (by omega), forUpM_of_le (by omega), pure_bind]

/-- Invariant rule of a loop of partial lookups. -/
theorem forUpM_option_invariant {lo hi : Nat} {f : Nat → σ → Option σ} (I : Nat → σ → Prop)
    (hle : lo ≤ hi)
    (hstep : ∀ i s s', lo ≤ i → i < hi → I i s → f i s = some s' → I (i + 1) s') {s s' : σ}
    (h0 : I lo s) (h : forUpM lo hi f s = some s') : I hi s' := by
  induction hi, hle using Nat.le_induction generalizing s' with
  | base =>
      rw [forUpM_self] at h
      exact Option.some.inj h ▸ h0
  | succ hi hle ih =>
      rw [forUpM_succ hle] at h
      obtain ⟨t, ht, hs'⟩ := Option.bind_eq_some_iff.mp h
      exact hstep hi t s' hle (by omega)
        (ih (fun i s s' h1 h2 => hstep i s s' h1 (by omega)) ht) hs'

end Monadic

namespace Run

variable {ε ε' : Type}

/-- Invariant rule of a monadic loop that returns. -/
theorem forUpM_invariant {lo hi : Nat} {f : Nat → σ → Run ε σ} (I : Nat → σ → Prop) (hle : lo ≤ hi)
    (hstep : ∀ i s s', lo ≤ i → i < hi → I i s → (f i s).Returns s' → I (i + 1) s') {s s' : σ}
    (h0 : I lo s) (h : (forUpM lo hi f s).Returns s') : I hi s' := by
  induction hi, hle using Nat.le_induction generalizing s' with
  | base =>
      rw [forUpM_self, returns_pure] at h
      exact h ▸ h0
  | succ hi hle ih =>
      rw [forUpM_succ hle, returns_bind] at h
      obtain ⟨t, ht, hs'⟩ := h
      exact hstep hi t s' hle (by omega) (ih (fun i s s' h1 h2 => hstep i s s' h1 (by omega)) ht) hs'

/-- A monadic loop whose rounds return under an invariant returns. -/
theorem forUpM_returns {lo hi : Nat} {f : Nat → σ → Run ε σ} (I : Nat → σ → Prop) (hle : lo ≤ hi)
    (hstep : ∀ i s, lo ≤ i → i < hi → I i s → ∃ s', (f i s).Returns s' ∧ I (i + 1) s') {s : σ}
    (h0 : I lo s) : ∃ s', (forUpM lo hi f s).Returns s' ∧ I hi s' := by
  induction hi, hle using Nat.le_induction with
  | base => exact ⟨s, by rw [forUpM_self, returns_pure], h0⟩
  | succ hi hle ih =>
      obtain ⟨t, ht, hI⟩ := ih fun i s h1 h2 => hstep i s h1 (by omega)
      obtain ⟨s', hs', hI'⟩ := hstep hi t hle (by omega) hI
      exact ⟨s', by rw [forUpM_succ hle, returns_bind]; exact ⟨t, ht, hs'⟩, hI'⟩

/-- A monadic loop whose rounds never end in the fault `e` does not either. -/
theorem forUpM_not_faults {lo hi : Nat} {f : Nat → σ → Run ε σ} {e : ε} (I : Nat → σ → Prop)
    (hstep : ∀ i s s', lo ≤ i → i < hi → I i s → (f i s).Returns s' → I (i + 1) s')
    (hbody : ∀ i s, lo ≤ i → i < hi → I i s → ¬ (f i s).Faults e) {s : σ} (h0 : I lo s) :
    ¬ (forUpM lo hi f s).Faults e := by
  by_cases hle : lo ≤ hi
  · induction hi, hle using Nat.le_induction with
    | base =>
        rw [forUpM_self]
        exact faults_pure
    | succ hi hle ih =>
        have hinv : ∀ i s s', lo ≤ i → i < hi → I i s → (f i s).Returns s' → I (i + 1) s' :=
          fun i s s' h1 h2 => hstep i s s' h1 (by omega)
        rw [forUpM_succ hle, faults_bind]
        rintro (h | ⟨t, ht, h⟩)
        · exact ih hinv (fun i s h1 h2 => hbody i s h1 (by omega)) h
        · exact hbody hi t hle (by omega) (forUpM_invariant I hle hinv h0 ht) h
  · rw [forUpM_of_le (by omega)]
    exact faults_pure

/-- A monadic loop whose rounds are safe under an invariant is safe. -/
theorem forUpM_safe {lo hi : Nat} {f : Nat → σ → Run ε σ} (I : Nat → σ → Prop)
    (hstep : ∀ i s s', lo ≤ i → i < hi → I i s → (f i s).Returns s' → I (i + 1) s')
    (hsafe : ∀ i s, lo ≤ i → i < hi → I i s → (f i s).Safe) {s : σ}
    (h0 : I lo s) : (forUpM lo hi f s).Safe :=
  fun e => forUpM_not_faults I hstep (fun i s h1 h2 hI => hsafe i s h1 h2 hI e) h0

/-- Forward simulation of monadic loops. -/
theorem forUpM_simulation {lo hi : Nat} {f : Nat → σ → Run ε σ} {g : Nat → τ → Run ε' τ}
    (R : Nat → σ → τ → Prop) (hle : lo ≤ hi)
    (hstep : ∀ i s t s', lo ≤ i → i < hi → R i s t → (f i s).Returns s' →
      ∃ t', (g i t).Returns t' ∧ R (i + 1) s' t') {s s' : σ} {t : τ}
    (h0 : R lo s t) (h : (forUpM lo hi f s).Returns s') :
    ∃ t', (forUpM lo hi g t).Returns t' ∧ R hi s' t' := by
  induction hi, hle using Nat.le_induction generalizing s' with
  | base =>
      rw [forUpM_self, returns_pure] at h
      subst h
      exact ⟨t, by simp, h0⟩
  | succ hi hle ih =>
      rw [forUpM_succ hle, returns_bind] at h
      obtain ⟨u, hu, hs'⟩ := h
      obtain ⟨v, hv, huv⟩ := ih (fun i s t s' h1 h2 => hstep i s t s' h1 (by omega)) hu
      obtain ⟨t', ht', hR⟩ := hstep hi u v s' hle (by omega) huv hs'
      exact ⟨t', by rw [forUpM_succ hle, returns_bind]; exact ⟨v, hv, ht'⟩, hR⟩

end Run

/-! ## Bounded `while` loops -/

/-- `while (cond(s)) s = body(s)`, for at most `fuel` rounds. -/
def iterWhile (cond : σ → Bool) (body : σ → σ) : Nat → σ → σ
  | 0, s => s
  | n + 1, s => if cond s then iterWhile cond body n (body s) else s

/-- Invariant rule: with a measure that every round lowers and enough fuel,
    the loop ends in a state where the condition is false. -/
theorem iterWhile_invariant (cond : σ → Bool) (body : σ → σ) (I : σ → Prop) (μ : σ → Nat)
    (hstep : ∀ s, I s → cond s = true → I (body s) ∧ μ (body s) < μ s)
    {fuel : Nat} {s : σ} (h0 : I s) (hfuel : μ s ≤ fuel) :
    I (iterWhile cond body fuel s) ∧
      (cond (iterWhile cond body fuel s) = true → μ (iterWhile cond body fuel s) = 0) := by
  induction fuel generalizing s with
  | zero => exact ⟨h0, fun _ => by simpa [iterWhile] using hfuel⟩
  | succ n ih =>
      rw [iterWhile]
      by_cases hc : cond s = true
      · obtain ⟨hI, hμ⟩ := hstep s h0 hc
        rw [if_pos hc]
        exact ih hI (by omega)
      · rw [if_neg hc]
        exact ⟨h0, fun h => absurd h hc⟩

end Meds.Core
