/-
  Meds.Core.Dialog

  Deterministic processes that send and receive, known by what they have said.

  The local state of such a process is its script: what it has sent and
  received so far.  A `Dialog` is a program that is replayed on a script.  It
  compares what it sends with the script, takes what it receives from it, and
  where the script ends it stops with what it wants to do next.  `Speaks` says
  that a program goes through a script and ends with a value, `Stuck` that it
  goes through it and is never heard of again.
-/

import Mathlib.Logic.Relation
import Meds.Core.Session

namespace Meds.Core

/-- One item of a script. -/
inductive Act (β : Type) where
  | send (b : β)
  | recv (b : β)
deriving DecidableEq, Repr

/-- What a process does where its script ends. -/
inductive Stop (ε β : Type) where
  | send (b : β)
  | recv
  | mismatch
  | fault (e : ε)
deriving DecidableEq, Repr

/-- The same exchange, seen from the other side. -/
def Act.dual {β : Type} : Act β → Act β
  | .send b => .recv b
  | .recv b => .send b

/-- The wish that the item fulfils. -/
def Act.want {ε β : Type} : Act β → Stop ε β
  | .send b => .send b
  | .recv _ => .recv

/-- A process over messages `β` with faults `ε`. -/
abbrev Dialog (ε β : Type) : Type → Type := Session (List (Act β)) (Stop ε β)

namespace Run

variable {ε ε' α : Type}

/-- The same computation with other faults. -/
def mapFault (f : ε → ε') (x : Run ε α) : Run ε' α where
  run n :=
    match x.run n with
    | none => none
    | some (.error e) => some (.error (f e))
    | some (.ok a) => some (.ok a)
  mono := by
    intro n m r hnm h
    cases hx : x.run n with
    | none => simp [hx] at h
    | some v =>
        rw [x.mono hnm hx]
        rw [hx] at h
        exact h

@[simp] theorem returns_mapFault {f : ε → ε'} {x : Run ε α} {a : α} :
    (mapFault f x).Returns a ↔ x.Returns a := by
  refine exists_congr fun n => ?_
  simp only [mapFault]
  cases x.run n with
  | none => simp
  | some v => cases v <;> simp

@[simp] theorem faults_mapFault {f : ε → ε'} {x : Run ε α} {e' : ε'} :
    (mapFault f x).Faults e' ↔ ∃ e, x.Faults e ∧ f e = e' := by
  constructor
  · rintro ⟨n, hn⟩
    simp only [mapFault] at hn
    cases hx : x.run n with
    | none => simp [hx] at hn
    | some v =>
        cases v with
        | ok a => simp [hx] at hn
        | error e =>
            simp only [hx, Option.some.injEq, Except.error.injEq] at hn
            exact ⟨e, ⟨n, hx⟩, hn⟩
  · rintro ⟨e, ⟨n, hn⟩, rfl⟩
    exact ⟨n, by simp [mapFault, hn]⟩

theorem Equiv.mapFault {f : ε → ε'} {x y : Run ε α} (h : x.Equiv y) :
    (x.mapFault f).Equiv (y.mapFault f) where
  returns a := by rw [returns_mapFault, returns_mapFault, h.returns]
  faults e := by simp only [faults_mapFault, h.faults]

theorem Faults.unique {x : Run ε α} {e e' : ε} (h : x.Faults e) (h' : x.Faults e') : e = e' := by
  obtain ⟨n, hn⟩ := h
  obtain ⟨m, hm⟩ := h'
  have h1 := x.mono (Nat.le_max_left n m) hn
  have h2 := x.mono (Nat.le_max_right n m) hm
  rw [h1] at h2
  exact Except.error.inj (Option.some.inj h2)

end Run

/-- The same wish, with other faults. -/
def Stop.mapFault {ε ε' β : Type} (g : ε → ε') : Stop ε β → Stop ε' β
  | .send b => .send b
  | .recv => .recv
  | .mismatch => .mismatch
  | .fault e => .fault (g e)

namespace Dialog

variable {ε β α γ σ : Type}

section

variable [DecidableEq β]

/-- Send one message. -/
def put (b : β) : Dialog ε β Unit
  | [] => Run.fail (.send b)
  | .send c :: rest => if c = b then pure ((), rest) else Run.fail .mismatch
  | .recv _ :: _ => Run.fail .mismatch

end

/-- Receive one message. -/
def get : Dialog ε β β
  | [] => Run.fail .recv
  | .recv c :: rest => pure (c, rest)
  | .send _ :: _ => Run.fail .mismatch

/-- A computation that says nothing. -/
def lift (x : Run ε α) : Dialog ε β α := Session.lift (x.mapFault .fault)

/-- At the end of script `T` the process does `w`. -/
def Stops (x : Dialog ε β α) (T : List (Act β)) (w : Stop ε β) : Prop := Run.Faults (x T) w

/-- The process goes through `T`. -/
def Follows (x : Dialog ε β α) (T : List (Act β)) : Prop :=
  ∀ p c q, T = p ++ c :: q → Stops x p c.want

/-- The process goes through `T`, then ends with `a`. -/
structure Speaks (x : Dialog ε β α) (T : List (Act β)) (a : α) : Prop where
  follows : Follows x T
  ends : ∀ V, x.Ends (T ++ V) a V

/-- The process goes through `T`, then neither ends nor says anything. -/
structure Stuck (x : Dialog ε β α) (T : List (Act β)) : Prop where
  follows : Follows x T
  no_send : ∀ b, ¬ Stops x T (.send b)
  no_recv : ¬ Stops x T .recv
  no_end : ∀ a V, ¬ x.Ends T a V

/-- The process goes through `T`, then waits for a message. -/
structure Waits (x : Dialog ε β α) (T : List (Act β)) : Prop where
  follows : Follows x T
  stops : Stops x T .recv

/-! ## Stopping -/

theorem Stops.unique {x : Dialog ε β α} {T : List (Act β)} {w w' : Stop ε β} (h : Stops x T w)
    (h' : Stops x T w') : w = w' := Run.Faults.unique h h'

theorem Stops.not_ends {x : Dialog ε β α} {T V : List (Act β)} {w : Stop ε β} {a : α}
    (h : Stops x T w) : ¬ x.Ends T a V := fun hends => Run.Returns.not_faults hends h

theorem stops_bind {x : Dialog ε β α} {f : α → Dialog ε β γ} {T : List (Act β)} {w : Stop ε β} :
    Stops (x >>= f) T w ↔ Stops x T w ∨ ∃ a V, x.Ends T a V ∧ Stops (f a) V w := by
  refine Run.faults_bind.trans (or_congr Iff.rfl ?_)
  constructor
  · rintro ⟨⟨a, V⟩, h1, h2⟩
    exact ⟨a, V, h1, h2⟩
  · rintro ⟨a, V, h1, h2⟩
    exact ⟨(a, V), h1, h2⟩

theorem ends_bind {x : Dialog ε β α} {f : α → Dialog ε β γ} {T W : List (Act β)} {b : γ} :
    (x >>= f).Ends T b W ↔ ∃ a V, x.Ends T a V ∧ (f a).Ends V b W := by
  refine Run.returns_bind.trans ?_
  constructor
  · rintro ⟨⟨a, V⟩, h1, h2⟩
    exact ⟨a, V, h1, h2⟩
  · rintro ⟨a, V, h1, h2⟩
    exact ⟨(a, V), h1, h2⟩

@[simp] theorem not_stops_pure {a : α} {T : List (Act β)} {w : Stop ε β} :
    ¬ Stops (pure a : Dialog ε β α) T w := Run.faults_pure

theorem stops_get : Stops (get : Dialog ε β β) [] .recv := Run.faults_fail.mpr rfl

theorem ends_lift {x : Run ε α} {T V : List (Act β)} {a : α} :
    (lift x : Dialog ε β α).Ends T a V ↔ x.Returns a ∧ V = T := by
  unfold lift Session.lift Session.Ends
  rw [Run.returns_bind]
  constructor
  · rintro ⟨b, hb, h⟩
    obtain ⟨rfl, rfl⟩ := Prod.mk.inj (Run.returns_pure.mp h)
    exact ⟨Run.returns_mapFault.mp hb, rfl⟩
  · rintro ⟨h, rfl⟩
    exact ⟨a, Run.returns_mapFault.mpr h, Run.returns_pure.mpr rfl⟩

theorem stops_lift {x : Run ε α} {T : List (Act β)} {w : Stop ε β}
    (h : Stops (lift x : Dialog ε β α) T w) : ∃ e, w = .fault e := by
  unfold Stops lift Session.lift at h
  rcases Run.faults_bind.mp h with h | ⟨a, -, h⟩
  · obtain ⟨e, -, rfl⟩ := Run.faults_mapFault.mp h
    exact ⟨e, rfl⟩
  · exact absurd h Run.faults_pure

theorem lift_pure (a : α) : (lift (pure a) : Dialog ε β α) = pure a := rfl

theorem lift_bind (x : Run ε α) (f : α → Run ε γ) :
    (lift (x >>= f) : Dialog ε β γ) = lift x >>= fun a => lift (f a) := by
  funext T
  apply Run.ext
  intro n
  change Run.run (Run.mapFault _ (x >>= f) >>= _) n
    = Run.run ((Run.mapFault _ x >>= _) >>= _) n
  rw [bind_assoc]
  simp only [Run.run_bind, Run.mapFault]
  cases x.run n with
  | none => rfl
  | some v => cases v <;> rfl

/-! ## Going through a script -/

/-- Behind its script a process has ended. -/
theorem Speaks.not_stops {x : Dialog ε β α} {T : List (Act β)} {a : α} {w : Stop ε β}
    (h : Speaks x T a) : ¬ Stops x T w := by
  intro hw
  have hends := h.ends []
  rw [List.append_nil] at hends
  exact hw.not_ends hends

theorem follows_nil (x : Dialog ε β α) : Follows x [] := fun p c q h => by simp at h

theorem speaks_pure (a : α) : Speaks (pure a : Dialog ε β α) [] a :=
  ⟨follows_nil _, fun V => Session.ends_pure a V⟩

theorem follows_singleton {x : Dialog ε β α} {c : Act β} (h : Stops x [] c.want) : Follows x [c] := by
  intro p c' q hp
  cases p with
  | nil =>
      obtain ⟨rfl, -⟩ := List.cons.inj hp
      exact h
  | cons _ p => simp at hp

theorem speaks_put [DecidableEq β] (b : β) : Speaks (put b : Dialog ε β Unit) [.send b] () := by
  refine ⟨follows_singleton (Run.faults_fail.mpr rfl), fun V => ?_⟩
  change Run.Returns (if b = b then _ else _) _
  rw [if_pos rfl]
  exact Run.returns_pure.mpr rfl

theorem speaks_get (b : β) : Speaks (get : Dialog ε β β) [.recv b] b :=
  ⟨follows_singleton stops_get, fun _ => Run.returns_pure.mpr rfl⟩

theorem speaks_lift {x : Run ε α} {a : α} (h : x.Returns a) :
    Speaks (lift x : Dialog ε β α) [] a :=
  ⟨follows_nil _, fun _ => ends_lift.mpr ⟨h, rfl⟩⟩

/-- Where a program has ended, the next one goes on. -/
theorem Speaks.stops_bind {x : Dialog ε β α} {f : α → Dialog ε β γ} {p q : List (Act β)} {a : α}
    {w : Stop ε β} (h : Speaks x p a) : Stops (x >>= f) (p ++ q) w ↔ Stops (f a) q w := by
  rw [Dialog.stops_bind]
  constructor
  · rintro (hx | ⟨b, V, hx, hf⟩)
    · exact absurd (h.ends q) hx.not_ends
    · obtain ⟨rfl, rfl⟩ := hx.unique (h.ends q)
      exact hf
  · exact fun hf => Or.inr ⟨a, q, h.ends q, hf⟩

theorem Follows.bind_left {x : Dialog ε β α} {f : α → Dialog ε β γ} {p : List (Act β)} (h : Follows x p) :
    Follows (x >>= f) p := fun q c r hp => Dialog.stops_bind.mpr (Or.inl (h q c r hp))

theorem Speaks.follows_bind {x : Dialog ε β α} {f : α → Dialog ε β γ} {p q : List (Act β)} {a : α}
    (h : Speaks x p a) (hf : Follows (f a) q) : Follows (x >>= f) (p ++ q) := by
  intro r c t hr
  rcases List.append_eq_append_iff.mp hr with ⟨u, rfl, hu⟩ | ⟨u, hu, hrest⟩
  · exact h.stops_bind.mpr (hf u c t hu)
  · cases u with
    | nil =>
        rw [List.append_nil] at hu
        subst hu
        have := (h.stops_bind (f := f) (q := [])).mpr (hf [] c t hrest.symm)
        rwa [List.append_nil] at this
    | cons c' u =>
        obtain ⟨rfl, rfl⟩ := List.cons.inj hrest
        exact h.follows.bind_left r c u hu

theorem Speaks.bind {x : Dialog ε β α} {f : α → Dialog ε β γ} {p q : List (Act β)} {a : α} {b : γ}
    (h : Speaks x p a) (hf : Speaks (f a) q b) : Speaks (x >>= f) (p ++ q) b :=
  ⟨h.follows_bind hf.follows, fun V => by
    rw [List.append_assoc]
    exact (h.ends _).bind (hf.ends V)⟩

/-- A silent program before another. -/
theorem Speaks.bind_nil {x : Dialog ε β α} {f : α → Dialog ε β γ} {q : List (Act β)} {a : α} {b : γ}
    (h : Speaks x [] a) (hf : Speaks (f a) q b) : Speaks (x >>= f) q b := h.bind hf

theorem Speaks.bind_pure {x : Dialog ε β α} {f : α → Dialog ε β γ} {p : List (Act β)} {a : α} {b : γ}
    (h : Speaks x p a) (hf : Speaks (f a) [] b) : Speaks (x >>= f) p b := by
  have := h.bind hf
  rwa [List.append_nil] at this

theorem waits_get : Waits (get : Dialog ε β β) [] := ⟨follows_nil _, stops_get⟩

theorem Waits.bind_left {x : Dialog ε β α} {p : List (Act β)} (h : Waits x p)
    (f : α → Dialog ε β γ) : Waits (x >>= f) p :=
  ⟨h.follows.bind_left, Dialog.stops_bind.mpr (Or.inl h.stops)⟩

theorem Speaks.bind_waits {x : Dialog ε β α} {f : α → Dialog ε β γ} {p q : List (Act β)} {a : α}
    (h : Speaks x p a) (hf : Waits (f a) q) : Waits (x >>= f) (p ++ q) :=
  ⟨h.follows_bind hf.follows, h.stops_bind.mpr hf.stops⟩

/-! ## Getting stuck -/

theorem stuck_lift {x : Run ε α} (h : ∀ a, ¬ x.Returns a) : Stuck (lift x : Dialog ε β α) [] where
  follows := follows_nil _
  no_send b hb := by
    obtain ⟨e, he⟩ := stops_lift hb
    cases he
  no_recv hr := by
    obtain ⟨e, he⟩ := stops_lift hr
    cases he
  no_end a V ha := h a (ends_lift.mp ha).1

theorem Stuck.bind_left {x : Dialog ε β α} {p : List (Act β)} (h : Stuck x p)
    (f : α → Dialog ε β γ) : Stuck (x >>= f) p where
  follows := h.follows.bind_left
  no_send b hb := by
    rcases stops_bind.mp hb with hb | ⟨a, V, ha, -⟩
    · exact h.no_send b hb
    · exact h.no_end a V ha
  no_recv hr := by
    rcases stops_bind.mp hr with hr | ⟨a, V, ha, -⟩
    · exact h.no_recv hr
    · exact h.no_end a V ha
  no_end b W hb := by
    obtain ⟨a, V, ha, -⟩ := ends_bind.mp hb
    exact h.no_end a V ha

theorem Speaks.bind_stuck {x : Dialog ε β α} {f : α → Dialog ε β γ} {p q : List (Act β)} {a : α}
    (h : Speaks x p a) (hf : Stuck (f a) q) : Stuck (x >>= f) (p ++ q) where
  follows := h.follows_bind hf.follows
  no_send b hb := hf.no_send b (h.stops_bind.mp hb)
  no_recv hr := hf.no_recv (h.stops_bind.mp hr)
  no_end b W hb := by
    obtain ⟨a', V, ha, hrest⟩ := ends_bind.mp hb
    obtain ⟨rfl, rfl⟩ := ha.unique (h.ends q)
    exact hf.no_end b W hrest

/-! ## Loops -/

/-- A loop is its first round and the rest. -/
theorem loop_equiv (body : σ → Dialog ε β (σ ⊕ α)) (s : σ) (T : List (Act β)) :
    Run.Equiv (Session.loop body s T)
      ((body s >>= Sum.elim (Session.loop body) pure) T) := by
  unfold Session.loop
  refine (Run.loop_equiv _ _).trans ?_
  change Run.Equiv ((body s T >>= fun r => pure (Session.settle r)) >>= _) (body s T >>= _)
  rw [bind_assoc]
  refine (Run.Equiv.refl _).bind fun r _ => ?_
  obtain ⟨r, V⟩ := r
  rw [pure_bind]
  cases r <;> exact Run.Equiv.refl _

theorem stops_loop {body : σ → Dialog ε β (σ ⊕ α)} {s : σ} {T : List (Act β)} {w : Stop ε β} :
    Stops (Session.loop body s) T w ↔
      Stops (body s >>= Sum.elim (Session.loop body) pure) T w := (loop_equiv body s T).faults w

theorem Speaks.of_loop {body : σ → Dialog ε β (σ ⊕ α)} {s : σ} {T : List (Act β)} {a : α}
    (h : Speaks (body s >>= Sum.elim (Session.loop body) pure) T a) : Speaks (Session.loop body s) T a :=
  ⟨fun p c q hp => stops_loop.mpr (h.follows p c q hp),
    fun V => ((loop_equiv body s (T ++ V)).returns _).mpr (h.ends V)⟩

theorem speaks_loop_break {body : σ → Dialog ε β (σ ⊕ α)} {s : σ} {T : List (Act β)} {a : α}
    (h : Speaks (body s) T (.inr a)) : Speaks (Session.loop body s) T a :=
  Speaks.of_loop (h.bind_pure (speaks_pure a))

theorem speaks_loop_continue {body : σ → Dialog ε β (σ ⊕ α)} {s s' : σ} {p q : List (Act β)} {a : α}
    (h : Speaks (body s) p (.inl s')) (h' : Speaks (Session.loop body s') q a) :
    Speaks (Session.loop body s) (p ++ q) a :=
  Speaks.of_loop (h.bind h')

theorem Waits.of_rounds {body : σ → Dialog ε β (σ ⊕ α)} {s : σ} {p : List (Act β)}
    (h : Waits (body s >>= Sum.elim (Session.loop body) pure) p) : Waits (Session.loop body s) p :=
  ⟨fun q c r hq => stops_loop.mpr (h.follows q c r hq), stops_loop.mpr h.stops⟩

theorem Stuck.of_rounds {body : σ → Dialog ε β (σ ⊕ α)} {s : σ} {p : List (Act β)}
    (h : Stuck (body s >>= Sum.elim (Session.loop body) pure) p) :
    Stuck (Session.loop body s) p where
  follows q c r hq := stops_loop.mpr (h.follows q c r hq)
  no_send b hb := h.no_send b (stops_loop.mp hb)
  no_recv hr := h.no_recv (stops_loop.mp hr)
  no_end a V ha := h.no_end a V (((loop_equiv body s p).returns _).mp ha)

/-- A loop that goes round in silence for ever. -/
theorem stuck_loop_of_invariant {body : σ → Dialog ε β (σ ⊕ α)} (I : σ → Prop)
    (hstep : ∀ s, I s → ∃ s', I s' ∧ Speaks (body s) [] (.inl s')) {s : σ} (hs : I s) :
    Stuck (Session.loop body s) [] := by
  -- every round of the loop below continues from the empty script to the empty script
  have hbody : ∀ c : σ × List (Act β), I c.1 ∧ c.2 = [] → ∃ c' : σ × List (Act β),
      (I c'.1 ∧ c'.2 = []) ∧
        Run.Returns (body c.1 c.2 >>= fun r => pure (Session.settle r)) (.inl c') := by
    rintro ⟨s, T⟩ ⟨hs, hT⟩
    obtain rfl : T = [] := hT
    obtain ⟨s', hs', hb⟩ := hstep s hs
    exact ⟨(s', []), ⟨hs', rfl⟩, Run.returns_bind.mpr ⟨_, hb.ends [], Run.returns_pure.mpr rfl⟩⟩
  have hsafe : Run.Safe (Session.loop body s []) := by
    refine Run.loop_safe (I := fun c : σ × List (Act β) => I c.1 ∧ c.2 = [])
      (fun c c' hc hr => ?_) (fun c hc e he => ?_) ⟨hs, rfl⟩
    · obtain ⟨c₁, hc₁, h₁⟩ := hbody c hc
      obtain rfl := Sum.inl.inj (hr.unique h₁)
      exact hc₁
    · obtain ⟨c₁, -, h₁⟩ := hbody c hc
      exact h₁.not_faults he
  refine ⟨follows_nil _, fun b hb => hsafe _ hb, fun hr => hsafe _ hr, fun a V ha => ?_⟩
  refine Run.loop_invariant (I := fun c : σ × List (Act β) => I c.1 ∧ c.2 = [])
    (Q := fun _ => False) (fun c c' hc hr => ?_) (fun c r hc hr => ?_) ⟨hs, rfl⟩ ha
  · obtain ⟨c₁, hc₁, h₁⟩ := hbody c hc
    obtain rfl := Sum.inl.inj (hr.unique h₁)
    exact hc₁
  · obtain ⟨c₁, -, h₁⟩ := hbody c hc
    cases hr.unique h₁

/-- A loop that goes round in silence until a round is stuck, or for ever. -/
theorem stuck_loop {body : σ → Dialog ε β (σ ⊕ α)} (I : σ → Prop)
    (hstep : ∀ s, I s → (∃ s', I s' ∧ Speaks (body s) [] (.inl s')) ∨ Stuck (body s) []) {s : σ}
    (hs : I s) : Stuck (Session.loop body s) [] := by
  let next := fun s s' => I s' ∧ Speaks (body s) [] (.inl s')
  by_cases hend : ∃ t, Relation.ReflTransGen next s t ∧ Stuck (body t) []
  · obtain ⟨t, hst, ht⟩ := hend
    induction hst using Relation.ReflTransGen.head_induction_on with
    | refl => exact .of_rounds (ht.bind_left _)
    | head h _ ih => exact .of_rounds (h.2.bind_stuck (ih h.1))
  · refine stuck_loop_of_invariant (fun t => I t ∧ Relation.ReflTransGen next s t)
      (fun t ht => ?_) ⟨hs, .refl⟩
    rcases hstep t ht.1 with ⟨t', ht', hb⟩ | hstuck
    · exact ⟨t', ⟨ht', ht.2.tail ⟨ht', hb⟩⟩, hb⟩
    · exact absurd ⟨t, ht.2, hstuck⟩ hend

/-! ## Several messages -/

section

variable [DecidableEq β]

/-- Send messages one after the other. -/
def putAll : List β → Dialog ε β Unit
  | [] => pure ()
  | b :: bs => do
    put b
    putAll bs

theorem speaks_putAll (bs : List β) : Speaks (putAll bs : Dialog ε β Unit) (bs.map .send) () := by
  induction bs with
  | nil => exact speaks_pure ()
  | cons b bs ih => exact (speaks_put b).bind ih

end

/-- A counted loop whose round `i` goes through the script `p i`. -/
theorem speaks_forUpM {lo hi : Nat} {f : Nat → σ → Dialog ε β σ} (st : Nat → σ)
    (p : Nat → List (Act β)) (hle : lo ≤ hi)
    (hstep : ∀ i, lo ≤ i → i < hi → Speaks (f i (st i)) (p i) (st (i + 1))) :
    Speaks (forUpM lo hi f (st lo)) ((List.range' lo (hi - lo)).flatMap p) (st hi) := by
  induction hi, hle using Nat.le_induction with
  | base =>
      rw [forUpM_self, Nat.sub_self]
      exact speaks_pure _
  | succ hi hle ih =>
      rw [forUpM_succ hle, show hi + 1 - lo = (hi - lo) + 1 by omega, List.range'_concat,
        List.flatMap_append, List.flatMap_singleton, Nat.one_mul, Nat.add_sub_cancel' hle]
      exact (ih fun i h1 h2 => hstep i h1 (by omega)).bind (hstep hi hle (by omega))

/-- A counted loop that keeps an invariant, round `i` going through `p i`. -/
theorem speaks_forUpM_invariant {lo hi : Nat} {f : Nat → σ → Dialog ε β σ} (I : Nat → σ → Prop)
    (p : Nat → List (Act β)) (hle : lo ≤ hi)
    (hstep : ∀ i s, lo ≤ i → i < hi → I i s → ∃ s', Speaks (f i s) (p i) s' ∧ I (i + 1) s') {s : σ}
    (hs : I lo s) :
    ∃ s', Speaks (forUpM lo hi f s) ((List.range' lo (hi - lo)).flatMap p) s' ∧ I hi s' := by
  induction hi, hle using Nat.le_induction with
  | base =>
      refine ⟨s, ?_, hs⟩
      rw [forUpM_self, Nat.sub_self]
      exact speaks_pure s
  | succ hi hle ih =>
      obtain ⟨s₁, h₁, hI₁⟩ := ih fun i s h1 h2 => hstep i s h1 (by omega)
      obtain ⟨s₂, h₂, hI₂⟩ := hstep hi s₁ hle (by omega) hI₁
      refine ⟨s₂, ?_, hI₂⟩
      rw [forUpM_succ hle, show hi + 1 - lo = (hi - lo) + 1 by omega, List.range'_concat,
        List.flatMap_append, List.flatMap_singleton, Nat.one_mul, Nat.add_sub_cancel' hle]
      exact h₁.bind h₂

/-- A round, and then a loop that waits. -/
theorem Speaks.loop_waits {body : σ → Dialog ε β (σ ⊕ α)} {s s' : σ} {p q : List (Act β)}
    (h : Speaks (body s) p (.inl s')) (h' : Waits (Session.loop body s') q) :
    Waits (Session.loop body s) (p ++ q) :=
  .of_rounds (h.bind_waits h')

/-- Where a loop waits behind a round, it waits from the state after the round. -/
theorem Speaks.waits_of_loop {body : σ → Dialog ε β (σ ⊕ α)} {s s' : σ} {p q : List (Act β)}
    (h : Speaks (body s) p (.inl s')) (h' : Waits (Session.loop body s) (p ++ q)) :
    Waits (Session.loop body s') q where
  follows r c t hr := by
    have := stops_loop.mp (h'.follows (p ++ r) c t (by rw [hr, List.append_assoc]))
    exact h.stops_bind.mp this
  stops := h.stops_bind.mp (stops_loop.mp h'.stops)

/-! ## Rounds of a loop that goes on -/

section

variable {body : σ → Dialog ε β (σ ⊕ α)}

/-- From every state with `I` the loop goes through `p` to a state with `J`, and
    goes on there. -/
def Rounds (body : σ → Dialog ε β (σ ⊕ α)) (I J : σ → Prop) (p : List (Act β)) : Prop :=
  ∀ s, I s → ∃ s', J s' ∧
    ∀ q, Waits (Session.loop body s') q → Waits (Session.loop body s) (p ++ q)

theorem Rounds.trans {I J K : σ → Prop} {p q : List (Act β)} (h : Rounds body I J p)
    (h' : Rounds body J K q) : Rounds body I K (p ++ q) := by
  intro s hs
  obtain ⟨s₁, hs₁, hp⟩ := h s hs
  obtain ⟨s₂, hs₂, hq⟩ := h' s₁ hs₁
  refine ⟨s₂, hs₂, fun r hr => ?_⟩
  rw [List.append_assoc]
  exact hp _ (hq r hr)

/-- One stretch of rounds after the other. -/
theorem Rounds.range {I : Nat → σ → Prop} {p : Nat → List (Act β)} {n : Nat}
    (h : ∀ i, i < n → Rounds body (I i) (I (i + 1)) (p i)) :
    Rounds body (I 0) (I n) ((List.range' 0 n).flatMap p) := by
  induction n with
  | zero => exact fun s hs => ⟨s, hs, fun _ hq => hq⟩
  | succ n ih =>
      rw [List.range'_1_concat, List.flatMap_append, List.flatMap_singleton, Nat.zero_add]
      exact (ih fun i hi => h i (by omega)).trans (h n (Nat.lt_succ_self n))

/-- The loop waits where its next round does. -/
theorem Rounds.waits {I J : σ → Prop} {p : List (Act β)} (h : Rounds body I J p)
    (hend : ∀ s, J s → Waits (body s) []) {s : σ} (hs : I s) : Waits (Session.loop body s) p := by
  obtain ⟨s', hs', hp⟩ := h s hs
  have := hp [] (.of_rounds ((hend s' hs').bind_left _))
  rwa [List.append_nil] at this

end

/-! ## Other faults -/

section

variable {ε' : Type}

/-- The same process, with other faults. -/
def mapFault (g : ε → ε') (x : Dialog ε β α) : Dialog ε' β α := fun T => (x T).mapFault (Stop.mapFault g)

theorem Stops.mapFault {x : Dialog ε β α} {T : List (Act β)} {w : Stop ε β} (h : Stops x T w)
    (g : ε → ε') : Stops (x.mapFault g) T (w.mapFault g) :=
  Run.faults_mapFault.mpr ⟨w, h, rfl⟩

/-- What a process says does not depend on how its faults are called. -/
theorem Speaks.mapFault {x : Dialog ε β α} {T : List (Act β)} {a : α} (h : Speaks x T a) (g : ε → ε') :
    Speaks (x.mapFault g) T a where
  follows p c q hT := by
    have hstop := (h.follows p c q hT).mapFault g
    cases c <;> exact hstop
  ends V := Run.returns_mapFault.mpr (h.ends V)

end

end Dialog

end Meds.Core
