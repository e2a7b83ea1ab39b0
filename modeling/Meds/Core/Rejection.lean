/-
  Meds.Core.Rejection

  Rejection sampling from an endless sequence of draws.

  What a sampler sees of the sequence is the list of accepted draws among the
  first `m`, which only grows with `m`.  A sampler that wants `b` values at a
  time gets the blocks of that list; block `k` exists once `(k + 1) * b` draws
  have been accepted, and does not change from then on.
-/

import Meds.Core.Loop

namespace Meds.Core

section

variable {α : Type} (ok : α → Bool) (draw : Nat → α)

/-- The accepted values among the first `m` draws. -/
def accepted (m : Nat) : List α := ((List.range m).map draw).filter ok

/-- `v` is block `k` of the accepted values, in blocks of `b`. -/
def IsBlock (b k : Nat) (v : List α) : Prop :=
  ∃ m, (k + 1) * b ≤ (accepted ok draw m).length ∧
    v = ((accepted ok draw m).drop (k * b)).take b

/-- Draw `i` is the first accepted one from `j` on. -/
structure FirstFrom (j i : Nat) : Prop where
  le : j ≤ i
  accepts : ok (draw i) = true
  rejects : ∀ x, j ≤ x → x < i → ok (draw x) = false

variable {ok draw}

theorem accepted_succ (m : Nat) :
    accepted ok draw (m + 1) = accepted ok draw m ++ if ok (draw m) then [draw m] else [] := by
  rw [accepted, List.range_succ, List.map_append, List.filter_append, accepted]
  by_cases h : ok (draw m) = true <;> simp [h]

theorem accepted_mono {m m' : Nat} (h : m ≤ m') :
    accepted ok draw m <+: accepted ok draw m' := by
  induction m', h using Nat.le_induction with
  | base => exact List.prefix_rfl
  | succ m' _ ih =>
      rw [accepted_succ]
      exact ih.trans (List.prefix_append _ _)

/-- A longer list of accepted values comes from more draws. -/
theorem lt_of_length_accepted_lt {j m : Nat}
    (h : (accepted ok draw j).length < (accepted ok draw m).length) : j < m := by
  by_contra hle
  have := (@accepted_mono _ ok draw _ _ (Nat.le_of_not_lt hle)).length_le
  omega

/-- Rejected draws leave no trace. -/
theorem FirstFrom.accepted_eq {j i : Nat} (h : FirstFrom ok draw j i) :
    accepted ok draw (i + 1) = accepted ok draw j ++ [draw i] := by
  have hskip : ∀ x, j ≤ x → x ≤ i → accepted ok draw x = accepted ok draw j := by
    intro x hjx
    induction x, hjx using Nat.le_induction with
    | base => intro _; rfl
    | succ x hjx ih =>
        intro hxi
        rw [accepted_succ, h.rejects x hjx hxi, ih (Nat.le_of_succ_le hxi)]
        simp
  rw [accepted_succ, h.accepts, hskip i h.le (Nat.le_refl i), if_pos rfl]

/-- Where more values are accepted, there is a first one. -/
theorem exists_firstFrom {j m : Nat}
    (h : (accepted ok draw j).length < (accepted ok draw m).length) : ∃ i, FirstFrom ok draw j i := by
  obtain ⟨d, rfl⟩ := Nat.exists_eq_add_of_lt (lt_of_length_accepted_lt h)
  -- induction on the draws that are left
  induction d generalizing j with
  | zero =>
      rw [accepted_succ] at h
      have hok : ok (draw j) = true := by
        by_contra hno
        rw [if_neg hno, List.append_nil] at h
        exact Nat.lt_irrefl _ h
      exact ⟨j, Nat.le_refl j, hok, fun x h1 h2 => absurd h2 (by omega)⟩
  | succ d ih =>
      by_cases hok : ok (draw j) = true
      · exact ⟨j, Nat.le_refl j, hok, fun x h1 h2 => absurd h2 (by omega)⟩
      · have hnext : accepted ok draw (j + 1) = accepted ok draw j := by
          rw [accepted_succ, if_neg hok, List.append_nil]
        obtain ⟨i, hi⟩ := @ih (j + 1) (by
          rw [hnext, show j + 1 + d + 1 = j + (d + 1) + 1 by omega]
          exact h)
        refine ⟨i, Nat.le_of_succ_le hi.le, hi.accepts, fun x h1 h2 => ?_⟩
        rcases Nat.eq_or_lt_of_le h1 with rfl | hlt
        · exact Bool.eq_false_iff.mpr hok
        · exact hi.rejects x hlt h2

/-! ## Blocks -/

theorem IsBlock.length {b k : Nat} {v : List α} (h : IsBlock ok draw b k v) : v.length = b := by
  obtain ⟨m, hm, rfl⟩ := h
  rw [Nat.succ_mul] at hm
  rw [List.length_take, List.length_drop]
  omega

theorem IsBlock.accepts {b k : Nat} {v : List α} (h : IsBlock ok draw b k v) :
    ∀ x ∈ v, ok x = true := by
  obtain ⟨m, -, rfl⟩ := h
  intro x hx
  exact (List.mem_filter.mp (List.mem_of_mem_drop (List.mem_of_mem_take hx))).2

/-- A block does not depend on how many draws are looked at. -/
theorem IsBlock.unique {b k : Nat} {v v' : List α} (h : IsBlock ok draw b k v)
    (h' : IsBlock ok draw b k v') : v = v' := by
  have key : ∀ {m m' : Nat}, m ≤ m' → (k + 1) * b ≤ (accepted ok draw m).length →
      ((accepted ok draw m).drop (k * b)).take b = ((accepted ok draw m').drop (k * b)).take b := by
    intro m m' hle hm
    obtain ⟨rest, hrest⟩ := @accepted_mono _ ok draw _ _ hle
    rw [Nat.succ_mul] at hm
    rw [← hrest, List.drop_append_of_le_length (by omega),
      List.take_append_of_le_length (by rw [List.length_drop]; omega)]
  obtain ⟨m, hm, rfl⟩ := h
  obtain ⟨m', hm', rfl⟩ := h'
  rcases Nat.le_total m m' with hle | hle
  · exact key hle hm
  · exact (key hle hm').symm

/-- The next `b` values after `k` blocks are block `k`. -/
theorem isBlock_of_accepted {b k j j' : Nat} {v : List α}
    (hk : (accepted ok draw j).length = k * b)
    (hv : accepted ok draw j' = accepted ok draw j ++ v) (hlen : v.length = b) :
    IsBlock ok draw b k v := by
  refine ⟨j', ?_, ?_⟩
  · have hlength : (accepted ok draw j').length = (k + 1) * b := by
      rw [hv, List.length_append, hk, hlen, Nat.succ_mul]
    exact Nat.le_of_eq hlength.symm
  · rw [hv, ← hk, List.drop_left, List.take_of_length_le (Nat.le_of_eq hlen)]

/-! ## The loop -/

/-- A loop that draws until a value is accepted. -/
theorem Run.returns_rejection {ε σ β : Type} {body : σ → Run ε (σ ⊕ β)} (st : Nat → σ)
    (out : Nat → β)
    (hbody : ∀ j, body (st j) =
      if ok (draw j) then pure (.inr (out j)) else pure (.inl (st (j + 1)))) {j : Nat} {r : β} :
    (Run.loop body (st j)).Returns r ↔ ∃ i, FirstFrom ok draw j i ∧ r = out i := by
  constructor
  · intro h
    -- from a run: the loop has ended at the first accepted draw
    refine Run.loop_induction
      (P := fun s => ∀ j, s = st j → ∃ i, FirstFrom ok draw j i ∧ r = out i) ?_ ?_ h j rfl
    · rintro s hb j rfl
      rw [hbody] at hb
      by_cases hok : ok (draw j) = true
      · rw [if_pos hok, Run.returns_pure, Sum.inr.injEq] at hb
        exact ⟨j, ⟨Nat.le_refl j, hok, fun x h1 h2 => absurd h2 (by omega)⟩, hb⟩
      · rw [if_neg hok, Run.returns_pure] at hb
        cases hb
    · rintro s s' hb - ih j rfl
      rw [hbody] at hb
      by_cases hok : ok (draw j) = true
      · rw [if_pos hok, Run.returns_pure] at hb
        cases hb
      · rw [if_neg hok, Run.returns_pure, Sum.inl.injEq] at hb
        obtain ⟨i, hi, hr⟩ := ih (j + 1) hb
        refine ⟨i, ⟨Nat.le_of_succ_le hi.le, hi.accepts, fun x h1 h2 => ?_⟩, hr⟩
        rcases Nat.eq_or_lt_of_le h1 with rfl | hlt
        · exact Bool.eq_false_iff.mpr hok
        · exact hi.rejects x hlt h2
  · rintro ⟨i, hi, rfl⟩
    -- to a run: by induction on the number of draws rejected before
    obtain ⟨d, hd⟩ := Nat.exists_eq_add_of_le hi.le
    induction d generalizing j with
    | zero =>
        obtain rfl : i = j := hd
        exact Run.returns_loop_break (by rw [hbody, if_pos hi.accepts, Run.returns_pure])
    | succ d ih =>
        have hno := hi.rejects j (Nat.le_refl j) (by omega)
        refine @Run.returns_loop_continue _ _ _ _ _ (st (j + 1)) _ ?_ (ih ?_ (by omega))
        · rw [hbody, hno, if_neg Bool.false_ne_true, Run.returns_pure]
        · exact ⟨by omega, hi.accepts, fun x h1 h2 => hi.rejects x (by omega) h2⟩

end

end Meds.Core
