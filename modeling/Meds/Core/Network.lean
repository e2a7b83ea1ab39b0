/-
  Meds.Core.Network

  Two dialogs joined by two lossless FIFO channels.

  A configuration holds what each side has said and what is under way in each
  direction; a step is one message sent or received by one side.  If one side
  follows a script and the other its dual, every interleaving stays within
  the script: one side is ahead of the other by messages it has sent.  So both
  sides can only wait at once where the script ends.
-/

import Mathlib.Data.List.Induction
import Mathlib.Logic.Relation
import Meds.Core.Dialog

namespace Meds.Core

/-- What two processes have said, and what is under way between them. -/
structure Config (β : Type) where
  left : List (Act β)
  right : List (Act β)
  toLeft : List β
  toRight : List β

/-- Nothing has been said. -/
def Config.start {β : Type} : Config β := ⟨[], [], [], []⟩

namespace Network

open Dialog

variable {ε ε' β α α' : Type}

section

variable (A : Dialog ε β α) (B : Dialog ε' β α')

/-- One side sends or receives one message. -/
inductive Step : Config β → Config β → Prop where
  | leftSend {l r : List (Act β)} {tl tr : List β} {b : β} (h : Stops A l (.send b)) :
      Step ⟨l, r, tl, tr⟩ ⟨l ++ [.send b], r, tl, tr ++ [b]⟩
  | leftRecv {l r : List (Act β)} {tl tr : List β} {b : β} (h : Stops A l .recv) :
      Step ⟨l, r, b :: tl, tr⟩ ⟨l ++ [.recv b], r, tl, tr⟩
  | rightSend {l r : List (Act β)} {tl tr : List β} {b : β} (h : Stops B r (.send b)) :
      Step ⟨l, r, tl, tr⟩ ⟨l, r ++ [.send b], tl ++ [b], tr⟩
  | rightRecv {l r : List (Act β)} {tl tr : List β} {b : β} (h : Stops B r .recv) :
      Step ⟨l, r, tl, b :: tr⟩ ⟨l, r ++ [.recv b], tl, tr⟩

/-- The configurations of all interleavings. -/
def Reachable (c : Config β) : Prop := Relation.ReflTransGen (Step A B) Config.start c

/-- Both sides wait for a message, and none is under way. -/
structure BothWait (c : Config β) : Prop where
  left : Stops A c.left .recv
  right : Stops B c.right .recv
  toLeft : c.toLeft = []
  toRight : c.toRight = []

end

/-- The script of the other side. -/
def dual (T : List (Act β)) : List (Act β) := T.map Act.dual

@[simp] theorem dual_append (p q : List (Act β)) : dual (p ++ q) = dual p ++ dual q :=
  List.map_append

@[simp] theorem dual_nil : dual ([] : List (Act β)) = [] := rfl

@[simp] theorem dual_singleton (c : Act β) : dual [c] = [c.dual] := rfl

@[simp] theorem dual_dual (T : List (Act β)) : dual (dual T) = T := by
  have h : Act.dual ∘ Act.dual = (id : Act β → Act β) := funext fun c => by cases c <;> rfl
  rw [dual, dual, List.map_map, h, List.map_id]

/-- Both sides are within the script `T`: one side is ahead by what it has sent. -/
inductive Along (T : List (Act β)) : Config β → Prop where
  | ahead {p : List (Act β)} {bs : List β} {r : List (Act β)} (h : T = p ++ bs.map .send ++ r) :
      Along T ⟨p ++ bs.map .send, dual p, [], bs⟩
  | behind {p : List (Act β)} {bs : List β} {r : List (Act β)} (h : T = p ++ bs.map .recv ++ r) :
      Along T ⟨p, dual (p ++ bs.map .recv), bs, []⟩

variable {A : Dialog ε β α} {B : Dialog ε' β α'} {T : List (Act β)}

/-- A side that follows the script wants its next item. -/
theorem next_of_follows {p r : List (Act β)} {w : Stop ε β} (hA : A.Follows T)
    (hend : ¬ A.Stops T w) (hT : T = p ++ r) (h : A.Stops p w) :
    ∃ c r', r = c :: r' ∧ c.want = w := by
  cases r with
  | nil =>
      rw [List.append_nil] at hT
      exact absurd (hT ▸ h) hend
  | cons c r => exact ⟨c, r, rfl, (hA p c r hT).unique h⟩

theorem dual_next {p r : List (Act β)} {w : Stop ε' β} (hB : B.Follows (dual T))
    (hend : ¬ B.Stops (dual T) w) (hT : T = p ++ r) (h : B.Stops (dual p) w) :
    ∃ c r', r = c :: r' ∧ c.dual.want = w := by
  obtain ⟨c, r', hr, hc⟩ := next_of_follows hB hend (by rw [hT, dual_append]) h
  cases r with
  | nil => cases hr
  | cons c' r =>
      obtain ⟨rfl, rfl⟩ := List.cons.inj hr
      exact ⟨c', r, rfl, hc⟩

/-- One step of either side stays within the script. -/
theorem Along.step (hA : A.Follows T) (hB : B.Follows (dual T))
    (hAend : ∀ b, ¬ A.Stops T (.send b)) (hBend : ∀ b, ¬ B.Stops (dual T) (.send b))
    {c c' : Config β} (hc : Along T c) (h : Step A B c c') : Along T c' := by
  cases hc with
  | @ahead p bs r hT =>
      cases h with
      -- the left sends what stands next in its script
      | leftSend h =>
          obtain ⟨c, r', rfl, hc⟩ := next_of_follows hA (hAend _) hT h
          cases c with
          | recv b => cases hc
          | send b =>
              obtain rfl := Stop.send.inj hc
              rw [List.append_assoc, ← List.map_singleton, ← List.map_append]
              exact .ahead (r := r') (by rw [hT]; simp)
      | rightSend h =>
          cases bs with
          | cons b bs =>
              -- bytes are under way: the right has to receive before it may send
              have hT' : T = p ++ (.send b :: (bs.map .send ++ r)) := by rw [hT]; simp
              obtain ⟨c, r', hr, hc⟩ := dual_next hB (hBend _) hT' h
              obtain ⟨rfl, -⟩ := List.cons.inj hr
              cases hc
          | nil =>
              rw [List.map_nil, List.append_nil] at hT
              obtain ⟨c, r', rfl, hc⟩ := dual_next hB (hBend _) hT h
              cases c with
              | send b => cases hc
              | recv b =>
                  obtain rfl := Stop.send.inj hc
                  have := @Along.behind _ T p [b] r' (by rw [hT]; simp)
                  simpa [Act.dual] using this
      | rightRecv h =>
          rename_i bs b
          have := @Along.ahead _ T (p ++ [.send b]) bs r (by rw [hT]; simp)
          simpa [Act.dual] using this
  -- the same with the sides exchanged
  | @behind p bs r hT =>
      cases h with
      | rightSend h =>
          obtain ⟨c, r', rfl, hc⟩ := dual_next hB (hBend _) hT h
          cases c with
          | send b => cases hc
          | recv b =>
              obtain rfl := Stop.send.inj hc
              have := @Along.behind _ T p (bs ++ [b]) r' (by rw [hT]; simp)
              simpa [Act.dual] using this
      | leftSend h =>
          cases bs with
          | cons b bs =>
              have hT' : T = p ++ (.recv b :: (bs.map .recv ++ r)) := by rw [hT]; simp
              obtain ⟨c, r', hr, hc⟩ := next_of_follows hA (hAend _) hT' h
              obtain ⟨rfl, -⟩ := List.cons.inj hr
              cases hc
          | nil =>
              rw [List.map_nil, List.append_nil] at hT
              obtain ⟨c, r', rfl, hc⟩ := next_of_follows hA (hAend _) hT h
              cases c with
              | recv b => cases hc
              | send b =>
                  obtain rfl := Stop.send.inj hc
                  have := @Along.ahead _ T p [b] r' (by rw [hT]; simp)
                  simpa using this
      | leftRecv h =>
          rename_i bs b
          have := @Along.behind _ T (p ++ [.recv b]) bs r (by rw [hT]; simp)
          simpa [Act.dual] using this

/-- Every interleaving stays within the script. -/
theorem Reachable.along (hA : A.Follows T) (hB : B.Follows (dual T))
    (hAend : ∀ b, ¬ A.Stops T (.send b)) (hBend : ∀ b, ¬ B.Stops (dual T) (.send b))
    {c : Config β} (h : Reachable A B c) : Along T c := by
  induction h with
  | refl => exact @Along.ahead _ T [] [] T rfl
  | tail _ hstep ih => exact ih.step hA hB hAend hBend hstep

theorem Along.right_prefix {c : Config β} (hc : Along T c) : c.right <+: dual T := by
  cases hc with
  | @ahead p bs r hT => exact ⟨dual (bs.map .send ++ r), by rw [hT]; simp⟩
  | @behind p bs r hT => exact ⟨dual r, by rw [hT]; simp⟩

/-- Within the script both sides can only wait at its end. -/
theorem Along.end_of_bothWait (hA : A.Follows T) (hB : B.Follows (dual T)) {c : Config β}
    (hc : Along T c) (h : BothWait A B c) : A.Stops T .recv ∧ B.Stops (dual T) .recv := by
  have key : ∀ p r, T = p ++ r → A.Stops p .recv → B.Stops (dual p) .recv →
      A.Stops T .recv ∧ B.Stops (dual T) .recv := by
    intro p r hT hl hr
    by_contra hno
    -- the next item is sent by one of the two
    rcases not_and_or.mp hno with hno | hno
    · obtain ⟨c, r', rfl, hcw⟩ := next_of_follows hA hno hT hl
      have hcd := (hB (dual p) c.dual (dual r') (by rw [hT, dual_append]; rfl)).unique hr
      cases c with
      | send b => cases hcw
      | recv b => cases hcd
    · obtain ⟨c, r', rfl, hcd⟩ := dual_next hB hno hT hr
      have hcw := (hA p c r' hT).unique hl
      cases c with
      | send b => cases hcw
      | recv b => cases hcd
  cases hc with
  | @ahead p bs r hT =>
      obtain rfl : bs = [] := h.toRight
      rw [List.map_nil, List.append_nil] at hT
      have hl := h.left
      simp only [List.map_nil, List.append_nil] at hl
      exact key p r hT hl h.right
  | @behind p bs r hT =>
      obtain rfl : bs = [] := h.toLeft
      rw [List.map_nil, List.append_nil] at hT
      have hr := h.right
      simp only [List.map_nil, List.append_nil] at hr
      exact key p r hT h.left hr

/-- A script that both sides follow can be gone through in step. -/
theorem reachable_of_follows (hA : A.Follows T) (hB : B.Follows (dual T)) :
    Reachable A B ⟨T, dual T, [], []⟩ := by
  have key : ∀ p r, T = p ++ r → Reachable A B ⟨p, dual p, [], []⟩ := by
    intro p
    induction p using List.reverseRecOn with
    | nil => exact fun _ _ => .refl
    | append_singleton p c ih =>
        intro r hT
        have hT' : T = p ++ c :: r := by rw [hT, List.append_assoc]; rfl
        have hl := hA p c r hT'
        have hr := hB (dual p) c.dual (dual r) (by rw [hT', dual_append]; rfl)
        have hp := ih (c :: r) hT'
        rw [dual_append, dual_singleton]
        cases c with
        | send b => exact (hp.tail (.leftSend hl)).tail (.rightRecv hr)
        | recv b => exact (hp.tail (.rightSend hr)).tail (.leftRecv hl)
  exact key T [] (List.append_nil T).symm

/-! ## Runs that come to an end -/

/-- Every interleaving is finite, and where no step is left the right side has
    ended with `b`. -/
structure Completes (A : Dialog ε β α) (B : Dialog ε' β α') (b : α') : Prop where
  bounded : ∃ N, ∀ c, Reachable A B c → c.left.length + c.right.length ≤ N
  ends : ∀ c, Reachable A B c → (∀ c', ¬ Step A B c c') → B.Ends c.right b []

theorem Along.length_le {c : Config β} (hc : Along T c) : c.left.length + c.right.length ≤ 2 * T.length := by
  cases hc with
  | ahead h =>
      rw [h]
      simp only [dual, List.length_append, List.length_map]
      omega
  | behind h =>
      rw [h]
      simp only [dual, List.length_append, List.length_map]
      omega

/-- Within the script there is a step but at its end. -/
theorem Along.right_eq_of_stuck (hA : A.Follows T) (hB : B.Follows (dual T)) {c : Config β}
    (hc : Along T c) (hstuck : ∀ c', ¬ Step A B c c') : c.right = dual T := by
  -- nothing is under way, and the next item is sent by one of the two
  have key : ∀ p r, T = p ++ r → (∀ c', ¬ Step A B ⟨p, dual p, [], []⟩ c') → dual p = dual T := by
    intro p r hT hno
    cases r with
    | nil => rw [hT, List.append_nil]
    | cons a r =>
        exfalso
        have hl := hA p a r hT
        have hr := hB (dual p) a.dual (dual r) (by rw [hT, dual_append]; rfl)
        cases a with
        | send b => exact hno _ (.leftSend hl)
        | recv b => exact hno _ (.rightSend hr)
  cases hc with
  | @ahead p bs r hT =>
      cases bs with
      | nil =>
          rw [List.map_nil, List.append_nil] at hT hstuck
          exact key p r hT hstuck
      | cons b bs =>
          have hr := hB (dual p) (.recv b) (dual (bs.map .send ++ r))
            (by rw [hT]; simp [dual, Act.dual])
          exact absurd (Step.rightRecv hr) (hstuck _)
  | @behind p bs r hT =>
      cases bs with
      | nil =>
          rw [List.map_nil, List.append_nil] at hT hstuck ⊢
          exact key p r hT hstuck
      | cons b bs =>
          have hl := hA p (.recv b) (bs.map .recv ++ r) (by rw [hT]; simp)
          exact absurd (Step.leftRecv hl) (hstuck _)

/-- Where one side follows a script to its end and then waits, and the other goes
    through the dual one, every interleaving comes to the end of the script. -/
theorem completes_of_waits {b : α'} (hA : A.Waits T) (hB : B.Speaks (dual T) b) : Completes A B b := by
  have halong : ∀ c, Reachable A B c → Along T c := fun c hc =>
    hc.along hA.follows hB.follows (fun m hm => by cases hm.unique hA.stops) fun m hm => hB.not_stops hm
  refine ⟨⟨2 * T.length, fun c hc => (halong c hc).length_le⟩, fun c hc hstuck => ?_⟩
  rw [(halong c hc).right_eq_of_stuck hA.follows hB.follows hstuck]
  have hends := hB.ends []
  rwa [List.append_nil] at hends

/-! ## One side alone -/

/-- What a script receives. -/
def received (T : List (Act β)) : List β :=
  T.filterMap fun c => match c with
    | .recv b => some b
    | .send _ => none

@[simp] theorem received_append (p q : List (Act β)) :
    received (p ++ q) = received p ++ received q := List.filterMap_append

@[simp] theorem received_send (b : β) : received [Act.send b] = [] := rfl

@[simp] theorem received_recv (b : β) : received [Act.recv b] = [b] := rfl

/-- With any other side, as long as what arrives is that of the script, the
    side that goes through a script keeps to it. -/
theorem Reachable.right_prefix {a : α'} (hB : B.Speaks T a) {c : Config β} (h : Reachable A B c)
    (hr : received c.right <+: received T) : c.right <+: T := by
  induction h with
  | refl => exact List.nil_prefix
  | tail _ hstep ih =>
      cases hstep with
      | leftSend h => exact ih hr
      | leftRecv h => exact ih hr
      -- it sends what stands next in the script
      | @rightSend l r tl tr b h =>
          rw [received_append, received_send, List.append_nil] at hr
          obtain ⟨q, hq⟩ := ih hr
          obtain ⟨c, q, rfl, hc⟩ := next_of_follows hB.follows hB.not_stops hq.symm h
          cases c with
          | recv b' => cases hc
          | send b' =>
              obtain rfl := Stop.send.inj hc
              exact ⟨q, by rw [List.append_assoc]; exact hq⟩
      | @rightRecv l r tl tr b h =>
          rw [received_append, received_recv] at hr
          obtain ⟨q, hq⟩ := ih ((List.prefix_append _ _).trans hr)
          obtain ⟨c, q, rfl, hc⟩ := next_of_follows hB.follows hB.not_stops hq.symm h
          cases c with
          | send b' => cases hc
          | recv b' =>
              -- what arrives is by assumption the next byte that the script receives
              have hsplit : received T = received r ++ ([b'] ++ received q) := by
                rw [← hq, ← received_recv b', ← received_append, ← received_append]
                rfl
              rw [hsplit, List.prefix_append_right_inj, List.singleton_append,
                List.cons_prefix_cons] at hr
              obtain rfl := hr.1
              exact ⟨q, by rw [List.append_assoc]; exact hq⟩

end Network

end Meds.Core
