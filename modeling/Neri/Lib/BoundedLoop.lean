import Mathlib.Tactic.Common

/-!
# Loops that come to an end

The body of a loop goes on with another state or leaves the loop with a result. A measure that falls
each time the body goes on bounds the number of rounds, so that the loop always leaves: `run` is the
result. What holds of a result is proved round by round, backwards (`run_induction`) or forwards with
an invariant (`run_invariant`).
-/

universe u v

/-- A loop with the measure that bounds it. -/
structure BoundedLoop (σ : Type u) (ρ : Type v) where
  body : σ → σ ⊕ ρ
  measure : σ → Nat
  decreases : ∀ state next, body state = .inl next → measure next < measure state

namespace BoundedLoop

variable {σ : Type u} {ρ : Type v} (loop : BoundedLoop σ ρ)

/-- The result of the loop, in at most as many rounds as the bound says and one more. -/
def runFrom : (bound : Nat) → (state : σ) → loop.measure state ≤ bound → ρ
  | 0, state, hbound =>
    match hbody : loop.body state with
    | .inr res => res
    | .inl next => absurd (loop.decreases state next hbody) (by omega)
  | bound + 1, state, hbound =>
    match hbody : loop.body state with
    | .inr res => res
    | .inl next => runFrom bound next (by have := loop.decreases state next hbody; omega)

def run (state : σ) : ρ := loop.runFrom (loop.measure state) state (Nat.le_refl _)

theorem runFrom_eq (bound : Nat) (state : σ) (hbound : loop.measure state ≤ bound) :
    loop.runFrom bound state hbound = loop.run state := by
  suffices h : ∀ (bound bound' : Nat) (state : σ) (hbound : loop.measure state ≤ bound)
      (hbound' : loop.measure state ≤ bound'),
      loop.runFrom bound state hbound = loop.runFrom bound' state hbound' from h _ _ _ _ _
  intro bound
  induction bound with
  | zero =>
    intro bound' state hbound hbound'
    cases bound' <;> (unfold runFrom; split)
    all_goals first | rfl | exact absurd (loop.decreases state _ ‹_›) (by omega)
  | succ bound ih =>
    intro bound' state hbound hbound'
    cases bound' <;> (unfold runFrom; split)
    all_goals first | rfl | exact ih _ _ _ _ | exact absurd (loop.decreases state _ ‹_›) (by omega)

theorem run_eq (state : σ) : loop.run state = match loop.body state with
    | .inl next => loop.run next
    | .inr res => res := by
  rw [← loop.runFrom_eq (loop.measure state + 1) state (Nat.le_succ _)]
  unfold runFrom
  split
  · rename_i res hbody
    rw [hbody]
  · rename_i next hbody
    rw [loop.runFrom_eq, hbody]

variable {loop}

theorem run_of_inl {state next : σ} (h : loop.body state = .inl next) :
    loop.run state = loop.run next := by
  rw [run_eq, h]

theorem run_of_inr {state : σ} {res : ρ} (h : loop.body state = .inr res) :
    loop.run state = res := by
  rw [run_eq, h]

/-- What holds where the loop leaves, and of a state when it holds of the next one, holds of every
state and its result. -/
theorem run_induction {P : σ → ρ → Prop}
    (leaves : ∀ state res, loop.body state = .inr res → P state res)
    (goesOn : ∀ state next, loop.body state = .inl next → P next (loop.run next) →
      P state (loop.run next)) (state : σ) : P state (loop.run state) := by
  induction hmeasure : loop.measure state using Nat.strongRecOn generalizing state with
  | _ n ih =>
    cases hbody : loop.body state with
    | inr res =>
      rw [run_of_inr hbody]
      exact leaves state res hbody
    | inl next =>
      rw [run_of_inl hbody]
      refine goesOn state next hbody (ih (loop.measure next) ?_ next rfl)
      rw [← hmeasure]
      exact loop.decreases state next hbody

theorem run_invariant (Inv : σ → Prop) (Post : ρ → Prop)
    (goesOn : ∀ state next, Inv state → loop.body state = .inl next → Inv next)
    (leaves : ∀ state res, Inv state → loop.body state = .inr res → Post res)
    {state : σ} (h : Inv state) : Post (loop.run state) := by
  have hrun : ∀ state, Inv state → Post (loop.run state) := fun state =>
    run_induction (fun state res hbody hinv => leaves state res hinv hbody)
      (fun state next hbody ih hinv => ih (goesOn state next hinv hbody)) state
  exact hrun state h

end BoundedLoop
