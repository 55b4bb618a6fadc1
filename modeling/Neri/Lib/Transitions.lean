import Mathlib.Data.List.Basic

/-!
# Runs of a system

A system answers an action in a state and moves to another state, or the action is not possible
there. A run is the list of what happened, from a first state on. What each step keeps, every run
keeps, and a condition that is never lost is entered at most once.
-/

namespace Transitions

variable {σ α β : Type*} {step : σ → α → Option (β × σ)}

structure Transition (σ α β : Type*) where
  before : σ
  action : α
  answer : β
  after : σ

/-- The runs from a state. -/
inductive Run (step : σ → α → Option (β × σ)) (start : σ) : List (Transition σ α β) → σ → Prop
  | nil : Run step start [] start
  | snoc {trace : List (Transition σ α β)} {before after : σ} {action : α} {answer : β} :
      Run step start trace before → step before action = some (answer, after) →
      Run step start (trace ++ [⟨before, action, answer, after⟩]) after

namespace Run

variable {start middle final : σ} {trace trace' : List (Transition σ α β)}

theorem trans (first : Run step start trace middle) (second : Run step middle trace' final) :
    Run step start (trace ++ trace') final := by
  induction second with
  | nil => rwa [List.append_nil]
  | snoc _ hstep ih =>
    rw [← List.append_assoc]
    exact ih.snoc hstep

theorem cons {before after : σ} {action : α} {answer : β}
    (hstep : step before action = some (answer, after)) (run : Run step after trace final) :
    Run step before (⟨before, action, answer, after⟩ :: trace) final :=
  (nil.snoc hstep).trans run

theorem invariant {I : σ → Prop} (run : Run step start trace final) (hstart : I start)
    (hstep : ∀ before action answer after, I before →
      step before action = some (answer, after) → I after) : I final := by
  induction run with
  | nil => exact hstart
  | snoc _ h ih => exact hstep _ _ _ _ ih h

/-- What holds of every step that starts in the invariant holds of all that happened. -/
theorem forall_mem {I : σ → Prop} {P : Transition σ α β → Prop}
    (run : Run step start trace final) (hstart : I start)
    (hkeep : ∀ before action answer after, I before →
      step before action = some (answer, after) → I after)
    (hstep : ∀ before action answer after, I before →
      step before action = some (answer, after) → P ⟨before, action, answer, after⟩) :
    ∀ transition ∈ trace, P transition := by
  induction run with
  | nil => simp
  | snoc run h ih =>
    intro transition hmem
    rcases List.mem_append.mp hmem with hmem | hmem
    · exact ih transition hmem
    · rw [List.mem_singleton.mp hmem]
      exact hstep _ _ _ _ (run.invariant hstart hkeep) h

/-- A condition that no step loses is entered once if it holds in the end, and never if not. -/
theorem countP_enters {I : σ → Prop} {P : σ → Bool} (run : Run step start trace final)
    (hstart : I start) (hfalse : P start = false) (hstep : ∀ before action answer after, I before →
      step before action = some (answer, after) → I after ∧ (P before = true → P after = true)) :
    trace.countP (fun t => !P t.before && P t.after) = if P final then 1 else 0 := by
  induction run with
  | nil => simp [hfalse]
  | @snoc trace before after action answer run h ih =>
    have hinv : I before :=
      run.invariant hstart fun _ _ _ _ hinv h => (hstep _ _ _ _ hinv h).1
    have hkeep := (hstep _ _ _ _ hinv h).2
    rw [List.countP_append, ih]
    by_cases hbefore : P before = true
    · simp [hbefore, hkeep hbefore]
    · simp [hbefore]

end Run

/-- The run of a list of actions, if each of them is possible. -/
def execute (step : σ → α → Option (β × σ)) : σ → List α → Option (List (Transition σ α β) × σ)
  | start, [] => some ([], start)
  | start, action :: actions =>
    (step start action).bind fun (answer, next) =>
      (execute step next actions).map fun (trace, final) =>
        (⟨start, action, answer, next⟩ :: trace, final)

theorem run_of_execute {actions : List α} : ∀ {start final : σ} {trace : List (Transition σ α β)},
    execute step start actions = some (trace, final) → Run step start trace final := by
  induction actions with
  | nil =>
    intro start final trace h
    cases h
    exact .nil
  | cons action actions ih =>
    intro start final trace h
    obtain ⟨⟨answer, next⟩, hstep, h⟩ := Option.bind_eq_some_iff.mp h
    obtain ⟨⟨trace', final'⟩, hrest, h⟩ := Option.map_eq_some_iff.mp h
    cases h
    exact .cons hstep (ih hrest)

end Transitions
