import Mathlib.Algebra.Order.BigOperators.Group.Finset
import Neri.Ir.Module

/-!
# Effect inference (`effects.hk`)

`irPropagateEffects` gives every function of a module its inferred effects: it starts from the
effects of the function's own instructions, records for every function who calls it, and drains a
queue of functions whose effects their callers have not seen yet.

A function is its position in the module, which stands for the object references of the source. The
intrusive queue is a list, and the queue flag of each function is kept.
-/

namespace Neri.Ir

open Neri.Abi

/-- A function of the module, as its position. -/
abbrev FunctionId (m : IrModule) := Fin m.functions.length

/-- `irEffectFunction`: the first function of that name. -/
def irEffectFunction (m : IrModule) (name : String) : Option (FunctionId m) :=
  m.functions.findFinIdx? (fun f => f.symbol.name == name)

/-- The effects a function starts with. In parallel mode the unsafe effect comes from
`parallelUnsafe` alone. -/
def directEffects (parallel : Bool) (f : IrFunction) : EffectSet :=
  let effects := if parallel then f.localEffects.withoutUnsafe else f.localEffects
  if parallel && f.parallelUnsafe then effects.withUnsafe else effects

/-- The callee names that are resolved: the precise ones in parallel mode, where known. -/
def effectCallees (parallel : Bool) (f : IrFunction) : List String :=
  match f.parallelCallees with
  | some precise => if parallel then precise else f.callees
  | none => f.callees

/-- What the edge loop builds: the effects so far and, for each function, its callers. -/
structure EffectGraph (n : Nat) where
  effects : Fin n → EffectSet
  effectCallers : Fin n → List (Fin n)

/-- One callee name of `f`: a name that resolves adds a reverse edge and a safepoint. -/
def addEffectEdge (m : IrModule) (f : FunctionId m)
    (g : EffectGraph m.functions.length) (name : String) : EffectGraph m.functions.length :=
  match irEffectFunction m name with
  | some callee =>
    { effects := Function.update g.effects f (g.effects f).withSafepoint
      effectCallers := Function.update g.effectCallers callee (f :: g.effectCallers callee) }
  | none => g

/-- The edge loop of `irPropagateEffects`, over all functions and their callee names. -/
def effectGraph (m : IrModule) (parallel : Bool) : EffectGraph m.functions.length :=
  (List.finRange m.functions.length).foldl
    (fun g f => (effectCallees parallel (m.functions.get f)).foldl (addEffectEdge m f) g)
    { effects := fun f => directEffects parallel (m.functions.get f)
      effectCallers := fun _ => [] }

/-- The state of the draining loop. -/
structure EffectQueue (n : Nat) where
  effects : Fin n → EffectSet
  queue : List (Fin n)
  effectQueued : Fin n → Bool

namespace EffectQueue

variable {n : Nat}

/-- One reverse edge: the caller receives the propagated effects and, if they are new to it, is
appended to the queue unless it waits there already. -/
def visitCaller (propagated : EffectSet) (s : EffectQueue n) (caller : Fin n) : EffectQueue n :=
  let nextEffects := (s.effects caller).mergedWith propagated
  if nextEffects.sameAs (s.effects caller) then s
  else
    let effects := Function.update s.effects caller nextEffects
    if s.effectQueued caller then { s with effects := effects }
    else
      { effects := effects
        queue := s.queue ++ [caller]
        effectQueued := Function.update s.effectQueued caller true }

/-- The function at the head leaves the queue. -/
def dequeue (s : EffectQueue n) (current : Fin n) (rest : List (Fin n)) : EffectQueue n :=
  { s with queue := rest, effectQueued := Function.update s.effectQueued current false }

/-- The number of effects that are still missing, over all functions. -/
def missing (s : EffectQueue n) : Nat := ∑ f, (s.effects f).missing

/-- Visiting a caller either changes nothing or adds an effect somewhere. -/
theorem visitCaller_missing (propagated : EffectSet) (s : EffectQueue n) (caller : Fin n) :
    s.visitCaller propagated caller = s ∨
      (s.visitCaller propagated caller).missing < s.missing := by
  simp only [visitCaller]
  by_cases hsame : ((s.effects caller).mergedWith propagated).sameAs (s.effects caller)
  · exact .inl (if_pos hsame)
  · right
    rw [if_neg hsame]
    have hne : (s.effects caller).mergedWith propagated ≠ s.effects caller := by
      simpa using hsame
    have hlt : ((s.effects caller).mergedWith propagated).missing <
        (s.effects caller).missing := by
      exact EffectSet.missing_lt le_sup_left hne
    have hsum : ∑ f, (Function.update s.effects caller
        ((s.effects caller).mergedWith propagated) f).missing < s.missing := by
      refine Finset.sum_lt_sum (fun f _ => ?_) ⟨caller, Finset.mem_univ _, ?_⟩
      · by_cases hf : f = caller
        · subst hf
          rw [Function.update_self]
          exact hlt.le
        · rw [Function.update_of_ne hf]
      · rw [Function.update_self]
        exact hlt
    split
    · exact hsum
    · exact hsum

/-- The edge loop of one dequeued function either changes nothing or adds an effect somewhere. -/
theorem foldl_visitCaller_missing (propagated : EffectSet) (callers : List (Fin n)) :
    ∀ s : EffectQueue n, callers.foldl (visitCaller propagated) s = s ∨
      (callers.foldl (visitCaller propagated) s).missing < s.missing := by
  induction callers with
  | nil => exact fun s => .inl rfl
  | cons caller rest ih =>
    intro s
    rw [List.foldl_cons]
    rcases visitCaller_missing propagated s caller with heq | hlt
    · rw [heq]
      exact ih s
    · right
      rcases ih (s.visitCaller propagated caller) with heq | hlt'
      · rw [heq]
        exact hlt
      · exact hlt'.trans hlt

/-- The draining loop: the effects that are left when the queue is empty. It ends because every
round either adds an effect to some function or shortens the queue. -/
def drain (callers : Fin n → List (Fin n)) (s : EffectQueue n) : Fin n → EffectSet :=
  match _hq : s.queue with
  | [] => s.effects
  | current :: rest =>
    -- taken before the edge loop: a recursive function does not see its own update here
    let propagated := (s.effects current).withoutNoReturn
    drain callers ((callers current).foldl (visitCaller propagated) (s.dequeue current rest))
termination_by (s.missing, s.queue.length)
decreasing_by
  rcases foldl_visitCaller_missing (s.effects current).withoutNoReturn (callers current)
    (s.dequeue current rest) with heq | hlt
  · rw [heq]
    refine Prod.Lex.right _ ?_
    rw [_hq]
    exact Nat.lt_succ_self rest.length
  · exact Prod.Lex.left _ _ hlt

end EffectQueue

/-- The effects that `irPropagateEffects` leaves on each function. -/
def inferredEffects (m : IrModule) (parallel : Bool) : FunctionId m → EffectSet :=
  let graph := effectGraph m parallel
  EffectQueue.drain graph.effectCallers
    { effects := graph.effects
      queue := List.finRange m.functions.length
      effectQueued := fun _ => true }

/-- `irPropagateEffects`. The graph is scratch state; only the inferred summaries remain. -/
def irPropagateEffects (m : IrModule) (parallel : Bool) : IrModule :=
  { m with
    functions := List.ofFn fun f : FunctionId m =>
      { m.functions.get f with effects := inferredEffects m parallel f } }

/-! ## What the pass computes -/

/-- Some callee name of `caller` resolves to `callee`. -/
def EffectEdge (m : IrModule) (parallel : Bool) (callee caller : FunctionId m) : Prop :=
  ∃ name ∈ effectCallees parallel (m.functions.get caller), irEffectFunction m name = some callee

/-- An assignment of effects contains every function's direct effects and, for every resolved call,
what the callee has except not returning, and a safepoint. -/
structure EffectClosed (m : IrModule) (parallel : Bool) (E : FunctionId m → EffectSet) :
    Prop where
  direct : ∀ f, directEffects parallel (m.functions.get f) ≤ E f
  call : ∀ callee caller, EffectEdge m parallel callee caller →
    (E callee).withoutNoReturn.withSafepoint ≤ E caller

end Neri.Ir
