import Mathlib.Data.List.Basic
import Neri.Semantic.TypeNames

/-!
# What the body binder knows of variables (`binding_flow_state.hk`, `semantic_local.hk`,
`resource_move_state.hk`)

The narrowings that null checks have proved, the locals declared so far, and which resources they
still own. Narrowings of members are left out.
-/

namespace Neri.Semantic

/-- `FlowNarrowing`: a null check has shown that the variable with this name has this type. -/
structure FlowNarrowing where
  identity : String
  typeName : SemanticType
  depth : Nat
  deriving DecidableEq, Repr

/-- `BindingFlowState`. A narrowing that is set inactive never becomes active again; here it is taken
off the list. -/
structure BindingFlowState where
  narrowings : List FlowNarrowing := []
  depth : Nat := 0
  deriving DecidableEq, Repr

namespace BindingFlowState

def enterFlow (flow : BindingFlowState) : BindingFlowState :=
  { flow with depth := flow.depth + 1 }

/-- `leaveFlow`: ends the narrowings made at this depth. -/
def leaveFlow (flow : BindingFlowState) : BindingFlowState where
  narrowings := flow.narrowings.filter (·.depth != flow.depth)
  depth := flow.depth - 1

/-- `lookup`: the type of the latest narrowing of a name. -/
def lookup (flow : BindingFlowState) (name : String) : Option SemanticType :=
  (flow.narrowings.reverse.find? fun entry =>
    entry.depth ≤ flow.depth && entry.identity == name).map (·.typeName)

/-- `variableType`, with `none` for the empty name. -/
def variableType (flow : BindingFlowState) (name : String) (fallback : Option SemanticType) :
    Option SemanticType :=
  (flow.lookup name).or fallback

def addNarrowing (flow : BindingFlowState) (name : String) (typeName : SemanticType) :
    BindingFlowState :=
  { flow with narrowings := flow.narrowings ++ [⟨name, typeName, flow.depth⟩] }

def invalidateNarrowing (flow : BindingFlowState) (name : String) : BindingFlowState :=
  { flow with narrowings := flow.narrowings.filter (·.identity != name) }

end BindingFlowState

inductive ResourceMoveState where
  | available
  | maybeMoved
  | moved
  deriving DecidableEq, Repr

namespace ResourceMoveState

def isAvailable (state : ResourceMoveState) : Bool := state == .available

def isMoved (state : ResourceMoveState) : Bool := state == .moved

def join (left right : ResourceMoveState) : ResourceMoveState :=
  if left.isMoved && right.isMoved then
    .moved
  else if left.isAvailable && right.isAvailable then
    .available
  else
    .maybeMoved

end ResourceMoveState

/-- `SemanticLocal`, without its move state, which the binder keeps beside it. -/
structure SemanticLocal where
  name : String
  typeName : SemanticType
  isMutable : Bool
  depth : Nat
  resourceScoped : Bool := false
  active : Bool := true
  deriving DecidableEq, Repr

/-- `restoreResourceMoves`: the locals that a snapshot knows get the states it has for them. -/
def restoreMoves (snapshot moves : List ResourceMoveState) : List ResourceMoveState :=
  snapshot ++ moves.drop snapshot.length

/-- `joinResourceMoves`: the locals that both snapshots know get the joined states. -/
def joinMoves (left right moves : List ResourceMoveState) : List ResourceMoveState :=
  restoreMoves (List.zipWith ResourceMoveState.join left right) moves

end Neri.Semantic
