import Neri.Semantic.TypeNames

/-!
# Bound bodies (`bound_node.hk`)

The tree that the body binder makes of a body: names are resolved to variables and every expression
has its type. The identity of a local is the place of its declaration; here the locals of a body are
numbered in the order of their declarations.
-/

namespace Neri.Semantic

/-- The variable that an identity stands for. -/
inductive Variable where
  | parameter (name : String)
  | declared (index : Nat)
  deriving DecidableEq, Repr

mutual

inductive BoundExpression where
  | nullLiteral
  | boolLiteral (value : Bool)
  | leaf (typeName : SemanticType)
  /-- A use of a variable; `none` is the empty identity. -/
  | name (symbol : Option Variable) (typeName : SemanticType)
  | transfer (index : Nat) (typeName : SemanticType)
  | negation (operand : BoundExpression)
  | logical (isAnd : Bool) (left right : BoundExpression)
  | equality (isEqual : Bool) (left right : BoundExpression)
  | ternary (typeName : SemanticType) (condition whenTrue whenFalse : BoundExpression)
  | propagation (typeName : SemanticType) (operand : BoundExpression)
  | construct (symbol : String) (caseIndex : Nat) (payload : BoundArguments)
  | operation (typeName : SemanticType) (operands : BoundArguments)
  | error

inductive BoundArguments where
  | nil
  | cons (first : BoundExpression) (rest : BoundArguments)

end

mutual

inductive BoundStatement where
  | declaration (index : Nat) (typeName : SemanticType) (initializer : BoundExpression)
  | assignment (index : Nat) (typeName : SemanticType) (value : BoundExpression)
  | expression (value : BoundExpression)
  | branch (condition : BoundExpression) (thenBody elseBody : BoundStatements)
  | whileLoop (condition : BoundExpression) (body : BoundStatements)
  | forLoop (index : Nat) (elementType : SemanticType) (collection : BoundExpression)
      (body : BoundStatements)
  | matchOn (scrutinee : BoundExpression) (cases : BoundCases)
  | breakLoop
  | continueLoop
  | returnNothing
  | returnValue (typeName : SemanticType) (value : BoundExpression)
  | unsafeBlock (body : BoundStatements)
  | borrowBlock (index : Nat) (pointerType : SemanticType) (owner : BoundExpression)
      (body : BoundStatements)
  | usingBlock (isResult : Bool) (index : Nat) (typeName : SemanticType)
      (acquisition : BoundExpression) (body : BoundStatements)
  /-- An assignment to something that is not a local. -/
  | errorAssignment (value : BoundExpression)

inductive BoundStatements where
  | nil
  | cons (first : BoundStatement) (rest : BoundStatements)

/-- The cases of a match; `none` is an unknown case. -/
inductive BoundCases where
  | nil
  | cons (caseIndex : Option Nat) (bindings : List (Nat × SemanticType)) (body : BoundStatements)
      (rest : BoundCases)

end

/-- The locals that the statements of a block declare in the scope of the block. -/
def BoundStatements.declares : BoundStatements → List Nat
  | .nil => []
  | .cons (.declaration index _ _) rest => index :: rest.declares
  | .cons _ rest => rest.declares

end Neri.Semantic
