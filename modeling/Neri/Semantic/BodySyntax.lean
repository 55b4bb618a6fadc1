import Neri.Semantic.TypeNames

/-!
# The syntax of bodies

The statements and expressions that the body binder follows variables through. Expressions whose
rules do not look at the flow of variables stand as an `operation` on their operands, in the order in
which they are bound, with the type that their own rule gives: calls, members, indices, arithmetic,
casts, array literals. Literals other than `null`, `true` and `false`, `this` and functions used as
values are leaves.
-/

namespace Neri.Semantic

mutual

inductive Expression where
  | nullLiteral
  | boolLiteral (value : Bool)
  | leaf (typeName : SemanticType)
  | name (name : String)
  | transfer (name : String)
  | negation (operand : Expression)
  /-- `&&` or `||`. -/
  | logical (isAnd : Bool) (left right : Expression)
  /-- `==` or `!=`. -/
  | equality (isEqual : Bool) (left right : Expression)
  | ternary (condition whenTrue whenFalse : Expression)
  /-- `try`. -/
  | propagation (operand : Expression)
  /-- A case of the alternative `symbol` with its payload. -/
  | construct (symbol caseName : String) (payload : Arguments)
  | operation (typeName : SemanticType) (operands : Arguments)

inductive Arguments where
  | nil
  | cons (first : Expression) (rest : Arguments)

end

mutual

inductive Statement where
  /-- `let` or `var`. -/
  | declaration (isMutable : Bool) (name : String) (explicitType : Option SemanticType)
      (initializer : Expression)
  | assignment (name : String) (value : Expression)
  | expression (value : Expression)
  /-- `if`. -/
  | branch (condition : Expression) (thenBody elseBody : Statements)
  | whileLoop (condition : Expression) (body : Statements)
  | forLoop (name : String) (explicitType : Option SemanticType) (collection : Expression)
      (body : Statements)
  | matchOn (scrutinee : Expression) (cases : MatchCases)
  | breakLoop
  | continueLoop
  | returnNothing
  | returnValue (value : Expression)
  | unsafeBlock (body : Statements)
  | borrowBlock (name : String) (owner : Expression) (body : Statements)
  | usingBlock (name : String) (acquisition : Expression) (body : Statements)

inductive Statements where
  | nil
  | cons (first : Statement) (rest : Statements)

/-- The cases of a match: the qualifier and the name of the case, the names its payload is bound to,
and its body. -/
inductive MatchCases where
  | nil
  | cons (qualifier caseName : String) (bindings : List String) (body : Statements)
      (rest : MatchCases)

end

def Arguments.length : Arguments → Nat
  | .nil => 0
  | .cons _ rest => rest.length + 1

def MatchCases.length : MatchCases → Nat
  | .nil => 0
  | .cons _ _ _ _ rest => rest.length + 1

mutual

/-- `expressionTransfersResource`. -/
def Expression.transfersResource : Expression → Bool
  | .transfer _ => true
  | .negation operand | .propagation operand => operand.transfersResource
  | .logical _ left right | .equality _ left right =>
    left.transfersResource || right.transfersResource
  | .ternary condition whenTrue whenFalse =>
    condition.transfersResource || whenTrue.transfersResource || whenFalse.transfersResource
  | .construct _ _ arguments | .operation _ arguments => arguments.transferResource
  | .nullLiteral | .boolLiteral _ | .leaf _ | .name _ => false

def Arguments.transferResource : Arguments → Bool
  | .nil => false
  | .cons first rest => first.transfersResource || rest.transferResource

end

mutual

/-- `statementReturns`. -/
def Statement.returns : Statement → Bool
  | .returnNothing | .returnValue _ => true
  | .branch _ thenBody elseBody => thenBody.someReturns && elseBody.someReturns
  | .unsafeBlock body | .borrowBlock _ _ body => body.someReturns
  | .matchOn _ cases => cases.length != 0 && cases.allReturn
  | _ => false

/-- `nodeRangeReturns`. -/
def Statements.someReturns : Statements → Bool
  | .nil => false
  | .cons first rest => first.returns || rest.someReturns

def MatchCases.allReturn : MatchCases → Bool
  | .nil => true
  | .cons _ _ _ body rest => body.someReturns && rest.allReturn

end

mutual

/-- `statementTerminates`, in a place with `loopDepth` loops around it. -/
def Statement.terminates (loopDepth : Nat) : Statement → Bool
  | .returnNothing | .returnValue _ => true
  | .breakLoop | .continueLoop => loopDepth > 0
  | .branch _ thenBody elseBody =>
    thenBody.someTerminates loopDepth && elseBody.someTerminates loopDepth
  | .unsafeBlock body | .borrowBlock _ _ body => body.someTerminates loopDepth
  | .matchOn scrutinee cases => (Statement.matchOn scrutinee cases).returns
  | _ => false

/-- `nodeRangeTerminates`. -/
def Statements.someTerminates (loopDepth : Nat) : Statements → Bool
  | .nil => false
  | .cons first rest => first.terminates loopDepth || rest.someTerminates loopDepth

end

end Neri.Semantic
