import Neri.Semantic.BodyBinder

/-!
# The states in which the parts of a body are bound

The binder reaches every statement of a body in one state. These are the states in which the blocks
inside a statement are bound, and what it means that something holds of every statement in the state
in which it is bound.
-/

namespace Neri.Semantic

namespace BodyBinder

/-- Where the first branch of an `if` starts. -/
def thenStart (context : BodyContext) (condition : Expression) (s : BodyBinder) : BodyBinder :=
  ((bindCondition context "NR145" "If" condition s).2.whenHolds context condition).enterScope

/-- After the first branch of an `if`. -/
def thenEnd (context : BodyContext) (condition : Expression) (thenBody : Statements)
    (s : BodyBinder) : BodyBinder :=
  ((bindStatements context thenBody (s.thenStart context condition)).2.leaveScope context).leaveFlow

/-- Where the second branch of an `if` starts. -/
def elseStart (context : BodyContext) (condition : Expression) (thenBody : Statements)
    (s : BodyBinder) : BodyBinder :=
  ((s.thenEnd context condition thenBody).whenFails context condition
    (bindCondition context "NR145" "If" condition s).2.moves).enterScope

/-- After the second branch of an `if`. -/
def elseEnd (context : BodyContext) (condition : Expression) (thenBody elseBody : Statements)
    (s : BodyBinder) : BodyBinder :=
  ((bindStatements context elseBody
    (s.elseStart context condition thenBody)).2.leaveScope context).leaveFlow

/-- Where the body of a `while` starts. -/
def whileStart (context : BodyContext) (condition : Expression) (s : BodyBinder) : BodyBinder :=
  ((bindCondition context "NR146" "While" condition s).2.enterLoop.whenHolds context
    condition).enterScope

/-- The element type of a `for`, and the state after its reports. -/
def forElement (context : BodyContext) (name : String) (explicitType : Option SemanticType)
    (collection : Expression) (s : BodyBinder) : SemanticType × BodyBinder :=
  bindElementType explicitType name (bindExpression context collection s).1.typeName
    (bindExpression context collection s).2

/-- Where the body of a `for` starts. -/
def forStart (context : BodyContext) (name : String) (explicitType : Option SemanticType)
    (collection : Expression) (s : BodyBinder) : BodyBinder :=
  (s.forElement context name explicitType collection).2.enterLoop.enterScope.declareLocal name
    (s.forElement context name explicitType collection).1 false false

/-- The pointer type of a borrow, and the state after its reports. -/
def borrowPointer (context : BodyContext) (owner : Expression) (s : BodyBinder) :
    SemanticType × BodyBinder :=
  bindPointerType (bindExpression context owner s).1.typeName (bindExpression context owner s).2

def borrowStart (context : BodyContext) (name : String) (owner : Expression) (s : BodyBinder) :
    BodyBinder :=
  (s.borrowPointer context owner).2.enterScope.declareLocal name (s.borrowPointer context owner).1
    false false

/-- Where the body of a `using` starts. -/
def usingStart (context : BodyContext) (name : String) (acquisition : Expression)
    (s : BodyBinder) : BodyBinder :=
  (bindAcquisition context acquisition s).2.enterScope.declareLocal name
    (bindAcquisition context acquisition s).1.2.1 false true

/-- The case that a case of a match names, the cases seen then, and the state after the reports. -/
def caseHead (context : BodyContext) (symbol : Option SemanticClass) (qualifier caseName : String)
    (bindings : List String) (seen : List Nat) (s : BodyBinder) :
    (Option Nat × List Nat) × BodyBinder :=
  bindCaseIndex context symbol qualifier caseName bindings.length seen s

/-- The payload of a case, and where its body starts. -/
def caseStart (context : BodyContext) (symbol : Option SemanticClass) (qualifier caseName : String)
    (bindings : List String) (seen : List Nat) (s : BodyBinder) :
    List (Nat × SemanticType) × BodyBinder :=
  declarePayload bindings
    (payloadTypes symbol (s.caseHead context symbol qualifier caseName bindings seen).1.1)
    (s.caseHead context symbol qualifier caseName bindings seen).2.enterScope

def caseEnd (context : BodyContext) (symbol : Option SemanticClass) (qualifier caseName : String)
    (bindings : List String) (body : Statements) (seen : List Nat) (s : BodyBinder) : BodyBinder :=
  (bindStatements context body
    (s.caseStart context symbol qualifier caseName bindings seen).2).2.leaveScope context

end BodyBinder

mutual

/-- `holds` is true of a statement bound in `s` and of every statement inside it. -/
def Statement.Always (context : BodyContext) (holds : Statement → BodyBinder → Prop) :
    Statement → BodyBinder → Prop
  | .branch condition thenBody elseBody, s =>
    holds (.branch condition thenBody elseBody) s ∧
      thenBody.Always context holds (s.thenStart context condition) ∧
      elseBody.Always context holds (s.elseStart context condition thenBody)
  | .whileLoop condition body, s =>
    holds (.whileLoop condition body) s ∧ body.Always context holds (s.whileStart context condition)
  | .forLoop name explicitType collection body, s =>
    holds (.forLoop name explicitType collection body) s ∧
      body.Always context holds (s.forStart context name explicitType collection)
  | .matchOn scrutinee cases, s =>
    holds (.matchOn scrutinee cases) s ∧
      cases.Always context holds (bindScrutinee context scrutinee s).1.2 []
        (bindScrutinee context scrutinee s).2
  | .unsafeBlock body, s => holds (.unsafeBlock body) s ∧ body.Always context holds s.enterScope
  | .borrowBlock name owner body, s =>
    holds (.borrowBlock name owner body) s ∧
      body.Always context holds (s.borrowStart context name owner)
  | .usingBlock name acquisition body, s =>
    holds (.usingBlock name acquisition body) s ∧
      body.Always context holds (s.usingStart context name acquisition)
  | statement, s => holds statement s

def Statements.Always (context : BodyContext) (holds : Statement → BodyBinder → Prop) :
    Statements → BodyBinder → Prop
  | .nil, _ => True
  | .cons first rest, s =>
    first.Always context holds s ∧ rest.Always context holds (bindStatement context first s).2

def MatchCases.Always (context : BodyContext) (holds : Statement → BodyBinder → Prop)
    (symbol : Option SemanticClass) : MatchCases → List Nat → BodyBinder → Prop
  | .nil, _, _ => True
  | .cons qualifier caseName bindings body rest, seen, s =>
    body.Always context holds (s.caseStart context symbol qualifier caseName bindings seen).2 ∧
      rest.Always context holds symbol (s.caseHead context symbol qualifier caseName bindings seen).1.2
        (s.caseEnd context symbol qualifier caseName bindings body seen)

end

end Neri.Semantic
