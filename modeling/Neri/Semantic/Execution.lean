import Mathlib.Logic.Relation
import Neri.Lib.Runs
import Neri.Semantic.Bound
import Neri.Semantic.Model

/-!
# Executions of bound bodies

What a bound body does: it reads and writes variables, decides by its conditions which statements
run, and leaves scopes. What is outside the body is left open: an operation gives any value of its
type or traps, an array has any number of elements, a match finds any of its cases, an acquisition or
a `try` may fail.

An execution records what it does to variables, the latest event first.
-/

namespace Neri.Semantic

open Runs

/-- A value at run time; numbers, references and pointers are told apart by a tag. -/
inductive Value where
  | null
  | unit
  | bool (value : Bool)
  | string (value : String)
  | number (kind : NumericType) (tag : Nat)
  | object (className : String) (tag : Nat)
  | array (element : SemanticType) (tag : Nat)
  | pointer (element : SemanticType) (tag : Nat)
  | record (name : String) (tag : Nat)
  | fixedArray (element : SemanticType) (length tag : Nat)
  deriving DecidableEq, Repr

/-- A class and the class that its base name names. -/
def DirectBase (model : SemanticModel) (className baseName : String) : Prop :=
  ∃ symbol, model.findClass className = some symbol ∧ symbol.baseName = baseName

/-- The values of a type. An optional type has `null` and the values of its inner type; a class has
the objects of the classes that derive from it. Nothing is known of the error type. -/
def HasType (model : SemanticModel) (value : Value) : SemanticType → Prop
  | .error => True
  | .null => value = .null
  | .void => value = .unit
  | .bool => ∃ b, value = .bool b
  | .string => ∃ text, value = .string text
  | .numeric kind => ∃ tag, value = .number kind tag
  | .record name => ∃ tag, value = .record name tag
  | .classType fullName =>
    ∃ className tag, value = .object className tag ∧
      Relation.ReflTransGen (DirectBase model) className fullName
  | .optional inner => value = .null ∨ HasType model value inner
  | .array inner => ∃ tag, value = .array inner tag
  | .pointer inner => ∃ tag, value = .pointer inner tag
  | .fixedArray inner length => ∃ tag, value = .fixedArray inner length tag

/-- What an execution does to variables. -/
inductive Event where
  /-- Reads a variable where the binder has given it this type. -/
  | use (symbol : Variable) (typeName : SemanticType) (value : Value)
  /-- Enters the declaration of a local; `byUsing` marks the locals of `using`. -/
  | declare (index : Nat) (typeName : SemanticType) (byUsing : Bool)
  /-- Passes on the resource of a local. -/
  | consume (index : Nat)
  /-- Leaves the scope of a local. -/
  | leave (index : Nat)
  deriving DecidableEq, Repr

structure World where
  store : Variable → Value
  trace : List Event

namespace World

def emit (event : Event) (w : World) : World := { w with trace := event :: w.trace }

def assign (index : Nat) (value : Value) (w : World) : World :=
  { w with store := Function.update w.store (.declared index) value }

def leaveAll (indices : List Nat) (w : World) : World :=
  { w with trace := (indices.map Event.leave).reverse ++ w.trace }

end World

/-- Any value of a type, or a trap. -/
def anyValue (model : SemanticModel) (typeName : SemanticType) : Prog World Value :=
  Prog.either (Prog.choose (HasType model · typeName)) (Prog.jump .stopped)

/-- Whether two values are equal. A comparison with `null` is exact; how other values compare is left
open. -/
def compareValues (left right : Value) : Prog World Bool :=
  Prog.choose fun same => left = .null ∨ right = .null → same = decide (left = right)

def readVariable (symbol : Variable) (typeName : SemanticType) : Prog World Value := do
  let value ← Prog.read (·.store symbol)
  Prog.update (World.emit (.use symbol typeName value))
  return value

def declareVariable (index : Nat) (typeName : SemanticType) (byUsing : Bool) (value : Value) :
    Prog World Unit :=
  Prog.update fun w => (w.assign index value).emit (.declare index typeName byUsing)

mutual

def BoundExpression.eval (model : SemanticModel) : BoundExpression → Prog World Value
  | .nullLiteral => return .null
  | .boolLiteral value => return .bool value
  | .leaf typeName => anyValue model typeName
  | .name none _ => Prog.jump .stopped
  | .name (some symbol) typeName => readVariable symbol typeName
  | .transfer index _ => do
    let value ← Prog.read (·.store (.declared index))
    Prog.update (World.emit (.consume index))
    return value
  | .negation operand => do
    let value ← operand.eval model
    return .bool (value != .bool true)
  | .logical isAnd left right => do
    let value ← left.eval model
    if (value == .bool true) = isAnd then
      right.eval model
    else
      return .bool !isAnd
  | .equality isEqual left right => do
    let leftValue ← left.eval model
    let rightValue ← right.eval model
    let same ← compareValues leftValue rightValue
    return .bool (same == isEqual)
  | .ternary _ condition whenTrue whenFalse => do
    let value ← condition.eval model
    if value = .bool true then
      whenTrue.eval model
    else
      whenFalse.eval model
  | .propagation typeName operand => do
    let _ ← operand.eval model
    Prog.either (anyValue model typeName) (Prog.jump .returned)
  | .construct symbol _ payload => do
    payload.evalAll model
    anyValue model (.classType symbol)
  | .operation typeName operands => do
    operands.evalAll model
    anyValue model typeName
  | .error => Prog.jump .stopped

def BoundArguments.evalAll (model : SemanticModel) : BoundArguments → Prog World Unit
  | .nil => return ()
  | .cons first rest => do
    let _ ← first.eval model
    rest.evalAll model

end

/-- The value of an acquisition. The resource that it selects is passed on: a local that is named, at
once or by an arm of a conditional, gives its resource up. -/
def BoundExpression.acquire (model : SemanticModel) : BoundExpression → Prog World Value
  | .name (some (.declared index)) typeName => do
    let value ← readVariable (.declared index) typeName
    Prog.update (World.emit (.consume index))
    return value
  | .ternary _ condition whenTrue whenFalse => do
    let value ← condition.eval model
    if value = .bool true then
      whenTrue.acquire model
    else
      whenFalse.acquire model
  | expression => expression.eval model

/-- Declares locals with any values of their types. -/
def declareAny (model : SemanticModel) : List (Nat × SemanticType) → Prog World Unit
  | [] => return ()
  | (index, typeName) :: rest => do
    let value ← anyValue model typeName
    declareVariable index typeName false value
    declareAny model rest

mutual

def BoundStatement.run (model : SemanticModel) : BoundStatement → Prog World Unit
  | .declaration index typeName initializer => do
    let value ← initializer.eval model
    declareVariable index typeName false value
  | .assignment index _ value => do
    let value ← value.eval model
    Prog.update (World.assign index value)
  | .expression value => do
    let _ ← value.eval model
  | .branch condition thenBody elseBody => do
    let value ← condition.eval model
    if value = .bool true then
      (thenBody.run model).atExit (World.leaveAll thenBody.declares)
    else
      (elseBody.run model).atExit (World.leaveAll elseBody.declares)
  | .whileLoop condition body =>
    Prog.loop do
      let value ← condition.eval model
      if value = .bool true then
        (body.run model).atExit (World.leaveAll body.declares)
        return true
      else
        return false
  | .forLoop index elementType collection body => do
    let _ ← collection.eval model
    Prog.loop do
      let more ← Prog.choose fun (_ : Bool) => True
      if more then
        (do declareAny model [(index, elementType)]
            body.run model).atExit (World.leaveAll (index :: body.declares))
        return true
      else
        return false
  | .matchOn scrutinee cases => do
    let _ ← scrutinee.eval model
    cases.runOne model
  | .breakLoop => Prog.jump .broke
  | .continueLoop => Prog.jump .continued
  | .returnNothing => Prog.jump .returned
  | .returnValue _ value => do
    let _ ← value.eval model
    Prog.jump .returned
  | .unsafeBlock body => (body.run model).atExit (World.leaveAll body.declares)
  | .borrowBlock index pointerType owner body => do
    let _ ← owner.eval model
    (do declareAny model [(index, pointerType)]
        body.run model).atExit (World.leaveAll (index :: body.declares))
  | .usingBlock isResult index typeName acquisition body => do
    let value ← acquisition.acquire model
    let resource ← if isResult then Prog.either (anyValue model typeName) (Prog.jump .returned)
      else pure value
    (do declareVariable index typeName true resource
        body.run model).atExit (World.leaveAll (index :: body.declares))
  | .errorAssignment _ => Prog.jump .stopped

def BoundStatements.run (model : SemanticModel) : BoundStatements → Prog World Unit
  | .nil => return ()
  | .cons first rest => do
    first.run model
    rest.run model

def BoundCases.runOne (model : SemanticModel) : BoundCases → Prog World Unit
  | .nil => Prog.jump .stopped
  | .cons _ bindings body rest =>
    Prog.either
      ((do declareAny model bindings
           body.run model).atExit (World.leaveAll (bindings.map Prod.fst ++ body.declares)))
      (rest.runOne model)

end

/-- Runs the body of a callable, in the scope of the callable. -/
def BoundStatements.runBody (model : SemanticModel) (body : BoundStatements) : Prog World Unit :=
  (body.run model).atExit (World.leaveAll body.declares)

end Neri.Semantic
