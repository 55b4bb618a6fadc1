import Neri.Semantic.BodySteps
import Neri.Semantic.Execution

/-!
# Narrowing by null checks

A use of a variable that a null check has narrowed is sound if the variable holds a value of the
narrowed type whenever the use is reached. The binder ends a narrowing where an assignment to the name
is bound. That is not enough at the back edge of a loop, after a branch that a narrowing is applied
again behind, behind the blocks that open no flow of their own, and for names that are declared again;
`KeepsNarrowings` is what a statement must meet there.
-/

namespace Neri.Semantic

mutual

def Statement.assigned : Statement → List String
  | .assignment name _ => [name]
  | .branch _ thenBody elseBody => thenBody.assigned ++ elseBody.assigned
  | .whileLoop _ body | .forLoop _ _ _ body | .unsafeBlock body | .borrowBlock _ _ body
  | .usingBlock _ _ body => body.assigned
  | .matchOn _ cases => cases.assigned
  | .declaration .. | .expression _ | .breakLoop | .continueLoop | .returnNothing
  | .returnValue _ => []

def Statements.assigned : Statements → List String
  | .nil => []
  | .cons first rest => first.assigned ++ rest.assigned

def MatchCases.assigned : MatchCases → List String
  | .nil => []
  | .cons _ _ _ body rest => body.assigned ++ rest.assigned

end

/-- The names that the statements of a block declare in the scope of the block. -/
def Statements.declared : Statements → List String
  | .nil => []
  | .cons (.declaration _ name _ _) rest => name :: rest.declared
  | .cons _ rest => rest.declared

/-- The names that a condition shows not to be null when it is known to hold or to fail. -/
def provenNames : Expression → Bool → List String
  | .negation operand, whenTrue => provenNames operand (!whenTrue)
  | .logical isAnd left right, whenTrue =>
    if isAnd == whenTrue then provenNames left whenTrue ++ provenNames right whenTrue else []
  | .equality isEqual left right, whenTrue =>
    if isEqual != whenTrue then (comparedWithNull left right).toList else []
  | _, _ => []

mutual

/-- The names that a statement may leave narrowed behind it, in a place with `loopDepth` loops around
it. Narrowings inside a `while` or a branch of an `if` end there; the other blocks have no flow of
their own. -/
def Statement.narrows (loopDepth : Nat) : Statement → List String
  | .branch condition thenBody elseBody =>
    match thenBody.someTerminates loopDepth, elseBody.someTerminates loopDepth with
    | true, false => provenNames condition false
    | false, true => provenNames condition true
    | _, _ => []
  | .forLoop _ _ _ body => body.narrows (loopDepth + 1)
  | .matchOn _ cases => cases.narrows loopDepth
  | .unsafeBlock body | .borrowBlock _ _ body | .usingBlock _ _ body => body.narrows loopDepth
  | .declaration .. | .assignment .. | .expression _ | .whileLoop .. | .breakLoop | .continueLoop
  | .returnNothing | .returnValue _ => []

def Statements.narrows (loopDepth : Nat) : Statements → List String
  | .nil => []
  | .cons first rest => first.narrows loopDepth ++ rest.narrows loopDepth

def MatchCases.narrows (loopDepth : Nat) : MatchCases → List String
  | .nil => []
  | .cons _ _ _ body rest => body.narrows loopDepth ++ rest.narrows loopDepth

end

/-- A name that is free for a declaration: no parameter has it and nothing is narrowed under it. -/
def BodyBinder.Unclaimed (context : BodyContext) (name : String) (s : BodyBinder) : Prop :=
  context.findParameter name = none ∧ ∀ entry ∈ s.flow.narrowings, entry.identity ≠ name

/-- No name among these is narrowed. -/
def BodyBinder.NotNarrowed (names : List String) (s : BodyBinder) : Prop :=
  ∀ entry ∈ s.flow.narrowings, entry.identity ∉ names

/-- None of the names denotes a variable. -/
def BodyBinder.Undenoted (context : BodyContext) (names : List String) (s : BodyBinder) : Prop :=
  ∀ name ∈ names, s.findVariable context name = none

/-- The cases of a match declare unclaimed names, and what they leave narrowed denotes no variable
outside them. -/
def MatchCases.KeepNarrowings (context : BodyContext) (symbol : Option SemanticClass) :
    MatchCases → List Nat → BodyBinder → Prop
  | .nil, _, _ => True
  | .cons qualifier caseName bindings body rest, seen, s =>
    (∀ name ∈ bindings, s.Unclaimed context name) ∧ s.Undenoted context (body.narrows s.loopDepth) ∧
      rest.KeepNarrowings context symbol
        (s.caseHead context symbol qualifier caseName bindings seen).1.2
        (s.caseEnd context symbol qualifier caseName bindings body seen)

/-- What keeps the narrowings of `s` true through a statement that is bound in `s`:
* a declaration declares an unclaimed name;
* where the condition of an `if` is applied again behind it, the branch that goes on does not assign
  to the names that are narrowed then;
* a loop does not assign to names that are narrowed before it;
* a name that a block without a flow of its own declares and leaves narrowed denotes no variable
  outside it, nor does a name that a `for` or a case of a match leaves narrowed at all. -/
def KeepsNarrowings (context : BodyContext) : Statement → BodyBinder → Prop
  | .declaration _ name _ _, s => s.Unclaimed context name
  | .branch condition thenBody elseBody, s =>
    (thenBody.someTerminates s.loopDepth = true → elseBody.someTerminates s.loopDepth = false →
      ∀ name ∈ provenNames condition false, name ∉ elseBody.assigned) ∧
    (thenBody.someTerminates s.loopDepth = false → elseBody.someTerminates s.loopDepth = true →
      ∀ name ∈ provenNames condition true, name ∉ thenBody.assigned)
  | .whileLoop _ body, s => s.NotNarrowed body.assigned
  | .forLoop name _ _ body, s =>
    s.Unclaimed context name ∧ s.NotNarrowed body.assigned ∧
      s.Undenoted context (body.narrows (s.loopDepth + 1))
  | .matchOn scrutinee cases, s =>
    cases.KeepNarrowings context (bindScrutinee context scrutinee s).1.2 []
      (bindScrutinee context scrutinee s).2
  | .unsafeBlock body, s =>
    s.Undenoted context ((body.narrows s.loopDepth).filter (· ∈ body.declared))
  | .borrowBlock name _ body, s =>
    s.Unclaimed context name ∧
      s.Undenoted context ((body.narrows s.loopDepth).filter (· ∈ name :: body.declared))
  | .usingBlock name _ body, s =>
    s.Unclaimed context name ∧
      s.Undenoted context ((body.narrows s.loopDepth).filter (· ∈ name :: body.declared))
  | _, _ => True

def SemanticType.neverNull : SemanticType → Bool
  | .optional _ | .null | .error => false
  | _ => true

/-- Every use of a variable so far has found a value of the type that the binder has given it there,
and not `null` where that type has no `null`. -/
def UsesAreTyped (model : SemanticModel) (trace : List Event) : Prop :=
  ∀ symbol typeName value, Event.use symbol typeName value ∈ trace →
    HasType model value typeName ∧ (typeName.neverNull = true → value ≠ .null)

/-- A world in which a body starts: the arguments have the types of the parameters. -/
structure StartsBody (context : BodyContext) (w : World) : Prop where
  trace : w.trace = []
  arguments : ∀ name parameter, context.findParameter name = some parameter →
    HasType context.model (w.store (.parameter name)) parameter.typeName

end Neri.Semantic
