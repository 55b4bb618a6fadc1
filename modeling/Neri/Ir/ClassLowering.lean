import Neri.Ir.Module
import Neri.Semantic.Overrides

/-!
# Lowering of classes (`lowering.hk`)

`lowerClass` writes a class of the semantic model as a class of the IR. The part that is more than
copying is the dispatch slot of a virtual method.
-/

namespace Neri.Ir

open Neri.Semantic

def irAccess : SourceAccess → IrAccess
  | .publicAccess => .publicAccess
  | .privateAccess => .privateAccess
  | .protectedAccess => .protectedAccess
  | .internalAccess => .internalAccess

/-- What `lowerClass` takes from the rest of the lowering: the identity of the module, the IR type of
a semantic type name, the position of a method and the one of a class declaration. -/
structure ClassContext where
  model : SemanticModel
  moduleId : String
  fromSemantic : String → IrType
  location : SemanticCallable → IrLocation
  origin : SemanticClass → IrLocation := fun _ => irNoLocation

/-- The inner loop of `dispatchSlot`: the last method of a class with the name, if any. -/
def slotCandidate (name : String) (result : String) (candidate : SemanticCallable) : String :=
  if candidate.name == name && !candidate.isStatic && candidate.name != "init" then
    candidate.fullName
  else result

/-- The loop of `dispatchSlot`. -/
def dispatchSlotLoop (model : SemanticModel) (name : String) :
    Nat → SemanticClass → String → String
  | 0, _, result => result
  | steps + 1, current, result =>
    if current.baseName == "" then result
    else
      match model.findClass current.baseName with
      | none => result
      | some baseClass =>
        dispatchSlotLoop model name steps baseClass
          (baseClass.methods.foldl (slotCandidate name) result)

def dispatchSlot (model : SemanticModel) (owner : SemanticClass) (method : SemanticCallable) :
    String :=
  dispatchSlotLoop model method.name inheritanceSteps owner method.fullName

/-- A method of `lowerClass`. -/
def lowerMethod (context : ClassContext) (owner : SemanticClass) (method : SemanticCallable) :
    IrMethod :=
  { functionSymbol :=
      { moduleName := context.moduleId
        kind := .method
        name := method.fullName }
    dispatch :=
      if method.isStatic then .staticDispatch
      else if method.name == "init" then .directDispatch
      else .virtualDispatch
    dispatchSlot :=
      if method.isStatic || method.name == "init" then none
      else some
        { moduleName := context.moduleId
          kind := .method
          name := dispatchSlot context.model owner method }
    location := context.location method }

def lowerClass (context : ClassContext) (semanticClass : SemanticClass) : IrClass :=
  { symbol :=
      { moduleName := context.moduleId
        kind := .classDecl
        name := semanticClass.fullName }
    baseSymbol :=
      if semanticClass.baseName == "" then none
      else some
        { moduleName := context.moduleId
          kind := .classDecl
          name := semanticClass.baseName }
    access := irAccess semanticClass.access
    declarationSourceId :=
      if semanticClass.syntaxNode ≥ 0 && (context.origin semanticClass).present then
        (context.origin semanticClass).sourceId
      else ""
    location := irNoLocation
    fields := semanticClass.fields.map fun field =>
      { symbol :=
          { moduleName := context.moduleId
            kind := .field
            name := field.owner ++ "." ++ field.name }
        typeName := context.fromSemantic field.typeName
        access := irAccess field.access
        location := irNoLocation }
    methods := semanticClass.methods.map (lowerMethod context semanticClass) }

/-- `lowerClasses`: a class with a representation of its own has no IR class. -/
def lowerClasses (context : ClassContext) : List IrClass :=
  (context.model.classes.filter (·.representation == "")).map (lowerClass context)

end Neri.Ir
