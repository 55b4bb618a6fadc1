import Neri.Semantic.Model

/-!
# Inherited members (`overrides.hk`, `binder.hk`)

The lookups of the binder along the base classes, each bounded by 256 steps, and the check of every
field and method against what it inherits.
-/

namespace Neri.Semantic

/-- The number of base classes that a lookup visits. -/
def inheritanceSteps : Nat := 256

/-- The loop of `semanticFindBaseMethod`. -/
def findBaseMethodLoop (model : SemanticModel) (name : String) :
    Nat → Option SemanticClass → Option SemanticCallable
  | 0, _ => none
  | _, none => none
  | steps + 1, some current =>
    match current.methods.find? fun method =>
        method.name == name && method.name != "init" && !method.access.isPrivate with
    | some method => some method
    | none => findBaseMethodLoop model name steps (model.findClass current.baseName)

def semanticFindBaseMethod (model : SemanticModel) (owner : SemanticClass) (name : String) :
    Option SemanticCallable :=
  findBaseMethodLoop model name inheritanceSteps (model.findClass owner.baseName)

/-- The loop of `findBaseField`. -/
def findBaseFieldLoop (model : SemanticModel) (name : String) :
    Nat → Option SemanticClass → Option SemanticField
  | 0, _ => none
  | _, none => none
  | steps + 1, some current =>
    match current.fields.find? (·.name == name) with
    | some field => some field
    | none => findBaseFieldLoop model name steps (model.findClass current.baseName)

def findBaseField (model : SemanticModel) (classSymbol : SemanticClass) (name : String) :
    Option SemanticField :=
  findBaseFieldLoop model name inheritanceSteps (model.findClass classSymbol.baseName)

/-- The parameters of two callables, by type and mode. -/
def compatibleParameters : List SemanticParameter → List SemanticParameter → Bool
  | [], [] => true
  | left :: lefts, right :: rights =>
    left.typeName == right.typeName && left.mode == right.mode && compatibleParameters lefts rights
  | _, _ => false

/-- `compatibleMethods`. Only the synthetic shared-function subtype strengthens its invoke
contract. -/
def compatibleMethods (left right : SemanticCallable) (sharedSignature : Bool) : Bool :=
  left.access == right.access && left.isUnsafe == right.isUnsafe &&
    (left.isReadonly == right.isReadonly ||
      (sharedSignature && left.isReadonly && !right.isReadonly)) &&
    left.returnType == right.returnType && compatibleParameters left.parameters right.parameters

/-- The check of one field in `validateInheritedMembers`. -/
def validateInheritedField (model : SemanticModel) (classSymbol : SemanticClass)
    (field : SemanticField) : List Diagnostic :=
  match findBaseField model classSymbol field.name with
  | some inherited =>
    [{ code := "NR178"
       node := field.syntaxNode
       message := "Field '" ++ field.name ++ "' cannot redeclare the inherited field from '" ++
         inherited.owner ++ "'." }]
  | none => []

/-- The report that a static method takes part in overriding. -/
def staticOverride (method : SemanticCallable) : Diagnostic :=
  { code := "NR175"
    node := method.syntaxNode
    message := "Static method '" ++ method.name ++ "' cannot override or be overridden." }

/-- The check of one method in `validateInheritedMembers`. -/
def validateInheritedMethod (model : SemanticModel) (classSymbol : SemanticClass)
    (method : SemanticCallable) : List Diagnostic :=
  if method.name == "init" then
    if method.hasOverride then
      [{ code := "NR176"
         node := method.syntaxNode
         message := "Constructor 'init' cannot use 'override'." }]
    else []
  else if method.isStatic && method.hasOverride then [staticOverride method]
  else
    match semanticFindBaseMethod model classSymbol method.name with
    | none =>
      if method.hasOverride then
        [{ code := "NR174"
           node := method.syntaxNode
           message := "Method '" ++ method.name ++
             "' uses 'override', but no compatible base method exists." }]
      else []
    | some inherited =>
      if method.isStatic || inherited.isStatic then [staticOverride method]
      else if !compatibleMethods method inherited
          (classSymbol.isFunctionType && classSymbol.isSharedFunction) then
        [{ code := "NR177"
           node := method.syntaxNode
           message := "Method '" ++ method.name ++ "' conflicts with an inherited method and " ++
             "must use the exact same signature and visibility." }]
      else []

def validateInheritedMembers (model : SemanticModel) : List Diagnostic :=
  model.classes.flatMap fun classSymbol =>
    classSymbol.fields.flatMap (validateInheritedField model classSymbol) ++
      classSymbol.methods.flatMap (validateInheritedMethod model classSymbol)

end Neri.Semantic
