import Neri.Semantic.Overrides

/-!
# Types in a model (`types.hk`)

The functions on type names that look classes up: which type may be assigned to which, and which
types carry a resource.
-/

namespace Neri.Semantic

/-- The loop of `semanticClassAssignable`, with the steps it has left. -/
def classAssignableLoop (model : SemanticModel) (target : String) : Nat → Option SemanticClass → Bool
  | 0, _ => false
  | _ + 1, none => false
  | steps + 1, some current =>
    current.baseName == target ||
      classAssignableLoop model target steps (model.findClass current.baseName)

def semanticClassAssignable (model : SemanticModel) (target source : String) : Bool :=
  target == source || classAssignableLoop model target inheritanceSteps (model.findClass source)

def semanticAssignable (model : SemanticModel) (target source : SemanticType) : Bool :=
  target == .error || target == source ||
    match target, source with
    | .optional _, .null => true
    | .optional targetInner, .optional sourceInner =>
      targetInner == sourceInner && semanticAssignable model targetInner sourceInner
    | .optional targetInner, source => semanticAssignable model targetInner source
    | .classType target, .classType source =>
      (model.findClass target).isSome && (model.findClass source).isSome &&
        semanticClassAssignable model target source
    | _, _ => false
  termination_by structural target

/-- The class that a type names, if it names one. -/
def SemanticModel.classOf (model : SemanticModel) : SemanticType → Option SemanticClass
  | .classType fullName => model.findClass fullName
  | _ => none

def directResourceType (model : SemanticModel) (type : SemanticType) : Bool :=
  (model.classOf type).any (·.isResource)

/-- Whether the class at the end of the arrays and optionals of a type is one of `classes`. -/
def SemanticType.leadsTo (classes : String → Bool) : SemanticType → Bool
  | .array inner | .optional inner => inner.leadsTo classes
  | .classType fullName => classes fullName
  | _ => false

/-- The recursion of `semanticContainsResource` through the arguments of specializations. -/
def containsResourceWithin (model : SemanticModel) : Nat → SemanticType → Bool
  | 0, _ => false
  | levels + 1, type => type.leadsTo fun fullName =>
    (model.findClass fullName).any fun symbol =>
      symbol.isResource || symbol.genericArguments.any (containsResourceWithin model levels)

/-- `semanticContainsResource`. The arguments of a specialization have shorter names than its own, so
there are at most as many levels of them as classes. -/
def semanticContainsResource (model : SemanticModel) (type : SemanticType) : Bool :=
  containsResourceWithin model (model.classes.length + 1) type

end Neri.Semantic
