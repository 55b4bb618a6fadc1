import Neri.Lib.Lines
import Neri.Semantic.Overrides

/-!
# Class hierarchies and overriding

What the registration of classes and methods guarantees about a semantic model, and the relation
that the binder's lookup makes between methods: a method overrides the method that
`semanticFindBaseMethod` finds for it.
-/

namespace Neri.Semantic

open Lines

/-- A method that takes part in dispatch. -/
def SemanticCallable.isInstance (method : SemanticCallable) : Bool :=
  !method.isStatic && method.name != "init"

/-- The classes of a program: they have distinct names, a class declares a method name once, and base
classes lead to an end. -/
structure AcyclicClasses (model : SemanticModel) : Prop where
  classNames : (model.classes.map (·.fullName)).Nodup
  methodNames : ∀ c ∈ model.classes, (c.methods.map (·.name)).Nodup
  acyclic : ∀ c ∈ model.classes, ∃ l, Line model.baseOf c l

/-- A model as the declaration passes leave it when they report nothing: moreover, a method is
qualified by the name of its class, base classes exist, and a class with a representation of its own
neither has nor is a base class. -/
structure Hierarchy (model : SemanticModel) : Prop extends AcyclicClasses model where
  named : ∀ c ∈ model.classes, c.fullName ≠ ""
  qualified : ∀ c ∈ model.classes, ∀ m ∈ c.methods,
    m.fullName = c.fullName ++ "." ++ m.name ∧ '.' ∉ m.name.toList
  bases : ∀ c ∈ model.classes, c.baseName ≠ "" → ∃ b, model.baseOf c = some b
  unrepresented : ∀ c ∈ model.classes, ∀ b, model.baseOf c = some b →
    c.representation = "" ∧ b.representation = ""

/-- `ancestor` is a base class of `c`, directly or through others. -/
def Ancestor (model : SemanticModel) (c ancestor : SemanticClass) : Prop :=
  Relation.TransGen (fun x y => model.baseOf x = some y) c ancestor

/-- The method overrides the one that the binder's lookup finds. -/
def DirectOverride (model : SemanticModel) (method inherited : SemanticCallable) : Prop :=
  ∃ c ∈ model.classes, method ∈ c.methods ∧ method.isInstance = true ∧
    semanticFindBaseMethod model c method.name = some inherited

/-- Overriding, directly or through intermediate overrides. -/
def Overrides (model : SemanticModel) : SemanticCallable → SemanticCallable → Prop :=
  Relation.TransGen (DirectOverride model)

/-- What the override rules compare of a method, apart from `readonly`. -/
def SemanticCallable.signature (method : SemanticCallable) :
    SourceAccess × Bool × String × List (String × ParameterMode) :=
  (method.access, method.isUnsafe, method.returnType,
    method.parameters.map fun p => (p.typeName, p.mode))

/-- `method` has the signature of `inherited`. It is readonly exactly when `inherited` is; only below
a method of a shared function type that overrides `inherited` it may be readonly where `inherited` is
not. -/
def SameSignature (model : SemanticModel) (method inherited : SemanticCallable) : Prop :=
  method.signature = inherited.signature ∧
    (inherited.isReadonly = true → method.isReadonly = true) ∧
    (method.isReadonly = inherited.isReadonly ∨
      ∃ c ∈ model.classes, (c.isFunctionType && c.isSharedFunction) = true ∧
        ∃ m ∈ c.methods, (m = method ∨ Overrides model method m) ∧ Overrides model m inherited)

end Neri.Semantic
