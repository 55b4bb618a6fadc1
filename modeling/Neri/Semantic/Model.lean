import Mathlib.Data.List.Basic
import Neri.Semantic.TypeNames

/-!
# The semantic model of classes (`semantic_model.hk`, `semantic_class.hk`, `semantic_callable.hk`)

What the binder records of the classes of a program, as far as the inheritance rules, the binder of
bodies and the lowering of classes read it. The linked lists of the source are lists. A session's model may have a parent
that is searched after it; here the two are one list.
-/

namespace Neri.Semantic

inductive SourceAccess where
  | publicAccess
  | protectedAccess
  | internalAccess
  | privateAccess
  deriving DecidableEq, Repr

def SourceAccess.isPrivate (access : SourceAccess) : Bool := access == .privateAccess

inductive ParameterMode where
  | ordinary
  | labels
  deriving DecidableEq, Repr

structure SemanticParameter where
  name : String
  typeName : String
  mode : ParameterMode := .ordinary
  deriving DecidableEq, Repr

structure SemanticCallable where
  fullName : String
  name : String
  className : String
  returnType : String
  isStatic : Bool := false
  isUnsafe : Bool := false
  isReadonly : Bool := false
  isAbstract : Bool := false
  hasOverride : Bool := false
  access : SourceAccess := .publicAccess
  syntaxNode : Int := -1
  genericOrigin : Int := -1
  parameters : List SemanticParameter := []
  deriving DecidableEq, Repr

structure SemanticField where
  owner : String
  name : String
  typeName : String
  access : SourceAccess
  syntaxNode : Int := -1
  deriving DecidableEq, Repr

/-- A case of an alternative: its name and the types of its payload. -/
structure AlternativeCase where
  name : String
  payloadTypes : List SemanticType := []
  deriving DecidableEq, Repr

/-- `SemanticClass`. The cases of an alternative are read off its declaration and its fields by
`alternativeCaseNode` and `alternativePayloadType`; here they stand with the class. -/
structure SemanticClass where
  fullName : String
  access : SourceAccess := .publicAccess
  baseName : String := ""
  representation : String := ""
  isFunctionType : Bool := false
  isSharedFunction : Bool := false
  isClosure : Bool := false
  isAbstract : Bool := false
  isResource : Bool := false
  isAlternative : Bool := false
  genericOrigin : Int := -1
  genericArguments : List SemanticType := []
  propagationSuccessCase : Int := -1
  propagationFailureCase : Int := -1
  alternativeCases : List AlternativeCase := []
  syntaxNode : Int := -1
  fields : List SemanticField := []
  methods : List SemanticCallable := []
  deriving DecidableEq, Repr

structure SemanticModel where
  classes : List SemanticClass
  functions : List SemanticCallable := []

def SemanticModel.findClass (model : SemanticModel) (fullName : String) : Option SemanticClass :=
  model.classes.find? (·.fullName == fullName)

def SemanticModel.findFunction (model : SemanticModel) (fullName : String) :
    Option SemanticCallable :=
  model.functions.find? (·.fullName == fullName)

def SemanticModel.baseOf (model : SemanticModel) (classSymbol : SemanticClass) :
    Option SemanticClass :=
  model.findClass classSymbol.baseName

/-- A diagnostic of the binder: its code, the syntax node it is reported at and its text. -/
structure Diagnostic where
  code : String
  node : Int
  message : String
  deriving DecidableEq, Repr

theorem SemanticModel.findClass_mem {model : SemanticModel} {fullName : String}
    {classSymbol : SemanticClass} (h : model.findClass fullName = some classSymbol) :
    classSymbol ∈ model.classes := List.mem_of_find?_eq_some h

theorem SemanticModel.fullName_of_findClass {model : SemanticModel} {fullName : String}
    {classSymbol : SemanticClass} (h : model.findClass fullName = some classSymbol) :
    classSymbol.fullName = fullName := by
  have hfound := List.find?_some h
  exact eq_of_beq hfound

end Neri.Semantic
