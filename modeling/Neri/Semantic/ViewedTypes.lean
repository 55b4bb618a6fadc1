import Neri.Lib.GuardedLinks
import Neri.Semantic.Assignability
import Neri.Semantic.Readonly

/-!
# Assignment between types with readonly views (`types.hk`, `readonly.hk`)

A type name is taken apart once, views included, as in `Neri.Semantic.TypeNames`. The tests of the
name of a view are those of what it shows, and what is reached through a view is seen readonly.
-/

namespace Neri.Semantic

open GuardedLinks Neri.Stdlib

inductive ViewedType where
  | error
  | null
  | void
  | bool
  | string
  | numeric (kind : NumericType)
  | classType (fullName : String)
  | optional (inner : ViewedType)
  | array (inner : ViewedType)
  | pointer (inner : ViewedType)
  | readonly (inner : ViewedType)
  deriving DecidableEq, Repr

namespace ViewedType

/-- `semanticIsReadonly`. -/
def isReadonly : ViewedType → Bool
  | .readonly _ => true
  | _ => false

/-- `semanticMutableType`. -/
def mutableType : ViewedType → ViewedType
  | .readonly inner => inner
  | type => type

/-- `semanticIsOptional`. -/
def isOptional : ViewedType → Bool
  | .readonly inner => inner.isOptional
  | .optional _ => true
  | _ => false

/-- `semanticIsArray`. -/
def isArray : ViewedType → Bool
  | .readonly inner => inner.isArray
  | .array _ => true
  | _ => false

/-- `semanticIsPointer`. -/
def isPointer : ViewedType → Bool
  | .readonly inner => inner.isPointer
  | .pointer _ => true
  | _ => false

/-- `semanticReadView`. -/
def readView : ViewedType → ViewedType
  | .optional inner => .optional inner.readView
  | .classType fullName => .readonly (.classType fullName)
  | .array inner => .readonly (.array inner)
  | .pointer inner => .readonly (.pointer inner)
  | type => type

/-- `semanticInnerType`. -/
def innerType : ViewedType → ViewedType
  | .readonly inner => inner.innerType.readView
  | .optional inner | .array inner | .pointer inner => inner
  | type => type

def size : ViewedType → Nat
  | .optional inner | .array inner | .pointer inner | .readonly inner => inner.size + 1
  | _ => 1

theorem size_readView (type : ViewedType) : type.readView.size ≤ type.size + 1 := by
  induction type with
  | optional inner ih => exact Nat.succ_le_succ ih
  | _ => simp [readView, size]

theorem size_innerType {type : ViewedType} (h : type.isOptional = true) :
    type.innerType.size < type.size := by
  induction type with
  | optional inner => exact Nat.lt_succ_self _
  | readonly inner ih =>
    have hinner := ih h
    have hview := size_readView inner.innerType
    show inner.innerType.readView.size < inner.size + 1
    omega
  | _ => cases h

end ViewedType

/-- The reserved names and what they stand for. -/
def reservedTypes : List (String × ViewedType) :=
  [("Int", .numeric .int), ("Byte", .numeric .byte), ("Float", .numeric .float),
    ("Int32", .numeric .int32), ("UInt32", .numeric .uint32), ("UInt64", .numeric .uint64),
    ("Float32", .numeric .float32), ("Bool", .bool), ("String", .string), ("Void", .void),
    ("Error", .error), ("Null", .null)]

def ViewedType.ofName (name : Text) : ViewedType :=
  match reservedTypes.find? fun entry => name == Text.ofString entry.1 with
  | some entry => entry.2
  | none => .classType (String.ofList name.scalars)

/-- A written type, with its name looked up. -/
def WrittenType.viewed : WrittenType → ViewedType
  | .name first rest => .ofName (WrittenType.name first rest).text
  | .array inner => .array inner.viewed
  | .optional inner => .optional inner.viewed
  | .pointer inner => .pointer inner.viewed
  | .readonly inner => .readonly inner.viewed

/-- The type behind the views of a type. -/
def ViewedType.plain : ViewedType → SemanticType
  | .error => .error
  | .null => .null
  | .void => .void
  | .bool => .bool
  | .string => .string
  | .numeric kind => .numeric kind
  | .classType fullName => .classType fullName
  | .optional inner => .optional inner.plain
  | .array inner => .array inner.plain
  | .pointer inner => .pointer inner.plain
  | .readonly inner => inner.plain

/-- Some part of the type is seen through a view. -/
def ViewedType.hasView : ViewedType → Bool
  | .readonly _ => true
  | .optional inner | .array inner | .pointer inner => inner.hasView
  | _ => false

/-- `semanticClassAssignable`, on any types. -/
def classTypeAssignable (model : SemanticModel) (target source : ViewedType) : Bool :=
  target == source || match target, source with
    | .classType target, .classType source => semanticClassAssignable model target source
    | _, _ => false

/-- `model.findClass(typeName) != null`. -/
def SemanticModel.hasClass (model : SemanticModel) : ViewedType → Bool
  | .classType fullName => (model.findClass fullName).isSome
  | _ => false

/-- `semanticAssignable`. -/
def viewedAssignable (model : SemanticModel) (target source : ViewedType) : Bool :=
  if target = .error ∨ target = source then true
  else if target.isOptional then
    if source = .null then true
    else if source.isOptional then
      target.innerType.mutableType == source.innerType.mutableType &&
        viewedAssignable model target.innerType source.innerType
    else viewedAssignable model target.innerType source
  else if target.isReadonly then
    if target.mutableType.isArray then
      source.mutableType.isArray &&
        target.mutableType.innerType.readView == source.mutableType.innerType.readView
    else classTypeAssignable model target.mutableType source.mutableType
  else if source.isReadonly then false
  else if target.isArray || target.isPointer then target == source
  else model.hasClass target && model.hasClass source && classTypeAssignable model target source
termination_by target.size
decreasing_by all_goals exact ViewedType.size_innerType ‹_›

/-- A type without its optional layers. -/
def ViewedType.unwrapped (type : ViewedType) : ViewedType :=
  if type.isOptional then type.innerType.unwrapped else type
termination_by type.size
decreasing_by exact size_innerType ‹_›

/-- The types that are built from builtins, the classes of a model, arrays, optionals, pointers and
readonly views. -/
def ViewedType.BuiltFrom (model : SemanticModel) : ViewedType → Prop
  | .error => False
  | .classType fullName => (model.findClass fullName).isSome = true
  | .optional inner | .array inner | .pointer inner | .readonly inner => inner.BuiltFrom model
  | _ => True

def SemanticModel.baseLink (model : SemanticModel) (fullName : String) : Option String :=
  (model.findClass fullName).bind fun c => (model.baseOf c).map (·.fullName)

/-- No class has more ancestors than the compiler looks at. -/
def ShallowClasses (model : SemanticModel) : Prop :=
  ∀ fullName, follow model.baseLink (inheritanceSteps + 1) fullName = none

end Neri.Semantic
