import Mathlib.Logic.Basic

/-!
# Type names (`types.hk`)

The compiler writes a type as a name with suffixes: `T?`, `T[]`, `T*`, `T[4]`. Here a name is taken
apart once, and the functions that look at its last suffix are functions on the result. Types with
readonly views are `ViewedType`s; the types of C functions are left out.
-/

namespace Neri.Semantic

/-- The names for which `semanticIsNumeric` holds. -/
inductive NumericType where
  | int
  | byte
  | float
  | int32
  | uint32
  | uint64
  | float32
  deriving DecidableEq, Repr

/-- A type name, taken apart. -/
inductive SemanticType where
  | error
  | null
  | void
  | bool
  | string
  | numeric (kind : NumericType)
  | record (name : String)
  | classType (fullName : String)
  | optional (inner : SemanticType)
  | array (inner : SemanticType)
  | pointer (inner : SemanticType)
  | fixedArray (inner : SemanticType) (length : Nat)
  deriving DecidableEq, Repr

namespace NumericType

def text : NumericType → String
  | .int => "Int"
  | .byte => "Byte"
  | .float => "Float"
  | .int32 => "Int32"
  | .uint32 => "UInt32"
  | .uint64 => "UInt64"
  | .float32 => "Float32"

end NumericType

namespace SemanticType

/-- The name as the compiler writes it. -/
def text : SemanticType → String
  | .error => "Error"
  | .null => "Null"
  | .void => "Void"
  | .bool => "Bool"
  | .string => "String"
  | .numeric kind => kind.text
  | .record name => "record|" ++ name
  | .classType fullName => fullName
  | .optional inner => inner.text ++ "?"
  | .array inner => inner.text ++ "[]"
  | .pointer inner => inner.text ++ "*"
  | .fixedArray inner length => inner.text ++ "[" ++ toString length ++ "]"

/-- `semanticIsOptional`. -/
def isOptional : SemanticType → Bool
  | .optional _ => true
  | _ => false

/-- `semanticIsArray`. -/
def isArray : SemanticType → Bool
  | .array _ => true
  | _ => false

/-- `semanticIsNumeric`. -/
def isNumeric : SemanticType → Bool
  | .numeric _ => true
  | _ => false

/-- `semanticInnerType`. -/
def inner : SemanticType → SemanticType
  | .optional type | .array type | .pointer type | .fixedArray type _ => type
  | type => type

end SemanticType

def semanticEqualityComparable : SemanticType → Bool
  | .optional type => semanticEqualityComparable type
  | .numeric _ | .bool | .string => true
  | _ => false

def semanticMixedOptionalEquality (left right : SemanticType) : Bool :=
  if left.isOptional && !right.isOptional then
    left.inner == right && semanticEqualityComparable right
  else if right.isOptional && !left.isOptional then
    right.inner == left && semanticEqualityComparable left
  else
    false

/-- A type that may be null: the type itself where it is optional. -/
def SemanticType.asOptional (type : SemanticType) : SemanticType :=
  if type.isOptional then type else .optional type

/-- `semanticTernaryType`, with `none` for the empty name. -/
def semanticTernaryType (whenTrue whenFalse : SemanticType) : Option SemanticType :=
  if whenTrue = whenFalse then
    some whenTrue
  else if whenTrue = .null ∧ whenFalse ≠ .error ∧ whenFalse ≠ .void then
    some whenFalse.asOptional
  else if whenFalse = .null ∧ whenTrue ≠ .error ∧ whenTrue ≠ .void then
    some whenTrue.asOptional
  else if whenTrue.isOptional ∧ whenTrue.inner = whenFalse then
    some whenTrue
  else if whenFalse.isOptional ∧ whenFalse.inner = whenTrue then
    some whenFalse
  else
    none

end Neri.Semantic
