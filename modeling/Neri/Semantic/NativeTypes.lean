import Neri.Ir.Module
import Neri.Semantic.TypeNames

/-!
# The types of native fields (`types.hk`, `cabi_types.hk`, `ir_type_pool.hk`)

A resolved type name with its suffixes taken apart, as in `SemanticType`, and with the signatures of
C functions. Classes, readonly views and names that did not resolve are one case: nothing here looks
into them. The count of a fixed array is the number that its literal reads as, or zero.
-/

namespace Neri.Semantic

open Neri.Ir

inductive NativeTypeName where
  | numeric (kind : NumericType)
  | bool
  | void
  | string
  | record (name : String)
  | managed (name : String)
  | cFunction (result : NativeTypeName) (parameters : List NativeTypeName)
  | optional (inner : NativeTypeName)
  | array (inner : NativeTypeName)
  | pointer (inner : NativeTypeName)
  | fixedArray (inner : NativeTypeName) (count : Nat)
  deriving Repr

namespace NativeTypeName

/-- A component of a signature, behind its length. -/
def componentText (text : String) : String :=
  toString text.utf8ByteSize ++ ":" ++ text

mutual

/-- The name as the compiler writes it; `semanticCFunctionType` for the signatures. -/
def text : NativeTypeName → String
  | .numeric kind => kind.text
  | .bool => "Bool"
  | .void => "Void"
  | .string => "String"
  | .record name => "record|" ++ name
  | .managed name => name
  | .cFunction result parameters =>
    "cabi|" ++ toString (parameters.length + 1) ++ "|" ++ componentText result.text ++
      componentTexts parameters ++ "|"
  | .optional inner => inner.text ++ "?"
  | .array inner => inner.text ++ "[]"
  | .pointer inner => inner.text ++ "*"
  | .fixedArray inner count => inner.text ++ "[" ++ toString count ++ "]"

/-- The components behind the result of a signature. -/
def componentTexts : List NativeTypeName → String
  | [] => ""
  | first :: rest => componentText first.text ++ componentTexts rest

end

/-- `semanticIsNumeric`. -/
def isNumeric : NativeTypeName → Bool
  | .numeric _ => true
  | _ => false

/-- `semanticIsCFunction`. -/
def isCFunction : NativeTypeName → Bool
  | .cFunction _ _ => true
  | _ => false

/-- `nativeRecordType`: how the name starts, whatever its suffixes are. -/
def isRecordType : NativeTypeName → Bool
  | .record _ => true
  | .optional inner | .array inner | .pointer inner | .fixedArray inner _ => inner.isRecordType
  | _ => false

/-- What is left once all pointer and optional suffixes at the end are taken off. -/
def pointerElement : NativeTypeName → NativeTypeName
  | .pointer inner | .optional inner => inner.pointerElement
  | type => type

/-- The elements that a pointer of a native field may lead to. -/
def isNativeElement : NativeTypeName → Bool
  | .bool | .void => true
  | type => type.isNumeric || type.isRecordType || type.isCFunction

end NativeTypeName

/-! ## The structural type -/

def NumericType.irScalar : NumericType → IrScalar
  | .int => .int
  | .byte => .byte
  | .float => .float
  | .int32 => .int32
  | .uint32 => .uint32
  | .uint64 => .uint64
  | .float32 => .float32

namespace NativeTypeName

mutual

/-- `IrTypePool.convertSemantic`, which ends the compiler where the type breaks a rule of
`IrType`. -/
def convertSemantic : NativeTypeName → Option IrType
  | .numeric kind => some (.scalar kind.irScalar)
  | .bool => some (.scalar .bool)
  | .void => some (.scalar .void)
  | .string => some (.scalar .string)
  | .record name => if name = "" then none else some (.nativeRecord name)
  | .managed name => if name = "" then none else some (.classType name)
  | .cFunction result parameters => do
    return .cFunction (← result.convertSemantic) (← convertAll parameters)
  | .optional inner => do return .optional (← inner.convertSemantic)
  | .array inner => do return .array (← inner.convertSemantic)
  | .pointer inner => do return .pointer (← inner.convertSemantic)
  | .fixedArray inner count => do
    let element ← inner.convertSemantic
    if count = 0 ∨ count > 4294967295 then none else some (.fixedArray element count)

/-- The types of a list. -/
def convertAll : List NativeTypeName → Option (List IrType)
  | [] => some []
  | first :: rest => do return (← first.convertSemantic) :: (← convertAll rest)

end

end NativeTypeName

end Neri.Semantic
