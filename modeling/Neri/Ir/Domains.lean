import Mathlib.Data.Nat.Notation

/-!
# The enumerations of the IR

The closed domains of the intermediate representation (`compiler/ir/ir_*_kind.hk`,
`compiler/ir/ir_opcode.hk` and their catalogs). The source generates a sealed class with a tag for
each of them; here each is an inductive type. `wireCode` is the tag that the transport writes for the
kind of a symbol, by which declarations are ordered.
-/

namespace Neri.Ir

/-- The kinds of symbols, in the order of their tags. -/
inductive IrSymbolKind where
  | classDecl
  | field
  | method
  | function
  | parameter
  | localDecl
  | libraryFunction
  | intrinsic
  | globalDecl
  | nativeRecord
  deriving DecidableEq, Repr

/-- The tag of the transport. -/
def IrSymbolKind.wireCode : IrSymbolKind → Nat
  | .classDecl => 1
  | .field => 2
  | .method => 3
  | .function => 4
  | .parameter => 5
  | .localDecl => 6
  | .libraryFunction => 7
  | .intrinsic => 8
  | .globalDecl => 9
  | .nativeRecord => 10

/-- The access modifiers of classes and fields. -/
inductive IrAccess where
  | publicAccess
  | privateAccess
  | protectedAccess
  | internalAccess
  deriving DecidableEq, Repr

inductive IrDispatchKind where
  | staticDispatch
  | directDispatch
  | virtualDispatch
  deriving DecidableEq, Repr

inductive IrFunctionKind where
  | function
  | staticMethod
  | instanceMethod
  | constructor
  | defaultAdapter
  deriving DecidableEq, Repr

inductive IrImportKind where
  | runtime
  | cAbi
  deriving DecidableEq, Repr

inductive IrConstantKind where
  | bool
  | byte
  | int
  | float
  | optionalNone
  | optionalSome
  | stringGlobal
  | stringUtf8
  deriving DecidableEq, Repr

/-- The kinds of types. Their tags leave gaps. -/
inductive IrTypeKind where
  | void
  | bool
  | byte
  | int
  | float
  | string
  | int32
  | uint32
  | uint64
  | float32
  | array
  | classType
  | optional
  | pointer
  | nativeRecord
  | fixedArray
  | cFunction
  | unsafeCapability
  | borrowCapability
  deriving DecidableEq, Repr

inductive IrTerminatorKind where
  | branch
  | conditionalBranch
  | returns
  | panic
  deriving DecidableEq, Repr

/-- The opcodes, in the order of their tags. -/
inductive IrOpcode where
  | constant
  | intNegChecked
  | intAddChecked
  | intSubChecked
  | intMulChecked
  | intDivChecked
  | floatNeg
  | floatAdd
  | floatSub
  | floatMul
  | floatDiv
  | boolNot
  | boolAnd
  | boolOr
  | compare
  | castIntToFloat
  | castFloatToIntChecked
  | castIntToByteChecked
  | castByteToInt
  | classUpcast
  | optionalNone
  | optionalSome
  | optionalIsSome
  | optionalGetChecked
  | stringConcat
  | stringEqual
  | stringNotEqual
  | call
  | callDirect
  | callVirtual
  | callImport
  | callUnsafe
  | callCAbi
  | arrayNew
  | arrayLength
  | arrayLoadChecked
  | arrayStoreChecked
  | objectAlloc
  | fieldLoad
  | fieldStore
  | unsafeBegin
  | unsafeEnd
  | stackAlloc
  | pointerLoad
  | pointerStore
  | pointerOffset
  | pointerDifference
  | pointerCompare
  | pointerCast
  | nativeAlloc
  | nativeRealloc
  | nativeFree
  | borrowBegin
  | borrowEnd
  | stringFromInt
  | stringFromByte
  | stringFromFloat
  | numericCastChecked
  | nativeFieldAddress
  | nativeIndexAddressChecked
  | taskGenerate
  | cFunctionAddress
  | callCIndirect
  | arrayGenerate
  | workerEntry
  | classCheckedCast
  deriving DecidableEq, Repr

end Neri.Ir
