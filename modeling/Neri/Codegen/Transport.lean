import Neri.Codegen.Ir

/-!
# A module of the compiler as the native side sees it

The records of the compiler's IR that cross the transport, as the records that the payload reader
makes of them. The compiler names classes and native records by their names alone and marks what is
absent by a negative number; the native side has whole symbols and optional values.
-/

namespace Neri.Codegen

open Neri.Ir

def symbolId (symbol : IrSymbol) : SymbolId :=
  { moduleName := symbol.moduleName
    kind := symbol.kind
    semanticName := symbol.name }

def scalarTag : IrScalar → IrTypeKind
  | .void => .void
  | .bool => .bool
  | .byte => .byte
  | .int => .int
  | .float => .float
  | .string => .string
  | .int32 => .int32
  | .uint32 => .uint32
  | .uint64 => .uint64
  | .float32 => .float32
  | .unsafeCapability => .unsafeCapability

mutual

/-- A type of the module `moduleName`. -/
def nativeType (moduleName : String) : IrType → Ty
  | .scalar kind => { tag := scalarTag kind }
  | .array element => { tag := .array, arguments := [nativeType moduleName element] }
  | .optional element => { tag := .optional, arguments := [nativeType moduleName element] }
  | .pointer element => { tag := .pointer, arguments := [nativeType moduleName element] }
  | .borrowCapability element =>
    { tag := .borrowCapability, arguments := [nativeType moduleName element] }
  | .classType name =>
    { tag := .classType
      symbol := some
        { moduleName := moduleName
          kind := .classDecl
          semanticName := name } }
  | .nativeRecord name =>
    { tag := .nativeRecord
      symbol := some
        { moduleName := moduleName
          kind := .nativeRecord
          semanticName := name } }
  | .fixedArray element count =>
    { tag := .fixedArray
      arguments := [nativeType moduleName element]
      elementCount := count }
  | .cFunction result parameters =>
    { tag := .cFunction
      arguments := nativeType moduleName result :: nativeTypes moduleName parameters }

/-- The types of a list. -/
def nativeTypes (moduleName : String) : List IrType → List Ty
  | [] => []
  | first :: rest => nativeType moduleName first :: nativeTypes moduleName rest

end

def nativeField (moduleName : String) (field : IrField) : Field :=
  { id := symbolId field.symbol
    valueType := nativeType moduleName field.typeName }

def nativeRecord (moduleName : String) (value : IrNativeRecord) : NativeRecord :=
  { id := symbolId value.symbol
    isUnion := value.unionType
    fields := value.fields.map (nativeField moduleName) }

def nativeMethod (method : IrMethod) : Method :=
  { functionId := symbolId method.functionSymbol
    dispatch := method.dispatch
    dispatchSlot := method.dispatchSlot.map symbolId }

def nativeClass (value : IrClass) : ClassDeclaration :=
  { id := symbolId value.symbol
    base := value.baseSymbol.map symbolId
    methods := value.methods.map nativeMethod }

end Neri.Codegen
