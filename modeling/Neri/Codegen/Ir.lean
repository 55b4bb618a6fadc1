import Neri.Ir.Module

/-!
# The module of the native back end

The structures of `native/include/neri/codegen/ir.h`, which the payload reader fills and the native
verifier checks, with the members that the passes of this development read. The tags are those of the
transport, so the enumerations are shared with the compiler's IR. Identities are natural numbers: the
reader admits only those below `2 ^ 31`.
-/

namespace Neri.Codegen

open Neri.Ir

/-- `symbol_id`: the names of two symbols may be the same if their modules or kinds are not. -/
structure SymbolId where
  moduleName : String
  kind : IrSymbolKind
  semanticName : String
  deriving DecidableEq, Repr

/-- A range of bytes in the UTF-8 text of a source. -/
structure SourceLocation where
  source : String
  utf8Start : Nat
  utf8Length : Nat
  deriving DecidableEq, Repr

/-- `type`: one record for all forms; which of the parts count depends on the tag. -/
structure Ty where
  tag : IrTypeKind
  symbol : Option SymbolId := none
  arguments : List Ty := []
  elementCount : Nat := 0
  deriving Repr

/-- A source with the bytes that locations point into. -/
structure Source where
  id : String
  utf8 : List UInt8

/-- A field of a native record. -/
structure Field where
  id : SymbolId
  valueType : Ty

/-- A method of a class; the slot is that of the method it overrides, or its own. -/
structure Method where
  functionId : SymbolId
  dispatch : IrDispatchKind
  dispatchSlot : Option SymbolId

structure ClassDeclaration where
  id : SymbolId
  base : Option SymbolId
  methods : List Method

/-- A C struct or union. -/
structure NativeRecord where
  id : SymbolId
  isUnion : Bool
  fields : List Field

/-- The definition of a value: its identity in the function and its type. -/
structure ValueDefinition where
  id : Nat
  valueType : Ty

/-- A block parameter takes the place of a phi node. -/
structure BlockParameter where
  id : Nat
  valueType : Ty
  location : Option SourceLocation

/-- An edge to a block, with the values for its parameters. -/
structure Edge where
  target : Nat
  arguments : List Nat
  deriving DecidableEq, Repr

structure Instruction where
  opcode : IrOpcode
  results : List ValueDefinition := []
  operands : List Nat := []
  symbol : Option SymbolId := none
  location : Option SourceLocation := none

/-- The last instruction of a block; which of the members count depends on the tag. -/
structure Terminator where
  tag : IrTerminatorKind
  condition : Option Nat := none
  edges : List Edge := []
  returnValue : Option Nat := none
  panicCode : String := ""
  panicMessage : String := ""
  location : Option SourceLocation := none

structure Block where
  id : Nat
  parameters : List BlockParameter := []
  instructions : List Instruction := []
  ending : Terminator

/-- `function`: one without blocks is defined elsewhere. -/
structure Function where
  id : SymbolId
  parameterTypes : List Ty := []
  resultType : Ty
  effects : Nat := 0
  unsafeCall : Bool := false
  entryBlock : Nat := 0
  unsafeRoot : Option ValueDefinition := none
  blocks : List Block

/-- `ir_module`. -/
structure CodegenModule where
  sources : List Source := []
  functions : List Function := []

/-- The codes of the errors that the reader and the verifier report. -/
inductive ReaderErrorKind where
  | incompatibleMajor
  | unsupportedMinor
  | unsupportedFeature
  | malformedModule
  | invalidReference
  | invalidType
  | invalidControlFlow
  | invalidSsa
  | invalidSafety
  | invalidSource
  deriving DecidableEq, Repr

/-- `reader_error`: the verifier reports all its errors at offset `0`. -/
structure ReaderError where
  code : ReaderErrorKind
  message : String
  deriving DecidableEq, Repr

end Neri.Codegen
