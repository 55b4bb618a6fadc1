import Neri.Abi.EffectSet
import Neri.Ir.Domains

/-!
# The in-memory IR of the compiler

The records of `compiler/ir/ir_*.hk` that the passes of this development read or write. The linked
lists of the source are lists here, so the counters that the source keeps beside them are their
lengths. Identities that are integers with `-1` for an absent one stay integers.
-/

namespace Neri.Ir

open Neri.Abi

/-- The scalar kinds that `IrType.scalar` accepts. -/
inductive IrScalar where
  | void
  | bool
  | byte
  | int
  | float
  | string
  | int32
  | uint32
  | uint64
  | float32
  | unsafeCapability
  deriving DecidableEq, Repr

/-- An IR type, as the five constructors `scalar`, `unary`, `nominal`, `fixedArray` and `cFunction`
of `IrType` build it; the four kinds that `unary` accepts are constructors of their own. -/
inductive IrType where
  | scalar (kind : IrScalar)
  | array (element : IrType)
  | optional (element : IrType)
  | pointer (element : IrType)
  | borrowCapability (element : IrType)
  | classType (name : String)
  | nativeRecord (name : String)
  | fixedArray (element : IrType) (count : Nat)
  | cFunction (result : IrType) (parameters : List IrType)
  deriving Repr

namespace IrType

mutual

/-- The same kind and, part by part, the same parts: what the canonical keys of two types spell. -/
def beq : IrType → IrType → Bool
  | .scalar k, .scalar l => k == l
  | .array a, .array b => beq a b
  | .optional a, .optional b => beq a b
  | .pointer a, .pointer b => beq a b
  | .borrowCapability a, .borrowCapability b => beq a b
  | .classType m, .classType n => m == n
  | .nativeRecord m, .nativeRecord n => m == n
  | .fixedArray a m, .fixedArray b n => beq a b && m == n
  | .cFunction r ps, .cFunction s qs => beq r s && beqAll ps qs
  | _, _ => false

/-- The parameters of two C function types, compared pairwise. -/
def beqAll : List IrType → List IrType → Bool
  | [], [] => true
  | a :: as, b :: bs => beq a b && beqAll as bs
  | _, _ => false

end

mutual

theorem beq_iff : ∀ a b : IrType, beq a b = true ↔ a = b
  | .scalar k, b => by cases b <;> simp [beq]
  | .array a, b => by cases b <;> simp [beq, beq_iff a]
  | .optional a, b => by cases b <;> simp [beq, beq_iff a]
  | .pointer a, b => by cases b <;> simp [beq, beq_iff a]
  | .borrowCapability a, b => by cases b <;> simp [beq, beq_iff a]
  | .classType m, b => by cases b <;> simp [beq]
  | .nativeRecord m, b => by cases b <;> simp [beq]
  | .fixedArray a m, b => by cases b <;> simp [beq, beq_iff a]
  | .cFunction r ps, b => by cases b <;> simp [beq, beq_iff r, beqAll_iff ps]

theorem beqAll_iff : ∀ as bs : List IrType, beqAll as bs = true ↔ as = bs
  | [], bs => by cases bs <;> simp [beqAll]
  | a :: as, bs => by cases bs <;> simp [beqAll, beq_iff a, beqAll_iff as]

end

instance : DecidableEq IrType := fun a b => decidable_of_iff _ (beq_iff a b)

end IrType

/-- A symbol: the module that owns it, its kind and its name. -/
structure IrSymbol where
  moduleName : String
  kind : IrSymbolKind
  name : String
  deriving DecidableEq, Repr

/-- A byte range of a source; `present` is false where the source has no position. -/
structure IrLocation where
  sourceId : String := "main"
  present : Bool
  start : Int
  length : Int
  deriving DecidableEq, Repr

def irNoLocation : IrLocation := { present := false, start := 0, length := 0 }

/-- A field of a class or of a native record. -/
structure IrField where
  symbol : IrSymbol
  typeName : IrType
  access : IrAccess
  location : IrLocation
  deriving DecidableEq, Repr

/-- A method of a class, with the slot it is dispatched through. -/
structure IrMethod where
  functionSymbol : IrSymbol
  dispatch : IrDispatchKind
  dispatchSlot : Option IrSymbol
  location : IrLocation
  deriving DecidableEq, Repr

structure IrClass where
  symbol : IrSymbol
  baseSymbol : Option IrSymbol
  access : IrAccess
  retained : Bool := false
  declarationSourceId : String := ""
  location : IrLocation
  fields : List IrField := []
  methods : List IrMethod := []
  deriving DecidableEq, Repr

structure IrNativeRecord where
  symbol : IrSymbol
  unionType : Bool
  fields : List IrField := []
  deriving DecidableEq, Repr

/-- A global: every global of the compiler is a string literal. -/
structure IrGlobal where
  symbol : IrSymbol
  value : String
  location : IrLocation
  deriving DecidableEq, Repr

/-- An imported function. -/
structure IrImport where
  symbol : IrSymbol
  parameterTypes : List IrType := []
  resultType : IrType
  kind : IrImportKind
  linkName : String
  nativeLibrary : String := ""
  effects : EffectSet
  runtimeFeatures : Nat := 0
  location : IrLocation
  deriving DecidableEq, Repr

structure IrSource where
  id : String
  text : String
  deriving DecidableEq, Repr

structure IrParameter where
  typeName : IrType
  location : IrLocation
  deriving DecidableEq, Repr

/-- An instruction; `secondResultId` is negative when there is no such result. -/
structure IrInstruction where
  opcode : IrOpcode
  resultType : IrType
  secondResultId : Int := -1
  secondResultType : Option IrType := none
  typeArguments : List IrType := []
  symbol : Option IrSymbol := none
  constantKind : Option IrConstantKind := none
  constantValue : String := ""
  location : IrLocation
  deriving DecidableEq, Repr

/-- A terminator, of which the passes here read the location. -/
structure IrTerminator where
  location : IrLocation
  deriving DecidableEq, Repr

structure IrBlock where
  parameters : List IrParameter := []
  instructions : List IrInstruction := []
  terminator : Option IrTerminator := none
  deriving DecidableEq, Repr

structure IrDebugScope where
  location : IrLocation
  deriving DecidableEq, Repr

/-- A source variable recorded for the debugger. -/
structure IrDebugLocal where
  name : String
  value : Int
  location : IrLocation
  scopeId : Int := 0
  deriving DecidableEq, Repr

structure IrFunction where
  symbol : IrSymbol
  parameterTypes : List IrType := []
  resultType : IrType
  kind : IrFunctionKind
  effects : EffectSet := .empty
  localEffects : EffectSet := .empty
  unsafeCall : Bool := false
  retained : Bool := false
  cExportSymbol : String := ""
  declaringClass : Option IrSymbol := none
  dispatchSlot : Option IrSymbol := none
  location : IrLocation
  blocks : List IrBlock := []
  debugLocals : List IrDebugLocal := []
  debugScopes : List IrDebugScope := []
  callees : List String := []
  linkReferences : Option (List String) := none
  linkRuntimeFeatures : Nat := 0
  parallelCallees : Option (List String) := none
  parallelUnsafe : Bool := false
  deriving DecidableEq, Repr

/-- The features a module can require of the native back end, in the order of their names. -/
inductive IrFeature where
  | automaticRegions
  | cInterop
  | debugScopes
  | extendedScalars
  | isolatedWorkers
  | nativeLibraries
  | nativeRecords
  | nativeStrings
  | retainedModules
  | scopedTasks
  | sequentialArrays
  | sessionModule
  | stringData
  deriving DecidableEq, Repr

/-- A set of required features: one flag for each, as the source keeps them. -/
structure IrFeatureSet where
  requires : IrFeature → Bool

structure IrModule where
  id : String := "main"
  sources : List IrSource := []
  requiredFeatures : IrFeatureSet := { requires := fun _ => false }
  sessionEntry : Option IrSymbol := none
  sessionSourceType : IrType := .scalar .void
  sessionTargetType : IrType := .scalar .void
  records : List IrNativeRecord := []
  classes : List IrClass := []
  globals : List IrGlobal := []
  imports : List IrImport := []
  functions : List IrFunction := []

end Neri.Ir
