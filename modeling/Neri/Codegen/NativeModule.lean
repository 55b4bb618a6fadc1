import Neri.Codegen.NativeLayout
import Neri.Codegen.Transport
import Neri.Ir.NativeRecords

/-!
# Native records from their declarations to the back end

The declarations of a module are lowered, written and read, and then an object of the back end lays
records out. `irWriteNativeRecords` writes the records sorted by name; here they come in any order.
-/

namespace Neri.Codegen

open Neri.Ir Neri.Semantic

def nativeRecordSymbol (moduleName name : String) : SymbolId :=
  { moduleName := moduleName, kind := .nativeRecord, semanticName := name }

/-- The records of the module that the back end reads. -/
def carriedRecords (moduleName : String) (order : List IrNativeRecord → List IrNativeRecord)
    (declarations : NativeDeclarations) : Option (List NativeRecord) :=
  (irLowerNativeRecords moduleName declarations.records).map fun lowered =>
    (order lowered).map (nativeRecord moduleName)

/-- The layouts that one object of the back end gives the records with these names, if the module
gets there and the object rejects none of them. -/
def backEndLayouts (moduleName : String) (order : List IrNativeRecord → List IrNativeRecord)
    (declarations : NativeDeclarations) (names : List String) : Option (List NativeLayout) :=
  match carriedRecords moduleName order declarations with
  | none => none
  | some records =>
    match layoutEach records (names.map (nativeRecordSymbol moduleName)) {} with
    | .ok (layouts, _) => some layouts
    | .error _ => none

end Neri.Codegen
