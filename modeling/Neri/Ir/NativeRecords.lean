import Neri.Semantic.NativeRecords

/-!
# Lowering of native records (`compiler/ir/native_records.hk`)
-/

namespace Neri.Ir

open Neri.Semantic

/-- A field of `irLowerNativeRecords`. -/
def irLowerNativeField (moduleId : String) (record : NativeRecord) (field : NativeField) :
    Option IrField := do
  let typeName ← field.typeName.convertSemantic
  return { symbol :=
             { moduleName := moduleId
               kind := .field
               name := record.name ++ "." ++ field.name }
           typeName := typeName
           access := .publicAccess
           location := irNoLocation }

/-- A record of `irLowerNativeRecords`. -/
def irLowerNativeRecord (moduleId : String) (record : NativeRecord) : Option IrNativeRecord := do
  let fields ← record.fields.mapM (irLowerNativeField moduleId record)
  return { symbol :=
             { moduleName := moduleId
               kind := .nativeRecord
               name := record.name }
           unionType := record.unionType
           fields := fields }

def irLowerNativeRecords (moduleId : String) (records : List NativeRecord) :
    Option (List IrNativeRecord) :=
  records.mapM (irLowerNativeRecord moduleId)

end Neri.Ir
