import Neri.Codegen.Ir

/-!
# Layout of native records in the back end (`native_layout.h`)

A `native_layouts` object lays out the types of a module and remembers the records that it has
completed. Sizes are machine words. As in the front end the depth is counted down: `room` is
`128 - depth`.
-/

namespace Neri.Codegen

open Neri.Ir

structure NativeLayout where
  size : UInt64 := 0
  alignment : UInt64 := 1
  offsets : List UInt64 := []
  deriving DecidableEq, Repr

/-- `native_layouts`: the map and the set are lists. -/
structure NativeLayouts where
  completed : List (String × NativeLayout) := []
  visiting : List String := []
  deriving DecidableEq, Repr

/-- A computation that changes a `native_layouts` object or throws. -/
abbrev LayoutM := StateT NativeLayouts (Except ReaderError)

def reject {α : Type} (message : String) : LayoutM α :=
  throw { code := .invalidType, message := message }

def maximumSize : UInt64 := 1073741824

def alignUp (value alignment : UInt64) : UInt64 :=
  (value + alignment - 1) &&& ~~~(alignment - 1)

/-- The layout of everything that is an address. -/
def addressLayout : NativeLayout := { size := 8, alignment := 8 }

/-- `scalar_properties(tag).c_bits`. -/
def scalarBits : IrTypeKind → UInt64
  | .bool | .byte => 8
  | .int32 | .uint32 | .float32 => 32
  | .int | .float | .uint64 => 64
  | _ => 0

/-- `std::max`. -/
def stdMax (left right : UInt64) : UInt64 :=
  if left < right then right else left

/-- What the loop over the fields of a record does with a member. -/
def NativeLayout.addMember (isUnion : Bool) (result member : NativeLayout) : NativeLayout :=
  let offset := if isUnion then 0 else alignUp result.size member.alignment
  { size := stdMax result.size (offset + member.size)
    alignment := stdMax result.alignment member.alignment
    offsets := result.offsets ++ [offset] }

section

variable (records : List NativeRecord)

/-- `declaration`; `records` are those of the module. -/
def declaration (value : Ty) : LayoutM NativeRecord :=
  match value.symbol with
  | some symbol =>
    if value.tag ≠ .nativeRecord ∨ symbol.kind ≠ .nativeRecord ∨ value.arguments.isEmpty = false ∨
        value.elementCount ≠ 0 then
      reject "Invalid native record type."
    else
      match records.find? fun record => record.id.moduleName == symbol.moduleName &&
          record.id.semanticName == symbol.semanticName with
      | some record => return record
      | none => reject "Native record type references a missing declaration."
  | none => reject "Invalid native record type."

/-- The loop over the fields of a record; `layoutInner` is `layout` one level deeper. -/
def layoutMembers (layoutInner : Ty → LayoutM NativeLayout) (isUnion : Bool) :
    List Field → NativeLayout → LayoutM NativeLayout
  | [], result => return result
  | field :: rest, result => do
    let member ← layoutInner field.valueType
    let result := result.addMember isUnion member
    if result.size > maximumSize then
      reject "Native record exceeds one GiB."
    else
      layoutMembers layoutInner isUnion rest result

/-- The end of the case of a record, behind the loop over its fields. -/
def finishRecord (key : String) (result : NativeLayout) : LayoutM NativeLayout := do
  let result := { result with size := alignUp result.size result.alignment }
  if result.size > maximumSize then
    reject "Native record exceeds one GiB."
  else
    modify fun layouts =>
      { completed := (key, result) :: layouts.completed
        visiting := layouts.visiting.erase key }
    return result

/-- The case of a record that was not completed yet. -/
def completeRecord (layoutInner : Ty → LayoutM NativeLayout) (record : NativeRecord) :
    LayoutM NativeLayout := do
  let key := record.id.semanticName
  if key ∈ (← get).visiting then
    reject "Native layout is recursive by value."
  else
    modify fun layouts => { layouts with visiting := key :: layouts.visiting }
    if record.fields.isEmpty then
      reject "Native records require at least one field."
    else
      let result ← layoutMembers layoutInner record.isUnion record.fields {}
      finishRecord key result

def layoutRecord (layoutInner : Ty → LayoutM NativeLayout) (value : Ty) : LayoutM NativeLayout := do
  let record ← declaration records value
  match (← get).completed.lookup record.id.semanticName with
  | some found => return found
  | none => completeRecord layoutInner record

def layoutArray (layoutInner : Ty → LayoutM NativeLayout) (value : Ty) : LayoutM NativeLayout :=
  match value.symbol, value.arguments with
  | none, [argument] =>
    if value.elementCount = 0 then
      reject "Invalid fixed native array."
    else do
      let element ← layoutInner argument
      let count := UInt64.ofNat value.elementCount
      if count > maximumSize / element.size then
        reject "Native array exceeds one GiB."
      else
        return { size := element.size * count, alignment := element.alignment }
  | _, _ => reject "Invalid fixed native array."

/-- A parameter of a C function, or a result that is not void. -/
def layoutArgument (layoutInner : Ty → LayoutM NativeLayout) (argument : Ty) : LayoutM Unit := do
  if argument.tag = .nativeRecord ∨ argument.tag = .fixedArray then
    reject "C function signatures require scalars and pointers."
  let _ ← layoutInner argument

/-- The case of a C function: the first argument is the result. -/
def layoutSignature (layoutInner : Ty → LayoutM NativeLayout) (value : Ty) : LayoutM NativeLayout :=
  match value.symbol, value.arguments with
  | none, result :: parameters => do
    if result.tag = .void then
      if result.symbol.isSome ∨ result.arguments.isEmpty = false ∨ result.elementCount ≠ 0 then
        reject "Invalid void C function result."
    else
      layoutArgument layoutInner result
    parameters.forM (layoutArgument layoutInner)
    return addressLayout
  | _, _ => reject "Invalid C function pointer shape."

/-- The case of everything that is neither an aggregate nor an address. -/
def layoutScalar (value : Ty) : LayoutM NativeLayout :=
  if value.symbol.isSome ∨ value.arguments.isEmpty = false then
    reject "Invalid native scalar shape."
  else if scalarBits value.tag ≠ 0 then
    return { size := scalarBits value.tag / 8, alignment := scalarBits value.tag / 8 }
  else
    reject "Type has no C-compatible inline layout."

mutual

def layout : Nat → Ty → LayoutM NativeLayout
  | 0, _ => reject "Native layout exceeds 128 nested types."
  | room + 1, value =>
    match value.tag with
    | .fixedArray => layoutArray (layout room) value
    | tag =>
      if value.elementCount ≠ 0 then
        reject "Only fixed arrays carry an element count."
      else
        match tag with
        | .nativeRecord => layoutRecord records (layout room) value
        | .cFunction => layoutSignature (layout room) value
        | .pointer => do
          validatePointer room value
          return addressLayout
        | .optional =>
          match value.symbol, value.arguments with
          | none, [pointer] =>
            if pointer.tag = .pointer then do
              validatePointer room pointer
              return addressLayout
            else if pointer.tag = .cFunction then do
              let _ ← layout room pointer
              return addressLayout
            else
              reject "Only pointer optionals have a C-compatible layout."
          | _, _ => reject "Only pointer optionals have a C-compatible layout."
        | _ => layoutScalar value

def validatePointer : Nat → Ty → LayoutM Unit
  | 0, _ => reject "Invalid native pointer shape."
  | room + 1, value =>
    match value.symbol, value.arguments with
    | none, [element] =>
      if value.elementCount ≠ 0 then reject "Invalid native pointer shape."
      else validatePointee room element true
    | _, _ => reject "Invalid native pointer shape."

def validatePointee : Nat → Ty → Bool → LayoutM Unit
  | 0, _, _ => reject "Native pointer element exceeds 128 nested types."
  | room + 1, element, allowVoid =>
    match element.tag with
    | .void =>
      if allowVoid = false ∨ element.symbol.isSome ∨ element.arguments.isEmpty = false ∨
          element.elementCount ≠ 0 then
        reject "Invalid void pointer element."
      else
        return
    | .nativeRecord => do
      let _ ← declaration records element
    | .fixedArray =>
      match element.symbol, element.arguments with
      | none, [argument] =>
        if element.elementCount = 0 then reject "Invalid fixed native array."
        else validatePointee room argument false
      | _, _ => reject "Invalid fixed native array."
    | _ => do
      let _ ← layout room element

end

/-- The calls of `layout` that one object gets, each for a record and at depth zero. -/
def layoutEach : List SymbolId → LayoutM (List NativeLayout)
  | [] => return []
  | record :: rest => do
    let first ← layout records 128 { tag := .nativeRecord, symbol := some record }
    let others ← layoutEach rest
    return first :: others

end

end Neri.Codegen
