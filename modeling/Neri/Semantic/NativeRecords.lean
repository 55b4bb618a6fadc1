import Neri.Lib.AggregateLayout
import Neri.Semantic.NativeTypes

/-!
# Layout of native records (`native_records.hk`, `native_record.hk`, `native_field.hk`)

The front end lays the records of a module out one after another, and lays a record out earlier where
a field of another one needs it. What a record object remembers of its layout is kept apart from its
declaration. Depths are counted down: `room` is `128 - depth`.
-/

namespace Neri.Semantic

/-- `NativeField`, without the offset. -/
structure NativeField where
  name : String
  typeName : NativeTypeName
  syntaxNode : Int := -1
  deriving Repr

/-- `NativeRecord`, without its layout. -/
structure NativeRecord where
  name : String
  unionType : Bool
  syntaxNode : Int := -1
  fields : List NativeField
  deriving Repr

namespace NativeTypeName

mutual

def recordNames : NativeTypeName → List String
  | .record name => [name]
  | .cFunction result parameters => result.recordNames ++ recordNamesAll parameters
  | .optional inner | .array inner | .pointer inner | .fixedArray inner _ => inner.recordNames
  | _ => []

def recordNamesAll : List NativeTypeName → List String
  | [] => []
  | first :: rest => first.recordNames ++ recordNamesAll rest

end

end NativeTypeName

/-- The records of a module in the order of their declarations. The parser gives each a name,
`registerNativeRecordNames` refuses a second record of one name, and `semanticResolveType` finds the
record of every record type. -/
structure NativeDeclarations where
  records : List NativeRecord
  named : ∀ record ∈ records, record.name ≠ ""
  distinct : (records.map NativeRecord.name).Nodup
  resolved : ∀ record ∈ records, ∀ field ∈ record.fields,
    ∀ name ∈ field.typeName.recordNames, name ∈ records.map NativeRecord.name

namespace NativeDeclarations

def findRecord (declarations : NativeDeclarations) (name : String) : Option NativeRecord :=
  declarations.records.find? (·.name == name)

end NativeDeclarations

inductive LayoutState where
  | pending
  | inProgress
  | complete
  | failed
  deriving DecidableEq, Repr

/-- What a record and its fields hold of the layout: `offsets` are those of the fields that were
reached. -/
structure RecordLayout where
  layoutState : LayoutState := .pending
  size : Nat := 0
  alignment : Nat := 1
  offsets : List Nat := []
  deriving DecidableEq, Repr

structure NativeDiagnostic where
  code : String
  node : Int
  message : String
  deriving DecidableEq, Repr

/-- What the layout reads and changes of the binder. `checkpoints` counts the calls of
`checkpoint`. -/
structure NativeBinder where
  layouts : String → RecordLayout := fun _ => {}
  diagnostics : List NativeDiagnostic := []
  checkpoints : Nat := 0

abbrev BinderM := StateM NativeBinder

/-- `maximum_size` of both sides: one GiB. -/
def nativeSizeLimit : Nat := 1073741824

def report (code : String) (node : Int) (message : String) : BinderM Unit :=
  modify fun binder =>
    { binder with
      diagnostics := binder.diagnostics ++ [{ code := code, node := node, message := message }] }

/-- `checkpoint`: `proceed` answers the calls in their order. -/
def checkpoint (proceed : Nat → Bool) : BinderM Bool := do
  let binder ← get
  set { binder with checkpoints := binder.checkpoints + 1 }
  return proceed binder.checkpoints

def recordLayout (name : String) : BinderM RecordLayout := do
  return (← get).layouts name

def updateRecord (name : String) (change : RecordLayout → RecordLayout) : BinderM Unit :=
  modify fun binder =>
    { binder with layouts := Function.update binder.layouts name (change (binder.layouts name)) }

/-- `beginLayout`, `failLayout` and `finishLayout`. -/
def setLayoutState (name : String) (state : LayoutState) : BinderM Unit :=
  updateRecord name fun layout => { layout with layoutState := state }

def nativeAlign (value alignment : Nat) : Nat :=
  (value + alignment - 1) / alignment * alignment

/-- What the loop of `layoutNativeRecord` does with a field of the given alignment and size. -/
def RecordLayout.addField (unionType : Bool) (alignment size : Nat) (record : RecordLayout) :
    RecordLayout :=
  let raised := { record with alignment := if alignment > record.alignment then alignment
                                           else record.alignment }
  if unionType then
    { raised with offsets := raised.offsets ++ [0]
                  size := if size > raised.size then size else raised.size }
  else
    let offset := nativeAlign raised.size alignment
    { raised with offsets := raised.offsets ++ [offset], size := offset + size }

/-- The functions of one depth: both take a type and the node that reports are made at. -/
structure TypeLayouts where
  nativeTypeAlignment : NativeTypeName → Int → BinderM Nat
  nativeTypeSize : NativeTypeName → Int → BinderM Nat

section

variable (proceed : Nat → Bool)

/-- The loop of `layoutNativeRecord`. -/
def layoutFields (layouts : TypeLayouts) (record : NativeRecord) : List NativeField → BinderM Bool
  | [] => return true
  | field :: rest => do
    if !(← checkpoint proceed) then
      return false
    let alignment ← layouts.nativeTypeAlignment field.typeName field.syntaxNode
    let size ← layouts.nativeTypeSize field.typeName field.syntaxNode
    if alignment == 0 || size == 0 || size > nativeSizeLimit then
      if size > 0 then
        report "NR231" field.syntaxNode "Native layout exceeds one GiB."
      setLayoutState record.name .failed
      return false
    updateRecord record.name (RecordLayout.addField record.unionType alignment size)
    layoutFields layouts record rest

/-- `layoutNativeRecord`; `layouts` are the functions of its depth and `exhausted` says that this
is at least 128. -/
def layoutNativeRecordWith (layouts : TypeLayouts) (exhausted : Bool) (record : NativeRecord) :
    BinderM Bool := do
  if !(← checkpoint proceed) then
    return false
  let state := (← recordLayout record.name).layoutState
  if state = .complete then
    return true
  if state = .failed then
    return false
  if state = .inProgress ∨ exhausted = true then
    report "NR232" record.syntaxNode
      "Native layout is recursive by value or exceeds 128 nested types."
    setLayoutState record.name .failed
    return false
  setLayoutState record.name .inProgress
  if record.fields.isEmpty then
    report "NR231" record.syntaxNode "A native struct or union requires at least one field."
    setLayoutState record.name .failed
    return false
  if !(← layoutFields proceed layouts record record.fields) then
    return false
  updateRecord record.name fun layout =>
    { layout with size := nativeAlign layout.size layout.alignment }
  if (← recordLayout record.name).size > nativeSizeLimit then
    report "NR231" record.syntaxNode "Native layout exceeds one GiB."
    setLayoutState record.name .failed
    return false
  setLayoutState record.name .complete
  return true

variable (declarations : NativeDeclarations)

/-- `nativeTypeAlignment` below the greatest depth. `inner` are the functions one level deeper and
`layoutInner` is `layoutNativeRecord` there. -/
def alignmentBelow (inner : TypeLayouts) (layoutInner : NativeRecord → BinderM Bool)
    (typeName : NativeTypeName) (node : Int) : BinderM Nat :=
  match typeName with
  | .cFunction _ _ => return 8
  | .optional (.cFunction _ _) => return 8
  | .fixedArray element count =>
    if count < 1 ∨ count > nativeSizeLimit then do
      report "NR231" node "A fixed native array requires a positive bounded element count."
      return 0
    else
      inner.nativeTypeAlignment element node
  | .pointer element | .optional (.pointer element) =>
    if !element.pointerElement.isNativeElement then do
      report "NR231" node "Native fields cannot point to managed types."
      return 0
    else
      return 8
  | .bool | .numeric .byte => return 1
  | .numeric .int32 | .numeric .uint32 | .numeric .float32 => return 4
  | .numeric .int | .numeric .uint64 | .numeric .float => return 8
  | .record name => do
    match declarations.findRecord name with
    | some record =>
      if ← layoutInner record then
        return (← recordLayout record.name).alignment
      return 0
    | none => noLayout
  | _ => noLayout
where
  noLayout : BinderM Nat := do
    report "NR231" node ("Type '" ++ typeName.text ++ "' has no C-compatible inline layout.")
    return 0

/-- `nativeTypeSize`; `alignmentHere` is `nativeTypeAlignment` of the same depth. -/
def sizeFrom (inner : TypeLayouts) (alignmentHere : NativeTypeName → Int → BinderM Nat)
    (typeName : NativeTypeName) (node : Int) : BinderM Nat := do
  let alignment ← alignmentHere typeName node
  if alignment == 0 then
    return 0
  match typeName with
  | .fixedArray element count =>
    let size ← inner.nativeTypeSize element node
    if size > nativeSizeLimit / count then
      report "NR231" node "Native array layout exceeds one GiB."
      return 0
    return size * count
  | .record name =>
    match declarations.findRecord name with
    | some record => return (← recordLayout record.name).size
    | none => return alignment
  | _ => return alignment

/-- The functions with `room` levels left. -/
def typeLayouts : Nat → TypeLayouts
  | 0 =>
    let tooDeep (_ : NativeTypeName) (node : Int) : BinderM Nat := do
      report "NR232" node "Native layout exceeds 128 nested types."
      return 0
    { nativeTypeAlignment := tooDeep
      nativeTypeSize := tooDeep }
  | room + 1 =>
    let inner := typeLayouts room
    let alignmentHere := alignmentBelow declarations inner
      (layoutNativeRecordWith proceed inner (room == 0))
    { nativeTypeAlignment := alignmentHere
      nativeTypeSize := sizeFrom declarations inner alignmentHere }

/-- The greatest depth of both sides. -/
def nativeDepthLimit : Nat := 128

def layoutNativeRecord (record : NativeRecord) (depth : Nat) : BinderM Bool :=
  layoutNativeRecordWith proceed (typeLayouts proceed declarations (nativeDepthLimit - depth))
    (decide (depth ≥ nativeDepthLimit)) record

/-- The last loop of `registerNativeRecordFields`. -/
def layoutNativeRecords : List NativeRecord → BinderM Unit
  | [] => return
  | record :: rest => do
    if ← checkpoint proceed then
      let _ ← layoutNativeRecord proceed declarations record 0
      layoutNativeRecords rest

/-- The binder behind `registerNativeRecordFields`. -/
def registerNativeRecordFields : NativeBinder :=
  (layoutNativeRecords proceed declarations declarations.records {}).2

/-- The front end lays every record out and reports nothing. -/
def laysOut : Bool :=
  let binder := registerNativeRecordFields proceed declarations
  binder.diagnostics.isEmpty &&
    declarations.records.all fun record => (binder.layouts record.name).layoutState == .complete

end

end Neri.Semantic
