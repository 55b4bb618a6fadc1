import Neri.Ir.Module
import Neri.Lib.Grouping
import Neri.Lib.Worklist
import Neri.Semantic.Model

/-!
# Compilation units (`compiler/ir/partition.hk`)

A module is split into units that are compiled apart: the definitions of an owner fall into two buckets
by a hash of their source, and what the program itself creates goes to the first bucket of the
consumer. Each unit then gets the globals and imports that its functions use and retained declarations
of what else it refers to (`retainDeclarations` in `compiler/ir/lowering.hk`).
-/

namespace Neri.Ir

open Neri.Semantic Worklist

def IrFeatureSet.require (features : IrFeatureSet) (feature : IrFeature) : IrFeatureSet :=
  { requires := fun other => other = feature || features.requires other }

def IrFeatureSet.merge (features other : IrFeatureSet) : IrFeatureSet :=
  { requires := fun feature => features.requires feature || other.requires feature }

/-- A `require…` that is made under a condition. -/
def IrFeatureSet.requireIf (features : IrFeatureSet) (condition : Bool) (feature : IrFeature) :
    IrFeatureSet :=
  if condition then features.require feature else features

/-! ## Keys -/

/-- The buckets of an owner. The bucket of a source does not depend on how many sources there are. -/
def irPartitionBucketCount : Nat := 2

/-- The hash of a source identity, reduced after each byte. -/
def irPartitionBucket (sourceId : String) : Nat :=
  sourceId.toByteArray.data.toList.foldl
    (fun hash byte => (hash * 31 + byte.toNat) % irPartitionBucketCount) 0

/-- The key of a unit. The length before the owner keeps the keys of two owners apart. -/
def irPartitionKey (owner : String) (bucket : Nat) : String :=
  toString owner.utf8ByteSize ++ ":" ++ owner ++ ":" ++ toString bucket

/-! ## Copies -/

/-- `IrFunction.addDebugLocal`: a local that is recorded already is not recorded again. -/
def addDebugLocal (locals : List IrDebugLocal) (added : IrDebugLocal) : List IrDebugLocal :=
  if locals.any (· == added) then locals else locals ++ [added]

/-- `irPartitionFunction`: the link metadata is not copied. -/
def irPartitionFunction (value : IrFunction) : IrFunction :=
  { value with
    retained := false
    debugLocals := value.debugLocals.foldl addDebugLocal []
    linkReferences := none
    linkRuntimeFeatures := 0 }

/-- The fields and methods are shared with the original class. -/
def irPartitionClass (value : IrClass) : IrClass := { value with retained := false }

/-! ## Owners -/

/-- A table from the identities of sources to their owners. -/
abbrev SourceOwners := List (String × String)

/-- The owner of a location; an owner without a name is none. -/
def irPartitionOwner (location : IrLocation) (owners : SourceOwners) : Option String :=
  if location.present then
    match owners.lookup location.sourceId with
    | some owner => if owner = "" then none else some owner
    | none => none
  else none

/-- A class goes by its declaration source where it has one, and then an empty owner counts. -/
def irPartitionClassOwner (value : IrClass) (owners : SourceOwners) : Option String :=
  if value.declarationSourceId ≠ "" then owners.lookup value.declarationSourceId
  else irPartitionOwner value.location owners

/-- `irPartitionClassConsumer`: a class that the program itself creates. -/
def irPartitionClassConsumer (semantic : SemanticModel) (name : String) : Bool :=
  (semantic.findClass name).any fun value =>
    value.genericOrigin ≥ 0 || value.isClosure || value.syntaxNode < 0

/-- A method of a class that the program itself creates, or an instance of a generic function. -/
def irPartitionFunctionConsumer (semantic : SemanticModel) (value : IrFunction) : Bool :=
  (value.declaringClass.any fun symbol => irPartitionClassConsumer semantic symbol.name) ||
    (semantic.findFunction value.symbol.name).any (·.genericOrigin ≥ 0)

def irPartitionClassByName (module_ : IrModule) (name : String) : Option IrClass :=
  module_.classes.find? (·.symbol.name == name)

/-- The source of a class: that of its declaration, or else that of its location. -/
def classSourceId (value : IrClass) : String :=
  if value.declarationSourceId = "" && value.location.present then value.location.sourceId
  else value.declarationSourceId

/-- `main` without parameters and result. -/
def isEntryFunction (function : IrFunction) : Bool :=
  !function.retained && function.symbol.kind == .function && function.symbol.name == "main" &&
    function.kind == .function && function.parameterTypes.isEmpty &&
    function.resultType == .scalar .void

/-- `irPartitionConsumerSourceId`: the source of the one entry function, if the consumer owns it. -/
def irPartitionConsumerSourceId (module_ : IrModule) (owners : SourceOwners)
    (consumerOwner : String) : String :=
  let entries := module_.functions.filter isEntryFunction
  if entries.any fun function => irPartitionOwner function.location owners ≠ some consumerOwner then
    ""
  else
    match entries with
    | [function] => function.location.sourceId
    | _ => ""

/-! ## The places of definitions -/

/-- What decides where definitions go. -/
structure PartitionContext where
  module_ : IrModule
  semantic : SemanticModel
  owners : SourceOwners
  consumerOwner : String
  entrySourceId : String

namespace PartitionContext

/-- The owner and the bucket of a definition. -/
structure Place where
  owner : String
  bucket : Nat
  deriving DecidableEq, Repr

/-- The place of a class. One without an owner goes to the consumer. -/
def classPlace (context : PartitionContext) (value : IrClass) : Place :=
  let declaredOwner := irPartitionClassOwner value context.owners
  let consumerClass := irPartitionClassConsumer context.semantic value.symbol.name
  let owner := match declaredOwner with
    | some owner => if consumerClass then context.consumerOwner else owner
    | none => context.consumerOwner
  let sourceId := classSourceId value
  { owner
    bucket :=
      if owner = context.consumerOwner &&
          (consumerClass || declaredOwner.isNone || sourceId = context.entrySourceId) then 0
      else irPartitionBucket sourceId }

/-- The owner and the source of a function, and whether the program itself creates it. A method goes by
its class; without its class there is no partition. -/
def functionOrigin (context : PartitionContext) (value : IrFunction) :
    Option (Option String × String × Bool) :=
  match value.declaringClass with
  | none => some (irPartitionOwner value.location context.owners, value.location.sourceId, false)
  | some symbol =>
    match irPartitionClassByName context.module_ symbol.name with
    | none => none
    | some declaring =>
      if declaring.retained then
        some (some context.consumerOwner, value.location.sourceId, true)
      else if irPartitionClassConsumer context.semantic symbol.name then
        some (some context.consumerOwner, classSourceId declaring, true)
      else
        some (irPartitionClassOwner declaring context.owners, classSourceId declaring, false)

/-- The place of a function; without an owner there is no partition. -/
def functionPlace (context : PartitionContext) (value : IrFunction) : Option Place := do
  let (declaredOwner, sourceId, consumerOrigin) ← context.functionOrigin value
  let consumerFunction := irPartitionFunctionConsumer context.semantic value
  let owner ← if consumerFunction then some context.consumerOwner else declaredOwner
  return { owner
           bucket :=
             if owner = context.consumerOwner &&
                 (consumerOrigin || consumerFunction || sourceId = context.entrySourceId) then 0
             else irPartitionBucket sourceId }

end PartitionContext

/-! ## Units -/

/-- A module that is compiled apart. The entry unit is the first bucket of the consumer. -/
structure IrCompilationUnit where
  module_ : IrModule
  owner : String
  key : String
  entry : Bool

/-- A unit without definitions. Only the entry unit takes over all the features of the module. -/
def irPartitionNewUnit (module_ : IrModule) (owner key : String) (entry : Bool) :
    IrCompilationUnit :=
  let original := module_.requiredFeatures
  let empty : IrFeatureSet := { requires := fun _ => false }
  let features := if entry then empty.merge original
    else empty.requireIf (original.requires .debugScopes) .debugScopes
  { module_ :=
      { id := module_.id
        requiredFeatures :=
          ((features.require .retainedModules).requireIf (original.requires .automaticRegions)
            .automaticRegions).requireIf (original.requires .cInterop) .cInterop }
    owner, key, entry }

/-- Copies a source to a unit, unless the unit has it already. -/
def irPartitionAddSource (original unit : IrModule) (sourceId : String) : IrModule :=
  if sourceId = "" || unit.sources.any (·.id == sourceId) then unit
  else
    match original.sources.find? (·.id == sourceId) with
    | some source => { unit with sources := unit.sources ++ [source] }
    | none => unit

def irPartitionNeedLocation (original unit : IrModule) (location : IrLocation) : IrModule :=
  if location.present then irPartitionAddSource original unit location.sourceId else unit

/-- The locations of a function, in the order in which `irPartitionNeedFunctionLocations` visits
them. -/
def functionLocations (function : IrFunction) : List IrLocation :=
  function.location ::
    function.blocks.flatMap (fun block =>
      block.parameters.map (·.location) ++ block.instructions.map (·.location) ++
        (block.terminator.map (·.location)).toList) ++
    function.debugScopes.map (·.location) ++ function.debugLocals.map (·.location)

/-- The copy of a class, with the sources of its declaration and of its locations. -/
def addClassDefinition (original unit : IrModule) (value : IrClass) : IrModule :=
  let unit := { unit with classes := unit.classes ++ [irPartitionClass value] }
  (value.location :: value.fields.map (·.location) ++ value.methods.map (·.location)).foldl
    (irPartitionNeedLocation original) (irPartitionAddSource original unit value.declarationSourceId)

/-- The copy of a function, with the sources of its locations. -/
def addFunctionDefinition (original unit : IrModule) (value : IrFunction) : IrModule :=
  let copied := irPartitionFunction value
  (functionLocations copied).foldl (irPartitionNeedLocation original)
    { unit with functions := unit.functions ++ [copied] }

/-- A class or a function, at its place. -/
inductive Definition where
  | ofClass (place : PartitionContext.Place) (value : IrClass)
  | ofFunction (place : PartitionContext.Place) (value : IrFunction)

def Definition.place : Definition → PartitionContext.Place
  | ofClass place _ => place
  | ofFunction place _ => place

def PartitionContext.Place.key (place : PartitionContext.Place) : String :=
  irPartitionKey place.owner place.bucket

/-- How definitions make units: a definition joins the unit of its key. -/
def unitScheme (context : PartitionContext) :
    Grouping.Scheme Definition String IrCompilationUnit where
  itemKey := fun definition => definition.place.key
  groupKey := IrCompilationUnit.key
  start := fun definition =>
    irPartitionNewUnit context.module_ definition.place.owner definition.place.key
      (definition.place.owner = context.consumerOwner && definition.place.bucket = 0)
  join := fun definition unit =>
    { unit with
      module_ := match definition with
        | .ofClass _ value => addClassDefinition context.module_ unit.module_ value
        | .ofFunction _ value => addFunctionDefinition context.module_ unit.module_ value }

/-! ## Globals and imports -/

/-- The names of globals and imports that the functions of a unit need. -/
structure NeededNames where
  globals : List String := []
  imports : List String := []
  features : IrFeatureSet

/-- One instruction of `irPartitionNeedDependencies`. -/
def needInstruction (needed : NeededNames) (instruction : IrInstruction) : NeededNames :=
  let globals := if instruction.constantKind = some .stringGlobal then
      enqueue needed.globals instruction.constantValue
    else needed.globals
  let features := ((needed.features.requireIf (instruction.opcode = .taskGenerate)
    .scopedTasks).requireIf (instruction.opcode = .workerEntry) .isolatedWorkers).requireIf
      (instruction.opcode = .arrayGenerate) .sequentialArrays
  match instruction.symbol with
  | none => { needed with globals, features }
  | some symbol =>
    if symbol.kind = .globalDecl then
      { needed with globals := enqueue globals symbol.name, features }
    else { needed with globals, imports := enqueue needed.imports symbol.name, features }

def irPartitionNeedDependencies (needed : NeededNames) (function : IrFunction) : NeededNames :=
  (function.blocks.flatMap (·.instructions)).foldl needInstruction needed

/-- The globals and imports that the functions of a unit need. The entry unit has all the imports. -/
def irPartitionCopyDependencies (unit : IrCompilationUnit) (original : IrModule) : IrModule :=
  let needed := (unit.module_.functions.filter (!·.retained)).foldl irPartitionNeedDependencies
    { features := unit.module_.requiredFeatures }
  let globals := original.globals.filter fun value => needed.globals.contains value.symbol.name
  let imports := original.imports.filter fun value =>
    unit.entry || needed.imports.contains value.symbol.name
  { unit.module_ with
    globals := unit.module_.globals ++ globals.map ({ · with location := irNoLocation })
    imports := unit.module_.imports ++ imports.map ({ · with location := irNoLocation })
    requiredFeatures :=
      ((needed.features.requireIf (!globals.isEmpty) .nativeStrings).requireIf (!globals.isEmpty)
        .stringData).requireIf (imports.any (·.nativeLibrary ≠ "")) .nativeLibraries }

/-! ## Retained declarations -/

/-- What a declaration refers to. -/
inductive Reference where
  | toFunction (name : String)
  | toClass (name : String)
  | toType (typeName : IrType)

mutual

/-- `requireType`: the features that a type needs. -/
def requireType (features : IrFeatureSet) : IrType → IrFeatureSet
  | .cFunction result parameters =>
    requireTypes (requireType (features.require .cInterop) result) parameters
  | .scalar .int32 | .scalar .uint32 | .scalar .uint64 | .scalar .float32 =>
    features.require .extendedScalars
  | .scalar .string => features.require .nativeStrings
  | .nativeRecord _ => features.require .nativeRecords
  | .fixedArray element _ => requireType (features.require .nativeRecords) element
  | .array element | .optional element | .pointer element => requireType features element
  | .scalar _ | .classType _ | .borrowCapability _ => features

/-- The components of a C function type. -/
def requireTypes (features : IrFeatureSet) : List IrType → IrFeatureSet
  | [] => features
  | first :: rest => requireTypes (requireType features first) rest

end

/-- The names that the unit has to declare, and the features that their types need. -/
structure RetainedNames where
  functions : List String := []
  classes : List String := []
  features : IrFeatureSet

/-- A name that is not empty, once. -/
def addRetainedName (names : List String) (name : String) : List String :=
  if name = "" then names else enqueue names name

mutual

/-- `addRetainedType`. The element of a borrow capability is not looked at: it stands beside the pointer
to the element. -/
def addRetainedType (s : RetainedNames) : IrType → RetainedNames
  | .classType name =>
    { s with classes := addRetainedName s.classes name
             features := requireType s.features (.classType name) }
  | .nativeRecord name =>
    { s with classes := addRetainedName s.classes name
             features := requireType s.features (.nativeRecord name) }
  | .fixedArray element count =>
    addRetainedType { s with features := requireType s.features (.fixedArray element count) } element
  | .cFunction result parameters =>
    addRetainedTypes (addRetainedType
      { s with features := requireType s.features (.cFunction result parameters) } result) parameters
  | .array element => addRetainedType { s with features := requireType s.features (.array element) }
      element
  | .optional element => addRetainedType
      { s with features := requireType s.features (.optional element) } element
  | .pointer element => addRetainedType
      { s with features := requireType s.features (.pointer element) } element
  | .scalar kind => { s with features := requireType s.features (.scalar kind) }
  | .borrowCapability element =>
    { s with features := requireType s.features (.borrowCapability element) }

/-- The components of a C function type. -/
def addRetainedTypes (s : RetainedNames) : List IrType → RetainedNames
  | [] => s
  | first :: rest => addRetainedTypes (addRetainedType s first) rest

end

def addReference (s : RetainedNames) : Reference → RetainedNames
  | .toFunction name => { s with functions := addRetainedName s.functions name }
  | .toClass name => { s with classes := addRetainedName s.classes name }
  | .toType typeName => addRetainedType s typeName

/-- The base, the types of the fields and the methods of a class, with the slots that they fill. -/
def classReferences (value : IrClass) : List Reference :=
  (value.baseSymbol.map fun base => Reference.toClass base.name).toList ++
    value.fields.map (fun field => .toType field.typeName) ++
    value.methods.flatMap fun method => .toFunction method.functionSymbol.name ::
      (method.dispatchSlot.map fun slot => Reference.toFunction slot.name).toList

/-- The types of an instruction, and the class or function that its symbol names. -/
def instructionReferences (instruction : IrInstruction) : List Reference :=
  .toType instruction.resultType ::
    (if instruction.secondResultId ≥ 0 then (instruction.secondResultType.map .toType).toList else []) ++
    instruction.typeArguments.map .toType ++
    match instruction.symbol with
    | none => []
    | some symbol =>
      match symbol.kind with
      | .classDecl => [.toClass symbol.name]
      | .method | .function => [.toFunction symbol.name]
      | _ => []

/-- The callees and the signature of a function, its class, and what stands in its blocks. -/
def functionReferences (value : IrFunction) : List Reference :=
  value.callees.map .toFunction ++ .toType value.resultType :: value.parameterTypes.map .toType ++
    (value.declaringClass.map fun owner => Reference.toClass owner.name).toList ++
    value.blocks.flatMap fun block =>
      block.parameters.map (fun parameter => .toType parameter.typeName) ++
        block.instructions.flatMap instructionReferences

def importReferences (value : IrImport) : List Reference :=
  .toType value.resultType :: value.parameterTypes.map .toType

/-- Everything that a module refers to, in the order in which `lowerRetainedModule` visits it. -/
def moduleReferences (target : IrModule) : List Reference :=
  target.classes.flatMap classReferences ++
    target.records.flatMap (fun record => record.fields.map fun field => .toType field.typeName) ++
    target.imports.flatMap importReferences ++ target.functions.flatMap functionReferences ++
    [.toType target.sessionSourceType, .toType target.sessionTargetType]

/-- The first function of a name, from the module to its oldest parent. -/
def findRetainedFunction (chain : List IrModule) (name : String) : Option IrFunction :=
  (chain.flatMap (·.functions)).find? (·.symbol.name == name)

def findRetainedClass (chain : List IrModule) (name : String) : Option IrClass :=
  (chain.flatMap (·.classes)).find? (·.symbol.name == name)

def findRetainedRecord (chain : List IrModule) (name : String) : Option IrNativeRecord :=
  (chain.flatMap (·.records)).find? (·.symbol.name == name)

/-- The references of a retained function: those of its signature. -/
def signatureReferences (value : IrFunction) : List Reference :=
  .toType value.resultType ::
    (value.declaringClass.map fun owner => Reference.toClass owner.name).toList ++
    value.parameterTypes.map .toType

/-- The references of a retained class, or of a record of that name. -/
def declarationReferences (chain : List IrModule) (name : String) : List Reference :=
  match findRetainedClass chain name with
  | some value =>
    (value.baseSymbol.map fun base => Reference.toClass base.name).toList ++
      value.fields.map (fun field => .toType field.typeName) ++
      value.methods.map fun method => .toFunction method.functionSymbol.name
  | none =>
    match findRetainedRecord chain name with
    | some value => value.fields.map fun field => .toType field.typeName
    | none => []

/-- The loop over the functions of a pass; it adds no functions. -/
def closeFunctions (chain : List IrModule) (s : RetainedNames) : RetainedNames :=
  s.functions.foldl (fun s name => match findRetainedFunction chain name with
    | some value => (signatureReferences value).foldl addReference s
    | none => s) s

/-- The loop over the classes of a pass; it also visits the classes that it adds. -/
def closeClasses (chain : List IrModule) : Nat → Nat → RetainedNames → RetainedNames
  | 0, _, s => s
  | fuel + 1, cursor, s =>
    match s.classes[cursor]? with
    | none => s
    | some name =>
      closeClasses chain fuel (cursor + 1) ((declarationReferences chain name).foldl addReference s)

/-- The passes, until one adds no name. -/
def closeNames (chain : List IrModule) (bound : Nat) : Nat → RetainedNames → RetainedNames
  | 0, s => s
  | fuel + 1, s =>
    let next := closeClasses chain bound 0 (closeFunctions chain s)
    if next.functions.length ≠ s.functions.length || next.classes.length ≠ s.classes.length then
      closeNames chain bound fuel next
    else next

mutual

/-- The names of classes and records in a type. -/
def typeReferences : IrType → List String
  | .classType name | .nativeRecord name => [name]
  | .fixedArray element _ | .array element | .optional element | .pointer element =>
    typeReferences element
  | .cFunction result parameters => typeReferences result ++ typesReferences parameters
  | .scalar _ | .borrowCapability _ => []

/-- The names in the components of a C function type. -/
def typesReferences : List IrType → List String
  | [] => []
  | first :: rest => typeReferences first ++ typesReferences rest

end

/-- The functions that a reference names. -/
def Reference.functions : Reference → List String
  | toFunction name => [name]
  | _ => []

/-- The classes and records that a reference names. -/
def Reference.classes : Reference → List String
  | toClass name => [name]
  | toType typeName => typeReferences typeName
  | _ => []

/-- All references that can come up: those of the unit and those of the declarations of the chain. -/
def possibleReferences (target : IrModule) (chain : List IrModule) : List Reference :=
  moduleReferences target ++ (chain.flatMap (·.functions)).flatMap signatureReferences ++
    (chain.flatMap (·.classes)).flatMap classReferences ++
    (chain.flatMap (·.records)).flatMap fun record =>
      record.fields.map fun field => .toType field.typeName

/-- A bound on the number of names that can come up. -/
def nameCount (target : IrModule) (chain : List IrModule) : Nat :=
  ((possibleReferences target chain).flatMap fun reference =>
    reference.functions ++ reference.classes).length

/-- The names that a unit refers to, closed under the references of their declarations. -/
def retainedNames (target : IrModule) (chain : List IrModule) : RetainedNames :=
  closeNames chain (nameCount target chain) (2 * nameCount target chain + 1)
    ((moduleReferences target).foldl addReference { features := target.requiredFeatures })

/-- Adds the retained declaration of a class that the unit does not define. -/
def retainClass (chain : List IrModule) (target : IrModule) (name : String) : IrModule :=
  match findRetainedClass chain name with
  | none => target
  | some value =>
    if target.classes.any fun other => other.symbol.name == value.symbol.name && !other.retained then
      target
    else
      { target with
        classes := target.classes ++
          [{ symbol := value.symbol
             baseSymbol := value.baseSymbol
             access := value.access
             retained := true
             location := irNoLocation
             fields := value.fields.map ({ · with location := irNoLocation })
             methods := value.methods.map ({ · with location := irNoLocation }) }] }

/-- Adds the declaration of a record that the unit does not have. -/
def retainRecord (chain : List IrModule) (target : IrModule) (name : String) : IrModule :=
  match findRetainedRecord chain name with
  | none => target
  | some value =>
    if target.records.any (·.symbol.name == value.symbol.name) then target
    else
      { target with
        records := target.records ++
          [{ value with fields := value.fields.map ({ · with location := irNoLocation }) }]
        requiredFeatures := target.requiredFeatures.require .nativeRecords }

/-- Adds the retained declaration of a function that the unit does not have. -/
def retainFunction (chain : List IrModule) (target : IrModule) (name : String) : IrModule :=
  match findRetainedFunction chain name with
  | none => target
  | some value =>
    if value.symbol.name = "__neri_session_entry" ||
        target.functions.any (·.symbol.name == value.symbol.name) then target
    else
      { target with
        functions := target.functions ++
          [{ symbol := value.symbol
             parameterTypes := value.parameterTypes
             resultType := value.resultType
             kind := value.kind
             effects := value.effects
             localEffects := value.effects
             unsafeCall := value.unsafeCall
             retained := true
             cExportSymbol := value.cExportSymbol
             declaringClass := value.declaringClass
             dispatchSlot := value.dispatchSlot
             location := irNoLocation
             linkReferences := value.linkReferences
             linkRuntimeFeatures := value.linkRuntimeFeatures
             parallelUnsafe := value.parallelUnsafe }]
        requiredFeatures := target.requiredFeatures.requireIf (value.cExportSymbol ≠ "") .cInterop }

/-- Declares in a unit what it refers to: classes, then records, then functions. -/
def lowerRetainedModule (chain : List IrModule) (target : IrModule) : IrModule :=
  let names := retainedNames target chain
  let target := { target with requiredFeatures := names.features }
  let target := names.classes.foldl (retainClass chain) target
  let target := names.classes.foldl (retainRecord chain) target
  names.functions.foldl (retainFunction chain) target

/-! ## The partition -/

/-- The units with their definitions. A function without a place ends the partition. -/
def placeDefinitions (context : PartitionContext) : Option (List IrCompilationUnit) :=
  let consumer := irPartitionNewUnit context.module_ context.consumerOwner
    (irPartitionKey context.consumerOwner 0) true
  let units := (context.module_.classes.filter (!·.retained)).foldl (fun units value =>
    (unitScheme context).insert units (.ofClass (context.classPlace value) value)) [consumer]
  (context.module_.functions.filter (!·.retained)).foldlM (fun units value => do
    let place ← context.functionPlace value
    return (unitScheme context).insert units (.ofFunction place value)) units

/-- The checks of `irPartitionModule` before it places anything. -/
def partitionContext (module_ : IrModule) (semantic : SemanticModel)
    (sourceIds sourceOwners : List String) (consumerOwner : String) : Option PartitionContext :=
  if sourceIds.length ≠ sourceOwners.length || consumerOwner = "" || module_.sessionEntry.isSome then
    none
  -- A source that is listed twice ends the partition.
  else if !decide sourceIds.Nodup then none
  else
    let owners := sourceIds.zip sourceOwners
    let entrySourceId := irPartitionConsumerSourceId module_ owners consumerOwner
    if entrySourceId = "" then none
    else some { module_, semantic, owners, consumerOwner, entrySourceId }

/-- `irPartitionModule`, for a module and its chain of retained parents. -/
def irPartitionModule (module_ : IrModule) (retainedParents : List IrModule)
    (semantic : SemanticModel) (sourceIds sourceOwners : List String) (consumerOwner : String) :
    Option (List IrCompilationUnit) := do
  let context ← partitionContext module_ semantic sourceIds sourceOwners consumerOwner
  let units ← placeDefinitions context
  return units.map fun unit =>
    { unit with
      module_ := lowerRetainedModule (module_ :: retainedParents)
        (irPartitionCopyDependencies unit module_) }

/-! ## What a unit has to be -/

/-- The globals that a function refers to, by a string constant or by a symbol. -/
def globalReferences (function : IrFunction) : List String :=
  (function.blocks.flatMap (·.instructions)).flatMap fun instruction =>
    (if instruction.constantKind = some .stringGlobal then [instruction.constantValue] else []) ++
      (instruction.symbol.filter (·.kind = .globalDecl)).toList.map (·.name)

/-- The symbols that a function refers to and that may be imports. -/
def symbolReferences (function : IrFunction) : List String :=
  (function.blocks.flatMap (·.instructions)).flatMap fun instruction =>
    (instruction.symbol.filter (·.kind ≠ .globalDecl)).toList.map (·.name)

/-- The functions that a unit compiles; the others are only declared. -/
def IrCompilationUnit.definedFunctions (unit : IrCompilationUnit) : List IrFunction :=
  unit.module_.functions.filter (!·.retained)

def IrCompilationUnit.definedClasses (unit : IrCompilationUnit) : List IrClass :=
  unit.module_.classes.filter (!·.retained)

/-- A unit declares what references name, as far as the chain declares it. -/
structure Declares (chain : List IrModule) (unit : IrModule) (references : List Reference) : Prop where
  functions : ∀ reference ∈ references, ∀ name ∈ reference.functions, name ≠ "" →
    name ≠ "__neri_session_entry" → (∃ m ∈ chain, ∃ f ∈ m.functions, f.symbol.name = name) →
    ∃ f ∈ unit.functions, f.symbol.name = name
  classes : ∀ reference ∈ references, ∀ name ∈ reference.classes, name ≠ "" →
    (∃ m ∈ chain, ∃ c ∈ m.classes, c.symbol.name = name) →
    ∃ c ∈ unit.classes, c.symbol.name = name

/-- A unit declares what its own definitions refer to. -/
structure SelfContained (module_ : IrModule) (chain : List IrModule) (unit : IrCompilationUnit) :
    Prop where
  ofFunctions : ∀ f ∈ unit.definedFunctions, Declares chain unit.module_ (functionReferences f)
  ofClasses : ∀ c ∈ unit.definedClasses, Declares chain unit.module_ (classReferences c)
  globals : ∀ f ∈ unit.definedFunctions, ∀ name ∈ globalReferences f,
    (∃ g ∈ module_.globals, g.symbol.name = name) → ∃ g ∈ unit.module_.globals, g.symbol.name = name
  imports : ∀ f ∈ unit.definedFunctions, ∀ name ∈ symbolReferences f,
    (∃ i ∈ module_.imports, i.symbol.name = name) → ∃ i ∈ unit.module_.imports, i.symbol.name = name

/-- The source that decides on the bucket of a function: a method goes by its class. -/
def PartitionContext.sourceOf (context : PartitionContext) (value : IrFunction) : Option String :=
  (context.functionOrigin value).map (·.2.1)

/-- The function exists because of the program that is compiled, not because of its source alone. -/
def PartitionContext.createdByConsumer (context : PartitionContext) (value : IrFunction) : Bool :=
  (context.functionOrigin value).any (·.2.2) || irPartitionFunctionConsumer context.semantic value

/-- Two functions of one name and class, in the same source. -/
structure SameHead (f f' : IrFunction) : Prop where
  name : f'.symbol.name = f.symbol.name
  declaringClass : f'.declaringClass = f.declaringClass
  sourceId : f'.location.sourceId = f.location.sourceId
  present : f'.location.present = f.location.present

/-- Two programs, with their entry functions in one source, that declare the same classes outside of
the changed source and agree on which of its functions are generic instances. What functions there
are may differ everywhere. -/
structure AgreesOutside (changed : String) (context context' : PartitionContext) : Prop where
  owners : context'.owners = context.owners
  consumerOwner : context'.consumerOwner = context.consumerOwner
  entrySourceId : context'.entrySourceId = context.entrySourceId
  classes : ∀ name value, irPartitionClassByName context.module_ name = some value →
    classSourceId value ≠ changed → ∃ value', irPartitionClassByName context'.module_ name =
      some value' ∧ value'.retained = value.retained ∧
      value'.declarationSourceId = value.declarationSourceId ∧ value'.location = value.location ∧
      irPartitionClassConsumer context'.semantic name = irPartitionClassConsumer context.semantic name
  generics : ∀ f ∈ context.module_.functions, f.location.sourceId ≠ changed →
    ((context'.semantic.findFunction f.symbol.name).any fun c => decide (c.genericOrigin ≥ 0)) =
      (context.semantic.findFunction f.symbol.name).any fun c => decide (c.genericOrigin ≥ 0)

end Neri.Ir
