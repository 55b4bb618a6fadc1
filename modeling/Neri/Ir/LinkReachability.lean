import Mathlib.Order.Bounds.Defs
import Neri.Abi.RuntimeFeatures
import Neri.Ir.Module
import Neri.Lib.Worklist

/-!
# Link reachability (`compiler/ir/link_reachability.hk`, `compiler/ir/link_references.hk`)

The analysis that chooses the native libraries and the runtime features of a program: from `main`, the
session entry and the exported functions it follows the names that implementations refer to. A module
comes with its chain of retained parents. The string tables are association lists that keep the first
value of a key; the table of seen names is the pending buffer.
-/

namespace Neri.Ir

open Neri.Abi Worklist Relation

/-! ## The references of a function -/

/-- `irLinkTypeReferences`: only the classes of array elements count. -/
def irLinkTypeReferences (names : List String) : IrType → List String
  | .classType name => enqueue names name
  | .array element | .optional element => irLinkTypeReferences names element
  | _ => names

def irInstructionLinkReferences (names : List String) (instruction : IrInstruction) : List String :=
  let names := match instruction.symbol with
    | some symbol => enqueue names symbol.name
    | none => names
  match instruction.opcode with
  | .arrayNew | .taskGenerate | .arrayGenerate =>
    instruction.typeArguments.foldl irLinkTypeReferences names
  | _ => names

def irFunctionLinkReferences (function : IrFunction) : List String :=
  match function.linkReferences with
  | some recorded => recorded
  | none =>
    function.blocks.foldl (fun names block =>
      block.instructions.foldl irInstructionLinkReferences names) (enqueueAll [] function.callees)

/-! ## The analysis -/

/-- The state of the analysis. -/
structure IrLinkReachability where
  nativeLibraries : List String := []
  exportedSymbols : List String := []
  runtimeFeatures : RuntimeFeatures := 0
  error : String := ""
  functions : List (String × IrFunction) := []
  classes : List (String × IrClass) := []
  imports : List (String × IrImport) := []
  pending : List String := []

/-- `StringTable.add`: the first value of a key stays. -/
def tableAdd {α : Type} (table : List (String × α)) (key : String) (value : α) :
    List (String × α) :=
  match table.lookup key with
  | some _ => table
  | none => table ++ [(key, value)]

namespace IrLinkReachability

def add (s : IrLinkReachability) (name : String) : IrLinkReachability :=
  if name = "" then s else { s with pending := enqueue s.pending name }

def importFeatures (imported : IrImport) : RuntimeFeatures :=
  match imported.kind with
  | .runtime =>
    RuntimeFeatures.mergedWith (abiRuntimeSymbolFeatures imported.linkName) imported.runtimeFeatures
  | .cAbi => abiRuntimeSymbolFeatures imported.linkName

def takeImport (s : IrLinkReachability) (imported : IrImport) : IrLinkReachability :=
  let libraries := if imported.nativeLibrary = "" then s.nativeLibraries
    else enqueue s.nativeLibraries imported.nativeLibrary
  let features := RuntimeFeatures.mergedWith s.runtimeFeatures
    (abiRuntimeSymbolFeatures imported.linkName)
  { s with
    nativeLibraries := libraries
    runtimeFeatures := match imported.kind with
      | .runtime => RuntimeFeatures.mergedWith features imported.runtimeFeatures
      | .cAbi => features }

/-- A function in the table: a retained declaration gives way to a definition and to a declaration
with recorded references. -/
def enterFunction (table : List (String × IrFunction)) (function : IrFunction) :
    List (String × IrFunction) :=
  match table.lookup function.symbol.name with
  | none => table ++ [(function.symbol.name, function)]
  | some existing =>
    if existing.retained && (function.linkReferences.isSome || !function.retained) then
      table.map fun entry => if entry.1 = function.symbol.name then (entry.1, function) else entry
    else table

def registerFunction (s : IrLinkReachability) (function : IrFunction) : IrLinkReachability :=
  let s := { s with functions := enterFunction s.functions function }
  if function.cExportSymbol = "" then s
  else
    let s := s.add function.symbol.name
    { s with exportedSymbols := enqueue s.exportedSymbols function.cExportSymbol }

def registerModule (s : IrLinkReachability) (module_ : IrModule) : IrLinkReachability :=
  let s := module_.functions.foldl registerFunction s
  { s with
    classes := module_.classes.foldl (fun table value => tableAdd table value.symbol.name value)
      s.classes
    imports := module_.imports.foldl (fun table value => tableAdd table value.symbol.name value)
      s.imports }

/-- The function of a name. Without its body and without recorded references the analysis stops. -/
def visitFunction (s : IrLinkReachability) (name : String) :
    Except IrLinkReachability IrLinkReachability :=
  match s.functions.lookup name with
  | none => .ok s
  | some value =>
    if value.blocks.isEmpty && value.linkReferences.isNone then
      .error { s with error :=
        "Missing implementation reachability metadata for '" ++ value.symbol.name ++ "'." }
    else
      .ok ((irFunctionLinkReferences value).foldl add
        { s with runtimeFeatures :=
            RuntimeFeatures.mergedWith s.runtimeFeatures value.linkRuntimeFeatures })

/-- A method of a live class: only what the virtual table holds becomes live with it. -/
def visitMethod (s : IrLinkReachability) (method : IrMethod) : IrLinkReachability :=
  if method.dispatch = .virtualDispatch then
    let s := s.add method.functionSymbol.name
    match method.dispatchSlot with
    | some slot => s.add slot.name
    | none => s
  else s

def visitClass (s : IrLinkReachability) (name : String) : IrLinkReachability :=
  match s.classes.lookup name with
  | none => s
  | some value =>
    let s := match value.baseSymbol with
      | some base => s.add base.name
      | none => s
    value.methods.foldl visitMethod s

def visitImport (s : IrLinkReachability) (name : String) : IrLinkReachability :=
  match s.imports.lookup name with
  | none => s
  | some imported => s.takeImport imported

/-- The loop over the pending names; the cursor also passes the names that are added meanwhile. -/
def drain : Nat → Nat → IrLinkReachability → Except IrLinkReachability IrLinkReachability
  | 0, _, s => .ok s
  | fuel + 1, cursor, s =>
    match s.pending[cursor]? with
    | none => .ok s
    | some name => do
      let s ← s.visitFunction name
      drain fuel (cursor + 1) ((s.visitClass name).visitImport name)

/-- The names that the virtual table of a class refers to for a method. -/
def methodLinkReferences (method : IrMethod) : List String :=
  if method.dispatch = .virtualDispatch then
    method.functionSymbol.name :: (method.dispatchSlot.map (·.name)).toList
  else []

def classLinkReferences (value : IrClass) : List String :=
  (value.baseSymbol.map (·.name)).toList ++ value.methods.flatMap methodLinkReferences

/-- A bound on the number of names that can become pending. -/
def nameBound (module_ : IrModule) (chain : List IrModule) : Nat :=
  ("main" :: (module_.sessionEntry.map (·.name)).toList ++
    chain.flatMap (fun m => m.functions.map (·.symbol.name) ++
      m.functions.flatMap irFunctionLinkReferences ++ m.classes.flatMap classLinkReferences)).length

/-- The declarations and the roots, before the loop. -/
def start (module_ : IrModule) (chain : List IrModule) : IrLinkReachability :=
  let s := (chain.foldl registerModule {}).add "main"
  match module_.sessionEntry with
  | some session => s.add session.name
  | none => s

/-- `analyze`, for a module and its chain of retained parents. -/
def analyze (module_ : IrModule) (retainedParents : List IrModule) : IrLinkReachability :=
  let chain := module_ :: retainedParents
  match drain (nameBound module_ chain) 0 (start module_ chain) with
  | .error s => s
  | .ok s =>
    -- A session can run sources that are not there yet: all imports stay available.
    if RuntimeFeatures.has s.runtimeFeatures .sessionModules || module_.sessionEntry.isSome then
      chain.foldl (fun s m => m.imports.foldl takeImport s) s
    else s

end IrLinkReachability

/-! ## What is live -/

/-- The function that a name stands for: its definition; without one, the last declaration with recorded
references; without one of these, the first declaration. -/
def linkedFunction (chain : List IrModule) (name : String) : Option IrFunction :=
  let candidates := chain.flatMap fun m => m.functions.filter (·.symbol.name = name)
  (candidates.find? (!·.retained)).or
    ((candidates.reverse.find? (·.linkReferences.isSome)).or candidates.head?)

def linkedClass (chain : List IrModule) (name : String) : Option IrClass :=
  (chain.flatMap fun m => m.classes.filter (·.symbol.name = name)).head?

def linkedImport (chain : List IrModule) (name : String) : Option IrImport :=
  (chain.flatMap fun m => m.imports.filter (·.symbol.name = name)).head?

def LinkRoot (module_ : IrModule) (chain : List IrModule) (name : String) : Prop :=
  name ≠ "" ∧ (name = "main" ∨ module_.sessionEntry.map (·.name) = some name ∨
    ∃ m ∈ chain, ∃ f ∈ m.functions, f.cExportSymbol ≠ "" ∧ f.symbol.name = name)

/-- A function or a class of the one name refers to the other name. -/
def LinkEdge (chain : List IrModule) (name other : String) : Prop :=
  other ≠ "" ∧ ((∃ f, linkedFunction chain name = some f ∧ other ∈ irFunctionLinkReferences f) ∨
    ∃ c, linkedClass chain name = some c ∧ other ∈ IrLinkReachability.classLinkReferences c)

/-- A name that can be reached from the roots. -/
def Live (module_ : IrModule) (chain : List IrModule) (name : String) : Prop :=
  ∃ start, LinkRoot module_ chain start ∧ ReflTransGen (LinkEdge chain) start name

/-- A set of names with the roots and with everything that its names refer to. -/
structure LinkClosed (module_ : IrModule) (chain : List IrModule) (names : Set String) : Prop where
  roots : ∀ name, LinkRoot module_ chain name → name ∈ names
  references : ∀ name ∈ names, ∀ other, LinkEdge chain name other → other ∈ names

structure SameDeclarations (module_ module' : IrModule) : Prop where
  functions : module_.functions.Perm module'.functions
  classes : module_.classes.Perm module'.classes
  imports : module_.imports.Perm module'.imports
  sessionEntry : module'.sessionEntry = module_.sessionEntry

/-- The functions of a module have different names, and so have its classes and its imports. -/
structure DistinctNames (module_ : IrModule) : Prop where
  functions : (module_.functions.map (·.symbol.name)).Nodup
  classes : (module_.classes.map (·.symbol.name)).Nodup
  imports : (module_.imports.map (·.symbol.name)).Nodup

/-- What a function needs so that its references are known. -/
def HasImplementation (function : IrFunction) : Prop :=
  function.blocks ≠ [] ∨ function.linkReferences ≠ none

/-- A native library that the import of a name is linked with. -/
def NameLibrary (chain : List IrModule) (name library : String) : Prop :=
  library ≠ "" ∧ ∃ imported, linkedImport chain name = some imported ∧
    imported.nativeLibrary = library

/-- A feature that the import or the recorded implementation of a name needs. -/
def NameFeature (chain : List IrModule) (name : String) (feature : RuntimeFeature) : Prop :=
  (∃ imported, linkedImport chain name = some imported ∧
      RuntimeFeatures.has (IrLinkReachability.importFeatures imported) feature = true) ∨
    ∃ f, linkedFunction chain name = some f ∧
      RuntimeFeatures.has f.linkRuntimeFeatures feature = true

end Neri.Ir
