import Neri.Codegen.FunctionVerifier

/-!
# Allocation regions (`native/codegen/allocation_regions.cpp`)

Selects the functions that run in an allocation region of their own: what they and their callees
allocate is freed when they return. A function is compatible with a region if it and everything it
calls only sees values, fresh objects and literals.

The pointers to functions are places in the list of functions. Where the C++ has no result, because
`at` throws or because it reads an absent symbol or type argument, the result here is `none`.
-/

namespace Neri.Codegen

open Neri.Ir

def scalarBoundary : Ty → Option Bool
  | ⟨tag, _, arguments, _⟩ =>
    match tag with
    | .void | .bool | .byte | .int | .float | .int32 | .uint32 | .uint64 | .float32 => some true
    | .optional =>
      match arguments with
      | [] => none
      | first :: _ => scalarBoundary first
    | _ => some false

/-- `local_operation`: the operations that only see values, fresh objects and literals. -/
def localOperation : IrOpcode → Bool
  | .constant | .intNegChecked | .intAddChecked | .intSubChecked | .intMulChecked | .intDivChecked
  | .floatNeg | .floatAdd | .floatSub | .floatMul | .floatDiv | .boolNot | .boolAnd | .boolOr
  | .compare | .castIntToFloat | .castFloatToIntChecked | .castIntToByteChecked | .castByteToInt
  | .numericCastChecked | .classUpcast | .classCheckedCast | .optionalNone | .optionalSome
  | .optionalIsSome | .optionalGetChecked | .stringConcat | .stringEqual | .stringNotEqual
  | .stringFromInt | .stringFromByte | .stringFromFloat | .arrayNew | .arrayLength
  | .arrayLoadChecked | .arrayStoreChecked | .objectAlloc | .fieldLoad | .fieldStore => true
  | _ => false

/-! ## Loops inside a function -/

/-- `incoming[id] += amount`, in a map that is ordered by its keys; a new key starts at zero. -/
def addCount (id amount : Nat) : List (Nat × Nat) → List (Nat × Nat)
  | [] => [(id, amount)]
  | (key, count) :: rest =>
    if id = key then (key, count + amount) :: rest
    else if id < key then (id, amount) :: (key, count) :: rest
    else (key, count) :: addCount id amount rest

/-- The number of edges that lead to each block. -/
def incomingEdges (f : Function) : List (Nat × Nat) :=
  f.blocks.foldl (fun incoming block =>
    block.ending.edges.foldl (fun incoming edge => addCount edge.target 1 incoming)
      (addCount block.id 0 incoming)) []

/-- `--incoming.at(target)`, with the block pushed when its count comes to zero. -/
def releaseEdge (state : List (Nat × Nat) × List Nat) (edge : Edge) : List (Nat × Nat) × List Nat :=
  (state.1.map fun entry => if entry.1 = edge.target then (entry.1, entry.2 - 1) else entry,
    if state.1.lookup edge.target = some 1 then state.2 ++ [edge.target] else state.2)

/-- Takes the blocks that are ready, one after another; the result is how many there are in all. -/
def drainReady (blocks : List (Nat × Block)) : Nat → List (Nat × Nat) → List Nat → Nat → Option Nat
  | _, _, [], taken => some taken
  | 0, _, _ :: _, _ => none
  | fuel + 1, incoming, id :: ready, taken => do
    let block ← blocks.lookup id
    let state := block.ending.edges.foldl releaseEdge (incoming, ready)
    drainReady blocks fuel state.1 state.2 (taken + 1)

/-- `has_loop`. Every block becomes ready at most once, so as many turns as there are counts are
enough. -/
def hasLoop (f : Function) : Option Bool := do
  let blocks := f.blocks.foldl emplaceBlock []
  let incoming := incomingEdges f
  let ready := (incoming.filter (·.2 = 0)).map Prod.fst
  let taken ← drainReady blocks incoming.length incoming ready 0
  return taken != blocks.length

/-! ## The call graph -/

/-- `definitions.find`: the first function with this identity. -/
def definitionOf (module_ : CodegenModule) (symbol : SymbolId) : Option Nat :=
  module_.functions.findIdx? (·.id == symbol)

/-- A call whose callee is looked up in the module. -/
def Instruction.isDirectCall (instruction : Instruction) : Bool :=
  instruction.opcode == .call || instruction.opcode == .callDirect

def Function.instructions (f : Function) : List Instruction := f.blocks.flatMap (·.instructions)

/-- One instruction in the scan of a function: whether the function is still local, and whether it
repeats an allocation. The functions known to be compatible come with a mark of those in `bulk`. -/
def scanInstruction (module_ : CodegenModule) (known : List (Nat × Bool)) (state : Bool × Bool)
    (instruction : Instruction) : Option (Bool × Bool) :=
  if instruction.isDirectCall then do
    let symbol ← instruction.symbol
    return match definitionOf module_ symbol with
      | none => (false, state.2)
      | some callee =>
        (state.1 && (known.lookup callee).isSome, state.2 || known.lookup callee == some true)
  else
    some (state.1 && localOperation instruction.opcode, state.2)

/-- Functions that a pass does not look into. -/
def Function.isOpaqueRegion (f : Function) : Bool :=
  f.unsafeCall || f.unsafeRoot.isSome || f.blocks.isEmpty

/-- Whether a function allocates managed objects. -/
def Function.allocates (f : Function) : Bool :=
  f.effects &&& Abi.Effect.managedAllocate.bit != 0

def visitFunction (module_ : CodegenModule) (known : List (Nat × Bool)) (entry : Function × Nat) :
    Option (List (Nat × Bool)) :=
  if (known.lookup entry.2).isSome || entry.1.isOpaqueRegion then
    some known
  else do
    let looping ← hasLoop entry.1
    let state ← entry.1.instructions.foldlM (scanInstruction module_ known) (true, looping)
    return if state.1 then known ++ [(entry.2, state.2 && entry.1.allocates)] else known

/-- The passes, until one adds nothing. Every pass but the last adds a function, so one turn more than
there are functions is enough. -/
def compatibleFunctions (module_ : CodegenModule) :
    Nat → List (Nat × Bool) → Option (List (Nat × Bool))
  | 0, _ => none
  | fuel + 1, known => do
    let next ← module_.functions.zipIdx.foldlM (visitFunction module_) known
    if next.length = known.length then return known else compatibleFunctions module_ fuel next

/-- `std::ranges::all_of(parameter_types, scalar_boundary)`. -/
def scalarBoundaries : List Ty → Option Bool
  | [] => some true
  | first :: rest => do
    if ← scalarBoundary first then scalarBoundaries rest else return false

/-- Whether a function in `bulk` has a scalar boundary. -/
def scalarSignature (f : Function) : Option Bool := do
  if ← scalarBoundary f.resultType then scalarBoundaries f.parameterTypes else return false

/-- Whether a compatible function is selected. -/
def selectsRegion (module_ : CodegenModule) (fact : Nat × Bool) : Option Bool :=
  match module_.functions[fact.1]? with
  | none => some false
  | some f => if fact.2 then scalarSignature f else some false

/-- The functions in `bulk` with a scalar boundary. -/
def selectRegions (module_ : CodegenModule) : List (Nat × Bool) → Option (List Nat)
  | [] => some []
  | fact :: rest => do
    let selected ← selectsRegion module_ fact
    let others ← selectRegions module_ rest
    return if selected then fact.1 :: others else others

def allocationRegions (module_ : CodegenModule) : Option (List Nat) := do
  let known ← compatibleFunctions module_ (module_.functions.length + 1) []
  selectRegions module_ known

/-! ## What a region needs -/

/-- The function at `caller` calls the function at `callee`. -/
def DirectCall (module_ : CodegenModule) (caller callee : Nat) : Prop :=
  ∃ f instruction symbol, module_.functions[caller]? = some f ∧ instruction ∈ f.instructions ∧
    instruction.isDirectCall = true ∧ instruction.symbol = some symbol ∧
    definitionOf module_ symbol = some callee

/-- A function whose allocations stay inside a region: it has a body of local operations and calls of
functions that are defined in the module, it uses nothing unsafe, and it lies on no cycle of calls. -/
structure StaysInRegion (module_ : CodegenModule) (index : Nat) (f : Function) : Prop where
  defined : module_.functions[index]? = some f
  body : f.blocks ≠ []
  notUnsafe : f.unsafeCall = false ∧ f.unsafeRoot = none
  operations : ∀ instruction ∈ f.instructions,
    instruction.isDirectCall = true ∨ localOperation instruction.opcode = true
  callees : ∀ instruction ∈ f.instructions, instruction.isDirectCall = true →
    ∃ symbol callee, instruction.symbol = some symbol ∧ definitionOf module_ symbol = some callee
  acyclic : ¬Relation.TransGen (DirectCall module_) index index

/-- The identities of the selected functions. -/
def selectedIds (module_ : CodegenModule) : Option (Finset SymbolId) :=
  (allocationRegions module_).map fun places =>
    (places.filterMap fun index => (module_.functions[index]?).map (·.id)).toFinset

end Neri.Codegen
