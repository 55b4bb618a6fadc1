import Mathlib.Data.Finset.Sort
import Neri.Codegen.Ir

/-!
# The function checks of the native verifier (`ir_verifier.cpp`)

`verify_blocks_and_uses` registers the definitions, the uses and the edges of a function in a
context, `verify_canonical_cfg` checks that its blocks stand in the order of a breadth-first walk,
and `verify_dominance` that every definition dominates its uses.

The maps of the context are lists, searched from the front: `emplace` does not overwrite. The maps
`successors` and `predecessors` are filled with the same edges, so both are read from one list of
edges. What a single instruction must look like (`verify_instruction`) changes nothing in the context;
it is a parameter here.
-/

namespace Neri.Codegen

open Neri.Abi Neri.Ir

/-- `fail` of the verifier, which throws. -/
def fail {α : Type} (code : ReaderErrorKind) (message : String) : Except ReaderError α :=
  .error { code := code, message := message }

/-- Report an error where the condition holds. -/
def failIf (bad : Bool) (code : ReaderErrorKind) (message : String) : Except ReaderError Unit :=
  if bad then fail code message else .ok ()

/-! ## Types -/

mutual

/-- Types are compared by all of their parts. -/
def sameType : Ty → Ty → Bool
  | ⟨tag, symbol, arguments, elementCount⟩, ⟨tag', symbol', arguments', elementCount'⟩ =>
    tag == tag' && elementCount == elementCount' && symbol == symbol' &&
      sameTypes arguments arguments'

/-- The arguments of two types, compared pairwise. -/
def sameTypes : List Ty → List Ty → Bool
  | [], [] => true
  | a :: as, b :: bs => sameType a b && sameTypes as bs
  | _, _ => false

end

def isVoid (value : Ty) : Bool :=
  value.tag == .void && value.symbol.isNone && value.arguments.isEmpty

def isScalar (value : Ty) : Bool :=
  (match value.tag with
    | .bool | .byte | .int | .float | .int32 | .uint32 | .uint64 | .float32 => true
    | _ => false) && value.symbol.isNone && value.arguments.isEmpty

def isString (value : Ty) : Bool :=
  value.tag == .string && value.symbol.isNone && value.arguments.isEmpty

def isClass (value : Ty) : Bool :=
  value.tag == .classType && value.symbol.isSome && value.arguments.isEmpty

def isPointer (value : Ty) : Bool :=
  value.tag == .pointer && value.symbol.isNone && value.arguments.length == 1

def isUnsafeCapability (value : Ty) : Bool :=
  value.tag == .unsafeCapability && value.symbol.isNone && value.arguments.isEmpty

def isBorrowCapability (value : Ty) : Bool :=
  value.tag == .borrowCapability && value.symbol.isNone && value.arguments.length == 1

-- `is_c_function`, `is_nullable_pointer` and `is_c_abi_type` call each other on one and the same
-- type; the recursion below goes through their argument lists, which do get smaller.
mutual

/-- The arguments of a C function type: its result, then its parameters. -/
def isCSignature : List Ty → Bool
  | [] => false
  | result :: parameters => isCAbiType true result && areCAbiTypes parameters

/-- The argument of a nullable pointer: a pointer or a C function. -/
def isNullableTarget : List Ty → Bool
  | [⟨tag, symbol, arguments, elementCount⟩] =>
    (tag == .pointer && symbol.isNone && arguments.length == 1) ||
      (tag == .cFunction && symbol.isNone && elementCount == 0 && isCSignature arguments)
  | _ => false

/-- The types that a C function may take, and with `allowVoid` return. -/
def isCAbiType (allowVoid : Bool) : Ty → Bool
  | ⟨tag, symbol, arguments, elementCount⟩ =>
    isScalar ⟨tag, symbol, arguments, elementCount⟩ ||
      isPointer ⟨tag, symbol, arguments, elementCount⟩ ||
      (tag == .cFunction && symbol.isNone && elementCount == 0 && isCSignature arguments) ||
      (tag == .optional && symbol.isNone && isNullableTarget arguments) ||
      (allowVoid && isVoid ⟨tag, symbol, arguments, elementCount⟩)

def areCAbiTypes : List Ty → Bool
  | [] => true
  | a :: as => isCAbiType false a && areCAbiTypes as

end

def isCFunction (value : Ty) : Bool :=
  value.tag == .cFunction && value.symbol.isNone && value.elementCount == 0 &&
    isCSignature value.arguments

def isNullablePointer (value : Ty) : Bool :=
  value.tag == .optional && value.symbol.isNone && isNullableTarget value.arguments

mutual

/-- What a pointer may point to. -/
def isPointerElement : Ty → Bool
  | ⟨tag, symbol, arguments, elementCount⟩ =>
    isVoid ⟨tag, symbol, arguments, elementCount⟩ ||
      isScalar ⟨tag, symbol, arguments, elementCount⟩ ||
      isCFunction ⟨tag, symbol, arguments, elementCount⟩ ||
      (tag == .nativeRecord && symbol.isSome && arguments.isEmpty) ||
      (tag == .fixedArray && symbol.isNone && elementCount > 0 && isOneElement arguments) ||
      isNullablePointer ⟨tag, symbol, arguments, elementCount⟩ ||
      (tag == .pointer && symbol.isNone && isOneElement arguments)

/-- The argument of a pointer or of a fixed array. -/
def isOneElement : List Ty → Bool
  | [element] => isPointerElement element
  | _ => false

end

/-- The values that live in the managed heap. -/
def isManagedReference : Ty → Bool
  | ⟨tag, symbol, arguments, elementCount⟩ =>
    isString ⟨tag, symbol, arguments, elementCount⟩ ||
      isClass ⟨tag, symbol, arguments, elementCount⟩ || tag == .array ||
      (match arguments with
        | [inner] => tag == .optional && isManagedReference inner
        | _ => false)

/-- The types of values that the back end lowers. -/
def isSupportedValue : Ty → Bool
  | ⟨tag, symbol, arguments, elementCount⟩ =>
    let value : Ty := ⟨tag, symbol, arguments, elementCount⟩
    isScalar value || isString value || isClass value || isCFunction value ||
      ((tag == .nativeRecord || tag == .fixedArray) && isPointerElement value) ||
      isUnsafeCapability value ||
      (match arguments with
        | [inner] =>
          (isPointer value && isPointerElement inner) ||
          (isBorrowCapability value && !isVoid inner && isPointerElement inner) ||
          (tag == .array && symbol.isNone && !isVoid inner &&
            (isScalar inner ||
              (inner.tag == .optional && (match inner.arguments with
                | [optional] => isScalar optional
                | _ => false)) ||
              isManagedReference inner) && isSupportedValue inner) ||
          (tag == .optional && symbol.isNone && !isVoid inner && inner.tag != .optional &&
            inner.tag != .nativeRecord && inner.tag != .fixedArray && isSupportedValue inner)
        | _ => false)

/-- Reports a type that no value may have. -/
def requireValueType (value : Ty) (description : String) : Except ReaderError Unit := do
  failIf (value.tag == .cFunction && !isCFunction value) .invalidType
    "C function signature requires C-compatible result and parameters."
  failIf (!isSupportedValue value) .unsupportedFeature
    (description ++ " uses a semantic type whose native lowering belongs to a later " ++
      "roadmap card.")

/-! ## Source locations -/

/-- No continuation byte stands at the index. -/
def utf8Boundary (bytes : List UInt8) (index : Nat) : Bool :=
  index == 0 || index == bytes.length ||
    (match bytes[index]? with
      | some byte => byte &&& 0xc0 != 0x80
      | none => false)

/-- A location lies in its source and ends between characters. -/
def verifyLocation (module_ : CodegenModule) : Option SourceLocation → Except ReaderError Unit
  | none => .ok ()
  | some location =>
    match module_.sources.find? (·.id == location.source) with
    | none => fail .invalidSource
        ("Source location references missing source '" ++ location.source ++ "'.")
    | some source =>
      failIf (decide (source.utf8.length < location.utf8Start) ||
          decide (source.utf8.length - location.utf8Start < location.utf8Length) ||
          !utf8Boundary source.utf8 location.utf8Start ||
          !utf8Boundary source.utf8 (location.utf8Start + location.utf8Length))
        .invalidSource
        ("Source location is outside UTF-8 scalar boundaries for source '" ++ location.source ++
          "'.")

/-! ## The context of a function -/

/-- `definition`: the type of a value, and the block and instruction that define it. Block
parameters are defined at instruction `-1`. -/
structure Definition where
  valueType : Ty
  block : Nat
  instruction : Int

/-- `use_site`. A use by a terminator is at the number of instructions of its block. -/
structure UseSite where
  value : Nat
  block : Nat
  instruction : Int
  deriving DecidableEq, Repr

/-- `function_context`, without the references to the module and the function. -/
structure FunctionContext where
  blocks : List (Nat × Block) := []
  /-- The pairs pushed to `successors` and `predecessors`, in order. -/
  edges : List (Nat × Nat) := []
  definitions : List (Nat × Definition) := []
  uses : List UseSite := []
  requiredEffects : Nat := 0

namespace FunctionContext

/-- `successors.find(id)`, with no entry as no successors. -/
def successors (context : FunctionContext) (id : Nat) : List Nat :=
  (context.edges.filter (·.1 == id)).map (·.2)

/-- `predecessors.find(id)`, with no entry as no predecessors. -/
def predecessors (context : FunctionContext) (id : Nat) : List Nat :=
  (context.edges.filter (·.2 == id)).map (·.1)

end FunctionContext

/-- What `verify_instruction` answers: the effects that the instruction requires, or an error. -/
abbrev InstructionCheck := FunctionContext → Instruction → Except ReaderError Nat

section

variable (module_ : CodegenModule) (verifyInstruction : InstructionCheck)

/-- `definitions.emplace`: a second definition of a value is an error. -/
def emplaceDefinition (definitions : List (Nat × Definition)) (id : Nat) (value : Definition)
    (code : ReaderErrorKind) (message : String) : Except ReaderError (List (Nat × Definition)) :=
  match definitions.lookup id with
  | some _ => fail code message
  | none => .ok (definitions ++ [(id, value)])

/-- The definition of a block parameter. -/
def registerParameter (block : Block) (definitions : List (Nat × Definition))
    (parameter : BlockParameter) : Except ReaderError (List (Nat × Definition)) := do
  requireValueType parameter.valueType "Block parameter"
  verifyLocation module_ parameter.location
  emplaceDefinition definitions parameter.id ⟨parameter.valueType, block.id, -1⟩ .invalidSsa
    "SSA value has multiple definitions."

/-- One result of the instruction at `index`. -/
def registerResult (block : Block) (index : Nat) (definitions : List (Nat × Definition))
    (result : ValueDefinition) : Except ReaderError (List (Nat × Definition)) := do
  requireValueType result.valueType "Instruction result"
  emplaceDefinition definitions result.id ⟨result.valueType, block.id, index⟩ .invalidSsa
    "SSA value has multiple definitions."

/-- The instruction at `index`. -/
def registerInstruction (block : Block) (definitions : List (Nat × Definition))
    (instruction : Instruction × Nat) : Except ReaderError (List (Nat × Definition)) := do
  verifyLocation module_ instruction.1.location
  instruction.1.results.foldlM (registerResult block instruction.2) definitions

/-- The definitions of a block. -/
def registerBlock (definitions : List (Nat × Definition)) (block : Block) :
    Except ReaderError (List (Nat × Definition)) := do
  let definitions ← block.parameters.foldlM (registerParameter module_ block) definitions
  block.instructions.zipIdx.foldlM (registerInstruction module_ block) definitions

/-- The unsafe root, defined where the entry block is entered. -/
def registerRoot (f : Function) : Except ReaderError (List (Nat × Definition)) :=
  match f.unsafeRoot with
  | none => .ok []
  | some root => do
    failIf (!isUnsafeCapability root.valueType) .invalidSafety
      "Function unsafe root is malformed or has a duplicate SSA ID."
    emplaceDefinition [] root.id ⟨root.valueType, f.entryBlock, -1⟩ .invalidSafety
      "Function unsafe root is malformed or has a duplicate SSA ID."

/-- The first pass: all definitions of a function, before any use is looked up. -/
def registerDefinitions (f : Function) : Except ReaderError (List (Nat × Definition)) := do
  let definitions ← registerRoot f
  f.blocks.foldlM (registerBlock module_) definitions

/-- The type of a defined value. -/
def definitionType (context : FunctionContext) (id : Nat) : Except ReaderError Ty :=
  match context.definitions.lookup id with
  | none => fail .invalidSsa
      ("Instruction references undefined SSA value " ++ toString id ++ ".")
  | some definition => .ok definition.valueType

/-- Records a use of a defined value. -/
def registerUse (block : Nat) (instruction : Int) (context : FunctionContext) (value : Nat) :
    Except ReaderError FunctionContext :=
  match context.definitions.lookup value with
  | none => fail .invalidSsa ("Use references undefined SSA value " ++ toString value ++ ".")
  | some _ => .ok { context with uses := context.uses ++ [⟨value, block, instruction⟩] }

/-- One argument of an edge, with the parameter it is passed to. -/
def verifyArgument (source : Block) (instruction : Int) (context : FunctionContext)
    (argument : Nat × BlockParameter) : Except ReaderError FunctionContext := do
  let context ← registerUse source.id instruction context argument.1
  let valueType ← definitionType context argument.1
  failIf (!sameType valueType argument.2.valueType) .invalidControlFlow
    "Edge argument type does not match target block parameter."
  pure context

/-- Checks an edge against the parameters of its target and records it. -/
def verifyEdge (f : Function) (source : Block) (instruction : Int) (context : FunctionContext)
    (value : Edge) : Except ReaderError FunctionContext := do
  match context.blocks.lookup value.target with
  | none => fail .invalidControlFlow "Edge references a missing block."
  | some target =>
    failIf (value.target == f.entryBlock) .unsupportedFeature
      ("Native lowering does not accept backedges to the " ++ "function entry block.")
    failIf (value.arguments.length != target.parameters.length) .invalidControlFlow
      "Edge argument count does not match target block parameters."
    let context ← (value.arguments.zip target.parameters).foldlM
      (verifyArgument source instruction) context
    pure { context with edges := context.edges ++ [(source.id, value.target)] }

/-- The opcodes that need a source location whatever their effects. -/
def isCallOpcode (opcode : IrOpcode) : Bool :=
  match opcode with
  | .call | .callDirect | .callVirtual | .callImport | .callCAbi => true
  | _ => false

/-- One instruction of a block: its uses, its shape, and its location where it needs one. -/
def verifyBlockInstruction (block : Block) (context : FunctionContext)
    (instruction : Instruction × Nat) : Except ReaderError FunctionContext := do
  let context ← instruction.1.operands.foldlM (registerUse block.id instruction.2) context
  let effects ← verifyInstruction context instruction.1
  failIf ((effects &&& Effect.mayPanic.bit != 0 || isCallOpcode instruction.1.opcode) &&
      instruction.1.location.isNone) .invalidSource
    "Panicking and call instructions require a source location."
  pure { context with requiredEffects := context.requiredEffects ||| effects }

/-- The shape of a terminator, with its uses and edges. -/
def verifyTerminator (f : Function) (block : Block) (context : FunctionContext) :
    Except ReaderError FunctionContext := do
  let ending := block.ending
  let index : Int := block.instructions.length
  verifyLocation module_ ending.location
  match ending.tag with
  | .branch =>
    failIf (ending.edges.length != 1 || ending.condition.isSome || ending.returnValue.isSome)
      .invalidControlFlow "Malformed branch terminator."
    ending.edges.foldlM (verifyEdge f block index) context
  | .conditionalBranch =>
    match ending.condition with
    | none => fail .invalidControlFlow "Malformed conditional branch terminator."
    | some condition =>
      failIf (ending.edges.length != 2 || ending.returnValue.isSome) .invalidControlFlow
        "Malformed conditional branch terminator."
      let context ← registerUse block.id index context condition
      let valueType ← definitionType context condition
      failIf (!sameType valueType { tag := .bool }) .invalidType
        "Conditional branch condition is not bool."
      ending.edges.foldlM (verifyEdge f block index) context
  | .returns =>
    failIf (!ending.edges.isEmpty || ending.condition.isSome) .invalidControlFlow
      "Malformed return terminator."
    if isVoid f.resultType then
      failIf ending.returnValue.isSome .invalidType "Void function returns an SSA value."
      pure context
    else
      match ending.returnValue with
      | none => fail .invalidType "Non-void function returns no SSA value."
      | some value =>
        let context ← registerUse block.id index context value
        let valueType ← definitionType context value
        failIf (!sameType valueType f.resultType) .invalidType
          "Return value does not match function result type."
        pure context
  | .panic =>
    failIf (!ending.edges.isEmpty || ending.condition.isSome || ending.returnValue.isSome ||
        ending.panicCode.isEmpty || ending.panicMessage.isEmpty || ending.location.isNone)
      .invalidControlFlow "Malformed panic terminator."
    pure { context with requiredEffects := context.requiredEffects ||| Effect.mayPanic.bit }

/-- The uses and edges of a block. -/
def verifyBlock (f : Function) (context : FunctionContext) (block : Block) :
    Except ReaderError FunctionContext := do
  let context ← block.instructions.zipIdx.foldlM (verifyBlockInstruction verifyInstruction block)
    context
  verifyTerminator module_ f block context

/-- `blocks.emplace`: the first block of an identity stays. -/
def emplaceBlock (blocks : List (Nat × Block)) (block : Block) : List (Nat × Block) :=
  match blocks.lookup block.id with
  | some _ => blocks
  | none => blocks ++ [(block.id, block)]

/-- The context of a function whose blocks are well formed. -/
def verifyBlocksAndUses (f : Function) : Except ReaderError FunctionContext := do
  let blocks := f.blocks.foldl emplaceBlock []
  failIf (blocks.length != f.blocks.length) .invalidControlFlow
    "Function contains duplicate block identities."
  match blocks.lookup f.entryBlock with
  | none => fail .invalidControlFlow "Function has no valid entry block."
  | some entry =>
    failIf (f.blocks.head?.map (·.id) != some f.entryBlock) .invalidControlFlow
      "Function entry block is not first."
    let definitions ← registerDefinitions module_ f
    failIf (entry.parameters.length != f.parameterTypes.length) .invalidType
      "Entry block parameter count does not match function signature."
    failIf (!sameTypes (entry.parameters.map (·.valueType)) f.parameterTypes) .invalidType
      "Entry block parameter type does not match function signature."
    f.blocks.foldlM (verifyBlock module_ verifyInstruction f)
      { blocks := blocks, definitions := definitions }

end

/-! ## The canonical control-flow graph -/

/-- Seeing a block either counts its edges as walked or, if it has none, adds nothing. -/
theorem unwalked_lt_or_successors_nil (context : FunctionContext) {seen : List Nat}
    {current : Nat} (hnew : current ∉ seen) :
    (context.edges.filter (·.1 ∉ seen ++ [current])).length <
        (context.edges.filter (·.1 ∉ seen)).length ∨
      ((context.edges.filter (·.1 ∉ seen ++ [current])).length ≤
          (context.edges.filter (·.1 ∉ seen)).length ∧ context.successors current = []) := by
  have hfilter : context.edges.filter (·.1 ∉ seen ++ [current]) =
      (context.edges.filter (·.1 ∉ seen)).filter (·.1 ≠ current) := by
    rw [List.filter_filter]
    congr 1
    funext edge
    simp [and_comm, not_or]
  rw [hfilter]
  by_cases hsucc : context.successors current = []
  · exact .inr ⟨List.length_filter_le _ _, hsucc⟩
  · left
    obtain ⟨target, htarget⟩ := List.exists_mem_of_ne_nil _ hsucc
    simp only [FunctionContext.successors, List.mem_map, List.mem_filter] at htarget
    obtain ⟨edge, ⟨hedge, hcurrent⟩, -⟩ := htarget
    have hcurrent : edge.1 = current := by simpa using hcurrent
    refine List.length_filter_lt_length_iff_exists.mpr ⟨edge, ?_, by simp [hcurrent]⟩
    exact List.mem_filter.mpr ⟨hedge, by simpa [hcurrent] using hnew⟩

/-- The walk of `verify_canonical_cfg`: `seen` is both the set and the vector of the source, which
receive the same blocks. -/
def discover (context : FunctionContext) (seen pending : List Nat) : List Nat :=
  match pending with
  | [] => seen
  | current :: rest =>
    if current ∈ seen then discover context seen rest
    else
      discover context (seen ++ [current])
        (rest ++ (context.successors current).filter (· ∉ seen ++ [current]))
termination_by ((context.edges.filter (·.1 ∉ seen)).length, pending.length)
decreasing_by
  · exact Prod.Lex.right _ (Nat.lt_succ_self _)
  · rename_i hnew
    rcases unwalked_lt_or_successors_nil context hnew with hlt | ⟨hle, hnil⟩
    · exact Prod.Lex.left _ _ hlt
    · rw [hnil]
      rcases Nat.lt_or_eq_of_le hle with hlt | heq
      · exact Prod.Lex.left _ _ hlt
      · rw [heq]
        exact Prod.Lex.right _ (by simp)

/-- All blocks are reachable, and stand in the order of the walk. -/
def verifyCanonicalCfg (f : Function) (context : FunctionContext) : Except ReaderError Unit := do
  let discovered := discover context [] [f.entryBlock]
  failIf (discovered.length != context.blocks.length) .invalidControlFlow
    "Function contains unreachable blocks."
  failIf (f.blocks.map (·.id) != discovered) .invalidControlFlow
    "Function block order is not canonical entry/successor order."

/-! ## Dominance -/

/-- The blocks that dominate a block. -/
abbrev Dominators := Nat → Finset Nat

/-- What dominates all predecessors of a block, and the block: the body of the inner loop. -/
def intersectPredecessors (dominators : Dominators) (id : Nat) :
    List Nat → Except ReaderError (Finset Nat)
  | [] => fail .invalidControlFlow "Non-entry block has no predecessor."
  | first :: rest =>
    .ok (insert id (rest.foldl (fun set predecessor => set ∩ dominators predecessor)
      (dominators first)))

/-- One block of a round. -/
def visitDominators (f : Function) (context : FunctionContext) (state : Dominators × Bool)
    (id : Nat) : Except ReaderError (Dominators × Bool) :=
  if id = f.entryBlock then .ok state
  else do
    let intersection ← intersectPredecessors state.1 id (context.predecessors id)
    if intersection = state.1 id then pure state
    else pure (Function.update state.1 id intersection, true)

/-- The rounds. The condition of the loop spends one of the remaining rounds before each; when none
is left and the last round changed something, the computation has exceeded its budget. -/
def dominatorRounds (f : Function) (context : FunctionContext) (all : List Nat) :
    Nat → Dominators → Except ReaderError Dominators
  | 0, _ => fail .invalidControlFlow
      "Dominance computation exceeded its bounded iteration budget."
  | remaining + 1, dominators => do
    let (next, changed) ← all.foldlM (visitDominators f context) (dominators, false)
    if changed then dominatorRounds f context all remaining next else pure next

/-- In its own block a definition stands before its use; elsewhere its block dominates the use. -/
def verifyUse (context : FunctionContext) (dominators : Dominators) (use : UseSite) :
    Except ReaderError Unit :=
  match context.definitions.lookup use.value with
  | none => fail .invalidSsa ("Use references undefined SSA value " ++ toString use.value ++ ".")
  | some definition =>
    if definition.block = use.block then
      failIf (decide (definition.instruction ≥ use.instruction) &&
          decide (definition.instruction ≥ 0)) .invalidSsa
        "SSA value is used before its definition."
    else
      failIf (decide (definition.block ∉ dominators use.block)) .invalidSsa
        "SSA definition does not dominate its use."

/-- The sets start with all blocks and shrink until a round changes nothing. -/
def verifyDominance (f : Function) (context : FunctionContext) : Except ReaderError Unit := do
  let all := (context.blocks.map (·.1)).toFinset
  let initial : Dominators := fun id => if id = f.entryBlock then {id} else all
  let dominators ← dominatorRounds f context (all.sort (· ≤ ·))
    (context.blocks.length * context.blocks.length + 1) initial
  context.uses.forM (verifyUse context dominators)

end Neri.Codegen
