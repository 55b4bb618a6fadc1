import Neri.Codegen.Ir

/-!
# Program points of a native function

What it means for a function that the definition of a value comes before its uses. A program point is
a block and a position in it: `-1` where the block is entered and its parameters are bound, then one
position for each instruction, and the number of instructions for the terminator. A walk follows the
positions of a block and jumps along the edges of its terminator.
-/

namespace Neri.Codegen

/-- A block and a position in it. -/
abbrev Point := Nat × Int

/-- The values that a terminator reads. -/
def Terminator.operands (ending : Terminator) : List Nat :=
  ending.condition.toList ++ ending.edges.flatMap (·.arguments) ++ ending.returnValue.toList

/-- The value is defined at the point: as the unsafe root, a block parameter or a result. -/
def DefinedAt (f : Function) (value : Nat) (point : Point) : Prop :=
  (∃ root, f.unsafeRoot = some root ∧ root.id = value ∧ point = (f.entryBlock, -1)) ∨
  ∃ block ∈ f.blocks,
    (∃ parameter ∈ block.parameters, parameter.id = value ∧ point = (block.id, -1)) ∨
    ∃ instruction index, (instruction, index) ∈ block.instructions.zipIdx ∧
      ∃ result ∈ instruction.results, result.id = value ∧ point = (block.id, (index : Int))

/-- The value is read at the point: as an operand of an instruction or by the terminator. -/
def UsedAt (f : Function) (value : Nat) (point : Point) : Prop :=
  ∃ block ∈ f.blocks,
    (∃ instruction index, (instruction, index) ∈ block.instructions.zipIdx ∧
      value ∈ instruction.operands ∧ point = (block.id, (index : Int))) ∨
    (value ∈ block.ending.operands ∧ point = (block.id, (block.instructions.length : Int)))

/-- The terminator of the block `source` has an edge to the block `target`. -/
def FlowEdge (f : Function) (source target : Nat) : Prop :=
  ∃ block ∈ f.blocks, block.id = source ∧ ∃ edge ∈ block.ending.edges, edge.target = target

/-- `Walk f before point`: a walk from the entry to `point` that goes through the points `before`,
the latest first. -/
inductive Walk (f : Function) : List Point → Point → Prop where
  | entry : Walk f [] (f.entryBlock, -1)
  | next {before : List Point} {block : Block} {position : Int} :
      block ∈ f.blocks → Walk f before (block.id, position) →
      position < block.instructions.length →
      Walk f ((block.id, position) :: before) (block.id, position + 1)
  | jump {before : List Point} {block : Block} {edge : Edge} :
      block ∈ f.blocks → Walk f before (block.id, (block.instructions.length : Int)) →
      edge ∈ block.ending.edges →
      Walk f ((block.id, (block.instructions.length : Int)) :: before) (edge.target, -1)

/-- Every walk to a use of a value goes through its definition before. -/
def DefinitionsDominateUses (f : Function) : Prop :=
  ∀ value use, UsedAt f value use → ∀ before, Walk f before use →
    ∃ definition ∈ before, DefinedAt f value definition

end Neri.Codegen
