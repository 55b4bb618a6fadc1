import Neri.Stdlib.ByteBuffer
import Neri.Stdlib.Json.Value

/-!
# The JSON writer (`json/writer.hk`)

The writer walks over a value and appends its text to a buffer. The first problem is recorded, and
nothing is written behind it. A value of a kind that the writer does not know is passed over.
-/

namespace Neri.Stdlib.Json

structure Writer where
  output : Option ByteBuffer
  nodeLimit : Int
  nodes : Int := 0
  problem : Option Failure := none

namespace Writer

def fail (writer : Writer) (failure : Failure) : Writer := { writer with problem := some failure }

def append (writer : Writer) (value : Text) : Writer :=
  if writer.problem ≠ none then writer
  else
    match writer.output.bind (·.appendText value) with
    | some output => { writer with output := some output }
    | none => writer.fail ⟨"output_limit", 0⟩

/-- A chunk that is written if it is one. -/
def appendChunk (writer : Writer) (text : Text) (start finish : Nat) : Writer :=
  match text.sliceBytes start (finish - start) with
  | some chunk => writer.append chunk
  | none => writer

def hexDigits : Text := "0123456789abcdef"

def escape (writer : Writer) (byte : UInt8) : Writer :=
  if byte = 34 then writer.append "\\\""
  else if byte = 92 then writer.append "\\\\"
  else
    let code := byte.toNat
    match hexDigits.sliceBytes (code / 16) 1, hexDigits.sliceBytes (code - code / 16 * 16) 1 with
    | some high, some low => ((writer.append "\\u00").append high).append low
    | _, _ => writer

/-- A byte that stands for itself only with an escape. -/
def isEscaped (byte : UInt8) : Bool := byte.toNat < 32 || byte = 34 || byte = 92

/-- A round of the loop of `string`, with the index and the start of the chunk. -/
def stringRound (text : Text) : Writer × Nat × Nat → (Writer × Nat × Nat) ⊕ (Writer × Nat × Nat)
  | (writer, index, start) =>
    if index < text.byteLength ∧ writer.problem = none then
      match text.byteAt index with
      | some byte =>
        if isEscaped byte then
          .inl ((writer.appendChunk text start index).escape byte, index + 1, index + 1)
        else .inl (writer, index + 1, start)
      | none => .inl (writer, index + 1, start)
    else .inr (writer, index, start)

/-- The loop of `string`. -/
def stringLoop (text : Text) : BoundedLoop (Writer × Nat × Nat) (Writer × Nat × Nat) where
  body := stringRound text
  measure state := text.byteLength - state.2.1
  decreases := by
    rintro ⟨writer, index, start⟩ ⟨writer', index', start'⟩ h
    have hnext : index < text.byteLength ∧ index' = index + 1 := by
      unfold stringRound at h
      dsimp only at h
      split at h
      · rename_i hguard
        refine ⟨hguard.1, ?_⟩
        repeat' split at h
        all_goals exact (Prod.mk.inj (Prod.mk.inj (Sum.inl.inj h)).2).1.symm
      · cases h
    dsimp only
    omega

def finishString (text : Text) : Writer × Nat × Nat → Writer
  | (writer, index, start) => writer.appendChunk text start index

def string (writer : Writer) (text : Text) : Writer :=
  (finishString text ((stringLoop text).run (writer.append "\"", 0, 0))).append "\""

/-- The comma and the key in front of a child. -/
def writeKey (object first : Bool) (key : Option Text) (writer : Writer) : Writer :=
  let writer := if first then writer else writer.append ","
  match object, key with
  | true, some key => (writer.string key).append ":"
  | _, _ => writer

/-- `eachWhile` over the entries of a container, with the writer of the next level. -/
def writeEntries (child : Ref → Writer → Writer) (object : Bool) :
    Bool → List Entry → Writer → Writer
  | _, [], writer => writer
  | first, entry :: entries, writer =>
    let writer :=
      if writer.problem = none then child entry.value (writeKey object first entry.key writer)
      else writer
    if writer.problem = none then writeEntries child object false entries writer else writer

/-- `write` behind its checks. -/
def writeValue (child : Ref → Writer → Writer) (value : Value) (writer : Writer) : Writer :=
  if value.tag = "null" then writer.append "null"
  else if value.tag = "string" then
    match value.text with
    | some content => writer.string content
    | none => writer
  else if value.tag = "number" || value.tag = "boolean" then
    match value.text with
    | some content => writer.append content
    | none => writer
  else if value.tag = "array" || value.tag = "object" then
    let object : Bool := value.tag = "object"
    let writer := writer.append (if object then "\x7b" else "[")
    (writeEntries child object true value.entries writer).append (if object then "\x7d" else "]")
  else writer

/-- `write` of the value that a reference names, with the levels that the depth limit leaves:
`depthLimit + 1 - depth`. -/
def write (heap : Heap) : Nat → Ref → Writer → Writer
  | levels, ref, writer =>
    if writer.problem ≠ none then writer
    else
      match heap[ref]? with
      | none => writer
      | some value =>
        match value.constructionFailure with
        | some failure => writer.fail failure
        | none =>
          match levels with
          | 0 => writer.fail ⟨"depth_limit", 0⟩
          | levels + 1 =>
            if writer.nodes ≥ writer.nodeLimit then writer.fail ⟨"node_limit", 0⟩
            else writeValue (write heap levels) value { writer with nodes := writer.nodes + 1 }

def stringify (heap : Heap) (writer : Writer) (depthLimit : Int) (ref : Ref) :
    Except Failure Text :=
  let writer := write heap (depthLimit + 1).toNat ref writer
  match writer.problem with
  | some problem => .error problem
  | none =>
    match writer.output.bind (·.text) with
    | some rendered => .ok rendered
    | none => .error ⟨"output_limit", 0⟩

end Writer

def stringify (heap : Heap) (ref : Ref) (options : Option Options := none) : Except Failure Text :=
  let limits := options.getD {}
  if !validOptions limits then .error ⟨"invalid_options", 0⟩
  else
    Writer.stringify heap
      { output := ByteBuffer.create limits.maxOutputBytes, nodeLimit := limits.maxNodes }
      limits.maxDepth ref

end Neri.Stdlib.Json
