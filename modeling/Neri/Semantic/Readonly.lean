import Neri.Frontend.Unicode
import Neri.Stdlib.Text

/-!
# Type names as texts, and readonly views (`readonly.hk`, `types.hk`, `text.hk`, `native_records.hk`)

The compiler keeps a type as a text and takes it apart with tests of its first and last bytes. A test
of the first bytes cuts them out as a string, which stops the program where the cut goes through a
scalar. Here such a call has no result.

The functions call each other on parts of the text; `levels` bounds how deep they go.
-/

namespace Neri.Semantic

open Neri.Stdlib

/-! ## Suffixes -/

def semanticEndsWith (value suffix : Text) : Bool :=
  if suffix.byteLength > value.byteLength then false
  else
    let start := value.byteLength - suffix.byteLength
    (List.range suffix.byteLength).all fun index =>
      value.byteAt (start + index) == suffix.byteAt index

def semanticStripSuffix (value suffix : Text) : Option Text :=
  value.slice 0 (value.byteLength - suffix.byteLength)

/-! ## Fixed arrays and records -/

def nativeRecordType (typeName : Text) : Option Bool :=
  if typeName.byteLength ≥ 7 then
    (typeName.slice 0 7).map fun first => first == Text.ofString "record|"
  else some false

def nativeFixedArray (typeName : Text) : Bool :=
  semanticEndsWith typeName "]" && !semanticEndsWith typeName "[]"

/-- The loop of `nativeArrayStart`, from an index down. -/
def arrayStartFrom (typeName : Text) : (index : Nat) → Nat
  | 0 => 0
  | index + 1 =>
    if typeName.byteAt (index + 1) = some 91 then index + 1 else arrayStartFrom typeName index

def nativeArrayStart (typeName : Text) : Nat := arrayStartFrom typeName (typeName.byteLength - 2)

def nativeArrayInner (typeName : Text) : Option Text :=
  typeName.slice 0 (nativeArrayStart typeName)

/-! ## Readonly views -/

def semanticIsReadonly (typeName : Text) : Option Bool :=
  if typeName.byteLength > 10 then
    (typeName.slice 0 9).map fun first =>
      first == Text.ofString "readonly(" && semanticEndsWith typeName (Text.ofString ")")
  else some false

def semanticMutableType (typeName : Text) : Option Text := do
  if ← semanticIsReadonly typeName then typeName.slice 9 (typeName.byteLength - 10)
  else return typeName

/-- `semanticIsOptional`, `semanticIsArray` and `semanticIsPointer`, by the suffix. -/
def viewEndsWith (suffix : Text) : (levels : Nat) → (typeName : Text) → Option Bool
  | 0, _ => none
  | levels + 1, typeName => do
    if ← semanticIsReadonly typeName then viewEndsWith suffix levels (← semanticMutableType typeName)
    else return semanticEndsWith typeName suffix

def semanticIsOptional (typeName : Text) : Option Bool :=
  viewEndsWith "?" (typeName.byteLength + 1) typeName

def semanticIsArray (typeName : Text) : Option Bool :=
  viewEndsWith "[]" (typeName.byteLength + 1) typeName

def semanticIsPointer (typeName : Text) : Option Bool :=
  viewEndsWith "*" (typeName.byteLength + 1) typeName

def semanticIsNumeric (typeName : Text) : Bool :=
  ["Int", "Byte", "Float", "Int32", "UInt32", "UInt64", "Float32"].any fun name =>
    typeName == Text.ofString name

def semanticIsBuiltin (typeName : Text) : Bool :=
  semanticIsNumeric typeName ||
    ["Bool", "String", "Void"].any fun name => typeName == Text.ofString name

/-- `semanticIsBuiltin(typeName) || typeName == "Error" || typeName == "Null"`. -/
def semanticReservedTypeName (typeName : Text) : Bool :=
  semanticIsBuiltin typeName || typeName == "Error" || typeName == "Null"

mutual

def innerTypeWithin : (levels : Nat) → (typeName : Text) → Option Text
  | 0, _ => none
  | levels + 1, typeName => do
    if ← semanticIsReadonly typeName then
      readViewWithin levels (← innerTypeWithin levels (← semanticMutableType typeName))
    else if nativeFixedArray typeName then nativeArrayInner typeName
    else if ← semanticIsArray typeName then semanticStripSuffix typeName "[]"
    else if ← semanticIsOptional typeName then semanticStripSuffix typeName "?"
    else if ← semanticIsPointer typeName then semanticStripSuffix typeName "*"
    else return typeName

def readViewWithin : (levels : Nat) → (typeName : Text) → Option Text
  | 0, _ => none
  | levels + 1, typeName => do
    if ← semanticIsReadonly typeName then return typeName
    else if semanticReservedTypeName typeName then return typeName
    else if ← semanticIsOptional typeName then
      let inner ← readViewWithin levels (← innerTypeWithin levels typeName)
      return inner ++ "?"
    else return "readonly(" ++ typeName ++ ")"

end

def semanticReadView (typeName : Text) : Option Text :=
  readViewWithin (typeName.byteLength + 2) typeName

/-! ## Written types -/

/-- A name that the lexer reads as one word. -/
structure Identifier where
  text : String
  isIdentifier : Frontend.isIdentifier text = true

/-- The types that are written with identifiers and the four constructors. -/
inductive WrittenType where
  | name (first : Identifier) (rest : List Identifier)
  | array (inner : WrittenType)
  | optional (inner : WrittenType)
  | pointer (inner : WrittenType)
  | readonly (inner : WrittenType)

namespace WrittenType

/-- The text of a type. The parts of a qualified name are joined by dots. -/
def text : WrittenType → Text
  | .name first rest =>
    rest.foldl (fun text part => text ++ (Text.ofString "." ++ Text.ofString part.text))
      (Text.ofString first.text)
  | .array inner => inner.text ++ "[]"
  | .optional inner => inner.text ++ "?"
  | .pointer inner => inner.text ++ "*"
  | .readonly inner => "readonly(" ++ inner.text ++ ")"

def isReadonly : WrittenType → Bool
  | .readonly _ => true
  | _ => false

def isOptional : WrittenType → Bool
  | .optional _ => true
  | _ => false

/-- The view of a type that a program may read through. -/
def readView : WrittenType → WrittenType
  | .readonly inner => .readonly inner
  | .optional inner => .optional inner.readView
  | .name first rest =>
    if semanticReservedTypeName (WrittenType.name first rest).text then .name first rest
    else .readonly (.name first rest)
  | .array inner => .readonly (.array inner)
  | .pointer inner => .readonly (.pointer inner)

end WrittenType

end Neri.Semantic
