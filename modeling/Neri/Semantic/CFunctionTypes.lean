import Neri.Lib.FixedNumeral
import Neri.Semantic.Readonly

/-!
# C function types as texts (`cabi_types.hk`)

The name of a C function type lists the names of its result and its parameters, each behind the
number of its bytes. `none` says that a slice has stopped the program.
-/

namespace Neri.Semantic

open FixedNumeral Neri.Stdlib

def numberText (n : Nat) : Text := ⟨decimal n, isStrictUtf8_of_ascii decimal_ascii⟩

/-- The loop of `semanticCFunctionType`. -/
def appendComponents (result : Text) : (components : List Text) → Text
  | [] => result
  | component :: components =>
    appendComponents (result ++ numberText component.byteLength ++ ":" ++ component)
      components

def semanticCFunctionType (components : List Text) : Text :=
  appendComponents (Text.ofString "cabi|" ++ numberText components.length ++ "|")
    components ++ "|"

def bootstrapStartsWith (value first : Text) : Bool :=
  if first.byteLength > value.byteLength then false
  else (List.range first.byteLength).all fun index => value.byteAt index == first.byteAt index

def semanticIsCFunction (typeName : Text) : Bool :=
  bootstrapStartsWith typeName "cabi|" && semanticEndsWith typeName "|"

/-- The loops that read a number up to a byte, over the bytes from the cursor on: the number and the
place of the byte, unless they return early. -/
def readNumber (length : Nat) (mark : UInt8) :
    (bytes : List UInt8) → (number cursor : Nat) → Option (Nat × Nat)
  | [], number, cursor => some (number, cursor)
  | byte :: bytes, number, cursor =>
    if byte = mark then some (number, cursor)
    else if byte < 48 ∨ byte > 57 ∨ number > length then none
    else readNumber length mark bytes (number * 10 + (byte.toNat - 48)) (cursor + 1)

/-- The loop of `semanticCFunctionComponents` over the components that are left. -/
def readComponents (typeName : Text) :
    (left cursor : Nat) → (result : List Text) → Option (List Text)
  | 0, cursor, result => some (if cursor ≠ typeName.byteLength - 1 then [] else result)
  | left + 1, cursor, result =>
    if cursor < typeName.byteLength - 1 then
      match readNumber typeName.byteLength 58 (typeName.bytes.drop cursor) 0 cursor with
      | none => some []
      | some (size, mark) =>
        let cursor := mark + 1
        if size = 0 ∨ size > typeName.byteLength - cursor - 1 then some []
        else do
          let component ← typeName.slice cursor size
          readComponents typeName left (cursor + size) (result ++ [component])
    else some []

def semanticCFunctionComponents (typeName : Text) : Option (List Text) :=
  if !semanticIsCFunction typeName then some []
  else
    match readNumber typeName.byteLength 124 (typeName.bytes.drop 5) 0 5 with
    | none => some []
    | some (count, cursor) =>
      if count = 0 ∨ count > typeName.byteLength then some []
      else readComponents typeName count (cursor + 1) []

end Neri.Semantic
