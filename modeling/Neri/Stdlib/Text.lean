import Neri.Stdlib.StrictUtf8

/-!
# Strings and scalars (`core.hk`, `text.hk`)

A string of the language is a sequence of bytes that the runtime has checked to be strict UTF-8:
there is no other way to make one. `Text` carries that check. Programs read strings byte by byte, at
offsets, and cut them at scalar boundaries. A cut by `stringSlice` anywhere else stops the program;
here it has no result.
-/

namespace Neri.Stdlib

open Utf8

/-- A string. -/
structure Text where
  bytes : List UInt8
  strict : isStrictUtf8 bytes = true
  deriving DecidableEq

namespace Text

@[ext] theorem ext {left right : Text} (h : left.bytes = right.bytes) : left = right := by
  cases left
  cases right
  cases h
  rfl

def ofScalars (scalars : List Char) : Text := ⟨encode scalars, isStrictUtf8_encode scalars⟩

theorem ofScalars_injective : Function.Injective ofScalars :=
  fun _ _ h => encode_injective (congrArg bytes h)

def ofString (literal : String) : Text := ofScalars literal.toList

instance : Coe String Text := ⟨ofString⟩

def scalars (text : Text) : List Char := decode text.bytes

theorem encode_scalars (text : Text) : encode text.scalars = text.bytes := by
  obtain ⟨chars, hchars⟩ := exists_encode text.strict
  rw [scalars, ← hchars, decode_encode]

@[simp] theorem scalars_ofScalars (scalars : List Char) : (ofScalars scalars).scalars = scalars :=
  decode_encode scalars

theorem ofScalars_scalars (text : Text) : ofScalars text.scalars = text := ext text.encode_scalars

/-- `String.fromBytes` and `host::stringFromBytes`. -/
def fromBytes (bytes : List UInt8) : Option Text :=
  if h : isStrictUtf8 bytes = true then some ⟨bytes, h⟩ else none

theorem fromBytes_encode (scalars : List Char) :
    fromBytes (encode scalars) = some (ofScalars scalars) := dif_pos (isStrictUtf8_encode scalars)

def byteLength (text : Text) : Nat := text.bytes.length

def byteAt (text : Text) (offset : Nat) : Option UInt8 := text.bytes[offset]?

def isScalarBoundary (text : Text) (offset : Nat) : Bool :=
  match text.bytes[offset]? with
  | some first => first.toNat < 128 || first.toNat ≥ 192
  | none => offset = text.byteLength

/-- `host::stringSlice`; a slice out of bounds or through a scalar stops the program. -/
def slice (text : Text) (start length : Nat) : Option Text :=
  if start ≤ text.byteLength && length ≤ text.byteLength - start then
    fromBytes ((text.bytes.drop start).take length)
  else none

def sliceBytes (text : Text) (start length : Nat) : Option Text :=
  if start > text.byteLength || length > text.byteLength - start ||
      !text.isScalarBoundary start || !text.isScalarBoundary (start + length) then none
  else text.slice start length

def concat (left right : Text) : Text :=
  ⟨left.bytes ++ right.bytes, by
    obtain ⟨chars, hchars⟩ := exists_encode left.strict
    rw [← hchars, isStrictUtf8_encode_append]
    exact right.strict⟩

instance : Append Text := ⟨concat⟩

@[simp] theorem bytes_append (left right : Text) :
    (left ++ right).bytes = left.bytes ++ right.bytes := rfl

end Text

/-- `text::Scalar`, with the check of `fromInt`. -/
structure Scalar where
  code : Nat
  valid : code.isValidChar

namespace Scalar

def fromInt (code : Int) : Option Scalar :=
  if h : code < 0 ∨ code > 1114111 ∨ 55296 ≤ code ∧ code ≤ 57343 then none
  else some ⟨code.toNat, by unfold Nat.isValidChar; omega⟩

def utf8 (scalar : Scalar) : List UInt8 :=
  let code := scalar.code
  if code < 128 then [UInt8.ofNat code]
  else if code < 2048 then
    let high := code / 64
    [UInt8.ofNat (192 + high), UInt8.ofNat (128 + code - high * 64)]
  else if code < 65536 then
    let high := code / 4096
    let middle := (code - high * 4096) / 64
    [UInt8.ofNat (224 + high), UInt8.ofNat (128 + middle),
      UInt8.ofNat (128 + code - high * 4096 - middle * 64)]
  else
    let high := code / 262144
    let upper := (code - high * 262144) / 4096
    let middle := (code - high * 262144 - upper * 4096) / 64
    [UInt8.ofNat (240 + high), UInt8.ofNat (128 + upper), UInt8.ofNat (128 + middle),
      UInt8.ofNat (128 + code - high * 262144 - upper * 4096 - middle * 64)]

end Scalar

end Neri.Stdlib
