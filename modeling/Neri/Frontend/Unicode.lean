import Mathlib.Data.List.Basic
import Neri.Frontend.UnicodeRanges

/-!
# Code points of UTF-8 texts (`unicode.hk`) and identifiers (`lexer.hk`)

A text of the source language is a string of Unicode scalars that the compiler reads as bytes. Here
it is a Lean string, and `utf8Bytes` are the bytes that `host::stringByteAt` reads. The functions
decode them as the source does, with no check that a sequence is well formed.
-/

namespace Neri.Frontend

def utf8Bytes (text : String) : List UInt8 := text.toList.flatMap String.utf8EncodeChar

/-- `host::stringByteAt`, as an integer. -/
def byteAt (bytes : List UInt8) (position : Nat) : Int := (bytes.getD position 0).toNat

/-- `utf8Width`: the number of bytes of the sequence that starts with the byte. -/
def utf8Width (first : Int) : Nat :=
  if first < 128 then 1
  else if first < 224 then 2
  else if first < 240 then 3
  else 4

theorem utf8Width_pos (first : Int) : 1 ≤ utf8Width first := by
  unfold utf8Width
  split <;> [skip; split <;> [skip; split]] <;> omega

def codePointAt (bytes : List UInt8) (position : Nat) : Int :=
  let first := byteAt bytes position
  if first < 128 then first
  else if first < 224 then
    let second := byteAt bytes (position + 1)
    (first - 192) * 64 + second - 128
  else if first < 240 then
    let second := byteAt bytes (position + 1)
    let third := byteAt bytes (position + 2)
    (first - 224) * 4096 + (second - 128) * 64 + third - 128
  else
    let second := byteAt bytes (position + 1)
    let third := byteAt bytes (position + 2)
    let fourth := byteAt bytes (position + 3)
    (first - 240) * 262144 + (second - 128) * 4096 + (third - 128) * 64 + fourth - 128

/-- The binary search of `inUnicodeRanges`, between the ranges `low` and `high`. -/
def searchUnicodeRanges (codePoint : Int) (ranges : List Nat) (low high : Int) : Bool :=
  if low ≤ high then
    let middle := low + (high - low) / 2
    let first : Int := ranges.getD (middle * 2).toNat 0
    let last : Int := ranges.getD (middle * 2 + 1).toNat 0
    if codePoint < first then searchUnicodeRanges codePoint ranges low (middle - 1)
    else if codePoint > last then searchUnicodeRanges codePoint ranges (middle + 1) high
    else true
  else false
termination_by (high - low + 1).toNat

def inUnicodeRanges (codePoint : Int) (ranges : List Nat) : Bool :=
  searchUnicodeRanges codePoint ranges 0 (ranges.length / 2 - 1)

def isIdentifierStart (codePoint : Int) : Bool :=
  codePoint == 95 || inUnicodeRanges codePoint unicodeLetterRanges

def isIdentifierPart (codePoint : Int) : Bool :=
  isIdentifierStart codePoint || inUnicodeRanges codePoint unicodeDigitRanges

/-- The identifier branch of `lex`, on a text that holds nothing else: the position where the
identifier that starts the text ends. -/
def identifierEnd (bytes : List UInt8) (position : Nat) : Nat :=
  if position < bytes.length then
    if isIdentifierPart (codePointAt bytes position) then
      identifierEnd bytes (position + utf8Width (byteAt bytes position))
    else position
  else position
termination_by bytes.length - position
decreasing_by
  have hwidth := utf8Width_pos (byteAt bytes position)
  omega

/-- The lexer reads the whole text as one identifier or keyword. -/
def isIdentifier (text : String) : Bool :=
  let bytes := utf8Bytes text
  decide (0 < bytes.length) && isIdentifierStart (codePointAt bytes 0) &&
    identifierEnd bytes (utf8Width (byteAt bytes 0)) == bytes.length

end Neri.Frontend
