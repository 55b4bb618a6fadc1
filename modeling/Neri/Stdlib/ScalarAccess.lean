import Neri.Frontend.Unicode
import Neri.Stdlib.Text

/-!
# Access to the scalars of a string (`core.hk`)

`core::scalarWidth` is the compiler's `utf8Width`, and `scalarAt` reads a scalar as `codePointAt` does.
-/

namespace Neri.Stdlib.Text

open Frontend (utf8Width utf8Width_pos codePointAt)

/-- `isScalarBoundary` of an offset that may be negative. -/
def isScalarBoundaryAt (text : Text) (offset : Int) : Bool :=
  !decide (offset < 0) && text.isScalarBoundary offset.toNat

/-- `sliceBytes` of a range that may be negative. -/
def sliceBytesAt (text : Text) (start length : Int) : Option Text :=
  if start < 0 || length < 0 then none else text.sliceBytes start.toNat length.toNat

/-- The width of the scalar at an offset. -/
def widthAt (text : Text) (offset : Nat) : Nat := utf8Width (Frontend.byteAt text.bytes offset)

/-- The loop of `scalarCount`. -/
def scalarCountFrom (text : Text) (offset count : Nat) : Nat :=
  if offset < text.byteLength then text.scalarCountFrom (offset + text.widthAt offset) (count + 1)
  else count
termination_by text.byteLength - offset
decreasing_by
  have : 1 ≤ text.widthAt offset := utf8Width_pos _
  omega

def scalarCount (text : Text) : Nat := text.scalarCountFrom 0 0

/-- The loop of `scalarAt`. A read past the end stops the program. -/
def scalarAtFrom (text : Text) (index : Int) (offset : Nat) (current : Int) : Option (Option Int) :=
  if offset < text.byteLength then
    if current = index then
      if offset + text.widthAt offset ≤ text.byteLength then
        some (some (codePointAt text.bytes offset))
      else none
    else text.scalarAtFrom index (offset + text.widthAt offset) (current + 1)
  else some none
termination_by text.byteLength - offset
decreasing_by
  have : 1 ≤ text.widthAt offset := utf8Width_pos _
  omega

def scalarAt (text : Text) (index : Int) : Option (Option Int) :=
  if index < 0 then some none else text.scalarAtFrom index 0 0

end Neri.Stdlib.Text
