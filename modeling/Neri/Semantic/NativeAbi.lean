import Neri.Semantic.NativeRecords

/-!
# The layout of native types, without a memory of earlier layouts

`cLayout` is what both sides compute: the layout that C gives a type on the supported targets. The
level only bounds how far records may nest.

`reach` and `visitEach` say how deep the back end looks. It follows the elements of pointers and
the signatures of C functions too, and it enters each record once.
-/

namespace Neri.Semantic

open AggregateLayout

/-! ## Layouts -/

namespace NativeTypeName

/-- The types that are stored as an address. -/
def isAddress : NativeTypeName → Bool
  | .pointer _ | .cFunction _ _ | .optional (.pointer _) | .optional (.cFunction _ _) => true
  | _ => false

/-- The bytes of a scalar, which is aligned to its size. -/
def scalarBytes : NativeTypeName → Option Nat
  | .bool | .numeric .byte => some 1
  | .numeric .int32 | .numeric .uint32 | .numeric .float32 => some 4
  | .numeric .int | .numeric .uint64 | .numeric .float => some 8
  | _ => none

def leafLayout (type : NativeTypeName) : Option Layout :=
  if type.isAddress then some { size := 8, alignment := 8, offsets := [] }
  else type.scalarBytes.map fun bytes => { size := bytes, alignment := bytes, offsets := [] }

end NativeTypeName

def arrayLayout (element : Layout) (count : Nat) : Option Layout :=
  if 0 < count ∧ element.size * count ≤ nativeSizeLimit then
    some { size := element.size * count, alignment := element.alignment, offsets := [] }
  else none

def recordLayoutOf (unionType : Bool) (members : List Layout) : Option Layout :=
  if members ≠ [] ∧ (Layout.placeAll unionType members).close.size ≤ nativeSizeLimit then
    some (Layout.placeAll unionType members).close
  else none

/-- The layout of a type whose aggregates nest less than `level` deep. -/
def cLayout (declarations : NativeDeclarations) : Nat → NativeTypeName → Option Layout
  | 0, _ => none
  | level + 1, .fixedArray inner count => do
    arrayLayout (← cLayout declarations level inner) count
  | level + 1, .record name => do
    let record ← declarations.findRecord name
    let members ← record.fields.mapM fun field => cLayout declarations level field.typeName
    recordLayoutOf record.unionType members
  | _ + 1, type => type.leafLayout

/-! ## Depths -/

/-- Where a type stands. -/
inductive TypePlace where
  | field
  | pointee
  | arrayPointee
  | result
  | parameter
  deriving DecidableEq, Repr

namespace TypePlace

/-- A pointer may lead to void, and a C function may return it. -/
def allowsVoid : TypePlace → Bool
  | .pointee | .result => true
  | _ => false

/-- Records and arrays cannot be passed to a C function or returned by it. -/
def allowsAggregate : TypePlace → Bool
  | .result | .parameter => false
  | _ => true

def ofElement : TypePlace → TypePlace
  | .field => .field
  | _ => .arrayPointee

/-- The level between a type and what it is part of. -/
def level : TypePlace → Nat
  | .field => 0
  | _ => 1

end TypePlace

namespace NativeTypeName

mutual

/-- How many levels the back end goes down for a type, without the fields of records. -/
def reach : TypePlace → NativeTypeName → Option Nat
  | place, .void => if place.allowsVoid then some 0 else none
  | place, .record _ => if place.allowsAggregate then some 0 else none
  | place, .fixedArray inner _ =>
    if place.allowsAggregate then (reach place.ofElement inner).map (1 + ·) else none
  | place, .numeric _ | place, .bool => some place.level
  | place, .pointer inner | place, .optional (.pointer inner) =>
    (reach .pointee inner).map (place.level + 2 + ·)
  | place, .cFunction result parameters => do
    return place.level + max (← reach .result result) (← reachAll parameters)
  | place, .optional (.cFunction result parameters) => do
    return place.level + 1 + max (← reach .result result) (← reachAll parameters)
  | _, _ => none

/-- The same for the parameters of a C function. -/
def reachAll : List NativeTypeName → Option Nat
  | [] => some 0
  | first :: rest => do return max (← reach .parameter first) (← reachAll rest)

end

/-- The record that a type holds by value, and the arrays around it. -/
def heldRecord : NativeTypeName → Option (String × Nat)
  | .record name => some (name, 0)
  | .fixedArray inner _ => inner.heldRecord.map fun held => (held.1, held.2 + 1)
  | _ => none

end NativeTypeName

/-- A type that the back end meets, and its depth there. -/
structure Visit where
  typeName : NativeTypeName
  depth : Nat

/-- Everything that the back end looks at for this type is nested less than 128 deep. -/
def Visit.fits (visit : Visit) : Bool :=
  match visit.typeName.reach .field with
  | some levels => visit.depth + levels < nativeDepthLimit
  | none => false

/-- The fields of a record at `depth`, each followed by what `visit` finds in the record it holds. -/
def visitFields (visit : Nat → String → List String → List Visit × List String) (depth : Nat) :
    List NativeField → List String → List Visit × List String
  | [], seen => ([], seen)
  | field :: rest, seen =>
    let held := match field.typeName.heldRecord with
      | some (name, arrays) => visit (depth + 1 + arrays) name seen
      | none => ([], seen)
    let others := visitFields visit depth rest held.2
    ({ typeName := field.typeName, depth := depth + 1 } :: held.1 ++ others.1, others.2)

/-- The fields that the back end meets in the record `name` at `depth`, with the records it has
completed: those of `seen` are not entered again. A record that stands too deep is not entered
either; the field that holds it does not fit. -/
def visitRecord (declarations : NativeDeclarations) :
    Nat → Nat → String → List String → List Visit × List String
  | 0, _, _, seen => ([], seen)
  | levels + 1, depth, name, seen =>
    if name ∈ seen then ([], seen)
    else
      match declarations.findRecord name with
      | none => ([], seen)
      | some record =>
        let inside := visitFields (visitRecord declarations levels) depth record.fields seen
        (inside.1, name :: inside.2)

/-- The fields that one object of the back end meets when it lays out these records in turn. -/
def visitEach (declarations : NativeDeclarations) : List String → List String → List Visit
  | [], _ => []
  | name :: rest, seen =>
    let inside := visitRecord declarations nativeDepthLimit 0 name seen
    inside.1 ++ visitEach declarations rest inside.2

end Neri.Semantic
