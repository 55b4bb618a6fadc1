import Neri.Codegen.Transport

/-!
# Method tables (`llvm_lowering.cpp`)

`build_class_layout` copies the table of the base class and then enters the virtual methods of the
class: into the index of their slot where the slot is known, at the end where it is new. The object
layout that the same function computes is left out.
-/

namespace Neri.Codegen

open Neri.Ir

/-- The dispatch half of `lowered_class`; an implementation stands for its function. -/
structure ClassLayout where
  virtualMethods : List SymbolId := []
  dispatchSlots : List (SymbolId × Nat) := []
  deriving DecidableEq, Repr

/-- One pass of the method loop. -/
def addVirtualMethod (layout : ClassLayout) (item : Method) : ClassLayout :=
  if item.dispatch ≠ .virtualDispatch then layout
  else
    match item.dispatchSlot with
    | none => layout
    | some slot =>
      match layout.dispatchSlots.lookup slot with
      | some index =>
        { layout with virtualMethods := layout.virtualMethods.set index item.functionId }
      | none =>
        { virtualMethods := layout.virtualMethods ++ [item.functionId]
          dispatchSlots := layout.dispatchSlots ++ [(slot, layout.virtualMethods.length)] }

def findClass (classes : List ClassDeclaration) (id : SymbolId) : Option ClassDeclaration :=
  classes.find? (·.id == id)

/-- `build_class_layout`. The recursion is over the base classes, of which a verified module has
finitely many; `fuel` bounds them, and `none` is a base class that is not declared. -/
def buildClassLayout (classes : List ClassDeclaration) : Nat → ClassDeclaration → Option ClassLayout
  | 0, _ => none
  | fuel + 1, declaration =>
    match declaration.base with
    | none => some (declaration.methods.foldl addVirtualMethod {})
    | some base =>
      match findClass classes base with
      | none => none
      | some baseClass =>
        (buildClassLayout classes fuel baseClass).map fun layout =>
          declaration.methods.foldl addVirtualMethod layout

end Neri.Codegen
