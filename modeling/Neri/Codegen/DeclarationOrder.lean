import Neri.Codegen.FunctionVerifier
import Neri.Codegen.Transport
import Neri.Ir.Order

/-!
# The declaration order that the native verifier demands (`ir_verifier.cpp`)

The lists of a module must be strictly increasing: sources by identity, declarations by the tuple of
module, kind and name that `symbol_key` makes. Texts are `std::string`s, so they are compared by
their bytes.
-/

namespace Neri.Codegen

open Neri.Ir Neri.Frontend

/-- `operator<` of `std::string`. -/
def stringLess (left right : String) : Bool :=
  decide ((utf8Bytes left).map UInt8.toNat < (utf8Bytes right).map UInt8.toNat)

/-- `operator<` of the tuples that `symbol_key` makes. -/
def symbolKeyLess (left right : SymbolId) : Bool :=
  stringLess left.moduleName right.moduleName ||
    (!stringLess right.moduleName left.moduleName &&
      (decide (left.kind.wireCode < right.kind.wireCode) ||
        (!decide (right.kind.wireCode < left.kind.wireCode) &&
          stringLess left.semanticName right.semanticName)))

/-- `require_unique_order`, over the projected values. -/
def requireUniqueOrder {K : Type} (less : K → K → Bool) (description : String) :
    List K → Except ReaderError Unit
  | previous :: next :: rest =>
    if !less previous next then
      fail .malformedModule (description ++ " are not in unique canonical order.")
    else requireUniqueOrder less description (next :: rest)
  | _ => .ok ()

/-- The identities of the ordered lists of a module. -/
structure DeclaredIds where
  sources : List String
  classes : List SymbolId
  globals : List SymbolId
  imports : List SymbolId
  functions : List SymbolId

/-- The order checks of `verify_supported_module`. -/
def verifyDeclarationOrder (ids : DeclaredIds) : Except ReaderError Unit := do
  requireUniqueOrder stringLess "Sources" ids.sources
  requireUniqueOrder symbolKeyLess "Classes" ids.classes
  requireUniqueOrder symbolKeyLess "Globals" ids.globals
  requireUniqueOrder symbolKeyLess "Imports" ids.imports
  requireUniqueOrder symbolKeyLess "Functions" ids.functions

/-- The identities that the compiler writes, in the order in which it writes them. -/
def emittedIds (m : IrModule) : DeclaredIds :=
  { sources := (irOrderedSources m).map (·.id)
    classes := (irOrderedClasses m).map (symbolId ·.symbol)
    globals := (irOrderedGlobals m).map (symbolId ·.symbol)
    imports := (irOrderedImports m).map (symbolId ·.symbol)
    functions := (irOrderedFunctions m).map (symbolId ·.symbol) }

end Neri.Codegen
