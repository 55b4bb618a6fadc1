import Neri.Lib.GuardedLinks
import Neri.Semantic.Hierarchy

/-!
# Resolving base clauses (`BootstrapBinder.resolveInheritance`)

The classes have been registered without bases. The base clauses are resolved one after another, and
a base that closes a cycle is reported and taken back. The search for a cycle is bounded like the
other walks over base classes.

A specialisation of a generic class is resolved while the clause that names it is: it stands here
among the declarations, before the class that names it. What a clause resolves to does not depend on
the bases that have been linked; it is data of the clause.
-/

namespace Neri.Semantic

/-- `semanticIsBuiltin`. -/
def SemanticType.isBuiltin : SemanticType → Bool
  | .numeric _ | .bool | .string | .void => true
  | _ => false

/-- `semanticIsPointer`. -/
def SemanticType.isPointer : SemanticType → Bool
  | .pointer _ => true
  | _ => false

/-- A base clause: its node, the type as it is written, and the name that it resolves to. -/
structure BaseClause where
  node : Int
  written : SemanticType
  resolved : String
  deriving DecidableEq, Repr

/-- The clause is a name that has been resolved. -/
def BaseClause.isName (clause : BaseClause) : Bool :=
  !(clause.written.isBuiltin || clause.written.isArray || clause.written.isOptional ||
      clause.written.isPointer) &&
    clause.resolved != "Error" && clause.resolved != "Unknown"

/-- A `SemanticClass` with the fields that only the resolution of bases reads. The clause is what
`classBaseNode` finds. -/
structure DeclaredClass extends SemanticClass where
  name : String
  isSealed : Bool := false
  clause : Option BaseClause := none
  deriving DecidableEq, Repr

def DeclaredClass.withBase (c : DeclaredClass) (baseName : String) : DeclaredClass :=
  { c with baseName }

/-- The classes of the binder's model, and what this pass has reported. -/
structure InheritanceState where
  classes : List DeclaredClass
  diagnostics : List Diagnostic := []
  deriving DecidableEq, Repr

namespace InheritanceState

/-- The semantic model with these classes. -/
def model (s : InheritanceState) : SemanticModel := { classes := s.classes.map (·.toSemanticClass) }

def findClass (s : InheritanceState) (fullName : String) : Option DeclaredClass :=
  s.classes.find? (·.fullName == fullName)

def classForNode (s : InheritanceState) (node : Int) : Option DeclaredClass :=
  s.classes.find? (·.syntaxNode == node)

def report (s : InheritanceState) (diagnostic : Diagnostic) : InheritanceState :=
  { s with diagnostics := s.diagnostics ++ [diagnostic] }

/-- Assigns `baseName` of a class. -/
def setBase (s : InheritanceState) (fullName baseName : String) : InheritanceState :=
  { s with
    classes := s.classes.map fun c => if c.fullName = fullName then c.withBase baseName else c }

end InheritanceState

/-- The loop of `hasInheritanceCycle`. -/
def inheritanceCycleLoop (model : SemanticModel) (fullName : String) :
    Nat → Option SemanticClass → Bool
  | _, none => false
  | 0, some _ => false
  | steps + 1, some current =>
    current.fullName == fullName ||
      inheritanceCycleLoop model fullName steps (model.findClass current.baseName)

def hasInheritanceCycle (model : SemanticModel) (classSymbol : SemanticClass) : Bool :=
  inheritanceCycleLoop model classSymbol.fullName inheritanceSteps
    (model.findClass classSymbol.baseName)

def inheritanceCycle (classSymbol : DeclaredClass) : Diagnostic where
  code := "NR161"
  node := classSymbol.syntaxNode
  message := "Inheritance cycle detected for class '" ++ classSymbol.name ++ "'."

/-- The tests of `resolveClassInheritance` on a clause and the class that it names: the base, or a
diagnostic. A clause that has failed to resolve was reported where it failed. -/
def checkBaseClause (symbol : DeclaredClass) (clause : BaseClause) (named : Option DeclaredClass) :
    Except (Option Diagnostic) String :=
  let written := clause.written
  let resolved := clause.resolved
  let refuse (code message : String) : Except (Option Diagnostic) String :=
    .error (some { code, node := clause.node, message })
  if written.isBuiltin || written.isArray || written.isOptional || written.isPointer then
    refuse "NR159" ("Base type '" ++ written.text ++ "' must be a class.")
  else if resolved = "Error" then
    .error none
  else if resolved = "Unknown" then
    refuse "NR158" ("Base class '" ++ written.text ++ "' was not found.")
  else if resolved = symbol.fullName then
    refuse "NR160" ("Class '" ++ symbol.name ++ "' cannot inherit from itself.")
  else
    match named with
    | none => refuse "NR159" ("Base type '" ++ written.text ++ "' must be a class.")
    | some base =>
      if base.isSealed then
        refuse "NR159" ("Sealed class '" ++ resolved ++ "' cannot be inherited.")
      else if base.isAlternative then
        refuse "NR260" ("Closed alternative type '" ++ resolved ++ "' cannot be inherited.")
      else if base.isResource then
        refuse "NR262" "Resource classes cannot be inherited."
      else if symbol.isResource then
        refuse "NR262" "A resource class cannot inherit from another class."
      else
        .ok resolved

/-- The part of `resolveClassInheritance` after the tests. -/
def linkBase (s : InheritanceState) (symbol : DeclaredClass) (resolved : String) :
    InheritanceState :=
  let linked := s.setBase symbol.fullName resolved
  if hasInheritanceCycle linked.model (symbol.withBase resolved).toSemanticClass then
    (linked.report (inheritanceCycle symbol)).setBase symbol.fullName ""
  else
    linked

def resolveClassInheritance (s : InheritanceState) (symbol : DeclaredClass) : InheritanceState :=
  match symbol.clause with
  | none => s
  | some clause =>
    match checkBaseClause symbol clause (s.findClass clause.resolved) with
    | .error none => s
    | .error (some diagnostic) => s.report diagnostic
    | .ok resolved => linkBase s symbol resolved

/-- The body of the first loop of `resolveInheritance`. -/
def resolveNode (s : InheritanceState) (node : Int) : InheritanceState :=
  match s.classForNode node with
  | none => s
  | some symbol => resolveClassInheritance s symbol

/-- The body of its second loop, for the class at an index. -/
def unlinkCycle (s : InheritanceState) (index : Nat) : InheritanceState :=
  match s.classes[index]? with
  | none => s
  | some current =>
    if hasInheritanceCycle s.model current.toSemanticClass then
      (s.report (inheritanceCycle current)).setBase current.fullName ""
    else
      s

def DeclaredClass.nodes (c : DeclaredClass) : List Int :=
  c.syntaxNode :: (c.clause.map (·.node)).toList

/-- The classes as `registerClassNames` leaves them, and the nodes of all declarations in the order
in which they are resolved. -/
structure ClassDeclarations where
  classes : List DeclaredClass
  classNodes : List Int
  named : ∀ c ∈ classes, c.fullName ≠ ""
  fullNames : (classes.map (·.fullName)).Nodup
  nodes : (classes.flatMap (·.nodes)).Nodup
  unlinked : ∀ c ∈ classes, c.baseName = ""
  distinct : classNodes.Nodup
  listed : ∀ c ∈ classes, c.syntaxNode ∈ classNodes

namespace ClassDeclarations

variable (d : ClassDeclarations)

def initial : InheritanceState := { classes := d.classes }

def resolveInheritance : InheritanceState :=
  let linked := d.classNodes.foldl resolveNode d.initial
  (List.range linked.classes.length).foldl unlinkCycle linked

/-! ## What is written -/

def findClass (fullName : String) : Option DeclaredClass := d.initial.findClass fullName

/-- The class that the base clause of a class names. -/
def written (fullName : String) : Option String := do
  let symbol ← d.findClass fullName
  let clause ← symbol.clause
  if clause.isName then (d.findClass clause.resolved).map (·.fullName) else none

/-- The base of a class, if its clause passes all tests. -/
def admitted (fullName : String) : Option String := do
  let symbol ← d.findClass fullName
  let clause ← symbol.clause
  (checkBaseClause symbol clause (d.findClass clause.resolved)).toOption

/-- The base clauses lead from the class back to it. -/
def OnCycle (c : DeclaredClass) : Prop := GuardedLinks.Returns d.written c.fullName

end ClassDeclarations

namespace InheritanceState

/-- Base names lead from no class back to it. -/
def Acyclic (s : InheritanceState) : Prop := ∀ c ∈ s.model.classes, ¬Ancestor s.model c c

/-- There is a diagnostic at the declaration or at the base clause. -/
def Reported (s : InheritanceState) (c : DeclaredClass) : Prop :=
  ∃ diagnostic ∈ s.diagnostics, diagnostic.node ∈ c.nodes

/-- There is one, and it says that the class inherits from itself or is on a cycle. -/
def ReportedCycle (s : InheritanceState) (c : DeclaredClass) : Prop :=
  ∃ diagnostic ∈ s.diagnostics, diagnostic.node ∈ c.nodes ∧ diagnostic.code ∈ ["NR160", "NR161"]

end InheritanceState

end Neri.Semantic
