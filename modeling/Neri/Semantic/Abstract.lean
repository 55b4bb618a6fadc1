import Neri.Semantic.Overrides

/-!
# Abstract methods (`abstract.hk`)

Each class gets the list of the abstract methods that it and its base classes leave open. The list of
a base class is computed first and copied; a class is computed once. A class that is not abstract and
has open methods is reported.
-/

namespace Neri.Semantic

/-- What the validation keeps on the classes and what it has reported. A class is started when it has
a list; the latest list of a class is the first one under its name. -/
structure AbstractState where
  requirements : List (String × List SemanticCallable) := []
  diagnostics : List Diagnostic := []

namespace AbstractState

/-- `abstractValidationStarted`. -/
def started (state : AbstractState) (fullName : String) : Bool :=
  (state.requirements.lookup fullName).isSome

/-- The list that starts with `firstAbstractRequirement`. -/
def requirementsOf (state : AbstractState) (fullName : String) : List SemanticCallable :=
  (state.requirements.lookup fullName).getD []

/-- The list of a class is replaced. -/
def setRequirements (state : AbstractState) (fullName : String)
    (requirements : List SemanticCallable) : AbstractState :=
  { state with requirements := (fullName, requirements) :: state.requirements }

def report (state : AbstractState) (diagnostic : Diagnostic) : AbstractState :=
  { state with diagnostics := state.diagnostics ++ [diagnostic] }

end AbstractState

/-- `copyAbstractRequirements`: each requirement is put in front. -/
def copyAbstractRequirements (target source : List SemanticCallable) : List SemanticCallable :=
  source.foldl (fun requirements callable => callable :: requirements) target

/-- The inner loop of `validateAbstractClassObligations`: the first requirement that the method meets
is replaced by an abstract method and removed by another. `none` when there is no such one. -/
def matchRequirement (method : SemanticCallable) :
    List SemanticCallable → Option (List SemanticCallable)
  | [] => none
  | required :: rest =>
    if !method.isStatic && !required.isStatic && required.name == method.name &&
        compatibleMethods method required false then
      some (if method.isAbstract then method :: rest else rest)
    else (matchRequirement method rest).map (required :: ·)

/-- One pass of the method loop. -/
def meetObligations (requirements : List SemanticCallable) (method : SemanticCallable) :
    List SemanticCallable :=
  match matchRequirement method requirements with
  | some requirements => requirements
  | none => if method.isAbstract then method :: requirements else requirements

/-- The report about a class that leaves a method open. -/
def missingImplementation (classSymbol : SemanticClass) (pending : SemanticCallable) : Diagnostic :=
  { code := "NR255"
    node := classSymbol.syntaxNode
    message := "Concrete class '" ++ classSymbol.fullName ++ "' must implement abstract method '" ++
      pending.fullName ++ "'." }

/-- The requirements of a class after its method loop. -/
def remainingObligations (state : AbstractState) (classSymbol : SemanticClass)
    (inherited : List SemanticCallable) : List SemanticCallable :=
  classSymbol.methods.foldl meetObligations
    (copyAbstractRequirements (state.requirementsOf classSymbol.fullName) inherited)

/-- The check at the end of `validateAbstractClassObligations`. -/
def reportPending (state : AbstractState) (classSymbol : SemanticClass) :
    List SemanticCallable → AbstractState
  | pending :: _ =>
    if !classSymbol.isAbstract then state.report (missingImplementation classSymbol pending)
    else state
  | [] => state

/-- What `validateAbstractClassObligations` does with a class once its base class is done. -/
def finishObligations (state : AbstractState) (classSymbol : SemanticClass)
    (inherited : List SemanticCallable) : AbstractState :=
  reportPending
    (state.setRequirements classSymbol.fullName (remainingObligations state classSymbol inherited))
    classSymbol (remainingObligations state classSymbol inherited)

theorem unstarted_lt (model : SemanticModel) (state : AbstractState) {c : SemanticClass}
    (hc : c ∈ model.classes) (h : state.started c.fullName = false) : (model.classes.filter fun k =>
        !(state.setRequirements c.fullName []).started k.fullName).length <
      (model.classes.filter fun k => !state.started k.fullName).length := by
  have hsub : ∀ k : SemanticClass, (!(state.setRequirements c.fullName []).started k.fullName) =
        (!(state.setRequirements c.fullName []).started k.fullName && !state.started k.fullName) := by
    intro k
    unfold AbstractState.started AbstractState.setRequirements
    rw [List.lookup_cons]
    split <;> simp
  have hself : (state.setRequirements c.fullName []).started c.fullName = true := by
    simp [AbstractState.started, AbstractState.setRequirements]
  rw [funext hsub, ← List.filter_filter, List.length_filter_lt_length_iff_exists]
  exact ⟨c, List.mem_filter.mpr ⟨hc, by simp [h]⟩, by simp [hself]⟩

def validateAbstractClassObligations (model : SemanticModel) (state : AbstractState)
    (classSymbol : { c // c ∈ model.classes }) : AbstractState :=
  if _ : state.started classSymbol.1.fullName = false then
    match hbase : model.findClass classSymbol.1.baseName with
    | none =>
      finishObligations (state.setRequirements classSymbol.1.fullName []) classSymbol.1 []
    | some base =>
      let validated := validateAbstractClassObligations model
        (state.setRequirements classSymbol.1.fullName [])
        ⟨base, SemanticModel.findClass_mem hbase⟩
      finishObligations validated classSymbol.1 (validated.requirementsOf base.fullName)
  else state
termination_by (model.classes.filter fun k => !state.started k.fullName).length
decreasing_by exact unstarted_lt model state classSymbol.2 ‹_›

def validateAbstractClasses (model : SemanticModel) : AbstractState :=
  model.classes.attach.foldl (validateAbstractClassObligations model) {}

end Neri.Semantic
