import Neri.Semantic.Assignability
import Neri.Semantic.BodySyntax
import Neri.Semantic.Bound
import Neri.Semantic.FlowState

/-!
# The body binder (`bootstrap_body_binder.hk`)

Binds the body of a callable: resolves names, gives every use of a variable the type that null checks
have narrowed it to, and follows which locals still own a resource. The binder goes on after a
report; a body is accepted when there is none at the end.

Positions, completion sites, closures and the checks of operations on their operands are left out.
-/

namespace Neri.Semantic

/-- A parameter of the callable, with its type name taken apart. -/
structure BodyParameter where
  name : String
  typeName : SemanticType
  deriving DecidableEq, Repr

/-- What the binder of a body reads and does not change. Whether a qualifier names an alternative
depends on the namespaces in use (`alternativeQualifierMatches`). -/
structure BodyContext where
  model : SemanticModel
  parameters : List BodyParameter
  returnType : SemanticType
  callableName : String
  qualifierMatches : SemanticClass → String → Bool

def BodyContext.findParameter (context : BodyContext) (name : String) : Option BodyParameter :=
  context.parameters.find? (·.name == name)

/-- `BootstrapBodyBinder`: the state of the binder. The move states of the locals stand in the order
of the locals; `loopResourceDepth` is `none` where the source has -1. -/
structure BodyBinder where
  flow : BindingFlowState := {}
  locals : List SemanticLocal := []
  moves : List ResourceMoveState := []
  scopeDepth : Nat := 0
  loopDepth : Nat := 0
  loopResourceDepth : Option Nat := none
  returnTransferDepth : Nat := 0
  diagnostics : List Diagnostic := []

/-- The resource identity of a bound value: the variable it is read from, or the mark of a
conditional. -/
inductive ResourceIdentity where
  | none
  | variable (symbol : Variable)
  | conditional
  deriving DecidableEq, Repr

structure BoundValue where
  typeName : SemanticType
  boundNode : BoundExpression
  resourceIdentity : ResourceIdentity := .none

namespace BodyBinder

def report (code message : String) (s : BodyBinder) : BodyBinder :=
  { s with diagnostics := s.diagnostics ++ [⟨code, -1, message⟩] }

def reportIf (failed : Bool) (code message : String) (s : BodyBinder) : BodyBinder :=
  if failed then s.report code message else s

def enterFlow (s : BodyBinder) : BodyBinder := { s with flow := s.flow.enterFlow }

def leaveFlow (s : BodyBinder) : BodyBinder := { s with flow := s.flow.leaveFlow }

def enterScope (s : BodyBinder) : BodyBinder := { s with scopeDepth := s.scopeDepth + 1 }

/-- A local that owns a resource and has not been acquired by `using`. -/
def ownsResource (context : BodyContext) (entry : SemanticLocal) : Bool :=
  directResourceType context.model entry.typeName && !entry.resourceScoped

/-- The locals for which a check finds an owned resource that is not moved. -/
def unmoved (context : BodyContext) (checked : SemanticLocal → Bool) (s : BodyBinder) :
    List SemanticLocal :=
  ((s.locals.zip s.moves).filter fun (entry, move) =>
    checked entry && ownsResource context entry && !move.isMoved).map (·.1)

def leaveScope (context : BodyContext) (s : BodyBinder) : BodyBinder :=
  { s with
    diagnostics := s.diagnostics ++ (s.unmoved context (·.depth == s.scopeDepth)).map fun _ =>
      ⟨"NR262", -1,
        "Owned resource must be acquired with 'using' or transferred before its scope ends."⟩
    locals := s.locals.map fun entry =>
      if entry.depth == s.scopeDepth then { entry with active := false } else entry
    scopeDepth := s.scopeDepth - 1 }

def validateOwnedLocals (context : BodyContext) (s : BodyBinder) : BodyBinder :=
  { s with
    diagnostics := s.diagnostics ++ (s.unmoved context (·.active)).map fun _ =>
      ⟨"NR262", -1,
        "Owned resource must be acquired with 'using' or transferred before returning."⟩ }

def localInCurrentScope (name : String) (s : BodyBinder) : Bool :=
  s.locals.any fun entry => entry.active && entry.depth == s.scopeDepth && entry.name == name

/-- The last local that is active and has this name, counted from `index` on. -/
def findLocalFrom (name : String) : Nat → List SemanticLocal → Option (Nat × SemanticLocal)
  | _, [] => none
  | index, entry :: rest =>
    (findLocalFrom name (index + 1) rest).or
      (if entry.active && entry.name == name then some (index, entry) else none)

/-- `findLocal`, with the place of the local. -/
def findLocal (name : String) (s : BodyBinder) : Option (Nat × SemanticLocal) :=
  findLocalFrom name 0 s.locals

/-- `declareLocal`. The new local is number `s.locals.length`. -/
def declareLocal (name : String) (typeName : SemanticType) (isMutable resourceScoped : Bool)
    (s : BodyBinder) : BodyBinder :=
  { s with
    locals := s.locals ++ [{ name, typeName, isMutable, depth := s.scopeDepth, resourceScoped }]
    moves := s.moves ++ [.available] }

/-- `findVariableIdentity`, with `none` for the empty identity. -/
def findVariable (context : BodyContext) (name : String) (s : BodyBinder) : Option Variable :=
  match s.findLocal name with
  | some (index, _) => some (.declared index)
  | none => (context.findParameter name).map fun _ => .parameter name

/-- `findVariableType`, with `none` for the empty name. A parameter goes before a local. -/
def findVariableType (context : BodyContext) (name : String) (s : BodyBinder) :
    Option SemanticType :=
  s.flow.variableType name
    (((context.findParameter name).map (·.typeName)).or
      ((s.findLocal name).map (·.2.typeName)))

def moveOf (index : Nat) (s : BodyBinder) : ResourceMoveState :=
  s.moves.getD index .available

/-- Sets the move state of a local to `moved`. -/
def setMoved (index : Nat) (s : BodyBinder) : BodyBinder := { s with moves := s.moves.set index .moved }

/-- A local declared outside the loop that is being bound. -/
def outsideLoop (entry : SemanticLocal) (s : BodyBinder) : Bool :=
  s.loopResourceDepth.any (entry.depth ≤ ·)

/-- The end of `applyConditionNarrowing`: the variable with this name is not null. -/
def narrow (context : BodyContext) (name : String) (s : BodyBinder) : BodyBinder :=
  match s.findVariableType context name with
  | some (.optional inner) => { s with flow := s.flow.addNarrowing name inner }
  | _ => s

end BodyBinder

/-- The name that a comparison of two expressions compares with `null`. -/
def comparedWithNull : Expression → Expression → Option String
  | .name name, .nullLiteral => some name
  | .nullLiteral, .name name => some name
  | _, _ => none

def applyConditionNarrowing (context : BodyContext) : Expression → Bool → BodyBinder → BodyBinder
  | .negation operand, whenTrue, s => applyConditionNarrowing context operand (!whenTrue) s
  | .logical isAnd left right, whenTrue, s =>
    if isAnd == whenTrue then
      applyConditionNarrowing context right whenTrue
        (applyConditionNarrowing context left whenTrue s)
    else
      s
  | .equality isEqual left right, whenTrue, s =>
    -- `!=` that holds or `==` that does not
    if isEqual != whenTrue then
      match comparedWithNull left right with
      | some name => s.narrow context name
      | none => s
    else
      s
  | _, _, s => s

/-! ## Expressions -/

def bindName (context : BodyContext) (name : String) (s : BodyBinder) : BoundValue × BodyBinder :=
  match s.findVariableType context name with
  | none =>
    (⟨.error, .name none .error, .none⟩, s.report "NR113" ("Undefined name '" ++ name ++ "'."))
  | some typeName =>
    (⟨typeName, .name (s.findVariable context name) typeName,
        match s.findVariable context name with
        | some symbol =>
          if semanticContainsResource context.model typeName then .variable symbol else .none
        | none => .none⟩,
      s.reportIf ((s.findLocal name).any fun (index, _) => !(s.moveOf index).isAvailable)
        "NR262" "Resource ownership was already transferred or released.")

def bindTransfer (context : BodyContext) (name : String) (expectedType : Option SemanticType)
    (returnPosition : Bool) (s : BodyBinder) : BoundValue × BodyBinder :=
  let s₁ := s.reportIf (!returnPosition) "NR262"
    "A resource transfer is valid only as a return value."
  match s.findLocal name with
  | none => (⟨.error, .error, .none⟩, s₁.report "NR262" "Transfer requires an owned local resource.")
  | some (index, entry) =>
    if (s.findVariableType context name).any (semanticContainsResource context.model) then
      (⟨entry.typeName, .transfer index entry.typeName, .variable (.declared index)⟩,
        (((s₁.reportIf (!(s.moveOf index).isAvailable) "NR262"
            "Resource ownership was already transferred or released.").reportIf
          (s.outsideLoop entry) "NR262"
            ("A resource declared outside a loop cannot be transferred inside the loop; " ++
              "acquire it within each iteration.")).reportIf
          (expectedType != some entry.typeName) "NR262"
            "Transfer requires a matching owned-resource return type.").setMoved index)
    else
      (⟨.error, .error, .none⟩,
        s₁.report "NR262" "Transfer requires an owned local resource.")

/-- The check of `!` in `bindUnary`. -/
def bindNegation (operand : BoundValue) (s : BodyBinder) : BoundValue × BodyBinder :=
  (⟨.bool, .negation operand.boundNode, .none⟩,
    s.reportIf (operand.typeName != .bool && operand.typeName != .error) "NR114"
      ("Unary operator '!' requires operand of type Bool, but got '" ++ operand.typeName.text ++
        "'."))

/-- The checks of `&&` and `||` in `bindBinary`. -/
def bindLogical (isAnd : Bool) (left right : BoundValue) (s : BodyBinder) :
    BoundValue × BodyBinder :=
  (⟨.bool, .logical isAnd left.boundNode right.boundNode, .none⟩,
    s.reportIf (left.typeName != .bool || right.typeName != .bool) "NR121"
      ("Logical operator '" ++ (if isAnd then "&&" else "||") ++
        "' requires operands of type (Bool, Bool), but got (" ++ left.typeName.text ++ ", " ++
        right.typeName.text ++ ")."))

/-- `optionalNull` in `bindBinary`. -/
def optionalNull (left right : SemanticType) : Bool :=
  (left.isOptional && right == .null) || (right.isOptional && left == .null)

/-- The checks of `==` and `!=` in `bindBinary`. -/
def bindEquality (isEqual : Bool) (left right : BoundValue) (s : BodyBinder) :
    BoundValue × BodyBinder :=
  (⟨.bool, .equality isEqual left.boundNode right.boundNode, .none⟩,
    if !optionalNull left.typeName right.typeName && left.typeName != right.typeName &&
        !semanticMixedOptionalEquality left.typeName right.typeName then
      s.report "NR118"
        ("Equality operator '" ++ (if isEqual then "==" else "!=") ++
          "' requires both operands to have the same type, but got (" ++ left.typeName.text ++
          ", " ++ right.typeName.text ++ ").")
    else
      s.reportIf (!optionalNull left.typeName right.typeName &&
          !semanticEqualityComparable left.typeName && left.typeName != .error) "NR119"
        ("Type '" ++ left.typeName.text ++ "' does not support equality comparison."))

/-- The end of `bindTernary`. -/
def bindConditional (context : BodyContext) (condition whenTrue whenFalse : BoundValue)
    (s : BodyBinder) : BoundValue × BodyBinder :=
  let joinedType := semanticTernaryType whenTrue.typeName whenFalse.typeName
  let resultType := joinedType.getD whenTrue.typeName
  (⟨resultType,
      .ternary resultType condition.boundNode whenTrue.boundNode whenFalse.boundNode,
      if semanticContainsResource context.model resultType &&
          (whenTrue.resourceIdentity != .none || whenFalse.resourceIdentity != .none) then
        .conditional
      else
        .none⟩,
    (s.reportIf (condition.typeName != .bool) "NR123"
        ("Ternary condition must be of type 'Bool', but got '" ++ condition.typeName.text ++
          "'.")).reportIf joinedType.isNone "NR124"
      ("Ternary branches must have the same or matching optional type, but got '" ++
        whenTrue.typeName.text ++ "' and '" ++ whenFalse.typeName.text ++ "'."))

/-- `propagationPayloadType`: the type of the first payload of a case. -/
def propagationPayloadType (symbol : SemanticClass) (caseIndex : Int) : SemanticType :=
  ((symbol.alternativeCases[caseIndex.toNat]?).bind (·.payloadTypes.head?)).getD .error

def isResourceOutcome (model : SemanticModel) (typeName : SemanticType) : Bool :=
  (model.classOf typeName).any fun symbol =>
    decide (symbol.genericOrigin ≥ 0) && symbol.fullName.startsWith "resources.Outcome<"

def resourceOutcomeArgument (model : SemanticModel) (typeName : SemanticType) (index : Nat) :
    SemanticType :=
  ((model.classOf typeName).bind (·.genericArguments[index]?)).getD .error

/-- The type of the failure that the callable can propagate, with `none` for the empty name. -/
def propagatedErrorType (context : BodyContext) : Option SemanticType :=
  match context.model.classOf context.returnType with
  | some target =>
    if target.propagationFailureCase ≥ 0 then
      some (propagationPayloadType target target.propagationFailureCase)
    else if isResourceOutcome context.model context.returnType then
      some (resourceOutcomeArgument context.model context.returnType 1)
    else
      none
  | none => none

/-- The end of `bindTry`. -/
def bindPropagation (context : BodyContext) (operand : BoundValue) (s : BodyBinder) :
    BoundValue × BodyBinder :=
  match context.model.classOf operand.typeName with
  | none =>
    (⟨.error, .error, .none⟩,
      s.reportIf (operand.typeName != .error) "NR284"
        "'try' requires an enum annotated with '@propagation'.")
  | some source =>
    if source.propagationSuccessCase < 0 || source.propagationFailureCase < 0 then
      (⟨.error, .error, .none⟩,
        s.report "NR284" "'try' requires an enum annotated with '@propagation'.")
    else
      let successType := propagationPayloadType source source.propagationSuccessCase
      let errorType := propagationPayloadType source source.propagationFailureCase
      let s₁ := s.reportIf
        (semanticContainsResource context.model successType ||
          semanticContainsResource context.model errorType) "NR284"
        ("'try' cannot unwrap resource-bearing payloads; use 'using' for resource acquisition.")
      (⟨successType, .propagation successType operand.boundNode, .none⟩,
        match propagatedErrorType context with
        | none => s₁.report "NR284"
            ("'try' requires an enclosing function returning a propagation enum or " ++
              "resources.Outcome.")
        | some targetError =>
          s₁.reportIf (!semanticAssignable context.model targetError errorType) "NR284"
            ("'try' error type '" ++ errorType.text ++ "' cannot propagate to '" ++
              targetError.text ++ "'."))

def alternativeCaseIndex (symbol : SemanticClass) (name : String) : Option Nat :=
  symbol.alternativeCases.findIdx? (·.name == name)

/-- `alternativePayloadType`, over the cases of the class. -/
def alternativePayloadTypes (symbol : SemanticClass) (caseIndex : Nat) : List SemanticType :=
  (symbol.alternativeCases[caseIndex]?).elim [] (·.payloadTypes)

/-- The checks of one payload in `bindAlternativeConstruct`; `expected` is `none` for a payload too
many. -/
def checkPayload (context : BodyContext) (caseName : String) (index : Nat)
    (expected : Option SemanticType) (isTransfer : Bool) (value : BoundValue) (s : BodyBinder) :
    BodyBinder :=
  (s.reportIf (semanticContainsResource context.model value.typeName &&
      value.resourceIdentity != .none && !isTransfer) "NR262"
      "Resource ownership cannot be copied into an alternative payload.").reportIf
    (expected.any fun typeName => !semanticAssignable context.model typeName value.typeName) "NR261"
    ("Alternative payload " ++ toString (index + 1) ++ " for '" ++ caseName ++ "' must be '" ++
      (expected.getD .error).text ++ "', but got '" ++ value.typeName.text ++ "'.")

/-- The name that a `transfer` transfers. -/
def Expression.transferredName : Expression → Option String
  | .transfer transferred => some transferred
  | _ => none

/-- An expression in a place where a `transfer` is valid; `bound` is what it is bound to where it is
not a `transfer`. -/
def bindTransferable (context : BodyContext) (expectedType : Option SemanticType)
    (expression : Expression) (bound : BoundValue × BodyBinder) (s : BodyBinder) :
    BoundValue × BodyBinder :=
  match expression.transferredName with
  | some name => bindTransfer context name expectedType true s
  | none => bound

/-- A payload of an alternative case, which a return may transfer. -/
def bindPayloadValue (context : BodyContext) (expectedType : Option SemanticType)
    (expression : Expression) (bound : BoundValue × BodyBinder) (s : BodyBinder) :
    BoundValue × BodyBinder :=
  if s.returnTransferDepth > 0 then bindTransferable context expectedType expression bound s
  else bound

mutual

/-- `bindExpression`. The types that a place expects only guide what is left out, but for a
`transfer`, which is rejected outside a return whatever is expected. -/
def bindExpression (context : BodyContext) : Expression → BodyBinder → BoundValue × BodyBinder
  | .nullLiteral, s => (⟨.null, .nullLiteral, .none⟩, s)
  | .boolLiteral value, s => (⟨.bool, .boolLiteral value, .none⟩, s)
  | .leaf typeName, s => (⟨typeName, .leaf typeName, .none⟩, s)
  | .name name, s => bindName context name s
  | .transfer name, s => bindTransfer context name none false s
  | .negation operand, s =>
    let value := bindExpression context operand s
    bindNegation value.1 value.2
  | .logical isAnd left right, s =>
    let leftValue := bindExpression context left s
    let rightValue := bindExpression context right
      (applyConditionNarrowing context left isAnd leftValue.2.enterFlow)
    bindLogical isAnd leftValue.1 rightValue.1 rightValue.2.leaveFlow
  | .equality isEqual left right, s =>
    let leftValue := bindExpression context left s
    let rightValue := bindExpression context right leftValue.2
    bindEquality isEqual leftValue.1 rightValue.1 rightValue.2
  | .ternary condition whenTrue whenFalse, s =>
    let conditionValue := bindExpression context condition s
    let s₁ := conditionValue.2
    let thenValue := bindExpression context whenTrue
      (applyConditionNarrowing context condition true s₁.enterFlow)
    let s₂ := thenValue.2.leaveFlow
    let elseValue := bindExpression context whenFalse
      (applyConditionNarrowing context condition false
        { s₂ with moves := restoreMoves s₁.moves s₂.moves }.enterFlow)
    let s₃ := elseValue.2.leaveFlow
    bindConditional context conditionValue.1 thenValue.1 elseValue.1
      { s₃ with moves := joinMoves s₂.moves s₃.moves s₃.moves }
  | .propagation operand, s =>
    let value := bindExpression context operand s
    bindPropagation context value.1 value.2
  | .construct symbol caseName payload, s =>
    match (context.model.findClass symbol).bind fun found =>
        (alternativeCaseIndex found caseName).map fun index => (found, index) with
    | none =>
      let arguments := bindOperands context payload
        (s.report "NR260"
          ("Type '" ++ symbol ++ "' has no alternative case '" ++ caseName ++ "'."))
      (⟨.error, .error, .none⟩, arguments.2)
    | some (found, caseIndex) =>
      let expected := alternativePayloadTypes found caseIndex
      let arguments := bindPayload context caseName 0 expected payload
        (s.reportIf (payload.length != expected.length) "NR261"
          ("Alternative case '" ++ caseName ++ "' expects " ++ toString expected.length ++
            " arguments, but got " ++ toString payload.length ++ "."))
      (⟨.classType symbol, .construct symbol caseIndex arguments.1, .none⟩, arguments.2)
  | .operation typeName operands, s =>
    let arguments := bindOperands context operands s
    (⟨typeName, .operation typeName arguments.1, .none⟩, arguments.2)

/-- The operands of an operation, from left to right. -/
def bindOperands (context : BodyContext) : Arguments → BodyBinder → BoundArguments × BodyBinder
  | .nil, s => (.nil, s)
  | .cons first rest, s =>
    let value := bindExpression context first s
    let others := bindOperands context rest value.2
    (.cons value.1.boundNode others.1, others.2)

def bindPayload (context : BodyContext) (caseName : String) (index : Nat) (expected : List SemanticType) :
    Arguments → BodyBinder → BoundArguments × BodyBinder
  | .nil, s => (.nil, s)
  | .cons first rest, s =>
    let value := bindPayloadValue context expected.head? first (bindExpression context first s) s
    let others := bindPayload context caseName (index + 1) expected.tail rest
      (checkPayload context caseName index expected.head? first.transferredName.isSome value.1
        value.2)
    (.cons value.1.boundNode others.1, others.2)

end

/-! ## Statements -/

/-- The type of a variable in `bindVariable`. -/
def variableType (explicitType : Option SemanticType) (valueType : SemanticType) : SemanticType :=
  match explicitType with
  | some typeName => typeName
  | none => if valueType = .null then .numeric .int else valueType

/-- A type that carries a resource without being one. -/
def carriesIndirectly (context : BodyContext) (typeName : SemanticType) : Bool :=
  semanticContainsResource context.model typeName && !directResourceType context.model typeName

/-- The check of the written type in `bindVariable`. -/
def checkInitializer (context : BodyContext) (isMutable : Bool) (name : String)
    (explicitType : Option SemanticType) (valueType : SemanticType) (s : BodyBinder) : BodyBinder :=
  match explicitType with
  | some typeName =>
    if semanticAssignable context.model typeName valueType then
      s
    else if valueType = .null ∧ typeName.isOptional = false then
      s.report "NR150" ("Cannot assign null to non-optional type '" ++ typeName.text ++ "'.")
    else
      s.report (if isMutable then "NR136" else "NR135")
        ("Cannot assign expression of type '" ++ valueType.text ++ "' to " ++
          (if isMutable then "variable" else "constant") ++ " '" ++ name ++ "' of type '" ++
          typeName.text ++ "'.")
  | none =>
    s.reportIf (valueType == .null) "NR137"
      "Type annotation required; cannot infer type from initializer."

/-- The checks of `bindVariable`. -/
def checkVariable (context : BodyContext) (isMutable : Bool) (name : String)
    (explicitType : Option SemanticType) (value : BoundValue) (s : BodyBinder) : BodyBinder :=
  (((checkInitializer context isMutable name explicitType value.typeName s).reportIf
        (semanticContainsResource context.model value.typeName && value.resourceIdentity != .none)
        "NR262"
        "Resource ownership cannot be copied; acquire it with 'using' or transfer it explicitly."
      ).reportIf
      (carriesIndirectly context value.typeName ||
        carriesIndirectly context (variableType explicitType value.typeName)) "NR262"
      ("Resource-bearing values cannot be bound; acquire them with 'using' or return with an " ++
        "explicit transfer.")).reportIf (s.localInCurrentScope name) "NR138"
    ("Local '" ++ name ++ "' is already declared in this scope.")

def bindVariable (context : BodyContext) (isMutable : Bool) (name : String)
    (explicitType : Option SemanticType) (initializer : Expression) (s : BodyBinder) :
    BoundStatement × BodyBinder :=
  let value := bindExpression context initializer s
  let typeName := variableType explicitType value.1.typeName
  (.declaration value.2.locals.length typeName value.1.boundNode,
    (checkVariable context isMutable name explicitType value.1 value.2).declareLocal name typeName
      isMutable false)

/-- The checks of `bindAssignment` to a local. -/
def checkAssignment (context : BodyContext) (name : String) (entry : SemanticLocal)
    (valueType : SemanticType) (s : BodyBinder) : BodyBinder :=
  if !entry.isMutable then
    s.report "NR141" ("Cannot assign to '" ++ name ++
      "' because it is immutable. Use 'var' instead of 'let' for mutable variables.")
  else if semanticAssignable context.model entry.typeName valueType then
    s
  else if valueType = .null ∧ entry.typeName.isOptional = false then
    s.report "NR150" ("Cannot assign null to non-optional type '" ++ entry.typeName.text ++ "'.")
  else
    s.report "NR142"
      ("Cannot assign expression of type '" ++ valueType.text ++ "' to variable '" ++ name ++
        "' of type '" ++ entry.typeName.text ++ "'.")

/-- `bindAssignment` to a name. -/
def bindAssignment (context : BodyContext) (name : String) (valueNode : Expression)
    (s : BodyBinder) : BoundStatement × BodyBinder :=
  let value := bindExpression context valueNode s
  let s₁ := value.2.reportIf (semanticContainsResource context.model value.1.typeName) "NR262"
    "Resource ownership cannot be assigned; use 'transfer' into an ownership-approved return."
  match s.findLocal name with
  | none =>
    (.errorAssignment value.1.boundNode,
      if (context.findParameter name).isSome then
        s₁.report "NR139" ("Cannot assign to parameter '" ++ name ++ "'. Parameters are immutable.")
      else
        s₁.report "NR140" ("Undefined variable '" ++ name ++ "'."))
  | some (index, entry) =>
    let s₂ := checkAssignment context name entry value.1.typeName s₁
    (.assignment index entry.typeName value.1.boundNode,
      { s₂ with flow := s₂.flow.invalidateNarrowing name })

def bindExpressionStatement (context : BodyContext) (valueNode : Expression) (s : BodyBinder) :
    BoundStatement × BodyBinder :=
  let value := bindExpression context valueNode s
  (.expression value.1.boundNode,
    value.2.reportIf (semanticContainsResource context.model value.1.typeName) "NR262"
      ("Resource-bearing expressions must be acquired with 'using' or returned with an explicit " ++
        "transfer."))

/-- The error case of a `result.Result`, which carries no resource. -/
def isResultError (value : BoundValue) : Bool :=
  match value.boundNode with
  | .construct symbol caseIndex _ => symbol.startsWith "result.Result<" && caseIndex == 1
  | _ => false

/-- The checks at the end of `bindReturn`. -/
def checkReturn (context : BodyContext) (valueNode : Expression) (value : BoundValue)
    (s : BodyBinder) : BodyBinder :=
  let assignable := (semanticAssignable context.model · value.typeName)
  let outcomeReturn := isResourceOutcome context.model context.returnType
  let bodyValueType := resourceOutcomeArgument context.model context.returnType 0
  let bodyFailureType := resourceOutcomeArgument context.model context.returnType 1
  let s₁ := (s.reportIf (semanticContainsResource context.model value.typeName &&
        !valueNode.transfersResource && !isResultError value) "NR262"
        "Returning an owned resource requires an explicit transfer.").reportIf
      (outcomeReturn && value.typeName != context.returnType && assignable bodyValueType &&
        assignable bodyFailureType) "NR262"
      ("Ambiguous Outcome return; return an explicit resources.Completion or resources.Outcome " ++
        "value.")
  if assignable context.returnType ||
      (outcomeReturn && (assignable bodyValueType || assignable bodyFailureType)) then
    s₁
  else if value.typeName = .null ∧ context.returnType.isOptional = false then
    s₁.report "NR150"
      ("Cannot assign null to non-optional type '" ++ context.returnType.text ++ "'.")
  else
    s₁.report "NR143" ("Return type mismatch: expected '" ++ context.returnType.text ++
      "', got '" ++ value.typeName.text ++ "'.")

/-- The state in which the value of a `return` is bound. -/
def BodyBinder.enterReturn (s : BodyBinder) : BodyBinder :=
  { s with returnTransferDepth := s.returnTransferDepth + 1 }

def BodyBinder.leaveReturn (s : BodyBinder) : BodyBinder :=
  { s with returnTransferDepth := s.returnTransferDepth - 1 }

/-- `bindReturn` with a value. -/
def bindReturn (context : BodyContext) (valueNode : Expression) (s : BodyBinder) :
    BoundStatement × BodyBinder :=
  let value := bindTransferable context (some context.returnType) valueNode
    (bindExpression context valueNode s.enterReturn) s.enterReturn
  (.returnValue context.returnType value.1.boundNode,
    checkReturn context valueNode value.1 (value.2.leaveReturn.validateOwnedLocals context))

/-- The condition of an `if` or a `while`. -/
def bindCondition (context : BodyContext) (code statement : String) (condition : Expression)
    (s : BodyBinder) : BoundExpression × BodyBinder :=
  let value := bindExpression context condition s
  (value.1.boundNode,
    value.2.reportIf (value.1.typeName != .bool && value.1.typeName != .error) code
      (statement ++ " condition must be of type 'Bool', but got '" ++ value.1.typeName.text ++ "'."))

/-- The state in which the first branch of an `if` or the body of a `while` is bound. -/
def BodyBinder.whenHolds (context : BodyContext) (condition : Expression) (s : BodyBinder) :
    BodyBinder :=
  applyConditionNarrowing context condition true s.enterFlow

/-- The state in which the second branch of an `if` is bound, after the first. -/
def BodyBinder.whenFails (context : BodyContext) (condition : Expression)
    (before : List ResourceMoveState) (s : BodyBinder) : BodyBinder :=
  applyConditionNarrowing context condition false
    { s with moves := restoreMoves before s.moves }.enterFlow

/-- The end of `bindIf`: what is known after the branches. -/
def joinBranches (context : BodyContext) (condition : Expression)
    (thenTerminates elseTerminates : Bool) (thenMoves elseMoves : List ResourceMoveState)
    (s : BodyBinder) : BodyBinder :=
  match thenTerminates, elseTerminates with
  | true, false =>
    applyConditionNarrowing context condition false
      { s with moves := restoreMoves elseMoves s.moves }
  | false, true =>
    applyConditionNarrowing context condition true
      { s with moves := restoreMoves thenMoves s.moves }
  | false, false => { s with moves := joinMoves thenMoves elseMoves s.moves }
  | true, true => { s with moves := restoreMoves thenMoves s.moves }

def BodyBinder.enterLoop (s : BodyBinder) : BodyBinder :=
  { s with loopResourceDepth := some s.scopeDepth, loopDepth := s.loopDepth + 1 }

/-- What a loop leaves of the state after its body, given the state before it. -/
def BodyBinder.leaveLoop (before s : BodyBinder) : BodyBinder :=
  { s with
    loopDepth := s.loopDepth - 1
    loopResourceDepth := before.loopResourceDepth
    moves := restoreMoves before.moves s.moves }

/-- The type of the elements in `bindFor`, after its reports. -/
def bindElementType (explicitType : Option SemanticType) (name : String)
    (collectionType : SemanticType) (s : BodyBinder) : SemanticType × BodyBinder :=
  let elementType := if collectionType.isArray then collectionType.inner else .error
  let s₁ :=
    if collectionType.isArray then
      s
    else if collectionType.isOptional then
      s.report "NR169" ("Optional value of type '" ++ collectionType.text ++
        "' must be narrowed before access.")
    else
      s.report "NR147" ("For loop expects an Array, but got '" ++ collectionType.text ++ "'.")
  match explicitType with
  | none => (elementType, s₁)
  | some typeName =>
    (typeName,
      s₁.reportIf (elementType != .error && elementType != typeName) "NR148"
        ("Type mismatch in for loop: array contains '" ++ elementType.text ++ "', but '" ++ name ++
          "' is declared as '" ++ typeName.text ++ "'."))

/-- The type of the pointer in `bindBorrow`, after its reports. -/
def bindPointerType (ownerType : SemanticType) (s : BodyBinder) : SemanticType × BodyBinder :=
  if ownerType.isArray && (ownerType.inner.isNumeric || ownerType.inner == .bool) then
    (.pointer ownerType.inner, s)
  else
    (.error, s.report "NR202"
      ("Scoped borrow requires an array of unmanaged elements, but received '" ++ ownerType.text ++
        "'."))

def resourceCloseMethod (resourceClass : SemanticClass) : Option SemanticCallable :=
  resourceClass.methods.find? fun method =>
    method.name == "close" && method.access == .publicAccess && !method.isStatic &&
      !method.isUnsafe && method.parameters.length == 0 && method.returnType == "result.Failure?"

/-- Whether an acquisition is a `result.Result`, the type it acquires and the type of its error. -/
def acquisitionTypes (model : SemanticModel) (typeName : SemanticType) :
    Bool × SemanticType × SemanticType :=
  match model.classOf typeName with
  | some symbol =>
    match symbol.fullName.startsWith "result.Result<", symbol.genericArguments with
    | true, [value, failure] => (true, value, failure)
    | _, _ => (false, typeName, .error)
  | none => (false, typeName, .error)

/-- The checks of a `using` acquisition that do not change the state of a local. -/
def checkAcquisition (context : BodyContext) (acquiredType : SemanticType) (s : BodyBinder) :
    BodyBinder :=
  let s₁ := s.reportIf (!isResourceOutcome context.model context.returnType) "NR262"
    ("A callable with 'using' must return resources.Outcome<T, E> so close failures remain " ++
      "observable.")
  match context.model.classOf acquiredType with
  | none => s₁.report "NR262"
      "A using acquisition must produce a direct resource or Result<Resource, E>."
  | some resourceClass =>
    if resourceClass.isResource then
      s₁.reportIf (resourceCloseMethod resourceClass).isNone "NR262"
        "A resource used by 'using' must define a public safe 'close(): result.Failure?'."
    else
      s₁.report "NR262" "A using acquisition must produce a direct resource or Result<Resource, E>."

/-- The move of the local that a `using` acquires its resource from. -/
def moveAcquired (identity : ResourceIdentity) (s : BodyBinder) : BodyBinder :=
  match identity with
  | .variable (.declared index) =>
    match s.locals[index]? with
    | some entry =>
      if entry.active then
        (s.reportIf (s.outsideLoop entry) "NR262"
          ("A resource declared outside a loop cannot be consumed inside the loop; acquire it " ++
            "within each iteration.")).setMoved index
      else
        s
    | none => s
  | _ => s

/-- `bindUsing` up to the body: whether the acquisition is a result, the acquired type, the bound
acquisition, and the state. -/
def bindAcquisition (context : BodyContext) (acquisitionNode : Expression) (s : BodyBinder) :
    (Bool × SemanticType × BoundExpression) × BodyBinder :=
  let acquisition := bindExpression context acquisitionNode s
  let types := acquisitionTypes context.model acquisition.1.typeName
  ((types.1, types.2.1, acquisition.1.boundNode),
    (moveAcquired acquisition.1.resourceIdentity
      (checkAcquisition context types.2.1 acquisition.2)).reportIf
      (types.1 && resourceOutcomeArgument context.model context.returnType 1 != types.2.2) "NR262"
      "A Result acquisition error type must match the enclosing Outcome error type.")

/-- The case that a case of a match names, after the reports about it, and the cases seen then. -/
def bindCaseIndex (context : BodyContext) (symbol : Option SemanticClass)
    (qualifier caseName : String) (bindingCount : Nat) (seen : List Nat) (s : BodyBinder) :
    (Option Nat × List Nat) × BodyBinder :=
  match symbol with
  | none => ((none, seen), s)
  | some found =>
    if !found.isAlternative then
      ((none, seen), s)
    else if !context.qualifierMatches found qualifier then
      ((none, seen), s.report "NR260" ("Case belongs to '" ++ qualifier ++
        "', but the scrutinee has type '" ++ found.fullName ++ "'."))
    else
      match alternativeCaseIndex found caseName with
      | none => ((none, seen), s.report "NR260"
          ("Unknown alternative case '" ++
            (if qualifier == "" then caseName else qualifier ++ "." ++ caseName) ++ "'."))
      | some index =>
        let expected := (alternativePayloadTypes found index).length
        ((some index, seen ++ [index]),
          (s.reportIf (seen.contains index) "NR260"
            ("Alternative case '" ++ caseName ++ "' is redundant.")).reportIf
            (bindingCount != expected) "NR261"
            ("Alternative case '" ++ caseName ++ "' expects " ++ toString expected ++
              " payload bindings, but got " ++ toString bindingCount ++ "."))

def payloadTypes (symbol : Option SemanticClass) (caseIndex : Option Nat) : List SemanticType :=
  match symbol, caseIndex with
  | some found, some index => alternativePayloadTypes found index
  | _, _ => []

def declarePayload : List String → List SemanticType → BodyBinder →
    List (Nat × SemanticType) × BodyBinder
  | [], _, s => ([], s)
  | name :: names, types, s =>
    let typeName := types.headD .error
    let others := declarePayload names types.tail (s.declareLocal name typeName false false)
    ((s.locals.length, typeName) :: others.1, others.2)

/-- The reports of `bindMatch` about cases that are missing. -/
def reportMissing (symbol : Option SemanticClass) (seen : List Nat) (s : BodyBinder) : BodyBinder :=
  match symbol with
  | none => s
  | some found =>
    if found.isAlternative then
      found.alternativeCases.zipIdx.foldl (fun s (entry, index) =>
        s.reportIf (!seen.contains index) "NR260"
          ("Match is missing alternative case '" ++ entry.name ++ "'.")) s
    else
      s

def bindScrutinee (context : BodyContext) (scrutinee : Expression) (s : BodyBinder) :
    (BoundExpression × Option SemanticClass) × BodyBinder :=
  let value := bindExpression context scrutinee s
  let symbol := context.model.classOf value.1.typeName
  ((value.1.boundNode, symbol),
    value.2.reportIf (!symbol.any (·.isAlternative)) "NR260"
      ("Match requires a closed alternative value, but got '" ++ value.1.typeName.text ++ "'."))

mutual

def bindStatement (context : BodyContext) : Statement → BodyBinder → BoundStatement × BodyBinder
  | .declaration isMutable name explicitType initializer, s =>
    bindVariable context isMutable name explicitType initializer s
  | .assignment name value, s => bindAssignment context name value s
  | .expression value, s => bindExpressionStatement context value s
  | .branch condition thenBody elseBody, s =>
    let head := bindCondition context "NR145" "If" condition s
    let thenBlock := bindStatements context thenBody (head.2.whenHolds context condition).enterScope
    let s₁ := (thenBlock.2.leaveScope context).leaveFlow
    let elseBlock := bindStatements context elseBody
      (s₁.whenFails context condition head.2.moves).enterScope
    let s₂ := (elseBlock.2.leaveScope context).leaveFlow
    (.branch head.1 thenBlock.1 elseBlock.1,
      joinBranches context condition (thenBody.someTerminates s₂.loopDepth)
        (elseBody.someTerminates s₂.loopDepth) s₁.moves s₂.moves s₂)
  | .whileLoop condition body, s =>
    let head := bindCondition context "NR146" "While" condition s
    let block := bindStatements context body
      (head.2.enterLoop.whenHolds context condition).enterScope
    (.whileLoop head.1 block.1, head.2.leaveLoop (block.2.leaveScope context).leaveFlow)
  | .forLoop name explicitType collection body, s =>
    let value := bindExpression context collection s
    let element := bindElementType explicitType name value.1.typeName value.2
    let block := bindStatements context body
      (element.2.enterLoop.enterScope.declareLocal name element.1 false false)
    (.forLoop element.2.locals.length element.1 value.1.boundNode block.1,
      element.2.leaveLoop (block.2.leaveScope context))
  | .matchOn scrutinee cases, s =>
    let head := bindScrutinee context scrutinee s
    let branches := bindCases context head.1.2 cases [] head.2
    (.matchOn head.1.1 branches.1.1, reportMissing head.1.2 branches.1.2 branches.2)
  | .breakLoop, s =>
    (.breakLoop, s.reportIf (s.loopDepth == 0) "NR132" "'break' statement not within a loop.")
  | .continueLoop, s =>
    (.continueLoop,
      s.reportIf (s.loopDepth == 0) "NR133" "'continue' statement not within a loop.")
  | .returnNothing, s =>
    (.returnNothing,
      s.reportIf (context.returnType != .void) "NR144"
        ("Void return in function that expects '" ++ context.returnType.text ++ "'."))
  | .returnValue value, s => bindReturn context value s
  | .unsafeBlock body, s =>
    let block := bindStatements context body s.enterScope
    (.unsafeBlock block.1, block.2.leaveScope context)
  | .borrowBlock name owner body, s =>
    let value := bindExpression context owner s
    let pointer := bindPointerType value.1.typeName value.2
    let block := bindStatements context body
      (pointer.2.enterScope.declareLocal name pointer.1 false false)
    (.borrowBlock pointer.2.locals.length pointer.1 value.1.boundNode block.1,
      block.2.leaveScope context)
  | .usingBlock name acquisition body, s =>
    let head := bindAcquisition context acquisition s
    let block := bindStatements context body
      (head.2.enterScope.declareLocal name head.1.2.1 false true)
    (.usingBlock head.1.1 head.2.locals.length head.1.2.1 head.1.2.2 block.1,
      block.2.leaveScope context)

/-- `bindBlock`, between entering and leaving a scope. -/
def bindStatements (context : BodyContext) : Statements → BodyBinder → BoundStatements × BodyBinder
  | .nil, s => (.nil, s)
  | .cons first rest, s =>
    let statement := bindStatement context first s
    let others := bindStatements context rest statement.2
    (.cons statement.1 others.1, others.2)

/-- The cases of `bindMatch`, with the cases seen so far. -/
def bindCases (context : BodyContext) (symbol : Option SemanticClass) :
    MatchCases → List Nat → BodyBinder → (BoundCases × List Nat) × BodyBinder
  | .nil, seen, s => ((.nil, seen), s)
  | .cons qualifier caseName bindings body rest, seen, s =>
    let head := bindCaseIndex context symbol qualifier caseName bindings.length seen s
    let payload := declarePayload bindings (payloadTypes symbol head.1.1) head.2.enterScope
    let block := bindStatements context body payload.2
    let others := bindCases context symbol rest head.1.2 (block.2.leaveScope context)
    ((.cons head.1.1 payload.1 block.1 others.1.1, others.1.2), others.2)

end

/-- `bindCallable`: the bound body and the reports. -/
def bindCallable (context : BodyContext) (body : Statements) : BoundStatements × BodyBinder :=
  let block := bindStatements context body {}
  (block.1,
    (block.2.reportIf (context.returnType != .void && !body.someReturns) "NR108"
      ("Not all code paths return a value in function '" ++ context.callableName ++
        "'.")).validateOwnedLocals context)

/-- The binder accepts a body: it reports nothing. -/
def Accepts (context : BodyContext) (body : Statements) : Prop :=
  (bindCallable context body).2.diagnostics = []

end Neri.Semantic
