import Neri.Semantic.Proofs.AgreementProofs

/-!
# What statements leave as it is

Which variables a statement can write, that the others keep their values whichever way the statement
is left, which names it adds to the scope it stands in, and which statements never run to their end.
-/

namespace Neri.Semantic

open BodyBinder Runs List

variable {ctx : BodyContext} {s s' t u : BodyBinder} {store : Variable → Value}
  {model : SemanticModel}
variable {property : World → Prop} {names names' : List String} {indices : List Nat}

/-! ## What a statement writes -/

mutual

/-- The locals that a statement assigns to or declares. -/
def BoundStatement.writes : BoundStatement → List Nat
  | .declaration i _ _ | .assignment i _ _ => [i]
  | .branch _ thenBody elseBody => thenBody.writes ++ elseBody.writes
  | .whileLoop _ body | .unsafeBlock body => body.writes
  | .forLoop i _ _ body | .borrowBlock i _ _ body | .usingBlock _ i _ _ body =>
    i :: body.writes
  | .matchOn _ cases => cases.writes
  | .expression _ | .breakLoop | .continueLoop | .returnNothing | .returnValue _ _
  | .errorAssignment _ => []

def BoundStatements.writes : BoundStatements → List Nat
  | .nil => []
  | .cons first rest => first.writes ++ rest.writes

def BoundCases.writes : BoundCases → List Nat
  | .nil => []
  | .cons _ bindings body rest => bindings.map Prod.fst ++ (body.writes ++ rest.writes)

end

def EventsKeep (property : World → Prop) : Prop := ∀ w event, property w → property (w.emit event)

theorem preserves_anyValue (ty : SemanticType) :
    Preserves property (anyValue model ty) := .either (.choose _) (.jump _)

theorem preserves_readVariable (hevents : EventsKeep property)
    (sym : Variable) (ty : SemanticType) : Preserves property (readVariable sym ty) :=
  .bind (.read _) fun _ => .bind (.update fun w => hevents w _) fun _ => .pure _

mutual

theorem eval_preserves (hevents : EventsKeep property) :
    (expr : BoundExpression) → Preserves property (expr.eval model)
  | .nullLiteral | .boolLiteral _ => .pure _
  | .leaf ty => preserves_anyValue ty
  | .name none _ | .error => .jump _
  | .name (some sym) ty => preserves_readVariable hevents sym ty
  | .transfer _ _ => .bind (.read _) fun _ => .bind (.update fun w => hevents w _) fun _ => .pure _
  | .negation operand => .bind (eval_preserves hevents operand) fun _ => .pure _
  | .logical _ left right =>
    .bind (eval_preserves hevents left) fun _ => .ite (eval_preserves hevents right) (.pure _)
  | .equality _ left right =>
    .bind (eval_preserves hevents left) fun _ => .bind (eval_preserves hevents right) fun _ =>
      .bind (.choose _) fun _ => .pure _
  | .ternary _ cond whenTrue whenFalse =>
    .bind (eval_preserves hevents cond) fun _ =>
      .ite (eval_preserves hevents whenTrue) (eval_preserves hevents whenFalse)
  | .propagation ty operand =>
    .bind (eval_preserves hevents operand) fun _ => .either (preserves_anyValue ty) (.jump _)
  | .construct _ _ payload =>
    .bind (evalAll_preserves hevents payload) fun _ => preserves_anyValue _
  | .operation ty operands =>
    .bind (evalAll_preserves hevents operands) fun _ => preserves_anyValue ty

theorem evalAll_preserves (hevents : EventsKeep property) :
    (arguments : BoundArguments) → Preserves property (arguments.evalAll model)
  | .nil => .pure _
  | .cons first rest =>
    .bind (eval_preserves hevents first) fun _ => evalAll_preserves hevents rest

end

theorem acquire_preserves (hevents : EventsKeep property)
    (expr : BoundExpression) : Preserves property (expr.acquire model) := by
  fun_induction BoundExpression.acquire model expr with
  | case1 i ty =>
    exact .bind (preserves_readVariable hevents _ ty) fun _ =>
      .bind (.update fun w => hevents w _) fun _ => .pure _
  | case2 _ cond whenTrue whenFalse ihTrue ihFalse =>
    exact .bind (eval_preserves hevents cond) fun _ => .ite ihTrue ihFalse
  | case3 expr => exact eval_preserves hevents expr

section Frame

variable {kept : Variable → Prop} {i : Nat}

/-- The variables in `kept` have the values that they have in `store`. -/
def Same (kept : Variable → Prop) (store : Variable → Value) (w : World) : Prop :=
  ∀ sym, kept sym → w.store sym = store sym

theorem eventsKeep_same : EventsKeep (Same kept store) := fun _ _ h => h

theorem same_assign {value : Value} {w : World} (hi : ¬kept (.declared i))
    (h : Same kept store w) : Same kept store (w.assign i value) := by
  intro sym hsym
  have hne : sym ≠ .declared i := fun heq => hi (heq ▸ hsym)
  exact (Function.update_of_ne hne ..).trans (h sym hsym)

theorem same_leaveAll (indices : List Nat) (w : World) (h : Same kept store w) :
    Same kept store (w.leaveAll indices) := h

theorem preserves_declareVariable (ty : SemanticType) (byUsing : Bool) (value : Value)
    (hi : ¬kept (.declared i)) : Preserves (Same kept store) (declareVariable i ty byUsing value) :=
  .update fun _ h => same_assign hi h

theorem preserves_declareAny : (bindings : List (Nat × SemanticType)) →
    (∀ i ∈ bindings.map Prod.fst, ¬kept (.declared i)) →
    Preserves (Same kept store) (declareAny model bindings)
  | [], _ => .pure _
  | (i, ty) :: rest, h =>
    .bind (preserves_anyValue ty) fun _ =>
      .bind (preserves_declareVariable ty false _ (h i (by simp))) fun _ =>
        preserves_declareAny rest fun other hother => h other (by simp [hother])

mutual

theorem run_frame : (statement : BoundStatement) → (∀ i ∈ statement.writes, ¬kept (.declared i)) →
    Preserves (Same kept store) (statement.run model)
  | .declaration i ty initializer, h =>
    .bind (eval_preserves eventsKeep_same initializer) fun _ =>
      preserves_declareVariable ty false _ (h i (by simp [BoundStatement.writes]))
  | .assignment i _ expr, h =>
    .bind (eval_preserves eventsKeep_same expr) fun _ =>
      .update fun _ => same_assign (h i (by simp [BoundStatement.writes]))
  | .expression expr, _ =>
    .bind (eval_preserves eventsKeep_same expr) fun _ => .pure _
  | .branch cond thenBody elseBody, h =>
    .bind (eval_preserves eventsKeep_same cond) fun _ =>
      .ite
        (.atExit (runAll_frame thenBody (forall_mem_append.mp h).1) (same_leaveAll _))
        (.atExit (runAll_frame elseBody (forall_mem_append.mp h).2) (same_leaveAll _))
  | .whileLoop cond body, h =>
    .loop (.bind (eval_preserves eventsKeep_same cond) fun _ =>
      .ite (.bind (.atExit (runAll_frame body h) (same_leaveAll _)) fun _ => .pure _) (.pure _))
  | .forLoop i elementType collection body, h =>
    .bind (eval_preserves eventsKeep_same collection) fun _ =>
      .loop (.bind (.choose _) fun _ => .ite
        (.bind (.atExit (.bind (preserves_declareAny [(i, elementType)]
            (by simpa using h i (mem_cons_self ..))) fun _ =>
          runAll_frame body (forall_mem_cons.mp h).2) (same_leaveAll _)) fun _ => .pure _)
        (.pure _))
  | .matchOn scrutinee cases, h =>
    .bind (eval_preserves eventsKeep_same scrutinee) fun _ => runOne_frame cases h
  | .breakLoop, _ | .continueLoop, _ | .returnNothing, _ | .errorAssignment _, _ => .jump _
  | .returnValue _ expr, _ =>
    .bind (eval_preserves eventsKeep_same expr) fun _ => .jump _
  | .unsafeBlock body, h => .atExit (runAll_frame body h) (same_leaveAll _)
  | .borrowBlock i pointerType owner body, h =>
    .bind (eval_preserves eventsKeep_same owner) fun _ =>
      .atExit (.bind (preserves_declareAny [(i, pointerType)]
          (by simpa using h i (mem_cons_self ..))) fun _ =>
        runAll_frame body (forall_mem_cons.mp h).2) (same_leaveAll _)
  | .usingBlock isResult i ty acquisition body, h => by
    refine .bind (acquire_preserves eventsKeep_same acquisition) fun value => ?_
    have hblock : ∀ resource, Preserves (Same kept store)
        ((do declareVariable i ty true resource
             body.run model).atExit (World.leaveAll (i :: body.declares))) := fun resource =>
      .atExit (.bind (preserves_declareVariable ty true resource (h i (mem_cons_self ..))) fun _ =>
          runAll_frame body (forall_mem_cons.mp h).2) (same_leaveAll _)
    exact .ite (.bind (.either (preserves_anyValue ty) (.jump _)) hblock) (.bind (.pure _) hblock)

theorem runAll_frame : (body : BoundStatements) → (∀ i ∈ body.writes, ¬kept (.declared i)) →
    Preserves (Same kept store) (body.run model)
  | .nil, _ => .pure _
  | .cons first rest, h =>
    .bind (run_frame first (forall_mem_append.mp h).1) fun _ =>
      runAll_frame rest (forall_mem_append.mp h).2

theorem runOne_frame : (cases : BoundCases) → (∀ i ∈ cases.writes, ¬kept (.declared i)) →
    Preserves (Same kept store) (cases.runOne model)
  | .nil, _ => .jump _
  | .cons _ bindings body rest, h =>
    have hbindings := forall_mem_append.mp h
    have hbodies := forall_mem_append.mp hbindings.2
    .either
      (.atExit (.bind (preserves_declareAny bindings hbindings.1) fun _ =>
        runAll_frame body hbodies.1) (same_leaveAll _))
      (runOne_frame rest hbodies.2)

end

end Frame

/-! ## What a bound statement writes -/

/-- The numbers are those of locals that are new in `s`, or of locals with one of the names. -/
def WritesOnly (s : BodyBinder) (names : List String) (indices : List Nat) : Prop :=
  ∀ i ∈ indices, s.locals.length ≤ i ∨ ∃ e, s.locals[i]? = some e ∧ e.name ∈ names

theorem WritesOnly.of_adds {kind : SemanticLocal → Prop} (h : WritesOnly s' names indices)
    (hadds : Adds kind s s') : WritesOnly s names indices := by
  obtain ⟨fresh, hlocals, -⟩ := hadds
  intro i hi
  rcases Nat.lt_or_ge i s.locals.length with hlt | hge
  · rcases h i hi with hnew | ⟨e, hget, hname⟩
    · rw [hlocals, length_append] at hnew
      omega
    · rw [hlocals, getElem?_append_left hlt] at hget
      exact .inr ⟨e, hget, hname⟩
  · exact .inl hge

theorem WritesOnly.mono (hnames : ∀ name ∈ names, name ∈ names') (h : WritesOnly s names indices) :
    WritesOnly s names' indices := by
  intro i hi
  rcases h i hi with hnew | ⟨e, hget, hname⟩
  · exact .inl hnew
  · exact .inr ⟨e, hget, hnames _ hname⟩

theorem WritesOnly.append {indices' : List Nat}
    (h : WritesOnly s names indices) (h' : WritesOnly s names' indices') :
    WritesOnly s (names ++ names') (indices ++ indices') := by
  intro i hi
  rcases mem_append.mp hi with hmem | hmem
  · exact h.mono (fun _ => mem_append_left _) i hmem
  · exact h'.mono (fun _ => mem_append_right _) i hmem

theorem WritesOnly.cons {i : Nat} (hnew : s.locals.length ≤ i) (h : WritesOnly s names indices) :
    WritesOnly s names (i :: indices) := by
  intro other hother
  rcases mem_cons.mp hother with rfl | hmem
  · exact .inl hnew
  · exact h other hmem

/-- What a name denotes is not written if the name is not assigned to. -/
theorem WritesOnly.not_written {name : String}
    {i : Nat} (h : WritesOnly s names indices) (hname : name ∉ names)
    (hsym : s.findVariable ctx name = some (.declared i)) : i ∉ indices := by
  intro hi
  obtain ⟨e, hget, -, rfl⟩ := findVariable_declared hsym
  rcases h i hi with hnew | ⟨other, hother, hassigned⟩
  · have hlt := (List.getElem_of_getElem? hget).1
    omega
  · rw [hget] at hother
    cases hother
    exact hname hassigned

theorem declarePayload_indices : (names : List String) → (types : List SemanticType) →
    (s : BodyBinder) → ∀ i ∈ (declarePayload names types s).1.map Prod.fst, s.locals.length ≤ i
  | [], _, _, _, h => by cases h
  | name :: names, types, s, i, h => by
    rcases mem_cons.mp h with rfl | hmem
    · exact le_rfl
    · have hrest := declarePayload_indices names types.tail
        (s.declareLocal name (types.headD .error) false false) i hmem
      have hlength : (s.declareLocal name (types.headD .error) false false).locals.length =
          s.locals.length + 1 := length_append
      omega

mutual

theorem bindStatement_writes (ctx : BodyContext) : (statement : Statement) →
    (s : BodyBinder) → WellFormed s →
    WritesOnly s statement.assigned (bindStatement ctx statement s).1.writes
  | .declaration isMutable name explicitType initializer, s, hs => by
    have hvalue := bindExpression_keeps ctx initializer s hs.flow
    exact .cons hvalue.length_le fun _ h => (by cases h)
  | .assignment name value, s, _ => by
    show WritesOnly s [name] (bindAssignment ctx name value s).1.writes
    unfold bindAssignment
    dsimp only
    split
    · exact fun _ h => (by cases h)
    · rename_i found e hfound
      obtain ⟨hget, -, hname⟩ := findLocal_spec hfound
      intro i hi
      obtain rfl := mem_singleton.mp hi
      exact .inr ⟨e, hget, by simp [hname]⟩
  | .expression _, _, _ | .breakLoop, _, _ | .continueLoop, _, _ | .returnNothing, _, _
  | .returnValue _, _, _ => fun _ h => (by cases h)
  | .branch cond thenBody elseBody, s, hs => by
    have h := branches ctx cond thenBody elseBody hs
    have hthen := bindStatements_writes ctx thenBody _ h.thenStart
    have helse := bindStatements_writes ctx elseBody _ h.elseStart
    exact (hthen.of_adds h.closed_thenStart).append (helse.of_adds h.closed_elseStart)
  | .whileLoop cond body, s, hs =>
    (bindStatements_writes ctx body _ (wellFormed_whileStart hs)).of_adds
      (closed_whileStart hs)
  | .forLoop name explicitType collection body, s, hs => by
    have hkeeps := keeps_forElement ctx name explicitType collection s hs.flow
    have hbody := bindStatements_writes ctx body
      (s.forStart ctx name explicitType collection) (wellFormed_forStart name explicitType hs)
    exact .cons hkeeps.length_le
      (hbody.of_adds (Adds.trans hkeeps.closed (opens_for ctx name explicitType collection hs).adds))
  | .matchOn scrutinee cases, s, hs => by
    have hkeeps := keeps_bindScrutinee ctx scrutinee s hs.flow
    have hcases := bindCases_writes ctx (bindScrutinee ctx scrutinee s).1.2 cases [] _
      (hkeeps.wellFormed hs)
    exact hcases.of_adds hkeeps.closed
  | .unsafeBlock body, s, hs => bindStatements_writes ctx body s.enterScope hs.enterScope
  | .borrowBlock name owner body, s, hs => by
    have hopens := opens_borrow ctx name owner hs
    exact .cons hopens.keeps.length_le
      ((bindStatements_writes ctx body _ (hopens.wellFormed hs)).of_adds hopens.adds)
  | .usingBlock name acquisition body, s, hs => by
    have hopens := opens_using ctx name acquisition hs
    exact .cons hopens.keeps.length_le
      ((bindStatements_writes ctx body _ (hopens.wellFormed hs)).of_adds hopens.adds)

theorem bindStatements_writes (ctx : BodyContext) : (body : Statements) →
    (s : BodyBinder) → WellFormed s →
    WritesOnly s body.assigned (bindStatements ctx body s).1.writes
  | .nil, _, _ => fun _ h => (by cases h)
  | .cons first rest, s, hs => by
    have hfirst := bindStatement_leads ctx first s hs
    exact (bindStatement_writes ctx first s hs).append
      ((bindStatements_writes ctx rest _ (hfirst.wellFormed hs)).of_adds hfirst.locals)

theorem bindCases_writes (ctx : BodyContext) (sym : Option SemanticClass) :
    (cases : MatchCases) → (seen : List Nat) → (s : BodyBinder) → WellFormed s →
    WritesOnly s cases.assigned (bindCases ctx sym cases seen s).1.1.writes
  | .nil, _, _, _ => fun _ h => (by cases h)
  | .cons qualifier caseName bindings body rest, seen, s, hs => by
    have hopens := opens_case ctx sym qualifier caseName bindings seen hs
    have hstart := hopens.wellFormed hs
    have hend := hopens.ends hs ctx body
    have hpayload : WritesOnly s []
        ((s.caseStart ctx sym qualifier caseName bindings seen).1.map Prod.fst) :=
      fun i hi => .inl (hopens.keeps.length_le.trans (declarePayload_indices bindings _
        (s.caseHead ctx sym qualifier caseName bindings seen).2.enterScope i hi))
    exact hpayload.append (((bindStatements_writes ctx body _ hstart).of_adds hopens.adds).append
      ((bindCases_writes ctx sym rest _ _ (hend.wellFormed hs)).of_adds hend.locals))

end

/-! ## Statements that never run to their end -/

mutual

theorem terminates_of_returns (loopDepth : Nat) : (statement : Statement) →
    statement.returns = true → statement.terminates loopDepth = true
  | .returnNothing, _ | .returnValue _, _ => rfl
  | .branch _ thenBody elseBody, h =>
    have hboth := Bool.and_eq_true_iff.mp h
    Bool.and_eq_true_iff.mpr ⟨someTerminates_of_someReturns loopDepth thenBody hboth.1,
      someTerminates_of_someReturns loopDepth elseBody hboth.2⟩
  | .unsafeBlock body, h | .borrowBlock _ _ body, h =>
    someTerminates_of_someReturns loopDepth body h
  | .matchOn .., h => h

theorem someTerminates_of_someReturns (loopDepth : Nat) : (body : Statements) →
    body.someReturns = true → body.someTerminates loopDepth = true
  | .cons first rest, h => Bool.or_eq_true_iff.mpr <| (Bool.or_eq_true_iff.mp h).imp
    (terminates_of_returns loopDepth first) (someTerminates_of_someReturns loopDepth rest)

end

mutual

theorem terminates_noValue (ctx : BodyContext) (loopDepth : Nat) : (statement : Statement) →
    (s : BodyBinder) → statement.terminates loopDepth = true →
    NoValue ((bindStatement ctx statement s).1.run model)
  | .returnNothing, _, _ | .breakLoop, _, _ | .continueLoop, _, _ => .jump _
  | .returnValue _, _, _ => .bind fun _ => .jump _
  | .branch _ thenBody elseBody, _, h => by
    have hboth := Bool.and_eq_true_iff.mp h
    exact .bind fun _ =>
      .ite (.atExit (someTerminates_noValue ctx loopDepth thenBody _ hboth.1))
        (.atExit (someTerminates_noValue ctx loopDepth elseBody _ hboth.2))
  | .unsafeBlock body, _, h => .atExit (someTerminates_noValue ctx loopDepth body _ h)
  | .borrowBlock _ _ body, _, h =>
    .bind fun _ => .atExit (.bind fun _ => someTerminates_noValue ctx loopDepth body _ h)
  | .matchOn _ cases, _, h =>
    .bind fun _ => allReturn_noValue ctx loopDepth _ cases _ _ (Bool.and_eq_true_iff.mp h).2

theorem someTerminates_noValue (ctx : BodyContext) (loopDepth : Nat) : (body : Statements) →
    (s : BodyBinder) → body.someTerminates loopDepth = true →
    NoValue ((bindStatements ctx body s).1.run model)
  | .cons first rest, s, h => by
    rcases Bool.or_eq_true_iff.mp h with hfirst | hrest
    · exact .bind_first (terminates_noValue ctx loopDepth first s hfirst)
    · exact .bind fun _ => someTerminates_noValue ctx loopDepth rest _ hrest

theorem allReturn_noValue (ctx : BodyContext) (loopDepth : Nat) (sym : Option SemanticClass) :
    (cases : MatchCases) → (seen : List Nat) → (s : BodyBinder) → cases.allReturn = true →
    NoValue ((bindCases ctx sym cases seen s).1.1.runOne model)
  | .nil, _, _, _ => .jump _
  | .cons _ _ _ body rest, _, _, h => by
    have hboth := Bool.and_eq_true_iff.mp h
    have hbody := someTerminates_of_someReturns loopDepth body hboth.1
    exact .either (.atExit (.bind fun _ => someTerminates_noValue ctx loopDepth body _ hbody))
      (allReturn_noValue ctx loopDepth sym rest _ _ hboth.2)

end

/-! ## Names that are not assigned to -/

/-- The variables that names outside a list denote. -/
def Unassigned (context : BodyContext) (s : BodyBinder) (names : List String)
    (symbol : Variable) : Prop :=
  ∃ name, name ∉ names ∧ s.findVariable context name = some symbol

theorem not_unassigned_new {i : Nat} (h : s.locals.length ≤ i) :
    ¬Unassigned ctx s names (.declared i) := by
  rintro ⟨name, -, hsym⟩
  obtain ⟨e, hget, -⟩ := findVariable_declared hsym
  have hlt := (List.getElem_of_getElem? hget).1
  omega

/-- What is bound later than `s` keeps the variables that its assignments do not name. -/
theorem bindStatements_frame (ctx : BodyContext) (store : Variable → Value) (body : Statements)
    {kind : SemanticLocal → Prop} (hadds : Adds kind s t) (ht : WellFormed t) :
    Preserves (Same (Unassigned ctx s body.assigned) store)
      ((bindStatements ctx body t).1.run ctx.model) := by
  refine runAll_frame _ fun i hi => ?_
  rintro ⟨name, hname, hsym⟩
  exact ((bindStatements_writes ctx body t ht).of_adds hadds).not_written hname hsym
    hi

theorem declarePayload_frame (names : List String) (types : List SemanticType)
    {assigned : List String} (hlocals : s.locals.length ≤ t.locals.length) :
    Preserves (Same (Unassigned ctx s assigned) store)
      (declareAny model (declarePayload names types t).1) := by
  refine preserves_declareAny _ fun i hi => not_unassigned_new ?_
  exact hlocals.trans (declarePayload_indices names types t i hi)

end Neri.Semantic
