import Mathlib.Data.List.Infix
import Neri.Semantic.Narrowing

/-!
# What binding does to the state of the binder

Checks only add reports, expressions keep everything but reports and moves, and statements extend the
state: they declare locals after the ones there are, and leave the scopes and flows they enter.
-/

namespace Neri.Semantic

open BodyBinder List

variable {ctx : BodyContext} {s s' t u : BodyBinder} {cond : Expression} {whenTrue : Bool}
variable {body : Statements} {name : String} {ety : Option SemanticType}
  {coll owner acq valueNode : Expression} {failed isMutable isEqual : Bool}
  {code message caseName qualifier : String} {i bindingCount : Nat} {seen : List Nat}
  {v left right operand : BoundValue} {valueType : SemanticType} {sym : Option SemanticClass}
  {e : SemanticLocal} {identity : ResourceIdentity} {names names' : List String}

/-! ## Reports -/

/-- `s'` differs from `s` in further reports only. -/
def Reports (s s' : BodyBinder) : Prop :=
  ∃ more, s' = { s with diagnostics := s.diagnostics ++ more }

theorem Reports.refl (s : BodyBinder) : Reports s s := ⟨[], by simp⟩

theorem Reports.trans (h : Reports s t) (h' : Reports t u) : Reports s u := by
  obtain ⟨more, rfl⟩ := h
  obtain ⟨more', rfl⟩ := h'
  exact ⟨more ++ more', by simp⟩

theorem reports_report : Reports s (s.report code message) := ⟨_, rfl⟩

theorem Reports.ite {p : Prop} [Decidable p] (h : Reports s t) (h' : Reports s u) :
    Reports s (if p then t else u) := by
  split
  · exact h
  · exact h'

theorem reports_reportIf : Reports s (s.reportIf failed code message) :=
  .ite reports_report (.refl s)

theorem Reports.reportIf (h : Reports s t) : Reports s (t.reportIf failed code message) :=
  h.trans reports_reportIf

theorem Reports.report (h : Reports s t) : Reports s (t.report code message) :=
  h.trans reports_report

theorem Reports.eq_of_accepted (h : Reports s s') (hacc : s'.diagnostics = []) : s' = s := by
  obtain ⟨more, rfl⟩ := h
  have hmore := (append_eq_nil_iff.mp hacc).2
  simp [hmore]

theorem reportIf_accepted (h : (s.reportIf failed code message).diagnostics = []) :
    failed = false ∧ s.diagnostics = [] ∧ s.reportIf failed code message = s := by
  cases failed with
  | false => exact ⟨rfl, h, rfl⟩
  | true => simp [reportIf, BodyBinder.report] at h

theorem report_not_accepted : (s.report code message).diagnostics ≠ [] := by
  simp [BodyBinder.report]

theorem reports_validateOwnedLocals : Reports s (s.validateOwnedLocals ctx) := ⟨_, rfl⟩

theorem reports_checkPayload {expected : Option SemanticType} {isTransfer : Bool} :
    Reports s (checkPayload ctx caseName i expected isTransfer v s) :=
  reports_reportIf.reportIf

theorem reports_checkInitializer :
    Reports s (checkInitializer ctx isMutable name ety valueType s) := by
  unfold checkInitializer
  split
  · exact .ite (.refl s) (.ite reports_report reports_report)
  · exact reports_reportIf

theorem reports_checkReturn : Reports s (checkReturn ctx valueNode v s) :=
  reports_reportIf.reportIf.trans (.ite (.refl _) (.ite reports_report reports_report))

theorem reports_checkAcquisition : Reports s (checkAcquisition ctx valueType s) := by
  unfold checkAcquisition
  split
  · exact reports_reportIf.report
  · exact reports_reportIf.trans (.ite reports_reportIf reports_report)

theorem reports_bindElementType {collectionType : SemanticType} :
    Reports s (bindElementType ety name collectionType s).2 := by
  have hkind {p q : Prop} [Decidable p] [Decidable q] {code code' message message' : String} :
      Reports s (if p then s else if q then s.report code message else s.report code' message') :=
    .ite (.refl s) (.ite reports_report reports_report)
  cases ety with
  | none => exact hkind
  | some ty => exact hkind.reportIf

theorem reports_bindPointerType : Reports s (bindPointerType valueType s).2 := by
  unfold bindPointerType
  split
  · exact .refl s
  · exact reports_report

theorem reports_bindCaseIndex :
    Reports s (bindCaseIndex ctx sym qualifier caseName bindingCount seen s).2 := by
  unfold bindCaseIndex
  split
  · exact .refl s
  · split
    · exact .refl s
    · split
      · exact reports_report
      · split
        · exact reports_report
        · exact reports_reportIf.reportIf

theorem reports_reportMissing : Reports s (reportMissing sym seen s) := by
  unfold reportMissing
  split
  · exact .refl s
  · split
    · rename_i found _
      generalize found.alternativeCases.zipIdx = entries
      induction entries generalizing s with
      | nil => exact .refl s
      | cons e rest ih => exact reports_reportIf.trans ih
    · exact .refl s

/-! ## Expressions -/

/-- The same scopes and loops are open in `s'`, and no report of `s` is lost. -/
structure Stays (s s' : BodyBinder) : Prop where
  scopeDepth : s'.scopeDepth = s.scopeDepth
  loopDepth : s'.loopDepth = s.loopDepth
  loopResourceDepth : s'.loopResourceDepth = s.loopResourceDepth
  returnTransferDepth : s'.returnTransferDepth = s.returnTransferDepth
  reports : s.diagnostics <+: s'.diagnostics

theorem Stays.trans (h : Stays s t) (h' : Stays t u) : Stays s u where
  scopeDepth := h'.scopeDepth.trans h.scopeDepth
  loopDepth := h'.loopDepth.trans h.loopDepth
  loopResourceDepth := h'.loopResourceDepth.trans h.loopResourceDepth
  returnTransferDepth := h'.returnTransferDepth.trans h.returnTransferDepth
  reports := h.reports.trans h'.reports

theorem Stays.accepted (h : Stays s s') (hacc : s'.diagnostics = []) : s.diagnostics = [] :=
  prefix_nil.mp (hacc ▸ h.reports)

/-- `s'` differs from `s` in further reports and in the moves of the locals only. -/
structure Keeps (s s' : BodyBinder) : Prop extends Stays s s' where
  flow : s'.flow = s.flow
  locals : s'.locals = s.locals
  moves : s'.moves.length = s.moves.length

theorem Keeps.trans (h : Keeps s t) (h' : Keeps t u) : Keeps s u where
  toStays := h.toStays.trans h'.toStays
  flow := h'.flow.trans h.flow
  locals := h'.locals.trans h.locals
  moves := h'.moves.trans h.moves

theorem Reports.keeps (h : Reports s s') : Keeps s s' := by
  obtain ⟨more, rfl⟩ := h
  exact ⟨⟨rfl, rfl, rfl, rfl, prefix_append ..⟩, rfl, rfl, rfl⟩

theorem Keeps.refl (s : BodyBinder) : Keeps s s := (Reports.refl s).keeps

theorem Keeps.then_reports (h : Keeps s t) (h' : Reports t u) : Keeps s u := h.trans h'.keeps

/-- Every narrowing is made at a depth that is still open. -/
def FlowBounded (s : BodyBinder) : Prop :=
  ∀ e ∈ s.flow.narrowings, e.depth ≤ s.flow.depth

theorem Keeps.flowBounded (h : Keeps s s') (hs : FlowBounded s) : FlowBounded s' := by
  unfold FlowBounded
  rw [h.flow]
  exact hs

/-- What follows a step keeps what the step keeps. -/
theorem Keeps.andThen (h : Keeps s t) (hs : FlowBounded s) (h' : FlowBounded t → Keeps t u) :
    Keeps s u := h.trans (h' (h.flowBounded hs))

/-- The locals that a snapshot knows get other moves. -/
theorem keeps_moves {moves : List ResourceMoveState} (h : moves.length = s.moves.length) :
    Keeps s { s with moves := moves } :=
  ⟨⟨rfl, rfl, rfl, rfl, prefix_refl _⟩, rfl, rfl, h⟩

theorem keeps_setMoved : Keeps s (s.setMoved i) := keeps_moves (by simp)

theorem length_restoreMoves {snapshot moves : List ResourceMoveState}
    (h : snapshot.length ≤ moves.length) : (restoreMoves snapshot moves).length = moves.length := by
  simp only [restoreMoves, length_append, length_drop]
  omega

theorem length_joinMoves {left right moves : List ResourceMoveState}
    (h : left.length ≤ moves.length) : (joinMoves left right moves).length = moves.length := by
  refine length_restoreMoves ?_
  rw [length_zipWith]
  omega

/-- `s'` differs from `s` in further narrowings of some names only, made at the depth of `s`. -/
structure Narrows (names : List String) (s s' : BodyBinder) : Prop where
  rest : s' = { s with flow := s'.flow }
  depth : s'.flow.depth = s.flow.depth
  narrowings : ∃ added, s'.flow.narrowings = s.flow.narrowings ++ added ∧
    ∀ e ∈ added, e.depth = s.flow.depth ∧ e.identity ∈ names

namespace Narrows

variable {names : List String}

theorem locals (h : Narrows names s s') : s'.locals = s.locals := by
  rw [h.rest]

theorem moves (h : Narrows names s s') : s'.moves = s.moves := by
  rw [h.rest]

theorem diagnostics (h : Narrows names s s') : s'.diagnostics = s.diagnostics := by
  rw [h.rest]

theorem stays (h : Narrows names s s') : Stays s s' := by
  rw [h.rest]
  exact ⟨rfl, rfl, rfl, rfl, prefix_refl _⟩

end Narrows

theorem Narrows.refl (names : List String) (s : BodyBinder) : Narrows names s s :=
  ⟨rfl, rfl, [], by simp, by simp⟩

theorem Narrows.trans {names' : List String} (h : Narrows names s t)
    (h' : Narrows names' t u) : Narrows (names ++ names') s u := by
  obtain ⟨hrest, hdepth, added, hadded, hnames⟩ := h
  obtain ⟨hrest', hdepth', added', hadded', hnames'⟩ := h'
  refine ⟨?_, hdepth'.trans hdepth, added ++ added', ?_, ?_⟩
  · rw [hrest', hrest]
  · rw [hadded', hadded, append_assoc]
  · intro e he
    rcases mem_append.mp he with hmem | hmem
    · exact ⟨(hnames e hmem).1, mem_append_left _ (hnames e hmem).2⟩
    · exact ⟨(hnames' e hmem).1.trans hdepth, mem_append_right _ (hnames' e hmem).2⟩

theorem narrows_narrow (name : String) (s : BodyBinder) : Narrows [name] s (s.narrow ctx name) := by
  unfold narrow
  split
  · rename_i inner _
    exact ⟨rfl, rfl, [⟨name, inner, s.flow.depth⟩], rfl, by simp⟩
  · exact .refl _ s

theorem narrows_applyConditionNarrowing (ctx : BodyContext) (cond : Expression)
    (whenTrue : Bool) (s : BodyBinder) : Narrows (provenNames cond whenTrue) s
      (applyConditionNarrowing ctx cond whenTrue s) := by
  fun_induction applyConditionNarrowing ctx cond whenTrue s with
  | case1 operand whenTrue s ih => exact ih
  | case2 isAnd left right whenTrue s hsame ihleft ihright =>
    rw [provenNames, if_pos hsame]
    exact ihleft.trans ihright
  | case3 isAnd left right whenTrue s hsame =>
    exact .refl _ s
  | case4 isEqual left right whenTrue s hproves name hname =>
    rw [provenNames, if_pos hproves, hname]
    exact narrows_narrow name s
  | case5 isEqual left right whenTrue s hproves hname =>
    exact .refl _ s
  | case6 isEqual left right whenTrue s hproves =>
    exact .refl _ s
  | case7 => exact .refl _ _

/-- A flow of its own, for what is bound where a condition has been decided. -/
abbrev BodyBinder.narrowed (s : BodyBinder) (context : BodyContext) (condition : Expression)
    (whenTrue : Bool) : BodyBinder :=
  applyConditionNarrowing context condition whenTrue s.enterFlow

theorem locals_narrowed (ctx : BodyContext) (cond : Expression) (whenTrue : Bool)
    (s : BodyBinder) : (s.narrowed ctx cond whenTrue).locals = s.locals :=
  (narrows_applyConditionNarrowing ctx cond whenTrue s.enterFlow).locals

theorem Narrows.flowBounded (h : Narrows names s s') (hs : FlowBounded s) : FlowBounded s' := by
  obtain ⟨_, hdepth, added, hadded, hnames⟩ := h
  intro e he
  rw [hadded] at he
  rw [hdepth]
  rcases mem_append.mp he with hmem | hmem
  · exact hs e hmem
  · exact (hnames e hmem).1.le

theorem flowBounded_enterFlow (hs : FlowBounded s) : FlowBounded s.enterFlow :=
  fun e he => Nat.le_succ_of_le (hs e he)

/-- An expression bound in a flow of its own leaves the flow as it was. -/
theorem Keeps.leaveFlow (ctx : BodyContext) (hs : FlowBounded s) (cond : Expression) (whenTrue : Bool)
    (hkeeps : FlowBounded (s.narrowed ctx cond whenTrue) →
      Keeps (s.narrowed ctx cond whenTrue) u) : Keeps s u.leaveFlow := by
  have hnarrows := narrows_applyConditionNarrowing ctx cond whenTrue s.enterFlow
  replace hkeeps := hkeeps (hnarrows.flowBounded (flowBounded_enterFlow hs))
  obtain ⟨added, hadded, hnames⟩ := hnarrows.narrowings
  have hflow : u.leaveFlow.flow = s.flow := by
    have hkept : s.flow.narrowings.filter (·.depth != s.flow.depth + 1) = s.flow.narrowings := by
      refine filter_eq_self.mpr fun e he => ?_
      have hbound := hs e he
      exact bne_iff_ne.mpr (by omega)
    have hdropped : added.filter (·.depth != s.flow.depth + 1) = [] := by
      refine filter_eq_nil_iff.mpr fun e he => ?_
      have hentry' : e.depth = s.flow.depth + 1 := (hnames e he).1
      simp [hentry']
    have hopened : (s.narrowed ctx cond whenTrue).flow =
        ⟨s.flow.narrowings ++ added, s.flow.depth + 1⟩ :=
      congrArg₂ BindingFlowState.mk hadded hnarrows.depth
    show u.flow.leaveFlow = s.flow
    rw [hkeeps.flow, hopened]
    simp [BindingFlowState.leaveFlow, filter_append, hkept, hdropped]
  exact
    { hnarrows.stays.trans hkeeps.toStays with
      flow := hflow
      locals := hkeeps.locals.trans hnarrows.locals
      moves := hkeeps.moves.trans (congrArg length hnarrows.moves) }

theorem keeps_bindName : Keeps s (bindName ctx name s).2 := by
  unfold bindName
  split
  · exact reports_report.keeps
  · exact reports_reportIf.keeps

variable {expectedType : Option SemanticType}

theorem keeps_bindTransfer {returnPosition : Bool} :
    Keeps s (bindTransfer ctx name expectedType returnPosition s).2 := by
  unfold bindTransfer
  split
  · exact reports_reportIf.report.keeps
  · split
    · exact ((reports_reportIf.reportIf.reportIf).reportIf ..).keeps.trans
        keeps_setMoved
    · exact reports_reportIf.report.keeps

variable {bound : BoundValue × BodyBinder}

theorem keeps_bindTransferable (h : Keeps s bound.2)
    (ctx : BodyContext) (expectedType : Option SemanticType) (expression : Expression) :
    Keeps s (bindTransferable ctx expectedType expression bound s).2 := by
  unfold bindTransferable
  split
  · exact keeps_bindTransfer
  · exact h

theorem keeps_bindPayloadValue (h : Keeps s bound.2)
    (ctx : BodyContext) (expectedType : Option SemanticType) (expression : Expression) :
    Keeps s (bindPayloadValue ctx expectedType expression bound s).2 := by
  unfold bindPayloadValue
  split
  · exact keeps_bindTransferable h ..
  · exact h

theorem reports_bindEquality : Reports s (bindEquality isEqual left right s).2 :=
  .ite reports_report reports_reportIf

theorem reports_bindPropagation : Reports s (bindPropagation ctx operand s).2 := by
  unfold bindPropagation
  split
  · exact reports_reportIf
  · split
    · exact reports_report
    · split
      · exact reports_reportIf.report
      · exact reports_reportIf.reportIf

mutual

theorem bindExpression_keeps (ctx : BodyContext) : (expression : Expression) → (s : BodyBinder) → FlowBounded s →
    Keeps s (bindExpression ctx expression s).2
  | .nullLiteral, s, _ | .boolLiteral _, s, _ | .leaf _, s, _ => .refl s
  | .name name, s, _ => keeps_bindName
  | .transfer name, s, _ => keeps_bindTransfer
  | .negation operand, s, hs =>
    (bindExpression_keeps ctx operand s hs).then_reports reports_reportIf
  | .logical isAnd left right, s, hs => by
    have hleft := bindExpression_keeps ctx left s hs
    have hright := Keeps.leaveFlow ctx (hleft.flowBounded hs) left isAnd
      (bindExpression_keeps ctx right _)
    exact (hleft.trans hright).then_reports reports_reportIf
  | .equality isEqual left right, s, hs =>
    ((bindExpression_keeps ctx left s hs).andThen hs
      (bindExpression_keeps ctx right _)).then_reports reports_bindEquality
  | .ternary cond whenTrue whenFalse, s, hs => by
    have hcondition := bindExpression_keeps ctx cond s hs
    have hbounded := hcondition.flowBounded hs
    have hthen := Keeps.leaveFlow ctx hbounded cond true (bindExpression_keeps ctx whenTrue _)
    have hrestored := hthen.trans
      (keeps_moves (length_restoreMoves (Nat.le_of_eq hthen.moves.symm)))
    have helse := hrestored.trans (Keeps.leaveFlow ctx (hrestored.flowBounded hbounded)
      cond false (bindExpression_keeps ctx whenFalse _))
    have hlength := Nat.le_of_eq (hthen.moves.trans helse.moves.symm)
    exact (hcondition.trans (helse.trans (keeps_moves (length_joinMoves hlength)))).then_reports
      reports_reportIf.reportIf
  | .propagation operand, s, hs =>
    (bindExpression_keeps ctx operand s hs).then_reports reports_bindPropagation
  | .construct sym caseName payload, s, hs => by
    unfold bindExpression
    split
    · exact reports_report.keeps.andThen hs (bindOperands_keeps ctx payload _)
    · exact reports_reportIf.keeps.andThen hs (bindPayload_keeps ctx caseName 0 _ payload _)
  | .operation _ operands, s, hs => bindOperands_keeps ctx operands s hs

theorem bindOperands_keeps (ctx : BodyContext) : (arguments : Arguments) → (s : BodyBinder) → FlowBounded s →
    Keeps s (bindOperands ctx arguments s).2
  | .nil, s, _ => .refl s
  | .cons first rest, s, hs =>
    (bindExpression_keeps ctx first s hs).andThen hs (bindOperands_keeps ctx rest _)

theorem bindPayload_keeps (ctx : BodyContext) (caseName : String) (i : Nat)
    (expected : List SemanticType) : (arguments : Arguments) → (s : BodyBinder) → FlowBounded s →
    Keeps s (bindPayload ctx caseName i expected arguments s).2
  | .nil, s, _ => .refl s
  | .cons first rest, s, hs => by
    have hfirst := keeps_bindPayloadValue (bindExpression_keeps ctx first s hs) ctx
      expected.head? first
    exact (hfirst.then_reports reports_checkPayload).andThen hs
      (bindPayload_keeps ctx caseName (i + 1) expected.tail rest _)

end

/-! ## Statements -/

/-- What holds of the state whenever a statement is bound. -/
structure WellFormed (s : BodyBinder) : Prop where
  flow : FlowBounded s
  moves : s.moves.length = s.locals.length
  active : ∀ e ∈ s.locals, e.active = true → e.depth ≤ s.scopeDepth

/-- The locals of `s'` are those of `s` and new ones of a kind. -/
def Adds (kind : SemanticLocal → Prop) (s s' : BodyBinder) : Prop :=
  ∃ fresh, s'.locals = s.locals ++ fresh ∧ ∀ e ∈ fresh, kind e

variable {kind kind' : SemanticLocal → Prop}

theorem Adds.trans (h : Adds kind s t) (h' : Adds kind' t u) :
    Adds (fun e => kind e ∨ kind' e) s u := by
  obtain ⟨fresh, hfresh, hkind⟩ := h
  obtain ⟨fresh', hfresh', hkind'⟩ := h'
  refine ⟨fresh ++ fresh', by rw [hfresh', hfresh, append_assoc], fun e he => ?_⟩
  rcases mem_append.mp he with hmem | hmem
  · exact .inl (hkind e hmem)
  · exact .inr (hkind' e hmem)

theorem Adds.imp (h : Adds kind s s')
    (himp : ∀ e, kind e → kind' e) : Adds kind' s s' := by
  obtain ⟨fresh, hfresh, hkind⟩ := h
  exact ⟨fresh, hfresh, fun e he => himp e (hkind e he)⟩

theorem Adds.of_same (h : Adds kind t u)
    (hlocals : t.locals = s.locals) : Adds kind s u := by
  obtain ⟨fresh, hfresh, hkind⟩ := h
  exact ⟨fresh, hlocals ▸ hfresh, hkind⟩

/-- The locals of `s'` that are not in `s` are out of scope. -/
def Closed (s s' : BodyBinder) : Prop := Adds (·.active = false) s s'

theorem closed_of_locals (h : s'.locals = s.locals) : Closed s s' := ⟨[], by simp [h], by simp⟩

theorem Keeps.closed (h : Keeps s s') : Closed s s' := closed_of_locals h.locals

/-- `s'` is in the place of `s`: the same scopes and flows are open, locals that are active are new
locals of the scope, and narrowings are new ones of the flow. -/
structure Continues (s s' : BodyBinder) : Prop extends Stays s s' where
  depth : s'.flow.depth = s.flow.depth
  narrowings : ∀ e ∈ s'.flow.narrowings, e ∈ s.flow.narrowings ∨ e.depth = s.flow.depth
  locals : Adds (fun e => e.active = true → e.depth = s.scopeDepth) s s'
  moves : s'.moves.length = s'.locals.length

theorem Continues.trans (h : Continues s t) (h' : Continues t u) : Continues s u where
  toStays := h.toStays.trans h'.toStays
  depth := h'.depth.trans h.depth
  narrowings := by
    intro e he
    rcases h'.narrowings e he with hmem | hnew
    · exact h.narrowings e hmem
    · exact .inr (hnew.trans h.depth)
  locals := (h.locals.trans h'.locals).imp fun e hkind hact =>
    hkind.elim (· hact) fun hdepth => (hdepth hact).trans h.scopeDepth
  moves := h'.moves

theorem Continues.wellFormed (h : Continues s s') (hs : WellFormed s) : WellFormed s' where
  flow := by
    intro e he
    rw [h.depth]
    rcases h.narrowings e he with hmem | hnew
    · exact hs.flow e hmem
    · exact hnew.le
  moves := h.moves
  active := by
    obtain ⟨fresh, hfresh, hdepth⟩ := h.locals
    intro e he hact
    rw [hfresh] at he
    rw [h.scopeDepth]
    rcases mem_append.mp he with hmem | hmem
    · exact hs.active e hmem hact
    · exact (hdepth e hmem hact).le

theorem Keeps.continues (h : Keeps s s') (hs : WellFormed s) : Continues s s' where
  toStays := h.toStays
  depth := by rw [h.flow]
  narrowings := by
    intro e he
    rw [h.flow] at he
    exact .inl he
  locals := ⟨[], by simp [h.locals], by simp⟩
  moves := by rw [h.moves, h.locals, hs.moves]

theorem Keeps.wellFormed (h : Keeps s s') (hs : WellFormed s) : WellFormed s' :=
  (h.continues hs).wellFormed hs

theorem Continues.moves_le (h : Continues s s') (hs : s.moves.length = s.locals.length) :
    s.moves.length ≤ s'.moves.length := by
  obtain ⟨fresh, hfresh, -⟩ := h.locals
  rw [h.moves, hfresh, hs, length_append]
  exact Nat.le_add_right ..

theorem Keeps.length_le (h : Keeps s s') : s.locals.length ≤ s'.locals.length :=
  Nat.le_of_eq (congrArg length h.locals.symm)

/-- The narrowings of `s'` are among those of `s`. -/
def NoNewNarrowings (s s' : BodyBinder) : Prop :=
  ∀ e ∈ s'.flow.narrowings, e ∈ s.flow.narrowings

theorem Keeps.noNewNarrowings (h : Keeps s s') : NoNewNarrowings s s' := by
  intro e he
  rw [h.flow] at he
  exact he

theorem Closed.trans (h : Closed s t) (h' : Closed t u) : Closed s u :=
  (Adds.trans h h').imp fun _ => or_self_iff.mp

/-- The locals of `s'` that are not in `s` are out of scope or have one of the names. -/
def FreshNamed (names : List String) (s s' : BodyBinder) : Prop :=
  Adds (fun e => e.active = true → e.name ∈ names) s s'

theorem Closed.freshNamed (h : Closed s s') (names : List String) : FreshNamed names s s' :=
  h.imp fun e hinactive hact => by simp [hinactive] at hact

theorem FreshNamed.trans (h : FreshNamed names s t)
    (h' : FreshNamed names' t u) : FreshNamed (names ++ names') s u :=
  (Adds.trans h h').imp fun _ hkind hact => mem_append.mpr (hkind.imp (· hact) (· hact))

/-- The narrowings of `s'` that are not in `s` are of some names only. -/
def NarrowsOnly (names : List String) (s s' : BodyBinder) : Prop :=
  ∀ e ∈ s'.flow.narrowings, e ∈ s.flow.narrowings ∨ e.identity ∈ names

theorem NarrowsOnly.trans (h : NarrowsOnly names s t)
    (h' : NarrowsOnly names' t u) : NarrowsOnly (names ++ names') s u := by
  intro e he
  rcases h' e he with hmem | hname
  · exact (h e hmem).imp_right (mem_append_left _)
  · exact .inr (mem_append_right _ hname)

/-- `s'` continues `s`, and what comes into scope and to be narrowed has a name from these lists. -/
structure Leads (declared narrowed : List String) (s s' : BodyBinder) : Prop
    extends Continues s s' where
  fresh : FreshNamed declared s s'
  narrowsOnly : NarrowsOnly narrowed s s'

theorem Leads.trans {declared declared' : List String} (h : Leads declared names s t)
    (h' : Leads declared' names' t u) : Leads (declared ++ declared') (names ++ names') s u :=
  ⟨h.toContinues.trans h'.toContinues, h.fresh.trans h'.fresh, h.narrowsOnly.trans h'.narrowsOnly⟩

theorem Leads.closed (h : Leads [] names s s') : Closed s s' :=
  h.fresh.imp fun e hname => by simpa using hname

theorem Leads.noNewNarrowings (h : Leads names [] s s') : NoNewNarrowings s s' :=
  fun e he => (h.narrowsOnly e he).resolve_right not_mem_nil

theorem Keeps.leads (h : Keeps s s') (hs : WellFormed s) : Leads names names' s s' :=
  ⟨h.continues hs, h.closed.freshNamed names, fun e he => .inl (h.noNewNarrowings e he)⟩

theorem Keeps.leadsThen (h : Keeps s t) (hs : WellFormed s)
    (h' : WellFormed t → Leads names names' t u) : Leads names names' s u :=
  Leads.trans (h.leads hs : Leads [] [] s t) (h' (h.wellFormed hs))

theorem WellFormed.enterScope (hs : WellFormed s) : WellFormed s.enterScope where
  flow := hs.flow
  moves := hs.moves
  active e he hact := Nat.le_succ_of_le (hs.active e he hact)

theorem WellFormed.enterLoop (hs : WellFormed s) : WellFormed s.enterLoop :=
  ⟨hs.flow, hs.moves, hs.active⟩

theorem WellFormed.restoreMoves (hs : WellFormed s) {moves : List ResourceMoveState}
    (h : moves.length = s.moves.length) : WellFormed { s with moves := moves } :=
  ⟨hs.flow, h.trans hs.moves, hs.active⟩

theorem freshNamed_declareLocal (name : String) (ty : SemanticType)
    (isMutable resourceScoped : Bool) (s : BodyBinder) :
    FreshNamed [name] s (s.declareLocal name ty isMutable resourceScoped) :=
  ⟨[_], rfl, by simp⟩

theorem leads_declareLocal (hs : WellFormed s) (name : String) (ty : SemanticType)
    (isMutable resourceScoped : Bool) :
    Leads [name] [] s (s.declareLocal name ty isMutable resourceScoped) where
  toStays := ⟨rfl, rfl, rfl, rfl, prefix_refl _⟩
  depth := rfl
  narrowings _ he := .inl he
  locals := ⟨[_], rfl, by simp⟩
  moves := by simp [declareLocal, hs.moves]
  fresh := freshNamed_declareLocal ..
  narrowsOnly _ he := .inl he

/-- Leaving a scope takes its locals out of scope and no others. -/
theorem leaveScope_locals (ctx : BodyContext) (hs : WellFormed s) (h : Continues s.enterScope u) :
    ∃ fresh, u.locals = s.locals ++ fresh ∧ (u.leaveScope ctx).locals =
        s.locals ++ fresh.map fun e => { e with active := false } := by
  obtain ⟨fresh, hfresh, hdepth⟩ := h.locals
  replace hfresh : u.locals = s.locals ++ fresh := hfresh
  have hscope : u.scopeDepth = s.scopeDepth + 1 := h.scopeDepth
  refine ⟨fresh, hfresh, ?_⟩
  have hkept : ∀ e ∈ s.locals,
      (if e.depth == u.scopeDepth then { e with active := false } else e) = e := by
    intro e he
    split
    · rename_i heq
      have hinactive : e.active = false := by
        by_contra hact
        have hle := hs.active e he (Bool.not_eq_false _ ▸ hact)
        have heq' : e.depth = u.scopeDepth := eq_of_beq heq
        omega
      cases e
      simp_all
    · rfl
  have hleft : ∀ e ∈ fresh, (if e.depth == u.scopeDepth then { e with active := false } else e) =
        { e with active := false } := by
    intro e he
    split
    · rfl
    · rename_i hne
      have hinactive : e.active = false := by
        by_contra hact
        have heq := hdepth e he (Bool.not_eq_false _ ▸ hact)
        exact hne (beq_iff_eq.mpr (heq.trans hscope.symm))
      cases e
      simp_all
  show u.locals.map _ = _
  rw [hfresh, map_append, map_congr_left hkept, map_congr_left hleft, map_id']

theorem Leads.leaveScope (ctx : BodyContext) (hs : WellFormed s)
    (h : Leads names names' s.enterScope u) : Leads [] names' s (u.leaveScope ctx) := by
  obtain ⟨fresh, -, hlocals⟩ := leaveScope_locals ctx hs h.toContinues
  have hclosed : Closed s (u.leaveScope ctx) := by
    refine ⟨_, hlocals, fun e he => ?_⟩
    obtain ⟨_, _, rfl⟩ := mem_map.mp he
    rfl
  exact
    { h with
      locals := hclosed.imp fun e hinactive hact => by simp [hinactive] at hact
      moves := by
        show u.moves.length = (u.locals.map _).length
        rw [length_map, h.moves]
      scopeDepth := by
        show u.scopeDepth - 1 = s.scopeDepth
        rw [h.scopeDepth]
        rfl
      reports := h.reports.trans (prefix_append ..)
      fresh := hclosed.freshNamed [] }

theorem WellFormed.narrowed (hs : WellFormed s) (ctx : BodyContext) (cond : Expression) (whenTrue : Bool) :
    WellFormed (applyConditionNarrowing ctx cond whenTrue s) := by
  have hnarrows := narrows_applyConditionNarrowing ctx cond whenTrue s
  refine ⟨hnarrows.flowBounded hs.flow, ?_, ?_⟩
  · rw [hnarrows.moves, hnarrows.locals, hs.moves]
  · rw [hnarrows.locals, hnarrows.stays.scopeDepth]
    exact hs.active

theorem WellFormed.enterFlow (hs : WellFormed s) : WellFormed s.enterFlow :=
  ⟨flowBounded_enterFlow hs.flow, hs.moves, hs.active⟩

theorem Narrows.leads (h : Narrows names s s') (hs : WellFormed s) : Leads [] names s s' := by
  obtain ⟨added, hadded, hnames⟩ := h.narrowings
  have hnarrowings : ∀ e ∈ s'.flow.narrowings, e ∈ s.flow.narrowings ∨ e ∈ added := by
    intro e he
    rw [hadded] at he
    exact mem_append.mp he
  have hlocals := closed_of_locals h.locals
  exact
    { h.stays with
      depth := h.depth
      narrowings := fun e he => (hnarrowings e he).imp_right (hnames e · |>.1)
      locals := hlocals.imp fun e hinactive hact => by simp [hinactive] at hact
      moves := by rw [h.moves, h.locals, hs.moves]
      fresh := hlocals.freshNamed []
      narrowsOnly := fun e he => (hnarrowings e he).imp_right (hnames e · |>.2) }

theorem Leads.then_reports (h : Leads names names' s t) (h' : Reports t u) :
    Leads names names' s u := by
  obtain ⟨more, rfl⟩ := h'
  exact { h with reports := h.reports.trans (prefix_append ..) }

/-- What is bound in a flow of its own leaves no narrowings behind. -/
theorem Leads.leaveFlow (h : Leads names names' (s.narrowed ctx cond whenTrue) u) :
    Leads names [] s u.leaveFlow := by
  have hnarrows := narrows_applyConditionNarrowing ctx cond whenTrue s.enterFlow
  obtain ⟨added, hadded, hnames⟩ := hnarrows.narrowings
  have hdepth : u.flow.depth = s.flow.depth + 1 := h.depth.trans hnarrows.depth
  have hold : ∀ e ∈ u.leaveFlow.flow.narrowings, e ∈ s.flow.narrowings := by
    intro e he
    obtain ⟨hmem, hother⟩ := mem_filter.mp he
    have hne : e.depth ≠ s.flow.depth + 1 := by
      rw [← hdepth]
      exact bne_iff_ne.mp hother
    rcases h.narrowings e hmem with hopened | hnew
    · rw [hadded] at hopened
      rcases mem_append.mp hopened with hold | hadded'
      · exact hold
      · exact absurd (hnames e hadded').1 hne
    · exact absurd (hnew.trans hnarrows.depth) hne
  exact
    { hnarrows.stays.trans h.toStays with
      depth := by
        show u.flow.depth - 1 = s.flow.depth
        rw [hdepth]
        rfl
      narrowings := fun e he => .inl (hold e he)
      locals := (h.locals.of_same hnarrows.locals).imp fun _ hdepth hact =>
        (hdepth hact).trans hnarrows.stays.scopeDepth
      moves := h.moves
      fresh := h.fresh.of_same hnarrows.locals
      narrowsOnly := fun e he => .inl (hold e he) }

variable (ctx)

theorem keeps_bindCondition (code statement : String) (cond : Expression) (s : BodyBinder)
    (hs : FlowBounded s) : Keeps s (bindCondition ctx code statement cond s).2 :=
  (bindExpression_keeps ctx cond s hs).then_reports reports_reportIf

theorem keeps_moveAcquired : Keeps s (moveAcquired identity s) := by
  unfold moveAcquired
  split
  · split
    · split
      · exact reports_reportIf.keeps.trans keeps_setMoved
      · exact .refl s
    · exact .refl s
  · exact .refl s

theorem keeps_bindAcquisition (acq : Expression) (s : BodyBinder) (hs : FlowBounded s) :
    Keeps s (bindAcquisition ctx acq s).2 :=
  (((bindExpression_keeps ctx acq s hs).then_reports reports_checkAcquisition).trans
    keeps_moveAcquired).then_reports reports_reportIf

theorem keeps_bindScrutinee (scrutinee : Expression) (s : BodyBinder) (hs : FlowBounded s) :
    Keeps s (bindScrutinee ctx scrutinee s).2 :=
  (bindExpression_keeps ctx scrutinee s hs).then_reports reports_reportIf

theorem keeps_forElement (name : String) (ety : Option SemanticType)
    (coll : Expression) (s : BodyBinder) (hs : FlowBounded s) :
    Keeps s (s.forElement ctx name ety coll).2 :=
  (bindExpression_keeps ctx coll s hs).then_reports reports_bindElementType

variable {ctx}

theorem keeps_bindReturn (valueNode : Expression) (s : BodyBinder) (hs : FlowBounded s) :
    Keeps s (bindReturn ctx valueNode s).2 := by
  have hbounded : FlowBounded s.enterReturn := hs
  have hvalue := keeps_bindTransferable (bindExpression_keeps ctx valueNode s.enterReturn hbounded)
    ctx (some ctx.returnType) valueNode
  refine Keeps.then_reports ?_ (reports_validateOwnedLocals.trans reports_checkReturn)
  exact
    { hvalue with
      returnTransferDepth := by
        show _ - 1 = s.returnTransferDepth
        rw [hvalue.returnTransferDepth]
        rfl }

theorem leads_declarePayload : (names : List String) → (types : List SemanticType) →
    (s : BodyBinder) → WellFormed s → Leads names [] s (declarePayload names types s).2
  | [], _, s, hs => (Keeps.refl s).leads hs
  | name :: names, types, _, hs => by
    have hfirst := leads_declareLocal hs name (types.headD .error) false false
    exact hfirst.trans (leads_declarePayload names types.tail _ (hfirst.wellFormed hs))

theorem Leads.leaveLoop (hs : WellFormed s) (h : Leads names names' s.enterLoop u) :
    Leads names names' s (s.leaveLoop u) where
  __ := h
  moves := (length_restoreMoves (h.moves_le hs.moves)).trans h.moves
  loopDepth := by
    show u.loopDepth - 1 = s.loopDepth
    rw [h.loopDepth]
    rfl
  loopResourceDepth := rfl

/-! ### The blocks of a statement -/

theorem flowBlock (hs : WellFormed s)
    (h : Leads names names' (s.narrowed ctx cond whenTrue).enterScope u) :
    Leads [] [] s (u.leaveScope ctx).leaveFlow :=
  (h.leaveScope ctx (hs.enterFlow.narrowed ctx cond whenTrue)).leaveFlow

abbrev BlockLeads (context : BodyContext) (body : Statements) (s : BodyBinder) : Prop :=
  Leads body.declared (body.narrows s.loopDepth) s (bindStatements context body s).2

section Branch

variable {thenBody elseBody : Statements}

variable (hs : WellFormed s)
include hs

theorem wellFormed_thenStart : WellFormed (s.thenStart ctx cond) :=
  (((keeps_bindCondition ctx _ _ cond s hs.flow).wellFormed hs).enterFlow.narrowed ..).enterScope

theorem thenEnd_spec (hthen : BlockLeads ctx thenBody (s.thenStart ctx cond)) :
    Leads [] [] s (s.thenEnd ctx cond thenBody) :=
  (keeps_bindCondition ctx "NR145" "If" cond s hs.flow).leadsThen hs fun h =>
    flowBlock h hthen

variable (hthen : Leads [] [] s (s.thenEnd ctx cond thenBody))
include hthen

/-- The moves after the first branch are set back to those before it. -/
theorem length_moves_thenEnd : (restoreMoves (bindCondition ctx "NR145" "If" cond s).2.moves
      (s.thenEnd ctx cond thenBody).moves).length = (s.thenEnd ctx cond thenBody).moves.length := by
  have hcondition := keeps_bindCondition ctx "NR145" "If" cond s hs.flow
  refine length_restoreMoves ?_
  rw [hcondition.moves]
  exact hthen.moves_le hs.moves

theorem wellFormed_elseStart : WellFormed (s.elseStart ctx cond thenBody) :=
  (((hthen.wellFormed hs).restoreMoves (length_moves_thenEnd hs hthen)).enterFlow.narrowed
    ..).enterScope

theorem elseEnd_spec (helse : BlockLeads ctx elseBody (s.elseStart ctx cond thenBody)) :
    Leads [] [] (s.thenEnd ctx cond thenBody) (s.elseEnd ctx cond thenBody elseBody) :=
  (keeps_moves (length_moves_thenEnd hs hthen)).leadsThen (hthen.wellFormed hs) fun h =>
    flowBlock h helse

omit hthen

/-- The state after the branches, apart from the moves that are known then. -/
theorem joinBranches_spec (thenTerminates elseTerminates : Bool)
    {thenMoves elseMoves : List ResourceMoveState} (hthen : thenMoves.length ≤ s.moves.length)
    (helse : elseMoves.length ≤ s.moves.length) : Leads []
      (match thenTerminates, elseTerminates with
        | true, false => provenNames cond false
        | false, true => provenNames cond true
        | _, _ => []) s
      (joinBranches ctx cond thenTerminates elseTerminates thenMoves elseMoves s) := by
  cases thenTerminates <;> cases elseTerminates
  · exact (keeps_moves (length_joinMoves hthen)).leads hs
  · exact (keeps_moves (length_restoreMoves hthen)).leadsThen hs
      (narrows_applyConditionNarrowing ..).leads
  · exact (keeps_moves (length_restoreMoves helse)).leadsThen hs
      (narrows_applyConditionNarrowing ..).leads
  · exact (keeps_moves (length_restoreMoves hthen)).leads hs

theorem leads_branch (hthen : BlockLeads ctx thenBody (s.thenStart ctx cond))
    (helse : BlockLeads ctx elseBody (s.elseStart ctx cond thenBody)) :
    Leads [] ((Statement.branch cond thenBody elseBody).narrows s.loopDepth) s
      (bindStatement ctx (.branch cond thenBody elseBody) s).2 := by
  have hthen' := thenEnd_spec hs hthen
  have helse' := elseEnd_spec hs hthen' helse
  have hend := hthen'.trans helse'
  have hloop : (s.elseEnd ctx cond thenBody elseBody).loopDepth = s.loopDepth :=
    hend.loopDepth
  refine hend.trans ?_
  rw [← hloop]
  exact joinBranches_spec (hend.wellFormed hs) _ _ (helse'.moves_le hthen'.moves) le_rfl

end Branch

theorem wellFormed_whileStart (hs : WellFormed s) : WellFormed (s.whileStart ctx cond) :=
  (((keeps_bindCondition ctx _ _ cond s hs.flow).wellFormed hs).enterLoop.enterFlow.narrowed
    ..).enterScope

theorem closed_whileStart (hs : WellFormed s) : Closed s (s.whileStart ctx cond) :=
  closed_of_locals ((locals_narrowed ctx cond true _).trans
    (keeps_bindCondition ctx "NR146" "While" cond s hs.flow).locals)

theorem whileEnd_spec (hs : WellFormed s) (hbody : BlockLeads ctx body (s.whileStart ctx cond)) :
    Leads [] [] s (bindStatement ctx (.whileLoop cond body) s).2 :=
  (keeps_bindCondition ctx "NR146" "While" cond s hs.flow).leadsThen hs fun h =>
    (flowBlock h.enterLoop hbody).leaveLoop h

/-! ### Blocks that declare locals -/

theorem flow_declarePayload : (names : List String) → (types : List SemanticType) →
    (s : BodyBinder) → (declarePayload names types s).2.flow = s.flow
  | [], _, _ => rfl
  | name :: names, types, s =>
    flow_declarePayload names types.tail (s.declareLocal name (types.headD .error) false false)

/-- `t` is the start of a block: behind its head, in a scope in which it declares `names`. -/
structure Opens (names : List String) (s head t : BodyBinder) : Prop where
  keeps : Keeps s head
  leads : Leads names [] head.enterScope t
  flow : t.flow = head.flow

namespace Opens

variable {names : List String} {head : BodyBinder}

theorem single (hs : WellFormed s) (hhead : Keeps s head) (name : String) (ty : SemanticType)
    (isMutable resourceScoped : Bool) :
    Opens [name] s head (head.enterScope.declareLocal name ty isMutable resourceScoped) :=
  ⟨hhead, leads_declareLocal (hhead.wellFormed hs).enterScope .., rfl⟩

theorem payload (hs : WellFormed s) (hhead : Keeps s head) (names : List String)
    (types : List SemanticType) : Opens names s head (declarePayload names types head.enterScope).2 :=
  ⟨hhead, leads_declarePayload _ _ _ (hhead.wellFormed hs).enterScope, flow_declarePayload ..⟩

theorem wellFormed (h : Opens names s head t) (hs : WellFormed s) : WellFormed t :=
  h.leads.wellFormed (h.keeps.wellFormed hs).enterScope

theorem adds (h : Opens names s head t) : Adds (fun _ => True) s t :=
  (Adds.trans h.keeps.closed h.leads.locals).imp fun _ _ => trivial

theorem loopDepth (h : Opens names s head t) : t.loopDepth = s.loopDepth :=
  h.leads.loopDepth.trans h.keeps.loopDepth

theorem leave (h : Opens names s head t) (hs : WellFormed s) {body : Statements}
    (hbody : BlockLeads ctx body t) : Leads [] (body.narrows s.loopDepth) s
      ((bindStatements ctx body t).2.leaveScope ctx) := by
  rw [← h.loopDepth]
  exact h.keeps.leadsThen hs fun hhead => (h.leads.trans hbody).leaveScope ctx hhead

end Opens

theorem opens_for (ctx : BodyContext) (name : String) (ety : Option SemanticType)
    (coll : Expression) (hs : WellFormed s) :
    Opens [name] (s.forElement ctx name ety coll).2.enterLoop
      (s.forElement ctx name ety coll).2.enterLoop (s.forStart ctx name ety coll) :=
  .single ((keeps_forElement ctx name ety coll s hs.flow).wellFormed hs).enterLoop
    (.refl _) ..

theorem wellFormed_forStart (name : String) (ety : Option SemanticType)
    {coll : Expression} (hs : WellFormed s) : WellFormed (s.forStart ctx name ety coll) :=
  (opens_for ctx name ety coll hs).wellFormed
    ((keeps_forElement ctx name ety coll s hs.flow).wellFormed hs).enterLoop

theorem forEnd_spec (hs : WellFormed s)
    (hbody : BlockLeads ctx body (s.forStart ctx name ety coll)) :
    Leads [] (body.narrows (s.loopDepth + 1)) s
      (bindStatement ctx (.forLoop name ety coll body) s).2 := by
  have hcollection := keeps_forElement ctx name ety coll s hs.flow
  rw [← hcollection.loopDepth]
  exact hcollection.leadsThen hs fun h =>
    ((opens_for ctx name ety coll hs).leave h.enterLoop hbody).leaveLoop h

theorem opens_unsafeBlock (hs : WellFormed s) : Opens [] s s s.enterScope :=
  .payload hs (.refl s) [] []

theorem opens_borrow (ctx : BodyContext) (name : String) (owner : Expression) (hs : WellFormed s) :
    Opens [name] s (s.borrowPointer ctx owner).2 (s.borrowStart ctx name owner) :=
  .single hs ((bindExpression_keeps ctx owner s hs.flow).then_reports reports_bindPointerType) ..

theorem opens_using (ctx : BodyContext) (name : String) (acq : Expression) (hs : WellFormed s) :
    Opens [name] s (bindAcquisition ctx acq s).2 (s.usingStart ctx name acq) :=
  .single hs (keeps_bindAcquisition ctx acq s hs.flow) ..

theorem opens_case (ctx : BodyContext) (sym : Option SemanticClass)
    (qualifier caseName : String) (bindings : List String) (seen : List Nat) (hs : WellFormed s) :
    Opens bindings s (s.caseHead ctx sym qualifier caseName bindings seen).2
      (s.caseStart ctx sym qualifier caseName bindings seen).2 :=
  .payload hs reports_bindCaseIndex.keeps ..

theorem reports_checkVariable : Reports s (checkVariable ctx isMutable name ety v s) :=
  (reports_checkInitializer.reportIf.reportIf).reportIf ..

theorem reports_checkAssignment : Reports s (checkAssignment ctx name e valueType s) :=
  .ite reports_report (.ite (.refl s) (.ite reports_report reports_report))

theorem leads_invalidateNarrowing (name : String) (hs : WellFormed s) :
    Leads [] [] s { s with flow := s.flow.invalidateNarrowing name } where
  __ := ((Keeps.refl s).leads hs : Leads [] [] s s)
  narrowings _ he := .inl (mem_of_mem_filter he)
  narrowsOnly _ he := .inl (mem_of_mem_filter he)

/-- An assignment checks its value and, for a local, ends the narrowings of the name. -/
theorem bindAssignment_spec (ctx : BodyContext) (name : String) (valueNode : Expression)
    (hs : FlowBounded s) : ∃ t, Keeps s t ∧ ((bindAssignment ctx name valueNode s).2 = t ∨
      (bindAssignment ctx name valueNode s).2 =
        { t with flow := t.flow.invalidateNarrowing name }) := by
  have hvalue := bindExpression_keeps ctx valueNode s hs
  unfold bindAssignment
  split
  · exact ⟨_, hvalue.then_reports (reports_reportIf.trans (.ite reports_report reports_report)),
      .inl rfl⟩
  · exact ⟨_, hvalue.then_reports (reports_reportIf.trans reports_checkAssignment), .inr rfl⟩

theorem leads_bindAssignment (hs : WellFormed s) (name : String) (valueNode : Expression) :
    Leads [] [] s (bindAssignment ctx name valueNode s).2 := by
  obtain ⟨t, hkeeps, heq | heq⟩ := bindAssignment_spec ctx name valueNode hs.flow
  · exact heq ▸ hkeeps.leads hs
  · exact heq ▸ hkeeps.leadsThen hs (leads_invalidateNarrowing name)

/-- The name that a statement adds to the scope it stands in. -/
def Statement.declaredName : Statement → List String
  | .declaration _ name _ _ => [name]
  | _ => []

theorem declared_cons (first : Statement) (rest : Statements) :
    (Statements.cons first rest).declared = first.declaredName ++ rest.declared := by
  cases first <;> rfl

mutual

/-- Only a declaration brings a name into the scope it stands in. -/
theorem bindStatement_leads (ctx : BodyContext) : (statement : Statement) →
    (s : BodyBinder) → WellFormed s → Leads statement.declaredName (statement.narrows s.loopDepth) s
      (bindStatement ctx statement s).2
  | .declaration .., s, hs =>
    ((bindExpression_keeps ctx _ s hs.flow).then_reports reports_checkVariable).leadsThen hs
      fun h => leads_declareLocal h ..
  | .assignment name v, s, hs => leads_bindAssignment hs name v
  | .expression v, s, hs =>
    ((bindExpression_keeps ctx v s hs.flow).then_reports reports_reportIf).leads hs
  | .branch cond thenBody elseBody, s, hs => by
    have hthen := bindStatements_leads ctx thenBody (s.thenStart ctx cond)
      (wellFormed_thenStart hs)
    have helse := bindStatements_leads ctx elseBody
      (s.elseStart ctx cond thenBody) (wellFormed_elseStart hs (thenEnd_spec hs hthen))
    exact leads_branch hs hthen helse
  | .whileLoop cond body, s, hs =>
    whileEnd_spec hs (bindStatements_leads ctx body _ (wellFormed_whileStart hs))
  | .forLoop name ety _ body, s, hs =>
    forEnd_spec hs (bindStatements_leads ctx body _ (wellFormed_forStart name ety hs))
  | .matchOn scrutinee cases, s, hs => by
    have hhead := keeps_bindScrutinee ctx scrutinee s hs.flow
    have hcases := hhead.leadsThen hs
      (bindCases_leads ctx (bindScrutinee ctx scrutinee s).1.2 cases [] _)
    rw [hhead.loopDepth] at hcases
    exact hcases.then_reports reports_reportMissing
  | .breakLoop, s, hs | .continueLoop, s, hs | .returnNothing, s, hs =>
    reports_reportIf.keeps.leads hs
  | .returnValue v, s, hs => (keeps_bindReturn v s hs.flow).leads hs
  | .unsafeBlock body, s, hs =>
    (opens_unsafeBlock hs).leave hs (bindStatements_leads ctx body _ hs.enterScope)
  | .borrowBlock name owner body, s, hs =>
    have hopens := opens_borrow ctx name owner hs
    hopens.leave hs (bindStatements_leads ctx body _ (hopens.wellFormed hs))
  | .usingBlock name acq body, s, hs =>
    have hopens := opens_using ctx name acq hs
    hopens.leave hs (bindStatements_leads ctx body _ (hopens.wellFormed hs))

theorem bindStatements_leads (ctx : BodyContext) : (body : Statements) →
    (s : BodyBinder) → WellFormed s → BlockLeads ctx body s
  | .nil, s, hs => (Keeps.refl s).leads hs
  | .cons first rest, s, hs => by
    have hfirst := bindStatement_leads ctx first s hs
    have hrest := bindStatements_leads ctx rest _ (hfirst.wellFormed hs)
    rw [BlockLeads, hfirst.loopDepth] at hrest
    rw [BlockLeads, declared_cons]
    exact hfirst.trans hrest

theorem bindCases_leads (ctx : BodyContext) (sym : Option SemanticClass) :
    (cases : MatchCases) → (seen : List Nat) → (s : BodyBinder) → WellFormed s →
    Leads [] (cases.narrows s.loopDepth) s (bindCases ctx sym cases seen s).2
  | .nil, _, s, hs => (Keeps.refl s).leads hs
  | .cons qualifier caseName bindings body rest, seen, s, hs => by
    have hopens := opens_case ctx sym qualifier caseName bindings seen hs
    have hcase := hopens.leave hs (bindStatements_leads ctx body _ (hopens.wellFormed hs))
    have hrest := bindCases_leads ctx sym rest
      (s.caseHead ctx sym qualifier caseName bindings seen).1.2 _ (hcase.wellFormed hs)
    rw [hcase.loopDepth] at hrest
    exact hcase.trans hrest

end

theorem Opens.ends {head : BodyBinder} (h : Opens names s head t)
    (hs : WellFormed s) (ctx : BodyContext) (body : Statements) :
    Leads [] (body.narrows s.loopDepth) s ((bindStatements ctx body t).2.leaveScope ctx) :=
  h.leave hs (bindStatements_leads ctx body t (h.wellFormed hs))

/-! ## Accepted statements

The reports about the parts of a statement are among the reports about the statement. -/

theorem leaveScope_accepted (h : (u.leaveScope ctx).diagnostics = []) : u.diagnostics = [] :=
  (append_eq_nil_iff.mp h).1

theorem flowBlock_accepted (hs : WellFormed s) (h : ((bindStatements ctx body
      (s.narrowed ctx cond whenTrue).enterScope).2.leaveScope ctx).diagnostics = []) :
    s.diagnostics = [] ∧ (bindStatements ctx body
      (s.narrowed ctx cond whenTrue).enterScope).2.diagnostics = [] := by
  have hbody := leaveScope_accepted h
  have hstart := (bindStatements_leads ctx body _
    (hs.enterFlow.narrowed ctx cond whenTrue).enterScope).accepted hbody
  exact ⟨(narrows_applyConditionNarrowing _ _ _ s.enterFlow).diagnostics.symm.trans hstart, hbody⟩

theorem Opens.accepted {head : BodyBinder} (h : Opens names s head t) (hs : WellFormed s)
    (ctx : BodyContext) (body : Statements)
    (hacc : ((bindStatements ctx body t).2.leaveScope ctx).diagnostics = []) :
    head.diagnostics = [] ∧ (bindStatements ctx body t).2.diagnostics = [] := by
  have hbody := leaveScope_accepted hacc
  have hstart := (bindStatements_leads ctx body t (h.wellFormed hs)).accepted hbody
  exact ⟨h.leads.accepted hstart, hbody⟩

/-- The binder's way through the branches of an `if`. -/
structure Branches (context : BodyContext) (condition : Expression) (thenBody elseBody : Statements)
    (s : BodyBinder) : Prop where
  head : Keeps s (bindCondition context "NR145" "If" condition s).2
  thenStart : WellFormed (s.thenStart context condition)
  thenEnd : Leads [] [] s (s.thenEnd context condition thenBody)
  elseStart : WellFormed (s.elseStart context condition thenBody)
  elseEnd : Leads [] [] (s.thenEnd context condition thenBody)
    (s.elseEnd context condition thenBody elseBody)

theorem branches (ctx : BodyContext) (cond : Expression) (thenBody elseBody : Statements)
    (hs : WellFormed s) : Branches ctx cond thenBody elseBody s := by
  have hthenStart : WellFormed (s.thenStart ctx cond) := wellFormed_thenStart hs
  have hthenEnd := thenEnd_spec hs (bindStatements_leads ctx thenBody _ hthenStart)
  have helseStart := wellFormed_elseStart hs hthenEnd
  exact ⟨keeps_bindCondition ctx "NR145" "If" cond s hs.flow, hthenStart, hthenEnd,
    helseStart, elseEnd_spec hs hthenEnd (bindStatements_leads ctx elseBody _ helseStart)⟩

variable {thenBody elseBody : Statements}

theorem Branches.closed_thenStart
    (h : Branches ctx cond thenBody elseBody s) : Closed s (s.thenStart ctx cond) :=
  closed_of_locals ((locals_narrowed ctx cond true _).trans h.head.locals)

theorem Branches.closed_elseStart
    (h : Branches ctx cond thenBody elseBody s) : Closed s (s.elseStart ctx cond thenBody) :=
  h.thenEnd.closed.trans (closed_of_locals (locals_narrowed ctx cond false _))

theorem Branches.accepted
    (h : Branches ctx cond thenBody elseBody s) (hs : WellFormed s) (hacc :
      (bindStatement ctx (.branch cond thenBody elseBody) s).2.diagnostics = []) :
    (bindExpression ctx cond s).2.diagnostics = [] ∧
      (bindStatements ctx thenBody (s.thenStart ctx cond)).2.diagnostics = [] ∧
      (bindStatements ctx elseBody (s.elseStart ctx cond thenBody)).2.diagnostics = [] := by
  have hthenEnd := h.thenEnd.wellFormed hs
  have hend : (s.elseEnd ctx cond thenBody elseBody).diagnostics = [] :=
    (joinBranches_spec (h.elseEnd.wellFormed hthenEnd) _ _ (h.elseEnd.moves_le h.thenEnd.moves)
      le_rfl).accepted hacc
  obtain ⟨hbetween, helse⟩ :=
    flowBlock_accepted (hthenEnd.restoreMoves (length_moves_thenEnd hs h.thenEnd)) hend
  obtain ⟨hhead, hthen⟩ := flowBlock_accepted (h.head.wellFormed hs) hbetween
  exact ⟨reports_reportIf.keeps.accepted hhead, hthen, helse⟩

theorem while_accepted (hs : WellFormed s)
    (hacc : (bindStatement ctx (.whileLoop cond body) s).2.diagnostics = []) :
    (bindExpression ctx cond s).2.diagnostics = [] ∧
      (bindStatements ctx body (s.whileStart ctx cond)).2.diagnostics = [] := by
  have hcondition := keeps_bindCondition ctx "NR146" "While" cond s hs.flow
  obtain ⟨hhead, hbody⟩ := flowBlock_accepted (hcondition.wellFormed hs).enterLoop hacc
  exact ⟨reports_reportIf.keeps.accepted hhead, hbody⟩

theorem match_accepted {scrutinee : Expression} {cases : MatchCases} (hs : WellFormed s)
    (hacc : (bindStatement ctx (.matchOn scrutinee cases) s).2.diagnostics = []) :
    (bindExpression ctx scrutinee s).2.diagnostics = [] ∧
      (bindCases ctx (bindScrutinee ctx scrutinee s).1.2 cases []
        (bindScrutinee ctx scrutinee s).2).2.diagnostics = [] := by
  have hcases := reports_reportMissing.keeps.accepted hacc
  have hhead := (keeps_bindScrutinee ctx scrutinee s hs.flow).wellFormed hs
  have hscrutinee := (bindCases_leads ctx _ cases [] _ hhead).accepted hcases
  exact ⟨reports_reportIf.keeps.accepted hscrutinee, hcases⟩

theorem acquisition_accepted (h : (bindAcquisition ctx acq s).2.diagnostics = []) :
    (bindExpression ctx acq s).2.diagnostics = [] :=
  (reports_checkAcquisition.keeps.trans (keeps_moveAcquired.then_reports
    reports_reportIf)).accepted h

/-! ## Accepted uses -/

theorem bindName_accepted (h : (bindName ctx name s).2.diagnostics = []) :
    ∃ ty, s.findVariableType ctx name = some ty ∧ (bindName ctx name s).1.typeName = ty ∧
      (bindName ctx name s).1.boundNode = .name (s.findVariable ctx name) ty ∧
      (∀ i e, s.findLocal name = some (i, e) → s.moveOf i = .available) ∧
      (bindName ctx name s).2 = s := by
  unfold bindName at h ⊢
  split at h
  · exact absurd h report_not_accepted
  · rename_i ty htype
    obtain ⟨havailable, -, hsame⟩ := reportIf_accepted h
    refine ⟨ty, htype, rfl, rfl, fun i e hfound => ?_, hsame⟩
    rw [hfound] at havailable
    simpa [ResourceMoveState.isAvailable] using havailable

theorem bindTransfer_accepted {returnPosition : Bool}
    (h : (bindTransfer ctx name expectedType returnPosition s).2.diagnostics = []) :
    returnPosition = true ∧ ∃ i e, s.findLocal name = some (i, e) ∧
      s.moveOf i = .available ∧ s.outsideLoop e = false ∧ expectedType = some e.typeName ∧
      bindTransfer ctx name expectedType returnPosition s =
        (⟨e.typeName, .transfer i e.typeName, .variable (.declared i)⟩, s.setMoved i) := by
  unfold bindTransfer at h ⊢
  split at h
  · exact absurd h report_not_accepted
  · rename_i i e hfound
    split at h
    · rename_i hcarries
      obtain ⟨hexpected, h₁, hsame₁⟩ := reportIf_accepted h
      obtain ⟨houtside, h₂, hsame₂⟩ := reportIf_accepted h₁
      obtain ⟨havailable, h₃, hsame₃⟩ := reportIf_accepted h₂
      obtain ⟨hposition, -, hsame₄⟩ := reportIf_accepted h₃
      refine ⟨by simpa using hposition, i, e, hfound, ?_, houtside, ?_, ?_⟩
      · simpa [ResourceMoveState.isAvailable] using havailable
      · simpa using hexpected
      · rw [if_pos hcarries, hsame₁, hsame₂, hsame₃, hsame₄]
    · exact absurd h report_not_accepted

end Neri.Semantic
