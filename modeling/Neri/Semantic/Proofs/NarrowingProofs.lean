import Neri.Semantic.Proofs.FrameProofs

/-!
# Narrowed uses are sound

The induction over the statements of a body carries that the binder's state is true of the store. A
statement that is left by a jump keeps the types of variables, and what it does not assign to it does
not change, so that the narrowings at the head of a loop hold again whichever way the body is left.
-/

namespace Neri.Semantic

open BodyBinder Runs List Function

variable {ctx : BodyContext} {s s' t u v : BodyBinder} {store : Variable → Value}
  {model : SemanticModel}
variable {w : World} {program : Prog World Unit} {jumps : Jump → World → Prop} {value : Value}
  {names names' : List String} {indices : List Nat} {name : String} {typeName : SemanticType}
  {ety : Option SemanticType} {e : SemanticLocal} {valueNode : Expression}

/-- The state is true of the world, and the uses so far are sound. -/
def Describes (context : BodyContext) (s : BodyBinder) (w : World) : Prop :=
  Agrees context s w.store ∧ UsesAreTyped context.model w.trace

/-- The types of the state are true of the world, and the uses so far are sound. -/
def DescribesTypes (context : BodyContext) (s : BodyBinder) (w : World) : Prop :=
  Typed context s w.store ∧ UsesAreTyped context.model w.trace

theorem Describes.types (h : Describes ctx s w) : DescribesTypes ctx s w :=
  ⟨h.1.toTyped, h.2⟩

theorem Agrees.describes (h : Agrees ctx s store) (hw : Quiet ctx store w) :
    Describes ctx s w := ⟨hw.1 ▸ h, hw.2⟩

/-- A world that a state describes has a store that the state is true of. -/
theorem triple_describes {α : Type} {program : Prog World α} {post : α → World → Prop}
    (h : ∀ store, Agrees ctx s store → Triple (Quiet ctx store) program post jumps) :
    Triple (Describes ctx s) program post jumps :=
  fun w exit w' hw hrun => h w.store hw.1 w exit w' ⟨rfl, hw.2⟩ hrun

variable {expr : Expression}

theorem ExpressionSound.andThen {β : Type} {value : BoundValue}
    {next : Value → Prog World β} {post : β → World → Prop}
    (h : ExpressionSound ctx s store expr value)
    (hjumps : ∀ kind w, Quiet ctx store w → jumps kind w)
    (hnext : ∀ res, ValueFacts ctx s store expr value.typeName res →
      Triple (Quiet ctx store) (next res) post jumps) :
    Triple (Quiet ctx store) (value.boundNode.eval ctx.model >>= next) post jumps :=
  .bind (h.weaken (fun _ hw => hw) (fun _ _ hw => hw) hjumps) fun res => .of_fact (hnext res)

/-! ## Scopes -/

variable {kind : SemanticLocal → Prop}

theorem Typed.of_adds (hadds : Adds kind s s')
    (h : Typed ctx s' store) : Typed ctx s store := by
  obtain ⟨fresh, hlocals, -⟩ := hadds
  refine ⟨h.parameters, fun i e hget hactive => h.locals i e ?_ hactive⟩
  have hlt := (List.getElem_of_getElem? hget).1
  rw [hlocals, getElem?_append_left hlt]
  exact hget

theorem DescribesTypes.of_adds (hadds : Adds kind s s')
    (h : DescribesTypes ctx s' w) : DescribesTypes ctx s w :=
  ⟨h.1.of_adds hadds, h.2⟩

/-- None of the names denotes a variable under a narrowing. -/
def Unseen (context : BodyContext) (names : List String) (s : BodyBinder) : Prop :=
  ∀ e ∈ s.flow.narrowings, e.identity ∈ names → s.findVariable context e.identity = none

/-- At the end of a block its locals are out of scope; what is narrowed then is not one of them. -/
theorem Agrees.leaveBlock (h : Agrees ctx u store)
    (hfresh : FreshNamed names s u) (hclosed : Closed s v) (hnarrowings : NoNewNarrowings u v)
    (hunseen : Unseen ctx names v) : Agrees ctx v store where
  toTyped := (h.of_adds hfresh).closed hclosed
  narrowings e he sym hsym := by
    have hname : e.identity ∉ names := by
      intro hmem
      rw [hunseen e he hmem] at hsym
      cases hsym
    refine h.narrowings e (hnarrowings e he) sym ?_
    rw [hfresh.findVariable hname, ← hclosed.findVariable]
    exact hsym

theorem usesAreTyped_leaveAll {trace : List Event} (h : UsesAreTyped model trace) :
    UsesAreTyped model ((indices.map Event.leave).reverse ++ trace) := by
  intro sym typeName value hmem
  rcases mem_append.mp hmem with hleft | hmem
  · simp at hleft
  · exact h sym typeName value hmem

/-- A block that starts in `t`, inside the scope of `s`, ends in `u`, and is left to `v`. -/
theorem block_sound {opened : SemanticLocal → Prop} {pre : World → Prop}
    (hbody : Triple pre program (fun _ => Describes ctx u) (fun _ => DescribesTypes ctx t))
    (hopened : Adds opened s t) (hfresh : FreshNamed names s u) (hclosed : Closed s v)
    (hnarrowings : NoNewNarrowings u v) (hunseen : Unseen ctx names v) :
    Triple pre (program.atExit (World.leaveAll indices)) (fun _ => Describes ctx v)
      (fun _ => DescribesTypes ctx s) :=
  .atExit hbody
    (fun _ _ hw => ⟨hw.1.leaveBlock hfresh hclosed hnarrowings hunseen, usesAreTyped_leaveAll hw.2⟩)
    (fun _ _ _ hw => by
      have htypes := hw.of_adds hopened
      exact ⟨htypes.1, usesAreTyped_leaveAll htypes.2⟩)
    fun _ hw => hw.of_adds hopened

/-! ## Declarations -/

theorem agrees_declareLocal (h : Agrees ctx s store) (hunclaimed : s.Unclaimed ctx name)
    (hv : HasType ctx.model value typeName) (isMutable resourceScoped : Bool) :
    Agrees ctx (s.declareLocal name typeName isMutable resourceScoped)
      (update store (.declared s.locals.length) value) := by
  have hold : ∀ i, i < s.locals.length →
      update store (.declared s.locals.length) value (.declared i) = store (.declared i) := by
    intro i hlt
    refine update_of_ne (fun heq => ?_) ..
    cases heq
    omega
  refine ⟨⟨?_, ?_⟩, ?_⟩
  · intro parameter found hfound
    exact h.parameters parameter found hfound
  · intro i e hget hactive
    rcases Nat.lt_or_ge i s.locals.length with hlt | hge
    · rw [hold i hlt]
      refine h.locals i e ?_ hactive
      exact (getElem?_append_left hlt).symm.trans hget
    · have hnew : [({ name, typeName, isMutable, depth := s.scopeDepth, resourceScoped } :
          SemanticLocal)][i - s.locals.length]? = some e :=
        (getElem?_append_right hge).symm.trans hget
      obtain ⟨hlt, rfl⟩ := List.getElem_of_getElem? hnew
      obtain rfl : i = s.locals.length := by
        simp only [length_singleton] at hlt
        omega
      simpa using hv
  · intro e he sym hsym
    have hname : e.identity ∉ [name] := by simpa using hunclaimed.2 e he
    rw [(freshNamed_declareLocal name typeName isMutable resourceScoped s).findVariable hname]
      at hsym
    have hsame : update store (.declared s.locals.length) value sym = store sym := by
      cases sym with
      | parameter => exact update_of_ne (by simp) ..
      | declared i =>
        obtain ⟨found, hget, -⟩ := findVariable_declared hsym
        exact hold i (List.getElem_of_getElem? hget).1
    rw [hsame]
    exact h.narrowings e he sym hsym

theorem declareVariable_sound
    (hunclaimed : s.Unclaimed ctx name) (hv : HasType ctx.model value typeName)
    (isMutable resourceScoped byUsing : Bool) :
    Triple (Describes ctx s) (declareVariable s.locals.length typeName byUsing value)
      (fun _ => Describes ctx (s.declareLocal name typeName isMutable resourceScoped)) jumps :=
  .update fun _ hw => ⟨agrees_declareLocal hw.1 hunclaimed hv isMutable resourceScoped,
    usesAreTyped_cons (by simp) hw.2⟩

theorem declarePayload_sound : (names : List String) → (types : List SemanticType) →
    (s : BodyBinder) → (∀ name ∈ names, s.Unclaimed ctx name) →
    Triple (Describes ctx s) (declareAny ctx.model (declarePayload names types s).1)
      (fun _ => Describes ctx (declarePayload names types s).2) (fun _ => DescribesTypes ctx s)
  | [], _, _, _ => .pure fun _ hw => hw
  | name :: names, types, s, h => by
    have hfirst : s.Unclaimed ctx name := h name (by simp)
    have hrest := declarePayload_sound names types.tail
      (s.declareLocal name (types.headD .error) false false)
      fun other hother => h other (by simp [hother])
    refine .bind (triple_anyValue.weakenJumps fun _ _ hw => hw.types)
      fun value => .of_fact fun hv =>
        .bind (declareVariable_sound hfirst hv false false false) fun _ => ?_
    exact hrest.weakenJumps fun _ _ hw =>
      hw.of_adds (freshNamed_declareLocal ..)

/-! ## Statements without blocks -/

/-- Where statements are bound: the state is well formed and no local hides a parameter. -/
structure Place (context : BodyContext) (s : BodyBinder) : Prop where
  wellFormed : WellFormed s
  shadow : NoShadow context s

theorem Place.ready (h : Place ctx s) (hagrees : Agrees ctx s store) :
    Ready ctx s store := ⟨h.wellFormed.flow, h.shadow, hagrees⟩

theorem Place.keeps (h : Place ctx s) (hkeeps : Keeps s s') : Place ctx s' :=
  ⟨hkeeps.wellFormed h.wellFormed, h.shadow.closed hkeeps.closed⟩

/-- A statement that is bound in `s` and leads to `s'`. -/
def StatementSound (context : BodyContext) (s s' : BodyBinder) (program : Prog World Unit) : Prop :=
  Triple (Describes context s) program (fun _ => Describes context s')
    (fun _ => DescribesTypes context s)

abbrev BlockSound (context : BodyContext) (s : BodyBinder) (body : Statements) : Prop :=
  StatementSound context s (bindStatements context body s).2
    ((bindStatements context body s).1.run context.model)

abbrev BoundSound (context : BodyContext) (s : BodyBinder) (statement : Statement) : Prop :=
  StatementSound context s (bindStatement context statement s).2
    ((bindStatement context statement s).1.run context.model)

/-- A block is sound where nothing is reported about it. -/
abbrev BodySound (context : BodyContext) (s : BodyBinder) (body : Statements) : Prop :=
  Place context s → (bindStatements context body s).2.diagnostics = [] → BlockSound context s body

/-- A statement that starts with an expression. -/
theorem Place.evaluates {next : Value → Prog World Unit}
    (hs : Place ctx s) (hacc : (bindExpression ctx expr s).2.diagnostics = [])
    (hnext : ∀ store, Agrees ctx s store → ∀ res, ValueFacts ctx s store expr
        (bindExpression ctx expr s).1.typeName res →
      Triple (Quiet ctx store) (next res) (fun _ => Describes ctx s')
        (fun _ => DescribesTypes ctx s)) : StatementSound ctx s s'
      ((bindExpression ctx expr s).1.boundNode.eval ctx.model >>= next) :=
  triple_describes fun store hagrees =>
    (bindExpression_sound ctx store expr s (hs.ready hagrees) hacc).andThen
      (fun _ _ hw => (hagrees.describes hw).types) (hnext store hagrees)

theorem initializer_accepted {isMutable : Bool} {valueType : SemanticType}
    (h : (checkInitializer ctx isMutable name ety valueType s).diagnostics = []) :
    s.diagnostics = [] ∧ ∀ value, HasType ctx.model value valueType →
      HasType ctx.model value (variableType ety valueType) := by
  refine ⟨reports_checkInitializer.keeps.accepted h, fun value hv => ?_⟩
  unfold checkInitializer at h
  unfold variableType
  split at h
  · split at h
    · rename_i hassignable
      exact hv.assign hassignable
    · split at h
      · exact absurd h report_not_accepted
      · exact absurd h report_not_accepted
  · obtain ⟨hnull, -, -⟩ := reportIf_accepted h
    have hne : valueType ≠ .null := by simpa using hnull
    simpa [hne] using hv

theorem declaration_sound (hs : Place ctx s) {isMutable : Bool} {initializer : Expression}
    (hunclaimed : s.Unclaimed ctx name) (hacc :
      (bindVariable ctx isMutable name ety initializer s).2.diagnostics = []) :
    BoundSound ctx s (.declaration isMutable name ety initializer) := by
  have hv := bindExpression_keeps ctx initializer s hs.wellFormed.flow
  obtain ⟨-, h₁, -⟩ := reportIf_accepted hacc
  obtain ⟨-, h₂, -⟩ := reportIf_accepted h₁
  obtain ⟨-, h₃, -⟩ := reportIf_accepted h₂
  obtain ⟨haccepted', htype⟩ := initializer_accepted h₃
  have hsame := reports_checkVariable.eq_of_accepted hacc
  refine hs.evaluates haccepted' fun store hagrees res hres => ?_
  have hunclaimed' : ((bindExpression ctx initializer s).2).Unclaimed ctx name := by
    refine ⟨hunclaimed.1, fun e he => hunclaimed.2 e ?_⟩
    exact hv.noNewNarrowings e he
  show Triple _ _ (fun _ => Describes ctx ((checkVariable ..).declareLocal ..)) _
  rw [hsame]
  exact (declareVariable_sound hunclaimed' (htype res hres.typed) isMutable false
    false).strengthenPre fun _ hw => (hagrees.keeps hv).describes hw

theorem assignment_accepted {valueType : SemanticType}
    (h : (checkAssignment ctx name e valueType s).diagnostics = []) :
    s.diagnostics = [] ∧ semanticAssignable ctx.model e.typeName valueType = true := by
  refine ⟨reports_checkAssignment.keeps.accepted h, ?_⟩
  unfold checkAssignment at h
  split at h
  · exact absurd h report_not_accepted
  · split at h
    · assumption
    · split at h
      · exact absurd h report_not_accepted
      · exact absurd h report_not_accepted

theorem agrees_assign {i : Nat} (h : Agrees ctx s store) (hfound : s.findLocal name = some (i, e))
    (hv : HasType ctx.model value e.typeName) :
    Agrees ctx { s with flow := s.flow.invalidateNarrowing name }
      (update store (.declared i) value) := by
  obtain ⟨hget, -, hname⟩ := findLocal_spec hfound
  refine ⟨⟨?_, ?_⟩, ?_⟩
  · intro parameter found hparameter
    exact h.parameters parameter found hparameter
  · intro other found hother hactive
    by_cases heq : other = i
    · subst heq
      obtain rfl : e = found := Option.some.inj (hget.symm.trans hother)
      simpa using hv
    · rw [update_of_ne (by simpa using heq)]
      exact h.locals other found hother hactive
  · intro narrowing hmem sym hsym
    obtain ⟨hmem', hne⟩ := mem_filter.mp hmem
    have hsymbol' : sym ≠ .declared i := by
      rintro rfl
      obtain ⟨found, hgetFound, -, hfoundName⟩ := findVariable_declared hsym
      obtain rfl : e = found := Option.some.inj (hget.symm.trans hgetFound)
      exact bne_iff_ne.mp hne (hfoundName.symm.trans hname)
    rw [update_of_ne hsymbol']
    exact h.narrowings narrowing hmem' sym hsym

theorem assignment_sound (hs : Place ctx s)
    (hacc : (bindAssignment ctx name valueNode s).2.diagnostics = []) :
    BoundSound ctx s (.assignment name valueNode) := by
  have hv := bindExpression_keeps ctx valueNode s hs.wellFormed.flow
  unfold BoundSound bindStatement
  unfold bindAssignment at hacc ⊢
  dsimp only at hacc ⊢
  split at hacc
  · split at hacc
    · exact absurd hacc report_not_accepted
    · exact absurd hacc report_not_accepted
  · rename_i i e hfound
    obtain ⟨h₁, hassignable⟩ := assignment_accepted hacc
    obtain ⟨-, haccepted', hsame⟩ := reportIf_accepted h₁
    have hsame' := reports_checkAssignment.eq_of_accepted hacc
    rw [hsame', hsame]
    refine hs.evaluates haccepted' fun store hagrees res hres => .update fun w hw => ?_
    have hfound' := (findLocal_congr hv.locals).trans hfound
    have hdescribes := (hagrees.keeps hv).describes hw
    exact ⟨agrees_assign hdescribes.1 hfound' (hres.typed.assign hassignable), hdescribes.2⟩

theorem expressionStatement_sound (hs : Place ctx s)
    (hacc : (bindExpressionStatement ctx valueNode s).2.diagnostics = []) :
    BoundSound ctx s (.expression valueNode) := by
  have hv := bindExpression_keeps ctx valueNode s hs.wellFormed.flow
  obtain ⟨-, haccepted', hsame⟩ := reportIf_accepted hacc
  refine hs.evaluates haccepted' fun store hagrees res _ => .pure fun w hw => ?_
  exact ((hagrees.keeps hv).keeps reports_reportIf.keeps).describes hw

theorem return_sound (hs : Place ctx s) (hacc : (bindReturn ctx valueNode s).2.diagnostics = []) :
    StatementSound ctx s s' ((bindReturn ctx valueNode s).1.run ctx.model) := by
  have hchecked := reports_checkReturn.keeps.accepted hacc
  have hv := reports_validateOwnedLocals.keeps.accepted hchecked
  refine triple_describes fun store hagrees => ?_
  have hready : Ready ctx s.enterReturn store :=
    ⟨hs.wellFormed.flow, hs.shadow, ⟨hagrees.parameters, hagrees.locals⟩, hagrees.narrowings⟩
  have hsound := transferable_sound hready.agrees
    (bindExpression_sound ctx store valueNode s.enterReturn hready) hv
  exact hsound.andThen (fun _ _ hw => (hagrees.describes hw).types) fun _ _ =>
    .jump fun _ hw => (hagrees.describes hw).types

/-! ## Places inside statements -/

theorem declaredName_unclaimed {statement : Statement}
    (h : statement.Always ctx (KeepsNarrowings ctx) s) :
    ∀ name ∈ statement.declaredName, s.Unclaimed ctx name := by
  intro name hname
  cases statement with
  | declaration _ declared _ _ =>
    obtain rfl := mem_singleton.mp hname
    exact h
  | _ => cases hname

theorem Place.leads (h : Place ctx s) (hleads : Leads names names' s s')
    (hnames : ∀ name ∈ names, s.Unclaimed ctx name) : Place ctx s' :=
  ⟨hleads.wellFormed h.wellFormed,
    hleads.fresh.noShadow h.shadow fun name hname => (hnames name hname).1⟩

theorem Place.next (h : Place ctx s) {statement : Statement}
    (halways : statement.Always ctx (KeepsNarrowings ctx) s) :
    Place ctx (bindStatement ctx statement s).2 :=
  h.leads (bindStatement_leads ctx statement s h.wellFormed) (declaredName_unclaimed halways)

theorem Place.enterScope (h : Place ctx s) : Place ctx s.enterScope :=
  ⟨h.wellFormed.enterScope, h.shadow⟩

variable {head : BodyBinder}

theorem Opens.unclaimed (h : Opens names s head t)
    (hunclaimed : ∀ name ∈ names, s.Unclaimed ctx name) :
    ∀ name ∈ names, head.enterScope.Unclaimed ctx name :=
  fun name hname => ⟨(hunclaimed name hname).1, fun e he =>
    (hunclaimed name hname).2 e (h.keeps.noNewNarrowings e he)⟩

theorem Opens.place (h : Opens names s head t) (hs : Place ctx s)
    (hunclaimed : ∀ name ∈ names, s.Unclaimed ctx name) : Place ctx t :=
  (hs.keeps h.keeps).enterScope.leads h.leads (h.unclaimed hunclaimed)

theorem Place.forHead (hs : Place ctx s) (name : String) (ety : Option SemanticType)
    (coll : Expression) : Place ctx (s.forElement ctx name ety coll).2.enterLoop :=
  have hhead := hs.keeps (keeps_forElement ctx name ety coll s hs.wellFormed.flow)
  ⟨hhead.wellFormed.enterLoop, hhead.shadow⟩

theorem unclaimed_forHead {coll : Expression} (hs : Place ctx s)
    (h : s.Unclaimed ctx name) : ∀ other ∈ [name],
      (s.forElement ctx name ety coll).2.enterLoop.Unclaimed ctx other := by
  intro other hother
  obtain rfl := mem_singleton.mp hother
  exact ⟨h.1, fun e he => h.2 e ((keeps_forElement ctx other ety coll s
    hs.wellFormed.flow).noNewNarrowings e he)⟩

theorem Place.narrowed (h : Place ctx s) (cond : Expression) (whenTrue : Bool) :
    Place ctx (s.narrowed ctx cond whenTrue).enterScope :=
  ⟨(h.wellFormed.enterFlow.narrowed ctx cond whenTrue).enterScope,
    h.shadow.closed (closed_of_locals (locals_narrowed ctx cond whenTrue s))⟩

/-- A narrowing that statements cannot have made was there before them. -/
theorem Leads.narrowing_before {e : FlowNarrowing} (h : Leads names names' s s')
    (he : e ∈ s'.flow.narrowings) (hkept : ¬(e.depth = s.flow.depth ∧ e.identity ∈ names')) :
    e ∈ s.flow.narrowings := by
  rcases h.narrowings e he with hmem | hdepth
  · exact hmem
  · rcases h.narrowsOnly e he with hmem | hname
    · exact hmem
    · exact absurd ⟨hdepth, hname⟩ hkept

/-- A narrowing that is left at the end of a block, but not made in it, is of a name that the block
does not declare: where the name is declared it is unclaimed. -/
theorem declared_not_kept (ctx : BodyContext) {e : FlowNarrowing} : (body : Statements) →
    (s : BodyBinder) → WellFormed s → body.Always ctx (KeepsNarrowings ctx) s →
    e ∈ (bindStatements ctx body s).2.flow.narrowings →
    ¬(e.depth = s.flow.depth ∧ e.identity ∈ body.narrows s.loopDepth) → e.identity ∉ body.declared
  | .nil, _, _, _, _, _ => not_mem_nil
  | .cons first rest, s, hs, halways, he, hkept => by
    have hfirst := bindStatement_leads ctx first s hs
    have hmiddle := hfirst.wellFormed hs
    have hkeptRest : ¬(e.depth = (bindStatement ctx first s).2.flow.depth ∧
        e.identity ∈ rest.narrows (bindStatement ctx first s).2.loopDepth) := by
      rw [hfirst.depth, hfirst.loopDepth]
      exact fun hmade => hkept ⟨hmade.1, mem_append_right _ hmade.2⟩
    have hbetween := (bindStatements_leads ctx rest _ hmiddle).narrowing_before he hkeptRest
    have hpre := hfirst.narrowing_before hbetween
      fun hmade => hkept ⟨hmade.1, mem_append_left _ hmade.2⟩
    rw [declared_cons, mem_append, not_or]
    refine ⟨fun hmem => ?_, declared_not_kept ctx rest _ hmiddle halways.2 he hkeptRest⟩
    exact (declaredName_unclaimed halways.1 _ hmem).2 e hpre rfl

variable {body : Statements}

/-- What a block without a flow leaves narrowed, from its start in `t` to `v` behind it. -/
theorem unseen_leaveBlock {opened : List String} (ht : WellFormed t)
    (halways : body.Always ctx (KeepsNarrowings ctx) t)
    (hopened : ∀ name ∈ opened, ∀ e ∈ t.flow.narrowings, e.identity ≠ name)
    (hclosed : Closed s v) (hnarrowings : NoNewNarrowings (bindStatements ctx body t).2 v)
    (hleft : ∀ name ∈ body.narrows t.loopDepth, name ∈ opened ++ body.declared →
      s.findVariable ctx name = none) : Unseen ctx (opened ++ body.declared) v := by
  intro e he hmem
  have hinside := hnarrowings e he
  rw [hclosed.findVariable]
  by_cases hmade : e.identity ∈ body.narrows t.loopDepth
  · exact hleft _ hmade hmem
  · have hkept : ¬(e.depth = t.flow.depth ∧ e.identity ∈ body.narrows t.loopDepth) :=
      fun h => hmade h.2
    rcases mem_append.mp hmem with hname | hname
    · have hpre := (bindStatements_leads ctx body t ht).narrowing_before hinside hkept
      exact absurd rfl (hopened _ hname e hpre)
    · exact absurd hname (declared_not_kept ctx body t ht halways hinside hkept)

/-! ## Blocks -/

/-- The run of a block to its end, or to a jump out of it. -/
abbrev ArmSound (context : BodyContext) (store : Variable → Value) (start head : BodyBinder)
    (body : Statements) (indices : List Nat) (post : World → Prop) : Prop :=
  Triple (Quiet context store) (((bindStatements context body start).1.run
    context.model).atExit (World.leaveAll indices)) (fun _ => post)
    (fun _ => DescribesTypes context head)

variable {cond : Expression}

theorem flowBlock_sound {whenTrue : Bool}
    (indices : List Nat) (hs : Place ctx s) (hagrees : Agrees ctx s store)
    (hproven : ProvenAt ctx s store (provenNames cond whenTrue))
    (halways : body.Always ctx (KeepsNarrowings ctx)
      (s.narrowed ctx cond whenTrue).enterScope) (hbody : BlockSound ctx
      (s.narrowed ctx cond whenTrue).enterScope body) :
    ArmSound ctx store (s.narrowed ctx cond whenTrue).enterScope s body indices
      (Describes ctx ((bindStatements ctx body
        (s.narrowed ctx cond whenTrue).enterScope).2.leaveScope ctx).leaveFlow) := by
  have hinside := hs.narrowed cond whenTrue
  have hnarrows := narrows_applyConditionNarrowing ctx cond whenTrue s.enterFlow
  have hready := (hs.ready hagrees).narrowed cond whenTrue hproven
  have hleads := bindStatements_leads ctx body _ hinside.wellFormed
  have hleft := flowBlock hs.wellFormed hleads
  have hopened : Closed s (s.narrowed ctx cond whenTrue).enterScope :=
    closed_of_locals (locals_narrowed ctx cond whenTrue s)
  refine (block_sound hbody hopened ((hopened.freshNamed []).trans hleads.fresh)
    hleft.closed ?_ ?_).strengthenPre ?_
  · exact fun e he => mem_of_mem_filter he
  · intro e he hmem
    have hold := hs.wellFormed.flow e (hleft.noNewNarrowings e he)
    have hdepth : (s.narrowed ctx cond whenTrue).flow.depth = s.flow.depth + 1 := hnarrows.depth
    refine absurd hmem (declared_not_kept ctx body _ hinside.wellFormed halways
      (mem_of_mem_filter he) fun hmade => ?_)
    have hsame : e.depth = (s.narrowed ctx cond whenTrue).flow.depth := hmade.1
    omega
  · intro w hw
    have hstart : Agrees ctx
        (s.narrowed ctx cond whenTrue).enterScope store :=
      ⟨⟨hready.agrees.parameters, hready.agrees.locals⟩, hready.agrees.narrowings⟩
    exact hstart.describes hw

theorem Leads.noFalse (hleads : Leads [] names s s') (h : s.Undenoted ctx names) :
    NoFalseNarrowings ctx s s' := by
  intro e he
  rcases hleads.narrowsOnly e he with hold | hname
  · exact .inl hold
  · exact .inr ((hleads.closed.findVariable _).trans (h _ hname))

theorem scopeBlock_sound (indices : List Nat)
    (hs : Place ctx s) (hbody : StatementSound ctx s.enterScope u program)
    (hleads : Leads names names' s.enterScope u) (hunseen : Unseen ctx names (u.leaveScope ctx)) :
    StatementSound ctx s (u.leaveScope ctx) (program.atExit (World.leaveAll indices)) := by
  have hopened : Closed s s.enterScope := closed_of_locals rfl
  refine (block_sound hbody hopened ((hopened.freshNamed []).trans hleads.fresh)
    (hleads.leaveScope ctx hs.wellFormed).closed (fun _ he => he) hunseen).strengthenPre ?_
  exact fun w hw => ⟨⟨⟨hw.1.parameters, hw.1.locals⟩, hw.1.narrowings⟩, hw.2⟩

theorem opened_sound (types : List SemanticType) (hunclaimed : ∀ name ∈ names, s.Unclaimed ctx name)
    (hfresh : FreshNamed names s (declarePayload names types s).2)
    (hbody : StatementSound ctx (declarePayload names types s).2 u program) :
    StatementSound ctx s u (do
      declareAny ctx.model (declarePayload names types s).1
      program) :=
  .bind (declarePayload_sound names types s hunclaimed) fun _ =>
    hbody.weakenJumps fun _ _ hw => hw.of_adds hfresh

section Opened

variable {head : BodyBinder} {body : Statements}

/-- A block that declares names, from what it does in its scope. -/
theorem Opens.sound (h : Opens names s head t) (hs : Place ctx s)
    (hunclaimed : ∀ name ∈ names, s.Unclaimed ctx name)
    (hleft : ∀ name ∈ body.narrows s.loopDepth, name ∈ names ++ body.declared →
      s.findVariable ctx name = none) (halways : body.Always ctx (KeepsNarrowings ctx) t)
    (hprogram : StatementSound ctx head.enterScope (bindStatements ctx body t).2 program)
    (indices : List Nat) : StatementSound ctx s ((bindStatements ctx body t).2.leaveScope ctx)
      (program.atExit (World.leaveAll indices)) := by
  have ht := h.wellFormed hs.wellFormed
  have hunseen := unseen_leaveBlock ht halways
    (fun name hname e he => (h.unclaimed hunclaimed name hname).2 e (h.flow ▸ he))
    (h.ends hs.wellFormed ctx body).closed (fun _ he => he)
    fun name hname => hleft name (h.loopDepth ▸ hname)
  have hblock := scopeBlock_sound indices (hs.keeps h.keeps) hprogram
    (h.leads.trans (bindStatements_leads ctx body t ht)) hunseen
  exact hblock.weaken (fun _ hw => ⟨hw.1.keeps h.keeps, hw.2⟩) (fun _ _ hw => hw)
    fun _ _ hw => hw.of_adds h.keeps.closed

theorem Opens.block (h : Opens names s head t) (hs : Place ctx s)
    (hunclaimed : ∀ name ∈ names, s.Unclaimed ctx name)
    (hacc : ((bindStatements ctx body t).2.leaveScope ctx).diagnostics = [])
    (hbody : BodySound ctx t body) : head.diagnostics = [] ∧ BlockSound ctx t body :=
  (h.accepted hs.wellFormed ctx body hacc).imp_right (hbody (h.place hs hunclaimed))

/-- What is narrowed behind a block whose body narrows nothing that stands for a variable. -/
theorem Opens.noFalse (h : Opens names s head t) (hs : WellFormed s)
    (hleft : s.Undenoted ctx (body.narrows s.loopDepth)) :
    NoFalseNarrowings ctx s ((bindStatements ctx body t).2.leaveScope ctx) :=
  (h.ends hs ctx body).noFalse hleft

end Opened

/-! ## Branches -/

theorem agrees_joinBranches {thenTerminates elseTerminates : Bool}
    {thenMoves elseMoves : List ResourceMoveState} (h : Agrees ctx s store)
    (hshadow : NoShadow ctx s) (hfails : thenTerminates = true → elseTerminates = false →
      ProvenAt ctx s store (provenNames cond false))
    (hholds : thenTerminates = false → elseTerminates = true →
      ProvenAt ctx s store (provenNames cond true)) :
    Agrees ctx (joinBranches ctx cond thenTerminates elseTerminates thenMoves elseMoves
      s) store := by
  have hmoves : ∀ moves, Agrees ctx { s with moves := moves } store := fun _ =>
    ⟨⟨h.parameters, h.locals⟩, h.narrowings⟩
  unfold joinBranches
  split
  · exact agrees_narrowed cond false _ (hmoves _) hshadow (hfails rfl rfl)
  · exact agrees_narrowed cond true _ (hmoves _) hshadow (hholds rfl rfl)
  · exact hmoves _
  · exact hmoves _

/-- What a condition has shown of names that are not assigned to is still true. -/
theorem ProvenAt.framed {assigned : List String}
    (h : ProvenAt ctx s store names) (hnames : ∀ name ∈ names, name ∉ assigned)
    (hsame : Same (Unassigned ctx s assigned) store w) (hclosed : Closed s s') :
    ProvenAt ctx s' w.store names := by
  refine ProvenAt.closed (fun name hname sym hsym => ?_) hclosed
  rw [hsame sym ⟨name, hnames name hname, hsym⟩]
  exact h name hname sym hsym

theorem Quiet.same {kept : Variable → Prop} (h : Quiet ctx store w) :
    Same kept store w := fun sym _ => congrFun h.1 sym

section Branch

variable {cond : Expression} {thenBody elseBody : Statements}

/-- The state after an `if`, in a run that has taken one of the branches to its end. -/
theorem Branches.describes (h : Branches ctx cond thenBody elseBody s) (hs : Place ctx s)
    (hw : Describes ctx (s.elseEnd ctx cond thenBody elseBody) w)
    (hfails : thenBody.someTerminates s.loopDepth = true →
      elseBody.someTerminates s.loopDepth = false →
      ProvenAt ctx (s.elseEnd ctx cond thenBody elseBody) w.store
        (provenNames cond false)) (hholds : thenBody.someTerminates s.loopDepth = false →
      elseBody.someTerminates s.loopDepth = true →
      ProvenAt ctx (s.elseEnd ctx cond thenBody elseBody) w.store (provenNames cond true)) :
    Describes ctx (bindStatement ctx (.branch cond thenBody elseBody) s).2 w := by
  have hdepth : (s.elseEnd ctx cond thenBody elseBody).loopDepth = s.loopDepth :=
    h.elseEnd.loopDepth.trans h.thenEnd.loopDepth
  rw [← hdepth] at hfails hholds
  exact ⟨agrees_joinBranches hw.1 (hs.shadow.closed (h.thenEnd.closed.trans h.elseEnd.closed)) hfails hholds,
    hw.2⟩

/-- A branch whose end describes the run, unless it terminates. -/
theorem arm_sound {start final : BodyBinder} {post : World → Prop}
    (harm : ArmSound ctx store start head body indices (Describes ctx final))
    (hhead : Closed s head) (hclosed : Closed s start) (hstart : WellFormed start)
    (hpost : ¬body.someTerminates s.loopDepth = true → ∀ w, Describes ctx final w →
      Same (Unassigned ctx s body.assigned) store w → post w) :
    ArmSound ctx store start s body indices post := by
  have hjumps : ∀ w, DescribesTypes ctx head w → DescribesTypes ctx s w :=
    fun _ hw => hw.of_adds hhead
  by_cases hterminates : body.someTerminates s.loopDepth = true
  · exact (someTerminates_noValue ctx s.loopDepth body _ hterminates).atExit.triple
      (harm.weakenJumps fun _ => hjumps)
  · have hframe := (bindStatements_frame ctx store body hclosed hstart).atExit
      (same_leaveAll indices)
    exact (harm.both hframe).weaken (fun _ hw => ⟨hw, hw.same⟩)
      (fun _ w hw => hpost hterminates w hw.1 hw.2) fun _ w hw => hjumps w hw.1

theorem Branches.then_sound (h : Branches ctx cond thenBody elseBody s) (hs : Place ctx s)
    (hkeeps : KeepsNarrowings ctx (.branch cond thenBody elseBody) s)
    (halways : thenBody.Always ctx (KeepsNarrowings ctx) (s.thenStart ctx cond))
    (hbody : BlockSound ctx (s.thenStart ctx cond) thenBody) (hagrees : Agrees ctx s store)
    (hproven : ProvenAt ctx s store (provenNames cond true)) :
    ArmSound ctx store (s.thenStart ctx cond) s thenBody indices
      (Describes ctx (bindStatement ctx (.branch cond thenBody elseBody) s).2) := by
  have harm := flowBlock_sound indices (hs.keeps h.head) (hagrees.keeps h.head) (hproven.closed h.head.closed)
    halways hbody
  refine arm_sound harm h.head.closed h.closed_thenStart h.thenStart fun hterminates w hw hsame => ?_
  refine h.describes hs ⟨hw.1.closed h.elseEnd.closed h.elseEnd.noNewNarrowings.noFalse, hw.2⟩
    (fun hthen => absurd hthen hterminates) fun hgoes helse => ?_
  exact hproven.framed (hkeeps.2 hgoes helse) hsame (h.thenEnd.closed.trans h.elseEnd.closed)

theorem Branches.else_sound (h : Branches ctx cond thenBody elseBody s) (hs : Place ctx s)
    (hkeeps : KeepsNarrowings ctx (.branch cond thenBody elseBody) s)
    (halways : elseBody.Always ctx (KeepsNarrowings ctx) (s.elseStart ctx cond thenBody))
    (hbody : BlockSound ctx (s.elseStart ctx cond thenBody) elseBody) (hagrees : Agrees ctx s store)
    (hproven : ProvenAt ctx s store (provenNames cond false)) :
    ArmSound ctx store (s.elseStart ctx cond thenBody) s elseBody indices
      (Describes ctx (bindStatement ctx (.branch cond thenBody elseBody) s).2) := by
  have hrestored : Keeps (s.thenEnd ctx cond thenBody)
      { s.thenEnd ctx cond thenBody with
        moves := restoreMoves (bindCondition ctx "NR145" "If" cond s).2.moves
          (s.thenEnd ctx cond thenBody).moves } :=
    keeps_moves (length_moves_thenEnd hs.wellFormed h.thenEnd)
  have hbetween : Place ctx (s.thenEnd ctx cond thenBody) :=
    ⟨h.thenEnd.wellFormed hs.wellFormed, hs.shadow.closed h.thenEnd.closed⟩
  have harm := flowBlock_sound indices (hbetween.keeps hrestored)
    ((hagrees.closed h.thenEnd.closed h.thenEnd.noNewNarrowings.noFalse).keeps hrestored)
    (hproven.closed (h.thenEnd.closed.trans hrestored.closed)) halways hbody
  refine arm_sound harm (h.thenEnd.closed.trans hrestored.closed) h.closed_elseStart h.elseStart
    fun hterminates w hw hsame => ?_
  refine h.describes hs hw (fun hthen hgoes => ?_) fun _ helse => absurd helse hterminates
  exact hproven.framed (hkeeps.1 hthen hgoes) hsame (h.thenEnd.closed.trans h.elseEnd.closed)

end Branch

/-! ## Loops -/

/-- A step of a loop that does not assign to what is narrowed before it: a block that starts in `t`
and leads to `u`. -/
theorem loopBlock_sound {assigned : List String} (hagrees : Agrees ctx s store)
    (hnot : s.NotNarrowed assigned)
    (hblock : Triple (Quiet ctx store) program (fun _ => Describes ctx u)
      (fun _ => DescribesTypes ctx t)) (hpre : Closed s t) (hafter : Closed s u)
    (hframe : Preserves (Same (Unassigned ctx s assigned) store) program) :
    Triple (Quiet ctx store) program (fun _ => Describes ctx s) (fun _ => Describes ctx s) := by
  have hagain : ∀ w, DescribesTypes ctx s w ∧ Same (Unassigned ctx s assigned) store w →
      Describes ctx s w := by
    rintro w ⟨htyped, hsame⟩
    refine ⟨⟨htyped.1, fun e he sym hsym => ?_⟩, htyped.2⟩
    rw [hsame sym ⟨e.identity, hnot e he, hsym⟩]
    exact hagrees.narrowings e he sym hsym
  exact (hblock.both hframe).weaken (fun _ hw => ⟨hw, hw.same⟩)
    (fun _ w hw => hagain w ⟨hw.1.types.of_adds hafter, hw.2⟩)
    fun _ w hw => hagain w ⟨hw.1.of_adds hpre, hw.2⟩

theorem while_sound (hs : Place ctx s)
    (hacc : (bindStatement ctx (.whileLoop cond body) s).2.diagnostics = [])
    (halways : (Statement.whileLoop cond body).Always ctx (KeepsNarrowings ctx) s)
    (hbody : BodySound ctx (s.whileStart ctx cond) body) :
    BoundSound ctx s (.whileLoop cond body) := by
  obtain ⟨hnot, halways⟩ := halways
  obtain ⟨hcond, hinside⟩ := while_accepted hs.wellFormed hacc
  have hhead := keeps_bindCondition ctx "NR146" "While" cond s hs.wellFormed.flow
  have hplace : Place ctx (bindCondition ctx "NR146" "While" cond s).2.enterLoop :=
    ⟨(hs.keeps hhead).wellFormed.enterLoop, (hs.keeps hhead).shadow⟩
  have hstart : WellFormed (s.whileStart ctx cond) := wellFormed_whileStart hs.wellFormed
  have hend := whileEnd_spec hs.wellFormed (bindStatements_leads ctx body _ hstart)
  refine (Preserves.loop (triple_describes fun store hagrees => ?_)).weaken (fun _ hw => hw)
    (fun _ w hw => ⟨hw.1.closed hend.closed hend.noNewNarrowings.noFalse, hw.2⟩) fun _ _ hw => hw.types
  refine (bindExpression_sound ctx store cond s (hs.ready hagrees) hcond).andThen
    (fun _ _ hw => hagrees.describes hw) fun res hres => .ite (fun hholds => ?_) fun _ => ?_
  · have hproven := (hres.proves true (by simp [hholds])).closed hhead.closed
    have hagrees' := hagrees.keeps hhead
    have hblock := flowBlock_sound
      (bindStatements ctx body (s.whileStart ctx cond)).1.declares hplace ⟨⟨hagrees'.parameters, hagrees'.locals⟩,
      hagrees'.narrowings⟩ hproven halways (hbody (hplace.narrowed cond true) hinside)
    exact .bind (loopBlock_sound hagrees hnot hblock hhead.closed hend.closed
      ((bindStatements_frame ctx store body (closed_whileStart hs.wellFormed) hstart).atExit (same_leaveAll _)))
      fun _ => .pure fun _ hw => hw
  · exact .pure fun _ hw => hagrees.describes hw

theorem for_sound {coll : Expression} (hs : Place ctx s) (hacc :
      (bindStatement ctx (.forLoop name ety coll body) s).2.diagnostics = [])
    (halways : (Statement.forLoop name ety coll body).Always ctx (KeepsNarrowings ctx) s)
    (hbody : BodySound ctx (s.forStart ctx name ety coll) body) :
    BoundSound ctx s (.forLoop name ety coll body) := by
  obtain ⟨⟨hunclaimed, hnot, hleft⟩, halways⟩ := halways
  have hhead := keeps_forElement ctx name ety coll s hs.wellFormed.flow
  have hplace := hs.forHead name ety coll
  have hopens := opens_for ctx name ety coll hs.wellFormed
  have hstart : WellFormed (s.forStart ctx name ety coll) :=
    hopens.wellFormed hplace.wellFormed
  have hend := forEnd_spec hs.wellFormed (bindStatements_leads ctx body _ hstart)
  have hunclaimed' := @unclaimed_forHead _ _ _ ety coll hs hunclaimed
  obtain ⟨helement, hinside⟩ := hopens.block hplace hunclaimed' hacc hbody
  have hpre : Closed s (s.forElement ctx name ety coll).2.enterLoop :=
    hhead.closed
  have hdepth : (s.forElement ctx name ety coll).2.enterLoop.loopDepth =
      s.loopDepth + 1 := congrArg (· + 1) hhead.loopDepth
  have hblock := hopens.sound hplace hunclaimed'
    (fun other hother _ => (hpre.findVariable other).trans (hleft other (hdepth ▸ hother))) halways
    (opened_sound [(s.forElement ctx name ety coll).1]
      (hopens.unclaimed hunclaimed') hopens.leads.fresh hinside)
    ((s.forElement ctx name ety coll).2.locals.length ::
      (bindStatements ctx body (s.forStart ctx name ety coll)).1.declares)
  refine hs.evaluates (reports_bindElementType.keeps.accepted helement) fun store hagrees _ _ => ?_
  refine (Preserves.loop (triple_describes fun store' hagrees' => ?_)).weaken
    (fun _ hw => hagrees.describes hw) (fun _ w hw => ⟨hw.1.closed hend.closed (hend.noFalse hleft), hw.2⟩)
    fun _ _ hw => hw.types
  refine .bind (.choose fun _ _ hw _ => hw) fun more => .ite (fun _ => ?_) fun _ =>
    .pure fun _ hw => hagrees'.describes hw
  refine .bind (loopBlock_sound hagrees' hnot (hblock.strengthenPre fun w hw => ?_) hpre hend.closed
    (.atExit (.bind (declarePayload_frame [name] [(s.forElement ctx name ety coll).1]
      hhead.length_le)
      fun _ => bindStatements_frame ctx store' body (Adds.trans hpre hopens.adds) hstart) (same_leaveAll _)))
    fun _ => .pure fun _ hw => hw
  have hhere := hagrees'.keeps hhead
  exact Agrees.describes ⟨⟨hhere.parameters, hhere.locals⟩, hhere.narrowings⟩ hw

/-! ## Borrows and acquisitions -/

theorem borrow_sound {owner : Expression} (hs : Place ctx s)
    (hacc : (bindStatement ctx (.borrowBlock name owner body) s).2.diagnostics = [])
    (halways : (Statement.borrowBlock name owner body).Always ctx (KeepsNarrowings ctx) s)
    (hbody : BodySound ctx (s.borrowStart ctx name owner) body) :
    BoundSound ctx s (.borrowBlock name owner body) := by
  obtain ⟨hkeeps, halways⟩ := halways
  have hopens := opens_borrow ctx name owner hs.wellFormed
  have hunclaimed : ∀ other ∈ [name], s.Unclaimed ctx other := by simpa using hkeeps.1
  obtain ⟨hhead, hinside⟩ := hopens.block hs hunclaimed hacc hbody
  have hblock := hopens.sound hs hunclaimed
    (fun other hother hmem => hkeeps.2 other (mem_filter.mpr ⟨hother, by simpa using hmem⟩))
    halways
    (opened_sound [(s.borrowPointer ctx owner).1] (hopens.unclaimed hunclaimed)
      hopens.leads.fresh hinside)
    ((s.borrowPointer ctx owner).2.locals.length ::
      (bindStatements ctx body (s.borrowStart ctx name owner)).1.declares)
  refine hs.evaluates (reports_bindPointerType.keeps.accepted hhead) fun store hagrees _ _ => ?_
  exact hblock.strengthenPre fun _ hw => hagrees.describes hw

/-- An acquisition does what the expression does, and passes resources on. -/
theorem acquire_eval (expr : BoundExpression) {w' : World} {exit : Exit Value}
    (h : expr.acquire model w exit w') : ∃ w₁, expr.eval model w exit w₁ ∧ w'.store = w₁.store ∧
      (UsesAreTyped model w₁.trace → UsesAreTyped model w'.trace) := by
  fun_induction BoundExpression.acquire model expr generalizing w with
  | case1 i typeName =>
    rcases h with ⟨value, middle, hread, hrest⟩ | ⟨kind, hread, rfl⟩
    · rcases hrest with ⟨_, _, ⟨-, rfl⟩, hpure⟩ | ⟨kind, ⟨hjump, -⟩, -⟩
      · obtain ⟨rfl, rfl⟩ := hpure
        exact ⟨middle, hread, rfl, usesAreTyped_cons (by simp)⟩
      · cases hjump
    · exact ⟨w', hread, rfl, id⟩
  | case2 typeName cond whenTrue whenFalse ihTrue ihFalse =>
    rcases h with ⟨value, middle, hcond, hrest⟩ | ⟨kind, hcond, rfl⟩
    · by_cases hholds : value = .bool true
      · rw [if_pos hholds] at hrest
        obtain ⟨w₁, heval, hsame⟩ := ihTrue hrest
        refine ⟨w₁, .inl ⟨value, middle, hcond, ?_⟩, hsame⟩
        beta_reduce
        rw [if_pos hholds]
        exact heval
      · rw [if_neg hholds] at hrest
        obtain ⟨w₁, heval, hsame⟩ := ihFalse hrest
        refine ⟨w₁, .inl ⟨value, middle, hcond, ?_⟩, hsame⟩
        beta_reduce
        rw [if_neg hholds]
        exact heval
    · exact ⟨w', .inr ⟨kind, hcond, rfl⟩, rfl, id⟩
  | case3 expr => exact ⟨w', h, rfl, id⟩

theorem acquire_sound {value : BoundValue}
    (h : ExpressionSound ctx s store expr value) :
    Triple (Quiet ctx store) (value.boundNode.acquire ctx.model)
      (fun res w => ValueFacts ctx s store expr value.typeName res ∧ Quiet ctx store w)
      (fun _ => Quiet ctx store) := by
  refine .intro (fun w res w' hw hrun => ?_) fun w kind w' hw hrun => ?_
  · obtain ⟨w₁, heval, hstore, huses⟩ := acquire_eval _ hrun
    obtain ⟨hfacts, hquiet⟩ := h.value hw heval
    exact ⟨hfacts, hstore.trans hquiet.1, huses hquiet.2⟩
  · obtain ⟨w₁, heval, hstore, huses⟩ := acquire_eval _ hrun
    have hquiet := h.jumped hw heval
    exact ⟨hstore.trans hquiet.1, huses hquiet.2⟩

theorem acquisitionTypes_direct (h : (acquisitionTypes model typeName).1 = false) :
    (acquisitionTypes model typeName).2.1 = typeName := by
  unfold acquisitionTypes at h ⊢
  split
  · split
    · simp_all
    · rfl
  · rfl

theorem using_sound {acq : Expression} (hs : Place ctx s)
    (hacc : (bindStatement ctx (.usingBlock name acq body) s).2.diagnostics = [])
    (halways : (Statement.usingBlock name acq body).Always ctx (KeepsNarrowings ctx) s)
    (hbody : BodySound ctx (s.usingStart ctx name acq) body) :
    BoundSound ctx s (.usingBlock name acq body) := by
  obtain ⟨hkeeps, halways⟩ := halways
  have hopens := opens_using ctx name acq hs.wellFormed
  have hunclaimed : ∀ other ∈ [name], s.Unclaimed ctx other := by simpa using hkeeps.1
  obtain ⟨hhead, hinside⟩ := hopens.block hs hunclaimed hacc hbody
  have hdeclared := freshNamed_declareLocal name (bindAcquisition ctx acq s).1.2.1 false
    true (bindAcquisition ctx acq s).2.enterScope
  have hblock : ∀ resource, HasType ctx.model resource (bindAcquisition ctx acq s).1.2.1 →
      StatementSound ctx s (bindStatement ctx (.usingBlock name acq body) s).2 _ :=
    fun resource htype => hopens.sound hs hunclaimed
      (fun other hother hmem => hkeeps.2 other (mem_filter.mpr ⟨hother, by simpa using hmem⟩))
      halways
      (.bind (declareVariable_sound (hopens.unclaimed hunclaimed name (mem_singleton_self _))
        htype false true true) fun _ =>
        hinside.weakenJumps fun _ _ hw => hw.of_adds hdeclared)
      ((bindAcquisition ctx acq s).2.locals.length ::
        (bindStatements ctx body (s.usingStart ctx name acq)).1.declares)
  refine triple_describes fun store hagrees => ?_
  have hquiet : ∀ w, Quiet ctx store w → DescribesTypes ctx s w := fun _ hw =>
    (hagrees.describes hw).types
  have hacquire := acquire_sound
    (bindExpression_sound ctx store acq s (hs.ready hagrees) (acquisition_accepted hhead))
  refine .bind (hacquire.weakenJumps fun _ => hquiet)
    fun value => .of_fact fun hv => ?_
  refine .ite (fun _ => ?_) fun hdirect => ?_
  · refine .bind (.either (triple_anyValue.weakenJumps fun _ => hquiet)
      (.jump hquiet)) fun resource => .of_fact fun hresource => ?_
    exact (hblock resource hresource).strengthenPre fun _ hw => hagrees.describes hw
  · have htype : (bindAcquisition ctx acq s).1.2.1 = (bindExpression ctx acq s).1.typeName :=
      acquisitionTypes_direct (Bool.not_eq_true _ ▸ hdirect)
    refine .bind (.pure fun _ hw => And.intro rfl hw) fun resource => .of_fact fun hresource => ?_
    exact (hblock resource (htype ▸ hresource ▸ hv.typed)).strengthenPre fun _ hw =>
      hagrees.describes hw

/-! ## Matches -/

/-- Cases that each leave no narrowings of variables behind leave none together. -/
theorem noFalse_bindCases (ctx : BodyContext) (sym : Option SemanticClass) :
    (cases : MatchCases) → (seen : List Nat) → (s : BodyBinder) → WellFormed s →
    cases.KeepNarrowings ctx sym seen s → NoFalseNarrowings ctx s (bindCases ctx sym cases seen s).2
  | .nil, _, _, _, _ => fun _ he => .inl he
  | .cons qualifier caseName bindings body rest, seen, s, hs, h => by
    have hopens := opens_case ctx sym qualifier caseName bindings seen hs
    have hnext := (hopens.ends hs ctx body).wellFormed hs
    have hclosed := (bindCases_leads ctx sym rest
      (s.caseHead ctx sym qualifier caseName bindings seen).1.2 _ hnext).closed
    intro e he
    rcases noFalse_bindCases ctx sym rest _ _ hnext h.2.2 e he with hmem | hnone
    · rcases hopens.noFalse hs h.2.1 e hmem with hold | hnone
      · exact .inl hold
      · exact .inr ((hclosed.findVariable _).trans hnone)
    · exact .inr hnone

/-! ## Bodies -/

mutual

theorem bindStatement_sound (ctx : BodyContext) : (statement : Statement) → (s : BodyBinder) →
    Place ctx s → (bindStatement ctx statement s).2.diagnostics = [] →
    statement.Always ctx (KeepsNarrowings ctx) s → BoundSound ctx s statement
  | .declaration .., _, hs, hacc, halways => declaration_sound hs halways hacc
  | .assignment .., _, hs, hacc, _ => assignment_sound hs hacc
  | .expression _, _, hs, hacc, _ => expressionStatement_sound hs hacc
  | .branch cond thenBody elseBody, s, hs, hacc, halways => by
    obtain ⟨hkeeps, hthenAlways, helseAlways⟩ := halways
    have hbranches := branches ctx cond thenBody elseBody hs.wellFormed
    obtain ⟨hcond, hthenBody, helseBody⟩ := hbranches.accepted hs.wellFormed hacc
    have hthenPlace : Place ctx (s.thenStart ctx cond) :=
      (hs.keeps hbranches.head).narrowed cond true
    have helsePlace : Place ctx (s.elseStart ctx cond thenBody) :=
      ⟨hbranches.elseStart, hs.shadow.closed hbranches.closed_elseStart⟩
    have hthen := bindStatements_sound ctx thenBody _ hthenPlace hthenBody hthenAlways
    have helse := bindStatements_sound ctx elseBody _ helsePlace helseBody helseAlways
    refine hs.evaluates hcond fun store hagrees res hres =>
      .ite (fun hholds => ?_) fun hfails => ?_
    · exact hbranches.then_sound hs hkeeps hthenAlways hthen hagrees
        (hres.proves true (by simp [hholds]))
    · exact hbranches.else_sound hs hkeeps helseAlways helse hagrees
        (hres.proves false (by simp [hfails]))
  | .whileLoop _ body, _, hs, hacc, halways =>
    while_sound hs hacc halways (bindStatements_sound ctx body _ · · halways.2)
  | .forLoop _ _ _ body, _, hs, hacc, halways =>
    for_sound hs hacc halways (bindStatements_sound ctx body _ · · halways.2)
  | .matchOn scrutinee cases, s, hs, hacc, halways => by
    obtain ⟨hkeeps, hcasesAlways⟩ := halways
    obtain ⟨hscrutinee, hcases⟩ := match_accepted hs.wellFormed hacc
    have hhead := keeps_bindScrutinee ctx scrutinee s hs.wellFormed.flow
    have hsound := bindCases_sound ctx _ cases [] _ (hs.keeps hhead) hcases hkeeps hcasesAlways
    refine hs.evaluates hscrutinee fun store hagrees _ _ => ?_
    exact hsound.weaken (fun _ hw => (hagrees.keeps hhead).describes hw)
      (fun _ _ hw => ⟨hw.1.keeps reports_reportMissing.keeps, hw.2⟩)
      fun _ _ hw => hw.of_adds hhead.closed
  | .breakLoop, _, _, _, _ | .continueLoop, _, _, _, _ | .returnNothing, _, _, _, _ =>
    .jump fun _ hw => hw.types
  | .returnValue _, _, hs, hacc, _ => return_sound hs hacc
  | .unsafeBlock body, s, hs, hacc, halways => by
    obtain ⟨hleft, hbodyAlways⟩ := halways
    exact (opens_unsafeBlock hs.wellFormed).sound hs (fun _ h => by cases h)
      (fun name hname hmem => hleft name (mem_filter.mpr ⟨hname, by simpa using hmem⟩))
      hbodyAlways
      (bindStatements_sound ctx body _ hs.enterScope (leaveScope_accepted hacc) hbodyAlways)
      _
  | .borrowBlock _ _ body, _, hs, hacc, halways =>
    borrow_sound hs hacc halways (bindStatements_sound ctx body _ · · halways.2)
  | .usingBlock _ _ body, _, hs, hacc, halways =>
    using_sound hs hacc halways (bindStatements_sound ctx body _ · · halways.2)

theorem bindStatements_sound (ctx : BodyContext) : (body : Statements) → (s : BodyBinder) →
    Place ctx s → (bindStatements ctx body s).2.diagnostics = [] →
    body.Always ctx (KeepsNarrowings ctx) s → BlockSound ctx s body
  | .nil, _, _, _, _ => .pure fun _ hw => hw
  | .cons first rest, s, hs, hacc, halways => by
    have hnext := hs.next halways.1
    have hfirst := (bindStatements_leads ctx rest _ hnext.wellFormed).accepted hacc
    refine .bind (bindStatement_sound ctx first s hs hfirst halways.1) fun _ => ?_
    exact (bindStatements_sound ctx rest _ hnext hacc halways.2).weakenJumps fun _ _ hw =>
        hw.of_adds (bindStatement_leads ctx first s hs.wellFormed).locals

theorem bindCases_sound (ctx : BodyContext) (sym : Option SemanticClass) :
    (cases : MatchCases) → (seen : List Nat) → (s : BodyBinder) → Place ctx s →
    (bindCases ctx sym cases seen s).2.diagnostics = [] → cases.KeepNarrowings ctx sym seen s →
    cases.Always ctx (KeepsNarrowings ctx) sym seen s →
    StatementSound ctx s (bindCases ctx sym cases seen s).2
      ((bindCases ctx sym cases seen s).1.1.runOne ctx.model)
  | .nil, _, _, _, _, _, _ => .jump fun _ hw => hw.types
  | .cons qualifier caseName bindings body rest, seen, s, hs, hacc, hkeeps, halways => by
    obtain ⟨hunclaimed, hleft, hrestKeeps⟩ := hkeeps
    obtain ⟨hbodyAlways, hrestAlways⟩ := halways
    have hopens := opens_case ctx sym qualifier caseName bindings seen hs.wellFormed
    have hend := hopens.ends hs.wellFormed ctx body
    have hnext : Place ctx (s.caseEnd ctx sym qualifier caseName bindings body seen) :=
      ⟨hend.wellFormed hs.wellFormed, hs.shadow.closed hend.closed⟩
    have hrest := bindCases_leads ctx sym rest
      (s.caseHead ctx sym qualifier caseName bindings seen).1.2 _ hnext.wellFormed
    have hbody := hopens.block hs hunclaimed (hrest.accepted hacc)
      (bindStatements_sound ctx body _ · · hbodyAlways)
    have hfirst := hopens.sound hs hunclaimed (fun name hname _ => hleft name hname) hbodyAlways
      (opened_sound _ (hopens.unclaimed hunclaimed) hopens.leads.fresh hbody.2)
    have hothers := bindCases_sound ctx sym rest _ _ hnext hacc hrestKeeps hrestAlways
    have hkept := noFalse_bindCases ctx sym rest
      (s.caseHead ctx sym qualifier caseName bindings seen).1.2 _ hnext.wellFormed hrestKeeps
    refine .either ((hfirst _).weakenPost ?_)
      (hothers.weaken ?_ (fun _ _ hw => hw) ?_)
    · exact fun _ _ hw => ⟨hw.1.closed hrest.closed hkept, hw.2⟩
    · exact fun _ hw => ⟨hw.1.closed hend.closed (hend.noFalse hleft), hw.2⟩
    · exact fun _ _ hw => hw.of_adds hend.fresh

end

/-- Every use of a variable in an accepted body finds a value of the type that the binder has given it
there, whatever null checks, branches, assignments and loop iterations the execution has gone through,
provided that each statement keeps the narrowings of the state in which it is bound. -/
theorem narrowed_uses_sound (context : BodyContext) (body : Statements)
    (haccepted : Accepts context body) (halways : body.Always context (KeepsNarrowings context) {})
    (w w' : World) (exit : Exit Unit) (hstart : StartsBody context w)
    (hrun : (bindCallable context body).1.runBody context.model w exit w') :
    UsesAreTyped context.model w'.trace := by
  have hplace : Place context {} :=
    ⟨⟨fun _ he => (by cases he), rfl, fun _ he => (by cases he)⟩, fun _ he => (by cases he)⟩
  have hbody : (bindStatements context body {}).2.diagnostics = [] :=
    (reports_reportIf.trans reports_validateOwnedLocals).keeps.accepted haccepted
  have hdescribes : Describes context {} w := by
    refine ⟨⟨⟨hstart.arguments, fun i e hget => ?_⟩, fun e he => ?_⟩, ?_⟩
    · simp at hget
    · cases he
    · rw [hstart.trace]
      exact fun _ _ _ hmem => (by cases hmem)
  have hsound := (bindStatements_sound context body {} hplace hbody halways).weaken
    (fun _ hw => hw) (fun _ _ hw => hw.2) fun _ _ hw => hw.2
  have hleft : Triple (Describes context {}) ((bindCallable context body).1.runBody context.model)
      (fun _ w => UsesAreTyped context.model w.trace)
      (fun _ w => UsesAreTyped context.model w.trace) :=
    .atExit hsound (fun _ _ => usesAreTyped_leaveAll) (fun _ _ _ => usesAreTyped_leaveAll)
      fun _ hw => hw
  cases exit with
  | value => exact hleft.value hdescribes hrun
  | jump => exact hleft.jumped hdescribes hrun

theorem eval_name (sym : Variable) (typeName : SemanticType) (w : World) :
    (BoundExpression.name (some sym) typeName).eval model w (.value (w.store sym))
      (w.emit (.use sym typeName (w.store sym))) :=
  .inl ⟨_, _, ⟨rfl, rfl⟩, .inl ⟨_, _, ⟨rfl, rfl⟩, rfl, rfl⟩⟩

theorem eval_notNull (sym : Variable) (typeName : SemanticType) (w : World)
    (hv : w.store sym ≠ .null) :
    (BoundExpression.equality false (.name (some sym) typeName) .nullLiteral).eval model w
      (.value (.bool true)) (w.emit (.use sym typeName (w.store sym))) :=
  .inl ⟨_, _, eval_name sym typeName w, .inl ⟨.null, _, ⟨rfl, rfl⟩,
    .inl ⟨false, _, ⟨⟨false, by simp [hv], rfl⟩, rfl⟩, rfl, rfl⟩⟩⟩

/-- A callable `check(x: String?): Void`. -/
def checkContext : BodyContext where
  model := { classes := [] }
  parameters := [⟨"x", .optional .string⟩]
  returnType := .void
  callableName := "check"
  qualifierMatches _ _ := false

/-- `if x != null { x }`. -/
def checkedUse : Statements :=
  .cons (.branch (.equality false (.name "x") .nullLiteral)
    (.cons (.expression (.name "x")) .nil) .nil) .nil

/-- A world in which `x` is a string. -/
def stringWorld : World := ⟨fun _ => .string "a", []⟩

theorem startsBody_stringWorld : StartsBody checkContext stringWorld := by
  refine ⟨rfl, fun name parameter hfound => ?_⟩
  have hmem := mem_of_find?_eq_some hfound
  obtain rfl : parameter = ⟨"x", .optional .string⟩ := by simpa [checkContext] using hmem
  exact .inr ⟨"a", rfl⟩

/-- `stringWorld` after the condition and the use. -/
def checkedWorld : World :=
  (stringWorld.emit (.use (.parameter "x") (.optional .string) (.string "a"))).emit
    (.use (.parameter "x") .string (.string "a"))

theorem narrowed_uses_sound_checkedUse :
    (bindCallable checkContext checkedUse).1.runBody checkContext.model stringWorld (.value ())
      checkedWorld ∧ UsesAreTyped checkContext.model checkedWorld.trace := by
  have hrun : (bindCallable checkContext checkedUse).1.runBody checkContext.model stringWorld
      (.value ()) checkedWorld := by
    refine .inr ⟨by simp, checkedWorld, .inl ⟨(), _, .inl ⟨_, _, eval_notNull (.parameter "x")
      (.optional .string) stringWorld (by simp [stringWorld]), ?_⟩, rfl, rfl⟩, rfl⟩
    refine .inr ⟨by simp, checkedWorld, .inl ⟨(), _, ?_, rfl, rfl⟩, rfl⟩
    exact .inl ⟨_, _, eval_name _ _ _, rfl, rfl⟩
  refine ⟨hrun, ?_⟩
  have halways : checkedUse.Always checkContext (KeepsNarrowings checkContext) {} := by
    refine ⟨⟨⟨fun hends => ?_, fun _ hends => ?_⟩, ⟨trivial, trivial⟩, trivial⟩, trivial⟩
    · exact absurd hends (by decide)
    · exact absurd hends (by decide)
  exact narrowed_uses_sound checkContext checkedUse rfl halways stringWorld _ _
    startsBody_stringWorld hrun

/-- `var y: String? = <any>; if y != null { while <any> { y; y = null } }`. -/
def looseningLoop : Statements :=
  .cons (.declaration true "y" (some (.optional .string)) (.leaf (.optional .string)))
    (.cons (.branch (.equality false (.name "y") .nullLiteral) (.cons (.whileLoop (.leaf .bool)
        (.cons (.expression (.name "y")) (.cons (.assignment "y" .nullLiteral) .nil))) .nil) .nil)
      .nil)

/-- The world after an iteration of the loop: `y` is read as a string and set to `null`. -/
def loosened (w : World) : World :=
  (w.emit (.use (.declared 0) .string (w.store (.declared 0)))).assign 0 .null

theorem looseningLoop_iteration (w : World) :
    (BoundStatements.cons (.expression (.name (some (.declared 0)) .string))
      (.cons (.assignment 0 (.optional .string) .nullLiteral) .nil)).run checkContext.model w
      (.value ()) (loosened w) :=
  .inl ⟨(), _, .inl ⟨_, _, eval_name _ _ w, rfl, rfl⟩,
    .inl ⟨(), _, .inl ⟨.null, _, ⟨rfl, rfl⟩, rfl, rfl⟩, rfl, rfl⟩⟩

/-- The world after the declaration of `y`. -/
def declaredWorld : World :=
  (stringWorld.assign 0 (.string "a")).emit (.declare 0 (.optional .string) false)

/-- The body is accepted, and its loop reads `null` as a string in the second iteration. -/
theorem looseningLoop_reads_null : Accepts checkContext looseningLoop ∧
      ∃ w', (bindCallable checkContext looseningLoop).1.runBody checkContext.model stringWorld
        (.value ()) w' ∧ StartsBody checkContext stringWorld ∧
        .use (.declared 0) .string .null ∈ w'.trace ∧
        ¬UsesAreTyped checkContext.model w'.trace := by
  have hloop : ∀ w, (BoundStatement.whileLoop (.leaf .bool)
      (.cons (.expression (.name (some (.declared 0)) .string))
        (.cons (.assignment 0 (.optional .string) .nullLiteral) .nil))).run checkContext.model w
      (.value ()) (loosened (loosened w)) := by
    intro w
    have hbool : ∀ (value : Bool) (w : World), (BoundExpression.leaf .bool).eval checkContext.model w
        (.value (.bool value)) w := fun value w => .inl ⟨⟨_, ⟨value, rfl⟩, rfl⟩, rfl⟩
    refine .again (.inl ⟨.bool true, w, hbool true w, .inl ⟨(), loosened w, .inr ⟨by simp, _,
      looseningLoop_iteration w, rfl⟩, rfl, rfl⟩⟩) ?_
    refine .again (.inl ⟨.bool true, _, hbool true _, .inl ⟨(), loosened (loosened w),
      .inr ⟨by simp, _, looseningLoop_iteration _, rfl⟩, rfl, rfl⟩⟩) ?_
    exact .done (.inl ⟨.bool false, _, hbool false _, rfl, rfl⟩)
  have hmem : Event.use (.declared 0) .string .null ∈
      (((loosened (loosened (declaredWorld.emit (.use (.declared 0) (.optional .string)
        (.string "a"))))).leaveAll [0]).trace) := by decide
  refine ⟨rfl, _, .inr ⟨by simp, loosened (loosened (declaredWorld.emit (.use (.declared 0)
    (.optional .string) (.string "a")))), ?_, rfl⟩, startsBody_stringWorld, hmem, fun huses => ?_⟩
  · refine .inl ⟨(), declaredWorld, .inl ⟨.string "a", stringWorld,
      .inl ⟨⟨_, .inr ⟨"a", rfl⟩, rfl⟩, rfl⟩, rfl, rfl⟩, ?_⟩
    refine .inl ⟨(), _, .inl ⟨_, _, eval_notNull (.declared 0) (.optional .string) declaredWorld
      (by simp [declaredWorld, World.emit, World.assign]), ?_⟩, rfl, rfl⟩
    exact .inr ⟨by simp, _, .inl ⟨(), _, hloop _, rfl, rfl⟩, rfl⟩
  · exact (huses _ _ _ hmem).2 rfl rfl

end Neri.Semantic
