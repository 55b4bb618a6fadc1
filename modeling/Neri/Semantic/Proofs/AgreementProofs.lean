import Neri.Semantic.Proofs.BodyBinderProofs

/-!
# What the binder knows of the store

`Agrees` says that the binder's state is true of the store: variables have their types and every
narrowing holds of the variable that its name denotes. An expression that is bound in such a state
changes no variable, its value has the type that the binder gives it, and if it is a condition the
names it narrows are not null.
-/

namespace Neri.Semantic

open BodyBinder Runs List Option

variable {ctx : BodyContext} {s s' t u : BodyBinder} {store : Variable → Value}
variable {model : SemanticModel} {v : Value} {ty : SemanticType} {name : String}
  {sym : Variable} {expr : Expression} {expectedType : Option SemanticType}

/-! ## Values and types -/

theorem HasType.ne_null (h : HasType model v ty) (hnever : ty.neverNull = true) : v ≠ .null := by
  rintro rfl
  cases ty <;> simp [HasType, SemanticType.neverNull] at h hnever

theorem HasType.inner (h : HasType model v (.optional ty)) (hvalue : v ≠ .null) :
    HasType model v ty := h.resolve_left hvalue

theorem reaches_of_classAssignableLoop {tgt src : String} :
    ∀ {steps : Nat}, classAssignableLoop model tgt steps (model.findClass src) = true →
      Relation.ReflTransGen (DirectBase model) src tgt := by
  intro steps
  induction steps generalizing src with
  | zero => intro h; simp [classAssignableLoop] at h
  | succ steps ih =>
    intro h
    cases hfound : model.findClass src with
    | none => simp [classAssignableLoop, hfound] at h
    | some sym =>
      have hbase : DirectBase model src sym.baseName := ⟨sym, hfound, rfl⟩
      rw [hfound, classAssignableLoop, Bool.or_eq_true, beq_iff_eq] at h
      rcases h with heq | hrest
      · exact heq ▸ .single hbase
      · exact .head hbase (ih hrest)

theorem HasType.assign : ∀ {tgt src : SemanticType}, semanticAssignable model tgt src = true →
      HasType model v src → HasType model v tgt := by
  intro tgt
  induction tgt with
  | error => exact fun _ _ => trivial
  | optional inner ih =>
    intro src h hvalue
    unfold semanticAssignable at h
    cases src with
    | null => exact .inl hvalue
    | optional sourceInner =>
      obtain rfl : inner = sourceInner := by
        simp only [Bool.or_eq_true, Bool.and_eq_true, beq_iff_eq, reduceCtorEq, false_or,
          SemanticType.optional.injEq] at h
        exact h.elim id And.left
      exact hvalue
    | _ =>
      exact .inr (ih h hvalue)
  | classType tgt =>
    intro src h hvalue
    unfold semanticAssignable at h
    cases src with
    | classType src =>
      obtain ⟨className, tag, rfl, hreaches⟩ := hvalue
      simp only [semanticClassAssignable, Bool.or_eq_true, Bool.and_eq_true, beq_iff_eq,
        reduceCtorEq, false_or, SemanticType.classType.injEq] at h
      rcases h with rfl | ⟨-, rfl | hloop⟩
      · exact ⟨className, tag, rfl, hreaches⟩
      · exact ⟨className, tag, rfl, hreaches⟩
      · exact ⟨className, tag, rfl, hreaches.trans (reaches_of_classAssignableLoop hloop)⟩
    | _ => simp at h
  | _ =>
    intro src h hvalue
    unfold semanticAssignable at h
    simp only [Bool.or_false, Bool.or_eq_true, beq_iff_eq, reduceCtorEq, false_or] at h
    exact h ▸ hvalue

theorem HasType.ternary {way whenFalse joined : SemanticType}
    (hjoined : semanticTernaryType way whenFalse = some joined)
    (h : HasType model v way ∨ HasType model v whenFalse) : HasType model v joined := by
  have hoptional : ∀ {ty : SemanticType},
      v = .null ∨ HasType model v ty → HasType model v ty.asOptional := by
    intro ty hvalue
    unfold SemanticType.asOptional
    split
    · rename_i hopt
      cases ty <;> simp [SemanticType.isOptional] at hopt
      rcases hvalue with rfl | hvalue
      · exact .inl rfl
      · exact hvalue
    · exact hvalue
  have hinner : ∀ {ty : SemanticType}, ty.isOptional = true →
      HasType model v ty.inner → HasType model v ty := by
    intro ty hopt hvalue
    cases ty <;> simp [SemanticType.isOptional] at hopt
    exact .inr hvalue
  unfold semanticTernaryType at hjoined
  split at hjoined
  · rename_i heq
    cases hjoined
    rcases h with h | h
    · exact h
    · exact heq ▸ h
  split at hjoined
  · rename_i hnull
    cases hjoined
    rcases h with h | h
    · rw [hnull.1] at h
      exact hoptional (.inl h)
    · exact hoptional (.inr h)
  split at hjoined
  · rename_i hnull
    cases hjoined
    rcases h with h | h
    · exact hoptional (.inr h)
    · rw [hnull.1] at h
      exact hoptional (.inl h)
  split at hjoined
  · rename_i hopt
    cases hjoined
    rcases h with h | h
    · exact h
    · exact hinner hopt.1 (hopt.2 ▸ h)
  split at hjoined
  · rename_i hopt
    cases hjoined
    rcases h with h | h
    · exact hinner hopt.1 (hopt.2 ▸ h)
    · exact h
  · cases hjoined

/-! ## Variables -/

theorem findLocalFrom_spec : ∀ {locals : List SemanticLocal} {start i : Nat}
    {e : SemanticLocal}, findLocalFrom name start locals = some (i, e) →
      start ≤ i ∧ locals[i - start]? = some e ∧ e.active = true ∧ e.name = name := by
  intro locals
  induction locals with
  | nil => intro start i e h; simp [findLocalFrom] at h
  | cons first rest ih =>
    intro start i e h
    rw [findLocalFrom, or_eq_some_iff] at h
    rcases h with hrest | ⟨-, hfirst⟩
    · obtain ⟨hle, hget, hact, hname⟩ := ih hrest
      have hsub : i - start = i - (start + 1) + 1 := by omega
      refine ⟨by omega, ?_, hact, hname⟩
      rw [hsub]
      exact hget
    · split at hfirst
      · rename_i hmatch
        obtain ⟨rfl, rfl⟩ := Prod.mk.injEq .. ▸ some.inj hfirst
        have hboth := Bool.and_eq_true_iff.mp hmatch
        exact ⟨le_rfl, by simp, hboth.1, eq_of_beq hboth.2⟩
      · cases hfirst

theorem findLocal_spec {i : Nat} {e : SemanticLocal} (h : s.findLocal name = some (i, e)) :
    s.locals[i]? = some e ∧ e.active = true ∧ e.name = name :=
  (findLocalFrom_spec h).2

theorem findLocalFrom_append {fresh : List SemanticLocal}
    (hfresh : ∀ e ∈ fresh, e.active = true → e.name ≠ name) :
    ∀ (locals : List SemanticLocal) (start : Nat),
      findLocalFrom name start (locals ++ fresh) = findLocalFrom name start locals := by
  intro locals
  induction locals with
  | nil =>
    intro start
    induction fresh generalizing start with
    | nil => rfl
    | cons first rest ih =>
      have hrest := ih (fun e he => hfresh e (mem_cons_of_mem _ he))
      have hfirst : ¬(first.active && first.name == name) = true := by
        intro hmatch
        have hboth := Bool.and_eq_true_iff.mp hmatch
        exact hfresh first mem_cons_self hboth.1 (eq_of_beq hboth.2)
      have htail : findLocalFrom name (start + 1) rest = none := hrest (start + 1)
      show (findLocalFrom name (start + 1) rest).or
        (if first.active && first.name == name then some (start, first) else none) = none
      rw [htail, if_neg hfirst]
      rfl
  | cons first rest ih =>
    intro start
    show (findLocalFrom name (start + 1) (rest ++ fresh)).or _ = _
    rw [ih]
    rfl

theorem findVariable_congr (h : s'.findLocal name = s.findLocal name) :
    s'.findVariable ctx name = s.findVariable ctx name := by
  unfold findVariable
  rw [h]

theorem findLocal_congr (h : s'.locals = s.locals) : s'.findLocal name = s.findLocal name := by
  unfold findLocal
  rw [h]

variable {names : List String}

theorem FreshNamed.findVariable (h : FreshNamed names s s')
    (hname : name ∉ names) : s'.findVariable ctx name = s.findVariable ctx name := by
  obtain ⟨fresh, hfresh, hnames⟩ := h
  refine findVariable_congr ?_
  unfold findLocal
  rw [hfresh]
  refine findLocalFrom_append (fun e he hact heq => hname ?_) s.locals 0
  exact heq ▸ hnames e he hact

theorem Closed.findVariable (h : Closed s s') (name : String) :
    s'.findVariable ctx name = s.findVariable ctx name :=
  (h.freshNamed []).findVariable not_mem_nil

/-- A variable that a name denotes is a parameter or one of the locals there are. -/
theorem findVariable_declared {i : Nat} (h : s.findVariable ctx name = some (.declared i)) :
    ∃ e, s.locals[i]? = some e ∧ e.active = true ∧ e.name = name := by
  unfold findVariable at h
  split at h
  · rename_i found e hfound
    obtain rfl : found = i := by simpa using h
    exact ⟨e, findLocal_spec hfound⟩
  · simp at h

/-! ## What the state of the binder says of the store -/

/-- No local in scope has the name of a parameter. -/
def NoShadow (context : BodyContext) (s : BodyBinder) : Prop :=
  ∀ e ∈ s.locals, e.active = true → context.findParameter e.name = none

/-- Parameters and the locals in scope have values of their types. -/
structure Typed (context : BodyContext) (s : BodyBinder) (store : Variable → Value) : Prop where
  parameters : ∀ name parameter, context.findParameter name = some parameter →
    HasType context.model (store (.parameter name)) parameter.typeName
  locals : ∀ i e, s.locals[i]? = some e → e.active = true →
    HasType context.model (store (.declared i)) e.typeName

/-- Moreover, every narrowing is true of the variable that its name denotes. -/
structure Agrees (context : BodyContext) (s : BodyBinder) (store : Variable → Value) : Prop
    extends Typed context s store where
  narrowings : ∀ e ∈ s.flow.narrowings, ∀ sym, s.findVariable context e.identity = some sym →
      store sym ≠ .null ∧ HasType context.model (store sym) e.typeName

/-- The variable that a name denotes has a value of the type that the binder finds for the name. -/
theorem Agrees.variable (h : Agrees ctx s store) (hshadow : NoShadow ctx s)
    (htype : s.findVariableType ctx name = some ty) (hsym : s.findVariable ctx name = some sym) :
    HasType ctx.model (store sym) ty := by
  unfold findVariableType BindingFlowState.variableType at htype
  rw [or_eq_some_iff] at htype
  rcases htype with hnarrowed | ⟨-, hbase⟩
  · obtain ⟨e, he, rfl⟩ := map_eq_some_iff.mp hnarrowed
    have hmem := mem_reverse.mp (mem_of_find?_eq_some he)
    have hname : e.identity = name := by
      have hfound := find?_some he
      exact eq_of_beq (Bool.and_eq_true_iff.mp hfound).2
    exact (h.narrowings e hmem sym (hname ▸ hsym)).2
  · cases hparameter : ctx.findParameter name with
    | some parameter =>
      have hlocal : s.findLocal name = none := by
        by_contra hsome
        obtain ⟨⟨i, e⟩, hfound⟩ := ne_none_iff_exists'.mp hsome
        obtain ⟨hget, hact, hname⟩ := findLocal_spec hfound
        have hnone := hshadow e (mem_of_getElem? hget) hact
        rw [hname, hparameter] at hnone
        cases hnone
      obtain rfl : parameter.typeName = ty := by simpa [hparameter] using hbase
      obtain rfl : Variable.parameter name = sym := by
        simpa [findVariable, hlocal, hparameter] using hsym
      exact h.parameters name parameter hparameter
    | none =>
      simp only [hparameter, map_none, none_or] at hbase
      obtain ⟨⟨i, e⟩, hfound, rfl⟩ := map_eq_some_iff.mp hbase
      obtain ⟨hget, hact, -⟩ := findLocal_spec hfound
      obtain rfl : Variable.declared i = sym := by
        simpa [findVariable, hfound] using hsym
      exact h.locals i e hget hact

theorem Typed.closed (h : Typed ctx s store) (hclosed : Closed s s') : Typed ctx s' store := by
  obtain ⟨fresh, hfresh, hinactive⟩ := hclosed
  refine ⟨h.parameters, fun i e hget hact => ?_⟩
  rw [hfresh] at hget
  rcases Nat.lt_or_ge i s.locals.length with hlt | hge
  · rw [getElem?_append_left hlt] at hget
    exact h.locals i e hget hact
  · rw [getElem?_append_right hge] at hget
    have hfalse := hinactive e (mem_of_getElem? hget)
    simp [hact] at hfalse

/-- The narrowings of `s'` that are not in `s` are of names that denote nothing. -/
def NoFalseNarrowings (context : BodyContext) (s s' : BodyBinder) : Prop :=
  ∀ e ∈ s'.flow.narrowings, e ∈ s.flow.narrowings ∨ s'.findVariable context e.identity = none

theorem NoNewNarrowings.noFalse (h : NoNewNarrowings s s') : NoFalseNarrowings ctx s s' :=
  fun e he => .inl (h e he)

/-- What a state knows, a state knows that has the same locals in scope and no further narrowings of
variables. -/
theorem Agrees.closed (h : Agrees ctx s store) (hclosed : Closed s s')
    (hnarrowings : NoFalseNarrowings ctx s s') : Agrees ctx s' store where
  toTyped := h.toTyped.closed hclosed
  narrowings e he sym hsym := by
    rcases hnarrowings e he with hold | hnone
    · exact h.narrowings e hold sym (hclosed.findVariable _ ▸ hsym)
    · rw [hnone] at hsym
      cases hsym

theorem Agrees.keeps (h : Agrees ctx s store) (hkeeps : Keeps s s') :
    Agrees ctx s' store := h.closed hkeeps.closed hkeeps.noNewNarrowings.noFalse

theorem FreshNamed.noShadow (h : FreshNamed names s s')
    (hshadow : NoShadow ctx s) (hnames : ∀ name ∈ names, ctx.findParameter name = none) :
    NoShadow ctx s' := by
  obtain ⟨fresh, hfresh, hfreshNames⟩ := h
  intro e he hact
  rw [hfresh] at he
  rcases mem_append.mp he with hmem | hmem
  · exact hshadow e hmem hact
  · exact hnames _ (hfreshNames e hmem hact)

theorem NoShadow.closed (h : NoShadow ctx s) (hclosed : Closed s s') : NoShadow ctx s' :=
  (hclosed.freshNamed []).noShadow h fun _ hname => absurd hname not_mem_nil

/-- The names that a condition has shown are not null. -/
def ProvenAt (context : BodyContext) (s : BodyBinder) (store : Variable → Value)
    (names : List String) : Prop :=
  ∀ name ∈ names, ∀ sym, s.findVariable context name = some sym → store sym ≠ .null

theorem ProvenAt.closed (h : ProvenAt ctx s store names)
    (hclosed : Closed s s') : ProvenAt ctx s' store names :=
  fun name hname sym hsym => h name hname sym (hclosed.findVariable name ▸ hsym)

theorem agrees_narrow (h : Agrees ctx s store) (hshadow : NoShadow ctx s)
    (hproven : ∀ sym, s.findVariable ctx name = some sym → store sym ≠ .null) :
    Agrees ctx (s.narrow ctx name) store := by
  unfold narrow
  split
  · rename_i inner htype
    refine ⟨⟨h.parameters, h.locals⟩, fun e he sym hsym => ?_⟩
    rcases mem_append.mp he with hmem | hmem
    · exact h.narrowings e hmem sym hsym
    · obtain rfl := mem_singleton.mp hmem
      have hvalue := hproven sym hsym
      exact ⟨hvalue, (h.variable hshadow htype hsym).inner hvalue⟩
  · exact h

theorem agrees_narrowed (cond : Expression) (way : Bool) (s : BodyBinder)
    (h : Agrees ctx s store) (hshadow : NoShadow ctx s)
    (hproven : ProvenAt ctx s store (provenNames cond way)) :
    Agrees ctx (applyConditionNarrowing ctx cond way s) store := by
  fun_induction applyConditionNarrowing ctx cond way s with
  | case1 operand way s ih => exact ih h hshadow hproven
  | case2 isAnd left right way s hsame ihleft ihright =>
    rw [provenNames, if_pos hsame] at hproven
    have hclosed := closed_of_locals (narrows_applyConditionNarrowing ctx left way s).locals
    have hleft := ihleft h hshadow fun name hname => hproven name (mem_append_left _ hname)
    refine ihright hleft (hshadow.closed hclosed) (ProvenAt.closed ?_ hclosed)
    exact fun name hname => hproven name (mem_append_right _ hname)
  | case3 => exact h
  | case4 isEqual left right way s hproves name hname =>
    rw [provenNames, if_pos hproves, hname] at hproven
    exact agrees_narrow h hshadow (hproven name (by simp))
  | case5 => exact h
  | case6 => exact h
  | case7 => exact h

/-! ## Expressions -/

/-- The store is `store`, and the uses so far are sound. -/
def Quiet (context : BodyContext) (store : Variable → Value) (w : World) : Prop :=
  w.store = store ∧ UsesAreTyped context.model w.trace

theorem usesAreTyped_cons {event : Event} {trace : List Event}
    (hother : ∀ sym ty v, event ≠ .use sym ty v)
    (h : UsesAreTyped model trace) : UsesAreTyped model (event :: trace) := by
  intro sym ty v hmem
  rcases mem_cons.mp hmem with heq | hmem
  · exact absurd heq.symm (hother sym ty v)
  · exact h sym ty v hmem

theorem usesAreTyped_use {trace : List Event} (hvalue : HasType model v ty)
    (h : UsesAreTyped model trace) : UsesAreTyped model (.use sym ty v :: trace) := by
  intro symbol' typeName' value' hmem
  rcases mem_cons.mp hmem with heq | hmem
  · cases heq
    exact ⟨hvalue, hvalue.ne_null⟩
  · exact h symbol' typeName' value' hmem

theorem triple_anyValue {pre : World → Prop} :
    Triple pre (anyValue model ty) (fun v w => HasType model v ty ∧ pre w) (fun _ => pre) :=
  .either (.choose fun _ _ hpre hvalue => ⟨hvalue, hpre⟩) (.jump fun _ hpre => hpre)

theorem triple_readVariable (hvalue : HasType ctx.model (store sym) ty) :
    Triple (Quiet ctx store) (readVariable sym ty)
      (fun v w => v = store sym ∧ Quiet ctx store w) (fun _ => Quiet ctx store) := by
  refine .bindRead fun v => ?_
  refine .bindUpdate (fun w => v = store sym ∧ Quiet ctx store w) ?_ (.pure fun _ hw => hw)
  rintro w ⟨rfl, hstore, huses⟩
  have hsym : w.store sym = store sym := congrFun hstore sym
  exact ⟨hsym, hstore, usesAreTyped_use (hsym ▸ hvalue) huses⟩

structure ValueFacts (context : BodyContext) (s : BodyBinder) (store : Variable → Value)
    (expression : Expression) (typeName : SemanticType) (value : Value) : Prop where
  typed : HasType context.model value typeName
  reads : ∀ name, expression = .name name → ∀ sym,
    s.findVariable context name = some sym → value = store sym
  isNull : expression = .nullLiteral → value = .null
  proves : ∀ way, (value = .bool true ↔ way = true) →
    ProvenAt context s store (provenNames expression way)

/-- The bound expression keeps the store and has the value that is known of it. -/
def ExpressionSound (context : BodyContext) (s : BodyBinder) (store : Variable → Value)
    (expression : Expression) (value : BoundValue) : Prop :=
  Triple (Quiet context store) (value.boundNode.eval context.model)
    (fun res w => ValueFacts context s store expression value.typeName res ∧ Quiet context store w)
    (fun _ => Quiet context store)

theorem ValueFacts.congr (hlocals : t.locals = s.locals) (h : ValueFacts ctx t store expr ty v) :
    ValueFacts ctx s store expr ty v := by
  have hsame : ∀ name, t.findVariable ctx name = s.findVariable ctx name :=
    fun name => findVariable_congr (findLocal_congr hlocals)
  refine ⟨h.typed, fun name hname sym hsym => ?_, h.isNull, fun way hvalue => ?_⟩
  · exact h.reads name hname sym ((hsame name).trans hsym)
  · intro name hname sym hsym
    exact h.proves way hvalue name hname sym ((hsame name).trans hsym)

theorem ExpressionSound.congr {v : BoundValue}
    (hlocals : t.locals = s.locals) (h : ExpressionSound ctx t store expr v) :
    ExpressionSound ctx s store expr v :=
  h.weakenPost (fun _ _ hres => ⟨hres.1.congr hlocals, hres.2⟩)

/-- An expression that is neither a name nor `null` nor a condition. -/
def Expression.plain : Expression → Bool
  | .name _ | .nullLiteral | .negation _ | .logical .. | .equality .. => false
  | _ => true

theorem ValueFacts.of_typed (hplain : expr.plain = true) (h : HasType ctx.model v ty) :
    ValueFacts ctx s store expr ty v := by
  refine ⟨h, ?_, ?_, fun way _ name hmem => ?_⟩
  · rintro name rfl
    cases hplain
  · rintro rfl
    cases hplain
  · cases expr <;> first | cases hmem | cases hplain

theorem name_sound (hagree : Agrees ctx s store) (hshadow : NoShadow ctx s) (hacc : (bindName ctx name s).2.diagnostics = []) :
    ExpressionSound ctx s store (.name name) (bindName ctx name s).1 := by
  obtain ⟨ty, htype, htypeName, hnode, -, -⟩ := bindName_accepted hacc
  unfold ExpressionSound
  rw [htypeName, hnode]
  cases hsym : s.findVariable ctx name with
  | none => exact .jump fun _ hw => hw
  | some sym =>
    have hvalue := hagree.variable hshadow htype hsym
    refine (triple_readVariable hvalue).weakenPost ?_
    rintro v w ⟨rfl, hw⟩
    refine ⟨⟨hvalue, ?_, fun heq => (by cases heq), ?_⟩, hw⟩
    · intro name' heq symbol' hsymbol'
      cases heq
      rw [hsym] at hsymbol'
      cases hsymbol'
      rfl
    · intro way _ name' hmem
      simp [provenNames] at hmem

theorem transfer_sound (hagree : Agrees ctx s store) {returnPosition : Bool} (expr : Expression)
    (hexpression : expr = .transfer name) (hacc :
      (bindTransfer ctx name expectedType returnPosition s).2.diagnostics = []) :
    ExpressionSound ctx s store expr (bindTransfer ctx name expectedType returnPosition s).1 := by
  obtain ⟨-, i, e, hfound, -, -, -, heq⟩ := bindTransfer_accepted hacc
  obtain ⟨hget, hact, -⟩ := findLocal_spec hfound
  have hvalue := hagree.locals i e hget hact
  subst hexpression
  rw [heq]
  refine .bindRead fun v => ?_
  refine .bindUpdate (fun w => v = store (.declared i) ∧ Quiet ctx store w) ?_
    (.pure fun w hw => ?_)
  · rintro w ⟨rfl, hstore, huses⟩
    exact ⟨congrFun hstore _, hstore, usesAreTyped_cons (by simp) huses⟩
  · refine ⟨.of_typed rfl ?_, hw.2⟩
    rw [hw.1]
    exact hvalue

theorem negation_sound {operand : Expression} {v : BoundValue}
    (h : ExpressionSound ctx s store operand v) : ExpressionSound ctx s store (.negation operand)
      ⟨.bool, .negation v.boundNode, .none⟩ := by
  refine .bind h fun res => .pure fun w hw => ⟨⟨⟨_, rfl⟩, fun name heq => (by cases heq),
    fun heq => (by cases heq), fun way hres => hw.1.proves (!way) ?_⟩, hw.2⟩
  by_cases htrue : res = .bool true
  · subst htrue
    simp at hres
    simp [hres]
  · have hne : (res != .bool true) = true := by simpa using htrue
    simp only [hne, true_iff] at hres
    simp [hres, htrue]

theorem logical_sound {isAnd : Bool} {left right : Expression} {leftValue rightValue : BoundValue}
    (hleft : ExpressionSound ctx s store left leftValue)
    (hright : ProvenAt ctx s store (provenNames left isAnd) →
      ExpressionSound ctx s store right rightValue) (htype : rightValue.typeName = .bool) :
    ExpressionSound ctx s store (.logical isAnd left right)
      ⟨.bool, .logical isAnd leftValue.boundNode rightValue.boundNode, .none⟩ := by
  refine .bind hleft fun res => .of_fact fun hres => .ite (fun hpassed => ?_) fun hpassed => ?_
  · have hiff : res = .bool true ↔ isAnd = true := by
      rw [← hpassed]
      simp
    refine (hright (hres.proves isAnd hiff)).weakenPost ?_
    rintro v w ⟨hvalue, hw⟩
    refine ⟨⟨htype ▸ hvalue.typed, fun name heq => (by cases heq), fun heq => (by cases heq), ?_⟩, hw⟩
    intro way hwhen name hmem
    rw [provenNames] at hmem
    split at hmem
    · rename_i hsame
      obtain rfl : isAnd = way := eq_of_beq hsame
      rcases mem_append.mp hmem with hmem | hmem
      · exact hres.proves isAnd hiff name hmem
      · exact hvalue.proves isAnd hwhen name hmem
    · cases hmem
  · refine .pure fun w hw => ⟨⟨⟨_, rfl⟩, fun name heq => (by cases heq),
      fun heq => (by cases heq), ?_⟩, hw⟩
    intro way hwhen name hmem
    have hother : (isAnd == way) = false := by
      cases isAnd <;> cases way <;> simp at hwhen ⊢
    rw [provenNames, hother] at hmem
    cases hmem

theorem equality_sound {isEqual : Bool} {left right : Expression}
    {leftValue rightValue : BoundValue} (hleft : ExpressionSound ctx s store left leftValue)
    (hright : ExpressionSound ctx s store right rightValue) :
    ExpressionSound ctx s store (.equality isEqual left right)
      ⟨.bool, .equality isEqual leftValue.boundNode rightValue.boundNode, .none⟩ := by
  refine .bind hleft fun leftResult => .of_fact fun hleftResult => ?_
  refine .bind hright fun rightResult => .of_fact fun hrightResult => ?_
  refine .bind (.choose fun w same hw hsame => And.intro hsame hw) fun same => .of_fact fun hsame => ?_
  refine .pure fun w hw => ⟨⟨⟨_, rfl⟩, fun name heq => (by cases heq),
    fun heq => (by cases heq), ?_⟩, hw⟩
  intro way hwhen name hmem sym hsym
  rw [provenNames] at hmem
  split at hmem
  · rename_i hproves
    -- the comparison has failed, and one side is `null`
    have hsame' : same = false := by
      cases same <;> cases isEqual <;> cases way <;> simp at hwhen hproves ⊢
    rw [mem_toList] at hmem
    unfold comparedWithNull at hmem
    split at hmem
    · cases hmem
      have hnull : rightResult = .null := hrightResult.isNull rfl
      have hne := (hsame (.inr hnull)).symm.trans hsame'
      rw [hleftResult.reads _ rfl sym hsym, hnull] at hne
      exact of_decide_eq_false hne
    · cases hmem
      have hnull : leftResult = .null := hleftResult.isNull rfl
      have hne := (hsame (.inl hnull)).symm.trans hsame'
      rw [hrightResult.reads _ rfl sym hsym, hnull] at hne
      exact fun heq => of_decide_eq_false hne heq.symm
    · cases hmem
  · cases hmem

theorem ternary_sound {cond way whenFalse : Expression}
    {conditionValue trueValue falseValue : BoundValue} {joined : SemanticType}
    {identity : ResourceIdentity} (hcondition : ExpressionSound ctx s store cond conditionValue)
    (htrue : ProvenAt ctx s store (provenNames cond true) →
      ExpressionSound ctx s store way trueValue)
    (hfalse : ProvenAt ctx s store (provenNames cond false) →
      ExpressionSound ctx s store whenFalse falseValue)
    (hjoined : semanticTernaryType trueValue.typeName falseValue.typeName = some joined) :
    ExpressionSound ctx s store (.ternary cond way whenFalse)
      ⟨joined, .ternary joined conditionValue.boundNode trueValue.boundNode falseValue.boundNode,
        identity⟩ := by
  refine .bind hcondition fun res => .of_fact fun hres => .ite (fun hholds => ?_) fun hfails => ?_
  · refine (htrue (hres.proves true (by simp [hholds]))).weakenPost ?_
    rintro v w ⟨hvalue, hw⟩
    exact ⟨.of_typed rfl (.ternary hjoined (.inl hvalue.typed)), hw⟩
  · refine (hfalse (hres.proves false (by simp [hfails]))).weakenPost ?_
    rintro v w ⟨hvalue, hw⟩
    exact ⟨.of_typed rfl (.ternary hjoined (.inr hvalue.typed)), hw⟩

/-- The state is one in which expressions may be bound, and it is true of the store. -/
structure Ready (context : BodyContext) (s : BodyBinder) (store : Variable → Value) : Prop where
  flow : FlowBounded s
  shadow : NoShadow context s
  agrees : Agrees context s store

theorem Ready.keeps (h : Ready ctx s store) (hkeeps : Keeps s s') : Ready ctx s' store :=
  ⟨hkeeps.flowBounded h.flow, h.shadow.closed hkeeps.closed, h.agrees.keeps hkeeps⟩

/-- The state behind a condition that has been evaluated. -/
theorem Ready.narrowed (h : Ready ctx s store) (cond : Expression) (way : Bool)
    (hproven : ProvenAt ctx s store (provenNames cond way)) :
    Ready ctx (s.narrowed ctx cond way) store := by
  have hnarrows := narrows_applyConditionNarrowing ctx cond way s.enterFlow
  have hagrees : Agrees ctx s.enterFlow store := ⟨⟨h.agrees.parameters, h.agrees.locals⟩,
    h.agrees.narrowings⟩
  exact ⟨hnarrows.flowBounded (flowBounded_enterFlow h.flow),
    h.shadow.closed (closed_of_locals hnarrows.locals),
    agrees_narrowed cond way _ hagrees h.shadow hproven⟩

def ArgumentsSound (context : BodyContext) (store : Variable → Value)
    (arguments : BoundArguments) : Prop :=
  Triple (Quiet context store) (arguments.evalAll context.model) (fun _ => Quiet context store)
    (fun _ => Quiet context store)

theorem ArgumentsSound.result {arguments : BoundArguments}
    (h : ArgumentsSound ctx store arguments) :
    Triple (Quiet ctx store)
      (do arguments.evalAll ctx.model; anyValue ctx.model ty)
      (fun v w => HasType ctx.model v ty ∧ Quiet ctx store w)
      (fun _ => Quiet ctx store) := .bind h fun _ => triple_anyValue

theorem typed_sound {v : BoundValue} (hplain : expr.plain = true)
    (h : Triple (Quiet ctx store) (v.boundNode.eval ctx.model)
      (fun res w => HasType ctx.model res v.typeName ∧ Quiet ctx store w)
      (fun _ => Quiet ctx store)) : ExpressionSound ctx s store expr v :=
  h.weakenPost (fun _ _ hres => ⟨.of_typed hplain hres.1, hres.2⟩)

theorem propagation_sound {operand : Expression} {v : BoundValue}
    (h : ExpressionSound ctx s store operand v) : ExpressionSound ctx s store (.propagation operand)
      (bindPropagation ctx v t).1 := by
  refine typed_sound rfl ?_
  unfold bindPropagation
  split
  · exact .jump fun _ hw => hw
  · split
    · exact .jump fun _ hw => hw
    · exact .bind h fun _ => .either (triple_anyValue.strengthenPre (fun _ hw => hw.2)) (.jump fun _ hw => hw.2)

variable {bound : BoundValue × BodyBinder}

theorem transferable_sound (hagree : Agrees ctx s store)
    (hbound : bound.2.diagnostics = [] → ExpressionSound ctx s store expr bound.1) (hacc :
      (bindTransferable ctx expectedType expr bound s).2.diagnostics = []) :
    ExpressionSound ctx s store expr (bindTransferable ctx expectedType expr bound s).1 := by
  unfold bindTransferable at hacc ⊢
  split at hacc
  · rename_i name hname
    have hexpression : expr = .transfer name := by
      unfold Expression.transferredName at hname
      split at hname
      · cases hname
        rfl
      · cases hname
    exact transfer_sound hagree expr hexpression hacc
  · exact hbound hacc

theorem payloadValue_sound (hagree : Agrees ctx s store)
    (hbound : bound.2.diagnostics = [] → ExpressionSound ctx s store expr bound.1) (hacc :
      (bindPayloadValue ctx expectedType expr bound s).2.diagnostics = []) :
    ExpressionSound ctx s store expr (bindPayloadValue ctx expectedType expr bound s).1 := by
  unfold bindPayloadValue at hacc ⊢
  by_cases hreturn : s.returnTransferDepth > 0
  · rw [if_pos hreturn] at hacc ⊢
    exact transferable_sound hagree hbound hacc
  · rw [if_neg hreturn] at hacc ⊢
    exact hbound hacc

mutual

theorem bindExpression_sound (ctx : BodyContext) (store : Variable → Value) :
    (expr : Expression) → (s : BodyBinder) → Ready ctx s store →
    (bindExpression ctx expr s).2.diagnostics = [] →
    ExpressionSound ctx s store expr (bindExpression ctx expr s).1
  | .nullLiteral, s, _, _ => .pure fun w hw =>
    ⟨⟨rfl, fun _ heq => (by cases heq), fun _ => rfl, fun _ _ _ hmem => (by cases hmem)⟩, hw⟩
  | .boolLiteral v, s, _, _ => .pure fun w hw =>
    ⟨.of_typed rfl ⟨v, rfl⟩, hw⟩
  | .leaf ty, s, _, _ => typed_sound rfl triple_anyValue
  | .name name, s, hs, hacc => name_sound hs.agrees hs.shadow hacc
  | .transfer name, s, hs, hacc => transfer_sound hs.agrees (.transfer name) rfl hacc
  | .negation operand, s, hs, hacc => by
    obtain ⟨-, hoperand, -⟩ := reportIf_accepted hacc
    exact negation_sound (bindExpression_sound ctx store operand s hs hoperand)
  | .logical isAnd left right, s, hs, hacc => by
    obtain ⟨htypes, hright, -⟩ := reportIf_accepted hacc
    have hkeeps := bindExpression_keeps ctx left s hs.flow
    have hafter := hs.keeps hkeeps
    have hnarrows := narrows_applyConditionNarrowing ctx left isAnd
      (bindExpression ctx left s).2.enterFlow
    have hleft : (bindExpression ctx left s).2.diagnostics = [] := by
      have hinside := (bindExpression_keeps ctx right _
        (hnarrows.flowBounded (flowBounded_enterFlow hafter.flow))).accepted hright
      exact hnarrows.diagnostics.symm.trans hinside
    refine logical_sound (bindExpression_sound ctx store left s hs hleft) (fun hproven => ?_) ?_
    · exact (bindExpression_sound ctx store right _
        (hafter.narrowed left isAnd (hproven.closed hkeeps.closed)) hright).congr
        (hnarrows.locals.trans hkeeps.locals)
    · have hboth := Bool.or_eq_false_iff.mp htypes
      simpa using hboth.2
  | .equality isEqual left right, s, hs, hacc => by
    have hkeeps := bindExpression_keeps ctx left s hs.flow
    have hafter := hs.keeps hkeeps
    have hright : (bindExpression ctx right (bindExpression ctx left s).2).2.diagnostics =
        [] := reports_bindEquality.keeps.accepted hacc
    have hleft := (bindExpression_keeps ctx right _ hafter.flow).accepted hright
    exact equality_sound (bindExpression_sound ctx store left s hs hleft)
      ((bindExpression_sound ctx store right _ hafter hright).congr hkeeps.locals)
  | .ternary cond way whenFalse, s, hs, hacc => by
    obtain ⟨hjoined, hconditionType, -⟩ := reportIf_accepted hacc
    obtain ⟨-, hfalse, -⟩ := reportIf_accepted hconditionType
    obtain ⟨joined, hjoined⟩ := ne_none_iff_exists'.mp (isNone_eq_false_iff.mp hjoined
      |> isSome_iff_ne_none.mp)
    have hkeeps := bindExpression_keeps ctx cond s hs.flow
    have hafter := hs.keeps hkeeps
    have hthen := Keeps.leaveFlow ctx hafter.flow cond true
      (bindExpression_keeps ctx way _)
    have hrestored := hthen.trans
      (keeps_moves (length_restoreMoves (Nat.le_of_eq hthen.moves.symm)))
    have hagain := hafter.keeps hrestored
    have htrue := (Keeps.leaveFlow ctx hagain.flow cond false
      (bindExpression_keeps ctx whenFalse _)).accepted hfalse
    have hcondition := hthen.accepted htrue
    show ExpressionSound ctx s store _ (bindConditional ctx _ _ _ _).1
    unfold bindConditional
    rw [hjoined]
    refine ternary_sound (bindExpression_sound ctx store cond s hs hcondition)
      (fun hproven => ?_) (fun hproven => ?_) hjoined
    · exact (bindExpression_sound ctx store way _
        (hafter.narrowed cond true (hproven.closed hkeeps.closed)) htrue).congr
        ((locals_narrowed ..).trans hkeeps.locals)
    · exact (bindExpression_sound ctx store whenFalse _
        (hagain.narrowed cond false (hproven.closed (hkeeps.trans hrestored).closed)) hfalse).congr
        ((locals_narrowed ..).trans (hkeeps.trans hrestored).locals)
  | .propagation operand, s, hs, hacc =>
    propagation_sound (bindExpression_sound ctx store operand s hs
      (reports_bindPropagation.keeps.accepted hacc))
  | .construct sym caseName payload, s, hs, hacc => by
    unfold bindExpression at hacc ⊢
    split at hacc
    · exact .jump fun _ hw => hw
    · refine typed_sound rfl (ArgumentsSound.result ?_)
      exact bindPayload_sound ctx store caseName 0 _ payload _
        (hs.keeps reports_reportIf.keeps) hacc
  | .operation ty operands, s, hs, hacc =>
    typed_sound rfl (bindOperands_sound ctx store operands s hs hacc).result

theorem bindOperands_sound (ctx : BodyContext) (store : Variable → Value) :
    (arguments : Arguments) → (s : BodyBinder) → Ready ctx s store →
    (bindOperands ctx arguments s).2.diagnostics = [] →
    ArgumentsSound ctx store (bindOperands ctx arguments s).1
  | .nil, _, _, _ => .pure fun _ hw => hw
  | .cons first rest, s, hs, hacc => by
    have hafter := hs.keeps (bindExpression_keeps ctx first s hs.flow)
    have hfirst := (bindOperands_keeps ctx rest _ hafter.flow).accepted hacc
    exact .bind (bindExpression_sound ctx store first s hs hfirst) fun _ =>
      (bindOperands_sound ctx store rest _ hafter hacc).strengthenPre (fun _ hw => hw.2)

theorem bindPayload_sound (ctx : BodyContext) (store : Variable → Value) (caseName : String)
    (i : Nat) (expected : List SemanticType) :
    (arguments : Arguments) → (s : BodyBinder) → Ready ctx s store →
    (bindPayload ctx caseName i expected arguments s).2.diagnostics = [] →
    ArgumentsSound ctx store (bindPayload ctx caseName i expected arguments s).1
  | .nil, _, _, _ => .pure fun _ hw => hw
  | .cons first rest, s, hs, hacc => by
    have hfirst := keeps_bindPayloadValue (bindExpression_keeps ctx first s hs.flow) ctx
      expected.head? first
    have hafter : Ready ctx (checkPayload ctx caseName i expected.head? first.transferredName.isSome
        (bindPayloadValue ctx expected.head? first (bindExpression ctx first s) s).1 _) store :=
      hs.keeps (hfirst.then_reports reports_checkPayload)
    have haccepted' := reports_checkPayload.keeps.accepted
      ((bindPayload_keeps ctx caseName (i + 1) expected.tail rest _ hafter.flow).accepted hacc)
    exact .bind (payloadValue_sound hs.agrees (bindExpression_sound ctx store first s hs)
      haccepted') fun _ =>
      (bindPayload_sound ctx store caseName (i + 1) expected.tail rest _ hafter
        hacc).strengthenPre (fun _ hw => hw.2)

end

end Neri.Semantic
