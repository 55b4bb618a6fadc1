import Neri.Semantic.Abstract
import Neri.Semantic.Proofs.HierarchyProofs

/-!
# Concrete classes implement what they inherit

On an acyclic hierarchy the validation leaves on every class the list that its line of base classes
determines, in whatever order the classes are visited. An abstract method stays on the list from the
class that declares it down to a class that implements it.
-/

namespace Neri.Semantic

open Lines List

variable {model : SemanticModel}
variable {r a : SemanticCallable} {state : AbstractState} {inProgress : String → Prop}
  {c : SemanticClass} {l : List SemanticClass}

/-! ## The list of a line -/

/-- Two methods of one name with compatible signatures. -/
def Matches (left right : SemanticCallable) : Prop :=
  left.name = right.name ∧ compatibleMethods left right false = true

theorem matches_iff (left right : SemanticCallable) : Matches left right ↔
      left.name = right.name ∧ left.signature = right.signature ∧
        left.isReadonly = right.isReadonly := by
  unfold Matches compatibleMethods SemanticCallable.signature
  simp only [Bool.and_eq_true, Bool.or_eq_true, beq_iff_eq, Bool.false_and, Bool.false_eq_true,
    or_false, compatibleParameters_iff, Prod.mk.injEq]
  constructor
  · rintro ⟨hname, ⟨⟨⟨haccess, hunsafe⟩, hreadonly⟩, hreturn⟩, hparameters⟩
    exact ⟨hname, ⟨haccess, hunsafe, hreturn, hparameters⟩, hreadonly⟩
  · rintro ⟨hname, ⟨haccess, hunsafe, hreturn, hparameters⟩, hreadonly⟩
    exact ⟨hname, ⟨⟨⟨haccess, hunsafe⟩, hreadonly⟩, hreturn⟩, hparameters⟩

theorem Matches.refl (m : SemanticCallable) : Matches m m :=
  (matches_iff m m).mpr ⟨rfl, rfl, rfl⟩

theorem Matches.trans {m₁ m₂ m₃ : SemanticCallable} (h : Matches m₁ m₂) (h' : Matches m₂ m₃) :
    Matches m₁ m₃ := by
  rw [matches_iff] at *
  exact ⟨h.1.trans h'.1, h.2.1.trans h'.2.1, h.2.2.trans h'.2.2⟩

/-- The list that a class has after its methods, by its line. -/
def openMethods : List SemanticClass → List SemanticCallable
  | [] => []
  | c :: line => c.methods.foldl meetObligations (copyAbstractRequirements [] (openMethods line))

/-- The method implements the requirement. -/
def Implements (method required : SemanticCallable) : Prop :=
  method.isAbstract = false ∧ method.isStatic = false ∧ Matches method required

variable {method : SemanticCallable}

theorem Implements.trans {required : SemanticCallable} (h : Implements method required)
    (h' : Matches required r) : Implements method r :=
  ⟨h.1, h.2.1, h.2.2.trans h'⟩

theorem mem_copyAbstractRequirements (target source : List SemanticCallable) :
    r ∈ copyAbstractRequirements target source ↔ r ∈ source ∨ r ∈ target := by
  unfold copyAbstractRequirements
  induction source generalizing target with
  | nil => simp
  | cons s source ih =>
    rw [foldl_cons, ih, mem_cons, mem_cons]
    tauto

/-- A requirement stays, is taken over by a matching one, or is implemented. -/
theorem matchRequirement_keeps {requirements res}
    (h : matchRequirement method requirements = some res) (hr : r ∈ requirements) :
    (∃ r' ∈ res, Matches r' r) ∨ Implements method r := by
  fun_induction matchRequirement method requirements generalizing res with
  | case1 => cases h
  | case2 required rest hmatch =>
    cases h
    simp only [Bool.and_eq_true, Bool.not_eq_true', beq_iff_eq] at hmatch
    obtain ⟨⟨⟨hstatic, -⟩, hname⟩, hcompatible⟩ := hmatch
    rcases mem_cons.mp hr with rfl | hr
    · by_cases habstract : method.isAbstract = true
      · rw [if_pos habstract]
        exact .inl ⟨method, mem_cons_self, hname.symm, hcompatible⟩
      · rw [Bool.not_eq_true] at habstract
        exact .inr ⟨habstract, hstatic, hname.symm, hcompatible⟩
    · refine .inl ⟨r, ?_, .refl r⟩
      split
      · exact mem_cons_of_mem _ hr
      · exact hr
  | case3 required rest _ ih =>
    obtain ⟨kept, hkept, rfl⟩ := Option.map_eq_some_iff.mp h
    rcases mem_cons.mp hr with rfl | hr
    · exact .inl ⟨r, mem_cons_self, .refl r⟩
    · rcases ih hkept hr with ⟨r', hr', hmatches⟩ | himplements
      · exact .inl ⟨r', mem_cons_of_mem _ hr', hmatches⟩
      · exact .inr himplements

variable {requirements : List SemanticCallable}

theorem meetObligations_keeps (method : SemanticCallable)
    (hr : r ∈ requirements) :
    (∃ r' ∈ meetObligations requirements method, Matches r' r) ∨ Implements method r := by
  unfold meetObligations
  split
  next res hresult => exact matchRequirement_keeps hresult hr
  next =>
    refine .inl ⟨r, ?_, .refl r⟩
    split
    · exact mem_cons_of_mem _ hr
    · exact hr

theorem foldl_meetObligations_keeps (methods : List SemanticCallable)
    (hr : r ∈ requirements) :
    (∃ r' ∈ methods.foldl meetObligations requirements, Matches r' r) ∨
      ∃ method ∈ methods, Implements method r := by
  induction methods generalizing requirements r with
  | nil => exact .inl ⟨r, hr, .refl r⟩
  | cons method methods ih =>
    rcases meetObligations_keeps method hr with ⟨r₁, hr₁, hmatches⟩ | himplements
    · rcases ih hr₁ with ⟨r₂, hr₂, hmatches'⟩ | ⟨m, hm, himplements⟩
      · exact .inl ⟨r₂, hr₂, hmatches'.trans hmatches⟩
      · exact .inr ⟨m, mem_cons_of_mem _ hm, himplements.trans hmatches⟩
    · exact .inr ⟨method, mem_cons_self, himplements⟩

/-- An abstract method is on the list once it has been passed. -/
theorem mem_meetObligations_of_abstract
    (habstract : method.isAbstract = true) (requirements : List SemanticCallable) :
    method ∈ meetObligations requirements method := by
  have hmatched : ∀ requirements res, matchRequirement method requirements = some res →
      method ∈ res := by
    intro requirements res h
    fun_induction matchRequirement method requirements generalizing res with
    | case1 => cases h
    | case2 required rest _ =>
      cases h
      rw [if_pos habstract]
      exact mem_cons_self
    | case3 required rest _ ih =>
      obtain ⟨kept, hkept, rfl⟩ := Option.map_eq_some_iff.mp h
      exact mem_cons_of_mem _ (ih kept hkept)
  unfold meetObligations
  split
  next res hresult => exact hmatched requirements res hresult
  next => rw [if_pos habstract]; exact mem_cons_self

/-- A class leaves its own abstract methods open: it declares no other method of the name. -/
theorem open_of_declared {methods : List SemanticCallable}
    (hnodup : (methods.map (·.name)).Nodup) (ha : a ∈ methods)
    (habstract : a.isAbstract = true) (requirements : List SemanticCallable) :
    ∃ r ∈ methods.foldl meetObligations requirements, Matches r a := by
  obtain ⟨pre, after, rfl⟩ := append_of_mem ha
  rw [foldl_append]
  rcases foldl_meetObligations_keeps after (mem_meetObligations_of_abstract habstract _) with
    hopen | ⟨m, hm, himplements⟩
  · exact hopen
  · rw [map_append, map_cons, nodup_append] at hnodup
    have hfresh := (nodup_cons.mp hnodup.2.1).1
    exact absurd (himplements.2.2.1 ▸ mem_map_of_mem hm) hfresh

/-- The class at position `i` of the line declares the method abstract. -/
def DeclaresAbstract (classes : List SemanticClass) (a : SemanticCallable) (i : Nat) : Prop :=
  ∃ c, classes[i]? = some c ∧ ∃ r ∈ c.methods, r.isAbstract = true ∧ Matches r a

/-- From a class that declares a method abstract, the method stays open or is implemented below. -/
theorem open_or_implemented {classes : List SemanticClass}
    (hnodup : ∀ c ∈ classes, (c.methods.map (·.name)).Nodup) {n : Nat}
    (hdeclares : DeclaresAbstract classes a n) : (∃ r ∈ openMethods classes, Matches r a) ∨
      ∃ j < n, ∃ c, classes[j]? = some c ∧ ∃ m ∈ c.methods, Implements m a := by
  induction classes generalizing n with
  | nil =>
    obtain ⟨c, hc, -⟩ := hdeclares
    cases hc
  | cons c classes ih =>
    cases n with
    | zero =>
      obtain ⟨k, hk, r, hr, habstract, hmatches⟩ := hdeclares
      cases hk
      obtain ⟨r', hr', hmatches'⟩ := open_of_declared (hnodup c mem_cons_self) hr habstract
        (copyAbstractRequirements [] (openMethods classes))
      exact .inl ⟨r', hr', hmatches'.trans hmatches⟩
    | succ n =>
      have hdeclares' : DeclaresAbstract classes a n := hdeclares
      rcases ih (fun k hk => hnodup k (mem_cons_of_mem _ hk)) hdeclares' with
        ⟨r, hr, hmatches⟩ | ⟨j, hj, k, hk, m, hm, himplements⟩
      · have hcopied := (mem_copyAbstractRequirements [] (openMethods classes)).mpr (.inl hr)
        rcases foldl_meetObligations_keeps c.methods hcopied with
          ⟨r', hr', hmatches'⟩ | ⟨m, hm, himplements⟩
        · exact .inl ⟨r', hr', hmatches'.trans hmatches⟩
        · exact .inr ⟨0, Nat.succ_pos n, c, rfl, m, hm, himplements.trans hmatches⟩
      · exact .inr ⟨j + 1, by omega, k, hk, m, hm, himplements⟩

/-! ## The visits -/

variable (state)

@[simp] theorem started_setRequirements (name full : String)
    (requirements : List SemanticCallable) :
    (state.setRequirements name requirements).started full =
      (full == name || state.started full) := by
  unfold AbstractState.started AbstractState.setRequirements
  rw [lookup_cons]
  split <;> simp_all

@[simp] theorem requirementsOf_setRequirements (name full : String)
    (requirements : List SemanticCallable) :
    (state.setRequirements name requirements).requirementsOf full =
      if full = name then requirements else state.requirementsOf full := by
  unfold AbstractState.requirementsOf AbstractState.setRequirements
  rw [lookup_cons]
  split <;> simp_all

@[simp] theorem started_reportPending (c : SemanticClass)
    (requirements : List SemanticCallable) (name : String) :
    (reportPending state c requirements).started name = state.started name := by
  unfold reportPending
  split
  · split <;> rfl
  · rfl

@[simp] theorem requirementsOf_reportPending (c : SemanticClass)
    (requirements : List SemanticCallable) (name : String) :
    (reportPending state c requirements).requirementsOf name = state.requirementsOf name := by
  unfold reportPending
  split
  · split <;> rfl
  · rfl

theorem diagnostics_reportPending (c : SemanticClass) (requirements : List SemanticCallable) :
    (reportPending state c requirements).diagnostics = [] ↔
      state.diagnostics = [] ∧ (c.isAbstract = false → requirements = []) := by
  unfold reportPending
  split
  · split <;> simp_all [AbstractState.report]
  · simp

variable {state}

/-- The validation has dealt with the class at the head of the line. -/
structure Validated (state : AbstractState) (c : SemanticClass) (l : List SemanticClass) : Prop where
  requirements : state.requirementsOf c.fullName = openMethods (c :: l)
  reported : state.diagnostics = [] → c.isAbstract = false → openMethods (c :: l) = []

/-- Every class that has been started and is not in progress has been dealt with. -/
def AllValidated (model : SemanticModel) (state : AbstractState) (inProgress : String → Prop) :
    Prop :=
  ∀ c ∈ model.classes, ∀ l, Line model.baseOf c l → ¬inProgress c.fullName →
    state.started c.fullName = true → Validated state c l

/-- What a visit leaves of the state before it. -/
structure Extends (before after : AbstractState) (inProgress : String → Prop) : Prop where
  started : ∀ name, before.started name = true → after.started name = true
  diagnostics : after.diagnostics = [] → before.diagnostics = []
  kept : ∀ name, inProgress name → after.requirementsOf name = before.requirementsOf name

/-- A visit has dealt with the class and leaves those in progress alone. -/
structure Visited (model : SemanticModel) (before after : AbstractState) (c : SemanticClass)
    (inProgress : String → Prop) : Prop extends Extends before after inProgress where
  validated : AllValidated model after inProgress
  visited : after.started c.fullName = true

theorem allValidated_start (h : AllValidated model state inProgress) (name : String) :
    AllValidated model (state.setRequirements name []) fun n => inProgress n ∨ n = name := by
  intro k hk l hline hprogress hstarted
  have hne : k.fullName ≠ name := fun heq => hprogress (.inr heq)
  have hstarted' : state.started k.fullName = true := by simpa [hne] using hstarted
  have hdone := h k hk l hline (fun hp => hprogress (.inl hp)) hstarted'
  refine ⟨?_, hdone.reported⟩
  rw [requirementsOf_setRequirements, if_neg hne]
  exact hdone.requirements

/-- Finishing a class whose base classes have been dealt with. -/
theorem finishObligations_spec (h : AcyclicClasses model) (hc : c ∈ model.classes)
    (hline : Line model.baseOf c l)
    (hvalidated : AllValidated model state fun n => inProgress n ∨ n = c.fullName)
    (hempty : state.requirementsOf c.fullName = []) (hfree : ¬inProgress c.fullName) :
    Visited model state (finishObligations state c (openMethods l)) c inProgress := by
  have hopen : remainingObligations state c (openMethods l) = openMethods (c :: l) := by
    unfold remainingObligations
    rw [hempty]
    rfl
  unfold finishObligations
  rw [hopen]
  have hdiag := diagnostics_reportPending (state.setRequirements c.fullName (openMethods (c :: l)))
    c (openMethods (c :: l))
  refine ⟨?_, ?_, by simp⟩
  · refine ⟨fun name hname => by simp [hname], fun hnone => (hdiag.mp hnone).1, ?_⟩
    intro name hname
    have hne : name ≠ c.fullName := fun heq => hfree (heq ▸ hname)
    simp [hne]
  · intro k hk l' hline' hprogress hstarted
    by_cases heq : k = c
    · subst heq
      obtain rfl := hline'.unique hline
      exact ⟨by simp, fun hnone => (hdiag.mp hnone).2⟩
    · have hne : k.fullName ≠ c.fullName := fun hname => heq (h.eq_of_fullName hk hc hname)
      have hstarted' : state.started k.fullName = true := by simpa [hne] using hstarted
      have hdone := hvalidated k hk l' hline' (fun hp => hp.elim hprogress hne) hstarted'
      refine ⟨?_, fun hnone => hdone.reported (hdiag.mp hnone).1⟩
      simpa [hne] using hdone.requirements

theorem validateAbstractClassObligations_started
    {c : { c // c ∈ model.classes }} (h : state.started c.1.fullName = true) :
    validateAbstractClassObligations model state c = state := by
  unfold validateAbstractClassObligations
  rw [dif_neg (by simp [h])]

theorem validateAbstractClassObligations_root
    {c : { c // c ∈ model.classes }} (h : state.started c.1.fullName = false)
    (hbase : model.baseOf c.1 = none) : validateAbstractClassObligations model state c =
      finishObligations (state.setRequirements c.1.fullName []) c.1 [] := by
  unfold validateAbstractClassObligations
  rw [dif_pos h]
  split
  · rfl
  next base hsome => cases hbase.symm.trans hsome

theorem validateAbstractClassObligations_derived
    {c : { c // c ∈ model.classes }} (h : state.started c.1.fullName = false) {base : SemanticClass}
    (hbase : model.baseOf c.1 = some base) : validateAbstractClassObligations model state c =
      finishObligations
        (validateAbstractClassObligations model (state.setRequirements c.1.fullName [])
          ⟨base, SemanticModel.findClass_mem hbase⟩) c.1
        ((validateAbstractClassObligations model (state.setRequirements c.1.fullName [])
          ⟨base, SemanticModel.findClass_mem hbase⟩).requirementsOf base.fullName) := by
  rw [validateAbstractClassObligations, dif_pos h]
  split
  next hnone => cases hbase.symm.trans hnone
  next base' hsome =>
    cases hbase.symm.trans hsome
    rfl

theorem Extends.refl (state : AbstractState) : Extends state state inProgress :=
  ⟨fun _ h => h, fun h => h, fun _ _ => rfl⟩

theorem Extends.trans {a b c : AbstractState}
    (h : Extends a b inProgress) (h' : Extends b c inProgress) : Extends a c inProgress :=
  ⟨fun name hname => h'.started name (h.started name hname),
    fun hnone => h.diagnostics (h'.diagnostics hnone),
    fun name hname => (h'.kept name hname).trans (h.kept name hname)⟩

theorem extends_start {name : String}
    (hfree : ¬inProgress name) : Extends state (state.setRequirements name []) inProgress := by
  refine ⟨fun n hn => by simp [hn], fun hnone => hnone, fun n hn => ?_⟩
  have hne : n ≠ name := fun heq => hfree (heq ▸ hn)
  simp [hne]

/-- A visit deals with the class and its base classes and leaves those in progress alone. -/
theorem validateAbstractClassObligations_spec (h : AcyclicClasses model)
    (hline : Line model.baseOf c l) (hc : c ∈ model.classes) (state : AbstractState) (inProgress : String → Prop)
    (hfree : ∀ k ∈ c :: l, ¬inProgress k.fullName)
    (hvalidated : AllValidated model state inProgress) :
    Visited model state (validateAbstractClassObligations model state ⟨c, hc⟩) c inProgress := by
  -- the recursion follows the line; what is below a class is in progress while it is visited
  induction hline generalizing state inProgress with
  | @last c hbase =>
    have hself := hfree c mem_cons_self
    by_cases hstarted : state.started c.fullName = true
    · rw [validateAbstractClassObligations_started hstarted]
      exact ⟨.refl state, hvalidated, hstarted⟩
    · rw [Bool.not_eq_true] at hstarted
      rw [validateAbstractClassObligations_root hstarted hbase]
      obtain ⟨hextends, hall, hdone⟩ := finishObligations_spec h hc (.last hbase)
        (allValidated_start hvalidated c.fullName) (by simp) hself
      exact ⟨(extends_start hself).trans hextends, hall, hdone⟩
  | @step c b l hbase rest ih =>
    have hself := hfree c mem_cons_self
    by_cases hstarted : state.started c.fullName = true
    · rw [validateAbstractClassObligations_started hstarted]
      exact ⟨.refl state, hvalidated, hstarted⟩
    · rw [Bool.not_eq_true] at hstarted
      have hb := SemanticModel.findClass_mem hbase
      have hnodup := (Line.step hbase rest).nodup
      have hfree' : ∀ k ∈ b :: l, ¬(inProgress k.fullName ∨ k.fullName = c.fullName) := by
        rintro k hk (hprogress | hname)
        · exact hfree k (mem_cons_of_mem _ hk) hprogress
        · have hkm := mem_of_line hb rest hk
          rw [h.eq_of_fullName hkm hc hname] at hk
          exact (nodup_cons.mp hnodup).1 hk
      obtain ⟨hextends, hall, hdone⟩ := ih hb (state.setRequirements c.fullName []) _ hfree'
        (allValidated_start hvalidated c.fullName)
      rw [validateAbstractClassObligations_derived hstarted hbase]
      have hinherited := (hall b hb l rest (hfree' b mem_cons_self) hdone).requirements
      rw [hinherited]
      have hempty := hextends.kept c.fullName (.inr rfl)
      rw [requirementsOf_setRequirements, if_pos rfl] at hempty
      obtain ⟨hextends', hall', hdone'⟩ := finishObligations_spec h hc (.step hbase rest) hall
        hempty hself
      refine ⟨(extends_start hself).trans (.trans ?_ hextends'), hall', hdone'⟩
      exact ⟨hextends.started, hextends.diagnostics, fun n hn => hextends.kept n (.inl hn)⟩

theorem validateAbstractClasses_spec (h : AcyclicClasses model)
    (hc : c ∈ model.classes) (hline : Line model.baseOf c l) :
    Validated (validateAbstractClasses model) c l := by
  have hrun : ∀ (visits : List { c // c ∈ model.classes }) (state : AbstractState),
      AllValidated model state (fun _ => False) →
      ∃ after, visits.foldl (validateAbstractClassObligations model) state = after ∧
        AllValidated model after (fun _ => False) ∧ Extends state after (fun _ => False) ∧
        ∀ k ∈ visits, after.started k.1.fullName = true := by
    intro visits
    induction visits with
    | nil =>
      intro state hall
      exact ⟨state, rfl, hall, .refl state, by simp⟩
    | cons k visits ih =>
      intro state hall
      obtain ⟨l, hline⟩ := h.acyclic k.1 k.2
      obtain ⟨hextends, hall', hdone⟩ := validateAbstractClassObligations_spec h hline k.2 state
        (fun _ => False) (fun _ _ => id) hall
      obtain ⟨after, hafter, hall'', hextends', hvisits⟩ := ih _ hall'
      exact ⟨after, hafter, hall'', hextends.trans hextends',
        forall_mem_cons.mpr ⟨hextends'.started _ hdone, hvisits⟩⟩
  have hinit : AllValidated model {} fun _ => False := by
    intro k _ l _ _ hstarted
    cases hstarted
  obtain ⟨after, hafter, hall, -, hvisited⟩ := hrun model.classes.attach {} hinit
  rw [validateAbstractClasses, hafter]
  exact hall c hc l hline id (hvisited ⟨c, hc⟩ (mem_attach _ _))

/-- In an accepted model a class that is not abstract implements every abstract method of its line
below the nearest class that declares the method abstract. -/
theorem validateAbstractClasses_no_holes (model : SemanticModel) (h : AcyclicClasses model)
    (haccepted : (validateAbstractClasses model).diagnostics = []) {c : SemanticClass}
    (hc : c ∈ model.classes) (hconcrete : c.isAbstract = false) {l : List SemanticClass}
    (hline : Line model.baseOf c l) {i : Nat} {k : SemanticClass} (hk : (c :: l)[i]? = some k)
    {a : SemanticCallable} (ha : a ∈ k.methods) (habstract : a.isAbstract = true) :
    ∃ n ≤ i, DeclaresAbstract (c :: l) a n ∧ (∀ p < n, ¬DeclaresAbstract (c :: l) a p) ∧
      ∃ j < n, ∃ k', (c :: l)[j]? = some k' ∧ ∃ m ∈ k'.methods,
        m.isAbstract = false ∧ m.isStatic = false ∧ m.name = a.name ∧
          compatibleMethods m a false = true := by
  classical
  have hexists : ∃ n, DeclaresAbstract (c :: l) a n := ⟨i, k, hk, a, ha, habstract, .refl a⟩
  have hnearest := Nat.find_spec hexists
  refine ⟨Nat.find hexists, Nat.find_min' hexists ⟨k, hk, a, ha, habstract, .refl a⟩, hnearest,
    fun p hp => Nat.find_min hexists hp, ?_⟩
  have hnone := (validateAbstractClasses_spec h hc hline).reported haccepted hconcrete
  have hnodup : ∀ k ∈ c :: l, (k.methods.map (·.name)).Nodup :=
    fun k hk => h.methodNames k (mem_of_line hc hline hk)
  rcases open_or_implemented hnodup hnearest with ⟨r, hr, -⟩ | ⟨j, hj, k', hk', m, hm, himplements⟩
  · rw [hnone] at hr
    exact absurd hr not_mem_nil
  · exact ⟨j, hj, k', hk', m, hm, himplements.1, himplements.2.1, himplements.2.2.1,
      himplements.2.2.2⟩

def shapeArea : SemanticCallable :=
  { fullName := "Shape.area"
    name := "area"
    className := "Shape"
    returnType := "Float"
    isAbstract := true }

/-- The class that declares it. -/
def shapeClass : SemanticClass :=
  { fullName := "Shape"
    isAbstract := true
    methods := [shapeArea] }

/-- A class that implements it. -/
def squareClass : SemanticClass :=
  { fullName := "Square"
    baseName := "Shape"
    methods :=
      [{ fullName := "Square.area"
         name := "area"
         className := "Square"
         returnType := "Float" }] }

def shapeModel : SemanticModel := { classes := [squareClass, shapeClass] }

theorem validateAbstractClasses_no_holes_shape :
    ∃ n ≤ 1, DeclaresAbstract [squareClass, shapeClass] shapeArea n ∧
      (∀ p < n, ¬DeclaresAbstract [squareClass, shapeClass] shapeArea p) ∧
      ∃ j < n, ∃ k', [squareClass, shapeClass][j]? = some k' ∧ ∃ m ∈ k'.methods,
        m.isAbstract = false ∧ m.isStatic = false ∧ m.name = shapeArea.name ∧
          compatibleMethods m shapeArea false = true := by
  have hline : Line shapeModel.baseOf squareClass [shapeClass] := .step rfl (.last rfl)
  have hclasses : AcyclicClasses shapeModel := by
    refine ⟨by decide, by decide, ?_⟩
    intro c hc
    rcases mem_cons.mp hc with rfl | hc
    · exact ⟨[shapeClass], hline⟩
    · rw [mem_singleton.mp hc]
      exact ⟨[], .last rfl⟩
  exact validateAbstractClasses_no_holes shapeModel hclasses (by decide +kernel)
    mem_cons_self rfl hline (i := 1) (k := shapeClass) rfl (a := shapeArea)
    mem_cons_self rfl

end Neri.Semantic
