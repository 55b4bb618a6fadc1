import Neri.Ir.Partition

/-!
# Units define everything once and declare what they refer to

Placing definitions is a grouping by keys, so every definition is in the one unit of its key. The names
that a unit has to declare grow by passes until one adds nothing: they hold what its definitions refer
to, and they are closed under the references of the declarations. The place of a function only depends
on its own source, on the entry source and on what its source declares.
-/

namespace Neri.Ir

open Neri.Semantic Worklist Grouping List

variable {references : List Reference} {f : IrFunction} {consumerOwner : String}

/-! ## Names of references -/

def addNames (names more : List String) : List String := more.foldl addRetainedName names

theorem addNames_append (names first second : List String) :
    addNames names (first ++ second) = addNames (addNames names first) second :=
  foldl_append

mutual

theorem addRetainedType_eq : ∀ (s : RetainedNames) (typeName : IrType),
    ∃ features, addRetainedType s typeName =
      { s with classes := addNames s.classes (typeReferences typeName), features := features }
  | s, .classType name => ⟨_, rfl⟩
  | s, .nativeRecord name => ⟨_, rfl⟩
  | s, .fixedArray elem count => addRetainedType_eq _ elem
  | s, .array elem => addRetainedType_eq _ elem
  | s, .optional elem => addRetainedType_eq _ elem
  | s, .pointer elem => addRetainedType_eq _ elem
  | s, .scalar kind => ⟨_, rfl⟩
  | s, .borrowCapability elem => ⟨_, rfl⟩
  | s, .cFunction result parameters => by
    obtain ⟨features, hresult⟩ := addRetainedType_eq
      { s with features := requireType s.features (.cFunction result parameters) } result
    obtain ⟨features', hparameters⟩ := addRetainedTypes_eq
      { s with classes := addNames s.classes (typeReferences result), features := features } parameters
    refine ⟨features', ?_⟩
    rw [addRetainedType, hresult, hparameters, typeReferences, addNames_append]

theorem addRetainedTypes_eq : ∀ (s : RetainedNames) (types : List IrType),
    ∃ features, addRetainedTypes s types =
      { s with classes := addNames s.classes (typesReferences types), features := features }
  | s, [] => ⟨s.features, rfl⟩
  | s, first :: rest => by
    obtain ⟨features, hfirst⟩ := addRetainedType_eq s first
    obtain ⟨features', hrest⟩ := addRetainedTypes_eq
      { s with classes := addNames s.classes (typeReferences first), features := features } rest
    refine ⟨features', ?_⟩
    rw [addRetainedTypes, hfirst, hrest, typesReferences, addNames_append]

end

/-- The names of functions, or those of classes. -/
def RetainedNames.names (s : RetainedNames) : Bool → List String
  | true => s.functions
  | false => s.classes

def Reference.names (reference : Reference) : Bool → List String
  | true => reference.functions
  | false => reference.classes

theorem names_addReference (ofFunctions : Bool) (s : RetainedNames) (ref : Reference) :
    (addReference s ref).names ofFunctions =
      addNames (s.names ofFunctions) (ref.names ofFunctions) := by
  cases ref with
  | toFunction name => cases ofFunctions <;> rfl
  | toClass name => cases ofFunctions <;> rfl
  | toType typeName =>
    obtain ⟨features, heq⟩ := addRetainedType_eq s typeName
    rw [addReference, heq]
    cases ofFunctions <;> rfl

variable {α β : Type}

/-- What a loop collects in a part of its state, from what one step adds to it. -/
theorem foldl_collects {σ : Type} {part : σ → List β} {step : σ → α → σ} {of : α → List β}
    {add : List β → β → List β} (hstep : ∀ s item, part (step s item) = (of item).foldl add (part s))
    (items : List α) : ∀ s, part (items.foldl step s) = (items.flatMap of).foldl add (part s) := by
  induction items with
  | nil => exact fun _ => rfl
  | cons item rest ih =>
    intro s
    rw [foldl_cons, ih, hstep, flatMap_cons, foldl_append]

theorem names_foldl_addReference (ofFunctions : Bool) (references : List Reference)
    (s : RetainedNames) : (references.foldl addReference s).names ofFunctions =
      addNames (s.names ofFunctions) (references.flatMap (·.names ofFunctions)) :=
  @foldl_collects _ _ _ (·.names ofFunctions) _ _ _ (names_addReference ofFunctions) references s

theorem addRetainedName_eq (names : List String) (name : String) :
    addRetainedName names name = enqueueAll names ([name].filter (· ≠ "")) := by
  unfold addRetainedName
  by_cases hname : name = ""
  · simp [hname, enqueueAll]
  · simp [hname, enqueueAll]

theorem addNames_eq (more : List String) : ∀ names : List String,
    addNames names more = enqueueAll names (more.filter (· ≠ "")) := by
  induction more with
  | nil => exact fun _ => rfl
  | cons name rest ih =>
    intro names
    rw [addNames, foldl_cons, ← addNames, ih, addRetainedName_eq, enqueueAll, enqueueAll,
      enqueueAll, ← foldl_append, ← filter_append, singleton_append]

theorem mem_addNames {names more : List String} {name : String} :
    name ∈ addNames names more ↔ name ∈ names ∨ (name ∈ more ∧ name ≠ "") := by
  rw [addNames_eq, mem_enqueueAll, mem_filter]
  simp

theorem nodup_addNames {names : List String} (h : names.Nodup) (more : List String) :
    (addNames names more).Nodup := by
  rw [addNames_eq]
  exact nodup_enqueueAll _ h

theorem isPrefix_addNames (names more : List String) : names <+: addNames names more := by
  rw [addNames_eq]
  obtain ⟨added, hadded⟩ := enqueueAll_eq_append (more.filter (· ≠ "")) names
  exact ⟨added, hadded.symm⟩

/-! ## The names that come up -/

def RetainedNames.Extends (s t : RetainedNames) : Prop :=
  ∀ ofFunctions, s.names ofFunctions <+: t.names ofFunctions

section Extends

variable {s t u : RetainedNames}

theorem RetainedNames.Extends.functions (h : s.Extends t) : s.functions <+: t.functions := h true

theorem RetainedNames.Extends.classes (h : s.Extends t) : s.classes <+: t.classes := h false

theorem RetainedNames.Extends.refl (s : RetainedNames) : s.Extends s := fun _ => prefix_rfl

theorem RetainedNames.Extends.trans (h : s.Extends t) (h' : t.Extends u) : s.Extends u :=
  fun ofFunctions => (h ofFunctions).trans (h' ofFunctions)

end Extends

theorem extends_foldl_addReference (s : RetainedNames) (references : List Reference) :
    s.Extends (references.foldl addReference s) := by
  intro ofFunctions
  rw [names_foldl_addReference]
  exact isPrefix_addNames ..

def RetainedNames.Holds (s : RetainedNames) (reference : Reference) : Prop :=
  ∀ ofFunctions, ∀ name ∈ reference.names ofFunctions, name ≠ "" → name ∈ s.names ofFunctions

variable {s : RetainedNames}

theorem RetainedNames.Holds.extends {t : RetainedNames} {ref : Reference}
    (h : s.Holds ref) (hext : s.Extends t) : t.Holds ref :=
  fun ofFunctions name hname hne => (hext ofFunctions).subset (h ofFunctions name hname hne)

theorem holds_foldl_addReference (s : RetainedNames)
    {ref : Reference} (hreference : ref ∈ references) :
    (references.foldl addReference s).Holds ref := by
  intro ofFunctions name hname hne
  rw [names_foldl_addReference, mem_addNames]
  exact .inr ⟨mem_flatMap.mpr ⟨ref, hreference, hname⟩, hne⟩

/-- The names are those of possible references, each of them once. -/
def RetainedNames.Bounded (target : IrModule) (chain : List IrModule) (s : RetainedNames) : Prop :=
  ∀ ofFunctions, (s.names ofFunctions).Nodup ∧ s.names ofFunctions ⊆
    (possibleReferences target chain).flatMap fun ref =>
      ref.functions ++ ref.classes

section Bounded

variable {tgt : IrModule} {chain : List IrModule} {s : RetainedNames}

theorem RetainedNames.Bounded.foldl_addReference (h : s.Bounded tgt chain)
    (hpossible : references ⊆ possibleReferences tgt chain) :
    (references.foldl addReference s).Bounded tgt chain := by
  intro ofFunctions
  rw [names_foldl_addReference]
  refine ⟨nodup_addNames (h ofFunctions).1 _, fun name hname => ?_⟩
  rcases mem_addNames.mp hname with hname | ⟨hname, -⟩
  · exact (h ofFunctions).2 hname
  · obtain ⟨ref, hreference, hmem⟩ := mem_flatMap.mp hname
    refine mem_flatMap.mpr ⟨ref, hpossible hreference, ?_⟩
    cases ofFunctions with
    | true => exact mem_append_left _ hmem
    | false => exact mem_append_right _ hmem

theorem RetainedNames.Bounded.length_le (h : s.Bounded tgt chain) :
    s.functions.length ≤ nameCount tgt chain ∧ s.classes.length ≤ nameCount tgt chain :=
  ⟨(subperm_of_subset (h true).1 (h true).2).length_le,
    (subperm_of_subset (h false).1 (h false).2).length_le⟩

theorem declarationReferences_subset (tgt : IrModule) (chain : List IrModule) (name : String) :
    declarationReferences chain name ⊆ possibleReferences tgt chain := by
  intro ref hreference
  unfold declarationReferences at hreference
  split at hreference
  · rename_i v hv
    have hmem : ref ∈ classReferences v := by
      unfold classReferences
      rcases mem_append.mp hreference with hreference | hreference
      · exact mem_append_left _ hreference
      · obtain ⟨method, hmethod, rfl⟩ := mem_map.mp hreference
        exact mem_append_right _ (mem_flatMap.mpr ⟨method, hmethod, mem_cons_self⟩)
    refine mem_append_left _ (mem_append_right _ (mem_flatMap.mpr ⟨v, ?_, hmem⟩))
    exact mem_of_find?_eq_some hv
  · split at hreference
    · rename_i v hv
      exact mem_append_right _ (mem_flatMap.mpr ⟨v, mem_of_find?_eq_some hv, hreference⟩)
    · cases hreference

theorem signatureReferences_subset (tgt : IrModule) {chain : List IrModule} {name : String}
    {v : IrFunction} (h : findRetainedFunction chain name = some v) :
    signatureReferences v ⊆ possibleReferences tgt chain := by
  intro ref hreference
  refine mem_append_left _ (mem_append_left _ (mem_append_right _ ?_))
  exact mem_flatMap.mpr ⟨v, mem_of_find?_eq_some h, hreference⟩

end Bounded

/-! ## The passes -/

section Passes

variable {tgt : IrModule} {chain : List IrModule}

theorem closeFunctions_eq (chain : List IrModule) (s : RetainedNames) :
    closeFunctions chain s = (s.functions.flatMap fun name =>
      ((findRetainedFunction chain name).map signatureReferences).getD []).foldl addReference s := by
  rw [foldl_flatMap, closeFunctions]
  congr
  funext t name
  cases findRetainedFunction chain name <;> rfl

theorem closeFunctions_spec (h : s.Bounded tgt chain) :
    s.Extends (closeFunctions chain s) ∧ (closeFunctions chain s).Bounded tgt chain ∧
      ∀ name ∈ s.functions, ∀ v, findRetainedFunction chain name = some v →
        ∀ ref ∈ signatureReferences v, (closeFunctions chain s).Holds ref := by
  rw [closeFunctions_eq]
  refine ⟨extends_foldl_addReference _ _, h.foldl_addReference fun ref hreference => ?_,
    fun name hname v hv ref hreference => ?_⟩
  · obtain ⟨name, -, hmem⟩ := mem_flatMap.mp hreference
    cases hfound : findRetainedFunction chain name with
    | none => simp [hfound] at hmem
    | some v => exact signatureReferences_subset tgt hfound (by simpa [hfound] using hmem)
  · exact holds_foldl_addReference s (mem_flatMap.mpr ⟨name, hname, by simpa [hv]⟩)

abbrev RetainedNames.HoldsClass (chain : List IrModule) (s : RetainedNames) (name : String) : Prop :=
  ∀ ref ∈ declarationReferences chain name, s.Holds ref

/-- The classes before a place have been visited. -/
def RetainedNames.Visited (chain : List IrModule) (cursor : Nat) (s : RetainedNames) : Prop :=
  ∀ place < cursor, ∀ name, s.classes[place]? = some name → s.HoldsClass chain name

theorem RetainedNames.Visited.all {cur : Nat} (h : s.Visited chain cur)
    (hlength : s.classes.length ≤ cur) : ∀ name ∈ s.classes, s.HoldsClass chain name := by
  intro name hname
  obtain ⟨place, hplace⟩ := getElem?_of_mem hname
  have hlt := (List.getElem_of_getElem? hplace).1
  exact h place (by omega) name hplace

/-- With a turn for every name that can come up, the loop visits all classes, those that it adds as
well. -/
theorem closeClasses_spec : ∀ (fuel cur : Nat) (s : RetainedNames), s.Bounded tgt chain →
    nameCount tgt chain ≤ cur + fuel → s.Visited chain cur →
    s.Extends (closeClasses chain fuel cur s) ∧ (closeClasses chain fuel cur s).Bounded tgt chain ∧
      ∀ name ∈ (closeClasses chain fuel cur s).classes,
        (closeClasses chain fuel cur s).HoldsClass chain name := by
  intro fuel
  induction fuel with
  | zero =>
    intro cur s h hfuel hdone
    exact ⟨.refl s, h, hdone.all (h.length_le.2.trans hfuel)⟩
  | succ fuel ih =>
    intro cur s h hfuel hdone
    cases hname : s.classes[cur]? with
    | none =>
      simp only [closeClasses, hname]
      exact ⟨.refl s, h, hdone.all (getElem?_eq_none_iff.mp hname)⟩
    | some name =>
      simp only [closeClasses, hname]
      have hext := extends_foldl_addReference s (declarationReferences chain name)
      have hdone' : ((declarationReferences chain name).foldl addReference s).Visited chain
          (cur + 1) := by
        intro place hplace other hother ref hreference
        obtain ⟨added, hadded⟩ := hext.classes
        have hlt := (List.getElem_of_getElem? hname).1
        rw [← hadded, getElem?_append_left (by omega)] at hother
        by_cases hlast : place = cur
        · subst hlast
          obtain rfl := Option.some.inj (hname.symm.trans hother)
          exact holds_foldl_addReference s hreference
        · exact (hdone place (by omega) other hother ref hreference).extends hext
      obtain ⟨hrest, hbounded, hholds⟩ := ih (cur + 1) _
        (h.foldl_addReference (declarationReferences_subset tgt chain name)) (by omega) hdone'
      exact ⟨hext.trans hrest, hbounded, hholds⟩

structure RetainedNames.Closed (chain : List IrModule) (s : RetainedNames) : Prop where
  signatures : ∀ name ∈ s.functions, ∀ v, findRetainedFunction chain name = some v →
    ∀ ref ∈ signatureReferences v, s.Holds ref
  declarations : ∀ name ∈ s.classes, s.HoldsClass chain name

/-- Every pass but the last adds a name, so the passes come to an end; the names are then closed. -/
theorem closeNames_spec : ∀ (fuel : Nat) (s : RetainedNames), s.Bounded tgt chain →
    2 * nameCount tgt chain < s.functions.length + s.classes.length + fuel →
    s.Extends (closeNames chain (nameCount tgt chain) fuel s) ∧
      (closeNames chain (nameCount tgt chain) fuel s).Closed chain := by
  intro fuel
  induction fuel with
  | zero =>
    intro s h hfuel
    have hle := h.length_le
    omega
  | succ fuel ih =>
    intro s h hfuel
    obtain ⟨hext, hbounded, hsignatures⟩ := closeFunctions_spec h
    obtain ⟨hext', hbounded', hdeclarations⟩ := closeClasses_spec (nameCount tgt chain) 0
      (closeFunctions chain s) hbounded (by omega) (fun _ h => by cases h)
    have hall := hext.trans hext'
    have hfunctions := hall.functions.length_le
    have hclasses := hall.classes.length_le
    simp only [closeNames]
    split
    · rename_i hgrown
      obtain ⟨hrest, hclosed⟩ := ih _ hbounded' (by
        simp only [ne_eq, decide_not, Bool.or_eq_true, Bool.not_eq_true', decide_eq_false_iff_not]
          at hgrown
        omega)
      exact ⟨hall.trans hrest, hclosed⟩
    · rename_i hsame
      simp only [ne_eq, decide_not, Bool.or_eq_true, Bool.not_eq_true', decide_eq_false_iff_not,
        not_or, not_not] at hsame
      refine ⟨hall, fun name hname v hv ref hreference => ?_, hdeclarations⟩
      have hname' : name ∈ s.functions := by
        rwa [hall.functions.eq_of_length hsame.1.symm]
      exact (hsignatures name hname' v hv ref hreference).extends hext'

/-- The names that a unit declares hold what the unit refers to and what the declarations refer to. -/
theorem retainedNames_spec (tgt : IrModule) (chain : List IrModule) :
    (∀ ref ∈ moduleReferences tgt, (retainedNames tgt chain).Holds ref) ∧
      (retainedNames tgt chain).Closed chain := by
  have hstart : ((moduleReferences tgt).foldl addReference
      { features := tgt.requiredFeatures }).Bounded tgt chain := by
    refine RetainedNames.Bounded.foldl_addReference ?_ fun ref hreference => ?_
    · exact fun ofFunctions => by cases ofFunctions <;> simp [RetainedNames.names]
    · exact mem_append_left _ (mem_append_left _ (mem_append_left _ hreference))
  obtain ⟨hext, hclosed⟩ := closeNames_spec (2 * nameCount tgt chain + 1) _ hstart (by omega)
  exact ⟨fun ref hreference => (holds_foldl_addReference _ hreference).extends hext, hclosed⟩

end Passes

/-! ## What the declarations add -/

/-- The second list has the declarations of the first one and retained ones behind them. -/
def Retains {α : Type} (retained : α → Bool) (before after : List α) : Prop :=
  ∃ added, after = before ++ added ∧ ∀ v ∈ added, retained v = true

section Retains

variable {α : Type} {retained : α → Bool} {pre between after : List α}

theorem Retains.refl (values : List α) : Retains retained values values := ⟨[], by simp, by simp⟩

theorem Retains.trans (h : Retains retained pre between) (h' : Retains retained between after) :
    Retains retained pre after := by
  obtain ⟨added, rfl, hadded⟩ := h
  obtain ⟨added', rfl, hadded'⟩ := h'
  exact ⟨added ++ added', by simp, forall_mem_append.mpr ⟨hadded, hadded'⟩⟩

theorem Retains.subset (h : Retains retained pre after) : pre ⊆ after := by
  obtain ⟨added, rfl, -⟩ := h
  exact subset_append_left ..

theorem Retains.filter_eq (h : Retains retained pre after) :
    after.filter (!retained ·) = pre.filter (!retained ·) := by
  obtain ⟨added, rfl, hadded⟩ := h
  have hnone : added.filter (!retained ·) = [] :=
    filter_eq_nil_iff.mpr fun v hv => by simp [hadded v hv]
  rw [filter_append, hnone, append_nil]

end Retains

/-- Declaring names one after another only adds retained declarations, and in the end every name that
can be declared is. -/
theorem foldl_declare {comp : IrModule → List α} {retained : α → Bool}
    {nameOf : α → String} {step : IrModule → String → IrModule} {declarable : String → Prop}
    (hstep : ∀ tgt name, Retains retained (comp tgt) (comp (step tgt name)) ∧
      (declarable name → ∃ v ∈ comp (step tgt name), nameOf v = name)) :
    ∀ (names : List String) (tgt : IrModule),
      Retains retained (comp tgt) (comp (names.foldl step tgt)) ∧ ∀ name ∈ names, declarable name →
        ∃ v ∈ comp (names.foldl step tgt), nameOf v = name := by
  intro names
  induction names with
  | nil => exact fun tgt => ⟨.refl _, by simp⟩
  | cons name rest ih =>
    intro tgt
    obtain ⟨hfirst, hnamed⟩ := hstep tgt name
    obtain ⟨hrest, hnamed'⟩ := ih (step tgt name)
    refine ⟨hfirst.trans hrest, forall_mem_cons.mpr ⟨fun hdeclarable => ?_, hnamed'⟩⟩
    obtain ⟨v, hv, heq⟩ := hnamed hdeclarable
    exact ⟨v, hrest.subset hv, heq⟩

theorem foldl_keeps (comp : IrModule → α) (step : IrModule → β → IrModule)
    (hstep : ∀ tgt item, comp (step tgt item) = comp tgt) (items : List β) :
    ∀ tgt, comp (items.foldl step tgt) = comp tgt := by
  induction items with
  | nil => exact fun _ => rfl
  | cons item rest ih => exact fun tgt => (ih _).trans (hstep tgt item)

section Declarations

variable {chain : List IrModule} {name : String}

theorem retainClass_classes (chain : List IrModule) (tgt : IrModule) (name : String) :
    Retains (·.retained) tgt.classes (retainClass chain tgt name).classes ∧
      ((findRetainedClass chain name).isSome →
        ∃ v ∈ (retainClass chain tgt name).classes, v.symbol.name = name) := by
  unfold retainClass
  cases hfound : findRetainedClass chain name with
  | none => exact ⟨.refl _, by simp⟩
  | some v =>
    have hname := find?_some hfound
    rw [beq_iff_eq] at hname
    dsimp only
    split
    · rename_i howned
      obtain ⟨other, hother, heq⟩ := any_eq_true.mp howned
      rw [Bool.and_eq_true, beq_iff_eq] at heq
      exact ⟨.refl _, fun _ => ⟨other, hother, heq.1.trans hname⟩⟩
    · exact ⟨⟨_, rfl, by simp⟩, fun _ => ⟨_, mem_append_right _ (mem_singleton.mpr rfl), hname⟩⟩

theorem retainFunction_functions (chain : List IrModule) (tgt : IrModule) (name : String) :
    Retains (·.retained) tgt.functions (retainFunction chain tgt name).functions ∧
      ((findRetainedFunction chain name).isSome ∧ name ≠ "__neri_session_entry" →
        ∃ v ∈ (retainFunction chain tgt name).functions, v.symbol.name = name) := by
  unfold retainFunction
  cases hfound : findRetainedFunction chain name with
  | none => exact ⟨.refl _, by simp⟩
  | some v =>
    have hname := find?_some hfound
    rw [beq_iff_eq] at hname
    dsimp only
    split
    · rename_i hskipped
      refine ⟨.refl _, fun h => ?_⟩
      rw [Bool.or_eq_true, decide_eq_true_iff, hname] at hskipped
      obtain ⟨other, hother, heq⟩ := any_eq_true.mp (hskipped.resolve_left h.2)
      exact ⟨other, hother, eq_of_beq heq⟩
    · exact ⟨⟨_, rfl, by simp⟩, fun _ => ⟨_, mem_append_right _ (mem_singleton.mpr rfl), hname⟩⟩

/-- What no retained declaration changes. -/
abbrev dependencies (m : IrModule) := (m.globals, m.imports)

theorem foldl_retainClass_keeps : ∀ (names : List String) (tgt : IrModule),
    (fun m : IrModule => (m.functions, dependencies m)) (names.foldl (retainClass chain) tgt) =
      (tgt.functions, dependencies tgt) := by
  refine foldl_keeps (fun m => (m.functions, dependencies m)) _ fun tgt name => ?_
  unfold retainClass
  split
  · rfl
  · split <;> rfl

theorem foldl_retainRecord_keeps : ∀ (names : List String) (tgt : IrModule),
    (fun m : IrModule => (m.classes, m.functions, dependencies m))
      (names.foldl (retainRecord chain) tgt) = (tgt.classes, tgt.functions, dependencies tgt) := by
  refine foldl_keeps (fun m => (m.classes, m.functions, dependencies m)) _ fun tgt name => ?_
  unfold retainRecord
  split
  · rfl
  · split <;> rfl

theorem foldl_retainFunction_keeps : ∀ (names : List String) (tgt : IrModule),
    (fun m : IrModule => (m.classes, dependencies m)) (names.foldl (retainFunction chain) tgt) =
      (tgt.classes, dependencies tgt) := by
  refine foldl_keeps (fun m => (m.classes, dependencies m)) _ fun tgt name => ?_
  unfold retainFunction
  split
  · rfl
  · split <;> rfl

theorem lowerRetainedModule_dependencies (chain : List IrModule) (tgt : IrModule) :
    dependencies (lowerRetainedModule chain tgt) = dependencies tgt :=
  (congrArg (·.2) (foldl_retainFunction_keeps ..)).trans
    ((congrArg (·.2.2) (foldl_retainRecord_keeps ..)).trans
      (congrArg (·.2) (foldl_retainClass_keeps ..)))

/-- The classes of a unit: its own ones and retained ones, with every name that it has to declare. -/
theorem lowerRetainedModule_classes (chain : List IrModule) (tgt : IrModule) :
    Retains (·.retained) tgt.classes (lowerRetainedModule chain tgt).classes ∧
      ∀ name ∈ (retainedNames tgt chain).classes, (findRetainedClass chain name).isSome →
        ∃ v ∈ (lowerRetainedModule chain tgt).classes, v.symbol.name = name := by
  have hafter : (lowerRetainedModule chain tgt).classes =
      ((retainedNames tgt chain).classes.foldl (retainClass chain)
        { tgt with requiredFeatures := (retainedNames tgt chain).features }).classes :=
    (congrArg (·.1) (foldl_retainFunction_keeps ..)).trans
      (congrArg (·.1) (foldl_retainRecord_keeps ..))
  rw [hafter]
  exact foldl_declare (retainClass_classes chain) _
    { tgt with requiredFeatures := (retainedNames tgt chain).features }

/-- The functions of a unit: its own ones and retained ones, with every name that it has to declare. -/
theorem lowerRetainedModule_functions (chain : List IrModule) (tgt : IrModule) :
    Retains (·.retained) tgt.functions (lowerRetainedModule chain tgt).functions ∧
      ∀ name ∈ (retainedNames tgt chain).functions,
        (findRetainedFunction chain name).isSome ∧ name ≠ "__neri_session_entry" →
        ∃ v ∈ (lowerRetainedModule chain tgt).functions, v.symbol.name = name := by
  obtain ⟨hretains, hnamed⟩ := foldl_declare (retainFunction_functions chain)
    (retainedNames tgt chain).functions
    ((retainedNames tgt chain).classes.foldl (retainRecord chain)
      ((retainedNames tgt chain).classes.foldl (retainClass chain)
        { tgt with requiredFeatures := (retainedNames tgt chain).features }))
  refine ⟨(congrArg (Retains _ · _) ?_).mp hretains, hnamed⟩
  exact (congrArg (·.2.1) (foldl_retainRecord_keeps ..)).trans
    (congrArg (·.1) (foldl_retainClass_keeps ..))

end Declarations

/-! ## Globals and imports -/

theorem needInstruction_names (needed : NeededNames) (instr : IrInstruction) :
    (needInstruction needed instr).globals = enqueueAll needed.globals
        ((if instr.constantKind = some .stringGlobal then [instr.constantValue] else []) ++
          (instr.symbol.filter (·.kind = .globalDecl)).toList.map (·.name)) ∧
      (needInstruction needed instr).imports = enqueueAll needed.imports
        ((instr.symbol.filter (·.kind ≠ .globalDecl)).toList.map (·.name)) := by
  unfold needInstruction
  cases instr.symbol with
  | none => by_cases hconstant : instr.constantKind = some .stringGlobal <;>
      simp [hconstant, enqueueAll]
  | some sym =>
    by_cases hconstant : instr.constantKind = some .stringGlobal <;>
      by_cases hkind : sym.kind = .globalDecl <;>
      simp [hconstant, hkind, enqueueAll, Option.filter]

theorem foldl_needDependencies (functions : List IrFunction) (needed : NeededNames) :
    (functions.foldl irPartitionNeedDependencies needed).globals =
        enqueueAll needed.globals (functions.flatMap globalReferences) ∧
      (functions.foldl irPartitionNeedDependencies needed).imports =
        enqueueAll needed.imports (functions.flatMap symbolReferences) := by
  refine ⟨foldl_collects (fun needed f => ?_) functions needed,
    foldl_collects (fun needed f => ?_) functions needed⟩
  · exact foldl_collects (fun needed instr => (needInstruction_names needed instr).1)
      (f.blocks.flatMap (·.instructions)) needed
  · exact foldl_collects (fun needed instr => (needInstruction_names needed instr).2)
      (f.blocks.flatMap (·.instructions)) needed

/-- A unit has the globals and the imports that its functions refer to. -/
theorem copyDependencies_declares (unit : IrCompilationUnit) (original : IrModule) :
    (∀ f ∈ unit.definedFunctions, ∀ name ∈ globalReferences f,
      (∃ g ∈ original.globals, g.symbol.name = name) →
      ∃ g ∈ (irPartitionCopyDependencies unit original).globals, g.symbol.name = name) ∧
    ∀ f ∈ unit.definedFunctions, ∀ name ∈ symbolReferences f,
      (∃ i ∈ original.imports, i.symbol.name = name) →
      ∃ i ∈ (irPartitionCopyDependencies unit original).imports, i.symbol.name = name := by
  obtain ⟨hglobals, himports⟩ := foldl_needDependencies unit.definedFunctions
    { features := unit.module_.requiredFeatures }
  unfold irPartitionCopyDependencies
  dsimp only
  unfold IrCompilationUnit.definedFunctions at hglobals himports ⊢
  rw [hglobals, himports]
  refine ⟨fun f hf name hname => ?_, fun f hf name hname => ?_⟩
  · rintro ⟨g, hg, rfl⟩
    refine ⟨{ g with location := irNoLocation }, mem_append_right _ (mem_map.mpr ⟨g, ?_, rfl⟩), rfl⟩
    refine mem_filter.mpr ⟨hg, contains_iff_mem.mpr (mem_enqueueAll.mpr (.inr ?_))⟩
    exact mem_flatMap.mpr ⟨f, hf, hname⟩
  · rintro ⟨i, hi, rfl⟩
    refine ⟨{ i with location := irNoLocation }, mem_append_right _ (mem_map.mpr ⟨i, ?_, rfl⟩), rfl⟩
    refine mem_filter.mpr ⟨hi, Bool.or_eq_true_iff.mpr (.inr
      (contains_iff_mem.mpr (mem_enqueueAll.mpr (.inr ?_))))⟩
    exact mem_flatMap.mpr ⟨f, hf, hname⟩

/-! ## Units are self-contained -/

variable {tgt : IrModule}

theorem lowerRetainedModule_declares (chain : List IrModule) (hreferences : references ⊆ moduleReferences tgt) :
    Declares chain (lowerRetainedModule chain tgt) references := by
  obtain ⟨hholds, -⟩ := retainedNames_spec tgt chain
  have hclasses := (lowerRetainedModule_classes chain tgt).2
  have hfunctions := (lowerRetainedModule_functions chain tgt).2
  refine ⟨fun ref hreference name hname hne he => ?_, fun ref hreference name hname hne => ?_⟩
  · rintro ⟨m, hm, f, hf, hfname⟩
    refine hfunctions name (hholds ref (hreferences hreference) true name hname hne)
      ⟨?_, he⟩
    rw [findRetainedFunction, find?_isSome]
    exact ⟨f, mem_flatMap.mpr ⟨m, hm, hf⟩, beq_iff_eq.mpr hfname⟩
  · rintro ⟨m, hm, c, hc, hcname⟩
    refine hclasses name (hholds ref (hreferences hreference) false name hname hne) ?_
    rw [findRetainedClass, find?_isSome]
    exact ⟨c, mem_flatMap.mpr ⟨m, hm, hc⟩, beq_iff_eq.mpr hcname⟩

theorem functionReferences_subset (hf : f ∈ tgt.functions) :
    functionReferences f ⊆ moduleReferences tgt := by
  intro ref hreference
  unfold moduleReferences
  exact mem_append_left _ (mem_append_right _ (mem_flatMap.mpr ⟨f, hf, hreference⟩))

theorem classReferences_subset {c : IrClass} (hc : c ∈ tgt.classes) :
    classReferences c ⊆ moduleReferences tgt := by
  intro ref hreference
  unfold moduleReferences
  refine mem_append_left _ (mem_append_left _ (mem_append_left _ ?_))
  exact mem_append_left _ (mem_flatMap.mpr ⟨c, hc, hreference⟩)

/-- The unit as it is returned, from the unit with its definitions. -/
def finishUnit (module_ : IrModule) (chain : List IrModule) (unit : IrCompilationUnit) :
    IrCompilationUnit :=
  { unit with module_ := lowerRetainedModule chain (irPartitionCopyDependencies unit module_) }

section Finish

variable {mod : IrModule} {chain : List IrModule} {unit : IrCompilationUnit}

theorem finishUnit_module : (finishUnit mod chain unit).module_ =
    lowerRetainedModule chain (irPartitionCopyDependencies unit mod) := by
  simp only [finishUnit]

theorem finishUnit_key : (finishUnit mod chain unit).key = unit.key := by
  simp only [finishUnit]

theorem definedFunctions_finishUnit :
    (finishUnit mod chain unit).definedFunctions = unit.definedFunctions :=
  (lowerRetainedModule_functions chain (irPartitionCopyDependencies unit mod)).1.filter_eq

theorem definedClasses_finishUnit :
    (finishUnit mod chain unit).definedClasses = unit.definedClasses :=
  (lowerRetainedModule_classes chain (irPartitionCopyDependencies unit mod)).1.filter_eq

theorem selfContained_finishUnit : SelfContained mod chain (finishUnit mod chain unit) := by
  obtain ⟨hglobals, himports⟩ := copyDependencies_declares unit mod
  have hkept := lowerRetainedModule_dependencies chain (irPartitionCopyDependencies unit mod)
  refine ⟨fun f hf => ?_, fun c hc => ?_, fun f hf => ?_, fun f hf => ?_⟩
  · rw [definedFunctions_finishUnit] at hf
    have hmem : f ∈ (irPartitionCopyDependencies unit mod).functions :=
      mem_of_mem_filter hf
    rw [finishUnit_module]
    exact lowerRetainedModule_declares chain (functionReferences_subset hmem)
  · rw [definedClasses_finishUnit] at hc
    have hmem : c ∈ (irPartitionCopyDependencies unit mod).classes :=
      mem_of_mem_filter hc
    rw [finishUnit_module]
    exact lowerRetainedModule_declares chain (classReferences_subset hmem)
  · rw [definedFunctions_finishUnit] at hf
    rw [finishUnit_module, (Prod.mk.inj hkept).1]
    exact hglobals f hf
  · rw [definedFunctions_finishUnit] at hf
    rw [finishUnit_module, (Prod.mk.inj hkept).2]
    exact himports f hf

end Finish

/-! ## Placing definitions -/

section Sources

variable {α : Type} (comp : IrModule → α)
  (hsources : ∀ unit sources, comp { unit with sources := sources } = comp unit)

include hsources

theorem addSource_keeps (original unit : IrModule) (sourceId : String) :
    comp (irPartitionAddSource original unit sourceId) = comp unit := by
  unfold irPartitionAddSource
  split
  · rfl
  · split
    · exact hsources _ _
    · rfl

theorem needLocations_keeps (original : IrModule) (locations : List IrLocation) (unit : IrModule) :
    comp (locations.foldl (irPartitionNeedLocation original) unit) = comp unit := by
  refine foldl_keeps comp _ (fun unit location => ?_) locations unit
  unfold irPartitionNeedLocation
  split
  · exact addSource_keeps comp hsources original unit _
  · rfl

end Sources

section Place

variable {ctx : PartitionContext}

theorem lawful_unitScheme : (unitScheme ctx).Lawful := ⟨fun _ => rfl, fun _ _ => rfl⟩

def Definition.functions : Definition → List IrFunction
  | ofClass _ _ => []
  | ofFunction _ v => [irPartitionFunction v]

def Definition.classes : Definition → List IrClass
  | ofClass _ v => [irPartitionClass v]
  | ofFunction _ _ => []

theorem functions_join (defn : Definition) (unit : IrCompilationUnit) :
    ((unitScheme ctx).join defn unit).module_.functions =
      unit.module_.functions ++ defn.functions := by
  cases defn with
  | ofClass place v =>
    exact (needLocations_keeps (·.functions) (fun _ _ => rfl) ..).trans
      ((addSource_keeps (·.functions) (fun _ _ => rfl) ..).trans (append_nil _).symm)
  | ofFunction place v => exact needLocations_keeps (·.functions) (fun _ _ => rfl) ..

theorem classes_join (defn : Definition) (unit : IrCompilationUnit) :
    ((unitScheme ctx).join defn unit).module_.classes = unit.module_.classes ++ defn.classes := by
  cases defn with
  | ofClass place v =>
    exact (needLocations_keeps (·.classes) (fun _ _ => rfl) ..).trans
      (addSource_keeps (·.classes) (fun _ _ => rfl) ..)
  | ofFunction place v =>
    exact (needLocations_keeps (·.classes) (fun _ _ => rfl) ..).trans (append_nil _).symm

def functionKey (context : PartitionContext) (value : IrFunction) : String :=
  ((context.functionPlace value).getD ⟨"", 0⟩).key

def definitions (context : PartitionContext) : List Definition :=
  (context.module_.classes.filter (!·.retained)).map
      (fun v => .ofClass (context.classPlace v) v) ++
    (context.module_.functions.filter (!·.retained)).map
      (fun v => .ofFunction ((context.functionPlace v).getD ⟨"", 0⟩) v)

/-- The unit that is there from the start. -/
def consumerUnit (context : PartitionContext) : IrCompilationUnit :=
  irPartitionNewUnit context.module_ context.consumerOwner (irPartitionKey context.consumerOwner 0)
    true

/-- A partition places every function, and its units are the groups of the definitions. -/
theorem placeDefinitions_eq_some {units : List IrCompilationUnit}
    (h : placeDefinitions ctx = some units) :
    (∀ f ∈ ctx.module_.functions, f.retained = false → (ctx.functionPlace f).isSome) ∧
      units = (definitions ctx).foldl (unitScheme ctx).insert [consumerUnit ctx] := by
  have hfold : ∀ (functions : List IrFunction) (start : List IrCompilationUnit),
      functions.foldlM (fun units v => do
        let place ← ctx.functionPlace v
        return (unitScheme ctx).insert units (.ofFunction place v)) start = some units →
      (∀ f ∈ functions, (ctx.functionPlace f).isSome) ∧ units = (functions.map fun v =>
          Definition.ofFunction ((ctx.functionPlace v).getD ⟨"", 0⟩) v).foldl
            (unitScheme ctx).insert start := by
    intro functions
    induction functions with
    | nil =>
      intro start hstart
      exact ⟨by simp, (Option.some.inj hstart).symm⟩
    | cons f rest ih =>
      intro start hstart
      obtain ⟨next, hnext, hrest⟩ := Option.bind_eq_some_iff.mp hstart
      obtain ⟨place, hplace, hnext⟩ := Option.bind_eq_some_iff.mp hnext
      cases hnext
      obtain ⟨hplaced, heq⟩ := ih _ hrest
      refine ⟨?_, ?_⟩
      · rw [forall_mem_cons]
        exact ⟨by simp [hplace], hplaced⟩
      · rw [map_cons, hplace]
        exact heq
  obtain ⟨hplaced, heq⟩ := hfold _ _ h
  refine ⟨fun f hf hdefined => hplaced f (mem_filter.mpr ⟨hf, by simp [hdefined]⟩), ?_⟩
  rw [heq, definitions, foldl_append]
  simp only [foldl_map]
  rfl

section Units

variable {units : List IrCompilationUnit} (h : placeDefinitions ctx = some units)

include h

theorem nodup_unitKeys : (units.map (·.key)).Nodup := by
  rw [(placeDefinitions_eq_some h).2]
  exact Scheme.nodup_foldl lawful_unitScheme _ (by simp)

theorem mem_unitKeys {defn : Definition} (hmem : defn ∈ definitions ctx) :
    defn.place.key ∈ units.map (·.key) := by
  rw [(placeDefinitions_eq_some h).2]
  exact (Scheme.mem_keys_foldl lawful_unitScheme _).mpr (.inr (mem_map_of_mem hmem))

variable {unit : IrCompilationUnit}

/-- What a unit holds comes from the definitions of its key. -/
theorem unit_contents (contents : IrCompilationUnit → List β)
    (given : Definition → List β) (hjoin : ∀ defn unit, contents ((unitScheme ctx).join defn unit) =
      contents unit ++ given defn) (hstart : ∀ defn, contents ((unitScheme ctx).start defn) = [])
    (hconsumer : contents (consumerUnit ctx) = [])
    (hunit : unit ∈ units) :
    contents unit = ((definitions ctx).filter (·.place.key = unit.key)).flatMap given := by
  have hheld : (unitScheme ctx).contentsOf contents units unit.key = contents unit :=
    Scheme.contentsOf_groupKey contents (nodup_unitKeys h) hunit
  rw [← hheld, (placeDefinitions_eq_some h).2,
    Scheme.contentsOf_foldl lawful_unitScheme hjoin hstart _ _ (by simp)]
  have hnone : (unitScheme ctx).contentsOf contents [consumerUnit ctx] unit.key = [] := by
    unfold Scheme.contentsOf
    by_cases hkey : (unitScheme ctx).groupKey (consumerUnit ctx) = unit.key <;>
      simp [hkey, hconsumer]
  rw [hnone, nil_append]
  rfl

theorem unit_functions (hunit : unit ∈ units) :
    unit.module_.functions = ((ctx.module_.functions.filter (!·.retained)).filter
      (functionKey ctx · = unit.key)).map irPartitionFunction := by
  rw [unit_contents h (fun unit => unit.module_.functions) Definition.functions functions_join
    (fun _ => rfl) rfl hunit, definitions, filter_append, flatMap_append, filter_map,
    filter_map, flatMap_map, flatMap_map, map_eq_flatMap]
  have hclasses : ∀ classes : List IrClass, (classes.flatMap fun v =>
      (Definition.ofClass (ctx.classPlace v) v).functions) = [] := by
    simp [Definition.functions]
  rw [hclasses, nil_append]
  rfl

theorem unit_classes (hunit : unit ∈ units) :
    unit.module_.classes = ((ctx.module_.classes.filter (!·.retained)).filter
      (fun v => (ctx.classPlace v).key = unit.key)).map irPartitionClass := by
  rw [unit_contents h (fun unit => unit.module_.classes) Definition.classes classes_join
    (fun _ => rfl) rfl hunit, definitions, filter_append, flatMap_append, filter_map,
    filter_map, flatMap_map, flatMap_map, map_eq_flatMap]
  have hfunctions : ∀ functions : List IrFunction, (functions.flatMap fun v =>
      (Definition.ofFunction ((ctx.functionPlace v).getD ⟨"", 0⟩) v).classes) = [] := by
    simp [Definition.classes]
  rw [hfunctions, append_nil]
  rfl

end Units

end Place

/-! ## Every definition is in one unit -/

section Once

variable {α β : Type} {units : List IrCompilationUnit} {items : List α} {key : α → String}
  {copy : α → β} {held : IrCompilationUnit → List β}

/-- Units with distinct keys that hold the copies of the items of their key. -/
structure SplitsBy (units : List IrCompilationUnit) (items : List α) (key : α → String)
    (copy : α → β) (held : IrCompilationUnit → List β) : Prop where
  nodup : (units.map (·.key)).Nodup
  keys : ∀ item ∈ items, key item ∈ units.map (·.key)
  held : ∀ unit ∈ units, held unit = (items.filter (key · = unit.key)).map copy
  copies : ∀ item other, copy item = copy other → key item = key other

theorem SplitsBy.mem_iff (h : SplitsBy units items key copy held) {item : α} (hitem : item ∈ items)
    {unit : IrCompilationUnit} (hunit : unit ∈ units) :
    copy item ∈ held unit ↔ key item = unit.key := by
  rw [h.held unit hunit]
  constructor
  · intro hmem
    obtain ⟨other, hother, heq⟩ := mem_map.mp hmem
    rw [← h.copies other item heq]
    exact of_decide_eq_true (mem_filter.mp hother).2
  · intro hkey
    exact mem_map_of_mem (mem_filter.mpr ⟨hitem, decide_eq_true hkey⟩)

theorem SplitsBy.existsUnique (h : SplitsBy units items key copy held) {item : α}
    (hitem : item ∈ items) : ∃! unit, unit ∈ units ∧ copy item ∈ held unit := by
  obtain ⟨unit, hunit, hkey⟩ := mem_map.mp (h.keys item hitem)
  refine ⟨unit, ⟨hunit, (h.mem_iff hitem hunit).mpr hkey.symm⟩, ?_⟩
  rintro other ⟨hother, hmem⟩
  refine inj_on_of_nodup_map h.nodup hother hunit ?_
  exact ((h.mem_iff hitem hother).mp hmem).symm.trans hkey.symm

/-- Nothing is lost and nothing is repeated. -/
theorem SplitsBy.perm (h : SplitsBy units items key copy held) :
    (units.flatMap held).Perm (items.map copy) := by
  have heq : units.flatMap held =
      ((units.map (·.key)).flatMap fun k => items.filter (key · = k)).map copy := by
    rw [map_flatMap, flatMap_map]
    exact flatMap_congr fun unit hunit => h.held unit hunit
  rw [heq]
  exact (Scheme.flatMap_filter_perm key h.nodup h.keys).map copy

end Once

section Partition

variable {ctx : PartitionContext} {units : List IrCompilationUnit}

theorem functionKey_irPartitionFunction (f : IrFunction) :
    functionKey ctx (irPartitionFunction f) = functionKey ctx f := rfl

theorem classPlace_irPartitionClass (v : IrClass) :
    ctx.classPlace (irPartitionClass v) = ctx.classPlace v := rfl

theorem splitsBy_functions (h : placeDefinitions ctx = some units) :
    SplitsBy units (ctx.module_.functions.filter (!·.retained)) (functionKey ctx)
      irPartitionFunction IrCompilationUnit.definedFunctions where
  nodup := nodup_unitKeys h
  keys := fun f hf => by
    have hkey := mem_unitKeys h (mem_append_right _ (mem_map_of_mem hf))
    unfold functionKey
    exact hkey
  held := fun unit hunit => by
    rw [IrCompilationUnit.definedFunctions, unit_functions h hunit, filter_eq_self]
    intro f hf
    obtain ⟨g, -, rfl⟩ := mem_map.mp hf
    rfl
  copies := fun f g heq => by
    rw [← functionKey_irPartitionFunction f, heq, functionKey_irPartitionFunction]

theorem splitsBy_classes (h : placeDefinitions ctx = some units) :
    SplitsBy units (ctx.module_.classes.filter (!·.retained))
      (fun v => (ctx.classPlace v).key) irPartitionClass IrCompilationUnit.definedClasses where
  nodup := nodup_unitKeys h
  keys := fun c hc => by
    have hkey := mem_unitKeys h (mem_append_left _ (mem_map_of_mem hc))
    exact hkey
  held := fun unit hunit => by
    rw [IrCompilationUnit.definedClasses, unit_classes h hunit, filter_eq_self]
    intro c hc
    obtain ⟨g, -, rfl⟩ := mem_map.mp hc
    rfl
  copies := fun c d heq => by
    rw [← classPlace_irPartitionClass c, heq, classPlace_irPartitionClass]

theorem SplitsBy.finish {items : List α} {key : α → String} {copy : α → β}
    {held : IrCompilationUnit → List β} (h : SplitsBy units items key copy held)
    (finish : IrCompilationUnit → IrCompilationUnit) (hkey : ∀ unit, (finish unit).key = unit.key)
    (hheld : ∀ unit, held (finish unit) = held unit) :
    SplitsBy (units.map finish) items key copy held := by
  have hkeys : (units.map finish).map (·.key) = units.map (·.key) := by simp [hkey]
  refine ⟨hkeys ▸ h.nodup, fun item hitem => hkeys ▸ h.keys item hitem, ?_, h.copies⟩
  intro unit hunit
  obtain ⟨start, hstart, rfl⟩ := mem_map.mp hunit
  rw [hheld, hkey]
  exact h.held start hstart

end Partition

/-! ## Buckets -/

section Buckets

variable {ctx context' : PartitionContext}

/-- The bucket of a function: the first one for what the consumer creates and for its entry source,
otherwise the hash of the source. -/
theorem bucket_eq {place : PartitionContext.Place} (h : ctx.functionPlace f = some place) :
    ∃ sourceId, ctx.sourceOf f = some sourceId ∧ place.bucket = if place.owner = ctx.consumerOwner ∧
          (ctx.createdByConsumer f = true ∨ sourceId = ctx.entrySourceId) then 0
      else irPartitionBucket sourceId := by
  obtain ⟨⟨declaredOwner, sourceId, consumerOrigin⟩, horigin, h⟩ := Option.bind_eq_some_iff.mp h
  refine ⟨sourceId, by simp [PartitionContext.sourceOf, horigin], ?_⟩
  dsimp only at h
  -- whoever the owner is, the bucket does not depend on how it is found
  split at h
  all_goals
    obtain ⟨owner, -, hplace⟩ := Option.bind_eq_some_iff.mp h
    cases hplace
    simp [PartitionContext.createdByConsumer, horigin]

theorem partitionContext_eq_some {mod : IrModule} {semantic : SemanticModel}
    {sourceIds sourceOwners : List String}
    (h : partitionContext mod semantic sourceIds sourceOwners consumerOwner = some ctx) :
    ctx.module_ = mod ∧ ctx.consumerOwner = consumerOwner := by
  unfold partitionContext at h
  dsimp only at h
  split_ifs at h
  cases h
  exact ⟨rfl, rfl⟩

theorem AgreesOutside.functionPlace_eq {changed : String} (h : AgreesOutside changed ctx context')
    {f' : IrFunction} (hf : f ∈ ctx.module_.functions) (hhead : SameHead f f')
    (hsrc : f.location.sourceId ≠ changed) (hclass : ∀ sym, f.declaringClass = some sym → ∃ v,
      irPartitionClassByName ctx.module_ sym.name = some v ∧
        classSourceId v ≠ changed) : context'.functionPlace f' = ctx.functionPlace f := by
  have howner : irPartitionOwner f'.location context'.owners =
      irPartitionOwner f.location ctx.owners := by
    unfold irPartitionOwner
    rw [hhead.present, hhead.sourceId, h.owners]
  have hgeneric := h.generics f hf hsrc
  cases hdeclaring : f.declaringClass with
  | none =>
    have hdeclaring' : f'.declaringClass = none := hhead.declaringClass.trans hdeclaring
    simp only [PartitionContext.functionPlace, PartitionContext.functionOrigin, hdeclaring,
      hdeclaring', irPartitionFunctionConsumer, Option.any_none, hhead.name, hgeneric, howner,
      hhead.sourceId, h.entrySourceId, h.consumerOwner]
  | some sym =>
    have hdeclaring' : f'.declaringClass = some sym := hhead.declaringClass.trans hdeclaring
    obtain ⟨v, hv, houtside⟩ := hclass sym hdeclaring
    obtain ⟨value', hvalue', hretained, hdeclaration, hlocation, hconsumer⟩ :=
      h.classes sym.name v hv houtside
    have hclassOwner : irPartitionClassOwner value' context'.owners =
        irPartitionClassOwner v ctx.owners := by
      unfold irPartitionClassOwner
      rw [hdeclaration, hlocation, h.owners]
    have hclassSource : classSourceId value' = classSourceId v := by
      unfold classSourceId
      rw [hdeclaration, hlocation]
    simp only [PartitionContext.functionPlace, PartitionContext.functionOrigin, hdeclaring,
      hdeclaring', hv, hvalue', hretained, hconsumer, hclassOwner, hclassSource,
      irPartitionFunctionConsumer, Option.any_some, hhead.name, hgeneric, hhead.sourceId,
      h.entrySourceId, h.consumerOwner]

theorem exists_declaringClass (h : (ctx.functionPlace f).isSome)
    {sym : IrSymbol} (hsymbol : f.declaringClass = some sym) :
    ∃ v, irPartitionClassByName ctx.module_ sym.name = some v := by
  cases hv : irPartitionClassByName ctx.module_ sym.name with
  | some v => exact ⟨v, rfl⟩
  | none =>
    have horigin : ctx.functionOrigin f = none := by
      simp only [PartitionContext.functionOrigin, hsymbol, hv]
    simp [PartitionContext.functionPlace, horigin] at h

end Buckets

theorem irPartitionModule_eq_some {mod : IrModule} {kept : List IrModule}
    {semantic : SemanticModel} {sourceIds sourceOwners : List String}
    {units : List IrCompilationUnit}
    (h : irPartitionModule mod kept semantic sourceIds sourceOwners consumerOwner = some units) :
    ∃ ctx placed, partitionContext mod semantic sourceIds sourceOwners consumerOwner = some ctx ∧
        placeDefinitions ctx = some placed ∧ units = placed.map (finishUnit mod (mod :: kept)) := by
  obtain ⟨ctx, hcontext, h⟩ := Option.bind_eq_some_iff.mp h
  obtain ⟨placed, hplaced, h⟩ := Option.bind_eq_some_iff.mp h
  exact ⟨ctx, placed, hcontext, hplaced, (Option.some.inj h).symm⟩

/-- What a partition is: every definition is in one unit, the units are closed, and buckets only
depend on the source of a definition and on what the program itself creates. -/
theorem irPartitionModule_sound (module_ : IrModule) (retainedParents : List IrModule)
    (semantic : SemanticModel) (sourceIds sourceOwners : List String) (consumerOwner : String)
    (units : List IrCompilationUnit)
    (h : irPartitionModule module_ retainedParents semantic sourceIds sourceOwners consumerOwner =
      some units) :
    ∃ ctx, partitionContext module_ semantic sourceIds sourceOwners consumerOwner = some ctx ∧
      -- Every definition is in exactly one unit, and units define nothing else.
      (∀ f ∈ module_.functions, f.retained = false →
        ∃! unit, unit ∈ units ∧ irPartitionFunction f ∈ unit.definedFunctions) ∧
      (∀ c ∈ module_.classes, c.retained = false →
        ∃! unit, unit ∈ units ∧ irPartitionClass c ∈ unit.definedClasses) ∧
      (units.flatMap (·.definedFunctions)).Perm
        ((module_.functions.filter (!·.retained)).map irPartitionFunction) ∧
      (units.flatMap (·.definedClasses)).Perm
        ((module_.classes.filter (!·.retained)).map irPartitionClass) ∧
      -- One owner and one bucket are one unit.
      (∀ f ∈ module_.functions, f.retained = false → ∀ g ∈ module_.functions, g.retained = false →
        ctx.functionPlace f = ctx.functionPlace g → ∀ unit ∈ units,
          irPartitionFunction f ∈ unit.definedFunctions →
          irPartitionFunction g ∈ unit.definedFunctions) ∧
      (∀ unit ∈ units, SelfContained module_ (module_ :: retainedParents) unit) ∧
      (∀ f ∈ module_.functions, f.retained = false → ∃ place sourceId,
        ctx.functionPlace f = some place ∧ ctx.sourceOf f = some sourceId ∧
          place.bucket = if place.owner = consumerOwner ∧
              (ctx.createdByConsumer f = true ∨ sourceId = ctx.entrySourceId) then 0
            else irPartitionBucket sourceId) ∧
      -- A change of one source does not move what another source declares.
      (∀ (changed : String) (module' : IrModule) (semantic' : SemanticModel)
          (sourceIds' sourceOwners' : List String) (context' : PartitionContext),
        partitionContext module' semantic' sourceIds' sourceOwners' consumerOwner = some context' →
        AgreesOutside changed ctx context' →
        ∀ f ∈ module_.functions, f.retained = false → f.location.sourceId ≠ changed →
        (∀ sym v, f.declaringClass = some sym → irPartitionClassByName module_ sym.name = some v →
            classSourceId v ≠ changed) →
        ∀ f' ∈ module'.functions, SameHead f f' →
          context'.functionPlace f' = ctx.functionPlace f) := by
  obtain ⟨ctx, placed, hcontext, hplaced, hunits⟩ := irPartitionModule_eq_some h
  obtain ⟨hmodule, hconsumer⟩ := partitionContext_eq_some hcontext
  subst hmodule
  have hfunctions := (splitsBy_functions hplaced).finish
    (finishUnit ctx.module_ (ctx.module_ :: retainedParents)) (fun _ => finishUnit_key)
    (fun _ => definedFunctions_finishUnit)
  have hclasses := (splitsBy_classes hplaced).finish
    (finishUnit ctx.module_ (ctx.module_ :: retainedParents)) (fun _ => finishUnit_key)
    (fun _ => definedClasses_finishUnit)
  rw [← hunits] at hfunctions hclasses
  have hsome := (placeDefinitions_eq_some hplaced).1
  have hdefined : ∀ f ∈ ctx.module_.functions, f.retained = false →
      f ∈ ctx.module_.functions.filter (!·.retained) :=
    fun f hf hretained => mem_filter.mpr ⟨hf, by simp [hretained]⟩
  refine ⟨ctx, hcontext, ?_, ?_, ?_, ?_, ?_, ?_, ?_, ?_⟩
  · exact fun f hf hretained => hfunctions.existsUnique (hdefined f hf hretained)
  · exact fun c hc hretained =>
      hclasses.existsUnique (mem_filter.mpr ⟨hc, by simp [hretained]⟩)
  · exact hfunctions.perm
  · exact hclasses.perm
  · intro f hf hfr g hg hgr hplace unit hunit hmem
    rw [hfunctions.mem_iff (hdefined f hf hfr) hunit] at hmem
    rw [hfunctions.mem_iff (hdefined g hg hgr) hunit, ← hmem, functionKey, functionKey, hplace]
  · intro unit hunit
    rw [hunits] at hunit
    obtain ⟨start, -, rfl⟩ := mem_map.mp hunit
    exact selfContained_finishUnit
  · intro f hf hretained
    obtain ⟨place, hplace⟩ := Option.isSome_iff_exists.mp (hsome f hf hretained)
    obtain ⟨sourceId, hsrc, hbucket⟩ := bucket_eq hplace
    exact ⟨place, sourceId, hplace, hsrc, hconsumer ▸ hbucket⟩
  · intro changed module' semantic' sourceIds' sourceOwners' context' _ hagree f hf
      hretained hsrc hclass f' _ hhead
    refine hagree.functionPlace_eq hf hhead hsrc fun sym hsymbol => ?_
    obtain ⟨v, hv⟩ := exists_declaringClass (hsome f hf hretained) hsymbol
    exact ⟨v, hv, hclass sym v hsymbol hv⟩

def sourceFunction (name sourceId : String) : IrFunction where
  symbol := ⟨"m", .function, name⟩
  resultType := .scalar .void
  kind := .function
  location := { sourceId, present := true, start := 0, length := 0 }

/-- A program of two sources, with its entry function in one of them. -/
def twoSources (entrySourceId : String) : IrModule where
  functions := [sourceFunction "main" entrySourceId, sourceFunction "helper" "c"]

def twoSourcesUnits (entrySourceId : String) : Option (List IrCompilationUnit) :=
  irPartitionModule (twoSources entrySourceId) [] { classes := [] } ["a", "c"] ["app", "app"] "app"

theorem irPartitionModule_sound_twoSources : ∃ units, twoSourcesUnits "a" = some units ∧
    (∃! unit, unit ∈ units ∧
      irPartitionFunction (sourceFunction "helper" "c") ∈ unit.definedFunctions) ∧
    ∀ unit ∈ units, SelfContained (twoSources "a") [twoSources "a"] unit := by
  obtain ⟨units, hunits⟩ := Option.isSome_iff_exists.mp
    (show (twoSourcesUnits "a").isSome by decide)
  obtain ⟨-, -, hfunctions, -, -, -, -, hclosed, -⟩ :=
    irPartitionModule_sound (twoSources "a") [] _ _ _ _ units hunits
  exact ⟨units, hunits, hfunctions _ (by simp [twoSources]) rfl, hclosed⟩

/-- A function moves to another bucket with the entry function. -/
theorem functionPlace_entry_moves :
    ((partitionContext (twoSources "a") { classes := [] } ["a", "c"] ["app", "app"] "app").bind
      (·.functionPlace (sourceFunction "helper" "c"))) = some ⟨"app", 1⟩ ∧
    ((partitionContext (twoSources "c") { classes := [] } ["a", "c"] ["app", "app"] "app").bind
      (·.functionPlace (sourceFunction "helper" "c"))) = some ⟨"app", 0⟩ ∧
    ((twoSourcesUnits "a").map fun units => units.map (·.key)) = some ["3:app:0", "3:app:1"] ∧
    ((twoSourcesUnits "c").map fun units => units.map (·.key)) = some ["3:app:0"] := by
  refine ⟨by decide, by decide, by decide, by decide⟩

end Neri.Ir
