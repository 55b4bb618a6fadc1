import Neri.Ir.LinkReachability
import Neri.Lib.AssocList

/-!
# Link reachability is exact

The tables hold the declaration that each name stands for, the loop over the pending names is a
worklist, and each name adds its libraries and its features when the cursor passes it. So an analysis
that does not stop at a function without an implementation marks the least closed set of names.
-/

namespace Neri.Ir

open Neri.Abi Worklist Relation List

namespace IrLinkReachability

variable {α : Type} {t : IrLinkReachability} {name : String}

/-! ## The tables -/

/-- A table of declarations holds the first declaration of each name. -/
theorem lookup_foldl_tableAdd (key : α → String) (name : String) (values : List α) :
    (values.foldl (fun table v => tableAdd table (key v) v) []).lookup name =
      (values.filter (key · = name)).head? := by
  have hadd : tableAdd (α := α) = AssocList.add := by
    funext table key v
    unfold tableAdd AssocList.add
    cases table.lookup key <;> rfl
  rw [head?_filter, hadd]
  exact AssocList.lookup_foldl_add key name values []

/-- Which of two functions of one name stays in the table. -/
def chosen : Option IrFunction → IrFunction → Option IrFunction
  | none, f => some f
  | some existing, f =>
    if existing.retained && (f.linkReferences.isSome || !f.retained) then some f else some existing

theorem lookup_replace (table : List (String × IrFunction)) (key name : String) (f : IrFunction) :
    (table.map fun entry => if entry.1 = key then (entry.1, f) else entry).lookup name =
      if key = name then (table.lookup name).map fun _ => f else table.lookup name := by
  induction table with
  | nil => simp
  | cons entry rest ih =>
    obtain ⟨first, v⟩ := entry
    by_cases hfirst : first = key
    · subst hfirst
      by_cases hname : first = name
      · subst hname
        simp
      · have hne : (name == first) = false := beq_eq_false_iff_ne.mpr (Ne.symm hname)
        simp [lookup_cons, hne, hname, ih]
    · by_cases hname : name = first
      · subst hname
        simp [hfirst, Ne.symm hfirst]
      · have hne : (name == first) = false := beq_eq_false_iff_ne.mpr hname
        simp [lookup_cons, hfirst, hne, ih]

theorem lookup_enterFunction (table : List (String × IrFunction)) (f : IrFunction) (name : String) :
    (enterFunction table f).lookup name =
      if f.symbol.name = name then chosen (table.lookup name) f else table.lookup name := by
  unfold enterFunction
  split
  · rename_i hnew
    rw [AssocList.lookup_append_singleton]
    by_cases hname : f.symbol.name = name
    · subst hname
      simp [hnew, chosen]
    · simp [hname, Ne.symm hname]
  · rename_i existing hexisting
    by_cases hname : f.symbol.name = name
    · subst hname
      split
      · rename_i hreplace
        rw [lookup_replace]
        simp [hexisting, chosen, hreplace]
      · rename_i hkeep
        simp [hexisting, chosen, hkeep]
    · split
      · rw [lookup_replace, if_neg hname]
      · rfl

theorem lookup_foldl_enterFunction (name : String) (functions : List IrFunction) :
    ∀ table : List (String × IrFunction), (functions.foldl enterFunction table).lookup name =
      (functions.filter (·.symbol.name = name)).foldl chosen (table.lookup name) := by
  induction functions with
  | nil => simp
  | cons f rest ih =>
    intro table
    rw [foldl_cons, ih, lookup_enterFunction]
    by_cases hname : f.symbol.name = name <;> simp [hname]

/-- A definition stays; a retained declaration gives way to the first definition, and without one to the
last declaration with recorded references. -/
theorem foldl_chosen (candidates : List IrFunction) : ∀ existing : IrFunction,
    candidates.foldl chosen (some existing) = if existing.retained then
        (candidates.find? (!·.retained)).or
          ((candidates.reverse.find? (·.linkReferences.isSome)).or (some existing))
      else some existing := by
  induction candidates with
  | nil => simp
  | cons f rest ih =>
    intro existing
    rw [foldl_cons]
    cases hexisting : existing.retained with
    | false => simp [chosen, hexisting, ih]
    | true =>
      cases hf : f.retained with
      | false => simp [chosen, hexisting, hf, ih]
      | true =>
        cases hlink : f.linkReferences with
        | none =>
          have hstep : chosen (some existing) f = some existing := by
            simp [chosen, hf, hlink]
          rw [hstep, ih]
          simp [hexisting, hf, hlink]
        | some references =>
          have hstep : chosen (some existing) f = some f := by
            simp [chosen, hexisting, hlink]
          rw [hstep, ih]
          simp [hf, hlink]

theorem lookup_functions (chain : List IrModule) (name : String) :
    ((chain.flatMap (·.functions)).foldl enterFunction []).lookup name =
      linkedFunction chain name := by
  rw [lookup_foldl_enterFunction, linkedFunction, filter_flatMap]
  cases chain.flatMap fun m => m.functions.filter (·.symbol.name = name) with
  | nil => rfl
  | cons first rest =>
    show rest.foldl chosen (some first) = _
    rw [foldl_chosen]
    cases hfirst : first.retained with
    | false => simp [hfirst]
    | true => cases hlink : first.linkReferences <;> simp [hfirst, hlink]

/-! ## Pending names -/

@[simp]
theorem foldl_add (names : List String) : ∀ s : IrLinkReachability,
    names.foldl add s = { s with pending := enqueueAll s.pending (names.filter (· ≠ "")) } := by
  induction names with
  | nil => exact fun _ => rfl
  | cons name rest ih =>
    intro s
    rw [foldl_cons, ih, add]
    by_cases hname : name = ""
    · simp [hname]
    · simp [hname, enqueueAll]

theorem visitMethod_eq (s : IrLinkReachability) (method : IrMethod) :
    s.visitMethod method = (methodLinkReferences method).foldl add s := by
  unfold visitMethod methodLinkReferences
  split
  · cases method.dispatchSlot <;> rfl
  · rfl

abbrev functionNames (s : IrLinkReachability) (name : String) : List String :=
  ((s.functions.lookup name).elim [] irFunctionLinkReferences).filter (· ≠ "")

abbrev classNames (s : IrLinkReachability) (name : String) : List String :=
  ((s.classes.lookup name).elim [] classLinkReferences).filter (· ≠ "")

theorem visitClass_eq (s : IrLinkReachability) (name : String) :
    s.visitClass name = { s with pending := enqueueAll s.pending (s.classNames name) } := by
  unfold visitClass classNames
  cases s.classes.lookup name with
  | none => rfl
  | some v =>
    have hmethods : ∀ s : IrLinkReachability, v.methods.foldl visitMethod s =
        (v.methods.flatMap methodLinkReferences).foldl add s := by
      intro s
      rw [foldl_flatMap]
      exact congrFun (congrFun (congrArg _ (funext₂ visitMethod_eq)) _) _
    rw [Option.elim_some, ← foldl_add, classLinkReferences, foldl_append, ← hmethods]
    dsimp only
    cases v.baseSymbol <;> rfl

def exportedNames (functions : List IrFunction) : List String :=
  (functions.filter (·.cExportSymbol ≠ "")).map (·.symbol.name)

theorem foldl_registerFunction (functions : List IrFunction) : ∀ s : IrLinkReachability,
    functions.foldl registerFunction s = { s with
      functions := functions.foldl enterFunction s.functions
      pending := enqueueAll s.pending ((exportedNames functions).filter (· ≠ ""))
      exportedSymbols := enqueueAll s.exportedSymbols
        ((functions.filter (·.cExportSymbol ≠ "")).map (·.cExportSymbol)) } := by
  induction functions with
  | nil => exact fun _ => rfl
  | cons f rest ih =>
    intro s
    rw [foldl_cons, ih, registerFunction]
    by_cases hexport : f.cExportSymbol = ""
    · simp [hexport, exportedNames]
    · by_cases hname : f.symbol.name = ""
      · simp [hexport, hname, exportedNames, add, enqueueAll]
      · simp [hexport, hname, exportedNames, add, enqueueAll]

theorem foldl_registerModule (chain : List IrModule) : ∀ s : IrLinkReachability,
    chain.foldl registerModule s = { s with
      functions := (chain.flatMap (·.functions)).foldl enterFunction s.functions
      classes := (chain.flatMap (·.classes)).foldl
        (fun table v => tableAdd table v.symbol.name v) s.classes
      imports := (chain.flatMap (·.imports)).foldl
        (fun table v => tableAdd table v.symbol.name v) s.imports
      pending := enqueueAll s.pending
        ((exportedNames (chain.flatMap (·.functions))).filter (· ≠ ""))
      exportedSymbols := enqueueAll s.exportedSymbols
        (((chain.flatMap (·.functions)).filter (·.cExportSymbol ≠ "")).map (·.cExportSymbol)) } := by
  induction chain with
  | nil => exact fun _ => rfl
  | cons m rest ih =>
    intro s
    rw [foldl_cons, ih, registerModule, foldl_registerFunction]
    simp [exportedNames, enqueueAll]

/-! ## One name -/

theorem takeImport_eq (s : IrLinkReachability) (imported : IrImport) :
    ∃ libraries features, s.takeImport imported =
        { s with nativeLibraries := libraries, runtimeFeatures := features } ∧
      (∀ library, library ∈ libraries ↔ library ∈ s.nativeLibraries ∨
        (library ≠ "" ∧ imported.nativeLibrary = library)) ∧
      ∀ feature, RuntimeFeatures.has features feature =
        (RuntimeFeatures.has s.runtimeFeatures feature ||
          RuntimeFeatures.has (importFeatures imported) feature) := by
  refine ⟨_, _, rfl, fun library => ?_, fun feature => ?_⟩
  · by_cases hlibrary : imported.nativeLibrary = ""
    · rw [if_pos hlibrary]
      refine ⟨.inl, fun h => h.elim id fun hsame => absurd (hsame.2 ▸ hlibrary) hsame.1⟩
    · rw [if_neg hlibrary, mem_enqueue]
      refine or_congr_right ⟨fun h => ⟨h ▸ hlibrary, h.symm⟩, fun h => h.2.symm⟩
  · unfold importFeatures
    cases imported.kind <;> simp [Bool.or_assoc]

theorem hasImplementation_iff {f : IrFunction} :
    HasImplementation f ↔ (f.blocks.isEmpty && f.linkReferences.isNone) = false := by
  unfold HasImplementation
  rw [Bool.and_eq_false_iff, isEmpty_eq_false_iff, Option.isNone_eq_false_iff,
    Option.isSome_iff_ne_none]

theorem visitFunction_eq_ok {s : IrLinkReachability} (h : s.visitFunction name = .ok t) :
    (∀ f, s.functions.lookup name = some f → HasImplementation f) ∧ ∃ features, t = { s with
          pending := enqueueAll s.pending (s.functionNames name)
          runtimeFeatures := features } ∧
        ∀ feature, RuntimeFeatures.has features feature =
          (RuntimeFeatures.has s.runtimeFeatures feature || (s.functions.lookup name).any
            fun f => RuntimeFeatures.has f.linkRuntimeFeatures feature) := by
  unfold visitFunction at h
  unfold functionNames
  cases hlookup : s.functions.lookup name with
  | none =>
    simp only [hlookup, Except.ok.injEq] at h
    subst h
    exact ⟨by simp, s.runtimeFeatures, rfl, by simp⟩
  | some f =>
    simp only [hlookup] at h
    split at h
    · cases h
    · rename_i himplemented
      rw [foldl_add, Except.ok.injEq] at h
      subst h
      refine ⟨fun g hg => ?_, _, rfl, by simp⟩
      cases hg
      exact hasImplementation_iff.mpr (Bool.eq_false_iff.mpr himplemented)

theorem visitFunction_eq_error {s : IrLinkReachability} (h : s.visitFunction name = .error t) :
    t.error ≠ "" ∧ ∃ f, s.functions.lookup name = some f ∧ ¬HasImplementation f := by
  unfold visitFunction at h
  cases hlookup : s.functions.lookup name with
  | none =>
    simp only [hlookup] at h
    cases h
  | some f =>
    simp only [hlookup] at h
    split at h
    · rename_i hmissing
      cases h
      refine ⟨fun hempty => ?_, f, rfl, fun himplemented => ?_⟩
      · have hlen := congrArg String.length hempty
        simp at hlen
      · rw [hasImplementation_iff.mp himplemented] at hmissing
        cases hmissing
    · cases h

/-! ## The loop -/

/-- What holds when the cursor has passed the names before it. -/
structure Passed (module_ : IrModule) (chain : List IrModule) (cursor : Nat)
    (s : IrLinkReachability) : Prop where
  queue : Inv (LinkEdge chain) (LinkRoot module_ chain) s.pending cursor
  functions : ∀ name, s.functions.lookup name = linkedFunction chain name
  classes : ∀ name, s.classes.lookup name = linkedClass chain name
  imports : ∀ name, s.imports.lookup name = linkedImport chain name
  noError : s.error = ""
  implemented : ∀ name ∈ s.pending.take cursor, ∀ f, linkedFunction chain name = some f →
    HasImplementation f
  libraries : ∀ library, library ∈ s.nativeLibraries ↔
    ∃ name ∈ s.pending.take cursor, NameLibrary chain name library
  features : ∀ feature, RuntimeFeatures.has s.runtimeFeatures feature = true ↔
    ∃ name ∈ s.pending.take cursor, NameFeature chain name feature

section Loop

variable {mod : IrModule} {chain : List IrModule} {cur : Nat} {s : IrLinkReachability}

def nextNames (s : IrLinkReachability) (name : String) : List String :=
  s.functionNames name ++ s.classNames name

theorem Passed.mem_nextNames (h : Passed mod chain cur s) (name other : String) :
    other ∈ s.nextNames name ↔ LinkEdge chain name other := by
  unfold nextNames functionNames classNames LinkEdge
  rw [h.functions, h.classes]
  cases linkedFunction chain name <;> cases linkedClass chain name <;>
    simp [and_comm, and_or_left]

theorem visitImport_eq (s : IrLinkReachability) (name : String) :
    ∃ libraries features, s.visitImport name =
        { s with nativeLibraries := libraries, runtimeFeatures := features } ∧
      (∀ library, library ∈ libraries ↔ library ∈ s.nativeLibraries ∨
        (library ≠ "" ∧ ∃ imported, s.imports.lookup name = some imported ∧
          imported.nativeLibrary = library)) ∧
      ∀ feature, RuntimeFeatures.has features feature = true ↔
        RuntimeFeatures.has s.runtimeFeatures feature = true ∨
          ∃ imported, s.imports.lookup name = some imported ∧
            RuntimeFeatures.has (importFeatures imported) feature = true := by
  unfold visitImport
  cases s.imports.lookup name with
  | none => exact ⟨s.nativeLibraries, s.runtimeFeatures, rfl, by simp, by simp⟩
  | some imported =>
    obtain ⟨libraries, features, heq, hlibraries, hfeatures⟩ := takeImport_eq s imported
    exact ⟨libraries, features, heq, fun library => by simp [hlibraries],
      fun feature => by simp [hfeatures]⟩

theorem Passed.step (h : Passed mod chain cur s)
    (hname : s.pending[cur]? = some name) (hvisit : s.visitFunction name = .ok t) :
    Passed mod chain (cur + 1) ((t.visitClass name).visitImport name) := by
  obtain ⟨himplemented, features, rfl, hfeatures⟩ := visitFunction_eq_ok hvisit
  rw [visitClass_eq]
  obtain ⟨libraries, allFeatures, heq, hlibraries, hall⟩ := visitImport_eq
    { s with
      pending := enqueueAll (enqueueAll s.pending (s.functionNames name)) (s.classNames name)
      runtimeFeatures := features } name
  rw [heq]
  have hpending : enqueueAll (enqueueAll s.pending (s.functionNames name)) (s.classNames name) =
      enqueueAll s.pending (s.nextNames name) := by
    rw [nextNames, enqueueAll, enqueueAll, enqueueAll, foldl_append]
  -- The names that the cursor has passed are those before and the present one.
  have htake : (enqueueAll s.pending (s.nextNames name)).take (cur + 1) =
      s.pending.take cur ++ [name] := by
    obtain ⟨hlt, hget⟩ := List.getElem_of_getElem? hname
    obtain ⟨added, hadded⟩ := enqueueAll_eq_append (s.nextNames name) s.pending
    rw [hadded, take_append_of_le_length hlt, take_add_one, hname]
    rfl
  simp only [hpending]
  refine ⟨h.queue.step hname (h.mem_nextNames name), h.functions, h.classes, h.imports, h.noError,
    ?_, ?_, ?_⟩
  · intro other hother f hf
    rw [htake, mem_append, mem_singleton] at hother
    rcases hother with hother | rfl
    · exact h.implemented other hother f hf
    · exact himplemented f ((h.functions other).trans hf)
  · intro library
    rw [hlibraries, htake]
    simp only [h.libraries, h.imports, mem_append, mem_singleton, or_and_right, exists_or,
      exists_eq_left]
    rfl
  · intro feature
    rw [hall, htake, hfeatures, Bool.or_eq_true, h.features]
    simp only [h.imports, h.functions, mem_append, mem_singleton, or_and_right, exists_or,
      exists_eq_left, NameFeature, Option.any_eq_true, or_assoc]
    exact or_congr_right Or.comm

def candidateNames (module_ : IrModule) (chain : List IrModule) : List String :=
  "main" :: (module_.sessionEntry.map (·.name)).toList ++
    chain.flatMap (fun m => m.functions.map (·.symbol.name) ++
      m.functions.flatMap irFunctionLinkReferences ++ m.classes.flatMap classLinkReferences)

theorem mem_chain_of_linkedFunction {f : IrFunction}
    (h : linkedFunction chain name = some f) : ∃ m ∈ chain, f ∈ m.functions := by
  have hmem : f ∈ chain.flatMap fun m => m.functions.filter (·.symbol.name = name) := by
    rw [linkedFunction, Option.or_eq_some_iff] at h
    rcases h with h | ⟨-, h⟩
    · exact mem_of_find?_eq_some h
    · rw [Option.or_eq_some_iff] at h
      rcases h with h | ⟨-, h⟩
      · exact mem_reverse.mp (mem_of_find?_eq_some h)
      · exact mem_of_head? h
  obtain ⟨m, hm, hf⟩ := mem_flatMap.mp hmem
  exact ⟨m, hm, mem_of_mem_filter hf⟩

theorem mem_chain_of_linkedClass {c : IrClass}
    (h : linkedClass chain name = some c) : ∃ m ∈ chain, c ∈ m.classes := by
  obtain ⟨m, hm, hc⟩ := mem_flatMap.mp (mem_of_head? h)
  exact ⟨m, hm, mem_of_mem_filter hc⟩

theorem Passed.length_le (h : Passed mod chain cur s) : s.pending.length ≤ nameBound mod chain := by
  refine h.queue.length_le (candidateNames mod chain) ?_ ?_
  · rintro name ⟨-, rfl | hsession | ⟨m, hm, f, hf, -, rfl⟩⟩
    · simp [candidateNames]
    · simp [candidateNames, hsession]
    · refine mem_append_right _ (mem_flatMap.mpr ⟨m, hm, ?_⟩)
      exact mem_append_left _ (mem_append_left _ (mem_map_of_mem hf))
  · rintro name other ⟨-, ⟨f, hf, hother⟩ | ⟨c, hc, hother⟩⟩
    · obtain ⟨m, hm, hmem⟩ := mem_chain_of_linkedFunction hf
      refine mem_append_right _ (mem_flatMap.mpr ⟨m, hm, ?_⟩)
      exact mem_append_left _ (mem_append_right _ (mem_flatMap.mpr ⟨f, hmem, hother⟩))
    · obtain ⟨m, hm, hmem⟩ := mem_chain_of_linkedClass hc
      refine mem_append_right _ (mem_flatMap.mpr ⟨m, hm, ?_⟩)
      exact mem_append_right _ (mem_flatMap.mpr ⟨c, hmem, hother⟩)

/-- With a turn for every name that can become pending, the loop ends behind the last name or at a live
function without an implementation. -/
theorem drain_spec : ∀ (fuel cur : Nat) (s : IrLinkReachability),
    Passed mod chain cur s → nameBound mod chain ≤ cur + fuel → match drain fuel cur s with
    | .ok r => ∃ cursor', Passed mod chain cursor' r ∧ r.pending.length ≤ cursor'
    | .error r => r.error ≠ "" ∧ ∃ name f, Live mod chain name ∧
        linkedFunction chain name = some f ∧ ¬HasImplementation f := by
  intro fuel
  induction fuel with
  | zero =>
    intro cur s h hfuel
    exact ⟨cur, h, h.length_le.trans hfuel⟩
  | succ fuel ih =>
    intro cur s h hfuel
    cases hname : s.pending[cur]? with
    | none =>
      simp only [drain, hname]
      exact ⟨cur, h, getElem?_eq_none_iff.mp hname⟩
    | some name =>
      have hdrain : drain (fuel + 1) cur s = s.visitFunction name >>= fun t =>
          drain fuel (cur + 1) ((t.visitClass name).visitImport name) := by
        simp only [drain, hname]
      rw [hdrain]
      cases hvisit : s.visitFunction name with
      | error t =>
        obtain ⟨herror, f, hf, hmissing⟩ := visitFunction_eq_error hvisit
        exact ⟨herror, name, f, h.queue.reached name (mem_of_getElem? hname),
          (h.functions name).symm.trans hf, hmissing⟩
      | ok t => exact ih _ _ (h.step hname hvisit) (by omega)

theorem passed_start (mod : IrModule) (chain : List IrModule) :
    Passed mod chain 0 (start mod chain) := by
  have hroots : start mod chain = ("main" :: (mod.sessionEntry.map (·.name)).toList).foldl add
      (chain.foldl registerModule {}) := by
    unfold start
    cases mod.sessionEntry <;> rfl
  rw [hroots, foldl_registerModule, foldl_add]
  refine ⟨.start ?_ fun name => ?_, lookup_functions _, fun name => ?_, fun name => ?_, rfl, by simp,
    by simp, by simp⟩
  · exact nodup_enqueueAll _ (nodup_enqueueAll _ nodup_nil)
  · simp only [mem_enqueueAll, LinkRoot, exportedNames, mem_filter, mem_map,
      mem_flatMap, mem_cons, Option.mem_toList, not_mem_nil, false_or]
    constructor
    · rintro (⟨⟨f, ⟨⟨m, hm, hf⟩, hexport⟩, rfl⟩, hne⟩ | ⟨hname, hne⟩)
      · exact ⟨by simpa using hne, .inr (.inr ⟨m, hm, f, hf, by simpa using hexport, rfl⟩)⟩
      · exact ⟨by simpa using hne, hname.imp_right .inl⟩
    · rintro ⟨hne, hname | hname | ⟨m, hm, f, hf, hexport, rfl⟩⟩
      · exact .inr ⟨.inl hname, by simpa using hne⟩
      · exact .inr ⟨.inr hname, by simpa using hne⟩
      · exact .inl ⟨⟨f, ⟨⟨m, hm, hf⟩, by simpa using hexport⟩, rfl⟩, by simpa using hne⟩
  · rw [lookup_foldl_tableAdd, filter_flatMap]
    rfl
  · rw [lookup_foldl_tableAdd, filter_flatMap]
    rfl

end Loop

/-! ## The whole analysis -/

theorem foldl_takeImport (imports : List IrImport) : ∀ s : IrLinkReachability,
    (imports.foldl takeImport s).pending = s.pending ∧
      (imports.foldl takeImport s).error = s.error ∧
      ∀ feature, RuntimeFeatures.has s.runtimeFeatures feature = true →
        RuntimeFeatures.has (imports.foldl takeImport s).runtimeFeatures feature = true := by
  induction imports with
  | nil => exact fun s => ⟨rfl, rfl, fun _ h => h⟩
  | cons imported rest ih =>
    intro s
    obtain ⟨libraries, features, heq, -, hfeatures⟩ := takeImport_eq s imported
    obtain ⟨hpending, herror, hkept⟩ := ih (s.takeImport imported)
    rw [heq] at hpending herror hkept
    rw [foldl_cons, heq]
    exact ⟨hpending, herror, fun feature h => hkept feature (by rw [hfeatures, h, Bool.true_or])⟩

/-- A module whose future sources can use all imports. -/
def IsSession (module_ : IrModule) (s : IrLinkReachability) : Prop :=
  RuntimeFeatures.has s.runtimeFeatures .sessionModules = true ∨ module_.sessionEntry ≠ none

/-- The analysis stops at a live function without an implementation, or it ends with the state behind
the last pending name; only for a session it then takes the other imports. -/
theorem analyze_cases (mod : IrModule) (parents : List IrModule) :
    ((analyze mod parents).error ≠ "" ∧ ∃ name f, Live mod (mod :: parents) name ∧
      linkedFunction (mod :: parents) name = some f ∧ ¬HasImplementation f) ∨
    ∃ s cur, Passed mod (mod :: parents) cur s ∧ s.pending.length ≤ cur ∧
      (analyze mod parents).pending = s.pending ∧ (analyze mod parents).error = "" ∧
      (IsSession mod (analyze mod parents) ↔ IsSession mod s) ∧
      (¬IsSession mod s → analyze mod parents = s) := by
  have hdrain := drain_spec (nameBound mod (mod :: parents)) 0 _
    (passed_start mod _) (Nat.le_add_left ..)
  unfold analyze
  split at hdrain
  · rename_i s hs
    obtain ⟨cur, hpassed, hlen⟩ := hdrain
    refine .inr ⟨s, cur, hpassed, hlen, ?_⟩
    simp only [hs]
    split
    · rename_i hsession
      have hsession' : IsSession mod s := by
        rw [Bool.or_eq_true, Option.isSome_iff_ne_none] at hsession
        exact hsession
      have hfold := foldl_takeImport ((mod :: parents).flatMap (·.imports)) s
      rw [foldl_flatMap] at hfold
      obtain ⟨hpending, herror, hkept⟩ := hfold
      refine ⟨hpending, herror.trans hpassed.noError, ⟨fun _ => hsession', ?_⟩,
        fun h => absurd hsession' h⟩
      rintro (hfeature | hentry)
      · exact .inl (hkept _ hfeature)
      · exact .inr hentry
    · exact ⟨rfl, hpassed.noError, Iff.rfl, fun _ => rfl⟩
  · rename_i s hs
    refine .inl ?_
    simp only [hs]
    exact hdrain

section Order

variable {chain chain' : List IrModule}

/-- Among declarations with different names, the order does not matter for the ones of a name. -/
theorem filter_eq_of_perm {key : α → String} {values values' : List α}
    (hperm : values.Perm values') (hnodup : (values.map key).Nodup) (name : String) :
    values'.filter (key · = name) = values.filter (key · = name) := by
  have hfilter : (values.filter (key · = name)).Perm (values'.filter (key · = name)) :=
    hperm.filter _
  have hshort : (values.filter (key · = name)).length ≤ 1 := by
    have hcount := nodup_iff_count_le_one.mp hnodup name
    rwa [count, countP_map, countP_eq_length_filter] at hcount
  match hvalues : values.filter (key · = name) with
  | [] =>
    rw [hvalues] at hfilter
    exact hfilter.nil_eq.symm
  | [v] =>
    rw [hvalues] at hfilter
    exact perm_singleton.mp hfilter.symm
  | _ :: _ :: _ =>
    rw [hvalues] at hshort
    simp at hshort

/-- The declarations of a name, along two chains with the same declarations. -/
theorem flatMap_filter_eq {key : α → String} {values : IrModule → List α}
    (hsame : List.Forall₂ SameDeclarations chain chain')
    (hperm : ∀ m m', SameDeclarations m m' → (values m).Perm (values m'))
    (hnodup : ∀ m ∈ chain, ((values m).map key).Nodup) (name : String) :
    (chain'.flatMap fun m => (values m).filter (key · = name)) =
      chain.flatMap fun m => (values m).filter (key · = name) := by
  induction hsame with
  | nil => rfl
  | cons hhead _ ih =>
    rw [flatMap_cons, flatMap_cons, filter_eq_of_perm (hperm _ _ hhead) (hnodup _ mem_cons_self),
      ih fun m hm => hnodup m (mem_cons_of_mem _ hm)]

variable (hsame : List.Forall₂ SameDeclarations chain chain') (hnames : ∀ m ∈ chain, DistinctNames m)

include hsame hnames

theorem linkedFunction_eq (name : String) : linkedFunction chain' name = linkedFunction chain name := by
  unfold linkedFunction
  rw [flatMap_filter_eq hsame (fun _ _ h => h.functions) (fun m hm => (hnames m hm).functions)]

theorem linkedClass_eq (name : String) : linkedClass chain' name = linkedClass chain name := by
  unfold linkedClass
  rw [flatMap_filter_eq hsame (fun _ _ h => h.classes) (fun m hm => (hnames m hm).classes)]

theorem linkedImport_eq (name : String) : linkedImport chain' name = linkedImport chain name := by
  unfold linkedImport
  rw [flatMap_filter_eq hsame (fun _ _ h => h.imports) (fun m hm => (hnames m hm).imports)]

theorem linkEdge_eq : LinkEdge chain' = LinkEdge chain := by
  funext name other
  unfold LinkEdge
  rw [linkedFunction_eq hsame hnames, linkedClass_eq hsame hnames]

end Order

theorem linkRoot_eq {mod module' : IrModule} {chain chain' : List IrModule}
    (hentry : module'.sessionEntry = mod.sessionEntry)
    (hsame : List.Forall₂ SameDeclarations chain chain') :
    LinkRoot module' chain' = LinkRoot mod chain := by
  have hexports : ∀ name, (∃ m ∈ chain', ∃ f ∈ m.functions, f.cExportSymbol ≠ "" ∧
      f.symbol.name = name) ↔
      ∃ m ∈ chain, ∃ f ∈ m.functions, f.cExportSymbol ≠ "" ∧ f.symbol.name = name := by
    intro name
    induction hsame with
    | nil => rfl
    | cons hhead _ ih =>
      rw [exists_mem_cons_iff, exists_mem_cons_iff, ih]
      exact or_congr_left (exists_congr fun f => and_congr_left fun _ => hhead.functions.mem_iff.symm)
  funext name
  unfold LinkRoot
  rw [hentry, hexports]

/-! ## Exactness -/

section Exact

variable {mod : IrModule} {chain : List IrModule} {cur : Nat} {s : IrLinkReachability}

theorem Passed.mem_pending_iff (h : Passed mod chain cur s)
    (hlen : s.pending.length ≤ cur) (name : String) :
    name ∈ s.pending ↔ Live mod chain name := h.queue.mem_iff hlen name

theorem isLeast_live (mod : IrModule) (chain : List IrModule) :
    IsLeast {names | LinkClosed mod chain names} {name | Live mod chain name} := by
  refine ⟨⟨fun name hroot => ⟨name, hroot, .refl⟩, ?_⟩, ?_⟩
  · rintro name ⟨start, hstart, hreach⟩ other hedge
    exact ⟨start, hstart, hreach.tail hedge⟩
  · rintro names hclosed name ⟨start, hstart, hreach⟩
    induction hreach with
    | refl => exact hclosed.roots start hstart
    | tail _ hedge ih => exact hclosed.references _ ih _ hedge

theorem Passed.implemented_of_live (h : Passed mod chain cur s)
    (hlen : s.pending.length ≤ cur) {f : IrFunction}
    (hlive : Live mod chain name) (hf : linkedFunction chain name = some f) :
    HasImplementation f := by
  refine h.implemented name ?_ f hf
  rw [take_of_length_le hlen]
  exact (h.mem_pending_iff hlen name).mpr hlive

theorem error_eq_empty_iff (mod : IrModule) (parents : List IrModule) :
    (analyze mod parents).error = "" ↔ ∀ name f, Live mod (mod :: parents) name →
      linkedFunction (mod :: parents) name = some f → HasImplementation f := by
  rcases analyze_cases mod parents with
    ⟨herror, name, f, hlive, hf, hmissing⟩ | ⟨s, cur, hpassed, hlen, -, herror, -⟩
  · exact ⟨fun h => absurd h herror, fun h => absurd (h name f hlive hf) hmissing⟩
  · exact ⟨fun _ name f hlive hf => hpassed.implemented_of_live hlen hlive hf, fun _ => herror⟩

/-- Without an error, the names that can be reached are marked, and unless the module is a session, the
libraries and the features are those of the marked names. -/
theorem analyze_of_no_error {mod : IrModule} {parents : List IrModule}
    (herror : (analyze mod parents).error = "") : (∀ name, name ∈ (analyze mod parents).pending ↔
      Live mod (mod :: parents) name) ∧
    (¬IsSession mod (analyze mod parents) ↔ ¬(mod.sessionEntry ≠ none ∨
      ∃ name, Live mod (mod :: parents) name ∧ NameFeature (mod :: parents) name .sessionModules)) ∧
    (¬IsSession mod (analyze mod parents) →
      (∀ library, library ∈ (analyze mod parents).nativeLibraries ↔
        ∃ name, Live mod (mod :: parents) name ∧ NameLibrary (mod :: parents) name library) ∧
      ∀ feature, RuntimeFeatures.has (analyze mod parents).runtimeFeatures feature = true ↔
        ∃ name, Live mod (mod :: parents) name ∧ NameFeature (mod :: parents) name feature) := by
  rcases analyze_cases mod parents with
    ⟨hfailed, -⟩ | ⟨s, cur, hpassed, hlen, hpending, -, hsession, hsame⟩
  · exact absurd herror hfailed
  · have hlibraries : ∀ library, library ∈ s.nativeLibraries ↔
        ∃ name, Live mod (mod :: parents) name ∧ NameLibrary (mod :: parents) name library := by
      intro library
      simp only [hpassed.libraries, take_of_length_le hlen, hpassed.mem_pending_iff hlen]
    have hfeatures : ∀ feature, RuntimeFeatures.has s.runtimeFeatures feature = true ↔
        ∃ name, Live mod (mod :: parents) name ∧ NameFeature (mod :: parents) name feature := by
      intro feature
      simp only [hpassed.features, take_of_length_le hlen, hpassed.mem_pending_iff hlen]
    refine ⟨fun name => by rw [hpending, hpassed.mem_pending_iff hlen], ?_, fun hnot => ?_⟩
    · rw [hsession, IsSession, hfeatures, or_comm]
    · rw [hsame (fun h => hnot (hsession.mpr h))]
      exact ⟨hlibraries, hfeatures⟩

end Exact

/-- The analysis reports no error exactly if every live function has a body or recorded references. It
then marks the least set of names with the roots and with what its functions and classes refer to, and
unless the module is a session, the libraries and the features are those of the marked imports and of
the recorded implementations. All of this is the same for every order of the declarations of a module
with distinct names. -/
theorem link_reachability_exact (module_ : IrModule) (retainedParents : List IrModule) :
    ((analyze module_ retainedParents).error = "" ↔ ∀ name f,
      Live module_ (module_ :: retainedParents) name →
      linkedFunction (module_ :: retainedParents) name = some f → HasImplementation f) ∧
    ((analyze module_ retainedParents).error = "" →
      IsLeast {names | LinkClosed module_ (module_ :: retainedParents) names}
        {name | name ∈ (analyze module_ retainedParents).pending} ∧
      (¬IsSession module_ (analyze module_ retainedParents) →
        (∀ library, library ∈ (analyze module_ retainedParents).nativeLibraries ↔
          ∃ name ∈ (analyze module_ retainedParents).pending,
            NameLibrary (module_ :: retainedParents) name library) ∧
        ∀ feature,
          RuntimeFeatures.has (analyze module_ retainedParents).runtimeFeatures feature = true ↔
            ∃ name ∈ (analyze module_ retainedParents).pending,
              NameFeature (module_ :: retainedParents) name feature)) ∧
    ∀ module' retainedParents',
      List.Forall₂ SameDeclarations (module_ :: retainedParents) (module' :: retainedParents') →
      (∀ m ∈ module_ :: retainedParents, DistinctNames m) →
      ((analyze module' retainedParents').error = "" ↔
        (analyze module_ retainedParents).error = "") ∧
      ((analyze module_ retainedParents).error = "" →
        (∀ name, name ∈ (analyze module' retainedParents').pending ↔
          name ∈ (analyze module_ retainedParents).pending) ∧
        (¬IsSession module_ (analyze module_ retainedParents) →
          (∀ library, library ∈ (analyze module' retainedParents').nativeLibraries ↔
            library ∈ (analyze module_ retainedParents).nativeLibraries) ∧
          ∀ feature,
            RuntimeFeatures.has (analyze module' retainedParents').runtimeFeatures feature =
              RuntimeFeatures.has (analyze module_ retainedParents).runtimeFeatures feature)) := by
  refine ⟨error_eq_empty_iff module_ retainedParents, fun herror => ?_,
    fun module' parents' hsame hnames => ?_⟩
  · obtain ⟨hmarked, -, hreported⟩ := analyze_of_no_error herror
    simp only [hmarked]
    exact ⟨isLeast_live module_ _, hreported⟩
  · have hentry : module'.sessionEntry = module_.sessionEntry := by
      cases hsame with
      | cons hhead _ => exact hhead.sessionEntry
    have hlive : ∀ name, Live module' (module' :: parents') name ↔
        Live module_ (module_ :: retainedParents) name := by
      intro name
      unfold Live
      rw [linkRoot_eq hentry hsame, linkEdge_eq hsame hnames]
    have herrors : (analyze module' parents').error = "" ↔
        (analyze module_ retainedParents).error = "" := by
      rw [error_eq_empty_iff, error_eq_empty_iff]
      simp only [hlive, linkedFunction_eq hsame hnames]
    refine ⟨herrors, fun herror => ?_⟩
    obtain ⟨hmarked, hsession, hreported⟩ := analyze_of_no_error herror
    obtain ⟨hmarked', hsession', hreported'⟩ := analyze_of_no_error (herrors.mpr herror)
    have hlibrary : NameLibrary (module' :: parents') = NameLibrary (module_ :: retainedParents) := by
      funext name library
      simp only [NameLibrary, linkedImport_eq hsame hnames]
    have hfeature : NameFeature (module' :: parents') = NameFeature (module_ :: retainedParents) := by
      funext name feature
      simp only [NameFeature, linkedImport_eq hsame hnames, linkedFunction_eq hsame hnames]
    refine ⟨fun name => by rw [hmarked, hmarked', hlive], fun hnot => ?_⟩
    have hnot' : ¬IsSession module' (analyze module' parents') := by
      rw [hsession', hentry, hfeature]
      simp only [hlive]
      exact hsession.mp hnot
    obtain ⟨hlibraries, hfeatures⟩ := hreported hnot
    obtain ⟨hlibraries', hfeatures'⟩ := hreported' hnot'
    refine ⟨fun library => ?_, fun feature => ?_⟩
    · rw [hlibraries, hlibraries', hlibrary]
      simp only [hlive]
    · rw [Bool.eq_iff_iff, hfeatures, hfeatures', hfeature]
      simp only [hlive]

/-- A function of a name. -/
def namedFunction (name : String) (retained : Bool) (linkReferences : Option (List String))
    (linkRuntimeFeatures : RuntimeFeatures) : IrFunction where
  symbol := ⟨"m", .function, name⟩
  resultType := .scalar .void
  kind := .function
  retained := retained
  location := irNoLocation
  linkReferences := linkReferences
  linkRuntimeFeatures := linkRuntimeFeatures

def readImport : IrImport where
  symbol := ⟨"m", .libraryFunction, "read"⟩
  resultType := .scalar .void
  kind := .cAbi
  linkName := "neri_rt_v1_file_read"
  nativeLibrary := "z"
  effects := .empty
  location := irNoLocation

/-- Two functions that refer to each other, and an import of one of them. -/
def cyclicModule : IrModule where
  functions := [namedFunction "main" false (some ["loop"]) 0,
    namedFunction "loop" false (some ["main", "read"]) 0]
  imports := [readImport]

theorem link_reachability_exact_cyclicModule :
    (analyze cyclicModule []).pending = ["main", "loop", "read"] ∧
      (analyze cyclicModule []).nativeLibraries = ["z"] ∧
      IsLeast {names | LinkClosed cyclicModule [cyclicModule] names}
        {name | name ∈ ["main", "loop", "read"]} := by
  have herror : (analyze cyclicModule []).error = "" := by decide
  have hpending : (analyze cyclicModule []).pending = ["main", "loop", "read"] := by decide
  have hleast := ((link_reachability_exact cyclicModule []).2.1 herror).1
  exact ⟨hpending, by decide, hleast⟩

/-- The features of a recorded implementation are reported although no import is marked; and behind a
function without an implementation the analysis stops, so a live name stays unmarked. -/
theorem analyze_recordedFeature_stops : (RuntimeFeatures.has (analyze
        { functions := [namedFunction "main" false (some []) (2 ^ 15)] } []).runtimeFeatures .files =
      true) ∧
    (analyze { functions := [namedFunction "main" false (some ["f", "g"]) 0,
        namedFunction "f" true none 0, namedFunction "g" false (some ["h"]) 0] } []).pending =
      ["main", "f", "g"] := by
  refine ⟨by decide, by decide⟩

end IrLinkReachability

end Neri.Ir
