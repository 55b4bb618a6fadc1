import Neri.Codegen.Proofs.HasLoopProofs
import Neri.Lib.Saturation

/-!
# Allocation regions are safe

The passes over the functions are a saturation: a function gets its fact, whether it is in `bulk`, once
all its callees have theirs. A derivation of a fact is a finite tree of calls, so everything reachable
from a selected function is local and lies on no cycle of calls, in whatever order the functions stand.
-/

namespace Neri.Codegen

open Neri.Ir Relation List

variable {f : Function} {index : Nat} {places : List Nat} {v bulk : Bool}

/-! ## A pass is a pass of a saturation -/

def calleeFact (module_ : CodegenModule) (known : List (Nat × Bool)) (instruction : Instruction) :
    Option Bool := do
  let sym ← instruction.symbol
  let callee ← definitionOf module_ sym
  known.lookup callee

def localInstruction (module_ : CodegenModule) (known : List (Nat × Bool))
    (instruction : Instruction) : Bool :=
  if instruction.isDirectCall then (calleeFact module_ known instruction).isSome
  else localOperation instruction.opcode

/-- A call of a function in `bulk`. -/
def callsBulk (module_ : CodegenModule) (known : List (Nat × Bool)) (instruction : Instruction) :
    Bool :=
  instruction.isDirectCall && calleeFact module_ known instruction == some true

/-- Every call names a function. -/
def NamesCallees (instructions : List Instruction) : Prop :=
  ∀ instr ∈ instructions, instr.isDirectCall = true → instr.symbol.isSome

/-- A function for which a pass finds the loops and the callees. -/
def Function.Scannable (f : Function) : Prop := (hasLoop f).isSome ∧ NamesCallees f.instructions

/-- The fact of a function, from the facts of its callees. -/
def regionRule (module_ : CodegenModule) (known : List (Nat × Bool)) (index : Nat) : Option Bool :=
  match module_.functions[index]? with
  | none => none
  | some f =>
    if f.isOpaqueRegion then none
    else if f.instructions.all (localInstruction module_ known) then
      some (((hasLoop f).getD false || f.instructions.any (callsBulk module_ known)) && f.allocates)
    else none

variable {mod : CodegenModule} {known : List (Nat × Bool)}

variable {instr : Instruction}

theorem scanInstruction_eq (state : Bool × Bool)
    (hsym : instr.isDirectCall = true → instr.symbol.isSome) :
    scanInstruction mod known state instr = some (state.1 && localInstruction mod known instr,
        state.2 || callsBulk mod known instr) := by
  unfold scanInstruction localInstruction callsBulk calleeFact
  by_cases hcall : instr.isDirectCall = true
  · obtain ⟨sym, hsome⟩ := Option.isSome_iff_exists.mp (hsym hcall)
    cases hdefined : definitionOf mod sym with
    | none => simp [hcall, hsome, hdefined]
    | some callee => simp [hcall, hsome, hdefined]
  · simp [hcall]

theorem foldlM_scanInstruction_eq (instructions : List Instruction) :
    ∀ state : Bool × Bool, NamesCallees instructions →
    instructions.foldlM (scanInstruction mod known) state =
      some (state.1 && instructions.all (localInstruction mod known),
        state.2 || instructions.any (callsBulk mod known)) := by
  induction instructions with
  | nil => intro state _; simp
  | cons instr rest ih =>
    intro state hsymbols
    rw [foldlM_cons, scanInstruction_eq state (hsymbols instr mem_cons_self)]
    simp only [Option.bind_eq_bind, Option.bind_some]
    rw [ih _ fun other hother => hsymbols other (mem_cons_of_mem _ hother)]
    simp [Bool.and_assoc, Bool.or_assoc]

theorem symbols_of_foldlM_scanInstruction (instructions : List Instruction) :
    ∀ state state' : Bool × Bool,
    instructions.foldlM (scanInstruction mod known) state = some state' →
    NamesCallees instructions := by
  induction instructions with
  | nil => simp [NamesCallees]
  | cons first rest ih =>
    intro state state' hscan instr hmem hcall
    obtain ⟨between, hfirst, hrest⟩ := Option.bind_eq_some_iff.mp hscan
    rcases mem_cons.mp hmem with rfl | hmem
    · rw [scanInstruction, if_pos hcall] at hfirst
      obtain ⟨sym, hsym, -⟩ := Option.bind_eq_some_iff.mp hfirst
      simp [hsym]
    · exact ih _ _ hrest instr hmem hcall

theorem lookup_isSome_eq_false_iff :
    (known.lookup index).isSome = false ↔ index ∉ known.map Prod.fst := by
  rw [Option.isSome_eq_false_iff, Option.isNone_iff_eq_none, lookup_eq_none_iff]
  simp only [mem_map, not_exists, not_and, bne_iff_ne]
  exact forall₂_congr fun _ _ => ne_comm

theorem visitFunction_eq (hf : mod.functions[index]? = some f)
    (hscan : f.isOpaqueRegion = false → f.Scannable) : visitFunction mod known (f, index) =
      some (Saturation.visit (regionRule mod) known index) := by
  unfold visitFunction Saturation.visit
  by_cases hknown : index ∈ known.map Prod.fst
  · have hlookup : (known.lookup index).isSome = true := by
      by_contra hnone
      exact lookup_isSome_eq_false_iff.mp (Bool.eq_false_iff.mpr hnone) hknown
    rw [if_pos hknown, if_pos (by simp [hlookup])]
  · have hlookup := lookup_isSome_eq_false_iff.mpr hknown
    rw [if_neg hknown]
    simp only [hlookup, Bool.false_or, regionRule, hf]
    by_cases hregion : f.isOpaqueRegion = true
    · simp [hregion]
    · obtain ⟨hloop, hsymbols⟩ := hscan (Bool.eq_false_iff.mpr hregion)
      obtain ⟨looping, hlooping⟩ := Option.isSome_iff_exists.mp hloop
      simp only [if_neg hregion, hlooping, Option.bind_eq_bind, Option.bind_some,
        foldlM_scanInstruction_eq _ _ hsymbols, Bool.true_and, Option.getD_some]
      by_cases hlocal : f.instructions.all (localInstruction mod known) = true
      · simp only [if_pos hlocal]
        rfl
      · simp only [if_neg hlocal]
        rfl

/-- Every function that a pass looks into can be scanned. -/
def AllScannable (module_ : CodegenModule) : Prop :=
  ∀ f ∈ module_.functions, f.isOpaqueRegion = false → f.Scannable

theorem foldlM_visitFunction_eq (hscan : AllScannable mod) :
    mod.functions.zipIdx.foldlM (visitFunction mod) known =
      some (Saturation.pass (regionRule mod) (range mod.functions.length) known) := by
  have hfold : ∀ (entries : List (Function × Nat)) (known : List (Nat × Bool)),
      (∀ e ∈ entries, mod.functions[e.2]? = some e.1) →
      entries.foldlM (visitFunction mod) known =
        some ((entries.map Prod.snd).foldl (Saturation.visit (regionRule mod)) known) := by
    intro entries
    induction entries with
    | nil => exact fun _ _ => rfl
    | cons e rest ih =>
      intro known hentries
      have he := hentries e mem_cons_self
      rw [foldlM_cons, visitFunction_eq he (hscan e.1 (mem_of_getElem? he))]
      exact ih _ fun other hother => hentries other (mem_cons_of_mem _ hother)
  rw [hfold _ _ fun e he => mem_zipIdx_iff_getElem?.mp he,
    zipIdx_map_snd, Saturation.pass, range_eq_range']

theorem compatibleFunctions_eq (hscan : AllScannable mod) : ∀ (fuel : Nat)
    (known : List (Nat × Bool)), compatibleFunctions mod fuel known =
      Saturation.saturate (regionRule mod) (range mod.functions.length) fuel known := by
  intro fuel
  induction fuel with
  | zero => exact fun _ => rfl
  | succ fuel ih =>
    intro known
    simp only [compatibleFunctions, foldlM_visitFunction_eq hscan, Option.bind_eq_bind,
      Option.bind_some, Saturation.saturate]
    split
    · rfl
    · exact ih _

/-- A pass from nothing has scanned every function it looks into: one that cannot be scanned never
becomes known. -/
theorem allScannable_of_pass {result : List (Nat × Bool)}
    (hpass : mod.functions.zipIdx.foldlM (visitFunction mod) [] = some result) :
    AllScannable mod := by
  have hfold : ∀ (entries : List (Function × Nat)) (known : List (Nat × Bool)),
      (∀ e ∈ entries, mod.functions[e.2]? = some e.1) →
      (∀ fact ∈ known, ∃ f, mod.functions[fact.1]? = some f ∧ f.Scannable) →
      entries.foldlM (visitFunction mod) known = some result →
      ∀ e ∈ entries, e.1.isOpaqueRegion = false → e.1.Scannable := by
    intro entries
    induction entries with
    | nil => simp
    | cons e rest ih =>
      intro known hentries hknown hfold
      obtain ⟨next, hvisit, hrest⟩ := Option.bind_eq_some_iff.mp hfold
      have he := hentries e mem_cons_self
      have hscan : e.1.isOpaqueRegion = false → e.1.Scannable := by
        intro hregion
        by_cases hmem : e.2 ∈ known.map Prod.fst
        · obtain ⟨fact, hfact, heq⟩ := mem_map.mp hmem
          obtain ⟨f, hf, hscannable⟩ := hknown fact hfact
          rw [heq, he] at hf
          exact Option.some.inj hf ▸ hscannable
        · unfold visitFunction at hvisit
          rw [lookup_isSome_eq_false_iff.mpr hmem, hregion] at hvisit
          obtain ⟨looping, hlooping, hvisit⟩ := Option.bind_eq_some_iff.mp hvisit
          obtain ⟨state, hstate, -⟩ := Option.bind_eq_some_iff.mp hvisit
          exact ⟨by simp [hlooping], symbols_of_foldlM_scanInstruction _ _ _ hstate⟩
      have hnext : ∀ fact ∈ next, ∃ f, mod.functions[fact.1]? = some f ∧ f.Scannable := by
        rw [visitFunction_eq he hscan] at hvisit
        cases hvisit
        intro fact hfact
        unfold Saturation.visit at hfact
        split at hfact
        · exact hknown fact hfact
        · split at hfact
          · rename_i v hv
            rcases mem_append.mp hfact with hfact | hfact
            · exact hknown fact hfact
            · rw [mem_singleton.mp hfact]
              refine ⟨e.1, he, hscan ?_⟩
              simp only [regionRule, he] at hv
              by_contra hregion
              rw [if_pos (Bool.not_eq_false _ ▸ hregion)] at hv
              cases hv
          · exact hknown fact hfact
      intro other hother
      rcases mem_cons.mp hother with rfl | hother
      · exact hscan
      · exact ih next (fun other hother => hentries other (mem_cons_of_mem _ hother)) hnext
          hrest other hother
  intro f hf hregion
  obtain ⟨index, hindex⟩ := getElem?_of_mem hf
  exact hfold _ _ (fun e he => mem_zipIdx_iff_getElem?.mp he) (by simp) hpass
    (f, index) (mem_zipIdx_iff_getElem?.mpr hindex) hregion

/-! ## Facts about callees stay -/

theorem calleeFact_eq_some_iff : calleeFact mod known instr = some v ↔ ∃ sym callee,
      instr.symbol = some sym ∧ definitionOf mod sym = some callee ∧
        known.lookup callee = some v := by
  simp [calleeFact, Option.bind_eq_some_iff]

variable {known' : List (Nat × Bool)}

theorem calleeFact_of_subset
    (hsubset : known ⊆ known') (hnodup : (known'.map Prod.fst).Nodup)
    (h : calleeFact mod known instr = some v) : calleeFact mod known' instr = some v := by
  obtain ⟨sym, callee, hsym, hcallee, hlookup⟩ := calleeFact_eq_some_iff.mp h
  have hmem := hsubset (AssocList.mem_of_lookup hlookup)
  exact calleeFact_eq_some_iff.mpr
    ⟨sym, callee, hsym, hcallee, (AssocList.lookup_eq_some_iff hnodup).mpr hmem⟩

theorem regionRule_eq_some_iff : regionRule mod known index = some v ↔
      ∃ f, mod.functions[index]? = some f ∧ f.isOpaqueRegion = false ∧
        (∀ instr ∈ f.instructions, localInstruction mod known instr = true) ∧
        (((hasLoop f).getD false || f.instructions.any (callsBulk mod known)) && f.allocates) =
          v := by
  unfold regionRule
  cases mod.functions[index]? with
  | none => simp
  | some f =>
    by_cases hregion : f.isOpaqueRegion = true
    · simp [hregion]
    · by_cases hlocal : f.instructions.all (localInstruction mod known) = true
      · simp only [if_neg hregion, if_pos hlocal, Option.some.injEq, exists_eq_left']
        exact ⟨fun h => ⟨Bool.eq_false_iff.mpr hregion, all_eq_true.mp hlocal, h⟩, fun h => h.2.2⟩
      · simp only [if_neg hregion, if_neg hlocal, Option.some.injEq, exists_eq_left']
        exact ⟨fun h => (by cases h), fun h => absurd (all_eq_true.mpr h.2.1) hlocal⟩

/-- The fact of a function only depends on the function and the facts of its callees. -/
theorem regionRule_congr {module' : CodegenModule} {index' : Nat}
    (hf : mod.functions[index]? = some f) (hf' : module'.functions[index']? = some f)
    (hfacts : ∀ instr ∈ f.instructions, ∀ v, calleeFact mod known instr = some v →
      calleeFact module' known' instr = some v) (h : regionRule mod known index = some v) :
    regionRule module' known' index' = some v := by
  obtain ⟨g, hg, hregion, hlocal, hv⟩ := regionRule_eq_some_iff.mp h
  obtain rfl := Option.some.inj (hf.symm.trans hg)
  -- A call of a local function has a fact, and it is the same one in both modules.
  have hcalls : ∀ instr ∈ f.instructions, localInstruction module' known' instr = true ∧
        callsBulk module' known' instr = callsBulk mod known instr := by
    intro instr hmem
    have hlocal := hlocal instr hmem
    unfold localInstruction at hlocal ⊢
    unfold callsBulk
    by_cases hcall : instr.isDirectCall = true
    · rw [if_pos hcall] at hlocal ⊢
      obtain ⟨fact, hfact⟩ := Option.isSome_iff_exists.mp hlocal
      rw [hfact, hfacts instr hmem fact hfact]
      exact ⟨rfl, rfl⟩
    · rw [if_neg hcall] at hlocal ⊢
      simp [hlocal, hcall]
  have hany : f.instructions.any (callsBulk module' known') =
      f.instructions.any (callsBulk mod known) := by
    rw [Bool.eq_iff_iff, any_eq_true, any_eq_true]
    exact exists_congr fun i => and_congr_right fun hi => by rw [(hcalls i hi).2]
  exact regionRule_eq_some_iff.mpr
    ⟨f, hf', hregion, fun i hi => (hcalls i hi).1, by rw [← hv, hany]⟩

theorem stable_regionRule (mod : CodegenModule) : Saturation.Stable (regionRule mod) := by
  intro known known' index v hsubset hnodup h
  obtain ⟨f, hf, -⟩ := regionRule_eq_some_iff.mp h
  exact regionRule_congr hf hf (fun _ _ _ => calleeFact_of_subset hsubset hnodup) h

abbrev RegionFact (module_ : CodegenModule) : Nat → Bool → Prop :=
  Saturation.Derived (regionRule module_) (range module_.functions.length)

def regionFacts (module_ : CodegenModule) : List (Nat × Bool) :=
  (Saturation.saturate (regionRule module_) (range module_.functions.length)
    (module_.functions.length + 1) []).getD []

/-- The passes end, with the facts that can be derived. -/
theorem regionFacts_spec (mod : CodegenModule) :
    Saturation.saturate (regionRule mod) (range mod.functions.length)
        (mod.functions.length + 1) [] = some (regionFacts mod) ∧
      ((regionFacts mod).map Prod.fst).Nodup ∧
      ∀ index bulk, (index, bulk) ∈ regionFacts mod ↔ RegionFact mod index bulk := by
  obtain ⟨facts, hfacts, hspec⟩ :=
    Saturation.saturate_spec (range mod.functions.length) (stable_regionRule mod)
  rw [length_range] at hfacts
  rw [regionFacts, hfacts]
  exact ⟨rfl, hspec⟩

theorem mem_regionFacts_iff : (index, bulk) ∈ regionFacts mod ↔ RegionFact mod index bulk :=
  (regionFacts_spec mod).2.2 index bulk

/-- The selection is defined when every function can be scanned, and it selects from the facts. -/
theorem allocationRegions_eq_some_iff : allocationRegions mod = some places ↔
      AllScannable mod ∧ selectRegions mod (regionFacts mod) = some places := by
  have hknown := (regionFacts_spec mod).1
  constructor
  · intro h
    have hscan : AllScannable mod := by
      obtain ⟨known, hknown, -⟩ := Option.bind_eq_some_iff.mp h
      obtain ⟨next, hpass, -⟩ := Option.bind_eq_some_iff.mp hknown
      exact allScannable_of_pass hpass
    rw [allocationRegions, compatibleFunctions_eq hscan, hknown] at h
    exact ⟨hscan, h⟩
  · rintro ⟨hscan, h⟩
    rw [allocationRegions, compatibleFunctions_eq hscan, hknown]
    exact h

/-! ## What holds of functions with a fact -/

/-- A function that the rule accepts has facts about the functions it calls. -/
theorem exists_fact_of_directCall {callee : Nat}
    (hrule : regionRule mod known index = some bulk) (hcall : DirectCall mod index callee) :
    ∃ bulk', (callee, bulk') ∈ known := by
  obtain ⟨f, hf, -, hlocal, -⟩ := regionRule_eq_some_iff.mp hrule
  obtain ⟨g, instr, sym, hg, hmem, hdirect, hsym, hdefined⟩ := hcall
  obtain rfl := Option.some.inj (hf.symm.trans hg)
  have hfact := hlocal instr hmem
  rw [localInstruction, if_pos hdirect] at hfact
  obtain ⟨bulk', hbulk⟩ := Option.isSome_iff_exists.mp hfact
  simp only [calleeFact, hsym, hdefined, Option.bind_eq_bind, Option.bind_some] at hbulk
  exact ⟨bulk', AssocList.mem_of_lookup hbulk⟩

theorem RegionFact.callee {callee : Nat} (h : RegionFact mod index bulk)
    (hcall : DirectCall mod index callee) : ∃ bulk', RegionFact mod callee bulk' := by
  obtain @⟨known, _, _, hknown, -, hrule⟩ := h
  obtain ⟨bulk', hmem⟩ := exists_fact_of_directCall hrule hcall
  exact ⟨bulk', hknown _ hmem⟩

theorem RegionFact.reachable {other : Nat} (h : RegionFact mod index bulk)
    (hreach : ReflTransGen (DirectCall mod) index other) : ∃ bulk', RegionFact mod other bulk' := by
  induction hreach with
  | refl => exact ⟨bulk, h⟩
  | tail _ hcall ih =>
    obtain ⟨bulk', hfact⟩ := ih
    exact hfact.callee hcall

/-- A fact is derived along a finite tree of calls. -/
theorem RegionFact.acc (h : RegionFact mod index bulk) :
    Acc (Function.swap (DirectCall mod)) index := by
  induction h with
  | @intro known index bulk _ _ hrule ih =>
    refine ⟨index, fun callee hcall => ?_⟩
    obtain ⟨bulk', hmem⟩ := exists_fact_of_directCall hrule hcall
    exact ih (callee, bulk') hmem

theorem RegionFact.acyclic (h : RegionFact mod index bulk) :
    ¬TransGen (DirectCall mod) index index := by
  exact fun hcycle => not_transGen_self_of_acc h.acc (transGen_swap.mpr hcycle)

theorem RegionFact.staysInRegion (h : RegionFact mod index bulk) :
    ∃ f, StaysInRegion mod index f := by
  have hacyclic := h.acyclic
  obtain @⟨known, _, _, -, -, hrule⟩ := h
  obtain ⟨f, hf, hregion, hlocal, -⟩ := regionRule_eq_some_iff.mp hrule
  simp only [Function.isOpaqueRegion, Bool.or_eq_false_iff, Option.isSome_eq_false_iff,
    Option.isNone_iff_eq_none, isEmpty_eq_false_iff] at hregion
  refine ⟨f, hf, hregion.2, hregion.1, fun instr hmem => ?_, fun instr hmem hcall => ?_, hacyclic⟩
  · have hinstruction := hlocal instr hmem
    unfold localInstruction at hinstruction
    split at hinstruction
    · rename_i hcall
      exact .inl hcall
    · exact .inr hinstruction
  · have hinstruction := hlocal instr hmem
    rw [localInstruction, if_pos hcall] at hinstruction
    obtain ⟨bulk', hbulk⟩ := Option.isSome_iff_exists.mp hinstruction
    obtain ⟨sym, callee, hsym, hcallee, -⟩ := calleeFact_eq_some_iff.mp hbulk
    exact ⟨sym, callee, hsym, hcallee⟩

/-! ## The selection -/

theorem scalarBoundaries_eq_true : ∀ {types : List Ty}, scalarBoundaries types = some true →
    ∀ type ∈ types, scalarBoundary type = some true := by
  intro types
  induction types with
  | nil => simp
  | cons first rest ih =>
    intro h type htype
    obtain ⟨scalar, hscalar, h⟩ := Option.bind_eq_some_iff.mp h
    cases scalar with
    | false => cases h
    | true =>
      rcases mem_cons.mp htype with rfl | hmem
      · exact hscalar
      · exact ih h type hmem

theorem scalarSignature_eq_true (h : scalarSignature f = some true) :
    scalarBoundary f.resultType = some true ∧
      ∀ type ∈ f.parameterTypes, scalarBoundary type = some true := by
  have hall : scalarBoundaries (f.resultType :: f.parameterTypes) = some true := h
  exact forall_mem_cons.mp (scalarBoundaries_eq_true hall)

theorem selectRegions_isSome_iff :
    (selectRegions mod known).isSome ↔ ∀ fact ∈ known, (selectsRegion mod fact).isSome := by
  induction known with
  | nil => simp [selectRegions]
  | cons fact rest ih =>
    rw [forall_mem_cons, ← ih, selectRegions]
    cases selectsRegion mod fact with
    | none => simp
    | some selected => cases selectRegions mod rest <;> simp

theorem mem_of_selectRegions (h : selectRegions mod known = some places) :
    index ∈ places ↔ ∃ fact ∈ known, fact.1 = index ∧ selectsRegion mod fact = some true := by
  induction known generalizing places with
  | nil =>
    cases h
    simp
  | cons fact rest ih =>
    obtain ⟨selected, hselected, h⟩ := Option.bind_eq_some_iff.mp h
    obtain ⟨others, hothers, h⟩ := Option.bind_eq_some_iff.mp h
    cases h
    cases selected with
    | false => simp [hselected, ih hothers]
    | true => simp [hselected, ih hothers, eq_comm]

theorem selectsRegion_eq_true_iff {fact : Nat × Bool} : selectsRegion mod fact = some true ↔
      ∃ f, mod.functions[fact.1]? = some f ∧ fact.2 = true ∧ scalarSignature f = some true := by
  unfold selectsRegion
  cases mod.functions[fact.1]? with
  | none => simp
  | some f => cases fact.2 <;> simp

theorem mem_allocationRegions_iff (h : allocationRegions mod = some places) :
    index ∈ places ↔ RegionFact mod index true ∧
      ∃ f, mod.functions[index]? = some f ∧ scalarSignature f = some true := by
  rw [mem_of_selectRegions (allocationRegions_eq_some_iff.mp h).2]
  constructor
  · rintro ⟨⟨_, bulk⟩, hfact, rfl, hselects⟩
    obtain ⟨f, hf, rfl, hsignature⟩ := selectsRegion_eq_true_iff.mp hselects
    exact ⟨mem_regionFacts_iff.mp hfact, f, hf, hsignature⟩
  · rintro ⟨hfact, f, hf, hsignature⟩
    exact ⟨(index, true), mem_regionFacts_iff.mpr hfact, rfl,
      selectsRegion_eq_true_iff.mpr ⟨f, hf, rfl, hsignature⟩⟩

/-- The selection is defined when every function can be scanned and the boundary of every function in
`bulk` can be checked. -/
theorem allocationRegions_isSome_iff : (allocationRegions mod).isSome ↔ AllScannable mod ∧
      ∀ index f, RegionFact mod index true → mod.functions[index]? = some f →
        (scalarSignature f).isSome := by
  have hselect : (selectRegions mod (regionFacts mod)).isSome ↔
      ∀ index f, RegionFact mod index true → mod.functions[index]? = some f →
        (scalarSignature f).isSome := by
    rw [selectRegions_isSome_iff]
    constructor
    · intro h index f hfact hf
      have hsome := h (index, true) (mem_regionFacts_iff.mpr hfact)
      simpa only [selectsRegion, hf, if_true] using hsome
    · rintro h ⟨index, bulk⟩ hfact
      unfold selectsRegion
      split
      · rfl
      · rename_i f hf
        cases bulk with
        | false => rfl
        | true => exact h index f (mem_regionFacts_iff.mp hfact) hf
  rw [← hselect]
  simp only [Option.isSome_iff_exists, allocationRegions_eq_some_iff, exists_and_left]

/-! ## The order of the functions -/

section Order

variable {module' : CodegenModule}

theorem function_of_definitionOf {sym : SymbolId} (h : definitionOf mod sym = some index) :
    ∃ f, mod.functions[index]? = some f ∧ f.id = sym := by
  obtain ⟨hlt, hid, -⟩ := findIdx?_eq_some_iff_getElem.mp h
  exact ⟨mod.functions[index], getElem?_eq_getElem hlt, by simpa using hid⟩

theorem definitionOf_id
    (hnodup : (mod.functions.map (·.id)).Nodup) (hf : mod.functions[index]? = some f) :
    definitionOf mod f.id = some index := by
  obtain ⟨hlt, rfl⟩ := List.getElem_of_getElem? hf
  refine findIdx?_eq_some_iff_getElem.mpr ⟨hlt, by simp, fun earlier hearlier => ?_⟩
  have hlt' : earlier < mod.functions.length := Nat.lt_trans hearlier hlt
  simp only [beq_iff_eq]
  intro heq
  have hsame : (mod.functions.map (·.id))[earlier]? = (mod.functions.map (·.id))[index]? := by
    simp [hlt, hlt', heq]
  exact Nat.ne_of_lt hearlier
    ((getElem?_inj (by rwa [length_map]) hnodup).mp hsame)

variable (hnodup : (mod.functions.map (·.id)).Nodup) (hperm : mod.functions.Perm module'.functions)

include hnodup hperm

theorem nodup_of_perm : (module'.functions.map (·.id)).Nodup := (hperm.map _).nodup_iff.mp hnodup

theorem RegionFact.of_perm (h : RegionFact mod index bulk) :
    ∀ {f : Function} {index' : Nat}, mod.functions[index]? = some f →
      module'.functions[index']? = some f → RegionFact module' index' bulk := by
  have hnodup' := nodup_of_perm hnodup hperm
  have hkeys := (regionFacts_spec module').2.1
  induction h with
  | @intro known index bulk _ _ hrule ih =>
    intro f index' hf hf'
    refine .intro (fun e he => mem_regionFacts_iff.mp he)
      (List.mem_range.mpr (List.getElem_of_getElem? hf').1)
      (regionRule_congr hf hf' (fun instr _ v hv => ?_) hrule)
    obtain ⟨sym, callee, hsym, hcallee, hlookup⟩ := calleeFact_eq_some_iff.mp hv
    obtain ⟨g, hg, rfl⟩ := function_of_definitionOf hcallee
    obtain ⟨callee', hg'⟩ := getElem?_of_mem (hperm.mem_iff.mp (mem_of_getElem? hg))
    have hmem := mem_regionFacts_iff.mpr (ih _ (AssocList.mem_of_lookup hlookup) hg hg')
    exact calleeFact_eq_some_iff.mpr ⟨_, callee', hsym, definitionOf_id hnodup' hg',
      (AssocList.lookup_eq_some_iff hkeys).mpr hmem⟩

theorem allocationRegions_isSome_of_perm (h : (allocationRegions mod).isSome) :
    (allocationRegions module').isSome := by
  have hnodup' := nodup_of_perm hnodup hperm
  obtain ⟨hscan, hchecked⟩ := allocationRegions_isSome_iff.mp h
  refine allocationRegions_isSome_iff.mpr ⟨fun f hf => hscan f (hperm.mem_iff.mpr hf), ?_⟩
  intro index' f hfact hf'
  obtain ⟨index, hf⟩ := getElem?_of_mem (hperm.mem_iff.mpr (mem_of_getElem? hf'))
  exact hchecked index f (hfact.of_perm hnodup' hperm.symm hf' hf) hf

theorem mem_selected_of_perm {places' : List Nat}
    (h : allocationRegions mod = some places) (h' : allocationRegions module' = some places')
    {id : SymbolId} (hid : ∃ index ∈ places, (mod.functions[index]?).map (·.id) = some id) :
    ∃ index ∈ places', (module'.functions[index]?).map (·.id) = some id := by
  obtain ⟨index, hindex, hid⟩ := hid
  obtain ⟨hfact, f, hf, hsignature⟩ := (mem_allocationRegions_iff h).mp hindex
  obtain ⟨index', hf'⟩ := getElem?_of_mem (hperm.mem_iff.mp (mem_of_getElem? hf))
  refine ⟨index', (mem_allocationRegions_iff h').mpr ⟨hfact.of_perm hnodup hperm hf hf', f, hf',
    hsignature⟩, ?_⟩
  rw [hf] at hid
  rw [hf', hid]

theorem selectedIds_eq_of_perm : selectedIds module' = selectedIds mod := by
  have hnodup' := nodup_of_perm hnodup hperm
  unfold selectedIds
  cases h : allocationRegions mod with
  | none =>
    cases h' : allocationRegions module' with
    | none => rfl
    | some places' =>
      have hsome := allocationRegions_isSome_of_perm hnodup' hperm.symm (by simp [h'])
      simp [h] at hsome
  | some places =>
    obtain ⟨places', h'⟩ := Option.isSome_iff_exists.mp
      (allocationRegions_isSome_of_perm hnodup hperm (by simp [h]))
    rw [h', Option.map_some]
    congr 1
    ext id
    simp only [mem_toFinset, mem_filterMap]
    exact ⟨mem_selected_of_perm hnodup' hperm.symm h' h, mem_selected_of_perm hnodup hperm h h'⟩

end Order

/-! ## The selection is safe -/

mutual

/-- The type itself and the types in it. -/
def Ty.parts : Ty → List Ty
  | ⟨tag, symbol, arguments, elementCount⟩ =>
    ⟨tag, symbol, arguments, elementCount⟩ :: Ty.partsOf arguments

def Ty.partsOf : List Ty → List Ty
  | [] => []
  | first :: rest => first.parts ++ Ty.partsOf rest

end

theorem scalarBoundary_isSome : ∀ (type : Ty),
    (∀ part ∈ type.parts, part.tag = .optional → part.arguments ≠ []) → (scalarBoundary type).isSome
  | ⟨tag, symbol, arguments, elementCount⟩ => by
    intro hparts
    rw [Ty.parts, forall_mem_cons] at hparts
    cases tag
    case optional =>
      cases arguments with
      | nil => exact absurd rfl (hparts.1 rfl)
      | cons first rest =>
        rw [scalarBoundary]
        exact scalarBoundary_isSome first fun part hpart =>
          hparts.2 part (by rw [Ty.partsOf]; exact mem_append_left _ hpart)
    all_goals rfl

/-- The selection is defined for every module whose edges lead to blocks, whose calls name a function
and whose optional types have an argument: the loop searches and the growth end within their fuel. -/
theorem allocationRegions_isSome (hedges : ∀ f ∈ mod.functions, f.EdgesClosed)
    (hcalls : ∀ f ∈ mod.functions, NamesCallees f.instructions)
    (htypes : ∀ f ∈ mod.functions, ∀ type ∈ f.resultType :: f.parameterTypes,
      ∀ part ∈ type.parts, part.tag = .optional → part.arguments ≠ []) :
    (allocationRegions mod).isSome := by
  have hboundaries : ∀ types : List Ty, (∀ type ∈ types, (scalarBoundary type).isSome) →
      (scalarBoundaries types).isSome := by
    intro types
    induction types with
    | nil => exact fun _ => rfl
    | cons first rest ih =>
      intro hall
      obtain ⟨scalar, hscalar⟩ := Option.isSome_iff_exists.mp (hall first mem_cons_self)
      cases scalar with
      | false => simp [scalarBoundaries, hscalar]
      | true =>
        simpa [scalarBoundaries, hscalar] using
          ih fun type htype => hall type (mem_cons_of_mem _ htype)
  refine allocationRegions_isSome_iff.mpr
    ⟨fun f hf _ => ⟨hasLoop_isSome (hedges f hf), hcalls f hf⟩, fun index f _ hf => ?_⟩
  have hfilled := htypes f (mem_of_getElem? hf)
  exact hboundaries (f.resultType :: f.parameterTypes) fun type htype =>
    scalarBoundary_isSome type (hfilled type htype)

/-- What runs in a region of its own stays in it: every function that a selected one reaches by calls
is defined in the module, has only local operations and calls, uses nothing unsafe and is on no cycle
of calls, and the selected function takes and gives scalars. With distinct identities, the selection
does not depend on the order of the functions. -/
theorem allocation_regions_safe (module_ : CodegenModule) :
    (∀ places, allocationRegions module_ = some places → ∀ index ∈ places,
      (∃ f, module_.functions[index]? = some f ∧ scalarBoundary f.resultType = some true ∧
        ∀ type ∈ f.parameterTypes, scalarBoundary type = some true) ∧
      ∀ other, ReflTransGen (DirectCall module_) index other → ∃ f, StaysInRegion module_ other f) ∧
    ((module_.functions.map (·.id)).Nodup → ∀ module' : CodegenModule,
      module_.functions.Perm module'.functions → selectedIds module' = selectedIds module_) := by
  refine ⟨fun places h index hindex => ?_, fun hnodup module' hperm =>
    selectedIds_eq_of_perm hnodup hperm⟩
  obtain ⟨hfact, f, hf, hsignature⟩ := (mem_allocationRegions_iff h).mp hindex
  refine ⟨⟨f, hf, scalarSignature_eq_true hsignature⟩, fun other hreach => ?_⟩
  obtain ⟨bulk', hother⟩ := hfact.reachable hreach
  exact hother.staysInRegion

/-- A module of functions without parameters or results. -/
def procedures (bodies : List (String × Nat × List Block)) : CodegenModule where
  functions := bodies.map fun body =>
    { id := ⟨"m", .function, body.1⟩, resultType := { tag := .void }, effects := body.2.1,
      blocks := body.2.2 }

/-- A body with a loop that allocates an object and calls `helper` on each turn. -/
def allocatingLoop : List Block :=
  [{ id := 0, ending := { tag := .branch, edges := [⟨1, []⟩] } },
   { id := 1
     instructions := [{ opcode := .objectAlloc },
       { opcode := .callDirect, symbol := some ⟨"m", .function, "helper"⟩ }]
     ending := { tag := .branch, edges := [⟨1, []⟩] } }]

def oneOperation (opcode : IrOpcode) : List Block :=
  [{ id := 0, instructions := [{ opcode }], ending := { tag := .returns } }]

theorem allocation_regions_safe_allocatingLoop : allocationRegions (procedures
        [("loop", 8, allocatingLoop), ("helper", 0, oneOperation .constant)]) = some [0] ∧
      ∃ f, StaysInRegion (procedures
        [("loop", 8, allocatingLoop), ("helper", 0, oneOperation .constant)]) 1 f := by
  have hselected : allocationRegions (procedures
      [("loop", 8, allocatingLoop), ("helper", 0, oneOperation .constant)]) = some [0] := by decide
  refine ⟨hselected, ((allocation_regions_safe _).1 _ hselected 0 (by simp)).2 1 (.single ?_)⟩
  exact ⟨_, { opcode := .callDirect, symbol := some ⟨"m", .function, "helper"⟩ }, _, rfl,
    by simp [Function.instructions, allocatingLoop], rfl, rfl, by decide⟩

/-- The loop with a parameter of type `Int?`. -/
def optionalLoop : CodegenModule where
  functions := (procedures [("loop", 8, allocatingLoop)]).functions.map fun f =>
    { f with parameterTypes := [{ tag := .optional, arguments := [{ tag := .int }] }] }

theorem allocationRegions_isSome_optionalLoop : (allocationRegions optionalLoop).isSome := by
  refine allocationRegions_isSome ?_ ?_ (by decide)
  · unfold Function.EdgesClosed
    decide
  · unfold NamesCallees
    decide

/-- The effects of a selected function may hold the unsafe bit: only the marks of unsafe calls and
unsafe roots are looked at. And where two functions have one identity, the first of them is the callee,
so that the order decides what is selected. -/
theorem allocationRegions_unsafeBit_firstDefinition :
    (allocationRegions (procedures [("loop", 8 + 64, allocatingLoop),
          ("helper", 0, oneOperation .constant)]) = some [0] ∧
        Abi.hasBit (8 + 64) Abi.Effect.usesUnsafe.bit = true) ∧
      selectedIds (procedures [("loop", 8, allocatingLoop), ("helper", 0, oneOperation .constant),
          ("helper", 0, oneOperation .callVirtual)]) = some {⟨"m", .function, "loop"⟩} ∧
      selectedIds (procedures [("loop", 8, allocatingLoop), ("helper", 0, oneOperation .callVirtual),
          ("helper", 0, oneOperation .constant)]) = some ∅ := by
  refine ⟨⟨by decide, by decide⟩, by decide, by decide⟩

end Neri.Codegen
