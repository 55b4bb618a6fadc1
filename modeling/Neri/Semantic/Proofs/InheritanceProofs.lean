import Mathlib.Data.List.Pairwise
import Neri.Semantic.Inheritance

/-!
# Cycles after the resolution of base clauses

The bases that have been linked are links between class names, made one by one under a bounded search
for cycles (`GuardedLinks`). One lemma says what resolving a class does to the links and to the
diagnostics; what holds after the pass follows from it.
-/

namespace Neri.Semantic

open GuardedLinks List Function Option

namespace InheritanceState

variable {s : InheritanceState} {c : DeclaredClass} {full : String}

/-! ## The links of a state -/

theorem model_findClass (s : InheritanceState) (full : String) :
    s.model.findClass full = (s.findClass full).map (·.toSemanticClass) :=
  find?_map ..

theorem model_findClass_self {c : SemanticClass} (h : s.model.findClass full = some c) :
    s.model.findClass c.fullName = some c := by
  rwa [SemanticModel.fullName_of_findClass h]

theorem fullName_of_findClass (h : s.findClass full = some c) : c.fullName = full := by
  have hfound := find?_some h
  exact eq_of_beq hfound

theorem findClass_of_mem (hnodup : (s.classes.map (·.fullName)).Nodup) (h : c ∈ s.classes) :
    s.findClass c.fullName = some c := by
  refine Lines.find?_eq_some_of_unique h (beq_self_eq_true _) fun other hother hname => ?_
  exact inj_on_of_nodup_map hnodup hother h (eq_of_beq hname)

theorem findClass_setBase (s : InheritanceState) (full baseName other : String) :
    (s.setBase full baseName).findClass other = (s.findClass other).map fun c =>
      if c.fullName = full then c.withBase baseName else c := by
  rw [findClass, setBase, find?_map]
  congr 2
  funext c
  dsimp only [comp_apply]
  split <;> rfl

/-- The base of a class, by name. -/
def links (s : InheritanceState) (fullName : String) : Option String :=
  (s.model.findClass fullName).bind fun c => (s.model.baseOf c).map (·.fullName)

theorem links_eq (s : InheritanceState) (full : String) : s.links full =
      (s.findClass full).bind fun c => (s.findClass c.baseName).map (·.fullName) := by
  rw [links, model_findClass, bind_map]
  simp only [SemanticModel.baseOf, model_findClass, Option.map_map, comp_def]

theorem links_setBase (baseName : String) (h : s.findClass full = some c) :
    (s.setBase full baseName).links =
      update s.links full ((s.findClass baseName).map (·.fullName)) := by
  have hname : ∀ other, ((s.setBase full baseName).findClass other).map (·.fullName) =
      (s.findClass other).map (·.fullName) := by
    intro other
    rw [findClass_setBase, Option.map_map]
    congr 1
    funext c
    dsimp only [comp_apply]
    split <;> rfl
  funext other
  simp only [links_eq (s.setBase full baseName), hname]
  rw [findClass_setBase]
  by_cases hother : other = full
  · subst hother
    rw [h]
    simp [fullName_of_findClass h, DeclaredClass.withBase]
  · rw [update_of_ne hother, links_eq]
    cases hfound : s.findClass other with
    | none => rfl
    | some found =>
      have hne : found.fullName ≠ full := by rwa [fullName_of_findClass hfound]
      simp [hne]

/-- A class that the base clauses of `s` may come from has itself a link by name. -/
theorem links_of_findClass {c : SemanticClass} (h : s.model.findClass full = some c) :
    s.links full = (s.model.baseOf c).map (·.fullName) := by
  rw [links, h, bind_some]

/-! ## Walks over base classes -/

theorem inheritanceCycleLoop_iff {cur : SemanticClass} {target : String} {steps : Nat}
    (h : s.model.findClass cur.fullName = some cur) :
    inheritanceCycleLoop s.model target steps (some cur) = true ↔
      ∃ distance < steps, follow s.links distance cur.fullName = some target := by
  induction steps generalizing cur with
  | zero => simp [inheritanceCycleLoop]
  | succ steps ih =>
    rw [inheritanceCycleLoop, Bool.or_eq_true, beq_iff_eq]
    constructor
    · rintro (htarget | hloop)
      · exact ⟨0, Nat.succ_pos _, congrArg some htarget⟩
      · cases hnext : s.model.findClass cur.baseName with
        | none => simp [hnext, inheritanceCycleLoop] at hloop
        | some next =>
          rw [hnext] at hloop
          obtain ⟨distance, hlt, hfollow⟩ := (ih (model_findClass_self hnext)).mp hloop
          refine ⟨distance + 1, by omega, ?_⟩
          rw [follow, links_of_findClass h, SemanticModel.baseOf, hnext]
          exact hfollow
    · rintro ⟨distance, hlt, hfollow⟩
      cases distance with
      | zero => exact .inl (some_inj.mp hfollow)
      | succ distance =>
        right
        rw [follow, links_of_findClass h, SemanticModel.baseOf] at hfollow
        cases hnext : s.model.findClass cur.baseName with
        | none => rw [hnext] at hfollow; cases hfollow
        | some next =>
          rw [hnext] at hfollow
          exact (ih (model_findClass_self hnext)).mpr ⟨distance, by omega, hfollow⟩

theorem hasInheritanceCycle_iff {c : SemanticClass} (h : s.model.findClass c.fullName = some c) :
    hasInheritanceCycle s.model c = true ↔ ReturnsWithin s.links inheritanceSteps c.fullName := by
  have hlink := links_of_findClass h
  rw [SemanticModel.baseOf] at hlink
  rw [hasInheritanceCycle]
  cases hbase : s.model.findClass c.baseName with
  | none =>
    rw [hbase] at hlink
    refine iff_of_false (by simp [inheritanceCycleLoop]) ?_
    rintro ⟨steps, hpos, -, hfollow⟩
    obtain ⟨steps, rfl⟩ := Nat.exists_eq_add_one.mpr hpos
    rw [follow, hlink] at hfollow
    cases hfollow
  | some base =>
    rw [hbase] at hlink
    rw [inheritanceCycleLoop_iff (model_findClass_self hbase)]
    constructor
    · rintro ⟨distance, hlt, hfollow⟩
      exact ⟨distance + 1, Nat.succ_pos _, hlt, by rw [follow, hlink]; exact hfollow⟩
    · rintro ⟨steps, hpos, hbound, hfollow⟩
      obtain ⟨steps, rfl⟩ := Nat.exists_eq_add_one.mpr hpos
      rw [follow, hlink] at hfollow
      exact ⟨steps, hbound, hfollow⟩

theorem ancestor_of_follow {c : SemanticClass} {target : String} {steps : Nat}
    (hc : s.model.findClass full = some c) (h : follow s.links (steps + 1) full = some target) :
    ∃ base, s.model.findClass target = some base ∧ Ancestor s.model c base := by
  induction steps generalizing full c with
  | zero =>
    rw [follow, links_of_findClass hc] at h
    obtain ⟨_, hnext, htarget⟩ := bind_eq_some_iff.mp h
    obtain ⟨base, hbase, rfl⟩ := map_eq_some_iff.mp hnext
    cases htarget
    exact ⟨base, model_findClass_self hbase, .single hbase⟩
  | succ steps ih =>
    rw [follow, links_of_findClass hc] at h
    obtain ⟨_, hnext, hrest⟩ := bind_eq_some_iff.mp h
    obtain ⟨next, hbase, rfl⟩ := map_eq_some_iff.mp hnext
    obtain ⟨base, hfound, hrest⟩ := ih (model_findClass_self hbase) hrest
    exact ⟨base, hfound, .head hbase hrest⟩

theorem follow_of_ancestor {c base : SemanticClass}
    (hc : s.model.findClass c.fullName = some c) (h : Ancestor s.model c base) :
    s.model.findClass base.fullName = some base ∧
      ∃ steps, follow s.links (steps + 1) c.fullName = some base.fullName := by
  have hstep : ∀ {x y : SemanticClass}, s.model.findClass x.fullName = some x →
      s.model.baseOf x = some y → s.model.findClass y.fullName = some y ∧
        s.links x.fullName = some y.fullName := by
    intro x y hx hbase
    refine ⟨model_findClass_self hbase, ?_⟩
    rw [links_of_findClass hx, hbase, map_some]
  induction h with
  | single hbase =>
    obtain ⟨hfound, hlink⟩ := hstep hc hbase
    refine ⟨hfound, 0, ?_⟩
    rw [follow, hlink]
    rfl
  | tail _ hbase ih =>
    obtain ⟨hmiddle, steps, hfollow⟩ := ih
    obtain ⟨hfound, hlink⟩ := hstep hmiddle hbase
    refine ⟨hfound, steps + 1, ?_⟩
    rw [follow_add, hfollow, bind_some, follow, hlink]
    rfl

theorem acyclic_iff_links (hnodup : (s.classes.map (·.fullName)).Nodup) :
    s.Acyclic ↔ ∀ full, ¬Returns s.links full := by
  constructor
  · rintro hacyclic full ⟨steps, hpos, hfollow⟩
    obtain ⟨steps, rfl⟩ := Nat.exists_eq_add_one.mpr hpos
    cases hc : s.model.findClass full with
    | none =>
      rw [follow, links, hc] at hfollow
      cases hfollow
    | some c =>
      obtain ⟨base, hbase, hancestor⟩ := ancestor_of_follow hc hfollow
      rw [hc, some_inj] at hbase
      subst hbase
      exact hacyclic c (SemanticModel.findClass_mem hc) hancestor
  · intro hlinks c hc hancestor
    obtain ⟨declared, hmem, rfl⟩ := mem_map.mp hc
    have hfound : s.model.findClass declared.fullName = some declared.toSemanticClass := by
      rw [model_findClass, findClass_of_mem hnodup hmem, map_some]
    obtain ⟨-, steps, hfollow⟩ := follow_of_ancestor hfound hancestor
    exact hlinks declared.fullName ⟨steps + 1, Nat.succ_pos _, hfollow⟩

end InheritanceState

/-! ## The declarations and the state -/

/-- A class as it was registered. -/
def DeclaredClass.unlink (c : DeclaredClass) : DeclaredClass := c.withBase ""

theorem checkBaseClause_spec (sym : DeclaredClass) (clause : BaseClause)
    (named : Option DeclaredClass) : match checkBaseClause sym clause named with
    | .ok base => clause.isName = true ∧ base = clause.resolved ∧ base ≠ sym.fullName ∧ named.isSome
    | .error none => clause.isName = false
    | .error (some diag) => diag.node = clause.node ∧ (diag.code ∈ ["NR160", "NR161"] ↔
          clause.isName = true ∧ clause.resolved = sym.fullName) := by
  unfold checkBaseClause BaseClause.isName
  dsimp only
  generalize (clause.written.isBuiltin || clause.written.isArray || clause.written.isOptional ||
    clause.written.isPointer) = constructed
  cases named with
  | none => dsimp only; split_ifs <;> simp_all
  | some base => dsimp only; split_ifs <;> simp_all

namespace ClassDeclarations

variable {d : ClassDeclarations} {s : InheritanceState} {c : DeclaredClass} {full other : String}

/-- The state has the declared classes, apart from their bases. -/
def Declares (d : ClassDeclarations) (s : InheritanceState) : Prop :=
  s.classes.map DeclaredClass.unlink = d.classes

theorem declares_initial (d : ClassDeclarations) : d.Declares d.initial := by
  refine (map_congr_left fun c hc => ?_).trans (map_id _)
  rw [DeclaredClass.unlink, ← d.unlinked c hc]
  rfl

theorem Declares.report (h : d.Declares s) (diag : Diagnostic) : d.Declares (s.report diag) := h

theorem Declares.setBase (h : d.Declares s) (full baseName : String) :
    d.Declares (s.setBase full baseName) := by
  rw [Declares, InheritanceState.setBase, List.map_map, ← h]
  refine map_congr_left fun c _ => ?_
  dsimp only [comp_apply]
  split <;> rfl

theorem Declares.findClass (h : d.Declares s) (full : String) :
    d.findClass full = (s.findClass full).map DeclaredClass.unlink := by
  rw [ClassDeclarations.findClass, initial, InheritanceState.findClass, ← h, find?_map]
  rfl

theorem Declares.classForNode (h : d.Declares s) (node : Int) :
    d.initial.classForNode node = (s.classForNode node).map DeclaredClass.unlink := by
  rw [initial, InheritanceState.classForNode, ← h, find?_map]
  rfl

theorem Declares.fullNames (h : d.Declares s) : (s.classes.map (·.fullName)).Nodup := by
  have hnames := d.fullNames
  rwa [← h, List.map_map] at hnames

theorem findClass_of_mem (hc : c ∈ d.classes) : d.findClass c.fullName = some c :=
  InheritanceState.findClass_of_mem d.fullNames hc

theorem mem_of_findClass (h : d.findClass full = some c) : c ∈ d.classes ∧ c.fullName = full :=
  ⟨mem_of_find?_eq_some h, InheritanceState.fullName_of_findClass h⟩

theorem findClass_empty (d : ClassDeclarations) : d.findClass "" = none := by
  cases hfound : d.findClass "" with
  | none => rfl
  | some c => exact absurd (mem_of_findClass hfound).2 (d.named c (mem_of_findClass hfound).1)

variable {node : Int}

theorem eq_of_mem_nodes {c' : DeclaredClass} (hc : c ∈ d.classes)
    (hc' : c' ∈ d.classes) (hnode : node ∈ c.nodes) (hnode' : node ∈ c'.nodes) : c = c' := by
  by_contra hne
  have : Std.Symm (onFun List.Disjoint DeclaredClass.nodes) := ⟨fun _ _ h _ ha hb => h hb ha⟩
  exact (nodup_flatMap.mp d.nodes).2.forall hc hc' hne hnode hnode'

theorem syntaxNode_mem_nodes (c : DeclaredClass) : c.syntaxNode ∈ c.nodes := mem_cons_self ..

theorem classForNode_of_mem (hc : c ∈ d.classes) :
    d.initial.classForNode c.syntaxNode = some c := by
  refine Lines.find?_eq_some_of_unique hc (beq_self_eq_true _) fun other hother hnode => ?_
  exact eq_of_mem_nodes hother hc (syntaxNode_mem_nodes other)
    (eq_of_beq hnode ▸ syntaxNode_mem_nodes c)

/-! ## The tests of a clause -/

/-- The diagnostic of a clause that fails a test. -/
def refusal (d : ClassDeclarations) (fullName : String) : Option Diagnostic := do
  let sym ← d.findClass fullName
  let clause ← sym.clause
  match checkBaseClause sym clause (d.findClass clause.resolved) with
  | .ok _ => none
  | .error diag => diag

structure HasClause (d : ClassDeclarations) (fullName : String) (symbol : DeclaredClass)
    (clause : BaseClause) : Prop where
  found : d.findClass fullName = some symbol
  clause : symbol.clause = some clause

theorem bind_clause_eq_some_iff {α : Type} {a : α} {next : DeclaredClass → BaseClause → Option α} :
    ((d.findClass full).bind fun sym => sym.clause.bind (next sym)) = some a ↔
      ∃ sym clause, d.HasClause full sym clause ∧ next sym clause = some a := by
  constructor
  · intro h
    obtain ⟨sym, hsym, h⟩ := bind_eq_some_iff.mp h
    obtain ⟨clause, hclause, h⟩ := bind_eq_some_iff.mp h
    exact ⟨sym, clause, ⟨hsym, hclause⟩, h⟩
  · rintro ⟨sym, clause, ⟨hsym, hclause⟩, h⟩
    rw [hsym, bind_some, hclause, bind_some, h]

theorem written_eq_some_iff : d.written full = some other ↔
    ∃ sym clause, d.HasClause full sym clause ∧
      clause.isName = true ∧ clause.resolved = other ∧ (d.findClass other).isSome := by
  refine bind_clause_eq_some_iff.trans (exists₂_congr fun sym clause => and_congr_right fun _ => ?_)
  constructor
  · intro h
    obtain ⟨hname, h⟩ := ite_none_right_eq_some.mp h
    obtain ⟨base, hbase, rfl⟩ := map_eq_some_iff.mp h
    have hself := (mem_of_findClass hbase).2
    exact ⟨hname, hself.symm, by rw [hself, hbase]; rfl⟩
  · rintro ⟨hname, rfl, hsome⟩
    obtain ⟨base, hbase⟩ := isSome_iff_exists.mp hsome
    simp [hname, hbase, (mem_of_findClass hbase).2]

theorem admitted_eq_some_iff : d.admitted full = some other ↔
    ∃ sym clause, d.HasClause full sym clause ∧
      checkBaseClause sym clause (d.findClass clause.resolved) = .ok other := by
  refine bind_clause_eq_some_iff.trans (exists₂_congr fun sym clause => and_congr_right fun _ => ?_)
  cases checkBaseClause sym clause (d.findClass clause.resolved) <;> simp [Except.toOption]

variable {diag : Diagnostic}

theorem refusal_eq_some_iff : d.refusal full = some diag ↔
    ∃ sym clause, d.HasClause full sym clause ∧
      checkBaseClause sym clause (d.findClass clause.resolved) = .error (some diag) := by
  refine bind_clause_eq_some_iff.trans (exists₂_congr fun sym clause => and_congr_right fun _ => ?_)
  cases checkBaseClause sym clause (d.findClass clause.resolved) <;> simp

theorem written_of_admitted (h : d.admitted full = some other) :
    d.written full = some other ∧ other ≠ full := by
  obtain ⟨sym, clause, hclause, hcheck⟩ := admitted_eq_some_iff.mp h
  have hspec := checkBaseClause_spec sym clause (d.findClass clause.resolved)
  rw [hcheck] at hspec
  obtain ⟨hname, rfl, hne, hsome⟩ := hspec
  rw [(mem_of_findClass hclause.found).2] at hne
  exact ⟨written_eq_some_iff.mpr ⟨sym, clause, hclause, hname, rfl, hsome⟩, hne⟩

theorem refusal_of_written (hwritten : d.written full = some other)
    (hadmitted : d.admitted full = none) : ∃ diag, d.refusal full = some diag := by
  obtain ⟨sym, clause, hclause, hname, -, -⟩ := written_eq_some_iff.mp hwritten
  have hspec := checkBaseClause_spec sym clause (d.findClass clause.resolved)
  match hcheck : checkBaseClause sym clause (d.findClass clause.resolved) with
  | .ok base =>
    rw [admitted_eq_some_iff.mpr ⟨sym, clause, hclause, hcheck⟩] at hadmitted
    cases hadmitted
  | .error none =>
    rw [hcheck] at hspec
    rw [hname] at hspec
    cases hspec
  | .error (some diag) =>
    exact ⟨diag, refusal_eq_some_iff.mpr ⟨sym, clause, hclause, hcheck⟩⟩

theorem node_of_refusal (hc : c ∈ d.classes)
    (h : d.refusal c.fullName = some diag) : diag.node ∈ c.nodes := by
  obtain ⟨sym, clause, ⟨hsym, hclause⟩, hcheck⟩ := refusal_eq_some_iff.mp h
  rw [findClass_of_mem hc, some_inj] at hsym
  subst hsym
  have hspec := checkBaseClause_spec c clause (d.findClass clause.resolved)
  rw [hcheck] at hspec
  simp [DeclaredClass.nodes, hclause, hspec.1]

/-- A class that is its own base is refused with a code of its own. -/
theorem code_of_refusal (h : d.refusal full = some diag) :
    diag.code ∈ ["NR160", "NR161"] ↔ d.written full = some full := by
  obtain ⟨sym, clause, hclause, hcheck⟩ := refusal_eq_some_iff.mp h
  have hspec := checkBaseClause_spec sym clause (d.findClass clause.resolved)
  rw [hcheck, (mem_of_findClass hclause.found).2] at hspec
  rw [hspec.2, written_eq_some_iff]
  constructor
  · rintro ⟨hname, hself⟩
    exact ⟨sym, clause, hclause, hname, hself, by rw [hclause.found]; rfl⟩
  · rintro ⟨symbol', clause', hclause', hname, hself, -⟩
    obtain rfl := some.inj (hclause.found.symm.trans hclause'.found)
    obtain rfl := some.inj (hclause.clause.symm.trans hclause'.clause)
    exact ⟨hname, hself⟩

/-! ## Resolving one class -/

/-- What resolving a class does to the links and to the diagnostics. -/
inductive Resolves (d : ClassDeclarations) (c : DeclaredClass) (s s' : InheritanceState) : Prop
  | refused (hadmitted : d.admitted c.fullName = none) (hlinks : s'.links = s.links)
      (hdiagnostics : s'.diagnostics = s.diagnostics ++ (d.refusal c.fullName).toList)
  | cycle (base : String) (hadmitted : d.admitted c.fullName = some base)
      (hcycle : ReturnsWithin (update s.links c.fullName (some base)) inheritanceSteps c.fullName)
      (hlinks : s'.links = update s.links c.fullName none)
      (hdiagnostics : s'.diagnostics = s.diagnostics ++ [inheritanceCycle c])
  | linked (base : String) (hadmitted : d.admitted c.fullName = some base)
      (hfree : ¬ReturnsWithin (update s.links c.fullName (some base)) inheritanceSteps c.fullName)
      (hlinks : s'.links = update s.links c.fullName (some base))
      (hdiagnostics : s'.diagnostics = s.diagnostics)

theorem Declares.exists_symbol (hs : d.Declares s) (hc : c ∈ d.classes) :
    ∃ sym, sym.unlink = c ∧ s.classForNode c.syntaxNode = some sym ∧
      s.findClass sym.fullName = some sym := by
  have hnode := hs.classForNode c.syntaxNode
  rw [classForNode_of_mem hc] at hnode
  obtain ⟨sym, hsym, hunlink⟩ := map_eq_some_iff.mp hnode.symm
  exact ⟨sym, hunlink, hsym,
    InheritanceState.findClass_of_mem hs.fullNames (mem_of_find?_eq_some hsym)⟩

theorem linkBase_spec (hs : d.Declares s) {sym named : DeclaredClass} {base : String}
    (hfound : s.findClass sym.fullName = some sym) (hnamed : s.findClass base = some named)
    (hadmitted : d.admitted sym.unlink.fullName = some base) :
    d.Declares (linkBase s sym base) ∧ d.Resolves sym.unlink s (linkBase s sym base) := by
  have hlinks := InheritanceState.links_setBase base hfound
  rw [hnamed, map_some, InheritanceState.fullName_of_findClass hnamed] at hlinks
  have hself : (s.setBase sym.fullName base).findClass sym.fullName = some (sym.withBase base) := by
    rw [InheritanceState.findClass_setBase, hfound, map_some, if_pos rfl]
  have hcycle : hasInheritanceCycle (s.setBase sym.fullName base).model
      (sym.withBase base).toSemanticClass = true ↔
      ReturnsWithin (update s.links sym.fullName (some base)) inheritanceSteps
        sym.fullName := by
    rw [← hlinks]
    refine InheritanceState.hasInheritanceCycle_iff ?_
    rw [InheritanceState.model_findClass]
    exact congrArg _ hself
  rw [linkBase]
  split_ifs with hreturns
  · refine ⟨((hs.setBase _ _).report _).setBase _ _,
      .cycle base hadmitted (hcycle.mp hreturns) ?_ rfl⟩
    have hempty := (hs.setBase sym.fullName base).findClass ""
    rw [findClass_empty] at hempty
    refine (InheritanceState.links_setBase (c := sym.withBase base) "" hself).trans ?_
    rw [map_eq_none_iff.mp hempty.symm, map_none, hlinks, update_idem]
    rfl
  · exact ⟨hs.setBase _ _, .linked base hadmitted (fun h => hreturns (hcycle.mpr h)) hlinks rfl⟩

theorem resolveNode_spec (hs : d.Declares s) (hc : c ∈ d.classes) :
    d.Declares (resolveNode s c.syntaxNode) ∧ d.Resolves c s (resolveNode s c.syntaxNode) := by
  obtain ⟨sym, rfl, hnode, hfound⟩ := hs.exists_symbol hc
  have hdeclared : d.findClass sym.unlink.fullName = some sym.unlink := findClass_of_mem hc
  have hclauses : sym.unlink.clause = sym.clause := rfl
  have hresolve : resolveNode s sym.unlink.syntaxNode = resolveClassInheritance s sym := by
    rw [resolveNode, hnode]
  rw [hresolve]
  cases hclause : sym.clause with
  | none =>
    rw [hclause] at hclauses
    have hstep : resolveClassInheritance s sym = s := by simp only [resolveClassInheritance, hclause]
    rw [hstep]
    exact ⟨hs, .refused (by simp [admitted, hdeclared, hclauses]) rfl
      (by simp [refusal, hdeclared, hclauses])⟩
  | some clause =>
    rw [hclause] at hclauses
    have hcheck : checkBaseClause sym.unlink clause (d.findClass clause.resolved) =
        checkBaseClause sym clause (s.findClass clause.resolved) := by
      rw [hs.findClass]
      cases s.findClass clause.resolved <;> rfl
    have hadmitted : d.admitted sym.unlink.fullName =
        (checkBaseClause sym clause (s.findClass clause.resolved)).toOption := by
      simp [admitted, hdeclared, hclauses, hcheck]
    have hspec := checkBaseClause_spec sym clause (s.findClass clause.resolved)
    simp only [resolveClassInheritance, hclause]
    match hresult : checkBaseClause sym clause (s.findClass clause.resolved) with
    | .error none =>
      rw [hresult] at hadmitted hcheck
      exact ⟨hs, .refused hadmitted rfl (by simp [refusal, hdeclared, hclauses, hcheck])⟩
    | .error (some diag) =>
      rw [hresult] at hadmitted hcheck
      exact ⟨hs.report diag, .refused hadmitted rfl
        (by simp [refusal, hdeclared, hclauses, hcheck, InheritanceState.report])⟩
    | .ok base =>
      rw [hresult] at hadmitted hspec
      obtain ⟨-, rfl, -, hsome⟩ := hspec
      obtain ⟨named, hnamed⟩ := isSome_iff_exists.mp hsome
      exact linkBase_spec hs hfound hnamed hadmitted

/-! ## The first loop -/

/-- The classes of the nodes in `done` have been resolved. -/
structure Progress (d : ClassDeclarations) (done : List Int) (s : InheritanceState) : Prop where
  declares : d.Declares s
  guarded : Guarded d.admitted s.links inheritanceSteps fun full =>
    ∃ c ∈ d.classes, c.fullName = full ∧ c.syntaxNode ∈ done

theorem links_initial (d : ClassDeclarations) : d.initial.links = fun _ => none := by
  funext full
  rw [InheritanceState.links_eq]
  cases hfound : d.initial.findClass full with
  | none => rfl
  | some c =>
    rw [bind_some, d.unlinked c (mem_of_find?_eq_some hfound), ← findClass, findClass_empty]
    rfl

theorem progress_initial (d : ClassDeclarations) : d.Progress [] d.initial := by
  refine ⟨d.declares_initial, ?_⟩
  rw [links_initial]
  exact (Guarded.start d.admitted inheritanceSteps).congr (by simp)

variable {done : List Int}

theorem Progress.of_resolves {s' : InheritanceState} (h : d.Progress done s)
    (hc : c ∈ d.classes) (hnode : c.syntaxNode ∉ done) (hs' : d.Declares s')
    (hstep : d.Resolves c s s') : d.Progress (done ++ [c.syntaxNode]) s' := by
  have hnotdone : ¬∃ c' ∈ d.classes, c'.fullName = c.fullName ∧ c'.syntaxNode ∈ done := by
    rintro ⟨c', hc', hname, hmem⟩
    rw [inj_on_of_nodup_map d.fullNames hc' hc hname] at hmem
    exact hnode hmem
  have hdone : ∀ full, (∃ c' ∈ d.classes, c'.fullName = full ∧
      c'.syntaxNode ∈ done ++ [c.syntaxNode]) ↔
      (∃ c' ∈ d.classes, c'.fullName = full ∧ c'.syntaxNode ∈ done) ∨ full = c.fullName := by
    intro full
    constructor
    · rintro ⟨c', hc', rfl, hmem⟩
      rcases mem_append.mp hmem with hmem | hmem
      · exact .inl ⟨c', hc', rfl, hmem⟩
      · right
        rw [eq_of_mem_nodes hc' hc (syntaxNode_mem_nodes c')
          (mem_singleton.mp hmem ▸ syntaxNode_mem_nodes c)]
    · rintro (⟨c', hc', rfl, hmem⟩ | rfl)
      · exact ⟨c', hc', rfl, mem_append_left _ hmem⟩
      · exact ⟨c, hc, rfl, mem_append_right _ (mem_singleton_self _)⟩
  refine ⟨hs', Guarded.congr ?_ hdone⟩
  cases hstep with
  | refused hadmitted hlinks _ =>
    rw [hlinks]
    exact h.guarded.skip hnotdone (.inl hadmitted)
  | cycle base hadmitted hcycle hlinks _ =>
    rw [hlinks, update_eq_self_iff.mpr (h.guarded.none_of_not_done hnotdone).symm]
    exact h.guarded.refuse hnotdone hadmitted hcycle
  | linked base hadmitted hfree hlinks _ =>
    rw [hlinks]
    exact h.guarded.link hadmitted hfree

theorem resolveNode_of_forall_ne (hs : d.Declares s)
    (h : ∀ c ∈ d.classes, c.syntaxNode ≠ node) : resolveNode s node = s := by
  have hnone : s.classForNode node = none := by
    have hnode := hs.classForNode node
    rw [InheritanceState.classForNode, find?_eq_none.mpr fun c hc => by simpa using h c hc] at hnode
    exact map_eq_none_iff.mp hnode.symm
  rw [resolveNode, hnone]

theorem Progress.resolveNode (h : d.Progress done s)
    (hnode : node ∉ done) : d.Progress (done ++ [node]) (resolveNode s node) := by
  by_cases hclass : ∃ c ∈ d.classes, c.syntaxNode = node
  · obtain ⟨c, hc, rfl⟩ := hclass
    obtain ⟨hs', hstep⟩ := resolveNode_spec h.declares hc
    exact h.of_resolves hc hnode hs' hstep
  · have hne : ∀ c ∈ d.classes, c.syntaxNode ≠ node := fun c hc heq => hclass ⟨c, hc, heq⟩
    rw [resolveNode_of_forall_ne h.declares hne]
    refine ⟨h.declares, h.guarded.congr fun full => ?_⟩
    refine exists_congr fun c => and_congr_right fun hc => and_congr_right fun _ => ?_
    rw [mem_append, mem_singleton, or_iff_left (hne c hc)]

variable {nodes : List Int}

theorem Progress.foldl (h : d.Progress done s)
    (hnodup : (done ++ nodes).Nodup) :
    d.Progress (done ++ nodes) (nodes.foldl Semantic.resolveNode s) := by
  induction nodes generalizing done s with
  | nil => rwa [append_nil]
  | cons node nodes ih =>
    have hnode : node ∉ done := (nodup_middle.mp hnodup).notMem ∘ mem_append_left _
    rw [append_cons] at hnodup ⊢
    exact ih (h.resolveNode hnode) hnodup

/-- The state after some nodes. -/
def linkedUpTo (d : ClassDeclarations) (nodes : List Int) : InheritanceState :=
  nodes.foldl resolveNode d.initial

theorem progress_linkedUpTo {rest : List Int} (h : d.classNodes = nodes ++ rest) :
    d.Progress nodes (d.linkedUpTo nodes) :=
  d.progress_initial.foldl (List.Nodup.of_append_left (h ▸ d.distinct))

theorem unlinkCycle_eq (hs : d.Declares s)
    (hshort : ∀ full, ¬ReturnsWithin s.links inheritanceSteps full) (index : Nat) :
    unlinkCycle s index = s := by
  rw [unlinkCycle]
  cases hclass : s.classes[index]? with
  | none => rfl
  | some cur =>
    have hfound : s.model.findClass cur.fullName = some cur.toSemanticClass := by
      rw [InheritanceState.model_findClass, InheritanceState.findClass_of_mem hs.fullNames
        (mem_of_getElem? hclass), map_some]
    exact if_neg fun h => hshort _ ((InheritanceState.hasInheritanceCycle_iff hfound).mp h)

/-- The first loop leaves nothing to the second one. -/
theorem resolveInheritance_eq (d : ClassDeclarations) :
    d.resolveInheritance = d.linkedUpTo d.classNodes := by
  have hprogress := progress_linkedUpTo (append_nil d.classNodes).symm
  have hstep := unlinkCycle_eq hprogress.declares hprogress.guarded.short
  exact foldl_fixed' hstep _

theorem acyclic_iff (d : ClassDeclarations) : d.resolveInheritance.Acyclic ↔
    ∀ full, Returns d.admitted full → ReturnsWithin d.admitted inheritanceSteps full := by
  have hprogress := progress_linkedUpTo (append_nil d.classNodes).symm
  rw [resolveInheritance_eq, InheritanceState.acyclic_iff_links hprogress.declares.fullNames]
  refine hprogress.guarded.acyclic_iff fun full hadmitted => ?_
  obtain ⟨base, hbase⟩ := ne_none_iff_exists'.mp hadmitted
  obtain ⟨sym, -, ⟨hsym, -⟩, -⟩ := admitted_eq_some_iff.mp hbase
  obtain ⟨hmem, hname⟩ := mem_of_findClass hsym
  exact ⟨sym, hmem, hname, d.listed sym hmem⟩

/-! ## Diagnostics -/

def diagnosticsOf (c : DeclaredClass) (s : InheritanceState) : List Diagnostic :=
  s.diagnostics.filter (·.node ∈ c.nodes)

theorem reported_iff : s.Reported c ↔ diagnosticsOf c s ≠ [] := by
  simp [InheritanceState.Reported, diagnosticsOf]

theorem reportedCycle_iff : s.ReportedCycle c ↔
    ∃ diag ∈ diagnosticsOf c s, diag.code ∈ ["NR160", "NR161"] := by
  simp [InheritanceState.ReportedCycle, diagnosticsOf, and_assoc]

/-- Resolving a class reports at its own nodes. -/
theorem Resolves.exists_reported {s' : InheritanceState} (h : d.Resolves c s s')
    (hc : c ∈ d.classes) : ∃ reported, s'.diagnostics = s.diagnostics ++ reported ∧
      ∀ diag ∈ reported, diag.node ∈ c.nodes := by
  cases h with
  | refused _ _ hdiagnostics =>
    exact ⟨_, hdiagnostics, fun diag h => node_of_refusal hc (mem_toList.mp h)⟩
  | cycle _ _ _ _ hdiagnostics =>
    refine ⟨_, hdiagnostics, fun diag h => ?_⟩
    rw [mem_singleton.mp h]
    exact syntaxNode_mem_nodes c
  | linked _ _ _ _ hdiagnostics =>
    exact ⟨[], by rw [hdiagnostics, append_nil], fun _ h => absurd h not_mem_nil⟩

theorem diagnosticsOf_resolveNode (hs : d.Declares s) (hc : c ∈ d.classes)
    (hnode : c.syntaxNode ≠ node) : diagnosticsOf c (resolveNode s node) = diagnosticsOf c s := by
  by_cases hclass : ∃ c' ∈ d.classes, c'.syntaxNode = node
  · obtain ⟨c', hc', rfl⟩ := hclass
    obtain ⟨reported, hreported, hnodes⟩ := (resolveNode_spec hs hc').2.exists_reported hc'
    have hnone : reported.filter (·.node ∈ c.nodes) = [] := by
      refine filter_eq_nil_iff.mpr fun diag hmem => ?_
      have hne : diag.node ∉ c.nodes := fun h =>
        hnode (congrArg (·.syntaxNode) (eq_of_mem_nodes hc hc' h (hnodes diag hmem)))
      simpa using hne
    rw [diagnosticsOf, hreported, filter_append, hnone, append_nil, diagnosticsOf]
  · rw [resolveNode_of_forall_ne hs fun c' hc' heq => hclass ⟨c', hc', heq⟩]

theorem diagnosticsOf_foldl (h : d.Progress done s)
    (hnodup : (done ++ nodes).Nodup) (hc : c ∈ d.classes) (hnode : c.syntaxNode ∉ nodes) :
    diagnosticsOf c (nodes.foldl resolveNode s) = diagnosticsOf c s := by
  induction nodes generalizing done s with
  | nil => rfl
  | cons node nodes ih =>
    rw [mem_cons, not_or] at hnode
    have hfresh : node ∉ done := (nodup_middle.mp hnodup).notMem ∘ mem_append_left _
    rw [append_cons] at hnodup
    rw [foldl_cons, ih (h.resolveNode hfresh) hnodup hnode.2,
      diagnosticsOf_resolveNode h.declares hc hnode.1]

/-- What is reported about a class is reported while it is resolved. -/
theorem diagnosticsOf_resolveInheritance {pre after : List Int} (hc : c ∈ d.classes)
    (hsplit : d.classNodes = pre ++ c.syntaxNode :: after) : diagnosticsOf c d.resolveInheritance =
        diagnosticsOf c (resolveNode (d.linkedUpTo pre) c.syntaxNode) ∧
      diagnosticsOf c (d.linkedUpTo pre) = [] := by
  have hnodup := d.distinct
  rw [hsplit] at hnodup
  have hnotin := (nodup_middle.mp hnodup).notMem
  rw [mem_append, not_or] at hnotin
  have hbefore := progress_linkedUpTo hsplit
  constructor
  · rw [resolveInheritance_eq, linkedUpTo, hsplit, foldl_append, foldl_cons]
    rw [append_cons] at hnodup
    exact diagnosticsOf_foldl (hbefore.resolveNode hnotin.1) hnodup hc hnotin.2
  · exact diagnosticsOf_foldl d.progress_initial hnodup.of_append_left hc hnotin.1

/-- A class whose clause fails a test has that report and no other. -/
theorem diagnosticsOf_of_refused (hc : c ∈ d.classes) (hadmitted : d.admitted c.fullName = none) :
    diagnosticsOf c d.resolveInheritance = (d.refusal c.fullName).toList := by
  obtain ⟨pre, after, hsplit⟩ := append_of_mem (d.listed c hc)
  obtain ⟨hfinal, hnone⟩ := diagnosticsOf_resolveInheritance hc hsplit
  rw [hfinal]
  cases (resolveNode_spec (progress_linkedUpTo hsplit).declares hc).2 with
  | refused _ _ hdiagnostics =>
    rw [diagnosticsOf, hdiagnostics, filter_append, ← diagnosticsOf, hnone]
    refine filter_eq_self.mpr fun diag h => ?_
    exact decide_eq_true (node_of_refusal hc (mem_toList.mp h))
  | cycle _ hbase => rw [hadmitted] at hbase; cases hbase
  | linked _ hbase => rw [hadmitted] at hbase; cases hbase

/-- Of the classes on a cycle whose clauses pass the tests, the first one is not reported. -/
theorem exists_not_reported (hc : c ∈ d.classes) (hcycle : d.OnCycle c)
    (hadmitted : d.admitted c.fullName ≠ none) :
    ∃ first ∈ d.classes, d.OnCycle first ∧ ¬d.resolveInheritance.Reported first := by
  classical
  let onWay (node : Int) : Prop := ∃ x ∈ d.classes, x.syntaxNode = node ∧
    d.admitted x.fullName ≠ none ∧ ∃ distance, follow d.written distance c.fullName = some x.fullName
  have hsome : (d.classNodes.find? fun node => decide (onWay node)).isSome :=
    find?_isSome.mpr ⟨c.syntaxNode, d.listed c hc, decide_eq_true ⟨c, hc, rfl, hadmitted, 0, rfl⟩⟩
  obtain ⟨node, hnode⟩ := isSome_iff_exists.mp hsome
  obtain ⟨hway, pre, after, hsplit, hbefore⟩ := find?_eq_some_iff_append.mp hnode
  obtain ⟨first, hfirst, rfl, hadmits, distance, hdistance⟩ := of_decide_eq_true hway
  have hprogress := progress_linkedUpTo hsplit
  -- no class on the cycle has a base yet
  have hunlinked : ∀ steps x, follow d.written steps c.fullName = some x →
      (d.linkedUpTo pre).links x = none := by
    intro steps x hx
    cases hlink : (d.linkedUpTo pre).links x with
    | none => rfl
    | some base =>
      obtain ⟨⟨sym, hsym, rfl, hdone⟩, hbase⟩ := hprogress.guarded.sub x base hlink
      have hnot := hbefore sym.syntaxNode hdone
      have hon : onWay sym.syntaxNode :=
        ⟨sym, hsym, rfl, by rw [hbase]; exact some_ne_none base, steps, hx⟩
      simp [hon] at hnot
  obtain ⟨steps, hpos, hself⟩ := hcycle
  refine ⟨first, hfirst, ⟨steps, hpos, follow_self_of_follow hself hdistance⟩, ?_⟩
  obtain ⟨hfinal, hnone⟩ := diagnosticsOf_resolveInheritance hfirst hsplit
  rw [reported_iff, not_not, hfinal]
  cases (resolveNode_spec hprogress.declares hfirst).2 with
  | refused hrefused => exact absurd hrefused hadmits
  | cycle base hbase hcloses =>
    obtain ⟨hwritten, hne⟩ := written_of_admitted hbase
    have hnext : follow d.written (distance + 1) c.fullName = some base := by
      rw [follow_add, hdistance, bind_some, follow, hwritten]
      rfl
    exact absurd hcloses (Guarded.not_returnsWithin_update hne (hunlinked _ _ hnext))
  | linked _ _ _ _ hdiagnostics => rw [diagnosticsOf, hdiagnostics, ← diagnosticsOf, hnone]

theorem acyclic_of_forall_refused (h : ∀ c ∈ d.classes, d.OnCycle c → d.admitted c.fullName = none) :
    d.resolveInheritance.Acyclic := by
  rw [acyclic_iff]
  rintro full ⟨steps, hpos, hfollow⟩
  -- a cycle of admitted bases is a cycle of written ones
  have hwritten := follow_mono (fun _ _ hbase => (written_of_admitted hbase).1) hfollow
  obtain ⟨steps, rfl⟩ := Nat.exists_eq_add_one.mpr hpos
  obtain ⟨base, hbase, -⟩ := bind_eq_some_iff.mp hfollow
  obtain ⟨sym, -, ⟨hsym, -⟩, -⟩ := admitted_eq_some_iff.mp hbase
  obtain ⟨hmem, rfl⟩ := mem_of_findClass hsym
  rw [h sym hmem ⟨steps + 1, hpos, hwritten⟩] at hbase
  cases hbase

theorem exists_refusal_of_onCycle (hcycle : d.OnCycle c) (hadmitted : d.admitted c.fullName = none) :
    ∃ diag, d.refusal c.fullName = some diag := by
  obtain ⟨steps, hpos, hfollow⟩ := hcycle
  obtain ⟨steps, rfl⟩ := Nat.exists_eq_add_one.mpr hpos
  obtain ⟨base, hbase, -⟩ := bind_eq_some_iff.mp hfollow
  exact refusal_of_written hbase hadmitted

/-- Base names are acyclic exactly if no cycle of bases that pass the tests is longer than the search
for cycles. Moreover all classes on a cycle of base clauses are reported exactly if none of these
clauses passes the tests, and they are reported as being on a cycle exactly if each is its own base. -/
theorem acyclic_and_reported_iff (d : ClassDeclarations) : (d.resolveInheritance.Acyclic ↔
      ∀ full, Returns d.admitted full → ReturnsWithin d.admitted inheritanceSteps full) ∧
    (d.resolveInheritance.Acyclic ∧
        (∀ c ∈ d.classes, d.OnCycle c → d.resolveInheritance.Reported c) ↔
      ∀ c ∈ d.classes, d.OnCycle c → d.admitted c.fullName = none) ∧
    (d.resolveInheritance.Acyclic ∧
        (∀ c ∈ d.classes, d.OnCycle c → d.resolveInheritance.ReportedCycle c) ↔
      ∀ c ∈ d.classes, d.OnCycle c → d.written c.fullName = some c.fullName) := by
  have hrefused : (∀ c ∈ d.classes, d.OnCycle c → d.resolveInheritance.Reported c) →
      ∀ c ∈ d.classes, d.OnCycle c → d.admitted c.fullName = none := by
    intro hreported c hc hcycle
    by_contra hadmitted
    obtain ⟨first, hfirst, hon, hnot⟩ := exists_not_reported hc hcycle hadmitted
    exact hnot (hreported first hfirst hon)
  refine ⟨d.acyclic_iff, ⟨fun h => hrefused h.2, fun h => ⟨acyclic_of_forall_refused h, ?_⟩⟩, ?_⟩
  · intro c hc hcycle
    obtain ⟨diag, hdiagnostic⟩ := exists_refusal_of_onCycle hcycle (h c hc hcycle)
    rw [reported_iff, diagnosticsOf_of_refused hc (h c hc hcycle), hdiagnostic]
    exact cons_ne_nil _ _
  · constructor
    · rintro ⟨-, hreported⟩ c hc hcycle
      have hnone := hrefused (fun c hc hcycle => by
        obtain ⟨diag, hmem, hnode, -⟩ := hreported c hc hcycle
        exact ⟨diag, hmem, hnode⟩) c hc hcycle
      obtain ⟨diag, hmem, hcode⟩ := reportedCycle_iff.mp (hreported c hc hcycle)
      rw [diagnosticsOf_of_refused hc hnone, mem_toList] at hmem
      exact (code_of_refusal hmem).mp hcode
    · intro hself
      have hnone : ∀ c ∈ d.classes, d.OnCycle c → d.admitted c.fullName = none := by
        intro c hc hcycle
        by_contra hadmitted
        obtain ⟨base, hbase⟩ := ne_none_iff_exists'.mp hadmitted
        obtain ⟨hwritten, hne⟩ := written_of_admitted hbase
        rw [hself c hc hcycle, some_inj] at hwritten
        exact hne hwritten.symm
      refine ⟨acyclic_of_forall_refused hnone, fun c hc hcycle => ?_⟩
      obtain ⟨diag, hdiagnostic⟩ := exists_refusal_of_onCycle hcycle (hnone c hc hcycle)
      rw [reportedCycle_iff, diagnosticsOf_of_refused hc (hnone c hc hcycle), hdiagnostic]
      exact ⟨diag, mem_singleton_self _, (code_of_refusal hdiagnostic).mpr (hself c hc hcycle)⟩

/-! ## Rings of classes -/

def ringName (index : Nat) : String := String.ofList (replicate (index + 1) 'C')

theorem ringName_inj {i j : Nat} (h : ringName i = ringName j) : i = j := by
  have hlength := congrArg length (String.ofList_injective h)
  simpa using hlength

theorem ringName_ne (text : String) (h : text.toList.head? ≠ some 'C') (index : Nat) :
    ringName index ≠ text := by
  rintro rfl
  simp [ringName, replicate_succ] at h

def ringClass (size index : Nat) : DeclaredClass where
  fullName := ringName index
  name := ringName index
  syntaxNode := 2 * index
  clause := some {
    node := 2 * index + 1
    written := .classType (ringName ((index + 1) % size))
    resolved := ringName ((index + 1) % size) }

/-- Classes that each have the next one as base, and the last one the first. -/
def ring (size : Nat) : ClassDeclarations where
  classes := (range size).map (ringClass size)
  classNodes := (range size).map fun index : Nat => (2 * index : Int)
  named := by
    simp only [List.mem_map, mem_range]
    rintro _ ⟨index, -, rfl⟩
    simp [ringClass, ringName]
  fullNames := by
    rw [List.map_map]
    exact nodup_range.map fun i j h => ringName_inj h
  nodes := by
    rw [flatMap_map, nodup_flatMap]
    constructor
    · intro index _
      simp only [ringClass, DeclaredClass.nodes, map_some, toList_some,
        nodup_cons, mem_singleton, not_mem_nil, not_false_eq_true, nodup_nil,
        and_true]
      omega
    · refine nodup_range.imp fun {i j} hne node hi hj => ?_
      simp only [ringClass, DeclaredClass.nodes, map_some, toList_some, mem_cons,
        not_mem_nil, or_false] at hi hj
      omega
  unlinked := by
    simp only [List.mem_map, mem_range]
    rintro _ ⟨index, -, rfl⟩
    rfl
  distinct := nodup_range.map fun i j (h : (2 * i : Int) = 2 * j) => by omega
  listed := by
    simp only [List.mem_map, mem_range]
    rintro _ ⟨index, hlt, rfl⟩
    exact ⟨index, hlt, rfl⟩

theorem ring_admitted {size index : Nat} (hsize : 2 ≤ size) (h : index < size) :
    (ring size).admitted (ringName index) = some (ringName ((index + 1) % size)) := by
  have hmem : ∀ i < size, ringClass size i ∈ (ring size).classes := fun i hi =>
    mem_map_of_mem (mem_range.mpr hi)
  have hnext : (index + 1) % size < size := Nat.mod_lt _ (by omega)
  have hne : ringName ((index + 1) % size) ≠ ringName index := by
    intro heq
    have hself := ringName_inj heq
    rcases Nat.lt_or_ge (index + 1) size with hlt | hge
    · rw [Nat.mod_eq_of_lt hlt] at hself
      omega
    · rw [Nat.le_antisymm (by omega) hge, Nat.mod_self] at hself
      omega
  have hfound : (ring size).findClass (ringName ((index + 1) % size)) =
      some (ringClass size ((index + 1) % size)) := findClass_of_mem (hmem _ hnext)
  refine admitted_eq_some_iff.mpr ⟨ringClass size index, _, ⟨findClass_of_mem (hmem index h), rfl⟩, ?_⟩
  dsimp only
  rw [hfound]
  have herror := ringName_ne "Error" (by decide) ((index + 1) % size)
  have hunknown := ringName_ne "Unknown" (by decide) ((index + 1) % size)
  simp [checkBaseClause, ringClass, SemanticType.isBuiltin, SemanticType.isArray,
    SemanticType.isOptional, SemanticType.isPointer, hne, herror, hunknown]

theorem ring_follow {size index : Nat} (hsize : 2 ≤ size) (h : index < size) (steps : Nat) :
    follow (ring size).admitted steps (ringName index) =
      some (ringName ((index + steps) % size)) := by
  induction steps generalizing index with
  | zero => rw [Nat.add_zero, Nat.mod_eq_of_lt h]; rfl
  | succ steps ih =>
    rw [follow, ring_admitted hsize h, bind_some, ih (Nat.mod_lt _ (by omega)),
      Nat.mod_add_mod, Nat.add_assoc, Nat.add_comm 1]

/-- The search for cycles misses a ring of 257 classes. In a ring of two, one class is reported. -/
theorem ring_cyclic_or_not_reported : ¬(ring 257).resolveInheritance.Acyclic ∧
    (∀ c ∈ (ring 2).classes, (ring 2).OnCycle c) ∧
      ((ring 2).resolveInheritance.diagnostics.map fun diag => diag.node) = [2] := by
  refine ⟨fun hacyclic => ?_, fun c hc => ⟨2, by decide, ?_⟩, by decide +kernel⟩
  · have hreturns : Returns (ring 257).admitted (ringName 0) :=
      ⟨257, by decide, ring_follow (by decide) (by decide) 257⟩
    obtain ⟨steps, hpos, hbound, hfollow⟩ := (ring 257).acyclic_iff.mp hacyclic _ hreturns
    rw [ring_follow (by decide) (by decide), some_inj] at hfollow
    have hself := ringName_inj hfollow
    rw [inheritanceSteps] at hbound
    omega
  · obtain ⟨index, hindex, rfl⟩ := mem_map.mp hc
    refine follow_mono (fun _ _ hbase => (written_of_admitted hbase).1)
      ((ring_follow (by decide) (mem_range.mp hindex) 2).trans ?_)
    rw [Nat.add_mod_right, Nat.mod_eq_of_lt (mem_range.mp hindex)]
    rfl

end ClassDeclarations

end Neri.Semantic
