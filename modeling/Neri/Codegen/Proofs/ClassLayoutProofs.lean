import Mathlib.Data.List.Perm.Subperm
import Neri.Codegen.ClassLayout
import Neri.Ir.Proofs.DispatchProofs
import Neri.Lib.AssocList

/-!
# What a virtual call runs

The table of a class holds, for each slot, the implementation of the nearest class of its line that
has a method with that slot, and a slot keeps the index it has in the base class. So a call through
the slot of a method runs that method or, where the slots agree with the override rules, an override
of it.
-/

namespace Neri.Codegen

open Neri.Ir Neri.Semantic Lines List

variable {layout : ClassLayout} {slot : SymbolId} {c : SemanticClass}

/-! ## Tables -/

def entersSlot (slot : SymbolId) (item : Method) : Bool :=
  item.dispatch == .virtualDispatch && item.dispatchSlot == some slot

/-- A table whose slots hold the implementations that `entry` says, each slot at its own index. -/
structure TableInv (layout : ClassLayout) (entry : SymbolId → Option SymbolId) : Prop where
  inRange : ∀ slot index, layout.dispatchSlots.lookup slot = some index →
    index < layout.virtualMethods.length
  injective : ∀ slot slot' index, layout.dispatchSlots.lookup slot = some index →
    layout.dispatchSlots.lookup slot' = some index → slot = slot'
  entries : ∀ slot, (layout.dispatchSlots.lookup slot).bind (layout.virtualMethods[·]?) = entry slot

theorem TableInv.empty : TableInv {} fun _ => none := by
  constructor
  · intro slot index h
    cases h
  · intro slot slot' index h
    cases h
  · intro slot
    rfl

theorem TableInv.addVirtualMethod {e : SymbolId → Option SymbolId}
    (h : TableInv layout e) (item : Method) : TableInv (addVirtualMethod layout item) fun slot =>
      if entersSlot slot item then some item.functionId else e slot := by
  unfold Codegen.addVirtualMethod
  by_cases hvirtual : item.dispatch = .virtualDispatch
  · rw [if_neg (not_not.mpr hvirtual)]
    cases hslot : item.dispatchSlot with
    | none =>
      have hnot : ∀ slot, entersSlot slot item = false := by
        intro slot
        simp [entersSlot, hslot]
      simpa [hnot] using h
    | some slot =>
      have henters : ∀ t, entersSlot t item = (t == slot) := by
        intro t
        simp [entersSlot, hvirtual, hslot, Bool.beq_comm]
      simp only [henters]
      cases hlookup : layout.dispatchSlots.lookup slot with
      | some index =>
        have hlt := h.inRange slot index hlookup
        constructor
        · intro t k hk
          simpa using h.inRange t k hk
        · exact h.injective
        · intro t
          show (layout.dispatchSlots.lookup t).bind ((layout.virtualMethods.set index _)[·]?) = _
          by_cases ht : t = slot
          · subst ht
            simp [hlookup, hlt]
          · rw [if_neg (by simpa using ht), ← h.entries t]
            cases htk : layout.dispatchSlots.lookup t with
            | none => rfl
            | some k =>
              have hne : index ≠ k := fun heq => ht (h.injective t slot k htk (heq ▸ hlookup))
              simp [getElem?_set, hne]
      | none =>
        have hnew : ∀ t, (layout.dispatchSlots ++ [(slot, layout.virtualMethods.length)]).lookup t =
            if t = slot then some layout.virtualMethods.length
            else layout.dispatchSlots.lookup t := by
          intro t
          rw [AssocList.lookup_append_singleton]
          by_cases ht : t = slot
          · subst ht
            simp [hlookup]
          · simp [ht]
        constructor
        · intro t k hk
          simp only [hnew] at hk
          rw [length_append, length_singleton]
          split at hk
          · cases hk
            omega
          · have := h.inRange t k hk
            omega
        · intro t t' k hk hk'
          simp only [hnew] at hk hk'
          split at hk <;> split at hk'
          · simp_all
          · cases hk
            have := h.inRange t' _ hk'
            omega
          · cases hk'
            have := h.inRange t _ hk
            omega
          · exact h.injective t t' k hk hk'
        · intro t
          simp only [hnew]
          by_cases ht : t = slot
          · simp [ht]
          · rw [if_neg ht, if_neg (by simpa using ht), ← h.entries t]
            cases htk : layout.dispatchSlots.lookup t with
            | none => rfl
            | some k =>
              have := h.inRange t k htk
              simp [getElem?_append_left this]
  · rw [if_pos hvirtual]
    have hnot : ∀ slot, entersSlot slot item = false := by
      intro slot
      simp [entersSlot, hvirtual]
    simpa [hnot] using h

/-- The implementation that a list of methods leaves in a slot. -/
def lastEntry (methods : List Method) (slot : SymbolId) : Option SymbolId :=
  (methods.reverse.find? (entersSlot slot)).map (·.functionId)

theorem TableInv.foldl {e : SymbolId → Option SymbolId}
    (h : TableInv layout e) (methods : List Method) :
    TableInv (methods.foldl Codegen.addVirtualMethod layout) fun slot =>
      (lastEntry methods slot).or (e slot) := by
  induction methods generalizing layout e with
  | nil => exact h
  | cons item methods ih =>
    have hnext := ih (h.addVirtualMethod item)
    have heq : (fun slot => (lastEntry (item :: methods) slot).or (e slot)) =
        fun slot => (lastEntry methods slot).or
          (if entersSlot slot item then some item.functionId else e slot) := by
      funext slot
      unfold lastEntry
      rw [reverse_cons, find?_append]
      cases methods.reverse.find? (entersSlot slot) with
      | some found => rfl
      | none => by_cases hitem : entersSlot slot item <;> simp [hitem]
    rw [heq]
    exact hnext

theorem lookup_foldl_addVirtualMethod {index : Nat}
    (h : layout.dispatchSlots.lookup slot = some index) (methods : List Method) :
    (methods.foldl addVirtualMethod layout).dispatchSlots.lookup slot = some index := by
  induction methods generalizing layout with
  | nil => exact h
  | cons item methods ih =>
    refine ih ?_
    unfold addVirtualMethod
    split
    · exact h
    · split
      · exact h
      · split
        · exact h
        · rw [lookup_append, h, Option.some_or]

/-! ## The classes of a hierarchy -/

section Classes

variable {ctx : ClassContext}

/-- A class of the hierarchy as the native side reads it. -/
def nativeOf (context : ClassContext) (c : SemanticClass) : ClassDeclaration :=
  nativeClass (lowerClass context c)

def nativeClasses (context : ClassContext) : List ClassDeclaration :=
  (lowerClasses context).map nativeClass

/-- The table of a class at the head of a line. -/
def tableOf (context : ClassContext) (line : List SemanticClass) : ClassLayout :=
  line.foldr (fun c layout => (nativeOf context c).methods.foldl addVirtualMethod layout) {}

theorem findClass_nativeClasses (h : Hierarchy ctx.model) {b : SemanticClass}
    (hb : b ∈ ctx.model.classes) (hrep : b.representation = "") :
    findClass (nativeClasses ctx) (nativeOf ctx b).id = some (nativeOf ctx b) := by
  unfold findClass nativeClasses lowerClasses
  rw [map_map]
  refine find?_eq_some_of_unique ?_ (by simp) ?_
  · exact mem_map.mpr ⟨b, mem_filter.mpr ⟨hb, by simp [hrep]⟩, rfl⟩
  · intro d hd hid
    obtain ⟨c, hc, rfl⟩ := mem_map.mp hd
    have hcm := (mem_filter.mp hc).1
    rw [beq_iff_eq] at hid
    have hname : c.fullName = b.fullName := congrArg SymbolId.semanticName hid
    rw [h.eq_of_fullName hcm hb hname]
    rfl

/-- The layout of a class is the table of its line, as soon as the fuel covers the line. -/
theorem buildClassLayout_eq (h : Hierarchy ctx.model)
    (hc : c ∈ ctx.model.classes) {l : List SemanticClass}
    (hline : Line ctx.model.baseOf c l) {fuel : Nat} (hfuel : l.length < fuel) :
    buildClassLayout (nativeClasses ctx) fuel (nativeOf ctx c) = some (tableOf ctx (c :: l)) := by
  induction hline generalizing fuel with
  | @last c hbase =>
    obtain ⟨fuel, rfl⟩ : ∃ n, fuel = n + 1 := ⟨fuel - 1, by omega⟩
    have hname : c.baseName = "" := by
      by_contra hne
      obtain ⟨b, hb⟩ := h.bases c hc hne
      rw [hbase] at hb
      cases hb
    have hnone : (nativeOf ctx c).base = none := by
      simp [nativeOf, nativeClass, lowerClass, hname]
    unfold buildClassLayout
    rw [hnone]
    rfl
  | @step c b l hbase rest ih =>
    obtain ⟨fuel, rfl⟩ : ∃ n, fuel = n + 1 := ⟨fuel - 1, by omega⟩
    have hb := SemanticModel.findClass_mem hbase
    have hfull := SemanticModel.fullName_of_findClass hbase
    have hsome : (nativeOf ctx c).base = some (nativeOf ctx b).id := by
      have hne : c.baseName ≠ "" := hfull ▸ h.named b hb
      simp [nativeOf, nativeClass, lowerClass, hne, hfull]
    unfold buildClassLayout
    rw [hsome]
    simp only [findClass_nativeClasses h hb (h.unrepresented c hc b hbase).2]
    rw [ih hb (by rw [length_cons] at hfuel; omega)]
    rfl

theorem length_line_lt (h : Hierarchy ctx.model)
    (hc : c ∈ ctx.model.classes) (hrep : c.representation = "") {l : List SemanticClass}
    (hline : Line ctx.model.baseOf c l) : l.length < (nativeClasses ctx).length := by
  have hsub : (c :: l) ⊆ ctx.model.classes.filter (·.representation == "") := by
    intro k hk
    refine mem_filter.mpr ⟨mem_of_line hc hline hk, ?_⟩
    rcases mem_cons.mp hk with rfl | hk
    · simpa using hrep
    · obtain ⟨p, hp, hbase⟩ := Relation.TransGen.tail'_iff.mp (hline.mem_iff_transGen.mp hk)
      have hpm : p ∈ ctx.model.classes := by
        rcases Relation.reflTransGen_iff_eq_or_transGen.mp hp with rfl | hp
        · exact hc
        · exact mem_of_line hc hline (mem_cons_of_mem _ (hline.mem_iff_transGen.mpr hp))
      simpa using (h.unrepresented p hpm k hbase).2
  have hle := (subperm_of_subset hline.nodup hsub).length_le
  unfold nativeClasses lowerClasses
  rw [length_map, length_map]
  exact hle

/-- The nearest implementation of a slot on a line. -/
def nearest (context : ClassContext) (line : List SemanticClass) (slot : SymbolId) : Option SymbolId :=
  line.findSome? fun c => lastEntry (nativeOf context c).methods slot

theorem tableOf_inv (ctx : ClassContext) (line : List SemanticClass) :
    TableInv (tableOf ctx line) (nearest ctx line) := by
  induction line with
  | nil => exact TableInv.empty
  | cons c line ih =>
    have hnext := ih.foldl (nativeOf ctx c).methods
    have heq : nearest ctx (c :: line) = fun slot =>
        (lastEntry (nativeOf ctx c).methods slot).or (nearest ctx line slot) := by
      funext slot
      rw [nearest, findSome?_cons]
      cases lastEntry (nativeOf ctx c).methods slot <;> rfl
    rw [heq]
    exact hnext

theorem lookup_tableOf_append (before : List SemanticClass) {line : List SemanticClass} {index : Nat}
    (h : (tableOf ctx line).dispatchSlots.lookup slot = some index) :
    (tableOf ctx (before ++ line)).dispatchSlots.lookup slot = some index := by
  induction before with
  | nil => exact h
  | cons c before ih => exact lookup_foldl_addVirtualMethod ih _

end Classes

/-! ## Calls -/

/-- The slot that a call of the method goes through. -/
def slotOf (context : ClassContext) (owner : SemanticClass) (method : SemanticCallable) : SymbolId :=
  { moduleName := context.moduleId
    kind := .method
    semanticName := dispatchSlot context.model owner method }

def functionOf (context : ClassContext) (method : SemanticCallable) : SymbolId :=
  { moduleName := context.moduleId
    kind := .method
    semanticName := method.fullName }

/-- A call that the binder resolved to the method `m` of the class `a`, on a receiver of the class
`receiver`: the compiled call takes the entry of the receiver's table at the index that the slot of
`m` has, and that entry is `target`. -/
def CallRuns (context : ClassContext) (receiver a : SemanticClass) (m target : SemanticCallable) :
    Prop :=
  ∃ layout receiverLayout index,
    buildClassLayout (nativeClasses context) (nativeClasses context).length (nativeOf context a) =
      some layout ∧
    buildClassLayout (nativeClasses context) (nativeClasses context).length
      (nativeOf context receiver) = some receiverLayout ∧
    layout.dispatchSlots.lookup (slotOf context a m) = some index ∧
    receiverLayout.virtualMethods[index]? = some (functionOf context target)

/-- Every virtual call runs the method it was resolved to or an override of it, with the signature
of the method. Only the invoke method of a shared function type may be readonly where the method it
overrides is not. -/
def CallsRunOverrides (context : ClassContext) : Prop :=
  ∀ receiver ∈ context.model.classes, receiver.representation = "" →
    ∀ a, (a = receiver ∨ Ancestor context.model receiver a) → ∀ m ∈ a.methods, m.isInstance = true →
        ∃ tgt, CallRuns context receiver a m tgt ∧
          (tgt = m ∨ Overrides context.model tgt m) ∧ SameSignature context.model tgt m

theorem entersSlot_lowerMethod (ctx : ClassContext) (c : SemanticClass)
    (m : SemanticCallable) (slot : SymbolId) :
    entersSlot slot (nativeMethod (lowerMethod ctx c m)) = true ↔
      m.isInstance = true ∧ slotOf ctx c m = slot := by
  unfold entersSlot nativeMethod lowerMethod SemanticCallable.isInstance
  by_cases hstatic : m.isStatic = true
  · simp [hstatic]
  · by_cases hinit : m.name = "init"
    · simp [hstatic, hinit]
    · simp [slotOf, symbolId, hinit]

theorem lastEntry_ne_none (ctx : ClassContext) {m : SemanticCallable}
    (hmem : m ∈ c.methods) (hinst : m.isInstance = true) :
    lastEntry (nativeOf ctx c).methods (slotOf ctx c m) ≠ none := by
  unfold lastEntry
  rw [Ne, Option.map_eq_none_iff, find?_eq_none]
  intro hnone
  refine hnone (nativeMethod (lowerMethod ctx c m)) ?_
    ((entersSlot_lowerMethod ctx c m _).mpr ⟨hinst, rfl⟩)
  exact mem_reverse.mpr (mem_map_of_mem (mem_map_of_mem hmem))

theorem exists_of_lastEntry (ctx : ClassContext) {f : SymbolId}
    (h : lastEntry (nativeOf ctx c).methods slot = some f) :
    ∃ m ∈ c.methods, m.isInstance = true ∧ slotOf ctx c m = slot ∧ functionOf ctx m = f := by
  obtain ⟨item, hfind, rfl⟩ := Option.map_eq_some_iff.mp h
  have hmem := mem_reverse.mp (mem_of_find?_eq_some hfind)
  obtain ⟨lowered, hlowered, rfl⟩ := mem_map.mp hmem
  obtain ⟨m, hm, rfl⟩ := mem_map.mp hlowered
  obtain ⟨hinst, hslot⟩ := (entersSlot_lowerMethod ctx c m slot).mp (find?_some hfind)
  exact ⟨m, hm, hinst, hslot, rfl⟩

theorem sameSignature_of_overrides {model : SemanticModel}
    (haccepted : validateInheritedMembers model = []) {m m' : SemanticCallable}
    (h : Overrides model m m') : SameSignature model m m' := by
  have hdirect : ∀ {m m'}, DirectOverride model m m' → SameSignature model m m' := by
    rintro m m' ⟨c, hc, hmem, hinst, hfind⟩
    exact sameSignature_of_compatible hc hmem (.single ⟨c, hc, hmem, hinst, hfind⟩)
      (compatible_of_accepted haccepted hc hmem hinst hfind).2
  induction h with
  | single h => exact hdirect h
  | tail hchain h ih => exact ih.trans hchain (hdirect h) (.single h)

theorem callsRunOverrides_of_slotsMatchOverrides {ctx : ClassContext}
    (h : Hierarchy ctx.model) (haccepted : validateInheritedMembers ctx.model = [])
    (hslots : SlotsMatchOverrides ctx.model) : CallsRunOverrides ctx := by
  intro receiver hreceiver hrep a ha m hmem hinst
  obtain ⟨l, hline⟩ := h.acyclic receiver hreceiver
  obtain ⟨i, hi⟩ : ∃ i, (receiver :: l)[i]? = some a := by
    rcases ha with rfl | ha
    · exact ⟨0, rfl⟩
    · obtain ⟨j, hj⟩ := mem_iff_getElem?.mp (hline.mem_iff_transGen.mpr ha)
      exact ⟨j + 1, hj⟩
  have ham := mem_of_line hreceiver hline (mem_of_getElem? hi)
  have hlineA := hline.drop hi
  have hlength := length_line_lt h hreceiver hrep hline
  -- `a` enters `m` under its slot, so the slot has an index in the table of `a`
  have hentry : lastEntry (nativeOf ctx a).methods (slotOf ctx a m) ≠ none :=
    lastEntry_ne_none ctx hmem hinst
  have hnearest : ∀ {line}, a ∈ line → ∃ f, nearest ctx line (slotOf ctx a m) = some f := by
    intro line ha
    rw [← Option.ne_none_iff_exists', Ne, nearest, findSome?_eq_none_iff]
    exact fun hnone => hentry (hnone a ha)
  obtain ⟨f, hf⟩ := hnearest (mem_cons_self (l := l.drop i))
  have hbind := (tableOf_inv ctx (a :: l.drop i)).entries (slotOf ctx a m)
  rw [hf] at hbind
  obtain ⟨index, hindex, -⟩ := Option.bind_eq_some_iff.mp hbind
  -- the receiver's table has the slot at the same index, with the nearest implementation
  have hsplit : (receiver :: l).take i ++ (a :: l.drop i) = receiver :: l := by
    have hdrop : (receiver :: l).drop i = a :: l.drop i := by
      rw [drop_eq_getElem?_toList_append, hi]
      rfl
    rw [← hdrop, take_append_drop]
  have hindexR := lookup_tableOf_append ((receiver :: l).take i) hindex
  rw [hsplit] at hindexR
  obtain ⟨g, hg⟩ := hnearest (mem_of_getElem? hi)
  have hbindR := (tableOf_inv ctx (receiver :: l)).entries (slotOf ctx a m)
  rw [hindexR, hg] at hbindR
  obtain ⟨q, hq, hmin⟩ := (findSome?_eq_some_iff_getElem? _).mp hg
  obtain ⟨k, hk, hkentry⟩ := Option.bind_eq_some_iff.mp hq
  obtain ⟨tgt, htarget, htinst, hslot, rfl⟩ := exists_of_lastEntry ctx hkentry
  have hle : q ≤ i := by
    by_contra hlt
    have hnone := hmin i (by omega)
    rw [hi] at hnone
    exact hentry hnone
  have hslots' : dispatchSlot ctx.model k tgt = dispatchSlot ctx.model a m :=
    congrArg SymbolId.semanticName hslot
  have hresult : tgt = m ∨ Overrides ctx.model tgt m := by
    rcases hle.lt_or_eq with hlt | rfl
    · have hkm := mem_of_line hreceiver hline (mem_of_getElem? hk)
      have hancestor := hline.transGen_of_lt hlt hk hi
      exact .inr ((hslots k hkm a hancestor tgt htarget m hmem htinst hinst).mp hslots')
    · rw [hi] at hk
      cases hk
      exact .inl (eq_of_dispatchSlot_eq h ham htarget hmem htinst hinst hslots')
  refine ⟨tgt, ⟨_, _, index, ?_, ?_, hindex, hbindR⟩, hresult, ?_⟩
  · refine buildClassLayout_eq h ham hlineA ?_
    rw [length_drop]
    omega
  · exact buildClassLayout_eq h hreceiver hline hlength
  · rcases hresult with rfl | hover
    · exact .refl _
    · exact sameSignature_of_overrides haccepted hover

/-- The slots and the calls of an accepted hierarchy follow the override rules exactly when no class
redeclares a private method within reach, and redeclarations reach as far as what they redeclare. -/
theorem dispatch_matches_overrides_iff (context : ClassContext) (h : Hierarchy context.model)
    (haccepted : validateInheritedMembers context.model = []) :
    SlotsMatchOverrides context.model ∧ CallsRunOverrides context ↔
      NoPrivateRedeclared context.model ∧ RedeclarationsReach context.model := by
  rw [← slotsMatchOverrides_iff h haccepted]
  exact ⟨fun hboth => hboth.1, fun hslots =>
    ⟨hslots, callsRunOverrides_of_slotsMatchOverrides h haccepted hslots⟩⟩

/-! ## A class and its base class -/

/-- The method `f` of the class `Base`. -/
def baseMethod (access : SourceAccess) : SemanticCallable :=
  { fullName := "Base.f"
    name := "f"
    className := "Base"
    returnType := "Int"
    access := access }

/-- The method `f` of the class `Derived`. -/
def derivedMethod : SemanticCallable :=
  { fullName := "Derived.f"
    name := "f"
    className := "Derived"
    returnType := "Int" }

/-- The class `Base`. -/
def baseClass (access : SourceAccess) : SemanticClass :=
  { fullName := "Base"
    methods := [baseMethod access] }

/-- The class `Derived`. -/
def derivedClass : SemanticClass :=
  { fullName := "Derived"
    baseName := "Base"
    methods := [derivedMethod] }

/-- The two classes, each with a method `f`. -/
def pairModel (access : SourceAccess) : SemanticModel :=
  { classes := [baseClass access, derivedClass] }

def pairContext (access : SourceAccess) : ClassContext :=
  { model := pairModel access
    moduleId := "main"
    fromSemantic := fun _ => .scalar .int
    location := fun _ => irNoLocation }

theorem pairModel_hierarchy (access : SourceAccess) : Hierarchy (pairModel access) := by
  have hbase : (pairModel access).baseOf (baseClass access) = none := rfl
  have hderived : (pairModel access).baseOf derivedClass = some (baseClass access) := rfl
  have hline : Line (pairModel access).baseOf (baseClass access) [] := .last hbase
  have hall : ∀ {p : SemanticClass → Prop}, p (baseClass access) → p derivedClass →
      ∀ c ∈ (pairModel access).classes, p c := by
    intro p h₁ h₂ c hc
    rcases mem_cons.mp hc with rfl | hc
    · exact h₁
    · rw [mem_singleton.mp hc]
      exact h₂
  refine
    { classNames := show ["Base", "Derived"].Nodup by decide
      methodNames := hall (nodup_singleton _) (nodup_singleton _)
      acyclic := hall ⟨[], hline⟩ ⟨[baseClass access], .step hderived hline⟩
      named := hall (show "Base" ≠ "" by decide) (show "Derived" ≠ "" by decide)
      qualified := hall ?_ ?_
      bases := hall (fun h => absurd rfl h) fun _ => ⟨_, hderived⟩
      unrepresented := hall ?_ ?_ }
  · intro m hm
    rw [mem_singleton.mp hm]
    exact ⟨rfl, show '.' ∉ "f".toList by decide⟩
  · intro m hm
    rw [mem_singleton.mp hm]
    exact ⟨rfl, show '.' ∉ "f".toList by decide⟩
  · intro b hb
    cases hb
  · intro b hb
    cases hb
    exact ⟨rfl, rfl⟩

theorem reaches_pairModel {access : SourceAccess} {a : SemanticClass}
    (hc : c ∈ (pairModel access).classes) (ha : Reaches (pairModel access) c a) :
    c = derivedClass ∧ a = baseClass access := by
  rcases mem_cons.mp hc with rfl | hc
  · exact absurd ha not_mem_nil
  · rw [mem_singleton.mp hc] at ha
    exact ⟨mem_singleton.mp hc, mem_singleton.mp ha⟩

/-- A private method of the base class and a public one of the derived class, of one signature: the
check accepts them and neither overrides the other, but a call of the private method on an object of
the derived class runs the public one. -/
theorem dispatch_private_redeclared :
    Hierarchy (pairModel .privateAccess) ∧ validateInheritedMembers (pairModel .privateAccess) = [] ∧
      CallRuns (pairContext .privateAccess) derivedClass (baseClass .privateAccess)
        (baseMethod .privateAccess) derivedMethod ∧
      derivedMethod ≠ baseMethod .privateAccess ∧
      ¬Overrides (pairModel .privateAccess) derivedMethod (baseMethod .privateAccess) := by
  refine ⟨pairModel_hierarchy _, by decide +kernel, ?_, by decide, ?_⟩
  · refine ⟨_, _, 0, rfl, rfl, by decide +kernel, by decide +kernel⟩
  · intro hover
    obtain ⟨m, hdirect, -⟩ := Relation.TransGen.head'_iff.mp hover
    obtain ⟨c, hc, hmem, -, hfind⟩ := hdirect
    rcases mem_cons.mp hc with rfl | hc
    · exact absurd hmem (by decide)
    · rw [mem_singleton.mp hc] at hfind
      cases hfind

/-- With both methods public the rules hold. -/
theorem dispatch_matches_overrides_pair :
    SlotsMatchOverrides (pairModel .publicAccess) ∧ CallsRunOverrides (pairContext .publicAccess) := by
  refine (dispatch_matches_overrides_iff (pairContext .publicAccess) (pairModel_hierarchy _)
    (by decide +kernel)).mpr ⟨?_, ?_⟩
  · intro c hc a ha m hm m' hm'
    rw [(reaches_pairModel hc ha).2] at hm'
    rw [mem_singleton.mp hm']
    exact fun _ _ _ => rfl
  · intro c hc a ha b hb
    obtain ⟨-, rfl⟩ := reaches_pairModel hc ha
    have heq := (reaches_pairModel mem_cons_self hb).1
    exact absurd heq (by decide)

end Neri.Codegen
