import Mathlib.Data.List.Chain
import Neri.Codegen.DeclarationOrder
import Neri.Ir.Proofs.OrderProofs
import Neri.Lib.ExceptFold

/-!
# The order that is emitted and the order that is demanded

The compiler sorts names by their UTF-16 code units and the native verifier wants them in the order
of their bytes. A module whose declarations are distinct passes the order checks exactly when no two
names first differ in a scalar between `U+E000` and `U+FFFF` on one side and a scalar outside the
basic plane on the other.
-/

namespace Neri.Codegen

open Neri.Ir Neri.Frontend

/-! ## Two orders on one list -/

/-- A list in the strict order `R` is a chain of another strict order exactly when the two agree on
its elements. -/
theorem isChain_iff_agree {α : Type} {R N : α → α → Prop} (hR : ∀ a b, R a b → ¬R b a)
    (hN : ∀ a b, N a b → ¬N b a) [IsTrans α N] {values : List α} (hvalues : values.Pairwise R) :
    values.IsChain N ↔ ∀ a ∈ values, ∀ b ∈ values, (R a b ↔ N a b) := by
  rw [List.isChain_iff_pairwise]
  constructor
  · intro hpairwise
    have hboth := hvalues.and hpairwise
    -- `Pairwise` sees each pair in one direction; the other one holds as both orders are strict
    refine fun a ha b hb => List.Pairwise.forall_of_forall_of_flip
      (R := fun a b => (R a b ↔ N a b)) ?_ ?_ ?_ ha hb
    · intro a _
      exact iff_of_false (fun h => hR a a h h) (fun h => hN a a h h)
    · exact hboth.imp fun h => iff_of_true h.1 h.2
    · exact hboth.imp fun h => iff_of_false (hR _ _ h.1) (hN _ _ h.2)
  · intro hagree
    refine hvalues.imp_of_mem ?_
    intro a b ha hb hr
    exact (hagree a ha b hb).mp hr

/-! ## The native order -/

theorem stringLess_iff (left right : String) :
    stringLess left right = true ↔ byteKey left < byteKey right := decide_eq_true_iff

/-- The tuple that `symbol_key` makes, with its order. -/
def SymbolId.key (id : SymbolId) : List ℕ ×ₗ ℕ ×ₗ List ℕ :=
  toLex (byteKey id.moduleName, toLex (id.kind.wireCode, byteKey id.semanticName))

theorem symbolKeyLess_iff (left right : SymbolId) :
    symbolKeyLess left right = true ↔ left.key < right.key := by
  unfold symbolKeyLess SymbolId.key
  rw [Prod.Lex.toLex_lt_toLex, Prod.Lex.toLex_lt_toLex]
  simp only [Bool.or_eq_true, Bool.and_eq_true, Bool.not_eq_true', decide_eq_true_eq,
    ← Bool.not_eq_true, stringLess_iff, not_lt]
  constructor
  · rintro (h | ⟨h₁, h | ⟨h₂, h⟩⟩)
    · exact .inl h
    · rcases h₁.lt_or_eq with hlt | heq
      · exact .inl hlt
      · exact .inr ⟨heq, .inl h⟩
    · rcases h₁.lt_or_eq with hlt | heq
      · exact .inl hlt
      · rcases h₂.lt_or_eq with hlt | heq'
        · exact .inr ⟨heq, .inl hlt⟩
        · exact .inr ⟨heq, .inr ⟨heq', h⟩⟩
  · rintro (h | ⟨h₁, h | ⟨h₂, h⟩⟩)
    · exact .inl h
    · exact .inr ⟨h₁.le, .inl h⟩
    · exact .inr ⟨h₁.le, .inr ⟨h₂.le, h⟩⟩

theorem requireUniqueOrder_eq_ok {K : Type} {less : K → K → Bool} {description : String}
    {values : List K} :
    requireUniqueOrder less description values = .ok () ↔ values.IsChain (less · ·) := by
  fun_induction requireUniqueOrder less description values with
  | case1 previous next rest h =>
    simp only [Bool.not_eq_true'] at h
    simp [fail, h]
  | case2 previous next rest h ih =>
    rw [ih]
    simp only [Bool.not_eq_true', Bool.not_eq_false] at h
    simp [h]
  | case3 values hshort =>
    match values, hshort with
    | [], _ => simp
    | [_], _ => simp
    | _ :: _ :: _, hshort => exact (hshort _ _ _ rfl).elim

/-! ## One list -/

section Lists

variable {T : Type} {values : List T} {primary : T → Nat} {name : T → String}

theorem before_asymm (left right : T) (h : Before primary name left right) :
    ¬Before primary name right left := by
  rintro (h' | ⟨hp, h'⟩)
  · rcases h with h | ⟨hp, -⟩ <;> omega
  · rcases h with h | ⟨-, h⟩
    · omega
    · exact lt_asymm h h'

/-- Values with distinct keys have one canonical order, however they are listed. -/
theorem ordered_eq_of_perm {values' : List T} (hperm : values.Perm values')
    (hdistinct : (values.map fun v => (primary v, name v)).Nodup) :
    ordered values primary name = ordered values' primary name := by
  have hdistinct' := (hperm.map _).nodup_iff.mp hdistinct
  have hsame := (ordered_perm values primary name).trans
    (hperm.trans (ordered_perm values' primary name).symm)
  exact hsame.eq_of_pairwise (fun v w _ _ h h' => absurd h' (before_asymm v w h))
    (ordered_pairwise _ _ _ hdistinct) (ordered_pairwise _ _ _ hdistinct')

theorem ordered_eq_of_perm_swap :
    ordered [1, 2] id (fun _ => "a") = ordered [2, 1] id (fun _ => "a") :=
  ordered_eq_of_perm (.swap ..) (by decide)

/-- The emitted list is accepted exactly when the two orders agree on its values. -/
theorem requireUniqueOrder_ordered {K L : Type} [LinearOrder L] {less : K → K → Bool}
    {key : K → L} (hless : ∀ a b, less a b = true ↔ key a < key b) (description : String)
    (projection : T → K) (hdistinct : (values.map fun v => (primary v, name v)).Nodup) :
    requireUniqueOrder less description ((ordered values primary name).map projection) = .ok () ↔
      ∀ v ∈ values, ∀ w ∈ values,
        (Before primary name v w ↔ key (projection v) < key (projection w)) := by
  rw [requireUniqueOrder_eq_ok, List.isChain_map]
  simp only [hless]
  rw [isChain_iff_agree before_asymm (fun _ _ => lt_asymm)
    (ordered_pairwise values primary name hdistinct)]
  simp only [(ordered_perm values primary name).mem_iff]

theorem wireCode_injective : Function.Injective IrSymbolKind.wireCode := by
  intro left right h
  cases left <;> cases right <;> first | rfl | cases h

/-- A list of declarations of one module, sorted by kind and name. Where the compiler does not sort
by kind, all kinds are the same. -/
theorem requireUniqueOrder_symbols (primary : T → Nat) (description : String) (sym : T → IrSymbol)
    (hmodule : ∀ v ∈ values, ∀ w ∈ values, (sym v).moduleName = (sym w).moduleName)
    (hprimary : ∀ v ∈ values, ∀ w ∈ values,
      (primary v < primary w ↔ (sym v).kind.wireCode < (sym w).kind.wireCode))
    (hdistinct : (values.map sym).Nodup) : requireUniqueOrder symbolKeyLess description
        ((ordered values primary (sym · |>.name)).map (symbolId <| sym ·)) = .ok () ↔
      ∀ v ∈ values, ∀ w ∈ values, (sym v).kind = (sym w).kind →
        orderConflict (sym v).name (sym w).name = false := by
  have hkinds : ∀ v ∈ values, ∀ w ∈ values, primary v = primary w →
      (sym v).kind = (sym w).kind := by
    intro v hv w hw h
    have h₁ := hprimary v hv w hw
    have h₂ := hprimary w hw v hv
    exact wireCode_injective (by omega)
  have hkeys : (values.map fun v => (primary v, (sym v).name)).Nodup := by
    refine List.pairwise_map.mpr ((List.pairwise_map.mp hdistinct).imp_of_mem ?_)
    intro v w hv hw hne heq
    rw [Prod.mk.injEq] at heq
    have hkind := hkinds v hv w hw heq.1
    have hmod := hmodule v hv w hw
    refine hne ?_
    rcases hsv : sym v with ⟨m₁, k₁, n₁⟩
    rcases hsw : sym w with ⟨m₂, k₂, n₂⟩
    simp only [hsv, hsw] at hkind hmod heq
    rw [hkind, hmod, heq.2]
  rw [requireUniqueOrder_ordered symbolKeyLess_iff description _ hkeys]
  refine forall₂_congr fun v hv => forall₂_congr fun w hw => ?_
  have hp := hprimary v hv w hw
  have hp' := hprimary w hw v hv
  unfold Before SymbolId.key symbolId
  rw [Prod.Lex.toLex_lt_toLex, Prod.Lex.toLex_lt_toLex, hmodule v hv w hw, ← orders_agree_iff]
  rcases eq_or_ne (sym v).kind (sym w).kind with hkind | hkind
  · have heq : primary v = primary w := by
      rw [hkind] at hp hp'
      omega
    simp [heq, hkind]
  · have hne : (sym v).kind.wireCode ≠ (sym w).kind.wireCode :=
      fun h => hkind (wireCode_injective h)
    have hne' : primary v ≠ primary w := by omega
    simp [hne, hne', hkind, hp]

theorem requireUniqueOrder_oneKind {moduleName : String} {kind : IrSymbolKind} (description : String)
    (sym : T → IrSymbol)
    (hsymbols : ∀ v ∈ values, (sym v).moduleName = moduleName ∧ (sym v).kind = kind)
    (hdistinct : (values.map sym).Nodup) : requireUniqueOrder symbolKeyLess description
        ((ordered values (fun _ => 0) (sym · |>.name)).map (symbolId <| sym ·)) = .ok () ↔
      ∀ v ∈ values, ∀ w ∈ values, orderConflict (sym v).name (sym w).name = false := by
  have hkind : ∀ v ∈ values, ∀ w ∈ values, (sym v).kind = (sym w).kind :=
    fun v hv w hw => (hsymbols v hv).2.trans (hsymbols w hw).2.symm
  rw [requireUniqueOrder_symbols (fun _ => 0) description sym
    (fun v hv w hw => (hsymbols v hv).1.trans (hsymbols w hw).1.symm)
    (fun v hv w hw => by simp [hkind v hv w hw]) hdistinct]
  refine forall₂_congr fun v hv => forall₂_congr fun w hw => ?_
  simp [hkind v hv w hw]

end Lists

/-! ## The module -/

/-- What the lowering gives every module: all declarations belong to the module, classes and globals
have their own kinds, and no list declares a name twice. -/
structure DistinctDeclarations (m : IrModule) : Prop where
  sources : (m.sources.map (·.id)).Nodup
  classes : (m.classes.map (·.symbol)).Nodup
  classSymbols : ∀ c ∈ m.classes, c.symbol.moduleName = m.id ∧ c.symbol.kind = .classDecl
  globals : (m.globals.map (·.symbol)).Nodup
  globalSymbols : ∀ g ∈ m.globals, g.symbol.moduleName = m.id ∧ g.symbol.kind = .globalDecl
  imports : (m.imports.map (·.symbol)).Nodup
  importSymbols : ∀ i ∈ m.imports, i.symbol.moduleName = m.id
  functions : (m.functions.map (·.symbol)).Nodup
  functionSymbols : ∀ f ∈ m.functions, f.symbol.moduleName = m.id

/-- No two names that are compared are in conflict. -/
structure NoOrderConflict (m : IrModule) : Prop where
  sources : ∀ a ∈ m.sources, ∀ b ∈ m.sources, orderConflict a.id b.id = false
  classes : ∀ a ∈ m.classes, ∀ b ∈ m.classes, orderConflict a.symbol.name b.symbol.name = false
  globals : ∀ a ∈ m.globals, ∀ b ∈ m.globals, orderConflict a.symbol.name b.symbol.name = false
  imports : ∀ a ∈ m.imports, ∀ b ∈ m.imports, a.symbol.kind = b.symbol.kind →
    orderConflict a.symbol.name b.symbol.name = false
  functions : ∀ a ∈ m.functions, ∀ b ∈ m.functions, a.symbol.kind = b.symbol.kind →
    orderConflict a.symbol.name b.symbol.name = false

/-- A module with distinct declarations is accepted in the order it is written exactly when none of
its names are in conflict. -/
theorem verifyDeclarationOrder_emittedIds_iff (m : IrModule) (h : DistinctDeclarations m) :
    verifyDeclarationOrder (emittedIds m) = .ok () ↔ NoOrderConflict m := by
  have hsources : requireUniqueOrder stringLess "Sources" (emittedIds m).sources = .ok () ↔
      ∀ a ∈ m.sources, ∀ b ∈ m.sources, orderConflict a.id b.id = false := by
    have hkeys : (m.sources.map fun source => (0, source.id)).Nodup := by
      have hpairwise := List.pairwise_map.mp h.sources
      exact List.pairwise_map.mpr (hpairwise.imp fun hne heq => hne (Prod.mk.inj heq).2)
    show requireUniqueOrder stringLess "Sources" ((irOrderedSources m).map _) = _ ↔ _
    unfold irOrderedSources
    rw [requireUniqueOrder_ordered stringLess_iff "Sources" _ hkeys]
    simp [Before, orders_agree_iff]
  have hclasses := requireUniqueOrder_oneKind "Classes" IrClass.symbol h.classSymbols h.classes
  have hglobals := requireUniqueOrder_oneKind "Globals" IrGlobal.symbol h.globalSymbols h.globals
  have himports := requireUniqueOrder_symbols _ "Imports" IrImport.symbol
    (fun a ha b hb => (h.importSymbols a ha).trans (h.importSymbols b hb).symm)
    (fun a _ b _ => Iff.rfl) h.imports
  have hfunctions := requireUniqueOrder_symbols _ "Functions" IrFunction.symbol
    (fun a ha b hb => (h.functionSymbols a ha).trans (h.functionSymbols b hb).symm)
    (fun a _ b _ => Iff.rfl) h.functions
  unfold verifyDeclarationOrder
  simp only [ExceptFold.bind_eq_ok]
  constructor
  · rintro ⟨_, h₁, _, h₂, _, h₃, _, h₄, h₅⟩
    exact
      { sources := hsources.mp h₁
        classes := hclasses.mp h₂
        globals := hglobals.mp h₃
        imports := himports.mp h₄
        functions := hfunctions.mp h₅ }
  · intro hno
    exact ⟨(), hsources.mpr hno.sources, (), hclasses.mpr hno.classes, (),
      hglobals.mpr hno.globals, (), himports.mpr hno.imports, hfunctions.mpr hno.functions⟩

/-- A class of a module, without members. -/
def emptyClass (name : String) : IrClass :=
  { symbol := { moduleName := "main", kind := .classDecl, name := name }
    baseSymbol := none
    access := .publicAccess
    location := irNoLocation }

/-- The letters `U+F900` and `U+10000`. -/
def compatibilityLetter : String := String.ofList [Char.ofNat 0xF900]

@[inherit_doc compatibilityLetter]
def linearBLetter : String := String.ofList [Char.ofNat 0x10000]

/-- Two classes, each named by one letter. -/
def twoLetterModule : IrModule :=
  { classes := [emptyClass compatibilityLetter, emptyClass linearBLetter] }

/-- The lexer reads both names as identifiers, and the native verifier rejects the module. -/
theorem verifyDeclarationOrder_twoLetterModule : DistinctDeclarations twoLetterModule ∧
      (∀ c ∈ twoLetterModule.classes, isIdentifier c.symbol.name = true) ∧
      verifyDeclarationOrder (emittedIds twoLetterModule) = .error
          { code := .malformedModule
            message := "Classes are not in unique canonical order." } := by
  refine ⟨?_, ?_, ?_⟩
  · constructor <;> decide +kernel
  · decide +kernel
  · decide +kernel

/-- Names below the surrogates are never in conflict. -/
theorem verifyDeclarationOrder_emittedIds_asciiModule : verifyDeclarationOrder (emittedIds
      { classes := [emptyClass "Stack", emptyClass "Queue"] }) = .ok () := by
  refine (verifyDeclarationOrder_emittedIds_iff _ ?_).mpr ?_
  · constructor <;> decide +kernel
  · constructor <;> decide +kernel

end Neri.Codegen
