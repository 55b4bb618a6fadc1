import Neri.Lib.BoundedSlots
import Neri.Semantic.Hierarchy

/-!
# The binder's lookups along a line of base classes

On an acyclic hierarchy each class stands on a line of base classes, and the lookups of the binder
are scans of the next 256 of them. `declarations` is what a line says about one method name.
-/

namespace Neri.Semantic

open Lines BoundedSlots List

variable {model : SemanticModel}
variable {k : SemanticClass} {m m' : SemanticCallable}

/-! ## Lookups as scans -/

/-- What `semanticFindBaseMethod` looks for in one class. -/
def visibleMethod (name : String) (c : SemanticClass) : Option SemanticCallable :=
  c.methods.find? fun method =>
    method.name == name && method.name != "init" && !method.access.isPrivate

theorem semanticFindBaseMethod_eq (owner : SemanticClass) (name : String) :
    semanticFindBaseMethod model owner name =
      (up model.baseOf inheritanceSteps owner).findSome? (visibleMethod name) := by
  unfold semanticFindBaseMethod
  generalize inheritanceSteps = steps
  induction steps generalizing owner with
  | zero => rfl
  | succ steps ih =>
    show findBaseMethodLoop model name (steps + 1) (model.baseOf owner) = _
    unfold up
    cases hbase : model.baseOf owner with
    | none => rfl
    | some base =>
      rw [findSome?_cons, ← ih base]
      rw [findBaseMethodLoop]
      unfold visibleMethod
      split <;> simp only [*]

theorem isInstance_iff : m.isInstance = true ↔ m.isStatic = false ∧ m.name ≠ "init" := by
  simp [SemanticCallable.isInstance]

/-! ## Hierarchies -/

variable {c : SemanticClass}

theorem mem_of_line {l : List SemanticClass}
    (hc : c ∈ model.classes) (hline : Line model.baseOf c l) (hk : k ∈ c :: l) :
    k ∈ model.classes := by
  induction hline with
  | last _ => exact mem_singleton.mp hk ▸ hc
  | step hbase _ ih =>
    rcases mem_cons.mp hk with rfl | hk
    · exact hc
    · exact ih (SemanticModel.findClass_mem hbase) hk

theorem AcyclicClasses.eq_of_fullName (h : AcyclicClasses model)
    (hc : c ∈ model.classes) (hk : k ∈ model.classes) (heq : c.fullName = k.fullName) : c = k :=
  inj_on_of_nodup_map h.classNames hc hk heq

theorem AcyclicClasses.eq_of_name (h : AcyclicClasses model)
    (hc : c ∈ model.classes) (hm : m ∈ c.methods) (hm' : m' ∈ c.methods) (heq : m.name = m'.name) : m = m' :=
  inj_on_of_nodup_map (h.methodNames c hc) hm hm' heq

/-- A qualified name splits at its last dot. -/
theorem append_dot_injective {a b m n : String} (hm : '.' ∉ m.toList) (hn : '.' ∉ n.toList)
    (h : a ++ "." ++ m = b ++ "." ++ n) : a = b ∧ m = n := by
  have hchars := congrArg String.toList h
  simp only [String.toList_append] at hchars
  rw [append_assoc, append_assoc, append_eq_append_iff] at hchars
  have hnil : ∀ {m n rest : List Char}, '.' ∉ m → '.' :: m = rest ++ '.' :: n → rest = [] := by
    rintro m n (_ | ⟨c, rest⟩) hm h
    · rfl
    · exact absurd ((cons.inj h).2 ▸ mem_append_right _ mem_cons_self) hm
  rcases hchars with ⟨rest, hb, hrest⟩ | ⟨rest, ha, hrest⟩
  · obtain rfl := hnil hm hrest
    rw [append_nil] at hb
    exact ⟨(String.toList_injective hb).symm, String.toList_injective (cons.inj hrest).2⟩
  · obtain rfl := hnil hn hrest
    rw [append_nil] at ha
    exact ⟨String.toList_injective ha, (String.toList_injective (cons.inj hrest).2).symm⟩

theorem Hierarchy.eq_of_method_fullName (h : Hierarchy model)
    (hc : c ∈ model.classes) (hk : k ∈ model.classes)
    (hm : m ∈ c.methods) (hm' : m' ∈ k.methods) (heq : m.fullName = m'.fullName) :
    c = k ∧ m = m' := by
  obtain ⟨hfull, hdot⟩ := h.qualified c hc m hm
  obtain ⟨hfull', hdot'⟩ := h.qualified k hk m' hm'
  rw [hfull, hfull'] at heq
  obtain ⟨hclass, hname⟩ := append_dot_injective hdot hdot' heq
  obtain rfl := h.eq_of_fullName hc hk hclass
  exact ⟨rfl, h.eq_of_name hc hm hm' hname⟩

/-! ## Accepted hierarchies -/

theorem compatibleParameters_iff (left right : List SemanticParameter) :
    compatibleParameters left right = true ↔
      left.map (fun p => (p.typeName, p.mode)) = right.map (fun p => (p.typeName, p.mode)) := by
  induction left generalizing right with
  | nil => cases right <;> simp [compatibleParameters]
  | cons left lefts ih => cases right <;> simp [compatibleParameters, ih]

theorem SameSignature.refl (m : SemanticCallable) : SameSignature model m m :=
  ⟨rfl, id, .inl rfl⟩

theorem SameSignature.trans {m₁ m₂ m₃ : SemanticCallable} (h : SameSignature model m₁ m₂)
    (hover : Overrides model m₁ m₂) (h' : SameSignature model m₂ m₃)
    (hover' : Overrides model m₂ m₃) : SameSignature model m₁ m₃ := by
  refine ⟨h.1.trans h'.1, fun hreadonly => h.2.1 (h'.2.1 hreadonly), ?_⟩
  rcases h.2.2 with heq | ⟨c, hc, hshared, m, hm, hbelow, habove⟩
  · rcases h'.2.2 with heq' | ⟨c, hc, hshared, m, hm, hbelow, habove⟩
    · exact .inl (heq.trans heq')
    · refine .inr ⟨c, hc, hshared, m, hm, .inr ?_, habove⟩
      rcases hbelow with rfl | hbelow
      · exact hover
      · exact Relation.TransGen.trans hover hbelow
  · exact .inr ⟨c, hc, hshared, m, hm, hbelow, Relation.TransGen.trans habove hover'⟩

theorem sameSignature_of_compatible (hc : c ∈ model.classes)
    (hm : m ∈ c.methods) (hover : Overrides model m m')
    (h : compatibleMethods m m' (c.isFunctionType && c.isSharedFunction) = true) :
    SameSignature model m m' := by
  unfold compatibleMethods at h
  simp only [Bool.and_eq_true, beq_iff_eq, compatibleParameters_iff] at h
  obtain ⟨⟨⟨⟨haccess, hunsafe⟩, hreadonly⟩, hreturn⟩, hparameters⟩ := h
  rw [Bool.or_eq_true, beq_iff_eq] at hreadonly
  refine ⟨?_, ?_, ?_⟩
  · unfold SemanticCallable.signature
    rw [haccess, hunsafe, hreturn, hparameters]
  · rcases hreadonly with heq | hshared
    · exact fun h => heq ▸ h
    · simp only [Bool.and_eq_true] at hshared
      exact fun _ => hshared.1.2
  · rcases hreadonly with heq | hshared
    · exact .inl heq
    · simp only [Bool.and_eq_true] at hshared
      exact .inr ⟨c, hc, by simp [hshared.1.1], m, hm, .inl rfl, hover⟩

/-- What `validateInheritedMembers` checks of a method that takes part in dispatch. -/
theorem compatible_of_accepted (hacc : validateInheritedMembers model = [])
    (hc : c ∈ model.classes) {inherited : SemanticCallable}
    (hm : m ∈ c.methods) (hinstance : m.isInstance = true)
    (hfind : semanticFindBaseMethod model c m.name = some inherited) : inherited.isStatic = false ∧
      compatibleMethods m inherited (c.isFunctionType && c.isSharedFunction) = true := by
  have hmembers := flatMap_eq_nil_iff.mp hacc c hc
  have hmethods := (append_eq_nil_iff.mp hmembers).2
  have hmethod := flatMap_eq_nil_iff.mp hmethods m hm
  rw [isInstance_iff] at hinstance
  unfold validateInheritedMethod at hmethod
  simp only [hfind, hinstance.1, beq_iff_eq, hinstance.2, if_false, Bool.false_and,
    Bool.false_or, Bool.false_eq_true] at hmethod
  split at hmethod
  · cases hmethod
  · split at hmethod
    · cases hmethod
    · simp_all

/-! ## One name on a line -/

/-- At position `i` of the line, the method `m` is declared under the name. -/
def DeclaredAt (classes : List SemanticClass) (name : String) (i : Nat) (m : SemanticCallable) :
    Prop :=
  ∃ c, classes[i]? = some c ∧ m ∈ c.methods ∧ m.name = name ∧ m.isInstance = true

def declarations (line : List SemanticClass) (name : String) : Declarations where
  bound := inheritanceSteps
  declared i := ∃ m, DeclaredAt line name i m
  hidden i := ∃ m, DeclaredAt line name i m ∧ m.access.isPrivate = true
  top := line.length
  lt_top := by
    rintro i ⟨m, c, hc, -⟩
    exact (List.getElem_of_getElem? hc).1

section OnLine

variable {start : SemanticClass} {l : List SemanticClass} {name : String}

theorem visibleMethod_eq_some_iff (h : Hierarchy model)
    (hc : c ∈ model.classes) : visibleMethod name c = some m ↔
      m ∈ c.methods ∧ m.name = name ∧ m.name ≠ "init" ∧ m.access.isPrivate = false := by
  constructor
  · intro hfind
    have hpred := find?_some hfind
    simp only [Bool.and_eq_true, beq_iff_eq, bne_iff_ne, Bool.not_eq_true'] at hpred
    exact ⟨mem_of_find?_eq_some hfind, hpred.1.1, hpred.1.2, hpred.2⟩
  · rintro ⟨hmem, hname, hinit, hprivate⟩
    refine find?_eq_some_of_unique hmem (by subst hname; simp [hprivate, hinit]) ?_
    intro m' hm' hpred
    simp only [Bool.and_eq_true, beq_iff_eq] at hpred
    exact h.eq_of_name hc hm' hmem (hpred.1.1.trans hname.symm)

variable {i : Nat}

/-- The lookup from position `i` finds the nearest visible method in reach. -/
theorem semanticFindBaseMethod_eq_some_iff (hline : Line model.baseOf start l)
    (hc : (start :: l)[i]? = some c) :
    semanticFindBaseMethod model c name = some m ↔ ∃ j, i < j ∧ j ≤ i + inheritanceSteps ∧
        (start :: l)[j]?.bind (visibleMethod name) = some m ∧
        ∀ k, i < k → k < j → (start :: l)[k]?.bind (visibleMethod name) = none := by
  rw [semanticFindBaseMethod_eq, findSome?_eq_some_iff_getElem?]
  constructor
  · rintro ⟨q, hq, hmin⟩
    rw [hline.up_getElem? hc] at hq
    split at hq
    · refine ⟨i + 1 + q, by omega, by omega, hq, fun k hik hkq => ?_⟩
      have hk := hmin (k - (i + 1)) (by omega)
      rw [hline.up_getElem? hc, if_pos (by omega)] at hk
      have hindex : i + 1 + (k - (i + 1)) = k := by omega
      rwa [hindex] at hk
    · cases hq
  · rintro ⟨j, hij, hjb, hj, hmin⟩
    refine ⟨j - (i + 1), ?_, fun p hp => ?_⟩
    · rw [hline.up_getElem? hc, if_pos (by omega)]
      have hindex : i + 1 + (j - (i + 1)) = j := by omega
      rwa [hindex]
    · rw [hline.up_getElem? hc, if_pos (by omega)]
      exact hmin (i + 1 + p) (by omega) (by omega)

variable (h : Hierarchy model) (hstart : start ∈ model.classes) (hline : Line model.baseOf start l)

include h hstart hline

theorem DeclaredAt.unique (hm : DeclaredAt (start :: l) name i m)
    (hm' : DeclaredAt (start :: l) name i m') : m = m' := by
  obtain ⟨c, hc, hmem, hname, -⟩ := hm
  obtain ⟨c', hc', hmem', hname', -⟩ := hm'
  rw [hc] at hc'
  cases hc'
  have hcm := mem_of_line hstart hline (mem_of_getElem? hc)
  exact h.eq_of_name hcm hmem hmem' (hname.trans hname'.symm)

theorem DeclaredAt.index_unique {j : Nat} {n : String} (hm : DeclaredAt (start :: l) name i m)
    (hm' : DeclaredAt (start :: l) n j m') (heq : m.fullName = m'.fullName) : i = j ∧ m = m' := by
  obtain ⟨c, hc, hmem, -, -⟩ := hm
  obtain ⟨c', hc', hmem', -, -⟩ := hm'
  have hcm := mem_of_line hstart hline (mem_of_getElem? hc)
  have hcm' := mem_of_line hstart hline (mem_of_getElem? hc')
  obtain ⟨rfl, rfl⟩ := h.eq_of_method_fullName hcm hcm' hmem hmem' heq
  have hi := (List.getElem_of_getElem? hc).1
  exact ⟨(getElem?_inj hi hline.nodup).mp (hc.trans hc'.symm), rfl⟩

variable (hacc : validateInheritedMembers model = [])

include hacc

theorem directOverride_iff (hm : DeclaredAt (start :: l) name i m) : DirectOverride model m m' ↔
      ∃ j, (declarations (start :: l) name).Overrides i j ∧ DeclaredAt (start :: l) name j m' := by
  obtain ⟨c, hci, hmem, hname, hinst⟩ := id hm
  have hc := mem_of_line hstart hline (mem_of_getElem? hci)
  have hinit : name ≠ "init" := hname ▸ (isInstance_iff.mp hinst).2
  -- what the lookup finds is overridden
  have hforward : ∀ m', semanticFindBaseMethod model c name = some m' →
      ∃ j, (declarations (start :: l) name).Overrides i j ∧ DeclaredAt (start :: l) name j m' := by
    intro m' hfind
    have hstatic := (compatible_of_accepted hacc hc hmem hinst (hname ▸ hfind)).1
    obtain ⟨j, hij, hjb, hj, hmin⟩ := (semanticFindBaseMethod_eq_some_iff hline hci).mp hfind
    obtain ⟨k, hk, hvisible⟩ := Option.bind_eq_some_iff.mp hj
    have hkm := mem_of_line hstart hline (mem_of_getElem? hk)
    obtain ⟨hmem', hname', hinit', hprivate⟩ := (visibleMethod_eq_some_iff h hkm).mp hvisible
    have hdecl : DeclaredAt (start :: l) name j m' :=
      ⟨k, hk, hmem', hname', isInstance_iff.mpr ⟨hstatic, hinit'⟩⟩
    refine ⟨j, ⟨⟨m, hm⟩, ⟨m', hdecl⟩, ?_, ⟨hij, hjb⟩, ?_⟩, hdecl⟩
    · rintro ⟨m₁, hm₁, hpriv⟩
      rw [DeclaredAt.unique h hstart hline hm₁ hdecl, hprivate] at hpriv
      cases hpriv
    · rintro p hip hpj ⟨m₁, hm₁⟩
      refine ⟨m₁, hm₁, ?_⟩
      obtain ⟨k₁, hk₁, hmem₁, hname₁, -⟩ := hm₁
      have hnone := hmin p hip hpj
      rw [hk₁, Option.bind_some] at hnone
      by_contra hvis
      rw [Bool.not_eq_true] at hvis
      have hk₁m := mem_of_line hstart hline (mem_of_getElem? hk₁)
      rw [(visibleMethod_eq_some_iff h hk₁m).mpr ⟨hmem₁, hname₁, hname₁ ▸ hinit, hvis⟩] at hnone
      cases hnone
  constructor
  · rintro ⟨c', hc', hmem', -, hfind⟩
    obtain ⟨rfl, -⟩ := h.eq_of_method_fullName hc hc' hmem hmem' rfl
    exact hforward m' (hname ▸ hfind)
  · rintro ⟨j, hover, hm'⟩
    refine ⟨c, hc, hmem, hinst, hname ▸ ?_⟩
    -- the lookup finds something, as `m'` is visible in its reach; then it is what is overridden
    have hsome : semanticFindBaseMethod model c name ≠ none := by
      rw [semanticFindBaseMethod_eq]
      intro hnone
      obtain ⟨k, hk, hmem', hname', -⟩ := id hm'
      have hkm := mem_of_line hstart hline (mem_of_getElem? hk)
      have hkup : k ∈ up model.baseOf inheritanceSteps c :=
        (mem_up_iff hline hci _ k).mpr ⟨j, hover.2.2.2.1.1, hover.2.2.2.1.2, hk⟩
      have hvis : m'.access.isPrivate = false := by
        rw [← Bool.not_eq_true]
        exact fun hpriv => hover.2.2.1 ⟨m', hm', hpriv⟩
      have hvisible := (visibleMethod_eq_some_iff h hkm).mpr
        ⟨hmem', hname', hname' ▸ hinit, hvis⟩
      rw [findSome?_eq_none_iff.mp hnone k hkup] at hvisible
      cases hvisible
    obtain ⟨m₁, hm₁⟩ := Option.ne_none_iff_exists'.mp hsome
    obtain ⟨q, hq, hdecl⟩ := hforward m₁ hm₁
    have hqj : q = j := by
      rcases lt_trichotomy q j with hlt | heq | hgt
      · exact absurd (hover.2.2.2.2 q hq.2.2.2.1.1 hlt hq.2.1) hq.2.2.1
      · exact heq
      · exact absurd (hq.2.2.2.2 j hover.2.2.2.1.1 hgt hover.2.1) hover.2.2.1
    subst hqj
    rw [hm₁, DeclaredAt.unique h hstart hline hdecl hm']

theorem overrides_iff {j : Nat} (hm : DeclaredAt (start :: l) name i m)
    (hm' : DeclaredAt (start :: l) name j m') : Overrides model m m' ↔
      Relation.TransGen (declarations (start :: l) name).Overrides i j := by
  constructor
  · intro hover
    have hex : ∃ k, Relation.TransGen (declarations (start :: l) name).Overrides i k ∧
        DeclaredAt (start :: l) name k m' := by
      clear hm'
      induction hover with
      | single hdirect =>
        obtain ⟨k, hk, hdecl⟩ := (directOverride_iff h hstart hline hacc hm).mp hdirect
        exact ⟨k, .single hk, hdecl⟩
      | tail _ hdirect ih =>
        obtain ⟨p, hp, hdeclp⟩ := ih
        obtain ⟨k, hk, hdecl⟩ := (directOverride_iff h hstart hline hacc hdeclp).mp hdirect
        exact ⟨k, hp.tail hk, hdecl⟩
    obtain ⟨k, hk, hdecl⟩ := hex
    rwa [(DeclaredAt.index_unique h hstart hline hdecl hm' rfl).1] at hk
  · intro hover
    induction hover generalizing m' with
    | single hdirect =>
      exact .single ((directOverride_iff h hstart hline hacc hm).mpr ⟨_, hdirect, hm'⟩)
    | tail _ hdirect ih =>
      obtain ⟨m₁, hm₁⟩ := hdirect.1
      have hlast := (directOverride_iff h hstart hline hacc hm₁).mpr ⟨_, hdirect, hm'⟩
      exact Relation.TransGen.tail (ih hm₁) hlast

/-- What overrides is as visible as what it overrides. -/
theorem accepted_declarations : (declarations (start :: l) name).Accepted := by
  rintro i j hover ⟨m, hm, hpriv⟩
  obtain ⟨m', hm'⟩ := hover.2.1
  have hdirect := (directOverride_iff h hstart hline hacc hm).mpr ⟨j, hover, hm'⟩
  obtain ⟨c, hc, hmem, hinst, hfind⟩ := hdirect
  have hcompatible := (compatible_of_accepted hacc hc hmem hinst hfind).2
  unfold compatibleMethods at hcompatible
  simp only [Bool.and_eq_true, beq_iff_eq] at hcompatible
  exact hover.2.2.1 ⟨m', hm', hcompatible.1.1.1.1 ▸ hpriv⟩

end OnLine

end Neri.Semantic
