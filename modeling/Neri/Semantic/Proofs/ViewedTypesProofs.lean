import Neri.Lib.Lines
import Neri.Semantic.Proofs.ReadonlyProofs
import Neri.Semantic.ViewedTypes

/-!
# Assignment is a preorder and keeps views readonly

`Assigns` has one rule for each way on which the function returns true, and two rules compose to a
third one. The walk through the base classes composes as long as it does not reach its bound.
-/

namespace Neri.Semantic

open GuardedLinks ViewedType Option Neri.Stdlib

variable {model : SemanticModel} {tgt mid src type : ViewedType}

/-! ## Views of written types -/

theorem semanticReservedTypeName_eq (name : Text) : semanticReservedTypeName name =
    (reservedTypes.find? fun entry => name == Text.ofString entry.1).isSome := by
  rw [List.isSome_find?]
  simp [semanticReservedTypeName, semanticIsBuiltin, semanticIsNumeric, reservedTypes,
    Bool.or_assoc]

theorem readView_ofName (name : Text) : (ofName name).isReadonly = false ∧ (ofName name).readView =
    if semanticReservedTypeName name then ofName name else .readonly (ofName name) := by
  have hentries : ∀ entry ∈ reservedTypes, entry.2.isReadonly = false ∧
      entry.2.readView = entry.2 := by decide
  rw [semanticReservedTypeName_eq, ofName]
  cases hfound : reservedTypes.find? fun entry => name == Text.ofString entry.1 with
  | none => exact ⟨rfl, rfl⟩
  | some entry => exact hentries entry (List.mem_of_find?_eq_some hfound)

theorem WrittenType.viewed_readView (type : WrittenType) :
    type.readView.viewed = type.viewed.readView := by
  induction type with
  | name first rest =>
    rw [viewed, (readView_ofName _).2, readView]
    split <;> rfl
  | optional inner ih => exact congrArg ViewedType.optional ih
  | _ => rfl

/-- On types whose heads can be read, the functions on texts do what those on viewed types do. -/
theorem WrittenType.semanticReadView_viewed (type : WrittenType) (hreads : ReadsHead type.text) :
    semanticIsReadonly type.text = some type.viewed.isReadonly ∧ ∃ view : WrittenType,
      semanticReadView type.text = some view.text ∧ view.viewed = type.viewed.readView := by
  rw [semanticIsReadonly_text, semanticReadView_text, if_pos hreads, if_pos hreads]
  refine ⟨congrArg some ?_, _, rfl, type.viewed_readView⟩
  cases type with
  | name first rest => exact (readView_ofName _).1.symm
  | _ => rfl

/-! ## Types without views -/

theorem plain_inj {type' : ViewedType} (h : type.hasView = false) (h' : type'.hasView = false) :
    type.plain = type'.plain ↔ type = type' := by
  induction type generalizing type' <;> cases type' <;> simp_all [plain, hasView]

theorem mutableType_of_hasView (h : type.hasView = false) : type.mutableType = type := by
  cases type with
  | readonly inner => cases h
  | _ => rfl

/-- On types without views, records and fixed arrays the two forms of `semanticAssignable` agree. -/
theorem viewedAssignable_plain (htgt : tgt.hasView = false) (hsrc : src.hasView = false) :
    viewedAssignable model tgt src = semanticAssignable model tgt.plain src.plain := by
  induction tgt generalizing src with
  | optional inner ih =>
    rw [viewedAssignable, plain, semanticAssignable.eq_def]
    rw [hasView] at htgt
    cases src with
    | optional inner' =>
      rw [hasView] at hsrc
      simp [plain, isOptional, innerType, beq_eq_decide, mutableType_of_hasView htgt,
        mutableType_of_hasView hsrc, plain_inj htgt hsrc, ih htgt hsrc]
    | readonly inner' => cases hsrc
    | _ => simp [plain, isOptional, innerType, beq_eq_decide, ih htgt hsrc]
  | _ =>
    rw [viewedAssignable, semanticAssignable.eq_def]
    cases src <;> simp_all [plain, hasView, isOptional, isReadonly, isArray, isPointer,
      classTypeAssignable, SemanticModel.hasClass, plain_inj, beq_eq_decide]

/-! ## Rules -/

inductive Assigns (model : SemanticModel) : (target source : ViewedType) → Prop where
  | error (source : ViewedType) : Assigns model .error source
  | refl (type : ViewedType) : Assigns model type type
  | null {target : ViewedType} (htarget : target.isOptional = true) : Assigns model target .null
  | optional {target source : ViewedType} (htarget : target.isOptional = true)
      (hsource : source.isOptional = true)
      (hbase : target.innerType.mutableType = source.innerType.mutableType)
      (hinner : Assigns model target.innerType source.innerType) : Assigns model target source
  | wrap {target source : ViewedType} (htarget : target.isOptional = true)
      (hsource : source.isOptional = false) (hinner : Assigns model target.innerType source) :
      Assigns model target source
  | arrayView {target source : ViewedType} (htarget : target.isOptional = false)
      (hreadonly : target.isReadonly = true) (harray : target.mutableType.isArray = true)
      (hsource : source.mutableType.isArray = true)
      (hview : target.mutableType.innerType.readView = source.mutableType.innerType.readView) :
      Assigns model target source
  | classView {target source : ViewedType} (htarget : target.isOptional = false)
      (hreadonly : target.isReadonly = true) (harray : target.mutableType.isArray = false)
      (hclass : classTypeAssignable model target.mutableType source.mutableType = true) :
      Assigns model target source
  | classes {target source : String} (htarget : (model.findClass target).isSome = true)
      (hsource : (model.findClass source).isSome = true)
      (hclass : semanticClassAssignable model target source = true) :
      Assigns model (.classType target) (.classType source)

theorem classTypeAssignable_iff : classTypeAssignable model tgt src = true ↔
    tgt = src ∨ ∃ expected given, tgt = .classType expected ∧ src = .classType given ∧
      semanticClassAssignable model expected given = true := by
  unfold classTypeAssignable
  cases tgt <;> cases src <;> simp

theorem viewedAssignable_iff : viewedAssignable model tgt src = true ↔ Assigns model tgt src := by
  constructor
  · fun_induction viewedAssignable model tgt src with
    | case1 tgt src h =>
      rcases h with rfl | rfl
      · exact fun _ => .error src
      · exact fun _ => .refl tgt
    | case2 tgt => exact fun _ => .null ‹_›
    | case3 tgt src _ htgt _ hsrc ih =>
      intro h
      obtain ⟨hbase, hinner⟩ := Bool.and_eq_true_iff.mp h
      exact .optional htgt hsrc (eq_of_beq hbase) (ih hinner)
    | case4 tgt src _ htgt _ hsrc ih =>
      exact fun h => .wrap htgt (Bool.not_eq_true _ ▸ hsrc) (ih h)
    | case5 tgt src _ htgt hro harray =>
      intro h
      obtain ⟨hsrc, hview⟩ := Bool.and_eq_true_iff.mp h
      exact .arrayView (Bool.not_eq_true _ ▸ htgt) hro harray hsrc (eq_of_beq hview)
    | case6 tgt src _ htgt hro harray =>
      exact .classView (Bool.not_eq_true _ ▸ htgt) hro (Bool.not_eq_true _ ▸ harray)
    | case7 => exact fun h => nomatch h
    | case8 tgt src hsame => exact fun h => absurd (.inr (eq_of_beq h)) hsame
    | case9 tgt src hsame =>
      intro h
      obtain ⟨hclasses, hclass⟩ := Bool.and_eq_true_iff.mp h
      rcases classTypeAssignable_iff.mp hclass with rfl | ⟨expected, given, rfl, rfl, hwalk⟩
      · exact .refl tgt
      · obtain ⟨htgt, hsrc⟩ := Bool.and_eq_true_iff.mp hclasses
        exact .classes htgt hsrc hwalk
  · intro h
    induction h with
    | classes =>
      rw [viewedAssignable]
      simp [*, classTypeAssignable, isOptional, isReadonly, isArray, isPointer, SemanticModel.hasClass]
    | _ =>
      rw [viewedAssignable]
      simp [*]

/-! ## What types are -/

theorem isOptional_mutableType (type : ViewedType) :
    type.mutableType.isOptional = type.isOptional := by
  cases type <;> rfl

theorem not_optional_of_array (h : type.isArray = true) : type.isOptional = false := by
  induction type with
  | readonly inner ih => exact ih h
  | array inner => rfl
  | _ => cases h

namespace ViewedType.BuiltFrom

theorem ne_error (h : type.BuiltFrom model) : type ≠ .error := by
  rintro rfl
  exact h

theorem mutableType (h : type.BuiltFrom model) : type.mutableType.BuiltFrom model := by
  cases type <;> exact h

theorem readView (h : type.BuiltFrom model) : type.readView.BuiltFrom model := by
  induction type with
  | optional inner ih => exact ih h
  | _ => exact h

theorem innerType (h : type.BuiltFrom model) : type.innerType.BuiltFrom model := by
  induction type with
  | readonly inner ih => exact readView (ih h)
  | _ => exact h

end ViewedType.BuiltFrom

/-! ## Base classes -/

variable {name full : String} {links : Nat}

/-- A class is assigned where its name, or the name of one of so many ancestors, is expected. -/
theorem classAssignableLoop_iff (hname : (model.findClass name).isSome = true) (steps : Nat)
    (full : String) : classAssignableLoop model name steps (model.findClass full) = true ↔
      ∃ links < steps, follow model.baseLink (links + 1) full = some name := by
  induction steps generalizing full with
  | zero => simp [classAssignableLoop]
  | succ steps ih =>
    cases hclass : model.findClass full with
    | none => simp [classAssignableLoop, follow, SemanticModel.baseLink, hclass]
    | some c =>
      have hlink (links : Nat) : follow model.baseLink (links + 1) full =
          ((model.findClass c.baseName).map (·.fullName)).bind (follow model.baseLink links) := by
        rw [follow, SemanticModel.baseLink, hclass]
        rfl
      simp only [hlink]
      rw [classAssignableLoop, Bool.or_eq_true, ih, beq_iff_eq]
      cases hbase : model.findClass c.baseName with
      | none =>
        have hne : c.baseName ≠ name := by
          rintro rfl
          rw [hbase] at hname
          cases hname
        simp [hne, follow, SemanticModel.baseLink, hbase]
      | some b =>
        simp only [map_some, bind_some, model.fullName_of_findClass hbase]
        constructor
        · rintro (rfl | ⟨links, hlinks, h⟩)
          · exact ⟨0, Nat.succ_pos _, rfl⟩
          · exact ⟨links + 1, by omega, h⟩
        · rintro ⟨links, hlinks, h⟩
          cases links with
          | zero => exact .inl (some.inj h)
          | succ links => exact .inr ⟨links, by omega, h⟩

theorem semanticClassAssignable_iff (hname : (model.findClass name).isSome = true) :
    semanticClassAssignable model name full = true ↔
      ∃ links ≤ inheritanceSteps, follow model.baseLink links full = some name := by
  rw [semanticClassAssignable, Bool.or_eq_true, classAssignableLoop_iff hname, beq_iff_eq]
  constructor
  · rintro (rfl | ⟨links, hlinks, h⟩)
    · exact ⟨0, Nat.zero_le _, rfl⟩
    · exact ⟨links + 1, hlinks, h⟩
  · rintro ⟨links, hlinks, h⟩
    cases links with
    | zero => exact .inl (some.inj h).symm
    | succ links => exact .inr ⟨links, hlinks, h⟩

theorem isSome_of_baseLink (h : model.baseLink full = some name) :
    (model.findClass full).isSome = true ∧ (model.findClass name).isSome = true := by
  obtain ⟨c, hc, h⟩ := bind_eq_some_iff.mp h
  obtain ⟨b, hb, rfl⟩ := map_eq_some_iff.mp h
  rw [model.fullName_of_findClass hb]
  exact ⟨isSome_iff_exists.mpr ⟨c, hc⟩, isSome_iff_exists.mpr ⟨b, hb⟩⟩

theorem isSome_of_follow (hclass : (model.findClass full).isSome = true)
    (h : follow model.baseLink links full = some name) : (model.findClass name).isSome = true := by
  induction links generalizing full with
  | zero => rwa [← some.inj h]
  | succ links ih =>
    obtain ⟨next, hnext, h⟩ := bind_eq_some_iff.mp h
    exact ih (isSome_of_baseLink hnext).2 h

theorem follow_of_shallow (hshallow : ShallowClasses model)
    (h : follow model.baseLink links full = some name) : links ≤ inheritanceSteps := by
  by_contra hlong
  rw [← Nat.add_sub_cancel' (Nat.lt_of_not_le hlong), follow_add, hshallow] at h
  cases h

theorem semanticClassAssignable_trans (hshallow : ShallowClasses model) {first second third : String}
    (hfirst : (model.findClass first).isSome = true)
    (hsecond : (model.findClass second).isSome = true)
    (h : semanticClassAssignable model first second = true)
    (h' : semanticClassAssignable model second third = true) :
    semanticClassAssignable model first third = true := by
  obtain ⟨links, -, h⟩ := (semanticClassAssignable_iff hfirst).mp h
  obtain ⟨links', -, h'⟩ := (semanticClassAssignable_iff hsecond).mp h'
  have hway : follow model.baseLink (links' + links) third = some first := by
    rw [follow_add, h']
    exact h
  exact (semanticClassAssignable_iff hfirst).mpr ⟨_, follow_of_shallow hshallow hway, hway⟩

/-! ## Composition -/

theorem classTypeAssignable_trans (hshallow : ShallowClasses model) (htgt : tgt.BuiltFrom model)
    (hmid : mid.BuiltFrom model) (h : classTypeAssignable model tgt mid = true)
    (h' : classTypeAssignable model mid src = true) : classTypeAssignable model tgt src = true := by
  rcases classTypeAssignable_iff.mp h with rfl | ⟨first, second, rfl, rfl, hwalk⟩
  · exact h'
  · rcases classTypeAssignable_iff.mp h' with rfl | ⟨_, third, hsame, rfl, hwalk'⟩
    · exact h
    · cases hsame
      exact classTypeAssignable_iff.mpr (.inr ⟨first, third, rfl, rfl,
        semanticClassAssignable_trans hshallow htgt hmid hwalk hwalk'⟩)

/-- What is assigned to a view of a class is neither optional nor an array. -/
theorem classTypeAssignable_marks (h : classTypeAssignable model tgt src = true)
    (htgt : tgt.isOptional = false) (harray : tgt.isArray = false) :
    src.isOptional = false ∧ src.isArray = false := by
  rcases classTypeAssignable_iff.mp h with rfl | ⟨first, second, rfl, rfl, -⟩
  · exact ⟨htgt, harray⟩
  · exact ⟨rfl, rfl⟩

theorem Assigns.not_optional (h : Assigns model tgt src) (htgt : tgt.isOptional = false)
    (herror : tgt ≠ .error) : src.isOptional = false := by
  cases h with
  | error => exact absurd rfl herror
  | refl => exact htgt
  | null h | optional h | wrap h => cases htgt.symm.trans h
  | arrayView _ _ _ hsrc =>
    exact (isOptional_mutableType src).symm.trans (not_optional_of_array hsrc)
  | classView _ _ harray hclass =>
    rw [← isOptional_mutableType] at htgt ⊢
    exact (classTypeAssignable_marks hclass htgt harray).1
  | classes => rfl

theorem Assigns.trans (hshallow : ShallowClasses model) (htgt : tgt.BuiltFrom model)
    (hmid : mid.BuiltFrom model) (h : Assigns model tgt mid)
    (h' : Assigns model mid src) : Assigns model tgt src := by
  have herror := hmid.ne_error
  induction h generalizing src with
  | error => exact .error src
  | refl => exact h'
  | null hopt =>
    cases h' with
    | refl => exact .null hopt
    | null h | optional h | wrap h => cases h
    | arrayView _ h | classView _ h => cases h
  | optional hopt hopt' hbase hinner ih =>
    cases h' with
    | error => exact absurd rfl herror
    | refl => exact .optional hopt hopt' hbase hinner
    | null => exact .null hopt
    | optional _ hsrc hbase' hinner' =>
      exact .optional hopt hsrc (hbase.trans hbase')
        (ih htgt.innerType hmid.innerType hinner' hmid.innerType.ne_error)
    | wrap _ hsrc hinner' =>
      exact .wrap hopt hsrc
        (ih htgt.innerType hmid.innerType hinner' hmid.innerType.ne_error)
    | arrayView h | classView h => cases hopt'.symm.trans h
    | classes => cases hopt'
  | wrap hopt hopt' hinner ih =>
    exact .wrap hopt (h'.not_optional hopt' herror) (ih htgt.innerType hmid h' herror)
  | @arrayView _ mid hopt hro harray harray' hview =>
    have hopt' := (isOptional_mutableType mid).symm.trans (not_optional_of_array harray')
    cases h' with
    | error => exact absurd rfl herror
    | refl => exact .arrayView hopt hro harray harray' hview
    | null h | optional h | wrap h => cases hopt'.symm.trans h
    | arrayView _ _ _ hsrc hview' =>
      exact .arrayView hopt hro harray hsrc (hview.trans hview')
    | classView _ _ h => cases harray'.symm.trans h
    | classes => cases harray'
  | @classView tgt mid hopt hro harray hclass =>
    obtain ⟨hopt', harray'⟩ := classTypeAssignable_marks hclass
      ((isOptional_mutableType tgt).trans hopt) harray
    rw [isOptional_mutableType] at hopt'
    cases h' with
    | error => exact absurd rfl herror
    | refl => exact .classView hopt hro harray hclass
    | null h | optional h | wrap h => cases hopt'.symm.trans h
    | arrayView _ _ h => cases harray'.symm.trans h
    | classView _ _ _ hclass' =>
      exact .classView hopt hro harray (classTypeAssignable_trans hshallow htgt.mutableType
        hmid.mutableType hclass hclass')
    | @classes second third _ _ hwalk =>
      exact .classView hopt hro harray (classTypeAssignable_trans hshallow htgt.mutableType
        hmid hclass (classTypeAssignable_iff.mpr (.inr ⟨second, third, rfl, rfl, hwalk⟩)))
  | classes hfirst hsecond hwalk =>
    cases h' with
    | refl => exact .classes hfirst hsecond hwalk
    | null h | optional h | wrap h => cases h
    | arrayView _ h | classView _ h => cases h
    | classes _ hthird hwalk' =>
      exact .classes hfirst hthird (semanticClassAssignable_trans hshallow hfirst hsecond hwalk hwalk')

/-- Assignment is reflexive and transitive on the types of a model. -/
def IsPreorderOnTypes (model : SemanticModel) : Prop :=
  (∀ type : ViewedType, type.BuiltFrom model → viewedAssignable model type type = true) ∧
    ∀ tgt mid src : ViewedType, tgt.BuiltFrom model → mid.BuiltFrom model →
      src.BuiltFrom model → viewedAssignable model tgt mid = true →
      viewedAssignable model mid src = true → viewedAssignable model tgt src = true

theorem assigns_classType_iff (hname : (model.findClass name).isSome = true)
    (hfullName : (model.findClass full).isSome = true) :
    Assigns model (.classType name) (.classType full) ↔
      ∃ links ≤ inheritanceSteps, follow model.baseLink links full = some name := by
  rw [← semanticClassAssignable_iff hname]
  constructor
  · intro h
    cases h with
    | refl => simp [semanticClassAssignable]
    | optional h | wrap h => cases h
    | arrayView _ h | classView _ h => cases h
    | classes _ _ h => exact h
  · exact .classes hname hfullName

/-- Assignment is a preorder exactly if no class has more than 256 ancestors. -/
theorem assignable_preorder_iff (hacyclic : ∀ full, ¬Returns model.baseLink full) :
    IsPreorderOnTypes model ↔ ShallowClasses model := by
  simp only [IsPreorderOnTypes, viewedAssignable_iff]
  constructor
  · rintro ⟨-, htrans⟩ full
    by_contra hlong
    obtain ⟨name, hfar⟩ := ne_none_iff_exists'.mp hlong
    -- the base class accepts the class, and the farthest ancestor the base class
    obtain ⟨base, hbase, hrest⟩ := bind_eq_some_iff.mp hfar
    obtain ⟨hclass, hbaseClass⟩ := isSome_of_baseLink hbase
    have hname := isSome_of_follow hbaseClass hrest
    have hdirect : follow model.baseLink 1 full = some base := by
      rw [follow, hbase]
      rfl
    have haccepted := htrans (.classType name) (.classType base) (.classType full) hname
      hbaseClass hclass ((assigns_classType_iff hname hbaseClass).mpr ⟨_, Nat.le_refl _, hrest⟩)
      ((assigns_classType_iff hbaseClass hclass).mpr ⟨1, by decide, hdirect⟩)
    obtain ⟨links, hlinks, hnear⟩ := (assigns_classType_iff hname hclass).mp haccepted
    refine hacyclic name ⟨inheritanceSteps + 1 - links, by omega, ?_⟩
    rwa [show inheritanceSteps + 1 = links + (inheritanceSteps + 1 - links) by omega, follow_add,
      hnear] at hfar
  · intro hshallow
    exact ⟨fun type _ => .refl type, fun tgt mid src htgt hmid _ h h' =>
      h.trans hshallow htgt hmid h'⟩

/-- A chain of 258 classes, each the base of the one with the next longer name. -/
def chainName (length : Nat) : String := String.ofList (List.replicate length 'A')

def chainModel : SemanticModel where
  classes := (List.range 258).map fun length =>
    { fullName := chainName (length + 1), baseName := chainName length }

theorem length_chainName (length : Nat) : (chainName length).length = length := by simp [chainName]

theorem chainModel_findClass {length : Nat} (h : length < 258) :
    chainModel.findClass (chainName (length + 1)) =
      some { fullName := chainName (length + 1), baseName := chainName length } := by
  refine Lines.find?_eq_some_of_unique (List.mem_map_of_mem (List.mem_range.mpr h))
    (beq_self_eq_true _) fun other hother hname => ?_
  obtain ⟨found, -, rfl⟩ := List.mem_map.mp hother
  have hlength := congrArg String.length (eq_of_beq hname)
  rw [length_chainName, length_chainName] at hlength
  obtain rfl : found = length := by omega
  rfl

theorem length_of_baseLink (h : chainModel.baseLink full = some name) :
    full.length = name.length + 1 := by
  obtain ⟨c, hc, h⟩ := bind_eq_some_iff.mp h
  obtain ⟨b, hb, rfl⟩ := map_eq_some_iff.mp h
  obtain ⟨length, -, rfl⟩ := List.mem_map.mp (chainModel.findClass_mem hc)
  rw [← chainModel.fullName_of_findClass hc, chainModel.fullName_of_findClass hb]
  simp [length_chainName]

theorem length_of_follow (h : follow chainModel.baseLink links full = some name) :
    full.length = name.length + links := by
  induction links generalizing full with
  | zero => rw [some.inj h]; rfl
  | succ links ih =>
    obtain ⟨next, hnext, h⟩ := bind_eq_some_iff.mp h
    rw [length_of_baseLink hnext, ih h, Nat.add_assoc]

theorem chainModel_acyclic (full : String) : ¬Returns chainModel.baseLink full := by
  rintro ⟨links, hpos, h⟩
  have hlength := length_of_follow h
  omega

theorem chainModel_follow {length : Nat} (h : links + length < 258) :
    follow chainModel.baseLink links (chainName (links + length + 1)) =
      some (chainName (length + 1)) := by
  induction links with
  | zero => rw [Nat.zero_add]; rfl
  | succ links ih =>
    have hbase : chainModel.baseLink (chainName (links + 1 + length + 1)) =
        some (chainName (links + length + 1)) := by
      rw [Nat.add_right_comm links 1, SemanticModel.baseLink, chainModel_findClass (by omega),
        bind_some, SemanticModel.baseOf, chainModel_findClass (by omega), map_some]
    rw [follow, hbase]
    exact ih (by omega)

/-- A class accepts another one, and that one a third that the first does not accept: it is one class
farther away than the compiler looks. -/
theorem chainModel_not_transitive : (∀ full, ¬Returns chainModel.baseLink full) ∧
      viewedAssignable chainModel (.classType (chainName 1)) (.classType (chainName 257)) = true ∧
      viewedAssignable chainModel (.classType (chainName 257)) (.classType (chainName 258)) = true ∧
      viewedAssignable chainModel (.classType (chainName 1)) (.classType (chainName 258)) = false := by
  have hclass {length : Nat} (h : length < 258) :
      (chainModel.findClass (chainName (length + 1))).isSome = true :=
    isSome_iff_exists.mpr ⟨_, chainModel_findClass h⟩
  have hiff {length length' : Nat} (h : length < 258) (h' : length' < 258) :=
    viewedAssignable_iff.trans (assigns_classType_iff (hclass h) (hclass h'))
  refine ⟨chainModel_acyclic, ?_, ?_, ?_⟩
  · exact (@hiff 0 256 (by decide) (by decide)).mpr
      ⟨256, Nat.le_refl _, @chainModel_follow 256 0 (by decide)⟩
  · exact (@hiff 256 257 (by decide) (by decide)).mpr
      ⟨1, by decide, @chainModel_follow 1 256 (by decide)⟩
  · rw [Bool.eq_false_iff, ne_eq, @hiff 0 257 (by decide) (by decide)]
    rintro ⟨links, hlinks, h⟩
    have hlength := length_of_follow h
    rw [length_chainName, length_chainName] at hlength
    have hbound : inheritanceSteps = 256 := rfl
    omega

theorem assignable_preorder_iff_chainModel : (∀ full, ¬Returns chainModel.baseLink full) ∧
      (IsPreorderOnTypes chainModel ↔ ShallowClasses chainModel) :=
  ⟨chainModel_acyclic, assignable_preorder_iff chainModel_acyclic⟩

/-! ## Readonly -/

theorem unwrapped_of_optional (h : type.isOptional = true) :
    type.unwrapped = type.innerType.unwrapped := by
  rw [unwrapped, if_pos h]

theorem unwrapped_of_not_optional (h : type.isOptional = false) : type.unwrapped = type := by
  rw [unwrapped, if_neg (by simp [h])]

/-- A readonly view is only accepted where one is expected. A readonly array takes arrays whose elements
are seen alike and, where it may be absent, `null`. -/
theorem readonly_kept (h : viewedAssignable model tgt src = true) :
    (src.unwrapped.isReadonly = true → tgt.unwrapped = .error ∨ tgt.unwrapped.isReadonly = true) ∧
      (tgt.unwrapped.isReadonly = true → tgt.unwrapped.mutableType.isArray = true →
        (tgt.isOptional = true ∧ src.unwrapped = .null) ∨
          (src.unwrapped.mutableType.isArray = true ∧ src.unwrapped.mutableType.innerType.readView =
              tgt.unwrapped.mutableType.innerType.readView)) := by
  rw [viewedAssignable_iff] at h
  induction h with
  | error =>
    have herror : unwrapped .error = .error := unwrapped_of_not_optional rfl
    rw [herror]
    exact ⟨fun _ => .inl rfl, fun h => by cases h⟩
  | refl => exact ⟨.inr, fun _ harray => .inr ⟨harray, rfl⟩⟩
  | null htgt =>
    have hnull : unwrapped .null = .null := unwrapped_of_not_optional rfl
    rw [hnull]
    exact ⟨fun h => (by cases h), fun _ _ => .inl ⟨htgt, rfl⟩⟩
  | optional htgt hsrc _ _ ih =>
    rw [unwrapped_of_optional htgt, unwrapped_of_optional hsrc]
    exact ⟨ih.1, fun hro harray => (ih.2 hro harray).imp_left fun h => ⟨htgt, h.2⟩⟩
  | wrap htgt _ _ ih =>
    rw [unwrapped_of_optional htgt]
    exact ⟨ih.1, fun hro harray => (ih.2 hro harray).imp_left fun h => ⟨htgt, h.2⟩⟩
  | @arrayView _ src htgt hro _ hsrc hview =>
    have hopt := (isOptional_mutableType src).symm.trans (not_optional_of_array hsrc)
    rw [unwrapped_of_not_optional htgt, unwrapped_of_not_optional hopt]
    exact ⟨fun _ => .inr hro, fun _ _ => .inr ⟨hsrc, hview.symm⟩⟩
  | classView htgt hro harray =>
    rw [unwrapped_of_not_optional htgt]
    exact ⟨fun _ => .inr hro, fun _ h => by cases harray.symm.trans h⟩
  | classes =>
    rw [unwrapped_of_not_optional rfl, unwrapped_of_not_optional rfl]
    exact ⟨fun h => (by cases h), fun h => (by cases h)⟩

/-- A readonly view is accepted where it may also be absent. -/
theorem readonly_kept_optionalView :
    viewedAssignable chainModel (.optional (.readonly (.array .bool))) (.readonly (.array .bool)) =
        true ∧
      (unwrapped (.optional (.readonly (.array .bool))) = .error ∨
        (unwrapped (.optional (.readonly (.array .bool)))).isReadonly = true) := by
  have haccepted : viewedAssignable chainModel (.optional (.readonly (.array .bool)))
      (.readonly (.array .bool)) = true := viewedAssignable_iff.mpr (.wrap rfl rfl (.refl _))
  have hsrc : (unwrapped (.readonly (.array .bool))).isReadonly = true := by
    rw [unwrapped_of_not_optional rfl]
    rfl
  exact ⟨haccepted, (readonly_kept haccepted).1 hsrc⟩

end Neri.Semantic
