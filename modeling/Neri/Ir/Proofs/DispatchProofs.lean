import Neri.Ir.ClassLowering
import Neri.Semantic.Proofs.HierarchyProofs

/-!
# Dispatch slots and overriding

`dispatchSlot` names the farthest method of the same name within 256 base classes, whatever its
access. It agrees with the override rules exactly when no private method stands within reach of a
method of its name, and methods that reach each other through a third one reach each other.
-/

namespace Neri.Ir

open Neri.Semantic Lines BoundedSlots List

variable {model : SemanticModel}
variable {c : SemanticClass} {m m' : SemanticCallable}

/-- The method that `dispatchSlot` looks for in one class, by its full name. -/
def slotMethod (name : String) (c : SemanticClass) : Option String :=
  (c.methods.find? fun m => m.name == name && m.isInstance).map (·.fullName)

theorem foldl_slotCandidate (h : Hierarchy model) (hc : c ∈ model.classes) (name res : String) :
    c.methods.foldl (slotCandidate name) res = (slotMethod name c).getD res := by
  have hnodup := h.methodNames c hc
  unfold slotMethod
  -- the names of a class are distinct, so behind the method with the name there is no other
  have hnone : ∀ (methods : List SemanticCallable) (res : String),
      name ∉ methods.map (·.name) → methods.foldl (slotCandidate name) res = res := by
    intro methods
    induction methods with
    | nil => intro _ _; rfl
    | cons m methods ih =>
      intro res hname
      rw [map_cons, mem_cons, not_or] at hname
      rw [foldl_cons, ih _ hname.2]
      unfold slotCandidate
      simp [Ne.symm hname.1]
  have hcandidate (m : SemanticCallable) (res : String) : slotCandidate name res m =
      if (m.name == name && m.isInstance) = true then m.fullName else res := by
    rw [slotCandidate, Bool.and_assoc]
    rfl
  generalize c.methods = methods at hnodup ⊢
  induction methods generalizing res with
  | nil => rfl
  | cons m methods ih =>
    rw [map_cons, nodup_cons] at hnodup
    rw [foldl_cons, find?_cons, hcandidate]
    cases hpred : m.name == name && m.isInstance with
    | false => simpa using ih res hnodup.2
    | true =>
      rw [Bool.and_eq_true, beq_iff_eq] at hpred
      rw [hnone methods _ (hpred.1 ▸ hnodup.1)]
      rfl

theorem dispatchSlot_eq (h : Hierarchy model) {owner : SemanticClass}
    (howner : owner ∈ model.classes) (method : SemanticCallable) : dispatchSlot model owner method =
      (up model.baseOf inheritanceSteps owner).foldl
        (fun res c => (slotMethod method.name c).getD res) method.fullName := by
  unfold dispatchSlot
  generalize inheritanceSteps = steps
  generalize method.fullName = res
  induction steps generalizing owner res with
  | zero => rfl
  | succ steps ih =>
    unfold dispatchSlotLoop up
    by_cases hempty : owner.baseName = ""
    · have hnone : model.baseOf owner = none := by
        unfold SemanticModel.baseOf SemanticModel.findClass
        rw [hempty, find?_eq_none]
        intro c hc
        simpa using h.named c hc
      rw [hnone]
      simp [hempty]
    · cases hbase : model.baseOf owner with
      | none =>
        unfold SemanticModel.baseOf at hbase
        simp [hempty, hbase]
      | some base =>
        have hmem := SemanticModel.findClass_mem hbase
        unfold SemanticModel.baseOf at hbase
        simp only [beq_iff_eq, hempty, if_false, hbase, foldl_cons]
        rw [foldl_slotCandidate h hmem, ih hmem]

section OnLine

variable {start : SemanticClass} {l : List SemanticClass} {name : String}

theorem slotMethod_eq_some_iff (h : Hierarchy model) (hstart : start ∈ model.classes)
    (hline : Line model.baseOf start l) {j : Nat} {full : String} :
    (start :: l)[j]?.bind (slotMethod name) = some full ↔
      ∃ m, DeclaredAt (start :: l) name j m ∧ m.fullName = full := by
  rw [Option.bind_eq_some_iff]
  constructor
  · rintro ⟨c, hc, hslot⟩
    obtain ⟨m, hfind, hfull⟩ := Option.map_eq_some_iff.mp hslot
    have hpred := find?_some hfind
    rw [Bool.and_eq_true, beq_iff_eq] at hpred
    exact ⟨m, ⟨c, hc, mem_of_find?_eq_some hfind, hpred.1, hpred.2⟩, hfull⟩
  · rintro ⟨m, ⟨c, hc, hmem, hname, hinst⟩, hfull⟩
    refine ⟨c, hc, ?_⟩
    unfold slotMethod
    have hcm := mem_of_line hstart hline (mem_of_getElem? hc)
    rw [find?_eq_some_of_unique hmem (by simp [hname, hinst]), Option.map_some, hfull]
    intro m' hm' hpred
    rw [Bool.and_eq_true, beq_iff_eq] at hpred
    exact h.eq_of_name hcm hm' hmem (hpred.1.trans hname.symm)

theorem dispatchSlot_of_slot (h : Hierarchy model) (hstart : start ∈ model.classes)
    (hline : Line model.baseOf start l) {i s : Nat}
    (hc : (start :: l)[i]? = some c) (hmem : m ∈ c.methods)
    (hname : m.name = name) (hinst : m.isInstance = true)
    (hslot : (declarations (start :: l) name).Slot i s)
    (hm' : DeclaredAt (start :: l) name s m') : dispatchSlot model c m = m'.fullName := by
  have hcm := mem_of_line hstart hline (mem_of_getElem? hc)
  have hm : DeclaredAt (start :: l) name i m := ⟨c, hc, hmem, hname, hinst⟩
  have hnone : ∀ j, (start :: l)[j]?.bind (slotMethod name) = none →
      ¬(declarations (start :: l) name).declared j := by
    rintro j hj ⟨m₁, hm₁⟩
    rw [(slotMethod_eq_some_iff h hstart hline).mpr ⟨m₁, hm₁, rfl⟩] at hj
    cases hj
  have hseen : ∀ q, (up model.baseOf inheritanceSteps c)[q]?.bind (slotMethod name) = none →
      q < inheritanceSteps → ¬(declarations (start :: l) name).declared (i + 1 + q) := by
    intro q hq hlt
    rw [hline.up_getElem? hc, if_pos hlt] at hq
    exact hnone _ hq
  rw [dispatchSlot_eq h hcm, hname]
  rcases foldl_select_cases (slotMethod name) (up model.baseOf inheritanceSteps c) m.fullName with
    ⟨hfold, hall⟩ | ⟨q, full, hq, hfold, hafter⟩
  · -- no base class in reach declares the name, so the slot is the method itself
    rcases hslot.1 with rfl | hreach
    · rw [hfold, DeclaredAt.unique h hstart hline hm hm']
    · have hlt := hreach.1
      have hle : s ≤ i + inheritanceSteps := hreach.2
      have hindex : i + 1 + (s - (i + 1)) = s := by omega
      exact absurd hslot.2.1 (hindex ▸ hseen (s - (i + 1)) (hall _) (by omega))
  · rw [hfold]
    rw [hline.up_getElem? hc] at hq
    split at hq
    case isFalse => cases hq
    case isTrue hlt =>
      obtain ⟨m₁, hm₁, hfull⟩ := (slotMethod_eq_some_iff h hstart hline).mp hq
      have hle : i + 1 + q ≤ s := by
        refine hslot.2.2 _ ⟨by omega, ?_⟩ ⟨m₁, hm₁⟩
        show i + 1 + q ≤ i + inheritanceSteps
        omega
      have hsb : s ≤ i + inheritanceSteps := hslot.range.2
      have heq : s = i + 1 + q := by
        by_contra hne
        have hindex : i + 1 + (s - (i + 1)) = s := by omega
        exact hindex ▸ hseen (s - (i + 1)) (hafter _ (by omega)) (by omega) <| hslot.2.1
      subst heq
      rw [← hfull, DeclaredAt.unique h hstart hline hm₁ hm']

end OnLine

/-! ## Models -/

/-- A method of a class and one of a base class share a slot exactly when the first overrides the
second. -/
def SlotsMatchOverrides (model : SemanticModel) : Prop :=
  ∀ c ∈ model.classes, ∀ a, Ancestor model c a → ∀ m ∈ c.methods, ∀ m' ∈ a.methods,
    m.isInstance = true → m'.isInstance = true →
      (dispatchSlot model c m = dispatchSlot model a m' ↔ Overrides model m m')

/-- The base class `a` is one of the nearest 256 of `c`. -/
def Reaches (model : SemanticModel) (c a : SemanticClass) : Prop :=
  a ∈ up model.baseOf inheritanceSteps c

/-- No class redeclares a private instance method that its lookups reach. -/
def NoPrivateRedeclared (model : SemanticModel) : Prop :=
  ∀ c ∈ model.classes, ∀ a, Reaches model c a → ∀ m ∈ c.methods, ∀ m' ∈ a.methods,
    m.isInstance = true → m'.isInstance = true → m'.name = m.name → m'.access.isPrivate = false

/-- Where a class redeclares a method that its lookups reach, they reach as far as those of that
method's class do. -/
def RedeclarationsReach (model : SemanticModel) : Prop :=
  ∀ c ∈ model.classes, ∀ a, Reaches model c a → ∀ b, Reaches model a b →
    ∀ m ∈ c.methods, ∀ m' ∈ a.methods, ∀ m'' ∈ b.methods,
      m.isInstance = true → m'.isInstance = true → m''.isInstance = true →
        m'.name = m.name → m''.name = m.name → Reaches model c b

/-- Something holds of one name on every line. -/
def OnEveryLine (model : SemanticModel) (property : Declarations → Prop) : Prop :=
  ∀ start ∈ model.classes, ∀ l, Line model.baseOf start l → ∀ name,
    property (declarations (start :: l) name)

theorem name_of_overrides (h : Overrides model m m') : m'.name = m.name := by
  have hdirect : ∀ {m m'}, DirectOverride model m m' → m'.name = m.name := by
    rintro m m' ⟨c, -, -, -, hfind⟩
    rw [semanticFindBaseMethod_eq] at hfind
    obtain ⟨k, -, hvisible⟩ := exists_of_findSome?_eq_some hfind
    have hpred := find?_some hvisible
    simp only [Bool.and_eq_true, beq_iff_eq] at hpred
    exact hpred.1.1
  induction h with
  | single h => exact hdirect h
  | tail _ h ih => exact (hdirect h).trans ih

variable (h : Hierarchy model)
include h

/-- The slots of two declarations on a line, by the positions of their slots. -/
theorem dispatchSlot_eq_iff {start : SemanticClass}
    (hstart : start ∈ model.classes) {l : List SemanticClass} (hline : Line model.baseOf start l)
    {i j s t : Nat} {a : SemanticClass} (hc : (start :: l)[i]? = some c)
    (ha : (start :: l)[j]? = some a) (hm : m ∈ c.methods)
    (hm' : m' ∈ a.methods) (hinst : m.isInstance = true) (hinst' : m'.isInstance = true)
    (hs : (declarations (start :: l) m.name).Slot i s)
    (ht : (declarations (start :: l) m'.name).Slot j t) :
    dispatchSlot model c m = dispatchSlot model a m' ↔ m.name = m'.name ∧ s = t := by
  obtain ⟨ms, hms⟩ := hs.2.1
  obtain ⟨mt, hmt⟩ := ht.2.1
  rw [dispatchSlot_of_slot h hstart hline hc hm rfl hinst hs hms,
    dispatchSlot_of_slot h hstart hline ha hm' rfl hinst' ht hmt]
  constructor
  · intro heq
    obtain ⟨hst, rfl⟩ := DeclaredAt.index_unique h hstart hline hms hmt heq
    obtain ⟨-, -, -, hname, -⟩ := hms
    obtain ⟨-, -, -, hname', -⟩ := hmt
    exact ⟨hname.symm.trans hname', hst⟩
  · rintro ⟨hname, rfl⟩
    rw [← hname] at hmt
    rw [DeclaredAt.unique h hstart hline hms hmt]

theorem eq_of_dispatchSlot_eq (hc : c ∈ model.classes) (hm : m ∈ c.methods) (hm' : m' ∈ c.methods)
    (hinst : m.isInstance = true) (hinst' : m'.isInstance = true)
    (heq : dispatchSlot model c m = dispatchSlot model c m') : m = m' := by
  obtain ⟨l, hline⟩ := h.acyclic c hc
  have hc₀ : (c :: l)[0]? = some c := rfl
  obtain ⟨s, hs⟩ := Declarations.exists_slot (d := declarations (c :: l) m.name)
    ⟨m, c, hc₀, hm, rfl, hinst⟩
  obtain ⟨t, ht⟩ := Declarations.exists_slot (d := declarations (c :: l) m'.name)
    ⟨m', c, hc₀, hm', rfl, hinst'⟩
  have hname := (dispatchSlot_eq_iff h hc hline hc₀ hc₀ hm hm' hinst hinst' hs ht).mp heq
  exact h.eq_of_name hc hm hm' hname.1

theorem slotsMatchOverrides_iff_onEveryLine (hacc : validateInheritedMembers model = []) :
    SlotsMatchOverrides model ↔ OnEveryLine model Declarations.SlotsAgree := by
  constructor
  · rintro hmatch start hstart l hline name i j s t hij ⟨m, hm⟩ ⟨m', hm'⟩ hs ht
    obtain ⟨c, hc, hmem, hname, hinst⟩ := id hm
    obtain ⟨a, ha, hmem', hname', hinst'⟩ := id hm'
    have hancestor : Ancestor model c a := hline.transGen_of_lt hij hc ha
    have hcm := mem_of_line hstart hline (mem_of_getElem? hc)
    have hiff := hmatch c hcm a hancestor m hmem m' hmem' hinst hinst'
    rw [overrides_iff h hstart hline hacc hm hm', dispatchSlot_eq_iff h hstart hline hc ha
      hmem hmem' hinst hinst' (hname ▸ hs) (hname' ▸ ht)] at hiff
    rw [← hiff]
    exact ⟨fun hst => ⟨hname.trans hname'.symm, hst⟩, fun hst => hst.2⟩
  · intro hlines c hc a hancestor m hmem m' hmem' hinst hinst'
    obtain ⟨l, hline⟩ := h.acyclic c hc
    obtain ⟨j, ha⟩ := mem_iff_getElem?.mp (hline.mem_iff_transGen.mpr hancestor)
    have hc₀ : (c :: l)[0]? = some c := rfl
    have ha₁ : (c :: l)[j + 1]? = some a := ha
    have hm : DeclaredAt (c :: l) m.name 0 m := ⟨c, hc₀, hmem, rfl, hinst⟩
    have hm' : DeclaredAt (c :: l) m'.name (j + 1) m' := ⟨a, ha₁, hmem', rfl, hinst'⟩
    obtain ⟨s, hs⟩ := Declarations.exists_slot (d := declarations (c :: l) m.name) ⟨m, hm⟩
    obtain ⟨t, ht⟩ := Declarations.exists_slot (d := declarations (c :: l) m'.name) ⟨m', hm'⟩
    rw [dispatchSlot_eq_iff h hc hline hc₀ ha₁ hmem hmem' hinst hinst' hs ht]
    by_cases hname : m.name = m'.name
    · rw [← hname] at hm' ht
      rw [overrides_iff h hc hline hacc hm hm',
        ← hlines c hc l hline m.name 0 (j + 1) s t (Nat.succ_pos j) ⟨m, hm⟩ ⟨m', hm'⟩ hs ht]
      exact ⟨fun hst => hst.2, fun hst => ⟨hname, hst⟩⟩
    · refine iff_of_false (fun hst => hname hst.1) (fun hover => hname ?_)
      exact (name_of_overrides hover).symm

theorem noPrivateRedeclared_iff_onEveryLine :
    NoPrivateRedeclared model ↔ OnEveryLine model Declarations.NoneHidden := by
  constructor
  · rintro hnone start hstart l hline name i j ⟨m, c, hc, hmem, hname, hinst⟩ - hreach
      ⟨m', ⟨a, ha, hmem', hname', hinst'⟩, hpriv⟩
    have hcm := mem_of_line hstart hline (mem_of_getElem? hc)
    have hreaches : Reaches model c a := (mem_up_iff hline hc _ a).mpr ⟨j, hreach.1, hreach.2, ha⟩
    rw [hnone c hcm a hreaches m hmem m' hmem' hinst hinst' (hname'.trans hname.symm)] at hpriv
    cases hpriv
  · intro hlines c hc a hreaches m hmem m' hmem' hinst hinst' hname
    obtain ⟨l, hline⟩ := h.acyclic c hc
    obtain ⟨j, h₀, hj, ha⟩ := (mem_up_iff (i := 0) hline rfl _ a).mp hreaches
    have hm : DeclaredAt (c :: l) m.name 0 m := ⟨c, rfl, hmem, rfl, hinst⟩
    have hm' : DeclaredAt (c :: l) m.name j m' := ⟨a, ha, hmem', hname, hinst'⟩
    have hhidden := hlines c hc l hline m.name 0 j ⟨m, hm⟩ ⟨m', hm'⟩ ⟨h₀, hj⟩
    rw [← Bool.not_eq_true]
    exact fun hpriv => hhidden ⟨m', hm', hpriv⟩

theorem redeclarationsReach_iff_onEveryLine :
    RedeclarationsReach model ↔ OnEveryLine model Declarations.ReachTransitive := by
  constructor
  · rintro htrans start hstart l hline name i j k ⟨m, c, hc, hmem, hname, hinst⟩
      ⟨m', a, ha, hmem', hname', hinst'⟩ ⟨m'', b, hb, hmem'', hname'', hinst''⟩ hij hjk
    have hcm := mem_of_line hstart hline (mem_of_getElem? hc)
    have hca : Reaches model c a := (mem_up_iff hline hc _ a).mpr ⟨j, hij.1, hij.2, ha⟩
    have hab : Reaches model a b := (mem_up_iff hline ha _ b).mpr ⟨k, hjk.1, hjk.2, hb⟩
    have hcb := htrans c hcm a hca b hab m hmem m' hmem' m'' hmem'' hinst hinst' hinst''
      (hname'.trans hname.symm) (hname''.trans hname.symm)
    obtain ⟨k', hik', hkb', hb'⟩ := (mem_up_iff hline hc _ b).mp hcb
    have hk := (List.getElem_of_getElem? hb).1
    rw [(getElem?_inj hk hline.nodup).mp (hb.trans hb'.symm)]
    exact ⟨hik', hkb'⟩
  · intro hlines c hc a hca b hab m hmem m' hmem' m'' hmem'' hinst hinst' hinst'' hname' hname''
    obtain ⟨l, hline⟩ := h.acyclic c hc
    obtain ⟨j, h₀, hj, ha⟩ := (mem_up_iff (i := 0) hline rfl _ a).mp hca
    obtain ⟨k, hjk, hk, hb⟩ := (mem_up_iff hline ha _ b).mp hab
    have hreach := hlines c hc l hline m.name 0 j k ⟨m, c, rfl, hmem, rfl, hinst⟩
      ⟨m', a, ha, hmem', hname', hinst'⟩ ⟨m'', b, hb, hmem'', hname'', hinst''⟩ ⟨h₀, hj⟩ ⟨hjk, hk⟩
    exact (mem_up_iff (i := 0) hline rfl _ b).mpr ⟨k, hreach.1, hreach.2, hb⟩

theorem slotsMatchOverrides_iff (hacc : validateInheritedMembers model = []) :
    SlotsMatchOverrides model ↔ NoPrivateRedeclared model ∧ RedeclarationsReach model := by
  rw [slotsMatchOverrides_iff_onEveryLine h hacc, noPrivateRedeclared_iff_onEveryLine h,
    redeclarationsReach_iff_onEveryLine h]
  constructor
  · intro hlines
    refine ⟨fun start hstart l hline name => ?_, fun start hstart l hline name => ?_⟩
    · exact ((Declarations.slotsAgree_iff (accepted_declarations h hstart hline hacc)).mp
        (hlines start hstart l hline name)).1
    · exact ((Declarations.slotsAgree_iff (accepted_declarations h hstart hline hacc)).mp
        (hlines start hstart l hline name)).2
  · rintro ⟨hhidden, htrans⟩ start hstart l hline name
    exact (Declarations.slotsAgree_iff (accepted_declarations h hstart hline hacc)).mpr
      ⟨hhidden start hstart l hline name, htrans start hstart l hline name⟩

end Neri.Ir
