import Neri.Lib.ExceptFold
import Neri.Semantic.NativeAbi

/-!
# Facts about the layout of native types

A layout does not depend on the level it was found at, its size is positive and at most one GiB, and
its alignment divides eight.
-/

namespace Neri.Semantic

open AggregateLayout ExceptFold

variable {decls : NativeDeclarations} {level : Nat} {type : NativeTypeName} {layout : Layout}
variable {ms : List Layout}

/-! ## Reading a layout backwards -/

theorem arrayLayout_eq_some {elem : Layout} {count : Nat} : arrayLayout elem count = some layout ↔
      (0 < count ∧ elem.size * count ≤ nativeSizeLimit) ∧
        layout = { size := elem.size * count, alignment := elem.alignment, offsets := [] } := by
  unfold arrayLayout
  split_ifs with h
  · simp [h, eq_comm]
  · simp [h]

theorem recordLayoutOf_eq_some {unionType : Bool} : recordLayoutOf unionType ms = some layout ↔
      (ms ≠ [] ∧ (Layout.placeAll unionType ms).close.size ≤ nativeSizeLimit) ∧
        layout = (Layout.placeAll unionType ms).close := by
  unfold recordLayoutOf
  split_ifs with h
  · simp [h, eq_comm]
  · simp [h]

theorem cLayout_fixedArray {inner : NativeTypeName} {count : Nat} :
    cLayout decls (level + 1) (.fixedArray inner count) = some layout ↔
      ∃ elem, cLayout decls level inner = some elem ∧ arrayLayout elem count = some layout := by
  simp [cLayout, Option.bind_eq_some_iff]

def MemberLayouts (declarations : NativeDeclarations) (level : Nat) (fields : List NativeField)
    (members : List Layout) : Prop :=
  List.Forall₂ (fun field member => cLayout declarations level field.typeName = some member)
    fields members

theorem cLayout_record {name : String} : cLayout decls (level + 1) (.record name) = some layout ↔
      ∃ r ms, decls.findRecord name = some r ∧ MemberLayouts decls level r.fields ms ∧
        recordLayoutOf r.unionType ms = some layout := by
  simp only [cLayout, Option.bind_eq_bind, Option.bind_eq_some_iff, MemberLayouts, mapM_eq_some_iff]
  constructor
  · rintro ⟨r, hfind, ms, hmembers, hlayout⟩
    exact ⟨r, ms, hfind, hmembers, hlayout⟩
  · rintro ⟨r, ms, hfind, hmembers, hlayout⟩
    exact ⟨r, hfind, ms, hmembers, hlayout⟩

/-- The types that hold no other type by value. -/
def NativeTypeName.isLeaf : NativeTypeName → Bool
  | .record _ | .fixedArray _ _ => false
  | _ => true

theorem cLayout_leaf (h : type.isLeaf = true) :
    cLayout decls (level + 1) type = type.leafLayout := by
  cases type <;> first | rfl | cases h

/-! ## Levels -/

theorem cLayout_succ (h : cLayout decls level type = some layout) :
    cLayout decls (level + 1) type = some layout := by
  induction level generalizing type layout with
  | zero => cases h
  | succ level ih =>
    cases type with
    | fixedArray inner count =>
      obtain ⟨elem, helement, harray⟩ := cLayout_fixedArray.mp h
      exact cLayout_fixedArray.mpr ⟨elem, ih helement, harray⟩
    | record name =>
      obtain ⟨r, ms, hfind, hmembers, hlayout⟩ := cLayout_record.mp h
      exact cLayout_record.mpr ⟨r, ms, hfind, hmembers.imp fun _ _ hm => ih hm, hlayout⟩
    | _ => exact h

theorem cLayout_mono {higher : Nat} (hle : level ≤ higher)
    (h : cLayout decls level type = some layout) : cLayout decls higher type = some layout := by
  induction hle with
  | refl => exact h
  | step _ ih => exact cLayout_succ ih

theorem cLayout_unique {level' : Nat} {layout' : Layout}
    (h : cLayout decls level type = some layout)
    (h' : cLayout decls level' type = some layout') : layout = layout' := by
  have hmax := cLayout_mono (Nat.le_max_left level level') h
  rw [cLayout_mono (Nat.le_max_right level level') h'] at hmax
  exact (Option.some.inj hmax).symm

theorem exists_memberLayouts {fields : List NativeField} (h : List.Forall₂ (fun field member =>
      ∃ level, cLayout decls level field.typeName = some member) fields ms) :
    ∃ level, MemberLayouts decls level fields ms := by
  induction h with
  | nil => exact ⟨0, .nil⟩
  | cons hfirst _ ih =>
    obtain ⟨first, hfirst⟩ := hfirst
    obtain ⟨rest, hrest⟩ := ih
    refine ⟨max first rest, .cons (cLayout_mono (Nat.le_max_left _ _) hfirst) ?_⟩
    exact hrest.imp fun _ _ h => cLayout_mono (Nat.le_max_right _ _) h

/-- The lowest level at which a record has its layout: there it does not hold itself. -/
theorem cLayout_least {name : String} (h : cLayout decls level (.record name) = some layout) :
    ∃ least < level, cLayout decls least (.record name) = none ∧
      cLayout decls (least + 1) (.record name) = some layout := by
  induction level with
  | zero => cases h
  | succ level ih =>
    cases hbelow : cLayout decls level (.record name) with
    | none => exact ⟨level, Nat.lt_succ_self level, hbelow, h⟩
    | some layout' =>
      have heq := cLayout_unique h (cLayout_succ hbelow)
      obtain ⟨least, hlt, hnone, hsome⟩ := ih (heq ▸ hbelow)
      exact ⟨least, Nat.lt_succ_of_lt hlt, hnone, hsome⟩

/-! ## Bounds -/

/-- What is known of every layout. -/
structure Bounded (layout : Layout) : Prop where
  size_pos : 0 < layout.size
  size_le : layout.size ≤ nativeSizeLimit
  alignment_dvd : layout.alignment ∣ 8

theorem Bounded.alignment_pos (h : Bounded layout) : 0 < layout.alignment :=
  Nat.pos_of_dvd_of_pos h.alignment_dvd (by decide)

theorem leafLayout_bounded (h : type.leafLayout = some layout) : Bounded layout := by
  have hbytes : ∀ bytes, type.scalarBytes = some bytes → bytes = 1 ∨ bytes = 4 ∨ bytes = 8 := by
    intro bytes hbytes
    unfold NativeTypeName.scalarBytes at hbytes
    split at hbytes <;> simp_all
  unfold NativeTypeName.leafLayout at h
  split_ifs at h with haddress
  · cases h
    exact ⟨by decide, by decide, by decide⟩
  · obtain ⟨bytes, hsome, rfl⟩ := Option.map_eq_some_iff.mp h
    rcases hbytes bytes hsome with rfl | rfl | rfl <;> exact ⟨by decide, by decide, by decide⟩

theorem placeAll_alignment_dvd (unionType : Bool) (h : ∀ member ∈ ms, Bounded member) :
    (Layout.placeAll unionType ms).alignment ∣ 8 :=
  Layout.foldl_place_alignment unionType ms _ (P := (· ∣ 8)) (by decide)
    fun member hmember => (h member hmember).alignment_dvd

theorem placeAll_alignment_pos (unionType : Bool) (h : ∀ member ∈ ms, Bounded member) :
    0 < (Layout.placeAll unionType ms).alignment :=
  Nat.pos_of_dvd_of_pos (placeAll_alignment_dvd unionType h) (by decide)

theorem recordLayoutOf_bounded {unionType : Bool} (hmembers : ∀ member ∈ ms, Bounded member)
    (h : recordLayoutOf unionType ms = some layout) : Bounded layout := by
  obtain ⟨⟨hne, hle⟩, rfl⟩ := recordLayoutOf_eq_some.mp h
  refine ⟨?_, hle, placeAll_alignment_dvd unionType hmembers⟩
  -- the last member alone makes the record longer than nothing
  obtain ⟨front, last, rfl⟩ : ∃ front last, ms = front ++ [last] :=
    ⟨ms.dropLast, ms.getLast hne, (List.dropLast_append_getLast hne).symm⟩
  have hlast : last.size ≤ (Layout.placeAll unionType (front ++ [last])).size := by
    rw [Layout.placeAll_append]
    exact (Nat.le_add_left _ _).trans (le_max_right _ _)
  have hpos : 0 < last.size := (hmembers last (by simp)).size_pos
  exact lt_of_lt_of_le hpos (hlast.trans (Layout.size_le_close (placeAll_alignment_pos unionType hmembers)))

theorem cLayout_bounded (h : cLayout decls level type = some layout) : Bounded layout := by
  induction level generalizing type layout with
  | zero => cases h
  | succ level ih =>
    by_cases hleaf : type.isLeaf = true
    · exact leafLayout_bounded (by rwa [cLayout_leaf hleaf] at h)
    cases type with
    | fixedArray inner count =>
      obtain ⟨elem, helement, harray⟩ := cLayout_fixedArray.mp h
      obtain ⟨⟨hcount, hle⟩, rfl⟩ := arrayLayout_eq_some.mp harray
      exact ⟨Nat.mul_pos (ih helement).size_pos hcount, hle, (ih helement).alignment_dvd⟩
    | record name =>
      obtain ⟨r, ms, -, hmembers, hlayout⟩ := cLayout_record.mp h
      refine recordLayoutOf_bounded ?_ hlayout
      intro member hmember
      obtain ⟨field, -, hfield⟩ := exists_left_of_forall₂ hmembers hmember
      exact ih hfield
    | _ => exact absurd rfl hleaf

theorem MemberLayouts.bounded {fields : List NativeField}
    (h : MemberLayouts decls level fields ms) : ∀ member ∈ ms, Bounded member := by
  intro member hmember
  obtain ⟨field, -, hfield⟩ := exists_left_of_forall₂ h hmember
  exact cLayout_bounded hfield

end Neri.Semantic
