import Mathlib.NumberTheory.Divisors
import Neri.Codegen.NativeLayout
import Neri.Codegen.Transport
import Neri.Lib.Acceptance
import Neri.Semantic.Proofs.NativeRecordsProofs

/-!
# The back end's layouts are the layouts of native types

The words of a layout are read as numbers. Where the back end returns a layout it is the one of
`cLayout`; and where a type has a layout, the back end finds it exactly if everything it looks at is
nested less than 128 deep.
-/

namespace Neri.Codegen

open Acceptance AggregateLayout ExceptFold Neri.Ir Neri.Semantic Option

/-! ## Words -/

def NativeLayout.toLayout (layout : NativeLayout) : Layout :=
  { size := layout.size.toNat
    alignment := layout.alignment.toNat
    offsets := layout.offsets.map UInt64.toNat }

theorem toNat_stdMax (a b : UInt64) : (stdMax a b).toNat = max a.toNat b.toNat := by
  unfold stdMax
  split_ifs with h
  · rw [UInt64.lt_iff_toNat_lt] at h
    omega
  · rw [UInt64.lt_iff_toNat_lt] at h
    omega

/-- Clearing the low bits rounds up as a division does. -/
theorem toNat_alignUp {v align : UInt64} (hvalue : v.toNat ≤ nativeSizeLimit)
    (halignment : align.toNat ∣ 8) :
    (alignUp v align).toNat = AggregateLayout.alignUp v.toNat align.toNat := by
  obtain ⟨k, hk, hpow⟩ := (Nat.dvd_prime_pow Nat.prime_two (m := 3)).mp halignment
  have hle : 2 ^ k ≤ 8 := Nat.pow_le_pow_right (n := 2) (by decide) hk
  have hpos : 0 < 2 ^ k := Nat.two_pow_pos k
  unfold nativeSizeLimit at hvalue
  have hmask : (align - 1).toBitVec = BitVec.ofNat 64 (2 ^ k - 1) := by
    apply BitVec.eq_of_toNat_eq
    rw [UInt64.toNat_toBitVec, UInt64.toNat_sub_of_le, hpow, BitVec.toNat_ofNat]
    · rw [Nat.mod_eq_of_lt (by omega)]
      rfl
    · rw [UInt64.le_iff_toNat_le, hpow]
      exact hpos
  have hsum : (v + align - 1).toNat = v.toNat + align.toNat - 1 := by
    have hadd : (v + align).toNat = v.toNat + align.toNat := by
      rw [UInt64.toNat_add, Nat.mod_eq_of_lt (by omega)]
    rw [UInt64.toNat_sub_of_le, hadd]
    · rfl
    · rw [UInt64.le_iff_toNat_le, hadd, hpow]
      exact hpos.trans_le (Nat.le_add_left _ _)
  have hand := toNat_and_not_mask (k := k) (v + align - 1).toBitVec
  rw [← hmask] at hand
  show ((v + align - 1).toBitVec &&& ~~~(align - 1).toBitVec).toNat = _
  rw [hand, UInt64.toNat_toBitVec, hsum, AggregateLayout.alignUp, hpow]

variable {isUnion : Bool} {res : NativeLayout}

/-- A member is placed as `Layout.place` says, as long as sizes stay below the limit. -/
theorem toLayout_addMember {member : NativeLayout}
    (hresult : res.size.toNat ≤ nativeSizeLimit) (hmember : Bounded member.toLayout) :
    (res.addMember isUnion member).toLayout =
      Layout.place isUnion res.toLayout member.toLayout := by
  have halign := toNat_alignUp hresult hmember.alignment_dvd
  have hsize : member.size.toNat ≤ nativeSizeLimit := hmember.size_le
  have hpos : 0 < member.alignment.toNat := hmember.alignment_pos
  have hlt : AggregateLayout.alignUp res.size.toNat member.alignment.toNat <
      res.size.toNat + member.alignment.toNat := alignUp_lt hpos
  have hle : member.alignment.toNat ≤ 8 := Nat.le_of_dvd (by decide) hmember.alignment_dvd
  unfold nativeSizeLimit at hresult hsize
  cases isUnion with
  | true =>
    simp [NativeLayout.addMember, NativeLayout.toLayout, Layout.place, Layout.nextOffset, toNat_stdMax]
  | false =>
    have hadd : (alignUp res.size member.alignment + member.size).toNat =
        AggregateLayout.alignUp res.size.toNat member.alignment.toNat + member.size.toNat := by
      rw [UInt64.toNat_add, halign, Nat.mod_eq_of_lt (by omega)]
    simp [NativeLayout.addMember, NativeLayout.toLayout, Layout.place, Layout.nextOffset, toNat_stdMax,
      halign, hadd]

/-! ## Types that cross the transport -/

variable {decls : NativeDeclarations} {mod : String} {records : List NativeRecord}

/-- The type of the back end that stands for a type name, all of whose records are declared. -/
structure Carried (declarations : NativeDeclarations) (moduleName : String)
    (type : NativeTypeName) (carried : Ty) : Prop where
  converted : ∃ irType, type.convertSemantic = some irType ∧ nativeType moduleName irType = carried
  declared : ∀ name ∈ type.recordNames, (declarations.findRecord name).isSome

namespace Carried

variable {inner res : NativeTypeName} {params : List NativeTypeName} {carried : Ty}

theorem scalar {type : NativeTypeName} {kind : IrScalar} (h : Carried decls mod type carried)
    (hscalar : type.convertSemantic = some (.scalar kind)) : carried = { tag := scalarTag kind } := by
  obtain ⟨⟨irType, hconvert, rfl⟩, -⟩ := h
  rw [hscalar] at hconvert
  cases hconvert
  rfl

theorem all {carrieds : List IrType} (h : NativeTypeName.convertAll params = some carrieds)
    (hdeclared : ∀ name ∈ NativeTypeName.recordNamesAll params, (decls.findRecord name).isSome) :
    List.Forall₂ (Carried decls mod) params (nativeTypes mod carrieds) := by
  induction params generalizing carrieds with
  | nil =>
    cases h
    exact .nil
  | cons first rest ih =>
    obtain ⟨irFirst, hfirst, h⟩ := bind_eq_some_iff.mp h
    obtain ⟨irRest, hrest, heq⟩ := bind_eq_some_iff.mp h
    cases heq
    simp only [NativeTypeName.recordNamesAll, List.mem_append] at hdeclared
    exact .cons ⟨⟨irFirst, hfirst, rfl⟩, fun name h => hdeclared name (.inl h)⟩
      (ih hrest fun name h => hdeclared name (.inr h))

/-- What stands for a type, by its form. -/
theorem shape {type : NativeTypeName} (h : Carried decls mod type carried) : match type with
    | .pointer inner => ∃ elem, Carried decls mod inner elem ∧
        carried = { tag := .pointer, arguments := [elem] }
    | .optional inner => ∃ elem, Carried decls mod inner elem ∧
        carried = { tag := .optional, arguments := [elem] }
    | .array inner => ∃ elem, Carried decls mod inner elem ∧
        carried = { tag := .array, arguments := [elem] }
    | .fixedArray inner count => ∃ elem, Carried decls mod inner elem ∧ 0 < count ∧ count < 2 ^ 32 ∧
        carried = { tag := .fixedArray, arguments := [elem], elementCount := count }
    | .record name => (∃ r, decls.findRecord name = some r) ∧
        carried = { tag := .nativeRecord
                    symbol := some
                      { moduleName := mod, kind := .nativeRecord, semanticName := name } }
    | .managed name => carried = { tag := .classType
                                   symbol := some
                                     { moduleName := mod
                                       kind := .classDecl
                                       semanticName := name } }
    | .cFunction res params => ∃ first rest, Carried decls mod res first ∧
        List.Forall₂ (Carried decls mod) params rest ∧
        carried = { tag := .cFunction, arguments := first :: rest }
    | _ => True := by
  obtain ⟨⟨irType, hconvert, rfl⟩, hdeclared⟩ := h
  cases type with
  | pointer inner | optional inner | array inner =>
    obtain ⟨elem, helement, heq⟩ := bind_eq_some_iff.mp hconvert
    cases heq
    exact ⟨_, ⟨⟨elem, helement, rfl⟩, hdeclared⟩, rfl⟩
  | fixedArray inner count =>
    obtain ⟨elem, helement, heq⟩ := bind_eq_some_iff.mp hconvert
    split_ifs at heq with hcount
    cases heq
    exact ⟨_, ⟨⟨elem, helement, rfl⟩, hdeclared⟩, by omega, by omega, rfl⟩
  | record name =>
    obtain ⟨-, hr⟩ := ite_none_left_eq_some.mp hconvert
    cases hr
    refine ⟨isSome_iff_exists.mp (hdeclared name ?_), rfl⟩
    simp [NativeTypeName.recordNames]
  | managed name =>
    obtain ⟨-, hclass⟩ := ite_none_left_eq_some.mp hconvert
    cases hclass
    rfl
  | cFunction res params =>
    obtain ⟨first, hfirst, hconvert⟩ := bind_eq_some_iff.mp hconvert
    obtain ⟨rest, hrest, heq⟩ := bind_eq_some_iff.mp hconvert
    cases heq
    simp only [NativeTypeName.recordNames, List.mem_append] at hdeclared
    exact ⟨_, _, ⟨⟨first, hfirst, rfl⟩, fun name h => hdeclared name (.inl h)⟩,
      all hrest fun name h => hdeclared name (.inr h), rfl⟩
  | _ => trivial

end Carried

/-- The record of the back end that stands for a declaration. -/
structure CarriedRecord (declarations : NativeDeclarations) (moduleName : String)
    (record : Semantic.NativeRecord) (carried : NativeRecord) : Prop where
  name : carried.id.semanticName = record.name
  isUnion : carried.isUnion = record.unionType
  fields : List.Forall₂ (fun field carriedField =>
    Carried declarations moduleName field.typeName carriedField.valueType)
    record.fields carried.fields

/-- The records of the back end stand for the declarations. -/
def CarriesRecords (declarations : NativeDeclarations) (moduleName : String)
    (records : List NativeRecord) : Prop :=
  ∀ name r, declarations.findRecord name = some r →
    ∃ carried, records.find? (fun candidate => candidate.id.moduleName == moduleName &&
        candidate.id.semanticName == name) = some carried ∧
      CarriedRecord declarations moduleName r carried

variable {name : String}

theorem declaration_carried (hrecords : CarriesRecords decls mod records)
    {carried : Ty} (h : Carried decls mod (.record name) carried) :
    ∃ r carriedRecord, decls.findRecord name = some r ∧ CarriedRecord decls mod r carriedRecord ∧
      declaration records carried = pure carriedRecord := by
  obtain ⟨⟨r, hfind⟩, rfl⟩ := h.shape
  obtain ⟨carriedRecord, hcarried, hr⟩ := hrecords name r hfind
  refine ⟨r, carriedRecord, hfind, hr, ?_⟩
  simp only [declaration]
  rw [if_neg (by simp), hcarried]

/-! ## Types that are no aggregates -/

/-- Everything the back end looks at for the type is within the levels that are left. -/
def FitsIn (place : TypePlace) (type : NativeTypeName) (room : Nat) : Prop :=
  ∃ levels, type.reach place = some levels ∧ levels < room

variable {place : TypePlace} {type : NativeTypeName}

theorem not_fitsIn_of_reach_none {room : Nat}
    (h : type.reach place = none) : ¬FitsIn place type room := by
  rintro ⟨levels, hlevels, -⟩
  rw [h] at hlevels
  cases hlevels

theorem not_fitsIn_zero : ¬FitsIn place type 0 := by
  rintro ⟨levels, -, hlt⟩
  exact absurd hlt (Nat.not_lt_zero _)

theorem fitsIn_map {place' : TypePlace} {type' : NativeTypeName} {room k : Nat}
    (h : type.reach place = (type'.reach place').map (k + ·)) :
    FitsIn place type (room + k) ↔ FitsIn place' type' room := by
  unfold FitsIn
  rw [h]
  constructor
  · rintro ⟨levels, hlevels, hlt⟩
    obtain ⟨levels', hlevels', rfl⟩ := map_eq_some_iff.mp hlevels
    exact ⟨levels', hlevels', by omega⟩
  · rintro ⟨levels, hlevels, hlt⟩
    exact ⟨k + levels, by rw [hlevels]; rfl, by omega⟩

theorem map_add_map {levels : Option Nat} {j k : Nat} :
    (levels.map (k + ·)).map (j + ·) = levels.map (j + k + ·) := by
  simp only [map_map, Function.comp_def, Nat.add_assoc]

/-- A type that is no aggregate and not void reaches as far anywhere, but for the level between it
and what it is part of. -/
theorem reach_of_isLeaf (hleaf : type.isLeaf = true)
    (hvoid : type ≠ .void) (place : TypePlace) :
    type.reach place = (type.reach .field).map (place.level + ·) := by
  cases type with
  | record _ | fixedArray _ _ => cases hleaf
  | void => exact absurd rfl hvoid
  | optional inner =>
    cases inner with
    | pointer inner =>
      exact map_add_map.symm
    | cFunction res params =>
      simp only [NativeTypeName.reach, TypePlace.level]
      cases res.reach .result <;> cases NativeTypeName.reachAll params <;>
        simp [Nat.add_assoc]
    | _ => simp [NativeTypeName.reach]
  | pointer inner =>
    exact map_add_map.symm
  | cFunction res params =>
    simp only [NativeTypeName.reach, TypePlace.level]
    cases res.reach .result <;> cases NativeTypeName.reachAll params <;> simp
  | _ => simp [NativeTypeName.reach, TypePlace.level]

/-- What the back end does with the types that are no aggregates: it returns exactly if they fit,
and leaves the object as it is. -/
structure LeafSpec (declarations : NativeDeclarations) (moduleName : String)
    (records : List NativeRecord) (room : Nat) : Prop where
  layout : ∀ {type carried}, Carried declarations moduleName type carried → type.isLeaf = true →
    ∀ s, Accepts (layout records room carried s) (FitsIn .field type room) fun found s' =>
      s' = s ∧ type.leafLayout = some found.toLayout
  pointer : ∀ {inner carried}, Carried declarations moduleName (.pointer inner) carried →
    ∀ s, Accepts (validatePointer records room carried s) (FitsIn .pointee inner (room - 1))
      fun _ s' => s' = s
  pointee : ∀ {type carried}, Carried declarations moduleName type carried → ∀ allowVoid s,
    Accepts (validatePointee records room carried allowVoid s)
      (FitsIn (if allowVoid then .pointee else .arrayPointee) type room) fun _ s' => s' = s

section

variable {room : Nat} {type inner res : NativeTypeName} {params : List NativeTypeName}
  {carried : Ty}

theorem fitsIn_pointer (inner : NativeTypeName) : FitsIn .field (.pointer inner) (room + 1) ↔
    FitsIn .pointee inner (room - 1) := by
  cases room with
  | zero =>
    refine iff_of_false ?_ not_fitsIn_zero
    rintro ⟨levels, hlevels, hlt⟩
    obtain ⟨below, -, rfl⟩ := map_eq_some_iff.mp hlevels
    omega
  | succ room =>
    refine fitsIn_map (k := 2) ?_
    simp [NativeTypeName.reach, TypePlace.level]

/-- Where a type that is no aggregate stands in something else, it takes a level. -/
theorem fitsIn_part (hleaf : type.isLeaf = true) (hvoid : type ≠ .void)
    (hplace : place.level = 1) : FitsIn place type (room + 1) ↔ FitsIn .field type room := by
  refine fitsIn_map ?_
  rw [reach_of_isLeaf hleaf hvoid place, hplace]

theorem fitsIn_parameters : (∃ levels, NativeTypeName.reachAll params = some levels ∧
      levels < room + 1) ↔ ∀ parameter ∈ params, FitsIn .parameter parameter (room + 1) := by
  induction params with
  | nil => simp [NativeTypeName.reachAll]
  | cons first rest ih =>
    rw [List.forall_mem_cons, ← ih]
    simp only [NativeTypeName.reachAll, FitsIn]
    cases first.reach .parameter <;> cases NativeTypeName.reachAll rest <;> simp

theorem fitsIn_cFunction : FitsIn .field (.cFunction res params) (room + 1) ↔
    FitsIn .result res (room + 1) ∧
      ∀ parameter ∈ params, FitsIn .parameter parameter (room + 1) := by
  rw [← fitsIn_parameters]
  simp only [NativeTypeName.reach, FitsIn, TypePlace.level]
  cases res.reach .result <;> cases NativeTypeName.reachAll params <;> simp

def typeTag : NativeTypeName → IrTypeKind
  | .numeric kind => scalarTag kind.irScalar
  | .bool => .bool
  | .void => .void
  | .string => .string
  | .record _ => .nativeRecord
  | .managed _ => .classType
  | .cFunction .. => .cFunction
  | .optional _ => .optional
  | .array _ => .array
  | .pointer _ => .pointer
  | .fixedArray .. => .fixedArray

variable (h : Carried decls mod type carried)
include h

theorem Carried.tag : carried.tag = typeTag type := by
  cases type with
  | record name => rw [h.shape.2]; rfl
  | fixedArray inner count => obtain ⟨elem, -, -, -, rfl⟩ := h.shape; rfl
  | pointer inner | optional inner | array inner => obtain ⟨elem, -, rfl⟩ := h.shape; rfl
  | cFunction res params => obtain ⟨first, rest, -, -, rfl⟩ := h.shape; rfl
  | managed name => rw [h.shape]; rfl
  | _ => rw [h.scalar rfl]; rfl

/-- The tags that the back end treats apart. -/
theorem Carried.leaf_tag
    (hleaf : type.isLeaf = true) : carried.tag ≠ .nativeRecord ∧ carried.tag ≠ .fixedArray := by
  rw [h.tag]
  cases type with
  | record _ | fixedArray _ _ => cases hleaf
  | numeric kind => cases kind <;> simp [typeTag, NumericType.irScalar, scalarTag]
  | _ => simp [typeTag]

theorem Carried.tag_void (htag : carried.tag = .void) : type = .void := by
  rw [h.tag] at htag
  cases type with
  | void => rfl
  | numeric kind => cases kind <;> cases htag
  | _ => cases htag

theorem validatePointee_leaf
    (hleaf : type.isLeaf = true) (hvoid : type ≠ .void) (allowVoid : Bool) :
    validatePointee records (room + 1) carried allowVoid =
      (do let _ ← layout records room carried) := by
  obtain ⟨hnotRecord, hnotArray⟩ := h.leaf_tag hleaf
  rw [validatePointee]
  split
  · exact absurd (h.tag_void ‹_›) hvoid
  · exact absurd ‹_› hnotRecord
  · exact absurd ‹_› hnotArray
  · rfl

omit h

/-- A parameter of a C function, or a result that is not void. -/
theorem layoutArgument_accepts (ih : LeafSpec decls mod records room)
    (h : Carried decls mod type carried)
    (hplace : place.level = 1) (haggregate : place.allowsAggregate = false)
    (hvoid : type = .void → place.allowsVoid = false) (s : NativeLayouts) :
    Accepts (layoutArgument (layout records room) carried s) (FitsIn place type (room + 1))
      fun _ s' => s' = s := by
  by_cases hleaf : type.isLeaf = true
  · obtain ⟨hnotRecord, hnotArray⟩ := h.leaf_tag hleaf
    have hrun : layoutArgument (layout records room) carried =
        (do let _ ← layout records room carried) := by
      rw [layoutArgument, if_neg (not_or.mpr ⟨hnotRecord, hnotArray⟩)]
    rw [hrun]
    refine ((ih.layout h hleaf s).bind_pure fun _ _ hfound => hfound.1).congr ?_
    by_cases htype : type = .void
    · subst htype
      refine iff_of_false (not_fitsIn_of_reach_none rfl) (not_fitsIn_of_reach_none ?_)
      rw [NativeTypeName.reach, hvoid rfl]
      rfl
    · exact (fitsIn_part hleaf htype hplace).symm
  · cases type with
    | record name =>
      obtain ⟨-, rfl⟩ := h.shape
      exact .inr ⟨not_fitsIn_of_reach_none (by simp [NativeTypeName.reach, haggregate]), _, rfl⟩
    | fixedArray inner count =>
      obtain ⟨elem, -, -, -, rfl⟩ := h.shape
      exact .inr ⟨not_fitsIn_of_reach_none (by simp [NativeTypeName.reach, haggregate]), _, rfl⟩
    | _ => exact absurd rfl hleaf

theorem layoutSignature_accepts (ih : LeafSpec decls mod records room)
    (h : Carried decls mod (.cFunction res params) carried) (s : NativeLayouts) :
    Accepts (layoutSignature (layout records room) carried s)
      (FitsIn .field (.cFunction res params) (room + 1)) fun found s' =>
        s' = s ∧ found = addressLayout := by
  obtain ⟨first, rest, hfirst, hrest, rfl⟩ := h.shape
  have hparameters : Accepts ((rest.forM (layoutArgument (layout records room)) >>= fun _ =>
      pure addressLayout) s) (∀ parameter ∈ params, FitsIn .parameter parameter (room + 1))
      fun found s' => s' = s ∧ found = addressLayout := by
    refine Accepts.bind_pure (.forM hrest ?_) fun _ _ hs => ⟨hs, rfl⟩
    intro parameter carried hcarried
    exact layoutArgument_accepts ih hcarried rfl rfl (fun _ => rfl) s
  refine Accepts.congr ?_ fitsIn_cFunction.symm
  by_cases hvoid : res = .void
  · subst hvoid
    obtain rfl := hfirst.scalar rfl
    refine hparameters.congr (and_iff_right ?_).symm
    exact ⟨0, rfl, Nat.succ_pos _⟩
  · have htag : first.tag ≠ .void := fun htag => hvoid (hfirst.tag_void htag)
    have hrun : layoutSignature (layout records room)
        { tag := .cFunction, arguments := first :: rest } = (do
          layoutArgument (layout records room) first
          rest.forM (layoutArgument (layout records room))
          pure addressLayout) := by
      simp only [layoutSignature, if_neg htag]
    rw [hrun]
    refine (layoutArgument_accepts ih hfirst rfl rfl (fun h => absurd h hvoid) s).bind
      fun _ s' hs => ?_
    subst hs
    exact hparameters

theorem layout_leaf_accepts (ih : LeafSpec decls mod records room)
    (h : Carried decls mod type carried) (hleaf : type.isLeaf = true) (s : NativeLayouts) :
    Accepts (layout records (room + 1) carried s) (FitsIn .field type (room + 1)) fun found s' =>
      s' = s ∧ type.leafLayout = some found.toLayout := by
  cases type with
  | record _ | fixedArray _ _ => cases hleaf
  | numeric kind =>
    obtain rfl := h.scalar rfl
    refine .inl ⟨⟨0, rfl, Nat.succ_pos _⟩, ?_⟩
    cases kind <;> exact ⟨_, s, rfl, rfl, rfl⟩
  | bool =>
    obtain rfl := h.scalar rfl
    exact .inl ⟨⟨0, rfl, Nat.succ_pos _⟩, _, s, rfl, rfl, rfl⟩
  | void | string =>
    obtain rfl := h.scalar rfl
    exact .inr ⟨not_fitsIn_of_reach_none rfl, _, rfl⟩
  | managed name =>
    have hmanaged : carried = _ := h.shape
    subst hmanaged
    exact .inr ⟨not_fitsIn_of_reach_none rfl, _, rfl⟩
  | array inner =>
    obtain ⟨elem, -, rfl⟩ := h.shape
    exact .inr ⟨not_fitsIn_of_reach_none rfl, _, rfl⟩
  | pointer inner =>
    have hpointer := ih.pointer h s
    obtain ⟨elem, -, rfl⟩ := h.shape
    refine Accepts.congr ?_ (fitsIn_pointer inner).symm
    exact hpointer.bind_pure fun _ _ hs => ⟨hs, rfl⟩
  | cFunction res params =>
    have hsignature := layoutSignature_accepts ih h s
    obtain ⟨first, rest, -, -, rfl⟩ := h.shape
    exact hsignature.weaken fun _ _ hfound => ⟨hfound.1, hfound.2 ▸ rfl⟩
  | optional inner =>
    obtain ⟨elem, hinner, rfl⟩ := h.shape
    cases inner with
    | pointer target =>
      have hpointer := ih.pointer hinner s
      obtain ⟨carried, -, rfl⟩ := hinner.shape
      -- the optional pointer reaches as far as the pointer
      refine Accepts.congr ?_ (fitsIn_pointer target).symm
      exact hpointer.bind_pure fun _ _ hs => ⟨hs, rfl⟩
    | cFunction res params =>
      have hlayout := ih.layout hinner rfl s
      obtain ⟨first, rest, -, -, rfl⟩ := hinner.shape
      refine Accepts.congr (hlayout.bind_pure fun _ _ hfound => ⟨hfound.1, rfl⟩) ?_
      refine (fitsIn_map (k := 1) ?_).symm
      simp only [NativeTypeName.reach, TypePlace.level]
      cases res.reach .result <;> cases NativeTypeName.reachAll params <;> simp
    | numeric kind =>
      obtain rfl := hinner.scalar rfl
      cases kind <;> exact .inr ⟨not_fitsIn_of_reach_none rfl, _, rfl⟩
    | _ =>
      refine .inr ⟨not_fitsIn_of_reach_none rfl, ?_⟩
      show ∃ problem, (if elem.tag = .pointer then _ else if elem.tag = .cFunction then _
        else reject _ : LayoutM NativeLayout) s = .error problem
      rw [hinner.tag]
      exact ⟨_, rfl⟩

theorem validatePointee_accepts (hrecords : CarriesRecords decls mod records)
    (ih : LeafSpec decls mod records room)
    (h : Carried decls mod type carried) (allowVoid : Bool) (s : NativeLayouts) :
    Accepts (validatePointee records (room + 1) carried allowVoid s)
      (FitsIn (if allowVoid then .pointee else .arrayPointee) type (room + 1))
      fun _ s' => s' = s := by
  cases htype : type with
  | void =>
    subst htype
    obtain rfl := h.scalar rfl
    cases allowVoid with
    | true => exact .inl ⟨⟨0, rfl, Nat.succ_pos _⟩, _, s, rfl, rfl⟩
    | false => exact .inr ⟨not_fitsIn_of_reach_none rfl, _, rfl⟩
  | record name =>
    subst htype
    obtain ⟨r, carriedRecord, -, -, hdeclaration⟩ := declaration_carried hrecords h
    refine .inl ⟨⟨0, by cases allowVoid <;> rfl, Nat.succ_pos _⟩, (), s, ?_, rfl⟩
    rw [h.shape.2] at hdeclaration ⊢
    show (do let _ ← declaration records _ : LayoutM Unit) s = _
    rw [hdeclaration]
    rfl
  | fixedArray inner count =>
    subst htype
    obtain ⟨elem, hinner, hpos, -, rfl⟩ := h.shape
    have hrun : validatePointee records (room + 1)
        { tag := .fixedArray, arguments := [elem], elementCount := count } allowVoid =
        validatePointee records room elem false := by
      exact if_neg hpos.ne'
    rw [hrun]
    refine (ih.pointee hinner false s).congr (fitsIn_map (k := 1) ?_).symm
    cases allowVoid <;>
      simp [NativeTypeName.reach, TypePlace.allowsAggregate, TypePlace.ofElement]
  | _ =>
    have hleaf : type.isLeaf = true := by rw [htype]; rfl
    have hvoid : type ≠ .void := by rw [htype]; simp
    rw [← htype, validatePointee_leaf h hleaf hvoid]
    refine ((ih.layout h hleaf s).bind_pure fun _ _ hfound => hfound.1).congr ?_
    exact (fitsIn_part hleaf hvoid (by cases allowVoid <;> rfl)).symm

theorem leafSpec (hrecords : CarriesRecords decls mod records) (room : Nat) :
    LeafSpec decls mod records room := by
  induction room with
  | zero =>
    constructor <;> intros <;> exact .inr ⟨not_fitsIn_zero, _, rfl⟩
  | succ room ih =>
    refine ⟨fun h hleaf s => layout_leaf_accepts ih h hleaf s, ?_,
      fun h allowVoid s => validatePointee_accepts hrecords ih h allowVoid s⟩
    intro inner carried h s
    obtain ⟨elem, hinner, rfl⟩ := h.shape
    exact ih.pointee hinner true s

end

/-! ## What is returned -/

/-- The completed records of an object have their layouts. -/
def Correct (declarations : NativeDeclarations) (s : NativeLayouts) : Prop :=
  ∀ name found, s.completed.lookup name = some found →
    ∃ level, cLayout declarations level (.record name) = some found.toLayout

/-- What is known when `layout` has returned. -/
structure Returned (declarations : NativeDeclarations) (type : NativeTypeName) (s : NativeLayouts)
    (found : NativeLayout) (s' : NativeLayouts) : Prop where
  correct : Correct declarations s'
  visiting : s'.visiting = s.visiting
  layout : ∃ level, cLayout declarations level type = some found.toLayout

/-- The types for which `layout` returns layouts, with so many levels left. -/
def ReturnsLayouts (declarations : NativeDeclarations) (moduleName : String)
    (layoutInner : Ty → LayoutM NativeLayout) : Prop :=
  ∀ {type carried s found s'}, Carried declarations moduleName type carried →
    Correct declarations s → layoutInner carried s = .ok (found, s') →
    Returned declarations type s found s'

section

variable {layoutInner : Ty → LayoutM NativeLayout} {s s' : NativeLayouts} {found : NativeLayout}
  {carried : Ty}

theorem bind_ok {α β : Type} {x : LayoutM α} {f : α → LayoutM β} {s s' : NativeLayouts} {b : β}
    (h : (x >>= f) s = .ok (b, s')) : ∃ a t, x s = .ok (a, t) ∧ f a t = .ok (b, s') := by
  have hrun : (x s >>= fun p => f p.1 p.2) = .ok (b, s') := h
  obtain ⟨⟨a, t⟩, hx, hf⟩ := bind_eq_ok.mp hrun
  exact ⟨a, t, hx, hf⟩

theorem layoutArray_returns (hinner : ReturnsLayouts decls mod layoutInner)
    {inner : NativeTypeName} {count : Nat}
    (hcarried : Carried decls mod (.fixedArray inner count) carried)
    (hs : Correct decls s) (h : layoutArray layoutInner carried s = .ok (found, s')) :
    Returned decls (.fixedArray inner count) s found s' := by
  obtain ⟨elem, helement, hpos, hlt, rfl⟩ := hcarried.shape
  simp only [layoutArray, if_neg hpos.ne'] at h
  obtain ⟨member, t, hmember, h⟩ := bind_ok h
  have hreturned := hinner helement hs hmember
  obtain ⟨level, hlevel⟩ := hreturned.layout
  have hbounded := cLayout_bounded hlevel
  have hcount : (UInt64.ofNat count).toNat = count := by
    exact Nat.mod_eq_of_lt (by omega)
  split_ifs at h with hlarge
  · cases h
  · cases h
    rw [gt_iff_lt, UInt64.lt_iff_toNat_lt, hcount, not_lt] at hlarge
    have hle : count * member.size.toNat ≤ nativeSizeLimit :=
      (Nat.le_div_iff_mul_le hbounded.size_pos).mp hlarge
    have hsize : (member.size * UInt64.ofNat count).toNat = member.size.toNat * count := by
      unfold nativeSizeLimit at hle
      rw [UInt64.toNat_mul, hcount, Nat.mod_eq_of_lt (by rw [Nat.mul_comm]; omega)]
    refine ⟨hreturned.correct, hreturned.visiting, level + 1, ?_⟩
    refine cLayout_fixedArray.mpr ⟨_, hlevel, arrayLayout_eq_some.mpr ⟨⟨hpos, ?_⟩, ?_⟩⟩
    · rw [Nat.mul_comm]
      exact hle
    · simp [NativeLayout.toLayout, hsize]

theorem layoutMembers_returns (hinner : ReturnsLayouts decls mod layoutInner)
    {fields : List NativeField} {carriedFields : List Field}
    (hfields : List.Forall₂ (fun field carriedField =>
      Carried decls mod field.typeName carriedField.valueType) fields carriedFields)
    (ms : List Layout) (hs : Correct decls s)
    (hresult : res.toLayout = Layout.placeAll isUnion ms) (hsize : res.size.toNat ≤ nativeSizeLimit)
    (h : layoutMembers layoutInner isUnion carriedFields res s = .ok (found, s')) :
    Correct decls s' ∧ s'.visiting = s.visiting ∧ found.size.toNat ≤ nativeSizeLimit ∧
      ∃ rest, List.Forall₂ (fun field member =>
          ∃ level, cLayout decls level field.typeName = some member) fields rest ∧
        found.toLayout = Layout.placeAll isUnion (ms ++ rest) := by
  induction hfields generalizing ms res s with
  | nil =>
    cases h
    exact ⟨hs, rfl, hsize, [], .nil, by rwa [List.append_nil]⟩
  | @cons field carriedField fields carriedFields hfield _ ih =>
    obtain ⟨member, t, hmember, h⟩ := bind_ok h
    have hreturned := hinner hfield hs hmember
    obtain ⟨level, hlevel⟩ := hreturned.layout
    dsimp only at h
    split_ifs at h with hlarge
    · cases h
    have hle : (res.addMember isUnion member).size.toNat ≤ nativeSizeLimit := by
      rw [gt_iff_lt, UInt64.lt_iff_toNat_lt, not_lt] at hlarge
      exact hlarge
    have hplaced : (res.addMember isUnion member).toLayout =
        Layout.placeAll isUnion (ms ++ [member.toLayout]) := by
      rw [toLayout_addMember hsize (cLayout_bounded hlevel), hresult, Layout.placeAll_append]
    obtain ⟨hcorrect, hvisiting, hfound, rest, hrest, heq⟩ := ih _ hreturned.correct hplaced hle h
    refine ⟨hcorrect, hvisiting.trans hreturned.visiting, hfound, member.toLayout :: rest,
      .cons ⟨level, hlevel⟩ hrest, ?_⟩
    rw [heq, List.append_assoc, List.singleton_append]

theorem Correct.complete (hs : Correct decls s) {level : Nat}
    (h : cLayout decls level (.record name) = some found.toLayout) (visiting : List String) :
    Correct decls { completed := (name, found) :: s.completed, visiting := visiting } := by
  intro other found' hlookup
  rw [List.lookup_cons] at hlookup
  by_cases heq : other = name
  · subst heq
    rw [beq_self_eq_true] at hlookup
    cases hlookup
    exact ⟨level, h⟩
  · rw [beq_eq_false_iff_ne.mpr heq] at hlookup
    exact hs other found' hlookup

theorem toLayout_close {ms : List Layout}
    (hmembers : ∀ member ∈ ms, Bounded member)
    (hfound : found.toLayout = Layout.placeAll isUnion ms)
    (hsize : found.size.toNat ≤ nativeSizeLimit) :
    ({ found with size := alignUp found.size found.alignment } : NativeLayout).toLayout =
      (Layout.placeAll isUnion ms).close := by
  have halignment : found.alignment.toNat ∣ 8 := by
    have hdvd := placeAll_alignment_dvd isUnion hmembers
    rw [← hfound] at hdvd
    exact hdvd
  have halign := toNat_alignUp hsize halignment
  rw [← hfound]
  simp [NativeLayout.toLayout, Layout.close, halign]

variable {r : NativeRecord}

theorem layoutRecord_eq (h : declaration records carried = pure r) :
    layoutRecord records layoutInner carried s = match s.completed.lookup r.id.semanticName with
      | some found => .ok (found, s)
      | none => completeRecord layoutInner r s := by
  rw [layoutRecord, h]
  show (match s.completed.lookup r.id.semanticName with
    | some found => pure found
    | none => completeRecord layoutInner r : LayoutM NativeLayout) s = _
  cases s.completed.lookup r.id.semanticName <;> rfl

theorem completeRecord_eq (hfresh : r.id.semanticName ∉ s.visiting)
    (hfields : r.fields ≠ []) : completeRecord layoutInner r s =
      (layoutMembers layoutInner r.isUnion r.fields {} >>= finishRecord r.id.semanticName)
        { s with visiting := r.id.semanticName :: s.visiting } := by
  show (if r.id.semanticName ∈ s.visiting then _ else _ : LayoutM NativeLayout) s = _
  rw [if_neg hfresh]
  show (if r.fields.isEmpty = true then _ else _ : LayoutM NativeLayout) _ = _
  rw [if_neg (by simpa using hfields)]

theorem completeRecord_ok
    (h : completeRecord layoutInner r s = .ok (found, s')) :
    r.id.semanticName ∉ s.visiting ∧ r.fields ≠ [] := by
  have hrun : (if r.id.semanticName ∈ s.visiting then _ else _ : LayoutM NativeLayout) s = _ := h
  by_cases hvisiting : r.id.semanticName ∈ s.visiting
  · rw [if_pos hvisiting] at hrun
    cases hrun
  rw [if_neg hvisiting] at hrun
  refine ⟨hvisiting, ?_⟩
  intro hempty
  rw [hempty] at hrun
  cases hrun

theorem finishRecord_eq : finishRecord name res s =
    if alignUp res.size res.alignment > maximumSize then
      .error { code := .invalidType, message := "Native record exceeds one GiB." }
    else
      .ok ({ res with size := alignUp res.size res.alignment },
        { completed :=
            (name, { res with size := alignUp res.size res.alignment }) :: s.completed
          visiting := s.visiting.erase name }) := by
  rw [finishRecord]
  split_ifs <;> rfl

theorem layoutRecord_returns (hrecords : CarriesRecords decls mod records)
    (hinner : ReturnsLayouts decls mod layoutInner)
    (hcarried : Carried decls mod (.record name) carried) (hs : Correct decls s)
    (h : layoutRecord records layoutInner carried s = .ok (found, s')) :
    Returned decls (.record name) s found s' := by
  obtain ⟨r, carriedRecord, hfind, hr, hdeclaration⟩ :=
    declaration_carried hrecords hcarried
  have hname : carriedRecord.id.semanticName = name := hr.name.trans (findRecord_name hfind)
  rw [layoutRecord_eq hdeclaration, hname] at h
  cases hlookup : s.completed.lookup name with
  | some hit =>
    rw [hlookup] at h
    cases h
    exact ⟨hs, rfl, hs name found hlookup⟩
  | none =>
    rw [hlookup] at h
    obtain ⟨hfresh, hfields⟩ := completeRecord_ok h
    rw [completeRecord_eq hfresh hfields, hname] at h
    obtain ⟨res, t, hmembers, h⟩ := bind_ok h
    have hstart : Correct decls { s with visiting := name :: s.visiting } := hs
    obtain ⟨hcorrect, hvisiting, hsize, ms, hlayouts, hplaced⟩ :=
      layoutMembers_returns hinner hr.fields [] hstart rfl (by decide) hmembers
    obtain ⟨level, hlayouts⟩ := exists_memberLayouts hlayouts
    rw [finishRecord_eq] at h
    split_ifs at h with hlarge
    cases h
    have hclosed := toLayout_close hlayouts.bounded hplaced hsize
    rw [hr.isUnion] at hclosed
    have hne : ms ≠ [] := by
      rintro rfl
      have hnil := hlayouts.length_eq
      have hcarriedNil := hr.fields.length_eq
      rw [hnil] at hcarriedNil
      exact hfields (List.length_eq_zero_iff.mp hcarriedNil.symm)
    have hlayout : cLayout decls (level + 1) (.record name) = some
        ({ res with size := alignUp res.size res.alignment } : NativeLayout).toLayout := by
      refine cLayout_record.mpr ⟨r, ms, hfind, hlayouts, ?_⟩
      refine recordLayoutOf_eq_some.mpr ⟨⟨hne, ?_⟩, hclosed⟩
      rw [← hclosed]
      rw [gt_iff_lt, UInt64.lt_iff_toNat_lt, not_lt] at hlarge
      exact hlarge
    refine ⟨hcorrect.complete hlayout _, ?_, level + 1, hlayout⟩
    rw [hvisiting, List.erase_cons_head]

theorem layout_returns (hrecords : CarriesRecords decls mod records) (room : Nat) :
    ReturnsLayouts decls mod (layout records room) := by
  induction room with
  | zero =>
    intro type carried s found s' _ _ h
    cases h
  | succ room ih =>
    intro type carried s found s' hcarried hs h
    by_cases hleaf : type.isLeaf = true
    · obtain ⟨-, rfl, hlayout⟩ := ((leafSpec hrecords (room + 1)).layout hcarried hleaf s).of_ok h
      exact ⟨hs, rfl, 1, (cLayout_leaf hleaf).trans hlayout⟩
    cases type with
    | fixedArray inner count =>
      refine layoutArray_returns ih hcarried hs ?_
      obtain ⟨elem, -, -, -, rfl⟩ := hcarried.shape
      exact h
    | record name =>
      refine layoutRecord_returns hrecords ih hcarried hs ?_
      rw [hcarried.shape.2] at h ⊢
      exact h
    | _ => exact absurd rfl hleaf

end

end Neri.Codegen
