import Neri.Codegen.NativeModule
import Neri.Codegen.Proofs.NativeLayoutProofs

/-!
# Both sides agree on native records

Where both sides lay a record out, they give it the same size, alignment and offsets. Where the
front end lays all records out, the back end follows exactly if what it looks at is nested less than
128 deep.
-/

namespace Neri.Codegen

open Acceptance AggregateLayout ExceptFold Neri.Ir Neri.Semantic List Option

variable {decls : NativeDeclarations} {mod : String} {records : List NativeRecord}

/-! ## Lowering -/

theorem carriedRecord_of_lowered {r : Semantic.NativeRecord} {lowered : IrNativeRecord}
    (hr : r ∈ decls.records) (h : irLowerNativeRecord mod r = some lowered) :
    CarriedRecord decls mod r (nativeRecord mod lowered) := by
  simp only [irLowerNativeRecord, bind_eq_bind, bind_eq_some_iff, mapM_eq_some_iff] at h
  obtain ⟨fields, hfields, heq⟩ := h
  cases heq
  refine ⟨rfl, rfl, ?_⟩
  have hdeclared : ∀ field ∈ r.fields, ∀ name ∈ field.typeName.recordNames,
      (decls.findRecord name).isSome := by
    intro field hfield name hname
    obtain ⟨target, htarget, rfl⟩ :=
      mem_map.mp (decls.resolved r hr field hfield name hname)
    rw [findRecord_self htarget]
    rfl
  show List.Forall₂ _ r.fields (fields.map (nativeField mod))
  rw [forall₂_map_right_iff]
  refine ((forall₂_and_left _ _).mpr ⟨hdeclared, hfields⟩).imp ?_
  rintro field irField ⟨hnames, hfield⟩
  simp only [irLowerNativeField, bind_eq_bind, bind_eq_some_iff] at hfield
  obtain ⟨irType, hconvert, heq⟩ := hfield
  cases heq
  exact ⟨⟨irType, hconvert, rfl⟩, hnames⟩

/-- The records that the back end reads stand for the declarations, in whatever order. -/
theorem carriesRecords_of_lowered {order : List IrNativeRecord → List IrNativeRecord}
    (horder : ∀ lowered, (order lowered).Perm lowered)
    (h : carriedRecords mod order decls = some records) : CarriesRecords decls mod records := by
  obtain ⟨lowered, hlowered, rfl⟩ := map_eq_some_iff.mp h
  rw [irLowerNativeRecords, mapM_eq_some_iff] at hlowered
  intro name r hfind
  obtain rfl := findRecord_name hfind
  have hr : r ∈ decls.records := mem_of_find?_eq_some hfind
  obtain ⟨irRecord, hmem, hirRecord⟩ := exists_right_of_forall₂ hlowered hr
  have hcarried := carriedRecord_of_lowered hr hirRecord
  have hmodule : ∀ {source irSource}, irLowerNativeRecord mod source = some irSource →
      (nativeRecord mod irSource).id.moduleName = mod := by
    intro source irSource hsource
    simp only [irLowerNativeRecord, bind_eq_bind, bind_eq_some_iff] at hsource
    obtain ⟨fields, -, heq⟩ := hsource
    cases heq
    rfl
  refine ⟨nativeRecord mod irRecord, ?_, hcarried⟩
  refine Lines.find?_eq_some_of_unique
    (mem_map_of_mem ((horder lowered).mem_iff.mpr hmem)) ?_ ?_
  · simp [hmodule hirRecord, hcarried.name]
  · -- another record of the name comes from the same declaration
    intro other hother hname
    obtain ⟨irOther, hmemOther, rfl⟩ := mem_map.mp hother
    obtain ⟨source, hsource, hirOther⟩ :=
      exists_left_of_forall₂ hlowered ((horder lowered).mem_iff.mp hmemOther)
    have hsourceName : source.name = r.name := by
      rw [← (carriedRecord_of_lowered hsource hirOther).name]
      exact beq_iff_eq.mp (Bool.and_eq_true_iff.mp hname).2
    obtain rfl := inj_on_of_nodup_map decls.distinct hsource hr hsourceName
    cases hirRecord.symm.trans hirOther
    rfl

theorem carried_record {name : String} (h : name ∈ decls.records.map (·.name)) :
    Carried decls mod (.record name)
      { tag := .nativeRecord, symbol := some (nativeRecordSymbol mod name) } := by
  obtain ⟨r, hr, rfl⟩ := mem_map.mp h
  refine ⟨⟨.nativeRecord r.name, ?_, ?_⟩, ?_⟩
  · rw [NativeTypeName.convertSemantic, if_neg (decls.named r hr)]
  · rfl
  · intro other hother
    simp only [NativeTypeName.recordNames, mem_singleton] at hother
    rw [hother, findRecord_self hr]
    rfl

/-! ## Depths -/

variable {depth : Nat}

theorem fits_iff {type : NativeTypeName} :
    ({ typeName := type, depth := depth } : Visit).fits = true ↔
      FitsIn .field type (nativeDepthLimit - depth) := by
  unfold Visit.fits FitsIn
  cases type.reach .field with
  | none => simp
  | some levels =>
    simp only [decide_eq_true_eq, some.injEq, exists_eq_left']
    omega

/-- The records that the object has completed are those that were seen. -/
def Seen (s : NativeLayouts) (seen : List String) : Prop :=
  ∀ name, (s.completed.lookup name).isSome ↔ name ∈ seen

variable {seen : List String}

theorem Seen.complete {s : NativeLayouts} (h : Seen s seen) (name : String)
    (found : NativeLayout) (visiting : List String) :
    Seen { completed := (name, found) :: s.completed, visiting := visiting } (name :: seen) := by
  intro other
  rw [mem_cons, ← h other]
  by_cases heq : other = name
  · simp [heq]
  · simp [heq]

/-- A state in which types that have a layout at `level` can be laid out: none of them is being
visited. -/
structure Ready (declarations : NativeDeclarations) (level : Nat) (seen : List String)
    (s : NativeLayouts) : Prop where
  correct : Correct declarations s
  seen : Seen s seen
  visiting : ∀ name ∈ s.visiting, cLayout declarations level (.record name) = none

theorem Ready.lower {level lower : Nat} {s : NativeLayouts}
    (h : Ready decls level seen s) (hle : lower ≤ level) : Ready decls lower seen s := by
  refine ⟨h.correct, h.seen, ?_⟩
  intro name hname
  cases hlower : cLayout decls lower (.record name) with
  | none => rfl
  | some layout =>
    have hhigher := cLayout_mono hle hlower
    rw [h.visiting name hname] at hhigher
    cases hhigher

/-- The back end lays records out as `visitRecord` visits them. -/
def VisitsRecords (declarations : NativeDeclarations) (moduleName : String)
    (records : List NativeRecord) (levels : Nat) : Prop :=
  ∀ {depth level name carried seen s layout'}, nativeDepthLimit ≤ levels + depth →
    depth < nativeDepthLimit → Carried declarations moduleName (.record name) carried →
    cLayout declarations level (.record name) = some layout' →
    Ready declarations level seen s →
    Accepts (layout records (nativeDepthLimit - depth) carried s)
      (∀ visit ∈ (visitRecord declarations levels depth name seen).1, visit.fits = true)
      fun _ s' => Seen s' (visitRecord declarations levels depth name seen).2

/-- What the back end visits in the record that a type holds. -/
def visitHeld (declarations : NativeDeclarations) (levels depth : Nat) (type : NativeTypeName)
    (seen : List String) : List Visit × List String :=
  match type.heldRecord with
  | some (name, arrays) => visitRecord declarations levels (depth + arrays) name seen
  | none => ([], seen)

theorem visitHeld_fixedArray {levels count : Nat} {inner : NativeTypeName}
    : visitHeld decls levels depth (.fixedArray inner count) seen =
      visitHeld decls levels (depth + 1) inner seen := by
  unfold visitHeld
  rw [NativeTypeName.heldRecord]
  cases inner.heldRecord with
  | none => rfl
  | some held =>
    have hdepth : depth + (held.2 + 1) = depth + 1 + held.2 := by omega
    simp [hdepth]

theorem visitHeld_leaf {levels : Nat} {type : NativeTypeName}
    (h : type.isLeaf = true) : visitHeld decls levels depth type seen = ([], seen) := by
  cases type <;> first | rfl | cases h

section

variable {levels depth level : Nat} {type : NativeTypeName} {carried : Ty} {seen : List String}
  {s : NativeLayouts} {layout' : Layout}

theorem room_of_lt (h : depth < nativeDepthLimit) :
    nativeDepthLimit - depth = (nativeDepthLimit - (depth + 1)) + 1 := by
  omega

variable (hrecords : CarriesRecords decls mod records)

include hrecords

theorem accepts_returned {room : Nat} {fits : Prop} (hcarried : Carried decls mod type carried)
    (hlayout : cLayout decls level type = some layout') (hs : Correct decls s)
    (h : Accepts (layout records room carried s) fits fun _ s' => Seen s' seen) :
    Accepts (layout records room carried s) fits fun found s' =>
      Seen s' seen ∧ Returned decls type s found s' ∧ found.toLayout = layout' := by
  rcases h with ⟨hfits, found, s', hok, hseen⟩ | hfail
  · have hreturned := layout_returns hrecords room hcarried hs hok
    obtain ⟨level', hlevel'⟩ := hreturned.layout
    exact .inl ⟨hfits, found, s', hok, hseen, hreturned, cLayout_unique hlevel' hlayout⟩
  · exact .inr hfail

theorem layoutArray_accepts {room count : Nat} {inner : NativeTypeName} {element : Ty}
    {fits : Prop} (hpos : 0 < count) (hlt : count < 2 ^ 32)
    (helement : Carried decls mod inner element)
    (hlayout : cLayout decls (level + 1) (.fixedArray inner count) = some layout')
    (hs : Correct decls s)
    (h : Accepts (layout records room element s) fits fun _ s' => Seen s' seen) :
    Accepts (layout records (room + 1)
      { tag := .fixedArray, arguments := [element], elementCount := count } s) fits
      fun _ s' => Seen s' seen := by
  obtain ⟨inside, hinside, harray⟩ := cLayout_fixedArray.mp hlayout
  obtain ⟨⟨-, hle⟩, -⟩ := arrayLayout_eq_some.mp harray
  have hrun : layout records (room + 1)
      { tag := .fixedArray, arguments := [element], elementCount := count } =
      layoutArray (layout records room)
        { tag := .fixedArray, arguments := [element], elementCount := count } := rfl
  rw [hrun]
  simp only [layoutArray, if_neg hpos.ne']
  refine ((accepts_returned hrecords helement hinside hs h).bind ?_).congr (and_iff_left trivial)
  rintro member s' ⟨hseen, -, rfl⟩
  have hfitting : ¬UInt64.ofNat count > maximumSize / member.size := by
    rw [gt_iff_lt, UInt64.lt_iff_toNat_lt, UInt64.toNat_ofNat', Nat.mod_eq_of_lt (by omega), not_lt]
    refine (Nat.le_div_iff_mul_le (cLayout_bounded hinside).size_pos).mpr ?_
    rw [Nat.mul_comm]
    exact hle
  rw [if_neg hfitting]
  exact .pure hseen

theorem layout_accepts (hvisits : VisitsRecords decls mod records levels)
    (hlevels : nativeDepthLimit ≤ levels + depth) (hcarried : Carried decls mod type carried)
    (hlayout : cLayout decls level type = some layout') (hready : Ready decls level seen s) :
    Accepts (layout records (nativeDepthLimit - depth) carried s)
      (({ typeName := type, depth := depth } : Visit).fits = true ∧
        ∀ visit ∈ (visitHeld decls levels depth type seen).1, visit.fits = true)
      fun _ s' => Seen s' (visitHeld decls levels depth type seen).2 := by
  induction level generalizing type carried depth layout' with
  | zero => cases hlayout
  | succ level ih =>
    by_cases hleaf : type.isLeaf = true
    · rw [visitHeld_leaf hleaf]
      refine (((leafSpec hrecords _).layout hcarried hleaf s).weaken ?_).congr ?_
      · rintro found s' ⟨rfl, -⟩
        exact hready.seen
      · rw [fits_iff]
        simp
    by_cases hdepth : depth < nativeDepthLimit
    · cases type with
      | fixedArray inner count =>
        obtain ⟨element, helement, hpos, hlt, rfl⟩ := hcarried.shape
        obtain ⟨inside, hinside, -⟩ := cLayout_fixedArray.mp hlayout
        have hdeeper : nativeDepthLimit ≤ levels + (depth + 1) := by omega
        have hinner := ih hdeeper helement hinside (hready.lower (Nat.le_succ level))
        rw [room_of_lt hdepth, visitHeld_fixedArray]
        refine (layoutArray_accepts hrecords hpos hlt helement hlayout hready.correct hinner).congr ?_
        rw [fits_iff, fits_iff, room_of_lt hdepth]
        refine and_congr_left fun _ => (fitsIn_map (k := 1) ?_).symm
        simp [NativeTypeName.reach, TypePlace.allowsAggregate, TypePlace.ofElement]
      | record name =>
        refine (hvisits hlevels hdepth hcarried hlayout hready).congr ?_
        rw [fits_iff]
        exact (and_iff_right ⟨0, rfl, by omega⟩).symm
      | _ => exact absurd rfl hleaf
    · -- too deep: there is no room, and the type does not fit
      have hroom : nativeDepthLimit - depth = 0 := by omega
      rw [hroom]
      refine .inr ⟨?_, _, rfl⟩
      rw [fits_iff, hroom]
      exact fun h => not_fitsIn_zero h.1

theorem layoutMembers_accepts (hvisits : VisitsRecords decls mod records levels)
    (hlevels : nativeDepthLimit ≤ levels + (depth + 1)) {isUnion : Bool}
    {fields : List NativeField} {carriedFields : List Field}
    (hfields : List.Forall₂ (fun field carriedField =>
      Carried decls mod field.typeName carriedField.valueType) fields carriedFields)
    {placed rest : List Layout} {res : NativeLayout} (hrest : MemberLayouts decls level fields rest)
    (hresult : res.toLayout = Layout.placeAll isUnion placed)
    (hsize : (Layout.placeAll isUnion (placed ++ rest)).size ≤ nativeSizeLimit)
    (hready : Ready decls level seen s) :
    Accepts (layoutMembers (layout records (nativeDepthLimit - (depth + 1))) isUnion carriedFields
        res s) (∀ visit ∈ (visitFields (visitRecord decls levels) depth fields seen).1,
        visit.fits = true)
      fun found s' => found.toLayout = Layout.placeAll isUnion (placed ++ rest) ∧ Ready decls level
          (visitFields (visitRecord decls levels) depth fields seen).2 s' ∧
        s'.visiting = s.visiting := by
  induction hfields generalizing placed rest res s seen with
  | nil =>
    cases hrest
    refine .inl ⟨by simp [visitFields], res, s, rfl, ?_, hready, rfl⟩
    rwa [append_nil]
  | @cons field carriedField fields carriedFields hfield _ ih =>
    cases hrest with
    | @cons _ member _ rest hmember hrest =>
    have hassoc : placed ++ member :: rest = placed ++ [member] ++ rest := by simp
    rw [hassoc] at hsize ⊢
    -- the size only grows, so it stays below the limit if it does at the end
    have hmono : (Layout.placeAll isUnion (placed ++ [member])).size ≤ nativeSizeLimit :=
      (Layout.size_le_placeAll_append isUnion _ rest).trans hsize
    have hwhole : res.size.toNat ≤ nativeSizeLimit := by
      have hle := Layout.size_le_placeAll_append isUnion placed [member]
      rw [← hresult] at hle
      exact hle.trans hmono
    have hheld : (visitFields (visitRecord decls levels) depth (field :: fields) seen) =
        (({ typeName := field.typeName, depth := depth + 1 } : Visit) ::
            (visitHeld decls levels (depth + 1) field.typeName seen).1 ++
            (visitFields (visitRecord decls levels) depth fields
              (visitHeld decls levels (depth + 1) field.typeName seen).2).1,
          (visitFields (visitRecord decls levels) depth fields
            (visitHeld decls levels (depth + 1) field.typeName seen).2).2) := by
      rw [visitFields]
      unfold visitHeld
      cases field.typeName.heldRecord <;> rfl
    have hfirst := accepts_returned hrecords hfield hmember hready.correct
      (layout_accepts hrecords hvisits hlevels hfield hmember hready)
    rw [hheld]
    refine Accepts.congr (c := _ ∧ ∀ visit ∈ (visitFields (visitRecord decls levels) depth
      fields (visitHeld decls levels (depth + 1) field.typeName seen).2).1,
        visit.fits = true) (hfirst.bind ?_) ?_
    · rintro found s' ⟨hseen, hreturned, rfl⟩
      have hplaced : (res.addMember isUnion found).toLayout =
          Layout.placeAll isUnion (placed ++ [found.toLayout]) := by
        rw [toLayout_addMember hwhole (cLayout_bounded hmember), hresult, Layout.placeAll_append]
      have hsmall : ¬(res.addMember isUnion found).size > maximumSize := by
        rw [gt_iff_lt, UInt64.lt_iff_toNat_lt, not_lt]
        have hlayoutSize := congrArg Layout.size hplaced
        rw [← hlayoutSize] at hmono
        exact hmono
      rw [if_neg hsmall]
      have hready' : Ready decls level
          (visitHeld decls levels (depth + 1) field.typeName seen).2 s' :=
        ⟨hreturned.correct, hseen, hreturned.visiting ▸ hready.visiting⟩
      refine (ih hrest hplaced hsize hready').weaken ?_
      rintro final t ⟨hfinal, hreadyFinal, hvisiting⟩
      exact ⟨hfinal, hreadyFinal, hvisiting.trans hreturned.visiting⟩
    · simp only [cons_append, forall_mem_cons, forall_mem_append, and_assoc]

theorem visitsRecords (levels : Nat) : VisitsRecords decls mod records levels := by
  induction levels with
  | zero =>
    intro depth level name carried seen s layout' hlevels hdepth
    omega
  | succ levels ih =>
    intro depth level name carried seen s layout' hlevels hdepth hcarried hlayout hready
    obtain ⟨r, carriedRecord, hfind, hr, hdeclaration⟩ :=
      declaration_carried hrecords hcarried
    have hname : carriedRecord.id.semanticName = name := hr.name.trans (findRecord_name hfind)
    have hrun : layout records (nativeDepthLimit - (depth + 1) + 1) carried =
        layoutRecord records (layout records (nativeDepthLimit - (depth + 1))) carried := by
      rw [hcarried.shape.2]
      rfl
    rw [room_of_lt hdepth, hrun, layoutRecord_eq hdeclaration, hname, visitRecord]
    by_cases hmem : name ∈ seen
    · obtain ⟨found, hfound⟩ := isSome_iff_exists.mp ((hready.seen name).mpr hmem)
      rw [if_pos hmem, hfound]
      exact .inl ⟨by simp, found, s, rfl, hready.seen⟩
    have hlookup : s.completed.lookup name = none := by
      rw [← not_isSome_iff_eq_none]
      exact fun h => hmem ((hready.seen name).mp h)
    rw [if_neg hmem, hlookup, hfind]
    -- at its least level the record has no layout one level below, so it does not hold itself
    obtain ⟨least, hlt, hnone, hleast⟩ := cLayout_least hlayout
    obtain ⟨record', members, hfind', hmembers, hrecordLayout⟩ := cLayout_record.mp hleast
    cases hfind.symm.trans hfind'
    obtain ⟨⟨hne, hclosed⟩, -⟩ := recordLayoutOf_eq_some.mp hrecordLayout
    have hfresh : carriedRecord.id.semanticName ∉ s.visiting := by
      intro hvisiting
      rw [hname] at hvisiting
      rw [hready.visiting name hvisiting] at hlayout
      cases hlayout
    have hfields : carriedRecord.fields ≠ [] := by
      intro hnil
      have hlength := hr.fields.length_eq
      have hmembersLength := hmembers.length_eq
      rw [hlength, hnil] at hmembersLength
      exact hne (length_eq_zero_iff.mp hmembersLength.symm)
    rw [completeRecord_eq hfresh hfields, hname, hr.isUnion]
    have hready' : Ready decls least seen { s with visiting := name :: s.visiting } := by
      refine ⟨hready.correct, hready.seen, ?_⟩
      intro other hother
      rcases mem_cons.mp hother with rfl | hother
      · exact hnone
      · exact (hready.lower hlt.le).visiting other hother
    have hsize : (Layout.placeAll r.unionType ([] ++ members)).size ≤ nativeSizeLimit :=
      (Layout.size_le_close (placeAll_alignment_pos _ hmembers.bounded)).trans hclosed
    have hdeeper : nativeDepthLimit ≤ levels + (depth + 1) := by omega
    refine ((layoutMembers_accepts hrecords ih hdeeper hr.fields hmembers rfl hsize
      hready').bind ?_).congr (and_iff_left trivial)
    rintro found t ⟨hfound, hreadyAfter, -⟩
    have hfoundSize : found.size.toNat ≤ nativeSizeLimit := by
      rw [← hfound] at hsize
      exact hsize
    have hsmall : ¬alignUp found.size found.alignment > maximumSize := by
      rw [gt_iff_lt, UInt64.lt_iff_toNat_lt, not_lt]
      rw [← toLayout_close hmembers.bounded hfound hfoundSize] at hclosed
      exact hclosed
    rw [finishRecord_eq, if_neg hsmall]
    exact .inl ⟨trivial, _, _, rfl, hreadyAfter.seen.complete name _ _⟩

theorem layoutEach_accepts {names : List String}
    (hnames : ∀ name ∈ names, name ∈ decls.records.map (·.name) ∧
      ∃ level layout, cLayout decls level (.record name) = some layout)
    (hcorrect : Correct decls s) (hseen : Seen s seen) (hvisiting : s.visiting = []) :
    Accepts (layoutEach records (names.map (nativeRecordSymbol mod)) s)
      (∀ visit ∈ visitEach decls names seen, visit.fits = true) fun _ _ => True := by
  induction names generalizing s seen with
  | nil => exact .inl ⟨by simp [visitEach], [], s, rfl, trivial⟩
  | cons name names ih =>
    obtain ⟨hname, level, layout', hlayout⟩ := hnames name mem_cons_self
    have hcarried : Carried decls mod (.record name) _ := carried_record hname
    have hready : Ready decls level seen s :=
      ⟨hcorrect, hseen, by rw [hvisiting]; exact fun _ h => nomatch h⟩
    have hdepth : 0 < nativeDepthLimit := by decide
    have hfirst := accepts_returned hrecords hcarried hlayout hcorrect
      (visitsRecords hrecords nativeDepthLimit (Nat.le_add_right _ 0) hdepth hcarried hlayout hready)
    rw [visitEach]
    refine Accepts.congr (c := _ ∧ ∀ visit ∈ visitEach decls names
      (visitRecord decls nativeDepthLimit 0 name seen).2, visit.fits = true)
      (hfirst.bind ?_) ?_
    · rintro found s' ⟨hseen', hreturned, -⟩
      refine (ih (fun name h => hnames name (mem_cons_of_mem _ h)) hreturned.correct hseen'
        (hreturned.visiting.trans hvisiting)).bind_pure ?_
      exact fun _ _ _ => trivial
    · simp only [forall_mem_append]

theorem layoutEach_returns {names : List String}
    (hnames : ∀ name ∈ names, name ∈ decls.records.map (·.name)) {s' : NativeLayouts}
    {layouts : List NativeLayout} (hs : Correct decls s)
    (h : layoutEach records (names.map (nativeRecordSymbol mod)) s = .ok (layouts, s')) :
    List.Forall₂ (fun name found =>
      ∃ level, cLayout decls level (.record name) = some found.toLayout) names layouts := by
  induction names generalizing s layouts with
  | nil =>
    cases h
    exact .nil
  | cons name names ih =>
    obtain ⟨found, t, hfound, h⟩ := bind_ok h
    obtain ⟨others, t', hothers, h⟩ := bind_ok h
    cases h
    have hreturned := layout_returns hrecords 128 (carried_record (hnames name mem_cons_self))
      hs hfound
    exact .cons hreturned.layout
      (ih (fun name h => hnames name (mem_cons_of_mem _ h)) hreturned.correct hothers)

end

/-! ## The two sides -/

section

variable {proceed : Nat → Bool} {order : List IrNativeRecord → List IrNativeRecord}
  {names : List String}

/-- The front end holds the layout that the back end found. -/
def Agree (record : RecordLayout) (found : NativeLayout) : Prop :=
  found.size.toNat = record.size ∧ found.alignment.toNat = record.alignment ∧
    found.offsets.map UInt64.toNat = record.offsets

def sampleShape : Semantic.NativeRecord where
  name := "Shape"
  unionType := false
  fields :=
    [{ name := "tag", typeName := .numeric .byte },
     { name := "points", typeName := .fixedArray (.record "Point") 3 },
     { name := "next", typeName := .optional (.pointer (.record "Shape")) }]

def samplePoint : Semantic.NativeRecord where
  name := "Point"
  unionType := false
  fields :=
    [{ name := "x", typeName := .numeric .int32 }, { name := "y", typeName := .bool },
     { name := "z", typeName := .numeric .float }]

def sampleWord : Semantic.NativeRecord where
  name := "Word"
  unionType := true
  fields :=
    [{ name := "whole", typeName := .numeric .uint64 },
     { name := "halves", typeName := .fixedArray (.numeric .uint32) 2 }]

/-- A record with an array of records and a pointer to itself, and a union. -/
def sampleDeclarations : NativeDeclarations where
  records := [sampleShape, samplePoint, sampleWord]
  named := by decide
  distinct := by decide
  resolved := by decide

/-- Where `layoutNativeRecord` accepts a record, at any depth and after any other records were laid
out, and the back end returns a layout of it, both have the same size, the same alignment and the same
offset for every field. -/
theorem backEndLayouts_agree (proceed : Nat → Bool) (declarations : NativeDeclarations)
    (moduleName : String) (order : List IrNativeRecord → List IrNativeRecord)
    (horder : ∀ lowered, (order lowered).Perm lowered) (records : List Semantic.NativeRecord)
    (hrecords : records ⊆ declarations.records) (layouts : List NativeLayout)
    (h : backEndLayouts moduleName order declarations (records.map (·.name)) = some layouts) :
    List.Forall₂ (fun record found => ∀ earlier ⊆ declarations.records, ∀ depth,
        let before := (layoutNativeRecords proceed declarations earlier {}).2
        let laidOut := layoutNativeRecord proceed declarations record depth before
        laidOut.1 = true → Agree (laidOut.2.layouts record.name) found) records layouts := by
  unfold backEndLayouts at h
  cases hcarried : carriedRecords moduleName order declarations with
  | none => rw [hcarried] at h; cases h
  | some carried =>
    rw [hcarried] at h
    dsimp only at h
    cases hrun : layoutEach carried ((records.map (·.name)).map (nativeRecordSymbol moduleName)) {} with
    | error e => rw [hrun] at h; cases h
    | ok res =>
      rw [hrun] at h
      cases h
      have hempty : Correct declarations {} := fun _ _ h => nomatch h
      have hcarries := carriesRecords_of_lowered horder hcarried
      have hnames : ∀ name ∈ records.map (·.name), name ∈ declarations.records.map (·.name) :=
        fun _ => (map_subset _ hrecords ·)
      have hreturned := layoutEach_returns hcarries hnames hempty hrun
      rw [forall₂_map_left_iff] at hreturned
      refine ((forall₂_and_left _ _).mpr ⟨fun _ => (hrecords ·), hreturned⟩).imp ?_
      rintro record found ⟨hrecord, level, hlevel⟩ earlier hearlier depth before laidOut haccepts
      have hsound : Sound declarations before := layoutNativeRecords_sound
        (fun _ hmem => findRecord_self (hearlier hmem)) sound_start
      obtain ⟨level', hlevel'⟩ := layoutNativeRecord_holds hsound hrecord depth haccepts
      have heq := cLayout_unique hlevel hlevel'
      exact ⟨congrArg Layout.size heq, congrArg Layout.alignment heq, congrArg Layout.offsets heq⟩

/-- The front end lays `Shape` out after `Word`, and `Point` on the way. -/
def sampleLaidOut : Bool × NativeBinder :=
  layoutNativeRecord (fun _ => true) sampleDeclarations sampleShape 0
    (layoutNativeRecords (fun _ => true) sampleDeclarations [sampleWord] {}).2

theorem backEndLayouts_agree_sample : sampleLaidOut.1 = true ∧
    Agree (sampleLaidOut.2.layouts sampleShape.name)
      { size := 64, alignment := 8, offsets := [0, 8, 56] } := by
  have haccepts : sampleLaidOut.1 = true := by decide +kernel
  have hlayouts : backEndLayouts "main" reverse sampleDeclarations
      ([sampleShape].map (·.name)) =
        some [{ size := 64, alignment := 8, offsets := [0, 8, 56] }] := by decide +kernel
  have hagree := backEndLayouts_agree (fun _ => true) sampleDeclarations "main" reverse
    reverse_perm [sampleShape] (by simp [sampleDeclarations]) _ hlayouts
  rw [forall₂_cons] at hagree
  exact ⟨haccepts, hagree.1 [sampleWord] (by simp [sampleDeclarations]) 0 haccepts⟩

/-- The declarations get to the back end exactly if each type of a field has a form there. -/
theorem carriedRecords_eq_some_iff (mod : String)
    (order : List IrNativeRecord → List IrNativeRecord) :
    (∃ records, carriedRecords mod order decls = some records) ↔
      ∀ r ∈ decls.records, ∀ field ∈ r.fields, field.typeName.convertSemantic.isSome = true := by
  have hfield : ∀ r field, (irLowerNativeField mod r field).isSome =
      field.typeName.convertSemantic.isSome := by
    intro r field
    unfold irLowerNativeField
    cases field.typeName.convertSemantic <;> rfl
  have hr : ∀ r, (irLowerNativeRecord mod r).isSome = true ↔
      ∀ field ∈ r.fields, field.typeName.convertSemantic.isSome = true := by
    intro r
    simp only [← hfield r, ← mapM_isSome_iff, irLowerNativeRecord]
    cases r.fields.mapM (irLowerNativeField mod r) <;> simp
  rw [← isSome_iff_exists, carriedRecords, isSome_map, irLowerNativeRecords, mapM_isSome_iff]
  exact forall₂_congr fun r _ => hr r

/-- A record that the front end lays out has a layout. -/
theorem exists_cLayout_of_laysOut (h : laysOut proceed decls = true) {name : String}
    (hname : name ∈ decls.records.map (·.name)) :
    ∃ level layout, cLayout decls level (.record name) = some layout := by
  obtain ⟨r, hr, rfl⟩ := mem_map.mp hname
  have hall := (Bool.and_eq_true_iff.mp h).2
  have hcomplete := beq_iff_eq.mp (all_eq_true.mp hall r hr)
  obtain ⟨level, hlevel⟩ := (registerNativeRecordFields_sound proceed r.name).complete hcomplete
  exact ⟨level, _, hlevel⟩

/-- Where the front end lays all records out without a report, one object of the back end lays
records of them out in turn exactly if the types get there and every field that is visited fits:
what the back end looks at for it is nested less than 128 deep. -/
theorem backEndLayouts_isSome_iff (proceed : Nat → Bool) (declarations : NativeDeclarations)
    (h : laysOut proceed declarations = true) (moduleName : String)
    (order : List IrNativeRecord → List IrNativeRecord)
    (horder : ∀ lowered, (order lowered).Perm lowered) (names : List String)
    (hnames : ∀ name ∈ names, name ∈ declarations.records.map (·.name)) :
    (backEndLayouts moduleName order declarations names).isSome = true ↔
      (∀ r ∈ declarations.records, ∀ field ∈ r.fields,
        field.typeName.convertSemantic.isSome = true) ∧
      ∀ visit ∈ visitEach declarations names [], visit.fits = true := by
  rw [← carriedRecords_eq_some_iff moduleName order]
  unfold backEndLayouts
  cases hcarried : carriedRecords moduleName order declarations with
  | none => simp
  | some records =>
    have hrecords := carriesRecords_of_lowered horder hcarried
    have hempty : Correct declarations {} := fun _ _ h => nomatch h
    have hseen : Seen {} [] := fun _ => by simp
    have haccepts := layoutEach_accepts hrecords
      (fun name hname => ⟨hnames name hname, exists_cLayout_of_laysOut h (hnames name hname)⟩)
      hempty hseen rfl
    rw [← haccepts.isOk_iff]
    dsimp only
    cases layoutEach records (names.map (nativeRecordSymbol moduleName)) {} <;> simp

theorem backEndLayouts_isSome_sample :
    (backEndLayouts "main" reverse sampleDeclarations ["Word", "Shape"]).isSome = true ↔
      (∀ r ∈ sampleDeclarations.records, ∀ field ∈ r.fields,
        field.typeName.convertSemantic.isSome = true) ∧
      ∀ visit ∈ visitEach sampleDeclarations ["Word", "Shape"] [], visit.fits = true :=
  backEndLayouts_isSome_iff (fun _ => true) sampleDeclarations (by decide +kernel) "main"
    reverse reverse_perm ["Word", "Shape"] (by decide)

/-- `Int` behind so many stars. -/
def starredInt : Nat → NativeTypeName
  | 0 => .numeric .int
  | stars + 1 => .pointer (starredInt stars)

/-- A record with one field, an array of one pointer with 43 stars. -/
def starredDeclarations : NativeDeclarations where
  records :=
    [{ name := "Deep", unionType := false
       fields := [{ name := "value", typeName := .fixedArray (starredInt 43) 1 }] }]
  named := by decide
  distinct := by decide
  resolved := by decide

/-- The front end does not count the stars and lays the record out; the back end needs three levels
for each of them and rejects it. -/
theorem starred_rejected : laysOut (fun _ => true) starredDeclarations = true ∧
    backEndLayouts "main" id starredDeclarations ["Deep"] = none ∧
    (carriedRecords "main" id starredDeclarations).map (fun records =>
      layoutEach records [nativeRecordSymbol "main" "Deep"] {}) = some (.error
          { code := .invalidType, message := "Native layout exceeds 128 nested types." }) := by
  decide +kernel

end

end Neri.Codegen
