import Neri.Lib.Lines
import Neri.Semantic.Proofs.NativeAbiProofs

/-!
# The front end's layouts are the layouts of native types

While records are laid out, a record that is not pending keeps its size, its alignment and its
offsets through every nested layout, and a complete record holds its layout. From these two facts the
functions that call each other are followed by induction on the levels that are left.
-/

namespace Neri.Semantic

open AggregateLayout

variable {decls : NativeDeclarations} {proceed : Nat → Bool}

/-! ## States of the binder -/

def RecordLayout.held (record : RecordLayout) : Layout :=
  { size := record.size, alignment := record.alignment, offsets := record.offsets }

/-- A record that was not begun holds nothing, and a complete one its layout. -/
structure HoldsLayout (declarations : NativeDeclarations) (name : String) (record : RecordLayout) :
    Prop where
  pending : record.layoutState = .pending → record.held = Layout.empty
  complete : record.layoutState = .complete →
    ∃ level, cLayout declarations level (.record name) = some record.held

def Sound (declarations : NativeDeclarations) (binder : NativeBinder) : Prop :=
  ∀ name, HoldsLayout declarations name (binder.layouts name)

/-- Later states agree on the records that were begun, and do not complete them. -/
def Later (before after : NativeBinder) : Prop :=
  ∀ name, (before.layouts name).layoutState ≠ .pending →
    (after.layouts name).layoutState ≠ .pending ∧
    (after.layouts name).held = (before.layouts name).held ∧
    ((after.layouts name).layoutState = .complete → (before.layouts name).layoutState = .complete)

theorem Later.refl (nb : NativeBinder) : Later nb nb :=
  fun _ h => ⟨h, rfl, id⟩

theorem Later.trans {first second third : NativeBinder} (h : Later first second)
    (h' : Later second third) : Later first third := by
  intro name hname
  obtain ⟨hpending, hheld, hcomplete⟩ := h name hname
  obtain ⟨hpending', hheld', hcomplete'⟩ := h' name hpending
  exact ⟨hpending', hheld'.trans hheld, fun hdone => hcomplete (hcomplete' hdone)⟩

def NativeBinder.setRecord (binder : NativeBinder) (name : String) (record : RecordLayout) :
    NativeBinder :=
  { binder with layouts := Function.update binder.layouts name record }

@[simp] theorem setRecord_layouts_self (nb : NativeBinder) (name : String)
    (record : RecordLayout) : (nb.setRecord name record).layouts name = record :=
  Function.update_self ..

variable {name : String}

theorem setRecord_layouts_of_ne (nb : NativeBinder) (record : RecordLayout)
    {other : String} (h : other ≠ name) :
    (nb.setRecord name record).layouts other = nb.layouts other :=
  Function.update_of_ne h ..

variable {nb : NativeBinder}

theorem Sound.setRecord {record : RecordLayout}
    (h : Sound decls nb) (hbegun : record.layoutState ≠ .pending)
    (hcomplete : record.layoutState = .complete →
      ∃ level, cLayout decls level (.record name) = some record.held) :
    Sound decls (nb.setRecord name record) := by
  intro other
  by_cases heq : other = name
  · subst heq
    rw [setRecord_layouts_self]
    exact ⟨fun hpending => absurd hpending hbegun, hcomplete⟩
  · rw [setRecord_layouts_of_ne _ _ heq]
    exact h other

/-- A record that was pending at the start may be changed in any way. -/
theorem Later.setRecord {start : NativeBinder} (record : RecordLayout)
    (h : Later start nb) (hpending : (start.layouts name).layoutState = .pending) :
    Later start (nb.setRecord name record) := by
  intro other hother
  have hne : other ≠ name := fun heq => hother (heq ▸ hpending)
  rw [setRecord_layouts_of_ne _ _ hne]
  exact h other hother

theorem Later.fail {start : NativeBinder} (name : String) (h : Later start nb) :
    Later start (nb.setRecord name { nb.layouts name with layoutState := .failed }) := by
  intro other hother
  by_cases heq : other = name
  · subst heq
    rw [setRecord_layouts_self]
    exact ⟨LayoutState.noConfusion, (h other hother).2.1, LayoutState.noConfusion⟩
  · rw [setRecord_layouts_of_ne _ _ heq]
    exact h other hother

/-! ## Computations -/

/-- A sound state that a computation gets to from `start`. -/
structure Reached (declarations : NativeDeclarations) (start binder : NativeBinder) : Prop where
  sound : Sound declarations binder
  later : Later start binder

theorem Sound.reached (h : Sound decls nb) : Reached decls nb nb :=
  ⟨h, .refl nb⟩

/-- How a computation that began in `start` ends. -/
structure Ends {α : Type} (declarations : NativeDeclarations) (start : NativeBinder)
    (result : α × NativeBinder) (post : α → NativeBinder → Prop) : Prop
    extends Reached declarations start result.2 where
  holds : post result.1 result.2

section

variable {α β : Type} {start nb : NativeBinder} {P : α → NativeBinder → Prop}
  {Q : β → NativeBinder → Prop}

theorem Ends.bind {x : BinderM α} {f : α → BinderM β} (h : Ends decls start (x nb) P)
    (hnext : ∀ v after, Reached decls start after → P v after →
      Ends decls start (f v after) Q) : Ends decls start ((x >>= f) nb) Q :=
  hnext _ _ h.toReached h.holds

theorem Ends.after {res : α × NativeBinder} (h : Ends decls nb res P)
    (hlater : Later start nb) : Ends decls start res P :=
  ⟨⟨h.sound, hlater.trans h.later⟩, h.holds⟩

theorem Ends.weaken {res : α × NativeBinder} {P' : α → NativeBinder → Prop}
    (h : Ends decls start res P) (hP : ∀ v after, P v after → P' v after) :
    Ends decls start res P' :=
  ⟨h.toReached, hP _ _ h.holds⟩

theorem Ends.ite {test : Prop} [Decidable test] {x y : BinderM α}
    (hx : test → Ends decls start (x nb) P) (hy : ¬test → Ends decls start (y nb) P) :
    Ends decls start ((if test then x else y) nb) P := by
  split
  · exact hx ‹_›
  · exact hy ‹_›

theorem recordLayout_bind (name : String) (f : RecordLayout → BinderM β) :
    (recordLayout name >>= f) nb = f (nb.layouts name) nb :=
  rfl

theorem updateRecord_bind (name : String) (change : RecordLayout → RecordLayout)
    (f : Unit → BinderM β) : (updateRecord name change >>= f) nb =
      f () (nb.setRecord name (change (nb.layouts name))) :=
  rfl

theorem setLayoutState_bind (name : String) (state : LayoutState) (f : Unit → BinderM β) :
    (setLayoutState name state >>= f) nb =
      f () (nb.setRecord name { nb.layouts name with layoutState := state }) :=
  rfl

variable (hreached : Reached decls start nb)

include hreached

theorem Ends.pure {v : α} (h : P v nb) : Ends decls start ((Pure.pure v : BinderM α) nb) P :=
  ⟨hreached, h⟩

/-- Reports and checkpoints change no layout. -/
theorem Ends.of_layouts {after : NativeBinder} {v : α} (heq : after.layouts = nb.layouts)
    (h : P v after) : Ends decls start (v, after) P := by
  refine ⟨⟨?_, ?_⟩, h⟩
  · simpa only [Sound, heq] using hreached.sound
  · simpa only [Later, heq] using hreached.later

theorem checkpoint_ends (proceed : Nat → Bool) :
    Ends decls start (checkpoint proceed nb) fun _ after => after.layouts = nb.layouts :=
  .of_layouts hreached rfl rfl

theorem fail_ends {v : β} (name : String) (h : ∀ after, Q v after) :
    Ends decls start ((do setLayoutState name .failed; Pure.pure v) nb) Q :=
  ⟨⟨hreached.sound.setRecord (by simp) (by simp), hreached.later.fail name⟩, h _⟩

theorem report_none_ends {code message : String} {node : Int} {v : β} (h : ∀ after, Q v after) :
    Ends decls start ((do report code node message; Pure.pure v) nb) Q :=
  .of_layouts hreached rfl (h _)

theorem report_fail_ends {code message : String} {node : Int} {v : β} (name : String)
    (h : ∀ after, Q v after) :
    Ends decls start ((do
      report code node message
      setLayoutState name .failed
      Pure.pure v) nb) Q :=
  (report_none_ends hreached fun _ => trivial : Ends decls start _ fun _ _ => True).bind
    fun _ _ hreached _ => fail_ends hreached name h

end

/-! ## Specifications -/

/-- What an alignment says about its type. -/
structure AlignmentFound (declarations : NativeDeclarations) (type : NativeTypeName)
    (alignment : Nat) (binder : NativeBinder) : Prop where
  agrees : ∀ level layout, cLayout declarations level type = some layout →
    layout.alignment = alignment
  leaf : type.isLeaf = true →
    type.leafLayout = some { size := alignment, alignment := alignment, offsets := [] }
  record : ∀ name, type = .record name → (binder.layouts name).layoutState = .complete

/-- An alignment that is not zero is the type's. -/
def FindsAlignment (declarations : NativeDeclarations) (type : NativeTypeName) (alignment : Nat)
    (binder : NativeBinder) : Prop :=
  alignment ≠ 0 → AlignmentFound declarations type alignment binder

/-- A size that is not zero is the type's. -/
def FindsSize (declarations : NativeDeclarations) (type : NativeTypeName) (size : Nat) : Prop :=
  size ≠ 0 → ∃ level layout, cLayout declarations level type = some layout ∧ layout.size = size

/-- The functions of one depth find what `cLayout` gives, or zero. -/
structure TypeLayouts.Finds (declarations : NativeDeclarations) (layouts : TypeLayouts) : Prop where
  alignment : ∀ type node nb, Sound declarations nb →
    Ends declarations nb (layouts.nativeTypeAlignment type node nb)
      (FindsAlignment declarations type)
  size : ∀ type node nb, Sound declarations nb →
    Ends declarations nb (layouts.nativeTypeSize type node nb)
      fun size _ => FindsSize declarations type size

/-! ## The fields of a record -/

theorem held_addField {unionType : Bool} {record : RecordLayout} {member : Layout}
    (h : Bounded member) : (record.addField unionType member.alignment member.size).held =
      Layout.place unionType record.held member := by
  have hmax : ∀ a b : Nat, (if b > a then b else a) = max a b := by
    intro a b
    split_ifs <;> omega
  cases unionType with
  | true =>
    simp [RecordLayout.addField, RecordLayout.held, Layout.place, Layout.nextOffset, hmax]
  | false =>
    have hle : record.size ≤ alignUp record.size member.alignment := le_alignUp h.alignment_pos
    simp only [alignUp] at hle
    simp [RecordLayout.addField, RecordLayout.held, Layout.place, Layout.nextOffset, hmax,
      nativeAlign, alignUp]
    omega

section

variable {start nb after : NativeBinder} {record : NativeRecord} {ms : List Layout}

/-- A record while its fields are laid out: it was pending at the start, and holds the members that
were placed. -/
structure Placing (start binder : NativeBinder) (record : NativeRecord) (members : List Layout) :
    Prop where
  fresh : (start.layouts record.name).layoutState = .pending
  begun : (binder.layouts record.name).layoutState ≠ .pending
  unfinished : (binder.layouts record.name).layoutState ≠ .complete
  held : (binder.layouts record.name).held = Layout.placeAll record.unionType members

theorem Placing.later (h : Placing start nb record ms) (hlater : Later nb after) :
    Placing start after record ms := by
  obtain ⟨hbegun, hheld, hcomplete⟩ := hlater record.name h.begun
  exact ⟨h.fresh, hbegun, fun hdone => h.unfinished (hcomplete hdone), hheld.trans h.held⟩

theorem Later.of_layouts (h : after.layouts = nb.layouts) : Later nb after := by
  intro name hname
  rw [h]
  exact ⟨hname, rfl, id⟩

theorem Placing.nested {α : Type} {res : α × NativeBinder} {P : α → NativeBinder → Prop}
    (h : Placing start nb record ms) (hreached : Reached decls start nb)
    (hends : Ends decls nb res P) : Ends decls start res fun v after =>
      P v after ∧ Placing start after record ms :=
  ⟨⟨hends.sound, hreached.later.trans hends.later⟩, hends.holds, h.later hends.later⟩

theorem Placing.place {member : Layout} (h : Placing start nb record ms)
    (hmember : Bounded member) :
    Placing start (nb.setRecord record.name ((nb.layouts record.name).addField
      record.unionType member.alignment member.size)) record (ms ++ [member]) := by
  have hstate : ((nb.layouts record.name).addField record.unionType member.alignment
      member.size).layoutState = (nb.layouts record.name).layoutState := by
    unfold RecordLayout.addField
    dsimp only
    split <;> rfl
  refine ⟨h.fresh, ?_, ?_, ?_⟩ <;> rw [setRecord_layouts_self]
  · exact hstate ▸ h.begun
  · exact hstate ▸ h.unfinished
  · rw [held_addField hmember, h.held, Layout.placeAll_append]

/-- A record that is being laid out may change. -/
theorem Placing.reached {layout : RecordLayout} (hreached : Reached decls start nb)
    (h : Placing start (nb.setRecord record.name layout) record ms) :
    Reached decls start (nb.setRecord record.name layout) := by
  have hbegun := h.begun
  have hopen := h.unfinished
  rw [setRecord_layouts_self] at hbegun hopen
  exact ⟨hreached.sound.setRecord hbegun fun hdone => absurd hdone hopen,
    hreached.later.setRecord layout h.fresh⟩

/-- What the loop over the fields has found when it gets to their end. -/
def Placed (declarations : NativeDeclarations) (start after : NativeBinder) (record : NativeRecord)
    (members : List Layout) (fields : List NativeField) : Prop :=
  ∃ rest, List.Forall₂ (fun field member =>
      ∃ level, cLayout declarations level field.typeName = some member) fields rest ∧
    Placing start after record (members ++ rest)

theorem layoutFields_ends {layouts : TypeLayouts} (hlayouts : layouts.Finds decls)
    (fields : List NativeField) (hreached : Reached decls start nb)
    (hplacing : Placing start nb record ms) :
    Ends decls start (layoutFields proceed layouts record fields nb)
      fun placed after => placed = true → Placed decls start after record ms fields := by
  induction fields generalizing ms nb with
  | nil => exact .pure hreached fun _ => ⟨[], .nil, by rwa [List.append_nil]⟩
  | cons field fields ih =>
    refine (checkpoint_ends hreached proceed).bind fun proceeds b₁ hreached₁ heq₁ => ?_
    have hplacing₁ := hplacing.later (.of_layouts heq₁)
    refine .ite (fun _ => .pure hreached₁ (by simp)) fun _ => ?_
    refine (hplacing₁.nested hreached₁ (hlayouts.alignment _ _ b₁ hreached₁.sound)).bind
      fun alignment b₂ hreached₂ ⟨halignment, hplacing₂⟩ => ?_
    refine (hplacing₂.nested hreached₂ (hlayouts.size _ _ b₂ hreached₂.sound)).bind
      fun size b₃ hreached₃ ⟨hsize, hplacing₃⟩ => ?_
    refine .ite (fun _ => .ite (fun _ => report_fail_ends hreached₃ _ (by simp))
      fun _ => fail_ends hreached₃ _ (by simp)) fun hgood => ?_
    simp only [Bool.or_eq_true, beq_iff_eq, decide_eq_true_eq, not_or] at hgood
    obtain ⟨level, member, hmember, rfl⟩ := hsize hgood.1.2
    obtain rfl := (halignment hgood.1.1).agrees level member hmember
    have hplacing₄ := hplacing₃.place (cLayout_bounded hmember)
    refine (ih (hplacing₄.reached hreached₃) hplacing₄).weaken ?_
    intro placed after hplaced hdone
    obtain ⟨rest, hrest, hall⟩ := hplaced hdone
    refine ⟨member :: rest, .cons ⟨level, hmember⟩ hrest, ?_⟩
    rwa [List.append_assoc] at hall

/-! ## Records -/

theorem Placing.pad (h : Placing start nb record ms) : ({ nb.layouts record.name with
        size := nativeAlign (nb.layouts record.name).size
          (nb.layouts record.name).alignment } : RecordLayout).held =
      (Layout.placeAll record.unionType ms).close := by
  rw [← h.held]
  rfl

end

variable {record : NativeRecord}

theorem layoutNativeRecordWith_ends (proceed : Nat → Bool) {layouts : TypeLayouts}
    (hlayouts : layouts.Finds decls) (exhausted : Bool)
    (hfind : decls.findRecord record.name = some record)
    (hsound : Sound decls nb) :
    Ends decls nb (layoutNativeRecordWith proceed layouts exhausted record nb)
      fun laidOut after => laidOut = true →
        (after.layouts record.name).layoutState = .complete := by
  refine (checkpoint_ends hsound.reached proceed).bind fun proceeds b₁ hreached₁ heq₁ => ?_
  refine .ite (fun _ => .pure hreached₁ (by simp)) fun _ => ?_
  refine .ite (fun hcomplete => .pure hreached₁ fun _ => hcomplete) fun hcomplete => ?_
  refine .ite (fun _ => .pure hreached₁ (by simp)) fun hfailed => ?_
  refine .ite (fun _ => report_fail_ends hreached₁ _ (by simp)) fun hbusy => ?_
  -- only a pending record is begun, so it may change as its fields are placed
  have hpending : (b₁.layouts record.name).layoutState = .pending := by
    cases hstate : (b₁.layouts record.name).layoutState <;> simp_all
  have hplacing : Placing nb (b₁.setRecord record.name
      { b₁.layouts record.name with layoutState := .inProgress }) record [] := by
    refine ⟨by rw [← heq₁]; exact hpending, ?_, ?_, ?_⟩ <;> rw [setRecord_layouts_self]
    · exact LayoutState.noConfusion
    · exact LayoutState.noConfusion
    · exact (hreached₁.sound _).pending hpending
  have hreached₂ := hplacing.reached hreached₁
  refine .ite (fun _ => report_fail_ends hreached₂ _ (by simp)) fun hempty => ?_
  refine (layoutFields_ends hlayouts record.fields hreached₂ hplacing).bind
    fun placed b₃ hreached₃ hplaced => ?_
  refine .ite (fun _ => .pure hreached₃ (by simp)) fun hdone => ?_
  obtain ⟨ms, hmembers, hplacing₃⟩ := hplaced (by simpa using hdone)
  obtain ⟨level, hmembers⟩ := exists_memberLayouts hmembers
  rw [updateRecord_bind, recordLayout_bind, setRecord_layouts_self]
  have hheld := hplacing₃.pad
  rw [List.nil_append] at hheld
  set padded : RecordLayout := { b₃.layouts record.name with
    size := nativeAlign (b₃.layouts record.name).size (b₃.layouts record.name).alignment }
  have hsound₄ : Sound decls (b₃.setRecord record.name padded) :=
    hreached₃.sound.setRecord hplacing₃.begun fun hdone => absurd hdone hplacing₃.unfinished
  have hlater₄ := hreached₃.later.setRecord padded hplacing.fresh
  refine .ite (fun _ => report_fail_ends ⟨hsound₄, hlater₄⟩ _ (by simp)) fun hlarge => ?_
  rw [setLayoutState_bind, setRecord_layouts_self]
  have hne : ms ≠ [] := by
    rintro rfl
    cases hfields : record.fields with
    | nil => exact hempty (by rw [hfields]; rfl)
    | cons field fields =>
      rw [hfields] at hmembers
      cases hmembers
  have hlayout : cLayout decls (level + 1) (.record record.name) = some padded.held := by
    refine cLayout_record.mpr ⟨record, ms, hfind, hmembers, ?_⟩
    refine recordLayoutOf_eq_some.mpr ⟨⟨hne, ?_⟩, hheld⟩
    rw [← hheld]
    exact Nat.le_of_not_gt hlarge
  refine ⟨⟨hsound₄.setRecord LayoutState.noConfusion fun _ => ⟨level + 1, hlayout⟩,
    hlater₄.setRecord _ hplacing.fresh⟩, fun _ => ?_⟩
  exact congrArg RecordLayout.layoutState (setRecord_layouts_self ..)

theorem findRecord_name
    (h : decls.findRecord name = some record) : record.name = name := by
  simpa using List.find?_some h

/-! ## Types -/

theorem AlignmentFound.of_leaf {type : NativeTypeName} {alignment : Nat}
    (hleaf : type.isLeaf = true)
    (h : type.leafLayout = some { size := alignment, alignment := alignment, offsets := [] }) :
    AlignmentFound decls type alignment nb := by
  refine ⟨?_, fun _ => h, ?_⟩
  · intro level layout hlayout
    cases level with
    | zero => cases hlayout
    | succ level =>
      rw [cLayout_leaf hleaf, h] at hlayout
      cases hlayout
      rfl
  · rintro name rfl
    cases hleaf

theorem alignmentBelow_ends {inner : TypeLayouts} (hinner : inner.Finds decls)
    {exhausted : Bool} (type : NativeTypeName) (node : Int)
    (hsound : Sound decls nb) :
    Ends decls nb (alignmentBelow decls inner
        (layoutNativeRecordWith proceed inner exhausted) type node nb)
      (FindsAlignment decls type) := by
  have hreached := hsound.reached
  -- the types without a layout end in one report
  have hnone : ∀ other : NativeTypeName, Ends decls nb
      (alignmentBelow.noLayout other node nb) (FindsAlignment decls type) :=
    fun other => report_none_ends hreached fun _ => absurd rfl
  have hleaf : ∀ alignment, type.isLeaf = true →
      type.leafLayout = some { size := alignment, alignment := alignment, offsets := [] } →
      Ends decls nb ((pure alignment : BinderM Nat) nb)
        (FindsAlignment decls type) :=
    fun alignment hleaf h => .pure hreached fun _ => .of_leaf hleaf h
  have hpointer : ∀ elem : NativeTypeName, type.isLeaf = true →
      type.leafLayout = some { size := 8, alignment := 8, offsets := [] } →
      Ends decls nb ((if (!elem.pointerElement.isNativeElement) = true then (do
          report "NR231" node "Native fields cannot point to managed types."
          pure 0 : BinderM Nat)
        else pure 8) nb) (FindsAlignment decls type) := by
    intro elem hleaf' h
    exact .ite (fun _ => report_none_ends hreached fun _ => absurd rfl) fun _ => hleaf 8 hleaf' h
  cases type with
  | numeric kind => cases kind <;> exact hleaf _ rfl rfl
  | bool | cFunction _ _ => exact hleaf _ rfl rfl
  | void | string | managed _ | array _ => exact hnone _
  | pointer elem => exact hpointer elem rfl rfl
  | optional elem =>
    cases elem with
    | cFunction res parameters => exact hleaf _ rfl rfl
    | pointer elem => exact hpointer elem rfl rfl
    | _ => exact hnone _
  | fixedArray elem count =>
    unfold alignmentBelow
    dsimp only
    split_ifs with hcount
    · exact report_none_ends hreached fun _ => absurd rfl
    · refine (hinner.alignment elem node nb hsound).weaken fun alignment after hfound hne => ?_
      refine ⟨?_, (fun hleaf => nomatch hleaf), (fun name heq => nomatch heq)⟩
      intro level layout hlayout
      cases level with
      | zero => cases hlayout
      | succ level =>
        obtain ⟨element', helement, harray⟩ := cLayout_fixedArray.mp hlayout
        obtain ⟨-, rfl⟩ := arrayLayout_eq_some.mp harray
        exact (hfound hne).agrees level element' helement
  | record name =>
    unfold alignmentBelow
    dsimp only
    cases hfind : decls.findRecord name with
    | none => exact hnone _
    | some record =>
      obtain rfl := findRecord_name hfind
      refine (layoutNativeRecordWith_ends proceed hinner exhausted hfind hsound).bind
        fun laidOut after hreached' hcomplete => ?_
      cases laidOut with
      | false => exact .pure hreached' (absurd rfl)
      | true =>
        refine .pure hreached' fun _ => ?_
        obtain ⟨level, hlevel⟩ := (hreached'.sound _).complete (hcomplete rfl)
        refine ⟨?_, (fun hleaf => nomatch hleaf), ?_⟩
        · intro level' layout hlayout
          rw [cLayout_unique hlayout hlevel]
          rfl
        · rintro name ⟨⟩
          exact hcomplete rfl

theorem sizeFrom_ends {inner : TypeLayouts} (hinner : inner.Finds decls)
    {alignmentHere : NativeTypeName → Int → BinderM Nat} (type : NativeTypeName) (node : Int)
    (halignment : Ends decls nb (alignmentHere type node nb)
      (FindsAlignment decls type)) : Ends decls nb (sizeFrom decls inner alignmentHere type node nb)
      fun size _ => FindsSize decls type size := by
  refine halignment.bind fun alignment b₁ hreached₁ hfound => ?_
  refine .ite (fun _ => .pure hreached₁ (absurd rfl)) fun hzero => ?_
  have hfound := hfound (by simpa using hzero)
  by_cases hleaf : type.isLeaf = true
  · have hlayout : cLayout decls 1 type = _ := (cLayout_leaf hleaf).trans (hfound.leaf hleaf)
    have hends : Ends decls nb ((pure alignment : BinderM Nat) b₁)
        fun size _ => FindsSize decls type size :=
      .pure hreached₁ fun _ => ⟨1, _, hlayout, rfl⟩
    cases type <;> first | exact hends | cases hleaf
  cases type with
  | fixedArray elem count =>
    refine ((hinner.size elem node b₁ hreached₁.sound).after hreached₁.later).bind
      fun size b₂ hreached₂ hsize => ?_
    refine .ite (fun _ => report_none_ends hreached₂ fun _ => absurd rfl) fun hlarge => ?_
    refine .pure hreached₂ fun hne => ?_
    obtain ⟨hsize0, hcount0⟩ := Nat.mul_ne_zero_iff.mp hne
    obtain ⟨level, layout, hlayout, rfl⟩ := hsize hsize0
    have hcount : 0 < count := Nat.pos_of_ne_zero hcount0
    have hle : layout.size * count ≤ nativeSizeLimit :=
      (Nat.le_div_iff_mul_le hcount).mp (Nat.le_of_not_gt hlarge)
    have harray := arrayLayout_eq_some.mpr ⟨⟨hcount, hle⟩, rfl⟩
    exact ⟨level + 1, _, cLayout_fixedArray.mpr ⟨layout, hlayout, harray⟩, rfl⟩
  | record name =>
    cases hfind : decls.findRecord name with
    | none =>
      obtain ⟨level, hlevel⟩ := (hreached₁.sound _).complete (hfound.record name rfl)
      cases level with
      | zero => cases hlevel
      | succ level =>
        obtain ⟨record, -, hsome, -⟩ := cLayout_record.mp hlevel
        rw [hfind] at hsome
        cases hsome
    | some record =>
      obtain rfl := findRecord_name hfind
      obtain ⟨level, hlevel⟩ := (hreached₁.sound _).complete (hfound.record _ rfl)
      dsimp only
      rw [hfind]
      exact .pure hreached₁ fun _ => ⟨level, _, hlevel, rfl⟩
  | _ => exact absurd rfl hleaf

/-- At every depth the functions find what `cLayout` gives. -/
theorem typeLayouts_finds (proceed : Nat → Bool) (room : Nat) :
    (typeLayouts proceed decls room).Finds decls := by
  induction room with
  | zero =>
    constructor <;> exact fun _ _ _ hsound => report_none_ends hsound.reached fun _ => absurd rfl
  | succ room ih =>
    constructor
    · intro type node nb hsound
      exact alignmentBelow_ends ih type node hsound
    · intro type node nb hsound
      exact sizeFrom_ends ih type node (alignmentBelow_ends ih type node hsound)

/-! ## Whole modules -/

theorem layoutNativeRecords_sound {records : List NativeRecord}
    (hrecords : ∀ record ∈ records, decls.findRecord record.name = some record)
    (hsound : Sound decls nb) :
    Sound decls (layoutNativeRecords proceed decls records nb).2 := by
  induction records generalizing nb with
  | nil => exact hsound
  | cons record records ih =>
    have hcheck := (checkpoint_ends hsound.reached proceed).sound
    have hrecord := layoutNativeRecordWith_ends proceed
      (typeLayouts_finds proceed nativeDepthLimit) (decide (0 ≥ nativeDepthLimit))
      (hrecords record List.mem_cons_self) hcheck
    show Sound decls ((if (checkpoint proceed nb).1 = true then (do
        let _ ← layoutNativeRecord proceed decls record 0
        layoutNativeRecords proceed decls records : BinderM Unit)
      else pure ()) (checkpoint proceed nb).2).2
    split_ifs
    · exact ih (fun record h => hrecords record (List.mem_cons_of_mem _ h)) hrecord.sound
    · exact hcheck

theorem findRecord_self (h : record ∈ decls.records) :
    decls.findRecord record.name = some record := by
  refine Lines.find?_eq_some_of_unique h (beq_self_eq_true _) ?_
  intro other hother hname
  exact List.inj_on_of_nodup_map decls.distinct hother h (by simpa using hname)

/-- A record that `layoutNativeRecord` accepts, at any depth and after any layouts, then holds its
layout. -/
theorem layoutNativeRecord_holds (hsound : Sound decls nb)
    (hrecord : record ∈ decls.records) (depth : Nat)
    (h : (layoutNativeRecord proceed decls record depth nb).1 = true) :
    ∃ level, cLayout decls level (.record record.name) =
      some ((layoutNativeRecord proceed decls record depth nb).2.layouts record.name).held := by
  have hends := layoutNativeRecordWith_ends proceed
    (typeLayouts_finds proceed (nativeDepthLimit - depth)) (decide (depth ≥ nativeDepthLimit))
    (findRecord_self hrecord) hsound
  exact (hends.sound record.name).complete (hends.holds h)

theorem sound_start : Sound decls {} := fun _ => ⟨fun _ => rfl, fun h => nomatch h⟩

theorem registerNativeRecordFields_sound (proceed : Nat → Bool) :
    Sound decls (registerNativeRecordFields proceed decls) :=
  layoutNativeRecords_sound (fun _ hrecord => findRecord_self hrecord) sound_start

end Neri.Semantic
