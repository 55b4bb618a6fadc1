import Neri.Frontend.Proofs.IdentifierProofs
import Neri.Semantic.Readonly
import Neri.Stdlib.Proofs.TextProofs

/-!
# Readonly views of written types

The last byte of a written type tells which constructor is outermost, so the tests of suffixes are
case distinctions. The tests of the first bytes have a result exactly where their cut is between two
scalars. With a result, the view of a type is as written: idempotent, and undone by the mutable type.
-/

namespace Neri.Semantic

open Neri.Stdlib Utf8 List

variable {last : UInt8} {ty : Text}

/-! ## Suffixes -/

theorem semanticEndsWith_iff {v suffix : Text} :
    semanticEndsWith v suffix = true ↔ suffix.bytes <:+ v.bytes := by
  unfold semanticEndsWith
  by_cases hlen : suffix.byteLength > v.byteLength
  · rw [if_pos hlen]
    refine iff_of_false Bool.false_ne_true fun h => ?_
    have := h.length_le
    unfold Text.byteLength at hlen
    omega
  · rw [if_neg hlen]
    simp only [all_eq_true, mem_range, beq_iff_eq, Text.byteAt, Text.byteLength]
    rw [suffix_iff_eq_drop]
    constructor
    · intro h
      refine ext_getElem? fun index => ?_
      rw [getElem?_drop]
      by_cases hindex : index < suffix.bytes.length
      · exact (h index hindex).symm
      · rw [getElem?_eq_none (by omega), getElem?_eq_none (by omega)]
    · intro h index _
      conv_rhs => rw [h]
      rw [getElem?_drop]

/-- A suffix that ends in another byte than the text is none. -/
theorem semanticEndsWith_eq_false {v suffix : Text} {last' : UInt8}
    (hvalue : v.bytes.getLast? = some last) (hsuffix : suffix.bytes.getLast? = some last')
    (hne : last ≠ last') : semanticEndsWith v suffix = false := by
  rw [Bool.eq_false_iff, ne_eq, semanticEndsWith_iff]
  rintro ⟨front, hfront⟩
  rw [← hfront, getLast?_append, hsuffix] at hvalue
  exact hne (Option.some.inj hvalue).symm

theorem semanticEndsWith_append (v suffix : Text) : semanticEndsWith (v ++ suffix) suffix = true :=
  semanticEndsWith_iff.mpr (suffix_append _ _)

theorem semanticStripSuffix_append (v suffix : Text) :
    semanticStripSuffix (v ++ suffix) suffix = some v := by
  have hsplit : (v ++ suffix).SplitsAt 0 [] (v.scalars ++ suffix.scalars) := by
    refine ⟨?_, rfl⟩
    rw [encode_append, v.encode_scalars, suffix.encode_scalars]
    rfl
  have hlen : (v ++ suffix).byteLength - suffix.byteLength = (encode v.scalars).length := by
    rw [v.encode_scalars]
    simp [Text.byteLength]
  rw [semanticStripSuffix, hlen, hsplit.slice, v.ofScalars_scalars]

/-! ## The marks of types -/

theorem bytes_question : (Text.ofString "?").bytes = [63] := rfl

theorem bytes_star : (Text.ofString "*").bytes = [42] := rfl

theorem bytes_bracket : (Text.ofString "]").bytes = [93] := rfl

theorem bytes_brackets : (Text.ofString "[]").bytes = [91, 93] := rfl

theorem bytes_parenthesis : (Text.ofString ")").bytes = [41] := rfl

theorem length_readonly : (encode "readonly(".toList).length = 9 := rfl

/-! ## The test of the first bytes -/

/-- The first nine bytes of a text of more than ten can be cut off. -/
def ReadsHead (typeName : Text) : Prop :=
  typeName.byteLength ≤ 10 ∨ typeName.isScalarBoundary 9 = true

instance (typeName : Text) : Decidable (ReadsHead typeName) := by
  unfold ReadsHead
  infer_instance

theorem semanticIsReadonly_of_last (hlast : ty.bytes.getLast? = some last) (hne : last ≠ 41) :
    semanticIsReadonly ty = if ReadsHead ty then some false else none := by
  have hparenthesis : (Text.ofString ")").bytes.getLast? = some 41 := by
    rw [bytes_parenthesis, getLast?_singleton]
  unfold semanticIsReadonly
  by_cases hlen : ty.byteLength > 10
  · have hcut := ty.slice_zero 9 (by omega)
    rw [if_pos hlen, semanticEndsWith_eq_false hlast hparenthesis hne]
    by_cases hboundary : ty.isScalarBoundary 9 = true
    · rw [if_pos hboundary] at hcut
      obtain ⟨first, hfirst, -⟩ := Option.map_eq_some_iff.mp hcut
      rw [hfirst, if_pos (.inr hboundary)]
      simp
    · rw [if_neg hboundary, Option.map_eq_none_iff] at hcut
      rw [hcut, if_neg fun hreads => hboundary (hreads.resolve_left (by omega))]
      rfl
  · rw [if_neg hlen, if_pos (.inl (by omega))]

def readonlyText (inner : Text) : Text := "readonly(" ++ inner ++ ")"

theorem readonlyText_splits (inner : Text) :
    (readonlyText inner).SplitsAt 9 "readonly(".toList (inner.scalars ++ ")".toList) := by
  refine ⟨?_, length_readonly.symm⟩
  show (encode "readonly(".toList ++ inner.bytes) ++ encode ")".toList = _
  rw [encode_append, inner.encode_scalars, append_assoc]

theorem readonlyText_byteLength (inner : Text) :
    (readonlyText inner).byteLength = inner.byteLength + 10 := by
  have hfirst : (Text.ofString "readonly(").bytes.length = 9 := length_readonly
  simp only [readonlyText, Text.byteLength, Text.bytes_append, length_append, hfirst,
    bytes_parenthesis, length_singleton]
  omega

theorem readonlyText_readsHead (inner : Text) : ReadsHead (readonlyText inner) :=
  .inr (readonlyText_splits inner).isScalarBoundary

theorem semanticIsReadonly_readonlyText {inner : Text} (h : inner.bytes ≠ []) :
    semanticIsReadonly (readonlyText inner) = some true := by
  have hlen := readonlyText_byteLength inner
  have hpos : 0 < inner.byteLength := length_pos_of_ne_nil h
  have hsplit : (readonlyText inner).SplitsAt 0 []
      ("readonly(".toList ++ (inner.scalars ++ ")".toList)) := by
    refine ⟨?_, rfl⟩
    rw [(readonlyText_splits inner).bytes, encode_nil, nil_append, encode_append _ (_ ++ _)]
  have hslice := hsplit.slice
  rw [length_readonly] at hslice
  have hends : semanticEndsWith (readonlyText inner) ")" = true :=
    semanticEndsWith_append _ _
  unfold semanticIsReadonly
  rw [if_pos (by omega), hslice, hends]
  simp [Text.ofString]

theorem semanticMutableType_readonlyText {inner : Text} (h : inner.bytes ≠ []) :
    semanticMutableType (readonlyText inner) = some inner := by
  have hslice := (readonlyText_splits inner).slice
  have hlen : (readonlyText inner).byteLength - 10 = (encode inner.scalars).length := by
    rw [readonlyText_byteLength, inner.encode_scalars]
    exact Nat.add_sub_cancel _ _
  unfold semanticMutableType
  rw [semanticIsReadonly_readonlyText h, Option.bind_eq_bind, Option.bind_some, if_pos rfl, hlen,
    hslice, inner.ofScalars_scalars]

theorem semanticMutableType_of_last (hlast : ty.bytes.getLast? = some last) (hne : last ≠ 41) :
    semanticMutableType ty = if ReadsHead ty then some ty else none := by
  unfold semanticMutableType
  rw [semanticIsReadonly_of_last hlast hne]
  split <;> rfl

/-- A view that is not readonly is tested by its own suffix. -/
theorem viewEndsWith_of_last (hlast : ty.bytes.getLast? = some last) (hne : last ≠ 41)
    (hreads : ReadsHead ty) (suffix : Text) (levels : Nat) :
    viewEndsWith suffix (levels + 1) ty = some (semanticEndsWith ty suffix) := by
  rw [viewEndsWith, semanticIsReadonly_of_last hlast hne, if_pos hreads]
  rfl

/-! ## The last byte of a written type -/

namespace WrittenType

/-- The bytes of names: those of identifiers, and dots. -/
def IsNameByte (byte : UInt8) : Prop :=
  128 ≤ byte.toNat ∨ byte.toNat = 95 ∨ byte.toNat = 46 ∨ 48 ≤ byte.toNat ∧ byte.toNat ≤ 57 ∨
    65 ≤ byte.toNat ∧ byte.toNat ≤ 90 ∨ 97 ≤ byte.toNat ∧ byte.toNat ≤ 122

theorem isNameByte_of_identifier (identifier : Identifier) {b : UInt8}
    (h : b ∈ (Text.ofString identifier.text).bytes) : IsNameByte b := by
  have := Frontend.byte_of_isIdentifier identifier.isIdentifier h
  unfold IsNameByte
  tauto

theorem bytes_name (first : Identifier) (rest : List Identifier) :
    (WrittenType.name first rest).text.bytes ≠ [] ∧
      ∀ b ∈ (WrittenType.name first rest).text.bytes, IsNameByte b := by
  suffices h : ∀ (rest : List Identifier) (text : Text), text.bytes ≠ [] →
      (∀ b ∈ text.bytes, IsNameByte b) →
      (rest.foldl (fun text part => text ++ (Text.ofString "." ++ Text.ofString part.text))
        text).bytes ≠ [] ∧
      ∀ b ∈ (rest.foldl (fun text part =>
        text ++ (Text.ofString "." ++ Text.ofString part.text)) text).bytes, IsNameByte b by
    refine h rest (Text.ofString first.text) ?_ fun b hbyte => isNameByte_of_identifier first hbyte
    exact Frontend.encode_ne_nil_of_isIdentifier first.isIdentifier
  intro rest
  induction rest with
  | nil => exact fun text hne hbytes => ⟨hne, hbytes⟩
  | cons part rest ih =>
    intro text hne hbytes
    refine ih _ (by simp [hne]) fun b hbyte => ?_
    rcases mem_append.mp hbyte with hbyte | hbyte
    · exact hbytes b hbyte
    · rcases mem_append.mp hbyte with hbyte | hbyte
      · rw [mem_singleton.mp hbyte]
        exact .inr (.inr (.inl rfl))
      · exact isNameByte_of_identifier part hbyte

variable (type : WrittenType)

theorem text_ne_nil : type.text.bytes ≠ [] := by
  cases type with
  | name first rest => exact (bytes_name first rest).1
  | array inner => simp [text, bytes_brackets]
  | optional inner => simp [text, bytes_question]
  | pointer inner => simp [text, bytes_star]
  | readonly inner => simp [text, bytes_parenthesis]

theorem getLast?_text : match type with
    | .name _ _ => ∃ last, type.text.bytes.getLast? = some last ∧ IsNameByte last
    | .array _ => type.text.bytes.getLast? = some 93
    | .optional _ => type.text.bytes.getLast? = some 63
    | .pointer _ => type.text.bytes.getLast? = some 42
    | .readonly _ => type.text.bytes.getLast? = some 41 := by
  cases type with
  | name first rest =>
    obtain ⟨hne, hbytes⟩ := bytes_name first rest
    exact ⟨_, getLast?_eq_some_getLast hne, hbytes _ (getLast_mem hne)⟩
  | array inner =>
    simp [text, bytes_brackets]
  | optional inner =>
    simp [text, bytes_question]
  | pointer inner =>
    simp [text, bytes_star]
  | readonly inner =>
    simp [text, bytes_parenthesis]

/-- A type that is not a view ends otherwise than a view. -/
theorem exists_last {t : WrittenType} (h : t.isReadonly = false) :
    ∃ last, t.text.bytes.getLast? = some last ∧ last ≠ 41 ∧ (t.isOptional = false → last ≠ 63) := by
  have hlast := getLast?_text t
  cases t with
  | name first rest =>
    obtain ⟨last, hlast, hbyte⟩ := hlast
    refine ⟨last, hlast, ?_, fun _ => ?_⟩
    · rintro rfl
      simp [IsNameByte] at hbyte
    · rintro rfl
      simp [IsNameByte] at hbyte
  | array inner => exact ⟨93, hlast, by decide, fun _ => by decide⟩
  | optional inner => exact ⟨63, hlast, by decide, fun h => by cases h⟩
  | pointer inner => exact ⟨42, hlast, by decide, fun _ => by decide⟩
  | readonly inner => cases h

theorem text_readonly (inner : WrittenType) : (readonly inner).text = readonlyText inner.text := rfl

/-! ## The tests on written types -/

/-- The test of a type that is not a view, and that of a view. -/
theorem semanticIsReadonly_text : semanticIsReadonly type.text =
      if ReadsHead type.text then some type.isReadonly else none := by
  cases hro : type.isReadonly with
  | false =>
    obtain ⟨last, hlast, hne, -⟩ := exists_last hro
    exact semanticIsReadonly_of_last hlast hne
  | true =>
    cases type with
    | readonly inner =>
      rw [text_readonly, semanticIsReadonly_readonlyText inner.text_ne_nil,
        if_pos (readonlyText_readsHead _)]
    | _ => cases hro

theorem semanticMutableType_text :
    (semanticMutableType type.text).isSome = true ↔ ReadsHead type.text := by
  cases hro : type.isReadonly with
  | false =>
    obtain ⟨last, hlast, hne, -⟩ := exists_last hro
    rw [semanticMutableType_of_last hlast hne]
    split <;> simp [*]
  | true =>
    cases type with
    | readonly inner =>
      rw [text_readonly, semanticMutableType_readonlyText inner.text_ne_nil]
      exact iff_of_true rfl (readonlyText_readsHead _)
    | _ => cases hro

theorem viewEndsWith_question {type : WrittenType} (h : type.isReadonly = false)
    (hreads : ReadsHead type.text) (levels : Nat) :
    viewEndsWith "?" (levels + 1) type.text = some type.isOptional := by
  obtain ⟨last, hlast, hne, hquestion⟩ := exists_last h
  rw [viewEndsWith_of_last hlast hne hreads]
  have hmark : (Text.ofString "?").bytes.getLast? = some 63 := by
    rw [bytes_question, getLast?_singleton]
  cases hoptional : type.isOptional with
  | false => rw [semanticEndsWith_eq_false hlast hmark (hquestion hoptional)]
  | true =>
    cases type with
    | optional inner => exact congrArg some (semanticEndsWith_append _ _)
    | _ => cases hoptional

/-- Reserved names end in letters and digits. -/
theorem semanticReservedTypeName_eq_false
    (hlast : ty.bytes.getLast? = some last) (h : last = 93 ∨ last = 63 ∨ last = 42) :
    semanticReservedTypeName ty = false := by
  have hnot (name : String) (hname : (Text.ofString name).bytes.getLast? ≠ some 93 ∧
      (Text.ofString name).bytes.getLast? ≠ some 63 ∧
      (Text.ofString name).bytes.getLast? ≠ some 42) : (ty == Text.ofString name) = false := by
    rw [beq_eq_false_iff_ne]
    rintro rfl
    rw [hlast] at hname
    rcases h with rfl | rfl | rfl <;> simp at hname
  unfold semanticReservedTypeName semanticIsBuiltin semanticIsNumeric
  simp only [any_cons, any_nil, Bool.or_false, Bool.or_eq_false_iff]
  refine ⟨⟨⟨⟨?_, ?_, ?_, ?_, ?_, ?_, ?_⟩, ?_, ?_, ?_⟩, ?_⟩, ?_⟩
  all_goals exact hnot _ (by decide +kernel)

theorem innerTypeWithin_optional {inner : WrittenType} (hreads : ReadsHead (optional inner).text)
    (levels : Nat) : innerTypeWithin (levels + 1) (optional inner).text = some inner.text := by
  have hlast : (optional inner).text.bytes.getLast? = some 63 := getLast?_text (optional inner)
  have hbracket : (Text.ofString "]").bytes.getLast? = some 93 := by
    rw [bytes_bracket, getLast?_singleton]
  have hbrackets : (Text.ofString "[]").bytes.getLast? = some 93 := by
    rfl
  have hfixed : nativeFixedArray (optional inner).text = false := by
    unfold nativeFixedArray
    rw [semanticEndsWith_eq_false hlast hbracket (by decide), Bool.false_and]
  have harray : semanticIsArray (optional inner).text = some false := by
    unfold semanticIsArray
    rw [viewEndsWith_of_last hlast (by decide) hreads,
      semanticEndsWith_eq_false hlast hbrackets (by decide)]
  have hoptional : semanticIsOptional (optional inner).text = some true :=
    viewEndsWith_question rfl hreads _
  rw [innerTypeWithin, semanticIsReadonly_of_last hlast (by decide), if_pos hreads]
  simp only [Option.bind_eq_bind, Option.bind_some, Bool.false_eq_true, if_false, hfixed, harray,
    hoptional, if_true]
  exact semanticStripSuffix_append _ _

/-- Without its mark, the head of an optional type is readable as before. -/
theorem readsHead_of_optional {inner : WrittenType} (h : ReadsHead (optional inner).text) :
    ReadsHead inner.text := by
  by_cases hlen : inner.text.byteLength ≤ 10
  · exact .inl hlen
  · right
    have hmark : (optional inner).text.bytes = inner.text.bytes ++ [63] := by
      show inner.text.bytes ++ (Text.ofString "?").bytes = _
      rw [bytes_question]
    have hboundary : (optional inner).text.isScalarBoundary 9 = true := by
      refine h.resolve_left ?_
      rw [Text.byteLength, hmark, length_append]
      unfold Text.byteLength at hlen
      omega
    have hbyte : (optional inner).text.bytes[9]? = inner.text.bytes[9]? := by
      rw [hmark, getElem?_append_left]
      unfold Text.byteLength at hlen
      omega
    obtain ⟨b, hbyte'⟩ : ∃ b, inner.text.bytes[9]? = some b := by
      refine ⟨_, getElem?_eq_getElem ?_⟩
      unfold Text.byteLength at hlen
      omega
    unfold Text.isScalarBoundary at hboundary ⊢
    rw [hbyte, hbyte'] at hboundary
    rw [hbyte']
    exact hboundary

theorem readViewWithin_eq {type : WrittenType} (h : type.isReadonly = false) (levels : Nat) :
    readViewWithin (levels + 1) type.text = if ReadsHead type.text then
        if semanticReservedTypeName type.text then some type.text else if type.isOptional then
          ((innerTypeWithin levels type.text).bind (readViewWithin levels)).bind
            fun inner => some (inner ++ "?") else some (readonlyText type.text)
      else none := by
  rw [readViewWithin, semanticIsReadonly_text, h]
  by_cases hreads : ReadsHead type.text
  · have hoptional : semanticIsOptional type.text = some type.isOptional :=
      viewEndsWith_question h hreads _
    rw [if_pos hreads, if_pos hreads, hoptional]
    cases type.isOptional <;> cases innerTypeWithin levels type.text <;> rfl
  · rw [if_neg hreads, if_neg hreads]
    rfl

/-- The view of a written type, where the heads that are looked at can be read. -/
theorem readViewWithin_text : ∀ levels, type.text.byteLength + 1 ≤ levels →
    readViewWithin (levels + 1) type.text =
      if ReadsHead type.text then some type.readView.text else none := by
  induction type with
  | readonly inner =>
    intro levels _
    rw [readViewWithin, text_readonly, semanticIsReadonly_readonlyText inner.text_ne_nil,
      if_pos (readonlyText_readsHead _)]
    rfl
  | name first rest =>
    intro levels _
    rw [readViewWithin_eq rfl, readView]
    split
    · split <;> rfl
    · rfl
  | optional inner ih =>
    intro levels hlevels
    have hlen : (optional inner).text.byteLength = inner.text.byteLength + 1 := by
      show (inner.text.bytes ++ (Text.ofString "?").bytes).length = _
      rw [length_append]
      rfl
    obtain ⟨levels, rfl⟩ : ∃ less, levels = less + 1 := ⟨levels - 1, by omega⟩
    rw [readViewWithin_eq rfl,
      semanticReservedTypeName_eq_false (getLast?_text (optional inner)) (.inr (.inl rfl))]
    by_cases hreads : ReadsHead (optional inner).text
    · rw [if_pos hreads, if_pos hreads, innerTypeWithin_optional hreads, Option.bind_some,
        ih levels (by omega), if_pos (readsHead_of_optional hreads)]
      rfl
    · rw [if_neg hreads, if_neg hreads]
  | array inner =>
    intro levels _
    rw [readViewWithin_eq rfl,
      semanticReservedTypeName_eq_false (getLast?_text (array inner)) (.inl rfl)]
    rfl
  | pointer inner =>
    intro levels _
    rw [readViewWithin_eq rfl,
      semanticReservedTypeName_eq_false (getLast?_text (pointer inner)) (.inr (.inr rfl))]
    rfl

theorem semanticReadView_text : semanticReadView type.text =
      if ReadsHead type.text then some type.readView.text else none :=
  readViewWithin_text type _ (Nat.le_refl _)

/-! ## Views of views -/

theorem readView_readView : type.readView.readView = type.readView := by
  induction type with
  | readonly inner => rfl
  | array inner => rfl
  | pointer inner => rfl
  | optional inner ih =>
    show optional inner.readView.readView = optional inner.readView
    rw [ih]
  | name first rest =>
    by_cases hreserved : semanticReservedTypeName (name first rest).text = true
    · have hview : (name first rest).readView = name first rest := if_pos hreserved
      rw [hview, hview]
    · have hview : (name first rest).readView = readonly (name first rest) := if_neg hreserved
      rw [hview]
      rfl

theorem byteLength_of_reserved (h : semanticReservedTypeName ty = true) : ty.byteLength ≤ 9 := by
  unfold semanticReservedTypeName semanticIsBuiltin semanticIsNumeric at h
  simp only [any_cons, any_nil, Bool.or_false, Bool.or_eq_true, beq_iff_eq] at h
  rcases h with ((((rfl | rfl | rfl | rfl | rfl | rfl | rfl) | rfl | rfl | rfl) | rfl) | rfl)
  all_goals decide +kernel

/-- The head of a view can be read, with any marks behind it. -/
theorem byteAt_readView : ∀ b, type.readView.text.bytes[9]? = some b →
    b.toNat < 128 ∨ 192 ≤ b.toNat := by
  have hview (inner : WrittenType) (b : UInt8)
      (hbyte : (readonly inner).text.bytes[9]? = some b) :
      b.toNat < 128 ∨ 192 ≤ b.toNat := by
    have hboundary := (readonlyText_splits inner.text).isScalarBoundary
    unfold Text.isScalarBoundary at hboundary
    rw [show (readonlyText inner.text).bytes[9]? = some b from hbyte] at hboundary
    simpa using hboundary
  induction type with
  | readonly inner => exact hview inner
  | array inner => exact hview (array inner)
  | pointer inner => exact hview (pointer inner)
  | optional inner ih =>
    intro b hbyte
    have hmark : (optional inner).readView.text.bytes = inner.readView.text.bytes ++ [63] := by
      show inner.readView.text.bytes ++ (Text.ofString "?").bytes = _
      rw [bytes_question]
    rw [hmark, getElem?_append] at hbyte
    split at hbyte
    · exact ih b hbyte
    · have hmem := mem_of_getElem? hbyte
      rw [mem_singleton.mp hmem]
      decide
  | name first rest =>
    intro b hbyte
    unfold readView at hbyte
    by_cases hreserved : semanticReservedTypeName (name first rest).text = true
    · rw [if_pos hreserved] at hbyte
      have hlen := byteLength_of_reserved hreserved
      have hindex := (List.getElem_of_getElem? hbyte).1
      unfold Text.byteLength at hlen
      omega
    · rw [if_neg hreserved] at hbyte
      exact hview _ b hbyte

theorem readsHead_readView : ReadsHead type.readView.text := by
  by_cases hlen : type.readView.text.byteLength ≤ 10
  · exact .inl hlen
  · right
    have hindex : 9 < type.readView.text.bytes.length := by
      unfold Text.byteLength at hlen
      omega
    have hbyte := getElem?_eq_getElem hindex
    have hstart := byteAt_readView type _ hbyte
    unfold Text.isScalarBoundary
    rw [hbyte]
    simpa using hstart

/-- The mutable type of a view gives the type back. -/
theorem semanticMutableType_readView {type : WrittenType} (hro : type.isReadonly = false)
    (hoptional : type.isOptional = false) (hbuiltin : semanticIsBuiltin type.text = false) :
    semanticMutableType type.readView.text = some type.text := by
  cases type with
  | readonly inner => cases hro
  | optional inner => cases hoptional
  | array inner => exact semanticMutableType_readonlyText (array inner).text_ne_nil
  | pointer inner => exact semanticMutableType_readonlyText (pointer inner).text_ne_nil
  | name first rest =>
    have hread := readsHead_readView (name first rest)
    unfold readView at hread ⊢
    by_cases hreserved : semanticReservedTypeName (name first rest).text = true
    · rw [if_pos hreserved] at hread ⊢
      obtain ⟨last, hlast, hne, -⟩ := exists_last (t := name first rest) rfl
      rw [semanticMutableType_of_last hlast hne, if_pos hread]
    · rw [if_neg hreserved]
      exact semanticMutableType_readonlyText (name first rest).text_ne_nil

/-! ## Records -/

theorem nativeRecordType_isSome_iff (ty : Text) : (nativeRecordType ty).isSome = true ↔
      ty.byteLength < 7 ∨ ty.isScalarBoundary 7 = true := by
  unfold nativeRecordType
  by_cases hlen : ty.byteLength ≥ 7
  · have hcut := ty.slice_zero 7 hlen
    rw [if_pos hlen, Option.isSome_map, ← Option.isSome_map (f := Text.bytes), hcut]
    split <;> simp [*]
  · rw [if_neg hlen]
    exact iff_of_true rfl (.inl (by omega))

/-- The functions on type names all return, and views are as written, exactly where the two cuts are
between scalars. -/
theorem typeNames_return_iff (type : WrittenType) :
    ((semanticIsReadonly type.text).isSome = true ∧ (semanticMutableType type.text).isSome = true ∧
        (nativeRecordType type.text).isSome = true ∧
        (∃ view, semanticReadView type.text = some view ∧ semanticReadView view = some view) ∧
        (semanticIsOptional type.text = some false → semanticIsBuiltin type.text = false →
          semanticIsReadonly type.text = some false →
          (semanticReadView type.text).bind semanticMutableType = some type.text)) ↔
      (type.text.byteLength ≤ 10 ∨ type.text.isScalarBoundary 9 = true) ∧
        (type.text.byteLength < 7 ∨ type.text.isScalarBoundary 7 = true) := by
  show _ ↔ ReadsHead type.text ∧ _
  rw [nativeRecordType_isSome_iff, semanticMutableType_text]
  constructor
  · rintro ⟨-, hreads, hrecord, -⟩
    exact ⟨hreads, hrecord⟩
  · rintro ⟨hreads, hrecord⟩
    have hview := semanticReadView_text type
    rw [if_pos hreads] at hview
    refine ⟨?_, hreads, hrecord, ⟨type.readView.text, hview, ?_⟩, ?_⟩
    · rw [semanticIsReadonly_text, if_pos hreads]
      rfl
    · rw [semanticReadView_text, if_pos (readsHead_readView type), readView_readView]
    · intro hoptional hbuiltin hro
      rw [semanticIsReadonly_text, if_pos hreads] at hro
      have hro := Option.some.inj hro
      have hsame := hoptional.symm.trans (viewEndsWith_question hro hreads _)
      rw [hview]
      exact semanticMutableType_readView hro (Option.some.inj hsame).symm hbuiltin

/-- A class whose name has a letter of two bytes at its ninth byte. -/
def ninthByteInside : WrittenType := .name ⟨"aaaaaaaaéb", by decide +kernel⟩ []

/-- The test of its head cuts the letter. -/
theorem semanticIsReadonly_ninthByteInside : semanticIsReadonly ninthByteInside.text = none ∧
      semanticReadView ninthByteInside.text = none := by
  constructor <;> decide +kernel

end WrittenType

end Neri.Semantic
