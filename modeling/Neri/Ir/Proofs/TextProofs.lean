import Neri.Ir.Text
import Neri.Lib.PrefixCode
import Neri.Lib.Utf8

/-!
# What `irCompareText` compares

The cursor hands out the UTF-16 code units of the text, so `irCompareText` is the lexicographic
comparison of the two unit sequences. This order and the order of the UTF-8 bytes are decided at the
first scalar where two texts differ, and agree unless one of the two scalars lies between `U+E000` and
`U+FFFF` and the other outside the basic plane.
-/

namespace Neri.Ir

open Neri.Frontend PrefixCode Utf8 List

/-! ## Decoding -/

theorem byteAt_append_right (pre bytes : List UInt8) (offset : Nat) :
    byteAt (pre ++ bytes) (pre.length + offset) = byteAt bytes offset := by
  unfold byteAt
  rw [getD_eq_getElem?_getD, getElem?_append_right (Nat.le_add_right _ _),
    Nat.add_sub_cancel_left, ← getD_eq_getElem?_getD]

theorem byteAt_cons_zero (byte : UInt8) (bytes : List UInt8) : byteAt (byte :: bytes) 0 = byte.toNat := by
  rw [byteAt, getD_cons_zero]

theorem byteAt_cons_succ (byte : UInt8) (bytes : List UInt8) (position : Nat) :
    byteAt (byte :: bytes) (position + 1) = byteAt bytes position := by
  rw [byteAt, getD_cons_succ, byteAt]

theorem decode_utf8EncodeChar (pre rest : List UInt8) (c : Char) :
    codePointAt (pre ++ (String.utf8EncodeChar c ++ rest)) pre.length = c.toNat ∧
      utf8Width (byteAt (pre ++ (String.utf8EncodeChar c ++ rest)) pre.length) =
        (String.utf8EncodeChar c).length := by
  have hread := byteAt_append_right pre (String.utf8EncodeChar c ++ rest)
  have hfirst := hread 0
  rw [Nat.add_zero] at hfirst
  unfold codePointAt utf8Width
  simp only [hfirst, hread]
  have hbytes := encodes c
  generalize String.utf8EncodeChar c = bytes at hbytes
  cases hbytes <;> simp only [cons_append, byteAt_cons_zero, byteAt_cons_succ]
  · rw [if_pos (by omega), if_pos (by omega)]
    exact ⟨by omega, rfl⟩
  · rw [if_neg (by omega), if_pos (by omega), if_neg (by omega), if_pos (by omega)]
    exact ⟨by omega, rfl⟩
  · rw [if_neg (by omega), if_neg (by omega), if_pos (by omega), if_neg (by omega),
      if_neg (by omega), if_pos (by omega)]
    exact ⟨by omega, rfl⟩
  · rw [if_neg (by omega), if_neg (by omega), if_neg (by omega), if_neg (by omega),
      if_neg (by omega), if_neg (by omega)]
    exact ⟨by omega, rfl⟩

/-! ## The cursor -/

/-- The UTF-16 code units of a scalar. -/
def utf16Units (c : Char) : List Int :=
  if c.toNat ≤ 65535 then [(c.toNat : Int)]
  else [55296 + ((c.toNat : Int) - 65536) / 1024, 56320 + ((c.toNat : Int) - 65536) % 1024]

/-- The units that the cursor has still to hand out: it stands between two scalars of its text. -/
def Reads (cursor : IrUtf16Cursor) (units : List Int) : Prop :=
  ∃ (before : List UInt8) (chars : List Char), cursor.text = before ++ chars.flatMap String.utf8EncodeChar ∧
    cursor.bytePosition = before.length ∧
    units = (if cursor.pendingLow ≥ 0 then [cursor.pendingLow] else []) ++ chars.flatMap utf16Units

theorem utf16Units_ne_nil (c : Char) : utf16Units c ≠ [] := by
  unfold utf16Units
  split <;> simp

theorem Reads.initial (text : String) :
    Reads { text := utf8Bytes text } (text.toList.flatMap utf16Units) :=
  ⟨[], text.toList, rfl, rfl, rfl⟩

variable {cur : IrUtf16Cursor} {units : List Int}

theorem Reads.hasNext_iff (h : Reads cur units) : cur.hasNext = true ↔ units ≠ [] := by
  obtain ⟨pre, chars, htext, hposition, rfl⟩ := h
  unfold IrUtf16Cursor.hasNext
  by_cases hlow : cur.pendingLow ≥ 0
  · simp [hlow]
  · rw [hposition, htext]
    cases chars with
    | nil => simp [hlow]
    | cons c chars =>
      have hpos := c.utf8Size_pos
      have hne := utf16Units_ne_nil c
      simp [hlow, hne]
      omega

/-- The next unit is the first of those to hand out, and the cursor goes on to the others. -/
theorem Reads.nextUnit {unit : Int}
    (h : Reads cur (unit :: units)) : cur.nextUnit.1 = unit ∧ Reads cur.nextUnit.2 units := by
  obtain ⟨pre, chars, htext, hposition, hunits⟩ := h
  unfold IrUtf16Cursor.nextUnit
  by_cases hlow : cur.pendingLow ≥ 0
  · rw [if_pos hlow] at hunits ⊢
    injection hunits with hunit hunits
    exact ⟨hunit.symm, pre, chars, htext, hposition, by simpa using hunits⟩
  · rw [if_neg hlow] at hunits
    rw [if_neg hlow]
    cases chars with
    | nil => cases hunits
    | cons c chars =>
      rw [flatMap_cons] at htext hunits
      obtain ⟨hpoint, hwidth⟩ :=
        decode_utf8EncodeChar pre (chars.flatMap String.utf8EncodeChar) c
      rw [← htext, ← hposition] at hpoint hwidth
      have htext' : cur.text =
          (pre ++ String.utf8EncodeChar c) ++ chars.flatMap String.utf8EncodeChar := by
        rw [htext, append_assoc]
      have hnext : cur.bytePosition + (String.utf8EncodeChar c).length =
          (pre ++ String.utf8EncodeChar c).length := by
        rw [length_append, hposition]
      simp only [hpoint, hwidth, hnext]
      unfold utf16Units at hunits
      by_cases hbasic : c.toNat ≤ 65535
      · rw [if_pos hbasic] at hunits
        rw [if_pos (by omega)]
        injection hunits with hunit hunits
        refine ⟨hunit.symm, pre ++ String.utf8EncodeChar c, chars, htext', rfl, ?_⟩
        simp only [if_neg hlow]
        exact hunits
      · rw [if_neg hbasic] at hunits
        rw [if_neg (by omega)]
        injection hunits with hunit hunits
        refine ⟨hunit.symm, pre ++ String.utf8EncodeChar c, chars, htext', rfl, ?_⟩
        have hpending : (56320 : Int) + (((c.toNat : Int) - 65536) -
            ((c.toNat : Int) - 65536) / 1024 * 1024) =
              56320 + ((c.toNat : Int) - 65536) % 1024 := by omega
        simp only [hpending]
        rw [if_pos (by omega)]
        exact hunits

theorem Reads.exists_cons (h : Reads cur units)
    (hnext : cur.hasNext = true) :
    ∃ rest, units = cur.nextUnit.1 :: rest ∧ Reads cur.nextUnit.2 rest := by
  obtain ⟨unit, rest, rfl⟩ := exists_cons_of_ne_nil (h.hasNext_iff.mp hnext)
  obtain ⟨hunit, hrest⟩ := h.nextUnit
  exact ⟨rest, by rw [hunit], hrest⟩

theorem Reads.eq_nil (h : Reads cur units)
    (hnext : ¬cur.hasNext = true) : units = [] := by
  by_contra hne
  exact hnext (h.hasNext_iff.mpr hne)

/-- The comparison of two cursors is that of the units they have still to hand out. -/
theorem compareUnits_eq {left right : IrUtf16Cursor} {ls rs : List Int} (hl : Reads left ls)
    (hr : Reads right rs) :
    compareUnits left right = if ls < rs then -1 else if rs < ls then 1 else 0 := by
  fun_induction compareUnits left right generalizing ls rs with
  | case1 left right hnext hlt =>
    obtain ⟨ls, rfl, -⟩ := hl.exists_cons hnext.1
    obtain ⟨rs, rfl, -⟩ := hr.exists_cons hnext.2
    rw [if_pos (cons_lt_cons_iff.mpr (.inl hlt))]
  | case2 left right hnext hnlt hgt =>
    obtain ⟨ls, rfl, -⟩ := hl.exists_cons hnext.1
    obtain ⟨rs, rfl, -⟩ := hr.exists_cons hnext.2
    have hlt : _ :: rs < _ :: ls := cons_lt_cons_iff.mpr (.inl hgt)
    rw [if_neg (not_lt.mpr hlt.le), if_pos hlt]
  | case3 left right hnext hnlt hngt ih =>
    obtain ⟨ls, rfl, hls⟩ := hl.exists_cons hnext.1
    obtain ⟨rs, rfl, hrs⟩ := hr.exists_cons hnext.2
    rw [ih hls hrs, le_antisymm (not_lt.mp hngt) (not_lt.mp hnlt)]
    simp
  | case4 left right hnext hleft =>
    obtain ⟨ls, rfl, -⟩ := hl.exists_cons hleft
    obtain rfl := hr.eq_nil fun hright => hnext ⟨hleft, hright⟩
    simp
  | case5 left right hnext hleft hright =>
    obtain ⟨rs, rfl, -⟩ := hr.exists_cons hright
    obtain rfl := hl.eq_nil hleft
    simp
  | case6 left right hnext hleft hright =>
    obtain rfl := hl.eq_nil hleft
    obtain rfl := hr.eq_nil hright
    simp

/-! ## The two orders -/

/-- The position of a scalar in the order of UTF-16: the scalars outside the basic plane come
before those from `U+E000` on. -/
def utf16Rank (c : Char) : Nat :=
  if 0xE000 ≤ c.toNat ∧ c.toNat ≤ 0xFFFF then c.toNat + 0x110000 else c.toNat

theorem utf16Rank_injective : Function.Injective utf16Rank := by
  intro c d h
  have hc := toNat_lt c
  have hd := toNat_lt d
  unfold utf16Rank at h
  apply toNat_injective
  split at h <;> split at h <;> omega

theorem utf16Units_parts (c d : Char) (h : utf16Rank c < utf16Rank d) :
    Parts (utf16Units c) (utf16Units d) := by
  have hd := toNat_lt d
  have hcs := not_surrogate c
  unfold utf16Rank at h
  unfold utf16Units
  by_cases hboth : 65535 < c.toNat ∧ 65535 < d.toNat
  · rw [if_neg (by omega), if_neg (by omega)]
    have hlt : c.toNat < d.toNat := by split at h <;> split at h <;> omega
    exact Parts.of_cons (by omega) fun _ => Parts.head (by omega) _ _
  · split <;> split <;> refine Parts.head ?_ _ _ <;> split at h <;> split at h <;> omega

/-- The bytes of a text as numbers: what the comparison of two native strings compares. -/
def byteKey (text : String) : List Nat := (utf8Bytes text).map UInt8.toNat

theorem byteKey_eq (text : String) :
    byteKey text = text.toList.flatMap fun c => (String.utf8EncodeChar c).map UInt8.toNat := by
  unfold byteKey utf8Bytes
  rw [map_flatMap]

theorem utf8EncodeChar_parts (c d : Char) (h : c.toNat < d.toNat) :
    Parts ((String.utf8EncodeChar c).map UInt8.toNat)
      ((String.utf8EncodeChar d).map UInt8.toNat) := by
  have hc := encodes c
  have hd := encodes d
  generalize String.utf8EncodeChar c = bytes at hc
  generalize String.utf8EncodeChar d = bytes' at hd
  cases hc <;> cases hd <;>
  first
  | omega
  | exact Parts.head (by omega) _ _
  | exact Parts.of_cons (by omega) fun _ => Parts.head (by omega) _ _
  | exact Parts.of_cons (by omega) fun _ => Parts.of_cons (by omega) fun _ =>
      Parts.head (by omega) _ _
  | exact Parts.of_cons (by omega) fun _ => Parts.of_cons (by omega) fun _ =>
      Parts.of_cons (by omega) fun _ => Parts.head (by omega) _ _

/-- `irCompareText` puts a text before another where its UTF-16 ranks come first. -/
theorem irCompareText_eq (left right : String) : irCompareText left right =
      if left.toList.map utf16Rank < right.toList.map utf16Rank then -1
      else if right.toList.map utf16Rank < left.toList.map utf16Rank then 1 else 0 := by
  have hlt := flatMap_lt_flatMap_iff utf16Rank_injective utf16Units_parts utf16Units_ne_nil
  unfold irCompareText
  rw [compareUnits_eq (Reads.initial left) (Reads.initial right)]
  simp only [hlt]

/-- Texts are compared by a linear order. -/
theorem irCompareText_linear : ∃ key : String → List Nat, Function.Injective key ∧ ∀ a b,
    irCompareText a b = if key a < key b then -1 else if key b < key a then 1 else 0 :=
  ⟨_, fun _ _ h => String.toList_injective (utf16Rank_injective.list_map h), irCompareText_eq⟩

theorem byteKey_lt_iff (left right : String) :
    byteKey left < byteKey right ↔ left.toList.map Char.toNat < right.toList.map Char.toNat := by
  rw [byteKey_eq, byteKey_eq]
  refine flatMap_lt_flatMap_iff toNat_injective utf8EncodeChar_parts (fun c h => ?_) _ _
  exact String.utf8EncodeChar_ne_nil (map_eq_nil_iff.mp h)

/-- A scalar of the basic plane behind the surrogates. -/
def isHighBasic (c : Char) : Bool := decide (0xE000 ≤ c.toNat) && decide (c.toNat ≤ 0xFFFF)

/-- A scalar outside the basic plane. -/
def isSupplementary (c : Char) : Bool := decide (0x10000 ≤ c.toNat)

/-- At their first difference, one of the texts has a scalar from `U+E000` to `U+FFFF` and the other
one outside the basic plane. -/
def orderConflict (left right : String) : Bool :=
  match firstDifference left.toList right.toList with
  | some (c, d) => (isHighBasic c && isSupplementary d) || (isSupplementary c && isHighBasic d)
  | none => false

theorem utf16Rank_lt_iff (c d : Char) : (utf16Rank c < utf16Rank d ↔ c.toNat < d.toNat) ↔
      ((isHighBasic c && isSupplementary d) || (isSupplementary c && isHighBasic d)) = false := by
  have hc := toNat_lt c
  have hd := toNat_lt d
  unfold utf16Rank isHighBasic isSupplementary
  rw [Bool.or_eq_false_iff, Bool.and_eq_false_iff, Bool.and_eq_false_iff,
    Bool.and_eq_false_iff, Bool.and_eq_false_iff]
  simp only [decide_eq_false_iff_not]
  split <;> split <;> omega

theorem orders_agree_iff (left right : String) :
    (left.toList.map utf16Rank < right.toList.map utf16Rank ↔ byteKey left < byteKey right) ↔
      orderConflict left right = false := by
  rw [byteKey_lt_iff, map_lt_map_iff_map_lt_map utf16Rank_injective toNat_injective]
  unfold orderConflict
  cases hdiff : firstDifference left.toList right.toList with
  | none => simp
  | some pair =>
    obtain ⟨c, d⟩ := pair
    have hiff := utf16Rank_lt_iff c d
    constructor
    · intro h
      exact hiff.mp (h c d rfl)
    · rintro h a b hab
      cases hab
      exact hiff.mpr h

end Neri.Ir
