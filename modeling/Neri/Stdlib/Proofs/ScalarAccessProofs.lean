import Neri.Ir.Proofs.TextProofs
import Neri.Stdlib.Proofs.TextProofs
import Neri.Stdlib.ScalarAccess

/-!
# The scalars of a string are found

The loops go from one scalar to the next, for the first byte of a scalar tells its width. Boundaries
are the offsets behind the first scalars.
-/

namespace Neri.Stdlib

open Utf8 List

namespace Text

variable {text : Text} {off : Nat} {pre after chars : List Char} {c : Char}

theorem SplitsAt.next (h : text.SplitsAt off pre (c :: after)) :
    off < text.byteLength ∧ Frontend.codePointAt text.bytes off = c.toNat ∧
      text.SplitsAt (off + text.widthAt off) (pre ++ [c]) after := by
  obtain ⟨hpoint, hwidth⟩ := Ir.decode_utf8EncodeChar (encode pre) (encode after) c
  obtain ⟨first, rest, hfirst, -⟩ := exists_first c
  rw [← encode_cons, ← h.bytes, ← h.offset] at hpoint hwidth
  have hlength := h.byteLength
  rw [encode_cons, hfirst, cons_append, length_cons] at hlength
  refine ⟨by omega, hpoint, ?_⟩
  have hnext := (show text.SplitsAt off pre ([c] ++ after) from h).append
  rwa [encode_cons, encode_nil, append_nil, ← hwidth] at hnext

theorem SplitsAt.not_lt (h : text.SplitsAt off pre []) : ¬off < text.byteLength :=
  Nat.not_lt.mpr (Nat.le_of_eq h.byteLength)

theorem SplitsAt.scalarCountFrom (h : text.SplitsAt off pre after) (count : Nat) :
    text.scalarCountFrom off count = count + after.length := by
  induction after generalizing off pre count with
  | nil =>
    rw [Text.scalarCountFrom, if_neg h.not_lt]
    rfl
  | cons c after ih =>
    rw [Text.scalarCountFrom, if_pos h.next.1, ih h.next.2.2, length_cons]
    omega

theorem SplitsAt.scalarAtFrom (h : text.SplitsAt off pre after) {i current : Int}
    (hle : current ≤ i) : text.scalarAtFrom i off current =
      some (after[(i - current).toNat]?.map fun c => (c.toNat : Int)) := by
  induction after generalizing off pre current with
  | nil =>
    rw [Text.scalarAtFrom, if_neg h.not_lt]
    rfl
  | cons c after ih =>
    obtain ⟨hlt, hpoint, hnext⟩ := h.next
    rw [Text.scalarAtFrom, if_pos hlt]
    split_ifs with hcurrent hinside
    · simp [hpoint, hcurrent]
    · exact absurd (Nat.le.intro hnext.byteLength.symm) hinside
    · have hindex : (i - current).toNat = (i - (current + 1)).toNat + 1 := by omega
      rw [ih hnext (by omega), hindex, getElem?_cons_succ]

/-! ## Boundaries -/

/-- The offset behind the first scalars. -/
def offsetOf (chars : List Char) (count : Nat) : Nat := (encode (chars.take count)).length

theorem isScalarBoundaryAt_iff {off : Int} : (ofScalars chars).isScalarBoundaryAt off = true ↔
      ∃ count ≤ chars.length, off = offsetOf chars count := by
  unfold isScalarBoundaryAt offsetOf
  rw [Bool.and_eq_true, Bool.not_eq_true', decide_eq_false_iff_not]
  constructor
  · rintro ⟨hpos, hboundary⟩
    obtain ⟨pre, after, hsplit⟩ := exists_splitsAt hboundary
    obtain rfl : chars = pre ++ after :=
      encode_injective (hsplit.bytes.trans (encode_append pre after).symm)
    have hoffset := hsplit.offset
    exact ⟨pre.length, by simp, by rw [take_left]; omega⟩
  · rintro ⟨count, -, rfl⟩
    have hsplit : (ofScalars chars).SplitsAt (offsetOf chars count) (chars.take count)
        (chars.drop count) := ⟨by rw [← encode_append, take_append_drop]; rfl, rfl⟩
    exact ⟨by omega, hsplit.isScalarBoundary⟩

variable {first last : Nat}

theorem take_eq_append (chars : List Char) (h : first ≤ last) :
    chars.take last = chars.take first ++ (chars.take last).drop first :=
  (take_append_drop first (chars.take last)).symm.trans
    (by rw [take_take, Nat.min_eq_left h])

theorem offsetOf_eq_add (chars : List Char) (h : first ≤ last) :
    offsetOf chars last = offsetOf chars first + (encode ((chars.take last).drop first)).length :=
  (congrArg (fun chars => (encode chars).length) (take_eq_append chars h)).trans
    (by simp [offsetOf])

variable {length : Int}

theorem sliceBytesAt_offsetOf (hle : first ≤ last)
    (hend : offsetOf chars first + length = offsetOf chars last) :
    (ofScalars chars).sliceBytesAt (offsetOf chars first) length =
      some (ofScalars ((chars.take last).drop first)) := by
  have hsplit : (ofScalars chars).SplitsAt (offsetOf chars first) (chars.take first)
      ((chars.take last).drop first ++ chars.drop last) := by
    refine ⟨?_, rfl⟩
    rw [← encode_append, ← append_assoc, ← take_eq_append chars hle, take_append_drop]
    rfl
  have hlength := offsetOf_eq_add chars hle
  obtain rfl : length = (encode ((chars.take last).drop first)).length := by omega
  unfold Text.sliceBytesAt
  rw [if_neg (by simp), Int.toNat_natCast, Int.toNat_natCast, hsplit.sliceBytes]

theorem boundaries_of_sliceBytesAt {start : Int} {part : Text}
    (h : text.sliceBytesAt start length = some part) : 0 ≤ length ∧
      text.isScalarBoundaryAt start = true ∧ text.isScalarBoundaryAt (start + length) = true := by
  unfold Text.sliceBytesAt Text.sliceBytes at h
  split_ifs at h with hnegative hrefused
  simp only [Bool.or_eq_true, decide_eq_true_eq, not_or, Bool.not_eq_true', Bool.not_eq_false]
    at hnegative hrefused
  have hend : (start + length).toNat = start.toNat + length.toNat := by omega
  unfold isScalarBoundaryAt
  rw [hend, hrefused.1.2, hrefused.2]
  simp
  omega

theorem sliceBytesAt_iff {start : Int} {part : Text} :
    (ofScalars chars).sliceBytesAt start length = some part ↔ ∃ first last, first ≤ last ∧
      last ≤ chars.length ∧ start = offsetOf chars first ∧ start + length = offsetOf chars last ∧
      ofScalars ((chars.take last).drop first) = part := by
  constructor
  · intro h
    obtain ⟨hpos, hstart, hend⟩ := boundaries_of_sliceBytesAt h
    obtain ⟨first, hfirst, rfl⟩ := isScalarBoundaryAt_iff.mp hstart
    obtain ⟨last, hlast, hend⟩ := isScalarBoundaryAt_iff.mp hend
    rcases Nat.le_total first last with hle | hle
    · rw [sliceBytesAt_offsetOf hle hend] at h
      exact ⟨first, last, hle, hlast, rfl, hend, Option.some.inj h⟩
    · -- no scalar is between them, and the slice is empty
      have hback := offsetOf_eq_add chars hle
      have hend' : offsetOf chars first + length = offsetOf chars first := by omega
      rw [sliceBytesAt_offsetOf (Nat.le_refl _) hend'] at h
      exact ⟨first, first, Nat.le_refl _, hfirst, rfl, hend', Option.some.inj h⟩
  · rintro ⟨first, last, hle, -, rfl, hend, rfl⟩
    exact sliceBytesAt_offsetOf hle hend

end Text

/-! ## The text of a sequence of scalars -/

def Scalar.char (scalar : Scalar) : Char := Char.ofNat scalar.code

theorem flatMap_utf8 (scalars : List Scalar) :
    scalars.flatMap Scalar.utf8 = encode (scalars.map Scalar.char) := by
  rw [encode, flatMap_map]
  exact flatMap_congr fun scalar _ => scalar.utf8_eq

/-- The text of a sequence of scalars gives the scalars back. Its boundaries are the offsets behind the
first scalars, and its slices are the texts of the scalars between two of them. -/
theorem scalar_access (scalars : List Scalar) :
    ∃ text, Text.fromBytes (scalars.flatMap Scalar.utf8) = some text ∧
      text.scalarCount = scalars.length ∧
      (∀ i, text.scalarAt i = some (if i < 0 then none
        else scalars[i.toNat]?.map fun scalar => (scalar.code : Int))) ∧
      (∀ off : Int, text.isScalarBoundaryAt off = true ↔ ∃ count ≤ scalars.length,
        off = ((scalars.take count).flatMap Scalar.utf8).length) ∧
      ∀ start length part, text.sliceBytesAt start length = some part ↔
        ∃ first last, first ≤ last ∧ last ≤ scalars.length ∧
          start = ((scalars.take first).flatMap Scalar.utf8).length ∧
          start + length = ((scalars.take last).flatMap Scalar.utf8).length ∧
          Text.fromBytes (((scalars.take last).drop first).flatMap Scalar.utf8) = some part := by
  set chars := scalars.map Scalar.char with hchars
  have hlength : chars.length = scalars.length := length_map _
  have hoffset (count : Nat) :
      ((scalars.take count).flatMap Scalar.utf8).length = Text.offsetOf chars count := by
    rw [flatMap_utf8, map_take]
    rfl
  have hsplit := Text.splitsAt_zero (Text.ofScalars chars)
  rw [Text.scalars_ofScalars] at hsplit
  simp only [hoffset, ← hlength]
  refine ⟨_, by rw [flatMap_utf8, Text.fromBytes_encode], ?_, fun i => ?_,
    fun off => Text.isScalarBoundaryAt_iff, fun start length part => ?_⟩
  · rw [Text.scalarCount, hsplit.scalarCountFrom, Nat.zero_add]
  · unfold Text.scalarAt
    split_ifs with hindex
    · rfl
    · rw [hsplit.scalarAtFrom (Int.not_lt.mp hindex), Int.sub_zero, hchars, getElem?_map,
        Option.map_map]
      exact congrArg some (Option.map_congr fun scalar _ =>
        congrArg Int.ofNat (toNat_ofNat scalar.valid))
  · simp only [flatMap_utf8, Text.fromBytes_encode, Option.some_inj, map_drop, map_take]
    exact Text.sliceBytesAt_iff

end Neri.Stdlib
