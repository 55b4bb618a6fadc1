import Neri.Stdlib.Text

/-!
# Strings as sequences of scalars

At the start of a scalar a string can be read and cut as the sequence of its scalars.
-/

namespace Neri.Stdlib

open Utf8 List

namespace Text

/-- The text before an offset and the text from it on. -/
structure SplitsAt (text : Text) (offset : Nat) (before after : List Char) : Prop where
  bytes : text.bytes = encode before ++ encode after
  offset : offset = (encode before).length

variable {text : Text} {off : Nat} {pre after : List Char}

theorem SplitsAt.byteLength (h : text.SplitsAt off pre after) :
    text.byteLength = off + (encode after).length := by
  rw [Text.byteLength, h.bytes, length_append, h.offset]

theorem SplitsAt.drop (h : text.SplitsAt off pre after) : text.bytes.drop off = encode after := by
  rw [h.bytes, h.offset, drop_left]

theorem SplitsAt.byteAt (h : text.SplitsAt off pre after) :
    text.byteAt off = (encode after).head? := by
  rw [Text.byteAt, h.bytes, h.offset, getElem?_append_right (Nat.le_refl _), Nat.sub_self,
    head?_eq_getElem?]

theorem SplitsAt.append {first rest : List Char} (h : text.SplitsAt off pre (first ++ rest)) :
    text.SplitsAt (off + (encode first).length) (pre ++ first) rest := by
  refine ⟨?_, ?_⟩
  · rw [h.bytes, encode_append, encode_append, append_assoc]
  · rw [encode_append, length_append, h.offset]

theorem splitsAt_zero (text : Text) : text.SplitsAt 0 [] text.scalars :=
  ⟨text.encode_scalars.symm, rfl⟩

theorem SplitsAt.isScalarBoundary (h : text.SplitsAt off pre after) :
    text.isScalarBoundary off = true := by
  have hb : text.bytes[off]? = (encode after).head? := h.byteAt
  have hlen := h.byteLength
  unfold Text.isScalarBoundary
  rw [hb]
  cases after with
  | nil => simpa using hlen.symm
  | cons c after =>
    obtain ⟨first, rest, hfirst, hcases⟩ := exists_first c
    rw [encode_cons, hfirst]
    simp only [cons_append, head?_cons, Bool.or_eq_true, decide_eq_true_eq]
    omega

/-- A cut between scalars gives the scalars in between. -/
theorem SplitsAt.slice {mid rest : List Char} (h : text.SplitsAt off pre (mid ++ rest)) :
    text.slice off (encode mid).length = some (ofScalars mid) := by
  have hlen := h.byteLength
  rw [encode_append, length_append] at hlen
  unfold Text.slice
  rw [if_pos (by simp only [Bool.and_eq_true, decide_eq_true_eq]; omega), h.drop, encode_append,
    take_left, fromBytes_encode]

theorem SplitsAt.sliceBytes {mid rest : List Char} (h : text.SplitsAt off pre (mid ++ rest)) :
    text.sliceBytes off (encode mid).length = some (ofScalars mid) := by
  have hlen := h.byteLength
  rw [encode_append, length_append] at hlen
  unfold Text.sliceBytes
  rw [if_neg, h.slice]
  simp only [h.isScalarBoundary, h.append.isScalarBoundary, Bool.not_true, Bool.or_false,
    Bool.or_eq_true, decide_eq_true_eq]
  omega

/-- The bytes of a scalar behind its first one continue it. -/
theorem continuation_of_pos {c : Char} {off : Nat} {b : UInt8}
    (h : (String.utf8EncodeChar c)[off]? = some b) (hpos : 0 < off) :
    128 ≤ b.toNat ∧ b.toNat < 192 := by
  obtain ⟨off, rfl⟩ : ∃ less, off = less + 1 := ⟨off - 1, by omega⟩
  have hbytes := encodes c
  generalize String.utf8EncodeChar c = bytes at hbytes h
  cases hbytes with
  | one => cases h
  | _ =>
    have hmem := mem_of_getElem? (getElem?_cons_succ.symm.trans h)
    simp only [mem_cons, not_mem_nil, or_false] at hmem
    rcases hmem with rfl | hmem <;> grind

/-- An offset where no scalar is cut parts the scalars. -/
theorem exists_encode_split (chars : List Char) (off : Nat)
    (h : ∀ b, (encode chars)[off]? = some b → b.toNat < 128 ∨ 192 ≤ b.toNat)
    (hle : off ≤ (encode chars).length) :
    ∃ pre after, chars = pre ++ after ∧ off = (encode pre).length := by
  induction chars generalizing off with
  | nil => exact ⟨[], [], rfl, Nat.le_zero.mp hle⟩
  | cons c chars ih =>
    by_cases hzero : off = 0
    · exact ⟨[], c :: chars, rfl, hzero⟩
    · rw [encode_cons, length_append] at hle
      rw [encode_cons] at h
      by_cases hwidth : off < (String.utf8EncodeChar c).length
      · -- inside of the first scalar
        have hb := getElem?_eq_getElem hwidth
        have hcut := h _ (by rw [getElem?_append_left hwidth, hb])
        have := continuation_of_pos hb (by omega)
        omega
      · have hread (b : UInt8)
            (hb : (encode chars)[off - (String.utf8EncodeChar c).length]? = some b) :=
          h b (by rw [getElem?_append_right (by omega), hb])
        obtain ⟨pre, after, rfl, hoffset⟩ := ih _ hread (by omega)
        refine ⟨c :: pre, after, rfl, ?_⟩
        rw [encode_cons, length_append]
        omega

theorem exists_splitsAt (h : text.isScalarBoundary off = true) :
    ∃ pre after, text.SplitsAt off pre after := by
  have hbytes := text.encode_scalars
  unfold Text.isScalarBoundary at h
  obtain ⟨pre, after, hscalars, hoffset⟩ := exists_encode_split text.scalars off
    (fun b hb => by
      rw [hbytes] at hb
      simpa [hb] using h)
    (by
      rw [hbytes]
      cases hb : text.bytes[off]? with
      | none =>
        rw [hb] at h
        exact Nat.le_of_eq (of_decide_eq_true h)
      | some b => exact Nat.le_of_lt (List.getElem_of_getElem? hb).1)
  exact ⟨pre, after, by rw [← hbytes, hscalars, encode_append], hoffset⟩

theorem slice_of_drop {part : Text} {start : Nat} {rest : List UInt8}
    (hstart : start ≤ text.byteLength) (h : text.bytes.drop start = part.bytes ++ rest) :
    text.slice start part.byteLength = some part := by
  have hlen := congrArg length h
  rw [length_drop, length_append] at hlen
  have hbounds : (start ≤ text.byteLength && part.byteLength ≤ text.byteLength - start) = true := by
    rw [Bool.and_eq_true, decide_eq_true_eq, decide_eq_true_eq]
    unfold byteLength at hstart ⊢
    omega
  rw [slice, if_pos hbounds, h, byteLength, take_left]
  exact dif_pos part.strict

theorem slice_zero (text : Text) (length : Nat) (h : length ≤ text.byteLength) :
    (text.slice 0 length).map Text.bytes =
      if text.isScalarBoundary length then some (text.bytes.take length) else none := by
  have hbounds : (0 ≤ text.byteLength && length ≤ text.byteLength - 0) = true := by simpa using h
  unfold Text.slice
  rw [if_pos hbounds, drop_zero]
  by_cases hboundary : text.isScalarBoundary length = true
  · rw [if_pos hboundary]
    obtain ⟨pre, after, hsplit⟩ := exists_splitsAt hboundary
    have htake : text.bytes.take length = encode pre := by
      rw [hsplit.bytes, hsplit.offset, take_left]
    rw [htake, fromBytes_encode]
    rfl
  · rw [if_neg hboundary, Option.map_eq_none_iff]
    refine dif_neg fun hstrict => hboundary ?_
    obtain ⟨pre, hbefore⟩ := exists_encode hstrict
    have hrest : isStrictUtf8 (text.bytes.drop length) = true := by
      rw [← isStrictUtf8_encode_append pre, hbefore, take_append_drop]
      exact text.strict
    obtain ⟨after, hafter⟩ := exists_encode hrest
    have hsplit : text.SplitsAt length pre after :=
      ⟨by rw [hbefore, hafter, take_append_drop],
        by rw [hbefore, length_take]; exact (Nat.min_eq_left h).symm⟩
    exact hsplit.isScalarBoundary

end Text

namespace Scalar

theorem fromInt_eq_some {code : Int} {scalar : Scalar} (h : fromInt code = some scalar) :
    (scalar.code : Int) = code := by
  unfold fromInt at h
  split at h
  · cases h
  · cases h
    exact Int.toNat_of_nonneg (by omega)

theorem fromInt_toNat (c : Char) : ∃ scalar, fromInt c.toNat = some scalar ∧
    scalar.code = c.toNat := by
  have hmax := toNat_lt c
  have hsurrogate := not_surrogate c
  unfold fromInt
  rw [dif_neg (by omega)]
  exact ⟨_, rfl, Int.toNat_natCast _⟩

theorem utf8_eq (scalar : Scalar) : scalar.utf8 = String.utf8EncodeChar (Char.ofNat scalar.code) := by
  have hmax := scalar.valid
  refine (Encodes.utf8EncodeChar_eq ?_ scalar.valid).symm
  unfold utf8
  dsimp only
  split_ifs
  · exact .one (by omega) (by simp; omega)
  · exact .two (by omega) (by omega) (by simp; omega) (by simp; omega)
  · exact .three (by omega) (by omega) (by simp; omega) (by simp; omega) (by simp; omega)
  · exact .four (by omega) (by simp; omega) (by simp; omega) (by simp; omega) (by simp; omega)

end Scalar

end Neri.Stdlib
