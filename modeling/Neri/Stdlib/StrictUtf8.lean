import Neri.Lib.Utf8

/-!
# Strict UTF-8 (`runtime.cpp`)

The check that the runtime makes before it makes a string of bytes. It accepts exactly the encodings
of sequences of Unicode scalars: no overlong sequence, no surrogate and nothing past the last scalar.
-/

namespace Neri.Stdlib

open Utf8

def isContinuation (value : UInt8) : Bool := value &&& 0xc0 == 0x80

/-- Whether a byte is in a range. -/
def UInt8.between (value : UInt8) (low high : Nat) : Bool :=
  low ≤ value.toNat && value.toNat ≤ high

def isStrictUtf8 : List UInt8 → Bool
  | [] => true
  | first :: rest =>
    if first.toNat ≤ 0x7f then isStrictUtf8 rest
    else if UInt8.between first 0xc2 0xdf then
      match rest with
      | second :: rest => isContinuation second && isStrictUtf8 rest
      | _ => false
    else if UInt8.between first 0xe0 0xef then
      match rest with
      | second :: third :: rest =>
        (if first.toNat = 0xe0 then UInt8.between second 0xa0 0xbf
          else if first.toNat = 0xed then UInt8.between second 0x80 0x9f
          else isContinuation second) &&
          isContinuation third && isStrictUtf8 rest
      | _ => false
    else if UInt8.between first 0xf0 0xf4 then
      match rest with
      | second :: third :: fourth :: rest =>
        (if first.toNat = 0xf0 then UInt8.between second 0x90 0xbf
          else if first.toNat = 0xf4 then UInt8.between second 0x80 0x8f
          else isContinuation second) &&
          isContinuation third && isContinuation fourth && isStrictUtf8 rest
      | _ => false
    else false

theorem forall_byte {P : UInt8 → Prop} (h : ∀ n < 256, P (UInt8.ofNat n)) (byte : UInt8) :
    P byte := by
  have hbyte := h byte.toNat byte.toNat_lt
  rwa [UInt8.ofNat_toNat] at hbyte

theorem between_iff {value : UInt8} {low high : Nat} :
    UInt8.between value low high = true ↔ low ≤ value.toNat ∧ value.toNat ≤ high := by
  simp [UInt8.between]

theorem isContinuation_iff {value : UInt8} :
    isContinuation value = true ↔ 128 ≤ value.toNat ∧ value.toNat ≤ 191 := by
  have hall : ∀ (q : Fin 4) (r : Fin 64),
      isContinuation (UInt8.ofNat (64 * q.val + r.val)) = true ↔ q.val = 2 := by
    decide
  have hlt := UInt8.toNat_lt value
  have hvalue := hall ⟨value.toNat / 64, by omega⟩ ⟨value.toNat % 64, by omega⟩
  have hsplit : 64 * (value.toNat / 64) + value.toNat % 64 = value.toNat := by omega
  dsimp only at hvalue
  rw [hsplit, UInt8.ofNat_toNat] at hvalue
  rw [hvalue]
  omega

/-- Behind two of the first bytes, the second is in a smaller range. -/
theorem second_iff {first second : UInt8} {least last low high : Nat}
    (h : 128 ≤ low ∧ high ≤ 191 ∧ least ≠ last) :
    (if first.toNat = least then UInt8.between second low 0xbf
      else if first.toNat = last then UInt8.between second 0x80 high
      else isContinuation second) = true ↔
      128 ≤ second.toNat ∧ second.toNat ≤ 191 ∧ (first.toNat = least → low ≤ second.toNat) ∧
        (first.toNat = last → second.toNat ≤ high) := by
  split_ifs
  · rw [between_iff]
    omega
  · rw [between_iff]
    omega
  · rw [isContinuation_iff]
    omega

theorem isStrictUtf8_of_ascii {bytes : List UInt8} (h : ∀ byte ∈ bytes, byte.toNat ≤ 127) :
    isStrictUtf8 bytes = true := by
  induction bytes with
  | nil => rfl
  | cons first rest ih =>
    obtain ⟨hfirst, hrest⟩ := List.forall_mem_cons.mp h
    unfold isStrictUtf8
    rw [if_pos hfirst]
    exact ih hrest

theorem isStrictUtf8_utf8EncodeChar_append (c : Char) (bytes : List UInt8) :
    isStrictUtf8 (String.utf8EncodeChar c ++ bytes) = isStrictUtf8 bytes := by
  have hmax := toNat_lt c
  have hsurrogate := not_surrogate c
  have hbytes := encodes c
  generalize String.utf8EncodeChar c = sequence at hbytes
  cases hbytes with
  | @one first =>
    show isStrictUtf8 (first :: bytes) = _
    rw [isStrictUtf8.eq_def]
    dsimp only
    rw [if_pos (by omega)]
  | @two first second =>
    show isStrictUtf8 (first :: second :: bytes) = _
    have hsecond' : isContinuation second = true := isContinuation_iff.mpr (by omega)
    rw [isStrictUtf8.eq_def]
    dsimp only
    rw [if_neg (by omega), if_pos (between_iff.mpr (by omega)), hsecond', Bool.true_and]
  | @three first second third =>
    show isStrictUtf8 (first :: second :: third :: bytes) = _
    have hthird' : isContinuation third = true := isContinuation_iff.mpr (by omega)
    -- No overlong sequence and no surrogate.
    have hsecond' := (@second_iff first second 0xe0 0xed 0xa0 0x9f (by decide)).mpr (by omega)
    rw [isStrictUtf8.eq_def]
    dsimp only
    rw [if_neg (by omega), if_neg (by rw [between_iff]; omega), if_pos (between_iff.mpr (by omega)),
      hsecond', hthird', Bool.true_and, Bool.true_and]
  | @four first second third fourth =>
    show isStrictUtf8 (first :: second :: third :: fourth :: bytes) = _
    have hthird' : isContinuation third = true := isContinuation_iff.mpr (by omega)
    have hfourth' : isContinuation fourth = true := isContinuation_iff.mpr (by omega)
    have hsecond' := (@second_iff first second 0xf0 0xf4 0x90 0x8f (by decide)).mpr (by omega)
    rw [isStrictUtf8.eq_def]
    dsimp only
    rw [if_neg (by omega), if_neg (by rw [between_iff]; omega), if_neg (by rw [between_iff]; omega),
      if_pos (between_iff.mpr (by omega)), hsecond', hthird', hfourth', Bool.true_and,
      Bool.true_and, Bool.true_and]

theorem isStrictUtf8_encode_append (chars : List Char) (bytes : List UInt8) :
    isStrictUtf8 (encode chars ++ bytes) = isStrictUtf8 bytes := by
  induction chars with
  | nil => rfl
  | cons c chars ih => rw [encode_cons, List.append_assoc, isStrictUtf8_utf8EncodeChar_append, ih]

theorem isStrictUtf8_encode (chars : List Char) : isStrictUtf8 (encode chars) = true := by
  rw [← List.append_nil (encode chars), isStrictUtf8_encode_append]
  rfl

theorem exists_encode {bytes : List UInt8} (h : isStrictUtf8 bytes = true) :
    ∃ chars, encode chars = bytes := by
  have hcons : ∀ (code : Nat) {sequence rest : List UInt8}, Encodes code sequence →
      code.isValidChar → (∃ chars, encode chars = rest) →
      ∃ chars, encode chars = sequence ++ rest := by
    rintro code sequence rest hencodes hvalid ⟨chars, rfl⟩
    exact ⟨Char.ofNat code :: chars, by rw [encode_cons, hencodes.utf8EncodeChar_eq hvalid]⟩
  fun_induction isStrictUtf8 bytes with
  | case1 => exact ⟨[], rfl⟩
  | case2 first rest hfirst ih =>
    exact hcons first.toNat (.one hfirst rfl) (.inl (by omega)) (ih h)
  | case3 first hfirst hrange second rest ih =>
    rw [Bool.and_eq_true, isContinuation_iff] at h
    rw [between_iff] at hrange
    exact hcons ((first.toNat - 192) * 64 + (second.toNat - 128))
      (.two (by omega) (by omega) (by omega) (by omega)) (.inl (by omega)) (ih h.2)
  | case5 first hfirst _ hrange second third rest ih =>
    rw [Bool.and_eq_true, Bool.and_eq_true, isContinuation_iff, second_iff (by decide)] at h
    rw [between_iff] at hrange
    obtain ⟨⟨hsecond, hthird⟩, hrest⟩ := h
    exact hcons ((first.toNat - 224) * 4096 + (second.toNat - 128) * 64 + (third.toNat - 128))
      (.three (by omega) (by omega) (by omega) (by omega) (by omega))
      (by unfold Nat.isValidChar; omega) (ih hrest)
  | case7 first hfirst _ _ hrange second third fourth rest ih =>
    rw [Bool.and_eq_true, Bool.and_eq_true, Bool.and_eq_true, isContinuation_iff,
      isContinuation_iff, second_iff (by decide)] at h
    rw [between_iff] at hrange
    obtain ⟨⟨⟨hsecond, hthird⟩, hfourth⟩, hrest⟩ := h
    exact hcons ((first.toNat - 240) * 262144 + (second.toNat - 128) * 4096 +
        (third.toNat - 128) * 64 + (fourth.toNat - 128))
      (.four (by omega) (by omega) (by omega) (by omega) (by omega))
      (by unfold Nat.isValidChar; omega) (ih hrest)
  | case4 | case6 | case8 | case9 => cases h

end Neri.Stdlib
