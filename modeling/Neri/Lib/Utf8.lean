import Mathlib.Data.List.Basic

/-!
# UTF-8

The bytes of a sequence of Unicode scalars, and the scalars back from the bytes. A scalar below 128
is one byte of its own value. Every other scalar starts with a byte from 192 on and goes on with
bytes from 128 to 191, so a byte below 128 is always a scalar of its own.
-/

namespace Utf8

open List

theorem toNat_lt (c : Char) : c.toNat < 0x110000 := by
  have hvalid := c.valid
  show c.val.toNat < 0x110000
  rcases hvalid with h | ⟨-, h⟩ <;> omega

theorem not_surrogate (c : Char) : c.toNat < 0xd800 ∨ 0xdfff < c.toNat := by
  have hvalid := c.valid
  show c.val.toNat < 0xd800 ∨ 0xdfff < c.val.toNat
  rcases hvalid with h | ⟨h, -⟩
  · exact .inl h
  · exact .inr h

theorem toNat_injective : Function.Injective Char.toNat := by
  intro c d h
  exact Char.ext (UInt32.toNat_inj.mp h)

variable {code : Nat}

theorem toNat_ofNat (h : code.isValidChar) : (Char.ofNat code).toNat = code := by
  rw [Char.ofNat, dif_pos h]
  rfl

/-- The bytes of a scalar, by its size. -/
inductive Encodes (code : Nat) : List UInt8 → Prop
  | one {first : UInt8} : code ≤ 0x7f → first.toNat = code → Encodes code [first]
  | two {first second : UInt8} : 0x7f < code → code ≤ 0x7ff → first.toNat = code / 64 + 192 →
    second.toNat = code % 64 + 128 → Encodes code [first, second]
  | three {first second third : UInt8} : 0x7ff < code → code ≤ 0xffff →
    first.toNat = code / 4096 + 224 → second.toNat = code / 64 % 64 + 128 →
    third.toNat = code % 64 + 128 → Encodes code [first, second, third]
  | four {first second third fourth : UInt8} : 0xffff < code → first.toNat = code / 262144 + 240 →
    second.toNat = code / 4096 % 64 + 128 → third.toNat = code / 64 % 64 + 128 →
    fourth.toNat = code % 64 + 128 → Encodes code [first, second, third, fourth]

theorem encodes (c : Char) : Encodes c.toNat (String.utf8EncodeChar c) := by
  have hmax := toNat_lt c
  have hval : c.val.toNat = c.toNat := rfl
  unfold String.utf8EncodeChar
  simp only [hval]
  split_ifs with h₁ h₂ h₃
  · exact .one h₁ (by simp; omega)
  · exact .two (by omega) h₂ (by simp; omega) (by simp; omega)
  · exact .three (by omega) h₃ (by simp; omega) (by simp; omega) (by simp; omega)
  · exact .four (by omega) (by simp; omega) (by simp; omega) (by simp; omega) (by simp; omega)

variable {bytes : List UInt8}

theorem Encodes.eq {bytes' : List UInt8} (h : Encodes code bytes)
    (h' : Encodes code bytes') : bytes = bytes' := by
  cases h <;> cases h' <;> first
    | omega
    | simp only [cons.injEq, ← UInt8.toNat_inj, and_true]
      omega

theorem Encodes.utf8EncodeChar_eq (h : Encodes code bytes)
    (hvalid : code.isValidChar) : String.utf8EncodeChar (Char.ofNat code) = bytes := by
  have hencodes := encodes (Char.ofNat code)
  rw [toNat_ofNat hvalid] at hencodes
  exact hencodes.eq h

theorem map_toNat_injective : Function.Injective (map UInt8.toNat) :=
  map_injective_iff.mpr fun _ _ h => UInt8.toNat_inj.mp h

/-! ## Sequences of scalars -/

/-- The bytes of a sequence of scalars. -/
def encode (chars : List Char) : List UInt8 := chars.flatMap String.utf8EncodeChar

@[simp] theorem encode_nil : encode [] = [] := rfl

@[simp] theorem encode_cons (c : Char) (chars : List Char) :
    encode (c :: chars) = String.utf8EncodeChar c ++ encode chars := by
  simp [encode]

@[simp] theorem encode_append (chars chars' : List Char) :
    encode (chars ++ chars') = encode chars ++ encode chars' := by
  simp [encode]

variable {c : Char}

theorem toNat_ofNat_ascii (h : c.toNat < 128) : (UInt8.ofNat c.toNat).toNat = c.toNat := by
  rw [UInt8.toNat_ofNat', Nat.mod_eq_of_lt (by omega)]

theorem utf8EncodeChar_ascii (h : c.toNat < 128) :
    String.utf8EncodeChar c = [UInt8.ofNat c.toNat] :=
  (encodes c).eq (.one (by omega) (toNat_ofNat_ascii h))

/-- The first byte of a scalar is its own value or from 192 on. -/
theorem exists_first (c : Char) : ∃ first rest, String.utf8EncodeChar c = first :: rest ∧
    (c.toNat < 128 ∧ first.toNat = c.toNat ∧ rest = [] ∨ 128 ≤ c.toNat ∧ 192 ≤ first.toNat) := by
  have hbytes := encodes c
  generalize String.utf8EncodeChar c = bytes at hbytes
  cases hbytes with
  | one h hfirst => exact ⟨_, _, rfl, .inl ⟨by omega, hfirst, rfl⟩⟩
  | _ => exact ⟨_, _, rfl, .inr ⟨by omega, by omega⟩⟩

/-- No byte of a scalar from 128 on is below 128. -/
theorem le_of_mem_utf8EncodeChar (h : 128 ≤ c.toNat) {b : UInt8}
    (hb : b ∈ String.utf8EncodeChar c) : 128 ≤ b.toNat := by
  have hbytes := encodes c
  generalize String.utf8EncodeChar c = bytes at hbytes hb
  cases hbytes with
  | one => omega
  | _ =>
    simp only [mem_cons, not_mem_nil, or_false] at hb
    rcases hb with rfl | hbyte <;> grind

theorem forall_ascii (kind : Char → Prop) (h : ∀ code < 128, kind (Char.ofNat code))
    (hc : c.toNat < 128) : kind c := by
  have := h c.toNat hc
  rwa [Char.ofNat_toNat] at this

theorem encode_cons_ascii (h : c.toNat < 128) (chars : List Char) :
    encode (c :: chars) = UInt8.ofNat c.toNat :: encode chars := by
  rw [encode_cons, utf8EncodeChar_ascii h]
  rfl

/-- A text that starts with an ASCII byte starts with that character. -/
theorem encode_eq_cons_ascii {chars : List Char} {b : UInt8}
    (h : encode chars = b :: bytes) (hb : b.toNat < 128) :
    ∃ rest, chars = Char.ofNat b.toNat :: rest ∧ encode rest = bytes := by
  cases chars with
  | nil => cases h
  | cons c chars =>
    obtain ⟨first, rest, hfirst, hcases⟩ := exists_first c
    rw [encode_cons, hfirst] at h
    obtain ⟨rfl, hrest⟩ := cons.inj h
    rcases hcases with ⟨-, hc, rfl⟩ | ⟨-, hlarge⟩
    · refine ⟨chars, ?_, hrest⟩
      rw [hc, Char.ofNat_toNat]
    · omega

/-- The number of bytes of a scalar grows with the scalar. -/
theorem length_utf8EncodeChar_le (c : Char) : (String.utf8EncodeChar c).length ≤ 4 ∧
    (c.toNat < 65536 → (String.utf8EncodeChar c).length ≤ 3) ∧
    (c.toNat < 128 → (String.utf8EncodeChar c).length = 1) := by
  have hbytes := encodes c
  generalize String.utf8EncodeChar c = bytes at hbytes
  cases hbytes with
  | one => exact ⟨by simp, by simp, fun _ => rfl⟩
  | four => exact ⟨by simp, by omega, by omega⟩
  | _ => exact ⟨by simp, by simp, by omega⟩

/-! ## Runs of bytes -/

/-- A test of bytes that is a test of scalars: it accepts all bytes of a scalar or refuses the first. -/
structure ByteTest (test : UInt8 → Bool) (accepts : Char → Bool) : Prop where
  accepted : ∀ c, accepts c = true → ∀ b ∈ String.utf8EncodeChar c, test b = true
  refused : ∀ c, accepts c = false → ∃ first rest, String.utf8EncodeChar c = first :: rest ∧
    test first = false

/-- A test that decides the same for every byte from 128 on. -/
theorem ByteTest.of_ascii {test : UInt8 → Bool} {accepts : Char → Bool} (high : Bool)
    (hlow : ∀ c : Char, c.toNat < 128 → test (UInt8.ofNat c.toNat) = accepts c)
    (hb : ∀ b : UInt8, 128 ≤ b.toNat → test b = high)
    (hhigh : ∀ c : Char, 128 ≤ c.toNat → accepts c = high) : ByteTest test accepts where
  accepted c hc b hmem := by
    by_cases hascii : c.toNat < 128
    · rw [utf8EncodeChar_ascii hascii, mem_singleton] at hmem
      rw [hmem, hlow c hascii, hc]
    · rw [hb b (le_of_mem_utf8EncodeChar (by omega) hmem), ← hhigh c (by omega), hc]
  refused c hc := by
    by_cases hascii : c.toNat < 128
    · exact ⟨_, _, utf8EncodeChar_ascii hascii, by rw [hlow c hascii, hc]⟩
    · obtain ⟨first, rest, hfirst, hcases⟩ := exists_first c
      exact ⟨first, rest, hfirst, by rw [hb first (by omega), ← hhigh c (by omega), hc]⟩

variable {test : UInt8 → Bool} {accepts : Char → Bool}

theorem ByteTest.takeWhile_encode (h : ByteTest test accepts) (chars : List Char) :
    (encode chars).takeWhile test = encode (chars.takeWhile accepts) := by
  induction chars with
  | nil => rfl
  | cons c chars ih =>
    cases hc : accepts c with
    | true =>
      rw [encode_cons, takeWhile_append_of_pos (h.accepted c hc), ih,
        takeWhile_cons_of_pos hc, encode_cons]
    | false =>
      obtain ⟨first, rest, hfirst, hrefused⟩ := h.refused c hc
      rw [encode_cons, hfirst, cons_append, takeWhile_cons_of_neg (by simp [hrefused]),
        takeWhile_cons_of_neg (by simp [hc]), encode_nil]

theorem ByteTest.dropWhile_encode (h : ByteTest test accepts) (chars : List Char) :
    (encode chars).dropWhile test = encode (chars.dropWhile accepts) := by
  have hsplit : encode chars = encode (chars.takeWhile accepts) ++ encode (chars.dropWhile accepts) := by
    rw [← encode_append, takeWhile_append_dropWhile]
  have hsplit' := takeWhile_append_dropWhile (p := test) (l := encode chars)
  rw [h.takeWhile_encode] at hsplit'
  exact append_cancel_left (hsplit'.trans hsplit)

/-! ## Decoding -/

/-- The scalars of bytes; what follows a sequence that breaks off is left out. -/
def decode : List UInt8 → List Char
  | [] => []
  | first :: rest =>
    if first.toNat < 128 then Char.ofNat first.toNat :: decode rest
    else if first.toNat < 224 then
      match rest with
      | second :: rest =>
        Char.ofNat ((first.toNat - 192) * 64 + (second.toNat - 128)) :: decode rest
      | _ => []
    else if first.toNat < 240 then
      match rest with
      | second :: third :: rest =>
        Char.ofNat ((first.toNat - 224) * 4096 + (second.toNat - 128) * 64 + (third.toNat - 128)) ::
          decode rest
      | _ => []
    else
      match rest with
      | second :: third :: fourth :: rest =>
        Char.ofNat ((first.toNat - 240) * 262144 + (second.toNat - 128) * 4096 +
          (third.toNat - 128) * 64 + (fourth.toNat - 128)) :: decode rest
      | _ => []

theorem decode_utf8EncodeChar_append (c : Char) (bytes : List UInt8) :
    decode (String.utf8EncodeChar c ++ bytes) = c :: decode bytes := by
  have hchar : ∀ code, code = c.toNat → Char.ofNat code = c := by
    intro code hcode
    rw [hcode, Char.ofNat_toNat]
  have hbytes := encodes c
  generalize String.utf8EncodeChar c = sequence at hbytes
  cases hbytes <;> (simp only [cons_append, nil_append]; rw [decode.eq_def]; dsimp only)
  · rw [if_pos (by omega), hchar _ (by omega)]
  · rw [if_neg (by omega), if_pos (by omega), hchar _ (by omega)]
  · rw [if_neg (by omega), if_neg (by omega), if_pos (by omega), hchar _ (by omega)]
  · rw [if_neg (by omega), if_neg (by omega), if_neg (by omega), hchar _ (by omega)]

theorem decode_encode (chars : List Char) : decode (encode chars) = chars := by
  induction chars with
  | nil => rfl
  | cons c chars ih => rw [encode_cons, decode_utf8EncodeChar_append, ih]

theorem encode_injective : Function.Injective encode :=
  Function.LeftInverse.injective decode_encode

end Utf8
