import Neri.Ir.Proofs.TextProofs

/-!
# What identifiers are made of

The lexer reads an identifier scalar by scalar, so every scalar of it passes the test of the loop.
-/

namespace Neri.Frontend

open Utf8

theorem utf8Bytes_eq (text : String) : utf8Bytes text = encode text.toList := rfl

theorem isIdentifierPart_of_identifierEnd (after : List Char) : ∀ pre : List Char,
    identifierEnd (encode pre ++ encode after) (encode pre).length =
      (encode pre ++ encode after).length → ∀ c ∈ after, isIdentifierPart c.toNat = true := by
  induction after with
  | nil => intro pre _ c hc; cases hc
  | cons c after ih =>
    intro pre h
    obtain ⟨hpoint, hwidth⟩ := Ir.decode_utf8EncodeChar (encode pre) (encode after) c
    obtain ⟨first, rest, hfirst, -⟩ := exists_first c
    have hlength : (encode pre).length < (encode pre ++ encode (c :: after)).length := by
      rw [encode_cons, hfirst]
      simp
    rw [identifierEnd, if_pos hlength, encode_cons, hpoint, hwidth] at h
    by_cases hpart : isIdentifierPart c.toNat = true
    · rw [if_pos hpart] at h
      have hnext : encode pre ++ (String.utf8EncodeChar c ++ encode after) =
          encode (pre ++ [c]) ++ encode after := by simp
      have hposition : (encode pre).length + (String.utf8EncodeChar c).length =
          (encode (pre ++ [c])).length := by simp
      rw [hnext, hposition] at h
      intro d hd
      rcases List.mem_cons.mp hd with rfl | hd
      · exact hpart
      · exact ih (pre ++ [c]) h d hd
    · -- the loop stops before the end
      rw [if_neg hpart] at h
      rw [encode_cons] at hlength
      omega

theorem isIdentifierPart_of_mem {text : String} (h : isIdentifier text = true) {c : Char}
    (hc : c ∈ text.toList) : isIdentifierPart c.toNat = true := by
  unfold isIdentifier at h
  simp only [Bool.and_eq_true, beq_iff_eq, utf8Bytes_eq] at h
  obtain ⟨⟨-, hstart⟩, hend⟩ := h
  cases hchars : text.toList with
  | nil => rw [hchars] at hc; cases hc
  | cons d after =>
    rw [hchars, encode_cons] at hstart hend
    obtain ⟨hpoint, hwidth⟩ := Ir.decode_utf8EncodeChar [] (encode after) d
    simp only [List.nil_append, List.length_nil] at hpoint hwidth
    rw [hpoint] at hstart
    rw [hwidth] at hend
    rw [hchars] at hc
    rcases List.mem_cons.mp hc with rfl | hc
    · unfold isIdentifierPart
      rw [hstart, Bool.true_or]
    · have hsingle : String.utf8EncodeChar d = encode [d] := by simp
      rw [hsingle] at hend
      exact isIdentifierPart_of_identifierEnd after [d] hend c hc

theorem isIdentifierPart_ascii : ∀ code < 128, isIdentifierPart (code : Nat) = true →
    code = 95 ∨ 48 ≤ code ∧ code ≤ 57 ∨ 65 ≤ code ∧ code ≤ 90 ∨ 97 ≤ code ∧ code ≤ 122 := by
  decide +kernel

theorem byte_of_isIdentifier {text : String} (h : isIdentifier text = true) {b : UInt8}
    (hbyte : b ∈ encode text.toList) : 128 ≤ b.toNat ∨ b.toNat = 95 ∨ 48 ≤ b.toNat ∧ b.toNat ≤ 57 ∨
      65 ≤ b.toNat ∧ b.toNat ≤ 90 ∨ 97 ≤ b.toNat ∧ b.toNat ≤ 122 := by
  obtain ⟨c, hc, hmem⟩ := List.mem_flatMap.mp hbyte
  have hpart := isIdentifierPart_of_mem h hc
  by_cases hascii : c.toNat < 128
  · rw [utf8EncodeChar_ascii hascii, List.mem_singleton] at hmem
    rw [hmem, toNat_ofNat_ascii hascii]
    exact .inr (isIdentifierPart_ascii c.toNat hascii hpart)
  · exact .inl (le_of_mem_utf8EncodeChar (by omega) hmem)

theorem encode_ne_nil_of_isIdentifier {text : String} (h : isIdentifier text = true) :
    encode text.toList ≠ [] := by
  unfold isIdentifier at h
  simp only [Bool.and_eq_true, utf8Bytes_eq] at h
  exact List.ne_nil_of_length_pos (of_decide_eq_true h.1.1)

end Neri.Frontend
