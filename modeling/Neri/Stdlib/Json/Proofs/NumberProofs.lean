import Neri.Stdlib.Json.Grammar
import Neri.Stdlib.Proofs.TextProofs

/-!
# `validNumber` accepts the numbers of the grammar

The scan reads bytes. Every character of a number is a byte of its own, and a longer character never
looks like one, so each part of the scan takes the part of the grammar that starts there.
-/

namespace Neri.Stdlib.Json

open Utf8 List

variable {text : List Char} {bytes : List UInt8}

/-! ## Digits -/

theorem isDigit_iff {c : Char} : IsDigit c ↔ 48 ≤ c.toNat ∧ c.toNat ≤ 57 := Iff.rfl

instance : DecidablePred IsDigit := fun _ => decidable_of_iff _ isDigit_iff.symm

theorem IsDigit.toNat_lt {c : Char} (h : IsDigit c) : c.toNat < 128 := by
  have := isDigit_iff.mp h
  omega

theorem digit_iff {b : UInt8} : digit b = true ↔ 48 ≤ b.toNat ∧ b.toNat ≤ 57 := by
  simp [digit]

theorem byteTest_digit : ByteTest digit (fun c => decide (IsDigit c)) := by
  refine .of_ascii false (fun c hc => ?_) (fun b hbyte => ?_) (fun c hc => ?_)
  · rw [Bool.eq_iff_iff, digit_iff, decide_eq_true_eq, isDigit_iff, toNat_ofNat_ascii hc]
  · rw [Bool.eq_false_iff, ne_eq, digit_iff]
    omega
  · rw [decide_eq_false_iff_not, isDigit_iff]
    omega

def NotHead (kind : Char → Prop) (text : List Char) : Prop := ∀ c ∈ text.head?, ¬ kind c

theorem notHead_nil (kind : Char → Prop) : NotHead kind [] := by simp [NotHead]

theorem notHead_cons {kind : Char → Prop} {c : Char} (h : ¬kind c) (rest : List Char) :
    NotHead kind (c :: rest) := fun _ hc => Option.some.inj hc ▸ h

theorem exists_run (kind : Char → Prop) [DecidablePred kind] (text : List Char) :
    ∃ run rest, text = run ++ rest ∧ (∀ c ∈ run, kind c) ∧ NotHead kind rest := by
  refine ⟨text.takeWhile fun c => decide (kind c), text.dropWhile fun c => decide (kind c),
    takeWhile_append_dropWhile.symm, fun c hc => ?_, fun c hc => ?_⟩
  · exact of_decide_eq_true (all_eq_true.mp all_takeWhile c hc)
  · have hnot := head?_dropWhile_not (fun c => decide (kind c)) text
    rw [hc] at hnot
    exact of_decide_eq_false hnot

/-- A run of digits is dropped as the grammar splits it. -/
theorem dropWhile_digit_append {digits rest : List Char} (hdigits : ∀ c ∈ digits, IsDigit c)
    (hrest : NotHead IsDigit rest) : (encode (digits ++ rest)).dropWhile digit = encode rest := by
  rw [byteTest_digit.dropWhile_encode, dropWhile_append_of_pos (by simpa using hdigits)]
  cases rest with
  | nil => rfl
  | cons c rest => rw [dropWhile_cons_of_neg (by simpa using hrest c rfl)]

/-! ## The parts of a number -/

theorem first_ne (c : Char) (value : UInt8) (hc : value.toNat = c.toNat ∧ value.toNat < 128)
    (h : text.head? ≠ some c) {b : UInt8} (hbytes : encode text = b :: bytes) : b ≠ value := by
  rintro rfl
  obtain ⟨rest, rfl, -⟩ := encode_eq_cons_ascii hbytes hc.2
  rw [hc.1, Char.ofNat_toNat] at h
  exact h rfl

theorem leading_iff (low : Nat) :
    (∃ b tail, encode text = b :: tail ∧ (low ≤ b.toNat ∧ b.toNat ≤ 57) ∧
      tail.dropWhile digit = bytes) ↔
      ∃ first digits rest, text = first :: digits ++ rest ∧ (low ≤ first.toNat ∧ first.toNat ≤ 57) ∧
        (∀ c ∈ digits, IsDigit c) ∧ NotHead IsDigit rest ∧ bytes = encode rest := by
  constructor
  · rintro ⟨b, tail, hbytes, hbyte, rfl⟩
    obtain ⟨rest, rfl, rfl⟩ := encode_eq_cons_ascii hbytes (by omega)
    obtain ⟨digits, rest, rfl, hdigits, hrest⟩ := exists_run IsDigit rest
    refine ⟨_, digits, rest, rfl, ?_, hdigits, hrest, dropWhile_digit_append hdigits hrest⟩
    rwa [toNat_ofNat (.inl (by omega))]
  · rintro ⟨first, digits, rest, rfl, hfirst, hdigits, hrest, rfl⟩
    have hascii : first.toNat < 128 := by omega
    refine ⟨_, _, encode_cons_ascii hascii _, ?_, dropWhile_digit_append hdigits hrest⟩
    rwa [toNat_ofNat_ascii hascii]

theorem scanDigits_encode_iff : scanDigits (encode text) = some bytes ↔
      ∃ digits rest, text = digits ++ rest ∧ IsDigits digits ∧ NotHead IsDigit rest ∧
        bytes = encode rest := by
  have hscan : scanDigits (encode text) = some bytes ↔ ∃ b tail, encode text = b :: tail ∧
      (48 ≤ b.toNat ∧ b.toNat ≤ 57) ∧ tail.dropWhile digit = bytes := by
    cases encode text <;> simp [scanDigits, digit_iff]
  rw [hscan, leading_iff 48]
  constructor
  · rintro ⟨first, digits, rest, rfl, hfirst, hdigits, hrest⟩
    exact ⟨first :: digits, rest, rfl, ⟨by simp, forall_mem_cons.mpr ⟨hfirst, hdigits⟩⟩, hrest⟩
  · rintro ⟨digits, rest, rfl, ⟨hne, hdigits⟩, hrest⟩
    obtain ⟨first, digits, rfl⟩ := exists_cons_of_ne_nil hne
    obtain ⟨hfirst, hdigits⟩ := forall_mem_cons.mp hdigits
    exact ⟨first, digits, rest, rfl, hfirst, hdigits, hrest⟩

theorem scanInteger_encode_iff : scanInteger (encode text) = some bytes ↔
      ∃ integer rest, text = integer ++ rest ∧ IsInteger integer ∧
        (integer = ['0'] ∨ NotHead IsDigit rest) ∧ bytes = encode rest := by
  by_cases hzero : text.head? = some '0'
  · obtain ⟨tail, rfl⟩ := head?_eq_some_iff.mp hzero
    constructor
    · intro h
      exact ⟨['0'], tail, rfl, .inl rfl, .inl rfl, (Option.some.inj h).symm⟩
    · rintro ⟨integer, rest, heq, rfl | ⟨first, digits, rfl, hfirst, -⟩, -, rfl⟩
      · rw [(cons.inj heq).2]
        rfl
      · obtain rfl := (cons.inj heq).1
        exact absurd hfirst (by decide)
  · have hscan : scanInteger (encode text) = some bytes ↔ ∃ b tail, encode text = b :: tail ∧
        (49 ≤ b.toNat ∧ b.toNat ≤ 57) ∧ tail.dropWhile digit = bytes := by
      cases hbytes : encode text with
      | nil => simp [scanInteger]
      | cons b tail =>
        rw [scanInteger, if_neg (first_ne '0' 48 (by decide) hzero hbytes)]
        simp [digit19]
    rw [hscan, leading_iff 49]
    constructor
    · rintro ⟨first, digits, rest, rfl, hfirst, hdigits, hrest, rfl⟩
      exact ⟨first :: digits, rest, rfl, .inr ⟨first, digits, rfl, hfirst, hdigits⟩, .inr hrest, rfl⟩
    · rintro ⟨integer, rest, rfl, rfl | ⟨first, digits, rfl, hfirst, hdigits⟩, hrest, rfl⟩
      · exact absurd rfl hzero
      · refine ⟨first, digits, rest, rfl, hfirst, hdigits, hrest.resolve_left fun heq => ?_, rfl⟩
        obtain rfl := (cons.inj heq).1
        exact hzero rfl

theorem scanFraction_other (h : text.head? ≠ some '.') :
    scanFraction (encode text) = some (encode text) := by
  cases hbytes : encode text with
  | nil => rfl
  | cons b tail => rw [scanFraction, if_neg (first_ne '.' 46 (by decide) h hbytes)]

theorem scanFraction_encode_iff : scanFraction (encode text) = some bytes ↔
      ∃ fraction rest, text = fraction ++ rest ∧ IsFraction fraction ∧
        (fraction = [] ∧ rest.head? ≠ some '.' ∨ fraction ≠ [] ∧ NotHead IsDigit rest) ∧
        bytes = encode rest := by
  constructor
  · intro h
    by_cases hpoint : text.head? = some '.'
    · obtain ⟨rest, rfl⟩ := head?_eq_some_iff.mp hpoint
      obtain ⟨digits, rest, rfl, hdigits, hrest, rfl⟩ := scanDigits_encode_iff.mp h
      exact ⟨'.' :: digits, rest, rfl, .inr ⟨digits, rfl, hdigits⟩, .inr ⟨by simp, hrest⟩, rfl⟩
    · rw [scanFraction_other hpoint] at h
      exact ⟨[], text, rfl, .inl rfl, .inl ⟨rfl, hpoint⟩, (Option.some.inj h).symm⟩
  · rintro ⟨fraction, rest, rfl, rfl | ⟨digits, rfl, hdigits⟩, hrest, rfl⟩
    · exact scanFraction_other (by simpa using hrest)
    · exact scanDigits_encode_iff.mpr ⟨digits, rest, rfl, hdigits, by simpa using hrest, rfl⟩

theorem encode_eq_nil_iff : encode text = [] ↔ text = [] := by
  refine ⟨fun h => ?_, fun h => by rw [h]; rfl⟩
  cases text with
  | nil => rfl
  | cons c text =>
    obtain ⟨first, rest, hfirst, -⟩ := exists_first c
    rw [encode_cons, hfirst] at h
    cases h

theorem exists_either {c d : Char} (h : text.head? = some c ∨ text.head? = some d) :
    ∃ first rest, text = first :: rest ∧ (first = c ∨ first = d) := by
  cases text with
  | nil => simp at h
  | cons first rest => exact ⟨first, rest, rfl, by simpa using h⟩

theorem scanSigned_sign {sign : Char} (h : sign = '+' ∨ sign = '-') (rest : List Char) :
    scanSigned (encode (sign :: rest)) = scanDigits (encode rest) := by
  rcases h with rfl | rfl
  all_goals
    rfl

theorem scanSigned_other (h : text.head? ≠ some '+') (h' : text.head? ≠ some '-') :
    scanSigned (encode text) = scanDigits (encode text) := by
  cases hbytes : encode text with
  | nil => rfl
  | cons b tail =>
    have hplus : b ≠ 43 := first_ne '+' 43 (by decide) h hbytes
    have hminus : b ≠ 45 := first_ne '-' 45 (by decide) h' hbytes
    simp [scanSigned, hplus, hminus]

/-- The digits of an exponent behind its optional sign. -/
theorem scanSigned_encode_iff : scanSigned (encode text) = some bytes ↔
      ∃ sign digits rest, text = sign ++ digits ++ rest ∧ (sign = [] ∨ sign = ['+'] ∨ sign = ['-']) ∧
        IsDigits digits ∧ NotHead IsDigit rest ∧ bytes = encode rest := by
  constructor
  · intro h
    by_cases hhead : text.head? = some '+' ∨ text.head? = some '-'
    · obtain ⟨sign, rest, rfl, hsign⟩ := exists_either hhead
      rw [scanSigned_sign hsign] at h
      obtain ⟨digits, rest, rfl, hdigits, hrest, rfl⟩ := scanDigits_encode_iff.mp h
      exact ⟨[sign], digits, rest, rfl, by simpa using hsign, hdigits, hrest, rfl⟩
    · rw [not_or] at hhead
      rw [scanSigned_other hhead.1 hhead.2] at h
      obtain ⟨digits, rest, rfl, hdigits, hrest, rfl⟩ := scanDigits_encode_iff.mp h
      exact ⟨[], digits, rest, rfl, .inl rfl, hdigits, hrest, rfl⟩
  · rintro ⟨sign, digits, rest, rfl, hsign, hdigits, hrest, rfl⟩
    have hscan := scanDigits_encode_iff.mpr ⟨digits, rest, rfl, hdigits, hrest, rfl⟩
    rcases hsign with rfl | rfl | rfl
    · -- A digit is not a sign.
      obtain ⟨first, digits, rfl⟩ := exists_cons_of_ne_nil hdigits.1
      have hfirst := hdigits.2 first mem_cons_self
      have hne : ∀ c, ¬IsDigit c → (first :: digits ++ rest).head? ≠ some c := by
        rintro c hc heq
        exact hc (Option.some.inj heq ▸ hfirst)
      exact (scanSigned_other (hne _ (by decide)) (hne _ (by decide))).trans hscan
    · exact (scanSigned_sign (.inl rfl) _).trans hscan
    · exact (scanSigned_sign (.inr rfl) _).trans hscan

theorem scanExponent_encode_iff : scanExponent (encode text) = some [] ↔ IsExponent text := by
  have hletter : ∀ {e : Char} (rest : List Char), e = 'e' ∨ e = 'E' →
      scanExponent (encode (e :: rest)) = scanSigned (encode rest) := by
    rintro e rest (rfl | rfl)
    all_goals
      rfl
  constructor
  · intro h
    cases hbytes : encode text with
    | nil => exact .inl (encode_eq_nil_iff.mp hbytes)
    | cons b tail =>
      by_cases hhead : text.head? = some 'e' ∨ text.head? = some 'E'
      · obtain ⟨e, rest, rfl, he⟩ := exists_either hhead
        rw [hletter rest he] at h
        obtain ⟨sign, digits, rest, rfl, hsign, hdigits, -, hnil⟩ := scanSigned_encode_iff.mp h
        obtain rfl := encode_eq_nil_iff.mp hnil.symm
        exact .inr ⟨e, sign, digits, by rw [append_nil], he, hsign, hdigits⟩
      · rw [not_or] at hhead
        have hlower : b ≠ 101 := first_ne 'e' 101 (by decide) hhead.1 hbytes
        have hupper : b ≠ 69 := first_ne 'E' 69 (by decide) hhead.2 hbytes
        simp [hbytes, scanExponent, hlower, hupper] at h
  · rintro (rfl | ⟨e, sign, digits, rfl, he, hsign, hdigits⟩)
    · rfl
    · exact (hletter _ he).trans (scanSigned_encode_iff.mpr
        ⟨sign, digits, [], by rw [append_nil], hsign, hdigits, notHead_nil _, rfl⟩)

theorem notHead_exponent {exponent : List Char} (h : IsExponent exponent) : NotHead IsDigit exponent := by
  rcases h with rfl | ⟨e, sign, digits, rfl, rfl | rfl, -⟩
  · exact notHead_nil _
  · exact notHead_cons (by decide) _
  · exact notHead_cons (by decide) _

theorem notHead_fraction_append {fraction exponent : List Char} (h : IsFraction fraction)
    (h' : IsExponent exponent) : NotHead IsDigit (fraction ++ exponent) := by
  rcases h with rfl | ⟨digits, rfl, -⟩
  · exact notHead_exponent h'
  · exact notHead_cons (by decide) _

/-- The number behind an optional minus sign. -/
theorem scanUnsigned_iff :
    ((scanInteger (encode text)).bind scanFraction).bind scanExponent = some [] ↔
      ∃ integer fraction exponent, text = integer ++ fraction ++ exponent ∧ IsInteger integer ∧
        IsFraction fraction ∧ IsExponent exponent := by
  constructor
  · intro h
    obtain ⟨afterFraction, h, hexponent⟩ := Option.bind_eq_some_iff.mp h
    obtain ⟨afterInteger, h, h'⟩ := Option.bind_eq_some_iff.mp h
    obtain ⟨integer, rest, rfl, hinteger, -, rfl⟩ := scanInteger_encode_iff.mp h
    obtain ⟨fraction, exponent, rfl, hfraction, -, rfl⟩ := scanFraction_encode_iff.mp h'
    exact ⟨integer, fraction, exponent, (append_assoc _ _ _).symm, hinteger, hfraction,
      scanExponent_encode_iff.mp hexponent⟩
  · rintro ⟨integer, fraction, exponent, rfl, hinteger, hfraction, hexponent⟩
    have hafter : fraction = [] ∧ exponent.head? ≠ some '.' ∨ fraction ≠ [] ∧ NotHead IsDigit exponent := by
      by_cases hnil : fraction = []
      · refine .inl ⟨hnil, ?_⟩
        rcases hexponent with rfl | ⟨e, sign, digits, rfl, rfl | rfl, -⟩ <;> simp
      · exact .inr ⟨hnil, notHead_exponent hexponent⟩
    rw [append_assoc, scanInteger_encode_iff.mpr ⟨integer, fraction ++ exponent, rfl, hinteger,
      .inr (notHead_fraction_append hfraction hexponent), rfl⟩, Option.bind_some,
      scanFraction_encode_iff.mpr ⟨fraction, exponent, rfl, hfraction, hafter, rfl⟩,
      Option.bind_some, scanExponent_encode_iff.mpr hexponent]

theorem not_isInteger_minus {integer : List Char} (h : IsInteger integer) :
    integer.head? ≠ some '-' := by
  rcases h with rfl | ⟨first, rest, rfl, hfirst, -⟩
  · decide
  · intro heq
    cases heq
    exact absurd hfirst (by decide)

theorem validNumber_ofScalars_iff : validNumber (Text.ofScalars text) = true ↔ IsNumber text := by
  unfold validNumber
  rw [decide_eq_true_eq, show (Text.ofScalars text).bytes = encode text from rfl]
  by_cases hminus : text.head? = some '-'
  · obtain ⟨rest, rfl⟩ := head?_eq_some_iff.mp hminus
    rw [encode_cons_ascii (by decide)]
    dsimp only
    rw [if_pos (by decide), scanUnsigned_iff]
    constructor
    · rintro ⟨integer, fraction, exponent, rfl, hnumber⟩
      exact ⟨['-'], integer, fraction, exponent, by simp, .inr rfl, hnumber⟩
    · rintro ⟨minus, integer, fraction, exponent, heq, rfl | rfl, hinteger, hrest⟩
      · -- Without its minus sign the number would have to start with one.
        refine absurd ?_ (not_isInteger_minus hinteger)
        rcases hinteger with rfl | ⟨first, digits, rfl, -⟩ <;>
          simp_all
      · exact ⟨integer, fraction, exponent, by simpa using heq, hinteger, hrest⟩
  · trans ((scanInteger (encode text)).bind scanFraction).bind scanExponent = some []
    · cases hbytes : encode text with
      | nil => rfl
      | cons b tail =>
        dsimp only
        rw [if_neg (first_ne '-' 45 (by decide) hminus hbytes)]
    rw [scanUnsigned_iff]
    constructor
    · rintro ⟨integer, fraction, exponent, rfl, hnumber⟩
      exact ⟨[], integer, fraction, exponent, rfl, .inl rfl, hnumber⟩
    · rintro ⟨minus, integer, fraction, exponent, rfl, rfl | rfl, hnumber⟩
      · exact ⟨integer, fraction, exponent, rfl, hnumber⟩
      · exact absurd rfl hminus

end Neri.Stdlib.Json
