import Neri.Stdlib.Json.Parser
import Neri.Stdlib.Json.Proofs.NumberProofs
import Neri.Stdlib.Proofs.ByteBufferProofs

/-!
# Strings of the parser

At the start of a scalar the parser stands between the characters it has read and those that are
left. From there `string` reads exactly the strings of the grammar: each character of the grammar is
one or more rounds of its loop, and a text that does not go on with one leaves a problem.
-/

namespace Neri.Stdlib.Json

open Utf8 List

namespace Parser

/-- The parser stands between characters. -/
def At (parser : Parser) (before after : List Char) : Prop :=
  parser.input.SplitsAt parser.position before after

variable {p : Parser} {pre after rest text : List Char} {c : Char}

theorem At.advance (h : p.At pre (text ++ rest)) :
    (p.advance (encode text).length).At (pre ++ text) rest := Text.SplitsAt.append h

theorem At.byteAt_nil (h : p.At pre []) : p.input.byteAt p.position = none := by
  rw [Text.SplitsAt.byteAt h]
  rfl

theorem At.byteAt_ascii (h : p.At pre (c :: rest)) (hc : c.toNat < 128) :
    p.input.byteAt p.position = some (UInt8.ofNat c.toNat) := by
  rw [Text.SplitsAt.byteAt h, encode_cons_ascii hc]
  rfl

theorem At.byte_nil (h : p.At pre []) : p.byte = -1 := by
  rw [byte, h.byteAt_nil]

theorem At.byte_ascii (h : p.At pre (c :: rest)) (hc : c.toNat < 128) : p.byte = c.toNat := by
  rw [byte, h.byteAt_ascii hc]
  show ((UInt8.ofNat c.toNat).toNat : Int) = c.toNat
  rw [toNat_ofNat_ascii hc]

theorem At.byte_high (h : p.At pre (c :: rest)) (hc : 128 ≤ c.toNat) : 192 ≤ p.byte := by
  obtain ⟨first, tail, hfirst, hcases⟩ := exists_first c
  have hbyte : p.input.byteAt p.position = some first := by
    rw [Text.SplitsAt.byteAt h, encode_cons, hfirst]
    rfl
  rw [byte, hbyte]
  show (192 : Int) ≤ first.toNat
  omega

theorem At.advance_ascii (h : p.At pre (c :: rest)) (hc : c.toNat < 128) :
    p.advance.At (pre ++ [c]) rest := by
  have hadvance : (p.advance (encode [c]).length).At (pre ++ [c]) rest := At.advance h
  rwa [encode_cons_ascii hc] at hadvance

/-- The byte is an ASCII byte exactly when that character follows. -/
theorem At.byte_eq_iff (h : p.At pre after) (d : Char) (hd : d.toNat < 128) :
    p.byte = d.toNat ↔ ∃ rest, after = d :: rest := by
  constructor
  · intro heq
    cases after with
    | nil =>
      rw [h.byte_nil] at heq
      omega
    | cons c after =>
      by_cases hc : c.toNat < 128
      · rw [h.byte_ascii hc, Int.ofNat_inj] at heq
        exact ⟨after, by rw [toNat_injective heq]⟩
      · have hhigh := h.byte_high (by omega)
        omega
  · rintro ⟨rest, rfl⟩
    exact h.byte_ascii hd

theorem problem_fail {code : String} : (p.fail code).problem ≠ none := by
  unfold fail
  split
  · simp
  · rename_i problem h
    rw [h]
    simp

theorem advance_advance (p : Parser) (first second : Nat) :
    (p.advance first).advance second = p.advance (first + second) := by
  unfold Parser.advance
  simp only [Nat.add_assoc]

/-! ## Hexadecimal digits -/

/-- The digits of both sides are the same. -/
theorem hexValue?_eq (c : Char) : hexValue? c =
    if 48 ≤ c.toNat ∧ c.toNat ≤ 57 then some (c.toNat - 48)
    else if 65 ≤ c.toNat ∧ c.toNat ≤ 70 then some (c.toNat - 55)
    else if 97 ≤ c.toNat ∧ c.toNat ≤ 102 then some (c.toNat - 87) else none := rfl

theorem hexValue?_eq_some {v : Nat} (h : hexValue? c = some v) :
    c.toNat < 128 ∧ hexDigit c.toNat = v ∧ v < 16 := by
  rw [hexValue?_eq] at h
  unfold hexDigit
  simp only [Bool.and_eq_true, decide_eq_true_eq, ge_iff_le]
  split at h
  · cases h
    omega
  · split at h
    · cases h
      omega
    · split at h
      · cases h
        omega
      · cases h

theorem hexDigits_of_some {rounds : Nat} {v : Int} {digit : Nat}
    (h : p.At pre (c :: rest)) (hc : hexValue? c = some digit) :
    hexDigits (rounds + 1) v p = hexDigits rounds (v * 16 + digit) p.advance := by
  obtain ⟨hascii, hdigit, -⟩ := hexValue?_eq_some hc
  rw [hexDigits, h.byte_ascii hascii, hdigit, if_neg (by omega)]

theorem exists_hex {rounds : Nat} {v : Int} (h : p.At pre after)
    (hok : (hexDigits (rounds + 1) v p).2.problem = none) :
    ∃ c rest digit, after = c :: rest ∧ hexValue? c = some digit ∧ p.advance.At (pre ++ [c]) rest ∧
      (hexDigits rounds (v * 16 + digit) p.advance).2.problem = none := by
  have hdigit : ¬hexDigit p.byte < 0 := by
    intro hdigit
    rw [hexDigits, if_pos hdigit] at hok
    exact problem_fail hok
  unfold hexDigit at hdigit
  simp only [Bool.and_eq_true, decide_eq_true_eq, ge_iff_le] at hdigit
  cases after with
  | nil =>
    rw [h.byte_nil] at hdigit
    exact absurd (by decide) hdigit
  | cons c after =>
    by_cases hascii : c.toNat < 128
    · cases hv : hexValue? c with
      | some digit =>
        rw [hexDigits_of_some h hv] at hok
        exact ⟨c, after, digit, rfl, hv, h.advance_ascii hascii, hok⟩
      | none =>
        rw [hexValue?_eq] at hv
        rw [h.byte_ascii hascii] at hdigit
        split_ifs at hv
        rw [if_neg (by omega), if_neg (by omega), if_neg (by omega)] at hdigit
        exact absurd (by decide) hdigit
    · have hhigh := h.byte_high (by omega)
      rw [if_neg (by omega), if_neg (by omega), if_neg (by omega)] at hdigit
      exact absurd (by decide) hdigit

theorem hex4_of_isHex4 {v : Nat} (h : p.At pre (text ++ rest))
    (htext : IsHex4 text v) : p.hex4 = ((v : Int), p.advance 4) ∧
      (encode text).length = 4 ∧ v < 65536 := by
  obtain ⟨a, b, c, d, a', b', c', d', rfl, ha, hb, hc, hd, rfl⟩ := htext
  obtain ⟨hascii₁, -, hlt₁⟩ := hexValue?_eq_some ha
  obtain ⟨hascii₂, -, hlt₂⟩ := hexValue?_eq_some hb
  obtain ⟨hascii₃, -, hlt₃⟩ := hexValue?_eq_some hc
  obtain ⟨hascii₄, -, hlt₄⟩ := hexValue?_eq_some hd
  have h₁ := h.advance_ascii hascii₁
  have h₂ := h₁.advance_ascii hascii₂
  have h₃ := h₂.advance_ascii hascii₃
  refine ⟨?_, ?_, by omega⟩
  · rw [hex4, hexDigits_of_some h ha, hexDigits_of_some h₁ hb, hexDigits_of_some h₂ hc,
      hexDigits_of_some h₃ hd, hexDigits]
    congr 1
    omega
  · rw [encode_cons_ascii hascii₁, encode_cons_ascii hascii₂, encode_cons_ascii hascii₃,
      encode_cons_ascii hascii₄]
    rfl

theorem isHex4_of_hex4 (h : p.At pre after) (hok : p.hex4.2.problem = none) :
    ∃ text rest v, after = text ++ rest ∧ IsHex4 text v := by
  obtain ⟨a, after, a', rfl, ha, h, hok⟩ := exists_hex h hok
  obtain ⟨b, after, b', rfl, hb, h, hok⟩ := exists_hex h hok
  obtain ⟨c, after, c', rfl, hc, h, hok⟩ := exists_hex h hok
  obtain ⟨d, after, d', rfl, hd, -, -⟩ := exists_hex h hok
  exact ⟨[a, b, c, d], after, _, rfl, a, b, c, d, a', b', c', d', rfl, ha, hb, hc, hd, rfl⟩

/-! ## Escapes -/

def simpleEscapes : List (Char × Char) :=
  [('"', '"'), ('\\', '\\'), ('/', '/'), ('b', Char.ofNat 8), ('f', Char.ofNat 12),
    ('n', Char.ofNat 10), ('r', Char.ofNat 13), ('t', Char.ofNat 9)]

theorem simpleEscape?_eq_some {d : Char} (h : simpleEscape? c = some d) : (c, d) ∈ simpleEscapes := by
  unfold simpleEscape? at h
  split at h <;> first | (obtain rfl := Option.some.inj h; decide) | cases h

theorem escape_of_simple {d : Char} (h : p.At pre (c :: rest)) (hc : simpleEscape? c = some d) :
    p.escape = (some (d.toNat : Int), p.advance) ∧ c.toNat < 128 ∧ d.toNat < 128 := by
  have hall : ∀ pair ∈ simpleEscapes, pair.1.toNat < 128 ∧ pair.2.toNat < 128 ∧
      ∀ p : Parser, p.byte = pair.1.toNat → p.escape = (some (pair.2.toNat : Int), p.advance) := by
    simp only [simpleEscapes, forall_mem_cons, not_mem_nil, false_implies, implies_true, and_true]
    refine ⟨?_, ?_, ?_, ?_, ?_, ?_, ?_, ?_⟩
    all_goals
      refine ⟨by decide, by decide, fun p hbyte => ?_⟩
      unfold escape
      rw [hbyte]
      rfl
  obtain ⟨hascii, hascii', hescape⟩ := hall (c, d) (simpleEscape?_eq_some hc)
  exact ⟨hescape p (h.byte_ascii hascii), hascii, hascii'⟩

theorem escape_of_u (h : p.byte = 117) : p.escape =
    if p.advance.hex4.1 ≥ 55296 && p.advance.hex4.1 ≤ 56319 then
      lowSurrogate p.advance.hex4.1 p.advance.hex4.2
    else (some p.advance.hex4.1, p.advance.hex4.2) := by
  unfold escape
  rw [h]
  rfl

theorem lowSurrogate_of_pair {high lowUnit : Nat} {low : List Char}
    (h : p.At pre ('\\' :: 'u' :: low ++ rest)) (hlow : IsHex4 low lowUnit)
    (hmin : 0xdc00 ≤ lowUnit) (hmax : lowUnit ≤ 0xdfff) : lowSurrogate high p =
      (some (65536 + ((high : Int) - 55296) * 1024 + lowUnit - 56320), p.advance 6) := by
  have h' := h.advance_ascii (by decide)
  have hbyte : p.byte = 92 := h.byte_ascii (by decide)
  have hbyte' : p.advance.byte = 117 := h'.byte_ascii (by decide)
  obtain ⟨hhex, -, -⟩ := hex4_of_isHex4 (h'.advance_ascii (by decide)) hlow
  unfold lowSurrogate
  rw [if_neg (not_not.mpr hbyte)]
  dsimp only
  rw [if_neg (not_not.mpr hbyte'), hhex]
  rw [if_neg (by simp only [Bool.or_eq_true, decide_eq_true_eq]; omega), advance_advance,
    advance_advance]

theorem escape_of_isCharacter (h : p.At pre (text ++ rest)) (htext : IsCharacter ('\\' :: text) c) :
    p.escape = (some (c.toNat : Int), p.advance (encode text).length) ∧
      (String.utf8EncodeChar c).length ≤ (encode text).length := by
  obtain ⟨hfour, hthree, hone⟩ := length_utf8EncodeChar_le c
  generalize hfull : '\\' :: text = full at htext
  cases htext with
  | unescaped hquote hbackslash hmin => exact absurd (cons.inj hfull).1.symm hbackslash
  | @simple escaped _ hsimple =>
    obtain rfl := (cons.inj hfull).2
    obtain ⟨hescape, hascii, hascii'⟩ := escape_of_simple h hsimple
    have hlen : (encode [escaped]).length = 1 := by
      rw [encode_cons_ascii hascii]
      rfl
    rw [hlen, hone hascii']
    exact ⟨hescape, Nat.le_refl _⟩
  | unicode hhex =>
    obtain rfl := (cons.inj hfull).2
    have hsurrogate := not_surrogate c
    obtain ⟨hhex4, hlen, hlt⟩ := hex4_of_isHex4 (h.advance_ascii (by decide)) hhex
    have htotal : ∀ digits, (encode digits).length = 4 → (encode ('u' :: digits)).length = 5 := by
      intro digits hdigits
      rw [encode_cons_ascii (by decide), length_cons, hdigits]
    rw [escape_of_u (h.byte_ascii (by decide)), hhex4, htotal _ hlen, advance_advance]
    refine ⟨?_, by have := hthree hlt; omega⟩
    rw [if_neg (by simp only [Bool.and_eq_true, decide_eq_true_eq]; omega)]
  | @pair high low highUnit lowUnit _ hhigh hlow hhighMin hhighMax hlowMin hlowMax hcode =>
    have heq : text = 'u' :: (high ++ '\\' :: 'u' :: low) := (cons.inj hfull).2
    subst heq
    have hafter : p.advance.At (pre ++ ['u']) (high ++ ('\\' :: 'u' :: low ++ rest)) := by
      have := h.advance_ascii (c := 'u') (by decide)
      simpa using this
    obtain ⟨hhex4, hlen, -⟩ := hex4_of_isHex4 hafter hhigh
    have hnext : (p.advance.advance 4).At (pre ++ ['u'] ++ high)
        ('\\' :: 'u' :: low ++ rest) := hlen ▸ hafter.advance
    obtain ⟨-, hlength', -⟩ := hex4_of_isHex4 ((hnext.advance_ascii (by decide)).advance_ascii
      (by decide)) hlow
    have htotal : (encode ('u' :: (high ++ '\\' :: 'u' :: low))).length = 11 := by
      rw [encode_cons_ascii (by decide), encode_append, encode_cons_ascii (by decide),
        encode_cons_ascii (by decide)]
      simp only [length_cons, length_append, hlen, hlength']
    rw [escape_of_u (h.byte_ascii (by decide)), hhex4, htotal]
    refine ⟨?_, by omega⟩
    rw [if_pos (by simp only [Bool.and_eq_true, decide_eq_true_eq]; omega)]
    have hv : 65536 + ((highUnit : Int) - 55296) * 1024 + lowUnit - 56320 = (c.toNat : Int) := by
      omega
    rw [lowSurrogate_of_pair hnext hlow hlowMin hlowMax, advance_advance, advance_advance, hv]

theorem pair_of_lowSurrogate {high : Int} (h : p.At pre after)
    (hok : (lowSurrogate high p).2.problem = none) :
    ∃ low rest lowUnit, after = '\\' :: 'u' :: low ++ rest ∧ IsHex4 low lowUnit ∧
      0xdc00 ≤ lowUnit ∧ lowUnit ≤ 0xdfff := by
  unfold lowSurrogate at hok
  split at hok
  · exact absurd hok problem_fail
  · rename_i hbyte
    obtain ⟨after, rfl⟩ := (h.byte_eq_iff '\\' (by decide)).mp (not_not.mp hbyte)
    have h := h.advance_ascii (by decide)
    dsimp only at hok
    split at hok
    · exact absurd hok problem_fail
    · rename_i hbyte
      obtain ⟨after, rfl⟩ := (h.byte_eq_iff 'u' (by decide)).mp (not_not.mp hbyte)
      have h := h.advance_ascii (by decide)
      split at hok
      · exact absurd hok problem_fail
      · rename_i hrange
        obtain ⟨low, rest, lowUnit, rfl, hlow⟩ := isHex4_of_hex4 h hok
        rw [(hex4_of_isHex4 h hlow).1] at hrange
        simp only [Bool.or_eq_true, decide_eq_true_eq] at hrange
        exact ⟨low, rest, lowUnit, rfl, hlow, by omega, by omega⟩

theorem exists_char {code : Nat} (h : code < 0xd800 ∨ 0xdfff < code) (hmax : code < 0x110000) :
    ∃ c : Char, c.toNat = code :=
  ⟨Char.ofNat code, toNat_ofNat (by unfold Nat.isValidChar; omega)⟩

theorem isCharacter_of_escape {code : Int} {next : Parser} {scalar : Scalar}
    (h : p.At pre after) (hescape : p.escape = (some code, next))
    (hok : next.problem = none) (hscalar : Scalar.fromInt code = some scalar) :
    ∃ text rest c, after = text ++ rest ∧ IsCharacter ('\\' :: text) c := by
  have hcode := Scalar.fromInt_eq_some hscalar
  by_cases hu : ∃ rest, after = 'u' :: rest
  · obtain ⟨after, rfl⟩ := hu
    rw [escape_of_u (h.byte_ascii (by decide))] at hescape
    have hafter := h.advance_ascii (by decide)
    split at hescape
    · rename_i hrange
      have hlowOk : (lowSurrogate p.advance.hex4.1 p.advance.hex4.2).2.problem = none := by
        rw [hescape]
        exact hok
      have hhexOk := follows_lowSurrogate.problem hlowOk
      obtain ⟨high, rest, highUnit, rfl, hhigh⟩ := isHex4_of_hex4 hafter hhexOk
      obtain ⟨hhex, hlen, -⟩ := hex4_of_isHex4 hafter hhigh
      rw [hhex] at hrange hlowOk
      simp only [Bool.and_eq_true, decide_eq_true_eq] at hrange
      obtain ⟨low, rest, lowUnit, rfl, hlow, hmin, hmax⟩ :=
        pair_of_lowSurrogate (hlen ▸ hafter.advance) hlowOk
      obtain ⟨c, hc⟩ : ∃ c : Char,
          c.toNat = 0x10000 + (highUnit - 0xd800) * 0x400 + (lowUnit - 0xdc00) :=
        exists_char (by omega) (by omega)
      refine ⟨'u' :: high ++ '\\' :: 'u' :: low, rest, c, by simp, ?_⟩
      exact .pair hhigh hlow (by omega) (by omega) hmin hmax hc
    · rename_i hrange
      obtain ⟨hhexCode, hhexNext⟩ := Prod.mk.inj hescape
      obtain ⟨digits, rest, v, rfl, hdigits⟩ := isHex4_of_hex4 hafter (hhexNext ▸ hok)
      rw [(hex4_of_isHex4 hafter hdigits).1] at hhexCode
      have hv : scalar.code = v := by
        have := Option.some.inj hhexCode
        omega
      obtain ⟨c, hc⟩ : ∃ c : Char, c.toNat = v :=
        ⟨Char.ofNat v, toNat_ofNat (hv ▸ scalar.valid)⟩
      exact ⟨'u' :: digits, rest, c, rfl, .unicode (hc ▸ hdigits)⟩
  · by_cases hsimple : ∃ d rest e, after = d :: rest ∧ simpleEscape? d = some e
    · obtain ⟨d, rest, e, rfl, he⟩ := hsimple
      exact ⟨[d], rest, e, rfl, .simple he⟩
    · -- No other character starts an escape, and -1 is not a scalar.
      have hbyte : ∀ pair ∈ simpleEscapes, p.byte ≠ pair.1.toNat := by
        intro pair hpair heq
        obtain ⟨hascii, he⟩ := (show ∀ pair ∈ simpleEscapes, pair.1.toNat < 128 ∧
          simpleEscape? pair.1 = some pair.2 by decide) pair hpair
        obtain ⟨rest, rfl⟩ := (h.byte_eq_iff _ hascii).mp heq
        exact hsimple ⟨_, rest, _, rfl, he⟩
      have hbyteU : p.byte ≠ 117 := fun heq => hu ((h.byte_eq_iff 'u' (by decide)).mp heq)
      have hinvalid : p.escape = (some (-1), p.advance) := by
        unfold escape
        simp only [simpleEscapes, forall_mem_cons, Char.reduceToNat, Int.cast_ofNat_Int] at hbyte
        simp only [hbyte, hbyteU, decide_false, Bool.or_false, Bool.false_eq_true, if_false]
      rw [hinvalid] at hescape
      obtain rfl := Option.some.inj (Prod.mk.inj hescape).1
      cases hscalar

/-! ## The loop -/

/-- What the loop keeps: no problem yet, and an output that has room for all that is left. -/
structure Reading (parser : Parser) (output : ByteBuffer) (done : List Char) : Prop where
  problem : parser.problem = none
  snapshot : output.snapshot = encode done
  maximum : output.maximum = parser.input.byteLength
  used : output.used ≤ parser.position

variable {out : ByteBuffer} {done : List Char}

/-- The output after a scalar that took no more bytes than the input. -/
theorem Reading.next (h : Reading p out done) {count : Nat} {stored : ByteBuffer}
    (hsnapshot : stored.snapshot = out.snapshot ++ String.utf8EncodeChar c)
    (hmaximum : stored.maximum = out.maximum) (hcount : (String.utf8EncodeChar c).length ≤ count) :
    Reading (p.advance count) stored (done ++ [c]) where
  problem := h.problem
  snapshot := by rw [hsnapshot, h.snapshot, encode_append, encode_cons, encode_nil, append_nil]
  maximum := hmaximum.trans h.maximum
  used := by
    have hused := h.used
    show stored.used ≤ p.position + count
    rw [← stored.length_snapshot, hsnapshot, length_append, out.length_snapshot]
    omega

/-- Bytes that are neither controls nor quotes nor backslashes go to the output. -/
theorem run_plain_bytes (bytes tail : List UInt8) (hproblem : p.problem = none)
    (hinput : p.input.bytes.drop p.position = bytes ++ tail)
    (hplain : ∀ byte ∈ bytes, 32 ≤ byte.toNat ∧ byte ≠ 34 ∧ byte ≠ 92)
    (hroom : out.used + bytes.length ≤ out.maximum) :
    ∃ stored, stringLoop.run (p, out) = stringLoop.run (p.advance bytes.length, stored) ∧
      stored.snapshot = out.snapshot ++ bytes ∧ stored.maximum = out.maximum := by
  induction bytes generalizing p out with
  | nil => exact ⟨out, rfl, (append_nil _).symm, rfl⟩
  | cons byte bytes ih =>
    obtain ⟨⟨hmin, hquote, hbackslash⟩, hplain⟩ := forall_mem_cons.mp hplain
    rw [length_cons] at hroom
    have hfits : out.used + [byte].length ≤ out.maximum := by
      rw [length_singleton]
      omega
    obtain ⟨stored, hstore, hsnapshot, hmaximum⟩ := out.store_of_le hfits
    have hbyte : p.input.byteAt p.position = some byte := by
      rw [Text.byteAt, ← head?_drop, hinput]
      rfl
    have hround : stringLoop.body (p, out) = .inl (p.advance, stored) := by
      show stringRound (p, out) = _
      unfold stringRound
      dsimp only
      rw [if_neg (not_not.mpr hproblem), hbyte]
      dsimp only
      rw [if_neg (by omega), if_neg hquote, if_pos hbackslash, ByteBuffer.append, hstore]
      rfl
    have hused : stored.used = out.used + 1 := by
      rw [← stored.length_snapshot, hsnapshot, length_append, out.length_snapshot]
      rfl
    have hnext : p.advance.input.bytes.drop p.advance.position = bytes ++ tail := by
      show p.input.bytes.drop (p.position + 1) = _
      rw [← drop_drop, hinput]
      rfl
    have hproblem' : p.advance.problem = none := hproblem
    have hleft : stored.used + bytes.length ≤ stored.maximum := by omega
    obtain ⟨final, hrun, hfinal, hfinalMaximum⟩ := ih hproblem' hnext hplain hleft
    refine ⟨final, ?_, ?_, hfinalMaximum.trans hmaximum⟩
    · rw [BoundedLoop.run_of_inl hround, hrun, advance_advance, length_cons, Nat.add_comm]
    · rw [hfinal, hsnapshot, append_assoc]
      rfl

theorem At.room (h : p.At pre (text ++ rest)) :
    p.position + (encode text).length ≤ p.input.byteLength := by
  have := Text.SplitsAt.byteLength h
  rw [encode_append, length_append] at this
  omega

theorem IsCharacter.cases {text : List Char} {c : Char} (h : IsCharacter text c) :
    text = [c] ∧ c ≠ '"' ∧ c ≠ '\\' ∧ 32 ≤ c.toNat ∨ ∃ escaped, text = '\\' :: escaped := by
  cases h with
  | unescaped hquote hbackslash hmin => exact .inl ⟨rfl, hquote, hbackslash, hmin⟩
  | simple => exact .inr ⟨_, rfl⟩
  | unicode => exact .inr ⟨_, rfl⟩
  | pair => exact .inr ⟨_, rfl⟩

theorem plain_bytes (hquote : c ≠ '"') (hbackslash : c ≠ '\\') (hmin : 32 ≤ c.toNat)
    {byte : UInt8} (hbyte : byte ∈ String.utf8EncodeChar c) :
    32 ≤ byte.toNat ∧ byte ≠ 34 ∧ byte ≠ 92 := by
  by_cases hascii : c.toNat < 128
  · rw [utf8EncodeChar_ascii hascii, mem_singleton] at hbyte
    have hv : byte.toNat = c.toNat := by rw [hbyte, toNat_ofNat_ascii hascii]
    have hne : ∀ d : Char, c ≠ d → byte.toNat ≠ d.toNat := by
      intro d hcd heq
      exact hcd (toNat_injective (hv.symm.trans heq))
    refine ⟨by omega, fun heq => hne '"' hquote ?_, fun heq => hne '\\' hbackslash ?_⟩
    · rw [heq]
      rfl
    · rw [heq]
      rfl
  · have hhigh := le_of_mem_utf8EncodeChar (by omega) hbyte
    refine ⟨by omega, ?_, ?_⟩
    · rintro rfl
      exact absurd hhigh (by decide)
    · rintro rfl
      exact absurd hhigh (by decide)

theorem run_character (h : p.At pre (text ++ rest)) (hreading : Reading p out done)
    (htext : IsCharacter text c) : ∃ stored, stringLoop.run (p, out) =
        stringLoop.run (p.advance (encode text).length, stored) ∧
      Reading (p.advance (encode text).length) stored (done ++ [c]) := by
  have hroom := h.room
  have hused := hreading.used
  have hmaximum := hreading.maximum
  rcases IsCharacter.cases htext with ⟨rfl, hquote, hbackslash, hmin⟩ | ⟨escaped, rfl⟩
  · have hencode : encode [c] = String.utf8EncodeChar c := by
      rw [encode_cons, encode_nil, append_nil]
    rw [hencode] at hroom ⊢
    have hfits : out.used + (String.utf8EncodeChar c).length ≤ out.maximum := by omega
    obtain ⟨stored, hrun, hsnapshot, hst⟩ :=
      run_plain_bytes (String.utf8EncodeChar c) (encode rest) hreading.problem
        (by rw [Text.SplitsAt.drop h, encode_append, hencode])
        (fun byte => plain_bytes hquote hbackslash hmin) hfits
    exact ⟨stored, hrun, hreading.next hsnapshot hst (Nat.le_refl _)⟩
  · have hafter := At.advance_ascii h (by decide)
    obtain ⟨hescape, hlen⟩ := escape_of_isCharacter hafter htext
    obtain ⟨scalar, hscalar, hcode⟩ := Scalar.fromInt_toNat c
    have hutf8 : scalar.utf8 = String.utf8EncodeChar c := by
      rw [Scalar.utf8_eq, hcode, Char.ofNat_toNat]
    have htotal : (encode ('\\' :: escaped)).length = (encode escaped).length + 1 := by
      rw [encode_cons_ascii (by decide), length_cons]
    have hfits : out.used + (String.utf8EncodeChar c).length ≤ out.maximum := by omega
    obtain ⟨stored, hstore, hsnapshot, hst⟩ := out.store_of_le hfits
    have hround : stringLoop.body (p, out) =
        .inl (p.advance (encode ('\\' :: escaped)).length, stored) := by
      show stringRound (p, out) = _
      unfold stringRound
      dsimp only
      rw [if_neg (not_not.mpr hreading.problem), At.byteAt_ascii h (by decide)]
      rw [hescape]
      dsimp only
      rw [hscalar]
      dsimp only
      rw [ByteBuffer.appendBytes_eq, hutf8, hstore, advance_advance, Nat.add_comm 1]
      rfl
    refine ⟨stored, BoundedLoop.run_of_inl hround, hreading.next hsnapshot hst ?_⟩
    omega

theorem run_quote (h : p.At pre ('"' :: rest)) (hreading : Reading p out done) :
    stringLoop.run (p, out) = (Text.ofScalars done, p.advance) := by
  have hround : stringLoop.body (p, out) = .inr (Text.ofScalars done, p.advance) := by
    show stringRound (p, out) = _
    unfold stringRound
    dsimp only
    rw [if_neg (not_not.mpr hreading.problem), At.byteAt_ascii h (by decide)]
    dsimp only
    rw [if_neg (by decide), if_pos (by decide), ByteBuffer.text, hreading.snapshot,
      Text.fromBytes_encode]
  exact BoundedLoop.run_of_inr hround

/-- The loop reads the characters of a string up to its closing quote. -/
theorem run_characters {chars : List Char} (htext : IsCharacters text chars)
    (h : p.At pre (text ++ '"' :: rest)) (hreading : Reading p out done) : stringLoop.run (p, out) =
      (Text.ofScalars (done ++ chars), p.advance ((encode text).length + 1)) := by
  induction htext generalizing p out pre done with
  | nil =>
    rw [run_quote h hreading, append_nil]
    rfl
  | @cons first text c chars hfirst _ ih =>
    rw [append_assoc] at h
    obtain ⟨stored, hrun, hst⟩ := run_character h hreading hfirst
    rw [hrun, ih h.advance hst, advance_advance, encode_append, length_append, append_assoc]
    rfl

theorem run_of_problem (h : p.problem ≠ none) :
    stringLoop.run (p, out) = (Text.ofString "", p) := by
  refine BoundedLoop.run_of_inr ?_
  show stringRound (p, out) = _
  unfold stringRound
  dsimp only
  rw [if_pos h]

theorem lowSurrogate_none {high : Int} {next : Parser}
    (h : lowSurrogate high p = (none, next)) : next.problem ≠ none := by
  unfold lowSurrogate at h
  dsimp only at h
  repeat' split at h
  all_goals
    first
    | exact (Prod.mk.inj h).2 ▸ problem_fail
    | cases (Prod.mk.inj h).1

theorem escape_none {next : Parser} (h : p.escape = (none, next)) : next.problem ≠ none := by
  unfold escape at h
  dsimp only at h
  repeat' split at h
  all_goals
    first
    | exact lowSurrogate_none h
    | cases (Prod.mk.inj h).1

/-- Where the loop leaves without a problem, the text goes on with a quote or with a character. -/
theorem character_of_run (h : p.At pre after) (hreading : Reading p out done)
    (hok : (stringLoop.run (p, out)).2.problem = none) :
    (∃ rest, after = '"' :: rest) ∨ ∃ text rest c, after = text ++ rest ∧ IsCharacter text c := by
  have hleaves : ∀ next, stringRound (p, out) = .inr (Text.ofString "", next) →
      next.problem = none := by
    intro next hround
    have hrun : stringLoop.run (p, out) = (Text.ofString "", next) :=
      BoundedLoop.run_of_inr hround
    rwa [hrun] at hok
  have hround : stringRound (p, out) = stringRound (p, out) := rfl
  nth_rewrite 2 [stringRound.eq_def] at hround
  dsimp only at hround
  rw [if_neg (not_not.mpr hreading.problem)] at hround
  cases after with
  | nil =>
    rw [h.byteAt_nil] at hround
    exact absurd (hleaves _ hround) problem_fail
  | cons c after =>
    by_cases hquote : c = '"'
    · exact .inl ⟨after, by rw [hquote]⟩
    refine .inr ?_
    by_cases hbackslash : c = '\\'
    · subst hbackslash
      rw [h.byteAt_ascii (by decide)] at hround
      dsimp only at hround
      rw [if_neg (by decide), if_neg (by decide), if_neg (by decide)] at hround
      split at hround
      · rename_i next hescape
        exact absurd (hleaves _ hround) (escape_none hescape)
      · rename_i code next hescape
        split at hround
        · exact absurd (hleaves _ hround) problem_fail
        · rename_i scalar hscalar
          have hnext : next.problem = none := by
            by_contra hproblem
            have hstate : (next.emit out (out.appendBytes scalar.utf8)).1.problem ≠ none :=
              fun hnone => hproblem (follows_emit.problem hnone)
            have hrun : stringLoop.run (p, out) = _ := BoundedLoop.run_of_inl hround
            rw [hrun, run_of_problem hstate] at hok
            exact hstate hok
          obtain ⟨text, rest, d, rfl, htext⟩ :=
            isCharacter_of_escape (h.advance_ascii (by decide)) hescape hnext hscalar
          exact ⟨'\\' :: text, rest, d, rfl, htext⟩
    · by_cases hmin : 32 ≤ c.toNat
      · exact ⟨[c], after, c, rfl, .unescaped hquote hbackslash hmin⟩
      · rw [h.byteAt_ascii (by omega)] at hround
        dsimp only at hround
        rw [if_pos (by rw [toNat_ofNat_ascii (by omega)]; omega)] at hround
        exact absurd (hleaves _ hround) problem_fail

/-- The loop leaves without a problem only behind the characters of a string. -/
theorem characters_of_run (h : p.At pre after) (hreading : Reading p out done)
    (hok : (stringLoop.run (p, out)).2.problem = none) :
    ∃ text rest chars, after = text ++ '"' :: rest ∧ IsCharacters text chars := by
  induction hlen : after.length using Nat.strongRecOn
    generalizing p out pre after done with
  | _ length ih =>
    rcases character_of_run h hreading hok with ⟨rest, rfl⟩ | ⟨text, rest, c, rfl, htext⟩
    · exact ⟨[], rest, [], rfl, .nil⟩
    · obtain ⟨stored, hrun, hst⟩ := run_character h hreading htext
      have hpositive : 0 < text.length := by cases htext <;> simp
      rw [hrun] at hok
      rw [length_append] at hlen
      obtain ⟨text', rest', chars, rfl, htext'⟩ :=
        ih rest.length (by omega) h.advance hst hok rfl
      exact ⟨text ++ text', rest', c :: chars, (append_assoc ..).symm, .cons htext htext'⟩

/-! ## `string` -/

theorem reading_create (hlimit : p.input.byteLength ≤ 134217728) (hproblem : p.problem = none) :
    ∃ out, ByteBuffer.create p.input.byteLength = some out ∧ Reading p.advance out [] := by
  cases hcreate : ByteBuffer.create p.input.byteLength with
  | none =>
    have := ByteBuffer.create_eq_none_iff.mp hcreate
    omega
  | some out =>
    obtain ⟨hsnapshot, hmaximum⟩ := ByteBuffer.create_eq_some hcreate
    refine ⟨out, rfl, hproblem, hsnapshot, Int.ofNat_inj.mp hmaximum, ?_⟩
    rw [← out.length_snapshot, hsnapshot]
    exact Nat.zero_le _

theorem string_of_isString {chars : List Char} (hlimit : p.input.byteLength ≤ 134217728)
    (hproblem : p.problem = none) (h : p.At pre (text ++ rest)) (htext : IsString text chars) :
    p.string = (Text.ofScalars chars, p.advance (encode text).length) := by
  obtain ⟨body, rfl, hbody⟩ := htext
  obtain ⟨out, hcreate, hreading⟩ := reading_create hlimit hproblem
  have hafter : p.advance.At (pre ++ ['"']) (body ++ '"' :: rest) := by
    have := At.advance_ascii (c := '"') h (by decide)
    simpa using this
  have hlen : (encode ('"' :: body ++ ['"'])).length = 1 + ((encode body).length + 1) := by
    rw [cons_append, encode_cons_ascii (by decide), encode_append, length_cons,
      length_append, encode_cons_ascii (by decide), encode_nil, length_singleton,
      Nat.add_comm]
  rw [string, hcreate, hlen, ← advance_advance]
  exact run_characters hbody hafter hreading

theorem isString_of_string (hlimit : p.input.byteLength ≤ 134217728)
    (hproblem : p.problem = none) (h : p.At pre ('"' :: after)) (hok : p.string.2.problem = none) :
    ∃ text rest chars, '"' :: after = text ++ rest ∧ IsString text chars := by
  obtain ⟨out, hcreate, hreading⟩ := reading_create hlimit hproblem
  rw [string, hcreate] at hok
  obtain ⟨body, rest, chars, rfl, hbody⟩ :=
    characters_of_run (At.advance_ascii h (by decide)) hreading hok
  exact ⟨'"' :: body ++ ['"'], rest, chars, by simp, body, rfl, hbody⟩

end Parser

end Neri.Stdlib.Json
