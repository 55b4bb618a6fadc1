import Neri.Data.SqlNormalization
import Neri.Ir.Proofs.CHeaderProofs

/-!
# Proofs: SQL in a normal form

A doubled quote inside a quoted part does the same as the end of the part and the start of another.
So the walk is a scanner that looks at one byte at a time, as long as it meets ASCII bytes only; at
any other byte it cuts a scalar.
-/

namespace Neri.Data

open Neri.Stdlib

/-- The quote of the part that the scanner is in behind a byte. -/
def nextQuote (quote byte : UInt8) : UInt8 :=
  if quote ≠ 0 then if byte = quote then 0 else quote
  else if byte = 39 ∨ byte = 34 then byte else 0

/-- What is dropped outside of quoted parts. -/
def IsSqlBlank (byte : UInt8) : Prop := byte.toNat ≤ 32 ∨ byte = 59

instance (byte : UInt8) : Decidable (IsSqlBlank byte) := inferInstanceAs (Decidable (_ ∨ _))

def IsLowerLetter (byte : UInt8) : Prop := 97 ≤ byte.toNat ∧ byte.toNat ≤ 122

instance (byte : UInt8) : Decidable (IsLowerLetter byte) := inferInstanceAs (Decidable (_ ∧ _))

def sqlCode (quote byte : UInt8) : List UInt8 :=
  if quote ≠ 0 then [byte]
  else if IsSqlBlank byte then []
  else if IsLowerLetter byte then [byte - 32] else [byte]

def normalSql (quote : UInt8) : List UInt8 → List UInt8
  | [] => []
  | byte :: rest => sqlCode quote byte ++ normalSql (nextQuote quote byte) rest

/-- The byte belongs to a quoted part. -/
def IsQuoted (quote byte : UInt8) : Prop := quote ≠ 0 ∨ byte = 39 ∨ byte = 34

instance (quote byte : UInt8) : Decidable (IsQuoted quote byte) :=
  inferInstanceAs (Decidable (_ ∨ _ ∨ _))

/-- The bytes of the quoted parts, with their quotes. -/
def quotedBytes (quote : UInt8) : List UInt8 → List UInt8
  | [] => []
  | byte :: rest =>
    (if IsQuoted quote byte then [byte] else []) ++ quotedBytes (nextQuote quote byte) rest

/-- The bytes are outside of quoted parts behind `before`. -/
def EndsOutside (before : List UInt8) : Prop := before.foldl nextQuote 0 = 0

/-- One edit outside of quoted parts. -/
inductive EditsSql : List UInt8 → List UInt8 → Prop
  | blank {before after : List UInt8} {byte : UInt8} (houtside : EndsOutside before)
      (hblank : IsSqlBlank byte) : EditsSql (before ++ after) (before ++ byte :: after)
  | case {before after : List UInt8} {byte : UInt8} (houtside : EndsOutside before)
      (hletter : IsLowerLetter byte) :
      EditsSql (before ++ byte :: after) (before ++ (byte - 32) :: after)

/-! ## The scanner -/

theorem blank_spec : ∀ byte, IsSqlBlank byte →
    byte.toNat < 128 ∧ sqlCode 0 byte = [] ∧ nextQuote 0 byte = 0 :=
  forall_byte (by decide +kernel)

theorem letter_spec : ∀ byte, IsLowerLetter byte → byte.toNat < 128 ∧ (byte - 32).toNat < 128 ∧
    sqlCode 0 byte = [byte - 32] ∧ sqlCode 0 (byte - 32) = [byte - 32] ∧
    nextQuote 0 byte = 0 ∧ nextQuote 0 (byte - 32) = 0 ∧
    ((Text.ofString "ABCDEFGHIJKLMNOPQRSTUVWXYZ").slice (byte.toNat - 97) 1).map Text.bytes =
      some [byte - 32] :=
  forall_byte (by decide +kernel)

/-- A byte is dropped, or what is written for it is left alone by the scanner. -/
theorem sqlCode_cases (quote byte : UInt8) :
    sqlCode quote byte = [] ∧ nextQuote quote byte = quote ∧ ¬IsQuoted quote byte ∨
      ∃ written, sqlCode quote byte = [written] ∧ sqlCode quote written = [written] ∧
        nextQuote quote written = nextQuote quote byte ∧
        (IsQuoted quote written ↔ IsQuoted quote byte) ∧ (IsQuoted quote byte → written = byte) := by
  by_cases hquote : quote = 0
  · subst hquote
    have hall : ∀ byte, sqlCode 0 byte = [] ∧ nextQuote 0 byte = 0 ∧ ¬IsQuoted 0 byte ∨
        ∃ written ∈ sqlCode 0 byte, sqlCode 0 byte = [written] ∧ sqlCode 0 written = [written] ∧
          nextQuote 0 written = nextQuote 0 byte ∧ (IsQuoted 0 written ↔ IsQuoted 0 byte) ∧
          (IsQuoted 0 byte → written = byte) :=
      forall_byte (by decide +kernel)
    exact (hall byte).imp_right fun ⟨written, _, hwritten⟩ => ⟨written, hwritten⟩
  · have hcode : sqlCode quote byte = [byte] := by simp [sqlCode, hquote]
    exact .inr ⟨byte, hcode, hcode, rfl, Iff.rfl, fun _ => rfl⟩

theorem normalSql_normalSql (quote : UInt8) (bytes : List UInt8) :
    normalSql quote (normalSql quote bytes) = normalSql quote bytes := by
  induction bytes generalizing quote with
  | nil => rfl
  | cons byte bytes ih =>
    rw [normalSql]
    obtain ⟨hnil, hquote, -⟩ | ⟨written, hone, hagain, hquote, -⟩ := sqlCode_cases quote byte
    · rw [hnil, hquote]
      exact ih quote
    · rw [hone, List.singleton_append, normalSql, hagain, hquote, ih]
      rfl

theorem quotedBytes_normalSql (quote : UInt8) (bytes : List UInt8) :
    quotedBytes quote (normalSql quote bytes) = quotedBytes quote bytes := by
  induction bytes generalizing quote with
  | nil => rfl
  | cons byte bytes ih =>
    rw [normalSql, quotedBytes]
    obtain ⟨hnil, hquote, hout⟩ | ⟨written, hone, -, hquote, hiff, hsame⟩ := sqlCode_cases quote byte
    · rw [hnil, hquote, if_neg hout]
      exact ih quote
    · rw [hone, List.singleton_append, quotedBytes, hquote, ih]
      by_cases hin : IsQuoted quote byte
      · rw [if_pos hin, if_pos (hiff.mpr hin), hsame hin]
      · rw [if_neg hin, if_neg (mt hiff.mp hin)]

theorem normalSql_append (quote : UInt8) (pre after : List UInt8) : normalSql quote (pre ++ after) =
      normalSql quote pre ++ normalSql (pre.foldl nextQuote quote) after := by
  induction pre generalizing quote with
  | nil => rfl
  | cons byte pre ih =>
    rw [List.cons_append, normalSql, normalSql, ih, List.append_assoc, List.foldl_cons]

theorem ascii_normalSql (quote : UInt8) {bytes : List UInt8}
    (h : ∀ byte ∈ bytes, byte.toNat < 128) : ∀ byte ∈ normalSql quote bytes, byte.toNat < 128 := by
  induction bytes generalizing quote with
  | nil => exact h
  | cons byte bytes ih =>
    obtain ⟨hbyte, hbytes⟩ := List.forall_mem_cons.mp h
    refine List.forall_mem_append.mpr ⟨?_, ih _ hbytes⟩
    unfold sqlCode
    split_ifs with _ _ hletter
    · simpa using hbyte
    · simp
    · simpa using (letter_spec byte hletter).2.1
    · simpa using hbyte

theorem EditsSql.normal {bytes other : List UInt8} (h : EditsSql bytes other) :
    normalSql 0 bytes = normalSql 0 other ∧
      ((∀ byte ∈ bytes, byte.toNat < 128) ↔ ∀ byte ∈ other, byte.toNat < 128) := by
  cases h with
  | @blank pre after byte houtside hblank =>
    obtain ⟨hascii, hcode, hquote⟩ := blank_spec byte hblank
    refine ⟨?_, by simp [or_imp, forall_and, hascii]⟩
    rw [normalSql_append, normalSql_append, houtside, normalSql, hcode, hquote]
    rfl
  | @case pre after byte houtside hletter =>
    obtain ⟨hascii, hascii', hcode, hcode', hquote, hquote', -⟩ := letter_spec byte hletter
    refine ⟨?_, by simp [or_imp, forall_and, hascii, hascii']⟩
    rw [normalSql_append, normalSql_append, houtside, normalSql, normalSql, hcode, hcode', hquote,
      hquote']

theorem eqvGen_normal {bytes other : List UInt8} (h : Relation.EqvGen EditsSql bytes other) :
    normalSql 0 bytes = normalSql 0 other ∧
      ((∀ byte ∈ bytes, byte.toNat < 128) ↔ ∀ byte ∈ other, byte.toNat < 128) := by
  induction h with
  | rel _ _ h => exact h.normal
  | refl => exact ⟨rfl, Iff.rfl⟩
  | symm _ _ _ ih => exact ⟨ih.1.symm, ih.2.symm⟩
  | trans _ _ _ _ _ ih ih' => exact ⟨ih.1.trans ih'.1, ih.2.trans ih'.2⟩

/-! ## The walk -/

/-- What a walk gives over bytes that are all ASCII bytes, and nothing over others. -/
def overAscii (bytes result : List UInt8) : Option (List UInt8) :=
  if ∀ byte ∈ bytes, byte.toNat < 128 then some result else none

theorem overAscii_cons {byte : UInt8} (h : byte.toNat < 128) (rest res : List UInt8) :
    overAscii (byte :: rest) res = overAscii rest res := by
  simp [overAscii, h]

theorem slice_bind {sql : Text} {byte : UInt8} {rest res : List UInt8} {i : Nat}
    {next : Text → Option Text} (h : sql.bytes.drop i = byte :: rest)
    (hnext : ∀ text : Text, text.bytes = [byte] → (next text).map Text.bytes = overAscii rest res) :
    ((sql.slice i 1).bind next).map Text.bytes = overAscii (byte :: rest) res := by
  have hslice := Ir.slice_one (List.head?_drop.symm.trans (congrArg List.head? h))
  by_cases hascii : byte.toNat < 128
  · rw [if_pos hascii] at hslice
    obtain ⟨text, htext, hbytes⟩ := Option.map_eq_some_iff.mp hslice
    rw [htext, Option.bind_some, hnext text hbytes, overAscii_cons hascii]
  · rw [if_neg hascii] at hslice
    rw [Option.map_eq_none_iff.mp hslice, overAscii, if_neg (by simp [hascii])]
    rfl

theorem drop_of_cons {bytes rest : List UInt8} {byte : UInt8} {i : Nat}
    (h : bytes.drop i = byte :: rest) : bytes.drop (i + 1) = rest := by
  rw [← List.tail_drop, h]
  rfl

theorem schemaNormalizedFrom_bytes (sql : Text) (bytes : List UInt8) (i : Nat) (quote : UInt8)
    (out : Text) (h : sql.bytes.drop i = bytes) (hquotes : quote = 0 ∨ quote = 39 ∨ quote = 34) :
    (schemaNormalizedFrom sql bytes i quote out).map Text.bytes =
      overAscii bytes (out.bytes ++ normalSql quote bytes) := by
  fun_induction schemaNormalizedFrom sql bytes i quote out with
  | case1 => simp [overAscii, normalSql]
  | case2 byte rest i quote out hquote ihclose ihopen =>
    have hopens : sqlCode 0 quote = [quote] ∧ nextQuote 0 quote = quote := by
      rcases hquotes with rfl | rfl | rfl
      · exact absurd rfl hquote
      · decide
      · decide
    have hcode : ∀ byte, sqlCode quote byte = [byte] := fun byte => by simp [sqlCode, hquote]
    refine slice_bind h fun text htext => ?_
    have hrest := drop_of_cons h
    rw [normalSql, hcode, nextQuote]
    split
    next heq =>
      cases rest with
      | nil => simp [overAscii, normalSql, htext]
      | cons next after =>
        dsimp only
        split
        next heq =>
          subst heq
          refine slice_bind hrest fun second hsecond => ?_
          rw [(ihclose text).1 second (drop_of_cons hrest) hquotes]
          simp [normalSql, hopens, htext, hsecond]
        next =>
          rw [(ihclose text).2 hrest (.inl rfl)]
          simp [htext]
    next =>
      rw [ihopen text hrest hquotes]
      simp [htext]
  | case3 byte rest i quote out hquote hopen ih =>
    obtain rfl : quote = 0 := not_not.mp hquote
    refine slice_bind h fun text htext => ?_
    rw [ih text (drop_of_cons h) (.inr hopen)]
    rcases hopen with rfl | rfl <;> simp [normalSql, sqlCode, nextQuote, IsSqlBlank, IsLowerLetter, htext]
  | case4 byte rest i quote out hquote hopen hkept _ hletter ih =>
    obtain rfl : quote = 0 := not_not.mp hquote
    obtain ⟨hascii, -, hcode, -, hnext, -, hslice⟩ := letter_spec byte hletter
    obtain ⟨text, htext, hbytes⟩ := Option.map_eq_some_iff.mp hslice
    rw [htext, overAscii_cons hascii, normalSql, hcode, hnext]
    refine (ih text (drop_of_cons h) (.inl rfl)).trans ?_
    simp [hbytes]
  | case5 byte rest i quote out hquote hopen hkept _ hletter ih =>
    obtain rfl : quote = 0 := not_not.mp hquote
    have hblank : ¬IsSqlBlank byte := by
      rintro (hle | heq)
      · omega
      · exact hkept.2 heq
    refine slice_bind h fun text htext => ?_
    rw [ih text (drop_of_cons h) (.inl rfl), normalSql, nextQuote, sqlCode]
    simp [hopen, hblank, IsLowerLetter, hletter, htext]
  | case6 byte rest i quote out hquote hopen hdropped ih =>
    obtain rfl : quote = 0 := not_not.mp hquote
    have hblank : IsSqlBlank byte := by
      by_contra h
      exact hdropped ⟨not_le.mp fun hle => h (.inl hle), fun heq => h (.inr heq)⟩
    obtain ⟨hascii, hcode, hnext⟩ := blank_spec byte hblank
    rw [overAscii_cons hascii, normalSql, hcode, hnext, ih (drop_of_cons h) (.inl rfl)]
    rfl

/-- The walk gives the normal form of ASCII bytes, and stops at any other byte. -/
theorem schemaNormalizedSql_bytes (sql : Text) :
    (schemaNormalizedSql sql).map Text.bytes = overAscii sql.bytes (normalSql 0 sql.bytes) :=
  schemaNormalizedFrom_bytes sql sql.bytes 0 0 "" rfl (.inl rfl)

/-- What the normal form of a text is for: the walk does not stop, it changes nothing the second time,
it keeps quoted parts, and edits outside of them do not matter. -/
def Normalizes (sql : Text) : Prop :=
  ∃ res, schemaNormalizedSql sql = some res ∧ schemaNormalizedSql res = some res ∧
    quotedBytes 0 res.bytes = quotedBytes 0 sql.bytes ∧
    ∀ other : Text, Relation.EqvGen EditsSql sql.bytes other.bytes →
      schemaNormalizedSql other = some res

/-- The normal form does all this for ASCII texts, and only for those. -/
theorem normalizes_iff_ascii (sql : Text) :
    Normalizes sql ↔ ∀ byte ∈ sql.bytes, byte.toNat < 128 := by
  constructor
  · rintro ⟨res, hresult, -⟩
    by_contra hascii
    have hbytes := schemaNormalizedSql_bytes sql
    rw [hresult, overAscii, if_neg hascii] at hbytes
    cases hbytes
  · intro hascii
    have hgives {other : Text} (h : ∀ byte ∈ other.bytes, byte.toNat < 128) :
        ∃ res, schemaNormalizedSql other = some res ∧ res.bytes = normalSql 0 other.bytes := by
      have hbytes := schemaNormalizedSql_bytes other
      rw [overAscii, if_pos h] at hbytes
      exact Option.map_eq_some_iff.mp hbytes
    obtain ⟨res, hresult, hbytes⟩ := hgives hascii
    have hsame {other : Text} (h : ∀ byte ∈ other.bytes, byte.toNat < 128)
        (hnormal : normalSql 0 other.bytes = res.bytes) :
        schemaNormalizedSql other = some res := by
      obtain ⟨again, hagain, hbytes'⟩ := hgives h
      rw [hagain, Text.ext (hbytes'.trans hnormal)]
    refine ⟨res, hresult, hsame ?_ ?_, ?_, fun other hother => ?_⟩
    · rw [hbytes]
      exact ascii_normalSql 0 hascii
    · rw [hbytes, normalSql_normalSql]
    · rw [hbytes, quotedBytes_normalSql]
    · obtain ⟨hnormal, hiff⟩ := eqvGen_normal hother
      exact hsame (hiff.mp hascii) (hnormal.symm.trans hbytes.symm)

/-- A quoted `é` stops the walk. -/
theorem schemaNormalizedSql_accent : schemaNormalizedSql "'é'" = none := by
  decide +kernel

end Neri.Data
