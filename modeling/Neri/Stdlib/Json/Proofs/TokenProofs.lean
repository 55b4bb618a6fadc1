import Neri.Stdlib.Json.Proofs.StringProofs

/-!
# Whitespace and the tokens that are not strings

The parser skips whitespace and cuts a token at the first character that cannot be part of one. Both
are tests of bytes that are tests of characters.
-/

namespace Neri.Stdlib.Json

open Utf8 List

variable {c : Char} {tree : Tree}

instance : DecidablePred IsSpace := fun c =>
  inferInstanceAs (Decidable (c = ' ' ∨ c = '\t' ∨ c = '\n' ∨ c = '\r'))

/-- A character of a token: no whitespace, and nothing that goes on with or ends a container. -/
def IsTokenChar (c : Char) : Prop := ¬ IsSpace c ∧ c ≠ ',' ∧ c ≠ ']' ∧ c ≠ '}'

instance : DecidablePred IsTokenChar := fun c =>
  inferInstanceAs (Decidable (¬ IsSpace c ∧ c ≠ ',' ∧ c ≠ ']' ∧ c ≠ '}'))

theorem IsSpace.toNat_lt (h : IsSpace c) : c.toNat < 128 := by
  rcases h with rfl | rfl | rfl | rfl <;> decide

theorem isTokenChar_of_high (h : 128 ≤ c.toNat) : IsTokenChar c := by
  refine ⟨fun hspace => ?_, ?_, ?_, ?_⟩
  · have := hspace.toNat_lt
    omega
  all_goals
    rintro rfl
    exact absurd h (by decide)

theorem byteTest_isSpace : ByteTest Parser.isSpaceByte (fun c => decide (IsSpace c)) := by
  refine .of_ascii false (fun c hc => ?_) (fun byte hbyte => ?_) (fun c hc => ?_)
  · refine forall_ascii
      (fun c => Parser.isSpaceByte (UInt8.ofNat c.toNat) = decide (IsSpace c)) ?_ hc
    decide
  · simp only [Parser.isSpaceByte, Bool.or_eq_false_iff, decide_eq_false_iff_not]
    refine ⟨⟨⟨?_, ?_⟩, ?_⟩, ?_⟩ <;> (rintro rfl; exact absurd hbyte (by decide))
  · rw [decide_eq_false_iff_not]
    intro hspace
    have := hspace.toNat_lt
    omega

theorem byteTest_isTokenByte : ByteTest Parser.isTokenByte (fun c => decide (IsTokenChar c)) := by
  refine .of_ascii true (fun c hc => ?_) (fun byte hbyte => ?_) (fun c hc => ?_)
  · refine forall_ascii
      (fun c => Parser.isTokenByte (UInt8.ofNat c.toNat) = decide (IsTokenChar c)) ?_ hc
    decide
  · simp only [Parser.isTokenByte, Parser.isSpaceByte, Bool.and_eq_true, Bool.not_eq_true',
      Bool.or_eq_false_iff, decide_eq_false_iff_not, decide_eq_true_eq]
    refine ⟨⟨⟨⟨⟨⟨?_, ?_⟩, ?_⟩, ?_⟩, ?_⟩, ?_⟩, ?_⟩ <;> (rintro rfl; exact absurd hbyte (by decide))
  · rw [decide_eq_true_eq]
    exact isTokenChar_of_high hc

/-! ## Runs of characters -/

theorem takeWhile_run {kind : Char → Prop} [DecidablePred kind] {run rest : List Char}
    (hrun : ∀ c ∈ run, kind c) (hrest : NotHead kind rest) :
    (run ++ rest).takeWhile (fun c => decide (kind c)) = run := by
  rw [takeWhile_append_of_pos (by simpa using hrun)]
  cases rest with
  | nil => rw [takeWhile_nil, append_nil]
  | cons c rest =>
    rw [takeWhile_cons_of_neg (by simpa using hrest c rfl), append_nil]

namespace Parser

variable {p : Parser} {before rest : List Char}

theorem skipWhile_run {kind : Char → Prop} [DecidablePred kind] {test : UInt8 → Bool}
    {run : List Char} (htest : ByteTest test (fun c => decide (kind c)))
    (h : p.At before (run ++ rest)) (hrun : ∀ c ∈ run, kind c) (hrest : NotHead kind rest) :
    p.skipWhile test = p.advance (encode run).length := by
  rw [skipWhile, Text.SplitsAt.drop h, htest.takeWhile_encode, takeWhile_run hrun hrest]

theorem spaces_run {space : List Char} (h : p.At before (space ++ rest))
    (hspace : IsWhitespace space) (hrest : NotHead IsSpace rest) :
    p.spaces = p.advance (encode space).length :=
  skipWhile_run byteTest_isSpace h hspace hrest

theorem spaces_spaces (p : Parser) : p.spaces.spaces = p.spaces := by
  have hdrop : ∀ bytes : List UInt8,
      (bytes.drop (bytes.takeWhile isSpaceByte).length).takeWhile isSpaceByte = [] := by
    intro bytes
    induction bytes with
    | nil => rfl
    | cons byte bytes ih =>
      cases hbyte : isSpaceByte byte with
      | true => rwa [takeWhile_cons_of_pos hbyte, length_cons, drop_succ_cons]
      | false => simp [hbyte]
  show p.spaces.advance
    ((p.input.bytes.drop (p.position + _)).takeWhile isSpaceByte).length = _
  rw [← drop_drop, hdrop]
  rfl

end Parser

/-! ## Tokens -/

/-- What has to follow a value: a token that is not a string ends with what cannot be part of it. -/
def Delimited : Tree → List Char → Prop
  | .null, rest | .boolean _, rest | .number _, rest => NotHead IsTokenChar rest
  | _, _ => True

theorem delimited_of_notHead {rest : List Char} (h : NotHead IsTokenChar rest) (tree : Tree) :
    Delimited tree rest := by
  cases tree <;> first | exact h | trivial

theorem isTokenChar_of_isDigit (h : IsDigit c) : IsTokenChar c := by
  have hdigit : IsDigit c → IsTokenChar c :=
    forall_ascii (fun c => IsDigit c → IsTokenChar c) (by decide) h.toNat_lt
  exact hdigit h

variable {text : List Char}

theorem IsDigits.tokenChars (h : IsDigits text) : ∀ c ∈ text, IsTokenChar c :=
  fun c hc => isTokenChar_of_isDigit (h.2 c hc)

theorem IsInteger.isDigit (h : IsInteger text) : ∀ c ∈ text, IsDigit c := by
  rcases h with rfl | ⟨first, rest, rfl, hfirst, hrest⟩
  · intro c hc
    rw [mem_singleton.mp hc]
    decide
  · refine forall_mem_cons.mpr ⟨?_, hrest⟩
    have hfirst' : 49 ≤ first.toNat ∧ first.toNat ≤ 57 := hfirst
    rw [isDigit_iff]
    omega

theorem IsNumber.tokenChars (h : IsNumber text) : ∀ c ∈ text, IsTokenChar c := by
  obtain ⟨minus, integer, fraction, exponent, rfl, hminus, hinteger, hfraction, hexponent⟩ := h
  intro c hc
  simp only [mem_append] at hc
  rcases hc with ((hc | hc) | hc) | hc
  · rcases hminus with rfl | rfl
    · cases hc
    · rw [mem_singleton.mp hc]
      decide
  · exact isTokenChar_of_isDigit (hinteger.isDigit c hc)
  · rcases hfraction with rfl | ⟨digits, rfl, hdigits⟩
    · cases hc
    · rcases mem_cons.mp hc with rfl | hc
      · decide
      · exact hdigits.tokenChars c hc
  · rcases hexponent with rfl | ⟨e, sign, digits, rfl, he, hsign, hdigits⟩
    · cases hc
    · rcases mem_cons.mp hc with rfl | hc
      · rcases he with rfl | rfl <;> decide
      · rcases mem_append.mp hc with hc | hc
        · rcases hsign with rfl | rfl | rfl
          · cases hc
          all_goals
            rw [mem_singleton.mp hc]
            decide
        · exact hdigits.tokenChars c hc

theorem IsNumber.head (h : IsNumber text) :
    ∃ first rest, text = first :: rest ∧ (first = '-' ∨ IsDigit first) := by
  obtain ⟨minus, integer, fraction, exponent, rfl, rfl | rfl, hinteger, -, -⟩ := h
  · have hdigit := hinteger.isDigit
    cases integer with
    | nil =>
      rcases hinteger with hnil | ⟨_, _, hnil, -⟩ <;> cases hnil
    | cons first integer => exact ⟨first, _, rfl, .inr (hdigit first mem_cons_self)⟩
  · exact ⟨'-', _, rfl, .inl rfl⟩

theorem IsNumber.head_ne (h : IsNumber text) (hminus : c ≠ '-') (hdigit : ¬ IsDigit c)
    (rest : List Char) : text ≠ c :: rest := by
  obtain ⟨first, tail, rfl, hfirst⟩ := h.head
  intro heq
  obtain rfl := (cons.inj heq).1
  exact hfirst.elim hminus hdigit

inductive IsToken : List Char → Tree → Prop
  | null : IsToken "null".toList .null
  | true : IsToken "true".toList (.boolean .true)
  | false : IsToken "false".toList (.boolean .false)
  | number {text : List Char} : IsNumber text → IsToken text (.number text)

theorem IsToken.isValue (h : IsToken text tree) : IsValue text tree := by
  cases h with
  | null => exact .null
  | true => exact .true
  | false => exact .false
  | number hnumber => exact .number hnumber

theorem IsToken.tokenChars (h : IsToken text tree) : ∀ c ∈ text, IsTokenChar c := by
  cases h with
  | number hnumber => exact hnumber.tokenChars
  | _ => exact forall_iff_forall_mem.mp (by decide)

theorem IsToken.head (h : IsToken text tree) :
    ∃ first rest, text = first :: rest ∧ first ≠ '"' ∧ first ≠ '{' ∧ first ≠ '[' := by
  cases h with
  | number hnumber =>
    obtain ⟨first, rest, rfl, hfirst⟩ := hnumber.head
    refine ⟨first, rest, rfl, ?_, ?_, ?_⟩ <;>
      (rintro rfl; exact absurd hfirst (by decide))
  | _ => exact ⟨_, _, rfl, by decide, by decide, by decide⟩

theorem IsToken.nodes (h : IsToken text tree) : tree.nodes = 1 := by
  cases h <;> simp [Tree.nodes]

theorem IsToken.delimited_iff {rest : List Char} (h : IsToken text tree) :
    Delimited tree rest ↔ NotHead IsTokenChar rest := by
  cases h <;> exact Iff.rfl

theorem tokenValue_of_isToken (h : IsToken text tree) :
    ∃ v, Parser.tokenValue (Text.ofScalars text) = some v ∧ ∀ child, v.Shows child tree := by
  cases h with
  | null => exact ⟨_, rfl, fun _ => rfl⟩
  | true => exact ⟨_, rfl, fun _ => ⟨rfl, rfl⟩⟩
  | false => exact ⟨_, rfl, fun _ => ⟨rfl, rfl⟩⟩
  | number hnumber =>
    have hne : ∀ c rest, c ≠ '-' → ¬ IsDigit c → Text.ofScalars text ≠ Text.ofScalars (c :: rest) :=
      fun c rest hminus hdigit heq => hnumber.head_ne hminus hdigit rest (Text.ofScalars_injective heq)
    have hnull : Text.ofScalars text ≠ "null" := hne 'n' _ (by decide) (by decide)
    have htrue : Text.ofScalars text ≠ "true" := hne 't' _ (by decide) (by decide)
    have hfalse : Text.ofScalars text ≠ "false" := hne 'f' _ (by decide) (by decide)
    refine ⟨Value.init "number" (Text.ofScalars text), ?_, fun _ => ⟨rfl, rfl⟩⟩
    unfold Parser.tokenValue
    rw [if_neg hnull, if_neg (by simp [htrue, hfalse]), Value.number,
      if_pos (validNumber_ofScalars_iff.mpr hnumber)]

theorem isToken_of_tokenValue {v : Value}
    (h : Parser.tokenValue (Text.ofScalars text) = some v) : ∃ tree, IsToken text tree := by
  unfold Parser.tokenValue at h
  split at h
  · rename_i hnull
    rw [Text.ofScalars_injective hnull]
    exact ⟨_, .null⟩
  · split at h
    · rename_i hboolean
      rcases (by simpa using hboolean : _ ∨ _) with htrue | hfalse
      · rw [Text.ofScalars_injective htrue]
        exact ⟨_, .true⟩
      · rw [Text.ofScalars_injective hfalse]
        exact ⟨_, .false⟩
    · unfold Value.number at h
      split at h
      · rename_i hnumber
        exact ⟨_, .number (validNumber_ofScalars_iff.mp hnumber)⟩
      · cases h

namespace Parser

variable {p : Parser} {before rest : List Char}

/-- A run of the characters of a token is cut out. -/
theorem readToken_eq (h : p.At before (text ++ rest)) (htext : ∀ c ∈ text, IsTokenChar c)
    (hrest : NotHead IsTokenChar rest) : p.readToken = match tokenValue (Text.ofScalars text) with
      | some v => (p.advance (encode text).length).allocate v
      | none => ((p.advance (encode text).length).fail "invalid_json").allocate
          Value.nullValue := by
  have hslice : (p.advance (encode text).length).input.sliceBytes p.position
      ((p.advance (encode text).length).position - p.position) =
      some (Text.ofScalars text) := by
    show p.input.sliceBytes _ (p.position + (encode text).length - p.position) = _
    rw [Nat.add_sub_cancel_left]
    exact Text.SplitsAt.sliceBytes h
  unfold readToken
  dsimp only
  rewrite [skipWhile_run byteTest_isTokenByte h htext hrest, hslice]
  rfl

theorem readToken_of_isToken (h : p.At before (text ++ rest))
    (htext : IsToken text tree) (hrest : NotHead IsTokenChar rest) :
    ∃ v, p.readToken = (p.advance (encode text).length).allocate v ∧
      ∀ child, v.Shows child tree := by
  obtain ⟨v, hvalue, hshows⟩ := tokenValue_of_isToken htext
  refine ⟨v, ?_, hshows⟩
  rw [readToken_eq h htext.tokenChars hrest, hvalue]

theorem isToken_of_readToken {after : List Char} (h : p.At before after)
    (hok : p.readToken.2.problem = none) :
    ∃ text rest tree, after = text ++ rest ∧ IsToken text tree ∧ NotHead IsTokenChar rest := by
  obtain ⟨text, rest, rfl, htext, hrest⟩ := exists_run IsTokenChar after
  rw [readToken_eq h htext hrest] at hok
  cases hvalue : tokenValue (Text.ofScalars text) with
  | none =>
    rw [hvalue] at hok
    exact absurd hok problem_fail
  | some v =>
    obtain ⟨tree, htree⟩ := isToken_of_tokenValue hvalue
    exact ⟨text, rest, tree, rfl, htree, hrest⟩

end Parser

end Neri.Stdlib.Json
