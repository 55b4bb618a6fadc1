import Neri.Frontend.Tiling
import Neri.Lib.ExceptFold
import Neri.Stdlib.Proofs.TextProofs

/-!
# The tokens of the lexer tile the source

The lexer stands between two scalars of the source, with its position in UTF-16 code units at the
same place. Each round of `lex` passes at least one scalar: it adds a token for what it passes, or
what it passes belongs to a gap. Unless the analysis is cancelled the rounds go on to the end.
-/

namespace Neri.Frontend

open Neri.Stdlib Utf8 List Option

/-! ## Code units -/

@[simp]
theorem utf16_append (chars chars' : List Char) : utf16 (chars ++ chars') = utf16 chars ++ utf16 chars' :=
  flatMap_append

theorem length_utf16Units (c : Char) : (Ir.utf16Units c).length = utf16Width c.toNat := by
  unfold Ir.utf16Units utf16Width
  by_cases h : c.toNat ≤ 65535
  · rw [if_pos h, if_neg (by omega)]
    rfl
  · rw [if_neg h, if_pos (by omega)]
    rfl

theorem length_utf16_singleton (c : Char) : (utf16 [c]).length = utf16Width c.toNat := by
  simp [utf16, length_utf16Units]

theorem length_le_length_utf16 (chars : List Char) : chars.length ≤ (utf16 chars).length := by
  induction chars with
  | nil => exact Nat.le_refl _
  | cons c chars ih =>
    have hunits := length_utf16_singleton c
    rw [show c :: chars = [c] ++ chars from rfl, utf16_append, length_append, length_append,
      hunits, length_singleton]
    unfold utf16Width
    split <;> omega

/-! ## Gaps -/

variable {after : List Char}

/-- A gap goes on with another one: only a blank or a comment can follow, so it does not end with a
comment. -/
theorem IsGap.append {gap piece : List Char} (h : IsGap (piece ++ after) gap)
    (hpiece : IsGap after piece) : IsGap after (gap ++ piece) := by
  induction h with
  | nil => exact hpiece
  | blank hc _ ih => exact .blank hc ih
  | comment hbody hend =>
    cases hpiece with
    | nil =>
      rw [append_nil]
      exact .comment hbody hend
    | blank hc _ =>
      have hline := hend _ rfl
      rcases hc with rfl | rfl <;> rcases hline with hline | hline <;> cases hline
    | comment _ _ =>
      have hline := hend _ rfl
      rcases hline with hline | hline <;> cases hline

theorem isGap_of_blanks {piece : List Char} (h : ∀ c ∈ piece, c = ' ' ∨ c = '\t') :
    IsGap after piece := by
  induction piece with
  | nil => exact .nil
  | cons c piece ih =>
    obtain ⟨hc, hrest⟩ := forall_mem_cons.mp h
    exact .blank hc (ih hrest)

/-! ## Tokens over a part of the source -/

/-- What a token tells about its part of the source. -/
structure TokenNode.Records (token : TokenNode) (part : List Char) : Prop where
  kind : token.kind ≠ .EndOfFile
  text : token.kind ≠ .NewLine → token.text = Text.ofScalars part
  newLine : token.kind = .NewLine → token.text = "\n" ∧ part ∈ [['\n'], ['\r'], ['\r', '\n']]

/-- Tokens over the part `covered` of the source, which ends with the last of them. -/
inductive Covers (source : List Char) : List TokenNode → List Char → Prop
  | nil : Covers source [] []
  | token {tokens : List TokenNode} {covered gap text after : List Char} {token : TokenNode} :
    Covers source tokens covered → source = covered ++ gap ++ text ++ after →
    IsGap (text ++ after) gap → token.start = (utf16 (covered ++ gap)).length →
    token.length = (utf16 text).length → text ≠ [] → token.Records text →
    Covers source (tokens ++ [token]) (covered ++ gap ++ text)

theorem gapsFrom_append (pos : Nat) (tokens : List TokenNode) (token : TokenNode) :
    gapsFrom pos (tokens ++ [token]) = gapsFrom pos tokens ++
      [((tokens.getLast?.map fun last => last.start + last.length).getD pos, token.start)] := by
  induction tokens generalizing pos with
  | nil => rfl
  | cons first tokens ih =>
    rw [cons_append, gapsFrom, ih]
    cases tokens with
    | nil => rfl
    | cons second tokens => rw [getLast?_cons_cons]; rfl

namespace Covers

variable {src covered : List Char} {tokens : List TokenNode} (h : Covers src tokens covered)

include h

theorem last_end :
    (tokens.getLast?.map fun last => last.start + last.length).getD 0 = (utf16 covered).length := by
  cases h with
  | nil => rfl
  | token _ _ _ hstart hlen _ _ =>
    rw [getLast?_concat, map_some, getD_some, hstart, hlen, ← length_append, ← utf16_append]

theorem end_le : ∀ token ∈ tokens, token.start < (utf16 covered).length ∧
      token.start + token.length ≤ (utf16 covered).length := by
  induction h with
  | nil => simp
  | @token tokens covered gap text after token _ _ _ hstart hlen htext _ ih =>
    have hpos : 0 < (utf16 text).length := by
      have := length_le_length_utf16 text
      have := length_pos_iff.mpr htext
      omega
    rw [utf16_append, length_append] at hstart
    simp only [utf16_append, length_append]
    refine forall_mem_append.mpr ⟨fun other hother => ?_, forall_mem_singleton.mpr ?_⟩
    · have := ih other hother
      omega
    · omega

theorem gaps : ∀ gap ∈ gapsFrom 0 tokens, GapBetween src gap.1 gap.2 := by
  induction h with
  | nil => simp [gapsFrom]
  | @token tokens covered gap text after token hcovers hsrc hgap hstart _ _ _ ih =>
    rw [gapsFrom_append, hcovers.last_end]
    refine forall_mem_append.mpr ⟨ih, forall_mem_singleton.mpr ?_⟩
    exact ⟨covered, gap, text ++ after, by rw [hsrc, append_assoc], rfl, hstart.symm, hgap⟩

theorem ordered : tokens.Pairwise fun token next =>
    token.start < next.start ∧ token.start + token.length ≤ next.start := by
  induction h with
  | nil => exact .nil
  | @token tokens covered gap text after token hcovers _ _ hstart _ _ _ ih =>
    refine pairwise_append.mpr ⟨ih, pairwise_singleton _ _, ?_⟩
    intro other hother next hnext
    obtain rfl := mem_singleton.mp hnext
    have := hcovers.end_le other hother
    rw [utf16_append, length_append] at hstart
    omega

theorem records : ∀ token ∈ tokens, ∃ text,
    ((utf16 src).drop token.start).take token.length = utf16 text ∧ token.Records text := by
  induction h with
  | nil => simp
  | @token tokens covered gap text after token _ hsrc _ hstart hlen _ hrecords ih =>
    refine forall_mem_append.mpr ⟨ih, forall_mem_singleton.mpr ⟨text, ?_, hrecords⟩⟩
    rw [hstart, hlen, hsrc, utf16_append _ after, utf16_append _ text, append_assoc,
      drop_left, take_left]

theorem isTiling {gap : List Char} (hsrc : src = covered ++ gap)
    (hgap : IsGap [] gap) {last : TokenNode} (hkind : last.kind = .EndOfFile)
    (hstart : last.start = (utf16 src).length) (hlen : last.length = 0)
    (htext : last.text = "") : IsTiling src (tokens ++ [last]) where
  ordered := by
    refine pairwise_append.mpr ⟨h.ordered, pairwise_singleton _ _, ?_⟩
    intro token htoken next hnext
    obtain rfl := mem_singleton.mp hnext
    have := h.end_le token htoken
    rw [hsrc, utf16_append, length_append] at hstart
    omega
  text := by
    refine forall_mem_append.mpr ⟨fun token htoken hkind => ?_,
      forall_mem_singleton.mpr fun _ => ?_⟩
    · obtain ⟨text, hunits, hrecords⟩ := h.records token htoken
      rw [hunits, hrecords.text hkind, Text.scalars_ofScalars]
    · rw [hlen, htext]
      rfl
  newLine := by
    refine forall_mem_append.mpr ⟨fun token htoken hline => ?_,
      forall_mem_singleton.mpr fun hline => ?_⟩
    · obtain ⟨text, hunits, hrecords⟩ := h.records token htoken
      obtain ⟨hrecorded, hmem⟩ := hrecords.newLine hline
      exact ⟨hrecorded, text, hmem, hunits⟩
    · rw [hkind] at hline
      cases hline
  gaps := by
    rw [gapsFrom_append, h.last_end]
    refine forall_mem_append.mpr ⟨h.gaps, forall_mem_singleton.mpr ?_⟩
    exact ⟨covered, gap, [], by rw [hsrc, append_nil], rfl, by rw [hstart, hsrc], hgap⟩
  endOfFile := by
    refine ⟨tokens, last, rfl, hkind, hstart, hlen, fun token htoken => ?_⟩
    obtain ⟨_, _, hrecords⟩ := h.records token htoken
    exact hrecords.kind

end Covers

/-! ## Cancellation -/

namespace AnalysisControl

/-- A control that has not been stopped by a checkpoint said that the analysis goes on. -/
theorem of_checkpoint {control : AnalysisControl} (h : control.checkpoint.2.stopped = false) :
    control.stopped = false ∧ control.checkpoint.1 = true := by
  unfold checkpoint at h ⊢
  cases hstopped : control.stopped with
  | true => simp [hstopped] at h
  | false =>
    refine ⟨rfl, ?_⟩
    simp only [hstopped, Bool.false_eq_true, if_false] at h ⊢
    split at h
    · rename_i hzero
      rw [if_pos hzero]
      unfold poll at h ⊢
      simp only [Bool.false_eq_true, if_false] at h ⊢
      rw [h]
      rfl
    · rename_i hzero
      rw [if_neg hzero]

/-- A checkpoint stops a control only where its callback says so. -/
theorem checkpoint_of_consent {control : AnalysisControl} (hstopped : control.stopped = false)
    (hcallback : ∀ callback ∈ control.callback, ∀ call, callback call = true) :
    control.checkpoint.2.stopped = false ∧ control.checkpoint.2.callback = control.callback := by
  unfold checkpoint poll
  simp only [hstopped, Bool.false_eq_true, if_false]
  split
  · cases hfound : control.callback with
    | none => exact ⟨rfl, rfl⟩
    | some callback => simp [hcallback callback hfound]
  · exact ⟨rfl, rfl⟩

end AnalysisControl

namespace BootstrapLexer

/-- Between two states of the lexer its control was only asked. -/
structure Asks (lexer next : BootstrapLexer) : Prop where
  running : next.Running → lexer.Running
  uncancelled : lexer.Uncancelled → next.Uncancelled

variable {next : BootstrapLexer}

theorem Asks.trans {lexer middle : BootstrapLexer} (h : Asks lexer middle)
    (h' : Asks middle next) : Asks lexer next :=
  ⟨fun hrunning => h.running (h'.running hrunning), fun hgo => h'.uncancelled (h.uncancelled hgo)⟩

theorem Asks.of_control_eq {lexer : BootstrapLexer} (h : next.control = lexer.control) :
    Asks lexer next := by
  constructor
  · exact fun hrunning control hcontrol => hrunning control (h ▸ hcontrol)
  · exact fun hgo control hcontrol => hgo control (h ▸ hcontrol)

theorem asks_hasInput (lexer : BootstrapLexer) : Asks lexer lexer.hasInput.2 := by
  unfold BootstrapLexer.hasInput
  cases hcontrol : lexer.control with
  | none => exact .of_control_eq rfl
  | some control =>
    constructor
    · intro hrunning found hfound
      rw [hcontrol] at hfound
      obtain rfl := some.inj hfound
      exact (AnalysisControl.of_checkpoint (hrunning _ rfl)).1
    · intro hgo found hfound
      obtain rfl := some.inj hfound
      obtain ⟨hstopped, hcallback⟩ := hgo control hcontrol
      obtain ⟨hstopped', hsame⟩ := AnalysisControl.checkpoint_of_consent hstopped hcallback
      exact ⟨hstopped', hsame ▸ hcallback⟩

/-! ## Positions -/

/-- The lexer stands between two parts of its source. -/
structure Stands (lexer : BootstrapLexer) (source : Text) (before after : List Char) : Prop where
  reads : lexer.source = source
  splits : source.SplitsAt lexer.bytePosition before after
  units : lexer.utf16Position = (utf16 before).length

variable {l : BootstrapLexer} {src : Text} {pre after : List Char} {c : Char}

theorem Stands.byteLength (h : l.Stands src pre after) :
    l.byteLength = l.bytePosition + (encode after).length := by
  rw [BootstrapLexer.byteLength, h.reads, h.splits.byteLength]

theorem length_le_length_encode (chars : List Char) : chars.length ≤ (encode chars).length := by
  induction chars with
  | nil => exact Nat.le_refl _
  | cons c chars ih =>
    obtain ⟨first, rest, hfirst, -⟩ := exists_first c
    rw [encode_cons, hfirst]
    simp only [length_cons, length_append]
    omega

theorem Stands.lt_rounds (h : l.Stands src pre after) : after.length < l.rounds := by
  have hlen := h.byteLength
  have := length_le_length_encode after
  unfold rounds
  omega

theorem Stands.available_iff (h : l.Stands src pre after) :
    l.bytePosition < l.byteLength ↔ after ≠ [] := by
  rw [h.byteLength]
  cases after with
  | nil => simp
  | cons c after =>
    have := length_le_length_encode (c :: after)
    rw [length_cons] at this
    simp only [ne_eq, reduceCtorEq, not_false_eq_true, iff_true]
    omega

/-- The lexer has passed a part of the source and has added no token. -/
structure Passes (lexer next : BootstrapLexer) (source : Text) (before part after : List Char) : Prop where
  stands : next.Stands source (before ++ part) after
  tokens : next.tokens = lexer.tokens
  asks : Asks lexer next

variable {part : List Char}

theorem Passes.trans {middle : BootstrapLexer} {part' : List Char}
    (h : l.Passes middle src pre part (part' ++ after))
    (h' : middle.Passes next src (pre ++ part) part' after) :
    l.Passes next src pre (part ++ part') after :=
  ⟨by rw [← append_assoc]; exact h'.stands, h'.tokens.trans h.tokens, h.asks.trans h'.asks⟩

/-- A check for input passes nothing, and says no at the end only, unless the analysis is cancelled. -/
theorem Stands.hasInput (h : l.Stands src pre after) :
    l.Passes l.hasInput.2 src pre [] after ∧ (l.hasInput.1 = true → after ≠ []) ∧
      (l.hasInput.2.Running → after ≠ [] → l.hasInput.1 = true) := by
  have hiff := h.available_iff
  have hhere : l.Stands src (pre ++ []) after := by rwa [append_nil]
  have hasks := asks_hasInput l
  unfold BootstrapLexer.hasInput at hasks ⊢
  cases hcontrol : l.control with
  | none =>
    exact ⟨⟨hhere, rfl, .of_control_eq rfl⟩, fun hinput => hiff.mp (of_decide_eq_true hinput),
      fun _ hafter => decide_eq_true (hiff.mpr hafter)⟩
  | some control =>
    rw [hcontrol] at hasks
    refine ⟨⟨⟨hhere.reads, hhere.splits, hhere.units⟩, rfl, hasks⟩, fun hinput => ?_,
      fun hrunning hafter => ?_⟩
    · rw [Bool.and_eq_true, decide_eq_true_eq] at hinput
      exact hiff.mp hinput.2
    · dsimp only
      rw [(AnalysisControl.of_checkpoint (hrunning _ rfl)).2]
      exact decide_eq_true (hiff.mpr hafter)

/-! ## Reads -/

section Reads

variable (h : l.Stands src pre (c :: after))

include h

theorem Stands.byteAt : ∃ first : UInt8, l.byteAt l.bytePosition = some (first.toNat : Int) ∧
      utf8Width first.toNat = (String.utf8EncodeChar c).length ∧
      (c.toNat < 128 ∧ first.toNat = c.toNat ∨ 128 ≤ c.toNat ∧ 192 ≤ first.toNat) := by
  obtain ⟨first, rest, hfirst, hcases⟩ := exists_first c
  have hwidth := (Ir.decode_utf8EncodeChar (encode pre) (encode after) c).2
  refine ⟨first, ?_, ?_, by rcases hcases with ⟨hlow, heq, -⟩ | hhigh; exacts [.inl ⟨hlow, heq⟩, .inr hhigh]⟩
  · rw [BootstrapLexer.byteAt, h.reads, h.splits.byteAt, encode_cons, hfirst]
    rfl
  · have hread := Ir.byteAt_append_right (encode pre) (String.utf8EncodeChar c ++ encode after) 0
    have hb : Frontend.byteAt (String.utf8EncodeChar c ++ encode after) 0 = first.toNat := by
      rw [hfirst]
      rfl
    rw [Nat.add_zero, hb] at hread
    rw [← hwidth, hread]

theorem Stands.codePointAt : l.codePointAt l.bytePosition = some (c.toNat : Int) := by
  obtain ⟨first, hfirst, hwidth, -⟩ := h.byteAt
  have hlen := h.byteLength
  rw [encode_cons, length_append] at hlen
  have hpoint := (Ir.decode_utf8EncodeChar (encode pre) (encode after) c).1
  unfold BootstrapLexer.codePointAt
  rw [hfirst, bind_some, if_pos (by omega), h.reads, h.splits.bytes, encode_cons, h.splits.offset,
    hpoint]

/-- A byte below 128 at the start of a scalar is the scalar. -/
theorem Stands.byteAt_eq_iff : ∃ b : Int, l.byteAt l.bytePosition = some b ∧
      ∀ code : Int, code < 128 → (b = code ↔ (c.toNat : Int) = code) := by
  obtain ⟨first, hfirst, -, hcases⟩ := h.byteAt
  exact ⟨first.toNat, hfirst, fun code hcode => by omega⟩

theorem Stands.atBlank : l.atBlank = some ((c.toNat : Int) == 32 || (c.toNat : Int) == 9) := by
  obtain ⟨b, hb, hiff⟩ := h.byteAt_eq_iff
  rw [BootstrapLexer.atBlank, hb, map_some, some_inj, Bool.eq_iff_iff]
  simp only [Bool.or_eq_true, beq_iff_eq, hiff 32 (by decide), hiff 9 (by decide)]

theorem Stands.atNoLineEnd :
    l.atNoLineEnd = some ((c.toNat : Int) != 13 && (c.toNat : Int) != 10) := by
  obtain ⟨b, hb, hiff⟩ := h.byteAt_eq_iff
  rw [BootstrapLexer.atNoLineEnd, hb, map_some, some_inj, Bool.eq_iff_iff]
  simp only [Bool.and_eq_true, bne_iff_ne, ne_eq, hiff 13 (by decide), hiff 10 (by decide)]

theorem Stands.atIdentifierPart : l.atIdentifierPart = some (isIdentifierPart c.toNat) := by
  rw [BootstrapLexer.atIdentifierPart, h.codePointAt, map_some]

theorem Stands.atDigit : l.atDigit = some (inUnicodeRanges c.toNat unicodeDigitRanges) := by
  rw [BootstrapLexer.atDigit, h.codePointAt, map_some]

end Reads

/-! ## Moves -/

theorem Stands.advanceScalar (h : l.Stands src pre (c :: after)) :
    ∃ next, l.advanceScalar = some next ∧ l.Passes next src pre [c] after := by
  obtain ⟨first, hfirst, hwidth, -⟩ := h.byteAt
  refine ⟨{ l with
    bytePosition := l.bytePosition + utf8Width first.toNat
    utf16Position := l.utf16Position + utf16Width c.toNat }, ?_, ?_, rfl, .of_control_eq rfl⟩
  · unfold BootstrapLexer.advanceScalar
    rw [h.codePointAt, hfirst]
    rfl
  · refine ⟨h.reads, ?_, ?_⟩
    · have hsplits : src.SplitsAt l.bytePosition pre ([c] ++ after) := h.splits
      have := hsplits.append
      rwa [encode_cons, encode_nil, append_nil, ← hwidth] at this
    · show l.utf16Position + utf16Width c.toNat = _
      rw [h.units, utf16_append, length_append, length_utf16_singleton]

variable {rounds : Nat} {test : BootstrapLexer → Option Bool}

/-- What a loop that advances over scalars passes: scalars that the test accepts, up to one that it
does not. -/
theorem Stands.advanceWhile {accepts : Char → Bool}
    (htest : ∀ l pre c after, Stands l src pre (c :: after) →
      test l = some (accepts c)) (h : l.Stands src pre after)
    (hrounds : after.length < rounds) :
    ∃ next part rest, BootstrapLexer.advanceWhile test rounds l = some next ∧
      after = part ++ rest ∧ l.Passes next src pre part rest ∧ (∀ c ∈ part, accepts c = true) ∧
      (next.Running → ∀ c ∈ rest.head?, accepts c = false) := by
  induction rounds generalizing l pre after with
  | zero => omega
  | succ rounds ih =>
    obtain ⟨hchecked, hinput, hrunning⟩ := h.hasInput
    have hstands := hchecked.stands
    unfold BootstrapLexer.advanceWhile
    dsimp only
    cases hmore : l.hasInput.1 with
    | false =>
      refine ⟨_, [], after, rfl, rfl, hchecked, by simp, fun hrun c hc => ?_⟩
      have hne : after ≠ [] := by
        rintro rfl
        cases hc
      rw [hrunning hrun hne] at hmore
      cases hmore
    | true =>
      obtain ⟨c, after, rfl⟩ := exists_cons_of_ne_nil (hinput hmore)
      rw [htest _ _ c after hstands]
      cases haccepts : accepts c with
      | false =>
        refine ⟨_, [], c :: after, rfl, rfl, hchecked, by simp, fun _ d hd => ?_⟩
        cases hd
        exact haccepts
      | true =>
        obtain ⟨moved, hmoved, hpasses⟩ := hstands.advanceScalar
        obtain ⟨next, part, rest, hnext, rfl, hpart, haccepted, hstop⟩ :=
          ih hpasses.stands (by rw [length_cons] at hrounds; omega)
        rw [hmoved]
        exact ⟨next, c :: part, rest, hnext, rfl, hchecked.trans (hpasses.trans hpart),
          forall_mem_cons.mpr ⟨haccepts, haccepted⟩, hstop⟩

/-! ## Tokens -/

/-- The lexer has passed a part of the source and has added a token for it. -/
structure Adds (lexer next : BootstrapLexer) (source : Text) (before part after : List Char) : Prop where
  stands : next.Stands source (before ++ part) after
  asks : Asks lexer next
  tokens : ∃ token, next.tokens = lexer.tokens ++ [token] ∧ token.start = (utf16 before).length ∧
    token.length = (utf16 part).length ∧ token.Records part

variable {next : BootstrapLexer} {part : List Char} {kind : TokenKind}

section Passes

variable (h : l.Passes next src pre part after) (hstart : l.Stands src pre (part ++ after))

include h hstart

theorem Passes.textFrom : next.textFrom l.bytePosition = some (Text.ofScalars part) := by
  have hoffset := h.stands.splits.offset
  rw [encode_append, length_append, ← hstart.splits.offset] at hoffset
  rw [BootstrapLexer.textFrom, h.stands.reads, hoffset, Nat.add_sub_cancel_left]
  exact hstart.splits.slice

theorem Passes.addKnown {text v : Text}
    (hrecords : TokenNode.Records ⟨kind, l.utf16Position, next.utf16Position - l.utf16Position,
      text, v⟩ part) :
    l.Adds (next.addKnown kind l.utf16Position (next.utf16Position - l.utf16Position) text
      v) src pre part after := by
  refine ⟨⟨h.stands.reads, h.stands.splits, h.stands.units⟩, h.asks.trans (.of_control_eq rfl), _,
    congrArg (· ++ _) h.tokens, hstart.units, ?_, hrecords⟩
  show next.utf16Position - l.utf16Position = _
  rw [h.stands.units, hstart.units, utf16_append, length_append, Nat.add_sub_cancel_left]

theorem Passes.addText (hend : kind ≠ .EndOfFile) (hline : kind ≠ .NewLine) (v : Text) :
    l.Adds (next.addKnown kind l.utf16Position (next.utf16Position - l.utf16Position)
      (Text.ofScalars part) v) src pre part after :=
  h.addKnown hstart ⟨hend, fun _ => rfl, fun heq => absurd heq hline⟩

/-- A kind without a text of its own, or with the text that was passed. -/
theorem Passes.add (hend : kind ≠ .EndOfFile)
    (hline : kind ≠ .NewLine) (hfixed : kind.fixedText ≠ "" → kind.fixedText.toList = part) (v : Text) :
    ∃ final, next.add kind l.bytePosition l.utf16Position v = some final ∧
      l.Adds final src pre part after := by
  refine ⟨_, ?_, h.addText hstart hend hline v⟩
  unfold BootstrapLexer.add
  by_cases hempty : kind.fixedText = ""
  · rw [if_pos (by simp [hempty, hend]), h.textFrom hstart]
    rfl
  · rw [if_neg (by simp [hempty]), Text.ofString, hfixed hempty]
    rfl

theorem Passes.addNewLine (hpart : part ∈ [['\n'], ['\r'], ['\r', '\n']]) (v : Text) :
    ∃ final, next.add .NewLine l.bytePosition l.utf16Position v = some final ∧
      l.Adds final src pre part after :=
  ⟨_, rfl, h.addKnown hstart ⟨(by decide : TokenKind.NewLine ≠ .EndOfFile), fun hne => absurd rfl hne,
    fun _ => ⟨rfl, hpart⟩⟩⟩

end Passes

theorem Passes.bytePosition_ascii (h : l.Passes next src pre [c] after)
    (hstart : l.Stands src pre (c :: after)) (hc : c.toNat < 128) :
    next.bytePosition = l.bytePosition + 1 := by
  have hoffset := h.stands.splits.offset
  rwa [encode_append, length_append, ← hstart.splits.offset, encode_cons,
    utf8EncodeChar_ascii hc] at hoffset

/-! ## Branches -/

/-- What a round of `lex` does: it adds a token for a part of the source, or it passes a gap. -/
def Round (lexer : BootstrapLexer) (source : Text) (before rest : List Char)
    (result : Option BootstrapLexer) : Prop :=
  ∃ next part after, result = some next ∧ rest = part ++ after ∧ part ≠ [] ∧
    (lexer.Adds next source before part after ∨
      lexer.Passes next source before part after ∧ (next.Running → IsGap after part))

theorem eq_of_code {d : Char} (h : (c.toNat : Int) = d.toNat) : c = d :=
  toNat_injective (Int.ofNat_inj.mp h)

theorem isLineEnd_of_code (h : (c.toNat : Int) = 13 ∨ (c.toNat : Int) = 10) : IsLineEnd c := by
  rcases h with hreturn | hfeed
  · exact .inl (eq_of_code hreturn)
  · exact .inr (eq_of_code hfeed)

theorem recognizeKeyword_ne (text : Text) :
    TokenKind.recognizeKeyword text ≠ .EndOfFile ∧ TokenKind.recognizeKeyword text ≠ .NewLine := by
  have hall : ∀ kind ∈ TokenKind.keywords, kind ≠ .EndOfFile ∧ kind ≠ .NewLine := by decide
  unfold TokenKind.recognizeKeyword
  cases hfind : TokenKind.keywords.find? fun kind => Text.ofString kind.fixedText = text with
  | none => exact ⟨by decide, by decide⟩
  | some kind => exact hall kind (mem_of_find?_eq_some hfind)

theorem codePointAt_congr {l lexer' : BootstrapLexer} (h : l.source = lexer'.source)
    (pos : Nat) : l.codePointAt pos = lexer'.codePointAt pos := by
  unfold BootstrapLexer.codePointAt BootstrapLexer.byteAt BootstrapLexer.byteLength
  rw [h]

section Branches

variable (h : l.Stands src pre (c :: after))

include h

theorem Stands.byteAt_next (hc : c.toNat < 128) : (l.bytePosition + 1 < l.byteLength ↔ after ≠ []) ∧
      ∀ d rest, after = d :: rest → ∃ b : Int, l.byteAt (l.bytePosition + 1) = some b ∧
        (b < 128 → b = d.toNat) := by
  obtain ⟨moved, hmoved, hpasses⟩ := h.advanceScalar
  have hposition := hpasses.bytePosition_ascii h hc
  refine ⟨?_, ?_⟩
  · have hiff := hpasses.stands.available_iff
    rw [hpasses.stands.byteLength] at hiff
    have hmovedLength := hpasses.stands.byteLength
    rw [BootstrapLexer.byteLength, hpasses.stands.reads, ← h.reads] at hmovedLength
    rw [BootstrapLexer.byteLength, hmovedLength, hposition]
    rwa [hposition] at hiff
  · rintro d rest rfl
    obtain ⟨first, hfirst, -, hcases⟩ := hpasses.stands.byteAt
    rw [hposition, BootstrapLexer.byteAt, hpasses.stands.reads, ← h.reads] at hfirst
    exact ⟨first.toNat, hfirst, fun hlow => by omega⟩

theorem Stands.atLinePair (hc : c.toNat < 128) : ∃ paired, l.atLinePair c.toNat = some paired ∧
      (paired = true → c = '\r' ∧ ∃ rest, after = '\n' :: rest) := by
  obtain ⟨havailable, hnext⟩ := h.byteAt_next hc
  unfold BootstrapLexer.atLinePair
  by_cases hpair : (c.toNat : Int) = 13 ∧ l.bytePosition + 1 < l.byteLength
  · rw [if_pos (by simpa using hpair)]
    obtain ⟨d, after, rfl⟩ := exists_cons_of_ne_nil (havailable.mp hpair.2)
    obtain ⟨b, hb, hlow⟩ := hnext d after rfl
    refine ⟨b == 10, by rw [hb]; rfl, fun hten => ?_⟩
    rw [beq_iff_eq] at hten
    refine ⟨eq_of_code hpair.1, after, ?_⟩
    rw [eq_of_code (d := '\n') ((hlow (by omega)).symm.trans hten)]
  · rw [if_neg (by simpa using hpair)]
    exact ⟨false, rfl, fun hfalse => absurd hfalse Bool.false_ne_true⟩

theorem Stands.lexNewLine (hc : IsLineEnd c) : l.Round src pre (c :: after)
      (l.lexNewLine l.bytePosition l.utf16Position c.toNat) := by
  have hascii : c.toNat < 128 := by
    rcases hc with rfl | rfl <;> decide
  obtain ⟨paired, hpaired, hfeed⟩ := h.atLinePair hascii
  unfold BootstrapLexer.lexNewLine
  rw [hpaired]
  cases paired with
  | false =>
    have hone : [c] ∈ [['\n'], ['\r'], ['\r', '\n']] := by
      rcases hc with rfl | rfl <;> simp
    obtain ⟨moved, hmoved, hpasses⟩ := h.advanceScalar
    obtain ⟨final, hfinal, hadds⟩ := hpasses.addNewLine h hone ""
    refine ⟨final, [c], after, ?_, rfl, by simp, .inl hadds⟩
    simp only [bind_eq_bind, bind_some, Bool.false_eq_true, if_false, hmoved]
    exact hfinal
  | true =>
    obtain ⟨rfl, rest, rfl⟩ := hfeed rfl
    have hboth : l.Passes
        { l with
          bytePosition := l.bytePosition + 2
          utf16Position := l.utf16Position + 2 }
        src pre ['\r', '\n'] rest := by
      have hsplits : src.SplitsAt l.bytePosition pre (['\r', '\n'] ++ rest) := h.splits
      refine ⟨⟨h.reads, hsplits.append, ?_⟩, rfl, .of_control_eq rfl⟩
      show l.utf16Position + 2 = _
      rw [h.units, utf16_append, length_append]
      rfl
    obtain ⟨final, hfinal, hadds⟩ := hboth.addNewLine h (by simp) ""
    exact ⟨final, ['\r', '\n'], rest, hfinal, rfl, by simp, .inl hadds⟩

/-- A scalar and the scalars behind it that a loop accepts. -/
theorem Stands.advanceThenWhile {accepts : Char → Bool}
    (htest : ∀ l pre c after, Stands l src pre (c :: after) → test l = some (accepts c)) :
    ∃ moved next part rest, l.advanceScalar = some moved ∧
      BootstrapLexer.advanceWhile test moved.rounds moved = some next ∧ after = part ++ rest ∧
      l.Passes next src pre (c :: part) rest ∧ (∀ c ∈ part, accepts c = true) ∧
      (next.Running → ∀ c ∈ rest.head?, accepts c = false) := by
  obtain ⟨moved, hmoved, hpasses⟩ := h.advanceScalar
  obtain ⟨next, part, rest, hnext, rfl, hpart, haccepted, hstop⟩ :=
    hpasses.stands.advanceWhile htest hpasses.stands.lt_rounds
  exact ⟨moved, next, part, rest, hmoved, hnext, rfl, hpasses.trans hpart, haccepted, hstop⟩

theorem Stands.lexWord : l.Round src pre (c :: after)
      (l.lexWord l.bytePosition l.utf16Position) := by
  obtain ⟨moved, next, part, rest, hmoved, hnext, rfl, hpasses, -, -⟩ :=
    h.advanceThenWhile fun _ _ _ _ h => h.atIdentifierPart
  obtain ⟨hend, hline⟩ := recognizeKeyword_ne (Text.ofScalars (c :: part))
  unfold BootstrapLexer.lexWord
  simp only [bind_eq_bind, hmoved, hnext, bind_some, hpasses.textFrom h]
  exact ⟨_, c :: part, rest, rfl, rfl, by simp, .inl (hpasses.addText h hend hline _)⟩

/-- An escape is a backslash with an ASCII scalar behind it. -/
theorem Stands.atEscape :
    ∃ escaped, l.atEscape c.toNat = some escaped ∧ (escaped = true → after ≠ []) := by
  unfold BootstrapLexer.atEscape
  by_cases hslash : (c.toNat : Int) = 92 ∧ l.bytePosition + 1 < l.byteLength
  · rw [if_pos (by simpa using hslash)]
    obtain ⟨havailable, hnext⟩ := h.byteAt_next (by omega)
    have hne := havailable.mp hslash.2
    obtain ⟨d, rest, rfl⟩ := exists_cons_of_ne_nil hne
    obtain ⟨b, hb, -⟩ := hnext d rest rfl
    rw [hb]
    exact ⟨_, rfl, fun _ => hne⟩
  · rw [if_neg (by simpa using hslash)]
    exact ⟨false, rfl, fun hfalse => absurd hfalse Bool.false_ne_true⟩

/-- The bytes of the scalar that the lexer stands before are there to be copied. -/
theorem Stands.scalarBytes {first : UInt8}
    (hwidth : utf8Width first.toNat = (String.utf8EncodeChar c).length) :
    ∃ scalar, (range (utf8Width first.toNat)).mapM (fun offset =>
      l.source.byteAt (l.bytePosition + offset)) = some scalar := by
  refine ⟨(range _).map fun offset => l.source.bytes.getD (l.bytePosition + offset) 0,
    ExceptFold.mapM_eq_some_iff.mpr (forall₂_map_right_iff.mpr (forall₂_same.mpr ?_))⟩
  intro offset hoffset
  have hlen : l.bytePosition + offset < l.source.bytes.length := by
    have hbytes := h.byteLength
    rw [BootstrapLexer.byteLength, Text.byteLength, encode_cons, length_append] at hbytes
    rw [mem_range] at hoffset
    omega
  rw [Text.byteAt, getD_eq_getElem?_getD, getElem?_eq_getElem hlen, getD_some]

end Branches

theorem Stands.codePointAt_next {d : Char} (h : l.Stands src pre (c :: d :: after))
    (hc : c.toNat < 128) : l.codePointAt (l.bytePosition + 1) = some (d.toNat : Int) := by
  obtain ⟨moved, hmoved, hpasses⟩ := h.advanceScalar
  rw [← hpasses.bytePosition_ascii h hc, codePointAt_congr (h.reads.trans hpasses.stands.reads.symm)]
  exact hpasses.stands.codePointAt

theorem Stands.atFraction (h : l.Stands src pre after) :
    ∃ isFloat, l.atFraction = some isFloat ∧ (isFloat = true → after ≠ []) := by
  unfold BootstrapLexer.atFraction
  by_cases hmore : l.bytePosition + 1 < l.byteLength
  · rw [if_pos hmore]
    have hne := h.available_iff.mp (by omega)
    obtain ⟨c, after, rfl⟩ := exists_cons_of_ne_nil hne
    obtain ⟨b, hb, hiff⟩ := h.byteAt_eq_iff
    rw [hb, bind_some]
    by_cases hpoint : b = 46
    · rw [if_pos hpoint]
      have hc := (hiff 46 (by decide)).mp hpoint
      obtain ⟨d, after, rfl⟩ := exists_cons_of_ne_nil ((h.byteAt_next (by omega)).1.mp hmore)
      rw [h.codePointAt_next (by omega)]
      exact ⟨_, rfl, fun _ => hne⟩
    · rw [if_neg hpoint]
      exact ⟨false, rfl, fun _ => hne⟩
  · rw [if_neg hmore]
    exact ⟨false, rfl, fun hfalse => absurd hfalse Bool.false_ne_true⟩

/-- A number token of any kind, for the part of the source that was passed. -/
theorem Passes.addNumber (host : NumberHost) (h : l.Passes next src pre part after)
    (hstart : l.Stands src pre (part ++ after)) (hpart : part ≠ []) (isFloat : Bool) :
    l.Round src pre (part ++ after) (do
      let text ← next.textFrom l.bytePosition
      let length := next.utf16Position - l.utf16Position
      if isFloat then
        if host.parsesFloat text then
          some (next.addKnown .FloatLiteral l.utf16Position length text (Text.ofString "f:" ++ text))
        else some (next.addKnown .BadToken l.utf16Position length text "")
      else if host.parsesInt text then
        some (next.addKnown .IntLiteral l.utf16Position length text (Text.ofString "i:" ++ text))
      else some (next.addKnown .IntLiteral l.utf16Position length text "")) := by
  have hkind : ∀ {kind : TokenKind} {v : Text}, kind ≠ .EndOfFile → kind ≠ .NewLine →
      l.Round src pre (part ++ after) (some (next.addKnown kind l.utf16Position
        (next.utf16Position - l.utf16Position) (Text.ofScalars part) v)) := by
    intro kind v hend hline
    exact ⟨_, part, after, rfl, rfl, hpart, .inl (h.addText hstart hend hline v)⟩
  rw [h.textFrom hstart, bind_eq_bind, bind_some]
  split_ifs <;> exact hkind (by decide) (by decide)

/-! ### Strings -/

/-- The loop over a string passes a part of the source, whether the string is terminated or not. -/
theorem Stands.scanString (h : l.Stands src pre after)
    (hrounds : after.length < rounds) (bytes : List UInt8) : ∃ next bytes' terminated part rest,
      BootstrapLexer.scanString rounds l bytes = some (next, bytes', terminated) ∧
      after = part ++ rest ∧ l.Passes next src pre part rest := by
  induction rounds generalizing l pre after bytes with
  | zero => omega
  | succ rounds ih =>
    obtain ⟨hchecked, hinput, -⟩ := h.hasInput
    have hstands := hchecked.stands
    unfold BootstrapLexer.scanString
    dsimp only
    cases hmore : l.hasInput.1 with
    | false => exact ⟨_, bytes, false, [], after, rfl, rfl, hchecked⟩
    | true =>
      obtain ⟨c, after, rfl⟩ := exists_cons_of_ne_nil (hinput hmore)
      obtain ⟨moved, hmoved, hpasses⟩ := hstands.advanceScalar
      have hmovedFrom : l.Passes moved src pre [c] after := hchecked.trans hpasses
      rw [length_cons] at hrounds
      rw [hstands.codePointAt, bind_eq_bind, bind_some]
      by_cases hquote : (c.toNat : Int) = 34
      · rw [if_pos hquote, hmoved]
        exact ⟨_, bytes, true, [c], after, rfl, rfl, hmovedFrom.trans hmovedFrom.stands.hasInput.1⟩
      · rw [if_neg hquote]
        by_cases hline : ((c.toNat : Int) = 13 || (c.toNat : Int) = 10) = true
        · rw [if_pos hline]
          exact ⟨_, bytes, false, [], c :: after, rfl, rfl, hchecked⟩
        · rw [if_neg hline]
          obtain ⟨escaped, hescaped, hescape⟩ := hstands.atEscape
          simp only [bind_eq_bind, hescaped, bind_some]
          cases escaped with
          | true =>
            -- an escape is two scalars
            obtain ⟨d, after, rfl⟩ := exists_cons_of_ne_nil (hescape rfl)
            obtain ⟨b, hb, -⟩ := hmovedFrom.stands.byteAt_eq_iff
            obtain ⟨moved', hmoved', hpasses'⟩ := hmovedFrom.stands.advanceScalar
            have hboth : l.Passes moved' src pre [c, d] after := hmovedFrom.trans hpasses'
            rw [length_cons] at hrounds
            obtain ⟨next, bytes', terminated, part, rest, hnext, rfl, hpart⟩ :=
              ih hboth.stands (by omega) (bytes ++ [escapedByte b])
            refine ⟨next, bytes', terminated, c :: d :: part, rest, ?_, rfl, hboth.trans hpart⟩
            simp only [if_true, hmoved, hb, hmoved', bind_some]
            exact hnext
          | false =>
            obtain ⟨first, hfirst, hwidth, -⟩ := hstands.byteAt
            obtain ⟨scalar, hscalar⟩ := hstands.scalarBytes hwidth
            obtain ⟨next, bytes', terminated, part, rest, hnext, rfl, hpart⟩ :=
              ih hmovedFrom.stands (by omega) (bytes ++ scalar)
            refine ⟨next, bytes', terminated, c :: part, rest, ?_, rfl, hmovedFrom.trans hpart⟩
            simp only [Bool.false_eq_true, if_false, hfirst, bind_some, hscalar, hmoved]
            exact hnext

/-! ### Punctuation -/

/-- A kind and a width whose fixed text is what the one or two scalars are. -/
def Spells (result : TokenKind × Nat) (current next : Int) : Prop :=
  result.1 ≠ .EndOfFile ∧ result.1 ≠ .NewLine ∧ (result.2 = 1 ∧ (result.1.fixedText ≠ "" →
        result.1.fixedText.toList.map (fun c => (c.toNat : Int)) = [current]) ∨
      result.2 = 2 ∧ result.1.fixedText.toList.map (fun c => (c.toNat : Int)) = [current, next] ∧
        current < 128 ∧ 0 < next ∧ next < 128)

theorem spells_punctuation (cur next : Int) : Spells (punctuation cur next) cur next := by
  have hone : ∀ {kind : TokenKind} {code : Int}, kind ≠ .EndOfFile → kind ≠ .NewLine →
      kind.fixedText.toList.map (fun c => (c.toNat : Int)) = [code] → cur = code →
      Spells (kind, 1) cur next := by
    rintro kind code hend hline htext rfl
    exact ⟨hend, hline, .inl ⟨rfl, fun _ => htext⟩⟩
  have htwo : ∀ {kind : TokenKind} {code code' : Int}, kind ≠ .EndOfFile → kind ≠ .NewLine →
      kind.fixedText.toList.map (fun c => (c.toNat : Int)) = [code, code'] →
      code < 128 ∧ 0 < code' ∧ code' < 128 → cur = code ∧ next = code' →
      Spells (kind, 2) cur next := by
    rintro kind code code' hend hline htext hcodes ⟨rfl, rfl⟩
    exact ⟨hend, hline, .inr ⟨rfl, htext, hcodes⟩⟩
  have hbad : Spells (.BadToken, 1) cur next :=
    ⟨by decide, by decide, .inl ⟨rfl, fun hne => absurd rfl hne⟩⟩
  have hite : ∀ {test : Prop} [Decidable test] {res other : TokenKind × Nat},
      (test → Spells res cur next) → Spells other cur next →
      Spells (if test then res else other) cur next := by
    intro test _ res other hresult hother
    split
    · exact hresult ‹_›
    · exact hother
  -- eight kinds of two scalars, and then those of one
  iterate 8 refine hite (htwo (by decide) (by decide) (by decide) (by decide)) ?_
  iterate 19 refine hite (hone (by decide) (by decide) (by decide)) ?_
  exact hbad

theorem toList_eq {text : String} {chars : List Char}
    (h : text.toList.map (fun c => (c.toNat : Int)) = chars.map fun c => (c.toNat : Int)) :
    text.toList = chars :=
  (map_injective_iff.mpr fun _ _ heq => eq_of_code heq) h

section Rounds

variable (h : l.Stands src pre (c :: after))

include h

theorem Stands.lexNumber (host : NumberHost) : l.Round src pre (c :: after)
      (l.lexNumber host l.bytePosition l.utf16Position) := by
  obtain ⟨moved, whole, part, rest, hmoved, hwhole, rfl, hpasses, -, -⟩ :=
    h.advanceThenWhile fun _ _ _ _ h => h.atDigit
  obtain ⟨isFloat, hfraction, hrest⟩ := hpasses.stands.atFraction
  unfold BootstrapLexer.lexNumber
  simp only [bind_eq_bind, hmoved, hwhole, bind_some, hfraction]
  cases isFloat with
  | false => exact hpasses.addNumber host h (by simp) false
  | true =>
    obtain ⟨d, rest, rfl⟩ := exists_cons_of_ne_nil (hrest rfl)
    obtain ⟨moved', next, part', rest', hmoved', hnext, rfl, hpasses', -, -⟩ :=
      hpasses.stands.advanceThenWhile fun _ _ _ _ h => h.atDigit
    simp only [if_true, hmoved', bind_some, hnext]
    have hall : l.Passes next src pre (c :: part ++ d :: part') rest' := hpasses.trans hpasses'
    have hadds := hall.addNumber host (by simpa using h) (by simp) true
    simpa using hadds

theorem Stands.lexString : l.Round src pre (c :: after)
      (l.lexString l.bytePosition l.utf16Position) := by
  obtain ⟨moved, hmoved, hpasses⟩ := h.advanceScalar
  obtain ⟨next, bytes, terminated, part, rest, hnext, rfl, hpart⟩ :=
    hpasses.stands.scanString hpasses.stands.lt_rounds []
  have hall : l.Passes next src pre (c :: part) rest := hpasses.trans hpart
  have hadds : ∀ {kind : TokenKind} (v : Text), kind = .StringLiteral ∨ kind = .BadToken →
      l.Round src pre (c :: (part ++ rest))
        (next.add kind l.bytePosition l.utf16Position v) := by
    intro kind v hkind
    have hplain : kind ≠ .EndOfFile ∧ kind ≠ .NewLine ∧ kind.fixedText = "" := by
      rcases hkind with rfl | rfl <;> decide
    obtain ⟨hend, hline, hempty⟩ := hplain
    obtain ⟨final, hfinal, hadded⟩ := hall.add h hend hline (fun hne => absurd hempty hne) v
    exact ⟨final, c :: part, rest, hfinal, rfl, by simp, .inl hadded⟩
  unfold BootstrapLexer.lexString
  simp only [bind_eq_bind, hmoved, hnext, bind_some]
  cases terminated with
  | false => exact hadds _ (.inr rfl)
  | true =>
    rw [if_pos rfl]
    split
    · exact hadds _ (.inl rfl)
    · exact hadds _ (.inr rfl)

/-- The byte behind an ASCII scalar, if it is another ASCII scalar. -/
theorem Stands.nextByte : ∃ next, l.nextByte = some next ∧ (c.toNat < 128 → 0 < next → next < 128 →
      ∃ d rest, after = d :: rest ∧ (d.toNat : Int) = next) := by
  unfold BootstrapLexer.nextByte
  by_cases hmore : l.bytePosition + 1 < l.byteLength
  · rw [if_pos hmore, BootstrapLexer.byteAt, Text.byteAt, getElem?_eq_getElem hmore]
    refine ⟨_, rfl, fun hascii _ hlow => ?_⟩
    obtain ⟨havailable, hnext⟩ := h.byteAt_next hascii
    obtain ⟨d, rest, rfl⟩ := exists_cons_of_ne_nil (havailable.mp hmore)
    obtain ⟨b, hb, heq⟩ := hnext d rest rfl
    rw [BootstrapLexer.byteAt, Text.byteAt, getElem?_eq_getElem hmore] at hb
    cases hb
    exact ⟨d, rest, rfl, (heq hlow).symm⟩
  · rw [if_neg hmore]
    exact ⟨0, rfl, fun _ hpos => absurd hpos (lt_irrefl 0)⟩

theorem Stands.lexPunctuation : l.Round src pre (c :: after)
      (l.lexPunctuation l.bytePosition l.utf16Position c.toNat) := by
  obtain ⟨next, hnext, hbehind⟩ := h.nextByte
  obtain ⟨hend, hline, hspelled⟩ := spells_punctuation c.toNat next
  obtain ⟨moved, hmoved, hpasses⟩ := h.advanceScalar
  unfold BootstrapLexer.lexPunctuation
  rw [hnext, bind_eq_bind, bind_some]
  generalize punctuation c.toNat next = res at hend hline hspelled
  obtain ⟨kind, width⟩ := res
  rcases hspelled with ⟨rfl, htext⟩ | ⟨rfl, htext, hcurrent, hpos, hlow⟩
  · obtain ⟨final, hfinal, hadds⟩ := hpasses.add h hend hline
      (fun hne => toList_eq (htext hne)) ""
    refine ⟨final, [c], after, ?_, rfl, by simp, .inl hadds⟩
    simp only [advanceScalars, hmoved, bind_some]
    exact hfinal
  · obtain ⟨d, rest, rfl, hd⟩ := hbehind (by omega) hpos hlow
    obtain ⟨moved', hmoved', hpasses'⟩ := hpasses.stands.advanceScalar
    have hboth : l.Passes moved' src pre [c, d] rest := hpasses.trans hpasses'
    obtain ⟨final, hfinal, hadds⟩ := hboth.add h hend hline
      (fun _ => toList_eq (by rw [htext, ← hd]; rfl)) ""
    refine ⟨final, [c, d], rest, ?_, rfl, by simp, .inl hadds⟩
    simp only [advanceScalars, hmoved, hmoved', bind_some]
    exact hfinal

theorem Stands.lexRound (host : NumberHost) : l.Round src pre (c :: after) (l.lexRound host) := by
  unfold BootstrapLexer.lexRound
  rw [h.codePointAt, bind_eq_bind, bind_some]
  by_cases hline : (c.toNat : Int) = 13 ∨ (c.toNat : Int) = 10
  · rw [if_pos (by simpa using hline)]
    exact h.lexNewLine (isLineEnd_of_code hline)
  rw [if_neg (by simpa using hline)]
  have hisBlank : ∀ {d : Char}, (d.toNat : Int) = 32 ∨ (d.toNat : Int) = 9 → d = ' ' ∨ d = '\t' := by
    rintro d (hspace | htab)
    · exact .inl (eq_of_code hspace)
    · exact .inr (eq_of_code htab)
  by_cases hblank : (c.toNat : Int) = 32 ∨ (c.toNat : Int) = 9
  · rw [if_pos (by simpa using hblank)]
    obtain ⟨moved, next, part, rest, hmoved, hnext, rfl, hpasses, hblanks, -⟩ :=
      h.advanceThenWhile fun _ _ _ _ h => h.atBlank
    rw [hmoved]
    refine ⟨next, c :: part, rest, hnext, rfl, by simp, .inr ⟨hpasses, fun _ => isGap_of_blanks ?_⟩⟩
    refine forall_mem_cons.mpr ⟨hisBlank hblank, fun d hd => hisBlank ?_⟩
    simpa using hblanks d hd
  rw [if_neg (by simpa using hblank)]
  by_cases hcomment : (c.toNat : Int) = 35
  · obtain rfl : c = '#' := eq_of_code hcomment
    obtain ⟨moved, next, part, rest, hmoved, hnext, rfl, hpasses, hbody, hstop⟩ :=
      h.advanceThenWhile fun _ _ _ _ h => h.atNoLineEnd
    rw [hmoved]
    refine ⟨next, '#' :: part, rest, hnext, rfl, by simp, .inr ⟨hpasses, fun hrunning => ?_⟩⟩
    refine .comment (fun d hd hend => ?_) (fun d hd => ?_)
    · have hplain := hbody d hd
      rcases hend with rfl | rfl <;> cases hplain
    · have hend := hstop hrunning d hd
      simp only [Bool.and_eq_false_iff, bne_eq_false_iff_eq] at hend
      exact isLineEnd_of_code hend
  split_ifs
  · exact h.lexWord
  · exact h.lexNumber host
  · exact h.lexString
  · exact h.lexPunctuation

end Rounds

/-! ## Whole runs -/

/-- The tokens cover the source up to a gap that the lexer is in. When the analysis was cancelled
nothing is said. -/
def Tiles (lexer : BootstrapLexer) (source : Text) (before after : List Char) : Prop :=
  lexer.Running → ∃ covered gap, before = covered ++ gap ∧
    Covers source.scalars lexer.tokens covered ∧ IsGap after gap

theorem Stands.scalars (h : l.Stands src pre after) : src.scalars = pre ++ after := by
  rw [Text.scalars, h.splits.bytes, ← encode_append, decode_encode]

theorem Tiles.adds (h : l.Tiles src pre (part ++ after))
    (hstart : l.Stands src pre (part ++ after)) (hpart : part ≠ [])
    (hadds : l.Adds next src pre part after) : next.Tiles src (pre ++ part) after := by
  intro hrunning
  obtain ⟨covered, gap, rfl, hcovers, hgap⟩ := h (hadds.asks.running hrunning)
  obtain ⟨token, htokens, htoken, hlen, hrecords⟩ := hadds.tokens
  refine ⟨covered ++ gap ++ part, [], by rw [append_nil], ?_, .nil⟩
  rw [htokens]
  exact hcovers.token (by rw [hstart.scalars, ← append_assoc]) hgap htoken hlen hpart hrecords

theorem Tiles.passes (h : l.Tiles src pre (part ++ after))
    (hpasses : l.Passes next src pre part after)
    (hpart : next.Running → IsGap after part) : next.Tiles src (pre ++ part) after := by
  intro hrunning
  obtain ⟨covered, gap, rfl, hcovers, hgap⟩ := h (hpasses.asks.running hrunning)
  refine ⟨covered, gap ++ part, append_assoc _ _ _, ?_, hgap.append (hpart hrunning)⟩
  rw [hpasses.tokens]
  exact hcovers

/-- The loop ends, and without a cancellation it ends at the end of the source. -/
theorem Stands.lexLoop (host : NumberHost) (h : l.Stands src pre after)
    (htiles : l.Tiles src pre after) (hrounds : after.length < rounds) :
    ∃ next before' after', BootstrapLexer.lexLoop host rounds l = some next ∧ Asks l next ∧
      next.Stands src before' after' ∧ next.Tiles src before' after' ∧
      (next.Running → after' = []) := by
  induction rounds generalizing l pre after with
  | zero => omega
  | succ rounds ih =>
    obtain ⟨hpasses, hinput, hrunning⟩ := h.hasInput
    have hstands := hpasses.stands
    have hchecked : l.hasInput.2.Tiles src (pre ++ []) after :=
      .passes (by exact htiles) hpasses fun _ => .nil
    unfold BootstrapLexer.lexLoop
    dsimp only
    cases hmore : l.hasInput.1 with
    | false =>
      refine ⟨_, _, after, rfl, hpasses.asks, hstands, hchecked, fun hrun => ?_⟩
      by_contra hne
      rw [hrunning hrun hne] at hmore
      cases hmore
    | true =>
      obtain ⟨c, after, rfl⟩ := exists_cons_of_ne_nil (hinput hmore)
      obtain ⟨next, part, rest, hround, hsrc, hpart, hdone⟩ := hstands.lexRound host
      rw [hround]
      rw [hsrc] at hstands hchecked hrounds
      have hlen : rest.length < rounds := by
        have := length_pos_iff.mpr hpart
        rw [length_append] at hrounds
        omega
      have hround : Asks l next ∧ ∃ pre', next.Stands src pre' rest ∧ next.Tiles src pre' rest := by
        rcases hdone with hadds | ⟨hgapped, hgap⟩
        · exact ⟨hpasses.asks.trans hadds.asks, _, hadds.stands, hchecked.adds hstands hpart hadds⟩
        · exact ⟨hpasses.asks.trans hgapped.asks, _, hgapped.stands, hchecked.passes hgapped hgap⟩
      obtain ⟨hasks, pre', hnext, htiled⟩ := hround
      obtain ⟨final, before', after', hloop, hrest, hfinal⟩ := ih hnext htiled hlen
      exact ⟨final, before', after', hloop, hasks.trans hrest, hfinal⟩

/-- `lex` ends for every source text, and unless the analysis is cancelled, which only its control and
the callback of that can do, its tokens tile the text. -/
theorem lex_isTiling (host : NumberHost) (control : Option AnalysisControl) (source : Text) :
    ∃ final, lex host { control, source } = some final ∧
      (final.Running → IsTiling source.scalars final.tokens) ∧
      (({ control, source } : BootstrapLexer).Uncancelled → final.Running) := by
  have hstart : Stands { control, source } source [] source.scalars :=
    ⟨rfl, source.splitsAt_zero, rfl⟩
  have htiles : Tiles { control, source } source [] source.scalars :=
    fun _ => ⟨[], [], rfl, .nil, .nil⟩
  obtain ⟨next, pre, after, hloop, hasks, hstands, hdone, hend⟩ :=
    hstart.lexLoop host htiles hstart.lt_rounds
  rw [lex, hloop]
  refine ⟨_, rfl, fun hrunning => ?_, fun hgo control hcontrol =>
    (hasks.uncancelled hgo control hcontrol).1⟩
  obtain rfl := hend hrunning
  obtain ⟨covered, gap, rfl, hcovers, hgap⟩ := hdone hrunning
  have hscalars := hstands.scalars
  rw [append_nil] at hscalars
  refine hcovers.isTiling hscalars hgap rfl ?_ rfl rfl
  show next.utf16Position = _
  rw [hstands.units, hscalars]

/-- A callback that always consents. -/
theorem lex_isTiling_sum : ∃ final, lex ⟨fun _ => true, fun _ => true⟩
      { control := some { callback := some fun _ => true, remaining := 2 }
        source := Text.ofScalars ['a', ' ', '+', '#', '\n'] } = some final ∧
    IsTiling ['a', ' ', '+', '#', '\n'] final.tokens := by
  obtain ⟨final, hlex, htiling, hrunning⟩ := lex_isTiling ⟨fun _ => true, fun _ => true⟩
    (some { callback := some fun _ => true, remaining := 2 })
    (Text.ofScalars ['a', ' ', '+', '#', '\n'])
  refine ⟨final, hlex, htiling (hrunning fun control hcontrol => ?_)⟩
  cases hcontrol
  refine ⟨rfl, fun callback hcallback call => ?_⟩
  cases hcallback
  rfl

/-- A carriage return with a line feed is one token, and its text is a line feed. -/
theorem lex_linePair : ∃ final token rest, lex ⟨fun _ => true, fun _ => true⟩
      { source := Text.ofScalars ['\r', '\n'] } = some final ∧ final.tokens = token :: rest ∧
    token.start = 0 ∧ token.length = 2 ∧
    ((utf16 ['\r', '\n']).drop token.start).take token.length ≠ utf16 token.text.scalars := by
  have hlex : (lex ⟨fun _ => true, fun _ => true⟩
      { source := Text.ofScalars ['\r', '\n'] }).map (·.tokens) =
        some [⟨.NewLine, 0, 2, Text.ofScalars ['\n'], ""⟩, ⟨.EndOfFile, 2, 0, "", ""⟩] := by
    decide +kernel
  obtain ⟨final, hfinal, htokens⟩ := map_eq_some_iff.mp hlex
  refine ⟨final, _, _, hfinal, htokens, rfl, rfl, ?_⟩
  decide

end BootstrapLexer

end Neri.Frontend
