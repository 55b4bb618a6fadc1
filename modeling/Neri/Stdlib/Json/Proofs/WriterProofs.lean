import Neri.Stdlib.Json.Proofs.ContainerProofs
import Neri.Stdlib.Json.Writer

/-!
# What the writer writes

Where no problem is recorded, everything that was appended is in the output. A string is written as a
string of the grammar: its chunks stand between the characters that need an escape.
-/

namespace Neri.Stdlib.Json

open Utf8 List

namespace Writer

/-- The writer has gone on without a problem, and has written a text and counted values. -/
structure Wrote (writer next : Writer) (text : List Char) (nodes : Nat) : Prop where
  problem : next.problem = none
  nodeLimit : next.nodeLimit = writer.nodeLimit
  nodes : next.nodes = writer.nodes + nodes
  output : ∃ old new, writer.output = some old ∧ next.output = some new ∧
    new.snapshot = old.snapshot ++ encode text ∧ new.maximum = old.maximum

variable {w next last : Writer} {text text' : List Char} {nodes nodes' : Nat}

theorem Wrote.trans (h : Wrote w next text nodes) (h' : Wrote next last text' nodes') :
    Wrote w last (text ++ text') (nodes + nodes') := by
  obtain ⟨old, middle, hold, hmiddle, hsnapshot, hmaximum⟩ := h.output
  obtain ⟨middle', new, hmiddle', hnew, hsnapshot', hmaximum'⟩ := h'.output
  obtain rfl := Option.some.inj (hmiddle.symm.trans hmiddle')
  refine ⟨h'.problem, h'.nodeLimit.trans h.nodeLimit, ?_, old, new, hold, hnew, ?_, ?_⟩
  · rw [h'.nodes, h.nodes]
    omega
  · rw [hsnapshot', hsnapshot, encode_append, append_assoc]
  · exact hmaximum'.trans hmaximum

theorem Wrote.nothing (h : Wrote w next text nodes) : Wrote next next [] 0 := by
  obtain ⟨_, new, _, hnew, _, _⟩ := h.output
  exact ⟨h.problem, rfl, (Int.add_zero _).symm, new, new, hnew, hnew, (append_nil _).symm, rfl⟩

theorem Wrote.limit (h : Wrote w next text 0) (hlimit : w.nodes ≤ w.nodeLimit) :
    next.nodes ≤ next.nodeLimit := by
  rw [h.nodes, h.nodeLimit]
  simpa using hlimit

theorem append_of_problem (value : Text) (h : w.problem ≠ none) : w.append value = w := by
  rw [append, if_pos h]

theorem wrote_append {value : Text} (hok : (w.append value).problem = none) :
    w.problem = none ∧ Wrote w (w.append value) value.scalars 0 := by
  by_cases hproblem : w.problem = none
  · refine ⟨hproblem, ?_⟩
    unfold append at hok ⊢
    rw [if_neg (not_not.mpr hproblem)] at hok ⊢
    cases houtput : w.output with
    | none =>
      rw [houtput] at hok
      cases hok
    | some old =>
      rw [houtput, Option.bind_some] at hok
      rw [Option.bind_some]
      cases hstore : old.appendText value with
      | none =>
        rw [hstore] at hok
        cases hok
      | some new =>
        obtain ⟨hsnapshot, hmaximum⟩ := ByteBuffer.store_eq_some hstore
        refine ⟨hproblem, rfl, (Int.add_zero _).symm, old, new, houtput, rfl, ?_, hmaximum⟩
        rw [hsnapshot, value.encode_scalars]
  · rw [append_of_problem value hproblem] at hok
    exact absurd hok hproblem

theorem wrote_append_ofScalars (hok : (w.append (Text.ofScalars text)).problem = none) :
    w.problem = none ∧ Wrote w (w.append (Text.ofScalars text)) text 0 := by
  have h := wrote_append hok
  rwa [Text.scalars_ofScalars] at h

/-! ## Escapes -/

def hexChar (value : Nat) : Char :=
  ['0', '1', '2', '3', '4', '5', '6', '7', '8', '9', 'a', 'b', 'c', 'd', 'e', 'f'].getD value '0'

def escaped (c : Char) : List Char :=
  if c = '"' then ['\\', '"']
  else if c = '\\' then ['\\', '\\']
  else if c.toNat < 32 then ['\\', 'u', '0', '0', hexChar (c.toNat / 16), hexChar (c.toNat % 16)]
  else [c]

theorem hexValue?_hexChar : ∀ value < 16, hexValue? (hexChar value) = some value := by decide

theorem sliceBytes_hexDigits : ∀ value < 16,
    hexDigits.sliceBytes value 1 = some (Text.ofScalars [hexChar value]) := by decide +kernel

theorem isCharacter_escaped (c : Char) : IsCharacter (escaped c) c := by
  unfold escaped
  split
  · rename_i hquote
    rw [hquote]
    exact .simple rfl
  · rename_i hquote
    split
    · rename_i hbackslash
      rw [hbackslash]
      exact .simple rfl
    · rename_i hbackslash
      split
      · rename_i hcontrol
        refine .unicode ⟨'0', '0', hexChar (c.toNat / 16), hexChar (c.toNat % 16), 0, 0, c.toNat / 16,
          c.toNat % 16, rfl, rfl, rfl, ?_, ?_, by omega⟩
        · exact hexValue?_hexChar _ (by omega)
        · exact hexValue?_hexChar _ (by omega)
      · rename_i hcontrol
        exact .unescaped hquote hbackslash (by omega)

theorem isCharacters_escaped (chars : List Char) : IsCharacters (chars.flatMap escaped) chars := by
  induction chars with
  | nil => exact .nil
  | cons c chars ih =>
    exact .cons (isCharacter_escaped c) ih

def NeedsEscape (c : Char) : Prop := c = '"' ∨ c = '\\' ∨ c.toNat < 32

instance : DecidablePred NeedsEscape := fun c =>
  inferInstanceAs (Decidable (c = '"' ∨ c = '\\' ∨ c.toNat < 32))

variable {c : Char}

theorem NeedsEscape.toNat_lt (h : NeedsEscape c) : c.toNat < 128 := by
  rcases h with rfl | rfl | h
  · decide
  · decide
  · omega

theorem escaped_of_plain (h : ¬ NeedsEscape c) : escaped c = [c] := by
  unfold NeedsEscape at h
  rw [not_or, not_or] at h
  rw [escaped, if_neg h.1, if_neg h.2.1, if_neg h.2.2]

/-- The test of bytes is a test of characters. -/
theorem isEscaped_ascii (hc : c.toNat < 128) :
    isEscaped (UInt8.ofNat c.toNat) = decide (NeedsEscape c) := by
  refine forall_ascii (fun c => isEscaped (UInt8.ofNat c.toNat) = decide (NeedsEscape c)) ?_ hc
  decide

theorem isEscaped_of_plain (h : ¬ NeedsEscape c) {b : UInt8}
    (hbyte : b ∈ String.utf8EncodeChar c) : isEscaped b = false := by
  by_cases hascii : c.toNat < 128
  · rw [utf8EncodeChar_ascii hascii, mem_singleton] at hbyte
    rw [hbyte, isEscaped_ascii hascii]
    exact decide_eq_false h
  · have hhigh := le_of_mem_utf8EncodeChar (by omega) hbyte
    simp only [isEscaped, Bool.or_eq_false_iff, decide_eq_false_iff_not]
    refine ⟨⟨by omega, ?_⟩, ?_⟩
    · rintro rfl
      exact absurd hhigh (by decide)
    · rintro rfl
      exact absurd hhigh (by decide)

theorem wrote_escape (hc : NeedsEscape c)
    (hok : (w.escape (UInt8.ofNat c.toNat)).problem = none) :
    w.problem = none ∧ Wrote w (w.escape (UInt8.ofNat c.toNat)) (escaped c) 0 := by
  by_cases hquote : c = '"'
  · subst hquote
    exact wrote_append_ofScalars hok
  by_cases hbackslash : c = '\\'
  · subst hbackslash
    exact wrote_append_ofScalars hok
  have hcontrol : c.toNat < 32 := by
    rcases hc with h | h | h
    · exact absurd h hquote
    · exact absurd h hbackslash
    · exact h
  have hvalue : (UInt8.ofNat c.toNat).toNat = c.toNat := toNat_ofNat_ascii (by omega)
  have hne : ∀ b : UInt8, 32 ≤ b.toNat → UInt8.ofNat c.toNat ≠ b := by
    rintro b hbyte rfl
    omega
  have hlow : c.toNat - c.toNat / 16 * 16 = c.toNat % 16 := by omega
  have hescape : w.escape (UInt8.ofNat c.toNat) =
      ((w.append "\\u00").append (Text.ofScalars [hexChar (c.toNat / 16)])).append
        (Text.ofScalars [hexChar (c.toNat % 16)]) := by
    unfold escape
    rw [if_neg (hne 34 (by decide)), if_neg (hne 92 (by decide))]
    dsimp only
    rw [hvalue, hlow, sliceBytes_hexDigits _ (by omega), sliceBytes_hexDigits _ (by omega)]
  rw [hescape] at hok ⊢
  obtain ⟨hok, hthird⟩ := wrote_append_ofScalars hok
  obtain ⟨hok, hsecond⟩ := wrote_append_ofScalars hok
  obtain ⟨hok, hfirst⟩ := wrote_append_ofScalars hok
  refine ⟨hok, ?_⟩
  rw [escaped, if_neg hquote, if_neg hbackslash, if_pos hcontrol]
  exact (hfirst.trans hsecond).trans hthird

/-! ## The loop of `string` -/

variable {value : Text} {start i : Nat} {before pending rest : List Char}

theorem wrote_appendChunk (h : value.SplitsAt start before (pending ++ rest))
    (hindex : start + (encode pending).length = i)
    (hok : (w.appendChunk value start i).problem = none) :
    w.problem = none ∧ Wrote w (w.appendChunk value start i) pending 0 := by
  have hchunk : w.appendChunk value start i = w.append (Text.ofScalars pending) := by
    rw [← hindex, appendChunk, Nat.add_sub_cancel_left, h.sliceBytes]
  rw [hchunk] at hok ⊢
  exact wrote_append_ofScalars hok

theorem stringLoop_body {b : UInt8} (hat : value.byteAt i = some b)
    (hproblem : w.problem = none) : (stringLoop value).body (w, i, start) =
      .inl (if isEscaped b then ((w.appendChunk value start i).escape b, i + 1, i + 1)
      else (w, i + 1, start)) := by
  have hlt : i < value.byteLength := (List.getElem_of_getElem? hat).1
  show stringRound value (w, i, start) = _
  unfold stringRound
  dsimp only
  rw [if_pos ⟨hlt, hproblem⟩, hat]
  exact (apply_ite Sum.inl _ _ _).symm

/-- Bytes that need no escape are passed over. -/
theorem run_passes (bytes tail : List UInt8) (hproblem : w.problem = none)
    (hbytes : value.bytes.drop i = bytes ++ tail) (hplain : ∀ b ∈ bytes, isEscaped b = false) :
    (stringLoop value).run (w, i, start) = (stringLoop value).run (w, i + bytes.length, start) := by
  induction bytes generalizing i with
  | nil => rfl
  | cons b bytes ih =>
    obtain ⟨hbyte, hplain⟩ := forall_mem_cons.mp hplain
    have hat : value.byteAt i = some b := by
      rw [Text.byteAt, ← head?_drop, hbytes]
      rfl
    have hnext : value.bytes.drop (i + 1) = bytes ++ tail := by
      rw [← drop_drop, hbytes]
      rfl
    rw [BoundedLoop.run_of_inl (stringLoop_body hat hproblem), hbyte, if_neg Bool.false_ne_true,
      ih hnext hplain, length_cons, Nat.add_assoc, Nat.add_comm 1]

theorem run_of_problem (h : w.problem ≠ none) :
    (stringLoop value).run (w, i, start) = (w, i, start) := by
  refine BoundedLoop.run_of_inr ?_
  show stringRound value (w, i, start) = _
  unfold stringRound
  dsimp only
  rw [if_neg fun hguard => h hguard.2]

theorem appendChunk_of_problem (h : w.problem ≠ none) : w.appendChunk value start i = w := by
  unfold appendChunk
  split
  · exact append_of_problem _ h
  · rfl

/-- The loop and the last chunk write what is left of the string. -/
theorem wrote_stringLoop (h : value.SplitsAt start before (pending ++ rest))
    (hindex : start + (encode pending).length = i) (hpending : ∀ c ∈ pending, ¬ NeedsEscape c)
    (hok : (finishString value ((stringLoop value).run (w, i, start))).problem = none) :
    w.problem = none ∧ Wrote w (finishString value ((stringLoop value).run (w, i, start)))
      (pending ++ rest.flatMap escaped) 0 := by
  -- The induction is on what the loop has not looked at; a plain character joins the pending chunk.
  induction rest generalizing w start i before pending with
  | nil =>
    have hend : start + (encode pending).length = value.byteLength := by
      rw [h.byteLength, append_nil]
    have hround : (stringLoop value).body (w, i, start) = .inr (w, i, start) := by
      show stringRound value (w, i, start) = _
      unfold stringRound
      dsimp only
      rw [if_neg fun hguard => by omega]
    rw [BoundedLoop.run_of_inr hround] at hok ⊢
    rw [flatMap_nil, append_nil]
    exact wrote_appendChunk h hindex hok
  | cons c rest ih =>
    have hnext := h.append
    rw [hindex] at hnext
    have hcut : value.SplitsAt i (before ++ pending) ([c] ++ rest) := hnext
    by_cases hproblem : w.problem = none
    swap
    · rw [run_of_problem hproblem] at hok
      have hkept : (w.appendChunk value start i).problem = none := hok
      rw [appendChunk_of_problem hproblem] at hkept
      exact absurd hkept hproblem
    refine ⟨hproblem, ?_⟩
    by_cases hc : NeedsEscape c
    · have hascii := hc.toNat_lt
      have hat : value.byteAt i = some (UInt8.ofNat c.toNat) := by
        rw [hnext.byteAt, encode_cons_ascii hascii]
        rfl
      have hround : (stringLoop value).body (w, i, start) = _ := stringLoop_body hat hproblem
      rw [if_pos (by rw [isEscaped_ascii hascii]; exact decide_eq_true hc)] at hround
      have hsplit : value.SplitsAt (i + 1) (before ++ pending ++ [c]) ([] ++ rest) := by
        have hafter := hcut.append
        rwa [encode_cons_ascii hascii] at hafter
      rw [BoundedLoop.run_of_inl hround] at hok ⊢
      obtain ⟨hokEscape, hrest⟩ := ih hsplit rfl (by simp) hok
      obtain ⟨hokChunk, hescape⟩ := wrote_escape hc hokEscape
      obtain ⟨-, hchunk⟩ := wrote_appendChunk h hindex hokChunk
      have hwrote := (hchunk.trans hescape).trans hrest
      rw [append_assoc] at hwrote
      exact hwrote
    · have hdrop : value.bytes.drop i = String.utf8EncodeChar c ++ encode rest := by
        rw [hnext.drop, encode_cons]
      have hlength : start + (encode (pending ++ [c])).length =
          i + (String.utf8EncodeChar c).length := by
        rw [encode_append, encode_cons, encode_nil, append_nil, length_append, ← hindex,
          Nat.add_assoc]
      have hjoined : value.SplitsAt start before ((pending ++ [c]) ++ rest) := by
        rw [append_assoc]
        exact h
      have hplain : ∀ d ∈ pending ++ [c], ¬ NeedsEscape d := by
        rw [forall_mem_append]
        exact ⟨hpending, by simpa using hc⟩
      rw [run_passes _ _ hproblem hdrop fun b => isEscaped_of_plain hc] at hok ⊢
      have hwrote := (ih hjoined hlength hplain hok).2
      rw [append_assoc] at hwrote
      rw [flatMap_cons, escaped_of_plain hc]
      exact hwrote

theorem wrote_string (hok : (w.string value).problem = none) :
    ∃ text, IsString text value.scalars ∧ w.problem = none ∧ Wrote w (w.string value) text 0 := by
  obtain ⟨hokLoop, hclose⟩ := wrote_append_ofScalars hok
  have hstart : value.SplitsAt 0 [] ([] ++ value.scalars) := value.splitsAt_zero
  obtain ⟨hokOpen, hbody⟩ := wrote_stringLoop hstart rfl (by simp) hokLoop
  obtain ⟨hokStart, hopen⟩ := wrote_append_ofScalars hokOpen
  refine ⟨'"' :: value.scalars.flatMap escaped ++ ['"'], ?_, hokStart, ?_⟩
  · exact ⟨_, rfl, isCharacters_escaped value.scalars⟩
  · exact (hopen.trans hbody).trans hclose

/-! ## Values -/

def counted (writer : Writer) : Writer := { writer with nodes := writer.nodes + 1 }

theorem Wrote.counted (h : Wrote w.counted next text nodes) : Wrote w next text (nodes + 1) := by
  refine ⟨h.problem, h.nodeLimit, ?_, h.output⟩
  rw [h.nodes]
  show w.nodes + 1 + (nodes : Int) = w.nodes + ((nodes + 1 : Nat) : Int)
  omega

/-- A value of the heap is written as a value of the grammar that denotes the same. -/
structure Writes (heap : Heap) (levels : Nat) (ref : Ref) (writer next : Writer) (text : List Char)
    (tree : Tree) : Prop where
  isValue : IsValue text tree
  wrote : Wrote writer next text tree.nodes
  limit : next.nodes ≤ next.nodeLimit
  denotes : heap.DenotesFrom 0 levels ref tree
  distinctKeys : tree.DistinctKeys
  depth : tree.depth < levels

/-- What a writer of values has to do for a reference. -/
def WritesAt (heap : Heap) (levels : Nat) (child : Ref → Writer → Writer) (ref : Ref) : Prop :=
  ∀ {writer : Writer}, (child ref writer).problem = none → writer.problem = none ∧
    (writer.nodes ≤ writer.nodeLimit →
      ∃ text tree, Writes heap levels ref writer (child ref writer) text tree)

theorem isWhitespace_nil : IsWhitespace [] := by simp [IsWhitespace]

theorem isChild_item {item : Tree} (h : IsValue text item) : IsChild false text (none, item) := by
  have hchild := IsChild.item isWhitespace_nil h isWhitespace_nil
  rwa [append_nil] at hchild

theorem isChild_member {keyText key : List Char} {member : Tree} (hkey : IsString keyText key)
    (h : IsValue text member) : IsChild true (keyText ++ [':'] ++ text) (some key, member) := by
  have hchild := IsChild.member isWhitespace_nil hkey isWhitespace_nil isWhitespace_nil h
    isWhitespace_nil
  simpa using hchild

/-- The text between two children. -/
def comma (first : Bool) : List Char := if first then [] else [',']

variable {first : Bool}

theorem wrote_comma (hopen : Wrote w w [] 0)
    (hok : (if first then w else w.append ",").problem = none) :
    Wrote w (if first then w else w.append ",") (comma first) 0 := by
  cases first with
  | true => exact hopen
  | false => exact (wrote_append_ofScalars hok).2

/-- The comma and the key in front of a child are written, and make a child of a value. -/
theorem wrote_writeKey {object : Bool} {key : Option Text} (hopen : Wrote w w [] 0)
    (hkeyed : key.isSome = object) (hok : (writeKey object first key w).problem = none) :
    ∃ lead, Wrote w (writeKey object first key w) (comma first ++ lead) 0 ∧
      ∀ {text tree}, IsValue text tree →
        IsChild object (lead ++ text) (key.map Text.scalars, tree) := by
  cases object with
  | false =>
    have hnone : key = none := by simpa using hkeyed
    subst hnone
    have hcomma := wrote_comma hopen hok
    refine ⟨[], ?_, fun h => isChild_item h⟩
    rw [append_nil]
    exact hcomma
  | true =>
    obtain ⟨key, rfl⟩ := Option.isSome_iff_exists.mp hkeyed
    obtain ⟨hokString, hcolon⟩ := wrote_append_ofScalars hok
    obtain ⟨keyText, hkey, hokComma, hstring⟩ := wrote_string hokString
    refine ⟨keyText ++ [':'], ?_, fun h => isChild_member hkey h⟩
    have hwrote := ((wrote_comma hopen hokComma).trans hstring).trans hcolon
    rw [append_assoc] at hwrote
    exact hwrote

variable {heap : Heap} {levels : Nat} {child : Ref → Writer → Writer} {object : Bool}

/-- The entries of a container are written as a text, for children that denote the same. -/
structure WroteEntries (heap : Heap) (levels : Nat) (object : Bool) (entries : List Entry)
    (writer next : Writer) (text : List Char) (children : List Child) : Prop where
  wrote : Wrote writer next text (nodesOf children)
  limit : next.nodes ≤ next.nodeLimit
  holds : List.Forall₂ (Entry.Holds heap 0 levels object) entries children
  fits : ∀ child ∈ children, child.2.DistinctKeys ∧ child.2.depth < levels

/-- The entries of a container are written as children of the grammar. -/
theorem wrote_writeEntries {entries : List Entry} (hne : entries ≠ [])
    (hkeyed : ∀ e ∈ entries, e.key.isSome = object)
    (hchild : ∀ e ∈ entries, WritesAt heap levels child e.value)
    (hopen : Wrote w w [] 0) (hlimit : w.nodes ≤ w.nodeLimit)
    (hok : (writeEntries child object first entries w).problem = none) :
    ∃ text cs, IsChildren object text cs ∧ WroteEntries heap levels object entries w
      (writeEntries child object first entries w) (comma first ++ text) cs := by
  induction entries generalizing w first with
  | nil => exact absurd rfl hne
  | cons e entries ih =>
    obtain ⟨hentryKeyed, hrestKeyed⟩ := forall_mem_cons.mp hkeyed
    obtain ⟨hentryChild, hrestChild⟩ := forall_mem_cons.mp hchild
    rw [writeEntries, if_pos hopen.problem] at hok ⊢
    have hokChild : (child e.value (writeKey object first e.key w)).problem = none := by
      by_contra hproblem
      rw [if_neg hproblem] at hok
      exact hproblem hok
    rw [if_pos hokChild] at hok ⊢
    obtain ⟨hokKey, hwrites⟩ := hentryChild hokChild
    obtain ⟨lead, hkey, hisChild⟩ := wrote_writeKey hopen hentryKeyed hokKey
    obtain ⟨text, tree, hwrites⟩ := hwrites (hkey.limit hlimit)
    have hholds : Entry.Holds heap 0 levels object e (e.key.map Text.scalars, tree) := by
      refine ⟨?_, ?_, hwrites.denotes⟩
      · cases e.key with
        | none => rfl
        | some key => exact congrArg some key.ofScalars_scalars.symm
      · rw [Option.isSome_map]
        exact hentryKeyed
    have hfirst := hkey.trans hwrites.wrote
    rw [Nat.zero_add, append_assoc] at hfirst
    by_cases hlast : entries = []
    · subst hlast
      refine ⟨lead ++ text, [_], .last (hisChild hwrites.isValue), ?_, hwrites.limit,
        .cons hholds .nil, ?_⟩
      · exact hfirst
      · simpa using ⟨hwrites.distinctKeys, hwrites.depth⟩
    · obtain ⟨text', cs, hchildren, hrest⟩ :=
        ih hlast hrestKeyed hrestChild hwrites.wrote.nothing hwrites.limit hok
      refine ⟨lead ++ text ++ ',' :: text', _ :: cs, .more (hisChild hwrites.isValue) hchildren,
        ?_, hrest.limit, .cons hholds hrest.holds, ?_⟩
      · have hwrote := hfirst.trans hrest.wrote
        rw [append_assoc] at hwrote
        exact hwrote
      · exact forall_mem_cons.mpr ⟨⟨hwrites.distinctKeys, hwrites.depth⟩, hrest.fits⟩

end Writer

end Neri.Stdlib.Json
