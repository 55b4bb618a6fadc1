import Neri.Frontend.Lexer
import Neri.Ir.Proofs.TextProofs

/-!
# What the tokens of a text are

The tokens of a lexer lie over the source text without overlaps, and what they leave free is blank or
a comment. Positions count UTF-16 code units.
-/

namespace Neri.Frontend

open Neri.Stdlib

/-- The UTF-16 code units of a sequence of scalars. -/
def utf16 (chars : List Char) : List Int := chars.flatMap Ir.utf16Units

/-- A carriage return or a line feed. -/
def IsLineEnd (c : Char) : Prop := c = '\r' ∨ c = '\n'

/-- What can stand between two tokens, before the text `after`: spaces and tabs, and a comment, which
goes to the end of its line. -/
inductive IsGap (after : List Char) : List Char → Prop
  | nil : IsGap after []
  | blank {c : Char} {gap : List Char} : c = ' ' ∨ c = '\t' → IsGap after gap → IsGap after (c :: gap)
  | comment {body : List Char} : (∀ c ∈ body, ¬ IsLineEnd c) → (∀ c ∈ after.head?, IsLineEnd c) →
    IsGap after ('#' :: body)

/-- The free places before the tokens: from the end of the token before, or from `position`. -/
def gapsFrom : Nat → List TokenNode → List (Nat × Nat)
  | _, [] => []
  | position, token :: tokens =>
    (position, token.start) :: gapsFrom (token.start + token.length) tokens

/-- The part of a text between two positions is a gap. -/
def GapBetween (source : List Char) (position next : Nat) : Prop :=
  ∃ before gap after, source = before ++ gap ++ after ∧ (utf16 before).length = position ∧
    (utf16 (before ++ gap)).length = next ∧ IsGap after gap

/-- The tokens of a source text. A token of a line end has a line feed as its text, whatever the line
end is; all other tokens have the source text of their span. -/
structure IsTiling (source : List Char) (tokens : List TokenNode) : Prop where
  ordered : tokens.Pairwise fun token next =>
    token.start < next.start ∧ token.start + token.length ≤ next.start
  text : ∀ token ∈ tokens, token.kind ≠ .NewLine →
    ((utf16 source).drop token.start).take token.length = utf16 token.text.scalars
  newLine : ∀ token ∈ tokens, token.kind = .NewLine → token.text = "\n" ∧
    ∃ lineEnd ∈ [['\n'], ['\r'], ['\r', '\n']],
      ((utf16 source).drop token.start).take token.length = utf16 lineEnd
  gaps : ∀ gap ∈ gapsFrom 0 tokens, GapBetween source gap.1 gap.2
  endOfFile : ∃ others last, tokens = others ++ [last] ∧ last.kind = .EndOfFile ∧
    last.start = (utf16 source).length ∧ last.length = 0 ∧ ∀ token ∈ others, token.kind ≠ .EndOfFile

/-- The analysis has not been cancelled. -/
def BootstrapLexer.Running (lexer : BootstrapLexer) : Prop :=
  ∀ control ∈ lexer.control, control.stopped = false

/-- The analysis has not been cancelled and the callback of its control, if any, will not do it. -/
def BootstrapLexer.Uncancelled (lexer : BootstrapLexer) : Prop :=
  ∀ control ∈ lexer.control, control.stopped = false ∧
    ∀ callback ∈ control.callback, ∀ call, callback call = true

end Neri.Frontend
