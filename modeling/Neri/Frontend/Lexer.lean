import Neri.Frontend.Unicode
import Neri.Stdlib.Text

/-!
# The lexer (`lexer.hk`, `token_kind_catalog.hk`, `analysis_control.hk`)

`lex` reads a source text once, with a position in bytes and one in UTF-16 code units that move
together. A read of a byte out of bounds and a slice through a scalar stop the program: they are `none`
here. The loops are given as many rounds as there are bytes left, and one more to see the end.
-/

namespace Neri.Frontend

open Neri.Stdlib

/-! ## Token kinds -/

/-- `TokenKind`, under the names of the catalog. -/
inductive TokenKind where
  | Invalid | Amp | AmpAmp | As | At | BadToken | Bang | BangEqual | Borrow | Break | Case
  | Class | Colon | Comma | Compile | Continue | Def | Do | Dot | DoubleColon | Else | End
  | EndOfFile | Enum | Equal | EqualEqual | False | FloatLiteral | Fn | For | Greater
  | GreaterEqual | Identifier | If | In | IntLiteral | Internal | LBracket | LParen | Less
  | LessEqual | Let | Match | Minus | Namespace | Native | New | NewLine | Null | Pipe | PipePipe
  | Plus | Private | Protected | Public | Question | RBracket | RParen | Resource | Return
  | Slash | Stackalloc | Star | Static | StringLiteral | Struct | Super | This | Transfer | True
  | Try | Union | Unsafe | Use | Using | Var | While | Arrow
  deriving DecidableEq, Repr

namespace TokenKind

def fixedText : TokenKind → String
  | .Amp => "&"
  | .AmpAmp => "&&"
  | .As => "as"
  | .At => "@"
  | .Bang => "!"
  | .BangEqual => "!="
  | .Borrow => "borrow"
  | .Break => "break"
  | .Case => "case"
  | .Class => "class"
  | .Colon => ":"
  | .Comma => ","
  | .Compile => "compile"
  | .Continue => "continue"
  | .Def => "def"
  | .Do => "do"
  | .Dot => "."
  | .DoubleColon => "::"
  | .Else => "else"
  | .End => "end"
  | .Enum => "enum"
  | .Equal => "="
  | .EqualEqual => "=="
  | .False => "false"
  | .Fn => "fn"
  | .For => "for"
  | .Greater => ">"
  | .GreaterEqual => ">="
  | .If => "if"
  | .In => "in"
  | .Internal => "internal"
  | .LBracket => "["
  | .LParen => "("
  | .Less => "<"
  | .LessEqual => "<="
  | .Let => "let"
  | .Match => "match"
  | .Minus => "-"
  | .Namespace => "namespace"
  | .Native => "native"
  | .New => "new"
  | .NewLine => "\n"
  | .Null => "null"
  | .Pipe => "|"
  | .PipePipe => "||"
  | .Plus => "+"
  | .Private => "private"
  | .Protected => "protected"
  | .Public => "public"
  | .Question => "?"
  | .RBracket => "]"
  | .RParen => ")"
  | .Resource => "resource"
  | .Return => "return"
  | .Slash => "/"
  | .Stackalloc => "stackalloc"
  | .Star => "*"
  | .Static => "static"
  | .Struct => "struct"
  | .Super => "super"
  | .This => "this"
  | .Transfer => "transfer"
  | .True => "true"
  | .Try => "try"
  | .Union => "union"
  | .Unsafe => "unsafe"
  | .Use => "use"
  | .Using => "using"
  | .Var => "var"
  | .While => "while"
  | .Arrow => "=>"
  | _ => ""

/-- The keywords that `recognizeKeyword` knows, by their fixed texts. -/
def keywords : List TokenKind :=
  [ .As, .Borrow, .Break, .Case, .Class, .Compile, .Continue, .Def, .Do, .Else, .End, .Enum,
    .False, .Fn, .For, .If, .In, .Internal, .Let, .Match, .Namespace, .Native, .New, .Null,
    .Private, .Protected, .Public, .Resource, .Return, .Stackalloc, .Static, .Struct, .Super,
    .This, .Transfer, .True, .Try, .Union, .Unsafe, .Use, .Using, .Var, .While ]

def recognizeKeyword (value : Text) : TokenKind :=
  (keywords.find? fun kind => Text.ofString kind.fixedText = value).getD .Identifier

end TokenKind

/-- `TokenNode`, without its links: a token buffer is a list here. -/
structure TokenNode where
  kind : TokenKind
  start : Nat
  length : Nat
  text : Text
  value : Text
  deriving DecidableEq

/-! ## Cancellation -/

/-- `AnalysisControl`. The answers of the callback are given by the number of its call. -/
structure AnalysisControl where
  callback : Option (Nat → Bool) := none
  calls : Nat := 0
  remaining : Int := 256
  stopped : Bool := false

namespace AnalysisControl

def poll (control : AnalysisControl) : Bool × AnalysisControl :=
  if control.stopped then (false, control)
  else
    let polled := match control.callback with
      | some callback =>
        { control with
          remaining := 256
          calls := control.calls + 1
          stopped := !callback control.calls }
      | none => { control with remaining := 256 }
    (!polled.stopped, polled)

def checkpoint (control : AnalysisControl) : Bool × AnalysisControl :=
  if control.stopped then (false, control)
  else
    let counted := { control with remaining := control.remaining - 1 }
    if counted.remaining = 0 then counted.poll else (true, counted)

end AnalysisControl

/-! ## The lexer -/

def utf16Width (codePoint : Int) : Nat := if codePoint > 65535 then 2 else 1

def isStringEscape (codePoint : Int) : Bool :=
  codePoint == 34 || codePoint == 92 || codePoint == 48 || codePoint == 110 || codePoint == 116 ||
    codePoint == 114

def escapedByte (codePoint : Int) : UInt8 :=
  if codePoint = 34 then 34
  else if codePoint = 92 then 92
  else if codePoint = 48 then 0
  else if codePoint = 110 then 10
  else if codePoint = 116 then 9
  else 13

/-- Whether `host::parseInt` and `host::parseFloat` accept a text. -/
structure NumberHost where
  parsesInt : Text → Bool
  parsesFloat : Text → Bool

structure BootstrapLexer where
  control : Option AnalysisControl := none
  source : Text
  tokens : List TokenNode := []
  bytePosition : Nat := 0
  utf16Position : Nat := 0

namespace BootstrapLexer

def byteLength (lexer : BootstrapLexer) : Nat := lexer.source.byteLength

def hasInput (lexer : BootstrapLexer) : Bool × BootstrapLexer :=
  let available := decide (lexer.bytePosition < lexer.byteLength)
  match lexer.control with
  | none => (available, lexer)
  | some control =>
    let (running, checked) := control.checkpoint
    (running && available, { lexer with control := some checked })

def byteAt (lexer : BootstrapLexer) (position : Nat) : Option Int :=
  (lexer.source.byteAt position).map fun byte => byte.toNat

/-- `codePointAt` on the source. It reads as many bytes as the first one tells. -/
def codePointAt (lexer : BootstrapLexer) (position : Nat) : Option Int :=
  (lexer.byteAt position).bind fun first =>
    if position + utf8Width first ≤ lexer.byteLength then
      some (Frontend.codePointAt lexer.source.bytes position)
    else none

def advanceScalar (lexer : BootstrapLexer) : Option BootstrapLexer := do
  let point ← lexer.codePointAt lexer.bytePosition
  let first ← lexer.byteAt lexer.bytePosition
  some { lexer with
    bytePosition := lexer.bytePosition + utf8Width first
    utf16Position := lexer.utf16Position + utf16Width point }

def addKnown (lexer : BootstrapLexer) (kind : TokenKind) (start length : Nat) (text value : Text) :
    BootstrapLexer :=
  { lexer with tokens := lexer.tokens ++ [{ kind, start, length, text, value }] }

/-- The source text from a position up to the present one. -/
def textFrom (lexer : BootstrapLexer) (startByte : Nat) : Option Text :=
  lexer.source.slice startByte (lexer.bytePosition - startByte)

def add (lexer : BootstrapLexer) (kind : TokenKind) (startByte startUtf16 : Nat) (value : Text) :
    Option BootstrapLexer := do
  let text ←
    if kind.fixedText = "" && kind ≠ .EndOfFile then lexer.textFrom startByte
    else some (Text.ofString kind.fixedText)
  some (lexer.addKnown kind startUtf16 (lexer.utf16Position - startUtf16) text value)

/-- A loop `while this.hasInput() && test` that advances by scalars. -/
def advanceWhile (test : BootstrapLexer → Option Bool) : (rounds : Nat) → BootstrapLexer →
    Option BootstrapLexer
  | 0, _ => none
  | rounds + 1, lexer =>
    let (input, lexer) := lexer.hasInput
    if input then
      (test lexer).bind fun passes =>
        if passes then lexer.advanceScalar.bind (advanceWhile test rounds) else some lexer
    else some lexer

/-- The number of rounds that a loop gets. -/
def rounds (lexer : BootstrapLexer) : Nat := lexer.byteLength - lexer.bytePosition + 1

def atBlank (lexer : BootstrapLexer) : Option Bool :=
  (lexer.byteAt lexer.bytePosition).map fun byte => byte == 32 || byte == 9

def atNoLineEnd (lexer : BootstrapLexer) : Option Bool :=
  (lexer.byteAt lexer.bytePosition).map fun byte => byte != 13 && byte != 10

def atIdentifierPart (lexer : BootstrapLexer) : Option Bool :=
  (lexer.codePointAt lexer.bytePosition).map isIdentifierPart

def atDigit (lexer : BootstrapLexer) : Option Bool :=
  (lexer.codePointAt lexer.bytePosition).map fun point => inUnicodeRanges point unicodeDigitRanges

/-- Whether a carriage return is followed by a line feed. -/
def atLinePair (lexer : BootstrapLexer) (current : Int) : Option Bool :=
  if current = 13 && lexer.bytePosition + 1 < lexer.byteLength then
    (lexer.byteAt (lexer.bytePosition + 1)).map (· == 10)
  else some false

/-- The branch of `lex` for a line end. -/
def lexNewLine (lexer : BootstrapLexer) (startByte startUtf16 : Nat) (current : Int) :
    Option BootstrapLexer := do
  let paired ← lexer.atLinePair current
  let lexer ←
    if paired then
      some { lexer with
        bytePosition := lexer.bytePosition + 2
        utf16Position := lexer.utf16Position + 2 }
    else lexer.advanceScalar
  lexer.add .NewLine startByte startUtf16 ""

/-- The branch of `lex` for an identifier or a keyword. -/
def lexWord (lexer : BootstrapLexer) (startByte startUtf16 : Nat) : Option BootstrapLexer := do
  let lexer ← lexer.advanceScalar
  let lexer ← advanceWhile atIdentifierPart lexer.rounds lexer
  let text ← lexer.textFrom startByte
  let kind := TokenKind.recognizeKeyword text
  let value :=
    if kind = .True then "b:true"
    else if kind = .False then "b:false"
    else ""
  some (lexer.addKnown kind startUtf16 (lexer.utf16Position - startUtf16) text (Text.ofString value))

/-- Whether a fraction follows the digits of a number. -/
def atFraction (lexer : BootstrapLexer) : Option Bool :=
  if lexer.bytePosition + 1 < lexer.byteLength then
    (lexer.byteAt lexer.bytePosition).bind fun byte =>
      if byte = 46 then
        (lexer.codePointAt (lexer.bytePosition + 1)).map fun point =>
          inUnicodeRanges point unicodeDigitRanges
      else some false
  else some false

/-- The branch of `lex` for a number. -/
def lexNumber (host : NumberHost) (lexer : BootstrapLexer) (startByte startUtf16 : Nat) :
    Option BootstrapLexer := do
  let lexer ← lexer.advanceScalar
  let lexer ← advanceWhile atDigit lexer.rounds lexer
  let isFloat ← lexer.atFraction
  let lexer ←
    if isFloat then
      lexer.advanceScalar.bind fun lexer => advanceWhile atDigit lexer.rounds lexer
    else some lexer
  let text ← lexer.textFrom startByte
  let length := lexer.utf16Position - startUtf16
  if isFloat then
    if host.parsesFloat text then
      some (lexer.addKnown .FloatLiteral startUtf16 length text (Text.ofString "f:" ++ text))
    else some (lexer.addKnown .BadToken startUtf16 length text "")
  else if host.parsesInt text then
    some (lexer.addKnown .IntLiteral startUtf16 length text (Text.ofString "i:" ++ text))
  else some (lexer.addKnown .IntLiteral startUtf16 length text "")

/-- Whether a string goes on with an escape. -/
def atEscape (lexer : BootstrapLexer) (point : Int) : Option Bool :=
  if point = 92 && lexer.bytePosition + 1 < lexer.byteLength then
    (lexer.byteAt (lexer.bytePosition + 1)).map isStringEscape
  else some false

/-- The loop over the characters of a string, up to its end: the lexer, the bytes of the value, and
whether the string is terminated. -/
def scanString : (rounds : Nat) → BootstrapLexer → List UInt8 →
    Option (BootstrapLexer × List UInt8 × Bool)
  | 0, _, _ => none
  | rounds + 1, lexer, bytes =>
    let (input, lexer) := lexer.hasInput
    if input then do
      let point ← lexer.codePointAt lexer.bytePosition
      if point = 34 then
        -- the condition of the loop asks for input before it sees that the string has ended
        let lexer ← lexer.advanceScalar
        some (lexer.hasInput.2, bytes, true)
      else if point = 13 || point = 10 then some (lexer, bytes, false)
      else
        let escaped ← lexer.atEscape point
        if escaped then
          let lexer ← lexer.advanceScalar
          let escape ← lexer.byteAt lexer.bytePosition
          let lexer ← lexer.advanceScalar
          scanString rounds lexer (bytes ++ [escapedByte escape])
        else
          let first ← lexer.byteAt lexer.bytePosition
          let scalar ← (List.range (utf8Width first)).mapM fun offset =>
            lexer.source.byteAt (lexer.bytePosition + offset)
          let lexer ← lexer.advanceScalar
          scanString rounds lexer (bytes ++ scalar)
    else some (lexer, bytes, false)

/-- The branch of `lex` for a string. -/
def lexString (lexer : BootstrapLexer) (startByte startUtf16 : Nat) : Option BootstrapLexer := do
  let lexer ← lexer.advanceScalar
  let (lexer, bytes, terminated) ← scanString lexer.rounds lexer []
  if terminated then
    match Text.fromBytes bytes with
    | some decoded => lexer.add .StringLiteral startByte startUtf16 (Text.ofString "s:" ++ decoded)
    | none => lexer.add .BadToken startByte startUtf16 ""
  else lexer.add .BadToken startByte startUtf16 ""

/-- The kind and the width of the punctuation that starts with a scalar, before a byte. -/
def punctuation (current next : Int) : TokenKind × Nat :=
  if current = 58 ∧ next = 58 then (.DoubleColon, 2)
  else if current = 61 ∧ next = 62 then (.Arrow, 2)
  else if current = 61 ∧ next = 61 then (.EqualEqual, 2)
  else if current = 33 ∧ next = 61 then (.BangEqual, 2)
  else if current = 60 ∧ next = 61 then (.LessEqual, 2)
  else if current = 62 ∧ next = 61 then (.GreaterEqual, 2)
  else if current = 38 ∧ next = 38 then (.AmpAmp, 2)
  else if current = 124 ∧ next = 124 then (.PipePipe, 2)
  else if current = 40 then (.LParen, 1)
  else if current = 41 then (.RParen, 1)
  else if current = 44 then (.Comma, 1)
  else if current = 58 then (.Colon, 1)
  else if current = 63 then (.Question, 1)
  else if current = 64 then (.At, 1)
  else if current = 46 then (.Dot, 1)
  else if current = 91 then (.LBracket, 1)
  else if current = 93 then (.RBracket, 1)
  else if current = 43 then (.Plus, 1)
  else if current = 45 then (.Minus, 1)
  else if current = 42 then (.Star, 1)
  else if current = 47 then (.Slash, 1)
  else if current = 61 then (.Equal, 1)
  else if current = 60 then (.Less, 1)
  else if current = 62 then (.Greater, 1)
  else if current = 33 then (.Bang, 1)
  else if current = 38 then (.Amp, 1)
  else if current = 124 then (.Pipe, 1)
  else (.BadToken, 1)

/-- The loop `while consumed < width`. -/
def advanceScalars : (count : Nat) → BootstrapLexer → Option BootstrapLexer
  | 0, lexer => some lexer
  | count + 1, lexer => lexer.advanceScalar.bind (advanceScalars count)

/-- The byte behind the present one, or 0 at the end. -/
def nextByte (lexer : BootstrapLexer) : Option Int :=
  if lexer.bytePosition + 1 < lexer.byteLength then lexer.byteAt (lexer.bytePosition + 1) else some 0

def lexPunctuation (lexer : BootstrapLexer) (startByte startUtf16 : Nat) (current : Int) :
    Option BootstrapLexer := do
  let next ← lexer.nextByte
  let (kind, width) := punctuation current next
  let lexer ← advanceScalars width lexer
  lexer.add kind startByte startUtf16 ""

/-- A round of the loop of `lex`: a token, or what is skipped between two tokens. -/
def lexRound (host : NumberHost) (lexer : BootstrapLexer) : Option BootstrapLexer := do
  let startByte := lexer.bytePosition
  let startUtf16 := lexer.utf16Position
  let current ← lexer.codePointAt lexer.bytePosition
  if current = 13 || current = 10 then lexer.lexNewLine startByte startUtf16 current
  else if current = 32 || current = 9 then
    lexer.advanceScalar.bind fun lexer => advanceWhile atBlank lexer.rounds lexer
  else if current = 35 then
    lexer.advanceScalar.bind fun lexer => advanceWhile atNoLineEnd lexer.rounds lexer
  else if isIdentifierStart current then lexer.lexWord startByte startUtf16
  else if inUnicodeRanges current unicodeDigitRanges then lexer.lexNumber host startByte startUtf16
  else if current = 34 then lexer.lexString startByte startUtf16
  else lexer.lexPunctuation startByte startUtf16 current

/-- The loop of `lex`. -/
def lexLoop (host : NumberHost) : (rounds : Nat) → BootstrapLexer → Option BootstrapLexer
  | 0, _ => none
  | rounds + 1, lexer =>
    let (input, lexer) := lexer.hasInput
    if input then (lexer.lexRound host).bind (lexLoop host rounds) else some lexer

/-- `lex`. The tokens are those of the lexer that it leaves. -/
def lex (host : NumberHost) (lexer : BootstrapLexer) : Option BootstrapLexer :=
  (lexLoop host lexer.rounds lexer).map fun lexer =>
    lexer.addKnown .EndOfFile lexer.utf16Position 0 "" ""

end BootstrapLexer

end Neri.Frontend
