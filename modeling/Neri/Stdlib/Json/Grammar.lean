import Neri.Stdlib.Json.Value

/-!
# The grammar of JSON

What a JSON text is, after RFC 8259, over Unicode scalars, and what it denotes: a tree of JSON
values, with the scalars of strings decoded and the lexemes of numbers as they are written. An escape
has to denote a scalar: a surrogate stands in a pair.
-/

namespace Neri.Stdlib.Json

inductive Tree where
  | null
  | boolean (value : Bool)
  | string (value : List Char)
  | number (lexeme : List Char)
  | array (items : List Tree)
  | object (members : List (List Char × Tree))

namespace Tree

mutual
/-- How deep the containers of a value are nested. -/
def depth : Tree → Nat
  | array items => depthOfItems items
  | object members => depthOfMembers members
  | _ => 0

def depthOfItems : List Tree → Nat
  | [] => 0
  | item :: items => max (item.depth + 1) (depthOfItems items)

def depthOfMembers : List (List Char × Tree) → Nat
  | [] => 0
  | (_, value) :: members => max (value.depth + 1) (depthOfMembers members)
end

mutual
/-- The number of values in a value, itself included. -/
def nodes : Tree → Nat
  | array items => nodesOfItems items + 1
  | object members => nodesOfMembers members + 1
  | _ => 1

def nodesOfItems : List Tree → Nat
  | [] => 0
  | item :: items => item.nodes + nodesOfItems items

def nodesOfMembers : List (List Char × Tree) → Nat
  | [] => 0
  | (_, value) :: members => value.nodes + nodesOfMembers members
end

mutual
/-- No object has two members with the same key. -/
def DistinctKeys : Tree → Prop
  | array items => DistinctKeysOfItems items
  | object members => (members.map Prod.fst).Nodup ∧ DistinctKeysOfMembers members
  | _ => True

def DistinctKeysOfItems : List Tree → Prop
  | [] => True
  | item :: items => item.DistinctKeys ∧ DistinctKeysOfItems items

def DistinctKeysOfMembers : List (List Char × Tree) → Prop
  | [] => True
  | (_, value) :: members => value.DistinctKeys ∧ DistinctKeysOfMembers members
end

end Tree

/-! ## Lexical parts -/

/-- `ws`, one character of it. -/
def IsSpace (c : Char) : Prop := c = ' ' ∨ c = '\t' ∨ c = '\n' ∨ c = '\r'

/-- `ws`. -/
def IsWhitespace (text : List Char) : Prop := ∀ c ∈ text, IsSpace c

/-- `DIGIT`. -/
def IsDigit (c : Char) : Prop := '0' ≤ c ∧ c ≤ '9'

/-- `1*DIGIT`. -/
def IsDigits (text : List Char) : Prop := text ≠ [] ∧ ∀ c ∈ text, IsDigit c

/-- `int`. -/
def IsInteger (text : List Char) : Prop :=
  text = ['0'] ∨ ∃ first rest, text = first :: rest ∧ ('1' ≤ first ∧ first ≤ '9') ∧
    ∀ c ∈ rest, IsDigit c

/-- `[ frac ]`. -/
def IsFraction (text : List Char) : Prop := text = [] ∨ ∃ digits, text = '.' :: digits ∧ IsDigits digits

/-- `[ exp ]`. -/
def IsExponent (text : List Char) : Prop :=
  text = [] ∨ ∃ e sign digits, text = e :: (sign ++ digits) ∧ (e = 'e' ∨ e = 'E') ∧
    (sign = [] ∨ sign = ['+'] ∨ sign = ['-']) ∧ IsDigits digits

/-- `number`. -/
def IsNumber (text : List Char) : Prop :=
  ∃ minus integer fraction exponent, text = minus ++ integer ++ fraction ++ exponent ∧
    (minus = [] ∨ minus = ['-']) ∧ IsInteger integer ∧ IsFraction fraction ∧ IsExponent exponent

def hexValue? (c : Char) : Option Nat :=
  if '0' ≤ c ∧ c ≤ '9' then some (c.toNat - 48)
  else if 'A' ≤ c ∧ c ≤ 'F' then some (c.toNat - 55)
  else if 'a' ≤ c ∧ c ≤ 'f' then some (c.toNat - 87)
  else none

/-- `4HEXDIG` and its value. -/
def IsHex4 (text : List Char) (value : Nat) : Prop :=
  ∃ a b c d a' b' c' d', text = [a, b, c, d] ∧ hexValue? a = some a' ∧ hexValue? b = some b' ∧
    hexValue? c = some c' ∧ hexValue? d = some d' ∧
    value = ((a' * 16 + b') * 16 + c') * 16 + d'

/-- The escapes of one character, after the backslash. -/
def simpleEscape? : Char → Option Char
  | '"' => some '"'
  | '\\' => some '\\'
  | '/' => some '/'
  | 'b' => some (Char.ofNat 8)
  | 'f' => some (Char.ofNat 12)
  | 'n' => some (Char.ofNat 10)
  | 'r' => some (Char.ofNat 13)
  | 't' => some (Char.ofNat 9)
  | _ => none

/-- `char`, and the scalar that it denotes. -/
inductive IsCharacter : List Char → Char → Prop
  | unescaped {c : Char} : c ≠ '"' → c ≠ '\\' → 32 ≤ c.toNat → IsCharacter [c] c
  | simple {c d : Char} : simpleEscape? c = some d → IsCharacter ['\\', c] d
  | unicode {digits : List Char} {c : Char} : IsHex4 digits c.toNat →
    IsCharacter ('\\' :: 'u' :: digits) c
  | pair {high low : List Char} {highUnit lowUnit : Nat} {c : Char} :
    IsHex4 high highUnit → IsHex4 low lowUnit →
    0xd800 ≤ highUnit → highUnit ≤ 0xdbff → 0xdc00 ≤ lowUnit → lowUnit ≤ 0xdfff →
    c.toNat = 0x10000 + (highUnit - 0xd800) * 0x400 + (lowUnit - 0xdc00) →
    IsCharacter ('\\' :: 'u' :: high ++ '\\' :: 'u' :: low) c

/-- `*char`, and the scalars that it denotes. -/
inductive IsCharacters : List Char → List Char → Prop
  | nil : IsCharacters [] []
  | cons {text rest : List Char} {c : Char} {chars : List Char} :
    IsCharacter text c → IsCharacters rest chars → IsCharacters (text ++ rest) (c :: chars)

/-- `string`. -/
def IsString (text chars : List Char) : Prop :=
  ∃ body, text = '"' :: body ++ ['"'] ∧ IsCharacters body chars

/-! ## Values -/

mutual
/-- `value`, and what it denotes. -/
inductive IsValue : List Char → Tree → Prop
  | null : IsValue "null".toList .null
  | true : IsValue "true".toList (.boolean .true)
  | false : IsValue "false".toList (.boolean .false)
  | string {text chars : List Char} : IsString text chars → IsValue text (.string chars)
  | number {text : List Char} : IsNumber text → IsValue text (.number text)
  | emptyArray {space : List Char} : IsWhitespace space → IsValue ('[' :: space ++ [']']) (.array [])
  | array {text : List Char} {items : List Tree} : IsItems text items →
    IsValue ('[' :: text ++ [']']) (.array items)
  | emptyObject {space : List Char} : IsWhitespace space →
    IsValue ('{' :: space ++ ['}']) (.object [])
  | object {text : List Char} {members : List (List Char × Tree)} : IsMembers text members →
    IsValue ('{' :: text ++ ['}']) (.object members)

/-- `value *( value-separator value )`, with the whitespace around the values. -/
inductive IsItems : List Char → List Tree → Prop
  | last {before text after : List Char} {item : Tree} :
    IsWhitespace before → IsValue text item → IsWhitespace after →
    IsItems (before ++ text ++ after) [item]
  | more {before text after rest : List Char} {item : Tree} {items : List Tree} :
    IsWhitespace before → IsValue text item → IsWhitespace after → IsItems rest items →
    IsItems (before ++ text ++ after ++ ',' :: rest) (item :: items)

/-- `member *( value-separator member )`, with the whitespace around keys and values. -/
inductive IsMembers : List Char → List (List Char × Tree) → Prop
  | last {before keyText middle before' text after key : List Char} {value : Tree} :
    IsWhitespace before → IsString keyText key → IsWhitespace middle →
    IsWhitespace before' → IsValue text value → IsWhitespace after →
    IsMembers (before ++ keyText ++ middle ++ ':' :: (before' ++ text ++ after)) [(key, value)]
  | more {before keyText middle before' text after key rest : List Char} {value : Tree}
      {members : List (List Char × Tree)} :
    IsWhitespace before → IsString keyText key → IsWhitespace middle →
    IsWhitespace before' → IsValue text value → IsWhitespace after → IsMembers rest members →
    IsMembers (before ++ keyText ++ middle ++ ':' :: (before' ++ text ++ after ++ ',' :: rest))
      ((key, value) :: members)
end

/-- `JSON-text`. -/
def IsJsonText (text : List Char) (tree : Tree) : Prop :=
  ∃ before body after, text = before ++ body ++ after ∧ IsWhitespace before ∧ IsValue body tree ∧
    IsWhitespace after

/-- A JSON text whose objects have distinct keys, within the limits of nesting and nodes. -/
structure IsJsonWithin (options : Options) (text : List Char) (tree : Tree) : Prop where
  isJsonText : IsJsonText text tree
  distinctKeys : tree.DistinctKeys
  depth : (tree.depth : Int) ≤ options.maxDepth
  nodes : (tree.nodes : Int) ≤ options.maxNodes

/-! ## What a heap denotes -/

def Value.Shows (child : Ref → Tree → Prop) (value : Value) : Tree → Prop
  | .null => value.tag = "null"
  | .boolean b => value.tag = "boolean" ∧ value.content = (if b then "true" else "false" : String)
  | .string chars => value.tag = "string" ∧ value.content = Text.ofScalars chars
  | .number lexeme => value.tag = "number" ∧ value.content = Text.ofScalars lexeme
  | .array items => value.tag = "array" ∧
    List.Forall₂ (fun entry item => entry.key = none ∧ child entry.value item) value.entries items
  | .object members => value.tag = "object" ∧
    List.Forall₂ (fun entry member => entry.key = some (Text.ofScalars member.1) ∧
      child entry.value member.2) value.entries members

/-- The tree that unfolds from a reference, with references from `low` on only, and with at most as
many levels as the number says. -/
def Heap.DenotesFrom (heap : Heap) (low : Ref) : Nat → Ref → Tree → Prop
  | 0, _, _ => False
  | levels + 1, ref, tree =>
    low ≤ ref ∧ ∃ value, heap[ref]? = some value ∧ value.Shows (heap.DenotesFrom low levels) tree

/-- The tree that unfolds from a reference. -/
def Heap.Denotes (heap : Heap) (ref : Ref) (tree : Tree) : Prop :=
  ∃ levels, heap.DenotesFrom 0 levels ref tree

/-- The references that can be reached from one through the entries of containers. -/
inductive Heap.Reaches (heap : Heap) : Ref → Ref → Prop
  | refl (ref : Ref) : Reaches heap ref ref
  | step {ref last : Ref} {value : Value} {entry : Entry} : heap[ref]? = some value →
    entry ∈ value.entries → Reaches heap entry.value last → Reaches heap ref last

/-- A value of a kind that the factories make, with a content that they give to that kind. -/
def Value.WellKinded (value : Value) : Prop :=
  value.tag = "null" ∨ value.tag = "string" ∨ value.tag = "array" ∨ value.tag = "object" ∨
    value.tag = "boolean" ∧ (value.content = "true" ∨ value.content = "false") ∨
    value.tag = "number" ∧ validNumber value.content = true

end Neri.Stdlib.Json
