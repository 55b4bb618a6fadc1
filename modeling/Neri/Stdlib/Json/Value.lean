import Neri.Lib.AvlTree
import Neri.Stdlib.Text

/-!
# JSON values (`json.hk`, `json/value.hk`)

A JSON value is a mutable object: several containers may refer to the same child, and a container may
even refer to itself. So values live in a heap, and `add` and `put` update the object that a reference
names. An object keeps its entries in the order they were appended and also in a search tree, where
`get` looks a key up.
-/

namespace Neri.Stdlib.Json

structure Failure where
  code : String
  offset : Nat := 0
  deriving DecidableEq, Repr

structure Options where
  maxInputBytes : Int := 1048576
  maxOutputBytes : Int := 1048576
  maxDepth : Int := 64
  maxNodes : Int := 100000

def validOptions (options : Options) : Bool :=
  options.maxInputBytes ≥ 0 && options.maxInputBytes ≤ 134217728 &&
    options.maxOutputBytes ≥ 0 && options.maxOutputBytes ≤ 134217728 &&
    options.maxDepth ≥ 0 && options.maxDepth ≤ 256 &&
    options.maxNodes > 0 && options.maxNodes ≤ 1000000

/-! ## Numbers -/

def digit (value : UInt8) : Bool := 48 ≤ value.toNat && value.toNat ≤ 57

def digit19 (value : UInt8) : Bool := 49 ≤ value.toNat && value.toNat ≤ 57

/-- One or more digits: what follows them. -/
def scanDigits : List UInt8 → Option (List UInt8)
  | first :: rest => if digit first then some (rest.dropWhile digit) else none
  | [] => none

/-- The integer part of a number: what follows it. -/
def scanInteger : List UInt8 → Option (List UInt8)
  | first :: rest =>
    if first = 48 then some rest
    else if digit19 first then some (rest.dropWhile digit)
    else none
  | [] => none

/-- The optional fraction of a number: what follows it. -/
def scanFraction : List UInt8 → Option (List UInt8)
  | first :: rest => if first = 46 then scanDigits rest else some (first :: rest)
  | [] => some []

/-- The digits of an exponent behind an optional sign: what follows them. -/
def scanSigned : List UInt8 → Option (List UInt8)
  | first :: rest => scanDigits (if first = 43 || first = 45 then rest else first :: rest)
  | [] => none

/-- The optional exponent of a number: what follows it. -/
def scanExponent : List UInt8 → Option (List UInt8)
  | first :: rest => if first = 69 || first = 101 then scanSigned rest else some (first :: rest)
  | [] => some []

def validNumber (value : Text) : Bool :=
  let unsigned := match value.bytes with
    | first :: rest => if first = 45 then rest else first :: rest
    | [] => []
  ((scanInteger unsigned).bind scanFraction).bind scanExponent = some []

/-! ## Values -/

abbrev Ref := Nat

/-- `Entry`, as a link of the sequence of a container. -/
structure Entry where
  key : Option Text
  value : Ref
  deriving DecidableEq

structure Value where
  constructionFailure : Option Failure := none
  tag : String
  content : Text := ""
  entries : List Entry := []
  index : AvlTree Text Ref := .empty

/-- The bytes of two keys are compared from the front. -/
def compareBytes : List UInt8 → List UInt8 → Int
  | a :: left, b :: right => if a = b then compareBytes left right else a.toNat - b.toNat
  | left, right => (left.length : Int) - right.length

def compare (left right : Text) : Int := compareBytes left.bytes right.bytes

namespace Value

/-- `Value.init`, which is public as every constructor is. -/
def init (tag : String) (content : Text := "") : Value := { tag, content }

def nullValue : Value := init "null"

def boolean (value : Bool) : Value := init "boolean" (if value then "true" else "false")

def string (value : Text) : Value := init "string" value

def number (lexeme : Text) : Option Value :=
  if validNumber lexeme then some (init "number" lexeme) else none

def array : Value := init "array"

def object : Value := init "object"

def text (value : Value) : Option Text :=
  if value.tag = "string" || value.tag = "number" || value.tag = "boolean" then some value.content
  else none

def get (value : Value) (key : Text) : Option Ref :=
  if value.tag ≠ "object" then none else value.index.find? compare key

/-- `append`, without the entry of an index. -/
def append (value : Value) (key : Option Text) (child : Ref) : Value :=
  { value with entries := value.entries ++ [⟨key, child⟩] }

/-- `add` on the object itself, if it is not refused. -/
def add (value : Value) (child : Ref) : Option Value :=
  if value.tag ≠ "array" || value.entries.length ≥ 1000000 then none
  else some (value.append none child)

/-- `put` on the object itself, if it is not refused. -/
def put (value : Value) (key : Text) (child : Ref) : Option Value :=
  if value.tag ≠ "object" || value.entries.length ≥ 1000000 || (value.get key).isSome then none
  else some { value.append (some key) child with index := value.index.insert compare key child }

/-- `each`, with what `visit` changes as the state. It follows the links of as many entries as there
are when it starts, so that entries appended by `visit` are not visited. -/
def each {σ : Type} (value : Value) (visit : σ → Option Text → Ref → σ) (start : σ) : σ :=
  value.entries.foldl (fun state entry => visit state entry.key entry.value) start

/-- A sequence of calls of `put`. -/
def putAll (value : Value) (puts : List (Text × Ref)) : Value :=
  puts.foldl (fun value (key, child) => (value.put key child).getD value) value

end Value

/-! ## The heap -/

/-- The values of a program. -/
abbrev Heap := List Value

namespace Heap

def allocate (heap : Heap) (value : Value) : Ref × Heap := (heap.length, heap ++ [value])

/-- An update of the object that a reference names, and whether it was made. -/
def update (heap : Heap) (target : Ref) (change : Value → Option Value) : Bool × Heap :=
  match heap[target]?.bind change with
  | some value => (true, heap.set target value)
  | none => (false, heap)

def add (heap : Heap) (target child : Ref) : Bool × Heap := heap.update target (·.add child)

def put (heap : Heap) (target : Ref) (key : Text) (child : Ref) : Bool × Heap :=
  heap.update target (·.put key child)

def get (heap : Heap) (target : Ref) (key : Text) : Option Ref := heap[target]?.bind (·.get key)

end Heap

/-- The heaps that a program can build. -/
inductive Built : Heap → Prop
  | empty : Built []
  | init {heap : Heap} (tag : String) (content : Text) :
    Built heap → Built (heap.allocate (Value.init tag content)).2
  | add {heap : Heap} {target child : Ref} :
    Built heap → target < heap.length → child < heap.length → Built (heap.add target child).2
  | put {heap : Heap} {target child : Ref} (key : Text) :
    Built heap → target < heap.length → child < heap.length → Built (heap.put target key child).2
  /-- `Json.put` and `Json.add` record the first construction failure. -/
  | fail {heap : Heap} {target : Ref} (failure : Failure) : Built heap →
    Built (heap.update target fun value => some { value with constructionFailure := some failure }).2

end Neri.Stdlib.Json
