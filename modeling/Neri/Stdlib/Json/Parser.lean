import Neri.Stdlib.ByteBuffer
import Neri.Stdlib.Json.Value

/-!
# The JSON parser (`json/parser.hk`)

The parser walks over the bytes of the input. Its first problem is recorded and ends it; until it has
noticed, it may go on for a while. A loop leaves with what its `return` or its end leaves with. The
values that it makes are new ones in the heap of the program.
-/

namespace Neri.Stdlib.Json

/-- `put` for a member and `add` for an item. -/
def Heap.insert (heap : Heap) (target : Ref) (key : Option Text) (child : Ref) : Bool × Heap :=
  match key with
  | some key => heap.put target key child
  | none => heap.add target child

/-- `Parser`, with the heap in which it allocates. -/
structure Parser where
  input : Text
  nodeLimit : Int
  position : Nat := 0
  nodes : Int := 0
  problem : Option Failure := none
  heap : Heap

namespace Parser

def fail (parser : Parser) (code : String) : Parser :=
  match parser.problem with
  | none => { parser with problem := some ⟨code, parser.position⟩ }
  | some _ => parser

/-- `byte`: the byte at the position, or -1 behind the input. -/
def byte (parser : Parser) : Int :=
  match parser.input.byteAt parser.position with
  | none => -1
  | some value => value.toNat

def advance (parser : Parser) (count : Nat := 1) : Parser :=
  { parser with position := parser.position + count }

/-- `return` of a new value. -/
def allocate (parser : Parser) (value : Value) : Ref × Parser :=
  let (ref, heap) := parser.heap.allocate value
  (ref, { parser with heap })

/-- A loop that advances while the byte meets a condition. -/
def skipWhile (parser : Parser) (condition : UInt8 → Bool) : Parser :=
  parser.advance ((parser.input.bytes.drop parser.position).takeWhile condition).length

def isSpaceByte (byte : UInt8) : Bool := byte = 32 || byte = 9 || byte = 10 || byte = 13

def spaces (parser : Parser) : Parser := parser.skipWhile isSpaceByte

/-- The bytes of a token that is not a string or a container. -/
def isTokenByte (byte : UInt8) : Bool :=
  !isSpaceByte byte && byte ≠ 44 && byte ≠ 93 && byte ≠ 125

/-! ## Strings -/

def hexDigit (byte : Int) : Int :=
  if byte ≥ 48 && byte ≤ 57 then byte - 48
  else if byte ≥ 65 && byte ≤ 70 then byte - 55
  else if byte ≥ 97 && byte ≤ 102 then byte - 87
  else -1

/-- The loop of `hex4`, with the rounds that are left. -/
def hexDigits : Nat → Int → Parser → Int × Parser
  | 0, value, parser => (value, parser)
  | rounds + 1, value, parser =>
    let digit := hexDigit parser.byte
    if digit < 0 then (-1, parser.fail "invalid_json")
    else hexDigits rounds (value * 16 + digit) parser.advance

def hex4 (parser : Parser) : Int × Parser := hexDigits 4 0 parser

/-- The second half of a surrogate pair; without it the string ends with a problem. -/
def lowSurrogate (high : Int) (parser : Parser) : Option Int × Parser :=
  if parser.byte ≠ 92 then (none, parser.fail "invalid_json")
  else
    let parser := parser.advance
    if parser.byte ≠ 117 then (none, parser.fail "invalid_json")
    else
      let (low, parser) := parser.advance.hex4
      if low < 56320 || low > 57343 then (none, parser.fail "invalid_json")
      else (some (65536 + (high - 55296) * 1024 + low - 56320), parser)

/-- The escape behind a backslash: its code, or `none` where the string ends with a problem. -/
def escape (parser : Parser) : Option Int × Parser :=
  let escaped := parser.byte
  let parser := parser.advance
  if escaped = 34 || escaped = 92 || escaped = 47 then (some escaped, parser)
  else if escaped = 98 then (some 8, parser)
  else if escaped = 102 then (some 12, parser)
  else if escaped = 110 then (some 10, parser)
  else if escaped = 114 then (some 13, parser)
  else if escaped = 116 then (some 9, parser)
  else if escaped = 117 then
    let (code, parser) := parser.hex4
    if code ≥ 55296 && code ≤ 56319 then lowSurrogate code parser else (some code, parser)
  else (some (-1), parser)

/-- The end of a round of `string`: the bytes go to the output. -/
def emit (parser : Parser) (output : ByteBuffer) (stored : Option ByteBuffer) :
    Parser × ByteBuffer :=
  match stored with
  | some output => (parser, output)
  | none => (parser.fail "input_limit", output)

/-- A round of the loop of `string`. -/
def stringRound : Parser × ByteBuffer → (Parser × ByteBuffer) ⊕ (Text × Parser)
  | (parser, output) =>
    if parser.problem ≠ none then .inr ("", parser)
    else
      match parser.input.byteAt parser.position with
      | none => .inr ("", parser.fail "invalid_json")
      | some byte =>
        if byte.toNat < 32 then .inr ("", parser.fail "invalid_json")
        else
          let parser := parser.advance
          if byte = 34 then
            match output.text with
            | some value => .inr (value, parser)
            | none => .inr ("", parser.fail "invalid_utf8")
          else if byte ≠ 92 then .inl (parser.emit output (output.append byte))
          else
            match parser.escape with
            | (none, parser) => .inr ("", parser)
            | (some code, parser) =>
              match Scalar.fromInt code with
              | none => .inr ("", parser.fail "invalid_json")
              | some scalar => .inl (parser.emit output (output.appendBytes scalar.utf8))

/-- A parser that has gone on over the same input. A recorded problem stays. -/
structure Follows (parser next : Parser) : Prop where
  input : next.input = parser.input
  nodeLimit : next.nodeLimit = parser.nodeLimit
  position : parser.position ≤ next.position
  problem : next.problem = none → parser.problem = none

variable {parser : Parser} {code : String} {count : Nat} {value : Value}

theorem Follows.refl (parser : Parser) : Follows parser parser := ⟨rfl, rfl, Nat.le_refl _, id⟩

theorem Follows.trans {first second third : Parser} (h : Follows first second)
    (h' : Follows second third) : Follows first third :=
  ⟨h'.input.trans h.input, h'.nodeLimit.trans h.nodeLimit, Nat.le_trans h.position h'.position,
    fun hnone => h.problem (h'.problem hnone)⟩

theorem follows_fail : Follows parser (parser.fail code) := by
  unfold fail
  split
  · rename_i hnone
    exact ⟨rfl, rfl, Nat.le_refl _, fun _ => hnone⟩
  · exact .refl _

theorem follows_advance : Follows parser (parser.advance count) :=
  ⟨rfl, rfl, Nat.le_add_right _ _, id⟩

theorem follows_allocate : Follows parser (parser.allocate value).2 :=
  ⟨rfl, rfl, Nat.le_refl _, id⟩

theorem Follows.fail {next : Parser} (h : Follows parser next) : Follows parser (next.fail code) :=
  h.trans follows_fail

theorem follows_hexDigits {rounds : Nat} {value : Int} :
    Follows parser (hexDigits rounds value parser).2 := by
  induction rounds generalizing value parser with
  | zero => exact .refl _
  | succ rounds ih =>
    unfold hexDigits
    dsimp only
    split
    · exact follows_fail
    · exact follows_advance.trans ih

theorem follows_lowSurrogate {high : Int} : Follows parser (lowSurrogate high parser).2 := by
  unfold lowSurrogate
  split
  · exact follows_fail
  · dsimp only
    split
    · exact follows_advance.fail
    · have hhex : Follows parser (parser.advance.advance.hex4).2 :=
        (follows_advance.trans follows_advance).trans follows_hexDigits
      split
      · exact hhex.fail
      · exact hhex

theorem follows_escape : Follows parser parser.escape.2 := by
  have hadvance : Follows parser parser.advance := follows_advance
  unfold escape
  dsimp only
  repeat' split
  all_goals first
    | exact hadvance
    | exact (hadvance.trans follows_hexDigits).trans follows_lowSurrogate
    | exact hadvance.trans follows_hexDigits

theorem follows_emit {output : ByteBuffer} {stored : Option ByteBuffer} :
    Follows parser (parser.emit output stored).1 := by
  unfold emit
  split
  · exact .refl _
  · exact follows_fail

/-- What a round of `string` does to the position: one that goes on has read a byte. -/
def RoundFollows (parser : Parser) : (Parser × ByteBuffer) ⊕ (Text × Parser) → Prop
  | .inl (next, _) =>
    Follows parser.advance next ∧ parser.position < parser.input.byteLength
  | .inr (_, next) => Follows parser next

theorem stringRound_follows (parser : Parser) (output : ByteBuffer) :
    RoundFollows parser (stringRound (parser, output)) := by
  have hescape : Follows parser.advance parser.advance.escape.2 := follows_escape
  have hadvance : Follows parser parser.advance := follows_advance
  unfold stringRound
  dsimp only
  split
  · exact .refl _
  · split
    · exact follows_fail
    · rename_i byte hbyte
      have hlt : parser.position < parser.input.byteLength := (List.getElem_of_getElem? hbyte).1
      split
      · exact follows_fail
      · split
        · split
          · exact hadvance
          · exact hadvance.fail
        · split
          · exact ⟨follows_emit, hlt⟩
          · split
            · rename_i next heq
              rw [heq] at hescape
              exact hadvance.trans hescape
            · rename_i code next heq
              rw [heq] at hescape
              split
              · exact (hadvance.trans hescape).fail
              · exact ⟨hescape.trans follows_emit, hlt⟩

/-- The loop of `string`. -/
def stringLoop : BoundedLoop (Parser × ByteBuffer) (Text × Parser) where
  body := stringRound
  measure state := state.1.input.byteLength - state.1.position
  decreases := by
    rintro ⟨parser, output⟩ ⟨next, output'⟩ h
    have hround := stringRound_follows parser output
    rw [h] at hround
    obtain ⟨⟨hinput, -, hposition, -⟩, hlt⟩ := hround
    have hinput' : next.input = parser.input := hinput
    have hposition' : parser.position + 1 ≤ next.position := hposition
    show next.input.byteLength - next.position < parser.input.byteLength - parser.position
    rw [hinput']
    omega

def string (parser : Parser) : Text × Parser :=
  match ByteBuffer.create parser.input.byteLength with
  | none => ("", parser.fail "input_limit")
  | some output => stringLoop.run (parser.advance, output)

theorem follows_string : Follows parser parser.string.2 := by
  unfold string
  split
  · exact follows_fail
  · refine (show Follows parser parser.advance from follows_advance).trans ?_
    refine BoundedLoop.run_invariant
      (fun state : Parser × ByteBuffer => Follows parser.advance state.1)
      (fun result : Text × Parser => Follows parser.advance result.2) ?_ ?_ (.refl _)
    · rintro ⟨state, output⟩ next hinv h
      have hround := stringRound_follows state output
      rw [show stringRound (state, output) = .inl next from h] at hround
      exact (hinv.trans follows_advance).trans hround.1
    · rintro ⟨state, output⟩ result hinv h
      have hround := stringRound_follows state output
      rw [show stringRound (state, output) = .inr result from h] at hround
      exact hinv.trans hround

/-! ## Values -/

/-- A way to read a value, at one level of nesting. -/
structure Reader where
  read : Parser → Ref × Parser
  follows : ∀ parser, Follows parser (read parser).2

/-- The key of a member and the colon behind it; `none` where the container ends with a problem. -/
def memberKey (target : Ref) (parser : Parser) : Option Text × Parser :=
  if parser.byte ≠ 34 then (none, parser.fail "invalid_json")
  else
    let (key, parser) := parser.string
    let parser := parser.spaces
    if parser.byte ≠ 58 then (none, parser.fail "invalid_json")
    else
      let parser := parser.advance
      if (parser.heap.get target key).isSome then (none, parser.fail "duplicate_key")
      else (some key, parser)

/-- The new entry of a container. -/
def insert (target : Ref) (key : Option Text) (child : Ref) (parser : Parser) : Parser :=
  let (inserted, heap) := parser.heap.insert target key child
  if inserted then { parser with heap } else { parser with heap }.fail "node_limit"

/-- The end of a round of `container`, behind a child. -/
def closeRound (closing : Int) (parser : Parser) : Parser ⊕ Parser :=
  if parser.byte = closing then .inr parser.advance
  else if parser.byte ≠ 44 then .inr (parser.fail "invalid_json")
  else .inl parser.advance

/-- The child of a round of `container`, and the end of the round. -/
def childRound (reader : Reader) (target : Ref) (closing : Int) (key : Option Text)
    (parser : Parser) : Parser ⊕ Parser :=
  let (child, parser) := reader.read parser
  if parser.problem ≠ none then .inr parser
  else closeRound closing (parser.insert target key child).spaces

/-- A round of the loop of `container`. -/
def containerRound (reader : Reader) (target : Ref) (object : Bool) (parser : Parser) :
    Parser ⊕ Parser :=
  if parser.problem ≠ none then .inr parser
  else
    let parser := parser.spaces
    if object then
      match memberKey target parser with
      | (none, parser) => .inr parser
      | (some key, parser) => childRound reader target 125 (some key) parser
    else childRound reader target 93 none parser

theorem follows_spaces : Follows parser parser.spaces := follows_advance

variable {target : Ref}

theorem follows_memberKey : Follows parser (memberKey target parser).2 := by
  unfold memberKey
  split
  · exact follows_fail
  · dsimp only
    have hspaces : Follows parser parser.string.2.spaces := follows_string.trans follows_spaces
    split
    · exact hspaces.fail
    · split
      · exact (hspaces.trans follows_advance).fail
      · exact hspaces.trans follows_advance

theorem follows_insert {child : Ref} {key : Option Text} :
    Follows parser (insert target key child parser) := by
  unfold insert
  dsimp only
  have hheap : Follows parser { parser with heap := (parser.heap.insert target key child).2 } :=
    ⟨rfl, rfl, Nat.le_refl _, id⟩
  split
  · exact hheap
  · exact hheap.fail

/-- What a round of `container` does to the position: one that goes on has read a comma. -/
def ContainerFollows (parser : Parser) : Parser ⊕ Parser → Prop
  | .inl next => Follows parser next ∧ parser.position < next.position ∧
    next.position ≤ parser.input.byteLength
  | .inr next => Follows parser next

theorem ContainerFollows.of_follows {first second : Parser} {outcome : Parser ⊕ Parser}
    (h : Follows first second) (h' : ContainerFollows second outcome) :
    ContainerFollows first outcome := by
  cases outcome with
  | inl next =>
    obtain ⟨hfollows, hlt, hle⟩ := h'
    exact ⟨h.trans hfollows, Nat.lt_of_le_of_lt h.position hlt, h.input ▸ hle⟩
  | inr next => exact h.trans h'

theorem position_lt_of_byte {parser : Parser} (h : parser.byte ≠ -1) :
    parser.position < parser.input.byteLength := by
  unfold byte at h
  split at h
  · exact absurd rfl h
  · rename_i value hvalue
    exact (List.getElem_of_getElem? hvalue).1

theorem closeRound_follows (closing : Int) (parser : Parser) :
    ContainerFollows parser (closeRound closing parser) := by
  unfold closeRound
  split
  · exact follows_advance
  · split
    · exact follows_fail
    · rename_i hcomma
      have hlt : parser.position < parser.input.byteLength :=
        position_lt_of_byte fun heq => hcomma (by rw [heq]; decide)
      exact ⟨follows_advance, Nat.lt_succ_self _, hlt⟩

theorem childRound_follows (reader : Reader) (target : Ref) (closing : Int) (key : Option Text)
    (parser : Parser) : ContainerFollows parser (childRound reader target closing key parser) := by
  have hread := reader.follows parser
  unfold childRound
  dsimp only
  split
  · exact hread
  · exact .of_follows ((hread.trans follows_insert).trans follows_spaces) (closeRound_follows _ _)

theorem containerRound_follows (reader : Reader) (target : Ref) (object : Bool)
    (parser : Parser) : ContainerFollows parser (containerRound reader target object parser) := by
  have hspaces : Follows parser parser.spaces := follows_spaces
  unfold containerRound
  split
  · exact Follows.refl _
  · dsimp only
    split
    · have hkey : Follows parser (memberKey target parser.spaces).2 := hspaces.trans follows_memberKey
      split
      · rename_i next heq
        rw [heq] at hkey
        exact hkey
      · rename_i key next heq
        rw [heq] at hkey
        exact .of_follows hkey (childRound_follows _ _ _ _ _)
    · exact .of_follows hspaces (childRound_follows _ _ _ _ _)

/-- The loop of `container`. -/
def containerLoop (reader : Reader) (target : Ref) (object : Bool) : BoundedLoop Parser Parser where
  body := containerRound reader target object
  measure parser := parser.input.byteLength - parser.position
  decreases := by
    intro parser next h
    have hround := containerRound_follows reader target object parser
    rw [h] at hround
    obtain ⟨⟨hinput, -, -, -⟩, hlt, hle⟩ := hround
    rw [hinput]
    omega

/-- `container` behind the new value. -/
def containerEntries (reader : Reader) (object : Bool) (target : Ref) (parser : Parser) : Parser :=
  let closing : Int := if object then 125 else 93
  let parser := parser.advance.spaces
  if parser.byte = closing then parser.advance
  else (containerLoop reader target object).run parser

/-- `container`, with the reader of the next level. -/
def container (reader : Reader) (object : Bool) (parser : Parser) : Ref × Parser :=
  let (target, parser) := parser.allocate (if object then Value.object else Value.array)
  (target, containerEntries reader object target parser)

theorem follows_containerLoop {reader : Reader} {object : Bool} :
    Follows parser ((containerLoop reader target object).run parser) := by
  refine BoundedLoop.run_invariant (Follows parser) (Follows parser) ?_ ?_ (.refl _)
  · intro state next hinv h
    have hround := containerRound_follows reader target object state
    rw [show containerRound reader target object state = .inl next from h] at hround
    exact hinv.trans hround.1
  · intro state result hinv h
    have hround := containerRound_follows reader target object state
    rw [show containerRound reader target object state = .inr result from h] at hround
    exact hinv.trans hround

theorem follows_containerEntries {reader : Reader} {object : Bool} :
    Follows parser (containerEntries reader object target parser) := by
  have hstart : Follows parser parser.advance.spaces := follows_advance.trans follows_spaces
  unfold containerEntries
  dsimp only
  generalize (if object then 125 else 93 : Int) = closing
  split
  · exact hstart.trans follows_advance
  · exact hstart.trans follows_containerLoop

/-- The value of a token that is not a string or a container. -/
def tokenValue (token : Text) : Option Value :=
  if token = "null" then some Value.nullValue
  else if token = "true" || token = "false" then some (Value.boolean (token = "true"))
  else Value.number token

/-- The end of `read`, for everything but strings and containers. -/
def readToken (parser : Parser) : Ref × Parser :=
  let start := parser.position
  let parser := parser.skipWhile isTokenByte
  match (parser.input.sliceBytes start (parser.position - start)).bind tokenValue with
  | some value => parser.allocate value
  | none => (parser.fail "invalid_json").allocate Value.nullValue

/-- `read` behind the checks of depth and nodes. -/
def readValue (reader : Reader) (parser : Parser) : Ref × Parser :=
  let byte := parser.byte
  if byte = 34 then
    let (value, parser) := parser.string
    parser.allocate (Value.string value)
  else if byte = 123 || byte = 91 then container reader (byte = 123) parser
  else parser.readToken

theorem follows_readValue {reader : Reader} : Follows parser (readValue reader parser).2 := by
  unfold readValue
  dsimp only
  split
  · exact follows_string.trans follows_allocate
  · split
    · exact follows_allocate.trans follows_containerEntries
    · unfold readToken
      dsimp only
      split
      · exact follows_advance.trans follows_allocate
      · exact follows_advance.fail.trans follows_allocate

/-- `read`, with the levels that the depth limit leaves: `depthLimit + 1 - depth`, so that none is
left exactly when `depth > depthLimit`. -/
def reader : Nat → Reader
  | 0 => {
    read := fun parser => (parser.spaces.fail "depth_limit").allocate Value.nullValue
    follows := fun _ => follows_spaces.fail.trans follows_allocate }
  | levels + 1 => {
    read := fun parser =>
      let parser := parser.spaces
      if parser.nodes ≥ parser.nodeLimit then
        (parser.fail "node_limit").allocate Value.nullValue
      else readValue (reader levels) { parser with nodes := parser.nodes + 1 }
    follows := fun parser => by
      dsimp only
      split
      · exact follows_spaces.fail.trans follows_allocate
      · refine follows_spaces.trans (.trans ?_ follows_readValue)
        exact ⟨rfl, rfl, Nat.le_refl _, id⟩ }

def parse (parser : Parser) (depthLimit : Int) : Except Failure Ref × Heap :=
  let (value, parser) := (reader (depthLimit + 1).toNat).read parser
  let parser := parser.spaces
  let parser :=
    if parser.position ≠ parser.input.byteLength then parser.fail "invalid_json" else parser
  match parser.problem with
  | some problem => (.error problem, parser.heap)
  | none => (.ok value, parser.heap)

end Parser

/-- `json::parse`, in a heap: the value or the failure, and the heap with the new values. -/
def parse (heap : Heap) (input : Text) (options : Option Options := none) :
    Except Failure Ref × Heap :=
  let limits := options.getD {}
  if !validOptions limits then (.error ⟨"invalid_options", 0⟩, heap)
  else if (input.byteLength : Int) > limits.maxInputBytes then (.error ⟨"input_limit", 0⟩, heap)
  else Parser.parse { input, nodeLimit := limits.maxNodes, heap } limits.maxDepth

end Neri.Stdlib.Json
