import Neri.Frontend.Lexer

/-!
# The token buffer (`compiler/frontend/token_buffer.hk`)

The nodes stand in a list, the sentinel `first` before the tokens. A node is its place in the list, and
its links lead to the places beside it. Arithmetic is checked: a result outside the 64 bits stops the
program, as does a link of a node that is not there.
-/

namespace Neri.Frontend

def TokenNode.sentinel : TokenNode := ⟨.Invalid, 0, 0, .ofString "", .ofString ""⟩

structure TokenBuffer where
  nodes : List TokenNode := [.sentinel]
  cached : Option Nat := some 0
  cachedIndex : Int := -1

namespace TokenBuffer

def add (buffer : TokenBuffer) (node : TokenNode) : TokenBuffer :=
  { buffer with nodes := buffer.nodes ++ [node] }

def nextNode (buffer : TokenBuffer) (place : Nat) : Option Nat :=
  if place + 1 < buffer.nodes.length then some (place + 1) else none

/-- The loop that goes back, for so many nodes. -/
def goBack : Nat → Nat → Option Nat
  | 0, place => some place
  | _ + 1, 0 => none
  | steps + 1, place + 1 => goBack steps place

/-- The loop that goes on, for so many nodes, which stays where there is none. -/
def goOn (buffer : TokenBuffer) : Nat → Option Nat → Option Nat
  | 0, node => node
  | steps + 1, node => goOn buffer steps (node.bind buffer.nextNode)

/-- Where the walk to an index starts, after the loop that goes back. -/
def startAt (buffer : TokenBuffer) (index : Int) : Option (Nat × Int) :=
  match buffer.cached with
  | none => some (0, -1)
  | some place =>
    if index < buffer.cachedIndex then
      if buffer.cachedIndex - index > 9223372036854775807 then none
      else if buffer.cachedIndex - index ≤ index + 1 then
        (goBack (buffer.cachedIndex - index).toNat place).map (·, index)
      else some (0, -1)
    else some (place, buffer.cachedIndex)

def nodeAt (buffer : TokenBuffer) (index : Int) : Option (Option TokenNode × TokenBuffer) := do
  let (place, cursor) ← buffer.startAt index
  let node := buffer.goOn (index - cursor).toNat (some place)
  return (buffer.nodes[node.getD 0]?,
    { buffer with cached := node, cachedIndex := max cursor index })

end TokenBuffer

end Neri.Frontend
