import Neri.Stdlib.Http

/-!
# Reading a head from a socket (`stdlib/http.hk`)

The socket holds a stream of bytes, and its end is the peer's. The host's answers say how each turn of
the loop ends; a read takes at most a number of bytes, at most as many as fit, and none at the end. The
bytes of the buffer before `scanned` are the list `seen`; `readHead` is its loop, after the checks of
the timeout and the clock.
-/

namespace Neri.Stdlib.Http

/-- The text is that of its bytes. -/
structure Head where
  text : List UInt8 := []
  status : Int := 0
  failure : Option Failure := none
  bytesRead : Nat

def forbiddenByte (byte : UInt8) : Bool :=
  byte.toNat > 126 || (byte.toNat < 32 && byte != 9 && byte != 10 && byte != 13)

inductive Scan where
  | more (seen : List UInt8)
  | forbidden
  | found (head : List UInt8)

/-- The loop that looks at the bytes that are new in the buffer. -/
def scanHead (seen : List UInt8) : List UInt8 → Scan
  | [] => .more seen
  | byte :: rest =>
    if forbiddenByte byte then .forbidden
    else if [13, 10, 13, 10] <:+ seen ++ [byte] then .found (seen ++ [byte])
    else scanHead (seen ++ [byte]) rest

/-- The text that is made byte by byte. -/
def headText (head : List UInt8) : List UInt8 :=
  head.flatMap fun byte => (Text.fromBytes [byte]).elim [] Text.bytes

inductive ReadTurn where
  | waitFailed (failure : Failure)
  | readFailed (detail : String)
  | retry
  | read (less : Nat)

/-- No result where the answers run out. A read is of at most `less + 1` bytes. -/
def readHead (turns : List ReadTurn) (stream : List UInt8) (seen : List UInt8 := []) : Option Head :=
  if 8192 ≤ seen.length then
    some { status := 431, failure := some ⟨"header_limit", "read", ""⟩, bytesRead := seen.length }
  else match turns with
    | [] => none
    | .waitFailed failure :: _ =>
      some { status := if failure.code = "timeout" then 408 else 0, failure, bytesRead := seen.length }
    | .readFailed detail :: _ =>
      some { failure := some ⟨"socket_error", "read", detail⟩, bytesRead := seen.length }
    | .retry :: turns => readHead turns stream seen
    | .read less :: turns =>
      let chunk := stream.take (min (less + 1) (8192 - seen.length))
      let bytesRead := seen.length + chunk.length
      if chunk = [] then some { failure := some ⟨"peer_closed", "read", ""⟩, bytesRead }
      else match scanHead seen chunk with
        | .forbidden =>
          some { status := 400, failure := some ⟨"invalid_header_bytes", "read", ""⟩, bytesRead }
        | .found head => some { text := headText head, status := 200, bytesRead }
        | .more seen => readHead turns (stream.drop chunk.length) seen

end Neri.Stdlib.Http
