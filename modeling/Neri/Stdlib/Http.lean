import Neri.Stdlib.Text

/-!
# Writing a payload to a socket (`stdlib/http.hk`)

The host's answers are data: on each turn of the inner loop what `waitReady` reports, and then what
`netWrite` returns and `socketError` would say. `netWrites` is what the socket sees of a run.
-/

namespace Neri.Stdlib.Http

structure Failure where
  code : String
  operation : String
  detail : String := ""
  deriving DecidableEq

structure WriteTurn where
  failure : Option Failure := none
  count : Int := 0
  detail : String := ""

/-- A call of `writePayloadResult`: the cursors of its loops, its result, and whether it has returned. -/
structure PayloadWrite where
  offset : Nat := 0
  sent : Nat := 0
  bytesWritten : Nat := 0
  failure : Option Failure := none
  returned : Bool

/-- A call of `netWrite` as the socket sees it: the bytes it is given and its answer. -/
structure NetWrite where
  bytes : List UInt8
  count : Int

/-- The bytes that the socket has taken when it answers with a positive count. -/
def NetWrite.accepted (call : NetWrite) : List UInt8 := call.bytes.take call.count.toNat

def payloadBytes (text : Text) (binaryBody : Option (List UInt8)) : List UInt8 :=
  binaryBody.getD text.bytes

namespace PayloadWrite

variable (payload : List UInt8)

def size (w : PayloadWrite) : Nat := min (payload.length - w.offset) 1024

/-- What the fill loop leaves in the window. -/
def window (w : PayloadWrite) : List UInt8 := (payload.drop w.offset).take (w.size payload)

/-- The `size - sent` bytes at `bytes + sent`. -/
def request (w : PayloadWrite) : List UInt8 := (w.window payload).drop w.sent

def fail (w : PayloadWrite) (failure : Failure) : PayloadWrite :=
  { w with failure := some failure, returned := true }

/-- A positive count. At the end of the window the outer loop goes on with the next one. -/
def accept (w : PayloadWrite) (count : Nat) : PayloadWrite :=
  let after := { w with
    sent := w.sent + count
    bytesWritten := w.bytesWritten + count }
  if w.sent + count < w.size payload then after
  else { after with
    offset := w.offset + w.size payload
    sent := 0
    returned := payload.length ≤ w.offset + w.size payload }

def turn (w : PayloadWrite) (answer : WriteTurn) : PayloadWrite :=
  match answer.failure with
  | some failure => w.fail failure
  | none =>
    if answer.count = -1 then w.fail ⟨"socket_error", "write", answer.detail⟩
    else if answer.count = 0 then w.fail ⟨"write_stalled", "write", ""⟩
    else if answer.count > 0 then w.accept payload answer.count.toNat
    else w

def run : PayloadWrite → List WriteTurn → PayloadWrite
  | w, [] => w
  | w, answer :: answers => if w.returned then w else run (w.turn payload answer) answers

/-- The calls of `netWrite` in a run. There is none where the wait failed, and none after the
return. -/
def netWrites : PayloadWrite → List WriteTurn → List NetWrite
  | _, [] => []
  | w, answer :: answers =>
    if w.returned then []
    else match answer.failure with
      | some _ => []
      | none => ⟨w.request payload, answer.count⟩ :: netWrites (w.turn payload answer) answers

end PayloadWrite

/-- A call that begins; with an empty payload it also ends there. -/
def PayloadWrite.start (payload : List UInt8) : PayloadWrite := { returned := payload.length = 0 }

/-- The call after some of the host's answers. -/
def writePayloadResult (text : Text) (binaryBody : Option (List UInt8)) (answers : List WriteTurn) :
    PayloadWrite :=
  let payload := payloadBytes text binaryBody
  PayloadWrite.run payload (.start payload) answers

/-- What it writes to the socket on the way. -/
def payloadWrites (text : Text) (binaryBody : Option (List UInt8)) (answers : List WriteTurn) :
    List NetWrite :=
  let payload := payloadBytes text binaryBody
  PayloadWrite.netWrites payload (.start payload) answers

end Neri.Stdlib.Http
