import Neri.Lib.InsertionSort
import Neri.Stdlib.ByteBuffer

/-!
# Change snapshots (`changes.hk`, `changes/scan_state.hk`, `changes/scanner.hk`)

`Scanner.poll` walks through a directory below an open root, writes a record for each entry into a
buffer and keeps the hash of the buffer. What the operating system answers is a `Host`. A conversion
to a byte that does not fit stops the program; it is `none` here. The caller can set the limits of a
scanner between two polls.
-/

namespace Neri.Stdlib.Changes

open Neri.Stdlib

/-! ## Files -/

inductive FileKind where
  | missing | file | directory | symlink | other
  deriving DecidableEq, Repr

structure DirectoryEntry where
  name : Text
  kind : FileKind
  deriving DecidableEq

/-- `files::Failure`, without the component that `changes` does not read. -/
inductive FileFailure where
  | mk (code : String) (osCode : Int) (operation : String) (closeFailure : Option FileFailure)

/-- `result::Failure`, without the native error that `changes` does not set. -/
inductive Failure where
  | mk (code operation : String) (detail : Text) (transferred osCode : Int)
    (cause closeFailure : Option Failure)

structure ListResult where
  entries : List DirectoryEntry := []
  failure : Option FileFailure := none
  closeFailure : Option FileFailure := none

structure ReadResult where
  bytes : Option (List UInt8) := none
  failure : Option FileFailure := none
  closeFailure : Option FileFailure := none
  bytesRead : Int := 0

/-- What the operating system answers: `Root.list`, `Root.readBytes` and `crypto::sha256Outcome`. -/
structure Host where
  list : (path : Text) → (limit : Int) → ListResult
  readBytes : (path : Text) → (limit : Int) → ReadResult
  sha256Outcome : List UInt8 → Except String (List UInt8)

/-! ## Failures -/

/-- A failure as `new result::Failure` makes it. -/
def Failure.new (code operation : String) (detail : Text := "") : Failure :=
  .mk code operation detail 0 0 none none

/-- The failure that `sha256Outcome` returns, as `visit` and `poll` pass it on. -/
def Failure.ofHash (code : String) (detail : Text) (transferred : Nat) : Failure :=
  .mk code "changes.hash" detail transferred 0 (some (.new code "crypto.sha256")) none

def convertFailure (source : FileFailure) (detail : Text) (transferred : Int) : Failure :=
  match source with
  | .mk code osCode operation none => .mk code operation detail transferred osCode none none
  | .mk code osCode operation (some closed) =>
    .mk code operation detail transferred osCode none (some (convertFailure closed detail transferred))

/-- The loop of `combinedFailure`: a failure behind the last close failure. -/
def Failure.withClose (failure closed : Failure) : Failure :=
  match failure with
  | .mk code operation detail transferred osCode cause none =>
    .mk code operation detail transferred osCode cause (some closed)
  | .mk code operation detail transferred osCode cause (some next) =>
    .mk code operation detail transferred osCode cause (some (next.withClose closed))

def combinedFailure (primary closed : Option FileFailure) (detail : Text) (transferred : Int) :
    Option Failure :=
  match primary.map (convertFailure · detail transferred),
    closed.map (convertFailure · detail transferred) with
  | failure, none => failure
  | none, some closeFailure => some closeFailure
  | some failure, some closeFailure => some (failure.withClose closeFailure)

/-! ## Sorting -/

/-- `compareText`, from the front. -/
def compareBytes : List UInt8 → List UInt8 → Int
  | a :: left, b :: right =>
    if a.toNat < b.toNat then -1
    else if a.toNat > b.toNat then 1
    else compareBytes left right
  | left, right =>
    if left.length < right.length then -1
    else if left.length > right.length then 1
    else 0

def compareText (left right : Text) : Int := compareBytes left.bytes right.bytes

/-- The test of the inner loop of `sortEntries`. -/
def comesBefore (value other : DirectoryEntry) : Bool := compareText value.name other.name < 0

def sortEntries (input : List DirectoryEntry) : List DirectoryEntry :=
  InsertionSort.sort comesBefore input

/-! ## Records -/

/-- The conversion `as Byte`. -/
def toByte (value : Nat) : Option UInt8 := if value < 256 then some (UInt8.ofNat value) else none

/-- An append that a condition asks for: whether it was made, and the buffer behind it. -/
def tryAppend (output : ByteBuffer) (append : ByteBuffer → Option ByteBuffer) : Bool × ByteBuffer :=
  match append output with
  | some appended => (true, appended)
  | none => (false, output)

/-- Appends in a row, up to the first one that is refused. Each gets its values when it is its turn. -/
def appendAll : List (Option (List UInt8)) → ByteBuffer → Option (Bool × ByteBuffer)
  | [], output => some (true, output)
  | values :: rest, output =>
    values.bind fun values =>
      let (appended, output) := tryAppend output (·.store values)
      if appended then appendAll rest output else some (false, output)

/-- The four values that `appendU32` appends. -/
def u32Bytes (value : Nat) : List (Option (List UInt8)) :=
  [ (toByte (value - (value / 256) * 256)).map fun byte => [byte],
    (toByte ((value / 256) - (value / 65536) * 256)).map fun byte => [byte],
    (toByte ((value / 65536) - (value / 16777216) * 256)).map fun byte => [byte],
    (toByte (value / 16777216)).map fun byte => [byte] ]

def appendRecord (output : ByteBuffer) (kind : FileKind) (path : Text) (digest : List UInt8) :
    Option (Bool × ByteBuffer) :=
  if kind ≠ .file && kind ≠ .directory then some (false, output)
  else
    let tag := if kind = .file then 1 else 2
    appendAll
      ([(toByte tag).map fun byte => [byte]] ++ u32Bytes path.byteLength ++ [some path.bytes] ++
        u32Bytes digest.length ++ [some digest]) output

/-! ## The walk -/

/-- `ScanState`. The limit of the depth is given by the levels that are left. -/
structure ScanState where
  remainingEntries : Int
  remainingBytes : Int
  encoded : ByteBuffer
  failure : Option Failure := none

namespace ScanState

def fail (state : ScanState) (failure : Failure) : ScanState := { state with failure := some failure }

def childPath (path name : Text) : Text :=
  if path.bytes = [] then name else path ++ "/" ++ name

def record (state : ScanState) (kind : FileKind) (child : Text) (digest : List UInt8) :
    Option ScanState :=
  (appendRecord state.encoded kind child digest).map fun (appended, encoded) =>
    let state := { state with encoded }
    if appended then state else state.fail (.new "snapshot_limit_exceeded" "changes.hash" child)

/-- The branch of `visit` for a file. -/
def visitFile (host : Host) (state : ScanState) (child : Text) : Option ScanState :=
  let read := host.readBytes child state.remainingBytes
  if read.failure.isSome || read.closeFailure.isSome then
    some { state with
      failure := combinedFailure read.failure read.closeFailure child read.bytesRead }
  else
    match read.bytes with
    | none => some (state.fail (.new "missing_bytes" "changes.read" child))
    | some bytes =>
      if bytes.length > state.remainingBytes then
        some (state.fail (.new "byte_limit_exceeded" "changes.read" child))
      else
        let state := { state with remainingBytes := state.remainingBytes - bytes.length }
        match host.sha256Outcome bytes with
        | .ok digest => state.record .file child digest
        | .error code => some (state.fail (.ofHash code child bytes.length))

/-- A round of the loop of `visit`, for an entry that is still within the limit. -/
def visitEntry (host : Host) (visit : Text → ScanState → Option ScanState) (path : Text)
    (state : ScanState) (entry : DirectoryEntry) : Option ScanState :=
  if state.remainingEntries = 0 then
    some (state.fail (.new "entry_limit_exceeded" "changes.enumerate" path))
  else
    let state := { state with remainingEntries := state.remainingEntries - 1 }
    let child := childPath path entry.name
    match entry.kind with
    | .directory =>
      (state.record .directory child []).bind fun state =>
        if state.failure.isSome then some state else visit child state
    | .file => state.visitFile host child
    | _ => some (state.fail (.new "unsupported_entry" "changes.enumerate" child))

/-- The loop of `visit` over the sorted entries. -/
def visitEntries (host : Host) (visit : Text → ScanState → Option ScanState) (path : Text) :
    List DirectoryEntry → ScanState → Option ScanState
  | [], state => some state
  | entry :: entries, state =>
    (state.visitEntry host visit path entry).bind fun state =>
      if state.failure.isSome then some state else visitEntries host visit path entries state

/-- `visit`, with `levels` more directories below the present depth. -/
def visit (host : Host) : (levels : Nat) → (path : Text) → ScanState → Option ScanState
  | 0, path, state =>
    if state.failure.isSome then some state
    else some (state.fail (.new "depth_exceeded" "changes.enumerate" path))
  | levels + 1, path, state =>
    if state.failure.isSome then some state
    else
      let listed := host.list path state.remainingEntries
      if listed.failure.isSome || listed.closeFailure.isSome then
        some { state with failure := combinedFailure listed.failure listed.closeFailure path 0 }
      else visitEntries host (visit host levels) path (sortEntries listed.entries) state

end ScanState

/-! ## Polls -/

structure PollResult where
  changed : Bool := false
  digest : Option (List UInt8) := none
  failure : Option Failure := none

structure Scanner where
  entryLimit : Int := 4096
  byteLimit : Int := 134217728
  depthLimit : Int := 64
  baseline : Option (List UInt8) := none

namespace Scanner

def validLimits (scanner : Scanner) : Bool :=
  !(scanner.entryLimit < 0 || scanner.entryLimit > 4096 || scanner.byteLimit < 0 ||
    scanner.byteLimit > 134217728 || scanner.depthLimit < 0 || scanner.depthLimit > 64)

/-- The part of `poll` before the hash: the encoded snapshot, or a failure. -/
def snapshot (scanner : Scanner) (host : Host) (relative : Text) :
    Option (Except Failure (List UInt8)) :=
  if !scanner.validLimits then some (.error (.new "invalid_limit" "changes.poll"))
  else
    match ByteBuffer.create 134217728 with
    | none => some (.error (.new "allocation_failed" "changes.poll"))
    | some encoded =>
      (ScanState.visit host (scanner.depthLimit + 1).toNat relative
        { remainingEntries := scanner.entryLimit, remainingBytes := scanner.byteLimit, encoded }).map
        fun state =>
          match state.failure with
          | some failure => .error failure
          | none => .ok state.encoded.snapshot

def poll (scanner : Scanner) (host : Host) (relative : Text := "") :
    Option (PollResult × Scanner) :=
  (scanner.snapshot host relative).map fun
    | .error failure => ({ failure := some failure }, scanner)
    | .ok encoded =>
      match host.sha256Outcome encoded with
      | .ok candidate =>
        let changed := match scanner.baseline with
          | some previous => previous ≠ candidate
          | none => false
        ({ changed, digest := some candidate }, { scanner with baseline := some candidate })
      | .error code =>
        ({ failure := some (.ofHash code "" encoded.length) }, scanner)

end Scanner

/-! ## What a scanner is for -/

/-- A directory tree: the entries of each directory and the content of each file, by path. -/
structure FileTree where
  entries : Text → List DirectoryEntry
  content : Text → List UInt8
  /-- A name is not empty and has no slash. -/
  names : ∀ path, ∀ entry ∈ entries path, entry.name.bytes ≠ [] ∧ (47 : UInt8) ∉ entry.name.bytes
  nodup : ∀ path, ((entries path).map (·.name)).Nodup

/-- What is recorded of a tree: a path with its kind and, for a file, its content. -/
structure Record where
  path : Text
  kind : FileKind
  content : List UInt8
  deriving DecidableEq

/-- The records of what is below a path. -/
inductive FileTree.Recorded (tree : FileTree) : Text → Record → Prop
  | file {path : Text} {name : Text} : ⟨name, .file⟩ ∈ tree.entries path → Recorded tree path
      ⟨ScanState.childPath path name, .file, tree.content (ScanState.childPath path name)⟩
  | directory {path : Text} {name : Text} : ⟨name, .directory⟩ ∈ tree.entries path →
    Recorded tree path ⟨ScanState.childPath path name, .directory, []⟩
  | deeper {path : Text} {name : Text} {record : Record} : ⟨name, .directory⟩ ∈ tree.entries path →
    Recorded tree (ScanState.childPath path name) record → Recorded tree path record

/-- The host answers from the tree: a listing that succeeds has the entries in any order, a read that
succeeds has the content, and a hash that succeeds is that of `digest`. -/
structure Host.Serves (host : Host) (tree : FileTree) (digest : List UInt8 → List UInt8) : Prop where
  list : ∀ path limit, (host.list path limit).failure = none →
    (host.list path limit).closeFailure = none →
    (host.list path limit).entries.Perm (tree.entries path)
  readBytes : ∀ path limit bytes, (host.readBytes path limit).failure = none →
    (host.readBytes path limit).closeFailure = none →
    (host.readBytes path limit).bytes = some bytes → bytes = tree.content path
  sha256Outcome : ∀ input output, host.sha256Outcome input = .ok output → output = digest input

/-- No two contents that are recorded below the two paths have the same digest. -/
def NoCollision (digest : List UInt8 → List UInt8) (tree tree' : FileTree) (path path' : Text) : Prop :=
  ∀ record record', tree.Recorded path record → tree'.Recorded path' record' →
    digest record.content = digest record'.content → record.content = record'.content

/-- The scanners of a program, with the digest of the last poll that succeeded. -/
inductive Scanner.Run : Scanner → Option (List UInt8) → Prop
  | new : Run {} none
  | limits {scanner : Scanner} {last : Option (List UInt8)} (entryLimit byteLimit depthLimit : Int) :
    Run scanner last → Run { scanner with entryLimit, byteLimit, depthLimit } last
  | succeeded {scanner next : Scanner} {last : Option (List UInt8)} {host : Host} {relative : Text}
    {result : PollResult} : Run scanner last → scanner.poll host relative = some (result, next) →
    result.failure = none → Run next result.digest
  | failed {scanner next : Scanner} {last : Option (List UInt8)} {host : Host} {relative : Text}
    {result : PollResult} {failure : Failure} : Run scanner last →
    scanner.poll host relative = some (result, next) → result.failure = some failure → Run next last

end Neri.Stdlib.Changes
