import Neri.Lib.IntrusiveQueue
import Neri.Lib.KeyedList
import Neri.Lib.Transitions

/-!
# The worker pool

The owner of a pool submits jobs to it, and its workers, each a thread of its own, receive them and
reply. A job that was accepted has a ticket. It waits in the queue of the pool, then it is the
current job of a worker, and it stays in the list of completions until the owner takes it.

Each call holds the mutex of the pool, so that a run of the pool is a sequence of calls. A call that
waits for a condition is one step, taken when the wait is over. The links of a job's record are kept
apart, in one heap of links.
-/

namespace Neri.Runtime

open IntrusiveQueue

/-- The statuses that the calls of a pool return. -/
inductive WorkerStatus where
  | ok
  | empty
  | stopped
  | full
  | invalid
  | limit
  | noMemory
  deriving DecidableEq, Repr

/-- How a job ended. -/
inductive CompletionKind where
  | success
  | failed
  | cancelled
  deriving DecidableEq, Repr

/-- An address that a caller passes. -/
inductive Pointer where
  | null
  | valid
  deriving DecidableEq, Repr

/-- Bytes that a caller passes: an address, and what is behind it. -/
structure Span where
  pointer : Pointer := .valid
  bytes : List UInt8

/-- `length != 0 && bytes == nullptr`. -/
def Span.isInvalid (span : Span) : Bool := span.bytes.length ≠ 0 && span.pointer = .null

/-- The limits of a pool, which its owner chooses. -/
structure WorkerOptions where
  workerCount : Nat
  maxOutstanding : Nat
  maxInputBytes : Nat
  maxOutputBytes : Nat
  maxReservedBytes : Nat
  deriving DecidableEq, Repr

/-- The record of a job. It reserves the bytes of its input and of the largest output. -/
structure Job where
  id : Nat
  reservation : Nat
  kind : CompletionKind := .success
  active : Bool := false
  cancelled : Bool := false
  done : Bool := false
  input : List UInt8
  output : List UInt8 := []
  deriving DecidableEq, Repr

/-- A worker and the state of its thread. -/
structure Worker where
  /-- The thread was started. -/
  started : Bool := false
  /-- The runtime of the thread has a heap, so that its calls find the worker. -/
  heap : Bool := false
  current : Option Nat := none
  ready : Bool := false
  exited : Bool := false
  failed : Bool := false
  error : List UInt8 := []
  deriving DecidableEq, Repr

/-- How the call that writes or reads the byte of a channel ends, when it is not interrupted. -/
inductive ChannelAnswer where
  | done
  | wouldBlock
  | failed

/-- A readiness channel that is open, with the answers of the system to its calls. -/
structure ReadinessChannel where
  windows : Bool := false
  answers : Nat → ChannelAnswer := fun _ => .done
  calls : Nat := 0
  notified : Bool := false
  /-- `channel_failure` has ended the program with a panic. -/
  failed : Bool := false

/-- `readiness_channel::set`. On Windows the byte may still be on its way when it is to be read. -/
def ReadinessChannel.set (channel : ReadinessChannel) (ready : Bool) : ReadinessChannel :=
  if ready = channel.notified then channel
  else
    let called := { channel with calls := channel.calls + 1 }
    match channel.answers channel.calls with
    | .done => { called with notified := ready }
    | .wouldBlock =>
      if ready then { called with failed := true }
      else if channel.windows then called
      else { called with notified := ready }
    | .failed => { called with failed := true }

/-- The channel is notified as `ready` says, or it was left notified by a read that would block. -/
def ReadinessChannel.Tells (channel : ReadinessChannel) (ready : Bool) : Prop :=
  channel.notified = ready ∨
    channel.notified = true ∧ ready = false ∧ channel.windows = true ∧ 0 < channel.calls ∧
      channel.answers (channel.calls - 1) = .wouldBlock

/-- A pool. Its queue and its completions are linked through the records of the jobs. -/
structure Pool where
  options : WorkerOptions
  /-- `open` gave the handle of the pool to the owner. -/
  opened : Bool := false
  workers : List Worker
  jobs : List Job := []
  links : Nat → Link Nat := fun _ => {}
  queued : Queue Nat := {}
  completed : Queue Nat := {}
  nextJob : Nat := 1
  reserved : Nat := 0
  alive : Nat := 0
  stopping : Bool := false
  readiness : ReadinessChannel

/-- What `finish` writes into the record of a job. -/
def Job.finished (j : Job) (kind : CompletionKind) : Job :=
  { j with kind := kind, done := true, output := if kind = .success then j.output else [] }

/-- The text of an error is cut at the size of its buffer. -/
def Worker.fail (w : Worker) (text : List UInt8) : Worker :=
  if w.failed then w else { w with failed := true, error := text.take 4096 }

def mib : Nat := 1024 * 1024

namespace Pool

/-- The pool before its threads are started. -/
def fresh (options : WorkerOptions) (channel : ReadinessChannel) : Pool where
  options := options
  workers := List.replicate options.workerCount {}
  readiness := { windows := channel.windows, answers := channel.answers }

/-- The checks of `neri_rt_v1_worker_pool_open`, and the pool with its channel. -/
def create (options : WorkerOptions) (config : List UInt8) (channel : ReadinessChannel) :
    Except WorkerStatus Pool :=
  if options.workerCount = 0 ∨ options.workerCount > 64 ∨
      options.maxOutstanding = 0 ∨ options.maxOutstanding > 65536 ∨
      options.maxInputBytes > 128 * mib ∨ options.maxOutputBytes > 128 * mib ∨
      options.maxReservedBytes > 1024 * mib ∨ config.length > mib then
    .error .limit
  else
    .ok (fresh options channel)

/-- `p->jobs.find`. -/
def job? (p : Pool) (ticket : Nat) : Option Job := KeyedList.lookup Job.id ticket p.jobs

/-- Writes the record of a job back. -/
def setJob (p : Pool) (j : Job) : Pool := { p with jobs := KeyedList.replace Job.id j p.jobs }

/-- Changes the record of a worker. -/
def modifyWorker (p : Pool) (i : Nat) (change : Worker → Worker) : Pool :=
  { p with workers := p.workers.modify i change }

/-- Links a job at the end of the queue. -/
def appendQueued (p : Pool) (id : Nat) : Pool :=
  { p with
    links := (append p.links p.queued id).1
    queued := (append p.links p.queued id).2 }

def unlinkQueued (p : Pool) (id : Nat) : Pool :=
  { p with
    links := (unlink p.links p.queued id).1
    queued := (unlink p.links p.queued id).2 }

/-- Links a job at the end of the completions. -/
def appendCompleted (p : Pool) (id : Nat) : Pool :=
  { p with
    links := (append p.links p.completed id).1
    completed := (append p.links p.completed id).2 }

def unlinkCompleted (p : Pool) (id : Nat) : Pool :=
  { p with
    links := (unlink p.links p.completed id).1
    completed := (unlink p.links p.completed id).2 }

/-- A poll has something to tell: a completion, or that there will be none any more. -/
def pollReady (p : Pool) : Bool :=
  p.completed.head.isSome || (p.jobs.isEmpty && (p.stopping || p.alive = 0))

/-- `p.readiness.set(poll_ready(p))`. -/
def setReadiness (p : Pool) : Pool := { p with readiness := p.readiness.set p.pollReady }

/-- Moves a job to the completions, out of the queue unless a worker has it. -/
def finish (p : Pool) (j : Job) (kind : CompletionKind) : Pool :=
  let p := if j.active then p else p.unlinkQueued j.id
  ((p.appendCompleted j.id).setJob (j.finished kind)).setReadiness

/-- The loop of `stop_if_unavailable`. Each round takes one job out of the queue. -/
def failQueued : (rounds : Nat) → Pool → Pool
  | 0, p => p
  | rounds + 1, p =>
    match p.queued.head.bind p.job? with
    | some j => failQueued rounds (p.finish j .failed)
    | none => p

/-- A pool without a worker that still works stops, and the jobs of its queue fail. -/
def stopIfUnavailable (p : Pool) : Pool :=
  if p.workers.any fun w => !w.failed && !w.exited then p
  else
    let p := { p with stopping := true }
    (failQueued p.jobs.length p).setReadiness

/-- Ends the current job of a worker, if there is one. -/
def finishCurrent (p : Pool) (i : Nat) (w : Worker) (kind : CompletionKind) : Pool :=
  match w.current.bind p.job? with
  | some j => (p.finish j kind).modifyWorker i fun w => { w with current := none }
  | none => p

/-- A worker fails, and its current job with it. -/
def failure (p : Pool) (i : Nat) (w : Worker) (text : List UInt8) : Pool :=
  ((p.modifyWorker i fun w => w.fail text).finishCurrent i w .failed).stopIfUnavailable

/-! ## The calls of the owner -/

/-- What a call gives back, with the status `ok` where it gives back more than a status. -/
inductive Answer where
  | status (status : WorkerStatus)
  | ticket (id : Nat)
  | completion (ticket length : Nat) (kind : CompletionKind)
  | length (length : Nat)
  | bytes (content : List UInt8)
  | flag (value : Bool)
  deriving DecidableEq, Repr

/-- Puts a new job into the queue. -/
def accept (p : Pool) (j : Job) : Pool :=
  let p := { p with jobs := p.jobs ++ [j] }.appendQueued j.id
  { p with reserved := p.reserved + j.reservation, nextJob := p.nextJob + 1 }

/-- `memory` tells whether the allocations of the call succeed. -/
def submit (p : Pool) (data : Span) (out : Pointer) (memory : Bool) : Answer × Pool :=
  if out = .null ∨ data.isInvalid then (.status .invalid, p)
  else if p.stopping ∨ p.alive = 0 then (.status .stopped, p)
  else if data.bytes.length > p.options.maxInputBytes then (.status .limit, p)
  else
    let reservation := data.bytes.length + p.options.maxOutputBytes
    if p.jobs.length ≥ p.options.maxOutstanding ∨ reservation > p.options.maxReservedBytes ∨
        p.reserved > p.options.maxReservedBytes - reservation then (.status .full, p)
    else if p.nextJob = 2 ^ 64 - 1 then (.status .limit, p)
    else if !memory then (.status .noMemory, p)
    else
      (.ticket p.nextJob,
        p.accept { id := p.nextJob, reservation := reservation, input := data.bytes })

/-- The call sets the readiness before it waits as well, as a call that is over at once does. -/
def poll (p : Pool) (out : Pointer) : Answer × Pool :=
  if out = .null then (.status .invalid, p)
  else
    let p := p.setReadiness
    match p.completed.head.bind p.job? with
    | some j => (.completion j.id j.output.length j.kind, p)
    | none => (.status (if p.pollReady then .stopped else .empty), p)

/-- Gives the reservation of a job back and forgets the job. -/
def release (p : Pool) (j : Job) : Pool :=
  let p := p.unlinkCompleted j.id
  { p with
    reserved := p.reserved - j.reservation
    jobs := KeyedList.remove Job.id j.id p.jobs }

/-- The output of a job is handed over once; after that its ticket is unknown. -/
def take (p : Pool) (ticket : Nat) (out : Pointer) (capacity : Nat) : Answer × Pool :=
  match p.job? ticket with
  | none => (.status .invalid, p)
  | some j =>
    if !j.done then (.status .empty, p)
    else if capacity < j.output.length then (.status .limit, p)
    else if j.output ≠ [] ∧ out = .null then (.status .invalid, p)
    else (.bytes j.output, (p.release j).setReadiness)

/-- A job that a worker has is only marked; one of the queue is finished at once. -/
def cancelJob (p : Pool) (j : Job) : Pool :=
  if j.done then p
  else if j.active then p.setJob { j with cancelled := true }
  else p.finish { j with cancelled := true } .cancelled

def cancel (p : Pool) (ticket : Nat) : Answer × Pool :=
  match p.job? ticket with
  | none => (.status .invalid, p)
  | some j => (.status .ok, p.cancelJob j)

/-- The loop of `stop`, over the tickets in their order. -/
def cancelAll (p : Pool) (tickets : List Nat) : Pool :=
  tickets.foldl (fun p ticket => ((p.job? ticket).map p.cancelJob).getD p) p

/-- No job is accepted any more, and all the jobs are cancelled. -/
def stop (p : Pool) : Pool :=
  let p := { p with stopping := true }
  (p.cancelAll (p.jobs.map (·.id))).setReadiness

/-! ## The calls of a worker -/

/-- A worker reports once that it is ready. -/
def ready (p : Pool) (i : Nat) (w : Worker) : Answer × Pool :=
  if w.failed || w.ready then (.status .invalid, p)
  else if p.stopping then (.status .stopped, p)
  else (.status .ok, p.modifyWorker i fun w => { w with ready := true })

/-- While the call waits, the worker itself does not change. There is no step before the wait is
over. -/
def receive (p : Pool) (i : Nat) (w : Worker) (length : Pointer) : Option (Answer × Pool) :=
  if length = .null ∨ !w.ready ∨ w.failed ∨ w.current ≠ none then some (.status .invalid, p)
  else if p.stopping then some (.status .stopped, p)
  else
    (p.queued.head.bind p.job?).map fun j =>
      (.length j.input.length,
        ((p.unlinkQueued j.id).setJob { j with active := true }).modifyWorker i
          fun w => { w with current := some j.id })

/-- The input of the current job. The worker may read it again. -/
def read (p : Pool) (w : Worker) (out : Pointer) (capacity : Nat) : Answer :=
  match w.current.bind p.job? with
  | none => .status .invalid
  | some j =>
    if w.failed then .status .invalid
    else if capacity < j.input.length then .status .limit
    else if j.input ≠ [] ∧ out = .null then .status .invalid
    else .bytes j.input

/-- `memory` tells whether the copy of the bytes finds memory. -/
def reply (p : Pool) (i : Nat) (w : Worker) (data : Span) (memory : Bool) : Answer × Pool :=
  if data.isInvalid then (.status .invalid, p)
  else
    match w.current.bind p.job? with
    | none => (.status .invalid, p)
    | some j =>
      if w.failed then (.status .invalid, p)
      else if data.bytes.length > p.options.maxOutputBytes then (.status .limit, p)
      else if !j.cancelled ∧ data.bytes.length ≠ 0 ∧ !memory then (.status .noMemory, p)
      else
        let j := if !j.cancelled ∧ data.bytes.length ≠ 0 then { j with output := data.bytes } else j
        (.status .ok, (p.finish j (if j.cancelled then .cancelled else .success)).modifyWorker i
          fun w => { w with current := none })

/-- Whether a worker should give up its current job. -/
def cancelled (p : Pool) (w : Worker) : Bool :=
  p.stopping || w.failed || ((w.current.bind p.job?).any (·.cancelled))

/-- A worker reports that it failed, with a text. -/
def fail (p : Pool) (i : Nat) (w : Worker) (detail : Span) : Answer × Pool :=
  if detail.isInvalid then (.status .invalid, p)
  else (.status .ok, p.failure i w detail.bytes)

def text (message : String) : List UInt8 := message.toUTF8.data.toList

/-- What `run` does with the job of a worker whose thread ends. -/
def leave (p : Pool) (i : Nat) (w : Worker) : Pool :=
  if !w.heap then p.failure i w (text "worker runtime initialization failed")
  else if !w.ready && !p.stopping then p.failure i w (text "worker exited before ready")
  else
    match w.current.bind p.job? with
    | some j =>
      if j.cancelled then p.finishCurrent i w .cancelled
      else p.failure i w (text "worker exited with an active job")
    | none =>
      if !p.stopping && !w.failed then p.failure i w (text "worker exited before stop") else p

/-- The thread of a worker ends. -/
def exit (p : Pool) (i : Nat) (w : Worker) : Pool :=
  let p := (p.leave i w).modifyWorker i fun w => { w with exited := true }
  { p with alive := p.alive - 1 }.stopIfUnavailable

/-! ## The steps of a pool -/

/-- A call of the owner or of a worker, and what the thread of a worker does by itself. -/
inductive Action where
  /-- `open` starts the thread of a worker. -/
  | start (worker : Nat)
  /-- `open` sees that all the workers are ready. -/
  | opened
  | submit (data : Span) (out : Pointer) (memory : Bool)
  | poll (out : Pointer)
  | take (ticket : Nat) (out : Pointer) (capacity : Nat)
  | cancel (ticket : Nat)
  /-- Also the first part of a `close`, and of an `open` that fails. -/
  | stop
  /-- The runtime of a worker's thread is initialized. A thread without it exits. -/
  | initialized (worker : Nat)
  | ready (worker : Nat)
  | receive (worker : Nat) (length : Pointer)
  | read (worker : Nat) (out : Pointer) (capacity : Nat)
  | reply (worker : Nat) (data : Span) (memory : Bool)
  | cancelled (worker : Nat)
  | fail (worker : Nat) (detail : Span)
  | exit (worker : Nat)

/-- The worker whose thread runs. -/
def running? (p : Pool) (i : Nat) : Option Worker :=
  p.workers[i]?.filter fun w => w.started && !w.exited

/-- The worker whose thread runs the entry of the pool. -/
def activeWorker (p : Pool) (i : Nat) : Option Worker := (p.running? i).filter (·.heap)

/-- One step of the pool. There is none where a thread cannot make the call, or still waits in it. -/
def step (p : Pool) : Action → Option (Answer × Pool)
  | .start i =>
    (p.workers[i]?.filter fun w => !w.started && !p.opened).map fun _ =>
      (.status .ok,
        { p.modifyWorker i (fun w => { w with started := true }) with alive := p.alive + 1 })
  | .opened =>
    if p.workers.all fun w => w.started && w.ready && !w.failed && !w.exited then
      some (.status .ok, { p with opened := true })
    else none
  | .submit data out memory => if p.opened then some (p.submit data out memory) else none
  | .poll out => if p.opened then some (p.poll out) else none
  | .take ticket out capacity => if p.opened then some (p.take ticket out capacity) else none
  | .cancel ticket => if p.opened then some (p.cancel ticket) else none
  | .stop => some (.status .ok, p.stop)
  | .initialized i =>
    ((p.running? i).filter fun w => !w.heap).map fun _ =>
      (.status .ok, p.modifyWorker i fun w => { w with heap := true })
  | .ready i => (p.activeWorker i).map (p.ready i)
  | .receive i length => (p.activeWorker i).bind fun w => p.receive i w length
  | .read i out capacity => (p.activeWorker i).map fun w => (p.read w out capacity, p)
  | .reply i data memory => (p.activeWorker i).map fun w => p.reply i w data memory
  | .cancelled i => (p.activeWorker i).map fun w => (.flag (p.cancelled w), p)
  | .fail i detail => (p.activeWorker i).map fun w => p.fail i w detail
  | .exit i => (p.running? i).map fun w => (.status .ok, p.exit i w)

/-! ## Where a ticket is -/

/-- The tickets that were accepted and not taken. -/
def tickets (p : Pool) : List Nat := p.jobs.map (·.id)

/-- The tickets of the queue, in its order. -/
def queuedTickets (p : Pool) : List Nat := walk p.links p.jobs.length p.queued.head

/-- The tickets of the completions, in their order. -/
def completedTickets (p : Pool) : List Nat := walk p.links p.jobs.length p.completed.head

/-- The ticket is that of the worker's current job. -/
def ActiveOn (p : Pool) (i ticket : Nat) : Prop :=
  ∃ w, p.workers[i]? = some w ∧ w.current = some ticket

/-- A ticket is in the queue, with one worker, or among the completions, once, and nowhere else. -/
inductive InOnePlace (p : Pool) (ticket : Nat) : Prop
  | queued : p.queuedTickets.count ticket = 1 → (∀ i, ¬p.ActiveOn i ticket) →
      ticket ∉ p.completedTickets → InOnePlace p ticket
  | active : ticket ∉ p.queuedTickets → (∃! i, p.ActiveOn i ticket) →
      ticket ∉ p.completedTickets → InOnePlace p ticket
  | completed : ticket ∉ p.queuedTickets → (∀ i, ¬p.ActiveOn i ticket) →
      p.completedTickets.count ticket = 1 → InOnePlace p ticket

end Pool

/-- The steps of a run, each with the pools before and after it. -/
abbrev PoolTrace := List (Transitions.Transition Pool Pool.Action Pool.Answer)

/-- The tickets that `submit` gave out. -/
def PoolTrace.accepted (trace : PoolTrace) : List Nat :=
  trace.filterMap fun t => match t.answer with
    | .ticket id => some id
    | _ => none

/-- The tickets whose outputs were taken. -/
def PoolTrace.taken (trace : PoolTrace) : List Nat :=
  trace.filterMap fun t => match t.action, t.answer with
    | .take ticket _ _, .bytes _ => some ticket
    | _, _ => none

/-- How often a ticket came to the completions. -/
def PoolTrace.completions (trace : PoolTrace) (ticket : Nat) : Nat :=
  trace.countP fun t =>
    ticket ∉ t.before.completedTickets ∧ ticket ∈ t.after.completedTickets

end Neri.Runtime
