import Mathlib.Logic.Function.Basic
import TyloQuant.Lib.Transition

/-!
# The stdio client

`StdioRuntimeClient` talks to one worker process over its pipes, a line for every frame.  Every
call has a request id and a bounded queue of its own; one reader task puts the worker's frames into
the queues.  A step is what happens between two awaits.
-/

namespace TyloQuant.StdioClient

/-- What the worker answers to a request. -/
inductive Frame (D : Type) where
  | event (data : D)
  | result
  | done
  | error
  | other
deriving DecidableEq, Repr

/-- A line that the worker sends. -/
inductive Line (D : Type) where
  | ready
  | frame (id : Nat) (body : Frame D)
  /-- What the reader refuses: no JSON, another version, no id, too long. -/
  | invalid
deriving DecidableEq, Repr

/-- An item of a queue: a frame with its id, or a `BackendError`. -/
inductive Item (D : Type) where
  | frame (id : Nat) (body : Frame D)
  | failure
deriving DecidableEq, Repr

inductive Kind where
  | generate
  | unary
  | realtime
deriving DecidableEq, Repr

/-- A frame that the client writes. -/
inductive Written where
  | request (id : Nat) (kind : Kind)
  | cancel (id : Nat)
  | shutdown
deriving DecidableEq, Repr

/-- The two frames that a call writes. -/
inductive Write where
  | request
  | cancel
deriving DecidableEq, Repr

/-- Where a call stands. -/
inductive Phase where
  /-- It waits for the write lock. -/
  | lockWait (w : Write)
  /-- It has written a frame and awaits `drain`. -/
  | drain (w : Write)
  /-- The caller has the control. -/
  | idle
  | getting
  /-- The generator has ended or raised. -/
  | dead
  | ended
deriving DecidableEq, Repr

structure Call (D : Type) where
  kind : Kind
  queue : List (Item D) := []
  /-- `_pending` has the queue. -/
  pending : Bool := true
  phase : Phase := .idle
  finished : Bool := false
  /-- What the generator has yielded. -/
  yielded : List D := []
  /-- The frames that the caller has taken from the queue. -/
  got : List (Nat × Frame D) := []
  /-- The generator has ended with `done`. -/
  complete : Bool := false
  /-- The client and its pipe were open when the call ended. -/
  openAtEnd : Bool := false
deriving DecidableEq, Repr

inductive Holder where
  | call (id : Nat)
  | shutdown
deriving DecidableEq, Repr

structure Client (D : Type) where
  calls : Nat → Option (Call D) := fun _ => none
  /-- The next request id. -/
  ids : Nat := 1
  ready : Bool := false
  reading : Bool := true
  terminalError : Bool := false
  closed : Bool := false
  /-- `stdin` is neither closed nor broken. -/
  pipe : Bool := true
  writeLock : Option Holder := none
  written : List Written := []
  /-- What the worker has sent: what the reader has read, and what is on the way. -/
  read : List (Line D) := []
  wire : List (Line D) := []

structure Config (D : Type) where
  /-- `max(1, pending_event_limit)`. -/
  limit : Nat
  limit_pos : 0 < limit
  /-- The encoded frame is not longer than `max_frame_bytes`. -/
  fits : Written → Bool
  /-- `_openai_generation_event` takes the data. -/
  valid : D → Bool

inductive Event (D : Type) where
  /-- `_open`, when the client is ready. -/
  | opening (kind : Kind)
  /-- A waiter gets the write lock. -/
  | grant (id : Nat)
  | drained (id : Nat)
  /-- `drain` raises, because the pipe is closed or broken. -/
  | drainFailed (id : Nat)
  /-- The caller asks for the next event. -/
  | next (id : Nat)
  | wake (id : Nat)
  | timeout (id : Nat)
  /-- The caller leaves the context of `generate` or of a realtime connection. -/
  | leave (id : Nat)
  | cancel (id : Nat)
  | send (line : Line D)
  | readLine
  /-- The reader comes to the end of `stdout`, or fails. -/
  | stopReader
  | breakPipe
  | shutdown
  | shutdownDrained
  | close
  /-- `aclose` has cancelled the reader. -/
  | cancelReader
  | failClosed

variable {D : Type}

namespace Call

/-- `queue.put_nowait(frame)`, and what the reader does when the queue is full. -/
def put (limit : Nat) (c : Call D) (id : Nat) (body : Frame D) : Call D :=
  if c.queue.length < limit then { c with queue := c.queue ++ [.frame id body] }
  else { c with pending := false, queue := [.failure] }

/-- `_fail_pending` takes the first item of a full queue off. -/
def makeRoom (limit : Nat) (queue : List (Item D)) : List (Item D) :=
  if queue.length < limit then queue else queue.drop 1

/-- What `_fail_pending` does to the queue of a pending call. -/
def fail (limit : Nat) (c : Call D) : Call D :=
  if c.pending then
    if (makeRoom limit c.queue).length < limit then
      { c with queue := makeRoom limit c.queue ++ [.failure] }
    else { c with queue := makeRoom limit c.queue }
  else c

def record (c : Call D) : Item D → Call D
  | .frame id body => { c with got := c.got ++ [(id, body)] }
  | .failure => c

/-- The loop of the generator of `generate`, on the item that it has taken. -/
def generate (cfg : Config D) (c : Call D) : Item D → Call D
  | .frame _ (.event data) =>
    if cfg.valid data then { c with yielded := c.yielded ++ [data], phase := .idle }
    else { c with phase := .dead }
  | .frame _ .done => { c with finished := true, complete := true, phase := .dead }
  | .frame _ .error => { c with finished := true, phase := .dead }
  | _ => { c with phase := .dead }

/-- `__aenter__` and `__anext__` of a realtime connection. -/
def realtime (c : Call D) : Item D → Call D
  | .frame _ (.event _) => { c with phase := .idle }
  | .frame _ .result => { c with phase := .idle }
  | _ => { c with phase := .dead }

end Call

namespace Client

/-- The client takes requests and the pipe takes frames. -/
def isOpen (s : Client D) : Bool := !s.closed && !s.terminalError && s.pipe

def setCall (s : Client D) (id : Nat) (c : Call D) : Client D :=
  { s with calls := Function.update s.calls id (some c) }

/-- The call ends; its queue is not pending any more. -/
def finish (s : Client D) (id : Nat) (c : Call D) : Client D :=
  s.setCall id { c with phase := .ended, pending := false, openAtEnd := s.isOpen }

def frameOf (id : Nat) (kind : Kind) : Write → Written
  | .request => .request id kind
  | .cancel => .cancel id

/-- `stdin.write`, with the lock. -/
def write (s : Client D) (id : Nat) (c : Call D) (w : Write) : Client D :=
  setCall { s with
    writeLock := some (.call id)
    written := s.written ++ [frameOf id c.kind w] } id { c with phase := .drain w }

def lockFree (s : Client D) : Bool :=
  s.writeLock.isNone && !(List.range s.ids).any fun id =>
    (s.calls id).any fun c => c.phase = .lockWait .request ∨ c.phase = .lockWait .cancel

/-- `_write` behind its checks. -/
def beginWrite (s : Client D) (id : Nat) (c : Call D) (w : Write) : Client D :=
  if s.lockFree then s.write id c w else s.setCall id { c with phase := .lockWait w }

/-- `_notify("request.cancel", …)`, whose errors are suppressed. -/
def notifyCancel (cfg : Config D) (s : Client D) (id : Nat) (c : Call D) : Client D :=
  if s.terminalError ∨ s.closed ∨ ¬cfg.fits (.cancel id) ∨ ¬s.pipe then s.finish id c
  else s.beginWrite id c .cancel

/-- The `finally` of `generate`; a realtime connection gives its queue up. -/
def leave (cfg : Config D) (s : Client D) (id : Nat) (c : Call D) : Client D :=
  if c.kind = .generate ∧ ¬c.finished ∧ ¬s.closed then
    s.notifyCancel cfg id { c with pending := false }
  else s.finish id c

def opening (cfg : Config D) (s : Client D) (kind : Kind) : Option (Client D) :=
  if ¬s.ready then none
  else if s.terminalError ∨ s.closed then some s
  else
    let s' := { s with ids := s.ids + 1 }
    if ¬cfg.fits (.request s.ids kind) ∨ ¬s.pipe then some (s'.finish s.ids { kind })
    else some (s'.beginWrite s.ids { kind } .request)

def unlock (s : Client D) : Client D := { s with writeLock := none }

/-- `drain` returns. -/
def drained (s : Client D) (id : Nat) (c : Call D) : Write → Client D
  | .request =>
    s.unlock.setCall id { c with phase := if c.kind = .generate then .idle else .getting }
  | .cancel => s.unlock.finish id c

/-- The caller takes the first item. -/
def take (cfg : Config D) (s : Client D) (id : Nat) (c : Call D) : Option (Client D) :=
  match c.queue with
  | [] => none
  | item :: queue =>
    let c := { c with queue }.record item
    match c.kind with
    | .generate => some (s.setCall id (c.generate cfg item))
    | .unary => some (s.finish id c)
    | .realtime => some (s.setCall id (c.realtime item))

/-- `CancelledError` at the await of the call, or where its caller has the control. -/
def cancel (cfg : Config D) (s : Client D) (id : Nat) (c : Call D) : Client D :=
  match c.phase, c.kind with
  | .lockWait _, _ => s.finish id c
  | .drain _, _ => s.unlock.finish id c
  | .getting, .unary => s.finish id c
  | .getting, .realtime => s.setCall id { c with phase := .dead }
  | .ended, _ => s
  | _, _ => s.leave cfg id c

def failPending (cfg : Config D) (s : Client D) : Client D :=
  { s with calls := fun id => (s.calls id).map (Call.fail cfg.limit) }

/-- The end of the reader task. -/
def stopReader (cfg : Config D) (s : Client D) : Client D :=
  failPending cfg { s with reading := false, ready := true, terminalError := true }

/-- The reader takes a line. -/
def readLine (cfg : Config D) (s : Client D) : Option (Client D) :=
  if ¬s.reading then none
  else
    match s.wire with
    | [] => none
    | line :: wire =>
      let s := { s with read := s.read ++ [line], wire }
      match line with
      | .ready => some { s with ready := true }
      | .invalid => some (s.stopReader cfg)
      | .frame id body =>
        match s.calls id with
        | some c => some (if c.pending then s.setCall id (c.put cfg.limit id body) else s)
        | none => some s

def step (cfg : Config D) (s : Client D) : Event D → Option (Client D)
  | .opening kind => s.opening cfg kind
  | .grant id =>
    match s.calls id with
    | some c =>
      match c.phase with
      | .lockWait w => if s.writeLock.isNone then some (s.write id c w) else none
      | _ => none
    | none => none
  | .drained id =>
    match s.calls id with
    | some c =>
      match c.phase with
      | .drain w => some (s.drained id c w)
      | _ => none
    | none => none
  | .drainFailed id =>
    match s.calls id with
    | some c =>
      match c.phase with
      | .drain _ => if s.pipe then none else some (s.unlock.finish id c)
      | _ => none
    | none => none
  | .next id =>
    match s.calls id with
    | some c =>
      if c.phase = .idle then
        if c.queue = [] then some (s.setCall id { c with phase := .getting })
        else s.take cfg id c
      else none
    | none => none
  | .wake id =>
    match s.calls id with
    | some c => if c.phase = .getting then s.take cfg id c else none
    | none => none
  | .timeout id =>
    match s.calls id with
    | some c =>
      if c.phase = .getting ∧ c.kind = .unary then some (s.notifyCancel cfg id c) else none
    | none => none
  | .leave id =>
    match s.calls id with
    | some c =>
      if c.kind ≠ .unary ∧ (c.phase = .idle ∨ c.phase = .dead) then some (s.leave cfg id c)
      else none
    | none => none
  | .cancel id =>
    match s.calls id with
    | some c => some (s.cancel cfg id c)
    | none => none
  | .send line => some { s with wire := s.wire ++ [line] }
  | .readLine => s.readLine cfg
  | .stopReader => if s.reading then some (s.stopReader cfg) else none
  | .breakPipe => some { s with pipe := false }
  | .shutdown =>
    if s.lockFree ∧ s.pipe then
      some { s with writeLock := some .shutdown, written := s.written ++ [.shutdown] }
    else none
  | .shutdownDrained => if s.writeLock = some .shutdown then some s.unlock else none
  | .close => some { s with closed := true, pipe := false }
  | .cancelReader => if s.closed then some { s with reading := false, ready := true } else none
  | .failClosed => if s.closed ∧ ¬s.reading then some (s.failPending cfg) else none

/-- A client before its first call. -/
def init : Client D := {}

end Client

end TyloQuant.StdioClient
