import TyloQuant.Engine.Events
import TyloQuant.Lib.Transition

/-!
# The outbox of a scheduled request

The scheduler publishes the events of a request into an outbox that the client drains.  The
outbox is bounded by events and bytes; one event and `terminal_reserve` bytes of it are kept for
the terminal event.  What does not fit waits in `pending`, behind what waits there already.

The bound rests on one terminal event.  `publish` stops at a terminal event in the outbox, not at
one that waits: a second terminal event waits behind the first, and `flush` gives both the space
of one.
-/

namespace TyloQuant.Scheduler

open Lib Engine

/-! ### Events -/

/-- The sizes of `EngineEvent` and `common_chat_msg_diff`. -/
structure Sizes where
  event : Nat
  diff : Nat
  event_le : event + 128 + 64 + 512 ≤ 4096

def Sizes.terminalReserve (sizes : Sizes) : Nat := sizes.event + 128 + 64 + 512

def diffBytes (diff : MessageDiff) : Nat :=
  diff.contentDelta.length + diff.reasoningContentDelta.length +
    (diff.toolCallDelta.name.length + diff.toolCallDelta.arguments.length +
      diff.toolCallDelta.id.length)

def Sizes.eventBytes (sizes : Sizes) : EventData → Nat
  | .outputDelta tokenIds diffs =>
    sizes.event + (tokenIds.length * 8 + diffs.length * sizes.diff) + (diffs.map diffBytes).sum
  | .completed finishReason _ => sizes.event + finishReason.length
  | .failed failure => sizes.event + (failure.code.length + failure.message.length)
  | _ => sizes.event

/-- The texts of a terminal event are cut to the sizes that the reserve has room for. -/
def truncate : EventData → EventData
  | .failed failure =>
    .failed { failure with code := failure.code.take 64, message := failure.message.take 512 }
  | .completed finishReason usage => .completed (finishReason.take 64) usage
  | data => data

/-! ### Requests -/

/-- The limits that the constructor accepts. -/
structure Limits where
  events : Nat
  bytes : Nat
  events_ge : 4 ≤ events
  bytes_ge : 4096 ≤ bytes

structure Config where
  sizes : Sizes
  limits : Limits

/-- An id that `submit` accepts. -/
structure SubmittedId where
  text : Text
  nonempty : text ≠ []
  length_le : text.length ≤ 128

/-- The events of one request; each carries the id of the request. -/
structure Outbox where
  events : List EventData := []
  bytes : Nat := 0
  terminal : Bool := false
deriving DecidableEq

structure Request where
  id : SubmittedId
  outbox : Outbox := {}
  admitted : Bool := false
  cancelling : Bool := false
  finished : Bool := false
  failure : Option Failed := none
  pending : List EventData := []

namespace Request

variable (c : Config)

/-- The bytes that an event of the request is accounted for. -/
def accounted (request : Request) (data : EventData) : Nat :=
  c.sizes.eventBytes data + request.id.text.length

/-- What non-terminal events may take. -/
def openBytes : Nat := c.limits.bytes - c.sizes.terminalReserve

/-- A non-terminal event has to wait. -/
def full (request : Request) (data : EventData) : Bool :=
  c.limits.events - 1 ≤ request.outbox.events.length ||
    openBytes c < request.outbox.bytes + request.accounted c data

def push (request : Request) (data : EventData) : Request :=
  { request with outbox := {
      events := request.outbox.events ++ [data]
      bytes := request.outbox.bytes + request.accounted c data
      terminal := data.terminal } }

def outputLimit : Failed where
  code := text "output_limit"
  message := text "engine output exceeds the request outbox budget"

/-- The end of `publish`: the event is cut, refused, parked or sent.  The flag says that it was
    refused for its size, and the request is to be cancelled. -/
def place (request : Request) (data : EventData) : Request × Bool :=
  let data := truncate data
  if !data.terminal && openBytes c < request.accounted c data then
    ({ request with failure := some outputLimit }, true)
  else if !request.pending.isEmpty || (!data.terminal && request.full c data) then
    ({ request with pending := request.pending ++ [data] }, false)
  else (request.push c data, false)

/-- `publish`, up to the end of its lock. -/
def publishLocked (request : Request) (data : EventData) : Request × Bool :=
  if request.outbox.terminal then (request, false)
  else
    let request := { request with finished := request.finished || data.terminal }
    match request.failure with
    | none => request.place c data
    | some failure =>
      if data.terminal then request.place c (.failed failure) else (request, false)

/-- `cancel`, up to its call of the engine.  Of its own events none is refused for its size but
    a parked one whose request is finished, and then nothing is left to cancel. -/
def cancel (request : Request) : Request :=
  if request.finished then
    match request.pending.getLast? with
    | none => request
    | some terminal => (({ request with pending := [] } : Request).publishLocked c terminal).1
  else if request.cancelling then request
  else
    let request := { request with cancelling := true, pending := [] }
    if request.admitted then request
    else (request.publishLocked c (.cancelled {})).1

/-- `wait` takes the events out. -/
def drain (request : Request) : Request :=
  { request with outbox := { request.outbox with events := [], bytes := 0 } }

/-- `publish`.  A client may drain the outbox between the lock and the call of `cancel`. -/
def publish (request : Request) (data : EventData) (drained : Bool) : Request :=
  match request.publishLocked c data with
  | (request, false) => request
  | (request, true) => (if drained then request.drain else request).cancel c

/-- The loop of `flush`. -/
def flushLoop (request : Request) : List EventData → Request
  | [] => { request with pending := [] }
  | data :: pending =>
    if !data.terminal && request.full c data then { request with pending := data :: pending }
    else flushLoop (request.push c data) pending

def flush (request : Request) : Request := request.flushLoop c request.pending

def deadlineExceeded : Failed where
  code := text "deadline_exceeded"
  message := text "request deadline expired before the engine completed the request"

def expire (request : Request) : Request :=
  if request.cancelling || request.finished then request
  else ({ request with failure := some deadlineExceeded } : Request).cancel c

end Request

/-! ### Runs -/

/-- What the scheduler and the client do with a request, in any order: the events are those of
    the engine, of a refused admission and of a recovery. -/
inductive Action where
  | admitRequest
  | publish (data : EventData) (drained : Bool)
  | flush
  | cancel
  | expire
  | wait

def step (c : Config) (request : Request) : Action → Option Request
  | .admitRequest => some { request with admitted := true }
  | .publish data drained => some (request.publish c data drained)
  | .flush => some (request.flush c)
  | .cancel => some (request.cancel c)
  | .expire => some (request.expire c)
  | .wait =>
    if request.outbox.terminal || !request.outbox.events.isEmpty then some request.drain else none

end TyloQuant.Scheduler
