import TyloQuant.Engine.Events
import TyloQuant.Lib.Table
import TyloQuant.Lib.Transition

/-!
# The request executor

The executor holds the requests of an engine.  `step` lets the shared execution and then each
request's generation do a quantum of work; a request that is done leaves with a terminal event.

What the backend does is the `Environment` of a step: its calls may throw anything.  The table is
an `unordered_map`: a step goes through it in any order.
-/

namespace TyloQuant.RequestExecutor

open Lib Engine

/-! ### Exceptions -/

/-- An exception, by the handler that catches it. -/
inductive Failure where
  | resourceExhausted (what : Text)
  | inputError (unsupported : Bool) (what : Text)
  | invalidArgument (what : Text)
  | backendFailure (what : Text)
  | other (what : Text)
  | unknown
deriving DecidableEq

/-! ### Requests -/

structure ExecutionRequest where
  promptTokens : Nat
  cancelled : Bool := false
  failure : Option Failure := none
  started : Bool := false
  batched : Bool := false
  done : Bool := false
deriving DecidableEq

def ExecutionRequest.complete (request : ExecutionRequest) (error : Option Failure) :
    ExecutionRequest :=
  { request with done := true, failure := error }

structure Executor where
  capacity : Nat
  capacity_lt : capacity < 2 ^ 64
  healthy : Bool := true
  requests : Table RequestId ExecutionRequest := ∅

inductive Admission where
  | accepted
  | deferred
deriving DecidableEq

/-! ### The environment -/

inductive StepState where
  | waiting
  | advanced
  | complete
deriving DecidableEq

/-- What a generation yields: progress and output, and no terminal event. -/
abbrev Value := { data : EventData // data.terminal = false }

/-- The output that is left when a request is finished. -/
structure Finished where
  tokenIds : List Int := []
  diffs : List MessageDiff := []
  completionTokens : Nat := 0
  finishReason : Text

/-- What the backend does for a request in a step, as far as it is asked. -/
structure Quantum where
  generate : Option Failure := none
  next : Except Failure (StepState × Option Value) := .ok (.complete, none)
  /-- `cleanup_failure`, when the generation is gone. -/
  cleanup : Option Failure := none
  finish : Except Failure Finished

structure Environment where
  execute : Option Failure := none
  quantum : RequestId → Quantum
  exclusive : Bool := false

/-! ### Admission -/

namespace Executor

/-- `status().available`; the subtraction is that of `size_t`. -/
def available (executor : Executor) (exclusive : Bool) : Nat :=
  if !executor.healthy || exclusive ||
      executor.requests.entries.any (fun entry => !entry.2.batched) then 0
  else (executor.capacity + 2 ^ 64 - executor.requests.entries.length) % 2 ^ 64

/-- `admit`.  `prepared` is the number of prompt tokens, or what the preparation of the request
    throws. -/
def admitRequest (executor : Executor) (id : RequestId) (batched exclusive : Bool)
    (prepared : Except Failure Nat) : Except Failure (Admission × Executor) :=
  if id ∈ executor.requests then .error (.invalidArgument (text "duplicate request ID"))
  else if executor.available exclusive = 0 ∨ (!batched ∧ executor.requests.entries ≠ []) then
    .ok (.deferred, executor)
  else
    match prepared with
    | .error error => .error error
    | .ok promptTokens =>
      .ok (.accepted, { executor with
        requests := executor.requests.insert id { promptTokens, batched } })

def cancel (executor : Executor) (id : RequestId) : Executor :=
  match executor.requests.lookup id with
  | none => executor
  | some request =>
    { executor with requests := executor.requests.insert id { request with cancelled := true } }

/-! ### A step -/

/-- The requests for which `p` holds fail. -/
def fail (executor : Executor) (error : Failure) (p : RequestId → Bool) : Executor :=
  { executor with
    requests := Table.mapVal (fun id request =>
      if p id then request.complete (some error) else request) executor.requests }

/-- What is left of a call of `ops.execute`. -/
def afterExecute (executor : Executor) (eligible : List RequestId) : Option Failure → Executor
  | none => executor
  | some .unknown =>
    ({ executor with healthy := false } : Executor).fail .unknown fun _ => true
  | some (.backendFailure what) =>
    ({ executor with healthy := false } : Executor).fail (.backendFailure what) fun _ => true
  | some error => executor.fail error fun id => eligible.contains id

end Executor

/-- The handlers of `finish`: the terminal event of a failed request, and whether the backend is
    still healthy. -/
def failed (healthy : Bool) : Failure → Failed × Bool
  | .resourceExhausted what =>
    ({ code := text (if healthy then "resource_exhausted" else "backend_failure")
       message := what
       retryable := healthy }, healthy)
  | .inputError unsupported what =>
    ({ code := text
        (if !healthy then "backend_failure"
          else if unsupported then "unsupported_input" else "invalid_request")
       message := what }, healthy)
  | .invalidArgument what =>
    ({ code := text (if healthy then "invalid_request" else "backend_failure")
       message := what }, healthy)
  | .backendFailure what => ({ code := text "backend_failure", message := what }, false)
  | .other what => ({ code := text "backend_failure", message := what }, healthy)
  | .unknown =>
    ({ code := text "backend_failure", message := text "unknown execution failure" }, false)

/-- `finish`: the last events of a request, and whether the backend is still healthy. -/
def finish (healthy : Bool) (request : ExecutionRequest) (quantum : Quantum) :
    List EventData × Bool :=
  match request.failure, quantum.finish with
  | some error, _ | none, .error error =>
    ([.failed (failed healthy error).1], (failed healthy error).2)
  | none, .ok output =>
    let usage := {
      promptTokens := request.promptTokens
      completionTokens := output.completionTokens }
    ((if output.diffs.isEmpty then [] else [.outputDelta output.tokenIds output.diffs]) ++
      [.usageUpdate usage,
        if request.cancelled then .cancelled usage else .completed output.finishReason usage],
      healthy)

/-- The quantum of a generation: what is left of the request, whether it advanced, and the value
    it yields. -/
def resume (request : ExecutionRequest) (quantum : Quantum) :
    ExecutionRequest × Bool × List EventData :=
  match (if request.started then none else quantum.generate), quantum.next with
  | some error, _ | none, .error error =>
    (({ request with started := true } : ExecutionRequest).complete (some error), false, [])
  | none, .ok (state, value) =>
    let request := { request with started := true }
    (if state = .complete then request.complete none else request, state = .advanced,
      (value.map Subtype.val).toList)

structure EngineEvent where
  id : RequestId
  data : EventData
deriving DecidableEq

/-- The executor in the loop of a step, and the results so far. -/
structure Progress where
  executor : Executor
  advanced : List RequestId := []
  events : List EngineEvent := []

namespace Progress

/-- The end of a visit: a request that is done is finished and leaves the table. -/
def settle (progress : Progress) (id : RequestId) (request : ExecutionRequest)
    (quantum : Quantum) : Progress :=
  if !request.done then
    { progress with executor := { progress.executor with
        requests := progress.executor.requests.insert id request } }
  else
    let healthy := progress.executor.healthy && quantum.cleanup.isNone
    let request := { request with failure := quantum.cleanup.or request.failure }
    let (events, healthy) := finish healthy request quantum
    { progress with
      executor := { progress.executor with
        healthy
        requests := progress.executor.requests.erase id }
      events := progress.events ++ events.map (EngineEvent.mk id) }

/-- The visit of one request. -/
def visit (environment : Environment) (eligible : List RequestId) (progress : Progress)
    (id : RequestId) : Progress :=
  match progress.executor.requests.lookup id with
  | none => progress
  | some request =>
    let quantum := environment.quantum id
    if !request.done && (request.cancelled || eligible.contains id) then
      let (request, advanced, values) := resume request quantum
      ({ progress with
        advanced := if advanced then progress.advanced ++ [id] else progress.advanced
        events := progress.events ++ values.map (EngineEvent.mk id) } : Progress).settle id
          request quantum
    else progress.settle id request quantum

end Progress

structure StepResult where
  advanced : List RequestId
  events : List EngineEvent
  available : Nat
  healthy : Bool
  hasWork : Bool

/-- `step`, which goes through the table in the given order. -/
def Executor.step (executor : Executor) (eligible order : List RequestId)
    (environment : Environment) : StepResult × Executor :=
  let progress := order.foldl (Progress.visit environment eligible)
    { executor := executor.afterExecute eligible environment.execute }
  ({ advanced := progress.advanced
     events := progress.events
     available := progress.executor.available environment.exclusive
     healthy := progress.executor.healthy
     hasWork := !progress.executor.requests.entries.isEmpty }, progress.executor)

end TyloQuant.RequestExecutor
