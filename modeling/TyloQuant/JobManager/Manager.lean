import TyloQuant.JobStore.Lifecycle
import TyloQuant.Lib.Transition

/-!
# The job manager

`JobManager` runs the jobs of the store, one asyncio task for each job, beside the coroutines of
its callers.  Between two awaits a coroutine runs alone; a store call is made in a worker thread,
where it is one transaction.  So an action is one stretch of a coroutine or of a task, or the
transaction of one store call.

When a task is cancelled the exception is raised at the await where it stands.  The store call it
waited for is dropped if its thread has not begun, and otherwise runs later, unwaited for.

Every entry of `_cancel_events` comes and goes with that of `_tasks`, so the event is a field of the
task.  Left out: what a handler stores while it runs, and the callers' own cancellation.
-/

namespace TyloQuant.JobManager

open Lib JobStore

/-! ### Store calls -/

/-- The calls of the store that concern one job. -/
inductive StoreCall (U J : Type) where
  | getJob (jobId : U)
  | createJob (kind : String) (payload : J) (jobId : U)
  | claimJob (jobId : U)
  | completeJob (jobId : U) (result : J)
  | failJob (jobId : U) (error : ErrorDetail J)
  | cancelJob (jobId : U)
  | interruptJob (jobId : U)
  | requeueJob (jobId : U) (payload : Option J)
  | requestJobCancel (jobId : U)
deriving DecidableEq

abbrev Reply (U J : Type) := Except (StorageError U) (Job J)

namespace StoreCall

variable {U J : Type}

def jobId : StoreCall U J → U
  | getJob j | createJob _ _ j | claimJob j | completeJob j _ | failJob j _ | cancelJob j
  | interruptJob j | requeueJob j _ | requestJobCancel j => j

def perform [DecidableEq U] (c : Jobs U J) (now : Nat) : StoreCall U J → Reply U J × Jobs U J
  | getJob j => (c.getJob j, c)
  | createJob kind payload j => c.createJob kind payload j now
  | claimJob j => c.claimJob j now
  | completeJob j result => c.completeJob j result now
  | failJob j error => c.failJob j error now
  | cancelJob j => c.cancelJob j now
  | interruptJob j => c.interruptJob j now
  | requeueJob j payload => c.requeueJob j payload now
  | requestJobCancel j => c.requestJobCancel j now

end StoreCall

/-! ### Configuration -/

inductive Lane where
  | download
  | runtime
  | other
deriving DecidableEq, Repr

/-- Which of the three semaphores a job of this kind takes. -/
def laneOf (kind : String) : Lane :=
  if kind.startsWith "download." || kind.endsWith ".download" then .download
  else if kind.startsWith "model." || kind.startsWith "runtime." then .runtime
  else .other

/-- The kinds that are resumed under their own id. -/
def hubDownload (kind : String) : Bool :=
  kind == "download.huggingface" || kind == "download.modelscope"

/-- `json` writes a text as JSON, `str` is the text of an exception of the store. -/
structure Config (U J : Type) where
  handlers : List String
  maxConcurrency : Nat
  json : String → J
  str : StorageError U → String

/-- The class of an exception of the store. -/
def typeName {U : Type} : StorageError U → String
  | .jobNotFound _ => "JobNotFoundError"
  | .invalidJobState _ => "InvalidJobStateError"
  | .valueError _ => "ValueError"
  | .integrity => "IntegrityError"

namespace Config

variable {U J : Type}

/-- What the last `except` clause of `_run` records about an exception. -/
def failure (cfg : Config U J) (message typeName : String) : ErrorDetail J :=
  { code := "job_execution_failed"
    message := if message = "" then typeName else message
    retryable := false
    details := [("exception_type", cfg.json typeName)] }

def storageFailure (cfg : Config U J) (e : StorageError U) : ErrorDetail J :=
  cfg.failure (cfg.str e) (typeName e)

end Config

/-! ### Tasks -/

/-- Where `_run` stands.  The phases from `checking` to `completing` hold a permit of the lane. -/
inductive Phase (J : Type) where
  | created
  | reading
  | waiting (lane : Lane)
  | checking (lane : Lane)
  | refusing (lane : Lane) (detail : ErrorDetail J)
  | claiming (lane : Lane)
  | handling (lane : Lane) (payload : J)
  | completing (lane : Lane) (result : J)
  | failing (detail : ErrorDetail J)
  | cancelling
  | interrupting
  | rereading
  | requeueing
  | cleaning
  | ended
deriving DecidableEq

/-- How a handler ends. -/
inductive Outcome (J : Type) where
  | returned (result : J)
  | failed (detail : ErrorDetail J)
  | raised (message typeName : String)
  | cancelled

/-- A task running `_run`.  `reply` is what the store call of the phase has returned, and
    `mustCancel` says that the next thing to happen in the task is a `CancelledError`. -/
structure Task (U J : Type) where
  jobId : U
  phase : Phase J
  reply : Option (Reply U J) := none
  mustCancel : Bool := false
  cancelEvent : Bool := false

section Tasks

variable {U J : Type}

def Phase.lane : Phase J → Option Lane
  | .checking l | .refusing l _ | .claiming l | .handling l _ | .completing l _ => some l
  | _ => none

/-- The store call that the phase awaits. -/
def Phase.call (jobId : U) : Phase J → Option (StoreCall U J)
  | .reading | .checking _ | .rereading => some (.getJob jobId)
  | .refusing _ detail | .failing detail => some (.failJob jobId detail)
  | .claiming _ => some (.claimJob jobId)
  | .completing _ result => some (.completeJob jobId result)
  | .cancelling => some (.cancelJob jobId)
  | .interrupting => some (.interruptJob jobId)
  | .requeueing => some (.requeueJob jobId none)
  | .created | .waiting _ | .handling _ _ | .cleaning | .ended => none

namespace Task

def enter (task : Task U J) (phase : Phase J) : Task U J := { task with phase, reply := none }

/-- The `except` clause for cancellation. -/
def unwind (task : Task U J) (closing : Bool) : Task U J :=
  { task.enter (if closing then .interrupting else .cancelling) with cancelEvent := true }

def live (task : Task U J) : Prop := task.phase ≠ .ended

instance [DecidableEq J] (task : Task U J) : Decidable task.live :=
  inferInstanceAs (Decidable (_ ≠ _))

/-- The next stretch of `_run` when the awaited store call has returned. -/
def proceed (cfg : Config U J) (closing : Bool) (task : Task U J) : Option (Task U J) :=
  match task.phase, task.reply with
  | .created, _ => some (task.enter .reading)
  | .reading, some (.ok job) => some (task.enter (.waiting (laneOf job.kind)))
  | .waiting lane, _ => some (task.enter (.checking lane))
  | .checking lane, some (.ok job) =>
    if job.status = .cancelling then some (task.unwind closing)
    else if job.status ≠ .queued then some (task.enter .cleaning)
    else if job.kind ∈ cfg.handlers then some (task.enter (.claiming lane))
    else
      some (task.enter (.refusing lane
        { code := "job_kind_unavailable"
          message := "job kind is not registered: " ++ job.kind
          retryable := true }))
  | .refusing _ _, some (.ok _) => some (task.enter .cleaning)
  | .claiming lane, some (.ok job) =>
    if job.status = .cancelling then some (task.unwind closing)
    else if job.status ≠ .running then some (task.enter .cleaning)
    else some (task.enter (.handling lane job.payload))
  | .completing _ _, some (.ok _) => some (task.enter .cleaning)
  | .reading, some (.error e) | .checking _, some (.error e) | .refusing _ _, some (.error e)
  | .claiming _, some (.error e) | .completing _ _, some (.error e) =>
    some (task.enter (.failing (cfg.storageFailure e)))
  | .failing _, some _ | .cancelling, some _ | .requeueing, some _ => some (task.enter .cleaning)
  | .interrupting, some (.ok _) => some (task.enter .rereading)
  | .interrupting, some (.error _) => some (task.enter .cleaning)
  | .rereading, some (.ok job) =>
    if hubDownload job.kind && !job.cancelRequested then some (task.enter .requeueing)
    else some (task.enter .cleaning)
  | .rereading, some (.error _) => some (task.enter .cleaning)
  | .cleaning, _ => some (task.enter .ended)
  | _, _ => none

/-- The stretch after the handler has ended. -/
def handled (cfg : Config U J) (closing : Bool) (task : Task U J) (lane : Lane) :
    Outcome J → Task U J
  | .returned result =>
    if task.cancelEvent then task.unwind closing else task.enter (.completing lane result)
  | .failed detail => task.enter (.failing detail)
  | .raised message typeName => task.enter (.failing (cfg.failure message typeName))
  | .cancelled => task.unwind closing

/-- A `CancelledError` at the await where the task stands.  A handler sees it and goes on to
    some end of its own. -/
def throwCancelled (closing : Bool) (task : Task U J) : Task U J :=
  let task := { task with mustCancel := false }
  match task.phase with
  | .created | .cleaning | .ended => task.enter .ended
  | .reading | .waiting _ | .checking _ | .refusing _ _ | .claiming _ | .completing _ _ =>
    task.unwind closing
  | .handling _ _ => task
  | .failing _ | .cancelling | .interrupting | .rereading | .requeueing => task.enter .cleaning

/-- What the cancelled await leaves behind: its store call, unless the call has returned already
    or is dropped. -/
def leaves (drop : Bool) (task : Task U J) : List (StoreCall U J) :=
  if task.reply.isNone && !drop then (task.phase.call task.jobId).toList else []

end Task

end Tasks

/-! ### Callers -/

/-- What a caller does after `await self.start()`. -/
inductive Goal (U J : Type) where
  | nothing
  | submit (kind : String) (payload : J) (jobId : U)
  | retry (jobId : U) (payload : Option J) (freshId : U)

/-- Where a caller's coroutine stands.  `jobId` in `submit` and `freshId` in `retry` are the
    ids that `uuid4` gives. -/
inductive Coroutine (U J : Type) where
  | starting (goal : Goal U J)
  | recovering (goal : Goal U J) (done : Bool)
  | listing (goal : Goal U J) (ids : Option (List U))
  | creating (kind : String) (payload : J) (jobId : U) (reply : Option (Reply U J))
  | looking (jobId : U) (payload : Option J) (freshId : U) (reply : Option (Reply U J))
  | joining (jobId : U) (payload : Option J) (task : Nat)
  | requeueing (jobId : U) (payload : Option J) (reply : Option (Reply U J))
  | requesting (jobId : U) (reply : Option (Reply U J))
  | closing
  | unwinding (tasks : List Nat)
  | stopping (tasks : List Nat)

/-- The calls of the manager. -/
inductive Request (U J : Type) where
  | start
  | close
  | submit (kind : String) (payload : J) (jobId : U)
  | cancel (jobId : U)
  | retry (jobId : U) (payload : Option J) (freshId : U)

section Callers

variable {U J : Type}

def Request.begin : Request U J → Coroutine U J
  | .start => .starting .nothing
  | .close => .closing
  | .submit kind payload jobId => .starting (.submit kind payload jobId)
  | .cancel jobId => .requesting jobId none
  | .retry jobId payload freshId => .starting (.retry jobId payload freshId)

/-- The store call that the coroutine awaits and that has not run yet. -/
def Coroutine.call : Coroutine U J → Option (StoreCall U J)
  | .creating kind payload jobId none => some (.createJob kind payload jobId)
  | .looking jobId _ _ none => some (.getJob jobId)
  | .requeueing jobId payload none => some (.requeueJob jobId payload)
  | .requesting jobId none => some (.requestJobCancel jobId)
  | _ => none

def Coroutine.answer (reply : Reply U J) : Coroutine U J → Coroutine U J
  | .creating kind payload jobId _ => .creating kind payload jobId (some reply)
  | .looking jobId payload freshId _ => .looking jobId payload freshId (some reply)
  | .requeueing jobId payload _ => .requeueing jobId payload (some reply)
  | .requesting jobId _ => .requesting jobId (some reply)
  | c => c

end Callers

/-! ### The manager -/

structure Manager (U J : Type) where
  store : Jobs U J
  started : Bool := false
  closing : Bool := false
  /-- The coroutine that holds `_lifecycle_lock`. -/
  lock : Option Nat := none
  /-- `_tasks`. -/
  tasks : Table U Nat := ∅
  /-- Every task that was ever created. -/
  runs : Table Nat (Task U J) := ∅
  nextTask : Nat := 0
  coroutines : Table Nat (Coroutine U J) := ∅
  /-- The store calls that have begun and that nobody waits for. -/
  orphans : List (StoreCall U J) := []

namespace Manager

variable {U J : Type}

def setTask (s : Manager U J) (t : Nat) (task : Task U J) : Manager U J :=
  { s with runs := s.runs.insert t task }

def setCoroutine (s : Manager U J) (p : Nat) (c : Coroutine U J) : Manager U J :=
  { s with coroutines := s.coroutines.insert p c }

/-- A caller returns or raises. -/
def leave (s : Manager U J) (p : Nat) : Manager U J :=
  { s with coroutines := s.coroutines.erase p }

/-- `task.cancel()`, which has no effect on a task that is done. -/
def cancelTask (s : Manager U J) (t : Nat) : Manager U J :=
  match s.runs.lookup t with
  | none => s
  | some task =>
    match task.phase with
    | .ended => s
    | _ => s.setTask t { task with mustCancel := true }

/-- `event.set()`. -/
def setEvent (s : Manager U J) (t : Nat) : Manager U J :=
  match s.runs.lookup t with
  | none => s
  | some task => s.setTask t { task with cancelEvent := true }

/-- `task.done()`. -/
def done (s : Manager U J) (t : Nat) : Bool :=
  match s.runs.lookup t with
  | none => true
  | some task =>
    match task.phase with
    | .ended => true
    | _ => false

/-- Whether a permit of the lane is free. -/
def free (cfg : Config U J) (s : Manager U J) (lane : Lane) : Bool :=
  decide ((s.runs.entries.filter fun e => e.2.phase.lane = some lane).length < cfg.maxConcurrency)

variable [DecidableEq U]

def schedule (s : Manager U J) (jobId : U) : Manager U J :=
  if s.closing = true ∨ jobId ∈ s.tasks then s
  else
    { s with
      tasks := s.tasks.insert jobId s.nextTask
      runs := s.runs.insert s.nextTask { jobId, phase := .created }
      nextTask := s.nextTask + 1 }

def forget (s : Manager U J) (jobId : U) (t : Nat) : Manager U J :=
  if s.tasks.lookup jobId = some t then { s with tasks := s.tasks.erase jobId } else s

/-! ### The stretches of a caller -/

/-- A caller whose `await self.start()` has returned. -/
def afterStart (cfg : Config U J) (s : Manager U J) (p : Nat) : Goal U J → Manager U J
  | .nothing => s.leave p
  | .submit kind payload jobId =>
    if kind ∈ cfg.handlers then s.setCoroutine p (.creating kind payload jobId none)
    else s.leave p
  | .retry jobId payload freshId => s.setCoroutine p (.looking jobId payload freshId none)

/-- `retry`, when it has read the job. -/
def retryJob (cfg : Config U J) (s : Manager U J) (p : Nat) (jobId : U) (payload : Option J)
    (freshId : U) (previous : Job J) : Manager U J :=
  if hubDownload previous.kind then
    if previous.kind ∉ cfg.handlers then s.leave p
    else if previous.status = .running ∨ previous.status = .queued then s.leave p
    else
      match s.tasks.lookup jobId with
      | some t => s.setCoroutine p (.joining jobId payload t)
      | none => s.setCoroutine p (.requeueing jobId payload none)
  else if previous.status = .failed ∨ previous.status = .cancelled ∨
      previous.status = .interrupted then
    s.setCoroutine p (.starting (.submit previous.kind previous.payload freshId))
  else s.leave p

/-- `close`, from where it sets `_closing`: every task is cancelled. -/
def stop (s : Manager U J) (p : Nat) : Manager U J :=
  let ts := s.tasks.entries.map fun e => e.2
  (ts.foldl cancelTask { s with closing := true }).setCoroutine p (.stopping ts)

/-- The tasks whose user cancellation is under way. -/
def unwindingTasks (s : Manager U J) : List Nat :=
  (s.tasks.entries.map fun e => e.2).filter fun t =>
    (s.runs.lookup t).any fun task => task.cancelEvent

def resume (cfg : Config U J) (s : Manager U J) (p : Nat) : Coroutine U J → Option (Manager U J)
  | .starting goal =>
    if s.lock ≠ none then none
    else if s.started then some (s.afterStart cfg p goal)
    else
      some ({ s with lock := some p, started := true, closing := false }.setCoroutine p
        (.recovering goal false))
  | .recovering goal true => some (s.setCoroutine p (.listing goal none))
  | .listing goal (some ids) =>
    some ({ (ids.foldl schedule s).leave p with lock := none }.afterStart cfg p goal)
  | .creating _ _ jobId (some (.ok _)) => some ((s.schedule jobId).leave p)
  | .looking jobId payload freshId (some (.ok previous)) =>
    some (s.retryJob cfg p jobId payload freshId previous)
  | .joining jobId payload t =>
    if s.done t then some ((s.forget jobId t).setCoroutine p (.requeueing jobId payload none))
    else none
  | .requeueing jobId _ (some (.ok _)) => some ((s.schedule jobId).leave p)
  | .requesting jobId (some (.ok _)) =>
    match s.tasks.lookup jobId with
    | none => some (s.leave p)
    | some t => some (((s.setEvent t).cancelTask t).leave p)
  | .creating _ _ _ (some (.error _)) | .looking _ _ _ (some (.error _))
  | .requeueing _ _ (some (.error _)) | .requesting _ (some (.error _)) => some (s.leave p)
  | .closing =>
    if s.lock ≠ none then none
    else if !s.started then some (s.leave p)
    else
      match s.unwindingTasks with
      | [] => some ({ s with lock := some p }.stop p)
      | ts => some ({ s with lock := some p }.setCoroutine p (.unwinding ts))
  -- `asyncio.wait` may time out, so the coroutine goes on at any time.
  | .unwinding _ => some (s.stop p)
  | .stopping ts =>
    if ts.all s.done then
      some ({ s with tasks := ∅, started := false, lock := none }.leave p)
    else none
  | _ => none

end Manager

/-! ### Actions -/

inductive Action (U J : Type) where
  | invoke (p : Nat) (request : Request U J)
  /-- A coroutine goes on to its next await. -/
  | resume (p : Nat)
  /-- The thread of a coroutine's store call runs its transaction. -/
  | serve (p : Nat) (now : Nat)
  /-- A task goes on to its next await. -/
  | run (t : Nat)
  /-- The thread of a task's store call runs its transaction. -/
  | execute (t : Nat) (now : Nat)
  | handlerEnds (t : Nat) (outcome : Outcome J)
  /-- The pending `CancelledError` is raised in the task. -/
  | cancelled (t : Nat) (drop : Bool)
  /-- The done callback of a task. -/
  | callback (t : Nat)
  /-- A store call that nobody waits for runs its transaction. -/
  | late (index : Nat) (now : Nat)

namespace Manager

variable {U J : Type} [DecidableEq U]

/-- The transaction of the store call that a coroutine awaits. -/
def serve (s : Manager U J) (p now : Nat) : Coroutine U J → Option (Manager U J)
  | .recovering goal false =>
    some ({ s with store := (s.store.recoverInterruptedJobs now).2 }.setCoroutine p
      (.recovering goal true))
  | .listing goal none =>
    some (s.setCoroutine p (.listing goal (some s.store.listQueuedJobIds)))
  | c =>
    c.call.map fun call =>
      let r := call.perform s.store now
      { s with store := r.2 }.setCoroutine p (c.answer r.1)

def run (cfg : Config U J) (s : Manager U J) (t : Nat) (task : Task U J) : Option (Manager U J) :=
  if task.mustCancel then none
  else
    match task.phase with
    | .waiting lane =>
      if s.free cfg lane then (task.proceed cfg s.closing).map (s.setTask t) else none
    | _ => (task.proceed cfg s.closing).map (s.setTask t)

def execute (s : Manager U J) (t now : Nat) (task : Task U J) : Option (Manager U J) :=
  if task.reply.isSome then none
  else
    (task.phase.call task.jobId).map fun call =>
      let r := call.perform s.store now
      { s with store := r.2 }.setTask t { task with reply := some r.1 }

def handlerEnds (cfg : Config U J) (s : Manager U J) (t : Nat) (task : Task U J)
    (outcome : Outcome J) : Option (Manager U J) :=
  if task.mustCancel then none
  else
    match task.phase with
    | .handling lane _ => some (s.setTask t (task.handled cfg s.closing lane outcome))
    | _ => none

def cancelled (s : Manager U J) (t : Nat) (task : Task U J) (drop : Bool) : Option (Manager U J) :=
  if task.mustCancel then
    some ({ s with orphans := s.orphans ++ task.leaves drop }.setTask t
      (task.throwCancelled s.closing))
  else none

def late (s : Manager U J) (index now : Nat) : Option (Manager U J) :=
  (s.orphans[index]?).map fun call =>
    { s with
      store := (call.perform s.store now).2
      orphans := s.orphans.eraseIdx index }

def step (cfg : Config U J) (s : Manager U J) : Action U J → Option (Manager U J)
  | .invoke p request =>
    if p ∈ s.coroutines then none else some (s.setCoroutine p request.begin)
  | .resume p => (s.coroutines.lookup p).bind (s.resume cfg p)
  | .serve p now => (s.coroutines.lookup p).bind (s.serve p now)
  | .run t => (s.runs.lookup t).bind (s.run cfg t)
  | .execute t now => (s.runs.lookup t).bind (s.execute t now)
  | .handlerEnds t outcome =>
    (s.runs.lookup t).bind fun task => s.handlerEnds cfg t task outcome
  | .cancelled t drop => (s.runs.lookup t).bind fun task => s.cancelled t task drop
  | .callback t =>
    (s.runs.lookup t).bind fun task =>
      if s.done t then some (s.forget task.jobId t) else none
  | .late index now => s.late index now

end Manager

end TyloQuant.JobManager
