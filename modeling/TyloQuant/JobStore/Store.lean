import TyloQuant.Lib.Table

/-!
# The job tables

`SessionStore` keeps the background jobs of the server in two tables: a row for each job, and a
log of the events of each job.  An operation is one `BEGIN IMMEDIATE` transaction, rolled back when
its body throws.  Most of them then read the job once more, which fails for an archived job although
the transaction is committed.

Left out: paging, the filters of the list views, and the tables that other features hang on a job.
-/

namespace TyloQuant.JobStore

open Lib

/-! ### The rows -/

inductive JobStatus where
  | queued
  | running
  | cancelling
  | succeeded
  | failed
  | cancelled
  | interrupted
deriving DecidableEq, Repr

namespace JobStatus

def value : JobStatus → String
  | queued => "queued"
  | running => "running"
  | cancelling => "cancelling"
  | succeeded => "succeeded"
  | failed => "failed"
  | cancelled => "cancelled"
  | interrupted => "interrupted"

/-- Membership in `terminal_statuses`. -/
def terminal : JobStatus → Bool
  | succeeded | failed | cancelled | interrupted => true
  | queued | running | cancelling => false

end JobStatus

inductive JobEventType where
  | state
  | progress
  | log
  | artifact
deriving DecidableEq, Repr

inductive JobEventLevel where
  | debug
  | info
  | warning
  | error
deriving DecidableEq, Repr

/-- `J` stands for the JSON objects that the store keeps and never looks into. -/
structure ErrorDetail (J : Type) where
  code : String
  message : String
  retryable : Bool := false
  details : List (String × J) := []
deriving DecidableEq

/-- The `data` of an event: what a change of state records, or what the caller gave. -/
inductive EventData (J : Type) where
  | status (status : JobStatus) (reason : Option String)
  | given (data : Option J)
deriving DecidableEq

structure JobEvent (U J : Type) where
  jobId : U
  sequence : Nat
  eventType : JobEventType
  level : JobEventLevel
  message : Option String
  progress : Option ℚ
  data : EventData J
  createdAt : Nat
deriving DecidableEq

/-- `progressData` is `none` while the column holds its default. -/
structure Job (J : Type) where
  kind : String
  status : JobStatus
  payload : J
  progress : ℚ
  progressData : Option J
  cancelRequested : Bool
  result : Option J
  error : Option (ErrorDetail J)
  createdAt : Nat
  updatedAt : Nat
  startedAt : Option Nat
  completedAt : Option Nat
  archivedAt : Option Nat
deriving DecidableEq

structure Jobs (U J : Type) where
  jobs : Table U (Job J) := ∅
  events : List (JobEvent U J) := []

inductive StorageError (U : Type) where
  | jobNotFound (jobId : U)
  | invalidJobState (message : String)
  | valueError (message : String)
  | integrity
deriving DecidableEq, Repr

/-! ### Transactions -/

section Transactions

variable {U J α : Type}

/-- The end of a transaction that began in `c`. -/
def commit (c : Jobs U J) :
    Except (StorageError U) (α × Jobs U J) → Except (StorageError U) α × Jobs U J
  | .ok (a, c') => (.ok a, c')
  | .error e => (.error e, c)

end Transactions

namespace Jobs

variable {U J : Type} [DecidableEq U]

def getJob (c : Jobs U J) (jobId : U) : Except (StorageError U) (Job J) :=
  match c.jobs.lookup jobId with
  | none => .error (.jobNotFound jobId)
  | some row => if row.archivedAt = none then .ok row else .error (.jobNotFound jobId)

/-- The end of an operation whose body either returned a row or leaves it to `get_job`. -/
def commitJob (c : Jobs U J) (jobId : U)
    (body : Except (StorageError U) (Option (Job J) × Jobs U J)) :
    Except (StorageError U) (Job J) × Jobs U J :=
  match commit c body with
  | (.ok (some row), c') => (.ok row, c')
  | (.ok none, c') => (c'.getJob jobId, c')
  | (.error e, c') => (.error e, c')

/-- `UPDATE jobs SET ... WHERE id = ?`. -/
def updateJob (c : Jobs U J) (jobId : U) (set : Job J → Job J) : Jobs U J :=
  match c.jobs.lookup jobId with
  | none => c
  | some row => { c with jobs := c.jobs.insert jobId (set row) }

/-! ### Events -/

def eventsOf (c : Jobs U J) (jobId : U) : List (JobEvent U J) :=
  c.events.filter fun e => e.jobId = jobId

/-- `COALESCE(MAX(sequence), 0) + 1`. -/
def nextSequence (c : Jobs U J) (jobId : U) : Nat :=
  ((c.eventsOf jobId).map fun e => e.sequence).foldl max 0 + 1

/-- `_append_job_event`.  A progress outside the column's range breaks its constraint. -/
def pushEvent (c : Jobs U J) (jobId : U) (eventType : JobEventType) (level : JobEventLevel)
    (message : Option String) (progress : Option ℚ) (data : EventData J) (now : Nat) :
    Except (StorageError U) (Jobs U J) :=
  if ∀ p ∈ progress, 0 ≤ p ∧ p ≤ 1 then
    let e : JobEvent U J :=
      { jobId, sequence := c.nextSequence jobId, eventType, level, message, progress, data,
        createdAt := now }
    .ok { c with events := c.events ++ [e] }
  else .error .integrity

/-- The event by which an operation records the new status of a job. -/
def pushState (c : Jobs U J) (jobId : U) (level : JobEventLevel) (status : JobStatus)
    (reason : Option String) (progress : Option ℚ) (now : Nat) :
    Except (StorageError U) (Jobs U J) :=
  c.pushEvent jobId .state level (some status.value) progress (.status status reason) now

/-! ### Operations -/

def createJob (c : Jobs U J) (kind : String) (payload : J) (jobId : U) (now : Nat) :
    Except (StorageError U) (Job J) × Jobs U J :=
  c.commitJob jobId <|
    if jobId ∈ c.jobs then .error .integrity
    else do
      let row : Job J :=
        { kind, status := .queued, payload, progress := 0, progressData := none,
          cancelRequested := false, result := none, error := none, createdAt := now,
          updatedAt := now, startedAt := none, completedAt := none, archivedAt := none }
      let c' ← pushState { c with jobs := c.jobs.insert jobId row } jobId .info .queued none none
        now
      pure (none, c')

def archiveJob (c : Jobs U J) (jobId : U) (now : Nat) : Except (StorageError U) Unit × Jobs U J :=
  commit c <|
    match c.getJob jobId with
    | .error e => .error e
    | .ok row =>
      if row.status.terminal then
        .ok ((), c.updateJob jobId fun row => { row with archivedAt := some now })
      else .error (.invalidJobState ("cannot delete job in state " ++ row.status.value))

/-- The rows that `archive_completed_jobs` counts and updates. -/
def archivable (row : Job J) : Bool := row.archivedAt.isNone && row.status.terminal

def archiveCompletedJobs (c : Jobs U J) (now : Nat) : Nat × Jobs U J :=
  ((c.jobs.entries.filter fun e => archivable e.2).length,
    { c with jobs := c.jobs.mapVal fun _ row =>
        if archivable row then { row with archivedAt := some now } else row })

/-- The queued jobs; the order in which they are listed does not matter here. -/
def listQueuedJobIds (c : Jobs U J) : List U :=
  (c.jobs.entries.filter fun e => e.2.status = .queued).map fun e => e.1

def requeueJob (c : Jobs U J) (jobId : U) (payload : Option J) (now : Nat) :
    Except (StorageError U) (Job J) × Jobs U J :=
  c.commitJob jobId <|
    match c.getJob jobId with
    | .error e => .error e
    | .ok row =>
      if row.status = .queued ∨ row.status = .running then .ok (some row, c)
      else if ¬(row.status = .failed ∨ row.status = .cancelled ∨ row.status = .interrupted) then
        .error (.invalidJobState ("cannot resume job in state " ++ row.status.value))
      else do
        let c' ← pushState
          (c.updateJob jobId fun row =>
            { row with
              payload := payload.getD row.payload, status := .queued
              cancelRequested := false, error := none, result := none, startedAt := none
              completedAt := none, updatedAt := now })
          jobId .info .queued (some "resumed") none now
        pure (none, c')

def claimJob (c : Jobs U J) (jobId : U) (now : Nat) : Except (StorageError U) (Job J) × Jobs U J :=
  c.commitJob jobId <|
    match c.jobs.lookup jobId with
    | none => .error (.jobNotFound jobId)
    | some row =>
      if row.status ≠ .queued then .ok (some row, c)
      else do
        let c' ← pushState
          (c.updateJob jobId fun row =>
            { row with status := .running, startedAt := some now, updatedAt := now })
          jobId .info .running none none now
        pure (none, c')

/-- A progress that is not a number or infinite fails the first check as well. -/
def updateJobProgress (c : Jobs U J) (jobId : U) (progress : ℚ) (message : Option String)
    (data : Option J) (now : Nat) : Except (StorageError U) (Job J) × Jobs U J :=
  if ¬(0 ≤ progress ∧ progress ≤ 1) then
    (.error (.valueError "job progress must be between 0 and 1"), c)
  else
    c.commitJob jobId <|
      match c.jobs.lookup jobId with
      | none => .error (.jobNotFound jobId)
      | some row =>
        if ¬(row.status = .running ∨ row.status = .cancelling) then
          .error (.invalidJobState ("cannot update progress while job is " ++ row.status.value))
        else do
          let next := max row.progress progress
          let c' ← pushEvent
            (c.updateJob jobId fun row =>
              { row with
                progress := next, progressData := data.or row.progressData, updatedAt := now })
            jobId .progress .info message (some next) (.given data) now
          pure (none, c')

def appendJobEvent (c : Jobs U J) (jobId : U) (eventType : JobEventType) (level : JobEventLevel)
    (message : Option String) (progress : Option ℚ) (data : Option J) (now : Nat) :
    Except (StorageError U) Unit × Jobs U J :=
  commit c <|
    if jobId ∈ c.jobs then do
      let c' ← c.pushEvent jobId eventType level message progress (.given data) now
      pure ((), c')
    else .error (.jobNotFound jobId)

def requestJobCancel (c : Jobs U J) (jobId : U) (now : Nat) :
    Except (StorageError U) (Job J) × Jobs U J :=
  c.commitJob jobId <|
    match c.jobs.lookup jobId with
    | none => .error (.jobNotFound jobId)
    | some row =>
      if row.status.terminal then .ok (some row, c)
      else do
        let next := if row.status = .queued then JobStatus.cancelled else .cancelling
        let completedAt := if row.status = .queued then some now else none
        let c' ← pushState
          (c.updateJob jobId fun row =>
            { row with status := next, cancelRequested := true, updatedAt := now, completedAt })
          jobId .info next none none now
        pure (none, c')

def completeJob (c : Jobs U J) (jobId : U) (result : J) (now : Nat) :
    Except (StorageError U) (Job J) × Jobs U J :=
  c.commitJob jobId <|
    match c.jobs.lookup jobId with
    | none => .error (.jobNotFound jobId)
    | some row =>
      if row.status = .succeeded then .ok (none, c)
      else if row.status ≠ .running then
        .error (.invalidJobState ("cannot complete job in state " ++ row.status.value))
      else do
        let c' ← pushState
          (c.updateJob jobId fun row =>
            { row with
              status := .succeeded, progress := 1, result := some result, error := none
              updatedAt := now, completedAt := some now })
          jobId .info .succeeded none (some 1) now
        pure (none, c')

/-- `_finish_job`. -/
def finishJob (c : Jobs U J) (jobId : U) (status : JobStatus) (error : Option (ErrorDetail J))
    (now : Nat) : Except (StorageError U) (Job J) × Jobs U J :=
  if ¬(status = .failed ∨ status = .cancelled ∨ status = .interrupted) then
    (.error (.valueError ("unsupported terminal job status " ++ status.value)), c)
  else
    c.commitJob jobId <|
      match c.jobs.lookup jobId with
      | none => .error (.jobNotFound jobId)
      | some row =>
        if row.status.terminal then .ok (none, c)
        else do
          let c' ← pushState
            (c.updateJob jobId fun row =>
              { row with status, error, updatedAt := now, completedAt := some now })
            jobId (if status = .failed then .error else .info) status none none now
          pure (none, c')

def failJob (c : Jobs U J) (jobId : U) (error : ErrorDetail J) (now : Nat) :=
  c.finishJob jobId .failed (some error) now

def cancelJob (c : Jobs U J) (jobId : U) (now : Nat) := c.finishJob jobId .cancelled none now

def interruptJob (c : Jobs U J) (jobId : U) (now : Nat) :=
  c.finishJob jobId .interrupted
    (some
      { code := "service_interrupted"
        message := "job execution was interrupted by service shutdown"
        retryable := true })
    now

/-! ### Restart -/

/-- The jobs that a restart queues again instead of interrupting them. -/
def resumable (row : Job J) : Bool :=
  (row.kind == "download.huggingface" || row.kind == "download.modelscope") && !row.cancelRequested

/-- One round of the loop of `recover_interrupted_jobs`. -/
def recoverJob (now : Nat) (c : Jobs U J) (selected : Sigma fun _ : U => Job J) :
    Except (StorageError U) (Jobs U J) :=
  if resumable selected.2 then
    pushState
      (c.updateJob selected.1 fun row =>
        { row with status := .queued, error := none, updatedAt := now, completedAt := none })
      selected.1 .info .queued (some "service_restarted") none now
  else
    pushState
      (c.updateJob selected.1 fun row =>
        { row with
          status := .interrupted
          error := some
            { code := "service_restarted"
              message := "job execution was interrupted by service restart"
              retryable := true }
          updatedAt := now
          completedAt := some now })
      selected.1 .warning .interrupted (some "service_restarted") none now

def recoverInterruptedJobs (c : Jobs U J) (now : Nat) :
    Except (StorageError U) (List U) × Jobs U J :=
  let rows := c.jobs.entries.filter fun e => e.2.status = .running ∨ e.2.status = .cancelling
  commit c do
    let c' ← rows.foldlM (recoverJob now) c
    pure (rows.map fun e => e.1, c')

end Jobs

/-! ### Calls -/

/-- A call of one of the operations.  A caller of `append_job_event` never writes a change of
    state: the store itself does that. -/
inductive Action (U J : Type) where
  | create (kind : String) (payload : J) (jobId : U)
  | claim (jobId : U)
  | updateProgress (jobId : U) (progress : ℚ) (message : Option String) (data : Option J)
  | appendEvent (jobId : U) (eventType : { t : JobEventType // t ≠ .state })
      (level : JobEventLevel) (message : Option String) (progress : Option ℚ) (data : Option J)
  | requestCancel (jobId : U)
  | complete (jobId : U) (result : J)
  | fail (jobId : U) (error : ErrorDetail J)
  | cancel (jobId : U)
  | interrupt (jobId : U)
  | requeue (jobId : U) (payload : Option J)
  | recover
  | archive (jobId : U)
  | archiveCompleted

variable {U J : Type} [DecidableEq U]

/-- What a call at the time `now` leaves in the tables. -/
def Jobs.step (c : Jobs U J) (now : Nat) : Action U J → Jobs U J
  | .create kind payload jobId => (c.createJob kind payload jobId now).2
  | .claim jobId => (c.claimJob jobId now).2
  | .updateProgress jobId progress message data =>
    (c.updateJobProgress jobId progress message data now).2
  | .appendEvent jobId eventType level message progress data =>
    (c.appendJobEvent jobId eventType level message progress data now).2
  | .requestCancel jobId => (c.requestJobCancel jobId now).2
  | .complete jobId result => (c.completeJob jobId result now).2
  | .fail jobId error => (c.failJob jobId error now).2
  | .cancel jobId => (c.cancelJob jobId now).2
  | .interrupt jobId => (c.interruptJob jobId now).2
  | .requeue jobId payload => (c.requeueJob jobId payload now).2
  | .recover => (c.recoverInterruptedJobs now).2
  | .archive jobId => (c.archiveJob jobId now).2
  | .archiveCompleted => (c.archiveCompletedJobs now).2

/-- Calls one after the other, each with the time it is made at. -/
def Jobs.exec (c : Jobs U J) (calls : List (Nat × Action U J)) : Jobs U J :=
  calls.foldl (fun c call => c.step call.1 call.2) c

end TyloQuant.JobStore
