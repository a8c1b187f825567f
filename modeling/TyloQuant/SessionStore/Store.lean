import TyloQuant.SessionStore.Tables

/-!
# The operations of the session store

An operation runs its statements in one transaction: what they wrote is committed when the body
ends and rolled back when one of them or the code between them throws.  Most operations then read
back what they return.

What is left out: media and documents, the list views, and `update_session`, which sets columns
that nothing here depends on.
-/

namespace TyloQuant.SessionStore

open Lib

structure CreateSessionRequest (J : Type) where
  model : String := ""
  mode : SessionMode := .text
  title : Option String := none
  metadata : J

structure ForkSessionRequest (U : Type) where
  atMessageId : Option U := none
  includeMessage : Bool := true
  title : Option String := none
  model : Option String := none

structure RewindSessionRequest (U : Type) where
  expectedRevision : Nat
  atMessageId : U
  includeMessage : Bool := true

structure BeginResponseResult (U J : Type) where
  session : Session J
  response : Response U J
  started : Bool

section Transactions

variable {U J α : Type}

/-- The end of a transaction whose body either returns something itself or leaves it to `read`
    to find the result when everything is committed. -/
def finish (db : Tables U J) (read : Tables U J → Except (StorageError U) α) :
    Except (StorageError U) (Option α × Tables U J) → Except (StorageError U) α × Tables U J
  | .error e => (.error e, db)
  | .ok (some a, db') => (.ok a, db')
  | .ok (none, db') => (read db', db')

end Transactions

namespace Tables

variable {U J : Type} [DecidableEq U]

def getSession (db : Tables U J) (sessionId : U) : Except (StorageError U) (Session J) :=
  match db.sessions.lookup sessionId with
  | none => .error (.sessionNotFound sessionId)
  | some row => .ok row

def getResponse (db : Tables U J) (responseId : U) : Except (StorageError U) (Response U J) :=
  match db.responses.lookup responseId with
  | none => .error (.responseNotFound responseId)
  | some row => .ok row

/-- `list_messages`: the ids and the messages of a session in their order. -/
def listMessages (db : Tables U J) (sessionId : U) :
    Except (StorageError U) (List (U × Message U J)) :=
  match db.sessions.lookup sessionId with
  | none => .error (.sessionNotFound sessionId)
  | some _ =>
    .ok ((db.ordered sessionId).filterMap fun e =>
      (db.messages.lookup e.messageId).map (e.messageId, ·))

/-! ### Sessions -/

def createSession (db : Tables U J) (request : CreateSessionRequest J) (sessionId : U)
    (now : Nat) : Except (StorageError U) (Session J) × Tables U J :=
  finish db (·.getSession sessionId) do
    let db ← db.insertSession sessionId
      { model := request.model, mode := request.mode, state := .idle, revision := 0
        title := request.title, createdAt := now, updatedAt := now, metadata := request.metadata }
    pure (none, db)

/-- The statements by which a message becomes the last one of a session. -/
def attach (db : Tables U J) (sessionId : U) (revision : Nat) (messageId : U) (role : MessageRole)
    (parts : List J) (state : SessionState → SessionState) (now : Nat) :
    Except (StorageError U) (Tables U J) := do
  let db ← db.insertMessage messageId
    { role, parts, parentId := db.previous sessionId, createdAt := now }
  let db ← db.insertEntry { sessionId, ordinal := revision + 1, messageId }
  pure (db.updateSession sessionId fun row =>
    { row with revision := revision + 1, state := state row.state, updatedAt := now })

def appendMessage (db : Tables U J) (sessionId : U) (expectedRevision : Nat) (role : MessageRole)
    (parts : List J) (messageId : U) (now : Nat) :
    Except (StorageError U) (Session J) × Tables U J :=
  if parts.isEmpty then (.error (.valueError "a message requires at least one content part"), db)
  else
    finish db (·.getSession sessionId) <|
      match db.sessions.lookup sessionId with
      | none => .error (.sessionNotFound sessionId)
      | some session =>
        if session.revision ≠ expectedRevision then
          .error (.revisionConflict expectedRevision session.revision)
        else if ¬(session.state = .idle ∨ session.state = .error) then
          .error (.storage ("cannot append while session is " ++ session.state.value))
        else do
          let db ← db.attach sessionId session.revision messageId role parts id now
          pure (none, db)

/-- Up to which ordinal a fork takes the messages of its source. -/
def forkLimit (db : Tables U J) (sourceId : U) (source : Session J)
    (request : ForkSessionRequest U) : Except (StorageError U) Nat :=
  match request.atMessageId with
  | some messageId =>
    match db.ordinalOf sourceId messageId with
    | none => .error (.messageNotFound messageId)
    | some ordinal => .ok (if request.includeMessage then ordinal else ordinal - 1)
  | none =>
    if request.includeMessage then .ok source.revision
    else .error (.storage "include_message=false requires at_message_id")

def forkSession (db : Tables U J) (sourceId : U) (request : ForkSessionRequest U) (targetId : U)
    (now : Nat) : Except (StorageError U) (Session J) × Tables U J :=
  finish db (·.getSession targetId) <|
    match db.sessions.lookup sourceId with
    | none => .error (.sessionNotFound sourceId)
    | some source => do
        let limit ← db.forkLimit sourceId source request
        -- An empty model counts as none, as `or` has it.
        let model := if request.model.getD "" = "" then source.model else request.model.getD ""
        let copied := (db.ordered sourceId).filter fun e => e.ordinal ≤ limit
        let db ← db.insertSession targetId
          { model, mode := source.mode, state := .idle, revision := limit
            title := request.title.or source.title, createdAt := now, updatedAt := now
            metadata := source.metadata }
        let db ← copied.foldlM (fun db e => db.insertEntry { e with sessionId := targetId }) db
        pure (none, db)

/-- Up to which ordinal a rewind keeps the messages of its session. -/
def rewindLimit (db : Tables U J) (sessionId : U) (request : RewindSessionRequest U) : Option Nat :=
  (db.ordinalOf sessionId request.atMessageId).map fun ordinal =>
    if request.includeMessage then ordinal else ordinal - 1

def rewindSession (db : Tables U J) (sessionId : U) (request : RewindSessionRequest U)
    (now : Nat) : Except (StorageError U) (Session J) × Tables U J :=
  finish db (·.getSession sessionId) <|
    match db.sessions.lookup sessionId with
    | none => .error (.sessionNotFound sessionId)
    | some session =>
      if session.revision ≠ request.expectedRevision then
        .error (.revisionConflict request.expectedRevision session.revision)
      else if session.state = .processing then
        .error (.responseInProgress ("session is " ++ session.state.value))
      else
        match db.rewindLimit sessionId request with
        | none => .error (.messageNotFound request.atMessageId)
        | some limit =>
          let cut := db.listedAfter sessionId limit
          let db := db.deleteResponses fun r =>
            r.sessionId = sessionId ∧ (cut r.inputMessageId ∨ r.outputMessageId.any cut)
          let db := db.deleteEntries fun e => e.sessionId = sessionId ∧ limit < e.ordinal
          .ok (none, db.updateSession sessionId fun row =>
            { row with revision := limit, state := .idle, updatedAt := now })

/-- The first statement of `delete_session`, which runs before its transaction begins, and the
    check of what it has read. -/
def checkDelete (db : Tables U J) (sessionId : U) : Except (StorageError U) Unit :=
  match db.sessions.lookup sessionId with
  | none => .error (.sessionNotFound sessionId)
  | some session =>
    if session.state = .listening ∨ session.state = .processing ∨ session.state = .speaking then
      .error (.responseInProgress ("session is " ++ session.state.value))
    else .ok ()

/-- The transaction of `delete_session`. -/
def removeSession (db : Tables U J) (sessionId : U) : Except (StorageError U) Unit × Tables U J :=
  finish db (fun _ => .ok ()) <|
    if sessionId ∉ db.sessions then .error (.storage "failed to delete session")
    else do
      let db ← (db.deleteSessionRow sessionId).deleteOrphans
      pure (none, db)

def deleteSession (db : Tables U J) (sessionId : U) : Except (StorageError U) Unit × Tables U J :=
  match db.checkDelete sessionId with
  | .error e => (.error e, db)
  | .ok () => db.removeSession sessionId

/-! ### Responses -/

/-- `beginResponse` starts nothing for a request that has a response already. -/
def repeatResponse (db : Tables U J) (sessionId requestId : U) (fingerprint : String)
    (existing : Response U J) : Except (StorageError U) (BeginResponseResult U J) :=
  if existing.requestFingerprint ≠ fingerprint then .error (.idempotencyConflict requestId)
  else
    match db.sessions.lookup sessionId with
    | none => .error (.sessionNotFound sessionId)
    | some session => .ok { session, response := existing, started := false }

def beginResponse (db : Tables U J) (sessionId requestId responseId : U) (fingerprint : String)
    (expectedRevision : Nat) (inputParts : List J) (settings : Option J) (inputRole : MessageRole)
    (messageId : U) (now : Nat) :
    Except (StorageError U) (BeginResponseResult U J) × Tables U J :=
  if inputParts.isEmpty then
    (.error (.valueError "a response request requires at least one input part"), db)
  else if ¬(inputRole = .user ∨ inputRole = .tool) then
    (.error (.valueError "a response input must use the user or tool role"), db)
  else
    finish db
      (fun db => do
        let session ← db.getSession sessionId
        let response ← db.getResponse responseId
        pure { session, response, started := true }) <|
      match db.responseTo sessionId requestId with
      | some existing => do
          let result ← db.repeatResponse sessionId requestId fingerprint existing.2
          pure (some result, db)
      | none =>
        match db.sessions.lookup sessionId with
        | none => .error (.sessionNotFound sessionId)
        | some session =>
          if session.revision ≠ expectedRevision then
            .error (.revisionConflict expectedRevision session.revision)
          else if ¬(session.state = .idle ∨ session.state = .error ∨
              session.state = .interrupted) then
            .error (.responseInProgress ("session is " ++ session.state.value))
          else do
            let db ← db.attach sessionId session.revision messageId inputRole inputParts
              (fun _ => .processing) now
            let db ← db.insertResponse responseId
              { sessionId, requestId, requestFingerprint := fingerprint, status := .running
                inputMessageId := messageId, outputMessageId := none, output := []
                finishReason := none, usage := none, performance := none, settings
                error := none, createdAt := now, completedAt := none }
            pure (none, db)

def completeResponse (db : Tables U J) (responseId : U) (output : List J) (finishReason : String)
    (usage performance : Option J) (messageId : U) (now : Nat) :
    Except (StorageError U) (Response U J) × Tables U J :=
  if output.isEmpty then
    (.error (.valueError "a completed response requires at least one output part"), db)
  else
    finish db (·.getResponse responseId) <|
      match db.responses.lookup responseId with
      | none => .error (.responseNotFound responseId)
      | some response =>
        if response.status = .completed then .ok (some response, db)
        else if response.status ≠ .running then
          .error (.invalidResponseState
            ("cannot complete response in state " ++ response.status.value))
        else
          match db.sessions.lookup response.sessionId with
          | none => .error (.sessionNotFound response.sessionId)
          | some session => do
              let db ← db.attach response.sessionId session.revision messageId .assistant output
                (fun _ => .idle) now
              let db ← db.updateResponse responseId fun row =>
                { row with
                  status := .completed, outputMessageId := some messageId, output
                  finishReason := some finishReason, usage, performance, error := none
                  completedAt := some now }
              pure (none, db)

def terminateResponse (db : Tables U J) (responseId : U) (error : J) (cancelled : Bool)
    (now : Nat) : Except (StorageError U) (Response U J) × Tables U J :=
  finish db (·.getResponse responseId) <|
    match db.responses.lookup responseId with
    | none => .error (.responseNotFound responseId)
    | some response =>
      if response.status ≠ .running then .ok (some response, db)
      else do
        let db ← db.updateResponse responseId fun row =>
          { row with
            status := if cancelled then .cancelled else .failed, error := some error
            completedAt := some now }
        pure (none, db.updateSession response.sessionId fun row =>
          { row with state := if cancelled then .interrupted else .error, updatedAt := now })

/-- `error` is the detail `service_restarted` that every response gets. -/
def recoverInterruptedResponses (db : Tables U J) (error : J) (now : Nat) : List U × Tables U J :=
  ((db.responses.entries.filter fun e => e.2.status = .running).map fun e => e.1,
    { db with
      responses := db.responses.mapVal fun _ r =>
        if r.status = .running then
          { r with status := .cancelled, error := some error, completedAt := some now }
        else r
      sessions := db.sessions.mapVal fun _ s =>
        if s.state = .processing then { s with state := .interrupted, updatedAt := now } else s })

end Tables

/-! ### Calls -/

/-- A call of one of the operations.  The ids in `messageId`, `targetId`, `responseId` and in
    `sessionId` of `create` are generated by the caller. -/
inductive Action (U J : Type) where
  | create (request : CreateSessionRequest J) (sessionId : U)
  | append (sessionId : U) (expectedRevision : Nat) (role : MessageRole) (parts : List J)
      (messageId : U)
  | fork (sourceId : U) (request : ForkSessionRequest U) (targetId : U)
  | rewind (sessionId : U) (request : RewindSessionRequest U)
  | begin_ (sessionId requestId responseId : U) (fingerprint : String) (expectedRevision : Nat)
      (inputParts : List J) (settings : Option J) (inputRole : MessageRole) (messageId : U)
  | complete (responseId : U) (output : List J) (finishReason : String)
      (usage performance : Option J) (messageId : U)
  | terminate (responseId : U) (error : J) (cancelled : Bool)
  | recover (error : J)
  | delete (sessionId : U)

namespace Action

variable {U J : Type}

/-- The ids that are generated for the call. -/
def fresh : Action U J → List U
  | .create _ sessionId => [sessionId]
  | .append _ _ _ _ messageId => [messageId]
  | .fork _ _ targetId => [targetId]
  | .begin_ _ _ responseId _ _ _ _ _ messageId => [responseId, messageId]
  | .complete _ _ _ _ _ messageId => [messageId]
  | .rewind _ _ | .terminate _ _ _ | .recover _ | .delete _ => []

/-- What is thrown, and what is left in the tables. -/
def perform [DecidableEq U] (db : Tables U J) (now : Nat) :
    Action U J → Option (StorageError U) × Tables U J
  | .create request sessionId => outcome (db.createSession request sessionId now)
  | .append sessionId expectedRevision role parts messageId =>
    outcome (db.appendMessage sessionId expectedRevision role parts messageId now)
  | .fork sourceId request targetId => outcome (db.forkSession sourceId request targetId now)
  | .rewind sessionId request => outcome (db.rewindSession sessionId request now)
  | .begin_ sessionId requestId responseId fingerprint expectedRevision inputParts settings
      inputRole messageId =>
      outcome (db.beginResponse sessionId requestId responseId fingerprint expectedRevision
        inputParts settings inputRole messageId now)
  | .complete responseId output finishReason usage performance messageId =>
    outcome (db.completeResponse responseId output finishReason usage performance messageId now)
  | .terminate responseId error cancelled =>
    outcome (db.terminateResponse responseId error cancelled now)
  | .recover error => (none, (db.recoverInterruptedResponses error now).2)
  | .delete sessionId => outcome (db.deleteSession sessionId)
where
  outcome {α : Type} : Except (StorageError U) α × Tables U J → Option (StorageError U) × Tables U J
    | (.ok _, db) => (none, db)
    | (.error e, db) => (some e, db)

end Action

end TyloQuant.SessionStore
