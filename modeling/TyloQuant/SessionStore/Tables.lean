import TyloQuant.Lib.Table

/-!
# The conversation tables

`SessionStore` keeps conversations in four SQLite tables.  Messages are immutable and are shared
by the sessions that list them; `session_messages` says which message has which place in which
session.  A statement of SQL is a function on the tables that fails where it breaks a constraint
of the schema: a primary key, a `UNIQUE`, a `CHECK` or a foreign key, the last one as it holds
when the statement ends.

`U` is the type of the ids and `J` that of the JSON values that the store only passes on.
-/

namespace TyloQuant.SessionStore

open Lib

/-! ### Rows -/

inductive SessionMode where
  | text
  | voice
  | fullDuplex
deriving DecidableEq, Repr

inductive SessionState where
  | idle
  | listening
  | processing
  | speaking
  | interrupted
  | reconnecting
  | error
  | closed
deriving DecidableEq, Repr

def SessionState.value : SessionState → String
  | .idle => "idle"
  | .listening => "listening"
  | .processing => "processing"
  | .speaking => "speaking"
  | .interrupted => "interrupted"
  | .reconnecting => "reconnecting"
  | .error => "error"
  | .closed => "closed"

inductive MessageRole where
  | system
  | user
  | assistant
  | tool
deriving DecidableEq, Repr

inductive ResponseStatus where
  | queued
  | running
  | completed
  | cancelled
  | failed
deriving DecidableEq, Repr

def ResponseStatus.value : ResponseStatus → String
  | .queued => "queued"
  | .running => "running"
  | .completed => "completed"
  | .cancelled => "cancelled"
  | .failed => "failed"

structure Session (J : Type) where
  model : String
  mode : SessionMode
  state : SessionState
  revision : Nat
  title : Option String
  createdAt : Nat
  updatedAt : Nat
  metadata : J
deriving DecidableEq

structure Message (U J : Type) where
  role : MessageRole
  parts : List J
  parentId : Option U
  createdAt : Nat
deriving DecidableEq

/-- A row of `session_messages`. -/
structure Entry (U : Type) where
  sessionId : U
  ordinal : Nat
  messageId : U
deriving DecidableEq, Repr

structure Response (U J : Type) where
  sessionId : U
  requestId : U
  requestFingerprint : String
  status : ResponseStatus
  inputMessageId : U
  outputMessageId : Option U
  output : List J
  finishReason : Option String
  usage : Option J
  performance : Option J
  settings : Option J
  error : Option J
  createdAt : Nat
  completedAt : Option Nat
deriving DecidableEq

structure Tables (U J : Type) where
  sessions : Table U (Session J) := ∅
  messages : Table U (Message U J) := ∅
  entries : List (Entry U) := []
  responses : Table U (Response U J) := ∅

inductive StorageError (U : Type) where
  | valueError (message : String)
  | sessionNotFound (sessionId : U)
  | messageNotFound (messageId : U)
  | responseNotFound (responseId : U)
  | revisionConflict (expected actual : Nat)
  | idempotencyConflict (requestId : U)
  | responseInProgress (message : String)
  | invalidResponseState (message : String)
  | storage (message : String)
  /-- A primary key, a `UNIQUE` or a `CHECK` of the schema. -/
  | constraint
  | foreignKey
deriving DecidableEq, Repr

namespace Tables

variable {U J : Type} [DecidableEq U]

/-! ### Queries -/

def entriesOf (db : Tables U J) (sessionId : U) : List (Entry U) :=
  db.entries.filter fun e => e.sessionId = sessionId

/-- The rows of a session, `ORDER BY ordinal`. -/
def ordered (db : Tables U J) (sessionId : U) : List (Entry U) :=
  (db.entriesOf sessionId).insertionSort fun e f => e.ordinal ≤ f.ordinal

/-- `ORDER BY ordinal DESC LIMIT 1`. -/
def previous (db : Tables U J) (sessionId : U) : Option U :=
  (db.ordered sessionId).getLast?.map fun e => e.messageId

/-- The place of a message in a session. -/
def ordinalOf (db : Tables U J) (sessionId messageId : U) : Option Nat :=
  ((db.entriesOf sessionId).find? fun e => e.messageId = messageId).map fun e => e.ordinal

/-- `SELECT * FROM responses WHERE session_id = ? AND request_id = ?`. -/
def responseTo (db : Tables U J) (sessionId requestId : U) : Option (U × Response U J) :=
  (db.responses.entries.find? fun e => e.2.sessionId = sessionId ∧ e.2.requestId = requestId).map
    fun e => (e.1, e.2)

/-- Whether a message has a place of a session after the one with number `limit`. -/
def listedAfter (db : Tables U J) (sessionId : U) (limit : Nat) (messageId : U) : Bool :=
  (db.entriesOf sessionId).any fun e => e.messageId = messageId ∧ limit < e.ordinal

def listed (db : Tables U J) (messageId : U) : Bool :=
  db.entries.any fun e => e.messageId = messageId

/-! ### Statements -/

def insertSession (db : Tables U J) (sessionId : U) (row : Session J) :
    Except (StorageError U) (Tables U J) :=
  if sessionId ∈ db.sessions then .error .constraint
  else .ok { db with sessions := db.sessions.insert sessionId row }

def insertMessage (db : Tables U J) (messageId : U) (row : Message U J) :
    Except (StorageError U) (Tables U J) :=
  if messageId ∈ db.messages then .error .constraint
  else if ∀ p ∈ row.parentId, p = messageId ∨ p ∈ db.messages then
    .ok { db with messages := db.messages.insert messageId row }
  else .error .foreignKey

def insertEntry (db : Tables U J) (e : Entry U) : Except (StorageError U) (Tables U J) :=
  if e.ordinal < 1 ∨ ∃ f ∈ db.entries, f.sessionId = e.sessionId ∧
      (f.ordinal = e.ordinal ∨ f.messageId = e.messageId) then
    .error .constraint
  else if e.sessionId ∈ db.sessions ∧ e.messageId ∈ db.messages then
    .ok { db with entries := db.entries ++ [e] }
  else .error .foreignKey

def insertResponse (db : Tables U J) (responseId : U) (row : Response U J) :
    Except (StorageError U) (Tables U J) :=
  if responseId ∈ db.responses ∨ (db.responseTo row.sessionId row.requestId).isSome = true then
    .error .constraint
  else if row.sessionId ∈ db.sessions ∧ row.inputMessageId ∈ db.messages ∧
      ∀ m ∈ row.outputMessageId, m ∈ db.messages then
    .ok { db with responses := db.responses.insert responseId row }
  else .error .foreignKey

/-- `UPDATE sessions SET ... WHERE id = ?`; no constraint is on the columns it sets. -/
def updateSession (db : Tables U J) (sessionId : U) (set : Session J → Session J) : Tables U J :=
  match db.sessions.lookup sessionId with
  | none => db
  | some row => { db with sessions := db.sessions.insert sessionId (set row) }

def updateResponse (db : Tables U J) (responseId : U) (set : Response U J → Response U J) :
    Except (StorageError U) (Tables U J) :=
  match db.responses.lookup responseId with
  | none => .ok db
  | some row =>
    if ∀ m ∈ (set row).outputMessageId, m ∈ db.messages then
      .ok { db with responses := db.responses.insert responseId (set row) }
    else .error .foreignKey

/-- Nothing refers to a response. -/
def deleteResponses (db : Tables U J) (gone : Response U J → Bool) : Tables U J :=
  { db with responses := db.responses.filter fun _ r => !gone r }

/-- Nothing refers to a row of `session_messages`. -/
def deleteEntries (db : Tables U J) (gone : Entry U → Bool) : Tables U J :=
  { db with entries := db.entries.filter fun e => !gone e }

/-- `DELETE FROM sessions WHERE id = ?`, with what its cascades take along. -/
def deleteSessionRow (db : Tables U J) (sessionId : U) : Tables U J :=
  { db with
    sessions := db.sessions.erase sessionId
    entries := db.entries.filter fun e => e.sessionId ≠ sessionId
    responses := db.responses.filter fun _ r => r.sessionId ≠ sessionId }

/-- Whether every foreign key that refers to a message does refer to one. -/
def messageKeysHold (db : Tables U J) : Bool :=
  (db.messages.entries.all fun e => decide (∀ p ∈ e.2.parentId, p ∈ db.messages)) &&
    (db.entries.all fun e => decide (e.messageId ∈ db.messages)) &&
    db.responses.entries.all fun e =>
      decide (e.2.inputMessageId ∈ db.messages ∧ ∀ m ∈ e.2.outputMessageId, m ∈ db.messages)

/-- `DELETE FROM messages WHERE id NOT IN (SELECT message_id FROM session_messages)`. -/
def deleteOrphans (db : Tables U J) : Except (StorageError U) (Tables U J) :=
  let swept := { db with messages := db.messages.filter fun m _ => db.listed m }
  if swept.messageKeysHold then .ok swept else .error .foreignKey

end Tables

end TyloQuant.SessionStore
