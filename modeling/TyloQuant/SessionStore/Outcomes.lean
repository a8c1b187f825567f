import TyloQuant.SessionStore.Histories
import TyloQuant.Lib.Outcome

/-!
# What a call can do

`Outcome` lists what a call can leave behind in tables that are in order.  There is one
constructor for each way in which a call ends, with all that the call has checked on that way;
among the errors the violation of a foreign key is missing.  Everything after this file reasons
about calls by their outcomes.
-/

namespace TyloQuant.SessionStore

open Lib List

variable {U J : Type} [DecidableEq U]

namespace Tables

/-- The response runs, and is one of the session. -/
def Running (db : Tables U J) (s id : U) : Prop :=
  ∃ r, db.responses.lookup id = some r ∧ r.sessionId = s ∧ r.status = .running

/-- The responses agree with the histories and the states of their sessions. -/
structure Answered (db : Tables U J) : Prop where
  input : ∀ id r, db.responses.lookup id = some r → r.inputMessageId ∈ db.history r.sessionId
  output : ∀ id r, db.responses.lookup id = some r →
    ∀ m ∈ r.outputMessageId, m ∈ db.history r.sessionId
  running : ∀ id r, db.responses.lookup id = some r → r.status = .running →
    ∃ row, db.sessions.lookup r.sessionId = some row ∧ row.state = .processing ∧
      (db.history r.sessionId).getLast? = some r.inputMessageId
  processing : ∀ s row, db.sessions.lookup s = some row → row.state = .processing →
    ∃ id, db.Running s id
  once : ∀ s id id', db.Running s id → db.Running s id' → id = id'
  request : ∀ id r id' r', db.responses.lookup id = some r → db.responses.lookup id' = some r' →
    r.sessionId = r'.sessionId → r.requestId = r'.requestId → id = id'

/-- What the operations keep of the tables. -/
structure Sound (db : Tables U J) : Prop where
  listed : db.Listed
  answered : db.Answered

/-- The tables after a session's last message was answered by a response that now has the row
    `response`. -/
def withResponse (db : Tables U J) (id : U) (response : Response U J) : Tables U J :=
  { db with responses := db.responses.insert id response }

/-- The response that `begin_response` starts. -/
def startedResponse (sessionId requestId messageId : U) (fingerprint : String)
    (settings : Option J) (now : Nat) : Response U J :=
  { sessionId, requestId, requestFingerprint := fingerprint, status := .running
    inputMessageId := messageId, outputMessageId := none, output := [], finishReason := none
    usage := none, performance := none, settings, error := none, createdAt := now
    completedAt := none }

/-- The call finds that what it was made for has been done. -/
def Repeated (db : Tables U J) : Action U J → Prop
  | .begin_ s requestId _ _ _ _ _ _ _ => (db.responseTo s requestId).isSome
  | .complete id _ _ _ _ _ => ∃ r, db.responses.lookup id = some r ∧ r.status = .completed
  | .terminate id _ _ => ∃ r, db.responses.lookup id = some r ∧ r.status ≠ .running
  | _ => False

end Tables

open Tables

/-! ### Outcomes -/

inductive Outcome (db : Tables U J) (now : Nat) :
    Action U J → Option (StorageError U) × Tables U J → Prop where
  | failed (a : Action U J) {e : StorageError U} (he : e ≠ .foreignKey) :
      Outcome db now a (some e, db)
  | repeated {a : Action U J} (h : db.Repeated a) : Outcome db now a (none, db)
  | created (request : CreateSessionRequest J) {s : U} (hs : s ∉ db.sessions) :
      Outcome db now (.create request s)
        (none, db.withSession s
          { model := request.model, mode := request.mode, state := .idle, revision := 0
            title := request.title, createdAt := now, updatedAt := now
            metadata := request.metadata } [])
  | forked (request : ForkSessionRequest U) {s t : U} {source row : Session J}
      (hs : db.sessions.lookup s = some source) (ht : t ∉ db.sessions)
      (hle : row.revision ≤ source.revision) (hidle : row.state = .idle) :
      Outcome db now (.fork s request t)
        (none, db.withSession t row ((db.entriesOf s).take row.revision))
  | appended (role : MessageRole) (parts : List J) {s m : U} {row : Session J}
      (hs : db.sessions.lookup s = some row) (hstate : row.state = .idle ∨ row.state = .error)
      (hm : m ∉ db.messages) :
      Outcome db now (.append s row.revision role parts m)
        (none, db.withMessage s { row with revision := row.revision + 1, updatedAt := now } m
          { role, parts, parentId := db.previous s, createdAt := now })
  | rewound {request : RewindSessionRequest U} {s : U} {row : Session J} {limit : Nat}
      (hs : db.sessions.lookup s = some row) (hrevision : row.revision = request.expectedRevision)
      (hstate : row.state ≠ .processing) (hlimit : db.rewindLimit s request = some limit)
      (hle : limit ≤ row.revision) :
      Outcome db now (.rewind s request)
        (none, db.rewound s { row with revision := limit, state := .idle, updatedAt := now })
  | begun (fingerprint : String) (inputParts : List J) (settings : Option J)
      (inputRole : MessageRole) {s requestId id m : U} {row : Session J}
      (hnew : db.responseTo s requestId = none) (hs : db.sessions.lookup s = some row)
      (hstate : row.state = .idle ∨ row.state = .error ∨ row.state = .interrupted)
      (hm : m ∉ db.messages) (hid : id ∉ db.responses) :
      Outcome db now
        (.begin_ s requestId id fingerprint row.revision inputParts settings inputRole m)
        (none, (db.withMessage s
          { row with revision := row.revision + 1, state := .processing, updatedAt := now } m
          { role := inputRole, parts := inputParts, parentId := db.previous s
            createdAt := now }).withResponse id
          (startedResponse s requestId m fingerprint settings now))
  | completed (output : List J) (finishReason : String) (usage performance : Option J) {id m : U}
      {response : Response U J} {row : Session J} (hid : db.responses.lookup id = some response)
      (hrunning : response.status = .running)
      (hs : db.sessions.lookup response.sessionId = some row) (hm : m ∉ db.messages) :
      Outcome db now (.complete id output finishReason usage performance m)
        (none, (db.withMessage response.sessionId
          { row with revision := row.revision + 1, state := .idle, updatedAt := now } m
          { role := .assistant, parts := output, parentId := db.previous response.sessionId
            createdAt := now }).withResponse id
          { response with
            status := .completed, outputMessageId := some m, output
            finishReason := some finishReason, usage, performance, error := none
            completedAt := some now })
  | terminated (error : J) (cancelled : Bool) {id : U} {response : Response U J}
      (hid : db.responses.lookup id = some response) (hrunning : response.status = .running) :
      Outcome db now (.terminate id error cancelled)
        (none, (db.withResponse id
          { response with
            status := if cancelled then .cancelled else .failed, error := some error
            completedAt := some now }).updateSession response.sessionId fun row =>
          { row with state := if cancelled then .interrupted else .error, updatedAt := now })
  | recovered (error : J) :
      Outcome db now (.recover error) (none, (db.recoverInterruptedResponses error now).2)
  | removed {s : U} {row : Session J} (hs : db.sessions.lookup s = some row)
      (hstate : row.state ≠ .processing) :
      Outcome db now (.delete s) (none, db.removed s)

/-! ### The ends of a transaction -/

section Transactions

variable {α : Type} {db : Tables U J} {now : Nat} {a : Action U J}
  {read : Tables U J → Except (StorageError U) α}

/-- A body that throws is rolled back. -/
theorem outcome_error {e : StorageError U} (he : e ≠ .foreignKey) :
    Outcome db now a (Action.perform.outcome (finish db read (.error e))) :=
  .failed a he

theorem outcome_repeated {x : α} (h : db.Repeated a) :
    Outcome db now a (Action.perform.outcome (finish db read (.ok (some x, db)))) :=
  .repeated h

/-- A body that ends is committed, and the call returns when the result is found. -/
theorem outcome_ok {db' : Tables U J} {x : α} (hread : read db' = .ok x)
    (h : Outcome db now a (none, db')) :
    Outcome db now a (Action.perform.outcome (finish db read (.ok (none, db')))) := by
  have hfinish : Action.perform.outcome (finish db read (.ok (none, db'))) = (none, db') := by
    simp only [finish, hread, Action.perform.outcome]
  rw [hfinish]
  exact h

end Transactions

namespace Tables

variable {db : Tables U J} {now : Nat} {s : U} {row : Session J}

theorem getSession_of_lookup (h : db.sessions.lookup s = some row) : db.getSession s = .ok row := by
  simp only [getSession, h]

variable {id : U}

theorem getResponse_of_lookup {r : Response U J} (h : db.responses.lookup id = some r) :
    db.getResponse id = .ok r := by
  simp only [getResponse, h]

@[simp] theorem sessions_withMessage (s m : U) (row : Session J) (message : Message U J) :
    (db.withMessage s row m message).sessions = db.sessions.insert s row := rfl

@[simp] theorem responses_withMessage (s m : U) (row : Session J) (message : Message U J) :
    (db.withMessage s row m message).responses = db.responses := rfl

@[simp] theorem messages_withMessage (s m : U) (row : Session J) (message : Message U J) :
    (db.withMessage s row m message).messages = db.messages.insert m message := rfl

@[simp] theorem sessions_withResponse (id : U) (r : Response U J) :
    (db.withResponse id r).sessions = db.sessions := rfl

@[simp] theorem responses_withResponse (id : U) (r : Response U J) :
    (db.withResponse id r).responses = db.responses.insert id r := rfl

@[simp] theorem history_withResponse (id : U) (r : Response U J) (s : U) :
    (db.withResponse id r).history s = db.history s := rfl

/-! ### The statements -/

theorem insertMessage_ok {m : U} (message : Message U J) (hm : m ∉ db.messages)
    (hparent : ∀ p ∈ message.parentId, p = m ∨ p ∈ db.messages) :
    db.insertMessage m message = .ok { db with messages := db.messages.insert m message } := by
  simp only [insertMessage, if_neg hm, if_pos hparent]

theorem insertEntry_ok (db : Tables U J) (e : Entry U) (hs : e.sessionId ∈ db.sessions)
    (hm : e.messageId ∈ db.messages) :
    db.insertEntry e = .error .constraint ∨
      db.insertEntry e = .ok { db with entries := db.entries ++ [e] } := by
  simp only [insertEntry, if_pos (And.intro hs hm)]
  split
  · exact Or.inl rfl
  · exact Or.inr rfl

theorem attach_spec (h : db.Listed) (hs : db.sessions.lookup s = some row) (m : U)
    (role : MessageRole) (parts : List J) (state : SessionState → SessionState) :
    db.attach s row.revision m role parts state now = .error .constraint ∨
      (m ∉ db.messages ∧ db.attach s row.revision m role parts state now = .ok
        (db.withMessage s
          { row with revision := row.revision + 1, state := state row.state, updatedAt := now } m
          { role, parts, parentId := db.previous s, createdAt := now })) := by
  by_cases hm : m ∈ db.messages
  · left
    simp only [attach, insertMessage, if_pos hm]
    rfl
  have hparent : ∀ p ∈ db.previous s, p = m ∨ p ∈ db.messages := by
    intro p hp
    rw [h.previous_eq hs] at hp
    exact Or.inr (h.message (mem_of_getLast? hp))
  let message : Message U J := { role, parts, parentId := db.previous s, createdAt := now }
  let inserted : Tables U J := { db with messages := db.messages.insert m message }
  have hmessage : db.insertMessage m message = .ok inserted := insertMessage_ok message hm hparent
  have hentry := insertEntry_ok inserted
    { sessionId := s, ordinal := row.revision + 1, messageId := m }
    (Table.mem_of_lookup hs) ((AList.mem_insert _).mpr (Or.inl rfl))
  rcases hentry with hentry | hentry
  · left
    simp only [attach, bind, Except.bind, hmessage, message, hentry]
  · right
    refine ⟨hm, ?_⟩
    simp only [attach, bind, Except.bind, hmessage, message, hentry, updateSession, inserted, hs,
      pure, Except.pure]
    rfl

theorem foldlM_insertEntry (t : U) (copied : List (Entry U)) (db : Tables U J)
    (ht : t ∈ db.sessions) (hm : ∀ e ∈ copied, e.messageId ∈ db.messages) :
    copied.foldlM (fun db e => db.insertEntry { e with sessionId := t }) db = .error .constraint ∨
      copied.foldlM (fun db e => db.insertEntry { e with sessionId := t }) db =
        .ok { db with entries := db.entries ++ copied.map fun e => { e with sessionId := t } } := by
  induction copied generalizing db with
  | nil =>
    right
    simp [pure, Except.pure]
  | cons e copied ih =>
    rw [foldlM_cons]
    rcases insertEntry_ok db { e with sessionId := t } ht (hm e mem_cons_self) with he | he
    · left
      rw [he]
      rfl
    · rw [he]
      have hrest := ih { db with entries := db.entries ++ [{ e with sessionId := t }] } ht
        fun f hf => hm f (mem_cons_of_mem e hf)
      simpa [bind, Except.bind, List.append_assoc] using hrest

theorem updateResponse_ok {r : Response U J} {set : Response U J → Response U J}
    (hid : db.responses.lookup id = some r) (hm : ∀ m ∈ (set r).outputMessageId, m ∈ db.messages) :
    db.updateResponse id set = .ok (db.withResponse id (set r)) := by
  simp only [updateResponse, hid, if_pos hm]
  rfl

@[simp] theorem responses_updateSession (s : U) (set : Session J → Session J) :
    (db.updateSession s set).responses = db.responses := by
  unfold updateSession
  split <;> rfl

theorem getResponse_updateSession (id : U) (r : Response U J) (s : U)
    (set : Session J → Session J) :
    ((db.withResponse id r).updateSession s set).getResponse id = .ok r := by
  apply getResponse_of_lookup
  rw [responses_updateSession]
  exact AList.lookup_insert _

/-! ### The operations on sessions -/

theorem createSession_outcome (db : Tables U J) (request : CreateSessionRequest J) (s : U)
    (now : Nat) : Outcome db now (.create request s) ((Action.create request s).perform db now) := by
  simp only [Action.perform, createSession, insertSession]
  by_cases hs : s ∈ db.sessions
  · rw [if_pos hs]
    exact outcome_error (by simp)
  · rw [if_neg hs]
    refine outcome_ok (getSession_of_lookup (AList.lookup_insert db.sessions)) ?_
    simpa [withSession] using Outcome.created request hs

theorem appendMessage_outcome (h : db.Listed) (s : U) (expectedRevision : Nat)
    (role : MessageRole) (parts : List J) (m : U) :
    Outcome db now (.append s expectedRevision role parts m)
      ((Action.append s expectedRevision role parts m).perform db now) := by
  simp only [Action.perform, appendMessage]
  by_cases hparts : parts.isEmpty = true
  · rw [if_pos hparts]
    exact .failed _ (by simp)
  rw [if_neg hparts]
  cases hs : db.sessions.lookup s with
  | none => exact outcome_error (by simp)
  | some row =>
    dsimp only
    by_cases hrevision : row.revision = expectedRevision
    · subst hrevision
      rw [if_neg (not_not_intro rfl)]
      by_cases hstate : row.state = .idle ∨ row.state = .error
      · rw [if_neg (not_not_intro hstate)]
        rcases attach_spec h hs m role parts id with herror | ⟨hm, hok⟩
        · rw [herror]
          exact outcome_error (by simp)
        · rw [hok]
          exact outcome_ok (getSession_of_lookup (AList.lookup_insert _))
            (.appended role parts hs hstate hm)
      · rw [if_pos hstate]
        exact outcome_error (by simp)
    · rw [if_pos hrevision]
      exact outcome_error (by simp)

theorem forkLimit_spec (h : db.Listed) {source : Session J}
    (hs : db.sessions.lookup s = some source) (request : ForkSessionRequest U) :
    (∃ e, e ≠ .foreignKey ∧ db.forkLimit s source request = .error e) ∨
      ∃ limit ≤ source.revision, db.forkLimit s source request = .ok limit := by
  unfold forkLimit
  cases hat : request.atMessageId with
  | none =>
    cases request.includeMessage with
    | true => exact Or.inr ⟨source.revision, Nat.le_refl _, rfl⟩
    | false => exact Or.inl ⟨_, by simp, rfl⟩
  | some m =>
    dsimp only
    cases hn : db.ordinalOf s m with
    | none => exact Or.inl ⟨_, by simp, rfl⟩
    | some n =>
      have hle := h.ordinalOf_le hs hn
      refine Or.inr ⟨_, ?_, rfl⟩
      split <;> omega

theorem forkSession_outcome (h : db.Listed) (s : U) (request : ForkSessionRequest U) (t : U) :
    Outcome db now (.fork s request t)
      ((Action.fork s request t : Action U J).perform db now) := by
  simp only [Action.perform, forkSession]
  cases hs : db.sessions.lookup s with
  | none => exact outcome_error (by simp)
  | some source =>
    dsimp only
    rcases forkLimit_spec h hs request with ⟨e, he, herror⟩ | ⟨limit, hle, hlimit⟩
    · rw [herror]
      exact outcome_error he
    rw [hlimit, h.ordered_eq hs]
    by_cases ht : t ∈ db.sessions
    · simp only [bind, Except.bind, insertSession, if_pos ht]
      exact outcome_error (by simp)
    simp only [bind, Except.bind, insertSession, if_neg ht, h.filter_ordinal hs]
    have hcopied : ∀ e ∈ (db.entriesOf s).take limit, e.messageId ∈ db.messages := by
      intro e he
      exact h.message (mem_map_of_mem (mem_of_mem_take he))
    generalize hrow : Session.mk _ _ SessionState.idle limit _ now now _ = row
    have hrevision : row.revision = limit := by rw [← hrow]
    have hidle : row.state = .idle := by rw [← hrow]
    rcases foldlM_insertEntry t ((db.entriesOf s).take limit)
      { db with sessions := db.sessions.insert t row }
      ((AList.mem_insert _).mpr (Or.inl rfl)) hcopied with hfold | hfold
    · rw [hfold]
      exact outcome_error (by simp)
    · rw [hfold, ← hrevision]
      exact outcome_ok (getSession_of_lookup (AList.lookup_insert _))
        (.forked request hs ht (hrevision ▸ hle) hidle)

theorem rewindLimit_le (h : db.Listed) (hs : db.sessions.lookup s = some row)
    {request : RewindSessionRequest U} {limit : Nat}
    (hlimit : db.rewindLimit s request = some limit) : limit ≤ row.revision := by
  obtain ⟨n, hn, rfl⟩ := Option.map_eq_some_iff.mp hlimit
  have hle := h.ordinalOf_le hs hn
  split <;> omega

theorem rewindSession_outcome (h : db.Listed) (s : U) (request : RewindSessionRequest U) :
    Outcome db now (.rewind s request)
      ((Action.rewind s request : Action U J).perform db now) := by
  simp only [Action.perform, rewindSession]
  cases hs : db.sessions.lookup s with
  | none => exact outcome_error (by simp)
  | some row =>
    dsimp only
    by_cases hrevision : row.revision = request.expectedRevision
    · rw [if_neg (not_not_intro hrevision)]
      by_cases hstate : row.state = .processing
      · rw [if_pos hstate]
        exact outcome_error (by simp)
      rw [if_neg hstate]
      cases hlimit : db.rewindLimit s request with
      | none => exact outcome_error (by simp)
      | some limit =>
        simp only [updateSession, deleteResponses, deleteEntries, hs]
        exact outcome_ok (getSession_of_lookup (AList.lookup_insert _))
          (.rewound hs hrevision hstate hlimit (rewindLimit_le h hs hlimit))
    · rw [if_pos hrevision]
      exact outcome_error (by simp)

/-- What is left after a removal refers only to what is left. -/
theorem Sound.messageKeysHold_removed (h : db.Sound) (s : U) :
    (db.removed s).messageKeysHold = true := by
  have hlisted := h.listed.removed s
  have hkept : ∀ m r, (db.removed s).messages.lookup m = some r → db.messages.lookup m = some r ∧
      ∃ t, m ∈ (db.removed s).history t := by
    intro m r hm
    obtain ⟨hrow, hl⟩ := Table.lookup_filter_some.mp hm
    exact ⟨hrow, listed_iff.mp hl⟩
  have hhistory : ∀ t, t ≠ s → (db.removed s).history t = db.history t := by
    intro t ht
    rw [history_removed, if_neg ht]
  simp only [messageKeysHold, Bool.and_eq_true, all_eq_true, decide_eq_true_eq]
  refine ⟨⟨?_, ?_⟩, ?_⟩
  · intro e he p hp
    obtain ⟨-, t, ht⟩ := hkept e.1 e.2 (Table.lookup_of_mem_entries he)
    obtain ⟨i, hi⟩ := getElem?_of_mem ht
    obtain ⟨row, hrow, hparent⟩ := (hlisted.chain t).parent hi
    obtain rfl : row = e.2 := Option.some.inj (hrow.symm.trans (Table.lookup_of_mem_entries he))
    rw [Option.mem_def, hparent] at hp
    split at hp
    · cases hp
    · exact hlisted.message (mem_of_getElem? hp)
  · intro e he
    exact hlisted.message (mem_history.mpr ⟨e, he, rfl, rfl⟩)
  · intro e he
    obtain ⟨hrow, hne⟩ := response_removed.mp (Table.lookup_of_mem_entries he)
    refine ⟨?_, ?_⟩
    · apply hlisted.message
      rw [hhistory _ hne]
      exact h.answered.input e.1 e.2 hrow
    · intro m hm
      apply hlisted.message
      rw [hhistory _ hne]
      exact h.answered.output e.1 e.2 hrow m hm

theorem removeSession_eq (h : db.Sound) (hs : s ∈ db.sessions) :
    db.removeSession s = (.ok (), db.removed s) := by
  have hkeys := h.messageKeysHold_removed s
  have hsweep : (db.deleteSessionRow s).deleteOrphans = .ok (db.removed s) := if_pos hkeys
  simp only [removeSession, not_not_intro hs, if_false, hsweep]
  rfl

theorem deleteSession_outcome (h : db.Sound) (s : U) :
    Outcome db now (.delete s) ((Action.delete s : Action U J).perform db now) := by
  simp only [Action.perform, deleteSession, checkDelete]
  cases hs : db.sessions.lookup s with
  | none => exact .failed _ (by simp)
  | some row =>
    dsimp only
    by_cases hstate : row.state = .listening ∨ row.state = .processing ∨ row.state = .speaking
    · rw [if_pos hstate]
      exact .failed _ (by simp)
    · rw [if_neg hstate]
      dsimp only
      rw [removeSession_eq h (Table.mem_of_lookup hs)]
      exact .removed hs fun hp => hstate (Or.inr (Or.inl hp))

/-! ### The operations on responses -/

theorem begun_outcome {requestId m : U} {fingerprint : String} {inputParts : List J}
    {settings : Option J} {inputRole : MessageRole} (hnew : db.responseTo s requestId = none)
    (hs : db.sessions.lookup s = some row)
    (hstate : row.state = .idle ∨ row.state = .error ∨ row.state = .interrupted)
    (hm : m ∉ db.messages) :
    Outcome db now
      (.begin_ s requestId id fingerprint row.revision inputParts settings inputRole m)
      (Action.perform.outcome (finish db
        (fun db => do
          let session ← db.getSession s
          let response ← db.getResponse id
          pure ({ session, response, started := true } : BeginResponseResult U J))
        (do
          let db ← (db.withMessage s
            { row with revision := row.revision + 1, state := .processing, updatedAt := now } m
            { role := inputRole, parts := inputParts, parentId := db.previous s
              createdAt := now }).insertResponse id
            (startedResponse s requestId m fingerprint settings now)
          pure (none, db)))) := by
  generalize hattached : db.withMessage s _ m _ = attached
  have hsessions : attached.sessions = db.sessions.insert s
      { row with revision := row.revision + 1, state := .processing, updatedAt := now } := by
    rw [← hattached, sessions_withMessage]
  have hresponses : attached.responses = db.responses := by
    rw [← hattached, responses_withMessage]
  have hsession : s ∈ attached.sessions := by
    rw [hsessions]
    exact (AList.mem_insert _).mpr (Or.inl rfl)
  have hmessage : m ∈ attached.messages := by
    rw [← hattached, messages_withMessage]
    exact (AList.mem_insert _).mpr (Or.inl rfl)
  by_cases hid : id ∈ db.responses
  · have hinsert : attached.insertResponse id
        (startedResponse s requestId m fingerprint settings now) = .error .constraint := by
      rw [insertResponse, if_pos]
      left
      rwa [hresponses]
    rw [hinsert]
    exact outcome_error (by simp)
  · have hrequest : attached.responseTo s requestId = none := by
      rw [responseTo, hresponses]
      exact hnew
    have hinsert : attached.insertResponse id
        (startedResponse s requestId m fingerprint settings now) = .ok (attached.withResponse id
            (startedResponse s requestId m fingerprint settings now)) := by
      rw [insertResponse, if_neg, if_pos]
      · rfl
      · exact ⟨hsession, hmessage, fun _ h => by cases h⟩
      · rw [hresponses]
        rintro (hmem | hsome)
        · exact hid hmem
        · simp [startedResponse, hrequest] at hsome
    rw [hinsert]
    refine outcome_ok (x := ⟨{ row with
      revision := row.revision + 1, state := .processing, updatedAt := now },
      startedResponse s requestId m fingerprint settings now, true⟩) ?_ ?_
    · simp only [getSession, getResponse, sessions_withResponse, responses_withResponse, hsessions,
        AList.lookup_insert]
      rfl
    · rw [← hattached]
      exact .begun fingerprint inputParts settings inputRole hnew hs hstate hm hid

theorem beginResponse_outcome (h : db.Listed) (s requestId id : U) (fingerprint : String)
    (expectedRevision : Nat) (inputParts : List J) (settings : Option J) (inputRole : MessageRole)
    (m : U) :
    Outcome db now
      (.begin_ s requestId id fingerprint expectedRevision inputParts settings inputRole m)
      ((Action.begin_ s requestId id fingerprint expectedRevision inputParts settings inputRole
        m).perform db now) := by
  simp only [Action.perform, beginResponse]
  by_cases hparts : inputParts.isEmpty = true
  · rw [if_pos hparts]
    exact .failed _ (by simp)
  rw [if_neg hparts]
  by_cases hrole : inputRole = .user ∨ inputRole = .tool
  · rw [if_neg (not_not_intro hrole)]
    cases hnew : db.responseTo s requestId with
    | some existing =>
      dsimp only
      have hrepeated : db.Repeated (.begin_ s requestId id fingerprint expectedRevision
          inputParts settings inputRole m) := by
        simp only [Repeated, hnew, Option.isSome_some]
      unfold repeatResponse
      split
      · exact outcome_error (by simp)
      · split
        · exact outcome_error (by simp)
        · exact outcome_repeated hrepeated
    | none =>
      dsimp only
      cases hs : db.sessions.lookup s with
      | none => exact outcome_error (by simp)
      | some row =>
        dsimp only
        by_cases hrevision : row.revision = expectedRevision
        · subst hrevision
          rw [if_neg (not_not_intro rfl)]
          by_cases hstate : row.state = .idle ∨ row.state = .error ∨ row.state = .interrupted
          · rw [if_neg (not_not_intro hstate)]
            rcases attach_spec h hs m inputRole inputParts
              (fun _ => .processing) with herror | ⟨hm, hok⟩
            · rw [herror]
              exact outcome_error (by simp)
            · rw [hok]
              exact begun_outcome hnew hs hstate hm
          · rw [if_pos hstate]
            exact outcome_error (by simp)
        · rw [if_pos hrevision]
          exact outcome_error (by simp)
  · rw [if_pos hrole]
    exact .failed _ (by simp)

theorem completeResponse_outcome (h : db.Listed) (id : U) (output : List J)
    (finishReason : String) (usage performance : Option J) (m : U) :
    Outcome db now (.complete id output finishReason usage performance m)
      ((Action.complete id output finishReason usage performance m).perform db now) := by
  simp only [Action.perform, completeResponse]
  by_cases hparts : output.isEmpty = true
  · rw [if_pos hparts]
    exact .failed _ (by simp)
  rw [if_neg hparts]
  cases hid : db.responses.lookup id with
  | none => exact outcome_error (by simp)
  | some r =>
    dsimp only
    by_cases hcompleted : r.status = .completed
    · rw [if_pos hcompleted]
      exact outcome_repeated ⟨r, hid, hcompleted⟩
    rw [if_neg hcompleted]
    by_cases hrunning : r.status = .running
    · rw [if_neg (not_not_intro hrunning)]
      cases hs : db.sessions.lookup r.sessionId with
      | none => exact outcome_error (by simp)
      | some row =>
        dsimp only
        rcases attach_spec h hs m .assistant output (fun _ => .idle)
          with herror | ⟨hm, hok⟩
        · rw [herror]
          exact outcome_error (by simp)
        · rw [hok]
          simp only [bind, Except.bind]
          rw [updateResponse_ok (r := r) (by rw [responses_withMessage, hid])]
          · exact outcome_ok (getResponse_of_lookup (AList.lookup_insert _))
              (.completed output finishReason usage performance hid hrunning hs hm)
          · intro p hp
            obtain rfl := Option.some.inj hp
            exact (AList.mem_insert _).mpr (Or.inl rfl)
    · rw [if_pos hrunning]
      exact outcome_error (by simp)

theorem terminateResponse_outcome (h : db.Sound) (id : U) (error : J) (cancelled : Bool) :
    Outcome db now (.terminate id error cancelled)
      ((Action.terminate id error cancelled).perform db now) := by
  simp only [Action.perform, terminateResponse]
  cases hid : db.responses.lookup id with
  | none => exact outcome_error (by simp)
  | some r =>
    dsimp only
    by_cases hrunning : r.status = .running
    · rw [if_neg (not_not_intro hrunning), updateResponse_ok hid]
      · exact outcome_ok (getResponse_updateSession id _ _ _)
          (.terminated error cancelled hid hrunning)
      · intro m hm
        exact h.listed.message (h.answered.output id r hid m hm)
    · rw [if_pos hrunning]
      exact outcome_repeated ⟨r, hid, hrunning⟩

/-- **Every call has one of the outcomes.** -/
theorem perform_outcome (h : db.Sound) (now : Nat) (a : Action U J) :
    Outcome db now a (a.perform db now) := by
  cases a with
  | create request s => exact createSession_outcome db request s now
  | append s expectedRevision role parts m =>
    exact appendMessage_outcome h.listed s expectedRevision role parts m
  | fork s request t => exact forkSession_outcome h.listed s request t
  | rewind s request => exact rewindSession_outcome h.listed s request
  | begin_ s requestId id fingerprint expectedRevision inputParts settings inputRole m =>
    exact beginResponse_outcome h.listed s requestId id fingerprint expectedRevision inputParts
      settings inputRole m
  | complete id output finishReason usage performance m =>
    exact completeResponse_outcome h.listed id output finishReason usage performance m
  | terminate id error cancelled => exact terminateResponse_outcome h id error cancelled
  | recover error => exact .recovered error
  | delete s => exact deleteSession_outcome h s

end Tables

end TyloQuant.SessionStore
