import TyloQuant.SessionStore.Conversations

/-!
# Sequences of calls

A sequence of calls starts from empty tables.  The ids that a call generates have not been used
before, which is all that is said about where they come from.
-/

namespace TyloQuant.SessionStore

open Lib List

variable {U J : Type} [DecidableEq U]

structure World (U J : Type) where
  db : Tables U J := {}
  /-- The ids that calls have generated. -/
  used : List U := []

def step (w : World U J) (call : Nat × Action U J) : Option (World U J) :=
  if call.2.fresh.Nodup ∧ ∀ u ∈ call.2.fresh, u ∉ w.used then
    some { db := (call.2.perform w.db call.1).2, used := call.2.fresh ++ w.used }
  else none

/-! ### What happens to a message -/

theorem Tables.message_removed (db : Tables U J) (s m : U) :
    (db.removed s).messages.lookup m = db.messages.lookup m ∨
      (db.removed s).messages.lookup m = none := by
  have hfilter : (db.removed s).messages.lookup m =
      (db.messages.lookup m).filter fun _ => (db.deleteSessionRow s).listed m :=
    Table.lookup_filter _ db.messages m
  rw [hfilter]
  cases db.messages.lookup m with
  | none => exact Or.inl rfl
  | some row =>
    rw [Option.filter_some]
    split
    · exact Or.inl rfl
    · exact Or.inr rfl

variable {db' : Tables U J} {now : Nat} {a : Action U J} {e : Option (StorageError U)} {m : U}

/-- A call adds messages under generated ids only, and changes none. -/
theorem Outcome.message {db : Tables U J} (h : Outcome db now a (e, db')) (hm : m ∉ a.fresh) :
    db'.messages.lookup m = db.messages.lookup m ∨ db'.messages.lookup m = none := by
  cases h with
  | failed _ _ | repeated _ | created _ _ | forked _ _ _ _ _ | rewound _ _ _ _ _ | recovered _ =>
    exact Or.inl rfl
  | appended role parts hs hstate hfresh =>
    exact Or.inl (AList.lookup_insert_ne fun hme => hm (by simp [Action.fresh, hme]))
  | begun fingerprint inputParts settings inputRole hnew hs hstate hfresh hid =>
    exact Or.inl (AList.lookup_insert_ne fun hme => hm (by simp [Action.fresh, hme]))
  | completed output finishReason usage performance hid hrunning hs hfresh =>
    exact Or.inl (AList.lookup_insert_ne fun hme => hm (by simp [Action.fresh, hme]))
  | terminated error cancelled hid hrunning =>
    left
    unfold Tables.updateSession
    split <;> rfl
  | removed hs hstate =>
    exact Tables.message_removed db _ m

variable {s : U}

theorem Outcome.session {db : Tables U J} (h : Outcome db now a (e, db')) (hs : s ∈ db'.sessions) :
    s ∈ db.sessions ∨ s ∈ a.fresh := by
  have hold : ∀ {t row}, db.sessions.lookup t = some row →
      ∀ {row' : Session J}, s ∈ db.sessions.insert t row' → s ∈ db.sessions := by
    intro t row ht row' hmem
    rcases (AList.mem_insert _).mp hmem with rfl | hmem
    · exact Table.mem_of_lookup ht
    · exact hmem
  cases h with
  | failed _ _ | repeated _ => exact Or.inl hs
  | created _ _ | forked _ _ _ _ _ =>
    rcases (AList.mem_insert _).mp hs with rfl | hmem
    · exact Or.inr (mem_singleton.mpr rfl)
    · exact Or.inl hmem
  | appended role parts ht _ _ => exact Or.inl (hold ht hs)
  | rewound ht _ _ _ _ => exact Or.inl (hold ht hs)
  | begun fingerprint inputParts settings inputRole _ ht _ _ _ => exact Or.inl (hold ht hs)
  | completed output finishReason usage performance _ _ ht _ => exact Or.inl (hold ht hs)
  | terminated error cancelled hid _ =>
    left
    obtain ⟨row, hrow⟩ := (Table.mem_iff _ _).mp hs
    rw [Tables.lookup_updateSession] at hrow
    split at hrow
    · rename_i hst
      obtain ⟨old, hold, -⟩ := Option.map_eq_some_iff.mp hrow
      exact hst ▸ Table.mem_of_lookup hold
    · exact Table.mem_of_lookup hrow
  | recovered error =>
    obtain ⟨row, hrow⟩ := (Table.mem_iff _ _).mp hs
    obtain ⟨old, hold, -⟩ :=
      Option.map_eq_some_iff.mp ((Table.lookup_mapVal _ db.sessions s).symm.trans hrow)
    exact Or.inl (Table.mem_of_lookup hold)
  | removed _ _ => exact Or.inl (AList.mem_erase.mp hs).2

/-- What every sequence of calls keeps: the tables are sound, and their messages and sessions
    have ids that were generated. -/
structure World.Sound (w : World U J) : Prop where
  db : w.db.Sound
  used : ∀ m ∈ w.db.messages, m ∈ w.used
  sessions : ∀ s ∈ w.db.sessions, s ∈ w.used

theorem World.sound_empty : ({} : World U J).Sound where
  db :=
    { listed :=
        { ordinals := by
            intro s row hs
            cases hs
          session := by
            intro e he
            cases he
          chain := fun _ => trivial }
      answered :=
        { input := by
            intro id r hr
            cases hr
          output := by
            intro id r hr
            cases hr
          running := by
            intro id r hr
            cases hr
          processing := by
            intro s row hs
            cases hs
          once := by
            rintro s id id' ⟨r, hr, -⟩
            cases hr
          request := by
            intro id r id' r' hr
            cases hr } }
  used := by
    intro m hm
    cases hm
  sessions := by
    intro s hs
    cases hs

namespace World.Sound

variable {w w' : World U J} {call : Nat × Action U J}

/-- A call of which nothing but its outcome is known. -/
theorem step_outcome (h : w.Sound) (hstep : step w call = some w') :
    (∀ u ∈ call.2.fresh, u ∉ w.used) ∧ w'.used = call.2.fresh ++ w.used ∧
      Outcome w.db call.1 call.2 ((call.2.perform w.db call.1).1, w'.db) := by
  unfold step at hstep
  split at hstep
  · rename_i hfresh
    obtain rfl := Option.some.inj hstep
    exact ⟨hfresh.2, rfl, Tables.perform_outcome h.db call.1 call.2⟩
  · cases hstep

theorem step (h : w.Sound) (hstep : step w call = some w') : w'.Sound := by
  obtain ⟨-, hused, hout⟩ := h.step_outcome hstep
  refine ⟨h.db.outcome hout, ?_, ?_⟩
  · intro m hm
    rw [hused]
    by_cases hfresh : m ∈ call.2.fresh
    · exact mem_append_left _ hfresh
    · obtain ⟨row, hrow⟩ := (Table.mem_iff _ _).mp hm
      apply mem_append_right
      rcases hout.message hfresh with hsame | hnone
      · exact h.used m (Table.mem_of_lookup (hsame.symm.trans hrow))
      · cases hnone.symm.trans hrow
  · intro s hs
    rw [hused]
    rcases hout.session hs with hold | hfresh
    · exact mem_append_right _ (h.sessions s hold)
    · exact mem_append_left _ hfresh

variable {calls : List (Nat × Action U J)}

theorem run (h : w.Sound) (hrun : run SessionStore.step w calls = some w') : w'.Sound := by
  induction calls generalizing w with
  | nil =>
    obtain rfl := Option.some.inj hrun
    exact h
  | cons call calls ih =>
    obtain ⟨v, hv, hrest⟩ := run_cons.mp hrun
    exact ih (h.step hv) hrest

/-- A message that has been there is there unchanged, or it is gone for good. -/
theorem message_run (h : w.Sound) (hrun : Lib.run SessionStore.step w calls = some w')
    (hused : m ∈ w.used) :
    w'.db.messages.lookup m = w.db.messages.lookup m ∨ w'.db.messages.lookup m = none := by
  induction calls generalizing w with
  | nil =>
    obtain rfl := Option.some.inj hrun
    exact Or.inl rfl
  | cons call calls ih =>
    obtain ⟨v, hv, hrest⟩ := run_cons.mp hrun
    obtain ⟨hfresh, hvused, hout⟩ := h.step_outcome hv
    have hm : m ∈ v.used := by
      rw [hvused]
      exact mem_append_right _ hused
    rcases ih (h.step hv) hrest hm with hsame | hnone
    · rw [hsame]
      exact hout.message fun hmem => hfresh m hmem hused
    · exact Or.inr hnone

end World.Sound

/-! ### The store as a whole -/

/-- What a reader of the tables finds. -/
structure Tables.InOrder (db : Tables U J) : Prop where
  ordinals : ∀ s row, db.sessions.lookup s = some row →
    ((db.ordered s).map fun e => e.ordinal) = List.range' 1 row.revision
  /-- The messages that a session lists are there; the first one has no parent, and each other
      one has the one before it as its parent. -/
  parents : ∀ e ∈ db.entries, e.sessionId ∈ db.sessions ∧
    ∃ message, db.messages.lookup e.messageId = some message ∧
      (e.ordinal = 1 → message.parentId = none) ∧
      ∀ f ∈ db.entries, f.sessionId = e.sessionId → f.ordinal + 1 = e.ordinal →
        message.parentId = some f.messageId
  processing : ∀ s row, db.sessions.lookup s = some row →
    (row.state = .processing ↔ ∃! id, db.Running s id)
  lastInput : ∀ id r, db.responses.lookup id = some r → r.status = .running →
    db.previous r.sessionId = some r.inputMessageId
  responses : ∀ id r, db.responses.lookup id = some r →
    (∃ e ∈ db.entries, e.sessionId = r.sessionId ∧ e.messageId = r.inputMessageId) ∧
      ∀ m ∈ r.outputMessageId, ∃ e ∈ db.entries, e.sessionId = r.sessionId ∧ e.messageId = m
  request : ∀ id r id' r', db.responses.lookup id = some r → db.responses.lookup id' = some r' →
    r.sessionId = r'.sessionId → r.requestId = r'.requestId → id = id'

namespace Tables

variable {db : Tables U J}

theorem Listed.getElem?_history (h : db.Listed) {e : Entry U} (he : e ∈ db.entries) :
    1 ≤ e.ordinal ∧ (db.history e.sessionId)[e.ordinal - 1]? = some e.messageId := by
  obtain ⟨row, hs⟩ := (Table.mem_iff _ _).mp (h.session e he)
  obtain ⟨i, hi⟩ := getElem?_of_mem (mem_entriesOf.mpr ⟨he, rfl⟩)
  have hordinal : (List.range' 1 row.revision)[i]? = some e.ordinal := by
    rw [← h.ordinals _ _ hs, getElem?_map, hi]
    rfl
  obtain ⟨hlt, heq⟩ := List.getElem?_eq_some_iff.mp hordinal
  rw [getElem_range'] at heq
  have hplace : e.ordinal - 1 = i := by omega
  refine ⟨by omega, ?_⟩
  rw [hplace, history, getElem?_map, hi]
  rfl

theorem Sound.inOrder (h : db.Sound) : db.InOrder where
  ordinals := by
    intro s row hs
    rw [h.listed.ordered_eq hs]
    exact h.listed.ordinals s row hs
  parents := by
    intro e he
    obtain ⟨hpos, hplace⟩ := h.listed.getElem?_history he
    obtain ⟨message, hmessage, hparent⟩ := (h.listed.chain e.sessionId).parent hplace
    refine ⟨h.listed.session e he, message, hmessage, ?_, ?_⟩
    · intro hfirst
      rw [hparent, if_pos (by omega)]
    · intro f hf hs hnext
      obtain ⟨hfpos, hfplace⟩ := h.listed.getElem?_history hf
      have hbefore : e.ordinal - 1 - 1 = f.ordinal - 1 := by omega
      rw [hparent, if_neg (by omega), hbefore, ← hs, hfplace]
  processing := by
    intro s row hs
    constructor
    · intro hstate
      obtain ⟨id, hid⟩ := h.answered.processing s row hs hstate
      exact ⟨id, hid, fun id' hid' => h.answered.once s id' id hid' hid⟩
    · rintro ⟨id, hid, -⟩
      by_contra hstate
      exact h.answered.not_running hs hstate id hid
  lastInput := by
    intro id r hr hrunning
    obtain ⟨row, hs, -, hlast⟩ := h.answered.running id r hr hrunning
    rw [h.listed.previous_eq hs, hlast]
  responses := by
    intro id r hr
    refine ⟨mem_history.mp (h.answered.input id r hr), ?_⟩
    intro m hm
    exact mem_history.mp (h.answered.output id r hr m hm)
  request := h.answered.request

end Tables

/-- An error leaves the tables as they were, and is never the violation of a foreign key. -/
theorem Outcome.error {db : Tables U J} {e : StorageError U} (h : Outcome db now a (some e, db')) :
    e ≠ .foreignKey ∧ db' = db := by
  cases h with
  | failed _ he => exact ⟨he, rfl⟩

/-- A request that has a response starts nothing. -/
theorem begin_repeated (db : Tables U J) (now : Nat) {requestId : U}
    (h : (db.responseTo s requestId).isSome) (id : U) (fingerprint : String)
    (expectedRevision : Nat) (inputParts : List J) (settings : Option J) (inputRole : MessageRole)
    (m : U) :
    ((Action.begin_ s requestId id fingerprint expectedRevision inputParts settings inputRole
      m).perform db now).2 = db := by
  obtain ⟨existing, hexisting⟩ := Option.isSome_iff_exists.mp h
  simp only [Action.perform, Tables.beginResponse, hexisting]
  split
  · rfl
  split
  · rfl
  unfold Tables.repeatResponse
  split
  · rfl
  split <;> rfl

/-- **The conversations of a store.**  After any sequence of calls the tables are in order; a
    message that is in them never changes and is gone only when no session lists it; a call that
    fails changes nothing and never violates a foreign key; and a request that has a response is
    not answered again. -/
theorem conversations_in_order {calls : List (Nat × Action U J)} {w : World U J}
    (hrun : run step {} calls = some w) :
    w.db.InOrder ∧
      (∀ more w', run step w more = some w' → ∀ m row, w.db.messages.lookup m = some row →
        w'.db.messages.lookup m = some row ∨
          (w'.db.messages.lookup m = none ∧ ∀ e ∈ w'.db.entries, e.messageId ≠ m)) ∧
      (∀ now (a : Action U J) e db, a.perform w.db now = (some e, db) →
        e ≠ .foreignKey ∧ db = w.db) ∧
      ∀ now s requestId, (w.db.responseTo s requestId).isSome →
        ∀ id fingerprint expectedRevision inputParts settings inputRole m,
          ((Action.begin_ s requestId id fingerprint expectedRevision inputParts settings inputRole
            m).perform w.db now).2 = w.db := by
  have hsound : w.Sound := World.sound_empty.run hrun
  refine ⟨hsound.db.inOrder, ?_, ?_, ?_⟩
  · intro more w' hmore m row hm
    have hsound' : w'.Sound := hsound.run hmore
    rcases hsound.message_run hmore (hsound.used m (Table.mem_of_lookup hm)) with hsame | hnone
    · exact Or.inl (hsame.trans hm)
    · refine Or.inr ⟨hnone, ?_⟩
      rintro e he rfl
      obtain ⟨-, message, hmessage, -⟩ := hsound'.db.inOrder.parents e he
      cases hnone.symm.trans hmessage
  · intro now a e db hperform
    have hout := Tables.perform_outcome hsound.db now a
    rw [hperform] at hout
    exact hout.error
  · intro now s requestId h id fingerprint expectedRevision inputParts settings inputRole m
    exact begin_repeated w.db now h id fingerprint expectedRevision inputParts settings inputRole m

/-- Session 1 is answered once, forked, cut back to its first message and deleted while the fork
    runs a response of its own. -/
def talk : List (Nat × Action Nat Unit) :=
  [(0, .create { metadata := () } 1), (1, .append 1 0 .system [()] 2),
    (2, .begin_ 1 100 3 "a" 1 [()] none .user 4), (3, .complete 3 [()] "stop" none none 5),
    (4, .fork 1 {} 6), (5, .begin_ 6 100 7 "b" 3 [()] none .user 8),
    (6, .rewind 1 { expectedRevision := 3, atMessageId := 2 }), (7, .delete 1)]

theorem talk_in_order :
    ∃ w, run step {} talk = some w ∧ w.db.history 6 = [2, 4, 5, 8] ∧ w.db.InOrder := by
  have hhistory : (run step {} talk).map (fun w => w.db.history 6) = some [2, 4, 5, 8] := by decide
  obtain ⟨w, hw, h6⟩ := Option.map_eq_some_iff.mp hhistory
  exact ⟨w, hw, h6, (conversations_in_order hw).1⟩

end TyloQuant.SessionStore
