import TyloQuant.SessionStore.Runs

/-!
# Clients at the same time

Every client has a connection of its own.  All operations but one take the write lock with
`BEGIN IMMEDIATE` before they read anything, and hold it until they commit.  `delete_session` reads
its session first, with a `SELECT` that is a transaction of its own, and its `DELETE` takes the
lock; in between, other clients commit what they like.

What an operation reads back after its commit decides only what it returns, and is no step here.
-/

namespace TyloQuant.SessionStore

open Lib

/-- A `delete_session` whose check has passed. -/
structure Deleting (U : Type) where
  session : U
  /-- The responses of the session that were started since. -/
  started : List U := []

/-- What the holder of the write lock is going to commit. -/
inductive Transaction (U J : Type) where
  | call (now : Nat) (a : Action U J)
  | remove (d : Deleting U)

structure Clients (U J : Type) where
  store : World U J := {}
  writer : Option (Transaction U J) := none
  deleting : Table Nat (Deleting U) := ∅
  /-- The responses that were reported as started and have not been ended. -/
  running : List U := []

inductive Move (U J : Type) where
  /-- `BEGIN IMMEDIATE`. -/
  | begin_ (now : Nat) (a : Action U J)
  /-- The `SELECT` of `delete_session`. -/
  | check (client : Nat) (sessionId : U)
  /-- Its `DELETE`. -/
  | delete (client : Nat)
  | commit

variable {U J : Type} [DecidableEq U]

namespace Action

def isDelete : Action U J → Bool
  | .delete _ => true
  | _ => false

/-- The session and the id of the response that the call starts, where `e` is what it throws. -/
def starts (db : Tables U J) (e : Option (StorageError U)) : Action U J → Option (U × U)
  | .begin_ s requestId id _ _ _ _ _ _ =>
    if e.isNone ∧ (db.responseTo s requestId).isNone then some (s, id) else none
  | _ => none

/-- Whether the call ends the response. -/
def ends (e : Option (StorageError U)) (id : U) : Action U J → Bool
  | .complete k _ _ _ _ _ => e.isNone ∧ k = id
  | .terminate k _ _ => e.isNone ∧ k = id
  | .recover _ => true
  | _ => false

end Action

def Deleting.note (started : Option (U × U)) (d : Deleting U) : Deleting U :=
  match started with
  | none => d
  | some (s, id) => if s = d.session then { d with started := id :: d.started } else d

def move (c : Clients U J) : Move U J → Option (Clients U J)
  | .begin_ now a =>
    if c.writer.isNone ∧ a.isDelete = false then some { c with writer := some (.call now a) }
    else none
  | .check client s =>
    if client ∈ c.deleting then none
    else
      match c.store.db.checkDelete s with
      | .error _ => some c
      | .ok () => some { c with deleting := c.deleting.insert client { session := s } }
  | .delete client =>
    match c.writer, c.deleting.lookup client with
    | none, some d =>
      some { c with writer := some (.remove d), deleting := c.deleting.erase client }
    | _, _ => none
  | .commit =>
    match c.writer with
    | none => none
    | some (.call now a) =>
      let e := (a.perform c.store.db now).1
      let started := a.starts c.store.db e
      (step c.store (now, a)).map fun store =>
        { store, writer := none
          deleting := c.deleting.mapVal fun _ d => d.note started
          running := (started.map fun p => p.2).toList ++ c.running.filter fun id => !a.ends e id }
    | some (.remove d) =>
      some { c with
        store := { c.store with db := (c.store.db.removeSession d.session).2 }
        writer := none }

variable {c c' : Clients U J}

/-- A commit is that of a call or that of a removal. -/
theorem move_commit (hmove : move c .commit = some c') :
    (∃ now a, c.writer = some (.call now a) ∧ step c.store (now, a) = some c'.store ∧
      c'.writer = none ∧
      c'.deleting = c.deleting.mapVal (fun _ d =>
        d.note (a.starts c.store.db (a.perform c.store.db now).1)) ∧
      c'.running = ((a.starts c.store.db (a.perform c.store.db now).1).map fun p => p.2).toList ++
        c.running.filter fun id => !a.ends (a.perform c.store.db now).1 id) ∨
      ∃ d, c.writer = some (.remove d) ∧ c' = { c with
        store := { c.store with db := (c.store.db.removeSession d.session).2 }
        writer := none } := by
  simp only [move] at hmove
  split at hmove
  · cases hmove
  · rename_i now a hwriter
    obtain ⟨store, hstore, rfl⟩ := Option.map_eq_some_iff.mp hmove
    exact Or.inl ⟨now, a, hwriter, hstore, rfl, rfl, rfl⟩
  · rename_i d hwriter
    exact Or.inr ⟨d, hwriter, (Option.some.inj hmove).symm⟩

variable {m : Move U J}

/-- Nothing else touches the tables. -/
theorem move_store (hmove : move c m = some c') (hm : m ≠ .commit) :
    c'.store = c.store ∧ c'.running = c.running := by
  cases m with
  | commit => exact absurd rfl hm
  | begin_ now a =>
    simp only [move] at hmove
    split at hmove
    · obtain rfl := Option.some.inj hmove
      exact ⟨rfl, rfl⟩
    · cases hmove
  | check client s =>
    simp only [move] at hmove
    split at hmove
    · cases hmove
    split at hmove
    all_goals
      obtain rfl := Option.some.inj hmove
      exact ⟨rfl, rfl⟩
  | delete client =>
    simp only [move] at hmove
    split at hmove
    · obtain rfl := Option.some.inj hmove
      exact ⟨rfl, rfl⟩
    · cases hmove

/-! ### Which responses run -/

variable {s : U}

namespace Outcome

variable {db db' : Tables U J} {now : Nat} {a : Action U J} {e : Option (StorageError U)} {id : U}

/-- A response that runs after a call ran before, or the call has started it. -/
theorem running_before (h : Outcome db now a (e, db')) (hid : db'.Running s id) :
    db.Running s id ∨ a.starts db e = some (s, id) := by
  obtain ⟨r, hr, hs, hrunning⟩ := hid
  have hinsert : ∀ {k : U} {x : Response U J}, x.status ≠ .running →
      (db.responses.insert k x).lookup id = some r → db.Running s id := by
    intro k x hx hlookup
    rcases Table.lookup_insert_cases hlookup with ⟨-, rfl⟩ | ⟨-, hlookup⟩
    · exact absurd hrunning hx
    · exact ⟨r, hlookup, hs, hrunning⟩
  have hfilter : ∀ {p : U → Response U J → Bool},
      (db.responses.filter p).lookup id = some r → db.Running s id := by
    intro p hlookup
    exact ⟨r, (Table.lookup_filter_some.mp hlookup).1, hs, hrunning⟩
  cases h with
  | failed _ _ | repeated _ | created _ _ | forked _ _ _ _ _ | appended _ _ _ _ _ =>
    exact Or.inl ⟨r, hr, hs, hrunning⟩
  | rewound _ _ _ _ _ => exact Or.inl (hfilter hr)
  | begun fingerprint inputParts settings inputRole hnew _ _ _ _ =>
    have hlookup := (Table.lookup_insert_ite db.responses _ id _).symm.trans hr
    split at hlookup
    · rename_i hids
      obtain rfl := Option.some.inj hlookup
      right
      subst hids hs
      simp [Action.starts, hnew, Tables.startedResponse]
    · exact Or.inl ⟨r, hlookup, hs, hrunning⟩
  | completed output finishReason usage performance _ _ _ _ =>
    exact Or.inl (hinsert (by simp) hr)
  | terminated error cancelled _ _ =>
    rw [Tables.responses_updateSession] at hr
    refine Or.inl (hinsert ?_ hr)
    dsimp only
    split <;> simp
  | recovered error =>
    obtain ⟨old, -, rfl⟩ :=
      Option.map_eq_some_iff.mp ((Table.lookup_mapVal _ db.responses id).symm.trans hr)
    split at hrunning
    · cases hrunning
    · rename_i hold
      exact absurd hrunning hold
  | removed _ _ => exact Or.inl (hfilter hr)

/-- A call leaves a response that runs alone unless it ends it. -/
theorem running_after (h : Outcome db now a (e, db')) (hdb : db.Sound) (hid : db.Running s id)
    (hends : a.ends e id = false) : db'.Running s id := by
  obtain ⟨r, hr, hs, hrunning⟩ := hid
  have hinsert : ∀ {k : U} {x : Response U J}, id ≠ k →
      (db.responses.insert k x).lookup id = some r := by
    intro k x hk
    rw [AList.lookup_insert_ne hk]
    exact hr
  have hfilter : ∀ {p : U → Response U J → Bool}, p id r = true →
      (db.responses.filter p).lookup id = some r :=
    fun hp => Table.lookup_filter_some.mpr ⟨hr, hp⟩
  have hother : ∀ {t row}, db.sessions.lookup t = some row → row.state ≠ .processing →
      r.sessionId ≠ t := by
    rintro t row ht hstate rfl
    exact hdb.answered.not_running ht hstate id ⟨r, hr, rfl, hrunning⟩
  cases h with
  | failed _ _ | repeated _ | created _ _ | forked _ _ _ _ _ | appended _ _ _ _ _ =>
    exact ⟨r, hr, hs, hrunning⟩
  | rewound ht _ hstate _ _ =>
    have hne := hother ht hstate
    exact ⟨r, hfilter (by simp [hne]), hs, hrunning⟩
  | begun fingerprint inputParts settings inputRole _ _ _ _ hfresh =>
    refine ⟨r, hinsert ?_, hs, hrunning⟩
    rintro rfl
    exact hfresh (Table.mem_of_lookup hr)
  | completed output finishReason usage performance _ _ _ _ =>
    refine ⟨r, hinsert ?_, hs, hrunning⟩
    rintro rfl
    simp [Action.ends] at hends
  | terminated error cancelled _ _ =>
    refine ⟨r, ?_, hs, hrunning⟩
    rw [Tables.responses_updateSession]
    apply hinsert
    rintro rfl
    simp [Action.ends] at hends
  | recovered error => simp [Action.ends] at hends
  | removed ht hstate => exact ⟨r, hfilter (by simp [hother ht hstate]), hs, hrunning⟩

/-- What a call has started runs. -/
theorem running_started (h : Outcome db now a (e, db')) (hstarts : a.starts db e = some (s, id)) :
    db'.Running s id := by
  cases a with
  | begin_ t requestId k fingerprint expectedRevision inputParts settings inputRole m =>
    simp only [Action.starts] at hstarts
    split at hstarts
    · rename_i hnew
      obtain ⟨rfl, rfl⟩ := Prod.mk.inj (Option.some.inj hstarts)
      cases h with
      | failed _ _ => simp at hnew
      | repeated hrepeated =>
        simp only [Tables.Repeated] at hrepeated
        simp [Option.isNone_iff_eq_none.mp hnew.2] at hrepeated
      | begun _ _ _ _ _ _ _ _ _ => exact ⟨_, AList.lookup_insert _, rfl, rfl⟩
    · cases hstarts
  | _ => simp [Action.starts] at hstarts

end Outcome

theorem Tables.removeSession_snd {db : Tables U J} (h : db.Sound) (s : U) :
    (db.removeSession s).2 = if s ∈ db.sessions then db.removed s else db := by
  by_cases hs : s ∈ db.sessions
  · rw [if_pos hs, removeSession_eq h hs]
  · rw [if_neg hs, removeSession, if_pos hs]
    rfl

theorem Tables.running_removed {db : Tables U J} (s t id : U) :
    (db.removed s).Running t id ↔ t ≠ s ∧ db.Running t id := by
  constructor
  · rintro ⟨r, hr, rfl, hrunning⟩
    obtain ⟨hold, hne⟩ := response_removed.mp hr
    exact ⟨hne, r, hold, rfl, hrunning⟩
  · rintro ⟨hne, r, hr, rfl, hrunning⟩
    exact ⟨r, response_removed.mpr ⟨hr, hne⟩, rfl, hrunning⟩

/-! ### What every interleaving keeps -/

/-- The responses that run for the session of a deletion were started since its check. -/
def Deleting.Notes (db : Tables U J) (d : Deleting U) : Prop :=
  ∀ id, db.Running d.session id → id ∈ d.started

structure Clients.Sound (c : Clients U J) : Prop where
  store : c.store.Sound
  deleting : ∀ client d, c.deleting.lookup client = some d → d.Notes c.store.db
  writer : ∀ d, c.writer = some (.remove d) → d.Notes c.store.db

theorem Deleting.Notes.note {db db' : Tables U J} {d : Deleting U} (h : d.Notes db)
    {started : Option (U × U)}
    (hstep : ∀ s id, db'.Running s id → db.Running s id ∨ started = some (s, id)) :
    (d.note started).Notes db' := by
  intro id hid
  cases started with
  | none =>
    rcases hstep _ _ hid with hold | hnew
    · exact h id hold
    · cases hnew
  | some p =>
    obtain ⟨s, k⟩ := p
    simp only [Deleting.note] at hid ⊢
    split at hid
    · rename_i hs
      rw [if_pos hs]
      rcases hstep _ _ hid with hold | hnew
      · exact List.mem_cons_of_mem k (h id hold)
      · obtain ⟨-, rfl⟩ := Prod.mk.inj (Option.some.inj hnew)
        exact List.mem_cons_self
    · rename_i hs
      rw [if_neg hs]
      rcases hstep _ _ hid with hold | hnew
      · exact h id hold
      · obtain ⟨rfl, -⟩ := Prod.mk.inj (Option.some.inj hnew)
        exact absurd rfl hs

theorem checkDelete_ok {db : Tables U J} (h : db.checkDelete s = .ok ()) :
    ∃ row, db.sessions.lookup s = some row ∧ row.state ≠ .processing := by
  unfold Tables.checkDelete at h
  cases hs : db.sessions.lookup s with
  | none =>
    rw [hs] at h
    cases h
  | some row =>
    rw [hs] at h
    refine ⟨row, rfl, ?_⟩
    intro hstate
    dsimp only at h
    rw [if_pos (Or.inr (Or.inl hstate))] at h
    cases h

theorem World.Sound.remove {w : World U J} (h : w.Sound) (s : U) :
    ({ w with db := (w.db.removeSession s).2 } : World U J).Sound := by
  rw [Tables.removeSession_snd h.db]
  split
  · refine ⟨h.db.removed s, ?_, ?_⟩
    · intro m hm
      obtain ⟨row, hrow⟩ := (Table.mem_iff _ _).mp hm
      rcases w.db.message_removed s m with hsame | hnone
      · exact h.used m (Table.mem_of_lookup (hsame.symm.trans hrow))
      · cases hnone.symm.trans hrow
    · intro t ht
      exact h.sessions t (AList.mem_erase.mp ht).2
  · exact h

namespace Clients

theorem sound_empty : ({} : Clients U J).Sound where
  store := World.sound_empty
  deleting := by
    intro client d hd
    cases hd
  writer := by
    intro d hd
    cases hd

theorem Sound.move (h : c.Sound) (hmove : move c m = some c') : c'.Sound := by
  cases m with
  | begin_ now a =>
    simp only [SessionStore.move] at hmove
    split at hmove
    · obtain rfl := Option.some.inj hmove
      refine ⟨h.store, h.deleting, ?_⟩
      intro d hd
      cases hd
    · cases hmove
  | check client s =>
    simp only [SessionStore.move] at hmove
    split at hmove
    · cases hmove
    split at hmove
    · obtain rfl := Option.some.inj hmove
      exact h
    · rename_i hcheck
      obtain rfl := Option.some.inj hmove
      obtain ⟨row, hs, hstate⟩ := checkDelete_ok hcheck
      refine ⟨h.store, ?_, h.writer⟩
      refine Table.forall_insert h.deleting fun id hid => ?_
      exact absurd hid (h.store.db.answered.not_running hs hstate id)
  | delete client =>
    simp only [SessionStore.move] at hmove
    split at hmove
    · rename_i d hwriter hd
      obtain rfl := Option.some.inj hmove
      refine ⟨h.store, ?_, ?_⟩
      · intro k x hx
        exact h.deleting k x (Table.lookup_of_erase hx)
      · rintro x ⟨⟩
        exact h.deleting client d hd
    · cases hmove
  | commit =>
    rcases move_commit hmove with ⟨now, a, -, hstore, hwriter, hdeleting, -⟩ | ⟨d, -, rfl⟩
    · obtain ⟨-, -, hout⟩ := h.store.step_outcome hstore
      refine ⟨h.store.step hstore, ?_, ?_⟩
      · intro client d hd
        rw [hdeleting, Table.lookup_mapVal] at hd
        obtain ⟨old, hold, rfl⟩ := Option.map_eq_some_iff.mp hd
        exact (h.deleting client old hold).note fun _ _ hid => hout.running_before hid
      · intro d hd
        cases hwriter.symm.trans hd
    · have hsub : ∀ t id, (c.store.db.removeSession d.session).2.Running t id →
          c.store.db.Running t id := by
        intro t id hid
        rw [Tables.removeSession_snd h.store.db] at hid
        split at hid
        · exact ((Tables.running_removed d.session t id).mp hid).2
        · exact hid
      refine ⟨h.store.remove d.session, ?_, ?_⟩
      · intro client x hx id hid
        exact h.deleting client x hx id (hsub _ id hid)
      · intro x hx
        cases hx

/-! ### Deletions -/

/-- The removal that commits removes no session that is processing. -/
def Spares (c : Clients U J) : Move U J → Prop
  | .commit => ∀ d, c.writer = some (.remove d) → ∀ row,
      c.store.db.sessions.lookup d.session = some row → row.state ≠ .processing
  | _ => True

/-- Of the responses that were started between the check of a deletion and its removal, none
    runs any more when the removal commits. -/
def Settled (c : Clients U J) : Move U J → Prop
  | .commit => ∀ d, c.writer = some (.remove d) → ∀ id ∈ d.started, ¬c.store.db.Running d.session id
  | _ => True

theorem Sound.spares_iff (h : c.Sound) (m : Move U J) : c.Spares m ↔ c.Settled m := by
  cases m with
  | begin_ _ _ | check _ _ | delete _ => exact Iff.rfl
  | commit =>
    constructor
    · rintro hspares d hd id - ⟨r, hr, hs, hrunning⟩
      obtain ⟨row, hrow, hstate, -⟩ := h.store.db.answered.running id r hr hrunning
      exact hspares d hd row (hs ▸ hrow) hstate
    · intro hsettled d hd row hrow hstate
      obtain ⟨id, hid⟩ := h.store.db.answered.processing d.session row hrow hstate
      exact hsettled d hd id (h.writer d hd id hid) hid

/-- Where the removals are settled, the responses that were started and have not ended run. -/
theorem Sound.running_move (h : c.Sound) (hmove : SessionStore.move c m = some c')
    (hspares : c.Spares m) (hrunning : ∀ id ∈ c.running, ∃ s, c.store.db.Running s id) :
    ∀ id ∈ c'.running, ∃ s, c'.store.db.Running s id := by
  by_cases hm : m = .commit
  · subst hm
    rcases move_commit hmove with ⟨now, a, -, hstore, -, -, hrun⟩ | ⟨d, hwriter, rfl⟩
    · obtain ⟨-, -, hout⟩ := h.store.step_outcome hstore
      intro id hid
      rw [hrun] at hid
      rcases List.mem_append.mp hid with hnew | hold
      · obtain ⟨⟨s, k⟩, hstarts, rfl⟩ := Option.map_eq_some_iff.mp (Option.mem_toList.mp hnew)
        exact ⟨s, hout.running_started hstarts⟩
      · obtain ⟨hmem, hends⟩ := List.mem_filter.mp hold
        obtain ⟨s, hs⟩ := hrunning id hmem
        exact ⟨s, hout.running_after h.store.db hs (by simpa using hends)⟩
    · intro id hid
      obtain ⟨s, hs⟩ := hrunning id hid
      refine ⟨s, ?_⟩
      show (c.store.db.removeSession d.session).2.Running s id
      rw [Tables.removeSession_snd h.store.db]
      split
      · rw [Tables.running_removed]
        refine ⟨?_, hs⟩
        rintro rfl
        obtain ⟨r, hr, hrs, hrstate⟩ := hs
        obtain ⟨row, hrow, hstate, -⟩ := h.store.db.answered.running id r hr hrstate
        exact hspares d hwriter row (hrs ▸ hrow) hstate
      · exact hs
  · obtain ⟨hstore, hrun⟩ := move_store hmove hm
    rw [hstore, hrun]
    exact hrunning

end Clients

/-- **A response is not deleted while it runs** exactly when no deletion removes a session after
    a response was started there that its check had not seen and that still runs.  In a run of
    such deletions every response that was reported as started, and has not been ended since, is
    found as running. -/
theorem deletions_spare_running {moves : List (Move U J)} {c : Clients U J}
    (hrun : run move {} moves = some c) :
    (Meets move Clients.Spares {} moves ↔ Meets move Clients.Settled {} moves) ∧
      (Meets move Clients.Settled {} moves → ∀ id ∈ c.running,
        ∃ r, c.store.db.responses.lookup id = some r ∧ r.status = .running) := by
  have hiff : Meets move Clients.Spares {} moves ↔ Meets move Clients.Settled {} moves :=
    Meets.congr Clients.sound_empty (fun c m c' h hmove => h.move hmove)
      fun c m h => h.spares_iff m
  refine ⟨hiff, ?_⟩
  intro hsettled id hid
  have hkept : c.Sound ∧ ∀ k ∈ c.running, ∃ s, c.store.db.Running s k := by
    refine run_invariant (I := fun c => c.Sound ∧ ∀ k ∈ c.running, ∃ s, c.store.db.Running s k)
      ?_ ⟨Clients.sound_empty, ?_⟩ (hiff.mpr hsettled) hrun
    · rintro d m d' ⟨hd, hrunning⟩ hspares hmove
      exact ⟨hd.move hmove, hd.running_move hmove hspares hrunning⟩
    · intro k hk
      cases hk
  obtain ⟨s, r, hr, -, hrunning⟩ := hkept.2 id hid
  exact ⟨r, hr, hrunning⟩

/-- A response is started in a session that is deleted later. -/
def deletedLater : List (Move Nat Unit) :=
  [.begin_ 0 (.create { metadata := () } 1), .commit,
    .begin_ 1 (.begin_ 1 100 2 "a" 0 [()] none .user 3), .commit, .check 0 1,
    .begin_ 2 (.complete 2 [()] "stop" none none 4), .commit, .check 0 1, .delete 0, .commit]

theorem deletedLater_spares :
    ∃ c, run move {} deletedLater = some c ∧
      (Meets move Clients.Spares {} deletedLater ↔ Meets move Clients.Settled {} deletedLater) := by
  obtain ⟨c, hc⟩ := Option.isSome_iff_exists.mp
    (by decide : (run move {} deletedLater).isSome = true)
  exact ⟨c, hc, (deletions_spare_running hc).1⟩

/-- Another client starts a response between the `SELECT` and the `DELETE`. -/
def startedBetween : List (Move Nat Unit) :=
  [.begin_ 0 (.create { metadata := () } 1), .commit, .check 0 1,
    .begin_ 1 (.begin_ 1 100 2 "a" 0 [()] none .user 3), .commit, .delete 0]

theorem startedBetween_lost :
    ∃ c c', run move {} startedBetween = some c ∧ move c .commit = some c' ∧
      (c.store.db.sessions.lookup 1).map (fun row => row.state) = some .processing ∧
      (c'.store.db.sessions.lookup 1).map (fun row => row.state) = none ∧ 2 ∈ c'.running ∧
      ((Action.complete 2 [()] "stop" none none 4).perform c'.store.db 2).1 =
        some (.responseNotFound 2) := by
  have hrun : ((run move {} startedBetween).bind fun c => (move c .commit).map fun c' =>
      ((c.store.db.sessions.lookup 1).map (fun row => row.state),
        (c'.store.db.sessions.lookup 1).map (fun row => row.state), c'.running,
        ((Action.complete 2 [()] "stop" none none 4).perform c'.store.db 2).1)) =
      some (some .processing, none, [2], some (.responseNotFound 2)) := by decide
  obtain ⟨c, hc, hrest⟩ := Option.bind_eq_some_iff.mp hrun
  obtain ⟨c', hc', hall⟩ := Option.map_eq_some_iff.mp hrest
  obtain ⟨hbefore, hafter, hrunning, hcomplete⟩ : _ ∧ _ ∧ _ ∧ _ := by
    simpa only [Prod.mk.injEq] using hall
  exact ⟨c, c', hc, hc', hbefore, hafter, by rw [hrunning]; exact List.mem_singleton.mpr rfl,
    hcomplete⟩

end TyloQuant.SessionStore
