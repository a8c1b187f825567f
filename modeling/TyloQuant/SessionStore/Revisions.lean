import TyloQuant.SessionStore.Clients

/-!
# What a revision says about a history

A write names the revision that its client has read, and is refused when the session has another
one by then.  A revision is the number of the messages that a session lists.  So it tells two
histories apart while messages are only added, and it does not where the session was cut in
between and has grown again: this file says that there is no other way.
-/

namespace TyloQuant.SessionStore

open Lib List

variable {U J : Type} [DecidableEq U]

/-! ### One call -/

/-- The call is accepted only while the session has the revision. -/
def Action.Guarded (db : Tables U J) (s : U) (revision : Nat) : Action U J → Prop
  | .append t expectedRevision _ _ _ => t = s ∧ expectedRevision = revision
  | .rewind t request => t = s ∧ request.expectedRevision = revision
  | .begin_ t requestId _ _ expectedRevision _ _ _ _ =>
    t = s ∧ expectedRevision = revision ∧ db.responseTo t requestId = none
  | _ => False

variable {revision : Nat}

namespace Outcome

variable {db db' : Tables U J} {now : Nat} {a : Action U J} {e : Option (StorageError U)} {s : U}

theorem revision_of_guarded (h : Outcome db now a (none, db')) (hguard : a.Guarded db s revision) :
    ∃ row, db.sessions.lookup s = some row ∧ row.revision = revision := by
  cases h with
  | repeated hrepeated =>
    cases a with
    | begin_ t requestId _ _ _ _ _ _ _ =>
      obtain ⟨rfl, -, hnew⟩ := hguard
      simp [Tables.Repeated, hnew] at hrepeated
    | append _ _ _ _ _ | rewind _ _ => cases hrepeated
    | _ => cases hguard
  | appended role parts hs _ _ =>
    obtain ⟨rfl, hrevision⟩ := hguard
    exact ⟨_, hs, hrevision⟩
  | rewound hs hrevision _ _ _ =>
    obtain ⟨rfl, hexpected⟩ := hguard
    exact ⟨_, hs, hrevision.trans hexpected⟩
  | begun fingerprint inputParts settings inputRole _ hs _ _ _ =>
    obtain ⟨rfl, hrevision, -⟩ := hguard
    exact ⟨_, hs, hrevision⟩
  | _ => cases hguard

/-- What a call makes of the history of a session: it adds a new message, cuts it, removes it
    with its session, or leaves it. -/
theorem history (h : Outcome db now a (e, db')) (hdb : db.Listed) (hs : s ∈ db.sessions) :
    db'.history s = db.history s ∨ (∃ m ∈ a.fresh, db'.history s = db.history s ++ [m]) ∨
      (∃ request limit, a = .rewind s request ∧ e = none ∧
        db.rewindLimit s request = some limit ∧ db'.history s = (db.history s).take limit) ∨
      s ∉ db'.sessions := by
  have hadded : ∀ {t m l}, l = (if s = t then db.history t ++ [m] else db.history s) →
      m ∈ a.fresh → l = db.history s ∨ ∃ m ∈ a.fresh, l = db.history s ++ [m] := by
    intro t m l hl hm
    split at hl
    · rename_i hst
      exact Or.inr ⟨m, hm, by rw [hl, hst]⟩
    · exact Or.inl hl
  have hcopied : ∀ {t row} {copied : List (Entry U)}, t ∉ db.sessions →
      (db.withSession t row copied).history s = db.history s := by
    intro t row copied ht
    rw [Tables.history_withSession, if_neg, List.append_nil]
    rintro rfl
    exact ht hs
  cases h with
  | failed _ _ | repeated _ | recovered _ => exact Or.inl rfl
  | created request ht => exact Or.inl (hcopied ht)
  | forked request _ ht _ _ => exact Or.inl (hcopied ht)
  | @appended role parts t m _ _ _ _ =>
    exact (hadded (db.history_withMessage t s _ m _) mem_cons_self).imp_right Or.inl
  | @begun fingerprint inputParts settings inputRole t _ _ m _ _ _ _ _ _ =>
    rw [Tables.history_withResponse]
    exact (hadded (db.history_withMessage t s _ m _)
      (mem_cons_of_mem _ mem_cons_self)).imp_right Or.inl
  | @completed output finishReason usage performance _ m response _ _ _ _ _ =>
    rw [Tables.history_withResponse]
    exact (hadded (db.history_withMessage response.sessionId s _ m _)
      mem_cons_self).imp_right Or.inl
  | rewound ht _ _ hlimit _ =>
    rw [hdb.history_rewound ht]
    split
    · rename_i hst
      subst hst
      exact Or.inr (Or.inr (Or.inl ⟨_, _, rfl, rfl, hlimit, rfl⟩))
    · exact Or.inl rfl
  | terminated error cancelled _ _ => exact Or.inl (Tables.history_updateSession _ _ s _)
  | @removed t _ _ _ =>
    by_cases hst : s = t
    · right
      right
      right
      rw [hst]
      exact fun hmem => (AList.mem_erase.mp hmem).1 rfl
    · left
      rw [Tables.history_removed, if_neg hst]

end Outcome

/-! ### One move of a client -/

namespace Clients

/-- The rewind of a session to its first `limit` messages is what commits. -/
def CutsTo (c : Clients U J) (s : U) (limit : Nat) : Move U J → Prop
  | .commit => ∃ now request, c.writer = some (.call now (.rewind s request)) ∧
      ((Action.rewind s request : Action U J).perform c.store.db now).1 = none ∧
      c.store.db.rewindLimit s request = some limit
  | _ => False

/-- The session was there and is not there any more. -/
def Gone (c : Clients U J) (s : U) : Prop := s ∈ c.store.used ∧ s ∉ c.store.db.sessions

namespace Sound

variable {c c' : Clients U J} {m : Move U J} {s : U}

theorem used_move (h : c.Sound) (hmove : SessionStore.move c m = some c') {u : U}
    (hu : u ∈ c.store.used) : u ∈ c'.store.used := by
  by_cases hm : m = .commit
  · subst hm
    rcases move_commit hmove with ⟨now, a, -, hstore, -⟩ | ⟨d, -, rfl⟩
    · obtain ⟨-, hused, -⟩ := h.store.step_outcome hstore
      rw [hused]
      exact mem_append_right _ hu
    · exact hu
  · rw [(move_store hmove hm).1]
    exact hu

theorem gone_move (h : c.Sound) (hmove : SessionStore.move c m = some c') (hgone : c.Gone s) :
    c'.Gone s := by
  refine ⟨h.used_move hmove hgone.1, ?_⟩
  by_cases hm : m = .commit
  · subst hm
    rcases move_commit hmove with ⟨now, a, -, hstore, -⟩ | ⟨d, -, rfl⟩
    · obtain ⟨hfresh, -, hout⟩ := h.store.step_outcome hstore
      intro hs
      rcases hout.session hs with hold | hnew
      · exact hgone.2 hold
      · exact hfresh s hnew hgone.1
    · show s ∉ (c.store.db.removeSession d.session).2.sessions
      rw [Tables.removeSession_snd h.store.db]
      split
      · exact fun hs => hgone.2 (AList.mem_erase.mp hs).2
      · exact hgone.2
  · rw [(move_store hmove hm).1]
    exact hgone.2

theorem history_move (h : c.Sound) (hmove : SessionStore.move c m = some c')
    (hs : s ∈ c.store.db.sessions) :
    c'.store.db.history s = c.store.db.history s ∨
      (∃ a, a ∉ c.store.used ∧ c'.store.db.history s = c.store.db.history s ++ [a]) ∨
      (∃ limit, c.CutsTo s limit m ∧ c'.store.db.history s = (c.store.db.history s).take limit) ∨
      c'.Gone s := by
  have hused : s ∈ c'.store.used := h.used_move hmove (h.store.sessions s hs)
  by_cases hm : m = .commit
  · subst hm
    rcases move_commit hmove with ⟨now, a, hwriter, hstore, -⟩ | ⟨d, -, rfl⟩
    · obtain ⟨hfresh, -, hout⟩ := h.store.step_outcome hstore
      rcases hout.history h.store.db.listed hs with hsame | ⟨u, hu, hadd⟩ |
        ⟨request, limit, rfl, hok, hlimit, hcut⟩ | hgone
      · exact Or.inl hsame
      · exact Or.inr (Or.inl ⟨u, hfresh u hu, hadd⟩)
      · exact Or.inr (Or.inr (Or.inl ⟨limit, ⟨now, request, hwriter, hok, hlimit⟩, hcut⟩))
      · exact Or.inr (Or.inr (Or.inr ⟨hused, hgone⟩))
    · have hsnd := Tables.removeSession_snd h.store.db d.session
      by_cases hd : d.session ∈ c.store.db.sessions
      · rw [if_pos hd] at hsnd
        by_cases hsd : s = d.session
        · refine Or.inr (Or.inr (Or.inr ⟨hused, ?_⟩))
          show s ∉ (c.store.db.removeSession d.session).2.sessions
          rw [hsnd, hsd]
          exact fun hmem => (AList.mem_erase.mp hmem).1 rfl
        · left
          show (c.store.db.removeSession d.session).2.history s = _
          rw [hsnd, Tables.history_removed, if_neg hsd]
      · left
        rw [if_neg hd] at hsnd
        show (c.store.db.removeSession d.session).2.history s = _
        rw [hsnd]
  · left
    rw [(move_store hmove hm).1]

theorem cut_move (h : c.Sound) (hmove : SessionStore.move c m = some c') {limit : Nat}
    (hcut : c.CutsTo s limit m) :
    c'.store.db.history s = (c.store.db.history s).take limit := by
  cases m with
  | begin_ _ _ | check _ _ | delete _ => cases hcut
  | commit =>
    obtain ⟨now, request, hwriter, hok, hlimit⟩ := hcut
    rcases move_commit hmove with ⟨now', a, hwriter', hstore, -⟩ | ⟨d, hwriter', -⟩
    · cases hwriter.symm.trans hwriter'
      obtain ⟨-, -, hout⟩ := h.store.step_outcome hstore
      simp only [hok] at hout
      generalize c'.store.db = db' at hout ⊢
      cases hout with
      | repeated hrepeated => cases hrepeated
      | rewound hs _ _ hlimit' _ =>
        obtain rfl := Option.some.inj (hlimit.symm.trans hlimit')
        simpa using h.store.db.listed.history_rewound hs _ s
    · cases hwriter.symm.trans hwriter'

theorem message_move (h : c.Sound) (hmove : SessionStore.move c m = some c') {a : U}
    (ha : a ∈ c.store.used) :
    c'.store.db.messages.lookup a = c.store.db.messages.lookup a ∨
      c'.store.db.messages.lookup a = none := by
  by_cases hm : m = .commit
  · subst hm
    rcases move_commit hmove with ⟨now, b, -, hstore, -⟩ | ⟨d, -, rfl⟩
    · obtain ⟨hfresh, -, hout⟩ := h.store.step_outcome hstore
      exact hout.message fun hmem => hfresh a hmem ha
    · have hsnd := Tables.removeSession_snd h.store.db d.session
      show (c.store.db.removeSession d.session).2.messages.lookup a = _ ∨
        (c.store.db.removeSession d.session).2.messages.lookup a = none
      rw [hsnd]
      split
      · exact c.store.db.message_removed d.session a
      · exact Or.inl rfl
  · rw [(move_store hmove hm).1]
    exact Or.inl rfl

end Sound

/-! ### Between a read and a write -/

/-- Messages were only added to what has been read. -/
def Extended (old : List U) (s : U) (c : Clients U J) : Prop :=
  c.Gone s ∨ (s ∈ c.store.db.sessions ∧ old <+: c.store.db.history s)

/-- What has been read was cut, and what stands in the place of the cut is new. -/
def Replaced (known : List U) (revision : Nat) (s : U) (c : Clients U J) : Prop :=
  c.Gone s ∨ (s ∈ c.store.db.sessions ∧
    ∃ k < revision, ∀ m ∈ (c.store.db.history s).drop k, m ∉ known)

/-- The move cuts off something that a reader of the revision has seen. -/
def CutsBelow (s : U) (revision : Nat) (c : Clients U J) (m : Move U J) : Prop :=
  ∃ limit < revision, c.CutsTo s limit m

variable {old : List U}

section Cuts

variable {c c' : Clients U J} {m : Move U J} {s : U} {known : List U}

theorem mem_of_not_gone (h : c.Sound) (hmove : SessionStore.move c m = some c')
    (hs : s ∈ c.store.db.sessions) (hgone : ¬c'.Gone s) : s ∈ c'.store.db.sessions := by
  by_contra hnot
  exact hgone ⟨h.used_move hmove (h.store.sessions s hs), hnot⟩

theorem Extended.move (hext : Extended old s c) (h : c.Sound)
    (hmove : SessionStore.move c m = some c') (hcut : ¬CutsBelow s old.length c m) :
    Extended old s c' := by
  rcases hext with hgone | ⟨hs, hpre⟩
  · exact Or.inl (h.gone_move hmove hgone)
  by_cases hgone : c'.Gone s
  · exact Or.inl hgone
  refine Or.inr ⟨mem_of_not_gone h hmove hs hgone, ?_⟩
  rcases h.history_move hmove hs with hsame | ⟨a, -, hadd⟩ | ⟨limit, hlimit, hcut'⟩ | hgone'
  · rwa [hsame]
  · rw [hadd]
    exact hpre.trans (prefix_append _ _)
  · have hle : old.length ≤ limit := by
      by_contra hlt
      exact hcut ⟨limit, by omega, hlimit⟩
    rw [hcut']
    exact prefix_take_iff.mpr ⟨hpre, hle⟩
  · exact absurd hgone' hgone

theorem Extended.cut (hext : Extended old s c) (h : c.Sound)
    (hmove : SessionStore.move c m = some c') (hcut : CutsBelow s old.length c m) :
    Replaced known old.length s c' := by
  rcases hext with hgone | ⟨hs, -⟩
  · exact Or.inl (h.gone_move hmove hgone)
  by_cases hgone : c'.Gone s
  · exact Or.inl hgone
  refine Or.inr ⟨mem_of_not_gone h hmove hs hgone, ?_⟩
  obtain ⟨limit, hlt, hlimit⟩ := hcut
  refine ⟨limit, hlt, ?_⟩
  rw [h.cut_move hmove hlimit, drop_take, Nat.sub_self, take_zero]
  intro a ha
  cases ha

theorem Replaced.move (hrep : Replaced known revision s c) (h : c.Sound)
    (hknown : ∀ u ∈ known, u ∈ c.store.used) (hmove : SessionStore.move c m = some c') :
    Replaced known revision s c' := by
  rcases hrep with hgone | ⟨hs, k, hk, hnew⟩
  · exact Or.inl (h.gone_move hmove hgone)
  by_cases hgone : c'.Gone s
  · exact Or.inl hgone
  refine Or.inr ⟨mem_of_not_gone h hmove hs hgone, k, hk, ?_⟩
  rcases h.history_move hmove hs with hsame | ⟨a, ha, hadd⟩ | ⟨limit, -, hcut⟩ | hgone'
  · rwa [hsame]
  · rw [hadd]
    intro m hm
    rw [drop_append] at hm
    rcases mem_append.mp hm with hold | hlast
    · exact hnew m hold
    · obtain rfl := mem_singleton.mp (mem_of_mem_drop hlast)
      exact fun hmem => ha (hknown _ hmem)
  · rw [hcut]
    intro m hm
    rw [drop_take] at hm
    exact hnew m (mem_of_mem_take hm)
  · exact absurd hgone' hgone

end Cuts

section Runs

variable {c c' : Clients U J} {moves : List (Move U J)} {s : U}

theorem Sound.run (h : c.Sound) (hrun : run SessionStore.move c moves = some c') : c'.Sound :=
  run_invariant (fun _ _ _ hs _ hmove => hs.move hmove) h
    (Meets.of_forall fun _ _ => trivial) hrun

theorem Sound.message_run (h : c.Sound) (hrun : Lib.run SessionStore.move c moves = some c')
    {a : U} (ha : a ∈ c.store.used) :
    c'.store.db.messages.lookup a = c.store.db.messages.lookup a ∨
      c'.store.db.messages.lookup a = none := by
  induction moves generalizing c with
  | nil =>
    obtain rfl := Option.some.inj hrun
    exact Or.inl rfl
  | cons m moves ih =>
    obtain ⟨d, hd, hrest⟩ := run_cons.mp hrun
    rcases ih (h.move hd) hrest (h.used_move hd ha) with hsame | hnone
    · rw [hsame]
      exact h.message_move hd ha
    · exact Or.inr hnone

theorem Replaced.run {known : List U} (hrep : Replaced known revision s c) (h : c.Sound)
    (hknown : ∀ u ∈ known, u ∈ c.store.used) (hrun : Lib.run SessionStore.move c moves = some c') :
    Replaced known revision s c' := by
  induction moves generalizing c with
  | nil =>
    obtain rfl := Option.some.inj hrun
    exact hrep
  | cons m moves ih =>
    obtain ⟨d, hd, hrest⟩ := run_cons.mp hrun
    exact ih (hrep.move h hknown hd) (h.move hd) (fun u hu => h.used_move hd (hknown u hu)) hrest

theorem Extended.run (hext : Extended old s c) (h : c.Sound) {known : List U}
    (hknown : ∀ u ∈ known, u ∈ c.store.used) (hrun : Lib.run SessionStore.move c moves = some c') :
    (Meets SessionStore.move (fun c m => ¬CutsBelow s old.length c m) c moves ∧ Extended old s c') ∨
      (¬Meets SessionStore.move (fun c m => ¬CutsBelow s old.length c m) c moves ∧
        Replaced known old.length s c') := by
  induction moves generalizing c with
  | nil =>
    obtain rfl := Option.some.inj hrun
    exact Or.inl ⟨trivial, hext⟩
  | cons m moves ih =>
    obtain ⟨d, hd, hrest⟩ := run_cons.mp hrun
    have hknown' : ∀ u ∈ known, u ∈ d.store.used := fun u hu => h.used_move hd (hknown u hu)
    by_cases hcut : CutsBelow s old.length c m
    · right
      refine ⟨fun hmeets => (meets_cons hmeets hd).1 hcut, ?_⟩
      exact (hext.cut h hd hcut).run (h.move hd) hknown' hrest
    · rcases ih (hext.move h hd hcut) (h.move hd) hknown' hrest with
        ⟨hmeets, hresult⟩ | ⟨hmeets, hresult⟩
      · left
        refine ⟨⟨hcut, ?_⟩, hresult⟩
        rw [hd]
        exact hmeets
      · right
        exact ⟨fun hall => hmeets (meets_cons hall hd).2, hresult⟩

end Runs

end Clients

/-! ### The list that a client reads -/

namespace Tables

variable {db : Tables U J} {row : Session J}

theorem listMessages_eq (h : db.Sound) {s : U} (hs : db.sessions.lookup s = some row) :
    db.listMessages s = .ok ((db.history s).filterMap fun m =>
      (db.messages.lookup m).map (m, ·)) := by
  simp only [listMessages, hs, h.listed.ordered_eq hs, history, filterMap_map]
  rfl

theorem map_fst_listed {messages : Table U (Message U J)} {ms : List U}
    (h : ∀ m ∈ ms, m ∈ messages) :
    (ms.filterMap fun m => (messages.lookup m).map (m, ·)).map (fun p => p.1) = ms := by
  induction ms with
  | nil => rfl
  | cons m ms ih =>
    obtain ⟨row, hrow⟩ := (Table.mem_iff _ _).mp (h m mem_cons_self)
    rw [filterMap_cons, hrow, Option.map_some, map_cons,
      ih fun a ha => h a (mem_cons_of_mem m ha)]

/-- Two lists of messages are the same only if the messages are the same ones. -/
theorem history_of_listMessages {db' : Tables U J} (h : db.Sound) (h' : db'.Sound) {s : U}
    {row' : Session J} (hs : db.sessions.lookup s = some row)
    (hs' : db'.sessions.lookup s = some row') (hsame : db'.listMessages s = db.listMessages s) :
    db'.history s = db.history s := by
  rw [listMessages_eq h hs, listMessages_eq h' hs', Except.ok.injEq] at hsame
  have hids := congrArg (List.map fun p => p.1) hsame
  rwa [map_fst_listed fun m hm => h'.listed.message hm,
    map_fst_listed fun m hm => h.listed.message hm] at hids

end Tables

/-- **A write sees the history that its client has read** exactly when no rewind has cut the
    session below the revision of that read in between. -/
theorem guarded_write_sees_history {before between : List (Move U J)} {c₁ c₂ : Clients U J}
    (hread : run move {} before = some c₁) (hrun : run move c₁ between = some c₂) {s : U}
    {row : Session J} (hs : c₁.store.db.sessions.lookup s = some row) {now : Nat}
    {a : Action U J} (hguard : a.Guarded c₂.store.db s row.revision)
    (hok : (a.perform c₂.store.db now).1 = none) :
    c₂.store.db.listMessages s = c₁.store.db.listMessages s ↔
      Meets move (fun c m => ¬Clients.CutsBelow s row.revision c m) c₁ between := by
  have h₁ : c₁.Sound := Clients.sound_empty.run hread
  have h₂ : c₂.Sound := h₁.run hrun
  have hlength : (c₁.store.db.history s).length = row.revision := h₁.store.db.listed.length hs
  have hout := Tables.perform_outcome h₂.store.db now a
  rw [← Prod.mk.eta (p := a.perform c₂.store.db now), hok] at hout
  obtain ⟨row₂, hs₂, hrevision⟩ := hout.revision_of_guarded hguard
  have hlength₂ : (c₂.store.db.history s).length = row.revision :=
    (h₂.store.db.listed.length hs₂).trans hrevision
  have hthere : ¬c₂.Gone s := fun hgone => hgone.2 (Table.mem_of_lookup hs₂)
  have hrows : ∀ m ∈ c₁.store.db.history s, m ∈ c₁.store.used := fun m hm =>
    h₁.store.used m (h₁.store.db.listed.message hm)
  -- The lists agree when the histories do: a message that is still listed has not changed.
  have hlists : c₂.store.db.listMessages s = c₁.store.db.listMessages s ↔
      c₂.store.db.history s = c₁.store.db.history s := by
    constructor
    · exact Tables.history_of_listMessages h₁.store.db h₂.store.db hs hs₂
    · intro hsame
      rw [Tables.listMessages_eq h₁.store.db hs, Tables.listMessages_eq h₂.store.db hs₂, hsame]
      refine congrArg Except.ok (filterMap_congr fun m hm => ?_)
      rcases h₁.message_run hrun (hrows m hm) with hkept | hgone
      · rw [hkept]
      · rw [← hsame] at hm
        obtain ⟨message, hmessage⟩ := (Table.mem_iff _ _).mp (h₂.store.db.listed.message hm)
        cases hgone.symm.trans hmessage
  rw [hlists, ← hlength]
  have hext : Clients.Extended (c₁.store.db.history s) s c₁ :=
    Or.inr ⟨Table.mem_of_lookup hs, prefix_rfl⟩
  rcases hext.run h₁ hrows hrun with ⟨hmeets, hgone | ⟨-, hpre⟩⟩ |
    ⟨hmeets, hgone | ⟨-, k, hk, hnew⟩⟩
  · exact absurd hgone hthere
  · refine iff_of_true ?_ hmeets
    exact (hpre.eq_of_length (hlength.trans hlength₂.symm)).symm
  · exact absurd hgone hthere
  · -- The message in the first place of the cut is a new one.
    refine iff_of_false ?_ hmeets
    intro hsame
    rw [hsame] at hnew
    have hlt : k < (c₁.store.db.history s).length := hk
    have hmem : (c₁.store.db.history s)[k] ∈ (c₁.store.db.history s).drop k := by
      rw [drop_eq_getElem_cons hlt]
      exact mem_cons_self
    exact hnew _ hmem (getElem_mem hlt)

/-- A session with the messages 2 and 3. -/
def written : List (Move Nat Unit) :=
  [.begin_ 0 (.create { metadata := () } 1), .commit, .begin_ 1 (.append 1 0 .user [()] 2),
    .commit, .begin_ 2 (.append 1 1 .user [()] 3), .commit]

/-- Another client forks the session and writes to the fork. -/
def forkedAside : List (Move Nat Unit) :=
  [.begin_ 3 (.fork 1 {} 6), .commit, .begin_ 4 (.append 6 2 .user [()] 4), .commit]

theorem forkedAside_unchanged :
    ∃ c₁ c₂, run move {} written = some c₁ ∧ run move c₁ forkedAside = some c₂ ∧
      (c₂.store.db.listMessages 1 = c₁.store.db.listMessages 1 ↔
        Meets move (fun c m => ¬Clients.CutsBelow 1 2 c m) c₁ forkedAside) := by
  have hrun : ((run move {} written).bind fun c₁ => (run move c₁ forkedAside).map fun c₂ =>
      ((c₁.store.db.sessions.lookup 1).map fun row => row.revision,
        ((Action.append 1 2 .user [()] 5).perform c₂.store.db 5).1)) =
      some (some 2, none) := by decide
  obtain ⟨c₁, hc₁, hrest⟩ := Option.bind_eq_some_iff.mp hrun
  obtain ⟨c₂, hc₂, hall⟩ := Option.map_eq_some_iff.mp hrest
  obtain ⟨hrow, hok⟩ := Prod.mk.inj hall
  obtain ⟨row, hs, hrevision⟩ := Option.map_eq_some_iff.mp hrow
  refine ⟨c₁, c₂, hc₁, hc₂, ?_⟩
  rw [← hrevision]
  have hguard : (Action.append 1 2 .user [()] 5).Guarded c₂.store.db 1 row.revision :=
    ⟨rfl, hrevision.symm⟩
  exact guarded_write_sees_history hc₁ hc₂ hs hguard hok

/-- Another client rewinds the session by one message and writes one of its own. -/
def rewritten : List (Move Nat Unit) :=
  [.begin_ 3 (.rewind 1 { expectedRevision := 2, atMessageId := 2 }), .commit,
    .begin_ 4 (.append 1 1 .user [()] 4), .commit]

/-- The revision is then the one that the first client has read, and the write that it makes is
    accepted; it follows a message which that client has never seen. -/
theorem rewritten_unseen :
    ∃ c₁ c₂, run move {} written = some c₁ ∧ run move c₁ rewritten = some c₂ ∧
      (c₁.store.db.sessions.lookup 1).map (fun row => row.revision) = some 2 ∧
      c₁.store.db.history 1 = [2, 3] ∧
      ((Action.append 1 2 .user [()] 5).perform c₂.store.db 5).1 = none ∧
      c₂.store.db.history 1 = [2, 4] ∧
      c₂.store.db.listMessages 1 ≠ c₁.store.db.listMessages 1 := by
  have hrun : ((run move {} written).bind fun c₁ => (run move c₁ rewritten).map fun c₂ =>
      ((c₁.store.db.sessions.lookup 1).map (fun row => row.revision), c₁.store.db.history 1,
        ((Action.append 1 2 .user [()] 5).perform c₂.store.db 5).1, c₂.store.db.history 1)) =
      some (some 2, [2, 3], none, [2, 4]) := by decide
  obtain ⟨c₁, hc₁, hrest⟩ := Option.bind_eq_some_iff.mp hrun
  obtain ⟨c₂, hc₂, hall⟩ := Option.map_eq_some_iff.mp hrest
  simp only [Prod.mk.injEq] at hall
  obtain ⟨hrevision, hbefore, hok, hafter⟩ := hall
  refine ⟨c₁, c₂, hc₁, hc₂, hrevision, hbefore, hok, hafter, ?_⟩
  intro hsame
  have h₁ : c₁.Sound := Clients.sound_empty.run hc₁
  have h₂ : c₂.Sound := h₁.run hc₂
  obtain ⟨row₁, hs₁⟩ := h₁.store.db.listed.session_of_mem (hbefore ▸ mem_cons_self)
  obtain ⟨row₂, hs₂⟩ := h₂.store.db.listed.session_of_mem (hafter ▸ mem_cons_self)
  have hids := Tables.history_of_listMessages h₁.store.db h₂.store.db hs₁ hs₂ hsame
  rw [hbefore, hafter] at hids
  simp at hids

end TyloQuant.SessionStore
