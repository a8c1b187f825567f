import TyloQuant.SessionStore.Outcomes
import TyloQuant.Lib.Transition

/-!
# The conversations stay in order

Every outcome of a call keeps the tables sound: the lists are in order, and the responses agree
with them and with the states of the sessions.
-/

namespace TyloQuant.SessionStore

open Lib List

variable {U J : Type} [DecidableEq U]

namespace Tables

variable {db db' : Tables U J} {id : U} {r : Response U J}

theorem Sound.session_of_response (h : db.Sound) (hr : db.responses.lookup id = some r) :
    ∃ row, db.sessions.lookup r.sessionId = some row :=
  h.listed.session_of_mem (h.answered.input id r hr)

variable {s : U} {row : Session J}

theorem Answered.not_running (h : db.Answered) (hs : db.sessions.lookup s = some row)
    (hstate : row.state ≠ .processing) (id : U) :
    ¬db.Running s id := by
  rintro ⟨r, hr, rfl, hrunning⟩
  obtain ⟨row', hs', hprocessing, -⟩ := h.running id r hr hrunning
  obtain rfl := Option.some.inj (hs.symm.trans hs')
  exact hstate hprocessing

/-! ### Fewer responses -/

/-- Where responses are only removed, it is enough that those that are left keep what they refer
    to, and that a session that is processing keeps its own. -/
theorem Answered.restrict (h : db.Answered)
    (hsub : ∀ id r, db'.responses.lookup id = some r → db.responses.lookup id = some r)
    (hmem : ∀ id r, db'.responses.lookup id = some r → ∀ m ∈ db.history r.sessionId,
      m = r.inputMessageId ∨ m ∈ r.outputMessageId → m ∈ db'.history r.sessionId)
    (hrow : ∀ id r, db'.responses.lookup id = some r → ∀ row,
      db.sessions.lookup r.sessionId = some row → row.state = .processing →
        db'.sessions.lookup r.sessionId = some row ∧
          db'.history r.sessionId = db.history r.sessionId)
    (hprocessing : ∀ s row, db'.sessions.lookup s = some row → row.state = .processing →
      db.sessions.lookup s = some row ∧ ∀ id, db.Running s id → db'.Running s id) :
    db'.Answered where
  input := by
    intro id r hr
    exact hmem id r hr _ (h.input id r (hsub id r hr)) (Or.inl rfl)
  output := by
    intro id r hr m hm
    exact hmem id r hr m (h.output id r (hsub id r hr) m hm) (Or.inr hm)
  running := by
    intro id r hr hrunning
    obtain ⟨row, hs, hstate, hlast⟩ := h.running id r (hsub id r hr) hrunning
    obtain ⟨hs', hsame⟩ := hrow id r hr row hs hstate
    exact ⟨row, hs', hstate, by rw [hsame, hlast]⟩
  processing := by
    intro s row hs hstate
    obtain ⟨hs', hkeep⟩ := hprocessing s row hs hstate
    obtain ⟨id, hid⟩ := h.processing s row hs' hstate
    exact ⟨id, hkeep id hid⟩
  once := by
    rintro s id id' ⟨r, hr, hs, hrunning⟩ ⟨r', hr', hs', hrunning'⟩
    exact h.once s id id' ⟨r, hsub id r hr, hs, hrunning⟩ ⟨r', hsub id' r' hr', hs', hrunning'⟩
  request := by
    intro id r id' r' hr hr' hs hrequest
    exact h.request id r id' r' (hsub id r hr) (hsub id' r' hr') hs hrequest

theorem Sound.withSession (h : db.Sound) {copied : List (Entry U)} (hs : s ∉ db.sessions)
    (hstate : row.state = .idle)
    (hordinals : (copied.map fun e => e.ordinal) = List.range' 1 row.revision)
    (hchain : Chain db.messages none (copied.map fun e => e.messageId)) :
    (db.withSession s row copied).Sound where
  listed := h.listed.withSession hs hordinals hchain
  answered := by
    have hother : ∀ t, t ∈ db.sessions → t ≠ s := by
      rintro t ht rfl
      exact hs ht
    have hhistory : ∀ t, t ∈ db.sessions → (db.withSession s row copied).history t =
        db.history t := by
      intro t ht
      rw [history_withSession, if_neg (hother t ht), List.append_nil]
    have hlookup : ∀ t, t ≠ s → (db.withSession s row copied).sessions.lookup t =
        db.sessions.lookup t := fun t ht => AList.lookup_insert_ne ht
    refine h.answered.restrict (fun id r hr => hr) ?_ ?_ ?_
    · intro id r hr m hm _
      obtain ⟨old, hold⟩ := h.session_of_response hr
      rwa [hhistory _ (Table.mem_of_lookup hold)]
    · intro id r hr old hold _
      have hmem := Table.mem_of_lookup hold
      exact ⟨by rwa [hlookup _ (hother _ hmem)], hhistory _ hmem⟩
    · intro t trow ht hprocessing
      have hne : t ≠ s := by
        rintro rfl
        have hself : (db.withSession t row copied).sessions.lookup t = some row :=
          AList.lookup_insert _
        obtain rfl := Option.some.inj (hself.symm.trans ht)
        rw [hstate] at hprocessing
        cases hprocessing
      exact ⟨by rwa [hlookup t hne] at ht, fun id hid => hid⟩

variable {row' : Session J}

theorem Sound.append (h : db.Sound) {m : U} {message : Message U J}
    (hs : db.sessions.lookup s = some row) (hstate : row.state ≠ .processing)
    (hsame : row'.state = row.state) (hrevision : row'.revision = row.revision + 1)
    (hm : m ∉ db.messages) (hparent : message.parentId = db.previous s) :
    (db.withMessage s row' m message).Sound where
  listed := h.listed.withMessage hs hrevision hm hparent
  answered := by
    refine h.answered.restrict (fun id r hr => hr) ?_ ?_ ?_
    · intro id r hr a ha _
      rw [history_withMessage]
      split
      · rename_i hrs
        exact mem_append_left _ (hrs ▸ ha)
      · exact ha
    · intro id r hr old hold hprocessing
      have hne : r.sessionId ≠ s := by
        intro hrs
        rw [hrs] at hold
        obtain rfl := Option.some.inj (hs.symm.trans hold)
        exact hstate hprocessing
      rw [history_withMessage, if_neg hne, sessions_withMessage, AList.lookup_insert_ne hne]
      exact ⟨hold, rfl⟩
    · intro t trow ht hprocessing
      rcases Table.lookup_insert_cases ht with ⟨-, rfl⟩ | ⟨-, ht⟩
      · rw [hsame] at hprocessing
        exact absurd hprocessing hstate
      · exact ⟨ht, fun id hid => hid⟩

theorem Sound.rewound (h : db.Sound) (hs : db.sessions.lookup s = some row)
    (hstate : row.state ≠ .processing) (hidle : row'.state = .idle)
    (hle : row'.revision ≤ row.revision) :
    (db.rewound s row').Sound where
  listed := h.listed.rewound hs hle
  answered := by
    have hkept : ∀ id r, (db.rewound s row').responses.lookup id = some r →
        db.responses.lookup id = some r ∧ (r.sessionId = s →
          db.listedAfter s row'.revision r.inputMessageId = false ∧
            r.outputMessageId.any (db.listedAfter s row'.revision) = false) := by
      intro id r hr
      obtain ⟨hold, hcut⟩ := Table.lookup_filter_some.mp hr
      refine ⟨hold, fun hrs => ?_⟩
      simpa [hrs] using hcut
    -- What is not cut off keeps its place.
    have hplace : ∀ m ∈ db.history s, db.listedAfter s row'.revision m = false →
        m ∈ (db.rewound s row').history s := by
      intro m hm hcut
      obtain ⟨e, he, hes, hem⟩ := mem_history.mp hm
      refine mem_history.mpr ⟨e, mem_filter.mpr ⟨he, ?_⟩, hes, hem⟩
      have hle : ¬row'.revision < e.ordinal := by
        intro hlt
        have hafter : db.listedAfter s row'.revision m = true :=
          any_eq_true.mpr ⟨e, mem_entriesOf.mpr ⟨he, hes⟩, decide_eq_true ⟨hem, hlt⟩⟩
        rw [hcut] at hafter
        cases hafter
      simp [hle]
    have hother : ∀ t, t ≠ s → (db.rewound s row').history t = db.history t := by
      intro t ht
      rw [h.listed.history_rewound hs, if_neg ht]
    refine h.answered.restrict (fun id r hr => (hkept id r hr).1) ?_ ?_ ?_
    · intro id r hr m hm hlisted
      by_cases hrs : r.sessionId = s
      · obtain ⟨hinput, houtput⟩ := (hkept id r hr).2 hrs
        rw [hrs] at hm ⊢
        apply hplace m hm
        rcases hlisted with rfl | hout
        · exact hinput
        · rw [Option.mem_def.mp hout] at houtput
          exact houtput
      · rwa [hother _ hrs]
    · intro id r hr old hold hprocessing
      have hne : r.sessionId ≠ s := by
        intro hrs
        rw [hrs] at hold
        obtain rfl := Option.some.inj (hs.symm.trans hold)
        exact hstate hprocessing
      exact ⟨(AList.lookup_insert_ne hne).trans hold, hother _ hne⟩
    · intro t trow ht hprocessing
      rcases Table.lookup_insert_cases ht with ⟨-, rfl⟩ | ⟨hts, hrows⟩
      · rw [hidle] at hprocessing
        cases hprocessing
      · refine ⟨hrows, ?_⟩
        rintro id ⟨r, hr, hrt, hrunning⟩
        exact ⟨r, Table.lookup_filter_some.mpr ⟨hr, by simp [hrt, hts]⟩, hrt, hrunning⟩

theorem Sound.removed (h : db.Sound) (s : U) : (db.removed s).Sound where
  listed := h.listed.removed s
  answered := by
    have hother : ∀ t, t ≠ s → (db.removed s).history t = db.history t := by
      intro t ht
      rw [history_removed, if_neg ht]
    refine h.answered.restrict (fun id r hr => (response_removed.mp hr).1) ?_ ?_ ?_
    · intro id r hr m hm _
      rwa [hother _ (response_removed.mp hr).2]
    · intro id r hr old hold _
      have hne := (response_removed.mp hr).2
      exact ⟨(AList.lookup_erase_ne hne).trans hold, hother _ hne⟩
    · intro t trow ht _
      have hrows : (db.sessions.erase s).lookup t = some trow := ht
      rw [Table.lookup_erase_ite] at hrows
      split at hrows
      · cases hrows
      · rename_i hts
        refine ⟨hrows, ?_⟩
        rintro id ⟨r, hr, rfl, hrunning⟩
        exact ⟨r, response_removed.mpr ⟨hr, hts⟩, rfl, hrunning⟩

/-! ### A response starts -/

theorem responseTo_none (h : db.responseTo s requestId = none)
    (hr : db.responses.lookup id = some r) (hs : r.sessionId = s) : r.requestId ≠ requestId := by
  intro hrequest
  have hfind := Option.map_eq_none_iff.mp h
  have hpair := find?_eq_none.mp hfind ⟨id, r⟩ (AList.mem_lookup_iff.mp hr)
  exact hpair (decide_eq_true ⟨hs, hrequest⟩)

theorem Sound.begun (h : db.Sound) {s m id : U} {row row' : Session J} {message : Message U J}
    {r : Response U J} (hs : db.sessions.lookup s = some row) (hstate : row.state ≠ .processing)
    (hprocessing : row'.state = .processing) (hrevision : row'.revision = row.revision + 1)
    (hm : m ∉ db.messages) (hparent : message.parentId = db.previous s)
    (hid : id ∉ db.responses) (hrs : r.sessionId = s) (hinput : r.inputMessageId = m)
    (houtput : r.outputMessageId = none) (hrunning : r.status = .running)
    (hnew : db.responseTo s r.requestId = none) :
    ((db.withMessage s row' m message).withResponse id r).Sound where
  listed := (h.listed.withMessage hs hrevision hm hparent).congr (fun t trow ht => ⟨trow, ht, rfl⟩)
    (fun t ht => ht) rfl rfl
  answered := by
    have hhistory : ∀ t, ((db.withMessage s row' m message).withResponse id r).history t =
        if t = s then db.history s ++ [m] else db.history t :=
      fun t => history_withMessage db s t row' m message
    have hlookup : ∀ k, ((db.withMessage s row' m message).withResponse id r).responses.lookup k =
        if k = id then some r else db.responses.lookup k :=
      fun k => Table.lookup_insert_ite db.responses id k r
    have hsessions : ∀ t, ((db.withMessage s row' m message).withResponse id r).sessions.lookup t =
        if t = s then some row' else db.sessions.lookup t :=
      fun t => Table.lookup_insert_ite db.sessions s t row'
    have hmono : ∀ t a, a ∈ db.history t →
        a ∈ ((db.withMessage s row' m message).withResponse id r).history t := by
      intro t a ha
      rw [hhistory]
      split
      · rename_i hts
        exact mem_append_left _ (hts ▸ ha)
      · exact ha
    have hlast : m ∈ ((db.withMessage s row' m message).withResponse id r).history s := by
      rw [hhistory, if_pos rfl]
      exact mem_append_right _ (mem_singleton.mpr rfl)
    -- The session ran nothing before.
    have hold : ∀ k, ¬db.Running s k := h.answered.not_running hs hstate
    have hrunning' : ∀ t k, ((db.withMessage s row' m message).withResponse id r).Running t k →
        (k = id ∧ t = s) ∨ (t ≠ s ∧ db.Running t k) := by
      rintro t k ⟨x, hx, hxs, hxrunning⟩
      rw [hlookup] at hx
      split at hx
      · rename_i hk
        obtain rfl := Option.some.inj hx
        exact Or.inl ⟨hk, hxs ▸ hrs⟩
      · refine Or.inr ⟨?_, x, hx, hxs, hxrunning⟩
        rintro rfl
        exact hold k ⟨x, hx, hxs, hxrunning⟩
    constructor
    · intro k x hx
      rw [hlookup] at hx
      split at hx
      · obtain rfl := Option.some.inj hx
        rw [hrs, hinput]
        exact hlast
      · exact hmono _ _ (h.answered.input k x hx)
    · intro k x hx a ha
      rw [hlookup] at hx
      split at hx
      · obtain rfl := Option.some.inj hx
        rw [houtput] at ha
        cases ha
      · exact hmono _ _ (h.answered.output k x hx a ha)
    · intro k x hx hxrunning
      have hx' := hx
      rw [hlookup] at hx'
      split at hx'
      · obtain rfl := Option.some.inj hx'
        rw [hhistory, hsessions, hrs, hinput, if_pos rfl, if_pos rfl]
        exact ⟨row', rfl, hprocessing, getLast?_concat⟩
      · obtain ⟨xrow, hxs, hxstate, hxlast⟩ := h.answered.running k x hx' hxrunning
        have hne : x.sessionId ≠ s := by
          intro hxs'
          exact hold k ⟨x, hx', hxs', hxrunning⟩
        rw [hhistory, hsessions, if_neg hne, if_neg hne]
        exact ⟨xrow, hxs, hxstate, hxlast⟩
    · intro t trow ht htstate
      rw [hsessions] at ht
      split at ht
      · rename_i hts
        refine ⟨id, r, ?_, hrs.trans hts.symm, hrunning⟩
        rw [hlookup, if_pos rfl]
      · obtain ⟨k, x, hx, hxs, hxrunning⟩ := h.answered.processing t trow ht htstate
        refine ⟨k, x, ?_, hxs, hxrunning⟩
        rw [hlookup, if_neg, hx]
        rintro rfl
        exact hid (Table.mem_of_lookup hx)
    · intro t k k' hk hk'
      rcases hrunning' t k hk with ⟨rfl, rfl⟩ | ⟨hne, hk⟩
      · rcases hrunning' t k' hk' with ⟨rfl, -⟩ | ⟨hne', -⟩
        · rfl
        · exact absurd rfl hne'
      · rcases hrunning' t k' hk' with ⟨-, rfl⟩ | ⟨-, hk'⟩
        · exact absurd rfl hne
        · exact h.answered.once t k k' hk hk'
    · intro k x k' x' hx hx' hxs hrequest
      rw [hlookup] at hx hx'
      split at hx
      · obtain rfl := Option.some.inj hx
        split at hx'
        · rename_i hk hk'
          rw [hk, hk']
        · exact absurd hrequest.symm
            (responseTo_none (hnew) hx' (hxs.symm.trans hrs))
      · split at hx'
        · obtain rfl := Option.some.inj hx'
          exact absurd hrequest (responseTo_none hnew hx (hxs.trans hrs))
        · exact h.answered.request k x k' x' hx hx' hxs hrequest

/-! ### A response ends -/

variable {r' : Response U J}

/-- A response that ran has ended, and its session processes nothing any more. -/
theorem Sound.settle (h : db.Sound) (hlisted : db'.Listed) (hid : db.responses.lookup id = some r)
    (hrunning : r.status = .running) (hresponses : db'.responses = db.responses.insert id r')
    (hended : r'.status ≠ .running) (hs : r'.sessionId = r.sessionId)
    (hrequest : r'.requestId = r.requestId) (hinput : r'.inputMessageId = r.inputMessageId)
    (houtput : ∀ m ∈ r'.outputMessageId, m ∈ db'.history r.sessionId)
    (hmono : ∀ t, ∀ m ∈ db.history t, m ∈ db'.history t)
    (hother : ∀ t, t ≠ r.sessionId →
      db'.sessions.lookup t = db.sessions.lookup t ∧ db'.history t = db.history t)
    (hstate : ∀ row, db'.sessions.lookup r.sessionId = some row → row.state ≠ .processing) :
    db'.Sound where
  listed := hlisted
  answered := by
    have hlookup : ∀ k, db'.responses.lookup k =
        if k = id then some r' else db.responses.lookup k := by
      intro k
      rw [hresponses, Table.lookup_insert_ite]
    -- Of the responses that run, the one that ended is gone and the others are as before.
    have hrunning' : ∀ t k, db'.Running t k → k ≠ id ∧ t ≠ r.sessionId ∧ db.Running t k := by
      rintro t k ⟨x, hx, hxs, hxrunning⟩
      rw [hlookup] at hx
      split at hx
      · obtain rfl := Option.some.inj hx
        exact absurd hxrunning hended
      · rename_i hk
        refine ⟨hk, ?_, x, hx, hxs, hxrunning⟩
        rintro rfl
        exact hk (h.answered.once _ k id ⟨x, hx, hxs, hxrunning⟩ ⟨r, hid, rfl, hrunning⟩)
    constructor
    · intro k x hx
      rw [hlookup] at hx
      split at hx
      · obtain rfl := Option.some.inj hx
        rw [hs, hinput]
        exact hmono _ _ (h.answered.input id r hid)
      · exact hmono _ _ (h.answered.input k x hx)
    · intro k x hx m hm
      rw [hlookup] at hx
      split at hx
      · obtain rfl := Option.some.inj hx
        rw [hs]
        exact houtput m hm
      · exact hmono _ _ (h.answered.output k x hx m hm)
    · intro k x hx hxrunning
      obtain ⟨hk, hne, y, hy, hys, hyrunning⟩ := hrunning' _ k ⟨x, hx, rfl, hxrunning⟩
      rw [hlookup, if_neg hk] at hx
      obtain ⟨row, hrow, hrowstate, hlast⟩ := h.answered.running k x hx hxrunning
      obtain ⟨hsame, hhistory⟩ := hother _ hne
      exact ⟨row, hsame.trans hrow, hrowstate, by rw [hhistory, hlast]⟩
    · intro t row ht htstate
      have hne : t ≠ r.sessionId := by
        rintro rfl
        exact hstate row ht htstate
      obtain ⟨k, x, hx, hxs, hxrunning⟩ :=
        h.answered.processing t row ((hother t hne).1.symm.trans ht) htstate
      refine ⟨k, x, ?_, hxs, hxrunning⟩
      rw [hlookup, if_neg, hx]
      rintro rfl
      obtain rfl := Option.some.inj (hid.symm.trans hx)
      exact hne hxs.symm
    · intro t k k' hk hk'
      exact h.answered.once t k k' (hrunning' t k hk).2.2 (hrunning' t k' hk').2.2
    · intro k x k' x' hx hx' hxs hxrequest
      rw [hlookup] at hx hx'
      split at hx
      · obtain rfl := Option.some.inj hx
        split at hx'
        · rename_i hk hk'
          rw [hk, hk']
        · rename_i hk _
          rw [hk]
          exact h.answered.request id r k' x' hid hx' (hs.symm.trans hxs)
            (hrequest.symm.trans hxrequest)
      · split at hx'
        · obtain rfl := Option.some.inj hx'
          rename_i hk'
          rw [hk']
          exact h.answered.request k x id r hx hid (hxs.trans hs)
            (hxrequest.trans hrequest)
        · exact h.answered.request k x k' x' hx hx' hxs hxrequest

theorem Sound.recovered (h : db.Sound) (error : J) (now : Nat) :
    (db.recoverInterruptedResponses error now).2.Sound where
  listed := by
    refine h.listed.congr ?_ ?_ rfl rfl
    · intro s row hs
      obtain ⟨old, hold, rfl⟩ :=
        Option.map_eq_some_iff.mp ((Table.lookup_mapVal _ db.sessions s).symm.trans hs)
      exact ⟨old, hold, by split <;> rfl⟩
    · intro s hs
      obtain ⟨row, hrow⟩ := (Table.mem_iff _ _).mp hs
      exact Table.mem_of_lookup
        ((Table.lookup_mapVal _ db.sessions s).trans (congrArg (Option.map _) hrow))
  answered := by
    have hresponse : ∀ id r,
        (db.recoverInterruptedResponses error now).2.responses.lookup id = some r →
          ∃ old, db.responses.lookup id = some old ∧ r.sessionId = old.sessionId ∧
            r.requestId = old.requestId ∧ r.inputMessageId = old.inputMessageId ∧
            r.outputMessageId = old.outputMessageId ∧ r.status ≠ .running := by
      intro id r hr
      obtain ⟨old, hold, rfl⟩ :=
        Option.map_eq_some_iff.mp ((Table.lookup_mapVal _ db.responses id).symm.trans hr)
      refine ⟨old, hold, ?_⟩
      split
      · exact ⟨rfl, rfl, rfl, rfl, by simp⟩
      · rename_i hrunning
        exact ⟨rfl, rfl, rfl, rfl, hrunning⟩
    constructor
    · intro id r hr
      obtain ⟨old, hold, hs, -, hinput, -⟩ := hresponse id r hr
      rw [hs, hinput]
      exact h.answered.input id old hold
    · intro id r hr m hm
      obtain ⟨old, hold, hs, -, -, houtput, -⟩ := hresponse id r hr
      rw [hs]
      exact h.answered.output id old hold m (houtput ▸ hm)
    · intro id r hr hrunning
      obtain ⟨-, -, -, -, -, -, hended⟩ := hresponse id r hr
      exact absurd hrunning hended
    · intro s row hs hprocessing
      obtain ⟨old, -, rfl⟩ :=
        Option.map_eq_some_iff.mp ((Table.lookup_mapVal _ db.sessions s).symm.trans hs)
      split at hprocessing
      · cases hprocessing
      · rename_i hstate
        exact absurd hprocessing hstate
    · rintro s id id' ⟨r, hr, -, hrunning⟩ -
      obtain ⟨-, -, -, -, -, -, hended⟩ := hresponse id r hr
      exact absurd hrunning hended
    · intro id r id' r' hr hr' hs hrequest
      obtain ⟨old, hold, holds, holdq, -⟩ := hresponse id r hr
      obtain ⟨old', hold', holds', holdq', -⟩ := hresponse id' r' hr'
      exact h.answered.request id old id' old' hold hold'
        (holds.symm.trans (hs.trans holds')) (holdq.symm.trans (hrequest.trans holdq'))

/-! ### One call -/

theorem lookup_updateSession (db : Tables U J) (s t : U) (set : Session J → Session J) :
    (db.updateSession s set).sessions.lookup t =
      if t = s then (db.sessions.lookup s).map set else db.sessions.lookup t := by
  unfold updateSession
  cases hs : db.sessions.lookup s with
  | none =>
    by_cases hts : t = s
    · rw [if_pos hts, hts]
      exact hs
    · rw [if_neg hts]
  | some row => exact Table.lookup_insert_ite db.sessions s t (set row)

theorem history_updateSession (db : Tables U J) (s t : U) (set : Session J → Session J) :
    (db.updateSession s set).history t = db.history t := by
  unfold updateSession
  split <;> rfl

variable {set : Session J → Session J}

theorem Listed.updateSession (h : db.Listed) (s : U)
    (hrevision : ∀ row, (set row).revision = row.revision) : (db.updateSession s set).Listed := by
  have hrows := fun t => lookup_updateSession db s t set
  refine h.congr ?_ ?_ ?_ ?_
  · intro t row ht
    rw [hrows] at ht
    split at ht
    · rename_i hts
      obtain ⟨old, hold, rfl⟩ := Option.map_eq_some_iff.mp ht
      exact ⟨old, hts ▸ hold, (hrevision old).symm⟩
    · exact ⟨row, ht, rfl⟩
  · intro t ht
    obtain ⟨row, hrow⟩ := (Table.mem_iff _ _).mp ht
    rw [Table.mem_iff, hrows]
    split
    · rename_i hts
      exact ⟨set row, by rw [← hts, hrow]; rfl⟩
    · exact ⟨row, hrow⟩
  · unfold Tables.updateSession
    split <;> rfl
  · unfold Tables.updateSession
    split <;> rfl

theorem Sound.completed (h : db.Sound) {id m : U} {r r' : Response U J} {row row' : Session J}
    {message : Message U J} (hid : db.responses.lookup id = some r) (hrunning : r.status = .running)
    (hs : db.sessions.lookup r.sessionId = some row) (hstate : row'.state ≠ .processing)
    (hrevision : row'.revision = row.revision + 1) (hm : m ∉ db.messages)
    (hparent : message.parentId = db.previous r.sessionId) (hended : r'.status ≠ .running)
    (hrs : r'.sessionId = r.sessionId) (hrequest : r'.requestId = r.requestId)
    (hinput : r'.inputMessageId = r.inputMessageId) (houtput : r'.outputMessageId = some m) :
    ((db.withMessage r.sessionId row' m message).withResponse id r').Sound := by
  have hhistory : ∀ t, ((db.withMessage r.sessionId row' m message).withResponse id r').history t =
      if t = r.sessionId then db.history r.sessionId ++ [m] else db.history t :=
    fun t => history_withMessage db r.sessionId t row' m message
  have hlookup : ∀ t,
      ((db.withMessage r.sessionId row' m message).withResponse id r').sessions.lookup t =
        if t = r.sessionId then some row' else db.sessions.lookup t :=
    fun t => Table.lookup_insert_ite db.sessions r.sessionId t row'
  refine h.settle ?_ hid hrunning rfl hended hrs hrequest hinput ?_ ?_ ?_ ?_
  · exact (h.listed.withMessage hs hrevision hm hparent).congr (fun t trow ht => ⟨trow, ht, rfl⟩)
      (fun t ht => ht) rfl rfl
  · intro a ha
    obtain rfl := Option.some.inj (houtput.symm.trans ha)
    rw [hhistory, if_pos rfl]
    exact mem_append_right _ (mem_singleton.mpr rfl)
  · intro t a ha
    rw [hhistory]
    split
    · rename_i hts
      exact mem_append_left _ (hts ▸ ha)
    · exact ha
  · intro t ht
    rw [hhistory, hlookup, if_neg ht, if_neg ht]
    exact ⟨rfl, rfl⟩
  · intro trow ht
    rw [hlookup, if_pos rfl] at ht
    obtain rfl := Option.some.inj ht
    exact hstate

theorem Sound.terminated (h : db.Sound) (hid : db.responses.lookup id = some r)
    (hrunning : r.status = .running) (hrevision : ∀ row, (set row).revision = row.revision)
    (hstate : ∀ row, (set row).state ≠ .processing) (hended : r'.status ≠ .running)
    (hrs : r'.sessionId = r.sessionId) (hrequest : r'.requestId = r.requestId)
    (hinput : r'.inputMessageId = r.inputMessageId)
    (houtput : r'.outputMessageId = r.outputMessageId) :
    ((db.withResponse id r').updateSession r.sessionId set).Sound := by
  have hhistory : ∀ t, ((db.withResponse id r').updateSession r.sessionId set).history t =
      db.history t := fun t => history_updateSession _ r.sessionId t set
  have hlookup := fun t => lookup_updateSession (db.withResponse id r') r.sessionId t set
  refine h.settle ?_ hid hrunning (responses_updateSession _ _) hended hrs hrequest hinput ?_ ?_
    ?_ ?_
  · have hlisted : (db.withResponse id r').Listed :=
      h.listed.congr (fun t row ht => ⟨row, ht, rfl⟩) (fun t ht => ht) rfl rfl
    exact hlisted.updateSession r.sessionId hrevision
  · intro m hm
    rw [hhistory]
    exact h.answered.output id r hid m (houtput ▸ hm)
  · intro t m hm
    rwa [hhistory]
  · intro t ht
    rw [hhistory, hlookup, if_neg ht]
    exact ⟨rfl, rfl⟩
  · intro row hrow
    rw [hlookup, if_pos rfl] at hrow
    obtain ⟨old, -, rfl⟩ := Option.map_eq_some_iff.mp hrow
    exact hstate old

theorem Sound.outcome {now : Nat} {a : Action U J} {e : Option (StorageError U)} (h : db.Sound)
    (hout : Outcome db now a (e, db')) : db'.Sound := by
  cases hout with
  | failed _ _ => exact h
  | repeated _ => exact h
  | created request hs => exact h.withSession hs rfl rfl trivial
  | forked request hs ht hle hidle =>
    refine h.withSession ht hidle ?_ ?_
    · rw [map_take, h.listed.ordinals _ _ hs, take_range'_of_length_ge hle]
    · rw [map_take]
      exact (h.listed.chain _).take _
  | appended role parts hs hstate hm =>
    refine h.append hs ?_ rfl rfl hm rfl
    intro hprocessing
    rw [hprocessing] at hstate
    simp at hstate
  | rewound hs _ hstate _ hle => exact h.rewound hs hstate rfl hle
  | begun fingerprint inputParts settings inputRole hnew hs hstate hm hid =>
    refine h.begun hs ?_ rfl rfl hm rfl hid rfl rfl rfl rfl hnew
    intro hprocessing
    rw [hprocessing] at hstate
    simp at hstate
  | completed output finishReason usage performance hid hrunning hs hm =>
    exact h.completed hid hrunning hs (by simp) rfl hm rfl (by simp) rfl rfl rfl rfl
  | terminated error cancelled hid hrunning =>
    refine h.terminated hid hrunning (fun _ => rfl) ?_ ?_ rfl rfl rfl rfl
    · intro row
      dsimp only
      split <;> simp
    · dsimp only
      split <;> simp
  | recovered error => exact h.recovered error now
  | removed _ _ => exact h.removed _

end Tables

end TyloQuant.SessionStore
