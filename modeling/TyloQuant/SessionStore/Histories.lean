import TyloQuant.SessionStore.Store

/-!
# The history of a session

A session lists its messages by number.  This file says what it is for the lists to be in order:
the numbers of a session with revision `n` are `1, …, n`, and each message of its history has the
one before it as its parent.  It then says what the three ways in which a list changes leave of
that: a message is added at the end, a list is copied up to a number, and a list is cut there.
-/

namespace TyloQuant.SessionStore

open Lib List

variable {U J : Type} [DecidableEq U]

/-! ### Numbered lists -/

/-- In a list that is numbered from `first` on, a bound on the number is one on the place. -/
theorem filter_le_range' {α : Type} {number : α → Nat} {l : List α} {first n : Nat}
    (h : l.map number = List.range' first n) (limit : Nat) :
    (l.filter fun a => number a ≤ limit) = l.take (limit + 1 - first) := by
  induction l generalizing first n with
  | nil => simp
  | cons a l ih =>
    cases n with
    | zero => simp at h
    | succ n =>
      rw [map_cons, range'_succ, List.cons.injEq] at h
      obtain ⟨ha, hl⟩ := h
      rw [filter_cons, ih hl]
      by_cases hle : first ≤ limit
      · have hsucc : limit + 1 - first = limit + 1 - (first + 1) + 1 := by omega
        rw [if_pos (by simpa [ha] using hle), hsucc, take_succ_cons]
      · have hzero : limit + 1 - first = 0 := by omega
        have hzero' : limit + 1 - (first + 1) = 0 := by omega
        rw [if_neg (by simpa [ha] using hle), hzero, hzero', take_zero, take_zero]

theorem pairwise_of_range' {α : Type} {number : α → Nat} {l : List α} {first n : Nat}
    (h : l.map number = List.range' first n) :
    l.Pairwise fun a b => number a ≤ number b := by
  have hsorted : (l.map number).Pairwise (· ≤ ·) := by
    rw [h]
    exact (pairwise_lt_range').imp Nat.le_of_lt
  exact pairwise_map.mp hsorted

/-! ### Chains of messages -/

/-- The messages are there, and each has the one before it as its parent. -/
def Chain (messages : Table U (Message U J)) : Option U → List U → Prop
  | _, [] => True
  | parent, m :: ms =>
    (∃ row, messages.lookup m = some row ∧ row.parentId = parent) ∧ Chain messages (some m) ms

theorem Chain.mem {messages : Table U (Message U J)} {parent : Option U} {ms : List U}
    (h : Chain messages parent ms) {m : U} (hm : m ∈ ms) : m ∈ messages := by
  induction ms generalizing parent with
  | nil => cases hm
  | cons a ms ih =>
    obtain ⟨⟨row, hrow, -⟩, hrest⟩ := h
    rcases mem_cons.mp hm with rfl | htail
    · exact Table.mem_of_lookup hrow
    · exact ih hrest htail

theorem Chain.mono {messages messages' : Table U (Message U J)} {parent : Option U}
    {ms : List U} (h : Chain messages parent ms)
    (hkeep : ∀ m ∈ ms, messages'.lookup m = messages.lookup m) : Chain messages' parent ms := by
  induction ms generalizing parent with
  | nil => trivial
  | cons a ms ih =>
    obtain ⟨⟨row, hrow, hparent⟩, hrest⟩ := h
    refine ⟨⟨row, ?_, hparent⟩, ih hrest fun m hm => hkeep m (mem_cons_of_mem a hm)⟩
    rw [hkeep a mem_cons_self]
    exact hrow

theorem Chain.take {messages : Table U (Message U J)} {parent : Option U} {ms : List U}
    (h : Chain messages parent ms) (n : Nat) : Chain messages parent (ms.take n) := by
  induction ms generalizing parent n with
  | nil =>
    rw [take_nil]
    trivial
  | cons a ms ih =>
    cases n with
    | zero => trivial
    | succ n => exact ⟨h.1, ih h.2 n⟩

theorem Chain.concat {messages : Table U (Message U J)} {parent : Option U} {ms : List U}
    (h : Chain messages parent ms) {m : U} {row : Message U J}
    (hrow : messages.lookup m = some row) (hparent : row.parentId = ms.getLast?.or parent) :
    Chain messages parent (ms ++ [m]) := by
  induction ms generalizing parent with
  | nil => exact ⟨⟨row, hrow, hparent⟩, trivial⟩
  | cons a ms ih =>
    refine ⟨h.1, ih h.2 ?_⟩
    rw [hparent, getLast?_cons]
    cases ms.getLast? with
    | none => rfl
    | some b => rfl

/-- The parent of the message at a place is the message at the place before. -/
theorem Chain.parent {messages : Table U (Message U J)} {parent : Option U} {ms : List U}
    (h : Chain messages parent ms) {i : Nat} {m : U} (hm : ms[i]? = some m) :
    ∃ row, messages.lookup m = some row ∧
      row.parentId = if i = 0 then parent else ms[i - 1]? := by
  induction ms generalizing parent i with
  | nil => simp at hm
  | cons a ms ih =>
    cases i with
    | zero =>
      obtain rfl : a = m := by simpa using hm
      obtain ⟨row, hrow, hparent⟩ := h.1
      exact ⟨row, hrow, by simpa using hparent⟩
    | succ i =>
      obtain ⟨row, hrow, hparent⟩ := ih h.2 (by simpa using hm)
      refine ⟨row, hrow, ?_⟩
      rw [hparent, if_neg (Nat.succ_ne_zero i), Nat.add_sub_cancel]
      cases i with
      | zero => rfl
      | succ i => rw [if_neg (Nat.succ_ne_zero i), Nat.add_sub_cancel, getElem?_cons_succ]

/-! ### Tables whose lists are in order -/

namespace Tables

/-- The messages of a session in the order in which they were listed. -/
def history (db : Tables U J) (sessionId : U) : List U :=
  (db.entriesOf sessionId).map fun e => e.messageId

/-- Every list of the tables is in order. -/
structure Listed (db : Tables U J) : Prop where
  ordinals : ∀ s row, db.sessions.lookup s = some row →
    ((db.entriesOf s).map fun e => e.ordinal) = List.range' 1 row.revision
  session : ∀ e ∈ db.entries, e.sessionId ∈ db.sessions
  chain : ∀ s, Chain db.messages none (db.history s)

theorem mem_entriesOf {db : Tables U J} {s : U} {e : Entry U} :
    e ∈ db.entriesOf s ↔ e ∈ db.entries ∧ e.sessionId = s := by
  simp [entriesOf]

theorem mem_history {db : Tables U J} {s m : U} :
    m ∈ db.history s ↔ ∃ e ∈ db.entries, e.sessionId = s ∧ e.messageId = m := by
  simp [history, mem_entriesOf, and_assoc]

theorem listed_iff {db : Tables U J} {m : U} : db.listed m = true ↔ ∃ s, m ∈ db.history s := by
  simp only [listed, any_eq_true, decide_eq_true_eq, mem_history]
  constructor
  · rintro ⟨e, he, hm⟩
    exact ⟨e.sessionId, e, he, rfl, hm⟩
  · rintro ⟨s, e, he, -, hm⟩
    exact ⟨e, he, hm⟩

namespace Listed

variable {db : Tables U J}

theorem message (h : db.Listed) {s m : U} (hm : m ∈ db.history s) : m ∈ db.messages :=
  (h.chain s).mem hm

theorem length (h : db.Listed) {s : U} {row : Session J}
    (hs : db.sessions.lookup s = some row) : (db.history s).length = row.revision := by
  have hmap := congrArg List.length (h.ordinals s row hs)
  simpa [history] using hmap

theorem session_of_mem (h : db.Listed) {s m : U} (hm : m ∈ db.history s) :
    ∃ row, db.sessions.lookup s = some row := by
  obtain ⟨e, he, rfl, -⟩ := mem_history.mp hm
  exact (Table.mem_iff _ _).mp (h.session e he)

theorem history_of_notMem (h : db.Listed) {s : U} (hs : s ∉ db.sessions) : db.history s = [] := by
  apply eq_nil_iff_forall_not_mem.mpr
  intro m hm
  obtain ⟨row, hrow⟩ := h.session_of_mem hm
  exact hs (Table.mem_of_lookup hrow)

/-- The numbers are in order already, so that sorting by them changes nothing. -/
theorem ordered_eq (h : db.Listed) {s : U} {row : Session J}
    (hs : db.sessions.lookup s = some row) : db.ordered s = db.entriesOf s := by
  apply List.Pairwise.insertionSort_eq
  exact pairwise_of_range' (h.ordinals s row hs)

theorem previous_eq (h : db.Listed) {s : U} {row : Session J}
    (hs : db.sessions.lookup s = some row) : db.previous s = (db.history s).getLast? := by
  rw [previous, h.ordered_eq hs, history, getLast?_map]

theorem filter_ordinal (h : db.Listed) {s : U} {row : Session J}
    (hs : db.sessions.lookup s = some row) (limit : Nat) :
    ((db.entriesOf s).filter fun e => e.ordinal ≤ limit) = (db.entriesOf s).take limit := by
  have htake := filter_le_range' (h.ordinals s row hs) limit
  simpa using htake

/-- The numbers a session has are those up to its revision. -/
theorem ordinal_le (h : db.Listed) {e : Entry U} (he : e ∈ db.entries) {row : Session J}
    (hs : db.sessions.lookup e.sessionId = some row) : 1 ≤ e.ordinal ∧ e.ordinal ≤ row.revision := by
  have hmem : e.ordinal ∈ (db.entriesOf e.sessionId).map fun e => e.ordinal :=
    mem_map_of_mem (mem_entriesOf.mpr ⟨he, rfl⟩)
  rw [h.ordinals e.sessionId row hs, mem_range'_1] at hmem
  omega

theorem ordinalOf_le (h : db.Listed) {s m : U} {row : Session J} {n : Nat}
    (hs : db.sessions.lookup s = some row) (hn : db.ordinalOf s m = some n) :
    n ≤ row.revision := by
  obtain ⟨e, hfind, rfl⟩ := Option.map_eq_some_iff.mp hn
  obtain ⟨he, rfl⟩ := mem_entriesOf.mp (mem_of_find?_eq_some hfind)
  exact (h.ordinal_le he hs).2

end Listed

/-! ### A message at the end -/

/-- The tables after a message became the last one of a session, whose row is then `row`. -/
def withMessage (db : Tables U J) (s : U) (row : Session J) (m : U) (message : Message U J) :
    Tables U J :=
  { db with
    messages := db.messages.insert m message
    entries := db.entries ++ [{ sessionId := s, ordinal := row.revision, messageId := m }]
    sessions := db.sessions.insert s row }

theorem entriesOf_withMessage (db : Tables U J) (s t : U) (row : Session J) (m : U)
    (message : Message U J) :
    (db.withMessage s row m message).entriesOf t =
      if t = s then
        db.entriesOf s ++ [{ sessionId := s, ordinal := row.revision, messageId := m }]
      else db.entriesOf t := by
  by_cases h : t = s
  · subst h
    simp [withMessage, entriesOf]
  · rw [if_neg h]
    simp [withMessage, entriesOf, Ne.symm h]

theorem history_withMessage (db : Tables U J) (s t : U) (row : Session J) (m : U)
    (message : Message U J) :
    (db.withMessage s row m message).history t =
      if t = s then db.history s ++ [m] else db.history t := by
  rw [history, entriesOf_withMessage]
  split <;> simp [history]

theorem Listed.withMessage {db : Tables U J} (h : db.Listed) {s m : U} {row row' : Session J}
    {message : Message U J} (hs : db.sessions.lookup s = some row)
    (hrevision : row'.revision = row.revision + 1) (hm : m ∉ db.messages)
    (hparent : message.parentId = db.previous s) :
    (db.withMessage s row' m message).Listed where
  ordinals := by
    intro t trow ht
    rw [entriesOf_withMessage]
    rcases Table.lookup_insert_cases ht with ⟨hts, rfl⟩ | ⟨hts, hrows⟩
    · rw [if_pos hts, map_append, h.ordinals s row hs, hrevision]
      simp [range'_concat, Nat.add_comm]
    · rw [if_neg hts]
      exact h.ordinals t trow hrows
  session := by
    refine forall_mem_append.mpr ⟨fun e he => ?_, forall_mem_singleton.mpr ?_⟩
    · exact (AList.mem_insert _).mpr (Or.inr (h.session e he))
    · exact (AList.mem_insert _).mpr (Or.inl rfl)
  chain := by
    have hkeep : ∀ t, Chain (db.messages.insert m message) none (db.history t) := by
      intro t
      refine (h.chain t).mono fun a ha => ?_
      rw [Table.lookup_insert_ite, if_neg]
      rintro rfl
      exact hm (h.message ha)
    intro t
    rw [history_withMessage]
    split
    · refine (hkeep s).concat (AList.lookup_insert db.messages) ?_
      rw [hparent, h.previous_eq hs, Option.or_none]
    · exact hkeep t

/-! ### A copy -/

/-- The tables after a session was added that lists the messages of `copied`. -/
def withSession (db : Tables U J) (s : U) (row : Session J) (copied : List (Entry U)) :
    Tables U J :=
  { db with
    sessions := db.sessions.insert s row
    entries := db.entries ++ copied.map fun e => { e with sessionId := s } }

theorem entriesOf_withSession (db : Tables U J) (s t : U) (row : Session J)
    (copied : List (Entry U)) :
    (db.withSession s row copied).entriesOf t =
      db.entriesOf t ++ if t = s then copied.map fun e => { e with sessionId := s } else [] := by
  by_cases h : t = s
  · subst h
    simp [withSession, entriesOf, filter_map, Function.comp_def]
  · rw [if_neg h]
    simp [withSession, entriesOf, filter_map, Function.comp_def, Ne.symm h]

theorem history_withSession (db : Tables U J) (s t : U) (row : Session J)
    (copied : List (Entry U)) :
    (db.withSession s row copied).history t =
      db.history t ++ if t = s then copied.map fun e => e.messageId else [] := by
  rw [history, entriesOf_withSession]
  split <;> simp [history]

/-- What `copied` has in order is so in the session that is added. -/
theorem Listed.withSession {db : Tables U J} (h : db.Listed) {s : U} {row : Session J}
    {copied : List (Entry U)} (hs : s ∉ db.sessions)
    (hordinals : (copied.map fun e => e.ordinal) = List.range' 1 row.revision)
    (hchain : Chain db.messages none (copied.map fun e => e.messageId)) :
    (db.withSession s row copied).Listed where
  ordinals := by
    have hnone : db.entriesOf s = [] := map_eq_nil_iff.mp (h.history_of_notMem hs)
    intro t trow ht
    rw [entriesOf_withSession]
    rcases Table.lookup_insert_cases ht with ⟨rfl, rfl⟩ | ⟨hts, hrows⟩
    · rw [hnone, if_pos rfl, List.nil_append, map_map]
      exact hordinals
    · rw [if_neg hts, List.append_nil]
      exact h.ordinals t trow hrows
  session := by
    intro e he
    rcases mem_append.mp he with hold | hnew
    · exact (AList.mem_insert _).mpr (Or.inr (h.session e hold))
    · obtain ⟨f, -, rfl⟩ := mem_map.mp hnew
      exact (AList.mem_insert _).mpr (Or.inl rfl)
  chain := by
    intro t
    rw [history_withSession]
    split
    · rename_i hts
      rw [hts, h.history_of_notMem hs]
      exact hchain
    · rw [List.append_nil]
      exact h.chain t

/-! ### A cut -/

/-- The tables after a session was cut after the message with number `row.revision`. -/
def rewound (db : Tables U J) (s : U) (row : Session J) : Tables U J :=
  { db with
    sessions := db.sessions.insert s row
    entries := db.entries.filter fun e => !decide (e.sessionId = s ∧ row.revision < e.ordinal)
    responses := db.responses.filter fun _ r =>
      !decide (r.sessionId = s ∧ (db.listedAfter s row.revision r.inputMessageId ∨
        r.outputMessageId.any (db.listedAfter s row.revision))) }

theorem entriesOf_rewound (db : Tables U J) (s t : U) (row : Session J) :
    (db.rewound s row).entriesOf t =
      if t = s then (db.entriesOf s).filter fun e => e.ordinal ≤ row.revision
      else db.entriesOf t := by
  simp only [rewound, entriesOf, filter_filter]
  split
  · rename_i hts
    subst hts
    refine filter_congr fun e _ => ?_
    by_cases hlt : row.revision < e.ordinal
    · have hle : ¬e.ordinal ≤ row.revision := by omega
      simp [hlt, hle]
    · have hle : e.ordinal ≤ row.revision := by omega
      simp [hlt, hle]
  · rename_i hts
    refine filter_congr fun e _ => ?_
    by_cases he : e.sessionId = t
    · simp [he, hts]
    · simp [he]

theorem Listed.history_rewound {db : Tables U J} (h : db.Listed) {s : U} {row : Session J}
    (hs : db.sessions.lookup s = some row) (row' : Session J) (t : U) :
    (db.rewound s row').history t =
      if t = s then (db.history s).take row'.revision else db.history t := by
  rw [history, entriesOf_rewound]
  split
  · rw [h.filter_ordinal hs, history, map_take]
  · rfl

theorem Listed.rewound {db : Tables U J} (h : db.Listed) {s : U} {row row' : Session J}
    (hs : db.sessions.lookup s = some row) (hle : row'.revision ≤ row.revision) :
    (db.rewound s row').Listed where
  ordinals := by
    intro t trow ht
    rw [entriesOf_rewound]
    rcases Table.lookup_insert_cases ht with ⟨hts, rfl⟩ | ⟨hts, hrows⟩
    · rw [if_pos hts, h.filter_ordinal hs, map_take, h.ordinals s row hs,
        take_range'_of_length_ge hle]
    · rw [if_neg hts]
      exact h.ordinals t trow hrows
  session := by
    intro e he
    exact (AList.mem_insert _).mpr (Or.inr (h.session e (mem_of_mem_filter he)))
  chain := by
    intro t
    rw [h.history_rewound hs]
    split
    · exact (h.chain s).take row'.revision
    · exact h.chain t

/-! ### A removal -/

/-- The tables after a session was removed with the messages that nothing lists any more. -/
def removed (db : Tables U J) (s : U) : Tables U J :=
  { db.deleteSessionRow s with
    messages := db.messages.filter fun m _ => (db.deleteSessionRow s).listed m }

theorem response_removed {db : Tables U J} {s id : U} {r : Response U J} :
    (db.removed s).responses.lookup id = some r ↔
      db.responses.lookup id = some r ∧ r.sessionId ≠ s :=
  Table.lookup_filter_some.trans (and_congr_right fun _ => decide_eq_true_iff)

theorem history_removed (db : Tables U J) (s t : U) :
    (db.removed s).history t = if t = s then [] else db.history t := by
  simp only [history, entriesOf, removed, deleteSessionRow, filter_filter]
  split
  · rename_i hts
    subst hts
    rw [map_eq_nil_iff, filter_eq_nil_iff]
    intro e _
    simp
  · rename_i hts
    refine congrArg _ (filter_congr fun e _ => ?_)
    by_cases he : e.sessionId = t
    · simp [he, hts]
    · simp [he]

theorem Listed.removed {db : Tables U J} (h : db.Listed) (s : U) : (db.removed s).Listed where
  ordinals := by
    intro t trow ht
    have hrows : (db.sessions.erase s).lookup t = some trow := ht
    rw [Table.lookup_erase_ite] at hrows
    split at hrows
    · cases hrows
    · rename_i hts
      have hsame : (db.removed s).entriesOf t = db.entriesOf t := by
        simp only [entriesOf, Tables.removed, deleteSessionRow, filter_filter]
        refine filter_congr fun e _ => ?_
        by_cases he : e.sessionId = t
        · simp [he, hts]
        · simp [he]
      rw [hsame]
      exact h.ordinals t trow hrows
  session := by
    intro e he
    obtain ⟨hmem, hne⟩ := mem_filter.mp he
    exact AList.mem_erase.mpr ⟨by simpa using hne, h.session e hmem⟩
  chain := by
    intro t
    have hlisted : ∀ m ∈ (db.removed s).history t, (db.deleteSessionRow s).listed m = true :=
      fun m hm => listed_iff.mpr ⟨t, hm⟩
    have hchain : Chain db.messages none ((db.removed s).history t) := by
      rw [history_removed]
      split
      · trivial
      · exact h.chain t
    refine hchain.mono fun m hm => ?_
    have hkept : (db.removed s).messages.lookup m =
        (db.messages.lookup m).filter fun _ => (db.deleteSessionRow s).listed m :=
      Table.lookup_filter _ db.messages m
    rw [hkept, hlisted m hm]
    cases db.messages.lookup m with
    | none => rfl
    | some row => rfl

/-! ### Rows that keep their revisions -/

theorem Listed.congr {db db' : Tables U J} (h : db.Listed)
    (hrows : ∀ s row, db'.sessions.lookup s = some row →
      ∃ old, db.sessions.lookup s = some old ∧ old.revision = row.revision)
    (hmem : ∀ s, s ∈ db.sessions → s ∈ db'.sessions) (hentries : db'.entries = db.entries)
    (hmessages : db'.messages = db.messages) : db'.Listed where
  ordinals := by
    intro s row hs
    obtain ⟨old, hold, hrevision⟩ := hrows s row hs
    rw [entriesOf, hentries, ← hrevision]
    exact h.ordinals s old hold
  session := by
    intro e he
    rw [hentries] at he
    exact hmem e.sessionId (h.session e he)
  chain := by
    intro s
    rw [history, entriesOf, hentries, hmessages]
    exact h.chain s

end Tables

end TyloQuant.SessionStore
