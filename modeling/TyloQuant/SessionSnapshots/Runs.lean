import TyloQuant.SessionSnapshots.Operations

/-!
# The snapshot cache over whole runs

From an empty cache under any limits, every sequence of operations keeps the invariant; and what
`find_best` returns is a longest stored prefix, however the map is walked.
-/

namespace TyloQuant.SessionSnapshots

open Lib Cache List

variable {D : Type}

/-! ### Operations -/

/-- One call of the cache. -/
inductive Operation (D : Type) where
  | store (it : Iteration D) (session : String) (state : State D)
      (same : State D → State D → Bool)
  | fork (it : Iteration D) (source target : String)
  | close (session : String)
  | erase (session : String) (index : Nat)
  | recordHit (session : String) (index : Nat) (current : Bool)
  | trim (it : Iteration D) (targetBytes : Nat)
  | setLimit (it : Iteration D) (maxBytes : Nat)
  | clear

/-- The cache after a call; `none` when `store` throws.  A stale `record_hit` throws before it
    changes anything. -/
def step (c : Cache D) : Operation D → Option (Cache D)
  | .store it session state same => (store it c session state same).toOption.map Prod.fst
  | .fork it source target => some (fork it c source target).1
  | .close session => some (c.close session).1
  | .erase session index => some (c.eraseSnapshot session index)
  | .recordHit session index current =>
    some ((recordHit c session index current).toOption.getD c)
  | .trim it targetBytes => some (trim it c targetBytes).1
  | .setLimit it maxBytes => some (setLimit it c maxBytes).1
  | .clear => some c.clear

variable {c : Cache D}

/-- **The step lemma.** -/
theorem sound_step (hc : c.Sound) (op : Operation D) :
    ∃ c', step c op = some c' ∧ c'.Sound ∧ SameConfig c c' := by
  cases op with
  | store it session state same =>
    obtain ⟨d, result, hstore, hd, hconfig, -⟩ := store_spec it hc session state same
    exact ⟨d, by simp [step, hstore, Except.toOption], hd, hconfig⟩
  | fork it source target =>
    obtain ⟨hsound, hconfig, -⟩ := fork_spec it hc source target
    exact ⟨_, rfl, hsound, hconfig⟩
  | close session =>
    obtain ⟨⟨gone, hremoval⟩, -⟩ := close_spec hc session
    exact ⟨_, rfl, hremoval.sound hc, hremoval.sameConfig⟩
  | erase session index =>
    obtain ⟨gone, hremoval⟩ := eraseSnapshot_spec hc session index
    exact ⟨_, rfl, hremoval.sound hc, hremoval.sameConfig⟩
  | recordHit session index current =>
    refine ⟨_, rfl, ?_⟩
    cases hhit : recordHit c session index current with
    | error message => exact ⟨hc, rfl, rfl⟩
    | ok d => exact recordHit_sound hc hhit
  | trim it targetBytes =>
    exact ⟨_, rfl, trim_sound it hc.stocked hc.within.histories targetBytes⟩
  | setLimit it maxBytes => exact ⟨_, rfl, setLimit_sound it hc maxBytes⟩
  | clear => exact ⟨_, rfl, empty_sound _ _ _ _, rfl, rfl⟩

/-- **The run lemma.** -/
theorem sound_run (hc : c.Sound) (ops : List (Operation D)) :
    ∃ c', run step c ops = some c' ∧ c'.Sound ∧ SameConfig c c' := by
  induction ops generalizing c with
  | nil => exact ⟨c, rfl, hc, rfl, rfl⟩
  | cons op ops ih =>
    obtain ⟨d, hstep, hd, hconfig⟩ := sound_step hc op
    obtain ⟨c', hrun, hc', hconfig'⟩ := ih hd
    refine ⟨c', run_cons.mpr ⟨d, hstep, hrun⟩, hc', ?_⟩
    exact ⟨hconfig'.1.trans hconfig.1, hconfig'.2.trans hconfig.2⟩

/-! ### Matching -/

/-- The snapshot that a match names may be selected, and has this many tokens. -/
def Candidate (c : Cache D) (prompt : List Int) (maximumPrefixTokens : Nat)
    (eligible : State D → Bool) (session : String) (snapshot tokens : Nat) : Prop :=
  ∃ history e, c.states.lookup session = some history ∧ history[snapshot]? = some e ∧
    matching prompt maximumPrefixTokens eligible e.state = true ∧ e.state.tokens.length = tokens

/-- What the selection is after part of a walk. -/
structure Selects (requested : String) (prompt : List Int) (maximumPrefixTokens : Nat)
    (eligible : State D → Bool) (seen : List (String × Nat × Entry D)) (best : Selection) :
    Prop where
  empty : best.session = "" → best.tokens = 0
  member : best.session ≠ "" → ∃ e, (best.session, best.snapshot, e) ∈ seen ∧
    matching prompt maximumPrefixTokens eligible e.state = true ∧
    e.state.tokens.length = best.tokens
  longest : ∀ x ∈ seen, matching prompt maximumPrefixTokens eligible x.2.2.state = true →
    x.2.2.state.tokens.length ≤ best.tokens ∧
      (x.2.2.state.tokens.length = best.tokens → x.1 = requested → best.session = requested)

variable {prompt : List Int} {maximumPrefixTokens : Nat} {eligible : State D → Bool}

theorem matching_pos {state : State D}
    (h : matching prompt maximumPrefixTokens eligible state = true) :
    0 < state.tokens.length := by
  simp only [matching, Bool.and_eq_true] at h
  obtain ⟨⟨⟨⟨hne, -⟩, -⟩, -⟩, -⟩ := h
  apply length_pos_of_ne_nil
  simpa using hne

variable {requested : String} {best : Selection}

theorem selects_step {seen : List (String × Nat × Entry D)} {x : String × Nat × Entry D}
    (hx : x.1 ≠ "") (h : Selects requested prompt maximumPrefixTokens eligible seen best) :
    Selects requested prompt maximumPrefixTokens eligible (seen ++ [x])
      (select requested prompt maximumPrefixTokens eligible best x) := by
  unfold select
  dsimp only
  split
  · -- The snapshot is too short, or does not match.
    rename_i hskip
    refine ⟨h.empty, ?_, ?_⟩
    · intro hsome
      obtain ⟨e, he, hmatching⟩ := h.member hsome
      exact ⟨e, mem_append_left _ he, hmatching⟩
    · intro y hy hmatching
      rcases mem_append.mp hy with hy | hy
      · exact h.longest y hy hmatching
      · obtain rfl := mem_singleton.mp hy
        rcases hskip with hshort | hno
        · constructor
          · omega
          · intro heq
            omega
        · rw [hno] at hmatching
          cases hmatching
  · rename_i hskip
    simp only [not_or, not_lt, Bool.not_eq_false] at hskip
    obtain ⟨hlong, hmatches⟩ := hskip
    split
    · -- It is selected.
      rename_i htake
      refine ⟨fun hempty => absurd hempty hx, ?_, ?_⟩
      · intro _
        exact ⟨x.2.2, mem_append_right _ mem_cons_self, hmatches, rfl⟩
      · intro y hy hmatching
        rcases mem_append.mp hy with hy | hy
        · obtain ⟨hle, htie⟩ := h.longest y hy hmatching
          constructor
          · exact hle.trans hlong
          · intro heq hrequested
            rcases htake with hmore | ⟨hsame, hsession, -⟩
            · dsimp only at heq
              omega
            · exact hsession
        · obtain rfl := mem_singleton.mp hy
          exact ⟨le_rfl, fun _ hrequested => hrequested⟩
    · -- The one selected before is as long, and is kept.
      rename_i hkeep
      simp only [not_or, not_lt, not_and, not_not] at hkeep
      obtain ⟨hle, htie⟩ := hkeep
      have hsame : x.2.2.state.tokens.length = best.tokens := le_antisymm hle hlong
      refine ⟨h.empty, ?_, ?_⟩
      · intro hsome
        obtain ⟨e, he, hmatching⟩ := h.member hsome
        exact ⟨e, mem_append_left _ he, hmatching⟩
      · intro y hy hmatching
        rcases mem_append.mp hy with hy | hy
        · exact h.longest y hy hmatching
        · obtain rfl := mem_singleton.mp hy
          exact ⟨hle, fun _ hrequested => htie hsame hrequested⟩

theorem selects_foldl (xs seen : List (String × Nat × Entry D)) (hnamed : ∀ x ∈ xs, x.1 ≠ "")
    (h : Selects requested prompt maximumPrefixTokens eligible seen best) :
    Selects requested prompt maximumPrefixTokens eligible (seen ++ xs)
      (xs.foldl (select requested prompt maximumPrefixTokens eligible) best) := by
  induction xs generalizing seen best with
  | nil => simpa using h
  | cons x xs ih =>
    rw [foldl_cons]
    have hrest := ih (seen ++ [x]) (fun y hy => hnamed y (mem_cons_of_mem x hy))
      (selects_step (hnamed x mem_cons_self) h)
    rwa [List.append_assoc] at hrest

/-- **`find_best`** on an enabled cache, for a session with a name. -/
theorem findBest_spec (it : Iteration D) (hc : c.Sound) (hrequested : requested ≠ "")
    (henabled : c.enabled = true) (prompt : List Int) (maximumPrefixTokens : Nat)
    (eligible : State D → Bool) :
    match findBest it c requested prompt maximumPrefixTokens eligible with
    | none => ∀ session snapshot tokens,
        ¬Candidate c prompt maximumPrefixTokens eligible session snapshot tokens
    | some (session, snapshot) => ∃ tokens,
        Candidate c prompt maximumPrefixTokens eligible session snapshot tokens ∧
        (∀ session' snapshot' tokens',
          Candidate c prompt maximumPrefixTokens eligible session' snapshot' tokens' →
            tokens' ≤ tokens) ∧
        ((∃ snapshot', Candidate c prompt maximumPrefixTokens eligible requested snapshot'
            tokens) → session = requested) := by
  have hnamed : ∀ x ∈ walk it c.states, x.1 ≠ "" := by
    rintro ⟨s, i, e⟩ hx hempty
    obtain ⟨h, hs, -⟩ := mem_walk.mp hx
    obtain rfl : s = "" := hempty
    exact hc.stocked.named (Table.mem_of_lookup hs)
  have hstart : Selects requested prompt maximumPrefixTokens eligible ([] : List _)
      ({} : Selection) :=
    ⟨fun _ => rfl, fun h => absurd rfl h, by simp⟩
  have hend := selects_foldl (walk it c.states) [] hnamed hstart
  rw [List.nil_append] at hend
  have hwalked : ∀ session snapshot tokens,
      Candidate c prompt maximumPrefixTokens eligible session snapshot tokens →
      ∃ e, (session, snapshot, e) ∈ walk it c.states ∧
        matching prompt maximumPrefixTokens eligible e.state = true ∧
        e.state.tokens.length = tokens := by
    rintro session snapshot tokens ⟨history, e, hs, he, hmatching, hlength⟩
    exact ⟨e, mem_walk.mpr ⟨history, hs, he⟩, hmatching, hlength⟩
  unfold findBest
  rw [if_neg (by simp [hrequested, henabled])]
  dsimp only
  generalize (walk it c.states).foldl (select requested prompt maximumPrefixTokens eligible) {} =
    best at hend
  by_cases hempty : best.session = ""
  · rw [if_pos hempty]
    intro session snapshot tokens hcandidate
    obtain ⟨e, he, hmatching, -⟩ := hwalked _ _ _ hcandidate
    have hle := (hend.longest _ he hmatching).1
    have hpos := matching_pos hmatching
    rw [hend.empty hempty] at hle
    dsimp only at hle
    omega
  · rw [if_neg hempty]
    obtain ⟨e, he, hmatching, hlength⟩ := hend.member hempty
    obtain ⟨history, hs, hget⟩ := mem_walk.mp he
    refine ⟨best.tokens, ⟨history, e, hs, hget, hmatching, hlength⟩, ?_, ?_⟩
    · intro session' snapshot' tokens' hcandidate
      obtain ⟨e', he', hmatching', rfl⟩ := hwalked _ _ _ hcandidate
      exact (hend.longest _ he' hmatching').1
    · rintro ⟨snapshot', hcandidate⟩
      obtain ⟨e', he', hmatching', hlength'⟩ := hwalked _ _ _ hcandidate
      exact (hend.longest _ he' hmatching').2 hlength' rfl

/-! ### The cache -/

/-- A cache just constructed. -/
def initial (D : Type) (maxSessions maxSnapshotsPerSession maxBytes : Nat) : Cache D :=
  { maxSessions := maxSessions, maxSnapshotsPerSession := maxSnapshotsPerSession,
    maxBytes := maxBytes }

/-- **The snapshot cache.**  Under any limits and after any operations: the byte counter is exact
    and within the limit, sessions and histories are within theirs, no history is empty, and no
    two snapshots have the same stamp.  A next `store` does not throw; the newest snapshot of a
    `store` or a `fork` survives; and `find_best` returns a longest match, of the requested
    session where it has one. -/
theorem snapshot_cache_sound (maxSessions maxSnapshotsPerSession maxBytes : Nat)
    (ops : List (Operation D)) :
    ∃ c, run step (initial D maxSessions maxSnapshotsPerSession maxBytes) ops = some c ∧
      c.bytes = totalBytes c.snapshots ∧ c.bytes ≤ c.maxBytes ∧
      c.states.keys.length ≤ maxSessions ∧
      (∀ s h, c.states.lookup s = some h → 1 ≤ h.length ∧ h.length ≤ maxSnapshotsPerSession) ∧
      (stamps c.snapshots).Nodup ∧
      (∀ it session state same, ∃ c' result, store it c session state same = .ok (c', result) ∧
        (result = none → session = "" ∨ c.enabled = false ∨ state.bytes > c.maxBytes) ∧
        ∀ r, result = some r → r.state = state ∧ c'.Has session (c.clock + 1)) ∧
      (∀ it source target, ¬(source = "" ∨ target = "" ∨ source = target ∨ c.enabled = false) →
        ∀ copied, c.states.lookup source = some copied →
          (fork it c source target).1.Has target (c.clock + copied.length)) ∧
      ∀ it requested prompt maximumPrefixTokens eligible,
        if requested = "" ∨ c.enabled = false then
          findBest it c requested prompt maximumPrefixTokens eligible = none
        else match findBest it c requested prompt maximumPrefixTokens eligible with
          | none => ∀ session snapshot tokens,
              ¬Candidate c prompt maximumPrefixTokens eligible session snapshot tokens
          | some (session, snapshot) => ∃ tokens,
              Candidate c prompt maximumPrefixTokens eligible session snapshot tokens ∧
              (∀ session' snapshot' tokens',
                Candidate c prompt maximumPrefixTokens eligible session' snapshot' tokens' →
                  tokens' ≤ tokens) ∧
              ((∃ snapshot', Candidate c prompt maximumPrefixTokens eligible requested snapshot'
                  tokens) → session = requested) := by
  obtain ⟨c, hrun, hc, hconfig⟩ := sound_run
    (empty_sound (D := D) maxSessions maxSnapshotsPerSession maxBytes 0) ops
  refine ⟨c, hrun, hc.stocked.bytes, hc.within.bytes, ?_, ?_, hc.stocked.distinct, ?_, ?_, ?_⟩
  · exact hc.within.sessions.trans hconfig.1.le
  · intro s h hs
    constructor
    · exact length_pos_of_ne_nil (hc.stocked.nonempty s h hs)
    · exact (hc.within.histories s h hs).trans hconfig.2.le
  · intro it session state same
    obtain ⟨c', result, hstore, -, -, hnewest⟩ := store_spec it hc session state same
    exact ⟨c', result, hstore, hnewest⟩
  · intro it source target
    exact (fork_spec it hc source target).2.2
  · intro it requested prompt maximumPrefixTokens eligible
    split
    · rename_i hskip
      unfold findBest
      rw [if_pos hskip]
    · rename_i hask
      simp only [not_or, Bool.not_eq_false] at hask
      exact findBest_spec it hc hask.1 hask.2 prompt maximumPrefixTokens eligible

/-- Without a session to ask for, nothing is found, though a strict prefix is stored. -/
theorem findBest_unnamed :
    ∃ c : Cache Unit, run step (initial Unit 4 4 100)
        [.store (Iteration.plain Unit) "a" ⟨[1], 10, ()⟩ fun _ _ => false] = some c ∧
      findBest (Iteration.plain Unit) c "" [1, 2] 8 (fun _ => true) = none ∧
      Candidate c [1, 2] 8 (fun _ => true) "a" 0 1 := by
  have hrun : (run step (initial Unit 4 4 100)
      [.store (Iteration.plain Unit) "a" ⟨[1], 10, ()⟩ fun _ _ => false]).map
        (fun c => c.states.lookup "a") = some (some [⟨⟨[1], 10, ()⟩, 1⟩]) := by
    decide
  obtain ⟨c, hc, hlookup⟩ := Option.map_eq_some_iff.mp hrun
  refine ⟨c, hc, rfl, ?_⟩
  exact ⟨_, _, hlookup, rfl, by decide, rfl⟩

end TyloQuant.SessionSnapshots
