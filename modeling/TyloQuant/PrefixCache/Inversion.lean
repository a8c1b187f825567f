import TyloQuant.PrefixCache.Housekeeping

/-!
# What each action does

One inversion lemma for each action whose transition has a guard: from
`step s a = some s'` it gives the guard and the successor state, so that no invariant proof
has to unfold `step`.
-/

namespace TyloQuant.PrefixCache

open Lib

variable {H : Type} [DecidableEq H] {s s' : System H} {call : Nat}

theorem step_store {args : StoreArgs H} {env : Env H}
    (h : step s (.store call args env) = some s') :
    storeReady s.cache args = true ∧ WriterId.inline call ∉ s.writers ∧
      s' = { s with cache := (storeLocked env s.cache args).1 }.addWriter (.inline call)
        (storeLocked env s.cache args).2 := by
  simp only [step] at h
  split at h
  · rename_i hguard
    exact ⟨hguard.1, hguard.2, (Option.some.inj h).symm⟩
  · cases h

theorem step_writerTick {env : Env H} (h : step s (.writerTick env) = some s') :
    WriterId.thread ∉ s.writers ∧
      s' = { s with cache := (writerLoopHead env s.cache).1 }.addWriter .thread
        (writerLoopHead env s.cache).2 := by
  simp only [step] at h
  split at h
  · cases h
  · rename_i hguard
    exact ⟨hguard, (Option.some.inj h).symm⟩

variable {writer : WriterId}

theorem step_publish {outcome : WriteOutcome} (h : step s (.publish writer outcome) = some s') :
    ∃ w, s.writers.lookup writer = some ⟨w, .unwritten⟩ ∧
      s' = { s with
        cache := { s.cache with files := (writeFile s.cache.files w outcome).1 }
        writers := s.writers.insert writer
          ⟨w, .published (writeFile s.cache.files w outcome).2⟩ } := by
  simp only [step] at h
  split at h
  · rename_i w hw
    exact ⟨w, hw, (Option.some.inj h).symm⟩
  · cases h

theorem step_finish {env : Env H} (h : step s (.finish writer env) = some s') :
    ∃ w success, s.writers.lookup writer = some ⟨w, .published success⟩ ∧
      s' = { s with
        cache := finishWrite env s.cache w success
        writers := s.writers.insert writer ⟨w, .finished⟩ } := by
  simp only [step] at h
  split at h
  · rename_i w success hw
    exact ⟨w, success, hw, (Option.some.inj h).symm⟩
  · cases h

theorem step_retire (h : step s (.retire writer) = some s') :
    ∃ w, s.writers.lookup writer = some ⟨w, .finished⟩ ∧
      s' = { s with
        cache := { s.cache with activeWrites := s.cache.activeWrites - 1 }
        writers := s.writers.erase writer } := by
  simp only [step] at h
  split at h
  · rename_i w hw
    exact ⟨w, hw, (Option.some.inj h).symm⟩
  · cases h

theorem step_loadBegin {blocks : List H} (h : step s (.loadBegin call blocks) = some s') :
    call ∉ s.loads ∧ call ∉ s.returned ∧
      s' = { s with
        cache := (leaseLocked s.cache blocks).1
        loads := s.loads.insert call ⟨s.cache.cacheEpoch, (leaseLocked s.cache blocks).2⟩ } := by
  simp only [step] at h
  split at h
  · cases h
  · rename_i hguard
    rw [not_or] at hguard
    exact ⟨hguard.1, hguard.2, (Option.some.inj h).symm⟩

theorem step_loadRead {index : Nat} {readable : Bool}
    (h : step s (.loadRead call index readable) = some s') :
    ∃ load requests, s.loads.lookup call = some load ∧
      readRequest s.cache.files readable index load.requests = some requests ∧
      s' = { s with loads := s.loads.insert call { load with requests := requests } } := by
  simp only [step] at h
  split at h
  · cases h
  · rename_i load hload
    split at h
    · cases h
    · rename_i requests hread
      exact ⟨load, requests, hload, hread, (Option.some.inj h).symm⟩

theorem step_loadFinish {env : Env H} (h : step s (.loadFinish call env) = some s') :
    ∃ load, s.loads.lookup call = some load ∧ readsDone load.requests = true ∧
      s' = { s with
        cache := (finishLoad env s.cache load).1
        loads := s.loads.erase call
        returned := s.returned.insert call (finishLoad env s.cache load).2 } := by
  simp only [step] at h
  split at h
  · cases h
  · rename_i load hload
    split at h
    · rename_i hdone
      exact ⟨load, hload, hdone, (Option.some.inj h).symm⟩
    · cases h

theorem step_loadAbort {env : Env H} (h : step s (.loadAbort call env) = some s') :
    ∃ load, s.loads.lookup call = some load ∧
      s' = { s with
        cache := abortLoad env s.cache load
        loads := s.loads.erase call
        returned := s.returned.insert call [] } := by
  simp only [step] at h
  split at h
  · cases h
  · rename_i load hload
    exact ⟨load, hload, (Option.some.inj h).symm⟩

theorem step_invalidate {block : H} {env : Env H}
    (h : step s (.invalidate block env) = some s') :
    block ∉ s.cache.pending ∧
      s' = { s with cache := (eraseCorruptLocked env s.cache block).1 } := by
  simp only [step] at h
  split at h
  · cases h
  · rename_i hguard
    exact ⟨hguard, (Option.some.inj h).symm⟩

theorem step_refreshDiskIndex {env : Env H} (h : step s (.refreshDiskIndex env) = some s') :
    s.cache.writes = [] ∧ s.cache.activeWrites = 0 ∧
      s' = { s with cache := refreshDiskIndex env s.cache } := by
  simp only [step] at h
  split at h
  · rename_i hguard
    exact ⟨hguard.1, hguard.2, (Option.some.inj h).symm⟩
  · cases h

theorem step_clearBegin {env : Env H} (h : step s (.clearBegin env) = some s') :
    s.cache.clearing = false ∧ s' = { s with cache := clearBegin env s.cache } := by
  simp only [step] at h
  split at h
  · cases h
  · rename_i hguard
    exact ⟨by simpa using hguard, (Option.some.inj h).symm⟩

theorem step_clearEnd (h : step s .clearEnd = some s') :
    s.cache.clearing = true ∧ s.cache.activeWrites = 0 ∧
      s' = { s with cache := { s.cache with clearing := false } } := by
  simp only [step] at h
  split at h
  · rename_i hguard
    exact ⟨hguard.1, hguard.2, (Option.some.inj h).symm⟩
  · cases h

theorem step_matchBegin {tokens : List Int} {extraKey : String}
    (h : step s (.matchBegin call tokens extraKey) = some s') :
    call ∉ s.matching ∧
      s' = { s with
        matching := s.matching.insert call
          { tokens := tokens, extraKey := extraKey, parent := s.cache.config.root } } := by
  simp only [step] at h
  split at h
  · cases h
  · rename_i hguard
    exact ⟨hguard, (Option.some.inj h).symm⟩

theorem step_matchStep {env : Env H} (h : step s (.matchStep call env) = some s') :
    ∃ m, s.matching.lookup call = some m ∧
      s' = { s with
        cache := (advanceMatch env s.cache m).1
        matching := s.matching.insert call (advanceMatch env s.cache m).2 } := by
  simp only [step] at h
  split at h
  · cases h
  · rename_i m hm
    exact ⟨m, hm, (Option.some.inj h).symm⟩

section

omit [DecidableEq H]

@[simp] theorem addWriter_cache (s : System H) (id : WriterId) (w : Option (WriteRequest H)) :
    (s.addWriter id w).cache = s.cache := by
  cases w <;> rfl

@[simp] theorem addWriter_loads (s : System H) (id : WriterId) (w : Option (WriteRequest H)) :
    (s.addWriter id w).loads = s.loads := by
  cases w <;> rfl

@[simp] theorem addWriter_writers (s : System H) (c : Cache H) (id : WriterId)
    (w : Option (WriteRequest H)) :
    ({ s with cache := c }.addWriter id w).writers = (s.addWriter id w).writers := by
  cases w <;> rfl

@[simp] theorem addWriter_matching (s : System H) (id : WriterId)
    (w : Option (WriteRequest H)) : (s.addWriter id w).matching = s.matching := by
  cases w <;> rfl

@[simp] theorem addWriter_returned (s : System H) (id : WriterId)
    (w : Option (WriteRequest H)) : (s.addWriter id w).returned = s.returned := by
  cases w <;> rfl

end

/-! ### Matching -/

/-- A step of `match` leaves the cache as it is, or erases the one block whose entry
    contradicts the tokens. -/
theorem advanceMatch_cache (env : Env H) (c : Cache H) (m : MatchCall H) :
    (advanceMatch env c m).1 = c ∨ ∃ h, matchErases c m = some h ∧
        (advanceMatch env c m).1 = (eraseCorruptLocked env c h).1 := by
  have hcheck : ∀ h count, (checkBlock env c h m.parent count).1 = c ∨
      (checkErases c h m.parent count = some h ∧
        (checkBlock env c h m.parent count).1 = (eraseCorruptLocked env c h).1) := by
    intro h count
    unfold checkBlock checkErases
    cases c.disk.lookup h with
    | none => exact Or.inl rfl
    | some e =>
      dsimp only
      split
      · exact Or.inr ⟨rfl, rfl⟩
      · exact Or.inl rfl
  unfold advanceMatch matchErases
  cases hphase : m.phase with
  | full =>
    dsimp only
    split
    · exact Or.inl rfl
    · rcases hcheck (c.config.blockHash m.parent
          ((m.tokens.drop m.matchedTokens).take c.config.blockSizeTokens) m.extraKey)
          c.config.blockSizeTokens with hsame | ⟨hblock, herase⟩
      · refine Or.inl ?_
        split <;> exact hsame
      · refine Or.inr ⟨_, hblock, ?_⟩
        split <;> exact herase
  | lookup => exact Or.inl rfl
  | tails lengths =>
    cases lengths with
    | nil => exact Or.inl rfl
    | cons count rest =>
      dsimp only
      rcases hcheck (c.config.blockHash m.parent
          ((m.tokens.drop m.matchedTokens).take count) m.extraKey) count with
        hsame | ⟨hblock, herase⟩
      · refine Or.inl ?_
        split <;> exact hsame
      · refine Or.inr ⟨_, hblock, ?_⟩
        split <;> exact herase
  | done => exact Or.inl rfl

/-! ### Pins and leases -/

/-- Counting a pin, of a session or of an entry, keeps `P`. -/
structure Pins (P : Cache H → Prop) : Prop where
  pins : ∀ {c : Cache H} (pins : Table H Nat), P c → P { c with pins := pins }
  entry : ∀ {c : Cache H} {h : H} {e : DiskEntry H} (n : Nat), P c → c.disk.lookup h = some e →
    P { c with disk := c.disk.insert h { e with pins := n } }

namespace Pins

variable {P : Cache H → Prop} {c : Cache H}

theorem leaseLocked (hP : Pins P) (blocks : List H) (hc : P c) : P (leaseLocked c blocks).1 := by
  induction blocks generalizing c with
  | nil => exact hc
  | cons h rest ih =>
    unfold PrefixCache.leaseLocked
    split
    · exact ih hc
    · split
      · exact ih hc
      · split
        · rename_i e he
          exact ih (hP.entry _ hc he)
        · exact hc

theorem releaseLease (hP : Pins P) (h : H) (hc : P c) : P (releaseLease c h) := by
  unfold PrefixCache.releaseLease
  split
  · exact hc
  · rename_i e he
    exact hP.entry _ hc he

theorem releaseLeases (hP : Pins P) (blocks : List H) (hc : P c) :
    P (blocks.foldl PrefixCache.releaseLease c) :=
  List.foldlRecOn blocks _ hc fun _ hc h _ => hP.releaseLease h hc

theorem pinBlocks (hP : Pins P) (blocks : List H) (hc : P c) : P (blocks.foldl pinBlock c) := by
  refine List.foldlRecOn blocks _ hc fun c hc h _ => ?_
  have hp : P { c with pins := c.pins.insert h (c.pinsOf h + 1) } := hP.pins _ hc
  unfold pinBlock
  dsimp only
  split
  · exact hp
  · rename_i e he
    exact hP.entry _ hp he

theorem unpinBlocks (hP : Pins P) (blocks : List H) (hc : P c) : P (blocks.foldl unpinBlock c) := by
  refine List.foldlRecOn blocks _ hc fun c hc h _ => ?_
  unfold unpinBlock
  refine hP.releaseLease h ?_
  split
  · exact hc
  · exact hP.pins _ hc

end Pins

/-! ### What no locked section changes -/

/-- The configuration, the epoch, the clearing flag and the active writers agree. -/
structure Steady (c c' : Cache H) : Prop where
  config : c'.config = c.config
  epoch : c'.cacheEpoch = c.cacheEpoch
  clearing : c'.clearing = c.clearing
  active : c'.activeWrites = c.activeWrites

omit [DecidableEq H] in
theorem SameControl.steady {c c' : Cache H} (h : SameControl c c') : Steady c c' :=
  ⟨h.config, h.epoch, h.clearing, h.active⟩

namespace Steady

variable {c c' c'' : Cache H}

omit [DecidableEq H] in
theorem refl (c : Cache H) : Steady c c := ⟨rfl, rfl, rfl, rfl⟩

omit [DecidableEq H] in
theorem trans (h : Steady c c') (h' : Steady c' c'') : Steady c c'' :=
  ⟨h'.config.trans h.config, h'.epoch.trans h.epoch, h'.clearing.trans h.clearing,
    h'.active.trans h.active⟩

theorem trimming (ht : Trimming c c') : Steady c c' := (SameControl.trimming ht).steady

theorem housekeeping {env : Env H} (ht : Housekeeping env c c') : Steady c c' :=
  (SameControl.housekeeping ht).steady

theorem enforceBudget (env : Env H) (reserved : Nat) (c : Cache H) :
    Steady c (enforceBudget env reserved c) :=
  (SameControl.enforcing (Enforcing.enforceBudget env reserved c)).steady

/-- A `store` that is left to write inline has counted itself as an active writer. -/
theorem storeLocked (env : Env H) (c : Cache H) (a : StoreArgs H) :
    Steady { c with activeWrites := c.activeWrites + (storeLocked env c a).2.toList.length }
      (storeLocked env c a).1 := by
  have hput : ∀ d : Cache H, ∀ h p, Steady d (putHotLocked d h p) :=
    fun d h p => (SameControl.putHotLocked d h p).steady
  have hschedule := trimming (Trimming.schedule c (a.hash c.config) a.parent a.tokens a.extraKey)
  unfold PrefixCache.storeLocked
  dsimp only
  generalize scheduleTailCleanupLocked c (a.hash c.config) a.parent a.tokens a.extraKey = c₁ at *
  have hdeferred : Steady c₁ (storeDeferred env c₁ a) := by
    have hdefer : Steady c₁
        { c₁ with deferred := c₁.deferred.insert (a.hash c₁.config) (a.request c₁) } :=
      ⟨rfl, rfl, rfl, rfl⟩
    exact (((hdefer.trans (hput _ _ _)).trans (trimming (Trimming.remember _ _ _ _))).trans
      (housekeeping (Housekeeping.pruneTailCleanup _))).trans
      (trimming (Trimming.ramPressure env _))
  have hdrop : Steady c₁ (dropDeferred c₁ (a.hash c.config)) := ⟨rfl, rfl, rfl, rfl⟩
  split
  · exact refl c
  · split
    · split
      · split
        · exact hschedule.trans ⟨rfl, rfl, rfl, rfl⟩
        · exact hschedule.trans hdeferred
      · exact hschedule.trans hdeferred
    · split
      · split
        · exact hschedule.trans hdrop
        · refine (hschedule.trans hdrop).trans ?_
          refine .trans ?_ (housekeeping (Housekeeping.pruneTailCleanup _))
          split
          · exact (hput _ _ _).trans (trimming (Trimming.remember _ _ _ _))
          · exact hput _ _ _
      · have hc₂ := hschedule.trans hdrop
        generalize dropDeferred c₁ (a.hash c.config) = c₂ at *
        have hwrite : Steady c (putHotLocked (PrefixCache.enforceBudget env
            (reservedBytes c₂ a.payload.length) c₂) (a.hash c₂.config) a.payload) :=
          hc₂.trans ((enforceBudget env _ c₂).trans (hput _ _ _))
        unfold storeWrite
        dsimp only
        generalize putHotLocked (PrefixCache.enforceBudget env
          (reservedBytes c₂ a.payload.length) c₂) (a.hash c₂.config) a.payload = c₃ at *
        have hadd : Steady c₃ (addPending c₃ (a.request c₃)) := ⟨rfl, rfl, rfl, rfl⟩
        split
        · have hrem := (hwrite.trans hadd).trans
            (trimming (Trimming.remember _ (a.hash c₂.config) a.parent a.tokens.length))
          exact ⟨hrem.config, hrem.epoch, hrem.clearing, congrArg (· + 1) hrem.active⟩
        · have hqueue : Steady c₃
              { addPending c₃ (a.request c₃) with writes := c₃.writes ++ [a.request c₃] } :=
            ⟨rfl, rfl, rfl, rfl⟩
          exact (hwrite.trans hqueue).trans (trimming (Trimming.remember _ _ _ _))

theorem registerFile (c : Cache H) (w : WriteRequest H) (file : Payload) :
    Steady c (registerFile c w file) := by
  unfold PrefixCache.registerFile
  dsimp only
  rw [dropDisk_eq]
  exact ⟨rfl, rfl, rfl, rfl⟩

theorem finishWrite (env : Env H) (c : Cache H) (w : WriteRequest H) (success : Bool) :
    Steady c (finishWrite env c w success) := by
  unfold PrefixCache.finishWrite
  refine .trans ?_ (housekeeping (Housekeeping.pruneTailCleanup _))
  refine .trans ?_ (trimming (Trimming.forget _ _))
  refine (SameControl.settlePending c w.hash).steady.trans ?_
  generalize settlePending c w.hash = c₁
  have htext : Steady c₁ (writeText env c₁ w) := by
    unfold writeText
    split <;> exact ⟨rfl, rfl, rfl, rfl⟩
  unfold settleFile
  split
  · dsimp only
    split
    · split
      · exact htext
      · exact (htext.trans (registerFile _ w _)).trans (enforceBudget env 0 _)
    · exact htext
  · split
    · exact refl c₁
    · exact ⟨rfl, rfl, rfl, rfl⟩

/-- A request taken from the queue counts as an active writer. -/
theorem writerLoopHead (env : Env H) (c : Cache H) :
    Steady { c with activeWrites := c.activeWrites + (writerLoopHead env c).2.toList.length }
      (writerLoopHead env c).1 := by
  have hr : Steady c (if c.clearing then c else trimForRamPressureLocked env c) := by
    split
    · exact refl c
    · exact trimming (Trimming.ramPressure env c)
  unfold PrefixCache.writerLoopHead
  dsimp only
  generalize (if c.clearing then c else trimForRamPressureLocked env c) = c₁ at *
  split
  · have he := (SameControl.enforcing (Enforcing.enforceDiskBudget env 0 1 c₁)).steady
    exact (hr.trans he).trans ⟨rfl, rfl, rfl, rfl⟩
  · split
    · exact hr
    · exact ⟨hr.config, hr.epoch, hr.clearing, congrArg (· + 1) hr.active⟩

theorem pinned (c : Cache H) : Pins (Steady c) where
  pins _ hs := hs.trans ⟨rfl, rfl, rfl, rfl⟩
  entry _ hs _ := hs.trans ⟨rfl, rfl, rfl, rfl⟩

theorem leaseLocked (c : Cache H) (blocks : List H) : Steady c (leaseLocked c blocks).1 :=
  (pinned c).leaseLocked blocks (refl c)

omit [DecidableEq H] in
theorem foldl {α : Type} (f : Cache H → α → Cache H) (hf : ∀ c x, Steady c (f c x))
    (c : Cache H) (xs : List α) : Steady c (xs.foldl f c) :=
  List.foldlRecOn xs f (refl c) fun d hd x _ => hd.trans (hf d x)

theorem releaseDiskReadPins (env : Env H) (c : Cache H) (requests : List (LoadRequest H)) :
    Steady c (releaseDiskReadPinsLocked env c requests) :=
  ((pinned c).releaseLeases _ (refl c)).trans (enforceBudget env 0 _)

theorem dropUnreadable (env : Env H) (c : Cache H) (h : H) : Steady c (dropUnreadable env c h) := by
  unfold PrefixCache.dropUnreadable
  split
  · split
    · exact (SameControl.dropDisk c h).steady.trans (trimming (Trimming.forget _ _))
    · exact refl c
  · exact (SameControl.eraseCorruptLocked env c h).steady

theorem finishRequests (env : Env H) (c : Cache H) (requests : List (LoadRequest H)) :
    Steady c (finishRequests env c requests).1 := by
  induction requests generalizing c with
  | nil => exact refl c
  | cons r rest ih =>
    unfold PrefixCache.finishRequests
    split
    · exact (SameControl.touchHot c r.hash).steady.trans (ih _)
    · exact ih c
    · exact ((SameControl.putHotLocked c r.hash _).trans
        (SameControl.touchDisk _ r.hash)).steady.trans (ih _)
    · exact dropUnreadable env c r.hash

theorem finishLoad (env : Env H) (c : Cache H) (load : LoadCall H) :
    Steady c (finishLoad env c load).1 := by
  unfold PrefixCache.finishLoad
  split
  · exact (finishRequests env c load.requests).trans (releaseDiskReadPins env _ _)
  · exact refl c

theorem abortLoad (env : Env H) (c : Cache H) (load : LoadCall H) :
    Steady c (abortLoad env c load) := by
  unfold PrefixCache.abortLoad
  split
  · exact releaseDiskReadPins env c _
  · exact refl c

theorem refreshEntry (env : Env H) (c : Cache H) (h : H) : Steady c (refreshEntry env c h) := by
  unfold PrefixCache.refreshEntry
  split
  · exact refl c
  · exact ((SameControl.dropDisk c h).trans ((SameControl.dropHot _ h).trans
      (SameControl.dropDeferred _ h))).steady.trans (trimming (Trimming.forget _ _))

theorem advanceMatch (env : Env H) (c : Cache H) (m : MatchCall H) :
    Steady c (advanceMatch env c m).1 := by
  rcases advanceMatch_cache env c m with heq | ⟨h, -, heq⟩
  · rw [heq]
    exact refl c
  · rw [heq]
    exact (SameControl.eraseCorruptLocked env c h).steady

theorem scan (config : Config H) (found : List (FoundBlock H)) :
    Steady { config := config } (found.foldl scanEntry { config := config }) := by
  refine foldl _ (fun c b => ?_) _ found
  unfold scanEntry
  split
  · exact refl c
  · refine .trans ?_ (trimming (Trimming.remember _ _ _ _))
    exact ⟨rfl, rfl, rfl, rfl⟩

theorem openCache (env : Env H) (config : Config H) (found : List (FoundBlock H)) :
    Steady { config := config } (openCache env config found) :=
  (scan config found).trans (enforceBudget env 0 _)

end Steady

/-- The actions that change a limit, the epoch, the clearing flag or the active count. -/
def Action.control : Action H → Bool
  | .store _ _ _ => true
  | .writerTick _ => true
  | .retire _ => true
  | .setHotLimit _ => true
  | .setDiskLimit _ => true
  | .clearBegin _ => true
  | .clearEnd => true
  | _ => false

/-- The actions of a writer, and those that hand it a request. -/
def Action.writing : Action H → Bool
  | .store _ _ _ => true
  | .writerTick _ => true
  | .publish _ _ => true
  | .finish _ _ => true
  | .retire _ => true
  | _ => false

/-- The actions of a `match`. -/
def Action.matches : Action H → Bool
  | .matchBegin _ _ _ => true
  | .matchStep _ _ => true
  | _ => false

/-- The actions of a `load_prefix`. -/
def Action.loading : Action H → Bool
  | .loadBegin _ _ => true
  | .loadRead _ _ _ => true
  | .loadFinish _ _ => true
  | .loadAbort _ _ => true
  | _ => false

/-- The actions that end a `load_prefix`. -/
def Action.returns : Action H → Bool
  | .loadFinish _ _ => true
  | .loadAbort _ _ => true
  | _ => false

variable {a : Action H}

theorem step_quiet (hstep : step s a = some s') (ha : a.control = false) :
    Steady s.cache s'.cache := by
  cases a with
  | publish writer outcome =>
    obtain ⟨w, -, rfl⟩ := step_publish hstep
    exact ⟨rfl, rfl, rfl, rfl⟩
  | finish writer env =>
    obtain ⟨w, success, -, rfl⟩ := step_finish hstep
    exact Steady.finishWrite env s.cache w success
  | loadBegin call blocks =>
    obtain ⟨-, -, rfl⟩ := step_loadBegin hstep
    exact Steady.leaseLocked s.cache blocks
  | loadRead call index readable =>
    obtain ⟨load, requests, -, -, rfl⟩ := step_loadRead hstep
    exact Steady.refl s.cache
  | loadFinish call env =>
    obtain ⟨load, -, -, rfl⟩ := step_loadFinish hstep
    exact Steady.finishLoad env s.cache load
  | loadAbort call env =>
    obtain ⟨load, -, rfl⟩ := step_loadAbort hstep
    exact Steady.abortLoad env s.cache load
  | invalidate block env =>
    obtain ⟨-, rfl⟩ := step_invalidate hstep
    exact (SameControl.eraseCorruptLocked env s.cache block).steady
  | pin blocks =>
    obtain rfl := Option.some.inj hstep
    exact (Steady.pinned s.cache).pinBlocks blocks (Steady.refl _)
  | unpin blocks env =>
    obtain rfl := Option.some.inj hstep
    exact ((Steady.pinned s.cache).unpinBlocks blocks (Steady.refl _)).trans
      (Steady.enforceBudget env 0 _)
  | trimHot targetBytes =>
    obtain rfl := Option.some.inj hstep
    exact Steady.trimming (Trimming.trimHotLocked targetBytes s.cache)
  | refreshDiskIndex env =>
    obtain ⟨-, -, rfl⟩ := step_refreshDiskIndex hstep
    exact Steady.foldl _ (Steady.refreshEntry env) s.cache _
  | matchBegin call tokens extraKey =>
    obtain ⟨-, rfl⟩ := step_matchBegin hstep
    exact Steady.refl s.cache
  | matchStep call env =>
    obtain ⟨m, -, rfl⟩ := step_matchStep hstep
    exact Steady.advanceMatch env s.cache m
  | vanish block withText =>
    obtain rfl := Option.some.inj hstep
    exact ⟨rfl, rfl, rfl, rfl⟩
  | _ => cases ha

/-- Only a limit changes the configuration, only `clear` the epoch and the clearing flag. -/
theorem step_steady (hstep : step s a = some s') (hhot : ∀ n, a ≠ .setHotLimit n)
    (hdisk : ∀ n, a ≠ .setDiskLimit n) (hbegin : ∀ env, a ≠ .clearBegin env)
    (hend : a ≠ .clearEnd) :
    ∃ n, Steady { s.cache with activeWrites := n } s'.cache := by
  cases a with
  | store call args env =>
    obtain ⟨-, -, rfl⟩ := step_store hstep
    rw [addWriter_cache]
    exact ⟨_, Steady.storeLocked env s.cache args⟩
  | writerTick env =>
    obtain ⟨-, rfl⟩ := step_writerTick hstep
    rw [addWriter_cache]
    exact ⟨_, Steady.writerLoopHead env s.cache⟩
  | retire writer =>
    obtain ⟨w, -, rfl⟩ := step_retire hstep
    exact ⟨_, rfl, rfl, rfl, rfl⟩
  | setHotLimit maxBytes => exact absurd rfl (hhot maxBytes)
  | setDiskLimit maxBytes => exact absurd rfl (hdisk maxBytes)
  | clearBegin env => exact absurd rfl (hbegin env)
  | clearEnd => exact absurd rfl hend
  | _ => exact ⟨_, step_quiet hstep rfl⟩

/-- Every call in flight is of one kind, and an action moves calls of one kind only. -/
theorem step_calls (hstep : step s a = some s') :
    (a.writing = false → s'.writers = s.writers) ∧ (a.matches = false → s'.matching = s.matching) ∧
      (a.returns = false → s'.returned = s.returned) ∧
      (a.loading = false → s'.loads = s.loads) := by
  cases a with
  | store call args env =>
    obtain ⟨-, -, rfl⟩ := step_store hstep
    rw [addWriter_matching, addWriter_returned, addWriter_loads]
    exact ⟨fun ha => Bool.noConfusion ha, fun _ => rfl, fun _ => rfl, fun _ => rfl⟩
  | writerTick env =>
    obtain ⟨-, rfl⟩ := step_writerTick hstep
    rw [addWriter_matching, addWriter_returned, addWriter_loads]
    exact ⟨fun ha => Bool.noConfusion ha, fun _ => rfl, fun _ => rfl, fun _ => rfl⟩
  | publish writer outcome =>
    obtain ⟨w, -, rfl⟩ := step_publish hstep
    exact ⟨fun ha => Bool.noConfusion ha, fun _ => rfl, fun _ => rfl, fun _ => rfl⟩
  | finish writer env =>
    obtain ⟨w, success, -, rfl⟩ := step_finish hstep
    exact ⟨fun ha => Bool.noConfusion ha, fun _ => rfl, fun _ => rfl, fun _ => rfl⟩
  | retire writer =>
    obtain ⟨w, -, rfl⟩ := step_retire hstep
    exact ⟨fun ha => Bool.noConfusion ha, fun _ => rfl, fun _ => rfl, fun _ => rfl⟩
  | loadBegin call blocks =>
    obtain ⟨-, -, rfl⟩ := step_loadBegin hstep
    exact ⟨fun _ => rfl, fun _ => rfl, fun _ => rfl, fun ha => Bool.noConfusion ha⟩
  | loadRead call index readable =>
    obtain ⟨load, requests, -, -, rfl⟩ := step_loadRead hstep
    exact ⟨fun _ => rfl, fun _ => rfl, fun _ => rfl, fun ha => Bool.noConfusion ha⟩
  | loadFinish call env =>
    obtain ⟨load, -, -, rfl⟩ := step_loadFinish hstep
    exact ⟨fun _ => rfl, fun _ => rfl, fun ha => Bool.noConfusion ha, fun ha => Bool.noConfusion ha⟩
  | loadAbort call env =>
    obtain ⟨load, -, rfl⟩ := step_loadAbort hstep
    exact ⟨fun _ => rfl, fun _ => rfl, fun ha => Bool.noConfusion ha, fun ha => Bool.noConfusion ha⟩
  | invalidate block env =>
    obtain ⟨-, rfl⟩ := step_invalidate hstep
    exact ⟨fun _ => rfl, fun _ => rfl, fun _ => rfl, fun _ => rfl⟩
  | refreshDiskIndex env =>
    obtain ⟨-, -, rfl⟩ := step_refreshDiskIndex hstep
    exact ⟨fun _ => rfl, fun _ => rfl, fun _ => rfl, fun _ => rfl⟩
  | clearBegin env =>
    obtain ⟨-, rfl⟩ := step_clearBegin hstep
    exact ⟨fun _ => rfl, fun _ => rfl, fun _ => rfl, fun _ => rfl⟩
  | clearEnd =>
    obtain ⟨-, -, rfl⟩ := step_clearEnd hstep
    exact ⟨fun _ => rfl, fun _ => rfl, fun _ => rfl, fun _ => rfl⟩
  | matchBegin call tokens extraKey =>
    obtain ⟨-, rfl⟩ := step_matchBegin hstep
    exact ⟨fun _ => rfl, fun ha => Bool.noConfusion ha, fun _ => rfl, fun _ => rfl⟩
  | matchStep call env =>
    obtain ⟨m, -, rfl⟩ := step_matchStep hstep
    exact ⟨fun _ => rfl, fun ha => Bool.noConfusion ha, fun _ => rfl, fun _ => rfl⟩
  | pin _ | unpin _ _ | trimHot _ | setHotLimit _ | setDiskLimit _ | vanish _ _ =>
    obtain rfl := Option.some.inj hstep
    exact ⟨fun _ => rfl, fun _ => rfl, fun _ => rfl, fun _ => rfl⟩

/-- What no action but `clear` changes, and that no other starts clearing. -/
theorem step_control (hstep : step s a = some s') (hbegin : ∀ env, a ≠ .clearBegin env) :
    s'.cache.cacheEpoch = s.cache.cacheEpoch ∧
      (s'.cache.clearing = true → s.cache.clearing = true) ∧
      s'.cache.config.blockHash = s.cache.config.blockHash := by
  by_cases hsteady : (∃ n, a = .setHotLimit n) ∨ (∃ n, a = .setDiskLimit n) ∨ a = .clearEnd
  · rcases hsteady with ⟨n, rfl⟩ | ⟨n, rfl⟩ | rfl
    · obtain rfl := Option.some.inj hstep
      have htrim := Steady.trimming (Trimming.trimHotLocked n
        { s.cache with config := { s.cache.config with maxHotBytes := n } })
      have hhash := congrArg Config.blockHash htrim.config
      exact ⟨htrim.epoch, htrim.clearing.symm.trans, hhash⟩
    · obtain rfl := Option.some.inj hstep
      unfold setDiskLimit
      dsimp only
      split <;> exact ⟨rfl, id, rfl⟩
    · obtain ⟨-, -, rfl⟩ := step_clearEnd hstep
      exact ⟨rfl, (nomatch ·), rfl⟩
  · simp only [not_or, not_exists] at hsteady
    obtain ⟨n, hsame⟩ := step_steady hstep hsteady.1 hsteady.2.1 hbegin hsteady.2.2
    exact ⟨hsame.epoch, hsame.clearing.symm.trans, congrArg Config.blockHash hsame.config⟩

/-- The epoch only moves in `clear`. -/
theorem step_epoch (hstep : step s a = some s') (hbegin : ∀ env, a ≠ .clearBegin env) :
    s'.cache.cacheEpoch = s.cache.cacheEpoch := (step_control hstep hbegin).1

/-- Only `clear` starts clearing. -/
theorem step_clearing (hstep : step s a = some s') (hbegin : ∀ env, a ≠ .clearBegin env) :
    s'.cache.clearing = true → s.cache.clearing = true := (step_control hstep hbegin).2.1

theorem step_epoch_le (hstep : step s a = some s') : s.cache.cacheEpoch ≤ s'.cache.cacheEpoch := by
  by_cases hclear : ∃ env, a = .clearBegin env
  · obtain ⟨env, rfl⟩ := hclear
    obtain ⟨-, rfl⟩ := step_clearBegin hstep
    exact Nat.le_succ _
  · rw [not_exists] at hclear
    exact (step_epoch hstep hclear).ge

theorem step_blockHash (hstep : step s a = some s') :
    s'.cache.config.blockHash = s.cache.config.blockHash := by
  by_cases hclear : ∃ env, a = .clearBegin env
  · obtain ⟨env, rfl⟩ := hclear
    obtain ⟨-, rfl⟩ := step_clearBegin hstep
    exact congrArg Config.blockHash (Steady.foldl (fun c h => removeText env (removeFile env c h) h)
      (fun _ _ => ⟨rfl, rfl, rfl, rfl⟩) s.cache s.cache.disk.keys).config
  · rw [not_exists] at hclear
    exact (step_control hstep hclear).2.2

/-- A property of the loads in flight that one has when it starts and keeps when it reads. -/
theorem step_loads {Q : LoadCall H → Prop} (hs : ∀ call load, s.loads.lookup call = some load → Q load)
    (hbegin : ∀ blocks, Q ⟨s.cache.cacheEpoch, (leaseLocked s.cache blocks).2⟩)
    (hread : ∀ load readable index requests,
      readRequest s.cache.files readable index load.requests = some requests → Q load →
        Q { load with requests := requests }) (hstep : step s a = some s') :
    ∀ call load, s'.loads.lookup call = some load → Q load := by
  have hinsert : ∀ c d, Q d → ∀ call load, (s.loads.insert c d).lookup call = some load → Q load :=
    fun c d hd => Table.forall_insert hs hd
  have herase : ∀ c call load, (s.loads.erase c).lookup call = some load → Q load :=
    fun c call load hload => hs call load (Table.lookup_of_erase hload)
  obtain ⟨-, -, -, hloads⟩ := step_calls hstep
  cases a with
  | loadBegin call blocks =>
    obtain ⟨-, -, rfl⟩ := step_loadBegin hstep
    exact hinsert call _ (hbegin blocks)
  | loadRead call index readable =>
    obtain ⟨load, requests, hload, hrequests, rfl⟩ := step_loadRead hstep
    exact hinsert call _ (hread load readable index requests hrequests (hs call load hload))
  | loadFinish call env =>
    obtain ⟨load, -, -, rfl⟩ := step_loadFinish hstep
    exact herase call
  | loadAbort call env =>
    obtain ⟨load, -, rfl⟩ := step_loadAbort hstep
    exact herase call
  | _ =>
    rw [hloads rfl]
    exact hs

/-- No load is from a later epoch than the cache. -/
theorem loads_epoch_step
    (h : ∀ call load, s.loads.lookup call = some load → load.epoch ≤ s.cache.cacheEpoch)
    (hstep : step s a = some s') :
    ∀ call load, s'.loads.lookup call = some load → load.epoch ≤ s'.cache.cacheEpoch :=
  fun call load hload => (step_loads (Q := fun load => load.epoch ≤ s.cache.cacheEpoch) h
    (fun _ => le_rfl) (fun _ _ _ _ _ hle => hle) hstep call load hload).trans (step_epoch_le hstep)

/-! ### Disk entries and files, one block at a time -/

variable {env : Env H}

theorem unlinkDisk_disk (c : Cache H) (h k : H) :
    (unlinkDisk env c h).disk.lookup k = if k = h then none else c.disk.lookup k := by
  unfold unlinkDisk
  rw [dropDisk_eq]
  exact Table.lookup_erase_ite c.disk h k

theorem unlinkDisk_files (c : Cache H) (h k : H) (hk : k ≠ h) :
    (unlinkDisk env c h).files.lookup k = c.files.lookup k := by
  unfold unlinkDisk
  rw [dropDisk_eq]
  show (if env.removeFails h then c.files else c.files.erase h).lookup k = _
  split
  · rfl
  · exact AList.lookup_erase_ne hk

theorem eraseCorrupt_disk (c : Cache H) (h k : H) :
    (eraseCorruptLocked env c h).1.disk.lookup k =
      if k = h then none else c.disk.lookup k := by
  have hforget : ∀ d : Cache H, (forgetTailIfUnusedLocked (dropHot d h) h).disk = d.disk :=
    fun d => ((SameDisk.dropHot d h).trans (SameDisk.trimming (Trimming.forget _ h))).disk
  unfold eraseCorruptLocked
  dsimp only
  split
  · rw [hforget]
    split
    · exact unlinkDisk_disk (dropDeferred c h) h k
    · rename_i hmem
      by_cases hk : k = h
      · subst hk
        rw [if_pos rfl]
        exact AList.lookup_eq_none.mpr hmem
      · rw [if_neg hk]
        rfl
  · rename_i hmem
    by_cases hk : k = h
    · subst hk
      rw [if_pos rfl]
      exact AList.lookup_eq_none.mpr fun hd => hmem (Or.inl hd)
    · rw [if_neg hk]
      rfl

theorem eraseCorrupt_files (c : Cache H) (h k : H) (hk : k ≠ h) :
    (eraseCorruptLocked env c h).1.files.lookup k = c.files.lookup k := by
  have hforget : ∀ d : Cache H, (forgetTailIfUnusedLocked (dropHot d h) h).files = d.files :=
    fun d => ((SameDisk.dropHot d h).trans (SameDisk.trimming (Trimming.forget _ h))).files
  unfold eraseCorruptLocked
  dsimp only
  split
  · rw [hforget]
    split
    · exact unlinkDisk_files (dropDeferred c h) h k hk
    · rfl
  · rfl

theorem releaseLease_disk (c : Cache H) (h k : H) : k ∈ (releaseLease c h).disk ↔ k ∈ c.disk := by
  unfold releaseLease
  split
  · exact Iff.rfl
  · rename_i e he
    exact Table.mem_insert_of_mem (Table.mem_of_lookup he)

theorem dropUnreadable_disk (c : Cache H) (h : H) : h ∉ (dropUnreadable env c h).disk := by
  rw [← AList.lookup_eq_none]
  unfold dropUnreadable
  split
  · split
    · rw [(SameDisk.trimming (Trimming.forget (dropDisk c h) h)).disk, dropDisk_eq]
      exact AList.lookup_erase h c.disk
    · rename_i hmem
      exact AList.lookup_eq_none.mpr hmem
  · rw [eraseCorrupt_disk, if_pos rfl]

/-! ### What the disk tier sees -/

/-- One edit as the disk tier sees it: housekeeping, or a change elsewhere that leaves the
    index, the files, the session pins and the configuration alone. -/
inductive Backstage (env : Env H) : Cache H → Cache H → Prop
  | move {c c' : Cache H} (move : Move env c c') : Backstage env c c'
  | ram {c c' : Cache H} (disk : SameDisk c c') (pins : c'.pins = c.pins)
      (config : c'.config = c.config) : Backstage env c c'

namespace Backstage

variable {c c' : Cache H}

theorem ramEdit (disk : SameDisk c c') (pins : c'.pins = c.pins)
    (config : c'.config = c.config) : Relation.ReflTransGen (Backstage env) c c' :=
  .single (.ram disk pins config)

theorem housekeeping (ht : Housekeeping env c c') : Relation.ReflTransGen (Backstage env) c c' :=
  Relation.ReflTransGen.mono (fun _ _ hm => Backstage.move hm) _ _ ht

theorem trimming (ht : Trimming c c') : Relation.ReflTransGen (Backstage env) c c' :=
  housekeeping (ht.housekeeping env)

theorem putHotLocked (c : Cache H) (h : H) (p : Payload) :
    Relation.ReflTransGen (Backstage env) c (putHotLocked c h p) :=
  ramEdit (SameDisk.putHotLocked c h p) (SameControl.putHotLocked c h p).pins
    (SameControl.putHotLocked c h p).config

theorem storeDeferred (env : Env H) (c : Cache H) (a : StoreArgs H) :
    Relation.ReflTransGen (Backstage env) c (storeDeferred env c a) := by
  unfold PrefixCache.storeDeferred
  refine .trans ?_ (trimming (Trimming.ramPressure env _))
  refine .trans ?_ (housekeeping (Housekeeping.pruneTailCleanup _))
  refine .trans ?_ (trimming (Trimming.remember _ _ _ _))
  refine .trans ?_ (putHotLocked _ _ _)
  exact ramEdit ⟨rfl, rfl, rfl⟩ rfl rfl

theorem storeHotOnly (env : Env H) (c : Cache H) (a : StoreArgs H) :
    Relation.ReflTransGen (Backstage env) c (storeHotOnly env c a) := by
  unfold PrefixCache.storeHotOnly
  refine .trans ?_ (housekeeping (Housekeeping.pruneTailCleanup _))
  split
  · exact (putHotLocked _ _ _).trans (trimming (Trimming.remember _ _ _ _))
  · exact putHotLocked _ _ _

theorem storeWrite (env : Env H) (c : Cache H) (a : StoreArgs H) :
    Relation.ReflTransGen (Backstage env) c (storeWrite env c a).1 := by
  have hput : Relation.ReflTransGen (Backstage env) c (PrefixCache.putHotLocked
      (enforceBudget env (reservedBytes c a.payload.length) c) (a.hash c.config) a.payload) :=
    (housekeeping (Enforcing.enforceBudget env _ c).housekeeping).trans (putHotLocked _ _ _)
  unfold PrefixCache.storeWrite
  dsimp only
  generalize PrefixCache.putHotLocked (enforceBudget env (reservedBytes c a.payload.length) c)
    (a.hash c.config) a.payload = c₂ at *
  split
  · have hadd : Relation.ReflTransGen (Backstage env) c₂ (addPending c₂ (a.request c₂)) :=
      ramEdit ⟨rfl, rfl, rfl⟩ rfl rfl
    exact ((hput.trans hadd).trans (trimming (Trimming.remember _ (a.hash c.config) a.parent
      a.tokens.length))).trans (ramEdit ⟨rfl, rfl, rfl⟩ rfl rfl)
  · refine .trans (hput.trans ?_) (trimming (Trimming.remember _ _ _ _))
    exact ramEdit ⟨rfl, rfl, rfl⟩ rfl rfl

theorem storeLocked (env : Env H) (c : Cache H) (a : StoreArgs H) :
    Relation.ReflTransGen (Backstage env) c (storeLocked env c a).1 := by
  have hschedule : Relation.ReflTransGen (Backstage env) c (scheduleTailCleanupLocked c
      (a.hash c.config) a.parent a.tokens a.extraKey) :=
    trimming (Trimming.schedule c (a.hash c.config) a.parent a.tokens a.extraKey)
  unfold PrefixCache.storeLocked
  dsimp only
  generalize scheduleTailCleanupLocked c (a.hash c.config) a.parent a.tokens a.extraKey = c₁ at *
  have hdrop : Relation.ReflTransGen (Backstage env) c (dropDeferred c₁ (a.hash c.config)) :=
    hschedule.trans (ramEdit ⟨rfl, rfl, rfl⟩ rfl rfl)
  split
  · exact .refl
  · split
    · split
      · split
        · exact hschedule.trans (ramEdit ⟨rfl, rfl, rfl⟩ rfl rfl)
        · exact hschedule.trans (storeDeferred env c₁ a)
      · exact hschedule.trans (storeDeferred env c₁ a)
    · split
      · split
        · exact hdrop
        · exact hdrop.trans (storeHotOnly env _ a)
      · exact hdrop.trans (storeWrite env _ a)

theorem writerLoopHead (env : Env H) (c : Cache H) :
    Relation.ReflTransGen (Backstage env) c (writerLoopHead env c).1 := by
  have hr : Relation.ReflTransGen (Backstage env) c
      (if c.clearing then c else trimForRamPressureLocked env c) := by
    split
    · exact .refl
    · exact trimming (Trimming.ramPressure env c)
  unfold PrefixCache.writerLoopHead
  dsimp only
  generalize (if c.clearing then c else trimForRamPressureLocked env c) = c₁ at *
  split
  · have he := housekeeping (Enforcing.enforceDiskBudget env 0 1 c₁).housekeeping
    exact (hr.trans he).trans (ramEdit ⟨rfl, rfl, rfl⟩ rfl rfl)
  · split
    · exact hr
    · exact hr.trans (ramEdit ⟨rfl, rfl, rfl⟩ rfl rfl)

end Backstage

/-- A finishing load works backstage until it meets a block it could not read, and drops that
    one last. -/
theorem finishRequests_backstage (env : Env H) (c : Cache H) (requests : List (LoadRequest H)) :
    match unreadableBlock requests with
    | none => Relation.ReflTransGen (Backstage env) c (finishRequests env c requests).1
    | some h => ∃ d, Relation.ReflTransGen (Backstage env) c d ∧
        (finishRequests env c requests).1 = dropUnreadable env d h := by
  induction requests generalizing c with
  | nil => exact .refl
  | cons r rest ih =>
    obtain ⟨h, source⟩ := r
    have hskip : ∀ d, Relation.ReflTransGen (Backstage env) c d →
        match unreadableBlock rest with
        | none => Relation.ReflTransGen (Backstage env) c (finishRequests env d rest).1
        | some k => ∃ d', Relation.ReflTransGen (Backstage env) c d' ∧
            (finishRequests env d rest).1 = dropUnreadable env d' k := by
      intro d hd
      have hrest := ih d
      cases hblock : unreadableBlock rest with
      | none =>
        rw [hblock] at hrest
        exact hd.trans hrest
      | some k =>
        rw [hblock] at hrest
        obtain ⟨d', hd', heq⟩ := hrest
        exact ⟨d', hd.trans hd', heq⟩
    cases source with
    | hot p => exact hskip _ (.single (.move (.touchHot c h)))
    | pending p => exact hskip c .refl
    | disk read =>
      cases read with
      | none => exact ⟨c, .refl, rfl⟩
      | some q =>
        cases q with
        | none => exact ⟨c, .refl, rfl⟩
        | some p =>
          exact hskip _ ((Backstage.putHotLocked c h p).trans (.single (.move (.touchDisk _ h))))

end TyloQuant.PrefixCache
