import TyloQuant.PrefixCache.Sections

/-!
# Where payloads and write requests come from

A payload is in the cache because a `store` brought it, or because a load read it from a file
and put it back; from then on it only moves between RAM, the dirty set and the queue.  This
file states that once, for an arbitrary property of payloads and of write requests: if what
stores bring and what loads put back has the property, everything the cache holds has it.
The arguments about epochs and about stale payloads are instances.
-/

namespace TyloQuant.PrefixCache

open Lib

variable {H : Type} [DecidableEq H]

/-! ### What a load puts back -/

/-- The blocks a finishing load puts back into RAM: the cold ones before the first that could
    not be read. -/
def reinserted : List (LoadRequest H) → List (H × Payload)
  | [] => []
  | r :: rest =>
    match r.source with
    | .disk (some (some p)) => (r.hash, p) :: reinserted rest
    | .disk _ => []
    | _ => reinserted rest

/-- Every payload that a load finishing in its own epoch puts back meets `ok`. -/
def loadsMeet (ok : Cache H → H × Payload → Bool) (s : System H) : Action H → Bool
  | .loadFinish call _ =>
    match s.loads.lookup call with
    | none => true
    | some load =>
      decide (load.epoch ≠ s.cache.cacheEpoch) ||
        (reinserted load.requests).all (ok s.cache)
  | _ => true

omit [DecidableEq H] in
/-- What the condition says at the moment a load finishes. -/
theorem loadsMeet_loadFinish {ok : Cache H → H × Payload → Bool} {s : System H} {call : Nat}
    {env : Env H} {load : LoadCall H} (h : loadsMeet ok s (.loadFinish call env) = true)
    (hload : s.loads.lookup call = some load) (hepoch : load.epoch = s.cache.cacheEpoch) :
    (reinserted load.requests).all (ok s.cache) = true := by
  unfold loadsMeet at h
  simp only [hload, hepoch, ne_eq, not_true_eq_false, decide_false, Bool.false_or] at h
  exact h

/-! ### Contents -/

/-- Every payload held for a block has `R`, every write request held has `Q`. -/
structure Holds (Q : WriteRequest H → Prop) (R : H → Payload → Prop) (c : Cache H) : Prop where
  hot : ∀ h e, c.hot.lookup h = some e → R h e.payload
  pending : ∀ h p, c.pending.lookup h = some p → R h p
  deferred : ∀ h w, c.deferred.lookup h = some w → Q w ∧ R h w.payload
  writes : ∀ w ∈ c.writes, Q w

/-- The request the budget makes for a RAM payload that loses its file has `Q` when the
    payload has `R`. -/
def Redefers (Q : WriteRequest H → Prop) (R : H → Payload → Prop) (epoch : Nat) : Prop :=
  ∀ h parent count p, R h p →
    Q { hash := h, parent := parent, tokenCount := count, payload := p, epoch := epoch,
        replaceExisting := false, tokens := [] }

omit [DecidableEq H] in
theorem Redefers.of_eq {Q : WriteRequest H → Prop} {R : H → Payload → Prop} {m n : Nat}
    (h : Redefers Q R n) (heq : m = n) : Redefers Q R m := heq ▸ h

namespace Holds

variable {Q : WriteRequest H → Prop} {R : H → Payload → Prop} {env : Env H} {c c' : Cache H}

/-! ### Single edits -/

/-- Whatever only takes away keeps the contents. -/
theorem of_subset (hc : Holds Q R c)
    (hhot : ∀ h e, c'.hot.lookup h = some e → c.hot.lookup h = some e)
    (hpending : ∀ h p, c'.pending.lookup h = some p → c.pending.lookup h = some p)
    (hdeferred : ∀ h w, c'.deferred.lookup h = some w → c.deferred.lookup h = some w)
    (hwrites : ∀ w ∈ c'.writes, w ∈ c.writes) : Holds Q R c' :=
  ⟨fun h e he => hc.hot h e (hhot h e he), fun h p hp => hc.pending h p (hpending h p hp),
    fun h w hw => hc.deferred h w (hdeferred h w hw), fun w hw => hc.writes w (hwrites w hw)⟩

theorem dropHot (hc : Holds Q R c) (h : H) : Holds Q R (dropHot c h) := by
  rw [dropHot_eq]
  exact hc.of_subset (fun _ _ => Table.lookup_of_erase) (fun _ _ => id) (fun _ _ => id) (fun _ => id)

theorem dropDeferred (hc : Holds Q R c) (h : H) : Holds Q R (dropDeferred c h) :=
  hc.of_subset (fun _ _ => id) (fun _ _ => id) (fun _ _ => Table.lookup_of_erase) (fun _ => id)

theorem dropDisk (hc : Holds Q R c) (h : H) : Holds Q R (dropDisk c h) := by
  rw [dropDisk_eq]
  exact ⟨hc.hot, hc.pending, hc.deferred, hc.writes⟩

theorem unlinkDisk (hc : Holds Q R c) (env : Env H) (h : H) : Holds Q R (unlinkDisk env c h) := by
  have hc' : Holds Q R (removeText env (removeFile env c h) h) :=
    ⟨hc.hot, hc.pending, hc.deferred, hc.writes⟩
  exact hc'.dropDisk h

theorem spillDeferred (hc : Holds Q R c) (h : H) : Holds Q R (spillDeferred c h) := by
  unfold PrefixCache.spillDeferred
  split
  · exact hc
  · rename_i w hw
    obtain ⟨hq, hr⟩ := hc.deferred h w hw
    split
    · refine ⟨hc.hot, ?_, fun k v hv => hc.deferred k v (Table.lookup_of_erase hv), ?_⟩
      · exact Table.forall_insert hc.pending hr
      · exact List.forall_mem_append.mpr ⟨hc.writes, List.forall_mem_singleton.mpr hq⟩
    · exact hc.dropDeferred h

/-- A block becomes dirty with a request that has `Q` and a payload that has `R`. -/
theorem defer (hc : Holds Q R c) (h : H) (w : WriteRequest H) (hq : Q w)
    (hr : R h w.payload) : Holds Q R { c with deferred := c.deferred.insert h w } := by
  exact ⟨hc.hot, hc.pending, Table.forall_insert hc.deferred ⟨hq, hr⟩, hc.writes⟩

theorem redefer (hc : Holds Q R c) (h : H) (e : DiskEntry H)
    (hnew : Redefers Q R c.cacheEpoch) : Holds Q R (redefer c h e) := by
  unfold PrefixCache.redefer
  split
  · exact hc
  · rename_i hot hhot
    have hr := hc.hot h hot hhot
    split
    · exact hc.defer h _ (hnew h e.parent e.tokenCount hot.payload hr) hr
    · exact hc

theorem touchHot (hc : Holds Q R c) (h : H) : Holds Q R (touchHot c h) := by
  unfold PrefixCache.touchHot
  split
  · exact hc
  · rename_i e he
    exact ⟨Table.forall_insert hc.hot (hc.hot h e he), hc.pending, hc.deferred, hc.writes⟩

theorem touchDisk (hc : Holds Q R c) (h : H) : Holds Q R (touchDisk c h) := by
  unfold PrefixCache.touchDisk
  split <;> exact ⟨hc.hot, hc.pending, hc.deferred, hc.writes⟩

/-! ### Housekeeping -/

theorem ramMove (hm : RamMove c c') (hc : Holds Q R c) : Holds Q R c' := by
  cases hm with
  | tails => exact ⟨hc.hot, hc.pending, hc.deferred, hc.writes⟩
  | evictHot h => exact (hc.spillDeferred h).dropHot h

theorem diskMove (hm : DiskMove env c c') (hnew : Redefers Q R c.cacheEpoch)
    (hc : Holds Q R c) : Holds Q R c' := by
  cases hm with
  | tails => exact ⟨hc.hot, hc.pending, hc.deferred, hc.writes⟩
  | evictDisk h e => exact (hc.redefer h e hnew).unlinkDisk env h

theorem move (hm : Move env c c') (hnew : Redefers Q R c.cacheEpoch) (hc : Holds Q R c) :
    Holds Q R c' := by
  cases hm with
  | ram hm => exact hc.ramMove hm
  | disk hm => exact hc.diskMove hm hnew
  | touchHot h => exact hc.touchHot h
  | touchDisk h => exact hc.touchDisk h
  | supersede h =>
    split
    · exact ((hc.unlinkDisk env h).dropHot h).dropDeferred h
    · exact (hc.dropHot h).dropDeferred h

theorem trimming (ht : Trimming c c') (hc : Holds Q R c) : Holds Q R c' :=
  keeps (fun _ _ hm hc => ramMove hm hc) ht hc

theorem housekeeping (ht : Housekeeping env c c') (hnew : Redefers Q R c.cacheEpoch)
    (hc : Holds Q R c) : Holds Q R c' := by
  have hboth : c'.cacheEpoch = c.cacheEpoch ∧ Holds Q R c' := by
    refine keeps (P := fun d => d.cacheEpoch = c.cacheEpoch ∧ Holds Q R d) ?_ ht ⟨rfl, hc⟩
    intro d d' hm hd
    refine ⟨(SameControl.move hm).epoch.trans hd.1, hd.2.move hm ?_⟩
    rw [hd.1]
    exact hnew
  exact hboth.2

theorem enforcing (ht : Enforcing env c c') (hnew : Redefers Q R c.cacheEpoch)
    (hc : Holds Q R c) : Holds Q R c' :=
  hc.housekeeping ht.housekeeping hnew

theorem putHotLocked (hc : Holds Q R c) (h : H) (p : Payload) (hr : R h p) :
    Holds Q R (putHotLocked c h p) := by
  unfold PrefixCache.putHotLocked
  split
  · refine trimming (Trimming.trimHotLocked _ _) ?_
    have hd := hc.dropHot h
    exact ⟨Table.forall_insert hd.hot hr, hd.pending, hd.deferred, hd.writes⟩
  · exact hc.dropHot h

theorem eraseCorruptLocked (hc : Holds Q R c) (h : H) :
    Holds Q R (eraseCorruptLocked env c h).1 := by
  have hd := hc.dropDeferred h
  unfold PrefixCache.eraseCorruptLocked
  dsimp only
  split
  · refine trimming (Trimming.forget _ h) ?_
    split
    · exact (hd.unlinkDisk env h).dropHot h
    · exact hd.dropHot h
  · exact hd

/-! ### Storing and writing -/

omit [DecidableEq H] in
theorem request_congr (a : StoreArgs H) (hconf : c'.config = c.config)
    (hepoch : c'.cacheEpoch = c.cacheEpoch) : a.request c' = a.request c := by
  unfold StoreArgs.request
  rw [hconf, hepoch]

theorem storeDeferred (a : StoreArgs H) (hnew : Redefers Q R c.cacheEpoch)
    (hput : Holds Q R (PrefixCache.putHotLocked
      { c with deferred := c.deferred.insert (a.hash c.config) (a.request c) }
      (a.hash c.config) a.payload)) : Holds Q R (storeDeferred env c a) := by
  unfold PrefixCache.storeDeferred
  refine trimming (Trimming.ramPressure env _) ?_
  have hrem := hput.trimming (Trimming.remember _ (a.hash c.config) a.parent a.tokens.length)
  refine housekeeping (Housekeeping.pruneTailCleanup _) ?_ hrem
  rw [(SameControl.trimming (Trimming.remember _ _ _ _)).epoch,
    (SameControl.putHotLocked _ _ _).epoch]
  exact hnew

theorem storeHotOnly (a : StoreArgs H) (hnew : Redefers Q R c.cacheEpoch)
    (hput : Holds Q R (PrefixCache.putHotLocked c (a.hash c.config) a.payload)) :
    Holds Q R (storeHotOnly env c a) := by
  have hepoch := (SameControl.putHotLocked c (a.hash c.config) a.payload).epoch
  unfold PrefixCache.storeHotOnly
  dsimp only
  split
  · refine housekeeping (Housekeeping.pruneTailCleanup _) ?_
      (trimming (Trimming.remember _ _ _ _) hput)
    rw [(SameControl.trimming (Trimming.remember _ _ _ _)).epoch, hepoch]
    exact hnew
  · exact housekeeping (Housekeeping.pruneTailCleanup _) (hepoch ▸ hnew) hput

theorem addPending (hc : Holds Q R c) (w : WriteRequest H) (hr : R w.hash w.payload) :
    Holds Q R (addPending c w) :=
  ⟨hc.hot, Table.forall_insert hc.pending hr, hc.deferred, hc.writes⟩

theorem storeWrite (a : StoreArgs H) (hq : Q (a.request c))
    (hr : R (a.hash c.config) a.payload)
    (hput : Holds Q R (PrefixCache.putHotLocked (enforceBudget env (reservedBytes c a.payload.length) c)
      (a.hash c.config) a.payload)) :
    Holds Q R (storeWrite env c a).1 ∧ ∀ w ∈ (storeWrite env c a).2, Q w := by
  have hctl : SameControl c (PrefixCache.putHotLocked
      (enforceBudget env (reservedBytes c a.payload.length) c) (a.hash c.config) a.payload) :=
    (SameControl.enforcing (Enforcing.enforceBudget env _ c)).trans (SameControl.putHotLocked _ _ _)
  unfold PrefixCache.storeWrite
  dsimp only
  generalize PrefixCache.putHotLocked (enforceBudget env (reservedBytes c a.payload.length) c)
    (a.hash c.config) a.payload = c₂ at *
  rw [request_congr a hctl.config hctl.epoch]
  have hadd := hput.addPending (a.request c) hr
  split
  · have hrem := hadd.trimming
      (Trimming.remember _ (a.hash c.config) a.parent a.tokens.length)
    refine ⟨⟨hrem.hot, hrem.pending, hrem.deferred, hrem.writes⟩, ?_⟩
    rintro w ⟨rfl⟩
    exact hq
  · refine ⟨trimming (Trimming.remember _ _ _ _)
      ⟨hadd.hot, hadd.pending, hadd.deferred, ?_⟩, fun w hw => by cases hw⟩
    exact List.forall_mem_append.mpr ⟨hadd.writes, List.forall_mem_singleton.mpr hq⟩

theorem storeLocked (hc : Holds Q R c) (env : Env H) (a : StoreArgs H)
    (hnew : Redefers Q R c.cacheEpoch)
    (hq : Q (a.request c)) (hr : R (a.hash c.config) a.payload) :
    Holds Q R (storeLocked env c a).1 ∧ ∀ w ∈ (storeLocked env c a).2, Q w := by
  obtain ⟨cleanup, heq⟩ := scheduleTailCleanupLocked_eq c (a.hash c.config) a.parent a.tokens
    a.extraKey
  have hc₁ : Holds Q R (c.withTails c.tailLengths c.tailMetadata cleanup) :=
    ⟨hc.hot, hc.pending, hc.deferred, hc.writes⟩
  have hnone : ∀ w : WriteRequest H, w ∈ (none : Option (WriteRequest H)) → Q w :=
    fun w hw => by cases hw
  have hdirty := (hc₁.defer (a.hash c.config) (a.request c) hq hr).putHotLocked
    (a.hash c.config) a.payload hr
  have hclean := hc₁.dropDeferred (a.hash c.config)
  unfold PrefixCache.storeLocked
  dsimp only
  rw [heq]
  split
  · exact ⟨hc, hnone⟩
  · split
    · split
      · rename_i e he
        split
        · have htouch := hc₁.touchHot (a.hash c.config)
          unfold PrefixCache.touchHot at htouch
          rw [he] at htouch
          exact ⟨htouch, hnone⟩
        · exact ⟨storeDeferred a hnew hdirty, hnone⟩
      · exact ⟨storeDeferred a hnew hdirty, hnone⟩
    · split
      · split
        · exact ⟨hclean, hnone⟩
        · exact ⟨storeHotOnly a hnew (hclean.putHotLocked _ _ hr), hnone⟩
      · refine storeWrite a hq hr (Holds.putHotLocked ?_ _ _ hr)
        exact hclean.enforcing (Enforcing.enforceBudget env _ _) hnew

theorem settlePending (hc : Holds Q R c) (h : H) : Holds Q R (settlePending c h) := by
  unfold PrefixCache.settlePending
  split
  · exact hc
  · exact hc.of_subset (fun _ _ => id) (fun _ _ => Table.lookup_of_erase) (fun _ _ => id)
      (fun _ => id)

theorem registerFile (hc : Holds Q R c) (w : WriteRequest H) (file : Payload) :
    Holds Q R (registerFile c w file) := by
  unfold PrefixCache.registerFile
  dsimp only
  rw [dropDisk_eq]
  exact ⟨hc.hot, hc.pending, hc.deferred, hc.writes⟩

/-! ### Loading -/

theorem dropUnreadable (hc : Holds Q R c) (h : H) : Holds Q R (dropUnreadable env c h) := by
  unfold PrefixCache.dropUnreadable
  split
  · split
    · exact trimming (Trimming.forget _ _) (hc.dropDisk h)
    · exact hc
  · exact hc.eraseCorruptLocked h

theorem finishRequests (hc : Holds Q R c) (requests : List (LoadRequest H))
    (hback : ∀ x ∈ reinserted requests, R x.1 x.2) :
    Holds Q R (finishRequests env c requests).1 := by
  induction requests generalizing c with
  | nil => exact hc
  | cons r rest ih =>
    obtain ⟨h, source⟩ := r
    cases source with
    | hot p => exact ih (hc.touchHot h) hback
    | pending p => exact ih hc hback
    | disk read =>
      cases read with
      | none => exact hc.dropUnreadable h
      | some q =>
        cases q with
        | none => exact hc.dropUnreadable h
        | some p =>
          refine ih ((hc.putHotLocked h p ?_).touchDisk h) fun x hx => ?_
          · exact hback (h, p) List.mem_cons_self
          · exact hback x (List.mem_cons_of_mem _ hx)

/-- The sections keep the contents, as long as what the budget marks dirty has `Q`. -/
theorem kept : Kept fun c => Holds Q R c ∧ Redefers Q R c.cacheEpoch where
  beside hc h hwrites := by
    simp only [Cache.tiers, Prod.mk.injEq] at h
    obtain ⟨hhot, -, -, -, hdeferred, hpending, -, -, hepoch⟩ := h
    exact ⟨⟨hhot ▸ hc.1.hot, hpending ▸ hc.1.pending, hdeferred ▸ hc.1.deferred,
      fun w hw => hc.1.writes w (hwrites w hw)⟩, hc.2.of_eq hepoch⟩
  move hm hc := ⟨hc.1.move hm hc.2, hc.2.of_eq (SameControl.move hm).epoch⟩
  erase h hc := ⟨hc.1.eraseCorruptLocked h, hc.2.of_eq (SameControl.eraseCorruptLocked _ _ h).epoch⟩
  dropDisk h hc := ⟨hc.1.dropDisk h, hc.2.of_eq (SameControl.dropDisk _ h).epoch⟩
  dropEntry h hc := ⟨((hc.1.dropDisk h).dropHot h).dropDeferred h,
    hc.2.of_eq (((SameControl.dropDisk _ h).trans (SameControl.dropHot _ h)).trans
      (SameControl.dropDeferred _ h)).epoch⟩
  setPins _ hc _ := ⟨⟨hc.1.hot, hc.1.pending, hc.1.deferred, hc.1.writes⟩, hc.2⟩
  settlePending h hc := ⟨hc.1.settlePending h, hc.2.of_eq (SameControl.settlePending _ h).epoch⟩
  registerFile w file hc :=
    ⟨hc.1.registerFile w file, hc.2.of_eq (Steady.registerFile _ w file).epoch⟩

/-- The writer takes its request from the queue. -/
theorem writerLoopHead_taken (hc : Holds Q R c) (env : Env H) :
    ∀ w ∈ (writerLoopHead env c).2, Q w := by
  have hr : Holds Q R (if c.clearing then c else trimForRamPressureLocked env c) := by
    split
    · exact hc
    · exact trimming (Trimming.ramPressure env c) hc
  unfold PrefixCache.writerLoopHead
  dsimp only
  generalize (if c.clearing then c else trimForRamPressureLocked env c) = c₁ at *
  split
  · exact fun w hw => by cases hw
  · split
    · exact fun w hw => by cases hw
    · rename_i w rest hwrites
      rintro v ⟨rfl⟩
      exact hr.writes _ (hwrites ▸ List.mem_cons_self)

theorem empty (hhot : c.hot = ∅) (hpending : c.pending = ∅) (hdeferred : c.deferred = ∅)
    (hwrites : c.writes = []) : Holds Q R c := by
  refine ⟨?_, ?_, ?_, ?_⟩
  · simp [hhot]
  · simp [hpending]
  · simp [hdeferred]
  · simp [hwrites]

theorem openCache (config : Config H) (found : List (FoundBlock H))
    (hnew : Redefers Q R 0) : Holds Q R (openCache env config found) := by
  unfold PrefixCache.openCache
  have hscan : Holds Q R (found.foldl scanEntry { config := config }) ∧
      (found.foldl scanEntry { config := config }).cacheEpoch = 0 := by
    refine List.foldlRecOn (motive := fun c => Holds Q R c ∧ c.cacheEpoch = 0) found _
      ⟨empty rfl rfl rfl rfl, rfl⟩ fun c hc b _ => ?_
    unfold scanEntry
    split
    · exact hc
    · refine ⟨trimming (Trimming.remember _ _ _ _)
        ⟨hc.1.hot, hc.1.pending, hc.1.deferred, hc.1.writes⟩, ?_⟩
      rw [(SameControl.trimming (Trimming.remember _ _ _ _)).epoch]
      exact hc.2
  refine enforcing (Enforcing.enforceBudget _ _ _) ?_ hscan.1
  rw [hscan.2]
  exact hnew

end Holds

/-! ### Every step -/

/-- The cache holds only what has the properties, and so do the requests not yet settled. -/
structure Stocked (Q : WriteRequest H → Prop) (R : H → Payload → Prop) (s : System H) : Prop where
  cache : Holds Q R s.cache
  writers : ∀ id call, s.writers.lookup id = some call → call.phase ≠ .finished → Q call.request

omit [DecidableEq H] in
theorem stocked_addWriter {Q : WriteRequest H → Prop} {s : System H} {id : WriterId}
    {w : Option (WriteRequest H)}
    (hs : ∀ id call, s.writers.lookup id = some call → call.phase ≠ .finished → Q call.request)
    (hw : ∀ v ∈ w, Q v) : ∀ id' call, (s.addWriter id w).writers.lookup id' = some call →
      call.phase ≠ .finished → Q call.request := by
  cases w with
  | none => exact hs
  | some v => exact Table.forall_insert hs fun _ => hw v rfl

/-- What the requests not yet settled have, the next has too if the one handed out has it. -/
theorem step_writers {Q : WriteRequest H → Prop} {s s' : System H} {a : Action H}
    (hs : ∀ id call, s.writers.lookup id = some call → call.phase ≠ .finished → Q call.request)
    (hstore : ∀ call args env, a = .store call args env → ∀ w ∈ (storeLocked env s.cache args).2, Q w)
    (htick : ∀ env, a = .writerTick env → ∀ w ∈ (writerLoopHead env s.cache).2, Q w)
    (hstep : step s a = some s') :
    ∀ id call, s'.writers.lookup id = some call → call.phase ≠ .finished → Q call.request := by
  -- a writer that moves on keeps its request
  have hmoved : ∀ id (w : WriteRequest H) phase phase', s.writers.lookup id = some ⟨w, phase⟩ →
      phase ≠ .finished → ∀ id' call, (s.writers.insert id ⟨w, phase'⟩).lookup id' = some call →
        call.phase ≠ .finished → Q call.request :=
    fun id w phase _ hw hopen => Table.forall_insert hs fun _ => hs id ⟨w, phase⟩ hw hopen
  cases a with
  | store call args env =>
    obtain ⟨-, -, rfl⟩ := step_store hstep
    exact stocked_addWriter hs (hstore call args env rfl)
  | writerTick env =>
    obtain ⟨-, rfl⟩ := step_writerTick hstep
    exact stocked_addWriter hs (htick env rfl)
  | publish writer outcome =>
    obtain ⟨w, hw, rfl⟩ := step_publish hstep
    exact hmoved writer w _ _ hw (by simp)
  | finish writer env =>
    obtain ⟨w, success, hw, rfl⟩ := step_finish hstep
    exact hmoved writer w _ _ hw (by simp)
  | retire writer =>
    obtain ⟨w, -, rfl⟩ := step_retire hstep
    exact fun id call hcall => hs id call (Table.lookup_of_erase hcall)
  | _ =>
    rw [(step_calls hstep).1 rfl]
    exact hs

/-- **One step** brings nothing into the cache but what its `store` brings and what its load
    puts back. -/
theorem stocked_step {Q : WriteRequest H → Prop} {R : H → Payload → Prop} {s s' : System H}
    {a : Action H} (hs : Stocked Q R s) (hnew : Redefers Q R s.cache.cacheEpoch)
    (hstore : ∀ call args env, a = .store call args env →
      Q (args.request s.cache) ∧ R (args.hash s.cache.config) args.payload)
    (hload : ∀ call env load, a = .loadFinish call env → s.loads.lookup call = some load →
      load.epoch = s.cache.cacheEpoch → ∀ x ∈ reinserted load.requests, R x.1 x.2)
    (hstep : step s a = some s') : Stocked Q R s' := by
  refine ⟨?_, step_writers hs.writers (fun call args env ha => ?_)
    (fun env _ => hs.cache.writerLoopHead_taken env) hstep⟩
  · by_cases hclear : ∃ env, a = .clearBegin env
    · obtain ⟨env, rfl⟩ := hclear
      obtain ⟨-, rfl⟩ := step_clearBegin hstep
      exact Holds.empty rfl rfl rfl rfl
    · refine (Holds.kept.step ⟨hs.cache, hnew⟩ ?_ ?_ (fun env ha => absurd ⟨env, ha⟩ hclear) hstep).1
      · intro call args env ha _
        obtain ⟨hq, hr⟩ := hstore call args env ha
        exact ⟨(hs.cache.storeLocked env args hnew hq hr).1,
          hnew.of_eq (Steady.storeLocked env s.cache args).epoch⟩
      · intro call env load ha hlookup hepoch
        exact ⟨hs.cache.finishRequests load.requests (hload call env load ha hlookup hepoch),
          hnew.of_eq (Steady.finishRequests env s.cache load.requests).epoch⟩
  · obtain ⟨hq, hr⟩ := hstore call args env ha
    exact (hs.cache.storeLocked env args hnew hq hr).2

end TyloQuant.PrefixCache
