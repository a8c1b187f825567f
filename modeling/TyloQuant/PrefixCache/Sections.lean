import TyloQuant.PrefixCache.Inversion

/-!
# What the locked sections keep

Most invariants of the cache need an argument of their own only for the edits of the tables and
for `store`.  `Kept` names these edits; whatever they keep is kept by the locked sections that are
made of them.  `Sections.step` then goes through the actions once, for every property that the
sections keep.
-/

namespace TyloQuant.PrefixCache

open Lib

variable {H : Type} [DecidableEq H]

/-- The tables of the tiers and what is counted of them. -/
def Cache.tiers (c : Cache H) :=
  (c.hot, c.hotBytes, c.disk, c.diskBytes, c.deferred, c.pending, c.pendingWriteBytes, c.wraps,
    c.cacheEpoch)

/-- The edits keep `P`. -/
structure Kept (P : Cache H → Prop) : Prop where
  beside : ∀ {c c' : Cache H}, P c → c'.tiers = c.tiers → (∀ w ∈ c'.writes, w ∈ c.writes) → P c'
  move : ∀ {env : Env H} {c c' : Cache H}, Move env c c' → P c → P c'
  erase : ∀ {env : Env H} {c : Cache H} (h : H), P c → P (eraseCorruptLocked env c h).1
  dropDisk : ∀ {c : Cache H} (h : H), P c → P (dropDisk c h)
  dropEntry : ∀ {c : Cache H} (h : H), P c → P (dropDeferred (dropHot (PrefixCache.dropDisk c h) h) h)
  setPins : ∀ {c : Cache H} {h : H} {e : DiskEntry H} (n : Nat), P c → c.disk.lookup h = some e →
    P { c with disk := c.disk.insert h { e with pins := n } }
  settlePending : ∀ {c : Cache H} (h : H), P c → P (settlePending c h)
  registerFile : ∀ {c : Cache H} (w : WriteRequest H) (file : Payload), P c → P (registerFile c w file)

/-- The locked sections keep `P` in the environments of `E`, those apart that write or that depend
    on what is read. -/
structure Sections (E : Env H → Prop) (P : Cache H → Prop) : Prop where
  limits : ∀ {c : Cache H} (maxHotBytes : Nat) (clearing : Bool), P c →
    P { c with config := { c.config with maxHotBytes := maxHotBytes }, clearing := clearing }
  vanish : ∀ {c : Cache H} (h : H) (withText : Bool), P c →
    P { c with
        files := c.files.erase h
        texts := if withText then c.texts.erase h else c.texts }
  pins : Pins P
  erase : ∀ {env : Env H} {c : Cache H} (h : H), E env → P c → P (eraseCorruptLocked env c h).1
  enforceBudget : ∀ {env : Env H} {c : Cache H}, E env → P c → P (enforceBudget env 0 c)
  trimHotLocked : ∀ {c : Cache H} (targetBytes : Nat), P c → P (trimHotLocked targetBytes c).1

/-- The environment of an action that is neither a writer's nor goes through the whole index. -/
def Action.env? : Action H → Option (Env H)
  | .loadFinish _ env | .loadAbort _ env | .invalidate _ env | .unpin _ env | .matchStep _ env =>
    some env
  | _ => none

variable {P : Cache H → Prop} {env : Env H} {c c' : Cache H}

namespace Kept

theorem housekeeping (hP : Kept P) (ht : Housekeeping env c c') (hc : P c) : P c' :=
  keeps (fun _ _ => hP.move) ht hc

theorem trimming (hP : Kept P) (ht : Trimming c c') (hc : P c) : P c' :=
  hP.housekeeping (ht.housekeeping {}) hc

theorem enforcing (hP : Kept P) (ht : Enforcing env c c') (hc : P c) : P c' :=
  hP.housekeeping ht.housekeeping hc

theorem finishWrite (hP : Kept P) (w : WriteRequest H) (success : Bool) (hc : P c) :
    P (finishWrite env c w success) := by
  unfold PrefixCache.finishWrite
  refine hP.housekeeping (Housekeeping.pruneTailCleanup _) (hP.trimming (Trimming.forget _ _) ?_)
  have hs := hP.settlePending w.hash hc
  unfold settleFile
  split
  · have ht : P (writeText env (PrefixCache.settlePending c w.hash) w) := by
      unfold writeText
      split
      · exact hP.beside hs rfl fun _ => id
      · exact hs
    dsimp only
    split
    · split
      · exact ht
      · exact hP.enforcing (Enforcing.enforceBudget _ _ _) (hP.registerFile w _ ht)
    · exact ht
  · split
    · exact hs
    · exact hP.beside hs rfl fun _ => id

theorem writerLoopHead (hP : Kept P) (hc : P c) : P (writerLoopHead env c).1 := by
  have hr : P (if c.clearing then c else trimForRamPressureLocked env c) := by
    split
    · exact hc
    · exact hP.trimming (Trimming.ramPressure env c) hc
  unfold PrefixCache.writerLoopHead
  dsimp only
  generalize (if c.clearing then c else trimForRamPressureLocked env c) = c₁ at *
  split
  · exact hP.beside (hP.enforcing (Enforcing.enforceDiskBudget env 0 1 c₁) hr) rfl fun _ => id
  · split
    · exact hr
    · rename_i w rest hwrites
      exact hP.beside hr rfl fun v hv => hwrites ▸ List.mem_cons_of_mem w hv

theorem dropUnreadable (hP : Kept P) (h : H) (hc : P c) : P (dropUnreadable env c h) := by
  unfold PrefixCache.dropUnreadable
  split
  · split
    · exact hP.trimming (Trimming.forget _ _) (hP.dropDisk h hc)
    · exact hc
  · exact hP.erase h hc

theorem refreshDiskIndex (hP : Kept P) (hc : P c) : P (refreshDiskIndex env c) := by
  unfold PrefixCache.refreshDiskIndex
  refine List.foldlRecOn _ _ hc fun c hc h _ => ?_
  unfold refreshEntry
  split
  · exact hc
  · exact hP.trimming (Trimming.forget _ _) (hP.dropEntry h hc)

theorem sections (hP : Kept P) : Sections (fun _ => True) P where
  limits _ _ hc := hP.beside hc rfl fun _ => id
  vanish _ _ hc := hP.beside hc rfl fun _ => id
  pins :=
    { pins := fun _ hc => hP.beside hc rfl fun _ => id
      entry := hP.setPins }
  erase h _ := hP.erase h
  enforceBudget _ := hP.enforcing (Enforcing.enforceBudget _ _ _)
  trimHotLocked n := hP.trimming (Trimming.trimHotLocked n _)

end Kept

variable {s s' : System H} {a : Action H}

theorem step_writing (ha : a.writing = true)
    (hstore : ∀ call args env, a = .store call args env → storeReady s.cache args = true →
      P (storeLocked env s.cache args).1)
    (htick : ∀ env, a = .writerTick env → P (PrefixCache.writerLoopHead env s.cache).1)
    (hbeside : ∀ files activeWrites, P { s.cache with files := files, activeWrites := activeWrites })
    (hfinish : ∀ writer env w success, a = .finish writer env →
      s.writers.lookup writer = some ⟨w, .published success⟩ →
        P (PrefixCache.finishWrite env s.cache w success)) (hstep : step s a = some s') :
    P s'.cache := by
  cases a with
  | store call args env =>
    obtain ⟨hready, -, rfl⟩ := step_store hstep
    rw [addWriter_cache]
    exact hstore call args env rfl hready
  | writerTick env =>
    obtain ⟨-, rfl⟩ := step_writerTick hstep
    rw [addWriter_cache]
    exact htick env rfl
  | publish writer outcome =>
    obtain ⟨w, -, rfl⟩ := step_publish hstep
    exact hbeside _ _
  | finish writer env =>
    obtain ⟨w, success, hw, rfl⟩ := step_finish hstep
    exact hfinish writer env w success rfl hw
  | retire writer =>
    obtain ⟨w, -, rfl⟩ := step_retire hstep
    exact hbeside _ _
  | _ => cases ha

/-- **The step rule.**  Only the writers, a new disk limit, a load that ends, a refresh of the index
    and a clear need a reason of their own. -/
theorem Sections.step {E : Env H → Prop} (hP : Sections E P) (hs : P s.cache)
    (hE : ∀ env ∈ a.env?, E env) (hwriting : a.writing = true → P s'.cache)
    (hlimit : ∀ n, a = .setDiskLimit n → P { s.cache with
      config := { s.cache.config with maxDiskBytes := n }, diskBudgetPending := true })
    (hload : ∀ call env load, a = .loadFinish call env → s.loads.lookup call = some load →
      load.epoch = s.cache.cacheEpoch → P (finishRequests env s.cache load.requests).1)
    (hrefresh : ∀ env, a = .refreshDiskIndex env → P (PrefixCache.refreshDiskIndex env s.cache))
    (hclear : ∀ env, a = .clearBegin env → P (clearBegin env s.cache))
    (hstep : step s a = some s') : P s'.cache := by
  cases a with
  | loadBegin call blocks =>
    obtain ⟨-, -, rfl⟩ := step_loadBegin hstep
    exact hP.pins.leaseLocked blocks hs
  | loadRead call index readable =>
    obtain ⟨load, requests, -, -, rfl⟩ := step_loadRead hstep
    exact hs
  | loadFinish call env =>
    obtain ⟨load, hlookup, -, rfl⟩ := step_loadFinish hstep
    unfold finishLoad
    dsimp only
    split
    · rename_i hepoch
      exact hP.enforceBudget (hE env rfl)
        (hP.pins.releaseLeases _ (hload call env load rfl hlookup hepoch))
    · exact hs
  | loadAbort call env =>
    obtain ⟨load, -, rfl⟩ := step_loadAbort hstep
    unfold abortLoad
    dsimp only
    split
    · exact hP.enforceBudget (hE env rfl) (hP.pins.releaseLeases _ hs)
    · exact hs
  | invalidate block env =>
    obtain ⟨-, rfl⟩ := step_invalidate hstep
    exact hP.erase block (hE env rfl) hs
  | pin blocks =>
    obtain rfl := Option.some.inj hstep
    exact hP.pins.pinBlocks blocks hs
  | unpin blocks env =>
    obtain rfl := Option.some.inj hstep
    exact hP.enforceBudget (hE env rfl) (hP.pins.unpinBlocks blocks hs)
  | trimHot targetBytes =>
    obtain rfl := Option.some.inj hstep
    exact hP.trimHotLocked targetBytes hs
  | setHotLimit maxBytes =>
    obtain rfl := Option.some.inj hstep
    exact hP.trimHotLocked maxBytes (hP.limits maxBytes _ hs)
  | setDiskLimit maxBytes =>
    obtain rfl := Option.some.inj hstep
    unfold setDiskLimit
    dsimp only
    split
    · exact hs
    · exact hlimit maxBytes rfl
  | refreshDiskIndex env =>
    obtain ⟨-, -, rfl⟩ := step_refreshDiskIndex hstep
    exact hrefresh env rfl
  | clearBegin env =>
    obtain ⟨-, rfl⟩ := step_clearBegin hstep
    exact hclear env rfl
  | clearEnd =>
    obtain ⟨-, -, rfl⟩ := step_clearEnd hstep
    exact hP.limits _ false hs
  | matchBegin call tokens extraKey =>
    obtain ⟨-, rfl⟩ := step_matchBegin hstep
    exact hs
  | matchStep call env =>
    obtain ⟨m, -, rfl⟩ := step_matchStep hstep
    dsimp only
    rcases advanceMatch_cache env s.cache m with heq | ⟨h, -, heq⟩
    · rw [heq]
      exact hs
    · rw [heq]
      exact hP.erase h (hE env rfl) hs
  | vanish block withText =>
    obtain rfl := Option.some.inj hstep
    exact hP.vanish block withText hs
  | _ => exact hwriting rfl

/-- Where the edits keep `P`, only a store, a load that ends and a clear need a reason. -/
theorem Kept.step (hP : Kept P) (hs : P s.cache)
    (hstore : ∀ call args env, a = .store call args env → storeReady s.cache args = true →
      P (storeLocked env s.cache args).1)
    (hload : ∀ call env load, a = .loadFinish call env → s.loads.lookup call = some load →
      load.epoch = s.cache.cacheEpoch → P (finishRequests env s.cache load.requests).1)
    (hclear : ∀ env, a = .clearBegin env → P (clearBegin env s.cache))
    (hstep : PrefixCache.step s a = some s') : P s'.cache :=
  hP.sections.step hs (fun _ _ => trivial)
    (fun ha => step_writing ha hstore (fun _ _ => hP.writerLoopHead hs)
      (fun _ _ => hP.beside hs rfl fun _ => id) (fun _ _ w success _ _ => hP.finishWrite w success hs)
      hstep) (fun _ _ => hP.beside hs rfl fun _ => id) hload
      (fun _ _ => hP.refreshDiskIndex hs) hclear hstep

end TyloQuant.PrefixCache
