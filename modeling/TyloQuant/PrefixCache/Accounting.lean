import TyloQuant.PrefixCache.Sections

/-!
# Byte accounting

The three counters of the cache are the sums of what the maps hold, and no subtraction from one of
them ever wraps, unless one slip of `store` is reached: a `replace` in spill mode whose payload the
RAM tier cannot take drops the block's dirty mark and then enforces the disk budget, which may evict
that very block's file and mark the *old* RAM payload dirty again.  The block is then dirty and
queued at once, and a later trim overwrites the queued payload without taking its bytes off.
-/

namespace TyloQuant.PrefixCache

open Lib

variable {H : Type} [DecidableEq H]

/-! ### The slip -/

/-- `store` reaches its write branch. -/
def reachesWrite (c : Cache H) (a : StoreArgs H) : Prop :=
  ¬(a.replaceExisting = false ∧ (a.hash c.config ∈ c.disk ∨ a.hash c.config ∈ c.pending)) ∧
    ¬(c.config.spillHotOnEviction = true ∧ fitsHot c a.payload = true) ∧
    c.config.maxDiskBytes ≠ 0

instance (c : Cache H) (a : StoreArgs H) : Decidable (reachesWrite c a) :=
  inferInstanceAs (Decidable (_ ∧ _ ∧ _))

/-- The state in which the write branch of `store` enforces the budget. -/
def beforeWrite (c : Cache H) (a : StoreArgs H) : Cache H :=
  dropDeferred
    (scheduleTailCleanupLocked c (a.hash c.config) a.parent a.tokens a.extraKey)
    (a.hash c.config)

/-- Making room for the write marks the block that is being written dirty again, with the
    payload it is about to lose. -/
def redefersStored (env : Env H) (c : Cache H) (a : StoreArgs H) : Prop :=
  reachesWrite c a ∧ a.hash c.config ∈
      (enforceBudget env (reservedBytes (beforeWrite c a) a.payload.length)
        (beforeWrite c a)).deferred

instance (env : Env H) (c : Cache H) (a : StoreArgs H) : Decidable (redefersStored env c a) :=
  inferInstanceAs (Decidable (_ ∧ _))

/-- The action is not a `store` that marks its own block dirty again. -/
def NoRedefer (s : System H) : Action H → Prop
  | .store _ args env => ¬redefersStored env s.cache args
  | _ => True

instance (s : System H) (a : Action H) : Decidable (NoRedefer s a) := by
  apply @Action.casesOn _ (fun a => Decidable (NoRedefer s a)) a <;> intros <;>
    unfold NoRedefer <;> infer_instance

/-! ### What a store keeps -/

/-- `Kept`, and what a store does besides. -/
structure Stores (P : Cache H → Prop) : Prop extends Kept P where
  dropDeferred : ∀ {c : Cache H} (h : H), P c → P (dropDeferred c h)
  putHotLocked : ∀ {c : Cache H} {h : H} (p : Payload), P c → h ∉ c.deferred → P (putHotLocked c h p)
  storeDeferred : ∀ {env : Env H} {c : Cache H} (a : StoreArgs H), P c → a.hash c.config ∉ c.pending →
    fitsHot c a.payload = true → P (storeDeferred env c a)
  addPending : ∀ {c : Cache H} (w : WriteRequest H), P c → w.hash ∉ c.pending → w.hash ∉ c.deferred →
    P (addPending c w)
  enqueue : ∀ {c : Cache H} (writes : List (WriteRequest H)), P c → P { c with writes := writes }

namespace Stores

variable {P : Cache H → Prop} {env : Env H} {c : Cache H}

theorem storeHotOnly (hP : Stores P) (a : StoreArgs H) (hc : P c) (hd : a.hash c.config ∉ c.deferred) :
    P (storeHotOnly env c a) := by
  have hput := hP.putHotLocked a.payload hc hd
  unfold PrefixCache.storeHotOnly
  refine hP.housekeeping (Housekeeping.pruneTailCleanup _) ?_
  split
  · exact hP.trimming (Trimming.remember _ _ _ _) hput
  · exact hput

theorem storeWrite (hP : Stores P) (a : StoreArgs H) (hc : P c) (hp : a.hash c.config ∉ c.pending)
    (hd : a.hash c.config ∉
      (enforceBudget env (reservedBytes c a.payload.length) c).deferred) :
    P (storeWrite env c a).1 := by
  have henf := Enforcing.enforceBudget env (reservedBytes c a.payload.length) c
  have hc₁ := hP.enforcing henf hc
  have hp₁ : a.hash c.config ∉
      (enforceBudget env (reservedBytes c a.payload.length) c).pending := by
    rw [henf.pending_hot.1]
    exact hp
  unfold PrefixCache.storeWrite
  dsimp only
  generalize enforceBudget env (reservedBytes c a.payload.length) c = c₁ at *
  have hconf : (PrefixCache.putHotLocked c₁ (a.hash c.config) a.payload).config = c.config :=
    ((SameControl.housekeeping henf.housekeeping).trans
      (SameControl.putHotLocked c₁ _ a.payload)).config
  have hc₂ := hP.putHotLocked a.payload hc₁ hd
  have hfree := putHotLocked_untouched (a.hash c.config) a.payload ⟨hd, hp₁⟩
  generalize PrefixCache.putHotLocked c₁ (a.hash c.config) a.payload = c₂ at *
  have hw : (a.request c₂).hash = a.hash c.config := by
    unfold StoreArgs.request
    dsimp only
    rw [hconf]
  have hc₃ := hP.addPending (a.request c₂) hc₂ (hw ▸ hfree.2) (hw ▸ hfree.1)
  split
  · have hr := hP.trimming (Trimming.remember _ (a.hash c.config) a.parent a.tokens.length) hc₃
    exact hP.beside hr rfl fun _ => id
  · exact hP.trimming (Trimming.remember _ _ _ _) (hP.enqueue _ hc₃)

theorem storeLocked (hP : Stores P) (a : StoreArgs H) (hc : P c) (hready : storeReady c a = true)
    (hno : ¬redefersStored env c a) : P (storeLocked env c a).1 := by
  obtain ⟨cleanup, heq⟩ := scheduleTailCleanupLocked_eq c (a.hash c.config) a.parent a.tokens
    a.extraKey
  have hc₁ : P (c.withTails c.tailLengths c.tailMetadata cleanup) := hP.beside hc rfl fun _ => id
  have hgone : a.hash c.config ∉ (PrefixCache.dropDeferred
      (c.withTails c.tailLengths c.tailMetadata cleanup) (a.hash c.config)).deferred :=
    fun hmem => (AList.mem_erase.mp hmem).1 rfl
  unfold PrefixCache.storeLocked
  dsimp only
  split
  · exact hc
  · rename_i hnew
    have hp := storeReady_notMem hready hnew
    split
    · -- a disposable RAM tier that can take the payload
      rename_i hspill
      rw [heq]
      split
      · rename_i e he
        split
        · have htouch : Move env _ (touchHot _ (a.hash c.config)) :=
            .touchHot (c.withTails c.tailLengths c.tailMetadata cleanup) _
          unfold touchHot at htouch
          rw [he] at htouch
          exact hP.move htouch hc₁
        · exact hP.storeDeferred a hc₁ hp hspill.2
      · exact hP.storeDeferred a hc₁ hp hspill.2
    · rename_i hspill
      split
      · rw [heq]
        split
        · exact hP.dropDeferred _ hc₁
        · exact hP.storeHotOnly a (hP.dropDeferred _ hc₁) hgone
      · rename_i hdisk
        have hclean : a.hash c.config ∉
            (enforceBudget env (reservedBytes (beforeWrite c a) a.payload.length)
              (beforeWrite c a)).deferred :=
          fun hmem => hno ⟨⟨hnew, hspill, hdisk⟩, hmem⟩
        unfold beforeWrite at hclean
        rw [heq] at hclean ⊢
        exact hP.storeWrite a (hP.dropDeferred _ hc₁) hp hclean

end Stores

/-! ### The invariant -/

/-- Bytes in the RAM tier. -/
def hotTotal (t : Table H HotEntry) : Nat := Table.total (fun e => e.payload.length) t

/-- Bytes in the indexed files. -/
def diskTotal (t : Table H (DiskEntry H)) : Nat := Table.total DiskEntry.fileBytes t

/-- Bytes queued for writing. -/
def pendingTotal (t : Table H Payload) : Nat := Table.total List.length t

/-- The counters are exact, nothing wrapped, and no block is both dirty and queued. -/
structure Accounted (c : Cache H) : Prop where
  hot : c.hotBytes = hotTotal c.hot
  disk : c.diskBytes = diskTotal c.disk
  pending : c.pendingWriteBytes = pendingTotal c.pending
  wraps : c.wraps = 0
  clean : ∀ h, h ∈ c.deferred → h ∉ c.pending

theorem hotSize_le {c : Cache H} (h : H) : hotSize c h ≤ hotTotal c.hot := by
  unfold hotSize
  cases hh : c.hot.lookup h with
  | none => simp
  | some e => exact Table.le_total (fun e : HotEntry => e.payload.length) hh

theorem diskSize_le {c : Cache H} (h : H) : diskSize c h ≤ diskTotal c.disk := by
  unfold diskSize
  cases hd : c.disk.lookup h with
  | none => simp
  | some e => exact Table.le_total DiskEntry.fileBytes hd

theorem hotTotal_erase (c : Cache H) (h : H) :
    hotTotal (c.hot.erase h) = hotTotal c.hot - hotSize c h := by
  have hsum := Table.total_eq_erase (fun e : HotEntry => e.payload.length) c.hot h
  unfold hotTotal hotSize
  omega

theorem diskTotal_erase (c : Cache H) (h : H) :
    diskTotal (c.disk.erase h) = diskTotal c.disk - diskSize c h := by
  have hsum := Table.total_eq_erase DiskEntry.fileBytes c.disk h
  unfold diskTotal diskSize
  omega

namespace Accounted

variable {env : Env H} {c c' : Cache H}

/-! ### Single edits -/

theorem dropHot (hc : Accounted c) (h : H) : Accounted (dropHot c h) := by
  rw [dropHot_eq]
  have hle : hotSize c h ≤ c.hotBytes := hc.hot ▸ hotSize_le h
  refine ⟨?_, hc.disk, hc.pending, ?_, hc.clean⟩
  · show subU64 c.hotBytes (hotSize c h) = hotTotal (c.hot.erase h)
    rw [subU64_of_le hle, hotTotal_erase, hc.hot]
  · show c.wraps + borrow c.hotBytes (hotSize c h) = 0
    rw [borrow_of_le hle, hc.wraps]

theorem dropDisk (hc : Accounted c) (h : H) : Accounted (dropDisk c h) := by
  rw [dropDisk_eq]
  have hle : diskSize c h ≤ c.diskBytes := hc.disk ▸ diskSize_le h
  refine ⟨hc.hot, ?_, hc.pending, ?_, hc.clean⟩
  · show subU64 c.diskBytes (diskSize c h) = diskTotal (c.disk.erase h)
    rw [subU64_of_le hle, diskTotal_erase, hc.disk]
  · show c.wraps + borrow c.diskBytes (diskSize c h) = 0
    rw [borrow_of_le hle, hc.wraps]

theorem dropDeferred (hc : Accounted c) (h : H) : Accounted (dropDeferred c h) := by
  refine ⟨hc.hot, hc.disk, hc.pending, hc.wraps, ?_⟩
  intro k hk
  exact hc.clean k (AList.mem_erase.mp hk).2

theorem unlinkDisk (hc : Accounted c) (h : H) : Accounted (unlinkDisk env c h) := by
  have hc' : Accounted (removeText env (removeFile env c h) h) :=
    ⟨hc.hot, hc.disk, hc.pending, hc.wraps, hc.clean⟩
  exact hc'.dropDisk h

theorem defer (hc : Accounted c) (h : H) (w : WriteRequest H) (hp : h ∉ c.pending) :
    Accounted { c with deferred := c.deferred.insert h w } :=
  ⟨hc.hot, hc.disk, hc.pending, hc.wraps, Table.forall_mem_insert hc.clean hp⟩

theorem redefer (hc : Accounted c) (h : H) (e : DiskEntry H) (hp : h ∉ c.pending) :
    Accounted (redefer c h e) := by
  unfold PrefixCache.redefer
  split
  · exact hc
  · split
    · exact hc.defer h _ hp
    · exact hc

/-- A payload is queued; its block must be neither queued nor dirty. -/
theorem addPending (hc : Accounted c) (w : WriteRequest H) (hp : w.hash ∉ c.pending)
    (hd : w.hash ∉ c.deferred) : Accounted (addPending c w) := by
  refine ⟨hc.hot, hc.disk, ?_, hc.wraps, ?_⟩
  · show c.pendingWriteBytes + w.payload.length = pendingTotal (c.pending.insert w.hash w.payload)
    unfold pendingTotal
    rw [Table.total_insert_of_none List.length (AList.lookup_eq_none.mpr hp), hc.pending]
    exact Nat.add_comm _ _
  · intro k hk hq
    rcases (AList.mem_insert c.pending).mp hq with rfl | hold
    · exact hd hk
    · exact hc.clean k hk hold

theorem spillDeferred (hc : Accounted c) (h : H) : Accounted (spillDeferred c h) := by
  unfold PrefixCache.spillDeferred
  split
  · exact hc
  · rename_i w hw
    split
    · have hfresh : c.pending.lookup h = none :=
        AList.lookup_eq_none.mpr (hc.clean h (Table.mem_of_lookup hw))
      refine ⟨hc.hot, hc.disk, ?_, hc.wraps, ?_⟩
      · show c.pendingWriteBytes + w.payload.length = pendingTotal (c.pending.insert h w.payload)
        unfold pendingTotal
        rw [Table.total_insert_of_none List.length hfresh, hc.pending]
        exact Nat.add_comm _ _
      · intro k hk hq
        obtain ⟨hne, hold⟩ := AList.mem_erase.mp hk
        rcases (AList.mem_insert c.pending).mp hq with rfl | hq
        · exact hne rfl
        · exact hc.clean k hold hq
    · exact hc.dropDeferred h

theorem settlePending (hc : Accounted c) (h : H) : Accounted (settlePending c h) := by
  unfold PrefixCache.settlePending
  split
  · exact hc
  · rename_i p hp
    have hle : p.length ≤ pendingTotal c.pending := Table.le_total List.length hp
    refine ⟨hc.hot, hc.disk, ?_, hc.wraps, ?_⟩
    · show (if p.length > c.pendingWriteBytes then 0 else c.pendingWriteBytes - p.length) =
        pendingTotal (c.pending.erase h)
      rw [if_neg (by rw [hc.pending]; omega), hc.pending]
      exact (Table.total_erase_of_lookup List.length hp).symm
    · intro k hk hq
      exact hc.clean k hk (AList.mem_erase.mp hq).2

theorem insertHot (hc : Accounted c) (h : H) (p : Payload) (hh : h ∉ c.hot) :
    Accounted (insertHot c h p) := by
  refine ⟨?_, hc.disk, hc.pending, hc.wraps, hc.clean⟩
  show c.hotBytes + p.length = hotTotal (c.hot.insert h ⟨p, c.clock + 1⟩)
  unfold hotTotal
  rw [Table.total_insert_of_none _ (AList.lookup_eq_none.mpr hh), hc.hot]
  exact Nat.add_comm _ _

/-- An index entry changes in nothing but its recency or its pins. -/
theorem setDisk (hc : Accounted c) {h : H} {e e' : DiskEntry H}
    (he : c.disk.lookup h = some e) (hbytes : e'.fileBytes = e.fileBytes) :
    Accounted { c with disk := c.disk.insert h e' } := by
  refine ⟨hc.hot, ?_, hc.pending, hc.wraps, hc.clean⟩
  show c.diskBytes = diskTotal (c.disk.insert h e')
  unfold diskTotal
  rw [Table.total_insert_of_same _ he hbytes, hc.disk]
  rfl

theorem touchHot (hc : Accounted c) (h : H) : Accounted (touchHot c h) := by
  unfold PrefixCache.touchHot
  split
  · exact hc
  · rename_i e he
    have hsame : hotTotal (c.hot.insert h { e with lastUsed := c.clock + 1 }) = hotTotal c.hot :=
      Table.total_insert_of_same (fun e : HotEntry => e.payload.length) he rfl
    exact ⟨hc.hot.trans hsame.symm, hc.disk, hc.pending, hc.wraps, hc.clean⟩

theorem touchDisk (hc : Accounted c) (h : H) : Accounted (touchDisk c h) := by
  unfold PrefixCache.touchDisk
  split
  · exact hc
  · rename_i e he
    have hset : Accounted { c with disk := c.disk.insert h { e with lastUsed := c.clock + 1 } } :=
      hc.setDisk he rfl
    exact ⟨hset.hot, hset.disk, hset.pending, hset.wraps, hset.clean⟩

/-! ### Housekeeping -/

theorem ramMove (hm : RamMove c c') (hc : Accounted c) : Accounted c' := by
  cases hm with
  | tails => exact ⟨hc.hot, hc.disk, hc.pending, hc.wraps, hc.clean⟩
  | evictHot h => exact (hc.spillDeferred h).dropHot h

theorem diskMove (hm : DiskMove env c c') (hc : Accounted c) : Accounted c' := by
  cases hm with
  | tails => exact ⟨hc.hot, hc.disk, hc.pending, hc.wraps, hc.clean⟩
  | evictDisk h e _ evictable =>
    have hp : h ∉ c.pending := by
      intro hmem
      simp [diskEvictable, hmem] at evictable
    exact (hc.redefer h e hp).unlinkDisk h

theorem move (hm : Move env c c') (hc : Accounted c) : Accounted c' := by
  cases hm with
  | ram hm => exact hc.ramMove hm
  | disk hm => exact hc.diskMove hm
  | touchHot h => exact hc.touchHot h
  | touchDisk h => exact hc.touchDisk h
  | supersede h =>
    split
    · exact ((hc.unlinkDisk h).dropHot h).dropDeferred h
    · exact (hc.dropHot h).dropDeferred h

theorem trimming (ht : Trimming c c') (hc : Accounted c) : Accounted c' :=
  keeps (fun _ _ hm hc => ramMove hm hc) ht hc

theorem putHotLocked (hc : Accounted c) (h : H) (p : Payload) : Accounted (putHotLocked c h p) := by
  unfold PrefixCache.putHotLocked
  split
  · refine trimming (Trimming.trimHotLocked _ _) ?_
    refine (hc.dropHot h).insertHot h p ?_
    rw [dropHot_eq]
    intro hmem
    exact (AList.mem_erase.mp hmem).1 rfl
  · exact hc.dropHot h

theorem eraseCorruptLocked (hc : Accounted c) (h : H) :
    Accounted (eraseCorruptLocked env c h).1 := by
  unfold PrefixCache.eraseCorruptLocked
  have hd := hc.dropDeferred h
  dsimp only
  split
  · refine trimming (Trimming.forget _ h) ?_
    split
    · exact (hd.unlinkDisk h).dropHot h
    · exact hd.dropHot h
  · exact hd

/-! ### Storing and writing -/

theorem storeDeferred (hc : Accounted c) (a : StoreArgs H)
    (hp : a.hash c.config ∉ c.pending) : Accounted (storeDeferred env c a) := by
  unfold PrefixCache.storeDeferred
  refine trimming (Trimming.ramPressure env _) ?_
  refine keeps (fun _ _ hm hc => move hm hc) (Housekeeping.pruneTailCleanup _) ?_
  refine trimming (Trimming.remember _ _ _ _) ?_
  exact (hc.defer _ _ hp).putHotLocked _ _

theorem registerFile (hc : Accounted c) (w : WriteRequest H) (file : Payload) :
    Accounted (registerFile c w file) := by
  have hd := hc.dropDisk w.hash
  have habsent : (PrefixCache.dropDisk c w.hash).disk.lookup w.hash = none := by
    rw [dropDisk_eq]
    exact AList.lookup_erase w.hash c.disk
  unfold PrefixCache.registerFile
  dsimp only
  refine ⟨hd.hot, ?_, hd.pending, hd.wraps, hd.clean⟩
  dsimp only
  unfold diskTotal
  rw [Table.total_insert_of_none _ habsent, hd.disk]
  exact Nat.add_comm _ _

theorem stores : Stores (Accounted (H := H)) where
  beside hc h _ := by
    simp only [Cache.tiers, Prod.mk.injEq] at h
    obtain ⟨hhot, hhotBytes, hdisk, hdiskBytes, hdeferred, hpending, hpendingBytes, hwraps, -⟩ := h
    exact ⟨hhot ▸ hhotBytes ▸ hc.hot, hdisk ▸ hdiskBytes ▸ hc.disk,
      hpending ▸ hpendingBytes ▸ hc.pending, hwraps ▸ hc.wraps, hdeferred ▸ hpending ▸ hc.clean⟩
  move hm hc := move hm hc
  erase h hc := hc.eraseCorruptLocked h
  dropDisk h hc := hc.dropDisk h
  dropEntry h hc := ((hc.dropDisk h).dropHot h).dropDeferred h
  setPins n hc he := hc.setDisk he rfl
  settlePending h hc := hc.settlePending h
  registerFile w file hc := hc.registerFile w file
  dropDeferred h hc := hc.dropDeferred h
  putHotLocked p hc _ := hc.putHotLocked _ p
  storeDeferred a hc hp _ := hc.storeDeferred a hp
  addPending w hc hp hd := hc.addPending w hp hd
  enqueue _ hc := ⟨hc.hot, hc.disk, hc.pending, hc.wraps, hc.clean⟩

theorem finishRequests (hc : Accounted c) (requests : List (LoadRequest H)) :
    Accounted (finishRequests env c requests).1 := by
  induction requests generalizing c with
  | nil => exact hc
  | cons r rest ih =>
    unfold PrefixCache.finishRequests
    split
    · exact ih (hc.touchHot r.hash)
    · exact ih hc
    · rename_i p _
      exact ih ((hc.putHotLocked r.hash p).touchDisk r.hash)
    · exact stores.dropUnreadable r.hash hc

theorem sweep_wraps (c : Cache H) (keys : List H) :
    (keys.foldl (fun c h => removeText env (removeFile env c h) h) c).wraps = c.wraps := by
  induction keys generalizing c with
  | nil => rfl
  | cons h keys ih => exact ih _

theorem clearBegin (hc : Accounted c) : Accounted (clearBegin env c) := by
  refine ⟨rfl, rfl, rfl, ?_, fun h hh => absurd hh (AList.notMem_empty h)⟩
  exact (sweep_wraps c c.disk.keys).trans hc.wraps

theorem openCache (config : Config H) (found : List (FoundBlock H)) :
    Accounted (openCache env config found) := by
  unfold PrefixCache.openCache
  refine stores.enforcing (Enforcing.enforceBudget _ _ _) ?_
  have hempty : Accounted ({ config := config } : Cache H) :=
    ⟨rfl, rfl, rfl, rfl, fun h hh => absurd hh (AList.notMem_empty h)⟩
  generalize ({ config := config } : Cache H) = c at hempty
  induction found generalizing c with
  | nil => exact hempty
  | cons b found ih =>
    refine ih _ ?_
    unfold scanEntry
    split
    · exact hempty
    · rename_i hnew
      refine trimming (Trimming.remember _ _ _ _) ⟨hempty.hot, ?_, hempty.pending,
        hempty.wraps, hempty.clean⟩
      dsimp only
      unfold diskTotal
      rw [Table.total_insert_of_none _ (AList.lookup_eq_none.mpr hnew), hempty.disk]
      exact Nat.add_comm _ _

end Accounted

/-! ### Every step, every run -/

theorem accounted_step (s : System H) (a : Action H) (s' : System H) (hs : Accounted s.cache)
    (hok : NoRedefer s a) (hstep : step s a = some s') : Accounted s'.cache := by
  refine Accounted.stores.toKept.step hs ?_ ?_ ?_ hstep
  · rintro call args env rfl hready
    exact Accounted.stores.storeLocked args hs hready hok
  · rintro call env load rfl hload hepoch
    exact hs.finishRequests load.requests
  · rintro env rfl
    exact hs.clearBegin

theorem accounted_run {env : Env H} {config : Config H} {found : List (FoundBlock H)}
    {actions : List (Action H)} {s : System H}
    (hok : Meets step NoRedefer (initial env config found) actions)
    (hrun : run step (initial env config found) actions = some s) : Accounted s.cache :=
  run_invariant (I := fun s => Accounted s.cache) accounted_step
    (Accounted.openCache config found) hok hrun

/-- **Exact byte accounting.**  In every state of every run in which no `store` marks its own
    block dirty again, each counter is the sum of the sizes it counts, and no subtraction
    from a counter has wrapped on the way. -/
theorem byte_accounting_exact (env : Env H) (config : Config H) (found : List (FoundBlock H))
    (actions : List (Action H)) (s : System H)
    (hok : Meets step NoRedefer (initial env config found) actions)
    (hrun : run step (initial env config found) actions = some s) :
    s.cache.hotBytes = hotTotal s.cache.hot ∧ s.cache.diskBytes = diskTotal s.cache.disk ∧
      s.cache.pendingWriteBytes = pendingTotal s.cache.pending ∧ s.cache.wraps = 0 := by
  have hs := accounted_run hok hrun
  exact ⟨hs.hot, hs.disk, hs.pending, hs.wraps⟩

/-- A block is replaced in spill mode by a payload too large for RAM, on a full disk, while an
    older load of it is still reading. -/
def overwrittenQueue : List (Action Nat) :=
  [storeFirst 0 false [1], .trimHot 0] ++ writeThrough ++ coldRead 1 ++
    [.invalidate 5 {}, storeFirst 2 false [2], .trimHot 0] ++ writeThrough ++ coldRead 3 ++
    [.loadFinish 3 {}, storeFirst 4 true [3, 3, 3], .loadFinish 1 {}, .trimHot 0]

/-- The queue counter is off after that run: it still counts the payload the trim overwrote. -/
theorem overwrittenQueue_miscounts :
    ∃ s, run step (initial {} (smallConfig 200 2 true) []) overwrittenQueue = some s ∧
      s.cache.pendingWriteBytes ≠ pendingTotal s.cache.pending := by
  have hrun : (run step (initial {} (smallConfig 200 2 true) []) overwrittenQueue).map
      (fun s => (s.cache.pendingWriteBytes, pendingTotal s.cache.pending)) = some (4, 1) := by
    decide
  obtain ⟨s, hs, hcount⟩ := Option.map_eq_some_iff.mp hrun
  obtain ⟨hcounter, hsum⟩ := Prod.mk.injEq .. ▸ hcount
  exact ⟨s, hs, by omega⟩

/-- The accounting theorem on a run that stores, spills, writes, reloads and replaces. -/
theorem byte_accounting_exact_replayed :
    ∃ s, run step (initial {} (smallConfig 1000 10 true) [])
        ([storeFirst 0 false [1], .trimHot 0] ++ writeThrough ++ coldRead 1 ++
          [.loadFinish 1 {}, storeFirst 2 true [2, 2]]) = some s ∧
      s.cache.hotBytes = hotTotal s.cache.hot ∧ s.cache.diskBytes = diskTotal s.cache.disk ∧
      s.cache.pendingWriteBytes = pendingTotal s.cache.pending ∧ s.cache.wraps = 0 := by
  have hrun : (run step (initial {} (smallConfig 1000 10 true) [])
      ([storeFirst 0 false [1], .trimHot 0] ++ writeThrough ++ coldRead 1 ++
        [.loadFinish 1 {}, storeFirst 2 true [2, 2]])).isSome = true := by
    decide
  obtain ⟨s, hs⟩ := Option.isSome_iff_exists.mp hrun
  exact ⟨s, hs, byte_accounting_exact {} _ [] _ s (by decide) hs⟩

end TyloQuant.PrefixCache
