import TyloQuant.PrefixCache.Accounting
import TyloQuant.PrefixCache.Contents

/-!
# An empty cache stays empty

What `clear` leaves behind is a cache with nothing in its maps, together with calls that were
in flight when it started: writers of an older epoch, loads that leased blocks of an older
epoch, matches between two checks.  None of them puts anything back.  Only a `store` does,
and only one after which some tier has its block.
-/

namespace TyloQuant.PrefixCache

open Lib

variable {H : Type} [DecidableEq H]

/-! ### An empty cache stays empty -/

/-- Every index and every byte counter of the cache is empty. -/
structure Emptied (c : Cache H) : Prop where
  writes : c.writes = []
  pending : c.pending = ∅
  disk : c.disk = ∅
  hot : c.hot = ∅
  deferred : c.deferred = ∅
  diskBytes : c.diskBytes = 0
  hotBytes : c.hotBytes = 0
  pendingWriteBytes : c.pendingWriteBytes = 0

theorem erase_empty {V : Type} (h : H) : (∅ : Table H V).erase h = ∅ :=
  erase_of_lookup_none (AList.lookup_empty h)

namespace Emptied

variable {env : Env H} {c c' : Cache H}

theorem hot_none (hc : Emptied c) (h : H) : c.hot.lookup h = none := by
  rw [hc.hot]
  exact AList.lookup_empty h

theorem disk_none (hc : Emptied c) (h : H) : c.disk.lookup h = none := by
  rw [hc.disk]
  exact AList.lookup_empty h

theorem pending_none (hc : Emptied c) (h : H) : c.pending.lookup h = none := by
  rw [hc.pending]
  exact AList.lookup_empty h

theorem notMem_disk (hc : Emptied c) (h : H) : h ∉ c.disk :=
  AList.lookup_eq_none.mp (hc.disk_none h)

theorem notMem_hot (hc : Emptied c) (h : H) : h ∉ c.hot := AList.lookup_eq_none.mp (hc.hot_none h)

theorem available (hc : Emptied c) (h : H) : c.available h = false := by
  have hp : h ∉ c.pending := AList.lookup_eq_none.mp (hc.pending_none h)
  simp [Cache.available, hc.notMem_disk h, hp, hc.notMem_hot h]

theorem dropHot (hc : Emptied c) (h : H) : dropHot c h = c := by
  unfold PrefixCache.dropHot
  rw [hc.hot_none h]

theorem dropDisk (hc : Emptied c) (h : H) : dropDisk c h = c := by
  unfold PrefixCache.dropDisk
  rw [hc.disk_none h]

theorem dropDeferred (hc : Emptied c) (h : H) : Emptied (dropDeferred c h) := by
  refine ⟨hc.writes, hc.pending, hc.disk, hc.hot, ?_, hc.diskBytes, hc.hotBytes,
    hc.pendingWriteBytes⟩
  show c.deferred.erase h = ∅
  rw [hc.deferred]
  exact erase_empty h

omit [DecidableEq H] in
theorem withTails (hc : Emptied c) (lengths : Table H (Table Nat Nat))
    (metadata : Table H (H × Nat)) (cleanup : Table H (List H)) :
    Emptied (c.withTails lengths metadata cleanup) :=
  ⟨hc.writes, hc.pending, hc.disk, hc.hot, hc.deferred, hc.diskBytes, hc.hotBytes,
    hc.pendingWriteBytes⟩

theorem move (hm : Move env c c') (hc : Emptied c) : Emptied c' := by
  cases hm with
  | ram hm =>
    cases hm with
    | tails lengths metadata cleanup => exact hc.withTails lengths metadata cleanup
    | evictHot h e he =>
      rw [hc.hot_none h] at he
      cases he
  | disk hm =>
    cases hm with
    | tails lengths metadata cleanup => exact hc.withTails lengths metadata cleanup
    | evictDisk h e he =>
      rw [hc.disk_none h] at he
      cases he
  | touchHot h =>
    unfold touchHot
    rw [hc.hot_none h]
    exact hc
  | touchDisk h =>
    unfold touchDisk
    rw [hc.disk_none h]
    exact hc
  | supersede h =>
    rw [if_neg (hc.notMem_disk h), hc.dropHot h]
    exact hc.dropDeferred h

theorem housekeeping (ht : Housekeeping env c c') (hc : Emptied c) : Emptied c' :=
  keeps (fun _ _ hm hc => move hm hc) ht hc

theorem trimming (ht : Trimming c c') (hc : Emptied c) : Emptied c' :=
  hc.housekeeping (ht.housekeeping {})

theorem enforcing (ht : Enforcing env c c') (hc : Emptied c) : Emptied c' :=
  hc.housekeeping ht.housekeeping

theorem eraseCorruptLocked (hc : Emptied c) (h : H) : Emptied (eraseCorruptLocked env c h).1 := by
  have hd := hc.dropDeferred h
  unfold PrefixCache.eraseCorruptLocked
  dsimp only
  rw [if_neg]
  · exact hd
  · rintro (hmem | hmem)
    · exact hd.notMem_disk h hmem
    · exact hd.notMem_hot h hmem

/-- A write of an older epoch indexes nothing. -/
theorem finishWrite (hc : Emptied c) (w : WriteRequest H) (success : Bool)
    (hold : w.epoch < c.cacheEpoch) : Emptied (finishWrite env c w success) := by
  have hsettle : settlePending c w.hash = c := by
    unfold settlePending
    rw [hc.pending_none w.hash]
  unfold PrefixCache.finishWrite
  rw [hsettle]
  refine housekeeping (Housekeeping.pruneTailCleanup _) ?_
  refine trimming (Trimming.forget _ _) ?_
  unfold settleFile
  rw [if_neg (by omega)]
  split
  · exact hc
  · exact ⟨hc.writes, hc.pending, hc.disk, hc.hot, hc.deferred, hc.diskBytes, hc.hotBytes,
      hc.pendingWriteBytes⟩

theorem writerLoopHead (hc : Emptied c) (env : Env H) :
    Emptied (writerLoopHead env c).1 ∧ (writerLoopHead env c).2 = none := by
  have hr : Emptied (if c.clearing then c else trimForRamPressureLocked env c) := by
    split
    · exact hc
    · exact trimming (Trimming.ramPressure env c) hc
  unfold PrefixCache.writerLoopHead
  dsimp only
  generalize (if c.clearing then c else trimForRamPressureLocked env c) = c₁ at *
  split
  · have he := enforcing (Enforcing.enforceDiskBudget env 0 1 c₁) hr
    exact ⟨⟨he.writes, he.pending, he.disk, he.hot, he.deferred, he.diskBytes,
      he.hotBytes, he.pendingWriteBytes⟩, rfl⟩
  · rw [hr.writes]
    exact ⟨hr, rfl⟩

theorem leaseLocked (hc : Emptied c) (blocks : List H) : leaseLocked c blocks = (c, []) := by
  cases blocks with
  | nil => rfl
  | cons h rest =>
    unfold PrefixCache.leaseLocked
    rw [hc.hot_none h, hc.pending_none h, hc.disk_none h]

theorem pins : Pins (Emptied (H := H)) where
  pins _ hc := ⟨hc.writes, hc.pending, hc.disk, hc.hot, hc.deferred, hc.diskBytes,
    hc.hotBytes, hc.pendingWriteBytes⟩
  entry _ hc he := nomatch (hc.disk_none _).symm.trans he

theorem sections : Sections (fun _ => True) (Emptied (H := H)) where
  limits _ _ hc := ⟨hc.writes, hc.pending, hc.disk, hc.hot, hc.deferred, hc.diskBytes,
    hc.hotBytes, hc.pendingWriteBytes⟩
  vanish _ _ hc := ⟨hc.writes, hc.pending, hc.disk, hc.hot, hc.deferred, hc.diskBytes,
    hc.hotBytes, hc.pendingWriteBytes⟩
  pins := pins
  erase h _ hc := hc.eraseCorruptLocked h
  enforceBudget _ := enforcing (Enforcing.enforceBudget _ _ _)
  trimHotLocked n := trimming (Trimming.trimHotLocked n _)

theorem refreshDiskIndex (hc : Emptied c) : Emptied (refreshDiskIndex env c) := by
  unfold PrefixCache.refreshDiskIndex
  refine List.foldlRecOn _ _ hc fun c hc h _ => ?_
  unfold refreshEntry
  split
  · exact hc
  · rw [hc.dropDisk h, hc.dropHot h]
    exact trimming (Trimming.forget _ _) (hc.dropDeferred h)

/-- A `match` finds nothing and moves on to its end. -/
theorem advanceMatch (hc : Emptied c) (env : Env H) (m : MatchCall H) :
    Emptied (advanceMatch env c m).1 ∧ (advanceMatch env c m).2.blocks = m.blocks ∧
      (m.phase = .done → (advanceMatch env c m).2 = m) := by
  have hcheck : ∀ h parent count, checkBlock env c h parent count = (c, false) := by
    intro h parent count
    unfold checkBlock
    rw [hc.disk_none h, hc.available h]
  unfold PrefixCache.advanceMatch
  cases hphase : m.phase with
  | full =>
    dsimp only
    split
    · exact ⟨hc, rfl, fun hdone => by cases hdone⟩
    · rw [hcheck]
      exact ⟨hc, rfl, fun hdone => by cases hdone⟩
  | lookup => exact ⟨hc, rfl, fun hdone => by cases hdone⟩
  | tails lengths =>
    cases lengths with
    | nil => exact ⟨hc, rfl, fun hdone => by cases hdone⟩
    | cons count rest =>
      dsimp only
      rw [hcheck]
      exact ⟨hc, rfl, fun hdone => by cases hdone⟩
  | done => exact ⟨hc, rfl, fun _ => rfl⟩

end Emptied

/-! ### A store that adds nothing -/

/-- The action is a `store` or a `replace` after which some tier has its block. -/
def addsBlock (s : System H) : Action H → Prop
  | .store _ args env =>
    (storeLocked env s.cache args).1.available (args.hash s.cache.config) = true
  | _ => False

/-- At most block `h` is in the cache, in RAM or queued, and the counters agree. -/
structure Lone (h : H) (c : Cache H) : Prop where
  hot : ∀ k, k ∈ c.hot → k = h
  pending : ∀ k, k ∈ c.pending → k = h
  disk : c.disk = ∅
  diskBytes : c.diskBytes = 0
  deferred : ∀ k w, c.deferred.lookup k = some w → w.hash = k ∧ k ∈ c.hot
  writes : ∀ w ∈ c.writes, w.hash ∈ c.pending
  hotBytes : c.hotBytes = hotTotal c.hot
  pendingWriteBytes : c.pending = ∅ → c.pendingWriteBytes = 0

omit [DecidableEq H] in
theorem eq_empty_of_notMem {V : Type} {t : Table H V} (h : ∀ k, k ∉ t) : t = ∅ := by
  refine AList.ext (List.eq_nil_iff_forall_not_mem.mpr fun e he => ?_)
  exact h e.1 (AList.mem_keys.mpr (List.mem_map.mpr ⟨e, he, rfl⟩))

namespace Lone

variable {env : Env H} {c c' : Cache H} {h : H}

theorem of_emptied (hc : Emptied c) (h : H) : Lone h c where
  hot := fun k hk => absurd hk (hc.notMem_hot k)
  pending := fun k hk => absurd hk (AList.lookup_eq_none.mp (hc.pending_none k))
  disk := hc.disk
  diskBytes := hc.diskBytes
  deferred := fun k w hw => by
    rw [hc.deferred, AList.lookup_empty] at hw
    cases hw
  writes := fun w hw => by
    rw [hc.writes] at hw
    cases hw
  hotBytes := by
    rw [hc.hotBytes, hc.hot]
    rfl
  pendingWriteBytes := fun _ => hc.pendingWriteBytes

theorem emptied (hl : Lone h c) (hgone : c.available h = false) : Emptied c := by
  simp only [Cache.available, decide_eq_false_iff_not, not_or] at hgone
  have hhot : c.hot = ∅ := eq_empty_of_notMem fun k hk => hgone.2.2 (hl.hot k hk ▸ hk)
  have hpending : c.pending = ∅ := eq_empty_of_notMem fun k hk => hgone.2.1 (hl.pending k hk ▸ hk)
  refine ⟨?_, hpending, hl.disk, hhot, ?_, hl.diskBytes, ?_,
    hl.pendingWriteBytes hpending⟩
  · refine List.eq_nil_iff_forall_not_mem.mpr fun w hw => ?_
    have hmem := hl.writes w hw
    rw [hpending] at hmem
    exact AList.notMem_empty _ hmem
  · refine eq_empty_of_notMem fun k hk => ?_
    obtain ⟨w, hw⟩ := (Table.mem_iff _ _).mp hk
    have hmem := (hl.deferred k w hw).2
    rw [hhot] at hmem
    exact AList.notMem_empty _ hmem
  · rw [hl.hotBytes, hhot]
    rfl

theorem withTails (hl : Lone h c) (lengths : Table H (Table Nat Nat))
    (metadata : Table H (H × Nat)) (cleanup : Table H (List H)) :
    Lone h (c.withTails lengths metadata cleanup) :=
  ⟨hl.hot, hl.pending, hl.disk, hl.diskBytes, hl.deferred, hl.writes, hl.hotBytes,
    hl.pendingWriteBytes⟩

theorem dropHot (hl : Lone h c) (k : H) (hclean : k ∉ c.deferred) : Lone h (dropHot c k) := by
  rw [dropHot_eq]
  have hle : hotSize c k ≤ c.hotBytes := hl.hotBytes ▸ hotSize_le k
  refine ⟨fun j hj => hl.hot j (AList.mem_erase.mp hj).2, hl.pending, hl.disk,
    hl.diskBytes, fun j w hw => ?_, hl.writes, ?_, hl.pendingWriteBytes⟩
  · obtain ⟨hhash, hmem⟩ := hl.deferred j w hw
    refine ⟨hhash, AList.mem_erase.mpr ⟨?_, hmem⟩⟩
    rintro rfl
    exact hclean (Table.mem_of_lookup hw)
  · show subU64 c.hotBytes (hotSize c k) = hotTotal (c.hot.erase k)
    rw [subU64_of_le hle, hotTotal_erase, hl.hotBytes]

theorem dropDeferred (hl : Lone h c) (k : H) : Lone h (dropDeferred c k) :=
  ⟨hl.hot, hl.pending, hl.disk, hl.diskBytes,
    fun j w hw => hl.deferred j w (Table.lookup_of_erase hw), hl.writes, hl.hotBytes,
    hl.pendingWriteBytes⟩

theorem spillDeferred (hl : Lone h c) (k : H) :
    Lone h (spillDeferred c k) ∧ k ∉ (spillDeferred c k).deferred := by
  have herased : k ∉ c.deferred.erase k := fun hmem => (AList.mem_erase.mp hmem).1 rfl
  unfold PrefixCache.spillDeferred
  split
  · rename_i hnone
    exact ⟨hl, AList.lookup_eq_none.mp hnone⟩
  · rename_i w hw
    obtain ⟨hhash, hmem⟩ := hl.deferred k w hw
    split
    · refine ⟨⟨hl.hot, fun j hj => ?_, hl.disk, hl.diskBytes,
        fun j v hv => hl.deferred j v (Table.lookup_of_erase hv), fun v hv => ?_, hl.hotBytes,
        fun hempty => ?_⟩, herased⟩
      · exact Table.forall_mem_insert hl.pending (hl.hot k hmem) j hj
      · rw [AList.mem_insert]
        rcases List.mem_append.mp hv with hold | hnew
        · exact Or.inr (hl.writes v hold)
        · rw [List.mem_singleton.mp hnew]
          exact Or.inl hhash
      · have hin : k ∈ c.pending.insert k w.payload := (AList.mem_insert _).mpr (Or.inl rfl)
        dsimp only at hempty
        rw [hempty] at hin
        exact absurd hin (AList.notMem_empty k)
    · exact ⟨hl.dropDeferred k, herased⟩

theorem move (hm : Move env c c') (hl : Lone h c) : Lone h c' := by
  have hnone : ∀ k, c.disk.lookup k = none := fun k => by
    rw [hl.disk]
    exact AList.lookup_empty k
  cases hm with
  | ram hm =>
    cases hm with
    | tails lengths metadata cleanup => exact hl.withTails lengths metadata cleanup
    | evictHot k =>
      obtain ⟨hspilled, hclean⟩ := hl.spillDeferred k
      exact hspilled.dropHot k hclean
  | disk hm =>
    cases hm with
    | tails lengths metadata cleanup => exact hl.withTails lengths metadata cleanup
    | evictDisk k e he =>
      rw [hnone k] at he
      cases he
  | touchHot k =>
    unfold touchHot
    split
    · exact hl
    · rename_i e he
      have hkeys : ∀ j, j ∈ c.hot.insert k { e with lastUsed := c.clock + 1 } ↔ j ∈ c.hot := by
        intro j
        rw [AList.mem_insert]
        refine ⟨?_, Or.inr⟩
        rintro (rfl | hold)
        · exact Table.mem_of_lookup he
        · exact hold
      have hsame : hotTotal (c.hot.insert k { e with lastUsed := c.clock + 1 }) =
          hotTotal c.hot :=
        Table.total_insert_of_same (fun e : HotEntry => e.payload.length) he rfl
      exact ⟨fun j hj => hl.hot j ((hkeys j).mp hj), hl.pending, hl.disk,
        hl.diskBytes, fun j w hw => ⟨(hl.deferred j w hw).1,
          (hkeys j).mpr (hl.deferred j w hw).2⟩, hl.writes, hl.hotBytes.trans hsame.symm,
        hl.pendingWriteBytes⟩
  | touchDisk k =>
    unfold touchDisk
    rw [hnone k]
    exact hl
  | supersede k =>
    have hnot : k ∉ c.disk := AList.lookup_eq_none.mp (hnone k)
    rw [if_neg hnot]
    -- the two edits commute; the dirty mark goes first
    have hcomm : PrefixCache.dropDeferred (PrefixCache.dropHot c k) k =
        PrefixCache.dropHot (PrefixCache.dropDeferred c k) k := by
      rw [dropHot_eq, dropHot_eq]
      rfl
    rw [hcomm]
    refine (hl.dropDeferred k).dropHot k ?_
    exact fun hmem => (AList.mem_erase.mp hmem).1 rfl

theorem housekeeping (ht : Housekeeping env c c') (hl : Lone h c) : Lone h c' :=
  keeps (fun _ _ hm hl => move hm hl) ht hl

theorem trimming (ht : Trimming c c') (hl : Lone h c) : Lone h c' :=
  hl.housekeeping (ht.housekeeping {})

theorem insertHot (hc : Emptied c) (p : Payload) (dirty : Table H (WriteRequest H))
    (hdirty : ∀ k w, dirty.lookup k = some w → w.hash = k ∧ k = h) :
    Lone h (insertHot { c with deferred := dirty } h p) where
  hot := fun k hk => ((AList.mem_insert _).mp hk).resolve_right (hc.notMem_hot k)
  pending := fun k hk => absurd hk (AList.lookup_eq_none.mp (hc.pending_none k))
  disk := hc.disk
  diskBytes := hc.diskBytes
  deferred := fun k w hw =>
    ⟨(hdirty k w hw).1, (AList.mem_insert _).mpr (Or.inl (hdirty k w hw).2)⟩
  writes := (of_emptied hc h).writes
  hotBytes := by
    show c.hotBytes + p.length = hotTotal (c.hot.insert h ⟨p, c.clock + 1⟩)
    unfold hotTotal
    rw [Table.total_insert_of_none _ (hc.hot_none h), hc.hotBytes, hc.hot]
    exact Nat.add_comm _ _
  pendingWriteBytes := fun _ => hc.pendingWriteBytes

end Lone

namespace Emptied

variable {c : Cache H}

theorem storeDeferred (hc : Emptied c) (env : Env H) (a : StoreArgs H)
    (hfits : fitsHot c a.payload = true) :
    Lone (a.hash c.config) (storeDeferred env c a) := by
  unfold PrefixCache.storeDeferred
  refine Lone.trimming (Trimming.ramPressure env _) ?_
  refine Lone.housekeeping (Housekeeping.pruneTailCleanup _) ?_
  refine Lone.trimming (Trimming.remember _ _ _ _) ?_
  unfold putHotLocked
  have hfits' : fitsHot { c with
      deferred := c.deferred.insert (a.hash c.config) (a.request c) } a.payload = true := hfits
  dsimp only
  rw [if_pos hfits']
  refine Lone.trimming (Trimming.trimHotLocked _ _) ?_
  have hdrop : PrefixCache.dropHot
      { c with deferred := c.deferred.insert (a.hash c.config) (a.request c) }
      (a.hash c.config) =
      { c with deferred := c.deferred.insert (a.hash c.config) (a.request c) } := by
    unfold PrefixCache.dropHot
    rw [hc.hot_none]
  rw [hdrop]
  refine Lone.insertHot hc a.payload _ fun k w hw => ?_
  rw [Table.lookup_insert_ite, hc.deferred, AList.lookup_empty] at hw
  split at hw
  · rename_i hk
    obtain rfl := Option.some.inj hw
    exact ⟨hk.symm, hk⟩
  · cases hw

theorem storeHotOnly (hc : Emptied c) (env : Env H) (a : StoreArgs H) :
    Lone (a.hash c.config) (storeHotOnly env c a) := by
  have hput : Lone (a.hash c.config) (putHotLocked c (a.hash c.config) a.payload) := by
    unfold putHotLocked
    rw [hc.dropHot]
    split
    · refine Lone.trimming (Trimming.trimHotLocked _ _) ?_
      refine Lone.insertHot hc a.payload c.deferred fun k w hw => ?_
      rw [hc.deferred, AList.lookup_empty] at hw
      cases hw
    · exact Lone.of_emptied hc _
  unfold PrefixCache.storeHotOnly
  refine Lone.housekeeping (Housekeeping.pruneTailCleanup _) ?_
  split
  · exact Lone.trimming (Trimming.remember _ _ _ _) hput
  · exact hput

end Emptied

/-- The branch of `store` that writes queues its block. -/
theorem storeWrite_available (env : Env H) (c : Cache H) (a : StoreArgs H) :
    (storeWrite env c a).1.available (a.hash c.config) = true := by
  have hremember : ∀ (d : Cache H) (k : H), k ∈ d.pending →
      (rememberTailLocked d k a.parent a.tokens.length).available k = true := by
    intro d k hk
    obtain ⟨lengths, metadata, heq⟩ := rememberTailLocked_eq d k a.parent a.tokens.length
    rw [heq]
    simp [Cache.available, Cache.withTails, hk]
  unfold storeWrite
  dsimp only
  have hconf : (putHotLocked (enforceBudget env (reservedBytes c a.payload.length) c)
      (a.hash c.config) a.payload).config = c.config :=
    ((Steady.enforceBudget env _ c).trans (SameControl.putHotLocked _ _ _).steady).config
  generalize putHotLocked (enforceBudget env (reservedBytes c a.payload.length) c)
    (a.hash c.config) a.payload = d at *
  have hqueued : a.hash c.config ∈ (addPending d (a.request d)).pending := by
    refine (AList.mem_insert _).mpr (Or.inl ?_)
    rw [← hconf]
    rfl
  split
  · exact hremember (addPending d (a.request d)) _ hqueued
  · exact hremember _ _ hqueued

/-- A `store` into an empty cache that adds nothing leaves it empty. -/
theorem Emptied.storeLocked {env : Env H} {c : Cache H} (hc : Emptied c) (a : StoreArgs H)
    (hnone : (storeLocked env c a).1.available (a.hash c.config) = false) :
    Emptied (storeLocked env c a).1 ∧ (storeLocked env c a).2 = none := by
  have hconf := (Steady.storeLocked env c a).config
  have hc₁ : Emptied (scheduleTailCleanupLocked c (a.hash c.config) a.parent a.tokens
      a.extraKey) := hc.trimming (Trimming.schedule _ _ _ _ _)
  have hsteady := Steady.trimming
    (Trimming.schedule c (a.hash c.config) a.parent a.tokens a.extraKey)
  unfold PrefixCache.storeLocked at hnone ⊢
  dsimp only at hnone ⊢
  generalize scheduleTailCleanupLocked c (a.hash c.config) a.parent a.tokens a.extraKey = c₁ at *
  have hfits : fitsHot c a.payload = fitsHot c₁ a.payload := by
    unfold fitsHot
    rw [hsteady.config]
  rw [hc₁.hot_none] at hnone ⊢
  split at hnone
  · rename_i hpresent
    rcases hpresent.2 with hd | hp
    · exact absurd hd (hc.notMem_disk _)
    · exact absurd hp (AList.lookup_eq_none.mp (hc.pending_none _))
  · rename_i habsent
    rw [if_neg habsent]
    split at hnone
    · rename_i hspill
      rw [if_pos hspill]
      have hlone := hc₁.storeDeferred env a (hfits ▸ hspill.2)
      rw [hsteady.config] at hlone
      exact ⟨hlone.emptied hnone, rfl⟩
    · rename_i hspill
      rw [if_neg hspill]
      have hc₂ := hc₁.dropDeferred (a.hash c.config)
      have hconf₂ : (PrefixCache.dropDeferred c₁ (a.hash c.config)).config = c.config :=
        hsteady.config
      generalize PrefixCache.dropDeferred c₁ (a.hash c.config) = c₂ at *
      split at hnone
      · rename_i hdisk
        rw [if_pos hdisk, if_neg fun hhot => hc₂.notMem_hot _ hhot.2]
        rw [if_neg fun hhot => hc₂.notMem_hot _ hhot.2] at hnone
        have hlone := hc₂.storeHotOnly env a
        rw [hconf₂] at hlone
        exact ⟨hlone.emptied hnone, rfl⟩
      · have hadded := storeWrite_available env c₂ a
        rw [hconf₂, hnone] at hadded
        cases hadded

/-! ### Nothing but a store that adds a block fills an empty cache -/

/-- The cache is empty and nothing in flight will fill it: every write in flight is of an older
    epoch, and every load too or it found nothing. -/
structure Drained (s : System H) : Prop where
  cache : Emptied s.cache
  writers : ∀ id call, s.writers.lookup id = some call → call.phase ≠ .finished →
    call.request.epoch < s.cache.cacheEpoch
  loads : ∀ call load, s.loads.lookup call = some load →
    load.epoch < s.cache.cacheEpoch ∨ load.requests = []

omit [DecidableEq H] in
theorem Drained.requests {s : System H} (hs : Drained s) {call : Nat} {load : LoadCall H}
    (hload : s.loads.lookup call = some load) (hepoch : load.epoch = s.cache.cacheEpoch) :
    load.requests = [] :=
  (hs.loads call load hload).resolve_left (by omega)

theorem Drained.finishLoad {s : System H} (hs : Drained s) {env : Env H} {call : Nat}
    {load : LoadCall H} (hload : s.loads.lookup call = some load) :
    (finishLoad env s.cache load).2 = [] := by
  unfold PrefixCache.finishLoad
  split
  · rename_i hepoch
    rw [hs.requests hload hepoch]
    rfl
  · rfl

/-- **Nothing but a `store` fills a drained cache.** -/
theorem drained_step {s s' : System H} {a : Action H} (hs : Drained s) (ha : ¬addsBlock s a)
    (hstep : step s a = some s') : Drained s' := by
  have hc := hs.cache
  have hle := step_epoch_le hstep
  have hstore : ∀ call args env, a = .store call args env →
      Emptied (storeLocked env s.cache args).1 ∧ (storeLocked env s.cache args).2 = none := by
    rintro call args env rfl
    exact hc.storeLocked args (Bool.eq_false_iff.mpr ha)
  refine ⟨Emptied.sections.step hc (fun _ _ => trivial)
    (fun hw => step_writing hw ?_ ?_ ?_ ?_ hstep) ?_ ?_
    (fun _ _ => hc.refreshDiskIndex) ?_ hstep, ?_, ?_⟩
  · exact fun call args env ha _ => (hstore call args env ha).1
  · exact fun env _ => (hc.writerLoopHead env).1
  · exact fun _ _ => ⟨hc.writes, hc.pending, hc.disk, hc.hot, hc.deferred, hc.diskBytes,
      hc.hotBytes, hc.pendingWriteBytes⟩
  · exact fun writer env w success _ hw => hc.finishWrite w success (hs.writers writer _ hw (by simp))
  · exact fun _ _ => ⟨hc.writes, hc.pending, hc.disk, hc.hot, hc.deferred, hc.diskBytes,
      hc.hotBytes, hc.pendingWriteBytes⟩
  · intro call env load _ hload hepoch
    rw [hs.requests hload hepoch]
    exact hc
  · exact fun _ _ => ⟨rfl, rfl, rfl, rfl, rfl, rfl, rfl, rfl⟩
  · refine fun id call hcall hphase => (step_writers (Q := fun w => w.epoch < s.cache.cacheEpoch)
      hs.writers ?_ ?_ hstep id call hcall hphase).trans_le hle
    · intro call args env ha w hw
      rw [(hstore call args env ha).2] at hw
      cases hw
    · intro env _ w hw
      rw [(hc.writerLoopHead env).2] at hw
      cases hw
  · refine fun call load hload => (step_loads (Q := fun load => load.epoch < s.cache.cacheEpoch ∨
      load.requests = []) hs.loads ?_ ?_ hstep call load hload).imp_left fun hlt => hlt.trans_le hle
    · exact fun blocks => Or.inr (by rw [hc.leaseLocked])
    · intro load readable index requests hread hold
      refine hold.imp_right fun hnil => ?_
      rw [hnil] at hread
      simp [readRequest] at hread

end TyloQuant.PrefixCache
