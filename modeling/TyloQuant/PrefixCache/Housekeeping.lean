import TyloQuant.PrefixCache.System

/-!
# Housekeeping moves

Most of what a locked section does to the state is housekeeping: evict RAM blocks down to a limit,
evict files down to the budget, take superseded tails out, keep the tail tables and the recency
clock.  `Move` says once what a single act of housekeeping can be, and `Housekeeping` that every
helper of `Operations.lean` is a sequence of such acts, so that an invariant has to be checked
against the moves only.
-/

namespace TyloQuant.PrefixCache

open Lib

variable {H : Type} [DecidableEq H]

/-! ### Equations of the helpers -/

@[simp] theorem subU64_zero (a : Nat) : subU64 a 0 = a := by
  simp [subU64]

@[simp] theorem borrow_zero (a : Nat) : borrow a 0 = 0 := by
  simp [borrow]

variable {a b : Nat}

theorem subU64_of_le (h : b ≤ a) : subU64 a b = a - b := if_pos h

theorem borrow_of_le (h : b ≤ a) : borrow a b = 0 := if_pos h

variable {h : H}

theorem erase_of_lookup_none {V : Type} {t : Table H V} (hn : t.lookup h = none) :
    t.erase h = t := by
  apply AList.ext
  have hk : h ∉ t.entries.keys := AList.lookup_eq_none.mp hn
  exact List.kerase_of_notMem_keys hk

/-- Bytes of the RAM copy of a block, zero if there is none. -/
def hotSize (c : Cache H) (h : H) : Nat := ((c.hot.lookup h).map fun e => e.payload.length).getD 0

/-- Bytes of the indexed file of a block, zero if there is none. -/
def diskSize (c : Cache H) (h : H) : Nat := ((c.disk.lookup h).map DiskEntry.fileBytes).getD 0

theorem dropHot_eq (c : Cache H) (h : H) :
    dropHot c h =
      { c with
        hot := c.hot.erase h
        hotBytes := subU64 c.hotBytes (hotSize c h)
        wraps := c.wraps + borrow c.hotBytes (hotSize c h) } := by
  unfold dropHot hotSize
  cases hh : c.hot.lookup h with
  | none => simp [erase_of_lookup_none hh]
  | some e => rfl

theorem dropDisk_eq (c : Cache H) (h : H) :
    dropDisk c h =
      { c with
        disk := c.disk.erase h
        diskBytes := subU64 c.diskBytes (diskSize c h)
        wraps := c.wraps + borrow c.diskBytes (diskSize c h) } := by
  unfold dropDisk diskSize
  cases hd : c.disk.lookup h with
  | none => simp [erase_of_lookup_none hd]
  | some e => rfl

/-- The file and the text of a block are removed together with its index entry. -/
def unlinkDisk (env : Env H) (c : Cache H) (h : H) : Cache H :=
  dropDisk (removeText env (removeFile env c h) h) h

/-! ### Moves -/

/-- The tail tables are rewritten; nothing else changes. -/
def Cache.withTails (c : Cache H) (lengths : Table H (Table Nat Nat))
    (metadata : Table H (H × Nat)) (cleanup : Table H (List H)) : Cache H :=
  { c with tailLengths := lengths, tailMetadata := metadata, tailCleanup := cleanup }

/-- One act of trimming the RAM tier. -/
inductive RamMove : Cache H → Cache H → Prop
  | tails (c : Cache H) (lengths : Table H (Table Nat Nat)) (metadata : Table H (H × Nat))
      (cleanup : Table H (List H)) : RamMove c (c.withTails lengths metadata cleanup)
  | evictHot (c : Cache H) (h : H) (e : HotEntry) (hot : c.hot.lookup h = some e)
      (evictable : hotEvictable c h = true) : RamMove c (dropHot (spillDeferred c h) h)

/-- One act of enforcing the disk budget.  `env` tells which removals fail. -/
inductive DiskMove (env : Env H) : Cache H → Cache H → Prop
  | tails (c : Cache H) (lengths : Table H (Table Nat Nat)) (metadata : Table H (H × Nat))
      (cleanup : Table H (List H)) : DiskMove env c (c.withTails lengths metadata cleanup)
  | evictDisk (c : Cache H) (h : H) (e : DiskEntry H) (disk : c.disk.lookup h = some e)
      (evictable : diskEvictable c h e = true) (removed : env.removeFails h = false) :
      DiskMove env c (unlinkDisk env (redefer c h e) h)

/-- One act of housekeeping. -/
inductive Move (env : Env H) : Cache H → Cache H → Prop
  | ram {c c' : Cache H} (move : RamMove c c') : Move env c c'
  | disk {c c' : Cache H} (move : DiskMove env c c') : Move env c c'
  | touchHot (c : Cache H) (h : H) : Move env c (touchHot c h)
  | touchDisk (c : Cache H) (h : H) : Move env c (touchDisk c h)
  | supersede (c : Cache H) (h : H) (free : supersedeBlocked env c h = false) :
      Move env c (dropDeferred (dropHot (if h ∈ c.disk then unlinkDisk env c h else c) h) h)

/-- RAM evictions only. -/
abbrev Trimming : Cache H → Cache H → Prop := Relation.ReflTransGen RamMove

/-- Disk evictions only. -/
abbrev Enforcing (env : Env H) : Cache H → Cache H → Prop := Relation.ReflTransGen (DiskMove env)

/-- A sequence of moves. -/
abbrev Housekeeping (env : Env H) : Cache H → Cache H → Prop := Relation.ReflTransGen (Move env)

omit [DecidableEq H] in
/-- **The move rule.**  What every move keeps, a sequence of moves keeps. -/
theorem keeps {M : Cache H → Cache H → Prop} {P : Cache H → Prop} {c c' : Cache H}
    (hmove : ∀ c c', M c c' → P c → P c') (h : Relation.ReflTransGen M c c') (hc : P c) :
    P c' := by
  induction h with
  | refl => exact hc
  | tail _ hlast ih => exact hmove _ _ hlast ih

theorem Trimming.housekeeping (env : Env H) {c c' : Cache H} (h : Trimming c c') :
    Housekeeping env c c' :=
  Relation.ReflTransGen.mono (fun _ _ hm => Move.ram hm) _ _ h

variable {env : Env H}

theorem Enforcing.housekeeping {c c' : Cache H} (h : Enforcing env c c') : Housekeeping env c c' :=
  Relation.ReflTransGen.mono (fun _ _ hm => Move.disk hm) _ _ h

/-! ### Tail bookkeeping -/

/-- Forgetting a tail rewrites the tail tables only. -/
theorem forgetTailIfUnusedLocked_eq (c : Cache H) (h : H) :
    ∃ lengths metadata,
      forgetTailIfUnusedLocked c h = c.withTails lengths metadata c.tailCleanup := by
  unfold forgetTailIfUnusedLocked
  split
  · exact ⟨c.tailLengths, c.tailMetadata, rfl⟩
  · split
    · exact ⟨c.tailLengths, c.tailMetadata, rfl⟩
    · exact ⟨_, _, rfl⟩

theorem rememberTailLocked_eq (c : Cache H) (h parent : H) (count : Nat) :
    ∃ lengths metadata,
      rememberTailLocked c h parent count = c.withTails lengths metadata c.tailCleanup := by
  unfold rememberTailLocked
  split
  · exact ⟨c.tailLengths, c.tailMetadata, rfl⟩
  · exact ⟨_, _, rfl⟩

theorem scheduleTailCleanupLocked_eq (c : Cache H) (h parent : H) (tokens : List Int)
    (extraKey : String) :
    ∃ cleanup, scheduleTailCleanupLocked c h parent tokens extraKey =
      c.withTails c.tailLengths c.tailMetadata cleanup := by
  unfold scheduleTailCleanupLocked
  split
  · exact ⟨c.tailCleanup, rfl⟩
  · split
    · exact ⟨c.tailCleanup, rfl⟩
    · exact ⟨_, rfl⟩

theorem Trimming.withTails (c : Cache H) (lengths : Table H (Table Nat Nat))
    (metadata : Table H (H × Nat)) (cleanup : Table H (List H)) :
    Trimming c (c.withTails lengths metadata cleanup) :=
  .single (.tails c lengths metadata cleanup)

theorem Trimming.forget (c : Cache H) (h : H) : Trimming c (forgetTailIfUnusedLocked c h) := by
  obtain ⟨lengths, metadata, heq⟩ := forgetTailIfUnusedLocked_eq c h
  rw [heq]
  exact Trimming.withTails c lengths metadata _

theorem Trimming.remember (c : Cache H) (h parent : H) (count : Nat) :
    Trimming c (rememberTailLocked c h parent count) := by
  obtain ⟨lengths, metadata, heq⟩ := rememberTailLocked_eq c h parent count
  rw [heq]
  exact Trimming.withTails c lengths metadata _

theorem Trimming.schedule (c : Cache H) (h parent : H) (tokens : List Int)
    (extraKey : String) :
    Trimming c (scheduleTailCleanupLocked c h parent tokens extraKey) := by
  obtain ⟨cleanup, heq⟩ := scheduleTailCleanupLocked_eq c h parent tokens extraKey
  rw [heq]
  exact Trimming.withTails c _ _ cleanup

/-! ### The RAM tier -/

theorem Trimming.trimHotLoop (targetBytes fuel : Nat) (c : Cache H) :
    Trimming c (trimHotLoop targetBytes fuel c) := by
  induction fuel generalizing c with
  | zero => exact .refl
  | succ fuel ih =>
    unfold PrefixCache.trimHotLoop
    split
    · exact .refl
    · split
      · exact .refl
      · rename_i victim hvictim
        obtain ⟨hlookup, hevict⟩ := Table.leastRecent_some hvictim
        have hone : Trimming c (evictHot c victim.1) :=
          .trans (.single (.evictHot c victim.1 victim.2 hlookup hevict)) (Trimming.forget _ _)
        exact hone.trans (ih _)

theorem Trimming.trimHotLocked (targetBytes : Nat) (c : Cache H) :
    Trimming c (trimHotLocked targetBytes c).1 :=
  Trimming.trimHotLoop targetBytes _ c

theorem Trimming.ramPressure (env : Env H) (c : Cache H) :
    Trimming c (trimForRamPressureLocked env c) := by
  unfold trimForRamPressureLocked
  split
  · exact .refl
  · split
    · exact .refl
    · exact Trimming.trimHotLocked _ c

/-! ### The disk tier -/

variable {e : DiskEntry H}

theorem Enforcing.evictDisk {c : Cache H} (disk : c.disk.lookup h = some e)
    (evictable : diskEvictable c h e = true) (removed : env.removeFails h = false) :
    Enforcing env c (evictDisk env c h e) := by
  refine .trans (.single (.evictDisk c h e disk evictable removed)) ?_
  -- removing the files and marking the block dirty touch different fields
  have hcomm : removeText env (removeFile env (redefer c h e) h) h =
      redefer (removeText env (removeFile env c h) h) h e := by
    unfold redefer removeText removeFile
    dsimp only
    cases c.hot.lookup h with
    | none => rfl
    | some hot =>
      by_cases hd : c.config.spillHotOnEviction = true ∧ h ∉ c.deferred
      · simp only [if_pos hd]
      · simp only [if_neg hd]
  unfold unlinkDisk PrefixCache.evictDisk
  rw [hcomm]
  obtain ⟨lengths, metadata, heq⟩ := forgetTailIfUnusedLocked_eq
    (dropDisk (redefer (removeText env (removeFile env c h) h) h e) h) h
  rw [heq]
  exact .single (.tails _ lengths metadata _)

theorem Enforcing.enforceLoop (env : Env H) (target maxEvictions fuel evicted : Nat)
    (c : Cache H) : Enforcing env c (enforceLoop env target maxEvictions fuel evicted c).1 := by
  induction fuel generalizing c evicted with
  | zero => exact .refl
  | succ fuel ih =>
    unfold PrefixCache.enforceLoop
    split
    · exact .refl
    · split
      · exact .refl
      · rename_i victim hvictim
        obtain ⟨hlookup, hevict⟩ := Table.leastRecent_some hvictim
        split
        · exact .refl
        · rename_i hremove
          have hone : Enforcing env c (PrefixCache.evictDisk env c victim.1 victim.2) :=
            Enforcing.evictDisk hlookup hevict (by simpa using hremove)
          split
          · exact hone
          · exact hone.trans (ih (evicted + 1) _)

theorem Enforcing.enforceDiskBudget (env : Env H) (reserved maxEvictions : Nat)
    (c : Cache H) : Enforcing env c (enforceDiskBudgetLocked env reserved maxEvictions c).1 :=
  Enforcing.enforceLoop env _ _ _ _ c

theorem Enforcing.enforceBudget (env : Env H) (reserved : Nat) (c : Cache H) :
    Enforcing env c (enforceBudget env reserved c) :=
  Enforcing.enforceDiskBudget env reserved u64Max c

/-! ### Superseded tails -/

theorem Housekeeping.pruneVictims (c : Cache H) (victims : List H) :
    Housekeeping env c (pruneVictims env c victims).1 := by
  induction victims generalizing c with
  | nil => exact .refl
  | cons victim rest ih =>
    unfold PrefixCache.pruneVictims
    split
    · exact ih c
    · rename_i hfree
      have hone : Housekeeping env c (supersede env c victim) :=
        .trans (.single (.supersede c victim (by simpa using hfree)))
          ((Trimming.forget _ _).housekeeping env)
      exact hone.trans (ih _)

theorem Housekeeping.pruneEntry (c : Cache H) (key : H) :
    Housekeeping env c (pruneEntry env c key) := by
  unfold PrefixCache.pruneEntry
  split
  · exact .refl
  · split
    · split
      · exact .refl
      · exact (Trimming.withTails c _ _ _).housekeeping env
    · split
      · exact (Trimming.withTails c _ _ _).housekeeping env
      · rename_i victims _ _ _
        exact (Housekeeping.pruneVictims c victims).trans
          ((Trimming.withTails _ _ _ _).housekeeping env)

theorem Housekeeping.pruneTailCleanup (c : Cache H) :
    Housekeeping env c (pruneTailCleanupLocked env c) := by
  unfold pruneTailCleanupLocked
  generalize env.iteration c.tailCleanup.keys = keys
  induction keys generalizing c with
  | nil => exact .refl
  | cons key keys ih => exact (Housekeeping.pruneEntry c key).trans (ih _)

/-! ### What housekeeping leaves alone -/

/-- The fields that say what the cache is doing, as opposed to what it holds, agree. -/
structure SameControl (c c' : Cache H) : Prop where
  config : c'.config = c.config
  pins : c'.pins = c.pins
  epoch : c'.cacheEpoch = c.cacheEpoch
  active : c'.activeWrites = c.activeWrites
  clearing : c'.clearing = c.clearing

namespace SameControl

variable {c c' c'' : Cache H}

omit [DecidableEq H] in
theorem refl (c : Cache H) : SameControl c c := ⟨rfl, rfl, rfl, rfl, rfl⟩

omit [DecidableEq H] in
theorem trans (h : SameControl c c') (h' : SameControl c' c'') : SameControl c c'' :=
  ⟨h'.config.trans h.config, h'.pins.trans h.pins, h'.epoch.trans h.epoch,
    h'.active.trans h.active, h'.clearing.trans h.clearing⟩

theorem dropHot (c : Cache H) (h : H) : SameControl c (dropHot c h) := by
  rw [dropHot_eq]
  exact ⟨rfl, rfl, rfl, rfl, rfl⟩

theorem dropDisk (c : Cache H) (h : H) : SameControl c (dropDisk c h) := by
  rw [dropDisk_eq]
  exact ⟨rfl, rfl, rfl, rfl, rfl⟩

theorem dropDeferred (c : Cache H) (h : H) : SameControl c (dropDeferred c h) :=
  ⟨rfl, rfl, rfl, rfl, rfl⟩

theorem unlinkDisk (env : Env H) (c : Cache H) (h : H) : SameControl c (unlinkDisk env c h) := by
  have hremoved : SameControl c (removeText env (removeFile env c h) h) := ⟨rfl, rfl, rfl, rfl, rfl⟩
  exact hremoved.trans (dropDisk _ h)

theorem spillDeferred (c : Cache H) (h : H) : SameControl c (spillDeferred c h) := by
  unfold PrefixCache.spillDeferred
  split
  · exact refl c
  · split <;> exact ⟨rfl, rfl, rfl, rfl, rfl⟩

theorem redefer (c : Cache H) (h : H) (e : DiskEntry H) : SameControl c (redefer c h e) := by
  unfold PrefixCache.redefer
  split
  · exact refl c
  · split <;> exact ⟨rfl, rfl, rfl, rfl, rfl⟩

theorem touchHot (c : Cache H) (h : H) : SameControl c (touchHot c h) := by
  unfold PrefixCache.touchHot
  split <;> exact ⟨rfl, rfl, rfl, rfl, rfl⟩

theorem touchDisk (c : Cache H) (h : H) : SameControl c (touchDisk c h) := by
  unfold PrefixCache.touchDisk
  split <;> exact ⟨rfl, rfl, rfl, rfl, rfl⟩

theorem ramMove (hm : RamMove c c') : SameControl c c' := by
  cases hm with
  | tails => exact ⟨rfl, rfl, rfl, rfl, rfl⟩
  | evictHot h => exact (spillDeferred c h).trans (dropHot _ h)

theorem diskMove (hm : DiskMove env c c') : SameControl c c' := by
  cases hm with
  | tails => exact ⟨rfl, rfl, rfl, rfl, rfl⟩
  | evictDisk h e => exact (redefer c h e).trans (unlinkDisk env _ h)

theorem move (hm : Move env c c') : SameControl c c' := by
  cases hm with
  | ram hm => exact ramMove hm
  | disk hm => exact diskMove hm
  | touchHot h => exact touchHot c h
  | touchDisk h => exact touchDisk c h
  | supersede h =>
    split
    · exact ((unlinkDisk env c h).trans (dropHot _ h)).trans (dropDeferred _ h)
    · exact (dropHot c h).trans (dropDeferred _ h)

theorem housekeeping (ht : Housekeeping env c c') : SameControl c c' :=
  keeps (fun _ _ hm h => h.trans (move hm)) ht (refl c)

theorem trimming (ht : Trimming c c') : SameControl c c' :=
  keeps (fun _ _ hm h => h.trans (ramMove hm)) ht (refl c)

theorem putHotLocked (c : Cache H) (h : H) (p : Payload) : SameControl c (putHotLocked c h p) := by
  unfold PrefixCache.putHotLocked
  split
  · have htrim := Trimming.trimHotLocked c.config.maxHotBytes (insertHot (PrefixCache.dropHot c h) h p)
    have hinsert : SameControl (PrefixCache.dropHot c h)
        (insertHot (PrefixCache.dropHot c h) h p) := ⟨rfl, rfl, rfl, rfl, rfl⟩
    exact ((dropHot c h).trans hinsert).trans (trimming htrim)
  · exact dropHot c h

theorem eraseCorruptLocked (env : Env H) (c : Cache H) (h : H) :
    SameControl c (eraseCorruptLocked env c h).1 := by
  unfold PrefixCache.eraseCorruptLocked
  have hd := dropDeferred c h
  dsimp only
  split
  · refine .trans ?_ (trimming (Trimming.forget _ h))
    split
    · exact (hd.trans (unlinkDisk env _ h)).trans (dropHot _ h)
    · exact hd.trans (dropHot _ h)
  · exact hd

end SameControl

/-- The disk tier agrees: its index and its files. -/
structure SameDisk (c c' : Cache H) : Prop where
  disk : c'.disk = c.disk
  files : c'.files = c.files
  texts : c'.texts = c.texts

namespace SameDisk

variable {c c' c'' : Cache H}

omit [DecidableEq H] in
theorem refl (c : Cache H) : SameDisk c c := ⟨rfl, rfl, rfl⟩

omit [DecidableEq H] in
theorem trans (h : SameDisk c c') (h' : SameDisk c' c'') : SameDisk c c'' :=
  ⟨h'.disk.trans h.disk, h'.files.trans h.files, h'.texts.trans h.texts⟩

theorem dropHot (c : Cache H) (h : H) : SameDisk c (dropHot c h) := by
  rw [dropHot_eq]
  exact ⟨rfl, rfl, rfl⟩

theorem spillDeferred (c : Cache H) (h : H) : SameDisk c (spillDeferred c h) := by
  unfold PrefixCache.spillDeferred
  split
  · exact refl c
  · split <;> exact ⟨rfl, rfl, rfl⟩

theorem touchHot (c : Cache H) (h : H) : SameDisk c (touchHot c h) := by
  unfold PrefixCache.touchHot
  split <;> exact ⟨rfl, rfl, rfl⟩

theorem settlePending (c : Cache H) (h : H) : SameDisk c (settlePending c h) := by
  unfold PrefixCache.settlePending
  split <;> exact ⟨rfl, rfl, rfl⟩

theorem redefer (c : Cache H) (h : H) (e : DiskEntry H) : SameDisk c (redefer c h e) := by
  unfold PrefixCache.redefer
  split
  · exact refl c
  · split <;> exact ⟨rfl, rfl, rfl⟩

theorem trimming (ht : Trimming c c') : SameDisk c c' := by
  refine keeps (P := SameDisk c) ?_ ht (refl c)
  intro d d' hm hd
  cases hm with
  | tails => exact hd.trans ⟨rfl, rfl, rfl⟩
  | evictHot h => exact hd.trans ((spillDeferred d h).trans (dropHot _ h))

theorem putHotLocked (c : Cache H) (h : H) (p : Payload) : SameDisk c (putHotLocked c h p) := by
  unfold PrefixCache.putHotLocked
  split
  · have hinsert : SameDisk (PrefixCache.dropHot c h)
        (insertHot (PrefixCache.dropHot c h) h p) := ⟨rfl, rfl, rfl⟩
    exact ((dropHot c h).trans hinsert).trans (trimming (Trimming.trimHotLocked _ _))
  · exact dropHot c h

end SameDisk

theorem SameControl.settlePending (c : Cache H) (h : H) : SameControl c (settlePending c h) := by
  unfold PrefixCache.settlePending
  split <;> exact ⟨rfl, rfl, rfl, rfl, rfl⟩

theorem SameControl.enforcing {c c' : Cache H} (ht : Enforcing env c c') : SameControl c c' :=
  SameControl.housekeeping ht.housekeeping

/-- Trimming queues dirty blocks only: a block neither dirty nor queued stays so. -/
theorem Trimming.untouched {c c' : Cache H} (ht : Trimming c c')
    (hc : h ∉ c.deferred ∧ h ∉ c.pending) : h ∉ c'.deferred ∧ h ∉ c'.pending := by
  refine keeps (P := fun d => h ∉ d.deferred ∧ h ∉ d.pending) ?_ ht hc
  intro d d' hm hd
  cases hm with
  | tails => exact hd
  | evictHot k =>
    rw [dropHot_eq]
    show h ∉ (spillDeferred d k).deferred ∧ h ∉ (spillDeferred d k).pending
    unfold spillDeferred
    split
    · exact hd
    · rename_i w hw
      have hne : h ≠ k := by
        rintro rfl
        exact hd.1 (Table.mem_of_lookup hw)
      split
      · refine ⟨fun hmem => hd.1 (AList.mem_erase.mp hmem).2, fun hmem => ?_⟩
        rcases (AList.mem_insert d.pending).mp hmem with heq | hold
        · exact hne heq
        · exact hd.2 hold
      · exact ⟨fun hmem => hd.1 (AList.mem_erase.mp hmem).2, hd.2⟩

theorem putHotLocked_untouched {c : Cache H} (k : H) (p : Payload)
    (hc : h ∉ c.deferred ∧ h ∉ c.pending) :
    h ∉ (putHotLocked c k p).deferred ∧ h ∉ (putHotLocked c k p).pending := by
  unfold putHotLocked
  split
  · refine (Trimming.trimHotLocked _ _).untouched ?_
    rw [dropHot_eq]
    exact hc
  · rw [dropHot_eq]
    exact hc

/-- Enforcing the budget leaves the queue and the RAM tier alone. -/
theorem Enforcing.pending_hot {c c' : Cache H} (ht : Enforcing env c c') :
    c'.pending = c.pending ∧ c'.hot = c.hot := by
  refine keeps (P := fun d => d.pending = c.pending ∧ d.hot = c.hot) ?_ ht ⟨rfl, rfl⟩
  intro d d' hm hd
  cases hm with
  | tails => exact hd
  | evictDisk h e =>
    unfold unlinkDisk
    rw [dropDisk_eq]
    show (redefer d h e).pending = c.pending ∧ (redefer d h e).hot = c.hot
    unfold redefer
    split
    · exact hd
    · split <;> exact hd

/-! ### The loops run to their end -/

theorem length_disk_evictDisk (env : Env H) {c : Cache H} (disk : c.disk.lookup h = some e) :
    (evictDisk env c h e).disk.entries.length + 1 = c.disk.entries.length := by
  have hredefer : ∀ d : Cache H, (redefer d h e).disk = d.disk := by
    intro d
    unfold redefer
    split
    · rfl
    · split <;> rfl
  unfold evictDisk
  obtain ⟨lengths, metadata, heq⟩ := forgetTailIfUnusedLocked_eq
    (dropDisk (redefer (removeText env (removeFile env c h) h) h e) h) h
  rw [heq, dropDisk_eq]
  show ((redefer (removeText env (removeFile env c h) h) h e).disk.erase h).entries.length + 1 = _
  rw [hredefer]
  exact Table.length_erase disk

/-- `enforce_disk_budget_locked` stops only when the budget is met, nothing may be evicted, a
    file cannot be removed, or the allowed number of evictions is done. -/
theorem enforceLoop_exit (env : Env H) (target maxEvictions fuel evicted : Nat) (c : Cache H)
    (hfuel : c.disk.entries.length ≤ fuel) :
    let r := enforceLoop env target maxEvictions fuel evicted c
    r.1.diskBytes ≤ target ∨
      Table.leastRecent (diskEvictable r.1) DiskEntry.lastUsed r.1.disk = none ∨
      (∃ h, h ∈ r.1.disk ∧ env.removeFails h = true) ∨ maxEvictions ≤ r.2 := by
  induction fuel generalizing c evicted with
  | zero =>
    right
    left
    have hnil : c.disk.entries = [] := List.eq_nil_of_length_eq_zero (by omega)
    simp [enforceLoop, Table.leastRecent, hnil]
  | succ fuel ih =>
    unfold enforceLoop
    split
    · rename_i hle
      exact Or.inl hle
    · split
      · rename_i hnone
        exact Or.inr (Or.inl hnone)
      · rename_i victim hvictim
        have hlookup := (Table.leastRecent_some hvictim).1
        split
        · rename_i hfails
          exact Or.inr (Or.inr (Or.inl ⟨victim.1, Table.mem_of_lookup hlookup, hfails⟩))
        · split
          · rename_i hmax
            exact Or.inr (Or.inr (Or.inr hmax))
          · have hlen := length_disk_evictDisk env hlookup
            exact ih _ _ (by omega)

end TyloQuant.PrefixCache
