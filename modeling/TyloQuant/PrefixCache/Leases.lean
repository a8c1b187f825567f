import TyloQuant.PrefixCache.Inversion

/-!
# Pins and leases

`DiskEntry::pins` is one counter for two kinds of user: the sessions that pinned the block
(`pins_`) and the loads that are reading its file.  The lease law says that it is their sum.

A lease is given back by hash.  So it is lost when the entry goes away under it and a new one takes
its place, which never had it.  `clear` is guarded against this by its epoch; an `invalidate`, an
erasure of a corrupt block or an index refresh is not.  The other way to lose the law is a block
indexed while `pins_` misses a pin that a `clear` has forgotten.  Session pins are a ghost beside
the cache: pins minus unpins over the run.
-/

namespace TyloQuant.PrefixCache

open Lib

variable {H : Type} [DecidableEq H]

/-! ### Leases in flight -/

/-- The leases a load holds on a block in the given epoch. -/
def LoadCall.leases (epoch : Nat) (h : H) (load : LoadCall H) : Nat :=
  if load.epoch = epoch then (leased load.requests).count h else 0

/-- The leases all loads in flight hold on a block. -/
def System.leases (s : System H) (h : H) : Nat :=
  Table.total (LoadCall.leases s.cache.cacheEpoch h) s.loads

/-- The cache and, as a ghost, the pins that sessions hold: pinned and not unpinned since. -/
structure Pinned (H : Type) where
  system : System H
  held : H → Nat := fun _ => 0

/-- The pins held after an action. -/
def heldAfter (held : H → Nat) : Action H → H → Nat
  | .pin blocks => fun h => held h + blocks.count h
  | .unpin blocks _ => fun h => held h - blocks.count h
  | _ => held

/-- One action, with the ghost. -/
def Pinned.step (w : Pinned H) (a : Action H) : Option (Pinned H) :=
  (PrefixCache.step w.system a).map fun s => ⟨s, heldAfter w.held a⟩

/-- The finish of a write indexes the file: it was published in this epoch and can be read. -/
def Indexes (s : System H) (env : Env H) (w : WriteCall H) : Prop :=
  w.phase = .published true ∧ w.request.epoch = s.cache.cacheEpoch ∧
    w.request.hash ∈ s.cache.files ∧ env.statFails w.request.hash = false

instance (s : System H) (env : Env H) (w : WriteCall H) : Decidable (Indexes s env w) := by
  unfold Indexes
  infer_instance

/-- The condition of the lease law: each unpin matches an earlier pin; an entry goes away
    (other than by the budget, by pruning or by `clear`) only while no other load leases it;
    and a block is indexed only while `pins_` knows every pin that sessions hold of it. -/
def LeaseSafe (w : Pinned H) : Action H → Prop
  | .invalidate block _ => w.system.leases block = 0
  | .finish writer env =>
    ∀ call ∈ w.system.writers.lookup writer, Indexes w.system env call →
      w.system.cache.pinsOf call.request.hash = w.held call.request.hash
  | .loadFinish call _ =>
    ∀ load ∈ w.system.loads.lookup call, load.epoch = w.system.cache.cacheEpoch →
      ∀ h ∈ unreadableBlock load.requests, w.system.leases h = (leased load.requests).count h
  | .matchStep call _ =>
    ∀ m ∈ w.system.matching.lookup call,
      ∀ h ∈ matchErases w.system.cache m, w.system.leases h = 0
  | .refreshDiskIndex env =>
    ∀ h ∈ env.iteration w.system.cache.disk.keys,
      h ∈ w.system.cache.files ∨ env.statFails h = true ∨ w.system.leases h = 0
  | .unpin blocks _ => ∀ h ∈ blocks, blocks.count h ≤ w.held h
  | _ => True

instance (w : Pinned H) (a : Action H) : Decidable (LeaseSafe w a) := by
  apply @Action.casesOn _ (fun a => Decidable (LeaseSafe w a)) a <;> intros <;>
    unfold LeaseSafe <;> infer_instance

/-! ### The law -/

/-- The lease law for the lease counts `L` and the pins held `P`.  For the blocks in `watch` it
    also says that a block whose file is gone is leased by nobody and, outside spill mode,
    pinned by nobody: holding it from a state where the file is there shows what deleted it. -/
structure Leased (L P : H → Nat) (watch : H → Prop) (c : Cache H) : Prop where
  pinned : ∀ h e, c.disk.lookup h = some e → e.pins = P h + L h
  known : ∀ h, h ∈ c.disk → c.pinsOf h = P h
  absent : ∀ h, h ∉ c.disk → L h = 0
  guarded : ∀ h, watch h → h ∉ c.files →
    L h = 0 ∧ (c.config.spillHotOnEviction = false → P h = 0)

/-- Nothing is watched: the law alone. -/
abbrev nothing : H → Prop := fun _ => False

theorem count_cons_ite (h : H) (hs : List H) (k : H) :
    (h :: hs).count k = hs.count k + if k = h then 1 else 0 := by
  rw [List.count_cons]
  by_cases hk : k = h
  · simp [hk]
  · rw [if_neg hk, if_neg (by simpa using fun heq : h = k => hk heq.symm)]

namespace Leased

variable {L P : H → Nat} {watch : H → Prop} {env : Env H} {c c' : Cache H}

theorem pinsOf_congr (hpins : c'.pins = c.pins) (h : H) : c'.pinsOf h = c.pinsOf h := by
  unfold Cache.pinsOf
  rw [hpins]

/-- The law reads the index, the session pins, the files and the mode. -/
theorem of_same (hl : Leased L P watch c) (hdisk : c'.disk = c.disk) (hpins : c'.pins = c.pins)
    (hfiles : c'.files = c.files)
    (hspill : c'.config.spillHotOnEviction = c.config.spillHotOnEviction) :
    Leased L P watch c' := by
  refine ⟨hdisk ▸ hl.pinned, ?_, hdisk ▸ hl.absent, ?_⟩
  · intro h hh
    rw [hdisk] at hh
    rw [pinsOf_congr hpins h]
    exact hl.known h hh
  · intro h hw hf
    rw [hfiles] at hf
    rw [hspill]
    exact hl.guarded h hw hf

theorem of_sameDisk (hl : Leased L P watch c) (hd : SameDisk c c') (hc : SameControl c c') :
    Leased L P watch c' :=
  hl.of_same hd.disk hc.pins hd.files (congrArg Config.spillHotOnEviction hc.config)

variable {h : H} {e : DiskEntry H}

/-- An index entry changes in nothing but its recency. -/
theorem setDisk (hl : Leased L P watch c) {e' : DiskEntry H} (he : c.disk.lookup h = some e)
    (hpins : e'.pins = e.pins) (hdisk : c'.disk = c.disk.insert h e') (hsame : c'.pins = c.pins)
    (hfiles : c'.files = c.files) (hconf : c'.config = c.config) : Leased L P watch c' := by
  refine ⟨?_, ?_, ?_, ?_⟩
  · intro k d hd
    rw [hdisk] at hd
    rcases Table.lookup_insert_cases hd with ⟨rfl, rfl⟩ | ⟨-, hd⟩
    · rw [hpins]
      exact hl.pinned k e he
    · exact hl.pinned k d hd
  · intro k hk
    rw [hdisk, AList.mem_insert] at hk
    rw [pinsOf_congr hsame k]
    rcases hk with rfl | hk
    · exact hl.known k (Table.mem_of_lookup he)
    · exact hl.known k hk
  · intro k hk
    rw [hdisk, AList.mem_insert, not_or] at hk
    exact hl.absent k hk.2
  · intro k hw hf
    rw [hconf]
    exact hl.guarded k hw (hfiles ▸ hf)

theorem touchDisk (hl : Leased L P watch c) (h : H) : Leased L P watch (touchDisk c h) := by
  unfold PrefixCache.touchDisk
  split
  · exact hl
  · rename_i e he
    refine hl.setDisk he ?_ rfl rfl rfl rfl
    rfl

/-- The entry of one block goes; the leases on it, if any, are void. -/
theorem forgetDisk (hl : Leased L P watch c) (h : H)
    (hdisk : ∀ k, c'.disk.lookup k = if k = h then none else c.disk.lookup k)
    (hfiles : ∀ k, k ≠ h → c'.files.lookup k = c.files.lookup k)
    (hctl : SameControl c c')
    (hwatch : watch h → c.config.spillHotOnEviction = false → P h = 0) :
    Leased (fun k => if k = h then 0 else L k) P watch c' := by
  have hmem : ∀ k, k ∈ c'.disk ↔ k ≠ h ∧ k ∈ c.disk := by
    intro k
    rw [Table.mem_iff, Table.mem_iff, hdisk k]
    by_cases hk : k = h <;> simp [hk]
  refine ⟨?_, ?_, ?_, ?_⟩
  · intro k e he
    rw [hdisk k] at he
    split at he
    · cases he
    · rename_i hk
      rw [if_neg hk]
      exact hl.pinned k e he
  · intro k hk
    rw [pinsOf_congr hctl.pins k]
    exact hl.known k ((hmem k).mp hk).2
  · intro k hk
    by_cases hkh : k = h
    · exact if_pos hkh
    · rw [if_neg hkh]
      exact hl.absent k fun hin => hk ((hmem k).mpr ⟨hkh, hin⟩)
  · intro k hw hf
    rw [hctl.config]
    by_cases hkh : k = h
    · subst hkh
      rw [if_pos rfl]
      exact ⟨rfl, hwatch hw⟩
    · rw [if_neg hkh]
      refine hl.guarded k hw ?_
      rw [← AList.lookup_eq_none, ← hfiles k hkh]
      exact AList.lookup_eq_none.mpr hf

theorem forgetUnleased (hl : Leased L P watch c) (h : H) (hL : L h = 0)
    (hdisk : ∀ k, c'.disk.lookup k = if k = h then none else c.disk.lookup k)
    (hfiles : ∀ k, k ≠ h → c'.files.lookup k = c.files.lookup k)
    (hctl : SameControl c c')
    (hwatch : watch h → c.config.spillHotOnEviction = false → P h = 0) :
    Leased L P watch c' := by
  have hsame : (fun k => if k = h then 0 else L k) = L := by
    funext k
    split
    · rename_i hk
      rw [hk, hL]
    · rfl
  exact hsame ▸ hl.forgetDisk h hdisk hfiles hctl hwatch

/-! ### Housekeeping -/

theorem trimming (ht : Trimming c c') (hl : Leased L P watch c) : Leased L P watch c' :=
  hl.of_sameDisk (SameDisk.trimming ht) (SameControl.trimming ht)

/-- What the budget evicts is leased by nobody, and pinned by nobody outside spill mode. -/
theorem evictable (hl : Leased L P watch c) (he : c.disk.lookup h = some e)
    (hevict : diskEvictable c h e = true) :
    L h = 0 ∧ (c.config.spillHotOnEviction = false → P h = 0) := by
  have hpins := hl.pinned h e he
  have hknown := hl.known h (Table.mem_of_lookup he)
  unfold diskEvictable at hevict
  simp only [Bool.not_eq_true', Bool.or_eq_false_iff, decide_eq_false_iff_not, gt_iff_lt,
    not_lt] at hevict
  have hle := hevict.1
  split at hle
  · rename_i hspill
    exact ⟨by omega, fun hno => by rw [hspill] at hno; cases hno⟩
  · exact ⟨by omega, fun _ => by omega⟩

theorem diskMove (hm : DiskMove env c c') (hl : Leased L P watch c) : Leased L P watch c' := by
  cases hm with
  | tails => exact hl.of_same rfl rfl rfl rfl
  | evictDisk h e he hevict =>
    obtain ⟨hL, hpins⟩ := hl.evictable he hevict
    have hred := SameDisk.redefer c h e
    refine hl.forgetUnleased h hL ?_ ?_
      ((SameControl.redefer c h e).trans (SameControl.unlinkDisk env _ h)) (fun _ => hpins)
    · intro k
      rw [unlinkDisk_disk, hred.disk]
    · intro k hk
      rw [unlinkDisk_files _ _ _ hk, hred.files]

theorem supersede (hl : Leased L P watch c) (hfree : supersedeBlocked env c h = false) :
    Leased L P watch
      (dropDeferred (dropHot (if h ∈ c.disk then unlinkDisk env c h else c) h) h) := by
  have hafter : ∀ d : Cache H, Leased L P watch d → Leased L P watch (dropDeferred (dropHot d h) h) :=
    fun d hd => (hd.of_sameDisk (SameDisk.dropHot d h) (SameControl.dropHot d h)).of_same
      rfl rfl rfl rfl
  refine hafter _ ?_
  split
  · rename_i hmem
    obtain ⟨e, he⟩ := (Table.mem_iff _ _).mp hmem
    unfold supersedeBlocked at hfree
    simp only [he, Bool.or_eq_false_iff, decide_eq_false_iff_not, ne_eq, not_not] at hfree
    obtain ⟨⟨-, hnopin⟩, hzero, -⟩ := hfree
    have hsum := hl.pinned h e he
    have hpins := hl.known h hmem
    refine hl.forgetUnleased h (by omega) (unlinkDisk_disk c h) (unlinkDisk_files c h)
      (SameControl.unlinkDisk env c h) ?_
    intro _ _
    omega
  · exact hl

theorem move (hm : Move env c c') (hl : Leased L P watch c) : Leased L P watch c' := by
  cases hm with
  | ram hm => exact hl.trimming (.single hm)
  | disk hm => exact hl.diskMove hm
  | touchHot h => exact hl.of_sameDisk (SameDisk.touchHot c h) (SameControl.touchHot c h)
  | touchDisk h => exact hl.touchDisk h
  | supersede h hfree => exact hl.supersede hfree

theorem enforcing (ht : Enforcing env c c') (hl : Leased L P watch c) : Leased L P watch c' :=
  keeps (fun _ _ hm hl => diskMove hm hl) ht hl

theorem housekeeping (ht : Housekeeping env c c') (hl : Leased L P watch c) : Leased L P watch c' :=
  keeps (fun _ _ hm hl => move hm hl) ht hl

/-! ### Storing and writing -/

theorem backstage (ht : Relation.ReflTransGen (Backstage env) c c') (hl : Leased L P watch c) :
    Leased L P watch c' := by
  refine keeps ?_ ht hl
  intro d d' hb hd
  cases hb with
  | move hm => exact hd.move hm
  | ram hsame hpins hconf =>
    exact hd.of_same hsame.disk hpins hsame.files (congrArg Config.spillHotOnEviction hconf)

/-- A new entry starts from the session pins that `pins_` knows. -/
theorem registerFile (hl : Leased L P watch c) (w : WriteRequest H) (file : Payload)
    (hknown : c.pinsOf w.hash = P w.hash) : Leased L P watch (registerFile c w file) := by
  unfold PrefixCache.registerFile
  dsimp only
  rw [dropDisk_eq]
  refine ⟨?_, ?_, ?_, hl.guarded⟩
  · intro k e he
    rcases Table.lookup_insert_cases he with ⟨rfl, rfl⟩ | ⟨-, he⟩
    · dsimp only
      -- an old entry already counts them
      rw [hknown]
      split
      · rename_i hnone
        rw [hl.absent _ (AList.lookup_eq_none.mp hnone)]
        rfl
      · rename_i previous hprev
        rw [hl.pinned _ previous hprev]
        exact Nat.max_eq_right (Nat.le_add_right _ _)
    · exact hl.pinned k e (Table.lookup_of_erase he)
  · intro k hk
    show c.pinsOf k = P k
    rw [AList.mem_insert] at hk
    rcases hk with rfl | hk
    · exact hknown
    · exact hl.known k (AList.mem_erase.mp hk).2
  · intro k hk
    rw [AList.mem_insert, not_or] at hk
    refine hl.absent k fun hmem => hk.2 ?_
    exact AList.mem_erase.mpr ⟨hk.1, hmem⟩

theorem finishWrite (hl : Leased L P watch c) (w : WriteRequest H) (success : Bool)
    (hstale : watch w.hash → w.epoch = c.cacheEpoch)
    (hknown : success = true → w.epoch = c.cacheEpoch → w.hash ∈ c.files →
      env.statFails w.hash = false → c.pinsOf w.hash = P w.hash) :
    Leased L P watch (finishWrite env c w success) := by
  unfold PrefixCache.finishWrite
  refine housekeeping (Housekeeping.pruneTailCleanup _) ?_
  refine trimming (Trimming.forget _ _) ?_
  have hs := hl.of_sameDisk (SameDisk.settlePending c w.hash) (SameControl.settlePending c w.hash)
  have hepoch := (SameControl.settlePending c w.hash).epoch
  unfold settleFile
  split
  · rename_i hcurrent
    have htext : ∀ d : Cache H, Leased L P watch d → Leased L P watch (writeText env d w) ∧
        (writeText env d w).files = d.files ∧ (writeText env d w).pins = d.pins := by
      intro d hd
      unfold writeText
      split
      · exact ⟨hd.of_same rfl rfl rfl rfl, rfl, rfl⟩
      · exact ⟨hd, rfl, rfl⟩
    obtain ⟨ht, hfiles, hpins⟩ := htext _ hs
    dsimp only
    split
    · rename_i file hfile
      split
      · exact ht
      · rename_i hstat
        refine enforcing (Enforcing.enforceBudget _ _ _) (ht.registerFile w _ ?_)
        rw [pinsOf_congr (hpins.trans (SameControl.settlePending c w.hash).pins)]
        refine hknown hcurrent.1 (hcurrent.2.trans hepoch) ?_ (Bool.not_eq_true _ ▸ hstat)
        rw [hfiles, (SameDisk.settlePending c w.hash).files] at hfile
        exact Table.mem_of_lookup hfile
    · exact ht
  · rename_i hnot
    split
    · exact hs
    · rename_i hsuccess
      -- only a write of an older epoch takes its own file away
      have hunwatched : ¬watch w.hash := by
        intro hw
        have hcurrent := hstale hw
        simp only [Bool.not_eq_false] at hsuccess
        exact hnot ⟨hsuccess, hcurrent.trans hepoch.symm⟩
      refine ⟨hs.pinned, hs.known, hs.absent, ?_⟩
      intro k hw hf
      refine hs.guarded k hw fun hmem => hf ?_
      show k ∈ (if env.removeFails w.hash then (settlePending c w.hash).files
        else (settlePending c w.hash).files.erase w.hash)
      split
      · exact hmem
      · refine AList.mem_erase.mpr ⟨?_, hmem⟩
        rintro rfl
        exact hunwatched hw

/-! ### Erasing -/

theorem eraseCorruptLocked (hl : Leased L P watch c) (h : H) (hL : L h = 0)
    (hwatch : ¬watch h) : Leased L P watch (eraseCorruptLocked env c h).1 :=
  hl.forgetUnleased h hL (eraseCorrupt_disk c h) (eraseCorrupt_files c h)
    (SameControl.eraseCorruptLocked env c h) (fun hw => absurd hw hwatch)

/-- A file that could not be read is given up; the leases on it are void. -/
theorem dropUnreadable (hl : Leased L P watch c) (h : H) (hwatch : ¬watch h) :
    Leased (fun k => if k = h then 0 else L k) P watch (dropUnreadable env c h) := by
  unfold PrefixCache.dropUnreadable
  split
  · split
    · refine trimming (Trimming.forget _ _) ?_
      refine hl.forgetDisk h ?_ ?_ (SameControl.dropDisk c h) (fun hw => absurd hw hwatch)
      · intro k
        rw [dropDisk_eq]
        exact Table.lookup_erase_ite c.disk h k
      · intro k _
        rw [dropDisk_eq]
    · rename_i hmem
      refine hl.forgetDisk h ?_ (fun _ _ => rfl) (SameControl.refl c)
        (fun hw => absurd hw hwatch)
      intro k
      by_cases hk : k = h
      · subst hk
        rw [if_pos rfl]
        exact AList.lookup_eq_none.mpr hmem
      · rw [if_neg hk]
  · exact hl.forgetDisk h (eraseCorrupt_disk c h) (eraseCorrupt_files c h)
      (SameControl.eraseCorruptLocked env c h) (fun hw => absurd hw hwatch)

/-! ### Loads -/

theorem mono_nothing (hl : Leased L P watch c) : Leased L P nothing c :=
  ⟨hl.pinned, hl.known, hl.absent, fun _ hw => hw.elim⟩

theorem leaseFile (hl : Leased L P nothing c) (he : c.disk.lookup h = some e) :
    Leased (fun k => L k + if k = h then 1 else 0) P nothing (leaseFile c h e) := by
  refine ⟨?_, ?_, ?_, fun _ hw => hw.elim⟩
  · intro k d hd
    rcases Table.lookup_insert_cases hd with ⟨rfl, rfl⟩ | ⟨hk, hd⟩
    · have hsum := hl.pinned k e he
      simp only [if_true]
      omega
    · rw [if_neg hk]
      exact hl.pinned k d hd
  · intro k hk
    exact hl.known k ((Table.mem_insert_of_mem (Table.mem_of_lookup he)).mp hk)
  · intro k hk
    unfold PrefixCache.leaseFile at hk
    rw [AList.mem_insert, not_or] at hk
    rw [if_neg hk.1, hl.absent k hk.2]

theorem leaseLocked (hl : Leased L P nothing c) (blocks : List H) :
    Leased (fun k => L k + (leased (leaseLocked c blocks).2).count k) P nothing
      (leaseLocked c blocks).1 := by
  induction blocks generalizing c L with
  | nil => simpa [PrefixCache.leaseLocked, leased] using hl
  | cons h rest ih =>
    unfold PrefixCache.leaseLocked
    split
    · exact ih hl
    · split
      · exact ih hl
      · split
        · rename_i e he
          have hrest := ih (hl.leaseFile he)
          have hcount : (fun k => L k + (leased (⟨h, .disk none⟩ ::
              (PrefixCache.leaseLocked (PrefixCache.leaseFile c h e) rest).2)).count k) =
              fun k => (L k + if k = h then 1 else 0) +
                (leased (PrefixCache.leaseLocked (PrefixCache.leaseFile c h e) rest).2).count k := by
            funext k
            show L k + (h :: leased _).count k = _
            rw [count_cons_ite]
            omega
          dsimp only
          rw [hcount]
          exact hrest
        · simpa [leased] using hl

theorem releaseLease (hl : Leased L P watch c) (h : H) (hpos : h ∈ c.disk → 0 < L h) :
    Leased (fun k => L k - if k = h then 1 else 0) P watch (releaseLease c h) := by
  unfold PrefixCache.releaseLease
  split
  · rename_i hnone
    have hzero : L h = 0 := hl.absent h (AList.lookup_eq_none.mp hnone)
    have hsame : (fun k => L k - if k = h then 1 else 0) = L := by
      funext k
      split
      · rename_i hk
        rw [hk, hzero]
      · rfl
    rw [hsame]
    exact hl
  · rename_i e he
    refine ⟨?_, ?_, ?_, ?_⟩
    · intro k d hd
      rcases Table.lookup_insert_cases hd with ⟨rfl, rfl⟩ | ⟨hk, hd⟩
      · have hsum := hl.pinned k e he
        have hone := hpos (Table.mem_of_lookup he)
        simp only [if_true]
        omega
      · rw [if_neg hk]
        exact hl.pinned k d hd
    · intro k hk
      exact hl.known k ((Table.mem_insert_of_mem (Table.mem_of_lookup he)).mp hk)
    · intro k hk
      rw [AList.mem_insert, not_or] at hk
      rw [if_neg hk.1, hl.absent k hk.2]
    · intro k hw hf
      obtain ⟨hzero, hpins⟩ := hl.guarded k hw hf
      exact ⟨by omega, hpins⟩

/-- Giving back a list of leases, each of which the counts still hold. -/
theorem releaseAll (hl : Leased L P watch c) (hs : List H)
    (hcount : ∀ k, k ∈ c.disk → hs.count k ≤ L k) :
    Leased (fun k => L k - hs.count k) P watch (hs.foldl PrefixCache.releaseLease c) := by
  induction hs generalizing c L with
  | nil => simpa using hl
  | cons h hs ih =>
    have hhead : h ∈ c.disk → 0 < L h := by
      intro hmem
      have hle := hcount h hmem
      rw [List.count_cons_self] at hle
      omega
    have hstep := fun k => count_cons_ite h hs k
    have hrest := ih (hl.releaseLease h hhead) (by
      intro k hmem
      have hle := hcount k ((releaseLease_disk c h k).mp hmem)
      rw [hstep k] at hle
      omega)
    have hsame : (fun k => L k - (h :: hs).count k) =
        fun k => (L k - if k = h then 1 else 0) - hs.count k := by
      funext k
      rw [hstep k]
      omega
    rw [hsame]
    exact hrest

/-- The loop of a finishing load voids the leases on the block it could not read, whose entry
    is gone, and no others. -/
theorem finishRequests (hl : Leased L P watch c) (env : Env H)
    (requests : List (LoadRequest H)) (hwatch : ∀ h ∈ unreadableBlock requests, ¬watch h) :
    Leased (fun k => if unreadableBlock requests = some k then 0 else L k) P watch
        (finishRequests env c requests).1 ∧
      ∀ h ∈ unreadableBlock requests, h ∉ (finishRequests env c requests).1.disk := by
  have hback := finishRequests_backstage env c requests
  cases hblock : unreadableBlock requests with
  | none =>
    rw [hblock] at hback
    exact ⟨hl.backstage hback, fun h hh => by cases hh⟩
  | some h =>
    rw [hblock] at hback hwatch
    obtain ⟨d, hd, heq⟩ := hback
    have hsame : (fun k => if some h = some k then 0 else L k) =
        fun k => if k = h then 0 else L k := by
      funext k
      by_cases hk : k = h
      · rw [if_pos hk, if_pos (by rw [hk])]
      · rw [if_neg hk, if_neg fun heq => hk (Option.some.inj heq).symm]
    rw [heq, hsame]
    refine ⟨(hl.backstage hd).dropUnreadable h (hwatch h rfl), ?_⟩
    rintro k ⟨rfl⟩
    exact dropUnreadable_disk d h

/-- A load that gives back its leases: its own counts `own` go, those of the others stay. -/
theorem releaseOwn (hl : Leased L P watch c) (own : List H) (others : H → Nat)
    (hsplit : ∀ k, k ∈ c.disk → L k = others k + own.count k)
    (hgone : ∀ k, k ∉ c.disk → others k = 0) :
    Leased others P watch (own.foldl PrefixCache.releaseLease c) := by
  have hback : (fun k => L k - own.count k) = others := by
    funext k
    by_cases hk : k ∈ c.disk
    · have := hsplit k hk
      omega
    · rw [hl.absent k hk, hgone k hk]
      omega
  rw [← hback]
  refine hl.releaseAll own fun k hk => ?_
  have := hsplit k hk
  omega

/-! ### Pins -/

theorem pinBlock (hl : Leased L P nothing c) (h : H) :
    Leased L (fun k => P k + if k = h then 1 else 0) nothing (pinBlock c h) := by
  have hof : ∀ k, Cache.pinsOf { c with pins := c.pins.insert h (c.pinsOf h + 1) } k =
      c.pinsOf k + if k = h then 1 else 0 := by
    intro k
    unfold Cache.pinsOf
    rw [Table.lookup_insert_ite]
    split
    · rename_i hk
      subst hk
      rfl
    · rfl
  unfold PrefixCache.pinBlock
  dsimp only
  split
  · rename_i hnone
    refine ⟨?_, ?_, hl.absent, fun _ hw => hw.elim⟩
    · intro k d hd
      rw [if_neg (fun hk => by rw [hk, hnone] at hd; cases hd)]
      exact hl.pinned k d hd
    · intro k hk
      rw [hof k, hl.known k hk]
  · rename_i e he
    have hin : ∀ k, k ∈ c.disk.insert h { e with pins := e.pins + 1 } → k ∈ c.disk :=
      fun k => (Table.mem_insert_of_mem (Table.mem_of_lookup he)).mp
    refine ⟨?_, ?_, fun k hk => hl.absent k fun hmem => hk ?_, fun _ hw => hw.elim⟩
    · intro k d hd
      rcases Table.lookup_insert_cases hd with ⟨rfl, rfl⟩ | ⟨hk, hd⟩
      · have hsum := hl.pinned k e he
        simp only [if_true]
        omega
      · rw [if_neg hk]
        exact hl.pinned k d hd
    · intro k hk
      exact (hof k).trans (congrArg (· + _) (hl.known k (hin k hk)))
    · exact (Table.mem_insert_of_mem (Table.mem_of_lookup he)).mpr hmem

theorem pinAll (hl : Leased L P nothing c) (blocks : List H) :
    Leased L (fun k => P k + blocks.count k) nothing (blocks.foldl PrefixCache.pinBlock c) := by
  induction blocks generalizing c P with
  | nil => exact hl
  | cons b blocks ih =>
    have hsum : (fun k => P k + (b :: blocks).count k) =
        fun k => (P k + if k = b then 1 else 0) + blocks.count k := by
      funext k
      rw [count_cons_ite]
      omega
    rw [hsum]
    exact ih (hl.pinBlock b)

/-- One session pin of `h` less. -/
def unpinned (pins : Table H Nat) (h : H) : Table H Nat :=
  match pins.lookup h with
  | none => pins
  | some n => if n = 1 then pins.erase h else pins.insert h (n - 1)

theorem unpinned_getD (c : Cache H) (h k : H) :
    ((unpinned c.pins h).lookup k).getD 0 = c.pinsOf k - if k = h then 1 else 0 := by
  unfold unpinned Cache.pinsOf
  by_cases hk : k = h
  · subst hk
    rw [if_pos rfl]
    split
    · rename_i hnone
      rw [hnone]
      rfl
    · rename_i n hn
      rw [hn]
      split
      · rename_i hone
        rw [AList.lookup_erase, hone]
        rfl
      · rw [AList.lookup_insert]
        rfl
  · rw [if_neg hk]
    split
    · rfl
    · split
      · rw [AList.lookup_erase_ne hk]
        rfl
      · rw [AList.lookup_insert_ne hk]
        rfl

theorem unpinBlock_eq (c : Cache H) (h : H) :
    unpinBlock c h = PrefixCache.releaseLease { c with pins := unpinned c.pins h } h := by
  unfold unpinBlock unpinned
  cases c.pins.lookup h <;> rfl

theorem unpinBlock (hl : Leased L P watch c) (h : H) (hpos : 0 < P h) :
    Leased L (fun k => P k - if k = h then 1 else 0) watch (unpinBlock c h) := by
  rw [unpinBlock_eq]
  have hof := unpinned_getD c h
  have hguarded : ∀ k, watch k → k ∉ c.files →
      L k = 0 ∧ (c.config.spillHotOnEviction = false → P k - (if k = h then 1 else 0) = 0) :=
    fun k hw hf => (hl.guarded k hw hf).imp_right fun hP hspill => by rw [hP hspill, Nat.zero_sub]
  unfold PrefixCache.releaseLease
  dsimp only
  split
  · rename_i hnone
    refine ⟨?_, ?_, hl.absent, hguarded⟩
    · intro k d hd
      rw [if_neg (fun hk => by rw [hk, hnone] at hd; cases hd)]
      exact hl.pinned k d hd
    · intro k hk
      exact (hof k).trans (congrArg (· - _) (hl.known k hk))
  · rename_i e he
    refine ⟨?_, ?_, ?_, hguarded⟩
    · intro k d hd
      rcases Table.lookup_insert_cases hd with ⟨rfl, rfl⟩ | ⟨hk, hd⟩
      · have hsum := hl.pinned k e he
        simp only [if_true]
        omega
      · rw [if_neg hk]
        exact hl.pinned k d hd
    · intro k hk
      rw [Table.mem_insert_of_mem (Table.mem_of_lookup he)] at hk
      exact (hof k).trans (congrArg (· - _) (hl.known k hk))
    · intro k hk
      rw [AList.mem_insert, not_or] at hk
      exact hl.absent k hk.2

theorem unpinAll (hl : Leased L P watch c) (blocks : List H)
    (hok : ∀ h, blocks.count h ≤ P h) :
    Leased L (fun k => P k - blocks.count k) watch (blocks.foldl PrefixCache.unpinBlock c) := by
  induction blocks generalizing c P with
  | nil => exact hl
  | cons b blocks ih =>
    have hsum : (fun k => P k - (b :: blocks).count k) =
        fun k => (P k - if k = b then 1 else 0) - blocks.count k := by
      funext k
      rw [count_cons_ite]
      omega
    rw [hsum]
    refine ih (hl.unpinBlock b ?_) fun h => ?_
    · have := hok b
      rw [List.count_cons_self] at this
      omega
    · have := hok h
      rw [count_cons_ite] at this
      omega

/-! ### Refresh, clear, open -/

theorem refreshEntry (hl : Leased L P nothing c) (h : H)
    (hok : h ∈ c.files ∨ env.statFails h = true ∨ L h = 0) :
    Leased L P nothing (refreshEntry env c h) := by
  unfold PrefixCache.refreshEntry
  split
  · exact hl
  · rename_i hgone
    rw [not_or] at hgone
    have hL : L h = 0 := by
      rcases hok with hf | hs | hL
      · exact absurd hf hgone.1
      · exact absurd hs hgone.2
      · exact hL
    refine trimming (Trimming.forget _ _) ?_
    have hdrop : Leased L P nothing (dropDisk c h) := by
      refine hl.forgetUnleased h hL ?_ ?_ (SameControl.dropDisk c h) (fun hw => hw.elim)
      · intro k
        rw [dropDisk_eq]
        exact Table.lookup_erase_ite c.disk h k
      · intro k _
        rw [dropDisk_eq]
    have hhot := hdrop.of_sameDisk (SameDisk.dropHot _ h) (SameControl.dropHot _ h)
    exact hhot.of_same rfl rfl rfl rfl

theorem refreshEntry_files (c : Cache H) (h : H) :
    (PrefixCache.refreshEntry env c h).files = c.files := by
  unfold PrefixCache.refreshEntry
  split
  · rfl
  · rw [(SameDisk.trimming (Trimming.forget _ h)).files]
    show (dropHot (dropDisk c h) h).files = c.files
    rw [(SameDisk.dropHot _ h).files, dropDisk_eq]

theorem refreshDiskIndex (hl : Leased L P nothing c)
    (hok : ∀ h ∈ env.iteration c.disk.keys, h ∈ c.files ∨ env.statFails h = true ∨ L h = 0) :
    Leased L P nothing (refreshDiskIndex env c) := by
  unfold PrefixCache.refreshDiskIndex
  generalize env.iteration c.disk.keys = keys at hok
  induction keys generalizing c with
  | nil => exact hl
  | cons h keys ih =>
    refine ih (hl.refreshEntry h (hok h List.mem_cons_self)) ?_
    intro k hk
    rw [refreshEntry_files]
    exact hok k (List.mem_cons_of_mem h hk)

/-- With no entry the law says that nobody leases anything. -/
theorem empty (hd : c.disk = ∅) (hL : ∀ h, L h = 0) : Leased L P nothing c := by
  refine ⟨?_, ?_, fun h _ => hL h, fun _ hw => hw.elim⟩
  · simp [hd]
  · simp [hd]

theorem openCache (config : Config H) (found : List (FoundBlock H)) (hL : ∀ h, L h = 0) :
    Leased L (fun _ => 0) nothing (openCache env config found) := by
  unfold PrefixCache.openCache
  refine enforcing (Enforcing.enforceBudget _ _ _) ?_
  have hscan : Leased L (fun _ => 0) nothing (found.foldl scanEntry { config := config }) ∧
      (found.foldl scanEntry { config := config }).pins = ∅ := by
    refine List.foldlRecOn (motive := fun c => Leased L (fun _ => 0) nothing c ∧ c.pins = ∅) found _
      ⟨empty rfl hL, rfl⟩ fun c hc b _ => ?_
    obtain ⟨hl, hpins⟩ := hc
    unfold scanEntry
    split
    · exact ⟨hl, hpins⟩
    · have hrem := Trimming.remember (H := H)
      refine ⟨trimming (hrem _ _ _ _) ⟨?_, ?_, fun h _ => hL h, fun _ hw => hw.elim⟩, ?_⟩
      · refine Table.forall_insert hl.pinned ?_
        show 0 = 0 + L b.hash
        rw [hL]
      · intro k _
        unfold Cache.pinsOf
        dsimp only
        rw [hpins]
        rfl
      · rw [(SameControl.trimming (hrem _ _ _ _)).pins]
        exact hpins
  exact hscan.1

end Leased

/-! ### Lease counts along a step -/

variable {s : System H} {s' : System H}

theorem leases_congr (hloads : s'.loads = s.loads)
    (hepoch : s'.cache.cacheEpoch = s.cache.cacheEpoch) : s'.leases = s.leases := by
  funext h
  unfold System.leases
  rw [hloads, hepoch]

/-- Reading a file changes what a request holds, not what it leases. -/
theorem leased_readRequest {files : Table H Payload} {readable : Bool}
    {index : Nat} {requests requests' : List (LoadRequest H)}
    (h : readRequest files readable index requests = some requests') :
    leased requests' = leased requests := by
  induction requests generalizing index requests' with
  | nil => simp [readRequest] at h
  | cons r rest ih =>
    cases index with
    | zero =>
      simp only [readRequest] at h
      split at h
      · rename_i hsource
        obtain rfl := Option.some.inj h
        simp [leased, hsource]
      · cases h
    | succ n =>
      simp only [readRequest, Option.map_eq_some_iff] at h
      obtain ⟨tail, htail, rfl⟩ := h
      have hrest := ih htail
      unfold leased at hrest ⊢
      simp only [List.filterMap_cons, hrest]

variable {call : Nat} {load : LoadCall H}

/-- The leases of all loads are those of one load and those of the others. -/
theorem leases_split (hload : s.loads.lookup call = some load) (h : H) :
    s.leases h = Table.total (LoadCall.leases s.cache.cacheEpoch h) (s.loads.erase call) +
      LoadCall.leases s.cache.cacheEpoch h load := by
  have hsum := Table.total_eq_erase (LoadCall.leases s.cache.cacheEpoch h) s.loads call
  rw [hload] at hsum
  exact hsum

theorem leases_of_erased (hloads : s'.loads = s.loads.erase call)
    (hepoch : s'.cache.cacheEpoch = s.cache.cacheEpoch) : s'.leases =
      fun k => Table.total (LoadCall.leases s.cache.cacheEpoch k) (s.loads.erase call) := by
  funext k
  rw [System.leases, hloads, hepoch]

/-- A load of an earlier epoch leases nothing. -/
theorem leases_of_stale (hload : s.loads.lookup call = some load)
    (hepoch : load.epoch ≠ s.cache.cacheEpoch) :
    (fun k => Table.total (LoadCall.leases s.cache.cacheEpoch k) (s.loads.erase call)) =
      s.leases := by
  funext k
  rw [leases_split hload k, LoadCall.leases, if_neg hepoch, Nat.add_zero]

/-- The law, and that no load is from a later epoch than the cache. -/
structure LeaseInv (w : Pinned H) : Prop where
  law : Leased w.system.leases w.held nothing w.system.cache
  epochs : ∀ call load, w.system.loads.lookup call = some load →
    load.epoch ≤ w.system.cache.cacheEpoch

/-- The only way the action can delete the file of a watched block is the budget, or the
    pruning of superseded tails.  These are the actions that enforce the budget. -/
def budgetOnly (watch : H → Prop) (s : System H) : Action H → Prop
  | .store _ _ _ => True
  | .writerTick _ => True
  | .unpin _ _ => True
  | .loadAbort _ _ => True
  | .finish writer _ =>
    ∀ call ∈ s.writers.lookup writer, watch call.request.hash →
      call.request.epoch = s.cache.cacheEpoch
  | .loadFinish call _ =>
    ∀ load ∈ s.loads.lookup call, ∀ h ∈ unreadableBlock load.requests, ¬watch h
  | _ => ∀ h, ¬watch h

theorem leased_release {watch : H → Prop} {env : Env H} {c : Cache H} {L P : H → Nat}
    (hload : s.loads.lookup call = some load) (hepoch : load.epoch = s.cache.cacheEpoch)
    (hl : Leased L P watch c) (hsplit : ∀ k, k ∈ c.disk → L k = s.leases k)
    (hgone : ∀ k, k ∉ c.disk → s.leases k = 0 ∨ s.leases k = (leased load.requests).count k) :
    Leased (fun k => Table.total (LoadCall.leases s.cache.cacheEpoch k) (s.loads.erase call)) P
      watch (releaseDiskReadPinsLocked env c load.requests) := by
  have hown : ∀ k, LoadCall.leases s.cache.cacheEpoch k load = (leased load.requests).count k := by
    intro k
    unfold LoadCall.leases
    rw [if_pos hepoch]
  unfold releaseDiskReadPinsLocked
  refine Leased.enforcing (Enforcing.enforceBudget _ _ _) (hl.releaseOwn _ _ ?_ ?_)
  · intro k hk
    rw [hsplit k hk, leases_split hload k, hown k]
  · intro k hk
    have hsum := leases_split hload k
    rw [hown k] at hsum
    rcases hgone k hk with hzero | hall <;> omega

/-- **One step keeps the lease law**, and shows of every watched block that only an unleased
    one, unpinned outside spill mode, lost its file. -/
theorem leased_step {watch : H → Prop} {a : Action H} {held : H → Nat}
    (hl : Leased s.leases held watch s.cache)
    (hepochs : ∀ call load, s.loads.lookup call = some load → load.epoch ≤ s.cache.cacheEpoch)
    (hok : LeaseSafe ⟨s, held⟩ a) (hwatch : budgetOnly watch s a) (hstep : step s a = some s') :
    Leased s'.leases (heldAfter held a) watch s'.cache := by
  -- where nothing is watched the law alone is to be shown
  have hfree : (∀ h, ¬watch h) → Leased s'.leases (heldAfter held a) nothing s'.cache →
      Leased s'.leases (heldAfter held a) watch s'.cache :=
    fun hno hn => ⟨hn.pinned, hn.known, hn.absent, fun h hw => absurd hw (hno h)⟩
  have hn := hl.mono_nothing
  have hsame : a.loading = false → (∀ env, a ≠ .clearBegin env) → s'.leases = s.leases :=
    fun hloading hbegin =>
      leases_congr ((step_calls hstep).2.2.2 hloading) (step_epoch hstep hbegin)
  cases a with
  | store call args env =>
    rw [hsame rfl (by simp)]
    obtain ⟨-, -, rfl⟩ := step_store hstep
    rw [addWriter_cache]
    exact hl.backstage (Backstage.storeLocked env s.cache args)
  | writerTick env =>
    rw [hsame rfl (by simp)]
    obtain ⟨-, rfl⟩ := step_writerTick hstep
    rw [addWriter_cache]
    exact hl.backstage (Backstage.writerLoopHead env s.cache)
  | publish writer outcome =>
    obtain ⟨w, -, rfl⟩ := step_publish hstep
    exact hfree hwatch ⟨hn.pinned, hn.known, hn.absent, fun _ hw => hw.elim⟩
  | finish writer env =>
    rw [hsame rfl (by simp)]
    obtain ⟨w, success, hw, rfl⟩ := step_finish hstep
    exact hl.finishWrite w success (hwatch _ hw) fun hsuccess hepoch hfile hstat =>
      hok _ hw ⟨congrArg _ hsuccess, hepoch, hfile, hstat⟩
  | retire writer =>
    obtain ⟨w, -, rfl⟩ := step_retire hstep
    exact hl.of_same rfl rfl rfl rfl
  | loadBegin call blocks =>
    refine hfree hwatch ?_
    obtain ⟨hnew, -, rfl⟩ := step_loadBegin hstep
    have hlease := hn.leaseLocked blocks
    have hleases : System.leases { s with
        cache := (leaseLocked s.cache blocks).1
        loads := s.loads.insert call ⟨s.cache.cacheEpoch, (leaseLocked s.cache blocks).2⟩ } =
        fun k => s.leases k + (leased (leaseLocked s.cache blocks).2).count k := by
      funext k
      unfold System.leases
      dsimp only
      rw [Table.total_insert_of_none _ (AList.lookup_eq_none.mpr hnew),
        (Steady.leaseLocked s.cache blocks).epoch]
      simp only [LoadCall.leases, if_true]
      exact Nat.add_comm _ _
    rw [hleases]
    exact hlease
  | loadRead call index readable =>
    obtain ⟨load, requests, hload, hread, rfl⟩ := step_loadRead hstep
    have hleases : System.leases { s with
        loads := s.loads.insert call { load with requests := requests } } = s.leases := by
      funext k
      unfold System.leases
      refine Table.total_insert_of_same _ hload ?_
      unfold LoadCall.leases
      dsimp only
      rw [leased_readRequest hread]
    rw [hleases]
    exact hl
  | loadFinish call env =>
    obtain ⟨load, hload, -, rfl⟩ := step_loadFinish hstep
    rw [leases_of_erased rfl (step_epoch hstep (by simp))]
    unfold finishLoad
    dsimp only
    split
    · rename_i hepoch
      obtain ⟨hvoid, hgone⟩ := hl.finishRequests env load.requests
        (hwatch load hload)
      have hsafe := hok load hload hepoch
      refine leased_release hload hepoch hvoid ?_ ?_
      · intro k hk
        rw [if_neg]
        intro hblock
        exact hgone k hblock hk
      · intro k hk
        by_cases hblock : unreadableBlock load.requests = some k
        · exact Or.inr (hsafe k hblock)
        · left
          have habsent := hvoid.absent k hk
          rw [if_neg hblock] at habsent
          exact habsent
    · rename_i hepoch
      rw [leases_of_stale hload hepoch]
      exact hl
  | loadAbort call env =>
    obtain ⟨load, hload, rfl⟩ := step_loadAbort hstep
    rw [leases_of_erased rfl (step_epoch hstep (by simp))]
    unfold abortLoad
    dsimp only
    split
    · rename_i hepoch
      exact leased_release hload hepoch hl (fun _ _ => rfl) (fun k hk => Or.inl (hl.absent k hk))
    · rename_i hepoch
      rw [leases_of_stale hload hepoch]
      exact hl
  | invalidate block env =>
    refine hfree hwatch ?_
    rw [hsame rfl (by simp)]
    obtain ⟨-, rfl⟩ := step_invalidate hstep
    exact hn.eraseCorruptLocked block hok id
  | pin blocks =>
    refine hfree hwatch ?_
    rw [hsame rfl (by simp)]
    obtain rfl := Option.some.inj hstep
    exact hn.pinAll blocks
  | unpin blocks env =>
    rw [hsame rfl (by simp)]
    obtain rfl := Option.some.inj hstep
    refine Leased.enforcing (Enforcing.enforceBudget _ _ _) (hl.unpinAll blocks ?_)
    intro h
    by_cases hmem : h ∈ blocks
    · exact hok h hmem
    · rw [List.count_eq_zero_of_not_mem hmem]
      exact Nat.zero_le _
  | trimHot targetBytes =>
    rw [hsame rfl (by simp)]
    obtain rfl := Option.some.inj hstep
    exact hl.trimming (Trimming.trimHotLocked targetBytes s.cache)
  | setHotLimit maxBytes =>
    rw [hsame rfl (by simp)]
    obtain rfl := Option.some.inj hstep
    exact Leased.trimming (Trimming.trimHotLocked maxBytes _) (hl.of_same rfl rfl rfl rfl)
  | setDiskLimit maxBytes =>
    rw [hsame rfl (by simp)]
    obtain rfl := Option.some.inj hstep
    unfold setDiskLimit
    dsimp only
    split
    · exact hl
    · exact hl.of_same rfl rfl rfl rfl
  | refreshDiskIndex env =>
    refine hfree hwatch ?_
    rw [hsame rfl (by simp)]
    obtain ⟨-, -, rfl⟩ := step_refreshDiskIndex hstep
    exact hn.refreshDiskIndex hok
  | clearBegin env =>
    refine hfree hwatch ?_
    obtain ⟨-, rfl⟩ := step_clearBegin hstep
    refine Leased.empty rfl fun h => ?_
    unfold System.leases
    refine Table.total_eq_zero fun call load hload => ?_
    have hle := hepochs call load hload
    refine if_neg ?_
    show load.epoch ≠ s.cache.cacheEpoch + 1
    omega
  | clearEnd =>
    obtain ⟨-, -, rfl⟩ := step_clearEnd hstep
    exact hl.of_same rfl rfl rfl rfl
  | matchBegin call tokens extraKey =>
    obtain ⟨-, rfl⟩ := step_matchBegin hstep
    exact hl
  | matchStep call env =>
    refine hfree hwatch ?_
    rw [hsame rfl (by simp)]
    obtain ⟨m, hm, rfl⟩ := step_matchStep hstep
    dsimp only
    rcases advanceMatch_cache env s.cache m with heq | ⟨h, herases, heq⟩
    · rw [heq]
      exact hn
    · rw [heq]
      exact hn.eraseCorruptLocked h (hok m hm h herases) id
  | vanish block withText =>
    obtain rfl := Option.some.inj hstep
    exact hfree hwatch ⟨hn.pinned, hn.known, hn.absent, fun _ hw => hw.elim⟩

/-! ### Every run -/

theorem leaseInv_step (w : Pinned H) (a : Action H) (w' : Pinned H) (hw : LeaseInv w)
    (hok : LeaseSafe w a) (hstep : w.step a = some w') : LeaseInv w' := by
  obtain ⟨s', hs', rfl⟩ := Option.map_eq_some_iff.mp hstep
  refine ⟨leased_step hw.law hw.epochs hok ?_ hs', loads_epoch_step hw.epochs hs'⟩
  cases a with
  | store | writerTick | unpin | loadAbort => trivial
  | finish => exact fun _ _ hw => hw.elim
  | loadFinish => exact fun _ _ _ _ hw => hw
  | _ => exact fun _ hw => hw

variable {w : Pinned H}

theorem leaseInv_run {env : Env H} {config : Config H} {found : List (FoundBlock H)}
    {actions : List (Action H)}
    (hok : Meets Pinned.step LeaseSafe ⟨initial env config found, fun _ => 0⟩ actions)
    (hrun : run Pinned.step ⟨initial env config found, fun _ => 0⟩ actions = some w) :
    LeaseInv w := by
  refine run_invariant leaseInv_step ⟨?_, ?_⟩ hok hrun
  · exact Leased.openCache config found fun h => rfl
  · intro call load hload
    cases hload

/-- **The lease law.**  In every state of every run that meets `LeaseSafe`, an index entry's
    pins are the pins that sessions hold of its block plus the loads in flight that lease it.
    And the next step, where it can delete a block's file only to keep the budget (or to prune
    a superseded tail), deletes none that a load in flight leases and, outside spill mode, none
    that a session pins. -/
theorem lease_law (env : Env H) (config : Config H) (found : List (FoundBlock H))
    (actions : List (Action H)) (w : Pinned H)
    (hok : Meets Pinned.step LeaseSafe ⟨initial env config found, fun _ => 0⟩ actions)
    (hrun : run Pinned.step ⟨initial env config found, fun _ => 0⟩ actions = some w) :
    (∀ h e, w.system.cache.disk.lookup h = some e → e.pins = w.held h + w.system.leases h) ∧
    ∀ a w' h, LeaseSafe w a → w.step a = some w' → budgetOnly (fun k => k = h) w.system a →
      h ∈ w.system.cache.files → h ∉ w'.system.cache.files →
      w'.system.leases h = 0 ∧
        (w'.system.cache.config.spillHotOnEviction = false → w'.held h = 0) := by
  have hw := leaseInv_run hok hrun
  refine ⟨hw.law.pinned, ?_⟩
  intro a w' h hsafe hstep hbudget hfile hgone
  obtain ⟨s', hs', rfl⟩ := Option.map_eq_some_iff.mp hstep
  have hl : Leased w.system.leases w.held (fun k => k = h) w.system.cache := by
    refine ⟨hw.law.pinned, hw.law.known, hw.law.absent, ?_⟩
    rintro k rfl hnone
    exact absurd hfile hnone
  exact (leased_step hl hw.epochs hsafe hbudget hs').guarded h rfl hgone

/-- A small cache without spill mode, and no pin held. -/
def pinless : Pinned Nat := { system := initial {} (smallConfig 1000 10 false) [] }

/-- A load leases a block, the block is invalidated and stored again, a session pins it, and
    the old load gives back a lease the new entry never had. -/
def staleRelease : List (Action Nat) :=
  [storeFirst 0 false [1]] ++ writeThrough ++ [.trimHot 0] ++ coldRead 1 ++
    [.invalidate 5 {}, storeFirst 2 false [2]] ++ writeThrough ++
    [.pin [5], .loadFinish 1 {}]

/-- A session pins a block, `clear` forgets the pin, and the block is stored again. -/
def forgottenPin : List (Action Nat) :=
  [.pin [5], .clearBegin {}, .clearEnd, storeFirst 0 false [1]] ++ writeThrough

/-- After a run the entry of the first block does not count its pins and leases. -/
def BreaksLaw (actions : List (Action Nat)) : Prop :=
  ∃ w e, run Pinned.step pinless actions = some w ∧
    w.system.cache.disk.lookup 5 = some e ∧ e.pins ≠ w.held 5 + w.system.leases 5

theorem breaksLaw_of_lost {actions : List (Action Nat)}
    (h : (run Pinned.step pinless actions).map (fun w =>
      ((w.system.cache.disk.lookup 5).map DiskEntry.pins, w.held 5, w.system.leases 5)) =
        some (some 0, 1, 0)) : BreaksLaw actions := by
  obtain ⟨w, hw, hfields⟩ := Option.map_eq_some_iff.mp h
  simp only [Prod.mk.injEq, Option.map_eq_some_iff] at hfields
  obtain ⟨⟨e, he, hpins⟩, hsession, hleases⟩ := hfields
  exact ⟨w, e, hw, he, by omega⟩

/-- The entry counts no pin although a session pins the block, and no load leases it. -/
theorem staleRelease_loses_pin : BreaksLaw staleRelease ∧ BreaksLaw forgottenPin :=
  ⟨breaksLaw_of_lost (by decide), breaksLaw_of_lost (by decide)⟩

/-- The law in a state with a pin and a lease on the same block. -/
theorem lease_law_replayed :
    ∃ w e, run Pinned.step pinless
        ([storeFirst 0 false [1]] ++ writeThrough ++ [.trimHot 0, .pin [5]] ++ coldRead 1) =
          some w ∧
      w.system.cache.disk.lookup 5 = some e ∧ e.pins = w.held 5 + w.system.leases 5 := by
  have hrun : ((run Pinned.step pinless
      ([storeFirst 0 false [1]] ++ writeThrough ++ [.trimHot 0, .pin [5]] ++ coldRead 1)).bind
        fun w => w.system.cache.disk.lookup 5).isSome = true := by
    decide
  obtain ⟨e, he⟩ := Option.isSome_iff_exists.mp hrun
  obtain ⟨w, hw, hentry⟩ := Option.bind_eq_some_iff.mp he
  have hlaw := lease_law {} (smallConfig 1000 10 false) [] _ w (by decide) hw
  exact ⟨w, e, hw, hentry, hlaw.1 5 e hentry⟩

end TyloQuant.PrefixCache
