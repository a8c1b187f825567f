import TyloQuant.PrefixCache.Accounting
import TyloQuant.PrefixCache.Files

/-!
# Writes under way

A queued payload has exactly one write under way, in the queue or with a writer that has not called
`finish_write`; a block that is not queued has none.  With that one can say for a block `h` how its
file relates to a set `F` of payloads: the payload in the file is in `F`, unless a replacing write
is still to come, dirty in RAM or queued.  `Tracked` is all of that, as far as the cache alone can
say it; the writers enter through the number `W k` of writes of block `k` they have under way and
the blocks `P` whose files they have published.
-/

namespace TyloQuant.PrefixCache

open Lib List

variable {H : Type} [DecidableEq H]

/-- The writes of block `k` in the queue. -/
def queued (c : Cache H) (k : H) : Nat := c.writes.countP fun w => decide (w.hash = k)

/-- A replacing write of `h` is dirty in RAM or in the queue. -/
def replacing (c : Cache H) (h : H) : Prop :=
  (∃ w, c.deferred.lookup h = some w ∧ w.replaceExisting = true) ∨
    ∃ w ∈ c.writes, w.hash = h ∧ w.replaceExisting = true

variable {k : H}

theorem one_insert {t : Table H Payload} {n : Nat} {j : H} (p : Payload)
    (hone : n = if k ∈ t then 1 else 0) (hfresh : j ∉ t) :
    n + (if j = k then 1 else 0) = if k ∈ t.insert j p then 1 else 0 := by
  simp only [AList.mem_insert]
  by_cases hk : j = k
  · subst hk
    rw [if_neg hfresh] at hone
    simp only [if_true, true_or]
    omega
  · have hk' : ¬k = j := fun heq => hk heq.symm
    simp only [hk, hk', if_false, false_or]
    omega

/-- Every queued block has one write under way; dirty marks are their block's own, and no
    dirty block is queued; every file has an owner; without a disk tier nothing is indexed or
    queued; and the file of `h` is in `F` or about to be replaced. -/
structure Tracked (F : Payload → Prop) (h : H) (W : H → Nat) (P : H → Prop) (c : Cache H) :
    Prop where
  one : ∀ k, queued c k + W k = if k ∈ c.pending then 1 else 0
  named : ∀ k w, c.deferred.lookup k = some w → w.hash = k
  clean : ∀ k, k ∈ c.deferred → k ∉ c.pending
  owned : Owned False P c
  diskless : c.config.maxDiskBytes = 0 → ∀ k, k ∉ c.disk ∧ k ∉ c.pending
  file : ∀ q, c.files.lookup h = some q → F q ∨ replacing c h

namespace Tracked

variable {F : Payload → Prop} {h : H} {W : H → Nat} {P : H → Prop} {env : Env H}
  {c c' : Cache H}

variable {F' : Payload → Prop}

theorem mono (ht : Tracked F h W P c) (hF : ∀ q, F q → F' q) : Tracked F' h W P c :=
  ⟨ht.one, ht.named, ht.clean, ht.owned, ht.diskless, fun q hq => (ht.file q hq).imp_left (hF q)⟩

variable {P' : H → Prop}

theorem relabel (ht : Tracked F h W P c) (hP : ∀ k, P k → P' k) : Tracked F h W P' c :=
  ⟨ht.one, ht.named, ht.clean, ht.owned.mono hP, ht.diskless, ht.file⟩

theorem fresh_of_notMem (hgone : h ∉ c.files) (q : Payload)
    (hq : c.files.lookup h = some q) : F q :=
  absurd (Table.mem_of_lookup hq) hgone

/-- A block that is neither indexed nor queued has no file. -/
theorem no_file (ht : Tracked F h W P c) (hP : ∀ k, P k → 0 < W k) (hd : k ∉ c.disk)
    (hp : k ∉ c.pending) : k ∉ c.files := by
  intro hf
  rcases ht.owned.files k hf with hmem | hpub
  · exact hd hmem
  · have hone := ht.one k
    rw [if_neg hp] at hone
    have hpos := hP k hpub
    omega

/-! ### Single edits -/

/-- What leaves the queue, the dirty set and the files alone. -/
theorem of_same (ht : Tracked F h W P c) (hwrites : c'.writes = c.writes)
    (hpending : c'.pending = c.pending) (hdeferred : c'.deferred = c.deferred)
    (hfiles : c'.files = c.files) (hdisk : ∀ k, k ∈ c'.disk ↔ k ∈ c.disk)
    (hmax : c'.config.maxDiskBytes = c.config.maxDiskBytes) : Tracked F h W P c' := by
  have hrep : replacing c' h ↔ replacing c h := by
    unfold replacing
    rw [hdeferred, hwrites]
  refine ⟨fun k => ?_, ?_, ?_, ⟨fun k hk => ?_, fun hT => hT.elim⟩, fun hzero k => ?_, ?_⟩
  · unfold queued
    rw [hwrites, hpending]
    exact ht.one k
  · rw [hdeferred]
    exact ht.named
  · rw [hdeferred, hpending]
    exact ht.clean
  · rw [hfiles] at hk
    exact (ht.owned.files k hk).imp_left (hdisk k).mpr
  · rw [hmax] at hzero
    rw [hdisk k, hpending]
    exact ht.diskless hzero k
  · rw [hfiles]
    exact fun q hq => (ht.file q hq).imp_right hrep.mpr

theorem dropHot (ht : Tracked F h W P c) (k : H) : Tracked F h W P (dropHot c k) := by
  rw [dropHot_eq]
  exact ht.of_same rfl rfl rfl rfl (fun _ => Iff.rfl) rfl

theorem insertHot (ht : Tracked F h W P c) (k : H) (p : Payload) :
    Tracked F h W P (insertHot c k p) :=
  ht.of_same rfl rfl rfl rfl (fun _ => Iff.rfl) rfl

theorem touchHot (ht : Tracked F h W P c) (k : H) : Tracked F h W P (touchHot c k) := by
  unfold PrefixCache.touchHot
  split
  · exact ht
  · exact ht.of_same rfl rfl rfl rfl (fun _ => Iff.rfl) rfl

theorem setDisk (ht : Tracked F h W P c) {e : DiskEntry H} (e' : DiskEntry H)
    (he : c.disk.lookup k = some e) (hdisk : c'.disk = c.disk.insert k e')
    (hwrites : c'.writes = c.writes) (hpending : c'.pending = c.pending)
    (hdeferred : c'.deferred = c.deferred) (hfiles : c'.files = c.files)
    (hmax : c'.config.maxDiskBytes = c.config.maxDiskBytes) : Tracked F h W P c' := by
  refine ht.of_same hwrites hpending hdeferred hfiles (fun j => ?_) hmax
  rw [hdisk]
  exact Table.mem_insert_of_mem (Table.mem_of_lookup he)

theorem touchDisk (ht : Tracked F h W P c) (k : H) : Tracked F h W P (touchDisk c k) := by
  unfold PrefixCache.touchDisk
  split
  · exact ht
  · rename_i e he
    exact ht.setDisk _ he rfl rfl rfl rfl rfl rfl

/-- A dirty mark is dropped: the file is in `F` already, or there was no mark. -/
theorem dropDeferred (ht : Tracked F h W P c) (k : H)
    (hgone : k = h → (∀ q, c.files.lookup h = some q → F q) ∨ h ∉ c.deferred) :
    Tracked F h W P (dropDeferred c k) := by
  refine ⟨ht.one, fun j w hw => ht.named j w (Table.lookup_of_erase hw),
    fun j hj => ht.clean j (AList.mem_erase.mp hj).2,
    ⟨ht.owned.files, fun hT => hT.elim⟩, ht.diskless, fun q hq => ?_⟩
  rcases ht.file q hq with hF | ⟨w, hw, hrep⟩ | hqueue
  · exact Or.inl hF
  · by_cases hk : k = h
    · rcases hgone hk with hF | hd
      · exact Or.inl (hF q hq)
      · exact absurd (Table.mem_of_lookup hw) hd
    · refine Or.inr (Or.inl ⟨w, ?_, hrep⟩)
      show (c.deferred.erase k).lookup h = some w
      rw [AList.lookup_erase_ne fun heq => hk heq.symm]
      exact hw
  · exact Or.inr (Or.inr hqueue)

/-- A block becomes dirty: with a replacing request, or when its file is in `F'` already. -/
theorem defer (ht : Tracked F h W P c) (k : H) (w : WriteRequest H) (hhash : w.hash = k)
    (hp : k ∉ c.pending) (hF : k ≠ h → ∀ q, F q → F' q)
    (hfile : k = h → w.replaceExisting = true ∨ ∀ q, c.files.lookup h = some q → F' q) :
    Tracked F' h W P { c with deferred := c.deferred.insert k w } := by
  refine ⟨ht.one, Table.forall_insert ht.named hhash, Table.forall_mem_insert ht.clean hp,
    ⟨ht.owned.files, fun hT => hT.elim⟩, ht.diskless, fun q hq => ?_⟩
  by_cases hk : h = k
  · rcases hfile hk.symm with hrep | hfresh
    · refine Or.inr (Or.inl ⟨w, ?_, hrep⟩)
      show (c.deferred.insert k w).lookup h = some w
      rw [hk]
      exact AList.lookup_insert c.deferred
    · exact Or.inl (hfresh q hq)
  · rcases ht.file q hq with hFq | ⟨v, hv, hrep⟩ | hqueue
    · exact Or.inl (hF (fun heq => hk heq.symm) q hFq)
    · refine Or.inr (Or.inl ⟨v, ?_, hrep⟩)
      show (c.deferred.insert k w).lookup h = some v
      rw [AList.lookup_insert_ne hk]
      exact hv
    · exact Or.inr (Or.inr hqueue)

theorem redefer (ht : Tracked F h W P c) (k : H) (e : DiskEntry H) (hp : k ∉ c.pending) :
    Tracked F h W P (redefer c k e) := by
  unfold PrefixCache.redefer
  split
  · exact ht
  · rename_i hot hhot
    split
    · rename_i hspill
      refine ⟨ht.one, Table.forall_insert ht.named rfl, Table.forall_mem_insert ht.clean hp,
        ⟨ht.owned.files, fun hT => hT.elim⟩, ht.diskless, fun q hq => ?_⟩
      refine (ht.file q hq).imp_right ?_
      rintro (⟨v, hv, hrep⟩ | hqueue)
      · have hne : h ≠ k := by
          rintro rfl
          exact hspill.2 (Table.mem_of_lookup hv)
        refine Or.inl ⟨v, ?_, hrep⟩
        dsimp only
        rw [AList.lookup_insert_ne hne]
        exact hv
      · exact Or.inr hqueue
    · exact ht

theorem unlinkDisk (ht : Tracked F h W P c) (hrem : env.RemovesSucceed) (k : H) :
    Tracked F h W P (unlinkDisk env c k) ∧ k ∉ (unlinkDisk env c k).files := by
  have hgone : k ∉ (PrefixCache.unlinkDisk env c k).files := by
    rw [(unlinkDisk_removed hrem c k).1]
    exact fun hmem => (AList.mem_erase.mp hmem).1 rfl
  have howned := ht.owned.unlinkDisk hrem k
  have hfiles := (unlinkDisk_removed hrem c k).1
  refine ⟨?_, hgone⟩
  unfold PrefixCache.unlinkDisk at hfiles howned ⊢
  rw [dropDisk_eq] at hfiles howned ⊢
  refine ⟨ht.one, ht.named, ht.clean, howned, fun hzero j => ?_, fun q hq => ?_⟩
  · exact ⟨fun hj => (ht.diskless hzero j).1 (AList.mem_erase.mp hj).2, (ht.diskless hzero j).2⟩
  · rw [hfiles] at hq
    exact ht.file q (Table.lookup_of_erase hq)

theorem spillDeferred (ht : Tracked F h W P c) (hP : ∀ k, P k → 0 < W k) (k : H) :
    Tracked F h W P (spillDeferred c k) := by
  unfold PrefixCache.spillDeferred
  split
  · exact ht
  · rename_i w hw
    have hmem : k ∈ c.deferred := Table.mem_of_lookup hw
    have hp : k ∉ c.pending := ht.clean k hmem
    split
    · rename_i hdisk
      refine ⟨fun j => ?_, fun j v hv => ht.named j v (Table.lookup_of_erase hv),
        fun j hj => ?_, ⟨ht.owned.files, fun hT => hT.elim⟩, fun hzero => ?_, fun q hq => ?_⟩
      · have hone := one_insert w.payload (ht.one j) hp
        unfold queued at hone ⊢
        dsimp only
        simp only [countP_append, countP_singleton, ht.named k w hw, decide_eq_true_eq]
        omega
      · obtain ⟨hne, hold⟩ := AList.mem_erase.mp hj
        dsimp only
        rw [AList.mem_insert]
        rintro (heq | hq)
        · exact hne heq
        · exact ht.clean j hold hq
      · exact absurd hdisk (by rw [hzero]; exact Nat.lt_irrefl 0)
      · refine (ht.file q hq).imp_right ?_
        rintro (⟨v, hv, hrep⟩ | ⟨v, hv, hhash, hrep⟩)
        · by_cases hk : h = k
          · subst hk
            obtain rfl := Option.some.inj (hw.symm.trans hv)
            exact Or.inr ⟨w, mem_append_right _ mem_cons_self, ht.named h w hw, hrep⟩
          · refine Or.inl ⟨v, ?_, hrep⟩
            dsimp only
            rw [AList.lookup_erase_ne hk]
            exact hv
        · exact Or.inr ⟨v, mem_append_left _ hv, hhash, hrep⟩
    · rename_i hdisk
      refine ht.dropDeferred k fun heq => Or.inl (fresh_of_notMem ?_)
      subst heq
      exact ht.no_file hP (ht.diskless (by omega) k).1 hp

/-! ### Housekeeping -/

theorem move (hrem : env.RemovesSucceed) (hP : ∀ k, P k → 0 < W k) (hm : Move env c c')
    (ht : Tracked F h W P c) : Tracked F h W P c' := by
  cases hm with
  | ram hm =>
    cases hm with
    | tails => exact ht.of_same rfl rfl rfl rfl (fun _ => Iff.rfl) rfl
    | evictHot k => exact (ht.spillDeferred hP k).dropHot k
  | disk hm =>
    cases hm with
    | tails => exact ht.of_same rfl rfl rfl rfl (fun _ => Iff.rfl) rfl
    | evictDisk k e _ evictable =>
      have hp : k ∉ c.pending := by
        intro hmem
        simp [diskEvictable, hmem] at evictable
      exact ((ht.redefer k e hp).unlinkDisk hrem k).1
  | touchHot k => exact ht.touchHot k
  | touchDisk k => exact ht.touchDisk k
  | supersede k free =>
    have hp : k ∉ c.pending := by
      intro hmem
      simp [supersedeBlocked, hmem] at free
    split
    · obtain ⟨hunlinked, hgone⟩ := ht.unlinkDisk hrem k
      refine (hunlinked.dropHot k).dropDeferred k ?_
      rintro rfl
      rw [(SameDisk.dropHot _ k).files]
      exact Or.inl (fresh_of_notMem hgone)
    · rename_i hdisk
      refine (ht.dropHot k).dropDeferred k ?_
      rintro rfl
      rw [(SameDisk.dropHot c k).files]
      exact Or.inl (fresh_of_notMem (ht.no_file hP hdisk hp))

theorem housekeeping (hrem : env.RemovesSucceed) (hP : ∀ k, P k → 0 < W k)
    (hk : Housekeeping env c c') (ht : Tracked F h W P c) : Tracked F h W P c' :=
  keeps (fun _ _ hm ht => move hrem hP hm ht) hk ht

theorem trimming (hP : ∀ k, P k → 0 < W k) (hk : Trimming c c') (ht : Tracked F h W P c) :
    Tracked F h W P c' :=
  ht.housekeeping (fun _ => ⟨rfl, rfl⟩) hP (hk.housekeeping {})

theorem enforcing (hrem : env.RemovesSucceed) (hP : ∀ k, P k → 0 < W k)
    (hk : Enforcing env c c') (ht : Tracked F h W P c) : Tracked F h W P c' :=
  ht.housekeeping hrem hP hk.housekeeping

theorem putHotLocked (ht : Tracked F h W P c) (hP : ∀ k, P k → 0 < W k) (k : H) (p : Payload) :
    Tracked F h W P (putHotLocked c k p) := by
  unfold PrefixCache.putHotLocked
  split
  · exact trimming hP (Trimming.trimHotLocked _ _) ((ht.dropHot k).insertHot k p)
  · exact ht.dropHot k

theorem eraseCorruptLocked (ht : Tracked F h W P c) (hrem : env.RemovesSucceed)
    (hP : ∀ k, P k → 0 < W k) (k : H) : Tracked F h W P (eraseCorruptLocked env c k).1 := by
  -- a dirty mark is dropped once the file is gone, or where there is none to drop
  have hclean : k ∉ c.disk → Tracked F h W P (PrefixCache.dropDeferred c k) := by
    intro hdisk
    refine ht.dropDeferred k ?_
    rintro rfl
    by_cases hp : k ∈ c.pending
    · exact Or.inr fun hd => ht.clean k hd hp
    · exact Or.inl (fresh_of_notMem (ht.no_file hP hdisk hp))
  unfold PrefixCache.eraseCorruptLocked
  dsimp only
  split
  · refine trimming hP (Trimming.forget _ k) (dropHot ?_ k)
    split
    · obtain ⟨hunlinked, hgone⟩ := ht.unlinkDisk hrem k
      have hcomm : PrefixCache.dropDisk (removeText env (removeFile env
          (PrefixCache.dropDeferred c k) k) k) k =
          PrefixCache.dropDeferred (PrefixCache.unlinkDisk env c k) k := by
        unfold PrefixCache.unlinkDisk
        rw [dropDisk_eq, dropDisk_eq]
        rfl
      rw [hcomm]
      refine hunlinked.dropDeferred k ?_
      rintro rfl
      exact Or.inl (fresh_of_notMem hgone)
    · exact hclean ‹_›
  · rename_i hnone
    exact hclean fun hd => hnone (Or.inl hd)

/-! ### Storing -/

/-- One more write of block `k` under way with the writers, if `w` is one. -/
def handed (w : Option (WriteRequest H)) (k : H) : Nat :=
  match w with
  | none => 0
  | some v => if v.hash = k then 1 else 0

theorem storeDeferred (hrem : env.RemovesSucceed) (hP : ∀ k, P k → 0 < W k) (a : StoreArgs H)
    (ht : Tracked F h W P
      { c with deferred := c.deferred.insert (a.hash c.config) (a.request c) }) :
    Tracked F h W P (storeDeferred env c a) := by
  unfold PrefixCache.storeDeferred
  refine trimming hP (Trimming.ramPressure env _) ?_
  refine housekeeping hrem hP (Housekeeping.pruneTailCleanup _) ?_
  refine trimming hP (Trimming.remember _ _ _ _) ?_
  exact ht.putHotLocked hP _ _

theorem storeHotOnly (ht : Tracked F h W P c) (hrem : env.RemovesSucceed)
    (hP : ∀ k, P k → 0 < W k) (a : StoreArgs H) : Tracked F h W P (storeHotOnly env c a) := by
  unfold PrefixCache.storeHotOnly
  refine housekeeping hrem hP (Housekeeping.pruneTailCleanup _) ?_
  split
  · exact trimming hP (Trimming.remember _ _ _ _) (ht.putHotLocked hP _ _)
  · exact ht.putHotLocked hP _ _

/-- A block is queued; it was neither queued nor dirty. -/
theorem addPending (ht : Tracked F h W P c) (w : WriteRequest H) (hp : w.hash ∉ c.pending)
    (hd : w.hash ∉ c.deferred) (hdisk : c.config.maxDiskBytes ≠ 0) :
    Tracked F h (fun k => W k + handed (some w) k) P (addPending c w) ∧
      Tracked F h W P { PrefixCache.addPending c w with writes := c.writes ++ [w] } := by
  have hclean : ∀ k, k ∈ c.deferred → k ∉ c.pending.insert w.hash w.payload := by
    intro k hk hq
    rcases (AList.mem_insert _).mp hq with rfl | hold
    · exact hd hk
    · exact ht.clean k hk hold
  refine ⟨⟨fun k => ?_, ht.named, hclean, ⟨ht.owned.files, fun hT => hT.elim⟩,
    fun hzero => absurd hzero hdisk, ht.file⟩, ⟨fun k => ?_, ht.named, hclean,
    ⟨ht.owned.files, fun hT => hT.elim⟩, fun hzero => absurd hzero hdisk, fun q hq => ?_⟩⟩
  · have hone := one_insert w.payload (ht.one k) hp
    unfold queued at hone ⊢
    show _ + (W k + if w.hash = k then 1 else 0) = _
    rw [← Nat.add_assoc]
    exact hone
  · have hone := one_insert w.payload (ht.one k) hp
    unfold queued at hone ⊢
    dsimp only
    simp only [countP_append, countP_singleton, decide_eq_true_eq]
    refine Eq.trans ?_ hone
    omega
  · refine (ht.file q hq).imp_right ?_
    rintro (hdirty | ⟨v, hv, hrest⟩)
    · exact Or.inl hdirty
    · exact Or.inr ⟨v, mem_append_left _ hv, hrest⟩

/-- The write branch queues the request or hands it out, and leaves nothing else behind. -/
theorem storeWrite (ht : Tracked F h W P c) (hrem : env.RemovesSucceed)
    (hP : ∀ k, P k → 0 < W k) (a : StoreArgs H) (hp : a.hash c.config ∉ c.pending)
    (hd : a.hash c.config ∉ (enforceBudget env (reservedBytes c a.payload.length) c).deferred)
    (hdisk : c.config.maxDiskBytes ≠ 0) :
    Tracked F h (fun k => W k + handed (storeWrite env c a).2 k) P (storeWrite env c a).1 ∧
      ((storeWrite env c a).2 = some (a.request c) ∨
        (storeWrite env c a).2 = none ∧ a.request c ∈ (storeWrite env c a).1.writes) := by
  have henf := Enforcing.enforceBudget env (reservedBytes c a.payload.length) c
  have hc₁ : Tracked F h W P (enforceBudget env (reservedBytes c a.payload.length) c) :=
    ht.enforcing hrem hP henf
  have hp₁ : a.hash c.config ∉
      (enforceBudget env (reservedBytes c a.payload.length) c).pending := by
    rw [henf.pending_hot.1]
    exact hp
  have hsteady : Steady c (PrefixCache.putHotLocked (enforceBudget env
      (reservedBytes c a.payload.length) c) (a.hash c.config) a.payload) :=
    (Steady.enforceBudget env _ c).trans (SameControl.putHotLocked _ _ _).steady
  unfold PrefixCache.storeWrite
  dsimp only
  generalize enforceBudget env (reservedBytes c a.payload.length) c = c₁ at *
  have hc₂ := hc₁.putHotLocked hP (a.hash c.config) a.payload
  have hfree := putHotLocked_untouched (a.hash c.config) a.payload ⟨hd, hp₁⟩
  generalize PrefixCache.putHotLocked c₁ (a.hash c.config) a.payload = c₂ at *
  have hrequest : a.request c₂ = a.request c := Holds.request_congr a hsteady.config hsteady.epoch
  rw [hrequest]
  obtain ⟨hinline, hqueue⟩ := hc₂.addPending (a.request c) hfree.2 hfree.1
    (hsteady.config ▸ hdisk)
  have hP' : ∀ k, P k → 0 < W k + handed (some (a.request c)) k :=
    fun k hk => Nat.add_pos_left (hP k hk) _
  split
  · refine ⟨?_, Or.inl rfl⟩
    have hr := hinline.trimming hP'
      (Trimming.remember _ (a.hash c.config) a.parent a.tokens.length)
    exact hr.of_same rfl rfl rfl rfl (fun _ => Iff.rfl) rfl
  · obtain ⟨lengths, metadata, heq⟩ := rememberTailLocked_eq
      { PrefixCache.addPending c₂ (a.request c) with writes := c₂.writes ++ [a.request c] }
      (a.hash c.config) a.parent a.tokens.length
    refine ⟨?_, Or.inr ⟨rfl, ?_⟩⟩
    · exact hqueue.trimming hP (Trimming.remember _ (a.hash c.config) a.parent a.tokens.length)
    · dsimp only
      rw [heq]
      exact mem_append_right _ mem_cons_self

/-- **`store`.**  A file of `h` in `F` stays where it is; one that is not is about to be
    replaced, and a replacing store of `h` makes sure of that whatever the file holds. -/
theorem storeLocked (ht : Tracked F h W P c) (hrem : env.RemovesSucceed) (hP : ∀ k, P k → 0 < W k)
    (a : StoreArgs H) (hready : storeReady c a = true) (hno : ¬redefersStored env c a)
    (hkeep : ¬(a.hash c.config = h ∧ a.replaceExisting = true) → ∀ q, F q → F' q)
    (hinline : a.hash c.config = h → a.replaceExisting = true →
      (storeLocked env c a).2 = some (a.request c) → ∀ q, F' q) :
    Tracked F' h (fun k => W k + handed (storeLocked env c a).2 k) P (storeLocked env c a).1 := by
  obtain ⟨cleanup, heq⟩ := scheduleTailCleanupLocked_eq c (a.hash c.config) a.parent a.tokens
    a.extraKey
  have hc₁ : Tracked F h W P (c.withTails c.tailLengths c.tailMetadata cleanup) :=
    ht.of_same rfl rfl rfl rfl (fun _ => Iff.rfl) rfl
  have hplain : a.hash c.config ≠ h → ∀ q, F q → F' q := fun hne => hkeep fun hrep => hne hrep.1
  unfold PrefixCache.storeLocked at hinline ⊢
  dsimp only at hinline ⊢
  by_cases hnew : a.replaceExisting = false ∧ (a.hash c.config ∈ c.disk ∨ a.hash c.config ∈ c.pending)
  · rw [if_pos hnew]
    exact ht.mono (hkeep fun hrep => by simp [hrep.2] at hnew)
  rw [if_neg hnew] at hinline ⊢
  have hp := storeReady_notMem hready hnew
  -- a plain store goes on only for a block without a file
  have hfile : a.replaceExisting = true ∨ a.hash c.config ∉ c.files := by
    cases hr : a.replaceExisting with
    | false =>
      refine Or.inr (ht.no_file hP (fun hmem => hnew ⟨hr, Or.inl hmem⟩) hp)
    | true => exact Or.inl rfl
  have hfresh : a.hash c.config = h → a.replaceExisting = true ∨
      ∀ q, c.files.lookup h = some q → F' q := by
    intro hk
    rw [← hk]
    exact hfile.imp_right fun hgone => fresh_of_notMem hgone
  have hdirty : Tracked F' h W P { c.withTails c.tailLengths c.tailMetadata cleanup with
      deferred := c.deferred.insert (a.hash c.config) (a.request c) } :=
    hc₁.defer _ (a.request c) rfl hp hplain hfresh
  rw [heq] at hinline ⊢
  by_cases hspill : c.config.spillHotOnEviction = true ∧ fitsHot c a.payload = true
  · -- a disposable RAM tier that can take the payload
    rw [if_pos hspill]
    split
    · rename_i e he
      split
      · rename_i hr
        have htouch := hc₁.touchHot (a.hash c.config)
        unfold PrefixCache.touchHot at htouch
        rw [he] at htouch
        exact htouch.mono (hkeep fun hrep => by simp [hrep.2] at hr)
      · exact storeDeferred hrem hP a hdirty
    · exact storeDeferred hrem hP a hdirty
  · rw [if_neg hspill] at hinline ⊢
    by_cases hdisk : c.config.maxDiskBytes = 0
    · rw [if_pos hdisk]
      have hgone : a.hash c.config ∉ c.files := ht.no_file hP (ht.diskless hdisk _).1 hp
      have hdropped : Tracked F' h W P (PrefixCache.dropDeferred
          (c.withTails c.tailLengths c.tailMetadata cleanup) (a.hash c.config)) := by
        by_cases hk : a.hash c.config = h
        · rw [hk] at hgone
          have hall : Tracked F' h W P (c.withTails c.tailLengths c.tailMetadata cleanup) :=
            ⟨hc₁.one, hc₁.named, hc₁.clean, hc₁.owned, hc₁.diskless,
              fun q hq => Or.inl (fresh_of_notMem hgone q hq)⟩
          exact hall.dropDeferred _ fun _ => Or.inl (fresh_of_notMem hgone)
        · exact (hc₁.mono (hplain hk)).dropDeferred _ fun heq => absurd heq hk
      split
      · exact hdropped
      · exact hdropped.storeHotOnly hrem hP a
    · rw [if_neg hdisk] at hinline ⊢
      have hclean : a.hash c.config ∉
          (enforceBudget env (reservedBytes (beforeWrite c a) a.payload.length)
            (beforeWrite c a)).deferred :=
        fun hmem => hno ⟨⟨hnew, hspill, hdisk⟩, hmem⟩
      unfold beforeWrite at hclean
      rw [heq] at hclean
      by_cases hrep : a.hash c.config = h ∧ a.replaceExisting = true
      · -- the dirty mark is gone, but the request that replaces the file is there
        have hall : Tracked (fun _ => True) h W P (PrefixCache.dropDeferred
            (c.withTails c.tailLengths c.tailMetadata cleanup) (a.hash c.config)) :=
          (hc₁.mono fun _ _ => trivial).dropDeferred _ fun _ => Or.inl fun _ _ => trivial
        obtain ⟨hstored, hrequest⟩ := hall.storeWrite hrem hP a hp hclean hdisk
        refine ⟨hstored.one, hstored.named, hstored.clean, hstored.owned, hstored.diskless,
          fun q _ => ?_⟩
        rcases hrequest with hout | ⟨-, hmem⟩
        · exact Or.inl (hinline hrep.1 hrep.2 hout q)
        · exact Or.inr (Or.inr ⟨_, hmem, hrep.1, hrep.2⟩)
      · have hdropped : Tracked F' h W P (PrefixCache.dropDeferred
            (c.withTails c.tailLengths c.tailMetadata cleanup) (a.hash c.config)) := by
          refine (hc₁.mono (hkeep hrep)).dropDeferred _ fun hk => Or.inl ?_
          exact (hfresh hk).resolve_left fun hr => hrep ⟨hk, hr⟩
        exact (hdropped.storeWrite hrem hP a hp hclean hdisk).1

/-! ### Writing -/

theorem settlePending (w : WriteRequest H)
    (ht : Tracked F h (fun k => W k + handed (some w) k) P c) :
    Tracked F h W P (settlePending c w.hash) := by
  have hmem : w.hash ∈ c.pending := by
    by_contra hnot
    have hone := ht.one w.hash
    rw [if_neg hnot] at hone
    simp [handed] at hone
  obtain ⟨p, hp⟩ := (Table.mem_iff _ _).mp hmem
  unfold PrefixCache.settlePending
  rw [hp]
  refine ⟨fun k => ?_, ht.named, fun k hk hq => ht.clean k hk (AList.mem_erase.mp hq).2,
    ⟨ht.owned.files, fun hT => hT.elim⟩, fun hzero => absurd hmem (ht.diskless hzero _).2,
    ht.file⟩
  have hone := ht.one k
  unfold queued handed at *
  simp only [AList.mem_erase]
  by_cases hk : w.hash = k
  · subst hk
    simp only [if_true, if_pos hmem] at hone
    simp only [ne_eq, not_true_eq_false, false_and, if_false]
    omega
  · have hk' : k ≠ w.hash := fun heq => hk heq.symm
    simp only [if_neg hk] at hone
    simp only [ne_eq, hk', not_false_eq_true, true_and]
    omega

/-- Hand the file of a finished write over to the index. -/
theorem registerFile (ht : Tracked F h W P c) (w : WriteRequest H) (file : Payload)
    (hPP : ∀ k, P k → P' k ∨ k = w.hash) (hdisk : c.config.maxDiskBytes ≠ 0) :
    Tracked F h W P' (registerFile c w file) := by
  unfold PrefixCache.registerFile
  dsimp only
  rw [dropDisk_eq]
  refine ⟨ht.one, ht.named, ht.clean, ⟨fun k hk => ?_, fun hT => hT.elim⟩,
    fun hzero => absurd hzero hdisk, ht.file⟩
  dsimp only
  rw [AList.mem_insert, AList.mem_erase]
  by_cases hkw : k = w.hash
  · exact Or.inl (Or.inl hkw)
  · rcases ht.owned.files k hk with hd | hpub
    · exact Or.inl (Or.inr ⟨hkw, hd⟩)
    · exact Or.inr ((hPP k hpub).resolve_right hkw)

/-- A writer gives up its claim on a file that is no longer there. -/
theorem disown (ht : Tracked F h W P c) (k₀ : H) (hgone : k₀ ∉ c.files)
    (hPP : ∀ k, P k → P' k ∨ k = k₀) : Tracked F h W P' c := by
  refine ⟨ht.one, ht.named, ht.clean, ⟨fun k hk => ?_, fun hT => hT.elim⟩, ht.diskless, ht.file⟩
  refine (ht.owned.files k hk).imp_right fun hpub => (hPP k hpub).resolve_right ?_
  rintro rfl
  exact hgone hk

theorem removeFile (ht : Tracked F h W P c) (hrem : env.RemovesSucceed) (k : H) :
    Tracked F h W P (removeFile env c k) ∧ k ∉ (removeFile env c k).files := by
  have hfiles : (PrefixCache.removeFile env c k).files = c.files.erase k := by
    simp [PrefixCache.removeFile, (hrem k).1]
  refine ⟨⟨ht.one, ht.named, ht.clean, ⟨fun j hj => ?_, fun hT => hT.elim⟩, ht.diskless,
    fun q hq => ?_⟩, fun hmem => ?_⟩
  · rw [hfiles] at hj
    exact ht.owned.files j (AList.mem_erase.mp hj).2
  · rw [hfiles] at hq
    exact ht.file q (Table.lookup_of_erase hq)
  · rw [hfiles] at hmem
    exact (AList.mem_erase.mp hmem).1 rfl

theorem finishWrite (w : WriteRequest H) (success : Bool)
    (ht : Tracked F h (fun k => W k + handed (some w) k) P c) (hrem : env.RemovesSucceed)
    (hP' : ∀ k, P' k → 0 < W k) (hPP : ∀ k, P k → P' k ∨ (success = true ∧ k = w.hash))
    (hstat : success = true → w.epoch = c.cacheEpoch → env.statFails w.hash = false) :
    Tracked F h W P' (finishWrite env c w success) := by
  have hdisk : c.config.maxDiskBytes ≠ 0 := by
    intro hzero
    have hone := ht.one w.hash
    rw [if_neg (ht.diskless hzero _).2] at hone
    simp [handed] at hone
  have hs := ht.settlePending w
  have hPP' : ∀ k, P k → P' k ∨ k = w.hash := fun k hk => (hPP k hk).imp_right And.right
  have hcontrol := SameControl.settlePending c w.hash
  unfold PrefixCache.finishWrite
  refine housekeeping hrem hP' (Housekeeping.pruneTailCleanup _) ?_
  refine trimming hP' (Trimming.forget _ _) ?_
  rw [← hcontrol.epoch] at hstat
  rw [← hcontrol.config] at hdisk
  generalize PrefixCache.settlePending c w.hash = c₀ at *
  unfold settleFile
  split
  · rename_i hcurrent
    have htext : Tracked F h W P (writeText env c₀ w) := by
      unfold writeText
      split
      · exact hs.of_same rfl rfl rfl rfl (fun _ => Iff.rfl) rfl
      · exact hs
    have hmax : (writeText env c₀ w).config = c₀.config := by
      unfold writeText
      split <;> rfl
    dsimp only
    split
    · rename_i file hfile
      rw [hstat hcurrent.1 hcurrent.2]
      refine enforcing hrem hP' (Enforcing.enforceBudget _ _ _) ?_
      exact htext.registerFile w file hPP' (hmax ▸ hdisk)
    · rename_i hnone
      exact htext.disown w.hash (AList.lookup_eq_none.mp hnone) hPP'
  · split
    · rename_i hfailed
      refine ⟨hs.one, hs.named, hs.clean, ⟨fun k hk => ?_, fun hT => hT.elim⟩, hs.diskless, hs.file⟩
      refine (hs.owned.files k hk).imp_right fun hpub => (hPP k hpub).resolve_right ?_
      rintro ⟨hsuccess, -⟩
      rw [hfailed] at hsuccess
      cases hsuccess
    · obtain ⟨hremoved, hgone⟩ := hs.removeFile hrem w.hash
      exact (hremoved.disown w.hash hgone hPP').of_same rfl rfl rfl rfl (fun _ => Iff.rfl) rfl

/-- A request taken from the queue is with the writer from then on. -/
theorem writerLoopHead (ht : Tracked F h W P c) (hrem : env.RemovesSucceed)
    (hP : ∀ k, P k → 0 < W k) (hF : ∀ q, F q → F' q)
    (htaken : ∀ w, (writerLoopHead env c).2 = some w → w.hash = h → w.replaceExisting = true →
      ∀ q, F' q) :
    Tracked F' h (fun k => W k + handed (writerLoopHead env c).2 k) P
      (writerLoopHead env c).1 := by
  have hr : Tracked F h W P (if c.clearing then c else trimForRamPressureLocked env c) := by
    split
    · exact ht
    · exact trimming hP (Trimming.ramPressure env c) ht
  unfold PrefixCache.writerLoopHead at htaken ⊢
  dsimp only at htaken ⊢
  generalize (if c.clearing then c else trimForRamPressureLocked env c) = c₁ at *
  split
  · have he := enforcing hrem hP (Enforcing.enforceDiskBudget env 0 1 c₁) hr
    exact (he.mono hF).of_same rfl rfl rfl rfl (fun _ => Iff.rfl) rfl
  · rename_i hbudget
    rw [if_neg hbudget] at htaken
    split
    · exact hr.mono hF
    · rename_i w rest hwrites
      rw [hwrites] at htaken
      refine ⟨fun k => ?_, hr.named, hr.clean, ⟨hr.owned.files, fun hT => hT.elim⟩, hr.diskless,
        fun q hq => ?_⟩
      · have hone := hr.one k
        unfold queued handed at *
        rw [hwrites, countP_cons] at hone
        simp only [decide_eq_true_eq] at hone
        dsimp only
        omega
      · rcases hr.file q hq with hFq | hdirty | ⟨v, hv, hhash, hrep⟩
        · exact Or.inl (hF q hFq)
        · exact Or.inr (Or.inl hdirty)
        · rw [hwrites] at hv
          rcases mem_cons.mp hv with rfl | hold
          · exact Or.inl (htaken v rfl hhash hrep q)
          · exact Or.inr (Or.inr ⟨v, hold, hhash, hrep⟩)

/-! ### Loading, pinning, refreshing -/

theorem sections (hP : ∀ k, P k → 0 < W k) : Sections Env.RemovesSucceed (Tracked F h W P) where
  limits _ _ ht := ht.of_same rfl rfl rfl rfl (fun _ => Iff.rfl) rfl
  vanish _ _ ht := ⟨ht.one, ht.named, ht.clean,
    ⟨fun k hk => ht.owned.files k (AList.mem_erase.mp hk).2, fun hT => hT.elim⟩, ht.diskless,
    fun q hq => ht.file q (Table.lookup_of_erase hq)⟩
  pins :=
    { pins := fun _ ht => ht.of_same rfl rfl rfl rfl (fun _ => Iff.rfl) rfl
      entry := fun _ ht he => ht.setDisk _ he rfl rfl rfl rfl rfl rfl }
  erase k hrem ht := ht.eraseCorruptLocked hrem hP k
  enforceBudget hrem := enforcing hrem hP (Enforcing.enforceBudget _ _ _)
  trimHotLocked n := trimming hP (Trimming.trimHotLocked n _)

/-- An entry is dropped whose file has vanished. -/
theorem dropVanished (ht : Tracked F h W P c) (k : H) (hgone : k ∉ c.files) :
    Tracked F h W P (dropDisk c k) := by
  rw [dropDisk_eq]
  refine ⟨ht.one, ht.named, ht.clean, ⟨fun j hj => ?_, fun hT => hT.elim⟩, fun hzero j => ?_,
    ht.file⟩
  · refine (ht.owned.files j hj).imp_left fun hd => AList.mem_erase.mpr ⟨?_, hd⟩
    rintro rfl
    exact hgone hj
  · exact ⟨fun hj => (ht.diskless hzero j).1 (AList.mem_erase.mp hj).2, (ht.diskless hzero j).2⟩

theorem dropUnreadable (ht : Tracked F h W P c) (hrem : env.RemovesSucceed)
    (hP : ∀ k, P k → 0 < W k) (k : H) : Tracked F h W P (dropUnreadable env c k) := by
  unfold PrefixCache.dropUnreadable
  split
  · rename_i hgone
    split
    · exact trimming hP (Trimming.forget _ _) (ht.dropVanished k hgone.1)
    · exact ht
  · exact ht.eraseCorruptLocked hrem hP k

theorem finishRequests (ht : Tracked F h W P c) (hrem : env.RemovesSucceed)
    (hP : ∀ k, P k → 0 < W k) (requests : List (LoadRequest H)) :
    Tracked F h W P (finishRequests env c requests).1 := by
  induction requests generalizing c with
  | nil => exact ht
  | cons r rest ih =>
    unfold PrefixCache.finishRequests
    split
    · exact ih (ht.touchHot r.hash)
    · exact ih ht
    · exact ih ((ht.putHotLocked hP r.hash _).touchDisk r.hash)
    · exact ht.dropUnreadable hrem hP r.hash

theorem refreshDiskIndex (ht : Tracked F h W P c) (hP : ∀ k, P k → 0 < W k) :
    Tracked F h W P (refreshDiskIndex env c) := by
  unfold PrefixCache.refreshDiskIndex
  refine List.foldlRecOn _ _ ht fun d hd k _ => ?_
  unfold refreshEntry
  split
  · exact hd
  · rename_i hpresent
    have hgone : k ∉ d.files := fun hmem => hpresent (Or.inl hmem)
    refine trimming hP (Trimming.forget _ _) ?_
    refine ((hd.dropVanished k hgone).dropHot k).dropDeferred k ?_
    rintro rfl
    rw [(SameDisk.dropHot _ k).files, dropDisk_eq]
    exact Or.inl (fresh_of_notMem hgone)

end Tracked

/-! ### Writers -/

/-- The writes of block `k` that writers have under way. -/
def writing (writers : Table WriterId (WriteCall H)) (k : H) : Nat :=
  Table.total (fun call => if call.phase ≠ .finished ∧ call.request.hash = k then 1 else 0)
    writers

/-- A writer has a replacing write of `h` that it has not published. -/
def unwrittenReplace (writers : Table WriterId (WriteCall H)) (h : H) : Prop :=
  ∃ id w, writers.lookup id = some ⟨w, .unwritten⟩ ∧ w.hash = h ∧ w.replaceExisting = true

variable {writers : Table WriterId (WriteCall H)} {id : WriterId} {call : WriteCall H}

theorem writing_pos (hcall : writers.lookup id = some call) (hopen : call.phase ≠ .finished) :
    0 < writing writers call.request.hash := by
  have hle := Table.le_total (fun c : WriteCall H =>
    if c.phase ≠ .finished ∧ c.request.hash = call.request.hash then 1 else 0) hcall
  simp only [hopen, ne_eq, not_false_eq_true, and_self, if_true] at hle
  exact hle

theorem published_writing (k : H) (hp : published writers k) : 0 < writing writers k := by
  obtain ⟨id, w, hw, rfl⟩ := hp
  exact writing_pos hw (by simp)

theorem unwrittenReplace_writing (hu : unwrittenReplace writers k) : 0 < writing writers k := by
  obtain ⟨id, w, hw, rfl, -⟩ := hu
  exact writing_pos hw (by simp)

variable {s : System H}

theorem writing_addWriter (hid : id ∉ s.writers) (w : Option (WriteRequest H)) :
    writing (s.addWriter id w).writers =
      fun k => writing s.writers k + Tracked.handed w k := by
  funext k
  cases w with
  | none => rfl
  | some v =>
    unfold writing System.addWriter Tracked.handed
    dsimp only
    rw [Table.total_insert_of_none _ (AList.lookup_eq_none.mpr hid)]
    simp [Nat.add_comm]

omit [DecidableEq H] in
theorem unwrittenReplace_addWriter (hid : id ∉ s.writers) (w : Option (WriteRequest H)) {h : H}
    (hu : unwrittenReplace s.writers h) :
    unwrittenReplace (s.addWriter id w).writers h := by
  obtain ⟨id', v, hv, hrest⟩ := hu
  cases w with
  | none => exact ⟨id', v, hv, hrest⟩
  | some w =>
    refine ⟨id', v, ?_, hrest⟩
    have hne : id' ≠ id := by
      rintro rfl
      exact hid (Table.mem_of_lookup hv)
    unfold System.addWriter
    dsimp only
    rw [AList.lookup_insert_ne hne]
    exact hv

omit [DecidableEq H] in
/-- A writer that is past publishing has no unpublished write. -/
theorem unwrittenReplace_insert {h : H}
    (hold : ∀ w, writers.lookup id = some ⟨w, .unwritten⟩ → w.hash = h → w.replaceExisting = false)
    (hu : unwrittenReplace writers h) : unwrittenReplace (writers.insert id call) h := by
  obtain ⟨id', v, hv, hhash, hrep⟩ := hu
  have hne : id' ≠ id := by
    rintro rfl
    rw [hold v hv hhash] at hrep
    cases hrep
  exact ⟨id', v, (AList.lookup_insert_ne hne).trans hv, hhash, hrep⟩

end TyloQuant.PrefixCache
