import TyloQuant.PrefixCache.Accounting
import TyloQuant.PrefixCache.Files

/-!
# Opening a cache without a disk tier

The constructor indexes every block file it finds and only then enforces the budget.  When the
budget is zero, the loop of `enforce_disk_budget_locked` goes on until the index is empty: no
entry is pinned yet, every entry has a size, and the bound on the number of evictions is out
of reach.
-/

namespace TyloQuant.PrefixCache

open Lib

variable {H : Type} [DecidableEq H]

omit [DecidableEq H] in
theorem effectiveDiskBudget_zero (env : Env H) {c : Cache H} (hzero : c.config.maxDiskBytes = 0) :
    effectiveDiskBudgetLocked env c = 0 := by
  unfold effectiveDiskBudgetLocked
  split
  · exact hzero
  · rfl
  · rw [hzero]
    exact Nat.zero_min _

theorem enforceLoop_evicted (env : Env H) (target maxEvictions fuel evicted : Nat)
    (c : Cache H) : (enforceLoop env target maxEvictions fuel evicted c).2 ≤ evicted + fuel := by
  induction fuel generalizing c evicted with
  | zero => exact Nat.le_refl _
  | succ fuel ih =>
    unfold enforceLoop
    split
    · exact Nat.le_add_right _ _
    · split
      · exact Nat.le_add_right _ _
      · split
        · exact Nat.le_add_right _ _
        · split
          · exact Nat.add_le_add_left (Nat.le_add_left 1 fuel) evicted
          · exact (ih (evicted + 1) _).trans (by omega)

/-- What the scan leaves to the budget: unpinned entries with a size, and an empty queue. -/
structure Unclaimed (c : Cache H) : Prop where
  pending : c.pending = ∅
  entry : ∀ k e, c.disk.lookup k = some e → e.pins = 0 ∧ 0 < e.fileBytes

theorem Unclaimed.enforcing {env : Env H} {c c' : Cache H} (ht : Enforcing env c c')
    (hc : Unclaimed c) : Unclaimed c' := by
  refine keeps (fun d d' hm hd => ?_) ht hc
  cases hm with
  | tails => exact ⟨hd.pending, hd.entry⟩
  | evictDisk k e =>
    refine ⟨?_, fun j f hf => ?_⟩
    · have hsame : (unlinkDisk env (redefer d k e) k).pending = (redefer d k e).pending := by
        unfold unlinkDisk
        rw [dropDisk_eq]
        rfl
      rw [hsame]
      unfold redefer
      split
      · exact hd.pending
      · split <;> exact hd.pending
    · rw [unlinkDisk_disk, (SameDisk.redefer d k e).disk] at hf
      split at hf
      · cases hf
      · exact hd.entry j f hf

theorem unclaimed_scan (config : Config H) (found : List (FoundBlock H)) :
    Unclaimed (found.foldl scanEntry { config := config }) ∧
      (found.foldl scanEntry { config := config }).disk.entries.length ≤ found.length := by
  have hscan : ∀ (c : Cache H), Unclaimed c → Unclaimed (found.foldl scanEntry c) ∧
      (found.foldl scanEntry c).disk.entries.length ≤ c.disk.entries.length + found.length := by
    induction found with
    | nil => exact fun c hc => ⟨hc, Nat.le_refl _⟩
    | cons b found ih =>
      intro c hc
      have hone : Unclaimed (scanEntry c b) ∧
          (scanEntry c b).disk.entries.length ≤ c.disk.entries.length + 1 := by
        unfold scanEntry
        split
        · exact ⟨hc, Nat.le_succ _⟩
        · rename_i hnew
          obtain ⟨lengths, metadata, heq⟩ := rememberTailLocked_eq _ b.hash b.parent b.tokenCount
          rw [heq]
          refine ⟨⟨hc.pending, Table.forall_insert hc.entry ⟨rfl, ?_⟩⟩, ?_⟩
          · exact Nat.lt_of_lt_of_le (by decide) (Nat.le_add_right kHeaderBytes _)
          · show (AList.insert b.hash _ c.disk).entries.length ≤ _
            rw [AList.entries_insert, List.length_cons]
            refine Nat.succ_le_succ ?_
            have herase := erase_of_lookup_none (AList.lookup_eq_none.mpr hnew)
            exact le_of_eq (congrArg (fun t => t.entries.length) herase)
      obtain ⟨hrest, hlen⟩ := ih (scanEntry c b) hone.1
      refine ⟨hrest, hlen.trans ?_⟩
      rw [List.length_cons]
      omega
  have hempty : Unclaimed ({ config := config } : Cache H) := by
    refine ⟨rfl, fun k e he => ?_⟩
    rw [AList.lookup_empty] at he
    cases he
  obtain ⟨hall, hlen⟩ := hscan { config := config } hempty
  exact ⟨hall, hlen.trans (le_of_eq (Nat.zero_add _))⟩

/-- Without a disk tier the budget empties what the scan found. -/
theorem openCache_diskless {env : Env H} {config : Config H} {found : List (FoundBlock H)}
    (hrem : env.RemovesSucceed) (hfew : found.length < u64Max) (hzero : config.maxDiskBytes = 0)
    (k : H) : k ∉ (openCache env config found).disk := by
  intro hmem
  obtain ⟨e, he⟩ := (Table.mem_iff _ _).mp hmem
  have hbytes : (openCache env config found).diskBytes =
      diskTotal (openCache env config found).disk := (Accounted.openCache config found).disk
  obtain ⟨hscan, hlen⟩ := unclaimed_scan config found
  have hunclaimed : Unclaimed (openCache env config found) :=
    hscan.enforcing (Enforcing.enforceBudget env 0 _)
  obtain ⟨hpins, hsize⟩ := hunclaimed.entry k e he
  have hbudget : effectiveDiskBudgetLocked env (found.foldl scanEntry { config := config }) = 0 :=
    effectiveDiskBudget_zero env ((Steady.scan config found).config ▸ hzero)
  have hexit := enforceLoop_exit env 0 u64Max
    (found.foldl scanEntry { config := config }).disk.entries.length 0 _ (Nat.le_refl _)
  have hevicted := enforceLoop_evicted env 0 u64Max
    (found.foldl scanEntry { config := config }).disk.entries.length 0
    (found.foldl scanEntry { config := config })
  have hopen : openCache env config found = (enforceLoop env 0 u64Max
      (found.foldl scanEntry { config := config }).disk.entries.length 0
      (found.foldl scanEntry { config := config })).1 := by
    unfold openCache enforceBudget enforceDiskBudgetLocked
    rw [hbudget]
    rfl
  dsimp only at hexit
  rw [← hopen] at hexit
  rcases hexit with hmet | hnone | ⟨j, -, hfails⟩ | hmany
  · have hle : e.fileBytes ≤ diskTotal (openCache env config found).disk :=
      Table.le_total DiskEntry.fileBytes he
    omega
  · have hkept := Table.leastRecent_none hnone he
    simp [diskEvictable, hpins, hunclaimed.pending] at hkept
  · rw [(hrem j).1] at hfails
    cases hfails
  · omega

end TyloQuant.PrefixCache
