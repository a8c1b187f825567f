import TyloQuant.PrefixCache.State

/-!
# The paged prefix cache: its locked sections

Each definition here is the body of one `*_locked` function, or of one stretch of a public
function during which `mutex_` is held.  Loops of the source that shrink a map run on fuel
equal to the number of its entries; `Housekeeping.lean` shows that this is enough.
-/

namespace TyloQuant.PrefixCache

open Lib

variable {H : Type} [DecidableEq H]

/-! ### Tail tables -/

/-- The count of tails of one length goes down; empty rows and tables disappear. -/
def dropLength (tails : Table H (Table Nat Nat)) (parent : H) (count : Nat) :
    Table H (Table Nat Nat) :=
  match tails.lookup parent with
  | none => tails
  | some lengths =>
    let lengths' := match lengths.lookup count with
      | none => lengths
      | some n => if n = 1 then lengths.erase count else lengths.insert count (n - 1)
    if lengths'.entries.isEmpty then tails.erase parent else tails.insert parent lengths'

/-- `forget_tail_if_unused_locked`. -/
def forgetTailIfUnusedLocked (c : Cache H) (h : H) : Cache H :=
  if h ∈ c.disk ∨ h ∈ c.pending ∨ h ∈ c.hot then c
  else match c.tailMetadata.lookup h with
    | none => c
    | some (parent, count) =>
      { c with
        tailLengths := dropLength c.tailLengths parent count
        tailMetadata := c.tailMetadata.erase h }

/-- `remember_tail_locked`. -/
def rememberTailLocked (c : Cache H) (h parent : H) (count : Nat) : Cache H :=
  if count ≥ c.config.blockSizeTokens ∨ h ∈ c.tailMetadata then c
  else
    let lengths := (c.tailLengths.lookup parent).getD ∅
    { c with
      tailMetadata := c.tailMetadata.insert h (parent, count)
      tailLengths := c.tailLengths.insert parent
        (lengths.insert count ((lengths.lookup count).getD 0 + 1)) }

/-- The lengths of one parent's tails, longest first (`rbegin` … `rend` of a `std::map`). -/
def lengthsDescending (lengths : Table Nat Nat) : List Nat := lengths.keys.insertionSort (· ≥ ·)

/-- The shorter versions of a tail that are past the number to retain, longest first. -/
def supersededTails (c : Cache H) (parent : H) (tokens : List Int) (extraKey : String) :
    List Nat → Nat → List H
  | [], _ => []
  | length :: rest, retained =>
    if length ≥ tokens.length then supersededTails c parent tokens extraKey rest retained
    else
      let previous := c.config.blockHash parent (tokens.take length) extraKey
      if previous ∉ c.tailMetadata then
        supersededTails c parent tokens extraKey rest retained
      else if retained ≥ c.config.retainTailVersions then
        previous :: supersededTails c parent tokens extraKey rest (retained + 1)
      else supersededTails c parent tokens extraKey rest (retained + 1)

/-- `schedule_tail_cleanup_locked`. -/
def scheduleTailCleanupLocked (c : Cache H) (h parent : H) (tokens : List Int)
    (extraKey : String) : Cache H :=
  if c.config.retainTailVersions = 0 ∨ tokens.length > c.config.blockSizeTokens then c
  else match c.tailLengths.lookup parent with
    | none => c
    | some lengths =>
      let victims := (c.tailCleanup.lookup h).getD [] ++
        supersededTails c parent tokens extraKey (lengthsDescending lengths) 1
      { c with
        tailCleanup :=
          if victims.isEmpty then c.tailCleanup.erase h else c.tailCleanup.insert h victims }

/-! ### Removing one block from one tier -/

/-- `std::filesystem::remove` of a block's file. -/
def removeFile (env : Env H) (c : Cache H) (h : H) : Cache H :=
  { c with files := if env.removeFails h then c.files else c.files.erase h }

/-- `remove_text`: the error of the removal is dropped. -/
def removeText (env : Env H) (c : Cache H) (h : H) : Cache H :=
  { c with texts := if env.textRemoveFails h then c.texts else c.texts.erase h }

/-- Drop the index entry of a block and its bytes. -/
def dropDisk (c : Cache H) (h : H) : Cache H :=
  match c.disk.lookup h with
  | none => c
  | some e => { c.shrinkDisk e.fileBytes with disk := c.disk.erase h }

/-- Drop the RAM copy of a block and its bytes. -/
def dropHot (c : Cache H) (h : H) : Cache H :=
  match c.hot.lookup h with
  | none => c
  | some e => { c.shrinkHot e.payload.length with hot := c.hot.erase h }

/-- Drop the dirty mark of a block. -/
def dropDeferred (c : Cache H) (h : H) : Cache H :=
  { c with deferred := c.deferred.erase h }

/-! ### The RAM tier -/

/-- Which RAM block `trim_hot_locked` may evict: outside spill mode a block without a durable
    copy stays while a session pins it. -/
def hotEvictable (c : Cache H) (h : H) : Bool :=
  !(!c.config.spillHotOnEviction && decide (h ∉ c.disk) && decide (h ∈ c.pins))

/-- A dirty victim is queued for writing if there is a disk tier, else discarded. -/
def spillDeferred (c : Cache H) (h : H) : Cache H :=
  match c.deferred.lookup h with
  | none => c
  | some w =>
    if c.config.maxDiskBytes > 0 then
      { c with
        pending := c.pending.insert h w.payload
        pendingWriteBytes := c.pendingWriteBytes + w.payload.length
        writes := c.writes ++ [w]
        deferred := c.deferred.erase h }
    else dropDeferred c h

/-- One round of the loop of `trim_hot_locked`. -/
def evictHot (c : Cache H) (h : H) : Cache H :=
  forgetTailIfUnusedLocked (dropHot (spillDeferred c h) h) h

/-- The `while` loop of `trim_hot_locked`. -/
def trimHotLoop (targetBytes : Nat) : Nat → Cache H → Cache H
  | 0, c => c
  | fuel + 1, c =>
    if c.hotBytes ≤ targetBytes then c
    else match Table.leastRecent (fun h _ => hotEvictable c h) HotEntry.lastUsed c.hot with
      | none => c
      | some victim => trimHotLoop targetBytes fuel (evictHot c victim.1)

/-- `trim_hot_locked`, with the bytes it released. -/
def trimHotLocked (targetBytes : Nat) (c : Cache H) : Cache H × Nat :=
  let c' := trimHotLoop targetBytes c.hot.entries.length c
  (c', subU64 c.hotBytes c'.hotBytes)

/-- A payload the RAM tier can take at all. -/
def fitsHot (c : Cache H) (payload : Payload) : Bool :=
  !(decide (c.config.maxHotBytes = 0) || decide (payload.length > c.config.maxHotBytes))

/-- Insert a payload into the RAM tier as its newest block. -/
def insertHot (c : Cache H) (h : H) (payload : Payload) : Cache H :=
  { c with
    hot := c.hot.insert h ⟨payload, c.clock + 1⟩
    clock := c.clock + 1
    hotBytes := c.hotBytes + payload.length }

/-- `put_hot_locked`. -/
def putHotLocked (c : Cache H) (h : H) (payload : Payload) : Cache H :=
  if fitsHot c payload then
    (trimHotLocked c.config.maxHotBytes (insertHot (dropHot c h) h payload)).1
  else dropHot c h

/-- `trim_for_ram_pressure_locked`. -/
def trimForRamPressureLocked (env : Env H) (c : Cache H) : Cache H :=
  match env.availableRam with
  | none => c
  | some available =>
    if c.hotBytes = 0 ∨ available ≥ c.config.minFreeRamBytes then c
    else
      let shortage := c.config.minFreeRamBytes - available
      (trimHotLocked (if c.hotBytes > shortage then c.hotBytes - shortage else 0) c).1

/-! ### The disk tier -/

/-- `unreserved_disk_space`: what the cache manages and what is free, less what others hold. -/
def unreservedDiskSpace (managed available reserved : Nat) : Nat :=
  let free := if managed > u64Max - available then u64Max else managed + available
  if free > reserved then free - reserved else 0

/-- `effective_disk_budget_locked`. -/
def effectiveDiskBudgetLocked (env : Env H) (c : Cache H) : Nat :=
  match env.space with
  | .unknown => c.config.maxDiskBytes
  | .unreadable => 0
  | .space available reserved =>
    let m := unreservedDiskSpace c.diskBytes available reserved
    min c.config.maxDiskBytes (m - m / kDiskSafeDenominator)

/-- Which indexed block the budget may evict: in spill mode session pins do not count, so
    only a reader's lease on top of them protects it; a queued write always does. -/
def diskEvictable (c : Cache H) (h : H) (e : DiskEntry H) : Bool :=
  !(decide (e.pins > if c.config.spillHotOnEviction then c.pinsOf h else 0) ||
    decide (h ∈ c.pending))

/-- A block that loses its durable copy in spill mode while in RAM becomes dirty again. -/
def redefer (c : Cache H) (h : H) (e : DiskEntry H) : Cache H :=
  match c.hot.lookup h with
  | none => c
  | some hot =>
    if c.config.spillHotOnEviction = true ∧ h ∉ c.deferred then
      { c with
        deferred := c.deferred.insert h
          { hash := h, parent := e.parent, tokenCount := e.tokenCount, payload := hot.payload,
            epoch := c.cacheEpoch, replaceExisting := false, tokens := [] } }
    else c

/-- One round of the loop of `enforce_disk_budget_locked`, after the file is removed. -/
def evictDisk (env : Env H) (c : Cache H) (h : H) (e : DiskEntry H) : Cache H :=
  forgetTailIfUnusedLocked
    (dropDisk (redefer (removeText env (removeFile env c h) h) h e) h) h

/-- The `while` loop of `enforce_disk_budget_locked`, with the number evicted. -/
def enforceLoop (env : Env H) (target maxEvictions : Nat) : Nat → Nat → Cache H → Cache H × Nat
  | 0, evicted, c => (c, evicted)
  | fuel + 1, evicted, c =>
    if c.diskBytes ≤ target then (c, evicted)
    else match Table.leastRecent (diskEvictable c) DiskEntry.lastUsed c.disk with
      | none => (c, evicted)
      | some victim =>
        if env.removeFails victim.1 then (c, evicted)
        else if evicted + 1 ≥ maxEvictions then
          (evictDisk env c victim.1 victim.2, evicted + 1)
        else enforceLoop env target maxEvictions fuel (evicted + 1)
          (evictDisk env c victim.1 victim.2)

/-- `enforce_disk_budget_locked`, with its answer: whether more remains to be evicted. -/
def enforceDiskBudgetLocked (env : Env H) (reservedBytes maxEvictions : Nat) (c : Cache H) :
    Cache H × Bool :=
  let budget := effectiveDiskBudgetLocked env c
  let target := if reservedBytes ≥ budget then 0 else budget - reservedBytes
  let r := enforceLoop env target maxEvictions c.disk.entries.length 0 c
  (r.1, decide (r.1.diskBytes > target) && decide (r.2 = maxEvictions))

/-- `enforce_disk_budget_locked()` with its default arguments. -/
def enforceBudget (env : Env H) (reservedBytes : Nat) (c : Cache H) : Cache H :=
  (enforceDiskBudgetLocked env reservedBytes u64Max c).1

/-- `erase_corrupt_locked`, with its answer. -/
def eraseCorruptLocked (env : Env H) (c : Cache H) (h : H) : Cache H × Bool :=
  let c₁ := dropDeferred c h
  if h ∈ c₁.disk ∨ h ∈ c₁.hot then
    let c₂ := if h ∈ c₁.disk then dropDisk (removeText env (removeFile env c₁ h) h) h else c₁
    (forgetTailIfUnusedLocked (dropHot c₂ h) h, true)
  else (c₁, false)

/-! ### Superseded tails -/

/-- A superseded tail leaves every tier. -/
def supersede (env : Env H) (c : Cache H) (h : H) : Cache H :=
  let c₁ := if h ∈ c.disk then dropDisk (removeText env (removeFile env c h) h) h else c
  forgetTailIfUnusedLocked (dropDeferred (dropHot c₁ h) h) h

/-- Why a superseded tail has to wait: it is queued, pinned or leased, or its file stays. -/
def supersedeBlocked (env : Env H) (c : Cache H) (h : H) : Bool :=
  decide (h ∈ c.pending) || decide (h ∈ c.pins) ||
    (match c.disk.lookup h with
      | none => false
      | some e => decide (e.pins ≠ 0) || env.removeFails h)

/-- The inner loop of `prune_tail_cleanup_locked`, with the victims that stay listed. -/
def pruneVictims (env : Env H) : Cache H → List H → Cache H × List H
  | c, [] => (c, [])
  | c, victim :: rest =>
    if supersedeBlocked env c victim then
      let r := pruneVictims env c rest
      (r.1, victim :: r.2)
    else pruneVictims env (supersede env c victim) rest

/-- One entry of `tail_cleanup_`: it waits for the new tail to be durable (or resident when
    there is no disk tier) and is dropped when that tail is gone. -/
def pruneEntry (env : Env H) (c : Cache H) (key : H) : Cache H :=
  match c.tailCleanup.lookup key with
  | none => c
  | some victims =>
    if c.config.maxDiskBytes ≠ 0 ∧ key ∉ c.disk then
      if key ∈ c.pending then c else { c with tailCleanup := c.tailCleanup.erase key }
    else if c.config.maxDiskBytes = 0 ∧ key ∉ c.hot then
      { c with tailCleanup := c.tailCleanup.erase key }
    else
      let r := pruneVictims env c victims
      { r.1 with
        tailCleanup :=
          if r.2.isEmpty then r.1.tailCleanup.erase key else r.1.tailCleanup.insert key r.2 }

/-- `prune_tail_cleanup_locked`. -/
def pruneTailCleanupLocked (env : Env H) (c : Cache H) : Cache H :=
  (env.iteration c.tailCleanup.keys).foldl (pruneEntry env) c

end TyloQuant.PrefixCache
