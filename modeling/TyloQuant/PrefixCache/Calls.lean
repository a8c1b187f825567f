import TyloQuant.PrefixCache.Operations

/-!
# The paged prefix cache: its public calls

A public call of the cache is a sequence of locked sections with unlocked work between
them: `store` may write its file on the caller's thread, `load_prefix` reads cold files
after it has leased them, `clear` waits for writers.  This file has the locked sections of
every call, and the two unlocked file operations, `write_file` and `read_payload`.
-/

namespace TyloQuant.PrefixCache

open Lib

variable {H : Type} [DecidableEq H]

/-! ### Storing -/

/-- The arguments of `store` and, with `replaceExisting`, of `replace`. -/
structure StoreArgs (H : Type) where
  parent : H
  tokens : List Int
  payload : Payload
  extraKey : String := ""
  replaceExisting : Bool := false

/-- The block a `store` call is about. -/
def StoreArgs.hash (config : Config H) (a : StoreArgs H) : H :=
  config.blockHash a.parent a.tokens a.extraKey

/-- The write request a `store` call makes. -/
def StoreArgs.request (c : Cache H) (a : StoreArgs H) : WriteRequest H where
  hash := a.hash c.config
  parent := a.parent
  tokenCount := a.tokens.length
  payload := a.payload
  epoch := c.cacheEpoch
  replaceExisting := a.replaceExisting
  tokens := a.tokens

/-- What a `store` asks the budget to keep free: the payloads and headers of everything
    queued and of itself, saturating. -/
def reservedBytes (c : Cache H) (payloadBytes : Nat) : Nat :=
  let pendingFiles := c.pending.entries.length + 1
  let pendingHeaders :=
    if pendingFiles > u64Max / kHeaderBytes then u64Max else pendingFiles * kHeaderBytes
  let pendingPayloads :=
    if c.pendingWriteBytes > u64Max - payloadBytes then u64Max
    else c.pendingWriteBytes + payloadBytes
  if pendingPayloads > u64Max - pendingHeaders then u64Max
  else pendingPayloads + pendingHeaders

/-- The queue has no room for another payload of this size. -/
def pendingBytesFull (c : Cache H) (payloadBytes : Nat) : Bool :=
  decide (c.config.maxPendingBytes = 0) ||
    decide (payloadBytes > c.config.maxPendingBytes) ||
    decide (c.pendingWriteBytes > c.config.maxPendingBytes - payloadBytes)

/-- The branch of `store` for a disposable RAM tier: the block becomes dirty in RAM. -/
def storeDeferred (env : Env H) (c : Cache H) (a : StoreArgs H) : Cache H :=
  let h := a.hash c.config
  let c₁ : Cache H := { c with deferred := c.deferred.insert h (a.request c) }
  let c₂ := rememberTailLocked (putHotLocked c₁ h a.payload) h a.parent a.tokens.length
  trimForRamPressureLocked env (pruneTailCleanupLocked env c₂)

/-- The branch of `store` without a disk tier. -/
def storeHotOnly (env : Env H) (c : Cache H) (a : StoreArgs H) : Cache H :=
  let h := a.hash c.config
  let c₁ := putHotLocked c h a.payload
  let c₂ := if h ∈ c₁.hot then rememberTailLocked c₁ h a.parent a.tokens.length else c₁
  pruneTailCleanupLocked env c₂

/-- Account for one more queued payload. -/
def addPending (c : Cache H) (w : WriteRequest H) : Cache H :=
  { c with
    pending := c.pending.insert w.hash w.payload
    pendingWriteBytes := c.pendingWriteBytes + w.payload.length }

/-- The branch of `store` that writes: the budget makes room first, then the RAM copy is
    refreshed, then the payload is queued, or handed back to be written by the caller. -/
def storeWrite (env : Env H) (c : Cache H) (a : StoreArgs H) : Cache H × Option (WriteRequest H) :=
  let h := a.hash c.config
  let c₁ := enforceBudget env (reservedBytes c a.payload.length) c
  let c₂ := putHotLocked c₁ h a.payload
  let w := a.request c₂
  if c₂.writes.length ≥ c.config.maxPendingWrites ∨ pendingBytesFull c₂ a.payload.length then
    let c₃ := rememberTailLocked (addPending c₂ w) h a.parent a.tokens.length
    ({ c₃ with activeWrites := c₃.activeWrites + 1 }, some w)
  else
    let c₃ : Cache H := { addPending c₂ w with writes := c₂.writes ++ [w] }
    (rememberTailLocked c₃ h a.parent a.tokens.length, none)

/-- The locked section of `store`; an answer `some w` is the request left to write inline. -/
def storeLocked (env : Env H) (c : Cache H) (a : StoreArgs H) : Cache H × Option (WriteRequest H) :=
  let h := a.hash c.config
  if a.replaceExisting = false ∧ (h ∈ c.disk ∨ h ∈ c.pending) then (c, none)
  else
    let c₁ := scheduleTailCleanupLocked c h a.parent a.tokens a.extraKey
    if c.config.spillHotOnEviction = true ∧ fitsHot c a.payload = true then
      match c₁.hot.lookup h with
      | some e =>
        if a.replaceExisting = false then
          ({ c₁ with
              hot := c₁.hot.insert h { e with lastUsed := c₁.clock + 1 }
              clock := c₁.clock + 1 }, none)
        else (storeDeferred env c₁ a, none)
      | none => (storeDeferred env c₁ a, none)
    else
      let c₂ := dropDeferred c₁ h
      if c.config.maxDiskBytes = 0 then
        if a.replaceExisting = false ∧ h ∈ c₂.hot then (c₂, none)
        else (storeHotOnly env c₂ a, none)
      else storeWrite env c₂ a

/-- The wait of `store`: no clear is running, and a `replace` waits for its block's writes. -/
def storeReady (c : Cache H) (a : StoreArgs H) : Bool :=
  !c.clearing && (!a.replaceExisting || decide (a.hash c.config ∉ c.pending)) &&
    decide (a.tokens ≠ []) && decide (a.tokens.length ≤ c.config.blockSizeTokens)

theorem storeReady_notMem {c : Cache H} {a : StoreArgs H} (hready : storeReady c a = true)
    (hnew : ¬(a.replaceExisting = false ∧ (a.hash c.config ∈ c.disk ∨ a.hash c.config ∈ c.pending))) :
    a.hash c.config ∉ c.pending := by
  intro hmem
  cases hr : a.replaceExisting with
  | false => exact hnew ⟨hr, Or.inr hmem⟩
  | true => simp [storeReady, hr, hmem] at hready

/-! ### Writing -/

/-- How `write_file` ends: published, not published, or (a failed rename over an existing
    file, a removal that works and a second failed rename) neither old nor new file left. -/
inductive WriteOutcome where
  | written
  | failed
  | lost
deriving DecidableEq, Repr

/-- `write_file`: a plain store creates the file if absent and keeps an existing one, a
    replacing store renames over it.  The answer is the success it reports. -/
def writeFile (files : Table H Payload) (w : WriteRequest H) : WriteOutcome → Table H Payload × Bool
  | .written =>
    if w.replaceExisting = false ∧ w.hash ∈ files then (files, true)
    else (files.insert w.hash w.payload, true)
  | .failed => (files, false)
  | .lost => if w.replaceExisting then (files.erase w.hash, false) else (files, false)

/-- The bookkeeping of a finished write: its payload is no longer pending. -/
def settlePending (c : Cache H) (h : H) : Cache H :=
  match c.pending.lookup h with
  | none => c
  | some p =>
    { c with
      pendingWriteBytes :=
        if p.length > c.pendingWriteBytes then 0 else c.pendingWriteBytes - p.length
      pending := c.pending.erase h }

/-- `write_text`: the token text goes next to the block, unless space or permissions fail. -/
def writeText (env : Env H) (c : Cache H) (w : WriteRequest H) : Cache H :=
  if env.textWritten w.hash then { c with texts := c.texts.insert w.hash w.tokens } else c

/-- Index a published file.  The entry keeps the pins of the one it takes over. -/
def registerFile (c : Cache H) (w : WriteRequest H) (file : Payload) : Cache H :=
  let diskPins := match c.disk.lookup w.hash with
    | none => c.pinsOf w.hash
    | some previous => max (c.pinsOf w.hash) previous.pins
  let c₁ := dropDisk c w.hash
  let fileBytes := kHeaderBytes + file.length
  { c₁ with
    disk := c₁.disk.insert w.hash
      { parent := w.parent, tokenCount := w.tokenCount, payloadBytes := w.payload.length,
        fileBytes := fileBytes, lastUsed := c₁.clock + 1, pins := diskPins }
    clock := c₁.clock + 1
    diskBytes := c₁.diskBytes + fileBytes }

/-- The middle part of `finish_write`: index the file, or take away one from an older epoch. -/
def settleFile (env : Env H) (c : Cache H) (w : WriteRequest H) (success : Bool) : Cache H :=
  if success = true ∧ w.epoch = c.cacheEpoch then
    let c₁ := writeText env c w
    match c₁.files.lookup w.hash with
    | some file =>
      if env.statFails w.hash then c₁ else enforceBudget env 0 (registerFile c₁ w file)
    | none => c₁
  else if success = false then c
  else removeText env (removeFile env c w.hash) w.hash

/-- `finish_write`. -/
def finishWrite (env : Env H) (c : Cache H) (w : WriteRequest H) (success : Bool) : Cache H :=
  pruneTailCleanupLocked env
    (forgetTailIfUnusedLocked (settleFile env (settlePending c w.hash) w success) w.hash)

/-- The locked section at the head of `writer_loop`: RAM pressure, then one eviction if the
    disk limit changed, else the next request of the queue. -/
def writerLoopHead (env : Env H) (c : Cache H) : Cache H × Option (WriteRequest H) :=
  let c₁ := if c.clearing then c else trimForRamPressureLocked env c
  if c₁.diskBudgetPending then
    let r := enforceDiskBudgetLocked env 0 1 c₁
    ({ r.1 with diskBudgetPending := r.2 }, none)
  else match c₁.writes with
    | [] => (c₁, none)
    | w :: rest => ({ c₁ with writes := rest, activeWrites := c₁.activeWrites + 1 }, some w)

/-! ### Loading -/

/-- Where `load_prefix` found a block: a payload shared from RAM or from the write queue, or
    a leased file with the result of reading it, once it is read. -/
inductive LoadSource where
  | hot (payload : Payload)
  | pending (payload : Payload)
  | disk (read : Option (Option Payload))
deriving DecidableEq, Repr

/-- `LoadRequest`. -/
structure LoadRequest (H : Type) where
  hash : H
  source : LoadSource
deriving DecidableEq, Repr

/-- Take one reader's lease on a file. -/
def leaseFile (c : Cache H) (h : H) (e : DiskEntry H) : Cache H :=
  { c with disk := c.disk.insert h { e with pins := e.pins + 1 } }

/-- The first locked section of `load_prefix`: the longest prefix every block of which some
    tier has. -/
def leaseLocked : Cache H → List H → Cache H × List (LoadRequest H)
  | c, [] => (c, [])
  | c, h :: rest =>
    match c.hot.lookup h with
    | some e =>
      let r := leaseLocked c rest
      (r.1, ⟨h, .hot e.payload⟩ :: r.2)
    | none =>
      match c.pending.lookup h with
      | some p =>
        let r := leaseLocked c rest
        (r.1, ⟨h, .pending p⟩ :: r.2)
      | none =>
        match c.disk.lookup h with
        | some e =>
          let r := leaseLocked (leaseFile c h e) rest
          (r.1, ⟨h, .disk none⟩ :: r.2)
        | none => (c, [])

/-- `read_payload` on the file of a block, as it is at this moment. -/
def readPayload (files : Table H Payload) (h : H) (readable : Bool) : Option Payload :=
  if readable then files.lookup h else none

/-- A RAM hit is the most recently used block. -/
def touchHot (c : Cache H) (h : H) : Cache H :=
  match c.hot.lookup h with
  | none => c
  | some e =>
    { c with hot := c.hot.insert h { e with lastUsed := c.clock + 1 }, clock := c.clock + 1 }

/-- A disk hit is the most recently used file. -/
def touchDisk (c : Cache H) (h : H) : Cache H :=
  match c.disk.lookup h with
  | none => c
  | some e =>
    { c with disk := c.disk.insert h { e with lastUsed := c.clock + 1 }, clock := c.clock + 1 }

/-- A leased file that could not be read: its entry goes if the file is gone, else the block
    is erased as corrupt. -/
def dropUnreadable (env : Env H) (c : Cache H) (h : H) : Cache H :=
  if h ∉ c.files ∧ env.statFails h = false then
    if h ∈ c.disk then forgetTailIfUnusedLocked (dropDisk c h) h else c
  else (eraseCorruptLocked env c h).1

/-- The loop of the last locked section of `load_prefix`, up to the first unreadable block. -/
def finishRequests (env : Env H) : Cache H → List (LoadRequest H) → Cache H × List Payload
  | c, [] => (c, [])
  | c, r :: rest =>
    match r.source with
    | .hot p =>
      let t := finishRequests env (touchHot c r.hash) rest
      (t.1, p :: t.2)
    | .pending p =>
      let t := finishRequests env c rest
      (t.1, p :: t.2)
    | .disk (some (some p)) =>
      let t := finishRequests env (touchDisk (putHotLocked c r.hash p) r.hash) rest
      (t.1, p :: t.2)
    | .disk _ => (dropUnreadable env c r.hash, [])

/-- The block at which a finishing load meets a file it could not read. -/
def unreadableBlock : List (LoadRequest H) → Option H
  | [] => none
  | r :: rest =>
    match r.source with
    | .disk (some (some _)) => unreadableBlock rest
    | .disk _ => some r.hash
    | _ => unreadableBlock rest

/-- Give back one lease. -/
def releaseLease (c : Cache H) (h : H) : Cache H :=
  match c.disk.lookup h with
  | none => c
  | some e => { c with disk := c.disk.insert h { e with pins := e.pins - 1 } }

/-- The blocks whose files a list of requests leased. -/
def leased (requests : List (LoadRequest H)) : List H :=
  requests.filterMap fun r => match r.source with
    | .disk _ => some r.hash
    | _ => none

/-- `release_disk_read_pins_locked`. -/
def releaseDiskReadPinsLocked (env : Env H) (c : Cache H) (requests : List (LoadRequest H)) :
    Cache H :=
  enforceBudget env 0 ((leased requests).foldl releaseLease c)

/-! ### Matching -/

/-- The locked check `match` makes of one block: an entry that contradicts the token chain
    is erased, and the answer says whether some tier has the block. -/
def checkBlock (env : Env H) (c : Cache H) (h parent : H) (count : Nat) : Cache H × Bool :=
  match c.disk.lookup h with
  | none => (c, c.available h)
  | some e =>
    if e.parent ≠ parent ∨ e.tokenCount ≠ count then
      let c' := (eraseCorruptLocked env c h).1
      (c', c'.available h)
    else (c, c.available h)

/-- The lengths of the tails under `parent` that the rest of the prompt could hold. -/
def tailCandidates (c : Cache H) (parent : H) (remaining : Nat) : List Nat :=
  match c.tailLengths.lookup parent with
  | none => []
  | some lengths => (lengthsDescending lengths).filter fun n => decide (n ≤ remaining)

/-! ### Pins, limits, index refresh, clear -/

/-- `pin`, one block. -/
def pinBlock (c : Cache H) (h : H) : Cache H :=
  let c₁ : Cache H := { c with pins := c.pins.insert h (c.pinsOf h + 1) }
  match c₁.disk.lookup h with
  | none => c₁
  | some e => { c₁ with disk := c₁.disk.insert h { e with pins := e.pins + 1 } }

/-- `unpin`, one block. -/
def unpinBlock (c : Cache H) (h : H) : Cache H :=
  let c₁ : Cache H := match c.pins.lookup h with
    | none => c
    | some n => { c with pins := if n = 1 then c.pins.erase h else c.pins.insert h (n - 1) }
  releaseLease c₁ h

/-- `unpin`. -/
def unpin (env : Env H) (c : Cache H) (blocks : List H) : Cache H :=
  enforceBudget env 0 (blocks.foldl unpinBlock c)

/-- `set_hot_limit`. -/
def setHotLimit (c : Cache H) (maxBytes : Nat) : Cache H × Nat :=
  trimHotLocked maxBytes { c with config := { c.config with maxHotBytes := maxBytes } }

/-- `set_disk_limit`. -/
def setDiskLimit (c : Cache H) (maxBytes : Nat) : Cache H :=
  if c.config.maxDiskBytes = maxBytes then c
  else
    { c with
      config := { c.config with maxDiskBytes := maxBytes }
      diskBudgetPending := true }

/-- `refresh_disk_index`, one entry: a block whose file is gone leaves every tier. -/
def refreshEntry (env : Env H) (c : Cache H) (h : H) : Cache H :=
  if h ∈ c.files ∨ env.statFails h = true then c
  else forgetTailIfUnusedLocked (dropDeferred (dropHot (dropDisk c h) h) h) h

/-- `refresh_disk_index`. -/
def refreshDiskIndex (env : Env H) (c : Cache H) : Cache H :=
  (env.iteration c.disk.keys).foldl (refreshEntry env) c

/-- `clear`, up to its wait for the writers. -/
def clearBegin (env : Env H) (c : Cache H) : Cache H :=
  let swept := c.disk.keys.foldl (fun c h => removeText env (removeFile env c h) h) c
  { swept with
    clearing := true
    cacheEpoch := c.cacheEpoch + 1
    writes := []
    pending := ∅
    pendingWriteBytes := 0
    disk := ∅
    hot := ∅
    deferred := ∅
    tailCleanup := ∅
    pins := ∅
    tailLengths := ∅
    tailMetadata := ∅
    diskBytes := 0
    hotBytes := 0 }

/-- A block file `scan` accepts: its header names the hash its path has, and its size fits. -/
structure FoundBlock (H : Type) where
  hash : H
  parent : H
  tokenCount : Nat
  payload : Payload
  text : Option (List Int) := none

/-- `scan`, one file, oldest first. -/
def scanEntry (c : Cache H) (b : FoundBlock H) : Cache H :=
  if b.hash ∈ c.disk then c
  else
    let fileBytes := kHeaderBytes + b.payload.length
    let c₁ : Cache H :=
      { c with
        disk := c.disk.insert b.hash
          { parent := b.parent, tokenCount := b.tokenCount, payloadBytes := b.payload.length,
            fileBytes := fileBytes, lastUsed := c.clock + 1, pins := 0 }
        clock := c.clock + 1
        diskBytes := c.diskBytes + fileBytes
        files := c.files.insert b.hash b.payload
        texts := match b.text with
          | none => c.texts
          | some tokens => c.texts.insert b.hash tokens }
    rememberTailLocked c₁ b.hash b.parent b.tokenCount

/-- The constructor: scan the directory, then enforce the budget. -/
def openCache (env : Env H) (config : Config H) (found : List (FoundBlock H)) : Cache H :=
  enforceBudget env 0 (found.foldl scanEntry { config := config })

end TyloQuant.PrefixCache
