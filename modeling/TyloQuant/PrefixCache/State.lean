import TyloQuant.Lib.Table

/-!
# The paged prefix cache: its data

`PagedPrefixCache::Implementation` keeps KV blocks, addressed by the hash of their token chain, in
four places: `hot_` (payloads in RAM), `deferred_` (dirty RAM blocks not yet queued for writing),
`pending_` (payloads queued or being written) and `disk_` (the index of the `.mfqkv` files).  Three
unsigned counters run beside the maps, and tail tables list the partial blocks of a parent.

`Cache` is the private state of that class with the part of the cache directory it owns (`files`,
`texts`).  Left out: the metrics, file paths, the identity file and the `stopping_` flag.

Payload sizes are natural numbers.  The counters are `uint64_t`: every subtraction goes through
`subU64`, which wraps, and the ghost field `wraps` counts how often one did.
-/

namespace TyloQuant.PrefixCache

open Lib

/-- Largest `std::uint64_t`. -/
def u64Max : Nat := 2 ^ 64 - 1

/-- Unsigned 64-bit subtraction. -/
def subU64 (a b : Nat) : Nat := if b ≤ a then a - b else a + 2 ^ 64 - b

/-- One when `a - b` wraps. -/
def borrow (a b : Nat) : Nat := if b ≤ a then 0 else 1

/-- A serialized block, byte by byte. -/
abbrev Payload := List UInt8

/-- `kHeaderBytes`: magic, version, three hashes, two lengths, payload size, checksum. -/
def kHeaderBytes : Nat := 8 + 4 + 32 + 32 + 32 + 4 + 4 + 8 + 32

/-- `kDiskSafeDenominator`. -/
def kDiskSafeDenominator : Nat := 10

/-! ### Configuration and environment -/

/-- `PagedPrefixCacheConfig`, the fields the algorithms read.  `blockHash` is `block_hash`:
    SHA-256 over the compatibility hash, the parent, the extra key and the tokens; `root` is
    the all-zero parent of a first block. -/
structure Config (H : Type) where
  blockHash : H → List Int → String → H
  root : H
  blockSizeTokens : Nat
  maxDiskBytes : Nat
  maxHotBytes : Nat
  maxPendingWrites : Nat
  maxPendingBytes : Nat
  retainTailVersions : Nat
  spillHotOnEviction : Bool
  minFreeRamBytes : Nat

/-- What asking the file system for its free space gives: an error, an exception from the
    shared budget, or the bytes available and the bytes others reserved. -/
inductive DiskSpace where
  | unknown
  | unreadable
  | space (available reserved : Nat)

/-- What one locked section sees of the world: free space and RAM, which removals and which
    `stat` calls fail, which token texts are written, and the order in which an
    `unordered_map` is walked. -/
structure Env (H : Type) where
  space : DiskSpace := .unknown
  availableRam : Option Nat := none
  removeFails : H → Bool := fun _ => false
  textRemoveFails : H → Bool := fun _ => false
  statFails : H → Bool := fun _ => false
  textWritten : H → Bool := fun _ => true
  iteration : List H → List H := fun hs => hs

/-! ### Entries -/

/-- `DiskEntry`, without the path. -/
structure DiskEntry (H : Type) where
  parent : H
  tokenCount : Nat
  payloadBytes : Nat
  fileBytes : Nat
  lastUsed : Nat
  pins : Nat
deriving DecidableEq, Repr

/-- `HotEntry`. -/
structure HotEntry where
  payload : Payload
  lastUsed : Nat
deriving DecidableEq, Repr

/-- `WriteRequest`. -/
structure WriteRequest (H : Type) where
  hash : H
  parent : H
  tokenCount : Nat
  payload : Payload
  epoch : Nat
  replaceExisting : Bool
  tokens : List Int
deriving DecidableEq, Repr

/-! ### The state behind the mutex -/

/-- The private members of the cache that `mutex_` guards, and the directory's files. -/
structure Cache (H : Type) where
  config : Config H
  writes : List (WriteRequest H) := []
  pending : Table H Payload := ∅
  disk : Table H (DiskEntry H) := ∅
  hot : Table H HotEntry := ∅
  deferred : Table H (WriteRequest H) := ∅
  pins : Table H Nat := ∅
  tailLengths : Table H (Table Nat Nat) := ∅
  tailMetadata : Table H (H × Nat) := ∅
  tailCleanup : Table H (List H) := ∅
  diskBytes : Nat := 0
  hotBytes : Nat := 0
  pendingWriteBytes : Nat := 0
  clock : Nat := 0
  cacheEpoch : Nat := 0
  activeWrites : Nat := 0
  diskBudgetPending : Bool := false
  clearing : Bool := false
  /-- The `.mfqkv` files present, with the payload each holds. -/
  files : Table H Payload := ∅
  /-- The `.tokens` files present. -/
  texts : Table H (List Int) := ∅
  /-- Ghost: how many counter subtractions wrapped. -/
  wraps : Nat := 0

variable {H : Type} [DecidableEq H]

namespace Cache

/-- `hot_bytes_ -= n`. -/
def shrinkHot (c : Cache H) (n : Nat) : Cache H :=
  { c with hotBytes := subU64 c.hotBytes n, wraps := c.wraps + borrow c.hotBytes n }

/-- `disk_bytes_ -= n`. -/
def shrinkDisk (c : Cache H) (n : Nat) : Cache H :=
  { c with diskBytes := subU64 c.diskBytes n, wraps := c.wraps + borrow c.diskBytes n }

/-- The session pins of a block (`pins_`, zero when absent). -/
def pinsOf (c : Cache H) (h : H) : Nat := (c.pins.lookup h).getD 0

/-- `match`'s test that some tier still answers for a block. -/
def available (c : Cache H) (h : H) : Bool := decide (h ∈ c.disk ∨ h ∈ c.pending ∨ h ∈ c.hot)

/-- The payload a block stands for at present, apart from RAM copies: the dirty one, else the
    queued one, else the one in its indexed file. -/
def current (c : Cache H) (h : H) : Option Payload :=
  match c.deferred.lookup h with
  | some w => some w.payload
  | none =>
    match c.pending.lookup h with
    | some p => some p
    | none => if h ∈ c.disk then c.files.lookup h else none

end Cache

end TyloQuant.PrefixCache
