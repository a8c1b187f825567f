import TyloQuant.Lib.Transition
import TyloQuant.PrefixCache.Calls

/-!
# The paged prefix cache as a transition system

Threads call the cache concurrently.  Every stretch under `mutex_` is one action, and so is
every unlocked file operation: publishing a block file, reading one, and the removal of a
file by another process that shares the directory.  Between two actions of one call any
actions of other calls may happen; a condition-variable wait is a guard of the action that
follows it.  `step` is executable, so an interleaving can be replayed.

Calls are told apart by numbers chosen by the caller and used once.
-/

namespace TyloQuant.PrefixCache

open Lib

/-! ### Calls in flight -/

/-- A `load_prefix` between its two locked sections. -/
structure LoadCall (H : Type) where
  epoch : Nat
  requests : List (LoadRequest H)

/-- How far a write is: its file not yet published, published with this success, or settled
    by `finish_write` with only the active count left to lower. -/
inductive WritePhase where
  | unwritten
  | published (success : Bool)
  | finished
deriving DecidableEq, Repr

/-- A request taken by the writer thread or written inline by a `store`. -/
structure WriteCall (H : Type) where
  request : WriteRequest H
  phase : WritePhase

/-- Who writes: the background thread, or the `store` call with this number. -/
inductive WriterId where
  | thread
  | inline (call : Nat)
deriving DecidableEq, Repr

/-- What a `match` does next: check its next full block, read the tail table, or check the
    tails of these lengths. -/
inductive MatchPhase where
  | full
  | lookup
  | tails (lengths : List Nat)
  | done
deriving DecidableEq, Repr

/-- A `match` between two of its locked sections. -/
structure MatchCall (H : Type) where
  tokens : List Int
  extraKey : String
  parent : H
  blocks : List H := []
  matchedTokens : Nat := 0
  phase : MatchPhase := .full

/-- The cache with every call in flight and, as history, what finished loads returned. -/
structure System (H : Type) where
  cache : Cache H
  loads : Table Nat (LoadCall H) := ∅
  writers : Table WriterId (WriteCall H) := ∅
  matching : Table Nat (MatchCall H) := ∅
  returned : Table Nat (List Payload) := ∅

/-! ### Actions -/

/-- One locked section, or one unlocked file operation, of one call. -/
inductive Action (H : Type) where
  | store (call : Nat) (args : StoreArgs H) (env : Env H)
  | writerTick (env : Env H)
  | publish (writer : WriterId) (outcome : WriteOutcome)
  | finish (writer : WriterId) (env : Env H)
  | retire (writer : WriterId)
  | loadBegin (call : Nat) (blocks : List H)
  | loadRead (call index : Nat) (readable : Bool)
  | loadFinish (call : Nat) (env : Env H)
  | loadAbort (call : Nat) (env : Env H)
  | invalidate (block : H) (env : Env H)
  | pin (blocks : List H)
  | unpin (blocks : List H) (env : Env H)
  | trimHot (targetBytes : Nat)
  | setHotLimit (maxBytes : Nat)
  | setDiskLimit (maxBytes : Nat)
  | refreshDiskIndex (env : Env H)
  | clearBegin (env : Env H)
  | clearEnd
  | matchBegin (call : Nat) (tokens : List Int) (extraKey : String)
  | matchStep (call : Nat) (env : Env H)
  | vanish (block : H) (withText : Bool)

variable {H : Type} [DecidableEq H]

/-! ### Load and match calls -/

/-- Record the result of reading the file of one leased request. -/
def readRequest (files : Table H Payload) (readable : Bool) :
    Nat → List (LoadRequest H) → Option (List (LoadRequest H))
  | _, [] => none
  | 0, r :: rest =>
    match r.source with
    | .disk none => some (⟨r.hash, .disk (some (readPayload files r.hash readable))⟩ :: rest)
    | _ => none
  | n + 1, r :: rest => (readRequest files readable n rest).map (r :: ·)

/-- Every leased file has been read. -/
def readsDone (requests : List (LoadRequest H)) : Bool :=
  requests.all fun r => match r.source with
    | .disk none => false
    | _ => true

/-- The last locked section of `load_prefix`.  After a `clear` the call holds no lease any
    more and returns nothing. -/
def finishLoad (env : Env H) (c : Cache H) (load : LoadCall H) : Cache H × List Payload :=
  if load.epoch = c.cacheEpoch then
    let r := finishRequests env c load.requests
    (releaseDiskReadPinsLocked env r.1 load.requests, r.2)
  else (c, [])

/-- The exception path of `load_prefix`. -/
def abortLoad (env : Env H) (c : Cache H) (load : LoadCall H) : Cache H :=
  if load.epoch = c.cacheEpoch then releaseDiskReadPinsLocked env c load.requests else c

/-- Accept a block into the match. -/
def MatchCall.push (m : MatchCall H) (h : H) (count : Nat) : MatchCall H :=
  { m with blocks := m.blocks ++ [h], matchedTokens := m.matchedTokens + count }

/-- The next locked section of `match`. -/
def advanceMatch (env : Env H) (c : Cache H) (m : MatchCall H) : Cache H × MatchCall H :=
  match m.phase with
  | .full =>
    let size := c.config.blockSizeTokens
    let rest := m.tokens.drop m.matchedTokens
    if rest.length < size then (c, { m with phase := .lookup })
    else
      let h := c.config.blockHash m.parent (rest.take size) m.extraKey
      let r := checkBlock env c h m.parent size
      if r.2 then (r.1, { m.push h size with parent := h })
      else (r.1, { m with phase := .lookup })
  | .lookup =>
    let remaining := m.tokens.length - m.matchedTokens
    (c, { m with phase := .tails (tailCandidates c m.parent remaining) })
  | .tails [] => (c, { m with phase := .done })
  | .tails (count :: rest) =>
    let h := c.config.blockHash m.parent ((m.tokens.drop m.matchedTokens).take count) m.extraKey
    let r := checkBlock env c h m.parent count
    if r.2 then (r.1, { m.push h count with phase := .done })
    else (r.1, { m with phase := .tails rest })
  | .done => (c, m)

/-- The block itself, when a check would erase its entry as corrupt. -/
def checkErases (c : Cache H) (block parent : H) (count : Nat) : Option H :=
  match c.disk.lookup block with
  | none => none
  | some e => if e.parent ≠ parent ∨ e.tokenCount ≠ count then some block else none

/-- The block whose entry the next check of a `match` would erase as corrupt. -/
def matchErases (c : Cache H) (m : MatchCall H) : Option H :=
  let rest := m.tokens.drop m.matchedTokens
  let erased (count : Nat) : Option H :=
    checkErases c (c.config.blockHash m.parent (rest.take count) m.extraKey) m.parent count
  match m.phase with
  | .full =>
    if rest.length < c.config.blockSizeTokens then none else erased c.config.blockSizeTokens
  | .tails (count :: _) => erased count
  | _ => none

/-! ### The transition function -/

/-- Hand an inline write request to its caller's thread. -/
def System.addWriter (s : System H) (id : WriterId) : Option (WriteRequest H) → System H
  | none => s
  | some w => { s with writers := s.writers.insert id ⟨w, .unwritten⟩ }

/-- One action of one call; `none` when it is not enabled. -/
def step (s : System H) : Action H → Option (System H)
  | .store call args env =>
    if storeReady s.cache args = true ∧ WriterId.inline call ∉ s.writers then
      let r := storeLocked env s.cache args
      some ({ s with cache := r.1 }.addWriter (.inline call) r.2)
    else none
  | .writerTick env =>
    if WriterId.thread ∈ s.writers then none
    else
      let r := writerLoopHead env s.cache
      some ({ s with cache := r.1 }.addWriter .thread r.2)
  | .publish writer outcome =>
    match s.writers.lookup writer with
    | some ⟨w, .unwritten⟩ =>
      let r := writeFile s.cache.files w outcome
      some { s with
        cache := { s.cache with files := r.1 }
        writers := s.writers.insert writer ⟨w, .published r.2⟩ }
    | _ => none
  | .finish writer env =>
    match s.writers.lookup writer with
    | some ⟨w, .published success⟩ =>
      some { s with
        cache := finishWrite env s.cache w success
        writers := s.writers.insert writer ⟨w, .finished⟩ }
    | _ => none
  | .retire writer =>
    match s.writers.lookup writer with
    | some ⟨_, .finished⟩ =>
      some { s with
        cache := { s.cache with activeWrites := s.cache.activeWrites - 1 }
        writers := s.writers.erase writer }
    | _ => none
  | .loadBegin call blocks =>
    if call ∈ s.loads ∨ call ∈ s.returned then none
    else
      let r := leaseLocked s.cache blocks
      some { s with
        cache := r.1
        loads := s.loads.insert call ⟨s.cache.cacheEpoch, r.2⟩ }
  | .loadRead call index readable =>
    match s.loads.lookup call with
    | none => none
    | some load =>
      match readRequest s.cache.files readable index load.requests with
      | none => none
      | some requests =>
        some { s with loads := s.loads.insert call { load with requests := requests } }
  | .loadFinish call env =>
    match s.loads.lookup call with
    | none => none
    | some load =>
      if readsDone load.requests then
        let r := finishLoad env s.cache load
        some { s with
          cache := r.1
          loads := s.loads.erase call
          returned := s.returned.insert call r.2 }
      else none
  | .loadAbort call env =>
    match s.loads.lookup call with
    | none => none
    | some load =>
      some { s with
        cache := abortLoad env s.cache load
        loads := s.loads.erase call
        returned := s.returned.insert call [] }
  | .invalidate block env =>
    if block ∈ s.cache.pending then none
    else some { s with cache := (eraseCorruptLocked env s.cache block).1 }
  | .pin blocks => some { s with cache := blocks.foldl pinBlock s.cache }
  | .unpin blocks env => some { s with cache := unpin env s.cache blocks }
  | .trimHot targetBytes => some { s with cache := (trimHotLocked targetBytes s.cache).1 }
  | .setHotLimit maxBytes => some { s with cache := (setHotLimit s.cache maxBytes).1 }
  | .setDiskLimit maxBytes => some { s with cache := setDiskLimit s.cache maxBytes }
  | .refreshDiskIndex env =>
    if s.cache.writes = [] ∧ s.cache.activeWrites = 0 then
      some { s with cache := refreshDiskIndex env s.cache }
    else none
  | .clearBegin env =>
    if s.cache.clearing then none else some { s with cache := clearBegin env s.cache }
  | .clearEnd =>
    if s.cache.clearing = true ∧ s.cache.activeWrites = 0 then
      some { s with cache := { s.cache with clearing := false } }
    else none
  | .matchBegin call tokens extraKey =>
    if call ∈ s.matching then none
    else some { s with
      matching := s.matching.insert call
        { tokens := tokens, extraKey := extraKey, parent := s.cache.config.root } }
  | .matchStep call env =>
    match s.matching.lookup call with
    | none => none
    | some m =>
      let r := advanceMatch env s.cache m
      some { s with cache := r.1, matching := s.matching.insert call r.2 }
  | .vanish block withText =>
    some { s with
      cache := { s.cache with
        files := s.cache.files.erase block
        texts := if withText then s.cache.texts.erase block else s.cache.texts } }

/-- A cache just constructed over the block files it found. -/
def initial (env : Env H) (config : Config H) (found : List (FoundBlock H)) : System H :=
  { cache := openCache env config found }

/-! ### What a run is about -/

/-- The payload an action stores or replaces for block `h`. -/
def storesPayload (config : Config H) (h : H) (p : Payload) : Action H → Prop
  | .store _ args _ => args.hash config = h ∧ args.payload = p
  | _ => False

/-- The action is a `store` or `replace` of block `h`. -/
def storesBlock (config : Config H) (h : H) : Action H → Prop
  | .store _ args _ => args.hash config = h
  | _ => False

/-! ### A small instance, to replay interleavings on -/

/-- Blocks of four tokens; a hash is a number. -/
def smallConfig (maxDiskBytes maxHotBytes : Nat) (spill : Bool) : Config Nat where
  blockHash := fun parent tokens _ => parent + 1 + tokens.length
  root := 0
  blockSizeTokens := 4
  maxDiskBytes := maxDiskBytes
  maxHotBytes := maxHotBytes
  maxPendingWrites := 4
  maxPendingBytes := 1000
  retainTailVersions := 0
  spillHotOnEviction := spill
  minFreeRamBytes := 0

/-- Store (or replace) the first block, which `smallConfig` hashes to 5. -/
def storeFirst (call : Nat) (replace : Bool) (payload : Payload) : Action Nat :=
  .store call
    { parent := 0, tokens := [1, 2, 3, 4], payload := payload, replaceExisting := replace } {}

/-- The writer thread takes one request and writes it to the end. -/
def writeThrough : List (Action Nat) :=
  [.writerTick {}, .publish .thread .written, .finish .thread {}, .retire .thread]

/-- A cold load of the first block that has read its file. -/
def coldRead (call : Nat) : List (Action Nat) := [.loadBegin call [5], .loadRead call 0 true]

end TyloQuant.PrefixCache
