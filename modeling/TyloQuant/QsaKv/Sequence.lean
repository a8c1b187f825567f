import TyloQuant.QsaKv.Store

/-!
# Sequences and snapshots

`QsaKvSequence` is a row list kept as sealed microblocks and a tail, in memory or sealed too.
A snapshot is a copy of that record: it shares the blocks.  The operations are written on the
state of a whole process, since what the call in progress points to decides which blocks may go.

`lists` is not part of the code: the row lists that the same operations give on plain lists.
-/

namespace TyloQuant.QsaKv

open Lib

/-! ### The data -/

/-- `QsaKvSequenceSnapshot`, also the state of a sequence. -/
structure Snapshot where
  rowBytes : Nat
  blockRows : Nat
  priority : Int
  position : Nat := 0
  blocks : List Nat := []
  tail : Bytes := []
  tailBlock : Option Nat := none
deriving DecidableEq

/-- The blocks a record points to. -/
def Snapshot.pointers (st : Snapshot) : List Nat := st.blocks ++ st.tailBlock.toList

abbrev Row := Bytes

/-- The plain lists. -/
structure Lists where
  sequences : Nat → List Row := fun _ => []
  snapshots : Nat → List Row := fun _ => []

structure System where
  store : QsaKvStore
  sequences : Table Nat Snapshot := ∅
  snapshots : Table Nat Snapshot := ∅
  /-- What the variables of the call in progress point to. -/
  locals : List Nat := []
  schedule : List Turn := []
  lists : Lists := {}

/-- A client points to the block. -/
def System.held (s : System) (id : Nat) : Bool :=
  s.locals.contains id ||
    s.sequences.entries.any (fun e => e.2.pointers.contains id) ||
    s.snapshots.entries.any (fun e => e.2.pointers.contains id)

abbrev Op (α : Type) := Call String System α

namespace Op

open Call

/-! ### Waiting, and holding on -/

/-- The background steps of one burst. -/
def burst (held : Nat → Bool) : List Background → QsaKvStore → Option QsaKvStore
  | [], c => some c
  | b :: bs, c => (c.background held b).bind (burst held bs)

/-- A place where the background runs. -/
def turn : Op Turn := fun s =>
  match s.schedule with
  | [] => some (.ok {}, s)
  | t :: rest => (burst s.held t.steps s.store).map fun store =>
    (.ok t, { s with store, schedule := rest })

/-- Run a call while a variable points to some blocks. -/
def holding {α : Type} (ids : List Nat) (x : Op α) : Op α := fun s =>
  (x { s with locals := ids ++ s.locals }).map fun out =>
    (out.1, { out.2 with locals := s.locals })

def modifyStore (f : QsaKvStore → QsaKvStore) : Op Unit :=
  modify fun s => { s with store := f s.store }

/-- `check()`. -/
def check : Op Unit := do
  let s ← get
  match s.store.error with
  | none => pure ()
  | some e => throw e

/-! ### The store -/

/-- The least recent block of the first priority that has any; `none` where the code would read
    the end of an empty list. -/
def coldest (c : QsaKvStore) : Option Nat :=
  if c.lru 0 ≠ [] then (c.lru 0).getLast?
  else if c.lru 1 ≠ [] then (c.lru 1).getLast?
  else (c.lru 2).getLast?

/-- The block is handed to the worker. -/
def enqueue (c : QsaKvStore) (id : Nat) (block : Block) (payload : Bytes) : QsaKvStore :=
  { c.setBlock id { block with pending := some payload, queued := true } with
    pendingBytes := c.pendingBytes + block.bytes
    diskBytes := c.diskBytes + block.bytes
    queue := c.queue ++ [id] }

/-- Wait until the worker has room for the block, and hand it over.  `false` sends the eviction
    loop back to its head. -/
def handOver (id size : Nat) : Op Bool := do
  let _ ← turn
  let s ← get
  if s.store.error.isNone ∧ s.store.bufferBytes / 2 - size < s.store.pendingBytes then blocked
  else
    check
    match s.store.hot.lookup id, s.store.blocks.lookup id with
    | some payload, some block =>
      if block.queued || block.ready then pure false
      else
        modifyStore fun c => enqueue c id block payload
        pure true
    | _, _ => pure false

/-- Before a block leaves the RAM: if it was never handed to the worker, hand it over. -/
def spill (id : Nat) : Op Bool := do
  let s ← get
  match s.store.blocks.lookup id with
  | none => pure true
  | some block =>
    -- `weak_ptr::lock` fails when nobody points to the block any more.
    let alive := s.held id || s.store.queue.contains id ||
      s.store.writing.map Prod.fst == some id
    if !alive || block.ready || block.queued then pure true
    else holding [id] (handOver id block.bytes)

/-- The hot entry of a victim goes. -/
def forget (id : Nat) : Op Unit := modifyStore fun c =>
  match c.blocks.lookup id with
  | none => c
  | some block => c.dropHot id block.priority

/-- The eviction loop. -/
def evict : Nat → Op Unit
  | 0 => blocked
  | fuel + 1 => do
      let s ← get
      if s.store.hotBytes ≤ s.store.hotLimit ∨ s.store.hot.entries = [] then pure ()
      else match coldest s.store with
        | none => blocked
        | some id =>
          let goOn ← spill id
          if goOn then forget id else pure ()
          evict fuel

/-- One pass for each hot entry, and one to find nothing left to do. -/
def evictAll : Op Unit := do
  let s ← get
  evict (s.store.hot.entries.length + 1)

/-- A new block, hot, at a free place of its size or at the end of the file. -/
def allocate (c : QsaKvStore) (bytes : Bytes) (priority : Nat) : QsaKvStore :=
  let size := bytes.length
  let id := c.nextId + 1
  let c := { c with
    nextId := id
    liveBlocks := c.liveBlocks + 1
    lru := Function.update c.lru priority (id :: c.lru priority)
    hot := c.hot.insert id bytes
    hotBytes := c.hotBytes + size }
  match (c.freeOffsets size).getLast? with
  | none =>
    { c.setBlock id { payload := bytes, offset := c.nextOffset, bytes := size, priority } with
      nextOffset := c.nextOffset + size }
  | some offset =>
    { c.setBlock id { payload := bytes, offset, bytes := size, priority } with
      freeOffsets := Function.update c.freeOffsets size (c.freeOffsets size).dropLast }

/-- `QsaKvStore::write`. -/
def write (bytes : Bytes) (priority : Int) : Op Nat := do
  let s ← get
  if bytes = [] ∨ s.store.bufferBytes / 2 < bytes.length ∨ priority < 0 ∨ 2 < priority then
    throw "QSA KV microblock exceeds the bounded write buffer"
  else
    let t ← turn
    if t.reserveThrows then throw "reserve"
    else
      check
      let s ← get
      let id := s.store.nextId + 1
      modifyStore fun c => allocate c bytes priority.toNat
      holding [id] evictAll
      pure id

/-- A block read from the file is hot again, if the RAM can take it at all. -/
def warm (c : QsaKvStore) (id : Nat) (block : Block) (payload : Bytes) : QsaKvStore :=
  { c with
    lru := Function.update c.lru block.priority (id :: c.lru block.priority)
    hot := c.hot.insert id payload
    hotBytes := c.hotBytes + payload.length }

/-- `QsaKvStore::read`. -/
def read (id : Nat) : Op Bytes := do
  let t ← turn
  check
  let s ← get
  match s.store.blocks.lookup id with
  | none => blocked
  | some block =>
    match block.pending, s.store.hot.lookup id with
    | some payload, _ => pure payload
    | none, some payload =>
      modifyStore fun c => { c with
        lru := Function.update c.lru block.priority
          (id :: (c.lru block.priority).erase id) }
      pure payload
    | none, none =>
      let bytes := QsaKvStore.readFile s.store.file block.offset block.bytes
      if block.ready = false then throw "QSA KV microblock was not written"
      else if t.readFails = true ∨ bytes.length < block.bytes then
        throw "QSA KV SSD read failed"
      else if bytes.length ≤ s.store.hotLimit then
        modifyStore fun c => warm c id block bytes
        evictAll
        pure bytes
      else pure bytes

/-! ### Reading rows -/

/-- `memcpy` out of a byte vector; past its end there is no result. -/
def copied (bytes : Bytes) (offset size : Nat) : Op Bytes :=
  if offset + size ≤ bytes.length then pure ((bytes.drop offset).take size) else blocked

/-- One pass of the reading loop: part of a block, or of the tail. -/
def readChunk (st : Snapshot) (block offset size : Nat) : Op Bytes :=
  if block = st.blocks.length then
    match st.tailBlock with
    | some id => do
        let bytes ← read id
        copied bytes offset size
    | none => copied st.tail offset size
  else match st.blocks[block]? with
    | none => throw "vector::at"
    | some id => do
        let bytes ← read id
        copied bytes offset size

def readLoop (st : Snapshot) : Nat → Nat → Nat → Op Bytes
  | _, _, 0 => pure []
  | 0, _, _ + 1 => blocked
  | fuel + 1, start, rows + 1 => do
      let within := start % st.blockRows
      let take := min (rows + 1) (st.blockRows - within)
      let chunk ← readChunk st (start / st.blockRows) (within * st.rowBytes) (take * st.rowBytes)
      let rest ← readLoop st fuel (start + take) (rows + 1 - take)
      pure (chunk ++ rest)

/-- `read_rows`. -/
def readRows (st : Snapshot) (start rows : Nat) : Op Bytes :=
  if st.position < start ∨ st.position - start < rows then
    throw "QSA KV read exceeds its snapshot"
  else readLoop st rows start rows

/-! ### Changing a sequence -/

def getSequence (seq : Nat) : Op Snapshot := do
  let s ← get
  match s.sequences.lookup seq with
  | none => blocked
  | some st => pure st

def setSequence (seq : Nat) (st : Snapshot) : Op Unit :=
  modify fun s => { s with sequences := s.sequences.insert seq st }

def appendLoop (seq : Nat) : Nat → Bytes → Nat → Op Unit
  | _, _, 0 => pure ()
  | 0, _, _ + 1 => blocked
  | fuel + 1, rows, count + 1 => do
      let st ← getSequence seq
      let tailRows := st.tail.length / st.rowBytes
      let take := min (count + 1) (st.blockRows - tailRows)
      let bytes := take * st.rowBytes
      let st := { st with tail := st.tail ++ rows.take bytes, position := st.position + take }
      setSequence seq st
      if st.tail.length = st.rowBytes * st.blockRows then
        -- The tail is moved into the call.
        setSequence seq { st with tail := [] }
        let id ← write st.tail st.priority
        setSequence seq { st with tail := [], blocks := st.blocks ++ [id] }
      else pure ()
      appendLoop seq fuel (rows.drop bytes) (count + 1 - take)

/-- `append`: `rows` holds `count` rows. -/
def append (seq : Nat) (rows : Bytes) (count : Nat) : Op Unit := do
  let saved ← getSequence seq
  holding saved.tailBlock.toList <| tryCatch
    (do
      match saved.tailBlock with
      | some id =>
        if 0 < count then
          let bytes ← read id
          setSequence seq { saved with tail := bytes, tailBlock := none }
        else pure ()
      | none => pure ()
      appendLoop seq count rows count)
    fun e => do
      let st ← getSequence seq
      setSequence seq { st with
        blocks := st.blocks.take saved.blocks.length
        tail := saved.tail
        tailBlock := saved.tailBlock
        position := saved.position }
      throw e

def sealTail (seq : Nat) : Op Unit := do
  let st ← getSequence seq
  if st.tail ≠ [] then
    let id ← write st.tail st.priority
    setSequence seq { st with tailBlock := some id, tail := [] }
  else pure ()

/-- `trim` up to where the rows are cut. -/
def cut (seq position : Nat) : Op Unit := do
  let st ← getSequence seq
  if st.position < position then throw "QSA KV trim exceeds its position"
  else
    let tail ←
      if position % st.blockRows * st.rowBytes ≠ 0 then
        readRows st (position / st.blockRows * st.blockRows) (position % st.blockRows)
      else pure []
    setSequence seq { st with
      blocks := st.blocks.take (position / st.blockRows)
      tailBlock := none
      tail, position }

def trim (seq position : Nat) : Op Unit := do
  cut seq position
  sealTail seq

/-- The checks of `restore`.  There is one store, and no pointer of the model is null. -/
def matchesGeometry (c : QsaKvStore) (st state : Snapshot) : Bool :=
  decide (state.rowBytes = st.rowBytes) && decide (state.blockRows = st.blockRows) &&
    decide (state.priority = st.priority) &&
    decide (state.blocks.length = state.position / state.blockRows) &&
    decide ((match state.tailBlock with
      | some id => ((c.blocks.lookup id).map Block.bytes).getD 0
      | none => state.tail.length) = state.position % state.blockRows * state.rowBytes)

def restore (seq : Nat) (state : Snapshot) : Op Unit := do
  let st ← getSequence seq
  let s ← get
  if matchesGeometry s.store st state then setSequence seq state
  else throw "QSA KV snapshot geometry mismatch"

/-- `QsaKvSequenceSnapshot::prefix`. -/
def prefixOf (st : Snapshot) (rows : Nat) : Op Snapshot :=
  if st.position < rows then throw "QSA KV snapshot prefix exceeds its position"
  else do
    let complete := rows / st.blockRows
    let tail ←
      if rows % st.blockRows * st.rowBytes ≠ 0 then
        readRows st (complete * st.blockRows) (rows % st.blockRows)
      else pure []
    let result := { st with
      position := rows, tail, blocks := st.blocks.take complete, tailBlock := none }
    if tail ≠ [] then
      let id ← write tail st.priority
      pure { result with tailBlock := some id, tail := [] }
    else pure result

/-! ### The public operations -/

def getSnapshot (snap : Nat) : Op Snapshot := do
  let s ← get
  match s.snapshots.lookup snap with
  | none => blocked
  | some st => pure st

def setSnapshot (snap : Nat) (st : Snapshot) : Op Unit :=
  modify fun s => { s with snapshots := s.snapshots.insert snap st }

/-- The constructor of `QsaKvSequence`. -/
def construct (seq rowBytes blockRows : Nat) (priority : Int) : Op Unit := do
  let s ← get
  if rowBytes = 0 ∨ blockRows = 0 ∨ s.store.bufferBytes / 2 / blockRows < rowBytes then
    throw "invalid QSA KV microblock geometry"
  else setSequence seq { rowBytes, blockRows, priority }

/-- The same on the plain lists. -/
def note (f : Lists → Lists) : Op Unit := modify fun s => { s with lists := f s.lists }

end Op

def Lists.setSequence (l : Lists) (seq : Nat) (rows : List Row) : Lists :=
  { l with sequences := Function.update l.sequences seq rows }

def Lists.setSnapshot (l : Lists) (snap : Nat) (rows : List Row) : Lists :=
  { l with snapshots := Function.update l.snapshots snap rows }

/-- The operations on sequences and snapshots, each of which may find any number of them, and
    the destructors. -/
inductive Action where
  | construct (seq rowBytes blockRows : Nat) (priority : Int)
  | append (seq : Nat) (rows : List Row)
  | sealTail (seq : Nat)
  | trim (seq position : Nat)
  | snapshot (seq snap : Nat)
  | restore (seq snap : Nat)
  | prefixOf (snap target rows : Nat)
  | readSequence (seq start rows : Nat)
  | readSnapshot (snap start rows : Nat)
  | destroy (seq : Nat)
  | discard (snap : Nat)

open Op Call in
/-- An operation, and what it does to the plain lists once it has taken effect.  `append` is
    given rows of the right size, as its caller promises. -/
def perform : Action → Op Unit
  | .construct seq rowBytes blockRows priority => do
      Op.construct seq rowBytes blockRows priority
      note fun l => l.setSequence seq []
  | .append seq rows => do
      let st ← getSequence seq
      if rows.all fun row => row.length == st.rowBytes then
        Op.append seq rows.flatten rows.length
        note fun l => l.setSequence seq (l.sequences seq ++ rows)
      else blocked
  | .sealTail seq => Op.sealTail seq
  | .trim seq position => do
      cut seq position
      note fun l => l.setSequence seq ((l.sequences seq).take position)
      Op.sealTail seq
  | .snapshot seq snap => do
      let st ← getSequence seq
      setSnapshot snap st
      note fun l => l.setSnapshot snap (l.sequences seq)
  | .restore seq snap => do
      let st ← getSnapshot snap
      Op.restore seq st
      note fun l => l.setSequence seq (l.snapshots snap)
  | .prefixOf snap target rows => do
      let st ← getSnapshot snap
      let result ← Op.prefixOf st rows
      setSnapshot target result
      note fun l => l.setSnapshot target ((l.snapshots snap).take rows)
  | .readSequence seq start rows => do
      let st ← getSequence seq
      let _ ← readRows st start rows
      pure ()
  | .readSnapshot snap start rows => do
      let st ← getSnapshot snap
      let _ ← readRows st start rows
      pure ()
  | .destroy seq => modify fun s => { s with sequences := s.sequences.erase seq }
  | .discard snap => modify fun s => { s with snapshots := s.snapshots.erase snap }

/-- One operation under a schedule, whether it returns or throws. -/
def step (s : System) (a : Action × List Turn) : Option System :=
  (perform a.1 { s with schedule := a.2 }).map fun out => { out.2 with schedule := [] }

def initial (bufferBytes budgetBytes : Nat) : System := { store := { bufferBytes, budgetBytes } }

end TyloQuant.QsaKv
