import TyloQuant.Lib.Call
import TyloQuant.Lib.Table

/-!
# The microblock store

`QsaKvStore` keeps microblocks of key/value rows: the recent ones in RAM, the others in a file that
a worker thread writes.  A block lives as long as some `shared_ptr` to it does; its deleter gives
its place in the file back.

The clients of a store are called one after the other, the worker runs beside them.  It takes turns
with a call where the call waits for the mutex or for the worker: a call is given a schedule, one
burst of background steps for each such place.  The deleters are background steps too.  A call
blocked at a wait stands for a schedule in which it never gets on.

The worker's writes take no mutex, but touch no other block's bytes, so where they fall inside a
critical section makes no difference.
-/

namespace TyloQuant.QsaKv

open Lib

abbrev Bytes := List UInt8

/-! ### The data -/

/-- A microblock.  `payload` is what it was written with; the code keeps that only in the hot
    entry, in `pending` or in the file, and nothing here reads it. -/
structure Block where
  payload : Bytes
  offset : Nat
  bytes : Nat
  priority : Nat
  ready : Bool := false
  queued : Bool := false
  pending : Option Bytes := none

structure QsaKvStore where
  bufferBytes : Nat
  budgetBytes : Nat
  error : Option String := none
  hotBytes : Nat := 0
  pendingBytes : Nat := 0
  diskBytes : Nat := 0
  nextOffset : Nat := 0
  nextId : Nat := 0
  liveBlocks : Nat := 0
  /-- The blocks that have not been deleted, by id. -/
  blocks : Table Nat Block := ∅
  queue : List Nat := []
  /-- The block the worker is writing, and how much of it is done. -/
  writing : Option (Nat × Nat) := none
  hot : Table Nat Bytes := ∅
  /-- One list for each priority, the most recent first. -/
  lru : Nat → List Nat := fun _ => []
  freeOffsets : Nat → List Nat := fun _ => []
  file : Bytes := []

namespace QsaKvStore

def hotLimit (c : QsaKvStore) : Nat := c.budgetBytes - c.bufferBytes

def setBlock (c : QsaKvStore) (id : Nat) (block : Block) : QsaKvStore :=
  { c with blocks := c.blocks.insert id block }

/-! ### The file -/

/-- `pwrite`: a gap before the offset reads as zeros. -/
def writeFile (file : Bytes) (offset : Nat) (data : Bytes) : Bytes :=
  (file ++ List.replicate (offset - file.length) 0).take offset ++ data ++
    file.drop (offset + data.length)

/-- What a read of `bytes` bytes at `offset` gets, less at the end of the file. -/
def readFile (file : Bytes) (offset bytes : Nat) : Bytes := (file.drop offset).take bytes

/-! ### The background -/

/-- The hot entry of a block, if it has one, and its place in the recency list go. -/
def dropHot (c : QsaKvStore) (id priority : Nat) : QsaKvStore :=
  match c.hot.lookup id with
  | none => c
  | some payload => { c with
      hotBytes := c.hotBytes - payload.length
      lru := Function.update c.lru priority ((c.lru priority).erase id)
      hot := c.hot.erase id }

/-- The deleter of a block.  When it was the last one, the file is cut, if that succeeds. -/
def release (c : QsaKvStore) (id : Nat) (block : Block) (truncates : Bool) : QsaKvStore :=
  let c := c.dropHot id block.priority
  let c := { c with
    blocks := c.blocks.erase id
    freeOffsets :=
      Function.update c.freeOffsets block.bytes (c.freeOffsets block.bytes ++ [block.offset])
    diskBytes := if block.queued then c.diskBytes - block.bytes else c.diskBytes
    liveBlocks := c.liveBlocks - 1 }
  if c.liveBlocks = 0 ∧ truncates = true then
    { c with file := [], freeOffsets := fun _ => [], nextOffset := 0 }
  else c

/-- The worker is done with its block. -/
def settle (c : QsaKvStore) (id : Nat) (block : Block) (failure : Option String) : QsaKvStore :=
  { c.setBlock id { block with ready := failure.isNone, pending := none } with
    writing := none
    error := match c.error with
      | some e => some e
      | none => failure
    pendingBytes := c.pendingBytes - block.bytes }

end QsaKvStore

/-- A step beside the clients: the worker takes a block, writes some of it, ends with it (having
    failed, or having written it all), or the deleter of a block runs. -/
inductive Background where
  | take
  | write (count : Nat)
  | finish (failure : Option String)
  | release (id : Nat) (truncates : Bool)

/-- One place where a call lets the background run: the steps, and whether the next call of
    `config.reserve` throws or the next read of the file fails. -/
structure Turn where
  steps : List Background := []
  reserveThrows : Bool := false
  readFails : Bool := false

namespace QsaKvStore

/-- A background step, given what the clients point to. -/
def background (held : Nat → Bool) (c : QsaKvStore) : Background → Option QsaKvStore
  | .take =>
    match c.writing, c.queue with
    | none, id :: rest => some { c with writing := some (id, 0), queue := rest }
    | _, _ => none
  | .write count =>
    c.writing.bind fun w => (c.blocks.lookup w.1).bind fun block =>
      block.pending.bind fun payload =>
        if 0 < count ∧ w.2 + count ≤ block.bytes then
          some { c with
            file := writeFile c.file (block.offset + w.2) ((payload.drop w.2).take count)
            writing := some (w.1, w.2 + count) }
        else none
  | .finish failure =>
    c.writing.bind fun w => (c.blocks.lookup w.1).bind fun block =>
      if failure.isSome ∨ w.2 = block.bytes then some (c.settle w.1 block failure) else none
  | .release id truncates =>
    (c.blocks.lookup id).bind fun block =>
      if held id ∨ id ∈ c.queue ∨ c.writing.map Prod.fst = some id then none
      else some (c.release id block truncates)

end QsaKvStore

end TyloQuant.QsaKv
