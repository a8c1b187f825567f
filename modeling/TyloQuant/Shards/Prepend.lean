import TyloQuant.Shards.Planning
import TyloQuant.Shards.SparseCopy

/-!
# Where the sparse copy is exact

`copy_sparse_range` is the plain copy of a range when the target holds zeros under the holes it
moves over and is not cut short.  `StreamingBlobShardWriter._prepend` moves the payload of a shard
back to make room for the record table and the assets, so below the assets the file still holds
payload bytes: the sparse copy of an asset shows them wherever the asset has holes.
-/

namespace TyloQuant.Shards

open Lib List
open Lib.ByteFile

/-! ### The code -/

namespace Writer

/-- `_COPY_CHUNK`. -/
def copyChunk : Nat := 32 * 1024 * 1024

end Writer

/-- The bytes a record stands for. -/
def BlobRecord.content (record : BlobRecord) : List UInt8 :=
  match record.blob with
  | .written content => content
  | .file none _ => []
  | .file (some source) offset =>
    range source.bytes offset.toNat (offset.toNat + record.nbytes.toNat)

/-- What holds of every copy of a record that returned. -/
structure Placed (record : BlobRecord) (old new : Cursor) : Prop where
  nbytes : record.nbytes = record.content.length
  pos : new.pos = old.pos + record.content.length
  reached : old.pos ≤ old.bytes.length → new.pos ≤ new.bytes.length
  bounded : new.bytes.length ≤ max old.bytes.length new.pos
  before : ∀ j < old.pos, byte new.bytes j = byte old.bytes j

theorem Copied.placed {support : SeekSupport} {source : SparseFile} {start size : Nat}
    {old new : Cursor} (h : Copied support source start size old new) {record : BlobRecord}
    (hnbytes : record.nbytes = size) (hlength : record.content.length = size) :
    Placed record old new where
  nbytes := by rw [hnbytes, hlength]
  pos := by rw [h.pos, hlength]
  reached _ := by
    rw [h.pos, h.length]
    split <;> omega
  bounded := by
    rw [h.pos, h.length]
    split <;> omega
  before := h.before

section Record

variable {support : SeekSupport} {record : BlobRecord} {payload : List UInt8} {old new : Cursor}

variable {source : SparseFile} {start size : Nat}

end Record

/-! ### Copying the assets -/

/-- The bytes of the assets, one after the other. -/
def contents (assets : List BlobRecord) : List UInt8 := assets.flatMap BlobRecord.content

/-- What holds of every copy of the assets that returned. -/
structure Laid (assets : List BlobRecord) (old new : Cursor) : Prop where
  nbytes : (assets.map BlobRecord.nbytes).sum = (contents assets).length
  pos : new.pos = old.pos + (contents assets).length
  reached : old.pos ≤ old.bytes.length → new.pos ≤ new.bytes.length
  bounded : new.bytes.length ≤ max old.bytes.length new.pos
  before : ∀ j < old.pos, byte new.bytes j = byte old.bytes j

variable {assets : List BlobRecord}

section Assets

variable {support : SeekSupport} {payload : List UInt8} {new : Cursor}

end Assets

/-! ### Moving the payload -/

/-- The file once its payload is moved and its table written. -/
structure Opened (payload table : List UInt8) (room : Nat) (target : Cursor) : Prop where
  pos : target.pos = table.length
  length : target.bytes.length = table.length + room + payload.length
  header : ∀ i < table.length, byte target.bytes i = byte table i
  stale : ∀ i < room, byte target.bytes (table.length + i) = byte payload (table.length + i)
  behind : ∀ i < payload.length, byte target.bytes (table.length + room + i) = byte payload i

end TyloQuant.Shards
