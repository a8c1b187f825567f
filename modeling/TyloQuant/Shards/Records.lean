import TyloQuant.Lib.ByteFile
import TyloQuant.Lib.Outcome

/-!
# MFQ shards: records and where their bytes come from

A record of a shard set names a blob: a range of a file, which may have holes, or bytes that a
candidate record writes itself.  `copy_sparse_range` copies a range without writing the holes,
`_copy_record` copies one record.

The offsets that `lseek` answers depend on how the source file is laid out: a hole reads as
zeros, but not every range of zeros is a hole.  `SparseFile` carries that as a field.
-/

namespace TyloQuant.Shards

open Lib
open Lib.ByteFile

/-- The exceptions of the module, with their messages where the text is fixed. -/
inductive ShardError where
  | value (message : String)
  | runtime (message : String)
  | eof
  | fileExists
  | os
deriving DecidableEq, Repr

/-! ### Files with holes -/

/-- A file as the file system has it: its bytes, and which of them lie in allocated extents. -/
structure SparseFile where
  bytes : List UInt8
  isData : Nat → Bool
  holes : ∀ i, isData i = false → byte bytes i = 0

namespace SparseFile

def size (f : SparseFile) : Nat := f.bytes.length

/-- `lseek(fd, offset, SEEK_DATA)`, `none` for `ENXIO`. -/
def seekData (f : SparseFile) (offset : Nat) : Option Nat :=
  (List.range f.size).find? fun i => decide (offset ≤ i) && f.isData i

/-- `lseek(fd, offset, SEEK_HOLE)`, `none` for `ENXIO`: the end of the file is a hole. -/
def seekHole (f : SparseFile) (offset : Nat) : Option Nat :=
  if offset < f.size then
    some (((List.range f.size).find? fun i => decide (offset ≤ i) && !f.isData i).getD f.size)
  else none

end SparseFile

/-- What the platform does with `SEEK_DATA` and `SEEK_HOLE`: it does not have them, it refuses
    both (`EINVAL`, `ENOTSUP`), it refuses `SEEK_HOLE` only, it has both, or the call fails. -/
inductive SeekSupport where
  | absent
  | refused
  | dataOnly
  | full
  | failing
deriving DecidableEq, Repr

/-! ### Copying -/

/-- The bytes one `read` asks for at most. -/
def copyChunk : Nat := 32 * 1024 * 1024

/-- `copy_bytes`, with `remaining` bytes to go from `begin` on. -/
def copyBytes (source : List UInt8) : Nat → Nat → Nat → Cursor → Except ShardError Cursor
  | 0, _, _, target => .ok target
  | fuel + 1, begin, remaining, target =>
    if remaining = 0 then .ok target
    else
      let chunk := (source.drop begin).take (min copyChunk remaining)
      if chunk = [] then .error .eof
      else
        copyBytes source fuel (begin + chunk.length) (remaining - chunk.length)
          (target.write chunk)

/-- `copy_bytes(begin, stop)`. -/
def copyRange (source : List UInt8) (begin stop : Nat) (target : Cursor) :
    Except ShardError Cursor :=
  copyBytes source (stop - begin) begin (stop - begin) target

/-- The `while` loop over the data segments, `data` being the next one. -/
def copySegments (holeRefused : Bool) (source : SparseFile) (start stop destination : Nat) :
    Nat → Nat → Cursor → Except ShardError Cursor
  | 0, _, target => .ok target
  | fuel + 1, data, target =>
    if data < stop then
      let hole := if holeRefused then stop else (source.seekHole data).getD stop
      let cursor := min hole stop
      match copyRange source.bytes data cursor (target.seek (destination + data - start)) with
      | .error e => .error e
      | .ok target' =>
        if cursor ≥ stop then .ok target'
        else match source.seekData cursor with
          | none => .ok target'
          | some next =>
            copySegments holeRefused source start stop destination fuel next target'
    else .ok target

/-- The end of `copy_sparse_range`: a trailing hole is made by truncating. -/
def settleSize (destination size : Nat) (target : Cursor) : Cursor :=
  (target.truncate (max target.bytes.length (max target.pos (destination + size)))).seek
    (destination + size)

/-- `copy_sparse_range`. -/
def copySparseRange (support : SeekSupport) (source : SparseFile) (target : Cursor)
    (nbytes offset : Int) : Except ShardError Cursor :=
  if nbytes < 0 ∨ offset < 0 then .error (.value "sparse copy range must be non-negative")
  else
    let size := nbytes.toNat
    let start := offset.toNat
    let stop := start + size
    let destination := target.pos
    if size = 0 then .ok target
    else if source.size < stop then .error .eof
    else match support with
      | .absent =>
        (copyRange source.bytes start stop (target.seek destination)).map
          (Cursor.seek · (destination + size))
      | .refused => copyRange source.bytes start stop (target.seek destination)
      | .failing => .error .os
      | .dataOnly | .full =>
        match source.seekData start with
        | none => .ok ((target.truncate (destination + size)).seek (destination + size))
        | some data =>
          (copySegments (decide (support = .dataOnly)) source start stop destination
            (size + 1) data target).map (settleSize destination size)

/-! ### Records -/

/-- Where `_copy_record` finds the bytes of a record: the record writes them itself, or they are
    a range of the file at its path (`none`: the file cannot be opened). -/
inductive Blob where
  | written (content : List UInt8)
  | file (source : Option SparseFile) (offset : Int)

/-- A record of a shard set. -/
structure BlobRecord where
  name : String
  dtype : String
  nbytes : Int
  blob : Blob

/-- `_copy_record`. -/
def copyRecord (support : SeekSupport) (record : BlobRecord) (target : Cursor) :
    Except ShardError Cursor :=
  match record.blob with
  | .written content =>
    let target' := target.write content
    if (target'.pos : Int) - target.pos ≠ record.nbytes then
      .error (.value s!"generated MFQ blob size mismatch for {record.name}")
    else .ok target'
  | .file none _ => .error .os
  | .file (some source) offset => copySparseRange support source target record.nbytes offset

/-- `is_asset_record`. -/
def isAssetRecord (name : String) : Bool := "__mfq_asset__/".toList.isPrefixOf name.toList

end TyloQuant.Shards
