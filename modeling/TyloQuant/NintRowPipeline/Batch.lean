import TyloQuant.Lib.BitRange
import TyloQuant.Lib.Obeys

/-!
# Row batches

The selected-row wire protocol (`nint_rows.h`): a table of packed rows, a batch of rows copied out
of tables, and what the decoding kernel reads of either.  Of a table the file and what
`initialize` finds in its header are given; the statistics of a batch are left out.
-/

namespace TyloQuant.NintRowPipeline

open Lib Bits ByteFile

def intMax : Nat := 2147483647

def uint32Max : Nat := 4294967295

/-! ### Tables -/

/-- `unpack_nint_code`: element `element` of a stream of codes. -/
def unpackNintCode (stream : Nat → UInt8) (rowBitOffset element bits : Nat) : Nat :=
  let bit := rowBitOffset + element * bits
  let word := if bit % 8 + bits > 8 then
      (stream (bit / 8)).toNat ||| (stream (bit / 8 + 1)).toNat <<< 8
    else (stream (bit / 8)).toNat
  (word >>> (bit % 8)) % 2 ^ bits

theorem unpackNintCode_eq {stream : Nat → UInt8} {rowBitOffset element bits : Nat} (h : bits ≤ 8) :
    unpackNintCode stream rowBitOffset element bits =
      field stream (rowBitOffset + element * bits) bits := by
  unfold unpackNintCode
  simp only
  split
  · exact pair_shiftRight stream (by omega)
  · exact byte_shiftRight stream (by omega)

/-- `count` codes of `bits` bits from bit `bit` of the file at `offset` on. -/
structure Stream where
  offset : Nat
  bit : Nat
  count : Nat
  bits : Nat

namespace Stream

def start (s : Stream) : Nat := s.offset + s.bit / 8

/-- The `exact_bytes` of `copy_stream`. -/
def size (s : Stream) : Nat := (s.bit % 8 + s.count * s.bits + 7) / 8

end Stream

/-- `NintRows` after `initialize`; `batched` says whether it has a `ReadBatch`. -/
structure NintRows where
  bytes : Nat → UInt8
  nbytes : Nat
  rows : Nat
  width : Nat
  groups : Nat
  groupSize : Nat
  bits : Nat
  subBits : Nat
  adaptive : Bool
  kSelectors : Nat → UInt8
  qSelectors : Nat → UInt8
  neuronScaleOffset : Nat
  neuronMinOffset : Nat
  scaleOffsets : Nat → Nat
  minOffsets : Nat → Nat
  qOffsets : Nat → Nat
  batched : Bool

/-- The rows before `row` with its selector; the checkpoints hold these counts at every 256th row. -/
def cohortRank (selectors : Nat → UInt8) (row bits cohort : Nat) : Nat :=
  ((List.range row).filter fun i => unpackNintCode selectors 0 i bits = cohort).length

namespace NintRows

def kCohort (t : NintRows) (row : Nat) : Nat :=
  if t.adaptive then unpackNintCode t.kSelectors 0 row 2 else 0

def qCohort (t : NintRows) (row : Nat) : Nat :=
  if t.adaptive then unpackNintCode t.qSelectors 0 row 3 else 0

/-- The `k` of `append_row`, the width of a scale or minimum. -/
def k (t : NintRows) (row : Nat) : Nat :=
  if t.adaptive then t.subBits - 1 + t.kCohort row else t.subBits

def q (t : NintRows) (row : Nat) : Nat :=
  if t.adaptive then t.qCohort row + 1 else t.bits

def kBit (t : NintRows) (row : Nat) : Nat :=
  (if t.adaptive then cohortRank t.kSelectors row 2 (t.kCohort row) else row) * t.groups * t.k row

def qBit (t : NintRows) (row : Nat) : Nat :=
  (if t.adaptive then cohortRank t.qSelectors row 3 (t.qCohort row) else row) *
    t.groups * t.groupSize * t.q row

def qStream (t : NintRows) (row : Nat) : Stream :=
  ⟨t.qOffsets (t.qCohort row), t.qBit row, t.groups * t.groupSize, t.q row⟩

def scaleStream (t : NintRows) (row : Nat) : Stream :=
  ⟨t.scaleOffsets (t.kCohort row), t.kBit row, t.groups, t.k row⟩

def minStream (t : NintRows) (row : Nat) : Stream :=
  ⟨t.minOffsets (t.kCohort row), t.kBit row, t.groups, t.k row⟩

def neuronScale (t : NintRows) (row : Nat) : Nat := readLE t.bytes (t.neuronScaleOffset + row * 2) 2

def neuronMin (t : NintRows) (row : Nat) : Nat := readLE t.bytes (t.neuronMinOffset + row * 2) 2

/-- An exponent of ones: the half is infinite or not a number. -/
def endless (half : Nat) : Prop := half &&& 0x7c00 = 0x7c00

instance (half : Nat) : Decidable (endless half) := inferInstanceAs (Decidable (_ = _))

/-- The anchors of a row are not both finite. -/
def Unanchored (t : NintRows) (row : Nat) : Prop :=
  endless (t.neuronScale row) ∨ endless (t.neuronMin row)

instance (t : NintRows) (row : Nat) : Decidable (t.Unanchored row) :=
  inferInstanceAs (Decidable (_ ∨ _))

/-- The fourth word of a row. -/
def layout (t : NintRows) (row : Nat) : Nat :=
  t.q row ||| t.k row <<< 4 ||| (t.qBit row % 8) <<< 8 ||| (t.kBit row % 8) <<< 12 |||
    (t.kBit row % 8) <<< 16

def anchors (t : NintRows) (row : Nat) : Nat := t.neuronScale row ||| t.neuronMin row <<< 16

def InFile (t : NintRows) (s : Stream) : Prop := s.start + s.size ≤ t.nbytes

/-- What `initialize` checks. -/
structure Opened (t : NintRows) : Prop where
  rows_pos : 0 < t.rows
  width_pos : 0 < t.width
  groupSize_pos : 0 < t.groupSize
  groups_eq : t.groups = (t.width + t.groupSize - 1) / t.groupSize
  k_range : ∀ row < t.rows, 1 ≤ t.k row ∧ t.k row ≤ 8
  q_range : ∀ row < t.rows, 1 ≤ t.q row ∧ t.q row ≤ 8
  inFile : ∀ row < t.rows,
    t.InFile (t.qStream row) ∧ t.InFile (t.scaleStream row) ∧ t.InFile (t.minStream row)

end NintRows

/-- The numbers that the kernel combines into one half. -/
structure Code where
  q : Nat
  scale : Nat
  minimum : Nat
  neuronScale : Nat
  neuronMin : Nat
deriving DecidableEq

/-- Row `row` of a table. -/
def NintRows.row (t : NintRows) (row : Nat) : List Code :=
  (List.range t.width).map fun column =>
    { q := unpackNintCode t.bytes (8 * (t.qStream row).offset + t.qBit row) column (t.q row)
      scale := unpackNintCode t.bytes (8 * (t.scaleStream row).offset + t.kBit row)
        (column / t.groupSize) (t.k row)
      minimum := unpackNintCode t.bytes (8 * (t.minStream row).offset + t.kBit row)
        (column / t.groupSize) (t.k row)
      neuronScale := t.neuronScale row
      neuronMin := t.neuronMin row }

/-! ### Batches -/

/-- The six words of a row. -/
structure Descriptor where
  q : Nat
  scale : Nat
  minimum : Nat
  layout : Nat
  group : Nat
  anchors : Nat
deriving DecidableEq

structure NintRowBatch where
  packed : List UInt8 := []
  descriptors : List Descriptor := []
  width : Nat := 0
deriving DecidableEq

/-- What the calls on tables and batches throw; the three that name a row do so for the proofs. -/
inductive RowError where
  | mappedRow (row : Nat)
  | anchors (row : Nat)
  | read (row : Nat)
  | widths
  | exceedsBounds
  | batchSize
  | cacheIndex
  | wireBounds
deriving DecidableEq

namespace NintRowBatch

/-- `nint_selected_rows_kernel` for one row. -/
def decode (b : NintRowBatch) (d : Descriptor) (width : Nat) : List Code :=
  (List.range width).map fun column =>
    { q := unpackNintCode (fun i => byte b.packed (d.q + i)) (d.layout >>> 8 % 8) column
        (d.layout % 16)
      scale := unpackNintCode (fun i => byte b.packed (d.scale + i)) (d.layout >>> 12 % 8)
        (column / d.group) (d.layout >>> 4 % 16)
      minimum := unpackNintCode (fun i => byte b.packed (d.minimum + i)) (d.layout >>> 16 % 8)
        (column / d.group) (d.layout >>> 4 % 16)
      neuronScale := d.anchors % 2 ^ 16
      neuronMin := d.anchors >>> 16 % 2 ^ 16 }

/-- The rows of `other` behind those of `b`, with their offsets moved. -/
def merge (b other : NintRowBatch) : NintRowBatch where
  packed := b.packed ++ other.packed
  descriptors := b.descriptors ++ other.descriptors.map fun d =>
    { d with
      q := d.q + b.packed.length
      scale := d.scale + b.packed.length
      minimum := d.minimum + b.packed.length }
  width := other.width

def validate (b : NintRowBatch) : Except RowError Unit :=
  if b.descriptors.length = 0 ∨ b.descriptors.length > intMax / 6 ∨
      b.descriptors.length * b.width > uint32Max then .error .batchSize
  else .ok ()

def appendBatch (b other : NintRowBatch) : Except RowError NintRowBatch := do
  other.validate
  if b.width ≠ 0 ∧ b.width ≠ other.width then .error .widths else
  if other.packed.length > intMax ∨ b.packed.length > intMax - other.packed.length ∨
      b.descriptors.length + other.descriptors.length > intMax / 6 ∨
      (b.descriptors.length + other.descriptors.length) * other.width > uint32Max then
    .error .exceedsBounds
  else .ok (b.merge other)

/-- One of the three copies of `copy_row`. -/
def copyWire (b : NintRowBatch) (at' size : Nat) (result : List UInt8) :
    Except RowError (List UInt8) :=
  if at' > b.packed.length ∨ size > b.packed.length - at' then .error .wireBounds
  else .ok (result ++ window (byte b.packed) at' size ++ [0])

def copyRow (b : NintRowBatch) (row : Nat) (output : NintRowBatch) : Except RowError NintRowBatch :=
  match b.descriptors[row]? with
  | none => .error .cacheIndex
  | some d => do
      let q := d.layout % 16
      let k := d.layout >>> 4 % 16
      let groups := (b.width + d.group - 1) / d.group
      let first ← b.copyWire d.q ((d.layout >>> 8 % 8 + groups * d.group * q + 7) / 8) []
      let second ← b.copyWire d.scale ((d.layout >>> 12 % 8 + groups * k + 7) / 8) first
      let third ← b.copyWire d.minimum ((d.layout >>> 16 % 8 + groups * k + 7) / 8) second
      output.appendBatch
        { packed := third
          descriptors := [⟨0, first.length, second.length, d.layout, d.group, d.anchors⟩]
          width := b.width }

end NintRowBatch

namespace NintRows

/-- The `copy_stream` of `append_row`, with its guard byte. -/
def copyStream (t : NintRows) (s : Stream) (packed : List UInt8) : Except RowError (List UInt8) :=
  if s.start > t.nbytes ∨ s.size > t.nbytes - s.start ∨ s.size ≥ intMax ∨
      packed.length > intMax - s.size - 1 then .error .exceedsBounds
  else .ok (packed ++ window t.bytes s.start s.size ++ [0])

/-- The three streams of a row, and its words. -/
def appendStreams (t : NintRows) (batch : NintRowBatch) (row : Nat) :
    Except RowError NintRowBatch := do
  let first ← t.copyStream (t.qStream row) batch.packed
  let second ← t.copyStream (t.scaleStream row) first
  let third ← t.copyStream (t.minStream row) second
  .ok
    { packed := third
      descriptors := batch.descriptors ++
        [⟨batch.packed.length, first.length, second.length, t.layout row, t.groupSize,
          t.anchors row⟩]
      width := t.width }

/-- `unreadable` says which rows cannot be read at present. -/
def appendRow (t : NintRows) (unreadable : Nat → Bool) (batch : NintRowBatch) (row : Nat) :
    Except RowError NintRowBatch :=
  if row ≥ t.rows then .error (.mappedRow row) else
  if batch.width ≠ 0 ∧ batch.width ≠ t.width then .error .widths else
  if unreadable row then .error (.read row) else
  if t.Unanchored row then .error (.anchors row) else
  t.appendStreams batch row

/-- The piece that `append_rows_batched` makes: all places first, then one batch of reads. -/
def batchedPiece (t : NintRows) (unreadable : Nat → Bool) (rows : List Nat) :
    Except RowError NintRowBatch := do
  let result ← rows.foldlM t.appendStreams { width := t.width }
  match rows.find? unreadable with
  | some row => .error (.read row)
  | none =>
    match rows.find? fun row => t.Unanchored row with
    | some row => .error (.anchors row)
    | none => .ok result

/-- The rows in a batch of their own. -/
def piece (t : NintRows) (unreadable : Nat → Bool) (rows : List Nat) :
    Except RowError NintRowBatch :=
  if t.batched then t.batchedPiece unreadable rows else rows.foldlM (t.appendRow unreadable) {}

/-- `append_rows` on one thread. -/
def appendRows (t : NintRows) (unreadable : Nat → Bool) (rows : List Nat) (batch : NintRowBatch) :
    Except RowError NintRowBatch :=
  if rows = [] then .ok batch else
  if (batch.width ≠ 0 ∧ batch.width ≠ t.width) ∨ batch.descriptors.length > intMax / 6 ∨
      rows.length > intMax / 6 - batch.descriptors.length ∨
      batch.descriptors.length + rows.length > uint32Max / t.width then .error .exceedsBounds else
  match rows.find? fun row => row ≥ t.rows with
  | some row => .error (.mappedRow row)
  | none => do
      let piece ← t.piece unreadable rows
      if batch.packed.length > intMax ∨ piece.packed.length > intMax - batch.packed.length then
        .error .exceedsBounds
      else .ok (batch.merge piece)

end NintRows

end TyloQuant.NintRowPipeline
