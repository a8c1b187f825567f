import Mathlib.Data.List.Dedup
import TyloQuant.Tq.Tensor

/-!
# Rows of a tensor

`TQRows` reads the rows of a tensor out of its bytes: a range of them, or any list, for which it
reads each run of consecutive rows once.
-/

namespace TyloQuant.Tq

open Lib Bytes ByteFile

/-- Selectors of four bits, two in a byte. -/
def packSelectors (selectors : List Nat) : List UInt8 :=
  (List.range ((selectors.length + 1) / 2)).map fun m =>
    UInt8.ofNat (selectors.getD (2 * m) 0)
      ||| if m < selectors.length / 2 then UInt8.ofNat (selectors.getD (2 * m + 1) 0 <<< 4) else 0

/-- The selectors of some bytes. -/
def unpackSelectors (scales : List UInt8) : List Nat :=
  scales.flatMap fun s => [s.toNat &&& 15, s.toNat >>> 4]

/-- The numbers of unpacked selectors. -/
def Scales.values : Scales → List Nat
  | columns _ => []
  | selectors values => values.map UInt8.toNat

structure TQRows where
  source : List UInt8
  rows : Nat
  width : Nat
  gs : Nat
  columns : Bool
  compact : Bool
  packedBytes : Nat
deriving DecidableEq, Repr

namespace TQRows

variable (r : TQRows)

def offsetMask : UInt64 := if r.compact then 0x7ffffffe else 0xffffffff

def groups : Nat := if r.columns then 0 else (r.width + r.gs - 1) / r.gs

def scaleOffset : Nat := 64 + r.rows * 8

def scaleBytes : Nat := if r.columns then r.width * 2 else (r.rows * r.groups + 1) / 2

def packedOffset : Nat := r.scaleOffset + r.scaleBytes

/-- `_range`. -/
def range (source : List UInt8) (offset size : Nat) : Except TqError (List UInt8) :=
  if source.length < offset ∨ source.length - offset < size then
    .error (.valueError "TQ byte range is out of bounds")
  else .ok ((source.drop offset).take size)

/-- `__init__`. -/
def make (source : List UInt8) : Except TqError TQRows := do
  let header ← range source 0 64
  let r : TQRows :=
    { source
      rows := integer header 12 4
      width := integer header 16 4
      gs := integer header 24 4
      columns := integer header 20 4 ≠ 0
      compact := header.take 8 = magic06 ∧ integer header 8 4 = 6
      packedBytes := integer header 28 4 }
  if ¬(r.compact ∨ (header.take 8 = magic05 ∧ integer header 8 4 = 5)) ∨ 1 < integer header 20 4 then
    .error (.valueError "Invalid TQ header")
  else if r.rows = 0 ∨ r.width = 0 ∨ r.width % 32 ≠ 0 ∨ ((header.drop 32).take 32).any (· ≠ 0) ∨
      (r.compact ∧ (¬r.columns ∨ r.width % 256 = 0)) ∨ (¬r.compact ∧ r.width % 256 ≠ 0) then
    .error (.valueError "Invalid TQ geometry or reserved bytes")
  else if ¬r.columns ∧ (¬(16 ≤ r.gs ∧ r.gs ≤ 2 ^ 20) ∨ r.gs &&& (r.gs - 1) ≠ 0) then
    .error (.valueError "Invalid TQ subgroup size")
  else if r.packedOffset + r.packedBytes ≠ source.length then
    .error (.valueError "TQ tensor length differs from header")
  else .ok r

/-- The scales of a range of rows. -/
def readScales (begin_ count : Nat) : Except TqError Scales :=
  if r.columns then do
    let scales ← range r.source r.scaleOffset r.scaleBytes
    pure (.columns ((List.range r.width).map fun i => UInt16.ofNat (integer scales (2 * i) 2)))
  else do
    let firstSelector := begin_ * r.groups
    let selectorCount := count * r.groups
    let startByte := firstSelector / 2
    let endByte := (firstSelector + selectorCount + 1) / 2
    let source ← range r.source (r.scaleOffset + startByte) (endByte - startByte)
    pure (.selectors (packSelectors ((List.range selectorCount).map fun i =>
      selectorAt source (i + (firstSelector &&& 1)))))

def sliceRows (begin_ end_ : Nat) : Except TqError TQTensor :=
  if ¬(begin_ < end_ ∧ end_ ≤ r.rows) then .error (.valueError "Invalid TQ row range")
  else do
    let count := end_ - begin_
    let records ← range r.source (64 + begin_ * 8) (count * 8)
    let descriptors := (List.range count).map fun i => UInt64.ofNat (integer records (8 * i) 8)
    let offsets := descriptors.map (· &&& r.offsetMask)
    let first := (offsets.getD 0 0).toNat * 4
    let finish := (offsets.getD (count - 1) 0).toNat * 4
      + r.width * bitsOf (descriptors.getD (count - 1) 0).toNat / 8
    if r.packedBytes < finish ∨ finish < first then
      .error (.valueError "TQ row payload is out of bounds")
    else do
      let packed ← range r.source (r.packedOffset + first) (finish - first)
      let rebased := descriptors.map fun d =>
        (d &&& ~~~r.offsetMask) ||| ((d &&& r.offsetMask) - offsets.getD 0 0)
      let scales ← r.readScales begin_ count
      TQTensor.make
        { rows := count, width := r.width, gs := r.gs, scales, descriptors := rebased, packed }

/-! ### Any rows -/

/-- What is kept of a row that was read. -/
structure Selection where
  descriptor : UInt64
  stream : List UInt8
  scale : Scales

/-- `np.unique`. -/
def unique (requested : List Nat) : List Nat := (requested.mergeSort (· ≤ ·)).dedup

/-- One row out of a chunk. -/
def selection (chunk : TQTensor) (index : Nat) : Selection :=
  let d := chunk.descriptors.getD index 0
  { descriptor := d
    stream := (chunk.packed.drop (chunk.offset d * 4)).take (chunk.width * bitsOf d.toNat / 8)
    scale :=
      match chunk.scales with
      | .columns scales => .columns scales
      | .selectors scales => .selectors (((unpackSelectors scales).drop
          (index * chunk.groups)).take chunk.groups |>.map UInt8.ofNat) }

/-- The rows of one run. -/
def readRun (run : List Nat) : Except TqError (List (Nat × Selection)) := do
  let chunk ← r.sliceRows (run.headD 0) (run.getLastD 0 + 1)
  pure (run.zipIdx.map fun entry => (entry.1, selection chunk entry.2))

/-- The descriptors of the requested rows, with their words one after the other. -/
def placeRows : Nat → List Selection → List UInt64
  | _, [] => []
  | words, s :: rest =>
    ((s.descriptor &&& ~~~r.offsetMask) ||| UInt64.ofNat words)
      :: placeRows (words + s.stream.length / 4) rest

def gatherRows (rows : List Int) : Except TqError TQTensor :=
  if rows = [] ∨ rows.any (· < 0) ∨ rows.any (fun row => (r.rows : Int) ≤ row) then
    .error (.valueError "Invalid TQ row indices")
  else do
    let requested := rows.map Int.toNat
    let runs := (unique requested).splitBy fun a b => b = a + 1
    let selections ← runs.mapM r.readRun
    let chosen ← requested.mapM fun row =>
      match selections.flatten.lookup row with
      | some s => .ok s
      | none => .error .keyError
    TQTensor.make
      { rows := requested.length
        width := r.width
        gs := r.gs
        scales :=
          if r.columns then (chosen.map (·.scale)).headD (.columns [])
          else .selectors (packSelectors (chosen.flatMap fun s => s.scale.values))
        descriptors := r.placeRows 0 chosen
        packed := chosen.flatMap (·.stream) }

end TQRows

end TyloQuant.Tq
