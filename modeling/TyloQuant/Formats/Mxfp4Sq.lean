import TyloQuant.Formats.IntArray

/-!
# MXFP4-SQ tensors in Python

The container of MXFP4-SQ: a payload assigns each row a width from 1 to 4.  The rows of a width below 4
have side data of their own, a bit for each block of 32 columns, eight state scales and eight state
palettes; the rows of width 4 have a native scale for each block.  Each of these arrays has only the
rows it is about, one after the other.  The older payloads of one width are still read.

An array has integers; those of another type are refused by the builder.
-/

namespace TyloQuant.Formats.Mxfp4Sq

open Lib Bytes ByteFile

inductive PyError where
  | valueError (message : String)
  | structError
  | runtimeError (message : String)
  /-- The `ValueError` with `invalid MXFP4-SQ payload magic: {magic!r}`. -/
  | invalidMagic (magic : List UInt8)
deriving DecidableEq, Repr

def headerSize : Nat := 24

def currentMagic : List UInt8 := [83, 81, 86, 50]

/-- `_LEGACY_MAGIC`. -/
def legacySq2Magic : List UInt8 := [83, 81, 50, 0]

def legacyMagicThree : List UInt8 := [83, 81, 51, 0]

def legacySq3Magic : List UInt8 := [83, 81, 51, 49]

structure Mxfp4SqTensor where
  payload : List UInt8
  bits : Nat
  outputSize : Nat
  inputSize : Nat
  matrixScaleBase : Int
  rowQBits : List Nat
  formatVersion : Nat
deriving DecidableEq, Repr

structure Layout where
  version : Nat
  bits : Nat
  outputSize : Nat
  inputSize : Nat
  base : Int
  rowQOffset : Nat
  symbolsOffset : Nat
  selectorsOffset : Nat
  scalesOffset : Nat
  palettesOffset : Nat
  nativeScalesOffset : Nat
  payloadNbytes : Nat
  sqRows : Nat
  sq4Rows : Nat
  rowQBits : List Nat
deriving DecidableEq, Repr

def alignedQSelectorNbytes (outputs : Nat) : Nat := (packedNbytes outputs 2 + 3) / 4 * 4

def legacyLayout (bits outputs width : Nat) (base : Int) : Layout :=
  let weights := outputs * width
  let symbols := headerSize
  let selectors := symbols + packedNbytes weights bits
  let scales := selectors + packedNbytes (weights / 32) 1
  let palettes := scales + outputs * 2
  let total := palettes + outputs * 5
  { version := 1
    bits
    outputSize := outputs
    inputSize := width
    base
    rowQOffset := 0
    symbolsOffset := symbols
    selectorsOffset := selectors
    scalesOffset := scales
    palettesOffset := palettes
    nativeScalesOffset := total
    payloadNbytes := total
    sqRows := outputs
    sq4Rows := 0
    rowQBits := List.replicate outputs bits }

/-- The layout of the current format, from the widths of the rows. -/
def adaptiveOf (outputs width : Nat) (base : Int) (q : List Nat) : Layout :=
  let sq4Rows := q.count 4
  let sqRows := outputs - sq4Rows
  let blocks := width / 32
  let symbols := headerSize + alignedQSelectorNbytes outputs
  let selectors := symbols + q.sum * width / 8
  let scales := selectors + packedNbytes (sqRows * blocks) 1
  let palettes := scales + sqRows * 2
  let nativeScales := palettes + sqRows * 5
  { version := 2
    bits := 0
    outputSize := outputs
    inputSize := width
    base
    rowQOffset := headerSize
    symbolsOffset := symbols
    selectorsOffset := selectors
    scalesOffset := scales
    palettesOffset := palettes
    nativeScalesOffset := nativeScales
    payloadNbytes := nativeScales + sq4Rows * blocks
    sqRows
    sq4Rows
    rowQBits := q }

def adaptiveLayout (outputs width : Nat) (base : Int) (rowQBits : List Int) :
    Except PyError Layout :=
  if rowQBits.length ≠ outputs ∨ rowQBits.any fun value => value < 1 || 4 < value then
    .error (.valueError "MXFP4-SQ q descriptors must contain one value in [1,4] per row")
  else .ok (adaptiveOf outputs width base (rowQBits.map Int.toNat))

/-- The layout that the magic of a payload asks for. -/
def layoutByMagic (payload : List UInt8) (version outputs width : Nat) (base : Int) :
    Except PyError Layout :=
  let magic := window (byte payload) 0 4
  if magic = legacySq2Magic ∨ magic = legacyMagicThree ∨ magic = legacySq3Magic then
    if version ≠ 1 then .error (.valueError "invalid legacy MXFP4-SQ version")
    else .ok (legacyLayout (if magic = legacySq2Magic then 2 else 3) outputs width base)
  else if magic = currentMagic then
    let usedSelectorBytes := packedNbytes outputs 2
    let selectorBytes := alignedQSelectorNbytes outputs
    let used := outputs * 2 % 8
    if version ≠ 2 then .error (.valueError "invalid adaptive MXFP4-SQ version")
    else if payload.length < headerSize + selectorBytes then
      .error (.valueError "truncated MXFP4-SQ q descriptors")
    else if used ≠ 0 ∧ (byte payload (headerSize + usedSelectorBytes - 1)).toNat
        &&& (255 - (1 <<< used - 1)) ≠ 0 then
      .error (.valueError "non-zero MXFP4-SQ q-descriptor padding")
    else if (window (byte payload) (headerSize + usedSelectorBytes)
        (selectorBytes - usedSelectorBytes)).any (· ≠ 0) then
      .error (.valueError "non-zero MXFP4-SQ q-descriptor alignment padding")
    else
      adaptiveLayout outputs width base
        ((unpackBits payload headerSize outputs 2).map fun (selector : Nat) => (selector : Int) + 1)
  else .error (.invalidMagic magic)

def parseLayout (payload : List UInt8) : Except PyError Layout :=
  if payload.length < headerSize then .error (.valueError "truncated MXFP4-SQ header")
  else
    let version := (byte payload 4).toNat
    let base := (byte payload 5).toNat
    let reserved := readLE (byte payload) 6 2
    let outputs := readLE (byte payload) 8 8
    let width := readLE (byte payload) 16 8
    if reserved ≠ 0 ∨ 251 < base then .error (.valueError "invalid MXFP4-SQ header metadata")
    else if ¬(0 < outputs ∧ outputs ≤ 0x7fffffff) then
      .error (.valueError "invalid MXFP4-SQ output size")
    else if ¬(0 < width ∧ width ≤ 0x7fffffff) ∨ width % 32 ≠ 0 then
      .error (.valueError "MXFP4-SQ input size must be a positive multiple of 32")
    else do
      let result ← layoutByMagic payload version outputs width base
      if payload.length ≠ result.payloadNbytes then
        .error (.valueError ("MXFP4-SQ payload length mismatch: expected "
          ++ toString result.payloadNbytes ++ ", got " ++ toString payload.length))
      else if result.sq4Rows ≠ 0 ∧ 255 ∈ payload.drop result.nativeScalesOffset then
        .error (.valueError "MXFP4-SQ contains an E8M0 NaN native scale")
      else pure result

def unpackMxfp4Sq (payload : List UInt8) : Except PyError Mxfp4SqTensor := do
  let layout ← parseLayout payload
  pure
    { payload
      bits := layout.bits
      outputSize := layout.outputSize
      inputSize := layout.inputSize
      matrixScaleBase := layout.base
      rowQBits := layout.rowQBits
      formatVersion := layout.version }

def packMxfp4Sq (tensor : Mxfp4SqTensor) : Except PyError (List UInt8) := do
  let parsed ← unpackMxfp4Sq tensor.payload
  if parsed.bits ≠ tensor.bits ∨ parsed.outputSize ≠ tensor.outputSize ∨
      parsed.inputSize ≠ tensor.inputSize ∨ parsed.matrixScaleBase ≠ tensor.matrixScaleBase ∨
      parsed.formatVersion ≠ tensor.formatVersion ∨
      (tensor.rowQBits ≠ [] ∧ parsed.rowQBits ≠ tensor.rowQBits) then
    .error (.valueError "MXFP4-SQ tensor metadata does not match its payload")
  else if parsed.payload.take 4 = legacySq3Magic then
    pure (legacyMagicThree ++ parsed.payload.drop 4)
  else pure parsed.payload

/-! ### The builder -/

/-- `_pack_bits` of this module: the numbers are cast to bytes. -/
def packArray (a : IntArray) (bits : Nat) : List UInt8 :=
  packBits (a.flat.map fun value => (uint8 value).toNat) bits

/-- The arguments of `build_mxfp4_sq`. -/
structure BuildInput where
  rowQBits : List Int
  inputSize : Int
  matrixScaleBase : Int
  rowSymbols : List (List UInt8)
  sqBlockSelectors : IntArray
  sqStateScales : IntArray
  sqStatePalettes : IntArray
  sq4NativeScales : IntArray

/-- `struct` packs a number that fits its bytes. -/
def packInt (size : Nat) (value : Int) : Except PyError (List UInt8) :=
  if value < 0 ∨ (256 ^ size : Nat) ≤ value then .error .structError
  else .ok (littleEndian size value.toNat)

def packHeader (base outputs inputSize : Int) : Except PyError (List UInt8) := do
  let base ← packInt 1 base
  let outputs ← packInt 8 outputs
  let inputSize ← packInt 8 inputSize
  pure (currentMagic ++ [2] ++ base ++ [0, 0] ++ outputs ++ inputSize)

/-- A stream has the bytes of its row. -/
def checkStream (b : BuildInput) (row : Nat) : Except PyError Unit :=
  let bits := (b.rowQBits.getD row 0).toNat
  let expected := b.inputSize.toNat * bits / 8
  if (b.rowSymbols.getD row []).length ≠ expected then
    .error (.valueError ("MXFP4-SQ row " ++ toString row ++ " needs " ++ toString expected
      ++ " symbol bytes for q=" ++ toString bits))
  else .ok ()

/-- The arrays have their shapes, and their numbers pass the checks there are. -/
def checkArrays (b : BuildInput) (layout : Layout) : Except PyError Unit :=
  let blocks := b.inputSize.toNat / 32
  if b.sqBlockSelectors.shape ≠ (layout.sqRows, blocks) then
    .error (.valueError "MXFP4-SQ block selectors must be [sq_rows, blocks]")
  else if b.sqStateScales.shape ≠ (layout.sqRows, 8) ∨ b.sqStateScales.flat.any (3 < ·) then
    .error (.valueError "MXFP4-SQ state scales must be [sq_rows,8] values in [0,3]")
  else if b.sqStatePalettes.shape ≠ (layout.sqRows, 8) ∨ b.sqStatePalettes.flat.any (31 < ·) then
    .error (.valueError "MXFP4-SQ state palettes must be [sq_rows,8] values in [0,31]")
  else if b.sq4NativeScales.shape ≠ (layout.sq4Rows, blocks) then
    .error (.valueError "MXFP4-SQ SQ4 scales must be [sq4_rows, blocks]")
  else if b.sqBlockSelectors.flat.any (· < 0) ∨ b.sqBlockSelectors.flat.any (1 < ·) then
    .error (.valueError "MXFP4-SQ block selectors must be binary")
  else if b.sq4NativeScales.flat.any (254 < ·) then
    .error (.valueError "MXFP4-SQ SQ4 scales must be valid E8M0 values")
  else .ok ()

def buildMxfp4Sq (b : BuildInput) : Except PyError Mxfp4SqTensor :=
  let outputs := b.rowQBits.length
  if outputs = 0 ∨ b.inputSize ≤ 0 ∨ b.inputSize % 32 ≠ 0 then
    .error (.valueError "MXFP4-SQ requires a non-empty block-32 matrix")
  else do
    let layout ← adaptiveLayout outputs b.inputSize.toNat b.matrixScaleBase b.rowQBits
    if b.rowSymbols.length ≠ outputs then
      .error (.valueError "MXFP4-SQ requires one symbol byte stream per neuron")
    else do
      (List.range outputs).forM (checkStream b)
      checkArrays b layout
      let header ← packHeader b.matrixScaleBase outputs b.inputSize
      let selectors := packBits (b.rowQBits.map fun q => (uint8 q - 1).toNat) 2
      let payload := header
        ++ (selectors ++ List.replicate (alignedQSelectorNbytes outputs - selectors.length) 0)
        ++ b.rowSymbols.flatten ++ packArray b.sqBlockSelectors 1 ++ packArray b.sqStateScales 2
        ++ packArray b.sqStatePalettes 5 ++ b.sq4NativeScales.flat.map uint8
      if payload.length ≠ layout.payloadNbytes then
        .error (.runtimeError "internal MXFP4-SQ adaptive payload accounting mismatch")
      else unpackMxfp4Sq payload

/-! ### Rows -/

/-- A row of a tensor as it is stored; a row has the side data of its width. -/
structure Record where
  q : Nat
  symbols : List UInt8
  selectors : Option (List Int)
  stateScales : Option (List Int)
  statePalettes : Option (List Int)
  nativeScales : Option (List Int)
deriving DecidableEq, Repr

/-- A row of `_unpack_bits(..).reshape(rows, columns)`. -/
def unpackedRow (payload : List UInt8) (offset rows columns bits row : Nat) : List Int :=
  let values := unpackBits payload offset (rows * columns) bits
  (List.range columns).map fun column => (values.getD (row * columns + column) 0 : Int)

/-- Where the next row is: its symbols, its side data, its native scales. -/
structure Place where
  symbolOffset : Nat
  sqRow : Nat
  nativeRow : Nat

/-- The record of the row at a place. -/
def recordFrom (payload : List UInt8) (layout : Layout) (inputSize : Nat) (place : Place) (q : Nat) :
    Record :=
  let blocks := inputSize / 32
  let symbols := (payload.drop place.symbolOffset).take (inputSize * q / 8)
  if q = 4 then
    let native := (List.range blocks).map fun column =>
      ((byte payload (layout.nativeScalesOffset + (place.nativeRow * blocks + column))).toNat : Int)
    ⟨q, symbols, none, none, none, some native⟩
  else
    let row (offset columns bits : Nat) : Option (List Int) :=
      some (unpackedRow payload offset layout.sqRows columns bits place.sqRow)
    ⟨q, symbols, row layout.selectorsOffset blocks 1, row layout.scalesOffset 8 2,
      row layout.palettesOffset 8 5, none⟩

def Place.next (inputSize : Nat) (place : Place) (q : Nat) : Place where
  symbolOffset := place.symbolOffset + inputSize * q / 8
  sqRow := if q = 4 then place.sqRow else place.sqRow + 1
  nativeRow := if q = 4 then place.nativeRow + 1 else place.nativeRow

/-- One round of the loop over the rows of a source. -/
def recordStep (payload : List UInt8) (layout : Layout) (inputSize : Nat)
    (s : List Record × Place) (q : Nat) : List Record × Place :=
  (s.1 ++ [recordFrom payload layout inputSize s.2 q], s.2.next inputSize q)

def recordsOf (payload : List UInt8) (layout : Layout) (inputSize : Nat) : List Record :=
  (layout.rowQBits.foldl (recordStep payload layout inputSize) ([], ⟨layout.symbolsOffset, 0, 0⟩)).1

/-- The records of one more source. -/
def addSource (inputSize : Nat) (base : Int) (records : List Record) (tensor : Mxfp4SqTensor) :
    Except PyError (List Record) := do
  let payload ← packMxfp4Sq tensor
  let layout ← parseLayout payload
  if layout.inputSize ≠ inputSize then
    .error (.valueError "MXFP4-SQ tensors must share one input size")
  else if layout.base ≠ base then
    .error (.valueError "MXFP4-SQ tensors must share one matrix scale base")
  else pure (records ++ recordsOf payload layout inputSize)

def selectRecords (records : List Record) (rowIndices : Option (List Int)) :
    Except PyError (List Record) :=
  match rowIndices with
  | none => .ok records
  | some indices =>
    if indices = [] ∨ indices.any (· < 0) ∨ indices.any ((records.length : Int) ≤ ·) then
      .error (.valueError "MXFP4-SQ row indices are empty or out of range")
    else .ok (indices.filterMap fun index => records[index.toNat]?)

/-- The arguments with which the selected rows are built again. -/
def rebuildInput (inputSize : Nat) (base : Int) (selected : List Record) : BuildInput :=
  let blocks := inputSize / 32
  let sqRecords := selected.filter (·.q < 4)
  let nativeRecords := selected.filter (·.q = 4)
  { rowQBits := selected.map fun record => (record.q : Int)
    inputSize
    matrixScaleBase := base
    rowSymbols := selected.map Record.symbols
    sqBlockSelectors := .stack blocks (sqRecords.map fun record => record.selectors.getD [])
    sqStateScales := .stack 8 (sqRecords.map fun record => record.stateScales.getD [])
    sqStatePalettes := .stack 8 (sqRecords.map fun record => record.statePalettes.getD [])
    sq4NativeScales := .stack blocks (nativeRecords.map fun record => record.nativeScales.getD []) }

def concatenateMxfp4SqRows (tensors : List Mxfp4SqTensor) (rowIndices : Option (List Int)) :
    Except PyError Mxfp4SqTensor :=
  match tensors with
  | [] => .error (.valueError "MXFP4-SQ row concatenation requires at least one tensor")
  | first :: _ => do
      let records ← tensors.foldlM (addSource first.inputSize first.matrixScaleBase) []
      let selected ← selectRecords records rowIndices
      buildMxfp4Sq (rebuildInput first.inputSize first.matrixScaleBase selected)

end TyloQuant.Formats.Mxfp4Sq
