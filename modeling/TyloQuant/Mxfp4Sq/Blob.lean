import Mathlib.Tactic.Common
import TyloQuant.Lib.Bits
import TyloQuant.Lib.Bytes
import TyloQuant.Lib.Outcome

/-!
# MXFP4-SQ payloads

An MXFP4-SQ payload has for each row a bit width q: rows with q below 4 have scalar palettes, and
rows with q = 4 are native and keep their block scales.  Version 1 has one q for all rows, and
version 2 a selector of two bits for each.  After the header come the selectors, the symbols of all
rows, the block selectors, the state scales and the palettes of the scalar rows, and the scales of
the native rows.

`std::size_t` has 64 bits; the sizes of a payload of at most `2 ^ 31` rows and columns are far
below, so that no sum of them overflows.
-/

namespace TyloQuant.Mxfp4Sq

open Lib Bytes ByteFile Bits

inductive SqError where
  | runtimeError (message : String)
deriving DecidableEq, Repr

structure Layout where
  version : Nat
  bits : Nat
  outputs : Nat
  width : Nat
  base : Nat
  sqRows : Nat
  sq4Rows : Nat
  qSelectors : Nat
  symbols : Nat
  selectors : Nat
  scales : Nat
  palettes : Nat
  nativeScales : Nat
  bytes : Nat
deriving DecidableEq, Repr

def intMax : Nat := 2 ^ 31 - 1

def sizeMax : Nat := 2 ^ 64 - 1

def checkedWeights (outputs width : Nat) : Except SqError Nat :=
  if outputs = 0 ∨ width = 0 ∨ intMax < outputs ∨ intMax < width ∨ width % 32 ≠ 0 then
    .error (.runtimeError "invalid MXFP4-SQ geometry")
  else if sizeMax < outputs * width then
    .error (.runtimeError "MXFP4-SQ payload size overflow")
  else .ok (outputs * width)

/-- `layout`: the layout of version 1. -/
def legacyLayout (bits outputs width base : Nat) : Except SqError Layout := do
  let weights ← checkedWeights outputs width
  if (bits ≠ 2 ∧ bits ≠ 3) ∨ 251 < base ∨ (sizeMax - 7) / bits < weights then
    .error (.runtimeError "invalid MXFP4-SQ geometry or scale base")
  else
    let selectors := 24 + (weights * bits + 7) / 8
    let scales := selectors + (weights / 32 + 7) / 8
    let palettes := scales + outputs * 2
    let bytes := palettes + outputs * 5
    if sizeMax < bytes then .error (.runtimeError "MXFP4-SQ payload size overflow")
    else
      pure
        { version := 1, bits, outputs, width, base, sqRows := outputs, sq4Rows := 0
          qSelectors := 0, symbols := 24, selectors, scales, palettes, nativeScales := bytes
          bytes }

/-- The bytes of the selectors, and the bytes they take. -/
def usedSelectorBytes (outputs : Nat) : Nat := (outputs * 2 + 7) / 8

def selectorBytes (outputs : Nat) : Nat := (usedSelectorBytes outputs + 3) / 4 * 4

def adaptiveLayout (outputs width base qSum sq4Rows : Nat) : Except SqError Layout := do
  let _ ← checkedWeights outputs width
  if 251 < base ∨ outputs < sq4Rows ∨ qSum < outputs ∨ outputs * 4 < qSum then
    .error (.runtimeError "invalid adaptive MXFP4-SQ metadata")
  else
    let sqRows := outputs - sq4Rows
    let blocks := width / 32
    let symbols := 24 + selectorBytes outputs
    if sizeMax / width < qSum then
      .error (.runtimeError "adaptive MXFP4-SQ symbol size overflow")
    else
      let selectors := symbols + qSum * width / 8
      let scales := selectors + (sqRows * blocks + 7) / 8
      let palettes := scales + sqRows * 2
      let nativeScales := palettes + sqRows * 5
      let bytes := nativeScales + sq4Rows * blocks
      if sizeMax < bytes then
        .error (.runtimeError "adaptive MXFP4-SQ payload size overflow")
      else
        pure
          { version := 2, bits := 0, outputs, width, base, sqRows, sq4Rows, qSelectors := 24
            symbols, selectors, scales, palettes, nativeScales, bytes }

def readU64 (data : List UInt8) (offset : Nat) : Nat := ofLittleEndian ((data.drop offset).take 8)

def readPackedQ (data : Nat → UInt8) (row : Nat) : Nat :=
  1 + ((data (row * 2 / 8)).toNat >>> (row * 2 &&& 7) &&& 3)

/-- What comes after the fixed part of a header of version 2. -/
def parseAdaptive (data : List UInt8) (outputs width : Nat) : Except SqError Layout := do
  let _ ← checkedWeights outputs width
  if data.length < 24 + selectorBytes outputs then
    .error (.runtimeError "truncated MXFP4-SQ q selectors")
  else
    let qs := (List.range outputs).map (readPackedQ fun k => byte data (24 + k))
    let used := outputs * 2 % 8
    if used ≠ 0 ∧
        (byte data (24 + usedSelectorBytes outputs - 1)).toNat &&& (255 - (1 <<< used - 1)) ≠ 0 then
      .error (.runtimeError "non-zero MXFP4-SQ q-selector padding")
    else if (List.range' (usedSelectorBytes outputs)
        (selectorBytes outputs - usedSelectorBytes outputs)).any
        (fun k => byte data (24 + k) ≠ 0) then
      .error (.runtimeError "non-zero MXFP4-SQ q-selector alignment padding")
    else do
      let result ← adaptiveLayout outputs width (byte data 5).toNat qs.sum (qs.countP (· = 4))
      if data.length ≠ result.bytes then
        .error (.runtimeError "truncated or trailing adaptive MXFP4-SQ payload")
      else if (List.range' result.nativeScales (result.bytes - result.nativeScales)).any
          (fun k => byte data k = 255) then
        .error (.runtimeError "MXFP4-SQ contains an E8M0 NaN native scale")
      else .ok result

def sq2Magic (data : List UInt8) : Bool :=
  byte data 0 = 83 && byte data 1 = 81 && byte data 2 = 50 && byte data 3 = 0

def sq3Magic (data : List UInt8) : Bool :=
  byte data 0 = 83 && byte data 1 = 81 && byte data 2 = 51 && (byte data 3 = 0 || byte data 3 = 49)

def adaptiveMagic (data : List UInt8) : Bool :=
  byte data 0 = 83 && byte data 1 = 81 && byte data 2 = 86 && byte data 3 = 50

def parse (data : List UInt8) : Except SqError Layout :=
  if data.length < 24 then .error (.runtimeError "invalid MXFP4-SQ header")
  else if byte data 6 ≠ 0 ∨ byte data 7 ≠ 0 ∨
      (!sq2Magic data && !sq3Magic data && !adaptiveMagic data) ∨
      ((sq2Magic data || sq3Magic data) ∧ byte data 4 ≠ 1) ∨
      (adaptiveMagic data ∧ byte data 4 ≠ 2) then
    .error (.runtimeError "invalid MXFP4-SQ header")
  else if intMax < readU64 data 8 ∨ intMax < readU64 data 16 then
    .error (.runtimeError "MXFP4-SQ dimension overflow")
  else if !adaptiveMagic data then do
    let result ← legacyLayout ((byte data 2).toNat - 48) (readU64 data 8) (readU64 data 16)
      (byte data 5).toNat
    if data.length ≠ result.bytes then
      .error (.runtimeError "truncated or trailing MXFP4-SQ payload")
    else .ok result
  else parseAdaptive data (readU64 data 8) (readU64 data 16)

/-! ### Rows -/

/-- What is known of each row: its width, where its symbols start, and its rank among the scalar or
    the native rows. -/
structure RowMetadata where
  q : List Nat
  symbolByteOffsets : List Nat
  auxiliaryRows : List Nat
deriving DecidableEq, Repr

structure MetadataState where
  result : RowMetadata
  symbolOffset : Nat
  sqRank : Nat
  nativeRank : Nat

/-- The width of a row, as `row_metadata` reads it. -/
def rowQ (data : List UInt8) (layout : Layout) (row : Nat) : Nat :=
  if layout.version = 1 then layout.bits
  else readPackedQ (fun k => byte data (layout.qSelectors + k)) row

def metadataStep (data : List UInt8) (layout : Layout) (s : MetadataState) (row : Nat) :
    Except SqError MetadataState :=
  let q := rowQ data layout row
  if 2 ^ 32 - 1 < s.symbolOffset then
    .error (.runtimeError "MXFP4-SQ symbol stream exceeds uint32 row offsets")
  else .ok
    { result :=
        { q := s.result.q ++ [q]
          symbolByteOffsets := s.result.symbolByteOffsets ++ [s.symbolOffset]
          auxiliaryRows := s.result.auxiliaryRows ++ [if q = 4 then s.nativeRank else s.sqRank] }
      symbolOffset := s.symbolOffset + layout.width * q / 8
      sqRank := if q = 4 then s.sqRank else s.sqRank + 1
      nativeRank := if q = 4 then s.nativeRank + 1 else s.nativeRank }

def rowMetadata (data : List UInt8) (layout : Layout) : Except SqError RowMetadata :=
  if layout.outputs = 0 ∨ layout.width = 0 then
    .error (.runtimeError "invalid MXFP4-SQ row metadata source")
  else do
    let s ← (List.range layout.outputs).foldlM (metadataStep data layout)
      { result := { q := [], symbolByteOffsets := [], auxiliaryRows := [] }
        symbolOffset := 0, sqRank := 0, nativeRank := 0 }
    if s.symbolOffset ≠ layout.selectors - layout.symbols ∨ s.sqRank ≠ layout.sqRows ∨
        s.nativeRank ≠ layout.sq4Rows then
      .error (.runtimeError "inconsistent MXFP4-SQ row metadata")
    else .ok s.result

def readPackedBits (data : Nat → UInt8) (offset index bits : Nat) : Nat :=
  let bit := index * bits
  let shift := bit &&& 7
  let value := (data (offset + bit / 8)).toNat
  let value := if 8 < shift + bits then value ||| (data (offset + bit / 8 + 1)).toNat <<< 8 else value
  value >>> shift &&& (1 <<< bits - 1)

def writePackedBits (data : Nat → UInt8) (offset index bits value : Nat) : Nat → UInt8 :=
  let bit := index * bits
  let shift := bit &&& 7
  let packed := value <<< shift
  let data := orByte data (offset + bit / 8) (UInt8.ofNat packed)
  if 8 < shift + bits then orByte data (offset + bit / 8 + 1) (UInt8.ofNat (packed >>> 8)) else data

/-! ### Selected rows -/

/-- The payload that is written, and where in it the next row goes. -/
structure SelectState where
  result : Nat → UInt8
  symbol : Nat
  sqRow : Nat
  nativeRow : Nat

/-- A column range and the two layouts, as the loop over the rows reads them. -/
structure Selecting where
  source : List UInt8
  src : Layout
  sourceRows : RowMetadata
  dst : Layout
  columnBegin : Nat

namespace Selecting

variable (c : Selecting)

def blocks : Nat := c.dst.width / 32

def sourceBlocks : Nat := c.src.width / 32

/-- The block selectors of a scalar row. -/
def copySelectors (auxiliary sqRow : Nat) (result : Nat → UInt8) : Nat → UInt8 :=
  (List.range c.blocks).foldl (fun result block =>
    writePackedBits result c.dst.selectors (sqRow * c.blocks + block) 1
      (readPackedBits (byte c.source) c.src.selectors
        (auxiliary * c.sourceBlocks + c.columnBegin / 32 + block) 1)) result

/-- The eight states of a scalar row. -/
def copyStates (auxiliary sqRow : Nat) (result : Nat → UInt8) : Nat → UInt8 :=
  (List.range 8).foldl (fun result state =>
    let result := writePackedBits result c.dst.scales (sqRow * 8 + state) 2
      (readPackedBits (byte c.source) c.src.scales (auxiliary * 8 + state) 2)
    writePackedBits result c.dst.palettes (sqRow * 8 + state) 5
      (readPackedBits (byte c.source) c.src.palettes (auxiliary * 8 + state) 5)) result

/-- One row of `select_rows`. -/
def step (s : SelectState) (row : Nat × Nat) : SelectState :=
  let q := c.sourceRows.q.getD row.1 0
  let result := writePackedBits s.result c.dst.qSelectors row.2 2 (q - 1)
  let rowBytes := c.dst.width * q / 8
  let result := put result s.symbol rowBytes fun k => byte c.source
    (c.src.symbols + c.sourceRows.symbolByteOffsets.getD row.1 0 + c.columnBegin * q / 8 + k)
  let symbol := s.symbol + rowBytes
  let auxiliary := c.sourceRows.auxiliaryRows.getD row.1 0
  if q = 4 then
    { s with
      result := put result (c.dst.nativeScales + s.nativeRow * c.blocks) c.blocks fun k =>
        byte c.source (c.src.nativeScales + auxiliary * c.sourceBlocks + c.columnBegin / 32 + k)
      symbol
      nativeRow := s.nativeRow + 1 }
  else
    { s with
      result := c.copyStates auxiliary s.sqRow (c.copySelectors auxiliary s.sqRow result)
      symbol
      sqRow := s.sqRow + 1 }

end Selecting

/-- The header of a payload of version 2. -/
def header (base outputs width : Nat) : List UInt8 :=
  [83, 81, 86, 50, 2, UInt8.ofNat base, 0, 0] ++ littleEndian 8 outputs ++ littleEndian 8 width

/-- `select_rows`; the default of `columnEnd` is -1. -/
def selectRows (source : List UInt8) (selectedRows : List Int) (columnBegin columnEnd : Int) :
    Except SqError (List UInt8) := do
  let src ← parse source
  let columnEnd := if columnEnd = -1 then (src.width : Int) else columnEnd
  if columnBegin < 0 ∨ (src.width : Int) < columnEnd ∨ columnEnd ≤ columnBegin ∨
      columnBegin % 32 ≠ 0 ∨ columnEnd % 32 ≠ 0 then
    .error (.runtimeError "MXFP4-SQ column selection must align to block32")
  else if selectedRows = [] ∨ intMax < selectedRows.length then
    .error (.runtimeError "MXFP4-SQ row selection must be non-empty and fit int32")
  else do
    let sourceRows ← rowMetadata source src
    if selectedRows.any fun row => row < 0 || (src.outputs : Int) ≤ row then
      .error (.runtimeError "MXFP4-SQ selected row is out of range")
    else do
      let rows := selectedRows.map Int.toNat
      let qs := rows.map fun row => sourceRows.q.getD row 0
      let dst ← adaptiveLayout rows.length (columnEnd - columnBegin).toNat src.base qs.sum
        (qs.countP (· = 4))
      let c : Selecting := { source, src, sourceRows, dst, columnBegin := columnBegin.toNat }
      let s := rows.zipIdx.foldl c.step
        { result := put (fun _ => 0) 0 24 (byte (header src.base rows.length dst.width))
          symbol := dst.symbols, sqRow := 0, nativeRow := 0 }
      if s.symbol ≠ dst.selectors ∨ s.sqRow ≠ dst.sqRows ∨ s.nativeRow ≠ dst.sq4Rows then
        .error (.runtimeError "inconsistent MXFP4-SQ selected-row accounting")
      else .ok ((List.range dst.bytes).map s.result)

/-! ### What the rows mean -/

/-- Where the symbols of a row start. -/
def symbolOffset (data : List UInt8) (layout : Layout) (row : Nat) : Nat :=
  ((List.range row).map fun r => layout.width * rowQ data layout r / 8).sum

/-- The rank of a row among the scalar or the native rows. -/
def auxiliaryRow (data : List UInt8) (layout : Layout) (row : Nat) : Nat :=
  (List.range row).countP fun r => decide (rowQ data layout r = 4) = decide (rowQ data layout row = 4)

section Row

variable (data : List UInt8) (layout : Layout) (row : Nat)

def rowSymbols (k : Nat) : UInt8 := byte data (layout.symbols + symbolOffset data layout row + k)

/-- The code of a column. -/
def code (column : Nat) : Nat :=
  readPackedBits (rowSymbols data layout row) 0 column (rowQ data layout row)

def blockSelector (block : Nat) : Nat :=
  readPackedBits (byte data) layout.selectors
    (auxiliaryRow data layout row * (layout.width / 32) + block) 1

def stateScale (state : Nat) : Nat :=
  readPackedBits (byte data) layout.scales (auxiliaryRow data layout row * 8 + state) 2

def statePalette (state : Nat) : Nat :=
  readPackedBits (byte data) layout.palettes (auxiliaryRow data layout row * 8 + state) 5

def nativeScale (block : Nat) : Nat :=
  (byte data (layout.nativeScales + auxiliaryRow data layout row * (layout.width / 32) + block)).toNat

end Row

/-- A little-endian word of 32 bits. -/
def word32 (data : Nat → UInt8) (offset : Nat) : Nat :=
  ofLittleEndian ((List.range 4).map fun k => data (offset + k))

def popc (word : Nat) : Nat := (List.range 32).countP word.testBit

/-- `block_tag`: the state of a scalar block, out of the parities of its symbols and its selector. -/
def blockTag (symbols : Nat → UInt8) (block selector bits : Nat) : Nat :=
  let words := fun i => word32 symbols (block * (bits * 4) + 4 * i)
  let low :=
    if bits = 1 then
      (popc (words 0 &&& 0x55555555) &&& 1) ||| (popc (words 0 &&& 0xaaaaaaaa) &&& 1) <<< 1
    else if bits = 2 then
      let fold := words 0 ^^^ words 1
      let fold := fold ^^^ fold >>> 16
      let fold := fold ^^^ fold >>> 8
      let fold := fold ^^^ fold >>> 4
      let fold := fold ^^^ fold >>> 2
      fold &&& 3
    else
      let lo := popc (words 0 &&& 0x49249249) + popc (words 1 &&& 0x92492492)
        + popc (words 2 &&& 0x24924924)
      let hi := popc (words 0 &&& 0x92492492) + popc (words 1 &&& 0x24924924)
        + popc (words 2 &&& 0x49249249)
      (lo &&& 1) ||| (hi &&& 1) <<< 1
  low ||| selector <<< 2

section Row

variable (data : List UInt8) (layout : Layout) (row : Nat)

/-- The state of a scalar block. -/
def blockState (block : Nat) : Nat :=
  blockTag (rowSymbols data layout row) block (blockSelector data layout row block)
    (rowQ data layout row)

/-- The scale of a block, as the kernels read it. -/
def blockScale (block : Nat) : Nat :=
  if rowQ data layout row = 4 then nativeScale data layout row block
  else layout.base + stateScale data layout row (blockState data layout row block)

/-- The palette of a block of a scalar row. -/
def blockPalette (block : Nat) : Nat :=
  statePalette data layout row (blockState data layout row block)

end Row

end TyloQuant.Mxfp4Sq
