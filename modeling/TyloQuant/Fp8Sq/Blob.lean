import Mathlib.Tactic.Common
import TyloQuant.Lib.BitRange
import TyloQuant.Lib.Outcome

/-!
# FP8-SQ payloads

The payloads of the dtypes MXFP8-SQ and FP8-128SQ have for each row a bit width q from 1 to 8.  The
symbols of a row with q below 8 select codes of one of seven palettes, and a row with q = 8 is the
codes themselves.  After the header come a selector of three bits for each row, the palettes, the
symbols of all rows, each from the start of a byte on, and a scale for each block of the matrix.

An `int` has 32 bits; `std::size_t` and `std::uint64_t` have 64, which no product of two dimensions
that fit an `int` reaches.
-/

namespace TyloQuant.Fp8Sq

open Lib Bytes ByteFile Bits

inductive Fp8SqError where
  | runtimeError (message : String)
  /-- A sum that its `int` does not hold. -/
  | undefined
deriving DecidableEq, Repr

/-- The dtypes MXFP8-SQ and FP8-128SQ. -/
inductive Family where
  | mxfp8
  | fp8Block128
deriving DecidableEq, Repr

inductive ScaleKind where
  | e8m0
  | bf16
  | f16
  | f32
deriving DecidableEq, Repr

structure Layout where
  family : Family
  scaleKind : ScaleKind
  version : Nat
  outputs : Nat
  width : Nat
  blockRows : Nat
  blockColumns : Nat
  scaleRows : Nat
  scaleColumns : Nat
  qSelectors : Nat
  palettes : Nat
  symbols : Nat
  scales : Nat
  bytes : Nat
deriving DecidableEq, Repr

structure RowMetadata where
  q : List Nat
  symbolByteOffsets : List Nat
deriving DecidableEq, Repr

def intMax : Nat := 2 ^ 31 - 1

def sizeMax : Nat := 2 ^ 64 - 1

def headerBytes : Nat := 44

def paletteBytes : Nat := 256

def readU16 (data : Nat → UInt8) (offset : Nat) : Nat := readLE data offset 2

def readU32 (data : Nat → UInt8) (offset : Nat) : Nat := readLE data offset 4

def readU64 (data : Nat → UInt8) (offset : Nat) : Nat := readLE data offset 8

/-- Widths are from 1 to 8, and counts are those of one row or column, so nothing overflows. -/
def packedNbytes (count bits : Nat) : Nat := (count * bits + 7) / 8

def readQ (selectors : Nat → UInt8) (row : Nat) : Nat :=
  let bit := row * 3
  let shift := bit &&& 7
  let value := (selectors (bit / 8)).toNat
  let value := if 8 < shift + 3 then value ||| (selectors (bit / 8 + 1)).toNat <<< 8 else value
  1 + (value >>> shift &&& 7)

def ScaleKind.ofByte (kind : UInt8) : Option ScaleKind :=
  if kind = 1 then some .e8m0
  else if kind = 2 then some .bf16
  else if kind = 3 then some .f16
  else if kind = 4 then some .f32
  else none

def scaleItemsize : ScaleKind → Nat
  | .e8m0 => 1
  | .bf16 => 2
  | .f16 => 2
  | .f32 => 4

def isMxfp8Block (rows columns : Nat) : Bool :=
  (rows = 1 && columns = 32) || (rows = 32 && columns = 32) || (rows = 128 && columns = 128)

/-! ### The parser -/

def magic : Family → List UInt8
  | .mxfp8 => [77, 56, 83, 81]
  | .fp8Block128 => [70, 56, 83, 81]

/-- The geometry in a header. -/
structure Header where
  scaleKind : ScaleKind
  blockRows : Nat
  blockColumns : Nat
  outputs : Nat
  width : Nat
  scaleRows : Nat
  scaleColumns : Nat
deriving DecidableEq, Repr

/-- Which scales a dtype has. -/
def scaleContract (family : Family) (kind : Option ScaleKind) (h : Nat × Nat × Nat) :
    Except Fp8SqError ScaleKind :=
  let (blockRows, blockColumns, width) := h
  match family, kind with
  | .mxfp8, some .e8m0 =>
    if !isMxfp8Block blockRows blockColumns || width % blockColumns ≠ 0 then
      .error (.runtimeError "invalid MXFP8-SQ scale contract")
    else .ok .e8m0
  | .mxfp8, _ => .error (.runtimeError "invalid MXFP8-SQ scale contract")
  | .fp8Block128, some .e8m0 => .error (.runtimeError "invalid FP8-128SQ scale contract")
  | .fp8Block128, none => .error (.runtimeError "invalid FP8-128SQ scale contract")
  | .fp8Block128, some kind =>
    if blockRows ≠ 128 ∨ blockColumns ≠ 128 then
      .error (.runtimeError "invalid FP8-128SQ scale contract")
    else .ok kind

/-- `(count + block - 1) / block`, in an `int`: the first sum may overflow. -/
def blockCount (count block : Nat) : Except Fp8SqError Nat :=
  if intMax < count + block then .error .undefined else .ok ((count + block - 1) / block)

def parseHeader (family : Family) (data : List UInt8) : Except Fp8SqError Header :=
  if data.length < headerBytes then .error (.runtimeError "invalid FP8-SQ header")
  else if (List.range 4).any fun i => byte data i ≠ byte (magic family) i then
    .error (.runtimeError "FP8-SQ dtype and payload magic disagree")
  else if byte data 4 ≠ 1 ∨ byte data 6 ≠ 0 ∨ byte data 7 ≠ 0 then
    .error (.runtimeError "unsupported FP8-SQ header version or flags")
  else
    let blockRows := readU16 (byte data) 8
    let blockColumns := readU16 (byte data) 10
    let outputs := readU64 (byte data) 12
    let width := readU64 (byte data) 20
    let scaleRows := readU64 (byte data) 28
    let scaleColumns := readU64 (byte data) 36
    if outputs = 0 ∨ width = 0 ∨ scaleRows = 0 ∨ scaleColumns = 0 ∨ intMax < outputs ∨
        intMax < width ∨ intMax < scaleRows ∨ intMax < scaleColumns ∨ blockRows = 0 ∨
        blockColumns = 0 then
      .error (.runtimeError "invalid FP8-SQ dimensions")
    else do
      let expectedScaleRows ← blockCount outputs blockRows
      let expectedScaleColumns ← blockCount width blockColumns
      if scaleRows ≠ expectedScaleRows ∨ scaleColumns ≠ expectedScaleColumns then
        .error (.runtimeError "FP8-SQ scale shape disagrees with block geometry")
      else do
        let scaleKind ← scaleContract family (ScaleKind.ofByte (byte data 5))
          (blockRows, blockColumns, width)
        pure { scaleKind, blockRows, blockColumns, outputs, width, scaleRows, scaleColumns }

/-- The bytes of the selectors, and the bytes they take. -/
def usedQBytes (outputs : Nat) : Nat := packedNbytes outputs 3

def qBytes (outputs : Nat) : Nat := (usedQBytes outputs + 3) / 4 * 4

/-- The selectors are there, and nothing is behind them. -/
def checkSelectors (data : List UInt8) (outputs : Nat) : Except Fp8SqError Unit :=
  if data.length < headerBytes + qBytes outputs + paletteBytes then
    .error (.runtimeError "truncated FP8-SQ descriptors or palettes")
  else if outputs * 3 % 8 ≠ 0 ∧ (byte data (headerBytes + usedQBytes outputs - 1)).toNat
      &&& (255 - (1 <<< (outputs * 3 % 8) - 1)) ≠ 0 then
    .error (.runtimeError "non-zero FP8-SQ q-selector padding")
  else if (List.range' (usedQBytes outputs) (qBytes outputs - usedQBytes outputs)).any
      fun k => byte data (headerBytes + k) ≠ 0 then
    .error (.runtimeError "non-zero FP8-SQ q-selector alignment padding")
  else .ok ()

/-- The selectors, from their first byte on. -/
def selectors (data : List UInt8) (k : Nat) : UInt8 := byte data (headerBytes + k)

/-- The bytes of the symbols of the first rows. -/
def symbolBytes (data : List UInt8) (width rows : Nat) : Nat :=
  (List.range rows).foldl (fun bytes row => bytes + packedNbytes width (readQ (selectors data) row)) 0

/-- The offsets of the parts, which take the whole payload. -/
def layOut (family : Family) (data : List UInt8) (h : Header) : Except Fp8SqError Layout :=
  let palettes := headerBytes + qBytes h.outputs
  let symbols := palettes + paletteBytes
  let bytes := symbolBytes data h.width h.outputs
  if sizeMax - symbols < bytes then .error (.runtimeError "FP8-SQ symbol stream size overflow")
  else
    let scales := symbols + bytes
    if sizeMax / h.scaleColumns < h.scaleRows then
      .error (.runtimeError "FP8-SQ scale count overflow")
    else
      let scaleCount := h.scaleRows * h.scaleColumns
      let itemsize := scaleItemsize h.scaleKind
      if (sizeMax - scales) / itemsize < scaleCount then
        .error (.runtimeError "FP8-SQ scale payload size overflow")
      else if data.length ≠ scales + scaleCount * itemsize then
        .error (.runtimeError "truncated or trailing FP8-SQ payload")
      else
        .ok { family, version := 1, scaleKind := h.scaleKind, outputs := h.outputs
              width := h.width, blockRows := h.blockRows, blockColumns := h.blockColumns
              scaleRows := h.scaleRows, scaleColumns := h.scaleColumns
              qSelectors := headerBytes, palettes, symbols, scales
              bytes := scales + scaleCount * itemsize }

/-- A code that is a NaN. -/
def nanCode (code : UInt8) : Bool := code &&& 0x7f = 0x7f

def checkPalette (data : List UInt8) (palettes q : Nat) : Except Fp8SqError Unit :=
  (List.range (2 ^ q)).forM fun left =>
    let begin_ := palettes + 2 ^ q - 2
    let code := byte data (begin_ + left)
    if nanCode code then .error (.runtimeError "FP8-SQ palette contains E4M3 NaN")
    else (List.range left).forM fun right =>
      if byte data (begin_ + right) = code then
        .error (.runtimeError "FP8-SQ palette contains duplicate codes")
      else .ok ()

def checkPalettes (data : List UInt8) (palettes : Nat) : Except Fp8SqError Unit := do
  (List.range' 1 7).forM (checkPalette data palettes)
  if byte data (palettes + 254) ≠ 0 ∨ byte data (palettes + 255) ≠ 0 then
    .error (.runtimeError "non-zero FP8-SQ palette padding")
  else .ok ()

/-- The codes of the rows of width 8; the state is where the symbols of the next row start. -/
def checkRow (data : List UInt8) (symbols width rowSymbolOffset row : Nat) :
    Except Fp8SqError Nat := do
  let q := readQ (selectors data) row
  if q = 8 then
    (List.range width).forM fun column =>
      if nanCode (byte data (symbols + rowSymbolOffset + column)) then
        .error (.runtimeError "FP8-SQ SQ8 stream contains an E4M3 NaN code")
      else .ok ()
  pure (rowSymbolOffset + packedNbytes width q)

/-- A positive and finite number of the format. -/
def validScale (data : Nat → UInt8) (offset : Nat) : ScaleKind → Bool
  | .e8m0 => data offset ≠ 255
  | .bf16 =>
    let raw := readU16 data offset
    raw &&& 0x8000 = 0 && raw &&& 0x7fff ≠ 0 && raw &&& 0x7f80 ≠ 0x7f80
  | .f16 =>
    let raw := readU16 data offset
    raw &&& 0x8000 = 0 && raw &&& 0x7fff ≠ 0 && raw &&& 0x7c00 ≠ 0x7c00
  | .f32 =>
    let raw := readU32 data offset
    raw &&& 0x80000000 = 0 && raw &&& 0x7fffffff ≠ 0 && raw &&& 0x7f800000 ≠ 0x7f800000

def checkScales (data : List UInt8) (l : Layout) : Except Fp8SqError Unit :=
  (List.range (l.scaleRows * l.scaleColumns)).forM fun index =>
    if validScale (byte data) (l.scales + index * scaleItemsize l.scaleKind) l.scaleKind then .ok ()
    else if l.scaleKind = .e8m0 then
      .error (.runtimeError "MXFP8-SQ contains an E8M0 NaN scale")
    else .error (.runtimeError "FP8-128SQ scale must be positive and finite")

def parse (family : Family) (data : List UInt8) : Except Fp8SqError Layout := do
  let h ← parseHeader family data
  checkSelectors data h.outputs
  let layout ← layOut family data h
  checkPalettes data layout.palettes
  let _ ← (List.range layout.outputs).foldlM (checkRow data layout.symbols layout.width) 0
  checkScales data layout
  pure layout

/-! ### Rows -/

def metadataStep (data : List UInt8) (layout : Layout) (s : RowMetadata × Nat) (row : Nat) :
    Except Fp8SqError (RowMetadata × Nat) :=
  let q := readQ (fun k => byte data (layout.qSelectors + k)) row
  if 2 ^ 32 - 1 < s.2 then .error (.runtimeError "FP8-SQ row offsets exceed uint32")
  else .ok
    ({ q := s.1.q ++ [q], symbolByteOffsets := s.1.symbolByteOffsets ++ [s.2] },
      s.2 + packedNbytes layout.width q)

def rowMetadata (data : List UInt8) (layout : Layout) : Except Fp8SqError RowMetadata :=
  if layout.outputs = 0 ∨ layout.width = 0 then
    .error (.runtimeError "invalid FP8-SQ row metadata source")
  else do
    let s ← (List.range layout.outputs).foldlM (metadataStep data layout)
      ({ q := [], symbolByteOffsets := [] }, 0)
    if layout.symbols + s.2 ≠ layout.scales then
      .error (.runtimeError "inconsistent FP8-SQ row metadata")
    else .ok s.1

/-- The code that `decode_cpu` scales: a symbol of the row, or what its palette has for it. -/
def decodeCode (blob : List UInt8) (layout : Layout) (q symbolOffset column : Nat) : Nat :=
  let symbols := fun k => byte blob (layout.symbols + symbolOffset + k)
  let bit := column * q
  let word := (symbols (bit / 8)).toNat
  let word := if 8 < bit % 8 + q then word ||| (symbols (bit / 8 + 1)).toNat <<< 8 else word
  let code := word >>> (bit % 8) &&& (1 <<< q - 1)
  if q = 8 then code else (byte blob (layout.palettes + (1 <<< q) - 2 + code)).toNat

/-- Where the scale of an element is. -/
def scaleIndex (layout : Layout) (row column : Nat) : Nat :=
  row / layout.blockRows * layout.scaleColumns + column / layout.blockColumns

/-- The bytes of the scale by which `decode_cpu` multiplies. -/
def scaleCell (blob : List UInt8) (layout : Layout) (row column : Nat) : List UInt8 :=
  window (byte blob)
    (layout.scales + scaleIndex layout row column * scaleItemsize layout.scaleKind)
    (scaleItemsize layout.scaleKind)

/-! ### Slices -/

/-- What is read while a slice is written. -/
structure Slicing where
  source : List UInt8
  src : Layout
  metadata : RowMetadata
  rowBegin : Nat
  rowEnd : Nat
  columnBegin : Nat
  columnEnd : Nat

namespace Slicing

variable (c : Slicing)

def outputs : Nat := c.rowEnd - c.rowBegin

def width : Nat := c.columnEnd - c.columnBegin

def scaleRows : Nat := (c.outputs + c.src.blockRows - 1) / c.src.blockRows

def scaleColumns : Nat := (c.width + c.src.blockColumns - 1) / c.src.blockColumns

def palettes : Nat := headerBytes + qBytes c.outputs

def symbols : Nat := c.palettes + paletteBytes

def q (row : Nat) : Nat := c.metadata.q.getD row 0

def scales : Nat :=
  (List.range' c.rowBegin c.outputs).foldl (fun scales row => scales + packedNbytes c.width (c.q row))
    c.symbols

def itemsize : Nat := scaleItemsize c.src.scaleKind

def bytes : Nat := c.scales + c.scaleRows * c.scaleColumns * c.itemsize

/-- The header of the source, with other dimensions, and its palettes. -/
def start : Nat → UInt8 :=
  let result := put (fun _ => 0) 0 headerBytes (byte c.source)
  let result := put result 12 8 (byte (littleEndian 8 c.outputs))
  let result := put result 20 8 (byte (littleEndian 8 c.width))
  let result := put result 28 8 (byte (littleEndian 8 c.scaleRows))
  let result := put result 36 8 (byte (littleEndian 8 c.scaleColumns))
  put result c.palettes paletteBytes fun k => byte c.source (c.src.palettes + k)

/-- The selector of a row. -/
def writeSelector (result : Nat → UInt8) (row : Nat) : Nat → UInt8 :=
  let bit := (row - c.rowBegin) * 3
  let encoded := (c.q row - 1) <<< (bit % 8)
  let result := orByte result (headerBytes + bit / 8) (UInt8.ofNat encoded)
  if 5 < bit % 8 then orByte result (headerBytes + bit / 8 + 1) (UInt8.ofNat (encoded >>> 8))
  else result

/-- Keeps the first bits of a byte. -/
def maskByte (result : Nat → UInt8) (k bits : Nat) : Nat → UInt8 :=
  fun i => if i = k then result i &&& UInt8.ofNat (1 <<< bits - 1) else result i

/-- The symbols of a row; the alignment of the columns makes them start a byte. -/
def copySymbols (result : Nat → UInt8) (symbolOffset row : Nat) : Nat → UInt8 :=
  let bytes := packedNbytes c.width (c.q row)
  let result := put result symbolOffset bytes fun k => byte c.source
    (c.src.symbols + c.metadata.symbolByteOffsets.getD row 0 + c.columnBegin * c.q row / 8 + k)
  if c.width * c.q row % 8 ≠ 0 then
    maskByte result (symbolOffset + bytes - 1) (c.width * c.q row % 8)
  else result

def step (s : (Nat → UInt8) × Nat) (row : Nat) : (Nat → UInt8) × Nat :=
  (c.copySymbols (c.writeSelector s.1 row) s.2 row, s.2 + packedNbytes c.width (c.q row))

/-- The scales of a row of blocks. -/
def copyScales (result : Nat → UInt8) (row : Nat) : Nat → UInt8 :=
  let sourceIndex := (c.rowBegin / c.src.blockRows + row) * c.src.scaleColumns
    + c.columnBegin / c.src.blockColumns
  put result (c.scales + row * c.scaleColumns * c.itemsize) (c.scaleColumns * c.itemsize)
    fun k => byte c.source (c.src.scales + sourceIndex * c.itemsize + k)

def written : Nat → UInt8 :=
  let s := (List.range' c.rowBegin c.outputs).foldl c.step (c.start, c.symbols)
  (List.range c.scaleRows).foldl c.copyScales s.1

end Slicing

def slice (family : Family) (source : List UInt8) (rowBegin rowEnd columnBegin columnEnd : Int) :
    Except Fp8SqError (List UInt8) := do
  let src ← parse family source
  if rowBegin < 0 ∨ (src.outputs : Int) < rowEnd ∨ rowEnd ≤ rowBegin ∨ columnBegin < 0 ∨
      (src.width : Int) < columnEnd ∨ columnEnd ≤ columnBegin ∨
      rowBegin % src.blockRows ≠ 0 ∨ columnBegin % src.blockColumns ≠ 0 ∨
      (rowEnd ≠ src.outputs ∧ rowEnd % src.blockRows ≠ 0) ∨
      (columnEnd ≠ src.width ∧ columnEnd % src.blockColumns ≠ 0) then
    .error (.runtimeError "FP8-SQ slices must align to native scale blocks")
  else do
    let metadata ← rowMetadata source src
    let c : Slicing :=
      { source, src, metadata, rowBegin := rowBegin.toNat, rowEnd := rowEnd.toNat
        columnBegin := columnBegin.toNat, columnEnd := columnEnd.toNat }
    let result := (List.range c.bytes).map c.written
    let _ ← parse family result
    pure result

end TyloQuant.Fp8Sq
