import Mathlib.Data.List.Dedup
import TyloQuant.Formats.PackBits
import TyloQuant.Fp8Sq.Blob

/-!
# FP8-SQ tensors in Python

The Python module parses the payloads of MXFP8-SQ and FP8-128SQ again, in numbers without a bound, and
it also builds them.  A float is compared by its bit pattern: the positive finite numbers of a format
are the patterns between zero and infinity.
-/

namespace TyloQuant.Formats.Fp8Sq

open Lib Bytes ByteFile
open TyloQuant.Fp8Sq (Family ScaleKind headerBytes paletteBytes scaleItemsize magic readU16 readU64
  nanCode)

inductive PyError where
  | valueError (message : String)
  | structError
  | runtimeError (message : String)
  /-- The `ValueError` with `invalid {dtype} header: magic={magic!r}, version={version}`. -/
  | invalidHeader (dtype : Family) (magic : List UInt8) (version : Nat)
deriving DecidableEq, Repr

def dtypeName : Family → String
  | .mxfp8 => "MXFP8-SQ"
  | .fp8Block128 => "FP8-128SQ"

/-- `_SCALE_KIND`. -/
def scaleKindOf : ScaleKind → Nat
  | .e8m0 => 1
  | .bf16 => 2
  | .f16 => 3
  | .f32 => 4

/-- `_SCALE_DTYPE`. -/
def scaleDtypeOf (kind : Nat) : Option ScaleKind :=
  [ScaleKind.e8m0, .bf16, .f16, .f32].find? fun scaleDtype => scaleKindOf scaleDtype = kind

def mxfp8BlockShapes : List (Int × Int) := [(1, 32), (32, 32), (128, 128)]

structure Fp8SqLayout where
  dtype : Family
  version : Nat
  shape : Nat × Nat
  scaleDtype : ScaleKind
  scaleShape : Nat × Nat
  blockShape : Nat × Nat
  rowQBits : List Nat
  rowQOffset : Nat
  palettesOffset : Nat
  symbolsOffset : Nat
  rowSymbolByteOffsets : List Nat
  scalesOffset : Nat
  payloadNbytes : Nat
deriving DecidableEq, Repr

structure Fp8SqTensor where
  dtype : Family
  payload : List UInt8
  outputSize : Nat
  inputSize : Nat
  scaleShape : Nat × Nat
  blockShape : Nat × Nat
  rowQBits : List Nat
  scaleDtype : ScaleKind
  formatVersion : Nat
deriving DecidableEq, Repr

def alignedSelectorNbytes (rows : Nat) : Nat := (packedNbytes rows 3 + 3) / 4 * 4

/-- `_pack_bits` of this module, which looks at the size of the numbers. -/
def packBitsChecked (values : List Nat) (bits : Nat) : Except PyError (List UInt8) :=
  if values.any fun value => 1 <<< bits ≤ value then
    .error (.valueError ("value exceeds " ++ toString bits ++ "-bit stream"))
  else .ok (packBits values bits)

def paletteSlice (raw : List UInt8) (bits : Nat) : List UInt8 :=
  (raw.drop (1 <<< bits - 2)).take (1 <<< bits)

def validatePaletteBytes (raw : List UInt8) : Except PyError Unit :=
  if raw.length ≠ paletteBytes then
    .error (.valueError "FP8-SQ palette region must contain 256 bytes")
  else if (raw.take 254).any nanCode then
    .error (.valueError "FP8-SQ palette contains an E4M3 NaN code")
  else if (raw.drop 254).any (· ≠ 0) then
    .error (.valueError "FP8-SQ palette padding must be zero")
  else
    (List.range' 1 7).forM fun bits =>
      let values := paletteSlice raw bits
      if values.dedup.length ≠ values.length then
        .error (.valueError ("FP8-SQ SQ" ++ toString bits ++ " palette contains duplicate codes"))
      else .ok ()

def pairText (pair : Int × Int) : String := "(" ++ toString pair.1 ++ ", " ++ toString pair.2 ++ ")"

/-- The part of `_validate_scale_contract` that depends on the dtype. -/
def validateScaleStorage (dtype : Family) (columns : Int) (scaleDtype : ScaleKind)
    (blockShape : Int × Int) : Except PyError Unit :=
  match dtype with
  | .mxfp8 =>
    if scaleDtype ≠ .e8m0 then .error (.valueError "MXFP8-SQ requires E8M0 microscales")
    else if blockShape ∉ mxfp8BlockShapes then
      .error (.valueError ("unsupported MXFP8-SQ block geometry: " ++ pairText blockShape))
    else if columns % blockShape.2 ≠ 0 then
      .error (.valueError "MXFP8-SQ columns must contain complete native blocks")
    else .ok ()
  | .fp8Block128 =>
    if blockShape ≠ (128, 128) then
      .error (.valueError "FP8-128SQ requires 128x128 scale blocks")
    else if scaleDtype = .e8m0 then
      .error (.valueError "FP8-128SQ scale storage must be BF16, F16, or F32")
    else .ok ()

def validateScaleContract (dtype : Family) (shape : Int × Int) (scaleDtype : ScaleKind)
    (scaleShape blockShape : Int × Int) : Except PyError Unit :=
  let (rows, columns) := shape
  let (blockRows, blockColumns) := blockShape
  let expected := ((rows + blockRows - 1) / blockRows, (columns + blockColumns - 1) / blockColumns)
  if rows ≤ 0 ∨ columns ≤ 0 then .error (.valueError "FP8-SQ requires a non-empty matrix")
  else if blockRows ≤ 0 ∨ blockColumns ≤ 0 then
    .error (.valueError "FP8-SQ block dimensions must be positive")
  else if scaleShape ≠ expected then
    .error (.valueError ("FP8-SQ scale shape " ++ pairText scaleShape ++ " != " ++ pairText expected))
  else validateScaleStorage dtype columns scaleDtype blockShape

/-- `row_offsets`, with the end of the last row. -/
def rowOffsets (columns : Nat) (q : List Nat) : List Nat :=
  q.foldl (fun offsets bits => offsets ++ [offsets.getLast?.getD 0 + packedNbytes columns bits]) [0]

def layoutFromFields (dtype : Family) (version : Nat) (shape : Int × Int) (scaleDtype : ScaleKind)
    (scaleShape blockShape : Int × Int) (rowQBits : List Int) : Except PyError Fp8SqLayout :=
  if (rowQBits.length : Int) ≠ shape.1 ∨ rowQBits.any (fun value => value < 1 || 8 < value) then
    .error (.valueError "FP8-SQ needs one SQ1..SQ8 descriptor per neuron")
  else do
    validateScaleContract dtype shape scaleDtype scaleShape blockShape
    -- All numbers are positive from here on.
    let q := rowQBits.map Int.toNat
    let rows := shape.1.toNat
    let columns := shape.2.toNat
    let palettesOffset := headerBytes + alignedSelectorNbytes rows
    let symbolsOffset := palettesOffset + paletteBytes
    let offsets := rowOffsets columns q
    let scalesOffset := symbolsOffset + offsets.getLast?.getD 0
    let scaleNbytes := scaleShape.1.toNat * scaleShape.2.toNat * scaleItemsize scaleDtype
    pure
      { dtype
        version
        shape := (rows, columns)
        scaleDtype
        scaleShape := (scaleShape.1.toNat, scaleShape.2.toNat)
        blockShape := (blockShape.1.toNat, blockShape.2.toNat)
        rowQBits := q
        rowQOffset := headerBytes
        palettesOffset
        symbolsOffset
        rowSymbolByteOffsets := offsets
        scalesOffset
        payloadNbytes := scalesOffset + scaleNbytes }

/-! ### The parser -/

/-- The bits of infinity; the E8M0 code in its place is the NaN. -/
def infinityBits : ScaleKind → Nat
  | .e8m0 => 0xff
  | .bf16 => 0x7f80
  | .f16 => 0x7c00
  | .f32 => 0x7f800000

/-- `np.frombuffer` for numbers of some bytes. -/
def fromBuffer (buffer : List UInt8) (itemsize : Nat) : List Nat :=
  (List.range (buffer.length / itemsize)).map fun index =>
    readLE (byte buffer) (index * itemsize) itemsize

def validateScales (scaleDtype : ScaleKind) (scaleBytes : List UInt8) : Except PyError Unit :=
  let scaleValues := fromBuffer scaleBytes (scaleItemsize scaleDtype)
  match scaleDtype with
  | .e8m0 =>
    if 255 ∈ scaleBytes then .error (.valueError "MXFP8-SQ contains an E8M0 NaN scale") else .ok ()
  | _ =>
    if scaleValues.any fun raw => ¬(0 < raw ∧ raw < infinityBits scaleDtype) then
      .error (.valueError "FP8-128SQ scale multipliers must be positive and finite")
    else .ok ()

def validateRow (source : List UInt8) (layout : Fp8SqLayout) (row : Nat) : Except PyError Unit :=
  if layout.rowQBits.getD row 0 ≠ 8 then .ok ()
  else
    let start := layout.symbolsOffset + layout.rowSymbolByteOffsets.getD row 0
    if (window (byte source) start layout.shape.2).any nanCode then
      .error (.valueError "FP8-SQ SQ8 stream contains an E4M3 NaN code")
    else .ok ()

/-- The selectors are there, and nothing is behind them. -/
def validateSelectors (source : List UInt8) (rows : Nat) : Except PyError Unit :=
  let used := rows * 3 % 8
  let usedSelectorNbytes := packedNbytes rows 3
  if source.length < headerBytes + alignedSelectorNbytes rows + paletteBytes then
    .error (.valueError "truncated FP8-SQ descriptor or palette region")
  else if used ≠ 0 ∧ (byte source (headerBytes + usedSelectorNbytes - 1)).toNat
      &&& (255 - (1 <<< used - 1)) ≠ 0 then
    .error (.valueError "non-zero FP8-SQ descriptor padding")
  else if (window (byte source) (headerBytes + usedSelectorNbytes)
      (alignedSelectorNbytes rows - usedSelectorNbytes)).any (· ≠ 0) then
    .error (.valueError "non-zero FP8-SQ descriptor alignment padding")
  else .ok ()

/-- What `parse_fp8_sq_layout` looks at once it has the layout. -/
def validatePayload (dtype : Family) (source : List UInt8) (layout : Fp8SqLayout) :
    Except PyError Unit :=
  if source.length ≠ layout.payloadNbytes then
    .error (.valueError (dtypeName dtype ++ " payload size " ++ toString source.length
      ++ " != " ++ toString layout.payloadNbytes))
  else do
    validatePaletteBytes (window (byte source) layout.palettesOffset paletteBytes)
    (List.range layout.rowQBits.length).forM (validateRow source layout)
    validateScales layout.scaleDtype (source.drop layout.scalesOffset)

def parseFp8SqLayout (dtype : Family) (source : List UInt8) : Except PyError Fp8SqLayout :=
  if source.length < headerBytes then .error (.valueError "truncated FP8-SQ header")
  else
    let version := (byte source 4).toNat
    let scaleKind := (byte source 5).toNat
    let blockRows := readU16 (byte source) 8
    let blockColumns := readU16 (byte source) 10
    let rows := readU64 (byte source) 12
    let columns := readU64 (byte source) 20
    let scaleRows := readU64 (byte source) 28
    let scaleColumns := readU64 (byte source) 36
    if window (byte source) 0 4 ≠ magic dtype ∨ version ≠ 1 ∨ byte source 6 ≠ 0 ∨
        byte source 7 ≠ 0 then
      .error (.invalidHeader dtype (window (byte source) 0 4) version)
    else
      match scaleDtypeOf scaleKind with
      | none =>
        .error (.valueError
          ("invalid " ++ dtypeName dtype ++ " scale kind: " ++ toString scaleKind))
      | some scaleDtype =>
        if ¬(0 < rows ∧ rows ≤ 0x7fffffff) ∨ ¬(0 < columns ∧ columns ≤ 0x7fffffff) then
          .error (.valueError "invalid FP8-SQ matrix dimensions")
        else do
          validateSelectors source rows
          let selectors := unpackBits source headerBytes rows 3
          let layout ← layoutFromFields dtype version (rows, columns) scaleDtype
            (scaleRows, scaleColumns) (blockRows, blockColumns)
            (selectors.map fun (selector : Nat) => (selector : Int) + 1)
          validatePayload dtype source layout
          pure layout

def tensorFromLayout (payload : List UInt8) (layout : Fp8SqLayout) : Fp8SqTensor where
  dtype := layout.dtype
  payload
  outputSize := layout.shape.1
  inputSize := layout.shape.2
  scaleShape := layout.scaleShape
  blockShape := layout.blockShape
  rowQBits := layout.rowQBits
  scaleDtype := layout.scaleDtype
  formatVersion := layout.version

def unpackFp8Sq (dtype : Family) (payload : List UInt8) : Except PyError Fp8SqTensor := do
  let layout ← parseFp8SqLayout dtype payload
  pure (tensorFromLayout payload layout)

/-! ### The builder -/

/-- The arguments of `build_fp8_sq`. -/
structure BuildInput where
  dtype : Family
  rowQBits : List Int
  inputSize : Int
  blockShape : Int × Int
  scaleDtype : ScaleKind
  scaleShape : Int × Int
  palettes : List Int
  rowSymbols : List (List UInt8)
  scaleBytes : List UInt8

/-- `struct` packs a number that fits its bytes. -/
def packInt (size : Nat) (value : Int) : Except PyError (List UInt8) :=
  if value < 0 ∨ (256 ^ size : Nat) ≤ value then .error .structError
  else .ok (littleEndian size value.toNat)

def packHeader (b : BuildInput) : Except PyError (List UInt8) := do
  let blockRows ← packInt 2 b.blockShape.1
  let blockColumns ← packInt 2 b.blockShape.2
  let rows ← packInt 8 b.rowQBits.length
  let columns ← packInt 8 b.inputSize
  let scaleRows ← packInt 8 b.scaleShape.1
  let scaleColumns ← packInt 8 b.scaleShape.2
  pure (magic b.dtype ++ [1, UInt8.ofNat (scaleKindOf b.scaleDtype), 0, 0] ++ blockRows
    ++ blockColumns ++ rows ++ columns ++ scaleRows ++ scaleColumns)

/-- A stream has the bytes of its row. -/
def validateStream (b : BuildInput) (row : Nat) : Except PyError Unit :=
  let bits := (b.rowQBits.getD row 0).toNat
  let expected := packedNbytes b.inputSize.toNat bits
  if (b.rowSymbols.getD row []).length ≠ expected then
    .error (.valueError ("FP8-SQ row " ++ toString row ++ " needs " ++ toString expected
      ++ " symbol bytes for SQ" ++ toString bits))
  else .ok ()

def buildFp8Sq (b : BuildInput) : Except PyError Fp8SqTensor := do
  let layout ← layoutFromFields b.dtype 1 (b.rowQBits.length, b.inputSize) b.scaleDtype b.scaleShape
    b.blockShape b.rowQBits
  let paletteCodes := b.palettes.map uint8
  validatePaletteBytes paletteCodes
  if b.rowSymbols.length ≠ b.rowQBits.length then
    .error (.valueError "FP8-SQ requires one symbol stream per neuron")
  else do
    (List.range b.rowQBits.length).forM (validateStream b)
    let expectedScales := b.scaleShape.1.toNat * b.scaleShape.2.toNat * scaleItemsize b.scaleDtype
    if b.scaleBytes.length ≠ expectedScales then
      .error (.valueError ("FP8-SQ scale payload has " ++ toString b.scaleBytes.length
        ++ " bytes, expected " ++ toString expectedScales))
    else if b.scaleDtype = .e8m0 ∧ 255 ∈ b.scaleBytes then
      .error (.valueError "MXFP8-SQ contains an E8M0 NaN scale")
    else do
      let header ← packHeader b
      let selectors ← packBitsChecked (b.rowQBits.map fun q => (uint8 q - 1).toNat) 3
      let selectors := selectors
        ++ List.replicate (alignedSelectorNbytes b.rowQBits.length - selectors.length) 0
      let payload := header ++ selectors ++ paletteCodes ++ b.rowSymbols.flatten ++ b.scaleBytes
      if payload.length ≠ layout.payloadNbytes then
        .error (.runtimeError "internal FP8-SQ payload accounting mismatch")
      else unpackFp8Sq b.dtype payload

/-! ### The codes -/

/-- One palette of `fp8_sq_palettes`. -/
def fp8SqPalette (payload : List UInt8) (layout : Fp8SqLayout) (bits : Nat) : List UInt8 :=
  paletteSlice (window (byte payload) layout.palettesOffset paletteBytes) bits

def decodeRow (payload : List UInt8) (layout : Fp8SqLayout) (row : Nat) : List UInt8 :=
  let bits := layout.rowQBits.getD row 0
  let start := layout.symbolsOffset + layout.rowSymbolByteOffsets.getD row 0
  if bits = 8 then window (byte payload) start layout.shape.2
  else
    (unpackBits payload start layout.shape.2 bits).map fun symbol =>
      (fp8SqPalette payload layout bits).getD symbol 0

def decodeFp8SqCodes (tensor : Fp8SqTensor) : Except PyError (List (List UInt8)) := do
  let layout ← parseFp8SqLayout tensor.dtype tensor.payload
  let result := (List.range layout.rowQBits.length).map (decodeRow tensor.payload layout)
  if result.any fun codes => codes.any nanCode then
    .error (.valueError "FP8-SQ reconstructed an illegal E4M3 code")
  else pure result

def fp8SqScaleBytes (tensor : Fp8SqTensor) : Except PyError (List UInt8) := do
  let layout ← parseFp8SqLayout tensor.dtype tensor.payload
  pure (tensor.payload.drop layout.scalesOffset)

end TyloQuant.Formats.Fp8Sq
