import TyloQuant.Formats.Fp8SqBuilder

/-!
# One meaning for a payload

The C++ parser and the Python parser read the same from a payload that both accept.  The C++ parser
accepts fewer: it rounds the dimensions up to whole blocks in an `int`, and its runtime keeps the
offsets of the rows as `int32_t`.
-/

namespace TyloQuant.Fp8Sq

open Lib Bytes ByteFile Bits List
open Formats.Fp8Sq (Fp8SqLayout Fp8SqTensor BuildInput parseFp8SqLayout unpackFp8Sq
  decodeFp8SqCodes fp8SqScaleBytes buildFp8Sq layoutOf decodeRow sampleParts samplePalettes
  wellFormed_sample)

/-! ### The C++ decoder -/

/-- The rows of `to_device_fp8_sq`: an offset is kept as an `int32_t`. -/
def runtimeRows (data : List UInt8) (layout : Layout) : Except Fp8SqError RowMetadata := do
  let rows ← rowMetadata data layout
  if rows.symbolByteOffsets.any fun offset => intMax < offset then
    .error (.runtimeError "FP8-SQ runtime row metadata exceeds int32 limits")
  else pure rows

/-- The codes that `decode_cpu` scales when `dequant_fp8_sq` runs on the CPU. -/
def dequantCodes (family : Family) (data : List UInt8) : Except Fp8SqError (List (List Nat)) := do
  let layout ← parse family data
  let rows ← runtimeRows data layout
  pure ((List.range layout.outputs).map fun row => (List.range layout.width).map fun column =>
    decodeCode data layout (rows.q.getD row 0) (rows.symbolByteOffsets.getD row 0) column)

/-! ### Headers -/

variable {family : Family} {data : List UInt8} {h : Header}

theorem HeaderIs.unique {h' : Header} (hheader : HeaderIs family data h)
    (hheader' : HeaderIs family data h') : h = h' := by
  have hkind : h.scaleKind = h'.scaleKind :=
    Option.some.inj (hheader.scaleKind.symm.trans hheader'.scaleKind)
  rw [Formats.Fp8Sq.eq_headerOf hheader, Formats.Fp8Sq.eq_headerOf hheader', hkind]

/-- The offsets of the rows fit an `int`. -/
def IntOffsets (data : List UInt8) (h : Header) : Prop :=
  ∀ row < h.outputs, symbolBytes data h.width row ≤ intMax

theorem runtimeRows_eq_ok {m : RowMetadata} (hgeometry : Geometry family h) :
    runtimeRows data (h.layout data family) = .ok m ↔
      IntOffsets data h ∧ m = metadataOf data h.width h.outputs := by
  have hint : intMax = 2147483647 := rfl
  have hany : ¬((metadataOf data h.width h.outputs).symbolByteOffsets.any
      fun offset => intMax < offset) = true ↔ IntOffsets data h := by
    simp [metadataOf, IntOffsets]
  unfold runtimeRows
  rw [bind_eq_ok]
  constructor
  · rintro ⟨rows, hrows, hrest⟩
    obtain ⟨hsmall, rfl⟩ := (rowMetadata_eq_ok hgeometry).mp hrows
    obtain ⟨hoffsets, hm⟩ := guard_eq_ok.mp hrest
    exact ⟨hany.mp hoffsets, (pure_eq_ok.mp hm).symm⟩
  · rintro ⟨hoffsets, rfl⟩
    refine ⟨_, (rowMetadata_eq_ok hgeometry).mpr ⟨fun row hrow => ?_, rfl⟩,
      guard_eq_ok.mpr ⟨hany.mpr hoffsets, rfl⟩⟩
    have hle := hoffsets row hrow
    omega

/-! ### Codes -/

theorem field_byte (s : Nat → UInt8) (k : Nat) : field s (8 * k) 8 = (s k).toNat := by
  apply field_eq_of_testBit (UInt8.toNat_lt _)
  intro j hj
  rw [testBit_byte, decide_eq_true hj, Bool.true_and]

variable {row : Nat}

theorem decodeRow_eq (family : Family) (data : List UInt8) (h : Header) (hrow : row < h.outputs) :
    decodeRow data (layoutOf family data h) row
      = (List.range h.width).map fun column =>
        if readQ (selectors data) row = 8 then
          byte data (symbolsAt h.outputs + symbolBytes data h.width row + column)
        else byte data (palettesAt h.outputs + (2 ^ readQ (selectors data) row - 2
          + field (byte data) (8 * (symbolsAt h.outputs + symbolBytes data h.width row)
            + readQ (selectors data) row * column) (readQ (selectors data) row))) := by
  have hq : (layoutOf family data h).rowQBits.getD row 0 = readQ (selectors data) row :=
    Formats.getD_map_range _ _ hrow
  have hoffset : (layoutOf family data h).rowSymbolByteOffsets.getD row 0
      = symbolBytes data h.width row := Formats.getD_map_range _ _ (by omega)
  have hrange := readQ_range (selectors data) row
  unfold decodeRow
  rw [hq, hoffset]
  dsimp only
  by_cases height : readQ (selectors data) row = 8
  · rw [if_pos height]
    simp only [if_pos height]
    rfl
  · have hle := Formats.Fp8Sq.palette_le hrange.1 (show readQ (selectors data) row ≤ 7 by omega)
    have hsize : paletteBytes = 256 := rfl
    rw [if_neg height]
    simp only [if_neg height]
    rw [Formats.unpackBits_eq _ _ _ hrange.2, map_map]
    apply map_congr_left
    intro column _
    have hlt := field_lt (byte data) (8 * (symbolsAt h.outputs + symbolBytes data h.width row)
      + readQ (selectors data) row * column) (readQ (selectors data) row)
    change (Formats.Fp8Sq.paletteSlice (window (byte data) (palettesAt h.outputs) paletteBytes)
      (readQ (selectors data) row)).getD _ 0 = _
    rw [Formats.Fp8Sq.paletteSlice_eq (by rw [length_window]; omega)]
    refine (byte_window hlt).trans ?_
    rw [byte_window (by omega)]

theorem decodeRow_toNat (hrow : row < h.outputs) :
    (decodeRow data (layoutOf family data h) row).map UInt8.toNat
      = (List.range h.width).map (decodeCode data (h.layout data family) (readQ (selectors data) row)
        (symbolBytes data h.width row)) := by
  rw [decodeRow_eq family data h hrow, map_map]
  apply map_congr_left
  intro column _
  have hrange := readQ_range (selectors data) row
  rw [Function.comp_apply, decodeCode_eq _ _ hrange, Nat.mul_comm column]
  by_cases height : readQ (selectors data) row = 8
  · rw [if_pos height, if_pos height, height, ← Nat.mul_add, field_byte]
    rfl
  · rw [if_neg height, if_neg height, Nat.add_assoc]
    rfl

/-- Nothing illegal comes out of a well-formed payload. -/
theorem decodeRow_legal (hwell : WellFormed family data h) (hrow : row < h.outputs) :
    (decodeRow data (layoutOf family data h) row).any nanCode = false := by
  have hrange := readQ_range (selectors data) row
  rw [decodeRow_eq family data h hrow, any_map, List.any_eq_false]
  intro column hcolumn
  rw [mem_range] at hcolumn
  rw [Function.comp_apply]
  by_cases height : readQ (selectors data) row = 8
  · rw [if_pos height, hwell.codes row hrow height column hcolumn]
    exact Bool.false_ne_true
  · rw [if_neg height, hwell.palettes.legal _ hrange.1 (by omega) _ (field_lt _ _ _)]
    exact Bool.false_ne_true

variable {t : Fp8SqTensor}

/-- **What Python decodes** of a well-formed payload. -/
theorem decodeFp8SqCodes_ok (hwell : WellFormed t.dtype t.payload h) :
    decodeFp8SqCodes t
      = .ok ((List.range h.outputs).map (decodeRow t.payload (layoutOf t.dtype t.payload h))) := by
  have hlength : (layoutOf t.dtype t.payload h).rowQBits.length = h.outputs := by simp [layoutOf]
  have hlegal : ¬((List.range h.outputs).map
      (decodeRow t.payload (layoutOf t.dtype t.payload h))).any (fun codes => codes.any nanCode)
        = true := by
    rw [any_map, Bool.not_eq_true, List.any_eq_false]
    intro row hrow
    rw [Function.comp_apply, decodeRow_legal hwell (mem_range.mp hrow)]
    exact Bool.false_ne_true
  unfold decodeFp8SqCodes
  rw [bind_of_ok (Formats.Fp8Sq.parseFp8SqLayout_eq_ok.mpr ⟨h, hwell, rfl⟩), hlength]
  exact if_neg hlegal

theorem unpackFp8Sq_eq_ok :
    unpackFp8Sq family data = .ok t ↔ ∃ h, WellFormed family data h ∧
      t = Formats.Fp8Sq.tensorFromLayout data (layoutOf family data h) := by
  unfold unpackFp8Sq
  rw [bind_eq_ok]
  constructor
  · rintro ⟨layout, hlayout, ht⟩
    obtain ⟨h, hwell, rfl⟩ := Formats.Fp8Sq.parseFp8SqLayout_eq_ok.mp hlayout
    exact ⟨h, hwell, (pure_eq_ok.mp ht).symm⟩
  · rintro ⟨h, hwell, rfl⟩
    exact ⟨_, Formats.Fp8Sq.parseFp8SqLayout_eq_ok.mpr ⟨h, hwell, rfl⟩, rfl⟩

theorem dequantCodes_eq_ok (hwell : WellFormed family data h) {codes : List (List Nat)} :
    dequantCodes family data = .ok codes ↔ h.NoWrap ∧ IntOffsets data h ∧
      codes = ((List.range h.outputs).map (decodeRow data (layoutOf family data h))).map
        (List.map UInt8.toNat) := by
  have hcodes : ((List.range h.outputs).map (decodeRow data (layoutOf family data h))).map
      (List.map UInt8.toNat)
      = (List.range h.outputs).map fun row => (List.range h.width).map fun column =>
        decodeCode data (h.layout data family)
          ((metadataOf data h.width h.outputs).q.getD row 0)
          ((metadataOf data h.width h.outputs).symbolByteOffsets.getD row 0) column := by
    rw [map_map]
    apply map_congr_left
    intro row hrow
    rw [mem_range] at hrow
    rw [Function.comp_apply, decodeRow_toNat hrow, metadataOf, Formats.getD_map_range _ _ hrow,
      Formats.getD_map_range _ _ hrow]
  unfold dequantCodes
  rw [bind_eq_ok, hcodes]
  constructor
  · rintro ⟨layout, hlayout, hrest⟩
    obtain ⟨h', hwell', hwrap, rfl⟩ := parse_eq_ok.mp hlayout
    obtain rfl := hwell'.header.unique hwell.header
    obtain ⟨rows, hrows, hrest⟩ := bind_eq_ok.mp hrest
    obtain ⟨hoffsets, rfl⟩ := (runtimeRows_eq_ok hwell.geometry).mp hrows
    exact ⟨hwrap, hoffsets, (pure_eq_ok.mp hrest).symm⟩
  · rintro ⟨hwrap, hoffsets, rfl⟩
    exact ⟨_, parse_eq_ok.mpr ⟨h, hwell, hwrap, rfl⟩, bind_eq_ok.mpr ⟨_,
      (runtimeRows_eq_ok hwell.geometry).mpr ⟨hoffsets, rfl⟩, rfl⟩⟩

/-! ### The agreement -/

/-- Two layouts of a payload say the same. -/
structure SameLayout (data : List UInt8) (l : Layout) (p : Fp8SqLayout) : Prop where
  dtype : p.dtype = l.family
  version : p.version = l.version
  shape : p.shape = (l.outputs, l.width)
  scaleDtype : p.scaleDtype = l.scaleKind
  scaleShape : p.scaleShape = (l.scaleRows, l.scaleColumns)
  blockShape : p.blockShape = (l.blockRows, l.blockColumns)
  rowQBits : p.rowQBits
    = (List.range l.outputs).map (readQ fun k => byte data (l.qSelectors + k))
  rowOffsets : p.rowSymbolByteOffsets.take l.outputs
    = (List.range l.outputs).map (symbolOffset data l)
  rows : ∀ m, rowMetadata data l = .ok m →
    p.rowQBits = m.q ∧ p.rowSymbolByteOffsets.take l.outputs = m.symbolByteOffsets
  rowQOffset : p.rowQOffset = l.qSelectors
  palettes : p.palettesOffset = l.palettes
  symbols : p.symbolsOffset = l.symbols
  scales : p.scalesOffset = l.scales
  bytes : p.payloadNbytes = l.bytes

/-- The scale of an element among the scales that Python hands out, in the grid of `scale_shape`. -/
def gridCell (t : Fp8SqTensor) (scaleBytes : List UInt8) (row column : Nat) : List UInt8 :=
  window (byte scaleBytes)
    ((row / t.blockShape.1 * t.scaleShape.2 + column / t.blockShape.2) * scaleItemsize t.scaleDtype)
    (scaleItemsize t.scaleDtype)

/-- A byte string has one meaning. -/
structure OneMeaning (family : Family) (data : List UInt8) : Prop where
  accepted : (∃ p, parseFp8SqLayout family data = .ok p) ↔ ∃ l, parse family data = .ok l
  layout : ∀ p l, parseFp8SqLayout family data = .ok p → parse family data = .ok l →
    SameLayout data l p
  codes : ∀ t, unpackFp8Sq family data = .ok t → ∃ codes, decodeFp8SqCodes t = .ok codes ∧
    dequantCodes family data = .ok (codes.map (List.map UInt8.toNat))
  scales : ∀ t l, unpackFp8Sq family data = .ok t → parse family data = .ok l →
    ∃ scaleBytes, fp8SqScaleBytes t = .ok scaleBytes ∧ ∀ row < l.outputs, ∀ column < l.width,
      scaleCell data l row column = gridCell t scaleBytes row column

/-- The numbers of C++ are wide enough: rounding up to whole blocks does not overflow, and the offset
    of each row is an `int32_t`. -/
def WideEnough (family : Family) (data : List UInt8) : Prop :=
  ∀ h, WellFormed family data h → h.NoWrap ∧ IntOffsets data h

theorem sameLayout (hwell : WellFormed family data h) :
    SameLayout data (h.layout data family) (layoutOf family data h) := by
  have htake : ((List.range (h.outputs + 1)).map (symbolBytes data h.width)).take h.outputs
      = (List.range h.outputs).map (symbolBytes data h.width) := by
    rw [← map_take, take_range, Nat.min_eq_left (Nat.le_succ _)]
  refine
    { dtype := rfl
      version := rfl
      shape := rfl
      scaleDtype := rfl
      scaleShape := rfl
      blockShape := rfl
      rowQBits := rfl
      rowOffsets := htake
      rows := fun m hm => ?_
      rowQOffset := rfl
      palettes := rfl
      symbols := rfl
      scales := rfl
      bytes := rfl }
  obtain ⟨-, rfl⟩ := (rowMetadata_eq_ok hwell.geometry).mp hm
  exact ⟨rfl, htake⟩

theorem fp8SqScaleBytes_ok (hwell : WellFormed t.dtype t.payload h) :
    fp8SqScaleBytes t = .ok (t.payload.drop (scalesAt t.payload h)) := by
  unfold fp8SqScaleBytes
  exact bind_of_ok (Formats.Fp8Sq.parseFp8SqLayout_eq_ok.mpr ⟨h, hwell, rfl⟩) _

/-- The two readers agree on a byte string exactly when the numbers of C++ are wide enough for it. -/
theorem oneMeaning_iff (family : Family) (data : List UInt8) :
    OneMeaning family data ↔ WideEnough family data := by
  constructor
  · intro hone h hwell
    obtain ⟨codes, -, hcodes⟩ := hone.codes _ (unpackFp8Sq_eq_ok.mpr ⟨h, hwell, rfl⟩)
    obtain ⟨hwrap, hoffsets, -⟩ := (dequantCodes_eq_ok hwell).mp hcodes
    exact ⟨hwrap, hoffsets⟩
  · intro hwide
    refine ⟨⟨?_, ?_⟩, fun p l hp hl => ?_, fun t ht => ?_, fun t l ht hl => ?_⟩
    · rintro ⟨p, hp⟩
      obtain ⟨h, hwell, -⟩ := Formats.Fp8Sq.parseFp8SqLayout_eq_ok.mp hp
      exact ⟨_, parse_eq_ok.mpr ⟨h, hwell, (hwide h hwell).1, rfl⟩⟩
    · rintro ⟨l, hl⟩
      obtain ⟨h, hwell, -, -⟩ := parse_eq_ok.mp hl
      exact ⟨_, Formats.Fp8Sq.parseFp8SqLayout_eq_ok.mpr ⟨h, hwell, rfl⟩⟩
    · obtain ⟨h, hwell, rfl⟩ := Formats.Fp8Sq.parseFp8SqLayout_eq_ok.mp hp
      obtain ⟨h', hwell', -, rfl⟩ := parse_eq_ok.mp hl
      obtain rfl := hwell'.header.unique hwell.header
      exact sameLayout hwell
    · obtain ⟨h, hwell, rfl⟩ := unpackFp8Sq_eq_ok.mp ht
      obtain ⟨hwrap, hoffsets⟩ := hwide h hwell
      exact ⟨_, decodeFp8SqCodes_ok hwell, (dequantCodes_eq_ok hwell).mpr ⟨hwrap, hoffsets, rfl⟩⟩
    · obtain ⟨h, hwell, rfl⟩ := unpackFp8Sq_eq_ok.mp ht
      obtain ⟨h', hwell', -, rfl⟩ := parse_eq_ok.mp hl
      obtain rfl := hwell'.header.unique hwell.header
      refine ⟨_, fp8SqScaleBytes_ok hwell, fun row _ column _ => window_congr fun k _ => ?_⟩
      change byte data (scalesAt data h' + _ + k) = byte (data.drop (scalesAt data h')) (_ + k)
      rw [byte_drop, Nat.add_assoc]
      rfl

/-! ### What is built -/

/-- The parts of the payload of a tensor to be built. -/
def parts (b : BuildInput) : Formats.Fp8Sq.Parts where
  dtype := b.dtype
  header :=
    { scaleKind := b.scaleDtype
      blockRows := b.blockShape.1.toNat
      blockColumns := b.blockShape.2.toNat
      outputs := b.rowQBits.length
      width := b.inputSize.toNat
      scaleRows := b.scaleShape.1.toNat
      scaleColumns := b.scaleShape.2.toNat }
  q := b.rowQBits.map Int.toNat
  palettes := b.palettes.map Formats.uint8
  streams := b.rowSymbols
  scales := b.scaleBytes

theorem packInt_eq_ok {size : Nat} {value : Int} {bytes : List UInt8} :
    Formats.Fp8Sq.packInt size value = .ok bytes ↔
      value.toNat < 256 ^ size ∧ 0 ≤ value ∧ bytes = littleEndian size value.toNat := by
  unfold Formats.Fp8Sq.packInt
  rw [guard_eq_ok, Except.ok.injEq]
  constructor
  · rintro ⟨hrange, rfl⟩
    exact ⟨by omega, by omega, rfl⟩
  · rintro ⟨hlt, hnonneg, rfl⟩
    exact ⟨by omega, rfl⟩

variable {b : BuildInput}

theorem packHeader_ok {header : List UInt8} (h : Formats.Fp8Sq.packHeader b = .ok header) :
    header = (parts b).fields.flatten ∧
      ((parts b).header.blockRows < 2 ^ 16 ∧ (parts b).header.blockColumns < 2 ^ 16) ∧
      ((parts b).header.outputs < 2 ^ 64 ∧ (parts b).header.width < 2 ^ 64) ∧
      (parts b).header.scaleRows < 2 ^ 64 ∧ (parts b).header.scaleColumns < 2 ^ 64 := by
  obtain ⟨blockRows, hblockRows, h⟩ := bind_eq_ok.mp h
  obtain ⟨blockColumns, hblockColumns, h⟩ := bind_eq_ok.mp h
  obtain ⟨rows, hrows, h⟩ := bind_eq_ok.mp h
  obtain ⟨columns, hcolumns, h⟩ := bind_eq_ok.mp h
  obtain ⟨scaleRows, hscaleRows, h⟩ := bind_eq_ok.mp h
  obtain ⟨scaleColumns, hscaleColumns, h⟩ := bind_eq_ok.mp h
  obtain ⟨hblockRows', -, rfl⟩ := packInt_eq_ok.mp hblockRows
  obtain ⟨hblockColumns', -, rfl⟩ := packInt_eq_ok.mp hblockColumns
  obtain ⟨hrows', -, rfl⟩ := packInt_eq_ok.mp hrows
  obtain ⟨hcolumns', -, rfl⟩ := packInt_eq_ok.mp hcolumns
  obtain ⟨hscaleRows', -, rfl⟩ := packInt_eq_ok.mp hscaleRows
  obtain ⟨hscaleColumns', -, rfl⟩ := packInt_eq_ok.mp hscaleColumns
  refine ⟨?_, ⟨hblockRows', hblockColumns'⟩, ⟨hrows', hcolumns'⟩, hscaleRows', hscaleColumns'⟩
  rw [← pure_eq_ok.mp h]
  simp [Formats.Fp8Sq.Parts.fields, parts]

/-- **What the builder checks and returns.** -/
theorem buildFp8Sq_ok (h : buildFp8Sq b = .ok t) :
    (parts b).Fits ∧ unpackFp8Sq b.dtype (parts b).payload = .ok t := by
  obtain ⟨layout, hlayout, h⟩ := bind_eq_ok.mp h
  obtain ⟨hq, hrest⟩ := guard_eq_ok.mp hlayout
  obtain ⟨u, hpalettes, h⟩ := bind_eq_ok.mp h
  obtain ⟨hpaletteLength, -⟩ := guard_eq_ok.mp hpalettes
  obtain ⟨hstreams, h⟩ := guard_eq_ok.mp h
  obtain ⟨u', hsymbols, h⟩ := bind_eq_ok.mp h
  obtain ⟨hscales, h⟩ := guard_eq_ok.mp h
  obtain ⟨-, h⟩ := guard_eq_ok.mp h
  obtain ⟨header, hheader, h⟩ := bind_eq_ok.mp h
  obtain ⟨selectors, hselectors, h⟩ := bind_eq_ok.mp h
  obtain ⟨-, h⟩ := guard_eq_ok.mp h
  obtain ⟨rfl, hblocks, hdimensions, hscaleShape⟩ := packHeader_ok hheader
  obtain ⟨-, hselectors⟩ := guard_eq_ok.mp hselectors
  obtain rfl := Except.ok.inj hselectors
  have hrange : ∀ q ∈ b.rowQBits, 1 ≤ q ∧ q ≤ 8 := by
    simpa using (not_or.mp hq).2
  have hvalue {row : Nat} (hrow : row < b.rowQBits.length) :
      (b.rowQBits.map Int.toNat).getD row 0 = (b.rowQBits.getD row 0).toNat ∧
        b.rowQBits.getD row 0 ∈ b.rowQBits := by
    rw [getD_eq_getElem _ _ (by simpa using hrow), getElem_map,
      getD_eq_getElem _ _ hrow]
    exact ⟨rfl, getElem_mem hrow⟩
  have hfits : (parts b).Fits :=
    { blocks := hblocks
      dimensions := hdimensions
      scaleShape := hscaleShape
      q := by simp [parts]
      range := fun row hrow => by
        have hmem := hrange _ (hvalue hrow).2
        have hq : (parts b).q.getD row 0 = (b.rowQBits.getD row 0).toNat := (hvalue hrow).1
        rw [hq]
        omega
      palettes := not_not.mp hpaletteLength
      streams := not_not.mp hstreams
      symbols := fun row hrow => by
        obtain ⟨hstream, -⟩ := guard_eq_ok.mp (forM_eq_ok.mp hsymbols row (mem_range.mpr hrow))
        change _ = packedNbytes b.inputSize.toNat ((b.rowQBits.map Int.toNat).getD row 0)
        rw [(hvalue hrow).1]
        exact not_not.mp hstream
      scales := not_not.mp hscales }
  have hselectors : b.rowQBits.map (fun q => (Formats.uint8 q - 1).toNat)
      = (b.rowQBits.map Int.toNat).map (· - 1) := by
    rw [map_map]
    apply map_congr_left
    intro q hq
    have hsmall : ∀ n < 9, 1 ≤ n → (UInt8.ofNat n - 1).toNat = n - 1 := by decide
    have hmem := hrange q hq
    have hmod : (q % 256).toNat = q.toNat := by omega
    rw [Formats.uint8, hmod]
    exact hsmall q.toNat (by omega) (by omega)
  refine ⟨hfits, ?_⟩
  rw [← h, hselectors]
  congr 1
  simp [Formats.Fp8Sq.Parts.payload, Formats.Fp8Sq.Parts.front, Formats.Fp8Sq.selectorPart, parts]

/-- The code that a symbol of a row stands for. -/
def storedCode (b : BuildInput) (row column : Nat) : UInt8 :=
  let q := (b.rowQBits.getD row 0).toNat
  let stream := byte (b.rowSymbols.getD row [])
  if q = 8 then stream column
  else byte (b.palettes.map Formats.uint8) (2 ^ q - 2 + field stream (q * column) q)

/-- **A built tensor is decoded** to the palette entries of its symbols. -/
theorem build_decodes (h : buildFp8Sq b = .ok t) :
    decodeFp8SqCodes t = .ok ((List.range b.rowQBits.length).map fun row =>
      (List.range b.inputSize.toNat).map (storedCode b row)) := by
  obtain ⟨hfits, hunpack⟩ := buildFp8Sq_ok h
  obtain ⟨header, hwell, rfl⟩ := unpackFp8Sq_eq_ok.mp hunpack
  obtain rfl := hwell.header.unique (Formats.Fp8Sq.Parts.headerIs_payload hfits)
  refine (decodeFp8SqCodes_ok hwell).trans (congrArg Except.ok ?_)
  apply map_congr_left
  intro row hrow
  have hrow : row < (parts b).header.outputs := mem_range.mp hrow
  have hrange := hfits.range row hrow
  have hq : (parts b).q.getD row 0 = (b.rowQBits.getD row 0).toNat := by
    have hlt : row < b.rowQBits.length := hrow
    change (b.rowQBits.map Int.toNat).getD row 0 = _
    rw [getD_eq_getElem _ _ (by simpa using hlt), getElem_map,
      getD_eq_getElem _ _ hlt]
  have hlength := hfits.symbols row hrow
  refine (decodeRow_eq b.dtype (parts b).payload (parts b).header hrow).trans ?_
  rw [Formats.Fp8Sq.Parts.readQ_payload hfits hrow]
  apply map_congr_left
  intro column hcolumn
  have hcolumn : column < (parts b).header.width := mem_range.mp hcolumn
  unfold storedCode
  dsimp only
  rw [← hq]
  by_cases height : (parts b).q.getD row 0 = 8
  · rw [if_pos height, if_pos height]
    rw [height, Formats.packedNbytes] at hlength
    exact Formats.Fp8Sq.Parts.byte_symbols hfits hrow (by omega)
  · have hfield : field (byte (parts b).payload) (8 * (symbolsAt (parts b).header.outputs
        + symbolBytes (parts b).payload (parts b).header.width row)
          + (parts b).q.getD row 0 * column) ((parts b).q.getD row 0)
        = field (byte (b.rowSymbols.getD row [])) ((parts b).q.getD row 0 * column)
          ((parts b).q.getD row 0) := by
      rw [← field_add]
      refine field_congr fun k _ hk => Formats.Fp8Sq.Parts.byte_symbols hfits hrow ?_
      have hmul : (parts b).q.getD row 0 * (column + 1)
          ≤ (parts b).q.getD row 0 * (parts b).header.width := Nat.mul_le_mul_left _ hcolumn
      rw [Nat.mul_succ] at hmul
      rw [hlength, Formats.packedNbytes, Nat.mul_comm (parts b).header.width]
      omega
    have hle := Formats.Fp8Sq.palette_le hrange.1 (show (parts b).q.getD row 0 ≤ 7 by omega)
    have hsymbol := field_lt (byte (b.rowSymbols.getD row [])) ((parts b).q.getD row 0 * column)
      ((parts b).q.getD row 0)
    rw [if_neg height, if_neg height, hfield]
    refine Formats.Fp8Sq.Parts.byte_palettes hfits ?_
    change _ < 256
    omega

/-- **One meaning for each payload**, exactly when the numbers of C++ are wide enough; and what is
    built is decoded to the palette entries of its symbols. -/
theorem fp8_sq_one_meaning_iff (family data b t) :
    (OneMeaning family data ↔ WideEnough family data) ∧
    (buildFp8Sq b = .ok t →
      decodeFp8SqCodes t = .ok ((List.range b.rowQBits.length).map fun row =>
        (List.range b.inputSize.toNat).map (storedCode b row))) :=
  ⟨oneMeaning_iff family data, build_decodes⟩

/-- A row of width 1 and a row of codes. -/
def sampleBuild : BuildInput where
  dtype := .fp8Block128
  rowQBits := [1, 8]
  inputSize := 3
  blockShape := (128, 128)
  scaleDtype := .bf16
  scaleShape := (1, 1)
  palettes := samplePalettes.map fun code => (code.toNat : Int)
  rowSymbols := [[5], [1, 2, 3]]
  scaleBytes := [0x80, 0x3f]

theorem fp8_sq_one_meaning_iff_sample :
    ∃ t, buildFp8Sq sampleBuild = .ok t ∧ decodeFp8SqCodes t = .ok [[1, 0, 1], [1, 2, 3]] := by
  have hok : (buildFp8Sq sampleBuild).isOk = true := by decide +kernel
  cases hbuild : buildFp8Sq sampleBuild with
  | error e =>
    rw [hbuild] at hok
    cases hok
  | ok t =>
    refine ⟨t, rfl, ((fp8_sq_one_meaning_iff .fp8Block128 [] _ _).2 hbuild).trans ?_⟩
    decide +kernel

/-- The widest matrix: Python accepts it, and in C++ the rounding overflows. -/
theorem widest_matrix_refused :
    (∃ p, parseFp8SqLayout .fp8Block128 (sampleParts 2147483647).payload = .ok p) ∧
      ¬∃ l, parse .fp8Block128 (sampleParts 2147483647).payload = .ok l := by
  have hwell := wellFormed_sample (show 0 < 2147483647 by decide) (by decide)
  refine ⟨⟨_, Formats.Fp8Sq.parseFp8SqLayout_eq_ok.mpr ⟨_, hwell, rfl⟩⟩, ?_⟩
  rintro ⟨l, hl⟩
  obtain ⟨h, hwell', hwrap, -⟩ := parse_eq_ok.mp hl
  obtain rfl := hwell'.header.unique hwell.header
  exact absurd hwrap.2 (by decide)

end TyloQuant.Fp8Sq
