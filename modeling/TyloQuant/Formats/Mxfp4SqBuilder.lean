import TyloQuant.Formats.Mxfp4Sq
import TyloQuant.Mxfp4Sq.Layouts

/-!
# What the MXFP4-SQ builder makes

The builder accepts exactly the inputs of the right shapes with numbers below the bounds; then the rows
of its tensor have the numbers of the input when none is negative.
-/

namespace TyloQuant.Formats.Mxfp4Sq

open Lib Bytes ByteFile Bits List
open TyloQuant.Mxfp4Sq (sqCount nativeCount sqCount_succ nativeCount_succ sqCount_mono
  nativeCount_mono sqCount_add_nativeCount symbol_bytes sum_symbol_bytes)

/-! ### The places of the rows -/

variable {n : Nat}

section Places

variable (inputSize : Nat) (layout : Layout)

/-- The width of a row. -/
def Layout.q (row : Nat) : Nat := layout.rowQBits.getD row 0

/-- The place of a row, by counting the rows before it. -/
def Layout.place (row : Nat) : Place where
  symbolOffset := layout.symbolsOffset +
    ((layout.rowQBits.take row).map fun q => inputSize * q / 8).sum
  sqRow := sqCount layout.q row
  nativeRow := nativeCount layout.q row

theorem recordSteps (payload : List UInt8) (hn : n ≤ layout.rowQBits.length) :
    (layout.rowQBits.take n).foldl (recordStep payload layout inputSize)
        ([], ⟨layout.symbolsOffset, 0, 0⟩)
      = ((List.range n).map fun row =>
          recordFrom payload layout inputSize (layout.place inputSize row) (layout.q row),
        layout.place inputSize n) := by
  induction n with
  | zero => rfl
  | succ n ih =>
    have hlt : n < layout.rowQBits.length := hn
    have hq : layout.rowQBits[n] = layout.q n := (getD_eq_getElem _ _ hlt).symm
    have hplace : (layout.place inputSize n).next inputSize (layout.q n)
        = layout.place inputSize (n + 1) := by
      unfold Place.next Layout.place
      rw [take_add_one, getElem?_eq_getElem hlt, hq, sqCount_succ, nativeCount_succ]
      by_cases hfour : layout.q n = 4
      · simp [hfour, Nat.add_assoc]
      · simp [hfour, Nat.add_assoc]
    rw [take_add_one, getElem?_eq_getElem hlt, Option.toList_some, foldl_append,
      ih (by omega), foldl_cons, foldl_nil, hq, recordStep, hplace, range_succ,
      map_append, map_singleton]

/-- **The rows of a source**, each at its place. -/
theorem recordsOf_eq (payload : List UInt8) :
    recordsOf payload layout inputSize = (List.range layout.rowQBits.length).map fun row =>
      recordFrom payload layout inputSize (layout.place inputSize row) (layout.q row) := by
  have hsteps := recordSteps inputSize layout payload le_rfl
  rw [take_length] at hsteps
  rw [recordsOf, hsteps]

end Places

/-! ### Arrays -/

@[simp] theorem length_packArray (a : IntArray) (bits : Nat) :
    (packArray a bits).length = packedNbytes (a.rows * a.columns) bits := by
  simp [packArray]

variable {a : IntArray} {bits : Nat}

theorem field_packArray (hbits : bits ≤ 8) (hfits : a.Fits bits) {i j : Nat} (hi : i < a.rows)
    (hj : j < a.columns) :
    (field (byte (packArray a bits)) (bits * (i * a.columns + j)) bits : Int) = a.entry i j := by
  have hmul : (i + 1) * a.columns ≤ a.rows * a.columns := Nat.mul_le_mul_right _ hi
  rw [Nat.succ_mul] at hmul
  have hpow : 2 ^ bits ≤ 2 ^ 8 := Nat.pow_le_pow_right (by omega) hbits
  have hget {k : Nat} (hk : k < a.flat.length) :
      (((a.flat.map fun value => (uint8 value).toNat).getD k 0 : Nat) : Int) = a.flat.getD k 0 ∧
        (a.flat.map fun value => (uint8 value).toNat).getD k 0 < 2 ^ bits := by
    have hv := hfits _ (getElem_mem hk)
    have hcast := toNat_uint8 hv.1 (by omega)
    rw [getD_eq_getElem _ _ (by simpa using hk), getElem_map, getD_eq_getElem _ _ hk]
    exact ⟨hcast, by omega⟩
  have hk : i * a.columns + j < a.flat.length := by
    rw [IntArray.length_flat]
    omega
  have hfield := field_packBits hbits (fun k hk => (hget (by simpa using hk)).2) (by simpa using hk)
  rw [packArray, hfield, (hget hk).1, IntArray.getD_flat hi hj]

variable {row : Nat} {columns offset rows : Nat}

theorem unpackedRow_nonneg {payload : List UInt8} {v : Int}
    (hv : v ∈ unpackedRow payload offset rows columns bits row) : 0 ≤ v := by
  obtain ⟨column, -, rfl⟩ := mem_map.mp hv
  exact Int.natCast_nonneg _

theorem unpackedRow_eq {before : List (List UInt8)} {after : List (List UInt8)} (hbits : bits ≤ 8)
    (hfits : a.Fits bits) (hrow : row < a.rows) :
    unpackedRow (before ++ packArray a bits :: after).flatten before.flatten.length a.rows
      a.columns bits
      row = a.row row := by
  have hmul : (row + 1) * a.columns ≤ a.rows * a.columns := Nat.mul_le_mul_right _ hrow
  rw [Nat.succ_mul] at hmul
  unfold unpackedRow IntArray.row
  apply map_congr_left
  intro column hcolumn
  rw [mem_range] at hcolumn
  have hbound : bits * (row * a.columns + column + 1) ≤ bits * (a.rows * a.columns) :=
    Nat.mul_le_mul_left _ (by omega)
  rw [Nat.mul_succ] at hbound
  have hlength : bits * (row * a.columns + column) + bits ≤ 8 * (packArray a bits).length := by
    rw [length_packArray, packedNbytes, Nat.mul_comm (a.rows * a.columns)]
    omega
  rw [getD_unpackBits _ _ hbits (by omega), field_flatten _ _ _ hlength,
    field_packArray hbits hfits hrow hcolumn]

/-! ### The payload -/

namespace BuildInput

variable (b : BuildInput)

def outputs : Nat := b.rowQBits.length

def width : Nat := b.inputSize.toNat

def blocks : Nat := b.width / 32

/-- The width of a row. -/
def q (row : Nat) : Nat := (b.rowQBits.getD row 0).toNat

def layout : Layout := adaptiveOf b.outputs b.width b.matrixScaleBase (b.rowQBits.map Int.toNat)

def selectors : List UInt8 := packBits (b.rowQBits.map fun q => (uint8 q - 1).toNat) 2

/-- The selectors of the widths, and zeros up to the next four bytes. -/
def selectorPart : List UInt8 :=
  b.selectors ++ List.replicate (alignedQSelectorNbytes b.outputs - b.selectors.length) 0

def fields : List (List UInt8) :=
  [currentMagic, [2], littleEndian 1 b.matrixScaleBase.toNat, [0, 0], littleEndian 8 b.outputs,
    littleEndian 8 b.width]

/-- The arrays behind the symbols. -/
def sides : List (List UInt8) :=
  [packArray b.sqBlockSelectors 1, packArray b.sqStateScales 2, packArray b.sqStatePalettes 5,
    b.sq4NativeScales.flat.map uint8]

def payload : List UInt8 := (b.fields ++ [b.selectorPart] ++ b.rowSymbols ++ b.sides).flatten

def tensor : Mxfp4SqTensor where
  payload := b.payload
  bits := 0
  outputSize := b.outputs
  inputSize := b.width
  matrixScaleBase := b.matrixScaleBase
  rowQBits := b.rowQBits.map Int.toNat
  formatVersion := 2

/-- The arrays have the shapes that the widths ask for. -/
structure Shaped : Prop where
  rows : 0 < b.outputs
  inputSize : 0 < b.inputSize ∧ b.inputSize % 32 = 0
  widths : ∀ q ∈ b.rowQBits, 1 ≤ q ∧ q ≤ 4
  rowSymbols : b.rowSymbols.length = b.outputs
  streams : ∀ row < b.outputs, (b.rowSymbols.getD row []).length = b.width * b.q row / 8
  selectors : b.sqBlockSelectors.shape = (b.layout.sqRows, b.blocks)
  stateScales : b.sqStateScales.shape = (b.layout.sqRows, 8)
  statePalettes : b.sqStatePalettes.shape = (b.layout.sqRows, 8)
  nativeScales : b.sq4NativeScales.shape = (b.layout.sq4Rows, b.blocks)

/-- What the builder and the parser after it look at. -/
structure Accepted : Prop where
  shaped : b.Shaped
  dimensions : b.outputs ≤ 0x7fffffff ∧ b.inputSize ≤ 0x7fffffff
  base : 0 ≤ b.matrixScaleBase ∧ b.matrixScaleBase ≤ 251
  binary : ∀ v ∈ b.sqBlockSelectors.flat, 0 ≤ v ∧ v ≤ 1
  stateScales_le : ∀ v ∈ b.sqStateScales.flat, v ≤ 3
  statePalettes_le : ∀ v ∈ b.sqStatePalettes.flat, v ≤ 31
  nativeScales_le : ∀ v ∈ b.sq4NativeScales.flat, v ≤ 254
  native : 255 ∉ b.sq4NativeScales.flat.map uint8

/-- The three arrays whose numbers have no lower bound in the builder. -/
def NonNegative : Prop :=
  (∀ v ∈ b.sqStateScales.flat, 0 ≤ v) ∧ (∀ v ∈ b.sqStatePalettes.flat, 0 ≤ v) ∧
    ∀ v ∈ b.sq4NativeScales.flat, 0 ≤ v

variable {b}

theorem q_range (h : b.Shaped) (hrow : row < b.outputs) : 1 ≤ b.q row ∧ b.q row ≤ 4 := by
  have hmem : b.rowQBits.getD row 0 ∈ b.rowQBits := by
    rw [getD_eq_getElem _ _ hrow]
    exact getElem_mem _
  have hrange := h.widths _ hmem
  unfold q
  omega

theorem getD_widths (hrow : row < b.outputs) : (b.rowQBits.map Int.toNat).getD row 0 = b.q row := by
  have hlt : row < b.rowQBits.length := hrow
  rw [getD_eq_getElem _ _ (by simpa using hlt), getElem_map, q,
    getD_eq_getElem _ _ hlt]

theorem layout_q (row : Nat) : b.layout.q row = b.q row := by
  by_cases hrow : row < b.outputs
  · exact getD_widths hrow
  · unfold Layout.q q
    have hle : b.rowQBits.length ≤ row := Nat.le_of_not_lt hrow
    rw [getD_eq_default _ _ (by simpa [layout, adaptiveOf] using hle),
      getD_eq_default _ _ hle]
    rfl

theorem selectors_eq (h : b.Shaped) :
    b.rowQBits.map (fun q => (uint8 q - 1).toNat) = b.rowQBits.map fun q => q.toNat - 1 := by
  apply map_congr_left
  intro q hq
  have hsmall : ∀ n < 5, 1 ≤ n → (UInt8.ofNat n - 1).toNat = n - 1 := by decide
  have hrange := h.widths q hq
  have hmod : (q % 256).toNat = q.toNat := by omega
  rw [uint8, hmod]
  exact hsmall q.toNat (by omega) (by omega)

theorem length_selectorPart : b.selectorPart.length = alignedQSelectorNbytes b.outputs := by
  have hle : b.selectors.length ≤ alignedQSelectorNbytes b.outputs := by
    rw [selectors, length_packBits, length_map]
    change packedNbytes b.outputs 2 ≤ (packedNbytes b.outputs 2 + 3) / 4 * 4
    omega
  rw [selectorPart, length_append, length_replicate, Nat.add_sub_cancel' hle]

theorem bit_selectorPart (h : b.Shaped) (i : Nat) :
    bit (byte b.selectorPart) i
      = (decide (i < 2 * b.outputs) && (b.q (i / 2) - 1).testBit (i % 2)) := by
  have hvalue {row : Nat} (hrow : row < b.outputs) :
      (b.rowQBits.map fun q => q.toNat - 1).getD row 0 = b.q row - 1 := by
    have hlt : row < b.rowQBits.length := hrow
    rw [getD_eq_getElem _ _ (by simpa using hlt), getElem_map, q,
      getD_eq_getElem _ _ hlt]
  have hvalues : ∀ row < (b.rowQBits.map fun q => q.toNat - 1).length,
      (b.rowQBits.map fun q => q.toNat - 1).getD row 0 < 2 ^ 2 := by
    intro row hrow
    rw [length_map] at hrow
    have hrange := q_range h hrow
    rw [hvalue hrow]
    omega
  rw [selectorPart, selectors, selectors_eq h, bit_padded (by decide) hvalues, length_map]
  change (decide (i < 2 * b.outputs) && _) = _
  by_cases hi : i < 2 * b.outputs
  · rw [hvalue (by omega)]
  · simp [hi]

theorem length_fields : b.fields.flatten.length = headerSize := by
  simp [fields, currentMagic, headerSize]

/-! ### Where its parts are -/

variable {k : Nat}

theorem byte_field (before : List (List UInt8)) (part : List UInt8) (after : List (List UInt8))
    (h : b.fields = before ++ part :: after) (hk : k < part.length) :
    byte b.payload (before.flatten.length + k) = byte part k := by
  have hparts : b.fields ++ [b.selectorPart] ++ b.rowSymbols ++ b.sides
      = before ++ part :: (after ++ [b.selectorPart] ++ b.rowSymbols ++ b.sides) := by
    rw [h]
    simp
  rw [payload, hparts, byte_flatten _ _ _ hk]

theorem byte_selectorPart (hk : k < alignedQSelectorNbytes b.outputs) :
    byte b.payload (headerSize + k) = byte b.selectorPart k := by
  have hparts : b.fields ++ [b.selectorPart] ++ b.rowSymbols ++ b.sides
      = b.fields ++ b.selectorPart :: (b.rowSymbols ++ b.sides) := by simp
  rw [payload, hparts, ← length_fields, byte_flatten _ _ _ (by rw [length_selectorPart]; exact hk)]

theorem length_front : (b.fields ++ [b.selectorPart]).flatten.length = b.layout.symbolsOffset := by
  rw [flatten_append, length_append, length_fields, flatten_singleton,
    length_selectorPart]
  rfl

theorem length_take_streams (h : b.Shaped) (hn : n ≤ b.outputs) :
    (b.rowSymbols.take n).flatten.length
      = (((b.rowQBits.map Int.toNat).take n).map fun q => b.width * q / 8).sum := by
  induction n with
  | zero => rfl
  | succ n ih =>
    have hlt : n < b.rowSymbols.length := by
      rw [h.rowSymbols]
      exact hn
    have hlt' : n < (b.rowQBits.map Int.toNat).length := by
      rw [length_map]
      exact hn
    rw [take_add_one, take_add_one, getElem?_eq_getElem hlt,
      getElem?_eq_getElem hlt', Option.toList_some, Option.toList_some, flatten_append,
      length_append, flatten_singleton, map_append, sum_append, ih (by omega),
      ← getD_eq_getElem _ [] hlt, h.streams n hn, ← getD_eq_getElem _ 0 hlt',
      getD_widths hn]
    simp

theorem length_streams (h : b.Shaped) :
    b.rowSymbols.flatten.length = (b.rowQBits.map Int.toNat).sum * b.width / 8 := by
  have hwidth : b.width % 32 = 0 := by
    have hsize := h.inputSize
    unfold width
    omega
  have htake : b.rowSymbols.take b.outputs = b.rowSymbols := by
    rw [← h.rowSymbols]
    exact take_length
  have htake' : (b.rowQBits.map Int.toNat).take b.outputs = b.rowQBits.map Int.toNat := by
    rw [take_of_length_le]
    rw [length_map]
    exact le_rfl
  have hsum := length_take_streams h (le_refl b.outputs)
  rw [htake, htake'] at hsum
  rw [hsum, sum_symbol_bytes hwidth]

theorem symbols_payload (h : b.Shaped) (hrow : row < b.outputs) :
    (b.payload.drop (b.layout.place b.width row).symbolOffset).take (b.width * b.q row / 8)
      = b.rowSymbols.getD row [] := by
  have hlt : row < b.rowSymbols.length := by
    rw [h.rowSymbols]
    exact hrow
  have hparts : b.fields ++ [b.selectorPart] ++ b.rowSymbols ++ b.sides
      = (b.fields ++ [b.selectorPart] ++ b.rowSymbols.take row)
        ++ b.rowSymbols.getD row [] :: (b.rowSymbols.drop (row + 1) ++ b.sides) := by
    rw [getD_eq_getElem _ _ hlt, List.append_assoc _ (b.rowSymbols.take row),
      ← cons_append, ← List.append_assoc (b.rowSymbols.take row), ← drop_eq_getElem_cons hlt,
      take_append_drop]
    simp
  have hlength : (b.fields ++ [b.selectorPart] ++ b.rowSymbols.take row).flatten.length
      = (b.layout.place b.width row).symbolOffset := by
    rw [flatten_append, length_append, length_front, length_take_streams h hrow.le]
    rfl
  rw [payload, hparts, flatten_append, ← hlength, drop_left, flatten_cons,
    ← h.streams row hrow, take_left]

theorem sides_at (h : b.Shaped) :
    (b.fields ++ [b.selectorPart] ++ b.rowSymbols).flatten.length = b.layout.selectorsOffset := by
  rw [flatten_append, length_append, length_front, length_streams h]
  rfl

theorem side_lengths (h : b.Shaped) :
    (packArray b.sqBlockSelectors 1).length = packedNbytes (b.layout.sqRows * b.blocks) 1 ∧
    (packArray b.sqStateScales 2).length = b.layout.sqRows * 2 ∧
    (packArray b.sqStatePalettes 5).length = b.layout.sqRows * 5 ∧
    (b.sq4NativeScales.flat.map uint8).length = b.layout.sq4Rows * b.blocks := by
  obtain ⟨hselectorRows, hselectorColumns⟩ := Prod.mk.inj h.selectors
  obtain ⟨hscaleRows, hscaleColumns⟩ := Prod.mk.inj h.stateScales
  obtain ⟨hpaletteRows, hpaletteColumns⟩ := Prod.mk.inj h.statePalettes
  obtain ⟨hnativeRows, hnativeColumns⟩ := Prod.mk.inj h.nativeScales
  rw [length_packArray, length_packArray, length_packArray, length_map, IntArray.length_flat,
    hselectorRows, hselectorColumns, hscaleRows, hscaleColumns, hpaletteRows, hpaletteColumns,
    hnativeRows, hnativeColumns]
  unfold packedNbytes
  exact ⟨rfl, by omega, by omega, rfl⟩

/-- A part starts at an offset of the payload. -/
def PartAt (b : BuildInput) (offset : Nat) (part : List UInt8) : Prop :=
  ∃ before after : List (List UInt8), b.payload = (before ++ part :: after).flatten ∧
    before.flatten.length = offset

theorem partAt (h : b.Shaped) (skip : List (List UInt8)) (part : List UInt8)
    (after : List (List UInt8)) (hsides : b.sides = skip ++ part :: after)
    (hoffset : offset = b.layout.selectorsOffset + skip.flatten.length) : b.PartAt offset part := by
  refine ⟨b.fields ++ [b.selectorPart] ++ b.rowSymbols ++ skip, after, ?_, ?_⟩
  · rw [payload, hsides, List.append_assoc _ skip]
  · rw [flatten_append, length_append, sides_at h, hoffset]

theorem selectors_at (h : b.Shaped) :
    b.PartAt b.layout.selectorsOffset (packArray b.sqBlockSelectors 1) :=
  partAt h [] _ _ rfl rfl

theorem scales_at (h : b.Shaped) : b.PartAt b.layout.scalesOffset (packArray b.sqStateScales 2) := by
  refine partAt h [packArray b.sqBlockSelectors 1] _ _ rfl ?_
  rw [flatten_singleton, (side_lengths h).1]
  rfl

theorem palettes_at (h : b.Shaped) :
    b.PartAt b.layout.palettesOffset (packArray b.sqStatePalettes 5) := by
  obtain ⟨hselectors, hscales, -⟩ := side_lengths h
  refine partAt h [packArray b.sqBlockSelectors 1, packArray b.sqStateScales 2] _ _ rfl ?_
  rw [flatten_cons, flatten_singleton, length_append, hselectors, hscales,
    ← Nat.add_assoc]
  rfl

theorem natives_at (h : b.Shaped) :
    b.PartAt b.layout.nativeScalesOffset (b.sq4NativeScales.flat.map uint8) := by
  obtain ⟨hselectors, hscales, hpalettes, -⟩ := side_lengths h
  refine partAt h [packArray b.sqBlockSelectors 1, packArray b.sqStateScales 2,
    packArray b.sqStatePalettes 5] _ [] rfl ?_
  rw [flatten_cons, flatten_cons, flatten_singleton, length_append,
    length_append, hselectors, hscales, hpalettes, ← Nat.add_assoc, ← Nat.add_assoc]
  rfl

theorem length_payload (h : b.Shaped) : b.payload.length = b.layout.payloadNbytes := by
  obtain ⟨hselectors, hscales, hpalettes, hnative⟩ := side_lengths h
  have hsides : b.sides.flatten.length
      = packedNbytes (b.layout.sqRows * b.blocks) 1 + (b.layout.sqRows * 2 + (b.layout.sqRows * 5
        + b.layout.sq4Rows * b.blocks)) := by
    simp only [sides, flatten_cons, flatten_nil, List.append_nil, length_append,
      hselectors, hscales, hpalettes, hnative]
  rw [payload, flatten_append, length_append, sides_at h, hsides, ← Nat.add_assoc,
    ← Nat.add_assoc, ← Nat.add_assoc]
  rfl

theorem drop_natives (h : b.Shaped) :
    b.payload.drop b.layout.nativeScalesOffset = b.sq4NativeScales.flat.map uint8 := by
  have hparts : b.payload = (b.fields ++ [b.selectorPart] ++ b.rowSymbols
      ++ [packArray b.sqBlockSelectors 1, packArray b.sqStateScales 2,
        packArray b.sqStatePalettes 5]).flatten ++ b.sq4NativeScales.flat.map uint8 := by
    rw [payload, sides]
    simp
  have hlength := congrArg List.length hparts
  rw [length_append, length_payload h, (side_lengths h).2.2.2] at hlength
  have hbytes : b.layout.payloadNbytes
      = b.layout.nativeScalesOffset + b.layout.sq4Rows * b.blocks := rfl
  rw [hparts, drop_left' (by omega)]

/-! ### The parser on it -/

theorem header_payload (hbase : 0 ≤ b.matrixScaleBase ∧ b.matrixScaleBase < 256)
    (hsize : b.outputs < 2 ^ 64 ∧ b.width < 2 ^ 64) :
    window (byte b.payload) 0 4 = currentMagic ∧ byte b.payload 4 = 2 ∧
      ((byte b.payload 5).toNat : Int) = b.matrixScaleBase ∧ readLE (byte b.payload) 6 2 = 0 ∧
      readLE (byte b.payload) 8 8 = b.outputs ∧ readLE (byte b.payload) 16 8 = b.width := by
  have hword (before after : List (List UInt8)) {size n : Nat}
      (hfields : b.fields = before ++ littleEndian size n :: after) (hn : n < 256 ^ size) :
      readLE (byte b.payload) before.flatten.length size = n := by
    refine readLE_littleEndian hn fun k hk => ?_
    exact byte_field before _ after hfields (by rwa [length_littleEndian])
  have hbaseByte := hword [_, _] _ rfl (show b.matrixScaleBase.toNat < 256 ^ 1 by omega)
  have hreserved := @hword [_, _, _] _ 2 0 rfl (by decide)
  have houtputs := hword [_, _, _, _] _ rfl hsize.1
  have hwidth := hword [_, _, _, _, _] _ rfl hsize.2
  simp only [flatten_cons, flatten_nil, length_append, length_littleEndian,
    length_cons, length_nil, currentMagic] at hbaseByte hreserved houtputs hwidth
  refine ⟨?_, ?_, ?_, hreserved, houtputs, hwidth⟩
  · refine window_eq rfl fun k hk => ?_
    exact byte_field [] currentMagic _ rfl hk
  · exact byte_field [currentMagic] [2] _ rfl (k := 0) (by decide)
  · have hread : readLE (byte b.payload) 5 1 = (byte b.payload 5).toNat := by
      simp [readLE, window, ofLittleEndian]
    rw [← hread]
    change ((readLE (byte b.payload) 5 1 : Nat) : Int) = _
    rw [hbaseByte]
    omega

theorem layoutByMagic_payload (h : b.Shaped)
    (hmagic : window (byte b.payload) 0 4 = currentMagic) :
    layoutByMagic b.payload 2 b.outputs b.width b.matrixScaleBase = .ok b.layout := by
  have haligned : alignedQSelectorNbytes b.outputs = (packedNbytes b.outputs 2 + 3) / 4 * 4 := rfl
  have hpacked : packedNbytes b.outputs 2 = (b.outputs * 2 + 7) / 8 := rfl
  have hrows := h.rows
  have hbit {i : Nat} (hi : i < 8 * alignedQSelectorNbytes b.outputs) :
      bit (fun k => byte b.payload (headerSize + k)) i
        = (decide (i < 2 * b.outputs) && (b.q (i / 2) - 1).testBit (i % 2)) := by
    rw [← bit_selectorPart h]
    unfold bit
    dsimp only
    rw [byte_selectorPart (by omega)]
  have hzero {k j : Nat} (hk : k < alignedQSelectorNbytes b.outputs) (hj : j < 8)
      (hle : 2 * b.outputs ≤ 8 * k + j) :
        (byte b.payload (headerSize + k)).toNat.testBit j = false := by
    have hi := hbit (i := 8 * k + j) (by omega)
    rw [decide_eq_false (by omega), Bool.false_and] at hi
    unfold bit at hi
    rwa [show (8 * k + j) / 8 = k by omega, show (8 * k + j) % 8 = j by omega] at hi
  have hlength : headerSize + alignedQSelectorNbytes b.outputs ≤ b.payload.length := by
    rw [length_payload h]
    change _ ≤ headerSize + alignedQSelectorNbytes b.outputs + _ + _ + _ + _ + _
    omega
  have hwidths : (unpackBits b.payload headerSize b.outputs 2).map
      (fun (selector : Nat) => (selector : Int) + 1) = b.rowQBits := by
    rw [unpackBits_eq _ _ _ (by decide), map_map]
    apply ext_getElem
    · simp [outputs]
    · intro row hrow hrow'
      have hrange := q_range h hrow'
      have hmem := h.widths _ (getElem_mem hrow')
      have hfield : field (byte b.payload) (8 * headerSize + 2 * row) 2 = b.q row - 1 := by
        rw [← field_add]
        refine field_eq_of_testBit (by omega) fun j hj => ?_
        change row < b.outputs at hrow'
        rw [hbit (by omega), decide_eq_true (by omega), Bool.true_and,
          show (2 * row + j) / 2 = row by omega, show (2 * row + j) % 2 = j by omega]
      have hq : b.q row = (b.rowQBits[row]).toNat := by
        rw [q, getD_eq_getElem _ _ hrow']
      rw [getElem_map, getElem_range, Function.comp_apply, hfield, hq]
      omega
  have hlegacy : ¬(currentMagic = legacySq2Magic ∨ currentMagic = legacyMagicThree ∨
      currentMagic = legacySq3Magic) := by decide
  unfold layoutByMagic
  dsimp only
  rw [hmagic, if_neg hlegacy, if_pos rfl, if_neg (by omega), if_neg (by omega), if_neg ?_, if_neg ?_,
    hwidths]
  · refine (if_neg ?_).trans rfl
    rw [not_or]
    refine ⟨not_not.mpr rfl, ?_⟩
    intro hany
    obtain ⟨q, hq, hrange⟩ := any_eq_true.mp hany
    have hq := h.widths q hq
    simp at hrange
    omega
  · rw [any_window]
    rintro ⟨k, hk, hne⟩
    refine of_decide_eq_true hne (byte_eq_zero.mpr fun j hj => ?_)
    rw [Nat.add_assoc]
    exact hzero (by omega) hj (by omega)
  · rintro ⟨hused, hmask⟩
    refine hmask ((mask_eq_zero (by omega)).mpr fun j hj hle => ?_)
    rw [Nat.add_sub_assoc (by omega)]
    exact hzero (by omega) hj (by omega)

variable {l : Layout}

theorem parse_payload (h : b.Shaped) (hbase : 0 ≤ b.matrixScaleBase ∧ b.matrixScaleBase < 256)
    (hsize : b.outputs < 2 ^ 64 ∧ b.width < 2 ^ 64) :
    parseLayout b.payload = .ok l ↔
      (b.outputs ≤ 0x7fffffff ∧ b.width ≤ 0x7fffffff) ∧ b.matrixScaleBase ≤ 251 ∧
        255 ∉ b.sq4NativeScales.flat.map uint8 ∧ l = b.layout := by
  obtain ⟨hmagic, hversion, hbaseByte, hreserved, houtputs, hwidth⟩ := header_payload hbase hsize
  have hinput := h.inputSize
  have hrows := h.rows
  have hwidthEq : (b.width : Int) = b.inputSize := by
    unfold width
    omega
  have hlength : headerSize ≤ b.layout.payloadNbytes := by
    change _ ≤ headerSize + _ + _ + _ + _ + _ + _
    omega
  have hnative : ¬(b.layout.sq4Rows ≠ 0 ∧ 255 ∈ b.payload.drop b.layout.nativeScalesOffset) ↔
      255 ∉ b.sq4NativeScales.flat.map uint8 := by
    rw [drop_natives h]
    constructor
    · intro hnot hmem
      refine hnot ⟨fun hzero => ?_, hmem⟩
      have hlist : (b.sq4NativeScales.flat.map uint8).length = 0 := by
        rw [(side_lengths h).2.2.2, hzero, Nat.zero_mul]
      rw [eq_nil_of_length_eq_zero hlist] at hmem
      cases hmem
    · intro hnot hboth
      exact hnot hboth.2
  unfold parseLayout
  dsimp only
  rw [guard_eq_ok, guard_eq_ok, guard_eq_ok, guard_eq_ok, hversion, hreserved, houtputs, hwidth,
    hbaseByte]
  change _ ∧ _ ∧ _ ∧ _ ∧ (layoutByMagic b.payload 2 b.outputs b.width b.matrixScaleBase >>= _) = _ ↔ _
  rw [layoutByMagic_payload h hmagic]
  change _ ∧ _ ∧ _ ∧ _ ∧ (if b.payload.length ≠ b.layout.payloadNbytes then _ else _) = _ ↔ _
  rw [guard_eq_ok, guard_eq_ok, pure_eq_ok, hnative, length_payload h, eq_comm (b := l)]
  constructor
  · rintro ⟨-, hmeta, hrows', hcolumns, -, h255, hl⟩
    exact ⟨⟨by omega, by omega⟩, by omega, h255, hl⟩
  · rintro ⟨hdims, hle, h255, hl⟩
    exact ⟨by omega, by omega, by omega, by omega, not_not.mpr rfl, h255, hl⟩

/-! ### The builder -/

theorem shape_eq :
    a.shape = (rows, columns) ↔ a.rows = rows ∧ a.columns = columns := Prod.mk.injEq .. ▸ Iff.rfl

theorem any_eq_false {p : Int → Bool} : ¬a.flat.any p = true ↔ ∀ v ∈ a.flat, p v = false := by
  rw [Bool.not_eq_true, List.any_eq_false]
  simp

theorem checkArrays_eq_ok : checkArrays b b.layout = .ok () ↔
    (b.sqBlockSelectors.shape = (b.layout.sqRows, b.blocks) ∧
      b.sqStateScales.shape = (b.layout.sqRows, 8) ∧ b.sqStatePalettes.shape = (b.layout.sqRows, 8) ∧
      b.sq4NativeScales.shape = (b.layout.sq4Rows, b.blocks)) ∧
    (∀ v ∈ b.sqBlockSelectors.flat, 0 ≤ v ∧ v ≤ 1) ∧ (∀ v ∈ b.sqStateScales.flat, v ≤ 3) ∧
      (∀ v ∈ b.sqStatePalettes.flat, v ≤ 31) ∧ ∀ v ∈ b.sq4NativeScales.flat, v ≤ 254 := by
  unfold checkArrays
  dsimp only
  rw [guard_eq_ok, guard_eq_ok, guard_eq_ok, guard_eq_ok, guard_eq_ok, guard_eq_ok]
  simp only [not_or, not_not, any_eq_false, decide_eq_false_iff_not, Int.not_lt, and_true]
  constructor
  · rintro ⟨hselectors, ⟨hscales, hthree⟩, ⟨hpalettes, hmax⟩, hnative, ⟨hzero, hone⟩, hcodes⟩
    exact ⟨⟨hselectors, hscales, hpalettes, hnative⟩, fun v hv => ⟨hzero v hv, hone v hv⟩, hthree, hmax,
      hcodes⟩
  · rintro ⟨⟨hselectors, hscales, hpalettes, hnative⟩, hbinary, hthree, hmax, hcodes⟩
    exact ⟨hselectors, ⟨hscales, hthree⟩, ⟨hpalettes, hmax⟩, hnative,
      ⟨fun v hv => (hbinary v hv).1, fun v hv => (hbinary v hv).2⟩, hcodes⟩

theorem packInt_eq_ok {size : Nat} {value : Int} {bytes : List UInt8} :
    packInt size value = .ok bytes ↔
      (0 ≤ value ∧ value < (256 ^ size : Nat)) ∧ bytes = littleEndian size value.toNat := by
  unfold packInt
  rw [guard_eq_ok, Except.ok.injEq]
  constructor
  · rintro ⟨hrange, rfl⟩
    exact ⟨by omega, rfl⟩
  · rintro ⟨hrange, rfl⟩
    exact ⟨by omega, rfl⟩

theorem packHeader_eq_ok {header : List UInt8} :
    packHeader b.matrixScaleBase b.rowQBits.length b.inputSize = .ok header ↔
      (0 ≤ b.matrixScaleBase ∧ b.matrixScaleBase < 256) ∧ b.outputs < 2 ^ 64 ∧
        (0 ≤ b.inputSize ∧ b.inputSize < 2 ^ 64) ∧ header = b.fields.flatten := by
  have hfields : currentMagic ++ [2] ++ littleEndian 1 b.matrixScaleBase.toNat ++ [0, 0]
      ++ littleEndian 8 (b.rowQBits.length : Int).toNat ++ littleEndian 8 b.inputSize.toNat
      = b.fields.flatten := by
    simp [fields, outputs, width]
  unfold packHeader
  rw [bind_eq_ok]
  constructor
  · rintro ⟨base, hbase, h⟩
    obtain ⟨outputs, houtputs, h⟩ := bind_eq_ok.mp h
    obtain ⟨inputSize, hinputSize, h⟩ := bind_eq_ok.mp h
    obtain ⟨hbase, rfl⟩ := packInt_eq_ok.mp hbase
    obtain ⟨houtputs, rfl⟩ := packInt_eq_ok.mp houtputs
    obtain ⟨hinputSize, rfl⟩ := packInt_eq_ok.mp hinputSize
    refine ⟨by omega, ?_, by omega, (pure_eq_ok.mp h).symm.trans hfields⟩
    change b.rowQBits.length < 2 ^ 64
    omega
  · rintro ⟨hbase, houtputs, hinputSize, rfl⟩
    change b.rowQBits.length < 2 ^ 64 at houtputs
    exact ⟨_, packInt_eq_ok.mpr ⟨by omega, rfl⟩, bind_eq_ok.mpr ⟨_, packInt_eq_ok.mpr ⟨by omega, rfl⟩,
      bind_eq_ok.mpr ⟨_, packInt_eq_ok.mpr ⟨by omega, rfl⟩, pure_eq_ok.mpr hfields⟩⟩⟩

theorem checks_iff : (¬(b.outputs = 0 ∨ b.inputSize ≤ 0 ∨ b.inputSize % 32 ≠ 0) ∧
    (∀ q ∈ b.rowQBits, 1 ≤ q ∧ q ≤ 4) ∧ b.rowSymbols.length = b.outputs ∧
    (List.range b.outputs).forM (checkStream b) = .ok () ∧ checkArrays b b.layout = .ok ()) ↔
    b.Shaped ∧ (∀ v ∈ b.sqBlockSelectors.flat, 0 ≤ v ∧ v ≤ 1) ∧ (∀ v ∈ b.sqStateScales.flat, v ≤ 3) ∧
      (∀ v ∈ b.sqStatePalettes.flat, v ≤ 31) ∧ ∀ v ∈ b.sq4NativeScales.flat, v ≤ 254 := by
  have hstreams : (List.range b.outputs).forM (checkStream b) = .ok () ↔
      ∀ row < b.outputs, (b.rowSymbols.getD row []).length = b.width * b.q row / 8 := by
    rw [forM_eq_ok]
    simp only [mem_range, checkStream, guard_eq_ok, not_not, and_true]
    exact Iff.rfl
  rw [hstreams, checkArrays_eq_ok]
  constructor
  · rintro ⟨hinput, hwidths, hsymbols, hlengths, hshapes, hbounds⟩
    refine ⟨⟨by omega, by omega, hwidths, hsymbols, hlengths, hshapes.1, hshapes.2.1, hshapes.2.2.1,
      hshapes.2.2.2⟩, hbounds⟩
  · rintro ⟨h, hbounds⟩
    have hrows := h.rows
    have hinput := h.inputSize
    exact ⟨by omega, h.widths, h.rowSymbols, h.streams,
      ⟨h.selectors, h.stateScales, h.statePalettes, h.nativeScales⟩, hbounds⟩

theorem adaptiveLayout_input :
    adaptiveLayout b.rowQBits.length b.inputSize.toNat b.matrixScaleBase b.rowQBits = .ok l ↔
      (∀ q ∈ b.rowQBits, 1 ≤ q ∧ q ≤ 4) ∧ l = b.layout := by
  unfold adaptiveLayout
  rw [guard_eq_ok, Except.ok.injEq, eq_comm (b := l)]
  refine and_congr_left fun _ => ?_
  simp only [ne_eq, not_true_eq_false, false_or, Bool.not_eq_true, List.any_eq_false,
    Bool.or_eq_true, decide_eq_true_eq, not_or, Int.not_lt]

/-- **What the builder accepts, and what it returns.** -/
theorem buildMxfp4Sq_eq_ok {t : Mxfp4SqTensor} :
    buildMxfp4Sq b = .ok t ↔ b.Accepted ∧ t = b.tensor := by
  have hpayload {header : List UInt8} (hheader : header = b.fields.flatten) :
      header ++ b.selectorPart ++ b.rowSymbols.flatten ++ packArray b.sqBlockSelectors 1
        ++ packArray b.sqStateScales 2 ++ packArray b.sqStatePalettes 5
        ++ b.sq4NativeScales.flat.map uint8 = b.payload := by
    rw [hheader]
    simp [payload, sides]
  have hwidth : (b.width : Int) = max b.inputSize 0 := by
    unfold width
    omega
  unfold buildMxfp4Sq
  dsimp only
  rw [guard_eq_ok, bind_eq_ok]
  constructor
  · rintro ⟨hinput, l, hl, hrest⟩
    obtain ⟨hwidths, rfl⟩ := adaptiveLayout_input.mp hl
    obtain ⟨hsymbols, hrest⟩ := guard_eq_ok.mp hrest
    obtain ⟨u, hstreams, hrest⟩ := bind_eq_ok.mp hrest
    obtain ⟨u', harrays, hrest⟩ := bind_eq_ok.mp hrest
    obtain ⟨hshaped, hbinary, hscales, hpalettes, hnative⟩ :=
      checks_iff.mp ⟨hinput, hwidths, not_not.mp hsymbols, hstreams, harrays⟩
    obtain ⟨header, hheader, hrest⟩ := bind_eq_ok.mp hrest
    obtain ⟨hbase, houtputs, hsize, hheader⟩ := packHeader_eq_ok.mp hheader
    obtain ⟨-, hrest⟩ := guard_eq_ok.mp hrest
    obtain ⟨l, hl, ht⟩ := bind_eq_ok.mp hrest
    change parseLayout (header ++ b.selectorPart ++ b.rowSymbols.flatten ++ _ ++ _ ++ _ ++ _) = .ok l
      at hl
    rw [hpayload hheader] at hl
    obtain ⟨hdims, hle, h255, rfl⟩ := (parse_payload hshaped hbase ⟨houtputs, by omega⟩).mp hl
    refine ⟨⟨hshaped, by omega, by omega, hbinary, hscales, hpalettes, hnative, h255⟩, ?_⟩
    rw [← pure_eq_ok.mp ht, tensor, ← hpayload hheader]
    rfl
  · rintro ⟨h, rfl⟩
    have hdims := h.dimensions
    have hbase := h.base
    have hinput := h.shaped.inputSize
    obtain ⟨hinput', hwidths, hsymbols, hstreams, harrays⟩ := checks_iff.mpr
      ⟨h.shaped, h.binary, h.stateScales_le, h.statePalettes_le, h.nativeScales_le⟩
    refine ⟨hinput', b.layout, adaptiveLayout_input.mpr ⟨hwidths, rfl⟩,
      guard_eq_ok.mpr ⟨not_not.mpr hsymbols, bind_eq_ok.mpr ⟨⟨⟩, hstreams, bind_eq_ok.mpr ⟨⟨⟩, harrays,
      bind_eq_ok.mpr ⟨b.fields.flatten,
        packHeader_eq_ok.mpr ⟨by omega, by omega, by omega, rfl⟩, ?_⟩⟩⟩⟩⟩
    change (if (b.fields.flatten ++ b.selectorPart ++ b.rowSymbols.flatten ++ _ ++ _ ++ _ ++ _).length
        ≠ _ then _ else unpackMxfp4Sq
          (b.fields.flatten ++ b.selectorPart ++ b.rowSymbols.flatten ++ _ ++ _ ++ _ ++ _)) = _
    rw [hpayload rfl, if_neg (not_not.mpr (length_payload h.shaped))]
    have hparse := (parse_payload h.shaped (by omega) ⟨by omega, by omega⟩).mpr
      ⟨⟨by omega, by omega⟩, by omega, h.native, rfl⟩
    exact bind_of_ok hparse _

end BuildInput

end TyloQuant.Formats.Mxfp4Sq
