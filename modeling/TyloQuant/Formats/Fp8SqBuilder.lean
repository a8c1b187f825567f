import TyloQuant.Formats.Fp8SqParser
import TyloQuant.Fp8Sq.Parts

/-!
# Payloads put together

The payload that `build_fp8_sq` joins: where each of its parts is found again, and when it is
well-formed.
-/

namespace TyloQuant.Formats.Fp8Sq

open Lib Bytes ByteFile Bits List
open TyloQuant.Fp8Sq

/-- The parts of a payload. -/
structure Parts where
  dtype : Family
  header : Header
  q : List Nat
  palettes : List UInt8
  streams : List (List UInt8)
  scales : List UInt8

/-- The selectors, and zeros up to the next four bytes. -/
def selectorPart (q : List Nat) : List UInt8 :=
  packBits (q.map (· - 1)) 3
    ++ List.replicate (alignedSelectorNbytes q.length - (packBits (q.map (· - 1)) 3).length) 0

variable {i : Nat}

namespace Parts

variable (x : Parts)

/-- The fields of the header. -/
def fields : List (List UInt8) :=
  [magic x.dtype, [1, UInt8.ofNat (scaleKindOf x.header.scaleKind), 0, 0],
    littleEndian 2 x.header.blockRows, littleEndian 2 x.header.blockColumns,
    littleEndian 8 x.header.outputs, littleEndian 8 x.header.width,
    littleEndian 8 x.header.scaleRows, littleEndian 8 x.header.scaleColumns]

/-- What is in front of the symbols. -/
def front : List (List UInt8) := x.fields ++ [selectorPart x.q, x.palettes]

def payload : List UInt8 := (x.front ++ x.streams ++ [x.scales]).flatten

/-- The parts have the sizes that the header says. -/
structure Fits : Prop where
  blocks : x.header.blockRows < 2 ^ 16 ∧ x.header.blockColumns < 2 ^ 16
  dimensions : x.header.outputs < 2 ^ 64 ∧ x.header.width < 2 ^ 64
  scaleShape : x.header.scaleRows < 2 ^ 64 ∧ x.header.scaleColumns < 2 ^ 64
  q : x.q.length = x.header.outputs
  range : ∀ row < x.header.outputs, 1 ≤ x.q.getD row 0 ∧ x.q.getD row 0 ≤ 8
  palettes : x.palettes.length = paletteBytes
  streams : x.streams.length = x.header.outputs
  symbols : ∀ row < x.header.outputs,
    (x.streams.getD row []).length = packedNbytes x.header.width (x.q.getD row 0)
  scales : x.scales.length
    = x.header.scaleRows * x.header.scaleColumns * scaleItemsize x.header.scaleKind

variable {x}

theorem length_fields : x.fields.flatten.length = headerBytes := by
  have hmagic : (magic x.dtype).length = 4 := by cases x.dtype <;> rfl
  simp [fields, hmagic, headerBytes]

theorem length_selectorPart (q : List Nat) : (selectorPart q).length = qBytes q.length := by
  have hle : (packBits (q.map (· - 1)) 3).length ≤ alignedSelectorNbytes q.length := by
    rw [length_packBits, length_map]
    unfold alignedSelectorNbytes
    omega
  rw [selectorPart, length_append, length_replicate, Nat.add_sub_cancel' hle]
  rfl

/-! ### The header -/

variable {k : Nat}

theorem byte_field (before : List (List UInt8)) (part : List UInt8) (after : List (List UInt8))
    (h : x.fields = before ++ part :: after) (hk : k < part.length) :
    byte x.payload (before.flatten.length + k) = byte part k := by
  have hparts : x.front ++ x.streams ++ [x.scales] = before ++ part ::
      (after ++ [selectorPart x.q, x.palettes] ++ x.streams ++ [x.scales]) := by
    rw [front, h]
    simp
  rw [payload, hparts, byte_flatten _ _ _ hk]

theorem headerIs_payload (h : x.Fits) : HeaderIs x.dtype x.payload x.header := by
  have hmagic : (magic x.dtype).length = 4 := by cases x.dtype <;> rfl
  have htags {k : Nat} (hk : k < 4) : byte x.payload (4 + k)
      = byte [1, UInt8.ofNat (scaleKindOf x.header.scaleKind), 0, 0] k := by
    have hbyte := x.byte_field [magic x.dtype] _ _ rfl (k := k) hk
    simpa [hmagic] using hbyte
  have hword (before after : List (List UInt8)) {size n : Nat}
      (hfields : x.fields = before ++ littleEndian size n :: after) (hn : n < 256 ^ size) :
      readLE (byte x.payload) before.flatten.length size = n := by
    refine readLE_littleEndian hn fun k hk => ?_
    exact byte_field before _ after hfields (by rwa [length_littleEndian])
  have hblockRows := hword [_, _] _ rfl h.blocks.1
  have hblockColumns := hword [_, _, _] _ rfl h.blocks.2
  have houtputs := hword [_, _, _, _] _ rfl h.dimensions.1
  have hwidth := hword [_, _, _, _, _] _ rfl h.dimensions.2
  have hscaleRows := hword [_, _, _, _, _, _] _ rfl h.scaleShape.1
  have hscaleColumns := hword [_, _, _, _, _, _, _] _ rfl h.scaleShape.2
  simp only [flatten_cons, flatten_nil, length_append, length_littleEndian, hmagic,
    length_cons, length_nil] at hblockRows hblockColumns houtputs hwidth
  simp only [flatten_cons, flatten_nil, length_append, length_littleEndian, hmagic,
    length_cons, length_nil] at hscaleRows hscaleColumns
  refine
    { magic_eq := fun i hi => ?_
      version := htags (k := 0) (by omega)
      flags := ⟨htags (k := 2) (by omega), htags (k := 3) (by omega)⟩
      scaleKind := ?_
      blockRows := hblockRows
      blockColumns := hblockColumns
      outputs := houtputs
      width := hwidth
      scaleRows := hscaleRows
      scaleColumns := hscaleColumns }
  · have hbyte := x.byte_field [] (magic x.dtype) _ rfl (k := i) (by omega)
    simpa using hbyte
  · have hkind := htags (k := 1) (by omega)
    change byte x.payload 5 = UInt8.ofNat (scaleKindOf x.header.scaleKind) at hkind
    rw [hkind]
    cases x.header.scaleKind <;> rfl

/-! ### Selectors and palettes -/

theorem byte_selectors (h : x.Fits) (hk : k < qBytes x.header.outputs) :
    selectors x.payload k = byte (selectorPart x.q) k := by
  have hparts : x.front ++ x.streams ++ [x.scales]
      = x.fields ++ selectorPart x.q :: ([x.palettes] ++ x.streams ++ [x.scales]) := by
    simp [front]
  unfold selectors
  rw [payload, hparts, ← length_fields,
    byte_flatten _ _ _ (by rw [length_selectorPart, h.q]; exact hk)]

theorem bit_selectors (h : x.Fits) (hi : i < 8 * qBytes x.header.outputs) :
    bit (selectors x.payload) i = (decide (i < 3 * x.header.outputs) &&
      (x.q.getD (i / 3) 0 - 1).testBit (i % 3)) := by
  have hvalue (row : Nat) (hrow : row < x.header.outputs) :
      (x.q.map (· - 1)).getD row 0 = x.q.getD row 0 - 1 := by
    rw [getD_eq_getElem _ _ (by simpa [h.q] using hrow), getElem_map,
      getD_eq_getElem _ _ (by rw [h.q]; exact hrow)]
  have hvalues : ∀ row < (x.q.map (· - 1)).length, (x.q.map (· - 1)).getD row 0 < 2 ^ 3 := by
    intro row hrow
    rw [length_map, h.q] at hrow
    have hrange := h.range row hrow
    rw [hvalue row hrow]
    omega
  have hbit : bit (selectors x.payload) i = bit (byte (selectorPart x.q)) i := by
    unfold bit
    rw [byte_selectors h (by omega)]
  rw [hbit, selectorPart, bit_padded (by decide) hvalues, length_map, h.q]
  by_cases hlt : i < 3 * x.header.outputs
  · rw [hvalue _ (by omega)]
  · simp [hlt]

variable {row : Nat}

theorem readQ_payload (h : x.Fits) (hrow : row < x.header.outputs) :
    readQ (selectors x.payload) row = x.q.getD row 0 := by
  have hrange := h.range row hrow
  have hroom : 3 * x.header.outputs ≤ 8 * qBytes x.header.outputs := by
    unfold qBytes usedQBytes Fp8Sq.packedNbytes
    omega
  have hfield : field (selectors x.payload) (3 * row) 3 = x.q.getD row 0 - 1 := by
    refine field_eq_of_testBit (by omega) fun j hj => ?_
    rw [bit_selectors h (by omega), decide_eq_true (by omega), Bool.true_and,
      show (3 * row + j) / 3 = row by omega, show (3 * row + j) % 3 = j by omega]
  rw [readQ_eq, hfield]
  omega

theorem byte_palettes (h : x.Fits) (hk : k < paletteBytes) :
    byte x.payload (palettesAt x.header.outputs + k) = byte x.palettes k := by
  have hparts : x.front ++ x.streams ++ [x.scales]
      = (x.fields ++ [selectorPart x.q]) ++ x.palettes :: (x.streams ++ [x.scales]) := by
    simp [front]
  have hlength : (x.fields ++ [selectorPart x.q]).flatten.length = palettesAt x.header.outputs := by
    rw [flatten_append, length_append, length_fields, flatten_singleton,
      length_selectorPart, h.q]
    rfl
  rw [payload, hparts, ← hlength, byte_flatten _ _ _ (by rw [h.palettes]; exact hk)]

/-! ### Symbols and scales -/

theorem length_front (h : x.Fits) : x.front.flatten.length = symbolsAt x.header.outputs := by
  rw [front, flatten_append, length_append, length_fields]
  simp only [flatten_cons, flatten_nil, List.append_nil, length_append,
    length_selectorPart, h.q, h.palettes]
  rw [← Nat.add_assoc]
  rfl

theorem length_take_streams (h : x.Fits) (hrow : row ≤ x.header.outputs) :
    (x.streams.take row).flatten.length = symbolBytes x.payload x.header.width row := by
  induction row with
  | zero => rfl
  | succ row ih =>
    have hlt : row < x.streams.length := by
      rw [h.streams]
      exact hrow
    rw [symbolBytes_succ, readQ_payload h hrow, ← ih (by omega), take_add_one,
      getElem?_eq_getElem hlt, Option.toList_some, flatten_append, length_append,
      flatten_singleton, ← getD_eq_getElem _ [] hlt, h.symbols row hrow]
    rfl

theorem byte_symbols (h : x.Fits) (hrow : row < x.header.outputs)
    (hk : k < (x.streams.getD row []).length) :
    byte x.payload (symbolsAt x.header.outputs + symbolBytes x.payload x.header.width row + k)
      = byte (x.streams.getD row []) k := by
  have hlt : row < x.streams.length := by
    rw [h.streams]
    exact hrow
  have hparts : x.front ++ x.streams ++ [x.scales] = (x.front ++ x.streams.take row)
      ++ x.streams.getD row [] :: (x.streams.drop (row + 1) ++ [x.scales]) := by
    rw [getD_eq_getElem _ _ hlt, List.append_assoc x.front (x.streams.take row),
      ← cons_append, ← List.append_assoc (x.streams.take row), ← drop_eq_getElem_cons hlt,
      take_append_drop, List.append_assoc]
  have hlength : (x.front ++ x.streams.take row).flatten.length
      = symbolsAt x.header.outputs + symbolBytes x.payload x.header.width row := by
    rw [flatten_append, length_append, length_front h, length_take_streams h hrow.le]
  have hbyte :=
    byte_flatten (x.front ++ x.streams.take row) _ (x.streams.drop (row + 1) ++ [x.scales]) hk
  rw [← hparts, hlength] at hbyte
  exact hbyte

theorem length_streams (h : x.Fits) :
    (x.front ++ x.streams).flatten.length = scalesAt x.payload x.header := by
  have htake : x.streams.take x.header.outputs = x.streams := by
    rw [← h.streams]
    exact take_length
  rw [flatten_append, length_append, length_front h, scalesAt,
    ← length_take_streams h le_rfl, htake]

theorem byte_scales (h : x.Fits) (hk : k < x.scales.length) :
    byte x.payload (scalesAt x.payload x.header + k) = byte x.scales k := by
  have hbyte := byte_flatten (x.front ++ x.streams) x.scales [] hk
  rw [length_streams h] at hbyte
  exact hbyte

theorem length_payload (h : x.Fits) : x.payload.length = payloadBytes x.payload x.header := by
  have hlength : x.payload.length = (x.front ++ x.streams).flatten.length + x.scales.length := by
    rw [payload, flatten_append, length_append, flatten_singleton]
  rw [hlength, length_streams h, h.scales, payloadBytes]

/-- **Joined parts are a well-formed payload** when the palettes, the codes of the rows of width 8 and
    the scales are legal. -/
theorem wellFormed_payload (h : x.Fits) (hgeometry : Geometry x.dtype x.header)
    (hpalettes : PaletteIs (byte x.palettes))
    (hcodes : ∀ row < x.header.outputs, x.q.getD row 0 = 8 → ∀ column < x.header.width,
      nanCode (byte (x.streams.getD row []) column) = false)
    (hscales : ∀ index < x.header.scaleRows * x.header.scaleColumns, validScale (byte x.scales)
      (index * scaleItemsize x.header.scaleKind) x.header.scaleKind = true) :
    WellFormed x.dtype x.payload x.header := by
  refine
    { header := headerIs_payload h
      geometry := hgeometry
      length := length_payload h
      selectorPadding := fun i hi hlt => ?_
      palettes := ?_
      codes := fun row hrow hq column hcolumn => ?_
      scales := fun index hindex => ?_ }
  · rw [bit_selectors h hlt, decide_eq_false (by omega), Bool.false_and]
  · refine palettes_iff.mp ?_
    have hwindow : window (byte x.payload) (palettesAt x.header.outputs) paletteBytes = x.palettes :=
      window_eq h.palettes fun k hk => byte_palettes h hk
    rw [hwindow, validatePaletteBytes_eq_ok h.palettes]
    exact hpalettes
  · rw [readQ_payload h hrow] at hq
    have hlength := h.symbols row hrow
    rw [hq, packedNbytes] at hlength
    rw [byte_symbols h hrow (by omega)]
    exact hcodes row hrow hq column hcolumn
  · have hmul : (index + 1) * scaleItemsize x.header.scaleKind
        ≤ x.header.scaleRows * x.header.scaleColumns * scaleItemsize x.header.scaleKind :=
      Nat.mul_le_mul_right _ hindex
    rw [Nat.succ_mul] at hmul
    have hcongr : validScale (byte x.payload)
        (scalesAt x.payload x.header + index * scaleItemsize x.header.scaleKind) x.header.scaleKind
        = validScale (byte x.scales) (index * scaleItemsize x.header.scaleKind)
          x.header.scaleKind := by
      refine validScale_congr fun k hk => ?_
      rw [Nat.add_assoc, byte_scales h (by rw [h.scales]; omega)]
    rw [hcongr]
    exact hscales index hindex

end Parts

/-! ### A sample -/

/-- Legal codes, no two of them alike. -/
def sampleCode (i : Nat) : UInt8 := UInt8.ofNat (if i < 127 then i else 128)

def samplePalettes : List UInt8 :=
  (List.range' 1 7).flatMap (fun q => (List.range (2 ^ q)).map sampleCode) ++ [0, 0]

theorem byte_samplePalettes {q : Nat} (hq : 1 ≤ q) (hq' : q ≤ 7) (hi : i < 2 ^ q) :
    byte samplePalettes (2 ^ q - 2 + i) = sampleCode i := by
  have hprefix : ∀ n < 7,
      (((List.range' 1 7).map fun q => ((List.range (2 ^ q)).map sampleCode).length).take
      n).sum = 2 ^ (n + 1) - 2 ∧ (List.range' 1 7).getD n 0 = n + 1 := by
    simp only [length_map, List.length_range]
    decide
  obtain ⟨hsum, hget⟩ := hprefix (q - 1) (by omega)
  rw [Nat.sub_add_cancel hq] at hsum hget
  have hbyte := byte_flatMap (f := fun q => (List.range (2 ^ q)).map sampleCode) (List.range' 1 7) 0
    (i := q - 1) (j := i) (by simp; omega) (by rw [hget]; simpa using hi)
  have hlength : ((List.range' 1 7).flatMap fun q => (List.range (2 ^ q)).map sampleCode).length
      = 254 := by
    simp [length_flatMap]
    decide
  have hle := palette_le hq hq'
  rw [hsum, hget] at hbyte
  rw [samplePalettes, byte_append, if_pos (by omega), hbyte, byte,
    getD_eq_getElem _ _ (by simpa using hi), getElem_map, getElem_range]

theorem paletteIs_sample : PaletteIs (byte samplePalettes) := by
  have htoNat {i : Nat} (hi : i < 128) : (sampleCode i).toNat = if i < 127 then i else 128 :=
    UInt8.toNat_ofNat_of_lt' (show _ < 256 by split <;> omega)
  have hlegal : ∀ i < 128, nanCode (sampleCode i) = false := by decide
  have hpow {q : Nat} (hq : q ≤ 7) : 2 ^ q ≤ 2 ^ 7 := Nat.pow_le_pow_right (by omega) hq
  refine ⟨fun q hq hq' i hi => ?_, fun q hq hq' i hi j hj => ?_, ?_⟩
  · have hle := hpow hq'
    rw [byte_samplePalettes hq hq' hi]
    exact hlegal i (by omega)
  · have hle := hpow hq'
    rw [byte_samplePalettes hq hq' hi, byte_samplePalettes hq hq' (hj.trans hi), ne_eq,
      ← UInt8.toNat_inj, htoNat (by omega), htoNat (by omega)]
    split <;> split <;> omega
  · decide +kernel

/-- One row of width 1, with scales of 1. -/
def sampleParts (width : Nat) : Parts where
  dtype := .fp8Block128
  header :=
    { scaleKind := .bf16
      blockRows := 128
      blockColumns := 128
      outputs := 1
      width
      scaleRows := 1
      scaleColumns := (width + 127) / 128 }
  q := [1]
  palettes := samplePalettes
  streams := [List.replicate ((width + 7) / 8) 0]
  scales := (List.range ((width + 127) / 128)).flatMap fun _ => [0x80, 0x3f]

variable {width : Nat}

theorem fits_sample (hwidth : width ≤ intMax) : (sampleParts width).Fits := by
  have hint : intMax = 2147483647 := rfl
  have hone {row : Nat} (hrow : row < 1) : row = 0 := by omega
  refine
    { blocks := by simp [sampleParts]
      dimensions := ⟨by simp [sampleParts], ?_⟩
      scaleShape := ⟨by simp [sampleParts], ?_⟩
      q := rfl
      range := fun row hrow => by
        rw [hone hrow]
        exact (by decide : 1 ≤ 1 ∧ 1 ≤ 8)
      palettes := (by decide +kernel : samplePalettes.length = paletteBytes)
      streams := rfl
      symbols := fun row hrow => ?_
      scales := ?_ }
  · change width < 2 ^ 64
    omega
  · change (width + 127) / 128 < 2 ^ 64
    omega
  · rw [hone hrow]
    simp [sampleParts, packedNbytes]
  · simp [sampleParts, scaleItemsize, length_flatMap, Nat.mul_comm]

theorem wellFormed_sample (hpos : 0 < width) (hwidth : width ≤ intMax) :
    WellFormed .fp8Block128 (sampleParts width).payload (sampleParts width).header := by
  refine Parts.wellFormed_payload (fits_sample hwidth) ?_ paletteIs_sample ?_ ?_
  · exact
      { outputs := (by decide : 0 < 1 ∧ 1 ≤ intMax)
        width := ⟨hpos, hwidth⟩
        blocks := (by decide : 0 < 128 ∧ 0 < 128)
        scaleRows := (by decide : 1 = (1 + 128 - 1) / 128)
        scaleColumns := by simp [sampleParts]
        contract := ⟨ScaleKind.noConfusion, rfl, rfl⟩ }
  · intro row hrow hq
    obtain rfl : row = 0 := Nat.lt_one_iff.mp hrow
    cases hq
  · intro index hindex
    have hlt : index < (width + 127) / 128 := by simpa [sampleParts] using hindex
    have hbyte {j : Nat} (hj : j < 2) :
        byte (sampleParts width).scales (index * 2 + j) = byte [0x80, 0x3f] j := by
      have hflat := byte_flatMap (f := fun _ => [(0x80 : UInt8), 0x3f])
        (List.range ((width + 127) / 128)) 0 (i := index) (j := j) (by simpa using hlt) hj
      simpa [sampleParts, Nat.min_eq_left hlt.le, Nat.mul_comm] using hflat
    have hcongr : validScale (byte (sampleParts width).scales) (index * 2) .bf16
        = validScale (byte [0x80, 0x3f]) 0 .bf16 :=
      validScale_congr fun k hk => by rw [hbyte hk, Nat.zero_add]
    refine hcongr.trans ?_
    decide

end TyloQuant.Formats.Fp8Sq
