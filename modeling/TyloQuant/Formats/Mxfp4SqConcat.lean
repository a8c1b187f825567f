import TyloQuant.Formats.Mxfp4SqRows

/-!
# Rows of the sources

The rows of valid tensors, of any of the formats, are collected one tensor after the other.  Each has
side data that can be built again.
-/

namespace TyloQuant.Formats.Mxfp4Sq

open Lib Bytes ByteFile Bits List
open TyloQuant.Mxfp4Sq (sqCount nativeCount sqCount_succ nativeCount_succ nativeCount_mono
  sum_symbol_bytes)

/-! ### Sources -/

/-- What a layout that was parsed says of its payload. -/
structure Sound (payload : List UInt8) (l : Layout) : Prop where
  base : 0 ≤ l.base ∧ l.base ≤ 251
  inputSize : 0 < l.inputSize ∧ l.inputSize ≤ 0x7fffffff ∧ l.inputSize % 32 = 0
  widths : ∀ q ∈ l.rowQBits, 1 ≤ q ∧ q ≤ 4
  rows : 0 < l.rowQBits.length ∧ l.rowQBits.length = l.outputSize
  offsets : 4 ≤ l.symbolsOffset ∧ 4 ≤ l.selectorsOffset ∧ 4 ≤ l.scalesOffset ∧
    4 ≤ l.palettesOffset ∧ 4 ≤ l.nativeScalesOffset
  symbols : l.symbolsOffset + l.rowQBits.sum * l.inputSize / 8 ≤ payload.length
  sq4Rows : l.sq4Rows = l.rowQBits.count 4
  native : ∀ k < l.sq4Rows * (l.inputSize / 32), byte payload (l.nativeScalesOffset + k) ≠ 255

/-- The part of it that the layout has before the payload is looked at. -/
structure Shape (outputs width : Nat) (base : Int) (l : Layout) : Prop where
  fields : l.outputSize = outputs ∧ l.inputSize = width ∧ l.base = base
  length : l.rowQBits.length = outputs
  widths : ∀ q ∈ l.rowQBits, 1 ≤ q ∧ q ≤ 4
  offsets : 4 ≤ l.symbolsOffset ∧ 4 ≤ l.selectorsOffset ∧ 4 ≤ l.scalesOffset ∧
    4 ≤ l.palettesOffset ∧ 4 ≤ l.nativeScalesOffset
  symbols : l.symbolsOffset + l.rowQBits.sum * l.inputSize / 8 ≤ l.payloadNbytes
  sq4Rows : l.sq4Rows = l.rowQBits.count 4
  native : l.nativeScalesOffset + l.sq4Rows * (l.inputSize / 32) = l.payloadNbytes

theorem shape_legacy {bits : Nat} (outputs width : Nat) (base : Int) (hbits : bits = 2 ∨ bits = 3) :
    Shape outputs width base (legacyLayout bits outputs width base) := by
  have hcount : (List.replicate outputs bits).count 4 = 0 := by
    rw [count_replicate, if_neg]
    simp only [beq_iff_eq]
    omega
  have hoffset : 4 ≤ headerSize := by decide
  refine
    { fields := ⟨rfl, rfl, rfl⟩
      length := length_replicate
      widths := fun q hq => by
        obtain rfl := eq_of_mem_replicate hq
        omega
      offsets := ?_
      symbols := ?_
      sq4Rows := hcount.symm
      native := by simp [legacyLayout] }
  · simp only [legacyLayout]
    omega
  · have hsum : (List.replicate outputs bits).sum * width / 8 ≤
      packedNbytes (outputs * width) bits := by
      rw [sum_replicate_nat, packedNbytes, Nat.mul_right_comm]
      exact Nat.div_le_div_right (by omega)
    simp only [legacyLayout]
    omega

variable {base : Int}

theorem shape_adaptive {outputs width : Nat} {q : List Nat} (hlength : q.length = outputs)
    (hwidths : ∀ v ∈ q, 1 ≤ v ∧ v ≤ 4) :
    Shape outputs width base (adaptiveOf outputs width base q) := by
  have hoffset : 4 ≤ headerSize := by decide
  refine
    { fields := ⟨rfl, rfl, rfl⟩
      length := hlength
      widths := hwidths
      offsets := ?_
      symbols := ?_
      sq4Rows := rfl
      native := rfl }
  · simp only [adaptiveOf]
    omega
  · simp only [adaptiveOf]
    omega

variable {l : Layout}

theorem layoutByMagic_shape {payload : List UInt8} {version outputs width : Nat}
    (h : layoutByMagic payload version outputs width base = .ok l) :
    Shape outputs width base l := by
  unfold layoutByMagic at h
  dsimp only at h
  split at h
  · obtain ⟨-, h⟩ := guard_eq_ok.mp h
    obtain rfl := Except.ok.inj h
    apply shape_legacy
    split
    · exact .inl rfl
    · exact .inr rfl
  · split at h
    · obtain ⟨-, h⟩ := guard_eq_ok.mp h
      obtain ⟨-, h⟩ := guard_eq_ok.mp h
      obtain ⟨-, h⟩ := guard_eq_ok.mp h
      obtain ⟨-, h⟩ := guard_eq_ok.mp h
      obtain ⟨hq, h⟩ := guard_eq_ok.mp h
      obtain rfl := Except.ok.inj h
      obtain ⟨hlength, hrange⟩ := not_or.mp hq
      apply shape_adaptive
      · rw [length_map]
        exact not_not.mp hlength
      · intro v hv
        obtain ⟨q, hq, rfl⟩ := mem_map.mp hv
        have hrange : 1 ≤ q ∧ q ≤ 4 := by
          simp only [Bool.not_eq_true, List.any_eq_false, Bool.or_eq_true, decide_eq_true_eq, not_or,
            Int.not_lt] at hrange
          exact hrange q hq
        omega
    · cases h

/-- **What is parsed is sound.** -/
theorem parseLayout_sound {payload : List UInt8} (h : parseLayout payload = .ok l) :
    Sound payload l := by
  obtain ⟨-, h⟩ := guard_eq_ok.mp h
  obtain ⟨hmeta, h⟩ := guard_eq_ok.mp h
  obtain ⟨hrows, h⟩ := guard_eq_ok.mp h
  obtain ⟨hwidth, h⟩ := guard_eq_ok.mp h
  obtain ⟨result, hresult, h⟩ := bind_eq_ok.mp h
  obtain ⟨hlength, h⟩ := guard_eq_ok.mp h
  obtain ⟨hnative, h⟩ := guard_eq_ok.mp h
  obtain rfl := pure_eq_ok.mp h
  have hshape := layoutByMagic_shape hresult
  obtain ⟨houtputs, hinputSize, hbase⟩ := hshape.fields
  rw [not_not] at hrows hlength
  refine
    { base := by rw [hbase]; omega
      inputSize := by rw [hinputSize]; omega
      widths := hshape.widths
      rows := by rw [hshape.length]; exact ⟨hrows.1, houtputs.symm⟩
      offsets := hshape.offsets
      symbols := by rw [hlength]; exact hshape.symbols
      sq4Rows := hshape.sq4Rows
      native := fun k hk h255 => ?_ }
  have hend := hshape.native
  refine hnative ⟨fun hzero => ?_, ?_⟩
  · rw [hzero] at hk
    omega
  · rw [mem_iff_getElem]
    refine ⟨k, by rw [length_drop]; omega, ?_⟩
    rw [getElem_drop, ← h255, byte, getD_eq_getElem]

/-! ### The rows of a source -/

/-- A side row of a record: its numbers fit. -/
def RowFits (columns : Nat) (top : Int) (values : List Int) : Prop :=
  values.length = columns ∧ ∀ v ∈ values, 0 ≤ v ∧ v ≤ top

/-- A record that can be built again. -/
structure Record.Ok (inputSize : Nat) (r : Record) : Prop where
  width : 1 ≤ r.q ∧ r.q ≤ 4
  symbols : r.symbols.length = inputSize * r.q / 8
  side : r.q ≠ 4 → ∃ selectors scales palettes, RowFits (inputSize / 32) 1 selectors ∧
    RowFits 8 3 scales ∧ RowFits 8 31 palettes ∧
    r = ⟨r.q, r.symbols, some selectors, some scales, some palettes, none⟩
  native : r.q = 4 → ∃ scales, RowFits (inputSize / 32) 254 scales ∧
    r = ⟨r.q, r.symbols, none, none, none, some scales⟩

theorem unpackedRow_fits (payload : List UInt8) (offset rows columns row : Nat)
    {bits : Nat} {top : Int}
    (hbits : bits ≤ 8) (htop : top = (2 ^ bits : Nat) - 1) :
    RowFits columns top (unpackedRow payload offset rows columns bits row) := by
  refine ⟨by simp [unpackedRow], ?_⟩
  intro v hv
  refine ⟨unpackedRow_nonneg hv, ?_⟩
  obtain ⟨column, -, rfl⟩ := mem_map.mp hv
  have hpos : 0 < 2 ^ bits := Nat.two_pow_pos bits
  have hlt : (unpackBits payload offset (rows * columns) bits).getD (row * columns + column) 0
      < 2 ^ bits := by
    by_cases hindex : row * columns + column < rows * columns
    · rw [getD_unpackBits _ _ hbits hindex]
      exact field_lt _ _ _
    · rw [getD_eq_default _ _ (by rw [length_unpackBits]; omega)]
      exact hpos
  omega

theorem nativeCount_widths (widths : List Nat) :
    nativeCount (fun row => widths.getD row 0) widths.length = widths.count 4 := by
  have hmap : widths = (List.range widths.length).map fun row => widths.getD row 0 := by
    apply ext_getElem
    · simp
    · intro row hrow hrow'
      rw [getElem_map, getElem_range, getD_eq_getElem _ _ hrow]
  conv_rhs => rw [hmap]
  rw [count_eq_countP, countP_map]
  unfold nativeCount
  exact countP_congr fun row _ => by simp

theorem Sound.record_ok {payload : List UInt8} (h : Sound payload l) {row : Nat}
    (hrow : row < l.rowQBits.length) :
    (recordFrom payload l l.inputSize (l.place l.inputSize row) (l.q row)).Ok l.inputSize := by
  have hwidth : 1 ≤ l.q row ∧ l.q row ≤ 4 := by
    apply h.widths
    rw [Layout.q, getD_eq_getElem _ _ hrow]
    exact getElem_mem _
  have hsymbols : ((payload.drop (l.place l.inputSize row).symbolOffset).take
      (l.inputSize * l.q row / 8)).length = l.inputSize * l.q row / 8 := by
    have hsplit : ((l.rowQBits.take row).map fun q => l.inputSize * q / 8).sum
        + l.inputSize * l.rowQBits.getD row 0 / 8
        + ((l.rowQBits.drop (row + 1)).map fun q => l.inputSize * q / 8).sum
        = l.rowQBits.sum * l.inputSize / 8 := by
      rw [← sum_symbol_bytes h.inputSize.2.2]
      conv_rhs => rw [← take_append_drop (row + 1) l.rowQBits]
      rw [take_add_one, getElem?_eq_getElem hrow, getD_eq_getElem _ _ hrow]
      simp only [map_append, sum_append, Option.toList_some, map_singleton,
        sum_singleton]
    have hend := h.symbols
    rw [length_take, length_drop, Nat.min_eq_left]
    change _ ≤ payload.length - (l.symbolsOffset + _)
    unfold Layout.q
    omega
  unfold recordFrom
  dsimp only
  by_cases hq : l.q row = 4
  · rw [if_pos hq]
    refine ⟨hwidth, hsymbols, fun hne => absurd hq hne, fun _ => ⟨_, ⟨by simp, ?_⟩, rfl⟩⟩
    intro v hv
    obtain ⟨column, hcolumn, rfl⟩ := mem_map.mp hv
    rw [mem_range] at hcolumn
    have hlt : nativeCount l.q row < l.sq4Rows := by
      have hmono : nativeCount l.q (row + 1) ≤ nativeCount l.q l.rowQBits.length :=
        nativeCount_mono hrow
      rw [nativeCount_succ, if_pos hq] at hmono
      rw [h.sq4Rows, ← nativeCount_widths]
      exact hmono
    have hmul : (nativeCount l.q row + 1) * (l.inputSize / 32) ≤ l.sq4Rows * (l.inputSize / 32) :=
      Nat.mul_le_mul_right _ hlt
    rw [Nat.succ_mul] at hmul
    have hne := h.native (nativeCount l.q row * (l.inputSize / 32) + column) (by omega)
    have hcode {code : UInt8} (hcode : code ≠ 255) :
        0 ≤ (code.toNat : Int) ∧ (code.toNat : Int) ≤ 254 := by
      have hlt := code.toNat_lt
      have hne : code.toNat ≠ 255 := fun heq => hcode (UInt8.toNat_inj.mp heq)
      omega
    exact hcode hne
  · rw [if_neg hq]
    refine ⟨hwidth, hsymbols, fun _ => ⟨_, _, _, unpackedRow_fits _ _ _ _ _ (by decide) (by decide),
      unpackedRow_fits _ _ _ _ _ (by decide) (by decide),
      unpackedRow_fits _ _ _ _ _ (by decide) (by decide), rfl⟩, fun heq => absurd heq hq⟩

/-- **The rows of a source** can be built again. -/
theorem Sound.records_ok {payload : List UInt8} (h : Sound payload l) :
    ∀ r ∈ recordsOf payload l l.inputSize, r.Ok l.inputSize := by
  rw [recordsOf_eq]
  intro r hr
  obtain ⟨row, hrow, rfl⟩ := mem_map.mp hr
  exact h.record_ok (mem_range.mp hrow)

/-! ### The older magic -/

section Magic

variable {payload : List UInt8}

/-- What `pack_mxfp4_sq` writes for a payload with the older magic. -/
def upgraded (payload : List UInt8) : List UInt8 := legacyMagicThree ++ payload.drop 4

theorem length_upgraded (h : 4 ≤ payload.length) : (upgraded payload).length = payload.length := by
  rw [upgraded, length_append, length_drop]
  change 4 + (payload.length - 4) = payload.length
  omega

theorem drop_upgraded {offset : Nat} (h : 4 ≤ offset) :
    (upgraded payload).drop offset = payload.drop offset := by
  obtain ⟨k, rfl⟩ := Nat.exists_eq_add_of_le h
  change (legacyMagicThree ++ payload.drop 4).drop (legacyMagicThree.length + k) = _
  rw [drop_append, drop_eq_nil_of_le (by omega), List.nil_append, drop_drop,
    Nat.add_sub_cancel_left]

theorem byte_upgraded {k : Nat} (h : 4 ≤ k) : byte (upgraded payload) k = byte payload k := by
  have hdrop : byte ((upgraded payload).drop k) 0 = byte (payload.drop k) 0 := by
    rw [drop_upgraded h]
  simpa [byte, getD_eq_getElem?_getD] using hdrop

theorem unpackedRow_upgraded {offset : Nat} (h : 4 ≤ offset) (rows columns bits row : Nat) :
    unpackedRow (upgraded payload) offset rows columns bits row
      = unpackedRow payload offset rows columns bits row := by
  have hunpack : unpackBits (upgraded payload) offset (rows * columns) bits
      = unpackBits payload offset (rows * columns) bits := by
    unfold unpackBits
    apply map_congr_left
    intro index _
    dsimp only
    rw [byte_upgraded (by omega), byte_upgraded (by omega)]
  rw [unpackedRow, hunpack, unpackedRow]

theorem recordsOf_upgraded (h : Sound payload l) :
    recordsOf (upgraded payload) l l.inputSize = recordsOf payload l l.inputSize := by
  obtain ⟨hsymbols, hselectors, hscales, hpalettes, hnative⟩ := h.offsets
  rw [recordsOf_eq, recordsOf_eq]
  apply map_congr_left
  intro row _
  have hplace : 4 ≤ (l.place l.inputSize row).symbolOffset := le_trans hsymbols (Nat.le_add_right _ _)
  unfold recordFrom
  dsimp only
  rw [drop_upgraded hplace, unpackedRow_upgraded hselectors, unpackedRow_upgraded hscales,
    unpackedRow_upgraded hpalettes]
  split
  · congr 2
    apply map_congr_left
    intro column _
    rw [byte_upgraded (by omega)]
  · rfl

theorem parseLayout_upgraded (h : parseLayout payload = .ok l)
    (hmagic : payload.take 4 = legacySq3Magic) : parseLayout (upgraded payload) = .ok l := by
  obtain ⟨hheader, h⟩ := guard_eq_ok.mp h
  have hle : 24 ≤ payload.length := Nat.not_lt.mp hheader
  have hold : window (byte payload) 0 4 = legacySq3Magic := by
    refine window_eq rfl fun k hk => ?_
    rw [← hmagic, byte, byte, getD_eq_getElem?_getD, getD_eq_getElem?_getD,
      getElem?_take_of_lt hk, Nat.zero_add]
  have hnew : window (byte (upgraded payload)) 0 4 = legacyMagicThree := by
    refine window_eq rfl fun k hk => ?_
    rw [upgraded, byte_append, if_pos (by change _ < 4; omega), Nat.zero_add]
  have hlayout (version outputs width : Nat) (base : Int) :
      layoutByMagic (upgraded payload) version outputs width base
        = layoutByMagic payload version outputs width base := by
    unfold layoutByMagic
    dsimp only
    rw [hold, hnew]
    simp [legacyMagicThree, legacySq2Magic, legacySq3Magic]
  have hread {offset : Nat} (hoffset : 4 ≤ offset) (size : Nat) :
      readLE (byte (upgraded payload)) offset size = readLE (byte payload) offset size :=
    readLE_congr fun k _ => byte_upgraded (by omega)
  obtain ⟨hmeta, h⟩ := guard_eq_ok.mp h
  obtain ⟨hrows, h⟩ := guard_eq_ok.mp h
  obtain ⟨hwidth, h⟩ := guard_eq_ok.mp h
  obtain ⟨result, hresult, h⟩ := bind_eq_ok.mp h
  have hnative := (layoutByMagic_shape hresult).offsets.2.2.2.2
  unfold parseLayout
  dsimp only
  rw [length_upgraded (by omega), byte_upgraded (by omega), byte_upgraded (by omega),
    hread (by omega), hread (by omega), hread (by omega), hlayout, if_neg hheader, if_neg hmeta,
    if_neg hrows, if_neg hwidth, bind_of_ok hresult, drop_upgraded hnative]
  exact h

end Magic

/-! ### The rows of all sources -/

/-- A tensor that `pack_mxfp4_sq` takes. -/
def Mxfp4SqTensor.Valid (tensor : Mxfp4SqTensor) : Prop := ∃ payload, packMxfp4Sq tensor = .ok payload

/-- The rows of all tensors, each read through its layout. -/
def sourceRows (tensors : List Mxfp4SqTensor) : Except PyError (List Record) := do
  let rows ← tensors.mapM fun tensor => readRows tensor.payload
  pure rows.flatten

variable {tensor : Mxfp4SqTensor}

theorem packMxfp4Sq_eq_ok {payload : List UInt8} (h : packMxfp4Sq tensor = .ok payload) :
    ∃ l, parseLayout tensor.payload = .ok l ∧ parseLayout payload = .ok l ∧
      recordsOf payload l l.inputSize = recordsOf tensor.payload l l.inputSize ∧
      l.outputSize = tensor.outputSize ∧ l.inputSize = tensor.inputSize ∧
      l.base = tensor.matrixScaleBase := by
  obtain ⟨parsed, hparsed, h⟩ := bind_eq_ok.mp h
  obtain ⟨hmeta, h⟩ := guard_eq_ok.mp h
  obtain ⟨l, hl, hparsed⟩ := bind_eq_ok.mp hparsed
  obtain rfl := pure_eq_ok.mp hparsed
  simp only [not_or, not_not] at hmeta
  obtain ⟨-, houtputs, hinputSize, hbase, -⟩ := hmeta
  by_cases hmagic : tensor.payload.take 4 = legacySq3Magic
  · rw [if_pos hmagic] at h
    obtain rfl := pure_eq_ok.mp h
    exact ⟨l, hl, parseLayout_upgraded hl hmagic, recordsOf_upgraded (parseLayout_sound hl), houtputs,
      hinputSize, hbase⟩
  · rw [if_neg hmagic] at h
    obtain rfl := pure_eq_ok.mp h
    exact ⟨l, hl, hl, rfl, houtputs, hinputSize, hbase⟩

/-- What a valid tensor says of itself is within the bounds of the format. -/
theorem Mxfp4SqTensor.Valid.bounds (h : tensor.Valid) :
    0 < tensor.outputSize ∧
      (0 < tensor.inputSize ∧ tensor.inputSize ≤ 0x7fffffff ∧ tensor.inputSize % 32 = 0) ∧
      0 ≤ tensor.matrixScaleBase ∧ tensor.matrixScaleBase ≤ 251 := by
  obtain ⟨payload, hpayload⟩ := h
  obtain ⟨l, hl, -, -, houtputs, hinputSize, hbase⟩ := packMxfp4Sq_eq_ok hpayload
  have hsound := parseLayout_sound hl
  rw [← houtputs, ← hinputSize, ← hbase, ← hsound.rows.2]
  exact ⟨hsound.rows.1, hsound.inputSize, hsound.base⟩

theorem addSource_eq (h : tensor.Valid) :
    ∃ rows, readRows tensor.payload = .ok rows ∧ (∀ r ∈ rows, r.Ok tensor.inputSize) ∧
      rows.length = tensor.outputSize ∧
      ∀ records, addSource tensor.inputSize tensor.matrixScaleBase records tensor =
        .ok (records ++ rows) := by
  obtain ⟨payload, hpayload⟩ := h
  obtain ⟨l, hl, hparse, hrecords, houtputs, hinputSize, hbase⟩ := packMxfp4Sq_eq_ok hpayload
  have hsound := parseLayout_sound hl
  refine ⟨recordsOf tensor.payload l l.inputSize, bind_of_ok hl _, ?_, ?_, ?_⟩
  · rw [← hinputSize]
    exact hsound.records_ok
  · rw [recordsOf_eq, length_map, List.length_range, hsound.rows.2, houtputs]
  · intro records
    unfold addSource
    rw [bind_of_ok hpayload, bind_of_ok hparse, if_neg (not_not.mpr hinputSize),
      if_neg (not_not.mpr hbase), ← hinputSize, hrecords]
    rfl

/-- **The loop over the sources** collects their rows. -/
theorem addSources_eq {inputSize : Nat} {tensors : List Mxfp4SqTensor}
    (h : ∀ t ∈ tensors, t.Valid ∧ t.inputSize = inputSize ∧ t.matrixScaleBase = base) :
    ∃ source, sourceRows tensors = .ok source ∧ (∀ r ∈ source, r.Ok inputSize) ∧
      source.length = (tensors.map Mxfp4SqTensor.outputSize).sum ∧
      ∀ records, tensors.foldlM (addSource inputSize base) records = .ok (records ++ source) := by
  induction tensors with
  | nil => exact ⟨[], rfl, by simp, rfl, fun records => by simp; rfl⟩
  | cons t tensors ih =>
    obtain ⟨hvalid, rfl, rfl⟩ := h t mem_cons_self
    obtain ⟨rows, hrows, hok, hlength, hstep⟩ := addSource_eq hvalid
    obtain ⟨source, hsource, hoks, hlengths, hsteps⟩ :=
      ih fun t ht => h t (mem_cons_of_mem _ ht)
    obtain ⟨lists, hlists, hflatten⟩ := bind_eq_ok.mp hsource
    obtain rfl := pure_eq_ok.mp hflatten
    refine ⟨rows ++ lists.flatten, ?_, ?_, ?_, ?_⟩
    · unfold sourceRows
      rw [mapM_cons, bind_of_ok hrows, bind_of_ok hlists]
      rfl
    · intro r hr
      rcases mem_append.mp hr with hr | hr
      · exact hok r hr
      · exact hoks r hr
    · rw [length_append, hlength, hlengths, map_cons, sum_cons]
    · intro records
      rw [foldlM_cons, bind_of_ok (hstep records), hsteps, List.append_assoc]

end TyloQuant.Formats.Mxfp4Sq
