import TyloQuant.Formats.Mxfp4SqBuilder

/-!
# Rows of MXFP4-SQ tensors

The rows of a built tensor are read back, and compared with the input.  A number that is negative is
lost: nothing looks at it, and its bits go to its neighbours.
-/

namespace TyloQuant.Formats.Mxfp4Sq

open Lib Bytes ByteFile Bits List
open TyloQuant.Mxfp4Sq (sqCount nativeCount sqCount_succ nativeCount_succ sqCount_mono
  nativeCount_mono sqCount_add_nativeCount)

variable {i : Nat}

namespace BuildInput

variable {b : BuildInput}

/-! ### Reading back -/

/-- The record that the input describes: a row takes the next row of the arrays of its width. -/
def record (b : BuildInput) (row : Nat) : Record :=
  let symbols := b.rowSymbols.getD row []
  if b.q row = 4 then
    ⟨b.q row, symbols, none, none, none, some (b.sq4NativeScales.row (nativeCount b.q row))⟩
  else
    ⟨b.q row, symbols, some (b.sqBlockSelectors.row (sqCount b.q row)),
      some (b.sqStateScales.row (sqCount b.q row)),
      some (b.sqStatePalettes.row (sqCount b.q row)), none⟩

def records (b : BuildInput) : List Record := (List.range b.outputs).map b.record

theorem sq4Rows_eq : b.layout.sq4Rows = nativeCount b.q b.outputs := by
  have hmap : b.rowQBits.map Int.toNat = (List.range b.outputs).map b.q := by
    apply ext_getElem
    · simp [outputs]
    · intro row hrow hrow'
      have hlt : row < b.rowQBits.length := by simpa using hrow
      rw [getElem_map, getElem_map, getElem_range, q, getD_eq_getElem _ _ hlt]
  change (b.rowQBits.map Int.toNat).count 4 = _
  rw [hmap, count_eq_countP, countP_map]
  unfold nativeCount
  exact countP_congr fun row _ => by simp

theorem sqRows_eq : b.layout.sqRows = sqCount b.q b.outputs := by
  have hsum := sqCount_add_nativeCount b.q b.outputs
  change b.outputs - b.layout.sq4Rows = _
  rw [sq4Rows_eq]
  omega

variable {row : Nat}

theorem sqCount_lt (hrow : row < b.outputs) (hq : b.q row ≠ 4) :
    sqCount b.q row < b.layout.sqRows := by
  have hmono : sqCount b.q (row + 1) ≤ sqCount b.q b.outputs := sqCount_mono hrow
  rw [sqCount_succ, if_neg hq] at hmono
  rw [sqRows_eq]
  omega

theorem nativeCount_lt (hrow : row < b.outputs) (hq : b.q row = 4) :
    nativeCount b.q row < b.layout.sq4Rows := by
  have hmono : nativeCount b.q (row + 1) ≤ nativeCount b.q b.outputs := nativeCount_mono hrow
  rw [nativeCount_succ, if_pos hq] at hmono
  rw [sq4Rows_eq]
  omega

/-- An array of numbers that fit is read back, row by row. -/
theorem unpackedRow_payload {offset rows columns bits : Nat} {a : IntArray}
    (hat : b.PartAt offset (packArray a bits)) (hshape : a.shape = (rows, columns))
    (hbits : bits ≤ 8) (hfits : a.Fits bits) (hrow : row < rows) :
    unpackedRow b.payload offset rows columns bits row = a.row row := by
  obtain ⟨before, after, hpayload, hoffset⟩ := hat
  obtain ⟨hrows, hcolumns⟩ := shape_eq.mp hshape
  subst hrows hcolumns
  rw [hpayload, ← hoffset, unpackedRow_eq hbits hfits hrow]

theorem native_payload (h : b.Accepted) {j : Nat} (hi : i < b.layout.sq4Rows) (hj : j < b.blocks) :
    byte b.payload (b.layout.nativeScalesOffset + (i * b.blocks + j))
      = uint8 (b.sq4NativeScales.entry i j) := by
  obtain ⟨before, after, hpayload, hoffset⟩ := natives_at h.shaped
  obtain ⟨hrows, hcolumns⟩ := shape_eq.mp h.shaped.nativeScales
  have hmul : (i + 1) * b.blocks ≤ b.layout.sq4Rows * b.blocks := Nat.mul_le_mul_right _ hi
  rw [Nat.succ_mul] at hmul
  have hk : i * b.blocks + j < b.sq4NativeScales.flat.length := by
    rw [IntArray.length_flat, hrows, hcolumns]
    omega
  have hentry := IntArray.getD_flat (a := b.sq4NativeScales) (i := i) (j := j) (by rwa [hrows])
    (by rwa [hcolumns])
  rw [hcolumns, getD_eq_getElem _ _ hk] at hentry
  rw [hpayload, ← hoffset, byte_flatten _ _ _ (by simpa using hk), byte,
    getD_eq_getElem _ _ (by simpa using hk), getElem_map, hentry]

theorem stateScales_fit (h : b.Accepted) (hnonneg : b.NonNegative) : b.sqStateScales.Fits 2 := by
  intro v hv
  have hle := h.stateScales_le v hv
  exact ⟨hnonneg.1 v hv, by norm_num; omega⟩

theorem statePalettes_fit (h : b.Accepted) (hnonneg : b.NonNegative) : b.sqStatePalettes.Fits 5 := by
  intro v hv
  have hle := h.statePalettes_le v hv
  exact ⟨hnonneg.2.1 v hv, by norm_num; omega⟩

theorem selectors_fit (h : b.Accepted) : b.sqBlockSelectors.Fits 1 := by
  intro v hv
  have hle := h.binary v hv
  exact ⟨hle.1, by norm_num; omega⟩

/-- **A row that was built** is the row of the input. -/
theorem record_payload (h : b.Accepted) (hnonneg : b.NonNegative) (hrow : row < b.outputs) :
    recordFrom b.payload b.layout b.width (b.layout.place b.width row) (b.layout.q row)
      = b.record row := by
  have hcounts : (b.layout.place b.width row).sqRow = sqCount b.q row ∧
      (b.layout.place b.width row).nativeRow = nativeCount b.q row := by
    rw [← funext layout_q]
    exact ⟨rfl, rfl⟩
  unfold recordFrom record
  dsimp only
  rw [hcounts.1, hcounts.2, layout_q, symbols_payload h.shaped hrow]
  by_cases hq : b.q row = 4
  · rw [if_pos hq, if_pos hq]
    have hlt := nativeCount_lt hrow hq
    obtain ⟨hrows, hcolumns⟩ := shape_eq.mp h.shaped.nativeScales
    have hnative : ((List.range (b.width / 32)).map fun column =>
        ((byte b.payload (b.layout.nativeScalesOffset
          + (nativeCount b.q row * (b.width / 32) + column))).toNat : Int))
        = b.sq4NativeScales.row (nativeCount b.q row) := by
      unfold IntArray.row
      rw [hcolumns]
      apply map_congr_left
      intro column hcolumn
      rw [mem_range] at hcolumn
      have hmem : b.sq4NativeScales.entry (nativeCount b.q row) column ∈ b.sq4NativeScales.flat :=
        IntArray.mem_flat.mpr ⟨_, by rwa [hrows],
          mem_map.mpr ⟨column, mem_range.mpr (by rwa [hcolumns]), rfl⟩⟩
      have hle := h.nativeScales_le _ hmem
      have hcast := toNat_uint8 (hnonneg.2.2 _ hmem) (by omega)
      have hbyte := native_payload h hlt hcolumn
      unfold blocks at hbyte
      rw [hbyte, hcast]
    rw [hnative]
  · rw [if_neg hq, if_neg hq]
    have hlt := sqCount_lt hrow hq
    have hselectors := unpackedRow_payload (selectors_at h.shaped) h.shaped.selectors (by decide)
      (selectors_fit h) hlt
    have hscales := unpackedRow_payload (scales_at h.shaped) h.shaped.stateScales (by decide)
      (stateScales_fit h hnonneg) hlt
    have hpalettes := unpackedRow_payload (palettes_at h.shaped) h.shaped.statePalettes (by decide)
      (statePalettes_fit h hnonneg) hlt
    unfold blocks at hselectors
    rw [hselectors, hscales, hpalettes]

end BuildInput

/-- The rows of a payload, through the layout that `unpack_mxfp4_sq` finds. -/
def readRows (payload : List UInt8) : Except PyError (List Record) := do
  let layout ← parseLayout payload
  pure (recordsOf payload layout layout.inputSize)

/-- Building refuses the input, or returns a tensor of its rows. -/
def Lossless (b : BuildInput) : Prop :=
  ∀ t, buildMxfp4Sq b = .ok t → readRows t.payload = .ok b.records ∧
    (t.inputSize : Int) = b.inputSize ∧ t.matrixScaleBase = b.matrixScaleBase

namespace BuildInput

variable {b : BuildInput}

theorem readRows_payload (h : b.Accepted) : readRows b.payload
    = .ok ((List.range b.outputs).map fun row =>
      recordFrom b.payload b.layout b.width (b.layout.place b.width row) (b.layout.q row)) := by
  have hdims := h.dimensions
  have hbase := h.base
  have hinput := h.shaped.inputSize
  have hwidth : (b.width : Int) = b.inputSize := by
    unfold width
    omega
  have hparse := (parse_payload h.shaped (by omega) ⟨by omega, by omega⟩).mpr
    ⟨⟨by omega, by omega⟩, by omega, h.native, rfl⟩
  have hlength : b.layout.rowQBits.length = b.outputs := by simp [layout, adaptiveOf, outputs]
  unfold readRows
  rw [bind_of_ok hparse]
  change Except.ok (recordsOf b.payload b.layout b.width) = _
  rw [recordsOf_eq, hlength]

theorem exists_counted {p : Nat → Bool} {n : Nat} (hi : i < (List.range n).countP p) :
    ∃ row < n, p row = true ∧ (List.range row).countP p = i := by
  induction n with
  | zero => cases hi
  | succ n ih =>
    rw [range_succ, countP_append, countP_singleton] at hi
    by_cases hbefore : i < (List.range n).countP p
    · obtain ⟨row, hrow, hcount⟩ := ih hbefore
      exact ⟨row, by omega, hcount⟩
    · split at hi
      · rename_i hp
        exact ⟨n, by omega, hp, by omega⟩
      · omega

/-- Every row of an array belongs to a row of the matrix. -/
theorem exists_sqRow (hi : i < b.layout.sqRows) :
    ∃ row < b.outputs, b.q row ≠ 4 ∧ sqCount b.q row = i := by
  rw [sqRows_eq] at hi
  obtain ⟨row, hrow, hq, hcount⟩ := exists_counted hi
  exact ⟨row, hrow, of_decide_eq_true hq, hcount⟩

theorem exists_nativeRow (hi : i < b.layout.sq4Rows) :
    ∃ row < b.outputs, b.q row = 4 ∧ nativeCount b.q row = i := by
  rw [sq4Rows_eq] at hi
  obtain ⟨row, hrow, hq, hcount⟩ := exists_counted hi
  exact ⟨row, hrow, of_decide_eq_true hq, hcount⟩

/-- Nothing negative is read back, so that a negative number is lost. -/
theorem nonNegative_of_readRows (h : b.Accepted) (hread : readRows b.payload = .ok b.records) :
    b.NonNegative := by
  have hrecord {row : Nat} (hrow : row < b.outputs) :
      recordFrom b.payload b.layout b.width (b.layout.place b.width row) (b.layout.q row)
        = b.record row := by
    have hlists := Except.ok.inj ((readRows_payload h).symm.trans hread)
    exact map_inj_left.mp hlists row (mem_range.mpr hrow)
  have hside {row : Nat} (hrow : row < b.outputs) (hq : b.q row ≠ 4) :
      (∀ v ∈ b.sqStateScales.row (sqCount b.q row), 0 ≤ v) ∧
        ∀ v ∈ b.sqStatePalettes.row (sqCount b.q row), 0 ≤ v := by
    have heq := hrecord hrow
    unfold recordFrom record at heq
    dsimp only at heq
    rw [layout_q, if_neg hq, if_neg hq, Record.mk.injEq] at heq
    obtain ⟨-, -, -, hscales, hpalettes, -⟩ := heq
    constructor
    · intro v hv
      rw [← Option.some.inj hscales] at hv
      exact unpackedRow_nonneg hv
    · intro v hv
      rw [← Option.some.inj hpalettes] at hv
      exact unpackedRow_nonneg hv
  refine ⟨fun v hv => ?_, fun v hv => ?_, fun v hv => ?_⟩
  · obtain ⟨i, hi, hv⟩ := IntArray.mem_flat.mp hv
    obtain ⟨hrows, -⟩ := shape_eq.mp h.shaped.stateScales
    obtain ⟨row, hrow, hq, rfl⟩ := exists_sqRow (by rwa [hrows] at hi)
    exact (hside hrow hq).1 v hv
  · obtain ⟨i, hi, hv⟩ := IntArray.mem_flat.mp hv
    obtain ⟨hrows, -⟩ := shape_eq.mp h.shaped.statePalettes
    obtain ⟨row, hrow, hq, rfl⟩ := exists_sqRow (by rwa [hrows] at hi)
    exact (hside hrow hq).2 v hv
  · obtain ⟨i, hi, hv⟩ := IntArray.mem_flat.mp hv
    obtain ⟨hrows, -⟩ := shape_eq.mp h.shaped.nativeScales
    obtain ⟨row, hrow, hq, rfl⟩ := exists_nativeRow (by rwa [hrows] at hi)
    have heq := hrecord hrow
    unfold recordFrom record at heq
    dsimp only at heq
    rw [layout_q, if_pos hq, if_pos hq, Record.mk.injEq] at heq
    obtain ⟨-, -, -, -, -, hnative⟩ := heq
    rw [← Option.some.inj hnative] at hv
    obtain ⟨column, -, rfl⟩ := mem_map.mp hv
    exact Int.natCast_nonneg _

/-- **When building is lossless**: the input is refused, or has no negative number. -/
theorem lossless_iff : Lossless b ↔ (b.Accepted → b.NonNegative) := by
  constructor
  · intro hlossless h
    exact nonNegative_of_readRows h (hlossless _ (buildMxfp4Sq_eq_ok.mpr ⟨h, rfl⟩)).1
  · intro himp t ht
    obtain ⟨h, rfl⟩ := buildMxfp4Sq_eq_ok.mp ht
    have hinput := h.shaped.inputSize
    refine ⟨(readRows_payload h).trans (congrArg Except.ok ?_), ?_, rfl⟩
    · apply map_congr_left
      intro row hrow
      exact record_payload h (himp h) (mem_range.mp hrow)
    · change (b.inputSize.toNat : Int) = b.inputSize
      omega

end BuildInput

end TyloQuant.Formats.Mxfp4Sq
