import Mathlib.Data.Nat.ModEq
import TyloQuant.Formats.Fp8SqBuilder

/-!
# Slices

A slice that is aligned to the scale blocks has the codes and the scales of the source, and slicing
again is slicing once.  The only slices that are refused are those of a source whose row offsets do
not fit 32 bits.
-/

namespace TyloQuant.Fp8Sq

open Lib Bytes ByteFile Bits

/-- Ranges of rows and columns that end at the blocks of a matrix or at its edge. -/
structure Aligned (l : Layout) (rowBegin rowEnd columnBegin columnEnd : Int) : Prop where
  rows : 0 ≤ rowBegin ∧ rowBegin < rowEnd ∧ rowEnd ≤ l.outputs
  columns : 0 ≤ columnBegin ∧ columnBegin < columnEnd ∧ columnEnd ≤ l.width
  begins : rowBegin % l.blockRows = 0 ∧ columnBegin % l.blockColumns = 0
  rowEnd_mod : rowEnd = l.outputs ∨ rowEnd % l.blockRows = 0
  columnEnd_mod : columnEnd = l.width ∨ columnEnd % l.blockColumns = 0

/-- The offsets of all rows fit 32 bits. -/
def SmallOffsets (data : List UInt8) (l : Layout) : Prop :=
  ∀ row < l.outputs, symbolOffset data l row < 2 ^ 32

namespace Cut

variable {x : Cut} {i j : Nat}

/-- **An element of the part is one of the source.** -/
theorem element_result (hi : i < x.slicing.outputs) (hj : j < x.slicing.width) :
    elementCode x.result (x.header.layout x.result x.family) i j
      = elementCode x.source (x.h.layout x.source x.family) (x.rowBegin + i) (x.columnBegin + j) ∧
    scaleCell x.result (x.header.layout x.result x.family) i j
      = scaleCell x.source (x.h.layout x.source x.family) (x.rowBegin + i) (x.columnBegin + j) := by
  have hq := x.q_range i
  have hrow : readQ (fun k => byte x.result
      ((x.header.layout x.result x.family).qSelectors + k)) i = x.q i := readQ_result hi
  have hrow' : readQ (fun k => byte x.source
      ((x.h.layout x.source x.family).qSelectors + k)) (x.rowBegin + i) = x.q i := rfl
  have hoffset : symbolOffset x.result (x.header.layout x.result x.family) i = x.symbolStart i :=
    symbolBytes_result hi.le
  have hsymbols : (x.header.layout x.result x.family).symbols = symbolsAt x.slicing.outputs := rfl
  constructor
  · have hfield : field (byte x.result)
        (8 * (symbolsAt x.slicing.outputs + x.symbolStart i) + j * x.q i) (x.q i)
        = field (byte x.source) (8 * (symbolsAt x.h.outputs
          + symbolBytes x.source x.h.width (x.rowBegin + i)) + (x.columnBegin + j) * x.q i)
          (x.q i) := by
      rw [field_eq_iff]
      intro t ht
      have hmul : (j + 1) * x.q i ≤ x.slicing.width * x.q i := Nat.mul_le_mul_right _ hj
      rw [Nat.succ_mul] at hmul
      rw [Nat.add_assoc _ (j * x.q i), row_bit hi (by omega), Nat.add_mul]
      congr 1
      omega
    unfold elementCode
    rw [hrow, hrow', hoffset, decodeCode_eq _ _ hq, decodeCode_eq _ _ hq, hsymbols, hfield]
    change _ = if x.q i = 8 then field (byte x.source) (8 * (symbolsAt x.h.outputs
      + symbolBytes x.source x.h.width (x.rowBegin + i)) + (x.columnBegin + j) * x.q i) (x.q i)
      else _
    by_cases hraw : x.q i = 8
    · rw [if_pos hraw, if_pos hraw]
    · rw [if_neg hraw, if_neg hraw]
      have hlt := field_lt (byte x.source) (8 * (symbolsAt x.h.outputs
        + symbolBytes x.source x.h.width (x.rowBegin + i)) + (x.columnBegin + j) * x.q i) (x.q i)
      have hpow : 2 ^ x.q i ≤ 2 ^ 7 := Nat.pow_le_pow_right (by omega) (by omega)
      have hpalette := palette_result (x := x) (2 ^ x.q i - 2 + field (byte x.source)
        (8 * (symbolsAt x.h.outputs + symbolBytes x.source x.h.width (x.rowBegin + i))
          + (x.columnBegin + j) * x.q i) (x.q i)) (by change _ < 256; omega)
      rw [← Nat.add_assoc, ← Nat.add_assoc] at hpalette
      exact congrArg UInt8.toNat hpalette
  · have hblocks := x.wellFormed.geometry.blocks
    have hr : i / x.h.blockRows < x.slicing.scaleRows := by
      change _ < (x.slicing.outputs + x.h.blockRows - 1) / x.h.blockRows
      rw [Nat.lt_iff_add_one_le, Nat.le_div_iff_mul_le hblocks.1, Nat.succ_mul]
      have hle := Nat.div_mul_le_self i x.h.blockRows
      omega
    have hc : j / x.h.blockColumns < x.slicing.scaleColumns := by
      change _ < (x.slicing.width + x.h.blockColumns - 1) / x.h.blockColumns
      rw [Nat.lt_iff_add_one_le, Nat.le_div_iff_mul_le hblocks.2, Nat.succ_mul]
      have hle := Nat.div_mul_le_self j x.h.blockColumns
      omega
    have hrows : (x.rowBegin + i) / x.h.blockRows
        = x.rowBegin / x.h.blockRows + i / x.h.blockRows :=
      Nat.add_div_of_dvd_right (Nat.dvd_of_mod_eq_zero x.rowBegin_mod)
    have hcolumns : (x.columnBegin + j) / x.h.blockColumns
        = x.columnBegin / x.h.blockColumns + j / x.h.blockColumns :=
      Nat.add_div_of_dvd_right (Nat.dvd_of_mod_eq_zero x.columnBegin_mod)
    refine window_congr fun k hk => ?_
    have hbyte := scale_byte hr hc hk
    rw [← hrows, ← hcolumns] at hbyte
    exact hbyte

/-! ### A part of a part -/

theorem symbolBytes_le_source (hi : i ≤ x.slicing.outputs) :
    symbolBytes x.result x.slicing.width i ≤ symbolBytes x.source x.h.width (x.rowBegin + i) := by
  induction i with
  | zero => exact Nat.zero_le _
  | succ i ih =>
    have hprev := ih (by omega)
    have hle := x.width_le
    have hpacked : packedNbytes x.slicing.width (x.q i) ≤ packedNbytes x.h.width (x.q i) := by
      have hmul : x.slicing.width * x.q i ≤ x.h.width * x.q i := Nat.mul_le_mul_right _ (by omega)
      unfold packedNbytes
      omega
    have hq : readQ (selectors x.source) (x.rowBegin + i) = x.q i := rfl
    rw [symbolBytes_succ, readQ_result (by omega), ← Nat.add_assoc, symbolBytes_succ, hq]
    omega

/-- The part of a part. -/
structure Within (x y z : Cut) : Prop where
  family : y.family = x.family ∧ z.family = x.family
  source : y.source = x.result ∧ z.source = x.source
  header : y.h = x.header ∧ z.h = x.h
  rows : z.rowBegin = x.rowBegin + y.rowBegin ∧ z.rowEnd = x.rowBegin + y.rowEnd
  columns : z.columnBegin = x.columnBegin + y.columnBegin ∧
    z.columnEnd = x.columnBegin + y.columnEnd

section Within

variable {x y z : Cut} (h : Within x y z)

include h

theorem Within.outputs : y.slicing.outputs = z.slicing.outputs := by
  obtain ⟨hbegin, hend⟩ := h.rows
  change y.rowEnd - y.rowBegin = z.rowEnd - z.rowBegin
  omega

theorem Within.width : y.slicing.width = z.slicing.width := by
  obtain ⟨hbegin, hend⟩ := h.columns
  change y.columnEnd - y.columnBegin = z.columnEnd - z.columnBegin
  omega

theorem Within.blocks : y.slicing.scaleRows = z.slicing.scaleRows ∧
    y.slicing.scaleColumns = z.slicing.scaleColumns ∧ y.slicing.itemsize = z.slicing.itemsize := by
  have hrows : y.slicing.scaleRows = (y.slicing.outputs + y.h.blockRows - 1) / y.h.blockRows := rfl
  have hcolumns : y.slicing.scaleColumns
      = (y.slicing.width + y.h.blockColumns - 1) / y.h.blockColumns := rfl
  have hitem : y.slicing.itemsize = scaleItemsize y.h.scaleKind := rfl
  rw [hrows, hcolumns, hitem, h.outputs, h.width, h.header.1]
  change (z.slicing.outputs + x.h.blockRows - 1) / x.h.blockRows = _ ∧
    (z.slicing.width + x.h.blockColumns - 1) / x.h.blockColumns = _ ∧ scaleItemsize x.h.scaleKind = _
  rw [← h.header.2]
  exact ⟨rfl, rfl, rfl⟩

theorem Within.rowEnd_le : y.rowBegin + y.slicing.outputs ≤ x.slicing.outputs := by
  have hle := y.outputs_le
  rwa [h.header.1] at hle

theorem Within.columnEnd_le : y.columnBegin + y.slicing.width ≤ x.slicing.width := by
  have hle := y.width_le
  rwa [h.header.1] at hle

theorem Within.q_eq (hi : i < y.slicing.outputs) : y.q i = x.q (y.rowBegin + i) ∧
    y.q i = z.q i := by
  have hle := h.rowEnd_le
  have hq : y.q i = x.q (y.rowBegin + i) := by
    rw [q, h.source.1, readQ_result (by omega)]
  refine ⟨hq, ?_⟩
  rw [hq, q, q, h.source.2, h.rows.1, Nat.add_assoc]

theorem Within.symbolStart_eq (hi : i ≤ y.slicing.outputs) : y.symbolStart i = z.symbolStart i := by
  induction i with
  | zero => rfl
  | succ i ih =>
    rw [symbolStart_succ, symbolStart_succ, ih (by omega), h.width, (h.q_eq (by omega)).2]

theorem Within.symbolStart_all :
    y.symbolStart z.slicing.outputs = z.symbolStart z.slicing.outputs := by
  rw [← h.outputs]
  exact h.symbolStart_eq le_rfl

theorem Within.rowSymbols_eq (hi : i < y.slicing.outputs) : y.rowSymbols i = z.rowSymbols i := by
  have hle := h.rowEnd_le
  have hcolumn := h.columnEnd_le
  obtain ⟨hq, hq'⟩ := h.q_eq hi
  unfold rowSymbols
  rw [← h.width, ← hq', h.source.1, h.source.2, h.header.1, h.header.2]
  change bitRange (byte x.result) (8 * (symbolsAt x.slicing.outputs
    + symbolBytes x.result x.slicing.width (y.rowBegin + i)) + y.columnBegin * y.q i) _ = _
  rw [symbolBytes_result (by omega)]
  apply bitRange_congr
  intro t ht
  have hmul : (y.columnBegin + y.slicing.width) * y.q i ≤ x.slicing.width * y.q i :=
    Nat.mul_le_mul_right _ hcolumn
  rw [Nat.add_mul] at hmul
  have hbit := row_bit (x := x) (i := y.rowBegin + i) (t := y.columnBegin * y.q i + t) (by omega)
    (by rw [← hq]; omega)
  rw [Nat.add_assoc _ (y.columnBegin * y.q i) t, hbit, h.rows.1, h.columns.1, ← hq, Nat.add_mul,
    Nat.add_assoc x.rowBegin]
  congr 1
  omega

theorem Within.planes_eq : y.planes = z.planes := by
  have hstart := h.symbolStart_all
  obtain ⟨hrows, hcolumns, hitem⟩ := h.blocks
  have hbytes : y.scaleRowBytes = z.scaleRowBytes := by
    rw [scaleRowBytes, scaleRowBytes, hcolumns, hitem]
  unfold planes
  congr 1
  · funext p
    cases p <;> simp [h.outputs, hstart]
  · funext p
    cases p <;> simp [h.outputs, hstart, hrows, hbytes]

theorem Within.start_eq {k : Nat} (hk : k < headerBytes) : y.slicing.start k = z.slicing.start k := by
  have hheader : headerBytes = 44 := rfl
  obtain ⟨hrows, hcolumns, -⟩ := h.blocks
  by_cases hlow : k < 12
  · rw [y.start_source hlow, z.start_source hlow, h.source.1, h.source.2, x.byte_header hk,
      x.start_source hlow]
  · obtain ⟨m, hm, hplace⟩ : ∃ m < 8, k = 12 + m ∨ k = 20 + m ∨ k = 28 + m ∨ k = 36 + m :=
      ⟨(k - 12) % 8, Nat.mod_lt _ (by omega), by omega⟩
    obtain ⟨hy₁, hy₂, hy₃, hy₄⟩ := y.start_field hm
    obtain ⟨hz₁, hz₂, hz₃, hz₄⟩ := z.start_field hm
    rcases hplace with rfl | rfl | rfl | rfl
    · rw [hy₁, hz₁, h.outputs]
    · rw [hy₂, hz₂, h.width]
    · rw [hy₃, hz₃, hrows]
    · rw [hy₄, hz₄, hcolumns]

theorem Within.value_eq (p : Plane) {n : Nat}
    (hn : n < y.count y.slicing.outputs y.slicing.scaleRows p) : y.value p n = z.value p n := by
  obtain ⟨hrows, hcolumns, hitem⟩ := h.blocks
  have hbytes : y.scaleRowBytes = z.scaleRowBytes := by
    rw [scaleRowBytes, scaleRowBytes, hcolumns, hitem]
  cases p with
  | header => exact congrArg UInt8.toNat (h.start_eq hn)
  | qSelectors =>
    change y.q n - 1 = z.q n - 1
    rw [(h.q_eq hn).2]
  | palettes =>
    change (byte y.source (palettesAt y.h.outputs + n)).toNat
      = (byte z.source (palettesAt z.h.outputs + n)).toNat
    rw [h.source.1, h.source.2, h.header.1, h.header.2]
    exact congrArg UInt8.toNat (palette_result n hn)
  | symbols =>
    change (byte ((List.range y.slicing.outputs).flatMap y.rowSymbols) n).toNat
      = (byte ((List.range z.slicing.outputs).flatMap z.rowSymbols) n).toNat
    rw [← h.outputs]
    congr 2
    unfold List.flatMap
    congr 1
    exact List.map_congr_left fun i hi => h.rowSymbols_eq (List.mem_range.mp hi)
  | scales =>
    have hle := y.scaleRows_le
    have hle' := y.scaleColumns_le
    rw [h.header.1] at hle hle'
    change y.rowBegin / x.h.blockRows + y.slicing.scaleRows ≤ x.slicing.scaleRows at hle
    change y.columnBegin / x.h.blockColumns + y.slicing.scaleColumns ≤ x.slicing.scaleColumns
      at hle'
    change n < y.slicing.scaleRows * y.scaleRowBytes at hn
    have hpos : 0 < y.scaleRowBytes := Nat.pos_of_ne_zero fun hzero => by
      rw [hzero] at hn
      omega
    have hr : n / y.scaleRowBytes < y.slicing.scaleRows :=
      Nat.div_lt_of_lt_mul (by rw [Nat.mul_comm]; exact hn)
    have hk := Nat.mod_lt n hpos
    have hitems : 0 < y.slicing.itemsize := scaleItemsize_pos _
    have hc : n % y.scaleRowBytes / y.slicing.itemsize < y.slicing.scaleColumns :=
      Nat.div_lt_of_lt_mul (by rw [Nat.mul_comm]; exact hk)
    have hsplit := Nat.div_add_mod (n % y.scaleRowBytes) y.slicing.itemsize
    have hbyte := scale_byte (x := x) (r := y.rowBegin / x.h.blockRows + n / y.scaleRowBytes)
      (c := y.columnBegin / x.h.blockColumns + n % y.scaleRowBytes / y.slicing.itemsize)
      (k := n % y.scaleRowBytes % y.slicing.itemsize) (by omega) (by omega) (by
        have hsame : y.slicing.itemsize = x.slicing.itemsize := by
          change scaleItemsize y.h.scaleKind = _
          rw [h.header.1]
          rfl
        rw [← hsame]
        exact Nat.mod_lt _ hitems)
    have hrow : z.rowBegin / x.h.blockRows
        = x.rowBegin / x.h.blockRows + y.rowBegin / x.h.blockRows := by
      rw [h.rows.1]
      exact Nat.add_div_of_dvd_right (Nat.dvd_of_mod_eq_zero x.rowBegin_mod)
    have hcolumn : z.columnBegin / x.h.blockColumns
        = x.columnBegin / x.h.blockColumns + y.columnBegin / x.h.blockColumns := by
      rw [h.columns.1]
      exact Nat.add_div_of_dvd_right (Nat.dvd_of_mod_eq_zero x.columnBegin_mod)
    have hsame : x.slicing.itemsize = y.slicing.itemsize := by
      change _ = scaleItemsize y.h.scaleKind
      rw [h.header.1]
      rfl
    rw [hsame] at hbyte
    change (y.scaleByte (n / y.scaleRowBytes) (n % y.scaleRowBytes)).toNat
      = (z.scaleByte (n / z.scaleRowBytes) (n % z.scaleRowBytes)).toNat
    rw [← hbytes, scaleByte, scaleByte, ← hitem, h.source.1, h.source.2, h.header.1, h.header.2,
      hrow, hcolumn]
    congr 1
    calc byte x.result (scalesAt x.result x.header
          + ((y.rowBegin / x.h.blockRows + n / y.scaleRowBytes) * x.slicing.scaleColumns
            + y.columnBegin / x.h.blockColumns) * y.slicing.itemsize + n % y.scaleRowBytes)
        = byte x.result (scalesAt x.result x.header
          + ((y.rowBegin / x.h.blockRows + n / y.scaleRowBytes) * x.slicing.scaleColumns
            + (y.columnBegin / x.h.blockColumns + n % y.scaleRowBytes / y.slicing.itemsize))
            * y.slicing.itemsize + n % y.scaleRowBytes % y.slicing.itemsize) := by
          congr 1
          nth_rewrite 1 [← hsplit]
          ring
      _ = _ := hbyte
      _ = _ := by
          congr 1
          nth_rewrite 3 [← hsplit]
          ring

/-- **Cutting again is cutting once.** -/
theorem Within.result_eq : y.result = z.result := by
  have hcount : y.count y.slicing.outputs y.slicing.scaleRows
      = z.count z.slicing.outputs z.slicing.scaleRows := by
    obtain ⟨hrows, hcolumns, hitem⟩ := h.blocks
    funext p
    cases p <;> simp [count, h.outputs, hrows, scaleRowBytes, hcolumns, hitem, h.symbolStart_all]
  have hbytes : y.slicing.bytes = z.slicing.bytes := by
    obtain ⟨hrows, hcolumns, hitem⟩ := h.blocks
    rw [bytes_eq, bytes_eq, scaleRowBytes, scaleRowBytes, hrows, hcolumns, hitem, h.outputs,
      h.symbolStart_all]
  have hz := z.holds_result
  rw [← h.planes_eq, ← hcount] at hz
  have hplane (p : Plane) {k : Nat} (hk : k < y.planes.bytes p) :
      byte y.result (y.planes.start p + k) = byte z.result (y.planes.start p + k) :=
    y.holds_result.byte_congr hz (fun n hn => h.value_eq p hn) hk
  apply ByteFile.ext
  · rw [length_result, length_result, hbytes]
  · intro k
    by_cases hk : k < y.slicing.bytes
    · have hcover : ∃ p, y.planes.start p ≤ k ∧ k < y.planes.start p + y.planes.bytes p := by
        have hplace : palettesAt y.slicing.outputs = headerBytes + qBytes y.slicing.outputs := rfl
        have hsymbols : symbolsAt y.slicing.outputs
            = palettesAt y.slicing.outputs + paletteBytes := rfl
        rw [bytes_eq] at hk
        by_cases h₁ : k < headerBytes
        · exact ⟨.header, Nat.zero_le _, by change k < 0 + headerBytes; omega⟩
        by_cases h₂ : k < palettesAt y.slicing.outputs
        · exact ⟨.qSelectors, by change headerBytes ≤ k; omega,
            by change k < headerBytes + qBytes y.slicing.outputs; omega⟩
        by_cases h₃ : k < symbolsAt y.slicing.outputs
        · exact ⟨.palettes, by change palettesAt y.slicing.outputs ≤ k; omega,
            by change k < palettesAt y.slicing.outputs + paletteBytes; omega⟩
        by_cases h₄ : k < symbolsAt y.slicing.outputs + y.symbolStart y.slicing.outputs
        · exact ⟨.symbols, by change symbolsAt y.slicing.outputs ≤ k; omega, h₄⟩
        · exact ⟨.scales, Nat.le_of_not_lt h₄, hk⟩
      obtain ⟨p, hle, hlt⟩ := hcover
      have hbyte := hplane p (k := k - y.planes.start p) (by omega)
      rwa [show y.planes.start p + (k - y.planes.start p) = k by omega] at hbyte
    · rw [byte_of_le (by rw [length_result]; omega), byte_of_le (by rw [length_result]; omega)]

end Within

end Cut

/-! ### `slice` -/

theorem exists_cut {family : Family} {source : List UInt8} {h : Header}
    (hwell : WellFormed family source h) (hwrap : h.NoWrap)
    {rowBegin rowEnd columnBegin columnEnd : Int}
    (haligned : Aligned (h.layout source family) rowBegin rowEnd columnBegin columnEnd) :
    ∃ x : Cut, x.family = family ∧ x.source = source ∧ x.h = h ∧ (x.rowBegin : Int) = rowBegin ∧
      (x.rowEnd : Int) = rowEnd ∧ (x.columnBegin : Int) = columnBegin ∧
      (x.columnEnd : Int) = columnEnd := by
  obtain ⟨hrows, hcolumns, hbegins, hrowEnd, hcolumnEnd⟩ := haligned
  obtain ⟨rb, rfl⟩ := Int.eq_ofNat_of_zero_le hrows.1
  obtain ⟨re, rfl⟩ := Int.eq_ofNat_of_zero_le (show 0 ≤ rowEnd by omega)
  obtain ⟨cb, rfl⟩ := Int.eq_ofNat_of_zero_le hcolumns.1
  obtain ⟨ce, rfl⟩ := Int.eq_ofNat_of_zero_le (show 0 ≤ columnEnd by omega)
  change _ ∧ _ ∧ (re : Int) ≤ h.outputs at hrows
  change _ ∧ _ ∧ (ce : Int) ≤ h.width at hcolumns
  change (rb : Int) % h.blockRows = 0 ∧ (cb : Int) % h.blockColumns = 0 at hbegins
  change (re : Int) = h.outputs ∨ (re : Int) % h.blockRows = 0 at hrowEnd
  change (ce : Int) = h.width ∨ (ce : Int) % h.blockColumns = 0 at hcolumnEnd
  exact ⟨
    { family, source, h, rowBegin := rb, rowEnd := re, columnBegin := cb, columnEnd := ce
      wellFormed := hwell
      noWrap := hwrap
      rows := by omega
      columns := by omega
      rowBegin_mod := by exact_mod_cast hbegins.1
      columnBegin_mod := by exact_mod_cast hbegins.2
      rowEnd_mod := by exact_mod_cast hrowEnd
      columnEnd_mod := by exact_mod_cast hcolumnEnd }, rfl, rfl, rfl, rfl, rfl, rfl, rfl⟩

section Calls

variable (x : Cut)

theorem Cut.parse_source : parse x.family x.source = .ok (x.h.layout x.source x.family) :=
  parse_eq_ok.mpr ⟨x.h, x.wellFormed, x.noWrap, rfl⟩

theorem Cut.parse_result : parse x.family x.result = .ok (x.header.layout x.result x.family) :=
  parse_eq_ok.mpr ⟨x.header, x.wellFormed_result, x.noWrap_header, rfl⟩

/-- A call on aligned ranges reads the offsets of the rows, and then writes the cut. -/
theorem Cut.slice_eq : slice x.family x.source x.rowBegin x.rowEnd x.columnBegin x.columnEnd
    = (rowMetadata x.source (x.h.layout x.source x.family)).map fun _ => x.result := by
  have hrows := x.rows
  have hcolumns := x.columns
  have hrow : (x.rowBegin : Int) % x.h.blockRows = 0 := by exact_mod_cast x.rowBegin_mod
  have hcolumn : (x.columnBegin : Int) % x.h.blockColumns = 0 := by
    exact_mod_cast x.columnBegin_mod
  have hrow' : (x.rowEnd : Int) = x.h.outputs ∨ (x.rowEnd : Int) % x.h.blockRows = 0 := by
    exact_mod_cast x.rowEnd_mod
  have hcolumn' : (x.columnEnd : Int) = x.h.width ∨ (x.columnEnd : Int) % x.h.blockColumns = 0 := by
    exact_mod_cast x.columnEnd_mod
  unfold slice
  refine (bind_of_ok x.parse_source _).trans ?_
  refine (if_neg ?_).trans ?_
  · dsimp only [Header.layout]
    omega
  cases hm : rowMetadata x.source (x.h.layout x.source x.family) with
  | error e => rfl
  | ok m =>
    obtain ⟨-, rfl⟩ := (rowMetadata_eq_ok x.wellFormed.geometry).mp hm
    change (parse x.family x.result >>= fun _ => pure x.result) = Except.ok x.result
    rw [x.parse_result]
    rfl

theorem Cut.slice_ok (h : SmallOffsets x.source (x.h.layout x.source x.family)) :
    slice x.family x.source x.rowBegin x.rowEnd x.columnBegin x.columnEnd = .ok x.result := by
  rw [x.slice_eq, (rowMetadata_eq_ok x.wellFormed.geometry).mpr ⟨h, rfl⟩]
  rfl

theorem Cut.slice_error (h : ¬SmallOffsets x.source (x.h.layout x.source x.family)) :
    slice x.family x.source x.rowBegin x.rowEnd x.columnBegin x.columnEnd
      = .error (.runtimeError "FP8-SQ row offsets exceed uint32") := by
  rw [x.slice_eq, rowMetadata_error x.wellFormed.geometry h]
  rfl

theorem Cut.aligned_within {x y : Cut} (hy : y.h = x.header) :
    Aligned (x.h.layout x.source x.family) (x.rowBegin + y.rowBegin) (x.rowBegin + y.rowEnd)
      (x.columnBegin + y.columnBegin) (x.columnBegin + y.columnEnd) := by
  have hadd {a b c : Nat} (ha : a % c = 0) (hb : b % c = 0) : (a + b) % c = 0 := by
    rw [Nat.add_mod, ha, hb, Nat.zero_mod]
  have hrows := x.rows
  have hcolumns := x.columns
  have hrows' := y.rows
  have hcolumns' := y.columns
  have hrow := y.rowBegin_mod
  have hcolumn := y.columnBegin_mod
  have hrowEnd := y.rowEnd_mod
  have hcolumnEnd := y.columnEnd_mod
  rw [hy] at hrows' hcolumns' hrow hcolumn hrowEnd hcolumnEnd
  change _ ∧ y.rowEnd ≤ x.rowEnd - x.rowBegin at hrows'
  change _ ∧ y.columnEnd ≤ x.columnEnd - x.columnBegin at hcolumns'
  change y.rowBegin % x.h.blockRows = 0 at hrow
  change y.columnBegin % x.h.blockColumns = 0 at hcolumn
  change y.rowEnd = x.rowEnd - x.rowBegin ∨ y.rowEnd % x.h.blockRows = 0 at hrowEnd
  change y.columnEnd = x.columnEnd - x.columnBegin ∨ y.columnEnd % x.h.blockColumns = 0
    at hcolumnEnd
  have hrowEnd' : x.rowBegin + y.rowEnd = x.h.outputs ∨
      (x.rowBegin + y.rowEnd) % x.h.blockRows = 0 := by
    rcases hrowEnd with hend | hend
    · rw [hend, Nat.add_sub_cancel' (by omega)]
      exact x.rowEnd_mod
    · exact .inr (hadd x.rowBegin_mod hend)
  have hcolumnEnd' : x.columnBegin + y.columnEnd = x.h.width ∨
      (x.columnBegin + y.columnEnd) % x.h.blockColumns = 0 := by
    rcases hcolumnEnd with hend | hend
    · rw [hend, Nat.add_sub_cancel' (by omega)]
      exact x.columnEnd_mod
    · exact .inr (hadd x.columnBegin_mod hend)
  refine ⟨?_, ?_, ⟨?_, ?_⟩, ?_, ?_⟩
  · change _ ∧ _ ∧ _ ≤ (x.h.outputs : Int)
    omega
  · change _ ∧ _ ∧ _ ≤ (x.h.width : Int)
    omega
  · exact_mod_cast hadd x.rowBegin_mod hrow
  · exact_mod_cast hadd x.columnBegin_mod hcolumn
  · exact_mod_cast hrowEnd'
  · exact_mod_cast hcolumnEnd'

end Calls

/-- **Slicing is exact.**  A slice of aligned ranges is accepted, and its elements are those of the
    source, unless the offset of a row does not fit 32 bits; slicing the slice is slicing once. -/
theorem slice_exact {family : Family} {source : List UInt8} {l : Layout}
    (hparse : parse family source = .ok l) {rowBegin rowEnd columnBegin columnEnd : Int}
    (haligned : Aligned l rowBegin rowEnd columnBegin columnEnd) :
    (¬SmallOffsets source l ∧ slice family source rowBegin rowEnd columnBegin columnEnd
        = .error (.runtimeError "FP8-SQ row offsets exceed uint32")) ∨
    ∃ blob part, slice family source rowBegin rowEnd columnBegin columnEnd = .ok blob ∧
      parse family blob = .ok part ∧
      (part.outputs : Int) = rowEnd - rowBegin ∧ (part.width : Int) = columnEnd - columnBegin ∧
      part.scaleKind = l.scaleKind ∧ part.blockRows = l.blockRows ∧
      part.blockColumns = l.blockColumns ∧
      (∀ i < part.outputs, ∀ j < part.width, elementCode blob part i j
          = elementCode source l (rowBegin.toNat + i) (columnBegin.toNat + j) ∧
        scaleCell blob part i j
          = scaleCell source l (rowBegin.toNat + i) (columnBegin.toNat + j)) ∧
      ∀ rowBegin' rowEnd' columnBegin' columnEnd',
        Aligned part rowBegin' rowEnd' columnBegin' columnEnd' →
        slice family blob rowBegin' rowEnd' columnBegin' columnEnd'
          = slice family source (rowBegin + rowBegin') (rowBegin + rowEnd')
            (columnBegin + columnBegin') (columnBegin + columnEnd') := by
  obtain ⟨h, hwell, hwrap, rfl⟩ := parse_eq_ok.mp hparse
  obtain ⟨x, rfl, rfl, rfl, rfl, rfl, rfl, rfl⟩ := exists_cut hwell hwrap haligned
  by_cases hsmall : SmallOffsets x.source (x.h.layout x.source x.family)
  · refine .inr ⟨x.result, _, x.slice_ok hsmall, x.parse_result, ?_, ?_, rfl, rfl, rfl, ?_, ?_⟩
    · have hrows := x.rows
      change ((x.rowEnd - x.rowBegin : Nat) : Int) = _
      omega
    · have hcolumns := x.columns
      change ((x.columnEnd - x.columnBegin : Nat) : Int) = _
      omega
    · intro i hi j hj
      exact Cut.element_result hi hj
    · intro rb re cb ce hpart
      obtain ⟨y, hyfamily, hysource, hyh, rfl, rfl, rfl, rfl⟩ :=
        exists_cut x.wellFormed_result x.noWrap_header hpart
      have hpart' := Cut.aligned_within hyh
      obtain ⟨z, hzfamily, hzsource, hzh, hrb, hre, hcb, hce⟩ := exists_cut hwell hwrap hpart'
      have hwithin : Cut.Within x y z :=
        ⟨⟨hyfamily, hzfamily⟩, ⟨hysource, hzsource⟩, ⟨hyh, hzh⟩, by omega, by omega⟩
      have hsmall' : SmallOffsets y.source (y.h.layout y.source y.family) := by
        rw [hysource, hyh]
        intro row hrow
        have hle := x.outputs_le
        change row < x.slicing.outputs at hrow
        exact lt_of_le_of_lt (Cut.symbolBytes_le_source hrow.le)
          (hsmall (x.rowBegin + row) (by change _ < x.h.outputs; omega))
      have hy := y.slice_ok hsmall'
      have hz := z.slice_ok (by rw [hzsource, hzh, hzfamily]; exact hsmall)
      rw [hyfamily, hysource] at hy
      rw [hzfamily, hzsource, hrb, hre, hcb, hce] at hz
      rw [hy, hz, hwithin.result_eq]
  · exact .inl ⟨hsmall, x.slice_error hsmall⟩

/-- The second block of columns of a row. -/
theorem slice_exact_sample :
    ∃ blob part, slice .fp8Block128 (Formats.Fp8Sq.sampleParts 256).payload 0 1 128 256 = .ok blob ∧
      parse .fp8Block128 blob = .ok part ∧ (part.outputs : Int) = 1 - 0 ∧
      (part.width : Int) = 256 - 128 := by
  have hwell := Formats.Fp8Sq.wellFormed_sample (show 0 < 256 by decide) (by decide)
  have hparse := parse_eq_ok.mpr ⟨_, hwell, ⟨by decide, by decide⟩, rfl⟩
  have haligned : Aligned ((Formats.Fp8Sq.sampleParts 256).header.layout
      (Formats.Fp8Sq.sampleParts 256).payload .fp8Block128) 0 1 128 256 :=
    ⟨by decide, by decide, by decide, .inl rfl, .inl rfl⟩
  rcases slice_exact hparse haligned with ⟨hlarge, -⟩ | ⟨blob, part, hslice, hpart, hrows, hcolumns, -⟩
  · refine absurd (fun row hrow => ?_) hlarge
    obtain rfl : row = 0 := Nat.lt_one_iff.mp hrow
    exact (by decide : 0 < 2 ^ 32)
  · exact ⟨blob, part, hslice, hpart, hrows, hcolumns⟩

end TyloQuant.Fp8Sq
