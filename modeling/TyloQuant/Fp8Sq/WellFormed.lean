import Mathlib.Tactic.Ring
import TyloQuant.Lib.Loops
import TyloQuant.Fp8Sq.Blob

/-!
# Well-formed payloads

What the parser has checked of a payload, as one statement about its bits, and what the readers of a
row return on it.
-/

namespace TyloQuant.Fp8Sq

open Lib ByteFile Bits List

/-! ### Packed numbers -/

theorem and_seven (n : Nat) : n &&& 7 = n % 8 := Nat.and_two_pow_sub_one_eq_mod n 3

theorem readQ_eq (s : Nat → UInt8) (row : Nat) : readQ s row = 1 + field s (3 * row) 3 := by
  have hmask (x : Nat) : x &&& 7 = x % 2 ^ 3 := Nat.and_two_pow_sub_one_eq_mod x 3
  unfold readQ
  dsimp only
  rw [hmask, and_seven, Nat.mul_comm row]
  split
  · rw [pair_shiftRight s (by omega)]
  · rw [byte_shiftRight s (by omega)]

theorem readQ_range (s : Nat → UInt8) (row : Nat) : 1 ≤ readQ s row ∧ readQ s row ≤ 8 := by
  have hlt : field s (3 * row) 3 < 2 ^ 3 := field_lt s _ _
  rw [readQ_eq]
  omega

/-! ### Geometry -/

/-- Which scales a dtype has, and in which blocks. -/
def Contract (family : Family) (h : Header) : Prop :=
  match family with
  | .mxfp8 => h.scaleKind = .e8m0 ∧ isMxfp8Block h.blockRows h.blockColumns = true ∧
      h.width % h.blockColumns = 0
  | .fp8Block128 => h.scaleKind ≠ .e8m0 ∧ h.blockRows = 128 ∧ h.blockColumns = 128

variable {family : Family}

theorem scaleContract_eq_ok {kind : Option ScaleKind} {h : Header} :
    scaleContract family kind (h.blockRows, h.blockColumns, h.width) = .ok h.scaleKind ↔
      kind = some h.scaleKind ∧ Contract family h := by
  unfold scaleContract Contract
  cases family with
  | mxfp8 =>
    rcases kind with _ | kind
    · simp
    · cases kind <;> dsimp only
      · rw [guard_eq_ok, Except.ok.injEq, Option.some.injEq]
        constructor
        · rintro ⟨hchecks, hkind⟩
          exact ⟨hkind, hkind.symm, by simpa using hchecks⟩
        · rintro ⟨hkind, -, hchecks⟩
          exact ⟨by simpa using hchecks, hkind⟩
      all_goals
        constructor
        · rintro ⟨⟩
        · rintro ⟨hkind, hcontract, -⟩
          rw [hcontract] at hkind
          simp at hkind
  | fp8Block128 =>
    rcases kind with _ | kind
    · simp
    · cases kind <;> dsimp only
      · constructor
        · rintro ⟨⟩
        · rintro ⟨hkind, hcontract, -⟩
          exact absurd (Option.some.inj hkind).symm hcontract
      all_goals
        rw [guard_eq_ok, Except.ok.injEq, Option.some.injEq]
        constructor
        · rintro ⟨hblocks, hkind⟩
          exact ⟨hkind, by rw [← hkind]; simp, by omega⟩
        · rintro ⟨hkind, -, hblocks⟩
          exact ⟨by omega, hkind⟩

/-- Rounding up does not leave the range of an `int`. -/
def Header.NoWrap (h : Header) : Prop :=
  h.outputs + h.blockRows ≤ intMax ∧ h.width + h.blockColumns ≤ intMax

theorem blockCount_eq_ok {count block s : Nat} :
    blockCount count block = .ok s ↔ count + block ≤ intMax ∧ s = (count + block - 1) / block := by
  unfold blockCount
  rw [guard_eq_ok, Nat.not_lt, Except.ok.injEq, eq_comm]

/-! ### Payloads -/

section Parts

variable (data : List UInt8) (h : Header)

/-- Where the palettes, the symbols and the scales are. -/
def palettesAt (outputs : Nat) : Nat := headerBytes + qBytes outputs

def symbolsAt (outputs : Nat) : Nat := palettesAt outputs + paletteBytes

def scalesAt : Nat := symbolsAt h.outputs + symbolBytes data h.width h.outputs

def payloadBytes : Nat := scalesAt data h + h.scaleRows * h.scaleColumns * scaleItemsize h.scaleKind

def Header.layout (family : Family) : Layout where
  family
  scaleKind := h.scaleKind
  version := 1
  outputs := h.outputs
  width := h.width
  blockRows := h.blockRows
  blockColumns := h.blockColumns
  scaleRows := h.scaleRows
  scaleColumns := h.scaleColumns
  qSelectors := headerBytes
  palettes := palettesAt h.outputs
  symbols := symbolsAt h.outputs
  scales := scalesAt data h
  bytes := payloadBytes data h

end Parts

/-- The fields of a header. -/
structure HeaderIs (family : Family) (data : List UInt8) (h : Header) : Prop where
  magic_eq : ∀ i < 4, byte data i = byte (magic family) i
  version : byte data 4 = 1
  flags : byte data 6 = 0 ∧ byte data 7 = 0
  scaleKind : ScaleKind.ofByte (byte data 5) = some h.scaleKind
  blockRows : readU16 (byte data) 8 = h.blockRows
  blockColumns : readU16 (byte data) 10 = h.blockColumns
  outputs : readU64 (byte data) 12 = h.outputs
  width : readU64 (byte data) 20 = h.width
  scaleRows : readU64 (byte data) 28 = h.scaleRows
  scaleColumns : readU64 (byte data) 36 = h.scaleColumns

/-- A geometry that a dtype can have. -/
structure Geometry (family : Family) (h : Header) : Prop where
  outputs : 0 < h.outputs ∧ h.outputs ≤ intMax
  width : 0 < h.width ∧ h.width ≤ intMax
  blocks : 0 < h.blockRows ∧ 0 < h.blockColumns
  scaleRows : h.scaleRows = (h.outputs + h.blockRows - 1) / h.blockRows
  scaleColumns : h.scaleColumns = (h.width + h.blockColumns - 1) / h.blockColumns
  contract : Contract family h

/-- Legal codes, and no code twice. -/
structure PaletteIs (palette : Nat → UInt8) : Prop where
  legal : ∀ q, 1 ≤ q → q ≤ 7 → ∀ i < 2 ^ q, nanCode (palette (2 ^ q - 2 + i)) = false
  distinct : ∀ q, 1 ≤ q → q ≤ 7 → ∀ i < 2 ^ q, ∀ j < i,
    palette (2 ^ q - 2 + j) ≠ palette (2 ^ q - 2 + i)
  padding : palette 254 = 0 ∧ palette 255 = 0

/-- What both readers ask of a payload. -/
structure WellFormed (family : Family) (data : List UInt8) (h : Header) : Prop where
  header : HeaderIs family data h
  geometry : Geometry family h
  length : data.length = payloadBytes data h
  selectorPadding : ∀ i, 3 * h.outputs ≤ i → i < 8 * qBytes h.outputs →
    bit (selectors data) i = false
  palettes : PaletteIs fun k => byte data (palettesAt h.outputs + k)
  codes : ∀ row < h.outputs, readQ (selectors data) row = 8 → ∀ column < h.width,
    nanCode (byte data (symbolsAt h.outputs + symbolBytes data h.width row + column)) = false
  scales : ∀ index < h.scaleRows * h.scaleColumns, validScale (byte data)
    (scalesAt data h + index * scaleItemsize h.scaleKind) h.scaleKind = true

theorem symbolBytes_succ (data : List UInt8) (width row : Nat) :
    symbolBytes data width (row + 1)
      = symbolBytes data width row + packedNbytes width (readQ (selectors data) row) := by
  rw [symbolBytes, range_succ, foldl_append]
  rfl

/-! ### The checks -/

theorem parseHeader_eq_ok {data : List UInt8} {h : Header} :
    parseHeader family data = .ok h ↔
      headerBytes ≤ data.length ∧ HeaderIs family data h ∧ Geometry family h ∧ h.NoWrap := by
  unfold parseHeader
  rw [guard_eq_ok, guard_eq_ok, guard_eq_ok]
  dsimp only
  rw [guard_eq_ok]
  constructor
  · rintro ⟨hlength, hmagic, hversion, hdims, hrest⟩
    obtain ⟨rows, hrows, hrest⟩ := bind_eq_ok.mp hrest
    obtain ⟨columns, hcolumns, hrest⟩ := bind_eq_ok.mp hrest
    obtain ⟨hshape, hrest⟩ := guard_eq_ok.mp hrest
    obtain ⟨kind, hkind, hh⟩ := bind_eq_ok.mp hrest
    have hh := pure_eq_ok.mp hh
    obtain ⟨rfl, rfl⟩ := (not_or.mp hshape).imp not_not.mp not_not.mp
    rw [blockCount_eq_ok] at hrows hcolumns
    subst hh
    obtain ⟨hbyte, hcontract⟩ := (scaleContract_eq_ok (h := ⟨kind, readU16 (byte data) 8,
      readU16 (byte data) 10, readU64 (byte data) 12, readU64 (byte data) 20,
      readU64 (byte data) 28, readU64 (byte data) 36⟩)).mp hkind
    refine ⟨by omega, ⟨fun i hi => ?_, ?_, ?_, hbyte, rfl, rfl, rfl, rfl, rfl, rfl⟩,
      ⟨by dsimp only; omega, by dsimp only; omega, by dsimp only; omega, hrows.2, hcolumns.2,
        hcontract⟩, hrows.1, hcolumns.1⟩
    · by_contra hne
      exact hmagic (any_eq_true.mpr ⟨i, mem_range.mpr hi, decide_eq_true hne⟩)
    · by_contra hne
      exact hversion (.inl hne)
    · constructor
      · by_contra hne
        exact hversion (.inr (.inl hne))
      · by_contra hne
        exact hversion (.inr (.inr hne))
  · rintro ⟨hlength, hheader, hgeometry, hwrap⟩
    obtain ⟨kind, blockRows, blockColumns, outputs, width, scaleRows, scaleColumns⟩ := h
    obtain ⟨hmagic, hversion, hflags, hbyte, hblockRows, hblockColumns, houtputs, hwidth, hscaleRows,
      hscaleColumns⟩ := hheader
    dsimp only at hbyte hblockRows hblockColumns houtputs hwidth hscaleRows hscaleColumns
    subst hblockRows hblockColumns houtputs hwidth hscaleRows hscaleColumns
    obtain ⟨houtputs, hwidth, hblocks, hrows, hcolumns, hcontract⟩ := hgeometry
    dsimp only at houtputs hwidth hblocks hrows hcolumns
    unfold Header.NoWrap at hwrap
    dsimp only at hwrap
    have hrowsPos : 0 < readU64 (byte data) 28 := by
      rw [hrows]
      exact Nat.div_pos (by omega) hblocks.1
    have hcolumnsPos : 0 < readU64 (byte data) 36 := by
      rw [hcolumns]
      exact Nat.div_pos (by omega) hblocks.2
    have hrowsLe : readU64 (byte data) 28 ≤ intMax := by
      rw [hrows]
      exact (Nat.div_le_self _ _).trans (by omega)
    have hcolumnsLe : readU64 (byte data) 36 ≤ intMax := by
      rw [hcolumns]
      exact (Nat.div_le_self _ _).trans (by omega)
    refine ⟨by omega, ?_, ?_, by omega, ?_⟩
    · intro h
      obtain ⟨i, hi, hne⟩ := any_eq_true.mp h
      exact of_decide_eq_true hne (hmagic i (mem_range.mp hi))
    · rintro (hne | hne | hne)
      · exact hne hversion
      · exact hne hflags.1
      · exact hne hflags.2
    · refine bind_eq_ok.mpr ⟨_, blockCount_eq_ok.mpr ⟨hwrap.1, hrows⟩, ?_⟩
      refine bind_eq_ok.mpr ⟨_, blockCount_eq_ok.mpr ⟨hwrap.2, hcolumns⟩, ?_⟩
      refine guard_eq_ok.mpr ⟨by simp, ?_⟩
      refine bind_eq_ok.mpr ⟨kind, ?_, rfl⟩
      exact (scaleContract_eq_ok (h := ⟨kind, readU16 (byte data) 8,
        readU16 (byte data) 10, readU64 (byte data) 12, readU64 (byte data) 20,
        readU64 (byte data) 28, readU64 (byte data) 36⟩)).mpr ⟨hbyte, hcontract⟩

theorem checkSelectors_eq_ok {data : List UInt8} {outputs : Nat} (houtputs : 0 < outputs) :
    checkSelectors data outputs = .ok () ↔ symbolsAt outputs ≤ data.length ∧
      ∀ i, 3 * outputs ≤ i → i < 8 * qBytes outputs → bit (selectors data) i = false := by
  have hused : usedQBytes outputs = (outputs * 3 + 7) / 8 := rfl
  have hq : qBytes outputs = (usedQBytes outputs + 3) / 4 * 4 := rfl
  unfold checkSelectors
  rw [guard_eq_ok, guard_eq_ok, guard_eq_ok]
  constructor
  · rintro ⟨hlength, hmask, halign, -⟩
    refine ⟨by unfold symbolsAt palettesAt; omega, fun i hle hi => ?_⟩
    by_cases hlast : i / 8 < usedQBytes outputs
    · have hne : outputs * 3 % 8 ≠ 0 := by omega
      rw [not_and, not_not, mask_eq_zero (by omega)] at hmask
      unfold bit selectors
      rw [show headerBytes + i / 8 = headerBytes + usedQBytes outputs - 1 by omega]
      exact hmask hne _ (Nat.mod_lt _ (by omega)) (by omega)
    · have hzero : byte data (headerBytes + i / 8) = 0 := by
        by_contra hne
        refine halign (any_eq_true.mpr ⟨i / 8, ?_, decide_eq_true hne⟩)
        rw [mem_range'_1]
        omega
      unfold bit selectors
      rw [hzero]
      exact Nat.zero_testBit _
  · rintro ⟨hlength, hbits⟩
    unfold symbolsAt palettesAt at hlength
    refine ⟨by omega, ?_, ?_, rfl⟩
    · rintro ⟨hne, hmask⟩
      refine hmask ((mask_eq_zero (by omega)).mpr fun j hj hle => ?_)
      have hbit := hbits (8 * (usedQBytes outputs - 1) + j) (by omega) (by omega)
      unfold bit selectors at hbit
      rwa [show (8 * (usedQBytes outputs - 1) + j) / 8 = usedQBytes outputs - 1 by omega,
        show (8 * (usedQBytes outputs - 1) + j) % 8 = j by omega,
        show headerBytes + (usedQBytes outputs - 1) = headerBytes + usedQBytes outputs - 1 by omega]
        at hbit
    · intro h
      obtain ⟨k, hk, hne⟩ := any_eq_true.mp h
      rw [mem_range'_1] at hk
      refine of_decide_eq_true hne (byte_eq_zero.mpr fun j hj => ?_)
      have hbit := hbits (8 * k + j) (by omega) (by omega)
      unfold bit selectors at hbit
      rwa [show (8 * k + j) / 8 = k by omega, show (8 * k + j) % 8 = j by omega] at hbit

theorem packedNbytes_le {width q : Nat} (hq : q ≤ 8) : packedNbytes width q ≤ width := by
  have hle : width * q ≤ width * 8 := Nat.mul_le_mul_left width hq
  unfold packedNbytes
  omega

theorem symbolBytes_le (data : List UInt8) (width rows : Nat) :
    symbolBytes data width rows ≤ rows * width := by
  induction rows with
  | zero => simp [symbolBytes]
  | succ rows ih =>
    have hrow : packedNbytes width (readQ (selectors data) rows) ≤ width :=
      packedNbytes_le (readQ_range (selectors data) rows).2
    rw [symbolBytes_succ, Nat.succ_mul]
    omega

theorem scaleItemsize_pos (kind : ScaleKind) : 0 < scaleItemsize kind := by
  cases kind <;> decide

/-- The scales take fewer bytes than a matrix of `int` dimensions has elements. -/
theorem scaleBytes_le {h : Header} (hgeometry : Geometry family h) (hwrap : h.NoWrap) :
    h.scaleRows * h.scaleColumns * scaleItemsize h.scaleKind ≤ intMax * intMax := by
  have hint : intMax = 2147483647 := rfl
  have hrows := hgeometry.scaleRows
  have hcolumns := hgeometry.scaleColumns
  have hcontract := hgeometry.contract
  unfold Header.NoWrap at hwrap
  cases family with
  | mxfp8 =>
    obtain ⟨hkind, -⟩ := hcontract
    have hle : h.scaleRows ≤ intMax := by
      rw [hrows]
      exact (Nat.div_le_self _ _).trans (by omega)
    have hle' : h.scaleColumns ≤ intMax := by
      rw [hcolumns]
      exact (Nat.div_le_self _ _).trans (by omega)
    rw [hkind, scaleItemsize, Nat.mul_one]
    exact Nat.mul_le_mul hle hle'
  | fp8Block128 =>
    obtain ⟨-, hblockRows, hblockColumns⟩ := hcontract
    rw [hblockRows] at hrows hwrap
    rw [hblockColumns] at hcolumns hwrap
    have hle : h.scaleRows * h.scaleColumns ≤ 2 ^ 24 * 2 ^ 24 :=
      Nat.mul_le_mul (by omega) (by omega)
    have hsize : scaleItemsize h.scaleKind ≤ 4 := by cases h.scaleKind <;> decide
    calc h.scaleRows * h.scaleColumns * scaleItemsize h.scaleKind
        ≤ 2 ^ 24 * 2 ^ 24 * 4 := Nat.mul_le_mul hle hsize
      _ ≤ intMax * intMax := by decide

variable {l : Layout}

theorem layOut_eq_ok {data : List UInt8} {h : Header} (hgeometry : Geometry family h)
    (hwrap : h.NoWrap) :
    layOut family data h = .ok l ↔
      data.length = payloadBytes data h ∧ l = h.layout data family := by
  have hint : intMax = 2147483647 := rfl
  have hsquare : intMax * intMax = 4611686014132420609 := rfl
  have hsize : sizeMax = 18446744073709551615 := rfl
  have hsymbols := symbolBytes_le data h.width h.outputs
  have hmatrix : h.outputs * h.width ≤ intMax * intMax :=
    Nat.mul_le_mul hgeometry.outputs.2 hgeometry.width.2
  have hscales := scaleBytes_le hgeometry hwrap
  have houtputs := hgeometry.outputs
  have hq : headerBytes + qBytes h.outputs + paletteBytes ≤ 2 ^ 31 := by
    unfold headerBytes qBytes usedQBytes packedNbytes paletteBytes
    omega
  have hitem := scaleItemsize_pos h.scaleKind
  have hcolumns : 0 < h.scaleColumns := by
    have hwidth := hgeometry.width
    have hblocks := hgeometry.blocks
    rw [hgeometry.scaleColumns]
    exact Nat.div_pos (by omega) hblocks.2
  have hcount : h.scaleRows * h.scaleColumns ≤ intMax * intMax :=
    (Nat.le_mul_of_pos_right _ hitem).trans hscales
  unfold layOut
  dsimp only
  rw [guard_eq_ok, guard_eq_ok, guard_eq_ok, guard_eq_ok, Except.ok.injEq]
  constructor
  · rintro ⟨-, -, -, hlength, rfl⟩
    exact ⟨not_not.mp hlength, rfl⟩
  · rintro ⟨hlength, rfl⟩
    refine ⟨by omega, ?_, ?_, not_not.mpr hlength, rfl⟩
    · rw [Nat.not_lt, Nat.le_div_iff_mul_le hcolumns]
      omega
    · rw [Nat.not_lt, Nat.le_div_iff_mul_le hitem]
      omega

theorem checkPalettes_eq_ok {data : List UInt8} {palettes : Nat} :
    checkPalettes data palettes = .ok () ↔ PaletteIs fun k => byte data (palettes + k) := by
  unfold checkPalettes
  rw [bind_eq_ok]
  simp only [forM_eq_ok, mem_range'_1, guard_eq_ok]
  have hplace (q i : Nat) (hq : 1 ≤ q) : palettes + 2 ^ q - 2 + i = palettes + (2 ^ q - 2 + i) := by
    have hpow : 2 ^ 1 ≤ 2 ^ q := Nat.pow_le_pow_right (by omega) hq
    omega
  constructor
  · rintro ⟨-, hall, hpadding, -⟩
    have hcheck (q : Nat) (hq : 1 ≤ q) (hq' : q ≤ 7) (i : Nat) (hi : i < 2 ^ q) :
        nanCode (byte data (palettes + (2 ^ q - 2 + i))) = false ∧ ∀ j < i,
          byte data (palettes + (2 ^ q - 2 + j)) ≠ byte data (palettes + (2 ^ q - 2 + i)) := by
      have hcode := hall q ⟨hq, by omega⟩
      unfold checkPalette at hcode
      rw [forM_eq_ok] at hcode
      have hcode := hcode i (mem_range.mpr hi)
      rw [guard_eq_ok, forM_eq_ok, hplace q i hq] at hcode
      refine ⟨by simpa using hcode.1, fun j hj => ?_⟩
      have hpair := hcode.2 j (mem_range.mpr hj)
      rw [guard_eq_ok, hplace q j hq] at hpair
      exact hpair.1
    refine ⟨fun q hq hq' i hi => (hcheck q hq hq' i hi).1,
      fun q hq hq' i hi => (hcheck q hq hq' i hi).2, ?_⟩
    obtain ⟨hlow, hhigh⟩ := not_or.mp hpadding
    exact ⟨not_not.mp hlow, not_not.mp hhigh⟩
  · rintro ⟨hlegal, hdistinct, hpadding⟩
    refine ⟨⟨⟩, fun q hq => ?_, ?_, trivial⟩
    · unfold checkPalette
      rw [forM_eq_ok]
      intro i hi
      rw [guard_eq_ok, forM_eq_ok, hplace q i hq.1]
      refine ⟨by simpa using hlegal q hq.1 (by omega) i (mem_range.mp hi), fun j hj => ?_⟩
      rw [guard_eq_ok, hplace q j hq.1]
      exact ⟨hdistinct q hq.1 (by omega) i (mem_range.mp hi) j (mem_range.mp hj), rfl⟩
    · rw [not_or, not_not, not_not]
      exact hpadding

theorem checkRows_eq_ok {data : List UInt8} {symbols width outputs : Nat} {offset : Nat} :
    (List.range outputs).foldlM (checkRow data symbols width) 0 = .ok offset ↔
      (∀ row < outputs, readQ (selectors data) row = 8 → ∀ column < width,
        nanCode (byte data (symbols + symbolBytes data width row + column)) = false) ∧
      offset = symbolBytes data width outputs := by
  refine foldlM_range_eq_ok (s := symbolBytes data width) fun row _ t => ?_
  unfold checkRow
  dsimp only
  rw [symbolBytes_succ]
  by_cases hq : readQ (selectors data) row = 8
  · rw [if_pos hq, bind_eq_ok]
    simp only [forM_eq_ok, mem_range, pure_eq_ok, guard_eq_ok]
    constructor
    · rintro ⟨-, hcodes, ht⟩
      exact ⟨fun _ column hcolumn => by simpa using (hcodes column hcolumn).1, ht.symm⟩
    · rintro ⟨hcodes, ht⟩
      exact ⟨⟨⟩, fun column hcolumn => ⟨by simpa using hcodes hq column hcolumn, trivial⟩, ht.symm⟩
  · rw [if_neg hq]
    change Except.ok _ = .ok t ↔ _
    rw [Except.ok.injEq]
    constructor
    · intro ht
      exact ⟨fun h => absurd h hq, ht.symm⟩
    · rintro ⟨-, ht⟩
      exact ht.symm

theorem checkScales_eq_ok {data : List UInt8} :
    checkScales data l = .ok () ↔ ∀ index < l.scaleRows * l.scaleColumns, validScale (byte data)
      (l.scales + index * scaleItemsize l.scaleKind) l.scaleKind = true := by
  unfold checkScales
  simp only [forM_eq_ok, mem_range]
  refine forall₂_congr fun index _ => ?_
  by_cases hvalid : validScale (byte data)
      (l.scales + index * scaleItemsize l.scaleKind) l.scaleKind = true
  · simp [hvalid]
  · rw [if_neg hvalid]
    constructor
    · intro h
      split at h <;> cases h
    · intro h
      exact absurd h hvalid

/-- **What is parsed**: the well-formed payloads in which rounding up does not wrap. -/
theorem parse_eq_ok {data : List UInt8} :
    parse family data = .ok l ↔
      ∃ h, WellFormed family data h ∧ h.NoWrap ∧ l = h.layout data family := by
  unfold parse
  rw [bind_eq_ok]
  constructor
  · rintro ⟨h, hheader, hrest⟩
    obtain ⟨-, hheader, hgeometry, hwrap⟩ := parseHeader_eq_ok.mp hheader
    obtain ⟨u, hselectors, hrest⟩ := bind_eq_ok.mp hrest
    obtain ⟨layout, hlayout, hrest⟩ := bind_eq_ok.mp hrest
    obtain ⟨hlength, rfl⟩ := (layOut_eq_ok hgeometry hwrap).mp hlayout
    obtain ⟨u', hpalettes, hrest⟩ := bind_eq_ok.mp hrest
    obtain ⟨offset, hrows, hrest⟩ := bind_eq_ok.mp hrest
    obtain ⟨u'', hscales, hrest⟩ := bind_eq_ok.mp hrest
    refine ⟨h, ⟨hheader, hgeometry, hlength,
      ((checkSelectors_eq_ok hgeometry.outputs.1).mp hselectors).2,
      checkPalettes_eq_ok.mp hpalettes, (checkRows_eq_ok.mp hrows).1,
      checkScales_eq_ok.mp hscales⟩, hwrap, (pure_eq_ok.mp hrest).symm⟩
  · rintro ⟨h, hwell, hwrap, rfl⟩
    have hlength := hwell.length
    have hsymbols : symbolsAt h.outputs ≤ data.length := by
      rw [hlength, payloadBytes, scalesAt]
      omega
    have hheader : headerBytes ≤ data.length := by
      unfold symbolsAt palettesAt at hsymbols
      omega
    exact ⟨h, parseHeader_eq_ok.mpr ⟨hheader, hwell.header, hwell.geometry, hwrap⟩,
      bind_eq_ok.mpr ⟨⟨⟩, (checkSelectors_eq_ok hwell.geometry.outputs.1).mpr
        ⟨hsymbols, hwell.selectorPadding⟩,
      bind_eq_ok.mpr ⟨_, (layOut_eq_ok hwell.geometry hwrap).mpr ⟨hlength, rfl⟩,
      bind_eq_ok.mpr ⟨⟨⟩, checkPalettes_eq_ok.mpr hwell.palettes,
      bind_eq_ok.mpr ⟨_, checkRows_eq_ok.mpr ⟨hwell.codes, rfl⟩,
      bind_eq_ok.mpr ⟨⟨⟩, checkScales_eq_ok.mpr hwell.scales, rfl⟩⟩⟩⟩⟩⟩

/-! ### Row metadata -/

/-- The metadata of the first rows. -/
def metadataOf (data : List UInt8) (width n : Nat) : RowMetadata where
  q := (List.range n).map (readQ (selectors data))
  symbolByteOffsets := (List.range n).map (symbolBytes data width)

theorem metadataSteps_eq_ok {data : List UInt8} {h : Header} {s : RowMetadata × Nat} :
    (List.range h.outputs).foldlM (metadataStep data (h.layout data family))
        ({ q := [], symbolByteOffsets := [] }, 0) = .ok s ↔
      (∀ row < h.outputs, symbolBytes data h.width row < 2 ^ 32) ∧
        s = (metadataOf data h.width h.outputs, symbolBytes data h.width h.outputs) := by
  refine foldlM_range_eq_ok
    (s := fun n => (metadataOf data h.width n, symbolBytes data h.width n)) fun row _ t => ?_
  unfold metadataStep
  dsimp only
  rw [guard_eq_ok, symbolBytes_succ, metadataOf, metadataOf, range_succ, map_append,
    map_append, map_singleton, map_singleton, Except.ok.injEq, eq_comm (b := t)]
  have hlt : ¬2 ^ 32 - 1 < symbolBytes data h.width row ↔
      symbolBytes data h.width row < 2 ^ 32 := by omega
  rw [hlt]
  exact Iff.rfl

/-- **The metadata of a well-formed payload**: there is some when the symbols of each row start below
    `2 ^ 32`. -/
theorem rowMetadata_eq_ok {data : List UInt8} {h : Header} {m : RowMetadata}
    (hgeometry : Geometry family h) :
    rowMetadata data (h.layout data family) = .ok m ↔
      (∀ row < h.outputs, symbolBytes data h.width row < 2 ^ 32) ∧
        m = metadataOf data h.width h.outputs := by
  have houtputs := hgeometry.outputs.1
  have hwidth := hgeometry.width.1
  unfold rowMetadata
  rw [guard_eq_ok, bind_eq_ok]
  constructor
  · rintro ⟨-, s, hs, hm⟩
    obtain ⟨hsmall, rfl⟩ := metadataSteps_eq_ok.mp hs
    obtain ⟨-, hm⟩ := guard_eq_ok.mp hm
    exact ⟨hsmall, (Except.ok.inj hm).symm⟩
  · rintro ⟨hsmall, rfl⟩
    refine ⟨?_, _, metadataSteps_eq_ok.mpr ⟨hsmall, rfl⟩, guard_eq_ok.mpr ⟨?_, rfl⟩⟩
    · change ¬(h.outputs = 0 ∨ h.width = 0)
      omega
    · exact not_not.mpr rfl

theorem rowMetadata_error {data : List UInt8} {h : Header} (hgeometry : Geometry family h)
    (hlarge : ¬∀ row < h.outputs, symbolBytes data h.width row < 2 ^ 32) :
    rowMetadata data (h.layout data family)
      = .error (.runtimeError "FP8-SQ row offsets exceed uint32") := by
  have houtputs := hgeometry.outputs.1
  have hwidth := hgeometry.width.1
  have hpos : ¬((h.layout data family).outputs = 0 ∨ (h.layout data family).width = 0) := by
    change ¬(h.outputs = 0 ∨ h.width = 0)
    omega
  unfold rowMetadata
  rw [if_neg hpos]
  cases hs : (List.range h.outputs).foldlM (metadataStep data (h.layout data family))
      ({ q := [], symbolByteOffsets := [] }, 0) with
  | ok s => exact absurd (metadataSteps_eq_ok.mp hs).1 hlarge
  | error e =>
    have he : e = .runtimeError "FP8-SQ row offsets exceed uint32" := by
      refine foldlM_error (p := (· = _)) (fun s row e hstep => ?_) hs
      unfold metadataStep at hstep
      dsimp only at hstep
      split at hstep
      · exact (Except.error.inj hstep).symm
      · cases hstep
    change ((List.range h.outputs).foldlM _ _ >>= _) = _
    rw [hs, he]
    rfl

end TyloQuant.Fp8Sq
