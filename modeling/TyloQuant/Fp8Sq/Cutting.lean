import TyloQuant.Lib.Planes
import TyloQuant.Fp8Sq.WellFormed

/-!
# Cutting out a part of the matrix

The loops of `slice` fill the planes of the new payload: the selectors and the symbols row by row,
then the scales.  What each plane is to have is given by the source and the ranges.
-/

namespace TyloQuant.Fp8Sq

open Lib Bytes ByteFile Bits List

/-- The planes of a payload. -/
inductive Plane where
  | header
  | qSelectors
  | palettes
  | symbols
  | scales
deriving DecidableEq, Repr

/-- A well-formed payload, and ranges of its rows and columns that are aligned to its blocks. -/
structure Cut where
  family : Family
  source : List UInt8
  h : Header
  rowBegin : Nat
  rowEnd : Nat
  columnBegin : Nat
  columnEnd : Nat
  wellFormed : WellFormed family source h
  noWrap : h.NoWrap
  rows : rowBegin < rowEnd ∧ rowEnd ≤ h.outputs
  columns : columnBegin < columnEnd ∧ columnEnd ≤ h.width
  rowBegin_mod : rowBegin % h.blockRows = 0
  columnBegin_mod : columnBegin % h.blockColumns = 0
  rowEnd_mod : rowEnd = h.outputs ∨ rowEnd % h.blockRows = 0
  columnEnd_mod : columnEnd = h.width ∨ columnEnd % h.blockColumns = 0

namespace Cut

variable (x : Cut)

def slicing : Slicing where
  source := x.source
  src := x.h.layout x.source x.family
  metadata := metadataOf x.source x.h.width x.h.outputs
  rowBegin := x.rowBegin
  rowEnd := x.rowEnd
  columnBegin := x.columnBegin
  columnEnd := x.columnEnd

/-- The geometry of the part. -/
def header : Header where
  scaleKind := x.h.scaleKind
  blockRows := x.h.blockRows
  blockColumns := x.h.blockColumns
  outputs := x.slicing.outputs
  width := x.slicing.width
  scaleRows := x.slicing.scaleRows
  scaleColumns := x.slicing.scaleColumns

def q (i : Nat) : Nat := readQ (selectors x.source) (x.rowBegin + i)

/-- The bytes of the symbols before a row. -/
def symbolStart (i : Nat) : Nat :=
  ((List.range i).map fun j => packedNbytes x.slicing.width (x.q j)).sum

/-- The bits of the columns in a row of the source, moved to the start of a byte. -/
def rowSymbols (i : Nat) : List UInt8 :=
  bitRange (byte x.source)
    (8 * (symbolsAt x.h.outputs + symbolBytes x.source x.h.width (x.rowBegin + i))
      + x.columnBegin * x.q i) (x.slicing.width * x.q i)

/-- The bytes of the scales in a row of blocks. -/
def scaleRowBytes : Nat := x.slicing.scaleColumns * x.slicing.itemsize

/-- A byte of the scales in a row of blocks. -/
def scaleByte (row k : Nat) : UInt8 :=
  byte x.source (scalesAt x.source x.h + ((x.rowBegin / x.h.blockRows + row) * x.h.scaleColumns
    + x.columnBegin / x.h.blockColumns) * x.slicing.itemsize + k)

/-- What each plane is to have. -/
def value : Plane → Nat → Nat
  | .header, n => (x.slicing.start n).toNat
  | .qSelectors, n => x.q n - 1
  | .palettes, n => (byte x.source (palettesAt x.h.outputs + n)).toNat
  | .symbols, n => (byte ((List.range x.slicing.outputs).flatMap x.rowSymbols) n).toNat
  | .scales, n => (x.scaleByte (n / x.scaleRowBytes) (n % x.scaleRowBytes)).toNat

/-- How many numbers each plane has after some rows, and some rows of scales. -/
def count (i m : Nat) : Plane → Nat
  | .header => headerBytes
  | .qSelectors => i
  | .palettes => paletteBytes
  | .symbols => x.symbolStart i
  | .scales => m * x.scaleRowBytes

theorem symbolStart_succ (i : Nat) :
    x.symbolStart (i + 1) = x.symbolStart i + packedNbytes x.slicing.width (x.q i) := by
  simp [symbolStart, range_succ]

theorem symbolStart_mono {i j : Nat} (h : i ≤ j) : x.symbolStart i ≤ x.symbolStart j := by
  induction h with
  | refl => exact le_rfl
  | step _ ih =>
    rw [symbolStart_succ]
    omega

theorem q_range (i : Nat) : 1 ≤ x.q i ∧ x.q i ≤ 8 := readQ_range _ _

def planes : Planes Plane where
  start
    | .header => 0
    | .qSelectors => headerBytes
    | .palettes => palettesAt x.slicing.outputs
    | .symbols => symbolsAt x.slicing.outputs
    | .scales => symbolsAt x.slicing.outputs + x.symbolStart x.slicing.outputs
  bytes
    | .header => headerBytes
    | .qSelectors => qBytes x.slicing.outputs
    | .palettes => paletteBytes
    | .symbols => x.symbolStart x.slicing.outputs
    | .scales => x.slicing.scaleRows * x.scaleRowBytes
  width
    | .qSelectors => 3
    | _ => 8
  apart := by
    have hpalettes : palettesAt x.slicing.outputs = headerBytes + qBytes x.slicing.outputs := rfl
    have hsymbols : symbolsAt x.slicing.outputs
        = palettesAt x.slicing.outputs + paletteBytes := rfl
    intro p q hne
    cases p <;> cases q <;> first | exact absurd rfl hne | (dsimp only; omega)

theorem room {i m : Nat} (hi : i ≤ x.slicing.outputs) (hm : m ≤ x.slicing.scaleRows) (p : Plane) :
    x.planes.width p * x.count i m p ≤ 8 * x.planes.bytes p := by
  cases p with
  | header => exact le_rfl
  | palettes => exact le_rfl
  | qSelectors =>
    change 3 * i ≤ 8 * qBytes x.slicing.outputs
    unfold qBytes usedQBytes packedNbytes
    omega
  | symbols => exact Nat.mul_le_mul_left 8 (x.symbolStart_mono hi)
  | scales => exact Nat.mul_le_mul_left 8 (Nat.mul_le_mul_right _ hm)

/-! ### The source -/

theorem columnBegin_mod_eight : x.columnBegin % 8 = 0 := by
  have hmod := x.columnBegin_mod
  have hcontract := x.wellFormed.geometry.contract
  have hblock : x.h.blockColumns = 32 ∨ x.h.blockColumns = 128 := by
    unfold Contract at hcontract
    split at hcontract
    · have hblocks := hcontract.2.1
      simp only [isMxfp8Block, Bool.or_eq_true, Bool.and_eq_true, decide_eq_true_eq] at hblocks
      omega
    · omega
  rcases hblock with hblock | hblock
  all_goals
    rw [hblock] at hmod
    omega

theorem outputs_le : x.rowBegin + x.slicing.outputs ≤ x.h.outputs := by
  have hrows := x.rows
  change x.rowBegin + (x.rowEnd - x.rowBegin) ≤ x.h.outputs
  omega

theorem width_le : x.columnBegin + x.slicing.width ≤ x.h.width := by
  have hcolumns := x.columns
  change x.columnBegin + (x.columnEnd - x.columnBegin) ≤ x.h.width
  omega

theorem slicing_q {i : Nat} (hi : i < x.slicing.outputs) : x.slicing.q (x.rowBegin + i) = x.q i := by
  have hle := x.outputs_le
  change ((List.range x.h.outputs).map (readQ (selectors x.source))).getD (x.rowBegin + i) 0 = x.q i
  rw [getD_eq_getElem _ _ (by simp; omega), getElem_map, getElem_range, q]

theorem slicing_offset {i : Nat} (hi : i < x.slicing.outputs) :
    x.slicing.metadata.symbolByteOffsets.getD (x.rowBegin + i) 0
      = symbolBytes x.source x.h.width (x.rowBegin + i) := by
  have hle := x.outputs_le
  change ((List.range x.h.outputs).map (symbolBytes x.source x.h.width)).getD (x.rowBegin + i) 0 = _
  rw [getD_eq_getElem _ _ (by simp; omega), getElem_map, getElem_range]

theorem scales_eq : x.slicing.scales
    = symbolsAt x.slicing.outputs + x.symbolStart x.slicing.outputs := by
  unfold Slicing.scales
  change (List.range' x.rowBegin x.slicing.outputs).foldl _ (symbolsAt x.slicing.outputs) = _
  rw [range'_eq_map_range, foldl_map]
  refine foldl_range_induction
    (p := fun i s => s = symbolsAt x.slicing.outputs + x.symbolStart i) rfl fun i hi s hs => ?_
  rw [hs, slicing_q x hi, symbolStart_succ, Nat.add_assoc]

/-! ### One row -/

/-- What the first loop has written after some rows. -/
structure Copied (i : Nat) (s : (Nat → UInt8) × Nat) : Prop where
  holds : x.planes.Holds s.1 (x.count i 0) x.value
  offset : s.2 = symbolsAt x.slicing.outputs + x.symbolStart i

variable {x} {i : Nat} {s : Nat → UInt8} {count : Plane → Nat}

theorem holds_writeSelector (h : x.planes.Holds s count x.value) (hcount : count .qSelectors = i)
    (hi : i < x.slicing.outputs) :
    x.planes.Holds (x.slicing.writeSelector s (x.rowBegin + i))
      (Function.update count .qSelectors (i + 1)) x.value := by
  have hq := x.q_range i
  have hroom := x.room (show i + 1 ≤ _ from hi) (Nat.zero_le _) .qSelectors
  have hlt : x.q i - 1 < 2 ^ 3 := by omega
  subst hcount
  refine h.set hroom hlt fun k => ?_
  change bit _ k = (bit s k || (decide (8 * headerBytes + 3 * count .qSelectors ≤ k) &&
    (x.q (count .qSelectors) - 1).testBit (k - (8 * headerBytes + 3 * count .qSelectors))))
  unfold Slicing.writeSelector
  dsimp only
  rw [slicing_q x hi, show (x.rowBegin + count .qSelectors - x.slicing.rowBegin) * 3
      = 3 * count .qSelectors by change (x.rowBegin + _ - x.rowBegin) * 3 = _; omega]
  have hshift : 3 * count .qSelectors % 8 = (8 * headerBytes + 3 * count .qSelectors) % 8 := by omega
  have hbyte : headerBytes + 3 * count .qSelectors / 8
      = (8 * headerBytes + 3 * count .qSelectors) / 8 := by omega
  rw [hshift, hbyte]
  split
  · exact bit_orPair_field s (by omega) hlt k
  · exact bit_orByte_field s (by omega) hlt k

theorem copySymbols_eq (s : Nat → UInt8) (offset : Nat) (hi : i < x.slicing.outputs) :
    x.slicing.copySymbols s offset (x.rowBegin + i)
      = put s offset (packedNbytes x.slicing.width (x.q i)) (byte (x.rowSymbols i)) := by
  have hq := x.q_range i
  have height := x.columnBegin_mod_eight
  have hwidth : 0 < x.slicing.width := by
    have hcolumns := x.columns
    change 0 < x.columnEnd - x.columnBegin
    omega
  have hbits : 0 < x.slicing.width * x.q i := Nat.mul_pos hwidth (by omega)
  have hbegin : x.columnBegin * x.q i = 8 * (x.columnBegin * x.q i / 8) := by
    have hmul : x.columnBegin * x.q i % 8 = 0 := by
      rw [Nat.mul_mod, height, Nat.zero_mul, Nat.zero_mod]
    omega
  have hpacked : packedNbytes x.slicing.width (x.q i) = (x.slicing.width * x.q i + 7) / 8 := rfl
  have hcopied (k : Nat) {j : Nat} (hj : j < 8) :
      (byte x.source (symbolsAt x.h.outputs + symbolBytes x.source x.h.width (x.rowBegin + i)
        + x.columnBegin * x.q i / 8 + k)).toNat.testBit j
      = bit (byte x.source) (8 * (symbolsAt x.h.outputs
        + symbolBytes x.source x.h.width (x.rowBegin + i)) + x.columnBegin * x.q i + (8 * k + j)) := by
    rw [testBit_byte, decide_eq_true hj, Bool.true_and]
    congr 1
    omega
  funext k
  unfold Slicing.copySymbols
  rw [slicing_q x hi, slicing_offset x hi]
  by_cases hin : offset ≤ k ∧ k < offset + packedNbytes x.slicing.width (x.q i)
  · have hput : put s offset (packedNbytes x.slicing.width (x.q i)) (byte (x.rowSymbols i)) k
        = byte (x.rowSymbols i) (k - offset) := if_pos hin
    have hput' (t : Nat → UInt8) : put s offset (packedNbytes x.slicing.width (x.q i)) t k
        = t (k - offset) := if_pos hin
    rw [hput]
    apply toNat_eq_of_bits
    intro j hj
    have hrow : (byte (x.rowSymbols i) (k - offset)).toNat.testBit j
        = (decide (8 * (k - offset) + j < x.slicing.width * x.q i) && bit (byte x.source)
          (8 * (symbolsAt x.h.outputs + symbolBytes x.source x.h.width (x.rowBegin + i))
            + x.columnBegin * x.q i + (8 * (k - offset) + j))) := by
      rw [testBit_byte, decide_eq_true hj, Bool.true_and, rowSymbols, bit_bitRange]
    rw [hrow]
    split
    · -- The last byte is cut off after the last column.
      unfold Slicing.maskByte
      split
      · rw [UInt8.toNat_and, Nat.testBit_and, testBit_ofNat, decide_eq_true hj, Bool.true_and,
          Nat.one_shiftLeft, Nat.testBit_two_pow_sub_one, hput', Bool.and_comm]
        congr 1
        · rw [decide_eq_decide]
          omega
        · exact hcopied _ hj
      · rw [hput', decide_eq_true (by omega), Bool.true_and]
        exact hcopied _ hj
    · rw [hput', decide_eq_true (by omega), Bool.true_and]
      exact hcopied _ hj
  · have hput (t : Nat → UInt8) : put s offset (packedNbytes x.slicing.width (x.q i)) t k = s k :=
      if_neg hin
    rw [hput]
    split
    · unfold Slicing.maskByte
      rw [if_neg (by omega), hput]
    · rw [hput]

theorem length_rowSymbols (i : Nat) :
    (x.rowSymbols i).length = packedNbytes x.slicing.width (x.q i) := by
  rw [rowSymbols, length_bitRange, packedNbytes]

theorem value_symbols (hi : i < x.slicing.outputs) {j : Nat}
    (hj : j < packedNbytes x.slicing.width (x.q i)) :
    x.value .symbols (x.symbolStart i + j) = (byte (x.rowSymbols i) j).toNat := by
  have hrange : (List.range x.slicing.outputs).getD i 0 = i := by
    rw [getD_eq_getElem _ _ (by simpa using hi), getElem_range]
  have hstart : x.symbolStart i
      = (((List.range x.slicing.outputs).map fun i => (x.rowSymbols i).length).take i).sum := by
    simp only [length_rowSymbols]
    rw [← map_take, take_range, Nat.min_eq_left hi.le, symbolStart]
  rw [value, hstart, byte_flatMap _ 0 (by simpa using hi)
    (by rw [hrange, length_rowSymbols]; exact hj), hrange]

/-- **One row adds its selector and its symbols.** -/
theorem copied_step {s : (Nat → UInt8) × Nat} (hi : i < x.slicing.outputs) (h : x.Copied i s) :
    x.Copied (i + 1) (x.slicing.step s (x.rowBegin + i)) := by
  have hsucc := x.symbolStart_succ i
  have hroom := x.symbolStart_mono (show i + 1 ≤ x.slicing.outputs from hi)
  refine ⟨?_, ?_⟩
  · have hselector : x.planes.Holds (x.slicing.writeSelector s.1 (x.rowBegin + i))
        (Function.update (x.count i 0) .qSelectors (i + 1)) x.value :=
      holds_writeSelector h.holds rfl hi
    have hput := hselector.put (p := Plane.symbols) (m := packedNbytes x.slicing.width (x.q i))
      (t := byte (x.rowSymbols i)) rfl
      (by
        change x.symbolStart i + packedNbytes x.slicing.width (x.q i) ≤ _
        rw [← hsucc]
        exact hroom)
      (fun j hj => value_symbols hi hj)
    have hcounts : Function.update (Function.update (x.count i 0) .qSelectors (i + 1)) .symbols
        (Function.update (x.count i 0) .qSelectors (i + 1) .symbols
          + packedNbytes x.slicing.width (x.q i)) = x.count (i + 1) 0 := by
      funext p
      cases p <;> simp [Function.update, Cut.count, hsucc]
    rw [hcounts] at hput
    change x.planes.Holds (x.slicing.copySymbols _ s.2 _) _ _
    rw [copySymbols_eq _ _ hi, h.offset]
    exact hput
  · change s.2 + packedNbytes x.slicing.width (x.slicing.q (x.rowBegin + i)) = _
    rw [slicing_q x hi, h.offset, hsucc, Nat.add_assoc]

/-! ### All rows -/

theorem start_of_ne {k : Nat} (hheader : headerBytes ≤ k)
    (hpalettes : k < palettesAt x.slicing.outputs ∨ symbolsAt x.slicing.outputs ≤ k) :
    x.slicing.start k = 0 := by
  have hheader' : headerBytes = 44 := rfl
  have hplace : x.slicing.palettes = palettesAt x.slicing.outputs := rfl
  have hsymbols : symbolsAt x.slicing.outputs = palettesAt x.slicing.outputs + paletteBytes := rfl
  simp only [Slicing.start, put]
  rw [if_neg (by omega), if_neg (by omega), if_neg (by omega), if_neg (by omega), if_neg (by omega),
    if_neg (by omega)]

theorem copied_zero : x.Copied 0 (x.slicing.start, symbolsAt x.slicing.outputs) := by
  have hsymbols : symbolsAt x.slicing.outputs = palettesAt x.slicing.outputs + paletteBytes := rfl
  have hplace : palettesAt x.slicing.outputs = headerBytes + qBytes x.slicing.outputs := rfl
  have hzero (p : Plane) (hp : x.count 0 0 p = 0)
      (hfree : ∀ k < x.planes.bytes p, x.slicing.start (x.planes.start p + k) = 0) :
      ∀ i < 8 * x.planes.bytes p, bit x.slicing.start (8 * x.planes.start p + i)
        = (decide (i < x.planes.width p * x.count 0 0 p) &&
          (x.value p (i / x.planes.width p)).testBit (i % x.planes.width p)) := by
    intro i hi
    unfold bit
    rw [show (8 * x.planes.start p + i) / 8 = x.planes.start p + i / 8 by omega,
      hfree _ (by omega), hp]
    simp
  refine ⟨fun p => ?_, rfl⟩
  cases p with
  | header =>
    intro i hi
    change i < 8 * headerBytes at hi
    change bit x.slicing.start (8 * 0 + i) = (decide (i < 8 * headerBytes) &&
      (x.slicing.start (i / 8)).toNat.testBit (i % 8))
    rw [decide_eq_true hi, Nat.mul_zero, Nat.zero_add, Bool.true_and]
    rfl
  | qSelectors =>
    refine hzero .qSelectors rfl fun k hk => ?_
    change k < qBytes x.slicing.outputs at hk
    exact start_of_ne (Nat.le_add_right _ _) (.inl (by change headerBytes + k < _; omega))
  | palettes =>
    intro i hi
    change i < 8 * paletteBytes at hi
    change bit x.slicing.start (8 * palettesAt x.slicing.outputs + i)
      = (decide (i < 8 * paletteBytes) &&
        (byte x.source (palettesAt x.h.outputs + i / 8)).toNat.testBit (i % 8))
    have hbyte : x.slicing.start (palettesAt x.slicing.outputs + i / 8)
        = byte x.source (palettesAt x.h.outputs + i / 8) := by
      change (if palettesAt x.slicing.outputs ≤ palettesAt x.slicing.outputs + i / 8 ∧
        palettesAt x.slicing.outputs + i / 8 < palettesAt x.slicing.outputs + paletteBytes then
        byte x.source (palettesAt x.h.outputs
          + (palettesAt x.slicing.outputs + i / 8 - palettesAt x.slicing.outputs)) else _) = _
      rw [if_pos (by omega), Nat.add_sub_cancel_left]
    rw [decide_eq_true hi, Bool.true_and]
    unfold bit
    rw [show (8 * palettesAt x.slicing.outputs + i) / 8 = palettesAt x.slicing.outputs + i / 8 by
      omega, hbyte, show (8 * palettesAt x.slicing.outputs + i) % 8 = i % 8 by omega]
  | symbols =>
    refine hzero .symbols rfl fun k _ => ?_
    exact start_of_ne (by change _ ≤ symbolsAt x.slicing.outputs + k; omega)
      (.inr (Nat.le_add_right _ _))
  | scales =>
    refine hzero .scales (Nat.zero_mul _) fun k _ => ?_
    exact start_of_ne (by
      change _ ≤ symbolsAt x.slicing.outputs + x.symbolStart x.slicing.outputs + k
      omega) (.inr (by
      change _ ≤ symbolsAt x.slicing.outputs + x.symbolStart x.slicing.outputs + k
      omega))

theorem copied_all : x.Copied x.slicing.outputs
    ((List.range' x.slicing.rowBegin x.slicing.outputs).foldl x.slicing.step
      (x.slicing.start, x.slicing.symbols)) := by
  rw [range'_eq_map_range, foldl_map]
  exact foldl_range_induction (p := fun i s => x.Copied i s) copied_zero fun i hi s hs =>
    copied_step hi hs

theorem scales_step {m : Nat} (hm : m < x.slicing.scaleRows)
    (h : x.planes.Holds s (x.count x.slicing.outputs m) x.value) :
    x.planes.Holds (x.slicing.copyScales s m) (x.count x.slicing.outputs (m + 1)) x.value := by
  have hroom : (m + 1) * x.scaleRowBytes ≤ x.slicing.scaleRows * x.scaleRowBytes :=
    Nat.mul_le_mul_right _ hm
  rw [Nat.succ_mul] at hroom
  have hput := h.put (p := Plane.scales) (m := x.scaleRowBytes) (t := x.scaleByte m) rfl hroom
    (fun j hj => by
      change (x.scaleByte ((m * x.scaleRowBytes + j) / x.scaleRowBytes)
        ((m * x.scaleRowBytes + j) % x.scaleRowBytes)).toNat = _
      rw [(place_div_mod hj).1, (place_div_mod hj).2])
  have hcounts : Function.update (x.count x.slicing.outputs m) Plane.scales
      (x.count x.slicing.outputs m .scales + x.scaleRowBytes) = x.count x.slicing.outputs (m + 1) := by
    funext p
    cases p <;> simp [Function.update, Cut.count, Nat.succ_mul]
  rw [hcounts] at hput
  unfold Slicing.copyScales
  dsimp only
  rw [scales_eq, Nat.mul_assoc]
  exact hput

/-- **After the last row the planes have what they are to have.** -/
theorem holds_written : x.planes.Holds x.slicing.written
    (x.count x.slicing.outputs x.slicing.scaleRows) x.value := by
  unfold Slicing.written
  exact foldl_range_induction
    (p := fun m s => x.planes.Holds s (x.count x.slicing.outputs m) x.value) copied_all.holds
    fun m hm s hs => scales_step hm hs

end Cut

end TyloQuant.Fp8Sq
