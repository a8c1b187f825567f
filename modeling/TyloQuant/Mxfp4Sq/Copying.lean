import TyloQuant.Lib.Planes
import TyloQuant.Mxfp4Sq.Layouts

/-!
# Copying rows

The loop of `select_rows` fills the planes of the new payload side by side.  What each plane is to
have is given by the rows that are selected.
-/

namespace TyloQuant.Mxfp4Sq

open Lib Bytes ByteFile Bits List

/-! ### Packed numbers -/

theorem readPackedBits_eq (data : Nat → UInt8) (offset index : Nat) {bits : Nat} (hbits : bits ≤ 8) :
    readPackedBits data offset index bits = field data (8 * offset + index * bits) bits := by
  have hmask (x : Nat) : x &&& (1 <<< bits - 1) = x % 2 ^ bits := by
    rw [Nat.one_shiftLeft]
    exact Nat.and_two_pow_sub_one_eq_mod x bits
  have hshift : index * bits &&& 7 = (8 * offset + index * bits) % 8 := by
    rw [show 7 = 2 ^ 3 - 1 from rfl, Nat.and_two_pow_sub_one_eq_mod]
    omega
  have hbyte : offset + index * bits / 8 = (8 * offset + index * bits) / 8 := by omega
  unfold readPackedBits
  dsimp only
  rw [hmask, hshift, hbyte]
  split
  · exact pair_shiftRight data (by omega)
  · exact byte_shiftRight data (by omega)

theorem bit_writePackedBits (data : Nat → UInt8) (offset index : Nat) {bits value : Nat}
    (hbits : bits ≤ 8) (hvalue : value < 2 ^ bits) (i : Nat) :
    bit (writePackedBits data offset index bits value) i
      = (bit data i || (decide (8 * offset + bits * index ≤ i) &&
        value.testBit (i - (8 * offset + bits * index)))) := by
  have hshift : index * bits &&& 7 = (8 * offset + bits * index) % 8 := by
    rw [show 7 = 2 ^ 3 - 1 from rfl, Nat.and_two_pow_sub_one_eq_mod, Nat.mul_comm index]
    omega
  have hbyte : offset + index * bits / 8 = (8 * offset + bits * index) / 8 := by
    rw [Nat.mul_comm index]
    omega
  unfold writePackedBits
  dsimp only
  rw [hshift, hbyte]
  split
  · exact bit_orPair_field data (by omega) hvalue i
  · exact bit_orByte_field data (by omega) hvalue i

theorem readPackedQ_eq (data : Nat → UInt8) (row : Nat) :
    readPackedQ data row = 1 + field data (2 * row) 2 := by
  have hmask (x : Nat) : x &&& 3 = x % 2 ^ 2 := Nat.and_two_pow_sub_one_eq_mod x 2
  have hshift (x : Nat) : x &&& 7 = x % 8 := Nat.and_two_pow_sub_one_eq_mod x 3
  rw [readPackedQ, hmask, hshift, Nat.mul_comm row, byte_shiftRight data (by omega)]

/-! ### What is selected -/

/-- The planes of a payload. -/
inductive Plane where
  | header
  | qSelectors
  | symbols
  | selectors
  | scales
  | palettes
  | nativeScales
deriving DecidableEq, Repr

/-- The rows that are selected from an accepted payload, and the layout of the new one. -/
structure Choice where
  source : List UInt8
  src : Layout
  dst : Layout
  ids : List Nat
  columnBegin : Nat
  accepted : Accepted source src
  ids_lt : ∀ id ∈ ids, id < src.outputs
  columns : columnBegin + dst.width ≤ src.width
  columns_mod : columnBegin % 32 = 0
  layout_eq : adaptiveLayout ids.length dst.width src.base
    (ids.map (rowQ source src)).sum ((ids.map (rowQ source src)).countP (· = 4)) = .ok dst

namespace Choice

variable (x : Choice)

def id (i : Nat) : Nat := x.ids.getD i 0

/-- The width of the row at a place. -/
def q (i : Nat) : Nat := rowQ x.source x.src (x.id i)

def blocks : Nat := x.dst.width / 32

/-- The bytes of the symbols before a place. -/
def symbolStart (i : Nat) : Nat := ((List.range i).map fun j => x.dst.width * x.q j / 8).sum

/-- The symbols of the selected columns of the row at a place. -/
def symbolBytes (i : Nat) : List UInt8 :=
  (List.range (x.dst.width * x.q i / 8)).map fun k =>
    rowSymbols x.source x.src (x.id i) (x.columnBegin * x.q i / 8 + k)

/-- The places of the scalar rows, and of the native rows. -/
def sqPlaces : List Nat := (List.range x.ids.length).filter fun i => x.q i ≠ 4

def nativePlaces : List Nat := (List.range x.ids.length).filter fun i => x.q i = 4

def sqId (n : Nat) : Nat := x.id (x.sqPlaces.getD n 0)

def nativeId (n : Nat) : Nat := x.id (x.nativePlaces.getD n 0)

/-- What each plane is to have. -/
def value : Plane → Nat → Nat
  | .header, n => (byte (header x.src.base x.ids.length x.dst.width) n).toNat
  | .qSelectors, n => x.q n - 1
  | .symbols, n => (byte ((List.range x.ids.length).flatMap x.symbolBytes) n).toNat
  | .selectors, n => blockSelector x.source x.src (x.sqId (n / x.blocks))
      (x.columnBegin / 32 + n % x.blocks)
  | .scales, n => stateScale x.source x.src (x.sqId (n / 8)) (n % 8)
  | .palettes, n => statePalette x.source x.src (x.sqId (n / 8)) (n % 8)
  | .nativeScales, n => nativeScale x.source x.src (x.nativeId (n / x.blocks))
      (x.columnBegin / 32 + n % x.blocks)

/-- How many numbers each plane has after some rows. -/
def count (i : Nat) : Plane → Nat
  | .header => 24
  | .qSelectors => i
  | .symbols => x.symbolStart i
  | .selectors => sqCount x.q i * x.blocks
  | .scales => sqCount x.q i * 8
  | .palettes => sqCount x.q i * 8
  | .nativeScales => nativeCount x.q i * x.blocks

end Choice

theorem getD_filter_range {p : Nat → Bool} {n i : Nat} (hi : i < n) (hp : p i = true) :
    ((List.range n).filter p).getD ((List.range i).countP p) 0 = i := by
  obtain ⟨m, rfl⟩ := Nat.exists_eq_add_of_le hi
  rw [range_add, range_succ, filter_append, filter_append, filter_singleton,
    hp, List.append_assoc, getD_append_right _ _ _ _ (by rw [countP_eq_length_filter]),
    countP_eq_length_filter, Nat.sub_self]
  rfl

namespace Choice

variable (x : Choice)

/-! ### The planes -/

theorem getD_qs : x.ids.map (rowQ x.source x.src) = (List.range x.ids.length).map x.q := by
  apply ext_getElem
  · simp
  · intro i hi hi'
    have hi'' : i < x.ids.length := by simpa using hi
    rw [getElem_map, getElem_map, getElem_range, q, id,
      getD_eq_getElem _ _ hi'']

theorem q_range (i : Nat) : 1 ≤ x.q i ∧ x.q i ≤ 4 := x.accepted.q_range _

theorem native_total : (x.ids.map (rowQ x.source x.src)).countP (· = 4)
    = nativeCount x.q x.ids.length := by
  rw [getD_qs, countP_map]
  rfl

/-- The layout of the new payload. -/
structure Laid : Prop where
  length_pos : 0 < x.ids.length
  length_le : x.ids.length ≤ intMax
  width_pos : 0 < x.dst.width
  width_le : x.dst.width ≤ intMax
  width_mod : x.dst.width % 32 = 0
  version : x.dst.version = 2
  outputs : x.dst.outputs = x.ids.length
  base : x.dst.base = x.src.base
  qSelectors : x.dst.qSelectors = 24
  sqRows : x.dst.sqRows = sqCount x.q x.ids.length
  sq4Rows : x.dst.sq4Rows = nativeCount x.q x.ids.length
  symbols : x.dst.symbols = 24 + selectorBytes x.ids.length
  selectors : x.dst.selectors = x.dst.symbols + x.symbolStart x.ids.length
  scales : x.dst.scales = x.dst.selectors + (x.dst.sqRows * x.blocks + 7) / 8
  palettes : x.dst.palettes = x.dst.scales + x.dst.sqRows * 2
  nativeScales : x.dst.nativeScales = x.dst.palettes + x.dst.sqRows * 5
  bytes : x.dst.bytes = x.dst.nativeScales + x.dst.sq4Rows * x.blocks

theorem laid : x.Laid := by
  obtain ⟨⟨hpos, hwidth, hle, hwidth', hmod⟩, -, hlayout⟩ := adaptiveLayout_eq_ok.mp x.layout_eq
  have hsum := sum_symbol_bytes hmod (x.ids.map (rowQ x.source x.src))
  have hadd := sqCount_add_nativeCount x.q x.ids.length
  have hstart : x.symbolStart x.ids.length
      = (x.ids.map (rowQ x.source x.src)).sum * x.dst.width / 8 := by
    rw [← hsum, getD_qs, map_map]
    rfl
  have hsq : x.dst.sqRows = x.ids.length - nativeCount x.q x.ids.length := by
    rw [hlayout, ← native_total]
  refine
    { length_pos := hpos
      length_le := hle
      width_pos := hwidth
      width_le := hwidth'
      width_mod := hmod
      version := by rw [hlayout]
      outputs := by rw [hlayout]
      base := by rw [hlayout]
      qSelectors := by rw [hlayout]
      sqRows := by omega
      sq4Rows := by rw [hlayout, ← native_total]
      symbols := by rw [hlayout]
      selectors := ?_
      scales := ?_
      palettes := by rw [hlayout]
      nativeScales := by rw [hlayout]
      bytes := ?_ }
  · rw [hstart, hlayout]
  · rw [blocks, hlayout]
  · rw [blocks, hlayout]

theorem symbolStart_succ (i : Nat) :
    x.symbolStart (i + 1) = x.symbolStart i + x.dst.width * x.q i / 8 := by
  simp [symbolStart, range_succ]

def planes : Planes Plane where
  start
    | .header => 0
    | .qSelectors => 24
    | .symbols => x.dst.symbols
    | .selectors => x.dst.selectors
    | .scales => x.dst.scales
    | .palettes => x.dst.palettes
    | .nativeScales => x.dst.nativeScales
  bytes
    | .header => 24
    | .qSelectors => selectorBytes x.ids.length
    | .symbols => x.symbolStart x.ids.length
    | .selectors => (x.dst.sqRows * x.blocks + 7) / 8
    | .scales => x.dst.sqRows * 2
    | .palettes => x.dst.sqRows * 5
    | .nativeScales => x.dst.sq4Rows * x.blocks
  width
    | .header => 8
    | .qSelectors => 2
    | .symbols => 8
    | .selectors => 1
    | .scales => 2
    | .palettes => 5
    | .nativeScales => 8
  apart := by
    have hsymbols := x.laid.symbols
    have hselectors := x.laid.selectors
    have hscales := x.laid.scales
    have hpalettes := x.laid.palettes
    have hnativeScales := x.laid.nativeScales
    intro p q hne
    cases p <;> cases q <;> first | exact absurd rfl hne | (dsimp only; omega)

theorem symbolStart_mono {i j : Nat} (h : i ≤ j) : x.symbolStart i ≤ x.symbolStart j := by
  induction h with
  | refl => exact le_rfl
  | step _ ih =>
    rw [symbolStart_succ]
    omega

theorem room {i : Nat} (hi : i ≤ x.ids.length) (p : Plane) :
    x.planes.width p * x.count i p ≤ 8 * x.planes.bytes p := by
  have hsq : sqCount x.q i ≤ sqCount x.q x.ids.length := sqCount_mono hi
  have hnative : nativeCount x.q i ≤ nativeCount x.q x.ids.length := nativeCount_mono hi
  have hsymbols := x.symbolStart_mono hi
  rw [← x.laid.sqRows] at hsq
  rw [← x.laid.sq4Rows] at hnative
  have hsq' : sqCount x.q i * x.blocks ≤ x.dst.sqRows * x.blocks := Nat.mul_le_mul_right _ hsq
  have hnative' : nativeCount x.q i * x.blocks ≤ x.dst.sq4Rows * x.blocks :=
    Nat.mul_le_mul_right _ hnative
  cases p with
  | header => exact le_rfl
  | qSelectors =>
    change 2 * i ≤ 8 * selectorBytes x.ids.length
    unfold selectorBytes usedSelectorBytes
    omega
  | symbols => exact Nat.mul_le_mul_left 8 hsymbols
  | selectors =>
    change 1 * (sqCount x.q i * x.blocks) ≤ 8 * ((x.dst.sqRows * x.blocks + 7) / 8)
    omega
  | scales =>
    change 2 * (sqCount x.q i * 8) ≤ 8 * (x.dst.sqRows * 2)
    omega
  | palettes =>
    change 5 * (sqCount x.q i * 8) ≤ 8 * (x.dst.sqRows * 5)
    omega
  | nativeScales => exact Nat.mul_le_mul_left 8 hnative'

/-! ### One row -/

def selecting : Selecting where
  source := x.source
  src := x.src
  sourceRows := metadataOf x.source x.src x.src.outputs
  dst := x.dst
  columnBegin := x.columnBegin

/-- What the loop has written after some rows. -/
structure Copied (i : Nat) (s : SelectState) : Prop where
  holds : x.planes.Holds s.result (x.count i) x.value
  symbol : s.symbol = x.dst.symbols + x.symbolStart i
  sqRow : s.sqRow = sqCount x.q i
  nativeRow : s.nativeRow = nativeCount x.q i

variable {x} {i : Nat} {s : SelectState}

theorem id_lt (hi : i < x.ids.length) : x.id i < x.src.outputs := by
  rw [id, getD_eq_getElem _ _ hi]
  exact x.ids_lt _ (getElem_mem hi)

theorem getD_metadata {α : Type} (f : Nat → α) (a : α) (hi : i < x.ids.length) :
    ((List.range x.src.outputs).map f).getD (x.id i) a = f (x.id i) := by
  rw [getD_eq_getElem _ _ (by simpa using id_lt hi), getElem_map, getElem_range]

theorem sqId_eq (hi : i < x.ids.length) (hq : x.q i ≠ 4) : x.sqId (sqCount x.q i) = x.id i := by
  rw [sqId, sqPlaces, sqCount, getD_filter_range hi (by simpa using hq)]

theorem nativeId_eq (hi : i < x.ids.length) (hq : x.q i = 4) :
    x.nativeId (nativeCount x.q i) = x.id i := by
  rw [nativeId, nativePlaces, nativeCount, getD_filter_range hi (by simpa using hq)]

theorem value_symbols (hi : i < x.ids.length) {j : Nat} (hj : j < x.dst.width * x.q i / 8) :
    x.value .symbols (x.symbolStart i + j)
      = (rowSymbols x.source x.src (x.id i) (x.columnBegin * x.q i / 8 + j)).toNat := by
  have hrange : (List.range x.ids.length).getD i 0 = i := by
    rw [getD_eq_getElem _ _ (by simpa using hi), getElem_range]
  have hlength (i : Nat) : (x.symbolBytes i).length = x.dst.width * x.q i / 8 := by
    simp [symbolBytes]
  have hstart : x.symbolStart i
      = (((List.range x.ids.length).map fun i => (x.symbolBytes i).length).take i).sum := by
    simp only [hlength]
    rw [← map_take, take_range, Nat.min_eq_left hi.le, symbolStart]
  rw [value, hstart, byte_flatMap _ 0 (by simpa using hi) (by rw [hrange, hlength]; exact hj), hrange,
    symbolBytes, byte, getD_eq_getElem _ _ (by simpa using hj), getElem_map,
    getElem_range]

end Choice

end TyloQuant.Mxfp4Sq
