import Mathlib.Algebra.BigOperators.Ring.List
import Mathlib.Algebra.Order.BigOperators.Group.List
import Mathlib.Tactic.Ring
import TyloQuant.Mxfp4Sq.Blob

/-!
# Accepted payloads

What the parser has checked of a payload, as one statement for both versions, and the metadata of
its rows.
-/

namespace TyloQuant.Mxfp4Sq

open Lib Bytes ByteFile Bits List

/-! ### Counting rows -/

section Counts

variable (qs : Nat → Nat)

def nativeCount (n : Nat) : Nat := (List.range n).countP fun r => qs r = 4

def sqCount (n : Nat) : Nat := (List.range n).countP fun r => decide (qs r ≠ 4)

theorem nativeCount_succ (n : Nat) :
    nativeCount qs (n + 1) = nativeCount qs n + if qs n = 4 then 1 else 0 := by
  unfold nativeCount
  rw [range_succ, countP_append, countP_singleton]
  simp

theorem sqCount_succ (n : Nat) : sqCount qs (n + 1) = sqCount qs n + if qs n = 4 then 0 else 1 := by
  unfold sqCount
  rw [range_succ, countP_append, countP_singleton]
  split <;> simp_all

theorem sqCount_add_nativeCount (n : Nat) : sqCount qs n + nativeCount qs n = n := by
  induction n with
  | zero => rfl
  | succ n ih =>
    rw [sqCount_succ, nativeCount_succ]
    split <;> omega

variable {qs}

theorem sqCount_mono {i j : Nat} (h : i ≤ j) : sqCount qs i ≤ sqCount qs j := by
  induction h with
  | refl => exact le_rfl
  | step _ ih =>
    rw [sqCount_succ]
    omega

theorem nativeCount_mono {i j : Nat} (h : i ≤ j) : nativeCount qs i ≤ nativeCount qs j := by
  induction h with
  | refl => exact le_rfl
  | step _ ih =>
    rw [nativeCount_succ]
    omega

end Counts

/-! ### The layouts -/

/-- What an accepted payload has. -/
structure Accepted (data : List UInt8) (layout : Layout) : Prop where
  outputs_pos : 0 < layout.outputs
  outputs_le : layout.outputs ≤ intMax
  width_pos : 0 < layout.width
  width_le : layout.width ≤ intMax
  width_mod : layout.width % 32 = 0
  base_le : layout.base ≤ 251
  q_range : ∀ row, 1 ≤ rowQ data layout row ∧ rowQ data layout row ≤ 4
  sq4Rows_eq : layout.sq4Rows = nativeCount (rowQ data layout) layout.outputs
  sqRows_eq : layout.sqRows = sqCount (rowQ data layout) layout.outputs
  selectors_eq : layout.selectors = layout.symbols + symbolOffset data layout layout.outputs
  scales_eq : layout.scales = layout.selectors + (layout.sqRows * (layout.width / 32) + 7) / 8
  palettes_eq : layout.palettes = layout.scales + layout.sqRows * 2
  nativeScales_eq : layout.nativeScales = layout.palettes + layout.sqRows * 5
  bytes_eq : layout.bytes = layout.nativeScales + layout.sq4Rows * (layout.width / 32)
  length_eq : data.length = layout.bytes
  native_ne : ∀ k, layout.nativeScales ≤ k → k < layout.bytes → byte data k ≠ 255

variable {outputs width : Nat}

theorem checkedWeights_eq_ok {weights : Nat} :
    checkedWeights outputs width = .ok weights ↔
      (0 < outputs ∧ 0 < width ∧ outputs ≤ intMax ∧ width ≤ intMax ∧ width % 32 = 0) ∧
        outputs * width = weights := by
  unfold checkedWeights
  rw [guard_eq_ok, guard_eq_ok, Except.ok.injEq]
  constructor
  · rintro ⟨hgeometry, -, hweights⟩
    exact ⟨by omega, hweights⟩
  · rintro ⟨hgeometry, hweights⟩
    have hle : outputs * width ≤ intMax * intMax := Nat.mul_le_mul (by omega) (by omega)
    have hsmall : intMax * intMax ≤ sizeMax := by decide
    exact ⟨by omega, by omega, hweights⟩

theorem readPackedQ_range (data : Nat → UInt8) (row : Nat) :
    1 ≤ readPackedQ data row ∧ readPackedQ data row ≤ 4 := by
  have hle : (data (row * 2 / 8)).toNat >>> (row * 2 &&& 7) &&& 3 ≤ 3 := Nat.and_le_right
  unfold readPackedQ
  omega

theorem symbol_bytes (hmod : width % 32 = 0) (q : Nat) : width * q / 8 = width / 32 * (4 * q) := by
  have hwidth : width * q = 8 * (width / 32 * (4 * q)) := by
    calc width * q
        = 32 * (width / 32) * q := by rw [Nat.mul_div_cancel' (Nat.dvd_of_mod_eq_zero hmod)]
      _ = 8 * (width / 32 * (4 * q)) := by ring
  rw [hwidth, Nat.mul_div_cancel_left _ (by omega)]

/-- The symbols of all rows are as many bytes as their widths together give. -/
theorem sum_symbol_bytes (hmod : width % 32 = 0) (qs : List Nat) :
    (qs.map fun q => width * q / 8).sum = qs.sum * width / 8 := by
  have hmap : (qs.map fun q => width * q / 8) = qs.map fun q => width / 32 * (4 * q) :=
    map_congr_left fun q _ => symbol_bytes hmod q
  have hsum : (qs.map fun q => width / 32 * (4 * q)).sum = width / 32 * (4 * qs.sum) := by
    rw [sum_map_mul_left, sum_map_mul_left, map_id']
  rw [hmap, hsum, ← symbol_bytes hmod, Nat.mul_comm]

theorem symbolOffset_succ (data : List UInt8) (layout : Layout) (row : Nat) :
    symbolOffset data layout (row + 1)
      = symbolOffset data layout row + layout.width * rowQ data layout row / 8 := by
  simp [symbolOffset, range_succ]

variable {layout : Layout}

theorem rowQ_legacy (data : List UInt8) (hversion : layout.version = 1) (row : Nat) :
    rowQ data layout row = layout.bits := if_pos hversion

variable {data : List UInt8}

theorem accepted_legacy {bits base : Nat} (h : legacyLayout bits outputs width base = .ok layout)
    (hlength : data.length = layout.bytes) :
    Accepted data layout := by
  obtain ⟨weights, hweights, h⟩ := bind_eq_ok.mp h
  obtain ⟨⟨houtputs, hwidth, houtputs', hwidth', hmod⟩, rfl⟩ := checkedWeights_eq_ok.mp hweights
  obtain ⟨hchecks, h⟩ := guard_eq_ok.mp h
  obtain ⟨-, h⟩ := guard_eq_ok.mp h
  have hlayout := pure_eq_ok.mp h
  have hversion : layout.version = 1 := by rw [← hlayout]
  have hbits : layout.bits = bits := by rw [← hlayout]
  have hq (row : Nat) : rowQ data layout row = bits := (rowQ_legacy data hversion row).trans hbits
  have hnative (n : Nat) : nativeCount (rowQ data layout) n = 0 := by
    apply countP_eq_zero.mpr
    intro r _
    rw [hq, decide_eq_true_iff]
    omega
  have hsq (n : Nat) : sqCount (rowQ data layout) n = n := by
    have hadd := sqCount_add_nativeCount (rowQ data layout) n
    rw [hnative] at hadd
    omega
  have hoffset (n : Nat) : symbolOffset data layout n = n * (layout.width * bits / 8) := by
    simp [symbolOffset, hq]
  have hsymbols := symbol_bytes hmod bits
  have hblocks : outputs * width / 32 = outputs * (width / 32) :=
    Nat.mul_div_assoc _ (Nat.dvd_of_mod_eq_zero hmod)
  have hweights' : outputs * width * bits = 8 * (outputs * (width / 32 * (4 * bits))) := by
    calc outputs * width * bits
        = outputs * (32 * (width / 32)) * bits := by
          rw [Nat.mul_div_cancel' (Nat.dvd_of_mod_eq_zero hmod)]
      _ = 8 * (outputs * (width / 32 * (4 * bits))) := by ring
  refine
    { outputs_pos := by rw [← hlayout]; exact houtputs
      outputs_le := by rw [← hlayout]; exact houtputs'
      width_pos := by rw [← hlayout]; exact hwidth
      width_le := by rw [← hlayout]; exact hwidth'
      width_mod := by rw [← hlayout]; exact hmod
      base_le := by rw [← hlayout]; dsimp only; omega
      q_range := fun row => by rw [hq]; omega
      sq4Rows_eq := by rw [hnative, ← hlayout]
      sqRows_eq := by rw [hsq, ← hlayout]
      selectors_eq := ?_
      scales_eq := ?_
      palettes_eq := by rw [← hlayout]
      nativeScales_eq := by rw [← hlayout]
      bytes_eq := by rw [← hlayout]; simp
      length_eq := hlength
      native_ne := fun k hk hlt => ?_ }
  · rw [hoffset, ← hlayout]
    dsimp only
    rw [hsymbols, hweights']
    omega
  · rw [← hlayout]
    dsimp only
    rw [hblocks]
  · rw [← hlayout] at hk hlt
    dsimp only at hk hlt
    omega

theorem adaptiveLayout_eq_ok {base qSum sq4Rows : Nat} :
    adaptiveLayout outputs width base qSum sq4Rows = .ok layout ↔
      (0 < outputs ∧ 0 < width ∧ outputs ≤ intMax ∧ width ≤ intMax ∧ width % 32 = 0) ∧
      (base ≤ 251 ∧ sq4Rows ≤ outputs ∧ outputs ≤ qSum ∧ qSum ≤ outputs * 4) ∧
      layout =
        { version := 2, bits := 0, outputs, width, base, sqRows := outputs - sq4Rows, sq4Rows
          qSelectors := 24
          symbols := 24 + selectorBytes outputs
          selectors := 24 + selectorBytes outputs + qSum * width / 8
          scales := 24 + selectorBytes outputs + qSum * width / 8
            + ((outputs - sq4Rows) * (width / 32) + 7) / 8
          palettes := 24 + selectorBytes outputs + qSum * width / 8
            + ((outputs - sq4Rows) * (width / 32) + 7) / 8 + (outputs - sq4Rows) * 2
          nativeScales := 24 + selectorBytes outputs + qSum * width / 8
            + ((outputs - sq4Rows) * (width / 32) + 7) / 8 + (outputs - sq4Rows) * 2
            + (outputs - sq4Rows) * 5
          bytes := 24 + selectorBytes outputs + qSum * width / 8
            + ((outputs - sq4Rows) * (width / 32) + 7) / 8 + (outputs - sq4Rows) * 2
            + (outputs - sq4Rows) * 5 + sq4Rows * (width / 32) } := by
  constructor
  · intro h
    obtain ⟨weights, hweights, h⟩ := bind_eq_ok.mp h
    obtain ⟨hgeometry, rfl⟩ := checkedWeights_eq_ok.mp hweights
    obtain ⟨hchecks, h⟩ := guard_eq_ok.mp h
    obtain ⟨-, h⟩ := guard_eq_ok.mp h
    obtain ⟨-, h⟩ := guard_eq_ok.mp h
    exact ⟨hgeometry, by omega, (pure_eq_ok.mp h).symm⟩
  · rintro ⟨hgeometry, hchecks, rfl⟩
    -- The sizes are far below the bounds.
    have hsum : qSum * width ≤ intMax * 4 * intMax := Nat.mul_le_mul (by omega) hgeometry.2.2.2.1
    have hnative : sq4Rows * (width / 32) ≤ intMax * intMax := Nat.mul_le_mul (by omega) (by omega)
    have hsq : (outputs - sq4Rows) * (width / 32) ≤ intMax * intMax :=
      Nat.mul_le_mul (by omega) (by omega)
    have hselectors : selectorBytes outputs ≤ 2 ^ 31 := by
      have hle : outputs ≤ 2 ^ 31 - 1 := hgeometry.2.2.1
      unfold selectorBytes usedSelectorBytes
      omega
    have hint : intMax = 2147483647 := rfl
    have hsize : sizeMax = 18446744073709551615 := rfl
    have hmax : intMax * 4 * intMax = 18446744056529682436 := rfl
    have hsquare : intMax * intMax = 4611686014132420609 := rfl
    refine bind_eq_ok.mpr ⟨_, checkedWeights_eq_ok.mpr ⟨hgeometry, rfl⟩, ?_⟩
    rw [guard_eq_ok]
    refine ⟨by omega, ?_⟩
    dsimp only
    rw [guard_eq_ok, guard_eq_ok]
    refine ⟨?_, by omega, rfl⟩
    rw [Nat.not_lt, Nat.le_div_iff_mul_le hgeometry.2.1]
    omega

theorem rowQ_adaptive (data : List UInt8) (hversion : layout.version = 2)
    (hselectors : layout.qSelectors = 24) (row : Nat) :
    rowQ data layout row = readPackedQ (fun k => byte data (24 + k)) row := by
  rw [rowQ, if_neg (by omega), hselectors]

theorem accepted_adaptive (h : parseAdaptive data outputs width = .ok layout) :
    Accepted data layout := by
  obtain ⟨-, -, h⟩ := bind_eq_ok.mp h
  obtain ⟨-, h⟩ := guard_eq_ok.mp h
  obtain ⟨-, h⟩ := guard_eq_ok.mp h
  obtain ⟨-, h⟩ := guard_eq_ok.mp h
  obtain ⟨layout', hlayout, h⟩ := bind_eq_ok.mp h
  obtain ⟨hlength, h⟩ := guard_eq_ok.mp h
  obtain ⟨hnative, h⟩ := guard_eq_ok.mp h
  obtain rfl := Except.ok.inj h
  obtain ⟨⟨houtputs, hwidth, houtputs', hwidth', hmod⟩, hchecks, hlayout⟩ :=
    adaptiveLayout_eq_ok.mp hlayout
  have hq (row : Nat) : rowQ data layout' row = readPackedQ (fun k => byte data (24 + k)) row :=
    rowQ_adaptive data (by rw [hlayout]) (by rw [hlayout]) row
  have hfour : nativeCount (rowQ data layout') outputs
      = ((List.range outputs).map (readPackedQ fun k => byte data (24 + k))).countP (· = 4) := by
    rw [countP_map, nativeCount]
    exact countP_congr fun r _ => by rw [Function.comp_apply, hq]
  have hadd := sqCount_add_nativeCount (rowQ data layout') outputs
  have hsum := sum_symbol_bytes hmod
    ((List.range outputs).map (readPackedQ fun k => byte data (24 + k)))
  rw [map_map] at hsum
  have hoffset : symbolOffset data layout' outputs
      = ((List.range outputs).map (readPackedQ fun k => byte data (24 + k))).sum * width / 8 := by
    rw [← hsum, symbolOffset, show layout'.width = width by rw [hlayout]]
    exact congrArg List.sum (map_congr_left fun r _ => by rw [Function.comp_apply, hq])
  refine
    { outputs_pos := by rw [hlayout]; exact houtputs
      outputs_le := by rw [hlayout]; exact houtputs'
      width_pos := by rw [hlayout]; exact hwidth
      width_le := by rw [hlayout]; exact hwidth'
      width_mod := by rw [hlayout]; exact hmod
      base_le := by rw [hlayout]; exact hchecks.1
      q_range := fun row => by rw [hq]; exact readPackedQ_range _ _
      sq4Rows_eq := ?_
      sqRows_eq := ?_
      selectors_eq := ?_
      scales_eq := by rw [hlayout]
      palettes_eq := by rw [hlayout]
      nativeScales_eq := by rw [hlayout]
      bytes_eq := by rw [hlayout]
      length_eq := by omega
      native_ne := fun k hk hlt hbyte => hnative ?_ }
  · rw [show layout'.outputs = outputs by rw [hlayout], hfour, hlayout]
  · rw [show layout'.outputs = outputs by rw [hlayout],
      show layout'.sqRows = outputs - ((List.range outputs).map
        (readPackedQ fun k => byte data (24 + k))).countP (· = 4) by rw [hlayout], ← hfour]
    omega
  · rw [show layout'.outputs = outputs by rw [hlayout], hoffset, hlayout]
  · rw [any_eq_true]
    refine ⟨k, ?_, decide_eq_true hbyte⟩
    rw [mem_range'_1]
    omega

/-- **An accepted payload of either version.** -/
theorem parse_accepted (h : parse data = .ok layout) : Accepted data layout := by
  unfold parse at h
  rw [guard_eq_ok, guard_eq_ok, guard_eq_ok] at h
  obtain ⟨-, -, -, h⟩ := h
  split at h
  · obtain ⟨layout', hlayout, h⟩ := bind_eq_ok.mp h
    obtain ⟨hlength, h⟩ := guard_eq_ok.mp h
    obtain rfl := Except.ok.inj h
    exact accepted_legacy hlayout (by omega)
  · exact accepted_adaptive h

/-! ### Row metadata -/

/-- The metadata of the first rows. -/
def metadataOf (data : List UInt8) (layout : Layout) (n : Nat) : RowMetadata where
  q := (List.range n).map (rowQ data layout)
  symbolByteOffsets := (List.range n).map (symbolOffset data layout)
  auxiliaryRows := (List.range n).map (auxiliaryRow data layout)

theorem auxiliaryRow_eq (data : List UInt8) (layout : Layout) (row : Nat) :
    auxiliaryRow data layout row = if rowQ data layout row = 4 then
      nativeCount (rowQ data layout) row else sqCount (rowQ data layout) row := by
  unfold auxiliaryRow nativeCount sqCount
  split
  · rename_i hq
    exact countP_congr fun r _ => by simp [hq]
  · rename_i hq
    exact countP_congr fun r _ => by simp [hq]

theorem metadataSteps_ok {n : Nat} (h : ∀ row < n, symbolOffset data layout row < 2 ^ 32) :
    (List.range n).foldlM (metadataStep data layout)
        { result := { q := [], symbolByteOffsets := [], auxiliaryRows := [] }
          symbolOffset := 0, sqRank := 0, nativeRank := 0 }
      = .ok
        { result := metadataOf data layout n
          symbolOffset := symbolOffset data layout n
          sqRank := sqCount (rowQ data layout) n
          nativeRank := nativeCount (rowQ data layout) n } := by
  induction n with
  | zero => rfl
  | succ n ih =>
    have hn := h n (by omega)
    rw [range_succ, foldlM_append]
    refine (bind_of_ok (ih fun row hrow => h row (by omega)) _).trans ?_
    rw [foldlM_cons]
    unfold metadataStep
    dsimp only
    rw [if_neg (by omega)]
    refine congrArg Except.ok ?_
    rw [symbolOffset_succ, sqCount_succ, nativeCount_succ, metadataOf, metadataOf, range_succ,
      map_append, map_append, map_append, map_singleton, map_singleton,
      map_singleton, auxiliaryRow_eq]
    split
    · rfl
    · rfl

theorem metadataSteps_small {n : Nat} {s : MetadataState}
    (h : (List.range n).foldlM (metadataStep data layout)
        { result := { q := [], symbolByteOffsets := [], auxiliaryRows := [] }
          symbolOffset := 0, sqRank := 0, nativeRank := 0 } = .ok s) :
    ∀ row < n, symbolOffset data layout row < 2 ^ 32 := by
  induction n generalizing s with
  | zero => simp
  | succ n ih =>
    rw [range_succ, foldlM_append] at h
    obtain ⟨s', hs', h⟩ := bind_eq_ok.mp h
    have hsmall := ih hs'
    obtain rfl := Except.ok.inj ((metadataSteps_ok hsmall).symm.trans hs')
    rw [foldlM_cons] at h
    obtain ⟨s'', hs'', -⟩ := bind_eq_ok.mp h
    unfold metadataStep at hs''
    obtain ⟨hle, -⟩ := guard_eq_ok.mp hs''
    dsimp only at hle
    intro row hrow
    rcases Nat.lt_succ_iff_lt_or_eq.mp hrow with hlt | rfl
    · exact hsmall row hlt
    · omega

/-- **The metadata of an accepted payload**: there is some when each row's symbols start below
    `2 ^ 32`. -/
theorem rowMetadata_eq_ok (h : Accepted data layout) {m : RowMetadata} :
    rowMetadata data layout = .ok m ↔
      (∀ row < layout.outputs, symbolOffset data layout row < 2 ^ 32) ∧
        m = metadataOf data layout layout.outputs := by
  have houtputs := h.outputs_pos
  have hwidth := h.width_pos
  have hselectors := h.selectors_eq
  have hsq := h.sqRows_eq
  have hnative := h.sq4Rows_eq
  unfold rowMetadata
  rw [guard_eq_ok, bind_eq_ok]
  constructor
  · rintro ⟨-, s, hs, hm⟩
    have hsmall := metadataSteps_small hs
    obtain rfl := Except.ok.inj ((metadataSteps_ok hsmall).symm.trans hs)
    obtain ⟨-, hm⟩ := guard_eq_ok.mp hm
    exact ⟨hsmall, (Except.ok.inj hm).symm⟩
  · rintro ⟨hsmall, rfl⟩
    refine ⟨by omega, _, metadataSteps_ok hsmall, ?_⟩
    rw [guard_eq_ok]
    dsimp only
    exact ⟨by omega, rfl⟩

end TyloQuant.Mxfp4Sq
