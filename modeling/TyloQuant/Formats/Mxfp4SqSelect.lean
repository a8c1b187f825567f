import TyloQuant.Formats.Mxfp4SqConcat

/-!
# Rows that are selected

The selected rows are built again in the current format: each row of the result is the row that was
selected.
-/

namespace TyloQuant.Formats.Mxfp4Sq

open Lib Bytes ByteFile Bits List
open TyloQuant.Mxfp4Sq (sqCount nativeCount sqCount_succ nativeCount_succ)

/-! ### Rows of one kind -/

variable {i : Nat}

theorem getElem?_filter {α : Type} (p : α → Bool) {rows : List α} (hi : i < rows.length)
    (hp : p rows[i] = true) : (rows.filter p)[(rows.take i).countP p]? = some rows[i] := by
  have hsplit : rows.filter p = (rows.take i).filter p ++ rows[i] :: (rows.drop (i + 1)).filter p := by
    conv_lhs => rw [← take_append_drop i rows, drop_eq_getElem_cons hi]
    rw [filter_append, filter_cons_of_pos hp]
  rw [hsplit, countP_eq_length_filter, getElem?_append_right le_rfl, Nat.sub_self,
    getElem?_cons_zero]

variable {columns : Nat} {rows : List (List Int)} {values : List Int}

theorem row_stack (hi : rows[i]? = some values) (hlength : values.length = columns) :
    (IntArray.stack columns rows).row i = values := by
  have hvalues : rows.getD i [] = values := by
    rw [getD_eq_getElem?_getD, hi, Option.getD_some]
  unfold IntArray.row IntArray.stack
  dsimp only
  rw [hvalues]
  apply ext_getElem
  · simpa using hlength.symm
  · intro j hj hj'
    rw [getElem_map, getElem_range, getD_eq_getElem _ _ hj']

theorem stack_fits {top : Int} (h : ∀ values ∈ rows, RowFits columns top values) :
    ∀ v ∈ (IntArray.stack columns rows).flat, 0 ≤ v ∧ v ≤ top := by
  intro v hv
  obtain ⟨i, hi, hv⟩ := IntArray.mem_flat.mp hv
  have hlt : i < rows.length := hi
  have hfits := h _ (getElem_mem hlt)
  rw [row_stack (getElem?_eq_getElem hlt) hfits.1] at hv
  exact hfits.2 v hv

/-! ### Building them again -/

variable {r : Record}

section Rebuild

variable {inputSize : Nat} {base : Int} {selected : List Record}

/-- What the sources promise of the rows that are built again. -/
structure Selection (inputSize : Nat) (base : Int) (selected : List Record) : Prop where
  rows : 0 < selected.length ∧ selected.length ≤ 0x7fffffff
  width : 0 < inputSize ∧ inputSize ≤ 0x7fffffff ∧ inputSize % 32 = 0
  scaleBase : 0 ≤ base ∧ base ≤ 251
  ok : ∀ r ∈ selected, r.Ok inputSize

theorem rebuildInput_q (hi : i < selected.length) :
    (rebuildInput inputSize base selected).q i = selected[i].q := by
  change ((selected.map fun record => (record.q : Int)).getD i 0).toNat = _
  rw [getD_eq_getElem _ _ (by simpa using hi), getElem_map]
  rfl

variable {n : Nat}

theorem sqCount_rebuildInput (h : ∀ r ∈ selected, r.Ok inputSize) (hn : n ≤ selected.length) :
    sqCount (rebuildInput inputSize base selected).q n = (selected.take n).countP (·.q < 4) := by
  induction n with
  | zero => rfl
  | succ n ih =>
    have hwidth := (h _ (getElem_mem hn)).width
    rw [sqCount_succ, ih (by omega), rebuildInput_q hn, take_add_one,
      getElem?_eq_getElem hn, Option.toList_some, countP_append, countP_singleton]
    by_cases hq : selected[n].q = 4
    · simp [hq]
    · have hlt : selected[n].q < 4 := by omega
      simp [hq, hlt]

theorem nativeCount_rebuildInput (hn : n ≤ selected.length) :
    nativeCount (rebuildInput inputSize base selected).q n = (selected.take n).countP (·.q = 4) := by
  induction n with
  | zero => rfl
  | succ n ih =>
    rw [nativeCount_succ, ih (by omega), rebuildInput_q hn, take_add_one,
      getElem?_eq_getElem hn, Option.toList_some, countP_append, countP_singleton]
    simp

theorem stacked_row {p : Record → Bool} {field : Record → Option (List Int)}
    (hi : i < selected.length) (hp : p selected[i] = true)
    (hfield : field selected[i] = some values) (hlength : values.length = columns) :
    (IntArray.stack columns ((selected.filter p).map fun record => (field record).getD [])).row
      ((selected.take i).countP p) = values := by
  apply row_stack _ hlength
  rw [getElem?_map, getElem?_filter p hi hp, Option.map_some, hfield, Option.getD_some]

/-- **What is built again** has the rows that were selected. -/
theorem records_rebuildInput (h : ∀ r ∈ selected, r.Ok inputSize) :
    (rebuildInput inputSize base selected).records = selected := by
  have houtputs : (rebuildInput inputSize base selected).outputs = selected.length :=
    length_map _
  unfold BuildInput.records
  rw [houtputs]
  apply ext_getElem
  · simp
  · intro i hi' hi
    have hok := h _ (getElem_mem hi)
    have hsymbols : (rebuildInput inputSize base selected).rowSymbols.getD i [] =
        selected[i].symbols := by
      change (selected.map Record.symbols).getD i [] = _
      rw [getD_eq_getElem _ _ (by simpa using hi), getElem_map]
    rw [getElem_map, getElem_range, BuildInput.record, rebuildInput_q hi, hsymbols]
    by_cases hq : selected[i].q = 4
    · obtain ⟨scales, hscales, heq⟩ := hok.native hq
      have hrow : (rebuildInput inputSize base selected).sq4NativeScales.row
          ((selected.take i).countP (·.q = 4)) = scales :=
        stacked_row hi (by simpa using hq) (by rw [heq]) hscales.1
      rw [if_pos hq, nativeCount_rebuildInput (by omega), hrow]
      exact heq.symm
    · obtain ⟨selectors, scales, palettes, hselectors, hscales, hpalettes, heq⟩ := hok.side hq
      have hlt : selected[i].q < 4 := by
        have hwidth := hok.width
        omega
      have hselectorRow : (rebuildInput inputSize base selected).sqBlockSelectors.row
          ((selected.take i).countP (·.q < 4)) = selectors :=
        stacked_row hi (by simpa using hlt) (by rw [heq]) hselectors.1
      have hscaleRow : (rebuildInput inputSize base selected).sqStateScales.row
          ((selected.take i).countP (·.q < 4)) = scales :=
        stacked_row hi (by simpa using hlt) (by rw [heq]) hscales.1
      have hpaletteRow : (rebuildInput inputSize base selected).sqStatePalettes.row
          ((selected.take i).countP (·.q < 4)) = palettes :=
        stacked_row hi (by simpa using hlt) (by rw [heq]) hpalettes.1
      rw [if_neg hq, sqCount_rebuildInput h (by omega), hselectorRow, hscaleRow, hpaletteRow]
      exact heq.symm

theorem side_fits (h : ∀ r ∈ selected, r.Ok inputSize) (hr : r ∈ selected.filter (·.q < 4)) :
    RowFits (inputSize / 32) 1 (r.selectors.getD []) ∧ RowFits 8 3 (r.stateScales.getD []) ∧
      RowFits 8 31 (r.statePalettes.getD []) := by
  obtain ⟨hmem, hlt⟩ := mem_filter.mp hr
  have hne : r.q ≠ 4 := by
    have hlt : r.q < 4 := by simpa using hlt
    omega
  obtain ⟨selectors, scales, palettes, hselectors, hscales, hpalettes, heq⟩ := (h r hmem).side hne
  rw [heq]
  exact ⟨hselectors, hscales, hpalettes⟩

theorem native_fits (h : ∀ r ∈ selected, r.Ok inputSize) (hr : r ∈ selected.filter (·.q = 4)) :
    RowFits (inputSize / 32) 254 (r.nativeScales.getD []) := by
  obtain ⟨hmem, hfour⟩ := mem_filter.mp hr
  obtain ⟨scales, hscales, heq⟩ := (h r hmem).native (by simpa using hfour)
  rw [heq]
  exact hscales

theorem shaped_rebuildInput (h : Selection inputSize base selected) :
    (rebuildInput inputSize base selected).Shaped := by
  have houtputs : (rebuildInput inputSize base selected).outputs = selected.length :=
    length_map _
  have hwidth : (rebuildInput inputSize base selected).width = inputSize := rfl
  have hsq : (rebuildInput inputSize base selected).layout.sqRows =
      (selected.filter (·.q < 4)).length := by
    rw [BuildInput.sqRows_eq, houtputs, sqCount_rebuildInput h.ok le_rfl, take_length,
      countP_eq_length_filter]
  have hnative : (rebuildInput inputSize base selected).layout.sq4Rows
      = (selected.filter (·.q = 4)).length := by
    rw [BuildInput.sq4Rows_eq, houtputs, nativeCount_rebuildInput le_rfl, take_length,
      countP_eq_length_filter]
  have hrows := h.rows
  have hsize := h.width
  refine
    { rows := by omega
      inputSize := ?_
      widths := ?_
      rowSymbols := by rw [houtputs]; exact length_map _
      streams := ?_
      selectors := ?_
      stateScales := ?_
      statePalettes := ?_
      nativeScales := ?_ }
  · change 0 < (inputSize : Int) ∧ (inputSize : Int) % 32 = 0
    omega
  · intro q hq
    obtain ⟨r, hr, rfl⟩ := mem_map.mp hq
    have hwidth := (h.ok r hr).width
    omega
  · intro row hrow
    rw [houtputs] at hrow
    have hsymbols : (rebuildInput inputSize base selected).rowSymbols.getD row []
        = selected[row].symbols := by
      change (selected.map Record.symbols).getD row [] = _
      rw [getD_eq_getElem _ _ (by simpa using hrow), getElem_map]
    rw [hsymbols, hwidth, rebuildInput_q hrow]
    exact (h.ok _ (getElem_mem hrow)).symbols
  · rw [hsq, IntArray.shape]
    simp [rebuildInput, IntArray.stack, BuildInput.blocks, BuildInput.width]
  · rw [hsq, IntArray.shape]
    simp [rebuildInput, IntArray.stack]
  · rw [hsq, IntArray.shape]
    simp [rebuildInput, IntArray.stack]
  · rw [hnative, IntArray.shape]
    simp [rebuildInput, IntArray.stack, BuildInput.blocks, BuildInput.width]

/-- **The builder accepts** the rows again, and none of their numbers is negative. -/
theorem accepted_rebuildInput (h : Selection inputSize base selected) :
    (rebuildInput inputSize base selected).Accepted ∧
      (rebuildInput inputSize base selected).NonNegative := by
  have hselectors : ∀ v ∈ (rebuildInput inputSize base selected).sqBlockSelectors.flat,
      0 ≤ v ∧ v ≤ 1 := by
    refine stack_fits fun values hvalues => ?_
    obtain ⟨r, hr, rfl⟩ := mem_map.mp hvalues
    exact (side_fits h.ok hr).1
  have hscales : ∀ v ∈ (rebuildInput inputSize base selected).sqStateScales.flat, 0 ≤ v ∧ v ≤ 3 := by
    refine stack_fits fun values hvalues => ?_
    obtain ⟨r, hr, rfl⟩ := mem_map.mp hvalues
    exact (side_fits h.ok hr).2.1
  have hpalettes : ∀ v ∈ (rebuildInput inputSize base selected).sqStatePalettes.flat,
      0 ≤ v ∧ v ≤ 31 := by
    refine stack_fits fun values hvalues => ?_
    obtain ⟨r, hr, rfl⟩ := mem_map.mp hvalues
    exact (side_fits h.ok hr).2.2
  have hnative : ∀ v ∈ (rebuildInput inputSize base selected).sq4NativeScales.flat,
      0 ≤ v ∧ v ≤ 254 := by
    refine stack_fits fun values hvalues => ?_
    obtain ⟨r, hr, rfl⟩ := mem_map.mp hvalues
    exact native_fits h.ok hr
  have h255 : 255 ∉ (rebuildInput inputSize base selected).sq4NativeScales.flat.map uint8 := by
    intro hmem
    obtain ⟨v, hv, heq⟩ := mem_map.mp hmem
    have hrange := hnative v hv
    have hcast := toNat_uint8 hrange.1 (by omega)
    rw [heq] at hcast
    change (255 : Int) = v at hcast
    omega
  have houtputs : (rebuildInput inputSize base selected).outputs = selected.length :=
    length_map _
  have hdims : (rebuildInput inputSize base selected).outputs ≤ 0x7fffffff ∧
      (inputSize : Int) ≤ 0x7fffffff := by
    have hrows := h.rows
    have hsize := h.width
    omega
  refine ⟨⟨shaped_rebuildInput h, hdims, h.scaleBase, hselectors, fun v hv => (hscales v hv).2,
    fun v hv => (hpalettes v hv).2, fun v hv => (hnative v hv).2, h255⟩, ?_⟩
  exact ⟨fun v hv => (hscales v hv).1, fun v hv => (hpalettes v hv).1, fun v hv => (hnative v hv).1⟩

theorem rows_of_accepted (h : (rebuildInput inputSize base selected).Accepted) :
    0 < selected.length ∧ selected.length ≤ 0x7fffffff := by
  have houtputs : (rebuildInput inputSize base selected).outputs = selected.length :=
    length_map _
  rw [← houtputs]
  exact ⟨h.shaped.rows, h.dimensions.1⟩

end Rebuild

/-! ### Selecting -/

/-- Each index names the row at its place. -/
def Selects (rowIndices : Option (List Int)) (source rows : List Record) : Prop :=
  match rowIndices with
  | none => rows = source
  | some indices =>
    List.Forall₂ (fun index row => 0 ≤ index ∧ source[index.toNat]? = some row) indices rows

/-- The indices of some rows, at least one and all in range. -/
def InRange (rowIndices : Option (List Int)) (total : Nat) : Prop :=
  match rowIndices with
  | none => True
  | some indices => indices ≠ [] ∧ ∀ index ∈ indices, 0 ≤ index ∧ index < total

/-- How many rows are selected. -/
def selectedCount (rowIndices : Option (List Int)) (total : Nat) : Nat :=
  match rowIndices with
  | none => total
  | some indices => indices.length

variable {source : List Record}

theorem selects_filterMap {indices : List Int}
    (h : ∀ index ∈ indices, 0 ≤ index ∧ index < source.length) :
    List.Forall₂ (fun index row => 0 ≤ index ∧ source[index.toNat]? = some row) indices
      (indices.filterMap fun index => source[index.toNat]?) := by
  induction indices with
  | nil => exact .nil
  | cons index indices ih =>
    obtain ⟨hnonneg, hlt⟩ := h index mem_cons_self
    have hget : source[index.toNat]? = some source[index.toNat] := getElem?_eq_getElem (by omega)
    simp only [filterMap_cons, hget]
    exact .cons ⟨hnonneg, hget⟩ (ih fun i hi => h i (mem_cons_of_mem _ hi))

variable {rowIndices : Option (List Int)}

theorem selectRecords_eq_ok {selected : List Record} :
    selectRecords source rowIndices = .ok selected → InRange rowIndices source.length ∧
      Selects rowIndices source selected := by
  intro h
  cases rowIndices with
  | none => exact ⟨trivial, (Except.ok.inj h).symm⟩
  | some indices =>
    obtain ⟨hguard, h⟩ := guard_eq_ok.mp h
    obtain rfl := Except.ok.inj h
    simp only [not_or, Bool.not_eq_true, List.any_eq_false, decide_eq_true_eq, Int.not_lt,
      Int.not_le] at hguard
    obtain ⟨hne, hnonneg, hlt⟩ := hguard
    have hrange : ∀ index ∈ indices, 0 ≤ index ∧ index < source.length :=
      fun index hindex => ⟨hnonneg index hindex, hlt index hindex⟩
    exact ⟨⟨hne, hrange⟩, selects_filterMap hrange⟩

theorem selectRecords_of_inRange (h : InRange rowIndices source.length) :
    ∃ selected, selectRecords source rowIndices = .ok selected := by
  cases rowIndices with
  | none => exact ⟨source, rfl⟩
  | some indices =>
    obtain ⟨hne, hrange⟩ := h
    refine ⟨_, guard_eq_ok.mpr ⟨?_, rfl⟩⟩
    simp only [not_or, Bool.not_eq_true, List.any_eq_false, decide_eq_true_eq, Int.not_lt, Int.not_le]
    exact ⟨hne, fun index hindex => (hrange index hindex).1,
      fun index hindex => (hrange index hindex).2⟩

theorem Selects.length {rows : List Record} (h : Selects rowIndices source rows) :
    rows.length = selectedCount rowIndices source.length := by
  cases rowIndices with
  | none => rw [show rows = source from h, selectedCount]
  | some indices => exact (List.Forall₂.length_eq h).symm

theorem Selects.mem {rows : List Record} (h : Selects rowIndices source rows) (hr : r ∈ rows) :
    r ∈ source := by
  cases rowIndices with
  | none =>
    rw [show rows = source from h] at hr
    exact hr
  | some indices =>
    obtain ⟨i, hi, rfl⟩ := mem_iff_getElem.mp hr
    obtain ⟨-, hget⟩ := (forall₂_iff_get.mp h).2 i (by rw [List.Forall₂.length_eq h]; exact hi) hi
    exact mem_of_getElem? hget

/-! ### Concatenating -/

/-- The tensors are concatenated, and the rows of the result are the selected rows of the tensors. -/
def RowsSelected (tensors : List Mxfp4SqTensor) (rowIndices : Option (List Int)) : Prop :=
  ∃ t source rows,
    concatenateMxfp4SqRows tensors rowIndices = .ok t ∧ sourceRows tensors = .ok source ∧
    readRows t.payload = .ok rows ∧ Selects rowIndices source rows

/-- There are tensors, the indices are in range, and no more rows are selected than a tensor has. -/
def Selectable (tensors : List Mxfp4SqTensor) (rowIndices : Option (List Int)) : Prop :=
  let total := (tensors.map Mxfp4SqTensor.outputSize).sum
  tensors ≠ [] ∧ InRange rowIndices total ∧ selectedCount rowIndices total ≤ 0x7fffffff

/-- **When rows are concatenated**, for tensors of one width and one base. -/
theorem rowsSelected_iff {inputSize : Nat} {base : Int} {tensors : List Mxfp4SqTensor}
    (h : ∀ t ∈ tensors, t.Valid ∧ t.inputSize = inputSize ∧ t.matrixScaleBase = base)
    (rowIndices : Option (List Int)) :
    RowsSelected tensors rowIndices ↔ Selectable tensors rowIndices := by
  obtain ⟨source, hsource, hok, htotal, hsteps⟩ := addSources_eq h
  unfold Selectable
  dsimp only
  rw [← htotal]
  cases tensors with
  | nil =>
    constructor
    · rintro ⟨t, source, rows, ht, -⟩
      cases ht
    · rintro ⟨hne, -⟩
      exact absurd rfl hne
  | cons first tensors =>
    obtain ⟨hvalid, rfl, rfl⟩ := h first mem_cons_self
    obtain ⟨houtputs, hwidth, hbase⟩ := hvalid.bounds
    have hfold := hsteps []
    rw [List.nil_append] at hfold
    constructor
    · rintro ⟨t, -, -, ht, -⟩
      obtain ⟨records, hrecords, ht⟩ := bind_eq_ok.mp ht
      obtain rfl := Except.ok.inj (hfold.symm.trans hrecords)
      obtain ⟨selected, hselected, ht⟩ := bind_eq_ok.mp ht
      obtain ⟨hrange, hselects⟩ := selectRecords_eq_ok hselected
      have hrows := rows_of_accepted (BuildInput.buildMxfp4Sq_eq_ok.mp ht).1
      rw [hselects.length] at hrows
      exact ⟨by simp, hrange, hrows.2⟩
    · rintro ⟨-, hrange, hcount⟩
      obtain ⟨selected, hselected⟩ := selectRecords_of_inRange hrange
      have hselects := (selectRecords_eq_ok hselected).2
      have hpos : 0 < selectedCount rowIndices source.length := by
        cases rowIndices with
        | none =>
          rw [selectedCount, htotal, map_cons, sum_cons]
          omega
        | some indices => exact length_pos_of_ne_nil hrange.1
      have hselection : Selection first.inputSize first.matrixScaleBase selected :=
        { rows := by rw [hselects.length]; exact ⟨hpos, hcount⟩
          width := hwidth
          scaleBase := hbase
          ok := fun r hr => hok r (hselects.mem hr) }
      obtain ⟨haccepted, hnonneg⟩ := accepted_rebuildInput hselection
      have hbuild := BuildInput.buildMxfp4Sq_eq_ok.mpr ⟨haccepted, rfl⟩
      have hread := (BuildInput.lossless_iff.mpr (fun _ => hnonneg) _ hbuild).1
      rw [records_rebuildInput hselection.ok] at hread
      refine ⟨_, source, selected, ?_, hsource, hread, hselects⟩
      exact (bind_of_ok hfold _).trans ((bind_of_ok hselected _).trans hbuild)

/-- **Building is lossless or refused** exactly when an accepted input has no negative number among
its scales and palettes; concatenating returns the selected rows exactly when there are such rows. -/
theorem mxfp4_sq_lossless_iff (b : BuildInput) (tensors : List Mxfp4SqTensor) (inputSize : Nat)
    (base : Int) (rowIndices) :
    (Lossless b ↔ (b.Accepted → b.NonNegative)) ∧
    ((∀ t ∈ tensors, t.Valid ∧ t.inputSize = inputSize ∧ t.matrixScaleBase = base) →
      (RowsSelected tensors rowIndices ↔ Selectable tensors rowIndices)) :=
  ⟨BuildInput.lossless_iff, fun h => rowsSelected_iff h rowIndices⟩

/-! ### A row of each kind -/

/-- Two rows of 32 columns, of width 1 and of width 4. -/
def sampleInput (scale : Int) : BuildInput where
  rowQBits := [1, 4]
  inputSize := 32
  matrixScaleBase := 100
  rowSymbols := [[1, 2, 3, 4], List.replicate 16 7]
  sqBlockSelectors := ⟨1, 1, fun _ _ => 1⟩
  sqStateScales := ⟨1, 8, fun _ j => if j = 0 then scale else 0⟩
  sqStatePalettes := ⟨1, 8, fun _ j => j⟩
  sq4NativeScales := ⟨1, 1, fun _ _ => 120⟩

theorem mxfp4_sq_lossless_iff_sample :
    Lossless (sampleInput 2) ∧ RowsSelected [(sampleInput 2).tensor] (some [1, 0, 1]) := by
  have hvalid : packMxfp4Sq (sampleInput 2).tensor = .ok (sampleInput 2).payload := by decide +kernel
  constructor
  · refine (mxfp4_sq_lossless_iff (sampleInput 2) [] 32 100 none).1.mpr fun _ => ⟨?_, ?_, ?_⟩
    · decide +kernel
    · decide +kernel
    · decide +kernel
  · refine ((mxfp4_sq_lossless_iff (sampleInput 2) _ 32 100 _).2 ?_).mpr
      ⟨by simp, ⟨by simp, by decide⟩, by decide⟩
    intro t ht
    obtain rfl := mem_singleton.mp ht
    exact ⟨⟨_, hvalid⟩, rfl, rfl⟩

/-- A scale of `-1` is not looked at: it is packed as 255, and its bits are the scales of four states. -/
theorem negative_scale_spills : ∃ t rows, buildMxfp4Sq (sampleInput (-1)) = .ok t ∧
    readRows t.payload = .ok rows ∧
    rows.map Record.stateScales = [some [3, 3, 3, 3, 0, 0, 0, 0], none] ∧
    ¬Lossless (sampleInput (-1)) := by
  have hbuild : buildMxfp4Sq (sampleInput (-1)) = .ok (sampleInput (-1)).tensor := by decide +kernel
  have hread : ∃ rows, readRows (sampleInput (-1)).payload = .ok rows ∧
      rows.map Record.stateScales = [some [3, 3, 3, 3, 0, 0, 0, 0], none] := by
    refine ⟨_, rfl, ?_⟩
    decide +kernel
  obtain ⟨rows, hrows, hscales⟩ := hread
  refine ⟨_, rows, hbuild, hrows, hscales, fun hlossless => ?_⟩
  obtain ⟨hback, -⟩ := hlossless _ hbuild
  have heq : (sampleInput (-1)).records = rows := Except.ok.inj (hback.symm.trans hrows)
  rw [← heq] at hscales
  revert hscales
  decide +kernel

end TyloQuant.Formats.Mxfp4Sq
