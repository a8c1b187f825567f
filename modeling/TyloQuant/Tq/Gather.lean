import Mathlib.Data.List.SplitBy
import TyloQuant.Tq.ReadRows

/-!
# Any rows of a tensor

The rows that are asked for are read in runs of consecutive rows, each once, and put in the order
in which they were asked for.  What comes out is their selection.
-/

namespace TyloQuant.Tq

open Lib Bytes ByteFile List

theorem unpackSelectors_eq (scales : List UInt8) :
    unpackSelectors scales = (List.range (scales.length * 2)).map (selectorAt scales) := by
  have hscales : (List.range scales.length).map (byte scales) = scales := by
    apply ext_getElem
    · simp
    · intro i hi hi'
      rw [getElem_map, getElem_range, byte, getD_eq_getElem _ _ hi']
  have hpair (r : Nat) : [(byte scales r).toNat &&& 15, (byte scales r).toNat >>> 4]
      = (List.range 2).map fun i => (byte scales r).toNat >>> (i * 4) &&& 15 := by
    have hlt : (byte scales r).toNat >>> 4 < 16 := by
      have hbyte := (byte scales r).toNat_lt
      rw [Nat.shiftRight_eq_div_pow]
      omega
    have hmask : (byte scales r).toNat >>> 4 &&& 15 = (byte scales r).toNat >>> 4 := by
      rw [show 15 = 2 ^ 4 - 1 from rfl, Nat.and_two_pow_sub_one_eq_mod, Nat.mod_eq_of_lt hlt]
    simp [range_succ, hmask]
  conv_lhs => rw [← hscales]
  rw [unpackSelectors, flatMap_map]
  simp only [hpair]
  rw [flatMap_range_map]
  apply map_congr_left
  intro i _
  rw [selectorAt, Nat.and_one_is_mod]

theorem run_eq_range' {run : List Nat} (h : run.IsChain fun a b => decide (b = a + 1) = true) :
    run = List.range' (run.headD 0) run.length := by
  induction run with
  | nil => rfl
  | cons a run ih =>
    cases run with
    | nil => rfl
    | cons b run =>
      rw [isChain_cons_cons] at h
      obtain ⟨hb, hrest⟩ := h
      have hnext := ih hrest
      have hb' : b = a + 1 := of_decide_eq_true hb
      rw [length_cons, range'_succ]
      congr 1
      rw [hnext, hb']
      simp

theorem mem_unique {requested : List Nat} {a : Nat} : a ∈ TQRows.unique requested ↔ a ∈ requested := by
  rw [TQRows.unique, mem_dedup, mem_mergeSort]

namespace TQTensor

variable {t : TQTensor}

/-- What was kept of a row is the row, whatever its offset was where it was read. -/
structure Reads (t : TQTensor) (row : Nat) (s : TQRows.Selection) : Prop where
  descriptor : ∃ off, t.Places off ∧ s.descriptor = t.place (t.descriptor row) off
  stream : s.stream = t.rowSlice row
  scale : ∀ scales, t.scales = .columns scales → s.scale = .columns scales
  values : t.columns = false → s.scale.values = t.rowSelectors row

theorem selection_reads {chunk : TQTensor} {ids : List Nat} (h : chunk.toComponents = t.select ids)
    (hrange : ∀ id ∈ ids, id < t.rows) (hroom : t.Room ids) {i : Nat} (hi : i < ids.length) :
    t.Reads (ids.getD i 0) (TQRows.selection chunk i) := by
  have hrow : i < chunk.rows := by
    rw [h]
    exact hi
  have hstream : (TQRows.selection chunk i).stream = chunk.rowSlice i := by
    have hoffset := chunk.sound.offset_eq hrow
    have hbytes := chunk.sound.row_bytes (chunk.descriptor i)
    change (chunk.packed.drop (chunk.offset (chunk.descriptor i) * 4)).take
      (chunk.width * bitsOf (chunk.descriptor i).toNat / 8) = _
    rw [hoffset, hbytes]
    rfl
  have hgroups : chunk.groups = t.groups := by
    rw [h, Components.groups_select]
  refine ⟨descriptor_select h hrange hroom hi, ?_, fun scales hscales => ?_, fun hcolumns => ?_⟩
  · rw [hstream, rowSlice_select h hrange hroom hi]
  · have hchunk : chunk.scales = .columns scales := by
      rw [h, Components.scales_select_columns hscales]
    simp only [TQRows.selection, hchunk]
  · cases hscales : t.scales with
    | columns scales =>
      rw [Components.columns, hscales] at hcolumns
      cases hcolumns
    | selectors scales =>
      have hchunk : chunk.scales = .selectors (packSelectors (ids.flatMap t.rowSelectors)) := by
        rw [h, Components.scales_select_selectors hscales]
      have hlength := Components.length_rowSelectors hscales
      have hsum : (ids.flatMap t.rowSelectors).length = ids.length * t.groups := by
        rw [length_flatMap]
        simp [hlength]
      have hmul : (i + 1) * t.groups ≤ ids.length * t.groups := Nat.mul_le_mul_right _ hi
      rw [Nat.succ_mul] at hmul
      have hlt (j : Nat) : (UInt8.ofNat (selectorAt (packSelectors
          (ids.flatMap t.rowSelectors)) j)).toNat
          = selectorAt (packSelectors (ids.flatMap t.rowSelectors)) j :=
        UInt8.toNat_ofNat_of_lt' (lt_of_lt_of_le (selectorAt_lt _ _) (by decide))
      simp only [TQRows.selection, hchunk, Scales.values, unpackSelectors_eq, hgroups]
      apply ext_getElem
      · simp [hlength, Components.length_packSelectors, hsum]
        omega
      · intro g hg hg'
        have hg'' : g < t.groups := by rwa [hlength] at hg'
        simp only [getElem_map, getElem_take, getElem_drop, getElem_range, hlt]
        rw [Components.selectorAt_select hscales hi hg'']
        simp only [Components.rowSelectors, hscales, getElem_map, getElem_range]

/-! ### Runs -/

theorem readRun_ok (hfits : t.Fits) {run : List Nat} (hne : run ≠ [])
    (hrun : run = List.range' (run.headD 0) run.length) (hrange : ∀ id ∈ run, id < t.rows) :
    ∃ entries, t.reader.readRun run = .ok entries ∧ entries.map Prod.fst = run ∧
      ∀ e ∈ entries, t.Reads e.1 e.2 := by
  have hpos : 0 < run.length := length_pos_iff.mpr hne
  generalize hn : run.length = n at hrun hpos
  generalize run.headD 0 = a at hrun
  have hlast : run.getLastD 0 + 1 = a + n := by
    rw [hrun, getLastD_eq_getLast?, getLast?_range', if_neg (by omega)]
    simp
    omega
  have hhead : run.headD 0 = a := by
    obtain ⟨m, rfl⟩ : ∃ m, n = m + 1 := ⟨n - 1, by omega⟩
    rw [hrun, range'_succ]
    rfl
  have hend : a + n ≤ t.rows := by
    have hmem : a + (n - 1) ∈ run := by
      rw [hrun, mem_range'_1]
      omega
    have hlt := hrange _ hmem
    omega
  obtain ⟨chunk, hchunk, -, -, hselect, -⟩ := sliceRows_sameRow hfits hpos hend
  refine ⟨run.zipIdx.map fun entry => (entry.1, TQRows.selection chunk entry.2), ?_, ?_, ?_⟩
  · unfold TQRows.readRun
    rw [hhead, hlast, hchunk]
    rfl
  · rw [map_map]
    exact zipIdx_map_fst 0 run
  · intro e he
    obtain ⟨⟨id, i⟩, hmem, rfl⟩ := mem_map.mp he
    obtain ⟨hi, hid⟩ := List.getElem?_eq_some_iff.mp (mem_zipIdx_iff_getElem?.mp hmem)
    rw [← hrun] at hselect
    have hroom : t.Room run := by
      rw [hrun]
      exact room_range hend
    have hreads := selection_reads hselect hrange hroom hi
    rwa [getD_eq_getElem _ _ hi, hid] at hreads

theorem readRuns_ok (hfits : t.Fits) {runs : List (List Nat)}
    (hruns : ∀ run ∈ runs, run ≠ [] ∧ run = List.range' (run.headD 0) run.length ∧
      ∀ id ∈ run, id < t.rows) :
    ∃ selections, runs.mapM t.reader.readRun = .ok selections ∧
      selections.flatten.map Prod.fst = runs.flatten ∧
      ∀ e ∈ selections.flatten, t.Reads e.1 e.2 := by
  induction runs with
  | nil => exact ⟨[], rfl, rfl, by simp⟩
  | cons run runs ih =>
    obtain ⟨hne, hrun, hrange⟩ := hruns run (by simp)
    obtain ⟨entries, hentries, hfst, hreads⟩ := readRun_ok hfits hne hrun hrange
    obtain ⟨selections, hselections, hfst', hreads'⟩ := ih fun r hr => hruns r (by simp [hr])
    refine ⟨entries :: selections, ?_, ?_, ?_⟩
    · rw [mapM_cons, hentries]
      change (runs.mapM t.reader.readRun >>= _) = _
      rw [hselections]
      rfl
    · rw [flatten_cons, map_append, hfst, hfst', flatten_cons]
    · intro e he
      rw [flatten_cons, mem_append] at he
      rcases he with he | he
      · exact hreads e he
      · exact hreads' e he

theorem lookup_of_mem {α : Type} {entries : List (Nat × α)} {row : Nat}
    (h : row ∈ entries.map Prod.fst) : ∃ s, entries.lookup row = some s ∧ (row, s) ∈ entries := by
  obtain ⟨⟨key, s⟩, hmem, rfl⟩ := mem_map.mp h
  have hsome : (entries.lookup key).isSome = true :=
    lookup_isSome_iff.mpr ⟨(key, s), hmem, beq_self_eq_true key⟩
  obtain ⟨s', hs'⟩ := Option.isSome_iff_exists.mp hsome
  obtain ⟨before, after, hentries, -⟩ := lookup_eq_some_iff.mp hs'
  exact ⟨s', hs', by simp [hentries]⟩

theorem exists_forall₂ {α β : Type} {R : α → β → Prop} {xs : List α} (h : ∀ x ∈ xs, ∃ y, R x y) :
    ∃ ys, List.Forall₂ R xs ys := by
  induction xs with
  | nil => exact ⟨[], .nil⟩
  | cons x xs ih =>
    obtain ⟨y, hy⟩ := h x (by simp)
    obtain ⟨ys, hys⟩ := ih fun x' hx' => h x' (mem_cons_of_mem x hx')
    exact ⟨y :: ys, .cons hy hys⟩

/-! ### The gathered tensor -/

/-- Another offset does not change what a descriptor has beside its offset. -/
theorem place_and_not {d : UInt64} {off : Nat} (h : t.Places off) :
    t.place d off &&& ~~~t.offsetMask = d &&& ~~~t.offsetMask := by
  apply UInt64.toNat_inj.mp
  apply Nat.eq_of_testBit_eq
  intro i
  rw [UInt64.toNat_and, UInt64.toNat_and, Nat.testBit_and, Nat.testBit_and,
    Components.toNat_not_offsetMask, testBit_complement, Components.testBit_offsetMask,
    Components.testBit_place h]
  by_cases hbit : t.OffsetBit i
  · have hi : i < 64 := by
      unfold Components.OffsetBit at hbit
      split at hbit <;> omega
    simp [hbit, hi]
  · simp [hbit]

section Chosen

variable {ids : List Nat} {chosen : List TQRows.Selection} (h : List.Forall₂ t.Reads ids chosen)
  (hrange : ∀ id ∈ ids, id < t.rows)

include h

include hrange in
theorem placeRows_eq (words : Nat) : t.reader.placeRows words chosen
    = List.zipWith (fun id off => t.place (t.descriptor id) off) ids
        (cumulative words (t.rowWords ids)) := by
  induction h generalizing words with
  | nil => rfl
  | @cons id s ids chosen hreads _ ih =>
    have hid : id < t.rows := hrange id (by simp)
    obtain ⟨off, hplaces, hdescriptor⟩ := hreads.descriptor
    have hwords : s.stream.length / 4 = t.words (t.descriptor id) := by
      rw [hreads.stream, Components.length_rowSlice t.sound hid]
      omega
    have hmask : t.reader.offsetMask = t.offsetMask := rfl
    rw [TQRows.placeRows, Components.rowWords, map_cons, cumulative, zipWith_cons_cons,
      hwords, ih (fun i hi => hrange i (mem_cons_of_mem _ hi)), hdescriptor, hmask,
      place_and_not hplaces]
    rfl

theorem streams_eq : chosen.flatMap (·.stream) = ids.flatMap t.rowSlice := by
  induction h with
  | nil => rfl
  | cons hreads _ ih => rw [flatMap_cons, flatMap_cons, ih, hreads.stream]

theorem values_eq (hcolumns : t.columns = false) :
    (chosen.flatMap fun s => s.scale.values) = ids.flatMap t.rowSelectors := by
  induction h with
  | nil => rfl
  | cons hreads _ ih => rw [flatMap_cons, flatMap_cons, ih, hreads.values hcolumns]

theorem scales_eq (hids : ids ≠ []) :
    (if t.reader.columns then (chosen.map (·.scale)).headD (.columns [])
    else .selectors (packSelectors (chosen.flatMap fun s => s.scale.values)))
      = (t.select ids).scales := by
  cases hscales : t.scales with
  | columns scales =>
    have hcolumns : t.reader.columns = true := Components.columns_eq_true hscales
    rw [if_pos hcolumns, Components.scales_select_columns hscales]
    cases h with
    | nil => exact absurd rfl hids
    | cons hreads _ => exact hreads.scale scales hscales
  | selectors scales =>
    have hcolumns := Components.columns_eq_false hscales
    rw [if_neg (by simp [reader, hcolumns]), Components.scales_select_selectors hscales,
      values_eq h hcolumns]

end Chosen

/-- **`gather_rows` makes the selection of the rows that are asked for.** -/
theorem gatherRows_reader (hfits : t.Fits) {rows : List Int} (hne : rows ≠ [])
    (hrows : ∀ row ∈ rows, 0 ≤ row ∧ row < t.rows) :
    t.reader.gatherRows rows = make (t.select (rows.map Int.toNat)) := by
  have hrange : ∀ id ∈ rows.map Int.toNat, id < t.rows := by
    intro id hid
    obtain ⟨row, hrow, rfl⟩ := mem_map.mp hid
    have hbounds := hrows row hrow
    omega
  have hruns : ∀ run ∈ (TQRows.unique (rows.map Int.toNat)).splitBy (fun a b => b = a + 1),
      run ≠ [] ∧ run = List.range' (run.headD 0) run.length ∧ ∀ id ∈ run, id < t.rows := by
    intro run hrun
    refine ⟨ne_nil_of_mem_splitBy hrun, run_eq_range' (isChain_of_mem_splitBy hrun),
      fun id hid => ?_⟩
    have hflat : id ∈ ((TQRows.unique (rows.map Int.toNat)).splitBy fun a b => b = a + 1).flatten :=
      mem_flatten.mpr ⟨run, hrun, hid⟩
    rw [flatten_splitBy, mem_unique] at hflat
    exact hrange id hflat
  obtain ⟨selections, hselections, hfst, hreads⟩ := readRuns_ok hfits hruns
  rw [flatten_splitBy] at hfst
  have hfound : ∀ row ∈ rows.map Int.toNat, ∃ s, selections.flatten.lookup row = some s ∧
      t.Reads row s := by
    intro row hrow
    obtain ⟨s, hs, hmem⟩ := lookup_of_mem (show row ∈ selections.flatten.map Prod.fst by
      rw [hfst, mem_unique]
      exact hrow)
    exact ⟨s, hs, hreads _ hmem⟩
  obtain ⟨chosen, hchosen⟩ := exists_forall₂ hfound
  have hforall : List.Forall₂ t.Reads (rows.map Int.toNat) chosen := hchosen.imp fun row s h => h.2
  have hgs : ((t.reader.gs : Nat) : Int) = t.gs := Int.toNat_of_nonneg hfits.gs.1
  unfold TQRows.gatherRows
  rw [if_neg ?_]
  · refine (bind_of_ok hselections _).trans
      ((bind_of_ok (mapM_eq_ok.mpr (hchosen.imp fun row s h => ?_)) _).trans ?_)
    · rw [h.1]
    have hids : rows.map Int.toNat ≠ [] := by simpa using hne
    refine congrArg make ?_
    rw [scales_eq hforall hids, placeRows_eq hforall hrange, streams_eq hforall, hgs]
    rfl
  · rintro (hnil | hneg | hge)
    · exact hne hnil
    · obtain ⟨row, hrow, hlt⟩ := any_eq_true.mp hneg
      have hbounds := hrows row hrow
      have hlt' := of_decide_eq_true hlt
      omega
    · obtain ⟨row, hrow, hle⟩ := any_eq_true.mp hge
      have hbounds := hrows row hrow
      have hle' := of_decide_eq_true hle
      change (t.rows : Int) ≤ row at hle'
      omega

end TQTensor

end TyloQuant.Tq
