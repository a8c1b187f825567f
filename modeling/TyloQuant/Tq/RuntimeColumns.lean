import TyloQuant.Tq.RingRows

/-!
# Ranges of columns in the runtime

The runtime's `slice_columns` writes the bytes of the range of whole rings.
-/

namespace TyloQuant.Tq

open Lib Bytes ByteFile Bits List

namespace TQTensor

variable {t : TQTensor} {begin_ w : Nat}

theorem checkColumns_runtime (hzero : ∀ row < t.rows, anchorOf (t.descriptor row).toNat ≠ 0x8000)
    {i k : Nat} (hk : i + k ≤ t.rows) :
    TqRows.checkColumns t.layout (t.start i)
      ((List.range' i k).map fun row => (t.descriptor row).toNat)
      = .ok (t.start (i + k)) := by
  induction k generalizing i with
  | zero => rfl
  | succ k ih =>
    have hrow : i < t.rows := by omega
    have hvalid := validDescriptor_layout (t.sound.descriptor_mem hrow) (hzero i hrow)
    have hoffset := t.sound.offset_eq hrow
    have hsucc := t.sound.start_succ hrow
    have hwords : t.start i + t.layout.width * bitsOf (t.descriptor i).toNat / 32
        = t.start (i + 1) := hsucc.symm
    rw [range'_succ, map_cons, TqRows.checkColumns, offset_layout, hoffset,
      if_neg (by simp [hvalid]), hwords, ih (by omega), show i + 1 + k = i + (k + 1) by omega]

section Rings

variable (h : t.Rings begin_ w)

include h

theorem copyColumns_runtime {i k : Nat} (hk : i + k ≤ t.rows) :
    TqRows.copyColumns t.runtimeRows begin_ w (t.keptStart w i * 4)
        ((List.range' i k).map fun row => (t.descriptor row).toNat)
      = .ok ((List.range' i k).map (fun row =>
          ringDescriptor (t.descriptor row).toNat (t.keptStart w row)),
        (List.range' i k).flatMap (t.columnSlice begin_ w)) := by
  induction k generalizing i with
  | zero => rfl
  | succ k ih =>
    have hrow : i < t.rows := by omega
    have hlength := t.length_payload
    have hfits := t.sound.row_fits hrow
    have hcolumns := column_fits h i
    have hoffset := t.sound.offset_eq hrow
    have hkept : w * bitsOf (t.descriptor i).toNat / 8 = t.keptWords w i * 4 :=
      kept_bytes (by have := h.whole; omega) i
    have hcursor : t.keptStart w i * 4 + t.keptWords w i * 4 = t.keptStart w (i + 1) * 4 := by
      rw [keptStart_succ hrow]
      omega
    have hbits : begin_ * bitsOf (t.descriptor i).toNat / 8 = begin_ * t.bits i / 8 := rfl
    have hread : readRange t.payload (t.layout.packed + t.start i * 4
        + begin_ * bitsOf (t.descriptor i).toNat / 8) (t.keptWords w i * 4)
        = .ok (t.columnSlice begin_ w i) := by
      have hbytes : w * t.bits i / 8 = t.keptWords w i * 4 := hkept
      rw [packed_layout, readRange_ok (by omega), Nat.add_assoc, t.slice_packed, columnSlice, hbits,
        hbytes]
    rw [range'_succ, map_cons, TqRows.copyColumns]
    dsimp only
    rw [layout_runtimeRows, source_runtimeRows, offset_layout, hoffset, hkept, hcursor]
    refine (bind_of_ok hread _).trans ((bind_of_ok (ih (by omega)) _).trans ?_)
    rw [map_cons, flatMap_cons, Nat.mul_div_cancel _ (by omega)]
    rfl

theorem sum_kept : ((List.range t.rows).map fun row => w * bitsOf (t.descriptor row).toNat / 8).sum
    = ((List.range t.rows).map (t.keptWords w)).sum * 4 := by
  have hmap : ((List.range t.rows).map fun row => w * bitsOf (t.descriptor row).toNat / 8)
      = (List.range t.rows).map fun row => t.keptWords w row * 4 :=
    map_congr_left fun row _ => kept_bytes (by have := h.whole; omega) row
  rw [hmap, sum_map_mul_right]

omit h in
theorem scaleBytes_sliceColumns {u : TQTensor} (hu : u.toComponents = t.sliceColumns begin_ w)
    (hcolumns : t.columns = true) :
    u.scaleBytes = (t.scaleBytes.drop (begin_ * 2)).take (w * 2) := by
  unfold Components.columns at hcolumns
  cases hscales : t.scales with
  | columns scales =>
    have hscales' : u.scales = .columns ((scales.drop begin_).take w) := by
      rw [hu]
      simp only [sliceColumns, hscales]
    have hlength (s : UInt16) : (littleEndian 2 s.toNat).length = 2 := length_littleEndian _ _
    simp only [scaleBytes, hscales, hscales']
    rw [drop_flatMap_const hlength, take_flatMap_const hlength]
  | selectors scales =>
    rw [hscales] at hcolumns
    cases hcolumns

omit h in
theorem selectors_sliceColumns {u : TQTensor} (hu : u.toComponents = t.sliceColumns begin_ w)
    (hcolumns : t.columns = false) :
    u.scaleBytes = packSelectors ((List.range (t.rows * sliceGroups w t.gs.toNat)).map
      (t.sliceSelector t.scaleBytes begin_ w)) := by
  unfold Components.columns at hcolumns
  cases hscales : t.scales with
  | columns scales =>
    rw [hscales] at hcolumns
    cases hcolumns
  | selectors scales =>
    have hscales' : u.scales = .selectors (packSelectors
        ((List.range (t.rows * sliceGroups w t.gs.toNat)).map
          (t.sliceSelector scales begin_ w))) := by
      rw [hu]
      simp only [sliceColumns, hscales]
    simp only [scaleBytes, hscales, hscales']

theorem headerOf_sliceColumns {u : TQTensor} (hu : u.toComponents = t.sliceColumns begin_ w) :
    overwrite (overwrite (overwrite (overwrite (overwrite t.head 0 magic05) 8 (littleEndian 4 5)) 16
      (littleEndian 4 w)) 24 (littleEndian 4
        (if t.columns then t.gs.toNat else sliceGs t.gs.toNat))) 28 (littleEndian 4 u.packed.length)
      = u.head := by
  have hmagic05 : magic05.length = 8 := rfl
  have hcompact : u.compact = false := by
    rw [hu]
    exact compact_sliceColumns h
  have hmagic : u.magic = magic05 := by rw [magic, hcompact, if_neg Bool.false_ne_true]
  have hrows : u.rows = t.rows := by
    rw [hu]
    rfl
  have hwidth : u.width = w := by
    rw [hu]
    rfl
  have hcolumns : u.columns = t.columns := by rw [hu, columns_sliceColumns]
  have hgs : u.gs.toNat = if t.columns then t.gs.toNat else sliceGs t.gs.toNat := by
    rw [hu]
    simp only [sliceColumns]
    split
    · rfl
    · rfl
  rw [head_eq t, overwrite_magic t.length_magic _ _ _ _ _ _ hmagic05,
    overwrite_version hmagic05, overwrite_width hmagic05, overwrite_gs hmagic05,
    overwrite_packed hmagic05, head_eq u, hmagic, hcompact, hrows, hwidth, hcolumns, hgs]
  rfl

/-- **The runtime's `slice_columns` writes the bytes of a range of whole rings.** -/
theorem sliceColumns_runtime (hfits : t.Fits)
    (hzero : ∀ row < t.rows, anchorOf (t.descriptor row).toNat ≠ 0x8000) {u : TQTensor}
    (hu : u.toComponents = t.sliceColumns begin_ w) :
    t.runtimeRows.sliceColumns begin_ (begin_ + w) = .ok u.payload := by
  have hlength := t.length_payload
  have hpos := h.pos
  have hle := h.le
  have hfirst := h.first
  have hwhole := h.whole
  have htotal := t.sound.total
  have hrecords : (List.range t.rows).map (fun row => integer
      ((t.payload.drop 64).take (t.rows * 8)) (row * 8) 8)
      = (List.range' 0 t.rows).map fun row => (t.descriptor row).toNat := by
    rw [← range_eq_range']
    apply map_congr_left
    intro row hrow
    have hlt := mem_range.mp hrow
    rw [integer_slice _ (by omega), Nat.mul_comm row, t.descriptor_payload hlt]
  have hscales : readRange t.payload t.layout.scales t.layout.scaleBytes = .ok t.scaleBytes := by
    rw [show t.layout.scales = 64 + t.rows * 8 from rfl, scaleBytes_layout,
      readRange_ok (by omega), t.scales_payload]
  have hcheck := checkColumns_runtime hzero (show 0 + t.rows ≤ t.rows by omega)
  have hcopy := copyColumns_runtime h (show 0 + t.rows ≤ t.rows by omega)
  have hstart : t.start 0 = 0 := by simp [Components.start]
  have hkept : t.keptStart w 0 * 4 = 0 := by simp [keptStart]
  have hsum : (((List.range' 0 t.rows).map fun row => (t.descriptor row).toNat).map
      fun d => w * bitsOf d / 8).sum = u.packed.length := by
    rw [map_map, ← range_eq_range', hu]
    exact (sum_kept h).trans (sum_lengths_columnSlice h t.rows le_rfl).symm
  rw [hstart, Nat.zero_add, t.sound.start_rows] at hcheck
  rw [hkept] at hcopy
  unfold TqRows.sliceColumns
  simp only [source_runtimeRows, layout_runtimeRows, rows_layout, packedBytes_layout,
    Nat.add_sub_cancel_left, groups_layout]
  rw [if_neg (by simp [layout]; omega), bind_of_ok (readRange_ok (by omega)), bind_of_ok hscales,
    hrecords, bind_of_ok hcheck, if_neg (not_not_intro htotal), bind_of_ok hcopy, hsum]
  have hheader := headerOf_sliceColumns h hu
  have hdescriptors : u.descriptors.flatMap (fun d => littleEndian 8 d.toNat)
      = ((List.range' 0 t.rows).map fun row =>
          ringDescriptor (t.descriptor row).toNat (t.keptStart w row)).flatMap (littleEndian 8) := by
    rw [hu, sliceColumns, flatMap_map, flatMap_map, ← range_eq_range']
    simp only [toNat_ringDescriptor h hfits]
  have hpacked : u.packed = (List.range' 0 t.rows).flatMap (t.columnSlice begin_ w) := by
    rw [hu, ← range_eq_range']
    rfl
  have hlayout : t.layout.columns = t.columns := rfl
  have hgs : t.layout.gs = t.gs.toNat := rfl
  have hhead : t.runtimeRows.header = t.head := rfl
  dsimp only
  rw [← hdescriptors, ← hpacked]
  cases hcolumns : t.columns with
  | true =>
    have hscales' := scaleBytes_sliceColumns hu hcolumns
    simp only [hcolumns, if_true] at hheader
    simp only [hlayout, hgs, hhead, hcolumns, if_true, hheader, ← hscales']
    rfl
  | false =>
    have hscales' := (filled_packSelectors (fun _ => selectorAt_lt _ _) _).trans
      (selectors_sliceColumns hu hcolumns).symm
    simp only [hcolumns, Bool.false_eq_true, if_false] at hheader
    simp only [sliceGs] at hheader
    simp only [hlayout, hgs, hhead, hcolumns, Bool.false_eq_true, if_false, hheader]
    refine congrArg (fun scales => Except.ok (u.head ++ _ ++ scales ++ u.packed)) ?_
    exact hscales'

end Rings

end TQTensor

end TyloQuant.Tq
