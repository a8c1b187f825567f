import TyloQuant.Tq.SliceColumns

/-!
# Rows of ranges of columns

Each row of a range of whole rings has the states of these rings, and the scales of their columns.
-/

namespace TyloQuant.Tq

open Lib Bytes ByteFile Bits List

namespace TQTensor

variable {t t' : TQTensor} {begin_ w : Nat} (h : t.Rings begin_ w) (hfits : t.Fits)
  (h' : t'.toComponents = t.sliceColumns begin_ w)

include h hfits h'

variable {row : Nat}

theorem descriptor_sliceColumns (hrow : row < t.rows) :
    (t'.descriptor row).toNat = ringDescriptor (t.descriptor row).toNat (t.keptStart w row) := by
  rw [h', Components.descriptor, sliceColumns, getD_map_range _ _ hrow]
  exact toNat_ringDescriptor h hfits row

theorem start_sliceColumns (row : Nat) : t'.start row = t.keptStart w row := by
  have hlengths : t'.lengths = (List.range t.rows).map (t.keptWords w) := by
    rw [h']
    exact lengths_sliceColumns h hfits
  rw [Components.start, hlengths]
  rfl

theorem bits_sliceColumns (hrow : row < t.rows) : t'.bits row = t.bits row := by
  have hlt := keptStart_lt h hfits row
  rw [bits, descriptor_sliceColumns h hfits h' hrow, bitsOf_ringDescriptor (by omega)]
  rfl

theorem rowByte_sliceColumns {j : Nat} (hrow : row < t.rows) (hj : j < w * t.bits row / 8) :
    t'.rowByte row j = t.rowByte row (begin_ * t.bits row / 8 + j) := by
  have hkept := kept_bytes (t := t) (w := w) (by have := h.whole; omega) row
  have hrange : (List.range t.rows).getD row 0 = row := by
    rw [getD_eq_getElem _ _ (by simpa using hrow), getElem_range]
  have hlengths : ((List.range t.rows).map fun row => (t.columnSlice begin_ w row).length)
      = ((List.range t.rows).map (t.keptWords w)).map (· * 4) := by
    rw [map_map]
    exact map_congr_left fun row hrow => length_columnSlice h (mem_range.mp hrow)
  have hstart : t'.start row * 4
      = (((List.range t.rows).map fun row => (t.columnSlice begin_ w row).length).take row).sum := by
    rw [hlengths, start_sliceColumns h hfits h', ← map_take, sum_map_mul_right,
      map_id', keptStart]
  have hpacked : t'.packed = (List.range t.rows).flatMap (t.columnSlice begin_ w) := by
    rw [h']
    rfl
  rw [rowByte, hstart, hpacked, byte_flatMap _ 0 (by simpa using hrow)
      (by rw [hrange, length_columnSlice h hrow]; omega), hrange, columnSlice, byte_take, if_pos hj,
    byte_drop, rowByte, Nat.add_assoc]

omit hfits in
theorem scaleAt_sliceColumns {col : Nat} (hrow : row < t.rows) (hcol : col < w) :
    t'.scaleAt row col = t.scaleAt row (begin_ + col) := by
  rw [h', Components.scaleAt, Components.scaleAt]
  cases hscales : t.scales with
  | columns scales =>
    simp only [sliceColumns, hscales]
    rw [getD_eq_getElem?_getD, getElem?_take, if_pos hcol, getElem?_drop,
      ← getD_eq_getElem?_getD]
  | selectors scales =>
    have hcolumns := Components.columns_eq_false hscales
    obtain ⟨hge, -, hpow⟩ := t.sound.grouped hcolumns
    have hge' : 16 ≤ t.gs.toNat := by omega
    have hgroups : (t.sliceColumns begin_ w).groups = sliceGroups w t.gs.toNat :=
      groups_sliceColumns hcolumns
    have hgs : (t.sliceColumns begin_ w).gs = sliceGs t.gs.toNat := gs_sliceColumns hcolumns
    have hgroup : col / sliceGs t.gs.toNat < sliceGroups w t.gs.toNat := by
      have hlt := t'.sound.group_lt (by rw [h', columns_sliceColumns, hcolumns])
        (show col < t'.width by rw [h']; exact hcol)
      rwa [h', hgroups, hgs] at hlt
    have hplace : row * sliceGroups w t.gs.toNat + col / sliceGs t.gs.toNat
        < t.rows * sliceGroups w t.gs.toNat := by
      have hle : (row + 1) * sliceGroups w t.gs.toNat ≤ t.rows * sliceGroups w t.gs.toNat :=
        Nat.mul_le_mul_right _ hrow
      rw [Nat.succ_mul] at hle
      omega
    have hlt : ∀ s ∈ (List.range (t.rows * sliceGroups w t.gs.toNat)).map
        (t.sliceSelector scales begin_ w), s < 16 := by
      intro s hs
      obtain ⟨i, -, rfl⟩ := mem_map.mp hs
      exact selectorAt_lt _ _
    have hdiv : (row * sliceGroups w t.gs.toNat + col / sliceGs t.gs.toNat)
        / sliceGroups w t.gs.toNat = row := by
      rw [Nat.mul_comm, Nat.mul_add_div (Nat.zero_lt_of_lt hgroup), Nat.div_eq_of_lt hgroup,
        Nat.add_zero]
    have hmod : (row * sliceGroups w t.gs.toNat + col / sliceGs t.gs.toNat)
        % sliceGroups w t.gs.toNat = col / sliceGs t.gs.toNat := by
      rw [Nat.mul_comm, Nat.mul_add_mod, Nat.mod_eq_of_lt hgroup]
    have hscales' : (t.sliceColumns begin_ w).scales = .selectors (packSelectors
        ((List.range (t.rows * sliceGroups w t.gs.toNat)).map
          (t.sliceSelector scales begin_ w))) := by
      simp only [sliceColumns, hscales]
    rw [hscales', hgroups, hgs]
    dsimp only
    rw [Int.toNat_natCast, selectorAt_packSelectors hlt (by simpa using hplace),
      getD_map_range _ _ hplace, sliceSelector, hdiv, hmod, group_slice hge' hpow h.first]

omit hfits h' in
theorem stateAt_sliceColumns {k seed seed' i : Nat} {raw raw' : Nat → UInt8} (hk : 0 < k)
    (hraw : ∀ j < w * k / 8, raw' j = raw (begin_ * k / 8 + j)) (hi : i < w) :
    stateAt w k seed' raw' i = stateAt t.width k seed raw (begin_ + i) := by
  obtain ⟨q, rfl⟩ : ∃ q, begin_ = 256 * q := ⟨begin_ / 256, by have := h.first; omega⟩
  have hle := h.le
  have hwhole := h.whole
  have hsplit := row_bytes_split w k
  have hfirst : 256 * q * k / 8 = 32 * k * q := by
    rw [show 256 * q * k = 8 * (32 * k * q) by ring]
    omega
  rw [stateAt, stateAt, if_pos (by omega), if_pos (by omega),
    show (256 * q + i) / 256 = q + i / 256 by omega, show (256 * q + i) % 256 = i % 256 by omega]
  rw [hfirst] at hraw
  have hring := @ring_congr k (w / 256) i raw' (fun j => raw (32 * k * q + j)) hk (by omega)
    fun j hj => hraw j (by omega)
  rw [hring, Nat.mul_add]
  simp only [Nat.add_assoc]

/-- **Each row of a range of whole rings is these columns of the row.** -/
theorem sameRow_sliceColumns (hrow : row < t.rows) : SameRow t row t' row begin_ := by
  have hlt := keptStart_lt h hfits row
  have hwidth : t'.width = w := by
    rw [h']
    rfl
  have hrow' : row < t'.rows := by
    rw [h']
    exact hrow
  have hbits := bits_sliceColumns h hfits h' hrow
  have hle := h.le
  refine ⟨hbits, ?_, ?_, fun col hcol => ?_, _, TQTensor.states_eq hrow, ?_⟩
  · rw [descriptor_sliceColumns h hfits h' hrow, anchorOf_ringDescriptor (by omega)]
  · rw [h', columns_sliceColumns]
  · exact scaleAt_sliceColumns h h' hrow (hwidth ▸ hcol)
  · rw [TQTensor.states_eq hrow', hwidth, hbits]
    refine congrArg Except.ok (ext_getElem ?_ fun i hi hi' => ?_)
    · simp
      omega
    · have hi'' : i < w := by simpa using hi
      rw [getElem_map, getElem_range, getElem_take, getElem_drop,
        getElem_map, getElem_range]
      exact stateAt_sliceColumns h (bitsOf_le _).1
        (fun j hj => rowByte_sliceColumns h hfits h' hrow hj) hi''

end TQTensor

end TyloQuant.Tq
