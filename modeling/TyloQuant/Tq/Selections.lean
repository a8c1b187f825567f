import TyloQuant.Tq.Gather
import TyloQuant.Tq.RuntimeColumns

/-!
# Selections keep their rows

Both readers of a tensor's bytes give tensors whose rows are the rows that were selected: a range of
rows, a range of whole rings, or rows in any order.
-/

namespace TyloQuant.Tq

open Lib Bytes ByteFile

namespace TQTensor

variable {t t' : TQTensor}

/-- The numbers of a tensor fit the header when those of a larger one do. -/
theorem Fits.mono (hfits : t.Fits) (hrows : t'.rows ≤ t.rows) (hwidth : t'.width ≤ t.width)
    (hgs : 0 ≤ t'.gs ∧ t'.gs ≤ t.gs) (hpacked : t'.packed.length ≤ t.packed.length) : t'.Fits where
  rows := lt_of_le_of_lt hrows hfits.rows
  width := lt_of_le_of_lt hwidth hfits.width
  gs := ⟨hgs.1, lt_of_le_of_lt hgs.2 hfits.gs.2⟩
  packed := lt_of_le_of_lt hpacked hfits.packed

theorem fits_range (hfits : t.Fits) {begin_ n : Nat} (hend : begin_ + n ≤ t.rows)
    (h : t'.toComponents = t.select (List.range' begin_ n)) : t'.Fits := by
  have hrows : t'.rows = n := by
    rw [h]
    exact List.length_range'
  have hwidth : t'.width = t.width := by
    rw [h]
    rfl
  have hgs : t'.gs = t.gs := by
    rw [h]
    rfl
  have hpacked : t'.packed = (t.packed.drop (t.start begin_ * 4)).take
      ((t.start (begin_ + n) - t.start begin_) * 4) := by
    rw [h, ← packed_range hend]
    rfl
  refine hfits.mono (by omega) hwidth.le ⟨?_, hgs.le⟩ ?_
  · rw [hgs]
    exact hfits.gs.1
  · rw [hpacked, List.length_take, List.length_drop]
    omega

theorem fits_sliceColumns (hfits : t.Fits) {begin_ w : Nat} (hrings : t.Rings begin_ w)
    (h : t'.toComponents = t.sliceColumns begin_ w) : t'.Fits := by
  have hle := hrings.le
  have htotal := t.sound.total
  have hsum := keptSum_le hrings
  have hgs := hfits.gs
  have hmin : sliceGs t.gs.toNat ≤ t.gs.toNat := Nat.min_le_left _ _
  have hgs' : t'.gs = if t.columns then t.gs else sliceGs t.gs.toNat := by
    rw [h]
    rfl
  have hrows : t'.rows = t.rows := by
    rw [h]
    rfl
  have hwidth : t'.width = w := by
    rw [h]
    rfl
  have hpacked : t'.packed.length = ((List.range t.rows).map (t.keptWords w)).sum * 4 := by
    rw [h, ← sum_lengths_columnSlice hrings t.rows le_rfl]
    rfl
  refine hfits.mono hrows.le (by omega) ?_ (by omega)
  rw [hgs']
  split
  · exact ⟨hgs.1, le_rfl⟩
  · omega

/-- A tensor of the rows that are asked for, each of them as it was. -/
structure HasRows (t t' : TQTensor) (ids : List Nat) : Prop where
  rows : t'.rows = ids.length
  width : t'.width = t.width
  same : ∀ i < ids.length, SameRow t (ids.getD i 0) t' i 0

theorem hasRows_select {ids : List Nat} (hrange : ∀ id ∈ ids, id < t.rows) (hroom : t.Room ids)
    (h : t'.toComponents = t.select ids) : t.HasRows t' ids where
  rows := by
    rw [h]
    rfl
  width := by
    rw [h]
    rfl
  same := fun _ hi => sameRow_select h hrange hroom hi

/-- **The readers of a tensor's bytes give the rows that are selected.** -/
theorem selections_keep_rows (t : TQTensor) (hfits : t.Fits) :
    t.toBytes = .ok t.payload ∧
    TQRows.make t.payload = .ok t.reader ∧ TqRows.make t.payload = .ok t.runtimeRows ∧
    (∀ begin_ end_, begin_ < end_ → end_ ≤ t.rows →
      ∃ t' bytes, t.reader.sliceRows begin_ end_ = .ok t' ∧ t'.toBytes = .ok bytes ∧
        t.HasRows t' (List.range' begin_ (end_ - begin_)) ∧
        ((∀ row, begin_ ≤ row → row < end_ → anchorOf (t.descriptor row).toNat ≠ 0x8000) →
          t.runtimeRows.sliceRows begin_ end_ = .ok bytes ∧ fromBytes bytes = .ok t')) ∧
    (∀ begin_ end_, begin_ < end_ → end_ ≤ t.width → begin_ % 256 = 0 → end_ % 256 = 0 →
      (∀ row < t.rows, anchorOf (t.descriptor row).toNat ≠ 0x8000) →
      ∃ t' bytes, t.runtimeRows.sliceColumns begin_ end_ = .ok bytes ∧ fromBytes bytes = .ok t' ∧
        t'.rows = t.rows ∧ t'.width = end_ - begin_ ∧
        ∀ row < t.rows, SameRow t row t' row begin_) ∧
    ∀ rows : List Int, rows ≠ [] → (∀ row ∈ rows, 0 ≤ row ∧ row < t.rows) →
      t.Room (rows.map Int.toNat) →
      ∃ t', t.reader.gatherRows rows = .ok t' ∧ t.HasRows t' (rows.map Int.toNat) := by
  refine ⟨toBytes_ok.mpr hfits, make_reader t hfits, make_runtimeRows t hfits,
    fun begin_ end_ hpos hend => ?_, fun begin_ end_ hpos hend hbegin hend' hzero => ?_,
    fun rows hne hrows hroom => ?_⟩
  · obtain ⟨n, rfl⟩ := Nat.exists_eq_add_of_le hpos.le
    have hn : 0 < n := by omega
    obtain ⟨t', hslice, -, -, hselect, -⟩ := sliceRows_sameRow hfits hn hend
    have hfits' := fits_range hfits hend hselect
    rw [Nat.add_sub_cancel_left]
    refine ⟨t', t'.payload, hslice, toBytes_ok.mpr hfits',
      hasRows_select (range_lt hend) (room_range hend) hselect, fun hzero => ?_⟩
    exact ⟨sliceRows_runtime hfits hzero hn hend hselect, fromBytes_payload hfits'⟩
  · obtain ⟨w, rfl⟩ := Nat.exists_eq_add_of_le hpos.le
    have hrings : t.Rings begin_ w := ⟨by omega, hend, hbegin, by omega⟩
    obtain ⟨t', -, hslice⟩ := exists_make (sound_sliceColumns hrings hfits)
    have hfits' := fits_sliceColumns hfits hrings hslice
    refine ⟨t', t'.payload, sliceColumns_runtime hrings hfits hzero hslice,
      fromBytes_payload hfits', ?_, ?_, fun row hrow => sameRow_sliceColumns hrings hfits hslice hrow⟩
    · rw [hslice]
      rfl
    · rw [hslice, Nat.add_sub_cancel_left]
      rfl
  · have hrange : ∀ id ∈ rows.map Int.toNat, id < t.rows := by
      intro id hid
      obtain ⟨row, hrow, rfl⟩ := List.mem_map.mp hid
      have hbounds := hrows row hrow
      omega
    obtain ⟨t', hmake, hselect⟩ := exists_make
      (Components.sound_select t.sound hrange hroom (by simpa using hne))
    exact ⟨t', (gatherRows_reader hfits hne hrows).trans hmake, hasRows_select hrange hroom hselect⟩

/-- Two rows of one ring, at one bit and at two. -/
def twoRows : TQTensor where
  rows := 2
  width := 256
  gs := 256
  scales := .selectors [0x93]
  descriptors := [0x3c0000000000, 0x28000100000008]
  packed := List.replicate 32 0xa5 ++ List.replicate 64 0x3c
  checked := by decide +kernel

/-- One row whose anchor is a negative zero. -/
def negativeZero : TQTensor where
  rows := 1
  width := 256
  gs := 256
  scales := .selectors [0x03]
  descriptors := [0x80000000000000]
  packed := List.replicate 32 0xa5
  checked := by decide +kernel

theorem selections_keep_rows_sample :
    ∃ t', twoRows.reader.gatherRows [1, 0, 1] = .ok t' ∧ twoRows.HasRows t' [1, 0, 1] :=
  (selections_keep_rows twoRows ⟨by decide, by decide, by decide, by decide⟩).2.2.2.2.2 [1, 0, 1]
    (by decide) (by decide) (by decide +kernel)

/-- The one reader takes a negative zero, and the other one does not; no rows are refused. -/
theorem negativeZero_refused :
    negativeZero.toBytes = .ok negativeZero.payload ∧
    TqRows.make negativeZero.payload = .ok negativeZero.runtimeRows ∧
    negativeZero.reader.sliceRows 0 1 = .ok negativeZero ∧
    negativeZero.runtimeRows.sliceRows 0 1 = .error (.invalidArgument "invalid TQ row descriptor") ∧
    negativeZero.runtimeRows.sliceColumns 0 256
      = .error (.invalidArgument "invalid TQ row descriptor") ∧
    negativeZero.reader.gatherRows [] = .error (.valueError "Invalid TQ row indices") := by
  refine ⟨?_, ?_, ?_, ?_, ?_, ?_⟩
  · decide +kernel
  · decide +kernel
  · decide +kernel
  · decide +kernel
  · decide +kernel
  · decide +kernel

end TQTensor

end TyloQuant.Tq
